import Mathlib.Data.Nat.Log
import RustFits.Lib.InPlace
import RustFits.Zimage.Hcompress.Bits

/-!
# The quadtree coder of HCOMPRESS

`zimage/hcompress.rs`: `qtreeEncode` writes the bit planes of the coefficients of a
quadrant, from the top plane down, and `qtreeDecode` reads them back.

A plane is cut into blocks of 2×2 cells, and the bits of a block are a nybble
(`qtreeOnebit`).  The nybbles are reduced level by level, by a nybble that tells which
cells of a block are not zero (`qtreeReduce`), and those that are not zero are put into
a buffer as Huffman codes (`bufcopy`), which is written back to front.  A plane whose
codes would fill the buffer is written as it is (`writeBdirect`).  The decoder expands
level by level in the same array (`qtreeExpand`) and sets the bits of the plane
(`qtreeBitins`).

The source has the coder for words of 32 and of 64 bits; here the width is a parameter.
-/

namespace RustFits.Zimage.Hcompress

open Ascii BitStream Outcome

/-! ## Blocks -/

/-- `div_ceil(2)`. -/
def half (n : Nat) : Nat := (n + 1) / 2

/-- A cell of an array, and the bit that stands for it in the code of its block. -/
structure Cell where
  bit : Nat
  row : Nat
  col : Nat
  deriving DecidableEq, Repr

/-- The place of a cell in rows of stride `n`. -/
def Cell.pos (n : Nat) (c : Cell) : Nat := n * c.row + c.col

/-- The cells of a block in an array of `nx` rows of `ny`.  The loops of the source have
arms of their own for the blocks at the edges, which lack the cells off the edge. -/
def cells (nx ny : Nat) (block : Nat × Nat) : List Cell :=
  [⟨0, 2 * block.1 + 1, 2 * block.2 + 1⟩, ⟨1, 2 * block.1 + 1, 2 * block.2⟩,
    ⟨2, 2 * block.1, 2 * block.2 + 1⟩, ⟨3, 2 * block.1, 2 * block.2⟩].filter
    fun c => c.row < nx ∧ c.col < ny

/-- The blocks of an array, row by row. -/
def blocks (nx ny : Nat) : List (Nat × Nat) := grid (half nx) (half ny)

/-- `(x != 0) as u8`. -/
def flag (b : Bool) : Nybble := if b then 1 else 0

/-! ## Encoding -/

section

variable {w : Nat}

/-- `1 << bit`.  A build that checks for overflow refuses a shift by the width of the
word or more; any other takes the shift modulo the width. -/
def shlBit (w : Nat) (checks : Bool) (bit : Nat) : Outcome PyErr (BitVec w) :=
  if bit < w then .ok (1#w <<< bit) else if checks then .fault else .ok (1#w <<< (bit % w))

/-- `qtree_onebit`. -/
def qtreeOnebit (checks : Bool) (a : List (BitVec w)) (n nx ny : Nat)
    (b : List Nybble) (bit : Nat) :
    Outcome PyErr (List Nybble) := do
  let b0 ← shlBit w checks bit
  (blocks nx ny).zipIdx.foldlM (fun b job => do
    let v ← (cells nx ny job.1).foldlM (fun v c => do
      let x ← getAt a (c.pos n)
      pure (v ||| x <<< c.bit &&& b0 <<< c.bit)) 0#w
    setAt b job.2 ((v.sshiftRight (bit % w)).setWidth 4)) b

end

/-- `qtree_reduce`, from an array to its own front. -/
def qtreeReduce (n nx ny : Nat) (a : List Nybble) : Outcome PyErr (List Nybble) :=
  (blocks nx ny).zipIdx.foldlM (fun a job => do
    let v ← (cells nx ny job.1).foldlM (fun v c => do
      let x ← getAt a (c.pos n)
      pure (v ||| flag (x != 0) <<< c.bit)) 0#4
    setAt a job.2 v) a

/-- The Huffman buffer: `b` full bytes, and `bitsToGo3` bits of the next one. -/
structure HuffBuf where
  buffer : List UInt8
  b : Nat
  bitbuffer : Nat
  bitsToGo3 : Nat
  deriving DecidableEq, Repr

/-- A code goes above the bits that are there. -/
def HuffBuf.add (v : Nybble) (h : HuffBuf) : HuffBuf :=
  { h with
    bitbuffer := h.bitbuffer ||| hcode v * 2 ^ h.bitsToGo3 % 2 ^ 32
    bitsToGo3 := h.bitsToGo3 + hncode v }

/-- A full byte leaves the bit buffer. -/
def HuffBuf.shift (h : HuffBuf) (buffer : List UInt8) : HuffBuf :=
  ⟨buffer, h.b + 1, h.bitbuffer / 2 ^ 8, h.bitsToGo3 - 8⟩

/-- `bufcopy` from the place on that comes next; the flag is set when the buffer is full,
and then the bits stay as they are. -/
def bufcopy (a : List Nybble) (bmax : Nat) : List Nat → HuffBuf → Outcome PyErr (HuffBuf × Bool)
  | [], h => pure (h, false)
  | i :: rest, h => do
    let v ← getAt a i
    if v = 0 then bufcopy a bmax rest h
    else if 8 ≤ (h.add v).bitsToGo3 then do
      let buffer ← setAt h.buffer h.b (UInt8.ofNat ((h.add v).bitbuffer % 2 ^ 8))
      if bmax ≤ h.b + 1 then pure ({ h.add v with buffer := buffer, b := h.b + 1 }, true)
      else bufcopy a bmax rest ((h.add v).shift buffer)
    else bufcopy a bmax rest (h.add v)

/-- What is left of the passes over a plane: the scratch array, the Huffman buffer, and
whether it is full. -/
structure Passes where
  scratch : List Nybble
  huff : HuffBuf
  overflowed : Bool
  deriving DecidableEq, Repr

/-- A pass over an array of `nx` rows of `ny`, and `k` more, each over the array that the
last one is reduced to. -/
def encodePasses (bmax : Nat) : Nat → Nat → Nat → List Nybble → HuffBuf → Outcome PyErr Passes
  | 0, nx, ny, scratch, h => do
    let copied ← bufcopy scratch bmax (List.range (nx * ny)) h
    pure ⟨scratch, copied.1, copied.2⟩
  | k + 1, nx, ny, scratch, h => do
    let copied ← bufcopy scratch bmax (List.range (nx * ny)) h
    if copied.2 then pure ⟨scratch, copied.1, true⟩
    else do
      let scratch ← qtreeReduce ny nx ny scratch
      encodePasses bmax k (half nx) (half ny) scratch copied.1

/-- The codes of a plane are written back to front, behind their marker. -/
def HWriter.outputHuffman (h : HuffBuf) (wr : HWriter) : HWriter :=
  let wr := wr.outputNybble 0xF
  if h.b = 0 then
    if 0 < h.bitsToGo3 then wr.outputNbits (h.bitbuffer % 2 ^ h.bitsToGo3) h.bitsToGo3
    else wr.outputNbits (hcode 0) (hncode 0)
  else
    let wr :=
      if 0 < h.bitsToGo3 then wr.outputNbits (h.bitbuffer % 2 ^ h.bitsToGo3) h.bitsToGo3 else wr
    (h.buffer.take h.b).reverse.foldl (fun wr byte => wr.outputNbits byte.toNat 8) wr

/-- `((n as f64).ln() / LN_2 + 0.5) as u32`, raised where it is too small.  The logarithm
is rounded to the nearest integer. -/
def log2n (nqmax : Nat) : Nat :=
  let rounded := Nat.log 2 (2 * nqmax ^ 2) / 2
  if 2 ^ rounded < nqmax then rounded + 1 else rounded

section

variable {w : Nat} (checks : Bool)

/-- `write_bdirect`. -/
def writeBdirect (wr : HWriter) (a : List (BitVec w)) (n nqx nqy : Nat)
    (scratch : List Nybble) (bit : Nat) :
    Outcome PyErr (List Nybble × HWriter) := do
  let scratch ← qtreeOnebit checks a n nqx nqy scratch bit
  pure (scratch, (wr.outputNybble 0).outputNnybble (scratch.take (half nqx * half nqy)))

/-- What the encoder carries from plane to plane. -/
structure EncodeState where
  writer : HWriter
  scratch : List Nybble
  buffer : List UInt8
  deriving DecidableEq, Repr

/-- One plane in `qtree_encode`. -/
def encodePlane (a : List (BitVec w)) (n nqx nqy bmax : Nat) (st : EncodeState) (bit : Nat) :
    Outcome PyErr EncodeState := do
  let scratch ← qtreeOnebit checks a n nqx nqy st.scratch bit
  let passes ← encodePasses bmax (log2n (max nqx nqy) - 1) (half nqx)
      (half nqy) scratch ⟨st.buffer, 0, 0, 0⟩
  if passes.overflowed then do
    let direct ← writeBdirect checks st.writer a n nqx nqy passes.scratch bit
    pure ⟨direct.2, direct.1, passes.huff.buffer⟩
  else pure ⟨st.writer.outputHuffman passes.huff, passes.scratch, passes.huff.buffer⟩

/-- `qtree_encode` of a quadrant that `a` starts with, in rows of stride `n`. -/
def qtreeEncode (wr : HWriter) (a : List (BitVec w)) (n nqx nqy nbitplanes : Nat) :
    Outcome PyErr HWriter := do
  let bmax := half (half nqx * half nqy)
  let st ← (List.range nbitplanes).reverse.foldlM (encodePlane checks a n nqx nqy bmax)
    ⟨wr, List.replicate (2 * bmax) 0, List.replicate bmax 0⟩
  pure st.writer

end

/-! ## Decoding -/

/-- One block in the second part of `qtree_copy`.  The cell that holds the code is the
last one to be written. -/
def copyBlock (nx ny n : Nat) (a : List Nybble) (block : Nat × Nat) :
    Outcome PyErr (List Nybble) := do
  let code ← getAt a (n * (2 * block.1) + 2 * block.2)
  (cells nx ny block).foldlM (fun a c => setAt a (c.pos n) (flag (code.getLsbD c.bit))) a

/-- `qtree_copy`: the codes are moved to the first cells of their blocks, the last one
first, and then spread over them. -/
def qtreeCopy (a : List Nybble) (nx ny n : Nat) : Outcome PyErr (List Nybble) := do
  let a ← (blocks nx ny).zipIdx.reverse.foldlM (fun a job => do
    let v ← getAt a job.2
    setAt a (2 * (n * job.1.1 + job.1.2)) v) a
  (blocks nx ny).foldlM (copyBlock nx ny n) a

/-- A cell that is not zero is read anew. -/
def refineCell (a : List Nybble) (i : Nat) : Reader (List Nybble) := do
  let x ← (getAt a i : Outcome PyErr Nybble)
  if x = 0 then pure a
  else do
    let v ← inputHuffman
    (setAt a i v : Outcome PyErr (List Nybble))

/-- `qtree_expand`. -/
def qtreeExpand (a : List Nybble) (nx ny : Nat) : Reader (List Nybble) := do
  let a ← qtreeCopy a nx ny ny
  (List.range (nx * ny)).reverse.foldlM refineCell a

/-- The length of an axis at a level, and what of the axis of the quadrant lies behind
all but the last of its cells. -/
structure Axis where
  n : Nat
  nf : Nat
  deriving DecidableEq, Repr

/-- The axis one level down, where a cell stands for `c` cells of the quadrant. -/
def Axis.next (c : Nat) (axis : Axis) : Axis :=
  if axis.nf ≤ c then ⟨2 * axis.n - 1, axis.nf⟩ else ⟨2 * axis.n, axis.nf - c⟩

/-- `k` expansions. -/
def expandLevels : Nat → Axis → Axis → Nat → List Nybble → Reader (List Nybble)
  | 0, _, _, _, scratch => pure scratch
  | k + 1, x, y, c, scratch => do
    let scratch ← qtreeExpand scratch (x.next (c / 2)).n (y.next (c / 2)).n
    expandLevels k (x.next (c / 2)) (y.next (c / 2)) (c / 2) scratch

section

variable {w : Nat} (checks : Bool)

/-- `qtree_bitins`. -/
def qtreeBitins (codes : List Nybble) (nx ny : Nat) (b : List (BitVec w)) (n bit : Nat) :
    Outcome PyErr (List (BitVec w)) := do
  let plane ← shlBit w checks bit
  (blocks nx ny).zipIdx.foldlM (fun b job => do
    let code ← getAt codes job.2
    (cells nx ny job.1).reverse.foldlM (fun b c =>
      if code.getLsbD c.bit then do
        let x ← getAt b (c.pos n)
        setAt b (c.pos n) (x ||| plane)
      else pure b) b) b

/-- `read_bdirect`. -/
def readBdirect (a : List (BitVec w)) (n nqx nqy : Nat) (scratch : List Nybble) (bit : Nat) :
    Reader (List (BitVec w) × List Nybble) := do
  let codes ← inputNnybble (half nqx * half nqy)
  let a ← qtreeBitins checks codes nqx nqy a n bit
  pure (a, codes ++ scratch.drop (half nqx * half nqy))

/-- One plane in `qtree_decode`, with the array and the scratch array. -/
def decodePlane (n nqx nqy : Nat) (st : List (BitVec w) × List Nybble) (bit : Nat) :
    Reader (List (BitVec w) × List Nybble) := do
  let b ← inputNybble
  if b = 0 then readBdirect checks st.1 n nqx nqy st.2 bit
  else if b = 0xF then do
    let top ← inputHuffman
    let scratch ← (setAt st.2 0 top : Outcome PyErr (List Nybble))
    let scratch ← expandLevels (log2n (max nqx nqy) - 1) ⟨1, nqx⟩ ⟨1, nqy⟩
        (2 ^ log2n (max nqx nqy)) scratch
    let a ← qtreeBitins checks scratch nqx nqy st.1 n bit
    pure (a, scratch)
  else (Outcome.error (.value (str "HCOMPRESS qtree_decode: bad format code")) : Outcome PyErr _)

/-- `qtree_decode` into a quadrant that `a` starts with, in rows of stride `n`. -/
def qtreeDecode (a : List (BitVec w)) (n nqx nqy nbitplanes : Nat) : Reader (List (BitVec w)) := do
  let st ← (List.range nbitplanes).reverse.foldlM (decodePlane checks n nqx nqy)
    (a, List.replicate (half nqx * half nqy) 0)
  pure st.1

end

end RustFits.Zimage.Hcompress
