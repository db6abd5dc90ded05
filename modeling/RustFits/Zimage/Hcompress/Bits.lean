import RustFits.Parse
import RustFits.Lib.BitStream
import RustFits.Lib.Outcome
import Mathlib.Data.List.Induction
import Mathlib.Tactic.IntervalCases

/-!
# The bits of an HCOMPRESS stream

`zimage/hcompress.rs`: `HState` reads a stream of bytes by bits and nybbles through
a 32-bit buffer, `HWriter` writes it.  Both keep bits in their buffers that have been
used up; the ones that count are the lower `bitsToGo` bits of a reader, and the lower
`8 - bitsToGo2` bits of a writer.

`HState.bits` is what a reader has not read yet and `HWriter.bits` what a writer has
written.  `Reads` says that a reader takes the bits of a code off the stream, whatever
follows them, and `Writes` that a writer adds them.
-/

namespace RustFits.Zimage.Hcompress

open Ascii BitStream

/-- A code of four bits. -/
abbrev Nybble := BitVec 4

/-- The bits of a code. -/
def nybbleBits (v : Nybble) : List Bool := bitsOf 4 v.toNat

/-- Bits that are shifted into a 32-bit buffer. -/
def shiftIn (buffer n bits : Nat) : Nat := buffer * 2 ^ n % 2 ^ 32 ||| bits % 2 ^ n

theorem bitsOf_shiftIn {k n : Nat} (h : k + n ≤ 32) (buffer bits : Nat) :
    bitsOf (k + n) (shiftIn buffer n bits) = bitsOf k buffer ++ bitsOf n bits := by
  have hpow : 2 ^ 32 = 2 ^ n * 2 ^ (32 - n) := by
    rw [← Nat.pow_add]
    congr 1
    omega
  have hhigh : buffer * 2 ^ n % 2 ^ 32 = 2 ^ n * (buffer % 2 ^ (32 - n)) := by
    rw [hpow, Nat.mul_comm buffer, Nat.mul_mod_mul_left]
  have hlow : bits % 2 ^ n < 2 ^ n := Nat.mod_lt _ (Nat.two_pow_pos n)
  have hsum : shiftIn buffer n bits = 2 ^ n * (buffer % 2 ^ (32 - n)) + bits % 2 ^ n := by
    rw [shiftIn, hhigh, Nat.two_pow_add_eq_or_of_lt hlow]
  have hk : 2 ^ (32 - n) = 2 ^ k * 2 ^ (32 - n - k) := by
    rw [← Nat.pow_add]
    congr 1
    omega
  rw [bitsOf_add, hsum, Nat.mul_add_div (Nat.two_pow_pos n), Nat.div_eq_of_lt hlow, Nat.add_zero,
    ← bitsOf_mod k, hk, Nat.mod_mul_right_mod, bitsOf_mod, ← bitsOf_mod n, Nat.mul_add_mod,
    Nat.mod_mod, bitsOf_mod]

/-! ## Reading -/

/-- `HState`: the stream, the place of the next byte, and the bit buffer. -/
structure HState where
  bytes : List UInt8
  pos : Nat
  buffer : Nat
  bitsToGo : Nat
  deriving DecidableEq, Repr

abbrev Reader := StateT HState (Outcome PyErr)

def HState.new (bytes : List UInt8) : HState := ⟨bytes, 0, 0, 0⟩

/-- The next byte of the stream. -/
def HState.nextByte (st : HState) (op : Str) : Outcome PyErr UInt8 :=
  match st.bytes[st.pos]? with
  | some byte => .ok byte
  | none => .error (.value (str "HCOMPRESS " ++ op ++ str ": stream exhausted"))

/-- The next byte is shifted into the buffer. -/
def HState.fill (st : HState) (byte : UInt8) : HState :=
  { st with buffer := shiftIn st.buffer 8 byte.toNat, pos := st.pos + 1 }

/-- `n` bits are taken off the buffer. -/
def HState.take (n : Nat) (st : HState) : Nat × HState :=
  (st.buffer / 2 ^ (st.bitsToGo - n) % 2 ^ n, { st with bitsToGo := st.bitsToGo - n })

/-- `input_bit`. -/
def inputBit : Reader Nat := fun st =>
  if st.bitsToGo = 0 then do
    let byte ← st.nextByte (str "input_bit")
    pure (HState.take 1 { st with buffer := byte.toNat, pos := st.pos + 1, bitsToGo := 8 })
  else pure (st.take 1)

/-- `input_nbits` and `input_nybble` differ in the name they give in their error. -/
def inputBits (op : Str) (n : Nat) : Reader Nat := fun st =>
  if st.bitsToGo < n then do
    let byte ← st.nextByte op
    pure (HState.take n { st.fill byte with bitsToGo := st.bitsToGo + 8 })
  else pure (st.take n)

def inputNbits (n : Nat) : Reader Nat := inputBits (str "input_nbits") n

/-- `input_nybble`. -/
def inputNybble : Reader Nybble := do
  let v ← inputBits (str "input_nybble") 4
  pure (BitVec.ofNat 4 v)

/-- The loop of `input_nnybble` over pairs: a byte comes in, and the two nybbles
behind the bits that are left over go out. -/
def inputPairs : Nat → Reader (List Nybble)
  | 0 => pure []
  | n + 1 => do
    let pair ← fun st => do
      let byte ← st.nextByte (str "input_nnybble")
      let st := st.fill byte
      pure ([BitVec.ofNat 4 (st.buffer / 2 ^ (st.bitsToGo + 4)),
        BitVec.ofNat 4 (st.buffer / 2 ^ st.bitsToGo)], st)
    let rest ← inputPairs n
    pure (pair ++ rest)

/-- A full byte in the buffer is given back. -/
def HState.backUp (st : HState) : HState :=
  if st.bitsToGo = 8 then { st with pos := st.pos - 1, bitsToGo := 0 } else st

/-- `input_nnybble`.  Its two loops, for an aligned stream and for any other, compute
the same shifts. -/
def inputNnybble (n : Nat) : Reader (List Nybble) :=
  if n = 1 then do
    let v ← inputNybble
    pure [v]
  else do
    modify HState.backUp
    let pairs ← inputPairs (n / 2)
    if n / 2 * 2 ≠ n then do
      let v ← inputNybble
      pure (pairs ++ [v])
    else pure pairs

/-- The codes of four bits; any other number is unreachable. -/
def huffman4 : Nat → Outcome PyErr Nybble
  | 8 => .ok 3
  | 9 => .ok 5
  | 10 => .ok 10
  | 11 => .ok 12
  | 12 => .ok 15
  | _ => .fault

/-- The codes of five bits. -/
def huffman5 : Nat → Outcome PyErr Nybble
  | 26 => .ok 6
  | 27 => .ok 7
  | 28 => .ok 9
  | 29 => .ok 11
  | 30 => .ok 13
  | _ => .fault

/-- The Huffman codes of the values, and their lengths. -/
def hcode (v : Nybble) : Nat :=
  [0x3e, 0x00, 0x01, 0x08, 0x02, 0x09, 0x1a, 0x1b, 0x03, 0x1c, 0x0a, 0x1d, 0x0b, 0x1e, 0x3f,
    0x0c].getD v.toNat 0

def hncode (v : Nybble) : Nat := [6, 3, 3, 4, 3, 4, 5, 5, 3, 5, 4, 5, 4, 5, 6, 4].getD v.toNat 0

/-- The code of a value. -/
def huffmanBits (v : Nybble) : List Bool := bitsOf (hncode v) (hcode v)

/-- One more bit behind those of a code. -/
def appendBit (c : Nat) : Reader Nat := do
  let bit ← inputBit
  pure (bit ||| c * 2)

/-- `input_huffman`. -/
def inputHuffman : Reader Nybble := do
  let c ← inputNbits 3
  if c < 4 then pure (BitVec.ofNat 4 (2 ^ c))
  else do
    let c ← appendBit c
    if c < 13 then huffman4 c
    else do
      let c ← appendBit c
      if c < 31 then huffman5 c
      else do
        let c ← appendBit c
        pure (if c = 62 then 0 else 14)

/-! ### What is read -/

section

variable {st : HState} {code rest : List Bool} {n : Nat} {α β : Type}

/-- The bits that have not been read. -/
def HState.bits (st : HState) : List Bool :=
  bitsOf st.bitsToGo st.buffer ++ ofBytes (st.bytes.drop st.pos)

/-- The reader takes `code` off the stream, whatever follows, and gives `v`.  Between two
reads fewer than eight bits are left in the buffer. -/
def Reads (x : Reader α) (code : List Bool) (v : α) : Prop :=
  ∀ st rest, st.bitsToGo ≤ 7 → st.bits = code ++ rest →
    ∃ st', x st = .ok (v, st') ∧ st'.bitsToGo ≤ 7 ∧ st'.bits = rest

theorem Reads.pure (v : α) : Reads (pure v) [] v := fun st _ hst hbits => ⟨st, rfl, hst, hbits⟩

theorem Reads.bind {x : Reader α} {f : α → Reader β} {code' : List Bool} {v : α} {u : β}
    (hx : Reads x code v) (hf : Reads (f v) code' u) : Reads (x >>= f) (code ++ code') u := by
  intro st rest hst hbits
  rw [List.append_assoc] at hbits
  obtain ⟨st₁, h₁, hst₁, hbits₁⟩ := hx st (code' ++ rest) hst hbits
  obtain ⟨st₂, h₂, hst₂, hbits₂⟩ := hf st₁ rest hst₁ hbits₁
  refine ⟨st₂, ?_, hst₂, hbits₂⟩
  show (x st >>= fun p => f p.1 p.2) = _
  rw [h₁]
  exact h₂

/-- What comes after a read and takes nothing more. -/
theorem Reads.map {x : Reader α} {f : α → Reader β} {v : α} {u : β} (hx : Reads x code v)
    (hf : Reads (f v) [] u) : Reads (x >>= f) code u := by
  have h := hx.bind hf
  rwa [List.append_nil] at h

/-- A computation that does not touch the stream. -/
theorem Reads.lift {x : Outcome PyErr α} {v : α} (h : x = .ok v) : Reads (monadLift x) [] v := by
  intro st rest hst hbits
  refine ⟨st, ?_, hst, hbits⟩
  show (x >>= fun a => Pure.pure (a, st)) = _
  rw [h]
  rfl

theorem HState.take_bits (hn : n ≤ st.bitsToGo) (hbits : st.bits = code ++ rest)
    (hlen : code.length = n) :
    (st.take n).1 = bitsVal code ∧ (st.take n).2.bits = rest := by
  have hsplit : bitsOf st.bitsToGo st.buffer =
      bitsOf n (st.buffer / 2 ^ (st.bitsToGo - n)) ++ bitsOf (st.bitsToGo - n) st.buffer := by
    rw [← bitsOf_add, Nat.add_sub_cancel' hn]
  rw [HState.bits, hsplit, List.append_assoc] at hbits
  obtain ⟨hcode, hrest⟩ := List.append_inj hbits (by rw [bitsOf_length, hlen])
  exact ⟨by rw [← hcode, bitsVal_bitsOf]; rfl, hrest⟩

/-- There is a byte where the buffer holds too few bits. -/
theorem HState.exists_byte (hbits : st.bits = code ++ rest) (hlt : st.bitsToGo < code.length) :
    ∃ byte, st.bytes[st.pos]? = some byte := by
  have hlen := congrArg List.length hbits
  rw [HState.bits, List.length_append, bitsOf_length, ofBytes_length, List.length_drop,
    List.length_append]
    at hlen
  have hpos : st.pos < st.bytes.length := by omega
  exact ⟨_, List.getElem?_eq_getElem hpos⟩

theorem HState.nextByte_eq {byte : UInt8} (h : st.bytes[st.pos]? = some byte) (op : Str) :
    st.nextByte op = .ok byte := by
  rw [HState.nextByte, h]

theorem HState.drop_pos {byte : UInt8} (h : st.bytes[st.pos]? = some byte) :
    ofBytes (st.bytes.drop st.pos) =
      bitsOf 8 byte.toNat ++ ofBytes (st.bytes.drop (st.pos + 1)) := by
  obtain ⟨hlt, hbyte⟩ := List.getElem?_eq_some_iff.1 h
  rw [List.drop_eq_getElem_cons hlt, hbyte]
  exact List.flatMap_cons ..

/-- The bits of the next byte come behind those in the buffer. -/
theorem HState.fill_bits {byte : UInt8} (h : st.bytes[st.pos]? = some byte)
    (hst : st.bitsToGo ≤ 24) :
    bitsOf (st.bitsToGo + 8) (st.fill byte).buffer ++
      ofBytes (st.bytes.drop (st.pos + 1)) = st.bits := by
  show bitsOf (st.bitsToGo + 8) (shiftIn st.buffer 8 byte.toNat) ++ _ = _
  rw [bitsOf_shiftIn (by omega), HState.bits, HState.drop_pos h, List.append_assoc]

theorem reads_inputBits (op : Str) (hn : n ≤ 8) (hlen : code.length = n) :
    Reads (inputBits op n) code (bitsVal code) := by
  intro st rest hst hbits
  show ∃ st', (if st.bitsToGo < n then _ else _) = _ ∧ _
  by_cases hlt : st.bitsToGo < n
  · obtain ⟨byte, hbyte⟩ := HState.exists_byte hbits (by omega)
    have hfill : ({ st.fill byte with bitsToGo := st.bitsToGo + 8 } : HState).bits =
        code ++ rest := by
      rw [← hbits, ← HState.fill_bits hbyte (by omega)]
      rfl
    obtain ⟨hval, hrest⟩ := HState.take_bits (show n ≤ st.bitsToGo + 8 by omega) hfill hlen
    refine ⟨_, ?_, show st.bitsToGo + 8 - n ≤ 7 by omega, hrest⟩
    rw [if_pos hlt, HState.nextByte_eq hbyte, ← hval]
    rfl
  · obtain ⟨hval, hrest⟩ := HState.take_bits (Nat.le_of_not_lt hlt) hbits hlen
    refine ⟨_, ?_, show st.bitsToGo - n ≤ 7 by omega, hrest⟩
    rw [if_neg hlt, ← hval]
    rfl

theorem reads_inputBit (b : Bool) : Reads inputBit [b] (bitsVal [b]) := by
  intro st rest hst hbits
  show ∃ st', (if st.bitsToGo = 0 then _ else _) = _ ∧ _
  by_cases hzero : st.bitsToGo = 0
  · obtain ⟨byte, hbyte⟩ := HState.exists_byte hbits (by rw [hzero]; exact Nat.one_pos)
    have hfill : (⟨st.bytes, st.pos + 1, byte.toNat, 8⟩ : HState).bits = [b] ++ rest := by
      rw [← hbits, HState.bits, HState.bits, hzero, HState.drop_pos hbyte]
      rfl
    obtain ⟨hval, hrest⟩ := HState.take_bits (show 1 ≤ 8 by omega) hfill rfl
    refine ⟨_, ?_, show 8 - 1 ≤ 7 by omega, hrest⟩
    rw [if_pos hzero, HState.nextByte_eq hbyte, ← hval]
    rfl
  · obtain ⟨hval, hrest⟩ := HState.take_bits (show 1 ≤ st.bitsToGo by omega) hbits rfl
    refine ⟨_, ?_, show st.bitsToGo - 1 ≤ 7 by omega, hrest⟩
    rw [if_neg hzero, ← hval]
    rfl

/-- A code is the number of its bits. -/
theorem ofNat_of_bits {x : Nat} {v : Nybble} (h : bitsOf 4 x = nybbleBits v) :
    BitVec.ofNat 4 x = v := by
  have hval := congrArg bitsVal h
  rw [nybbleBits, bitsVal_bitsOf, bitsVal_bitsOf, Nat.mod_eq_of_lt v.isLt] at hval
  exact BitVec.eq_of_toNat_eq (by rw [BitVec.toNat_ofNat, hval])

theorem reads_inputNybble (v : Nybble) : Reads inputNybble (nybbleBits v) v := by
  have hval : bitsVal (nybbleBits v) = v.toNat := by
    rw [nybbleBits, bitsVal_bitsOf, Nat.mod_eq_of_lt v.isLt]
  refine (reads_inputBits _ (by omega) (bitsOf_length _ _)).map ?_
  show Reads (Pure.pure (BitVec.ofNat 4 (bitsVal (nybbleBits v)))) [] v
  rw [hval, BitVec.ofNat_toNat, BitVec.setWidth_eq]
  exact Reads.pure v

theorem reads_appendBit (code : List Bool) (b : Bool) :
    Reads (appendBit (bitsVal code)) [b] (bitsVal (code ++ [b])) := by
  refine (reads_inputBit b).map ?_
  have hsum : bitsVal (code ++ [b]) = bitsVal [b] ||| bitsVal code * 2 := by
    rw [bitsVal_append, Nat.or_comm, Nat.mul_comm, Nat.mul_comm (bitsVal code)]
    exact Nat.two_pow_add_eq_or_of_lt (i := 1) (bitsVal_lt [b]) (bitsVal code)
  rw [hsum]
  exact Reads.pure _

/-! `input_huffman` reads three bits and then one bit at a time, as long as no code ends. -/

theorem huffman_bits3 (v : Nybble) (code : List Bool)
    (hv : huffmanBits v = code ∧ code.length = 3 ∧ BitVec.ofNat 4 (2 ^ bitsVal code) = v)
    (h3 : bitsVal code < 4) : Reads inputHuffman (huffmanBits v) v := by
  rw [hv.1]
  refine (reads_inputBits _ (by omega) hv.2.1).map ?_
  show Reads (if _ then _ else _) _ _
  rw [if_pos h3, hv.2.2]
  exact Reads.pure _

theorem huffman_bits4 (v : Nybble) (code : List Bool) (b : Bool)
    (hv : huffmanBits v = code ++ [b] ∧ code.length = 3 ∧ huffman4 (bitsVal (code ++ [b])) = .ok v)
    (h3 : ¬ bitsVal code < 4) (h4 : bitsVal (code ++ [b]) < 13) :
    Reads inputHuffman (huffmanBits v) v := by
  rw [hv.1]
  refine (reads_inputBits _ (by omega) hv.2.1).bind ?_
  show Reads (if _ then _ else _) _ _
  rw [if_neg h3]
  refine (reads_appendBit code b).map ?_
  rw [if_pos h4]
  exact Reads.lift hv.2.2

theorem huffman_bits5 (v : Nybble) (code : List Bool) (b c : Bool)
    (hv : huffmanBits v = code ++ ([b] ++ [c]) ∧ code.length = 3 ∧
      huffman5 (bitsVal (code ++ [b] ++ [c])) = .ok v)
    (h3 : ¬ bitsVal code < 4) (h4 : ¬ bitsVal (code ++ [b]) < 13)
    (h5 : bitsVal (code ++ [b] ++ [c]) < 31) :
    Reads inputHuffman (huffmanBits v) v := by
  rw [hv.1]
  refine (reads_inputBits _ (by omega) hv.2.1).bind ?_
  show Reads (if _ then _ else _) _ _
  rw [if_neg h3]
  refine (reads_appendBit code b).bind ?_
  rw [if_neg h4]
  refine (reads_appendBit (code ++ [b]) c).map ?_
  rw [if_pos h5]
  exact Reads.lift hv.2.2

theorem huffman_bits6 (v : Nybble) (code : List Bool) (b c d : Bool)
    (hv : huffmanBits v = code ++ ([b] ++ ([c] ++ [d])) ∧ code.length = 3 ∧
      (if bitsVal (code ++ [b] ++ [c] ++ [d]) = 62 then 0 else 14) = v)
    (h3 : ¬ bitsVal code < 4) (h4 : ¬ bitsVal (code ++ [b]) < 13)
    (h5 : ¬ bitsVal (code ++ [b] ++ [c]) < 31) :
    Reads inputHuffman (huffmanBits v) v := by
  rw [hv.1]
  refine (reads_inputBits _ (by omega) hv.2.1).bind ?_
  show Reads (if _ then _ else _) _ _
  rw [if_neg h3]
  refine (reads_appendBit code b).bind ?_
  rw [if_neg h4]
  refine (reads_appendBit (code ++ [b]) c).bind ?_
  rw [if_neg h5]
  refine (reads_appendBit (code ++ [b] ++ [c]) d).map ?_
  rw [hv.2.2]
  exact Reads.pure _

/-- The reader undoes the table of the writer. -/
theorem reads_inputHuffman (v : Nybble) : Reads inputHuffman (huffmanBits v) v := by
  obtain ⟨⟨n, hn⟩⟩ := v
  interval_cases n
  · exact huffman_bits6 0 [true, true, true] true true false (by decide) (by decide)
      (by decide) (by decide)
  · exact huffman_bits3 1 [false, false, false] (by decide) (by decide)
  · exact huffman_bits3 2 [false, false, true] (by decide) (by decide)
  · exact huffman_bits4 3 [true, false, false] false (by decide) (by decide) (by decide)
  · exact huffman_bits3 4 [false, true, false] (by decide) (by decide)
  · exact huffman_bits4 5 [true, false, false] true (by decide) (by decide) (by decide)
  · exact huffman_bits5 6 [true, true, false] true false (by decide) (by decide)
      (by decide) (by decide)
  · exact huffman_bits5 7 [true, true, false] true true (by decide) (by decide)
      (by decide) (by decide)
  · exact huffman_bits3 8 [false, true, true] (by decide) (by decide)
  · exact huffman_bits5 9 [true, true, true] false false (by decide) (by decide)
      (by decide) (by decide)
  · exact huffman_bits4 10 [true, false, true] false (by decide) (by decide) (by decide)
  · exact huffman_bits5 11 [true, true, true] false true (by decide) (by decide)
      (by decide) (by decide)
  · exact huffman_bits4 12 [true, false, true] true (by decide) (by decide) (by decide)
  · exact huffman_bits5 13 [true, true, true] true false (by decide) (by decide)
      (by decide) (by decide)
  · exact huffman_bits6 14 [true, true, true] true true true (by decide) (by decide)
      (by decide) (by decide)
  · exact huffman_bits4 15 [true, true, false] false (by decide) (by decide) (by decide)

/-! `input_nnybble` -/

theorem reads_inputPairs (n : Nat) : ∀ codes : List Nybble, codes.length = n * 2 →
    Reads (inputPairs n) (codes.flatMap nybbleBits) codes := by
  induction n with
  | zero =>
    intro codes hlen
    rw [List.eq_nil_of_length_eq_zero (by omega : codes.length = 0)]
    exact Reads.pure []
  | succ n ih =>
    intro codes hlen
    rcases codes with _ | ⟨hi, _ | ⟨lo, rest⟩⟩
    · cases hlen
    · rw [List.length_singleton] at hlen
      omega
    have hrest : rest.length = n * 2 := by
      rw [List.length_cons, List.length_cons] at hlen
      omega
    have hcodes : (hi :: lo :: rest).flatMap nybbleBits =
        (nybbleBits hi ++ nybbleBits lo) ++ rest.flatMap nybbleBits := by
      rw [List.flatMap_cons, List.flatMap_cons, List.append_assoc]
    rw [hcodes]
    refine Reads.bind (v := [hi, lo]) ?_ ((ih rest hrest).map (Reads.pure _))
    intro st tail hst hbits
    obtain ⟨byte, hbyte⟩ := HState.exists_byte hbits (by
      rw [List.length_append, nybbleBits, nybbleBits, bitsOf_length, bitsOf_length]
      omega)
    have hfill := HState.fill_bits hbyte (by omega)
    have hsplit : bitsOf (st.bitsToGo + 8) (st.fill byte).buffer =
        bitsOf 4 ((st.fill byte).buffer / 2 ^ (st.bitsToGo + 4)) ++
          (bitsOf 4 ((st.fill byte).buffer / 2 ^ st.bitsToGo) ++ bitsOf st.bitsToGo
            (st.fill byte).buffer) := by
      rw [← bitsOf_add 4, Nat.add_comm 4, ← bitsOf_add 4]
      congr 1
      omega
    rw [hbits, hsplit, List.append_assoc, List.append_assoc, List.append_assoc] at hfill
    obtain ⟨hhi, hfill⟩ := List.append_inj hfill (by rw [bitsOf_length, nybbleBits, bitsOf_length])
    obtain ⟨hlo, hfill⟩ := List.append_inj hfill (by rw [bitsOf_length, nybbleBits, bitsOf_length])
    refine ⟨st.fill byte, ?_, hst, hfill⟩
    show (st.nextByte _ >>= _) = _
    rw [HState.nextByte_eq hbyte]
    show Outcome.ok ([BitVec.ofNat 4 _, BitVec.ofNat 4 _], st.fill byte) = _
    rw [← ofNat_of_bits hhi, ← ofNat_of_bits hlo]
    rfl

/-- The reader takes the nybbles off the stream at any alignment. -/
theorem reads_inputNnybble (codes : List Nybble) :
    Reads (inputNnybble codes.length) (codes.flatMap nybbleBits) codes := by
  unfold inputNnybble
  by_cases hone : codes.length = 1
  · obtain ⟨v, rfl⟩ := List.length_eq_one_iff.1 hone
    rw [if_pos hone, List.flatMap_singleton]
    exact (reads_inputNybble v).map (Reads.pure _)
  · rw [if_neg hone]
    have hback : Reads (modify HState.backUp) [] PUnit.unit := by
      intro st rest hst hbits
      have hsame : st.backUp = st := if_neg (by omega)
      refine ⟨st, ?_, hst, hbits⟩
      show Outcome.ok ((), st.backUp) = _
      rw [hsame]
    rw [← List.nil_append (codes.flatMap nybbleBits)]
    refine hback.bind ?_
    by_cases heven : codes.length / 2 * 2 = codes.length
    · refine (reads_inputPairs _ codes heven.symm).map ?_
      rw [if_neg (by simpa using heven)]
      exact Reads.pure _
    · have hlast : codes = codes.dropLast ++ [codes.getLast (by rintro rfl; exact heven rfl)] :=
        (List.dropLast_append_getLast _).symm
      have hpairs : codes.dropLast.length = codes.length / 2 * 2 := by
        rw [List.length_dropLast]
        omega
      rw [hlast, List.flatMap_append, List.flatMap_singleton, ← hlast]
      refine (reads_inputPairs _ codes.dropLast hpairs).bind ?_
      rw [if_pos (by simpa using heven)]
      refine (reads_inputNybble _).map ?_
      rw [← hlast]
      exact Reads.pure _

end

/-! ## Writing -/

/-- `HWriter`: the bytes that are full, and the bit buffer. -/
structure HWriter where
  out : List UInt8
  buffer2 : Nat
  bitsToGo2 : Int
  deriving DecidableEq, Repr

def HWriter.new : HWriter := ⟨[], 0, 8⟩

/-- `output_nbits`, and `output_nybble` for four bits. -/
def HWriter.outputNbits (bits n : Nat) (wr : HWriter) : HWriter :=
  let buffer2 := shiftIn wr.buffer2 n bits
  let bitsToGo2 := wr.bitsToGo2 - n
  if bitsToGo2 ≤ 0 then
    ⟨wr.out ++ [UInt8.ofNat (buffer2 / 2 ^ (-bitsToGo2).toNat % 2 ^ 8)], buffer2, bitsToGo2 + 8⟩
  else ⟨wr.out, buffer2, bitsToGo2⟩

def HWriter.outputNybble (v : Nybble) (wr : HWriter) : HWriter := wr.outputNbits v.toNat 4

/-- The byte of two nybbles. -/
def packed (hi lo : Nybble) : Nat := hi.toNat * 2 ^ 4 ||| lo.toNat

/-- The loop of `output_nnybble` on an aligned stream, and the last nybble. -/
def HWriter.outputAligned : List Nybble → HWriter → HWriter
  | hi :: lo :: rest, wr =>
    outputAligned rest { wr with out := wr.out ++ [UInt8.ofNat (packed hi lo)] }
  | [v], wr => wr.outputNybble v
  | [], wr => wr

/-- The same loop with `shift` bits left over. -/
def HWriter.outputShifted (shift : Nat) : List Nybble → HWriter → HWriter
  | hi :: lo :: rest, wr =>
    let buffer2 := shiftIn wr.buffer2 8 (packed hi lo)
    outputShifted shift rest
      { wr with out := wr.out ++ [UInt8.ofNat (buffer2 / 2 ^ shift % 2 ^ 8)], buffer2 := buffer2 }
  | [v], wr => wr.outputNybble v
  | [], wr => wr

def HWriter.outputPacked (array : List Nybble) (wr : HWriter) : HWriter :=
  if wr.bitsToGo2 = 8 then outputAligned array { wr with buffer2 := 0 }
  else outputShifted (8 - wr.bitsToGo2).toNat array wr

/-- `output_nnybble`. -/
def HWriter.outputNnybble (array : List Nybble) (wr : HWriter) : HWriter :=
  match array with
  | [] => wr
  | [v] => wr.outputNybble v
  | v :: u :: rest =>
    if wr.bitsToGo2 ≤ 4 then
      match rest with
      | [] => (wr.outputNybble v).outputNybble u
      | _ :: _ => (wr.outputNybble v).outputPacked (u :: rest)
    else wr.outputPacked (v :: u :: rest)

/-! ### What is written -/

section

variable {wr : HWriter} {n : Nat}

/-- The bits that have been written. -/
def HWriter.bits (wr : HWriter) : List Bool :=
  ofBytes wr.out ++ bitsOf (8 - wr.bitsToGo2).toNat wr.buffer2

/-- Between two writes the buffer has room for one to eight bits. -/
def HWriter.HasRoom (wr : HWriter) : Prop := 1 ≤ wr.bitsToGo2 ∧ wr.bitsToGo2 ≤ 8

/-- The writer adds the bits of `code`. -/
def Writes (f : HWriter → HWriter) (code : List Bool) : Prop :=
  ∀ wr : HWriter, wr.HasRoom → (f wr).HasRoom ∧ (f wr).bits = wr.bits ++ code

theorem Writes.comp {f g : HWriter → HWriter} {code code' : List Bool} (hf : Writes f code)
    (hg : Writes g code') : Writes (fun wr => g (f wr)) (code ++ code') := by
  intro wr hwr
  obtain ⟨hroom, hbits⟩ := hf wr hwr
  obtain ⟨hroom', hbits'⟩ := hg (f wr) hroom
  exact ⟨hroom', by rw [hbits', hbits, List.append_assoc]⟩

theorem ofBytes_concat (out : List UInt8) (x : Nat) :
    ofBytes (out ++ [UInt8.ofNat (x % 2 ^ 8)]) = ofBytes out ++ bitsOf 8 x := by
  have hbyte : (UInt8.ofNat (x % 2 ^ 8)).toNat = x % 2 ^ 8 := by simp
  rw [ofBytes_append, ofBytes, ofBytes, List.flatMap_singleton, hbyte, bitsOf_mod]

theorem writes_outputNbits (bits : Nat) (hn : n ≤ 8) :
    Writes (HWriter.outputNbits bits n) (bitsOf n bits) := by
  intro wr hwr
  obtain ⟨k, hk⟩ : ∃ k : Nat, wr.bitsToGo2 = 8 - k :=
    ⟨(8 - wr.bitsToGo2).toNat, by have := hwr.2; omega⟩
  have hk7 : k ≤ 7 := by have := hwr.1; omega
  have hpend : (8 - wr.bitsToGo2).toNat = k := by omega
  have hin := bitsOf_shiftIn (k := k) (n := n) (by omega) wr.buffer2 bits
  unfold HWriter.outputNbits
  dsimp only
  by_cases hfull : wr.bitsToGo2 - n ≤ 0
  · -- The buffer holds a byte and the bits behind it.
    obtain ⟨r, hr⟩ : ∃ r : Nat, k + n = 8 + r := ⟨k + n - 8, by omega⟩
    rw [if_pos hfull]
    refine ⟨⟨show 1 ≤ wr.bitsToGo2 - n + 8 by omega, show wr.bitsToGo2 - n + 8 ≤ 8 by omega⟩, ?_⟩
    have hneg : (-(wr.bitsToGo2 - n)).toNat = r := by omega
    have hleft : (8 - (wr.bitsToGo2 - n + 8)).toNat = r := by omega
    rw [HWriter.bits, HWriter.bits, hpend, hneg, hleft, ofBytes_concat, List.append_assoc,
      List.append_assoc, ← bitsOf_add, ← hr, hin]
  · rw [if_neg hfull]
    refine ⟨⟨show 1 ≤ wr.bitsToGo2 - n by omega, show wr.bitsToGo2 - n ≤ 8 by omega⟩, ?_⟩
    have hleft : (8 - (wr.bitsToGo2 - n)).toNat = k + n := by omega
    rw [HWriter.bits, HWriter.bits, hpend, hleft, hin, List.append_assoc]

theorem writes_outputNybble (v : Nybble) : Writes (HWriter.outputNybble v) (nybbleBits v) :=
  writes_outputNbits v.toNat (by omega)

theorem bitsOf_packed (hi lo : Nybble) :
    bitsOf 8 (packed hi lo) = nybbleBits hi ++ nybbleBits lo := by
  have hsum : packed hi lo = 2 ^ 4 * hi.toNat + lo.toNat := by
    rw [packed, Nat.mul_comm, Nat.two_pow_add_eq_or_of_lt lo.isLt]
  rw [hsum, bitsOf_add 4 4, Nat.mul_add_div (Nat.two_pow_pos 4),
    Nat.div_eq_of_lt lo.isLt, Nat.add_zero,
    ← bitsOf_mod 4 (2 ^ 4 * hi.toNat + lo.toNat), Nat.mul_add_mod, bitsOf_mod]
  rfl

theorem packed_lt (hi lo : Nybble) : packed hi lo < 2 ^ 8 := by
  have hsum : packed hi lo = 2 ^ 4 * hi.toNat + lo.toNat := by
    rw [packed, Nat.mul_comm, Nat.two_pow_add_eq_or_of_lt lo.isLt]
  have := hi.isLt
  have := lo.isLt
  omega

/-- Whole bytes go out as they are when no bits are left over. -/
theorem outputAligned_bits (codes : List Nybble) : ∀ wr : HWriter, wr.bitsToGo2 = 8 →
    (wr.outputAligned codes).HasRoom ∧ (wr.outputAligned codes).bits =
      wr.bits ++ codes.flatMap nybbleBits := by
  induction codes using List.twoStepInduction with
  | nil =>
    intro wr hwr
    exact ⟨⟨by show 1 ≤ wr.bitsToGo2; omega, by show wr.bitsToGo2 ≤ 8; omega⟩,
      (List.append_nil _).symm⟩
  | singleton v =>
    intro wr hwr
    rw [List.flatMap_singleton]
    exact writes_outputNybble v wr ⟨by omega, by omega⟩
  | cons_cons hi lo rest ih _ =>
    intro wr hwr
    obtain ⟨hroom, hbits⟩ := ih { wr with out := wr.out ++ [UInt8.ofNat (packed hi lo)] } hwr
    have hbyte : ofBytes (wr.out ++ [UInt8.ofNat (packed hi lo)]) =
        ofBytes wr.out ++ (nybbleBits hi ++ nybbleBits lo) := by
      rw [← Nat.mod_eq_of_lt (packed_lt hi lo), ofBytes_concat, bitsOf_packed]
    refine ⟨hroom, hbits.trans ?_⟩
    have hpend : (8 - wr.bitsToGo2).toNat = 0 := by omega
    rw [HWriter.bits, HWriter.bits, hpend, hbyte, List.flatMap_cons, List.flatMap_cons, bitsOf,
      List.append_nil, List.append_nil, List.append_assoc, List.append_assoc]

/-- With bits left over every byte takes them in and leaves as many. -/
theorem outputShifted_bits (codes : List Nybble) : ∀ wr : HWriter, wr.HasRoom →
    (wr.outputShifted (8 - wr.bitsToGo2).toNat codes).HasRoom ∧
      (wr.outputShifted (8 - wr.bitsToGo2).toNat codes).bits =
        wr.bits ++ codes.flatMap nybbleBits := by
  induction codes using List.twoStepInduction with
  | nil =>
    intro wr hwr
    exact ⟨hwr, (List.append_nil _).symm⟩
  | singleton v =>
    intro wr hwr
    rw [List.flatMap_singleton]
    exact writes_outputNybble v wr hwr
  | cons_cons hi lo rest ih _ =>
    intro wr hwr
    obtain ⟨k, hk⟩ : ∃ k, (8 - wr.bitsToGo2).toNat = k := ⟨_, rfl⟩
    have hk7 : k ≤ 7 := by have := hwr.1; omega
    have hin := bitsOf_shiftIn (k := k) (n := 8) (by omega) wr.buffer2 (packed hi lo)
    have hbyte :
        ofBytes (wr.out ++ [UInt8.ofNat (shiftIn wr.buffer2 8 (packed hi lo) / 2 ^ k % 2 ^ 8)]) ++
        bitsOf k (shiftIn wr.buffer2 8 (packed hi lo)) =
          ofBytes wr.out ++ (bitsOf k wr.buffer2 ++ (nybbleBits hi ++ nybbleBits lo)) := by
      rw [ofBytes_concat, List.append_assoc, ← bitsOf_add, Nat.add_comm 8, hin, bitsOf_packed]
    rw [← hk] at hbyte
    obtain ⟨hroom, hbits⟩ := ih ⟨_, shiftIn wr.buffer2 8 (packed hi lo), wr.bitsToGo2⟩ hwr
    refine ⟨hroom, hbits.trans ?_⟩
    rw [HWriter.bits, hbyte, HWriter.bits, List.flatMap_cons, List.flatMap_cons, List.append_assoc,
      List.append_assoc, List.append_assoc, List.append_assoc]

theorem outputPacked_bits (codes : List Nybble) {wr : HWriter} (hwr : wr.HasRoom) :
    (wr.outputPacked codes).HasRoom ∧ (wr.outputPacked codes).bits =
      wr.bits ++ codes.flatMap nybbleBits := by
  unfold HWriter.outputPacked
  by_cases h8 : wr.bitsToGo2 = 8
  · rw [if_pos h8]
    have hsame : ({ wr with buffer2 := 0 } : HWriter).bits = wr.bits := by
      have hpend : (8 - wr.bitsToGo2).toNat = 0 := by omega
      rw [HWriter.bits, HWriter.bits, hpend]
      rfl
    rw [← hsame]
    exact outputAligned_bits codes _ h8
  · rw [if_neg h8]
    exact outputShifted_bits codes wr hwr

/-- The nybbles follow what has been written, at any alignment. -/
theorem writes_outputNnybble (codes : List Nybble) :
    Writes (HWriter.outputNnybble codes) (codes.flatMap nybbleBits) := by
  intro wr hwr
  rcases codes with _ | ⟨v, _ | ⟨u, rest⟩⟩
  · exact ⟨hwr, (List.append_nil _).symm⟩
  · rw [List.flatMap_singleton]
    exact writes_outputNybble v wr hwr
  · show (if wr.bitsToGo2 ≤ 4 then _ else _ : HWriter).HasRoom ∧
      (if wr.bitsToGo2 ≤ 4 then _ else _ : HWriter).bits = _
    by_cases h4 : wr.bitsToGo2 ≤ 4
    · rw [if_pos h4]
      obtain ⟨hroom, hbits⟩ := writes_outputNybble v wr hwr
      rw [List.flatMap_cons, ← List.append_assoc, ← hbits]
      rcases rest with _ | ⟨w, rest⟩
      · rw [List.flatMap_singleton]
        exact writes_outputNybble u _ hroom
      · exact outputPacked_bits (u :: w :: rest) hroom
    · rw [if_neg h4]
      exact outputPacked_bits (v :: u :: rest) hwr

end

end RustFits.Zimage.Hcompress
