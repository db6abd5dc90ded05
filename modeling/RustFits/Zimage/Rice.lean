import RustFits.Parse
import RustFits.Lib.BitStream
import RustFits.Lib.Binary64

/-!
# The RICE codec

`zimage/rice.rs`: differences of neighbouring pixels in blocks, each block with a
split of its own between a unary and a binary part, as a stream of bits.

* `encodeRice` writes the blocks through a `BitWriter`, which fills one byte at a
  time.
* `decodeRice` reads them through a `BitBuf`, a 64-bit register that is refilled by
  words of 32 bits and by single bytes at the end of the stream.
* `decodeRiceSlowI64` is the decoder of 64-bit pixels, over a `BitReader`.

The mean difference of a block is computed in doubles (`Binary64`).
-/

namespace RustFits.Zimage.Rice

open Ascii ByteFile Machine BigEndian BitStream

/-- The constants for a pixel width: bits of a pixel, bits of the stored split, and
the split that stands for raw differences. -/
structure Params where
  bbits : Nat
  fsbits : Nat
  fsmax : Nat
  deriving DecidableEq, Repr

/-- `rice_params`. -/
def riceParams (bytepix : Nat) : Except PyErr Params :=
  match bytepix with
  | 1 => .ok ⟨8, 3, 6⟩
  | 2 => .ok ⟨16, 4, 14⟩
  | 4 => .ok ⟨32, 5, 25⟩
  | 8 => .ok ⟨64, 6, 53⟩
  | _ => .error (.value (str "unsupported RICE BYTEPIX " ++ natDec bytepix ++
      str " (must be 1, 2, 4, or 8)"))

/-! ## Decoding -/

/-- The bit buffer: `nbits` valid bits at the upper end of `buf`, and the place of
the next byte. -/
structure BitBuf where
  buf : Nat
  nbits : Nat
  pos : Nat
  deriving DecidableEq, Repr

/-- The loop of `refill` over words.  A round adds 32 bits, so the fuel is enough. -/
def refillWords (c : Bytes) : Nat → BitBuf → BitBuf
  | 0, s => s
  | fuel + 1, s =>
    if s.nbits ≤ 32 ∧ s.pos + 4 ≤ c.length then
      refillWords c fuel ⟨s.buf ||| fromBe (slice c s.pos 4) * 2 ^ (32 - s.nbits), s.nbits + 32,
        s.pos + 4⟩
    else s

/-- The loop of `refill` over bytes. -/
def refillBytes (c : Bytes) : Nat → BitBuf → BitBuf
  | 0, s => s
  | fuel + 1, s =>
    if s.nbits ≤ 56 ∧ s.pos < c.length then
      refillBytes c fuel ⟨s.buf ||| (c.getD s.pos 0).toNat * 2 ^ (56 - s.nbits),
        s.nbits + 8, s.pos + 1⟩
    else s

/-- `refill`. -/
def refill (c : Bytes) (s : BitBuf) : BitBuf := refillBytes c 8 (refillWords c 2 s)

/-- Shift `n` bits out of the buffer. -/
def takeBits (n : Nat) (s : BitBuf) : Nat × BitBuf :=
  (s.buf / 2 ^ (64 - n), ⟨s.buf * 2 ^ n % 2 ^ 64, s.nbits - n, s.pos⟩)

/-- `n` bits, after a refill where the buffer has fewer. -/
def readField (c : Bytes) (message : Str) (n : Nat) (s : BitBuf) : Except PyErr (Nat × BitBuf) :=
  if s.nbits < n then
    if (refill c s).nbits < n then .error (.value message) else .ok (takeBits n (refill c s))
  else .ok (takeBits n s)

/-- The count of zeros in front of a one.  A round that does not end the loop reads
bytes, so the length of the stream bounds the rounds. -/
def readUnary (c : Bytes) : Nat → BitBuf → Nat → Except PyErr (Nat × BitBuf)
  | 0, _, _ => .error (.value (str "RICE decode: unexpected end of stream (unary)"))
  | fuel + 1, s, nzero =>
    if s.buf = 0 then
      let nzero := nzero + s.nbits
      if 1024 < nzero then
        .error (.value (str "RICE decode: unary code exceeded 1024 zeros (corrupt stream)"))
      else
        let s := refill c ⟨s.buf, 0, s.pos⟩
        if s.nbits = 0 then
          .error (.value (str "RICE decode: unexpected end of stream (unary)"))
        else readUnary c fuel s nzero
    else
      let lz := leadingZeros 64 s.buf
      .ok (nzero + lz, ⟨s.buf * 2 ^ lz % 2 ^ 64 * 2 % 2 ^ 64, s.nbits - (lz + 1), s.pos⟩)

/-- A signed difference from its code. -/
def unzigzag (diff : Nat) : Int :=
  if diff % 2 = 0 then asI32 ((diff / 2 : Nat) : Int)
    else asI32 ((4294967295 - diff / 2 : Nat) : Int)

/-- A difference of a raw block. -/
def readRaw (c : Bytes) (bbits : Nat) (s : BitBuf) : Except PyErr (Nat × BitBuf) :=
  readField c (str "RICE decode: unexpected end of stream (raw)") bbits s

/-- A difference of a block with the split `fs`. -/
def readSplit (c : Bytes) (fs : Nat) (s : BitBuf) : Except PyErr (Nat × BitBuf) :=
  match readUnary c (c.length + 2) s 0 with
  | .error e => .error e
  | .ok (nzero, s) =>
    if fs = 0 then .ok (nzero % 2 ^ 32, s)
    else
      match readField c (str "RICE decode: unexpected end of stream (rice tail)") fs s with
      | .error e => .error e
      | .ok (bottom, s) => .ok (nzero * 2 ^ fs % 2 ^ 32 ||| bottom, s)

/-- The pixels of a block, each from the one before it and a difference, and the last
one. -/
def readPixels (readDiff : BitBuf → Except PyErr (Nat × BitBuf)) :
    Nat → BitBuf → Int → Except PyErr ((List Int × Int) × BitBuf)
  | 0, s, lastpix => .ok (([], lastpix), s)
  | k + 1, s, lastpix =>
    match readDiff s with
    | .error e => .error e
    | .ok (diff, s) =>
      let lastpix := asI32 (lastpix + unzigzag diff)
      match readPixels readDiff k s lastpix with
      | .error e => .error e
      | .ok ((rest, last), s) => .ok ((lastpix :: rest, last), s)

/-- One block of `k` pixels. -/
def readBlock (c : Bytes) (p : Params) (k : Nat) (s : BitBuf) (lastpix : Int) :
    Except PyErr ((List Int × Int) × BitBuf) :=
  match readField c (str "RICE decode: unexpected end of stream reading fs") p.fsbits s with
  | .error e => .error e
  | .ok (storedFs, s) =>
    if storedFs = 0 then .ok ((List.replicate k lastpix, lastpix), s)
    else if storedFs - 1 = p.fsmax then readPixels (readRaw c p.bbits) k s lastpix
    else readPixels (readSplit c (storedFs - 1)) k s lastpix

/-- The loop over the blocks of the `nx` pixels that are left. -/
def readBlocks (c : Bytes) (p : Params) (nblock : Nat) :
    Nat → Nat → BitBuf → Int → Except PyErr (List Int)
  | 0, nx, _, _ =>
    -- left over only where blocks are empty: the splits come to the end of the stream
    if nx = 0 then .ok []
    else .error (.value (str "RICE decode: unexpected end of stream reading fs"))
  | fuel + 1, nx, s, lastpix =>
    if nx = 0 then .ok []
    else
      match readBlock c p (min nblock nx) s lastpix with
      | .error e => .error e
      | .ok ((px, lastpix), s) =>
        match readBlocks c p nblock fuel (nx - nblock) s lastpix with
        | .error e => .error e
        | .ok rest => .ok (px ++ rest)

/-- The first pixel: sign-extended from its width. -/
def seedPixel (bbits : Nat) (seed : Nat) : Int :=
  if bbits = 8 then asI8 seed else if bbits = 16 then asI16 seed else asI32 seed

/-- `decode_rice_int_u32buf`, for one output width. -/
def decodeRiceInt (littleEndian : Bool) (c : Bytes) (nx : Nat) (p : Params) (nblock width : Nat) :
    Except PyErr Bytes :=
  let seedBytes := p.bbits / 8
  if c.length < seedBytes + 1 then
    .error (.value (str "RICE decode: input shorter than seed + 1 byte"))
  else
    let seed := seedPixel p.bbits (fromBe (slice c 0 seedBytes))
    match readBlocks c p nblock nx nx (refill c ⟨0, 0, seedBytes⟩) seed with
    | .error e => .error e
    | .ok px => .ok (px.flatMap (toNeBytes littleEndian width))

/-- The bit reader of the slow path: the next bit is bit `bitPos` of a byte. -/
structure BitReader where
  bytePos : Nat
  bitPos : Nat
  deriving DecidableEq, Repr

/-- The loop of `read_bits`.  A round takes at least one bit. -/
def readBitsLoop (data : Bytes) : Nat → Nat → Nat → BitReader → Except PyErr (Nat × BitReader)
  | 0, _, result, r => .ok (result, r)
  | fuel + 1, remaining, result, r =>
    if remaining = 0 then .ok (result, r)
    else if data.length ≤ r.bytePos then
      .error (.value (str "RICE decode: unexpected end of compressed stream"))
    else
      let avail := 8 - r.bitPos
      let take := min remaining avail
      let bits := (data.getD r.bytePos 0).toNat / 2 ^ (avail - take) % 2 ^ take
      let r := if r.bitPos + take = 8 then ⟨r.bytePos + 1, 0⟩ else ⟨r.bytePos, r.bitPos + take⟩
      readBitsLoop data fuel (remaining - take) (result * 2 ^ take % 2 ^ 64 ||| bits) r

/-- `read_bits`. -/
def readBits (data : Bytes) (n : Nat) (r : BitReader) : Except PyErr (Nat × BitReader) :=
  if n = 0 then .ok (0, r)
  else if 64 < n then .error (.value (str "RICE BitReader: requested > 64 bits at once"))
  else readBitsLoop data n n 0 r

/-- `read_unary`.  It stops above 1024 zeros. -/
def readUnarySlow (data : Bytes) : Nat → Nat → BitReader → Except PyErr (Nat × BitReader)
  | 0, _, _ => .error (.value
      (str "RICE decode: unary code exceeded 1024 zeros (corrupt stream)"))
  | fuel + 1, count, r =>
    match readBits data 1 r with
    | .error e => .error e
    | .ok (b, r) =>
      if b = 1 then .ok (count, r)
      else if 1024 < count + 1 then
        .error (.value (str "RICE decode: unary code exceeded 1024 zeros (corrupt stream)"))
      else readUnarySlow data fuel (count + 1) r

/-- `sign_extend`: the lower `nbits` bits of a value, by two shifts. -/
def signExtend (val nbits : Nat) : Int :=
  if nbits = 0 then 0
  else if 64 ≤ nbits then asI64 val
  else asI64 (val * 2 ^ (64 - nbits) % 2 ^ 64) / 2 ^ (64 - nbits)

/-- A result in 64 bits, which wraps: `lastpix.wrapping_add`, and a negation. -/
def wrapI64 (v : Int) : Int := asI64 (asU64 v)

/-- `unzigzag` for 64 bits.  The negation of the least value is that value. -/
def unzigzag64 (z : Nat) : Int :=
  if z % 2 ≠ 0 then wrapI64 (-asI64 (z / 2 + 1)) else asI64 (z / 2)

/-- The differences of a block on the slow path. -/
def readDiffSlow (data : Bytes) (p : Params) (fs : Nat) (r : BitReader) :
    Except PyErr (Nat × BitReader) :=
  if p.fsmax ≤ fs then readBits data p.bbits r
  else
    match readUnarySlow data 1026 0 r with
    | .error e => .error e
    | .ok (top, r) =>
      if fs = 0 then .ok (top, r)
      else
        match readBits data fs r with
        | .error e => .error e
        | .ok (bottom, r) => .ok (top * 2 ^ fs % 2 ^ 64 ||| bottom, r)

def readPixelsSlow (data : Bytes) (p : Params) (fs : Nat) :
    Nat → BitReader → Int → Except PyErr (List Int × BitReader × Int)
  | 0, r, lastpix => .ok ([], r, lastpix)
  | k + 1, r, lastpix =>
    match readDiffSlow data p fs r with
    | .error e => .error e
    | .ok (diff, r) =>
      let lastpix := wrapI64 (lastpix + unzigzag64 diff)
      match readPixelsSlow data p fs k r lastpix with
      | .error e => .error e
      | .ok (rest, r, last) => .ok (lastpix :: rest, r, last)

def readBlocksSlow (data : Bytes) (p : Params) (blocksize : Nat) :
    Nat → Nat → BitReader → Int → Except PyErr (List Int)
  | 0, n, _, _ =>
    if n = 0 then .ok []
    else .error (.value (str "RICE decode: unexpected end of compressed stream"))
  | fuel + 1, n, r, lastpix =>
    if n = 0 then .ok []
    else
      let k := min blocksize n
      match readBits data p.fsbits r with
      | .error e => .error e
      | .ok (storedFs, r) =>
        if storedFs = 0 then
          match readBlocksSlow data p blocksize fuel (n - k) r lastpix with
          | .error e => .error e
          | .ok rest => .ok (List.replicate k lastpix ++ rest)
        else
          match readPixelsSlow data p (storedFs - 1) k r lastpix with
          | .error e => .error e
          | .ok (px, r, lastpix) =>
            match readBlocksSlow data p blocksize fuel (n - k) r lastpix with
            | .error e => .error e
            | .ok rest => .ok (px ++ rest)

/-- `cast_i64_to_target_bytes`. -/
def castI64ToTargetBytes (littleEndian : Bool) (values : List Int) (zbitpix : Int) : Bytes :=
  if zbitpix = 8 ∨ zbitpix = 16 ∨ zbitpix = 32 ∨ zbitpix = 64 then
    values.flatMap (toNeBytes littleEndian (zbitpix / 8).toNat)
  else []

/-- `decode_rice_slow_i64`.  The loop leaves as many pixels as there are, so the check
of their number is left out. -/
def decodeRiceSlowI64 (littleEndian : Bool) (compressed : Bytes) (nPixels : Nat) (p : Params)
    (blocksize : Nat) (zbitpix : Int) : Except PyErr Bytes :=
  match readBits compressed p.bbits ⟨0, 0⟩ with
  | .error e => .error e
  | .ok (seedRaw, r) =>
    match readBlocksSlow compressed p blocksize nPixels nPixels r (signExtend seedRaw p.bbits) with
    | .error e => .error e
    | .ok px => .ok (castI64ToTargetBytes littleEndian px zbitpix)

/-- `decode_rice`. -/
def decodeRice (littleEndian : Bool) (compressed : Bytes) (nPixels bytepix blocksize : Nat)
    (zbitpix : Int) : Except PyErr Bytes :=
  if nPixels = 0 then .ok []
  else if blocksize = 0 then .error (.value (str "RICE decode: BLOCKSIZE must be > 0"))
  else
    match riceParams bytepix with
    | .error e => .error e
    | .ok p =>
      if bytepix = 8 then decodeRiceSlowI64 littleEndian compressed nPixels p blocksize zbitpix
      else if zbitpix = 8 ∨ zbitpix = 16 ∨ zbitpix = 32 ∨ zbitpix = 64 then
        decodeRiceInt littleEndian compressed nPixels p blocksize (zbitpix / 8).toNat
      else .error (.value (str "RICE decode: unsupported ZBITPIX=" ++ intDec zbitpix))

/-! ## Encoding -/

/-- The block size of `Rice1::new`. -/
def rice1Blocksize (blocksize : Int) : Except PyErr Nat :=
  if blocksize ≤ 0 then
    .error (.value (str "blocksize must be > 0, got " ++ intDec blocksize))
  else if 4294967295 < blocksize then
    .error (.value (str "blocksize " ++ intDec blocksize ++ str " exceeds u32::MAX"))
  else .ok blocksize.toNat

/-- The bit writer: whole bytes, and the bits of the byte that is being filled. -/
structure BitWriter where
  out : Bytes
  curByte : Nat
  bitsUsed : Nat
  deriving DecidableEq, Repr

/-- Push the byte when it is full. -/
def BitWriter.flush (w : BitWriter) : BitWriter :=
  if w.bitsUsed = 8 then ⟨w.out ++ [UInt8.ofNat w.curByte], 0, 0⟩ else w

/-- The loop of `write_bits`.  A round writes at least one bit. -/
def writeBitsLoop : Nat → Nat → Nat → BitWriter → BitWriter
  | 0, _, _, w => w
  | fuel + 1, value, remaining, w =>
    if remaining = 0 then w
    else
      let avail := 8 - w.bitsUsed
      let take := min remaining avail
      let shift := remaining - take
      let topBits := value / 2 ^ shift % 2 ^ take
      writeBitsLoop fuel (value % 2 ^ shift) shift
        (BitWriter.flush ⟨w.out, w.curByte ||| topBits * 2 ^ (avail - take), w.bitsUsed + take⟩)

/-- `write_bits`. -/
def BitWriter.writeBits (w : BitWriter) (value n : Nat) : BitWriter :=
  writeBitsLoop n (value % 2 ^ n) n w

/-- The loop of `write_zeros`. -/
def writeZerosLoop : Nat → Nat → BitWriter → BitWriter
  | 0, _, w => w
  | fuel + 1, remaining, w =>
    if remaining = 0 then w
    else
      let take := min remaining (8 - w.bitsUsed)
      writeZerosLoop fuel (remaining - take) (BitWriter.flush ⟨w.out, w.curByte, w.bitsUsed + take⟩)

/-- `write_zeros`. -/
def BitWriter.writeZeros (w : BitWriter) (n : Nat) : BitWriter := writeZerosLoop n n w

/-- `write_unary`. -/
def BitWriter.writeUnary (w : BitWriter) (count : Nat) : BitWriter :=
  (w.writeZeros count).writeBits 1 1

/-- `finish`. -/
def BitWriter.finish (w : BitWriter) : Bytes :=
  if 0 < w.bitsUsed then w.out ++ [UInt8.ofNat w.curByte] else w.out

/-- A cast to the width of a pixel. -/
def castPixel (bytepix : Nat) (v : Int) : Int :=
  if bytepix = 1 then asI8 v else if bytepix = 2 then asI16 v else asI32 v

/-- `read_pixel`. -/
def readPixel (pixelBytesBe : Bytes) (bytepix i : Nat) : Int :=
  castPixel bytepix (fromBe (slice pixelBytesBe (i * bytepix) bytepix))

/-- The code of a signed difference: twice the value, its complement where it is
negative. -/
def zigzag (pdiff : Int) : Nat :=
  let doubled := asU32 pdiff * 2 % 2 ^ 32
  if pdiff < 0 then 4294967295 - doubled else doubled

/-- The code of the difference of two pixels. -/
def pixelDiff (bytepix : Nat) (lastpix nextpix : Int) : Nat :=
  zigzag (castPixel bytepix (asI32 (nextpix - lastpix)))

/-- The differences of a block, each pixel from the one before it. -/
def blockDiffs (bytepix : Nat) : Int → List Int → List Nat
  | _, [] => []
  | lastpix, nextpix :: rest => pixelDiff bytepix lastpix nextpix :: blockDiffs bytepix nextpix rest

/-- The sum of the differences, in doubles. -/
def pixelsum (diffs : List Nat) : ℚ :=
  diffs.foldl (fun (sum : ℚ) (zz : Nat) => Binary64.round (sum + zz)) 0

/-- The mean difference of a block, in doubles. -/
def dpsum (diffs : List Nat) : ℚ :=
  let raw := Binary64.round
    (Binary64.round (Binary64.round (pixelsum diffs - ((diffs.length / 2 : Nat) : ℚ)) - 1) /
      (diffs.length : ℚ))
  if raw < 0 then 0 else raw

/-- Half of the mean, cast to the unsigned type of the pixel. -/
def psum (bytepix : Nat) (diffs : List Nat) : Nat :=
  min ⌊dpsum diffs⌋.toNat (256 ^ bytepix - 1) / 2

/-- The loop that counts the bits of `psum`. -/
def countBits : Nat → Nat → Nat
  | 0, _ => 0
  | fuel + 1, psum => if 0 < psum then countBits fuel (psum / 2) + 1 else 0

/-- The split of a block. -/
def splitOf (bytepix : Nat) (diffs : List Nat) : Nat := countBits 32 (psum bytepix diffs)

/-- One block. -/
def writeBlock (p : Params) (bytepix : Nat) (diffs : List Nat) (w : BitWriter) : BitWriter :=
  let fs := splitOf bytepix diffs
  if p.fsmax ≤ fs then
    diffs.foldl (fun w d => w.writeBits d p.bbits) (w.writeBits (p.fsmax + 1) p.fsbits)
  else if fs = 0 ∧ pixelsum diffs = 0 then w.writeBits 0 p.fsbits
  else
    diffs.foldl
      (fun w d =>
        let w := w.writeUnary (d / 2 ^ fs)
        if 0 < fs then w.writeBits (d % 2 ^ fs) fs else w)
      (w.writeBits (fs + 1) p.fsbits)

/-- The loop over the blocks of the pixels that are left. -/
def writeBlocks (p : Params) (bytepix blocksize : Nat) :
    Nat → Int → List Int → BitWriter → BitWriter
  | 0, _, _, w => w
  | fuel + 1, lastpix, pixels, w =>
    if pixels = [] then w
    else
      let block := pixels.take blocksize
      writeBlocks p bytepix blocksize fuel (block.getLastD lastpix) (pixels.drop blocksize)
        (writeBlock p bytepix (blockDiffs bytepix lastpix block) w)

/-- `encode_rice`. -/
def encodeRice (pixelBytesBe : Bytes) (nPixels bytepix blocksize : Nat) : Except PyErr Bytes :=
  if nPixels = 0 then .ok []
  else if blocksize = 0 then .error (.value (str "RICE encode: BLOCKSIZE must be > 0"))
  else if bytepix = 8 then
    .error (.notImplemented (str "RICE_1 does not support 64-bit pixels (BYTEPIX=8): no " ++
      str "canonical FITS writer (cfitsio, fitsio, astropy) produces " ++
      str "such files, so they would be unreadable outside rustfits. " ++
      str "Use GZIP_2 for i64 imaging data " ++ [0xE2, 0x80, 0x94] ++
        str " typically within ~5% of " ++
      str "RICE compression and universally readable."))
  else
    match riceParams bytepix with
    | .error e => .error e
    | .ok p =>
      if u64Size ≤ nPixels * bytepix then
        .error (.value (str "RICE encode: n_pixels * bytepix overflowed usize"))
      else if pixelBytesBe.length ≠ nPixels * bytepix then
        .error (.value (str "RICE encode: input length " ++ natDec pixelBytesBe.length ++
          str " != n_pixels * bytepix (" ++ natDec (nPixels * bytepix) ++ str ")"))
      else
        let pixels := (List.range nPixels).map (readPixel pixelBytesBe bytepix)
        let seed := readPixel pixelBytesBe bytepix 0
        .ok (writeBlocks p bytepix blocksize nPixels seed pixels
          (BitWriter.writeBits ⟨[], 0, 0⟩ (asU32 seed) p.bbits)).finish

end RustFits.Zimage.Rice
