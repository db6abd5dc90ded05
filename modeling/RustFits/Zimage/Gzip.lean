import RustFits.Parse
import RustFits.Lib.Spare
import RustFits.Lib.Elements

/-!
# The GZIP codecs

`zimage/gzip.rs`: the pixels of a tile as a gzip stream, for GZIP_2 with the bytes of
the pixels grouped by significance first.

* `shuffle` and `unshuffle` go between the two orders.  They write into memory that is
  not initialised (`Spare`).
* The gzip streams of the flate2 crate are a parameter (`Flate2`).  `Flate2.Lossless`
  is what is assumed of them.
* `gzip2_roundTrip` is the round trip of GZIP_2.
-/

namespace RustFits.Zimage.Gzip

open Ascii ByteFile Machine Outcome

/-- The encoder and the decoder of flate2, with the messages of their I/O errors. -/
structure Flate2 where
  Encoder : Type
  writeAll : Option Nat → Bytes → Except Str Encoder
  finish : Encoder → Except Str Bytes
  readToEnd : Bytes → Except Str Bytes

/-- Every byte string can be compressed, at every level, and is what the decoder reads. -/
def Flate2.Lossless (flate : Flate2) : Prop :=
  ∀ (level : Option Nat) (bytes : Bytes), ∃ encoder compressed,
    flate.writeAll level bytes = .ok encoder ∧ flate.finish encoder = .ok compressed ∧
      flate.readToEnd compressed = .ok bytes

/-! ## The order of the bytes -/

/-- The loop of `shuffle`. -/
def shuffleLoop (pixels : Bytes) (nPixels bytepix : Nat) : Outcome PyErr (Spare UInt8) :=
  (List.range bytepix).foldlM (fun out j =>
    (List.range nPixels).foldlM (fun out i => do
      let b ← getAt pixels (i * bytepix + j)
      out.write (j * nPixels + i) b) out) (Spare.withCapacity (nPixels * bytepix))

/-- `shuffle`. -/
def shuffle (pixels : Bytes) (nPixels bytepix : Nat) : Outcome PyErr Bytes := do
  allocate (nPixels * bytepix) 1
  let out ← shuffleLoop pixels nPixels bytepix
  out.setLen

/-- The loop of `unshuffle`. -/
def unshuffleLoop (shuffled : Bytes) (nPixels bytepix : Nat) : Outcome PyErr (Spare UInt8) :=
  (List.range bytepix).foldlM (fun out j => do
    let srcRow ← getRange shuffled (j * nPixels) ((j + 1) * nPixels)
    (List.range nPixels).foldlM (fun out i => do
      let b ← getAt srcRow i
      out.write (i * bytepix + j) b) out) (Spare.withCapacity (nPixels * bytepix))

/-- `unshuffle`. -/
def unshuffle (shuffled : Bytes) (nPixels bytepix : Nat) : Outcome PyErr Bytes := do
  allocate (nPixels * bytepix) 1
  let out ← unshuffleLoop shuffled nPixels bytepix
  out.setLen

/-! ## Decoding -/

/-- `gzip_decompress`. -/
def gzipDecompress (flate : Flate2) (compressed : Bytes) (expectedLen : Nat) :
    Outcome PyErr Bytes := do
  allocate expectedLen 1
  match flate.readToEnd compressed with
  | .error e => .error (.value (str "GZIP decode: gzip decompression failed: " ++ e))
  | .ok out =>
    if out.length ≠ expectedLen then
      .error (.value (str "GZIP decode: expected " ++ natDec expectedLen ++
        str " decompressed bytes, got " ++ natDec out.length))
    else .ok out

/-- The head of the two decoders: the size of the tile in bytes. -/
def expectedLength (label : Str) (nPixels bytepix : Nat) : Outcome PyErr Nat :=
  if ¬ (bytepix = 1 ∨ bytepix = 2 ∨ bytepix = 4 ∨ bytepix = 8) then
    .error (.value (label ++ str " decode: unsupported bytepix " ++ natDec bytepix ++
      str " (must be 1/2/4/8)"))
  else if u64Size ≤ nPixels * bytepix then
    .error (.value (label ++ str " decode: n_pixels * bytepix overflowed usize"))
  else .ok (nPixels * bytepix)

/-- The tail of the two decoders: from big-endian to the order of the machine. -/
def toNative (littleEndian : Bool) (bytepix : Nat) (out : Bytes) : Bytes :=
  if 1 < bytepix ∧ littleEndian then byteswapInPlace out bytepix else out

/-- `decode_gzip1`. -/
def decodeGzip1 (flate : Flate2) (littleEndian : Bool) (compressed : Bytes)
    (nPixels bytepix : Nat) :
    Outcome PyErr Bytes := do
  let expectedLen ← expectedLength (str "GZIP_1") nPixels bytepix
  let out ← gzipDecompress flate compressed expectedLen
  .ok (toNative littleEndian bytepix out)

/-- `decode_gzip2`. -/
def decodeGzip2 (flate : Flate2) (littleEndian : Bool) (compressed : Bytes)
    (nPixels bytepix : Nat) :
    Outcome PyErr Bytes := do
  let expectedLen ← expectedLength (str "GZIP_2") nPixels bytepix
  let shuffled ← gzipDecompress flate compressed expectedLen
  let out ← if bytepix = 1 then .ok shuffled else unshuffle shuffled nPixels bytepix
  .ok (toNative littleEndian bytepix out)

/-! ## Encoding -/

/-- `gzip_compress`. -/
def gzipCompress (flate : Flate2) (bytes : Bytes) (algoLabel : Str) (level : Option Nat) :
    Outcome PyErr Bytes :=
  match flate.writeAll level bytes with
  | .error e => .error (.value (algoLabel ++ str " encode: write failed: " ++ e))
  | .ok encoder =>
    match flate.finish encoder with
    | .error e => .error (.value (algoLabel ++ str " encode: finish failed: " ++ e))
    | .ok compressed => .ok compressed

/-- `encode_gzip1`. -/
def encodeGzip1 (flate : Flate2) (pixelBytesBe : Bytes) (level : Option Nat) :
    Outcome PyErr Bytes :=
  gzipCompress flate pixelBytesBe (str "GZIP_1") level

/-- `encode_gzip2`. -/
def encodeGzip2 (flate : Flate2) (pixelBytesBe : Bytes) (bytepix : Nat) (level : Option Nat) :
    Outcome PyErr Bytes :=
  if ¬ (bytepix = 1 ∨ bytepix = 2 ∨ bytepix = 4 ∨ bytepix = 8) then
    .error (.value (str "GZIP_2 encode: unsupported bytepix " ++ natDec bytepix ++
      str " (must be 1/2/4/8)"))
  else if pixelBytesBe.length % bytepix ≠ 0 then
    .error (.value (str "GZIP_2 encode: input length " ++ natDec pixelBytesBe.length ++
      str " not a multiple of bytepix " ++ natDec bytepix))
  else if bytepix = 1 then gzipCompress flate pixelBytesBe (str "GZIP_2") level
  else do
    let shuffled ← shuffle pixelBytesBe (pixelBytesBe.length / bytepix) bytepix
    gzipCompress flate shuffled (str "GZIP_2") level

/-! ## The order of the bytes, place by place -/

/-- The byte that `shuffle` puts at a place. -/
def shuffledByte (pixels : Bytes) (nPixels bytepix : Nat) (p : Nat) : UInt8 :=
  pixels.getD (p % nPixels * bytepix + p / nPixels) 0

/-- The byte that `unshuffle` puts at a place. -/
def unshuffledByte (shuffled : Bytes) (nPixels bytepix : Nat) (p : Nat) : UInt8 :=
  shuffled.getD (p % bytepix * nPixels + p / bytepix) 0

theorem grid_lt {rows cols i j : Nat} (hi : i < rows) (hj : j < cols) :
    i * cols + j < rows * cols := by
  have hle : (i + 1) * cols ≤ rows * cols := Nat.mul_le_mul_right cols hi
  rw [Nat.succ_mul] at hle
  omega

/-- The row and the column of a place. -/
theorem grid_divMod {cols i j : Nat} (hj : j < cols) :
    (i * cols + j) / cols = i ∧ (i * cols + j) % cols = j := by
  have hpos : 0 < cols := Nat.lt_of_le_of_lt (Nat.zero_le j) hj
  constructor
  · rw [Nat.mul_comm, Nat.mul_add_div hpos, Nat.div_eq_of_lt hj, Nat.add_zero]
  · rw [Nat.mul_comm, Nat.mul_add_mod, Nat.mod_eq_of_lt hj]

/-- The loop of `shuffle` writes every place once. -/
theorem shuffleLoop_spec {pixels : Bytes} {n w : Nat} (hlen : pixels.length = n * w) :
    ∃ out, shuffleLoop pixels n w = .ok out ∧ out.written.Perm (List.range (n * w)) ∧
      (out.setLen : Outcome PyErr Bytes) =
        .ok ((List.range (n * w)).map (shuffledByte pixels n w)) := by
  have hround : ∀ j ∈ List.range w, ∀ (places : List Nat) (b : Spare UInt8),
      b.Holds (n * w) (shuffledByte pixels n w) places →
      ∃ b', (List.range n).foldlM (fun out i => do
          let x ← getAt pixels (i * w + j)
          out.write (j * n + i) x) b = (.ok b' : Outcome PyErr (Spare UInt8)) ∧
        b'.Holds (n * w) (shuffledByte pixels n w)
          (places ++ (List.range n).flatMap fun i => [j * n + i]) := by
    intro j hj places b hb
    refine hb.foldlM fun i hi places b hb => ?_
    have hi := List.mem_range.1 hi
    have hj := List.mem_range.1 hj
    obtain ⟨hdiv, hmod⟩ := grid_divMod (i := j) hi
    have hvalue : shuffledByte pixels n w (j * n + i) = pixels.getD (i * w + j) 0 := by
      rw [shuffledByte, hdiv, hmod]
    rw [getAt_of_lt (hlen ▸ grid_lt hi hj) 0, ok_bind, ← hvalue]
    exact hb.write (Nat.mul_comm w n ▸ grid_lt hj hi)
  obtain ⟨out, hout, hholds⟩ :=
    (Spare.holds_withCapacity (n * w) (shuffledByte pixels n w)).foldlM hround
  have hperm : out.written.Perm (List.range (n * w)) := by
    rw [hholds.written, List.nil_append, Nat.mul_comm, RowMajor.range_mul]
    exact List.Perm.of_eq (congrArg (List.flatMap · _) (funext fun j => List.map_eq_flatMap.symm))
  refine ⟨out, hout, hperm, hholds.setLen fun p hp => ?_⟩
  rw [← hholds.written]
  exact hperm.mem_iff.2 (List.mem_range.2 hp)

/-- The loop of `unshuffle` writes every place once. -/
theorem unshuffleLoop_spec {shuffled : Bytes} {n w : Nat} (hlen : shuffled.length = n * w) :
    ∃ out, unshuffleLoop shuffled n w = .ok out ∧ out.written.Perm (List.range (n * w)) ∧
      (out.setLen : Outcome PyErr Bytes) =
        .ok ((List.range (n * w)).map (unshuffledByte shuffled n w)) := by
  have hround : ∀ j ∈ List.range w, ∀ (places : List Nat) (b : Spare UInt8),
      b.Holds (n * w) (unshuffledByte shuffled n w) places →
      ∃ b', (do
          let srcRow ← getRange shuffled (j * n) ((j + 1) * n)
          (List.range n).foldlM (fun out i => do
            let x ← getAt srcRow i
            out.write (i * w + j) x) b) = (.ok b' : Outcome PyErr (Spare UInt8)) ∧
        b'.Holds (n * w) (unshuffledByte shuffled n w)
          (places ++ (List.range n).flatMap fun i => [i * w + j]) := by
    intro j hj places b hb
    have hj := List.mem_range.1 hj
    have hstop : (j + 1) * n ≤ shuffled.length := by
      rw [hlen, Nat.mul_comm n w]
      exact Nat.mul_le_mul_right n hj
    have hstart : j * n ≤ (j + 1) * n := Nat.mul_le_mul_right n (Nat.le_succ j)
    rw [getRange_of_le hstart hstop, ok_bind]
    refine hb.foldlM fun i hi places b hb => ?_
    have hi := List.mem_range.1 hi
    have hrow : ((shuffled.drop (j * n)).take ((j + 1) * n - j * n)).getD i 0 =
        shuffled.getD (j * n + i) 0 := by
      rw [Nat.succ_mul, Nat.add_sub_cancel_left]
      simp [List.getD_eq_getElem?_getD, hi]
    have hrowLen : i < ((shuffled.drop (j * n)).take ((j + 1) * n - j * n)).length := by
      rw [List.length_take, List.length_drop]
      rw [Nat.succ_mul] at hstop ⊢
      omega
    obtain ⟨hdiv, hmod⟩ := grid_divMod (i := i) hj
    have hvalue : unshuffledByte shuffled n w (i * w + j) = shuffled.getD (j * n + i) 0 := by
      rw [unshuffledByte, hdiv, hmod]
    rw [getAt_of_lt hrowLen 0, ok_bind, hrow, ← hvalue]
    exact hb.write (grid_lt hi hj)
  obtain ⟨out, hout, hholds⟩ :=
    (Spare.holds_withCapacity (n * w) (unshuffledByte shuffled n w)).foldlM hround
  have hperm : out.written.Perm (List.range (n * w)) := by
    rw [hholds.written, List.nil_append]
    exact grid_perm n w
  refine ⟨out, hout, hperm, hholds.setLen fun p hp => ?_⟩
  rw [← hholds.written]
  exact hperm.mem_iff.2 (List.mem_range.2 hp)

/-! ## Round trips -/

theorem shuffle_eq {pixels : Bytes} {n w : Nat} (hlen : pixels.length = n * w)
    (hmem : pixels.length ≤ isizeMax) :
    shuffle pixels n w = .ok ((List.range (n * w)).map (shuffledByte pixels n w)) := by
  obtain ⟨out, hout, -, hset⟩ := shuffleLoop_spec hlen
  rw [shuffle, allocate_of_le (by rw [Nat.mul_one, ← hlen]; exact hmem), ok_bind, hout,
    ok_bind, hset]

theorem unshuffle_eq {shuffled : Bytes} {n w : Nat} (hlen : shuffled.length = n * w)
    (hmem : shuffled.length ≤ isizeMax) :
    unshuffle shuffled n w = .ok ((List.range (n * w)).map (unshuffledByte shuffled n w)) := by
  obtain ⟨out, hout, -, hset⟩ := unshuffleLoop_spec hlen
  rw [unshuffle, allocate_of_le (by rw [Nat.mul_one, ← hlen]; exact hmem), ok_bind, hout,
    ok_bind, hset]

/-- Every byte goes back to its place. -/
theorem unshuffledByte_shuffled {pixels : Bytes} {n w p : Nat} (hw : 0 < w) (hp : p < n * w) :
    unshuffledByte ((List.range (n * w)).map (shuffledByte pixels n w)) n w p =
      pixels.getD p 0 := by
  have hcol : p % w < w := Nat.mod_lt p hw
  have hrow : p / w < n := Nat.div_lt_of_lt_mul (Nat.mul_comm n w ▸ hp)
  have hq : p % w * n + p / w < n * w := Nat.mul_comm w n ▸ grid_lt hcol hrow
  obtain ⟨hdiv, hmod⟩ := grid_divMod (i := p % w) hrow
  calc unshuffledByte ((List.range (n * w)).map (shuffledByte pixels n w)) n w p
      = shuffledByte pixels n w (p % w * n + p / w) := by
        rw [unshuffledByte, List.getD_eq_getElem?_getD, List.getElem?_map, List.getElem?_range hq]
        rfl
    _ = pixels.getD (p / w * w + p % w) 0 := by rw [shuffledByte, hdiv, hmod]
    _ = pixels.getD p 0 := by rw [Nat.div_add_mod']

theorem unshuffle_shuffled {pixels : Bytes} {n w : Nat} (hw : 0 < w)
    (hlen : pixels.length = n * w) :
    (List.range (n * w)).map
      (unshuffledByte ((List.range (n * w)).map (shuffledByte pixels n w)) n w) =
      pixels := by
  apply List.ext_getElem
  · simp [hlen]
  · intro p hp hp'
    rw [List.getElem_map, List.getElem_range, unshuffledByte_shuffled hw (hlen ▸ hp'),
      List.getD_eq_getElem _ _ hp']

theorem toNative_eq (littleEndian : Bool) {n w : Nat} (hw : 0 < w) {pixels : Bytes}
    (hlen : pixels.length = n * w) :
    toNative littleEndian w pixels = if littleEndian then mapElements n w List.reverse pixels
      else pixels := by
  rw [toNative]
  by_cases hone : w = 1
  · -- the reversal of one byte changes nothing
    have hsame : mapElements n 1 List.reverse pixels = pixels := by
      rw [hone] at hlen
      refine (mapElements_congr fun k hk => ?_).trans (mapElements_id hlen)
      obtain ⟨b, hb⟩ := List.length_eq_one_iff.1 (slice_element_length (Nat.le_of_eq hlen.symm) hk)
      rw [hb]
      rfl
    rw [if_neg (by omega), hone, hsame, ite_self]
  · have hlt : 1 < w := by omega
    cases littleEndian with
    | true => rw [if_pos ⟨hlt, rfl⟩, if_pos rfl, byteswapInPlace_eq hlt hlen]
    | false => rw [if_neg (by simp), if_neg (by simp)]

variable {flate : Flate2}

theorem gzipCompress_decompress (hlossless : flate.Lossless) (bytes : Bytes) (label : Str)
    (level : Option Nat) (hmem : bytes.length ≤ isizeMax) :
    ∃ compressed, gzipCompress flate bytes label level = .ok compressed ∧
      gzipDecompress flate compressed bytes.length = .ok bytes := by
  obtain ⟨encoder, compressed, hwrite, hfinish, hread⟩ := hlossless level bytes
  refine ⟨compressed, ?_, ?_⟩
  · rw [gzipCompress, hwrite]
    dsimp only
    rw [hfinish]
  · rw [gzipDecompress, allocate_of_le (by rw [Nat.mul_one]; exact hmem), ok_bind, hread]
    dsimp only
    rw [if_neg (fun h => h rfl)]

theorem expectedLength_eq (label : Str) {n w : Nat} (hw : w = 1 ∨ w = 2 ∨ w = 4 ∨ w = 8)
    (hmem : n * w ≤ isizeMax) : expectedLength label n w = .ok (n * w) := by
  have hlt : n * w < u64Size := Nat.lt_of_le_of_lt hmem (by decide)
  rw [expectedLength, if_neg (not_not.2 hw), if_neg (Nat.not_le.2 hlt)]

/-- What the encoder writes, the decoder reads as the pixels in the order of the machine. -/
theorem decodeGzip2_encodeGzip2 (hlossless : flate.Lossless) (littleEndian : Bool)
    (level : Option Nat) {n w : Nat}
    (hw : w = 1 ∨ w = 2 ∨ w = 4 ∨ w = 8) {pixels : Bytes} (hlen : pixels.length = n * w)
    (hmem : pixels.length ≤ isizeMax) :
    ∃ compressed, encodeGzip2 flate pixels w level = .ok compressed ∧
      decodeGzip2 flate littleEndian compressed n w =
        .ok (if littleEndian then mapElements n w List.reverse pixels else pixels) := by
  have hpos : 0 < w := by omega
  have hwhole : pixels.length % w = 0 := by rw [hlen, Nat.mul_mod_left]
  have hexpected := expectedLength_eq (str "GZIP_2") hw (hlen ▸ hmem)
  by_cases hone : w = 1
  · obtain ⟨compressed, hcompress, hdecompress⟩ :=
      gzipCompress_decompress hlossless pixels (str "GZIP_2") level hmem
    refine ⟨compressed, ?_, ?_⟩
    · rw [encodeGzip2, if_neg (not_not.2 hw), if_neg (not_not.2 hwhole), if_pos hone, hcompress]
    · rw [decodeGzip2, hexpected, ok_bind, ← hlen, hdecompress, ok_bind, if_pos hone, ok_bind]
      exact congrArg Outcome.ok (toNative_eq littleEndian hpos hlen)
  · have hcount : pixels.length / w = n := by rw [hlen, Nat.mul_div_cancel _ hpos]
    generalize hshuffled : (List.range (n * w)).map (shuffledByte pixels n w) = shuffled
    have hlenShuffled : shuffled.length = n * w := by rw [← hshuffled]; simp
    have hmemShuffled : shuffled.length ≤ isizeMax := by rw [hlenShuffled, ← hlen]; exact hmem
    obtain ⟨compressed, hcompress, hdecompress⟩ :=
      gzipCompress_decompress hlossless shuffled (str "GZIP_2") level hmemShuffled
    rw [hlenShuffled] at hdecompress
    refine ⟨compressed, ?_, ?_⟩
    · rw [encodeGzip2, if_neg (not_not.2 hw), if_neg (not_not.2 hwhole), if_neg hone, hcount,
        shuffle_eq hlen hmem, ok_bind, hshuffled, hcompress]
    · rw [decodeGzip2, hexpected, ok_bind, hdecompress, ok_bind, if_neg hone,
        unshuffle_eq hlenShuffled hmemShuffled, ok_bind, ← hshuffled, unshuffle_shuffled hpos hlen]
      exact congrArg Outcome.ok (toNative_eq littleEndian hpos hlen)

/-- A payload of the wrong length is an error. -/
theorem decodeGzip2_wrongLength (littleEndian : Bool) {n w : Nat}
    (hw : w = 1 ∨ w = 2 ∨ w = 4 ∨ w = 8)
    (hmem : n * w ≤ isizeMax) {compressed payload : Bytes}
    (hread : flate.readToEnd compressed = .ok payload) (hlen : payload.length ≠ n * w) :
    decodeGzip2 flate littleEndian compressed n w =
      .error (.value (str "GZIP decode: expected " ++ natDec (n * w) ++
        str " decompressed bytes, got " ++ natDec payload.length)) := by
  rw [decodeGzip2, expectedLength_eq (str "GZIP_2") hw hmem, ok_bind, gzipDecompress,
    allocate_of_le (by rw [Nat.mul_one]; exact hmem), ok_bind, hread]
  dsimp only
  rw [if_pos hlen, error_bind]

/-- Every place of the memory is written once, and its length can be set then. -/
def WritesOnce (loop : Outcome PyErr (Spare UInt8)) (n : Nat) : Prop :=
  ∃ out, loop = .ok out ∧ out.written.Perm (List.range n) ∧
    ∃ bytes, (out.setLen : Outcome PyErr Bytes) = .ok bytes

/-- The round trip of GZIP_2, the memory behind it, and what is rejected.  A byte string
in memory has at most `isizeMax` bytes. -/
theorem gzip2_roundTrip (hlossless : flate.Lossless) (littleEndian : Bool)
    (level : Option Nat) (n w : Nat)
    (hw : w = 1 ∨ w = 2 ∨ w = 4 ∨ w = 8) (pixels : Bytes) (hlen : pixels.length = n * w)
    (hmem : pixels.length ≤ isizeMax) :
    (∃ compressed, encodeGzip2 flate pixels w level = .ok compressed ∧
      decodeGzip2 flate littleEndian compressed n w =
        .ok (if littleEndian then mapElements n w List.reverse pixels else pixels)) ∧
    (WritesOnce (shuffleLoop pixels n w) (n * w) ∧
      ∀ shuffled : Bytes, shuffled.length = n * w →
      WritesOnce (unshuffleLoop shuffled n w) (n * w)) ∧
    (∀ other : Bytes, other.length % w ≠ 0 →
      ∃ message, encodeGzip2 flate other w level = .error (.value message)) ∧
    ∀ compressed payload : Bytes, flate.readToEnd compressed = .ok payload →
      payload.length ≠ n * w →
      ∃ message, decodeGzip2 flate littleEndian compressed n w = .error (.value message) := by
  refine ⟨decodeGzip2_encodeGzip2 hlossless littleEndian level hw hlen hmem, ⟨?_, ?_⟩, ?_, ?_⟩
  · obtain ⟨out, hout, hperm, hset⟩ := shuffleLoop_spec hlen
    exact ⟨out, hout, hperm, _, hset⟩
  · intro shuffled hlenShuffled
    obtain ⟨out, hout, hperm, hset⟩ := unshuffleLoop_spec hlenShuffled
    exact ⟨out, hout, hperm, _, hset⟩
  · intro other hother
    exact ⟨_, by rw [encodeGzip2, if_neg (not_not.2 hw), if_pos hother]⟩
  · intro compressed payload hread hne
    exact ⟨_, decodeGzip2_wrongLength littleEndian hw (hlen ▸ hmem) hread hne⟩

/-- The gzip stream of these four bytes at the default level. -/
def sampleStream : Bytes :=
  [31, 139, 8, 0, 0, 0, 0, 0, 0, 255, 19, 10, 51, 169, 0, 0, 243, 24, 145, 86, 4, 0, 0, 0]

/-- Streams that are known for four bytes only; others are stored behind a zero. -/
def sampleFlate : Flate2 where
  Encoder := Bytes
  writeAll _ bytes := .ok bytes
  finish bytes := .ok (if bytes = [0x12, 0x56, 0x34, 0x78] then sampleStream else 0 :: bytes)
  readToEnd compressed :=
    if compressed = sampleStream then .ok [0x12, 0x56, 0x34, 0x78]
    else
      match compressed with
      | 0 :: bytes => .ok bytes
      | _ => .error (str "invalid gzip header")

theorem sampleFlate_lossless : sampleFlate.Lossless := by
  intro level bytes
  refine ⟨bytes, _, rfl, rfl, ?_⟩
  show (if (if bytes = [0x12, 0x56, 0x34, 0x78] then sampleStream else 0 :: bytes) = sampleStream
    then _ else _) = _
  by_cases hbytes : bytes = [0x12, 0x56, 0x34, 0x78]
  · rw [if_pos hbytes, if_pos rfl, hbytes]
  · have hne : 0 :: bytes ≠ sampleStream := fun h => absurd (List.cons.inj h).1 (by decide)
    rw [if_neg hbytes, if_neg hne]
    rfl

/-- Two pixels of two bytes, on a little-endian machine. -/
theorem gzip2_roundTrip_two :
    ((∃ compressed, encodeGzip2 sampleFlate [0x12, 0x34, 0x56, 0x78] 2 none = .ok compressed ∧
        decodeGzip2 sampleFlate true compressed 2 2 = .ok [0x34, 0x12, 0x78, 0x56]) ∧
      (WritesOnce (shuffleLoop [0x12, 0x34, 0x56, 0x78] 2 2) 4 ∧
        ∀ shuffled : Bytes, shuffled.length = 4 → WritesOnce (unshuffleLoop shuffled 2 2) 4) ∧
      (∀ other : Bytes, other.length % 2 ≠ 0 →
        ∃ message, encodeGzip2 sampleFlate other 2 none = .error (.value message)) ∧
      ∀ compressed payload : Bytes, sampleFlate.readToEnd compressed = .ok payload →
        payload.length ≠ 4 →
          ∃ message, decodeGzip2 sampleFlate true compressed 2 2 = .error (.value message)) ∧
    encodeGzip2 sampleFlate [0x12, 0x34, 0x56, 0x78] 2 none = .ok sampleStream :=
  ⟨gzip2_roundTrip sampleFlate_lossless true none 2 2 (by decide) [0x12, 0x34, 0x56, 0x78] rfl
    (by decide), rfl⟩

end RustFits.Zimage.Gzip
