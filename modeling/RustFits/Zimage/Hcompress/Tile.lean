import RustFits.Lib.ByteFile
import RustFits.Zimage.Hcompress.StreamExact
import RustFits.Zimage.Hcompress.TransformLevels

/-!
# The codec of a tile

`encode_hcompress` and `decode_hcompress` of `zimage/hcompress.rs`: the transform, the
scaling and the stream one after the other.  Pixels of 8 and 16 bits are coded in `i32`
words, those of 32 bits in `i64` words.

`hcompress_roundTrip` is the lossless case, with a scale of at most one.
-/

namespace RustFits.Zimage.Hcompress

open Ascii BigEndian ByteFile Outcome

/-- `nx_numpy * ny_numpy` in a `usize`. -/
def tileSize (checks : Bool) (nx ny : Nat) : Outcome PyErr Nat :=
  if nx * ny < 2 ^ 64 then pure (nx * ny) else if checks then .fault else pure (nx * ny % 2 ^ 64)

/-! ## Encoding -/

/-- A pixel of one byte has no sign. -/
def pixelValue (width n : Nat) : Int := if width = 1 then n else toSigned (8 * width) n

/-- The pixels of a tile. -/
def readPixels (pixelBytesBe : List UInt8) (width nPixels : Nat) : Outcome PyErr (List Int) :=
  (List.range nPixels).mapM fun i => do
    let bytes ← getRange pixelBytesBe (i * width) (i * width + width)
    pure (pixelValue width (fromBe bytes))

section

variable (w : Nat) (checks : Bool)

/-- The part of `encode_hcompress` that is alike for both widths of words. -/
def encodeTile (pixelBytesBe : List UInt8) (width nPixels nx ny : Nat) (scale : Int) :
    Outcome PyErr (List UInt8) := do
  let a ← readPixels pixelBytesBe width nPixels
  let a ← htrans w checks a nx ny
  let a ← digitize w checks a scale
  let wr ← encode w checks HWriter.new a nx ny scale
  pure wr.out

end

/-- `encode_hcompress`.  Pixels of 32 bits are coded in `i64` words. -/
def encodeHcompress (checks : Bool) (pixelBytesBe : List UInt8) (nx ny bytepix : Nat)
    (zbitpix scale : Int) :
    Outcome PyErr (List UInt8) :=
  if ¬ (zbitpix = 8 ∨ zbitpix = 16 ∨ zbitpix = 32) then
    .error (.value (str "HCOMPRESS encode: unsupported ZBITPIX " ++ intDec zbitpix ++
      str " (must be 8/16/32; ZBITPIX=64 is not supported by the encoder)"))
  else if ¬ (bytepix = 1 ∨ bytepix = 2 ∨ bytepix = 4) then
    .error (.value (str "HCOMPRESS encode: unsupported bytepix " ++ natDec bytepix ++
      str " (must be 1/2/4)"))
  else if scale < 0 then
    .error (.value (str "HCOMPRESS encode: scale must be >= 0, got " ++ intDec scale))
  else do
    let nPixels ← tileSize checks nx ny
    if 2 ^ 64 ≤ nPixels * bytepix then
      .error (.value (str "HCOMPRESS encode: n_pixels * bytepix overflowed usize"))
    else if pixelBytesBe.length ≠ nPixels * bytepix then
      .error (.value (str "HCOMPRESS encode: input length " ++ natDec pixelBytesBe.length ++
        str " != n_pixels * bytepix (" ++ natDec (nPixels * bytepix) ++ str ")"))
    else if zbitpix = 32 then encodeTile 64 checks pixelBytesBe 4 nPixels nx ny scale
    else if (bytepix = 1 ∧ zbitpix = 8) ∨ (bytepix = 2 ∧ zbitpix = 16) then
      encodeTile 32 checks pixelBytesBe bytepix nPixels nx ny scale
    else
      .error (.value (str "HCOMPRESS encode: bytepix/zbitpix mismatch (bytepix=" ++
        natDec bytepix ++ str ", zbitpix=" ++ intDec zbitpix ++ str ")"))

/-! ## Decoding -/

/-- The cast to the pixels of the tile, from words of `word` bits. -/
def castToTargetBytes (littleEndian : Bool) (word : Nat) (a : List Int) (bytepix : Nat)
    (zbitpix : Int) :
    Outcome PyErr (List UInt8) :=
  if (word = 32 ∧ bytepix = 1 ∧ zbitpix = 8) ∨ (word = 32 ∧ bytepix = 2 ∧ zbitpix = 16) ∨
    (bytepix = 4 ∧ zbitpix = 32)
  then pure (a.flatMap (toNeBytes littleEndian bytepix))
  else
    .error (.value (str "HCOMPRESS cast i" ++ natDec word ++ [0xE2, 0x86, 0x92] ++
      str "target: unsupported (bytepix=" ++ natDec bytepix ++ str ", zbitpix=" ++
        intDec zbitpix ++ str ")"))

/-- `cast_i32_to_target_bytes`. -/
def castI32ToTargetBytes (littleEndian : Bool) (a : List Int) (bytepix : Nat) (zbitpix : Int) :
    Outcome PyErr (List UInt8) :=
  castToTargetBytes littleEndian 32 a bytepix zbitpix

/-- `cast_i64_to_target_bytes`. -/
def castI64ToTargetBytes (littleEndian : Bool) (a : List Int) (bytepix : Nat) (zbitpix : Int) :
    Outcome PyErr (List UInt8) :=
  castToTargetBytes littleEndian 64 a bytepix zbitpix

section

variable (w : Nat) (checks : Bool)

/-- The part of `decode_hcompress` that is alike for both widths of words. -/
def decodeTile (compressed : List UInt8) (nPixels nx ny : Nat) (smooth : Bool) :
    Outcome PyErr (List Int) := do
  let stream ← decode w checks nPixels (HState.new compressed)
  if stream.1.2.1 ≠ nx ∨ stream.1.2.2.1 ≠ ny then
    .error (.value (str "HCOMPRESS: stream dims " ++ natDec stream.1.2.1 ++ str "x" ++
      natDec stream.1.2.2.1 ++ str " disagree with header tile shape " ++ natDec nx ++ str "x" ++
      natDec ny))
  else hinv w checks (undigitize w stream.1.1 stream.1.2.2.2) nx ny smooth stream.1.2.2.2

end

/-- `decode_hcompress`. -/
def decodeHcompress (littleEndian checks : Bool) (compressed : List UInt8) (nx ny bytepix : Nat)
    (zbitpix : Int) (smooth : Bool) : Outcome PyErr (List UInt8) :=
  if ¬ (zbitpix = 8 ∨ zbitpix = 16 ∨ zbitpix = 32) then
    .error (.value (str "HCOMPRESS: unsupported ZBITPIX " ++ intDec zbitpix ++
      str " (must be 8, 16, or 32)"))
  else if ¬ (bytepix = 1 ∨ bytepix = 2 ∨ bytepix = 4) then
    .error (.value (str "HCOMPRESS: unsupported bytepix " ++ natDec bytepix ++
      str " (must be 1, 2, or 4)"))
  else do
    let nPixels ← tileSize checks nx ny
    if zbitpix = 32 then do
      let a ← decodeTile 64 checks compressed nPixels nx ny smooth
      castI64ToTargetBytes littleEndian a bytepix zbitpix
    else do
      let a ← decodeTile 32 checks compressed nPixels nx ny smooth
      castI32ToTargetBytes littleEndian a bytepix zbitpix

/-! ## Round trip -/

/-- A value of a pixel of `width` bytes. -/
def IsPixel (width : Nat) (v : Int) : Prop :=
  if width = 1 then 0 ≤ v ∧ v < 256 else Fits (8 * width) v

instance (width : Nat) (v : Int) : Decidable (IsPixel width v) :=
  inferInstanceAs (Decidable (if width = 1 then _ else _))

section

variable {w width nx ny : Nat} {checks smooth : Bool} {px : List Int} {p scale : Int}

theorem IsPixel.back {v : Int} (hwidth : 0 < width) (h : IsPixel width v) :
    pixelValue width (fromBe (toNeBytes false width v)) = v := by
  show pixelValue width (fromBe (beBytes width (v % (256 : Int) ^ width).toNat)) = v
  unfold pixelValue IsPixel at *
  by_cases hone : width = 1
  · rw [if_pos hone] at h ⊢
    rw [hone, fromBe_beBytes]
    omega
  · rw [if_neg hone] at h ⊢
    exact number_roundTrip hwidth h

theorem readPixels_back (hwidth : 0 < width) (h : ∀ v ∈ px, IsPixel width v) :
    readPixels (px.flatMap (toNeBytes false width)) width px.length = .ok px := by
  have hlen : (px.flatMap (toNeBytes false width)).length = px.length * width :=
    flatMap_length_of_width fun _ _ => toNeBytes_length false width _
  have hpixel : ∀ i ∈ List.range px.length,
      (do
        let bytes ← getRange (px.flatMap (toNeBytes false width)) (i * width) (i * width + width)
        pure (pixelValue width (fromBe bytes)) : Outcome PyErr Int) = .ok (px.getD i 0) := by
    intro i hi
    have hlt := List.mem_range.1 hi
    have hend : i * width + width ≤ px.length * width := by
      rw [← Nat.succ_mul]
      exact Nat.mul_le_mul_right width hlt
    have hget := List.getElem?_eq_getElem hlt
    have hslice :=
      slice_flatMap (f := toNeBytes false width) (fun _ _ => toNeBytes_length false width _) hget
    rw [getRange_of_le (by omega) (by omega), ok_bind, Nat.add_sub_cancel_left]
    show pure (pixelValue width (fromBe (slice _ _ _))) = _
    rw [hslice, (h _ (List.getElem_mem hlt)).back hwidth, List.getD_eq_getElem _ _ hlt]
    rfl
  rw [readPixels, mapM_of_ok hpixel]
  refine congrArg Outcome.ok (List.ext_getElem? fun i => ?_)
  rw [List.getElem?_map]
  by_cases hi : i < px.length
  · rw [List.getElem?_range hi, List.getElem?_eq_getElem hi, Option.map_some,
      List.getD_eq_getElem _ _ hi]
  · rw [List.getElem?_eq_none (by simpa using hi), List.getElem?_eq_none (Nat.not_lt.1 hi)]
    rfl

/-- The coefficients of a tile fit its stream. -/
theorem TileFits.stream (checks smooth : Bool) (scale : Int) (h : TileFits w p nx ny px)
    (hw : 4 ≤ w ∧ w ≤ 64)
    (hx : 2 ≤ nx ∧ nx < 2 ^ 31) (hy : 2 ≤ ny ∧ ny < 2 ^ 31) (hoff : smooth = false ∨ scale ≤ 1) :
    ∃ t, htrans w checks px nx ny = .ok t ∧ Coefficients w nx ny t ∧
    hinv w checks t nx ny smooth scale = .ok px := by
  have hlog : 0 < log2n (max nx ny) := log2n_pos (hx.1.trans (Nat.le_max_left nx ny))
  obtain ⟨t, hrun, hlen, hbound, hback⟩ := htrans_undone checks h hlog hoff
  have hroom := h.room
  have hpow : (2 : Int) ^ (log2n (max nx ny) + 3) = 4 * 2 ^ (log2n (max nx ny) + 1) := by ring
  have hword : (2 : Int) ^ (w - 1) = 4 * 2 ^ (w - 3) := by
    rw [show w - 1 = w - 3 + 2 by omega, pow_add]
    ring
  have hsmall : p * 2 ^ (log2n (max nx ny) + 1) < 2 ^ (w - 3) := by
    rw [hpow, hword] at hroom
    have hmul : p * (4 * 2 ^ (log2n (max nx ny) + 1)) = 4 * (p * 2 ^ (log2n (max nx ny) + 1)) := by
      ring
    omega
  refine ⟨t, hrun, ⟨hw, hx, hy, hlen, fun v hv => ?_, fun i v _ hv => ?_⟩, hback⟩
  · have hle := hbound v (List.mem_of_getElem? hv)
    have hbits : (2 : Int) ^ (w - 3) ≤ 2 ^ (w - 1) := pow_le_pow_right₀ (by decide) (by omega)
    exact ⟨by omega, by omega⟩
  · have hle := hbound v (List.mem_of_getElem? hv)
    omega

/-- A tile is coded without a fault, and comes back. -/
theorem tile_roundTrip (checks : Bool) (h : TileFits w p nx ny px) (hw : 4 ≤ w ∧ w ≤ 64)
    (hx : 2 ≤ nx ∧ nx < 2 ^ 31)
    (hy : 2 ≤ ny ∧ ny < 2 ^ 31) (hscale : 0 ≤ scale ∧ scale ≤ 1) (hwidth : 0 < width)
    (hpixels : ∀ v ∈ px, IsPixel width v) :
    ∃ stream, encodeTile w checks (px.flatMap (toNeBytes false width)) width (nx * ny) nx ny
      scale = .ok stream ∧
      ∀ rest smooth, decodeTile w checks (stream ++ rest) (nx * ny) nx ny smooth = .ok px := by
  obtain ⟨t, hrun, ht, -⟩ := h.stream checks false scale hw hx hy (.inl rfl)
  obtain ⟨wr, henc, hdec⟩ :=
    stream_roundTrip checks ht (show Fits 32 scale from ⟨by omega, by omega⟩)
  have hread := readPixels_back hwidth hpixels
  rw [h.length] at hread
  refine ⟨wr.out, ?_, fun rest smooth => ?_⟩
  · rw [encodeTile, hread, ok_bind, hrun, ok_bind, digitize, if_pos hscale.2]
    show (encode w checks HWriter.new t nx ny scale >>= _) = _
    rw [henc]
    rfl
  · obtain ⟨t', hrun', -, hback⟩ := h.stream checks smooth scale hw hx hy (.inr hscale.2)
    obtain rfl : t = t' := Outcome.ok.inj (hrun.symm.trans hrun')
    obtain ⟨st, hst, -⟩ := hdec rest
    rw [decodeTile, hst, ok_bind, if_neg (by simp)]
    show hinv w checks (undigitize w t scale) nx ny smooth scale = _
    rw [undigitize, if_pos hscale.2]
    exact hback

end

/-- The width of the words that pixels of `bytepix` bytes are coded in. -/
def wordBits (bytepix : Nat) : Nat := if bytepix = 4 then 64 else 32

/-- The largest size of a pixel. -/
def pixelBound (bytepix : Nat) : Int :=
  if bytepix = 1 then 255 else if bytepix = 2 then 32768 else 2147483648

/-- How many levels a tile may have. -/
def mostLevels (bytepix : Nat) : Nat := if bytepix = 1 then 20 else if bytepix = 2 then 12 else 28

section

variable {bytepix nx ny : Nat} {px : List Int} {scale : Int}

theorem IsPixel.bounded (hpix : bytepix = 1 ∨ bytepix = 2 ∨ bytepix = 4) {v : Int}
    (h : IsPixel bytepix v) :
    -pixelBound bytepix ≤ v ∧ v ≤ pixelBound bytepix := by
  rcases hpix with rfl | rfl | rfl
  · obtain ⟨hlo, hhi⟩ : 0 ≤ v ∧ v < 256 := h
    show -255 ≤ v ∧ v ≤ 255
    omega
  · obtain ⟨hlo, hhi⟩ : -2 ^ 15 ≤ v ∧ v < 2 ^ 15 := h
    show -32768 ≤ v ∧ v ≤ 32768
    omega
  · obtain ⟨hlo, hhi⟩ : -2 ^ 31 ≤ v ∧ v < 2 ^ 31 := h
    show -2147483648 ≤ v ∧ v ≤ 2147483648
    omega

theorem tileFits_of_pixels (hpix : bytepix = 1 ∨ bytepix = 2 ∨ bytepix = 4)
    (hlen : px.length = nx * ny)
    (hx : 2 ≤ nx) (hy : 2 ≤ ny) (hmax : max nx ny ≤ 2 ^ mostLevels bytepix)
    (hpixels : ∀ v ∈ px, IsPixel bytepix v) :
    TileFits (wordBits bytepix) (pixelBound bytepix) nx ny px := by
  have hpos : 1 ≤ pixelBound bytepix := by
    rcases hpix with rfl | rfl | rfl <;> decide
  have hroom : pixelBound bytepix * 2 ^ (mostLevels bytepix + 3) < 2 ^ (wordBits bytepix - 1) := by
    rcases hpix with rfl | rfl | rfl <;> decide
  refine ⟨hlen, by omega, by omega, hpos, fun v hv => (hpixels v hv).bounded hpix,
    Int.lt_of_le_of_lt ?_ hroom⟩
  have hlog := log2n_le hmax
  exact Int.mul_le_mul_of_nonneg_left (pow_le_pow_right₀ (by decide) (by omega)) (by omega)

theorem tileSize_eq (checks : Bool) (hpix : bytepix = 1 ∨ bytepix = 2 ∨ bytepix = 4)
    (hmax : max nx ny ≤ 2 ^ mostLevels bytepix) :
    tileSize checks nx ny = .ok (nx * ny) ∧ nx * ny * bytepix < 2 ^ 64 ∧ nx < 2 ^ 31 ∧
    ny < 2 ^ 31 := by
  have hle : 2 ^ mostLevels bytepix ≤ 2 ^ 28 := by
    rcases hpix with rfl | rfl | rfl <;> decide
  have hmul : nx * ny ≤ 2 ^ 28 * 2 ^ 28 := Nat.mul_le_mul (by omega) (by omega)
  refine ⟨if_pos (by omega), ?_, by omega, by omega⟩
  rcases hpix with rfl | rfl | rfl <;> omega

/-- A tile of at least two rows and two columns is coded without a fault, and comes
back, when no axis is longer than `2 ^ mostLevels`. -/
theorem hcompress_roundTrip (checks littleEndian : Bool)
    (hpix : bytepix = 1 ∨ bytepix = 2 ∨ bytepix = 4)
    (hlen : px.length = nx * ny) (hx : 2 ≤ nx) (hy : 2 ≤ ny)
    (hmax : max nx ny ≤ 2 ^ mostLevels bytepix)
    (hpixels : ∀ v ∈ px, IsPixel bytepix v) (hscale : 0 ≤ scale ∧ scale ≤ 1) :
    ∃ stream,
      encodeHcompress checks (px.flatMap (toNeBytes false bytepix)) nx ny bytepix (8 * bytepix)
        scale = .ok stream ∧
      ∀ rest smooth, decodeHcompress littleEndian checks (stream ++ rest) nx ny bytepix
        (8 * bytepix) smooth =
        .ok (px.flatMap (toNeBytes littleEndian bytepix)) := by
  obtain ⟨hsize, hbytes, hnx, hny⟩ := tileSize_eq checks hpix hmax
  have hfits := tileFits_of_pixels hpix hlen hx hy hmax hpixels
  have hpos : 0 < bytepix := by omega
  have hword : 4 ≤ wordBits bytepix ∧ wordBits bytepix ≤ 64 := by
    rcases hpix with rfl | rfl | rfl <;> decide
  obtain ⟨stream, henc, hdec⟩ :=
    tile_roundTrip checks hfits hword ⟨hx, hnx⟩ ⟨hy, hny⟩ hscale hpos hpixels
  have hinput : (px.flatMap (toNeBytes false bytepix)).length = nx * ny * bytepix := by
    rw [flatMap_length_of_width fun _ _ => toNeBytes_length false bytepix _, hlen]
  refine ⟨stream, ?_, fun rest smooth => ?_⟩
  · rw [encodeHcompress, if_neg (by omega), if_neg (by omega), if_neg (by omega), hsize, ok_bind,
      if_neg (by omega), if_neg (by rw [hinput]; omega)]
    rcases hpix with rfl | rfl | rfl
    · exact henc
    · exact henc
    · exact henc
  · rw [decodeHcompress, if_neg (by omega), if_neg (by omega), hsize, ok_bind]
    rcases hpix with rfl | rfl | rfl
    · show (decodeTile (wordBits 1) checks _ _ nx ny smooth >>= _) = _
      rw [hdec rest smooth]
      rfl
    · show (decodeTile (wordBits 2) checks _ _ nx ny smooth >>= _) = _
      rw [hdec rest smooth]
      rfl
    · show (decodeTile (wordBits 4) checks _ _ nx ny smooth >>= _) = _
      rw [hdec rest smooth]
      rfl

/-- Four pixels of 16 bits. -/
theorem hcompress_roundTrip_pixels : ∃ stream,
    encodeHcompress true ([5, -3, 100, 7].flatMap (toNeBytes false 2)) 2 2 2 (8 * (2 : Nat))
      1 = .ok stream ∧
    ∀ rest smooth, decodeHcompress true true (stream ++ rest) 2 2 2 (8 * (2 : Nat)) smooth =
      .ok ([5, -3, 100, 7].flatMap (toNeBytes true 2)) :=
  hcompress_roundTrip true true (.inr (.inl rfl)) rfl (by decide) (by decide) (by decide)
    (List.forall_iff_forall_mem.1 (by decide)) (by decide)

end

end RustFits.Zimage.Hcompress
