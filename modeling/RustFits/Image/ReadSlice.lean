import RustFits.Image.Strips

/-!
# Reading a part of an image

`hdu_image.rs`: `read_image_slice` against `read_image_data`.

Both reads end in the same way, swapping the bytes of the pixels and scaling them
(`finishRead_spec`), pixel by pixel (`readPixel`).  A part that is read therefore holds
pixels of the whole image, the ones that the key chooses, in order
(`readImageSlice_gathers`).
-/

namespace RustFits.Image

open Ascii ByteFile Machine StridedBox RowMajor
open BinaryTable (Dtype Double ScalingKind)

/-! ## Pixels -/

/-- The pixel types. -/
def IsBitpix (bitpix : Int) : Prop := bitpix ∈ [8, 16, 32, 64, (-32 : Int), -64]

instance (bitpix : Int) : Decidable (IsBitpix bitpix) := inferInstanceAs (Decidable (bitpix ∈ _))

section

variable {numpy : Numpy} {littleEndian scale : Bool} {info : ImageMeta} {bitpix : Int}
    {dataOffset n w k : Nat}
variable {buffer file : Bytes} {shape : List Nat} {slices : List AxisSlice} {a : NumpyArray}

theorem IsBitpix.dtype (h : IsBitpix bitpix) :
    bitpixToNativeDtype bitpix = .ok (pixelDtype bitpix) := if_pos h

theorem IsBitpix.pos (h : IsBitpix bitpix) : 0 < bitpix.natAbs / 8 := by
  simp only [IsBitpix, List.mem_cons, List.not_mem_nil, or_false] at h
  omega

theorem toHost_length (h : buffer.length = n * w) :
    (toHost littleEndian w buffer).length = buffer.length := by
  unfold toHost
  by_cases hswap : 1 < w ∧ littleEndian = true
  · rw [if_pos hswap, byteswapInPlace_eq hswap.1 h, h]
    exact mapElements_length (Nat.le_of_eq h.symm) fun e he => by rw [List.length_reverse, he]
  · rw [if_neg hswap]

/-- A pixel in memory is the one of the file. -/
theorem toHost_element (littleEndian : Bool) (h : buffer.length = n * w) (hk : k < n) :
    (hostOrder littleEndian w).toBig (slice (toHost littleEndian w buffer) (k * w) w) =
      slice buffer (k * w) w := by
  unfold toHost
  by_cases hswap : 1 < w ∧ littleEndian = true
  · have horder : hostOrder littleEndian w = .little := by
      rw [hostOrder, if_neg (by omega), if_pos hswap.2]
    rw [if_pos hswap, horder, byteswapInPlace_eq hswap.1 h,
      slice_mapElements (Nat.le_of_eq h.symm) (fun e he => by rw [List.length_reverse, he]) hk]
    exact List.reverse_reverse _
  · rw [if_neg hswap, hostOrder]
    by_cases hone : w ≤ 1
    · rw [if_pos hone]
      rfl
    · rw [if_neg hone, if_neg fun hle => hswap ⟨by omega, hle⟩]
      rfl

/-- What a read makes of a pixel of the file. -/
def readPixel (numpy : Numpy) (info : ImageMeta) (scale : Bool) (e : Bytes) : Bytes :=
  if scale then
    match imageScalingKind info.bitpix info.bscale info.bzero with
    | .none => e
    | .unsignedTrick => flipSign e
    | .general => physicalElement numpy.doubles info.bitpix info.bscale info.bzero e
  else e

theorem applyImageScaling_element {kind : ScalingKind} {bscale bzero : Double}
    (hk : k < a.shape.prod) :
    (applyImageScaling numpy littleEndian a bitpix kind bscale bzero).element k =
      match kind with
      | .none => a.element k
      | .unsignedTrick => flipSign (a.element k)
      | .general => physicalElement numpy.doubles bitpix bscale bzero (a.element k) := by
  cases kind with
  | none => rfl
  | unsignedTrick =>
    exact @NumpyArray.element_mapElements a k littleEndian ⟨(trickDtype bitpix).kind,
      a.dtype.itemsize⟩ flipSign
      (fun e he => by rw [flipSign_length, he]) hk
  | general =>
    exact @NumpyArray.element_mapElements a k littleEndian f8
      (physicalElement numpy.doubles bitpix bscale bzero)
      (fun _ _ => BigEndian.beBytes_length _ _) hk

theorem applyImageScaling_shape {kind : ScalingKind} {bscale bzero : Double} :
    (applyImageScaling numpy littleEndian a bitpix kind bscale bzero).shape = a.shape := by
  cases kind <;> rfl

/-- The tail of both reads. -/
def finishRead (numpy : Numpy) (littleEndian scale : Bool) (info : ImageMeta)
    (arr : NumpyArray) : NumpyArray :=
  if scale then applyImageScaling numpy littleEndian arr info.bitpix
    (imageScalingKind info.bitpix info.bscale info.bzero) info.bscale info.bzero
  else arr

theorem finishRead_spec (numpy : Numpy) (littleEndian scale : Bool) (info : ImageMeta)
    (shape : List Nat) (h : buffer.length = shape.prod * (info.bitpix.natAbs / 8)) :
    ∃ arr, NumpyArray.ofBuffer (pixelDtype info.bitpix)
      (hostOrder littleEndian (info.bitpix.natAbs / 8)) shape
        (toHost littleEndian (info.bitpix.natAbs / 8) buffer) = .ok arr ∧
      (finishRead numpy littleEndian scale info arr).shape = shape ∧
      ∀ k < shape.prod, (finishRead numpy littleEndian scale info arr).element k =
        readPixel numpy info scale
          (slice buffer (k * (info.bitpix.natAbs / 8)) (info.bitpix.natAbs / 8)) := by
  have hsize : (toHost littleEndian (info.bitpix.natAbs / 8) buffer).length =
      shape.prod * (pixelDtype info.bitpix).itemsize := (toHost_length h).trans h
  refine ⟨_, dif_pos hsize, ?_, fun k hk => ?_⟩
  · cases scale
    · rfl
    · exact applyImageScaling_shape
  · have hpixel := toHost_element littleEndian h hk
    cases scale
    · exact hpixel
    · show NumpyArray.element (applyImageScaling _ _ _ _ _ _ _) k = _
      rw [applyImageScaling_element (by exact hk)]
      unfold readPixel NumpyArray.element
      rw [if_pos rfl]
      dsimp only
      cases imageScalingKind info.bitpix info.bscale info.bzero with
      | none => exact hpixel
      | unsignedTrick => exact congrArg flipSign hpixel
      | general =>
        exact congrArg (physicalElement numpy.doubles info.bitpix info.bscale info.bzero) hpixel

/-- The whole image, pixel by pixel. -/
theorem readImageData_spec (numpy : Numpy) (littleEndian scale : Bool)
    (hbitpix : IsBitpix info.bitpix)
    (hshape : info.shape ≠ [])
    (hroom : dataOffset + info.shape.prod * (info.bitpix.natAbs / 8) ≤ file.length) :
    ∃ full, readImageData numpy littleEndian info dataOffset file scale = .ok full ∧
      full.shape = info.shape ∧
      ∀ p < info.shape.prod, full.element p = readPixel numpy info scale
        (slice file (dataOffset + p * (info.bitpix.natAbs / 8)) (info.bitpix.natAbs / 8)) := by
  have hnonempty : ¬ info.shape.isEmpty = true := by simpa using hshape
  obtain ⟨arr, harr, hsame, hfull⟩ :=
    finishRead_spec numpy littleEndian scale info info.shape (slice_length_of_le hroom)
  refine ⟨finishRead numpy littleEndian scale info arr, ?_, hsame, fun p hp => ?_⟩
  · rw [readImageData, if_neg hnonempty, hbitpix.dtype]
    show (readAt file dataOffset _ >>= _) = _
    rw [readAt, readExact_eq_some hroom]
    show (NumpyArray.ofBuffer (pixelDtype info.bitpix)
      (hostOrder littleEndian (info.bitpix.natAbs / 8)) _
      _ >>= _) = _
    rw [harr]
    cases scale <;> rfl
  · rw [hfull p hp, slice_slice (pixel_inside (info.bitpix.natAbs / 8) hp)]

/-- A part of an image that is read holds the pixels of the whole image that the key chooses, in
order. -/
theorem readImageSlice_gathers (numpy : Numpy) (littleEndian scale : Bool)
    (hbitpix : IsBitpix info.bitpix)
    (hshape : info.shape ≠ [])
    (hroom : dataOffset + info.shape.prod * (info.bitpix.natAbs / 8) ≤ file.length)
    {key : List IndexItem} (hkey : normalizeSliceKey key info.shape = .ok slices) :
    ∃ full part, readImageData numpy littleEndian info dataOffset file scale = .ok full ∧
      readImageSlice numpy littleEndian info dataOffset file slices scale = .ok part ∧
      part.shape = outputShape slices ∧
      part.elements = (positions (chosenAxes (info.shape.zip slices))).map full.element := by
  have hsel := normalizeSliceKey_selects hkey
  have hnonempty : ¬ info.shape.isEmpty = true := by simpa using hshape
  obtain ⟨full, hread, -, hfull⟩ := readImageData_spec numpy littleEndian scale hbitpix hshape hroom
  refine ⟨full, ?_⟩
  by_cases hnone : (slices.map AxisSlice.count).prod = 0
  · have hsize :
        ([] : Bytes).length = (outputShape slices).prod * (pixelDtype info.bitpix).itemsize := by
      rw [hsel.outputShape_prod, hnone, Nat.zero_mul]
      rfl
    refine ⟨⟨pixelDtype info.bitpix, hostOrder littleEndian (info.bitpix.natAbs / 8),
      outputShape slices, [], hsize⟩, hread, ?_, rfl, ?_⟩
    · rw [readImageSlice, if_neg hnonempty]
      show (if slices.length ≠ info.shape.length then _ else _) = _
      rw [if_neg (not_not.2 hsel.length_eq.symm), hbitpix.dtype]
      show (if (slices.map AxisSlice.count).prod = 0 then _ else _) = _
      rw [if_pos hnone]
      exact dif_pos hsize
    · have hplaces : positions (chosenAxes (info.shape.zip slices)) = [] :=
        List.length_eq_zero_iff.1 (hsel.count_places.trans hnone)
      rw [hplaces, NumpyArray.elements, hsel.outputShape_prod, hnone]
      rfl
  · have hpixels : ∀ p ∈ positions (chosenAxes (info.shape.zip slices)),
        (slice file (dataOffset + p * (info.bitpix.natAbs / 8)) (info.bitpix.natAbs / 8)).length =
          info.bitpix.natAbs / 8 := fun p hp => by
      have hin := pixel_inside (info.bitpix.natAbs / 8) (hsel.place_lt hp)
      exact slice_length_of_le (by omega)
    have hbuffer := flatMap_length_of_width hpixels
    rw [hsel.count_places, ← hsel.outputShape_prod] at hbuffer
    obtain ⟨arr', harr', hshape', hpart⟩ :=
      finishRead_spec numpy littleEndian scale info (outputShape slices) hbuffer
    refine ⟨finishRead numpy littleEndian scale info arr', hread, ?_, hshape', ?_⟩
    · rw [readImageSlice, if_neg hnonempty]
      show (if slices.length ≠ info.shape.length then _ else _) = _
      rw [if_neg (not_not.2 hsel.length_eq.symm), hbitpix.dtype]
      show (if (slices.map AxisSlice.count).prod = 0 then _ else _) = _
      rw [if_neg hnone]
      show (readStrips _ _ _ _ _ _ >>= _) = _
      rw [readStrips_eq hsel hroom hnone (by rw [List.length_replicate, hsel.outputShape_prod])]
      show (NumpyArray.ofBuffer (pixelDtype info.bitpix)
        (hostOrder littleEndian (info.bitpix.natAbs / 8)) _
        _ >>= _) = _
      rw [harr']
      cases scale <;> rfl
    · have hcount : (positions (chosenAxes (info.shape.zip slices))).length =
          (outputShape slices).prod := by
        rw [hsel.count_places, hsel.outputShape_prod]
      refine List.ext_getElem ?_ fun k hk hk' => ?_
      · rw [NumpyArray.elements, List.length_map, List.length_range, List.length_map,
          hshape', hcount]
      · rw [List.length_map] at hk'
        have hp := List.getElem_mem hk'
        simp only [NumpyArray.elements, List.getElem_map, List.getElem_range]
        rw [hpart k (by omega), slice_flatMap hpixels (List.getElem?_eq_getElem hk'),
          hfull _ (hsel.place_lt hp)]

end

/-- Casts for integer pixels, which need none. -/
def noCasts : Numpy where
  doubles := ⟨fun _ => none, fun _ => 0, fun _ => 0, fun _ _ _ => 0⟩
  cast := fun _ _ => .error (.typeError [])
  extractFloat := fun _ _ => .error (.typeError [])
  storedElement := fun bitpix _ _ _ => List.replicate (bitpix.natAbs / 8) 0
  checkStored := fun _ _ _ _ => .ok ()
  cast_length := fun h => absurd h (by simp)
  extractFloat_length := fun h => absurd h (by simp)
  storedElement_length := fun _ _ _ _ => List.length_replicate

/-- `image[-1, ::2]` of an image of 2 rows and 3 columns. -/
theorem readImageSlice_gathers_lastRow :
    ∃ full part,
      readImageData noCasts true ⟨16, [2, 3], Double.one, 0, none⟩ 0 [0, 1, 0, 2, 0, 3, 0, 4, 0,
        5, 0, 6] true =
        .ok full ∧
      readImageSlice noCasts true ⟨16, [2, 3], Double.one, 0, none⟩ 0 [0, 1, 0, 2, 0, 3, 0,
        4, 0, 5, 0, 6]
        [⟨1, 1, 1, true⟩, ⟨0, 2, 2, false⟩] true = .ok part ∧
      part.shape = [2] ∧ part.elements = [3, 5].map full.element :=
  readImageSlice_gathers noCasts true true (by decide) (by decide) (by decide)
    (show normalizeSliceKey [.int (-1), .slice ⟨none, none, some 2⟩] [2, 3] = _ from rfl)

end RustFits.Image
