import RustFits.Image.ReadSlice

/-!
# Assigning to a part of an image

`hdu_image.rs`: `write_image_slice` behind `image[key] = value`.

The value is turned into pixels (`Assigned`), and the loop over the strips puts them where
the key points, in order (`setItem_scatters`), so that a read gives them back and every
other pixel as it was (`setItem_readBack`).
-/

namespace RustFits.Image

open Ascii ByteFile Machine StridedBox RowMajor
open BinaryTable (Dtype Double ScalingKind)

section

variable {numpy : Numpy} {littleEndian : Bool} {bitpix : Int} {dataOffset bpp n p : Nat}
    {file : Bytes}
variable {shape : List Nat} {slices : List AxisSlice} {a b : NumpyArray} {cards : List Card}

/-! ## The strips -/

/-- A strip is written pixel by pixel. -/
theorem writeAll_pixels {es : List Bytes} (hes : ∀ e ∈ es, e.length = bpp) :
    writeAll file (dataOffset + p * bpp) es.flatten =
      scatter bpp dataOffset (((List.range es.length).map (p + ·)).zip es) file := by
  have hflat : es.flatten = (List.range es.length).flatMap fun k => es.getD k [] := by
    rw [← List.flatMap_id, List.flatMap_def, List.flatMap_def, List.map_id]
    congr 1
    refine List.ext_getElem (by simp) fun k hk _ => ?_
    rw [List.getElem_map, List.getElem_range, List.getD_eq_getElem _ _ hk]
  have hjobs : ((List.range es.length).map (p + ·)).zip es =
      (List.range es.length).map fun k => (p + k, es.getD k []) := by
    refine List.ext_getElem (by simp) fun k hk _ => ?_
    have hk' : k < es.length := by simpa using hk
    rw [List.getElem_zip, List.getElem_map, List.getElem_map, List.getElem_range,
      List.getD_eq_getElem _ _ hk']
  rw [hflat, hjobs]
  exact writeAll_elements fun k hk => by
    rw [List.getD_eq_getElem _ _ hk]
    exact hes _ (List.getElem_mem hk)

theorem flatten_length {es : List Bytes} (hes : ∀ e ∈ es, e.length = bpp) :
    es.flatten.length = es.length * bpp := by
  rw [← List.flatMap_id]
  exact flatMap_length_of_width hes

/-- The strips of an array, one behind the other: `front` has been written. -/
theorem foldlM_writeArray (dataOffset : Nat) (place : List Nat → Nat) {source : Bytes}
    (cs : List (List Nat)) :
    ∀ (es : List Bytes) (front file : Bytes), (∀ e ∈ es, e.length = bpp) →
      es.length = cs.length * n →
      source = front ++ es.flatten →
      (cs.foldlM (fun (state : Bytes × Nat) idx => do
        let src ← sliceOf source state.2 (n * bpp)
        return (writeAll state.1 (dataOffset + place idx * bpp) src, state.2 + n * bpp))
          (file, front.length) :
          Except PyErr (Bytes × Nat)) =
        .ok (scatter bpp dataOffset
          ((cs.flatMap fun idx => (List.range n).map (place idx + ·)).zip es) file,
            source.length) := by
  induction cs with
  | nil =>
    intro es front file _ hcount hsource
    obtain rfl : es = [] :=
      List.length_eq_zero_iff.1 (by rw [hcount, List.length_nil, Nat.zero_mul])
    rw [hsource, List.flatten_nil, List.append_nil]
    rfl
  | cons idx cs ih =>
    intro es front file hes hcount hsource
    rw [List.length_cons, Nat.succ_mul] at hcount
    have htake : (es.take n).length = n := by rw [List.length_take]; omega
    have hhead : ∀ e ∈ es.take n, e.length = bpp := fun e he => hes e (List.mem_of_mem_take he)
    have hlen := flatten_length hhead
    rw [htake] at hlen
    have hsplit : es.flatten = (es.take n).flatten ++ (es.drop n).flatten := by
      rw [← List.flatten_append, List.take_append_drop]
    have hslice : sliceOf source front.length (n * bpp) = .ok (es.take n).flatten := by
      rw [sliceOf_ok (by rw [hsource, hsplit, List.length_append, List.length_append]; omega),
        hsource, hsplit, slice_append_behind rfl, ← hlen, List.take_left]
    have hjobs : ((idx :: cs).flatMap fun idx => (List.range n).map (place idx + ·)).zip es =
        ((List.range n).map (place idx + ·)).zip (es.take n) ++
          (cs.flatMap fun idx => (List.range n).map (place idx + ·)).zip (es.drop n) := by
      rw [← List.zip_append (by rw [List.length_map, List.length_range, htake]),
        List.take_append_drop]
      rfl
    have hwrite : writeAll file (dataOffset + place idx * bpp) (es.take n).flatten = _ :=
      writeAll_pixels hhead
    rw [htake] at hwrite
    have hrest := ih (es.drop n) (front ++ (es.take n).flatten)
      (writeAll file (dataOffset + place idx * bpp) (es.take n).flatten)
      (fun e he => hes e (List.mem_of_mem_drop he)) (by rw [List.length_drop]; omega)
      (by rw [hsource, hsplit, List.append_assoc])
    rw [List.length_append, hlen] at hrest
    rw [List.foldlM_cons, hslice]
    refine hrest.trans ?_
    rw [hjobs, scatter_append, hwrite]

/-- A scalar: every strip is the same. -/
theorem foldlM_writeScalar (dataOffset : Nat) (place : List Nat → Nat) {pixel : Bytes}
    (hpixel : pixel.length = bpp) (cs : List (List Nat)) :
    ∀ file : Bytes, (cs.foldlM (fun (state : Bytes × Nat) idx => do
        let src ← pure (List.replicate n pixel).flatten
        return (writeAll state.1 (dataOffset + place idx * bpp) src, state.2)) (file, 0) :
          Except PyErr (Bytes × Nat)) =
        .ok (scatter bpp dataOffset
          ((cs.flatMap fun idx => (List.range n).map (place idx + ·)).map (·, pixel)) file, 0) := by
  induction cs with
  | nil => exact fun _ => rfl
  | cons idx cs ih =>
    intro file
    have hwrite : writeAll file (dataOffset + place idx * bpp) (List.replicate n pixel).flatten =
        scatter bpp dataOffset (((List.range n).map (place idx + ·)).map (·, pixel)) file := by
      have hflat : (List.replicate n pixel).flatten = (List.range n).flatMap fun _ => pixel := by
        rw [List.flatMap_def, List.map_const', List.length_range]
      rw [hflat, writeAll_elements fun _ _ => hpixel, List.map_map]
      rfl
    rw [List.foldlM_cons]
    refine (ih _).trans ?_
    rw [hwrite, List.flatMap_cons, List.map_append, scatter_append]

theorem Selects.count_strips (hsel : Selects shape slices) :
    (positions (chosenAxes (shape.zip slices))).length =
      (coords ((slices.take (computeReadStripLayout shape slices).1).map AxisSlice.count)).length *
        (computeReadStripLayout shape slices).2 := by
  rw [hsel.places, List.length_flatMap]
  simp

theorem writeStrips_array (hsel : Selects shape slices) {es : List Bytes}
    (hes : ∀ e ∈ es, e.length = bpp) (hcount : es.length = (slices.map AxisSlice.count).prod) :
    writeStrips bpp dataOffset shape slices es.flatten true file =
      .ok (scatter bpp dataOffset ((positions (chosenAxes (shape.zip slices))).zip es) file) := by
  have hrun := foldlM_writeArray dataOffset
    (stripPixel (rowMajorStrides shape) (slices.take (computeReadStripLayout shape slices).1)
      (slices.drop (computeReadStripLayout shape slices).1)) _ es [] file hes
    (hcount.trans (hsel.count_places.symm.trans hsel.count_strips)) (List.nil_append _).symm
  rw [← hsel.places] at hrun
  rw [writeStrips]
  dsimp only
  rw [odometer_eq_foldlM]
  exact congrArg (Except.map Prod.fst) hrun

theorem writeStrips_scalar (hsel : Selects shape slices) {pixel : Bytes}
    (hpixel : pixel.length = bpp) :
    writeStrips bpp dataOffset shape slices
        (List.replicate (computeReadStripLayout shape slices).2 pixel).flatten false file =
      .ok (scatter bpp dataOffset
        ((positions (chosenAxes (shape.zip slices))).map (·, pixel)) file) := by
  have hrun := foldlM_writeScalar (n := (computeReadStripLayout shape slices).2) dataOffset
    (stripPixel (rowMajorStrides shape) (slices.take (computeReadStripLayout shape slices).1)
      (slices.drop (computeReadStripLayout shape slices).1)) hpixel
    (coords ((slices.take (computeReadStripLayout shape slices).1).map AxisSlice.count)) file
  rw [← hsel.places] at hrun
  rw [writeStrips]
  dsimp only
  rw [odometer_eq_foldlM]
  exact congrArg (Except.map Prod.fst) hrun

/-! ## The pixels -/

theorem reverseGeneralScaling_ok {bscale bzero : Double}
    (h : reverseGeneralScaling numpy littleEndian a bitpix bscale bzero = .ok b) :
    b = a.mapElements littleEndian (pixelDtype bitpix) (numpy.storedElement bitpix bscale bzero)
      fun e _ => numpy.storedElement_length bitpix bscale bzero e := by
  unfold reverseGeneralScaling at h
  by_cases hint : 0 ≤ bitpix
  · rw [if_pos hint] at h
    cases hcheck : numpy.checkStored bitpix bscale bzero a.elements with
    | error e =>
      rw [hcheck] at h
      exact absurd h (by simp [bind, Except.bind])
    | ok _ =>
      rw [hcheck] at h
      exact (Except.ok.inj h).symm
  · rw [if_neg hint] at h
    exact (Except.ok.inj h).symm

/-- What the conversion of an array comes to. -/
theorem normalizeInputDtype_spec (hcards : parseImageHduShape cards = .ok (bitpix, shape))
    (h : normalizeInputDtype numpy littleEndian cards a = .ok b) :
    IsBitpix bitpix ∧ b.dtype.itemsize = bitpix.natAbs / 8 ∧ b.shape = a.shape := by
  by_cases hbitpix : IsBitpix bitpix
  · refine ⟨hbitpix, ?_⟩
    simp only [normalizeInputDtype, hcards, hbitpix.dtype, bind, Except.bind] at h
    by_cases hsame : a.dtype = pixelDtype bitpix
    · rw [if_pos hsame] at h
      obtain rfl := Except.ok.inj h
      exact ⟨congrArg Dtype.itemsize hsame, rfl⟩
    · rw [if_neg hsame] at h
      cases hkind : imageScalingKind bitpix (parseBscaleBzero numpy.doubles cards).1
          (parseBscaleBzero numpy.doubles cards).2 with
      | none => exact absurd h (by simp [hkind])
      | unsignedTrick =>
        by_cases htrick : a.dtype = trickDtype bitpix
        · simp only [hkind, if_pos htrick] at h
          obtain rfl := Except.ok.inj h
          exact ⟨congrArg Dtype.itemsize htrick, rfl⟩
        · exact absurd h (by simp [hkind, htrick])
      | general =>
        by_cases hf8 : a.dtype = f8
        · simp only [hkind, if_pos hf8] at h
          rw [reverseGeneralScaling_ok h]
          exact ⟨rfl, rfl⟩
        · exact absurd h (by simp [hkind, hf8])
  · have hrefused : bitpixToNativeDtype bitpix = .error _ := if_neg hbitpix
    simp only [normalizeInputDtype, hcards, hrefused, bind, Except.bind] at h
    exact absurd h (by simp)

/-- The bytes of elements in the file. -/
theorem swapped_eq {src : Bytes} (order : ByteOrder) (hw : 0 < bpp) (hsrc : src.length = n * bpp) :
    (if bpp ≠ 1 ∧ order = .little then byteswapInPlace src bpp else src) =
      mapElements n bpp order.toBig src := by
  by_cases hswap : bpp ≠ 1 ∧ order = .little
  · rw [if_pos hswap, byteswapInPlace_eq (by omega) hsrc, hswap.2]
    rfl
  · have hid : ∀ e : Bytes, e.length = bpp → order.toBig e = e := by
      intro e he
      cases order with
      | little =>
        have hone : bpp = 1 := by_contra fun hne => hswap ⟨hne, rfl⟩
        obtain ⟨x, rfl⟩ := List.length_eq_one_iff.1 (he.trans hone)
        rfl
      | big => rfl
      | none => rfl
    have hsame : mapElements n bpp order.toBig src = mapElements n bpp id src :=
      mapElements_congr fun k hk => hid _ (slice_element_length (Nat.le_of_eq hsrc.symm) hk)
    rw [if_neg hswap, hsame, mapElements_id hsrc]

/-- The bytes of an array in the file are its elements. -/
theorem diskBytes_eq (hw : 0 < bpp) (h : a.dtype.itemsize = bpp) :
    diskBytes bpp a = a.elements.flatten := by
  have hsize := a.size
  have helements : a.elements.flatten = mapElements a.shape.prod bpp a.order.toBig a.buffer := by
    rw [NumpyArray.elements, mapElements, List.flatMap_def, ← h]
    rfl
  rw [h] at hsize
  rw [helements]
  exact swapped_eq a.order hw hsize

theorem scalarToBeBytesNative_spec {value : PyScalar} {pixel : Bytes}
    (h : scalarToBeBytesNative numpy value bitpix = .ok pixel) :
    IsBitpix bitpix ∧ pixel.length = bitpix.natAbs / 8 := by
  unfold scalarToBeBytesNative at h
  by_cases hint : bitpix ∈ [8, 16, 32, (64 : Int)]
  · rw [if_pos hint] at h
    have hbitpix : IsBitpix bitpix := List.mem_append_left [-32, -64] hint
    refine ⟨hbitpix, ?_⟩
    cases value with
    | float _ => exact absurd h (by simp [extractInt])
    | int v =>
      unfold extractInt at h
      dsimp only at h
      split_ifs at h
      rw [← Except.ok.inj h, intElement, BigEndian.beBytes_length]
  · rw [if_neg hint] at h
    by_cases hfloat : bitpix = -32 ∨ bitpix = -64
    · rw [if_pos hfloat] at h
      refine ⟨List.mem_append_right [8, 16, 32, 64] ?_, numpy.extractFloat_length h⟩
      simpa using hfloat
    · rw [if_neg hfloat] at h
      exact absurd h (by simp)

/-- What the conversion of a scalar comes to. -/
theorem scalarToBeBytes_spec (hcards : parseImageHduShape cards = .ok (bitpix, shape))
    {value : PyScalar}
    {pixel : Bytes} (h : scalarToBeBytes numpy littleEndian cards value bitpix = .ok pixel) :
    IsBitpix bitpix ∧ pixel.length = bitpix.natAbs / 8 := by
  unfold scalarToBeBytes at h
  dsimp only at h
  generalize imageScalingKind bitpix (parseBscaleBzero numpy.doubles cards).1
    (parseBscaleBzero numpy.doubles cards).2 = kind at h
  by_cases hnone : kind = .none
  · rw [if_pos hnone] at h
    exact scalarToBeBytesNative_spec h
  · rw [if_neg hnone] at h
    generalize (if kind = .unsignedTrick then trickDtype bitpix else f8) = dtype at h
    cases hcast : castScalar numpy value dtype with
    | error e =>
      rw [hcast] at h
      exact absurd h (by simp [bind, Except.bind])
    | ok e =>
      have hsize : ((hostOrder littleEndian dtype.itemsize).toBig e).length =
          ([] : List Nat).prod * dtype.itemsize := by
        rw [ByteOrder.toBig_length, castScalar_length hcast, List.prod_nil, Nat.one_mul]
      have harr : NumpyArray.ofBuffer dtype (hostOrder littleEndian dtype.itemsize) []
          ((hostOrder littleEndian dtype.itemsize).toBig e) = .ok ⟨dtype, _, [], _, hsize⟩ :=
        dif_pos hsize
      simp only [hcast, harr, bind, Except.bind] at h
      cases hnative : normalizeInputDtype numpy littleEndian cards
          ⟨dtype, hostOrder littleEndian dtype.itemsize, [],
            (hostOrder littleEndian dtype.itemsize).toBig e,
            hsize⟩ with
      | error e =>
        rw [hnative] at h
        exact absurd h (by simp)
      | ok native =>
        rw [hnative] at h
        obtain ⟨hbitpix, hitemsize, hshape⟩ := normalizeInputDtype_spec hcards hnative
        have hlength : native.buffer.length = 1 * (bitpix.natAbs / 8) := by
          rw [native.size, hshape, hitemsize, List.prod_nil]
        refine ⟨hbitpix, ?_⟩
        rw [← Except.ok.inj h, toHost_length hlength, hlength, Nat.one_mul]

/-- The pixels that an assignment stores, in order. -/
inductive Assigned (numpy : Numpy) (littleEndian : Bool) (cards : List Card) (bitpix : Int)
    (slices : List AxisSlice) : Rhs → List Bytes → Prop where
  | scalar {value : PyScalar} {pixel : Bytes}
    (hpixel : scalarToBeBytes numpy littleEndian cards value bitpix = .ok pixel) :
    Assigned numpy littleEndian cards bitpix slices (.scalar value)
      (List.replicate (slices.map AxisSlice.count).prod pixel)
  | array {input : ArrayInput} {data native : NumpyArray}
    (hdata : unwrapMaskedInput numpy cards false input = .ok data)
    (hshape : data.shape = outputShape slices)
    (hnative : normalizeInputDtype numpy littleEndian cards data = .ok native) :
    Assigned numpy littleEndian cards bitpix slices (.array input) native.elements

theorem Assigned.pixels {rhs : Rhs} {es : List Bytes}
    (h : Assigned numpy littleEndian cards bitpix slices rhs es)
    (hcards : parseImageHduShape cards = .ok (bitpix, shape)) (hsel : Selects shape slices) :
    IsBitpix bitpix ∧ es.length = (slices.map AxisSlice.count).prod ∧ ∀ e ∈ es,
    e.length = bitpix.natAbs / 8 := by
  cases h with
  | scalar hpixel =>
    have hspec := scalarToBeBytes_spec hcards hpixel
    refine ⟨hspec.1, List.length_replicate, fun e he => ?_⟩
    rw [List.eq_of_mem_replicate he]
    exact hspec.2
  | array hdata hshape hnative =>
    rename_i input data native
    obtain ⟨hbitpix, hsize, hsame⟩ := normalizeInputDtype_spec hcards hnative
    refine ⟨hbitpix, ?_, fun e he => ?_⟩
    · rw [NumpyArray.elements, List.length_map, List.length_range, hsame, hshape,
        hsel.outputShape_prod]
    · obtain ⟨k, hk, rfl⟩ := List.mem_map.1 he
      rw [NumpyArray.element_length (List.mem_range.1 hk), hsize]

/-- Pixels that are stored where a key points. -/
theorem Selects.scattered (hsel : Selects shape slices) (dataOffset : Nat) (file : Bytes)
    (hw : 0 < bpp)
    {es : List Bytes} (hcount : es.length = (positions (chosenAxes (shape.zip slices))).length)
    (hes : ∀ e ∈ es, e.length = bpp) :
    Scattered bpp dataOffset shape.prod ((positions (chosenAxes (shape.zip slices))).zip es) file
      (scatter bpp dataOffset ((positions (chosenAxes (shape.zip slices))).zip es) file) :=
  scatter_scattered hw (fun job hjob => hes _ (List.of_mem_zip hjob).2)
    (fun job hjob => hsel.place_lt (List.of_mem_zip hjob).1)
    (by rw [List.map_fst_zip (Nat.le_of_eq hcount.symm)]; exact nodup_positions hsel.inside)

/-- An assignment stores its pixels where the key points, in order. -/
theorem setItem_scatters (hcards : parseImageHduShape cards = .ok (bitpix, shape))
    {key : List IndexItem}
    (hkey : normalizeSliceKey key shape = .ok slices) {rhs : Rhs} {es : List Bytes}
    (hrhs : Assigned numpy littleEndian cards bitpix slices rhs es) :
    setItem numpy littleEndian cards dataOffset key rhs file =
      .ok (scatter (bitpix.natAbs / 8) dataOffset
        ((positions (chosenAxes (shape.zip slices))).zip es) file) := by
  have hsel := normalizeSliceKey_selects hkey
  obtain ⟨hbitpix, hcount, hes⟩ := hrhs.pixels hcards hsel
  rw [setItem, hcards]
  show (normalizeSliceKey key shape >>= _) = _
  rw [hkey]
  show writeImageSlice numpy littleEndian cards dataOffset slices rhs file = _
  unfold writeImageSlice
  rw [hcards]
  by_cases hnone : (slices.map AxisSlice.count).prod = 0
  · have hplaces : positions (chosenAxes (shape.zip slices)) = [] :=
      List.length_eq_zero_iff.1 (hsel.count_places.trans hnone)
    rw [hplaces]
    cases hrhs with
    | scalar hpixel => exact if_pos hnone
    | array hdata hshape hnative =>
      show (unwrapMaskedInput _ _ _ _ >>= _) = _
      rw [hdata]
      exact if_pos hnone
  · cases hrhs with
    | scalar hpixel =>
      rename_i value pixel
      show (if (slices.map AxisSlice.count).prod = 0 then _ else _) = _
      rw [if_neg hnone, hpixel]
      refine (writeStrips_scalar hsel (scalarToBeBytes_spec hcards hpixel).2).trans ?_
      rw [List.map_prod_left_eq_zip, List.map_const', hsel.count_places]
    | array hdata hshape hnative =>
      rename_i input data native
      show (unwrapMaskedInput _ _ _ _ >>= _) = _
      rw [hdata]
      show (if (slices.map AxisSlice.count).prod = 0 then _ else _) = _
      rw [if_neg hnone, if_neg (not_not.2 hshape), hnative]
      show writeStrips _ _ _ _ (diskBytes _ native) _ _ = _
      rw [diskBytes_eq hbitpix.pos (normalizeInputDtype_spec hcards hnative).2.1]
      exact writeStrips_array hsel hes hcount

/-! ## Reading back -/

theorem hduAxes_length {count i : Nat} {l : List Nat} (h : hduAxes cards i count = .ok l) :
    l.length = count := by
  induction count generalizing i l with
  | zero =>
    rw [← Except.ok.inj h]
    rfl
  | succ count ih =>
    rw [hduAxes] at h
    cases hd : parseKeyword cards (naxisKey i) with
    | none => exact absurd h (by simp [hd])
    | some d =>
      rw [hd] at h
      dsimp only at h
      by_cases hneg : d < 0
      · exact absurd h (by simp [hneg])
      · rw [if_neg hneg] at h
        cases hmore : hduAxes cards (i + 1) count with
        | error e => exact absurd h (by simp [hmore, Except.map])
        | ok more =>
          rw [hmore] at h
          rw [← Except.ok.inj h, List.length_cons, ih hmore]

theorem parseImageHduShape_ne_nil (h : parseImageHduShape cards = .ok (bitpix, shape)) :
    shape ≠ [] := by
  unfold parseImageHduShape at h
  cases hb : parseKeyword cards (str "BITPIX") with
  | none => exact absurd h (by simp [hb])
  | some b =>
    cases hn : parseKeyword cards (str "NAXIS") with
    | none => exact absurd h (by simp [hb, hn])
    | some naxis =>
      rw [hb, hn] at h
      dsimp only at h
      by_cases hzero : asU64 naxis = 0
      · exact absurd h (by simp [hzero])
      · rw [if_neg hzero] at h
        cases haxes : hduAxes cards 1 (asU64 naxis) with
        | error e => exact absurd h (by simp [haxes, Except.map])
        | ok axes =>
          rw [haxes] at h
          have hshape : axes.reverse = shape := congrArg Prod.snd (Except.ok.inj h)
          have hlength : shape.length = asU64 naxis := by
            rw [← hshape, List.length_reverse, hduAxes_length haxes]
          intro hnil
          exact hzero (by rw [← hlength, hnil, List.length_nil])

/-- Reading after some pixels have been replaced. -/
theorem readBack_of_scattered {info : ImageMeta} {file' : Bytes} {es : List Bytes} (scale : Bool)
    (h : Scattered (info.bitpix.natAbs / 8) dataOffset info.shape.prod
      ((positions (chosenAxes (info.shape.zip slices))).zip es) file file')
    (hbitpix : IsBitpix info.bitpix) (hshape : info.shape ≠ [])
    (hroom : dataOffset + info.shape.prod * (info.bitpix.natAbs / 8) ≤ file.length)
    (hsel : Selects info.shape slices)
    (hcount : es.length = (positions (chosenAxes (info.shape.zip slices))).length) :
    ∃ old new, readImageData numpy littleEndian info dataOffset file scale = .ok old ∧
      readImageData numpy littleEndian info dataOffset file' scale = .ok new ∧
      (positions (chosenAxes (info.shape.zip slices))).map new.element =
        es.map (readPixel numpy info scale) ∧
      (∀ p < info.shape.prod, p ∉ positions (chosenAxes (info.shape.zip slices)) →
        new.element p = old.element p) ∧
      file'.length = file.length ∧ file'.take dataOffset = file.take dataOffset ∧
      file'.drop (dataOffset + info.shape.prod * (info.bitpix.natAbs / 8)) =
        file.drop (dataOffset + info.shape.prod * (info.bitpix.natAbs / 8)) := by
  obtain ⟨old, hold, -, holdPixels⟩ :=
    readImageData_spec numpy littleEndian scale hbitpix hshape hroom
  obtain ⟨new, hnew, -, hnewPixels⟩ := readImageData_spec numpy littleEndian scale hbitpix hshape
    (Nat.le_trans hroom h.length_ge)
  have hplaces : ∀ job ∈ (positions (chosenAxes (info.shape.zip slices))).zip es,
      job.1 < info.shape.prod :=
    fun job hjob => hsel.place_lt (List.of_mem_zip hjob).1
  refine ⟨old, new, hold, hnew, ?_, fun p hp hother => ?_, h.length_eq hroom, h.take_base hroom,
    h.drop_room hroom hplaces⟩
  · refine List.ext_getElem (by rw [List.length_map, List.length_map, hcount]) fun k hk hk' => ?_
    rw [List.length_map] at hk hk'
    have hjob : ((positions (chosenAxes (info.shape.zip slices)))[k], es[k]) ∈
        (positions (chosenAxes (info.shape.zip slices))).zip es :=
      List.mem_iff_getElem.2 ⟨k, by rw [List.length_zip]; omega, List.getElem_zip⟩
    rw [List.getElem_map, List.getElem_map, hnewPixels _ (hsel.place_lt (List.getElem_mem hk))]
    exact congrArg (readPixel numpy info scale) (h.stored _ hjob)
  · have hin := pixel_inside (info.bitpix.natAbs / 8) hp
    have hsame :=
      h.slice_other (p := p) (fun job hjob heq =>
        hother (heq ▸ (List.of_mem_zip hjob).1)) (by omega)
    rw [holdPixels p hp, hnewPixels p hp, hsame]

/-- The pixels that are read after an assignment are the new ones where the key points and
the old ones elsewhere, and nothing outside of the pixels has changed. -/
theorem setItem_readBack (info : ImageMeta) (scale : Bool)
    (hcards : parseImageHduShape cards = .ok (info.bitpix, info.shape))
    (hroom : dataOffset + info.shape.prod * (info.bitpix.natAbs / 8) ≤ file.length)
    {key : List IndexItem}
    (hkey : normalizeSliceKey key info.shape = .ok slices) {rhs : Rhs} {es : List Bytes}
    (hrhs : Assigned numpy littleEndian cards info.bitpix slices rhs es) :
    ∃ file' old new, setItem numpy littleEndian cards dataOffset key rhs file = .ok file' ∧
      readImageData numpy littleEndian info dataOffset file scale = .ok old ∧
      readImageData numpy littleEndian info dataOffset file' scale = .ok new ∧
      (positions (chosenAxes (info.shape.zip slices))).map new.element =
        es.map (readPixel numpy info scale) ∧
      (∀ p < info.shape.prod, p ∉ positions (chosenAxes (info.shape.zip slices)) →
        new.element p = old.element p) ∧
      file'.length = file.length ∧ file'.take dataOffset = file.take dataOffset ∧
      file'.drop (dataOffset + info.shape.prod * (info.bitpix.natAbs / 8)) =
        file.drop (dataOffset + info.shape.prod * (info.bitpix.natAbs / 8)) := by
  have hsel := normalizeSliceKey_selects hkey
  obtain ⟨hbitpix, hlength, hes⟩ := hrhs.pixels hcards hsel
  have hcount := hlength.trans hsel.count_places.symm
  have hscattered := hsel.scattered dataOffset file hbitpix.pos hcount hes
  obtain ⟨old, new, hrest⟩ :=
    readBack_of_scattered scale hscattered hbitpix (parseImageHduShape_ne_nil hcards)
      hroom hsel hcount
  exact ⟨_, old, new, setItem_scatters hcards hkey hrhs, hrest⟩

end

/-- The header of an image of 2 rows and 3 columns. -/
def twoRows : List Card :=
  [str "SIMPLE  =                    T", str "BITPIX  =                   16",
    str "NAXIS   =                    2",
    str "NAXIS1  =                    3", str "NAXIS2  =                    2", endCard]

/-- `image[-1, ::2] = 7`. -/
theorem setItem_readBack_lastRow :
    ∃ file' old new,
      setItem noCasts true twoRows 0 [.int (-1), .slice ⟨none, none, some 2⟩] (.scalar (.int 7))
        (List.replicate 12 0) = .ok file' ∧
      readImageData noCasts true ⟨16, [2, 3], Double.one, 0, none⟩ 0 (List.replicate 12 0)
        true = .ok old ∧
      readImageData noCasts true ⟨16, [2, 3], Double.one, 0, none⟩ 0 file' true = .ok new ∧
      [3, 5].map new.element =
        [[0, 7], [0, 7]].map (readPixel noCasts ⟨16, [2, 3], Double.one, 0, none⟩ true) ∧
      (∀ p < 6, p ∉ [3, 5] → new.element p = old.element p) ∧
      file'.length = (List.replicate 12 (0 : UInt8)).length ∧
      file'.take 0 = (List.replicate 12 (0 : UInt8)).take 0 ∧
      file'.drop (0 + 6 * 2) = (List.replicate 12 (0 : UInt8)).drop (0 + 6 * 2) :=
  setItem_readBack ⟨16, [2, 3], Double.one, 0, none⟩ true (by decide +kernel) (by decide)
    (show normalizeSliceKey [.int (-1), .slice ⟨none, none, some 2⟩] [2, 3] =
      .ok [⟨1, 1, 1, true⟩, ⟨0, 2, 2, false⟩] from rfl)
    (.scalar (show scalarToBeBytes noCasts true twoRows (.int 7) 16 = .ok [0, 7] by decide +kernel))

end RustFits.Image
