import RustFits.Image.WriteSlice

/-!
# Writing a box

`hdu_image.rs`: `write_image_data` behind `image.write(data, start)`.

The box is the key that chooses a range along every axis (`boxSlices`), and its strips are
those of `compute_read_strip_layout` (`computeStripLayout_eq`).  The data goes where the box
is, pixel by pixel (`writeBox_scatters`), although large strips are swapped and written in
chunks (`writeSwapped_eq`).  So the write is the assignment to the slices of the box
(`writeImageData_eq_setItem`).
-/

namespace RustFits.Image

open Ascii ByteFile Machine StridedBox RowMajor
open BinaryTable (Double)

/-! ## The box -/

/-- The key that chooses a box. -/
def boxSlices (dataShape start : List Nat) : List AxisSlice :=
  (dataShape.zip start).map fun axis => ⟨axis.2, 1, axis.1, false⟩

section

variable {shape dataShape start : List Nat} {bpp n : Nat} {file : Bytes} {a : NumpyArray}

theorem stripLayoutFrom_eq (axes : List (Nat × Nat × Nat)) (n : Nat) :
    stripLayoutFrom axes n =
      readStripLayoutFrom (axes.map fun axis => (axis.1, ⟨axis.2.2, 1, axis.2.1, false⟩)) n := by
  induction axes generalizing n with
  | nil => rfl
  | cons axis axes ih =>
    rw [List.map_cons, readStripLayoutFrom, stripLayoutFrom, List.length_map, ← ih]
    rfl

/-- The two layouts agree. -/
theorem computeStripLayout_eq (shape dataShape start : List Nat) :
    computeStripLayout shape dataShape start =
      computeReadStripLayout shape (boxSlices dataShape start) := by
  rw [computeStripLayout, computeReadStripLayout, boxSlices, stripLayoutFrom_eq, List.map_reverse,
    List.zip_map_right]
  rfl

theorem boxSlices_counts (h : dataShape.length = start.length) :
    (boxSlices dataShape start).map AxisSlice.count = dataShape := by
  rw [boxSlices, List.map_map]
  exact List.map_fst_zip (Nat.le_of_eq h)

theorem boxSlices_starts (h : dataShape.length = start.length) :
    (boxSlices dataShape start).map AxisSlice.start = start := by
  rw [boxSlices, List.map_map]
  exact List.map_snd_zip (Nat.le_of_eq h.symm)

theorem boxSlices_step {s : AxisSlice} (h : s ∈ boxSlices dataShape start) : s.step = 1 := by
  obtain ⟨axis, -, rfl⟩ := List.mem_map.1 h
  rfl

theorem checkBox_ok {axes : List (Nat × Nat × Nat)} {i : Nat} (h : checkBox i axes = .ok ()) :
    ∀ axis ∈ axes, axis.1 + axis.2.1 ≤ axis.2.2 := by
  induction axes generalizing i with
  | nil => simp
  | cons axis axes ih =>
    rw [checkBox] at h
    by_cases hout : axis.2.2 < axis.1 + axis.2.1
    · exact absurd h (by simp [hout])
    · rw [if_neg hout] at h
      rw [List.forall_mem_cons]
      exact ⟨Nat.le_of_not_lt hout, ih h⟩

/-- A box that is checked is inside of the image. -/
theorem boxSlices_selects (hdata : dataShape.length = shape.length)
    (hstart : start.length = shape.length)
    (h : ∀ axis ∈ start.zip (dataShape.zip shape), axis.1 + axis.2.1 ≤ axis.2.2) :
    Selects shape (boxSlices dataShape start) := by
  induction shape generalizing dataShape start with
  | nil =>
    rw [List.length_eq_zero_iff.1 hdata]
    exact List.Forall₂.nil
  | cons dim shape ih =>
    cases dataShape with
    | nil => exact absurd hdata (by simp)
    | cons count dataShape =>
      cases start with
      | nil => exact absurd hstart (by simp)
      | cons s start =>
        rw [List.zip_cons_cons, List.zip_cons_cons, List.forall_mem_cons] at h
        refine List.Forall₂.cons ⟨⟨Nat.one_pos, fun i hi => ?_⟩, fun hint => absurd hint (by simp)⟩
          (ih (Nat.succ.inj hdata) (Nat.succ.inj hstart) h.2)
        have hin : s + count ≤ dim := h.1
        have hi' : i < count := hi
        show s + i * 1 < dim
        omega

/-! ## The places -/

theorem weighted_add {outer : List AxisSlice} (hstep : ∀ s ∈ outer, s.step = 1) {idx : List Nat}
    (hlen : idx.length = outer.length) (ws : List Nat) :
    weighted (List.zipWith (fun (s : AxisSlice) i => s.start + i * s.step) outer idx) ws =
      weighted (outer.map AxisSlice.start) ws + weighted idx ws := by
  induction outer generalizing idx ws with
  | nil =>
    rw [List.length_eq_zero_iff.1 hlen]
    rfl
  | cons s outer ih =>
    cases idx with
    | nil => exact absurd hlen (by simp)
    | cons i idx =>
      cases ws with
      | nil => simp [weighted]
      | cons w ws =>
        rw [List.forall_mem_cons] at hstep
        have hrest := ih hstep.2 (Nat.succ.inj hlen) ws
        unfold weighted at *
        rw [List.zipWith_cons_cons, List.zipWith_cons_cons, List.sum_cons, hrest, List.map_cons,
          List.zipWith_cons_cons, List.sum_cons, List.zipWith_cons_cons, List.sum_cons,
          hstep.1, Nat.mul_one, Nat.add_mul]
        omega

/-- The place of a strip of a box. -/
theorem stripPixel_box {outer inner : List AxisSlice} (hstep : ∀ s ∈ outer, s.step = 1)
    {idx : List Nat} (hlen : idx.length = outer.length) (strides : List Nat) :
    stripPixel strides outer inner idx =
      weighted ((outer ++ inner).map AxisSlice.start) strides + weighted idx strides := by
  rw [stripPixel, weighted_add hstep hlen, List.map_append, weighted_append, List.length_map]
  omega

theorem strides_append (outer inner : List Nat) {idx : List Nat}
    (hlen : idx.length = outer.length) :
    weighted idx (strides (outer ++ inner)) = flatIndex outer idx * inner.prod := by
  induction outer generalizing idx with
  | nil =>
    rw [List.length_eq_zero_iff.1 hlen]
    simp [weighted, flatIndex]
  | cons m outer ih =>
    cases idx with
    | nil => exact absurd hlen (by simp)
    | cons i idx =>
      have hrest := ih (Nat.succ.inj hlen)
      rw [flatIndex_cons (Nat.succ.inj hlen), Nat.add_mul, ← hrest, List.cons_append,
        strides, weighted, List.zipWith_cons_cons, List.sum_cons, List.prod_append, Nat.mul_assoc]
      rfl

/-- The elements of an array in strips. -/
theorem range_strips (outer inner : List Nat) :
    List.range (outer ++ inner).prod = (coords outer).flatMap fun idx =>
      (List.range inner.prod).map (weighted idx (strides (outer ++ inner)) + ·) := by
  rw [List.prod_append, range_mul, ← map_flatIndex_coords outer, List.flatMap_map]
  refine List.flatMap_congr fun idx hidx => ?_
  rw [strides_append outer inner (length_of_mem_coords hidx)]

/-! ## The strips -/

theorem mapElements_append {f : Bytes → Bytes} {x y : Bytes} {m : Nat} (hx : x.length = n * bpp) :
    mapElements (n + m) bpp f (x ++ y) = mapElements n bpp f x ++ mapElements m bpp f y := by
  unfold mapElements
  rw [List.range_add, List.flatMap_append, List.flatMap_map]
  congr 1
  · refine List.flatMap_congr fun k hk => ?_
    have hin := pixel_inside bpp (List.mem_range.1 hk)
    rw [slice_append_left (by omega)]
  · refine List.flatMap_congr fun k _ => ?_
    rw [slice, slice, List.drop_append, List.drop_eq_nil_of_le (by rw [hx, Nat.add_mul]; omega),
      hx, Nat.add_mul, Nat.add_sub_cancel_left, List.nil_append]

theorem byteswapInPlace_append {x y : Bytes} {m : Nat} (hw : 1 < bpp) (hx : x.length = n * bpp)
    (hy : y.length = m * bpp) :
    byteswapInPlace (x ++ y) bpp = byteswapInPlace x bpp ++ byteswapInPlace y bpp := by
  rw [byteswapInPlace_eq hw hx, byteswapInPlace_eq hw hy, ← mapElements_append hx]
  exact byteswapInPlace_eq hw (by rw [List.length_append, hx, hy, Nat.add_mul])

/-- The chunks come to one write. -/
theorem writeSwapped_eq (hw : 1 < bpp) (hchunk : bpp ∣ maxChunkBytes) {src : Bytes}
    (hsrc : bpp ∣ src.length)
    (pos : Nat) {fuel off : Nat} (hoff : bpp ∣ off) (hfuel : src.length ≤ off + fuel)
    (file : Bytes) :
    writeSwapped bpp pos src fuel off file =
      writeAll file (pos + off) (byteswapInPlace (src.drop off) bpp) := by
  have hdone : ∀ off, src.length ≤ off → byteswapInPlace (src.drop off) bpp = [] :=
    fun off hoff => by
    rw [List.drop_eq_nil_of_le hoff]
    exact @byteswapInPlace_eq 0 bpp [] hw (Nat.zero_mul bpp).symm
  induction fuel generalizing off file with
  | zero =>
    rw [hdone off hfuel, writeAll_nil]
    rfl
  | succ fuel ih =>
    rw [writeSwapped]
    by_cases hend : src.length ≤ off
    · rw [if_pos hend, hdone off hend, writeAll_nil]
    · rw [if_neg hend]
      dsimp only
      generalize hm : min (src.length - off) (min src.length maxChunkBytes) = m
      have hdvd : bpp ∣ m := by
        have hleft := Nat.dvd_sub hsrc hoff
        rcases Nat.le_total src.length maxChunkBytes with hle | hle
        · rw [Nat.min_eq_left hle, Nat.min_eq_left (Nat.sub_le _ _)] at hm
          rwa [← hm]
        · rw [Nat.min_eq_right hle] at hm
          rw [← hm]
          rcases Nat.le_total (src.length - off) maxChunkBytes with hle' | hle'
          · rwa [Nat.min_eq_left hle']
          · rwa [Nat.min_eq_right hle']
      have hpos : 0 < m := by
        have hchunkPos : 0 < maxChunkBytes := by decide
        omega
      have hfit : off + m ≤ src.length := by omega
      obtain ⟨k, hk⟩ := hdvd
      have hslice : (slice src off m).length = k * bpp := by
        rw [slice_length_of_le hfit, hk, Nat.mul_comm]
      have hsplit : src.drop off = slice src off m ++ src.drop (off + m) := by
        rw [slice, ← List.drop_drop, List.take_append_drop]
      have hlen : (byteswapInPlace (slice src off m) bpp).length = m := by
        rw [byteswapInPlace_eq hw hslice, mapElements_length (Nat.le_of_eq hslice.symm)
          fun e he => by rw [List.length_reverse, he], hk, Nat.mul_comm]
      obtain ⟨l, hl⟩ := Nat.dvd_sub hsrc (Nat.dvd_add hoff ⟨k, hk⟩)
      have hrest : (src.drop (off + m)).length = l * bpp := by
        rw [List.length_drop, hl, Nat.mul_comm]
      rw [ih (Nat.dvd_add hoff ⟨k, hk⟩) (by omega), hsplit, byteswapInPlace_append hw hslice hrest,
        ← writeAll_append_data, hlen, Nat.add_assoc]

theorem foldlM_scatter {body : List Nat → Bytes → Except PyErr Bytes}
    {jobs : List Nat → List (Nat × Bytes)} {dataOffset : Nat} (cs : List (List Nat))
    (h : ∀ idx ∈ cs, ∀ file, body idx file = .ok (scatter bpp dataOffset (jobs idx) file))
    (file : Bytes) :
    cs.foldlM (fun file idx => body idx file) file =
      .ok (scatter bpp dataOffset (cs.flatMap jobs) file) := by
  induction cs generalizing file with
  | nil => rfl
  | cons idx cs ih =>
    rw [List.forall_mem_cons] at h
    rw [List.foldlM_cons, h.1, List.flatMap_cons, scatter_append]
    exact ih h.2 _

theorem zip_flatMap {α β γ : Type} (f : α → List β) (g : α → List γ) (l : List α)
    (h : ∀ x ∈ l, (f x).length = (g x).length) :
    (l.flatMap f).zip (l.flatMap g) = l.flatMap fun x => (f x).zip (g x) := by
  induction l with
  | nil => rfl
  | cons x l ih =>
    rw [List.forall_mem_cons] at h
    rw [List.flatMap_cons, List.flatMap_cons, List.flatMap_cons, List.zip_append h.1, ih h.2]

/-- A strip of an array is written element by element. -/
theorem writeBoxStrip_eq {dataOffset p q : Nat} (hw : 0 < bpp) (hchunk : bpp ∣ maxChunkBytes)
    (hsize : a.dtype.itemsize = bpp) (hin : q + n ≤ a.shape.prod) :
    (do
      let src ← sliceOf a.buffer (q * bpp) (n * bpp)
      if bpp ≠ 1 ∧ a.order = .little then
        return writeSwapped bpp (dataOffset + p * bpp) src (n * bpp) 0 file
      else return writeAll file (dataOffset + p * bpp) src : Except PyErr Bytes) =
      .ok (scatter bpp dataOffset
        ((List.range n).map fun j => (p + j, a.element (q + j))) file) := by
  have hbuffer := a.size
  rw [hsize] at hbuffer
  have hfit : q * bpp + n * bpp ≤ a.buffer.length := by
    rw [hbuffer, ← Nat.add_mul]
    exact Nat.mul_le_mul_right bpp hin
  have hlen := slice_length_of_le hfit
  have helements : mapElements n bpp a.order.toBig (slice a.buffer (q * bpp) (n * bpp)) =
      (List.range n).flatMap fun j => a.element (q + j) := by
    refine List.flatMap_congr fun j hj => ?_
    rw [slice_slice (pixel_inside bpp (List.mem_range.1 hj)), ← Nat.add_mul,
      NumpyArray.element, hsize]
  have hwidth : ∀ j < n, (a.element (q + j)).length = bpp := fun j hj => by
    rw [NumpyArray.element_length (by omega), hsize]
  have hswapped := swapped_eq a.order hw hlen
  rw [helements] at hswapped
  rw [sliceOf_ok hfit, ← writeAll_elements hwidth, ← hswapped]
  by_cases hswap : bpp ≠ 1 ∧ a.order = .little
  · rw [if_pos hswap]
    show (if bpp ≠ 1 ∧ a.order = .little then Except.ok _ else _) = _
    rw [if_pos hswap, writeSwapped_eq (by omega) hchunk ⟨n, by rw [hlen, Nat.mul_comm]⟩ _
      (Nat.dvd_zero bpp)
      (by rw [hlen, Nat.zero_add]) file]
    rfl
  · rw [if_neg hswap]
    exact if_neg hswap

/-- The loop puts every element of the data at its place in the box. -/
theorem writeBox_scatters {dataOffset : Nat} (hw : 0 < bpp) (hchunk : bpp ∣ maxChunkBytes)
    (hsize : a.dtype.itemsize = bpp) (hsome : a.shape.prod ≠ 0)
    (hdata : a.shape.length = shape.length) (hstart : start.length = shape.length)
    (hsel : Selects shape (boxSlices a.shape start)) :
    writeBox bpp dataOffset shape a.shape start a file =
      .ok (scatter bpp dataOffset
        ((positions (chosenAxes (shape.zip (boxSlices a.shape start)))).zip a.elements) file) := by
  have hlen : a.shape.length = start.length := hdata.trans hstart.symm
  have hplaces := hsel.places
  have hcounts := boxSlices_counts hlen
  have hpixels : (computeReadStripLayout shape (boxSlices a.shape start)).2 =
      (a.shape.drop (computeReadStripLayout shape (boxSlices a.shape start)).1).prod := by
    obtain ⟨-, -, hprod⟩ := computeReadStripLayout_spec shape (boxSlices a.shape start)
    rw [hprod, List.map_drop, chosenAxes_counts,
      List.map_snd_zip (Nat.le_of_eq hsel.length_eq.symm), hcounts]
  rw [writeBox, computeStripLayout_eq]
  dsimp only at hplaces ⊢
  generalize (computeReadStripLayout shape (boxSlices a.shape start)).1 = k at hplaces hpixels ⊢
  generalize (computeReadStripLayout shape (boxSlices a.shape start)).2 = n at hplaces hpixels ⊢
  rw [List.map_take, hcounts] at hplaces
  rw [odometer_eq_foldlM, rowMajorStrides_eq, rowMajorStrides_eq]
  rw [rowMajorStrides_eq] at hplaces
  have hsource := range_strips (a.shape.take k) (a.shape.drop k)
  rw [List.take_append_drop, ← hpixels] at hsource
  have hstrip : ∀ idx ∈ coords (a.shape.take k),
      stripPixel (strides shape) ((boxSlices a.shape start).take k)
        ((boxSlices a.shape start).drop k) idx =
        weighted start (strides shape) + weighted idx (strides shape) := by
    intro idx hidx
    have hcount := congrArg List.length hcounts
    have hidxLen : idx.length = ((boxSlices a.shape start).take k).length := by
      rw [length_of_mem_coords hidx, List.length_take, List.length_take, ← hcount, List.length_map]
    rw [stripPixel_box (fun s hs => boxSlices_step (List.mem_of_mem_take hs)) hidxLen,
      List.take_append_drop, boxSlices_starts hlen]
  have hjobs : (positions (chosenAxes (shape.zip (boxSlices a.shape start)))).zip a.elements =
      (coords (a.shape.take k)).flatMap fun idx => (List.range n).map fun j =>
        (weighted start (strides shape) + weighted idx (strides shape) + j,
          a.element (weighted idx (strides a.shape) + j)) := by
    rw [hplaces, NumpyArray.elements, hsource, List.map_flatMap, zip_flatMap _ _ _ (by simp)]
    refine List.flatMap_congr fun idx hidx => ?_
    rw [hstrip idx hidx, List.map_map, List.zip_map']
    rfl
  rw [hjobs]
  refine foldlM_scatter _ (fun idx hidx file => ?_) file
  have hpos : 0 < n := by
    rw [← List.take_append_drop k a.shape, List.prod_append, ← hpixels] at hsome
    exact Nat.pos_of_ne_zero (Nat.mul_ne_zero_iff.1 hsome).2
  have hin : weighted idx (strides a.shape) + n ≤ a.shape.prod := by
    have hlast : weighted idx (strides a.shape) + (n - 1) ∈ List.range a.shape.prod := by
      rw [hsource, List.mem_flatMap]
      exact ⟨idx, hidx, List.mem_map.2 ⟨_, List.mem_range.2 (by omega), rfl⟩⟩
    rw [List.mem_range] at hlast
    omega
  exact writeBoxStrip_eq hw hchunk hsize hin

/-! ## The write -/

theorem startVector_length {naxis : Nat} {given : Option (List Int)}
    (h : startVector naxis given = .ok start) :
    start.length = naxis := by
  cases given with
  | none =>
    rw [← Except.ok.inj h]
    exact List.length_replicate
  | some given =>
    unfold startVector at h
    dsimp only at h
    by_cases hlen : given.length ≠ naxis
    · exact absurd h (by simp [hlen])
    · rw [if_neg hlen] at h
      cases hneg : given.findIdx? (· < 0) with
      | some i => exact absurd h (by simp [hneg])
      | none =>
        rw [hneg] at h
        rw [← Except.ok.inj h, List.length_map]
        exact not_not.1 hlen

theorem IsBitpix.dvd_chunk {bitpix : Int} (h : IsBitpix bitpix) :
    bitpix.natAbs / 8 ∣ maxChunkBytes := by
  simp only [IsBitpix, List.mem_cons, List.not_mem_nil, or_false] at h
  rcases h with rfl | rfl | rfl | rfl | rfl | rfl <;> decide

section

variable {numpy : Numpy} {littleEndian : Bool} {cards : List Card} {bitpix : Int} {dataOffset : Nat}
variable {input : ArrayInput} {raw data : NumpyArray} {given : Option (List Int)}

/-- A write puts the elements of the data where the box is. -/
theorem writeImageData_scatters (hcards : parseImageHduShape cards = .ok (bitpix, shape))
    (hraw : unwrapMaskedInput numpy cards false input = .ok raw)
    (hdata : normalizeInputDtype numpy littleEndian cards raw = .ok data)
    (hnaxis : data.shape.length = shape.length)
    (hstart : startVector shape.length given = .ok start)
    (hbox : checkBox 0 (start.zip (data.shape.zip shape)) = .ok ()) :
    writeImageData numpy littleEndian cards dataOffset input given file =
      .ok (scatter (bitpix.natAbs / 8) dataOffset
        ((positions (chosenAxes (shape.zip (boxSlices data.shape start)))).zip
          data.elements) file) := by
  obtain ⟨hbitpix, hsize, -⟩ := normalizeInputDtype_spec hcards hdata
  have hlen := startVector_length hstart
  rw [writeImageData, hcards]
  show (unwrapMaskedInput _ _ _ _ >>= _) = _
  rw [hraw]
  show (normalizeInputDtype _ _ _ _ >>= _) = _
  rw [hdata]
  show (if data.shape.length ≠ shape.length then _ else _) = _
  rw [if_neg (not_not.2 hnaxis), hstart]
  show (checkBox _ _ >>= _) = _
  rw [hbox]
  show (if data.shape.prod = 0 then _ else _) = _
  by_cases hnone : data.shape.prod = 0
  · rw [if_pos hnone]
    have hnil : data.elements = [] := by rw [NumpyArray.elements, hnone]; rfl
    rw [hnil, List.zip_nil_right]
    rfl
  · rw [if_neg hnone]
    exact writeBox_scatters hbitpix.pos hbitpix.dvd_chunk hsize hnone hnaxis hlen
      (boxSlices_selects hnaxis hlen (checkBox_ok hbox))

/-- The pixels that are read after a write are the data where the box is and the old pixels
elsewhere, and nothing outside of the pixels has changed. -/
theorem writeImageData_readBack (info : ImageMeta) (scale : Bool)
    (hcards : parseImageHduShape cards = .ok (info.bitpix, info.shape))
    (hroom : dataOffset + info.shape.prod * (info.bitpix.natAbs / 8) ≤ file.length)
    (hraw : unwrapMaskedInput numpy cards false input = .ok raw)
    (hdata : normalizeInputDtype numpy littleEndian cards raw = .ok data)
    (hnaxis : data.shape.length = info.shape.length)
    (hstart : startVector info.shape.length given = .ok start)
    (hbox : checkBox 0 (start.zip (data.shape.zip info.shape)) = .ok ()) :
    ∃ file' old new, writeImageData numpy littleEndian cards dataOffset input given
      file = .ok file' ∧
      readImageData numpy littleEndian info dataOffset file scale = .ok old ∧
      readImageData numpy littleEndian info dataOffset file' scale = .ok new ∧
      (positions (chosenAxes (info.shape.zip (boxSlices data.shape start)))).map new.element =
        data.elements.map (readPixel numpy info scale) ∧
      (∀ p < info.shape.prod,
        p ∉ positions (chosenAxes (info.shape.zip (boxSlices data.shape start))) →
        new.element p = old.element p) ∧
      file'.length = file.length ∧ file'.take dataOffset = file.take dataOffset ∧
      file'.drop (dataOffset + info.shape.prod * (info.bitpix.natAbs / 8)) =
        file.drop (dataOffset + info.shape.prod * (info.bitpix.natAbs / 8)) := by
  obtain ⟨hbitpix, hsize, -⟩ := normalizeInputDtype_spec hcards hdata
  have hlen := startVector_length hstart
  have hsel := boxSlices_selects hnaxis hlen (checkBox_ok hbox)
  have hcount : data.elements.length =
      (positions (chosenAxes (info.shape.zip (boxSlices data.shape start)))).length := by
    rw [hsel.count_places, boxSlices_counts (hnaxis.trans hlen.symm), NumpyArray.elements,
      List.length_map, List.length_range]
  have hwidth : ∀ e ∈ data.elements, e.length = info.bitpix.natAbs / 8 := fun e he => by
    obtain ⟨k, hk, rfl⟩ := List.mem_map.1 he
    rw [NumpyArray.element_length (List.mem_range.1 hk), hsize]
  have hscattered := hsel.scattered dataOffset file hbitpix.pos hcount hwidth
  obtain ⟨old, new, hrest⟩ :=
    readBack_of_scattered scale hscattered hbitpix (parseImageHduShape_ne_nil hcards)
      hroom hsel hcount
  exact ⟨_, old, new, writeImageData_scatters hcards hraw hdata hnaxis hstart hbox, hrest⟩

/-! ## The key of a box -/

/-- The key that a box is, as it is written. -/
def boxKey (dataShape start : List Nat) : List IndexItem :=
  (dataShape.zip start).map fun axis =>
    .slice ⟨some (axis.2 : Int), some ((axis.2 + axis.1 : Nat) : Int), none⟩

/-- A range inside of an axis, as a part of a key. -/
theorem parseAxisIndexer_range {dim s count : Nat} (h : s + count ≤ dim) :
    parseAxisIndexer (.slice ⟨some (s : Int), some ((s + count : Nat) : Int), none⟩) dim =
      .ok ⟨s, 1, count, false⟩ := by
  have hclamp : ∀ k : Nat, k ≤ dim → clampBound dim 0 dim (k : Int) = k := by
    intro k hk
    unfold clampBound
    omega
  have hcount : sliceCount (s : Int) ((s + count : Nat) : Int) 1 = count := by
    unfold sliceCount
    split_ifs <;> omega
  have hindices : PySlice.indices ⟨some (s : Int), some ((s + count : Nat) : Int), none⟩ dim =
      some ⟨s, (s + count : Nat), 1, count⟩ := by
    show some (SliceIndices.mk (clampBound dim 0 dim s) (clampBound dim 0 dim (s + count : Nat)) 1
      (sliceCount (clampBound dim 0 dim s) (clampBound dim 0 dim (s + count : Nat)) 1)) = _
    rw [hclamp s (by omega), hclamp (s + count) h, hcount]
  have hfirst : (max (s : Int) 0).toNat = s := by omega
  rw [parseAxisIndexer, hindices]
  show Except.ok (AxisSlice.mk (max (s : Int) 0).toNat 1 count false) = _
  rw [hfirst]

theorem walkKey_box (fill : Nat) (hdata : dataShape.length = shape.length)
    (hstart : start.length = shape.length)
    (h : ∀ axis ∈ start.zip (dataShape.zip shape), axis.1 + axis.2.1 ≤ axis.2.2) :
    walkKey fill (boxKey dataShape start) shape = .ok (boxSlices dataShape start) := by
  induction shape generalizing dataShape start with
  | nil =>
    rw [List.length_eq_zero_iff.1 hdata]
    rfl
  | cons dim shape ih =>
    cases dataShape with
    | nil => exact absurd hdata (by simp)
    | cons count dataShape =>
      cases start with
      | nil => exact absurd hstart (by simp)
      | cons s start =>
        rw [List.zip_cons_cons, List.zip_cons_cons, List.forall_mem_cons] at h
        have hrest := ih (Nat.succ.inj hdata) (Nat.succ.inj hstart) h.2
        show (parseAxisIndexer _ dim >>= _) = _
        rw [parseAxisIndexer_range h.1]
        show (walkKey fill (boxKey dataShape start) shape >>= _) = _
        rw [hrest]
        rfl

theorem normalizeSliceKey_box (hdata : dataShape.length = shape.length)
    (hstart : start.length = shape.length)
    (h : ∀ axis ∈ start.zip (dataShape.zip shape), axis.1 + axis.2.1 ≤ axis.2.2) :
    normalizeSliceKey (boxKey dataShape start) shape = .ok (boxSlices dataShape start) := by
  have hnone : (boxKey dataShape start).count .ellipsis = 0 := by
    rw [List.count_eq_zero]
    intro hmem
    obtain ⟨axis, -, heq⟩ := List.mem_map.1 hmem
    exact absurd heq (by simp)
  have hlen : (boxKey dataShape start).length = shape.length := by
    rw [boxKey, List.length_map, List.length_zip, hdata, hstart, Nat.min_self]
  rw [normalizeSliceKey]
  dsimp only
  rw [hnone, if_neg (by decide), if_neg (by omega)]
  exact walkKey_box _ hdata hstart h

/-- A write is the assignment to the slices of its box. -/
theorem writeImageData_eq_setItem (hcards : parseImageHduShape cards = .ok (bitpix, shape))
    (hraw : unwrapMaskedInput numpy cards false input = .ok raw)
    (hdata : normalizeInputDtype numpy littleEndian cards raw = .ok data)
    (hnaxis : data.shape.length = shape.length)
    (hstart : startVector shape.length given = .ok start)
    (hbox : checkBox 0 (start.zip (data.shape.zip shape)) = .ok ()) :
    writeImageData numpy littleEndian cards dataOffset input given file =
      setItem numpy littleEndian cards dataOffset (boxKey data.shape start)
        (.array input) file := by
  have hlen := startVector_length hstart
  have hsame := (normalizeInputDtype_spec hcards hdata).2.2
  have houtput : outputShape (boxSlices data.shape start) = data.shape := by
    have hall : (boxSlices data.shape start).filter (fun s => !s.isInt) =
        boxSlices data.shape start := by
      rw [List.filter_eq_self]
      intro s hs
      obtain ⟨axis, -, rfl⟩ := List.mem_map.1 hs
      rfl
    rw [outputShape, hall, boxSlices_counts (hnaxis.trans hlen.symm)]
  rw [writeImageData_scatters hcards hraw hdata hnaxis hstart hbox]
  exact (setItem_scatters hcards (normalizeSliceKey_box hnaxis hlen (checkBox_ok hbox))
    (.array hraw (by rw [houtput, hsame]) hdata)).symm

end

end

/-- Two pixels. -/
def twoPixels : NumpyArray := ⟨pixelDtype 16, .big, [1, 2], [0, 7, 0, 8], rfl⟩

/-- `image.write([[7, 8]], start=[1, 1])`. -/
theorem writeImageData_readBack_corner :
    ∃ file' old new,
      writeImageData noCasts true twoRows 0 ⟨twoPixels, none⟩ (some [1, 1])
        (List.replicate 12 0) = .ok file' ∧
      readImageData noCasts true ⟨16, [2, 3], Double.one, 0, none⟩ 0 (List.replicate 12 0)
        true = .ok old ∧
      readImageData noCasts true ⟨16, [2, 3], Double.one, 0, none⟩ 0 file' true = .ok new ∧
      [4, 5].map new.element =
        twoPixels.elements.map (readPixel noCasts ⟨16, [2, 3], Double.one, 0, none⟩ true) ∧
      (∀ p < 6, p ∉ [4, 5] → new.element p = old.element p) ∧
      file'.length = (List.replicate 12 (0 : UInt8)).length ∧
      file'.take 0 = (List.replicate 12 (0 : UInt8)).take 0 ∧
      file'.drop (0 + 6 * 2) = (List.replicate 12 (0 : UInt8)).drop (0 + 6 * 2) :=
  writeImageData_readBack ⟨16, [2, 3], Double.one, 0, none⟩ true (by decide +kernel) (by decide)
    (show unwrapMaskedInput noCasts twoRows false ⟨twoPixels, none⟩ = .ok twoPixels from rfl)
    (show normalizeInputDtype noCasts true twoRows twoPixels = .ok twoPixels by decide +kernel) rfl
    (show startVector 2 (some [1, 1]) = .ok [1, 1] from rfl) rfl

/-- `image.write([[7, 8]], start=[1, 1])` is `image[1:2, 1:3] = [[7, 8]]`. -/
theorem writeImageData_eq_setItem_corner :
    writeImageData noCasts true twoRows 0 ⟨twoPixels, none⟩ (some [1, 1]) (List.replicate 12 0) =
      setItem noCasts true twoRows 0 [.slice ⟨some 1, some 2, none⟩, .slice ⟨some 1, some 3, none⟩]
        (.array ⟨twoPixels, none⟩) (List.replicate 12 0) :=
  writeImageData_eq_setItem (show parseImageHduShape twoRows = .ok (16, [2, 3]) by decide +kernel)
    (show unwrapMaskedInput noCasts twoRows false ⟨twoPixels, none⟩ = .ok twoPixels from rfl)
    (show normalizeInputDtype noCasts true twoRows twoPixels = .ok twoPixels by decide +kernel) rfl
    (show startVector 2 (some [1, 1]) = .ok [1, 1] from rfl) rfl

end RustFits.Image
