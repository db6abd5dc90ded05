import RustFits.Image.Slice

/-!
# The pixels that a key chooses

`hdu_image.rs`: what `normalize_slice_key` and `compute_read_strip_layout` come to.

* A key that is accepted chooses, along every axis, indices inside of it
  (`normalizeSliceKey_selects`).
* The loops over the strips meet the chosen pixels in row-major order and each of them once
  (`Selects.places`), and the bytes that `readStrips` puts together are theirs
  (`readStrips_eq`).
-/

namespace RustFits.Image

open Ascii ByteFile Machine StridedBox RowMajor

/-! ## Keys -/

def AxisSlice.range (s : AxisSlice) (dim : Nat) : AxisRange := ⟨dim, s.start, s.step, s.count⟩

/-- The axes of an image with what is chosen from them. -/
def chosenAxes (axes : List (Nat × AxisSlice)) : List AxisRange :=
  axes.map fun axis => axis.2.range axis.1

/-- What a key may choose from an axis: an integer chooses one index. -/
structure AxisSlice.Of (s : AxisSlice) (dim : Nat) : Prop where
  inside : (s.range dim).Inside
  single : s.isInt = true → s.count = 1

/-- Along every axis indices inside of it are chosen. -/
def Selects (shape : List Nat) (slices : List AxisSlice) : Prop :=
  List.Forall₂ (fun dim (s : AxisSlice) => s.Of dim) shape slices

section

variable {dim fill : Nat} {shape : List Nat} {slices : List AxisSlice} {s : AxisSlice}

theorem fullAxisSlice_of (dim : Nat) : (fullAxisSlice dim).Of dim := by
  refine ⟨⟨Nat.one_pos, fun i hi => ?_⟩, fun h => absurd h (by simp [fullAxisSlice])⟩
  show 0 + i * 1 < dim
  rwa [Nat.zero_add, Nat.mul_one]

theorem parseAxisIndexer_of {item : IndexItem} (h : parseAxisIndexer item dim = .ok s) :
    s.Of dim := by
  cases item with
  | int i =>
    rw [parseAxisIndexer] at h
    by_cases hbig : i < i64Min ∨ 9223372036854775807 < i
    · rw [if_pos hbig] at h
      exact absurd h (by simp)
    · rw [if_neg hbig] at h
      generalize (if i < 0 then dim + i else i) = normalized at h
      by_cases hout : normalized < 0 ∨ dim ≤ normalized
      · rw [if_pos hout] at h
        exact absurd h (by simp)
      · rw [if_neg hout] at h
        obtain rfl := Except.ok.inj h
        refine ⟨⟨Nat.one_pos, fun k hk => ?_⟩, fun _ => rfl⟩
        have hk' : k < 1 := hk
        show normalized.toNat + k * 1 < dim
        omega
  | slice sl =>
    rw [parseAxisIndexer] at h
    cases hr : sl.indices dim with
    | none =>
      rw [hr] at h
      exact absurd h (by simp)
    | some r =>
      rw [hr] at h
      dsimp only at h
      by_cases hneg : r.step ≤ 0
      · rw [if_pos hneg] at h
        exact absurd h (by simp)
      · rw [if_neg hneg] at h
        obtain rfl := Except.ok.inj h
        refine ⟨⟨by show 0 < r.step.toNat; omega, fun k hk => ?_⟩, fun hint =>
          absurd hint (by simp)⟩
        have hk' : k < r.count := hk
        have hfirst := sl.indices_mem hr (Nat.lt_of_le_of_lt (Nat.zero_le k) hk')
        have hlast := sl.indices_mem hr hk'
        show (max r.start 0).toNat + k * r.step.toNat < dim
        have hstep : ((r.step.toNat : Nat) : Int) = r.step := Int.toNat_of_nonneg (by omega)
        unfold SliceIndices.at at hfirst hlast
        have hcast : (((max r.start 0).toNat + k * r.step.toNat : Nat) : Int) =
            r.start + k * r.step := by
          push_cast
          rw [hstep]
          omega
        omega
  | ellipsis => exact absurd h (by simp [parseAxisIndexer])
  | other => exact absurd h (by simp [parseAxisIndexer])

theorem selects_full (shape : List Nat) : Selects shape (shape.map fullAxisSlice) := by
  unfold Selects
  rw [List.forall₂_map_right_iff, List.forall₂_same]
  exact fun dim _ => fullAxisSlice_of dim

theorem walkKey_selects {items : List IndexItem} (h : walkKey fill items shape = .ok slices) :
    Selects shape slices := by
  induction items generalizing shape slices with
  | nil =>
    obtain rfl := Except.ok.inj h
    exact selects_full shape
  | cons item items ih =>
    have hitem : ∀ dim rest, shape = dim :: rest → (do
        let slice ← parseAxisIndexer item dim
        let slices ← walkKey fill items rest
        return slice :: slices : Except PyErr (List AxisSlice)) = .ok slices →
          Selects shape slices := by
      intro dim rest hshape hrun
      cases hone : parseAxisIndexer item dim with
      | error e =>
        rw [hone] at hrun
        exact absurd hrun (by simp [bind, Except.bind])
      | ok one =>
        cases hmore : walkKey fill items rest with
        | error e =>
          rw [hone, hmore] at hrun
          exact absurd hrun (by simp [bind, Except.bind])
        | ok more =>
          rw [hone, hmore] at hrun
          obtain rfl := Except.ok.inj hrun
          rw [hshape]
          exact List.Forall₂.cons (parseAxisIndexer_of hone) (ih hmore)
    cases item with
    | ellipsis =>
      rw [walkKey] at h
      cases hmore : walkKey fill items (shape.drop fill) with
      | error e =>
        rw [hmore] at h
        exact absurd h (by simp [Except.map])
      | ok more =>
        rw [hmore] at h
        obtain rfl := Except.ok.inj h
        have happend : Selects (shape.take fill ++ shape.drop fill) _ :=
          List.rel_append (selects_full (shape.take fill)) (ih hmore)
        rwa [List.take_append_drop] at happend
    | int i =>
      cases shape with
      | nil => exact absurd h (by simp [walkKey])
      | cons dim rest => exact hitem dim rest rfl h
    | slice sl =>
      cases shape with
      | nil => exact absurd h (by simp [walkKey])
      | cons dim rest => exact hitem dim rest rfl h
    | other =>
      cases shape with
      | nil => exact absurd h (by simp [walkKey])
      | cons dim rest => exact hitem dim rest rfl h

theorem normalizeSliceKey_selects {items : List IndexItem}
    (h : normalizeSliceKey items shape = .ok slices) :
    Selects shape slices := by
  rw [normalizeSliceKey] at h
  dsimp only at h
  split_ifs at h
  exact walkKey_selects h

end

/-! ## Strips -/

section

variable {shape : List Nat} {slices : List AxisSlice}

theorem contiguous_of_full {axes : List AxisRange} (h : ∀ a ∈ axes, a.Full) :
    StridedBox.Contiguous axes := by
  cases axes with
  | nil => trivial
  | cons a axes =>
    rw [List.forall_mem_cons] at h
    exact ⟨h.1.step, h.2⟩

/-- The axes behind those of `outer` that are passed are full. -/
theorem readStripLayoutFrom_spec (outer : List (Nat × AxisSlice)) :
    ∀ inner : List (Nat × AxisSlice),
    (∀ a ∈ chosenAxes inner, a.Full) →
    let layout := readStripLayoutFrom outer ((chosenAxes inner).map AxisRange.count).prod
    let axes := chosenAxes (outer.reverse ++ inner)
    layout.1 ≤ outer.length ∧ StridedBox.Contiguous (axes.drop layout.1) ∧
      layout.2 = ((axes.drop layout.1).map AxisRange.count).prod := by
  induction outer with
  | nil => exact fun inner h => ⟨Nat.le_refl 0, contiguous_of_full h, rfl⟩
  | cons axis outer ih =>
    intro inner h
    have haxes : chosenAxes ((axis :: outer).reverse ++ inner) =
        chosenAxes outer.reverse ++ axis.2.range axis.1 :: chosenAxes inner := by
      simp [chosenAxes]
    have hlen : (chosenAxes outer.reverse).length = outer.length := by simp [chosenAxes]
    have hmul : ((chosenAxes inner).map AxisRange.count).prod * axis.2.count =
        ((axis.2.range axis.1 :: chosenAxes inner).map AxisRange.count).prod := by
      rw [List.map_cons, List.prod_cons, Nat.mul_comm]
      rfl
    dsimp only
    rw [readStripLayoutFrom]
    by_cases hstep : axis.2.step ≠ 1
    · rw [if_pos hstep, haxes]
      have hdrop : (chosenAxes outer.reverse ++ axis.2.range axis.1 :: chosenAxes inner).drop
          (outer.length + 1) =
          chosenAxes inner := by
        rw [← hlen, List.drop_append, List.drop_of_length_le (Nat.le_succ _),
          Nat.add_sub_cancel_left]
        rfl
      rw [hdrop]
      exact ⟨le_rfl, contiguous_of_full h, rfl⟩
    · rw [if_neg hstep]
      by_cases hpart : axis.2.start ≠ 0 ∨ axis.2.count ≠ axis.1
      · rw [if_pos hpart, haxes, ← hlen, List.drop_left, hlen]
        exact ⟨Nat.le_succ _, ⟨not_not.1 hstep, h⟩, hmul⟩
      · rw [if_neg hpart, hmul]
        have hfull : (axis.2.range axis.1).Full :=
          ⟨by_contra fun hne => hpart (.inl hne), not_not.1 hstep, by_contra fun hne =>
            hpart (.inr hne)⟩
        obtain ⟨hle, hcont, hprod⟩ := ih (axis :: inner) (by
          intro a ha
          rcases List.mem_cons.1 ha with rfl | ha
          · exact hfull
          · exact h a ha)
        rw [List.reverse_cons, List.append_assoc]
        exact ⟨Nat.le_succ_of_le hle, hcont, hprod⟩

theorem computeReadStripLayout_spec (shape : List Nat) (slices : List AxisSlice) :
    let layout := computeReadStripLayout shape slices
    let axes := chosenAxes (shape.zip slices)
    layout.1 ≤ (shape.zip slices).length ∧ StridedBox.Contiguous (axes.drop layout.1) ∧
      layout.2 = ((axes.drop layout.1).map AxisRange.count).prod := by
  have hspec := readStripLayoutFrom_spec (shape.zip slices).reverse [] (by simp [chosenAxes])
  rw [List.reverse_reverse, List.append_nil, List.length_reverse] at hspec
  exact hspec

theorem rowMajorStrides_eq (shape : List Nat) : rowMajorStrides shape = strides shape := by
  induction shape with
  | nil => rfl
  | cons n shape ih =>
    cases shape with
    | nil => rfl
    | cons m shape =>
      rw [rowMajorStrides, ih]
      show shape.prod * m :: strides (m :: shape) = (m :: shape).prod :: strides (m :: shape)
      rw [List.prod_cons, Nat.mul_comm]

theorem weighted_append (a b ws : List Nat) :
    weighted (a ++ b) ws = weighted a ws + weighted b (ws.drop a.length) := by
  induction a generalizing ws with
  | nil => simp [weighted]
  | cons x a ih =>
    cases ws with
    | nil => simp [weighted]
    | cons w ws =>
      have hrest := ih ws
      unfold weighted at *
      rw [List.cons_append, List.zipWith_cons_cons, List.sum_cons, hrest, List.zipWith_cons_cons,
        List.sum_cons, Nat.add_assoc]
      rfl

theorem chosenAxes_counts (axes : List (Nat × AxisSlice)) :
    (chosenAxes axes).map AxisRange.count = (axes.map Prod.snd).map AxisSlice.count := by
  rw [chosenAxes, List.map_map, List.map_map]
  rfl

/-- The position of a strip is the place of its first pixel. -/
theorem stripPixel_eq {outer inner : List (Nat × AxisSlice)} {idx : List Nat}
    (hidx : idx.length = outer.length) :
    stripPixel (rowMajorStrides ((outer ++ inner).map Prod.fst)) (outer.map Prod.snd)
      (inner.map Prod.snd) idx =
      stripStart (chosenAxes outer) (chosenAxes inner) idx := by
  have hdims : ∀ axes, (chosenAxes axes).map AxisRange.dim = axes.map Prod.fst := fun axes => by
    rw [chosenAxes, List.map_map]
    rfl
  have hstarts : (chosenAxes inner).map AxisRange.start =
      (inner.map Prod.snd).map AxisSlice.start := by
    rw [chosenAxes, List.map_map, List.map_map]
    rfl
  have hplaces : List.zipWith AxisRange.index (chosenAxes outer) idx =
      List.zipWith (fun (s : AxisSlice) i => s.start + i * s.step) (outer.map Prod.snd) idx := by
    rw [chosenAxes, List.zipWith_map_left, List.zipWith_map_left]
    rfl
  have hlen :
      (List.zipWith (fun (s : AxisSlice) i => s.start + i * s.step)
        (outer.map Prod.snd) idx).length =
      (outer.map Prod.fst).length := by
    rw [List.length_zipWith, List.length_map, List.length_map, hidx, Nat.min_self]
  rw [stripStart, hplaces, hstarts, hdims, hdims, ← flatIndex_append_append hlen (by simp),
    ← List.map_append,
    flatIndex_eq_weighted (by rw [List.length_append, hlen]; simp), weighted_append,
    hlen, stripPixel, rowMajorStrides_eq, Nat.add_comm, List.length_map, List.length_map]

/-- A range of pixels, one by one. -/
theorem slice_pixels (f : Bytes) (off n w : Nat) :
    slice f off (n * w) = (List.range n).flatMap fun j => slice f (off + j * w) w := by
  induction n with
  | zero => rw [Nat.zero_mul, slice_zero]; rfl
  | succ n ih =>
    rw [Nat.succ_mul, slice_add, ih, List.range_succ, List.flatMap_append, List.flatMap_singleton]

/-- Each strip goes behind the one before. -/
theorem foldlM_strips {strip : List Nat → Bytes}
    {body : List Nat → Bytes × Nat → Except PyErr (Bytes × Nat)}
    (cs : List (List Nat)) (hbody : ∀ idx ∈ cs, ∀ buf pos, pos + (strip idx).length ≤ buf.length →
      body idx (buf, pos) = .ok (writeAll buf pos (strip idx), pos + (strip idx).length)) :
    ∀ (buf : Bytes) (pos : Nat), pos + (cs.flatMap strip).length ≤ buf.length →
      cs.foldlM (fun s idx => body idx s) (buf, pos) =
        .ok (writeAll buf pos (cs.flatMap strip), pos + (cs.flatMap strip).length) := by
  induction cs with
  | nil =>
    intro buf pos _
    rw [List.flatMap_nil, writeAll_nil]
    rfl
  | cons idx cs ih =>
    intro buf pos hfit
    rw [List.flatMap_cons, List.length_append] at hfit
    rw [List.foldlM_cons, hbody idx List.mem_cons_self buf pos (by omega)]
    show cs.foldlM (fun s idx => body idx s) (writeAll buf pos (strip idx),
      pos + (strip idx).length) = _
    rw [ih (fun idx hidx => hbody idx (List.mem_cons_of_mem _ hidx)) _ _
        (by rw [writeAll_length_of_le (by omega)]; omega),
      writeAll_writeAll_append (by omega), List.flatMap_cons, List.length_append, Nat.add_assoc]

/-- The pixels of the strips, one strip behind the other, are the ones that are chosen. -/
theorem Selects.places (hsel : Selects shape slices) :
    let layout := computeReadStripLayout shape slices
    positions (chosenAxes (shape.zip slices)) =
      (coords ((slices.take layout.1).map AxisSlice.count)).flatMap fun idx =>
        (List.range layout.2).map
        (stripPixel (rowMajorStrides shape) (slices.take layout.1) (slices.drop layout.1)
          idx + ·) := by
  obtain ⟨-, hcont, hprod⟩ := computeReadStripLayout_spec shape slices
  dsimp only
  generalize (computeReadStripLayout shape slices).1 = k at hcont hprod ⊢
  have hfst : (shape.zip slices).map Prod.fst = shape :=
    List.map_fst_zip (Nat.le_of_eq hsel.length_eq)
  have hsnd : (shape.zip slices).map Prod.snd = slices :=
    List.map_snd_zip (Nat.le_of_eq hsel.length_eq.symm)
  have hsplit := List.take_append_drop k (shape.zip slices)
  have hboth : chosenAxes (shape.zip slices) =
      chosenAxes ((shape.zip slices).take k) ++ chosenAxes ((shape.zip slices).drop k) := by
    rw [chosenAxes, chosenAxes, chosenAxes, ← List.map_append, hsplit]
  have hdrop : (chosenAxes (shape.zip slices)).drop k = chosenAxes ((shape.zip slices).drop k) := by
    rw [chosenAxes, chosenAxes, List.map_drop]
  have houter : slices.take k = ((shape.zip slices).take k).map Prod.snd := by
    rw [List.map_take, hsnd]
  have hinner : slices.drop k = ((shape.zip slices).drop k).map Prod.snd := by
    rw [List.map_drop, hsnd]
  rw [hdrop] at hcont hprod
  rw [hboth, positions_append hcont, ← hprod, chosenAxes_counts, ← houter]
  refine List.flatMap_congr fun idx hidx => ?_
  have hlen : idx.length = ((shape.zip slices).take k).length := by
    rw [length_of_mem_coords hidx, houter, List.length_map, List.length_map]
  rw [← stripPixel_eq hlen, hsplit, hfst, houter, hinner]

theorem Selects.inside (hsel : Selects shape slices) :
    ∀ a ∈ chosenAxes (shape.zip slices), a.Inside := by
  intro a ha
  obtain ⟨axis, haxis, rfl⟩ := List.mem_map.1 ha
  exact ((List.forall₂_iff_zip.1 hsel).2 haxis).inside

/-- Every place is a pixel of the image. -/
theorem Selects.place_lt (hsel : Selects shape slices) {p : Nat}
    (hp : p ∈ positions (chosenAxes (shape.zip slices))) : p < shape.prod := by
  have hlt := positions_lt hsel.inside hp
  rw [chosenAxes, List.map_map] at hlt
  have hfst : (shape.zip slices).map (AxisRange.dim ∘ fun axis => axis.2.range axis.1) = shape :=
    List.map_fst_zip (Nat.le_of_eq hsel.length_eq)
  rwa [hfst] at hlt

theorem Selects.count_places (hsel : Selects shape slices) :
    (positions (chosenAxes (shape.zip slices))).length = (slices.map AxisSlice.count).prod := by
  rw [length_positions, chosenAxes_counts, List.map_snd_zip (Nat.le_of_eq hsel.length_eq.symm)]

/-- The bytes of a pixel are bytes of the data. -/
theorem pixel_inside {p n : Nat} (bpp : Nat) (h : p < n) : p * bpp + bpp ≤ n * bpp := by
  rw [← Nat.succ_mul]
  exact Nat.mul_le_mul_right bpp h

/-- Every strip is inside of the image. -/
theorem Selects.strip_le (hsel : Selects shape slices) {idx : List Nat}
    (hsome : 0 < (computeReadStripLayout shape slices).2)
    (hidx : idx ∈
      coords ((slices.take (computeReadStripLayout shape slices).1).map AxisSlice.count)) :
    stripPixel (rowMajorStrides shape) (slices.take (computeReadStripLayout shape slices).1)
      (slices.drop (computeReadStripLayout shape slices).1) idx +
        (computeReadStripLayout shape slices).2 ≤
        shape.prod := by
  have hlast := hsel.place_lt (p := stripPixel (rowMajorStrides shape)
    (slices.take (computeReadStripLayout shape slices).1)
      (slices.drop (computeReadStripLayout shape slices).1) idx +
      ((computeReadStripLayout shape slices).2 - 1)) (by
    rw [hsel.places, List.mem_flatMap]
    exact ⟨idx, hidx, List.mem_map.2 ⟨_, List.mem_range.2 (by omega), rfl⟩⟩)
  omega

/-- The strips have pixels when something is chosen. -/
theorem strip_pos (hsome : (positions (chosenAxes (shape.zip slices))).length ≠ 0) :
    0 < (computeReadStripLayout shape slices).2 := by
  obtain ⟨-, -, hprod⟩ := computeReadStripLayout_spec shape slices
  rw [length_positions, ← List.take_append_drop (computeReadStripLayout shape slices).1
    (chosenAxes (shape.zip slices)), List.map_append, List.prod_append, ← hprod] at hsome
  exact Nat.pos_of_ne_zero (Nat.mul_ne_zero_iff.1 hsome).2

/-- The strips that are read are the pixels that are chosen, in order. -/
theorem readStrips_eq {bpp dataOffset : Nat} {file buffer : Bytes} (hsel : Selects shape slices)
    (hroom : dataOffset + shape.prod * bpp ≤ file.length)
    (hsome : (slices.map AxisSlice.count).prod ≠ 0)
    (hbuffer : buffer.length = (slices.map AxisSlice.count).prod * bpp) :
    readStrips bpp dataOffset file shape slices buffer =
      .ok ((positions (chosenAxes (shape.zip slices))).flatMap fun p =>
        slice file (dataOffset + p * bpp) bpp) := by
  have hpixels := strip_pos (by rwa [hsel.count_places])
  have hwhole : ((positions (chosenAxes (shape.zip slices))).flatMap
      fun p => slice file (dataOffset + p * bpp) bpp).length = buffer.length := by
    rw [hbuffer, ← hsel.count_places]
    refine flatMap_length_of_width fun p hp => ?_
    have hin := pixel_inside bpp (hsel.place_lt hp)
    exact slice_length_of_le (by omega)
  have hinside := fun (idx : List Nat) => @Selects.strip_le shape slices hsel idx hpixels
  have hplaces := hsel.places
  rw [readStrips]
  dsimp only at hplaces ⊢
  rw [odometer_eq_foldlM]
  generalize slices.take (computeReadStripLayout shape slices).1 = outer at hinside hplaces ⊢
  generalize slices.drop (computeReadStripLayout shape slices).1 = inner at hinside hplaces ⊢
  generalize (computeReadStripLayout shape slices).2 = n at hinside hplaces ⊢
  have hgather : (positions (chosenAxes (shape.zip slices))).flatMap
      (fun p => slice file (dataOffset + p * bpp) bpp) =
      (coords (outer.map AxisSlice.count)).flatMap fun idx =>
        slice file (dataOffset + stripPixel (rowMajorStrides shape) outer inner idx * bpp)
          (n * bpp) := by
    rw [hplaces, List.flatMap_assoc]
    congr 1
    funext idx
    rw [slice_pixels, List.flatMap_map]
    congr 1
    funext j
    rw [Nat.add_mul, Nat.add_assoc]
  rw [hgather] at hwhole ⊢
  rw [foldlM_strips (coords (outer.map AxisSlice.count)) ?_ buffer 0 (by rw [Nat.zero_add, hwhole])]
  · show Except.ok _ = _
    rw [writeAll_whole hwhole]
  · intro idx hidx buf pos hfit
    have hle := Nat.mul_le_mul_right bpp (hinside idx hidx)
    rw [Nat.add_mul] at hle
    have hin : dataOffset + stripPixel (rowMajorStrides shape) outer inner idx * bpp + n * bpp ≤
        file.length := by
      omega
    have hslice := slice_length_of_le hin
    rw [hslice] at hfit
    show (readAt file _ _ >>= _) = _
    rw [readAt, readExact_eq_some hin]
    show (splice buf pos _ >>= _) = _
    rw [splice_ok (by rw [hslice]; exact hfit), hslice]
    rfl

theorem Selects.outputShape_prod (hsel : Selects shape slices) :
    (outputShape slices).prod = (slices.map AxisSlice.count).prod := by
  induction hsel with
  | nil => rfl
  | cons hs hrest ih =>
    rename_i dim s shape slices
    unfold outputShape at *
    rw [List.map_cons, List.prod_cons, ← ih]
    cases hint : s.isInt with
    | true =>
      rw [List.filter_cons_of_neg (by simp [hint]), hs.single hint, Nat.one_mul]
    | false => rw [List.filter_cons_of_pos (by simp [hint]), List.map_cons, List.prod_cons]

end

end RustFits.Image
