import RustFits.Zimage.Quantize
import Mathlib.Order.Bounds.Basic

/-!
# The extent of a tile

The noise estimate and the plain search for the extremes see the same pixels: every one
that is not null, once (`noise5_extent`).  `tileScale_extent` is the extent that the
quantisation goes by.
-/

namespace RustFits.Zimage.Quantize

open Machine ExactFloat

/-- The pixels of a tile that are not null, as far as they are numbers. -/
def numbers (fdata : List ExactFloat) (nullValue : Option ExactFloat) : List Rat :=
  fdata.filterMap fun v =>
    if isNull v nullValue then none
    else
      match v with
      | number q => some q
      | _ => none

theorem mem_numbers {fdata : List ExactFloat} {nullValue : Option ExactFloat} {q : Rat} :
    q ∈ numbers fdata nullValue ↔ number q ∈ fdata ∧ isNull (number q) nullValue = false := by
  rw [numbers, List.mem_filterMap]
  constructor
  · intro h
    obtain ⟨v, hv, hq⟩ := h
    cases hnull : isNull v nullValue with
    | true => simp [hnull] at hq
    | false =>
      cases v with
      | number a =>
        have heq : a = q := by simpa [hnull] using hq
        exact ⟨heq ▸ hv, heq ▸ hnull⟩
      | infinite _ => simp [hnull] at hq
      | nan => simp [hnull] at hq
  · intro h
    exact ⟨number q, h.1, by simp [h.2]⟩

/-- The extent of some numbers. -/
structure Extent.Covers (e : Extent) (qs : List Rat) : Prop where
  count : e.ngood = qs.length
  none : qs = [] → e = .start
  bounds : qs ≠ [] → ∃ lo hi, e.minval = number lo ∧ e.maxval = number hi ∧
    IsLeast {q | q ∈ qs} lo ∧ IsGreatest {q | q ∈ qs} hi

section

variable {nullValue : Option ExactFloat}

/-- One pixel of a loop over the valid ones. -/
def Extent.see (nullValue : Option ExactFloat) (e : Extent) (v : ExactFloat) : Extent :=
  if isNull v nullValue then e else (e.widen v).count 1

theorem minMax_eq (array : List ExactFloat) :
    minMax array nullValue = array.foldl (Extent.see nullValue) .start := rfl

theorem Extent.Covers.widen {e : Extent} {qs : List Rat} (h : e.Covers qs) (q : Rat) :
    ((e.widen (number q)).count 1).Covers (qs ++ [q]) where
  count := by
    show e.ngood + 1 = _
    rw [h.count, List.length_append, List.length_singleton]
  none := fun hnil => by simp at hnil
  bounds := fun _ => by
    by_cases hqs : qs = []
    · have hstart := h.none hqs
      subst hqs hstart
      refine ⟨q, q, by simp [Extent.widen, Extent.count, Extent.start],
        by simp [Extent.widen, Extent.count, Extent.start], ?_, ?_⟩ <;>
          simp [IsLeast, IsGreatest, lowerBounds, upperBounds]
    · obtain ⟨lo, hi, hlo, hhi, hleast, hgreatest⟩ := h.bounds hqs
      refine ⟨min lo q, max hi q, ?_, ?_, ?_, ?_⟩
      · show (if number q < e.minval then number q else e.minval) = _
        rw [hlo]
        simp only [number_lt]
        split
        next hlt => rw [min_eq_right hlt.le]
        next hle => rw [min_eq_left (not_lt.1 hle)]
      · show (if e.maxval < number q then number q else e.maxval) = _
        rw [hhi]
        simp only [number_lt]
        split
        next hlt => rw [max_eq_right hlt.le]
        next hle => rw [max_eq_left (not_lt.1 hle)]
      · have hset : {a | a ∈ qs ++ [q]} = {a | a ∈ qs} ∪ {q} := by
          ext a
          simp [or_comm]
        rw [hset]
        exact hleast.union isLeast_singleton
      · have hset : {a | a ∈ qs ++ [q]} = {a | a ∈ qs} ∪ {q} := by
          ext a
          simp [or_comm]
        rw [hset]
        exact hgreatest.union isGreatest_singleton

theorem Extent.Covers.foldl {l : List ExactFloat} {e : Extent} {qs : List Rat} (h : e.Covers qs)
    (hnumbers : ∀ v ∈ l, isNull v nullValue = false → v.isFinite = true) :
    (l.foldl (Extent.see nullValue) e).Covers (qs ++ numbers l nullValue) := by
  induction l generalizing e qs with
  | nil =>
    rw [numbers, List.filterMap_nil, List.append_nil]
    exact h
  | cons v rest ih =>
    have hrest (w : ExactFloat) (hw : w ∈ rest) := hnumbers w (List.mem_cons_of_mem _ hw)
    cases hnull : isNull v nullValue with
    | true =>
      have hskip : numbers (v :: rest) nullValue = numbers rest nullValue := by
        rw [numbers, List.filterMap_cons_none (by rw [hnull]; rfl)]
        rfl
      rw [List.foldl_cons, hskip, Extent.see, hnull]
      exact ih h hrest
    | false =>
      obtain ⟨q, rfl⟩ := exists_number (hnumbers v List.mem_cons_self hnull)
      have htake : numbers (number q :: rest) nullValue = q :: numbers rest nullValue := by
        rw [numbers, List.filterMap_cons_some (by rw [hnull]; rfl)]
        rfl
      rw [List.foldl_cons, htake, Extent.see, hnull, ← List.singleton_append, ← List.append_assoc]
      exact ih (h.widen q) hrest

theorem covers_minMax {l : List ExactFloat}
    (hnumbers : ∀ v ∈ l, isNull v nullValue = false → v.isFinite = true) :
    (minMax l nullValue).Covers (numbers l nullValue) :=
  have hstart : Extent.start.Covers [] := ⟨rfl, fun _ => rfl, fun h => absurd rfl h⟩
  hstart.foldl hnumbers

/-! ## The extent that the noise estimate finds -/

theorem foldl_see_count (l : List ExactFloat) (e : Extent) (n : Nat) :
    l.foldl (Extent.see nullValue) (e.count n) = (l.foldl (Extent.see nullValue) e).count n := by
  induction l generalizing e with
  | nil => rfl
  | cons v rest ih =>
    have hsee : (e.count n).see nullValue v = (e.see nullValue v).count n := by
      rw [Extent.see, Extent.see]
      split
      · rfl
      · show Extent.mk (e.ngood + n + 1) _ _ = ⟨e.ngood + 1 + n, _, _⟩
        rw [Nat.add_right_comm]
        rfl
    rw [List.foldl_cons, List.foldl_cons, hsee, ih]

theorem firstValid_spec (nullValue : Option ExactFloat) (row : List ExactFloat)
    (found : List ExactFloat) (e : Extent) :
    ∃ front, row = front ++ (firstValid nullValue found row e).2.1 ∧
      (firstValid nullValue found row e).2.2 = front.foldl (Extent.see nullValue) e ∧
      ((firstValid nullValue found row e).1.length = 8 ∨
        (firstValid nullValue found row e).2.1 = []) := by
  induction row generalizing found e with
  | nil => exact ⟨[], rfl, rfl, .inr rfl⟩
  | cons v row ih =>
    rw [firstValid]
    by_cases hfull : found.length = 8
    · rw [if_pos hfull]
      exact ⟨[], rfl, rfl, .inl hfull⟩
    · rw [if_neg hfull]
      split
      next hnull =>
        obtain ⟨front, hrow, hext, hend⟩ := ih found e
        refine ⟨v :: front, congrArg (v :: ·) hrow, ?_, hend⟩
        rw [hext, List.foldl_cons, Extent.see, if_pos hnull]
      next hnull =>
        obtain ⟨front, hrow, hext, hend⟩ := ih (found ++ [v]) ((e.widen v).count 1)
        refine ⟨v :: front, congrArg (v :: ·) hrow, ?_, hend⟩
        rw [hext, List.foldl_cons, Extent.see, if_neg hnull]

/-- Every valid pixel of the walk is counted, at once or with its differences. -/
theorem walkRow_spec (nullValue : Option ExactFloat) (row : List ExactFloat) (w : Window)
    (d : Differences) (e : Extent) :
    ∃ k, (walkRow nullValue row w d e).1.third.length = d.third.length + k ∧
      (walkRow nullValue row w d e).2.count k = row.foldl (Extent.see nullValue) e := by
  induction row generalizing w d e with
  | nil => exact ⟨0, rfl, rfl⟩
  | cons v row ih =>
    rw [walkRow, List.foldl_cons, Extent.see]
    split
    · exact ih w d e
    · dsimp only
      split
      · exact ih _ _ _
      · obtain ⟨k, hthird, hext⟩ := ih (w.next v)
          ⟨if w.flat then d.second else d.second ++ [(w.v5 - w.v7).abs],
            d.third ++ [(2 * w.v5 - w.v3 - w.v7).abs],
            d.fifth ++ [(6 * w.v5 - 4 * w.v3 - 4 * w.v7 + w.v1 + v).abs]⟩ (e.widen v)
        refine ⟨k + 1, ?_, ?_⟩
        · rw [hthird, List.length_append, List.length_singleton]
          omega
        · rw [foldl_see_count, ← hext]
          rfl

theorem noiseRow_extent (acc : Differences × Extent) (row : List ExactFloat) :
    (noiseRow nullValue acc row).2 = row.foldl (Extent.see nullValue) acc.2 := by
  obtain ⟨front, hrow, hext, hend⟩ := firstValid_spec nullValue row [] acc.2
  rw [noiseRow]
  split
  next v1 v2 v3 v4 v5 v6 v7 v8 rest e hfirst =>
    rw [hfirst] at hrow hext
    obtain ⟨k, hthird, hwalk⟩ := walkRow_spec nullValue rest ⟨v1, v2, v3, v4, v5, v6, v7, v8⟩
      ⟨[], [], []⟩ e
    dsimp only at hrow hext hthird ⊢
    rw [hrow, List.foldl_append, ← hext, ← hwalk, hthird, List.length_nil, Nat.zero_add]
  next vs rest e hfew hfirst =>
    rw [hfirst] at hrow hext hend
    have hrest : rest = [] := by
      refine hend.resolve_left fun hlen => ?_
      obtain _ | ⟨v1,
          _ | ⟨v2, _ | ⟨v3, _ | ⟨v4, _ | ⟨v5, _ | ⟨v6, _ | ⟨v7, _ | ⟨v8, _ | _⟩⟩⟩⟩⟩⟩⟩⟩ := vs
      all_goals first | exact hfew _ _ _ _ _ _ _ _ rfl | simp at hlen
    dsimp only at hrow hext ⊢
    rw [hext, hrow, hrest, List.append_nil]

theorem flatten_imageRows (array : List ExactFloat) (nx ny : Nat) :
    (imageRows array nx ny).flatten = array.take (ny * nx) := by
  induction ny with
  | zero => simp [imageRows]
  | succ ny ih =>
    have hsnoc : imageRows array nx (ny + 1) = imageRows array nx ny ++
        [(array.drop (ny * nx)).take nx] := by
      rw [imageRows, List.range_succ, List.map_append]
      rfl
    rw [hsnoc, List.flatten_append, ih, List.flatten_singleton, Nat.succ_mul, List.take_add]

theorem foldl_noiseRow_extent (rows : List (List ExactFloat)) (acc : Differences × Extent) :
    (rows.foldl (noiseRow nullValue) acc).2 = rows.flatten.foldl (Extent.see nullValue) acc.2 := by
  induction rows generalizing acc with
  | nil => rfl
  | cons row rows ih =>
    rw [List.foldl_cons, ih, noiseRow_extent, List.flatten_cons, List.foldl_append]

/-- The noise estimate sees every pixel of the tile. -/
theorem noise5_extent {fdata : List ExactFloat} {nxpix nypix : Nat}
    (hlen : fdata.length = nxpix * nypix) :
    (noise5 fdata nxpix nypix nullValue).extent = minMax fdata nullValue := by
  have hwhole {n : Nat} (hn : fdata.length ≤ n) : fdata.take n = fdata := List.take_of_length_le hn
  rw [noise5]
  by_cases hnarrow : nxpix < 9
  · simp only [hnarrow, if_true]
    split
    · rw [hwhole hlen.le]
    · dsimp only
      rw [foldl_noiseRow_extent, flatten_imageRows, Nat.one_mul, hwhole hlen.le, minMax_eq]
  · simp only [hnarrow, if_false]
    rw [foldl_noiseRow_extent, flatten_imageRows, hwhole (by rw [hlen, Nat.mul_comm]), minMax_eq]

/-- The extent of a tile is that of its numbers, unless it has none. -/
theorem tileScale_extent {fdata : List ExactFloat} {nxpix nypix : Nat} {qlevel delta : ExactFloat}
    {extent : Extent} (hlen : fdata.length = nxpix * nypix)
    (hnumbers : ∀ v ∈ fdata, isNull v nullValue = false → v.isFinite = true)
    (h : tileScale fdata nxpix nypix nullValue qlevel = some (extent, delta)) :
    extent.ngood = (numbers fdata nullValue).length ∧
      (numbers fdata nullValue ≠ [] → extent = minMax fdata nullValue) := by
  have hcovers := covers_minMax hnumbers
  rw [tileScale] at h
  by_cases hlevel : AtMost 0 qlevel
  · rw [if_pos hlevel] at h
    have hextent := (Prod.mk.inj (Option.some.inj (Option.ite_none_left_eq_some.1 h).2)).1
    rw [noise5_extent hlen] at hextent
    rw [← hextent]
    split
    next hnulls =>
      have hzero : (minMax fdata nullValue).ngood = 0 := by
        simpa using (Bool.and_eq_true_iff.1 hnulls).2
      rw [hcovers.count] at hzero
      exact ⟨hcovers.count, fun hne => absurd (List.length_eq_zero_iff.1 hzero) hne⟩
    next => exact ⟨hcovers.count, fun _ => rfl⟩
  · rw [if_neg hlevel] at h
    rw [← (Prod.mk.inj (Option.some.inj h)).1]
    exact ⟨hcovers.count, fun _ => rfl⟩

end

end RustFits.Zimage.Quantize
