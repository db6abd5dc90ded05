import Mathlib.Algebra.Order.Group.Int
import Mathlib.Algebra.Order.Ring.Int
import Mathlib.Data.List.Basic
import Mathlib.Data.List.Nodup
import Mathlib.Tactic.Common
import Mathlib.Tactic.Linarith

/-!
# Python slices

`slice.indices(len)`: a slice with any of its parts left out, resolved against a length.
Bounds count from the end when they are negative, and are clamped to the sequence.
-/

namespace RustFits

/-- A slice as it is written. -/
structure PySlice where
  start : Option Int
  stop : Option Int
  step : Option Int
  deriving DecidableEq, Repr

/-- A slice that is resolved: `count` indices from `start` on, `step` apart. -/
structure SliceIndices where
  start : Int
  stop : Int
  step : Int
  count : Nat
  deriving DecidableEq, Repr

/-- A bound of a slice, counted from the end when it is negative, between `lower` and
`upper`. -/
def clampBound (len : Nat) (lower upper bound : Int) : Int :=
  max lower (min upper (if bound < 0 then bound + len else bound))

/-- The number of indices from `start` on before `stop`. -/
def sliceCount (start stop step : Int) : Nat :=
  if 0 < step then (if start < stop then ((stop - start - 1) / step + 1).toNat else 0)
  else if stop < start then ((start - stop - 1) / (-step) + 1).toNat else 0

/-- `slice.indices`.  A step of zero is refused. -/
def PySlice.indices (s : PySlice) (len : Nat) : Option SliceIndices :=
  let step := s.step.getD 1
  if step = 0 then none
  else
    let lower : Int := if 0 < step then 0 else -1
    let upper : Int := if 0 < step then len else len - 1
    let start := (s.start.map (clampBound len lower upper)).getD (if 0 < step then lower else upper)
    let stop := (s.stop.map (clampBound len lower upper)).getD (if 0 < step then upper else lower)
    some ⟨start, stop, step, sliceCount start stop step⟩

/-- An index of a resolved slice. -/
def SliceIndices.at (s : SliceIndices) (k : Nat) : Int := s.start + k * s.step

/-- The indices of a resolved slice. -/
def SliceIndices.toList (s : SliceIndices) : List Nat :=
  (List.range s.count).map fun k => (s.at k).toNat

section

variable {len k k' : Nat} {lower upper bound start stop step : Int} {s : PySlice} {r : SliceIndices}

theorem clampBound_mem (h : lower ≤ upper) :
    lower ≤ clampBound len lower upper bound ∧ clampBound len lower upper bound ≤ upper := by
  unfold clampBound
  constructor
  · exact le_max_left _ _
  · exact max_le h (min_le_left _ _)

/-- An index before the count is before `stop`. -/
theorem lt_of_lt_sliceCount (h : k < sliceCount start stop step) :
    (0 < step → start + k * step < stop) ∧ (¬0 < step → stop < start + k * step) := by
  unfold sliceCount at h
  split_ifs at h with hpos hlt hgt
  · refine ⟨fun _ => ?_, fun hneg => absurd hpos hneg⟩
    have hk : (k : Int) ≤ (stop - start - 1) / step := by omega
    have hmul := (Int.le_ediv_iff_mul_le hpos).1 hk
    omega
  · omega
  · refine ⟨fun h => absurd h hpos, fun _ => ?_⟩
    obtain hzero | hneg := eq_or_lt_of_le (not_lt.1 hpos)
    · subst hzero
      simpa using hgt
    · have hk : (k : Int) ≤ (start - stop - 1) / (-step) := by omega
      have hmul := (Int.le_ediv_iff_mul_le (by omega)).1 hk
      rw [mul_neg] at hmul
      omega
  · omega

/-- The indices of a slice are indices of the sequence. -/
theorem PySlice.indices_mem (h : s.indices len = some r) (hk : k < r.count) :
    0 ≤ r.at k ∧ r.at k < len := by
  unfold PySlice.indices at h
  dsimp only at h
  split_ifs at h with hzero hpos
  · obtain rfl := Option.some.inj h
    obtain ⟨hlt, -⟩ := lt_of_lt_sliceCount hk
    have hstop := hlt hpos
    have hlower : 0 ≤ (s.start.map (clampBound len 0 len)).getD 0 := by
      cases s.start with
      | none => exact le_refl _
      | some bound => exact (clampBound_mem (by omega)).1
    have hupper : (s.stop.map (clampBound len 0 len)).getD len ≤ len := by
      cases s.stop with
      | none => exact le_refl _
      | some bound => exact (clampBound_mem (by omega)).2
    have hnonneg : 0 ≤ (k : Int) * s.step.getD 1 := mul_nonneg (by omega) hpos.le
    unfold SliceIndices.at
    dsimp only at hstop ⊢
    omega
  · obtain rfl := Option.some.inj h
    obtain ⟨-, hgt⟩ := lt_of_lt_sliceCount hk
    have hstop := hgt hpos
    have hlower : -1 ≤ (s.stop.map (clampBound len (-1) (len - 1))).getD (-1) := by
      cases s.stop with
      | none => exact le_refl _
      | some bound => exact (clampBound_mem (by omega)).1
    have hupper : (s.start.map (clampBound len (-1) (len - 1))).getD (len - 1) ≤ len - 1 := by
      cases s.start with
      | none => exact le_refl _
      | some bound => exact (clampBound_mem (by omega)).2
    have hnonpos : (k : Int) * s.step.getD 1 ≤ 0 :=
      mul_nonpos_of_nonneg_of_nonpos (by omega) (by omega)
    unfold SliceIndices.at
    dsimp only at hstop ⊢
    omega

theorem PySlice.mem_toList (h : s.indices len = some r) {i : Nat}
    (hi : i ∈ r.toList) : i < len := by
  obtain ⟨k, hk, rfl⟩ := List.mem_map.1 hi
  have := s.indices_mem h (List.mem_range.1 hk)
  omega

end

/-- `[::-2]` of a sequence of five. -/
example : (PySlice.mk none none (some (-2))).indices 5 = some ⟨4, -1, -2, 3⟩ := by decide

end RustFits
