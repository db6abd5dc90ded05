import Mathlib.Algebra.BigOperators.Ring.List
import Mathlib.Data.List.Nodup
import RustFits.Lib.RowMajor

/-!
# Strided boxes of an array

A box is chosen from an array in row-major order: along every axis some indices, a fixed
step apart.  `positions` lists the places of its elements, the last axis fastest.

* `positions_lt` and `nodup_positions`: the places are inside the array, and distinct.
* `positions_append` cuts the axes in two.  When the inner axes are `Contiguous` the box is
  made of strips, one for each choice of outer indices.
* `odometer` is the loop that counts through the outer indices like the wheels of a meter;
  `odometer_eq_foldlM` says which indices it sees.
-/

namespace RustFits.StridedBox

open RowMajor

/-! ## Boxes -/

/-- The indices that are chosen along an axis. -/
structure AxisRange where
  dim : Nat
  start : Nat
  step : Nat
  count : Nat
  deriving DecidableEq, Repr

def AxisRange.index (a : AxisRange) (i : Nat) : Nat := a.start + i * a.step

def AxisRange.indices (a : AxisRange) : List Nat := (List.range a.count).map a.index

/-- The indices are indices of the axis. -/
structure AxisRange.Inside (a : AxisRange) : Prop where
  step_pos : 0 < a.step
  index_lt : ∀ i < a.count, a.index i < a.dim

/-- All of the axis is chosen. -/
structure AxisRange.Full (a : AxisRange) : Prop where
  start : a.start = 0
  step : a.step = 1
  count : a.count = a.dim

/-- One element of each list, the last list fastest. -/
def cartesian {α : Type} : List (List α) → List (List α)
  | [] => [[]]
  | l :: ls => l.flatMap fun a => (cartesian ls).map (a :: ·)

/-- The places of the elements of a box. -/
def positions (axes : List AxisRange) : List Nat :=
  (cartesian (axes.map AxisRange.indices)).map (flatIndex (axes.map AxisRange.dim))

/-- The weight of an index along each axis. -/
def strides : List Nat → List Nat
  | [] => []
  | _ :: shape => shape.prod :: strides shape

/-- The sum of the indices, each with its weight. -/
def weighted (indices weights : List Nat) : Nat := (List.zipWith (· * ·) indices weights).sum

section

variable {α : Type} {axes outer inner : List AxisRange} {shape coord : List Nat}

theorem mem_cartesian {ls : List (List α)} {c : List α} :
    c ∈ cartesian ls ↔ List.Forall₂ (· ∈ ·) c ls := by
  induction ls generalizing c with
  | nil => simp [cartesian]
  | cons l ls ih =>
    cases c with
    | nil => simp [cartesian]
    | cons a c => simp [cartesian, ih]

theorem nodup_cartesian {ls : List (List α)} (h : ∀ l ∈ ls, l.Nodup) : (cartesian ls).Nodup := by
  induction ls with
  | nil => exact List.nodup_singleton _
  | cons l ls ih =>
    rw [List.forall_mem_cons] at h
    rw [cartesian, List.nodup_flatMap]
    constructor
    · intro a _
      exact (ih h.2).map fun _ _ heq => (List.cons.inj heq).2
    · refine h.1.imp fun hne => List.disjoint_left.2 fun c hc hc' => hne ?_
      obtain ⟨t, -, rfl⟩ := List.mem_map.1 hc
      obtain ⟨t', -, heq⟩ := List.mem_map.1 hc'
      exact (List.cons.inj heq).1.symm

theorem coords_eq_cartesian (shape : List Nat) :
    coords shape = cartesian (shape.map List.range) := by
  induction shape with
  | nil => rfl
  | cons n shape ih => rw [coords, ih, List.map_cons, cartesian]

theorem cartesian_append (ls ms : List (List α)) :
    cartesian (ls ++ ms) = (cartesian ls).flatMap fun c => (cartesian ms).map (c ++ ·) := by
  induction ls with
  | nil => simp [cartesian]
  | cons l ls ih =>
    simp only [List.cons_append, cartesian, ih, List.map_flatMap, List.flatMap_assoc,
      List.flatMap_map, List.map_map]
    rfl

example : cartesian [[1, 2], [3]] = [[1, 3], [2, 3]] := by decide +kernel

theorem map_cartesian (f : AxisRange → Nat → Nat) (axes : List AxisRange)
    (counts : AxisRange → Nat) :
    (coords (axes.map counts)).map (List.zipWith f axes) =
      cartesian (axes.map fun a => (List.range (counts a)).map (f a)) := by
  induction axes with
  | nil => rfl
  | cons a axes ih =>
    rw [List.map_cons, coords, List.map_flatMap, List.map_cons, cartesian, List.flatMap_map, ← ih]
    simp only [List.map_map]
    rfl

/-- The chosen coordinates, counted. -/
theorem map_index_coords (axes : List AxisRange) :
    (coords (axes.map AxisRange.count)).map (List.zipWith AxisRange.index axes) =
      cartesian (axes.map AxisRange.indices) := map_cartesian _ _ _

/-! ## Places -/

theorem foldl_flat (axes : List (Nat × Nat)) (acc : Nat) :
    axes.foldl (fun acc axis => acc * axis.1 + axis.2) acc =
      acc * (axes.map Prod.fst).prod + axes.foldl (fun acc axis => acc * axis.1 + axis.2) 0 := by
  induction axes generalizing acc with
  | nil => simp
  | cons axis axes ih =>
    rw [List.foldl_cons, List.foldl_cons, ih, ih (0 * axis.1 + axis.2), List.map_cons,
      List.prod_cons, Nat.zero_mul, Nat.zero_add, Nat.add_mul, Nat.mul_assoc, Nat.add_assoc]

theorem flatIndex_cons {n i : Nat} (h : coord.length = shape.length) :
    flatIndex (n :: shape) (i :: coord) = i * shape.prod + flatIndex shape coord := by
  unfold flatIndex
  rw [List.zip_cons_cons, List.foldl_cons, foldl_flat, Nat.zero_mul, Nat.zero_add,
    List.map_fst_zip (Nat.le_of_eq h.symm)]

theorem flatIndex_append_append {shape' coord' : List Nat} (h : coord.length = shape.length)
    (h' : coord'.length = shape'.length) :
    flatIndex (shape ++ shape') (coord ++ coord') =
      flatIndex shape coord * shape'.prod + flatIndex shape' coord' := by
  induction shape generalizing coord with
  | nil =>
    obtain rfl := List.length_eq_zero_iff.1 h
    show flatIndex shape' coord' = 0 * _ + _
    rw [Nat.zero_mul, Nat.zero_add]
  | cons n shape ih =>
    cases coord with
    | nil => simp at h
    | cons i coord =>
      have hrest : coord.length = shape.length := Nat.succ.inj h
      rw [List.cons_append, List.cons_append, flatIndex_cons (by simp [hrest, h']), ih hrest,
        flatIndex_cons hrest, List.prod_append, Nat.add_mul, Nat.mul_assoc, Nat.add_assoc]

/-- The place of a coordinate as a sum. -/
theorem flatIndex_eq_weighted (h : coord.length = shape.length) :
    flatIndex shape coord = weighted coord (strides shape) := by
  induction shape generalizing coord with
  | nil =>
    obtain rfl := List.length_eq_zero_iff.1 h
    rfl
  | cons n shape ih =>
    cases coord with
    | nil => simp at h
    | cons i coord =>
      rw [flatIndex_cons (Nat.succ.inj h), ih (Nat.succ.inj h), strides, weighted, weighted,
        List.zipWith_cons_cons, List.sum_cons]

theorem length_of_mem_cartesian {ls : List (List α)} {c : List α} (h : c ∈ cartesian ls) :
    c.length = ls.length := (mem_cartesian.1 h).length_eq

theorem flatIndex_origin (shape : List Nat) : flatIndex shape (shape.map fun _ => 0) = 0 := by
  induction shape with
  | nil => rfl
  | cons n shape ih => rw [List.map_cons, flatIndex_cons (by simp), ih, Nat.zero_mul]

/-- The coordinates of a box inside an array are coordinates of the array. -/
theorem mem_coords_of_inside (h : ∀ a ∈ axes, a.Inside)
    (hc : coord ∈ cartesian (axes.map AxisRange.indices)) :
    coord ∈ coords (axes.map AxisRange.dim) := by
  rw [mem_coords]
  rw [mem_cartesian, List.forall₂_map_right_iff] at hc
  rw [List.forall₂_map_right_iff]
  induction hc with
  | nil => exact List.Forall₂.nil
  | cons hi hrest ih =>
    rw [List.forall_mem_cons] at h
    obtain ⟨k, hk, rfl⟩ := List.mem_map.1 hi
    exact List.Forall₂.cons (h.1.index_lt k (List.mem_range.1 hk)) (ih h.2)

theorem positions_lt (h : ∀ a ∈ axes, a.Inside) {p : Nat} (hp : p ∈ positions axes) :
    p < (axes.map AxisRange.dim).prod := by
  obtain ⟨c, hc, rfl⟩ := List.mem_map.1 hp
  have hmem :=
    List.mem_map_of_mem (f := flatIndex (axes.map AxisRange.dim)) (mem_coords_of_inside h hc)
  rw [map_flatIndex_coords] at hmem
  exact List.mem_range.1 hmem

theorem flatIndex_injective {coord' : List Nat} (h : coord ∈ coords shape)
    (h' : coord' ∈ coords shape)
    (heq : flatIndex shape coord = flatIndex shape coord') : coord = coord' := by
  have hsome := unfoldIndex_flatIndex h
  rw [heq, unfoldIndex_flatIndex h'] at hsome
  exact (Option.some.inj hsome).symm

theorem nodup_positions (h : ∀ a ∈ axes, a.Inside) : (positions axes).Nodup := by
  apply List.Nodup.map_on
  · intro c hc c' hc' heq
    exact flatIndex_injective (mem_coords_of_inside h hc) (mem_coords_of_inside h hc') heq
  · apply nodup_cartesian
    intro l hl
    obtain ⟨a, ha, rfl⟩ := List.mem_map.1 hl
    refine List.nodup_range.map fun i j heq => ?_
    unfold AxisRange.index at heq
    exact Nat.eq_of_mul_eq_mul_right (h a ha).step_pos (by omega)

theorem length_positions (axes : List AxisRange) :
    (positions axes).length = (axes.map AxisRange.count).prod := by
  rw [positions, List.length_map, ← map_index_coords, List.length_map, length_coords]

/-! ## Strips -/

/-- The first axis is chosen without gaps, and all of the others. -/
def Contiguous : List AxisRange → Prop
  | [] => True
  | a :: rest => a.step = 1 ∧ ∀ b ∈ rest, b.Full

theorem AxisRange.Full.indices_eq {a : AxisRange} (h : a.Full) : a.indices = List.range a.dim := by
  unfold AxisRange.indices
  rw [h.count]
  conv_rhs => rw [← List.map_id (List.range a.dim)]
  apply List.map_congr_left
  intro i _
  simp [AxisRange.index, h.start, h.step]

/-- The places of a contiguous box are a range. -/
theorem positions_contiguous (h : Contiguous inner) :
    positions inner = (List.range (inner.map AxisRange.count).prod).map
      (flatIndex (inner.map AxisRange.dim) (inner.map AxisRange.start) + ·) := by
  cases inner with
  | nil => rfl
  | cons a rest =>
    obtain ⟨hstep, hfull⟩ := h
    have hcart : cartesian (rest.map AxisRange.indices) = coords (rest.map AxisRange.dim) := by
      rw [coords_eq_cartesian, List.map_map]
      congr 1
      exact List.map_congr_left fun b hb => (hfull b hb).indices_eq
    have hcounts : rest.map AxisRange.count = rest.map AxisRange.dim :=
      List.map_congr_left fun b hb => (hfull b hb).count
    have hzero : flatIndex (rest.map AxisRange.dim) (rest.map AxisRange.start) = 0 := by
      have hstarts : rest.map AxisRange.start = (rest.map AxisRange.dim).map fun _ => 0 := by
        rw [List.map_map]
        exact List.map_congr_left fun b hb => (hfull b hb).start
      rw [hstarts, flatIndex_origin]
    have hrow : ∀ i, (coords (rest.map AxisRange.dim)).map
        (flatIndex (a.dim :: rest.map AxisRange.dim) ∘ (a.index i :: ·)) =
          (List.range (rest.map AxisRange.dim).prod).map
            fun j => a.start * (rest.map AxisRange.dim).prod +
              (i * (rest.map AxisRange.dim).prod + j) := by
      intro i
      rw [← map_flatIndex_coords, List.map_map]
      apply List.map_congr_left
      intro c hc
      show flatIndex _ (a.index i :: c) = _
      rw [flatIndex_cons (length_of_mem_coords hc), AxisRange.index, hstep,
        Nat.mul_one, Nat.add_mul, Nat.add_assoc]
      rfl
    rw [positions, List.map_cons, List.map_cons, List.map_cons, List.map_cons, cartesian, hcart,
      AxisRange.indices, List.flatMap_map, List.map_flatMap, flatIndex_cons (by simp), hzero,
      Nat.add_zero, hcounts, List.prod_cons, range_mul, List.map_flatMap]
    simp only [List.map_map, hrow]
    rfl

/-- The place where the strip of some outer indices starts. -/
def stripStart (outer inner : List AxisRange) (idx : List Nat) : Nat :=
  flatIndex (outer.map AxisRange.dim) (List.zipWith AxisRange.index outer idx) *
      (inner.map AxisRange.dim).prod +
    flatIndex (inner.map AxisRange.dim) (inner.map AxisRange.start)

/-- A box in strips. -/
theorem positions_append (h : Contiguous inner) :
    positions (outer ++ inner) = (coords (outer.map AxisRange.count)).flatMap fun idx =>
      (List.range (inner.map AxisRange.count).prod).map (stripStart outer inner idx + ·) := by
  have hinner := positions_contiguous h
  unfold positions at hinner
  have hstrip : ∀ c ∈ cartesian (outer.map AxisRange.indices),
      (cartesian (inner.map AxisRange.indices)).map
          (flatIndex (outer.map AxisRange.dim ++ inner.map AxisRange.dim) ∘ (c ++ ·)) =
        (List.range (inner.map AxisRange.count).prod).map fun j =>
          flatIndex (outer.map AxisRange.dim) c * (inner.map AxisRange.dim).prod +
            flatIndex (inner.map AxisRange.dim) (inner.map AxisRange.start) + j := by
    intro c hc
    have hplace : ∀ d ∈ cartesian (inner.map AxisRange.indices),
        (flatIndex (outer.map AxisRange.dim ++ inner.map AxisRange.dim) ∘ (c ++ ·)) d =
          flatIndex (outer.map AxisRange.dim) c * (inner.map AxisRange.dim).prod +
            flatIndex (inner.map AxisRange.dim) d := by
      intro d hd
      have hclen := length_of_mem_cartesian hc
      have hdlen := length_of_mem_cartesian hd
      rw [List.length_map] at hclen hdlen
      exact flatIndex_append_append (by rw [hclen, List.length_map])
        (by rw [hdlen, List.length_map])
    have hcomp : (fun d => flatIndex (outer.map AxisRange.dim) c * (inner.map AxisRange.dim).prod +
        flatIndex (inner.map AxisRange.dim) d) =
          (flatIndex (outer.map AxisRange.dim) c * (inner.map AxisRange.dim).prod + ·) ∘
            flatIndex (inner.map AxisRange.dim) := rfl
    rw [List.map_congr_left hplace, hcomp, ← List.map_map, hinner, List.map_map]
    apply List.map_congr_left
    intro j _
    show _ + (_ + j) = _
    rw [Nat.add_assoc]
  rw [positions, List.map_append, List.map_append, cartesian_append, List.map_flatMap]
  simp only [List.map_map]
  rw [List.flatMap_congr hstrip, ← map_index_coords, List.flatMap_map]
  rfl

/-! ## The odometer -/

/-- One step of the wheels, the fastest first. -/
def advanceBack : List Nat → List Nat → List Nat
  | n :: counts, i :: idx => if i + 1 < n then (i + 1) :: idx else 0 :: advanceBack counts idx
  | _, idx => idx

/-- One step of the meter. -/
def advance (counts idx : List Nat) : List Nat := (advanceBack counts.reverse idx.reverse).reverse

/-- A loop of a number of rounds, with the indices that the meter shows. -/
def odometer {ε σ : Type} (counts : List Nat) (body : List Nat → σ → Except ε σ) :
    Nat → List Nat → σ → Except ε σ
  | 0, _, s => .ok s
  | rounds + 1, idx, s => do
    let s ← body idx s
    odometer counts body rounds (advance counts idx) s

theorem unfoldBack_succ {counts : List Nat} (h : ∀ n ∈ counts, 0 < n) (k : Nat) :
    unfoldBack counts (k + 1) = (unfoldBack counts k).map (advanceBack counts) := by
  induction counts generalizing k with
  | nil => rfl
  | cons n counts ih =>
    rw [List.forall_mem_cons] at h
    have hne : n ≠ 0 := Nat.pos_iff_ne_zero.1 h.1
    have hmod := Nat.div_add_mod k n
    have hlt := Nat.mod_lt k h.1
    rw [unfoldBack, if_neg hne, unfoldBack, if_neg hne, Option.map_map]
    rcases Nat.lt_or_ge (k % n + 1) n with hstay | hcarry
    · have hdiv : (k + 1) / n = k / n := by
        rw [← hmod, Nat.add_assoc, Nat.mul_add_div h.1, Nat.div_eq_of_lt hstay, Nat.mul_add_div h.1,
          Nat.div_eq_of_lt hlt]
      have hdigit : (k + 1) % n = k % n + 1 := by
        conv_lhs => rw [← hmod, Nat.add_assoc, Nat.mul_add_mod, Nat.mod_eq_of_lt hstay]
      rw [hdiv, hdigit]
      congr 1
      funext c
      simp [advanceBack, hstay]
    · have hwrap : k + 1 = n * (k / n + 1) := by
        rw [Nat.mul_succ]
        omega
      have hdiv : (k + 1) / n = k / n + 1 := by rw [hwrap, Nat.mul_div_cancel_left _ h.1]
      have hdigit : (k + 1) % n = 0 := by rw [hwrap, Nat.mul_mod_right]
      rw [hdiv, hdigit, ih h.2, Option.map_map]
      congr 1
      funext c
      simp [advanceBack, Nat.not_lt.2 hcarry]

theorem unfoldIndex_succ {counts : List Nat} (h : ∀ n ∈ counts, 0 < n) (k : Nat) :
    unfoldIndex counts (k + 1) = (unfoldIndex counts k).map (advance counts) := by
  rw [unfoldIndex, unfoldIndex, unfoldBack_succ (by simpa using h), Option.map_map, Option.map_map]
  congr 1
  funext c
  simp [advance]

theorem unfoldIndex_zero {counts : List Nat} (h : ∀ n ∈ counts, 0 < n) :
    unfoldIndex counts 0 = some (List.replicate counts.length 0) := by
  have hback : ∀ counts : List Nat, (∀ n ∈ counts, 0 < n) →
      unfoldBack counts 0 = some (List.replicate counts.length 0) := by
    intro counts
    induction counts with
    | nil => intro _; rfl
    | cons n counts ih =>
      intro h
      rw [List.forall_mem_cons] at h
      rw [unfoldBack, if_neg (Nat.pos_iff_ne_zero.1 h.1), Nat.zero_div, Nat.zero_mod, ih h.2]
      rfl
  rw [unfoldIndex, hback _ (by simpa using h), List.length_reverse, Option.map_some,
    List.reverse_replicate]

theorem odometer_from {ε σ : Type} {counts : List Nat} (h : ∀ n ∈ counts, 0 < n)
    (body : List Nat → σ → Except ε σ) (rounds k : Nat) (idx : List Nat) (s : σ)
    (hidx : unfoldIndex counts k = some idx) :
    odometer counts body rounds idx s =
      (List.range' k rounds).foldlM (fun s k => body ((unfoldIndex counts k).getD []) s) s := by
  induction rounds generalizing k idx s with
  | zero => rfl
  | succ rounds ih =>
    rw [odometer, List.range'_succ, List.foldlM_cons, hidx, Option.getD_some]
    congr 1
    funext s'
    exact ih (k + 1) (advance counts idx) s' (by rw [unfoldIndex_succ h, hidx, Option.map_some])

/-- The meter shows the coordinates in order. -/
theorem odometer_eq_foldlM {ε σ : Type} (counts : List Nat)
    (body : List Nat → σ → Except ε σ) (s : σ) :
    odometer counts body counts.prod (List.replicate counts.length 0) s =
      (coords counts).foldlM (fun s idx => body idx s) s := by
  by_cases hzero : 0 ∈ counts
  · have hprod : counts.prod = 0 := List.prod_eq_zero hzero
    have hnil : coords counts = [] := by
      rw [← List.length_eq_zero_iff, length_coords, hprod]
    rw [hprod, hnil]
    rfl
  · have hpos : ∀ n ∈ counts, 0 < n := fun n hn =>
      Nat.pos_of_ne_zero fun heq => hzero (heq ▸ hn)
    have hmap : (List.range counts.prod).map (fun k => (unfoldIndex counts k).getD []) =
        coords counts := by
      have hsome := congrArg (List.map fun o => o.getD []) (map_unfoldIndex_range counts)
      simpa only [List.map_map, Function.comp_def, Option.getD_some, List.map_id'] using hsome
    rw [odometer_from hpos body _ 0 _ s (unfoldIndex_zero hpos), ← List.range_eq_range', ← hmap,
      List.foldlM_map]

end

end RustFits.StridedBox
