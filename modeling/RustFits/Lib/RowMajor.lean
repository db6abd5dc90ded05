import Mathlib.Algebra.BigOperators.Group.List.Basic
import Mathlib.Algebra.Order.Ring.Nat
import Mathlib.Data.List.Induction
import Mathlib.Data.List.Perm.Basic
import RustFits.Lib.Machine

/-!
# Boxes of coordinates in row-major order

An array of any number of axes is stored with its last axis fastest.  `coords`
lists the coordinates of a box in that order, `flatIndex` is the place of one of
them, and `unfoldIndex` goes back by division and remainder, from the last axis to
the first.
-/

namespace RustFits.RowMajor

open Machine

/-! ## Coordinates -/

/-- The coordinates of a box, the last axis fastest. -/
def coords : List Nat → List (List Nat)
  | [] => [[]]
  | n :: shape => (List.range n).flatMap fun i => (coords shape).map (i :: ·)

/-- The place of a coordinate in that order. -/
def flatIndex (shape coord : List Nat) : Nat :=
  (shape.zip coord).foldl (fun acc axis => acc * axis.1 + axis.2) 0

/-- The digits of an index, from the last axis on.  An axis of length 0 divides by
zero. -/
def unfoldBack : List Nat → Nat → Option (List Nat)
  | [], _ => some []
  | n :: axes, idx => if n = 0 then none else (unfoldBack axes (idx / n)).map (idx % n :: ·)

/-- The coordinate at a place. -/
def unfoldIndex (shape : List Nat) (idx : Nat) : Option (List Nat) :=
  (unfoldBack shape.reverse idx).map List.reverse

theorem mem_coords {shape coord : List Nat} :
    coord ∈ coords shape ↔ List.Forall₂ (· < ·) coord shape := by
  induction shape generalizing coord with
  | nil => simp [coords]
  | cons n shape ih =>
    cases coord with
    | nil => simp [coords]
    | cons i coord => simp [coords, ih]

theorem length_of_mem_coords {shape coord : List Nat} (h : coord ∈ coords shape) :
    coord.length = shape.length := (mem_coords.1 h).length_eq

theorem coords_append (shape : List Nat) (n : Nat) :
    coords (shape ++ [n]) = (coords shape).flatMap fun c => (List.range n).map fun i =>
      c ++ [i] := by
  induction shape with
  | nil => simp [coords, List.map_eq_flatMap]
  | cons m shape ih =>
    simp only [List.cons_append, coords, ih, List.map_flatMap, List.flatMap_assoc, List.flatMap_map,
      List.map_map]
    rfl

theorem flatIndex_append {shape coord : List Nat} (h : coord.length = shape.length) (n i : Nat) :
    flatIndex (shape ++ [n]) (coord ++ [i]) = flatIndex shape coord * n + i := by
  rw [flatIndex, List.zip_append h.symm, List.foldl_append]
  rfl

theorem unfoldIndex_append (shape : List Nat) {n : Nat} (hn : 0 < n) (idx : Nat) :
    unfoldIndex (shape ++ [n]) idx = (unfoldIndex shape (idx / n)).map (· ++ [idx % n]) := by
  rw [unfoldIndex, List.reverse_append, List.reverse_singleton, List.singleton_append, unfoldBack,
    if_neg (by omega), unfoldIndex, Option.map_map, Option.map_map]
  congr 1
  funext c
  simp

theorem range_mul (a n : Nat) :
    List.range (a * n) = (List.range a).flatMap fun i => (List.range n).map (i * n + ·) := by
  induction a with
  | zero => simp
  | succ a ih =>
    rw [Nat.succ_mul, List.range_add, ih, List.range_succ, List.flatMap_append]
    simp

/-- The places are counted in order. -/
theorem map_flatIndex_coords (shape : List Nat) :
    (coords shape).map (flatIndex shape) = List.range shape.prod := by
  induction shape using List.reverseRecOn with
  | nil => rfl
  | append_singleton shape n ih =>
    have hplace : ∀ c ∈ coords shape, (List.range n).map (flatIndex (shape ++ [n]) ∘ (c ++ [·])) =
        (List.range n).map (flatIndex shape c * n + ·) := by
      intro c hc
      apply List.map_congr_left
      intro i _
      exact flatIndex_append (length_of_mem_coords hc) n i
    rw [coords_append, List.map_flatMap]
    simp only [List.map_map]
    rw [List.flatMap_congr hplace, List.prod_append, List.prod_singleton, range_mul, ← ih,
      List.flatMap_map]

/-- The coordinates are found back in order. -/
theorem map_unfoldIndex_range (shape : List Nat) :
    (List.range shape.prod).map (unfoldIndex shape) = (coords shape).map some := by
  induction shape using List.reverseRecOn with
  | nil => rfl
  | append_singleton shape n ih =>
    have hdigit : ∀ i, (List.range n).map (unfoldIndex (shape ++ [n]) ∘ (i * n + ·)) =
        (List.range n).map fun j => (unfoldIndex shape i).map (· ++ [j]) := by
      intro i
      apply List.map_congr_left
      intro j hj
      have hlt := List.mem_range.1 hj
      have hdiv : (i * n + j) / n = i := by
        rw [Nat.mul_comm, Nat.mul_add_div (by omega), Nat.div_eq_of_lt hlt, Nat.add_zero]
      have hmod : (i * n + j) % n = j := Nat.mul_add_mod_of_lt hlt
      rw [Function.comp_apply, unfoldIndex_append shape (by omega), hdiv, hmod]
    rw [List.prod_append, List.prod_singleton, range_mul, List.map_flatMap]
    simp only [List.map_map, hdigit]
    rw [← List.flatMap_map (unfoldIndex shape)
      (fun o => (List.range n).map fun j => o.map (· ++ [j])), ih, List.flatMap_map, coords_append,
      List.map_flatMap]
    simp only [List.map_map]
    rfl

theorem unfoldIndex_flatIndex {shape coord : List Nat} (h : coord ∈ coords shape) :
    unfoldIndex shape (flatIndex shape coord) = some coord := by
  have hmap := map_unfoldIndex_range shape
  rw [← map_flatIndex_coords, List.map_map] at hmap
  exact List.map_inj_left.1 hmap coord h

theorem length_coords (shape : List Nat) : (coords shape).length = shape.prod := by
  have hlen := congrArg List.length (map_flatIndex_coords shape)
  rwa [List.length_map, List.length_range] at hlen

theorem flatMap_swap_perm {α β γ : Type} (l : List α) (m : List β) (f : α → β → List γ) :
    (l.flatMap fun a => m.flatMap (f a)).Perm (m.flatMap fun b => l.flatMap (f · b)) := by
  induction l with
  | nil => simp
  | cons a l ih =>
    rw [List.flatMap_cons]
    refine (ih.append_left _).trans ?_
    exact List.flatMap_append_perm m (f a) fun b => l.flatMap (f · b)

/-! ## Tiles -/

/-- The number of tiles along every axis. -/
def gridShape (shape tile : List Nat) : List Nat := List.zipWith divCeil shape tile

/-- The length of tile `g` along an axis of length `n` that is cut every `t`. -/
def tileExtent (n t g : Nat) : Nat := min (g * t + t) n - g * t

/-- The shape of the tile at a coordinate of the grid. -/
def tileShape : List Nat → List Nat → List Nat → List Nat
  | n :: shape, t :: tile, g :: grid => tileExtent n t g :: tileShape shape tile grid
  | _, _, _ => []

end RustFits.RowMajor
