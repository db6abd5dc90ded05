import RustFits.Lib.Outcome
import RustFits.Lib.RowMajor

/-!
# Memory that is not initialised yet

A vector with room for `n` elements is filled cell by cell, in any order, before its
length is set.  `Spare.setLen` is a fault while a cell is not initialised.  The places
written are recorded, so that writing each of them once is a statement about a list.

* `Spare.Holds` says which cells are written, when each place has one value that may
  go there.
* `Spare.Holds.foldlM` is the rule for a loop, whatever a round writes.
* `Spare.Holds.setLen` is the whole vector.
* `grid_perm` counts the places of a grid column by column.
-/

namespace RustFits

open Outcome

/-- The cells and the places written so far. -/
structure Spare (α : Type) where
  cells : List (Option α)
  written : List Nat
  deriving DecidableEq, Repr

namespace Spare

variable {ε α ι : Type}

/-- Room for `n` elements. -/
def withCapacity (n : Nat) : Spare α := ⟨List.replicate n none, []⟩

def write (b : Spare α) (i : Nat) (a : α) : Outcome ε (Spare α) :=
  if i < b.cells.length then .ok ⟨b.cells.set i (some a), b.written ++ [i]⟩ else .fault

/-- All cells become elements. -/
def setLen (b : Spare α) : Outcome ε (List α) :=
  match b.cells.mapM id with
  | some elements => .ok elements
  | none => .fault

/-- The places have been written, in this order, each with the value that `f` has for
it; the other cells are not initialised. -/
structure Holds (n : Nat) (f : Nat → α) (places : List Nat) (b : Spare α) : Prop where
  cells : b.cells = (List.range n).map fun i => if i ∈ places then some (f i) else none
  written : b.written = places

variable {n : Nat} {f : Nat → α} {places : List Nat} {b : Spare α}

theorem holds_withCapacity (n : Nat) (f : Nat → α) : Holds n f [] (withCapacity n) := by
  refine ⟨?_, rfl⟩
  show List.replicate n none = (List.range n).map fun i => if i ∈ [] then some (f i) else none
  rw [eq_comm, List.eq_replicate_iff]
  simp

theorem Holds.write (h : Holds n f places b) {i : Nat} (hi : i < n) :
    ∃ b' : Spare α, (b.write i (f i) : Outcome ε (Spare α)) = .ok b' ∧
    Holds n f (places ++ [i]) b' := by
  have hlen : i < b.cells.length := by
    rw [h.cells]
    simpa using hi
  refine ⟨_, if_pos hlen, ?_, ?_⟩
  · show b.cells.set i (some (f i)) = _
    rw [h.cells]
    apply List.ext_getElem
    · simp
    · intro k hk hk'
      by_cases hki : i = k
      · simp [hki]
      · have hki' : k ≠ i := Ne.symm hki
        simp [hki, hki']
  · show b.written ++ [i] = places ++ [i]
    rw [h.written]

/-- A loop, each of whose rounds writes the places that `g` has for it. -/
theorem Holds.foldlM {step : Spare α → ι → Outcome ε (Spare α)} {g : ι → List Nat} {rounds : List ι}
    (hstep : ∀ x ∈ rounds, ∀ (places : List Nat) (b : Spare α), Holds n f places b →
      ∃ b', step b x = .ok b' ∧ Holds n f (places ++ g x) b')
    (h : Holds n f places b) :
    ∃ b', rounds.foldlM step b = .ok b' ∧ Holds n f (places ++ rounds.flatMap g) b' := by
  induction rounds generalizing places b with
  | nil =>
    refine ⟨b, rfl, ?_⟩
    rw [List.flatMap_nil, List.append_nil]
    exact h
  | cons x rounds ih =>
    obtain ⟨b₁, hb₁, h₁⟩ := hstep x List.mem_cons_self places b h
    obtain ⟨b₂, hb₂, h₂⟩ := ih (fun y hy => hstep y (List.mem_cons_of_mem x hy)) h₁
    refine ⟨b₂, ?_, ?_⟩
    · rw [List.foldlM_cons, hb₁, ok_bind, hb₂]
    · rw [List.flatMap_cons, ← List.append_assoc]
      exact h₂

/-- Every cell is written. -/
theorem Holds.setLen (h : Holds n f places b) (hall : ∀ i < n, i ∈ places) :
    (b.setLen : Outcome ε (List α)) = .ok ((List.range n).map f) := by
  have hcells : b.cells = (List.range n).map fun i => some (f i) := by
    rw [h.cells]
    exact List.map_congr_left fun i hi => if_pos (hall i (List.mem_range.1 hi))
  have hmap : ∀ l : List Nat, (l.map fun i => some (f i)).mapM id = some (l.map f) := by
    intro l
    induction l with
    | nil => rfl
    | cons i l ih => simp [ih]
  rw [Spare.setLen, hcells, hmap]

end Spare

/-- The places of a grid, column by column: each of them once. -/
theorem grid_perm (rows cols : Nat) :
    ((List.range cols).flatMap fun j => (List.range rows).flatMap fun i => [i * cols + j]).Perm
      (List.range (rows * cols)) := by
  refine (RowMajor.flatMap_swap_perm _ _ fun j i => [i * cols + j]).trans (List.Perm.of_eq ?_)
  rw [RowMajor.range_mul]
  refine congrArg (List.flatMap · _) (funext fun i => ?_)
  exact List.map_eq_flatMap.symm

end RustFits
