import Mathlib.Data.List.Basic

/-!
# Ordered dictionaries

A dictionary as the list of its entries in the order of their first assignment.  An
assignment to a key that is there replaces the value and keeps the place.

* `getItem_setItem` is the law of one assignment.
* `getItem_assign` is the law of a list of assignments: the last one to a key counts.
-/

namespace RustFits.Dict

variable {κ α : Type} [DecidableEq κ]

/-- Assign a value to a key. -/
def setItem (key : κ) (value : α) : List (κ × α) → List (κ × α)
  | [] => [(key, value)]
  | (other, old) :: rest =>
    if other = key then (key, value) :: rest else (other, old) :: setItem key value rest

/-- The value of a key. -/
def getItem (key : κ) : List (κ × α) → Option α
  | [] => none
  | (other, value) :: rest => if other = key then some value else getItem key rest

/-- Assignments from left to right. -/
def assign (assignments : List (κ × α)) (entries : List (κ × α)) : List (κ × α) :=
  assignments.foldl (fun entries x => setItem x.1 x.2 entries) entries

/-- The last assignment to a key. -/
def lastOf (key : κ) : List (κ × α) → Option α
  | [] => none
  | (other, value) :: rest => (lastOf key rest).or (if other = key then some value else none)

theorem getItem_setItem (key other : κ) (value : α) (entries : List (κ × α)) :
    getItem other (setItem key value entries) =
      if other = key then some value else getItem other entries := by
  induction entries with
  | nil =>
    rw [setItem, getItem, getItem]
    by_cases h : other = key
    · rw [if_pos h, if_pos h.symm]
    · rw [if_neg h, if_neg (Ne.symm h)]
      rfl
  | cons entry rest ih =>
    obtain ⟨head, old⟩ := entry
    rw [setItem]
    by_cases hhead : head = key
    · rw [if_pos hhead, getItem, getItem, hhead]
      by_cases h : other = key
      · rw [if_pos h, if_pos h.symm]
      · rw [if_neg h, if_neg (Ne.symm h), if_neg (Ne.symm h)]
    · rw [if_neg hhead, getItem, getItem, ih]
      by_cases h : other = key
      · rw [if_pos h, if_pos h, if_neg (h ▸ hhead)]
      · rw [if_neg h, if_neg h]

theorem assign_cons (x : κ × α) (assignments entries : List (κ × α)) :
    assign (x :: assignments) entries = assign assignments (setItem x.1 x.2 entries) := rfl

theorem assign_append (first second entries : List (κ × α)) :
    assign (first ++ second) entries = assign second (assign first entries) := List.foldl_append

/-- The last assignment to a key counts; without one the value stays. -/
theorem getItem_assign (key : κ) (assignments : List (κ × α)) : ∀ entries : List (κ × α),
    getItem key (assign assignments entries) =
      (lastOf key assignments).or (getItem key entries) := by
  induction assignments with
  | nil =>
    intro entries
    rfl
  | cons x assignments ih =>
    intro entries
    obtain ⟨other, value⟩ := x
    rw [assign_cons, ih, getItem_setItem, lastOf, Option.or_assoc]
    by_cases h : other = key
    · rw [if_pos h, if_pos h.symm]
      rfl
    · rw [if_neg h, if_neg (Ne.symm h)]
      rfl

end RustFits.Dict
