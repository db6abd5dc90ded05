import Mathlib.Tactic.Common

/-!
# Lists of steps

`l.forM f` takes the steps of a list in order and stops at the first one that raises.  The
state is then the one that this step has left behind, so a list of steps is all or nothing
only where the steps in front of a failing one have changed nothing.
-/

namespace RustFits.Batch

variable {α β ε σ : Type} {f : α → EStateM ε σ PUnit} {l done rest : List α} {a : α}
  {s s' : σ} {e : ε}

/-- A step that raises leaves the state as it was. -/
def KeepsOnError (x : EStateM ε σ PUnit) : Prop := ∀ s e s', x s = .error e s' → s' = s

/-- Every list that fails has left the state as it was. -/
def WholeOrNothing (f : α → EStateM ε σ PUnit) (l : List α) (s : σ) : Prop :=
  ∀ e s', l.forM f s = .error e s' → s' = s

/-- The steps in front of one that raises have changed nothing. -/
def KeptInFront (f : α → EStateM ε σ PUnit) (l : List α) (s : σ) : Prop :=
  ∀ done a rest reached, l = done ++ a :: rest → done.forM f s = .ok ⟨⟩ reached →
    (¬∃ s', f a reached = .ok ⟨⟩ s') → reached = s

theorem forM_cons_eq (f : α → EStateM ε σ PUnit) (a : α) (l : List α) (s : σ) :
    (a :: l).forM f s =
      match f a s with
      | .ok _ s' => l.forM f s'
      | .error e s' => .error e s' := by
  show EStateM.bind (f a) (fun _ => l.forM f) s = _
  rw [EStateM.bind]
  cases f a s <;> rfl

/-- The steps of two lists, one list behind the other. -/
theorem forM_append_ok_iff : (done ++ rest).forM f s = .ok ⟨⟩ s' ↔
    ∃ reached, done.forM f s = .ok ⟨⟩ reached ∧ rest.forM f reached = .ok ⟨⟩ s' := by
  induction done generalizing s with
  | nil =>
    constructor
    · exact fun h => ⟨s, rfl, h⟩
    · rintro ⟨reached, hdone, h⟩
      cases hdone
      exact h
  | cons a done ih =>
    rw [List.cons_append, forM_cons_eq, forM_cons_eq]
    cases f a s with
    | ok u t => exact ih
    | error e t => simp

/-- A list that fails stops at one of its steps. -/
theorem forM_error_split (h : l.forM f s = .error e s') :
    ∃ done a rest reached, l = done ++ a :: rest ∧ done.forM f s = .ok ⟨⟩ reached ∧
      f a reached = .error e s' := by
  induction l generalizing s with
  | nil => cases h
  | cons a l ih =>
    rw [forM_cons_eq] at h
    cases hstep : f a s with
    | error e' t =>
      rw [hstep] at h
      cases h
      exact ⟨[], a, l, s, rfl, rfl, hstep⟩
    | ok u t =>
      rw [hstep] at h
      obtain ⟨done, b, rest, reached, rfl, hdone, hfail⟩ := ih h
      refine ⟨a :: done, b, rest, reached, rfl, ?_, hfail⟩
      rw [forM_cons_eq, hstep]
      exact hdone

/-- A step that raises in the middle stops the whole list. -/
theorem forM_stops (hdone : done.forM f s = .ok ⟨⟩ s') (hfail : ∃ e t, f a s' = .error e t) :
    ∃ e t, f a s' = .error e t ∧ (done ++ a :: rest).forM f s = .error e t := by
  obtain ⟨e, t, hfail⟩ := hfail
  refine ⟨e, t, hfail, ?_⟩
  induction done generalizing s with
  | nil =>
    cases hdone
    rw [List.nil_append, forM_cons_eq, hfail]
  | cons b done ih =>
    rw [List.cons_append, forM_cons_eq]
    rw [forM_cons_eq] at hdone
    cases hstep : f b s with
    | error e' u =>
      rw [hstep] at hdone
      cases hdone
    | ok u t' =>
      rw [hstep] at hdone
      exact ih hdone

/-- All or nothing, for steps that leave the state when they raise. -/
theorem wholeOrNothing_iff (hf : ∀ a, KeepsOnError (f a)) :
    WholeOrNothing f l s ↔ KeptInFront f l s := by
  constructor
  · intro hwhole done a rest reached hl hdone hfails
    have hfail : ∃ e t, f a reached = .error e t := by
      cases hstep : f a reached with
      | ok u t => exact absurd ⟨t, hstep⟩ hfails
      | error e t => exact ⟨e, t, rfl⟩
    obtain ⟨e, t, hstep, hrun⟩ := @forM_stops _ _ _ _ _ rest _ _ _ hdone hfail
    rw [← hf a reached e t hstep]
    exact hwhole e t (hl ▸ hrun)
  · intro hkept e s' h
    obtain ⟨done, a, rest, reached, hl, hdone, hstep⟩ := forM_error_split h
    rw [hf a reached e s' hstep]
    refine hkept done a rest reached hl hdone ?_
    rintro ⟨t, hok⟩
    rw [hstep] at hok
    cases hok

/-- Steps that raise or not whatever the state is. -/
theorem forM_ok_iff {P : α → Prop} (hf : ∀ a ∈ l, ∀ s, (∃ s', f a s = .ok ⟨⟩ s') ↔ P a) :
    (∃ s', l.forM f s = .ok ⟨⟩ s') ↔ ∀ a ∈ l, P a := by
  induction l generalizing s with
  | nil => exact iff_of_true ⟨s, rfl⟩ (by simp)
  | cons a l ih =>
    obtain ⟨ha, hl⟩ := List.forall_mem_cons.1 hf
    rw [forM_cons_eq, List.forall_mem_cons, ← ha s]
    cases hstep : f a s with
    | error e t => simp
    | ok u t =>
      rw [ih hl]
      exact ⟨fun h => ⟨⟨t, rfl⟩, h⟩, fun h => h.2⟩

/-- What no step changes, the list does not change. -/
theorem forM_frame {R : σ → β} (hf : ∀ a ∈ l, ∀ s s', f a s = .ok ⟨⟩ s' → R s' = R s)
    (h : l.forM f s = .ok ⟨⟩ s') : R s' = R s := by
  induction l generalizing s with
  | nil =>
    cases h
    rfl
  | cons a l ih =>
    rw [forM_cons_eq] at h
    cases hstep : f a s with
    | error e t =>
      rw [hstep] at h
      cases h
    | ok u t =>
      rw [hstep] at h
      rw [ih (fun b hb => hf b (List.mem_cons_of_mem _ hb)) h]
      exact hf a List.mem_cons_self s t hstep

end RustFits.Batch
