import Mathlib.Data.List.Forall2
import Mathlib.Tactic.Common

/-!
# Computations that may fail

A chain of `Except` steps succeeds when each of its steps does.
-/

namespace RustFits

section

variable {ε α β : Type} {x : Except ε α} {b : β}

theorem bind_eq_ok {f : α → Except ε β} : x >>= f = .ok b ↔ ∃ a, x = .ok a ∧ f a = .ok b := by
  cases x with
  | error e => exact iff_of_false (fun h => by cases h) fun ⟨_, h, _⟩ => by cases h
  | ok a => exact ⟨fun h => ⟨a, rfl, h⟩, fun ⟨_, ha, h⟩ => Except.ok.inj ha ▸ h⟩

theorem map_eq_ok_iff {f : α → β} : x.map f = .ok b ↔ ∃ a, x = .ok a ∧ f a = b := by
  cases x with
  | error e => simp [Except.map]
  | ok a => simp [Except.map]

/-- A list of steps, one result for each. -/
theorem mapM_eq_ok_iff {f : α → Except ε β} {l : List α} {out : List β} :
    l.mapM f = .ok out ↔ List.Forall₂ (fun a b => f a = .ok b) l out := by
  induction l generalizing out with
  | nil =>
    rw [List.mapM_nil, List.forall₂_nil_left_iff]
    exact ⟨fun h => (Except.ok.inj h).symm, fun h => h ▸ rfl⟩
  | cons a l ih =>
    rw [List.mapM_cons, bind_eq_ok, List.forall₂_cons_left_iff]
    constructor
    · rintro ⟨b, hb, h⟩
      obtain ⟨bs, hbs, hout⟩ := bind_eq_ok.1 h
      exact ⟨b, bs, hb, ih.1 hbs, (Except.ok.inj hout).symm⟩
    · rintro ⟨b, bs, hb, hbs, rfl⟩
      exact ⟨b, hb, bind_eq_ok.2 ⟨bs, ih.2 hbs, rfl⟩⟩

theorem exists_mapM_ok {f : α → Except ε β} {l : List α} :
    (∃ out, l.mapM f = .ok out) ↔ ∀ a ∈ l, ∃ b, f a = .ok b := by
  simp only [mapM_eq_ok_iff]
  induction l with
  | nil => exact iff_of_true ⟨[], List.Forall₂.nil⟩ (by simp)
  | cons a l ih =>
    rw [List.forall_mem_cons, ← ih]
    constructor
    · rintro ⟨out, h⟩
      cases h with
      | cons hb hbs => exact ⟨⟨_, hb⟩, ⟨_, hbs⟩⟩
    · rintro ⟨⟨b, hb⟩, out, hbs⟩
      exact ⟨b :: out, List.Forall₂.cons hb hbs⟩

/-- Each element of the right list is related to one of the left. -/
theorem exists_of_forall₂_right {R : α → β → Prop} {l : List α} {out : List β}
    (h : List.Forall₂ R l out) {b : β} (hb : b ∈ out) : ∃ a ∈ l, R a b := by
  induction h with
  | nil => cases hb
  | cons hfirst _ ih =>
    rcases List.mem_cons.1 hb with rfl | hb
    · exact ⟨_, List.mem_cons_self, hfirst⟩
    · obtain ⟨a, ha, hab⟩ := ih hb
      exact ⟨a, List.mem_cons_of_mem _ ha, hab⟩

/-- Each element of the left list is related to one of the right. -/
theorem exists_of_forall₂_left {R : α → β → Prop} {l : List α} {out : List β}
    (h : List.Forall₂ R l out) {a : α} (ha : a ∈ l) : ∃ b ∈ out, R a b := by
  obtain ⟨b, hb, hab⟩ := exists_of_forall₂_right h.flip ha
  exact ⟨b, hb, hab⟩

/-- Each result comes from an element. -/
theorem exists_of_mem_mapM {f : α → Except ε β} {l : List α} {out : List β} (h : l.mapM f = .ok out)
    (hb : b ∈ out) : ∃ a ∈ l, f a = .ok b :=
  exists_of_forall₂_right (mapM_eq_ok_iff.1 h) hb

/-- Each element has a result. -/
theorem exists_of_mem_mapM_left {f : α → Except ε β} {l : List α} {out : List β}
    (h : l.mapM f = .ok out) {a : α} (ha : a ∈ l) : ∃ b ∈ out, f a = .ok b :=
  exists_of_forall₂_left (mapM_eq_ok_iff.1 h) ha

/-- What each step keeps, the list keeps. -/
theorem map_eq_of_mapM {γ : Type} {f : α → Except ε β} {g : α → γ} {k : β → γ} {l : List α}
    {out : List β} (h : l.mapM f = .ok out) (hkeep : ∀ a b, f a = .ok b → k b = g a) :
    out.map k = l.map g := by
  rw [mapM_eq_ok_iff] at h
  induction h with
  | nil => rfl
  | cons hfirst _ ih => rw [List.map_cons, List.map_cons, hkeep _ _ hfirst, ih]

end

end RustFits
