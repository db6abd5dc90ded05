import Mathlib.Data.List.Forall2
import Mathlib.Tactic.SplitIfs

/-!
# Pre- and postconditions of stateful programs

Programs that change a state, and may raise and then leave a changed state
behind.  `Triple P x Q E` says that from every state with `P` the program `x`
either returns with `Q` or raises with `E`.  The rules follow the program text:
`Triple.bind` for sequencing, one rule per primitive, and `Triple.conseq` to
change the conditions.  `Returns` is the case where nothing is asked of a raise.
-/

namespace RustFits

variable {ε σ α β : Type}

/-- From a state with `P` the program returns with `Q` or raises with `E`. -/
def Triple (P : σ → Prop) (x : EStateM ε σ α) (Q : α → σ → Prop) (E : ε → σ → Prop) : Prop :=
  ∀ s, P s → match x s with
    | .ok a s' => Q a s'
    | .error e s' => E e s'

/-- From a state with `P`, if the program returns, it returns with `Q`. -/
abbrev Returns (P : σ → Prop) (x : EStateM ε σ α) (Q : α → σ → Prop) : Prop :=
  Triple P x Q fun _ _ => True

namespace Triple

variable {P P' : σ → Prop} {x : EStateM ε σ α} {Q Q' : α → σ → Prop} {E E' : ε → σ → Prop}

/-- What a run that returns ends with. -/
theorem ok (h : Triple P x Q E) {s s' : σ} {a : α} (hs : P s) (hx : x s = .ok a s') : Q a s' := by
  have := h s hs
  rw [hx] at this
  exact this

/-- What a run that raises leaves behind. -/
theorem error (h : Triple P x Q E) {s s' : σ} {e : ε} (hs : P s) (hx : x s = .error e s') :
    E e s' := by
  have := h s hs
  rw [hx] at this
  exact this

/-- A run that cannot raise returns. -/
theorem exists_ok (h : Triple P x Q fun _ _ => False) {s : σ} (hs : P s) :
    ∃ a s', x s = .ok a s' ∧ Q a s' := by
  have hx := h s hs
  cases hres : x s with
  | ok a s' =>
    rw [hres] at hx
    exact ⟨a, s', rfl, hx⟩
  | error e s' =>
    rw [hres] at hx
    exact hx.elim

theorem conseq (h : Triple P x Q E) (hP : ∀ s, P' s → P s) (hQ : ∀ a s, Q a s → Q' a s)
    (hE : ∀ e s, E e s → E' e s) : Triple P' x Q' E' := by
  intro s hs
  have hx := h s (hP s hs)
  cases hres : x s with
  | ok a s' =>
    rw [hres] at hx
    exact hQ a s' hx
  | error e s' =>
    rw [hres] at hx
    exact hE e s' hx

theorem pre (h : Triple P x Q E) (hP : ∀ s, P' s → P s) : Triple P' x Q E :=
  h.conseq hP (fun _ _ hq => hq) fun _ _ he => he

theorem post (h : Triple P x Q E) (hQ : ∀ a s, Q a s → Q' a s) : Triple P x Q' E :=
  h.conseq (fun _ hp => hp) hQ fun _ _ he => he

/-- A fixed start state. -/
theorem of_state (h : ∀ s, P s → Triple (fun t => t = s) x Q E) : Triple P x Q E :=
  fun s hs => h s hs s rfl

theorem pure {a : α} (h : ∀ s, P s → Q a s) : Triple P (Pure.pure a : EStateM ε σ α) Q E :=
  fun s hs => h s hs

theorem throw {e : ε} (h : ∀ s, P s → E e s) :
    Triple P (MonadExcept.throw e : EStateM ε σ α) Q E := fun s hs => h s hs

theorem get {Q : σ → σ → Prop} (h : ∀ s, P s → Q s s) :
    Triple P (MonadState.get : EStateM ε σ σ) Q E := fun s hs => h s hs

/-- What follows a read of the state starts from the state that was read. -/
theorem get_bind {f : σ → EStateM ε σ β} {Q : β → σ → Prop}
    (h : ∀ s, P s → Triple (fun t => t = s) (f s) Q E) :
    Triple P ((MonadState.get : EStateM ε σ σ) >>= f) Q E := fun s hs => h s hs s rfl

theorem set {s' : σ} {Q : PUnit → σ → Prop} (h : ∀ s, P s → Q ⟨⟩ s') :
    Triple P (MonadStateOf.set s' : EStateM ε σ PUnit) Q E := fun s hs => h s hs

theorem modify {f : σ → σ} {Q : Unit → σ → Prop} (h : ∀ s, P s → Q () (f s)) :
    Triple P (modify f : EStateM ε σ Unit) Q E := fun s hs => h s hs

/-- Sequencing. -/
theorem bind {R : α → σ → Prop} {f : α → EStateM ε σ β} {Q : β → σ → Prop}
    (hx : Triple P x R E) (hf : ∀ a, Triple (R a) (f a) Q E) : Triple P (x >>= f) Q E := by
  intro s hs
  have hfirst := hx s hs
  show match EStateM.bind x f s with
    | .ok a s' => Q a s'
    | .error e s' => E e s'
  unfold EStateM.bind
  cases hres : x s with
  | ok a s' =>
    rw [hres] at hfirst
    exact hf a s' hfirst
  | error e s' =>
    rw [hres] at hfirst
    exact hfirst

theorem ite {c : Prop} [Decidable c] {y : EStateM ε σ α} (ht : c → Triple P x Q E)
    (hf : ¬ c → Triple P y Q E) : Triple P (if c then x else y) Q E := by
  split_ifs with hc
  · exact ht hc
  · exact hf hc

/-- Two results of one program. -/
theorem and {Q' : α → σ → Prop} (h : Triple P x Q E) (h' : Triple P' x Q' E) :
    Triple (fun s => P s ∧ P' s) x (fun a s => Q a s ∧ Q' a s) E := by
  intro s hs
  have h1 := h s hs.1
  have h2 := h' s hs.2
  cases hres : x s with
  | ok a s' =>
    rw [hres] at h1 h2
    exact ⟨h1, h2⟩
  | error e s' =>
    rw [hres] at h1
    exact h1

/-- Facts about the state may be taken out of the precondition. -/
theorem assume {p : Prop} (h : p → Triple P x Q E) : Triple (fun s => p ∧ P s) x Q E :=
  fun s hs => h hs.1 s hs.2

/-- A loop with an accumulator keeps an invariant of the accumulator and the state. -/
theorem foldlM {I : β → σ → Prop} {f : β → α → EStateM ε σ β} {l : List α}
    (hf : ∀ acc, ∀ a ∈ l, Triple (I acc) (f acc a) I E) (acc : β) :
    Triple (I acc) (l.foldlM f acc) I E := by
  induction l generalizing acc with
  | nil => exact Triple.pure fun s hs => hs
  | cons a l ih =>
    rw [List.foldlM_cons]
    exact (hf acc a (by simp)).bind fun b =>
      ih (fun acc x hx => hf acc x (List.mem_cons_of_mem _ hx)) b

/-- A loop whose invariant speaks of the elements that are done. -/
theorem foldlM_done {I : List α → β → σ → Prop} {f : β → α → EStateM ε σ β} {l : List α}
    (hf : ∀ done acc, ∀ a ∈ l, Triple (I done acc) (f acc a) (I (done ++ [a])) E) (acc : β) :
    Triple (I [] acc) (l.foldlM f acc) (I l) E := by
  have hgen : ∀ (todo done : List α) (acc : β), (∀ a ∈ todo, a ∈ l) →
      Triple (I done acc) (todo.foldlM f acc) (I (done ++ todo)) E := by
    intro todo
    induction todo with
    | nil =>
      intro done acc _
      rw [List.append_nil]
      exact Triple.pure fun s hs => hs
    | cons a todo ih =>
      intro done acc hsub
      rw [List.foldlM_cons, List.append_cons]
      exact (hf done acc a (hsub a List.mem_cons_self)).bind fun b =>
        ih (done ++ [a]) b fun x hx => hsub x (List.mem_cons_of_mem a hx)
  exact hgen l [] acc fun a ha => ha

/-- A loop that only changes the state. -/
theorem forM {f : α → EStateM ε σ PUnit} {l : List α}
    (hf : ∀ a ∈ l, Triple P (f a) (fun _ => P) E) : Triple P (l.forM f) (fun _ => P) E := by
  induction l with
  | nil => exact Triple.pure fun s hs => hs
  | cons a l ih =>
    show Triple P (f a >>= fun _ => l.forM f) (fun _ => P) E
    exact (hf a (by simp)).bind fun _ => ih fun x hx => hf x (List.mem_cons_of_mem _ hx)

/-- A loop that only reads. -/
theorem mapM {f : α → EStateM ε σ β} {l : List α}
    (hf : ∀ a ∈ l, Triple P (f a) (fun _ => P) E) : Triple P (l.mapM f) (fun _ => P) E := by
  induction l with
  | nil => exact Triple.pure fun s hs => hs
  | cons a l ih =>
    rw [List.mapM_cons]
    refine (hf a (by simp)).bind fun b => ?_
    refine (ih fun x hx => hf x (List.mem_cons_of_mem _ hx)).bind fun bs => ?_
    exact Triple.pure fun s hs => hs

/-- A loop that collects results, each of them related to its element. -/
theorem mapM_forall₂ {R : α → β → Prop} {f : α → EStateM ε σ β} {l : List α}
    (hf : ∀ a ∈ l, Triple P (f a) (fun b s => R a b ∧ P s) E) :
    Triple P (l.mapM f) (fun out s => List.Forall₂ R l out ∧ P s) E := by
  induction l with
  | nil => exact Triple.pure fun s hs => ⟨List.Forall₂.nil, hs⟩
  | cons a l ih =>
    rw [List.mapM_cons]
    refine (hf a (by simp)).bind fun b => Triple.assume fun hb => ?_
    refine (ih fun x hx => hf x (List.mem_cons_of_mem _ hx)).bind fun bs =>
      Triple.assume fun hbs => ?_
    exact Triple.pure fun s hs => ⟨List.Forall₂.cons hb hbs, hs⟩

end Triple

/-! ## Programs with a pure counterpart -/

/-- A program that ends as the pure computation `y` does, from every state that
satisfies `I`, and keeps `I`. -/
def Follows (I : σ → Prop) (x : EStateM ε σ α) (y : Except ε α) : Prop :=
  Triple I x (fun a s => y = .ok a ∧ I s) fun e s => y = .error e ∧ I s

namespace Follows

variable {I : σ → Prop} {x : EStateM ε σ α} {y : Except ε α}

theorem pure (a : α) : Follows I (Pure.pure a : EStateM ε σ α) (.ok a) := fun _ hs => ⟨rfl, hs⟩

theorem throw (e : ε) : Follows I (MonadExcept.throw e : EStateM ε σ α) (.error e) :=
  fun _ hs => ⟨rfl, hs⟩

theorem bind {f : α → EStateM ε σ β} {g : α → Except ε β} (hx : Follows I x y)
    (hf : ∀ a, Follows I (f a) (g a)) : Follows I (x >>= f) (y >>= g) := by
  intro s hs
  have hfirst := hx s hs
  show match EStateM.bind x f s with
    | .ok b s' => (y >>= g) = .ok b ∧ I s'
    | .error e s' => (y >>= g) = .error e ∧ I s'
  unfold EStateM.bind
  cases hres : x s with
  | ok a s' =>
    rw [hres] at hfirst
    obtain ⟨rfl, hs'⟩ := hfirst
    exact hf a s' hs'
  | error e s' =>
    rw [hres] at hfirst
    obtain ⟨rfl, hs'⟩ := hfirst
    exact ⟨rfl, hs'⟩

/-- A loop that collects results. -/
theorem mapM {f : α → EStateM ε σ β} {g : α → Except ε β} {l : List α}
    (hf : ∀ a ∈ l, Follows I (f a) (g a)) : Follows I (l.mapM f) (l.mapM g) := by
  induction l with
  | nil => exact Follows.pure []
  | cons a l ih =>
    rw [List.mapM_cons, List.mapM_cons]
    refine Follows.bind (hf a (by simp)) fun b => ?_
    refine Follows.bind (ih fun c hc => hf c (List.mem_cons_of_mem _ hc)) fun bs => ?_
    exact Follows.pure (b :: bs)

end Follows

end RustFits
