import RustFits.Header.Blocks
import RustFits.Header.Reopen

/-!
# Protected cards

No method of a header view, and no edit session, changes a protected card, or adds or
takes one away (`protectedCards_performAll`).  The CONTINUE cards behind a protected card
stay too, unless a deletion leaves a stray CONTINUE card to it.

* `Call.StrayFree` is the condition, on the cards before the call.
* `AllKept` is the invariant of a run, for any relation that the methods keep.
* `calls_keep_protected` is the result for whole runs, and `not_keepsProtected_delObject`
  a deletion that changes a column name.
-/

namespace RustFits

open Ascii ByteFile Machine

namespace Header

/-- The protected cards are the same ones in the same order, each with its CONTINUE
cards. -/
abbrev KeepsProtected : List Card → List Card → Prop := KeepsBlocks isProtectedKey

/-! ## Runs -/

theorem headerBlocks_le_iff (n blocks : Nat) :
    headerBlocks n ≤ blocks ↔ n ≤ blocks * cardsPerBlock := by
  rw [headerBlocks_eq]
  unfold cardsPerBlock blockSize cardSize
  omega

theorem map_shift_zero (hdus : List Hdu) (after : Nat) :
    hdus.map (fun h => { h with offsets := h.offsets.shift after 0 }) = hdus := by
  refine (List.map_congr_left fun h _ => ?_).trans (List.map_id hdus)
  unfold HduOffsets.shift
  split_ifs <;> rfl

theorem reserve_of_fits {o : HduOffsets} {n : Nat} (h : n ≤ o.headerBlockCount * cardsPerBlock) :
    o.reserve n = o := by
  have hle := (headerBlocks_le_iff n o.headerBlockCount).2 h
  unfold HduOffsets.reserve
  rw [Nat.sub_eq_zero_of_le hle]
  simp

/-- The HDUs after a rewrite of a header. -/
theorem rewriteAndCommit_hdus (idx : Nat) (cards : List Card) (s : Fits) :
    Triple (fun t => t.hdus = s.hdus) (rewriteAndCommit idx cards)
      (fun _ t => ∃ after delta, t.hdus =
        (s.hdus.map fun h => { h with offsets := h.offsets.shift after delta }).modify idx
          fun h => ⟨cards, h.offsets.reserve cards.length, h.kind⟩)
      (fun _ t => t.hdus = s.hdus) := by
  have hshift : ∀ after delta, Triple (fun t => t.hdus = s.hdus)
      (shiftFileTailAndUpdateOffsets after delta)
      (fun _ t => t.hdus = s.hdus.map fun h => { h with offsets := h.offsets.shift after delta })
      (fun _ t => t.hdus = s.hdus) := by
    intro after delta t ht
    unfold shiftFileTailAndUpdateOffsets
    split_ifs with hzero
    · show t.hdus = _
      rw [ht, hzero, map_shift_zero]
    · dsimp only
      split
      · rename_i hsome
        split at hsome
        · cases hsome
        · cases hsome
          rw [← ht]
      · rename_i hsome
        split at hsome
        · cases hsome
          exact ht
        · cases hsome
  unfold rewriteAndCommit
  -- what the rewrite leaves in the records, before the new cards are committed
  refine Triple.bind (R := fun _ t => ∃ after delta, t.hdus =
    (s.hdus.map fun h => { h with offsets := h.offsets.shift after delta }).modify idx
      fun h => { h with offsets := h.offsets.reserve cards.length }) ?_ fun _ => ?_
  · refine Triple.bind (Triple.get (Q := fun r t => r.hdus = s.hdus ∧ t.hdus = s.hdus)
      fun _ ht => ⟨ht, ht⟩) fun r => ?_
    refine Triple.assume fun hr => ?_
    cases hdu : r.hdus[idx]? with
    | none => exact Triple.throw fun _ ht => ht
    | some h =>
      refine Triple.ite (fun _ => ?_) fun hfit => ?_
      · refine Triple.bind (hshift h.offsets.dataOffset _) fun _ => ?_
        refine Triple.bind (Triple.modify (Q := fun _ t => ∃ after delta, t.hdus =
          (s.hdus.map fun h => { h with offsets := h.offsets.shift after delta }).modify idx
            fun h => { h with offsets := h.offsets.reserve cards.length }) fun t ht => ?_) fun _ =>
              Triple.modify fun _ ht => ht
        exact ⟨_, _, by rw [ht]⟩
      · refine Triple.modify fun t ht => ⟨0, 0, ?_⟩
        show t.hdus = _
        rw [ht, map_shift_zero, ← hr]
        apply List.ext_getElem?
        intro j
        rw [List.getElem?_modify]
        by_cases hj : idx = j
        · subst hj
          rw [hdu]
          simp [reserve_of_fits (Nat.le_of_not_lt hfit)]
        · simp [hj]
  · refine Triple.modify fun t ht => ?_
    obtain ⟨after, delta, ht⟩ := ht
    refine ⟨after, delta, ?_⟩
    show List.modify t.hdus idx _ = _
    rw [ht, List.modify_modify_eq]
    rfl

section

variable {F : Type} {floats : Floats F} {base : List (List Card)}

/-- The card lists of the open file. -/
def cardLists (s : Fits) : List (List Card) := s.hdus.map Hdu.cards

theorem rewriteAndCommit_cardLists (idx : Nat) (cards : List Card) (s : Fits) :
    Triple (fun t => t.hdus = s.hdus) (rewriteAndCommit idx cards)
      (fun _ t => cardLists t = (cardLists s).set idx cards)
      (fun _ t => cardLists t = cardLists s) := by
  refine (rewriteAndCommit_hdus idx cards s).conseq (fun _ ht => ht) (fun _ t ht => ?_)
    fun _ t ht => ?_
  · obtain ⟨after, delta, ht⟩ := ht
    apply List.ext_getElem?
    intro j
    rw [cardLists, ht, List.getElem?_map, List.getElem?_modify, List.getElem?_map, cardLists,
      List.getElem?_set, List.getElem?_map, List.length_map]
    by_cases hj : idx = j
    · subst hj
      cases hget : s.hdus[idx]? with
      | none => simpa using List.getElem?_eq_none_iff.1 hget
      | some h => simp [(List.getElem?_eq_some_iff.1 hget).1]
    · cases s.hdus[j]? with
      | none => simp [hj]
      | some h => simp [hj]
  · rw [cardLists, ht]
    rfl

theorem forall₂_set {α β : Type} {R : α → β → Prop} {l : List α} {l' : List β}
    (h : List.Forall₂ R l l') {i : Nat} {b : β} (hb : ∀ a, l[i]? = some a → R a b) :
    List.Forall₂ R l (l'.set i b) := by
  induction h generalizing i with
  | nil => exact List.Forall₂.nil
  | cons hab htail ih =>
    cases i with
    | zero => exact List.Forall₂.cons (hb _ rfl) htail
    | succ i => exact List.Forall₂.cons hab (ih fun a ha => hb a ha)

theorem forall₂_getElem? {α β : Type} {R : α → β → Prop} {l : List α} {l' : List β}
    (h : List.Forall₂ R l l') {i : Nat} {b : β} (hb : l'[i]? = some b) :
    ∃ a, l[i]? = some a ∧ R a b := by
  induction h generalizing i with
  | nil => cases hb
  | cons hab _ ih =>
    cases i with
    | zero =>
      obtain rfl := Option.some.inj hb
      exact ⟨_, rfl, hab⟩
    | succ i => exact ih hb

variable {K : List Card → List Card → Prop}

/-- The method keeps these cards, also when it raises. -/
def MethodKeeps (K : List Card → List Card → Prop) (floats : Floats F) (m : HeaderMethod F)
    (cards : List Card) : Prop :=
  match m.run floats cards with
  | .ok _ cards' => K cards cards'
  | .error _ cards' => K cards cards'

/-- The method of the call keeps the cards that it is run on. -/
def CallKeeps (K : List Card → List Card → Prop) (floats : Floats F) (e : Editor) : Call F → Prop
  | .header idx m => ∀ h, e.fits.hdus[idx]? = some h → MethodKeeps K floats m h.cards
  | .stage i m => ∀ session, e.edits[i]? = some session → MethodKeeps K floats m session.cards
  | _ => True

/-- The invariant of a run: the cards of every HDU, and the cards that every session
holds, keep what the HDU started with. -/
structure AllKept (K : List Card → List Card → Prop) (base : List (List Card)) (e : Editor) :
    Prop where
  hdus : List.Forall₂ K base (cardLists e.fits)
  sessions : ∀ session ∈ e.edits, ∀ cards, base[session.hdu]? = some cards → K cards session.cards

theorem AllKept.start (hrefl : ∀ cards, K cards cards) (s : Fits) :
    AllKept K (cardLists s) ⟨s, []⟩ :=
  ⟨List.forall₂_same.2 fun _ _ => hrefl _, by simp⟩

/-- The invariant on the HDUs. -/
theorem AllKept.forall₂_hdus {s : Fits} {e : Editor} (h : AllKept K (cardLists s) e) :
    List.Forall₂ (fun g g' => K g.cards g'.cards) s.hdus e.fits.hdus := by
  have hlists := h.hdus
  rw [cardLists, cardLists, List.forall₂_map_left_iff, List.forall₂_map_right_iff] at hlists
  exact hlists

theorem AllKept.setEdit {e : Editor} {i : Nat} {session : HeaderEdit} (h : AllKept K base e)
    (hs : ∀ cards, base[session.hdu]? = some cards → K cards session.cards) :
    AllKept K base (e.setEdit i session) := by
  refine ⟨h.hdus, fun x hx => ?_⟩
  rcases List.mem_or_eq_of_mem_set hx with hx | rfl
  · exact h.sessions x hx
  · exact hs

/-- What a rewrite with the cards of an HDU leaves behind. -/
theorem AllKept.rewrite {e : Editor} {idx : Nat} {cards : List Card} {edits : List HeaderEdit}
    (h : AllKept K base e) (hcards : ∀ start, base[idx]? = some start → K start cards)
    (hedits : ∀ x ∈ edits, ∃ y ∈ e.edits, x.hdu = y.hdu ∧ x.cards = y.cards) {s' : Fits}
    (hs' : cardLists s' = (cardLists e.fits).set idx cards ∨ cardLists s' = cardLists e.fits) :
    AllKept K base ⟨s', edits⟩ := by
  refine ⟨?_, fun x hx => ?_⟩
  · rcases hs' with hs' | hs'
    · show List.Forall₂ K base (cardLists s')
      rw [hs']
      exact forall₂_set h.hdus hcards
    · show List.Forall₂ K base (cardLists s')
      rw [hs']
      exact h.hdus
  · obtain ⟨y, hy, hhdu, hcards⟩ := hedits x hx
    rw [hhdu, hcards]
    exact h.sessions y hy

/-- The file after a method of a header view. -/
theorem headerCall_cardLists (floats : Floats F) (idx : Nat) (m : HeaderMethod F) (s : Fits) :
    ∃ s', (headerCall floats idx m s = .ok () s' ∨ ∃ e, headerCall floats idx m s = .error e s') ∧
      (cardLists s' = cardLists s ∨ ∃ cards b cards', (cardLists s)[idx]? = some cards ∧
        m.run floats cards = .ok b cards' ∧ cardLists s' = (cardLists s).set idx cards') := by
  unfold headerCall
  rw [FileOp.get_bind]
  cases hdu : s.hdus[idx]? with
  | none => exact ⟨s, Or.inr ⟨_, rfl⟩, Or.inl rfl⟩
  | some h =>
    have hcards : (cardLists s)[idx]? = some h.cards := by
      rw [cardLists, List.getElem?_map, hdu]
      rfl
    dsimp only
    cases hrun : m.run floats h.cards with
    | error e cards' => exact ⟨s, Or.inr ⟨e, rfl⟩, Or.inl rfl⟩
    | ok b cards' =>
      cases b with
      | false => exact ⟨s, Or.inl rfl, Or.inl rfl⟩
      | true =>
        have htriple := rewriteAndCommit_cardLists idx cards' s
        dsimp only
        cases hw : rewriteAndCommit idx cards' s with
        | ok u s' =>
          exact ⟨s', Or.inl rfl, Or.inr ⟨_, true, cards', hcards, hrun, htriple.ok rfl hw⟩⟩
        | error e s' => exact ⟨s', Or.inr ⟨e, rfl⟩, Or.inl (htriple.error rfl hw)⟩

/-- One call. -/
theorem AllKept.perform (htrans : ∀ {a b c}, K a b → K b c → K a c) {e : Editor} {call : Call F}
    (hcall : CallKeeps K floats e call) (h : AllKept K base e) :
    AllKept K base (call.perform floats e) := by
  cases call with
  | header idx m =>
    obtain ⟨s', hrun, hlists⟩ := headerCall_cardLists floats idx m e.fits
    have hperform : (Call.header idx m).perform floats e = ⟨s', e.edits⟩ := by
      rcases hrun with hrun | ⟨err, hrun⟩ <;> simp [Call.perform, hrun]
    rw [hperform]
    have hsame : ∀ x ∈ e.edits, ∃ y ∈ e.edits, x.hdu = y.hdu ∧ x.cards = y.cards :=
      fun x hx => ⟨x, hx, rfl, rfl⟩
    rcases hlists with hlists | ⟨cards, b, cards', hcards, hm, hlists⟩
    · exact ⟨by rw [hlists]; exact h.hdus, h.sessions⟩
    · refine h.rewrite (fun start hstart => ?_) hsame (Or.inl hlists)
      obtain ⟨start', hstart', hkeeps⟩ := forall₂_getElem? h.hdus hcards
      rw [hstart] at hstart'
      obtain rfl := Option.some.inj hstart'
      rw [cardLists, List.getElem?_map, Option.map_eq_some_iff] at hcards
      obtain ⟨g, hg, rfl⟩ := hcards
      have hkept := hcall g hg
      rw [MethodKeeps, hm] at hkept
      exact htrans hkeeps hkept
  | edit idx =>
    cases hdu : e.fits.hdus[idx]? with
    | none => simpa only [Call.perform, hdu] using h
    | some g =>
      simp only [Call.perform, hdu]
      refine ⟨h.hdus, fun x hx => ?_⟩
      rcases List.mem_append.1 hx with hx | hx
      · exact h.sessions x hx
      · intro start hstart
        obtain rfl := List.mem_singleton.1 hx
        have hcards : (cardLists e.fits)[idx]? = some g.cards := by
          rw [cardLists, List.getElem?_map, hdu]
          rfl
        obtain ⟨start', hstart', hkeeps⟩ := forall₂_getElem? h.hdus hcards
        rw [hstart] at hstart'
        obtain rfl := Option.some.inj hstart'
        exact hkeeps
  | enter i =>
    cases hedit : e.edits[i]? with
    | none => simpa only [Call.perform, hedit] using h
    | some session =>
      simp only [Call.perform, hedit]
      exact h.setEdit (h.sessions session (List.mem_of_getElem? hedit))
  | stage i m =>
    cases hedit : e.edits[i]? with
    | none => simpa only [Call.perform, hedit] using h
    | some session =>
      have hsession := h.sessions session (List.mem_of_getElem? hedit)
      cases hactive : session.ensureActive with
      | error err => simpa only [Call.perform, hedit, hactive] using h
      | ok u =>
        have hrun := hcall session hedit
        unfold MethodKeeps at hrun
        cases hm : m.run floats session.cards with
        | ok b cards' =>
          simp only [hm] at hrun
          simp only [Call.perform, hedit, hactive, hm]
          exact h.setEdit fun start hstart => htrans (hsession start hstart) hrun
        | error err cards' =>
          simp only [hm] at hrun
          simp only [Call.perform, hedit, hactive, hm]
          exact h.setEdit fun start hstart => htrans (hsession start hstart) hrun
  | exit i raised =>
    cases hedit : e.edits[i]? with
    | none => simpa only [Call.perform, hedit] using h
    | some session =>
      have hmem := List.mem_of_getElem? hedit
      have hsession := h.sessions session hmem
      have hsame : ∀ left : HeaderEdit, left.hdu = session.hdu → left.cards = session.cards →
          ∀ x ∈ e.edits.set i left, ∃ y ∈ e.edits, x.hdu = y.hdu ∧ x.cards = y.cards := by
        intro left hhdu hcards x hx
        rcases List.mem_or_eq_of_mem_set hx with hx | rfl
        · exact ⟨x, hx, rfl, rfl⟩
        · exact ⟨session, hmem, hhdu, hcards⟩
      simp only [Call.perform, hedit]
      split_ifs
      · have htriple := rewriteAndCommit_cardLists session.hdu session.cards e.fits
        cases hw : rewriteAndCommit session.hdu session.cards e.fits with
        | ok u s' =>
          have hedits := hsame { session with entered := false, committed := true } rfl rfl
          exact h.rewrite hsession hedits (Or.inl (htriple.ok rfl hw))
        | error err s' =>
          have hedits := hsame { session with entered := false } rfl rfl
          exact h.rewrite hsession hedits (Or.inr (htriple.error rfl hw))
      · exact h.setEdit hsession

/-- The state after a run of calls. -/
def performAll (floats : Floats F) (calls : List (Call F)) (e : Editor) : Editor :=
  calls.foldl (fun e call => call.perform floats e) e

/-- After any run of calls the protected cards of every HDU are the same ones in the
same order, and no new ones. -/
theorem protectedCards_performAll (floats : Floats F) (s : Fits) (calls : List (Call F)) :
    List.Forall₂ (fun h h' => KeepsCards isProtectedKey h.cards h'.cards) s.hdus
      (performAll floats calls ⟨s, []⟩).fits.hdus := by
  have hmethod : ∀ (m : HeaderMethod F) (cards : List Card),
      MethodKeeps (KeepsCards isProtectedKey) floats m cards :=
    fun m cards => keepsCards_run (by decide) m fun _ _ hkey => hkey
  have hrun : ∀ (calls : List (Call F)) (e : Editor),
      AllKept (KeepsCards isProtectedKey) (cardLists s) e →
        AllKept (KeepsCards isProtectedKey) (cardLists s) (performAll floats calls e) := by
    intro calls
    induction calls with
    | nil => exact fun _ h => h
    | cons call calls ih =>
      intro e h
      refine ih _ (AllKept.perform (K := KeepsCards isProtectedKey) KeepsCards.trans ?_ h)
      cases call with
      | header idx m => exact fun g _ => hmethod m g.cards
      | stage i m => exact fun session _ => hmethod m session.cards
      | _ => trivial
  exact (hrun calls ⟨s, []⟩ (AllKept.start (KeepsCards.refl _) s)).forall₂_hdus

/-! ## Runs that leave no stray CONTINUE card -/

/-- The condition of a call, on the cards of the header view or of the session before it. -/
def Call.StrayFree (floats : Floats F) (e : Editor) : Call F → Prop
  | .header idx m => ∀ h, e.fits.hdus[idx]? = some h → m.StrayFree floats h.cards
  | .stage i m => ∀ session, e.edits[i]? = some session → m.StrayFree floats session.cards
  | _ => True

/-- A run of calls that meet it. -/
inductive StrayFreeRun (floats : Floats F) : Editor → Editor → Prop where
  | refl (e : Editor) : StrayFreeRun floats e e
  | step {e e' : Editor} (call : Call F) : StrayFreeRun floats e e' → call.StrayFree floats e' →
      StrayFreeRun floats e (call.perform floats e')

theorem methodKeeps_protected {m : HeaderMethod F} {cards : List Card}
    (h : m.StrayFree floats cards) : MethodKeeps KeepsProtected floats m cards :=
  keepsBlocks_run (by decide) m (fun _ _ hkey => hkey) h

/-- However the methods of header views and of edit sessions follow one another, if none
of them leaves a stray CONTINUE card then the protected cards of every HDU stay: the same
bytes in the same order, each with its CONTINUE cards behind it, and no new ones. -/
theorem calls_keep_protected (floats : Floats F) {s : Fits} {e : Editor}
    (hrun : StrayFreeRun floats ⟨s, []⟩ e) :
    List.Forall₂ (fun h h' => KeepsProtected h.cards h'.cards) s.hdus e.fits.hdus := by
  have hkept : AllKept KeepsProtected (cardLists s) e := by
    induction hrun with
    | refl => exact AllKept.start (KeepsBlocks.refl _) s
    | step call _ hcall ih =>
      refine AllKept.perform (K := KeepsProtected) KeepsBlocks.trans ?_ ih
      cases call with
      | header idx m => exact fun g hg => methodKeeps_protected (hcall g hg)
      | stage i m => exact fun session hsession => methodKeeps_protected (hcall session hsession)
      | _ => trivial
  exact hkept.forall₂_hdus

end

/-! ## A stray CONTINUE card -/

def strayPrimary : List Card :=
  [str "SIMPLE  =                    T", str "BITPIX  =                    8",
    str "NAXIS   =                    0", endCard]

/-- The header of a table without rows.  Its column name ends with an ampersand, and the
card behind OBJECT is a CONTINUE card, although the value of OBJECT ends. -/
def strayTable : List Card :=
  [str "XTENSION= 'BINTABLE'", str "BITPIX  =                    8",
    str "NAXIS   =                    2", str "NAXIS1  =                    4",
    str "NAXIS2  =                    0", str "PCOUNT  =                    0",
    str "GCOUNT  =                    1", str "TFIELDS =                    1",
    str "TFORM1  = '1E      '", str "TTYPE1  = 'flux&'", str "OBJECT  = 'M31     '",
    str "CONTINUE  '_old'", str "GAIN    =                    2", endCard]

/-- A file of this table. -/
def strayFile : Fits :=
  ⟨serializeHeaderToDiskBytes strayPrimary ++ serializeHeaderToDiskBytes strayTable,
    [⟨strayPrimary, ⟨0, 1, 2880⟩, .image⟩, ⟨strayTable, ⟨2880, 1, 5760⟩, .binaryTable⟩]⟩

/-- A session deletes GAIN, with no CONTINUE card behind it, and commits. -/
theorem calls_keep_protected_delGain :
    List.Forall₂ (fun h h' => KeepsProtected h.cards h'.cards) strayFile.hdus
      (performAll exampleFloats [.edit 1, .enter 0, .stage 0 (.delItem (str "gain")), .exit 0 false]
        ⟨strayFile, []⟩).fits.hdus := by
  refine calls_keep_protected exampleFloats (e := performAll exampleFloats _ _)
    (.step (.exit 0 false) (.step (.stage 0 (.delItem (str "gain"))) (.step (.enter 0)
      (.step (.edit 1) (.refl _) trivial) trivial) fun session hsession => ?_) trivial)
  obtain rfl : (⟨1, strayTable, true, false⟩ : HeaderEdit) = session := Option.some.inj hsession
  show strayBehind (str "GAIN") strayTable = false
  decide +kernel

/-- OBJECT is deleted.  Its CONTINUE card moves up behind the name of the first column. -/
theorem not_keepsProtected_delObject :
    ¬ List.Forall₂ (fun h h' => KeepsProtected h.cards h'.cards) strayFile.hdus
      (performAll exampleFloats [.header 1 (.delItem (str "OBJECT"))]
        ⟨strayFile, []⟩).fits.hdus := by
  have hdu : strayFile.hdus[1]? = some ⟨strayTable, ⟨2880, 1, 5760⟩, .binaryTable⟩ := rfl
  have hrun : (HeaderMethod.delItem (str "OBJECT")).run exampleFloats strayTable =
      .ok true (strayTable.eraseIdx 10) := rfl
  have hdu' : (performAll exampleFloats [.header 1 (.delItem (str "OBJECT"))]
      ⟨strayFile, []⟩).fits.hdus[1]? =
        some ⟨strayTable.eraseIdx 10, ⟨2880, 1, 5760⟩, .binaryTable⟩ := by
    simp only [performAll, List.foldl_cons, List.foldl_nil, Call.perform,
      headerCall_of_fits hdu hrun (by decide)]
    rfl
  intro hall
  obtain ⟨h, hget, hkept⟩ := forall₂_getElem? hall hdu'
  rw [hdu] at hget
  cases hget
  exact absurd hkept (by unfold KeepsProtected KeepsBlocks; decide +kernel)

end Header

end RustFits
