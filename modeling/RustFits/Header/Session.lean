import RustFits.Header.Protected
import RustFits.Header.Reopen

/-!
# Edit sessions next to other changes

An edit session works on a copy of the cards and commits the whole copy.  What it
commits for a key that it did not touch is what the key had when the session was
opened (`SessionRun.staged`), as long as no staged deletion leaves a stray CONTINUE card.
So a commit keeps such a key exactly when nothing else changed it in the meantime.

* `Tracked` records for every session the cards it started from and the keys it
  touched.
* `SessionRun` interleaves the calls of header views and sessions with any other
  changes of the file.
* `commit_keeps_untouched` is the result, `not_commitExact_setObject` a lost update.
-/

namespace RustFits

open Ascii ByteFile Machine

namespace Header

/-- What a session started from, and the keys of its methods since. -/
structure Origin where
  start : List Card
  keys : List Str
  deriving DecidableEq, Repr

/-- An editor with the origins of its sessions. -/
structure Tracked where
  editor : Editor
  origins : List Origin
  deriving DecidableEq, Repr

variable {F : Type} {floats : Floats F}

/-- What a call does to the origins. -/
def trackCall (floats : Floats F) (call : Call F) (t : Tracked) : List Origin :=
  match call with
  | .edit idx =>
    match t.editor.fits.hdus[idx]? with
    | none => t.origins
    | some h => t.origins ++ [⟨h.cards, []⟩]
  | .stage i m => t.origins.modify i fun o => { o with keys := o.keys ++ m.keys floats }
  | _ => t.origins

def Tracked.perform (floats : Floats F) (call : Call F) (t : Tracked) : Tracked :=
  ⟨call.perform floats t.editor, trackCall floats call t⟩

/-- A method that is staged leaves no stray CONTINUE card in the cards of its session. -/
def Call.StagesStrayFree (floats : Floats F) (e : Editor) : Call F → Prop
  | .stage i m => ∀ session, e.edits[i]? = some session → m.StrayFree floats session.cards
  | _ => True

/-- A run that starts without sessions.  Between the calls any other operation may
change the file and the cards of its HDUs. -/
inductive SessionRun (floats : Floats F) (s : Fits) : Tracked → Prop where
  | start : SessionRun floats s ⟨⟨s, []⟩, []⟩
  | call {t : Tracked} (call : Call F) : SessionRun floats s t →
      call.StagesStrayFree floats t.editor → SessionRun floats s (t.perform floats call)
  | other {t : Tracked} (s' : Fits) : SessionRun floats s t →
      SessionRun floats s ⟨⟨s', t.editor.edits⟩, t.origins⟩

/-- A key that the session did not change.  The protected keys are refused. -/
def Untouched (origin : Origin) (key : Str) : Prop :=
  key ≠ continueKey ∧ (key ∉ origin.keys ∨ isProtectedKey key = true)

/-- The cards of the key are the same ones, each with its CONTINUE cards. -/
abbrev KeepsKey (key : Str) : List Card → List Card → Prop := KeepsBlocks fun k => decide (k = key)

/-! ## What a session holds -/

/-- A method of a session keeps what it does not touch. -/
theorem keepsKey_run {start cards : List Card} {key : Str} {keys : List Str} {m : HeaderMethod F}
    (hkey : Untouched ⟨start, keys ++ m.keys floats⟩ key) (hstray : m.StrayFree floats cards) :
    MethodKeeps (KeepsKey key) floats m cards := by
  refine keepsBlocks_run ?_ m (fun k hk hfree => ?_) hstray
  · exact decide_eq_false fun hc => hkey.1 hc.symm
  · refine decide_eq_false ?_
    rintro rfl
    rcases hkey.2 with hnot | hprot
    · exact hnot (List.mem_append_right _ hk)
    · rw [hfree] at hprot
      exact Bool.noConfusion hprot

/-- What the session holds for a key that it did not touch is what it started from. -/
def HoldsOrigin (session : HeaderEdit) (origin : Origin) : Prop :=
  ∀ key, Untouched origin key → KeepsKey key origin.start session.cards

/-- Every session does. -/
def Staged (t : Tracked) : Prop := List.Forall₂ HoldsOrigin t.editor.edits t.origins

theorem Untouched.mono {start : List Card} {keys more : List Str} {key : Str}
    (h : Untouched ⟨start, keys ++ more⟩ key) : Untouched ⟨start, keys⟩ key :=
  ⟨h.1, h.2.imp (fun hnot hmem => hnot (List.mem_append_left _ hmem)) id⟩

section

variable {α β : Type} {R : α → β → Prop} {l : List α} {l' : List β}

theorem forall₂_set_left (h : List.Forall₂ R l l') {i : Nat} {a : α}
    (ha : ∀ b, l'[i]? = some b → R a b) : List.Forall₂ R (l.set i a) l' := by
  induction h generalizing i with
  | nil => exact List.Forall₂.nil
  | cons hab htail ih =>
    cases i with
    | zero => exact List.Forall₂.cons (ha _ rfl) htail
    | succ i => exact List.Forall₂.cons hab (ih fun b hb => ha b hb)

theorem forall₂_modify (h : List.Forall₂ R l l') (i : Nat) {f : β → β}
    (hf : ∀ a b, R a b → R a (f b)) : List.Forall₂ R l (l'.modify i f) := by
  induction h generalizing i with
  | nil => simp
  | cons hab htail ih =>
    cases i with
    | zero => exact List.Forall₂.cons (hf _ _ hab) htail
    | succ i => exact List.Forall₂.cons hab (ih i)

end

/-- One call. -/
theorem Staged.perform {t : Tracked} (h : Staged t) {call : Call F}
    (hcall : call.StagesStrayFree floats t.editor) : Staged (t.perform floats call) := by
  have hholds : ∀ {i : Nat} {session : HeaderEdit} {origin : Origin}, t.editor.edits[i]? =
      some session →
      t.origins[i]? = some origin → HoldsOrigin session origin := by
    intro i session origin hedit horigin
    obtain ⟨session', hedit', hholds⟩ := forall₂_getElem? h horigin
    rw [hedit] at hedit'
    obtain rfl := Option.some.inj hedit'
    exact hholds
  -- a session that changes in its flags only
  have hflags : ∀ {i : Nat} {session left : HeaderEdit}, t.editor.edits[i]? = some session →
      left.cards = session.cards →
      List.Forall₂ HoldsOrigin (t.editor.edits.set i left) t.origins := by
    intro i session left hedit hcards
    refine forall₂_set_left h fun origin horigin key hkey => ?_
    rw [hcards]
    exact hholds hedit horigin key hkey
  unfold Staged Tracked.perform trackCall
  cases call with
  | header idx m =>
    simp only [Call.perform]
    split <;> exact h
  | edit idx =>
    cases hdu : t.editor.fits.hdus[idx]? with
    | none =>
      simp only [Call.perform, hdu]
      exact h
    | some g =>
      simp only [Call.perform, hdu]
      exact List.rel_append h
        (List.Forall₂.cons (fun key _ => KeepsBlocks.refl _ _) List.Forall₂.nil)
  | enter i =>
    cases hedit : t.editor.edits[i]? with
    | none =>
      simp only [Call.perform, hedit]
      exact h
    | some session =>
      simp only [Call.perform, hedit]
      exact hflags hedit rfl
  | stage i m =>
    have hmore : List.Forall₂ HoldsOrigin t.editor.edits
        (t.origins.modify i fun o => { o with keys := o.keys ++ m.keys floats }) :=
      forall₂_modify h i fun session origin hold key hkey => hold key hkey.mono
    cases hedit : t.editor.edits[i]? with
    | none => simpa only [Call.perform, hedit] using hmore
    | some session =>
      cases hactive : session.ensureActive with
      | error err => simpa only [Call.perform, hedit, hactive] using hmore
      | ok u =>
        have hset : ∀ cards', (∀ origin key, t.origins[i]? = some origin →
            Untouched ⟨origin.start, origin.keys ++ m.keys floats⟩ key →
            KeepsKey key origin.start cards') →
            List.Forall₂ HoldsOrigin (t.editor.edits.set i { session with cards := cards' })
              (t.origins.modify i fun o => { o with keys := o.keys ++ m.keys floats }) := by
          intro cards' hcards
          refine forall₂_set_left hmore fun origin horigin key hkey => ?_
          rw [List.getElem?_modify_eq, Option.map_eq_map, Option.map_eq_some_iff] at horigin
          obtain ⟨old, hold, rfl⟩ := horigin
          exact hcards old key hold hkey
        have hrun : ∀ (origin : Origin) (key : Str),
            Untouched ⟨origin.start, origin.keys ++ m.keys floats⟩ key →
            MethodKeeps (KeepsKey key) floats m session.cards :=
          fun origin key hkey => keepsKey_run hkey (hcall session hedit)
        unfold MethodKeeps at hrun
        cases hm : m.run floats session.cards with
        | ok b cards' =>
          simp only [hm] at hrun
          simp only [Call.perform, hedit, hactive, hm]
          exact hset cards' fun origin key horigin hkey =>
            (hholds hedit horigin key hkey.mono).trans (hrun origin key hkey)
        | error err cards' =>
          simp only [hm] at hrun
          simp only [Call.perform, hedit, hactive, hm]
          exact hset cards' fun origin key horigin hkey =>
            (hholds hedit horigin key hkey.mono).trans (hrun origin key hkey)
  | exit i raised =>
    cases hedit : t.editor.edits[i]? with
    | none =>
      simp only [Call.perform, hedit]
      exact h
    | some session =>
      simp only [Call.perform, hedit]
      split_ifs
      · split
        · exact hflags hedit rfl
        · exact hflags hedit rfl
      · exact hflags hedit rfl

theorem SessionRun.staged {s : Fits} {t : Tracked} (h : SessionRun floats s t) : Staged t := by
  induction h with
  | start => exact List.Forall₂.nil
  | call call _ hcall ih => exact ih.perform hcall
  | other s' _ ih => exact ih

/-! ## The commit -/

/-- The lookup of a protected keyword depends on its cards only. -/
theorem KeepsBlocks.parseKeyword {key : Str} {cards cards' : List Card}
    (hkey : isProtectedKey key = true) (h : KeepsKey key cards cards') :
    parseKeyword cards' key = parseKeyword cards key := by
  have hcards : ∀ cards : List Card, RustFits.parseKeyword
      (cards.filter fun c => (cardKey c).any fun k => decide (k = key)) key =
        RustFits.parseKeyword cards key := by
    intro cards
    refine parseKeyword_filter fun c _ hc => ?_
    rw [Bool.eq_false_iff]
    intro hd
    simp [cardKey_of_field hkey (keyword_of_decidesKey hd)] at hc
  rw [← hcards cards', h.keepsCards, hcards]

/-- The commit of a session brings the staged cards, and every key that the session
did not touch keeps the cards it had right before. -/
structure CommitExact (before : List Card) (session : HeaderEdit) (origin : Origin)
    (after : List Card) : Prop where
  staged : after = session.cards
  kept : ∀ key, Untouched origin key → KeepsKey key before after
  structural : ∀ key, isProtectedKey key = true → parseKeyword after key = parseKeyword before key

/-- In every run that stages no stray CONTINUE card, however other operations change the
file, a commit applies exactly the staged changes if the keys that the session did not
touch have the cards that it started from. -/
theorem commit_keeps_untouched {s s' : Fits} {t : Tracked} (hrun : SessionRun floats s t) {i : Nat}
    {session : HeaderEdit} {origin : Origin} {h : Hdu} (hedit : t.editor.edits[i]? = some session)
    (horigin : t.origins[i]? = some origin) (hdu : t.editor.fits.hdus[session.hdu]? = some h)
    (hentered : session.entered = true) (hopen : session.committed = false)
    (hcommit : rewriteAndCommit session.hdu session.cards t.editor.fits = .ok () s')
    (hfresh : ∀ key, Untouched origin key → KeepsKey key h.cards origin.start) :
    ∃ h', (t.perform floats (.exit i false)).editor.fits.hdus[session.hdu]? = some h' ∧
      CommitExact h.cards session origin h'.cards := by
  have hheld : HoldsOrigin session origin := by
    obtain ⟨session', hedit', hholds⟩ := forall₂_getElem? hrun.staged horigin
    rw [hedit] at hedit'
    obtain rfl := Option.some.inj hedit'
    exact hholds
  have hafter : (t.perform floats (.exit i false)).editor.fits = s' := by
    simp [Tracked.perform, Call.perform, hedit, hentered, hopen, hcommit]
  have hcards : (cardLists s')[session.hdu]? = some session.cards := by
    rw [(rewriteAndCommit_cardLists session.hdu session.cards _).ok rfl hcommit,
      List.getElem?_set_self]
    rw [cardLists, List.length_map]
    exact (List.getElem?_eq_some_iff.1 hdu).1
  rw [cardLists, List.getElem?_map, Option.map_eq_some_iff] at hcards
  obtain ⟨h', hdu', hstaged⟩ := hcards
  have hkept : ∀ key, Untouched origin key → KeepsKey key h.cards h'.cards := by
    intro key hkey
    rw [hstaged]
    exact (hfresh key hkey).trans (hheld key hkey)
  refine ⟨h', by rw [hafter, hdu'], hstaged, hkept, fun key hkey => ?_⟩
  refine (hkept key ⟨?_, Or.inr hkey⟩).parseKeyword hkey
  rintro rfl
  exact absurd hkey (by decide)

/-! ## A lost update -/

/-- An assignment to another keyword than CONTINUE. -/
theorem strayFree_setItem {key : Str} (h : normalizeKeyword key ≠ continueKey)
    {value : HeaderValue F} {comment : Option Str} {cards : List Card} :
    (HeaderMethod.setItem key value comment).StrayFree floats cards := by
  show continueKey ∉ [normalizeKeyword key]
  rw [List.mem_singleton]
  exact fun heq => h heq.symm

/-- A session on the second HDU of a file, entered. -/
def openedSession : Tracked :=
  ((Tracked.mk ⟨crowdedFile, []⟩ []).perform exampleFloats (.edit 1)).perform
    exampleFloats (.enter 0)

theorem openedSession_run : SessionRun exampleFloats crowdedFile openedSession :=
  .call _ (.call _ .start trivial) trivial

theorem openedSession_eq :
    openedSession = ⟨⟨crowdedFile, [⟨1, emptyExtension, true, false⟩]⟩, [⟨emptyExtension, []⟩]⟩ :=
  rfl

/-- A new card staged and committed, with nothing else going on. -/
theorem commit_keeps_untouched_setObject :
    ∃ h', ((openedSession.perform exampleFloats
        (.stage 0 (.setItem (str "object") (.integer 5) none))).perform exampleFloats
          (.exit 0 false)).editor.fits.hdus[1]? = some h' ∧
      CommitExact emptyExtension ⟨1, namedExtension, true, false⟩ ⟨emptyExtension, [str "OBJECT"]⟩
        h'.cards := by
  have hstate : openedSession.perform exampleFloats
      (.stage 0 (.setItem (str "object") (.integer 5) none)) =
        ⟨⟨crowdedFile, [⟨1, namedExtension, true, false⟩]⟩, [⟨emptyExtension, [str "OBJECT"]⟩]⟩ :=
        rfl
  have hrun := SessionRun.call (.stage 0 (.setItem (str "object") (.integer 5) none))
    openedSession_run fun session _ => strayFree_setItem (by decide)
  rw [hstate] at hrun ⊢
  have hdu : crowdedFile.hdus[1]? = some ⟨emptyExtension, ⟨5760, 1, 8640⟩, .image⟩ := rfl
  have hcommit : rewriteAndCommit 1 namedExtension crowdedFile = _ :=
    FileOp.bind_ok (rewriteHeaderToDisk_of_fits hdu (by decide))
  exact commit_keeps_untouched hrun (i := 0) (h := ⟨emptyExtension, ⟨5760, 1, 8640⟩, .image⟩)
    rfl rfl hdu rfl rfl hcommit fun key _ => KeepsBlocks.refl _ _

/-- The extension header with the card that the session stages. -/
def gainExtension : List Card :=
  emptyExtension.dropLast ++ [str "GAIN    =                    1", endCard]

/-- A header view sets OBJECT after a session was opened.  The session sets GAIN, and
its commit takes OBJECT away again. -/
theorem not_commitExact_setObject :
    ∃ (t : Tracked) (h h' : Hdu), SessionRun exampleFloats crowdedFile t ∧
      t.editor.edits[0]? = some ⟨1, gainExtension, true, false⟩ ∧
      t.origins[0]? = some ⟨emptyExtension, [str "GAIN"]⟩ ∧ t.editor.fits.hdus[1]? = some h ∧
      (t.perform exampleFloats (.exit 0 false)).editor.fits.hdus[1]? = some h' ∧
      ¬ CommitExact h.cards ⟨1, gainExtension, true, false⟩ ⟨emptyExtension, [str "GAIN"]⟩
        h'.cards := by
  have hdu : crowdedFile.hdus[1]? = some ⟨emptyExtension, ⟨5760, 1, 8640⟩, .image⟩ := rfl
  have hset := headerCall_of_fits hdu run_setItem_emptyExtension (by decide)
  obtain ⟨s₁, hs₁⟩ : ∃ s₁, s₁ = (⟨writeAll crowdedFile.bytes 5760 (headerBytes 1 namedExtension),
    [⟨crowdedHeader, ⟨0, 2, 5760⟩, .image⟩, ⟨namedExtension, ⟨5760, 1, 8640⟩, .image⟩]⟩ : Fits) :=
    ⟨_, rfl⟩
  have hheader : (Call.header 1 (.setItem (str "object") (.integer 5) none)).perform exampleFloats
      openedSession.editor = ⟨s₁, [⟨1, emptyExtension, true, false⟩]⟩ := by
    simp only [Call.perform, openedSession_eq, hset]
    rw [hs₁]
    rfl
  have hstage :
      (HeaderMethod.setItem (str "gain") (.integer 1) none).run exampleFloats emptyExtension =
      .ok true gainExtension := rfl
  have hdu₁ : s₁.hdus[1]? = some ⟨namedExtension, ⟨5760, 1, 8640⟩, .image⟩ := by rw [hs₁]; rfl
  have hstate : (openedSession.perform exampleFloats
      (.header 1 (.setItem (str "object") (.integer 5) none))).perform exampleFloats
        (.stage 0 (.setItem (str "gain") (.integer 1) none)) =
          ⟨⟨s₁, [⟨1, gainExtension, true, false⟩]⟩, [⟨emptyExtension, [str "GAIN"]⟩]⟩ := by
    unfold Tracked.perform
    rw [hheader]
    rfl
  have hrun := SessionRun.call (.stage 0 (.setItem (str "gain") (.integer 1) none))
    (.call (.header 1 (.setItem (str "object") (.integer 5) none)) openedSession_run trivial)
    fun session _ => strayFree_setItem (by decide)
  rw [hstate] at hrun
  have hcommit : rewriteAndCommit 1 gainExtension s₁ = _ :=
    FileOp.bind_ok (rewriteHeaderToDisk_of_fits hdu₁ (by decide))
  refine ⟨_, _, ⟨gainExtension, ⟨5760, 1, 8640⟩, .image⟩, hrun, rfl, rfl, hdu₁, ?_,
    fun hexact => ?_⟩
  · simp [Tracked.perform, Call.perform, hcommit]
    rw [hs₁]
    rfl
  · have hkept := hexact.kept (str "OBJECT") ⟨by decide, Or.inl (by decide)⟩
    have hlen := congrArg List.length hkept
    exact absurd hlen (by decide +kernel)

end Header

end RustFits
