import RustFits.Header.StagedEntries

/-!
# What an update copies

The update takes the cards of a header one by one, an entry for each, and gives them to
the target in order.  A key that stands on two cards is read from the first one and left
with the value of the last one.

* `heldEntries` are the values of a key, card by card.
* `LastEntry` is the entry that writes a key last, with the cards it is given.
* `EntryFits` says when the cards it writes are read back right.
-/

namespace RustFits

open Ascii ByteFile Machine

namespace Header

/-! ## The entries of a header -/

/-- The keys that an update copies. -/
def IsCopied (k : Str) : Prop := isProtectedKey k = false ∧ isCommentaryKey k = false

/-- The value and the comment that an action gives the key `k`. -/
def UpdateAction.entryOf {F : Type} (k : Str) : UpdateAction F → Option (HeaderValue F × Str)
  | .setKey key value comment =>
    if normalizeKeyword key = k then some (value, comment.getD []) else none
  | .appendCommentary _ _ => none

/-- The values and the comments under a key, of every card that holds it. -/
def heldEntries {F : Type} (floats : Floats F) (k : Str) : List Card → List (HeaderValue F × Str)
  | [] => []
  | card :: rest =>
    ((heldValue k card).map fun value => parseValueWithContinue floats rest value).toList ++
      heldEntries floats k rest

section

variable {F : Type} {floats : Floats F} {k value : Str} {card : Card} {rest source : List Card}
  {copy : Bool}

theorem IsCopied.ne_nil (hk : IsCopied k) : k ≠ [] := by
  rintro rfl
  exact absurd hk.2 (by decide)

theorem heldValue_eq (h : heldValue k card = some value) :
    afterEquals (trimEnd card) = some value := by
  unfold heldValue at h
  split_ifs at h
  exact h

/-- The lookup reads the first one. -/
theorem readKey_head (source : List Card) :
    readKey floats source k = (heldEntries floats k source).head? := by
  induction source with
  | nil => rfl
  | cons card rest ih =>
    rw [readKey, findCardForKey_held, heldEntries]
    cases hheld : heldValue k card with
    | none => exact ih
    | some value => rfl

/-- The actions for one card. -/
def cardActions (floats : Floats F) (copy : Bool) (card : Card) (rest : List Card) :
    List (UpdateAction F) :=
  if (trimEnd card).isEmpty || decide (keywordField card = str "END") ||
      decide (keywordField card = continueKey) then []
  else if isCommentaryKey (keywordField card) then
    if copy then [.appendCommentary (keywordField card) (trimEnd (afterKeyword card))] else []
  else if ((keywordOf card).getD []).isEmpty ||
      isProtectedKey (normalizeKeyword ((keywordOf card).getD [])) then []
  else
    match afterEquals (trimEnd card) with
    | none => []
    | some value =>
      [.setKey ((keywordOf card).getD []) (parseValueWithContinue floats rest value).1
        (some (parseValueWithContinue floats rest value).2)]

theorem headerActions_cons (card : Card) (rest : List Card) :
    headerActions floats copy (card :: rest) =
      cardActions floats copy card rest ++ headerActions floats copy rest := rfl

/-- A commentary field is none that the lookup compares. -/
theorem skipped_of_commentary (h : isCommentaryKey (keywordField card) = true) :
    keywordField card ∈ skippedKeys := (commentary_field h).1

theorem not_skipped (hend : keywordField card ≠ str "END") (hcont : keywordField card ≠ continueKey)
    (hcom : ¬isCommentaryKey (keywordField card) = true) : keywordField card ∉ skippedKeys := by
  simp only [isCommentaryKey, Bool.or_eq_true, decide_eq_true_eq, List.isEmpty_iff, not_or] at hcom
  simp [skippedKeys, hend, hcont, hcom]

/-- A card that holds a key gives it an entry. -/
theorem cardActions_held (hk : IsCopied k) (h : heldValue k card = some value) :
    ∃ kw, normalizeKeyword kw = k ∧ cardActions floats copy card rest =
      [.setKey kw (parseValueWithContinue floats rest value).1
        (some (parseValueWithContinue floats rest value).2)] := by
  have hsome : (heldValue k card).isSome = true := by rw [h, Option.isSome_some]
  obtain ⟨hne, hskip, hnormal, -⟩ := heldValue_isSome.1 hsome
  have hcom : isCommentaryKey (keywordField card) ≠ true := fun h => hskip (skipped_of_commentary h)
  have hend : keywordField card ≠ str "END" := fun h => hskip (h ▸ by decide)
  have hcont : keywordField card ≠ continueKey := fun h => hskip (h ▸ by decide)
  obtain ⟨kw, hkw, hkey⟩ := Option.map_eq_some_iff.1 (cardKey_of_held hk.ne_nil hsome)
  have hnonempty : kw.isEmpty = false := by
    rw [Bool.eq_false_iff, ne_eq, List.isEmpty_iff]
    rintro rfl
    exact hk.ne_nil (hkey.symm.trans (by decide))
  refine ⟨kw, hkey, ?_⟩
  unfold cardActions
  rw [hkw, Option.getD_some, hkey, hk.1, hnonempty, heldValue_eq h, List.isEmpty_eq_false_iff.2 hne,
    decide_eq_false hend, decide_eq_false hcont, if_neg hcom]
  rfl

/-- An entry of a key comes from a card that holds it. -/
theorem cardActions_not_held (hlong : k ≠ hierarchKey) (h : heldValue k card = none) :
    (cardActions floats copy card rest).filterMap (UpdateAction.entryOf k) = [] := by
  unfold cardActions
  split_ifs with hnone hcom hcopy hkeyword
  · rfl
  · rfl
  · rfl
  · rfl
  · cases hafter : afterEquals (trimEnd card) with
    | none => rfl
    | some value =>
      have hother : normalizeKeyword ((keywordOf card).getD []) ≠ k := by
        intro hkey
        have hsome : (heldValue k card).isSome = true := by
          simp only [Bool.or_eq_true, decide_eq_true_eq, List.isEmpty_iff, not_or] at hnone
          refine heldValue_isSome.2 ⟨hnone.1.1, not_skipped hnone.1.2 hnone.2 hcom,
            ?_, by simp [hafter]⟩
          rcases keywordOf_cases card with ⟨hnil, -⟩ | ⟨-, -, -, hkw⟩ | ⟨-, -, -, -,
            hkw⟩ | ⟨-, -, hsame, hkw⟩
          · exact absurd hnil hnone.1.1
          · -- the keyword is HIERARCH itself
            rw [hkw] at hkey
            exact absurd (hkey.symm.trans (by decide)) hlong
          · rw [hkw] at hkey
            exact hkey
          · rw [hkw] at hkey
            rw [hsame]
            exact hkey
        rw [h] at hsome
        exact Bool.noConfusion hsome
      simp [UpdateAction.entryOf, hother]

/-- One card gives the entries that it holds. -/
theorem cardActions_entries (hk : IsCopied k) (hlong : k ≠ hierarchKey) (card : Card)
    (rest : List Card) :
    (cardActions floats copy card rest).filterMap (UpdateAction.entryOf k) =
      ((heldValue k card).map fun value => parseValueWithContinue floats rest value).toList := by
  cases hheld : heldValue k card with
  | none => exact cardActions_not_held hlong hheld
  | some value =>
    obtain ⟨kw, hkey, hactions⟩ := @cardActions_held F floats k value card rest copy hk hheld
    rw [hactions]
    simp [UpdateAction.entryOf, hkey]

theorem headerActions_entries (hk : IsCopied k) (hlong : k ≠ hierarchKey) (source : List Card) :
    (headerActions floats copy source).filterMap (UpdateAction.entryOf k) =
      heldEntries floats k source := by
  induction source with
  | nil => rfl
  | cons card rest ih =>
    rw [headerActions_cons, List.filterMap_append, ih, cardActions_entries hk hlong, heldEntries]

end

/-! ## The value that is written last -/

section

variable {F : Type} (floats : Floats F)

/-- The cards of the entry are read back as its value and comment.  A string that ends in
blanks is not. -/
def EntryFits (key : Str) (value : HeaderValue F) (comment : Str) (cards : List Card) : Prop :=
  match value with
  | .string s => trimEnd s = s ∧ StringFits floats key s comment cards
  | .undefined => False
  | value => NumberFits floats key value comment cards

/-- No card of the entry is cut. -/
def IsUncut {F : Type} (key : Str) (value : HeaderValue F) (comment : Str)
    (cards : List Card) : Prop :=
  match value with
  | .string s => trimEnd s = s ∧ HasRoom (storedKeyword cards key) s comment
  | _ => True

/-- The last one of the actions that gives `k` a value, and the cards it is given. -/
structure LastEntry (actions : List (UpdateAction F)) (cards : List Card) (k : Str) (key : Str)
    (value : HeaderValue F) (comment : Str) (reached : List Card) : Prop where
  lookup : normalizeKeyword key = k
  split : ∃ done rest, actions = done ++ .setKey key value (some comment) :: rest ∧
    done.forM (UpdateAction.apply floats) cards = .ok ⟨⟩ reached ∧ ∀ a ∈ rest, a.entryOf k = none

end

section

variable {F : Type} {floats : Floats F} {k key comment : Str} {value : HeaderValue F}
  {cards cards' reached source : List Card} {actions : List (UpdateAction F)} {copy : Bool}

/-- A value that was read from a card. -/
theorem parse_inI64 {following : List Card} {v : Str} {n : Int}
    (h : (parseValueWithContinue floats following v).1 = .integer n) : InI64 n := by
  unfold parseValueWithContinue at h
  dsimp only at h
  split_ifs at h
  cases hcomplex : parseFitsComplex floats (splitValueComment v).1 with
  | some z =>
    rw [hcomplex] at h
    cases h
  | none =>
    rw [hcomplex] at h
    cases hint : parseI64 (splitValueComment v).1 with
    | some m =>
      rw [hint] at h
      cases h
      exact inI64_of_parseI64 hint
    | none =>
      rw [hint] at h
      cases hfloat : parseFitsFloat floats (splitValueComment v).1 with
      | some x =>
        rw [hfloat] at h
        cases h
      | none =>
        rw [hfloat] at h
        cases h

/-- What is read after one entry. -/
theorem readKey_entry (hprints : PrintsShortest floats) (hk : IsCopied (normalizeKeyword key))
    (hset : Settable (normalizeKeyword key)) (hint : ∀ n, value = .integer n → InI64 n)
    (h : applySetitem floats key value (some comment) cards = .ok () cards') :
    (EntryFits floats key value comment cards →
      readKey floats cards' (normalizeKeyword key) = some (value, comment)) ∧
    (IsUncut key value comment cards →
      readKey floats cards' (normalizeKeyword key) = some (value, comment) →
        EntryFits floats key value comment cards) := by
  have hcom : isCommentaryKey (normalizeKeyword key) ≠ true := by
    rw [hk.2]
    exact Bool.false_ne_true
  have hnumber : IsNumber value →
      (readKey floats cards' (normalizeKeyword key) = some (value, comment) ↔
      NumberFits floats key value comment cards) :=
    fun hnumber => applySetitem_keeps_iff hprints hnumber hset hcom h
  cases value with
  | string s =>
    obtain ⟨hvalid, newCards, hbuild, rfl⟩ := applySetitem_ok h
    have hiff := readKey_setString_iff hvalid hset hcom hbuild
    constructor
    · rintro ⟨htrim, hfits⟩
      have hread := (hiff hfits.room).2 hfits
      rwa [htrim] at hread
    · rintro ⟨htrim, hroom⟩ hread
      refine ⟨htrim, (hiff hroom).1 ?_⟩
      rwa [htrim]
  | undefined =>
    obtain ⟨-, newCards, hbuild, -⟩ := applySetitem_ok h
    exact (buildCardFromValue_ok_iff.1 ⟨newCards, hbuild⟩).elim
  | integer n => exact ⟨(hnumber (hint n rfl)).2, fun _ => (hnumber (hint n rfl)).1⟩
  | logical b => exact ⟨(hnumber trivial).2, fun _ => (hnumber trivial).1⟩
  | complex re im => exact ⟨(hnumber trivial).2, fun _ => (hnumber trivial).1⟩
  | real x => exact ⟨(hnumber trivial).2, fun _ => (hnumber trivial).1⟩

/-- Once all actions are applied, a key reads as its last entry has left it. -/
theorem readKey_last (hk : IsCopied k) (hallowed : ∀ a ∈ actions, a.Allowed)
    (hrun : actions.forM (UpdateAction.apply floats) cards = .ok ⟨⟩ cards')
    (hlast : LastEntry floats actions cards k key value comment reached) :
    ∃ written, applySetitem floats key value (some comment) reached = .ok () written ∧
      readKey floats cards' k = readKey floats written k := by
  obtain ⟨done, rest, rfl, hdone, hother⟩ := hlast.split
  obtain ⟨reached', hdone', hrest⟩ := Batch.forM_append_ok_iff.1 hrun
  rw [hdone] at hdone'
  cases hdone'
  rw [Batch.forM_cons_eq] at hrest
  cases hstep : UpdateAction.apply floats (.setKey key value (some comment)) reached with
  | error e t =>
    rw [hstep] at hrest
    cases hrest
  | ok u written =>
    rw [hstep] at hrest
    refine ⟨written, hstep, ?_⟩
    refine Batch.forM_frame (R := fun cards => readKey floats cards k) (fun a ha s s' h => ?_) hrest
    have ha' : a.Allowed := hallowed a (by simp [ha])
    refine readKey_apply hk.ne_nil ha' ?_ h
    have hnone := hother a ha
    cases a with
    | setKey key' value' comment' =>
      intro hkey
      rw [UpdateAction.key] at hkey
      rw [UpdateAction.entryOf, if_pos hkey] at hnone
      cases hnone
    | appendCommentary keyword text =>
      rintro rfl
      exact Bool.noConfusion (hk.2.symm.trans ha')

/-- What the entries of a header look like. -/
def UpdateAction.IsRead : UpdateAction F → Prop
  | .setKey key value comment =>
    trim key = key ∧ comment.isSome = true ∧ ∀ n, value = .integer n → InI64 n
  | .appendCommentary _ _ => True

theorem headerActions_read (source : List Card) :
    ∀ a ∈ headerActions floats copy source, a.IsRead := by
  induction source with
  | nil => simp [headerActions]
  | cons card rest ih =>
    rw [headerActions_cons]
    intro a ha
    rcases List.mem_append.1 ha with ha | ha
    · unfold cardActions at ha
      split_ifs at ha with hnone hcom hcopy hkeyword
      · cases ha
      · rw [List.mem_singleton.1 ha]
        trivial
      · cases ha
      · cases ha
      · cases hafter : afterEquals (trimEnd card) with
        | none =>
          rw [hafter] at ha
          cases ha
        | some value =>
          rw [hafter] at ha
          rw [List.mem_singleton.1 ha]
          refine ⟨?_, rfl, fun n hn => parse_inI64 hn⟩
          cases hkw : keywordOf card with
          | none => rfl
          | some kw => exact keywordOf_trim hkw
    · exact ih a ha

/-- A key that is read has an action. -/
theorem exists_action (hk : IsCopied k) (h : heldEntries floats k source ≠ []) :
    ∃ kw value comment, .setKey kw value comment ∈ headerActions floats copy source ∧
      normalizeKeyword kw = k := by
  induction source with
  | nil => exact absurd rfl h
  | cons card rest ih =>
    rw [headerActions_cons]
    cases hheld : heldValue k card with
    | none =>
      rw [heldEntries, hheld] at h
      obtain ⟨kw, value, comment, hmem, hkey⟩ := ih h
      exact ⟨kw, value, comment, List.mem_append_right _ hmem, hkey⟩
    | some value =>
      obtain ⟨kw, hkey, hactions⟩ := @cardActions_held F floats k value card rest copy hk hheld
      rw [hactions]
      exact ⟨kw, _, _, List.mem_append_left _ (List.mem_singleton.2 rfl), hkey⟩

/-- The writer refuses HIERARCH as a keyword. -/
theorem validateKeyword_hierarch (htrim : trim key = key) (h : normalizeKeyword key = hierarchKey) :
    validateKeyword key ≠ .ok () := by
  unfold normalizeKeyword at h
  rw [htrim] at h
  split_ifs at h with hlong
  · have hcol := isHierarchKey_collapse (htrim.symm ▸ hlong)
    rw [htrim, ← isHierarchKey_upper, h] at hcol
    exact absurd hcol (by decide)
  · unfold validateKeyword
    rw [if_pos h]
    split_ifs
    · exact fun h => by cases h
    · exact fun h => by cases h

/-- The comment of an entry is given, so what the target holds does not matter. -/
theorem IsRead.accepted {action : UpdateAction F} (h : action.IsRead) (cards cards' : List Card) :
    action.Accepted floats cards ↔ action.Accepted floats cards' := by
  cases action with
  | appendCommentary keyword text => exact Iff.rfl
  | setKey key value comment =>
    obtain ⟨text, rfl⟩ := Option.isSome_iff_exists.1 h.2.1
    exact Iff.rfl

/-- The update of a header succeeds when no entry is refused. -/
theorem headerActions_run (source cards : List Card) :
    (∃ cards', (headerActions floats copy source).forM (UpdateAction.apply floats) cards =
      .ok ⟨⟩ cards') ↔
      ∀ a ∈ headerActions floats copy source, a.Accepted floats cards := by
  apply Batch.forM_ok_iff
  intro a ha reached
  rw [IsRead.accepted (headerActions_read source a ha) cards reached]
  exact apply_ok_iff a reached

/-- A key that is read from the source has a last entry. -/
theorem exists_lastEntry (hk : IsCopied k)
    (hrun : (headerActions floats copy source).forM (UpdateAction.apply floats) cards =
      .ok ⟨⟩ cards')
    (h : (heldEntries floats k source).getLast? = some (value, comment)) :
    ∃ key reached, LastEntry floats (headerActions floats copy source) cards k key value
      comment reached := by
  have hlong : k ≠ hierarchKey := by
    rintro rfl
    have hne : heldEntries floats hierarchKey source ≠ [] := by
      intro hnil
      rw [hnil] at h
      cases h
    obtain ⟨kw, value, comment, hmem, hkey⟩ := @exists_action F floats _ source copy hk hne
    have haccepted := (headerActions_run source cards).1 ⟨_, hrun⟩ _ hmem
    exact validateKeyword_hierarch (headerActions_read source _ hmem).1 hkey haccepted.1
  obtain ⟨front, hfront⟩ := List.getLast?_eq_some_iff.1 h
  rw [← @headerActions_entries F floats k copy hk hlong source] at hfront
  obtain ⟨done, tail, hsplit, -, htail⟩ := List.filterMap_eq_append_iff.1 hfront
  obtain ⟨skipped, a, rest, rfl, hskipped, ha, hrest⟩ := List.filterMap_eq_cons_iff.1 htail
  have hmem : a ∈ headerActions floats copy source := by
    rw [hsplit]
    simp
  rw [← List.append_assoc] at hsplit
  rw [hsplit] at hrun
  obtain ⟨reached, hdone, -⟩ := Batch.forM_append_ok_iff.1 hrun
  cases a with
  | appendCommentary keyword text => cases ha
  | setKey key value' comment' =>
    obtain ⟨text, rfl⟩ := Option.isSome_iff_exists.1 (headerActions_read source _ hmem).2.1
    rw [UpdateAction.entryOf] at ha
    split_ifs at ha with hkey
    cases ha
    exact ⟨key, reached, hkey, _, rest, hsplit, hdone, List.filterMap_eq_nil_iff.1 hrest⟩

end

/-! ## The entries of a source -/

section

variable {F : Type} (floats : Floats F) (copy : Bool)

/-- The entries of a source, in their order. -/
def UpdateSource.entries : UpdateSource F → List (UpdateAction F)
  | .header held => headerActions floats copy held
  | .mapping items => items.map fun item => .setKey item.1 item.2.1 item.2.2

/-- The entries turn one card list into the other, each applied to what the ones in front of
it have left. -/
inductive AppliedInOrder : List (UpdateAction F) → List Card → List Card → Prop where
  | nil (cards : List Card) : AppliedInOrder [] cards cards
  | cons (a : UpdateAction F) (rest : List (UpdateAction F)) (cards next cards' : List Card)
      (hstep : a.apply floats cards = .ok () next) (hrest : AppliedInOrder rest next cards') :
      AppliedInOrder (a :: rest) cards cards'

end

section

variable {F : Type} {floats : Floats F} {source : UpdateSource F} {copy : Bool}
  {cards cards' : List Card} {actions : List (UpdateAction F)}

theorem appliedInOrder_of_run
    (hrun : actions.forM (UpdateAction.apply floats) cards = .ok ⟨⟩ cards') :
    AppliedInOrder floats actions cards cards' := by
  induction actions generalizing cards with
  | nil =>
    cases hrun
    exact .nil _
  | cons a rest ih =>
    rw [Batch.forM_cons_eq] at hrun
    cases hstep : a.apply floats cards with
    | error e t =>
      rw [hstep] at hrun
      cases hrun
    | ok u next =>
      rw [hstep] at hrun
      exact .cons a rest cards next cards' hstep (ih hrun)

theorem mappingActions_eq {items : List (Str × HeaderValue F × Option Str)}
    (h : mappingActions items = .ok actions) :
    actions = items.map (fun item => .setKey item.1 item.2.1 item.2.2) ∧
      ∀ item ∈ items, Settable (normalizeKeyword item.1) := by
  induction items generalizing actions with
  | nil =>
    cases h
    simp
  | cons item items ih =>
    rw [mappingActions] at h
    split_ifs at h with hcom hprot
    cases hrest : mappingActions items with
    | error e =>
      rw [hrest] at h
      cases h
    | ok rest =>
      rw [hrest] at h
      cases h
      rw [(ih hrest).1, List.map_cons, List.forall_mem_cons]
      exact ⟨rfl, settable_of_checks hcom hprot, (ih hrest).2⟩

/-- What is collected are the entries of the source. -/
theorem entries_of_collect (h : collectUpdateActions floats source copy = .ok actions) :
    actions = source.entries floats copy ∧ ∀ items, source = .mapping items →
      ∀ a ∈ actions, ∃ key value comment,
        a = .setKey key value comment ∧ Settable (normalizeKeyword key) := by
  cases source with
  | header held =>
    cases h
    exact ⟨rfl, fun items heq => by cases heq⟩
  | mapping items =>
    obtain ⟨rfl, hset⟩ := mappingActions_eq h
    refine ⟨rfl, fun _ _ a ha => ?_⟩
    obtain ⟨item, hitem, rfl⟩ := List.mem_map.1 ha
    exact ⟨item.1, item.2.1, item.2.2, rfl, hset item hitem⟩

end

/-! ## The two views -/

section

variable {s : Fits} {idx : Nat} {h : Hdu}

/-- The rewrite of a header does not fail, and keeps all HDUs. -/
theorem rewriteHeaderToDisk_ok (cards : List Card) (hdu : s.hdus[idx]? = some h) :
    ∃ s', rewriteHeaderToDisk idx cards s = .ok () s' ∧ s'.hdus.length = s.hdus.length := by
  unfold rewriteHeaderToDisk
  rw [FileOp.get_bind, hdu]
  dsimp only
  by_cases hgrow : h.offsets.headerBlockCount * cardsPerBlock < cards.length
  · rw [if_pos hgrow]
    have hdelta : 0 < (headerBlocks cards.length - h.offsets.headerBlockCount) * blockSize := by
      rw [headerBlocks_eq]
      unfold cardsPerBlock blockSize cardSize at *
      omega
    refine ⟨_, FileOp.bind_ok (shiftFileTail_run hdelta), ?_⟩
    simp
  · rw [if_neg hgrow]
    exact ⟨_, rfl, rfl⟩

/-- The new cards reach the file. -/
theorem rewriteAndCommit_ok (cards : List Card) (hdu : s.hdus[idx]? = some h) :
    ∃ s', rewriteAndCommit idx cards s = .ok () s' ∧ s'.hdus[idx]?.map Hdu.cards = some cards := by
  obtain ⟨s', hrun, hlen⟩ := rewriteHeaderToDisk_ok cards hdu
  have hlt : idx < s'.hdus.length := by
    rw [hlen]
    exact (List.getElem?_eq_some_iff.1 hdu).1
  refine ⟨_, FileOp.bind_ok hrun, ?_⟩
  simp [hlt]

variable {F : Type} (floats : Floats F) (source : UpdateSource F) (copy : Bool)

/-- An update, step by step. -/
theorem update_run (cards : List Card) :
    (HeaderMethod.update source copy).run floats cards =
      match collectUpdateActions floats source copy with
      | .error e => .error e cards
      | .ok actions =>
        match actions.forM (UpdateAction.apply floats) cards with
        | .ok _ cards' => .ok (!actions.isEmpty) cards'
        | .error e cards' => .error e cards' := by
  unfold HeaderMethod.run
  dsimp only
  cases collectUpdateActions floats source copy with
  | error e => rfl
  | ok actions =>
    show EStateM.bind (actions.forM (UpdateAction.apply floats))
      (fun _ => pure !actions.isEmpty) cards = _
    rw [EStateM.bind]
    dsimp only
    cases actions.forM (UpdateAction.apply floats) cards <;> rfl

/-- An update through the header view applies every entry of the source in order, or leaves
everything as it was. -/
def UpdatesWhole (idx : Nat) (s : Fits) : Prop :=
  match headerCall floats idx (.update source copy) s with
  | .error _ s' => s' = s
  | .ok _ s' => ∃ h cards', s.hdus[idx]? = some h ∧
      AppliedInOrder floats (source.entries floats copy) h.cards cards' ∧
      s'.hdus[idx]?.map Hdu.cards = some cards'

theorem updatesWhole (idx : Nat) (s : Fits) : UpdatesWhole floats source copy idx s := by
  unfold UpdatesWhole headerCall
  rw [FileOp.get_bind]
  cases hdu : s.hdus[idx]? with
  | none => rfl
  | some h =>
    dsimp only
    rw [update_run]
    cases hactions : collectUpdateActions floats source copy with
    | error e => rfl
    | ok actions =>
      dsimp only
      cases hrun : actions.forM (UpdateAction.apply floats) h.cards with
      | error e cards => rfl
      | ok u cards =>
        dsimp only
        cases hempty : actions.isEmpty with
        | true =>
          rw [List.isEmpty_iff.1 hempty] at hrun
          cases hrun
          have hentries := (entries_of_collect hactions).1
          rw [List.isEmpty_iff.1 hempty] at hentries
          refine ⟨h, h.cards, rfl, ?_, by rw [hdu]; rfl⟩
          rw [← hentries]
          exact .nil h.cards
        | false =>
          obtain ⟨s', hok, hcards⟩ := rewriteAndCommit_ok cards hdu
          rw [Bool.not_false]
          dsimp only
          rw [hok]
          refine ⟨h, cards, rfl, ?_, hcards⟩
          rw [← (entries_of_collect hactions).1]
          exact appliedInOrder_of_run hrun

end

/-! ## When an update is right -/

section

variable {F : Type} (floats : Floats F) (source : UpdateSource F) (copy : Bool) (cards : List Card)

/-- What is expected of an update of staged cards: it applies every entry in order or leaves
the cards as they were, and that of a header is done and copies every key. -/
structure UpdatesRight : Prop where
  whole : ∀ e cards', (HeaderMethod.update source copy).run floats cards = .error e cards' →
    cards' = cards
  applied : ∀ changed cards', (HeaderMethod.update source copy).run floats cards =
    .ok changed cards' →
    AppliedInOrder floats (source.entries floats copy) cards cards'
  copies : ∀ held, source = .header held →
    ∃ changed cards', (HeaderMethod.update source copy).run floats cards = .ok changed cards' ∧
      ∀ k shown, IsCopied k → readKey floats held k = some shown →
      readKey floats cards' k = some shown

/-- When it is.  Each entry of a mapping is taken, or the ones in front of it repeat what is
there.  No entry of a header is refused, and a key has the same value on its first and on its
last card, which is written as it is read. -/
structure UpdateFits : Prop where
  staged : ∀ items entries, source = .mapping items → mappingActions items = .ok entries →
    TakenOrRepeats floats cards entries
  accepted : ∀ held, source = .header held → ∀ a ∈ headerActions floats copy held,
  a.Accepted floats cards
  copied : ∀ held k, source = .header held → IsCopied k →
    (heldEntries floats k held).head? = (heldEntries floats k held).getLast? ∧
      ∀ key value comment reached,
        LastEntry floats (headerActions floats copy held) cards k key value comment reached →
          EntryFits floats key value comment reached

/-- A mapping names no key twice and no continuation, and no key of a header has two values
while the last of them is misread too. -/
structure DefectsApart : Prop where
  keys : ∀ items entries, source = .mapping items → mappingActions items = .ok entries →
    KeysApart entries
  values : ∀ held k key value comment reached, source = .header held → IsCopied k →
    LastEntry floats (headerActions floats copy held) cards k key value comment reached →
      (heldEntries floats k held).head? = some (value, comment) ∧
        IsUncut key value comment reached ∨
        EntryFits floats key value comment reached

end

section

variable {F : Type} {floats : Floats F} {source : UpdateSource F} {copy : Bool} {cards : List Card}

theorem update_run_ok {changed : Bool} {cards' : List Card}
    (h : (HeaderMethod.update source copy).run floats cards = .ok changed cards') :
    ∃ actions, collectUpdateActions floats source copy = .ok actions ∧
      actions.forM (UpdateAction.apply floats) cards = .ok ⟨⟩ cards' := by
  rw [update_run] at h
  cases hactions : collectUpdateActions floats source copy with
  | error e =>
    rw [hactions] at h
    cases h
  | ok actions =>
    rw [hactions] at h
    dsimp only at h
    cases hrun : actions.forM (UpdateAction.apply floats) cards with
    | error e cards =>
      rw [hrun] at h
      cases h
    | ok u cards =>
      rw [hrun] at h
      cases h
      exact ⟨actions, rfl, hrun⟩

theorem update_applied {changed : Bool} {cards' : List Card}
    (h : (HeaderMethod.update source copy).run floats cards = .ok changed cards') :
    AppliedInOrder floats (source.entries floats copy) cards cards' := by
  obtain ⟨actions, hactions, hrun⟩ := update_run_ok h
  rw [← (entries_of_collect hactions).1]
  exact appliedInOrder_of_run hrun

/-- The staged cards, all or nothing. -/
theorem update_whole_iff :
    (∀ e cards', (HeaderMethod.update source copy).run floats cards = .error e cards' →
      cards' = cards) ↔
      ∀ actions, collectUpdateActions floats source copy = .ok actions →
        Batch.KeptInFront (UpdateAction.apply floats) actions cards := by
  cases hactions : collectUpdateActions floats source copy with
  | error e =>
    refine iff_of_true (fun e' cards' h => ?_) (fun actions h => by cases h)
    rw [update_run, hactions] at h
    cases h
    rfl
  | ok actions =>
    have hrun : (HeaderMethod.update source copy).run floats cards =
        match actions.forM (UpdateAction.apply floats) cards with
        | .ok _ cards' => .ok (!actions.isEmpty) cards'
        | .error e cards' => .error e cards' := by
      rw [update_run, hactions]
    have hwhole := @Batch.wholeOrNothing_iff _ _ _ _ actions cards (@apply_keepsOnError F floats)
    constructor
    · intro h actions' hsame
      cases hsame
      rw [← hwhole]
      intro e cards' herror
      refine h e cards' ?_
      rw [hrun, herror]
    · intro h e cards' herror
      refine hwhole.2 (h actions rfl) e cards' ?_
      rw [hrun] at herror
      cases hforM : actions.forM (UpdateAction.apply floats) cards with
      | ok u t =>
        rw [hforM] at herror
        cases herror
      | error e' t =>
        rw [hforM] at herror
        cases herror
        rfl

/-- The last entry is that of the last card. -/
theorem LastEntry.getLast {held cards' reached : List Card} {k key comment : Str}
    {value : HeaderValue F} (hk : IsCopied k)
    (hrun : (headerActions floats copy held).forM (UpdateAction.apply floats) cards = .ok ⟨⟩ cards')
    (h : LastEntry floats (headerActions floats copy held) cards k key value comment reached) :
    (heldEntries floats k held).getLast? = some (value, comment) := by
  obtain ⟨done, rest, hsplit, -, hother⟩ := h.split
  have hmem : UpdateAction.setKey key value (some comment) ∈ headerActions floats copy held := by
    rw [hsplit]
    simp
  have hlong : k ≠ hierarchKey := by
    intro heq
    have haccepted := (headerActions_run held cards).1 ⟨_, hrun⟩ _ hmem
    exact validateKeyword_hierarch (headerActions_read held _ hmem).1
      (h.lookup.trans heq) haccepted.1
  have hentry : (UpdateAction.setKey key value (some comment)).entryOf k =
      some (value, comment) := by
    rw [UpdateAction.entryOf, if_pos h.lookup, Option.getD_some]
  rw [← @headerActions_entries F floats k copy hk hlong held, hsplit, List.filterMap_append,
    List.filterMap_cons_some hentry, List.filterMap_eq_nil_iff.2 hother, List.getLast?_concat]

/-- The key of a last entry, as it is read after the update. -/
theorem LastEntry.readKey {held cards' reached : List Card} {k key comment : Str}
    {value : HeaderValue F} (hprints : PrintsShortest floats) (hk : IsCopied k)
    (hrun : (headerActions floats copy held).forM (UpdateAction.apply floats) cards = .ok ⟨⟩ cards')
    (h : LastEntry floats (headerActions floats copy held) cards k key value comment reached) :
    (EntryFits floats key value comment reached → readKey floats cards' k = some (value, comment)) ∧
    (IsUncut key value comment reached → readKey floats cards' k = some (value, comment) →
      EntryFits floats key value comment reached) := by
  have hallowed := @headerActions_allowed F floats copy held
  obtain ⟨written, hset, hread⟩ := readKey_last hk hallowed hrun h
  obtain ⟨done, rest, hsplit, -, -⟩ := h.split
  have hmem : UpdateAction.setKey key value (some comment) ∈ headerActions floats copy held := by
    rw [hsplit]
    simp
  have hkey := h.lookup
  subst hkey
  rw [hread]
  exact readKey_entry hprints hk (hallowed _ hmem) (headerActions_read held _ hmem).2.2 hset

/-- The entries of a mapping are applied as a whole exactly when they leave nothing behind in
front of a refused one, and those of a header when none is refused. -/
theorem UpdateFits.keptInFront (h : UpdateFits floats source copy cards)
    {actions : List (UpdateAction F)}
    (hcollect : collectUpdateActions floats source copy = .ok actions) :
    Batch.KeptInFront (UpdateAction.apply floats) actions cards := by
  cases source with
  | mapping items =>
    have hset := (entries_of_collect hcollect).2 items rfl
    refine keptInFront_of_takenOrRepeats (fun a ha => ?_) (fun a ha => ?_)
      (h.staged items actions rfl hcollect)
    · obtain ⟨key, value, comment, rfl, hkey⟩ := hset a ha
      exact hkey
    · obtain ⟨key, value, comment, rfl, hkey⟩ := hset a ha
      exact hkey.2
  | header held =>
    cases hcollect
    intro done a rest reached hsplit hdone hfails
    have hmem : a ∈ headerActions floats copy held := by
      rw [hsplit]
      simp
    have haccepted := h.accepted held rfl a hmem
    rw [IsRead.accepted (headerActions_read held a hmem) cards reached] at haccepted
    exact absurd ((apply_ok_iff a reached).2 haccepted) hfails

end

/-- A header with one key. -/
def gainHeader : List Card := [str "GAIN    =                    5 / counts", endCard]

/-- A mapping with a key that the target holds with this value, and a bad one behind it. -/
def gainMapping : List (Str × HeaderValue Decimal × Option Str) :=
  [(str "gain", .integer 1, none), (str "a=b", .integer 2, none)]

end Header

end RustFits
