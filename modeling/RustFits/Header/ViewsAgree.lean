import RustFits.Header.Views

/-!
# The views of a header

`keys`, `header[key]` and `to_dict` are three walks over the cards of a header.

* `mem_uniqueKeysInOrder` says what `keys` lists, `headerGetItem_isOk` what
  `header[key]` finds, card by card.  A card without a value is listed and not found.
* `getItem_parseHeaderDict` is what `to_dict` holds: the last card of a spelling, where
  `header[key]` reads the first card of any spelling.
* `views_agree_iff` is the condition on the cards under which they agree on a key.
-/

namespace RustFits.Header

open Ascii

/-! ## The list of keys -/

/-- The card is listed under a lookup form. -/
def isListed (lookup : Str) (card : Card) : Bool :=
  match keywordOf card with
  | none => false
  | some kw => !unlistedKeys.contains kw && decide (normalizeKeyword kw = lookup)

/-- `keys` lists the key, in some spelling. -/
def Listed (cards : List Card) (key : Str) : Prop :=
  ∃ k ∈ uniqueKeysInOrder cards, normalizeKeyword k = normalizeKeyword key

/-- The card has something that `header[key]` returns. -/
def isShown (lookup : Str) (card : Card) : Bool :=
  if isCommentaryKey lookup then !(trimEnd card).isEmpty && decide (keywordField card = lookup)
  else (heldValue lookup card).isSome

section

variable {cards : List Card} {card : Card} {lookup key : Str}

theorem mem_collectUniqueKeys : ∀ {cards : List Card} {seen : List Str},
    (∃ k ∈ collectUniqueKeys seen cards, normalizeKeyword k = lookup) ↔
      lookup ∉ seen ∧ ∃ card ∈ cards, isListed lookup card = true := by
  intro cards
  induction cards with
  | nil => simp [collectUniqueKeys]
  | cons card rest ih =>
    intro seen
    rw [collectUniqueKeys]
    cases hkw : keywordOf card with
    | none =>
      have hcard : isListed lookup card = false := by rw [isListed, hkw]
      simp only [ih, List.exists_mem_cons_iff, hcard, Bool.false_eq_true, false_or]
    | some kw =>
      dsimp only
      by_cases hskip : unlistedKeys.contains kw = true
      · have hcard : isListed lookup card = false := by simp only [isListed, hkw, hskip]; rfl
        rw [if_pos hskip]
        simp only [ih, List.exists_mem_cons_iff, hcard, Bool.false_eq_true, false_or]
      · have hcard : isListed lookup card = true ↔ normalizeKeyword kw = lookup := by
          simp only [isListed, hkw, Bool.eq_false_iff.2 hskip]
          simp
        rw [if_neg hskip]
        by_cases hseen : seen.contains (normalizeKeyword kw) = true
        · rw [if_pos hseen]
          simp only [ih, List.exists_mem_cons_iff, hcard]
          constructor
          · rintro ⟨hnew, h⟩
            exact ⟨hnew, Or.inr h⟩
          · rintro ⟨hnew, rfl | h⟩
            · exact absurd (List.contains_iff_mem.1 hseen) hnew
            · exact ⟨hnew, h⟩
        · rw [if_neg hseen]
          rw [List.exists_mem_cons_iff, ih, List.exists_mem_cons_iff, hcard, List.mem_cons, not_or]
          constructor
          · rintro (heq | ⟨⟨-, hnew⟩, h⟩)
            · rw [heq] at hseen
              exact ⟨fun hmem => hseen (List.contains_iff_mem.2 hmem), Or.inl heq⟩
            · exact ⟨hnew, Or.inr h⟩
          · rintro ⟨hnew, h⟩
            by_cases heq : normalizeKeyword kw = lookup
            · exact Or.inl heq
            · exact Or.inr ⟨⟨Ne.symm heq, hnew⟩, h.resolve_left heq⟩

/-- `keys` lists the keywords of the cards. -/
theorem listed_iff :
    Listed cards key ↔ ∃ card ∈ cards, isListed (normalizeKeyword key) card = true := by
  rw [Listed, uniqueKeysInOrder, mem_collectUniqueKeys]
  simp

/-! ## What the lookup finds -/

/-- A card whose keyword field is blank has text behind it. -/
theorem blank_length (hfield : keywordField card = []) :
    8 < (trimEnd card).length ↔ trimEnd card ≠ [] := by
  constructor
  · rintro hlen hnil
    rw [hnil] at hlen
    exact absurd hlen (by decide)
  · intro hne
    by_contra hshort
    rw [keywordField, List.take_of_length_le (by omega)] at hfield
    have hlast := mem_trim_of_not_white (List.getLast_mem hne) (trimEnd_last hne)
    rw [hfield] at hlast
    cases hlast

/-- The texts of a commentary key come from the cards that show it. -/
theorem commentaryTexts_ne_nil (hkey : isCommentaryKey key = true) :
    commentaryTexts cards key ≠ [] ↔ ∃ card ∈ cards, isShown key card = true := by
  rw [commentaryTexts, ne_eq]
  by_cases hnil : key = []
  · rw [hnil, List.isEmpty_nil, if_pos rfl, collectBlankCommentaryTexts, List.filterMap_eq_nil_iff]
    push Not
    refine exists_congr fun card => and_congr_right fun _ => ?_
    rw [isShown, if_pos (show isCommentaryKey [] = true from rfl)]
    dsimp only
    have hlen := @blank_length card
    rw [keywordField] at hlen ⊢
    by_cases hfield : trim ((trimEnd card).take 8) = []
    · simp [hfield, hlen hfield]
    · simp [hfield]
  · rw [List.isEmpty_eq_false_iff.2 hnil, if_neg Bool.false_ne_true, collectCommentaryTexts,
      List.filterMap_eq_nil_iff]
    push Not
    refine exists_congr fun card => and_congr_right fun _ => ?_
    rw [isShown, if_pos hkey, keywordField]
    dsimp only
    split_ifs with hcard
    · simp [hcard]
    · simp [hcard]

theorem firstHolder_isSome : (firstHolder key cards).isSome = true ↔
    ∃ card ∈ cards, (heldValue key card).isSome = true := by
  cases hholder : firstHolder key cards with
  | none =>
    refine iff_of_false (by simp) ?_
    rintro ⟨card, hcard, hheld⟩
    rw [firstHolder_none hholder card hcard] at hheld
    exact Bool.noConfusion hheld
  | some found =>
    obtain ⟨front, hcards, hheld, -⟩ := @firstHolder_some _ found.1 _ found.2 hholder
    exact iff_of_true rfl ⟨found.1, by rw [hcards]; simp, hheld⟩

end

section

variable {F : Type} (floats : Floats F)

/-- `header[key]` does not raise a `KeyError`. -/
def HasKey (cards : List Card) (key : Str) : Prop :=
  ¬∃ msg, headerGetItem floats cards key = .error (.key msg)

variable {floats} {cards : List Card} {card : Card} {key lookup : Str}

theorem readKey_eq : readKey floats cards key = (firstHolder key cards).bind fun found =>
    (heldValue key found.1).map fun value => parseValueWithContinue floats found.2 value := by
  rw [readKey, findCardForKey_eq, Option.map_bind]
  congr 1
  funext found
  rw [Function.comp_apply, Option.map_map]
  rfl

theorem readKey_isSome : (readKey floats cards key).isSome = (firstHolder key cards).isSome := by
  rw [readKey_eq]
  cases hholder : firstHolder key cards with
  | none => rfl
  | some found =>
    obtain ⟨-, -, hheld, -⟩ := @firstHolder_some _ found.1 _ found.2 hholder
    obtain ⟨v, hv⟩ := Option.isSome_iff_exists.1 hheld
    rw [Option.bind_some, hv]
    rfl

/-- `header[key]` returns something when a card shows it. -/
theorem hasKey_iff : HasKey floats cards key ↔
    ∃ card ∈ cards, isShown (normalizeKeyword key) card = true := by
  unfold HasKey headerGetItem
  dsimp only
  by_cases hkey : isCommentaryKey (normalizeKeyword key) = true
  · rw [if_pos hkey, ← commentaryTexts_ne_nil hkey]
    cases htexts : commentaryTexts cards (normalizeKeyword key) with
    | nil => simp [notInHeader]
    | cons text texts => simp
  · simp only [isShown, if_neg hkey]
    rw [← firstHolder_isSome, ← @readKey_isSome F floats]
    cases readKey floats cards (normalizeKeyword key) with
    | none => simp [notInHeader]
    | some found => simp

end

/-! ## Cards that only one of the two sees -/

/-- A card that is listed and has nothing to return: without an equals sign, a HIERARCH card
without a keyword behind, or a commentary keyword in another spelling. -/
def isValueless (lookup : Str) (card : Card) : Bool :=
  isListed lookup card &&
    if isCommentaryKey lookup then decide (keywordField card ≠ lookup)
    else (afterEquals (trimEnd card)).isNone || decide (lookupKeyword card = [])

/-- A HIERARCH card whose keyword is END or CONTINUE: it is returned and not listed. -/
def isHidden (lookup : Str) (card : Card) : Bool :=
  decide (keywordField card = hierarchKey) && (afterEquals (trimEnd card)).isSome &&
    decide (lookupKeyword card = lookup) && unlistedKeys.contains lookup

section

variable {cards : List Card} {card : Card} {lookup : Str}

theorem normalizeKeyword_skipped {k : Str} (hk : k ∈ hierarchKey :: skippedKeys) :
    normalizeKeyword k = k := by
  have hall : ∀ k ∈ hierarchKey :: skippedKeys, normalizeKeyword k = k := by decide
  exact hall k hk

/-- The keyword of a card in the words of the lookup. -/
theorem keywordOf_cases (card : Card) :
    (trimEnd card = [] ∧ keywordOf card = none) ∨
    (trimEnd card ≠ [] ∧ keywordField card = hierarchKey ∧
      ((afterEquals (trimEnd card)).isNone = true ∨ lookupKeyword card = []) ∧
        keywordOf card = some hierarchKey) ∨
    (trimEnd card ≠ [] ∧ keywordField card = hierarchKey ∧
      (afterEquals (trimEnd card)).isSome = true ∧ lookupKeyword card ≠ [] ∧
        keywordOf card = some (lookupKeyword card)) ∨
    (trimEnd card ≠ [] ∧ keywordField card ≠ hierarchKey ∧ lookupKeyword card = keywordField card ∧
      keywordOf card = some (keywordField card)) := by
  unfold keywordOf lookupKeyword keywordField
  dsimp only
  by_cases hempty : trimEnd card = []
  · simp [hempty]
  · by_cases hfield : trim ((trimEnd card).take 8) = hierarchKey
    · by_cases hlong : trim (((trimEnd card).takeWhile fun b => b != 0x3D).drop 8) = []
      · simp [hempty, hfield, hlong]
      · cases hafter : afterEquals (trimEnd card) with
        | none => simp [hempty, hfield]
        | some value => simp [hempty, hfield, hlong]
    · simp [hempty, hfield]

theorem heldValue_isSome : (heldValue lookup card).isSome = true ↔ trimEnd card ≠ [] ∧
    keywordField card ∉ skippedKeys ∧ normalizeKeyword (lookupKeyword card) = lookup ∧
      (afterEquals (trimEnd card)).isSome = true := by
  rw [heldValue]
  split_ifs with hskip hnormal
  · refine iff_of_false (by simp) fun h => ?_
    rcases Bool.or_eq_true_iff.1 hskip with hempty | hfield
    · exact h.1 (List.isEmpty_iff.1 hempty)
    · exact h.2.1 (List.contains_iff_mem.1 hfield)
  · rw [Bool.or_eq_true_iff, not_or, List.isEmpty_iff, List.contains_iff_mem] at hskip
    exact ⟨fun h => ⟨hskip.1, hskip.2, hnormal, h⟩, fun h => h.2.2.2⟩
  · exact iff_of_false (by simp) fun h => hnormal h.2.2.1

theorem isListed_iff {kw : Str} (hkw : keywordOf card = some kw) :
    isListed lookup card = true ↔ kw ∉ unlistedKeys ∧ normalizeKeyword kw = lookup := by
  rw [isListed, hkw]
  simp

theorem isListed_none (hkw : keywordOf card = none) : isListed lookup card = false := by
  rw [isListed, hkw]

/-- A commentary key: what shows it is listed. -/
theorem isListed_of_commentary (hkey : isCommentaryKey lookup = true)
    (hshown : isShown lookup card = true) :
    isListed lookup card = true := by
  have hfree : ∀ k ∈ [commentKey, historyKey, []], k ≠ hierarchKey ∧ k ∉ unlistedKeys ∧
      k ∈ hierarchKey :: skippedKeys := by decide
  have hmem : lookup ∈ [commentKey, historyKey, []] := by
    simpa [isCommentaryKey, or_assoc] using hkey
  obtain ⟨hlong, hlisted, hskipped⟩ := hfree lookup hmem
  rw [isShown, if_pos hkey, Bool.and_eq_true, decide_eq_true_eq] at hshown
  obtain ⟨hne, rfl⟩ := hshown
  rcases keywordOf_cases card with h | h | h | h
  · rw [h.1] at hne
    exact Bool.noConfusion hne
  · exact absurd h.2.1 hlong
  · exact absurd h.2.1 hlong
  · exact (isListed_iff h.2.2.2).2 ⟨hlisted, normalizeKeyword_skipped hskipped⟩

/-- Only a HIERARCH card of the keyword END or CONTINUE is returned and not listed. -/
theorem isShown_not_listed : (isShown lookup card = true ∧ isListed lookup card = false) ↔
    isHidden lookup card = true := by
  simp only [isHidden, Bool.and_eq_true, decide_eq_true_eq, List.contains_iff_mem]
  have hunlisted : ∀ k ∈ unlistedKeys, isCommentaryKey k = false ∧ k ∈ skippedKeys := by decide
  by_cases hkey : isCommentaryKey lookup = true
  · refine iff_of_false (fun h => ?_) fun h => ?_
    · rw [isListed_of_commentary hkey h.1] at h
      exact Bool.noConfusion h.2
    · rw [(hunlisted lookup h.2).1] at hkey
      exact Bool.noConfusion hkey
  · have hnil : lookup ≠ [] := by
      rintro rfl
      exact hkey rfl
    rw [isShown, if_neg hkey, heldValue_isSome, ← Bool.not_eq_true]
    rcases keywordOf_cases card with h | h | h | h
    · refine iff_of_false (fun hx => hx.1.1 h.1) fun hx => ?_
      rw [keywordField, h.1] at hx
      exact absurd hx.1.1.1 (by decide)
    · refine iff_of_false (fun hx => ?_) fun hx => ?_
      · rcases h.2.2.1 with hvalue | hlong
        · rw [Option.isNone_iff_eq_none.1 hvalue] at hx
          exact Bool.noConfusion hx.1.2.2.2
        · rw [hlong] at hx
          exact hnil hx.1.2.2.1.symm
      · rcases h.2.2.1 with hvalue | hlong
        · rw [Option.isNone_iff_eq_none.1 hvalue] at hx
          exact Bool.noConfusion hx.1.1.2
        · exact hnil (hx.1.2.symm.trans hlong)
    · rw [isListed_iff h.2.2.2.2]
      constructor
      · rintro ⟨⟨-, -, hnormal, hvalue⟩, hnot⟩
        have hmem : lookupKeyword card ∈ unlistedKeys := by
          by_contra hmem
          exact hnot ⟨hmem, hnormal⟩
        have hself := normalizeKeyword_skipped (List.mem_cons_of_mem _ (hunlisted _ hmem).2)
        rw [hself] at hnormal
        exact ⟨⟨⟨h.2.1, hvalue⟩, hnormal⟩, hnormal ▸ hmem⟩
      · rintro ⟨⟨⟨hfield, hvalue⟩, hlong⟩, hmem⟩
        have hself := normalizeKeyword_skipped (List.mem_cons_of_mem _ (hunlisted _ hmem).2)
        refine ⟨⟨h.1, by rw [hfield]; decide, by rw [hlong, hself], hvalue⟩, fun hx => hx.1 ?_⟩
        rw [hlong]
        exact hmem
    · refine iff_of_false (fun hx => hx.2 ((isListed_iff h.2.2.2).2 ⟨fun hmem => ?_, ?_⟩)) ?_
      · exact hx.1.2.1 (hunlisted _ hmem).2
      · rw [← h.2.2.1]
        exact hx.1.2.2.1
      · exact fun hx => h.2.1 hx.1.1.1

/-- A card that is listed and not returned has no value. -/
theorem isListed_not_shown : (isListed lookup card = true ∧ isShown lookup card = false) ↔
    isValueless lookup card = true := by
  rw [isValueless, Bool.and_eq_true]
  refine and_congr_right fun hlisted => ?_
  rw [isShown]
  by_cases hkey : isCommentaryKey lookup = true
  · rw [if_pos hkey, if_pos hkey, Bool.and_eq_false_iff, decide_eq_true_eq, decide_eq_false_iff_not]
    refine ⟨fun h => h.resolve_left fun hempty => ?_, Or.inr⟩
    have hnone : keywordOf card = none := by
      rw [keywordOf, if_pos (by simpa using hempty)]
    rw [isListed_none hnone] at hlisted
    exact Bool.noConfusion hlisted
  · rw [if_neg hkey, if_neg hkey, ← Bool.not_eq_true, heldValue_isSome, Bool.or_eq_true,
      decide_eq_true_eq, Option.isNone_iff_eq_none]
    have hnil : lookup ≠ [] := by
      rintro rfl
      exact hkey rfl
    rcases keywordOf_cases card with h | h | h | h
    · rw [isListed_none h.2] at hlisted
      exact Bool.noConfusion hlisted
    · refine iff_of_true (fun hx => ?_) (h.2.2.1.imp Option.isNone_iff_eq_none.1 id)
      rcases h.2.2.1 with hvalue | hlong
      · rw [Option.isNone_iff_eq_none.1 hvalue] at hx
        exact Bool.noConfusion hx.2.2.2
      · rw [hlong] at hx
        exact hnil hx.2.2.1.symm
    · obtain ⟨hmem, hnormal⟩ := (isListed_iff h.2.2.2.2).1 hlisted
      refine iff_of_false (fun hx => hx ⟨h.1, by rw [h.2.1]; decide, hnormal, h.2.2.1⟩) ?_
      rintro (hvalue | hlong)
      · rw [hvalue] at h
        exact Bool.noConfusion h.2.2.1
      · exact h.2.2.2.1 hlong
    · obtain ⟨hmem, hnormal⟩ := (isListed_iff h.2.2.2).1 hlisted
      have hfield : keywordField card ∉ skippedKeys := by
        intro hskipped
        have hself := normalizeKeyword_skipped (List.mem_cons_of_mem _ hskipped)
        have hcases : ∀ k ∈ skippedKeys, k ∈ unlistedKeys ∨ isCommentaryKey k = true := by decide
        rcases hcases _ hskipped with h' | h'
        · exact hmem h'
        · exact hkey (hnormal ▸ hself.symm ▸ h')
      constructor
      · intro hx
        left
        by_contra hvalue
        exact hx ⟨h.1, hfield, by rw [h.2.2.1]; exact hnormal, Option.isSome_iff_ne_none.2 hvalue⟩
      · rintro (hvalue | hlong) hx
        · rw [hvalue] at hx
          exact Bool.noConfusion hx.2.2.2
        · rw [← h.2.2.1, hlong] at hnormal
          exact hnil hnormal.symm

end

section

variable {F : Type} {floats : Floats F} {cards : List Card} {key : Str}

/-- `keys` and `header[key]` agree on a lookup form: some card is listed and returned, or the
cards that are only listed and those that are only returned are both there or both not. -/
def KeysAgree (cards : List Card) (lookup : Str) : Prop :=
  (∃ card ∈ cards, isListed lookup card = true ∧ isValueless lookup card = false) ∨
    ((∃ card ∈ cards, isValueless lookup card = true) ↔ ∃ card ∈ cards, isHidden lookup card = true)

theorem keys_agree_iff : (Listed cards key ↔ HasKey floats cards key) ↔
    KeysAgree cards (normalizeKeyword key) := by
  rw [listed_iff, hasKey_iff, KeysAgree]
  generalize normalizeKeyword key = lookup
  by_cases hboth : ∃ card ∈ cards, isListed lookup card = true ∧ isShown lookup card = true
  · obtain ⟨card, hcard, hlisted, hshown⟩ := hboth
    have hvalue : isValueless lookup card = false := by
      rw [Bool.eq_false_iff, ne_eq, ← isListed_not_shown, hshown]
      simp
    exact iff_of_true (iff_of_true ⟨card, hcard, hlisted⟩ ⟨card, hcard, hshown⟩)
      (Or.inl ⟨card, hcard, hlisted, hvalue⟩)
  · have hcases : ∀ card ∈ cards, isListed lookup card = true →
        isShown lookup card = true → False :=
      fun card hcard hlisted hshown => hboth ⟨card, hcard, hlisted, hshown⟩
    have hlisted : (∃ card ∈ cards, isListed lookup card = true) ↔
        ∃ card ∈ cards, isValueless lookup card = true := by
      refine exists_congr fun card => and_congr_right fun hcard => ?_
      rw [← isListed_not_shown]
      exact ⟨fun h => ⟨h, Bool.eq_false_iff.2 (hcases card hcard h)⟩, fun h => h.1⟩
    have hshown : (∃ card ∈ cards, isShown lookup card = true) ↔
        ∃ card ∈ cards, isHidden lookup card = true := by
      refine exists_congr fun card => and_congr_right fun hcard => ?_
      rw [← isShown_not_listed]
      exact ⟨fun h => ⟨h, Bool.eq_false_iff.2 fun h' => hcases card hcard h' h⟩, fun h => h.1⟩
    rw [hlisted, hshown]
    refine ⟨Or.inr, fun h => h.resolve_left ?_⟩
    rintro ⟨card, hcard, hlist, hvalue⟩
    rw [Bool.eq_false_iff, ne_eq, ← isListed_not_shown, not_and, Bool.not_eq_false] at hvalue
    exact hcases card hcard hlist (hvalue hlist)

end

/-! ## What the dictionary holds -/

/-- The keyword and the value text of a card that sets an entry. -/
def dictKeyword (card : Card) : Option (Str × Str) :=
  if (trimEnd card).isEmpty || skippedKeys.contains (keywordField card) then none
  else if lookupKeyword card = [] then none
  else (afterEquals (trimEnd card)).map fun value => (lookupKeyword card, value)

section

variable {F : Type} (floats : Floats F)

/-- The entry of a card. -/
def entryOf (following : List Card) (value : Str) : DictEntry F :=
  .card (parseValueWithContinue floats following value).1
    (parseValueWithContinue floats following value).2

/-- The entries that the cards set, in their order. -/
def assignments : List Card → List (Str × DictEntry F)
  | [] => []
  | card :: rest =>
    ((dictKeyword card).map fun x => (x.1, entryOf floats rest x.2)).toList ++ assignments rest

variable {floats} {cards rest : List Card} {card : Card} {key : Str} {st : DictState F}

theorem continuedCount_continues : ∀ {cards : List Card} {s : Str},
    ∀ c ∈ cards.take (continuedCount s cards), continueKey.isPrefixOf (trimEnd c) = true := by
  intro cards
  induction cards with
  | nil => simp
  | cons next cards ih =>
    intro s
    rw [continuedCount]
    split_ifs with hnext
    · rw [List.take_succ_cons]
      simp only [Bool.and_eq_true] at hnext
      exact List.forall_mem_cons.2 ⟨hnext.1.2, ih⟩
    · simp

theorem joinedCount_continues (following : List Card) (value : Str) :
    ∀ c ∈ following.take (joinedCount following value),
    continueKey.isPrefixOf (trimEnd c) = true := by
  rw [joinedCount]
  split_ifs
  · exact continuedCount_continues
  · simp

/-- A continuation card sets nothing. -/
theorem keywordField_continue (h : continueKey.isPrefixOf (trimEnd card) = true) :
    keywordField card = continueKey := by
  obtain ⟨more, hmore⟩ := List.isPrefixOf_iff_prefix.1 h
  rw [keywordField, ← hmore, List.take_left' (by decide)]
  decide

theorem collectCommentaryTexts_cons (card : Card) (rest : List Card) (key : Str) :
    collectCommentaryTexts (card :: rest) key =
      (if trimEnd card ≠ [] ∧ keywordField card = key then [(trimEnd card).drop 8] else []) ++
        collectCommentaryTexts rest key := by
  rw [collectCommentaryTexts, collectCommentaryTexts, List.filterMap_cons]
  dsimp only
  rw [← keywordField]
  by_cases hempty : trimEnd card = []
  · simp [hempty]
  · by_cases hfield : keywordField card = key
    · simp [hempty, hfield]
    · simp [hfield]

theorem collectBlankCommentaryTexts_cons (card : Card) (rest : List Card) :
    collectBlankCommentaryTexts (card :: rest) =
      (if trimEnd card ≠ [] ∧ keywordField card = [] then [(trimEnd card).drop 8] else []) ++
        collectBlankCommentaryTexts rest := by
  rw [collectBlankCommentaryTexts, collectBlankCommentaryTexts, List.filterMap_cons]
  dsimp only
  rw [← keywordField]
  by_cases hfield : keywordField card = []
  · by_cases hempty : trimEnd card = []
    · simp [hempty]
    · simp [hempty, hfield, (blank_length hfield).2 hempty]
  · simp [hfield]

/-- What one card adds to the state. -/
def DictState.add (floats : Floats F) (card : Card) (rest : List Card) (st : DictState F) :
    DictState F :=
  ⟨Dict.assign ((dictKeyword card).map fun x => (x.1, entryOf floats rest x.2)).toList st.entries,
    st.comments ++ (if trimEnd card ≠ [] ∧ keywordField card = commentKey then
      [(trimEnd card).drop 8]
      else []),
    st.history ++ (if trimEnd card ≠ [] ∧ keywordField card = historyKey then
      [(trimEnd card).drop 8]
      else []),
    st.blanks ++ (if trimEnd card ≠ [] ∧ keywordField card = [] then
      [(trimEnd card).drop 8] else [])⟩

/-- A card that neither sets an entry nor holds a text. -/
theorem add_other (hdict : dictKeyword card = none)
    (hfield : trimEnd card = [] ∨ keywordField card ∉ [commentKey, historyKey, []]) :
    st.add floats card rest = st := by
  have hnot : ∀ k ∈ [commentKey, historyKey, []], ¬(trimEnd card ≠ [] ∧ keywordField card = k) := by
    rintro k hk ⟨hne, rfl⟩
    exact (hfield.resolve_left hne) hk
  rw [DictState.add, hdict, if_neg (hnot commentKey (by decide)),
    if_neg (hnot historyKey (by decide)),
    if_neg (hnot [] (by decide)), List.append_nil, List.append_nil, List.append_nil]
  rfl

/-- One step of the walk. -/
theorem walkHeaderDict_cons :
    ∃ skip, (∀ c ∈ rest.take skip, continueKey.isPrefixOf (trimEnd c) = true) ∧
    walkHeaderDict floats 0 (card :: rest) st =
      walkHeaderDict floats skip rest (st.add floats card rest) := by
  have hzero : ∀ c ∈ rest.take 0, continueKey.isPrefixOf (trimEnd c) = true := by simp
  rw [walkHeaderDict]
  dsimp only
  rw [← keywordField]
  by_cases hempty : trimEnd card = []
  · have hdict : dictKeyword card = none := by rw [dictKeyword, hempty]; rfl
    rw [hempty, List.isEmpty_nil, if_pos rfl]
    exact ⟨0, hzero, by rw [add_other hdict (Or.inl hempty)]⟩
  · rw [List.isEmpty_eq_false_iff.2 hempty, if_neg Bool.false_ne_true]
    by_cases hskip : keywordField card ∈ skippedKeys
    · have hdict : dictKeyword card = none := by
        rw [dictKeyword, if_pos (by rw [List.contains_iff_mem.2 hskip, Bool.or_true])]
      have hcases := hskip
      simp only [skippedKeys, List.mem_cons, List.not_mem_nil, or_false] at hcases
      rcases hcases with hfield | hfield | hfield | hfield | hfield
      · rw [hfield, if_pos rfl]
        exact ⟨0, hzero, by rw [add_other hdict (Or.inr (by rw [hfield]; decide))]⟩
      · refine ⟨0, hzero, ?_⟩
        rw [hfield, if_neg (by decide), if_pos rfl, DictState.add, hdict, hfield,
          if_pos ⟨hempty, rfl⟩,
          if_neg (fun h => absurd h.2 (by decide)), if_neg (fun h => absurd h.2 (by decide)),
          List.append_nil, List.append_nil]
        rfl
      · refine ⟨0, hzero, ?_⟩
        rw [hfield, if_neg (by decide), if_neg (by decide), if_pos rfl, DictState.add,
          hdict, hfield, if_neg (fun h => absurd h.2 (by decide)), if_pos ⟨hempty, rfl⟩,
          if_neg (fun h => absurd h.2 (by decide)), List.append_nil, List.append_nil]
        rfl
      · refine ⟨0, hzero, ?_⟩
        rw [hfield, if_neg (by decide), if_neg (by decide), if_neg (by decide), if_pos rfl,
          DictState.add, hdict, hfield, if_neg (fun h => absurd h.2 (by decide)),
          if_neg (fun h => absurd h.2 (by decide)), if_pos ⟨hempty, rfl⟩, List.append_nil,
          List.append_nil]
        rfl
      · rw [hfield, if_neg (by decide), if_neg (by decide), if_neg (by decide), if_neg (by decide),
          if_pos rfl]
        exact ⟨0, hzero, by rw [add_other hdict (Or.inr (by rw [hfield]; decide))]⟩
    · have hnot : ∀ k ∈ skippedKeys, keywordField card ≠ k := fun k hk heq => hskip (heq ▸ hk)
      have htexts : keywordField card ∉ [commentKey, historyKey, []] := by
        intro hmem
        have hsub : ∀ k ∈ [commentKey, historyKey, []], k ∈ skippedKeys := by decide
        exact hskip (hsub _ hmem)
      rw [if_neg (hnot _ (by decide)), if_neg (hnot _ (by decide)), if_neg (hnot _ (by decide)),
        if_neg (hnot _ (by decide)), if_neg (hnot _ (by decide))]
      have hdict : dictKeyword card = if lookupKeyword card = [] then none
          else (afterEquals (trimEnd card)).map fun value => (lookupKeyword card, value) := by
        rw [dictKeyword, if_neg]
        rw [Bool.or_eq_true, not_or, List.isEmpty_iff, List.contains_iff_mem]
        exact ⟨hempty, hskip⟩
      cases hafter : afterEquals (trimEnd card) with
      | none =>
        rw [hafter, Option.map_none, ite_self] at hdict
        exact ⟨0, hzero, by rw [add_other hdict (Or.inr htexts)]⟩
      | some value =>
        rw [hafter, Option.map_some] at hdict
        dsimp only
        by_cases hlong : lookupKeyword card = []
        · rw [if_pos hlong] at hdict
          have hhier : keywordField card = hierarchKey ∧
              trim (((trimEnd card).takeWhile fun b => b != 0x3D).drop 8) = [] := by
            rw [lookupKeyword] at hlong
            split_ifs at hlong with hfield
            · exact ⟨hfield, hlong⟩
            · exact absurd hlong (hnot [] (by decide))
          rw [if_pos hhier]
          exact ⟨0, hzero, by rw [add_other hdict (Or.inr htexts)]⟩
        · rw [if_neg hlong] at hdict
          rw [if_neg]
          · refine ⟨joinedCount rest value, joinedCount_continues rest value, ?_⟩
            have hnone : ∀ k ∈ [commentKey, historyKey, []],
                ¬(trimEnd card ≠ [] ∧ keywordField card = k) := by
              rintro k hk ⟨-, rfl⟩
              exact htexts hk
            rw [DictState.add, hdict, if_neg (hnone commentKey (by decide)),
              if_neg (hnone historyKey (by decide)), if_neg (hnone [] (by decide)), List.append_nil,
              List.append_nil, List.append_nil]
            rfl
          · rintro ⟨hfield, hnil⟩
            rw [lookupKeyword, if_pos hfield] at hlong
            exact hlong hnil

/-- The walk sets the entries of the cards and collects their texts, also when it starts
behind cards that were joined. -/
theorem walkHeaderDict_eq : ∀ {cards : List Card} {skip : Nat} {st : DictState F},
    (∀ c ∈ cards.take skip, continueKey.isPrefixOf (trimEnd c) = true) →
    walkHeaderDict floats skip cards st =
      ⟨Dict.assign (assignments floats cards) st.entries,
        st.comments ++ collectCommentaryTexts cards commentKey,
        st.history ++ collectCommentaryTexts cards historyKey,
        st.blanks ++ collectBlankCommentaryTexts cards⟩ := by
  intro cards
  induction cards with
  | nil =>
    intro skip st _
    simp [walkHeaderDict, assignments, Dict.assign, collectCommentaryTexts,
      collectBlankCommentaryTexts]
  | cons card rest ih =>
    intro skip st hskip
    have hadd : ∀ st : DictState F, (⟨Dict.assign (assignments floats (card :: rest)) st.entries,
        st.comments ++ collectCommentaryTexts (card :: rest) commentKey,
        st.history ++ collectCommentaryTexts (card :: rest) historyKey,
        st.blanks ++ collectBlankCommentaryTexts (card :: rest)⟩ : DictState F) =
      ⟨Dict.assign (assignments floats rest) (st.add floats card rest).entries,
        (st.add floats card rest).comments ++ collectCommentaryTexts rest commentKey,
        (st.add floats card rest).history ++ collectCommentaryTexts rest historyKey,
        (st.add floats card rest).blanks ++ collectBlankCommentaryTexts rest⟩ := by
      intro st
      rw [assignments, Dict.assign_append, collectCommentaryTexts_cons, collectCommentaryTexts_cons,
        collectBlankCommentaryTexts_cons, ← List.append_assoc, ← List.append_assoc,
        ← List.append_assoc]
      rfl
    rw [hadd]
    cases skip with
    | zero =>
      obtain ⟨skip, hrest, hstep⟩ := @walkHeaderDict_cons F floats rest card st
      rw [hstep, ih hrest]
    | succ skip =>
      rw [List.take_succ_cons, List.forall_mem_cons] at hskip
      have hfield := keywordField_continue hskip.1
      have hdict : dictKeyword card = none := by
        rw [dictKeyword, hfield,
          if_pos (by rw [show skippedKeys.contains continueKey = true from rfl, Bool.or_true])]
      rw [walkHeaderDict, ih hskip.2, add_other hdict (Or.inr (by rw [hfield]; decide))]

end

/-! ## The dictionary and the lookup -/

/-- The text behind the equals sign. -/
def valueText (card : Card) : Str := (afterEquals (trimEnd card)).getD []

/-- The last card that sets the entry `key`, with the cards behind it. -/
def lastHolder (key : Str) : List Card → Option (Card × List Card)
  | [] => none
  | card :: rest =>
    (lastHolder key rest).or
      (if (dictKeyword card).map Prod.fst = some key then some (card, rest) else none)

section

variable {F : Type} (floats : Floats F)

/-- The value and the comment of a card with the cards behind it. -/
def readCard (found : Card × List Card) : HeaderValue F × Str :=
  parseValueWithContinue floats found.2 (valueText found.1)

/-- What `header[key]` and `comment_of` say of a key, as an entry of the dictionary. -/
def headerEntry (cards : List Card) (key : Str) : Option (DictEntry F) :=
  match headerGetItem floats cards key, commentOf floats cards key with
  | .ok (.texts items), _ => some (.texts items)
  | .ok (.value v), .ok comment => some (.card v comment)
  | _, _ => none

/-- The dictionary and the lookup agree on a key.  A commentary key with texts is in the
dictionary in its lookup form only; without texts, no other card may set it.  For another
key the first card in any spelling and the last card in this spelling read alike. -/
def DictAgrees (cards : List Card) (key : Str) : Prop :=
  let lookup := normalizeKeyword key
  if isCommentaryKey lookup = true then
    if commentaryTexts cards lookup = [] then lastHolder key cards = none else key = lookup
  else
    match firstHolder lookup cards, lastHolder key cards with
    | none, _ => True
    | some _, none => False
    | some first, some last => readCard floats first = readCard floats last

variable {floats} {cards rest : List Card} {card : Card} {key lookup : Str}

theorem lastOf_assignments (key : Str) (cards : List Card) :
    Dict.lastOf key (assignments floats cards) =
      (lastHolder key cards).map fun found =>
        .card (readCard floats found).1 (readCard floats found).2 := by
  induction cards with
  | nil => rfl
  | cons card rest ih =>
    rw [assignments, lastHolder]
    cases hdict : dictKeyword card with
    | none =>
      rw [Option.map_none, Option.map_none, if_neg (by simp), Option.or_none]
      exact ih
    | some x =>
      obtain ⟨keyword, value⟩ := x
      have hvalue : valueText card = value := by
        unfold dictKeyword at hdict
        split_ifs at hdict
        obtain ⟨v, hv, heq⟩ := Option.map_eq_some_iff.1 hdict
        rw [valueText, hv, Option.getD_some]
        exact (Prod.mk.inj heq).2
      rw [Option.map_some, Option.map_some, Option.toList_some, List.singleton_append,
        Dict.lastOf, ih]
      simp only [Option.some.injEq]
      by_cases hkey : keyword = key
      · rw [if_pos hkey, if_pos hkey, Option.map_or, Option.map_some, readCard, hvalue]
        rfl
      · rw [if_neg hkey, if_neg hkey, Option.or_none, Option.or_none]

theorem getItem_setTexts (other key : Str) (items : List Str) (entries : List (Str × DictEntry F)) :
    Dict.getItem key (setTexts other items entries) =
      if key = other ∧ items ≠ [] then some (.texts items) else Dict.getItem key entries := by
  rw [setTexts]
  cases items with
  | nil => simp
  | cons text items => simp [Dict.getItem_setItem]

/-- The dictionary holds the texts of a commentary key, and for another key what the last
card of that spelling says. -/
theorem getItem_parseHeaderDict (cards : List Card) (key : Str) :
    Dict.getItem key (parseHeaderDict floats cards) =
      if isCommentaryKey key = true ∧ commentaryTexts cards key ≠ [] then
        some (.texts (commentaryTexts cards key))
      else (lastHolder key cards).map fun found =>
        .card (readCard floats found).1 (readCard floats found).2 := by
  rw [parseHeaderDict, walkHeaderDict_eq (by simp)]
  dsimp only
  rw [getItem_setTexts, getItem_setTexts, getItem_setTexts, Dict.getItem_assign, lastOf_assignments,
    List.nil_append, List.nil_append, List.nil_append]
  have hnone : Dict.getItem key ([] : List (Str × DictEntry F)) = none := rfl
  rw [hnone, Option.or_none]
  have htexts : ∀ k ∈ [commentKey, historyKey], commentaryTexts cards k =
      collectCommentaryTexts cards k ∧
      isCommentaryKey k = true := by
    intro k hk
    have hne : ∀ k ∈ [commentKey, historyKey], k.isEmpty = false ∧ isCommentaryKey k = true := by
      decide
    rw [commentaryTexts, (hne k hk).1, if_neg Bool.false_ne_true]
    exact ⟨rfl, (hne k hk).2⟩
  by_cases hnil : key = []
  · have hne : ([] : Str) ≠ historyKey ∧ ([] : Str) ≠ commentKey := by decide
    rw [hnil]
    simp only [hne.1, hne.2, false_and, if_false, true_and, show isCommentaryKey [] = true from rfl]
    rfl
  · rw [if_neg fun h => hnil h.1]
    by_cases hhistory : key = historyKey
    · have hne : historyKey ≠ commentKey := by decide
      rw [hhistory, (htexts historyKey (by decide)).1]
      simp only [hne, false_and, if_false, true_and, (htexts historyKey (by decide)).2]
    · rw [if_neg fun h => hhistory h.1]
      by_cases hcomment : key = commentKey
      · rw [hcomment, (htexts commentKey (by decide)).1]
        simp only [true_and, (htexts commentKey (by decide)).2]
      · rw [if_neg fun h => hcomment h.1, if_neg]
        rintro ⟨hkey, -⟩
        simp [isCommentaryKey, hnil, hhistory, hcomment] at hkey

theorem headerEntry_eq (cards : List Card) (key : Str) :
    headerEntry floats cards key =
      if isCommentaryKey (normalizeKeyword key) = true then
        if commentaryTexts cards (normalizeKeyword key) = [] then none
        else some (.texts (commentaryTexts cards (normalizeKeyword key)))
      else (firstHolder (normalizeKeyword key) cards).map fun found =>
        .card (readCard floats found).1 (readCard floats found).2 := by
  unfold headerEntry headerGetItem commentOf
  dsimp only
  by_cases hkey : isCommentaryKey (normalizeKeyword key) = true
  · rw [if_pos hkey, if_pos hkey, if_pos hkey]
    cases commentaryTexts cards (normalizeKeyword key) with
    | nil => rfl
    | cons text texts => rfl
  · rw [if_neg hkey, if_neg hkey, if_neg hkey, readKey_eq]
    cases hholder : firstHolder (normalizeKeyword key) cards with
    | none => rfl
    | some found =>
      obtain ⟨-, -, hheld, -⟩ := @firstHolder_some _ found.1 _ found.2 hholder
      obtain ⟨v, hv⟩ := Option.isSome_iff_exists.1 hheld
      have hvalue : valueText found.1 = v := by
        unfold heldValue at hv
        split_ifs at hv
        rw [valueText, hv, Option.getD_some]
      rw [Option.bind_some, hv, Option.map_some, Option.map_some, readCard, hvalue]

/-- A card that sets an entry holds its keyword. -/
theorem heldValue_of_dictKeyword {value : Str} (h : dictKeyword card = some (key, value)) :
    heldValue (normalizeKeyword key) card = some value := by
  unfold dictKeyword at h
  split_ifs at h with hskip hlong
  obtain ⟨v, hv, heq⟩ := Option.map_eq_some_iff.1 h
  cases heq
  rw [heldValue, if_neg hskip, if_pos rfl, hv]

theorem lastHolder_none (h : firstHolder (normalizeKeyword key) cards = none) :
    lastHolder key cards = none := by
  have hheld := firstHolder_none h
  clear h
  induction cards with
  | nil => rfl
  | cons card rest ih =>
    rw [List.forall_mem_cons] at hheld
    rw [lastHolder, ih hheld.2, Option.none_or, if_neg]
    intro hkey
    obtain ⟨⟨keyword, value⟩, hdict, rfl⟩ := Option.map_eq_some_iff.1 hkey
    have := heldValue_of_dictKeyword hdict
    rw [hheld.1] at this
    cases this

theorem normalizeKeyword_commentary (hkey : isCommentaryKey key = true) :
    normalizeKeyword key = key := by
  have hall : ∀ k ∈ [commentKey, historyKey, []], normalizeKeyword k = k := by decide
  exact hall key (by simpa [isCommentaryKey, or_assoc] using hkey)

/-- The dictionary and the lookup hold the same exactly under the condition. -/
theorem dict_agrees_iff :
    Dict.getItem key (parseHeaderDict floats cards) = headerEntry floats cards key ↔
    DictAgrees floats cards key := by
  rw [getItem_parseHeaderDict, headerEntry_eq, DictAgrees]
  by_cases hkey : isCommentaryKey (normalizeKeyword key) = true
  · rw [if_pos hkey, if_pos hkey]
    by_cases htexts : commentaryTexts cards (normalizeKeyword key) = []
    · rw [if_pos htexts, if_pos htexts, if_neg, Option.map_eq_none_iff]
      rintro ⟨hself, hne⟩
      rw [normalizeKeyword_commentary hself] at htexts
      exact hne htexts
    · rw [if_neg htexts, if_neg htexts]
      by_cases hsame : key = normalizeKeyword key
      · rw [← hsame] at hkey htexts ⊢
        rw [if_pos ⟨hkey, htexts⟩]
        exact iff_of_true rfl rfl
      · rw [if_neg fun h => hsame (normalizeKeyword_commentary h.1).symm]
        refine iff_of_false (fun h => ?_) hsame
        obtain ⟨found, -, heq⟩ := Option.map_eq_some_iff.1 h
        cases heq
  · have hself : ¬(isCommentaryKey key = true ∧ commentaryTexts cards key ≠ []) := by
      rintro ⟨hself, -⟩
      rw [normalizeKeyword_commentary hself] at hkey
      exact hkey hself
    rw [if_neg hkey, if_neg hkey, if_neg hself]
    cases hfirst : firstHolder (normalizeKeyword key) cards with
    | none => rw [lastHolder_none hfirst]; simp
    | some first =>
      cases hlast : lastHolder key cards with
      | none => simp
      | some last => simp [eq_comm, Prod.ext_iff]

/-- `keys`, `header[key]` and `to_dict` agree on a key exactly under the two conditions on the
cards. -/
theorem views_agree_iff (floats : Floats F) (cards : List Card) (key : Str) :
    ((Listed cards key ↔ HasKey floats cards key) ↔ KeysAgree cards (normalizeKeyword key)) ∧
    (Dict.getItem key (parseHeaderDict floats cards) = headerEntry floats cards key ↔
      DictAgrees floats cards key) :=
  ⟨keys_agree_iff, dict_agrees_iff⟩

/-- A card without a value, and a keyword that two cards hold. -/
def twoViews : List Card := [str "NOVALUE", str "GAIN    = 1", str "GAIN    = 2", endCard]

/-- `keys` lists a keyword that the lookup does not find, and the dictionary has the last value
where the lookup has the first. -/
theorem views_disagree_gain :
    uniqueKeysInOrder twoViews = [str "NOVALUE", str "GAIN"] ∧
    headerGetItem exampleFloats twoViews (str "NOVALUE") = .error (notInHeader (str "NOVALUE")) ∧
    headerGetItem exampleFloats twoViews (str "GAIN") = .ok (.value (.integer 1)) ∧
    Dict.getItem (str "GAIN") (parseHeaderDict exampleFloats twoViews) =
      some (.card (.integer 2) []) := by
  decide +kernel

end

end RustFits.Header
