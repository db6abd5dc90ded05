import RustFits.Header.NumberCards
import RustFits.Header.ViewsAgree
import RustFits.Lib.Batch
import RustFits.TailShift

/-!
# Updating a header

An update collects its entries first and then applies them one after the other, each with
`apply_setitem` or as commentary.

* `CardFits` says when the writer makes cards for a value, `UpdateAction.Accepted` when an
  entry is not refused (`apply_ok_iff`); one that is refused has changed nothing
  (`apply_keepsOnError`).
* `readKey_apply` is the frame: an entry changes nothing under another key.
-/

namespace RustFits

open Ascii ByteFile Machine

namespace Header

/-! ## Values that the writer accepts -/

section

variable {F : Type} (floats : Floats F)

/-- There are cards for the value: it is none of the undefined ones, and it fits where the
writer looks at the length. -/
def CardFits (storage : Str) (value : HeaderValue F) (comment : Str) : Prop :=
  match value with
  | .undefined => False
  | .string s =>
    if isHierarchKey storage = true then
      (hierarchBody storage s comment).length ≤ cardSize ∨
        comment.length ≤ 64 ∧ storage.length ≤ 64 ∧ s ≠ []
    else comment.length ≤ 64
  | value =>
    isChecked storage value = true → (numberBody floats storage value comment).length ≤ cardSize

end

section

variable {F : Type} {floats : Floats F} {key storage comment s : Str} {value : HeaderValue F}

theorem buildStringValueCards_ok (h : comment.length ≤ 64) :
    ∃ cards, buildStringValueCards key s comment = .ok cards := by
  unfold buildStringValueCards
  dsimp only
  rw [if_neg (by rw [Bool.and_eq_true, decide_eq_true_eq]; omega)]
  split_ifs
  · exact ⟨_, rfl⟩
  · exact ⟨_, rfl⟩

theorem buildHierarchStringCards_ok (h : (hierarchBody key s comment).length ≤ cardSize ∨
    comment.length ≤ 64 ∧ key.length ≤ 64 ∧ s ≠ []) :
    ∃ cards, buildHierarchStringCards key s comment = .ok cards := by
  unfold buildHierarchStringCards
  dsimp only
  by_cases hone : (hierarchBody key s comment).length ≤ cardSize
  · rw [hierarchBody] at hone
    rw [if_pos hone]
    exact ⟨_, rfl⟩
  · obtain ⟨hcomment, hkey, hne⟩ := h.resolve_left hone
    have hescaped : ¬(doubleQuotes s).isEmpty = true := by
      intro hempty
      have hle := length_le_doubleQuotes s
      rw [List.isEmpty_iff.1 hempty, List.length_nil] at hle
      exact hne (List.length_eq_zero_iff.1 (by omega))
    rw [hierarchBody] at hone
    rw [if_neg hone, if_neg hescaped, if_neg (by omega),
      if_neg (by rw [Bool.and_eq_true, decide_eq_true_eq]; omega)]
    exact ⟨_, rfl⟩

theorem buildCardFromValue_scalar_ok (hscalar : IsScalar value)
    (h : isChecked storage value = true →
      (numberBody floats storage value comment).length ≤ cardSize) :
    ∃ cards, buildCardFromValue floats storage value comment = .ok cards := by
  unfold buildCardFromValue
  by_cases hkey : isHierarchKey storage = true
  · have hchecked : isChecked storage value = true := by
      cases value with
      | complex re im => rfl
      | _ => exact hkey
    have hlen := h hchecked
    rw [numberBody_checked hchecked, ← hierarchSingle_body hkey] at hlen
    have hsingle : ∃ cards, assembleHierarchSingle storage (printed floats value) comment =
        .ok cards := by
      unfold assembleHierarchSingle
      dsimp only
      rw [if_neg (by omega)]
      exact ⟨_, rfl⟩
    rw [if_pos hkey]
    cases value with
    | string s => exact hscalar.elim
    | undefined => exact hscalar.elim
    | _ => exact hsingle
  · rw [if_neg hkey]
    cases value with
    | string s => exact hscalar.elim
    | undefined => exact hscalar.elim
    | complex re im =>
      have hlen := h rfl
      rw [numberBody_checked rfl, printed, ← complex_body (Bool.eq_false_iff.2 hkey)] at hlen
      dsimp only
      unfold cardComplex
      dsimp only
      rw [if_neg (by omega)]
      exact ⟨_, rfl⟩
    | _ => exact ⟨_, rfl⟩

/-- The writer makes cards exactly when the value fits. -/
theorem buildCardFromValue_ok_iff :
    (∃ cards, buildCardFromValue floats storage value comment = .ok cards) ↔
      CardFits floats storage value comment := by
  have hscalar : IsScalar value →
      ((∃ cards, buildCardFromValue floats storage value comment = .ok cards) ↔
        (isChecked storage value = true →
          (numberBody floats storage value comment).length ≤ cardSize)) := fun hscalar =>
    ⟨fun ⟨_, h⟩ => (buildCardFromValue_scalar hscalar h).2, buildCardFromValue_scalar_ok hscalar⟩
  cases value with
  | undefined =>
    refine iff_of_false ?_ id
    rintro ⟨cards, h⟩
    unfold buildCardFromValue buildHierarchCards at h
    split_ifs at h
  | string s =>
    unfold buildCardFromValue
    rw [CardFits]
    by_cases hkey : isHierarchKey storage = true
    · rw [if_pos hkey, if_pos hkey]
      exact ⟨fun ⟨_, h⟩ => (buildHierarchStringCards_eq h).2, buildHierarchStringCards_ok⟩
    · rw [if_neg hkey, if_neg hkey]
      exact ⟨fun ⟨_, h⟩ => (buildStringValueCards_eq h).2, buildStringValueCards_ok⟩
  | logical b => exact hscalar trivial
  | integer n => exact hscalar trivial
  | complex re im => exact hscalar trivial
  | real x => exact hscalar trivial

end

/-! ## Entries -/

section

variable {F : Type} (floats : Floats F)

/-- The update does not refuse the entry. -/
def UpdateAction.Accepted (cards : List Card) : UpdateAction F → Prop
  | .setKey key value comment =>
    validateKeyword key = .ok () ∧
      CardFits floats (normalizeKeyword key) value (writtenComment floats cards key comment)
  | .appendCommentary _ _ => True

end

section

variable {F : Type} {floats : Floats F} {key a b comment : Str} {value : HeaderValue F}
  {cards cards' : List Card}

/-- The storage form is as long as the lookup form. -/
theorem storedKeyword_length (cards : List Card) (key : Str) :
    (storedKeyword cards key).length = (normalizeKeyword key).length ∧
      isHierarchKey (storedKeyword cards key) = isHierarchKey (normalizeKeyword key) := by
  obtain ⟨kw, hstorage, hkw⟩ := @storage_of_call cards key _ rfl
  rw [storedKeyword, hstorage, ← hkw]
  cases hlong : isHierarchKey (storageKeyword kw) with
  | false =>
    rw [← storageKeyword_eq_normalize hlong, hlong]
    exact ⟨rfl, rfl⟩
  | true =>
    obtain ⟨hupper, -, -⟩ := storageKeyword_long hlong
    rw [← hupper, toAsciiUppercase_length, isHierarchKey_upper, hlong]
    exact ⟨rfl, rfl⟩

theorem valueFront_length (key : Str) :
    (valueFront key).length = if isHierarchKey key then key.length + 10 else max 8 key.length := by
  rw [valueFront]
  split_ifs
  · rw [List.length_append, List.length_append, show (str "HIERARCH ").length = 9 from rfl,
      List.length_singleton]
    omega
  · rw [padRight_length]

/-- Whether a value fits is a matter of lengths. -/
theorem cardFits_congr (hlen : a.length = b.length) (hkind : isHierarchKey a = isHierarchKey b) :
    CardFits floats a value comment ↔ CardFits floats b value comment := by
  have hfront : (valueFront a).length = (valueFront b).length := by
    rw [valueFront_length, valueFront_length, hlen, hkind]
  have hchecked : isChecked a value = isChecked b value := by
    cases value with
    | complex re im => rfl
    | _ => exact hkind
  have hbody : (numberBody floats a value comment).length =
      (numberBody floats b value comment).length := by
    simp only [numberBody, numberBlanks, List.length_append, List.length_cons, hfront, hchecked]
  have hscalar :
      (isChecked a value = true → (numberBody floats a value comment).length ≤ cardSize) ↔
      (isChecked b value = true → (numberBody floats b value comment).length ≤ cardSize) := by
    rw [hchecked, hbody]
  cases value with
  | string s =>
    have hone : (hierarchBody a s comment).length = (hierarchBody b s comment).length := by
      simp only [hierarchBody, withComment_tail, List.length_append, hlen]
    simp only [CardFits, hkind, hone, hlen]
  | undefined => exact Iff.rfl
  | _ => exact hscalar

theorem apply_ok_iff (action : UpdateAction F) (cards : List Card) :
    (∃ cards', action.apply floats cards = .ok () cards') ↔ action.Accepted floats cards := by
  cases action with
  | appendCommentary keyword text => exact iff_of_true ⟨_, rfl⟩ trivial
  | setKey key value comment =>
    obtain ⟨hlen, hkind⟩ := storedKeyword_length cards key
    rw [UpdateAction.Accepted, ← cardFits_congr hlen hkind, ← buildCardFromValue_ok_iff]
    constructor
    · rintro ⟨cards', h⟩
      obtain ⟨hvalid, newCards, hbuild, -⟩ := applySetitem_ok h
      exact ⟨hvalid, newCards, hbuild⟩
    · rintro ⟨hvalid, newCards, hbuild⟩
      refine ⟨setCardForKey cards (normalizeKeyword key) newCards, ?_⟩
      have heq := applySetitem_eq floats key value comment cards
      rw [hvalid, hbuild] at heq
      exact heq

theorem apply_keepsOnError (action : UpdateAction F) :
    Batch.KeepsOnError (action.apply floats) := by
  intro cards e cards' h
  cases action with
  | appendCommentary keyword text => cases h
  | setKey key value comment =>
    have heq := (applySetitem_eq floats key value comment cards).symm.trans h
    cases hvalid : validateKeyword key with
    | error e =>
      rw [hvalid] at heq
      cases heq
      rfl
    | ok u =>
      rw [hvalid] at heq
      dsimp only at heq
      cases hbuild : buildCardFromValue floats (storedKeyword cards key) value
          (writtenComment floats cards key comment) with
      | error e =>
        rw [hbuild] at heq
        cases heq
        rfl
      | ok newCards =>
        rw [hbuild] at heq
        cases heq

end

/-! ## The other keys -/

section

variable {F : Type} {floats : Floats F} {k lookup storage : Str} {card : Card}
  {cards front old new back rest : List Card}

theorem cardKey_of_held (hk : k ≠ []) (h : (heldValue k card).isSome = true) :
    cardKey card = some k := by
  obtain ⟨hne, -, hnormal, hafter⟩ := heldValue_isSome.1 h
  rcases keywordOf_cases card with ⟨hnil, -⟩ | ⟨-, -, hnone, -⟩ | ⟨-, -, -, -, hkw⟩ |
    ⟨-, -, hsame, hkw⟩
  · exact absurd hnil hne
  · rcases hnone with hnone | hnil
    · rw [Option.isNone_iff_eq_none.1 hnone] at hafter
      exact absurd hafter Bool.false_ne_true
    · rw [hnil] at hnormal
      exact absurd (hnormal.symm.trans (by decide)) hk
  · rw [cardKey_of_keywordOf hkw, hnormal]
  · rw [cardKey_of_keywordOf hkw, ← hsame, hnormal]

/-- A card of another key is passed over. -/
theorem held_none (hk : k ≠ []) (h : cardKey card ≠ some k) : heldValue k card = none := by
  rw [← Option.not_isSome_iff_eq_none]
  exact fun hheld => h (cardKey_of_held hk hheld)

theorem held_none_of_field (h : keywordField card ∈ skippedKeys) : heldValue k card = none := by
  rw [← Option.not_isSome_iff_eq_none]
  exact fun hheld => (heldValue_isSome.1 hheld).2.1 h

/-- Nothing goes on in a card with another keyword field. -/
theorem stops_of_field (h : keywordField card ≠ continueKey) : Stops (card :: rest) :=
  stops_of_head (Or.inl (Bool.eq_false_iff.2 fun hcont => h (keywordField_continue hcont)))

/-- The cards from END on. -/
theorem stops_drop_endPosition (cards : List Card) : Stops (cards.drop (endPosition cards)) := by
  unfold endPosition
  cases hfind : cards.findIdx? fun c => decide (trimEnd c = endCard) with
  | none =>
    rw [Option.getD_none, List.drop_length]
    exact fun _ _ => rfl
  | some i =>
    obtain ⟨hlt, hend, -⟩ := List.findIdx?_eq_some_iff_getElem.1 hfind
    rw [Option.getD_some, List.drop_eq_getElem_cons hlt]
    apply stops_of_field
    rw [keywordField, of_decide_eq_true hend]
    decide

/-- The lookup of `k` passes over the cards, and nothing in front of them goes on in them. -/
structure Passed (k : Str) (middle back : List Card) : Prop where
  held : ∀ c ∈ middle, heldValue k c = none
  stops : Stops (middle ++ back)

theorem readKey_passed_over (h : ∀ c ∈ front, heldValue k c = none) :
    readKey floats (front ++ back) k = readKey floats back k := by
  induction front with
  | nil => rfl
  | cons c front ih =>
    obtain ⟨hc, hfront⟩ := List.forall_mem_cons.1 h
    rw [List.cons_append, readKey, findCardForKey_held, hc]
    exact ih hfront

/-- Cards that are passed over may stand in each other's place. -/
theorem readKey_splice (hold : Passed k old back) (hnew : Passed k new back) :
    readKey floats (front ++ new ++ back) k = readKey floats (front ++ old ++ back) k := by
  rw [List.append_assoc, List.append_assoc]
  apply readKey_congr hnew.stops hold.stops
  rw [readKey_passed_over hnew.held, readKey_passed_over hold.held]

theorem keywordField_hasKeyword {key : Str} (htrim : trim key = key) (hlen : key.length ≤ 8)
    (h : HasKeyword key card) : keywordField (trimEnd card) = key := by
  rw [keywordField, trimEnd_trimEnd]
  exact field_of_hasKeyword htrim hlen h

/-- The cards of a value under another key. -/
theorem passed_built {F : Type} {floats : Floats F} {value : HeaderValue F} {comment : Str}
    (hk : k ≠ []) (hother : lookup ≠ k) (hstored : StoredAs lookup storage)
    (hbuild : buildCardFromValue floats storage value comment = .ok new) (back : List Card) :
    Passed k (new.map trimEnd) back := by
  obtain ⟨first, more, rfl, hfirst, hmore⟩ := buildCardFromValue_cards hbuild
  have hkey : ∀ kw, keywordOf (trimEnd first) = some kw → normalizeKeyword kw = lookup →
      heldValue k (trimEnd first) = none := by
    intro kw hkw hnormal
    apply held_none hk
    rw [cardKey_of_keywordOf hkw, hnormal]
    exact fun h => hother (Option.some.inj h)
  have hrest : ∀ c ∈ more.map trimEnd, heldValue k c = none := by
    intro c hc
    obtain ⟨d, hd, rfl⟩ := List.mem_map.1 hc
    apply held_none_of_field
    rw [keywordField_hasKeyword (by decide) (by decide) (hmore d hd)]
    decide
  have hheld : heldValue k (trimEnd first) = none →
      ∀ c ∈ (first :: more).map trimEnd, heldValue k c = none :=
    fun h => List.forall_mem_cons.2 ⟨h, hrest⟩
  rcases hfirst with ⟨hshort, hvalue⟩ | ⟨hlong, hvalue⟩
  · obtain ⟨hsame, htoken, hlen⟩ := hstored.short hshort
    have hnormal : normalizeKeyword storage = lookup := by
      rw [normalizeKeyword, trim_of_isToken htoken, hshort, if_neg Bool.false_ne_true, hsame,
        hstored.upper]
    refine ⟨hheld (hkey storage (keywordOf_hasValue htoken hlen hvalue) hnormal), ?_⟩
    by_cases hcont : storage = continueKey
    · -- a CONTINUE card with an equals sign is no continuation
      obtain ⟨text, rfl⟩ := hvalue
      obtain ⟨text', hcard⟩ := trimEnd_padToCard_equals continueKey text (by decide)
      have htrim := trimEnd_trimEnd (padToCard (continueKey ++ 0x3D :: text))
      rw [hcard] at htrim
      rw [List.map_cons, hcont, show padRight 8 continueKey = continueKey from rfl, hcard]
      exact (hidden_first (Or.inl rfl) htrim).2 _
    · apply stops_of_field
      rw [keywordField_hasKeyword (trim_of_isToken htoken) hlen (hasKeyword_of_hasValue hvalue)]
      exact hcont
  · obtain ⟨htrim, hne, hnormal, -⟩ := hstored.long hlong
    refine ⟨hheld (hkey storage (keywordOf_hasLongKey htrim hne hstored.equals hvalue) hnormal), ?_⟩
    apply stops_of_field
    rw [keywordField_hasKeyword (by decide) (by decide) (hasKeyword_of_hasLongKey hvalue)]
    decide

/-- The cards that an assignment replaces. -/
theorem cardsAround_passed (hk : k ≠ []) (hother : lookup ≠ k) (cards : List Card) :
    ∃ old, cards = (cardsAround cards lookup).1 ++ old ++ (cardsAround cards lookup).2 ∧
      Passed k old (cardsAround cards lookup).2 := by
  unfold cardsAround
  cases hfind : cards.findIdx? (matchesKey lookup) with
  | none =>
    refine ⟨[], by simp, by simp, ?_⟩
    exact stops_drop_endPosition cards
  | some start =>
    obtain ⟨hlt, hmatch, -⟩ := List.findIdx?_eq_some_iff_getElem.1 hfind
    obtain ⟨chain, hsplit, hchain⟩ := chain_split hlt
    refine ⟨_, hsplit, List.forall_mem_cons.2 ⟨?_, fun c hc => ?_⟩, ?_⟩
    · apply held_none hk
      rw [cardKey_of_matchesKey hmatch]
      exact fun h => hother (Option.some.inj h)
    · apply held_none_of_field
      rw [keywordField_continue (hchain c hc)]
      decide
    · refine stops_of_head (Or.inl (Bool.eq_false_iff.2 fun hcont => ?_))
      rw [matchesKey_continue hcont] at hmatch
      exact Bool.noConfusion hmatch

theorem readKey_setCardForKey {F : Type} {floats : Floats F} {value : HeaderValue F} {comment : Str}
    (hk : k ≠ []) (hother : lookup ≠ k) (hstored : StoredAs lookup storage)
    (hbuild : buildCardFromValue floats storage value comment = .ok new) (cards : List Card) :
    readKey floats (setCardForKey cards lookup new) k = readKey floats cards k := by
  obtain ⟨old, hsplit, hold⟩ := cardsAround_passed hk hother cards
  rw [setCardForKey_around]
  conv_rhs => rw [hsplit]
  exact readKey_splice hold (passed_built hk hother hstored hbuild _)

theorem commentary_field {keyword : Str} (hkey : isCommentaryKey keyword = true) :
    keyword ∈ skippedKeys ∧ keyword ≠ continueKey ∧ trim keyword = keyword ∧
    keyword.length ≤ 8 := by
  simp only [isCommentaryKey, Bool.or_eq_true, decide_eq_true_eq, List.isEmpty_iff] at hkey
  rcases hkey with (rfl | rfl) | rfl <;> decide

/-- Commentary is passed over. -/
theorem passed_commentary {keyword : Str} (hkey : isCommentaryKey keyword = true)
    (hfield : keywordField card = keyword) (more : List Card) :
    heldValue k card = none ∧ Stops (card :: more) := by
  obtain ⟨hskip, hcont, -, -⟩ := commentary_field hkey
  exact ⟨held_none_of_field (hfield ▸ hskip), stops_of_field (hfield ▸ hcont)⟩

theorem field_of_matches {keyword : Str} (h : cardMatchesCommentaryKeyword keyword card = true) :
    keywordField card = keyword := by
  unfold cardMatchesCommentaryKeyword at h
  dsimp only at h
  split_ifs at h with hempty
  · rw [Bool.and_eq_true, List.isEmpty_iff] at h
    rw [keywordField, h.2, List.isEmpty_iff.1 hempty]
  · rw [Bool.and_eq_true, decide_eq_true_eq] at h
    exact h.2

/-- Commentary goes behind a commentary card or in front of END. -/
theorem commentaryPosition_cases (keyword : Str) (cards : List Card) :
    commentaryPosition keyword cards = endPosition cards ∨
      ∃ front card, cardMatchesCommentaryKeyword keyword card = true ∧
        cards.take (commentaryPosition keyword cards) = front ++ [card] := by
  unfold commentaryPosition
  cases hfind : cards.reverse.findIdx? (cardMatchesCommentaryKeyword keyword) with
  | none => exact Or.inl rfl
  | some i =>
    obtain ⟨hlt, hmatch, -⟩ := List.findIdx?_eq_some_iff_getElem.1 hfind
    rw [List.getElem_reverse] at hmatch
    have hlt' : i < cards.length := by rwa [List.length_reverse] at hlt
    have htake : cards.take (cards.length - i) =
        cards.take (cards.length - 1 - i) ++ [cards[cards.length - 1 - i]] := by
      rw [show cards.length - i = cards.length - 1 - i + 1 by omega]
      exact (List.take_append_getElem (by omega)).symm
    exact Or.inr ⟨_, _, hmatch, htake⟩

theorem readKey_appendCommentary {F : Type} {floats : Floats F} {keyword : Str}
    (hkey : isCommentaryKey keyword = true) (cards : List Card) (text : Str) :
    readKey floats (appendCommentaryToCards cards keyword text) k = readKey floats cards k := by
  obtain ⟨-, -, htrim, hlen⟩ := commentary_field hkey
  have hnew : ∀ c ∈ (makeCommentaryCards keyword text).map trimEnd, keywordField c = keyword := by
    intro c hc
    obtain ⟨d, hd, rfl⟩ := List.mem_map.1 hc
    exact keywordField_hasKeyword htrim hlen (makeCommentaryCards_keyword keyword text d hd)
  rw [appendCommentaryToCards, spliceCards]
  obtain ⟨p, hp⟩ : ∃ p, commentaryPosition keyword cards = p := ⟨_, rfl⟩
  obtain ⟨inserted, hinserted⟩ :
      ∃ inserted, (makeCommentaryCards keyword text).map trimEnd = inserted :=
    ⟨_, rfl⟩
  have hcases := commentaryPosition_cases keyword cards
  rw [hinserted] at hnew ⊢
  rw [hp] at hcases ⊢
  have hpassed : ∀ middle, (∀ c ∈ middle, keywordField c = keyword) → middle ≠ [] →
      Passed k middle (cards.drop p) := by
    intro middle hmiddle hne
    obtain ⟨first, more, rfl⟩ := List.exists_cons_of_ne_nil hne
    refine ⟨fun c hc => (passed_commentary hkey (hmiddle c hc) []).1, ?_⟩
    exact (passed_commentary (k := k) hkey (hmiddle first List.mem_cons_self) _).2
  conv_rhs => rw [← List.take_append_drop p cards]
  rcases hcases with hend | ⟨front, card, hmatch, htake⟩
  · by_cases hnil : inserted = []
    · rw [hnil, List.append_nil]
    · have hold : Passed k [] (cards.drop p) := by
        refine ⟨by simp, ?_⟩
        rw [hend]
        exact stops_drop_endPosition cards
      have hsplice := @readKey_splice F floats k (cards.take p) [] inserted (cards.drop p) hold
        (hpassed inserted hnew hnil)
      rw [List.append_nil] at hsplice
      exact hsplice
  · have hfield := field_of_matches hmatch
    have hall : ∀ c ∈ card :: inserted, keywordField c = keyword :=
      List.forall_mem_cons.2 ⟨hfield, hnew⟩
    have hsplice := @readKey_splice F floats k front [card] (card :: inserted) (cards.drop p)
      (hpassed [card] (List.forall_mem_singleton.2 hfield) (List.cons_ne_nil _ _))
      (hpassed _ hall (List.cons_ne_nil _ _))
    rw [htake]
    rw [List.append_cons] at hsplice
    exact hsplice

/-- An entry changes nothing under another key. -/
theorem readKey_apply {F : Type} {floats : Floats F} {action : UpdateAction F} (hk : k ≠ [])
    (hallowed : action.Allowed) (hother : action.key ≠ k)
    (h : action.apply floats cards = .ok () new) :
    readKey floats new k = readKey floats cards k := by
  cases action with
  | setKey key value comment =>
    obtain ⟨hvalid, newCards, hbuild, rfl⟩ := applySetitem_ok h
    exact readKey_setCardForKey hk hother (storedAs_of_call hvalid hallowed) hbuild cards
  | appendCommentary keyword text =>
    cases h
    exact readKey_appendCommentary hallowed cards text

end

end Header

end RustFits
