import RustFits.Header.Entries

/-!
# Changing one entry

An assignment replaces the first entry of a key and a deletion removes it: its first
card with the cards that the reader joins to it.

* `setItem_touches_iff` and `delItem_touches_iff` are the conditions under which they
  touch nothing else, keep the spelling of the keyword, and leave every CONTINUE card
  with the keyword it was joined to.
* `sameAttached_iff` is the argument about the cards that stay: only the card behind the
  entry can be joined to something new.
-/

namespace RustFits.Header

open Ascii

/-! ## The first entry of a key -/

/-- The first card of a key, with the cards in front and behind. -/
def firstEntry (lookup : Str) : List Card → Option (List Card × Card × List Card)
  | [] => none
  | card :: rest =>
    if matchesKey lookup card then some ([], card, rest)
    else (firstEntry lookup rest).map fun x => (card :: x.1, x.2)

/-- The cards that the reader joins to a card. -/
def entryTail (card : Card) (rest : List Card) : List Card :=
  rest.take (joinedLength (startReading card) rest)

/-- The cards behind an entry. -/
def behindEntry (card : Card) (rest : List Card) : List Card :=
  rest.drop (joinedLength (startReading card) rest)

/-- How the keyword of a card is spelled, and whether it stands behind HIERARCH. -/
def spelling (card : Card) : Option (Str × Bool) :=
  (keywordOf card).map fun kw => (kw, decide (keywordField card = hierarchKey))

/-- The cards in front and behind are joined to what they were joined to when `new` takes
the place of `old`. -/
def SameAttached (front old new back : List Card) : Prop :=
  (attached none (front ++ new ++ back)).take front.length =
      (attached none (front ++ old ++ back)).take front.length ∧
    (attached none (front ++ new ++ back)).drop (front ++ new).length =
      (attached none (front ++ old ++ back)).drop (front ++ old).length

section

variable {lookup : Str} {cards front rest new old back : List Card} {card : Card} {r : Reading}

theorem firstEntry_some (h : firstEntry lookup cards = some (front, card, rest)) :
    cards = front ++ card :: rest ∧ matchesKey lookup card = true ∧
      (∀ c ∈ front, matchesKey lookup c = false) ∧
      cards.findIdx? (matchesKey lookup) = some front.length := by
  induction cards generalizing front with
  | nil => cases h
  | cons c cards ih =>
    rw [firstEntry] at h
    by_cases hc : matchesKey lookup c = true
    · rw [if_pos hc] at h
      cases h
      exact ⟨rfl, hc, by simp, by rw [List.findIdx?_cons, hc]; rfl⟩
    · rw [if_neg hc] at h
      obtain ⟨⟨front', card', rest'⟩, h', heq⟩ := Option.map_eq_some_iff.1 h
      cases heq
      obtain ⟨hcards, hmatch, hfront, hidx⟩ := ih h'
      have hc' := Bool.eq_false_iff.2 hc
      refine ⟨by rw [hcards, List.cons_append], hmatch, List.forall_mem_cons.2 ⟨hc', hfront⟩, ?_⟩
      rw [List.findIdx?_cons, hc', hidx]
      rfl

theorem firstEntry_none (h : firstEntry lookup cards = none) :
    cards.findIdx? (matchesKey lookup) = none := by
  induction cards with
  | nil => rfl
  | cons c cards ih =>
    rw [firstEntry] at h
    by_cases hc : matchesKey lookup c = true
    · rw [if_pos hc] at h
      cases h
    · rw [if_neg hc, Option.map_eq_none_iff] at h
      rw [List.findIdx?_cons, Bool.eq_false_iff.2 hc, ih h]
      rfl

/-- What `find_chain_end` cuts off behind the first card of a key. -/
theorem drop_findChainEnd (h : firstEntry lookup cards = some (front, card, rest)) :
    cards.take front.length = front ∧
      cards.drop (findChainEnd cards front.length) = rest.drop (chainLength card rest) := by
  obtain ⟨rfl, -, -, -⟩ := firstEntry_some h
  have hget : (front ++ card :: rest).getD front.length [] = card := by simp
  have hdrop : (front ++ card :: rest).drop (front.length + 1) = rest := by
    rw [List.append_cons]
    exact List.drop_left' (by rw [List.length_append]; rfl)
  rw [findChainEnd, hget, hdrop, ← List.drop_drop, hdrop]
  exact ⟨List.take_left, rfl⟩

/-! ## The cards that stay -/

theorem attached_eq_iff :
    attached r cards = attached none cards ↔ ∀ c ∈ cards.head?, joins r c = false := by
  refine ⟨fun h => ?_, attached_of_not_joins⟩
  cases cards with
  | nil => simp
  | cons card rest =>
    intro c hc
    rw [List.head?_cons, Option.mem_some_iff] at hc
    subst hc
    rw [Bool.eq_false_iff]
    intro hjoin
    obtain ⟨keyword, s, -, rfl, -⟩ := joins_some hjoin
    rw [attached, attached, if_pos hjoin] at h
    cases (List.cons.inj h).1

/-- Only the card behind can be joined to something new. -/
theorem sameAttached_iff
    (hold : ∀ c ∈ back.head?, joins ((front ++ old).foldl nextReading none) c = false) :
    SameAttached front old new back ↔
      ∀ c ∈ back.head?, joins ((front ++ new).foldl nextReading none) c = false := by
  have hbehind : ∀ middle, (attached none (front ++ middle ++ back)).drop (front ++ middle).length =
      attached ((front ++ middle).foldl nextReading none) back := fun middle => by
    rw [attached_append, List.drop_left' (attached_length _ _)]
  have hbefore : ∀ middle, (attached none (front ++ middle ++ back)).take front.length =
      attached none front := fun middle => by
    rw [List.append_assoc, attached_append, List.take_left' (attached_length _ _)]
  rw [SameAttached, hbehind, hbehind, hbefore, hbefore, attached_of_not_joins hold]
  exact ⟨fun h => attached_eq_iff.1 h.2, fun h => ⟨rfl, attached_eq_iff.2 h⟩⟩

/-- The reading behind the cards that are joined. -/
theorem joinedLength_stops (r : Reading) (cards : List Card) :
    ∀ c ∈ (cards.drop (joinedLength r cards)).head?,
      joins ((cards.take (joinedLength r cards)).foldl nextReading r) c = false := by
  induction cards generalizing r with
  | nil => simp
  | cons card rest ih =>
    rw [joinedLength]
    by_cases hjoin : joins r card = true
    · rw [if_pos hjoin, List.take_succ_cons, List.drop_succ_cons, List.foldl_cons]
      exact ih _
    · rw [if_neg hjoin]
      intro c hc
      rw [List.drop_zero, List.head?_cons, Option.mem_some_iff] at hc
      exact hc ▸ Bool.eq_false_iff.2 hjoin

/-- A card that continues nothing starts anew. -/
theorem foldl_nextReading (hcard : continuationText card = none) (r : Reading) (rest : List Card) :
    (card :: rest).foldl nextReading r = rest.foldl nextReading (startReading card) := by
  rw [List.foldl_cons, nextReading_of_not_joins]
  cases r with
  | none => rfl
  | some x => rw [joins, hcard, Option.isSome_none, Bool.and_false]

theorem continuation_of_matches (h : matchesKey lookup card = true) :
    continuationText card = none := by
  rw [continuationText, if_neg]
  rw [Bool.and_eq_true]
  rintro ⟨hcont, -⟩
  rw [matchesKey_continue hcont] at h
  exact Bool.noConfusion h

/-- What the reader joins to an entry ends where the entry ends. -/
theorem behindEntry_stops (hcard : continuationText card = none) :
    ∀ c ∈ (behindEntry card rest).head?,
      joins ((front ++ card :: entryTail card rest).foldl nextReading none) c = false := by
  rw [List.foldl_append, foldl_nextReading hcard]
  exact joinedLength_stops _ _

end

/-! ## Assignments -/

section

variable {F : Type} {floats : Floats F} {cards cards' new front rest : List Card} {card : Card}
  {key lookup storage : Str} {value : HeaderValue F} {comment : Option Str}

/-- The cards that an assignment writes. -/
def writtenCards (floats : Floats F) (cards : List Card) (key : Str) (value : HeaderValue F)
    (comment : Option Str) : Except PyErr (List Card) :=
  (buildCardFromValue floats (storedKeyword cards key) value
    (writtenComment floats cards key comment)).map fun new => new.map trimEnd

/-- The assignment touches one entry: the cards written stand in the place of the first entry
with its spelling, or in front of END, and the other cards are joined as before. -/
def SetTouchesOne (cards cards' new : List Card) (lookup : Str) : Prop :=
  match firstEntry lookup cards with
  | some (front, card, rest) =>
    cards' = front ++ new ++ behindEntry card rest ∧ new.head?.bind spelling = spelling card ∧
      SameAttached front (card :: entryTail card rest) new (behindEntry card rest)
  | none =>
    let front := cards.take (endPosition cards)
    let back := cards.drop (endPosition cards)
    cards' = front ++ new ++ back ∧ SameAttached front [] new back

/-- The storage form of the call is the keyword on the card: no blank card stands in front,
or the caller spells it like the card; and it is in its storage form, behind HIERARCH
exactly when it is long. -/
def KeepsSpelling (front : List Card) (card : Card) (key : Str) : Prop :=
  let kw := (keywordOf card).getD []
  (if front.all fun c => (keywordOf c).isSome then storageKeyword kw else storageKeyword key) = kw ∧
    (isHierarchKey kw = true ∨ kw = hierarchKey ↔ keywordField card = hierarchKey)

/-- The condition for an assignment: the chain of the entry is clean, the spelling is kept,
and no continuation card behind goes on with the text written. -/
def SetClean (cards new : List Card) (key : Str) : Prop :=
  match firstEntry (normalizeKeyword key) cards with
  | some (front, card, rest) =>
    ContinuesClean (startReading card) card rest ∧ KeepsSpelling front card key ∧
      ∀ c ∈ (behindEntry card rest).head?, joins (new.foldl nextReading none) c = false
  | none => True

/-- A value in front of which stands an equals sign is not in quotes. -/
theorem isQuoted_equals (s : Str) : isQuoted (splitValueComment (0x3D :: s)).1 = false := by
  have hcut : (splitValueComment (0x3D :: s)).1 = 0x3D :: trimEnd (cutComment false s).1 := by
    rw [splitValueComment, cutComment, if_neg (by decide), if_neg (by decide)]
    dsimp only
    rw [trim, trimStart, List.dropWhile_cons_of_neg (by decide)]
    exact trimEnd_append (a := []) (by decide)
  rw [hcut, isQuoted, List.head?_cons]
  rfl

/-- The first card of a value: its keyword, and that it continues nothing. -/
theorem first_card (hstored : StoredAs lookup storage)
    (h : isHierarchKey storage = false ∧ HasValue storage card ∨
      isHierarchKey storage = true ∧ HasLongKey storage card) :
    spelling (trimEnd card) =
      some (storage, isHierarchKey storage || decide (storage = hierarchKey)) ∧
      continuationText (trimEnd card) = none := by
  rcases h with ⟨hshort, h⟩ | ⟨hlong, h⟩
  · obtain ⟨-, htoken, hlen⟩ := hstored.short hshort
    have hkw := keywordOf_hasValue htoken hlen h
    obtain ⟨text, rfl⟩ := h
    have hfield : (padRight 8 storage).length = 8 := by rw [padRight_length]; omega
    obtain ⟨text', hcard⟩ := trimEnd_padToCard_equals (padRight 8 storage) text (by omega)
    have htrim : trim (padRight 8 storage) = storage := by
      rw [padRight, trim_append_blanks, trim_of_isToken htoken]
    constructor
    · rw [spelling, hkw, keywordField, trimEnd_trimEnd, hcard, List.take_left' hfield,
        htrim, hshort]
      rfl
    · rw [continuationText, trimEnd_trimEnd, hcard, afterKeyword, List.drop_left' hfield,
        isQuoted_equals, Bool.and_false]
      rfl
  · obtain ⟨htrim, hne, -, -⟩ := hstored.long hlong
    have hkw := keywordOf_hasLongKey htrim hne hstored.equals h
    obtain ⟨hlen, text, rfl⟩ := h
    obtain ⟨text', hcard⟩ :=
      trimEnd_padToCard_equals (str "HIERARCH " ++ storage ++ [blank]) text (by
      simp only [List.length_append, show (str "HIERARCH ").length = 9 from rfl,
        List.length_singleton]
      omega)
    have hstart :
        ∃ more, trimEnd (padToCard (str "HIERARCH " ++ storage ++ [blank] ++ 0x3D :: text)) =
        hierarchKey ++ more := by
      rw [hcard]
      exact ⟨blank :: (storage ++ [blank] ++ 0x3D :: text'), by simp [str, hierarchKey, blank]⟩
    obtain ⟨more, hmore⟩ := hstart
    constructor
    · rw [spelling, hkw, keywordField, trimEnd_trimEnd, hmore, List.take_left' (by decide), hlong]
      rfl
    · have hnot : continueKey.isPrefixOf (hierarchKey ++ more) = false := rfl
      rw [continuationText, trimEnd_trimEnd, hmore, hnot, Bool.false_and]
      rfl

/-- The storage form that a call finds on the cards. -/
theorem storedKeyword_entry (h : firstEntry (normalizeKeyword key) cards =
    some (front, card, rest)) :
    storedKeyword cards key =
      if front.all (fun c => (keywordOf c).isSome) then storageKeyword ((keywordOf card).getD [])
      else storageKeyword key := by
  obtain ⟨rfl, hmatch, hfront, -⟩ := firstEntry_some h
  clear h
  rw [storedKeyword]
  induction front with
  | nil =>
    unfold matchesKey at hmatch
    rw [List.nil_append, existingStorageKeyword]
    cases hkw : keywordOf card with
    | none =>
      rw [hkw] at hmatch
      cases hmatch
    | some kw =>
      rw [hkw] at hmatch
      dsimp only at hmatch ⊢
      rw [if_pos hmatch]
      rfl
  | cons c front ih =>
    obtain ⟨hc, hfront⟩ := List.forall_mem_cons.1 hfront
    rw [List.cons_append, existingStorageKeyword, List.all_cons]
    unfold matchesKey at hc
    cases hkw : keywordOf c with
    | none => rfl
    | some kw =>
      rw [hkw] at hc
      dsimp only at hc ⊢
      rw [if_neg (by rw [hc]; simp), ih hfront]
      rfl

/-- Cutting the list at two places gives the same only for one place. -/
theorem append_drop_inj {a b : List Card} {m n : Nat} (hm : m ≤ b.length) (hn : n ≤ b.length) :
    a ++ b.drop m = a ++ b.drop n ↔ m = n := by
  refine ⟨fun h => ?_, fun h => h ▸ rfl⟩
  have hlen := congrArg List.length (List.append_cancel_left h)
  rw [List.length_drop, List.length_drop] at hlen
  omega

theorem chainLength_le (prev : Card) (cards : List Card) :
    chainLength prev cards ≤ cards.length := by
  induction cards generalizing prev with
  | nil => exact Nat.le_refl 0
  | cons next rest ih =>
    rw [chainLength]
    split_ifs
    · exact Nat.succ_le_succ (ih next)
    · exact Nat.zero_le _

theorem joinedLength_le (r : Reading) (cards : List Card) :
    joinedLength r cards ≤ cards.length := by
  induction cards generalizing r with
  | nil => exact Nat.le_refl 0
  | cons next rest ih =>
    rw [joinedLength]
    split_ifs
    · exact Nat.succ_le_succ (ih _)
    · exact Nat.zero_le _

theorem head_drop_endPosition (c : Card) (h : c ∈ (cards.drop (endPosition cards)).head?) :
    trimEnd c = endCard := by
  rw [endPosition] at h
  cases hfind : cards.findIdx? fun c => decide (trimEnd c = endCard) with
  | none =>
    rw [hfind, Option.getD_none, List.drop_length] at h
    cases h
  | some i =>
    obtain ⟨hlt, hend, -⟩ := List.findIdx?_eq_some_iff_getElem.1 hfind
    rw [hfind, Option.getD_some, List.head?_drop, List.getElem?_eq_getElem hlt,
      Option.mem_some_iff] at h
    rw [← h]
    simpa using hend

/-- An assignment touches one entry exactly under the condition. -/
theorem setItem_touches_iff (h : headerSetItem floats key value comment cards = .ok () cards') :
    ∃ new, writtenCards floats cards key value comment = .ok new ∧
      (SetTouchesOne cards cards' new (normalizeKeyword key) ↔ SetClean cards new key) := by
  obtain ⟨hset, -, hrun⟩ := headerSetItem_ok h
  obtain ⟨hvalid, built, hbuild, rfl⟩ := applySetitem_ok hrun
  refine ⟨built.map trimEnd, by rw [writtenCards, hbuild]; rfl, ?_⟩
  have hstored := @storedAs_of_call _ cards hvalid hset
  obtain ⟨first, more, rfl, hfirst, -⟩ := buildCardFromValue_cards hbuild
  obtain ⟨hspelling, hnone⟩ := first_card hstored hfirst
  rw [List.map_cons, SetTouchesOne, SetClean]
  cases hentry : firstEntry (normalizeKeyword key) cards with
  | none =>
    have hcards : setCardForKey cards (normalizeKeyword key) (first :: more) =
        cards.take (endPosition cards) ++ (trimEnd first :: more.map trimEnd) ++
          cards.drop (endPosition cards) := by
      rw [setCardForKey, firstEntry_none hentry]
      rfl
    -- END continues nothing, so that nothing behind it changes
    have hend : ∀ (r : Reading), ∀ c ∈ (cards.drop (endPosition cards)).head?,
        joins r c = false := by
      intro r c hc
      rw [Bool.eq_false_iff]
      intro hjoin
      have hcont := continues_of_joins hjoin
      rw [head_drop_endPosition c hc] at hcont
      exact absurd hcont (by decide)
    exact iff_of_true ⟨hcards, (sameAttached_iff (hend _)).2 (hend _)⟩ trivial
  | some found =>
    obtain ⟨front, card, rest⟩ := found
    obtain ⟨-, hmatch, -, hidx⟩ := firstEntry_some hentry
    obtain ⟨htake, hdrop⟩ := drop_findChainEnd hentry
    have hcards : setCardForKey cards (normalizeKeyword key) (first :: more) =
        front ++ (trimEnd first :: more.map trimEnd) ++ rest.drop (chainLength card rest) := by
      rw [setCardForKey, hidx]
      show spliceCards front.length (findChainEnd cards front.length) _ cards = _
      rw [spliceCards, htake, hdrop]
      rfl
    have hextent :
        front ++ (trimEnd first :: more.map trimEnd) ++ rest.drop (chainLength card rest) =
        front ++ (trimEnd first :: more.map trimEnd) ++ behindEntry card rest ↔
          ContinuesClean (startReading card) card rest := by
      rw [behindEntry, append_drop_inj (chainLength_le _ _) (joinedLength_le _ _),
        chainLength_eq_iff]
    have hspelled : (trimEnd first :: more.map trimEnd).head?.bind spelling = spelling card ↔
        KeepsSpelling front card key := by
      obtain ⟨kw, hkw⟩ : ∃ kw, keywordOf card = some kw := by
        unfold matchesKey at hmatch
        cases hkw : keywordOf card with
        | none =>
          rw [hkw] at hmatch
          cases hmatch
        | some kw => exact ⟨kw, rfl⟩
      have hstorage := storedKeyword_entry hentry
      rw [hkw, Option.getD_some] at hstorage
      rw [List.head?_cons, Option.bind_some, hspelling, spelling, hkw, Option.map_some,
        Option.some.injEq, Prod.mk.injEq, KeepsSpelling, hkw, Option.getD_some, ← hstorage]
      generalize storedKeyword cards key = stored
      refine and_congr_right fun hsame => ?_
      subst hsame
      by_cases hlong : isHierarchKey stored = true
      · simp [hlong]
      · by_cases hhier : stored = hierarchKey
        · simp [hhier]
        · simp [hlong, hhier]
    have hjoined : SameAttached front (card :: entryTail card rest)
        (trimEnd first :: more.map trimEnd) (behindEntry card rest) ↔
          ∀ c ∈ (behindEntry card rest).head?,
            joins ((trimEnd first :: more.map trimEnd).foldl nextReading none) c = false := by
      rw [sameAttached_iff (behindEntry_stops (continuation_of_matches hmatch)), List.foldl_append,
        foldl_nextReading hnone, foldl_nextReading hnone]
    dsimp only
    rw [hcards, hextent, hspelled, hjoined]

end

/-! ## Deletions -/

/-- What the cards that stay are joined to. -/
def keptAttached (p : Card → Bool) (r : Reading) (cards : List Card) : List (Option Str) :=
  ((cards.zip (attached r cards)).filter fun x => !p x.1).map Prod.snd

/-- No card behind a gap goes on with what stands in front of the gap.  The reading is that
of the last card that stays. -/
def DropsClean (p : Card → Bool) : Reading → Bool → List Card → Prop
  | _, _, [] => True
  | r, gap, card :: rest =>
    if p card = true then DropsClean p r true rest
    else (gap = true → joins r card = false) ∧ DropsClean p (nextReading r card) false rest

/-- The deletion touches one entry: its cards are gone, and the other cards are joined as
before.  The entry of a commentary key is all its texts. -/
def DeleteTouchesOne (cards cards' : List Card) (lookup : Str) : Prop :=
  if isCommentaryKey lookup = true then
    let gone := cardMatchesCommentaryKeyword lookup
    cards' = cards.filter (fun c => !gone c) ∧ keptAttached gone none cards = attached none cards'
  else
    match firstEntry lookup cards with
    | some (front, card, rest) =>
      cards' = front ++ behindEntry card rest ∧
        SameAttached front (card :: entryTail card rest) [] (behindEntry card rest)
    | none => False

/-- The condition for a deletion: the chain of the entry is clean, and no continuation card
behind goes on with the text in front. -/
def DeleteClean (cards : List Card) (lookup : Str) : Prop :=
  if isCommentaryKey lookup = true then
    DropsClean (cardMatchesCommentaryKeyword lookup) none false cards
  else
    match firstEntry lookup cards with
    | some (front, card, rest) =>
      ContinuesClean (startReading card) card rest ∧
        ∀ c ∈ (behindEntry card rest).head?, joins (front.foldl nextReading none) c = false
    | none => False

section

variable {p : Card → Bool} {cards cards' : List Card} {card : Card} {key lookup : Str}

theorem joins_of_none (h : continuationText card = none) (r : Reading) : joins r card = false := by
  cases r with
  | none => rfl
  | some x => rw [joins, h, Option.isSome_none, Bool.and_false]

theorem keptAttached_iff (hp : ∀ c, p c = true → continuationText c = none ∧
    startReading c = none) :
    ∀ (r : Reading) (gap : Bool), keptAttached p (if gap then none else r) cards =
      attached r (cards.filter fun c => !p c) ↔ DropsClean p r gap cards := by
  induction cards with
  | nil => exact fun _ _ => iff_of_true rfl trivial
  | cons card rest ih =>
    intro r gap
    rw [keptAttached, attached, List.zip_cons_cons, DropsClean]
    by_cases hcard : p card = true
    · obtain ⟨hnone, hstart⟩ := hp card hcard
      rw [if_pos hcard, List.filter_cons_of_neg (by simp [hcard]),
        List.filter_cons_of_neg (by simp [hcard]),
        nextReading_of_not_joins (joins_of_none hnone _), hstart, ← ih r true]
      rfl
    · have hkeep : p card = false := Bool.eq_false_iff.2 hcard
      rw [if_neg hcard, List.filter_cons_of_pos (by simp [hkeep]),
        List.filter_cons_of_pos (by simp [hkeep]), attached, List.map_cons, List.cons.injEq]
      cases gap with
      | false =>
        have hih := ih (nextReading r card) false
        rw [if_neg Bool.false_ne_true] at hih
        rw [if_neg Bool.false_ne_true, ← hih]
        simp [keptAttached]
      | true =>
        rw [if_pos rfl]
        by_cases hjoin : joins r card = true
        · refine iff_of_false (fun h => ?_) fun h => ?_
          · obtain ⟨keyword, s, -, rfl, -⟩ := joins_some hjoin
            rw [if_pos hjoin] at h
            cases h.1
          · rw [h.1 rfl] at hjoin
            exact Bool.noConfusion hjoin
        · have hnot := Bool.eq_false_iff.2 hjoin
          have hih := ih (nextReading r card) false
          rw [if_neg Bool.false_ne_true] at hih
          have hnone : nextReading none card = nextReading r card := by
            rw [nextReading_of_not_joins hnot, nextReading_of_not_joins rfl]
          rw [hnone, ← hih, hnot]
          simp [keptAttached, joins]

/-- A commentary card neither continues a value nor starts one. -/
theorem commentary_starts_nothing (hkey : isCommentaryKey lookup = true)
    (h : cardMatchesCommentaryKeyword lookup card = true) :
    continuationText card = none ∧ startReading card = none := by
  have hfield : keywordField card = lookup := by
    rw [keywordField]
    unfold cardMatchesCommentaryKeyword at h
    dsimp only at h
    split_ifs at h with hempty
    · rw [Bool.and_eq_true, List.isEmpty_iff] at h
      rw [h.2, List.isEmpty_iff.1 hempty]
    · rw [Bool.and_eq_true, decide_eq_true_eq] at h
      exact h.2
  have hall : ∀ k ∈ [commentKey, historyKey, []], k ≠ continueKey ∧
      skippedKeys.contains k = true := by
    decide
  obtain ⟨hne, hskip⟩ := hall lookup (by simpa [isCommentaryKey, or_assoc] using hkey)
  constructor
  · rw [continuationText, if_neg]
    rw [Bool.and_eq_true]
    rintro ⟨hcont, -⟩
    exact hne (hfield.symm.trans (keywordField_continue hcont))
  · rw [startReading, dictKeyword, hfield, if_pos (by rw [hskip, Bool.or_true])]

theorem headerDelItem_ok (h : headerDelItem key cards = .ok () cards') :
    (isCommentaryKey (normalizeKeyword key) = true ∧
      cards' = deleteCommentaryCards cards (normalizeKeyword key)) ∨
    (isCommentaryKey (normalizeKeyword key) = false ∧
      deleteCardForKey cards (normalizeKeyword key) = some cards') := by
  unfold headerDelItem at h
  dsimp only at h
  by_cases hprot : isProtectedKey (normalizeKeyword key) = true
  · rw [if_pos hprot] at h
    cases h
  · rw [if_neg hprot, get_bind_cards] at h
    by_cases hcom : isCommentaryKey (normalizeKeyword key) = true
    · rw [if_pos hcom] at h
      split_ifs at h
      · cases h
        exact Or.inl ⟨hcom, rfl⟩
      · cases h
    · rw [if_neg hcom] at h
      right
      cases hdel : deleteCardForKey cards (normalizeKeyword key) with
      | none =>
        rw [hdel] at h
        cases h
      | some kept =>
        rw [hdel] at h
        cases h
        exact ⟨Bool.eq_false_iff.2 hcom, rfl⟩

/-- A deletion touches one entry exactly under the condition. -/
theorem delItem_touches_iff (h : headerDelItem key cards = .ok () cards') :
    DeleteTouchesOne cards cards' (normalizeKeyword key) ↔
    DeleteClean cards (normalizeKeyword key) := by
  rw [DeleteTouchesOne, DeleteClean]
  rcases headerDelItem_ok h with ⟨hkey, rfl⟩ | ⟨hkey, hdel⟩
  · rw [if_pos hkey, if_pos hkey, ← keptAttached_iff fun c hc => commentary_starts_nothing hkey hc]
    exact and_iff_right rfl
  · rw [if_neg (by rw [hkey]; exact Bool.false_ne_true),
      if_neg (by rw [hkey]; exact Bool.false_ne_true)]
    cases hentry : firstEntry (normalizeKeyword key) cards with
    | none =>
      rw [deleteCardForKey, firstEntry_none hentry] at hdel
    | some found =>
      obtain ⟨front, card, rest⟩ := found
      obtain ⟨-, hmatch, -, hidx⟩ := firstEntry_some hentry
      obtain ⟨htake, hdrop⟩ := drop_findChainEnd hentry
      have hcards : cards' = front ++ rest.drop (chainLength card rest) := by
        rw [deleteCardForKey, hidx, Option.map_some, Option.some.injEq, spliceCards, htake, hdrop,
          List.append_nil] at hdel
        exact hdel.symm
      dsimp only
      rw [hcards, behindEntry, append_drop_inj (chainLength_le _ _) (joinedLength_le _ _),
        chainLength_eq_iff, ← behindEntry,
        sameAttached_iff (behindEntry_stops (continuation_of_matches hmatch)), List.append_nil]

/-- An assignment and a deletion that succeed touch exactly one entry under their conditions,
and only then. -/
theorem touches_one_iff {F : Type} (floats : Floats F) (key : Str) (value : HeaderValue F)
    (comment : Option Str) (cards cards' : List Card) :
    (headerSetItem floats key value comment cards = .ok () cards' →
      ∃ new, writtenCards floats cards key value comment = .ok new ∧
        (SetTouchesOne cards cards' new (normalizeKeyword key) ↔ SetClean cards new key)) ∧
    (headerDelItem key cards = .ok () cards' →
      (DeleteTouchesOne cards cards' (normalizeKeyword key) ↔
        DeleteClean cards (normalizeKeyword key))) :=
  ⟨setItem_touches_iff, delItem_touches_iff⟩

/-- A blank behind the ampersand, a blank card in front of a HIERARCH card in small letters,
and a continuation card that nothing continues. -/
def looseChains : List Card :=
  [str "A       = 'x& '", str "CONTINUE  'y'", [], str "HIERARCH my key = 1", str "B       = 'u&'",
    str "C       = 1", str "CONTINUE  'v'", endCard]

/-- The assignment to A leaves the card that was joined to it, the assignment to the HIERARCH
card changes its spelling, and the deletion of C joins the card behind it to B. -/
theorem touches_others_loose :
    attached none looseChains = [none, some (str "A"), none, none, none, none, none, none] ∧
    headerSetItem exampleFloats (str "A") (.integer 5) none looseChains = .ok ()
      (trimEnd (cardInt (str "A") 5 []) :: looseChains.tail) ∧
    (∃ cards', headerSetItem exampleFloats (str "MY KEY") (.integer 2) none looseChains =
      .ok () cards' ∧
      cards'.getD 3 [] = str "HIERARCH MY KEY = 2") ∧
    (∃ cards', headerDelItem (str "C") looseChains = .ok () cards' ∧
      readKey exampleFloats looseChains (str "B") = some (.string (str "u&"), []) ∧
      readKey exampleFloats cards' (str "B") = some (.string (str "uv"), [])) := by
  refine ⟨?_, rfl, ⟨_, rfl, ?_⟩, ⟨_, rfl, ?_⟩⟩
  · decide +kernel
  · decide +kernel
  · decide +kernel

end

end RustFits.Header
