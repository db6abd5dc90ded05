import RustFits.Header.RoundTrip
import RustFits.Lib.Dict

/-!
# Reading a header

The read accessors of `FITSHeader`: `__getitem__` and `comment_of`, which look one
card up, `keys`, and the dictionary of `to_dict`, which both walk over all cards.

* `heldValue` is what the lookup sees of a card; `findCardForKey` is the first card
  with such a value (`findCardForKey_cons`).
* `holder` is that card with the cards behind it.
-/

namespace RustFits.Header

open Ascii

/-- The result of `header[key]`: the texts of a commentary key, or a value. -/
inductive Shown (F : Type) where
  | texts (items : List Str)
  | value (v : HeaderValue F)
  deriving DecidableEq, Repr

/-- `collect_commentary_texts`. -/
def collectCommentaryTexts (cards : List Card) (keyword : Str) : List Str :=
  cards.filterMap fun card =>
    let card := trimEnd card
    if !card.isEmpty && decide (trim (card.take 8) = keyword) then some (card.drop 8) else none

/-- `collect_blank_commentary_texts`. -/
def collectBlankCommentaryTexts (cards : List Card) : List Str :=
  cards.filterMap fun card =>
    let card := trimEnd card
    if decide (8 < card.length) && (trim (card.take 8)).isEmpty then some (card.drop 8) else none

/-- The texts under a commentary key. -/
def commentaryTexts (cards : List Card) (key : Str) : List Str :=
  if key.isEmpty then collectBlankCommentaryTexts cards else collectCommentaryTexts cards key

section

variable {F : Type} (floats : Floats F)

/-- `__getitem__`. -/
def headerGetItem (cards : List Card) (key : Str) : Except PyErr (Shown F) :=
  let key := normalizeKeyword key
  if isCommentaryKey key then
    if (commentaryTexts cards key).isEmpty then .error (notInHeader key)
    else .ok (.texts (commentaryTexts cards key))
  else
    match readKey floats cards key with
    | some found => .ok (.value found.1)
    | none => .error (notInHeader key)

/-- `comment_of`. -/
def commentOf (cards : List Card) (key : Str) : Except PyErr Str :=
  let key := normalizeKeyword key
  if isCommentaryKey key then
    .error (.value (str "comment_of() is not defined for commentary keys (COMMENT/HISTORY/blank)"))
  else
    match readKey floats cards key with
    | some found => .ok found.2
    | none => .error (notInHeader key)

end

/-! ## All keywords -/

/-- The keywords that `keys` leaves out. -/
def unlistedKeys : List Str := [str "END", continueKey]

/-- The loop of `unique_keys_in_order`, with the lookup forms seen so far. -/
def collectUniqueKeys : List Str → List Card → List Str
  | _, [] => []
  | seen, card :: rest =>
    match keywordOf card with
    | none => collectUniqueKeys seen rest
    | some kw =>
      if unlistedKeys.contains kw then collectUniqueKeys seen rest
      else if seen.contains (normalizeKeyword kw) then collectUniqueKeys seen rest
      else kw :: collectUniqueKeys (normalizeKeyword kw :: seen) rest

/-- `unique_keys_in_order`. -/
def uniqueKeysInOrder (cards : List Card) : List Str := collectUniqueKeys [] cards

/-! ## The dictionary -/

/-- A value of the dictionary: that of a card with its comment, or texts. -/
inductive DictEntry (F : Type) where
  | card (value : HeaderValue F) (comment : Str)
  | texts (items : List Str)
  deriving DecidableEq, Repr

/-- The state of the walk: the dictionary and the three lists of texts. -/
structure DictState (F : Type) where
  entries : List (Str × DictEntry F)
  comments : List Str
  history : List Str
  blanks : List Str
  deriving DecidableEq, Repr

/-- The number of cards that `readContinued` joins. -/
def continuedCount : Str → List Card → Nat
  | _, [] => 0
  | s, next :: rest =>
    let raw := splitValueComment (afterKeyword (trimEnd next))
    if s.getLast? == some 0x26 && continueKey.isPrefixOf (trimEnd next) && isQuoted raw.1 then
      continuedCount (s.dropLast ++ extractFitsString raw.1) rest + 1
    else 0

/-- The number of cards behind that belong to a value. -/
def joinedCount (following : List Card) (valuePart : Str) : Nat :=
  let raw := splitValueComment valuePart
  if isQuoted raw.1 then continuedCount (extractFitsString raw.1) following else 0

section

variable {F : Type} (floats : Floats F)

/-- The loop of `parse_header_dict`.  The number is that of the cards that were joined to
the value in front of them. -/
def walkHeaderDict : Nat → List Card → DictState F → DictState F
  | _, [], st => st
  | skip + 1, _ :: rest, st => walkHeaderDict skip rest st
  | 0, card :: rest, st =>
    let card := trimEnd card
    let keyword := trim (card.take 8)
    if card.isEmpty then walkHeaderDict 0 rest st
    else if keyword = str "END" then walkHeaderDict 0 rest st
    else if keyword = commentKey then
      walkHeaderDict 0 rest { st with comments := st.comments ++ [card.drop 8] }
    else if keyword = historyKey then
      walkHeaderDict 0 rest { st with history := st.history ++ [card.drop 8] }
    else if keyword = [] then
      walkHeaderDict 0 rest { st with blanks := st.blanks ++ [card.drop 8] }
    else if keyword = continueKey then walkHeaderDict 0 rest st
    else
      match afterEquals card with
      | none => walkHeaderDict 0 rest st
      | some valuePart =>
        let long := trim ((card.takeWhile fun b => b != 0x3D).drop 8)
        if keyword = hierarchKey ∧ long = [] then walkHeaderDict 0 rest st
        else
          let parsed := parseValueWithContinue floats rest valuePart
          let entry := DictEntry.card parsed.1 parsed.2
          let key := if keyword = hierarchKey then long else keyword
          walkHeaderDict (joinedCount rest valuePart) rest
            { st with entries := Dict.setItem key entry st.entries }

/-- Set a list of texts that is not empty. -/
def setTexts (key : Str) (items : List Str) (entries : List (Str × DictEntry F)) :
    List (Str × DictEntry F) :=
  if items.isEmpty then entries else Dict.setItem key (.texts items) entries

/-- `parse_header_dict`. -/
def parseHeaderDict (cards : List Card) : List (Str × DictEntry F) :=
  let st := walkHeaderDict floats 0 cards ⟨[], [], [], []⟩
  setTexts [] st.blanks
    (setTexts historyKey st.history (setTexts commentKey st.comments st.entries))

end

/-! ## The card of a key -/

/-- The keyword field of a card. -/
def keywordField (card : Card) : Str := trim ((trimEnd card).take 8)

/-- The keyword that the lookup compares. -/
def lookupKeyword (card : Card) : Str :=
  if keywordField card = hierarchKey then
    trim (((trimEnd card).takeWhile fun b => b != 0x3D).drop 8)
  else keywordField card

/-- What the lookup of `key` sees of a card: the text behind the equals sign. -/
def heldValue (key : Str) (card : Card) : Option Str :=
  if (trimEnd card).isEmpty || skippedKeys.contains (keywordField card) then none
  else if normalizeKeyword (lookupKeyword card) = key then afterEquals (trimEnd card)
  else none

/-- The first card that holds `key`, with the cards behind it. -/
def firstHolder (key : Str) : List Card → Option (Card × List Card)
  | [] => none
  | card :: rest => if (heldValue key card).isSome then some (card, rest) else firstHolder key rest

/-- The card that `header[key]` reads; a commentary key has none. -/
def holder (cards : List Card) (key : Str) : Option (Card × List Card) :=
  if isCommentaryKey key then none else firstHolder key cards

section

variable {key : Str} {card : Card} {cards rest : List Card}

theorem findCardForKey_held (card : Card) (rest : List Card) (key : Str) :
    findCardForKey (card :: rest) key =
      match heldValue key card with
      | some value => some (rest, value)
      | none => findCardForKey rest key := by
  rw [findCardForKey]
  unfold heldValue lookupKeyword keywordField
  dsimp only
  by_cases hskip :
      ((trimEnd card).isEmpty || skippedKeys.contains (trim ((trimEnd card).take 8))) = true
  · rw [if_pos hskip, if_pos hskip]
  · rw [if_neg hskip, if_neg hskip]
    cases afterEquals (trimEnd card) with
    | none =>
      split_ifs
      · rfl
      · rfl
      · rfl
      · rfl
    | some value =>
      dsimp only
      split_ifs
      · rfl
      · rfl
      · rfl
      · rfl

theorem findCardForKey_eq (cards : List Card) (key : Str) :
    findCardForKey cards key =
      (firstHolder key cards).bind fun c => (heldValue key c.1).map fun value => (c.2, value) := by
  induction cards with
  | nil => rfl
  | cons card rest ih =>
    rw [findCardForKey_held, firstHolder]
    cases hheld : heldValue key card with
    | none => rw [Option.isSome_none, if_neg Bool.false_ne_true, ih]
    | some value => rw [Option.isSome_some, if_pos rfl, Option.bind_some, hheld, Option.map_some]

theorem firstHolder_some (h : firstHolder key cards = some (card, rest)) :
    ∃ front, cards = front ++ card :: rest ∧ (heldValue key card).isSome = true ∧
      ∀ c ∈ front, heldValue key c = none := by
  induction cards with
  | nil => cases h
  | cons c cards ih =>
    rw [firstHolder] at h
    by_cases hheld : (heldValue key c).isSome = true
    · rw [if_pos hheld] at h
      cases h
      exact ⟨[], rfl, hheld, by simp⟩
    · rw [if_neg hheld] at h
      obtain ⟨front, hcards, hcard, hfront⟩ := ih h
      refine ⟨c :: front, by rw [hcards, List.cons_append], hcard, ?_⟩
      exact List.forall_mem_cons.2 ⟨by simpa using hheld, hfront⟩

theorem firstHolder_none (h : firstHolder key cards = none) :
    ∀ c ∈ cards, heldValue key c = none := by
  induction cards with
  | nil => simp
  | cons c cards ih =>
    rw [firstHolder] at h
    by_cases hheld : (heldValue key c).isSome = true
    · rw [if_pos hheld] at h
      cases h
    · rw [if_neg hheld] at h
      exact List.forall_mem_cons.2 ⟨by simpa using hheld, ih h⟩

end

end RustFits.Header
