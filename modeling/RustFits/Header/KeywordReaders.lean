import RustFits.Header.TextReaders

/-!
# The two readers of a keyword

The layout of an HDU is read by `parse_keyword` and `parse_string_keyword` of
`common.rs`, the header that the user sees by `find_card_for_key` and
`parse_value_with_continue` of `header.rs`.  The two find a card in different ways and cut
its value in different ways.

`NumbersAgree` and `TextsAgree` are the conditions on the text of the cards under which
they give the same, and `readers_agree_iff` is the equivalence.
-/

namespace RustFits.Header

open Ascii

/-! ## Card lists -/

/-- A character of an upper-case standard keyword. -/
def isStandardChar (b : UInt8) : Bool :=
  (0x41 ≤ b && b ≤ 0x5A) || isDigit b || b == 0x2D || b == 0x5F

/-- An upper-case standard keyword. -/
def IsStandardKey (key : Str) : Prop :=
  key ≠ [] ∧ key.length ≤ 8 ∧ ∀ b ∈ key, isStandardChar b = true

/-- The equals sign stands in column 9. -/
def HasIndicator (card : Card) : Prop := (str "=").isPrefixOf (card.drop 8) = true

/-- The number is followed by what both readers accept, or it is none. -/
def SameNumber (v : Str) : Prop :=
  onlyMarks (behindNumber v) = onlyComment (behindNumber v) ∨ parseI64 (numberText v) = none

/-- The value starts with an integer, and up to the next white space only quotes and slashes
follow it. -/
def MarkedInteger (v : Str) : Prop :=
  onlyMarks (behindNumber v) = true ∧ parseI64 (numberText v) ≠ none

/-- The value is an integer, and at most a comment follows it. -/
def CommentedInteger (v : Str) : Prop :=
  onlyComment (behindNumber v) = true ∧ parseI64 (numberText v) ≠ none

/-- Two values hold the same integer, or neither holds one. -/
def SameInteger (other v : Str) : Prop :=
  MarkedInteger other ∧ CommentedInteger v ∧
      parseI64 (numberText other) = parseI64 (numberText v) ∨
    ¬ MarkedInteger other ∧ ¬ CommentedInteger v

/-- The cards of a keyword hold the same integer for `parse_keyword` and for the header.
Where the card that the header reads is in upper case and has a value, `parse_keyword` stops
there too.  Else it stops at the first later card that is and has; where the header reads no
card of the keyword, that card must not hold an integer. -/
def NumbersAgree (cards : List Card) (key : Str) : Prop :=
  match holder cards key, cards.find? (decidesKey key) with
  | none, none => True
  | none, some other => ¬ MarkedInteger (other.drop 9)
  | some (card, _), none => ¬ CommentedInteger (card.drop 9)
  | some (card, _), some other =>
    if decidesKey key card = true then SameNumber (card.drop 9)
    else SameInteger (other.drop 9) (card.drop 9)

section

variable {F : Type} (floats : Floats F)

/-- The value is this text: in quotes, with the cards that go on with it, or plain. -/
def SpellsText (following : List Card) (v s : Str) : Prop :=
  let raw := (splitValueComment v).1
  if isQuoted raw = true then (readContinued (extractFitsString raw) [] following).1 = s
  else showsText floats v = true ∧ raw = s

/-- The cards of a keyword hold the same text for `parse_string_keyword` and for the header.
The cases are those of `NumbersAgree`; a card in upper case decides whatever its value is. -/
def TextsAgree (cards : List Card) (key : Str) : Prop :=
  match holder cards key, cards.find? (isValueCard key) with
  | none, none => True
  | none, some other => openText (other.drop 9) = none
  | some (card, _), none => showsText floats (card.drop 9) = false
  | some (card, following), some other =>
    if isValueCard key card = true then TextAgrees floats following (card.drop 9)
    else
      match openText (other.drop 9) with
      | none => showsText floats (card.drop 9) = false
      | some (t, _) => SpellsText floats following (card.drop 9) (trimEnd t)

end

section

variable {cards rest : List Card} {card : Card} {key s v w : Str}

theorem parseKeyword_find (cards : List Card) (key : Str) :
    parseKeyword cards key =
      (cards.find? (decidesKey key)).bind fun card => readNumber (card.drop 9) := by
  induction cards with
  | nil => rfl
  | cons card cards ih =>
    cases hdecides : decidesKey key card with
    | false => rw [parseKeyword_cons_of_not_decides hdecides,
      List.find?_cons_of_neg (by simp [hdecides]), ih]
    | true =>
      rw [List.find?_cons_of_pos hdecides, Option.bind_some, ← token_number]
      simp only [decidesKey, Bool.and_eq_true, Option.isSome_iff_exists] at hdecides
      obtain ⟨hcard, token, htoken⟩ := hdecides
      rw [parseKeyword, if_pos hcard, htoken]
      dsimp only
      obtain ⟨start, hstart, rfl⟩ := Option.map_eq_some_iff.1 htoken
      unfold nextToken at hstart
      cases htrim : trimStart (card.drop 9) with
      | nil =>
        rw [htrim] at hstart
        cases hstart
      | cons b more =>
        rw [htrim] at hstart
        rw [← Option.some.inj hstart]

theorem parseStringKeyword_find (cards : List Card) (key : Str) :
    parseStringKeyword cards key =
      (cards.find? (isValueCard key)).bind fun card => readText (card.drop 9) := by
  induction cards with
  | nil => rfl
  | cons card cards ih =>
    rw [parseStringKeyword]
    by_cases hcard : isValueCard key card = true
    · rw [if_pos hcard, List.find?_cons_of_pos hcard, Option.bind_some, readText, openText]
      cases trimStart (card.drop 9) with
      | nil => rfl
      | cons b afterOpen =>
        by_cases hb : b = 0x27
        · rw [hb]
          show (closeQuote afterOpen).map trimEnd = (cutQuote afterOpen).map fun x => trimEnd x.1
          rw [closeQuote_eq, Option.map_map]
          rfl
        · simp [hb]
    · rw [if_neg hcard, List.find?_cons_of_neg hcard, ih]

theorem IsStandardKey.token (h : IsStandardKey key) : IsToken key := by
  refine ⟨h.1, fun b hb => ?_⟩
  have hcheck : ∀ b : UInt8, isStandardChar b = true → isWhitespace b = false := by
    apply forall_byte
    decide +kernel
  exact hcheck b (h.2.2 b hb)

example : normalizeKeyword (str " naxis1 ") = str "NAXIS1" := by decide +kernel

theorem normalizeKeyword_standard (h : IsStandardKey key) : normalizeKeyword key = key := by
  have hcheck : ∀ b : UInt8, isStandardChar b = true →
      b ≠ blank ∧ ¬(0x61 ≤ b && b ≤ 0x7A) = true := by
    apply forall_byte
    decide +kernel
  have hupper : toAsciiUppercase key = key := by
    rw [toAsciiUppercase]
    conv_rhs => rw [← List.map_id key]
    refine List.map_congr_left fun b hb => ?_
    rw [if_neg (hcheck b (h.2.2 b hb)).2, id]
  have hlong : isHierarchKey key = false := by
    have hblank : key.contains blank = false := by
      rw [Bool.eq_false_iff, ne_eq, List.contains_iff_mem]
      exact fun hb => (hcheck blank (h.2.2 blank hb)).1 rfl
    rw [isHierarchKey, hblank, Bool.or_false]
    simpa using h.2.1
  rw [normalizeKeyword, trim_of_isToken h.token, hlong, if_neg Bool.false_ne_true, hupper]

/-- A byte that is no white space and no small letter is in the lookup form. -/
theorem mem_normalizeKeyword {b : UInt8} (hb : b ∈ s) (hwhite : isWhitespace b = false)
    (hsmall : (0x61 ≤ b && b ≤ 0x7A) = false) : b ∈ normalizeKeyword s := by
  have hupper : ∀ t : Str, b ∈ t → b ∈ toAsciiUppercase t := by
    intro t ht
    refine List.mem_map.2 ⟨b, ht, ?_⟩
    rw [hsmall, if_neg Bool.false_ne_true]
  have hjoin : ∀ (t : Str) (gap : Bool), b ∈ t → b ∈ joinWords gap t := by
    intro t
    induction t with
    | nil => exact fun _ ht => ht
    | cons c t ih =>
      intro gap ht
      rw [joinWords]
      rcases List.mem_cons.1 ht with rfl | ht
      · rw [hwhite, if_neg Bool.false_ne_true]
        split_ifs <;> simp
      · split_ifs
        · exact ih true ht
        · exact List.mem_cons_of_mem _ (List.mem_cons_of_mem _ (ih false ht))
        · exact List.mem_cons_of_mem _ (ih false ht)
  have htrim := mem_trim_of_not_white hb hwhite
  rw [normalizeKeyword]
  split_ifs
  · apply hupper
    rw [collapseWhitespace]
    apply hjoin
    obtain ⟨x, hx, hsplit⟩ := trimStart_split (trim s)
    rw [hsplit] at htrim
    rcases List.mem_append.1 htrim with hb' | hb'
    · rw [hx b hb'] at hwhite
      exact Bool.noConfusion hwhite
    · exact hb'
  · exact hupper _ htrim

/-- The keyword field of a card with the equals sign in column 9. -/
theorem indicator_split (h : HasIndicator card) :
    ∃ front u w, card = front ++ 0x3D :: (u ++ w) ∧ front.length = 8 ∧
      (∀ b ∈ w, isWhitespace b = true) ∧ trimEnd card = front ++ 0x3D :: u ∧
        keywordField card = trim front := by
  obtain ⟨v, hv⟩ := List.isPrefixOf_iff_prefix.1 h
  have hlen : 8 ≤ card.length := by
    by_contra hshort
    rw [List.drop_of_length_le (by omega)] at hv
    cases hv
  have hcard : card = card.take 8 ++ 0x3D :: v := by
    conv_lhs => rw [← List.take_append_drop 8 card, ← hv]
    rfl
  have hfront : (card.take 8).length = 8 := by rw [List.length_take]; omega
  have htrim : trimEnd card = card.take 8 ++ 0x3D :: trimEnd v := by
    conv_lhs => rw [hcard, trimEnd_append (by decide)]
  refine ⟨card.take 8, trimEnd v, v.rtakeWhile isWhitespace, ?_, hfront, ?_, htrim, ?_⟩
  · rw [trimEnd, List.rdropWhile_append_rtakeWhile]
    exact hcard
  · exact fun b hb => List.mem_rtakeWhile_imp hb
  · rw [keywordField, htrim, List.take_left' hfront]

/-- What the header reads of a card with the equals sign in column 9. -/
theorem heldValue_indicator (hkey : IsStandardKey key) (h : HasIndicator card)
    (hheld : heldValue key card = some v) :
    ∃ w, (∀ b ∈ w, isWhitespace b = true) ∧ card.drop 9 = v ++ w := by
  obtain ⟨front, u, w, hcard, hfront, hw, htrim, hfield⟩ := indicator_split h
  unfold heldValue at hheld
  split_ifs at hheld with hskip hnormal
  have hequals : (0x3D : UInt8) ∉ front := by
    intro hmem
    rw [lookupKeyword] at hnormal
    by_cases hlong : keywordField card = hierarchKey
    · rw [hfield] at hlong
      rw [eq_of_trim_eq hlong (by rw [hfront]; decide)] at hmem
      exact absurd hmem (by decide)
    · rw [if_neg hlong, hfield] at hnormal
      have hin :=
        mem_normalizeKeyword (mem_trim_of_not_white hmem (by decide)) (by decide) (by decide)
      rw [hnormal] at hin
      exact absurd (hkey.2.2 _ hin) (by decide)
  rw [htrim, afterEquals_front hequals, Option.some.injEq] at hheld
  refine ⟨w, hw, ?_⟩
  rw [hcard, ← hheld, List.append_cons]
  exact List.drop_left' (by rw [List.length_append, hfront]; rfl)

/-- A card that `parse_keyword` takes is held, unless no lookup finds the keyword. -/
theorem heldValue_of_valueCard (hkey : IsStandardKey key) (hcard : isValueCard key card = true) :
    (heldValue key card).isSome = true ↔ key ∉ skippedKeys ∧ key ≠ hierarchKey := by
  simp only [isValueCard, Bool.and_eq_true, decide_eq_true_eq] at hcard
  obtain ⟨⟨hlen, hfield⟩, hequals⟩ := hcard
  obtain ⟨front, u, w, hsplit, hfront, -, htrim, hkeyword⟩ := indicator_split hequals
  rw [hsplit, List.take_left' hfront] at hfield
  rw [hfield] at hkeyword
  have hempty : (trimEnd card).isEmpty = false := by simp [htrim]
  have hnot : (0x3D : UInt8) ∉ front := by
    intro hmem
    have hin := mem_trim_of_not_white hmem (by decide)
    rw [hfield] at hin
    exact absurd (hkey.2.2 _ hin) (by decide)
  rw [heldValue, hempty, Bool.false_or, hkeyword]
  by_cases hskip : key ∈ skippedKeys
  · rw [if_pos (List.contains_iff_mem.2 hskip)]
    exact iff_of_false (by simp) fun hboth => hboth.1 hskip
  · rw [if_neg fun hin => hskip (List.contains_iff_mem.1 hin), lookupKeyword, hkeyword]
    by_cases hlong : key = hierarchKey
    · have hnil :
          normalizeKeyword (trim (((trimEnd card).takeWhile fun b => b != 0x3D).drop 8)) = [] := by
        rw [htrim, takeWhile_equals u hnot, List.drop_of_length_le (Nat.le_of_eq hfront)]
        rfl
      rw [if_pos hlong, hnil, if_neg fun heq => hkey.1 heq.symm]
      exact iff_of_false (by simp) fun hboth => hboth.2 hlong
    · rw [if_neg hlong, if_pos (normalizeKeyword_standard hkey), htrim, afterEquals_front hnot]
      exact iff_of_true rfl ⟨hskip, hlong⟩

/-- White space at the end of a value does not matter. -/
theorem splitValueComment_white (hw : ∀ b ∈ w, isWhitespace b = true) (v : Str) :
    splitValueComment (v ++ w) = splitValueComment v := by
  have hcut : ∀ (v : Str) (inString : Bool), ∃ x y, (∀ b ∈ x, isWhitespace b = true) ∧
      (∀ b ∈ y, isWhitespace b = true) ∧ cutComment inString (v ++ w) =
        ((cutComment inString v).1 ++ x, (cutComment inString v).2 ++ y) := by
    intro v
    induction v with
    | nil =>
      intro inString
      refine ⟨w, [], hw, by simp, ?_⟩
      have hwhite : ∀ {w : Str}, (∀ b ∈ w, isWhitespace b = true) →
          cutComment inString w = (w, []) := by
        intro w
        induction w with
        | nil => exact fun _ => rfl
        | cons b w ih =>
          intro hw
          have hb := hw b List.mem_cons_self
          have hq : b ≠ 0x27 := by
            rintro rfl
            exact absurd hb (by decide)
          have hs : b ≠ 0x2F := by
            rintro rfl
            exact absurd hb (by decide)
          rw [cutComment, if_neg hq, if_neg (by simp [hs]),
            ih fun c hc => hw c (List.mem_cons_of_mem _ hc)]
      exact hwhite hw
    | cons b v ih =>
      intro inString
      rw [List.cons_append, cutComment, cutComment]
      by_cases hq : b = 0x27
      · obtain ⟨x, y, hx, hy, heq⟩ := ih (!inString)
        rw [if_pos hq, if_pos hq, heq]
        exact ⟨x, y, hx, hy, rfl⟩
      · rw [if_neg hq, if_neg hq]
        by_cases hs : (decide (b = 0x2F) && !inString) = true
        · rw [if_pos hs, if_pos hs]
          exact ⟨[], w, by simp, hw, rfl⟩
        · obtain ⟨x, y, hx, hy, heq⟩ := ih inString
          rw [if_neg hs, if_neg hs, heq]
          exact ⟨x, y, hx, hy, rfl⟩
  obtain ⟨x, y, hx, hy, heq⟩ := hcut v false
  rw [splitValueComment, splitValueComment, heq]
  dsimp only
  rw [trim_append_white _ hx, trim_append_white _ hy]

end

section

variable {F : Type} {floats : Floats F} {cards rest : List Card} {card : Card} {key : Str}
  {value : HeaderValue F}

/-- The cards of the keyword have the equals sign in column 9. -/
def Indicated (cards : List Card) (key : Str) : Prop :=
  ∀ card ∈ cards, (heldValue key card).isSome = true → HasIndicator card

theorem parse_white {w : Str} (hw : ∀ b ∈ w, isWhitespace b = true) (v : Str) :
    parseValueWithContinue floats rest (v ++ w) = parseValueWithContinue floats rest v := by
  unfold parseValueWithContinue
  rw [splitValueComment_white hw]

/-- A value of the header is the one of the card that holds the keyword. -/
theorem headerGetItem_value (hkey : IsStandardKey key) (hindicated : Indicated cards key) :
    headerGetItem floats cards key = .ok (.value value) ↔
      ∃ card rest, holder cards key = some (card, rest) ∧
        (parseValueWithContinue floats rest (card.drop 9)).1 = value := by
  rw [headerGetItem, normalizeKeyword_standard hkey, holder]
  by_cases hcommentary : isCommentaryKey key = true
  · rw [if_pos hcommentary, if_pos hcommentary]
    refine iff_of_false (fun h => ?_) (by simp)
    split_ifs at h
    · cases Except.ok.inj h
  · rw [if_neg hcommentary, if_neg hcommentary, readKey, findCardForKey_eq]
    cases hholder : firstHolder key cards with
    | none => simp
    | some found =>
      obtain ⟨card, rest⟩ := found
      obtain ⟨front, hcards, hheld, -⟩ := firstHolder_some hholder
      obtain ⟨v, hv⟩ := Option.isSome_iff_exists.1 hheld
      obtain ⟨w, hw, hdrop⟩ := heldValue_indicator hkey
        (hindicated card (by rw [hcards]; simp) hheld) hv
      have hparse : parseValueWithContinue floats rest v =
          parseValueWithContinue floats rest (card.drop 9) := by rw [hdrop, parse_white hw]
      simp [hv, hparse]

/-- A card that both readers take is the first for both. -/
theorem find_holder {p : Card → Bool} (hkey : IsStandardKey key)
    (hp : ∀ c, p c = true → isValueCard key c = true)
    (hholder : holder cards key = some (card, rest))
    (hcard : p card = true) : cards.find? p = some card := by
  rw [holder] at hholder
  split_ifs at hholder
  obtain ⟨front, rfl, hheld, hfront⟩ := firstHolder_some hholder
  have hfree := (heldValue_of_valueCard hkey (hp card hcard)).1 hheld
  have hskip : front.find? p = none := by
    rw [List.find?_eq_none]
    intro c hc hpc
    have := (heldValue_of_valueCard hkey (hp c hpc)).2 hfree
    rw [hfront c hc] at this
    exact Bool.noConfusion this
  rw [List.find?_append, hskip, Option.none_or, List.find?_cons_of_pos hcard]

theorem sameNumber_iff (v : Str) : readNumber v = shownNumber v ↔ SameNumber v := by
  unfold readNumber shownNumber SameNumber
  cases onlyMarks (behindNumber v) <;> cases onlyComment (behindNumber v) <;>
    simp [eq_comm]

theorem readNumber_eq_none (v : Str) : readNumber v = none ↔ ¬ MarkedInteger v := by
  unfold readNumber MarkedInteger
  cases onlyMarks (behindNumber v) <;> simp

theorem shownNumber_eq_none (v : Str) : shownNumber v = none ↔ ¬ CommentedInteger v := by
  unfold shownNumber CommentedInteger
  cases onlyComment (behindNumber v) <;> simp

/-- Two values read alike exactly when they hold the same integer or none. -/
theorem sameInteger_iff (other v : Str) :
    readNumber other = shownNumber v ↔ SameInteger other v := by
  unfold readNumber shownNumber SameInteger MarkedInteger CommentedInteger
  cases onlyMarks (behindNumber other) <;> cases onlyComment (behindNumber v) <;>
    cases parseI64 (numberText other) <;> cases parseI64 (numberText v) <;> simp

theorem readText_eq_none (v : Str) : readText v = none ↔ openText v = none :=
  Option.map_eq_none_iff

theorem shownText_eq_none (floats : Floats F) (following : List Card) (v : Str) :
    shownText floats following v = none ↔ showsText floats v = false := by
  rw [← shownText_isSome floats following v, Option.isSome_eq_false_iff, Option.isNone_iff_eq_none]

/-- The header shows the text that the value spells. -/
theorem shownText_eq_some {following : List Card} {v s : Str} :
    shownText floats following v = some s ↔ SpellsText floats following v s := by
  unfold SpellsText
  dsimp only
  split_ifs with hquoted
  · rw [shownText_quoted hquoted, Option.some.injEq]
  · have hplain : isQuoted (splitValueComment v).1 = false := by simpa using hquoted
    constructor
    · intro h
      have hshows := shownText_isSome floats following v
      rw [h, Option.isSome_some] at hshows
      exact ⟨hshows.symm, (shownText_plain hplain h).symm⟩
    · rintro ⟨hshows, hraw⟩
      rw [← shownText_isSome floats following v, Option.isSome_iff_exists] at hshows
      obtain ⟨text, htext⟩ := hshows
      rw [htext, shownText_plain hplain htext, hraw]

/-- `parse_keyword` finds the integer that the header shows, exactly under the condition. -/
theorem numbers_agree_iff (hkey : IsStandardKey key) (hindicated : Indicated cards key) :
    (∀ n, parseKeyword cards key = some n ↔
      headerGetItem floats cards key = .ok (.value (.integer n))) ↔ NumbersAgree cards key := by
  have hshown : ∀ n, headerGetItem floats cards key = .ok (.value (.integer n)) ↔
      (holder cards key).bind (fun found => shownNumber (found.1.drop 9)) = some n := by
    intro n
    rw [headerGetItem_value hkey hindicated, Option.bind_eq_some_iff]
    constructor
    · rintro ⟨card, rest, hholder, h⟩
      exact ⟨(card, rest), hholder, integer_iff.1 h⟩
    · rintro ⟨⟨card, rest⟩, hholder, h⟩
      exact ⟨card, rest, hholder, integer_iff.2 h⟩
  simp only [hshown, parseKeyword_find, ← Option.ext_iff]
  unfold NumbersAgree
  cases hholder : holder cards key with
  | none =>
    cases cards.find? (decidesKey key) with
    | none => simp
    | some other => exact readNumber_eq_none _
  | some found =>
    obtain ⟨card, rest⟩ := found
    cases hfind : cards.find? (decidesKey key) with
    | none =>
      show none = shownNumber (card.drop 9) ↔ _
      rw [eq_comm]
      exact shownNumber_eq_none _
    | some other =>
      show readNumber (other.drop 9) = shownNumber (card.drop 9) ↔ _
      dsimp only
      split_ifs with hdecides
      · have hsame : cards.find? (decidesKey key) = some card :=
          find_holder hkey (fun c hc => (Bool.and_eq_true_iff.1 hc).1) hholder hdecides
        rw [Option.some.inj (hfind.symm.trans hsame)]
        exact sameNumber_iff _
      · exact sameInteger_iff _ _

/-- `parse_string_keyword` finds the text that the header shows, exactly under the
condition. -/
theorem texts_agree_iff (hkey : IsStandardKey key) (hindicated : Indicated cards key) :
    (∀ s, parseStringKeyword cards key = some s ↔
      headerGetItem floats cards key = .ok (.value (.string s))) ↔ TextsAgree floats cards key := by
  have hshown : ∀ s, headerGetItem floats cards key = .ok (.value (.string s)) ↔
      (holder cards key).bind (fun found => shownText floats found.2 (found.1.drop 9)) =
        some s := by
    intro s
    rw [headerGetItem_value hkey hindicated, Option.bind_eq_some_iff]
    constructor
    · rintro ⟨card, rest, hholder, h⟩
      exact ⟨(card, rest), hholder, (shownText_iff floats rest _ s).2 h⟩
    · rintro ⟨⟨card, rest⟩, hholder, h⟩
      exact ⟨card, rest, hholder, (shownText_iff floats rest _ s).1 h⟩
  simp only [hshown, parseStringKeyword_find, ← Option.ext_iff]
  unfold TextsAgree
  cases hholder : holder cards key with
  | none =>
    cases cards.find? (isValueCard key) with
    | none => simp
    | some other => exact readText_eq_none _
  | some found =>
    obtain ⟨card, rest⟩ := found
    cases hfind : cards.find? (isValueCard key) with
    | none =>
      show none = shownText floats rest (card.drop 9) ↔ _
      rw [eq_comm]
      exact shownText_eq_none floats rest _
    | some other =>
      show readText (other.drop 9) = shownText floats rest (card.drop 9) ↔ _
      dsimp only
      split_ifs with hcard
      · have hsame : cards.find? (isValueCard key) = some card :=
          find_holder hkey (fun c hc => hc) hholder hcard
        rw [Option.some.inj (hfind.symm.trans hsame)]
        exact readText_eq_iff
      · unfold readText
        cases openText (other.drop 9) with
        | none =>
          rw [Option.map_none, eq_comm]
          exact shownText_eq_none floats rest _
        | some x =>
          rw [Option.map_some, eq_comm]
          exact shownText_eq_some

/-- Two axes, and a compression type that goes on behind its first card. -/
def twoReaders : List Card :=
  [str "NAXIS   = 2 / axes", str "NAXIS1  = 42/pixels", str "ZCMPTYPE= 'RICE&'",
    str "CONTINUE  '_1'", endCard]

example : parseKeyword twoReaders (str "NAXIS") = some 2 := by decide +kernel

end

end RustFits.Header
