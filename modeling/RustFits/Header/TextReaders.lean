import RustFits.Header.NumberReaders

/-!
# The text of a value

`readText` is the text that `parse_string_keyword` of `common.rs` finds in a value,
`shownText` the one that the header shows.  `TextAgrees` is the condition on a card under
which the two are the same (`readText_eq_iff`).
-/

namespace RustFits.Header

open Ascii

/-! ## What stands behind a text -/

/-- The text in front of the closing quote, with doubled quotes undone, and what
follows the quote.  `none` when the text is not closed. -/
def cutQuote : Str → Option (Str × Str)
  | [] => none
  | [b] => if b = 0x27 then some ([], []) else none
  | b :: c :: rest =>
    if b = 0x27 then
      if c = 0x27 then (cutQuote rest).map fun x => (0x27 :: x.1, x.2) else some ([], c :: rest)
    else (cutQuote (c :: rest)).map fun x => (b :: x.1, x.2)

/-- The quoted text that a value starts with, and what follows it. -/
def openText (v : Str) : Option (Str × Str) :=
  match trimStart v with
  | 0x27 :: afterOpen => cutQuote afterOpen
  | _ => none

/-- The text that `parse_string_keyword` finds in a value. -/
def readText (v : Str) : Option Str := (openText v).map fun x => trimEnd x.1

section

variable {F : Type} (floats : Floats F)

/-- The text that the header shows for a value. -/
def shownText (following : List Card) (v : Str) : Option Str :=
  match (parseValueWithContinue floats following v).1 with
  | .string s => some s
  | _ => none

/-- The header shows a text: in quotes, or nothing else it could be. -/
def showsText (v : Str) : Bool :=
  let raw := (splitValueComment v).1
  !raw.isEmpty && (isQuoted raw || (raw != str "T" && raw != str "F" &&
    (parseFitsComplex floats raw).isNone && (parseI64 raw).isNone &&
    (parseFitsFloat floats raw).isNone))

/-- Both readers find the same text.  Behind a closing quote stands at most a comment,
and the cards behind leave the text as it is; a value without a closed quote is no text. -/
def TextAgrees (following : List Card) (v : Str) : Prop :=
  match openText v with
  | some (t, rest) =>
    onlyComment rest = true ∧ (readContinued (trimEnd t) [] following).1 = trimEnd t
  | none => showsText floats v = false

end

section

variable {s t rest v w : Str}

theorem closeQuote_eq (s : Str) : closeQuote s = (cutQuote s).map (·.1) := by
  induction s using cutQuote.induct with
  | case1 => rfl
  | case2 => rfl
  | case3 b hb =>
    rw [closeQuote, cutQuote, if_neg hb, if_neg hb]
    rfl
  | case4 rest ih =>
    rw [closeQuote, cutQuote, if_pos rfl, if_pos rfl, if_pos rfl, if_pos rfl, ih, Option.map_map,
      Option.map_map]
    rfl
  | case5 c rest hc =>
    rw [closeQuote, cutQuote, if_pos rfl, if_pos rfl, if_neg hc, if_neg hc]
    rfl
  | case6 b c rest hb ih =>
    rw [closeQuote, cutQuote, if_neg hb, if_neg hb, ih, Option.map_map, Option.map_map]
    rfl

/-- A closed text is the doubled text, the quote, and no further quote. -/
theorem cutQuote_some : ∀ {s t rest : Str}, cutQuote s = some (t, rest) →
    s = doubleQuotes t ++ quote :: rest ∧ rest.head? ≠ some quote := by
  intro s
  induction s using cutQuote.induct with
  | case1 =>
    intro t rest h
    cases h
  | case2 =>
    intro t rest h
    cases h
    exact ⟨rfl, by simp⟩
  | case3 b hb =>
    intro t rest h
    rw [cutQuote, if_neg hb] at h
    cases h
  | case4 s ih =>
    intro t rest h
    rw [cutQuote, if_pos rfl, if_pos rfl] at h
    obtain ⟨⟨t', rest'⟩, h', heq⟩ := Option.map_eq_some_iff.1 h
    cases heq
    obtain ⟨hs, hrest⟩ := ih h'
    exact ⟨by rw [hs]; rfl, hrest⟩
  | case5 c s hc =>
    intro t rest h
    rw [cutQuote, if_pos rfl, if_neg hc] at h
    cases h
    exact ⟨rfl, by simpa [quote] using hc⟩
  | case6 b c s hb ih =>
    intro t rest h
    rw [cutQuote, if_neg hb] at h
    obtain ⟨⟨t', rest'⟩, h', heq⟩ := Option.map_eq_some_iff.1 h
    cases heq
    obtain ⟨hs, hrest⟩ := ih h'
    exact ⟨by rw [hs, doubleQuotes_cons hb, List.cons_append], hrest⟩

theorem undoubleQuotes_append (t s : Str) :
    undoubleQuotes (doubleQuotes t ++ quote :: s) = t ++ undoubleQuotes (quote :: s) := by
  induction t with
  | nil => rfl
  | cons b t ih =>
    by_cases hb : b = quote
    · rw [hb, doubleQuotes_cons_quote, List.cons_append, List.cons_append, undoubleQuotes,
        if_pos ⟨rfl, rfl⟩, ih]
      rfl
    · rw [doubleQuotes_cons hb, List.cons_append]
      cases hnext : doubleQuotes t ++ quote :: s with
      | nil => simp at hnext
      | cons c next =>
        rw [hnext] at ih
        rw [undoubleQuotes, if_neg fun hq => hb hq.1, ih, List.cons_append]

/-- A quote that no quote follows stays. -/
theorem undoubleQuotes_quote {s : Str} (h : s.head? ≠ some quote) :
    undoubleQuotes (quote :: s) = quote :: undoubleQuotes s := by
  cases s with
  | nil => rfl
  | cons c s =>
    rw [undoubleQuotes, if_neg]
    rintro ⟨-, hc⟩
    exact h (by rw [hc]; rfl)

/-- The text does not depend on the comment. -/
theorem readContinued_text : ∀ (cards : List Card) (s comment comment' : Str),
    (readContinued s comment cards).1 = (readContinued s comment' cards).1 := by
  intro cards
  induction cards with
  | nil => exact fun _ _ _ => rfl
  | cons next cards ih =>
    intro s comment comment'
    rw [readContinued, readContinued]
    by_cases hnext : (s.getLast? == some 0x26 && continueKey.isPrefixOf (trimEnd next) &&
        isQuoted (splitValueComment (afterKeyword (trimEnd next))).1) = true
    · rw [if_pos hnext, if_pos hnext]
      exact ih _ _ _
    · rw [if_neg hnext, if_neg hnext]

/-- What stands in front of a quote stays. -/
theorem readContinued_starts : ∀ {cards : List Card} {s comment : Str}, t ++ [quote] <+: s →
    t ++ [quote] <+: (readContinued s comment cards).1 := by
  intro cards
  induction cards with
  | nil => exact fun h => h
  | cons next cards ih =>
    intro s comment h
    rw [readContinued]
    by_cases hnext : (s.getLast? == some 0x26 && continueKey.isPrefixOf (trimEnd next) &&
        isQuoted (splitValueComment (afterKeyword (trimEnd next))).1) = true
    · rw [if_pos hnext]
      obtain ⟨more, rfl⟩ := h
      simp only [Bool.and_eq_true, beq_iff_eq] at hnext
      have hmore : more ≠ [] := by
        rintro rfl
        rw [List.append_nil, List.getLast?_concat] at hnext
        exact absurd hnext.1.1 (by decide)
      apply ih
      rw [List.dropLast_append_of_ne_nil hmore, List.append_assoc]
      exact List.prefix_append _ _
    · rw [if_neg hnext]
      exact h

/-- A value that starts with a closed text. -/
theorem openText_some (h : openText v = some (t, rest)) :
    ∃ w, (∀ b ∈ w, isWhitespace b = true) ∧ v = w ++ (quoted t ++ rest) ∧
      rest.head? ≠ some quote := by
  obtain ⟨w, hw, hsplit⟩ := trimStart_split v
  unfold openText at h
  split at h
  · rename_i afterOpen hstart
    obtain ⟨hafter, hrest⟩ := cutQuote_some h
    refine ⟨w, hw, ?_, hrest⟩
    conv_lhs => rw [hsplit, hstart, hafter]
    rw [quoted, List.append_assoc, List.cons_append, List.singleton_append]
    rfl
  · cases h

theorem onlyComment_tail (h : onlyComment rest = true) : ∃ comment, CommentTail rest comment := by
  obtain ⟨w, hw, hsplit⟩ := trimStart_split rest
  cases hstart : trimStart rest with
  | nil =>
    rw [hstart, List.append_nil] at hsplit
    exact ⟨[], hsplit ▸ .none hw⟩
  | cons b more =>
    rw [onlyComment, hstart] at h
    rw [hstart] at hsplit
    obtain rfl : b = 0x2F := by simpa using h
    exact ⟨trim more, hsplit ▸ .slash hw more⟩

/-- Behind other text than a comment the value goes on. -/
theorem cutComment_junk (h : onlyComment rest = false) :
    ∃ w b z, (∀ c ∈ w, isWhitespace c = true) ∧ isWhitespace b = false ∧
      (cutComment false rest).1 = w ++ b :: z ∧ (w ++ b :: z).head? = rest.head? := by
  obtain ⟨w, hw, hsplit⟩ := trimStart_split rest
  cases hstart : trimStart rest with
  | nil =>
    rw [onlyComment, hstart] at h
    exact Bool.noConfusion h
  | cons b more =>
    rw [onlyComment, hstart] at h
    have hslash : b ≠ 0x2F := by simpa using h
    rw [hstart] at hsplit
    have hhead : ∀ z, (w ++ b :: z).head? = rest.head? := by
      intro z
      rw [hsplit]
      cases w with
      | nil => rfl
      | cons c w => rfl
    have hcut : ∃ z, (cutComment false rest).1 = w ++ b :: z := by
      rw [hsplit, cutComment_white hw, cutComment]
      split_ifs with hquote hs
      · exact ⟨_, rfl⟩
      · simp only [Bool.not_false, Bool.and_true, decide_eq_true_eq] at hs
        exact absurd hs hslash
      · exact ⟨_, rfl⟩
    obtain ⟨z, hz⟩ := hcut
    exact ⟨w, b, z, hw, trimStart_head hstart, hz, hhead z⟩

end

section

variable {F : Type} {floats : Floats F} {following : List Card} {t rest v w : Str}

theorem shownText_iff (floats : Floats F) (following : List Card) (v s : Str) :
    shownText floats following v = some s ↔
      (parseValueWithContinue floats following v).1 = .string s := by
  unfold shownText
  cases (parseValueWithContinue floats following v).1 <;> simp

theorem shownText_isSome (floats : Floats F) (following : List Card) (v : Str) :
    (shownText floats following v).isSome = showsText floats v := by
  unfold shownText showsText parseValueWithContinue
  dsimp only
  generalize splitValueComment v = raw
  cases hempty : raw.1.isEmpty with
  | true => rfl
  | false =>
    rw [if_neg Bool.false_ne_true]
    cases hquoted : isQuoted raw.1 with
    | true => rfl
    | false =>
      rw [if_neg Bool.false_ne_true]
      by_cases ht : raw.1 = str "T"
      · rw [if_pos ht, ht]
        rfl
      · by_cases hf : raw.1 = str "F"
        · rw [if_neg ht, if_pos hf, hf]
          rfl
        · rw [if_neg ht, if_neg hf]
          cases hcomplex : parseFitsComplex floats raw.1 with
          | some z => simp
          | none =>
            cases hint : parseI64 raw.1 with
            | some n => simp
            | none =>
              cases hfloat : parseFitsFloat floats raw.1 with
              | some x => simp
              | none => simp [ht, hf]

/-- The text of a value that is not in quotes. -/
theorem shownText_plain {s : Str} (hquoted : isQuoted (splitValueComment v).1 = false)
    (h : shownText floats following v = some s) : s = (splitValueComment v).1 := by
  unfold shownText parseValueWithContinue at h
  dsimp only at h
  generalize splitValueComment v = raw at h hquoted
  cases hempty : raw.1.isEmpty with
  | true =>
    rw [hempty] at h
    cases h
  | false =>
    rw [hempty, hquoted, if_neg Bool.false_ne_true, if_neg Bool.false_ne_true] at h
    split_ifs at h
    · cases hcomplex : parseFitsComplex floats raw.1 with
      | some z =>
        rw [hcomplex] at h
        cases h
      | none =>
        cases hint : parseI64 raw.1 with
        | some n =>
          rw [hcomplex, hint] at h
          cases h
        | none =>
          rw [hcomplex, hint] at h
          cases hfloat : parseFitsFloat floats raw.1 with
          | some x =>
            rw [hfloat] at h
            cases h
          | none =>
            rw [hfloat] at h
            exact (Option.some.inj h).symm

/-- The text of a value in quotes. -/
theorem shownText_quoted (hquoted : isQuoted (splitValueComment v).1 = true) :
    shownText floats following v =
      some (readContinued (extractFitsString (splitValueComment v).1) [] following).1 := by
  have hempty : (splitValueComment v).1.isEmpty = false := by
    cases hraw : (splitValueComment v).1 with
    | nil =>
      rw [hraw] at hquoted
      exact absurd hquoted (by decide)
    | cons b raw => rfl
  unfold shownText parseValueWithContinue
  dsimp only
  rw [hempty, hquoted, if_neg Bool.false_ne_true, if_pos rfl,
    readContinued_text following _ [] (splitValueComment v).2]

/-- Other text behind the closing quote is shown, and it is not read. -/
theorem shownText_junk {w : Str} (hw : ∀ b ∈ w, isWhitespace b = true)
    (hhead : rest.head? ≠ some quote) (hjunk : onlyComment rest = false) :
    shownText floats following (w ++ (quoted t ++ rest)) ≠ some (trimEnd t) := by
  obtain ⟨x, b, z, hx, hb, hcut, hfirst⟩ := cutComment_junk hjunk
  have hshort : (trimEnd t).length ≤ t.length := (List.rdropWhile_prefix isWhitespace t).length_le
  have hraw : (splitValueComment (w ++ (quoted t ++ rest))).1 =
      quoted t ++ (x ++ b :: trimEnd z) := by
    rw [splitValueComment, cutComment_text hw, hcut]
    dsimp only
    have hstart : trimStart (quoted t ++ (x ++ b :: z)) = quoted t ++ (x ++ b :: z) := by
      rw [trimStart, quoted, List.cons_append, List.cons_append,
        List.dropWhile_cons_of_neg (by decide)]
    rw [trim_white_append hw, trim, hstart, ← List.append_assoc, trimEnd_append hb,
      List.append_assoc]
  have hyhead : (x ++ b :: trimEnd z).head? ≠ some quote := by
    rw [← hfirst] at hhead
    cases x with
    | nil => exact hhead
    | cons c x => exact hhead
  have hyne : x ++ b :: trimEnd z ≠ [] := by simp
  generalize x ++ b :: trimEnd z = y at hraw hyhead hyne
  intro h
  cases hquoted : isQuoted (splitValueComment (w ++ (quoted t ++ rest))).1 with
  | false =>
    have hlen := congrArg List.length (shownText_plain hquoted h)
    rw [hraw, List.length_append, quoted_length] at hlen
    have := length_le_doubleQuotes t
    omega
  | true =>
    rw [shownText_quoted hquoted, hraw, Option.some.injEq] at h
    obtain ⟨front, c, rfl⟩ : ∃ front c, y = front ++ [c] :=
      ⟨_, _, (List.dropLast_append_getLast hyne).symm⟩
    have hc : c = quote := by
      rw [hraw, isQuoted, ← List.append_assoc, List.getLast?_concat] at hquoted
      simp only [Bool.and_eq_true, beq_iff_eq, Option.some.injEq] at hquoted
      exact hquoted.1.2
    have hfront : front.head? ≠ some quote := by
      cases front with
      | nil => rw [hc] at hyhead; exact absurd rfl hyhead
      | cons d front => exact hyhead
    have hinner : innerText (quoted t ++ (front ++ [c])) = doubleQuotes t ++ quote :: front := by
      rw [innerText, quoted, ← List.append_assoc, List.cons_append, List.cons_append,
        List.cons_append, List.tail_cons, List.dropLast_concat, List.append_assoc]
      rfl
    -- the closing quote and what stands in front of it are shown
    have hstarts : t ++ [quote] <+: trimEnd t := by
      rw [← h]
      apply readContinued_starts
      rw [extractFitsString, hinner, undoubleQuotes_append, undoubleQuotes_quote hfront,
        trimEnd_append (by decide)]
      exact ⟨trimEnd (undoubleQuotes front), by rw [List.append_assoc]; rfl⟩
    have hlen := hstarts.length_le
    rw [List.length_append, List.length_singleton] at hlen
    omega

/-- Both readers find the same text exactly under the condition. -/
theorem readText_eq_iff :
    readText v = shownText floats following v ↔ TextAgrees floats following v := by
  unfold readText TextAgrees
  cases hopen : openText v with
  | none =>
    rw [Option.map_none, ← shownText_isSome floats following, eq_comm, Option.isSome_eq_false_iff,
      Option.isNone_iff_eq_none]
  | some x =>
    obtain ⟨t, rest⟩ := x
    obtain ⟨w, hw, hv, hhead⟩ := openText_some hopen
    show some (trimEnd t) = _ ↔ _
    rw [hv]
    cases hcomment : onlyComment rest with
    | false =>
      exact iff_of_false (fun h => shownText_junk hw hhead hcomment h.symm)
        fun h => Bool.false_ne_true (hcomment.symm.trans h.1)
    | true =>
      obtain ⟨comment, htail⟩ := onlyComment_tail hcomment
      have hraw : (splitValueComment (w ++ (quoted t ++ rest))).1 = quoted t := by
        rw [splitValueComment_quoted hw htail]
      rw [shownText_quoted (by rw [hraw]; exact isQuoted_quoted t), hraw, extractFitsString_quoted,
        Option.some.injEq]
      exact ⟨fun h => ⟨hcomment, h.symm⟩, fun h => h.2.symm⟩

end

end RustFits.Header
