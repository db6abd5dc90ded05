import RustFits.Header.Views

/-!
# The integer of a value

`parse_keyword` of `common.rs` and the header that the user sees cut the value of a card in
different ways.  `readNumber` and `shownNumber` are the integers that the two find in a
value.  Both are the same text, and they differ in what they accept behind it
(`token_number`, `shownNumber_eq`).
-/

namespace RustFits.Header

open Ascii

/-! ## What stands behind a number -/

/-- A byte that may belong to a number: no white space, no quote, no slash. -/
def isNumberByte (b : UInt8) : Bool := !isWhitespace b && (b != 0x27 && b != 0x2F)

/-- The text in which a number can stand. -/
def numberText (v : Str) : Str := (trimStart v).takeWhile isNumberByte

/-- What follows it. -/
def behindNumber (v : Str) : Str := (trimStart v).dropWhile isNumberByte

/-- Nothing follows but white space and a comment. -/
def onlyComment (rest : Str) : Bool :=
  match trimStart rest with
  | [] => true
  | b :: _ => b == 0x2F

/-- Up to the next white space there are only quotes and slashes. -/
def onlyMarks (rest : Str) : Bool :=
  (rest.takeWhile fun b => !isWhitespace b).all fun b => b == 0x27 || b == 0x2F

/-- The integer that `parse_keyword` finds in a value. -/
def readNumber (v : Str) : Option Int :=
  if onlyMarks (behindNumber v) then parseI64 (numberText v) else none

/-- The integer that the header shows for a value. -/
def shownNumber (v : Str) : Option Int :=
  if onlyComment (behindNumber v) then parseI64 (numberText v) else none

/-- A digit or a sign. -/
def isIntegerByte (b : UInt8) : Bool := isDigit b || b == 0x2B || b == 0x2D

section

variable {s v w t rest : Str} {n : Int} {b : UInt8}

theorem parseNatAux_digits : ∀ {s : Str} {acc m : Nat}, parseNatAux acc s = some m →
    ∀ b ∈ s, isDigit b = true := by
  intro s
  induction s with
  | nil => simp
  | cons c s ih =>
    intro acc m h
    rw [parseNatAux] at h
    split_ifs at h with hc
    exact List.forall_mem_cons.2 ⟨hc, ih h⟩

theorem parseNat_digits {m : Nat} (h : parseNat s = some m) :
    s ≠ [] ∧ ∀ b ∈ s, isDigit b = true := by
  unfold parseNat at h
  split_ifs at h with hempty
  exact ⟨fun hnil => hempty (by simp [hnil]), parseNatAux_digits h⟩

/-- The text of an integer has digits and signs only. -/
theorem parseI64_bytes (h : parseI64 s = some n) : s ≠ [] ∧ ∀ b ∈ s, isIntegerByte b = true := by
  have hdigits : ∀ {t : Str}, (∀ b ∈ t, isDigit b = true) → ∀ b ∈ t, isIntegerByte b = true :=
    fun ht b hb => by simp [isIntegerByte, ht b hb]
  obtain ⟨v, hv, -⟩ := Option.bind_eq_some_iff.1 h
  split at hv
  · obtain ⟨m, hm, -⟩ := Option.map_eq_some_iff.1 hv
    exact ⟨by simp, List.forall_mem_cons.2 ⟨by decide, hdigits (parseNat_digits hm).2⟩⟩
  · obtain ⟨m, hm, -⟩ := Option.map_eq_some_iff.1 hv
    exact ⟨by simp, List.forall_mem_cons.2 ⟨by decide, hdigits (parseNat_digits hm).2⟩⟩
  · obtain ⟨m, hm, -⟩ := Option.map_eq_some_iff.1 hv
    exact ⟨(parseNat_digits hm).1, hdigits (parseNat_digits hm).2⟩

theorem parseI64_none_of_mem (hb : b ∈ s) (hnot : isIntegerByte b = false) : parseI64 s = none := by
  cases h : parseI64 s with
  | none => rfl
  | some n =>
    rw [(parseI64_bytes h).2 b hb] at hnot
    exact Bool.noConfusion hnot

/-- Taking more bytes goes on where taking fewer stops. -/
theorem takeWhile_append_dropWhile {p q : UInt8 → Bool} (hsub : ∀ b, q b = true → p b = true)
    (s : Str) : s.takeWhile p = s.takeWhile q ++ (s.dropWhile q).takeWhile p := by
  induction s with
  | nil => rfl
  | cons b s ih =>
    cases hq : q b with
    | true =>
      rw [List.takeWhile_cons_of_pos (hsub b hq), List.takeWhile_cons_of_pos hq,
        List.dropWhile_cons_of_pos hq, ih, List.cons_append]
    | false =>
      rw [List.takeWhile_cons_of_neg (l := s) (p := q) (by simp [hq]),
        List.dropWhile_cons_of_neg (by simp [hq]), List.nil_append]

theorem isNumberByte_of_mem (hb : b ∈ numberText v) : isNumberByte b = true :=
  List.mem_takeWhile_imp hb

/-- The byte behind the number is white space, a quote or a slash. -/
theorem behindNumber_head (h : behindNumber v = b :: rest) : isNumberByte b = false := by
  have hhead := List.head?_dropWhile_not isNumberByte (trimStart v)
  rw [← behindNumber, h] at hhead
  simpa using hhead

theorem notInteger_of_mark (h : isNumberByte b = false) : isIntegerByte b = false := by
  have hcheck : ∀ b : UInt8, isNumberByte b = false → isIntegerByte b = false := by
    apply forall_byte
    decide +kernel
  exact hcheck b h

/-- Trailing bytes of one kind are dropped. -/
theorem trimEndMatches_append {p : UInt8 → Bool} (hs : ∀ b ∈ s, p b = false)
    (ht : ∀ b ∈ t, p b = true) : trimEndMatches p (s ++ t) = s := by
  induction t using List.reverseRecOn with
  | nil =>
    rw [List.append_nil, trimEndMatches, List.rdropWhile_eq_self_iff]
    exact fun hne => by simp [hs _ (List.getLast_mem hne)]
  | append_singleton t b ih =>
    rw [← List.append_assoc, trimEndMatches, List.rdropWhile_concat_pos _ _ _ (ht b (by simp))]
    exact ih fun c hc => ht c (by simp [hc])

/-- Nothing in front of a byte of another kind is dropped. -/
theorem mem_trimEndMatches {p : UInt8 → Bool} {c : UInt8} (hc : p c = false) :
    b ∈ s → b ∈ trimEndMatches p (s ++ c :: t) := by
  induction t using List.reverseRecOn with
  | nil =>
    intro hb
    rw [trimEndMatches, List.rdropWhile_concat_neg _ _ _ (by simp [hc])]
    simp [hb]
  | append_singleton t d ih =>
    intro hb
    rw [← List.cons_append, ← List.append_assoc, trimEndMatches]
    cases hd : p d with
    | true =>
      rw [List.rdropWhile_concat_pos _ _ _ hd]
      exact ih hb
    | false =>
      rw [List.rdropWhile_concat_neg _ _ _ (by simp [hd])]
      simp [hb]

/-- `parse_keyword` reads the number when only quotes and slashes follow it. -/
theorem token_number (v : Str) :
    parseI64 (trimEndMatches (fun b => b == 0x27 || b == 0x20 || b == 0x2F)
      ((trimStart v).takeWhile fun b => !isWhitespace b)) = readNumber v := by
  have hsplit : (trimStart v).takeWhile (fun b => !isWhitespace b) =
      numberText v ++ (behindNumber v).takeWhile fun b => !isWhitespace b :=
    takeWhile_append_dropWhile (fun b hb => by
      rw [isNumberByte, Bool.and_eq_true] at hb
      exact hb.1) _
  rw [hsplit, readNumber]
  cases hmarks : onlyMarks (behindNumber v) with
  | true =>
    rw [trimEndMatches_append, if_pos rfl]
    · intro b hb
      have hnumber := isNumberByte_of_mem hb
      have hblank : b ≠ 0x20 := by
        rintro rfl
        exact absurd hnumber (by decide)
      simp only [isNumberByte, Bool.and_eq_true, bne_iff_ne, ne_eq] at hnumber
      simp [hnumber.2.1, hnumber.2.2, hblank]
    · intro b hb
      have hmark := List.all_eq_true.1 hmarks b hb
      simp only [Bool.or_eq_true] at hmark ⊢
      exact hmark.imp Or.inl id
  | false =>
    rw [if_neg (by decide)]
    -- a byte that ends the number stands in front of the last byte that is kept
    obtain ⟨c, hc, hcmark⟩ := List.all_eq_false.1 hmarks
    cases hbehind : behindNumber v with
    | nil =>
      rw [hbehind] at hc
      exact absurd hc (by simp)
    | cons b behind =>
      have hb := behindNumber_head hbehind
      rw [hbehind] at hc
      have hwhite : isWhitespace b = false := by
        by_contra hwhite
        rw [List.takeWhile_cons_of_neg (by simpa using hwhite)] at hc
        exact absurd hc (by simp)
      rw [List.takeWhile_cons_of_pos (by simp [hwhite])] at hc ⊢
      have hbmark : (b == 0x27 || b == 0x2F) = true := by
        simp only [isNumberByte, hwhite, Bool.not_false, Bool.true_and, Bool.and_eq_false_iff,
          bne_eq_false_iff_eq] at hb
        simpa using hb
      have hc' : c ∈ behind.takeWhile fun b => !isWhitespace b := by
        rcases List.mem_cons.1 hc with rfl | hc
        · exact absurd hbmark hcmark
        · exact hc
      have hcwhite : isWhitespace c = false := by simpa using List.mem_takeWhile_imp hc'
      obtain ⟨front, back, hsplit⟩ := List.append_of_mem hc'
      have hcut : numberText v ++ b :: (behind.takeWhile fun b => !isWhitespace b) =
          (numberText v ++ b :: front) ++ c :: back := by
        rw [hsplit, List.append_assoc, List.cons_append]
      rw [hcut]
      refine parseI64_none_of_mem (b := b) (mem_trimEndMatches ?_ (by simp)) (notInteger_of_mark hb)
      have hblank : c ≠ 0x20 := by
        rintro rfl
        exact absurd hcwhite (by decide)
      simp only [Bool.not_eq_true, Bool.or_eq_false_iff, beq_eq_false_iff_ne] at hcmark
      simp [hcmark.1, hcmark.2, hblank]

/-! ## The text in front of the comment -/

theorem cutComment_number (ht : ∀ b ∈ t, isNumberByte b = true) (rest : Str) :
    cutComment false (t ++ rest) = (t ++ (cutComment false rest).1, (cutComment false rest).2) := by
  refine cutComment_plain (fun b hb => ?_) rest
  have hnumber := ht b hb
  rw [isNumberByte, Bool.and_eq_true, Bool.and_eq_true, bne_iff_ne, bne_iff_ne] at hnumber
  exact hnumber.2

theorem number_split (v : Str) : trimStart v = numberText v ++ behindNumber v :=
  (List.takeWhile_append_dropWhile).symm

theorem numberText_token (h : numberText v ≠ []) : IsToken (numberText v) :=
  ⟨h, fun b hb => by
    have hnumber := isNumberByte_of_mem hb
    rw [isNumberByte, Bool.and_eq_true] at hnumber
    simpa using hnumber.1⟩

theorem trim_numberText_append (hw : ∀ b ∈ w, isWhitespace b = true) :
    trim (numberText v ++ w) = numberText v := by
  by_cases hnil : numberText v = []
  · rw [hnil, List.nil_append]
    have hempty := trim_white_append hw []
    rw [List.append_nil] at hempty
    rw [hempty]
    rfl
  · rw [trim_append_white _ hw, trim_of_isToken (numberText_token hnil)]

/-- The header shows an integer when nothing or a comment follows the number. -/
theorem shownNumber_eq (v : Str) : parseI64 (splitValueComment v).1 = shownNumber v := by
  obtain ⟨w, hw, hsplit⟩ := trimStart_split v
  have hcut : (splitValueComment v).1 =
      trim (numberText v ++ (cutComment false (behindNumber v)).1) := by
    rw [splitValueComment]
    conv_lhs => rw [hsplit, number_split, cutComment_white hw,
      cutComment_number (fun b hb => isNumberByte_of_mem hb)]
    exact trim_white_append hw _
  rw [hcut, shownNumber]
  obtain ⟨w', hw', hbehind⟩ := trimStart_split (behindNumber v)
  cases hrest : trimStart (behindNumber v) with
  | nil =>
    rw [hrest, List.append_nil] at hbehind
    have hall := cutComment_white hw' []
    rw [List.append_nil, ← hbehind] at hall
    have hcomment : onlyComment (behindNumber v) = true := by rw [onlyComment, hrest]
    rw [hall, if_pos hcomment]
    show parseI64 (trim (numberText v ++ (behindNumber v ++ []))) = _
    rw [List.append_nil, trim_numberText_append (hbehind ▸ hw')]
  | cons b rest =>
    rw [hrest] at hbehind
    by_cases hslash : b = 0x2F
    · have hcomment : onlyComment (behindNumber v) = true := by
        rw [onlyComment, hrest, hslash]
        rfl
      have hall : (cutComment false (behindNumber v)).1 = w' := by
        rw [hbehind, cutComment_white hw', hslash, cutComment, if_neg (by decide),
          if_pos (by decide)]
        exact List.append_nil _
      rw [hall, if_pos hcomment, trim_numberText_append hw']
    · have hcomment : onlyComment (behindNumber v) = false := by
        rw [onlyComment, hrest]
        simpa using hslash
      have hbwhite := trimStart_head hrest
      have hall : ∃ z, (cutComment false (behindNumber v)).1 = w' ++ b :: z := by
        rw [hbehind, cutComment_white hw', cutComment]
        split_ifs with hquote hs
        · exact ⟨_, rfl⟩
        · simp only [Bool.not_false, Bool.and_true, decide_eq_true_eq] at hs
          exact absurd hs hslash
        · exact ⟨_, rfl⟩
      obtain ⟨z, hz⟩ := hall
      rw [hz, if_neg (by simp [hcomment])]
      cases w' with
      | nil =>
        -- a quote follows the number
        exact parseI64_none_of_mem (mem_trim_of_not_white (b := b) (by simp) hbwhite)
          (notInteger_of_mark (behindNumber_head hbehind))
      | cons c w' =>
        -- white space stands inside
        have htext : numberText v ≠ [] := by
          intro hnil
          have hstart := number_split v
          rw [hnil, List.nil_append, hbehind] at hstart
          have hc := trimStart_head hstart
          rw [hw' c List.mem_cons_self] at hc
          exact Bool.noConfusion hc
        have htrim : trim (numberText v ++ (c :: w' ++ b :: z)) =
            numberText v ++ (c :: w' ++ b :: trimEnd z) := by
          rw [trim_token_append (numberText_token htext), trimEnd_append hbwhite]
        rw [htrim]
        exact parseI64_none_of_mem (b := c) (by simp)
          (notInteger_of_mark (behindNumber_head hbehind))

end

section

variable {F : Type} {floats : Floats F} {v raw : Str} {n : Int} {following : List Card}

/-- An integer is no other value. -/
theorem integer_first (h : parseI64 raw = some n) :
    raw.isEmpty = false ∧ isQuoted raw = false ∧ raw ≠ str "T" ∧ raw ≠ str "F" ∧
      parseFitsComplex floats raw = none := by
  obtain ⟨hne, hbytes⟩ := parseI64_bytes h
  cases raw with
  | nil => exact absurd rfl hne
  | cons b raw =>
    have hb := hbytes b List.mem_cons_self
    have hother : ∀ c : UInt8, isIntegerByte c = false → b ≠ c := by
      rintro c hc rfl
      rw [hb] at hc
      exact Bool.noConfusion hc
    have hhead : ∀ c : UInt8, isIntegerByte c = false → ((b :: raw).head? == some c) = false :=
      fun c hc => by simpa using hother c hc
    refine ⟨rfl, ?_, fun heq => ?_, fun heq => ?_, ?_⟩
    · rw [isQuoted, hhead 0x27 (by decide)]
      rfl
    · exact hother 0x54 (by decide) (List.cons.inj heq).1
    · exact hother 0x46 (by decide) (List.cons.inj heq).1
    · rw [parseFitsComplex, hhead 0x28 (by decide)]
      rfl

/-- The header evaluates to an integer when it shows one. -/
theorem integer_iff :
    (parseValueWithContinue floats following v).1 = .integer n ↔ shownNumber v = some n := by
  rw [← shownNumber_eq]
  unfold parseValueWithContinue
  dsimp only
  generalize splitValueComment v = raw
  constructor
  · intro h
    split_ifs at h
    · cases hcomplex : parseFitsComplex floats raw.1 with
      | some z =>
        obtain ⟨re, im⟩ := z
        rw [hcomplex] at h
        cases h
      | none =>
        cases hint : parseI64 raw.1 with
        | some m =>
          rw [hcomplex, hint] at h
          cases h
          rfl
        | none =>
          rw [hcomplex, hint] at h
          cases hfloat : parseFitsFloat floats raw.1 with
          | some x =>
            rw [hfloat] at h
            cases h
          | none =>
            rw [hfloat] at h
            cases h
  · intro h
    obtain ⟨hempty, hquoted, ht, hf, hcomplex⟩ := @integer_first F floats raw.1 n h
    rw [if_neg (by simp [hempty]), if_neg (by simp [hquoted]), if_neg ht, if_neg hf, hcomplex, h]

end

end RustFits.Header
