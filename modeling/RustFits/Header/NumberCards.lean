import RustFits.Header.KeywordReaders
import RustFits.Lib.Decimal

/-!
# Numbers in the header

A logical, an integer, a float or a complex value takes one card, and the value and the
comment have to share its 80 bytes.

* `PrintsShortest` is what the floats of the standard library promise: a finite float is
  printed in its shortest decimal form without an exponent.
* `numberBody` is the card before it is padded.  Cards of a long key or of a complex value
  are refused when they are too long (`isChecked`), the others are cut.
* `NumberFits` is when the cut loses nothing that the reader reports.
* `numbers_kept_iff` says that an assignment, and a new comment, keep the value and the
  comment exactly then.
-/

namespace RustFits

open Ascii ByteFile Machine

namespace Header

/-! ## Printed floats -/

/-- A byte of a printed float: a digit, a sign, the point, a letter of infinity or NaN. -/
def isFloatByte (b : UInt8) : Bool := isDigit b || (str "-.infNa").contains b

/-- The printed form of a finite float is its shortest decimal expansion; every printed form
reads back. -/
structure PrintsShortest {F : Type} (floats : Floats F) : Prop where
  form : ∀ x, floats.isFinite x = true → ∃ sign n fraction,
    floats.display x = sign ++ (natDec n ++ fraction) ∧ (sign = [] ∨ sign = [0x2D]) ∧
      (fraction = [] ∨ ∃ digits, fraction = 0x2E :: digits ∧ ∀ b ∈ digits, isDigit b = true)
  special : ∀ x, floats.isFinite x = false → floats.display x ∈ [str "inf", str "-inf", str "NaN"]
  plain : ∀ x, ∀ b ∈ floats.display x, isFloatByte b = true
  readsBack : ∀ x, floats.parse (floats.display x) = some x
  padded : ∀ x, floats.isFinite x = true → 0x2E ∉ floats.display x →
    floats.parse (floats.display x ++ str ".") = some x ∧
      floats.parse (floats.display x ++ str ".0") = some x
  shortest : ∀ x p, floats.isFinite x = true → p <+: floats.display x → p ≠ floats.display x →
    floats.parse p ≠ some x

section

variable {F : Type} {floats : Floats F} {x re im : F}

theorem isFloatByte_of_isDigit {b : UInt8} (h : isDigit b = true) : isFloatByte b = true := by
  rw [isFloatByte, h, Bool.true_or]

theorem float_not_white {b : UInt8} (h : isFloatByte b = true) : isWhitespace b = false := by
  have hcheck : ∀ b : UInt8, isFloatByte b = true → isWhitespace b = false := by
    apply forall_byte
    decide +kernel
  exact hcheck b h

/-- A text of such bytes has no other one. -/
theorem not_mem_float {s : Str} {c : UInt8} (hs : ∀ b ∈ s, isFloatByte b = true)
    (hc : isFloatByte c = false) : c ∉ s := by
  intro hmem
  rw [hs c hmem] at hc
  exact Bool.noConfusion hc

theorem formatFitsFloat_eq (hprints : PrintsShortest floats) (x : F) :
    formatFitsFloat floats x =
      if floats.isFinite x = true ∧ 0x2E ∉ floats.display x then floats.display x ++ str ".0"
      else floats.display x := by
  have hnone : ∀ c, isFloatByte c = false → (floats.display x).contains c = false := by
    intro c hc
    rw [Bool.eq_false_iff]
    exact fun hmem => not_mem_float (hprints.plain x) hc (List.contains_iff_mem.1 hmem)
  unfold formatFitsFloat
  dsimp only
  rw [hnone 0x65 (by decide), hnone 0x45 (by decide), Bool.or_false, Bool.or_false]
  cases floats.isFinite x with
  | false => rw [if_pos (by decide), if_neg (by simp)]
  | true =>
    rw [if_neg (by decide)]
    by_cases hpoint : 0x2E ∈ floats.display x
    · rw [if_pos (List.contains_iff_mem.2 hpoint), if_neg (by simp [hpoint])]
    · rw [if_neg (by rw [List.contains_iff_mem]; exact hpoint), if_pos ⟨rfl, hpoint⟩]

theorem formatFitsFloat_bytes (hprints : PrintsShortest floats) (x : F) :
    ∀ b ∈ formatFitsFloat floats x, isFloatByte b = true := by
  rw [formatFitsFloat_eq hprints]
  split_ifs
  · intro b hb
    rcases List.mem_append.1 hb with hb | hb
    · exact hprints.plain x b hb
    · exact List.all_eq_true.1 (by decide : (str ".0").all isFloatByte = true) b hb
  · exact hprints.plain x

theorem parseFitsFloat_eq {s : Str} (hs : ∀ b ∈ s, isFloatByte b = true) :
    parseFitsFloat floats s = floats.parse s := by
  have hmap : (s.map fun b => if b = 0x44 then 0x45 else if b = 0x64 then 0x65 else b) = s := by
    refine (List.map_congr_left fun b hb => ?_).trans (List.map_id s)
    have hupper : b ≠ 0x44 := fun he => not_mem_float hs (by decide) (he ▸ hb)
    have hlower : b ≠ 0x64 := fun he => not_mem_float hs (by decide) (he ▸ hb)
    rw [if_neg hupper, if_neg hlower]
    rfl
  rw [parseFitsFloat, hmap]

/-- A finite float is written with its point, another one with letters. -/
theorem formatFitsFloat_mark (hprints : PrintsShortest floats) (x : F) :
    ∃ b ∈ formatFitsFloat floats x, isIntegerByte b = false := by
  rw [formatFitsFloat_eq hprints]
  cases hx : floats.isFinite x with
  | true =>
    refine ⟨0x2E, ?_, by decide⟩
    by_cases hpoint : 0x2E ∈ floats.display x
    · rw [if_neg fun h => h.2 hpoint]
      exact hpoint
    · rw [if_pos ⟨rfl, hpoint⟩]
      exact List.mem_append_right _ List.mem_cons_self
  | false =>
    have hcheck : ∀ s ∈ [str "inf", str "-inf", str "NaN"], ∃ b ∈ s, isIntegerByte b = false := by
      decide +kernel
    rw [if_neg fun h => Bool.false_ne_true h.1]
    exact hcheck _ (hprints.special x hx)

/-- What is written for a float reads back. -/
theorem parse_formatFitsFloat (hprints : PrintsShortest floats) (x : F) :
    parseFitsFloat floats (formatFitsFloat floats x) = some x := by
  rw [parseFitsFloat_eq (formatFitsFloat_bytes hprints x), formatFitsFloat_eq hprints]
  split_ifs with h
  · exact (hprints.padded x h.1 h.2).2
  · exact hprints.readsBack x

end

/-! ## Values that are not quoted -/

section

variable {F : Type} (floats : Floats F)

/-- The value of a text that is not quoted. -/
def plainValue (raw : Str) : HeaderValue F :=
  if raw = str "T" then .logical true
  else if raw = str "F" then .logical false
  else
    match parseFitsComplex floats raw with
    | some (re, im) => .complex re im
    | none =>
      match parseI64 raw with
      | some n => .integer n
      | none =>
        match parseFitsFloat floats raw with
        | some x => .real x
        | none => .string raw

/-- The text that a number is written as. -/
def printed : HeaderValue F → Str
  | .logical b => if b then str "T" else str "F"
  | .integer n => intDec n
  | .complex re im => complexText floats re im
  | .real x => formatFitsFloat floats x
  | .string _ => []
  | .undefined => []

/-- An i64, a logical, a float or a complex value. -/
def IsNumber : HeaderValue F → Prop
  | .logical _ => True
  | .integer n => InI64 n
  | .complex _ _ => True
  | .real _ => True
  | .string _ => False
  | .undefined => False

/-- A value that takes one card. -/
def IsScalar : HeaderValue F → Prop
  | .string _ => False
  | .undefined => False
  | _ => True

end

section

variable {F : Type} {floats : Floats F} {v raw comment : Str} {following : List Card} {x re im : F}
  {value : HeaderValue F}

theorem IsNumber.scalar (h : IsNumber value) : IsScalar value := by
  cases value with
  | string s => exact h
  | undefined => exact h
  | _ => trivial

theorem parse_plain (hsplit : splitValueComment v = (raw, comment)) (hne : raw ≠ [])
    (hquoted : isQuoted raw = false) :
    parseValueWithContinue floats following v = (plainValue floats raw, comment) := by
  unfold parseValueWithContinue plainValue
  dsimp only
  rw [hsplit, if_neg (by simpa using hne), if_neg (by rw [hquoted]; exact Bool.false_ne_true)]
  dsimp only
  split_ifs
  · rfl
  · rfl
  · cases parseFitsComplex floats raw with
    | some z => rfl
    | none =>
      cases parseI64 raw with
      | some n => rfl
      | none => cases parseFitsFloat floats raw <;> rfl

/-- A text of float bytes is an integer, a float or a string. -/
theorem plainValue_float (hraw : ∀ b ∈ raw, isFloatByte b = true) :
    plainValue floats raw =
      match parseI64 raw with
      | some n => .integer n
      | none =>
        match floats.parse raw with
        | some x => .real x
        | none => .string raw := by
  have hother : ∀ c rest, isFloatByte c = false → raw ≠ c :: rest := by
    rintro c rest hc rfl
    exact not_mem_float hraw hc List.mem_cons_self
  have hcomplex : parseFitsComplex floats raw = none := by
    have hhead : (raw.head? == some 0x28) = false := by
      cases raw with
      | nil => rfl
      | cons b rest =>
        rw [List.head?_cons, beq_eq_false_iff_ne]
        rintro ⟨⟩
        exact hother 0x28 rest (by decide) rfl
    rw [parseFitsComplex, hhead]
    rfl
  have ht : raw ≠ str "T" := hother 0x54 [] (by decide)
  have hf : raw ≠ str "F" := hother 0x46 [] (by decide)
  rw [plainValue, if_neg ht, if_neg hf, hcomplex, parseFitsFloat_eq hraw]

theorem plainValue_real_iff (hraw : ∀ b ∈ raw, isFloatByte b = true) :
    plainValue floats raw = .real x ↔ parseI64 raw = none ∧ floats.parse raw = some x := by
  rw [plainValue_float hraw]
  cases parseI64 raw with
  | some n => simp
  | none => cases floats.parse raw <;> simp

theorem parseFitsComplex_complexText (hprints : PrintsShortest floats) (re im : F) :
    parseFitsComplex floats (complexText floats re im) = some (re, im) := by
  have hre := formatFitsFloat_bytes hprints re
  have him := formatFitsFloat_bytes hprints im
  obtain ⟨a, ha⟩ : ∃ a, formatFitsFloat floats re = a := ⟨_, rfl⟩
  obtain ⟨b, hb⟩ : ∃ b, formatFitsFloat floats im = b := ⟨_, rfl⟩
  have htext : complexText floats re im = 0x28 :: ((a ++ 0x2C :: blank :: b) ++ [0x29]) := by
    rw [complexText, ha, hb]
    simp [str, blank]
  have hcomma : ∀ c ∈ a, (c != 0x2C) = true := by
    intro c hc
    rw [bne_iff_ne]
    rintro rfl
    exact not_mem_float hre (by decide) (ha ▸ hc)
  have htrim : ∀ s : Str, (∀ c ∈ s, isFloatByte c = true) → trim s = s := by
    intro s hs
    by_cases hnil : s = []
    · rw [hnil]
      rfl
    · exact trim_of_isToken ⟨hnil, fun c hc => float_not_white (hs c hc)⟩
  have hinner : innerText (0x28 :: ((a ++ 0x2C :: blank :: b) ++ [0x29])) =
      a ++ 0x2C :: blank :: b := by
    rw [innerText, List.tail_cons, List.dropLast_concat]
  have hlast : (0x28 :: ((a ++ 0x2C :: blank :: b) ++ [0x29])).getLast? = some 0x29 := by
    rw [← List.cons_append, List.getLast?_concat]
  rw [htext, parseFitsComplex, hlast, hinner, if_pos (by simp; omega)]
  dsimp only
  rw [List.dropWhile_append_of_pos hcomma, List.dropWhile_cons_of_neg (by decide),
    List.takeWhile_append_of_pos hcomma, List.takeWhile_cons_of_neg (by decide), List.append_nil]
  dsimp only
  rw [trim_blank_cons, htrim a (ha ▸ hre), htrim b (hb ▸ him), ← ha, ← hb,
    parse_formatFitsFloat hprints, parse_formatFitsFloat hprints]
  rfl

/-- What a number is printed as evaluates to the number. -/
theorem plainValue_printed (hprints : PrintsShortest floats) (hnumber : IsNumber value) :
    plainValue floats (printed floats value) = value := by
  cases value with
  | logical b => cases b <;> rfl
  | integer n =>
    have hparse := parseI64_intDec hnumber
    obtain ⟨-, -, ht, hf, hcomplex⟩ := @integer_first F floats _ n hparse
    rw [printed, plainValue, if_neg ht, if_neg hf, hcomplex, hparse]
  | complex re im =>
    have hopen : ∀ c rest, c ≠ 0x28 → complexText floats re im ≠ c :: rest := by
      intro c rest hc he
      exact hc (List.cons.inj he).1.symm
    have ht : complexText floats re im ≠ str "T" := hopen 0x54 [] (by decide)
    have hf : complexText floats re im ≠ str "F" := hopen 0x46 [] (by decide)
    rw [printed, plainValue, if_neg ht, if_neg hf, parseFitsComplex_complexText hprints]
  | real x =>
    obtain ⟨b, hb, hmark⟩ := formatFitsFloat_mark hprints x
    have hint := parseI64_none_of_mem hb hmark
    have hparse := parse_formatFitsFloat hprints x
    rw [parseFitsFloat_eq (formatFitsFloat_bytes hprints x)] at hparse
    exact (plainValue_real_iff (formatFitsFloat_bytes hprints x)).2 ⟨hint, hparse⟩
  | string s => exact hnumber.elim
  | undefined => exact hnumber.elim

/-- A number is printed without quotes, slashes and white space at its ends. -/
theorem printed_plain (hprints : PrintsShortest floats) (hnumber : IsNumber value) :
    printed floats value ≠ [] ∧ trim (printed floats value) = printed floats value ∧
      ∀ b ∈ printed floats value, b ≠ 0x27 ∧ b ≠ 0x2F := by
  have htoken : ∀ {s : Str}, s ≠ [] → (∀ b ∈ s, isFloatByte b = true) →
      s ≠ [] ∧ trim s = s ∧ ∀ b ∈ s, b ≠ 0x27 ∧ b ≠ 0x2F := by
    intro s hne hs
    refine ⟨hne, trim_of_isToken ⟨hne, fun b hb => float_not_white (hs b hb)⟩, fun b hb => ?_⟩
    exact ⟨fun he => not_mem_float hs (by decide) (he ▸ hb),
      fun he => not_mem_float hs (by decide) (he ▸ hb)⟩
  cases value with
  | logical b =>
    have hcheck : ∀ s ∈ [str "T", str "F"], s ≠ [] ∧ trim s = s ∧ ∀ b ∈ s, b ≠ 0x27 ∧ b ≠ 0x2F := by
      decide +kernel
    apply hcheck
    cases b with
    | true => exact List.mem_cons_self
    | false => exact List.mem_cons_of_mem _ List.mem_cons_self
  | integer n =>
    refine htoken (isToken_intDec n).1 fun b hb => ?_
    rcases intDec_bytes hb with hdigit | rfl
    · exact isFloatByte_of_isDigit hdigit
    · decide
  | complex re im =>
    have hbytes : ∀ b ∈ complexText floats re im, isFloatByte b = true ∨ b ∈ str "(, )" := by
      intro b hb
      simp only [complexText, List.mem_append] at hb
      rcases hb with (((hb | hb) | hb) | hb) | hb
      · exact Or.inr (List.mem_of_mem_take (i := 1) hb)
      · exact Or.inl (formatFitsFloat_bytes hprints re b hb)
      · exact Or.inr (List.mem_of_mem_drop (i := 1) (List.mem_of_mem_take (i := 2) hb))
      · exact Or.inl (formatFitsFloat_bytes hprints im b hb)
      · exact Or.inr (List.mem_of_mem_drop (i := 3) hb)
    refine ⟨by simp [printed, complexText, str], ?_, fun b hb => ?_⟩
    · apply trim_of_ends
      · rintro c ⟨⟩
        decide
      · intro c hc
        rw [printed, complexText, show str ")" = [0x29] from rfl, List.getLast?_concat] at hc
        cases hc
        decide
    · have hcheck : ∀ b : UInt8, isFloatByte b = true ∨ b ∈ str "(, )" → b ≠ 0x27 ∧ b ≠ 0x2F := by
        apply forall_byte
        decide +kernel
      exact hcheck b (hbytes b hb)
  | real x =>
    obtain ⟨b, hb, -⟩ := formatFitsFloat_mark hprints x
    exact htoken (List.ne_nil_of_mem hb) (formatFitsFloat_bytes hprints x)
  | string s => exact hnumber.elim
  | undefined => exact hnumber.elim

/-- A number and a comment read back behind blanks. -/
theorem parse_printed (hprints : PrintsShortest floats) (hnumber : IsNumber value)
    {w tail : Str} (hw : ∀ b ∈ w, isWhitespace b = true) (htail : CommentTail tail comment) :
    parseValueWithContinue floats following (w ++ (printed floats value ++ tail)) =
      (value, comment) := by
  obtain ⟨hne, htrim, hmarks⟩ := printed_plain hprints hnumber
  rw [parse_plain (splitValueComment_plain hw hmarks htrim htail) hne
    (isQuoted_plain fun b hb => (hmarks b hb).1), plainValue_printed hprints hnumber]

end

/-! ## Cards that are cut -/

section

variable {F : Type} {floats : Floats F} {comment : Str} {following : List Card} {x : F}

/-- Of a comment that is cut something is missing. -/
theorem commentTail_take (comment : Str) (n : Nat) :
    ∃ c, CommentTail ((commentTail comment).take n) c ∧
      (c = comment ↔ (commentTail comment).length ≤ n ∧ trim comment = comment) := by
  rcases Nat.lt_or_ge n (commentTail comment).length with hcut | hfits
  · have hne : comment ≠ [] := by
      rintro rfl
      exact absurd hcut (by simp [commentTail])
    have htail : commentTail comment = str " / " ++ comment := if_neg (by simpa using hne)
    have hlen : (commentTail comment).length = 3 + comment.length := by
      rw [htail, List.length_append]
      rfl
    rcases Nat.lt_or_ge n 2 with hsmall | hlarge
    · refine ⟨[], .none fun b hb => ?_, iff_of_false (fun he => hne he.symm) (by omega)⟩
      have htwo : (commentTail comment).take n = (str " ").take n := by
        rw [htail]
        interval_cases n <;> rfl
      rw [htwo] at hb
      exact List.all_eq_true.1 (by decide : (str " ").all isWhitespace = true) b
        (List.mem_of_mem_take hb)
    · obtain ⟨k, rfl⟩ := Nat.exists_eq_add_of_le' hlarge
      have hshape :
          (commentTail comment).take (k + 2) = [blank] ++ 0x2F :: (blank :: comment).take k := by
        rw [htail]
        rfl
      rw [hshape]
      refine ⟨_, .slash (List.forall_mem_singleton.2 (by decide)) _,
        iff_of_false (fun he => ?_) (by omega)⟩
      have hshort : (trim ((blank :: comment).take k)).length ≤ k - 1 := by
        cases k with
        | zero => rfl
        | succ k =>
          rw [List.take_succ_cons, trim_blank_cons]
          exact ((trim_sublist _).length_le).trans (List.length_take_le k comment)
      have hpos := List.length_pos_of_ne_nil hne
      rw [he] at hshort
      omega
  · rw [List.take_of_length_le hfits]
    exact ⟨trim comment, commentTail_reads comment, (and_iff_right hfits).symm⟩

/-- A float that is cut to 70 bytes is the same one when only its point is lost. -/
theorem real_take_iff (hprints : PrintsShortest floats) (hx : floats.isFinite x = true)
    (hlong : 70 < (formatFitsFloat floats x).length) :
    plainValue floats ((formatFitsFloat floats x).take 70) = .real x ↔
      (floats.display x).length ≤ 70 := by
  have hbytes := formatFitsFloat_bytes hprints x
  rw [plainValue_real_iff fun b hb => hbytes b (List.mem_of_mem_take hb)]
  obtain ⟨p, hp⟩ : ∃ p, (formatFitsFloat floats x).take 70 = p := ⟨_, rfl⟩
  have hlen : p.length = 70 := by rw [← hp, List.length_take_of_le (by omega)]
  rw [hp]
  rcases Nat.lt_or_ge 70 (floats.display x).length with hcut | hfits
  · have hprefix : p <+: floats.display x := by
      rw [← hp, formatFitsFloat_eq hprints]
      split_ifs
      · rw [List.take_append_of_le_length (by omega)]
        exact List.take_prefix _ _
      · exact List.take_prefix _ _
    refine iff_of_false (fun h => ?_) (by omega)
    refine hprints.shortest x p hx hprefix (fun he => ?_) h.2
    rw [he] at hlen
    omega
  · refine iff_of_true ?_ hfits
    have hpoint : 0x2E ∉ floats.display x := by
      intro hmem
      rw [formatFitsFloat_eq hprints, if_neg fun h => h.2 hmem] at hlong
      omega
    have htext : formatFitsFloat floats x = floats.display x ++ str ".0" := by
      rw [formatFitsFloat_eq hprints, if_pos ⟨hx, hpoint⟩]
    have hlen68 : 68 < (floats.display x).length := by
      rw [htext, List.length_append, show (str ".0").length = 2 from rfl] at hlong
      omega
    rcases (by
      omega : (floats.display x).length = 70 ∨ (floats.display x).length = 69) with h70 | h69
    · have hwhole : p = floats.display x := by
        rw [← hp, htext]
        exact List.take_left' h70
      obtain ⟨sign, n, fraction, hform, hsign, hfraction⟩ := hprints.form x hx
      have hnone : fraction = [] := by
        refine hfraction.resolve_right ?_
        rintro ⟨digits, rfl, -⟩
        exact hpoint (by rw [hform]; simp)
      rw [hnone, List.append_nil] at hform
      have hdigits : 19 < (natDec n).length := by
        rw [hform, List.length_append] at h70
        rcases hsign with rfl | rfl
        · rw [List.length_nil] at h70
          omega
        · rw [List.length_singleton] at h70
          omega
      rw [hwhole]
      refine ⟨?_, hprints.readsBack x⟩
      rw [hform]
      exact parseI64_long hsign hdigits
    · have hdot : p = floats.display x ++ str "." := by
        rw [← hp, htext, List.take_append, List.take_of_length_le (by omega), h69]
        rfl
      rw [hdot]
      exact ⟨parseI64_none_of_mem (b := 0x2E) (by simp [str]) (by decide),
        (hprints.padded x hx hpoint).1⟩

end

/-! ## The card of a number -/

/-- The writer refuses the card when it is too long. -/
def isChecked {F : Type} (key : Str) : HeaderValue F → Bool
  | .complex _ _ => true
  | _ => isHierarchKey key

section

variable {F : Type} (floats : Floats F)

/-- The blanks in front of a value that is right-justified. -/
def numberBlanks (key : Str) (value : HeaderValue F) : Nat :=
  if isChecked key value then 0 else 20 - (printed floats value).length

/-- The card of a number, not padded. -/
def numberBody (key : Str) (value : HeaderValue F) (comment : Str) : Str :=
  valueFront key ++ 0x3D :: blank :: (List.replicate (numberBlanks floats key value) blank ++
    (printed floats value ++ commentTail comment))

/-- The value and the comment have room behind the keyword.  The point that is added to a
float without one needs none when no comment follows. -/
def NumberRoom (value : HeaderValue F) (comment : Str) : Prop :=
  match value with
  | .real x =>
    if comment = [] then (floats.display x).length ≤ 70
    else max 20 (formatFitsFloat floats x).length + comment.length ≤ 67
  | _ => comment.length ≤ 47

end

section

variable {F : Type} {floats : Floats F} {key comment : Str} {value : HeaderValue F}
  {new : List Card}

theorem valueFront_short (h : isHierarchKey key = false) : valueFront key = padRight 8 key := by
  rw [valueFront, h, if_neg Bool.false_ne_true]

theorem numberBody_checked (h : isChecked key value = true) :
    numberBody floats key value comment =
      valueFront key ++ 0x3D :: blank :: (printed floats value ++ commentTail comment) := by
  rw [numberBody, numberBlanks, if_pos h, List.replicate_zero, List.nil_append]

theorem hierarchSingle_body (hkey : isHierarchKey key = true) (text comment : Str) :
    withComment (str "HIERARCH " ++ key ++ str " = " ++ text) comment =
      valueFront key ++ 0x3D :: blank :: (text ++ commentTail comment) := by
  rw [withComment_tail, valueFront, if_pos hkey]
  simp [str, blank]

theorem assembleHierarchSingle_ok {text : Str} (hkey : isHierarchKey key = true)
    (h : assembleHierarchSingle key text comment = .ok new) :
    new = [padToCard (valueFront key ++ 0x3D :: blank :: (text ++ commentTail comment))] ∧
      (valueFront key ++ 0x3D :: blank :: (text ++ commentTail comment)).length ≤ 80 := by
  unfold assembleHierarchSingle at h
  dsimp only at h
  rw [hierarchSingle_body hkey] at h
  split_ifs at h with hlong
  cases h
  exact ⟨rfl, Nat.le_of_not_lt hlong⟩

theorem complex_body (hkey : isHierarchKey key = false) (re im : F) (comment : Str) :
    withComment (padRight 8 key ++ str "= " ++ complexText floats re im) comment =
      valueFront key ++ 0x3D :: blank :: (complexText floats re im ++ commentTail comment) := by
  rw [withComment_tail, valueFront_short hkey]
  simp [str, blank]

theorem cardFixed_body (hkey : isHierarchKey key = false) (text comment : Str) :
    cardFixed key text comment = padToCard (valueFront key ++ 0x3D :: blank ::
      (List.replicate (20 - text.length) blank ++ (text ++ commentTail comment))) := by
  unfold cardFixed commentTail
  dsimp only
  rw [valueFront_short hkey]
  split_ifs
  · simp [str, blank, padLeft]
  · simp [str, blank, padLeft]

/-- A number takes one card. -/
theorem buildCardFromValue_scalar (hscalar : IsScalar value)
    (h : buildCardFromValue floats key value comment = .ok new) :
    new = [padToCard (numberBody floats key value comment)] ∧
      (isChecked key value = true → (numberBody floats key value comment).length ≤ 80) := by
  unfold buildCardFromValue at h
  by_cases hkey : isHierarchKey key = true
  · rw [if_pos hkey] at h
    have hchecked : isChecked key value = true := by
      cases value with
      | complex re im => rfl
      | _ => exact hkey
    have hsingle : assembleHierarchSingle key (printed floats value) comment = .ok new := by
      cases value with
      | string s => exact hscalar.elim
      | undefined => exact hscalar.elim
      | _ => exact h
    obtain ⟨hnew, hlen⟩ := assembleHierarchSingle_ok hkey hsingle
    rw [numberBody_checked hchecked]
    exact ⟨hnew, fun _ => hlen⟩
  · rw [if_neg hkey] at h
    have hshort : isHierarchKey key = false := Bool.eq_false_iff.2 hkey
    have hfixed : isChecked key value = false →
        new = [cardFixed key (printed floats value) comment] →
        new = [padToCard (numberBody floats key value comment)] ∧
          (isChecked key value = true → (numberBody floats key value comment).length ≤ 80) := by
      intro hchecked hnew
      rw [hchecked, hnew, cardFixed_body hshort, numberBody, numberBlanks, hchecked,
        if_neg Bool.false_ne_true]
      exact ⟨rfl, fun h => absurd h Bool.false_ne_true⟩
    cases value with
    | logical b =>
      cases h
      exact hfixed hshort rfl
    | integer n =>
      cases h
      exact hfixed hshort rfl
    | real x =>
      cases h
      exact hfixed hshort rfl
    | complex re im =>
      unfold cardComplex at h
      dsimp only at h
      rw [complex_body hshort] at h
      split_ifs at h with hlong
      · cases h
      · cases h
        rw [numberBody_checked (show isChecked key (.complex re im) = true from rfl)]
        exact ⟨rfl, fun _ => Nat.le_of_not_lt hlong⟩
    | string s => exact hscalar.elim
    | undefined => exact hscalar.elim

theorem parse_trimEnd {following : List Card} (v : Str) :
    parseValueWithContinue floats following (trimEnd v) =
      parseValueWithContinue floats following v := by
  conv_rhs => rw [← List.rdropWhile_append_rtakeWhile (p := isWhitespace) (l := v)]
  exact (parse_white (fun b hb => List.mem_rtakeWhile_imp hb) _).symm

theorem printed_logical_length (b : Bool) : (printed floats (.logical b)).length = 1 := by
  cases b <;> rfl

/-- The comment has room behind a value that is not cut. -/
theorem numberRoom_iff (hprints : PrintsShortest floats) (hnumber : IsNumber value)
    (hkey : isChecked key value = false) (hwidth : (printed floats value).length ≤ 70) :
    NumberRoom floats value comment ↔
      (commentTail comment).length ≤ 70 - max 20 (printed floats value).length := by
  have htail : (commentTail comment).length = if comment = [] then 0 else comment.length + 3 := by
    unfold commentTail
    cases comment with
    | nil => rfl
    | cons b rest => simp [str]
  have hsmall : (printed floats value).length ≤ 20 →
      (comment.length ≤ 47 ↔
        (commentTail comment).length ≤ 70 - max 20 (printed floats value).length) := by
    intro hle
    rw [htail]
    split_ifs with hnil
    · rw [hnil, List.length_nil]
      omega
    · omega
  cases value with
  | logical b =>
    apply hsmall
    rw [printed_logical_length]
    decide
  | integer n => exact hsmall (intDec_length_le hnumber)
  | complex re im => exact Bool.noConfusion (show true = false from hkey)
  | real x =>
    have hle : (floats.display x).length ≤ (formatFitsFloat floats x).length := by
      rw [formatFitsFloat_eq hprints]
      split_ifs
      · rw [List.length_append]
        omega
      · exact Nat.le_refl _
    rw [NumberRoom, htail]
    rw [printed] at hwidth ⊢
    split_ifs
    · omega
    · omega
  | string s => exact hnumber.elim
  | undefined => exact hnumber.elim

example : printed exampleFloats (.integer (-12)) = str "-12" := by decide +kernel

/-- Only a finite float is wider than the card. -/
theorem real_of_wide (hprints : PrintsShortest floats) (hnumber : IsNumber value)
    (hkey : isChecked key value = false) (hwide : 70 < (printed floats value).length) :
    ∃ x, value = .real x ∧ floats.isFinite x = true := by
  cases value with
  | logical b =>
    rw [printed_logical_length] at hwide
    exact absurd hwide (by decide)
  | integer n =>
    have hle := intDec_length_le hnumber
    rw [printed] at hwide
    omega
  | complex re im => exact Bool.noConfusion (show true = false from hkey)
  | real x =>
    refine ⟨x, rfl, ?_⟩
    by_contra hx
    have hcheck : ∀ s ∈ [str "inf", str "-inf", str "NaN"], s.length ≤ 70 := by
      decide +kernel
    have hlen := hcheck _ (hprints.special x (by simpa using hx))
    rw [printed, formatFitsFloat_eq hprints, if_neg fun h => hx h.1] at hwide
    omega
  | string s => exact hnumber.elim
  | undefined => exact hnumber.elim

/-- What the reader gets from the card of a number. -/
theorem parse_numberBody (hprints : PrintsShortest floats) (hnumber : IsNumber value)
    (hkey : isHierarchKey key = false → (valueFront key).length = 8)
    (hlen : isChecked key value = true → (numberBody floats key value comment).length ≤ 80) :
    ∃ text, trimEnd (padToCard (numberBody floats key value comment)) =
      valueFront key ++ 0x3D :: text ∧
      ∀ following, parseValueWithContinue floats following text = (value, comment) ↔
        trim comment = comment ∧
        (isChecked key value = true ∨ NumberRoom floats value comment) := by
  have hwhite : ∀ n, ∀ b ∈ blank :: List.replicate n blank, isWhitespace b = true := by
    intro n
    rw [← List.replicate_succ]
    exact fun b hb => isWhitespace_of_mem_blanks hb
  cases hchecked : isChecked key value with
  | true =>
    have hcard : trimEnd (padToCard (numberBody floats key value comment)) =
        valueFront key ++ 0x3D ::
        trimEnd ((blank :: List.replicate (numberBlanks floats key value) blank) ++
          (printed floats value ++ commentTail comment)) := by
      rw [padToCard_of_clean (hlen hchecked), trimEnd_append_blanks, numberBody,
        trimEnd_append (by decide), List.cons_append]
    refine ⟨_, hcard, fun following => ?_⟩
    rw [parse_trimEnd, parse_printed hprints hnumber (hwhite _) (commentTail_reads comment),
      Prod.mk.injEq, and_iff_right rfl]
    exact (and_iff_left (Or.inl rfl)).symm
  | false =>
    have hfront := hkey (by
      cases value with
      | complex re im => exact Bool.noConfusion (show true = false from hchecked)
      | _ => exact hchecked)
    obtain ⟨n, hn⟩ : ∃ n, numberBlanks floats key value = n := ⟨_, rfl⟩
    have hblanks : n = 20 - (printed floats value).length := by
      rw [← hn, numberBlanks, hchecked, if_neg Bool.false_ne_true]
    have hcard : trimEnd (padToCard (numberBody floats key value comment)) =
        valueFront key ++ 0x3D ::
        trimEnd ((blank :: List.replicate n blank) ++
          (printed floats value ++ commentTail comment).take (70 - n)) := by
      rw [padToCard, padRight, trimEnd_append_blanks, numberBody, hn, cardSize, List.take_append,
        hfront, List.take_of_length_le (by omega), List.take_succ_cons, List.take_succ_cons,
        List.take_append, List.length_replicate, List.take_of_length_le (by simp; omega),
        trimEnd_append (by decide)]
      rfl
    refine ⟨_, hcard, fun following => ?_⟩
    rw [parse_trimEnd]
    rcases Nat.lt_or_ge 70 (printed floats value).length with hwide | hfits
    · obtain ⟨x, rfl, hx⟩ := real_of_wide hprints hnumber hchecked hwide
      rw [printed] at hwide hblanks ⊢
      have hbytes : ∀ b ∈ (formatFitsFloat floats x).take 70, isFloatByte b = true :=
        fun b hb => formatFitsFloat_bytes hprints x b (List.mem_of_mem_take hb)
      have hne : (formatFitsFloat floats x).take 70 ≠ [] := by
        rw [← List.length_pos_iff, List.length_take]
        omega
      have hmarks : ∀ b ∈ (formatFitsFloat floats x).take 70, b ≠ 0x27 ∧ b ≠ 0x2F := fun b hb =>
        ⟨fun he => not_mem_float hbytes (by decide) (he ▸ hb),
          fun he => not_mem_float hbytes (by decide) (he ▸ hb)⟩
      have htrim := trim_of_isToken ⟨hne, fun b hb => float_not_white (hbytes b hb)⟩
      have hsplit := splitValueComment_plain (hwhite n) hmarks htrim (.none (w := []) (by simp))
      have hn0 : n = 0 := by omega
      rw [List.append_nil] at hsplit
      rw [hn0, Nat.sub_zero, List.take_append_of_le_length (by omega), ← hn0,
        parse_plain hsplit hne (isQuoted_plain fun b hb => (hmarks b hb).1), Prod.mk.injEq,
        real_take_iff hprints hx hwide, NumberRoom]
      by_cases hnil : comment = []
      · rw [if_pos hnil, hnil]
        simp [trim, trimStart, trimEnd]
      · rw [if_neg hnil]
        refine iff_of_false (fun h => hnil h.2.symm) ?_
        rintro ⟨-, h | h⟩
        · exact Bool.noConfusion h
        · omega
    · obtain ⟨c, htail, hc⟩ := commentTail_take comment (70 - max 20 (printed floats value).length)
      have htake : (printed floats value ++ commentTail comment).take (70 - n) =
          printed floats value ++
          (commentTail comment).take (70 - max 20 (printed floats value).length) := by
        rw [List.take_append, List.take_of_length_le (by omega)]
        congr 2
        omega
      rw [htake, parse_printed hprints hnumber (hwhite n) htail, Prod.mk.injEq,
        and_iff_right rfl, hc, ← numberRoom_iff hprints hnumber hchecked hfits, and_comm]
      simp

end

/-! ## Assignments -/

section

variable {F : Type} (floats : Floats F) (key : Str) (value : HeaderValue F) (comment : Str)
  (cards : List Card)

/-- When the reader gets what was written.  Under a hidden keyword the lookup sees the other
cards only, with a card between them that is neither found nor read on in. -/
structure NumberFits : Prop where
  hidden : IsHidden (normalizeKeyword key) →
    readKey floats ((cardsAround cards (normalizeKeyword key)).1 ++
      [] :: (cardsAround cards (normalizeKeyword key)).2) (normalizeKeyword key) =
        some (value, comment)
  shown : ¬ IsHidden (normalizeKeyword key) →
    trim comment = comment ∧
      (isChecked (storedKeyword cards key) value = true ∨ NumberRoom floats value comment)

end

section

variable {F : Type} {floats : Floats F} {key : Str} {value : HeaderValue F}
    {cards cards' : List Card}

theorem applySetitem_keeps_iff (hprints : PrintsShortest floats) (hnumber : IsNumber value)
    {comment : Option Str} (hset : Settable (normalizeKeyword key))
    (hcom : isCommentaryKey (normalizeKeyword key) ≠ true)
    (h : applySetitem floats key value comment cards = .ok () cards') :
    readKey floats cards' (normalizeKeyword key) =
        some (value, writtenComment floats cards key comment) ↔
      NumberFits floats key value (writtenComment floats cards key comment) cards := by
  obtain ⟨hvalid, newCards, hbuild, rfl⟩ := applySetitem_ok h
  have hstored := @storedAs_of_call _ cards hvalid hset
  obtain ⟨hnew, hlen⟩ := buildCardFromValue_scalar hnumber.scalar hbuild
  obtain ⟨text, hcard, hread⟩ := parse_numberBody hprints hnumber (fun hlong => by
    rw [valueFront_short hlong, padRight_length]
    have := (hstored.short hlong).2.2
    omega) hlen
  have hshort := isShort_trimEnd_padToCard (numberBody floats (storedKeyword cards key) value
    (writtenComment floats cards key comment))
  rw [hcard] at hshort
  have hwritten : setCardForKey cards (normalizeKeyword key) newCards =
      (cardsAround cards (normalizeKeyword key)).1 ++
        [valueFront (storedKeyword cards key) ++ 0x3D :: text] ++
          (cardsAround cards (normalizeKeyword key)).2 := by
    rw [setCardForKey_around, hnew, List.map_singleton, hcard]
  rw [hwritten]
  by_cases hhidden : IsHidden (normalizeKeyword key)
  · rw [readKey_passed hstored hhidden (List.forall_mem_singleton.2 hshort.2) (by simp)]
    exact ⟨fun h => ⟨fun _ => h, fun hn => absurd hhidden hn⟩, fun h => h.hidden hhidden⟩
  · rw [List.append_assoc, List.singleton_append, readKey_first hstored
      (lookup_not_skipped hset hcom hhidden) hhidden (cardsAround_front cards _) hshort,
      Option.some.injEq, hread]
    exact ⟨fun h => ⟨fun hh => absurd hh hhidden, fun _ => h⟩, fun h => h.shown hhidden⟩

theorem setItem_keeps_iff (hprints : PrintsShortest floats) (hnumber : IsNumber value)
    {comment : Option Str} (h : headerSetItem floats key value comment cards = .ok () cards') :
    readKey floats cards' (normalizeKeyword key) =
        some (value, writtenComment floats cards key comment) ↔
      NumberFits floats key value (writtenComment floats cards key comment) cards := by
  obtain ⟨hset, hcom, hrun⟩ := headerSetItem_ok h
  exact applySetitem_keeps_iff hprints hnumber hset hcom hrun

theorem CardOp.get_bind {α : Type} (f : List Card → CardOp α) (cards : List Card) :
    (get >>= f : CardOp α) cards = f cards cards := rfl

/-- A new comment is an assignment of the value that is there. -/
theorem applySetComment_ok {comment : Str}
    (h : applySetComment floats key comment cards = .ok () cards') :
    ∃ value old, readKey floats cards (normalizeKeyword key) = some (value, old) ∧
      headerSetItem floats key value (some comment) cards = .ok () cards' := by
  unfold applySetComment at h
  dsimp only at h
  by_cases hcom : isCommentaryKey (normalizeKeyword key) = true
  · rw [if_pos hcom] at h
    cases h
  rw [if_neg hcom] at h
  by_cases hprot : isProtectedKey (normalizeKeyword key) = true
  · rw [if_pos hprot] at h
    cases h
  rw [if_neg hprot] at h
  have hset : ∀ value, headerSetItem floats key value (some comment) cards =
      applySetitem floats key value (some comment) cards := by
    intro value
    unfold headerSetItem
    dsimp only
    rw [if_neg hcom, if_neg hprot]
  rw [CardOp.get_bind] at h
  cases hfind : findCardForKey cards (normalizeKeyword key) with
  | none =>
    rw [hfind] at h
    cases h
  | some found =>
    rw [hfind] at h
    obtain ⟨parsed, hparsed⟩ : ∃ parsed, parseValueWithContinue floats found.1 found.2 = parsed :=
      ⟨_, rfl⟩
    refine ⟨parsed.1, parsed.2, by rw [readKey, hfind, Option.map_some, hparsed], ?_⟩
    rw [hset]
    dsimp only at h
    rw [hparsed] at h
    cases hvalue : parsed.1 with
    | undefined =>
      rw [hvalue] at h
      cases h
    | _ =>
      rw [hvalue] at h
      exact h

/-- A number and its comment are kept, in an assignment with a comment, in one that keeps
the comment, and under a new comment, exactly when they fit. -/
theorem numbers_kept_iff (hprints : PrintsShortest floats) (hnumber : IsNumber value) :
    (∀ comment cards', headerSetItem floats key value comment cards = .ok () cards' →
      (readKey floats cards' (normalizeKeyword key) =
          some (value, writtenComment floats cards key comment) ↔
        NumberFits floats key value (writtenComment floats cards key comment) cards)) ∧
    (∀ old comment cards', readKey floats cards (normalizeKeyword key) = some (value, old) →
      applySetComment floats key comment cards = .ok () cards' →
        (readKey floats cards' (normalizeKeyword key) = some (value, comment) ↔
          NumberFits floats key value comment cards)) := by
  refine ⟨fun comment cards' h => setItem_keeps_iff hprints hnumber h,
    fun old comment cards' hread h => ?_⟩
  obtain ⟨value', old', hread', hset⟩ := applySetComment_ok h
  rw [hread] at hread'
  cases hread'
  exact setItem_keeps_iff hprints hnumber hset

end

/-- The floats as decimal numbers. -/
def decimalFloats : Floats Decimal := ⟨fun _ => true, Decimal.display, Decimal.parse⟩

theorem decimalFloats_prints : PrintsShortest decimalFloats where
  form := by
    rintro ⟨negative, n, fraction, hdigits, htrim⟩ -
    refine ⟨_, n, _, rfl, ?_, ?_⟩
    · cases negative
      · exact Or.inl rfl
      · exact Or.inr rfl
    · cases fraction with
      | nil => exact Or.inl rfl
      | cons b rest => exact Or.inr ⟨b :: rest, rfl, List.all_eq_true.1 hdigits⟩
  special := fun _ h => absurd h (by simp [decimalFloats])
  plain := by
    rintro ⟨negative, n, fraction, hdigits, htrim⟩ b hb
    rcases List.mem_append.1 hb with hb | hb
    · cases negative with
      | false => cases hb
      | true =>
        rw [List.mem_singleton.1 hb]
        decide
    rcases List.mem_append.1 hb with hb | hb
    · exact isFloatByte_of_isDigit (natDec_digits n b hb)
    · unfold Decimal.tail at hb
      split_ifs at hb
      · cases hb
      · rcases List.mem_cons.1 hb with rfl | hb
        · decide
        · exact isFloatByte_of_isDigit (List.all_eq_true.1 hdigits b hb)
  readsBack := Decimal.parse_display
  padded := fun x _ hpoint =>
    ⟨Decimal.parse_display_point hpoint (Or.inl rfl),
      Decimal.parse_display_point hpoint (Or.inr rfl)⟩
  shortest := fun _ _ _ hp hne h => hne (Decimal.parse_beginning hp h)

/-- A power of ten. -/
def tenTo (n : Nat) : Decimal := ⟨false, 10 ^ n, [], rfl, rfl⟩

/-- 2.5 -/
def twoAndHalf : Decimal := ⟨false, 2, str "5", rfl, rfl⟩

theorem numbers_kept_exposure : ∃ cards',
    headerSetItem decimalFloats (str "exptime") (.real twoAndHalf)
      (some (str "seconds")) [endCard] =
      .ok () cards' ∧
    readKey decimalFloats cards' (str "EXPTIME") = some (.real twoAndHalf, str "seconds") := by
  refine ⟨_, rfl, ?_⟩
  have hiff := @numbers_kept_iff _ decimalFloats (str "exptime") (.real twoAndHalf) [endCard]
    decimalFloats_prints trivial
  refine (hiff.1 (some (str "seconds")) _ rfl).2 ⟨fun h => absurd h (by decide), fun _ => ?_⟩
  have hroom :
      max 20 (formatFitsFloat decimalFloats twoAndHalf).length + (str "seconds").length ≤ 67 := by
    decide
  exact ⟨by decide, Or.inr hroom⟩

/-- A comment of 48 characters loses its last one, and 10^80 becomes 10^69. -/
theorem numbers_truncated :
    (∃ cards', headerSetItem decimalFloats (str "NSHOT") (.integer 3)
        (some (str "number of exposures that were joined to this one")) [endCard] = .ok () cards' ∧
      readKey decimalFloats cards' (str "NSHOT") =
        some (.integer 3, str "number of exposures that were joined to this on")) ∧
    ∃ cards', headerSetItem decimalFloats (str "FLUX") (.real (tenTo 80)) none [endCard] =
      .ok () cards' ∧
      readKey decimalFloats cards' (str "FLUX") = some (.real (tenTo 69), []) :=
  ⟨⟨_, rfl, by decide +kernel⟩, ⟨_, rfl, by decide +kernel⟩⟩

end Header

end RustFits
