import Mathlib.Data.List.DropRight
import Mathlib.Tactic.IntervalCases
import Mathlib.Tactic.SplitIfs

/-!
# ASCII text as bytes

Strings as lists of bytes, with the operations of a string library that a text
format needs: trimming, padding, the first token, and decimal integers in both
directions.  A string here is its byte sequence, so its length is the byte
length and slicing is by byte position.  White space is the ASCII white space:
the blank and the five control characters from tab to carriage return.

The decimal round trips `parseNat_natDec` and `parseI64_intDec` are what a
writer and a reader of the same number need.
-/

namespace RustFits.Ascii

/-- A byte string. -/
abbrev Str := List UInt8

/-- The bytes of an ASCII literal. -/
def str (s : String) : Str := s.toList.map fun c => c.toNat.toUInt8

/-- The em dash of the messages. -/
def emDash : Str := [0xE2, 0x80, 0x94]

/-- The blank. -/
def blank : UInt8 := 0x20

/-- ASCII white space. -/
def isWhitespace (b : UInt8) : Bool := b == 0x20 || (0x09 ≤ b && b ≤ 0x0D)

/-- The printable ASCII range. -/
def isPrintable (b : UInt8) : Bool := 0x20 ≤ b && b ≤ 0x7E

def isDigit (b : UInt8) : Bool := 0x30 ≤ b && b ≤ 0x39

def trimStart (s : Str) : Str := s.dropWhile isWhitespace

def trimEnd (s : Str) : Str := s.rdropWhile isWhitespace

def trim (s : Str) : Str := trimEnd (trimStart s)

/-- Drop every trailing byte that satisfies `p`. -/
def trimEndMatches (p : UInt8 → Bool) (s : Str) : Str := s.rdropWhile p

/-- The first token between white space, if there is one. -/
def nextToken (s : Str) : Option Str :=
  match trimStart s with
  | [] => none
  | t => some (t.takeWhile fun b => !isWhitespace b)

/-- Left-justify in a field of `w` blanks. -/
def padRight (w : Nat) (s : Str) : Str := s ++ List.replicate (w - s.length) blank

/-- Right-justify in a field of `w` blanks. -/
def padLeft (w : Nat) (s : Str) : Str := List.replicate (w - s.length) blank ++ s

/-- A property of bytes is checked on all of them. -/
theorem forall_byte {p : UInt8 → Prop} (h : ∀ n < 256, p (UInt8.ofNat n)) (b : UInt8) : p b := by
  have hb := h b.toNat b.toNat_lt
  rwa [UInt8.ofNat_toNat] at hb

theorem trimEnd_append_white (s : Str) {w : Str} (hw : ∀ b ∈ w, isWhitespace b = true) :
    trimEnd (s ++ w) = trimEnd s := by
  induction w using List.reverseRecOn with
  | nil => simp
  | append_singleton w b ih =>
    rw [← List.append_assoc, trimEnd, List.rdropWhile_concat_pos _ _ _ (hw b (by simp))]
    exact ih fun c hc => hw c (by simp [hc])

theorem isWhitespace_of_mem_blanks {n : Nat} {b : UInt8} (h : b ∈ List.replicate n blank) :
    isWhitespace b = true := by
  rw [(List.mem_replicate.1 h).2]
  decide

theorem trimEnd_append_blanks (s : Str) (n : Nat) :
    trimEnd (s ++ List.replicate n blank) = trimEnd s :=
  trimEnd_append_white s fun _ => isWhitespace_of_mem_blanks

theorem padRight_length (w : Nat) (s : Str) : (padRight w s).length = max w s.length := by
  simp [padRight]
  omega

/-- Trailing white space is only looked for behind a byte that is none. -/
theorem trimEnd_append {a b : Str} {c : UInt8} (h : isWhitespace c = false) :
    trimEnd (a ++ c :: b) = a ++ c :: trimEnd b := by
  simp only [trimEnd, List.rdropWhile, List.reverse_append, List.reverse_cons]
  rw [List.append_assoc, List.dropWhile_append]
  split_ifs with hb
  · have hb' : b.reverse.dropWhile isWhitespace = [] := by simpa using hb
    simp [hb', h]
  · simp

/-- The bytes of a token: no white space. -/
def IsToken (s : Str) : Prop := s ≠ [] ∧ ∀ b ∈ s, isWhitespace b = false

instance (s : Str) : Decidable (IsToken s) :=
  decidable_of_iff ((!s.isEmpty && s.all fun b => !isWhitespace b) = true) (by simp [IsToken])

/-- Trimming behind a token trims only what follows the token. -/
theorem trim_token_append {s : Str} (h : IsToken s) (rest : Str) :
    trim (s ++ rest) = s ++ trimEnd rest := by
  obtain ⟨hne, hws⟩ := h
  have hstart : trimStart (s ++ rest) = s ++ rest := by
    cases s with
    | nil => exact absurd rfl hne
    | cons b s => simp [trimStart, hws b (by simp)]
  have hsplit := List.dropLast_append_getLast hne
  rw [trim, hstart]
  conv_lhs => rw [← hsplit]
  rw [List.append_assoc, List.singleton_append, trimEnd_append (hws _ (List.getLast_mem hne)),
    ← List.singleton_append, ← List.append_assoc, hsplit]

theorem trim_sublist (s : Str) : (trim s).Sublist s :=
  (List.rdropWhile_prefix _ _).sublist.trans (List.dropWhile_suffix _).sublist

/-- A string that trims to one of at least its own length was that string. -/
theorem eq_of_trim_eq {s t : Str} (h : trim s = t) (hlen : s.length ≤ t.length) : s = t := by
  have hsub := trim_sublist s
  rw [h] at hsub
  exact (hsub.eq_of_length_le hlen).symm

theorem trim_of_isToken {s : Str} (h : IsToken s) : trim s = s := by
  obtain ⟨hne, hws⟩ := h
  have hstart : trimStart s = s := by
    cases s with
    | nil => rfl
    | cons b s => simp [trimStart, hws b (by simp)]
  rw [trim, hstart, trimEnd, List.rdropWhile_eq_self_iff]
  intro hne
  simp [hws _ (List.getLast_mem hne)]

theorem trim_append_white (s : Str) {w : Str} (hw : ∀ b ∈ w, isWhitespace b = true) :
    trim (s ++ w) = trim s := by
  rw [trim, trim, trimStart, trimStart, List.dropWhile_append]
  split_ifs with h
  · have h' : s.dropWhile isWhitespace = [] := by simpa using h
    rw [List.dropWhile_eq_nil_iff.2 hw, h']
  · exact trimEnd_append_white _ hw

theorem trim_append_blanks (s : Str) (n : Nat) :
    trim (s ++ List.replicate n blank) = trim s :=
  trim_append_white s fun _ => isWhitespace_of_mem_blanks

theorem trim_white_append {w : Str} (hw : ∀ b ∈ w, isWhitespace b = true) (s : Str) :
    trim (w ++ s) = trim s := by
  rw [trim, trim, trimStart, trimStart, List.dropWhile_append_of_pos hw]

theorem trimStart_split (v : Str) :
    ∃ w, (∀ b ∈ w, isWhitespace b = true) ∧ v = w ++ trimStart v :=
  ⟨v.takeWhile isWhitespace, fun _ => List.mem_takeWhile_imp,
    (List.takeWhile_append_dropWhile).symm⟩

theorem trimStart_head {v rest : Str} {b : UInt8} (h : trimStart v = b :: rest) :
    isWhitespace b = false := by
  have hhead := List.head?_dropWhile_not isWhitespace v
  rw [← trimStart, h] at hhead
  simpa using hhead

theorem trimEnd_last {s : Str} (h : trimEnd s ≠ []) :
    isWhitespace ((trimEnd s).getLast h) = false := by
  rw [Bool.eq_false_iff]
  exact List.rdropWhile_last_not isWhitespace s h

/-- Trimming keeps a byte that is no white space. -/
theorem mem_trim_of_not_white {s : Str} {b : UInt8} (hb : b ∈ s) (hwhite : isWhitespace b = false) :
    b ∈ trim s := by
  obtain ⟨w, hw, hsplit⟩ := trimStart_split s
  have hstart : b ∈ trimStart s := by
    rw [hsplit] at hb
    rcases List.mem_append.1 hb with hb | hb
    · rw [hw b hb] at hwhite
      exact Bool.noConfusion hwhite
    · exact hb
  obtain ⟨front, back, hmid⟩ := List.append_of_mem hstart
  rw [trim, hmid, trimEnd_append hwhite]
  simp

/-- White space at the end of a text does not change what its front trims to. -/
theorem trim_take_trimEnd (s : Str) (n : Nat) : trim ((trimEnd s).take n) = trim (s.take n) := by
  have hsplit : trimEnd s ++ s.rtakeWhile isWhitespace = s := List.rdropWhile_append_rtakeWhile
  conv_rhs => rw [← hsplit, List.take_append]
  rw [trim_append_white _ fun b hb => List.mem_rtakeWhile_imp (List.mem_of_mem_take hb)]

/-- The first token behind blanks, up to the next white space. -/
theorem nextToken_eq {s rest : Str} (n : Nat) (hs : IsToken s)
    (hrest : ∀ b ∈ rest.head?, isWhitespace b = true) :
    nextToken (List.replicate n blank ++ s ++ rest) = some s := by
  have hstart : trimStart (List.replicate n blank ++ s ++ rest) = s ++ rest := by
    rw [trimStart, List.append_assoc, List.dropWhile_append_of_pos]
    · cases s with
      | nil => exact absurd rfl hs.1
      | cons b s => simp [hs.2 b (by simp)]
    · intro b hb
      rw [(List.mem_replicate.1 hb).2]
      decide
  have htake : (s ++ rest).takeWhile (fun b => !isWhitespace b) = s := by
    rw [List.takeWhile_append_of_pos fun b hb => by simp [hs.2 b hb]]
    cases rest with
    | nil => simp
    | cons b rest => simp [hrest b (by simp)]
  rw [nextToken, hstart]
  split
  · rename_i h
    exact absurd (List.append_eq_nil_iff.1 h).1 hs.1
  · rw [htake]

/-! ## Decimal integers -/

/-- The decimal digits of `n` in front of `tail`.  `fuel` is more than `n`. -/
def natDecAux : Nat → Nat → Str → Str
  | 0, _, tail => tail
  | fuel + 1, n, tail =>
    if n < 10 then (0x30 + n.toUInt8) :: tail
    else natDecAux fuel (n / 10) ((0x30 + (n % 10).toUInt8) :: tail)

/-- The decimal form of a natural number. -/
def natDec (n : Nat) : Str := natDecAux (n + 1) n []

/-- The decimal form of an integer. -/
def intDec (v : Int) : Str :=
  if v < 0 then 0x2D :: natDec v.natAbs else natDec v.natAbs

def parseNatAux : Nat → Str → Option Nat
  | acc, [] => some acc
  | acc, b :: rest =>
    if isDigit b then parseNatAux (acc * 10 + (b.toNat - 0x30)) rest else none

/-- A nonempty run of digits. -/
def parseNat (s : Str) : Option Nat := if s.isEmpty then none else parseNatAux 0 s

/-- The values of a signed 64-bit integer. -/
def InI64 (v : Int) : Prop := -9223372036854775808 ≤ v ∧ v ≤ 9223372036854775807

instance (v : Int) : Decidable (InI64 v) := inferInstanceAs (Decidable (_ ∧ _))

/-- A signed 64-bit integer: an optional sign and digits, in range. -/
def parseI64 (s : Str) : Option Int :=
  let value : Option Int :=
    match s with
    | 0x2B :: rest => (parseNat rest).map Int.ofNat
    | 0x2D :: rest => (parseNat rest).map fun n => -Int.ofNat n
    | rest => (parseNat rest).map Int.ofNat
  value.bind fun v => if InI64 v then some v else none

/-! ## Digits -/

/-- An unsigned 64-bit integer: an optional plus sign and digits, in range. -/
def parseU64 (s : Str) : Option Nat :=
  let value : Option Nat :=
    match s with
    | 0x2B :: rest => parseNat rest
    | rest => parseNat rest
  value.bind fun v => if v < 18446744073709551616 then some v else none

theorem parseU64_lt {s : Str} {n : Nat} (h : parseU64 s = some n) : n < 18446744073709551616 := by
  unfold parseU64 at h
  obtain ⟨v, -, hv⟩ := Option.bind_eq_some_iff.1 h
  split_ifs at hv with hlt
  obtain rfl := Option.some.inj hv
  exact hlt

theorem digit_toNat {d : Nat} (h : d < 10) : (0x30 + d.toUInt8 : UInt8).toNat = 0x30 + d := by
  interval_cases d <;> rfl

theorem isDigit_digit {d : Nat} (h : d < 10) : isDigit (0x30 + d.toUInt8) = true := by
  interval_cases d <;> rfl

theorem parseNatAux_digit {d : Nat} (h : d < 10) (acc : Nat) (rest : Str) :
    parseNatAux acc ((0x30 + d.toUInt8) :: rest) = parseNatAux (acc * 10 + d) rest := by
  rw [parseNatAux, isDigit_digit h, if_pos rfl, digit_toNat h]
  congr 1
  omega

/-- Reading the digits of `n` from an empty accumulator gives `n`. -/
theorem parseNatAux_natDecAux :
    ∀ (fuel n : Nat) (tail : Str), n < fuel →
      parseNatAux 0 (natDecAux fuel n tail) = parseNatAux n tail := by
  intro fuel
  induction fuel with
  | zero =>
    intro n tail h
    omega
  | succ fuel ih =>
    intro n tail h
    rw [natDecAux]
    split_ifs with h10
    · rw [parseNatAux_digit h10]
      simp
    · rw [ih _ _ (by omega), parseNatAux_digit (Nat.mod_lt _ (by decide))]
      congr 1
      omega

example : parseNatAux 0 (natDecAux 13 120 []) = some 120 := by decide +kernel

theorem natDecAux_ne_nil : ∀ (fuel n : Nat) (tail : Str), natDecAux (fuel + 1) n tail ≠ [] := by
  intro fuel
  induction fuel with
  | zero =>
    intro n tail
    rw [natDecAux]
    split_ifs <;> simp [natDecAux]
  | succ fuel ih =>
    intro n tail
    rw [natDecAux]
    split_ifs
    · simp
    · exact ih _ _

theorem natDec_ne_nil (n : Nat) : natDec n ≠ [] := natDecAux_ne_nil n n []

theorem parseNat_natDec (n : Nat) : parseNat (natDec n) = some n := by
  have hne : (natDec n).isEmpty = false := by simpa using natDec_ne_nil n
  rw [parseNat, hne]
  simp only [Bool.false_eq_true, if_false]
  exact parseNatAux_natDecAux (n + 1) n [] (by omega)

/-- Every byte of a decimal form is a digit. -/
theorem natDecAux_digits :
    ∀ (fuel n : Nat) (tail : Str), (∀ b ∈ tail, isDigit b = true) →
      ∀ b ∈ natDecAux fuel n tail, isDigit b = true := by
  intro fuel
  induction fuel with
  | zero => intro n tail h; exact h
  | succ fuel ih =>
    intro n tail h
    rw [natDecAux]
    split_ifs with h10
    · intro b hb
      rcases List.mem_cons.1 hb with rfl | hb
      · exact isDigit_digit h10
      · exact h b hb
    · refine ih _ _ ?_
      intro b hb
      rcases List.mem_cons.1 hb with rfl | hb
      · exact isDigit_digit (Nat.mod_lt _ (by decide))
      · exact h b hb

theorem natDec_digits (n : Nat) : ∀ b ∈ natDec n, isDigit b = true :=
  natDecAux_digits (n + 1) n [] (by simp)

theorem natDecAux_length_le :
    ∀ (fuel n k : Nat) (tail : Str), n < 10 ^ (k + 1) →
      (natDecAux fuel n tail).length ≤ tail.length + (k + 1) := by
  intro fuel
  induction fuel with
  | zero => intro n k tail _; simp [natDecAux]
  | succ fuel ih =>
    intro n k tail h
    rw [natDecAux]
    split_ifs with h10
    · simp
    · cases k with
      | zero => omega
      | succ k =>
        have hdiv : n / 10 < 10 ^ (k + 1) := by
          rw [Nat.div_lt_iff_lt_mul (by decide), ← Nat.pow_succ]
          exact h
        have := ih (n / 10) k ((0x30 + (n % 10).toUInt8) :: tail) hdiv
        simp only [List.length_cons] at this
        omega

/-- A signed 64-bit integer has at most 20 characters. -/
theorem intDec_length_le {v : Int} (h : InI64 v) : (intDec v).length ≤ 20 := by
  have hnat : (natDec v.natAbs).length ≤ 19 := by
    have := natDecAux_length_le (v.natAbs + 1) v.natAbs 18 [] (by unfold InI64 at h; omega)
    simpa [natDec] using this
  unfold intDec
  split_ifs
  · simp
    omega
  · omega

/-- The bytes of a decimal form. -/
theorem intDec_bytes {v : Int} {b : UInt8} (h : b ∈ intDec v) : isDigit b = true ∨ b = 0x2D := by
  unfold intDec at h
  split_ifs at h
  · rcases List.mem_cons.1 h with rfl | h
    · exact Or.inr rfl
    · exact Or.inl (natDec_digits _ b h)
  · exact Or.inl (natDec_digits _ b h)

theorem not_whitespace_of_isDigit {b : UInt8} (h : isDigit b = true) : isWhitespace b = false := by
  simp only [isDigit, Bool.and_eq_true, decide_eq_true_eq, UInt8.le_iff_toNat_le] at h
  simp only [isWhitespace, Bool.or_eq_false_iff, Bool.and_eq_false_iff, beq_eq_false_iff_ne,
    decide_eq_false_iff_not, UInt8.le_iff_toNat_le, ne_eq, ← UInt8.toNat_inj]
  have h20 : (0x20 : UInt8).toNat = 32 := rfl
  have h0D : (0x0D : UInt8).toNat = 13 := rfl
  have h30 : (0x30 : UInt8).toNat = 48 := rfl
  omega

theorem isToken_intDec (v : Int) : IsToken (intDec v) := by
  constructor
  · unfold intDec
    split_ifs
    · simp
    · exact natDec_ne_nil _
  · intro b hb
    rcases intDec_bytes hb with h | rfl
    · exact not_whitespace_of_isDigit h
    · rfl

/-- A digit is neither sign. -/
theorem not_sign_of_isDigit {b : UInt8} (h : isDigit b = true) : b ≠ 0x2B ∧ b ≠ 0x2D := by
  constructor
  · rintro rfl
    exact absurd h (by decide)
  · rintro rfl
    exact absurd h (by decide)

theorem inI64_of_parseI64 {s : Str} {v : Int} (h : parseI64 s = some v) : InI64 v := by
  unfold parseI64 at h
  obtain ⟨w, -, hw⟩ := Option.bind_eq_some_iff.1 h
  split_ifs at hw with hin
  exact Option.some.inj hw ▸ hin

theorem parseI64_natDec_eq (n : Nat) :
    parseI64 (natDec n) = if InI64 (n : Int) then some (n : Int) else none := by
  have hparse := parseNat_natDec n
  have hdig := natDec_digits n
  cases hs : natDec n with
  | nil => exact absurd hs (natDec_ne_nil n)
  | cons b rest =>
    rw [hs] at hparse hdig
    obtain ⟨hplus, hminus⟩ := not_sign_of_isDigit (hdig b (by simp))
    have hval : parseI64 (b :: rest) =
        ((parseNat (b :: rest)).map Int.ofNat).bind
          fun v => if InI64 v then some v else none := by
      unfold parseI64
      split
      · rename_i heq
        exact absurd (List.cons.inj heq).1 hplus
      · rename_i heq
        exact absurd (List.cons.inj heq).1 hminus
      · rfl
    rw [hval, hparse]
    rfl

theorem parseI64_natDec {n : Nat} (h : n ≤ 9223372036854775807) :
    parseI64 (natDec n) = some (n : Int) := by
  have hin : InI64 (n : Int) := by
    unfold InI64
    omega
  rw [parseI64_natDec_eq, if_pos hin]

theorem parseI64_minus (n : Nat) :
    parseI64 (0x2D :: natDec n) = if InI64 (-(n : Int)) then some (-(n : Int)) else none := by
  unfold parseI64
  simp only [parseNat_natDec, Option.map_some, Option.bind_some]
  rfl

/-- A long number is no signed 64-bit integer. -/
theorem parseI64_long {sign : Str} {n : Nat} (hsign : sign = [] ∨ sign = [0x2D])
    (hlen : 19 < (natDec n).length) : parseI64 (sign ++ natDec n) = none := by
  have hn : 10 ^ 19 ≤ n := by
    by_contra hlt
    have hle := natDecAux_length_le (n + 1) n 18 [] (by omega)
    rw [← natDec, List.length_nil] at hle
    omega
  rcases hsign with rfl | rfl
  · rw [List.nil_append, parseI64_natDec_eq, if_neg]
    unfold InI64
    omega
  · rw [List.singleton_append, parseI64_minus, if_neg]
    unfold InI64
    omega

/-- An integer that fits reads back from its decimal form. -/
theorem parseI64_intDec {v : Int} (h : InI64 v) : parseI64 (intDec v) = some v := by
  unfold intDec
  split_ifs with hneg
  · have hv : -Int.ofNat v.natAbs = v := by
      rw [Int.ofNat_eq_natCast]
      omega
    rw [parseI64_minus, ← Int.ofNat_eq_natCast, hv, if_pos h]
  · have hlt : v.natAbs ≤ 9223372036854775807 := by
      have := h.2
      omega
    rw [parseI64_natDec hlt]
    congr 1
    omega

end RustFits.Ascii
