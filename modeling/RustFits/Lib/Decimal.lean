import RustFits.Lib.Ascii

/-!
# Decimal numbers

Decimal numbers of any length in their shortest form without an exponent: a sign, the
digits in front of the point, and the digits behind it.

`parse` undoes `display`, also when the point or a point with a zero is put behind a number
without one, and no proper beginning of the printed form is read as the same number.
-/

namespace RustFits

open Ascii

/-- No zero stands at the end of the digits behind the point. -/
structure Decimal where
  negative : Bool
  whole : Nat
  fraction : Str
  digits : fraction.all isDigit = true
  trimmed : fraction.rdropWhile (· == 0x30) = fraction
  deriving DecidableEq, Repr

namespace Decimal

def point : UInt8 := 0x2E

/-- The digits behind the point, with the point. -/
def tail (fraction : Str) : Str := if fraction.isEmpty then [] else point :: fraction

def sign (negative : Bool) : Str := if negative then [0x2D] else []

def display (d : Decimal) : Str := sign d.negative ++ (natDec d.whole ++ tail d.fraction)

/-- A number without a sign: the whole part and the digits behind the point, without the
zeros at their end. -/
def parseBody (s : Str) : Option (Nat × Str) :=
  match s.dropWhile isDigit with
  | [] => (parseNat s).map fun n => (n, [])
  | b :: digits =>
    if b = point ∧ digits.all isDigit = true then
      (parseNat (s.takeWhile isDigit)).map fun n => (n, digits.rdropWhile (· == 0x30))
    else none

/-- The sign, and what stands behind it. -/
def splitSign : Str → Bool × Str
  | 0x2D :: rest => (true, rest)
  | s => (false, s)

def parse (s : Str) : Option Decimal :=
  (parseBody (splitSign s).2).bind fun v =>
    if h : v.2.all isDigit = true ∧ v.2.rdropWhile (· == 0x30) = v.2 then
      some ⟨(splitSign s).1, v.1, v.2, h.1, h.2⟩
    else none

theorem parseNatAux_lt {s : Str} {acc m : Nat} (h : parseNatAux acc s = some m) :
    m < (acc + 1) * 10 ^ s.length := by
  induction s generalizing acc with
  | nil =>
    cases h
    simp
  | cons b rest ih =>
    rw [parseNatAux] at h
    split_ifs at h with hdigit
    have hb : b.toNat - 0x30 < 10 := by
      simp only [isDigit, Bool.and_eq_true, decide_eq_true_eq, UInt8.le_iff_toNat_le] at hdigit
      have h39 : (0x39 : UInt8).toNat = 57 := rfl
      omega
    have hlt := ih h
    have hacc : acc * 10 + (b.toNat - 0x30) + 1 ≤ (acc + 1) * 10 := by omega
    calc m < (acc * 10 + (b.toNat - 0x30) + 1) * 10 ^ rest.length := hlt
      _ ≤ (acc + 1) * 10 * 10 ^ rest.length := Nat.mul_le_mul_right _ hacc
      _ = (acc + 1) * 10 ^ (b :: rest).length := by
        rw [List.length_cons, Nat.pow_succ, Nat.mul_assoc, Nat.mul_comm 10]

/-- A number is printed with as many digits as it needs. -/
theorem natDec_length_le {s : Str} {n : Nat} (h : parseNat s = some n) :
    (natDec n).length ≤ s.length := by
  unfold parseNat at h
  split_ifs at h with hempty
  have hlt := parseNatAux_lt h
  cases s with
  | nil => exact absurd rfl hempty
  | cons b rest =>
    have hle := natDecAux_length_le (n + 1) n rest.length [] (by
      rw [List.length_cons] at hlt
      omega)
    rw [← natDec, List.length_nil, Nat.zero_add] at hle
    exact hle

section

variable {fraction p : Str} {n : Nat}

theorem splitSign_sign (negative : Bool) (n : Nat) (rest : Str) :
    splitSign (sign negative ++ (natDec n ++ rest)) = (negative, natDec n ++ rest) := by
  cases negative with
  | true => rfl
  | false =>
    cases hs : natDec n with
    | nil => exact absurd hs (natDec_ne_nil n)
    | cons b digits =>
      have hb : isDigit b = true := natDec_digits n b (hs ▸ List.mem_cons_self)
      have hminus := (not_sign_of_isDigit hb).2
      show splitSign (b :: (digits ++ rest)) = _
      unfold splitSign
      split
      · rename_i heq
        exact absurd (List.cons.inj heq).1 hminus
      · rfl

theorem dropWhile_natDec (n : Nat) (rest : Str) :
    (natDec n ++ rest).dropWhile isDigit = rest.dropWhile isDigit ∧
      (natDec n ++ rest).takeWhile isDigit = natDec n ++ rest.takeWhile isDigit :=
  ⟨List.dropWhile_append_of_pos (natDec_digits n), List.takeWhile_append_of_pos (natDec_digits n)⟩

theorem parseBody_natDec (n : Nat) : parseBody (natDec n) = some (n, []) := by
  have hdrop := (dropWhile_natDec n []).1
  rw [List.append_nil] at hdrop
  rw [parseBody, hdrop, parseNat_natDec]
  rfl

theorem parseBody_point (n : Nat) {digits : Str} (h : digits.all isDigit = true) :
    parseBody (natDec n ++ point :: digits) = some (n, digits.rdropWhile (· == 0x30)) := by
  have hsplit := dropWhile_natDec n (point :: digits)
  rw [List.dropWhile_cons_of_neg (by decide), List.takeWhile_cons_of_neg (by decide),
    List.append_nil] at hsplit
  rw [parseBody, hsplit.1, hsplit.2, parseNat_natDec]
  dsimp only
  rw [if_pos ⟨rfl, h⟩]
  rfl

theorem parse_sign (negative : Bool) (n : Nat) (rest : Str) {v : Nat × Str}
    (hbody : parseBody (natDec n ++ rest) = some v) (hdigits : v.2.all isDigit = true)
    (htrim : v.2.rdropWhile (· == 0x30) = v.2) :
    parse (sign negative ++ (natDec n ++ rest)) = some ⟨negative, v.1, v.2, hdigits, htrim⟩ := by
  rw [parse, splitSign_sign, hbody, Option.bind_some, dif_pos ⟨hdigits, htrim⟩]

theorem parse_display (d : Decimal) : parse d.display = some d := by
  obtain ⟨negative, n, fraction, hdigits, htrim⟩ := d
  have hbody : parseBody (natDec n ++ tail fraction) = some (n, fraction) := by
    cases fraction with
    | nil =>
      rw [show tail [] = [] from rfl, List.append_nil]
      exact parseBody_natDec n
    | cons b rest =>
      rw [tail, if_neg (by simp), parseBody_point n hdigits, htrim]
  exact parse_sign negative n (tail fraction) hbody hdigits htrim

/-- A point may be put behind a number without one, and a zero behind that. -/
theorem parse_display_point {d : Decimal} (h : point ∉ d.display) {zeros : Str}
    (hzeros : zeros = [] ∨ zeros = [0x30]) : parse (d.display ++ point :: zeros) = some d := by
  obtain ⟨negative, n, fraction, hdigits, htrim⟩ := d
  cases fraction with
  | cons b rest =>
    refine absurd ?_ h
    rw [display, tail, if_neg (by simp)]
    simp
  | nil =>
    have hbody : parseBody (natDec n ++ point :: zeros) = some (n, []) := by
      rw [parseBody_point n (by rcases hzeros with rfl | rfl <;> rfl)]
      rcases hzeros with rfl | rfl <;> rfl
    rw [display, show tail [] = [] from rfl, List.append_nil, List.append_assoc]
    exact parse_sign negative n (point :: zeros) hbody hdigits htrim

/-- Behind the sign, a proper beginning is another number. -/
theorem parseBody_beginning (htrim : fraction.rdropWhile (· == 0x30) = fraction)
    (hp : p <+: natDec n ++ tail fraction) (h : parseBody p = some (n, fraction)) :
    p = natDec n ++ tail fraction := by
  unfold parseBody at h
  cases hbehind : p.dropWhile isDigit with
  | nil =>
    rw [hbehind] at h
    obtain ⟨m, hm, heq⟩ := Option.map_eq_some_iff.1 h
    cases heq
    have hle := natDec_length_le hm
    rw [show tail [] = [] from rfl, List.append_nil] at hp ⊢
    exact hp.eq_of_length_le hle
  | cons b digits =>
    rw [hbehind] at h
    dsimp only at h
    split_ifs at h with hpoint
    obtain ⟨m, hm, heq⟩ := Option.map_eq_some_iff.1 h
    obtain ⟨rfl, hfraction⟩ := Prod.mk.inj heq
    have hlen : (natDec m).length ≤ (p.takeWhile isDigit).length := natDec_length_le hm
    have hsplit : p = p.takeWhile isDigit ++ b :: digits := by
      conv_lhs => rw [← List.takeWhile_append_dropWhile (p := isDigit) (l := p), hbehind]
    have hshort : fraction.length ≤ digits.length := by
      rw [← hfraction]
      exact (List.rdropWhile_prefix _ _).length_le
    refine hp.eq_of_length_le ?_
    rw [hsplit, List.length_append, List.length_append, List.length_cons]
    unfold tail
    split_ifs
    · rw [List.length_nil]
      omega
    · rw [List.length_cons]
      omega

theorem splitSign_append (s : Str) : s = sign (splitSign s).1 ++ (splitSign s).2 := by
  unfold splitSign
  split <;> rfl

/-- A proper beginning of the printed form is not read as the same number. -/
theorem parse_beginning {d : Decimal} (hp : p <+: d.display) (h : parse p = some d) :
    p = d.display := by
  obtain ⟨negative, n, fraction, hdigits, htrim⟩ := d
  have hsplit := splitSign_append p
  unfold parse at h
  obtain ⟨⟨minus, rest⟩, hpair⟩ : ∃ x, splitSign p = x := ⟨_, rfl⟩
  rw [hpair] at h hsplit
  obtain ⟨v, hbody, hv⟩ := Option.bind_eq_some_iff.1 h
  split_ifs at hv with hcheck
  cases hv
  rw [hsplit] at hp ⊢
  have hrest : rest <+: natDec v.1 ++ tail v.2 := (List.prefix_append_right_inj _).1 hp
  exact congrArg (sign minus ++ ·) (parseBody_beginning htrim hrest hbody)

end

end Decimal

end RustFits
