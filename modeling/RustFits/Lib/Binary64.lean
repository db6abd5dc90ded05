import Mathlib.Data.Int.Log
import Mathlib.Data.Rat.Floor
import Mathlib.Tactic.Linarith
import Mathlib.Tactic.NormNum

/-!
# Rounding to doubles

A finite double is the rational number it stands for, and an operation on doubles
is the operation on rationals followed by `round`: 53 significant bits, ties to
even.  The range of the exponent is not bounded.
-/

namespace RustFits.Binary64

/-- The distance of two neighbouring doubles at `q`. -/
def ulp (q : ℚ) : ℚ := 2 ^ (Int.log 2 q - 52)

/-- The nearest integer, the even one of two. -/
def roundEven (q : ℚ) : ℤ :=
  if q - ⌊q⌋ < 1 / 2 then ⌊q⌋
  else if 1 / 2 < q - ⌊q⌋ then ⌊q⌋ + 1
  else if ⌊q⌋ % 2 = 0 then ⌊q⌋ else ⌊q⌋ + 1

/-- The double nearest to a positive number. -/
def roundPos (q : ℚ) : ℚ := roundEven (q / ulp q) * ulp q

/-- The double nearest to a number. -/
def round (q : ℚ) : ℚ := if q < 0 then -roundPos (-q) else if q = 0 then 0 else roundPos q

theorem ulp_pos (q : ℚ) : 0 < ulp q := zpow_pos (by norm_num) _

theorem floor_le_roundEven (q : ℚ) : ⌊q⌋ ≤ roundEven q := by
  unfold roundEven
  split_ifs <;> omega

theorem roundEven_intCast (n : ℤ) : roundEven n = n := by
  rw [roundEven, Int.floor_intCast, sub_self, if_pos (by norm_num)]

theorem round_zero : round 0 = 0 := by
  rw [round, if_neg (lt_irrefl 0), if_pos rfl]

/-- A positive number has at least `2 ^ 52` units. -/
theorem round_pos {q : ℚ} (h : 0 < q) : 0 < round q := by
  have hlog : (2 : ℚ) ^ Int.log 2 q ≤ q := by
    have := Int.zpow_log_le_self (b := 2) (by norm_num) h
    exact_mod_cast this
  have hone : (1 : ℚ) ≤ q / ulp q := by
    rw [le_div_iff₀ (ulp_pos q), one_mul]
    refine le_trans ?_ hlog
    exact zpow_le_zpow_right₀ (by norm_num) (by omega)
  have hfloor : (1 : ℤ) ≤ roundEven (q / ulp q) :=
    le_trans (Int.le_floor.2 (by exact_mod_cast hone)) (floor_le_roundEven _)
  have hcast : (0 : ℚ) < roundEven (q / ulp q) := by
    have : (1 : ℚ) ≤ roundEven (q / ulp q) := by exact_mod_cast hfloor
    linarith
  rw [round, if_neg (not_lt.2 h.le), if_neg h.ne']
  exact mul_pos hcast (ulp_pos q)

theorem round_nonneg {q : ℚ} (h : 0 ≤ q) : 0 ≤ round q := by
  rcases h.lt_or_eq with hpos | hzero
  · exact (round_pos hpos).le
  · rw [← hzero, round_zero]

/-- Integers of 53 bits are doubles. -/
theorem round_natCast {n : ℕ} (h : n < 2 ^ 53) : round n = n := by
  by_cases hzero : n = 0
  · rw [hzero, Nat.cast_zero, round_zero]
  have hpos : (0 : ℚ) < n := by exact_mod_cast Nat.pos_of_ne_zero hzero
  have hlog : Nat.log 2 n ≤ 52 := Nat.lt_succ_iff.1 (Nat.log_lt_of_lt_pow hzero h)
  have hulp : ulp (n : ℚ) = ((2 : ℚ) ^ (52 - Nat.log 2 n))⁻¹ := by
    rw [ulp, Int.log_natCast, ← zpow_natCast, ← zpow_neg]
    congr 1
    omega
  have hunits : (n : ℚ) / ulp n = ((n * 2 ^ (52 - Nat.log 2 n) : ℕ) : ℤ) := by
    rw [hulp, div_inv_eq_mul]
    push_cast
    rfl
  have hround : roundPos (n : ℚ) = (n : ℚ) / ulp n * ulp n := by
    rw [roundPos, hunits, roundEven_intCast]
  rw [round, if_neg (not_lt.2 hpos.le), if_neg hpos.ne', hround, div_mul_cancel₀ _ (ulp_pos _).ne']

end RustFits.Binary64
