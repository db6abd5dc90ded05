import Mathlib.Algebra.BigOperators.Group.List.Basic
import Mathlib.Algebra.Order.Ring.Nat
import Mathlib.Tactic.SplitIfs

/-!
# Ones'-complement sums

Addition with end-around carry.  `m` is the all-ones value of the word size, so
`2 ^ w - 1` for words of `w` bits, and the carry of an addition is a multiple of
`m + 1` that comes back as one.

The sum is arithmetic modulo `m`, except that zero and `m` are two values: the
sum is zero when every term is, and `m` when the terms add up to another
multiple of `m`.  `residue` is that normal form.  `foldl_endAround` reduces a
whole run of additions to it, so a sum does not depend on where the carries are
brought back.
-/

namespace RustFits.OnesComplement

/-- Addition with end-around carry. -/
def endAround (m a b : Nat) : Nat := if a + b ≤ m then a + b else a + b - m

/-- The word that stands for a natural number: zero for zero, else the
representative in `1, .., m`. -/
def residue (m n : Nat) : Nat := if n = 0 then 0 else (n - 1) % m + 1

section

variable {m a b n : Nat}

@[simp] theorem residue_zero (m : Nat) : residue m 0 = 0 := rfl

theorem residue_pos (m : Nat) (h : 0 < n) : residue m n = (n - 1) % m + 1 := by
  rw [residue, if_neg (by omega)]

theorem residue_le (hm : 0 < m) (n : Nat) : residue m n ≤ m := by
  rcases Nat.eq_zero_or_pos n with rfl | h
  · simp
  · rw [residue_pos m h]
    exact Nat.mod_lt _ hm

theorem residue_of_le (h : n ≤ m) : residue m n = n := by
  rcases Nat.eq_zero_or_pos n with rfl | hn
  · rfl
  · rw [residue_pos m hn, Nat.mod_eq_of_lt (by omega)]
    omega

/-- Multiples of `m` do not count, as long as something is left. -/
theorem residue_add_mul (h : 0 < n) (k : Nat) : residue m (n + m * k) = residue m n := by
  rw [residue_pos m (by omega), residue_pos m h, Nat.sub_add_comm h, Nat.add_mul_mod_self_left]

/-- A number and its residue differ by a multiple of `m`. -/
theorem residue_add_mul_div (m : Nat) (h : 0 < n) :
    n = residue m n + m * ((n - 1) / m) := by
  have hdiv := Nat.mod_add_div (n - 1) m
  rw [residue_pos m h]
  omega

theorem residue_add_left (m a b : Nat) : residue m (residue m a + b) = residue m (a + b) := by
  rcases Nat.eq_zero_or_pos a with rfl | ha
  · rw [residue_zero]
  · have hpos : 0 < residue m a := by
      rw [residue_pos m ha]
      omega
    conv => rhs; rw [residue_add_mul_div m ha, Nat.add_right_comm]
    rw [residue_add_mul (by omega)]

/-- Adding the complement of a sum gives all ones. -/
theorem residue_add_complement (hm : 0 < m) (n : Nat) : residue m (n + (m - residue m n)) = m := by
  have hle := residue_le hm n
  rw [← residue_add_left, Nat.add_sub_cancel' hle, residue_of_le (Nat.le_refl _)]

theorem endAround_eq (ha : a ≤ m) (hb : b ≤ m) : endAround m a b = residue m (a + b) := by
  unfold endAround
  split_ifs with h
  · rw [residue_of_le h]
  · have hsum : a + b = a + b - m + m * 1 := by omega
    rw [hsum, residue_add_mul (by omega), residue_of_le (by omega)]
    omega

/-- A run of additions is one sum. -/
theorem foldl_endAround (hm : 0 < m) {words : List Nat} (hwords : ∀ w ∈ words, w ≤ m)
    {seed : Nat} (hseed : seed ≤ m) :
    words.foldl (endAround m) seed = residue m (seed + words.sum) := by
  induction words generalizing seed with
  | nil => rw [List.foldl_nil, List.sum_nil, Nat.add_zero, residue_of_le hseed]
  | cons w words ih =>
    have hw := hwords w (by simp)
    rw [List.foldl_cons, endAround_eq hseed hw,
      ih (fun x hx => hwords x (List.mem_cons_of_mem w hx)) (residue_le hm _), residue_add_left,
      List.sum_cons, Nat.add_assoc]

end

end RustFits.OnesComplement
