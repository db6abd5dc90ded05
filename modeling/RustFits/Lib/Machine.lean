import Mathlib.Data.Nat.Basic
import Mathlib.Tactic.SplitIfs

/-!
# Machine arithmetic

Unsigned values of 32 and 64 bits are natural numbers below `u32Size` and
`u64Size`.  An operation that can overflow returns a `Wrapped` value: the result
it leaves in a release build, where overflow is silent, together with a flag
that says whether this operation or an earlier one of the same computation
overflowed.  A debug build stops exactly when the flag is set.

* `addU32`, `addU64`, `mulU64` and `absI64` are the plain operators.
* `saturatingAdd` and `saturatingMul` cannot overflow.
* `asU64` is the cast of a signed value, which keeps the bit pattern.
* `asI8`, `asI16` and `asI32` are the casts to narrower signed types.
-/

namespace RustFits.Machine

/-- The number of unsigned 32-bit values. -/
def u32Size : Nat := 4294967296

/-- The number of unsigned 64-bit values. -/
def u64Size : Nat := 18446744073709551616

/-- The least signed 64-bit value, the one whose negation does not fit. -/
def i64Min : Int := -9223372036854775808

/-- A result together with the record of an overflow on the way to it. -/
structure Wrapped (α : Type) where
  val : α
  overflow : Bool
  deriving DecidableEq, Repr

namespace Wrapped

instance : Monad Wrapped where
  pure a := ⟨a, false⟩
  bind x f := ⟨(f x.val).val, x.overflow || (f x.val).overflow⟩

instance : LawfulMonad Wrapped :=
  LawfulMonad.mk' Wrapped (fun _ => by simp [Functor.map])
    (fun _ _ => by simp [Pure.pure, Bind.bind]) (fun _ _ _ => by simp [Bind.bind, Bool.or_assoc])

@[simp] theorem val_pure {α : Type} (a : α) : (pure a : Wrapped α).val = a := rfl

@[simp] theorem overflow_pure {α : Type} (a : α) : (pure a : Wrapped α).overflow = false := rfl

@[simp] theorem val_bind {α β : Type} (x : Wrapped α) (f : α → Wrapped β) :
    (x >>= f).val = (f x.val).val := rfl

@[simp] theorem overflow_bind {α β : Type} (x : Wrapped α) (f : α → Wrapped β) :
    (x >>= f).overflow = (x.overflow || (f x.val).overflow) := rfl

@[simp] theorem val_map {α β : Type} (f : α → β) (x : Wrapped α) : (f <$> x).val = f x.val := rfl

@[simp] theorem overflow_map {α β : Type} (f : α → β) (x : Wrapped α) :
    (f <$> x).overflow = x.overflow := Bool.or_false _

end Wrapped

def addU32 (a b : Nat) : Wrapped Nat := ⟨(a + b) % u32Size, decide (u32Size ≤ a + b)⟩

def addU64 (a b : Nat) : Wrapped Nat := ⟨(a + b) % u64Size, decide (u64Size ≤ a + b)⟩

def mulU64 (a b : Nat) : Wrapped Nat := ⟨(a * b) % u64Size, decide (u64Size ≤ a * b)⟩

def absI64 (v : Int) : Wrapped Int := if v = i64Min then ⟨v, true⟩ else ⟨v.natAbs, false⟩

def saturatingAdd (a b : Nat) : Nat := min (a + b) (u64Size - 1)

def saturatingMul (a b : Nat) : Nat := min (a * b) (u64Size - 1)

/-- The difference of two unsigned values, which wraps below zero. -/
def wrappingSub (a b : Nat) : Nat := (a + (u64Size - b % u64Size)) % u64Size

def asU64 (v : Int) : Nat := (v % (u64Size : Int)).toNat

/-- The cast of an unsigned value to a signed one, which keeps the bit pattern. -/
def asI64 (n : Nat) : Int :=
  let m := n % u64Size
  if m < 9223372036854775808 then m else (m : Int) - (u64Size : Int)

/-- Division rounded up. -/
def divCeil (a b : Nat) : Nat := if 0 < a % b then a / b + 1 else a / b

/-! ## Exact results -/

theorem val_addU32 {a b : Nat} (h : a + b < u32Size) : (addU32 a b).val = a + b :=
  Nat.mod_eq_of_lt h

theorem overflow_addU32 (a b : Nat) : (addU32 a b).overflow = false ↔ a + b < u32Size := by
  simp [addU32]

theorem val_addU64 {a b : Nat} (h : (addU64 a b).overflow = false) :
    (addU64 a b).val = a + b := by
  have hlt : a + b < u64Size := by simpa [addU64] using h
  exact Nat.mod_eq_of_lt hlt

theorem val_mulU64 {a b : Nat} (h : (mulU64 a b).overflow = false) :
    (mulU64 a b).val = a * b := by
  have hlt : a * b < u64Size := by simpa [mulU64] using h
  exact Nat.mod_eq_of_lt hlt

theorem overflow_addU64 (a b : Nat) : (addU64 a b).overflow = false ↔ a + b < u64Size := by
  simp [addU64]

theorem overflow_mulU64 (a b : Nat) : (mulU64 a b).overflow = false ↔ a * b < u64Size := by
  simp [mulU64]

theorem val_absI64 {v : Int} (h : v ≠ i64Min) : (absI64 v).val = (v.natAbs : Int) := by
  simp [absI64, h]

theorem saturatingAdd_of_lt {a b : Nat} (h : a + b < u64Size) : saturatingAdd a b = a + b := by
  unfold saturatingAdd
  omega

theorem saturatingMul_of_lt {a b : Nat} (h : a * b < u64Size) : saturatingMul a b = a * b := by
  unfold saturatingMul
  omega

/-- Saturation commutes with multiplication: it may be done once, at the end. -/
theorem saturatingMul_min (a b : Nat) :
    saturatingMul (min a (u64Size - 1)) (min b (u64Size - 1)) = min (a * b) (u64Size - 1) := by
  unfold saturatingMul
  have hM : 1 ≤ u64Size - 1 := by decide
  generalize u64Size - 1 = M at hM ⊢
  rcases Nat.le_total a M with ha | ha
  · rw [Nat.min_eq_left ha]
    rcases Nat.le_total b M with hb | hb
    · rw [Nat.min_eq_left hb]
    · rw [Nat.min_eq_right hb]
      rcases Nat.eq_zero_or_pos a with rfl | hpos
      · simp
      · have h1 : 1 * M ≤ a * M := Nat.mul_le_mul_right M hpos
        have h2 : a * M ≤ a * b := Nat.mul_le_mul_left a hb
        omega
  · rw [Nat.min_eq_right ha]
    rcases Nat.eq_zero_or_pos b with rfl | hpos
    · simp
    · have h1 : M * 1 ≤ M * min b M := Nat.mul_le_mul_left M (by omega)
      have h2 : M * 1 ≤ a * b := Nat.mul_le_mul ha hpos
      omega

theorem saturatingAdd_min (a b : Nat) :
    saturatingAdd (min a (u64Size - 1)) b = min (a + b) (u64Size - 1) := by
  unfold saturatingAdd
  omega

theorem wrappingSub_of_le {a b : Nat} (h : b ≤ a) (ha : a < u64Size) : wrappingSub a b = a - b := by
  unfold wrappingSub u64Size at *
  omega

theorem asU64_lt (v : Int) : asU64 v < u64Size := by
  have hpos : (0 : Int) < (u64Size : Int) := by decide
  have h0 := Int.emod_nonneg v (Int.ne_of_gt hpos)
  have h1 := Int.emod_lt_of_pos v hpos
  unfold asU64
  omega

theorem inI64_asI64 (n : Nat) :
    -9223372036854775808 ≤ asI64 n ∧ asI64 n ≤ 9223372036854775807 := by
  have hlt : n % u64Size < u64Size := Nat.mod_lt n (by decide)
  unfold asI64
  unfold u64Size at hlt ⊢
  dsimp only
  split_ifs <;> omega

theorem asI64_of_le {n : Nat} (h : n ≤ 9223372036854775807) : asI64 n = n := by
  unfold asI64
  have hmod : n % u64Size = n := Nat.mod_eq_of_lt (by unfold u64Size; omega)
  rw [hmod]
  dsimp only
  rw [if_pos (by omega)]

/-- A count survives the cast exactly when it is a non-negative `i64`. -/
theorem asI64_toNat_iff (n : Nat) : (asI64 n).toNat = n ↔ n ≤ 9223372036854775807 := by
  constructor
  · intro h
    have := (inI64_asI64 n).2
    omega
  · intro h
    rw [asI64_of_le h]
    omega

/-- The cast of a non-negative value keeps the value. -/
theorem asU64_of_nonneg {v : Int} (h0 : 0 ≤ v) (h : v < (u64Size : Int)) :
    asU64 v = v.toNat := by
  rw [asU64, Int.emod_eq_of_lt h0 h]

/-! ### Narrower signed types -/

/-- A cast to `i8`. -/
def asI8 (v : Int) : Int := v.bmod 256

/-- A cast to `i16`. -/
def asI16 (v : Int) : Int := v.bmod 65536

/-- A cast to `i32`, and the wrapping arithmetic of `i32`. -/
def asI32 (v : Int) : Int := v.bmod 4294967296

/-- The bit pattern of an `i16`. -/
def asU16 (v : Int) : Nat := (v % 65536).toNat

/-- The bit pattern of an `i32`. -/
def asU32 (v : Int) : Nat := (v % 4294967296).toNat

theorem asI16_of_range {v : Int} (h : -32768 ≤ v ∧ v < 32768) : asI16 v = v := by
  unfold asI16
  rw [Int.bmod_def]
  split_ifs <;> omega

theorem asI32_of_range {v : Int} (h : -2147483648 ≤ v ∧ v < 2147483648) : asI32 v = v := by
  unfold asI32
  rw [Int.bmod_def]
  split_ifs <;> omega

theorem asI32_range (v : Int) : -2147483648 ≤ asI32 v ∧ asI32 v < 2147483648 := by
  unfold asI32
  rw [Int.bmod_def]
  split_ifs <;> omega

end RustFits.Machine
