import Mathlib.Data.Rat.Floor
import Mathlib.Algebra.Order.Round
import Mathlib.Tactic.Linarith
import Mathlib.Tactic.Ring

/-!
# Floating-point numbers with exact arithmetic

The operations follow IEEE 754 in what they do with infinities and NaN.  A finite
value is an exact rational: nothing is rounded, and zero has no sign.

* `ExactFloat` and its operations.  On numbers they are those of the rationals
  (`number_add`, `number_lt`, ...).
* `roundAway` rounds to the nearest integer, halves away from zero.  `le_roundAway_iff`
  and `roundAway_le_iff` say which numbers it takes to which side of an integer.
* `clampInt` is what a saturating cast does to an integer.
-/

namespace RustFits

/-- A floating-point number. -/
inductive ExactFloat where
  | number (q : Rat)
  | infinite (negative : Bool)
  | nan
  deriving DecidableEq, Repr

/-! ## Rounding -/

/-- The nearest integer, halves away from zero. -/
def roundAway (x : Rat) : Int := if 0 ≤ x then ⌊x + 1 / 2⌋ else ⌈x - 1 / 2⌉

/-- The integer part. -/
def truncate (x : Rat) : Int := if 0 ≤ x then ⌊x⌋ else ⌈x⌉

/-- An integer brought into a range. -/
def clampInt (lo hi v : Int) : Int := max lo (min hi v)

theorem abs_roundAway_sub (x : Rat) : |(roundAway x : Rat) - x| ≤ 1 / 2 := by
  rw [roundAway, abs_le]
  split
  · have hle := Int.floor_le (x + 1 / 2)
    have hlt := Int.lt_floor_add_one (x + 1 / 2)
    constructor <;> linarith
  · have hle := Int.le_ceil (x - 1 / 2)
    have hlt := Int.ceil_lt_add_one (x - 1 / 2)
    constructor <;> linarith

/-- Below zero the half before an integer goes to the integer before that one. -/
theorem le_roundAway_iff {x : Rat} {n : Int} (hn : n ≤ 0) :
    n ≤ roundAway x ↔ (n : Rat) - 1 / 2 < x := by
  have hcast : (n : Rat) ≤ 0 := by exact_mod_cast hn
  rw [roundAway]
  split
  next hx =>
    refine ⟨fun _ => by linarith, fun _ => ?_⟩
    have : (0 : Int) ≤ ⌊x + 1 / 2⌋ := Int.floor_nonneg.2 (by linarith)
    exact hn.trans this
  next hx =>
    rw [← Int.sub_one_lt_iff, Int.lt_ceil]
    push_cast
    constructor <;> intro h <;> linarith

/-- Above zero the half behind an integer goes to the integer behind that one. -/
theorem roundAway_le_iff {x : Rat} {n : Int} (hn : 0 ≤ n) :
    roundAway x ≤ n ↔ x < (n : Rat) + 1 / 2 := by
  have hcast : (0 : Rat) ≤ n := by exact_mod_cast hn
  rw [roundAway]
  split
  next hx =>
    rw [← Int.lt_add_one_iff, Int.floor_lt]
    push_cast
    constructor <;> intro h <;> linarith
  next hx =>
    refine ⟨fun _ => by linarith, fun _ => ?_⟩
    have : ⌈x - 1 / 2⌉ ≤ (0 : Int) := Int.ceil_le.2 (by push_cast; linarith)
    exact this.trans hn

/-- Above zero the half before an integer goes to the integer. -/
theorem lt_roundAway_iff {x : Rat} {n : Int} (hn : 0 ≤ n) :
    n < roundAway x ↔ (n : Rat) + 1 / 2 ≤ x := by
  rw [← not_le, roundAway_le_iff hn, not_lt]

theorem roundAway_eq {x : Rat} {n : Int} (hlo : (n : Rat) - 1 / 2 < x) (hhi : x < n + 1 / 2) :
    roundAway x = n := by
  have habs := abs_le.1 (abs_roundAway_sub x)
  have hlt : (roundAway x : Rat) < n + 1 := by linarith
  have hgt : (n : Rat) - 1 < roundAway x := by linarith
  have hlt : roundAway x < n + 1 := by exact_mod_cast hlt
  have hgt : n - 1 < roundAway x := by exact_mod_cast hgt
  omega

theorem roundAway_intCast (n : Int) : roundAway (n : Rat) = n :=
  roundAway_eq (by linarith) (by linarith)

theorem truncate_of_nonneg {x : Rat} (h : 0 ≤ x) : (truncate x : Rat) ≤ x ∧ x < truncate x + 1 := by
  rw [truncate, if_pos h]
  exact ⟨Int.floor_le x, Int.lt_floor_add_one x⟩

theorem truncate_of_neg {x : Rat} (h : x < 0) : x ≤ truncate x ∧ (truncate x : Rat) < x + 1 := by
  rw [truncate, if_neg (not_le.2 h)]
  exact ⟨Int.le_ceil x, Int.ceil_lt_add_one x⟩

theorem clampInt_of_mem {lo hi v : Int} (hlo : lo ≤ v) (hhi : v ≤ hi) : clampInt lo hi v = v := by
  rw [clampInt]
  omega

theorem clampInt_mem {lo hi : Int} (h : lo ≤ hi) (v : Int) :
    lo ≤ clampInt lo hi v ∧ clampInt lo hi v ≤ hi := by
  rw [clampInt]
  omega

namespace ExactFloat

/-! ## The operations -/

def neg : ExactFloat → ExactFloat
  | number q => number (-q)
  | infinite negative => infinite (!negative)
  | nan => nan

def add : ExactFloat → ExactFloat → ExactFloat
  | number a, number b => number (a + b)
  | infinite s, infinite t => if s = t then infinite s else nan
  | infinite s, number _ => infinite s
  | number _, infinite t => infinite t
  | nan, _ => nan
  | _, nan => nan

def mul : ExactFloat → ExactFloat → ExactFloat
  | number a, number b => number (a * b)
  | infinite s, infinite t => infinite (s != t)
  | infinite s, number b => if b = 0 then nan else infinite (s != decide (b < 0))
  | number a, infinite t => if a = 0 then nan else infinite (decide (a < 0) != t)
  | nan, _ => nan
  | _, nan => nan

def div : ExactFloat → ExactFloat → ExactFloat
  | number a, number b =>
    if b = 0 then if a = 0 then nan else infinite (decide (a < 0)) else number (a / b)
  | infinite _, infinite _ => nan
  | infinite s, number b => infinite (s != decide (b < 0))
  | number _, infinite _ => number 0
  | nan, _ => nan
  | _, nan => nan

def abs : ExactFloat → ExactFloat
  | number q => number |q|
  | infinite _ => infinite false
  | nan => nan

/-- `<`, which does not hold of a NaN. -/
def blt : ExactFloat → ExactFloat → Bool
  | number a, number b => decide (a < b)
  | infinite s, infinite t => s && !t
  | infinite s, number _ => s
  | number _, infinite t => !t
  | nan, _ => false
  | _, nan => false

instance : Neg ExactFloat := ⟨neg⟩
instance : Add ExactFloat := ⟨add⟩
instance : Sub ExactFloat := ⟨fun a b => add a (neg b)⟩
instance : Mul ExactFloat := ⟨mul⟩
instance : Div ExactFloat := ⟨div⟩
instance : LT ExactFloat := ⟨fun a b => blt a b = true⟩
instance : DecidableRel (α := ExactFloat) (· < ·) :=
  fun a b => inferInstanceAs (Decidable (blt a b = true))
instance (n : Nat) : OfNat ExactFloat n := ⟨number n⟩

/-- `==`, which does not hold of a NaN. -/
def Same (a b : ExactFloat) : Prop := a = b ∧ a ≠ nan

instance (a b : ExactFloat) : Decidable (Same a b) := inferInstanceAs (Decidable (a = b ∧ a ≠ nan))

/-- `<=`. -/
def AtMost (a b : ExactFloat) : Prop := a < b ∨ Same a b

instance (a b : ExactFloat) : Decidable (AtMost a b) :=
  inferInstanceAs (Decidable (a < b ∨ Same a b))

def isFinite : ExactFloat → Bool
  | number _ => true
  | _ => false

/-- `round`. -/
def round : ExactFloat → ExactFloat
  | number q => number (roundAway q)
  | v => v

/-- A cast to an integer type, which saturates and takes a NaN to zero. -/
def toInt (lo hi : Int) : ExactFloat → Int
  | number q => clampInt lo hi (truncate q)
  | infinite negative => if negative then lo else hi
  | nan => 0

/-! ## Numbers -/

section

variable (a b : Rat)

@[simp] theorem number_add : number a + number b = number (a + b) := rfl

@[simp] theorem number_sub : number a - number b = number (a - b) := by
  rw [sub_eq_add_neg]
  rfl

@[simp] theorem number_mul : number a * number b = number (a * b) := rfl

@[simp] theorem neg_number : -number a = number (-a) := rfl

@[simp] theorem ofNat_eq (n : Nat) [n.AtLeastTwo] :
    (OfNat.ofNat n : ExactFloat) = number (OfNat.ofNat n) := rfl

@[simp] theorem zero_eq : (0 : ExactFloat) = number 0 := rfl

@[simp] theorem one_eq : (1 : ExactFloat) = number 1 := rfl

theorem number_div {b : Rat} (h : b ≠ 0) : number a / number b = number (a / b) :=
  if_neg h

@[simp] theorem number_lt : number a < number b ↔ a < b := decide_eq_true_iff

@[simp] theorem same_number : Same (number a) (number b) ↔ a = b := by
  simp [Same]

@[simp] theorem atMost_number : AtMost (number a) (number b) ↔ a ≤ b := by
  rw [AtMost, number_lt, same_number, le_iff_lt_or_eq]

@[simp] theorem toInt_number (lo hi : Int) : (number a).toInt lo hi = clampInt lo hi (truncate a) :=
  rfl

@[simp] theorem number_lt_infinity : number a < infinite false := rfl

@[simp] theorem infinity_lt_number : infinite true < number a := rfl

end

theorem exists_number {v : ExactFloat} (h : v.isFinite = true) : ∃ q, v = number q := by
  cases v with
  | number q => exact ⟨q, rfl⟩
  | infinite _ => cases h
  | nan => cases h

end ExactFloat

end RustFits
