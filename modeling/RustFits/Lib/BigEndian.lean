import Mathlib.Tactic.Ring

/-!
# Big-endian integers

The big-endian bytes of a number and back.  A number wider than its field loses
its upper part, as in a cast between integer types, so the round trip
`fromBe_beBytes` is a remainder.  `toNeBytes` is the byte order of the machine.
-/

namespace RustFits.BigEndian

/-- The `w` big-endian bytes of `n`. -/
def beBytes : Nat → Nat → List UInt8
  | 0, _ => []
  | w + 1, n => UInt8.ofNat (n / 256 ^ w) :: beBytes w n

/-- The number that big-endian bytes stand for. -/
def fromBe (bytes : List UInt8) : Nat := bytes.foldl (fun acc b => acc * 256 + b.toNat) 0

/-- A number of `bits` bits in two's complement. -/
def toSigned (bits n : Nat) : Int :=
  if n < 2 ^ (bits - 1) then (n : Int) else (n : Int) - (2 ^ bits : Nat)

@[simp] theorem beBytes_length (w n : Nat) : (beBytes w n).length = w := by
  induction w with
  | zero => rfl
  | succ w ih => rw [beBytes, List.length_cons, ih]

theorem foldl_beBytes (w n acc : Nat) :
    (beBytes w n).foldl (fun acc b => acc * 256 + b.toNat) acc = acc * 256 ^ w + n % 256 ^ w := by
  induction w generalizing acc with
  | zero => simp [beBytes, Nat.mod_one]
  | succ w ih =>
    have hbyte : (UInt8.ofNat (n / 256 ^ w)).toNat = n / 256 ^ w % 256 := by simp
    have hmod : n % 256 ^ (w + 1) = n % 256 ^ w + 256 ^ w * (n / 256 ^ w % 256) := by
      rw [Nat.pow_succ, Nat.mod_mul]
    rw [beBytes, List.foldl_cons, ih, hbyte, hmod]
    ring

/-- Writing a number and reading it back. -/
theorem fromBe_beBytes (w n : Nat) : fromBe (beBytes w n) = n % 256 ^ w := by
  rw [fromBe, foldl_beBytes]
  omega

example : fromBe (beBytes 2 65795) = 259 := by decide +kernel

theorem foldl_lt (bytes : List UInt8) (acc : Nat) :
    bytes.foldl (fun acc b => acc * 256 + b.toNat) acc < (acc + 1) * 256 ^ bytes.length := by
  induction bytes generalizing acc with
  | nil => simp
  | cons b bytes ih =>
    have hb := b.toNat_lt
    rw [List.foldl_cons, List.length_cons, Nat.pow_succ']
    calc _ < (acc * 256 + b.toNat + 1) * 256 ^ bytes.length := ih _
      _ ≤ ((acc + 1) * 256) * 256 ^ bytes.length := Nat.mul_le_mul_right _ (by omega)
      _ = (acc + 1) * (256 * 256 ^ bytes.length) := by ring

/-- The number of `w` bytes at most. -/
theorem fromBe_lt {bytes : List UInt8} {w : Nat} (h : bytes.length ≤ w) :
    fromBe bytes < 256 ^ w := by
  have hlt := foldl_lt bytes 0
  rw [Nat.zero_add, Nat.one_mul] at hlt
  exact Nat.lt_of_lt_of_le hlt (Nat.pow_le_pow_right (by decide) h)

theorem fromBe_cons (b : UInt8) (bytes : List UInt8) :
    fromBe (b :: bytes) = b.toNat * 256 ^ bytes.length + fromBe bytes := by
  have hfold (acc : Nat) : bytes.foldl (fun acc b => acc * 256 + b.toNat) acc =
      acc * 256 ^ bytes.length + fromBe bytes := by
    unfold fromBe
    induction bytes generalizing acc with
    | nil => simp
    | cons c bytes ih =>
      rw [List.foldl_cons, List.foldl_cons, ih, ih (0 * 256 + c.toNat), List.length_cons,
        Nat.pow_succ]
      ring
  rw [fromBe, List.foldl_cons, hfold, Nat.zero_mul, Nat.zero_add]

/-- Only the low part of a number is written. -/
theorem beBytes_mod (w n : Nat) : beBytes w (n % 256 ^ w) = beBytes w n := by
  induction w generalizing n with
  | zero => rfl
  | succ w ih =>
    have hdiv : n % 256 ^ (w + 1) / 256 ^ w = n / 256 ^ w % 256 := by
      rw [Nat.pow_succ, Nat.mod_mul_right_div_self]
    have hmod : n % 256 ^ (w + 1) % 256 ^ w = n % 256 ^ w :=
      Nat.mod_mod_of_dvd _ ⟨256, Nat.pow_succ ..⟩
    rw [beBytes, beBytes, hdiv, ← ih (n % 256 ^ (w + 1)), hmod, ih]
    congr 1
    apply UInt8.toNat_inj.1
    simp

/-- Reading bytes and writing them back. -/
theorem beBytes_fromBe (bytes : List UInt8) : beBytes bytes.length (fromBe bytes) = bytes := by
  induction bytes with
  | nil => rfl
  | cons b bytes ih =>
    have hlt : fromBe bytes < 256 ^ bytes.length := fromBe_lt (Nat.le_refl _)
    have hdiv : (b.toNat * 256 ^ bytes.length + fromBe bytes) / 256 ^ bytes.length = b.toNat := by
      rw [Nat.mul_comm, Nat.mul_add_div (Nat.pow_pos (by decide)),
        Nat.div_eq_of_lt hlt, Nat.add_zero]
    have hmod : (b.toNat * 256 ^ bytes.length + fromBe bytes) % 256 ^ bytes.length =
        fromBe bytes := by
      rw [Nat.mul_comm, Nat.mul_add_mod, Nat.mod_eq_of_lt hlt]
    rw [List.length_cons, fromBe_cons, beBytes, hdiv, ← beBytes_mod, hmod, ih]
    congr 1
    apply UInt8.toNat_inj.1
    simp

/-- The bytes of an integer in the byte order of the machine. -/
def toNeBytes (littleEndian : Bool) (width : Nat) (v : Int) : List UInt8 :=
  let be := beBytes width (v % ((256 : Int) ^ width)).toNat
  if littleEndian then be.reverse else be

theorem toNeBytes_length (littleEndian : Bool) (width : Nat) (v : Int) :
    (toNeBytes littleEndian width v).length = width := by
  unfold toNeBytes
  cases littleEndian <;> simp

/-- The bytes depend on the value up to the width. -/
theorem toNeBytes_congr (littleEndian : Bool) {width : Nat} {v v' : Int}
    (h : v % (256 : Int) ^ width = v' % (256 : Int) ^ width) :
    toNeBytes littleEndian width v = toNeBytes littleEndian width v' := by
  unfold toNeBytes
  rw [h]

/-- The bytes tell the value up to the width. -/
theorem toNeBytes_inj {littleEndian : Bool} {width : Nat} {v v' : Int}
    (h : toNeBytes littleEndian width v = toNeBytes littleEndian width v') :
    v % (256 : Int) ^ width = v' % (256 : Int) ^ width := by
  have hpow : (0 : Int) < (256 : Int) ^ width := Int.pow_pos (by decide)
  have hlt : ∀ u : Int, (u % (256 : Int) ^ width).toNat < 256 ^ width := by
    intro u
    have hcast : ((256 ^ width : Nat) : Int) = (256 : Int) ^ width := by push_cast; rfl
    have := Int.emod_lt_of_pos u hpow
    have := Int.emod_nonneg u (ne_of_gt hpow)
    omega
  have hbe : beBytes width (v % (256 : Int) ^ width).toNat =
      beBytes width (v' % (256 : Int) ^ width).toNat := by
    unfold toNeBytes at h
    cases littleEndian with
    | true => exact List.reverse_inj.1 h
    | false => exact h
  have hread := congrArg fromBe hbe
  rw [fromBe_beBytes, fromBe_beBytes, Nat.mod_eq_of_lt (hlt v), Nat.mod_eq_of_lt (hlt v')] at hread
  have := Int.emod_nonneg v (ne_of_gt hpow)
  have := Int.emod_nonneg v' (ne_of_gt hpow)
  omega

theorem flatMap_toNeBytes_inj {littleEndian : Bool} {width : Nat} (hpos : 0 < width) :
    ∀ {values values' : List Int},
      values.flatMap (toNeBytes littleEndian width) =
        values'.flatMap (toNeBytes littleEndian width) →
      values.map (· % (256 : Int) ^ width) = values'.map (· % (256 : Int) ^ width) := by
  have hcons : ∀ (v : Int) (l : List Int),
      (v :: l).flatMap (toNeBytes littleEndian width) ≠ [] := by
    intro v l h
    have hlen := congrArg List.length h
    rw [List.flatMap_cons, List.length_append, toNeBytes_length, List.length_nil] at hlen
    omega
  intro values
  induction values with
  | nil =>
    intro values' h
    cases values' with
    | nil => rfl
    | cons v' values' => exact absurd h.symm (hcons v' values')
  | cons v values ih =>
    intro values' h
    cases values' with
    | nil => exact absurd h (hcons v values)
    | cons v' values' =>
      rw [List.flatMap_cons, List.flatMap_cons] at h
      obtain ⟨hv, hrest⟩ := List.append_inj h (by rw [toNeBytes_length, toNeBytes_length])
      rw [List.map_cons, List.map_cons, toNeBytes_inj hv, ih hrest]

end RustFits.BigEndian
