import RustFits.Lib.BigEndian

/-!
# Bits, most significant first

A bit stream is a list of booleans.  `bitsOf` and `bitsVal` go between numbers and
bits, `ofBytes` is the stream that bytes stand for.

`aligned` is a register of some width that holds a short list of bits at its upper
end and zeros below, which is how bit readers and bit writers buffer: reading is a
shift (`aligned_take`, `aligned_drop`), writing is an `or` (`aligned_or`), and a
run of zeros is `leadingZeros`.
-/

namespace RustFits.BitStream

open BigEndian

/-- The lower `w` bits of `n`. -/
def bitsOf : Nat → Nat → List Bool
  | 0, _ => []
  | w + 1, n => decide (n / 2 ^ w % 2 = 1) :: bitsOf w n

/-- The number that bits stand for. -/
def bitsVal : List Bool → Nat
  | [] => 0
  | b :: l => (if b then 2 ^ l.length else 0) + bitsVal l

/-- The bits of bytes. -/
def ofBytes (bytes : List UInt8) : List Bool := bytes.flatMap fun b => bitsOf 8 b.toNat

@[simp] theorem bitsOf_length (w n : Nat) : (bitsOf w n).length = w := by
  induction w with
  | zero => rfl
  | succ w ih => rw [bitsOf, List.length_cons, ih]

theorem bitsVal_lt (l : List Bool) : bitsVal l < 2 ^ l.length := by
  induction l with
  | nil => exact Nat.one_pos
  | cons b l ih =>
    rw [bitsVal, List.length_cons, Nat.pow_succ]
    split <;> omega

theorem bitsVal_append (a b : List Bool) :
    bitsVal (a ++ b) = bitsVal a * 2 ^ b.length + bitsVal b := by
  induction a with
  | nil => rw [List.nil_append, bitsVal, Nat.zero_mul, Nat.zero_add]
  | cons x a ih =>
    rw [List.cons_append, bitsVal, bitsVal, ih, List.length_append, Nat.pow_add]
    split <;> ring

theorem bitsVal_bitsOf (w n : Nat) : bitsVal (bitsOf w n) = n % 2 ^ w := by
  induction w with
  | zero => rw [bitsOf, bitsVal, Nat.pow_zero, Nat.mod_one]
  | succ w ih =>
    have hmod : n % 2 ^ (w + 1) = n % 2 ^ w + 2 ^ w * (n / 2 ^ w % 2) := by
      rw [Nat.pow_succ, Nat.mod_mul]
    rw [bitsOf, bitsVal, ih, bitsOf_length, hmod]
    rcases Nat.mod_two_eq_zero_or_one (n / 2 ^ w) with hbit | hbit <;> simp [hbit]
    omega

example : bitsVal (bitsOf 4 27) = 11 := by decide +kernel

/-- Bits of one length are told apart by their value. -/
theorem bitsVal_inj : ∀ {a b : List Bool}, a.length = b.length → bitsVal a = bitsVal b → a = b := by
  intro a
  induction a with
  | nil =>
    intro b hlen _
    exact (List.eq_nil_of_length_eq_zero hlen.symm).symm
  | cons x a ih =>
    intro b hlen hval
    cases b with
    | nil => cases hlen
    | cons y b =>
      have hlen' : a.length = b.length := Nat.succ.inj hlen
      have ha := bitsVal_lt a
      have hb := bitsVal_lt b
      rw [bitsVal, bitsVal, hlen'] at hval
      rw [hlen'] at ha
      have hxy : x = y := by
        cases x <;> cases y <;> simp at hval ⊢ <;> omega
      rw [hxy, ih hlen' (by rw [hxy] at hval; omega)]

theorem bitsOf_bitsVal (l : List Bool) : bitsOf l.length (bitsVal l) = l := by
  refine bitsVal_inj (bitsOf_length _ _) ?_
  rw [bitsVal_bitsOf, Nat.mod_eq_of_lt (bitsVal_lt l)]

theorem bitsOf_add (a b n : Nat) : bitsOf (a + b) n = bitsOf a (n / 2 ^ b) ++ bitsOf b n := by
  refine bitsVal_inj (by simp) ?_
  rw [bitsVal_append, bitsVal_bitsOf, bitsVal_bitsOf, bitsVal_bitsOf, bitsOf_length, Nat.pow_add,
    Nat.mul_comm (2 ^ a), Nat.mod_mul]
  ring

theorem bitsOf_mod (w n : Nat) : bitsOf w (n % 2 ^ w) = bitsOf w n := by
  refine bitsVal_inj (by simp) ?_
  rw [bitsVal_bitsOf, bitsVal_bitsOf, Nat.mod_mod]

theorem bitsOf_zero (w : Nat) : bitsOf w 0 = List.replicate w false := by
  induction w with
  | zero => rfl
  | succ w ih =>
    rw [bitsOf, ih, Nat.zero_div, List.replicate_succ]
    rfl

theorem bitsVal_zeros (n : Nat) : bitsVal (List.replicate n false) = 0 := by
  rw [← bitsOf_zero, bitsVal_bitsOf, Nat.zero_mod]

/-! ### Bytes -/

theorem ofBytes_append (a b : List UInt8) : ofBytes (a ++ b) = ofBytes a ++ ofBytes b :=
  List.flatMap_append

@[simp] theorem ofBytes_length (bytes : List UInt8) :
    (ofBytes bytes).length = bytes.length * 8 := by
  induction bytes with
  | nil => rfl
  | cons b bytes ih =>
    rw [ofBytes, List.flatMap_cons, List.length_append, bitsOf_length,
      List.length_cons, Nat.succ_mul, ← ih, Nat.add_comm]
    rfl

/-- Whole bytes of bits are the bits of bytes. -/
theorem exists_ofBytes (n : Nat) :
    ∀ bits : List Bool, bits.length = n * 8 → ∃ bytes, ofBytes bytes = bits := by
  induction n with
  | zero =>
    intro bits hlen
    exact ⟨[], (List.length_eq_zero_iff.1 (by omega)).symm⟩
  | succ n ih =>
    intro bits hlen
    have hfirst : (bits.take 8).length = 8 := by
      rw [List.length_take]
      omega
    have hlt := bitsVal_lt (bits.take 8)
    rw [hfirst] at hlt
    have hbyte : (UInt8.ofNat (bitsVal (bits.take 8))).toNat = bitsVal (bits.take 8) := by
      rw [UInt8.toNat_ofNat', Nat.mod_eq_of_lt hlt]
    have hbits := bitsOf_bitsVal (bits.take 8)
    rw [hfirst] at hbits
    obtain ⟨bytes, hbytes⟩ := ih (bits.drop 8) (by rw [List.length_drop]; omega)
    refine ⟨UInt8.ofNat (bitsVal (bits.take 8)) :: bytes, ?_⟩
    rw [ofBytes, List.flatMap_cons, hbyte, hbits]
    show bits.take 8 ++ ofBytes bytes = bits
    rw [hbytes, List.take_append_drop]

/-- The bits of some bytes stand at the front: then so do the bytes. -/
theorem split_of_ofBytes :
    ∀ {front bytes : List UInt8} {rest : List Bool}, ofBytes bytes = ofBytes front ++ rest →
    ∃ back, bytes = front ++ back ∧ ofBytes back = rest := by
  intro front
  induction front with
  | nil => exact fun {bytes} _ h => ⟨bytes, rfl, h⟩
  | cons b front ih =>
    intro bytes rest h
    have hcons : ∀ (b : UInt8) bytes, ofBytes (b :: bytes) = bitsOf 8 b.toNat ++ ofBytes bytes :=
      fun b bytes => List.flatMap_cons ..
    cases bytes with
    | nil =>
      have hlen := congrArg List.length h
      rw [hcons] at hlen
      simp only [ofBytes, List.flatMap_nil, List.length_nil, List.length_append,
        bitsOf_length] at hlen
      omega
    | cons c bytes =>
      rw [hcons, hcons, List.append_assoc] at h
      obtain ⟨hfirst, hrest⟩ := List.append_inj h (by rw [bitsOf_length, bitsOf_length])
      have hval := congrArg bitsVal hfirst
      rw [bitsVal_bitsOf, bitsVal_bitsOf, Nat.mod_eq_of_lt c.toNat_lt,
        Nat.mod_eq_of_lt b.toNat_lt] at hval
      obtain ⟨back, hback, hbits⟩ := ih hrest
      exact ⟨back, by rw [hback, UInt8.toNat_inj.1 hval]; rfl, hbits⟩

theorem ofBytes_inj {a b : List UInt8} (h : ofBytes a = ofBytes b) : a = b := by
  have hrest : ofBytes a = ofBytes b ++ [] := by rw [List.append_nil, h]
  obtain ⟨back, hback, hnil⟩ := split_of_ofBytes hrest
  have hlen := congrArg List.length hnil
  rw [ofBytes_length] at hlen
  have hempty : back = [] := List.length_eq_zero_iff.1 (by simpa using hlen)
  rw [hback, hempty, List.append_nil]

/-- The big-endian number of bytes is the number of their bits. -/
theorem bitsVal_ofBytes (bytes : List UInt8) : bitsVal (ofBytes bytes) = fromBe bytes := by
  have hfold : ∀ (bytes : List UInt8) (acc : Nat),
      bytes.foldl (fun acc b => acc * 256 + b.toNat) acc =
        acc * 2 ^ (bytes.length * 8) + bitsVal (ofBytes bytes) := by
    intro bytes
    induction bytes with
    | nil =>
      intro acc
      simp [ofBytes, bitsVal]
    | cons b bytes ih =>
      intro acc
      have hb : b.toNat % 2 ^ 8 = b.toNat := Nat.mod_eq_of_lt b.toNat_lt
      have hcons : ofBytes (b :: bytes) = bitsOf 8 b.toNat ++ ofBytes bytes := List.flatMap_cons ..
      rw [List.foldl_cons, ih, hcons, bitsVal_append, bitsVal_bitsOf, hb, ofBytes_length,
        List.length_cons, Nat.succ_mul, Nat.pow_add]
      ring
  rw [fromBe, hfold, Nat.zero_mul, Nat.zero_add]

/-! ### Registers -/

/-- The bits at the upper end of a register. -/
def aligned (width : Nat) (bits : List Bool) : Nat := bitsVal bits * 2 ^ (width - bits.length)

/-- The number of leading zeros of a register. -/
def leadingZeros (width x : Nat) : Nat := width - if x = 0 then 0 else Nat.log2 x + 1

variable {w : Nat}

theorem aligned_lt {bits : List Bool} (h : bits.length ≤ w) : aligned w bits < 2 ^ w := by
  calc bitsVal bits * 2 ^ (w - bits.length)
      < 2 ^ bits.length * 2 ^ (w - bits.length) :=
        Nat.mul_lt_mul_of_pos_right (bitsVal_lt bits) (Nat.two_pow_pos _)
    _ = 2 ^ w := by rw [← Nat.pow_add, Nat.add_sub_of_le h]

theorem aligned_take {a b : List Bool} (h : (a ++ b).length ≤ w) :
    aligned w (a ++ b) / 2 ^ (w - a.length) = bitsVal a := by
  rw [List.length_append] at h
  have hb := bitsVal_lt b
  have hpow : 2 ^ (w - a.length) = 2 ^ b.length * 2 ^ (w - (a.length + b.length)) := by
    rw [← Nat.pow_add]
    congr 1
    omega
  rw [aligned, bitsVal_append, List.length_append, hpow,
    Nat.mul_div_mul_right _ _ (Nat.two_pow_pos _), Nat.add_comm, Nat.add_mul_div_right _ _
    (Nat.two_pow_pos _), Nat.div_eq_of_lt hb, Nat.zero_add]

theorem aligned_drop {a b : List Bool} (h : (a ++ b).length ≤ w) :
    aligned w (a ++ b) * 2 ^ a.length % 2 ^ w = aligned w b := by
  rw [List.length_append] at h
  have hb : aligned w b < 2 ^ w := aligned_lt (by omega)
  have hsplit : aligned w (a ++ b) * 2 ^ a.length = aligned w b + 2 ^ w * bitsVal a := by
    have h1 : 2 ^ (w - (a.length + b.length)) * 2 ^ a.length = 2 ^ (w - b.length) := by
      rw [← Nat.pow_add]
      congr 1
      omega
    have h2 : 2 ^ b.length * 2 ^ (w - b.length) = 2 ^ w := by
      rw [← Nat.pow_add]
      congr 1
      omega
    rw [aligned, aligned, bitsVal_append, List.length_append, Nat.mul_assoc, h1, ← h2]
    ring
  rw [hsplit, Nat.add_mul_mod_self_left, Nat.mod_eq_of_lt hb]

theorem aligned_append {a b : List Bool} (h : (a ++ b).length ≤ w) :
    aligned w (a ++ b) = aligned w a + bitsVal b * 2 ^ (w - a.length - b.length) := by
  rw [List.length_append] at h
  have hpow : 2 ^ (w - a.length) = 2 ^ b.length * 2 ^ (w - a.length - b.length) := by
    rw [← Nat.pow_add]
    congr 1
    omega
  rw [aligned, aligned, bitsVal_append, List.length_append, Nat.sub_add_eq, hpow]
  ring

/-- New bits go below the ones that are there. -/
theorem aligned_or {a b : List Bool} (h : (a ++ b).length ≤ w) :
    aligned w a ||| bitsVal b * 2 ^ (w - a.length - b.length) = aligned w (a ++ b) := by
  have hlow : bitsVal b * 2 ^ (w - a.length - b.length) < 2 ^ (w - a.length) := by
    rw [List.length_append] at h
    calc bitsVal b * 2 ^ (w - a.length - b.length)
        < 2 ^ b.length * 2 ^ (w - a.length - b.length) :=
          Nat.mul_lt_mul_of_pos_right (bitsVal_lt b) (Nat.two_pow_pos _)
      _ = 2 ^ (w - a.length) := by
          rw [← Nat.pow_add]
          congr 1
          omega
  rw [aligned_append h, aligned, Nat.mul_comm (bitsVal a), Nat.two_pow_add_eq_or_of_lt hlow]

theorem aligned_zeros (n : Nat) : aligned w (List.replicate n false) = 0 := by
  rw [aligned, bitsVal_zeros, Nat.zero_mul]

/-- Zeros below the bits change nothing. -/
theorem aligned_append_zeros {a : List Bool} {n : Nat} (h : a.length + n ≤ w) :
    aligned w (a ++ List.replicate n false) = aligned w a := by
  rw [aligned_append (by simpa using h), bitsVal_zeros, Nat.zero_mul, Nat.add_zero]

/-- The bits of a register. -/
theorem bitsOf_aligned {bits : List Bool} (h : bits.length ≤ w) :
    bitsOf w (aligned w bits) = bits ++ List.replicate (w - bits.length) false := by
  have hlen : (bits ++ List.replicate (w - bits.length) false).length = w := by
    simp
    omega
  refine bitsVal_inj (by rw [bitsOf_length, hlen]) ?_
  rw [bitsVal_bitsOf, Nat.mod_eq_of_lt (aligned_lt h), bitsVal_append, bitsVal_zeros, aligned,
    List.length_replicate, Nat.add_zero]

/-- A one behind `z` zeros. -/
theorem leadingZeros_aligned {z : Nat} {b : List Bool} (h : z + 1 + b.length ≤ w) :
    aligned w (List.replicate z false ++ true :: b) ≠ 0 ∧
      leadingZeros w (aligned w (List.replicate z false ++ true :: b)) = z := by
  have hb := bitsVal_lt b
  have hval : bitsVal (List.replicate z false ++ true :: b) = 2 ^ b.length + bitsVal b := by
    rw [bitsVal_append, bitsVal_zeros, Nat.zero_mul, Nat.zero_add, bitsVal, if_pos rfl]
  have hlen : (List.replicate z false ++ true :: b).length = z + 1 + b.length := by
    simp
    omega
  have hge : 2 ^ (w - 1 - z) ≤ aligned w (List.replicate z false ++ true :: b) := by
    calc 2 ^ (w - 1 - z) = 2 ^ b.length * 2 ^ (w - (z + 1 + b.length)) := by
          rw [← Nat.pow_add]
          congr 1
          omega
      _ ≤ aligned w (List.replicate z false ++ true :: b) := by
          rw [aligned, hval, hlen]
          exact Nat.mul_le_mul_right _ (Nat.le_add_right _ _)
  have hlt : aligned w (List.replicate z false ++ true :: b) < 2 ^ (w - 1 - z + 1) := by
    calc aligned w (List.replicate z false ++ true :: b)
        < 2 ^ (b.length + 1) * 2 ^ (w - (z + 1 + b.length)) := by
          rw [aligned, hval, hlen]
          refine Nat.mul_lt_mul_of_pos_right ?_ (Nat.two_pow_pos _)
          rw [Nat.pow_succ]
          omega
      _ = 2 ^ (w - 1 - z + 1) := by
          rw [← Nat.pow_add]
          congr 1
          omega
  have hpos : aligned w (List.replicate z false ++ true :: b) ≠ 0 := by
    have := Nat.two_pow_pos (w - 1 - z)
    omega
  refine ⟨hpos, ?_⟩
  have hlog : Nat.log2 (aligned w (List.replicate z false ++ true :: b)) = w - 1 - z :=
    (Nat.log2_eq_iff hpos).2 ⟨hge, hlt⟩
  rw [leadingZeros, if_neg hpos, hlog]
  omega

end RustFits.BitStream
