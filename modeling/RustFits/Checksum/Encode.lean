import Mathlib.Tactic.Ring
import RustFits.Checksum.Sum

/-!
# The ASCII form of a checksum

`encode_checksum_ascii` writes a 32-bit value as sixteen letters and digits.
Every byte of the value is split over four characters of the string, and pairs
of characters are moved apart, by the same amount up and down, until none of
them is a punctuation mark.  The string is rotated by one place so that it fits
the column in which the card holds it.

* `encodeByte_spec` is the part for one byte: four letters or digits with a
  given sum.
* `weigh` sums bytes at their places in the 32-bit words, and
  `weigh_encodeChecksumAscii` says what the string is worth there: the value on
  top of what sixteen zeros are worth.
-/

namespace RustFits.Checksum

open Ascii ByteFile Machine BigEndian

/-! ## The code -/

/-- `EXCLUDE`: the punctuation between the digits and the letters. -/
def exclude : List Nat :=
  [0x3A, 0x3B, 0x3C, 0x3D, 0x3E, 0x3F, 0x40, 0x5B, 0x5C, 0x5D, 0x5E, 0x5F, 0x60]

/-- The four characters of a byte, as two pairs. -/
structure Quad where
  front : Nat × Nat
  back : Nat × Nat
  deriving DecidableEq, Repr

/-- Move a pair apart when one of its characters is `mark`.  The flag says
whether it was. -/
def adjustPair (mark : Nat) (pair : Nat × Nat) : (Nat × Nat) × Bool :=
  if pair.1 % 256 = mark ∨ pair.2 % 256 = mark then ((pair.1 + 1, pair.2 - 1), true)
  else (pair, false)

/-- One pass over the marks. -/
def adjustPass : List Nat → Quad → Quad × Bool
  | [], ch => (ch, false)
  | mark :: marks, ch =>
    let front := adjustPair mark ch.front
    let back := adjustPair mark ch.back
    let rest := adjustPass marks ⟨front.1, back.1⟩
    (rest.1, front.2 || back.2 || rest.2)

/-- Passes until one adjusts nothing, `n` of them at most. -/
def rebalance : Nat → Quad → Quad
  | 0, ch => ch
  | n + 1, ch =>
    let pass := adjustPass exclude ch
    if pass.2 then rebalance n pass.1 else pass.1

/-- The characters before the first pass: a quarter of the byte each, and the
remainder in the first one. -/
def splitByte (byte : Nat) : Quad :=
  let quotient := byte / 4 + 0x30
  ⟨(quotient + byte % 4, quotient), (quotient, quotient)⟩

/-- The characters of a byte.  Sixteen passes are more than it takes
(`encodeByte_settled`). -/
def encodeByte (byte : Nat) : Quad := rebalance 16 (splitByte byte)

def Quad.char (ch : Quad) : Nat → UInt8
  | 0 => UInt8.ofNat ch.front.1
  | 1 => UInt8.ofNat ch.front.2
  | 2 => UInt8.ofNat ch.back.1
  | _ => UInt8.ofNat ch.back.2

/-- The byte `i` of a 32-bit value, the most significant one first. -/
def valueByte (value i : Nat) : Nat := value / 256 ^ (3 - i) % 256

/-- The value that the string stands for. -/
def encodedValue (sum : Nat) (complement : Bool) : Nat := if complement then allOnes - sum else sum

/-- `encode_checksum_ascii`.  The character `j` of the byte `i` stands at
`4 * j + i`, and then everything moves one place to the right. -/
def encodeChecksumAscii (sum : Nat) (complement : Bool) : Str :=
  let asc := fun k => (encodeByte (valueByte (encodedValue sum complement) (k % 4))).char (k / 4)
  (List.range 16).map fun i => asc ((i + 15) % 16)

/-! ## One byte -/

def isAlphanumeric (b : UInt8) : Bool :=
  isDigit b || (0x41 ≤ b && b ≤ 0x5A) || (0x61 ≤ b && b ≤ 0x7A)

/-- The four characters of a byte are letters or digits, and they add up to the
byte on top of four zeros. -/
structure QuadOk (byte : Nat) (ch : Quad) : Prop where
  alphanumeric : ∀ j < 4, isAlphanumeric (ch.char j) = true
  sum : (ch.char 0).toNat + (ch.char 1).toNat + (ch.char 2).toNat + (ch.char 3).toNat = byte + 192

/-- The characters of a byte stay as they are in another pass, and they are good. -/
abbrev Settled (byte : Nat) : Prop :=
  (adjustPass exclude (encodeByte byte)).2 = false ∧
    (∀ j < 4, isAlphanumeric ((encodeByte byte).char j) = true) ∧
    ((encodeByte byte).char 0).toNat + ((encodeByte byte).char 1).toNat +
      ((encodeByte byte).char 2).toNat + ((encodeByte byte).char 3).toNat = byte + 192

/-- Every byte is computed, a quarter of them at a time. -/
theorem encodeByte_check (byte : Nat) (h : byte < 256) : Settled byte := by
  have hfirst : ∀ b < 64, Settled b := by decide +kernel
  have hsecond : ∀ b < 64, Settled (64 + b) := by decide +kernel
  have hthird : ∀ b < 64, Settled (128 + b) := by decide +kernel
  have hfourth : ∀ b < 64, Settled (192 + b) := by decide +kernel
  rcases Nat.lt_or_ge byte 64 with h64 | h64
  · exact hfirst byte h64
  rcases Nat.lt_or_ge byte 128 with h128 | h128
  · have hb := hsecond (byte - 64) (by omega)
    rwa [Nat.add_sub_cancel' h64] at hb
  rcases Nat.lt_or_ge byte 192 with h192 | h192
  · have hb := hthird (byte - 128) (by omega)
    rwa [Nat.add_sub_cancel' h128] at hb
  · have hb := hfourth (byte - 192) (by omega)
    rwa [Nat.add_sub_cancel' h192] at hb

theorem encodeByte_spec {byte : Nat} (h : byte < 256) : QuadOk byte (encodeByte byte) :=
  ⟨(encodeByte_check byte h).2.1, (encodeByte_check byte h).2.2⟩

theorem adjustPair_of_not {mark : Nat} {pair : Nat × Nat} (h : (adjustPair mark pair).2 = false) :
    (adjustPair mark pair).1 = pair := by
  unfold adjustPair at h ⊢
  split_ifs at h ⊢
  rfl

/-- A pass that adjusts nothing leaves the characters as they are. -/
theorem adjustPass_of_not {marks : List Nat} {ch : Quad} (h : (adjustPass marks ch).2 = false) :
    (adjustPass marks ch).1 = ch := by
  induction marks generalizing ch with
  | nil => rfl
  | cons mark marks ih =>
    simp only [adjustPass, Bool.or_eq_false_iff] at h
    obtain ⟨⟨hfront, hback⟩, hrest⟩ := h
    simp only [adjustPass]
    rw [adjustPair_of_not hfront, adjustPair_of_not hback] at hrest ⊢
    exact ih hrest

theorem rebalance_of_not {ch : Quad} (h : (adjustPass exclude ch).2 = false) (n : Nat) :
    rebalance n ch = ch := by
  cases n with
  | zero => rfl
  | succ n => rw [rebalance, h, if_neg (by simp), adjustPass_of_not h]

theorem rebalance_add (n k : Nat) (ch : Quad) :
    rebalance (n + k) ch = rebalance k (rebalance n ch) := by
  induction n generalizing ch with
  | zero => rw [Nat.zero_add, rebalance]
  | succ n ih =>
    rw [Nat.succ_add, rebalance, rebalance]
    split_ifs with h
    · exact ih _
    · have hnot := Bool.eq_false_iff.2 h
      rw [adjustPass_of_not hnot, rebalance_of_not hnot]

/-- The loop is over: any larger number of passes gives the same characters. -/
theorem encodeByte_settled {byte : Nat} (h : byte < 256) {n : Nat} (hn : 16 ≤ n) :
    rebalance n (splitByte byte) = encodeByte byte := by
  obtain ⟨k, rfl⟩ := Nat.exists_eq_add_of_le hn
  rw [rebalance_add]
  exact rebalance_of_not (encodeByte_check byte h).1 k

/-! ## The whole value -/

/-- The bytes at their places in the big-endian words, counted from the byte
`k` of the first word. -/
def weigh : Nat → Bytes → Nat
  | _, [] => 0
  | k, b :: rest => b.toNat * 256 ^ (3 - k % 4) + weigh (k + 1) rest

theorem weigh_add_four (k : Nat) (bytes : Bytes) : weigh (k + 4) bytes = weigh k bytes := by
  induction bytes generalizing k with
  | nil => rfl
  | cons b rest ih =>
    rw [weigh, weigh, Nat.add_right_comm, ih (k + 1), Nat.add_mod_right]

theorem weigh_append (k : Nat) (a b : Bytes) :
    weigh k (a ++ b) = weigh k a + weigh (k + a.length) b := by
  induction a generalizing k with
  | nil => simp [weigh]
  | cons x a ih =>
    rw [List.cons_append, weigh, weigh, ih, List.length_cons, Nat.add_assoc k, Nat.add_comm 1,
      Nat.add_assoc]

/-- The sum of the words is the sum of the bytes at their places. -/
theorem words_sum_eq_weigh (bytes : Bytes) : (words bytes).sum = weigh 0 bytes := by
  fun_induction words bytes with
  | case1 => rfl
  | case2 | case3 | case4 =>
    simp [weigh, fromBe]
    omega
  | case5 a b c d rest ih =>
    have hrest : weigh 4 rest = weigh 0 rest := weigh_add_four 0 rest
    simp only [List.sum_cons, ih, weigh, fromBe, List.foldl_cons, List.foldl_nil, Nat.zero_add,
      Nat.reduceAdd, Nat.reduceMod, Nat.reduceSub, Nat.reducePow, hrest]
    omega

theorem valueByte_lt (value i : Nat) : valueByte value i < 256 := Nat.mod_lt _ (by decide)

theorem valueBytes_sum {value : Nat} (h : value < u32Size) :
    valueByte value 0 * 16777216 + valueByte value 1 * 65536 + valueByte value 2 * 256 +
      valueByte value 3 = value := by
  simp only [u32Size] at h
  simp only [valueByte, Nat.reduceSub, Nat.reducePow]
  omega

/-- In the column of the card the string is worth the value on top of sixteen
zeros. -/
theorem weigh_encodeChecksumAscii {sum : Nat} (h : sum < u32Size) (complement : Bool) :
    weigh 3 (encodeChecksumAscii sum complement) =
      encodedValue sum complement + weigh 3 (str "0000000000000000") := by
  have hvalue : encodedValue sum complement < u32Size := by
    unfold encodedValue
    simp only [allOnes, u32Size] at h ⊢
    split_ifs <;> omega
  have hsum := valueBytes_sum hvalue
  have h0 := (encodeByte_spec (valueByte_lt (encodedValue sum complement) 0)).sum
  have h1 := (encodeByte_spec (valueByte_lt (encodedValue sum complement) 1)).sum
  have h2 := (encodeByte_spec (valueByte_lt (encodedValue sum complement) 2)).sum
  have h3 := (encodeByte_spec (valueByte_lt (encodedValue sum complement) 3)).sum
  have hzeros : weigh 3 (str "0000000000000000") = 192 * 16843009 := by decide
  have hstring : weigh 3 (encodeChecksumAscii sum complement) =
      (valueByte (encodedValue sum complement) 0 + 192) * 16777216 +
        (valueByte (encodedValue sum complement) 1 + 192) * 65536 +
        (valueByte (encodedValue sum complement) 2 + 192) * 256 +
        (valueByte (encodedValue sum complement) 3 + 192) := by
    rw [← h0, ← h1, ← h2, ← h3]
    have hrange : List.range 16 = [0, 1, 2, 3, 4, 5, 6, 7, 8, 9, 10, 11, 12, 13, 14, 15] := rfl
    simp only [encodeChecksumAscii, hrange, List.map_cons, List.map_nil, weigh,
      Nat.reduceAdd, Nat.reduceMod, Nat.reduceSub, Nat.reduceDiv, Nat.reducePow]
    ring
  omega

theorem encodeChecksumAscii_length (sum : Nat) (complement : Bool) :
    (encodeChecksumAscii sum complement).length = 16 := by
  rw [encodeChecksumAscii, List.length_map, List.length_range]

theorem alphanumeric_encodeChecksumAscii (sum : Nat) (complement : Bool) :
    ∀ b ∈ encodeChecksumAscii sum complement, isAlphanumeric b = true := by
  intro b hb
  obtain ⟨i, hi, rfl⟩ := List.mem_map.1 hb
  have hj : (i + 15) % 16 / 4 < 4 := by omega
  exact (encodeByte_spec (valueByte_lt _ _)).alphanumeric _ hj

end RustFits.Checksum
