import RustFits.BinaryTable.Write
import RustFits.Lib.Fallible

/-!
# One cell, written and read

The transform of a write and the conversion of a read are written apart from each
other.  Here each transform is a function of the cell alone (`encoded`), which is what
both write paths compute, and each conversion gives the cell back (`reads_numbers`,
`reads_unsigned`, `reads_logicals`, `reads_bits`, `reads_text`).
-/

namespace RustFits.BinaryTable

open Ascii ByteFile Machine BigEndian

/-! ## What a transform computes -/

/-- The bits of a cell, the first one on top of its byte. -/
def packBits (src : Bytes) (n : Nat) : Bytes :=
  (List.range n).foldl (fun dst i =>
    if slice src i 1 = [0] then dst
    else writeAll dst (i / 8) (setBit i (slice dst (i / 8) 1)))
    (List.replicate (divCeil n 8) 0)

/-- The bytes of a cell in the file. -/
def encoded (t : WriteTransform) (src : Bytes) : Bytes :=
  match t with
  | .identity elemW numElems => if elemW = 1 then src
    else mapElements numElems elemW List.reverse src
  | .unsignedXor elemW numElems => mapElements numElems elemW (fun e => flipTop e.reverse) src
  | .boolToLogical numBytes => mapElements numBytes 1 boolByte src
  | .bytesCopy numBytes => slice src 0 numBytes
  | .unicodeToAscii numChars =>
    mapElements numChars 4 (fun code => [(fromBe code.reverse).toUInt8]) src
  | .bitsPackMsb numBits => packBits src numBits

/-- A transform for cells of `size` bytes that takes `width` bytes of a row. -/
def WriteTransform.Sized (t : WriteTransform) (size width : Nat) : Prop :=
  match t with
  | .identity elemW numElems => 0 < elemW ∧ numElems * elemW = width ∧ size = width
  | .unsignedXor elemW numElems => 0 < elemW ∧ numElems * elemW = width ∧ size = width
  | .boolToLogical numBytes => numBytes = width ∧ size = width
  | .bytesCopy numBytes => numBytes = width ∧ size = width
  | .unicodeToAscii numChars => numChars = width ∧ size = numChars * 4
  | .bitsPackMsb numBits => divCeil numBits 8 = width ∧ size = numBits

/-- Text has to be ASCII. -/
def WriteTransform.Accepts (t : WriteTransform) (src : Bytes) : Prop :=
  match t with
  | .unicodeToAscii numChars => ∀ i < numChars, fromBe (slice src (i * 4) 4).reverse ≤ 0x7F
  | _ => True

section

variable {src dst name : Bytes} {row n w i : Nat} {t : WriteTransform}

@[simp] theorem flipTop_length (bytes : Bytes) : (flipTop bytes).length = bytes.length := by
  cases bytes <;> rfl

@[simp] theorem boolByte_length (bytes : Bytes) : (boolByte bytes).length = bytes.length :=
  List.length_map _

/-- A loop whose steps cannot fail. -/
theorem foldlM_pure {α : Type} {step : Bytes → α → Except PyErr Bytes} {g : Bytes → α → Bytes}
    {l : List α} {size : Nat} (hstep : ∀ a ∈ l, ∀ buf : Bytes, buf.length = size →
      step buf a = .ok (g buf a) ∧ (g buf a).length = size) (hdst : dst.length = size) :
    l.foldlM step dst = .ok (l.foldl g dst) ∧ (l.foldl g dst).length = size := by
  induction l generalizing dst with
  | nil => exact ⟨rfl, hdst⟩
  | cons a l ih =>
    obtain ⟨hok, hlen⟩ := hstep a List.mem_cons_self dst hdst
    rw [List.foldlM_cons, List.foldl_cons, hok]
    exact ih (fun b hb => hstep b (List.mem_cons_of_mem _ hb)) hlen

theorem div_lt_divCeil (h : i < n) : i / 8 < divCeil n 8 := by
  unfold divCeil
  split_ifs <;> omega

theorem packBits_ok (hsrc : src.length = n) (hdst : dst.length = divCeil n 8) :
    applyTransformCell (.bitsPackMsb n) src dst name row = .ok (packBits src n) ∧
      (packBits src n).length = dst.length := by
  have hclear : splice dst 0 (List.replicate (divCeil n 8) 0) =
      .ok (List.replicate (divCeil n 8) 0) := by
    rw [splice_ok (by simp [hdst]), writeAll_whole (by simp [hdst])]
  unfold applyTransformCell packBits
  simp only [hclear, Bind.bind, Except.bind]
  rw [hdst]
  apply foldlM_pure _ List.length_replicate
  intro i hi buf hbuf
  have hbit := List.mem_range.1 hi
  have hbyte := div_lt_divCeil hbit
  rw [sliceOf_ok (show i + 1 ≤ src.length by omega)]
  dsimp only
  split_ifs with hflag
  · exact ⟨rfl, hbuf⟩
  · have hlen : (setBit i (slice buf (i / 8) 1)).length = 1 := by
      rw [setBit, List.length_map, slice_length]
      omega
    rw [sliceOf_ok (show i / 8 + 1 ≤ buf.length by omega)]
    dsimp only
    rw [splice_ok (by omega), writeAll_length_of_le (by omega)]
    exact ⟨rfl, hbuf⟩

/-- The transform of one cell, in the path that goes through the columns one by one. -/
theorem applyTransformCell_ok (hsize : t.Sized src.length dst.length) (haccept : t.Accepts src) :
    applyTransformCell t src dst name row = .ok (encoded t src) ∧
      (encoded t src).length = dst.length := by
  cases t with
  | identity elemW numElems =>
    obtain ⟨hpos, hwidth, hsrc⟩ := hsize
    have hrev : ∀ e : Bytes, e.length = elemW → e.reverse.length = elemW := fun e he => by
      simpa using he
    unfold applyTransformCell encoded
    dsimp only
    split_ifs with hone
    · exact ⟨copyFromSlice_ok hsrc, hsrc⟩
    · exact ⟨eachElement_fill (by omega) hwidth.symm hrev,
        (mapElements_length (by omega) hrev).trans hwidth⟩
  | unsignedXor elemW numElems =>
    obtain ⟨hpos, hwidth, hsrc⟩ := hsize
    have hflip : ∀ e : Bytes, e.length = elemW → (flipTop e.reverse).length = elemW :=
      fun e he => by simpa using he
    exact ⟨eachElement_fill (by omega) hwidth.symm hflip,
      (mapElements_length (by omega) hflip).trans hwidth⟩
  | boolToLogical numBytes =>
    obtain ⟨hwidth, hsrc⟩ := hsize
    have hbool : ∀ e : Bytes, e.length = 1 → (boolByte e).length = 1 := fun e he => by
      simpa using he
    exact ⟨eachElement_fill (by omega) (by omega) hbool,
      (mapElements_length (by omega) hbool).trans (by omega)⟩
  | bytesCopy numBytes =>
    obtain ⟨hwidth, hsrc⟩ := hsize
    have hlen : (slice src 0 numBytes).length = dst.length := by
      rw [slice_length]
      omega
    refine ⟨?_, hlen⟩
    unfold applyTransformCell encoded
    dsimp only
    rw [sliceOf_ok (show 0 + numBytes ≤ src.length by omega)]
    exact (splice_ok (by omega)).trans (by rw [writeAll_whole hlen])
  | unicodeToAscii numChars =>
    obtain ⟨hwidth, hsrc⟩ := hsize
    have hchar : ∀ e : Bytes, e.length = 4 → [(fromBe e.reverse).toUInt8].length = 1 :=
      fun _ _ => rfl
    have hlen : (encoded (.unicodeToAscii numChars) src).length = dst.length :=
      (mapElements_length hsrc.ge hchar).trans (by omega)
    refine ⟨?_, hlen⟩
    have hloop : applyTransformCell (.unicodeToAscii numChars) src dst name row =
        .ok (writeAll dst 0 (encoded (.unicodeToAscii numChars) src)) := by
      apply foldlM_elements (v := 1) (fun _ _ => rfl) (by omega)
      intro k hk buf hbuf
      have hcode : narrowChar name row k (slice src (k * 4) 4) =
          .ok [(fromBe (slice src (k * 4) 4).reverse).toUInt8] :=
        if_neg (Nat.not_lt.2 (haccept k hk))
      rw [sliceOf_ok (by omega)]
      simp only [Bind.bind, Except.bind, hcode]
      rw [splice_ok (by rw [List.length_singleton]; omega), Nat.zero_add, Nat.mul_one]
    rw [hloop, writeAll_whole hlen]
  | bitsPackMsb numBits =>
    obtain ⟨hwidth, hsrc⟩ := hsize
    exact packBits_ok hsrc hwidth.symm

theorem encoded_length (hsize : t.Sized src.length w) (haccept : t.Accepts src) :
    (encoded t src).length = w := by
  have hlen : (List.replicate w (0 : UInt8)).length = w := List.length_replicate
  have h : applyTransformCell t src (List.replicate w 0) [] 0 = .ok (encoded t src) ∧ _ :=
    applyTransformCell_ok (by rwa [hlen]) haccept
  exact h.2.trans hlen

/-- A text cell that the transform takes is ASCII. -/
theorem accepts_of_ok {out : Bytes} (h : applyTransformCell t src dst name row = .ok out) :
    t.Accepts src := by
  cases t with
  | unicodeToAscii numChars =>
    intro i hi
    obtain ⟨buf, out', hstep⟩ := exists_step_of_foldlM h (List.mem_range.2 hi)
    unfold sliceOf at hstep
    split_ifs at hstep with hin
    · simp only [Bind.bind, Except.bind] at hstep
      unfold narrowChar at hstep
      dsimp only at hstep
      by_contra hlarge
      rw [if_pos (by omega)] at hstep
      cases hstep
    · cases hstep
  | _ => trivial

end

/-! ## What a read makes of it -/

/-- A numpy bool. -/
def IsBool (b : UInt8) : Prop := b = 0 ∨ b = 1

section

variable {src dst : Bytes} {row n w i : Nat} {field : Field}

/-- A number, byte by byte in the one order and in the other. -/
theorem reads_numbers (hone : 1 < w) (hsrc : src.length = n * w) (hdst : dst.length = src.length) :
    copyWithByteswap true (encoded (.identity w n) src) dst w = .ok src := by
  have hrev : ∀ e : Bytes, e.length = w → e.reverse.length = w := fun e he => by simpa using he
  have hlen := mapElements_length hsrc.ge hrev
  have hdiv : (mapElements n w List.reverse src).length / w = n := by
    rw [hlen, Nat.mul_div_cancel _ (by omega)]
  unfold copyWithByteswap encoded
  dsimp only
  rw [if_neg (by simp; omega), if_neg (by omega), hdiv,
    eachElement_fill (by omega) (by omega) hrev]
  exact congrArg _ (mapElements_inverse hsrc hrev fun k _ => List.reverse_reverse _)

theorem flip_toNat (b : UInt8) : (b ^^^ 0x80).toNat = (b.toNat + 128) % 256 := by
  revert b
  apply forall_byte
  decide +kernel

/-- Flipping the top bit adds half of the range. -/
theorem fromBe_flipTop {bytes : Bytes} (h : bytes ≠ []) :
    fromBe (flipTop bytes) % 256 ^ bytes.length =
      (fromBe bytes + 2 ^ (8 * bytes.length - 1)) % 256 ^ bytes.length := by
  cases bytes with
  | nil => exact absurd rfl h
  | cons b bytes =>
    have hhalf : 2 ^ (8 * (b :: bytes).length - 1) = 128 * 256 ^ bytes.length := by
      have hexp : 8 * (b :: bytes).length - 1 = 7 + 8 * bytes.length := by
        rw [List.length_cons]
        omega
      rw [hexp, Nat.pow_add, Nat.pow_mul]
    have hsum : (b.toNat + 128) % 256 * 256 ^ bytes.length % 256 ^ (bytes.length + 1) =
        (b.toNat + 128) * 256 ^ bytes.length % 256 ^ (bytes.length + 1) := by
      rw [Nat.pow_succ', Nat.mul_mod_mul_right, Nat.mul_mod_mul_right, Nat.mod_mod]
    rw [flipTop, fromBe_cons, fromBe_cons, flip_toNat, hhalf, List.length_cons, Nat.add_mod, hsum,
      ← Nat.add_mod]
    congr 1
    ring

/-- The bias of a read undoes the flip of a write. -/
theorem unsignedElement_flipTop {e : Bytes} (h : 0 < e.length) :
    unsignedElement true e.length (flipTop e.reverse) = e := by
  have hne : e.reverse ≠ [] := by
    rw [Ne, List.reverse_eq_nil_iff]
    exact List.ne_nil_of_length_pos h
  have hflip := fromBe_flipTop hne
  rw [List.length_reverse] at hflip
  have hpow : (256 : Nat) ^ e.length = 2 ^ (8 * e.length) := by
    rw [Nat.pow_mul]
  have hhalf : 2 ^ (8 * e.length) = 2 * 2 ^ (8 * e.length - 1) := by
    rw [← Nat.pow_succ']
    congr 1
    omega
  have hlt : fromBe (flipTop e.reverse) < 256 ^ e.length := fromBe_lt (by simp)
  have hback : ((toSigned (8 * e.length) (fromBe (flipTop e.reverse)) + 2 ^ (8 * e.length - 1)) %
      (256 : Int) ^ e.length).toNat = fromBe e.reverse := by
    have hbe : fromBe e.reverse < 256 ^ e.length := fromBe_lt (by simp)
    have hcast : ((256 : Int) ^ e.length) = ((256 ^ e.length : Nat) : Int) := by push_cast; rfl
    have hcast2 : ((2 : Int) ^ (8 * e.length - 1)) = ((2 ^ (8 * e.length - 1) : Nat) : Int) := by
      push_cast
      rfl
    rw [Nat.mod_eq_of_lt hlt] at hflip
    rw [hcast, hcast2]
    unfold toSigned
    rw [← hpow]
    rw [hpow, hhalf] at hbe hflip hlt ⊢
    generalize 2 ^ (8 * e.length - 1) = half at *
    generalize fromBe (flipTop e.reverse) = flipped at *
    generalize fromBe e.reverse = plain at *
    have hvalue : (if flipped < half then (flipped : Int) else flipped - ((2 * half : Nat) : Int)) +
        (half : Int) = plain := by
      rcases Nat.lt_or_ge plain half with hlow | hhigh
      · rw [Nat.mod_eq_of_lt (by omega)] at hflip
        split_ifs <;> omega
      · rw [Nat.mod_eq_sub_mod (by omega), Nat.mod_eq_of_lt (by omega)] at hflip
        split_ifs <;> omega
    rw [hvalue, Int.emod_eq_of_lt (by omega) (by omega), Int.toNat_natCast]
  unfold unsignedElement toNeBytes
  rw [hback]
  have hbytes := beBytes_fromBe e.reverse
  rw [List.length_reverse] at hbytes
  simp [hbytes]

/-- The unsigned trick, written and read. -/
theorem reads_unsigned (hpos : 0 < w) (hsrc : src.length = n * w) (hdst : dst.length = src.length) :
    eachElement n w w (unsignedElement true w) (encoded (.unsignedXor w n) src) dst = .ok src := by
  have hflip : ∀ e : Bytes, e.length = w → (flipTop e.reverse).length = w := fun e he => by
    simpa using he
  have hback : ∀ e : Bytes, e.length = w → (unsignedElement true w e).length = w :=
    fun _ _ => toNeBytes_length _ _ _
  have hlen : (encoded (.unsignedXor w n) src).length = n * w := mapElements_length hsrc.ge hflip
  rw [eachElement_fill hlen.ge (hdst.trans hsrc) hback]
  refine congrArg _ (mapElements_inverse hsrc hflip fun k hk => ?_)
  have hk := slice_element_length hsrc.ge hk
  have helement := unsignedElement_flipTop (e := slice src (k * w) w) (by omega)
  rwa [hk] at helement

theorem mem_of_slice {b : UInt8} {off : Nat} (h : b ∈ slice src off n) : b ∈ src :=
  List.mem_of_mem_drop (List.mem_of_mem_take h)

/-- Bools, written as letters and read. -/
theorem reads_logicals (hbool : ∀ b ∈ src, IsBool b) (hsrc : src.length = n)
    (hdst : dst.length = src.length) :
    eachElement (encoded (.boolToLogical n) src).length 1 1 logicalByte
      (encoded (.boolToLogical n) src) dst = .ok src := by
  have hsize : src.length = n * 1 := by omega
  have hbyte : ∀ e : Bytes, e.length = 1 → (boolByte e).length = 1 := fun e he => by simpa using he
  have hback : ∀ e : Bytes, e.length = 1 → (logicalByte e).length = 1 := fun e he => by
    simpa [logicalByte] using he
  have hlen : (encoded (.boolToLogical n) src).length = n * 1 := mapElements_length hsize.ge hbyte
  have hn : (encoded (.boolToLogical n) src).length = n := by omega
  rw [hn, eachElement_fill hlen.ge (by omega) hback]
  refine congrArg _ (mapElements_inverse hsize hbyte fun k hk => ?_)
  unfold logicalByte boolByte
  rw [List.map_map]
  refine (List.map_congr_left fun b hb => ?_).trans (List.map_id _)
  rcases hbool b (mem_of_slice hb) with rfl | rfl <;> rfl

/-! ### Bits -/

theorem slice_one {k : Nat} (h : k < src.length) : slice src k 1 = [src[k]] := by
  rw [slice, List.drop_eq_getElem_cons h]
  rfl

/-- Bit `i` of packed bits. -/
def bitAt (packed : Bytes) (i : Nat) : UInt8 :=
  packed.getD (i / 8) 0 >>> (7 - i % 8).toUInt8 &&& 1

theorem oneBit_bit : ∀ s < 8, ∀ t < 8,
    (1 <<< Nat.toUInt8 s : UInt8) >>> Nat.toUInt8 t &&& 1 = if s = t then 1 else 0 := by
  decide

theorem or_and_one (x y : UInt8) : (x ||| y) &&& 1 = (x &&& 1) ||| (y &&& 1) := by
  refine UInt8.toBitVec_inj.1 (BitVec.eq_of_getLsbD_eq fun i _ => ?_)
  simp [Bool.and_or_distrib_right]

theorem and_one_or_one (x : UInt8) : (x &&& 1) ||| 1 = 1 := by
  refine UInt8.toBitVec_inj.1 (BitVec.eq_of_getLsbD_eq fun i _ => ?_)
  simp

theorem setBit_bit (b : UInt8) {s t : Nat} (hs : s < 8) (ht : t < 8) :
    (b ||| 1 <<< Nat.toUInt8 s) >>> Nat.toUInt8 t &&& 1 =
      if s = t then 1 else b >>> Nat.toUInt8 t &&& 1 := by
  rw [UInt8.shiftRight_or, or_and_one, oneBit_bit s hs t ht]
  by_cases h : s = t
  · rw [if_pos h, if_pos h, and_one_or_one]
  · rw [if_neg h, if_neg h, UInt8.or_zero]

/-- Setting a bit leaves the others. -/
theorem bitAt_setBit {packed : Bytes} {m : Nat} (h : m / 8 < packed.length) :
    bitAt (writeAll packed (m / 8) (setBit m (slice packed (m / 8) 1))) i =
      if i = m then 1 else bitAt packed i := by
  rw [slice_one h]
  simp only [setBit, List.map_cons, List.map_nil]
  unfold bitAt
  rw [List.getD_eq_getElem?_getD, List.getD_eq_getElem?_getD, writeAll_getElem? (Nat.le_of_lt h),
    List.length_singleton]
  by_cases hsame : i / 8 = m / 8
  · rw [if_pos (by omega), hsame, Nat.sub_self, List.getElem?_eq_getElem h]
    have hbits := setBit_bit packed[m / 8] (s := 7 - m % 8) (t := 7 - i % 8) (by omega) (by omega)
    simp only [List.getElem?_cons_zero, Option.getD_some] at hbits ⊢
    rw [hbits]
    by_cases hi : i = m
    · rw [if_pos (by rw [hi]), if_pos hi]
    · rw [if_neg (by omega), if_neg hi]
  · rw [if_neg (by omega), if_neg (fun hi => hsame (by rw [hi]))]

/-- The packed bits, one by one. -/
theorem packBits_bit (m : Nat) (hm : m ≤ n) :
    ((List.range m).foldl (fun dst i =>
      if slice src i 1 = [0] then dst
      else writeAll dst (i / 8) (setBit i (slice dst (i / 8) 1)))
      (List.replicate (divCeil n 8) 0)).length = divCeil n 8 ∧
    bitAt ((List.range m).foldl (fun dst i =>
      if slice src i 1 = [0] then dst
      else writeAll dst (i / 8) (setBit i (slice dst (i / 8) 1)))
      (List.replicate (divCeil n 8) 0)) i = if i < m ∧ slice src i 1 ≠ [0] then 1 else 0 := by
  induction m with
  | zero =>
    refine ⟨List.length_replicate, ?_⟩
    rw [if_neg (by omega)]
    unfold bitAt
    simp only [List.range_zero, List.foldl_nil, List.getD_eq_getElem?_getD, List.getElem?_replicate]
    split_ifs <;> simp
  | succ m ih =>
    obtain ⟨hlen, hbit⟩ := ih (by omega)
    rw [List.range_succ, List.foldl_append, List.foldl_cons, List.foldl_nil]
    have hbyte := div_lt_divCeil (i := m) (n := n) (by omega)
    split_ifs with hzero hi hi
    · refine ⟨hlen, ?_⟩
      have hne : i ≠ m := fun h => hi.2 (h ▸ hzero)
      rw [hbit, if_pos ⟨by omega, hi.2⟩]
    · refine ⟨hlen, ?_⟩
      rw [hbit, if_neg fun h => hi ⟨by omega, h.2⟩]
    · refine ⟨?_, ?_⟩
      · rw [writeAll_length_of_le (by rw [setBit, List.length_map, slice_length]; omega), hlen]
      · rw [bitAt_setBit (by omega), hbit]
        split_ifs with h1 h2
        · rfl
        · rfl
        · exact absurd ⟨by omega, hi.2⟩ h2
    · refine ⟨?_, ?_⟩
      · rw [writeAll_length_of_le (by rw [setBit, List.length_map, slice_length]; omega), hlen]
      · rw [bitAt_setBit (by omega), hbit]
        have hne : i ≠ m := fun h => hi ⟨by omega, h ▸ hzero⟩
        rw [if_neg hne, if_neg fun h => hi ⟨by omega, h.2⟩]

/-- Bools, written as bits and read. -/
theorem reads_bits (hbool : ∀ b ∈ src, IsBool b) (hrepeat : field.repeatCount = src.length)
    (hdst : dst.length = src.length) :
    convertXCell field (encoded (.bitsPackMsb src.length) src) dst = .ok src := by
  have hbit (k : Nat) (hk : k < src.length) :
      cellBit (encoded (.bitsPackMsb src.length) src) k = .ok (slice src k 1) := by
    obtain ⟨hlen, hbit⟩ := @packBits_bit src src.length k src.length (Nat.le_refl _)
    have hbyte : k / 8 < (packBits src src.length).length := by
      rw [packBits, hlen]
      exact div_lt_divCeil hk
    have hget : (packBits src src.length)[k / 8] >>> (7 - k % 8).toUInt8 &&& 1 = src[k] := by
      have hval : bitAt (packBits src src.length) k =
          (packBits src src.length)[k / 8] >>> (7 - k % 8).toUInt8 &&& 1 := by
        rw [bitAt, List.getD_eq_getElem?_getD, List.getElem?_eq_getElem hbyte, Option.getD_some]
      rw [← hval, packBits, hbit, slice_one hk]
      rcases hbool src[k] (List.getElem_mem hk) with h | h <;> rw [h] <;> simp [hk]
    unfold cellBit encoded
    simp only [List.getElem?_eq_getElem hbyte, hget, slice_one hk]
  have hslices : (List.range src.length).flatMap (fun k => slice src (k * 1) 1) = src :=
    mapElements_id (by omega)
  have hloop : (List.range src.length).foldlM (fun dst i => do
      let bit ← cellBit (encoded (.bitsPackMsb src.length) src) i
      splice dst i bit) dst =
        .ok (writeAll dst 0 ((List.range src.length).flatMap fun k => slice src (k * 1) 1)) := by
    apply foldlM_elements (v := 1) (fun k hk => by rw [slice_length]; omega) (by omega)
    intro k hk buf hbuf
    have hlen : (slice src k 1).length = 1 := by
      rw [slice_length]
      omega
    rw [hbit k hk]
    simp only [Bind.bind, Except.bind]
    rw [splice_ok (by omega), Nat.mul_one, Nat.zero_add]
  unfold convertXCell
  rw [hrepeat, hdst, Nat.min_self, hloop, hslices, writeAll_whole hdst.symm]

/-! ### Text -/

/-- The text that a read finds in a string. -/
def ReadableText (src : Bytes) : Prop := ∀ b ∈ cellText src, b < 0x80

/-- The text of a string as UCS-4, in a field of `p` characters. -/
def wideString (p : Nat) (src : Bytes) : Bytes :=
  let codes := (cellText src).flatMap fun b => toNeBytes true 4 b.toNat
  codes ++ List.replicate (p * 4 - codes.length) 0

theorem convertString_ok_iff {codes : Bytes} :
    convertString true field row src = .ok codes ↔ ReadableText src ∧
      (cellText src).flatMap (fun b => toNeBytes true 4 b.toNat) = codes := by
  have hfind : ((cellText src).findIdx? fun b => decide (0x80 ≤ b)) = none ↔ ReadableText src := by
    rw [List.findIdx?_eq_none_iff]
    unfold ReadableText
    simp only [decide_eq_false_iff_not, UInt8.not_le]
  unfold convertString
  dsimp only
  split
  · rename_i i hi
    refine iff_of_false (fun h => by cases h) fun h => ?_
    rw [hfind.2 h.1] at hi
    cases hi
  · rename_i hnone
    exact ⟨fun h => ⟨hfind.1 hnone, Except.ok.inj h⟩, fun h => congrArg _ h.2⟩

theorem wideString_length {p : Nat} (h : src.length ≤ p) : (wideString p src).length = p * 4 := by
  have hcodes : ((cellText src).flatMap fun b => toNeBytes true 4 b.toNat).length =
      (cellText src).length * 4 :=
    flatMap_length_of_width fun _ _ => toNeBytes_length true 4 _
  have hle := cellText_length_le src
  rw [wideString, List.length_append, List.length_replicate, hcodes]
  omega

/-- A buffer of elements that are all known. -/
theorem eq_mapElements {out : Bytes} {v : Nat} {f : Bytes → Bytes} (hout : out.length = n * v)
    (h : ∀ k < n, slice out (k * v) v = f (slice src (k * w) w)) : out = mapElements n w f src := by
  rw [← mapElements_id hout]
  unfold mapElements
  rw [List.flatMap_def, List.flatMap_def]
  congr 1
  exact List.map_congr_left fun k hk => h k (List.mem_range.1 hk)

/-- The strings of a text cell, each read up to its first NUL and without the blanks at
its end. -/
theorem reads_text {p k : Nat} (hp : perStringBytes field = p) (hpos : 0 < p)
    (hrepeat : field.repeatCount = k * p) (hsrc : src.length = k * p)
    (hdst : dst.length = k * (p * 4)) (hascii : ∀ s < k, ReadableText (slice src (s * p) p)) :
    convertACell true field src dst row = .ok (mapElements k p (wideString p) src) := by
  have hcount : field.repeatCount / p = k := by rw [hrepeat, Nat.mul_div_cancel _ hpos]
  have hwide (s : Nat) (hs : s < k) : (slice src (s * p) p).length = p :=
    slice_element_length hsrc.ge hs
  have hstep : ∀ s ∈ List.range k, ∀ buf : Bytes,
      buf.length = (List.replicate dst.length (0 : UInt8)).length →
      slice buf (s * (p * 4)) (p * 4) = slice (List.replicate dst.length 0) (s * (p * 4)) (p * 4) →
      placeString true field row src buf s =
        .ok (writeAll buf (s * (p * 4)) (wideString p (slice src (s * p) p))) := by
    intro s hs buf hbuf hclear
    rw [List.mem_range] at hs
    rw [List.length_replicate] at hbuf
    have hin : (s + 1) * (p * 4) ≤ k * (p * 4) := Nat.mul_le_mul_right _ hs
    have hfit : (s + 1) * p ≤ k * p := Nat.mul_le_mul_right _ hs
    rw [Nat.succ_mul] at hin hfit
    have hcodes : convertString true field row (slice src (s * p) p) = _ :=
      convertString_ok_iff.2 ⟨hascii s hs, rfl⟩
    have hshort :
        ((cellText (slice src (s * p) p)).flatMap fun b => toNeBytes true 4 b.toNat).length ≤
        p * 4 := by
      rw [← wideString_length (hwide s hs).le, wideString, List.length_append]
      omega
    -- the field of the string is still zero
    have hzero : slice buf (s * (p * 4)) (p * 4) = List.replicate (p * 4) 0 := by
      rw [hclear, slice, List.drop_replicate, List.take_replicate]
      congr 1
      omega
    unfold placeString
    rw [hp]
    simp only [sliceOf_ok (show s * p + p ≤ src.length by omega),
      sliceOf_ok (show s * (p * 4) + p * 4 ≤ buf.length by omega), Bind.bind, Except.bind, hcodes,
      hzero]
    rw [splice_ok (by rw [List.length_replicate]; omega)]
    dsimp only
    have hstring : writeAll (List.replicate (p * 4) (0 : UInt8)) 0
        ((cellText (slice src (s * p) p)).flatMap fun b => toNeBytes true 4 b.toNat) =
          wideString p (slice src (s * p) p) := by
      rw [writeAll_front, List.drop_replicate]
      rfl
    rw [hstring, splice_ok (by rw [wideString_length (hwide s hs).le]; omega)]
  obtain ⟨out, hout, hlen, hslots, -⟩ := foldlM_slots (fun s => s * (p * 4)) (fun _ => p * 4)
    (fun s => wideString p (slice src (s * p) p)) (fun s hs => wideString_length
      (hwide s (List.mem_range.1 hs)).le) (by
      intro s hs
      have : (s + 1) * (p * 4) ≤ k * (p * 4) := Nat.mul_le_mul_right _ (List.mem_range.1 hs)
      rw [Nat.succ_mul] at this
      rw [List.length_replicate]
      omega) (by
      refine List.pairwise_lt_range.imp fun {s s'} hlt => .inl ?_
      have : (s + 1) * (p * 4) ≤ s' * (p * 4) := Nat.mul_le_mul_right _ hlt
      rw [Nat.succ_mul] at this
      exact this) hstep
  unfold convertACell
  rw [hp, if_neg (by omega), hcount, hout]
  exact congrArg _ (eq_mapElements (by rw [hlen, List.length_replicate, hdst]) fun s hs =>
    hslots s (List.mem_range.2 hs))

/-- A text cell that is read is ASCII. -/
theorem readable_of_reads {p k : Nat} {out : Bytes} (hp : perStringBytes field = p) (hpos : 0 < p)
    (hrepeat : field.repeatCount = k * p)
    (h : convertACell true field src dst row = .ok out) :
    ∀ s < k, ReadableText (slice src (s * p) p) := by
  have hcount : field.repeatCount / p = k := by rw [hrepeat, Nat.mul_div_cancel _ hpos]
  unfold convertACell at h
  rw [hp, if_neg (by omega), hcount] at h
  intro s hs
  obtain ⟨buf, out', hstep⟩ := exists_step_of_foldlM h (List.mem_range.2 hs)
  unfold placeString at hstep
  rw [hp] at hstep
  obtain ⟨srcStr, hsrcStr, hstep⟩ := bind_eq_ok.1 hstep
  obtain ⟨dstStr, -, hstep⟩ := bind_eq_ok.1 hstep
  obtain ⟨codes, hcodes, -⟩ := bind_eq_ok.1 hstep
  unfold sliceOf at hsrcStr
  split_ifs at hsrcStr with hin
  obtain rfl := Except.ok.inj hsrcStr
  exact (convertString_ok_iff.1 hcodes).1

end

end RustFits.BinaryTable
