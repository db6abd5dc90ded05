import RustFits.Zimage.RiceRoundTrip
import Mathlib.Data.Int.ModEq

/-!
# The fast RICE decoder and the one that reads bit by bit

`decodeRiceSlowI64` with the constants of a narrow pixel reads the same streams as
`decodeRiceInt`.  Both readers stand in front of the same bits (`BitReader.Holds`,
`BitBuf.Holds`); what the slow one has read, a block at a time, is `slowBlocks`, and the
fast one reads the same splits and codes.

The pixels are another matter.  A code is the unary part times a power of two, and can
be wider than 32 bits: the fast decoder cuts it to 32 bits before it undoes the zigzag,
which loses bit 32.
-/

namespace RustFits.Zimage.Rice

open Ascii ByteFile Machine BigEndian BitStream

/-! ## The reader of the slow path -/

/-- The bits in front of the reader. -/
def BitReader.Holds (data : Bytes) (r : BitReader) (bits : List Bool) : Prop :=
  r.bitPos < 8 ∧ bits = (ofBytes (data.drop r.bytePos)).drop r.bitPos

theorem BitReader.Holds.start (data : Bytes) : BitReader.Holds data ⟨0, 0⟩ (ofBytes data) :=
  ⟨by decide, rfl⟩

/-- The bits that are left of the byte, and those of the bytes behind it. -/
theorem BitReader.Holds.byte {data : Bytes} {r : BitReader} {bits : List Bool}
    (h : r.Holds data bits) (hin : r.bytePos < data.length) :
    bits = bitsOf (8 - r.bitPos) (data.getD r.bytePos 0).toNat ++
      ofBytes (data.drop (r.bytePos + 1)) := by
  obtain ⟨hlt, hbits⟩ := h
  have hbyte : data.getD r.bytePos 0 = data[r.bytePos] := by simp [hin]
  have hsplit := bitsOf_add r.bitPos (8 - r.bitPos) (data.getD r.bytePos 0).toNat
  rw [Nat.add_sub_of_le hlt.le] at hsplit
  have hlen := bitsOf_length r.bitPos ((data.getD r.bytePos 0).toNat / 2 ^ (8 - r.bitPos))
  rw [hbits, List.drop_eq_getElem_cons hin, ofBytes, List.flatMap_cons, ← hbyte, hsplit,
    List.append_assoc]
  generalize bitsOf r.bitPos ((data.getD r.bytePos 0).toNat / 2 ^ (8 - r.bitPos)) = front at hlen
  rw [← hlen, List.drop_left]
  rfl

/-- A round of the loop: some bits of the byte. -/
theorem BitReader.Holds.take {data : Bytes} {r : BitReader} {bits : List Bool}
    (h : r.Holds data bits) (hin : r.bytePos < data.length) {k : Nat} (hk : k ≤ 8 - r.bitPos) :
    k ≤ bits.length ∧
      (data.getD r.bytePos 0).toNat / 2 ^ (8 - r.bitPos - k) % 2 ^ k = bitsVal (bits.take k) ∧
      BitReader.Holds data
        (if r.bitPos + k = 8 then ⟨r.bytePos + 1, 0⟩ else ⟨r.bytePos, r.bitPos + k⟩)
        (bits.drop k) := by
  have hbyte := h.byte hin
  obtain ⟨hlt, hbits⟩ := h
  have hlen : (bitsOf (8 - r.bitPos) (data.getD r.bytePos 0).toNat).length = 8 - r.bitPos :=
    bitsOf_length _ _
  have hfront : bitsOf (8 - r.bitPos) (data.getD r.bytePos 0).toNat =
      bitsOf k ((data.getD r.bytePos 0).toNat / 2 ^ (8 - r.bitPos - k)) ++
        bitsOf (8 - r.bitPos - k) (data.getD r.bytePos 0).toNat := by
    rw [← bitsOf_add, Nat.add_sub_of_le hk]
  refine ⟨?_, ?_, ?_⟩
  · rw [hbyte, List.length_append, hlen]
    omega
  · rw [hbyte, hfront, List.append_assoc, ← bitsVal_bitsOf]
    congr 1
    exact (List.take_left' (bitsOf_length _ _)).symm
  · by_cases hfull : r.bitPos + k = 8
    · rw [if_pos hfull]
      refine ⟨Nat.succ_pos 7, ?_⟩
      show bits.drop k = ofBytes (data.drop (r.bytePos + 1))
      rw [hbyte]
      exact List.drop_left' (by omega)
    · rw [if_neg hfull]
      refine ⟨by dsimp only; omega, ?_⟩
      show bits.drop k = (ofBytes (data.drop r.bytePos)).drop (r.bitPos + k)
      rw [hbits, List.drop_drop]

theorem bitsVal_take_add (bits : List Bool) {k n : Nat} (hkn : k ≤ n) (hn : n ≤ bits.length) :
    bitsVal (bits.take n) = bitsVal (bits.take k) * 2 ^ (n - k) + bitsVal
      ((bits.drop k).take (n - k)) := by
  have hlen : ((bits.drop k).take (n - k)).length = n - k := by
    rw [List.length_take, List.length_drop]
    omega
  have hsplit : bits.take n = bits.take k ++ (bits.drop k).take (n - k) := by
    rw [← List.take_add, Nat.add_sub_of_le hkn]
  rw [hsplit, bitsVal_append, hlen]

/-- The loop takes bits off the front, under those that it has. -/
theorem readBitsLoop_holds {data : Bytes} :
    ∀ (fuel remaining result : Nat) {r r' : BitReader} {bits : List Bool} {v : Nat},
      remaining ≤ fuel →
      remaining ≤ 64 → result < 2 ^ (64 - remaining) → r.Holds data bits →
      readBitsLoop data fuel remaining result r = .ok (v, r') →
      remaining ≤ bits.length ∧ v = result * 2 ^ remaining + bitsVal (bits.take remaining) ∧
        r'.Holds data (bits.drop remaining) := by
  intro fuel
  induction fuel with
  | zero =>
    intro remaining result r r' bits v hfuel _ _ h hread
    have hzero : remaining = 0 := Nat.le_zero.1 hfuel
    obtain ⟨hv, hr⟩ := Prod.mk.inj (Except.ok.inj hread)
    rw [hzero, ← hv, ← hr, Nat.pow_zero, Nat.mul_one, List.take_zero, List.drop_zero]
    exact ⟨Nat.zero_le _, rfl, h⟩
  | succ fuel ih =>
    intro remaining result r r' bits v hfuel hle hresult h hread
    rw [readBitsLoop] at hread
    by_cases hzero : remaining = 0
    · rw [if_pos hzero] at hread
      obtain ⟨hv, hr⟩ := Prod.mk.inj (Except.ok.inj hread)
      rw [hzero, ← hv, ← hr, Nat.pow_zero, Nat.mul_one, List.take_zero, List.drop_zero]
      exact ⟨Nat.zero_le _, rfl, h⟩
    rw [if_neg hzero] at hread
    by_cases hend : data.length ≤ r.bytePos
    · rw [if_pos hend] at hread
      cases hread
    rw [if_neg hend] at hread
    dsimp only at hread
    have hlt := h.1
    generalize htake : min remaining (8 - r.bitPos) = k at hread
    obtain ⟨hk, hval, hnext⟩ := h.take (Nat.not_le.1 hend) (k := k) (by omega)
    have hpow : 2 ^ (64 - remaining) * 2 ^ k = 2 ^ (64 - (remaining - k)) := by
      rw [← Nat.pow_add]
      congr 1
      omega
    have hshift : result * 2 ^ k < 2 ^ (64 - (remaining - k)) := by
      rw [← hpow]
      exact Nat.mul_lt_mul_of_pos_right hresult (Nat.two_pow_pos k)
    have hfit : result * 2 ^ k < 2 ^ 64 :=
      Nat.lt_of_lt_of_le hshift (Nat.pow_le_pow_right (by decide) (Nat.sub_le _ _))
    have hbits : bitsVal (bits.take k) < 2 ^ k := by
      have := bitsVal_lt (bits.take k)
      rwa [List.length_take, Nat.min_eq_left hk] at this
    have hor : result * 2 ^ k ||| bitsVal (bits.take k) =
        result * 2 ^ k + bitsVal (bits.take k) := by
      rw [Nat.mul_comm]
      exact (Nat.two_pow_add_eq_or_of_lt hbits result).symm
    rw [hval, Nat.mod_eq_of_lt hfit, hor] at hread
    have hnew : result * 2 ^ k + bitsVal (bits.take k) < 2 ^ (64 - (remaining - k)) := by
      calc result * 2 ^ k + bitsVal (bits.take k)
          < (result + 1) * 2 ^
            k := by rw [Nat.add_mul, Nat.one_mul]; exact Nat.add_lt_add_left hbits _
        _ ≤ 2 ^ (64 - remaining) * 2 ^ k := Nat.mul_le_mul_right _ hresult
        _ = 2 ^ (64 - (remaining - k)) := hpow
    obtain ⟨hlen, hv, hrest⟩ := ih (remaining - k) _ (by omega) (by omega) hnew hnext hread
    rw [List.length_drop] at hlen
    have hall : remaining ≤ bits.length := by omega
    refine ⟨hall, ?_, ?_⟩
    · have hpow' : 2 ^ remaining = 2 ^ k * 2 ^ (remaining - k) := by
        rw [← Nat.pow_add, Nat.add_sub_of_le (by omega)]
      rw [hv, bitsVal_take_add bits (k := k) (by omega) hall, hpow', Nat.add_mul, Nat.mul_assoc,
        Nat.add_assoc]
    · rw [List.drop_drop, Nat.add_sub_of_le (by omega)] at hrest
      exact hrest

/-- A field that is read stands in front. -/
theorem readBits_holds {data : Bytes} {n : Nat} {r r' : BitReader} {bits : List Bool} {v : Nat}
    (h : r.Holds data bits) (hread : readBits data n r = .ok (v, r')) :
    ∃ a rest, a.length = n ∧ bits = a ++ rest ∧ v = bitsVal a ∧ r'.Holds data rest := by
  unfold readBits at hread
  by_cases hzero : n = 0
  · rw [if_pos hzero] at hread
    obtain ⟨hv, hr⟩ := Prod.mk.inj (Except.ok.inj hread)
    rw [← hv, ← hr, hzero]
    exact ⟨[], bits, rfl, rfl, rfl, h⟩
  rw [if_neg hzero] at hread
  by_cases hmany : 64 < n
  · rw [if_pos hmany] at hread
    cases hread
  rw [if_neg hmany] at hread
  obtain ⟨hlen, hv, hrest⟩ := readBitsLoop_holds n n 0 (Nat.le_refl n) (Nat.not_lt.1 hmany)
    (Nat.two_pow_pos _) h hread
  rw [Nat.zero_mul, Nat.zero_add] at hv
  exact ⟨bits.take n, bits.drop n, List.length_take_of_le hlen,
    (List.take_append_drop n bits).symm, hv, hrest⟩

/-- Zeros and a one that are read stand in front, and the zeros are few. -/
theorem readUnarySlow_holds {data : Bytes} :
    ∀ (fuel count : Nat) {r r' : BitReader} {bits : List Bool} {top : Nat}, count ≤ 1024 →
      r.Holds data bits → readUnarySlow data fuel count r = .ok (top, r') →
      ∃ zeros rest, top = count + zeros ∧ top ≤ 1024 ∧
        bits = List.replicate zeros false ++ true :: rest ∧ r'.Holds data rest := by
  intro fuel
  induction fuel with
  | zero =>
    intro count r r' bits top _ _ hread
    cases hread
  | succ fuel ih =>
    intro count r r' bits top hcount h hread
    rw [readUnarySlow] at hread
    cases hbit : readBits data 1 r with
    | error e =>
      rw [hbit] at hread
      cases hread
    | ok res =>
      obtain ⟨b, r1⟩ := res
      rw [hbit] at hread
      dsimp only at hread
      obtain ⟨a, rest, hlen, hbits, hb, hrest⟩ := readBits_holds h hbit
      obtain ⟨x, hx⟩ := List.length_eq_one_iff.1 hlen
      rw [hx] at hbits hb
      by_cases hone : b = 1
      · rw [if_pos hone] at hread
        obtain ⟨htop, hr⟩ := Prod.mk.inj (Except.ok.inj hread)
        have hxt : x = true := by
          cases x with
          | true => rfl
          | false =>
            rw [hone] at hb
            cases hb
        rw [hxt] at hbits
        rw [← htop, ← hr]
        exact ⟨0, rest, rfl, hcount, hbits, hrest⟩
      · have hxf : x = false := by
          cases x with
          | true => exact absurd hb hone
          | false => rfl
        rw [if_neg hone] at hread
        by_cases hmany : 1024 < count + 1
        · rw [if_pos hmany] at hread
          cases hread
        rw [if_neg hmany] at hread
        obtain ⟨zeros, rest', htop, hle, hbits', hrest'⟩ :=
          ih (count + 1) (Nat.not_lt.1 hmany) hrest hread
        refine ⟨zeros + 1, rest', by omega, hle, ?_, hrest'⟩
        rw [hbits, hxf, hbits', List.replicate_succ]
        rfl

/-! ## What the slow decoder reads -/

/-- A block of the stream: its stored split and the codes of its differences, which are
zeros where the block has none. -/
structure Block where
  storedFs : Nat
  codes : List Nat
  deriving DecidableEq, Repr

/-- The codes of `k` differences. -/
def readCodesSlow (data : Bytes) (p : Params) (fs : Nat) :
    Nat → BitReader → Except PyErr (List Nat × BitReader)
  | 0, r => .ok ([], r)
  | k + 1, r =>
    match readDiffSlow data p fs r with
    | .error e => .error e
    | .ok (diff, r) =>
      match readCodesSlow data p fs k r with
      | .error e => .error e
      | .ok (rest, r) => .ok (diff :: rest, r)

/-- The blocks that `readBlocksSlow` reads. -/
def slowBlocks (data : Bytes) (p : Params) (blocksize : Nat) :
    Nat → Nat → BitReader → Except PyErr (List Block)
  | 0, n, _ =>
    if n = 0 then .ok []
    else .error (.value (str "RICE decode: unexpected end of compressed stream"))
  | fuel + 1, n, r =>
    if n = 0 then .ok []
    else
      let k := min blocksize n
      match readBits data p.fsbits r with
      | .error e => .error e
      | .ok (storedFs, r) =>
        if storedFs = 0 then
          match slowBlocks data p blocksize fuel (n - k) r with
          | .error e => .error e
          | .ok rest => .ok (⟨0, List.replicate k 0⟩ :: rest)
        else
          match readCodesSlow data p (storedFs - 1) k r with
          | .error e => .error e
          | .ok (codes, r) =>
            match slowBlocks data p blocksize fuel (n - k) r with
            | .error e => .error e
            | .ok rest => .ok (⟨storedFs, codes⟩ :: rest)

/-- The blocks of a stream, behind the first pixel. -/
def streamBlocks (compressed : Bytes) (nPixels : Nat) (p : Params) (blocksize : Nat) :
    Except PyErr (List Block) :=
  match readBits compressed p.bbits ⟨0, 0⟩ with
  | .error e => .error e
  | .ok (_, r) => slowBlocks compressed p blocksize nPixels nPixels r

/-- The pixels that codes give in 64 bits. -/
def undiff64 : Int → List Nat → List Int
  | _, [] => []
  | lastpix, d :: diffs =>
    wrapI64 (lastpix + unzigzag64 d) :: undiff64 (wrapI64 (lastpix + unzigzag64 d)) diffs

/-- The last of them. -/
def lastPixel64 (lastpix : Int) (diffs : List Nat) : Int :=
  (undiff64 lastpix diffs).getLastD lastpix

theorem lastPixel64_cons (lastpix : Int) (d : Nat) (diffs : List Nat) :
    lastPixel64 lastpix (d :: diffs) = lastPixel64 (wrapI64 (lastpix + unzigzag64 d)) diffs := by
  unfold lastPixel64
  rw [undiff64, List.getLastD_cons]

theorem undiff64_append (lastpix : Int) (a b : List Nat) :
    undiff64 lastpix (a ++ b) = undiff64 lastpix a ++ undiff64 (lastPixel64 lastpix a) b := by
  induction a generalizing lastpix with
  | nil => rfl
  | cons d a ih => rw [List.cons_append, undiff64, undiff64, ih, lastPixel64_cons, List.cons_append]

theorem readPixelsSlow_eq (data : Bytes) (p : Params) (fs : Nat) :
    ∀ (k : Nat) (r : BitReader) (lastpix : Int),
      readPixelsSlow data p fs k r lastpix =
        (readCodesSlow data p fs k r).map fun c =>
          (undiff64 lastpix c.1, c.2, lastPixel64 lastpix c.1) := by
  intro k
  induction k with
  | zero => exact fun r lastpix => rfl
  | succ k ih =>
    intro r lastpix
    rw [readPixelsSlow, readCodesSlow]
    cases readDiffSlow data p fs r with
    | error e => rfl
    | ok res =>
      obtain ⟨diff, r⟩ := res
      dsimp only
      rw [ih]
      cases readCodesSlow data p fs k r with
      | error e => rfl
      | ok res =>
        obtain ⟨codes, r⟩ := res
        dsimp only [Except.map]
        rw [undiff64, lastPixel64_cons]

theorem wrapI64_wrapI64 (v : Int) : wrapI64 (wrapI64 v) = wrapI64 v := by
  unfold wrapI64 asU64 asI64 u64Size
  dsimp only
  split_ifs <;> omega

theorem undiff64_replicate_zero {lastpix : Int} (h : wrapI64 lastpix = lastpix) (n : Nat) :
    undiff64 lastpix (List.replicate n 0) = List.replicate n lastpix := by
  have hzero : unzigzag64 0 = 0 := by decide
  induction n with
  | zero => rfl
  | succ n ih =>
    rw [List.replicate_succ, List.replicate_succ, undiff64, hzero, Int.add_zero, h, ih]

theorem lastPixel64_replicate_zero {lastpix : Int} (h : wrapI64 lastpix = lastpix) (n : Nat) :
    lastPixel64 lastpix (List.replicate n 0) = lastpix := by
  rw [lastPixel64, undiff64_replicate_zero h]
  cases n with
  | zero => rfl
  | succ n => simp [List.replicate_succ']

theorem wrapI64_lastPixel64 {lastpix : Int} (h : wrapI64 lastpix = lastpix) (diffs : List Nat) :
    wrapI64 (lastPixel64 lastpix diffs) = lastPixel64 lastpix diffs := by
  induction diffs generalizing lastpix with
  | nil => exact h
  | cons d diffs ih =>
    rw [lastPixel64_cons]
    exact ih (wrapI64_wrapI64 _)

/-- The slow decoder is its blocks, with the differences added up. -/
theorem readBlocksSlow_eq (data : Bytes) (p : Params) (blocksize : Nat) :
    ∀ (fuel n : Nat) (r : BitReader) {lastpix : Int}, wrapI64 lastpix = lastpix →
      readBlocksSlow data p blocksize fuel n r lastpix =
        (slowBlocks data p blocksize fuel n r).map fun blocks =>
          undiff64 lastpix (blocks.flatMap Block.codes) := by
  intro fuel
  induction fuel with
  | zero =>
    intro n r lastpix _
    rw [readBlocksSlow, slowBlocks]
    by_cases hzero : n = 0
    · rw [if_pos hzero, if_pos hzero]
      rfl
    · rw [if_neg hzero, if_neg hzero]
      rfl
  | succ fuel ih =>
    intro n r lastpix hlast
    rw [readBlocksSlow, slowBlocks]
    by_cases hzero : n = 0
    · rw [if_pos hzero, if_pos hzero]
      rfl
    rw [if_neg hzero, if_neg hzero]
    dsimp only
    cases readBits data p.fsbits r with
    | error e => rfl
    | ok res =>
      obtain ⟨storedFs, r⟩ := res
      dsimp only
      by_cases hflat : storedFs = 0
      · rw [if_pos hflat, if_pos hflat, ih (n - min blocksize n) r hlast]
        cases slowBlocks data p blocksize fuel (n - min blocksize n) r with
        | error e => rfl
        | ok rest =>
          dsimp only [Except.map]
          rw [List.flatMap_cons, undiff64_append, undiff64_replicate_zero hlast,
            lastPixel64_replicate_zero hlast]
      · rw [if_neg hflat, if_neg hflat, readPixelsSlow_eq]
        cases readCodesSlow data p (storedFs - 1) (min blocksize n) r with
        | error e => rfl
        | ok res =>
          obtain ⟨codes, r⟩ := res
          dsimp only [Except.map]
          rw [ih (n - min blocksize n) r (wrapI64_lastPixel64 hlast codes)]
          cases slowBlocks data p blocksize fuel (n - min blocksize n) r with
          | error e => rfl
          | ok rest =>
            dsimp only [Except.map]
            rw [List.flatMap_cons, undiff64_append]

/-! ## The fast decoder reads the same -/

theorem readBits_field {data : Bytes} {n : Nat} (hn : n ≤ 56) {r r' : BitReader} {s : BitBuf}
    {bits : List Bool}
    {v : Nat} (h : r.Holds data bits) (hs : s.Holds data bits)
    (hread : readBits data n r = .ok (v, r')) (message : Str) :
    ∃ s' rest, readField data message n s = .ok (v, s') ∧ r'.Holds data rest ∧ s'.Holds data rest ∧
      v < 2 ^ n := by
  obtain ⟨a, rest, hlen, hbits, hv, hrest⟩ := readBits_holds h hread
  rw [hbits] at hs
  obtain ⟨s', hfield, hs', -⟩ := readField_holds hs message (by omega)
  rw [hlen, ← hv] at hfield
  refine ⟨s', rest, hfield, hrest, hs', ?_⟩
  rw [hv, ← hlen]
  exact bitsVal_lt a

/-- A raw difference is the same number. -/
theorem readDiffSlow_raw {data : Bytes} {p : Params} (hp : p.bbits ≤ 32) {fs : Nat}
    (hfs : p.fsmax ≤ fs)
    {r r' : BitReader} {s : BitBuf} {bits : List Bool} {z : Nat} (h : r.Holds data bits)
    (hs : s.Holds data bits) (hread : readDiffSlow data p fs r = .ok (z, r')) :
    ∃ s' rest, readRaw data p.bbits s = .ok (z % 2 ^ 32, s') ∧ r'.Holds data rest ∧
      s'.Holds data rest ∧
      z < 2 ^ p.bbits := by
  unfold readDiffSlow at hread
  rw [if_pos hfs] at hread
  obtain ⟨s', rest, hfield, hrest, hs', hlt⟩ := readBits_field (by omega) h hs hread
    (str "RICE decode: unexpected end of stream (raw)")
  rw [Nat.mod_eq_of_lt (Nat.lt_of_lt_of_le hlt (Nat.pow_le_pow_right (by decide) hp))]
  exact ⟨s', rest, hfield, hrest, hs', hlt⟩

/-- A difference of a split block is the same number, cut to 32 bits. -/
theorem readDiffSlow_split {data : Bytes} {p : Params} {fs : Nat} (hfs : fs < p.fsmax)
    (hlt : fs < 32)
    {r r' : BitReader} {s : BitBuf} {bits : List Bool} {z : Nat} (h : r.Holds data bits)
    (hs : s.Holds data bits) (hread : readDiffSlow data p fs r = .ok (z, r')) :
    ∃ s' rest, readSplit data fs s = .ok (z % 2 ^ 32, s') ∧ r'.Holds data rest ∧
      s'.Holds data rest ∧
      z < 1025 * 2 ^ fs := by
  unfold readDiffSlow at hread
  rw [if_neg (Nat.not_le.2 hfs)] at hread
  cases hunary : readUnarySlow data 1026 0 r with
  | error e =>
    rw [hunary] at hread
    cases hread
  | ok res =>
    obtain ⟨top, r1⟩ := res
    rw [hunary] at hread
    dsimp only at hread
    obtain ⟨zeros, rest, htop, hfew, hbits, hrest⟩ :=
      readUnarySlow_holds 1026 0 (Nat.zero_le _) h hunary
    rw [Nat.zero_add] at htop
    rw [hbits, ← htop] at hs
    have hleft : (s.counter data).left + 1 ≤ data.length + 2 := by
      unfold BitBuf.counter
      dsimp only
      omega
    have htotal := hs.bits_length
    rw [List.length_append, List.length_replicate, List.length_cons] at htotal
    obtain ⟨y, hy, -⟩ := Counter.unary_eq_some (data.length + 2) (x := s.counter data) top 0
      hs.choose_spec.2.1 (by unfold Counter.total; omega) hleft (by omega)
    obtain ⟨s1, hfast, hs1, -⟩ := (readUnary_holds (data.length + 2) 0 hs hleft).1 y hy
    rw [Nat.zero_add] at hfast
    unfold readSplit
    rw [hfast]
    dsimp only
    by_cases hzero : fs = 0
    · rw [if_pos hzero] at hread ⊢
      obtain ⟨hz, hr⟩ := Prod.mk.inj (Except.ok.inj hread)
      rw [← hz, ← hr, hzero]
      exact ⟨s1, rest, rfl, hrest, hs1, by omega⟩
    · rw [if_neg hzero] at hread ⊢
      cases hbottom : readBits data fs r1 with
      | error e =>
        rw [hbottom] at hread
        cases hread
      | ok res =>
        obtain ⟨bottom, r2⟩ := res
        rw [hbottom] at hread
        obtain ⟨hz, hr⟩ := Prod.mk.inj (Except.ok.inj hread)
        obtain ⟨s2, rest2, hfield, hrest2, hs2, hbound⟩ :=
          readBits_field (by omega) hrest hs1 hbottom
          (str "RICE decode: unexpected end of stream (rice tail)")
        have hpow : 2 ^ fs ≤ 2 ^ 31 := Nat.pow_le_pow_right (by decide) (by omega)
        have hmul : top * 2 ^ fs ≤ 1024 * 2 ^ fs := Nat.mul_le_mul_right _ hfew
        have hor : ∀ a : Nat, a * 2 ^ fs ||| bottom = a * 2 ^ fs + bottom := by
          intro a
          rw [Nat.mul_comm]
          exact (Nat.two_pow_add_eq_or_of_lt hbound a).symm
        have hz' : z = top * 2 ^ fs + bottom := by
          rw [← hz, Nat.mod_eq_of_lt (by omega), hor]
        have hcut : top * 2 ^ fs % 2 ^ 32 ||| bottom = z % 2 ^ 32 := by
          have hsplit : (2 : Nat) ^ 32 = 2 ^ (32 - fs) * 2 ^ fs := by
            rw [← Nat.pow_add]
            congr 1
            omega
          have hmod : top * 2 ^ fs % 2 ^ 32 = top % 2 ^ (32 - fs) * 2 ^ fs := by
            rw [hsplit, Nat.mul_mod_mul_right]
          have hdiv : (top * 2 ^ fs + bottom) % 2 ^ 32 = top % 2 ^ (32 - fs) * 2 ^ fs + bottom := by
            rw [hsplit, Nat.mul_comm (2 ^ (32 - fs)), Nat.mod_mul, Nat.mul_comm top,
              Nat.mul_add_mod,
              Nat.mod_eq_of_lt hbound, Nat.mul_add_div (Nat.two_pow_pos fs),
              Nat.div_eq_of_lt hbound, Nat.add_zero, Nat.mul_comm (2 ^ fs), Nat.add_comm]
          rw [hmod, hor, hz', hdiv]
        rw [hfield, ← hr]
        dsimp only
        rw [hcut]
        exact ⟨s2, rest2, rfl, hrest2, hs2, by omega⟩

/-- Codes that are read one by one give the pixels of the codes cut to 32 bits. -/
theorem readPixels_codes {data : Bytes} {p : Params} {fs : Nat}
    {readDiff : BitBuf → Except PyErr (Nat × BitBuf)} (bound : Nat)
    (hdiff : ∀ (r r' : BitReader) (s : BitBuf) (bits : List Bool) (z : Nat), r.Holds data bits →
      s.Holds data bits → readDiffSlow data p fs r = .ok (z, r') →
      ∃ s' rest, readDiff s = .ok (z % 2 ^ 32, s') ∧ r'.Holds data rest ∧
      s'.Holds data rest ∧ z < bound) :
    ∀ (k : Nat) {r r' : BitReader} {s : BitBuf} {bits : List Bool} {codes : List Nat}
      (lastpix : Int),
      r.Holds data bits → s.Holds data bits → readCodesSlow data p fs k r = .ok (codes, r') →
      ∃ s' rest, readPixels readDiff k s lastpix =
          .ok ((undiff lastpix (codes.map (· % 2 ^ 32)),
            lastPixel lastpix (codes.map (· % 2 ^ 32))), s') ∧
        r'.Holds data rest ∧ s'.Holds data rest ∧ ∀ z ∈ codes, z < bound := by
  intro k
  induction k with
  | zero =>
    intro r r' s bits codes lastpix h hs hread
    obtain ⟨hcodes, hr⟩ := Prod.mk.inj (Except.ok.inj hread)
    rw [← hcodes, ← hr]
    exact ⟨s, bits, rfl, h, hs, List.forall_mem_nil _⟩
  | succ k ih =>
    intro r r' s bits codes lastpix h hs hread
    rw [readCodesSlow] at hread
    cases hz : readDiffSlow data p fs r with
    | error e =>
      rw [hz] at hread
      cases hread
    | ok res =>
      obtain ⟨z, r1⟩ := res
      rw [hz] at hread
      dsimp only at hread
      obtain ⟨s1, rest1, hfast, hr1, hs1, hlt⟩ := hdiff r r1 s bits z h hs hz
      cases hmore : readCodesSlow data p fs k r1 with
      | error e =>
        rw [hmore] at hread
        cases hread
      | ok res =>
        obtain ⟨more, r2⟩ := res
        rw [hmore] at hread
        obtain ⟨hcodes, hr⟩ := Prod.mk.inj (Except.ok.inj hread)
        obtain ⟨s2, rest2, hpixels, hr2, hs2, hall⟩ :=
          ih (asI32 (lastpix + unzigzag (z % 2 ^ 32))) hr1 hs1 hmore
        rw [readPixels, hfast, ← hcodes, ← hr]
        dsimp only
        rw [hpixels, List.map_cons, undiff, lastPixel_cons]
        exact ⟨s2, rest2, rfl, hr2, hs2, List.forall_mem_cons.2 ⟨hlt, hall⟩⟩

/-- An upper bound of the codes. -/
def Params.codeBound (p : Params) : Nat := 2 ^ p.bbits + 1025 * 2 ^ p.fsmax

/-- Raw or split, the pixels of a block are those of its codes. -/
theorem readPixels_codedBlock {data : Bytes} {p : Params} {bytepix split count : Nat}
    (hp : p.Fit bytepix) (hsplit : split ≤ p.fsmax) {r r' : BitReader} {s : BitBuf}
    {bits : List Bool} {codes : List Nat} {lastpix : Int} (h : r.Holds data bits)
    (hs : s.Holds data bits) (hcodes : readCodesSlow data p split count r = .ok (codes, r')) :
    ∃ s' rest,
      (if split = p.fsmax then readPixels (readRaw data p.bbits) count s lastpix
        else readPixels (readSplit data split) count s lastpix) =
        .ok ((undiff lastpix (codes.map (· % 2 ^ 32)),
          lastPixel lastpix (codes.map (· % 2 ^ 32))), s') ∧
      r'.Holds data rest ∧ s'.Holds data rest ∧ ∀ z ∈ codes, z < p.codeBound := by
  have hbbits := hp.bbits_le
  have hbits_le : 2 ^ p.bbits ≤ p.codeBound := Nat.le_add_right _ _
  have hmax : p.fsmax < 32 := by
    have hpow : 2 ^ p.fsbits ≤ 2 ^ 5 := Nat.pow_le_pow_right (by decide) hp.fsbits_le
    have := hp.fsmax_lt
    omega
  by_cases hraw : split = p.fsmax
  · rw [if_pos hraw]
    refine readPixels_codes p.codeBound (fun r r' s bits z h hs hread => ?_) _ lastpix h hs hcodes
    obtain ⟨s', rest, hfast, hr', hs', hlt⟩ :=
      readDiffSlow_raw hbbits (Nat.le_of_eq hraw.symm) h hs hread
    exact ⟨s', rest, hfast, hr', hs', Nat.lt_of_lt_of_le hlt hbits_le⟩
  · rw [if_neg hraw]
    refine readPixels_codes p.codeBound (fun r r' s bits z h hs hread => ?_) _ lastpix h hs hcodes
    obtain ⟨s', rest, hfast, hr', hs', hlt⟩ :=
      readDiffSlow_split (show split < p.fsmax by omega) (by omega) h hs hread
    have hpow : 2 ^ split ≤ 2 ^ p.fsmax := Nat.pow_le_pow_right (by decide) hsplit
    refine ⟨s', rest, hfast, hr', hs', Nat.lt_of_lt_of_le hlt ?_⟩
    exact (Nat.mul_le_mul_left 1025 hpow).trans (Nat.le_add_left _ _)

/-- The blocks that the slow decoder reads are the ones that the fast one reads. -/
theorem readBlocks_slowBlocks {data : Bytes} {p : Params} {bytepix : Nat} (hp : p.Fit bytepix)
    (blocksize : Nat) :
    ∀ (fuel n : Nat) {r : BitReader} {s : BitBuf} {bits : List Bool} {blocks : List Block}
      {lastpix : Int},
      asI32 lastpix = lastpix → r.Holds data bits → s.Holds data bits →
      slowBlocks data p blocksize fuel n r = .ok blocks → (∀ b ∈ blocks, b.storedFs ≤ p.fsmax + 1) →
      readBlocks data p blocksize fuel n s lastpix =
          .ok (undiff lastpix ((blocks.flatMap Block.codes).map (· % 2 ^ 32))) ∧
        ∀ z ∈ blocks.flatMap Block.codes, z < p.codeBound := by
  intro fuel
  induction fuel with
  | zero =>
    intro n r s bits blocks lastpix _ _ _ hread _
    rw [slowBlocks] at hread
    by_cases hzero : n = 0
    · rw [if_pos hzero] at hread
      rw [readBlocks, if_pos hzero, ← Except.ok.inj hread]
      exact ⟨rfl, List.forall_mem_nil _⟩
    · rw [if_neg hzero] at hread
      cases hread
  | succ fuel ih =>
    intro n r s bits blocks lastpix hlast h hs hread hsplits
    rw [slowBlocks] at hread
    by_cases hzero : n = 0
    · rw [if_pos hzero] at hread
      rw [readBlocks, if_pos hzero, ← Except.ok.inj hread]
      exact ⟨rfl, List.forall_mem_nil _⟩
    rw [if_neg hzero] at hread
    dsimp only at hread
    cases hfs : readBits data p.fsbits r with
    | error e =>
      rw [hfs] at hread
      cases hread
    | ok res =>
      obtain ⟨storedFs, r1⟩ := res
      rw [hfs] at hread
      dsimp only at hread
      obtain ⟨s1, rest1, hfield, hr1, hs1, -⟩ :=
        readBits_field (by have := hp.fsbits_le; omega) h hs hfs
        (str "RICE decode: unexpected end of stream reading fs")
      have hrestn : n - min blocksize n = n - blocksize := by omega
      rw [readBlocks, if_neg hzero, readBlock, hfield]
      dsimp only
      by_cases hflat : storedFs = 0
      · -- a constant block
        rw [if_pos hflat] at hread
        cases hmore : slowBlocks data p blocksize fuel (n - min blocksize n) r1 with
        | error e =>
          rw [hmore] at hread
          cases hread
        | ok rest =>
          rw [hmore] at hread
          have hblocks := Except.ok.inj hread
          rw [← hblocks] at hsplits ⊢
          rw [hrestn] at hmore
          obtain ⟨hnext, hall⟩ :=
            ih (n - blocksize) hlast hr1 hs1 hmore (List.forall_mem_cons.1 hsplits).2
          have hzeros : (List.replicate (min blocksize n) 0).map (· % 2 ^ 32) =
              List.replicate (min blocksize n) 0 := List.map_replicate
          rw [if_pos hflat]
          dsimp only
          rw [hnext, List.flatMap_cons, List.map_append, hzeros, undiff_append,
            undiff_replicate_zero hlast, lastPixel_replicate_zero hlast]
          refine ⟨rfl, fun z hz => (List.mem_append.1 hz).elim (fun hz => ?_) (hall z)⟩
          rw [List.eq_of_mem_replicate hz]
          exact Nat.add_pos_left (Nat.two_pow_pos _) _
      · rw [if_neg hflat] at hread
        cases hcodes : readCodesSlow data p (storedFs - 1) (min blocksize n) r1 with
        | error e =>
          rw [hcodes] at hread
          cases hread
        | ok res =>
          obtain ⟨codes, r2⟩ := res
          rw [hcodes] at hread
          dsimp only at hread
          cases hmore : slowBlocks data p blocksize fuel (n - min blocksize n) r2 with
          | error e =>
            rw [hmore] at hread
            cases hread
          | ok rest =>
            rw [hmore] at hread
            have hblocks := Except.ok.inj hread
            rw [← hblocks] at hsplits ⊢
            obtain ⟨hsplit, hsplits'⟩ := List.forall_mem_cons.1 hsplits
            dsimp only at hsplit
            rw [hrestn] at hmore
            obtain ⟨s2, rest2, hpixels, hr2, hs2, hlt⟩ :=
              readPixels_codedBlock hp (by omega) hr1 hs1 hcodes
            obtain ⟨hnext, hall⟩ :=
              ih (n - blocksize) (asI32_lastPixel hlast (codes.map (· % 2 ^ 32)))
              hr2 hs2 hmore hsplits'
            rw [if_neg hflat, hpixels]
            dsimp only
            rw [hnext, List.flatMap_cons, List.map_append, undiff_append]
            exact ⟨rfl, fun z hz => (List.mem_append.1 hz).elim (hlt z) (hall z)⟩

/-! ## The pixels of the two -/

/-- Bit 32 of a code, which the fast decoder does not see. -/
def LowCode (z : Nat) : Prop := z / 2 ^ 32 % 2 = 0

instance (z : Nat) : Decidable (LowCode z) := inferInstanceAs (Decidable (z / 2 ^ 32 % 2 = 0))

theorem asI64_emod (n : Nat) :
    asI64 n % 18446744073709551616 = (n : Int) % 18446744073709551616 := by
  unfold asI64 u64Size
  dsimp only
  split_ifs <;> omega

theorem wrapI64_emod (v : Int) :
    wrapI64 v % 18446744073709551616 = v % 18446744073709551616 := by
  unfold wrapI64
  rw [asI64_emod, asU64, u64Size]
  omega

/-- The difference of a code and that of the code cut to 32 bits agree in 32 bits
where the code has no bit 32. -/
theorem unzigzag_emod_iff (z : Nat) :
    unzigzag (z % 2 ^ 32) % 4294967296 = unzigzag64 z % 4294967296 ↔ LowCode z := by
  have hcast : ∀ v : Int, asI32 v % 4294967296 = v % 4294967296 := fun v => Int.bmod_emod
  have hparity : z % 2 ^ 32 % 2 = z % 2 := Nat.mod_mod_of_dvd z ⟨2 ^ 31, rfl⟩
  unfold unzigzag unzigzag64 LowCode
  rw [hparity]
  by_cases heven : z % 2 = 0
  · have h64 := asI64_emod (z / 2)
    rw [if_pos heven, if_neg (not_not.2 heven), hcast]
    omega
  · have h64 := asI64_emod (z / 2 + 1)
    have hneg := wrapI64_emod (-asI64 (z / 2 + 1))
    rw [if_neg heven, if_pos heven, hcast]
    omega

/-- Codes give the same pixels up to a width exactly where they give the same differences. -/
theorem undiff_emod_iff {m : Int} (hm : m ∣ 4294967296) :
    ∀ (codes : List Nat) {lastpix lastpix64 : Int}, lastpix % m = lastpix64 % m →
      ((undiff lastpix (codes.map (· % 2 ^ 32))).map (· % m) =
        (undiff64 lastpix64 codes).map (· % m) ↔
        ∀ z ∈ codes, unzigzag (z % 2 ^ 32) % m = unzigzag64 z % m) := by
  have hcast : ∀ v : Int, asI32 v % m = v % m := by
    intro v
    rw [← Int.emod_emod_of_dvd (asI32 v) hm, ← Int.emod_emod_of_dvd v hm]
    exact congrArg (· % m) Int.bmod_emod
  have hwrap : ∀ v : Int, wrapI64 v % m = v % m := by
    have hm64 : m ∣ 18446744073709551616 := hm.trans ⟨4294967296, rfl⟩
    intro v
    rw [← Int.emod_emod_of_dvd (wrapI64 v) hm64, wrapI64_emod, Int.emod_emod_of_dvd v hm64]
  intro codes
  induction codes with
  | nil =>
    intro lastpix lastpix64 _
    exact ⟨fun _ => List.forall_mem_nil _, fun _ => rfl⟩
  | cons z codes ih =>
    intro lastpix lastpix64 hlast
    rw [List.map_cons, undiff, undiff64, List.map_cons, List.map_cons, List.cons.injEq,
      List.forall_mem_cons]
    have hfirst : asI32 (lastpix + unzigzag (z % 2 ^ 32)) % m =
        wrapI64 (lastpix64 + unzigzag64 z) % m ↔
        unzigzag (z % 2 ^ 32) % m = unzigzag64 z % m := by
      rw [hcast, hwrap]
      have hmod : lastpix ≡ lastpix64 [ZMOD m] := hlast
      exact ⟨fun h => Int.ModEq.add_left_cancel hmod h, fun h => Int.ModEq.add hmod h⟩
    constructor
    · rintro ⟨hhead, htail⟩
      exact ⟨hfirst.1 hhead, (ih hhead).1 htail⟩
    · rintro ⟨hhead, htail⟩
      have hnext := hfirst.2 hhead
      exact ⟨hnext, (ih hnext).2 htail⟩

theorem signExtend_emod {bytepix : Nat} (h : PixelWidth bytepix) {seed : Nat}
    (hseed : seed < 256 ^ bytepix) :
    signExtend seed (8 * bytepix) % (256 : Int) ^ bytepix = (seed : Int) % (256 : Int) ^ bytepix ∧
      wrapI64 (signExtend seed (8 * bytepix)) = signExtend seed (8 * bytepix) := by
  unfold signExtend wrapI64 asU64 asI64 u64Size
  rcases h with rfl | rfl | rfl
  · rw [if_neg (by decide), if_neg (by decide)]
    dsimp only
    constructor <;> split_ifs <;> omega
  · rw [if_neg (by decide), if_neg (by decide)]
    dsimp only
    constructor <;> split_ifs <;> omega
  · rw [if_neg (by decide), if_neg (by decide)]
    dsimp only
    constructor <;> split_ifs <;> omega

/-- Narrow pixels have short codes. -/
theorem codeBound_le {bytepix : Nat} (h : PixelWidth bytepix) (hne : bytepix ≠ 4) {p : Params}
    (hp : riceParams bytepix = .ok p) : p.codeBound ≤ 2 ^ 32 := by
  rcases h with rfl | rfl | rfl
  · rw [← Except.ok.inj hp]
    decide
  · rw [← Except.ok.inj hp]
    decide
  · exact absurd rfl hne

/-- The bytes of the first pixel, and those behind it. -/
theorem readBits_seed {c : Bytes} {bytepix seedRaw : Nat} {r : BitReader}
    (h : readBits c (8 * bytepix) ⟨0, 0⟩ = .ok (seedRaw, r)) :
    bytepix ≤ c.length ∧ seedRaw = fromBe (slice c 0 bytepix) ∧
      r.Holds c (ofBytes (c.drop bytepix)) ∧
      BitBuf.Holds c ⟨0, 0, bytepix⟩ (ofBytes (c.drop bytepix)) := by
  obtain ⟨a, rest, hlen, hbits, hseed, hrest⟩ := readBits_holds (BitReader.Holds.start c) h
  have hlong : bytepix ≤ c.length := by
    have htotal := congrArg List.length hbits
    rw [ofBytes_length, List.length_append, hlen] at htotal
    omega
  have hsplit : ofBytes c = ofBytes (slice c 0 bytepix) ++ ofBytes (c.drop bytepix) := by
    rw [← ofBytes_append]
    exact congrArg ofBytes (List.take_append_drop bytepix c).symm
  rw [hsplit] at hbits
  obtain ⟨hfront, hback⟩ :=
    List.append_inj hbits (by rw [ofBytes_length, slice_length, hlen]; omega)
  rw [hback]
  refine ⟨hlong, ?_, hrest, [], rfl, Nat.zero_le _, rfl, hlong, hback.symm⟩
  rw [hseed, ← hfront, bitsVal_ofBytes]

/-- Pixels are left for a block only where bytes are left for its split. -/
theorem slowBlocks_nonempty {data : Bytes} {p : Params} (hp : 0 < p.fsbits) {blocksize n : Nat}
    {r : BitReader} {bits : List Bool} {blocks : List Block} (h : r.Holds data bits) (hn : 0 < n)
    (hread : slowBlocks data p blocksize n n r = .ok blocks) : 0 < bits.length := by
  obtain ⟨fuel, rfl⟩ : ∃ fuel, n = fuel + 1 := ⟨n - 1, by omega⟩
  rw [slowBlocks, if_neg (Nat.succ_ne_zero fuel)] at hread
  dsimp only at hread
  cases hfs : readBits data p.fsbits r with
  | error e =>
    rw [hfs] at hread
    cases hread
  | ok res =>
    obtain ⟨a, rest, hlen, hbits, -, -⟩ := readBits_holds h hfs
    rw [hbits, List.length_append]
    omega

/-- The pixels of the two agree up to the width exactly where no code has bit 32. -/
theorem undiff_emod_pixels_iff {bytepix : Nat} (hw : PixelWidth bytepix) {p : Params}
    (hp : riceParams bytepix = .ok p) {codes : List Nat} (hbound : ∀ z ∈ codes, z < p.codeBound)
    {lastpix lastpix64 : Int}
    (hlast : lastpix % (256 : Int) ^ bytepix = lastpix64 % (256 : Int) ^ bytepix) :
    (undiff lastpix (codes.map (· % 2 ^ 32))).map (· % (256 : Int) ^ bytepix) =
        (undiff64 lastpix64 codes).map (· % (256 : Int) ^ bytepix) ↔ ∀ z ∈ codes, LowCode z := by
  obtain ⟨-, hdvd⟩ := pow_le_of_pixelWidth hw
  rw [undiff_emod_iff hdvd codes hlast]
  refine forall₂_congr fun z hz => ?_
  by_cases hfour : bytepix = 4
  · rw [hfour]
    exact unzigzag_emod_iff z
  · have hlow : LowCode z := by
      rw [LowCode, Nat.div_eq_of_lt (Nat.lt_of_lt_of_le (hbound z hz) (codeBound_le hw hfour hp))]
    refine iff_of_true ?_ hlow
    rw [← Int.emod_emod_of_dvd _ hdvd, (unzigzag_emod_iff z).2 hlow, Int.emod_emod_of_dvd _ hdvd]

/-- Where the bit-by-bit decoder reads a stream, the fast one does, and gives the same
pixels exactly where no code has bit 32. -/
theorem decodeRiceInt_refines {bytepix : Nat} (hw : PixelWidth bytepix) {p : Params}
    (hp : riceParams bytepix = .ok p) (littleEndian : Bool) {c : Bytes}
    {n blocksize : Nat} {out : Bytes} {blocks : List Block}
    (hslow : decodeRiceSlowI64 littleEndian c n p blocksize (8 * bytepix : Nat) = .ok out)
    (hblocks : streamBlocks c n p blocksize = .ok blocks)
    (hsplits : ∀ b ∈ blocks, b.storedFs ≤ p.fsmax + 1) (hlong : n = 0 → bytepix < c.length) :
    ∃ out', decodeRiceInt littleEndian c n p blocksize bytepix = .ok out' ∧
      (out' = out ↔ ∀ z ∈ blocks.flatMap Block.codes, LowCode z) ∧ (bytepix ≠ 4 → out' = out) := by
  obtain ⟨p', hp', hfit⟩ := riceParams_fit hw
  rw [Except.ok.inj (hp'.symm.trans hp)] at hfit
  have hbbits := hfit.bbits_eq
  obtain ⟨hle, hdvd⟩ := pow_le_of_pixelWidth hw
  have hpos : 0 < bytepix := by
    rcases hw with rfl | rfl | rfl <;> decide
  unfold decodeRiceSlowI64 at hslow
  unfold streamBlocks at hblocks
  rw [hbbits] at hslow hblocks
  cases hfirst : readBits c (8 * bytepix) ⟨0, 0⟩ with
  | error e =>
    rw [hfirst] at hslow
    cases hslow
  | ok res =>
    obtain ⟨seedRaw, r⟩ := res
    rw [hfirst] at hslow hblocks
    dsimp only at hslow hblocks
    obtain ⟨hlen, hseed, hr, hs⟩ := readBits_seed hfirst
    have hmore : bytepix < c.length := by
      by_cases hzero : n = 0
      · exact hlong hzero
      · have hleft := slowBlocks_nonempty hfit.fsbits_pos hr (Nat.pos_of_ne_zero hzero) hblocks
        rw [ofBytes_length, List.length_drop] at hleft
        omega
    -- the first pixel
    have hseedlt : seedRaw < 256 ^ bytepix := by
      rw [hseed]
      refine fromBe_lt ?_
      rw [slice_length]
      omega
    obtain ⟨hmod64, hwrap⟩ := signExtend_emod hw hseedlt
    have hmod : castPixel bytepix seedRaw % (256 : Int) ^ bytepix =
        signExtend seedRaw (8 * bytepix) % (256 : Int) ^ bytepix :=
      (castPixel_emod hw seedRaw).trans hmod64.symm
    have hcast : asI32 (castPixel bytepix seedRaw) = castPixel bytepix seedRaw := by
      obtain ⟨hlow, hhigh⟩ := castPixel_range hw seedRaw
      exact asI32_of_range (by omega)
    -- the pixels behind it
    obtain ⟨hfast, hbound⟩ :=
      readBlocks_slowBlocks hfit blocksize n n hcast hr (refill_holds hs).1 hblocks hsplits
    have hout : (undiff64 (signExtend seedRaw (8 * bytepix)) (blocks.flatMap Block.codes)).flatMap
        (toNeBytes littleEndian bytepix) = out := by
      have hzbitpix : ((8 * bytepix : Nat) : Int) = 8 ∨ ((8 * bytepix : Nat) : Int) = 16 ∨
          ((8 * bytepix : Nat) : Int) = 32 ∨ ((8 * bytepix : Nat) : Int) = 64 := by
        rcases hw with rfl | rfl | rfl <;> decide
      rw [readBlocksSlow_eq c p blocksize n n r hwrap, hblocks] at hslow
      have hbytes := Except.ok.inj hslow
      rw [castI64ToTargetBytes, if_pos hzbitpix, show (((8 * bytepix : Nat) : Int) / 8).toNat =
        bytepix by omega]
        at hbytes
      exact hbytes
    have hiff := undiff_emod_pixels_iff hw hp hbound hmod
    refine ⟨(undiff (castPixel bytepix seedRaw)
      ((blocks.flatMap Block.codes).map (· % 2 ^ 32))).flatMap (toNeBytes littleEndian bytepix),
      ?_, ?_, fun hfour => ?_⟩
    · unfold decodeRiceInt
      dsimp only
      rw [show p.bbits / 8 = bytepix by omega, if_neg (by omega), ← hseed, hbbits,
        seedPixel_eq hw, hfast]
    · rw [← hiff, ← hout]
      exact ⟨fun h => flatMap_toNeBytes_inj hpos h, flatMap_toNeBytes_congr littleEndian⟩
    · rw [← hout]
      refine flatMap_toNeBytes_congr littleEndian (hiff.2 fun z hz => ?_)
      rw [LowCode, Nat.div_eq_of_lt (Nat.lt_of_lt_of_le (hbound z hz) (codeBound_le hw hfour hp))]

/-- Two blocks of 16-bit pixels, one of them constant. -/
theorem decodeRiceInt_refines_short :
    ∃ out', decodeRiceInt true [0, 7, 0x01, 0x20] 3 ⟨16, 4, 14⟩ 2 2 = .ok out' ∧
      (out' = [7, 0, 7, 0, 8, 0] ↔
        ∀ z ∈ [Block.mk 0 [0, 0], Block.mk 1 [2]].flatMap Block.codes, LowCode z) ∧
      (2 ≠ 4 → out' = [7, 0, 7, 0, 8, 0]) :=
  decodeRiceInt_refines (Or.inr (Or.inl rfl)) rfl true (by decide +kernel)
    (by decide +kernel) (by decide) (by decide)

/-- A stream with 299 zeros in front of the one, in a block with the split 24. -/
def overlongDiff : Bytes :=
  [0, 0, 0, 0, 0xC8] ++ List.replicate 37 0 ++ [0x80] ++ List.replicate 3 0

/-- Both decoders read that stream, and the pixels differ.  Without pixels the fast one
asks for a byte behind the first pixel, the other does not. -/
theorem not_same_pixels_overlongDiff :
    decodeRiceSlowI64 true overlongDiff 1 ⟨32, 5, 25⟩ 32 32 = .ok [0, 0, 0x80, 0x95] ∧
      streamBlocks overlongDiff 1 ⟨32, 5, 25⟩ 32 = .ok [⟨25, [5016387584]⟩] ∧
      decodeRiceInt true overlongDiff 1 ⟨32, 5, 25⟩ 32 4 = .ok [0, 0, 0x80, 0x15] ∧
      decodeRiceSlowI64 true [5] 0 ⟨8, 3, 6⟩ 32 8 = .ok [] ∧
      streamBlocks [5] 0 ⟨8, 3, 6⟩ 32 = .ok [] ∧
      decodeRiceInt true [5] 0 ⟨8, 3, 6⟩ 32 1 =
        .error (.value (str "RICE decode: input shorter than seed + 1 byte")) := by
  decide +kernel

end RustFits.Zimage.Rice
