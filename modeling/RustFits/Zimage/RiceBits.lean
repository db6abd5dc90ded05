import RustFits.Zimage.Rice

/-!
# The bits behind the RICE reader and writer

`BitWriter.Holds` and `BitBuf.Holds` say which bits a writer has written and which
bits a reader has in front of it; every operation of `zimage/rice.rs` then appends
bits or takes them off.

Where the reader gives up depends on how many bits happen to be in its buffer, so
`Counter` follows the numbers of the buffer without the bits.
-/

namespace RustFits.Zimage.Rice

open Ascii ByteFile Machine BigEndian BitStream

/-! ## The writer -/

/-- The bits that are written: those of the whole bytes and those at the upper end of
the byte that is being filled. -/
def BitWriter.Holds (w : BitWriter) (bits : List Bool) : Prop :=
  ∃ tail, tail.length = w.bitsUsed ∧ w.bitsUsed < 8 ∧ w.curByte = aligned 8 tail ∧
    bits = ofBytes w.out ++ tail

theorem BitWriter.holds_nil : BitWriter.Holds ⟨[], 0, 0⟩ [] := ⟨[], rfl, by decide, by decide, rfl⟩

theorem ofBytes_register {tail : List Bool} (h : tail.length ≤ 8) :
    ofBytes [UInt8.ofNat (aligned 8 tail)] = tail ++ List.replicate (8 - tail.length) false := by
  have hlt : aligned 8 tail < 256 := aligned_lt h
  have hbyte : (UInt8.ofNat (aligned 8 tail)).toNat = aligned 8 tail := by
    rw [UInt8.toNat_ofNat', Nat.mod_eq_of_lt hlt]
  rw [ofBytes, List.flatMap_singleton, hbyte, bitsOf_aligned h]

theorem BitWriter.flush_holds (out : Bytes) {tail : List Bool} (h : tail.length ≤ 8) :
    BitWriter.Holds (BitWriter.flush ⟨out, aligned 8 tail, tail.length⟩) (ofBytes out ++ tail) := by
  unfold BitWriter.flush
  dsimp only
  by_cases hfull : tail.length = 8
  · rw [if_pos hfull]
    refine ⟨[], rfl, Nat.succ_pos 7, rfl, ?_⟩
    rw [ofBytes_append, ofBytes_register h, hfull, Nat.sub_self, List.replicate_zero,
      List.append_nil, List.append_nil]
  · rw [if_neg hfull]
    exact ⟨tail, rfl, by dsimp only; omega, rfl, rfl⟩

theorem writeBitsLoop_holds :
    ∀ (fuel value remaining : Nat) {w : BitWriter} {bits : List Bool}, remaining ≤ fuel →
      w.Holds bits →
      (writeBitsLoop fuel value remaining w).Holds (bits ++ bitsOf remaining value) := by
  intro fuel
  induction fuel with
  | zero =>
    intro value remaining w bits hfuel hw
    rw [writeBitsLoop, Nat.le_zero.1 hfuel, bitsOf, List.append_nil]
    exact hw
  | succ fuel ih =>
    intro value remaining w bits hfuel hw
    rw [writeBitsLoop]
    by_cases hzero : remaining = 0
    · rw [if_pos hzero, hzero, bitsOf, List.append_nil]
      exact hw
    · obtain ⟨tail, hlen, hused, hcur, hbits⟩ := hw
      rw [if_neg hzero]
      dsimp only
      generalize htake : min remaining (8 - w.bitsUsed) = take
      -- the chunk of this round goes behind the bits of the byte
      have htop : value / 2 ^ (remaining - take) % 2 ^ take =
          bitsVal (bitsOf take (value / 2 ^ (remaining - take))) := (bitsVal_bitsOf _ _).symm
      have hchunk : (tail ++ bitsOf take (value / 2 ^ (remaining - take))).length ≤ 8 := by
        rw [List.length_append, bitsOf_length]
        omega
      have hor := aligned_or hchunk
      rw [bitsOf_length, hlen] at hor
      have hflush := BitWriter.flush_holds w.out hchunk
      rw [List.length_append, bitsOf_length, hlen, ← List.append_assoc, ← hbits] at hflush
      rw [htop, hcur, hor]
      have hnext := ih (value % 2 ^ (remaining - take)) (remaining - take) (by omega) hflush
      rw [bitsOf_mod, List.append_assoc, ← bitsOf_add, show take + (remaining - take) =
        remaining by omega]
        at hnext
      exact hnext

theorem BitWriter.Holds.writeBits {w : BitWriter} {bits : List Bool} (h : w.Holds bits)
    (value n : Nat) :
    (w.writeBits value n).Holds (bits ++ bitsOf n value) := by
  have hloop := writeBitsLoop_holds n (value % 2 ^ n) n (Nat.le_refl n) h
  rw [bitsOf_mod] at hloop
  exact hloop

theorem writeZerosLoop_holds :
    ∀ (fuel remaining : Nat) {w : BitWriter} {bits : List Bool}, remaining ≤ fuel →
      w.Holds bits →
      (writeZerosLoop fuel remaining w).Holds (bits ++ List.replicate remaining false) := by
  intro fuel
  induction fuel with
  | zero =>
    intro remaining w bits hfuel hw
    rw [writeZerosLoop, Nat.le_zero.1 hfuel, List.replicate_zero, List.append_nil]
    exact hw
  | succ fuel ih =>
    intro remaining w bits hfuel hw
    rw [writeZerosLoop]
    by_cases hzero : remaining = 0
    · rw [if_pos hzero, hzero, List.replicate_zero, List.append_nil]
      exact hw
    · obtain ⟨tail, hlen, hused, hcur, hbits⟩ := hw
      rw [if_neg hzero]
      dsimp only
      generalize htake : min remaining (8 - w.bitsUsed) = take
      have hchunk : (tail ++ List.replicate take false).length ≤ 8 := by
        rw [List.length_append, List.length_replicate]
        omega
      have hflush := BitWriter.flush_holds w.out hchunk
      rw [aligned_append_zeros (by omega), List.length_append, List.length_replicate, hlen,
        ← List.append_assoc, ← hbits, ← hcur] at hflush
      have hnext := ih (remaining - take) (by omega) hflush
      rw [List.append_assoc, ← List.replicate_add, show take + (remaining - take) =
        remaining by omega]
        at hnext
      exact hnext

theorem BitWriter.Holds.writeUnary {w : BitWriter} {bits : List Bool} (h : w.Holds bits)
    (count : Nat) :
    (w.writeUnary count).Holds (bits ++ (List.replicate count false ++ [true])) := by
  have hzeros := writeZerosLoop_holds count count (Nat.le_refl count) h
  have hone := BitWriter.Holds.writeBits hzeros 1 1
  rw [List.append_assoc] at hone
  exact hone

/-- The bits of the stream: those written, and zeros up to a whole byte. -/
theorem BitWriter.Holds.finish {w : BitWriter} {bits : List Bool} (h : w.Holds bits) :
    ∃ pad, pad < 8 ∧ ofBytes w.finish = bits ++ List.replicate pad false := by
  obtain ⟨tail, hlen, hused, hcur, hbits⟩ := h
  unfold BitWriter.finish
  by_cases hpos : 0 < w.bitsUsed
  · refine ⟨8 - tail.length, by omega, ?_⟩
    rw [if_pos hpos, ofBytes_append, hcur, ofBytes_register (by omega), hbits, List.append_assoc]
  · have htail : tail = [] := List.eq_nil_of_length_eq_zero (by omega)
    refine ⟨0, by decide, ?_⟩
    rw [if_neg hpos, hbits, htail, List.replicate_zero, List.append_nil, List.append_nil]

/-! ## The numbers of the bit buffer -/

/-- The bits in the buffer and the bytes behind it. -/
structure Counter where
  nbits : Nat
  left : Nat
  deriving DecidableEq, Repr

def Counter.refillWords : Nat → Counter → Counter
  | 0, x => x
  | fuel + 1, x => if x.nbits ≤ 32 ∧
    4 ≤ x.left then refillWords fuel ⟨x.nbits + 32, x.left - 4⟩ else x

def Counter.refillBytes : Nat → Counter → Counter
  | 0, x => x
  | fuel + 1, x => if x.nbits ≤ 56 ∧
    0 < x.left then refillBytes fuel ⟨x.nbits + 8, x.left - 1⟩ else x

def Counter.refill (x : Counter) : Counter := (x.refillWords 2).refillBytes 8

/-- A refill keeps the bits of the stream, fills the buffer or comes to the end. -/
theorem Counter.refillWords_spec :
    ∀ (fuel : Nat) {x : Counter}, x.nbits ≤ 64 →
      (x.refillWords fuel).nbits ≤ 64 ∧ x.nbits ≤ (x.refillWords fuel).nbits ∧
        (x.refillWords fuel).nbits + 8 * (x.refillWords fuel).left = x.nbits + 8 * x.left := by
  intro fuel
  induction fuel with
  | zero => exact fun h => ⟨h, Nat.le_refl _, rfl⟩
  | succ fuel ih =>
    intro x h
    rw [refillWords]
    split_ifs with hmore
    · obtain ⟨h1, h2, h3⟩ := ih (x := ⟨x.nbits + 32, x.left - 4⟩) (by dsimp only; omega)
      dsimp only at h2 h3
      exact ⟨h1, by omega, by omega⟩
    · exact ⟨h, Nat.le_refl _, rfl⟩

theorem Counter.refillBytes_spec :
    ∀ (fuel : Nat) {x : Counter}, x.nbits ≤ 64 → 56 < x.nbits + 8 * fuel →
      (x.refillBytes fuel).nbits ≤ 64 ∧ x.nbits ≤ (x.refillBytes fuel).nbits ∧
        (x.refillBytes fuel).nbits + 8 * (x.refillBytes fuel).left = x.nbits + 8 * x.left ∧
        (56 < (x.refillBytes fuel).nbits ∨ (x.refillBytes fuel).left = 0) := by
  intro fuel
  induction fuel with
  | zero =>
    intro x h hfuel
    exact ⟨h, Nat.le_refl _, rfl, Or.inl (by rw [refillBytes]; omega)⟩
  | succ fuel ih =>
    intro x h hfuel
    rw [refillBytes]
    split_ifs with hmore
    · obtain ⟨h1, h2, h3, h4⟩ := ih (x := ⟨x.nbits + 8, x.left - 1⟩) (by dsimp only; omega)
        (by dsimp only; omega)
      dsimp only at h2 h3
      exact ⟨h1, by omega, by omega, h4⟩
    · exact ⟨h, Nat.le_refl _, rfl, by omega⟩

theorem Counter.refill_spec {x : Counter} (h : x.nbits ≤ 64) :
    x.refill.nbits ≤ 64 ∧ x.nbits ≤ x.refill.nbits ∧
      x.refill.nbits + 8 * x.refill.left = x.nbits + 8 * x.left ∧
      (56 < x.refill.nbits ∨ x.refill.left = 0) := by
  obtain ⟨h1, h2, h3⟩ := refillWords_spec 2 h
  obtain ⟨h4, h5, h6, h7⟩ := refillBytes_spec 8 h1 (by omega)
  exact ⟨h4, h2.trans h5, h6.trans h3, h7⟩

/-- `n` bits are taken, after a refill where there are fewer. -/
def Counter.take (n : Nat) (x : Counter) : Counter :=
  if x.nbits < n then ⟨x.refill.nbits - n, x.refill.left⟩ else ⟨x.nbits - n, x.left⟩

/-- Zeros and a one are taken: `none` where the reader gives up, which is when the
zeros of the buffers that it has used up are more than 1024. -/
def Counter.unary : Nat → Counter → Nat → Nat → Option Counter
  | 0, _, _, _ => none
  | fuel + 1, x, zeros, drained =>
    if zeros < x.nbits then some ⟨x.nbits - (zeros + 1), x.left⟩
    else if 1024 < drained + x.nbits then none
    else unary fuel (refill ⟨0, x.left⟩) (zeros - x.nbits) (drained + x.nbits)

/-! ## The reader -/

/-- The bits in front of the reader: those at the upper end of the buffer and those
of the bytes behind it. -/
def BitBuf.Holds (c : Bytes) (s : BitBuf) (bits : List Bool) : Prop :=
  ∃ front, front.length = s.nbits ∧ s.nbits ≤ 64 ∧ s.buf = aligned 64 front ∧ s.pos ≤ c.length ∧
    bits = front ++ ofBytes (c.drop s.pos)

def BitBuf.counter (c : Bytes) (s : BitBuf) : Counter := ⟨s.nbits, c.length - s.pos⟩

theorem BitBuf.Holds.bits_length {c : Bytes} {s : BitBuf} {bits : List Bool} (h : s.Holds c bits) :
    bits.length = (s.counter c).nbits + 8 * (s.counter c).left := by
  obtain ⟨front, hlen, -, -, -, hbits⟩ := h
  rw [hbits, List.length_append, ofBytes_length, List.length_drop, hlen,
    BitBuf.counter, Nat.mul_comm]

/-- Bytes of the stream move into the buffer. -/
theorem BitBuf.Holds.load {c : Bytes} {s : BitBuf} {bits : List Bool} (h : s.Holds c bits) {k : Nat}
    (hk : s.pos + k ≤ c.length) (hroom : s.nbits + 8 * k ≤ 64) :
    BitBuf.Holds c ⟨s.buf ||| fromBe (slice c s.pos k) * 2 ^ (64 - s.nbits - 8 * k),
      s.nbits + 8 * k, s.pos + k⟩ bits := by
  obtain ⟨front, hlen, hle, hbuf, hpos, hbits⟩ := h
  have hslice : (slice c s.pos k).length = k := by
    rw [slice_length]
    omega
  have hsplit : c.drop s.pos = slice c s.pos k ++ c.drop (s.pos + k) := by
    rw [slice, ← List.drop_drop, List.take_append_drop]
  have hlen' : (front ++ ofBytes (slice c s.pos k)).length = s.nbits + 8 * k := by
    rw [List.length_append, hlen, ofBytes_length, hslice, Nat.mul_comm]
  have hor := aligned_or (w := 64) (a := front) (b := ofBytes (slice c s.pos k)) (by omega)
  rw [bitsVal_ofBytes, hlen, ofBytes_length, hslice, Nat.mul_comm k] at hor
  refine ⟨front ++ ofBytes (slice c s.pos k), hlen', hroom, ?_, hk, ?_⟩
  · dsimp only
    rw [hbuf, hor]
  · rw [hbits, hsplit, ofBytes_append, List.append_assoc]

theorem refillWords_holds :
    ∀ (fuel : Nat) {c : Bytes} {s : BitBuf} {bits : List Bool}, s.Holds c bits →
      (refillWords c fuel s).Holds c bits ∧
        (refillWords c fuel s).counter c = (s.counter c).refillWords fuel := by
  intro fuel
  induction fuel with
  | zero => exact fun h => ⟨h, rfl⟩
  | succ fuel ih =>
    intro c s bits h
    rw [refillWords, Counter.refillWords]
    by_cases hmore : s.nbits ≤ 32 ∧ s.pos + 4 ≤ c.length
    · have hload := h.load (k := 4) hmore.2 (by omega)
      rw [show 64 - s.nbits - 8 * 4 = 32 - s.nbits by omega] at hload
      rw [if_pos hmore, if_pos (by unfold BitBuf.counter; dsimp only; omega)]
      have hnext := ih hload
      refine ⟨hnext.1, hnext.2.trans ?_⟩
      unfold BitBuf.counter
      dsimp only
      rw [Nat.sub_sub]
    · rw [if_neg hmore, if_neg (by unfold BitBuf.counter; dsimp only; omega)]
      exact ⟨h, rfl⟩

theorem refillBytes_holds :
    ∀ (fuel : Nat) {c : Bytes} {s : BitBuf} {bits : List Bool}, s.Holds c bits →
      (refillBytes c fuel s).Holds c bits ∧
        (refillBytes c fuel s).counter c = (s.counter c).refillBytes fuel := by
  intro fuel
  induction fuel with
  | zero => exact fun h => ⟨h, rfl⟩
  | succ fuel ih =>
    intro c s bits h
    rw [refillBytes, Counter.refillBytes]
    by_cases hmore : s.nbits ≤ 56 ∧ s.pos < c.length
    · have hload := h.load (k := 1) hmore.2 (by omega)
      have hbyte : fromBe (slice c s.pos 1) = (c.getD s.pos 0).toNat := by
        rw [slice, List.drop_eq_getElem_cons hmore.2, List.take_succ_cons, List.take_zero]
        simp [fromBe, hmore.2]
      rw [hbyte, show 64 - s.nbits - 8 * 1 = 56 - s.nbits by omega] at hload
      rw [if_pos hmore, if_pos (by unfold BitBuf.counter; dsimp only; omega)]
      have hnext := ih hload
      refine ⟨hnext.1, hnext.2.trans ?_⟩
      unfold BitBuf.counter
      dsimp only
      rw [Nat.sub_sub]
    · rw [if_neg hmore, if_neg (by unfold BitBuf.counter; dsimp only; omega)]
      exact ⟨h, rfl⟩

theorem refill_holds {c : Bytes} {s : BitBuf} {bits : List Bool} (h : s.Holds c bits) :
    (refill c s).Holds c bits ∧ (refill c s).counter c = (s.counter c).refill := by
  obtain ⟨h1, h2⟩ := refillWords_holds 2 h
  obtain ⟨h3, h4⟩ := refillBytes_holds 8 h1
  rw [h2] at h4
  exact ⟨h3, h4⟩

/-- Bits that are in the buffer, and those behind them. -/
theorem BitBuf.Holds.front {c : Bytes} {s : BitBuf} {a rest : List Bool} (h : s.Holds c (a ++ rest))
    (hle : a.length ≤ s.nbits) :
    ∃ b, a.length + b.length = s.nbits ∧ s.nbits ≤ 64 ∧ s.buf = aligned 64 (a ++ b) ∧
      s.pos ≤ c.length ∧ rest = b ++ ofBytes (c.drop s.pos) := by
  obtain ⟨front, hlen, hle64, hbuf, hpos, hbits⟩ := h
  have hcut := congrArg (List.take a.length) hbits
  rw [List.take_left, List.take_append_of_le_length (by omega)] at hcut
  have hfront : front = a ++ front.drop a.length := by
    refine (List.take_append_drop a.length front).symm.trans ?_
    rw [← hcut]
  refine ⟨front.drop a.length, ?_, hle64, ?_, hpos, ?_⟩
  · rw [List.length_drop]
    omega
  · rw [← hfront]
    exact hbuf
  · rw [hfront, List.append_assoc] at hbits
    exact List.append_cancel_left hbits

theorem takeBits_holds {c : Bytes} {s : BitBuf} {a rest : List Bool} (h : s.Holds c (a ++ rest))
    (hle : a.length ≤ s.nbits) :
    (takeBits a.length s).1 = bitsVal a ∧ (takeBits a.length s).2.Holds c rest ∧
      (takeBits a.length s).2.counter c = ⟨s.nbits - a.length, (s.counter c).left⟩ := by
  obtain ⟨b, hlen, hle64, hbuf, hpos, hrest⟩ := h.front hle
  have hab : (a ++ b).length ≤ 64 := by
    rw [List.length_append]
    omega
  refine ⟨?_, ⟨b, ?_, ?_, ?_, hpos, hrest⟩, rfl⟩
  · rw [takeBits, hbuf]
    exact aligned_take hab
  · show b.length = s.nbits - a.length
    omega
  · show s.nbits - a.length ≤ 64
    omega
  · show s.buf * 2 ^ a.length % 2 ^ 64 = aligned 64 b
    rw [hbuf]
    exact aligned_drop hab

/-- A field is read. -/
theorem readField_holds {c : Bytes} {s : BitBuf} {a rest : List Bool} (h : s.Holds c (a ++ rest))
    (message : Str) (hle : a.length ≤ 56) :
    ∃ s', readField c message a.length s = .ok (bitsVal a, s') ∧ s'.Holds c rest ∧
      s'.counter c = (s.counter c).take a.length := by
  have htotal := h.bits_length
  rw [List.length_append] at htotal
  unfold readField Counter.take
  by_cases hfew : s.nbits < a.length
  · obtain ⟨hrefill, hcount⟩ := refill_holds h
    have hle64 : (s.counter c).nbits ≤ 64 := h.choose_spec.2.1
    obtain ⟨-, -, hsum, hfull⟩ := Counter.refill_spec hle64
    have hnbits : (refill c s).nbits = (s.counter c).refill.nbits := congrArg Counter.nbits hcount
    obtain ⟨hval, hrest, hcount'⟩ := takeBits_holds hrefill (by omega)
    rw [if_pos hfew, if_neg (by omega), if_pos (show (s.counter c).nbits < a.length from hfew)]
    refine ⟨(takeBits a.length (refill c s)).2, ?_, hrest, ?_⟩
    · rw [← hval]
    · rw [hcount', hcount, hnbits]
  · obtain ⟨hval, hrest, hcount⟩ := takeBits_holds h (by omega)
    rw [if_neg hfew, if_neg (show ¬ (s.counter c).nbits < a.length from hfew)]
    exact ⟨(takeBits a.length s).2, by rw [← hval], hrest, hcount⟩

/-- Zeros and a one in front of the reader: it reads them or gives up, as the numbers
of the buffer say. -/
theorem readUnary_holds :
    ∀ (fuel : Nat) {c : Bytes} {s : BitBuf} {rest : List Bool} {zeros : Nat} (drained : Nat),
      s.Holds c (List.replicate zeros false ++ true :: rest) → (s.counter c).left + 1 ≤ fuel →
      (∀ x, (s.counter c).unary fuel zeros drained = some x →
        ∃ s', readUnary c fuel s drained = .ok (drained + zeros, s') ∧ s'.Holds c rest ∧
          s'.counter c = x) ∧
      ((s.counter c).unary fuel zeros drained = none → ∃ e, readUnary c fuel s drained =
        .error e) := by
  intro fuel
  induction fuel with
  | zero =>
    intro c s rest zeros drained _ hfuel
    exact absurd hfuel (Nat.not_succ_le_zero _)
  | succ fuel ih =>
    intro c s rest zeros drained h hfuel
    rw [readUnary, Counter.unary]
    dsimp only
    have htotal := h.bits_length
    rw [List.length_append, List.length_replicate, List.length_cons] at htotal
    by_cases hfew : zeros < (s.counter c).nbits
    · -- the one is in the buffer
      have hone : s.Holds c ((List.replicate zeros false ++ [true]) ++ rest) := by
        rw [List.append_assoc]
        exact h
      have hlen1 : (List.replicate zeros false ++ [true]).length = zeros + 1 := by simp
      obtain ⟨b, hlen, hle64, hbuf, hpos, hrest⟩ := hone.front (by rw [hlen1]; exact hfew)
      rw [hlen1] at hlen
      rw [List.append_assoc, List.singleton_append] at hbuf
      obtain ⟨hne, hlz⟩ := leadingZeros_aligned (w := 64) (z := zeros) (b := b) (by omega)
      have hshift : s.buf * 2 ^ zeros % 2 ^ 64 * 2 % 2 ^ 64 = aligned 64 b := by
        have h1 := aligned_drop (w := 64) (a := List.replicate zeros false) (b := true :: b)
          (by simp; omega)
        have h2 := aligned_drop (w := 64) (a := [true]) (b := b) (by simp; omega)
        rw [List.length_replicate] at h1
        rw [List.singleton_append, List.length_singleton, Nat.pow_one] at h2
        rw [hbuf, h1, h2]
      rw [if_pos hfew, if_neg (by rw [hbuf]; exact hne), hbuf, hlz, ← hbuf, hshift]
      refine ⟨fun x hx => ?_, fun hnone => ?_⟩
      swap
      · cases hnone
      rw [← Option.some.inj hx]
      refine ⟨_, rfl, ⟨b, ?_, ?_, rfl, hpos, hrest⟩, rfl⟩
      · dsimp only
        omega
      · dsimp only
        omega
    · -- the buffer has only zeros
      have hle : s.nbits ≤ zeros := Nat.not_lt.1 hfew
      have hzeros : s.Holds c (List.replicate s.nbits false ++
          (List.replicate (zeros - s.nbits) false ++ true :: rest)) := by
        rw [← List.append_assoc, ← List.replicate_add, Nat.add_sub_of_le hle]
        exact h
      obtain ⟨b, hlen, -, hbuf, hpos, hrest⟩ := hzeros.front (by rw [List.length_replicate])
      have hb : b = [] := by
        rw [List.length_replicate] at hlen
        exact List.eq_nil_of_length_eq_zero (by omega)
      rw [hb, List.append_nil, aligned_zeros] at hbuf
      rw [hb, List.nil_append] at hrest
      have hempty : BitBuf.Holds c ⟨s.buf, 0, s.pos⟩
          (List.replicate (zeros - s.nbits) false ++ true :: rest) :=
        ⟨[], rfl, Nat.zero_le _, hbuf, hpos, hrest⟩
      rw [if_neg hfew, if_pos hbuf]
      by_cases hmany : 1024 < drained + s.nbits
      · rw [if_pos (show 1024 < drained + (s.counter c).nbits from hmany), if_pos hmany]
        refine ⟨fun x hx => ?_, fun _ => ⟨_, rfl⟩⟩
        cases hx
      · obtain ⟨hrefill, hcount⟩ := refill_holds hempty
        have hcount' : (BitBuf.counter c ⟨s.buf, 0, s.pos⟩) = ⟨0, (s.counter c).left⟩ := rfl
        rw [hcount'] at hcount
        obtain ⟨-, -, hsum, hfull⟩ := Counter.refill_spec (x := ⟨0, (s.counter c).left⟩) (by simp)
        rw [← hcount] at hsum hfull
        have hmore : 0 < (s.counter c).left := by
          have := hempty.bits_length
          rw [hcount', List.length_append, List.length_cons] at this
          dsimp only at this
          omega
        have hnbits : (refill c ⟨s.buf, 0, s.pos⟩).nbits =
            ((refill c ⟨s.buf, 0, s.pos⟩).counter c).nbits := rfl
        rw [if_neg (show ¬ 1024 < drained + (s.counter c).nbits from hmany), if_neg hmany,
          if_neg (by dsimp only at hsum; omega), ← hcount]
        have hnext := ih (drained + s.nbits) hrefill (by dsimp only at hsum; omega)
        rw [show drained + s.nbits + (zeros - s.nbits) = drained + zeros by omega] at hnext
        exact hnext

/-! ### The limit of the reader -/

/-- The bits that a reader has in front of it. -/
def Counter.total (x : Counter) : Nat := x.nbits + 8 * x.left

theorem Counter.take_spec {x : Counter} {n : Nat} (h : x.nbits ≤ 64) (hn : n ≤ 56)
    (htotal : n ≤ x.total) : (x.take n).nbits ≤ 64 ∧ (x.take n).total + n = x.total := by
  obtain ⟨h1, -, hsum, hfull⟩ := refill_spec h
  unfold take total at *
  split_ifs with hfew
  · dsimp only
    omega
  · dsimp only
    omega

/-- Up to 1024 zeros are read wherever they stand. -/
theorem Counter.unary_eq_some :
    ∀ (fuel : Nat) {x : Counter} (zeros drained : Nat), x.nbits ≤ 64 → zeros < x.total →
      x.left + 1 ≤ fuel → drained + zeros ≤ 1024 →
      ∃ y, x.unary fuel zeros drained = some y ∧ y.nbits ≤ 64 ∧ y.left ≤ x.left ∧
        y.total + (zeros + 1) = x.total := by
  intro fuel
  induction fuel with
  | zero =>
    intro x zeros drained _ _ hfuel _
    exact absurd hfuel (Nat.not_succ_le_zero _)
  | succ fuel ih =>
    intro x zeros drained hle htotal hfuel hfew
    unfold total at htotal
    rw [unary]
    by_cases hin : zeros < x.nbits
    · refine ⟨_, if_pos hin, ?_, Nat.le_refl _, ?_⟩
      · dsimp only
        omega
      · unfold total
        dsimp only
        omega
    · obtain ⟨h1, -, hsum, hfull⟩ := refill_spec (x := ⟨0, x.left⟩) (by simp)
      dsimp only at hsum
      rw [if_neg hin, if_neg (by omega)]
      obtain ⟨y, hy, hy64, hleft, hyt⟩ := ih (x := refill ⟨0, x.left⟩) (zeros - x.nbits)
        (drained + x.nbits) h1 (by unfold total; omega) (by omega) (by omega)
      refine ⟨y, hy, hy64, by omega, ?_⟩
      unfold total at hyt ⊢
      omega

/-- From 1088 zeros on the reader gives up wherever they stand. -/
theorem Counter.unary_eq_none :
    ∀ (fuel : Nat) {x : Counter} {zeros drained : Nat}, x.nbits ≤ 64 → drained ≤ 1024 →
      1088 ≤ drained + zeros → x.unary fuel zeros drained = none := by
  intro fuel
  induction fuel with
  | zero =>
    intro x zeros drained _ _ _
    rfl
  | succ fuel ih =>
    intro x zeros drained hle hdrained hmany
    rw [unary, if_neg (by omega)]
    by_cases hstop : 1024 < drained + x.nbits
    · exact if_pos hstop
    · obtain ⟨h1, -⟩ := refill_spec (x := ⟨0, x.left⟩) (by simp)
      rw [if_neg hstop]
      exact ih h1 (by omega) (by omega)

end RustFits.Zimage.Rice
