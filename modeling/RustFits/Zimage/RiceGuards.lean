import RustFits.Zimage.RiceRefine
import RustFits.Lib.Outcome

/-!
# The RICE decoders with their guards

The decoders of `zimage/rice.rs` with every index, every shift and every sum of 32-bit
counters guarded (`Outcome`), and the pixels written into the bytes of the output.
Positions in a slice are below the length of a slice and are not guarded; pixels of 64
bits wrap, but the negation of `unzigzag` is guarded.

Each guarded function agrees with the plain one: that the counters stay in step with the
bits of the buffer is `BitBuf.Valid`.
-/

namespace RustFits.Zimage.Rice

open Ascii ByteFile Machine BigEndian BitStream Outcome

namespace Guarded

/-! ## The bit buffer -/

def refillWords (c : Bytes) : Nat → BitBuf → Outcome PyErr BitBuf
  | 0, _ => .fault
  | fuel + 1, s =>
    if s.nbits ≤ 32 ∧ s.pos + 4 ≤ c.length then do
      let b0 ← getAt c s.pos
      let b1 ← getAt c (s.pos + 1)
      let b2 ← getAt c (s.pos + 2)
      let b3 ← getAt c (s.pos + 3)
      let room ← subWord 32 s.nbits
      let w ← shiftLeft 64 (fromBe [b0, b1, b2, b3]) room
      let nbits ← addWord 32 s.nbits 32
      refillWords c fuel ⟨s.buf ||| w, nbits, s.pos + 4⟩
    else .ok s

def refillBytes (c : Bytes) : Nat → BitBuf → Outcome PyErr BitBuf
  | 0, _ => .fault
  | fuel + 1, s =>
    if s.nbits ≤ 56 ∧ s.pos < c.length then do
      let b ← getAt c s.pos
      let room ← subWord 56 s.nbits
      let w ← shiftLeft 64 b.toNat room
      let nbits ← addWord 32 s.nbits 8
      refillBytes c fuel ⟨s.buf ||| w, nbits, s.pos + 1⟩
    else .ok s

/-- `refill`. -/
def refill (c : Bytes) (s : BitBuf) : Outcome PyErr BitBuf := do
  let s ← refillWords c 3 s
  refillBytes c 9 s

def takeBits (n : Nat) (s : BitBuf) : Outcome PyErr (Nat × BitBuf) := do
  let down ← subWord 64 n
  let v ← shiftRight 64 s.buf down
  let buf ← shiftLeft 64 s.buf n
  let nbits ← subWord s.nbits n
  .ok (v, ⟨buf, nbits, s.pos⟩)

def readField (c : Bytes) (message : Str) (n : Nat) (s : BitBuf) : Outcome PyErr (Nat × BitBuf) :=
  if s.nbits < n then do
    let s ← refill c s
    if s.nbits < n then .error (.value message) else takeBits n s
  else takeBits n s

def readUnary (c : Bytes) : Nat → BitBuf → Nat → Outcome PyErr (Nat × BitBuf)
  | 0, _, _ => .fault
  | fuel + 1, s, nzero =>
    if s.buf = 0 then do
      let nzero ← addWord 32 nzero s.nbits
      if 1024 < nzero then
        .error (.value (str "RICE decode: unary code exceeded 1024 zeros (corrupt stream)"))
      else do
        let s ← refill c ⟨s.buf, 0, s.pos⟩
        if s.nbits = 0 then .error (.value (str "RICE decode: unexpected end of stream (unary)"))
        else readUnary c fuel s nzero
    else do
      let lz := leadingZeros 64 s.buf
      let nzero ← addWord 32 nzero lz
      let buf ← shiftLeft 64 s.buf lz
      let buf ← shiftLeft 64 buf 1
      let used ← addWord 32 lz 1
      let nbits ← subWord s.nbits used
      .ok (nzero, ⟨buf, nbits, s.pos⟩)

end Guarded

/-- The counters are in step with the bits of the buffer. -/
def BitBuf.Valid (c : Bytes) (s : BitBuf) : Prop := ∃ bits, s.Holds c bits

theorem BitBuf.Valid.nbits_le {c : Bytes} {s : BitBuf} (h : s.Valid c) : s.nbits ≤ 64 :=
  h.choose_spec.choose_spec.2.1

theorem refill_valid {c : Bytes} {s : BitBuf} (h : s.Valid c) : (refill c s).Valid c :=
  h.imp fun _ hs => (refill_holds hs).1

theorem takeBits_valid {c : Bytes} {s : BitBuf} (h : s.Valid c) {n : Nat} (hn : n ≤ s.nbits) :
    (takeBits n s).2.Valid c ∧ (takeBits n s).1 < 2 ^ n := by
  obtain ⟨bits, front, hlen, hle, hbuf, hpos, hbits⟩ := h
  have hs : s.Holds c (front.take n ++ (front.drop n ++ ofBytes (c.drop s.pos))) :=
    ⟨front, hlen, hle, hbuf, hpos, by rw [← List.append_assoc, List.take_append_drop]⟩
  have htake : (front.take n).length = n := List.length_take_of_le (by omega)
  have htaken := takeBits_holds hs (by omega)
  rw [htake] at htaken
  obtain ⟨hval, hvalid, -⟩ := htaken
  have hlt := bitsVal_lt (front.take n)
  rw [htake, ← hval] at hlt
  exact ⟨⟨_, hvalid⟩, hlt⟩

/-- A register that is not zero has a one among the bits that it holds. -/
theorem exists_one_of_aligned_ne_zero {w : Nat} {bits : List Bool} (h : aligned w bits ≠ 0) :
    ∃ zeros rest, bits = List.replicate zeros false ++ true :: rest := by
  induction bits with
  | nil => exact absurd (by rw [aligned, bitsVal, Nat.zero_mul]) h
  | cons b bits ih =>
    cases b with
    | true => exact ⟨0, bits, rfl⟩
    | false =>
      have hval : bitsVal (false :: bits) = bitsVal bits := by
        rw [bitsVal, if_neg (by decide), Nat.zero_add]
      have hne : aligned w bits ≠ 0 := by
        intro hzero
        have hbits : bitsVal bits = 0 :=
          (Nat.mul_eq_zero.1 hzero).resolve_right (Nat.ne_of_gt (Nat.two_pow_pos _))
        exact h (by rw [aligned, hval, hbits, Nat.zero_mul])
      obtain ⟨zeros, rest, hrest⟩ := ih hne
      exact ⟨zeros + 1, rest, by rw [hrest, List.replicate_succ]; rfl⟩

/-- The zeros in front of a one, and what is left behind it. -/
theorem BitBuf.Valid.leadingZeros {c : Bytes} {s : BitBuf} (h : s.Valid c) (hne : s.buf ≠ 0) :
    leadingZeros 64 s.buf + 1 ≤ s.nbits ∧
      BitBuf.Valid c ⟨s.buf * 2 ^ leadingZeros 64 s.buf % 2 ^ 64 * 2 % 2 ^ 64,
        s.nbits - (leadingZeros 64 s.buf + 1), s.pos⟩ := by
  obtain ⟨bits, front, hlen, hle, hbuf, hpos, hbits⟩ := h
  rw [hbuf] at hne ⊢
  obtain ⟨zeros, rest, hfront⟩ := exists_one_of_aligned_ne_zero hne
  rw [hfront] at hlen ⊢
  rw [List.length_append, List.length_replicate, List.length_cons] at hlen
  obtain ⟨-, hlz⟩ := leadingZeros_aligned (w := 64) (z := zeros) (b := rest) (by omega)
  rw [hlz]
  refine ⟨by omega, rest ++ ofBytes (c.drop s.pos),
    rest, by dsimp only; omega, by dsimp only; omega, ?_, hpos, rfl⟩
  have hzeros :=
    aligned_drop (w := 64) (a := List.replicate zeros false) (b := true :: rest) (by simp; omega)
  have hone := aligned_drop (w := 64) (a := [true]) (b := rest) (by simp; omega)
  rw [List.length_replicate] at hzeros
  rw [List.singleton_append, List.length_singleton, Nat.pow_one] at hone
  show aligned 64 (List.replicate zeros false ++ true :: rest) * 2 ^ zeros % 2 ^ 64 * 2 % 2 ^ 64 =
    aligned 64 rest
  rw [hzeros, hone]

theorem slice_four {c : Bytes} {i : Nat} (h : i + 4 ≤ c.length) :
    slice c i 4 = [c.getD i 0, c.getD (i + 1) 0, c.getD (i + 2) 0, c.getD (i + 3) 0] := by
  have hget : ∀ j, i ≤ j → j < i + 4 → c.drop j = c.getD j 0 :: c.drop (j + 1) := by
    intro j _ hj
    rw [List.drop_eq_getElem_cons (show j < c.length by omega)]
    simp [show j < c.length by omega]
  rw [slice, hget i (by omega) (by omega), hget (i + 1) (by omega) (by omega),
    hget (i + 2) (by omega) (by omega), hget (i + 3) (by omega) (by omega)]
  rfl

theorem Guarded.refillWords_eq {c : Bytes} :
    ∀ (fuel : Nat) {s : BitBuf}, 32 < s.nbits + 32 * fuel → s.nbits ≤ 64 →
      Guarded.refillWords c (fuel + 1) s = .ok (Rice.refillWords c fuel s) := by
  intro fuel
  induction fuel with
  | zero =>
    intro s hfuel _
    rw [refillWords, if_neg (by omega), Rice.refillWords]
  | succ fuel ih =>
    intro s hfuel hle
    rw [refillWords, Rice.refillWords]
    by_cases hmore : s.nbits ≤ 32 ∧ s.pos + 4 ≤ c.length
    · have hword : fromBe (slice c s.pos 4) * 2 ^ (32 - s.nbits) < 2 ^ 64 := by
        have hlt : fromBe (slice c s.pos 4) < 256 ^ 4 := fromBe_lt (by rw [slice_length]; omega)
        have hpow : 2 ^ (32 - s.nbits) ≤ 2 ^ 32 := Nat.pow_le_pow_right (by decide) (Nat.sub_le _ _)
        calc fromBe (slice c s.pos 4) * 2 ^ (32 - s.nbits)
            ≤ fromBe (slice c s.pos 4) * 2 ^ 32 := Nat.mul_le_mul_left _ hpow
          _ < 2 ^ 64 := by omega
      rw [if_pos hmore, if_pos hmore, getAt_of_lt (by omega) 0, getAt_of_lt (by omega) 0,
        getAt_of_lt (by omega) 0, getAt_of_lt (by omega) 0]
      simp only [ok_bind]
      rw [← slice_four hmore.2, subWord_of_le hmore.1, ok_bind, shiftLeft_of_lt (by omega), ok_bind,
        addWord_of_lt (by omega), ok_bind, Nat.mod_eq_of_lt hword]
      exact ih (by dsimp only; omega) (by dsimp only; omega)
    · rw [if_neg hmore, if_neg hmore]

theorem Guarded.refillBytes_eq {c : Bytes} :
    ∀ (fuel : Nat) {s : BitBuf}, 56 < s.nbits + 8 * fuel → s.nbits ≤ 64 →
      Guarded.refillBytes c (fuel + 1) s = .ok (Rice.refillBytes c fuel s) := by
  intro fuel
  induction fuel with
  | zero =>
    intro s hfuel _
    rw [refillBytes, if_neg (by omega), Rice.refillBytes]
  | succ fuel ih =>
    intro s hfuel hle
    rw [refillBytes, Rice.refillBytes]
    by_cases hmore : s.nbits ≤ 56 ∧ s.pos < c.length
    · have hbyte : (c.getD s.pos 0).toNat * 2 ^ (56 - s.nbits) < 2 ^ 64 := by
        have hlt := (c.getD s.pos 0).toNat_lt
        have hpow : 2 ^ (56 - s.nbits) ≤ 2 ^ 56 := Nat.pow_le_pow_right (by decide) (Nat.sub_le _ _)
        calc (c.getD s.pos 0).toNat * 2 ^ (56 - s.nbits)
            ≤ (c.getD s.pos 0).toNat * 2 ^ 56 := Nat.mul_le_mul_left _ hpow
          _ < 2 ^ 64 := by omega
      rw [if_pos hmore, if_pos hmore, getAt_of_lt hmore.2 0, ok_bind,
        subWord_of_le hmore.1, ok_bind,
        shiftLeft_of_lt (by omega), ok_bind, addWord_of_lt (by omega), ok_bind,
        Nat.mod_eq_of_lt hbyte]
      exact ih (by dsimp only; omega) (by dsimp only; omega)
    · rw [if_neg hmore, if_neg hmore]

theorem Guarded.refill_eq {c : Bytes} {s : BitBuf} (h : s.Valid c) :
    Guarded.refill c s = .ok (Rice.refill c s) := by
  have hle := h.nbits_le
  have hwords : (Rice.refillWords c 2 s).nbits ≤ 64 :=
    BitBuf.Valid.nbits_le (h.imp fun _ hs => (refillWords_holds 2 hs).1)
  rw [Guarded.refill, refillWords_eq 2 (by omega) hle, ok_bind, refillBytes_eq 8 (by omega) hwords]
  rfl

theorem Guarded.takeBits_eq {s : BitBuf} {n : Nat} (hpos : 0 < n) (hlt : n < 64)
    (hn : n ≤ s.nbits) :
    Guarded.takeBits n s = .ok (Rice.takeBits n s) := by
  rw [Guarded.takeBits, subWord_of_le hlt.le, ok_bind, shiftRight_of_lt (by omega), ok_bind,
    shiftLeft_of_lt hlt, ok_bind, subWord_of_le hn, ok_bind]
  rfl

theorem Guarded.readField_agrees {c : Bytes} {s : BitBuf} (h : s.Valid c) (message : Str) {n : Nat}
    (hpos : 0 < n) (hlt : n < 64) :
    Agrees (fun r => r.2.Valid c ∧ r.1 < 2 ^ n) (Guarded.readField c message n s)
      (Rice.readField c message n s) := by
  unfold Guarded.readField Rice.readField
  by_cases hfew : s.nbits < n
  · rw [if_pos hfew, if_pos hfew, refill_eq h, ok_bind]
    by_cases hend : (Rice.refill c s).nbits < n
    · rw [if_pos hend, if_pos hend]
      exact .error _
    · rw [if_neg hend, if_neg hend, takeBits_eq hpos hlt (Nat.not_lt.1 hend)]
      exact .ok (takeBits_valid (refill_valid h) (Nat.not_lt.1 hend))
  · rw [if_neg hfew, if_neg hfew, takeBits_eq hpos hlt (Nat.not_lt.1 hfew)]
    exact .ok (takeBits_valid h (Nat.not_lt.1 hfew))

/-- A round that does not end the loop takes bytes of the stream. -/
theorem Guarded.readUnary_agrees {c : Bytes} :
    ∀ (fuel : Nat) {s : BitBuf} {nzero : Nat}, s.Valid c → nzero ≤ 1024 →
      c.length - s.pos + 1 ≤ fuel →
      Agrees (fun r => r.2.Valid c ∧ r.1 < 2048) (Guarded.readUnary c fuel s nzero)
        (Rice.readUnary c fuel s nzero) := by
  intro fuel
  induction fuel with
  | zero =>
    intro s nzero _ _ hfuel
    exact absurd hfuel (Nat.not_succ_le_zero _)
  | succ fuel ih =>
    intro s nzero h hzeros hfuel
    have hle := h.nbits_le
    rw [Guarded.readUnary, Rice.readUnary]
    dsimp only
    by_cases hbuf : s.buf = 0
    · rw [if_pos hbuf, if_pos hbuf, addWord_of_lt (by omega), ok_bind]
      by_cases hmany : 1024 < nzero + s.nbits
      · rw [if_pos hmany, if_pos hmany]
        exact .error _
      have hempty : BitBuf.Valid c ⟨s.buf, 0, s.pos⟩ := by
        obtain ⟨bits, front, hlen, -, -, hpos, -⟩ := h
        exact ⟨ofBytes (c.drop s.pos), [], rfl, Nat.zero_le _, hbuf.trans (by decide), hpos, rfl⟩
      rw [if_neg hmany, if_neg hmany, refill_eq hempty, ok_bind]
      by_cases hend : (Rice.refill c ⟨s.buf, 0, s.pos⟩).nbits = 0
      · rw [if_pos hend, if_pos hend]
        exact .error _
      · rw [if_neg hend, if_neg hend]
        refine ih (refill_valid hempty) (Nat.not_lt.1 hmany) ?_
        -- the bits that came into the buffer came from the stream
        obtain ⟨bits, hholds⟩ := hempty
        have hcount := (refill_holds hholds).2
        obtain ⟨-, -, hsum, -⟩ := Counter.refill_spec (x := ⟨0, c.length - s.pos⟩) (by simp)
        have hstart : BitBuf.counter c ⟨s.buf, 0, s.pos⟩ = ⟨0, c.length - s.pos⟩ := rfl
        rw [hstart] at hcount
        rw [← hcount] at hsum
        unfold BitBuf.counter at hsum
        dsimp only at hsum
        omega
    · obtain ⟨hused, hvalid⟩ := h.leadingZeros hbuf
      rw [if_neg hbuf, if_neg hbuf, addWord_of_lt (by omega), ok_bind,
        shiftLeft_of_lt (by omega), ok_bind,
        shiftLeft_of_lt (by omega), ok_bind, addWord_of_lt (by omega), ok_bind,
        subWord_of_le hused, ok_bind, Nat.pow_one]
      exact .ok ⟨hvalid, by dsimp only; omega⟩

/-! ## Blocks and pixels -/

namespace Guarded

def readRaw (c : Bytes) (bbits : Nat) (s : BitBuf) : Outcome PyErr (Nat × BitBuf) :=
  readField c (str "RICE decode: unexpected end of stream (raw)") bbits s

def readSplit (c : Bytes) (fs : Nat) (s : BitBuf) : Outcome PyErr (Nat × BitBuf) := do
  let (nzero, s) ← readUnary c (c.length + 2) s 0
  let top ← shiftLeft 64 nzero fs
  if fs = 0 then .ok (top % 2 ^ 32, s)
  else do
    let (bottom, s) ← readField c (str "RICE decode: unexpected end of stream (rice tail)") fs s
    .ok (top % 2 ^ 32 ||| bottom, s)

/-- `write_at`, for an output width. -/
def writeAt (littleEndian : Bool) (width : Nat) (out : Bytes) (k : Nat) (v : Int) :
    Outcome PyErr Bytes :=
  putAt out (k * width) (toNeBytes littleEndian width v)

/-- The loop over the pixels of a constant block. -/
def fillPixels (writeAt : Bytes → Nat → Int → Outcome PyErr Bytes) (lastpix : Int) :
    Nat → Nat → Bytes → Outcome PyErr Bytes
  | 0, _, out => .ok out
  | count + 1, k, out => do
    let out ← writeAt out k lastpix
    fillPixels writeAt lastpix count (k + 1) out

/-- The loop over the pixels of a block with differences. -/
def readPixels (writeAt : Bytes → Nat → Int → Outcome PyErr Bytes)
    (readDiff : BitBuf → Outcome PyErr (Nat × BitBuf)) :
    Nat → Nat → BitBuf → Int → Bytes → Outcome PyErr ((Bytes × Int) × BitBuf)
  | 0, _, s, lastpix, out => .ok ((out, lastpix), s)
  | count + 1, k, s, lastpix, out => do
    let (diff, s) ← readDiff s
    let lastpix := asI32 (lastpix + unzigzag diff)
    let out ← writeAt out k lastpix
    readPixels writeAt readDiff count (k + 1) s lastpix out

/-- The block of the pixels from `i` to `imax`. -/
def readBlock (writeAt : Bytes → Nat → Int → Outcome PyErr Bytes) (c : Bytes) (p : Params)
    (i imax : Nat)
    (s : BitBuf) (lastpix : Int) (out : Bytes) : Outcome PyErr ((Bytes × Int) × BitBuf) := do
  let (storedFs, s) ← readField c
      (str "RICE decode: unexpected end of stream reading fs") p.fsbits s
  let fs ← signed 31 ((storedFs : Int) - 1)
  if fs < 0 then do
    let out ← fillPixels writeAt lastpix (imax - i) i out
    .ok ((out, lastpix), s)
  else if fs.toNat = p.fsmax then readPixels writeAt (readRaw c p.bbits) (imax - i) i s lastpix out
  else readPixels writeAt (readSplit c fs.toNat) (imax - i) i s lastpix out

/-- The loop over the blocks. -/
def readBlocks (writeAt : Bytes → Nat → Int → Outcome PyErr Bytes) (c : Bytes) (p : Params)
    (nblock nx : Nat) :
    Nat → Nat → BitBuf → Int → Bytes → Outcome PyErr Bytes
  | 0, _, _, _, _ => .fault
  | fuel + 1, i, s, lastpix, out =>
    if i < nx then do
      let imax := min (i + nblock) nx
      let ((out, lastpix), s) ← readBlock writeAt c p i imax s lastpix out
      readBlocks writeAt c p nblock nx fuel imax s lastpix out
    else .ok out

/-- The first pixel: sign-extended by two shifts. -/
def seedPixel (bbits seed : Nat) : Outcome PyErr Int :=
  if bbits < 32 then do
    let shift ← subWord 32 bbits
    let up ← shiftLeft 32 seed shift
    if shift < 32 then .ok (asI32 up / 2 ^ shift) else .fault
  else .ok (asI32 seed)

/-- `decode_rice_int_u32buf`. -/
def decodeRiceInt (littleEndian : Bool) (c : Bytes) (nx : Nat) (p : Params) (nblock width : Nat)
    (out : Bytes) :
    Outcome PyErr Bytes :=
  let seedBytes := p.bbits / 8
  if c.length < seedBytes + 1 then
    .error (.value (str "RICE decode: input shorter than seed + 1 byte"))
  else do
    let lastpix ← seedPixel p.bbits (fromBe (slice c 0 seedBytes))
    let s ← refill c ⟨0, 0, seedBytes⟩
    readBlocks (writeAt littleEndian width) c p nblock nx (nx + 1) 0 s lastpix out

end Guarded

theorem Guarded.readSplit_agrees {c : Bytes} {s : BitBuf} (h : s.Valid c) {fs : Nat}
    (hfs : fs < 32) :
    Agrees (fun r => r.2.Valid c) (Guarded.readSplit c fs s) (Rice.readSplit c fs s) := by
  have hunary := readUnary_agrees (c.length + 2) h (Nat.zero_le _) (by omega)
  unfold Guarded.readSplit Rice.readSplit
  rw [hunary.eq]
  cases hx : Rice.readUnary c (c.length + 2) s 0 with
  | error e => exact .error e
  | ok r =>
    obtain ⟨nzero, s1⟩ := r
    obtain ⟨hvalid, hlt⟩ := hunary.post _ hx
    dsimp only at hlt
    have hpow : 2 ^ fs ≤ 2 ^ 31 := Nat.pow_le_pow_right (by decide) (by omega)
    have htop : nzero * 2 ^ fs < 2 ^ 64 := by
      calc nzero * 2 ^ fs ≤ nzero * 2 ^ 31 := Nat.mul_le_mul_left _ hpow
        _ < 2 ^ 64 := by omega
    rw [ofExcept_ok, ok_bind]
    dsimp only
    rw [shiftLeft_of_lt (by omega), ok_bind, Nat.mod_eq_of_lt htop]
    by_cases hzero : fs = 0
    · rw [if_pos hzero, if_pos hzero, hzero, Nat.pow_zero, Nat.mul_one]
      exact .ok hvalid
    · have hfield :=
        readField_agrees hvalid (str "RICE decode: unexpected end of stream (rice tail)")
        (Nat.pos_of_ne_zero hzero) (by omega)
      rw [if_neg hzero, if_neg hzero, hfield.eq]
      cases hy :
        Rice.readField c (str "RICE decode: unexpected end of stream (rice tail)") fs s1 with
      | error e => exact .error e
      | ok r =>
        have hrest := hfield.post r hy
        exact .ok hrest.1

/-- The output with the first pixels written. -/
def written (littleEndian : Bool) (width nx : Nat) (px : List Int) : Bytes :=
  px.flatMap (toNeBytes littleEndian width) ++ List.replicate ((nx - px.length) * width) 0

theorem written_all (littleEndian : Bool) (width : Nat) (px : List Int) :
    written littleEndian width px.length px = px.flatMap (toNeBytes littleEndian width) := by
  rw [written, Nat.sub_self, Nat.zero_mul, List.replicate_zero, List.append_nil]

theorem flatMap_toNeBytes_length (littleEndian : Bool) (width : Nat) (px : List Int) :
    (px.flatMap (toNeBytes littleEndian width)).length = px.length * width :=
  flatMap_length_of_width fun _ _ => toNeBytes_length littleEndian width _

theorem Guarded.writeAt_written (littleEndian : Bool) (width : Nat) {nx : Nat} {px : List Int}
    (h : px.length < nx) (v : Int) :
    Guarded.writeAt littleEndian width (written littleEndian width nx px) px.length v =
      .ok (written littleEndian width nx (px ++ [v])) := by
  have hfront := flatMap_toNeBytes_length littleEndian width px
  have hzeros : (nx - px.length) * width = width + (nx - (px.length + 1)) * width := by
    rw [show nx - px.length = nx - (px.length + 1) + 1 by omega, Nat.succ_mul, Nat.add_comm]
  unfold Guarded.writeAt written
  rw [putAt_of_le
    (by rw [List.length_append, hfront, List.length_replicate, toNeBytes_length]; omega),
    toNeBytes_length, ← hfront, List.take_left, List.drop_append, List.drop_of_length_le (by omega),
    Nat.add_sub_cancel_left, List.drop_replicate, hzeros, Nat.add_sub_cancel_left,
    List.flatMap_append,
    List.flatMap_singleton, List.nil_append, List.length_append, List.length_singleton]

/-- Writing the same pixel over and over. -/
theorem Guarded.fillPixels_written (littleEndian : Bool) (width : Nat) {nx : Nat} (lastpix : Int) :
    ∀ (count : Nat) {px : List Int}, px.length + count ≤ nx →
      Guarded.fillPixels (Guarded.writeAt littleEndian width) lastpix count px.length
          (written littleEndian width nx px) =
        .ok (written littleEndian width nx (px ++ List.replicate count lastpix)) := by
  intro count
  induction count with
  | zero =>
    intro px _
    rw [Guarded.fillPixels, List.replicate_zero, List.append_nil]
  | succ count ih =>
    intro px h
    have hnext := @ih (px ++ [lastpix]) (by rw [List.length_append, List.length_singleton]; omega)
    rw [List.length_append, List.length_singleton, List.append_assoc, List.singleton_append,
      ← List.replicate_succ] at hnext
    rw [Guarded.fillPixels, writeAt_written littleEndian width (by omega), ok_bind, hnext]

/-- The pixels of a block go behind those that are written. -/
theorem Guarded.readPixels_tracks {c : Bytes} (littleEndian : Bool) (width : Nat) {nx : Nat}
    {readDiff : BitBuf → Outcome PyErr (Nat × BitBuf)}
    {plainDiff : BitBuf → Except PyErr (Nat × BitBuf)}
    (hdiff : ∀ s : BitBuf, s.Valid c → Agrees (fun r => r.2.Valid c) (readDiff s) (plainDiff s)) :
    ∀ (count : Nat) {px : List Int} {s : BitBuf} (lastpix : Int), s.Valid c →
      px.length + count ≤ nx →
      Tracks (fun a r => a = ((written littleEndian width nx (px ++ r.1.1), r.1.2), r.2) ∧
          r.2.Valid c ∧ r.1.1.length = count)
        (Guarded.readPixels (Guarded.writeAt littleEndian width) readDiff count px.length s lastpix
          (written littleEndian width nx px))
        (Rice.readPixels plainDiff count s lastpix) := by
  intro count
  induction count with
  | zero =>
    intro px s lastpix h _
    refine ⟨_, rfl, ?_, h, rfl⟩
    rw [List.append_nil]
  | succ count ih =>
    intro px s lastpix h hroom
    have hd := hdiff s h
    rw [Guarded.readPixels, Rice.readPixels, hd.eq]
    cases hx : plainDiff s with
    | error e => rfl
    | ok d =>
      obtain ⟨diff, s1⟩ := d
      rw [ofExcept_ok, ok_bind]
      dsimp only
      rw [writeAt_written littleEndian width (by omega), ok_bind]
      have hnext := @ih (px ++ [asI32 (lastpix + unzigzag diff)]) _
        (asI32 (lastpix + unzigzag diff)) (hd.post _ hx)
        (by rw [List.length_append, List.length_singleton]; omega)
      rw [List.length_append, List.length_singleton] at hnext
      cases hy : Rice.readPixels plainDiff count s1 (asI32 (lastpix + unzigzag diff)) with
      | error e => exact hnext.of_error hy
      | ok r =>
        obtain ⟨a, ha, hwritten, hvalid, hlen⟩ := hnext.of_ok hy
        refine ⟨a, ha, ?_, hvalid, ?_⟩
        · rw [hwritten, List.append_assoc, List.singleton_append]
        · rw [List.length_cons, hlen]

/-- One block. -/
theorem Guarded.readBlock_tracks {c : Bytes} {p : Params} {bytepix : Nat} (hp : p.Fit bytepix)
    (hpos : 0 < p.bbits) (littleEndian : Bool) (width : Nat) {nx imax : Nat} {px : List Int}
    (hstart : px.length ≤ imax) (hend : imax ≤ nx) {s : BitBuf} (h : s.Valid c) (lastpix : Int) :
    Tracks (fun a r => a = ((written littleEndian width nx (px ++ r.1.1), r.1.2), r.2) ∧
        r.2.Valid c ∧ r.1.1.length = imax - px.length)
      (Guarded.readBlock (Guarded.writeAt littleEndian width) c p px.length imax s lastpix
        (written littleEndian width nx px))
      (Rice.readBlock c p (imax - px.length) s lastpix) := by
  have hfsbits := hp.fsbits_le
  have hbbits := hp.bbits_le
  have hroom : px.length + (imax - px.length) ≤ nx := by omega
  have hfield :=
    readField_agrees h (str "RICE decode: unexpected end of stream reading fs") hp.fsbits_pos
    (show p.fsbits < 64 by omega)
  unfold Guarded.readBlock Rice.readBlock
  rw [hfield.eq]
  cases hx :
    Rice.readField c (str "RICE decode: unexpected end of stream reading fs") p.fsbits s with
  | error e => rfl
  | ok r =>
    obtain ⟨storedFs, s1⟩ := r
    obtain ⟨hvalid, hlt⟩ := hfield.post _ hx
    have hpow : 2 ^ p.fsbits ≤ 2 ^ 5 := Nat.pow_le_pow_right (by decide) hfsbits
    dsimp only at hlt hvalid
    rw [ofExcept_ok, ok_bind]
    dsimp only
    rw [signed_of_range (by omega), ok_bind]
    by_cases hflat : storedFs = 0
    · rw [if_pos hflat, if_pos (by omega),
        fillPixels_written littleEndian width lastpix _ hroom, ok_bind]
      exact ⟨_, rfl, rfl, hvalid, List.length_replicate⟩
    · have hnat : ((storedFs : Int) - 1).toNat = storedFs - 1 := by omega
      rw [if_neg hflat, if_neg (by omega), hnat]
      by_cases hraw : storedFs - 1 = p.fsmax
      · rw [if_pos hraw, if_pos hraw]
        exact readPixels_tracks littleEndian width
          (fun s hs => (readField_agrees hs _ hpos (by omega)).mono fun _ hr => hr.1) _
            lastpix hvalid hroom
      · rw [if_neg hraw, if_neg hraw]
        exact readPixels_tracks littleEndian width (fun s hs => readSplit_agrees hs (by omega)) _
          lastpix hvalid
          hroom

/-- The loop over the blocks: every block writes a pixel. -/
theorem Guarded.readBlocks_tracks {c : Bytes} {p : Params} {bytepix : Nat} (hp : p.Fit bytepix)
    (hpos : 0 < p.bbits) (littleEndian : Bool) (width : Nat) {nblock nx : Nat}
    (hblock : 0 < nblock) :
    ∀ (fuel : Nat) {px : List Int} {s : BitBuf} (lastpix : Int), px.length ≤ nx →
      nx - px.length ≤ fuel →
      s.Valid c →
      Tracks (fun a rest => a = written littleEndian width nx (px ++ rest) ∧
        rest.length = nx - px.length)
        (Guarded.readBlocks (Guarded.writeAt littleEndian width) c p nblock nx
          (fuel + 1) px.length s lastpix
          (written littleEndian width nx px))
        (Rice.readBlocks c p nblock fuel (nx - px.length) s lastpix) := by
  intro fuel
  induction fuel with
  | zero =>
    intro px s lastpix hle hfuel _
    have hall : nx - px.length = 0 := Nat.le_zero.1 hfuel
    rw [Guarded.readBlocks, if_neg (by omega), Rice.readBlocks, if_pos hall]
    exact ⟨_, rfl, by rw [List.append_nil], hall.symm⟩
  | succ fuel ih =>
    intro px s lastpix hle hfuel h
    rw [Guarded.readBlocks, Rice.readBlocks]
    by_cases hall : nx - px.length = 0
    · rw [if_neg (by omega), if_pos hall]
      exact ⟨_, rfl, by rw [List.append_nil], hall.symm⟩
    rw [if_pos (by omega), if_neg hall]
    dsimp only
    have hcount : min (px.length + nblock) nx - px.length = min nblock (nx - px.length) := by omega
    have hone :=
      @readBlock_tracks c p bytepix hp hpos littleEndian width nx (min (px.length + nblock) nx) px
      (by omega) (Nat.min_le_right _ _) s h lastpix
    rw [hcount] at hone
    cases hx : Rice.readBlock c p (min nblock (nx - px.length)) s lastpix with
    | error e =>
      rw [hone.of_error hx]
      rfl
    | ok r =>
      obtain ⟨⟨block, last⟩, s1⟩ := r
      obtain ⟨a, ha, hwritten, hvalid, hlen⟩ := hone.of_ok hx
      dsimp only at hwritten hvalid hlen
      rw [ha, hwritten, ok_bind]
      dsimp only
      have hlength : (px ++ block).length = min (px.length + nblock) nx := by
        rw [List.length_append, hlen]
        omega
      have hnext := @ih (px ++ block) _ last (by omega) (by omega) hvalid
      rw [hlength, show nx - min (px.length + nblock) nx =
        nx - px.length - nblock by omega] at hnext
      cases hy : Rice.readBlocks c p nblock fuel (nx - px.length - nblock) s1 last with
      | error e => exact hnext.of_error hy
      | ok rest =>
        obtain ⟨a', ha', hwritten', hlen'⟩ := hnext.of_ok hy
        refine ⟨a', ha', ?_, ?_⟩
        · rw [hwritten', List.append_assoc]
        · rw [List.length_append, hlen, hlen']
          omega

theorem Guarded.seedPixel_eq {bytepix : Nat} (hw : PixelWidth bytepix) (seed : Nat) :
    Guarded.seedPixel (8 * bytepix) seed = .ok (Rice.seedPixel (8 * bytepix) seed) := by
  unfold Guarded.seedPixel Rice.seedPixel
  rcases hw with rfl | rfl | rfl
  · rw [if_pos (by decide), subWord_of_le (by decide), ok_bind,
      shiftLeft_of_lt (by decide), ok_bind, if_pos (by decide), if_pos rfl, asI32, asI8]
    refine congrArg Outcome.ok ?_
    rw [Int.bmod_def, Int.bmod_def]
    split_ifs <;> omega
  · rw [if_pos (by decide), subWord_of_le (by decide), ok_bind,
      shiftLeft_of_lt (by decide), ok_bind,
      if_pos (by decide), if_neg (by decide), if_pos rfl, asI32, asI16]
    refine congrArg Outcome.ok ?_
    rw [Int.bmod_def, Int.bmod_def]
    split_ifs <;> omega
  · rw [if_neg (by decide), if_neg (by decide), if_neg (by decide)]

/-- The fast decoder has no faults, writes what the plain model says, and fills the output. -/
theorem Guarded.decodeRiceInt_agrees {bytepix : Nat} (hw : PixelWidth bytepix) {p : Params}
    (hp : riceParams bytepix = .ok p) (littleEndian : Bool) (c : Bytes) (nx : Nat) {nblock : Nat}
    (hblock : 0 < nblock) (width : Nat) :
    Agrees (fun out => out.length = nx * width)
      (Guarded.decodeRiceInt littleEndian c nx p nblock width (List.replicate (nx * width) 0))
      (Rice.decodeRiceInt littleEndian c nx p nblock width) := by
  obtain ⟨p', hp', hfit⟩ := riceParams_fit hw
  rw [Except.ok.inj (hp'.symm.trans hp)] at hfit
  have hbbits := hfit.bbits_eq
  have hpos : 0 < p.bbits := by
    rcases hw with rfl | rfl | rfl <;> omega
  have hseedBytes : p.bbits / 8 = bytepix := by omega
  unfold Guarded.decodeRiceInt Rice.decodeRiceInt
  dsimp only
  rw [hseedBytes]
  by_cases hshort : c.length < bytepix + 1
  · rw [if_pos hshort, if_pos hshort]
    exact .error _
  have hstart : BitBuf.Valid c ⟨0, 0, bytepix⟩ :=
    ⟨ofBytes (c.drop bytepix), [], rfl, Nat.zero_le _, rfl, by dsimp only; omega, rfl⟩
  rw [if_neg hshort, if_neg hshort, hbbits, seedPixel_eq hw, ok_bind, refill_eq hstart, ok_bind]
  have hblocks :=
    @readBlocks_tracks c p bytepix hfit hpos littleEndian width nblock nx hblock nx [] _
    (Rice.seedPixel (8 * bytepix) (fromBe (slice c 0 bytepix))) (Nat.zero_le _) (Nat.sub_le _ _)
    (refill_valid hstart)
  rw [List.length_nil, Nat.sub_zero] at hblocks
  have hempty : written littleEndian width nx [] = List.replicate (nx * width) 0 := rfl
  rw [hempty] at hblocks
  cases hx : Rice.readBlocks c p nblock nx nx (Rice.refill c ⟨0, 0, bytepix⟩)
      (Rice.seedPixel (8 * bytepix) (fromBe (slice c 0 bytepix))) with
  | error e =>
    rw [hblocks.of_error hx]
    exact .error e
  | ok px =>
    obtain ⟨a, ha, hwritten, hlen⟩ := hblocks.of_ok hx
    rw [List.nil_append] at hwritten
    rw [ha, hwritten, ← hlen, written_all]
    exact .ok (flatMap_toNeBytes_length littleEndian width px)

/-! ## The slow path -/

namespace Guarded

def readBitsLoop (data : Bytes) : Nat → Nat → Nat → BitReader → Outcome PyErr (Nat × BitReader)
  | 0, _, _, _ => .fault
  | fuel + 1, remaining, result, r =>
    if remaining = 0 then .ok (result, r)
    else if data.length ≤ r.bytePos then
      .error (.value (str "RICE decode: unexpected end of compressed stream"))
    else do
      let avail ← subWord 8 r.bitPos
      let take := min remaining avail
      let shift ← subWord avail take
      let bound ← shiftLeft 32 1 take
      let mask ← subWord bound 1
      let b ← getAt data r.bytePos
      let down ← shiftRight 32 b.toNat shift
      let up ← shiftLeft 64 result take
      let bitPos ← addWord 32 r.bitPos take
      let remaining ← subWord remaining take
      readBitsLoop data fuel remaining (up ||| down &&& mask)
        (if bitPos = 8 then ⟨r.bytePos + 1, 0⟩ else ⟨r.bytePos, bitPos⟩)

/-- `read_bits`. -/
def readBits (data : Bytes) (n : Nat) (r : BitReader) : Outcome PyErr (Nat × BitReader) :=
  if n = 0 then .ok (0, r)
  else if 64 < n then .error (.value (str "RICE BitReader: requested > 64 bits at once"))
  else readBitsLoop data (n + 1) n 0 r

/-- `read_unary`. -/
def readUnarySlow (data : Bytes) : Nat → Nat → BitReader → Outcome PyErr (Nat × BitReader)
  | 0, _, _ => .fault
  | fuel + 1, count, r => do
    let (b, r) ← readBits data 1 r
    if b = 1 then .ok (count, r)
    else do
      let count ← addWord 32 count 1
      if 1024 < count then
        .error (.value (str "RICE decode: unary code exceeded 1024 zeros (corrupt stream)"))
      else readUnarySlow data fuel count r

/-- `unzigzag`.  The negation of an `i64` has to be one. -/
def unzigzag64 (z : Nat) : Outcome PyErr Int :=
  if z % 2 ≠ 0 then signed 63 (-asI64 (z / 2 + 1)) else .ok (asI64 (z / 2))

/-- `sign_extend`. -/
def signExtend (val nbits : Nat) : Outcome PyErr Int :=
  if nbits = 0 then .ok 0
  else if 64 ≤ nbits then .ok (asI64 val)
  else do
    let shift ← subWord 64 nbits
    let up ← shiftLeft 64 val shift
    if shift < 64 then .ok (asI64 up / 2 ^ shift) else .fault

def readDiffSlow (data : Bytes) (p : Params) (fs : Nat) (r : BitReader) :
    Outcome PyErr (Nat × BitReader) :=
  if p.fsmax ≤ fs then readBits data p.bbits r
  else do
    let (top, r) ← readUnarySlow data 1026 0 r
    let up ← shiftLeft 64 top fs
    if fs = 0 then .ok (up, r)
    else do
      let (bottom, r) ← readBits data fs r
      .ok (up ||| bottom, r)

def readPixelsSlow (data : Bytes) (p : Params) (fs : Nat) :
    Nat → BitReader → Int → Outcome PyErr (List Int × BitReader × Int)
  | 0, r, lastpix => .ok ([], r, lastpix)
  | k + 1, r, lastpix => do
    let (raw, r) ← readDiffSlow data p fs r
    let diff ← unzigzag64 raw
    let lastpix := wrapI64 (lastpix + diff)
    let (rest, r, last) ← readPixelsSlow data p fs k r lastpix
    .ok (lastpix :: rest, r, last)

def readBlocksSlow (data : Bytes) (p : Params) (blocksize : Nat) :
    Nat → Nat → BitReader → Int → Outcome PyErr (List Int)
  | 0, _, _, _ => .fault
  | fuel + 1, n, r, lastpix =>
    if n = 0 then .ok []
    else do
      let k := min blocksize n
      let (storedFs, r) ← readBits data p.fsbits r
      let fs ← signed 31 ((storedFs : Int) - 1)
      if fs < 0 then do
        let rest ← readBlocksSlow data p blocksize fuel (n - k) r lastpix
        .ok (List.replicate k lastpix ++ rest)
      else do
        let (px, r, lastpix) ← readPixelsSlow data p fs.toNat k r lastpix
        let rest ← readBlocksSlow data p blocksize fuel (n - k) r lastpix
        .ok (px ++ rest)

/-- `cast_i64_to_target_bytes`. -/
def castI64ToTargetBytes (littleEndian : Bool) (values : List Int) (zbitpix : Int) :
    Outcome PyErr Bytes := do
  allocate values.length (zbitpix / 8).toNat
  .ok (Rice.castI64ToTargetBytes littleEndian values zbitpix)

/-- `decode_rice_slow_i64`. -/
def decodeRiceSlowI64 (littleEndian : Bool) (compressed : Bytes) (nPixels : Nat) (p : Params)
    (blocksize : Nat) (zbitpix : Int) : Outcome PyErr Bytes := do
  let (seedRaw, r) ← readBits compressed p.bbits ⟨0, 0⟩
  let lastpix ← signExtend seedRaw p.bbits
  allocate nPixels 8
  let out ← readBlocksSlow compressed p blocksize (nPixels + 1) nPixels r lastpix
  if out.length ≠ nPixels then
    .error (.value (str "RICE decode: produced " ++ natDec out.length ++
      str " pixels but expected " ++ natDec nPixels))
  else castI64ToTargetBytes littleEndian out zbitpix

/-- `decode_rice`. -/
def decodeRice (littleEndian : Bool) (compressed : Bytes) (nPixels bytepix blocksize : Nat)
    (zbitpix : Int) :
    Outcome PyErr Bytes :=
  if nPixels = 0 then .ok []
  else if blocksize = 0 then .error (.value (str "RICE decode: BLOCKSIZE must be > 0"))
  else
    match riceParams bytepix with
    | .error e => .error e
    | .ok p =>
      if bytepix = 8 then decodeRiceSlowI64 littleEndian compressed nPixels p blocksize zbitpix
      else if zbitpix = 8 ∨ zbitpix = 16 ∨ zbitpix = 32 ∨ zbitpix = 64 then do
        let zbytes := (zbitpix / 8).toNat
        allocate nPixels zbytes
        decodeRiceInt littleEndian compressed nPixels p blocksize zbytes
          (List.replicate (nPixels * zbytes) 0)
      else .error (.value (str "RICE decode: unsupported ZBITPIX=" ++ intDec zbitpix))

end Guarded

theorem Guarded.readBitsLoop_agrees {data : Bytes} :
    ∀ (fuel remaining result : Nat) {r : BitReader}, remaining ≤ fuel → r.bitPos < 8 →
      Agrees (fun x => x.2.bitPos < 8) (Guarded.readBitsLoop data (fuel + 1) remaining result r)
        (Rice.readBitsLoop data fuel remaining result r) := by
  intro fuel
  induction fuel with
  | zero =>
    intro remaining result r hfuel h
    rw [Guarded.readBitsLoop, if_pos (Nat.le_zero.1 hfuel), Rice.readBitsLoop]
    exact .ok h
  | succ fuel ih =>
    intro remaining result r hfuel h
    rw [Guarded.readBitsLoop, Rice.readBitsLoop]
    by_cases hzero : remaining = 0
    · rw [if_pos hzero, if_pos hzero]
      exact .ok h
    rw [if_neg hzero, if_neg hzero]
    by_cases hend : data.length ≤ r.bytePos
    · rw [if_pos hend, if_pos hend]
      exact .error _
    rw [if_neg hend, if_neg hend, subWord_of_le h.le, ok_bind]
    dsimp only
    generalize htake : min remaining (8 - r.bitPos) = k
    have hbound : 2 ^ k ≤ 2 ^ 8 := Nat.pow_le_pow_right (by decide) (by omega)
    have hone : 0 < 2 ^ k := Nat.two_pow_pos k
    rw [subWord_of_le (by omega), ok_bind, shiftLeft_of_lt (by omega), ok_bind, Nat.one_mul,
      Nat.mod_eq_of_lt (show 2 ^ k < 2 ^ 32 by omega), subWord_of_le hone, ok_bind,
      getAt_of_lt (Nat.not_le.1 hend) 0, ok_bind, shiftRight_of_lt (by omega), ok_bind,
      shiftLeft_of_lt (by omega),
      ok_bind, addWord_of_lt (by omega), ok_bind, subWord_of_le (by omega), ok_bind,
      Nat.and_two_pow_sub_one_eq_mod]
    refine ih (remaining - k) _ (by omega) ?_
    split_ifs <;> dsimp only <;> omega

theorem Guarded.readBits_agrees {data : Bytes} {r : BitReader} (h : r.bitPos < 8) (n : Nat) :
    Agrees (fun x => x.2.bitPos < 8 ∧ x.1 < 2 ^ n) (Guarded.readBits data n r)
      (Rice.readBits data n r) := by
  have heq :
      Agrees (fun x => x.2.bitPos < 8) (Guarded.readBits data n r) (Rice.readBits data n r) := by
    unfold Guarded.readBits Rice.readBits
    by_cases hzero : n = 0
    · rw [if_pos hzero, if_pos hzero]
      exact .ok h
    rw [if_neg hzero, if_neg hzero]
    by_cases hmany : 64 < n
    · rw [if_pos hmany, if_pos hmany]
      exact .error _
    · rw [if_neg hmany, if_neg hmany]
      exact readBitsLoop_agrees n n 0 (Nat.le_refl n) h
  refine ⟨heq.eq, fun x hx => ⟨heq.post x hx, ?_⟩⟩
  obtain ⟨v, r'⟩ := x
  obtain ⟨a, rest, hlen, -, hv, -⟩ := readBits_holds ⟨h, rfl⟩ hx
  show v < 2 ^ n
  rw [hv, ← hlen]
  exact bitsVal_lt a

theorem Guarded.readUnarySlow_agrees {data : Bytes} :
    ∀ (fuel count : Nat) {r : BitReader}, r.bitPos < 8 → count ≤ 1024 → 1025 < count + fuel →
      Agrees (fun x => x.2.bitPos < 8) (Guarded.readUnarySlow data fuel count r)
        (Rice.readUnarySlow data fuel count r) := by
  intro fuel
  induction fuel with
  | zero =>
    intro count r _ hcount hfuel
    omega
  | succ fuel ih =>
    intro count r h hcount hfuel
    have hbit := @readBits_agrees data r h 1
    rw [Guarded.readUnarySlow, Rice.readUnarySlow, hbit.eq]
    cases hx : Rice.readBits data 1 r with
    | error e => exact .error e
    | ok x =>
      obtain ⟨b, r1⟩ := x
      have hr1 := (hbit.post _ hx).1
      rw [ofExcept_ok, ok_bind]
      dsimp only
      by_cases hone : b = 1
      · rw [if_pos hone, if_pos hone]
        exact .ok hr1
      rw [if_neg hone, if_neg hone, addWord_of_lt (by omega), ok_bind]
      by_cases hmany : 1024 < count + 1
      · rw [if_pos hmany, if_pos hmany]
        exact .error _
      · rw [if_neg hmany, if_neg hmany]
        exact ih (count + 1) hr1 (Nat.not_lt.1 hmany) (by omega)

theorem Guarded.signExtend_eq (val nbits : Nat) :
    Guarded.signExtend val nbits = .ok (Rice.signExtend val nbits) := by
  unfold Guarded.signExtend Rice.signExtend
  by_cases hzero : nbits = 0
  · rw [if_pos hzero, if_pos hzero]
  rw [if_neg hzero, if_neg hzero]
  by_cases hwide : 64 ≤ nbits
  · rw [if_pos hwide, if_pos hwide]
  · rw [if_neg hwide, if_neg hwide, subWord_of_le (by omega), ok_bind,
      shiftLeft_of_lt (by omega), ok_bind, if_pos (by omega)]

theorem Guarded.readDiffSlow_agrees {data : Bytes} {p : Params} (hbbits : p.bbits ≤ 64)
    (hp : p.fsmax ≤ 54) (fs : Nat) {r : BitReader} (h : r.bitPos < 8) :
    Agrees (fun x => x.2.bitPos < 8 ∧ x.1 < 2 ^ 64) (Guarded.readDiffSlow data p fs r)
      (Rice.readDiffSlow data p fs r) := by
  unfold Guarded.readDiffSlow Rice.readDiffSlow
  by_cases hraw : p.fsmax ≤ fs
  · rw [if_pos hraw, if_pos hraw]
    have hpow : 2 ^ p.bbits ≤ 2 ^ 64 := Nat.pow_le_pow_right (by decide) hbbits
    exact (readBits_agrees h p.bbits).mono fun _ hx => ⟨hx.1, Nat.lt_of_lt_of_le hx.2 hpow⟩
  rw [if_neg hraw, if_neg hraw]
  have hunary := @readUnarySlow_agrees data 1026 0 r h (Nat.zero_le _) (by decide)
  rw [hunary.eq]
  cases hx : Rice.readUnarySlow data 1026 0 r with
  | error e => exact .error e
  | ok x =>
    obtain ⟨top, r1⟩ := x
    have hr1 := hunary.post _ hx
    obtain ⟨zeros, rest, -, hle, -, -⟩ :=
      readUnarySlow_holds 1026 0 (Nat.zero_le _) ⟨h, rfl⟩ hx
    rw [ofExcept_ok, ok_bind]
    dsimp only
    rw [shiftLeft_of_lt (by omega), ok_bind]
    by_cases hzero : fs = 0
    · rw [if_pos hzero, if_pos hzero, hzero, Nat.pow_zero, Nat.mul_one, Nat.mod_eq_of_lt (by omega)]
      exact .ok ⟨hr1, by dsimp only; omega⟩
    · have hbottom := @readBits_agrees data r1 hr1 fs
      rw [if_neg hzero, if_neg hzero]
      rw [hbottom.eq]
      cases hy : Rice.readBits data fs r1 with
      | error e => exact .error e
      | ok y =>
        obtain ⟨hrest, hlt⟩ := hbottom.post y hy
        have hpow : 2 ^ fs ≤ 2 ^ 64 := Nat.pow_le_pow_right (by decide) (by omega)
        exact .ok ⟨hrest, Nat.or_lt_two_pow (Nat.mod_lt _ (Nat.two_pow_pos 64))
          (Nat.lt_of_lt_of_le hlt hpow)⟩

/-! ## The codes of 64 bits -/

/-- The code of the least difference, whose negation is no `i64`. -/
def leastCode : Nat := 18446744073709551615

theorem Guarded.unzigzag64_leastCode : Guarded.unzigzag64 leastCode = .fault := by decide

theorem Guarded.unzigzag64_eq {z : Nat} (hz : z < 2 ^ 64) (hne : z ≠ leastCode) :
    Guarded.unzigzag64 z = .ok (Rice.unzigzag64 z) := by
  unfold Guarded.unzigzag64 Rice.unzigzag64
  split_ifs with hodd
  · have hsmall : z / 2 + 1 ≤ 9223372036854775807 := by
      unfold leastCode at hne
      omega
    have hneg : wrapI64 (-((z / 2 + 1 : Nat) : Int)) = -((z / 2 + 1 : Nat) : Int) := by
      have hback := wrapI64_emod (-((z / 2 + 1 : Nat) : Int))
      have hrange : -9223372036854775808 ≤ wrapI64 (-((z / 2 + 1 : Nat) : Int)) ∧
          wrapI64 (-((z / 2 + 1 : Nat) : Int)) ≤ 9223372036854775807 := inI64_asI64 _
      omega
    rw [asI64_of_le hsmall, signed_of_range (by omega), hneg]
  · rfl

/-- The codes of a block as far as the stream has them, and the reader behind them where
it has them all. -/
def codesThere (data : Bytes) (p : Params) (fs : Nat) :
    Nat → BitReader → List Nat × Option BitReader
  | 0, r => ([], some r)
  | k + 1, r =>
    match readDiffSlow data p fs r with
    | .error _ => ([], none)
    | .ok (raw, r) => (raw :: (codesThere data p fs k r).1, (codesThere data p fs k r).2)

/-- The codes of the blocks of `n` pixels as far as the stream has them. -/
def blockCodesThere (data : Bytes) (p : Params) (blocksize : Nat) :
    Nat → Nat → BitReader → List Nat
  | 0, _, _ => []
  | fuel + 1, n, r =>
    if n = 0 then []
    else
      let k := min blocksize n
      match readBits data p.fsbits r with
      | .error _ => []
      | .ok (storedFs, r) =>
        if storedFs = 0 then blockCodesThere data p blocksize fuel (n - k) r
        else
          (codesThere data p (storedFs - 1) k r).1 ++
            match (codesThere data p (storedFs - 1) k r).2 with
            | none => []
            | some r => blockCodesThere data p blocksize fuel (n - k) r

/-- The codes of `n` pixels of 64 bits as far as the stream has them, behind the first
pixel. -/
def streamCodes (compressed : Bytes) (n blocksize : Nat) : List Nat :=
  match readBits compressed 64 ⟨0, 0⟩ with
  | .error _ => []
  | .ok (_, r) => blockCodesThere compressed ⟨64, 6, 53⟩ blocksize n n r

/-- What a plain computation gives, but a fault where the least difference is among its
codes. -/
def unlessLeast {α : Type} (codes : List Nat) (y : Except PyErr α) : Outcome PyErr α :=
  if leastCode ∈ codes then .fault else .ofExcept y

theorem unlessLeast_of_mem {α : Type} {codes : List Nat} (h : leastCode ∈ codes)
    (y : Except PyErr α) : unlessLeast codes y = .fault := if_pos h

theorem unlessLeast_of_not_mem {α : Type} {codes : List Nat} (h : leastCode ∉ codes)
    (y : Except PyErr α) : unlessLeast codes y = .ofExcept y := if_neg h

/-- Codes in front without the least difference. -/
theorem unlessLeast_append {α : Type} {front : List Nat} (h : leastCode ∉ front)
    (codes : List Nat) (y : Except PyErr α) :
    unlessLeast (front ++ codes) y = unlessLeast codes y := by
  refine if_congr ?_ rfl rfl
  rw [List.mem_append, or_iff_right h]

/-- The rest of a computation that goes on with the result. -/
theorem unlessLeast_bind {α β : Type} (codes : List Nat) (y : Except PyErr α) (f : α → β) :
    (unlessLeast codes y >>= fun a => .ok (f a)) = unlessLeast codes (y.map f) := by
  unfold unlessLeast
  split_ifs
  · rfl
  · cases y <;> rfl

/-- A block that is read has its codes in the stream. -/
theorem readPixelsSlow_post {data : Bytes} {p : Params} (hbbits : p.bbits ≤ 64)
    (hp : p.fsmax ≤ 54) (fs : Nat) :
    ∀ (k : Nat) {r : BitReader} {lastpix : Int} {x : List Int × BitReader × Int}, r.bitPos < 8 →
      readPixelsSlow data p fs k r lastpix = .ok x →
        x.1.length = k ∧ x.2.1.bitPos < 8 ∧ (codesThere data p fs k r).2 = some x.2.1 := by
  intro k
  induction k with
  | zero =>
    intro r lastpix x h hread
    rw [← Except.ok.inj hread]
    exact ⟨rfl, h, rfl⟩
  | succ k ih =>
    intro r lastpix x h hread
    have hdiff := @Guarded.readDiffSlow_agrees data p hbbits hp fs r h
    rw [readPixelsSlow] at hread
    rw [codesThere]
    cases hx : readDiffSlow data p fs r with
    | error e =>
      rw [hx] at hread
      cases hread
    | ok res =>
      obtain ⟨raw, r1⟩ := res
      rw [hx] at hread
      dsimp only at hread ⊢
      cases hy : readPixelsSlow data p fs k r1 (wrapI64 (lastpix + unzigzag64 raw)) with
      | error e =>
        rw [hy] at hread
        cases hread
      | ok y =>
        obtain ⟨hlen, hpos, hthere⟩ := ih (hdiff.post _ hx).1 hy
        rw [hy] at hread
        rw [← Except.ok.inj hread]
        exact ⟨congrArg Nat.succ hlen, hpos, hthere⟩

/-- A block that is not read is not in the stream. -/
theorem codesThere_of_error {data : Bytes} {p : Params} (fs : Nat) {e : PyErr} :
    ∀ (k : Nat) {r : BitReader} {lastpix : Int},
      readPixelsSlow data p fs k r lastpix = .error e → (codesThere data p fs k r).2 = none := by
  intro k
  induction k with
  | zero =>
    intro r lastpix hread
    cases hread
  | succ k ih =>
    intro r lastpix hread
    rw [readPixelsSlow] at hread
    rw [codesThere]
    cases hx : readDiffSlow data p fs r with
    | error e => rfl
    | ok res =>
      obtain ⟨raw, r1⟩ := res
      rw [hx] at hread
      dsimp only at hread ⊢
      cases hy : readPixelsSlow data p fs k r1 (wrapI64 (lastpix + unzigzag64 raw)) with
      | error e' =>
        rw [hy] at hread
        cases hread
        exact ih hy
      | ok y =>
        rw [hy] at hread
        cases hread

/-- The pixels of a block: a fault exactly where the stream has the least difference. -/
theorem Guarded.readPixelsSlow_eq {data : Bytes} {p : Params} (hbbits : p.bbits ≤ 64)
    (hp : p.fsmax ≤ 54) (fs : Nat) :
    ∀ (k : Nat) {r : BitReader} (lastpix : Int), r.bitPos < 8 →
      Guarded.readPixelsSlow data p fs k r lastpix =
        unlessLeast (codesThere data p fs k r).1 (Rice.readPixelsSlow data p fs k r lastpix) := by
  intro k
  induction k with
  | zero => exact fun lastpix h => rfl
  | succ k ih =>
    intro r lastpix h
    have hdiff := @readDiffSlow_agrees data p hbbits hp fs r h
    rw [Guarded.readPixelsSlow, Rice.readPixelsSlow, codesThere, hdiff.eq]
    cases hx : Rice.readDiffSlow data p fs r with
    | error e => rfl
    | ok x =>
      obtain ⟨raw, r1⟩ := x
      obtain ⟨hpos, hlt⟩ := hdiff.post _ hx
      rw [ofExcept_ok, ok_bind]
      dsimp only at hpos hlt ⊢
      by_cases hleast : raw = leastCode
      · rw [hleast, unzigzag64_leastCode, fault_bind, unlessLeast_of_mem List.mem_cons_self]
      · have hfront : leastCode ∉ [raw] := fun h => hleast (List.mem_singleton.1 h).symm
        rw [unzigzag64_eq hlt hleast, ok_bind, ih _ hpos, ← List.singleton_append,
          unlessLeast_append hfront]
        refine (unlessLeast_bind _ _ _).trans ?_
        cases Rice.readPixelsSlow data p fs k r1 (wrapI64 (lastpix + Rice.unzigzag64 raw)) <;> rfl

/-- The blocks read as many pixels as are left. -/
theorem readBlocksSlow_length {data : Bytes} {p : Params} (hbbits : p.bbits ≤ 64)
    (hp : p.fsmax ≤ 54) (blocksize : Nat) :
    ∀ (fuel n : Nat) {r : BitReader} {lastpix : Int} {px : List Int}, r.bitPos < 8 →
      readBlocksSlow data p blocksize fuel n r lastpix = .ok px → px.length = n := by
  intro fuel
  induction fuel with
  | zero =>
    intro n r lastpix px _ hread
    rw [readBlocksSlow] at hread
    split_ifs at hread with hzero
    rw [← Except.ok.inj hread]
    exact hzero.symm
  | succ fuel ih =>
    intro n r lastpix px h hread
    rw [readBlocksSlow] at hread
    by_cases hzero : n = 0
    · rw [if_pos hzero] at hread
      rw [← Except.ok.inj hread]
      exact hzero.symm
    rw [if_neg hzero] at hread
    dsimp only at hread
    have hfs := @Guarded.readBits_agrees data r h p.fsbits
    cases hx : readBits data p.fsbits r with
    | error e =>
      rw [hx] at hread
      cases hread
    | ok x =>
      obtain ⟨storedFs, r1⟩ := x
      have hr1 := (hfs.post _ hx).1
      rw [hx] at hread
      dsimp only at hread hr1
      split_ifs at hread with hflat
      · cases hy : readBlocksSlow data p blocksize fuel (n - min blocksize n) r1 lastpix with
        | error e =>
          rw [hy] at hread
          cases hread
        | ok rest =>
          rw [hy] at hread
          rw [← Except.ok.inj hread, List.length_append, List.length_replicate, ih _ hr1 hy]
          omega
      · cases hy : readPixelsSlow data p (storedFs - 1) (min blocksize n) r1 lastpix with
        | error e =>
          rw [hy] at hread
          cases hread
        | ok y =>
          obtain ⟨px1, r2, last⟩ := y
          obtain ⟨hlen, hr2, -⟩ := readPixelsSlow_post hbbits hp (storedFs - 1) _ hr1 hy
          rw [hy] at hread
          dsimp only at hread hlen hr2
          cases hz : readBlocksSlow data p blocksize fuel (n - min blocksize n) r2 last with
          | error e =>
            rw [hz] at hread
            cases hread
          | ok rest =>
            rw [hz] at hread
            rw [← Except.ok.inj hread, List.length_append, hlen, ih _ hr2 hz]
            omega

/-- The blocks: a fault exactly where the stream has the least difference. -/
theorem Guarded.readBlocksSlow_eq {data : Bytes} {p : Params} (hbbits : p.bbits ≤ 64)
    (hp : p.fsmax ≤ 54) (hfsbits : p.fsbits ≤ 6) {blocksize : Nat} (hblock : 0 < blocksize) :
    ∀ (fuel n : Nat) {r : BitReader} (lastpix : Int), n ≤ fuel → r.bitPos < 8 →
      Guarded.readBlocksSlow data p blocksize (fuel + 1) n r lastpix =
        unlessLeast (blockCodesThere data p blocksize fuel n r)
          (Rice.readBlocksSlow data p blocksize fuel n r lastpix) := by
  intro fuel
  induction fuel with
  | zero =>
    intro n r lastpix hfuel _
    have hzero : n = 0 := Nat.le_zero.1 hfuel
    rw [Guarded.readBlocksSlow, if_pos hzero, Rice.readBlocksSlow, if_pos hzero]
    rfl
  | succ fuel ih =>
    intro n r lastpix hfuel h
    rw [Guarded.readBlocksSlow, Rice.readBlocksSlow, blockCodesThere]
    by_cases hzero : n = 0
    · rw [if_pos hzero, if_pos hzero, if_pos hzero]
      rfl
    rw [if_neg hzero, if_neg hzero, if_neg hzero]
    dsimp only
    have hfs := @readBits_agrees data r h p.fsbits
    rw [hfs.eq]
    cases hx : Rice.readBits data p.fsbits r with
    | error e => rfl
    | ok x =>
      obtain ⟨storedFs, r1⟩ := x
      obtain ⟨hr1, hlt⟩ := hfs.post _ hx
      have hpow : 2 ^ p.fsbits ≤ 2 ^ 6 := Nat.pow_le_pow_right (by decide) hfsbits
      dsimp only at hlt hr1
      rw [ofExcept_ok, ok_bind]
      dsimp only
      rw [signed_of_range (by omega), ok_bind]
      by_cases hflat : storedFs = 0
      · rw [if_pos hflat, if_pos hflat, if_pos (by omega),
          ih (n - min blocksize n) lastpix (by omega) hr1]
        refine (unlessLeast_bind _ _ _).trans ?_
        cases Rice.readBlocksSlow data p blocksize fuel (n - min blocksize n) r1 lastpix <;> rfl
      · have hnat : ((storedFs : Int) - 1).toNat = storedFs - 1 := by omega
        rw [if_neg hflat, if_neg hflat, if_neg (by omega), hnat,
          readPixelsSlow_eq hbbits hp (storedFs - 1) (min blocksize n) lastpix hr1]
        by_cases hhere : leastCode ∈ (codesThere data p (storedFs - 1) (min blocksize n) r1).1
        · rw [unlessLeast_of_mem hhere, fault_bind,
            unlessLeast_of_mem (List.mem_append_left _ hhere)]
        rw [unlessLeast_of_not_mem hhere, unlessLeast_append hhere]
        cases hy : Rice.readPixelsSlow data p (storedFs - 1) (min blocksize n) r1 lastpix with
        | error e =>
          rw [codesThere_of_error (storedFs - 1) _ hy]
          rfl
        | ok y =>
          obtain ⟨px, r2, last⟩ := y
          obtain ⟨-, hr2, hthere⟩ := readPixelsSlow_post hbbits hp (storedFs - 1) _ hr1 hy
          dsimp only at hr2 hthere
          rw [ofExcept_ok, ok_bind, hthere]
          dsimp only
          rw [ih (n - min blocksize n) last (by omega) hr2]
          refine (unlessLeast_bind _ _ _).trans ?_
          cases Rice.readBlocksSlow data p blocksize fuel (n - min blocksize n) r2 last <;> rfl

/-! ## The whole decoder -/

/-- Bits that are there are read. -/
theorem readBitsLoop_ok {data : Bytes} :
    ∀ (fuel remaining result : Nat) {r : BitReader} {bits : List Bool}, r.Holds data bits →
      remaining ≤ bits.length → ∃ x, readBitsLoop data fuel remaining result r = .ok x := by
  intro fuel
  induction fuel with
  | zero => exact fun remaining result r bits _ _ => ⟨_, rfl⟩
  | succ fuel ih =>
    intro remaining result r bits h hlen
    rw [readBitsLoop]
    by_cases hzero : remaining = 0
    · exact ⟨_, if_pos hzero⟩
    have hin : r.bytePos < data.length := by
      by_contra hend
      have hbits := h.2
      rw [List.drop_of_length_le (Nat.not_lt.1 hend)] at hbits
      rw [hbits] at hlen
      simp [ofBytes] at hlen
      omega
    have hlt := h.1
    rw [if_neg hzero, if_neg (Nat.not_le.2 hin)]
    dsimp only
    generalize htake : min remaining (8 - r.bitPos) = k
    obtain ⟨-, -, hnext⟩ := h.take hin (k := k) (by omega)
    exact ih (remaining - k) _ hnext (by rw [List.length_drop]; omega)

theorem readBits_ok {data : Bytes} {n : Nat} (hn : n ≤ 64) {r : BitReader} {bits : List Bool}
    (h : r.Holds data bits) (hlen : n ≤ bits.length) : ∃ x, readBits data n r = .ok x := by
  unfold readBits
  by_cases hzero : n = 0
  · exact ⟨_, if_pos hzero⟩
  · rw [if_neg hzero, if_neg (Nat.not_lt.2 hn)]
    exact readBitsLoop_ok n n 0 h hlen

theorem castI64ToTargetBytes_length (littleEndian : Bool) (values : List Int) {zbitpix : Int}
    (hz : zbitpix = 8 ∨ zbitpix = 16 ∨ zbitpix = 32 ∨ zbitpix = 64) :
    (castI64ToTargetBytes littleEndian values zbitpix).length =
      values.length * (zbitpix / 8).toNat := by
  rw [castI64ToTargetBytes, if_pos hz]
  exact flatMap_toNeBytes_length littleEndian _ values

/-- The slow decoder, where the vector of its pixels can be allocated and the stream does
not have the least difference. -/
theorem Guarded.decodeRiceSlowI64_agrees (littleEndian : Bool) (c : Bytes) {n : Nat}
    {blocksize : Nat} (hblock : 0 < blocksize) {zbitpix : Int}
    (hz : zbitpix = 8 ∨ zbitpix = 16 ∨ zbitpix = 32 ∨ zbitpix = 64)
    (hfits : c.length < 8 ∨ n * 8 ≤ isizeMax ∧ leastCode ∉ streamCodes c n blocksize) :
    Agrees (fun out => out.length = n * (zbitpix / 8).toNat)
      (Guarded.decodeRiceSlowI64 littleEndian c n ⟨64, 6, 53⟩ blocksize zbitpix)
      (Rice.decodeRiceSlowI64 littleEndian c n ⟨64, 6, 53⟩ blocksize zbitpix) := by
  have hseed := @readBits_agrees c ⟨0, 0⟩ (by decide) 64
  unfold Guarded.decodeRiceSlowI64 Rice.decodeRiceSlowI64
  dsimp only
  rw [hseed.eq]
  cases hx : Rice.readBits c 64 ⟨0, 0⟩ with
  | error e => exact .error e
  | ok x =>
    obtain ⟨seedRaw, r⟩ := x
    have hlen : 8 ≤ c.length := (readBits_seed hx).1
    have hr := (hseed.post _ hx).1
    obtain ⟨hroom, hleast⟩ := hfits.resolve_left (Nat.not_lt.2 hlen)
    rw [streamCodes, hx] at hleast
    dsimp only at hleast hr
    rw [ofExcept_ok, ok_bind]
    dsimp only
    rw [signExtend_eq, ok_bind, allocate_of_le hroom, ok_bind, readBlocksSlow_eq (by decide)
      (by decide) (by decide) hblock n n _ (Nat.le_refl n) hr, unlessLeast_of_not_mem hleast]
    cases hy : Rice.readBlocksSlow c ⟨64, 6, 53⟩ blocksize n n r (Rice.signExtend seedRaw 64) with
    | error e => exact .error e
    | ok px =>
      have hpx := readBlocksSlow_length (by decide) (by decide) blocksize n n hr hy
      have hwidth : (zbitpix / 8).toNat ≤ 8 := by omega
      rw [ofExcept_ok, ok_bind, if_neg (not_not.2 hpx), castI64ToTargetBytes,
        allocate_of_le (by rw [hpx]; exact (Nat.mul_le_mul_left n hwidth).trans hroom), ok_bind]
      refine .ok ?_
      rw [castI64ToTargetBytes_length littleEndian px hz, hpx]

/-- Where the stream has the first pixel, and the vector cannot be allocated or the stream
has the least difference, it is a fault. -/
theorem Guarded.decodeRiceSlowI64_fault (littleEndian : Bool) {c : Bytes} (hlong : 8 ≤ c.length)
    {n blocksize : Nat} (hblock : 0 < blocksize)
    (hbad : ¬ (n * 8 ≤ isizeMax ∧ leastCode ∉ streamCodes c n blocksize)) (zbitpix : Int) :
    Guarded.decodeRiceSlowI64 littleEndian c n ⟨64, 6, 53⟩ blocksize zbitpix = .fault := by
  have hlen : 64 ≤ (ofBytes c).length := by
    rw [ofBytes_length]
    omega
  obtain ⟨⟨seedRaw, r⟩, hx⟩ := readBits_ok (Nat.le_refl 64) (BitReader.Holds.start c) hlen
  have hseed := @readBits_agrees c ⟨0, 0⟩ (Nat.succ_pos 7) 64
  have hr := (hseed.post _ hx).1
  unfold Guarded.decodeRiceSlowI64
  dsimp only at hr ⊢
  rw [hseed.eq, hx, ofExcept_ok, ok_bind]
  dsimp only
  rw [signExtend_eq, ok_bind]
  by_cases hroom : n * 8 ≤ isizeMax
  · have hleast : leastCode ∈ blockCodesThere c ⟨64, 6, 53⟩ blocksize n n r := by
      by_contra hnone
      refine hbad ⟨hroom, ?_⟩
      rw [streamCodes, hx]
      exact hnone
    rw [allocate_of_le hroom, ok_bind, readBlocksSlow_eq (by decide) (by decide) (by decide)
      hblock n n _ (Nat.le_refl n) hr, unlessLeast_of_mem hleast, fault_bind]
  · rw [allocate_of_gt (Nat.not_le.1 hroom), fault_bind]

/-- Where the bytes of the pixels can be counted, and the negation of every difference of
64 bits is an `i64`. -/
def PixelsFit (c : Bytes) (n bytepix blocksize : Nat) (zbitpix : Int) : Prop :=
  n = 0 ∨
    if bytepix = 8 then
      c.length < 8 ∨ n * 8 ≤ isizeMax ∧ leastCode ∉ streamCodes c n blocksize
    else n * (zbitpix / 8).toNat ≤ isizeMax

/-- The decoder with its guards does what the plain one does where the pixels fit. -/
theorem Guarded.decodeRice_agrees (littleEndian : Bool) (c : Bytes) {n bytepix blocksize : Nat}
    {zbitpix : Int} (hw : PixelWidth bytepix ∨ bytepix = 8) (hblock : 0 < blocksize)
    (hz : zbitpix = 8 ∨ zbitpix = 16 ∨ zbitpix = 32 ∨ zbitpix = 64)
    (hfits : PixelsFit c n bytepix blocksize zbitpix) :
    Agrees (fun out => out.length = n * (zbitpix / 8).toNat)
      (Guarded.decodeRice littleEndian c n bytepix blocksize zbitpix)
      (Rice.decodeRice littleEndian c n bytepix blocksize zbitpix) := by
  unfold Guarded.decodeRice Rice.decodeRice
  by_cases hzero : n = 0
  · rw [if_pos hzero, if_pos hzero, hzero, Nat.zero_mul]
    exact .ok rfl
  rw [if_neg hzero, if_neg hzero, if_neg (Nat.ne_of_gt hblock), if_neg (Nat.ne_of_gt hblock)]
  have hfits := hfits.resolve_left hzero
  rcases hw with hw | hw
  · obtain ⟨p, hp, -⟩ := riceParams_fit hw
    have hne8 : bytepix ≠ 8 := by
      rcases hw with rfl | rfl | rfl <;> decide
    rw [if_neg hne8] at hfits
    rw [hp]
    dsimp only
    rw [if_neg hne8, if_neg hne8, if_pos hz, if_pos hz, allocate_of_le hfits, ok_bind]
    exact decodeRiceInt_agrees hw hp littleEndian c n hblock _
  · rw [if_pos hw] at hfits
    rw [hw]
    exact decodeRiceSlowI64_agrees littleEndian c hblock hz hfits

/-- An error or the bytes of the pixels, and no fault, exactly where the pixels fit. -/
theorem Guarded.decodeRice_errorOrSize_iff (littleEndian : Bool) (c : Bytes)
    {n bytepix blocksize : Nat} {zbitpix : Int} (hw : PixelWidth bytepix ∨ bytepix = 8)
    (hblock : 0 < blocksize) (hz : zbitpix = 8 ∨ zbitpix = 16 ∨ zbitpix = 32 ∨ zbitpix = 64) :
    ErrorOrSize (n * (zbitpix / 8).toNat)
        (Guarded.decodeRice littleEndian c n bytepix blocksize zbitpix) ↔
      PixelsFit c n bytepix blocksize zbitpix := by
  refine ⟨fun h => ?_,
    fun hfits => (decodeRice_agrees littleEndian c hw hblock hz hfits).errorOrSize⟩
  by_contra hfits
  obtain ⟨hzero, hlarge⟩ := not_or.1 hfits
  rw [Guarded.decodeRice, if_neg hzero, if_neg (Nat.ne_of_gt hblock)] at h
  rcases hw with hw | hw
  · obtain ⟨p, hp, -⟩ := riceParams_fit hw
    have hne8 : bytepix ≠ 8 := by
      rcases hw with rfl | rfl | rfl <;> decide
    rw [if_neg hne8] at hlarge
    rw [hp] at h
    dsimp only at h
    rw [if_neg hne8, if_pos hz, allocate_of_gt (Nat.not_le.1 hlarge)] at h
    exact h
  · rw [if_pos hw] at hlarge
    obtain ⟨hlong, hbad⟩ := not_or.1 hlarge
    have hparams : riceParams 8 = .ok ⟨64, 6, 53⟩ := rfl
    rw [hw, hparams] at h
    dsimp only at h
    rw [if_pos rfl, decodeRiceSlowI64_fault littleEndian (Nat.not_lt.1 hlong) hblock hbad] at h
    exact h

end RustFits.Zimage.Rice
