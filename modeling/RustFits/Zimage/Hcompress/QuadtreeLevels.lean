import RustFits.Zimage.Hcompress.QuadtreeBlocks

/-!
# The levels of a plane

The nybbles of a plane are level 0, and each level is what `reduceLevel` makes of the one
before.  The encoder puts the codes of level after level into a buffer that is written
back to front, so `codesBelow m` starts with the last code of level `m - 1` and ends with
the first one of level 0 (`encodePasses_spec`).  The decoder reads them in that order
(`reads_expandLevels`): the flags that it spreads from a level tell which cells of the
next one have a code.

Both keep the lengths of the axes by rules of their own, `half` and `Axis.next`; they
agree (`Axis.Holds`).
-/

namespace RustFits.Zimage.Hcompress

open BitStream Outcome

/-! ## The Huffman buffer -/

/-- The codes of the values that are not zero, the last one first. -/
def codeBits (low : List Nybble) : List Bool := (low.filter (· != 0)).reverse.flatMap huffmanBits

theorem codeBits_cons (v : Nybble) (low : List Nybble) :
    codeBits (v :: low) = codeBits low ++ if v = 0 then [] else huffmanBits v := by
  unfold codeBits
  by_cases h : v = 0
  · rw [if_pos h, List.filter_cons_of_neg (by rw [h]; decide), List.append_nil]
  · rw [if_neg h, List.filter_cons_of_pos (p := (· != 0)) (bne_iff_ne.2 h), List.reverse_cons,
      List.flatMap_append, List.flatMap_singleton]

theorem codeBits_append (low low' : List Nybble) :
    codeBits (low ++ low') = codeBits low' ++ codeBits low := by
  rw [codeBits, List.filter_append, List.reverse_append, List.flatMap_append]
  rfl

theorem codeBits_of_zeros {low : List Nybble} (h : ∀ v ∈ low, v = 0) : codeBits low = [] := by
  have hnone : low.filter (· != 0) = [] := List.filter_eq_nil_iff.2 fun v hv => by simp [h v hv]
  rw [codeBits, hnone]
  rfl

theorem huffmanBits_ne_nil (v : Nybble) : huffmanBits v ≠ [] := by
  have h : ∀ v : Nybble, hncode v ≠ 0 := by decide
  intro hnil
  have hlen := congrArg List.length hnil
  rw [huffmanBits, bitsOf_length] at hlen
  exact h v hlen

section

variable {h : HuffBuf} {bmax : Nat}

/-- What a buffer is written as. -/
def HuffBuf.bits (h : HuffBuf) : List Bool :=
  bitsOf h.bitsToGo3 h.bitbuffer ++ ofBytes (h.buffer.take h.b).reverse

/-- The buffer has room for a byte, and nothing stands above its bits. -/
structure HuffBuf.Open (bmax : Nat) (h : HuffBuf) : Prop where
  size : h.buffer.length = bmax
  room : h.b < bmax
  few : h.bitsToGo3 ≤ 7
  clear : h.bitbuffer < 2 ^ h.bitsToGo3

theorem hcode_lt : ∀ v : Nybble, hcode v < 2 ^ hncode v ∧ hncode v ≤ 6 := by decide

/-- A code goes in front of what is there. -/
theorem HuffBuf.Open.add (ho : h.Open bmax) (v : Nybble) :
    (h.add v).bits = huffmanBits v ++ h.bits ∧ (h.add v).bitbuffer < 2 ^ (h.add v).bitsToGo3 ∧
      (h.add v).bitsToGo3 ≤ 13 := by
  obtain ⟨hcv, hlen⟩ := hcode_lt v
  have hfew := ho.few
  have hsmall : hcode v * 2 ^ h.bitsToGo3 < 2 ^ 32 := by
    calc hcode v * 2 ^ h.bitsToGo3 < 2 ^ hncode v * 2 ^ h.bitsToGo3 :=
          Nat.mul_lt_mul_of_pos_right hcv (Nat.two_pow_pos _)
      _ = 2 ^ (hncode v + h.bitsToGo3) := (Nat.pow_add _ _ _).symm
      _ ≤ 2 ^ 32 := Nat.pow_le_pow_right (by decide) (by omega)
  have hsum : (h.add v).bitbuffer = 2 ^ h.bitsToGo3 * hcode v + h.bitbuffer := by
    show h.bitbuffer ||| hcode v * 2 ^ h.bitsToGo3 % 2 ^ 32 = _
    rw [Nat.mod_eq_of_lt hsmall, Nat.or_comm, Nat.mul_comm, Nat.two_pow_add_eq_or_of_lt ho.clear]
  have hbits : bitsOf (h.add v).bitsToGo3 (h.add v).bitbuffer =
      huffmanBits v ++ bitsOf h.bitsToGo3 h.bitbuffer := by
    show bitsOf (h.bitsToGo3 + hncode v) (h.add v).bitbuffer = _
    rw [hsum, Nat.add_comm h.bitsToGo3, bitsOf_add, Nat.mul_add_div (Nat.two_pow_pos _),
      Nat.div_eq_of_lt ho.clear,
      Nat.add_zero, ← bitsOf_mod h.bitsToGo3 (_ + _), Nat.mul_add_mod, bitsOf_mod]
    rfl
  refine ⟨?_, ?_, show h.bitsToGo3 + hncode v ≤ 13 by omega⟩
  · rw [HuffBuf.bits, hbits, List.append_assoc]
    rfl
  · show _ < 2 ^ (h.bitsToGo3 + hncode v)
    rw [hsum, Nat.pow_add]
    calc 2 ^ h.bitsToGo3 * hcode v + h.bitbuffer < 2 ^ h.bitsToGo3 * hcode v + 2 ^ h.bitsToGo3 :=
          Nat.add_lt_add_left ho.clear _
      _ = 2 ^ h.bitsToGo3 * (hcode v + 1) := by ring
      _ ≤ 2 ^ h.bitsToGo3 * 2 ^ hncode v := Nat.mul_le_mul_left _ hcv

/-- A full byte moves from the bits to the bytes. -/
theorem HuffBuf.shift_bits {x : Nat} (hb : h.b < h.buffer.length) (hfull : 8 ≤ h.bitsToGo3)
    (hx : x = h.bitbuffer % 2 ^ 8) :
    (h.shift (h.buffer.set h.b (UInt8.ofNat x))).bits = h.bits := by
  have hbyte : (UInt8.ofNat x).toNat = h.bitbuffer % 2 ^ 8 := by
    rw [hx]
    simp
  have htake : (h.buffer.set h.b (UInt8.ofNat x)).take (h.b + 1) =
      h.buffer.take h.b ++ [UInt8.ofNat x] := by
    rw [List.take_add_one, List.take_set_of_le (Nat.le_refl _), List.getElem?_set_self hb]
    rfl
  have hsplit : bitsOf h.bitsToGo3 h.bitbuffer =
      bitsOf (h.bitsToGo3 - 8) (h.bitbuffer / 2 ^ 8) ++ bitsOf 8 h.bitbuffer := by
    rw [← bitsOf_add, Nat.sub_add_cancel hfull]
  rw [HuffBuf.bits, HuffBuf.bits, hsplit]
  show _ ++ ofBytes ((h.buffer.set h.b _).take (h.b + 1)).reverse = _
  rw [htake, List.reverse_append, List.reverse_singleton, List.singleton_append, ofBytes,
    List.flatMap_cons, hbyte, bitsOf_mod, List.append_assoc]
  rfl

/-- `bufcopy` puts the codes of a stretch of the array into the buffer, if it has room. -/
theorem bufcopy_spec {a : List Nybble} (k : Nat) :
    ∀ (i : Nat) (h : HuffBuf), i + k ≤ a.length → h.Open bmax →
    ∃ h' full, bufcopy a bmax (List.range' i k) h = .ok (h', full) ∧ h'.buffer.length = bmax ∧
      (full = false → h'.Open bmax ∧ h'.bits = codeBits ((a.drop i).take k) ++ h.bits) := by
  induction k with
  | zero =>
    intro i h _ ho
    exact ⟨h, false, rfl, ho.size, fun _ => ⟨ho, rfl⟩⟩
  | succ k ih =>
    intro i h hi ho
    have hlt : i < a.length := by omega
    have hcodes : (a.drop i).take (k + 1) = a.getD i 0 :: (a.drop (i + 1)).take k := by
      rw [List.drop_eq_getElem_cons hlt, List.take_succ_cons, List.getD_eq_getElem _ _ hlt]
    rw [List.range'_succ, hcodes, codeBits_cons]
    show ∃ h' full, (getAt a i >>= _) = _ ∧ _
    rw [getAt_of_lt hlt 0, ok_bind]
    by_cases hzero : a.getD i 0 = 0
    · obtain ⟨h', full, hrun, hsize, hdone⟩ := ih (i + 1) h (by omega) ho
      refine ⟨h', full, by rw [if_pos hzero, hrun], hsize, fun hfull => ?_⟩
      rw [if_pos hzero, List.append_nil]
      exact hdone hfull
    · obtain ⟨hbits, hclear, hfew⟩ := ho.add (a.getD i 0)
      rw [if_neg hzero, if_neg hzero]
      by_cases hbyte : 8 ≤ (h.add (a.getD i 0)).bitsToGo3
      · have hroom : h.b < h.buffer.length := by
          rw [ho.size]
          exact ho.room
        rw [if_pos hbyte, setAt_of_lt hroom, ok_bind]
        by_cases hmax : bmax ≤ h.b + 1
        · exact ⟨_, true, by rw [if_pos hmax]; rfl, by rw [List.length_set, ho.size],
            fun hf => (nomatch hf)⟩
        · rw [if_neg hmax]
          have hshift : ((h.add (a.getD i 0)).shift
              (h.buffer.set h.b (UInt8.ofNat ((h.add (a.getD i 0)).bitbuffer % 2 ^ 8)))).bits =
                (h.add (a.getD i 0)).bits :=
            HuffBuf.shift_bits (h := h.add (a.getD i 0)) hroom hbyte rfl
          have hopen : ((h.add (a.getD i 0)).shift
              (h.buffer.set h.b (UInt8.ofNat ((h.add (a.getD i 0)).bitbuffer % 2 ^ 8)))).Open
                bmax :=
            { size := by
                show (h.buffer.set h.b _).length = bmax
                rw [List.length_set, ho.size]
              room := Nat.lt_of_not_le hmax
              few := by
                show (h.add (a.getD i 0)).bitsToGo3 - 8 ≤ 7
                omega
              clear := by
                show (h.add (a.getD i 0)).bitbuffer / 2 ^ 8 <
                  2 ^ ((h.add (a.getD i 0)).bitsToGo3 - 8)
                rw [Nat.div_lt_iff_lt_mul (Nat.two_pow_pos 8), ← Nat.pow_add,
                  Nat.sub_add_cancel hbyte]
                exact hclear }
          obtain ⟨h', full, hrun, hsize, hdone⟩ := ih (i + 1) _ (by omega) hopen
          refine ⟨h', full, hrun, hsize, fun hfull => ⟨(hdone hfull).1, ?_⟩⟩
          rw [(hdone hfull).2, hshift, hbits, List.append_assoc]
      · rw [if_neg hbyte]
        have hopen : (h.add (a.getD i 0)).Open bmax := ⟨ho.size, ho.room, by omega, hclear⟩
        obtain ⟨h', full, hrun, hsize, hdone⟩ := ih (i + 1) _ (by omega) hopen
        refine ⟨h', full, hrun, hsize, fun hfull => ⟨(hdone hfull).1, ?_⟩⟩
        rw [(hdone hfull).2, hbits, List.append_assoc]

end

/-! ## Levels -/

/-- The length of an axis after `m` reductions. -/
def halves : Nat → Nat → Nat
  | 0, n => n
  | m + 1, n => half (halves m n)

theorem halves_succ (m n : Nat) : halves (m + 1) n = halves m (half n) := by
  induction m with
  | zero => rfl
  | succ m ih => rw [halves, ih, halves]

/-- A cell of level `m` stands for `2 ^ m` cells. -/
theorem halves_eq (m n : Nat) : halves m n = (n + 2 ^ m - 1) / 2 ^ m := by
  induction m with
  | zero => simp [halves]
  | succ m ih =>
    have hpos := Nat.two_pow_pos m
    have hone : n + 2 ^ (m + 1) - 1 = (n + 2 ^ m - 1) + 2 ^ m * 1 := by
      rw [Nat.pow_succ]
      omega
    rw [halves, ih, half, Nat.pow_succ, ← Nat.div_div_eq_div_mul, ← Nat.pow_succ, hone,
      Nat.add_mul_div_left _ _ hpos]

theorem halves_pos {n : Nat} (hn : 0 < n) (m : Nat) : 0 < halves m n := by
  induction m with
  | zero => exact hn
  | succ m ih =>
    show 0 < half (halves m n)
    unfold half
    omega

/-- One cell is left after enough reductions. -/
theorem halves_eq_one {n m : Nat} (hn : 0 < n) (h : n ≤ 2 ^ m) : halves m n = 1 := by
  rw [halves_eq]
  exact Nat.div_eq_of_lt_le (by omega) (by omega)

section

variable {nx ny : Nat} {low : List Nybble}

/-- The nybbles of level `m` over those of a plane. -/
def level (nx ny : Nat) (low : List Nybble) : Nat → List Nybble
  | 0 => low
  | m + 1 => reduceLevel (halves m nx) (halves m ny) (level nx ny low m)

/-- The codes of the levels below `m`, from the last one of the highest level on. -/
def codesBelow (nx ny : Nat) (low : List Nybble) : Nat → List Bool
  | 0 => []
  | m + 1 => codeBits (level nx ny low m) ++ codesBelow nx ny low m

theorem level_length (hlow : low.length = nx * ny) (m : Nat) :
    (level nx ny low m).length = halves m nx * halves m ny := by
  cases m with
  | zero => exact hlow
  | succ m => exact reduceLevel_length _ _ _

/-- What lies behind the cells is not looked at. -/
theorem reduceLevel_append (hlow : low.length = nx * ny) (tail : List Nybble) :
    reduceLevel nx ny (low ++ tail) = reduceLevel nx ny low := by
  refine List.map_congr_left fun block _ => orCells_congr fun c hc => ?_
  have hlt : c.pos ny < low.length := (covers_rows (Nat.le_of_eq hlow.symm)).pos_lt hc
  rw [List.getD_append _ _ _ _ hlt]

/-- The passes of the encoder go through the levels, and put their codes in front of
those that are in the buffer. -/
theorem encodePasses_spec {bmax : Nat} (hlow : low.length = nx * ny) (k : Nat) :
    ∀ (m : Nat) (tail : List Nybble)
    (h : HuffBuf), h.Open bmax → h.bits = codesBelow nx ny low m →
    ∃ passes, encodePasses bmax k (halves m nx) (halves m ny) (level nx ny low m ++ tail)
      h = .ok passes ∧
      passes.scratch.length = (level nx ny low m ++ tail).length ∧
      passes.huff.buffer.length = bmax ∧
      (passes.overflowed = false →
        passes.huff.Open bmax ∧ passes.huff.bits = codesBelow nx ny low (m + k + 1)) := by
  have hcopy : ∀ (m : Nat) (tail : List Nybble) (h : HuffBuf), h.Open bmax →
      h.bits = codesBelow nx ny low m →
      ∃ h' full,
        bufcopy (level nx ny low m ++ tail) bmax (List.range (halves m nx * halves m ny)) h =
        .ok (h', full) ∧ h'.buffer.length = bmax ∧
        (full = false → h'.Open bmax ∧ h'.bits = codesBelow nx ny low (m + 1)) := by
    intro m tail h ho hbits
    have hlen := level_length hlow m
    obtain ⟨h', full, hrun, hsize, hdone⟩ := bufcopy_spec (a := level nx ny low m ++ tail)
      (halves m nx * halves m ny) 0 h (by rw [List.length_append, hlen]; omega) ho
    rw [← List.range_eq_range'] at hrun
    refine ⟨h', full, hrun, hsize, fun hfull => ⟨(hdone hfull).1, ?_⟩⟩
    rw [(hdone hfull).2, List.drop_zero, List.take_left' hlen, hbits]
    rfl
  induction k with
  | zero =>
    intro m tail h ho hbits
    obtain ⟨h', full, hrun, hsize, hdone⟩ := hcopy m tail h ho hbits
    refine ⟨⟨level nx ny low m ++ tail, h', full⟩, ?_, rfl, hsize, hdone⟩
    rw [encodePasses, hrun]
    rfl
  | succ k ih =>
    intro m tail h ho hbits
    obtain ⟨h', full, hrun, hsize, hdone⟩ := hcopy m tail h ho hbits
    rw [encodePasses, hrun, ok_bind]
    cases full with
    | true =>
      exact ⟨_, if_pos rfl, rfl, hsize, fun hf => (nomatch hf)⟩
    | false =>
      obtain ⟨ho', hbits'⟩ := hdone rfl
      have hlen := level_length hlow m
      have hroom : halves m nx * halves m ny ≤ (level nx ny low m ++ tail).length := by
        rw [List.length_append, hlen]
        omega
      rw [if_neg (by simp), qtreeReduce_eq hroom, reduceLevel_append hlen, ok_bind]
      obtain ⟨passes, hpasses, hscratch, hbuffer, hfinal⟩ := ih (m + 1)
        ((level nx ny low m ++ tail).drop (half (halves m nx) * half (halves m ny))) h' ho' hbits'
      refine ⟨passes, hpasses, ?_, hbuffer, fun hf => ?_⟩
      · have hnext : (level nx ny low (m + 1)).length = half (halves m nx) * half (halves m ny) :=
          level_length hlow (m + 1)
        have hhalf := half_mul_half_le (halves m nx) (halves m ny)
        rw [hscratch, List.length_append, hnext, List.length_drop]
        omega
      · have hidx : m + (k + 1) + 1 = m + 1 + k + 1 := by omega
        rw [hidx]
        exact hfinal hf

/-- A level that is zero has only zeros below it. -/
theorem zeros_of_reduceLevel (hlow : low.length = nx * ny)
    (h : ∀ v ∈ reduceLevel nx ny low, v = 0) :
    ∀ v ∈ low, v = 0 := by
  intro v hv
  obtain ⟨i, hi, hvi⟩ := List.getElem_of_mem hv
  have hny : 0 < ny := Nat.pos_of_ne_zero fun h0 => by
    rw [hlow, h0, Nat.mul_zero] at hi
    omega
  have hrow : i / ny < nx := Nat.div_lt_of_lt_mul (by rw [Nat.mul_comm, ← hlow]; exact hi)
  have hcol : i % ny < ny := Nat.mod_lt i hny
  have hzero : reduceCode low nx ny (i / ny / 2, i % ny / 2) = 0 :=
    h _ (List.mem_map.2 ⟨_, mem_blocks.2 ⟨half_lt hrow, half_lt hcol⟩, rfl⟩)
  have hbit :
      (reduceCode low nx ny (i / ny / 2, i % ny / 2)).getLsbD (cellAt (i / ny) (i % ny)).bit =
      (low.getD (ny * (i / ny) + i % ny) 0 != 0) := getLsbD_reduceCode hrow hcol
  rw [hzero, Nat.div_add_mod, List.getD_eq_getElem _ _ hi, hvi] at hbit
  by_contra hne
  rw [bne_iff_ne.2 hne] at hbit
  simp at hbit

theorem codesBelow_of_zeros (hlow : low.length = nx * ny) :
    ∀ m, (∀ v ∈ level nx ny low m, v = 0) → codesBelow nx ny low m = []
  | 0, _ => rfl
  | m + 1, h => by
    have hbelow := zeros_of_reduceLevel (level_length hlow m) h
    rw [codesBelow, codeBits_of_zeros hbelow, codesBelow_of_zeros hlow m hbelow]
    rfl

end

/-! ## Writing a tree -/

section

variable {h : HuffBuf} {bmax : Nat}

theorem writes_bytes : ∀ bytes : List UInt8,
    Writes (fun wr => bytes.foldl (fun wr byte => wr.outputNbits byte.toNat 8) wr) (ofBytes bytes)
  | [] => fun wr hwr => ⟨hwr, (List.append_nil _).symm⟩
  | byte :: rest => (writes_outputNbits byte.toNat (by omega)).comp (writes_bytes rest)

/-- The bits that do not fill a byte. -/
def HWriter.outputLeft (h : HuffBuf) (wr : HWriter) : HWriter :=
  if 0 < h.bitsToGo3 then wr.outputNbits (h.bitbuffer % 2 ^ h.bitsToGo3) h.bitsToGo3 else wr

theorem writes_outputLeft (ho : h.Open bmax) :
    Writes (HWriter.outputLeft h) (bitsOf h.bitsToGo3 h.bitbuffer) := by
  have hfew := ho.few
  intro wr hwr
  rw [HWriter.outputLeft]
  by_cases hpos : 0 < h.bitsToGo3
  · rw [if_pos hpos, ← bitsOf_mod h.bitsToGo3]
    exact writes_outputNbits _ (by omega) wr hwr
  · rw [if_neg hpos, Nat.eq_zero_of_not_pos hpos]
    exact ⟨hwr, (List.append_nil _).symm⟩

theorem outputHuffman_eq (h : HuffBuf) (wr : HWriter) : wr.outputHuffman h =
    if h.b = 0 then
      if 0 < h.bitsToGo3 then (wr.outputNybble 0xF).outputLeft h
      else (wr.outputNybble 0xF).outputNbits (hcode 0) (hncode 0)
    else (h.buffer.take h.b).reverse.foldl (fun wr byte => wr.outputNbits byte.toNat 8)
      ((wr.outputNybble 0xF).outputLeft h) := by
  rw [HWriter.outputHuffman]
  by_cases hpos : 0 < h.bitsToGo3
  · simp only [HWriter.outputLeft, if_pos hpos]
  · simp only [HWriter.outputLeft, if_neg hpos]

/-- A plane without codes is written as the code of zero. -/
theorem writes_outputHuffman (ho : h.Open bmax) :
    Writes (HWriter.outputHuffman h) (nybbleBits 0xF ++ if h.bits = [] then huffmanBits 0
      else h.bits) := by
  have hmark := writes_outputNybble 0xF
  have hleft := writes_outputLeft ho
  intro wr hwr
  rw [outputHuffman_eq]
  by_cases hb : h.b = 0
  · have hbits : h.bits = bitsOf h.bitsToGo3 h.bitbuffer := by
      rw [HuffBuf.bits, hb]
      exact List.append_nil _
    rw [if_pos hb, hbits]
    by_cases hpos : 0 < h.bitsToGo3
    · have hsome : bitsOf h.bitsToGo3 h.bitbuffer ≠ [] := by
        intro hnil
        have hlen := congrArg List.length hnil
        rw [bitsOf_length] at hlen
        exact Nat.ne_of_gt hpos hlen
      rw [if_pos hpos, if_neg hsome]
      exact hmark.comp hleft wr hwr
    · have hnone : bitsOf h.bitsToGo3 h.bitbuffer = [] := by
        rw [Nat.eq_zero_of_not_pos hpos]
        rfl
      rw [if_neg hpos, if_pos hnone]
      exact hmark.comp (writes_outputNbits (hcode 0) (by decide)) wr hwr
  · have hsome : h.bits ≠ [] := by
      intro hnil
      have hroom := ho.room
      have hlen := congrArg List.length hnil
      rw [HuffBuf.bits, List.length_append, ofBytes_length, List.length_reverse,
        List.length_take, ho.size, List.length_nil] at hlen
      omega
    rw [if_neg hb, if_neg hsome]
    exact hmark.comp (hleft.comp (writes_bytes _)) wr hwr

end

/-! ## Expanding -/

section

variable {nx ny : Nat} {low : List Nybble}

/-- One cell is read anew if it is not zero, and zero stays. -/
theorem reads_refineCell {s : List Nybble} {i : Nat} {v : Nybble} (hi : i < s.length)
    (hv : s.getD i 0 = 0 ↔ v = 0) : Reads (refineCell s i) (codeBits [v]) (s.set i v) := by
  have hget : (getAt s i : Outcome PyErr Nybble) = .ok (s.getD i 0) := getAt_of_lt hi 0
  have hread := Reads.lift hget
  unfold refineCell
  rw [← List.nil_append (codeBits [v])]
  refine hread.bind ?_
  rw [codeBits_cons]
  by_cases hzero : v = 0
  · have hsame : s.set i v = s := by
      rw [hzero, ← hv.2 hzero, List.getD_eq_getElem _ _ hi, List.set_getElem_self]
    rw [if_pos (hv.2 hzero), if_pos hzero, hsame]
    exact Reads.pure s
  · rw [if_neg (mt hv.1 hzero), if_neg hzero]
    exact (reads_inputHuffman v).map (Reads.lift (setAt_of_lt hi v))

/-- The cells are read from the last one on, and those that come later are done. -/
theorem reads_refine (m : Nat) : ∀ s : List Nybble, m ≤ low.length → m ≤ s.length →
    (∀ i < m, s.getD i 0 = 0 ↔ low.getD i 0 = 0) →
    Reads ((List.range m).reverse.foldlM refineCell s) (codeBits (low.take m))
      (low.take m ++ s.drop m) := by
  induction m with
  | zero =>
    intro s _ _ _
    exact Reads.pure s
  | succ m ih =>
    intro s hlow hs hflags
    have hlast : low.take (m + 1) = low.take m ++ [low.getD m 0] := by
      rw [List.take_add_one, List.getD_eq_getElem _ _ (by omega),
        List.getElem?_eq_getElem (by omega)]
      rfl
    have hdrop : (s.set m (low.getD m 0)).drop m = low.getD m 0 :: s.drop (m + 1) := by
      rw [List.drop_eq_getElem_cons (by rw [List.length_set]; omega), List.getElem_set_self,
        List.drop_set_of_lt (by omega)]
    rw [List.range_succ, List.reverse_append, List.reverse_singleton, List.singleton_append,
      List.foldlM_cons, hlast, codeBits_append, List.append_assoc, List.singleton_append, ← hdrop]
    refine (reads_refineCell (by omega) (hflags m (by omega))).bind (ih _ (by omega) ?_ ?_)
    · rw [List.length_set]
      omega
    · intro i hi
      rw [List.getD_eq_getElem?_getD, List.getElem?_set_ne (by omega), ← List.getD_eq_getElem?_getD]
      exact hflags i (by omega)

/-- An expansion undoes a reduction, and reads the codes of the level. -/
theorem reads_qtreeExpand {s tail : List Nybble} (hlow : low.length = nx * ny)
    (hs : nx * ny ≤ s.length) (hfront : s = reduceLevel nx ny low ++ tail) :
    ∃ tail', Reads (qtreeExpand s nx ny) (codeBits low) (low ++ tail') ∧ (low ++ tail').length =
      s.length := by
  obtain ⟨a, ha, hlen, hcells⟩ := qtreeCopy_spec hs
  have hflags : ∀ i < nx * ny, a.getD i 0 = 0 ↔ low.getD i 0 = 0 := by
    intro i hi
    have hny : 0 < ny := Nat.pos_of_ne_zero fun h0 => by
      rw [h0, Nat.mul_zero] at hi
      omega
    have hrow : i / ny < nx := Nat.div_lt_of_lt_mul (by rw [Nat.mul_comm]; exact hi)
    have hcol : i % ny < ny := Nat.mod_lt i hny
    have hblock : half ny * (i / ny / 2) + i % ny / 2 < (reduceLevel nx ny low).length := by
      have h :=
        covers_rows (Nat.le_of_eq (reduceLevel_length nx ny low).symm) _ (half_lt hrow) _
          (half_lt hcol)
      exact h
    have hcode :
        codeOver s ny (i / ny) (i % ny) = reduceCode low nx ny (i / ny / 2, i % ny / 2) := by
      have hat := map_grid_getElem? (reduceCode low nx ny) (half_lt hrow) (half_lt hcol)
      rw [codeOver, hfront, List.getD_append _ _ _ _ hblock, List.getD_eq_getElem?_getD]
      show ((blocks nx ny).map (reduceCode low nx ny))[_]?.getD 0 = _
      rw [blocks, hat]
      rfl
    have hcell := hcells _ hrow _ hcol
    rw [hcode, getLsbD_reduceCode hrow hcol, Nat.div_add_mod] at hcell
    rw [List.getD_eq_getElem?_getD, hcell]
    by_cases hzero : low.getD i 0 = 0 <;> simp [flag]
  have hrefine := reads_refine (nx * ny) a (Nat.le_of_eq hlow.symm) (by omega) hflags
  rw [List.take_of_length_le (Nat.le_of_eq hlow)] at hrefine
  refine ⟨a.drop (nx * ny), ?_, ?_⟩
  · have hread :=
      (Reads.lift ha).bind (f := fun a =>
        (List.range (nx * ny)).reverse.foldlM refineCell a) hrefine
    rw [List.nil_append] at hread
    exact hread
  · rw [List.length_append, List.length_drop, hlow, hlen]
    omega

end

/-! ## The lengths of the axes -/

/-- All but the last of the cells of an axis stand for `c` cells each. -/
structure Axis.Holds (nq c : Nat) (axis : Axis) : Prop where
  pos : 1 ≤ axis.n
  covers : nq = (axis.n - 1) * c + axis.nf
  some : 1 ≤ axis.nf
  fits : axis.nf ≤ c

theorem Axis.Holds.start {nq c : Nat} (hnq : 1 ≤ nq) (hc : nq ≤ c) : Axis.Holds nq c ⟨1, nq⟩ :=
  ⟨Nat.le_refl 1, by simp, hnq, hc⟩

theorem Axis.Holds.next {nq c : Nat} {axis : Axis} (h : axis.Holds nq (2 * c)) :
    (axis.next c).Holds nq c := by
  obtain ⟨⟨n, nf⟩, hn, hcovers, hsome, hfits⟩ := axis, h
  obtain ⟨m, rfl⟩ : ∃ m, n = m + 1 := ⟨n - 1, by simp only at hn; omega⟩
  simp only [Nat.add_sub_cancel] at hcovers hsome hfits
  unfold Axis.next
  by_cases hlast : nf ≤ c
  · rw [if_pos hlast]
    refine ⟨by simp only; omega, ?_, hsome, hlast⟩
    show nq = (2 * (m + 1) - 1 - 1) * c + nf
    rw [show 2 * (m + 1) - 1 - 1 = m * 2 by omega, hcovers]
    ring
  · rw [if_neg hlast]
    refine ⟨by simp only; omega, ?_, by simp only; omega, by simp only; omega⟩
    show nq = (2 * (m + 1) - 1) * c + (nf - c)
    have hsplit : (m * 2 + 1) * c = m * (2 * c) + c := by ring
    rw [show 2 * (m + 1) - 1 = m * 2 + 1 by omega, hcovers, hsplit]
    omega

/-- The decoder counts the same cells as the encoder. -/
theorem Axis.Holds.n_eq {nq m : Nat} {axis : Axis} (h : axis.Holds nq (2 ^ m)) :
    axis.n = halves m nq := by
  obtain ⟨hn, hcovers, hsome, hfits⟩ := h
  have hpos := Nat.two_pow_pos m
  obtain ⟨k, hk⟩ : ∃ k, axis.n = k + 1 := ⟨axis.n - 1, by omega⟩
  rw [hk, Nat.add_sub_cancel] at hcovers
  rw [halves_eq, hk]
  symm
  refine Nat.div_eq_of_lt_le ?_ ?_
  · rw [hcovers, Nat.add_one_mul]
    omega
  · rw [hcovers, Nat.add_one_mul, Nat.add_one_mul]
    omega

/-- The levels of a quadrant end in one cell. -/
theorem le_two_pow_log2n (n : Nat) : n ≤ 2 ^ log2n n := by
  have hlog : 2 * n ^ 2 < 2 ^ (Nat.log 2 (2 * n ^ 2) + 1) := Nat.lt_pow_succ_log_self (by decide) _
  unfold log2n
  generalize Nat.log 2 (2 * n ^ 2) = l at hlog
  dsimp only
  by_cases hsmall : 2 ^ (l / 2) < n
  · rw [if_pos hsmall]
    have hle : 2 ^ (l + 1) ≤ 2 ^ (2 * (l / 2 + 1)) := Nat.pow_le_pow_right (by decide) (by omega)
    rw [Nat.mul_comm 2, Nat.pow_mul] at hle
    have hsq : n ^ 2 < (2 ^ (l / 2 + 1)) ^ 2 := by omega
    exact Nat.le_of_lt (lt_of_pow_lt_pow_left₀ 2 (Nat.zero_le _) hsq)
  · rw [if_neg hsmall]
    exact Nat.le_of_not_lt hsmall

/-- There are no more levels than it takes. -/
theorem log2n_le {n l : Nat} (h : n ≤ 2 ^ l) : log2n n ≤ l := by
  have hrounded : Nat.log 2 (2 * n ^ 2) / 2 ≤ l := by
    have hsq : 2 * n ^ 2 ≤ 2 ^ (2 * l + 1) := by
      have hle : n ^ 2 ≤ (2 ^ l) ^ 2 := Nat.pow_le_pow_left h 2
      rw [← Nat.pow_mul, Nat.mul_comm l] at hle
      calc 2 * n ^ 2 ≤ 2 * 2 ^ (2 * l) := Nat.mul_le_mul_left 2 hle
        _ = 2 ^ (2 * l + 1) := (Nat.pow_succ' ..).symm
    have hlog := Nat.log_mono_right (b := 2) hsq
    rw [Nat.log_pow (by decide)] at hlog
    omega
  unfold log2n
  generalize Nat.log 2 (2 * n ^ 2) / 2 = r at hrounded
  dsimp only
  split_ifs with hsmall
  · have hlt : 2 ^ r < 2 ^ l := Nat.lt_of_lt_of_le hsmall h
    exact (Nat.pow_lt_pow_iff_right (by decide)).1 hlt
  · exact hrounded

/-! ## Reading a tree -/

section

variable {nqx nqy : Nat} {low : List Nybble}

theorem halves_le (m n : Nat) : halves m n ≤ n := by
  induction m with
  | zero => exact Nat.le_refl n
  | succ m ih => exact Nat.le_trans (half_le _) ih

/-- The expansions go down the levels, from any scratch array with level `k` in front. -/
theorem reads_expandLevels (hlow : low.length = half nqx * half nqy) (k : Nat) :
    ∀ (x y : Axis) (tail : List Nybble),
    x.Holds nqx (2 ^ (k + 1)) → y.Holds nqy (2 ^ (k + 1)) →
    (level (half nqx) (half nqy) low k ++ tail).length = half nqx * half nqy →
    Reads (expandLevels k x y (2 ^ (k + 1)) (level (half nqx) (half nqy) low k ++ tail))
      (codesBelow (half nqx) (half nqy) low k) low := by
  induction k with
  | zero =>
    intro x y tail _ _ hlen
    have htail : tail = [] := by
      rw [List.length_append, show level (half nqx) (half nqy) low 0 = low from rfl, hlow] at hlen
      exact List.length_eq_zero_iff.1 (by omega)
    rw [htail, List.append_nil]
    exact Reads.pure low
  | succ k ih =>
    intro x y tail hx hy hlen
    have hc : 2 ^ (k + 1 + 1) / 2 = 2 ^ (k + 1) := by
      rw [Nat.pow_succ]
      exact Nat.mul_div_cancel _ (by decide)
    have hx' : (x.next (2 ^ (k + 1))).Holds nqx (2 ^ (k + 1)) :=
      Axis.Holds.next (by rw [Nat.mul_comm, ← Nat.pow_succ]; exact hx)
    have hy' : (y.next (2 ^ (k + 1))).Holds nqy (2 ^ (k + 1)) :=
      Axis.Holds.next (by rw [Nat.mul_comm, ← Nat.pow_succ]; exact hy)
    have hsize : halves k (half nqx) * halves k (half nqy) ≤
        (level (half nqx) (half nqy) low (k + 1) ++ tail).length := by
      rw [hlen]
      exact Nat.mul_le_mul (halves_le _ _) (halves_le _ _)
    obtain ⟨tail', hread, hlen'⟩ := reads_qtreeExpand (level_length hlow k) hsize rfl
    rw [expandLevels, hc, hx'.n_eq, hy'.n_eq, halves_succ, halves_succ]
    exact hread.bind (ih _ _ tail' hx' hy' (hlen'.trans hlen))

/-- What a plane is written as in the form of a tree. -/
def treeBits (nqx nqy : Nat) (low : List Nybble) : List Bool :=
  let codes := codesBelow (half nqx) (half nqy) low (log2n (max nqx nqy) - 1 + 1)
  if codes = [] then huffmanBits 0 else codes

/-- The code of the top comes first. -/
theorem treeBits_eq (hx : 1 ≤ nqx) (hy : 1 ≤ nqy) (hlow : low.length = half nqx * half nqy) :
    ∃ top, level (half nqx) (half nqy) low (log2n (max nqx nqy) - 1) = [top] ∧
      treeBits nqx nqy low =
      huffmanBits top ++ codesBelow (half nqx) (half nqy) low (log2n (max nqx nqy) - 1) := by
  have hmax : max nqx nqy ≤ 2 ^ (log2n (max nqx nqy) - 1 + 1) :=
    Nat.le_trans (le_two_pow_log2n _) (Nat.pow_le_pow_right (by decide) (by omega))
  unfold treeBits
  generalize log2n (max nqx nqy) - 1 = m at hmax ⊢
  have hone : (level (half nqx) (half nqy) low m).length = 1 := by
    rw [level_length hlow, ← halves_succ, ← halves_succ, halves_eq_one hx (by omega),
      halves_eq_one hy (by omega)]
  obtain ⟨top, htop⟩ := List.length_eq_one_iff.1 hone
  refine ⟨top, htop, ?_⟩
  have hcodes : codesBelow (half nqx) (half nqy) low (m + 1) =
      codeBits [top] ++ codesBelow (half nqx) (half nqy) low m := by
    rw [codesBelow, htop]
  dsimp only
  rw [hcodes]
  by_cases hzero : top = 0
  · have hnone : codesBelow (half nqx) (half nqy) low m = [] :=
      codesBelow_of_zeros hlow m fun v hv => by
        rw [htop] at hv
        rw [List.mem_singleton.1 hv, hzero]
    rw [hzero, hnone]
    rfl
  · have htopbits : codeBits [top] = huffmanBits top := by
      rw [codeBits_cons, if_neg hzero]
      rfl
    rw [htopbits, if_neg]
    intro hnil
    exact huffmanBits_ne_nil top (List.append_eq_nil_iff.1 hnil).1

/-- The expansions that follow the code of the top. -/
theorem reads_levels (hx : 1 ≤ nqx) (hy : 1 ≤ nqy) (hlow : low.length = half nqx * half nqy)
    {top : Nybble}
    (htop : level (half nqx) (half nqy) low (log2n (max nqx nqy) - 1) = [top]) {s : List Nybble}
    (hs : s.length = half nqx * half nqy) :
    Reads (expandLevels (log2n (max nqx nqy) - 1) ⟨1, nqx⟩ ⟨1, nqy⟩ (2 ^ log2n (max nqx nqy))
      (s.set 0 top))
      (codesBelow (half nqx) (half nqy) low (log2n (max nqx nqy) - 1)) low := by
  have hmax := le_two_pow_log2n (max nqx nqy)
  have hpos : 0 < half nqx * half nqy := Nat.mul_pos (by unfold half; omega) (by unfold half; omega)
  have hfront : s.set 0 top = [top] ++ s.drop 1 := by
    cases s with
    | nil =>
      rw [List.length_nil] at hs
      omega
    | cons v s => rfl
  generalize log2n (max nqx nqy) = l at hmax htop ⊢
  -- Without expansions the length of the axes is not looked at.
  have hc : expandLevels (l - 1) ⟨1, nqx⟩ ⟨1, nqy⟩ (2 ^ l) (s.set 0 top) =
      expandLevels (l - 1) ⟨1, nqx⟩ ⟨1, nqy⟩ (2 ^ (l - 1 + 1)) (s.set 0 top) := by
    cases l with
    | zero => rfl
    | succ l => rfl
  have hle : 2 ^ l ≤ 2 ^ (l - 1 + 1) := Nat.pow_le_pow_right (by decide) (by omega)
  have hlen : (s.set 0 top).length = half nqx * half nqy := by rw [List.length_set, hs]
  rw [hc]
  rw [hfront, ← htop] at hlen ⊢
  exact reads_expandLevels hlow (l - 1) _ _ _ (Axis.Holds.start hx (by omega))
    (Axis.Holds.start hy (by omega)) hlen

end

end RustFits.Zimage.Hcompress
