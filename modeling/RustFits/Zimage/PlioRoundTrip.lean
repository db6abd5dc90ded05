import RustFits.Zimage.PlioWords

/-!
# When PLIO streams read back

Four things can go wrong between `encode_plio_i32` and `decode_plio`, all of them
before the pixels reach the output:

* `Run.FarLone`: a single pixel whose high value takes two words.  The single-pixel
  bit goes into the second one, which is data, and no word writes the pixel.
* `Run.FullGap`: a single pixel behind zeros that fill their last word.  Its length
  field overflows into the opcode and the zeros of the word are lost.
* A count from 2^31 on is cut by the cast to `i32`.
* The header has 30 bits for the number of words.

`Codable` excludes them, and `plio_roundTrip` says that nothing else goes wrong and
that each of them does.
-/

namespace RustFits.Zimage.Plio

open Ascii ByteFile Machine BigEndian

/-! ## Pieces -/

theorem pieces_spec :
    ∀ (fuel remain : Nat), remain ≤ fuel →
      (pieces fuel remain).sum = remain ∧ ∀ n ∈ pieces fuel remain, n ≤ 4095 := by
  intro fuel
  induction fuel with
  | zero =>
    intro remain h
    simp [pieces, Nat.le_zero.1 h]
  | succ fuel ih =>
    intro remain h
    rw [pieces]
    by_cases hzero : remain = 0
    · simp [hzero]
    · obtain ⟨hsum, hle⟩ := ih (remain - 4095) (by omega)
      rw [if_neg hzero, List.sum_cons, hsum]
      refine ⟨by omega, fun n hn => ?_⟩
      rcases List.mem_cons.1 hn with rfl | hn
      · exact Nat.min_le_right _ _
      · exact hle n hn

theorem pieces_length :
    ∀ (fuel remain : Nat), remain ≤ fuel →
    (pieces fuel remain).length = (remain + 4094) / 4095 := by
  intro fuel
  induction fuel with
  | zero =>
    intro remain h
    simp [pieces, Nat.le_zero.1 h]
  | succ fuel ih =>
    intro remain h
    rw [pieces]
    by_cases hzero : remain = 0
    · simp [hzero]
    · rw [if_neg hzero, List.length_cons, ih _ (by omega)]
      omega

/-- The last piece is the rest of the division, or a whole one. -/
theorem pieces_last :
    ∀ (fuel remain : Nat), remain ≤ fuel → 0 < remain →
      ∃ init, pieces fuel remain = init ++ [(remain - 1) % 4095 + 1] := by
  intro fuel
  induction fuel with
  | zero =>
    intro remain h hpos
    omega
  | succ fuel ih =>
    intro remain h hpos
    rw [pieces, if_neg (by omega)]
    by_cases hlast : remain ≤ 4095
    · have hrest : pieces fuel (remain - 4095) = [] := by
        rw [show remain - 4095 = 0 by omega]
        cases fuel <;> rfl
      refine ⟨[], ?_⟩
      rw [hrest, List.nil_append, show min remain 4095 = (remain - 1) % 4095 + 1 by omega]
    · obtain ⟨init, hinit⟩ := ih (remain - 4095) (by omega) (by omega)
      refine ⟨min remain 4095 :: init, ?_⟩
      rw [hinit, List.cons_append, show (remain - 4095 - 1) % 4095 = (remain - 1) % 4095 by omega]

/-- The count that is left of `n` behind the cast to `i32`. -/
def countCast (n : Nat) : Nat := (asI32 n).toNat

theorem countCast_of_lt {n : Nat} (h : n < 2147483648) : countCast n = n := by
  rw [countCast, asI32_of_range (by omega), Int.toNat_natCast]

theorem countCast_lt (n : Nat) : countCast n < 2147483648 := by
  have h := asI32_range n
  unfold countCast
  omega

theorem countCast_lt_of_le {n : Nat} (h : 2147483648 ≤ n) : countCast n < n :=
  Nat.lt_of_lt_of_le (countCast_lt n) h

theorem countCast_le (n : Nat) : countCast n ≤ n := by
  by_cases h : n < 2147483648
  · exact Nat.le_of_eq (countCast_of_lt h)
  · exact Nat.le_of_lt (countCast_lt_of_le (by omega))

/-- The words of a count, with the last piece apart. -/
theorem pieces_countCast_last {n : Nat} (h : 0 < countCast n) :
    ∃ init : List Nat, pieces (countCast n) (countCast n) = init ++ [(countCast n - 1) % 4095 + 1] ∧
      init.sum = countCast n - ((countCast n - 1) % 4095 + 1) ∧ ∀ k ∈ init, k ≤ 4095 := by
  obtain ⟨init, hinit⟩ := pieces_last _ _ (Nat.le_refl (countCast n)) h
  obtain ⟨hsum, hle⟩ := pieces_spec _ _ (Nat.le_refl (countCast n))
  rw [hinit, List.sum_append, List.sum_singleton] at hsum
  refine ⟨init, hinit, by omega, fun k hk => hle k ?_⟩
  rw [hinit]
  exact List.mem_append_left _ hk

/-! ## The words of one run -/

/-- The word of a piece of zeros. -/
def zeroWord (n : Nat) : Int := asI16 (n : Int)

/-- The word of a piece of equal pixels. -/
def solidWord (n : Nat) : Int := asI16 ((n : Int) + 16384)

theorem zeroWord_eq {n : Nat} (h : n ≤ 4095) : zeroWord n = n := asI16_of_range (by omega)

theorem solidWord_eq {n : Nat} (h : n ≤ 4095) : solidWord n = ((n + 16384 : Nat) : Int) :=
  asI16_of_range (by omega)

theorem zeroWords_eq (nz : Nat) :
    zeroWords nz = (pieces (countCast nz) (countCast nz)).map zeroWord := rfl

theorem solidWords_eq (np : Nat) :
    solidWords np = (pieces (countCast np) (countCast np)).map solidWord := rfl

theorem decodes_zeroPieces (d : Int) :
    ∀ l : List Nat, (∀ n ∈ l, n ≤ 4095) →
    Decodes d (l.map zeroWord) d (List.replicate l.sum 0) := by
  intro l
  induction l with
  | nil => exact fun _ => .nil d
  | cons n l ih =>
    intro h
    have hn := h n List.mem_cons_self
    rw [List.map_cons, List.sum_cons, List.replicate_add, zeroWord_eq hn]
    exact .zeros n hn (ih fun m hm => h m (List.mem_cons_of_mem _ hm))

theorem decodes_solidPieces (d : Int) :
    ∀ l : List Nat, (∀ n ∈ l, n ≤ 4095) →
    Decodes d (l.map solidWord) d (List.replicate l.sum d) := by
  intro l
  induction l with
  | nil => exact fun _ => .nil d
  | cons n l ih =>
    intro h
    have hn := h n List.mem_cons_self
    rw [List.map_cons, List.sum_cons, List.replicate_add, solidWord_eq hn]
    exact .solid n hn (ih fun m hm => h m (List.mem_cons_of_mem _ hm))

theorem decodes_zeroWords (d : Int) (nz : Nat) :
    Decodes d (zeroWords nz) d (List.replicate (countCast nz) 0) := by
  obtain ⟨hsum, hle⟩ := pieces_spec _ _ (Nat.le_refl (countCast nz))
  have hdec := decodes_zeroPieces d _ hle
  rw [hsum] at hdec
  exact hdec

theorem decodes_solidWords (d : Int) (np : Nat) :
    Decodes d (solidWords np) d (List.replicate (countCast np) d) := by
  obtain ⟨hsum, hle⟩ := pieces_spec _ _ (Nat.le_refl (countCast np))
  have hdec := decodes_solidPieces d _ hle
  rw [hsum] at hdec
  exact hdec

theorem modifyLast_append (f : Int → Int) (init : List Int) (w : Int) :
    modifyLast f (init ++ [w]) = init ++ [f w] := by
  simp [modifyLast]

theorem zeroWords_eq_nil {nz : Nat} (h : countCast nz = 0) : zeroWords nz = [] := by
  rw [zeroWords_eq, h]
  rfl

/-- The test of the encoder on a single pixel behind zeros. -/
theorem merges {words : List Int} {pv : Int} {np : Nat} (hne : words ≠ []) (hnp : np = 1)
    (hpv : 0 < pv) : (!words.isEmpty && decide (np = 1) && decide (0 < pv)) = true := by
  simp [hne, hnp, hpv]

/-- The words of a run behind its high value: a single pixel behind zeros changes
the last word, anything else has words of its own. -/
theorem bodyWords_cases {pv : Int} (hpv : 0 < pv) (np nz : Nat) :
    (np = 1 ∧ 0 < countCast nz ∧
      ∃ init : List Nat, init.sum = countCast nz - ((countCast nz - 1) % 4095 + 1) ∧
        (∀ k ∈ init, k ≤ 4095) ∧
        bodyWords pv np nz =
          init.map zeroWord ++ [(((countCast nz - 1) % 4095 + 1 + 20481 : Nat) : Int)]) ∨
    (¬ (np = 1 ∧ 0 < countCast nz) ∧ bodyWords pv np nz = zeroWords nz ++ solidWords np) := by
  by_cases hmerge : np = 1 ∧ 0 < countCast nz
  · obtain ⟨hnp, hpos⟩ := hmerge
    obtain ⟨init, hinit, hsum, hle⟩ := pieces_countCast_last hpos
    refine Or.inl ⟨hnp, hpos, init, hsum, hle, ?_⟩
    have hwords :
        zeroWords nz = init.map zeroWord ++ [(((countCast nz - 1) % 4095 + 1 : Nat) : Int)] := by
      rw [zeroWords_eq, hinit, List.map_append, List.map_singleton, zeroWord_eq (by omega)]
    have hne : zeroWords nz ≠ [] := by
      rw [hwords]
      exact List.append_ne_nil_of_right_ne_nil _ (List.cons_ne_nil _ _)
    rw [bodyWords, if_pos (merges hne hnp hpv), hwords, modifyLast_append,
      asI16_of_range (by omega)]
    rfl
  · refine Or.inr ⟨hmerge, ?_⟩
    have hcond : ¬ (!(zeroWords nz).isEmpty && decide (np = 1) && decide (0 < pv)) = true := by
      intro hc
      simp only [Bool.and_eq_true, decide_eq_true_eq, Bool.not_eq_true'] at hc
      by_cases hz : countCast nz = 0
      · rw [zeroWords_eq_nil hz] at hc
        exact absurd hc.1.1 (by decide)
      · exact hmerge ⟨hc.1.2, by omega⟩
    rw [bodyWords, if_neg hcond]

/-- The zeros that the words of a run write. -/
def Run.gapWritten (r : Run) : Nat :=
  if r.count = 1 ∧ 0 < countCast r.zeros ∧ countCast r.zeros % 4095 = 0 then
    countCast r.zeros - 4095
  else countCast r.zeros

theorem decodes_bodyWords {r : Run} {d : Int} (hpv : 0 < r.value) (hd : asI32 d = d)
    (hcount : r.count < 2147483648) :
    Decodes d (bodyWords r.value r.count r.zeros) d
      (List.replicate r.gapWritten 0 ++ List.replicate r.count d) := by
  rcases bodyWords_cases hpv r.count r.zeros with ⟨hone, hpos, init, hsum, hle,
    hwords⟩ | ⟨hno, hwords⟩
  · have hinit := decodes_zeroPieces d init hle
    rw [hwords, hone]
    by_cases hfull : countCast r.zeros % 4095 = 0
    · -- the last word is full: its opcode becomes that of a single pixel
      have hgap : r.gapWritten = init.sum := by
        rw [Run.gapWritten, if_pos ⟨hone, hpos, hfull⟩]
        omega
      have hlast : Decodes d [((0 + 24576 : Nat) : Int)] (asI32 (d + (0 : Nat)))
          [asI32 (d + (0 : Nat))] := .plusSingle 0 (by omega) (.nil _)
      rw [Int.natCast_zero, Int.add_zero, hd] at hlast
      rw [hgap, show (countCast r.zeros - 1) % 4095 + 1 + 20481 = 0 + 24576 by omega]
      exact hinit.append hlast
    · have hgap : r.gapWritten = init.sum + ((countCast r.zeros - 1) % 4095 + 1) := by
        rw [Run.gapWritten, if_neg fun hc => hfull hc.2.2]
        omega
      have hlast : Decodes d [(((countCast r.zeros - 1) % 4095 + 1 + 20481 : Nat) : Int)] d
          (List.replicate ((countCast r.zeros - 1) % 4095 + 1) 0 ++ [d] ++ []) :=
        .zerosThen _ (by omega) (.nil d)
      rw [List.append_nil] at hlast
      rw [hgap, List.replicate_add, List.append_assoc]
      exact hinit.append hlast
  · have hgap : r.gapWritten = countCast r.zeros := by
      rw [Run.gapWritten, if_neg fun hc => hno ⟨hc.1, hc.2.1⟩]
    have hsolid := decodes_solidWords d r.count
    rw [countCast_of_lt hcount] at hsolid
    rw [hwords, hgap]
    exact (decodes_zeroWords d r.zeros).append hsolid

/-- Values that the encoder meets. -/
def InRange (v : Int) : Prop := 0 ≤ v ∧ v ≤ plioMaxPv

theorem asI32_of_inRange {v : Int} (h : InRange v) : asI32 v = v := by
  unfold InRange plioMaxPv at h
  exact asI32_of_range (by omega)

/-- The words of a high value, one or two. -/
theorem setWords_cases {pv : Int} (hpv : InRange pv) (hi : Int) :
    (4095 < (pv - hi).natAbs ∧ ∃ low high : Nat, low < 4096 ∧ high < 32768 ∧
      pv = (high * 4096 + low : Nat) ∧
      setWords pv hi = [((low + 4096 : Nat) : Int), (high : Int)]) ∨
    ((pv - hi).natAbs ≤ 4095 ∧ pv < hi ∧ ∃ d : Nat, d ≤ 4095 ∧ hi - d = pv ∧
      setWords pv hi = [((d + 12288 : Nat) : Int)]) ∨
    ((pv - hi).natAbs ≤ 4095 ∧ hi ≤ pv ∧ ∃ d : Nat, d ≤ 4095 ∧ hi + d = pv ∧
      setWords pv hi = [((d + 8192 : Nat) : Int)]) := by
  unfold InRange plioMaxPv at hpv
  unfold setWords
  dsimp only
  by_cases hfar : 4095 < (pv - hi).natAbs
  · refine Or.inl ⟨hfar, (pv % 4096).toNat, (pv / 4096).toNat, by omega, by omega, by omega, ?_⟩
    rw [if_pos hfar, asI16_of_range (by omega), asI16_of_range (by omega)]
    congr 2 <;> omega
  · rw [if_neg hfar]
    by_cases hneg : pv - hi < 0
    · refine Or.inr (Or.inl ⟨by omega, by omega, (hi - pv).toNat, by omega, by omega, ?_⟩)
      rw [if_pos hneg, asI16_of_range (by omega)]
      congr 1
      omega
    · refine Or.inr (Or.inr ⟨by omega, by omega, (pv - hi).toNat, by omega, by omega, ?_⟩)
      rw [if_neg hneg, asI16_of_range (by omega)]
      congr 1
      omega

theorem decodes_setWords {pv hi : Int} (hpv : InRange pv) :
    Decodes hi (setWords pv hi) pv [] := by
  have hcast := asI32_of_inRange hpv
  rcases setWords_cases hpv hi with ⟨-, low, high, hl, hh, heq, hwords⟩ | ⟨-, -, d, hd,
    heq, hwords⟩ |
    ⟨-, -, d, hd, heq, hwords⟩
  · rw [hwords, heq]
    exact .setHigh low high hl hh (.nil _)
  · have hdec : Decodes hi [((d + 12288 : Nat) : Int)] (asI32 (hi - d)) [] := .minus d hd (.nil _)
    rw [heq, hcast] at hdec
    rw [hwords]
    exact hdec
  · have hdec : Decodes hi [((d + 8192 : Nat) : Int)] (asI32 (hi + d)) [] := .plus d hd (.nil _)
    rw [heq, hcast] at hdec
    rw [hwords]
    exact hdec

theorem or_two_pow {i n : Nat} (h : n < 2 ^ i) : n ||| 2 ^ i = n + 2 ^ i := by
  have hadd := Nat.two_pow_add_eq_or_of_lt h 1
  rw [Nat.mul_one] at hadd
  rw [Nat.or_comm, ← hadd, Nat.add_comm]

/-- The single-pixel bit on a word that does not have it. -/
theorem orSinglePixel_eq {n : Nat} (h : n < 16384) :
    orSinglePixel (n : Int) = ((n + 16384 : Nat) : Int) := by
  have hor : n ||| 16384 = n + 16384 := or_two_pow (i := 14) h
  rw [orSinglePixel, asU16_of_nat (by omega), hor, asI16_of_range (by omega)]

/-- A single pixel whose high value takes one word. -/
theorem decodes_singleWords {pv hi : Int} (hpv : InRange pv)
    (hnear : (pv - hi).natAbs ≤ 4095) :
    Decodes hi (modifyLast orSinglePixel (setWords pv hi)) pv [pv] := by
  have hcast := asI32_of_inRange hpv
  rcases setWords_cases hpv hi with ⟨hfar, -⟩ | ⟨-, -, d, hd, heq, hwords⟩ | ⟨-, -, d,
    hd, heq, hwords⟩
  · omega
  · have hdec : Decodes hi [((d + 28672 : Nat) : Int)] (asI32 (hi - d)) [asI32 (hi - d)] :=
      .minusSingle d hd (.nil _)
    rw [heq, hcast] at hdec
    rw [hwords, ← List.nil_append [((d + 12288 : Nat) : Int)], modifyLast_append,
      orSinglePixel_eq (by omega), show d + 12288 + 16384 = d + 28672 by omega]
    exact hdec
  · have hdec : Decodes hi [((d + 24576 : Nat) : Int)] (asI32 (hi + d)) [asI32 (hi + d)] :=
      .plusSingle d hd (.nil _)
    rw [heq, hcast] at hdec
    rw [hwords, ← List.nil_append [((d + 8192 : Nat) : Int)], modifyLast_append,
      orSinglePixel_eq (by omega), show d + 8192 + 16384 = d + 24576 by omega]
    exact hdec

/-! ## Which runs are coded -/

/-- A single pixel, directly behind another run or at the start, whose value is too
far from the one before it. -/
def Run.FarLone (hi : Int) (r : Run) : Prop :=
  r.count = 1 ∧ r.zeros = 0 ∧ 4095 < (r.value - hi).natAbs

/-- A single pixel behind zeros that fill their last word. -/
def Run.FullGap (r : Run) : Prop := r.count = 1 ∧ 0 < r.zeros ∧ r.zeros % 4095 = 0

/-- All pixels of the run are written. -/
def Run.Complete (hi : Int) (r : Run) : Prop := ¬ r.FarLone hi ∧ r.count < 2147483648

/-- The pixels of the run are written where they belong. -/
def Run.Placed (r : Run) : Prop := ¬ r.FullGap ∧ r.zeros < 2147483648

def AllComplete : Int → List Run → Prop
  | _, [] => True
  | hi, r :: rs => r.Complete hi ∧ AllComplete r.value rs

instance (hi : Int) (r : Run) : Decidable (r.FarLone hi) := inferInstanceAs (Decidable (_ ∧ _ ∧ _))

instance (r : Run) : Decidable r.FullGap := inferInstanceAs (Decidable (_ ∧ _ ∧ _))

instance (hi : Int) (r : Run) : Decidable (r.Complete hi) := inferInstanceAs (Decidable (_ ∧ _))

instance (r : Run) : Decidable r.Placed := inferInstanceAs (Decidable (_ ∧ _))

instance decidableAllComplete : (hi : Int) → (rs : List Run) → Decidable (AllComplete hi rs)
  | _, [] => .isTrue trivial
  | hi, r :: rs =>
    have : Decidable (AllComplete r.value rs) := decidableAllComplete r.value rs
    inferInstanceAs (Decidable (r.Complete hi ∧ AllComplete r.value rs))

theorem Run.Placed.gapWritten_eq {r : Run} (h : r.Placed) : r.gapWritten = r.zeros := by
  rw [Run.gapWritten, countCast_of_lt h.2]
  exact if_neg h.1

theorem Run.gapWritten_lt {r : Run} (h : ¬ r.Placed) : r.gapWritten < r.zeros := by
  have hle := countCast_le r.zeros
  unfold Run.gapWritten
  by_cases hlong : 2147483648 ≤ r.zeros
  · have hcast := countCast_lt_of_le hlong
    split_ifs <;> omega
  · have hcast : countCast r.zeros = r.zeros := countCast_of_lt (by omega)
    have hfull : r.FullGap := by
      by_contra hno
      exact h ⟨hno, by omega⟩
    obtain ⟨hone, hpos, hrest⟩ := hfull
    rw [hcast, if_pos ⟨hone, hpos, hrest⟩]
    omega

theorem Run.gapWritten_le (r : Run) : r.gapWritten ≤ r.zeros := by
  by_cases h : r.Placed
  · exact Nat.le_of_eq h.gapWritten_eq
  · exact Nat.le_of_lt (Run.gapWritten_lt h)

theorem Run.Valid.inRange {r : Run} (h : r.Valid) : InRange r.value :=
  ⟨Int.le_of_lt h.value_pos, h.value_le⟩

/-- The words of a run that is written completely. -/
theorem decodes_runWords {r : Run} {hi : Int} (hr : r.Valid) (hc : r.Complete hi) :
    Decodes hi (runWords r.value hi r.count r.zeros) r.value
      (List.replicate r.gapWritten 0 ++ List.replicate r.count r.value) := by
  have hbody := decodes_bodyWords hr.value_pos (asI32_of_inRange hr.inRange) hc.2
  unfold runWords
  by_cases hset : 0 < r.value ∧ r.value - hi ≠ 0
  · rw [if_pos hset]
    by_cases hlone : r.count = 1 ∧ r.zeros = 0
    · have hnear : (r.value - hi).natAbs ≤ 4095 := by
        by_contra hfar
        exact hc.1 ⟨hlone.1, hlone.2, by omega⟩
      have hgap : r.gapWritten = 0 := by
        have := r.gapWritten_le
        omega
      rw [if_pos hlone, hgap, hlone.1]
      exact decodes_singleWords hr.inRange hnear
    · rw [if_neg hlone]
      exact (decodes_setWords hr.inRange).append hbody
  · have hsame : r.value = hi := by
      have := hr.value_pos
      omega
    rw [if_neg hset, ← hsame]
    exact hbody

/-- Words of runs that are written completely and in place. -/
theorem decodes_streamWords :
    ∀ (rs : List Run) {hi : Int}, (∀ r ∈ rs, r.Valid) → InRange hi → AllComplete hi rs →
      (∀ r ∈ rs, r.Placed) → ∃ hi', Decodes hi (streamWords hi rs) hi' (rs.flatMap Run.pixels) := by
  intro rs
  induction rs with
  | nil =>
    intro hi _ _ _ _
    exact ⟨hi, .nil hi⟩
  | cons r rs ih =>
    intro hi hvalid hhi hc hplaced
    have hr := hvalid r List.mem_cons_self
    have hrun := decodes_runWords hr hc.1
    rw [(hplaced r List.mem_cons_self).gapWritten_eq] at hrun
    obtain ⟨hi', hrest⟩ := ih (fun s hs => hvalid s (List.mem_cons_of_mem _ hs)) hr.inRange hc.2
      fun s hs => hplaced s (List.mem_cons_of_mem _ hs)
    exact ⟨hi', hrun.append hrest⟩

/-- Words of runs that are written completely, but not all in place: some pixel
stands where a zero belongs. -/
theorem decodes_streamWords_displaced :
    ∀ (rs : List Run) {hi : Int}, (∀ r ∈ rs, r.Valid) → InRange hi → AllComplete hi rs →
      ¬ (∀ r ∈ rs, r.Placed) →
      ∃ ws ws' hi' front v back back', streamWords hi rs = ws ++ ws' ∧
        Decodes hi ws hi' (front ++ v :: back) ∧ InRange v ∧ v ≠ 0 ∧
        rs.flatMap Run.pixels = front ++ 0 :: back' ∧ back.length ≤ back'.length := by
  intro rs
  induction rs with
  | nil =>
    intro hi _ _ _ hno
    exact absurd (fun r hr => by cases hr) hno
  | cons r rs ih =>
    intro hi hvalid hhi hc hno
    have hr := hvalid r List.mem_cons_self
    have hrun := decodes_runWords hr hc.1
    by_cases hplaced : r.Placed
    · have hrest : ¬ ∀ s ∈ rs, s.Placed := by
        intro hall
        refine hno fun s hs => ?_
        rcases List.mem_cons.1 hs with rfl | hs
        · exact hplaced
        · exact hall s hs
      obtain ⟨ws, ws', hi', front, v, back, back', hwords, hdec, hv, hne, hpx, hlen⟩ :=
        ih (fun s hs => hvalid s (List.mem_cons_of_mem _ hs)) hr.inRange hc.2 hrest
      rw [hplaced.gapWritten_eq] at hrun
      refine ⟨runWords r.value hi r.count r.zeros ++ ws, ws', hi', r.pixels ++ front,
        v, back, back', ?_, ?_, hv, hne, ?_, hlen⟩
      · rw [streamWords, hwords, List.append_assoc]
      · rw [List.append_assoc]
        exact hrun.append hdec
      · rw [List.flatMap_cons, hpx, List.append_assoc]
    · -- the value comes where the zeros should go on
      have hlt := Run.gapWritten_lt hplaced
      obtain ⟨k, hk⟩ : ∃ k, r.count = k + 1 := ⟨r.count - 1, by have := hr.count_pos; omega⟩
      refine ⟨runWords r.value hi r.count r.zeros, streamWords r.value rs, r.value,
        List.replicate r.gapWritten 0, r.value, List.replicate k r.value,
        List.replicate (r.zeros - r.gapWritten - 1) 0 ++ List.replicate r.count r.value ++
          rs.flatMap Run.pixels, rfl, ?_, hr.inRange, ?_, ?_, ?_⟩
      · rw [hk, List.replicate_succ] at hrun
        rw [hk]
        exact hrun
      · have := hr.value_pos
        omega
      · have hzeros : List.replicate r.zeros (0 : Int) =
            List.replicate r.gapWritten 0 ++ 0 :: List.replicate
              (r.zeros - r.gapWritten - 1) 0 := by
          rw [← List.replicate_succ, ← List.replicate_add,
            show r.gapWritten + (r.zeros - r.gapWritten - 1 + 1) = r.zeros by omega]
        rw [List.flatMap_cons, Run.pixels, hzeros]
        simp
      · simp
        omega

/-! ## How many pixels the words of a run set -/

theorem capacity_word {w : Nat} (hw : w < 65536) (h1 : w / 4096 ≠ 1) (ws : List Int) :
    capacity false ((w : Int) :: ws) = wordCapacity w + capacity false ws := by
  rw [capacity, asU16_of_nat hw, decide_eq_false h1]

/-- A word with one of the opcodes below four, or one of those that set one pixel. -/
theorem wordCapacity_low {w : Nat} (h : w < 16384) : wordCapacity (w : Int) = 0 := by
  rw [wordCapacity, asU16_of_nat (by omega), if_neg (by omega), if_neg (by omega)]

theorem wordCapacity_one {w : Nat} (h : 20480 ≤ w) (h' : w < 32768) :
    wordCapacity (w : Int) = 1 := by
  rw [wordCapacity, asU16_of_nat (by omega), if_neg (by omega), if_pos (by omega)]

theorem wordCapacity_solid {n : Nat} (h : n ≤ 4095) :
    wordCapacity ((n + 16384 : Nat) : Int) = n := by
  rw [wordCapacity, asU16_of_nat (by omega), if_pos (by omega)]
  omega

theorem capacity_zeroPieces (ws : List Int) :
    ∀ l : List Nat, (∀ n ∈ l, n ≤ 4095) → capacity false (l.map zeroWord ++ ws) =
      capacity false ws := by
  intro l
  induction l with
  | nil => exact fun _ => rfl
  | cons n l ih =>
    intro h
    have hn := h n List.mem_cons_self
    rw [List.map_cons, List.cons_append, zeroWord_eq hn, capacity_word (by omega) (by omega),
      wordCapacity_low (by omega), Nat.zero_add, ih fun m hm => h m (List.mem_cons_of_mem _ hm)]

theorem capacity_solidPieces (ws : List Int) :
    ∀ l : List Nat, (∀ n ∈ l, n ≤ 4095) →
      capacity false (l.map solidWord ++ ws) = l.sum + capacity false ws := by
  intro l
  induction l with
  | nil => exact fun _ => (Nat.zero_add _).symm
  | cons n l ih =>
    intro h
    have hn := h n List.mem_cons_self
    rw [List.map_cons, List.cons_append, solidWord_eq hn, capacity_word (by omega) (by omega),
      wordCapacity_solid hn, List.sum_cons, ih fun m hm => h m (List.mem_cons_of_mem _ hm),
      Nat.add_assoc]

theorem capacity_zeroWords (nz : Nat) (ws : List Int) :
    capacity false (zeroWords nz ++ ws) = capacity false ws :=
  capacity_zeroPieces ws _ (pieces_spec _ _ (Nat.le_refl (countCast nz))).2

theorem capacity_solidWords (np : Nat) (ws : List Int) :
    capacity false (solidWords np ++ ws) = countCast np + capacity false ws := by
  obtain ⟨hsum, hle⟩ := pieces_spec _ _ (Nat.le_refl (countCast np))
  rw [solidWords_eq, capacity_solidPieces ws _ hle, hsum]

theorem capacity_setWords {pv hi : Int} (hpv : InRange pv) (ws : List Int) :
    capacity false (setWords pv hi ++ ws) = capacity false ws := by
  rcases setWords_cases hpv hi with ⟨-, low, high, hl, hh, -, hwords⟩ | ⟨-, -, d, hd, -, hwords⟩ |
    ⟨-, -, d, hd, -, hwords⟩
  · rw [hwords, List.cons_append, List.singleton_append, capacity, wordCapacity_low (by omega),
      asU16_of_nat (by omega), decide_eq_true (by omega), capacity, Nat.zero_add]
  · rw [hwords, List.singleton_append, capacity_word (by omega) (by omega),
      wordCapacity_low (by omega), Nat.zero_add]
  · rw [hwords, List.singleton_append, capacity_word (by omega) (by omega),
      wordCapacity_low (by omega), Nat.zero_add]

theorem capacity_bodyWords {pv : Int} (hpv : 0 < pv) (np nz : Nat) (ws : List Int) :
    capacity false (bodyWords pv np nz ++ ws) = countCast np + capacity false ws := by
  rcases bodyWords_cases hpv np nz with ⟨hone, hpos, init, -, hle, hwords⟩ | ⟨-, hwords⟩
  · rw [hwords, List.append_assoc, capacity_zeroPieces _ init hle, List.singleton_append,
      capacity_word (by omega) (by omega), wordCapacity_one (by omega) (by omega), hone,
      countCast_of_lt (by omega)]
  · rw [hwords, List.append_assoc, capacity_zeroWords, capacity_solidWords]

/-- No word writes a single pixel with a two-word high value. -/
theorem capacity_farLone {r : Run} {hi : Int} (hr : r.Valid) (hfar : r.FarLone hi)
    (ws : List Int) :
    capacity false (runWords r.value hi r.count r.zeros ++ ws) = capacity false ws := by
  obtain ⟨hone, hzero, hdist⟩ := hfar
  rw [runWords, if_pos ⟨hr.value_pos, by omega⟩, if_pos ⟨hone, hzero⟩]
  rcases setWords_cases hr.inRange hi with ⟨-, low, high, hl, hh, -, hwords⟩ | ⟨hnear,
    -⟩ | ⟨hnear, -⟩
  · have hsplit : [((low + 4096 : Nat) : Int), (high : Int)] =
        [((low + 4096 : Nat) : Int)] ++ [(high : Int)] := rfl
    rw [hwords, hsplit, modifyLast_append, List.append_assoc, List.singleton_append,
      List.singleton_append, capacity, wordCapacity_low (by omega), asU16_of_nat (by omega),
      decide_eq_true (by omega), capacity, Nat.zero_add]
  · omega
  · omega

/-- The pixels that the words of any other run set. -/
theorem capacity_runWords {r : Run} {hi : Int} (hr : r.Valid) (hno : ¬ r.FarLone hi)
    (ws : List Int) :
    capacity false (runWords r.value hi r.count r.zeros ++ ws) =
      countCast r.count + capacity false ws := by
  have hbody := capacity_bodyWords hr.value_pos r.count r.zeros ws
  unfold runWords
  by_cases hset : 0 < r.value ∧ r.value - hi ≠ 0
  · rw [if_pos hset]
    by_cases hlone : r.count = 1 ∧ r.zeros = 0
    · rw [if_pos hlone, hlone.1, countCast_of_lt (by omega)]
      rcases setWords_cases hr.inRange hi with ⟨hfar, -⟩ | ⟨-, -, d, hd, -, hwords⟩ |
        ⟨-, -, d, hd, -, hwords⟩
      · exact absurd ⟨hlone.1, hlone.2, hfar⟩ hno
      · rw [hwords, ← List.nil_append [((d + 12288 : Nat) : Int)], modifyLast_append,
          orSinglePixel_eq (by omega), List.nil_append, List.singleton_append,
          capacity_word (by omega) (by omega), wordCapacity_one (by omega) (by omega)]
      · rw [hwords, ← List.nil_append [((d + 8192 : Nat) : Int)], modifyLast_append,
          orSinglePixel_eq (by omega), List.nil_append, List.singleton_append,
          capacity_word (by omega) (by omega), wordCapacity_one (by omega) (by omega)]
    · rw [if_neg hlone, List.append_assoc, capacity_setWords hr.inRange, hbody]
  · rw [if_neg hset]
    exact hbody

theorem Run.Valid.nonzeros_pixels {r : Run} (h : r.Valid) : nonzeros r.pixels = r.count := by
  have hne : r.value ≠ 0 := by
    have := h.value_pos
    omega
  rw [Run.pixels, nonzeros_append, nonzeros_zeros, nonzeros_replicate hne, Nat.zero_add]

/-- The words set no more pixels than there are. -/
theorem capacity_streamWords_le (ws : List Int) :
    ∀ (rs : List Run) {hi : Int}, (∀ r ∈ rs, r.Valid) → InRange hi →
      capacity false (streamWords hi rs ++ ws) ≤ nonzeros (rs.flatMap Run.pixels) +
        capacity false ws := by
  intro rs
  induction rs with
  | nil =>
    intro hi _ _
    exact Nat.le_add_left _ _
  | cons r rs ih =>
    intro hi hvalid hhi
    have hr := hvalid r List.mem_cons_self
    have hrest := ih (fun s hs => hvalid s (List.mem_cons_of_mem _ hs)) hr.inRange
    have hcast := countCast_le r.count
    rw [streamWords, List.append_assoc, List.flatMap_cons, nonzeros_append, hr.nonzeros_pixels]
    by_cases hfar : r.FarLone hi
    · rw [capacity_farLone hr hfar]
      omega
    · rw [capacity_runWords hr hfar]
      omega

/-- They set fewer when a run is not written completely. -/
theorem capacity_streamWords_lt (ws : List Int) :
    ∀ (rs : List Run) {hi : Int}, (∀ r ∈ rs, r.Valid) → InRange hi → ¬ AllComplete hi rs →
      capacity false (streamWords hi rs ++ ws) < nonzeros (rs.flatMap Run.pixels) +
        capacity false ws := by
  intro rs
  induction rs with
  | nil =>
    intro hi _ _ hno
    exact absurd trivial hno
  | cons r rs ih =>
    intro hi hvalid hhi hno
    have hr := hvalid r List.mem_cons_self
    have hvalid' : ∀ s ∈ rs, s.Valid := fun s hs => hvalid s (List.mem_cons_of_mem _ hs)
    have hle := capacity_streamWords_le ws rs hvalid' hr.inRange
    have hcount := hr.count_pos
    rw [streamWords, List.append_assoc, List.flatMap_cons, nonzeros_append, hr.nonzeros_pixels]
    by_cases hfar : r.FarLone hi
    · rw [capacity_farLone hr hfar]
      omega
    · rw [capacity_runWords hr hfar]
      by_cases hlong : r.count < 2147483648
      · have hlt := ih hvalid' hr.inRange fun hc => hno ⟨⟨hfar, hlong⟩, hc⟩
        rw [countCast_of_lt hlong]
        omega
      · have hcast := countCast_lt_of_le (n := r.count) (by omega)
        omega

/-- Fewer words set no more pixels. -/
theorem capacity_take_le : ∀ (ws : List Int) (skipwd : Bool) (k : Nat),
    capacity skipwd (ws.take k) ≤ capacity skipwd ws := by
  intro ws
  induction ws with
  | nil =>
    intro skipwd k
    rw [List.take_nil]
  | cons w ws ih =>
    intro skipwd k
    cases k with
    | zero => exact Nat.zero_le _
    | succ k =>
      rw [List.take_succ_cons]
      cases skipwd with
      | true => exact ih false k
      | false => exact Nat.add_le_add_left (ih _ k) _

theorem bodyWords_last {r : Run} (hr : r.Valid) (hcount : r.count < 2147483648) :
    ∃ init w, bodyWords r.value r.count r.zeros = init ++ [w] ∧ capacity false init < r.count := by
  rcases bodyWords_cases hr.value_pos r.count r.zeros with ⟨hone, -, init, -, hle,
    hwords⟩ | ⟨-, hwords⟩
  · refine ⟨_, _, hwords, ?_⟩
    rw [← List.append_nil (init.map zeroWord), capacity_zeroPieces _ init hle, hone]
    exact Nat.one_pos
  · have hcast := countCast_of_lt hcount
    have hpos := hr.count_pos
    obtain ⟨init, hinit, hsum, hle⟩ := pieces_countCast_last (n := r.count) (by omega)
    refine ⟨zeroWords r.zeros ++ init.map solidWord, solidWord ((countCast r.count - 1) % 4095 + 1),
      ?_, ?_⟩
    · rw [hwords, solidWords_eq, hinit, List.map_append, List.map_singleton, List.append_assoc]
    · rw [← List.append_nil (init.map solidWord), capacity_zeroWords,
        capacity_solidPieces _ init hle, hsum, hcast, capacity]
      omega

/-- Without its last word a complete run loses a pixel. -/
theorem runWords_last {r : Run} {hi : Int} (hr : r.Valid) (hc : r.Complete hi) :
    ∃ init w, runWords r.value hi r.count r.zeros = init ++ [w] ∧
    capacity false init < r.count := by
  have hpos := hr.count_pos
  obtain ⟨init, w, hbody, hcap⟩ := bodyWords_last hr hc.2
  unfold runWords
  by_cases hset : 0 < r.value ∧ r.value - hi ≠ 0
  · rw [if_pos hset]
    by_cases hlone : r.count = 1 ∧ r.zeros = 0
    · rw [if_pos hlone]
      rcases setWords_cases hr.inRange hi with ⟨hfar, -⟩ | ⟨-, -, d, -, -, hwords⟩ |
        ⟨-, -, d, -, -, hwords⟩
      · exact absurd ⟨hlone.1, hlone.2, hfar⟩ hc.1
      · rw [hwords]
        exact ⟨[], _, modifyLast_append _ [] _, hpos⟩
      · rw [hwords]
        exact ⟨[], _, modifyLast_append _ [] _, hpos⟩
    · rw [if_neg hlone, hbody, ← List.append_assoc]
      refine ⟨_, _, rfl, ?_⟩
      rw [capacity_setWords hr.inRange]
      exact hcap
  · rw [if_neg hset]
    exact ⟨init, w, hbody, hcap⟩

/-- Cut words set fewer pixels than there are. -/
theorem capacity_streamWords_take :
    ∀ (rs : List Run) {hi : Int} {k : Nat}, (∀ r ∈ rs, r.Valid) → InRange hi → AllComplete hi rs →
      k < (streamWords hi rs).length →
      capacity false ((streamWords hi rs).take k) < nonzeros (rs.flatMap Run.pixels) := by
  intro rs
  induction rs with
  | nil =>
    intro hi k _ _ _ hk
    exact absurd hk (Nat.not_lt_zero k)
  | cons r rs ih =>
    intro hi k hvalid hhi hc hk
    have hr := hvalid r List.mem_cons_self
    have hvalid' : ∀ s ∈ rs, s.Valid := fun s hs => hvalid s (List.mem_cons_of_mem _ hs)
    have hrun := capacity_runWords hr hc.1.1
    rw [countCast_of_lt hc.1.2] at hrun
    obtain ⟨init, w, hwords, hcap⟩ := runWords_last hr hc.1
    rw [streamWords, List.length_append] at hk
    rw [streamWords, List.flatMap_cons, nonzeros_append, hr.nonzeros_pixels]
    by_cases hshort : k < (runWords r.value hi r.count r.zeros).length
    · -- the last word of this run is gone
      rw [List.take_append_of_le_length (Nat.le_of_lt hshort), hwords,
        List.take_append_of_le_length (by
        rw [hwords, List.length_append, List.length_singleton] at hshort
        omega)]
      have hle := capacity_take_le init false k
      omega
    · rw [List.take_append, List.take_of_length_le (by omega), hrun]
      have hlt := ih hvalid' hr.inRange hc.2
        (k := k - (runWords r.value hi r.count r.zeros).length) (by omega)
      omega

/-! ## How many words there are -/

/-- The words of a count. -/
def pieceCount (n : Nat) : Nat := (countCast n + 4094) / 4095

/-- The words of a high value. -/
def setCount (pv hi : Int) : Nat := if pv = hi then 0 else if 4095 < (pv - hi).natAbs then 2 else 1

/-- The words of a run: a single pixel has none of its own behind zeros, and none at
all where the high value changes and there are no zeros. -/
def Run.wordCount (hi : Int) (r : Run) : Nat :=
  setCount r.value hi +
    if r.value ≠ hi ∧ r.count = 1 ∧ r.zeros = 0 then 0
    else pieceCount r.zeros + if r.count = 1 ∧ 0 < countCast r.zeros then 0 else pieceCount r.count

def wordCount : Int → List Run → Nat
  | _, [] => 0
  | hi, r :: rs => r.wordCount hi + wordCount r.value rs

theorem pieceCount_le (n : Nat) : pieceCount n ≤ 524417 := by
  have := countCast_lt n
  unfold pieceCount
  omega

theorem zeroWords_length (nz : Nat) : (zeroWords nz).length = pieceCount nz := by
  rw [zeroWords_eq, List.length_map, pieces_length _ _ (Nat.le_refl _), pieceCount]

theorem solidWords_length (np : Nat) : (solidWords np).length = pieceCount np := by
  rw [solidWords_eq, List.length_map, pieces_length _ _ (Nat.le_refl _), pieceCount]

theorem modifyLast_length (f : Int → Int) (ws : List Int) :
    (modifyLast f ws).length = ws.length := by
  rcases List.eq_nil_or_concat ws with rfl | ⟨init, w, rfl⟩
  · rfl
  · rw [List.concat_eq_append, modifyLast_append, List.length_append, List.length_append]
    rfl

theorem bodyWords_length {pv : Int} (hpv : 0 < pv) (np nz : Nat) :
    (bodyWords pv np nz).length =
      pieceCount nz + if np = 1 ∧ 0 < countCast nz then 0 else pieceCount np := by
  rcases bodyWords_cases hpv np nz with ⟨hone, hpos, -⟩ | ⟨hno, hwords⟩
  · have hne : (zeroWords nz) ≠ [] := by
      intro hnil
      have hlen := zeroWords_length nz
      rw [hnil, List.length_nil, pieceCount] at hlen
      omega
    rw [bodyWords, if_pos (merges hne hone hpv), modifyLast_length, zeroWords_length,
      if_pos ⟨hone, hpos⟩, Nat.add_zero]
  · rw [hwords, List.length_append, zeroWords_length, solidWords_length, if_neg hno]

theorem setWords_length {pv hi : Int} (hpv : InRange pv) (hne : pv ≠ hi) :
    (setWords pv hi).length = setCount pv hi := by
  unfold setCount
  rw [if_neg hne]
  rcases setWords_cases hpv hi with ⟨hfar, low, high, -, -, -, hwords⟩ | ⟨hnear, -,
    d, -, -, hwords⟩ |
    ⟨hnear, -, d, -, -, hwords⟩
  · rw [hwords, if_pos hfar]
    rfl
  · rw [hwords, if_neg (by omega)]
    rfl
  · rw [hwords, if_neg (by omega)]
    rfl

theorem runWords_length {r : Run} {hi : Int} (hr : r.Valid) :
    (runWords r.value hi r.count r.zeros).length = r.wordCount hi := by
  have hpos := hr.value_pos
  unfold runWords Run.wordCount
  by_cases hset : r.value = hi
  · rw [if_neg (by omega), if_neg (by simp [hset]), setCount, if_pos hset, Nat.zero_add,
      bodyWords_length hpos]
  · rw [if_pos ⟨hpos, by omega⟩]
    by_cases hlone : r.count = 1 ∧ r.zeros = 0
    · rw [if_pos hlone, if_pos ⟨hset, hlone⟩, modifyLast_length, setWords_length hr.inRange hset,
        Nat.add_zero]
    · rw [if_neg hlone, if_neg fun hc => hlone hc.2, List.length_append,
        setWords_length hr.inRange hset, bodyWords_length hpos]

theorem streamWords_length :
    ∀ (rs : List Run) {hi : Int}, (∀ r ∈ rs, r.Valid) → InRange hi →
      (streamWords hi rs).length = wordCount hi rs := by
  intro rs
  induction rs with
  | nil =>
    intro hi _ _
    rfl
  | cons r rs ih =>
    intro hi hvalid hhi
    have hr := hvalid r List.mem_cons_self
    rw [streamWords, List.length_append, runWords_length hr,
      ih (fun s hs => hvalid s (List.mem_cons_of_mem _ hs)) hr.inRange, wordCount]

/-! ## The header -/

theorem shortsToBeBytes_length (ws : List Int) : (shortsToBeBytes ws).length = ws.length * 2 :=
  flatMap_length_of_width fun _ _ => beBytes_length _ _

/-- A word of the stream, read back. -/
theorem wordAt_shortsToBeBytes {ws : List Int} {i : Nat} {w : Int} (hget : ws[i]? = some w) :
    wordAt (shortsToBeBytes ws) i = asI16 w := by
  have hslice : slice (shortsToBeBytes ws) (2 * i) 2 = beBytes 2 (asU16 w) := by
    rw [Nat.mul_comm]
    exact slice_flatMap (fun _ _ => beBytes_length _ _) hget
  rw [wordAt, hslice, fromBe_beBytes, toSigned, asI16, Int.bmod_def]
  unfold asU16
  split_ifs <;> omega

/-- The words are `i16` values. -/
def Shorts (ws : List Int) : Prop := ∀ w ∈ ws, asI16 w = w

theorem asI16_asI16 (v : Int) : asI16 (asI16 v) = asI16 v := by
  have h : -32768 ≤ asI16 v ∧ asI16 v < 32768 := by
    unfold asI16
    rw [Int.bmod_def]
    split_ifs <;> omega
  exact asI16_of_range h

theorem Shorts.append {ws ws' : List Int} (h : Shorts ws) (h' : Shorts ws') :
    Shorts (ws ++ ws') := by
  intro w hw
  rcases List.mem_append.1 hw with hw | hw
  · exact h w hw
  · exact h' w hw

theorem shorts_map {α : Type} (f : α → Int) (l : List α) : Shorts (l.map fun a => asI16 (f a)) := by
  intro w hw
  obtain ⟨a, -, rfl⟩ := List.mem_map.1 hw
  exact asI16_asI16 _

theorem Shorts.modifyLast {ws : List Int} (h : Shorts ws) (f : Int → Int) :
    Shorts (modifyLast (fun w => asI16 (f w)) ws) := by
  rcases List.eq_nil_or_concat ws with rfl | ⟨init, w, rfl⟩
  · exact h
  · rw [List.concat_eq_append] at h ⊢
    rw [modifyLast_append]
    refine Shorts.append (fun v hv => h v (List.mem_append_left _ hv)) fun v hv => ?_
    rw [List.mem_singleton.1 hv]
    exact asI16_asI16 _

theorem shorts_setWords (pv hi : Int) : Shorts (setWords pv hi) := by
  unfold setWords
  dsimp only
  split_ifs
  · exact shorts_map id [pv % 4096 + 4096, pv / 4096]
  · exact shorts_map id [-(pv - hi) + 12288]
  · exact shorts_map id [pv - hi + 8192]

theorem shorts_zeroWords (nz : Nat) : Shorts (zeroWords nz) := shorts_map _ _

theorem shorts_bodyWords (pv : Int) (np nz : Nat) : Shorts (bodyWords pv np nz) := by
  unfold bodyWords
  dsimp only
  split_ifs
  · exact (shorts_zeroWords nz).modifyLast _
  · exact (shorts_zeroWords nz).append (shorts_map _ _)

theorem shorts_runWords (pv hi : Int) (np nz : Nat) : Shorts (runWords pv hi np nz) := by
  unfold runWords
  split_ifs
  · exact (shorts_setWords pv hi).modifyLast _
  · exact (shorts_setWords pv hi).append (shorts_bodyWords pv np nz)
  · exact shorts_bodyWords pv np nz

theorem shorts_streamWords : ∀ (rs : List Run) (hi : Int), Shorts (streamWords hi rs) := by
  intro rs
  induction rs with
  | nil =>
    intro hi w hw
    cases hw
  | cons r rs ih =>
    intro hi
    exact (shorts_runWords _ _ _ _).append (ih _)

/-- The words from the eighth on, read back. -/
theorem map_wordAt {length : Nat} {data : List Int} (hshort : Shorts data) {k : Nat}
    (hk : k ≤ data.length) :
    (List.range' 7 k).map (wordAt (shortsToBeBytes (headerWords length ++ data))) =
      data.take k := by
  refine List.ext_getElem? fun i => ?_
  rw [List.getElem?_map, List.getElem?_take]
  by_cases hi : i < k
  · have hget : (headerWords length ++ data)[7 + i]? = some data[i] := by
      rw [List.getElem?_append_right (by simp [headerWords])]
      simp [headerWords, List.getElem?_eq_getElem (show i < data.length by omega)]
    rw [if_pos hi, List.getElem?_range' (by omega), Nat.one_mul, Option.map_some,
      wordAt_shortsToBeBytes hget, hshort _ (List.getElem_mem _),
      List.getElem?_eq_getElem (show i < data.length by omega)]
  · rw [if_neg hi, List.getElem?_eq_none (by simpa using Nat.not_lt.1 hi)]
    rfl

/-- The length that the header gives. -/
def headerLength (length : Nat) : Int :=
  asI16 ((asI32 length).tdiv 32768) * 32768 + asI16 ((asI32 length).tmod 32768) % 32768

theorem streamExtent_eq (length : Nat) (data : List Int) :
    streamExtent (shortsToBeBytes (headerWords length ++ data)) =
      if headerLength length < 0 then
        .error (.value (str "PLIO_1: negative computed stream length"))
      else .ok ((headerLength length).toNat, 7) := by
  have h1 : wordAt (shortsToBeBytes (headerWords length ++ data)) 1 = 7 :=
    wordAt_shortsToBeBytes (w := 7) rfl
  have h2 : wordAt (shortsToBeBytes (headerWords length ++ data)) 2 = -100 :=
    wordAt_shortsToBeBytes (w := -100) rfl
  have h3 : wordAt (shortsToBeBytes (headerWords length ++ data)) 3 =
      asI16 (asI16 ((asI32 length).tmod 32768)) := wordAt_shortsToBeBytes rfl
  have h4 : wordAt (shortsToBeBytes (headerWords length ++ data)) 4 =
      asI16 (asI16 ((asI32 length).tdiv 32768)) := wordAt_shortsToBeBytes rfl
  rw [asI16_asI16] at h3 h4
  rw [streamExtent, h2, if_neg (by decide)]
  dsimp only
  rw [h1, h3, h4, ← headerLength]
  by_cases hneg : headerLength length < 0
  · rw [if_pos hneg, if_pos hneg]
  · rw [if_neg hneg, if_neg hneg, if_neg (by decide), show (7 : Int).toNat = 7 from rfl]

theorem headerLength_lt (length : Nat) : headerLength length < 1073741824 := by
  have h : ∀ v : Int, asI16 v < 32768 := by
    intro v
    unfold asI16
    rw [Int.bmod_def]
    split_ifs <;> omega
  have h1 := h ((asI32 length).tdiv 32768)
  unfold headerLength
  omega

theorem headerLength_of_lt {length : Nat} (h : length < 1073741824) :
    headerLength length = length := by
  unfold headerLength
  rw [asI32_of_range (by omega), Int.tdiv_eq_ediv_of_nonneg (by omega),
    Int.tmod_eq_emod_of_nonneg (by omega), asI16_of_range (by omega), asI16_of_range (by omega)]
  omega

theorem headerLength_neg {length : Nat} (h : 1073741824 ≤ length) (h' : length < 2147483648) :
    headerLength length < 0 := by
  unfold headerLength
  rw [asI32_of_range (by omega), Int.tdiv_eq_ediv_of_nonneg (by omega),
    Int.tmod_eq_emod_of_nonneg (by omega), asI16_of_range (v := (length : Int) % 32768) (by omega)]
  unfold asI16
  rw [Int.bmod_def]
  split_ifs <;> omega

/-! ## The stream as a whole -/

/-- The bytes of a stream. -/
def streamBytes (data : List Int) : Bytes := shortsToBeBytes (headerWords (7 + data.length) ++ data)

theorem streamBytes_length (data : List Int) :
    (streamBytes data).length = (7 + data.length) * 2 := by
  rw [streamBytes, shortsToBeBytes_length, List.length_append]
  rfl

theorem decodeWords_eq {data : List Int} (hshort : Shorts data) (n : Nat)
    (hlen : 7 + data.length < 1073741824) :
    decodeWords (streamBytes data) n =
      decodeLoop n data 7 false 1 1 0 (List.replicate n 0) := by
  have hwords : (streamBytes data).length / 2 = 7 + data.length := by
    rw [streamBytes_length]
    omega
  have hnneg : ¬ headerLength (7 + data.length) < 0 := by
    rw [headerLength_of_lt hlen]
    omega
  have hext : streamExtent (streamBytes data) = .ok (7 + data.length, 7) := by
    rw [streamBytes, streamExtent_eq, if_neg hnneg, headerLength_of_lt hlen, Int.toNat_natCast]
  rw [decodeWords, hwords, hext]
  dsimp only
  rw [if_neg (by omega), if_neg (by omega), if_neg (by omega), Nat.add_sub_cancel_left, streamBytes,
    map_wordAt hshort (Nat.le_refl _), List.take_length]

/-- What decodes is a stream whose length the header gives, or a part of one that is
much longer. -/
theorem decodeWords_ok {data : List Int} (hshort : Shorts data) {n : Nat} {output : List Int}
    (h : decodeWords (streamBytes data) n = .ok output) :
    (7 + data.length < 1073741824 ∨
        ∃ k, k + 7 < 1073741824 ∧ 2147483648 ≤ 7 + data.length ∧
          decodeLoop n (data.take k) 7 false 1 1 0 (List.replicate n 0) = .ok output) := by
  by_cases hlen : 7 + data.length < 1073741824
  · exact Or.inl hlen
  have hwords : (streamBytes data).length / 2 = 7 + data.length := by
    rw [streamBytes_length]
    omega
  rw [decodeWords, hwords, if_neg (by omega), streamBytes, streamExtent_eq] at h
  by_cases hneg : headerLength (7 + data.length) < 0
  · rw [if_pos hneg] at h
    cases h
  have hlong : 2147483648 ≤ 7 + data.length := by
    by_contra hshorter
    exact hneg (headerLength_neg (by omega) (by omega))
  have hlt := headerLength_lt (7 + data.length)
  rw [if_neg hneg] at h
  dsimp only at h
  rw [if_neg (by omega)] at h
  split at h
  · cases h
  · rw [map_wordAt hshort (by omega)] at h
    exact Or.inr ⟨(headerLength (7 + data.length)).toNat - 7, by omega, hlong, h⟩

/-! ## The bytes of the output -/

/-- Pixels in range are what their bytes tell. -/
theorem map_mod_of_inRange {px : List Int} (h : ∀ v ∈ px, InRange v) :
    px.map (· % 4294967296) = px := by
  refine (List.map_congr_left fun v hv => ?_).trans (List.map_id px)
  have hv := h v hv
  unfold InRange plioMaxPv at hv
  show v % 4294967296 = v
  omega

theorem nonzeros_map_mod_le (px : List Int) : nonzeros (px.map (· % 4294967296)) ≤ nonzeros px := by
  unfold nonzeros
  rw [List.countP_map]
  refine List.countP_mono_left fun v _ hv => ?_
  simp only [Function.comp_apply, decide_eq_true_eq] at hv ⊢
  omega

/-! ## The round trip -/

theorem checkPixels_ok {px : List Int} (h : ∀ v ∈ px, InRange v) :
    ∀ i, checkPixels i px = .ok () := by
  induction px with
  | nil => exact fun _ => rfl
  | cons v px ih =>
    intro i
    have hv := h v List.mem_cons_self
    unfold InRange at hv
    rw [checkPixels, checkPixel, if_neg (by omega), if_neg (by omega)]
    exact ih (fun u hu => h u (List.mem_cons_of_mem _ hu)) (i + 1)

theorem checkPixels_error {px : List Int} (h : ¬ ∀ v ∈ px, InRange v) :
    ∀ i, ∃ e, checkPixels i px = .error e := by
  induction px with
  | nil => exact absurd (fun v hv => by cases hv) h
  | cons v px ih =>
    intro i
    rw [checkPixels]
    by_cases hv : InRange v
    · have hrest : ¬ ∀ u ∈ px, InRange u := by
        intro hall
        refine h fun u hu => ?_
        rcases List.mem_cons.1 hu with rfl | hu
        · exact hv
        · exact hall u hu
      have hok : checkPixel i v = .ok () := by
        unfold InRange at hv
        rw [checkPixel, if_neg (by omega), if_neg (by omega)]
      rw [hok]
      exact ih hrest (i + 1)
    · by_cases hneg : v < 0
      · exact ⟨_, by rw [checkPixel, if_pos hneg]⟩
      · have hbig : plioMaxPv < v := by
          unfold InRange at hv
          omega
        exact ⟨_, by rw [checkPixel, if_neg hneg, if_pos hbig]⟩

/-- The encoder makes a stream of the pixels, and the decoder makes the pixels of the
stream. -/
def RoundTrips (littleEndian : Bool) (px : List Int) : Prop :=
  ∃ stream, encodePlioI32 px = .ok stream ∧
    decodePlio littleEndian stream px.length 4 32 = .ok (px.flatMap (toNeBytes littleEndian 4))

/-- Every run is written, and where it belongs, and the header has room for the
number of words. -/
structure Codable (px : List Int) : Prop where
  complete : AllComplete 1 (runs px)
  placed : ∀ r ∈ runs px, r.Placed
  fits : 7 + (wordCount 1 (runs px) + pieceCount (trailing px)) < 1073741824

theorem inRange_one : InRange 1 := ⟨by decide, by decide⟩

theorem dataWords_length {px : List Int} (h : ∀ v ∈ px, InRange v) :
    (dataWords px).length = wordCount 1 (runs px) + pieceCount (trailing px) := by
  rw [dataWords_eq fun v hv => (h v hv).1, List.length_append, streamWords_length _ (runs_valid h)
    inRange_one, zeroWords_length]

theorem shorts_dataWords {px : List Int} (h : ∀ v ∈ px, InRange v) : Shorts (dataWords px) := by
  rw [dataWords_eq fun v hv => (h v hv).1]
  exact (shorts_streamWords _ _).append (shorts_zeroWords _)

theorem encodePlioI32_eq {px : List Int} (h : ∀ v ∈ px, InRange v) :
    encodePlioI32 px = .ok (streamBytes (dataWords px)) := by
  rw [encodePlioI32, checkPixels_ok h]
  rfl

theorem decodePlio_eq (littleEndian : Bool) (data : List Int) (n : Nat) :
    decodePlio littleEndian (streamBytes data) n 4 32 =
      (decodeWords (streamBytes data) n).map fun output =>
        output.flatMap (toNeBytes littleEndian 4) := by
  have heven : ¬ (streamBytes data).length % 2 ≠ 0 := by
    rw [streamBytes_length]
    omega
  rw [decodePlio, if_neg (by decide), if_neg (by decide), if_neg heven]
  cases decodeWords (streamBytes data) n with
  | error e => rfl
  | ok output => rfl

/-- The round trip in terms of the words. -/
theorem roundTrips_iff {littleEndian : Bool} {px : List Int} (h : ∀ v ∈ px, InRange v) :
    RoundTrips littleEndian px ↔
      ∃ output, decodeWords (streamBytes (dataWords px)) px.length = .ok output ∧
        px = output.map (· % 4294967296) := by
  unfold RoundTrips
  rw [encodePlioI32_eq h]
  constructor
  · rintro ⟨stream, hstream, hdec⟩
    rw [← Except.ok.inj hstream, decodePlio_eq] at hdec
    cases hwords : decodeWords (streamBytes (dataWords px)) px.length with
    | error e =>
      rw [hwords] at hdec
      cases hdec
    | ok output =>
      rw [hwords] at hdec
      refine ⟨output, rfl, ?_⟩
      have hmod : px.map (· % 4294967296) = output.map (· % 4294967296) :=
        (flatMap_toNeBytes_inj (Nat.succ_pos 3) (Except.ok.inj hdec)).symm
      rw [← hmod, map_mod_of_inRange h]
  · rintro ⟨output, hwords, hpx⟩
    refine ⟨_, rfl, ?_⟩
    have hbytes :
        px.flatMap (toNeBytes littleEndian 4) = output.flatMap (toNeBytes littleEndian 4) := by
      rw [hpx, List.flatMap_map]
      refine List.flatMap_congr fun v _ => toNeBytes_congr littleEndian ?_
      exact Int.emod_emod_of_dvd v (by decide)
    rw [decodePlio_eq, hwords, hbytes]
    rfl

/-- Pixels that decode from words of which some may be cut off are all written. -/
theorem complete_of_decodes {px : List Int} (h : ∀ v ∈ px, InRange v) {k : Nat} {output : List Int}
    (hdec : decodeLoop px.length ((dataWords px).take k) 7 false 1 1 0
      (List.replicate px.length 0) =
      .ok output)
    (hpx : px = output.map (· % 4294967296)) :
    AllComplete 1 (runs px) ∧ (streamWords 1 (runs px)).length ≤ k := by
  have hvalid := runs_valid h
  have hdata := dataWords_eq fun v hv => (h v hv).1
  have hcap := decodeLoop_nonzeros _ hdec
  have hle : nonzeros px ≤ capacity false ((dataWords px).take k) := by
    have hmod := nonzeros_map_mod_le output
    rw [← hpx] at hmod
    rw [nonzeros_zeros] at hcap
    omega
  have hcount : nonzeros px = nonzeros ((runs px).flatMap Run.pixels) := by
    conv_lhs => rw [runs_pixels px]
    rw [nonzeros_append, nonzeros_zeros, Nat.add_zero]
  have hzero : capacity false (zeroWords (trailing px)) = 0 := by
    rw [← List.append_nil (zeroWords (trailing px)), capacity_zeroWords, capacity]
  have htake := capacity_take_le (dataWords px) false k
  have hcomplete : AllComplete 1 (runs px) := by
    by_contra hno
    have hlt := capacity_streamWords_lt (zeroWords (trailing px)) _ hvalid inRange_one hno
    rw [← hdata, hzero] at hlt
    omega
  refine ⟨hcomplete, ?_⟩
  by_contra hcut
  have hlt := capacity_streamWords_take _ hvalid inRange_one hcomplete (Nat.not_le.1 hcut)
  rw [hdata, List.take_append_of_le_length (by omega)] at hle
  omega

/-- Pixels that decode are written where they belong. -/
theorem placed_of_decodes {px : List Int} (h : ∀ v ∈ px, InRange v)
    (hcomplete : AllComplete 1 (runs px)) {output : List Int}
    (hdec : decodeLoop px.length (dataWords px) 7 false 1 1 0
      (List.replicate px.length 0) = .ok output)
    (hpx : px = output.map (· % 4294967296)) : ∀ r ∈ runs px, r.Placed := by
  by_contra hno
  obtain ⟨ws, ws', hi', front, v, back, back', hwords, hstep, hv, hne, hpixels, hlen⟩ :=
    decodes_streamWords_displaced _ (runs_valid h) inRange_one hcomplete hno
  have hsplit : px = front ++ 0 :: (back' ++ List.replicate (trailing px) 0) := by
    conv_lhs => rw [runs_pixels px]
    rw [hpixels, List.append_assoc, List.cons_append]
  have hfit : (front ++ v :: back).length ≤ px.length := by
    rw [hsplit]
    simp
    omega
  rw [dataWords_eq fun v hv => (h v hv).1, hwords, List.append_assoc] at hdec
  have hrun := decodeLoop_of_decodes hstep (ws' ++ zeroWords (trailing px)) [] 7
    (n := px.length) (by simpa using hfit)
  have hstart : outputAfter px.length [] = List.replicate px.length 0 := rfl
  rw [hstart, List.nil_append, List.length_nil, Int.natCast_zero, Int.zero_add] at hrun
  rw [hrun] at hdec
  have hframe := decodeLoop_frame _ hdec (length_le_outputAfter _ _)
  rw [outputAfter, List.take_left] at hframe
  -- at this place the pixel is a zero, and the output has the value
  have hout : output[front.length]? = some v := by
    have hget := congrArg (fun l => l[front.length]?) hframe
    rw [List.getElem?_take_of_lt (by simp)] at hget
    rw [hget]
    simp
  have hzero : px[front.length]? = some 0 := by
    rw [hsplit]
    simp
  rw [hpx, List.getElem?_map, hout, Option.map_some] at hzero
  have hmod := Option.some.inj hzero
  unfold InRange plioMaxPv at hv
  omega

theorem codable_of_roundTrips {littleEndian : Bool} {px : List Int} (h : ∀ v ∈ px, InRange v)
    (hrt : RoundTrips littleEndian px) : Codable px := by
  obtain ⟨output, hwords, hpx⟩ := (roundTrips_iff h).1 hrt
  have hshort := shorts_dataWords h
  have hlen := dataWords_length h
  rcases decodeWords_ok hshort hwords with hfits | ⟨k, hk, hlong, hdec⟩
  · rw [decodeWords_eq hshort _ hfits] at hwords
    have hwhole := hwords
    rw [← List.take_length (l := dataWords px)] at hwhole
    have hcomplete := (complete_of_decodes h hwhole hpx).1
    exact ⟨hcomplete, placed_of_decodes h hcomplete hwords hpx, hlen ▸ hfits⟩
  · -- the header gives less than half of the words
    have hcut := (complete_of_decodes h hdec hpx).2
    have hzeros := pieceCount_le (trailing px)
    rw [streamWords_length _ (runs_valid h) inRange_one] at hcut
    omega

theorem roundTrips_of_codable (littleEndian : Bool) {px : List Int} (h : ∀ v ∈ px, InRange v)
    (hc : Codable px) : RoundTrips littleEndian px := by
  obtain ⟨hcomplete, hplaced, hfits⟩ := hc
  rw [← dataWords_length h] at hfits
  obtain ⟨hi', hstream⟩ := decodes_streamWords _ (runs_valid h) inRange_one hcomplete hplaced
  have hall := hstream.append (decodes_zeroWords hi' (trailing px))
  have hle := countCast_le (trailing px)
  have hlen := congrArg List.length (runs_pixels px)
  rw [List.length_append, List.length_replicate] at hlen
  have hrun := decodeLoop_of_decodes hall [] [] 7 (n := px.length) (by
    rw [List.length_nil, List.length_append, List.length_replicate]
    omega)
  have hstart : outputAfter px.length [] = List.replicate px.length 0 := rfl
  rw [hstart, List.nil_append, List.length_nil, Int.natCast_zero, Int.zero_add, List.append_nil,
    decodeLoop, ← dataWords_eq fun v hv => (h v hv).1] at hrun
  refine (roundTrips_iff h).2 ⟨px, ?_, (map_mod_of_inRange h).symm⟩
  have hout : outputAfter px.length
      ((runs px).flatMap Run.pixels ++ List.replicate (countCast (trailing px)) 0) = px := by
    conv_rhs => rw [runs_pixels px]
    rw [outputAfter, List.length_append, List.length_replicate, List.append_assoc,
      ← List.replicate_add, show countCast (trailing px) + (px.length -
        (((runs px).flatMap Run.pixels).length + countCast (trailing px))) = trailing px by omega]
  rw [decodeWords_eq (shorts_dataWords h) _ hfits, hrun, hout]

/-- Pixels in range come back exactly when every run is coded, and the encoder
refuses all other pixels. -/
theorem plio_roundTrip (littleEndian : Bool) (px : List Int) :
    ((∀ v ∈ px, InRange v) → (RoundTrips littleEndian px ↔ Codable px)) ∧
      ((∃ v ∈ px, v < 0 ∨ plioMaxPv < v) → ∃ e, encodePlioI32 px = .error e) := by
  refine ⟨fun h => ⟨codable_of_roundTrips h, roundTrips_of_codable littleEndian h⟩, ?_⟩
  rintro ⟨v, hv, hout⟩
  have hno : ¬ ∀ v ∈ px, InRange v := by
    intro hall
    have := hall v hv
    unfold InRange at this
    omega
  obtain ⟨e, he⟩ := checkPixels_error hno 0
  exact ⟨e, by rw [encodePlioI32, he]⟩

/-- Runs of one and of several pixels, with zeros between and behind them. -/
theorem plio_roundTrip_mask : RoundTrips true [0, 0, 3, 3, 9, 0, 7, 0, 0] := by
  have hrange : ∀ v ∈ ([0, 0, 3, 3, 9, 0, 7, 0, 0] : List Int), InRange v := by
    unfold InRange
    decide
  have hcodable : Codable [0, 0, 3, 3, 9, 0, 7, 0, 0] :=
    ⟨by decide, by decide, by decide⟩
  exact ((plio_roundTrip true _).1 hrange).2 hcodable

/-- A single pixel above 4096 at the start is lost. -/
theorem not_roundTrips_farLone :
    (∀ v ∈ ([5000, 0] : List Int), InRange v) ∧ ¬ RoundTrips true [5000, 0] := by
  have hrange : ∀ v ∈ ([5000, 0] : List Int), InRange v := by
    unfold InRange
    decide
  refine ⟨hrange, fun h => ?_⟩
  have hcomplete := (codable_of_roundTrips hrange h).complete
  exact absurd hcomplete (by decide)

end RustFits.Zimage.Plio
