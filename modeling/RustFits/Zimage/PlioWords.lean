import RustFits.Zimage.Plio
import Mathlib.Data.List.Basic

/-!
# What the words of a PLIO stream do

The encoder works on runs: some zeros, then equal pixels.  The decoder of one run
starts from the high value that the run before it left behind.

* `Run` and `runs` cut a pixel list, `dataWords_eq` says that the encoder emits the
  words of one run after the other.
* `Decodes` is what words do, without the bounds of an output: one rule for each
  opcode.  `decodeLoop_of_decodes` is the decoder on words with such a derivation.
-/

namespace RustFits.Zimage.Plio

open Ascii ByteFile Machine BigEndian

/-! ## Runs -/

/-- Zeros and the equal pixels behind them. -/
structure Run where
  zeros : Nat
  value : Int
  count : Nat
  deriving DecidableEq, Repr

def Run.pixels (r : Run) : List Int := List.replicate r.zeros 0 ++ List.replicate r.count r.value

/-- The runs from a run in progress on, and the zeros behind the last one. -/
def runsLoop : List Int → Nat → Int → Nat → List Run × Nat
  | [], nz, pv, np => if pv = 0 then ([], nz + np) else ([⟨nz, pv, np⟩], 0)
  | v :: rest, nz, pv, np =>
    if v = pv then runsLoop rest nz pv (np + 1)
    else if pv = 0 then runsLoop rest (nz + np) v 1
    else (⟨nz, pv, np⟩ :: (runsLoop rest 0 v 1).1, (runsLoop rest 0 v 1).2)

def cut : List Int → List Run × Nat
  | [] => ([], 0)
  | v :: rest => runsLoop rest 0 v 1

/-- The runs of a pixel list. -/
def runs (px : List Int) : List Run := (cut px).1

/-- The zeros behind the last run. -/
def trailing (px : List Int) : Nat := (cut px).2

/-- The words of one run after the other, each one from the value before it. -/
def streamWords : Int → List Run → List Int
  | _, [] => []
  | hi, r :: rs => runWords r.value hi r.count r.zeros ++ streamWords r.value rs

theorem zeroWords_zero : zeroWords 0 = [] := by decide

/-- The words of a run without pixels are those of its zeros. -/
theorem runWords_trailing (hi : Int) (nz : Nat) : runWords 0 hi 0 nz = zeroWords nz := by
  have hsolid : solidWords 0 = [] := by decide
  have hcond : (!(zeroWords nz).isEmpty && decide (0 = 1) && decide ((0 : Int) < 0)) = false := by
    simp
  rw [runWords, if_neg (by simp), bodyWords, hcond, if_neg (by decide), hsolid, List.append_nil]

theorem encodeLoop_eq :
    ∀ (rest : List Int) (ip : Nat) (pv hi : Int) (x1 iz : Nat) (out : List Int),
      (∀ v ∈ rest, 0 ≤ v) → 0 ≤ pv → iz ≤ x1 → x1 ≤ ip + 1 →
      encodeLoop rest ip pv hi x1 iz out =
        out ++ (streamWords hi (runsLoop rest (x1 - iz) pv (ip + 1 - x1)).1 ++
          zeroWords (runsLoop rest (x1 - iz) pv (ip + 1 - x1)).2) := by
  intro rest
  induction rest with
  | nil =>
    intro ip pv hi x1 iz out _ h0 h1 h2
    rw [encodeLoop, runsLoop]
    by_cases hpv : pv = 0
    · rw [if_pos hpv, if_pos hpv, streamWords, List.nil_append, hpv, Nat.sub_self,
        runWords_trailing, show x1 - iz + (ip + 1 - x1) = ip + 1 - iz by omega]
    · rw [if_neg hpv, if_neg hpv, streamWords, streamWords, zeroWords_zero, List.append_nil,
        List.append_nil]
  | cons v rest ih =>
    intro ip pv hi x1 iz out hpos h0 h1 h2
    have hv0 := hpos v List.mem_cons_self
    have hv : max v 0 = v := Int.max_eq_left hv0
    have hrest : ∀ u ∈ rest, 0 ≤ u := fun u hu => hpos u (List.mem_cons_of_mem _ hu)
    rw [encodeLoop, runsLoop, hv]
    by_cases hsame : v = pv
    · rw [if_pos hsame, if_pos hsame, ih _ _ _ _ _ _ hrest h0 h1 (by omega),
        show ip + 1 + 1 - x1 = ip + 1 - x1 + 1 by omega]
    · rw [if_neg hsame, if_neg hsame]
      by_cases hpv : pv = 0
      · rw [if_pos hpv, if_pos hpv, ih _ _ _ _ _ _ hrest hv0 (by omega) (by omega),
          show x1 - iz + (ip + 1 - x1) = ip + 1 - iz by omega, Nat.add_sub_cancel_left]
      · have hnext : (if 0 < pv ∧ pv - hi ≠ 0 then pv else hi) = pv := by
          split_ifs <;> omega
        rw [if_neg hpv, if_neg hpv, ih _ _ _ _ _ _ hrest hv0 (Nat.le_refl _) (by omega), hnext,
          streamWords, List.append_assoc, List.append_assoc, Nat.sub_self, Nat.add_sub_cancel_left]

/-- The encoder emits the words of one run after the other, then those of the zeros
behind the last one. -/
theorem dataWords_eq {px : List Int} (h : ∀ v ∈ px, 0 ≤ v) :
    dataWords px = streamWords 1 (runs px) ++ zeroWords (trailing px) := by
  cases px with
  | nil => simp [dataWords, runs, trailing, cut, streamWords, zeroWords_zero]
  | cons v rest =>
    have h0 := h v List.mem_cons_self
    rw [dataWords, Int.max_eq_left h0,
      encodeLoop_eq rest 0 v 1 0 0 [] (fun u hu => h u (List.mem_cons_of_mem _ hu)) h0
        (Nat.le_refl _)
        (Nat.zero_le _), List.nil_append, Nat.sub_self, Nat.zero_add, Nat.sub_zero, runs,
        trailing, cut]

theorem runsLoop_pixels :
    ∀ (rest : List Int) (nz : Nat) (pv : Int) (np : Nat),
      (runsLoop rest nz pv np).1.flatMap Run.pixels ++ List.replicate (runsLoop rest nz pv np).2 0 =
        List.replicate nz 0 ++ List.replicate np pv ++ rest := by
  intro rest
  induction rest with
  | nil =>
    intro nz pv np
    rw [runsLoop]
    split_ifs with hpv
    · simp [hpv]
    · simp [Run.pixels]
  | cons v rest ih =>
    intro nz pv np
    rw [runsLoop]
    split_ifs with hsame hpv
    · rw [ih, List.replicate_succ', hsame]
      simp
    · rw [ih, hpv, List.replicate_add]
      simp
    · rw [List.flatMap_cons, List.append_assoc, ih]
      simp [Run.pixels]

theorem runs_pixels (px : List Int) :
    px = (runs px).flatMap Run.pixels ++ List.replicate (trailing px) 0 := by
  cases px with
  | nil => rfl
  | cons v rest => exact (runsLoop_pixels rest 0 v 1).symm

/-- A run that the encoder meets: pixels of a positive value in range. -/
structure Run.Valid (r : Run) : Prop where
  value_pos : 0 < r.value
  value_le : r.value ≤ plioMaxPv
  count_pos : 0 < r.count

theorem runsLoop_valid :
    ∀ (rest : List Int) (nz : Nat) (pv : Int) (np : Nat),
      (∀ v ∈ rest, 0 ≤ v ∧ v ≤ plioMaxPv) → 0 ≤ pv → pv ≤ plioMaxPv → 0 < np →
      ∀ r ∈ (runsLoop rest nz pv np).1, r.Valid := by
  intro rest
  induction rest with
  | nil =>
    intro nz pv np _ h0 hmax hnp r hr
    rw [runsLoop] at hr
    split_ifs at hr with hpv
    · cases hr
    · rw [List.mem_singleton.1 hr]
      exact ⟨by dsimp only; omega, hmax, hnp⟩
  | cons v rest ih =>
    intro nz pv np hall h0 hmax hnp r hr
    obtain ⟨hv0, hvmax⟩ := hall v List.mem_cons_self
    have hrest : ∀ u ∈ rest, 0 ≤ u ∧ u ≤ plioMaxPv := fun u hu => hall u (List.mem_cons_of_mem _ hu)
    rw [runsLoop] at hr
    split_ifs at hr with hsame hpv
    · exact ih _ _ _ hrest h0 hmax (by omega) r hr
    · exact ih _ _ _ hrest hv0 hvmax (by omega) r hr
    · rcases List.mem_cons.1 hr with rfl | hr
      · exact ⟨by dsimp only; omega, hmax, hnp⟩
      · exact ih _ _ _ hrest hv0 hvmax (by omega) r hr

theorem runs_valid {px : List Int} (h : ∀ v ∈ px, 0 ≤ v ∧ v ≤ plioMaxPv) :
    ∀ r ∈ runs px, r.Valid := by
  cases px with
  | nil => simp [runs, cut]
  | cons v rest =>
    obtain ⟨h0, hmax⟩ := h v List.mem_cons_self
    exact runsLoop_valid rest 0 v 1 (fun u hu => h u (List.mem_cons_of_mem _ hu)) h0 hmax (by omega)

/-! ## What words do -/

/-- From the high value `pv` the words leave another high value behind and write
pixels. -/
inductive Decodes : Int → List Int → Int → List Int → Prop where
  | nil (pv : Int) : Decodes pv [] pv []
  | zeros {pv pv' : Int} {ws px : List Int} (n : Nat) : n ≤ 4095 → Decodes pv ws pv' px →
      Decodes pv (n :: ws) pv' (List.replicate n 0 ++ px)
  | setHigh {pv pv' : Int} {ws px : List Int} (low high : Nat) : low < 4096 → high < 32768 →
      Decodes (high * 4096 + low : Nat) ws pv' px →
      Decodes pv ((low + 4096 : Nat) :: (high : Int) :: ws) pv' px
  | plus {pv pv' : Int} {ws px : List Int} (d : Nat) : d ≤ 4095 →
      Decodes (asI32 (pv + d)) ws pv' px → Decodes pv ((d + 8192 : Nat) :: ws) pv' px
  | minus {pv pv' : Int} {ws px : List Int} (d : Nat) : d ≤ 4095 →
      Decodes (asI32 (pv - d)) ws pv' px → Decodes pv ((d + 12288 : Nat) :: ws) pv' px
  | solid {pv pv' : Int} {ws px : List Int} (n : Nat) : n ≤ 4095 → Decodes pv ws pv' px →
      Decodes pv ((n + 16384 : Nat) :: ws) pv' (List.replicate n pv ++ px)
  | zerosThen {pv pv' : Int} {ws px : List Int} (n : Nat) : n < 4095 → Decodes pv ws pv' px →
      Decodes pv ((n + 20481 : Nat) :: ws) pv' (List.replicate n 0 ++ [pv] ++ px)
  | plusSingle {pv pv' : Int} {ws px : List Int} (d : Nat) : d ≤ 4095 →
      Decodes (asI32 (pv + d)) ws pv' px →
      Decodes pv ((d + 24576 : Nat) :: ws) pv' (asI32 (pv + d) :: px)
  | minusSingle {pv pv' : Int} {ws px : List Int} (d : Nat) : d ≤ 4095 →
      Decodes (asI32 (pv - d)) ws pv' px →
      Decodes pv ((d + 28672 : Nat) :: ws) pv' (asI32 (pv - d) :: px)

theorem Decodes.append {pv pv' pv'' : Int} {ws ws' px px' : List Int} (h : Decodes pv ws pv' px)
    (h' : Decodes pv' ws' pv'' px') : Decodes pv (ws ++ ws') pv'' (px ++ px') := by
  induction h with
  | nil => exact h'
  | zeros n hn _ ih =>
    rw [List.append_assoc]
    exact .zeros n hn (ih h')
  | setHigh low high hl hh _ ih => exact .setHigh low high hl hh (ih h')
  | plus d hd _ ih => exact .plus d hd (ih h')
  | minus d hd _ ih => exact .minus d hd (ih h')
  | solid n hn _ ih =>
    rw [List.append_assoc]
    exact .solid n hn (ih h')
  | zerosThen n hn _ ih =>
    rw [List.append_assoc]
    exact .zerosThen n hn (ih h')
  | plusSingle d hd _ ih => exact .plusSingle d hd (ih h')
  | minusSingle d hd _ ih => exact .minusSingle d hd (ih h')

/-! ### The decoder on such words -/

theorem overwrite_zeros (pre px : List Int) (k : Nat) :
    overwrite (pre ++ List.replicate k 0) pre.length px =
      (pre ++ px) ++ List.replicate (k - px.length) 0 := by
  rw [overwrite, List.take_left, ← List.drop_drop, List.drop_left, List.drop_replicate]

theorem asU16_of_nat {n : Nat} (h : n < 65536) : asU16 (n : Int) = n := by
  unfold asU16
  omega

/-- The output while the pixels `pre` are written. -/
def outputAfter (n : Nat) (pre : List Int) : List Int := pre ++ List.replicate (n - pre.length) 0

theorem length_le_outputAfter (n : Nat) (pre : List Int) :
    pre.length ≤ (outputAfter n pre).length := by
  rw [outputAfter, List.length_append]
  exact Nat.le_add_right _ _

theorem overwrite_outputAfter (n : Nat) (pre px : List Int) :
    overwrite (outputAfter n pre) pre.length px = outputAfter n (pre ++ px) := by
  rw [outputAfter, overwrite_zeros, outputAfter, List.length_append, Nat.sub_sub]

/-- Where all pixels are written the decoder stops. -/
theorem decodeLoop_full {n : Nat} {pre : List Int} (h : pre.length = n) (ws : List Int) (ip : Nat)
    (skipwd : Bool) (pv : Int) :
    decodeLoop n ws ip skipwd (pre.length + 1) pv pre.length (outputAfter n pre) = .ok pre := by
  have hout : outputAfter n pre = pre := by rw [outputAfter, h, Nat.sub_self]; simp
  cases ws with
  | nil => rw [decodeLoop, hout]
  | cons w ws => rw [decodeLoop, if_pos (by omega), hout]

theorem runPixels_length {opcode data : Nat} (pv : Int) (whole : Bool) (h : opcode = 5 → 0 < data) :
    (runPixels opcode data pv whole).length = data := by
  unfold runPixels
  split_ifs with h4 h5
  · exact List.length_replicate
  · have hpos := h (by simpa using (Bool.and_eq_true_iff.1 h5).1)
    rw [List.length_append, List.length_replicate, List.length_singleton]
    omega
  · exact List.length_replicate

/-- One word of a run, inside the output. -/
theorem decodeLoop_run {n : Nat} {ws pre : List Int} {pv : Int} (ip opcode data : Nat) {w : Int}
    (hw : w = (opcode * 4096 + data : Nat)) (hop : opcode = 0 ∨ opcode = 4 ∨ opcode = 5)
    (hdata : data < 4096) (hfive : opcode = 5 → 0 < data) (hfit : pre.length + data ≤ n)
    (hmore : pre.length ≠ n) :
    decodeLoop n (w :: ws) ip false (pre.length + 1) pv pre.length (outputAfter n pre) =
      decodeLoop n ws (ip + 1) false ((pre ++ runPixels opcode data pv true).length + 1) pv
        (pre ++ runPixels opcode data pv true).length
        (outputAfter n (pre ++ runPixels opcode data pv true)) := by
  have hraw : asU16 w = opcode * 4096 + data := by
    rw [hw]
    exact asU16_of_nat (by omega)
  have hopcode : asU16 w / 4096 = opcode := by omega
  have hlow : asU16 w % 4096 = data := by omega
  have hlen := runPixels_length pv true hfive
  have hx2 : min ((pre.length : Int) + 1 + data - 1) n = (pre.length : Int) + 1 + data - 1 := by
    omega
  have hnp :
      ((pre.length : Int) + 1 + data - 1 - max ((pre.length : Int) + 1) 1 + 1).toNat = data := by
    omega
  rw [decodeLoop, if_neg (by omega), if_neg (by decide)]
  dsimp only
  rw [hopcode, hlow, if_pos hop, hx2, hnp]
  by_cases hzero : 0 < data
  · rw [if_pos hzero, if_neg (by omega), decide_eq_true rfl,
      overwrite_outputAfter, List.length_append, hlen]
    congr 1
    push_cast
    omega
  · have hnil : runPixels opcode data pv true = [] := by
      rw [← List.length_eq_zero_iff, hlen]
      omega
    rw [if_neg hzero, hnil, List.append_nil]
    congr 1
    omega

/-- One word that writes a single pixel. -/
theorem decodeLoop_single {n d : Nat} (ws pre : List Int) (pv : Int) (ip : Nat) (plus : Bool)
    (hd : d ≤ 4095) (hmore : pre.length < n) :
    decodeLoop n ((d + (if plus then 24576 else 28672) : Nat) :: ws) ip false (pre.length + 1) pv
        pre.length (outputAfter n pre) =
      decodeLoop n ws (ip + 1) false
        ((pre ++ [asI32 (if plus then pv + d else pv - d)]).length + 1)
        (asI32 (if plus then pv + d else pv - d))
        (pre ++ [asI32 (if plus then pv + d else pv - d)]).length
        (outputAfter n (pre ++ [asI32 (if plus then pv + d else pv - d)])) := by
  cases plus with
  | true =>
    have hraw : asU16 ((d + 24576 : Nat) : Int) = d + 24576 := asU16_of_nat (by omega)
    have hopcode : (d + 24576) / 4096 = 6 := by omega
    have hlow : (d + 24576) % 4096 = d := by omega
    simp only [if_true]
    rw [decodeLoop, if_neg (by omega), if_neg (by decide), hraw]
    dsimp only
    rw [hopcode, hlow]
    simp only [show ¬ (6 = 0 ∨ 6 = 4 ∨ 6 = 5) by decide, show ¬ (6 = 1) by decide,
      show ¬ (6 = 2) by decide, show ¬ (6 = 3) by decide, if_false, if_true]
    rw [if_neg (by omega), overwrite_outputAfter, List.length_append]
    rfl
  | false =>
    have hraw : asU16 ((d + 28672 : Nat) : Int) = d + 28672 := asU16_of_nat (by omega)
    have hopcode : (d + 28672) / 4096 = 7 := by omega
    have hlow : (d + 28672) % 4096 = d := by omega
    simp only [Bool.false_eq_true, if_false]
    rw [decodeLoop, if_neg (by omega), if_neg (by decide), hraw]
    dsimp only
    rw [hopcode, hlow]
    simp only [show ¬ (7 = 0 ∨ 7 = 4 ∨ 7 = 5) by decide, show ¬ (7 = 1) by decide,
      show ¬ (7 = 2) by
        decide, show ¬ (7 = 3) by decide, show ¬ (7 = 6) by decide, if_false, if_true]
    rw [if_neg (by omega), overwrite_outputAfter, List.length_append]
    rfl

/-- The decoder writes what the words write, as long as it fits the output. -/
theorem decodeLoop_of_decodes {n : Nat} {pv pv' : Int} {ws px : List Int}
    (h : Decodes pv ws pv' px) :
    ∀ (rest pre : List Int) (ip : Nat), pre.length + px.length ≤ n →
      decodeLoop n (ws ++ rest) ip false (pre.length + 1) pv pre.length (outputAfter n pre) =
        decodeLoop n rest (ip + ws.length) false ((pre ++ px).length + 1) pv' (pre ++ px).length
          (outputAfter n (pre ++ px)) := by
  -- where the output is full, neither these words nor the rest write anything
  have hstop : ∀ (pv pv' : Int) (ws px rest pre : List Int) (ip : Nat), pre.length = n →
      pre.length + px.length ≤ n →
      decodeLoop n (ws ++ rest) ip false (pre.length + 1) pv pre.length (outputAfter n pre) =
        decodeLoop n rest (ip + ws.length) false ((pre ++ px).length + 1) pv' (pre ++ px).length
          (outputAfter n (pre ++ px)) := by
    intro pv pv' ws px rest pre ip hfull hfit
    have hnil : px = [] := List.eq_nil_of_length_eq_zero (by omega)
    rw [decodeLoop_full hfull, hnil, List.append_nil, decodeLoop_full hfull]
  induction h with
  | nil pv =>
    intro rest pre ip _
    rw [List.append_nil, List.nil_append, List.length_nil, Nat.add_zero]
  | @zeros pv pv' ws px k hk _ ih =>
    intro rest pre ip hfit
    by_cases hfull : pre.length = n
    · exact hstop _ _ _ _ _ _ _ hfull hfit
    · rw [List.length_append, List.length_replicate] at hfit
      have hpx : runPixels 0 k pv true = List.replicate k 0 := rfl
      rw [List.cons_append, decodeLoop_run ip 0 k (by simp) (Or.inl rfl) (by omega) (by simp)
        (by omega) hfull, hpx,
        ih _ _ _ (by simp; omega), List.append_assoc, List.length_cons,
        show ip + 1 + ws.length = ip + (ws.length + 1) by omega]
  | @setHigh pv pv' ws px low high hl hh _ ih =>
    intro rest pre ip hfit
    by_cases hfull : pre.length = n
    · exact hstop _ _ _ _ _ _ _ hfull hfit
    · have hraw : asU16 ((low + 4096 : Nat) : Int) = low + 4096 := asU16_of_nat (by omega)
      have hopcode : (low + 4096) / 4096 = 1 := by omega
      have hlow : (low + 4096) % 4096 = low := by omega
      rw [List.cons_append, List.cons_append, decodeLoop, if_neg (by omega),
        if_neg (by decide), hraw]
      dsimp only
      rw [hopcode, hlow]
      simp only [show ¬ (1 = 0 ∨ 1 = 4 ∨ 1 = 5) by decide, if_false, if_true]
      rw [decodeLoop, if_neg (by omega), if_pos rfl]
      rw [show ((high : Int) * 4096 + (low : Int)) = ((high * 4096 + low : Nat) : Int) by
        push_cast; rfl, ih rest pre _ hfit, List.length_cons, List.length_cons,
        show ip + 1 + 1 + ws.length = ip + (ws.length + 1 + 1) by omega]
  | @plus pv pv' ws px d hd _ ih =>
    intro rest pre ip hfit
    by_cases hfull : pre.length = n
    · exact hstop _ _ _ _ _ _ _ hfull hfit
    · have hraw : asU16 ((d + 8192 : Nat) : Int) = d + 8192 := asU16_of_nat (by omega)
      have hopcode : (d + 8192) / 4096 = 2 := by omega
      have hlow : (d + 8192) % 4096 = d := by omega
      rw [List.cons_append, decodeLoop, if_neg (by omega), if_neg (by decide), hraw]
      dsimp only
      rw [hopcode, hlow]
      simp only [show ¬ (2 = 0 ∨ 2 = 4 ∨ 2 = 5) by decide, show ¬ (2 = 1) by decide,
        if_false, if_true]
      rw [ih rest pre _ hfit, List.length_cons, Nat.add_right_comm]
      rfl
  | @minus pv pv' ws px d hd _ ih =>
    intro rest pre ip hfit
    by_cases hfull : pre.length = n
    · exact hstop _ _ _ _ _ _ _ hfull hfit
    · have hraw : asU16 ((d + 12288 : Nat) : Int) = d + 12288 := asU16_of_nat (by omega)
      have hopcode : (d + 12288) / 4096 = 3 := by omega
      have hlow : (d + 12288) % 4096 = d := by omega
      rw [List.cons_append, decodeLoop, if_neg (by omega), if_neg (by decide), hraw]
      dsimp only
      rw [hopcode, hlow]
      simp only [show ¬ (3 = 0 ∨ 3 = 4 ∨ 3 = 5) by decide, show ¬ (3 = 1) by decide,
        show ¬ (3 = 2) by decide, if_false, if_true]
      rw [ih rest pre _ hfit, List.length_cons, Nat.add_right_comm]
      rfl
  | @solid pv pv' ws px k hk _ ih =>
    intro rest pre ip hfit
    by_cases hfull : pre.length = n
    · exact hstop _ _ _ _ _ _ _ hfull hfit
    · rw [List.length_append, List.length_replicate] at hfit
      have hpx : runPixels 4 k pv true = List.replicate k pv := rfl
      rw [List.cons_append, decodeLoop_run ip 4 k (by omega) (Or.inr (Or.inl rfl)) (by omega)
        (by omega) (by omega)
        hfull, hpx, ih _ _ _ (by simp; omega), List.append_assoc, List.length_cons,
        show ip + 1 + ws.length = ip + (ws.length + 1) by omega]
  | @zerosThen pv pv' ws px k hk _ ih =>
    intro rest pre ip hfit
    by_cases hfull : pre.length = n
    · exact hstop _ _ _ _ _ _ _ hfull hfit
    · rw [List.length_append, List.length_append, List.length_replicate,
        List.length_singleton] at hfit
      have hpx : runPixels 5 (k + 1) pv true = List.replicate k 0 ++ [pv] := rfl
      rw [List.cons_append, decodeLoop_run ip 5 (k + 1) (by omega) (Or.inr (Or.inr rfl))
        (by omega) (by omega)
        (by omega) hfull, hpx, ih _ _ _ (by simp; omega), List.append_assoc, List.length_cons,
        show ip + 1 + ws.length = ip + (ws.length + 1) by omega]
  | @plusSingle pv pv' ws px d hd _ ih =>
    intro rest pre ip hfit
    rw [List.length_cons] at hfit
    have hstep := decodeLoop_single (n := n) (ws ++ rest) pre pv ip true hd (by omega)
    simp only [if_true] at hstep
    rw [List.cons_append, hstep, ih _ _ _ (by simp; omega), List.append_assoc,
      List.singleton_append,
      List.length_cons, show ip + 1 + ws.length = ip + (ws.length + 1) by omega]
  | @minusSingle pv pv' ws px d hd _ ih =>
    intro rest pre ip hfit
    rw [List.length_cons] at hfit
    have hstep := decodeLoop_single (n := n) (ws ++ rest) pre pv ip false hd (by omega)
    simp only [Bool.false_eq_true, if_false] at hstep
    rw [List.cons_append, hstep, ih _ _ _ (by simp; omega), List.append_assoc,
      List.singleton_append,
      List.length_cons, show ip + 1 + ws.length = ip + (ws.length + 1) by omega]

/-! ### The decoder on any words

Words that no derivation of `Decodes` covers still write behind the pixels that are
there, and set no more pixels than their data says. -/

def nonzeros (px : List Int) : Nat := px.countP fun v => decide (v ≠ 0)

theorem nonzeros_append (px px' : List Int) : nonzeros (px ++ px') = nonzeros px + nonzeros px' :=
  List.countP_append

theorem nonzeros_zeros (n : Nat) : nonzeros (List.replicate n 0) = 0 := by
  simp [nonzeros, List.countP_replicate]

theorem nonzeros_le_length (px : List Int) : nonzeros px ≤ px.length := List.countP_le_length

theorem nonzeros_replicate {v : Int} (h : v ≠ 0) (n : Nat) : nonzeros (List.replicate n v) = n := by
  simp [nonzeros, List.countP_replicate, h]

theorem nonzeros_overwrite (output : List Int) (op : Nat) (px : List Int) :
    nonzeros (overwrite output op px) ≤ nonzeros output + nonzeros px := by
  have hsplit := nonzeros_append (output.take op) (output.drop op)
  have hdrop := nonzeros_append ((output.drop op).take px.length) ((output.drop op).drop px.length)
  rw [List.take_append_drop] at hsplit hdrop
  rw [List.drop_drop] at hdrop
  rw [overwrite, nonzeros_append, nonzeros_append]
  omega

/-- How many pixels a word can set. -/
def wordCapacity (w : Int) : Nat :=
  if asU16 w / 4096 = 4 then asU16 w % 4096
  else if asU16 w / 4096 = 5 ∨ asU16 w / 4096 = 6 ∨ asU16 w / 4096 = 7 then 1
  else 0

/-- How many pixels words can set: nothing by the second word of a set-high. -/
def capacity : Bool → List Int → Nat
  | _, [] => 0
  | true, _ :: ws => capacity false ws
  | false, w :: ws => wordCapacity w + capacity (decide (asU16 w / 4096 = 1)) ws

theorem runPixels_nonzeros (w pv : Int) {np : Nat} (whole : Bool) (h : np ≤ asU16 w % 4096) :
    nonzeros (runPixels (asU16 w / 4096) np pv whole) ≤ wordCapacity w := by
  unfold runPixels wordCapacity
  by_cases h4 : asU16 w / 4096 = 4
  · rw [if_pos h4, if_pos h4]
    refine Nat.le_trans (nonzeros_le_length _) ?_
    rw [List.length_replicate]
    exact h
  · rw [if_neg h4, if_neg h4]
    by_cases h5 : (decide (asU16 w / 4096 = 5) && whole) = true
    · rw [if_pos h5, if_pos (Or.inl (by simpa using (Bool.and_eq_true_iff.1 h5).1)),
        nonzeros_append, nonzeros_zeros]
      exact Nat.le_trans (Nat.add_le_add_left (nonzeros_le_length _) 0) (by simp)
    · rw [if_neg h5, nonzeros_zeros]
      exact Nat.zero_le _

/-- One word, when the decoder comes to an end: it may stop, or it puts pixels
behind those that are there. -/
theorem decodeLoop_step {n : Nat} {w : Int} {ws : List Int} {ip : Nat} {skipwd : Bool} {x1 pv : Int}
    {op : Nat} {output output' : List Int}
    (h : decodeLoop n (w :: ws) ip skipwd x1 pv op output = .ok output') :
    output' = output ∨
      ∃ px x1' pv', decodeLoop n ws (ip + 1) (!skipwd && decide (asU16 w / 4096 = 1)) x1' pv'
          (op + px.length) (overwrite output op px) = .ok output' ∧
        nonzeros px ≤ if skipwd then 0 else wordCapacity w := by
  have hnothing : overwrite output op [] = output := by simp [overwrite]
  rw [decodeLoop.eq_def] at h
  dsimp only at h
  by_cases hdone : (n : Int) < x1
  · rw [if_pos hdone] at h
    exact Or.inl (Except.ok.inj h).symm
  rw [if_neg hdone] at h
  cases skipwd with
  | true =>
    rw [if_pos rfl] at h
    exact Or.inr ⟨[], x1, pv, by simpa [hnothing] using h, by simp [nonzeros]⟩
  | false =>
    rw [if_neg (by decide)] at h
    by_cases hrun : asU16 w / 4096 = 0 ∨ asU16 w / 4096 = 4 ∨ asU16 w / 4096 = 5
    · rw [if_pos hrun] at h
      have hskip : decide (asU16 w / 4096 = 1) = false := by
        rw [decide_eq_false_iff_not]
        omega
      have hwrite : ∀ (np : Nat) (whole : Bool) (x1' : Int), 0 < np → np ≤ asU16 w % 4096 →
          decodeLoop n ws (ip + 1) false x1' pv (op + np)
            (overwrite output op (runPixels (asU16 w / 4096) np pv whole)) = .ok output' →
          ∃ px x1' pv', decodeLoop n ws (ip + 1) (!false && decide (asU16 w / 4096 = 1)) x1' pv'
              (op + px.length) (overwrite output op px) = .ok output' ∧
            nonzeros px ≤ if false then 0 else wordCapacity w := by
        intro np whole x1' hpos hle hdec
        refine ⟨runPixels (asU16 w / 4096) np pv whole, x1', pv, ?_,
          runPixels_nonzeros w pv whole hle⟩
        rw [runPixels_length pv whole fun _ => hpos, hskip]
        exact hdec
      split at h
      · next hnp =>
        split at h
        · cases h
        · exact Or.inr (hwrite _ _ _ hnp (by omega) h)
      · exact Or.inr ⟨[], _, _, by simpa [hnothing, hskip] using h, by simp [nonzeros]⟩
    · rw [if_neg hrun] at h
      by_cases h1 : asU16 w / 4096 = 1
      · rw [if_pos h1] at h
        cases ws with
        | nil => cases h
        | cons next ws =>
          exact Or.inr ⟨[], _, _, by simpa [hnothing, h1] using h, by simp [nonzeros]⟩
      · rw [if_neg h1] at h
        have hskip : decide (asU16 w / 4096 = 1) = false := by
          rw [decide_eq_false_iff_not]; exact h1
        have hone : ∀ v : Int, asU16 w / 4096 = 6 ∨ asU16 w / 4096 = 7 →
            nonzeros [v] ≤ if false then 0 else wordCapacity w := by
          intro v hop
          have hcap : wordCapacity w = 1 := by
            unfold wordCapacity
            rw [if_neg (by omega), if_pos (Or.inr hop)]
          rw [hcap]
          exact nonzeros_le_length [v]
        split at h
        · exact Or.inr ⟨[], _, _, by simpa [hnothing, hskip] using h, by simp [nonzeros]⟩
        split at h
        · exact Or.inr ⟨[], _, _, by simpa [hnothing, hskip] using h, by simp [nonzeros]⟩
        split at h
        · next h6 =>
          split at h
          · cases h
          · exact Or.inr ⟨_, _, _, by simpa [hskip] using h, hone _ (Or.inl h6)⟩
        split at h
        · next h7 =>
          split at h
          · cases h
          · exact Or.inr ⟨_, _, _, by simpa [hskip] using h, hone _ (Or.inr h7)⟩
        · cases h

/-- The decoder writes nothing in front of its place in the output. -/
theorem decodeLoop_frame {n : Nat} :
    ∀ (ws : List Int) {ip : Nat} {skipwd : Bool} {x1 pv : Int} {op : Nat}
      {output output' : List Int},
      decodeLoop n ws ip skipwd x1 pv op output = .ok output' → op ≤ output.length →
      output'.take op = output.take op := by
  intro ws
  induction ws with
  | nil =>
    intro ip skipwd x1 pv op output output' h _
    rw [decodeLoop] at h
    rw [Except.ok.inj h]
  | cons w ws ih =>
    intro ip skipwd x1 pv op output output' h hle
    rcases decodeLoop_step h with rfl | ⟨px, x1', pv', hrest, -⟩
    · rfl
    · have hlen : (output.take op).length = op := List.length_take_of_le hle
      have hnext := ih hrest (by
        rw [overwrite, List.length_append, List.length_append, hlen]
        omega)
      have hcut := congrArg (List.take op) hnext
      rw [List.take_take, List.take_take, Nat.min_eq_left (by omega), overwrite, List.append_assoc,
        List.take_append_of_le_length (Nat.le_of_eq hlen.symm), List.take_take,
        Nat.min_self] at hcut
      exact hcut

/-- The decoder sets no more pixels than the words can. -/
theorem decodeLoop_nonzeros {n : Nat} :
    ∀ (ws : List Int) {ip : Nat} {skipwd : Bool} {x1 pv : Int} {op : Nat}
      {output output' : List Int},
      decodeLoop n ws ip skipwd x1 pv op output = .ok output' →
      nonzeros output' ≤ nonzeros output + capacity skipwd ws := by
  intro ws
  induction ws with
  | nil =>
    intro ip skipwd x1 pv op output output' h
    rw [decodeLoop] at h
    rw [Except.ok.inj h]
    exact Nat.le_add_right _ _
  | cons w ws ih =>
    intro ip skipwd x1 pv op output output' h
    rcases decodeLoop_step h with rfl | ⟨px, x1', pv', hrest, hpx⟩
    · exact Nat.le_add_right _ _
    · have hnext := ih hrest
      have hover := nonzeros_overwrite output op px
      cases skipwd with
      | true =>
        rw [if_pos rfl] at hpx
        rw [Bool.not_true, Bool.false_and] at hnext
        rw [capacity]
        omega
      | false =>
        rw [if_neg (by decide)] at hpx
        rw [Bool.not_false, Bool.true_and] at hnext
        rw [capacity]
        omega

end RustFits.Zimage.Plio
