import RustFits.Zimage.QuantizePixel
import RustFits.Zimage.QuantizeExtent

/-!
# What quantisation keeps

* `Faithful` is what a quantised tile should be: the pixels that are not null are stored
  as values that are not reserved, come back within half a scale, and are stored again
  as what gives the same values.
* `Fits` says which tiles are: those whose zero point leaves every number inside the
  range of the stored values.  Without dithering next to none is, since the pixels are
  dithered when they are stored and not when they are read back.
* `faithful_iff` is the equivalence, for all tables of offsets.
-/

namespace RustFits.Zimage.Quantize

open Machine ExactFloat

/-- A quantised tile is what it should be. -/
structure Faithful (p : Precision) (table : DitherTable) (fdata : List ExactFloat)
    (nullValue : Option ExactFloat) (method : DitherMethod) (row : Nat) (seed : Int) (delta : Rat)
    (tile : QuantizedTile) : Prop where
  stored : List.Forall₂ (fun v q => isNull v nullValue = false → Stored method v q) fdata tile.idata
  close : List.Forall₂ (fun v w => isNull v nullValue = false → Within delta v w) fdata
    (p.dequantize table tile.idata tile.bscale tile.bzero method row seed)
  stable : ∃ again,
    p.requantize table
      (p.dequantize table tile.idata tile.bscale tile.bzero method row seed) tile.bscale
      tile.bzero method row seed = .ok again ∧
    p.dequantize table again tile.bscale tile.bzero method row seed =
      p.dequantize table tile.idata tile.bscale tile.bzero method row seed

/-- The limits of a tile with the extremes `lo` and `hi` and the numbers `qs`. -/
def Fits (method : DitherMethod) (nulls : Prop) (delta lo hi : Rat) (qs : List Rat) : Prop :=
  match method with
  | .noDither => ¬ nulls ∧ (hi - lo) / delta < 2147483637 ∧ 2 ^ 63 ≤ lo / delta ∧
      hi / delta ≤ 2 ^ 63 + 2 ^ 31 - 3 / 2 ∧
      ∀ q ∈ qs, (∃ n : Int, 2 * (q / delta) = n) ∨ 2 ^ 63 + 2 ^ 31 - 2 ≤ q / delta
  | .subtractiveDither1 => nulls ∨
      (hi - lo) / delta < 2147483637 ∧ -(2 ^ 63 + 2147483638) < lo / delta ∧
        hi / delta ≤ 2 ^ 63 + 2147483646 ∨
      2147483637 ≤ (hi - lo) / delta ∧ (hi - lo) / delta < 4294967276
  | .subtractiveDither2 => True

/-! ## From the tile to its pixels -/

theorem Precision.quantize_eq (p : Precision) : p.quantize = Quantize.quantize := by
  cases p <;> rfl

theorem Precision.dequantize_eq (p : Precision) : p.dequantize = Quantize.dequantize := by
  cases p <;> rfl

theorem Precision.requantize_eq (p : Precision) : p.requantize = Quantize.requantize := by
  cases p <;> rfl

/-- The table with one offset everywhere. -/
def constantTable (o : Rat) (ho : 0 ≤ o) (ho' : o < 1) : DitherTable :=
  ⟨fun _ => o, fun _ => ho, fun _ => ho'⟩

/-- Pixels that are stored again as something that gives them back, whatever their
places are. -/
theorem exists_again {α β : Type} {f : α → β} {g : Int → β}
    {r : Nat → β → Except RequantizeError Int} {l : List α} {again : List Int} {k : Nat}
    (h : (((l.map f).zipIdx k).map fun p => r p.2 p.1).mapM id = .ok again)
    (hsame : again.map g = l.map f) :
    ∀ v ∈ l, ∃ i q, r i (f v) = .ok q ∧ g q = f v := by
  induction l generalizing again k with
  | nil => exact fun v hv => nomatch hv
  | cons v rest ih =>
    rw [List.map_cons, List.zipIdx_cons, List.map_cons, List.mapM_cons] at h
    obtain ⟨q, hq, h⟩ := bind_eq_ok.1 h
    obtain ⟨more, hmore, h⟩ := bind_eq_ok.1 h
    obtain rfl := Except.ok.inj h
    have hsame := List.cons.inj hsame
    intro w hw
    rcases List.mem_cons.1 hw with rfl | hw
    · exact ⟨k, q, hq, hsame.1⟩
    · exact ih hmore hsame.2 w hw

section

variable {p : Precision} {table : DitherTable} {fdata : List ExactFloat} {nxpix nypix : Nat}
  {nullValue : Option ExactFloat} {qlevel : ExactFloat} {method : DitherMethod}
  {row : Nat} {seed : Int}
  {tile : QuantizedTile} {delta : Rat}

/-- What a tile is quantised with does not depend on the table. -/
theorem quantize_spec
    (h : quantize table fdata nxpix nypix nullValue qlevel method row seed = some tile) :
    ∃ extent, tileScale fdata nxpix nypix nullValue qlevel = some (extent, tile.bscale) ∧
      1 < nxpix * nypix ∧
      ¬ 2 * number i32Max - number nReservedValues < (extent.maxval - extent.minval) / tile.bscale ∧
      tile.bzero = zeroPoint extent (nxpix * nypix) tile.bscale method ∧
      ∀ table', quantize table' fdata nxpix nypix nullValue qlevel method row seed =
        some ⟨perPixel table' (quantizePixel (decide (extent.ngood ≠ nxpix * nypix)) nullValue
            method tile.bscale tile.bzero) (ditherOf table' row seed) (fdata.take (nxpix * nypix)),
          tile.bscale, tile.bzero⟩ := by
  rw [quantize] at h
  dsimp only at h
  obtain ⟨hnx, h⟩ := Option.ite_none_left_eq_some.1 h
  cases hscale : tileScale fdata nxpix nypix nullValue qlevel with
  | none =>
    rw [hscale] at h
    cases h
  | some scale =>
    rw [hscale] at h
    obtain ⟨hrange, h⟩ := Option.ite_none_left_eq_some.1 h
    obtain rfl := Option.some.inj h
    refine ⟨scale.1, rfl, not_le.1 hnx, hrange, rfl, fun table' => ?_⟩
    rw [quantize]
    dsimp only
    rw [if_neg hnx, hscale]
    dsimp only
    rw [if_neg hrange]

theorem ok_of_ite {ε α : Type} {c : Prop} [Decidable c] {e e' : ε} {a b : α}
    (h : (if c then Except.error e else .ok a) = .ok b) :
    (if c then Except.error e' else .ok a) = .ok b := by
  by_cases hc : c
  · rw [if_pos hc] at h
    cases h
  · rwa [if_neg hc] at h ⊢

/-- A pixel that is stored again is so whatever its place in the tile is. -/
theorem requantizePixel_place {bscale bzero v : ExactFloat} {o : Option Rat} {i : Nat} {q : Int}
    (h : requantizePixel bscale bzero method i v o = .ok q) (j : Nat) :
    requantizePixel bscale bzero method j v o = .ok q := by
  rw [requantizePixel] at h ⊢
  dsimp only at h ⊢
  by_cases hnull : isNull v (some nan) = true
  · rwa [if_pos hnull] at h ⊢
  · rw [if_neg hnull] at h ⊢
    by_cases hzero : method = .subtractiveDither2 ∧ Same v 0
    · rwa [if_pos hzero] at h ⊢
    · rw [if_neg hzero] at h ⊢
      exact ok_of_ite h

theorem requantize_eq (hdelta : 0 < delta) (hrow : 0 < row) (w : List ExactFloat)
    (zero : ExactFloat) :
    requantize table w (number delta) zero method row seed =
      (perPixel table (fun (v : ExactFloat × Nat) offset =>
          requantizePixel (number delta) zero method v.2 v.1 offset)
        (some (DitherStream.new table row seed)) w.zipIdx).mapM id := by
  have hscale : ¬ (Same (number delta) 0 ∨ (number delta).isFinite = false) := by
    rw [zero_eq, same_number]
    exact fun h => h.elim hdelta.ne' fun h => nomatch h
  rw [requantize, if_neg hscale, ditherOf, if_pos hrow]

/-- A tile is what it should be with every table when each of its pixels is with every
offset. -/
theorem faithful_iff_pixels (hrow : 0 < row) (hdelta : 0 < delta)
    {stored : ExactFloat → Option Rat → Int} {zero : ExactFloat}
    (htile : ∀ table, p.quantize table fdata nxpix nypix nullValue qlevel method row seed =
      some ⟨perPixel table stored (ditherOf table row seed) fdata, number delta, zero⟩) :
    (∀ table tile, p.quantize table fdata nxpix nypix nullValue qlevel method row seed = some tile →
      Faithful p table fdata nullValue method row seed delta tile) ↔
    ∀ v ∈ fdata, ∀ o : Rat, 0 ≤ o → o < 1 →
      PixelFaithful nullValue method delta zero v (stored v (some o)) o := by
  have hdither (table : DitherTable) :
      ditherOf table row seed = some (DitherStream.new table row seed) :=
    if_pos hrow
  constructor
  · intro h v hv o ho ho'
    have hconst {α β : Type} (f : α → Option Rat → β) (l : List α) :
        perPixel (constantTable o ho ho') f
          (some (DitherStream.new (constantTable o ho ho') row seed)) l =
          l.map fun v => f v (some o) :=
      perPixel_eq_map fun _ _ _ => rfl
    have hfaithful := h (constantTable o ho ho') _ (htile _)
    have hstored := hfaithful.stored
    have hclose := hfaithful.close
    obtain ⟨again, hagain, hsame⟩ := hfaithful.stable
    simp only [hdither, Precision.dequantize_eq, Precision.requantize_eq, dequantize_eq,
      requantize_eq hdelta hrow, hconst, List.map_map] at hstored hclose hagain hsame
    rw [List.forall₂_map_right_iff, List.forall₂_same] at hstored hclose
    obtain ⟨i, q, hq, hback⟩ :=
      exists_again (r := fun i w => requantizePixel (number delta) zero method i w (some o))
      (g := fun q => dequantizePixel (number delta) zero method q (some o)) hagain hsame v hv
    exact ⟨hstored v hv, hclose v hv, q, requantizePixel_place hq, hback⟩
  · intro h table tile heq
    obtain rfl := Option.some.inj ((htile table).symm.trans heq)
    have hback := perPixel_perPixel table (f := stored)
      (g := dequantizePixel (number delta) zero method) fdata (DitherStream.new table row seed)
    refine ⟨?_, ?_, ?_⟩
    · rw [hdither]
      exact forall₂_perPixel (fun v hv o ho ho' => (h v hv o ho ho').stored) _
    · rw [hdither, Precision.dequantize_eq, dequantize_eq, hback]
      exact forall₂_perPixel (fun v hv o ho ho' => (h v hv o ho ho').close) _
    · obtain ⟨again, hagain, hsame⟩ := perPixel_again table
        (f := fun v offset => dequantizePixel (number delta) zero method (stored v offset) offset)
        (g := dequantizePixel (number delta) zero method)
        (r := requantizePixel (number delta) zero method)
        (fun v hv o ho ho' => (h v hv o ho ho').stable) (DitherStream.new table row seed) 0
      refine ⟨again, ?_, ?_⟩
      · rw [hdither, Precision.dequantize_eq, Precision.requantize_eq, dequantize_eq, hback,
          requantize_eq hdelta hrow]
        exact hagain
      · rw [hdither, Precision.dequantize_eq, dequantize_eq, dequantize_eq, hback]
        exact hsame

end

/-! ## The zero point -/

/-- The multiple of the scale that a tile is stored from: near the least number, unless
the cast saturates. -/
def zeroMultiple (a : Rat) : Int := clampInt i64Min i64Max (truncate (a + 1 / 2))

theorem zeroMultiple_spec (a : Rat) :
    (-(3 / 2) < a - zeroMultiple a ∧ a - zeroMultiple a < 1 / 2 ∧
        i64Min ≤ zeroMultiple a ∧ zeroMultiple a ≤ i64Max) ∨
      (zeroMultiple a = i64Max ∧ 2 ^ 63 ≤ a + 1 / 2) ∨
      (zeroMultiple a = i64Min ∧ a + 1 / 2 ≤ -2 ^ 63 - 1) := by
  have hnear : -(3 / 2) < a - truncate (a + 1 / 2) ∧ a - truncate (a + 1 / 2) < 1 / 2 := by
    by_cases hsign : 0 ≤ a + 1 / 2
    · have := truncate_of_nonneg hsign
      constructor <;> linarith
    · have := truncate_of_neg (not_le.1 hsign)
      constructor <;> linarith
  by_cases hlow : i64Min ≤ truncate (a + 1 / 2)
  · by_cases hhigh : truncate (a + 1 / 2) ≤ i64Max
    · rw [zeroMultiple, clampInt_of_mem hlow hhigh]
      exact .inl ⟨hnear.1, hnear.2, hlow, hhigh⟩
    · have hle : i64Min ≤ i64Max := by decide
      refine .inr (.inl ⟨by rw [zeroMultiple, clampInt]; omega, ?_⟩)
      have hround : 9223372036854775808 ≤ truncate (a + 1 / 2) := by
        rw [i64Max] at hhigh
        omega
      have hpos : 0 ≤ a + 1 / 2 := by
        by_contra hneg
        have := truncate_of_neg (not_le.1 hneg)
        have hcast : (9223372036854775808 : Rat) ≤ truncate (a + 1 / 2) := by exact_mod_cast hround
        linarith
      have hcast : (9223372036854775808 : Rat) ≤ truncate (a + 1 / 2) := by exact_mod_cast hround
      linarith [(truncate_of_nonneg hpos).1]
  · refine .inr (.inr ⟨?_, ?_⟩)
    · rw [zeroMultiple, clampInt]
      have : i64Min ≤ i64Max := by decide
      omega
    · have hround : truncate (a + 1 / 2) ≤ -9223372036854775809 := by
        rw [i64Min] at hlow
        omega
      have hcast : (truncate (a + 1 / 2) : Rat) ≤ -9223372036854775809 := by exact_mod_cast hround
      by_cases hsign : 0 ≤ a + 1 / 2
      · have := truncate_of_nonneg hsign
        linarith
      · linarith [(truncate_of_neg (not_le.1 hsign)).1]

/-- The positions of a tile that is stored from a multiple of the scale, with the
extremes `a` and `b` in units of the scale. -/
theorem dithered_multiple_iff {a b : Rat} (hrange : b - a < 2147483637) :
    (-2147483638 < a - zeroMultiple a ∧ b - zeroMultiple a ≤ 2147483647) ↔
      -(2 ^ 63 + 2147483638) < a ∧ b ≤ 2 ^ 63 + 2147483646 := by
  rcases zeroMultiple_spec a with hmid | hhigh | hlow
  · have hmin : (-9223372036854775808 : Rat) ≤ zeroMultiple a := by exact_mod_cast hmid.2.2.1
    have hmax : (zeroMultiple a : Rat) ≤ 9223372036854775807 := by exact_mod_cast hmid.2.2.2
    refine ⟨fun _ => ⟨?_, ?_⟩, fun _ => ⟨?_, ?_⟩⟩ <;> linarith [hmid.1, hmid.2.1]
  · rw [hhigh.1, i64Max]
    push_cast
    refine ⟨fun h => ⟨?_, ?_⟩, fun h => ⟨?_, ?_⟩⟩ <;> linarith [hhigh.2, h.1, h.2]
  · rw [hlow.1, i64Min]
    push_cast
    refine ⟨fun h => ⟨?_, ?_⟩, fun h => ⟨?_, ?_⟩⟩ <;> linarith [hlow.2, h.1, h.2]

theorem plain_multiple_iff {a b : Rat} :
    (1 ≤ a - zeroMultiple a ∧ b - zeroMultiple a ≤ 2147483647 + 1 / 2) ↔
      2 ^ 63 ≤ a ∧ b ≤ 2 ^ 63 + 2 ^ 31 - 3 / 2 := by
  rcases zeroMultiple_spec a with hmid | hhigh | hlow
  · have hmax : (zeroMultiple a : Rat) ≤ 9223372036854775807 := by exact_mod_cast hmid.2.2.2
    refine ⟨fun h => ?_, fun h => ?_⟩ <;> linarith [hmid.1, hmid.2.1, h.1]
  · rw [hhigh.1, i64Max]
    push_cast
    refine ⟨fun h => ⟨?_, ?_⟩, fun h => ⟨?_, ?_⟩⟩ <;> linarith [hhigh.2, h.1, h.2]
  · rw [hlow.1, i64Min]
    push_cast
    refine ⟨fun h => ?_, fun h => ?_⟩ <;> linarith [hlow.2, h.1]

theorem zeroMultiple_of_large {a : Rat} (h : 2 ^ 63 ≤ a) : zeroMultiple a = i64Max := by
  rcases zeroMultiple_spec a with hmid | hhigh | hlow
  · have hmax : (zeroMultiple a : Rat) ≤ 9223372036854775807 := by exact_mod_cast hmid.2.2.2
    linarith [hmid.2.1]
  · exact hhigh.1
  · linarith [hlow.2]

section

variable {extent : Extent} {nx : Nat} {delta lo hi : Rat} {method : DitherMethod}

theorem zeroPoint_shifted (hlo : extent.minval = number lo)
    (h : extent.ngood ≠ nx ∨ method = .subtractiveDither2) :
    zeroPoint extent nx (number delta) method = number (lo + delta * 2147483637) := by
  have hvalue : number lo - number delta * (number nullValueI32 + number nReservedValues) =
      number (lo + delta * 2147483637) := by
    rw [number_add, number_mul, number_sub, nullValueI32, nReservedValues]
    congr 1
    push_cast
    ring
  rw [zeroPoint, hlo, hvalue]
  split
  next hgood => rw [if_pos (h.resolve_left (not_not.2 hgood))]
  next => rfl

theorem zeroPoint_multiple (hlo : extent.minval = number lo) (hhi : extent.maxval = number hi)
    (hgood : extent.ngood = nx) (hmethod : method ≠ .subtractiveDither2) (hdelta : 0 < delta)
    (hrange : (hi - lo) / delta < 2147483637) :
    zeroPoint extent nx (number delta) method = number (zeroMultiple (lo / delta) * delta) := by
  have hcond : number ((hi - lo) / delta) < number ((i32Max : Rat) - (nReservedValues : Rat)) := by
    rw [number_lt, i32Max, nReservedValues]
    push_cast
    linarith
  rw [zeroPoint, if_pos hgood, if_neg hmethod, hlo, hhi, number_sub, number_sub,
    number_div _ hdelta.ne',
    number_div _ hdelta.ne', if_pos hcond, number_add, toInt_number, number_mul]
  rfl

theorem zeroPoint_centre (hlo : extent.minval = number lo) (hhi : extent.maxval = number hi)
    (hgood : extent.ngood = nx) (hmethod : method ≠ .subtractiveDither2) (hdelta : 0 < delta)
    (hrange : 2147483637 ≤ (hi - lo) / delta) :
    zeroPoint extent nx (number delta) method = number ((lo + hi) / 2) := by
  have hcond :
      ¬ number ((hi - lo) / delta) < number ((i32Max : Rat) - (nReservedValues : Rat)) := by
    rw [number_lt, i32Max, nReservedValues]
    push_cast
    linarith
  rw [zeroPoint, if_pos hgood, if_neg hmethod, hlo, hhi, number_sub, number_sub,
    number_div _ hdelta.ne',
    if_neg hcond, number_add, ofNat_eq, number_div _ (OfNat.ofNat_ne_zero 2)]

end

/-! ## The tiles that are what they should be -/

section

variable {nullValue : Option ExactFloat} {fdata : List ExactFloat}

theorem length_numbers_iff (hnumbers : ∀ v ∈ fdata, isNull v nullValue = false →
    v.isFinite = true) :
    (numbers fdata nullValue).length = fdata.length ↔ ¬ ∃ v ∈ fdata, isNull v nullValue = true := by
  rw [numbers, List.filterMap_length_eq_length]
  refine ⟨fun h hnull => ?_, fun h v hv => ?_⟩
  · obtain ⟨v, hv, hnull⟩ := hnull
    have := h v hv
    rw [hnull] at this
    cases this
  · have hnull : isNull v nullValue = false := Bool.eq_false_iff.2 fun hnull => h ⟨v, hv, hnull⟩
    obtain ⟨q, rfl⟩ := exists_number (hnumbers v hv hnull)
    rw [hnull]
    rfl

/-- Null pixels are always what they should be, so the numbers decide. -/
theorem pixels_iff_numbers_at
    (hnumbers : ∀ v ∈ fdata, isNull v nullValue = false → v.isFinite = true)
    {check : Bool} (hcheck : (∃ v ∈ fdata, isNull v nullValue = true) → check = true)
    {method : DitherMethod} {delta : Rat} {zero : ExactFloat} {o : Rat} :
    (∀ v ∈ fdata, PixelFaithful nullValue method delta zero v
      (quantizePixel check nullValue method (number delta) zero v (some o)) o) ↔
    ∀ q ∈ numbers fdata nullValue, PixelFaithful nullValue method delta zero (number q)
      (quantizePixel check nullValue method (number delta) zero (number q) (some o)) o := by
  refine ⟨fun h q hq => h (number q) (mem_numbers.1 hq).1, fun h v hv => ?_⟩
  cases hnull : isNull v nullValue with
  | true =>
    rw [quantizePixel, hcheck ⟨v, hv, hnull⟩, hnull, Bool.and_self, if_pos rfl]
    exact pixelFaithful_null hnull
  | false =>
    obtain ⟨q, rfl⟩ := exists_number (hnumbers v hv hnull)
    exact h q (mem_numbers.2 ⟨hv, hnull⟩)

theorem pixels_iff_numbers
    (hnumbers : ∀ v ∈ fdata, isNull v nullValue = false → v.isFinite = true)
    {check : Bool} (hcheck : (∃ v ∈ fdata, isNull v nullValue = true) → check = true)
    {method : DitherMethod} {delta : Rat} {zero : ExactFloat} :
    (∀ v ∈ fdata, ∀ o : Rat, 0 ≤ o → o < 1 → PixelFaithful nullValue method delta zero v
      (quantizePixel check nullValue method (number delta) zero v (some o)) o) ↔
    ∀ q ∈ numbers fdata nullValue, ∀ o : Rat, 0 ≤ o → o < 1 →
      PixelFaithful nullValue method delta zero (number q)
        (quantizePixel check nullValue method (number delta) zero (number q) (some o)) o := by
  refine ⟨fun h q hq o ho ho' => ?_, fun h v hv o ho ho' => ?_⟩
  · exact (pixels_iff_numbers_at hnumbers hcheck).1 (fun v hv => h v hv o ho ho') q hq
  · exact (pixels_iff_numbers_at hnumbers hcheck).2 (fun q hq => h q hq o ho ho') v hv

theorem position_shifted {delta : Rat} (hdelta : 0 < delta) (q lo : Rat) :
    (q - (lo + delta * 2147483637)) / delta = (q - lo) / delta - 2147483637 := by
  field_simp
  ring

theorem position_multiple {delta : Rat} (hdelta : 0 < delta) (q : Rat) (n : Int) :
    (q - n * delta) / delta = q / delta - n := by
  field_simp

section

variable {extent : Extent} {nx : Nat} {delta lo hi : Rat} {qs : List Rat} {nulls : Prop}
  {check : Bool}
  (hleast : IsLeast {q | q ∈ qs} lo) (hgreatest : IsGreatest {q | q ∈ qs} hi)
  (hvalid : ∀ q ∈ qs, isNull (number q) nullValue = false) (hdelta : 0 < delta)
  (hrange : (hi - lo) / delta ≤ 4294967284) (hlo : extent.minval = number lo)
  (hhi : extent.maxval = number hi)

include hleast hgreatest hdelta hrange in
/-- Above the reserved values there is room for every tile that is quantised. -/
theorem shifted_in_range {q : Rat} (hq : q ∈ qs) :
    -2147483638 < (q - (lo + delta * 2147483637)) / delta ∧
      (q - (lo + delta * 2147483637)) / delta ≤ 2147483647 := by
  have hlow : 0 ≤ (q - lo) / delta := div_nonneg (sub_nonneg.2 (hleast.2 hq)) hdelta.le
  have hhigh : (q - lo) / delta ≤ (hi - lo) / delta :=
    div_le_div_of_nonneg_right (sub_le_sub_right (hgreatest.2 hq) lo) hdelta.le
  rw [position_shifted hdelta]
  constructor <;> linarith

include hleast hgreatest hvalid hdelta hrange hlo in
/-- With values of their own for the zeros every tile is what it should be. -/
theorem faithful_dither2 {q : Rat} (hq : q ∈ qs) {o : Rat} (ho : 0 ≤ o) (ho' : o < 1) :
    PixelFaithful nullValue .subtractiveDither2 delta
      (zeroPoint extent nx (number delta) .subtractiveDither2) (number q)
      (quantizePixel check nullValue .subtractiveDither2 (number delta)
        (zeroPoint extent nx (number delta) .subtractiveDither2) (number q) (some o)) o := by
  rw [zeroPoint_shifted hlo (.inr rfl)]
  by_cases hzero : q = 0
  · subst hzero
    rw [quantizePixel, hvalid 0 hq, Bool.and_false, if_neg (by simp), if_pos ⟨rfl, by simp⟩]
    exact pixelFaithful_zero hdelta
  · have hin := shifted_in_range hleast hgreatest hdelta hrange hq
    exact pixelFaithful_dithered hdelta (by decide) (hvalid q hq) (fun h => hzero h.2)
      ⟨ho, ho'⟩ hin.1 hin.2

include hleast hgreatest hvalid hdelta hrange hlo hhi in
theorem faithful_dither1_iff (hnulls : extent.ngood = nx ↔ ¬ nulls) :
    (∀ q ∈ qs, ∀ o : Rat, 0 ≤ o → o < 1 → PixelFaithful nullValue .subtractiveDither1 delta
      (zeroPoint extent nx (number delta) .subtractiveDither1) (number q)
      (quantizePixel check nullValue .subtractiveDither1 (number delta)
        (zeroPoint extent nx (number delta) .subtractiveDither1) (number q) (some o)) o) ↔
    Fits .subtractiveDither1 nulls delta lo hi qs := by
  have hpixel {z : Rat} {q : Rat} (hq : q ∈ qs) :
      (∀ o : Rat, 0 ≤ o → o < 1 →
        PixelFaithful nullValue .subtractiveDither1 delta (number z) (number q)
        (quantizePixel check nullValue .subtractiveDither1 (number delta) (number z) (number q)
          (some o)) o) ↔
        -2147483638 < (q - z) / delta ∧ (q - z) / delta ≤ 2147483647 :=
    ⟨range_of_dithered hdelta (hvalid q hq), fun h o ho ho' =>
      pixelFaithful_dithered hdelta (by decide) (hvalid q hq) (not_zero_value (by decide) q)
        ⟨ho, ho'⟩ h.1 h.2⟩
  -- the extremes decide for the numbers between them
  have hextremes {z : Rat} : (∀ q ∈ qs, ∀ o : Rat, 0 ≤ o → o < 1 →
        PixelFaithful nullValue .subtractiveDither1 delta (number z) (number q)
          (quantizePixel check nullValue .subtractiveDither1 (number delta) (number z) (number q)
            (some o)) o) ↔
      -2147483638 < (lo - z) / delta ∧ (hi - z) / delta ≤ 2147483647 := by
    refine ⟨fun h =>
      ⟨((hpixel hleast.1).1 (h lo hleast.1)).1, ((hpixel hgreatest.1).1 (h hi hgreatest.1)).2⟩,
      fun h q hq => (hpixel hq).2 ⟨h.1.trans_le ?_, le_trans ?_ h.2⟩⟩
    · exact div_le_div_of_nonneg_right (sub_le_sub_right (hleast.2 hq) z) hdelta.le
    · exact div_le_div_of_nonneg_right (sub_le_sub_right (hgreatest.2 hq) z) hdelta.le
  by_cases hnull : nulls
  · have hgood : extent.ngood ≠ nx := fun heq => hnulls.1 heq hnull
    rw [zeroPoint_shifted hlo (.inl hgood), hextremes]
    exact ⟨fun _ => .inl hnull, fun _ =>
      ⟨(shifted_in_range hleast hgreatest hdelta hrange hleast.1).1,
        (shifted_in_range hleast hgreatest hdelta hrange hgreatest.1).2⟩⟩
  · have hgood : extent.ngood = nx := hnulls.2 hnull
    by_cases hsmall : (hi - lo) / delta < 2147483637
    · rw [zeroPoint_multiple hlo hhi hgood (by decide) hdelta hsmall, hextremes,
        position_multiple hdelta,
        position_multiple hdelta, dithered_multiple_iff (by rwa [← sub_div])]
      exact ⟨fun h => .inr (.inl ⟨hsmall, h⟩), fun h =>
        (h.resolve_left hnull).elim And.right fun h => absurd h.1 (not_le.2 hsmall)⟩
    · have hlarge : 2147483637 ≤ (hi - lo) / delta := not_lt.1 hsmall
      have hlow : (lo - (lo + hi) / 2) / delta = -((hi - lo) / delta / 2) := by
        field_simp
        ring
      have hhigh : (hi - (lo + hi) / 2) / delta = (hi - lo) / delta / 2 := by
        field_simp
        ring
      rw [zeroPoint_centre hlo hhi hgood (by decide) hdelta hlarge, hextremes, hlow, hhigh]
      refine ⟨fun h => .inr (.inr ⟨hlarge, by linarith [h.1]⟩), fun h => ?_⟩
      have hfits := (h.resolve_left hnull).resolve_left fun h => hsmall h.1
      constructor <;> linarith [hfits.2]

include hleast hgreatest hvalid hdelta hlo hhi in
theorem faithful_plain_iff (hnulls : extent.ngood = nx ↔ ¬ nulls) :
    (∀ q ∈ qs, ∀ o : Rat, 0 ≤ o → o < 1 → PixelFaithful nullValue .noDither delta
      (zeroPoint extent nx (number delta) .noDither) (number q)
      (quantizePixel check nullValue .noDither (number delta)
        (zeroPoint extent nx (number delta) .noDither) (number q) (some o)) o) ↔
    Fits .noDither nulls delta lo hi qs := by
  have hpixel {z : Rat} {q : Rat} (hq : q ∈ qs) :
      (∀ o : Rat, 0 ≤ o → o < 1 → PixelFaithful nullValue .noDither delta (number z) (number q)
        (quantizePixel check nullValue .noDither (number delta) (number z) (number q) (some o)) o) ↔
        1 ≤ (q - z) / delta ∧ (q - z) / delta ≤ 2147483647 + 1 / 2 ∧
          ((∃ n : Int, 2 * ((q - z) / delta) = n) ∨ 2147483647 ≤ (q - z) / delta) :=
    ⟨place_of_plain hdelta (hvalid q hq), fun h o ho ho' =>
      pixelFaithful_plain hdelta (hvalid q hq) ⟨ho, ho'⟩ h.1 h.2.1 h.2.2⟩
  have hordered : 0 ≤ (hi - lo) / delta :=
    div_nonneg (sub_nonneg.2 (hleast.2 hgreatest.1)) hdelta.le
  by_cases hnull : nulls
  · have hgood : extent.ngood ≠ nx := fun heq => hnulls.1 heq hnull
    rw [zeroPoint_shifted hlo (.inl hgood)]
    refine ⟨fun h => ?_, fun h => absurd hnull h.1⟩
    have hone := ((hpixel hleast.1).1 (h lo hleast.1)).1
    rw [position_shifted hdelta, sub_self, zero_div] at hone
    linarith
  · have hgood : extent.ngood = nx := hnulls.2 hnull
    by_cases hsmall : (hi - lo) / delta < 2147483637
    · rw [zeroPoint_multiple hlo hhi hgood (by decide) hdelta hsmall]
      have hmultiple {q : Rat} (hq : q ∈ qs) := hpixel (z := zeroMultiple (lo / delta) * delta) hq
      simp only [position_multiple hdelta] at hmultiple
      have hmin {q : Rat} (hq : q ∈ qs) : lo / delta ≤ q / delta :=
        div_le_div_of_nonneg_right (hleast.2 hq) hdelta.le
      have hmax {q : Rat} (hq : q ∈ qs) : q / delta ≤ hi / delta :=
        div_le_div_of_nonneg_right (hgreatest.2 hq) hdelta.le
      -- the positions on a half are those of the numbers
      have hplace (hlarge : 2 ^ 63 ≤ lo / delta) (q : Rat) :
          ((∃ n : Int, 2 * (q / delta - zeroMultiple (lo / delta)) = n) ∨
            2147483647 ≤ q / delta - zeroMultiple (lo / delta)) ↔
          ((∃ n : Int, 2 * (q / delta) = n) ∨ 2 ^ 63 + 2 ^ 31 - 2 ≤ q / delta) := by
        rw [zeroMultiple_of_large hlarge]
        refine or_congr ⟨fun h => ?_, fun h => ?_⟩ ?_
        · obtain ⟨n, hn⟩ := h
          exact ⟨n + 2 * i64Max, by push_cast; linarith⟩
        · obtain ⟨n, hn⟩ := h
          exact ⟨n - 2 * i64Max, by push_cast; linarith⟩
        · rw [i64Max]
          push_cast
          constructor <;> intro h <;> linarith
      constructor
      · intro h
        have hall {q : Rat} (hq : q ∈ qs) := (hmultiple hq).1 (h q hq)
        have hends := plain_multiple_iff.1 ⟨(hall hleast.1).1, (hall hgreatest.1).2.1⟩
        exact ⟨hnull, hsmall, hends.1, hends.2, fun q hq => (hplace hends.1 q).1 (hall hq).2.2⟩
      · intro h q hq
        have hends := plain_multiple_iff.2 ⟨h.2.2.1, h.2.2.2.1⟩
        exact (hmultiple hq).2 ⟨by linarith [hends.1, hmin hq], by linarith [hends.2, hmax hq],
          (hplace h.2.2.1 q).2 (h.2.2.2.2 q hq)⟩
    · rw [zeroPoint_centre hlo hhi hgood (by decide) hdelta (not_lt.1 hsmall)]
      refine ⟨fun h => ?_, fun h => absurd h.2.1 hsmall⟩
      have hone := ((hpixel hleast.1).1 (h lo hleast.1)).1
      have hlow : (lo - (lo + hi) / 2) / delta = -((hi - lo) / delta / 2) := by
        field_simp
        ring
      rw [hlow] at hone
      linarith

end

/-- What a tile is stored with: the extremes of its numbers, which its scale brings
within the range, and the zero point that they give. -/
theorem tile_spec {p : Precision} {table : DitherTable} {nxpix nypix : Nat} {qlevel : ExactFloat}
    {method : DitherMethod} {row : Nat} {seed : Int} {tile : QuantizedTile} {delta : Rat}
    (hlen : fdata.length = nxpix * nypix)
    (hnumbers : ∀ v ∈ fdata, isNull v nullValue = false → v.isFinite = true)
    (htile : p.quantize table fdata nxpix nypix nullValue qlevel method row seed = some tile)
    (hscale : tile.bscale = number delta) (hdelta : 0 < delta) :
    ∃ extent : Extent,
      (extent.ngood = fdata.length ↔ ¬ ∃ v ∈ fdata, isNull v nullValue = true) ∧
      tile.bzero = zeroPoint extent fdata.length (number delta) method ∧
      (numbers fdata nullValue ≠ [] → ∃ lo hi, extent.minval = number lo ∧
        extent.maxval = number hi ∧ IsLeast {q | q ∈ numbers fdata nullValue} lo ∧
        IsGreatest {q | q ∈ numbers fdata nullValue} hi ∧ (hi - lo) / delta ≤ 4294967284) ∧
      ∀ table, p.quantize table fdata nxpix nypix nullValue qlevel method row seed =
        some ⟨perPixel table (quantizePixel (decide (extent.ngood ≠ fdata.length)) nullValue method
          (number delta) tile.bzero) (ditherOf table row seed) fdata, number delta,
          tile.bzero⟩ := by
  rw [p.quantize_eq] at htile ⊢
  obtain ⟨extent, hext, hnx, hrange, hzero, hall⟩ := quantize_spec htile
  rw [hscale, ← hlen] at hzero
  rw [hscale, ← hlen, List.take_of_length_le le_rfl] at hall
  obtain ⟨hgood, hminmax⟩ := tileScale_extent hlen hnumbers hext
  have hnulls : extent.ngood = fdata.length ↔ ¬ ∃ v ∈ fdata, isNull v nullValue = true := by
    rw [hgood, length_numbers_iff hnumbers]
  refine ⟨extent, hnulls, hzero, fun hnonempty => ?_, hall⟩
  obtain ⟨lo, hi, hlo, hhi, hleast, hgreatest⟩ := (covers_minMax hnumbers).bounds hnonempty
  rw [← hminmax hnonempty] at hlo hhi
  rw [hscale, hlo, hhi, number_sub, number_div _ hdelta.ne', ofNat_eq, number_mul, number_sub,
    number_lt, not_lt, i32Max, nReservedValues] at hrange
  push_cast at hrange
  exact ⟨lo, hi, hlo, hhi, hleast, hgreatest, by linarith⟩

/-- **Quantisation.**  For the tiles of the callers, which number their rows from 1, a
tile is what it should be with every table of offsets exactly when it has no number or
fits. -/
theorem faithful_iff (p : Precision) {table : DitherTable} {nxpix nypix : Nat} {qlevel : ExactFloat}
    {method : DitherMethod} {row : Nat} {seed : Int} {tile : QuantizedTile} {delta : Rat}
    (hlen : fdata.length = nxpix * nypix)
    (hnumbers : ∀ v ∈ fdata, isNull v nullValue = false → v.isFinite = true) (hrow : 0 < row)
    (htile : p.quantize table fdata nxpix nypix nullValue qlevel method row seed = some tile)
    (hscale : tile.bscale = number delta) (hdelta : 0 < delta) :
    (∀ table tile, p.quantize table fdata nxpix nypix nullValue qlevel method row seed = some tile →
      Faithful p table fdata nullValue method row seed delta tile) ↔
    ∀ lo hi, IsLeast {q | q ∈ numbers fdata nullValue} lo →
      IsGreatest {q | q ∈ numbers fdata nullValue} hi →
      Fits method (∃ v ∈ fdata, isNull v nullValue = true) delta lo hi
        (numbers fdata nullValue) := by
  obtain ⟨extent, hnulls, hzero, hends, hall⟩ := tile_spec hlen hnumbers htile hscale hdelta
  have hcheck : (∃ v ∈ fdata, isNull v nullValue = true) →
      decide (extent.ngood ≠ fdata.length) = true :=
    fun h => decide_eq_true fun heq => hnulls.1 heq h
  rw [faithful_iff_pixels hrow hdelta hall, pixels_iff_numbers hnumbers hcheck]
  by_cases hempty : numbers fdata nullValue = []
  · rw [hempty]
    exact ⟨fun _ lo _ hlo => (List.not_mem_nil hlo.1).elim, fun _ q hq =>
      (List.not_mem_nil hq).elim⟩
  obtain ⟨lo, hi, hlo, hhi, hleast, hgreatest, hrange⟩ := hends hempty
  have hvalid (q : Rat) (hq : q ∈ numbers fdata nullValue) := (mem_numbers.1 hq).2
  have hfits : (∀ lo' hi', IsLeast {q | q ∈ numbers fdata nullValue} lo' →
        IsGreatest {q | q ∈ numbers fdata nullValue} hi' →
        Fits method (∃ v ∈ fdata, isNull v nullValue = true) delta lo' hi'
          (numbers fdata nullValue)) ↔
      Fits method (∃ v ∈ fdata, isNull v nullValue = true) delta lo hi
        (numbers fdata nullValue) := by
    refine ⟨fun h => h lo hi hleast hgreatest, fun h lo' hi' hlo' hhi' => ?_⟩
    rwa [hlo'.unique hleast, hhi'.unique hgreatest]
  rw [hzero, hfits]
  cases method with
  | noDither => exact faithful_plain_iff hleast hgreatest hvalid hdelta hlo hhi hnulls
  | subtractiveDither1 =>
    exact faithful_dither1_iff hleast hgreatest hvalid hdelta hrange hlo hhi hnulls
  | subtractiveDither2 =>
    exact ⟨fun _ => trivial, fun _ q hq o ho ho' =>
      faithful_dither2 hleast hgreatest hvalid hdelta hrange hlo hq ho ho'⟩

end

/-- Two pixels that are less than a scale apart. -/
def closePixels : List ExactFloat := [number 0, number (3 / 4)]

/-- A tile with dithering. -/
theorem faithful_closePixels :
    Faithful .double randomTable closePixels (some nan) .subtractiveDither1 1 1 1
      ⟨[0, 0], number 1, number 0⟩ := by
  have htile : Precision.double.quantize randomTable closePixels 2 1 (some nan) (number (-1))
      .subtractiveDither1 1 1 = some ⟨[0, 0], number 1, number 0⟩ := by decide +kernel
  have hnumbers : numbers closePixels (some nan) = [0, 3 / 4] := by decide +kernel
  refine (faithful_iff .double rfl (by decide) Nat.one_pos htile rfl one_pos).2
    (fun lo hi hlo hhi => ?_)
    randomTable _ htile
  rw [hnumbers] at hlo hhi
  have hleast : IsLeast {q : Rat | q ∈ [0, 3 / 4]} 0 := ⟨by simp, fun q hq => by
    have hq : q = 0 ∨ q = 3 / 4 := by simpa using hq
    rcases hq with rfl | rfl <;> norm_num⟩
  have hgreatest : IsGreatest {q : Rat | q ∈ [0, 3 / 4]} (3 / 4) := ⟨by simp, fun q hq => by
    have hq : q = 0 ∨ q = 3 / 4 := by simpa using hq
    rcases hq with rfl | rfl <;> norm_num⟩
  rw [hlo.unique hleast, hhi.unique hgreatest]
  refine .inr (.inl ⟨?_, ?_, ?_⟩) <;> norm_num

/-- Without dithering the second pixel is stored as 0 and comes back three quarters of a
scale away. -/
theorem not_faithful_closePixels :
    quantizeDouble randomTable closePixels 2 1 (some nan) (number (-1)) .noDither 1 1 =
        some ⟨[0, 0], number 1, number 0⟩ ∧
      ¬ Faithful .double randomTable closePixels (some nan) .noDither 1 1 1
        ⟨[0, 0], number 1, number 0⟩ := by
  refine ⟨by decide +kernel, fun h => ?_⟩
  have hback : Precision.double.dequantize randomTable [0, 0] (number 1) (number 0) .noDither 1 1 =
      [number 0, number 0] := by decide +kernel
  have hclose := h.close
  rw [hback] at hclose
  obtain ⟨a, b, ha, hb, hhalf⟩ := (List.forall₂_cons.1 (List.forall₂_cons.1 hclose).2).1 rfl
  rw [← ExactFloat.number.inj ha, ← ExactFloat.number.inj hb] at hhalf
  norm_num [abs_le] at hhalf

end RustFits.Zimage.Quantize
