import RustFits.Zimage.QuantizeExact

/-!
# Quantisation of row 0

Row 0 stands for no dithering when a tile is stored (`ditherOf`).  A pixel is then
stored as with the offset one half.

* `faithful_rowZero_iff`: in the method without dithering such a tile is what it should
  be, but for tiles that leave the range of the stored values.
* `multiple_of_faithful_rowZero`: in the methods that dither the reader subtracts
  offsets that nothing has added, and only multiples of the scale come through.
-/

namespace RustFits.Zimage.Quantize

open Machine ExactFloat

/-- The limits of a tile that is stored without dithering. -/
def FitsUndithered (nulls : Prop) (delta lo hi : Rat) : Prop :=
  nulls ∨
    (hi - lo) / delta < 2147483637 ∧ -(2 ^ 63 + 2147483638 + 1 / 2) < lo / delta ∧
      hi / delta ≤ 2 ^ 63 + 2 ^ 31 - 3 / 2 ∨
    2147483637 ≤ (hi - lo) / delta ∧ (hi - lo) / delta < 4294967277

/-! ## No offset is the offset one half -/

section

variable {nullValue : Option ExactFloat} {delta z v : Rat} {method : DitherMethod} {check : Bool}

theorem add_half_sub_half (x : ExactFloat) : x + number (1 / 2) - number (1 / 2) = x := by
  cases x with
  | number q => rw [number_add, number_sub, add_sub_cancel_right]
  | infinite negative => rfl
  | nan => rfl

theorem quantizePixel_none (scale zero v : ExactFloat) :
    quantizePixel check nullValue method scale zero v none =
      quantizePixel check nullValue method scale zero v (some (1 / 2)) := by
  unfold quantizePixel
  dsimp only
  rw [add_half_sub_half]

theorem requantizePixel_none (scale zero : ExactFloat) (i : Nat) (v : ExactFloat) :
    requantizePixel scale zero method i v none =
      requantizePixel scale zero method i v (some (1 / 2)) := by
  unfold requantizePixel
  dsimp only
  rw [add_half_sub_half]

/-- The numbers that are stored as the nearest integer, without dithering. -/
theorem nearest_iff (hdelta : 0 < delta) (hnull : isNull (number v) nullValue = false) :
    PixelFaithful nullValue .noDither delta (number z) (number v)
      (quantizePixel check nullValue .noDither (number delta) (number z) (number v)
        (some (1 / 2))) (1 / 2) ↔
    -2147483638 - 1 / 2 < (v - z) / delta ∧ (v - z) / delta ≤ 2147483647 + 1 / 2 := by
  rw [quantizePixel_number hdelta hnull (not_zero_value (by decide) v), add_sub_cancel_right]
  have hv : v = (v - z) / delta * delta + z := by
    rw [div_mul_cancel₀ _ hdelta.ne']
    ring
  generalize (v - z) / delta = u at hv
  have hmem := clampInt_mem (show i32Min ≤ i32Max by decide) (roundAway u)
  have hclose (q : Int) : |(q : Rat) * delta + z - v| ≤ delta / 2 ↔ |(q : Rat) - u| ≤ 1 / 2 := by
    rw [show (q : Rat) * delta + z - v = (q - u) * delta by rw [hv]; ring, abs_scaled_le_iff hdelta]
  -- a value that is read back is stored as itself
  have hagain (q : Int) (hlow : i32Min ≤ q) (hhigh : q ≤ i32Max) : clampInt i64Min i64Max
      (roundAway ((q * delta + z - z) / delta + 1 / 2 - 1 / 2)) = q := by
    rw [add_sub_cancel_right, add_sub_cancel_right, mul_div_cancel_right₀ _ hdelta.ne',
      roundAway_intCast]
    rw [i32Min] at hlow
    rw [i32Max] at hhigh
    exact clampInt_of_mem (by rw [i64Min]; omega) (by rw [i64Max]; omega)
  constructor
  · intro hfaithful
    have hstored := hfaithful.stored hnull
    have hback := dequantizePixel_plain delta z (1 / 2) hstored.notNull
    obtain ⟨a, b, ha, hb, hnear⟩ := hfaithful.close hnull
    rw [hback] at hb
    rw [← ExactFloat.number.inj ha, ← ExactFloat.number.inj hb, hclose] at hnear
    obtain ⟨again, hok, -⟩ := hfaithful.stable
    have hok := hok 0
    rw [hback, requantizePixel_number hdelta 0 (not_zero_value (by decide) _)
      (hagain _ hmem.1 hmem.2)] at hok
    have hlegal : -2147483638 ≤ clampInt i32Min i32Max (roundAway u) := by
      by_contra hlow
      rw [if_pos (.inl (not_le.1 hlow))] at hok
      cases hok
    refine ⟨?_, ?_⟩
    · have hround : -2147483638 ≤ roundAway u := by
        rw [clampInt, i32Min, i32Max] at hlegal
        omega
      rw [le_roundAway_iff (by decide)] at hround
      push_cast at hround
      linarith
    · have hmax : (clampInt i32Min i32Max (roundAway u) : Rat) ≤ 2147483647 := by
        exact_mod_cast hmem.2
      linarith [(abs_le.1 hnear).1]
  · intro hrange
    have hround : -2147483638 ≤ roundAway u := by
      rw [le_roundAway_iff (by decide)]
      push_cast
      linarith [hrange.1]
    have hlow : -2147483638 ≤ clampInt i32Min i32Max (roundAway u) := by
      rw [clampInt, i32Min, i32Max]
      omega
    have hnear : |(clampInt i32Min i32Max (roundAway u) : Rat) - u| ≤ 1 / 2 := by
      by_cases hhigh : roundAway u ≤ 2147483647
      · rw [clampInt_of_mem (by rw [i32Min]; omega) (by rw [i32Max]; exact hhigh)]
        exact abs_roundAway_sub u
      · have hclamp : clampInt i32Min i32Max (roundAway u) = 2147483647 := by
          rw [clampInt, i32Min, i32Max]
          omega
        have hpast := (lt_roundAway_iff (by decide)).1 (not_le.1 hhigh)
        rw [hclamp, abs_le]
        push_cast at hpast ⊢
        constructor <;> linarith [hrange.2]
    generalize clampInt i32Min i32Max (roundAway u) = q at hmem hlow hnear
    have hqnull : q ≠ nullValueI32 := by rw [nullValueI32]; omega
    have hqzero : q ≠ zeroValueI32 := by rw [zeroValueI32]; omega
    have hback := dequantizePixel_plain delta z (1 / 2) hqnull
    refine ⟨fun _ => ⟨hqnull, fun h => absurd h hqzero⟩,
      fun _ => ⟨v, _, rfl, hback, (hclose q).2 hnear⟩, q, fun i => ?_, rfl⟩
    have hmax : q ≤ 2147483647 := hmem.2
    rw [hback, requantizePixel_number hdelta i (not_zero_value (by decide) _)
      (hagain q hmem.1 hmem.2), if_neg (by omega)]

end

/-! ## From the tile to its pixels -/

section

variable {p : Precision} {fdata : List ExactFloat} {nullValue : Option ExactFloat} {seed : Int}
  {delta : Rat} {zero : ExactFloat}

theorem perPixel_none {α β : Type} (table : DitherTable) (f : α → Option Rat → β) (l : List α) :
    perPixel table f none l = l.map fun v => f v none := by
  induction l with
  | nil => rfl
  | cons v rest ih => rw [perPixel, ih, List.map_cons]

theorem dequantize_plain (table : DitherTable) (idata : List Int) (row : Nat) (seed : Int) :
    p.dequantize table idata (number delta) zero .noDither row seed =
      idata.map fun q => dequantizePixel (number delta) zero .noDither q (some (1 / 2)) := by
  rw [Precision.dequantize_eq, dequantize_eq]
  refine perPixel_eq_map fun s q _ => ?_
  simp [dequantizePixel]

theorem requantize_rowZero (hdelta : 0 < delta) (table : DitherTable) (w : List ExactFloat)
    (method : DitherMethod) :
    p.requantize table w (number delta) zero method 0 seed =
      (w.zipIdx.map fun v =>
        requantizePixel (number delta) zero method v.2 v.1 (some (1 / 2))).mapM id := by
  have hscale : ¬ (Same (number delta) 0 ∨ (number delta).isFinite = false) := by
    rw [zero_eq, same_number]
    exact fun h => h.elim hdelta.ne' fun h => nomatch h
  rw [Precision.requantize_eq, requantize, if_neg hscale, ditherOf, if_neg (Nat.lt_irrefl 0),
    perPixel_none]
  simp only [requantizePixel_none]

/-- Without dithering a tile is what it should be when its pixels are with the offset
one half. -/
theorem faithful_rowZero_iff_pixels (hdelta : 0 < delta) (table : DitherTable)
    {stored : ExactFloat → Int} :
    Faithful p table fdata nullValue .noDither 0 seed delta
      ⟨fdata.map stored, number delta, zero⟩ ↔
    ∀ v ∈ fdata, PixelFaithful nullValue .noDither delta zero v (stored v) (1 / 2) := by
  constructor
  · intro hfaithful v hv
    have hstored := hfaithful.stored
    have hclose := hfaithful.close
    obtain ⟨again, hagain, hsame⟩ := hfaithful.stable
    simp only [dequantize_plain, requantize_rowZero hdelta, List.map_map] at hclose hagain hsame
    rw [List.forall₂_map_right_iff, List.forall₂_same] at hstored hclose
    obtain ⟨i, q, hq, hback⟩ := exists_again
      (r := fun i w => requantizePixel (number delta) zero .noDither i w (some (1 / 2)))
      (g := fun q => dequantizePixel (number delta) zero .noDither q (some (1 / 2)))
      hagain hsame v hv
    exact ⟨hstored v hv, hclose v hv, q, requantizePixel_place hq, hback⟩
  · intro h
    refine ⟨?_, ?_, ?_⟩
    · rw [List.forall₂_map_right_iff, List.forall₂_same]
      exact fun v hv => (h v hv).stored
    · rw [dequantize_plain, List.map_map, List.forall₂_map_right_iff, List.forall₂_same]
      exact fun v hv => (h v hv).close
    · -- the loops over a table with the offset one half everywhere
      have hconst {α β : Type} (f : α → Option Rat → β) (l : List α) (s : DitherStream) :
          perPixel (constantTable (1 / 2) (by norm_num) (by norm_num)) f (some s) l =
            l.map fun v => f v (some (1 / 2)) :=
        perPixel_eq_map fun _ _ _ => rfl
      obtain ⟨again, hagain, hsame⟩ := perPixel_again
        (constantTable (1 / 2) (by norm_num) (by norm_num))
        (f := fun v _ => dequantizePixel (number delta) zero .noDither (stored v) (some (1 / 2)))
        (g := fun q _ => dequantizePixel (number delta) zero .noDither q (some (1 / 2)))
        (r := fun i w _ => requantizePixel (number delta) zero .noDither i w (some (1 / 2)))
        (l := fdata) (fun v hv o _ _ => (h v hv).stable) (DitherStream.new randomTable 0 seed) 0
      rw [hconst, hconst] at hagain
      rw [hconst, hconst] at hsame
      refine ⟨again, ?_, ?_⟩
      · rw [dequantize_plain, requantize_rowZero hdelta, List.map_map]
        exact hagain
      · rw [dequantize_plain, dequantize_plain, List.map_map]
        exact hsame

end

/-! ## Offsets that nothing has added -/

/-- Within half a scale of what every offset gives there is one number. -/
theorem eq_of_close {u : Rat} {n : Int}
    (h : ∀ o : Rat, 0 ≤ o → o < 1 → |(n : Rat) - o + 1 / 2 - u| ≤ 1 / 2) : u = n := by
  have hfirst := abs_le.1 (h 0 le_rfl zero_lt_one)
  refine le_antisymm (le_of_not_gt fun hgt => ?_) (by linarith [hfirst.2])
  have hlast := abs_le.1 (h (1 - (u - n) / 2) (by linarith [hfirst.1]) (by linarith))
  linarith [hlast.1]

theorem exists_zeroPoint {extent : Extent} (nx : Nat) {delta lo hi : Rat} (method : DitherMethod)
    (hlo : extent.minval = number lo) (hhi : extent.maxval = number hi) (hdelta : 0 < delta) :
    ∃ z, zeroPoint extent nx (number delta) method = number z := by
  by_cases hshift : extent.ngood ≠ nx ∨ method = .subtractiveDither2
  · exact ⟨_, zeroPoint_shifted hlo hshift⟩
  · obtain ⟨hgood, hmethod⟩ := not_or.1 hshift
    rcases lt_or_ge ((hi - lo) / delta) 2147483637 with hsmall | hlarge
    · exact ⟨_, zeroPoint_multiple hlo hhi (not_not.1 hgood) hmethod hdelta hsmall⟩
    · exact ⟨_, zeroPoint_centre hlo hhi (not_not.1 hgood) hmethod hdelta hlarge⟩

/-- A tile of row 0 in a method that dithers is what it should be with every table only
if its numbers are multiples of the scale, counted from the zero point. -/
theorem multiple_of_faithful_rowZero {p : Precision} {table : DitherTable}
    {fdata : List ExactFloat} {nxpix nypix : Nat} {nullValue : Option ExactFloat}
    {qlevel : ExactFloat} {method : DitherMethod} {seed : Int} {tile : QuantizedTile} {delta : Rat}
    (hlen : fdata.length = nxpix * nypix)
    (hnumbers : ∀ v ∈ fdata, isNull v nullValue = false → v.isFinite = true)
    (hmethod : method ≠ .noDither)
    (htile : p.quantize table fdata nxpix nypix nullValue qlevel method 0 seed = some tile)
    (hscale : tile.bscale = number delta) (hdelta : 0 < delta)
    (h : ∀ table, Faithful p table fdata nullValue method 0 seed delta tile) :
    ∀ q ∈ numbers fdata nullValue, ¬ (method = .subtractiveDither2 ∧ q = 0) →
      ∃ (z : Rat) (n : Int), tile.bzero = number z ∧ q = n * delta + z := by
  intro q hq hzero
  obtain ⟨extent, -, hbzero, hends, hall⟩ := tile_spec hlen hnumbers htile hscale hdelta
  obtain ⟨lo, hi, hlo, hhi, -⟩ := hends (List.ne_nil_of_mem hq)
  obtain ⟨z, hz⟩ := exists_zeroPoint fdata.length method hlo hhi hdelta
  rw [hz] at hbzero
  have htile := Option.some.inj (htile.symm.trans (hall table))
  rw [ditherOf, if_neg (Nat.lt_irrefl 0), perPixel_none, hbzero] at htile
  obtain ⟨hin, hnull⟩ := mem_numbers.1 hq
  generalize hstored : (fun v => quantizePixel (decide (extent.ngood ≠ fdata.length)) nullValue
    method (number delta) (number z) v none) = stored at htile
  refine ⟨z, stored (number q), hbzero, ?_⟩
  have hu : (q - z) / delta = stored (number q) := eq_of_close fun o ho ho' => ?_
  · rw [← hu, div_mul_cancel₀ _ hdelta.ne']
    ring
  have hfaithful := h (constantTable o ho ho')
  have hback := hfaithful.close
  have hkept := hfaithful.stored
  rw [htile, List.forall₂_map_right_iff, List.forall₂_same] at hkept
  have hconst (l : List Int) : perPixel (constantTable o ho ho')
      (dequantizePixel (number delta) (number z) method)
      (some (DitherStream.new (constantTable o ho ho') 0 seed)) l =
        l.map fun q => dequantizePixel (number delta) (number z) method q (some o) :=
    perPixel_eq_map fun _ _ _ => rfl
  rw [htile, Precision.dequantize_eq, dequantize_eq, hconst, List.map_map,
    List.forall₂_map_right_iff, List.forall₂_same] at hback
  have hkept := hkept _ hin hnull
  have hnotZero : stored (number q) ≠ zeroValueI32 := fun heq =>
    hzero ⟨(hkept.zero heq).1, ExactFloat.number.inj (hkept.zero heq).2⟩
  obtain ⟨a, b, ha, hb, hclose⟩ := hback _ hin hnull
  rw [Function.comp_apply, dequantizePixel_dithered delta z o hmethod hkept.notNull hnotZero] at hb
  rwa [← ExactFloat.number.inj ha, ← ExactFloat.number.inj hb,
    show (stored (number q) - o + 1 / 2) * delta + z - q =
      (stored (number q) - o + 1 / 2 - (q - z) / delta) * delta by
        rw [sub_mul _ ((q - z) / delta), div_mul_cancel₀ _ hdelta.ne']; ring,
    abs_scaled_le_iff hdelta] at hclose

/-! ## The tiles that fit -/

/-- The positions of a tile that is stored from a multiple of the scale. -/
theorem undithered_multiple_iff {a b : Rat} (hrange : b - a < 2147483637) :
    (-2147483638 - 1 / 2 < a - zeroMultiple a ∧ b - zeroMultiple a ≤ 2147483647 + 1 / 2) ↔
      -(2 ^ 63 + 2147483638 + 1 / 2) < a ∧ b ≤ 2 ^ 63 + 2 ^ 31 - 3 / 2 := by
  rcases zeroMultiple_spec a with hmid | hhigh | hlow
  · have hmin : (-9223372036854775808 : Rat) ≤ zeroMultiple a := by exact_mod_cast hmid.2.2.1
    have hmax : (zeroMultiple a : Rat) ≤ 9223372036854775807 := by exact_mod_cast hmid.2.2.2
    refine ⟨fun _ => ⟨?_, ?_⟩, fun _ => ⟨?_, ?_⟩⟩ <;> linarith [hmid.1, hmid.2.1]
  · rw [hhigh.1, i64Max]
    push_cast
    refine ⟨fun h => ⟨?_, ?_⟩, fun h => ⟨?_, ?_⟩⟩ <;> linarith [hhigh.2, h.1, h.2]
  · rw [hlow.1, i64Min]
    push_cast
    refine ⟨fun h => ⟨?_, ?_⟩, fun h => ⟨?_, ?_⟩⟩ <;> linarith [hlow.2, h.1, h.2]

section

variable {nullValue : Option ExactFloat} {extent : Extent} {nx : Nat} {delta lo hi : Rat}
  {qs : List Rat} {nulls : Prop} {check : Bool}

theorem faithful_undithered_iff (hleast : IsLeast {q | q ∈ qs} lo)
    (hgreatest : IsGreatest {q | q ∈ qs} hi)
    (hvalid : ∀ q ∈ qs, isNull (number q) nullValue = false) (hdelta : 0 < delta)
    (hrange : (hi - lo) / delta ≤ 4294967284) (hlo : extent.minval = number lo)
    (hhi : extent.maxval = number hi) (hnulls : extent.ngood = nx ↔ ¬ nulls) :
    (∀ q ∈ qs, PixelFaithful nullValue .noDither delta
      (zeroPoint extent nx (number delta) .noDither) (number q)
      (quantizePixel check nullValue .noDither (number delta)
        (zeroPoint extent nx (number delta) .noDither) (number q) (some (1 / 2))) (1 / 2)) ↔
    FitsUndithered nulls delta lo hi := by
  -- the extremes decide for the numbers between them
  have hextremes {z : Rat} : (∀ q ∈ qs, PixelFaithful nullValue .noDither delta (number z)
        (number q) (quantizePixel check nullValue .noDither (number delta) (number z) (number q)
          (some (1 / 2))) (1 / 2)) ↔
      -2147483638 - 1 / 2 < (lo - z) / delta ∧ (hi - z) / delta ≤ 2147483647 + 1 / 2 := by
    refine ⟨fun h => ⟨((nearest_iff hdelta (hvalid lo hleast.1)).1 (h lo hleast.1)).1,
      ((nearest_iff hdelta (hvalid hi hgreatest.1)).1 (h hi hgreatest.1)).2⟩,
      fun h q hq => (nearest_iff hdelta (hvalid q hq)).2 ⟨h.1.trans_le ?_, le_trans ?_ h.2⟩⟩
    · exact div_le_div_of_nonneg_right (sub_le_sub_right (hleast.2 hq) z) hdelta.le
    · exact div_le_div_of_nonneg_right (sub_le_sub_right (hgreatest.2 hq) z) hdelta.le
  have hordered : 0 ≤ (hi - lo) / delta :=
    div_nonneg (sub_nonneg.2 (hleast.2 hgreatest.1)) hdelta.le
  by_cases hnull : nulls
  · have hgood : extent.ngood ≠ nx := fun heq => hnulls.1 heq hnull
    rw [zeroPoint_shifted hlo (.inl hgood), hextremes, position_shifted hdelta,
      position_shifted hdelta, sub_self, zero_div]
    exact ⟨fun _ => .inl hnull, fun _ => ⟨by norm_num, by linarith⟩⟩
  · have hgood : extent.ngood = nx := hnulls.2 hnull
    by_cases hsmall : (hi - lo) / delta < 2147483637
    · rw [zeroPoint_multiple hlo hhi hgood (by decide) hdelta hsmall, hextremes,
        position_multiple hdelta, position_multiple hdelta,
        undithered_multiple_iff (by rwa [← sub_div])]
      exact ⟨fun h => .inr (.inl ⟨hsmall, h⟩), fun h =>
        (h.resolve_left hnull).elim And.right fun h => absurd h.1 (not_le.2 hsmall)⟩
    · have hlarge : 2147483637 ≤ (hi - lo) / delta := not_lt.1 hsmall
      have hlow : (lo - (lo + hi) / 2) / delta = -((hi - lo) / delta / 2) := by
        field_simp
        ring
      have hhigh : (hi - (lo + hi) / 2) / delta = (hi - lo) / delta / 2 := by
        field_simp
        ring
      rw [zeroPoint_centre hlo hhi hgood (by decide) hdelta hlarge, hextremes, hlow, hhigh]
      refine ⟨fun h => .inr (.inr ⟨hlarge, by linarith [h.1]⟩), fun h => ?_⟩
      have hfits := (h.resolve_left hnull).resolve_left fun h => hsmall h.1
      constructor <;> linarith [hfits.2]

end

/-- **Quantisation without a stream.**  A tile of row 0 in the method without dithering
is what it should be exactly when it has no number or fits. -/
theorem faithful_rowZero_iff (p : Precision) {table : DitherTable} {fdata : List ExactFloat}
    {nxpix nypix : Nat} {nullValue : Option ExactFloat} {qlevel : ExactFloat} {seed : Int}
    {tile : QuantizedTile} {delta : Rat} (hlen : fdata.length = nxpix * nypix)
    (hnumbers : ∀ v ∈ fdata, isNull v nullValue = false → v.isFinite = true)
    (htile : p.quantize table fdata nxpix nypix nullValue qlevel .noDither 0 seed = some tile)
    (hscale : tile.bscale = number delta) (hdelta : 0 < delta) :
    Faithful p table fdata nullValue .noDither 0 seed delta tile ↔
    ∀ lo hi, IsLeast {q | q ∈ numbers fdata nullValue} lo →
      IsGreatest {q | q ∈ numbers fdata nullValue} hi →
      FitsUndithered (∃ v ∈ fdata, isNull v nullValue = true) delta lo hi := by
  obtain ⟨extent, hnulls, hzero, hends, hall⟩ := tile_spec hlen hnumbers htile hscale hdelta
  have hcheck : (∃ v ∈ fdata, isNull v nullValue = true) →
      decide (extent.ngood ≠ fdata.length) = true :=
    fun h => decide_eq_true fun heq => hnulls.1 heq h
  have hidata : tile = ⟨fdata.map fun v => quantizePixel (decide (extent.ngood ≠ fdata.length))
      nullValue .noDither (number delta) tile.bzero v (some (1 / 2)), number delta,
      tile.bzero⟩ := by
    have htile := Option.some.inj (htile.symm.trans (hall table))
    rw [ditherOf, if_neg (Nat.lt_irrefl 0), perPixel_none] at htile
    simp only [quantizePixel_none] at htile
    exact htile
  rw [hidata, faithful_rowZero_iff_pixels hdelta, pixels_iff_numbers_at hnumbers hcheck]
  by_cases hempty : numbers fdata nullValue = []
  · rw [hempty]
    exact ⟨fun _ lo _ hlo => (List.not_mem_nil hlo.1).elim,
      fun _ q hq => (List.not_mem_nil hq).elim⟩
  obtain ⟨lo, hi, hlo, hhi, hleast, hgreatest, hrange⟩ := hends hempty
  have hvalid (q : Rat) (hq : q ∈ numbers fdata nullValue) := (mem_numbers.1 hq).2
  rw [hzero, faithful_undithered_iff hleast hgreatest hvalid hdelta hrange hlo hhi hnulls]
  refine ⟨fun h lo' hi' hlo' hhi' => ?_, fun h => h lo hi hleast hgreatest⟩
  rwa [hlo'.unique hleast, hhi'.unique hgreatest]

/-- Two pixels less than a scale apart, of which the second is nearer to 1. -/
example : Faithful .double randomTable closePixels (some nan) .noDither 0 1 1
    ⟨[0, 1], number 1, number 0⟩ := by
  have htile : Precision.double.quantize randomTable closePixels 2 1 (some nan) (number (-1))
      .noDither 0 1 = some ⟨[0, 1], number 1, number 0⟩ := by decide +kernel
  have hnumbers : numbers closePixels (some nan) = [0, 3 / 4] := by decide +kernel
  refine (faithful_rowZero_iff .double rfl (by decide) htile rfl one_pos).2 fun lo hi hlo hhi => ?_
  rw [hnumbers] at hlo hhi
  have hzero : (0 : Rat) ≤ lo := by
    rcases List.mem_pair.1 hlo.1 with h | h <;> rw [h]
    norm_num
  have hlast : hi ≤ 3 / 4 := by
    rcases List.mem_pair.1 hhi.1 with h | h <;> rw [h]
    norm_num
  refine .inr (.inl ⟨?_, ?_, ?_⟩) <;> norm_num <;> linarith

end RustFits.Zimage.Quantize
