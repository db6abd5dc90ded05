import RustFits.Zimage.Quantize
import RustFits.Lib.Fallible
import Mathlib.Data.List.Forall2
import Mathlib.Tactic.FieldSimp

/-!
# Quantised pixels

What one pixel of a tile becomes: stored with an offset, read back, and stored again.

* `perPixel` runs over the pixels and the offsets of a tile.  What holds of every pixel
  and every offset holds of the whole loop (`forall₂_perPixel`, `perPixel_again`).
* `PixelFaithful` says of one pixel that it is stored as it should be.  In the methods
  that dither this is so of the numbers in a range of positions
  (`pixelFaithful_dithered`, `range_of_dithered`).  Without dithering the pixel is
  dithered when it is stored only, and this is so of next to no number
  (`pixelFaithful_plain`, `place_of_plain`).
-/

namespace RustFits.Zimage.Quantize

open Machine ExactFloat

/-! ## One offset for each pixel -/

section

variable {α β γ : Type} {table : DitherTable}

theorem nextOffset_mem (table : DitherTable) (s : DitherStream) :
    0 ≤ (s.nextOffset table).1 ∧ (s.nextOffset table).1 < 1 :=
  ⟨table.nonneg _, table.lt_one _⟩

/-- A loop that does the same with every offset that comes. -/
theorem perPixel_eq_map {f : α → Option Rat → β} {g : α → β} {l : List α} {s : DitherStream}
    (h : ∀ (s : DitherStream), ∀ v ∈ l, f v (some (s.nextOffset table).1) = g v) :
    perPixel table f (some s) l = l.map g := by
  induction l generalizing s with
  | nil => rfl
  | cons v rest ih =>
    have hrest := ih (s := (s.nextOffset table).2) fun s v hv => h s v (List.mem_cons_of_mem _ hv)
    rw [perPixel, hrest, h s v List.mem_cons_self, List.map_cons]

/-- Two loops over the same stream are one. -/
theorem perPixel_perPixel (table : DitherTable) {f : α → Option Rat → β}
    {g : β → Option Rat → γ} (l : List α) (s : DitherStream) :
    perPixel table g (some s) (perPixel table f (some s) l) =
      perPixel table (fun v offset => g (f v offset) offset) (some s) l := by
  induction l generalizing s with
  | nil => rfl
  | cons v rest ih =>
    rw [perPixel, perPixel, perPixel, ih]

theorem forall₂_perPixel {f : α → Option Rat → β} {R : α → β → Prop} {l : List α}
    (h : ∀ v ∈ l, ∀ o, 0 ≤ o → o < 1 → R v (f v (some o))) (s : DitherStream) :
    List.Forall₂ R l (perPixel table f (some s) l) := by
  induction l generalizing s with
  | nil => exact List.Forall₂.nil
  | cons v rest ih =>
    have hoffset := nextOffset_mem table s
    exact List.Forall₂.cons (h v List.mem_cons_self _ hoffset.1 hoffset.2)
      (ih (fun v hv => h v (List.mem_cons_of_mem _ hv)) _)

/-- A fallible loop that gives every pixel something that a second loop takes to what
the pixel was made of. -/
theorem perPixel_again (table : DitherTable) {f : α → Option Rat → β} {g : Int → Option Rat → β}
    {r : Nat → β → Option Rat → Except RequantizeError Int} {l : List α}
    (h : ∀ v ∈ l, ∀ o, 0 ≤ o → o < 1 →
      ∃ q, (∀ i, r i (f v (some o)) (some o) = .ok q) ∧ g q (some o) = f v (some o))
    (s : DitherStream) (k : Nat) :
    ∃ again, (perPixel table (fun (v : β × Nat) offset => r v.2 v.1 offset) (some s)
        ((perPixel table f (some s) l).zipIdx k)).mapM id = .ok again ∧
      perPixel table g (some s) again = perPixel table f (some s) l := by
  induction l generalizing s k with
  | nil => exact ⟨[], rfl, rfl⟩
  | cons v rest ih =>
    have hoffset := nextOffset_mem table s
    obtain ⟨q, hq, hsame⟩ := h v List.mem_cons_self _ hoffset.1 hoffset.2
    obtain ⟨again, hagain, hrest⟩ :=
      ih (fun v hv => h v (List.mem_cons_of_mem _ hv)) (s.nextOffset table).2 (k + 1)
    refine ⟨q :: again, ?_, ?_⟩
    · rw [perPixel, List.zipIdx_cons, perPixel, List.mapM_cons]
      exact bind_eq_ok.2 ⟨q, hq k, bind_eq_ok.2 ⟨again, hagain, rfl⟩⟩
    · rw [perPixel, perPixel, hsame, hrest]

end

/-! ## One pixel -/

/-- A stored pixel as it is read back. -/
def dequantizePixel (scale zero : ExactFloat) (method : DitherMethod) (q : Int)
    (offset : Option Rat) :
    ExactFloat :=
  if q = nullValueI32 then nan
  else if method = .noDither then number q * scale + zero
  else if method = .subtractiveDither2 ∧ q = zeroValueI32 then 0
  else ditheredValue scale zero q offset

theorem dequantize_eq (table : DitherTable) (stored : List Int) (scale zero : ExactFloat)
    (method : DitherMethod) (row : Nat) (seed : Int) :
    dequantize table stored scale zero method row seed =
      perPixel table (dequantizePixel scale zero method)
        (some (DitherStream.new table row seed)) stored := by
  cases method with
  | noDither =>
    refine (perPixel_eq_map fun s q _ => ?_).symm
    simp [dequantizePixel]
  | subtractiveDither1 =>
    have hpixel : dequantizePixel scale zero .subtractiveDither1 =
        fun q offset => if q = nullValueI32 then nan else ditheredValue scale zero q offset := by
      funext q offset
      simp [dequantizePixel]
    rw [hpixel]
    rfl
  | subtractiveDither2 =>
    have hpixel : dequantizePixel scale zero .subtractiveDither2 = fun q offset =>
        if q = nullValueI32 then nan
        else if q = zeroValueI32 then 0
        else ditheredValue scale zero q offset := by
      funext q offset
      simp [dequantizePixel]
    rw [hpixel]
    rfl

/-- Two numbers that are at most half a scale apart. -/
def Within (delta : Rat) (v w : ExactFloat) : Prop :=
  ∃ a b : Rat, v = number a ∧ w = number b ∧ |b - a| ≤ delta / 2

/-- What is wanted of a pixel that is not null. -/
structure Stored (method : DitherMethod) (v : ExactFloat) (q : Int) : Prop where
  notNull : q ≠ nullValueI32
  zero : q = zeroValueI32 → method = .subtractiveDither2 ∧ v = 0

/-- One pixel of a tile, stored with an offset, is what it should be. -/
structure PixelFaithful (nullValue : Option ExactFloat) (method : DitherMethod) (delta : Rat)
    (zero v : ExactFloat) (q : Int) (offset : Rat) : Prop where
  stored : isNull v nullValue = false → Stored method v q
  close : isNull v nullValue = false →
    Within delta v (dequantizePixel (number delta) zero method q (some offset))
  stable : ∃ again,
    (∀ i, requantizePixel (number delta) zero method i
      (dequantizePixel (number delta) zero method q (some offset)) (some offset) = .ok again) ∧
    dequantizePixel (number delta) zero method again (some offset) =
      dequantizePixel (number delta) zero method q (some offset)

theorem nint_number (x : Rat) : nint (number x) = clampInt i32Min i32Max (roundAway x) := by
  have hmin : (i32Min : Rat) = -2147483648 := by norm_num [i32Min]
  have hmax : (i32Max : Rat) = 2147483647 := by norm_num [i32Max]
  rw [nint]
  by_cases hx : 0 ≤ x
  · have hhalf : (0 : Rat) ≤ x + 1 / 2 := by linarith
    have hround : roundAway x = ⌊x + 1 / 2⌋ := if_pos hx
    have htrunc : truncate (x + 1 / 2) = ⌊x + 1 / 2⌋ := if_pos hhalf
    have hpos : (0 : Int) ≤ ⌊x + 1 / 2⌋ := Int.floor_nonneg.2 hhalf
    have hlow : ¬ x + 1 / 2 ≤ (i32Min : Rat) := by rw [hmin]; linarith
    simp only [zero_eq, atMost_number, hx, if_true, number_add, hlow, if_false, toInt_number,
      hround, htrunc]
    split
    next hle =>
      have hle : i32Max ≤ ⌊x + 1 / 2⌋ := Int.le_floor.2 hle
      simp only [clampInt, i32Min, i32Max] at hle ⊢
      omega
    next => rfl
  · have hhalf : ¬ (0 : Rat) ≤ x - 1 / 2 := by linarith
    have hround : roundAway x = ⌈x - 1 / 2⌉ := if_neg hx
    have htrunc : truncate (x - 1 / 2) = ⌈x - 1 / 2⌉ := if_neg hhalf
    have hhigh : ¬ (i32Max : Rat) ≤ x - 1 / 2 := by rw [hmax]; linarith
    simp only [zero_eq, atMost_number, hx, if_false, number_sub, hhigh, toInt_number,
      hround, htrunc]
    split
    next hle =>
      have hle : ⌈x - 1 / 2⌉ ≤ i32Min := Int.ceil_le.2 hle
      simp only [clampInt, i32Min, i32Max] at hle ⊢
      omega
    next => rfl

section

variable {nullValue : Option ExactFloat} {delta z v : Rat} {method : DitherMethod} {o : Rat}
    {check : Bool}

/-- Zeros have a value of their own in one method only. -/
theorem not_zero_value (h : method ≠ .subtractiveDither2) (a : Rat) :
    ¬ (method = .subtractiveDither2 ∧ a = 0) :=
  fun hzero => h hzero.1

/-- A number that is stored with an offset, at the position `(v - z) / delta`. -/
theorem quantizePixel_number (hdelta : 0 < delta) (hnull : isNull (number v) nullValue = false)
    (hzero : ¬ (method = .subtractiveDither2 ∧ v = 0)) :
    quantizePixel check nullValue method (number delta) (number z) (number v) (some o) =
      clampInt i32Min i32Max (roundAway ((v - z) / delta + o - 1 / 2)) := by
  have hsame : ¬ (method = .subtractiveDither2 ∧ Same (number v) 0) := by
    rwa [zero_eq, same_number]
  rw [quantizePixel, hnull, Bool.and_false, if_neg (by simp), if_neg hsame, number_sub,
    number_div _ hdelta.ne', number_add, number_sub, nint_number]

theorem isNull_number_nan (a : Rat) : isNull (number a) (some nan) = false := rfl

/-- A number that is stored again. -/
theorem requantizePixel_number (hdelta : 0 < delta) (i : Nat)
    (hzero : ¬ (method = .subtractiveDither2 ∧ v = 0)) {q : Int}
    (hq : clampInt i64Min i64Max (roundAway ((v - z) / delta + o - 1 / 2)) = q) :
    requantizePixel (number delta) (number z) method i (number v) (some o) =
      if q < -2147483638 ∨ 2147483647 < q then
        .error (.outOfRange i (number v) q (-2147483638) 2147483647 (number delta) (number z))
      else .ok q := by
  have hsame : ¬ (method = .subtractiveDither2 ∧ Same (number v) 0) := by
    rwa [zero_eq, same_number]
  have htrunc (n : Int) : truncate (n : Rat) = n := by
    rw [truncate]
    split <;> simp
  rw [requantizePixel]
  dsimp only
  rw [isNull_number_nan, if_neg (by simp), if_neg hsame, number_sub,
    number_div _ hdelta.ne', number_add, number_sub, ExactFloat.round, toInt_number, htrunc, hq]
  rfl

theorem abs_scaled_le_iff (hdelta : 0 < delta) (k : Rat) :
    |k * delta| ≤ delta / 2 ↔ |k| ≤ 1 / 2 := by
  rw [abs_mul, abs_of_pos hdelta, div_eq_mul_one_div, mul_comm delta, mul_le_mul_iff_left₀ hdelta]

theorem dequantizePixel_null (zero : ExactFloat) :
    dequantizePixel (number delta) zero method nullValueI32 (some o) = nan := by
  rw [dequantizePixel, if_pos rfl]

theorem dequantizePixel_plain (delta z o : Rat) {q : Int} (hq : q ≠ nullValueI32) :
    dequantizePixel (number delta) (number z) .noDither q (some o) = number (q * delta + z) := by
  rw [dequantizePixel, if_neg hq, if_pos rfl, number_mul, number_add]

theorem dequantizePixel_dithered (delta z o : Rat) {q : Int} (hmethod : method ≠ .noDither)
    (hq : q ≠ nullValueI32) (hzero : q ≠ zeroValueI32) :
    dequantizePixel (number delta) (number z) method q (some o) =
      number ((q - o + 1 / 2) * delta + z) := by
  rw [dequantizePixel, if_neg hq, if_neg hmethod, if_neg fun h => hzero h.2, ditheredValue,
    Option.getD_some, number_sub, number_add, number_mul, number_add]

/-- A null pixel comes back as a NaN, which is null again. -/
theorem pixelFaithful_null {zero v : ExactFloat} (hnull : isNull v nullValue = true) :
    PixelFaithful nullValue method delta zero v nullValueI32 o where
  stored := fun h => by simp [hnull] at h
  close := fun h => by simp [hnull] at h
  stable := by
    refine ⟨nullValueI32, fun i => ?_, rfl⟩
    rw [dequantizePixel_null]
    rfl

/-- A zero that has a value of its own. -/
theorem pixelFaithful_zero (hdelta : 0 < delta) {zero : ExactFloat} :
    PixelFaithful nullValue .subtractiveDither2 delta zero 0 zeroValueI32 o := by
  have hback :
      dequantizePixel (number delta) zero .subtractiveDither2 zeroValueI32 (some o) = 0 := by
    rw [dequantizePixel, if_neg (by decide), if_neg (by decide), if_pos ⟨rfl, rfl⟩]
  refine ⟨fun _ => ⟨by decide, fun _ => ⟨rfl, rfl⟩⟩, fun _ => ?_, zeroValueI32, fun i => ?_, rfl⟩
  · refine ⟨0, 0, rfl, hback, ?_⟩
    rw [sub_zero, abs_zero]
    linarith
  · rw [hback]
    rfl

/-- A number whose position is above the reserved values and within the range is
stored with its dither, read back without it and stored again. -/
theorem pixelFaithful_dithered (hdelta : 0 < delta) (hmethod : method ≠ .noDither)
    (hnull : isNull (number v) nullValue = false) (hzero : ¬ (method = .subtractiveDither2 ∧ v = 0))
    (ho : 0 ≤ o ∧ o < 1) (hlo : -2147483638 < (v - z) / delta)
    (hhi : (v - z) / delta ≤ 2147483647) :
    PixelFaithful nullValue method delta (number z) (number v)
      (quantizePixel check nullValue method (number delta) (number z) (number v) (some o)) o := by
  rw [quantizePixel_number hdelta hnull hzero]
  have hv : v = (v - z) / delta * delta + z := by
    rw [div_mul_cancel₀ _ hdelta.ne']
    ring
  generalize (v - z) / delta = u at hv hlo hhi
  have hnear := abs_roundAway_sub (u + o - 1 / 2)
  have hlow : -2147483638 ≤ roundAway (u + o - 1 / 2) := by
    rw [le_roundAway_iff (by decide)]
    push_cast
    linarith [ho.1]
  have hhigh : roundAway (u + o - 1 / 2) ≤ 2147483647 := by
    rw [roundAway_le_iff (by decide)]
    push_cast
    linarith [ho.2]
  generalize roundAway (u + o - 1 / 2) = q at hnear hlow hhigh
  rw [clampInt_of_mem (by rw [i32Min]; omega) (by rw [i32Max]; omega)]
  have hqnull : q ≠ nullValueI32 := by rw [nullValueI32]; omega
  have hqzero : q ≠ zeroValueI32 := by rw [zeroValueI32]; omega
  have hback := dequantizePixel_dithered delta z o hmethod hqnull hqzero
  refine ⟨fun _ => ⟨hqnull, fun h => absurd h hqzero⟩, fun _ => ⟨v, _, rfl, hback, ?_⟩, ?_⟩
  · rw [show (q - o + 1 / 2) * delta + z - v = (q - (u + o - 1 / 2)) * delta by rw [hv]; ring,
      abs_scaled_le_iff hdelta]
    exact hnear
  · rw [hback]
    by_cases hagain : method = .subtractiveDither2 ∧ (q - o + 1 / 2) * delta + z = 0
    · -- the value that comes back is a zero, which is stored as one
      refine ⟨zeroValueI32, fun i => ?_, ?_⟩
      · rw [hagain.2, hagain.1]
        rfl
      · rw [dequantizePixel, if_neg (by decide), if_neg hmethod, if_pos ⟨hagain.1, rfl⟩, hagain.2]
        rfl
    · refine ⟨q, fun i => ?_, hback⟩
      have hpos : ((q - o + 1 / 2) * delta + z - z) / delta + o - 1 / 2 = q := by
        rw [add_sub_cancel_right, mul_div_cancel_right₀ _ hdelta.ne']
        ring
      rw [requantizePixel_number hdelta i hagain (q := q), if_neg (by omega)]
      rw [hpos, roundAway_intCast, clampInt_of_mem (by rw [i64Min]; omega) (by rw [i64Max]; omega)]

/-- With every offset only a number in that range is stored so: below it the value is
refused when it is stored again, above it the value saturates. -/
theorem range_of_dithered (hdelta : 0 < delta) (hnull : isNull (number v) nullValue = false)
    (h : ∀ o : Rat, 0 ≤ o → o < 1 →
      PixelFaithful nullValue .subtractiveDither1 delta (number z) (number v)
      (quantizePixel check nullValue .subtractiveDither1 (number delta) (number z) (number v)
        (some o)) o) :
    -2147483638 < (v - z) / delta ∧ (v - z) / delta ≤ 2147483647 := by
  have hv : v = (v - z) / delta * delta + z := by
    rw [div_mul_cancel₀ _ hdelta.ne']
    ring
  have hpixel (o : Rat) (ho : 0 ≤ o) (ho' : o < 1) := h o ho ho'
  simp only [quantizePixel_number hdelta hnull
    (not_zero_value (show DitherMethod.subtractiveDither1 ≠ .subtractiveDither2 by decide) v)]
      at hpixel
  generalize (v - z) / delta = u at hv hpixel
  constructor
  · by_contra hlow
    have hround : roundAway (u + 0 - 1 / 2) < -2147483638 := by
      rw [← not_le, le_roundAway_iff (by decide)]
      push_cast
      linarith
    have hfaithful := hpixel 0 le_rfl zero_lt_one
    have hmin := (clampInt_mem (show i32Min ≤ i32Max by decide) (roundAway (u + 0 - 1 / 2))).1
    have hlt : clampInt i32Min i32Max (roundAway (u + 0 - 1 / 2)) < -2147483638 := by
      rw [clampInt, i32Min, i32Max]
      omega
    generalize clampInt i32Min i32Max (roundAway (u + 0 - 1 / 2)) = q at hfaithful hmin hlt
    have hstored := hfaithful.stored hnull
    have hback : dequantizePixel (number delta) (number z) .subtractiveDither1 q (some 0) =
        number ((q - 0 + 1 / 2) * delta + z) :=
      dequantizePixel_dithered delta z 0 (by decide) hstored.notNull fun h =>
        absurd (hstored.zero h).1 (by decide)
    obtain ⟨again, hagain, -⟩ := hfaithful.stable
    have hpos : ((q - 0 + 1 / 2) * delta + z - z) / delta + 0 - 1 / 2 = (q : Rat) := by
      rw [add_sub_cancel_right, mul_div_cancel_right₀ _ hdelta.ne']
      ring
    rw [i32Min] at hmin
    have hcast : clampInt i64Min i64Max
        (roundAway (((q - 0 + 1 / 2) * delta + z - z) / delta + 0 - 1 / 2)) = q := by
      rw [hpos, roundAway_intCast, clampInt_of_mem (by rw [i64Min]; omega) (by rw [i64Max]; omega)]
    have hrefused := hagain 0
    rw [hback, requantizePixel_number hdelta 0 (not_zero_value (by decide) _) hcast,
      if_pos (.inl hlt)] at hrefused
    cases hrefused
  · by_contra hhigh
    have hhigh : 2147483647 < u := not_le.1 hhigh
    -- an offset that takes the position past the last half
    obtain ⟨o, ho, ho', hpast⟩ : ∃ o : Rat, 0 ≤ o ∧ o < 1 ∧ 2147483647 + 1 / 2 < u + o - 1 / 2 := by
      refine ⟨max 0 ((1 + (2147483648 - u)) / 2), le_max_left _ _,
        max_lt (by norm_num) (by linarith), ?_⟩
      have := le_max_right 0 ((1 + (2147483648 - u)) / 2)
      have := le_max_left 0 ((1 + (2147483648 - u)) / 2)
      linarith
    have hfaithful := hpixel o ho ho'
    have hround : 2147483647 < roundAway (u + o - 1 / 2) := by
      rw [lt_roundAway_iff (by decide)]
      push_cast
      linarith
    have hclamp : clampInt i32Min i32Max (roundAway (u + o - 1 / 2)) = 2147483647 := by
      rw [clampInt, i32Min, i32Max]
      omega
    rw [hclamp] at hfaithful
    obtain ⟨a, b, ha, hb, hclose⟩ := hfaithful.close hnull
    rw [dequantizePixel_dithered delta z o (by decide) (by decide) (by decide)] at hb
    rw [← ExactFloat.number.inj ha, ← ExactFloat.number.inj hb,
      show (((2147483647 : Int) : Rat) - o + 1 / 2) * delta + z - v =
        (2147483647 - (u + o - 1 / 2)) * delta by
        rw [hv]; push_cast; ring, abs_scaled_le_iff hdelta] at hclose
    linarith [(abs_le.1 hclose).1]

/-- The integer behind a half, above zero. -/
theorem roundAway_behind_half {x : Rat} {n : Int} (hn : 0 < n) (hlo : (n : Rat) - 1 / 2 ≤ x)
    (hhi : x < (n : Rat) + 1 / 2) : roundAway x = n := by
  have hle : roundAway x ≤ n := (roundAway_le_iff hn.le).2 hhi
  have hlt : n - 1 < roundAway x := by
    rw [lt_roundAway_iff (by omega)]
    push_cast
    linarith
  omega

/-- A position on a half, or at the end of the range, has no offset that takes it to an
integer further away. -/
theorem nearest_on_half {u o : Rat} (hlo : 1 ≤ u) (hhi : u ≤ 2147483647 + 1 / 2)
    (hplace : (∃ n : Int, 2 * u = n) ∨ 2147483647 ≤ u) (ho : 0 ≤ o ∧ o < 1) :
    1 ≤ clampInt i32Min i32Max (roundAway (u + o - 1 / 2)) ∧
      clampInt i32Min i32Max (roundAway (u + o - 1 / 2)) ≤ 2147483647 ∧
      |(clampInt i32Min i32Max (roundAway (u + o - 1 / 2)) : Rat) - u| ≤ 1 / 2 := by
  by_cases hend : 2147483647 ≤ u
  · have hround : 2147483646 < roundAway (u + o - 1 / 2) := by
      rw [lt_roundAway_iff (by decide)]
      push_cast
      linarith [ho.1]
    have hclamp : clampInt i32Min i32Max (roundAway (u + o - 1 / 2)) = 2147483647 := by
      rw [clampInt, i32Min, i32Max]
      omega
    rw [hclamp, abs_le]
    refine ⟨by decide, by decide, ?_⟩
    push_cast
    constructor <;> linarith
  · obtain ⟨n, hn⟩ := hplace.resolve_right hend
    obtain ⟨m, hm⟩ : ∃ m : Int, n = 2 * m ∨ n = 2 * m + 1 := ⟨n / 2, by omega⟩
    have hpos : (2 : Rat) ≤ n := by linarith
    have hpos : 2 ≤ n := by exact_mod_cast hpos
    have hend : (n : Rat) < 2 * 2147483647 := by linarith [not_le.1 hend]
    have hend : n < 2 * 2147483647 := by exact_mod_cast hend
    have hlt : m - 1 < roundAway (u + o - 1 / 2) := by
      rw [lt_roundAway_iff (by omega)]
      rcases hm with rfl | rfl <;> push_cast at hn ⊢ <;> linarith [ho.1]
    have hle : roundAway (u + o - 1 / 2) ≤ n - m := by
      rw [roundAway_le_iff (by omega)]
      rcases hm with rfl | rfl <;> push_cast at hn ⊢ <;> linarith [ho.2]
    rw [clampInt_of_mem (by rw [i32Min]; omega) (by rw [i32Max]; omega)]
    refine ⟨by omega, by omega, ?_⟩
    generalize roundAway (u + o - 1 / 2) = q at hlt hle
    have hlt : (m : Rat) ≤ q := by exact_mod_cast Int.sub_one_lt_iff.1 hlt
    have hle : (q : Rat) ≤ n - m := by exact_mod_cast hle
    rw [abs_le]
    rcases hm with rfl | rfl <;> push_cast at hn hle <;> constructor <;> linarith

/-- Without dithering such a number is stored as the nearest integer all the same. -/
theorem pixelFaithful_plain (hdelta : 0 < delta) (hnull : isNull (number v) nullValue = false)
    (ho : 0 ≤ o ∧ o < 1) (hlo : 1 ≤ (v - z) / delta) (hhi : (v - z) / delta ≤ 2147483647 + 1 / 2)
    (hplace : (∃ n : Int, 2 * ((v - z) / delta) = n) ∨ 2147483647 ≤ (v - z) / delta) :
    PixelFaithful nullValue .noDither delta (number z) (number v)
      (quantizePixel check nullValue .noDither (number delta) (number z) (number v)
        (some o)) o := by
  rw [quantizePixel_number hdelta hnull (not_zero_value (by decide) v)]
  have hv : v = (v - z) / delta * delta + z := by
    rw [div_mul_cancel₀ _ hdelta.ne']
    ring
  generalize (v - z) / delta = u at hv hlo hhi hplace
  have hnear := nearest_on_half hlo hhi hplace ho
  generalize clampInt i32Min i32Max (roundAway (u + o - 1 / 2)) = q at hnear
  have hqnull : q ≠ nullValueI32 := by rw [nullValueI32]; omega
  have hqzero : q ≠ zeroValueI32 := by rw [zeroValueI32]; omega
  have hback := dequantizePixel_plain delta z o hqnull
  refine ⟨fun _ => ⟨hqnull, fun h => absurd h hqzero⟩, fun _ => ⟨v, _, rfl, hback, ?_⟩, q,
    fun i => ?_, rfl⟩
  · rw [show q * delta + z - v = (q - u) * delta by rw [hv]; ring, abs_scaled_le_iff hdelta]
    exact hnear.2.2
  · have hround : roundAway (q + o - 1 / 2) = q :=
      roundAway_behind_half (by omega) (by linarith [ho.1]) (by linarith [ho.2])
    rw [hback, requantizePixel_number hdelta i (not_zero_value (by decide) _) (q := q),
      if_neg (by omega)]
    rw [add_sub_cancel_right, mul_div_cancel_right₀ _ hdelta.ne', hround,
      clampInt_of_mem (by rw [i64Min]; omega) (by rw [i64Max]; omega)]

/-- With every offset only a number at such a position is stored so. -/
theorem place_of_plain (hdelta : 0 < delta) (hnull : isNull (number v) nullValue = false)
    (h : ∀ o : Rat, 0 ≤ o → o < 1 → PixelFaithful nullValue .noDither delta (number z) (number v)
      (quantizePixel check nullValue .noDither (number delta) (number z) (number v) (some o)) o) :
    1 ≤ (v - z) / delta ∧ (v - z) / delta ≤ 2147483647 + 1 / 2 ∧
      ((∃ n : Int, 2 * ((v - z) / delta) = n) ∨ 2147483647 ≤ (v - z) / delta) := by
  have hv : v = (v - z) / delta * delta + z := by
    rw [div_mul_cancel₀ _ hdelta.ne']
    ring
  have hpixel (o : Rat) (ho : 0 ≤ o) (ho' : o < 1) := h o ho ho'
  simp only [quantizePixel_number hdelta hnull
    (not_zero_value (show DitherMethod.noDither ≠ .subtractiveDither2 by decide) v)] at hpixel
  generalize (v - z) / delta = u at hv hpixel
  have hclose (o : Rat) (ho : 0 ≤ o) (ho' : o < 1) :
      |(clampInt i32Min i32Max (roundAway (u + o - 1 / 2)) : Rat) - u| ≤ 1 / 2 := by
    have hfaithful := hpixel o ho ho'
    generalize clampInt i32Min i32Max (roundAway (u + o - 1 / 2)) = q at hfaithful
    obtain ⟨a, b, ha, hb, hclose⟩ := hfaithful.close hnull
    rw [dequantizePixel_plain delta z o (hfaithful.stored hnull).notNull] at hb
    rwa [← ExactFloat.number.inj ha, ← ExactFloat.number.inj hb,
      show (q : Rat) * delta + z - v = (q - u) * delta by
        rw [hv]; ring, abs_scaled_le_iff hdelta] at hclose
  have hfirst := hclose 0 le_rfl zero_lt_one
  have hmem := clampInt_mem (show i32Min ≤ i32Max by decide) (roundAway (u + 0 - 1 / 2))
  -- a value that is not positive is stored again as the one below it
  have hpos : 0 < clampInt i32Min i32Max (roundAway (u + 0 - 1 / 2)) := by
    by_contra hpos
    have hfaithful := hpixel 0 le_rfl zero_lt_one
    generalize clampInt i32Min i32Max (roundAway (u + 0 - 1 / 2)) = q at hfaithful hmem hpos
    rw [i32Min, i32Max] at hmem
    have hback := dequantizePixel_plain delta z 0 (hfaithful.stored hnull).notNull
    have hround : roundAway ((q : Rat) + 0 - 1 / 2) = q - 1 := by
      have hcast : (q : Rat) ≤ 0 := by exact_mod_cast not_lt.1 hpos
      rw [roundAway, if_neg (by linarith), show (q : Rat) + 0 - 1 / 2 - 1 / 2 =
        ((q - 1 : Int) : Rat) by
        push_cast; ring, Int.ceil_intCast]
    have hcast :
        clampInt i64Min i64Max (roundAway ((q * delta + z - z) / delta + 0 - 1 / 2)) = q - 1 := by
      rw [add_sub_cancel_right, mul_div_cancel_right₀ _ hdelta.ne', hround,
        clampInt_of_mem (by rw [i64Min]; omega) (by rw [i64Max]; omega)]
    obtain ⟨again, hagain, hsame⟩ := hfaithful.stable
    have hagain := hagain 0
    rw [hback, requantizePixel_number hdelta 0 (not_zero_value (by decide) _) hcast] at hagain
    split at hagain
    next => cases hagain
    next hlegal =>
      obtain rfl := Except.ok.inj hagain
      rw [hback, dequantizePixel_plain delta z 0 (by rw [nullValueI32]; omega)] at hsame
      have hsame := ExactFloat.number.inj hsame
      push_cast at hsame
      linarith
  have hlow : 0 < roundAway (u + 0 - 1 / 2) := by
    rw [clampInt, i32Min, i32Max] at hpos
    omega
  have hone : 1 ≤ u := by
    have := (lt_roundAway_iff le_rfl).1 hlow
    push_cast at this
    linarith
  refine ⟨hone, ?_, ?_⟩
  · have hmax : (clampInt i32Min i32Max (roundAway (u + 0 - 1 / 2)) : Rat) ≤ 2147483647 := by
      exact_mod_cast hmem.2
    linarith [(abs_le.1 hfirst).1]
  · by_contra hnot
    obtain ⟨hint, hend⟩ := not_or.1 hnot
    have hend : u < 2147483647 := not_le.1 hend
    obtain ⟨n, hn, hn'⟩ : ∃ n : Int, (n : Rat) ≤ u ∧ u < n + 1 :=
      ⟨⌊u⌋, Int.floor_le u, Int.lt_floor_add_one u⟩
    have hnpos : 0 < n := by
      have : (0 : Rat) < n := by linarith
      exact_mod_cast this
    have hnlt : (n : Rat) < 2147483647 := by linarith
    have hnlt : n < 2147483647 := by exact_mod_cast hnlt
    -- the first offset stores the integer below, so the number is in the lower half
    have hle : roundAway (u + 0 - 1 / 2) ≤ n := by
      rw [roundAway_le_iff hnpos.le]
      linarith
    rw [clampInt_of_mem (by rw [i32Min]; omega) (by rw [i32Max]; omega)] at hfirst
    have hhalf : u ≤ n + 1 / 2 := by
      have hle : (roundAway (u + 0 - 1 / 2) : Rat) ≤ n := by exact_mod_cast hle
      linarith [(abs_le.1 hfirst).1]
    have hbelow : u < n + 1 / 2 :=
      lt_of_le_of_ne hhalf fun heq => hint ⟨2 * n + 1, by rw [heq]; push_cast; ring⟩
    have habove : (n : Rat) < u :=
      lt_of_le_of_ne hn fun heq => hint ⟨2 * n, by rw [← heq]; push_cast; ring⟩
    -- the offset that is missing to the next integer stores that one
    have hlast := hclose (1 - (u - n)) (by linarith) (by linarith)
    have hround : roundAway (u + (1 - (u - n)) - 1 / 2) = n + 1 :=
      roundAway_behind_half (by omega) (by push_cast; linarith) (by push_cast; linarith)
    rw [hround, clampInt_of_mem (by rw [i32Min]; omega) (by rw [i32Max]; omega)] at hlast
    have := (abs_le.1 hlast).2
    push_cast at this
    linarith

end

end RustFits.Zimage.Quantize
