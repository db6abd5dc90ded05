import RustFits.Zimage.Hcompress.Transform

/-!
# A block of the H-transform and back

In units of its level the average and the differences of a block are the sums

  `h0 = a + b + c + d`, `hx = a + b - c - d`, `hy = a - b + c - d`, `hc = a - b - c + d`,

which have one parity, and whose sum is a multiple of four.  The forward transform rounds
`hx` and `hy` to even numbers and `h0` to a multiple of four, away from zero; `hc` is kept
and tells the parity, and `hc`, `hx` and `hy` tell `h0` modulo four (`restore_edge`,
`restore_mean`).

`forward_units` and `inverse_units` are this for the words of the source: where the values
are multiples of the grain of their level and small enough, nothing overflows, and the
inverse is exact.
-/

namespace RustFits.Zimage.Hcompress

open Outcome

/-! ## Rounding in units -/

/-- To an even number, away from zero. -/
def evenAway (x : Int) : Int := if 0 ≤ x then (x + 1) / 2 * 2 else x / 2 * 2

/-- To a multiple of four, a tie away from zero. -/
def fourAway (x : Int) : Int := if 0 ≤ x then (x + 2) / 4 * 4 else (x + 1) / 4 * 4

theorem evenAway_mod (x : Int) : evenAway x % 2 = 0 := by
  unfold evenAway
  split_ifs <;> omega

theorem fourAway_mod (x : Int) : fourAway x % 4 = 0 := by
  unfold fourAway
  split_ifs <;> omega

theorem evenAway_of_even {x : Int} (h : x % 2 = 0) : evenAway x = x := by
  unfold evenAway
  split_ifs <;> omega

theorem fourAway_of_four {x : Int} (h : x % 4 = 0) : fourAway x = x := by
  unfold fourAway
  split_ifs <;> omega

theorem evenAway_le {x p : Int} (h : -(4 * p) ≤ x ∧ x ≤ 4 * p) :
    -(4 * p) ≤ evenAway x ∧ evenAway x ≤ 4 * p := by
  unfold evenAway
  split_ifs <;> omega

theorem fourAway_le {x p : Int} (h : -(4 * p) ≤ x ∧ x ≤ 4 * p) :
    -(4 * p) ≤ fourAway x ∧ fourAway x ≤ 4 * p := by
  unfold fourAway
  split_ifs <;> omega

/-- The parity of the curvature undoes the rounding of a difference. -/
theorem restore_edge {x c : Int} (h : (x - c) % 2 = 0) :
    (if 0 ≤ evenAway x then evenAway x - c % 2 else evenAway x + c % 2) = x := by
  unfold evenAway
  split_ifs <;> omega

/-- The average, from its two low bits. -/
def meanFrom (b0 b1 x : Int) : Int :=
  if 0 ≤ x then x + b0 - b1 else if b0 = 0 then x + b1 else x + (b0 - b1)

/-- The low bits of the differences undo the rounding of the average. -/
theorem restore_mean {h0 hx hy hc : Int} (hsum : (h0 + hx + hy + hc) % 4 = 0)
    (hparx : (hx - hc) % 2 = 0) (hpary : (hy - hc) % 2 = 0) :
    meanFrom (hc % 2) ((hc / 2 + hx / 2 + hy / 2) % 2 * 2) (fourAway h0) = h0 := by
  obtain ⟨t, ht⟩ : ∃ t, hc / 2 + hx / 2 + hy / 2 = t := ⟨_, rfl⟩
  obtain ⟨c, hbit⟩ : ∃ c, hc % 2 = c := ⟨_, rfl⟩
  have hc01 : c = 0 ∨ c = 1 := by omega
  have hmod : (h0 + 2 * t + 3 * c) % 4 = 0 := by omega
  rw [ht, hbit]
  clear ht hbit hsum hparx hpary
  unfold meanFrom fourAway
  rcases hc01 with rfl | rfl <;> split_ifs <;> omega

/-- In a block of two values the difference and the average are even. -/
theorem restore_pair (h0 hx : Int) (hsum : (h0 + hx) % 4 = 0) (hpar : hx % 2 = 0) :
    (if 0 ≤ fourAway h0 then fourAway h0 - hx / 2 % 2 * 2 else fourAway h0 + hx / 2 % 2 * 2) =
      h0 := by
  unfold fourAway
  split_ifs <;> omega

/-! ## Words in units -/

/-- Fewer than `m` units of `u` fit a word. -/
structure Units (w : Nat) (u m : Int) : Prop where
  pos : 0 < u
  room : u * m < 2 ^ (w - 1)

section

variable {w : Nat} {checks : Bool} {u m x : Int}

theorem word_of_fits {v : Int} (h : Fits w v) : word w checks v = .ok v := if_pos h

theorem Units.nonneg (hu : Units w u m) : 0 ≤ u * x ↔ 0 ≤ x := by
  refine ⟨fun h => ?_, fun h => Int.mul_nonneg (Int.le_of_lt hu.pos) h⟩
  by_contra hx
  exact absurd (Int.mul_neg_of_pos_of_neg hu.pos (Int.not_le.1 hx)) (by omega)

/-- A number of units, and less than a unit more. -/
theorem Units.fits (hu : Units w u m) {r : Int} (hr : 0 ≤ r ∧ r < u) (hx : -m ≤ x ∧ x < m) :
    Fits w (u * x + r) := by
  have hroom := hu.room
  have hpos := Int.le_of_lt hu.pos
  constructor
  · calc -2 ^ (w - 1) ≤ -(u * m) := by omega
      _ = u * -m := by ring
      _ ≤ u * x := Int.mul_le_mul_of_nonneg_left hx.1 hpos
      _ ≤ u * x + r := by omega
  · calc u * x + r < u * (x + 1) := by
          rw [Int.mul_add, Int.mul_one]
          omega
      _ ≤ u * m := Int.mul_le_mul_of_nonneg_left (by omega) hpos
      _ < 2 ^ (w - 1) := hroom

theorem Units.word_add (hu : Units w u m) {r : Int} (hr : 0 ≤ r ∧ r < u) (hx : -m ≤ x ∧ x < m) :
    word w checks (u * x + r) = .ok (u * x + r) := word_of_fits (hu.fits hr hx)

theorem Units.word (hu : Units w u m) (hx : -m ≤ x ∧ x < m) :
    word w checks (u * x) = .ok (u * x) := by
  have h : Hcompress.word w checks (u * x + 0) = .ok (u * x + 0) :=
    hu.word_add ⟨Int.le_refl 0, hu.pos⟩ hx
  rwa [Int.add_zero] at h

/-- Less than a unit does not change a quotient. -/
theorem Units.ediv (hu : Units w u m) {r : Int} (hr : 0 ≤ r ∧ r < u) (n : Int) :
    (u * x + r) / (u * n) = x / n := by
  have hdiv : (u * x + r) / u = x := by
    rw [Int.add_comm, Int.add_mul_ediv_left _ _ (Int.ne_of_gt hu.pos),
      Int.ediv_eq_zero_of_lt hr.1 hr.2, Int.zero_add]
  rw [← Int.ediv_ediv_of_nonneg (Int.le_of_lt hu.pos), hdiv]

theorem Units.clearBelow (hu : Units w u m) {r : Int} (hr : 0 ≤ r ∧ r < u) (n : Int) :
    clearBelow (n * u) (u * x + r) = u * (x / n * n) := by
  rw [Hcompress.clearBelow, Int.mul_comm n, hu.ediv hr]
  ring

theorem Units.bitAt (hu : Units w u m) (n : Int) : bitAt (n * u) (u * x) = u * (x / n % 2 * n) := by
  have hdiv := hu.ediv (x := x) (r := 0) ⟨Int.le_refl 0, hu.pos⟩ n
  rw [Int.add_zero] at hdiv
  rw [Hcompress.bitAt, Int.mul_comm n, hdiv]
  ring

/-- A shift to the left is a product when that fits. -/
theorem shiftWord_of_fits {v : Int} {n : Nat} (hw : 0 < w) (h : Fits w (v * 2 ^ n)) :
    shiftWord w v n = v * 2 ^ n :=
  h.bmod hw

theorem Units.sum4 (hu : Units w u m) {a b c d : Int} (hab : -m ≤ a + b ∧ a + b < m)
    (habc : -m ≤ a + b + c ∧ a + b + c < m) (habcd : -m ≤ a + b + c + d ∧ a + b + c + d < m) :
    sum4 w checks (u * a) (u * b) (u * c) (u * d) = .ok (u * (a + b + c + d)) := by
  rw [Hcompress.sum4, ← Int.mul_add, hu.word hab, ok_bind, ← Int.mul_add, hu.word habc, ok_bind,
    ← Int.mul_add, hu.word habcd]

theorem Units.roundEdge (hu : Units w u m) (hx : -m ≤ x ∧ x + 1 < m) :
    roundEdge w checks u (u * x) = .ok (u * evenAway x) := by
  unfold Hcompress.roundEdge evenAway
  by_cases hsign : 0 ≤ x
  · have hsum : u * x + u = u * (x + 1) := by ring
    have hclear := hu.clearBelow (x := x + 1) (r := 0) ⟨Int.le_refl 0, hu.pos⟩ 2
    rw [Int.add_zero] at hclear
    rw [if_pos (hu.nonneg.2 hsign), if_pos hsign, hsum, hu.word ⟨by omega, by omega⟩]
    exact congrArg Outcome.ok hclear
  · have hclear := hu.clearBelow (x := x) (r := 0) ⟨Int.le_refl 0, hu.pos⟩ 2
    rw [Int.add_zero] at hclear
    rw [if_neg (fun h => hsign (hu.nonneg.1 h)), if_neg hsign]
    show Outcome.ok (Hcompress.clearBelow (2 * u) (u * x)) = _
    rw [hclear]

theorem Units.roundMean (hu : Units w u m) (hx : -m ≤ x ∧ x + 2 < m) :
    roundMean w checks u (u * x) = .ok (u * fourAway x) := by
  unfold Hcompress.roundMean fourAway
  by_cases hsign : 0 ≤ x
  · have hsum : u * x + 2 * u = u * (x + 2) := by ring
    have hclear := hu.clearBelow (x := x + 2) (r := 0) ⟨Int.le_refl 0, hu.pos⟩ 4
    rw [Int.add_zero] at hclear
    rw [if_pos (hu.nonneg.2 hsign), if_pos hsign, hsum, hu.word ⟨by omega, by omega⟩]
    exact congrArg Outcome.ok hclear
  · have hpos := hu.pos
    have hsum : u * x + (2 * u - 1) = u * (x + 1) + (u - 1) := by ring
    have hr : 0 ≤ u - 1 ∧ u - 1 < u := by omega
    rw [if_neg (fun h => hsign (hu.nonneg.1 h)), if_neg hsign, hsum,
      hu.word_add hr ⟨by omega, by omega⟩, ok_bind, hu.clearBelow hr]
    rfl

/-- A multiple of the mask is not rounded. -/
theorem Units.roundTo (hu : Units w u m) {n prnd nrnd : Int} (hx : x % n = 0) (hn : 0 < n)
    (hbound : -m ≤ x ∧ x + n ≤ m) (hp : 0 ≤ prnd ∧ prnd < n * u) (hr : 0 ≤ nrnd ∧ nrnd < n * u) :
    roundTo w checks (n * u) prnd nrnd (u * x) = .ok (u * x) := by
  have key : ∀ r, 0 ≤ r ∧ r < n * u → Hcompress.word w checks (u * x + r) = .ok (u * x + r) ∧
      Hcompress.clearBelow (n * u) (u * x + r) = u * x := by
    intro r hr
    have hpos := hu.pos
    have hq : 0 ≤ r / u ∧ r / u < n :=
      ⟨Int.ediv_nonneg hr.1 (Int.le_of_lt hpos), Int.ediv_lt_of_lt_mul hpos hr.2⟩
    have hrest : 0 ≤ r % u ∧ r % u < u :=
      ⟨Int.emod_nonneg _ (Int.ne_of_gt hpos), Int.emod_lt_of_pos _ hpos⟩
    have hsplit : u * x + r = u * (x + r / u) + r % u := by
      have := Int.mul_ediv_add_emod r u
      rw [Int.mul_add]
      omega
    have hdiv : (x + r / u) / n * n = x := by
      obtain ⟨y, rfl⟩ := Int.dvd_of_emod_eq_zero hx
      rw [Int.add_comm, Int.add_mul_ediv_left _ _ (Int.ne_of_gt hn),
        Int.ediv_eq_zero_of_lt hq.1 hq.2, Int.zero_add, Int.mul_comm]
    rw [hsplit]
    exact ⟨hu.word_add hrest ⟨by omega, by omega⟩, by rw [hu.clearBelow hrest, hdiv]⟩
  unfold Hcompress.roundTo
  split_ifs
  · rw [(key prnd hp).1, ok_bind, (key prnd hp).2]
    rfl
  · rw [(key nrnd hr).1, ok_bind, (key nrnd hr).2]
    rfl

theorem Units.towardsZero (hu : Units w u m) {b : Int} (hb : 0 ≤ b) (hx : -m ≤ x - b ∧ x + b < m) :
    towardsZero w checks (u * b) (u * x) = .ok (u * if 0 ≤ x then x - b else x + b) := by
  unfold Hcompress.towardsZero
  by_cases hsign : 0 ≤ x
  · rw [if_pos (hu.nonneg.2 hsign), if_pos hsign, ← Int.mul_sub, hu.word ⟨by omega, by omega⟩]
  · rw [if_neg (fun h => hsign (hu.nonneg.1 h)), if_neg hsign, ← Int.mul_add,
      hu.word ⟨by omega, by omega⟩]

theorem Units.restoreMean (hu : Units w u m) {b0 b1 : Int} (h0 : 0 ≤ b0) (h1 : 0 ≤ b1)
    (hx : -m ≤ x - b1 ∧ x + b0 + b1 < m) (hm : b0 + b1 < m) :
    restoreMean w checks (u * b0) (u * b1) (u * x) = .ok (u * meanFrom b0 b1 x) := by
  unfold Hcompress.restoreMean meanFrom
  by_cases hsign : 0 ≤ x
  · rw [if_pos (hu.nonneg.2 hsign), if_pos hsign, ← Int.mul_add, hu.word ⟨by omega, by omega⟩,
      ok_bind, ← Int.mul_sub, hu.word ⟨by omega, by omega⟩]
  · rw [if_neg (fun h => hsign (hu.nonneg.1 h)), if_neg hsign]
    by_cases hzero : b0 = 0
    · rw [if_pos (by rw [hzero, Int.mul_zero]), if_pos hzero, ← Int.mul_add,
        hu.word ⟨by omega, by omega⟩]
    · have hne : u * b0 ≠ 0 := Int.mul_ne_zero (Int.ne_of_gt hu.pos) hzero
      rw [if_neg hne, if_neg hzero, ← Int.mul_sub, hu.word ⟨by omega, by omega⟩, ok_bind,
        ← Int.mul_add, hu.word ⟨by omega, by omega⟩]

end


/-! ## A block -/

def Quad.map (f : Int → Int) (q : Quad) : Quad := ⟨f q.s00, f q.s01, f q.s10, f q.s11⟩

/-- The cells off the edge are empty. -/
def Quad.cut (below right : Bool) (q : Quad) : Quad :=
  ⟨q.s00, if right then q.s01 else 0, if below then q.s10 else 0,
    if below && right then q.s11 else 0⟩

/-- No value is larger than `p`. -/
structure Quad.Within (p : Int) (q : Quad) : Prop where
  s00 : -p ≤ q.s00 ∧ q.s00 ≤ p
  s01 : -p ≤ q.s01 ∧ q.s01 ≤ p
  s10 : -p ≤ q.s10 ∧ q.s10 ≤ p
  s11 : -p ≤ q.s11 ∧ q.s11 ≤ p

/-- The average and the differences of a block.  A row or a column that is missing counts
as a copy of the one that is there. -/
def Quad.sums : Bool → Bool → Quad → Quad
  | true, true, q => ⟨q.s11 + q.s10 + q.s01 + q.s00, q.s11 + -q.s10 + q.s01 + -q.s00,
    q.s11 + q.s10 + -q.s01 + -q.s00, q.s11 + -q.s10 + -q.s01 + q.s00⟩
  | true, false, q => ⟨2 * (q.s10 + q.s00), 0, 2 * (q.s10 - q.s00), 0⟩
  | false, true, q => ⟨2 * (q.s01 + q.s00), 2 * (q.s01 - q.s00), 0, 0⟩
  | false, false, q => ⟨4 * q.s00, 0, 0, 0⟩

def Quad.rounded (q : Quad) : Quad := ⟨fourAway q.s00, evenAway q.s01, evenAway q.s10, q.s11⟩

section

variable {w : Nat} {checks : Bool} {u g p x : Int} {q : Quad} {below right : Bool} {shift : Nat}

theorem Quad.sums_within (h : q.Within p) (below right : Bool) :
    (q.sums below right).Within (4 * p) := by
  obtain ⟨h00, h01, h10, h11⟩ := h
  cases below <;> cases right <;> constructor <;> dsimp only [Quad.sums] <;> omega

theorem Quad.rounded_within (h : q.Within (4 * p)) : q.rounded.Within (4 * p) :=
  ⟨fourAway_le h.s00, evenAway_le h.s01, evenAway_le h.s10, h.s11⟩

theorem Units.width_pos (hu : Units w u (16 * p)) (hp : 1 ≤ p) : 0 < w := by
  rcases Nat.eq_zero_or_pos w with hw | hw
  · have hroom := hu.room
    rw [hw] at hroom
    have hone : u * (16 * p) < 1 := hroom
    have := Int.mul_pos hu.pos (show 0 < 16 * p by omega)
    omega
  · exact hw

/-- The grain of the values of a level is one or two units. -/
theorem Units.grain (hu : Units w u (16 * p)) (hp : 1 ≤ p) (hshift : shift ≤ 1)
    (hg : g = u * 2 ^ shift) :
    Units w g (8 * p) := by
  have hpos := hu.pos
  have hroom := hu.room
  obtain rfl | rfl : shift = 0 ∨ shift = 1 := by omega
  · rw [pow_zero, mul_one] at hg
    rw [hg]
    refine ⟨hpos, Int.lt_of_le_of_lt (Int.mul_le_mul_of_nonneg_left ?_ (Int.le_of_lt hpos)) hroom⟩
    omega
  · have hsame : g * (8 * p) = u * (16 * p) := by
      rw [hg]
      ring
    exact ⟨by rw [hg]; omega, by rw [hsame]; exact hroom⟩

theorem grain_ediv (hg : g = u * 2 ^ shift) (x : Int) : g * x / 2 ^ shift = u * x := by
  have hpow : (2 : Int) ^ shift ≠ 0 := by positivity
  rw [hg, Int.mul_right_comm, Int.mul_ediv_cancel _ hpow]

theorem Units.grain_shift (hu : Units w u (16 * p)) (hp : 1 ≤ p) {n : Nat} (hn : shift ≤ n)
    (hg : g = u * 2 ^ shift)
    (hx : -(16 * p) ≤ 2 ^ n * x ∧ 2 ^ n * x < 16 * p) :
    shiftWord w (g * x) (n - shift) = u * (2 ^ n * x) := by
  have hsame : g * x * 2 ^ (n - shift) = u * (2 ^ n * x) := by
    have hpow : (2 : Int) ^ n = 2 ^ shift * 2 ^ (n - shift) := by
      rw [← pow_add, Nat.add_sub_cancel' hn]
    rw [hg, hpow]
    ring
  have hfits := hu.fits (r := 0) ⟨Int.le_refl 0, hu.pos⟩ hx
  rw [Int.add_zero, ← hsame] at hfits
  rw [shiftWord_of_fits (hu.width_pos hp) hfits, hsame]

/-- The forward transform of a block of multiples of the grain. -/
theorem forward_units (hu : Units w u (16 * p)) (hp : 1 ≤ p) (hshift : shift ≤ 1)
    (hg : g = u * 2 ^ shift)
    (hq : q.Within p) : Quad.forwardAt w checks u shift below right (q.map (g * ·)) =
      .ok ((q.sums below right).rounded.map (u * ·)) := by
  have hgrain := hu.grain hp hshift hg
  obtain ⟨h00, h01, h10, h11⟩ := hq
  have hsums := Quad.sums_within (p := p) ⟨h00, h01, h10, h11⟩ below right
  have hmean : roundMean w checks u (u * (q.sums below right).s00) =
      .ok (u * fourAway (q.sums below right).s00) := by
    have := hsums.s00
    exact hu.roundMean ⟨by omega, by omega⟩
  have hedgex : roundEdge w checks u (u * (q.sums below right).s10) =
      .ok (u * evenAway (q.sums below right).s10) := by
    have := hsums.s10
    exact hu.roundEdge ⟨by omega, by omega⟩
  have hedgey : roundEdge w checks u (u * (q.sums below right).s01) =
      .ok (u * evenAway (q.sums below right).s01) := by
    have := hsums.s01
    exact hu.roundEdge ⟨by omega, by omega⟩
  cases below
  · cases right
    · show (roundMean w checks u (shiftWord w (g * q.s00) (2 - shift)) >>= _) = _
      rw [hu.grain_shift hp (by omega) hg (by omega)]
      show (roundMean w checks u (u * (q.sums false false).s00) >>= _) = _
      rw [hmean]
      simp [Quad.rounded, Quad.map, Quad.sums, evenAway, pure]
    · show (word w checks (g * q.s01 + g * q.s00) >>= _) = _
      rw [← Int.mul_add, hgrain.word (by omega), ok_bind]
      show (word w checks (g * q.s01 - g * q.s00) >>= _) = _
      rw [← Int.mul_sub, hgrain.word (by omega), ok_bind, hu.grain_shift hp hshift hg (by omega),
        hu.grain_shift hp hshift hg (by omega)]
      show (roundEdge w checks u (u * (q.sums false true).s01) >>= _) = _
      rw [hedgey, ok_bind]
      show (roundMean w checks u (u * (q.sums false true).s00) >>= _) = _
      rw [hmean]
      simp [Quad.rounded, Quad.map, Quad.sums, evenAway, pure]
  · cases right
    · show (word w checks (g * q.s10 + g * q.s00) >>= _) = _
      rw [← Int.mul_add, hgrain.word (by omega), ok_bind]
      show (word w checks (g * q.s10 - g * q.s00) >>= _) = _
      rw [← Int.mul_sub, hgrain.word (by omega), ok_bind, hu.grain_shift hp hshift hg (by omega),
        hu.grain_shift hp hshift hg (by omega)]
      show (roundEdge w checks u (u * (q.sums true false).s10) >>= _) = _
      rw [hedgex, ok_bind]
      show (roundMean w checks u (u * (q.sums true false).s00) >>= _) = _
      rw [hmean]
      simp [Quad.rounded, Quad.map, Quad.sums, evenAway, pure]
    · show (sum4 w checks (g * q.s11) (g * q.s10) (g * q.s01) (g * q.s00) >>= _) = _
      rw [hgrain.sum4 (by omega) (by omega) (by omega), ok_bind]
      show (sum4 w checks (g * q.s11) (g * q.s10) (-(g * q.s01)) (-(g * q.s00)) >>= _) = _
      rw [← Int.mul_neg, ← Int.mul_neg, hgrain.sum4 (by omega) (by omega) (by omega), ok_bind]
      show (sum4 w checks (g * q.s11) (-(g * q.s10)) (g * q.s01) (-(g * q.s00)) >>= _) = _
      rw [← Int.mul_neg, ← Int.mul_neg, hgrain.sum4 (by omega) (by omega) (by omega), ok_bind]
      show (sum4 w checks (g * q.s11) (-(g * q.s10)) (-(g * q.s01)) (g * q.s00) >>= _) = _
      rw [← Int.mul_neg, ← Int.mul_neg, hgrain.sum4 (by omega) (by omega) (by omega), ok_bind,
        grain_ediv hg, grain_ediv hg, grain_ediv hg, grain_ediv hg]
      show (roundEdge w checks u (u * (q.sums true true).s10) >>= _) = _
      rw [hedgex, ok_bind]
      show (roundEdge w checks u (u * (q.sums true true).s01) >>= _) = _
      rw [hedgey, ok_bind]
      show (roundMean w checks u (u * (q.sums true true).s00) >>= _) = _
      rw [hmean]
      rfl

theorem grain_back (hg : 4 * u = g * 2 ^ shift) (x : Int) : u * (4 * x) / 2 ^ shift = g * x := by
  have hpow : (2 : Int) ^ shift ≠ 0 := by positivity
  have hsame : u * (4 * x) = g * x * 2 ^ shift := by
    calc u * (4 * x) = 4 * u * x := by ring
      _ = g * x * 2 ^ shift := by
        rw [hg]
        ring
  rw [hsame, Int.mul_ediv_cancel _ hpow]

/-- In a block at an edge the difference is even, and tells the average modulo four. -/
theorem inverse_pair (checks : Bool) (hu : Units w u (16 * p)) (hp : 1 ≤ p) {a b : Int}
    (ha : -p ≤ a ∧ a ≤ p) (hb : -p ≤ b ∧ b ≤ p) :
    roundTo w checks (2 * u) u (u - 1) (u * evenAway (2 * (a - b))) = .ok (u * (2 * (a - b))) ∧
      towardsZero w checks (bitAt (2 * u) (u * (2 * (a - b)))) (u * fourAway (2 * (a + b))) =
        .ok (u * (2 * (a + b))) ∧
      word w checks (u * (2 * (a + b)) + u * (2 * (a - b))) = .ok (u * (4 * a)) ∧
      word w checks (u * (2 * (a + b)) - u * (2 * (a - b))) = .ok (u * (4 * b)) := by
  have hpos := hu.pos
  have hmean := fourAway_le (x := 2 * (a + b)) (p := p) (by omega)
  have hback := restore_pair (2 * (a + b)) (2 * (a - b)) (by omega) (by omega)
  refine ⟨?_, ?_, ?_, ?_⟩
  · rw [evenAway_of_even (by omega),
      hu.roundTo (by omega) (by omega) (by omega) (by omega) (by omega)]
  · rw [hu.bitAt, hu.towardsZero (by omega) (by omega), hback]
  · rw [← Int.mul_add, show 2 * (a + b) + 2 * (a - b) = 4 * a by ring, hu.word (by omega)]
  · rw [← Int.mul_sub, show 2 * (a + b) - 2 * (a - b) = 4 * b by ring, hu.word (by omega)]

/-- The parity of the curvature and the low bits give the differences and the average back. -/
theorem inverse_sums (checks : Bool) {nrnd0 : Int} (h0 hx hy hc : Int)
    (hu : Units w u (16 * p)) (hp : 1 ≤ p)
    (hn : 0 ≤ nrnd0 ∧ nrnd0 < u) (h : (⟨h0, hy, hx, hc⟩ : Quad).Within (4 * p))
    (hsum : (h0 + hx + hy + hc) % 4 = 0) (hparx : (hx - hc) % 2 = 0) (hpary : (hy - hc) % 2 = 0) :
    roundTo w checks (2 * u) u (u - 1) (u * evenAway hx) = .ok (u * evenAway hx) ∧
      roundTo w checks (2 * u) u (u - 1) (u * evenAway hy) = .ok (u * evenAway hy) ∧
      roundTo w checks u (u / 2) nrnd0 (u * hc) = .ok (u * hc) ∧
      towardsZero w checks (bitAt u (u * hc)) (u * evenAway hx) = .ok (u * hx) ∧
      towardsZero w checks (bitAt u (u * hc)) (u * evenAway hy) = .ok (u * hy) ∧
      restoreMean w checks (bitAt u (u * hc))
        ((u * hc / (2 * u) + u * hx / (2 * u) + u * hy / (2 * u)) % 2 * (2 * u))
        (u * fourAway h0) = .ok (u * h0) := by
  have hpos := hu.pos
  obtain ⟨h00, h01, h10, h11⟩ := h
  dsimp only at h00 h01 h10 h11
  have hedgex := evenAway_le h10
  have hedgey := evenAway_le h01
  have hmean := fourAway_le h00
  have hevenx := evenAway_mod hx
  have heveny := evenAway_mod hy
  have hbit : bitAt u (u * hc) = u * (hc % 2) := by
    have h := hu.bitAt (x := hc) 1
    rwa [Int.one_mul, Int.ediv_one, Int.mul_one] at h
  have hhalf : ∀ x, u * x / (2 * u) = x / 2 := by
    intro x
    have h := hu.ediv (x := x) (r := 0) ⟨Int.le_refl 0, hpos⟩ 2
    rwa [Int.add_zero, Int.mul_comm u 2] at h
  refine ⟨hu.roundTo hevenx (by omega) (by omega) (by omega) (by omega),
    hu.roundTo heveny (by omega) (by omega) (by omega) (by omega), ?_, ?_, ?_, ?_⟩
  · have h : roundTo w checks (1 * u) (u / 2) nrnd0 (u * hc) = .ok (u * hc) :=
      hu.roundTo (Int.emod_one hc) Int.one_pos (by omega) (by omega) (by omega)
    rwa [Int.one_mul] at h
  · rw [hbit, hu.towardsZero (by omega) (by omega), restore_edge hparx]
  · rw [hbit, hu.towardsZero (by omega) (by omega), restore_edge hpary]
  · have hlow : (hc / 2 + hx / 2 + hy / 2) % 2 * (2 * u) =
        u * ((hc / 2 + hx / 2 + hy / 2) % 2 * 2) := by ring
    rw [hbit, hhalf, hhalf, hhalf, hlow, hu.restoreMean (by omega) (by omega) (by omega) (by omega),
      restore_mean hsum hparx hpary]

/-- The inverse of a block of the forward transform. -/
theorem inverse_units {nrnd0 : Int} (hu : Units w u (16 * p)) (hp : 1 ≤ p)
    (hg : 4 * u = g * 2 ^ shift)
    (hn : 0 ≤ nrnd0 ∧ nrnd0 < u) (hq : q.Within p) (hcut : q.cut below right = q) :
    Quad.inverseAt w checks u nrnd0 shift below right ((q.sums below right).rounded.map (u * ·)) =
      .ok (q.map (g * ·)) := by
  have hsums := Quad.sums_within hq below right
  obtain ⟨h00, h01, h10, h11⟩ := hq
  obtain ⟨s00, s01, s10, s11⟩ := q
  dsimp only at h00 h01 h10 h11
  cases below <;> cases right
  · obtain ⟨rfl, rfl, rfl⟩ : 0 = s01 ∧ 0 = s10 ∧ 0 = s11 := by simpa [Quad.cut] using hcut
    show Outcome.ok (⟨u * fourAway (4 * s00) / 2 ^ shift, 0, 0, 0⟩ : Quad) = _
    rw [fourAway_of_four (by omega), grain_back hg]
    simp [Quad.map]
  · obtain ⟨rfl, rfl⟩ : 0 = s10 ∧ 0 = s11 := by simpa [Quad.cut] using hcut
    obtain ⟨hdiff, hmean, hright, hleft⟩ := inverse_pair checks hu hp h01 h00
    show (roundTo w checks (2 * u) u (u - 1) (u * evenAway (2 * (s01 - s00))) >>= _) = _
    rw [hdiff, ok_bind]
    show (towardsZero w checks (bitAt (2 * u) (u * (2 * (s01 - s00))))
      (u * fourAway (2 * (s01 + s00))) >>= _) = _
    rw [hmean, ok_bind, hright, ok_bind, hleft, ok_bind, grain_back hg, grain_back hg]
    simp [Quad.map, pure]
  · obtain ⟨rfl, rfl⟩ : 0 = s01 ∧ 0 = s11 := by simpa [Quad.cut] using hcut
    obtain ⟨hdiff, hmean, hright, hleft⟩ := inverse_pair checks hu hp h10 h00
    show (roundTo w checks (2 * u) u (u - 1) (u * evenAway (2 * (s10 - s00))) >>= _) = _
    rw [hdiff, ok_bind]
    show (towardsZero w checks (bitAt (2 * u) (u * (2 * (s10 - s00))))
      (u * fourAway (2 * (s10 + s00))) >>= _) = _
    rw [hmean, ok_bind, hright, ok_bind, hleft, ok_bind, grain_back hg, grain_back hg]
    simp [Quad.map, pure]
  · obtain ⟨hx, hy, hc, hxlow, hylow, hmean⟩ := inverse_sums checks (s11 + s10 + s01 + s00)
      (s11 + s10 + -s01 + -s00) (s11 + -s10 + s01 + -s00)
      (s11 + -s10 + -s01 + s00) hu hp hn hsums (by omega) (by omega)
      (by omega)
    show (roundTo w checks (2 * u) u (u - 1) (u * evenAway (s11 + s10 + -s01 + -s00)) >>= _) = _
    rw [hx, ok_bind]
    show (roundTo w checks (2 * u) u (u - 1) (u * evenAway (s11 + -s10 + s01 + -s00)) >>= _) = _
    rw [hy, ok_bind]
    show (roundTo w checks u (u / 2) nrnd0 (u * (s11 + -s10 + -s01 + s00)) >>= _) = _
    rw [hc, ok_bind, hxlow, ok_bind, hylow, ok_bind]
    show (restoreMean w checks _ _ (u * fourAway (s11 + s10 + s01 + s00)) >>= _) = _
    rw [hmean, ok_bind, hu.sum4 (by omega) (by omega) (by omega), ok_bind, ← Int.mul_neg,
      ← Int.mul_neg,
      hu.sum4 (by omega) (by omega) (by omega), ok_bind, ← Int.mul_neg,
      hu.sum4 (by omega) (by omega) (by omega),
      ok_bind, hu.sum4 (by omega) (by omega) (by omega), ok_bind]
    have h1 : s11 + s10 + s01 + s00 + (s11 + s10 + -s01 + -s00) + (s11 + -s10 + s01 + -s00) +
        (s11 + -s10 + -s01 + s00) = 4 * s11 := by ring
    have h2 : s11 + s10 + s01 + s00 + (s11 + s10 + -s01 + -s00) + -(s11 + -s10 + s01 + -s00) +
        -(s11 + -s10 + -s01 + s00) = 4 * s10 := by ring
    have h3 : s11 + s10 + s01 + s00 + -(s11 + s10 + -s01 + -s00) + (s11 + -s10 + s01 + -s00) +
        -(s11 + -s10 + -s01 + s00) = 4 * s01 := by ring
    have h4 : s11 + s10 + s01 + s00 + -(s11 + s10 + -s01 + -s00) + -(s11 + -s10 + s01 + -s00) +
        (s11 + -s10 + -s01 + s00) = 4 * s00 := by ring
    rw [h1, h2, h3, h4, grain_back hg, grain_back hg, grain_back hg, grain_back hg]
    rfl

end

end RustFits.Zimage.Hcompress
