import RustFits.Zimage.Hcompress.Quadtree

/-!
# The H-transform

`zimage/hcompress.rs`: `htrans` makes the average and the three differences of every block
of 2×2 values, level by level, and moves the averages to the front of the array, where the
next level finds them.  `hinv` goes back from level to level.

The averages and the differences in `x` and `y` are rounded; `hinv` finds the bits that
are lost in the parity of the others.  The constants of a level are powers of two: `u` is
`2 ^ k` at level `k`, and a mask `-m` clears the bits below `m` (`clearBelow`).

The source has the transform for `i32` and for `i64`; here words are integers, and the
width is a parameter.  A sum that does not fit stops a build that checks for overflow,
and is taken modulo `2 ^ w` in any other.
-/

namespace RustFits.Zimage.Hcompress

open Ascii Outcome

/-! ## Words -/

/-- The range of a signed word. -/
def Fits (w : Nat) (v : Int) : Prop := -2 ^ (w - 1) ≤ v ∧ v < 2 ^ (w - 1)

instance (w : Nat) (v : Int) : Decidable (Fits w v) := inferInstanceAs (Decidable (_ ∧ _))

theorem Fits.mono {w m : Nat} {v : Int} (h : Fits w v) (hle : w ≤ m) : Fits m v := by
  have hpow : (2 : Int) ^ (w - 1) ≤ 2 ^ (m - 1) := pow_le_pow_right₀ (by decide) (by omega)
  obtain ⟨hlo, hhi⟩ := h
  exact ⟨by omega, by omega⟩

/-- A number that fits is not wrapped. -/
theorem Fits.bmod {w : Nat} {v : Int} (hw : 0 < w) (h : Fits w v) : v.bmod (2 ^ w) = v := by
  have hcast : ((2 ^ w : Nat) : Int) = 2 * 2 ^ (w - 1) := by
    rw [← pow_succ', Nat.sub_add_cancel hw]
    push_cast
    rfl
  obtain ⟨hlo, hhi⟩ := h
  exact Int.bmod_eq_of_le_mul_two (by rw [hcast]; omega) (by rw [hcast]; omega)

/-- The result of an operation, as a word. -/
def word (w : Nat) (checks : Bool) (v : Int) : Outcome PyErr Int :=
  if Fits w v then .ok v else if checks then .fault else .ok (v.bmod (2 ^ w))

/-- `wrapping_shl`, and `<<` by less than the width: the bits that leave the word are lost. -/
def shiftWord (w : Nat) (v : Int) (n : Nat) : Int := (v * 2 ^ n).bmod (2 ^ w)

/-- `v & -m` for a power of two. -/
def clearBelow (m v : Int) : Int := v / m * m

/-- `v & m` for a power of two. -/
def bitAt (m v : Int) : Int := v / m % 2 * m

/-- `a + b + c + d`. -/
def sum4 (w : Nat) (checks : Bool) (a b c d : Int) : Outcome PyErr Int := do
  let s ← word w checks (a + b)
  let s ← word w checks (s + c)
  word w checks (s + d)

/-! ## Blocks -/

/-- The values of a block, by their places in the source. -/
structure Quad where
  s00 : Int
  s01 : Int
  s10 : Int
  s11 : Int
  deriving DecidableEq, Repr

/-- The value of a cell, by the bit that stands for it in a code. -/
def Quad.get (q : Quad) : Nat → Int
  | 0 => q.s11
  | 1 => q.s10
  | 2 => q.s01
  | _ => q.s00

section

variable (w : Nat) (checks : Bool)

/-- `(if hx >= 0 { hx + prnd } else { hx }) & mask`. -/
def roundEdge (u v : Int) : Outcome PyErr Int := do
  let t ← if 0 ≤ v then word w checks (v + u) else pure v
  pure (clearBelow (2 * u) t)

/-- `(if h0 >= 0 { h0 + prnd2 } else { h0 + nrnd2 }) & mask2`. -/
def roundMean (u v : Int) : Outcome PyErr Int := do
  let t ← word w checks (v + if 0 ≤ v then 2 * u else 2 * u - 1)
  pure (clearBelow (4 * u) t)

/-- The average and the differences of a block, with the unit and the shift of its level.
Blocks at the edges of the array have no row below or no column to the right. -/
def Quad.forwardAt (u : Int) (shift : Nat) : Bool → Bool → Quad → Outcome PyErr Quad
  | true, true, q => do
    let h0 ← sum4 w checks q.s11 q.s10 q.s01 q.s00
    let hx ← sum4 w checks q.s11 q.s10 (-q.s01) (-q.s00)
    let hy ← sum4 w checks q.s11 (-q.s10) q.s01 (-q.s00)
    let hc ← sum4 w checks q.s11 (-q.s10) (-q.s01) q.s00
    let hx ← roundEdge w checks u (hx / 2 ^ shift)
    let hy ← roundEdge w checks u (hy / 2 ^ shift)
    let h0 ← roundMean w checks u (h0 / 2 ^ shift)
    pure ⟨h0, hy, hx, hc / 2 ^ shift⟩
  | true, false, q => do
    let h0 ← word w checks (q.s10 + q.s00)
    let hx ← word w checks (q.s10 - q.s00)
    let hx ← roundEdge w checks u (shiftWord w hx (1 - shift))
    let h0 ← roundMean w checks u (shiftWord w h0 (1 - shift))
    pure ⟨h0, 0, hx, 0⟩
  | false, true, q => do
    let h0 ← word w checks (q.s01 + q.s00)
    let hy ← word w checks (q.s01 - q.s00)
    let hy ← roundEdge w checks u (shiftWord w hy (1 - shift))
    let h0 ← roundMean w checks u (shiftWord w h0 (1 - shift))
    pure ⟨h0, hy, 0, 0⟩
  | false, false, q => do
    let h0 ← roundMean w checks u (shiftWord w q.s00 (2 - shift))
    pure ⟨h0, 0, 0, 0⟩

/-- Level `k` of `htrans` on a block. -/
def Quad.forward (k : Nat) : Bool → Bool → Quad → Outcome PyErr Quad :=
  Quad.forwardAt w checks (2 ^ k) (if k = 0 then 0 else 1)

/-- `(v + if v >= 0 { prnd } else { nrnd }) & mask`, with the mask `-m`. -/
def roundTo (m prnd nrnd v : Int) : Outcome PyErr Int := do
  let t ← word w checks (v + if 0 ≤ v then prnd else nrnd)
  pure (clearBelow m t)

/-- The low bit is moved towards zero. -/
def towardsZero (bit v : Int) : Outcome PyErr Int :=
  word w checks (if 0 ≤ v then v - bit else v + bit)

/-- The average, from its two low bits. -/
def restoreMean (lowbit0 lowbit1 h0 : Int) : Outcome PyErr Int :=
  if 0 ≤ h0 then do
    let t ← word w checks (h0 + lowbit0)
    word w checks (t - lowbit1)
  else if lowbit0 = 0 then word w checks (h0 + lowbit1)
  else do
    let low ← word w checks (lowbit0 - lowbit1)
    word w checks (h0 + low)

/-- The values of a block, from its average and its differences. -/
def Quad.inverseAt (u nrnd0 : Int) (shift : Nat) : Bool → Bool → Quad → Outcome PyErr Quad
  | true, true, q => do
    let hx ← roundTo w checks (2 * u) u (u - 1) q.s10
    let hy ← roundTo w checks (2 * u) u (u - 1) q.s01
    let hc ← roundTo w checks u (u / 2) nrnd0 q.s11
    let hx ← towardsZero w checks (bitAt u hc) hx
    let hy ← towardsZero w checks (bitAt u hc) hy
    -- The second bit is `(hc ^ hx ^ hy) & bit1`.
    let h0 ← restoreMean w checks (bitAt u hc)
      ((hc / (2 * u) + hx / (2 * u) + hy / (2 * u)) % 2 * (2 * u)) q.s00
    let s11 ← sum4 w checks h0 hx hy hc
    let s10 ← sum4 w checks h0 hx (-hy) (-hc)
    let s01 ← sum4 w checks h0 (-hx) hy (-hc)
    let s00 ← sum4 w checks h0 (-hx) (-hy) hc
    pure ⟨s00 / 2 ^ shift, s01 / 2 ^ shift, s10 / 2 ^ shift, s11 / 2 ^ shift⟩
  | true, false, q => do
    let hx ← roundTo w checks (2 * u) u (u - 1) q.s10
    let h0 ← towardsZero w checks (bitAt (2 * u) hx) q.s00
    let s10 ← word w checks (h0 + hx)
    let s00 ← word w checks (h0 - hx)
    pure ⟨s00 / 2 ^ shift, 0, s10 / 2 ^ shift, 0⟩
  | false, true, q => do
    let hy ← roundTo w checks (2 * u) u (u - 1) q.s01
    let h0 ← towardsZero w checks (bitAt (2 * u) hy) q.s00
    let s01 ← word w checks (h0 + hy)
    let s00 ← word w checks (h0 - hy)
    pure ⟨s00 / 2 ^ shift, s01 / 2 ^ shift, 0, 0⟩
  | false, false, q => pure ⟨q.s00 / 2 ^ shift, 0, 0, 0⟩

/-- Level `k` of `hinv` on a block. -/
def Quad.inverse (k : Nat) : Bool → Bool → Quad → Outcome PyErr Quad :=
  Quad.inverseAt w checks (2 ^ k) (if k = 0 then 0 else 2 ^ k / 2 - 1) (if k = 0 then 2 else 1)

end

/-! ## Levels -/

/-- A value of a block; one off the edge is not read. -/
def readCell (a : List Int) (inside : Bool) (p : Nat) : Outcome PyErr Int :=
  if inside then getAt a p else pure 0

/-- A block is replaced by what `f` makes of it. -/
def mapBlock (f : Bool → Bool → Quad → Outcome PyErr Quad) (n nx ny : Nat) (a : List Int)
    (block : Nat × Nat) :
    Outcome PyErr (List Int) := do
  let below := decide (2 * block.1 + 1 < nx)
  let right := decide (2 * block.2 + 1 < ny)
  let s00 ← getAt a (n * (2 * block.1) + 2 * block.2)
  let s01 ← readCell a right (n * (2 * block.1) + (2 * block.2 + 1))
  let s10 ← readCell a below (n * (2 * block.1 + 1) + 2 * block.2)
  let s11 ← readCell a (below && right) (n * (2 * block.1 + 1) + (2 * block.2 + 1))
  let h ← f below right ⟨s00, s01, s10, s11⟩
  (cells nx ny block).foldlM (fun a c => setAt a (c.pos n) (h.get c.bit)) a

/-- `shuffle` of the `n` elements from `base` on that lie `n2` apart: the even ones go to
the first half and the odd ones to the second. -/
def shuffle (n n2 base : Nat) (a : List Int) : Outcome PyErr (List Int) :=
  if base ≤ a.length then do
    let tmp ← (List.range (n / 2)).mapM fun i => getAt a (base + n2 * (2 * i + 1))
    let a ← (List.range' 1 (half n - 1)).foldlM (fun a i => do
      let v ← getAt a (base + n2 * (2 * i))
      setAt a (base + n2 * i) v) a
    (List.range (n / 2)).foldlM (fun a i => do
      let v ← getAt tmp i
      setAt a (base + n2 * (half n + i)) v) a
  else .fault

/-- `unshuffle`. -/
def unshuffle (n n2 base : Nat) (a : List Int) : Outcome PyErr (List Int) :=
  if base ≤ a.length then do
    let tmp ← (List.range (n / 2)).mapM fun i => getAt a (base + n2 * (half n + i))
    let a ← (List.range (half n)).reverse.foldlM (fun a i => do
      let v ← getAt a (base + n2 * i)
      setAt a (base + n2 * (2 * i)) v) a
    (List.range (n / 2)).foldlM (fun a i => do
      let v ← getAt tmp i
      setAt a (base + n2 * (2 * i + 1)) v) a
  else .fault

section

variable (w : Nat) (checks : Bool)

/-- A level of `htrans` in the `nx` rows of `ny` at the front of rows of `n`. -/
def htransLevel (k n nx ny : Nat) (a : List Int) : Outcome PyErr (List Int) := do
  let a ← (blocks nx ny).foldlM (mapBlock (Quad.forward w checks k) n nx ny) a
  let a ← (List.range nx).foldlM (fun a i => shuffle ny 1 (n * i) a) a
  (List.range ny).foldlM (fun a j => shuffle nx n j a) a

/-- `count` levels from level `k` on. -/
def htransLevels (n : Nat) : Nat → Nat → Nat → Nat → List Int → Outcome PyErr (List Int)
  | 0, _, _, _, a => pure a
  | count + 1, k, nx, ny, a => do
    let a ← htransLevel w checks k n nx ny a
    htransLevels n count (k + 1) (half nx) (half ny) a

/-- `htrans`. -/
def htrans (a : List Int) (nx ny : Nat) : Outcome PyErr (List Int) :=
  htransLevels w checks ny (log2n (max nx ny)) 0 nx ny a

/-- A difference that is moved towards the one that is interpolated, by `smax` at most. -/
def smoothed (smax diff dmin dmax h : Int) (n : Nat) : Outcome PyErr Int :=
  if dmin < dmax then do
    let s ← word w checks (max (min diff dmax) dmin - shiftWord w h n)
    word w checks (h + max (min (s.tdiv (2 ^ n)) smax) (-smax))
  else pure h

/-- The step of `hsmooth` for a difference in `x` or `y`: the average is at `p`, those of the
blocks before and behind it are `d` away, and the difference is at `q`. -/
def smoothEdge (smax : Int) (d p q : Nat) (a : List Int) : Outcome PyErr (List Int) := do
  let hm ← getAt a (p - d)
  let h0 ← getAt a p
  let hp ← getAt a (p + d)
  let diff ← word w checks (hp - hm)
  let up ← word w checks (hp - h0)
  let down ← word w checks (h0 - hm)
  let h ← getAt a q
  let h ← smoothed w checks smax diff (shiftWord w (min (max up down) 0) 2)
      (shiftWord w (max (min up down) 0) 2) h 3
  setAt a q h

/-- A bound for the curvature from two of the averages around. -/
def smoothBound (d hx2 hy2 : Int) : Outcome PyErr Int := do
  let t ← word w checks (d + hx2)
  word w checks (t + hy2)

/-- The step of `hsmooth` for the curvature of the block whose average is at `p`. -/
def smoothCurve (smax : Int) (n p : Nat) (a : List Int) : Outcome PyErr (List Int) := do
  let hmm ← getAt a (p - 2 * n - 2)
  let hpm ← getAt a (p + 2 * n - 2)
  let hmp ← getAt a (p - 2 * n + 2)
  let hpp ← getAt a (p + 2 * n + 2)
  let h0 ← getAt a p
  let diff ← sum4 w checks hpp hmm (-hmp) (-hpm)
  let hx ← getAt a (p + n)
  let hy ← getAt a (p + 1)
  let hx2 := shiftWord w hx 1
  let hy2 := shiftWord w hy 1
  let pp ← word w checks (hpp - h0)
  let pm ← word w checks (h0 - hpm)
  let mp ← word w checks (h0 - hmp)
  let mm ← word w checks (hmm - h0)
  let top1 ← smoothBound w checks (max pp 0) (-hx2) (-hy2)
  let top2 ← smoothBound w checks (max pm 0) hx2 (-hy2)
  let top3 ← smoothBound w checks (max mp 0) (-hx2) hy2
  let top4 ← smoothBound w checks (max mm 0) hx2 hy2
  let low1 ← smoothBound w checks (min pp 0) (-hx2) (-hy2)
  let low2 ← smoothBound w checks (min pm 0) hx2 (-hy2)
  let low3 ← smoothBound w checks (min mp 0) (-hx2) hy2
  let low4 ← smoothBound w checks (min mm 0) hx2 hy2
  let hc ← getAt a (p + n + 1)
  let hc ← smoothed w checks smax diff (shiftWord w (max (max low1 low2) (max low3 low4)) 4)
    (shiftWord w (min (min top1 top2) (min top3 top4)) 4) hc 6
  setAt a (p + n + 1) hc

/-- The first cells of the blocks of an axis. -/
def evens (n : Nat) : List Nat := (List.range n).filter fun i => i % 2 = 0

/-- Those with a block on both sides that does not end the axis. -/
def inner (n : Nat) : List Nat := (evens n).filter fun i => 2 ≤ i ∧ i + 2 < n

/-- `hsmooth` of the `nx` rows of `ny` at the front of rows of `n`. -/
def hsmooth (scale : Int) (n nx ny : Nat) (a : List Int) : Outcome PyErr (List Int) :=
  let smax := scale / 2
  if smax ≤ 0 then pure a
  else do
    let a ← (inner nx ×ˢ evens ny).foldlM (fun a c =>
      smoothEdge w checks smax (2 * n) (n * c.1 + c.2) (n * c.1 + c.2 + n) a) a
    let a ← (evens nx ×ˢ inner ny).foldlM (fun a c =>
      smoothEdge w checks smax 2 (n * c.1 + c.2) (n * c.1 + c.2 + 1) a) a
    (inner nx ×ˢ inner ny).foldlM (fun a c => smoothCurve w checks smax n (n * c.1 + c.2) a) a

/-- A level of `hinv`. -/
def hinvLevel (smooth : Bool) (scale : Int) (k n nx ny : Nat) (a : List Int) :
    Outcome PyErr (List Int) := do
  let a ← (List.range nx).foldlM (fun a i => unshuffle ny 1 (n * i) a) a
  let a ← (List.range ny).foldlM (fun a j => unshuffle nx n j a) a
  let a ← if smooth then hsmooth w checks scale n nx ny a else pure a
  (blocks nx ny).foldlM (mapBlock (Quad.inverse w checks k) n nx ny) a

/-- The levels below `k`, with the axes of level `k`. -/
def hinvLevels (smooth : Bool) (scale : Int) (n : Nat) :
  Nat → Axis → Axis → Nat → List Int → Outcome PyErr (List Int)
  | 0, _, _, _, a => pure a
  | k + 1, x, y, c, a => do
    let a ← hinvLevel w checks smooth scale k n (x.next (c / 2)).n (y.next (c / 2)).n a
    hinvLevels smooth scale n k (x.next (c / 2)) (y.next (c / 2)) (c / 2) a

/-- `hinv`.  In an array of one value `1 << (log2n - 1)` is a shift by `-1`. -/
def hinv (a : List Int) (nx ny : Nat) (smooth : Bool) (scale : Int) : Outcome PyErr (List Int) :=
  match log2n (max nx ny) with
  | 0 => if checks then .fault else do
    let _ ← getAt a 0
    setAt a 0 0
  | l + 1 => do
    let a0 ← getAt a 0
    let a0 ← roundTo w checks (2 ^ (l + 2)) (2 ^ (l + 1)) (2 ^ (l + 1) - 1) a0
    let a ← setAt a 0 a0
    hinvLevels w checks smooth scale ny (l + 1) ⟨1, nx⟩ ⟨1, ny⟩ (2 ^ (l + 1)) a

/-! ## Scaling -/

/-- `digitize`. -/
def digitize (a : List Int) (scale : Int) : Outcome PyErr (List Int) :=
  if scale ≤ 1 then pure a
  else do
    let s ← word w checks (scale + 1)
    a.mapM fun v => do
      let t ← word w checks (if 0 < v then v + (s.tdiv 2 - 1) else v - (s.tdiv 2 - 1))
      pure (t.tdiv scale)

/-- `undigitize`. -/
def undigitize (a : List Int) (scale : Int) : List Int :=
  if scale ≤ 1 then a else a.map fun v => (v * scale).bmod (2 ^ w)

end

end RustFits.Zimage.Hcompress
