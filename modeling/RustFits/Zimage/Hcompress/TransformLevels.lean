import RustFits.Zimage.Hcompress.QuadtreeLevels
import RustFits.Zimage.Hcompress.TransformBlock

/-!
# The levels of the H-transform

A level transforms the blocks of a rectangle in place and then moves the first cells of
the blocks to the front of the rows and of the columns: cell `j` of the result is cell
`pick n j` of the blocks (`shuffle_permutes`), and the inverse takes it back
(`unshuffle_permutes`).

`HasCells` says what an array holds in a rectangle.  `htransLevel_spec` is the
transform of a rectangle of multiples of the grain of the level, and `hinvLevel_spec` gives
the rectangle back.  The first cells of a level are multiples of the grain of the
next one and no larger in grains, so that the levels go on with the same bound
(`htransLevels_undone`), and `htrans_undone` is the result for the array of a tile.
-/

namespace RustFits.Zimage.Hcompress

open Outcome

/-! ## Moving the cells of a line -/

/-- The cell that comes to place `j`: the even ones come first. -/
def pick (n j : Nat) : Nat := if j < half n then 2 * j else 2 * (j - half n) + 1

/-- The place of cell `j`. -/
def unpick (n j : Nat) : Nat := if j % 2 = 0 then j / 2 else half n + j / 2

section

variable {n n2 base i j : Nat}

theorem pick_lt (h : j < n) : pick n j < n := by
  unfold pick half
  split_ifs <;> omega

theorem unpick_lt (h : j < n) : unpick n j < n := by
  unfold unpick half
  split_ifs <;> omega

theorem pick_unpick (h : j < n) : pick n (unpick n j) = j := by
  unfold pick unpick half
  split_ifs <;> omega

/-- A function on lines: the `n` cells from `base` on that lie `n2` apart. -/
abbrev LineMap := Nat → Nat → Nat → List Int → Outcome PyErr (List Int)

/-- Cell `σ n j` of a line comes to place `j`. -/
def Permutes (line : LineMap) (σ : Nat → Nat → Nat) : Prop :=
  ∀ {n n2 base : Nat} {a : List Int}, 0 < n2 → base ≤ a.length →
    (∀ j < n, base + n2 * j < a.length) →
    ∃ a', line n n2 base a = .ok a' ∧ a'.length = a.length ∧
      (∀ j < n, a'[base + n2 * j]? = a[base + n2 * σ n j]?) ∧
      ∀ p, (∀ j < n, p ≠ base + n2 * j) → a'[p]? = a[p]?

theorem place_inj (hn : 0 < n2) (h : base + n2 * i = base + n2 * j) : i = j :=
  Nat.eq_of_mul_eq_mul_left hn (Nat.add_left_cancel h)

/-- The values that are kept aside come back behind the moves. -/
theorem restoreLine (base : Nat) {a s : List Int} (hn2 : 0 < n2) (count : Nat) (src dst : Nat → Nat)
    (hdst : ∀ i < count, ∀ j < count, dst i = dst j → i = j) (hlen : s.length = a.length)
    (hsrc : ∀ i < count, base + n2 * src i < a.length)
    (hin : ∀ i < count, base + n2 * dst i < a.length) :
    ∃ s', ((List.range count).foldlM (fun s i => do
        let v ← getAt ((List.range count).map fun i => a.getD (base + n2 * src i) 0) i
        setAt s (base + n2 * dst i) v) s : Outcome PyErr (List Int)) = .ok s' ∧
        s'.length = a.length ∧
      (∀ i < count, s'[base + n2 * dst i]? = a[base + n2 * src i]?) ∧
      ∀ p, (∀ i < count, p ≠ base + n2 * dst i) → s'[p]? = s[p]? := by
  obtain ⟨s', hrun, hlen', hwant, hkeep⟩ :=
    foldlM_writes (ε := PyErr) (a := s) (l := List.range count)
    (f := fun s i => do
      let v ← getAt ((List.range count).map fun i => a.getD (base + n2 * src i) 0) i
      setAt s (base + n2 * dst i) v)
    (fun i => base + n2 * dst i) (fun i => a.getD (base + n2 * src i) 0) (fun _ _ => False)
    (List.pairwise_lt_range.imp_of_mem fun hx hy hlt => ⟨fun heq => Nat.ne_of_lt hlt
      (hdst _ (List.mem_range.1 hx) _ (List.mem_range.1 hy) (place_inj hn2 heq)), fun h => h⟩)
    fun i hi => by
      have hi' := List.mem_range.1 hi
      refine ⟨by rw [hlen]; exact hin i hi', fun t ht _ => ?_⟩
      have hat : ((List.range count).map fun i => a.getD (base + n2 * src i) 0)[i]? =
          some (a.getD (base + n2 * src i) 0) := by
        rw [List.getElem?_map, List.getElem?_range hi']
        rfl
      rw [getAt_of_some hat, ok_bind, setAt_of_lt (by rw [ht, hlen]; exact hin i hi')]
  refine ⟨s', hrun, hlen'.trans hlen, fun i hi => ?_, fun p hp => hkeep p fun i hi =>
    hp i (List.mem_range.1 hi)⟩
  rw [hwant i (List.mem_range.2 hi), List.getD_eq_getElem _ _ (hsrc i hi)]
  exact (List.getElem?_eq_getElem (hsrc i hi)).symm

theorem shuffle_permutes : Permutes shuffle pick := by
  intro n n2 base a hn2 hbase hin
  obtain ⟨s, hmoves, hlen, hmoved, hkeep⟩ :=
    foldlM_moves (ε := PyErr) (a := a) (l := List.range' 1 (half n - 1))
    (fun i => base + n2 * (2 * i)) (fun i => base + n2 * i)
    (List.Pairwise.imp (fun hlt => ⟨fun heq => Nat.ne_of_lt hlt (place_inj hn2 heq),
      fun heq => by have := place_inj hn2 heq; omega⟩) List.pairwise_lt_range')
    fun i hi => by
      have hi' := List.mem_range'_1.1 hi
      unfold half at hi'
      exact ⟨hin _ (by omega), hin _ (by omega)⟩
  obtain ⟨s', hback, hlen', hodd, heven⟩ := restoreLine base (s := s) (a := a) hn2 (n / 2)
    (fun i => 2 * i + 1) (fun i => half n + i) (fun i _ j _ h => by omega) hlen
    (fun i hi => hin _ (by omega)) (fun i hi => hin _ (by unfold half; omega))
  refine ⟨s', ?_, hlen', ?_, ?_⟩
  · unfold shuffle
    rw [if_pos hbase, mapM_getAt (fun i => base + n2 * (2 * i + 1)) 0
      fun i hi => hin _ (by have := List.mem_range.1 hi; omega), ok_bind, hmoves]
    exact hback
  · intro j hj
    unfold pick
    by_cases hfront : j < half n
    · rw [if_pos hfront, heven _ fun i hi heq => by have := place_inj hn2 heq; omega]
      by_cases hzero : j = 0
      · rw [hkeep _ fun i hi heq => by
          have := place_inj hn2 heq
          have := List.mem_range'_1.1 hi
          omega, hzero]
      · exact hmoved j (List.mem_range'_1.2 ⟨by omega, by omega⟩)
    · have hi : j - half n < n / 2 := by
        unfold half at *
        omega
      have hat := hodd (j - half n) hi
      rw [Nat.add_sub_cancel' (Nat.le_of_not_lt hfront)] at hat
      rw [if_neg hfront, hat]
  · intro p hp
    rw [heven p fun i hi => hp _ (by unfold half; omega), hkeep p fun i hi => hp _ (by
      have := List.mem_range'_1.1 hi
      unfold half at this
      omega)]

theorem unshuffle_permutes : Permutes unshuffle unpick := by
  intro n n2 base a hn2 hbase hin
  obtain ⟨s, hmoves, hlen, hmoved, hkeep⟩ :=
    foldlM_moves (ε := PyErr) (a := a) (l := (List.range (half n)).reverse)
    (fun i => base + n2 * i) (fun i => base + n2 * (2 * i))
    (List.pairwise_reverse.2 (List.pairwise_lt_range.imp fun hlt =>
      ⟨fun heq => by have := place_inj hn2 heq; omega,
        fun heq => by have := place_inj hn2 heq; omega⟩))
    fun i hi => by
      have hi' := List.mem_range.1 (List.mem_reverse.1 hi)
      unfold half at hi'
      exact ⟨hin _ (by omega), hin _ (by omega)⟩
  obtain ⟨s', hback, hlen', hodd, heven⟩ := restoreLine base (s := s) (a := a) hn2 (n / 2)
    (fun i => half n + i) (fun i => 2 * i + 1) (fun i _ j _ h => by omega) hlen
    (fun i hi => hin _ (by unfold half; omega)) (fun i hi => hin _ (by omega))
  refine ⟨s', ?_, hlen', ?_, ?_⟩
  · unfold unshuffle
    rw [if_pos hbase, mapM_getAt (fun i => base + n2 * (half n + i)) 0
      fun i hi => hin _ (by have := List.mem_range.1 hi; unfold half; omega), ok_bind, hmoves]
    exact hback
  · intro j hj
    unfold unpick
    by_cases hparity : j % 2 = 0
    · have hmem : j / 2 ∈ (List.range (half n)).reverse :=
        List.mem_reverse.2 (List.mem_range.2 (half_lt hj))
      have hat := hmoved (j / 2) hmem
      rw [show 2 * (j / 2) = j by omega] at hat
      rw [if_pos hparity, heven _ fun i hi heq => by have := place_inj hn2 heq; omega, hat]
    · have hat := hodd (j / 2) (by omega)
      rw [show 2 * (j / 2) + 1 = j by omega] at hat
      rw [if_neg hparity, hat]
  · intro p hp
    rw [heven p fun i hi => hp _ (by omega), hkeep p fun i hi => hp _ (by
      have := List.mem_range.1 (List.mem_reverse.1 hi)
      unfold half at this
      omega)]

end

/-! ## Cells -/

/-- The array has the values of `F` in its first `nx` rows of `ny`. -/
def HasCells (a : List Int) (n nx ny : Nat) (F : Nat → Nat → Int) : Prop :=
  ∀ row < nx, ∀ col < ny, a[n * row + col]? = some (F row col)

/-- The block of a cell function; cells off the edge are empty. -/
def quadAt (F : Nat → Nat → Int) (nx ny i j : Nat) : Quad :=
  (⟨F (2 * i) (2 * j), F (2 * i) (2 * j + 1), F (2 * i + 1) (2 * j),
    F (2 * i + 1) (2 * j + 1)⟩ : Quad).cut
    (decide (2 * i + 1 < nx)) (decide (2 * j + 1 < ny))

/-- The values of the cells of blocks. -/
def cellsOf (h : Nat → Nat → Quad) (row col : Nat) : Int :=
  (h (row / 2) (col / 2)).get (cellAt row col).bit

section

variable {n nx ny : Nat} {a : List Int} {F : Nat → Nat → Int}

theorem HasCells.covers (h : HasCells a n nx ny F) : Covers a.length n nx ny :=
  fun row hrow col hcol =>
  (List.getElem?_eq_some_iff.1 (h row hrow col hcol)).1

theorem cut_cut (below right : Bool) (q : Quad) :
    (q.cut below right).cut below right = q.cut below right := by
  cases below <;> cases right <;> rfl

theorem map_get (f : Int → Int) (q : Quad) (bit : Nat) : (q.map f).get bit = f (q.get bit) := by
  match bit with
  | 0 | 1 | 2 | _ + 3 => rfl

theorem map_cut {f : Int → Int} (hf : f 0 = 0) (below right : Bool) (q : Quad) :
    (q.map f).cut below right = (q.cut below right).map f := by
  cases below <;> cases right <;> simp [Quad.cut, Quad.map, hf]

/-- A cell is found in its block. -/
theorem cellsOf_quadAt {row col : Nat} (hrow : row < nx) (hcol : col < ny) :
    cellsOf (quadAt F nx ny) row col = F row col := by
  unfold cellsOf quadAt cellAt
  rcases Nat.mod_two_eq_zero_or_one row with hr | hr <;>
    rcases Nat.mod_two_eq_zero_or_one col with hc | hc
  · have h1 : 2 * (row / 2) = row := by omega
    have h2 : 2 * (col / 2) = col := by omega
    simp [hr, hc, Quad.get, Quad.cut, h1, h2]
  · have h1 : 2 * (row / 2) = row := by omega
    have h2 : 2 * (col / 2) + 1 = col := by omega
    simp [hr, hc, Quad.get, Quad.cut, h1, h2, hcol]
  · have h1 : 2 * (row / 2) + 1 = row := by omega
    have h2 : 2 * (col / 2) = col := by omega
    simp [hr, hc, Quad.get, Quad.cut, h1, h2, hrow]
  · have h1 : 2 * (row / 2) + 1 = row := by omega
    have h2 : 2 * (col / 2) + 1 = col := by omega
    simp [hr, hc, Quad.get, Quad.cut, h1, h2, hrow, hcol]

/-- The block of the cells of blocks. -/
theorem quadAt_cellsOf (h : Nat → Nat → Quad) (i j : Nat) :
    quadAt (cellsOf h) nx ny i j = (h i j).cut (decide (2 * i + 1 < nx))
      (decide (2 * j + 1 < ny)) := by
  have hi : (2 * i + 1) / 2 = i := by omega
  have hj : (2 * j + 1) / 2 = j := by omega
  have hi' : 2 * i / 2 = i := by omega
  have hj' : 2 * j / 2 = j := by omega
  simp [quadAt, cellsOf, cellAt, Quad.get, hi, hj, hi', hj']

/-- Every block of a rectangle is replaced by what `f` makes of it. -/
theorem mapBlocks_spec {f : Bool → Bool → Quad → Outcome PyErr Quad} {h : Nat → Nat → Quad}
    (ha : HasCells a n nx ny F) (hny : ny ≤ n) (hf : ∀ i < half nx, ∀ j < half ny,
      f (decide (2 * i + 1 < nx)) (decide (2 * j + 1 < ny)) (quadAt F nx ny i j) = .ok (h i j)) :
    ∃ a', (blocks nx ny).foldlM (mapBlock f n nx ny) a = .ok a' ∧ a'.length = a.length ∧
      HasCells a' n nx ny (cellsOf h) ∧ ∀ p, (∀ row < nx, ∀ col < ny, p ≠ n * row + col) →
      a'[p]? = a[p]? := by
  have hcovers := ha.covers
  have hblocks := foldlM_blocks n nx ny (f := mapBlock f n nx ny) (a := a) (blocks nx ny) id
    (grid_pairwise fun _ _ h => h) (fun block h => ⟨block, h, rfl⟩) hny
    (fun p => some (cellsOf h (p / n) (p % n))) ?_
  · obtain ⟨a', hrun, hlen, hwant, hkeep⟩ := hblocks
    refine ⟨a', hrun, hlen, fun row hrow col hcol => ?_, hkeep⟩
    have hplace : (n * row + col) / n = row ∧ (n * row + col) % n = col :=
      place_div_mod (Nat.lt_of_lt_of_le hcol hny)
    rw [hwant row hrow col hcol, hplace.1, hplace.2]
  · intro block hblock t ht hcells
    obtain ⟨i, j⟩ := block
    obtain ⟨hi, hj⟩ := mem_blocks.1 hblock
    have hread : ∀ row col, row / 2 = i → col / 2 = j → row < nx → col < ny →
        t[n * row + col]? = some (F row col) := by
      intro row col hr hc hrow hcol
      have hcell := hcells (cellAt row col) (by
        have hmem := mem_cells_of_lt hrow hcol
        rw [hr, hc] at hmem
        exact hmem)
      exact hcell.trans (ha row hrow col hcol)
    have hin : 2 * i < nx ∧ 2 * j < ny := by
      unfold half at hi hj
      omega
    have h00 : (getAt t (n * (2 * i) + 2 * j) : Outcome PyErr Int) = .ok (F (2 * i) (2 * j)) :=
      getAt_of_some (hread _ _ (by omega) (by omega) hin.1 hin.2)
    have h01 : readCell t (decide (2 * j + 1 < ny)) (n * (2 * i) + (2 * j + 1)) =
        .ok (if decide (2 * j + 1 < ny) then F (2 * i) (2 * j + 1) else 0) := by
      unfold readCell
      by_cases hr : 2 * j + 1 < ny
      · simp only [hr, decide_true, if_true]
        exact getAt_of_some (hread _ _ (by omega) (by omega) hin.1 hr)
      · simp only [hr, decide_false]
        rfl
    have h10 : readCell t (decide (2 * i + 1 < nx)) (n * (2 * i + 1) + 2 * j) =
        .ok (if decide (2 * i + 1 < nx) then F (2 * i + 1) (2 * j) else 0) := by
      unfold readCell
      by_cases hb : 2 * i + 1 < nx
      · simp only [hb, decide_true, if_true]
        exact getAt_of_some (hread _ _ (by omega) (by omega) hb hin.2)
      · simp only [hb, decide_false]
        rfl
    have h11 : readCell t (decide (2 * i + 1 < nx) && decide (2 * j + 1 < ny))
        (n * (2 * i + 1) + (2 * j + 1)) =
        .ok (if decide (2 * i + 1 < nx) && decide (2 * j + 1 < ny) then
          F (2 * i + 1) (2 * j + 1) else 0) := by
      unfold readCell
      by_cases hb : 2 * i + 1 < nx ∧ 2 * j + 1 < ny
      · simp only [hb.1, hb.2, decide_true, Bool.and_true, if_true]
        exact getAt_of_some (hread _ _ (by omega) (by omega) hb.1 hb.2)
      · have hfalse : (decide (2 * i + 1 < nx) && decide (2 * j + 1 < ny)) = false :=
          Bool.eq_false_iff.2 fun h => hb (by simpa using h)
        simp only [hfalse]
        rfl
    obtain ⟨t', ht', hlen', hwant, hkeep⟩ := foldlM_cells n nx ny (s := t)
      (f := fun u c => setAt u (c.pos n) ((h i j).get c.bit)) (l := cells nx ny (i, j))
      (fun c hc => hc)
      (cells_nodup nx ny (i, j)) hny (fun p => some (cellsOf h (p / n) (p % n)))
      fun c hc u hu _ => by
        obtain ⟨-, hcol, hcblock, hcell⟩ := mem_cells.1 hc
        have hlt : c.pos n < u.length := by
          rw [hu, ht]
          exact hcovers.pos_lt hc
        refine ⟨_, setAt_of_lt hlt _, by rw [List.length_set, hu], ?_, fun p hp =>
          List.getElem?_set_ne (Ne.symm hp)⟩
        have hplace : c.pos n / n = c.row ∧ c.pos n % n = c.col :=
          place_div_mod (Nat.lt_of_lt_of_le hcol hny)
        have hrow : i = c.row / 2 := congrArg Prod.fst hcblock
        have hcol' : j = c.col / 2 := congrArg Prod.snd hcblock
        rw [List.getElem?_set_self hlt, hplace.1, hplace.2, cellsOf, ← hrow, ← hcol', ← hcell]
    refine ⟨t', ?_, hlen'.trans ht, hwant, hkeep⟩
    unfold mapBlock
    dsimp only
    rw [h00, ok_bind, h01, ok_bind, h10, ok_bind, h11, ok_bind]
    show (f _ _ (quadAt F nx ny i j) >>= _) = _
    rw [hf i hi j hj]
    exact ht'

theorem HasCells.row_lt (h : HasCells a n nx ny F) {row col : Nat} (hrow : row < nx)
    (hcol : col < ny) :
    n * row + col < a.length := h.covers row hrow col hcol

/-- The rows of a rectangle, and then its columns. -/
theorem lines_spec {line : LineMap} {σ : Nat → Nat → Nat} (hline : Permutes line σ)
    (hσ : ∀ m, ∀ j < m, σ m j < m)
    (hx : 0 < nx) (hy : 0 < ny) (hny : ny ≤ n) (ha : HasCells a n nx ny F) :
    ∃ s a', (List.range nx).foldlM (fun a i => line ny 1 (n * i) a) a = .ok s ∧
      (List.range ny).foldlM (fun a j => line nx n j a) s = .ok a' ∧ a'.length = a.length ∧
      HasCells a' n nx ny (fun i j => F (σ nx i) (σ ny j)) ∧
      ∀ p, (∀ row < nx, ∀ col < ny, p ≠ n * row + col) → a'[p]? = a[p]? := by
  obtain ⟨s, hrows, hlen, hmoved, hkeep⟩ :=
    foldlM_lines (f := fun a i => line ny 1 (n * i) a) (a := a)
    (fun i j => n * i + 1 * j) (σ ny) (hσ ny)
    (fun i _ i' _ j hj j' hj' heq => by
      have hplace : (n * i + j) / n = i ∧ (n * i + j) % n = j :=
        place_div_mod (Nat.lt_of_lt_of_le hj hny)
      have hplace' : (n * i' + j') / n = i' ∧ (n * i' + j') % n = j' :=
        place_div_mod (Nat.lt_of_lt_of_le hj' hny)
      rw [Nat.one_mul, Nat.one_mul] at heq
      rw [← hplace.1, ← hplace'.1, heq])
    fun i hi t ht => by
      have hrow : ∀ j < ny, n * i + 1 * j < t.length := fun j hj => by
        rw [Nat.one_mul, ht]
        exact ha.row_lt hi hj
      exact hline Nat.one_pos (by have := hrow 0 hy; omega) hrow
  have hs : HasCells s n nx ny (fun i j => F i (σ ny j)) := fun row hrow col hcol => by
    have hcell := hmoved row hrow col hcol
    rw [Nat.one_mul, Nat.one_mul] at hcell
    exact hcell.trans (ha row hrow _ (hσ ny col hcol))
  obtain ⟨a', hcols, hlen', hmoved', hkeep'⟩ :=
    foldlM_lines (f := fun a j => line nx n j a) (a := s)
    (fun j i => j + n * i) (σ nx) (hσ nx)
    (fun j hj j' hj' i _ i' _ heq => by
      rw [Nat.add_comm j, Nat.add_comm j'] at heq
      have hplace : (n * i + j) / n = i ∧ (n * i + j) % n = j :=
        place_div_mod (Nat.lt_of_lt_of_le hj hny)
      have hplace' : (n * i' + j') / n = i' ∧ (n * i' + j') % n = j' :=
        place_div_mod (Nat.lt_of_lt_of_le hj' hny)
      rw [← hplace.2, ← hplace'.2, heq])
    fun j hj t ht => by
      have hcol : ∀ i < nx, j + n * i < t.length := fun i hi => by
        rw [Nat.add_comm, ht]
        exact hs.row_lt hi hj
      exact hline (by omega) (by have := hcol 0 hx; omega) hcol
  refine ⟨s, a', hrows, hcols, hlen'.trans hlen, fun row hrow col hcol => ?_, fun p hp => ?_⟩
  · have hcell := hmoved' col hcol row hrow
    rw [Nat.add_comm, Nat.add_comm col] at hcell
    exact hcell.trans (hs _ (hσ nx row hrow) col hcol)
  · rw [hkeep' p fun j hj i hi => by rw [Nat.add_comm]; exact hp i hi j hj,
      hkeep p fun i hi j hj => by rw [Nat.one_mul]; exact hp i hi j hj]

end

/-! ## A level -/

/-- The values of a level are multiples of its grain. -/
def grain (k : Nat) : Int := if k = 0 then 1 else 2 ^ (k + 1)

/-- No value of a rectangle is larger than `p`. -/
def Bounded (p : Int) (nx ny : Nat) (X : Nat → Nat → Int) : Prop :=
  ∀ row < nx, ∀ col < ny, -p ≤ X row col ∧ X row col ≤ p

/-- The average and the differences of a block, in units of its level. -/
def blockSums (X : Nat → Nat → Int) (nx ny i j : Nat) : Quad :=
  ((quadAt X nx ny i j).sums (decide (2 * i + 1 < nx)) (decide (2 * j + 1 < ny))).rounded

/-- What a level makes of a rectangle, in units of the level. -/
def levelOf (X : Nat → Nat → Int) (nx ny i j : Nat) : Int :=
  cellsOf (blockSums X nx ny) (pick nx i) (pick ny j)

section

variable {w : Nat} {checks smooth : Bool} {scale p : Int} {k n nx ny : Nat} {a : List Int}
    {X : Nat → Nat → Int}

theorem quadAt_scale (g : Int) (X : Nat → Nat → Int) (nx ny i j : Nat) :
    quadAt (fun row col => g * X row col) nx ny i j = (quadAt X nx ny i j).map (g * ·) := by
  unfold quadAt
  rw [← map_cut (f := (g * ·)) (Int.mul_zero g)]
  rfl

theorem quadAt_within (hp : 1 ≤ p) (hX : Bounded p nx ny X) {i j : Nat} (hi : i < half nx)
    (hj : j < half ny) :
    (quadAt X nx ny i j).Within p := by
  have hin : 2 * i < nx ∧ 2 * j < ny := by
    unfold half at hi hj
    omega
  have hcell (c : Bool) (x : Int) (h : c = true → -p ≤ x ∧ x ≤ p) :
      -p ≤ (if c then x else 0) ∧ (if c then x else 0) ≤ p := by
    split_ifs with hc
    · exact h hc
    · omega
  refine ⟨hX _ hin.1 _ hin.2, hcell _ _ fun h => hX _ hin.1 _ (of_decide_eq_true h),
    hcell _ _ fun h => hX _ (of_decide_eq_true h) _ hin.2, hcell _ _ fun h => ?_⟩
  rw [Bool.and_eq_true] at h
  exact hX _ (of_decide_eq_true h.1) _ (of_decide_eq_true h.2)

theorem blockSums_within (hp : 1 ≤ p) (hX : Bounded p nx ny X) {i j : Nat} (hi : i < half nx)
    (hj : j < half ny) :
    (blockSums X nx ny i j).Within (4 * p) :=
  Quad.rounded_within (Quad.sums_within (quadAt_within hp hX hi hj) _ _)

/-- The parts that are off the edge stay empty. -/
theorem blockSums_cut (X : Nat → Nat → Int) (nx ny i j : Nat) :
    (blockSums X nx ny i j).cut (decide (2 * i + 1 < nx)) (decide (2 * j + 1 < ny)) =
      blockSums X nx ny i j := by
  unfold blockSums
  cases decide (2 * i + 1 < nx) <;> cases decide (2 * j + 1 < ny) <;> rfl

theorem Quad.Within.get {q : Quad} (h : q.Within p) (bit : Nat) :
    -p ≤ q.get bit ∧ q.get bit ≤ p := by
  match bit with
  | 0 => exact h.s11
  | 1 => exact h.s10
  | 2 => exact h.s01
  | _ + 3 => exact h.s00

theorem levelOf_bounded (hp : 1 ≤ p) (hX : Bounded p nx ny X) :
    Bounded (4 * p) nx ny (levelOf X nx ny) :=
  fun _ hrow _ hcol =>
    (blockSums_within hp hX (half_lt (pick_lt hrow)) (half_lt (pick_lt hcol))).get _

theorem grain_eq (k : Nat) : grain k = 2 ^ k * 2 ^ (if k = 0 then 0 else 1) := by
  unfold grain
  split_ifs with h
  · rw [h]
    rfl
  · rw [pow_add]

theorem four_units (k : Nat) : 4 * 2 ^ k = grain k * 2 ^ (if k = 0 then 2 else 1) := by
  unfold grain
  split_ifs with h
  · rw [h]
    rfl
  · ring

/-- The first cells of a level are values of the next one. -/
theorem levelOf_front (hp : 1 ≤ p) (hX : Bounded p nx ny X) : ∃ Y, Bounded p (half nx) (half ny) Y ∧
    ∀ row < half nx, ∀ col < half ny, 2 ^ k * levelOf X nx ny row col =
      grain (k + 1) * Y row col := by
  have hcell : ∀ row < half nx, ∀ col < half ny, levelOf X nx ny row col =
      (blockSums X nx ny row col).s00 := by
    intro row hrow col hcol
    have hr : 2 * row / 2 = row := by omega
    have hc : 2 * col / 2 = col := by omega
    unfold levelOf pick cellsOf cellAt
    rw [if_pos hrow, if_pos hcol, hr, hc]
    simp [Quad.get]
  refine ⟨fun row col => (blockSums X nx ny row col).s00 / 4, fun row hrow col hcol =>
    ?_, fun row hrow col hcol => ?_⟩
  · have hbound := (blockSums_within hp hX hrow hcol).s00
    show -p ≤ (blockSums X nx ny row col).s00 / 4 ∧ (blockSums X nx ny row col).s00 / 4 ≤ p
    omega
  · have hfour : (blockSums X nx ny row col).s00 % 4 = 0 := fourAway_mod _
    have hsplit : (blockSums X nx ny row col).s00 = 4 * ((blockSums X nx ny row col).s00 / 4) := by
      omega
    have hgrain : grain (k + 1) = 2 ^ k * 4 := by
      rw [grain, if_neg (Nat.succ_ne_zero k)]
      ring
    rw [hcell row hrow col hcol, hgrain, Int.mul_assoc, ← hsplit]

variable (checks) in
/-- A level of the transform. -/
theorem htransLevel_spec (hu : Units w (2 ^ k) (16 * p)) (hp : 1 ≤ p) (hx : 0 < nx) (hy : 0 < ny)
    (hny : ny ≤ n)
    (hX : Bounded p nx ny X) (ha : HasCells a n nx ny fun row col => grain k * X row col) :
    ∃ a', htransLevel w checks k n nx ny a = .ok a' ∧ a'.length = a.length ∧
      HasCells a' n nx ny (fun row col => 2 ^ k * levelOf X nx ny row col) ∧
      ∀ p, (∀ row < nx, ∀ col < ny, p ≠ n * row + col) → a'[p]? = a[p]? := by
  obtain ⟨b, hblocks, hlen, hb, hkeep⟩ := mapBlocks_spec (f := Quad.forward w checks k)
    (h := fun i j => (blockSums X nx ny i j).map (2 ^ k * ·)) ha hny fun i hi j hj => by
      rw [quadAt_scale]
      exact forward_units hu hp (by split_ifs <;> omega) (grain_eq k) (quadAt_within hp hX hi hj)
  obtain ⟨s, a', hrows, hcols, hlen', hcells, hkeep'⟩ :=
    lines_spec shuffle_permutes (fun _ _ h => pick_lt h) hx hy hny hb
  refine ⟨a', ?_, hlen'.trans hlen, fun row hrow col hcol => ?_, fun p hp =>
    (hkeep' p hp).trans (hkeep p hp)⟩
  · rw [htransLevel, hblocks, ok_bind, hrows]
    exact hcols
  · rw [hcells row hrow col hcol]
    exact congrArg some (map_get (2 ^ k * ·) _ _)

theorem hsmooth_off (h : scale ≤ 1) (a : List Int) : hsmooth w checks scale n nx ny a = .ok a := by
  have hzero : scale / 2 ≤ 0 := by omega
  exact if_pos hzero

/-- The inverse of a level. -/
theorem hinvLevel_spec (hu : Units w (2 ^ k) (16 * p)) (hp : 1 ≤ p) (hx : 0 < nx) (hy : 0 < ny)
    (hny : ny ≤ n) (hoff : smooth = false ∨ scale ≤ 1) (hX : Bounded p nx ny X)
    (ha : HasCells a n nx ny fun row col => 2 ^ k * levelOf X nx ny row col) :
    ∃ a', hinvLevel w checks smooth scale k n nx ny a = .ok a' ∧ a'.length = a.length ∧
      HasCells a' n nx ny (fun row col => grain k * X row col) ∧
      ∀ p, (∀ row < nx, ∀ col < ny, p ≠ n * row + col) → a'[p]? = a[p]? := by
  obtain ⟨s, b, hrows, hcols, hlen, hb, hkeep⟩ :=
    lines_spec unshuffle_permutes (fun _ _ h => unpick_lt h) hx hy hny ha
  have hblocks : HasCells b n nx ny fun row col => 2 ^ k * cellsOf (blockSums X nx ny) row col := by
    intro row hrow col hcol
    rw [hb row hrow col hcol]
    show some (2 ^ k * cellsOf _ (pick nx (unpick nx row)) (pick ny (unpick ny col))) = _
    rw [pick_unpick hrow, pick_unpick hcol]
  obtain ⟨a', hrun, hlen', ha', hkeep'⟩ := mapBlocks_spec (f := Quad.inverse w checks k)
    (h := fun i j => (quadAt X nx ny i j).map (grain k * ·)) hblocks hny fun i hi j hj => by
      have hn : (0 : Int) ≤ (if k = 0 then 0 else 2 ^ k / 2 - 1) ∧
          (if k = 0 then 0 else 2 ^ k / 2 - 1) < (2 : Int) ^ k := by
        have hpow : (0 : Int) < 2 ^ k := by positivity
        rcases k with _ | k
        · exact ⟨le_rfl, hpow⟩
        · rw [if_neg (Nat.succ_ne_zero k)]
          have heven : (2 : Int) ^ (k + 1) = 2 * 2 ^ k := by ring
          omega
      rw [quadAt_scale, quadAt_cellsOf, blockSums_cut]
      exact inverse_units hu hp (four_units k) hn (quadAt_within hp hX hi hj) (cut_cut _ _ _)
  refine ⟨a', ?_, hlen'.trans hlen, fun row hrow col hcol => ?_, fun p hp =>
    (hkeep' p hp).trans (hkeep p hp)⟩
  · rw [hinvLevel, hrows, ok_bind, hcols, ok_bind]
    cases smooth with
    | false => exact hrun
    | true =>
      show (hsmooth w checks scale n nx ny b >>= _) = _
      rw [hsmooth_off (hoff.resolve_left Bool.noConfusion)]
      exact hrun
  · rw [ha' row hrow col hcol]
    refine congrArg some ((map_get (grain k * ·) _ _).trans ?_)
    show grain k * cellsOf (quadAt X nx ny) row col = _
    rw [cellsOf_quadAt hrow hcol]

/-! ## All levels -/

/-- A level and its inverse leave the array as it was. -/
theorem level_undone (hu : Units w (2 ^ k) (16 * p)) (hp : 1 ≤ p) (hx : 0 < nx) (hy : 0 < ny)
    (hny : ny ≤ n) (hoff : smooth = false ∨ scale ≤ 1) (hX : Bounded p nx ny X)
    (ha : HasCells a n nx ny fun row col => grain k * X row col) :
    ∃ a', htransLevel w checks k n nx ny a = .ok a' ∧ a'.length = a.length ∧
      hinvLevel w checks smooth scale k n nx ny a' = .ok a ∧
      HasCells a' n nx ny (fun row col => 2 ^ k * levelOf X nx ny row col) ∧
      ∀ p, (∀ row < nx, ∀ col < ny, p ≠ n * row + col) → a'[p]? = a[p]? := by
  obtain ⟨a', hrun, hlen, hcells, hkeep⟩ := htransLevel_spec checks hu hp hx hy hny hX ha
  obtain ⟨b, hback, hlen', hcells', hkeep'⟩ := hinvLevel_spec hu hp hx hy hny hoff hX hcells
  have hsame : b = a := by
    refine List.ext_getElem? fun q => ?_
    by_cases hq : ∃ row < nx, ∃ col < ny, q = n * row + col
    · obtain ⟨row, hrow, col, hcol, rfl⟩ := hq
      rw [hcells' row hrow col hcol, ha row hrow col hcol]
    · have hout : ∀ row < nx, ∀ col < ny, q ≠ n * row + col :=
        fun row hrow col hcol heq => hq ⟨row, hrow, col, hcol, heq⟩
      rw [hkeep' q hout, hkeep q hout]
  rw [hsame] at hback
  exact ⟨a', hrun, hlen, hback, hcells, hkeep⟩

end

section

variable {w : Nat} {checks smooth : Bool} {scale p : Int} {n nx ny : Nat}

/-- The values of a rectangle are as small as those around it. -/
theorem level_bounded {u m bound : Int} {a b : List Int} {F : Nat → Nat → Int} (hu : 0 < u)
    (hsmall : u * m ≤ bound)
    (hF : Bounded m nx ny F) (hb : HasCells b n nx ny fun row col => u * F row col)
    (hkeep : ∀ q, (∀ row < nx, ∀ col < ny, q ≠ n * row + col) → b[q]? = a[q]?)
    (ha : ∀ v ∈ a, -bound ≤ v ∧ v ≤ bound) : ∀ v ∈ b, -bound ≤ v ∧ v ≤ bound := by
  intro v hv
  obtain ⟨q, hq⟩ := List.getElem?_of_mem hv
  by_cases hin : ∃ row < nx, ∃ col < ny, q = n * row + col
  · obtain ⟨row, hrow, col, hcol, rfl⟩ := hin
    rw [hb row hrow col hcol] at hq
    rw [← Option.some.inj hq]
    obtain ⟨hlo, hhi⟩ := hF row hrow col hcol
    have h1 : u * -m ≤ u * F row col := Int.mul_le_mul_of_nonneg_left hlo (Int.le_of_lt hu)
    have h2 : u * F row col ≤ u * m := Int.mul_le_mul_of_nonneg_left hhi (Int.le_of_lt hu)
    rw [Int.mul_neg] at h1
    show -bound ≤ u * F row col ∧ u * F row col ≤ bound
    exact ⟨by omega, by omega⟩
  · rw [hkeep q fun row hrow col hcol heq => hin ⟨row, hrow, col, hcol, heq⟩] at hq
    exact ha v (List.mem_of_getElem? hq)

variable (checks) in
/-- The levels from `k` on, and back. -/
theorem htransLevels_undone (hp : 1 ≤ p) (hx : 0 < nx) (hy : 0 < ny) (hny : ny ≤ n)
    (hoff : smooth = false ∨ scale ≤ 1)
    (bound : Int) (count : Nat) : ∀ (k : Nat) (a : List Int) (X : Nat → Nat → Int),
    (∀ l < k + count, Units w (2 ^ l) (16 * p) ∧ 2 ^ l * (4 * p) ≤ bound) →
    Bounded p (halves k nx) (halves k ny) X →
    HasCells a n (halves k nx) (halves k ny) (fun row col => grain k * X row col) →
    (∀ v ∈ a, -bound ≤ v ∧ v ≤ bound) →
    ∃ a' Y, htransLevels w checks n count k (halves k nx) (halves k ny) a = .ok a' ∧
      a'.length = a.length ∧
      (∀ v ∈ a', -bound ≤ v ∧ v ≤ bound) ∧
      Bounded p (halves (k + count) nx) (halves (k + count) ny) Y ∧
      HasCells a' n (halves (k + count) nx) (halves (k + count) ny) (fun row col =>
        grain (k + count) * Y row col) ∧
      ∀ x y : Axis, x.Holds nx (2 ^ (k + count)) → y.Holds ny (2 ^ (k + count)) →
        ∃ x' y' : Axis, x'.Holds nx (2 ^ k) ∧ y'.Holds ny (2 ^ k) ∧
          hinvLevels w checks smooth scale n (k + count) x y (2 ^ (k + count)) a' =
            hinvLevels w checks smooth scale n k x' y' (2 ^ k) a := by
  induction count with
  | zero =>
    intro k a X _ hX ha hbound
    exact ⟨a, X, rfl, rfl, hbound, hX, ha, fun x y hx hy => ⟨x, y, hx, hy, rfl⟩⟩
  | succ count ih =>
    intro k a X hroom hX ha hbound
    obtain ⟨hu, hsmall⟩ := hroom k (by omega)
    have hnyk : halves k ny ≤ n := Nat.le_trans (halves_le k ny) hny
    obtain ⟨b, hrun, hlen, hback, hcells, hkeep⟩ :=
      level_undone hu hp (halves_pos hx k) (halves_pos hy k) hnyk hoff hX ha
    obtain ⟨Y, hY, hfront⟩ := levelOf_front (k := k) hp hX
    have hb : HasCells b n (halves (k + 1) nx) (halves (k + 1) ny) fun row col =>
        grain (k + 1) * Y row col := by
      intro row hrow col hcol
      rw [hcells row (Nat.lt_of_lt_of_le hrow (half_le _)) col
        (Nat.lt_of_lt_of_le hcol (half_le _))]
      exact congrArg some (hfront row hrow col hcol)
    have hbounded := level_bounded hu.pos hsmall (levelOf_bounded hp hX) hcells hkeep hbound
    obtain ⟨a', Z, hrest, hlen', hbound', hZ, ha', hinv⟩ := ih (k + 1) b Y
      (fun l hl => hroom l (by omega)) hY hb hbounded
    rw [show k + 1 + count = k + (count + 1) by omega] at hZ ha' hinv
    refine ⟨a', Z, ?_, hlen'.trans hlen, hbound', hZ, ha', fun x y hx hy => ?_⟩
    · rw [htransLevels, hrun]
      exact hrest
    · obtain ⟨x₁, y₁, hx₁, hy₁, hsame⟩ := hinv x y hx hy
      have hx₂ : (x₁.next (2 ^ k)).Holds nx (2 ^ k) :=
        Axis.Holds.next (by rw [← Nat.pow_succ']; exact hx₁)
      have hy₂ : (y₁.next (2 ^ k)).Holds ny (2 ^ k) :=
        Axis.Holds.next (by rw [← Nat.pow_succ']; exact hy₁)
      have hc : 2 ^ (k + 1) / 2 = 2 ^ k := by
        rw [Nat.pow_succ]
        exact Nat.mul_div_cancel _ (by decide)
      refine ⟨_, _, hx₂, hy₂, ?_⟩
      rw [hsame, hinvLevels, hc, hx₂.n_eq, hy₂.n_eq, hback]
      rfl

/-- A tile of values up to `p` that are small enough for its axes. -/
structure TileFits (w : Nat) (p : Int) (nx ny : Nat) (a : List Int) : Prop where
  length : a.length = nx * ny
  rows : 0 < nx
  cols : 0 < ny
  positive : 1 ≤ p
  small : ∀ v ∈ a, -p ≤ v ∧ v ≤ p
  room : p * 2 ^ (log2n (max nx ny) + 3) < 2 ^ (w - 1)

theorem hinv_eq {a : List Int} {l : Nat} (h : log2n (max nx ny) = l + 1) :
    hinv w checks a nx ny smooth scale = (do
      let a0 ← getAt a 0
      let a0 ← roundTo w checks (2 ^ (l + 2)) (2 ^ (l + 1)) (2 ^ (l + 1) - 1) a0
      let a ← setAt a 0 a0
      hinvLevels w checks smooth scale ny (l + 1) ⟨1, nx⟩ ⟨1, ny⟩ (2 ^ (l + 1)) a) := by
  unfold hinv
  rw [h]

theorem TileFits.cells {a : List Int} (h : TileFits w p nx ny a) :
    HasCells a ny nx ny (fun row col => grain 0 * a.getD (ny * row + col) 0) ∧
      Bounded p nx ny fun row col => a.getD (ny * row + col) 0 := by
  have hat : ∀ row < nx, ∀ col < ny, a[ny * row + col]? = some (a.getD (ny * row + col) 0) := by
    intro row hrow col hcol
    have hlt := covers_rows (Nat.le_of_eq h.length.symm) row hrow col hcol
    rw [List.getD_eq_getElem _ _ hlt]
    exact List.getElem?_eq_getElem hlt
  refine ⟨fun row hrow col hcol => ?_, fun row hrow col hcol =>
    h.small _ (List.mem_of_getElem? (hat row hrow col hcol))⟩
  rw [hat row hrow col hcol]
  exact congrArg some (Int.one_mul _).symm

theorem TileFits.units {a : List Int} {m : Nat} (h : TileFits w p nx ny a)
    (hm : log2n (max nx ny) = m + 1) :
    ∀ i < m + 1, Units w (2 ^ i) (16 * p) ∧ 2 ^ i * (4 * p) ≤ p * 2 ^ (m + 2) := by
  intro i hi
  have hp := h.positive
  have hroom := h.room
  have hpow : (2 : Int) ^ i ≤ 2 ^ m := pow_le_pow_right₀ (by decide) (by omega)
  have htop : p * (2 : Int) ^ (log2n (max nx ny) + 3) = 2 ^ m * (16 * p) := by
    rw [hm]
    ring
  refine ⟨⟨by positivity, ?_⟩, ?_⟩
  · calc (2 : Int) ^ i * (16 * p) ≤ 2 ^ m * (16 * p) :=
      Int.mul_le_mul_of_nonneg_right hpow (by omega)
      _ < 2 ^ (w - 1) := by rw [← htop]; exact hroom
  · calc (2 : Int) ^ i * (4 * p) ≤ 2 ^ m * (4 * p) := Int.mul_le_mul_of_nonneg_right hpow (by omega)
      _ = p * 2 ^ (m + 2) := by ring

/-- The sum of the pixels is a multiple of its grain, and is not rounded. -/
theorem roundTo_sum {m : Nat} {y : Int} (hu : Units w (2 ^ m) (16 * p)) (hp : 1 ≤ p)
    (hy : -p ≤ y ∧ y ≤ p) :
    roundTo w checks (2 ^ (m + 2)) (2 ^ (m + 1)) (2 ^ (m + 1) - 1) (grain (m + 1) * y) =
      .ok (grain (m + 1) * y) := by
  have hgrain : grain (m + 1) = 2 ^ m * 4 := by
    rw [grain, if_neg (Nat.succ_ne_zero m)]
    ring
  have hmask : (2 : Int) ^ (m + 2) = 4 * 2 ^ m := by ring
  have hhalf : (2 : Int) ^ (m + 1) = 2 * 2 ^ m := by ring
  have hpos := hu.pos
  rw [hgrain, hmask, hhalf, Int.mul_assoc]
  exact hu.roundTo (by omega) (by omega) (by omega) (by omega) (by omega)

variable (checks) in
/-- Nothing overflows in the transform of a tile, and its inverse gives the tile back. -/
theorem htrans_undone {a : List Int} (h : TileFits w p nx ny a) (hlog : 0 < log2n (max nx ny))
    (hoff : smooth = false ∨ scale ≤ 1) :
    ∃ t, htrans w checks a nx ny = .ok t ∧ t.length = nx * ny ∧
      (∀ v ∈ t, -(p * 2 ^ (log2n (max nx ny) + 1)) ≤ v ∧ v ≤ p * 2 ^ (log2n (max nx ny) + 1)) ∧
      hinv w checks t nx ny smooth scale = .ok a := by
  have hmax := le_two_pow_log2n (max nx ny)
  obtain ⟨m, hm⟩ : ∃ m, log2n (max nx ny) = m + 1 := ⟨log2n (max nx ny) - 1, by omega⟩
  have hunits := h.units hm
  obtain ⟨hcells, hbounded⟩ := h.cells
  have hp := h.positive
  rw [hm] at hmax ⊢
  obtain ⟨t, y, hrun, htlen, hbound, hy, ht, hback⟩ :=
    htransLevels_undone checks hp h.rows h.cols le_rfl hoff
    (p * 2 ^ (m + 2)) (m + 1) 0 a _ (fun l hl => hunits l (by omega)) hbounded hcells fun v hv => by
      have hsmall := h.small v hv
      have hpow : p * 1 ≤ p * 2 ^ (m + 2) :=
        Int.mul_le_mul_of_nonneg_left (one_le_pow₀ (by decide)) (by omega)
      omega
  rw [Nat.zero_add] at hy ht hback
  obtain ⟨x', y', -, -, hinverse⟩ :=
    hback _ _ (Axis.Holds.start h.rows (by omega)) (Axis.Holds.start h.cols (by omega))
  refine ⟨t, ?_, htlen.trans h.length, hbound, ?_⟩
  · rw [htrans, hm]
    exact hrun
  · have hfirst := ht 0 (halves_pos h.rows _) 0 (halves_pos h.cols _)
    rw [Nat.mul_zero, Nat.add_zero] at hfirst
    obtain ⟨hin, hvalue⟩ := List.getElem?_eq_some_iff.1 hfirst
    have hset : t.set 0 (grain (m + 1) * y 0 0) = t := by
      show t.set 0 ((fun row col => grain (m + 1) * y row col) 0 0) = t
      rw [← hvalue]
      exact List.set_getElem_self hin
    rw [hinv_eq hm, getAt_of_some hfirst, ok_bind,
      roundTo_sum (hunits m (Nat.lt_succ_self m)).1 hp
        (hy 0 (halves_pos h.rows _) 0 (halves_pos h.cols _)), ok_bind,
      setAt_of_lt hin, ok_bind, hset, hinverse]
    rfl

theorem log2n_pos {n : Nat} (h : 2 ≤ n) : 0 < log2n n := by
  have hle := le_two_pow_log2n n
  rcases Nat.eq_zero_or_pos (log2n n) with hzero | hpos
  · rw [hzero] at hle
    omega
  · exact hpos

/-- The H-transform of a tile of numbers of `b` bits stays within words of `b + l + 4`
bits when no axis is longer than `2 ^ l`, and the inverse gives the tile back. -/
theorem hinv_htrans {a : List Int} {b l : Nat} (hlen : a.length = nx * ny)
    (hx : 0 < nx) (hy : 0 < ny)
    (hmany : 2 ≤ max nx ny) (hmax : max nx ny ≤ 2 ^ l) (hb : 0 < b) (hfits : ∀ v ∈ a, Fits b v)
    (hw : b + l + 4 ≤ w) (hoff : smooth = false ∨ scale ≤ 1) :
    ∃ t, htrans w checks a nx ny = .ok t ∧ t.length = a.length ∧ (∀ v ∈ t, Fits (b + l + 2) v) ∧
      hinv w checks t nx ny smooth scale = .ok a := by
  have hlog := log2n_le hmax
  have hpow : (2 : Int) ^ log2n (max nx ny) ≤ 2 ^ l := pow_le_pow_right₀ (by decide) hlog
  have htile : TileFits w (2 ^ (b - 1)) nx ny a := by
    refine ⟨hlen, hx, hy, one_le_pow₀ (by decide), fun v hv =>
      ⟨(hfits v hv).1, Int.le_of_lt (hfits v hv).2⟩, ?_⟩
    rw [← pow_add]
    exact pow_lt_pow_right₀ (by decide) (by omega)
  obtain ⟨t, hrun, htlen, hbound, hback⟩ := htrans_undone checks htile (log2n_pos hmany) hoff
  refine ⟨t, hrun, htlen.trans hlen.symm, fun v hv => ?_, hback⟩
  have hle : (2 : Int) ^ (b - 1) * 2 ^ (log2n (max nx ny) + 1) < 2 ^ (b + l + 2 - 1) := by
    rw [← pow_add]
    exact pow_lt_pow_right₀ (by decide) (by omega)
  obtain ⟨hlo, hhi⟩ := hbound v hv
  exact ⟨by omega, by omega⟩

/-- A tile of three rows and two columns. -/
theorem hinv_htrans_rows : ∃ t, htrans 32 true [5, -3, 100, 7, 0, -128] 3 2 = .ok t ∧ t.length = 6 ∧
    (∀ v ∈ t, Fits 20 v) ∧ hinv 32 true t 3 2 true 1 = .ok [5, -3, 100, 7, 0, -128] :=
  hinv_htrans (b := 16) (l := 2) rfl (by decide) (by decide) (by decide) (by decide) (by decide)
    (List.forall_iff_forall_mem.1 (by decide)) (by decide) (.inr le_rfl)

end

end RustFits.Zimage.Hcompress
