import RustFits.Zimage.Hcompress.Quadtree

/-!
# The loops over blocks

What the loops of the quadtree coder do to an array, cell by cell.  Three of them
change the array that they read; the rules of `Lib.InPlace` say that each block is
still as it was when its turn comes.

`planeCode` and `reduceCode` are the nybbles of a block, `qtreeOnebit_eq` and
`qtreeReduce_eq` the arrays of them.  `qtreeCopy_spec` spreads nybbles over the cells of
their blocks, `qtreeBitins_spec` sets a bit in the cells.
-/

namespace RustFits.Zimage.Hcompress

open Outcome

/-! ## Cells -/

/-- The cell at a row and a column. -/
def cellAt (row col : Nat) : Cell := ⟨3 - 2 * (row % 2) - col % 2, row, col⟩

/-- The cell of a block that a bit stands for. -/
def cellOf (block : Nat × Nat) (bit : Nat) : Cell :=
  ⟨bit, 2 * block.1 + (1 - bit / 2), 2 * block.2 + (1 - bit % 2)⟩

section

variable {nx ny n : Nat} {block : Nat × Nat} {c c' : Cell}

theorem half_lt {i : Nat} (h : i < nx) : i / 2 < half nx := by
  unfold half
  omega

theorem mem_cells : c ∈ cells nx ny block ↔
    c.row < nx ∧ c.col < ny ∧ block = (c.row / 2, c.col / 2) ∧ c = cellAt c.row c.col := by
  obtain ⟨i, j⟩ := block
  obtain ⟨bit, row, col⟩ := c
  simp only [cells, cellAt, List.mem_filter, List.mem_cons, Cell.mk.injEq, List.not_mem_nil,
    or_false, Prod.mk.injEq, decide_eq_true_eq, and_true]
  omega

theorem mem_cells_of_lt {row col : Nat} (hrow : row < nx) (hcol : col < ny) :
    cellAt row col ∈ cells nx ny (row / 2, col / 2) := mem_cells.2 ⟨hrow, hcol, rfl, rfl⟩

theorem mem_blocks : block ∈ blocks nx ny ↔ block.1 < half nx ∧ block.2 < half ny := mem_grid

theorem blocks_length : (blocks nx ny).length = half nx * half ny := grid_length _ _

/-- The blocks are counted row by row. -/
theorem mem_blocks_zipIdx {b : Nat × Nat} {k : Nat} (h : (b, k) ∈ (blocks nx ny).zipIdx) :
    b.1 < half nx ∧ b.2 < half ny ∧ k = half ny * b.1 + b.2 := by
  obtain ⟨i, j⟩ := b
  exact mem_grid_zipIdx.1 h

theorem pos_inj (hc : c.col < n) (hc' : c'.col < n) (h : c.pos n = c'.pos n) :
    c.row = c'.row ∧ c.col = c'.col := by
  have hn : 0 < n := Nat.lt_of_le_of_lt (Nat.zero_le _) hc
  have hrow := congrArg (· / n) h
  have hcol := congrArg (· % n) h
  simp only [Cell.pos, Nat.mul_add_div hn, Nat.div_eq_of_lt hc, Nat.div_eq_of_lt hc',
    Nat.add_zero] at hrow
  simp only [Cell.pos, Nat.mul_add_mod, Nat.mod_eq_of_lt hc, Nat.mod_eq_of_lt hc'] at hcol
  exact ⟨hrow, hcol⟩

/-- Cells at one place are one cell, in one block. -/
theorem cells_apart (hny : ny ≤ n) {block' : Nat × Nat} (hc : c ∈ cells nx ny block)
    (hc' : c' ∈ cells nx ny block') (h : c.pos n = c'.pos n) : c = c' ∧ block = block' := by
  obtain ⟨-, hcol, hblock, hcell⟩ := mem_cells.1 hc
  obtain ⟨-, hcol', hblock', hcell'⟩ := mem_cells.1 hc'
  obtain ⟨hr, hl⟩ := pos_inj (Nat.lt_of_lt_of_le hcol hny) (Nat.lt_of_lt_of_le hcol' hny) h
  exact ⟨by rw [hcell, hcell', hr, hl], by rw [hblock, hblock', hr, hl]⟩

theorem cells_nodup (nx ny : Nat) (block : Nat × Nat) : (cells nx ny block).Nodup := by
  refine List.Nodup.filter _ ?_
  simp

/-- An array holds the cells of a rectangle. -/
def Covers (size n nx ny : Nat) : Prop := ∀ row < nx, ∀ col < ny, n * row + col < size

theorem Covers.pos_lt {size : Nat} (h : Covers size n nx ny) (hc : c ∈ cells nx ny block) :
    c.pos n < size :=
  h c.row (mem_cells.1 hc).1 c.col (mem_cells.1 hc).2.1

/-- Rows without gaps. -/
theorem covers_rows {size : Nat} (h : nx * ny ≤ size) : Covers size ny nx ny := by
  intro row hrow col hcol
  calc ny * row + col < ny * row + ny := by omega
    _ = (row + 1) * ny := by ring
    _ ≤ nx * ny := Nat.mul_le_mul_right ny hrow
    _ ≤ size := h

theorem half_le (n : Nat) : half n ≤ n := by
  unfold half
  omega

theorem half_mul_half_le (nx ny : Nat) : half nx * half ny ≤ nx * ny :=
  Nat.mul_le_mul (half_le nx) (half_le ny)

end

/-! ## Codes -/

section

variable {w : Nat} {l : List Cell}

/-- The `or` over cells. -/
def orCells (l : List Cell) (f : Cell → BitVec w) : BitVec w := l.foldl (fun v c => v ||| f c) 0#w

theorem getLsbD_orCells (l : List Cell) (f : Cell → BitVec w) (q : Nat) :
    (orCells l f).getLsbD q = l.any fun c => (f c).getLsbD q := by
  have hfold : ∀ (l : List Cell) (v : BitVec w), (l.foldl (fun v c => v ||| f c) v).getLsbD q =
      (v.getLsbD q || l.any fun c => (f c).getLsbD q) := by
    intro l
    induction l with
    | nil => intro v; simp
    | cons c l ih =>
      intro v
      rw [List.foldl_cons, ih, List.any_cons, BitVec.getLsbD_or, Bool.or_assoc]
  rw [orCells, hfold, BitVec.getLsbD_zero, Bool.false_or]

theorem orCells_congr {f g : Cell → BitVec w} (h : ∀ c ∈ l, f c = g c) :
    orCells l f = orCells l g :=
  List.foldl_ext _ _ _ fun v c hc => by rw [h c hc]

/-- The loop over the cells of a block, which are in the array. -/
theorem foldlM_orCells {α : Type} {a : List α} {n : Nat} {g : Cell → α → BitVec w} (d : α)
    (h : ∀ c ∈ l, c.pos n < a.length) :
    l.foldlM (fun v c => do
      let x ← getAt a (c.pos n)
      pure (v ||| g c x)) 0#w = (.ok (orCells l fun c => g c (a.getD (c.pos n) d)) :
        Outcome PyErr _) := by
  have hfold : ∀ (l : List Cell), (∀ c ∈ l, c.pos n < a.length) → ∀ v : BitVec w,
      l.foldlM (fun v c => do
        let x ← getAt a (c.pos n)
        pure (v ||| g c x)) v =
      (.ok (l.foldl (fun v c => v ||| g c (a.getD (c.pos n) d)) v) : Outcome PyErr _) := by
    intro l
    induction l with
    | nil => intro _ v; rfl
    | cons c l ih =>
      intro hl v
      rw [List.foldlM_cons, getAt_of_lt (hl c List.mem_cons_self) d, List.foldl_cons]
      exact ih (fun c' hc' => hl c' (List.mem_cons_of_mem _ hc')) _
  exact hfold l h _

variable {a : List (BitVec w)} {n nx ny p : Nat} {block : Nat × Nat}

/-- The code of a block in bit plane `p`, as the words of the source carry it: the bits
are shifted apart and then down again. -/
def planeCode (a : List (BitVec w)) (n nx ny p : Nat) (block : Nat × Nat) : Nybble :=
  ((orCells (cells nx ny block) fun c =>
    a.getD (c.pos n) 0 <<< c.bit &&& 1#w <<< p <<< c.bit).sshiftRight p).setWidth 4

/-- Bit `p` of the cell at a row and a column, and nothing off the edge. -/
def cellBit (a : List (BitVec w)) (n nx ny p row col : Nat) : Bool :=
  decide (row < nx ∧ col < ny) && (a.getD (n * row + col) 0).getLsbD p

def blockBit (a : List (BitVec w)) (n nx ny p : Nat) (block : Nat × Nat) (t : Nat) : Bool :=
  cellBit a n nx ny p (cellOf block t).row (cellOf block t).col

theorem any_cells (f : Cell → Bool) {t : Nat} (ht : t < 4) :
    ((cells nx ny block).any fun c => decide (c.bit = t) && f c) =
      (decide ((cellOf block t).row < nx ∧ (cellOf block t).col < ny) && f (cellOf block t)) := by
  rw [cells, List.any_filter]
  interval_cases t <;> simp [cellOf]

/-- The bits of a block before they are shifted down. -/
theorem getLsbD_spread {p q : Nat} (hq : q < w) (hp : p < w) :
    (orCells (cells nx ny block) fun c => a.getD (c.pos n) 0 <<< c.bit &&& 1#w <<< p <<<
      c.bit).getLsbD q =
      (decide (p ≤ q ∧ q < p + 4) && blockBit a n nx ny p block (q - p)) := by
  have hone : ∀ c : Cell, (a.getD (c.pos n) 0 <<< c.bit &&& 1#w <<< p <<< c.bit).getLsbD q =
      (decide (q = p + c.bit) && (a.getD (c.pos n) 0).getLsbD p) := by
    intro c
    rw [BitVec.getLsbD_and, BitVec.getLsbD_shiftLeft, BitVec.getLsbD_shiftLeft,
      BitVec.getLsbD_shiftLeft, BitVec.getLsbD_one]
    by_cases h : q = p + c.bit
    · subst h
      simp [hq, hp]
      omega
    · simp [h]
      omega
  rw [getLsbD_orCells]
  simp only [hone]
  by_cases h : p ≤ q ∧ q < p + 4
  · rw [decide_eq_true h, Bool.true_and]
    have ht : q - p < 4 := by omega
    have hbit : ∀ c : Cell, (q = p + c.bit) = (c.bit = q - p) := fun c => propext (by omega)
    simp only [hbit]
    rw [any_cells _ ht]
    rfl
  · rw [decide_eq_false h, Bool.false_and, List.any_eq_false]
    intro c hc
    have h4 : c.bit < 4 := by
      rw [(mem_cells.1 hc).2.2.2, cellAt]
      show 3 - _ - _ < 4
      omega
    simp
    omega

/-- The bits of a code.  A bit that leaves the word is lost, and the one in the sign takes
its place. -/
theorem getLsbD_planeCode (hw : 4 ≤ w) (hp : p < w) {t : Nat} (ht : t < 4) :
    (planeCode a n nx ny p block).getLsbD t =
      if p + t < w then blockBit a n nx ny p block t
        else blockBit a n nx ny p block (w - 1 - p) := by
  rw [planeCode, BitVec.getLsbD_setWidth, decide_eq_true ht, Bool.true_and,
    BitVec.getLsbD_sshiftRight, decide_eq_false (by omega : ¬ w ≤ t), Bool.not_false, Bool.true_and]
  by_cases h : p + t < w
  · rw [if_pos h, if_pos h, getLsbD_spread h hp, decide_eq_true (by omega), Bool.true_and,
      Nat.add_sub_cancel_left]
  · rw [if_neg h, if_neg h, BitVec.msb_eq_getLsbD_last, getLsbD_spread (by omega) hp,
      decide_eq_true (by omega), Bool.true_and]

end

/-! ## Arrays of codes -/

section

variable {w : Nat} {checks : Bool} {a : List (BitVec w)} {n nx ny bit : Nat}

theorem qtreeOnebit_eq {b : List Nybble} (hbit : shlBit w checks bit = .ok (1#w <<< (bit % w)))
    (hin : Covers a.length n nx ny) (hb : half nx * half ny ≤ b.length) :
    qtreeOnebit checks a n nx ny b bit =
      .ok ((blocks nx ny).map (planeCode a n nx ny (bit % w)) ++ b.drop (half nx * half ny)) := by
  rw [qtreeOnebit, hbit, ok_bind, ← blocks_length]
  refine foldlM_forward _ (by rw [blocks_length]; exact hb) fun block k hk s hs _ => ?_
  have hklt : k < s.length := by
    have := List.snd_lt_of_mem_zipIdx hk
    rw [blocks_length] at this
    omega
  show (List.foldlM _ _ _ >>= _) = _
  rw [foldlM_orCells (g := fun c (x : BitVec w) => x <<< c.bit &&& 1#w <<< (bit % w) <<< c.bit) 0
    fun c hc => hin.pos_lt hc, ok_bind, setAt_of_lt hklt]
  rfl

/-- The nybble that tells which cells of a block are not zero. -/
def reduceCode (low : List Nybble) (nx ny : Nat) (block : Nat × Nat) : Nybble :=
  orCells (cells nx ny block) fun c => flag (low.getD (c.pos ny) 0 != 0) <<< c.bit

def reduceLevel (nx ny : Nat) (low : List Nybble) : List Nybble :=
  (blocks nx ny).map (reduceCode low nx ny)

theorem reduceLevel_length (nx ny : Nat) (low : List Nybble) :
    (reduceLevel nx ny low).length = half nx * half ny := by
  rw [reduceLevel, List.length_map, blocks_length]

/-- A block is read before the front of the array, where the nybbles go, reaches it. -/
theorem le_pos_of_mem_cells {k : Nat} {block : Nat × Nat} {c : Cell} (hc : c ∈ cells nx ny block)
    (hk : k = half ny * block.1 + block.2) : k ≤ c.pos ny := by
  obtain ⟨hrow, hcol, hblock, -⟩ := mem_cells.1 hc
  rw [hk, hblock, Cell.pos]
  have hmul : half ny * (c.row / 2) ≤ ny * c.row :=
    Nat.mul_le_mul (half_le ny) (Nat.div_le_self _ _)
  have hdiv : c.col / 2 ≤ c.col := Nat.div_le_self _ _
  show half ny * (c.row / 2) + c.col / 2 ≤ _
  omega

theorem qtreeReduce_eq {s : List Nybble} (hs : nx * ny ≤ s.length) :
    qtreeReduce ny nx ny s = .ok (reduceLevel nx ny s ++ s.drop (half nx * half ny)) := by
  rw [qtreeReduce, reduceLevel, ← blocks_length]
  have hle := half_mul_half_le nx ny
  refine foldlM_forward _ (by rw [blocks_length]; omega) fun block k hk t ht hsame => ?_
  have hklt : k < t.length := by
    have := List.snd_lt_of_mem_zipIdx hk
    rw [blocks_length] at this
    omega
  obtain ⟨-, -, hkpos⟩ := mem_blocks_zipIdx hk
  have hin : ∀ c ∈ cells nx ny block, c.pos ny < t.length := fun c hc => by
    rw [ht]
    exact (covers_rows hs).pos_lt hc
  show (List.foldlM _ _ _ >>= _) = _
  rw [foldlM_orCells (g := fun c (x : Nybble) => flag (x != 0) <<< c.bit) 0 hin, ok_bind,
    setAt_of_lt hklt]
  -- The cells of the block still hold what they held at the start.
  have hcells : orCells (cells nx ny block) (fun c => flag (t.getD (c.pos ny) 0 != 0) <<< c.bit) =
      reduceCode s nx ny block := by
    refine orCells_congr fun c hc => ?_
    rw [List.getD_eq_getElem?_getD, List.getD_eq_getElem?_getD,
      hsame _ (le_pos_of_mem_cells hc hkpos)]
  rw [hcells]

/-- The bit of a cell in the nybble of its block. -/
theorem getLsbD_reduceCode {low : List Nybble} {row col : Nat} (hrow : row < nx) (hcol : col < ny) :
    (reduceCode low nx ny (row / 2, col / 2)).getLsbD (cellAt row col).bit =
      (low.getD (ny * row + col) 0 != 0) := by
  have hmem := mem_cells_of_lt hrow hcol
  have hbit4 : (cellAt row col).bit < 4 := by
    show 3 - _ - _ < 4
    omega
  have hflag : ∀ (b : Bool) (t : Nat), t < 4 → ∀ q < 4, (flag b <<< t).getLsbD q =
      (b && decide (q = t)) := by
    decide
  rw [reduceCode, getLsbD_orCells, Bool.eq_iff_iff, List.any_eq_true]
  constructor
  · intro h
    obtain ⟨c, hc, hset⟩ := h
    obtain ⟨-, -, hblock, hcell⟩ := mem_cells.1 hc
    have hc4 : c.bit < 4 := by
      rw [hcell]
      show 3 - _ - _ < 4
      omega
    rw [hflag _ _ hc4 _ hbit4, Bool.and_eq_true, decide_eq_true_eq] at hset
    have hsame : c = cellAt row col := by
      have h1 := congrArg Prod.fst hblock
      have h2 := congrArg Prod.snd hblock
      have h3 : 3 - 2 * (row % 2) - col % 2 = 3 - 2 * (c.row % 2) - c.col % 2 := by
        have := hset.2
        rw [hcell] at this
        exact this
      have hr : c.row = row := by simp only at h1; omega
      have hl : c.col = col := by simp only at h2; omega
      rw [hcell, hr, hl]
    rw [hsame] at hset
    exact hset.1
  · intro h
    refine ⟨_, hmem, ?_⟩
    rw [hflag _ _ hbit4 _ hbit4, decide_eq_true rfl, Bool.and_true]
    exact h

end

/-! ## Loops that change the cells of their blocks -/

section

variable {α β : Type} (n nx ny : Nat)

/-- The cells of a block, one after the other. -/
theorem foldlM_cells {f : List α → Cell → Outcome PyErr (List α)} {s : List α} {l : List Cell}
    {block : Nat × Nat}
    (hl : ∀ c ∈ l, c ∈ cells nx ny block) (hnodup : l.Nodup) (hny : ny ≤ n) (want : Nat → Option α)
    (step : ∀ c ∈ l, ∀ t : List α, t.length = s.length → t[c.pos n]? = s[c.pos n]? →
      ∃ t', f t c = .ok t' ∧ t'.length = s.length ∧ t'[c.pos n]? = want (c.pos n) ∧
        ∀ p, p ≠ c.pos n → t'[p]? = t[p]?) :
    ∃ s', l.foldlM f s = .ok s' ∧ s'.length = s.length ∧ (∀ c ∈ l, s'[c.pos n]? = want (c.pos n)) ∧
      ∀ p, (∀ c ∈ l, p ≠ c.pos n) → s'[p]? = s[p]? := by
  have hdisj : l.Pairwise fun c c' => ∀ p, p = c.pos n → ¬ p = c'.pos n := by
    refine hnodup.imp_of_mem fun hc hc' hne p hp hp' => hne ?_
    exact (cells_apart hny (hl _ hc) (hl _ hc') (hp.symm.trans hp')).1
  obtain ⟨s', hrun, hlen, hwant, hkeep⟩ :=
    foldlM_disjoint (f := f) (a := s) (fun c p => p = c.pos n) want hdisj
    fun c hc t ht hown => by
      obtain ⟨t', hstep, hlen', hw, hk⟩ := step c hc t ht (hown _ rfl)
      exact ⟨t', hstep, hlen', fun p hp => by rw [hp]; exact hw, hk⟩
  exact ⟨s', hrun, hlen, fun c hc => hwant c hc _ rfl, hkeep⟩

/-- The blocks of an array, each by a job that changes its cells. -/
theorem foldlM_blocks {f : List α → β → Outcome PyErr (List α)} {a : List α} (jobs : List β)
    (blockOf : β → Nat × Nat) (hjobs : jobs.Pairwise fun x y => blockOf x ≠ blockOf y)
    (hall : ∀ block ∈ blocks nx ny, ∃ x ∈ jobs, blockOf x = block) (hny : ny ≤ n)
    (want : Nat → Option α) (step : ∀ x ∈ jobs, ∀ s : List α, s.length = a.length →
      (∀ c ∈ cells nx ny (blockOf x), s[c.pos n]? = a[c.pos n]?) →
      ∃ s', f s x = .ok s' ∧ s'.length = a.length ∧
        (∀ c ∈ cells nx ny (blockOf x), s'[c.pos n]? = want (c.pos n)) ∧
        ∀ p, (∀ c ∈ cells nx ny (blockOf x), p ≠ c.pos n) → s'[p]? = s[p]?) :
    ∃ s', jobs.foldlM f a = .ok s' ∧ s'.length = a.length ∧
      (∀ row < nx, ∀ col < ny, s'[n * row + col]? = want (n * row + col)) ∧
      ∀ p, (∀ row < nx, ∀ col < ny, p ≠ n * row + col) → s'[p]? = a[p]? := by
  obtain ⟨s', hrun, hlen, hwant, hkeep⟩ := foldlM_disjoint (f := f) (a := a)
    (fun x p => ∃ c ∈ cells nx ny (blockOf x), p = c.pos n) want
    (hjobs.imp fun hne p hp hp' => by
      obtain ⟨c, hc, hpc⟩ := hp
      obtain ⟨c', hc', hpc'⟩ := hp'
      exact hne (cells_apart hny hc hc' (hpc.symm.trans hpc')).2)
    fun x hx s hs hown => by
      obtain ⟨s', hstep, hlen', hw, hk⟩ := step x hx s hs fun c hc => hown _ ⟨c, hc, rfl⟩
      refine ⟨s', hstep, hlen', ?_, fun p hp => hk p fun c hc hpc => hp ⟨c, hc, hpc⟩⟩
      intro p hp
      obtain ⟨c, hc, hpc⟩ := hp
      rw [hpc]
      exact hw c hc
  refine ⟨s', hrun, hlen, ?_, ?_⟩
  · intro row hrow col hcol
    obtain ⟨x, hx, hblock⟩ := hall (row / 2, col / 2) (mem_blocks.2 ⟨half_lt hrow, half_lt hcol⟩)
    refine hwant x hx _ ⟨cellAt row col, ?_, rfl⟩
    rw [hblock]
    exact mem_cells_of_lt hrow hcol
  · intro p hp
    refine hkeep p fun x _ hown => ?_
    obtain ⟨c, hc, hpc⟩ := hown
    exact hp c.row (mem_cells.1 hc).1 c.col (mem_cells.1 hc).2.1 hpc

end

/-! ## Copying codes to cells -/

section

variable {nx ny : Nat} {a : List Nybble}

theorem zipIdx_increasing {α : Type} (l : List α) : l.zipIdx.Pairwise fun x y => x.2 < y.2 := by
  rw [← List.pairwise_map (f := Prod.snd), List.zipIdx_map_snd]
  exact List.pairwise_lt_range'

/-- The place of the first cell of a block. -/
def firstPos (ny : Nat) (block : Nat × Nat) : Nat := 2 * (ny * block.1 + block.2)

theorem firstPos_inj {block block' : Nat × Nat} (h : block ∈ blocks nx ny)
    (h' : block' ∈ blocks nx ny)
    (heq : firstPos ny block = firstPos ny block') : block = block' := by
  have hcol := Nat.lt_of_lt_of_le (mem_blocks.1 h).2 (half_le ny)
  have hcol' := Nat.lt_of_lt_of_le (mem_blocks.1 h').2 (half_le ny)
  have hpos : (⟨0, block.1, block.2⟩ : Cell).pos ny = (⟨0, block'.1, block'.2⟩ : Cell).pos ny :=
    Nat.eq_of_mul_eq_mul_left (by decide : 0 < 2) heq
  obtain ⟨h1, h2⟩ := pos_inj hcol hcol' hpos
  exact Prod.ext h1 h2

/-- A code is moved to a larger place, or stays where it is. -/
theorem le_firstPos {job : (Nat × Nat) × Nat} (h : job ∈ (blocks nx ny).zipIdx) :
    job.2 ≤ firstPos ny job.1 := by
  obtain ⟨-, -, hk⟩ := mem_blocks_zipIdx (b := job.1) (k := job.2) h
  have hmul : half ny * job.1.1 ≤ ny * job.1.1 := Nat.mul_le_mul_right _ (half_le ny)
  rw [firstPos]
  omega

/-- The codes are moved, the last one first, and none is overwritten before it is moved. -/
theorem moveCodes_spec (ha : nx * ny ≤ a.length) :
    ∃ s, ((blocks nx ny).zipIdx.reverse.foldlM (fun a job => do
        let v ← getAt a job.2
        setAt a (2 * (ny * job.1.1 + job.1.2)) v) a : Outcome PyErr (List Nybble)) = .ok s ∧
      s.length = a.length ∧ ∀ job ∈ (blocks nx ny).zipIdx, s[firstPos ny job.1]? = a[job.2]? := by
  have hapart : (blocks nx ny).zipIdx.Pairwise fun x y =>
      firstPos ny y.1 ≠ firstPos ny x.1 ∧ x.2 ≠ firstPos ny y.1 := by
    refine (zipIdx_increasing (blocks nx ny)).imp_of_mem fun {x y} hx hy hlt => ⟨fun heq => ?_, ?_⟩
    · obtain ⟨hi, hj, hk⟩ := mem_blocks_zipIdx (b := x.1) (k := x.2) hx
      obtain ⟨hi', hj', hk'⟩ := mem_blocks_zipIdx (b := y.1) (k := y.2) hy
      have hblock := firstPos_inj (mem_blocks.2 ⟨hi', hj'⟩) (mem_blocks.2 ⟨hi, hj⟩) heq
      rw [hblock] at hk'
      omega
    · have := le_firstPos hy
      omega
  obtain ⟨s, hrun, hlen, hmoved, -⟩ :=
    foldlM_moves (ε := PyErr) (a := a) (l := (blocks nx ny).zipIdx.reverse)
    Prod.snd (fun job => firstPos ny job.1) (List.pairwise_reverse.2 hapart) fun job hjob => by
      have hmem := List.mem_reverse.1 hjob
      have hle := le_firstPos hmem
      obtain ⟨hi, hj, -⟩ := mem_blocks_zipIdx (b := job.1) (k := job.2) hmem
      have hlast := covers_rows ha (2 * job.1.1) (by unfold half at hi; omega) (2 * job.1.2)
        (by unfold half at hj; omega)
      have hpos : firstPos ny job.1 = ny * (2 * job.1.1) + 2 * job.1.2 := by
        rw [firstPos]
        ring
      omega
  exact ⟨s, hrun, hlen, fun job hjob => hmoved job (List.mem_reverse.2 hjob)⟩

/-- The code of the block of a cell. -/
def codeOver (codes : List Nybble) (ny row col : Nat) : Nybble :=
  codes.getD (half ny * (row / 2) + col / 2) 0

/-- A place is that of one row and one column. -/
theorem place_div_mod {n row col : Nat} (hcol : col < n) :
    (n * row + col) / n = row ∧ (n * row + col) % n = col := by
  have hn : 0 < n := Nat.lt_of_le_of_lt (Nat.zero_le _) hcol
  exact ⟨by rw [Nat.mul_add_div hn, Nat.div_eq_of_lt hcol, Nat.add_zero],
    by rw [Nat.mul_add_mod, Nat.mod_eq_of_lt hcol]⟩

/-- Every cell gets its bit of the code of its block. -/
theorem qtreeCopy_spec (ha : nx * ny ≤ a.length) :
    ∃ a', qtreeCopy a nx ny ny = .ok a' ∧ a'.length = a.length ∧
      ∀ row < nx, ∀ col < ny,
        a'[ny * row + col]? =
          some (flag ((codeOver a ny row col).getLsbD (cellAt row col).bit)) := by
  obtain ⟨s, hs, hlen, hmoved⟩ := moveCodes_spec ha
  have hcovers : Covers s.length ny nx ny := by
    rw [hlen]
    exact covers_rows ha
  have hblocks :=
    foldlM_blocks ny nx ny (f := copyBlock nx ny ny) (a := s) (blocks nx ny) id
      (grid_pairwise fun _ _ h => h) (fun block h => ⟨block, h, rfl⟩) le_rfl
    (fun p =>
      some (flag ((codeOver a ny (p / ny) (p % ny)).getLsbD (cellAt (p / ny) (p % ny)).bit))) ?_
  · obtain ⟨a', hrun, hlen', hwant, -⟩ := hblocks
    refine ⟨a', ?_, by rw [hlen', hlen], fun row hrow col hcol => ?_⟩
    · rw [qtreeCopy, hs]
      exact hrun
    · rw [hwant row hrow col hcol, (place_div_mod hcol).1, (place_div_mod hcol).2]
  · intro block hblock t ht hcells
    obtain ⟨hi, hj⟩ := mem_blocks.1 hblock
    -- The first cell of the block holds the code.
    have hk : half ny * block.1 + block.2 < a.length := by
      have h : Covers a.length (half ny) (half nx) (half ny) :=
        covers_rows (Nat.le_trans (half_mul_half_le nx ny) ha)
      exact h block.1 hi block.2 hj
    have hfirst : cellAt (2 * block.1) (2 * block.2) ∈ cells nx ny block := by
      refine mem_cells.2 ⟨?_, ?_, ?_, rfl⟩
      · show 2 * block.1 < nx
        unfold half at hi
        omega
      · show 2 * block.2 < ny
        unfold half at hj
        omega
      · refine Prod.ext ?_ ?_
        · show block.1 = 2 * block.1 / 2
          omega
        · show block.2 = 2 * block.2 / 2
          omega
    have hpos : firstPos ny block = ny * (2 * block.1) + 2 * block.2 := by
      rw [firstPos]
      ring
    have hcode :
        t[ny * (2 * block.1) + 2 * block.2]? = some (a.getD (half ny * block.1 + block.2) 0) := by
      have hjob := hmoved (block, half ny * block.1 + block.2) (mem_grid_zipIdx.2 ⟨hi, hj, rfl⟩)
      have hsame := hcells _ hfirst
      rw [hpos] at hjob
      rw [show ny * (2 * block.1) + 2 * block.2 =
        (cellAt (2 * block.1) (2 * block.2)).pos ny from rfl, hsame]
      show s[ny * (2 * block.1) + 2 * block.2]? = _
      rw [hjob, List.getD_eq_getElem _ _ hk]
      exact List.getElem?_eq_getElem hk
    obtain ⟨t', ht', hlen'', hwant, hkeep⟩ := foldlM_cells ny nx ny (s := t)
      (f := fun u c =>
        setAt u (c.pos ny) (flag ((a.getD (half ny * block.1 + block.2) 0).getLsbD c.bit)))
      (l := cells nx ny block) (fun c hc => hc) (cells_nodup nx ny block) le_rfl
      (fun p =>
        some (flag ((codeOver a ny (p / ny) (p % ny)).getLsbD (cellAt (p / ny) (p % ny)).bit)))
      fun c hc u hu _ => by
        obtain ⟨-, hcol, hcblock, hcell⟩ := mem_cells.1 hc
        have hlt : c.pos ny < u.length := by
          rw [hu, ht]
          exact hcovers.pos_lt hc
        refine ⟨_, setAt_of_lt hlt _, by rw [List.length_set, hu], ?_, fun p hp =>
          List.getElem?_set_ne (Ne.symm hp)⟩
        rw [List.getElem?_set_self hlt, Cell.pos, (place_div_mod hcol).1, (place_div_mod hcol).2,
          codeOver, hcblock, ← hcell]
    refine ⟨t', ?_, hlen''.trans ht, hwant, hkeep⟩
    rw [copyBlock, getAt_of_some hcode]
    exact ht'

end

/-! ## Setting a plane -/

section

variable {w : Nat} {checks : Bool} {b : List (BitVec w)} {codes : List Nybble} {n nx ny bit : Nat}
    {plane : BitVec w}

/-- A word with the bit of the plane where the code of its block says so. -/
def withPlane (codes : List Nybble) (ny : Nat) (plane : BitVec w) (row col : Nat)
    (x : BitVec w) : BitVec w :=
  if (codeOver codes ny row col).getLsbD (cellAt row col).bit then x ||| plane else x

/-- The cells of the quadrant get the bits of the plane, and no other cell changes. -/
theorem qtreeBitins_spec (hplane : shlBit w checks bit = .ok plane) (hny : ny ≤ n)
    (hin : Covers b.length n nx ny) (hcodes : half nx * half ny ≤ codes.length) :
    ∃ b', qtreeBitins checks codes nx ny b n bit = .ok b' ∧ b'.length = b.length ∧
      (∀ row < nx, ∀ col < ny,
        b'[n * row + col]? = (b[n * row + col]?).map (withPlane codes ny plane row col)) ∧
      ∀ p, (∀ row < nx, ∀ col < ny, p ≠ n * row + col) → b'[p]? = b[p]? := by
  have hblocks := foldlM_blocks n nx ny (a := b)
    (f := fun b job => (do
      let code ← getAt codes job.2
      (cells nx ny job.1).reverse.foldlM (fun b c =>
        if code.getLsbD c.bit then do
          let x ← getAt b (c.pos n)
          setAt b (c.pos n) (x ||| plane)
        else pure b) b))
    (blocks nx ny).zipIdx Prod.fst (grid_zipIdx_pairwise fun _ _ h => h)
    (fun block h => by
      obtain ⟨hi, hj⟩ := mem_blocks.1 h
      exact ⟨(block, half ny * block.1 + block.2), mem_grid_zipIdx.2 ⟨hi, hj, rfl⟩, rfl⟩) hny
    (fun p => (b[p]?).map (withPlane codes ny plane (p / n) (p % n))) ?_
  · obtain ⟨b', hrun, hlen, hwant, hkeep⟩ := hblocks
    refine ⟨b', ?_, hlen, fun row hrow col hcol => ?_, hkeep⟩
    · rw [qtreeBitins, hplane]
      exact hrun
    · have hcoln := Nat.lt_of_lt_of_le hcol hny
      rw [hwant row hrow col hcol, (place_div_mod hcoln).1, (place_div_mod hcoln).2]
  · intro job hjob t ht hcells
    obtain ⟨hi, hj, hk⟩ := mem_blocks_zipIdx (b := job.1) (k := job.2) hjob
    have hklt : job.2 < codes.length := by
      have h : Covers codes.length (half ny) (half nx) (half ny) := covers_rows hcodes
      have hat := h job.1.1 hi job.1.2 hj
      omega
    obtain ⟨t', ht', hlen', hwant, hkeep⟩ := foldlM_cells n nx ny (s := t)
      (f := fun b c =>
        if (codes.getD job.2 0).getLsbD c.bit then do
          let x ← getAt b (c.pos n)
          setAt b (c.pos n) (x ||| plane)
        else pure b)
      (l := (cells nx ny job.1).reverse) (fun c hc => List.mem_reverse.1 hc)
      (List.nodup_reverse.2 (cells_nodup nx ny job.1)) hny
      (fun p => (b[p]?).map (withPlane codes ny plane (p / n) (p % n)))
      fun c hc u hu hsame => by
        have hmem := List.mem_reverse.1 hc
        obtain ⟨-, hcol, hcblock, hcell⟩ := mem_cells.1 hmem
        have hcoln := Nat.lt_of_lt_of_le hcol hny
        have hlt : c.pos n < u.length := by
          rw [hu, ht]
          exact hin.pos_lt hmem
        have hltb : c.pos n < b.length := hin.pos_lt hmem
        have hold : u[c.pos n]? = some (b.getD (c.pos n) 0) := by
          rw [hsame, hcells c hmem, List.getD_eq_getElem _ _ hltb]
          exact List.getElem?_eq_getElem hltb
        have hcode : codeOver codes ny c.row c.col = codes.getD job.2 0 := by
          rw [codeOver, hk, hcblock]
        have hgoal : (b[c.pos n]?).map (withPlane codes ny plane (c.pos n / n) (c.pos n % n)) =
            some (if (codes.getD job.2 0).getLsbD c.bit then b.getD (c.pos n) 0 ||| plane
              else b.getD (c.pos n) 0) := by
          have hplace : c.pos n / n = c.row ∧ c.pos n % n = c.col := place_div_mod hcoln
          rw [List.getElem?_eq_getElem hltb, Option.map_some, List.getD_eq_getElem _ _ hltb,
            hplace.1, hplace.2, withPlane, hcode, ← hcell]
        rw [hgoal]
        by_cases hset : (codes.getD job.2 0).getLsbD c.bit = true
        · refine ⟨u.set (c.pos n) (b.getD (c.pos n) 0 ||| plane),
            ?_, by rw [List.length_set, hu], ?_, fun p hp => List.getElem?_set_ne (Ne.symm hp)⟩
          · rw [if_pos hset, getAt_of_some hold, ok_bind, setAt_of_lt hlt]
          · rw [if_pos hset, List.getElem?_set_self hlt]
        · refine ⟨u, if_neg hset, hu, ?_, fun p _ => rfl⟩
          rw [if_neg hset, hold]
    refine ⟨t', ?_, hlen'.trans ht, fun c hc => hwant c (List.mem_reverse.2 hc),
      fun p hp => hkeep p fun c hc => hp c (List.mem_reverse.1 hc)⟩
    show (getAt codes job.2 >>= _) = _
    rw [getAt_of_lt hklt 0]
    exact ht'

end

end RustFits.Zimage.Hcompress
