import RustFits.BinaryTable.Repack

/-!
# What the scan of a repack computes

The scan walks the descriptors in row order.  It gives every variable-length cell
the sum of the lengths in front of it as its new heap offset and writes that into
the rows.

* `HeapCell` is a cell with its old and its new place; `heapCells` lists them.
* `scan_spec`: with descriptors in range the scan returns, its plans are the cells
  that are not empty, and the rows are as before except for the descriptors
  (`Rewritten`).
* `readDescriptor_write`: what a descriptor reads back as.  A `P` descriptor keeps
  32 bits of the offset.
-/

namespace RustFits.BinaryTable

open Ascii ByteFile Machine BigEndian

/-! ## Slots -/

/-- The slot of the one cell ends in front of the slot of the other. -/
def SlotBefore (rowWidth : Nat) (a b : Nat × Column) : Prop :=
  slotOffset rowWidth a.1 a.2 + a.2.byteWidth ≤ slotOffset rowWidth b.1 b.2

section

variable {columns : List Column} {start stop nrows rowWidth : Nat}

theorem placed_mem : ∀ {columns : List Column} {start : Nat}, Placed start columns stop →
    start ≤ stop ∧ ∀ c ∈ columns, start ≤ c.byteOffset ∧ c.byteOffset + c.byteWidth ≤ stop ∧
      ∀ kind ∈ c.varKind, c.byteWidth = kind.width := by
  intro columns
  induction columns with
  | nil =>
    intro start h
    exact ⟨Nat.le_of_eq h, by simp⟩
  | cons column columns ih =>
    rintro start ⟨hoff, hkind, hrest⟩
    obtain ⟨hle, hmem⟩ := ih hrest
    refine ⟨by omega, fun c hc => ?_⟩
    rcases List.mem_cons.1 hc with rfl | hc
    · exact ⟨by omega, by omega, hkind⟩
    · obtain ⟨h1, h2, h3⟩ := hmem c hc
      exact ⟨by omega, h2, h3⟩

theorem placed_pairwise : ∀ {columns : List Column} {start : Nat}, Placed start columns stop →
    columns.Pairwise fun a b => a.byteOffset + a.byteWidth ≤ b.byteOffset := by
  intro columns
  induction columns with
  | nil =>
    intro start _
    exact List.Pairwise.nil
  | cons column columns ih =>
    rintro start ⟨hoff, -, hrest⟩
    refine List.pairwise_cons.2 ⟨fun c hc => ?_, ih hrest⟩
    have := ((placed_mem hrest).2 c hc).1
    omega

/-- Columns that lie one behind the other fill the row. -/
theorem placed_total {columns : List Column} {start stop : Nat} (h : Placed start columns stop) :
    stop = start + totalWidth columns := by
  induction columns generalizing start with
  | nil => exact h.symm
  | cons column columns ih =>
    have htotal : totalWidth (column :: columns) = column.byteWidth + totalWidth columns := rfl
    rw [ih h.2.2, htotal, Nat.add_assoc]

theorem mem_tableCells {row : Nat} {column : Column} :
    (row, column) ∈ tableCells nrows columns ↔ row < nrows ∧ column ∈ columns := by
  simp [tableCells]

/-- The slots of the table follow one another. -/
theorem tableCells_pairwise (h : Placed 0 columns rowWidth) :
    (tableCells nrows columns).Pairwise (SlotBefore rowWidth) := by
  rw [tableCells, List.pairwise_flatMap]
  refine ⟨fun row _ => ?_, ?_⟩
  · rw [List.pairwise_map]
    refine (placed_pairwise h).imp fun hab => ?_
    unfold SlotBefore slotOffset
    dsimp only
    omega
  · refine List.pairwise_lt_range.imp fun {r r'} hlt x hx y hy => ?_
    obtain ⟨a, ha, rfl⟩ := List.mem_map.1 hx
    obtain ⟨b, hb, rfl⟩ := List.mem_map.1 hy
    have hwidth := ((placed_mem h).2 a ha).2.1
    have hrow : (r + 1) * rowWidth ≤ r' * rowWidth := Nat.mul_le_mul_right _ hlt
    rw [Nat.succ_mul] at hrow
    unfold SlotBefore slotOffset
    dsimp only
    omega

/-- The slots lie in the rows. -/
theorem slot_le (h : Placed 0 columns rowWidth) {row : Nat} {column : Column} (hrow : row < nrows)
    (hc : column ∈ columns) : slotOffset rowWidth row column + column.byteWidth ≤
      nrows * rowWidth := by
  have hwidth := ((placed_mem h).2 column hc).2.1
  have hle : (row + 1) * rowWidth ≤ nrows * rowWidth := Nat.mul_le_mul_right _ hrow
  rw [Nat.succ_mul] at hle
  unfold slotOffset
  omega

end

/-! ## Cells -/

/-- The heap bytes of a cell of `n` elements, in unbounded arithmetic. -/
def exactLength (letter : UInt8) (n : Nat) : Nat :=
  if letter = 0x58 then divCeil n 8 else n * (bytesPerElement letter).getD 0

/-- A variable-length cell: its slot, its descriptor, and its place in the compact
heap. -/
structure HeapCell where
  row : Nat
  column : Column
  kind : VarKind
  nelements : Nat
  oldOff : Nat
  newOff : Nat
  deriving DecidableEq, Repr

/-- The heap bytes of the cell. -/
def HeapCell.length (cell : HeapCell) : Nat := cellLength cell.column.tformLetter cell.nelements

def HeapCell.plan (cell : HeapCell) : MovePlan := ⟨cell.oldOff, cell.length, cell.newOff⟩

/-- The descriptor in a slot of the rows. -/
def slotDescriptor (rows : Bytes) (rowWidth row : Nat) (column : Column) (kind : VarKind) :
    Int × Int :=
  readDescriptor kind (slice rows (slotOffset rowWidth row column) column.byteWidth)

/-- The variable-length cells in row order, the first at `cursor`. -/
def heapCells (rows : Bytes) (rowWidth : Nat) : List (Nat × Column) → Nat → List HeapCell
  | [], _ => []
  | (row, column) :: rest, cursor =>
    match column.varKind with
    | none => heapCells rows rowWidth rest cursor
    | some kind =>
      let desc := slotDescriptor rows rowWidth row column kind
      let cell : HeapCell := ⟨row, column, kind, desc.1.toNat, desc.2.toNat, cursor⟩
      cell :: heapCells rows rowWidth rest (cursor + cell.length)

/-- The bytes of the live cells. -/
def liveBytes (cells : List HeapCell) : Nat := (cells.map HeapCell.length).sum

/-- The live cells that have bytes. -/
def livePlans (cells : List HeapCell) : List MovePlan :=
  (cells.map HeapCell.plan).filter fun plan => decide (0 < plan.length)

/-- The descriptor of a cell lies in a heap of `pcount` bytes. -/
structure DescriptorInRange (pcount : Nat) (letter : UInt8) (desc : Int × Int) : Prop where
  nelements : 0 ≤ desc.1
  offset : 0 ≤ desc.2
  fits : desc.2.toNat + exactLength letter desc.1.toNat ≤ pcount

/-- Every descriptor of the cells is in range. -/
def InRange (rows : Bytes) (rowWidth pcount : Nat) (cells : List (Nat × Column)) : Prop :=
  ∀ cell ∈ cells, ∀ kind ∈ cell.2.varKind,
    DescriptorInRange pcount cell.2.tformLetter
      (slotDescriptor rows rowWidth cell.1 cell.2 kind)

/-- The rows after the scan: the descriptors of the cells are new, the rest is as
it was. -/
structure Rewritten (rowWidth : Nat) (cells : List (Nat × Column)) (rows : Bytes) (cursor : Nat)
    (rows' : Bytes) : Prop where
  length : rows'.length = rows.length
  descriptors : ∀ c ∈ heapCells rows rowWidth cells cursor,
    slice rows' (slotOffset rowWidth c.row c.column) c.column.byteWidth =
      writeDescriptor c.kind c.nelements c.newOff
  others : ∀ i, (∀ cell ∈ cells, cell.2.varKind.isSome →
      i < slotOffset rowWidth cell.1 cell.2 ∨
        slotOffset rowWidth cell.1 cell.2 + cell.2.byteWidth ≤ i) → rows'[i]? = rows[i]?

section

variable {rows rows' : Bytes} {rowWidth pcount cursor : Nat} {cells : List (Nat × Column)}

/-- The cell of a slot, at `cursor` of the compact heap. -/
def cellAt (rows : Bytes) (rowWidth row : Nat) (column : Column) (kind : VarKind) (cursor : Nat) :
    HeapCell :=
  ⟨row, column, kind, (slotDescriptor rows rowWidth row column kind).1.toNat,
    (slotDescriptor rows rowWidth row column kind).2.toNat, cursor⟩

theorem heapCells_cons_of_some {row : Nat} {column : Column} {kind : VarKind}
    (hkind : column.varKind = some kind) (rest : List (Nat × Column)) :
    heapCells rows rowWidth ((row, column) :: rest) cursor =
      cellAt rows rowWidth row column kind cursor ::
        heapCells rows rowWidth rest
          (cursor + (cellAt rows rowWidth row column kind cursor).length) := by
  rw [heapCells]
  simp only [hkind]
  rfl

theorem heapCells_cons_of_none {row : Nat} {column : Column} (hkind : column.varKind = none)
    (rest : List (Nat × Column)) :
    heapCells rows rowWidth ((row, column) :: rest) cursor =
      heapCells rows rowWidth rest cursor := by
  rw [heapCells]
  simp only [hkind]

theorem liveBytes_cons (c : HeapCell) (l : List HeapCell) :
    liveBytes (c :: l) = c.length + liveBytes l := rfl

theorem mem_livePlans {cells : List HeapCell} {p : MovePlan} :
    p ∈ livePlans cells ↔ ∃ c ∈ cells, 0 < c.length ∧ c.plan = p := by
  rw [livePlans, List.mem_filter, List.mem_map, decide_eq_true_eq]
  constructor
  · rintro ⟨⟨c, hc, rfl⟩, hpos⟩
    exact ⟨c, hc, hpos, rfl⟩
  · rintro ⟨c, hc, hpos, rfl⟩
    exact ⟨⟨c, hc, rfl⟩, hpos⟩

theorem livePlans_cons (c : HeapCell) (l : List HeapCell) :
    livePlans (c :: l) = livePlans [c] ++ livePlans l := by
  rw [livePlans, livePlans, livePlans, List.map_cons, List.map_cons, ← List.filter_append]
  rfl

theorem cellLength_of_le {letter : UInt8} {n : Nat} (h : exactLength letter n < u64Size) :
    cellLength letter n = exactLength letter n := by
  unfold cellLength exactLength at *
  split_ifs at * with hx
  · rfl
  · exact Nat.mod_eq_of_lt h

/-- A cell of the list comes from a slot. -/
theorem heapCells_mem {c : HeapCell} :
    ∀ {cells : List (Nat × Column)} {cursor : Nat}, c ∈ heapCells rows rowWidth cells cursor →
      (c.row, c.column) ∈ cells ∧ c.column.varKind = some c.kind ∧
        c.nelements = (slotDescriptor rows rowWidth c.row c.column c.kind).1.toNat ∧
        c.oldOff = (slotDescriptor rows rowWidth c.row c.column c.kind).2.toNat ∧
        cursor ≤ c.newOff ∧
        c.newOff + c.length ≤ cursor + liveBytes (heapCells rows rowWidth cells cursor) := by
  intro cells
  induction cells with
  | nil =>
    intro cursor hc
    cases hc
  | cons cell rest ih =>
    intro cursor hc
    obtain ⟨row, column⟩ := cell
    rw [heapCells] at hc ⊢
    cases hkind : column.varKind with
    | none =>
      simp only [hkind] at hc ⊢
      obtain ⟨h1, h2⟩ := ih hc
      exact ⟨List.mem_cons_of_mem _ h1, h2⟩
    | some kind =>
      simp only [hkind] at hc ⊢
      rw [show ∀ (x : HeapCell) (l : List HeapCell), liveBytes (x :: l) =
        x.length + liveBytes l from
        fun _ _ => rfl]
      rcases List.mem_cons.1 hc with rfl | hc
      · refine ⟨by simp, hkind, rfl, rfl, Nat.le_refl _, ?_⟩
        dsimp only
        omega
      · obtain ⟨h1, h2, h3, h4, h5, h6⟩ := ih hc
        exact ⟨List.mem_cons_of_mem _ h1, h2, h3, h4, by omega, by omega⟩

/-- Every slot of a variable-length column is in the list. -/
theorem exists_heapCell {row : Nat} {column : Column} {kind : VarKind}
    (hkind : column.varKind = some kind) :
    ∀ {cells : List (Nat × Column)} {cursor : Nat}, (row, column) ∈ cells →
      ∃ c ∈ heapCells rows rowWidth cells cursor, c.row = row ∧ c.column = column ∧
        c.kind = kind := by
  intro cells
  induction cells with
  | nil =>
    intro cursor h
    cases h
  | cons cell rest ih =>
    intro cursor h
    obtain ⟨row', column'⟩ := cell
    rw [heapCells]
    rcases List.mem_cons.1 h with heq | h
    · obtain ⟨rfl, rfl⟩ := Prod.mk.inj heq
      simp only [hkind]
      exact ⟨_, List.mem_cons_self, rfl, rfl, rfl⟩
    · split
      · exact ih h
      · obtain ⟨c, hc, hrest⟩ := @ih _ h
        exact ⟨c, List.mem_cons_of_mem _ hc, hrest⟩

/-- The new places follow one another. -/
theorem heapCells_pairwise : ∀ {cells : List (Nat × Column)} {cursor : Nat},
    (heapCells rows rowWidth cells cursor).Pairwise fun a b => a.newOff + a.length ≤ b.newOff := by
  intro cells
  induction cells with
  | nil => exact fun {_} => List.Pairwise.nil
  | cons cell rest ih =>
    intro cursor
    obtain ⟨row, column⟩ := cell
    rw [heapCells]
    split
    · exact ih
    · exact List.pairwise_cons.2 ⟨fun c hc => (heapCells_mem hc).2.2.2.2.1, ih⟩

/-- The last cell with bytes ends the compact heap. -/
theorem heapCells_full : ∀ {cells : List (Nat × Column)} {cursor : Nat},
    liveBytes (heapCells rows rowWidth cells cursor) = 0 ∨
      ∃ c ∈ heapCells rows rowWidth cells cursor, 0 < c.length ∧
        c.newOff + c.length = cursor + liveBytes (heapCells rows rowWidth cells cursor) := by
  intro cells
  induction cells with
  | nil => exact fun {_} => Or.inl rfl
  | cons cell rest ih =>
    intro cursor
    obtain ⟨row, column⟩ := cell
    cases hkind : column.varKind with
    | none =>
      rw [heapCells_cons_of_none hkind]
      exact ih
    | some kind =>
      rw [heapCells_cons_of_some hkind, liveBytes_cons]
      generalize hc : cellAt rows rowWidth row column kind cursor = c
      have hnew : c.newOff = cursor := by rw [← hc]; rfl
      rcases @ih (cursor + c.length) with hzero | ⟨d, hd, hpos, hend⟩
      · rcases Nat.eq_zero_or_pos c.length with h0 | h0
        · exact Or.inl (by omega)
        · exact Or.inr ⟨c, List.mem_cons_self, h0, by omega⟩
      · exact Or.inr ⟨d, List.mem_cons_of_mem _ hd, hpos, by omega⟩

/-- The cells depend on the rows through their descriptors. -/
theorem heapCells_congr : ∀ {cells : List (Nat × Column)} {cursor : Nat},
    (∀ cell ∈ cells, ∀ kind ∈ cell.2.varKind,
      slotDescriptor rows' rowWidth cell.1 cell.2 kind =
        slotDescriptor rows rowWidth cell.1 cell.2 kind) →
      heapCells rows' rowWidth cells cursor = heapCells rows rowWidth cells cursor := by
  intro cells
  induction cells with
  | nil => exact fun {_} _ => rfl
  | cons cell rest ih =>
    intro cursor h
    obtain ⟨row, column⟩ := cell
    rw [heapCells, heapCells]
    split
    · exact ih fun c hc => h c (List.mem_cons_of_mem _ hc)
    · rename_i kind hkind
      have hhead : slotDescriptor rows' rowWidth row column kind =
          slotDescriptor rows rowWidth row column kind := h _ List.mem_cons_self kind hkind
      simp only [hhead]
      exact congrArg _ (ih fun c hc => h c (List.mem_cons_of_mem _ hc))

/-- The live bytes depend on the numbers of elements alone. -/
theorem liveBytes_congr : ∀ {cells : List (Nat × Column)} {cursor cursor' : Nat},
    (∀ cell ∈ cells, ∀ kind ∈ cell.2.varKind,
      (slotDescriptor rows' rowWidth cell.1 cell.2 kind).1 =
        (slotDescriptor rows rowWidth cell.1 cell.2 kind).1) →
      liveBytes (heapCells rows' rowWidth cells cursor') =
        liveBytes (heapCells rows rowWidth cells cursor) := by
  intro cells
  induction cells with
  | nil => exact fun {_ _} _ => rfl
  | cons cell rest ih =>
    intro cursor cursor' h
    obtain ⟨row, column⟩ := cell
    cases hkind : column.varKind with
    | none =>
      rw [heapCells_cons_of_none hkind, heapCells_cons_of_none hkind]
      exact ih fun c hc => h c (List.mem_cons_of_mem _ hc)
    | some kind =>
      have hhead : (slotDescriptor rows' rowWidth row column kind).1 =
          (slotDescriptor rows rowWidth row column kind).1 := h _ List.mem_cons_self kind hkind
      have hlen : (cellAt rows' rowWidth row column kind cursor').length =
          (cellAt rows rowWidth row column kind cursor).length := by
        unfold cellAt HeapCell.length
        dsimp only
        rw [hhead]
      rw [heapCells_cons_of_some hkind, heapCells_cons_of_some hkind, liveBytes_cons,
        liveBytes_cons, hlen, ih fun c hc => h c (List.mem_cons_of_mem _ hc)]

theorem liveBytes_eq_zero {l : List HeapCell} (h : ∀ c ∈ l, c.length = 0) : liveBytes l = 0 := by
  induction l with
  | nil => rfl
  | cons c l ih =>
    rw [liveBytes_cons, h c List.mem_cons_self, ih fun d hd => h d (List.mem_cons_of_mem _ hd)]

theorem DescriptorInRange.length {letter : UInt8} {desc : Int × Int}
    (h : DescriptorInRange pcount letter desc) (hpcount : pcount < u64Size) :
    cellLength letter desc.1.toNat = exactLength letter desc.1.toNat :=
  cellLength_of_le (by have := h.fits; omega)

/-- One descriptor in range. -/
theorem scanCell_eq (hpcount : pcount < u64Size) (scan : Scan) {row : Nat} {column : Column}
    {kind : VarKind} (hkind : column.varKind = some kind) (hwidth : column.byteWidth = kind.width)
    (hslot : slotOffset rowWidth row column + column.byteWidth ≤ scan.mainBuf.length)
    (hrange : DescriptorInRange pcount column.tformLetter
      (slotDescriptor scan.mainBuf rowWidth row column kind)) :
    let cell := cellAt scan.mainBuf rowWidth row column kind scan.newCursor
    scanCell rowWidth pcount scan (row, column) =
      .ok ⟨writeAll scan.mainBuf (slotOffset rowWidth row column)
          (writeDescriptor kind cell.nelements cell.newOff),
        scan.plans ++ livePlans [cell], scan.newCursor + cell.length⟩ := by
  intro cell
  have hlen := hrange.length hpcount
  have hfits := hrange.fits
  rw [← hlen] at hfits
  have hmod : ((slotDescriptor scan.mainBuf rowWidth row column kind).2.toNat +
      cellLength column.tformLetter
        (slotDescriptor scan.mainBuf rowWidth row column kind).1.toNat) %
        u64Size = (slotDescriptor scan.mainBuf rowWidth row column kind).2.toNat +
      cellLength column.tformLetter
        (slotDescriptor scan.mainBuf rowWidth row column kind).1.toNat :=
    Nat.mod_eq_of_lt (by omega)
  have hn := hrange.nelements
  have ho := hrange.offset
  unfold scanCell
  simp only [hkind]
  rw [sliceOf, if_pos hslot]
  show (if (slotDescriptor scan.mainBuf rowWidth row column kind).1 < 0 ∨
      (slotDescriptor scan.mainBuf rowWidth row column kind).2 < 0 then _ else _) = _
  rw [if_neg (by omega)]
  show (if pcount < ((slotDescriptor scan.mainBuf rowWidth row column kind).2.toNat +
      cellLength column.tformLetter
        (slotDescriptor scan.mainBuf rowWidth row column kind).1.toNat) %
        u64Size then _ else _) = _
  rw [hmod, if_neg (by omega), splice,
    if_pos (by rw [writeDescriptor_length, ← hwidth]; exact hslot)]
  show (if 0 < cell.length then _ else _) = _
  split_ifs with hpos
  · rw [show livePlans [cell] = [cell.plan] by simp [livePlans, HeapCell.plan, hpos]]
    rfl
  · have hzero : cell.length = 0 := by omega
    rw [show livePlans [cell] = [] by simp [livePlans, HeapCell.plan, hzero], hzero,
      List.append_nil]
    rfl

/-- The scan, from any state of it.  The slots of the cells follow one another and
lie in the rows. -/
theorem scan_spec (hpcount : pcount < u64Size) :
    ∀ {cells : List (Nat × Column)} {rows : Bytes} {plans : List MovePlan} {cursor : Nat},
      cells.Pairwise (SlotBefore rowWidth) →
      (∀ cell ∈ cells, slotOffset rowWidth cell.1 cell.2 + cell.2.byteWidth ≤ rows.length ∧
        ∀ kind ∈ cell.2.varKind, cell.2.byteWidth = kind.width) →
      InRange rows rowWidth pcount cells →
      ∃ rows', cells.foldlM (scanCell rowWidth pcount) ⟨rows, plans, cursor⟩ =
          .ok ⟨rows', plans ++ livePlans (heapCells rows rowWidth cells cursor),
            cursor + liveBytes (heapCells rows rowWidth cells cursor)⟩ ∧
        Rewritten rowWidth cells rows cursor rows' := by
  intro cells
  induction cells with
  | nil =>
    intro rows plans cursor _ _ _
    refine ⟨rows, ?_, rfl, by simp [heapCells], fun _ _ => rfl⟩
    simp [heapCells, livePlans, liveBytes]
    rfl
  | cons cell rest ih =>
    intro rows plans cursor hslots hbounds hin
    obtain ⟨hbefore, hrest⟩ := List.pairwise_cons.1 hslots
    obtain ⟨row, column⟩ := cell
    have hbounds' := fun c (hc : c ∈ rest) => hbounds c (List.mem_cons_of_mem _ hc)
    have hin' : InRange rows rowWidth pcount rest := fun c hc => hin c (List.mem_cons_of_mem _ hc)
    rw [List.foldlM_cons]
    cases hkind : column.varKind with
    | none =>
      obtain ⟨rows', hscan, hrows⟩ := @ih rows plans cursor hrest hbounds' hin'
      rw [heapCells_cons_of_none hkind, show scanCell rowWidth pcount ⟨rows, plans, cursor⟩
        (row, column) = .ok ⟨rows, plans, cursor⟩ by simp [scanCell, hkind]]
      refine ⟨rows', hscan, hrows.length, ?_, fun i hi => hrows.others i fun c hc =>
        hi c (List.mem_cons_of_mem _ hc)⟩
      rw [heapCells_cons_of_none hkind]
      exact hrows.descriptors
    | some kind =>
      obtain ⟨hslot, hwidth⟩ := hbounds _ List.mem_cons_self
      have hstep := scanCell_eq hpcount ⟨rows, plans, cursor⟩ hkind (hwidth kind hkind) hslot
        (hin _ List.mem_cons_self kind hkind)
      dsimp only at hslot hstep
      generalize hcell : cellAt rows rowWidth row column kind cursor = cell at hstep
      have hw : column.byteWidth = kind.width := hwidth kind hkind
      have hdesc : (writeDescriptor kind cell.nelements cell.newOff).length = column.byteWidth := by
        rw [writeDescriptor_length, hw]
      generalize hrows₁ : writeAll rows (slotOffset rowWidth row column)
        (writeDescriptor kind cell.nelements cell.newOff) = rows₁ at hstep
      have hlen₁ : rows₁.length = rows.length := by
        rw [← hrows₁]
        exact writeAll_length_of_le (by rw [hdesc]; exact hslot)
      -- the slots behind this one are as they were
      have hsame : ∀ c ∈ rest, slice rows₁ (slotOffset rowWidth c.1 c.2) c.2.byteWidth =
          slice rows (slotOffset rowWidth c.1 c.2) c.2.byteWidth := by
        intro c hc
        have hb : slotOffset rowWidth row column + column.byteWidth ≤ slotOffset rowWidth c.1 c.2 :=
          hbefore c hc
        rw [← hrows₁]
        exact slice_writeAll_of_disjoint (by omega) (Or.inr (by omega))
      have hslots' : ∀ c ∈ rest, ∀ k ∈ c.2.varKind, slotDescriptor rows₁ rowWidth c.1 c.2 k =
          slotDescriptor rows rowWidth c.1 c.2 k := by
        intro c hc k _
        rw [slotDescriptor, hsame c hc]
        rfl
      have hcells : ∀ cursor, heapCells rows₁ rowWidth rest cursor =
          heapCells rows rowWidth rest cursor := fun _ => heapCells_congr hslots'
      obtain ⟨rows', hscan, hrows⟩ := @ih rows₁ (plans ++ livePlans [cell]) (cursor + cell.length)
        hrest (fun c hc => by rw [hlen₁]; exact hbounds' c hc) fun c hc k hk => by
          rw [hslots' c hc k hk]
          exact hin' c hc k hk
      rw [hcells] at hscan
      have hdescriptors := hrows.descriptors
      rw [hcells] at hdescriptors
      have hothers : ∀ i, slotOffset rowWidth row column ≤ i →
          i < slotOffset rowWidth row column + column.byteWidth → rows'[i]? = rows₁[i]? := by
        intro i hlo hhi
        refine hrows.others i fun c hc _ => Or.inl ?_
        have hb : slotOffset rowWidth row column + column.byteWidth ≤ slotOffset rowWidth c.1 c.2 :=
          hbefore c hc
        omega
      refine ⟨rows', ?_, hrows.length.trans hlen₁, ?_, fun i hi => ?_⟩
      · rw [heapCells_cons_of_some hkind, hcell, liveBytes_cons, livePlans_cons,
          ← List.append_assoc, ← Nat.add_assoc, hstep]
        exact hscan
      · rw [heapCells_cons_of_some hkind, hcell]
        intro c hc
        rcases List.mem_cons.1 hc with rfl | hc
        · rw [← hcell]
          dsimp only [cellAt]
          apply List.ext_getElem?
          intro i
          rw [slice_getElem?]
          split_ifs with hi
          · rw [hothers _ (by omega) (by omega), ← hrows₁, writeAll_getElem? (by omega),
              if_pos (by omega), Nat.add_sub_cancel_left, ← hcell]
            rfl
          · exact (List.getElem?_eq_none (by rw [writeDescriptor_length]; omega)).symm
        · exact hdescriptors c hc
      · rw [hrows.others i fun c hc => hi c (List.mem_cons_of_mem _ hc), ← hrows₁,
          writeAll_getElem? (by omega), if_neg]
        rw [hdesc]
        have := hi _ List.mem_cons_self (by simp [hkind])
        dsimp only at this
        omega

end

end RustFits.BinaryTable
