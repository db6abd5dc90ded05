import Mathlib.Data.List.Pairwise
import RustFits.BinaryTable.Rebuild

/-!
# A repack keeps every cell

After a repack every cell reads as before, PCOUNT is the sum of the live cells and
a second repack changes nothing, exactly under the condition `RepackSafe` on the
table before it.

* `RepackKeeps` is the property of the state that a repack leaves.
* `repack_eq`: the repack up to the rebuild, for a table whose descriptors are in
  range.
* `readCell_kept_iff`: a cell reads as before exactly when its bytes arrived, as
  long as its descriptor can hold the new offset.
* `repack_keeps_cells` is the result.
-/

namespace RustFits.BinaryTable

open Ascii ByteFile Machine BigEndian

/-- What a repack should leave of the table `idx`: every cell reads as before, the
heap is as long as the live cells, the other HDUs are as they were, and a second
repack changes nothing.  A new header is on disk. -/
structure RepackKeeps (s : Fits) (idx : Nat) (h : Hdu) (table : TableMeta) (s' : Fits) : Prop where
  header : ∃ cards, s'.hdus[idx]? = some { h with cards := cards } ∧
    parseTableMeta cards = .ok table ∧
    natKeyword cards (str "PCOUNT") = liveBytes (tableHeapCells s h table) ∧
    (cards = h.cards ∨
      slice s'.bytes h.offsets.headerOffset (h.offsets.headerBlockCount * blockSize) =
        serializeHeaderToDiskBytes cards)
  cells : ∀ row < table.nrows, ∀ column ∈ table.columns,
    readCell s'.bytes h.offsets.dataOffset table row column =
      readCell s.bytes h.offsets.dataOffset table row column
  contiguous : Contiguous s'
  others : OthersKept idx s s'
  again : repackTableHeap idx s' = .ok () s'

/-- When a repack keeps every cell.  The heap of a table without rows is not
emptied.  The new header is written right in front of the data, so the header must have
no block to spare.  The readers must find the heap right behind the rows, where the
repack puts it: they do not when a THEAP card has a value that is not positive.  `P`
descriptors hold offsets below 2^31.  The moves must not overwrite what they still
read. -/
structure RepackSafe (s : Fits) (h : Hdu) (table : TableMeta) : Prop where
  rows : table.nrows = 0 → natKeyword h.cards (str "PCOUNT") = 0
  blocks : liveBytes (tableHeapCells s h table) ≠ natKeyword h.cards (str "PCOUNT") →
    h.offsets.headerBlockCount = headerBlocks h.cards.length
  heap : liveBytes (tableHeapCells s h table) ≠ natKeyword h.cards (str "PCOUNT") →
    table.theap = table.mainBytes
  offsets : liveBytes (tableHeapCells s h table) ≠ natKeyword h.cards (str "PCOUNT") →
    ∀ c ∈ tableHeapCells s h table, c.newOff < 2 ^ (c.kind.bits - 1)
  moves : liveBytes (tableHeapCells s h table) ≠ natKeyword h.cards (str "PCOUNT") →
    let plans := sortPlans (livePlans (tableHeapCells s h table))
    let heapStart := h.offsets.dataOffset + table.mainBytes
    if fastPathSafe (natKeyword h.cards (str "PCOUNT")) plans then
      ForwardSafe heapStart plans s.bytes
    else StagingSafe heapStart (natKeyword h.cards (str "PCOUNT")) plans s.bytes

section

variable {s s' : Fits} {idx : Nat} {h : Hdu} {table : TableMeta}

/-! ## The run -/

/-- The repack up to the rebuild. -/
theorem repack_eq (ho : Opened s idx h) (ht : BinTable h table)
    (hvla : anyVarColumn table.columns = true) (hin : DescriptorsInRange s h table)
    (hpos : natKeyword h.cards (str "PCOUNT") ≠ 0) (hnrows : table.nrows ≠ 0)
    (hheap : ¬ TheapRefused h.cards table.mainBytes) :
    ∃ rows', Rewritten table.rowWidth (tableCells table.nrows table.columns) (tableRows s h table) 0
        rows' ∧
      repackTableHeap idx s =
        if liveBytes (tableHeapCells s h table) = natKeyword h.cards (str "PCOUNT") then .ok () s
        else rebuildHeap idx h.cards h.offsets.dataOffset table.mainBytes
          (h.offsets.dataOffset + table.mainBytes) (natKeyword h.cards (str "PCOUNT"))
          ⟨rows', livePlans (tableHeapCells s h table),
            liveBytes (tableHeapCells s h table)⟩ s := by
  obtain ⟨rows', hscan, hrows⟩ := scan_table ho ht hin
  obtain ⟨hcolumns, hn, hw, -⟩ := parseTableMeta_ok ht.parsed
  have hend := ho.dataEnd_le
  have hround := le_roundUpToBlock (table.mainBytes + natKeyword h.cards (str "PCOUNT"))
  rw [ht.dataEnd] at hend
  have hread : readAt (str "repack: read main table failed: ") h.offsets.dataOffset
      (table.nrows * table.rowWidth) s = .ok (tableRows s h table) s := by
    rw [readAt, readExact_eq_some (show
      h.offsets.dataOffset + table.nrows * table.rowWidth ≤ s.bytes.length by
        unfold TableMeta.mainBytes at hend hround
        omega)]
    rfl
  have hbase := ht.heapBase hheap
  refine ⟨rows', hrows, ?_⟩
  unfold TheapRefused at hheap
  unfold repackTableHeap
  rw [FileOp.get_bind, ho.hdu]
  simp only
  rw [hcolumns, ← hn, ← hw, hbase, ht.saturatingMul, FileOp.ofExcept_bind,
    if_neg (by simp [hvla]), if_neg (by simp [hpos, hnrows]), FileOp.raiseIf_bind hheap,
    FileOp.bind_ok hread, hscan, FileOp.ofExcept_bind]
  split_ifs <;> rfl

/-- A table without rows or without a heap is left alone. -/
theorem repack_of_empty (ho : Opened s idx h) (ht : BinTable h table)
    (hempty : natKeyword h.cards (str "PCOUNT") = 0 ∨ table.nrows = 0) :
    repackTableHeap idx s = .ok () s := by
  obtain ⟨hcolumns, hn, -, -⟩ := parseTableMeta_ok ht.parsed
  unfold repackTableHeap
  rw [FileOp.get_bind, ho.hdu]
  simp only
  rw [hcolumns, ← hn, FileOp.ofExcept_bind, if_pos hempty]
  split_ifs <;> rfl

/-- A THEAP card with another positive place is refused. -/
theorem repack_refuses (ho : Opened s idx h) (ht : BinTable h table)
    (hvla : anyVarColumn table.columns = true) (hpos : natKeyword h.cards (str "PCOUNT") ≠ 0)
    (hnrows : table.nrows ≠ 0) (hheap : TheapRefused h.cards table.mainBytes) :
    ∃ e, repackTableHeap idx s = .error e s := by
  obtain ⟨hcolumns, hn, hw, -⟩ := parseTableMeta_ok ht.parsed
  unfold TheapRefused at hheap
  unfold repackTableHeap
  rw [FileOp.get_bind, ho.hdu]
  simp only
  rw [hcolumns, ← hn, ← hw, ht.saturatingMul, FileOp.ofExcept_bind, if_neg (by simp [hvla]),
    if_neg (by simp [hpos, hnrows]), FileOp.raiseIf_bind_error hheap]
  exact ⟨_, rfl⟩

/-! ## The table after the rebuild -/

/-- The table with its new heap size. -/
theorem binTable_setPcount (ht : BinTable h table) {n : Nat}
    (hsize : table.mainBytes + n ≤ 9223372036854775807) :
    BinTable { h with cards := setPcountInCards h.cards n } table ∧
      natKeyword (setPcountInCards h.cards n) (str "PCOUNT") = n ∧
      tableDataBytes (setPcountInCards h.cards n) = table.mainBytes + n := by
  obtain ⟨ht', hfirst, hpcount⟩ := ht.heapTable.setPcount ht.pcountFirst hsize
  have hother : ∀ key, (str "PCOUNT").isPrefixOf key = false →
      parseKeyword (setPcountInCards h.cards n) key = parseKeyword h.cards key :=
    fun key hkey => parseKeyword_setPcount_other n hkey
  refine ⟨⟨ht'.standard, ht'.pcountCard, hfirst, ht'.fits, ?_, ht.width⟩, hpcount,
    ht'.bytes.trans (congrArg (table.mainBytes + ·) hpcount)⟩
  · show parseTableMeta (setPcountInCards h.cards n) = .ok table
    unfold parseTableMeta natKeyword
    rw [parseColumns_congr (sameColumns_setPcount n), hother _ (by decide), hother _ (by decide),
      hother _ (by decide)]
    exact ht.parsed

/-! ## The cells after the rebuild -/

/-- The slot of a column, in the rows of the table. -/
theorem readSlot_eq {rows f : Bytes} (ht : BinTable h table)
    (hrows : slice f h.offsets.dataOffset table.mainBytes = rows) {row : Nat} {column : Column}
    (hrow : row < table.nrows) (hcolumn : column ∈ table.columns) :
    readSlot f h.offsets.dataOffset table.rowWidth row column =
      slice rows (slotOffset table.rowWidth row column) column.byteWidth := by
  rw [readSlot, ← hrows, slice_slice]
  exact slot_le ht.placed hrow hcolumn

theorem readCell_before (ho : Opened s idx h) (ht : BinTable h table)
    (hin : DescriptorsInRange s h table) (hdefault : table.theap = table.mainBytes) {c : HeapCell}
    (hc : c ∈ tableHeapCells s h table) :
    readCell s.bytes h.offsets.dataOffset table c.row c.column =
      .ok (c.nelements, slice s.bytes (h.offsets.dataOffset + table.mainBytes + c.oldOff)
        c.length) := by
  obtain ⟨hrange, hrow, hcolumn, hkind⟩ := cell_inRange hin hc
  obtain ⟨-, -, hn, hoff, -⟩ := heapCells_mem hc
  have hle := cell_le ht hin hc
  have hend := ho.dataEnd_le
  have hround := le_roundUpToBlock (table.mainBytes + natKeyword h.cards (str "PCOUNT"))
  rw [ht.dataEnd] at hend
  have h1 := hrange.nelements
  have h2 := hrange.offset
  unfold readCell
  rw [readSlot_eq ht rfl hrow hcolumn]
  simp only [hkind]
  show readVarCell s.bytes _ _ (slotDescriptor (tableRows s h table) table.rowWidth c.row c.column
    c.kind) = _
  rw [readVarCell, if_neg (by omega), ← hn, ← hoff, hdefault]
  change c.oldOff + cellLength c.column.tformLetter c.nelements ≤ _ at hle
  rw [readExact_eq_some (by omega)]
  rfl

theorem readCell_after {rows : Bytes} {n : Nat} (ht : BinTable h table)
    (hin : DescriptorsInRange s h table) (hdefault : table.theap = table.mainBytes)
    (hrows : Rewritten table.rowWidth (tableCells table.nrows table.columns) (tableRows s h table) 0
      rows) (hreb : Rebuilt s idx h table rows n s') {c : HeapCell}
    (hc : c ∈ tableHeapCells s h table) :
    readCell s'.bytes h.offsets.dataOffset table c.row c.column =
      readVarCell s'.bytes (h.offsets.dataOffset + table.mainBytes) c.column.tformLetter
        (c.nelements, toSigned c.kind.bits (c.newOff % 2 ^ c.kind.bits)) := by
  obtain ⟨hrange, hrow, hcolumn, hkind⟩ := cell_inRange hin hc
  obtain ⟨-, -, hn, -⟩ := heapCells_mem hc
  have hsmall : c.nelements < 2 ^ (c.kind.bits - 1) := by
    have hlt : (slotDescriptor (tableRows s h table) table.rowWidth c.row c.column c.kind).1 <
        ((2 ^ (c.kind.bits - 1) : Nat) : Int) := (readDescriptor_lt _ _).1
    have := hrange.nelements
    omega
  unfold readCell
  rw [readSlot_eq ht hreb.rows hrow hcolumn]
  simp only [hkind]
  rw [hrows.descriptors c hc, readDescriptor_writeDescriptor, toSigned_mod_of_lt hsmall, hdefault]

/-- A fixed column is as it was. -/
theorem readCell_fixed {rows : Bytes} {n : Nat} (ht : BinTable h table)
    (hrows : Rewritten table.rowWidth (tableCells table.nrows table.columns) (tableRows s h table) 0
      rows) (hreb : Rebuilt s idx h table rows n s') {row : Nat} {column : Column}
    (hrow : row < table.nrows) (hcolumn : column ∈ table.columns) (hkind : column.varKind = none) :
    readCell s'.bytes h.offsets.dataOffset table row column =
      readCell s.bytes h.offsets.dataOffset table row column := by
  have happart : (tableCells table.nrows table.columns).Pairwise fun a b =>
      SlotBefore table.rowWidth a b ∨ SlotBefore table.rowWidth b a :=
    (tableCells_pairwise ht.placed).imp fun hab => Or.inl hab
  have hslots : slice rows (slotOffset table.rowWidth row column) column.byteWidth =
      slice (tableRows s h table) (slotOffset table.rowWidth row column) column.byteWidth := by
    apply List.ext_getElem?
    intro i
    rw [slice_getElem?, slice_getElem?]
    split_ifs with hi
    · refine hrows.others _ fun cell hcell hvar => ?_
      have hne : cell ≠ (row, column) := by
        rintro rfl
        simp [hkind] at hvar
      have hcell' : (row, column) ∈ tableCells table.nrows table.columns :=
        mem_tableCells.2 ⟨hrow, hcolumn⟩
      have hsymm : Std.Symm fun a b : Nat × Column =>
          SlotBefore table.rowWidth a b ∨ SlotBefore table.rowWidth b a := ⟨fun _ _ => Or.symm⟩
      have := happart.forall hcell hcell' hne
      unfold SlotBefore at this
      dsimp only at this
      omega
    · rfl
  unfold readCell
  rw [readSlot_eq ht hreb.rows hrow hcolumn, readSlot_eq ht rfl hrow hcolumn, hslots]
  simp only [hkind]
  rfl

/-- A cell whose descriptor holds the new offset reads as before exactly when its
bytes arrived. -/
theorem readVarCell_eq_iff {f f' : Bytes} {heapStart n old new : Nat} {letter : UInt8}
    (hnew : heapStart + new + cellLength letter n ≤ f'.length) :
    readVarCell f' heapStart letter ((n : Int), (new : Int)) =
        .ok (n, slice f (heapStart + old) (cellLength letter n)) ↔
      ∀ q < cellLength letter n, f'[heapStart + new + q]? = f[heapStart + old + q]? := by
  rw [readVarCell, if_neg (by omega)]
  simp only [Int.toNat_natCast]
  rw [readExact_eq_some hnew]
  constructor
  · intro heq q hq
    have hbytes : slice f' (heapStart + new) (cellLength letter n) =
        slice f (heapStart + old) (cellLength letter n) := (Prod.mk.inj (Except.ok.inj heq)).2
    have := congrArg (fun l : Bytes => l[q]?) hbytes
    simpa [slice_getElem?, hq] using this
  · intro hsame
    have hbytes : slice f' (heapStart + new) (cellLength letter n) =
        slice f (heapStart + old) (cellLength letter n) := by
      apply List.ext_getElem?
      intro q
      rw [slice_getElem?, slice_getElem?]
      split_ifs with hq
      · exact hsame q hq
      · rfl
    rw [hbytes]

/-- The table with the heap size that the repack sets. -/
def repackedHdu (s : Fits) (h : Hdu) (table : TableMeta) : Hdu :=
  { h with cards := setPcountInCards h.cards (liveBytes (tableHeapCells s h table)) }

/-- The new place of a cell lies in the file. -/
theorem newOff_le {rows : Bytes}
    (hreb : Rebuilt s idx h table rows (liveBytes (tableHeapCells s h table)) s') {c : HeapCell}
    (hc : c ∈ tableHeapCells s h table) :
    h.offsets.dataOffset + table.mainBytes + c.newOff + c.length ≤ s'.bytes.length := by
  have hnew := (heapCells_mem hc).2.2.2.2.2
  rw [Nat.zero_add] at hnew
  change c.newOff + c.length ≤ liveBytes (tableHeapCells s h table) at hnew
  have hlen := hreb.window.le_length
  have hround := le_roundUpToBlock (table.mainBytes + liveBytes (tableHeapCells s h table))
  omega

section

variable {rows : Bytes} (ho : Opened s idx h) (ht : BinTable h table)
  (hin : DescriptorsInRange s h table) (hdefault : table.theap = table.mainBytes)
  (hrows : Rewritten table.rowWidth (tableCells table.nrows table.columns) (tableRows s h table) 0
    rows)
  (hreb : Rebuilt s idx h table rows (liveBytes (tableHeapCells s h table)) s')

include ho ht hin hdefault hrows hreb

/-- One cell whose descriptor holds the new offset. -/
theorem readCell_kept_iff {c : HeapCell} (hc : c ∈ tableHeapCells s h table)
    (hoff : c.newOff < 2 ^ (c.kind.bits - 1)) :
    readCell s'.bytes h.offsets.dataOffset table c.row c.column =
        readCell s.bytes h.offsets.dataOffset table c.row c.column ↔
      ∀ q < c.length, s'.bytes[h.offsets.dataOffset + table.mainBytes + c.newOff + q]? =
        s.bytes[h.offsets.dataOffset + table.mainBytes + c.oldOff + q]? := by
  rw [readCell_before ho ht hin hdefault hc, readCell_after ht hin hdefault hrows hreb hc,
    toSigned_mod_of_lt hoff]
  exact readVarCell_eq_iff (newOff_le hreb hc)

/-- The cells of the table read as before exactly when their bytes arrived. -/
theorem cells_kept_iff
    (hoff : ∀ c ∈ tableHeapCells s h table, c.newOff < 2 ^ (c.kind.bits - 1)) :
    (∀ row < table.nrows, ∀ column ∈ table.columns,
      readCell s'.bytes h.offsets.dataOffset table row column =
        readCell s.bytes h.offsets.dataOffset table row column) ↔
      CellsKept (h.offsets.dataOffset + table.mainBytes)
        (sortPlans (livePlans (tableHeapCells s h table))) s.bytes s'.bytes := by
  have hperm : (sortPlans (livePlans (tableHeapCells s h table))).Perm
      (livePlans (tableHeapCells s h table)) := List.mergeSort_perm _ _
  constructor
  · intro hcells p hp
    obtain ⟨c, hc, -, rfl⟩ := mem_livePlans.1 (hperm.mem_iff.1 hp)
    obtain ⟨-, hrow, hcolumn, -⟩ := cell_inRange hin hc
    exact (readCell_kept_iff ho ht hin hdefault hrows hreb hc (hoff c hc)).1
      (hcells _ hrow _ hcolumn)
  · intro hkept row hrow column hcolumn
    cases hkind : column.varKind with
    | none => exact readCell_fixed ht hrows hreb hrow hcolumn hkind
    | some kind =>
      obtain ⟨c, hc, rfl, rfl, -⟩ : ∃ c ∈ tableHeapCells s h table, c.row = row ∧
          c.column = column ∧ c.kind = kind :=
        exists_heapCell hkind (mem_tableCells.2 ⟨hrow, hcolumn⟩)
      refine (readCell_kept_iff ho ht hin hdefault hrows hreb hc (hoff c hc)).2 fun q hq => ?_
      exact hkept c.plan (hperm.mem_iff.2 (mem_livePlans.2 ⟨c, hc, by omega, rfl⟩)) q hq

/-- Cells that read as before have descriptors that hold their offsets, where the
offsets do not pass the bits of the descriptor altogether. -/
theorem offsets_of_kept
    (hbits : ∀ c ∈ tableHeapCells s h table, c.newOff < 2 ^ c.kind.bits)
    (hcells : ∀ row < table.nrows, ∀ column ∈ table.columns,
      readCell s'.bytes h.offsets.dataOffset table row column =
        readCell s.bytes h.offsets.dataOffset table row column) :
    ∀ c ∈ tableHeapCells s h table, c.newOff < 2 ^ (c.kind.bits - 1) := by
  intro c hc
  by_contra hge
  obtain ⟨-, hrow, hcolumn, -⟩ := cell_inRange hin hc
  have hcell := hcells _ hrow _ hcolumn
  have hneg := toSigned_mod_neg (Nat.le_of_not_lt hge) (hbits c hc)
  rw [readCell_before ho ht hin hdefault hc,
    readCell_after ht hin hdefault hrows hreb hc, readVarCell, if_pos (Or.inr hneg)] at hcell
  cases hcell

/-- The table after the rebuild: its rows, and descriptors in range of a heap that
they fill. -/
theorem heap_compact (hvla : anyVarColumn table.columns = true)
    (hsize : table.mainBytes + liveBytes (tableHeapCells s h table) ≤ 9223372036854775807)
    (hoff : ∀ c ∈ tableHeapCells s h table, c.newOff < 2 ^ (c.kind.bits - 1)) :
    repackTableHeap idx s' = .ok () s' := by
  obtain ⟨ht₁, hpcount₁, -⟩ := binTable_setPcount ht hsize
  have ht' : BinTable (repackedHdu s h table) table := ht₁
  have hpcount : natKeyword (repackedHdu s h table).cards (str "PCOUNT") =
      liveBytes (tableHeapCells s h table) := hpcount₁
  have hend : (repackedHdu s h table).dataEnd = h.offsets.dataOffset +
      roundUpToBlock (table.mainBytes + liveBytes (tableHeapCells s h table)) := by
    rw [ht'.dataEnd, hpcount]
    rfl
  have ho' : Opened s' idx (repackedHdu s h table) :=
    ⟨(hreb.window.contiguous_iff ho).2 hend, hreb.window.hdu ho⟩
  have hrows' : tableRows s' (repackedHdu s h table) table = rows :=
    hreb.rows
  -- every descriptor of the new rows is that of a cell
  have hdesc : ∀ cell ∈ tableCells table.nrows table.columns, ∀ kind ∈ cell.2.varKind,
      ∃ c ∈ tableHeapCells s h table, c.row = cell.1 ∧ c.column = cell.2 ∧ c.kind = kind ∧
        slotDescriptor rows table.rowWidth cell.1 cell.2 kind =
          ((c.nelements : Int), (c.newOff : Int)) := by
    intro cell hcell kind hkind
    obtain ⟨c, hc, hrow, hcolumn, hck⟩ : ∃ c ∈ tableHeapCells s h table, c.row = cell.1 ∧
        c.column = cell.2 ∧ c.kind = kind := exists_heapCell hkind hcell
    refine ⟨c, hc, hrow, hcolumn, hck, ?_⟩
    have hn : c.nelements < 2 ^ (c.kind.bits - 1) := by
      have hlt : (slotDescriptor (tableRows s h table) table.rowWidth c.row c.column c.kind).1 <
          ((2 ^ (c.kind.bits - 1) : Nat) : Int) := (readDescriptor_lt _ _).1
      have hnonneg := (cell_inRange hin hc).1.nelements
      have := (heapCells_mem hc).2.2.1
      omega
    rw [slotDescriptor, ← hrow, ← hcolumn, hrows.descriptors c hc, ← hck,
      readDescriptor_writeDescriptor, toSigned_mod_of_lt hn, toSigned_mod_of_lt (hoff c hc)]
  have hlive : liveBytes (tableHeapCells s' (repackedHdu s h table) table) =
      liveBytes (tableHeapCells s h table) := by
    unfold tableHeapCells
    rw [hrows']
    refine liveBytes_congr fun cell hcell kind hkind => ?_
    obtain ⟨c, hc, hrow, hcolumn, hck, heq⟩ := hdesc cell hcell kind hkind
    have hn := (heapCells_mem hc).2.2.1
    have hnonneg := (cell_inRange hin hc).1.nelements
    rw [hrow, hcolumn, hck] at hn hnonneg
    rw [heq]
    dsimp only
    omega
  have hin' : DescriptorsInRange s' (repackedHdu s h table) table := by
    unfold DescriptorsInRange
    rw [hrows', hpcount]
    intro cell hcell kind hkind
    obtain ⟨c, hc, hrow, hcolumn, hck, heq⟩ := hdesc cell hcell kind hkind
    rw [heq]
    refine ⟨by dsimp only; omega, by dsimp only; omega, ?_⟩
    have hnew := (heapCells_mem hc).2.2.2.2.2
    have hrange := (cell_inRange hin hc).1
    have hlen := hrange.length (by have := ht.size; unfold u64Size; omega)
    rw [Nat.zero_add, HeapCell.length, (heapCells_mem hc).2.2.1, hlen, ← (heapCells_mem hc).2.2.1]
      at hnew
    rw [← hcolumn]
    exact hnew
  by_cases hempty : liveBytes (tableHeapCells s h table) = 0 ∨ table.nrows = 0
  · refine repack_of_empty ho' ht' ?_
    rw [hpcount]
    exact hempty
  · obtain ⟨rows', -, hrun⟩ := repack_eq ho' ht' hvla hin' (by rw [hpcount]; omega)
      (by omega) (ht'.not_refused hdefault)
    rw [hrun, if_pos (by rw [hpcount, hlive])]

end

/-! ## The result -/

/-- A repack that changes nothing keeps every cell, when the heap is as long as the
live cells. -/
theorem repackKeeps_refl (ho : Opened s idx h) (ht : BinTable h table)
    (hlive : liveBytes (tableHeapCells s h table) = natKeyword h.cards (str "PCOUNT"))
    (hrun : repackTableHeap idx s = .ok () s) : RepackKeeps s idx h table s :=
  ⟨⟨h.cards, ho.hdu, ht.parsed, hlive.symm, Or.inl rfl⟩, fun _ _ _ _ => rfl, ho.contiguous,
    OthersKept.refl idx s, hrun⟩

/-- The rebuilt table.  It keeps every cell under `RepackSafe`, and only then, except
that a `P` cell at a new offset of 2^32 or more may resolve to an equal string by
accident, and so may a cell that the readers look for in the rows. -/
theorem rebuild_exact (ho : Opened s idx h) (ht : BinTable h table)
    (hvla : anyVarColumn table.columns = true) (hin : DescriptorsInRange s h table)
    (hsize : table.mainBytes + liveBytes (tableHeapCells s h table) ≤ 9223372036854775807)
    (hpos : natKeyword h.cards (str "PCOUNT") ≠ 0) (hnrows : table.nrows ≠ 0)
    (hheap : ¬ TheapRefused h.cards table.mainBytes)
    (hlive : liveBytes (tableHeapCells s h table) ≠ natKeyword h.cards (str "PCOUNT")) :
    ∃ s', repackTableHeap idx s = .ok () s' ∧
      (RepackSafe s h table → RepackKeeps s idx h table s') ∧
      (RepackKeeps s idx h table s' → RepackSafe s h table ∨ table.theap ≠ table.mainBytes ∨
        ∃ c ∈ tableHeapCells s h table, 2 ^ c.kind.bits ≤ c.newOff) := by
  obtain ⟨rows, hrows, hrun⟩ := repack_eq ho ht hvla hin hpos hnrows hheap
  rw [if_neg hlive] at hrun
  have hlength : rows.length = table.mainBytes := by
    have hend := ho.dataEnd_le
    have hround := le_roundUpToBlock (table.mainBytes + natKeyword h.cards (str "PCOUNT"))
    rw [ht.dataEnd] at hend
    rw [hrows.length, tableRows, slice_length]
    omega
  obtain ⟨s', hrebuild, hreb, hiff⟩ := rebuildHeap_spec ho ht (Nat.pos_of_ne_zero hpos) hlength
    (plans_of_table ht hin)
  obtain ⟨ht', hpcount, -⟩ := binTable_setPcount ht hsize
  have hround := le_roundUpToBlock (table.mainBytes + liveBytes (tableHeapCells s h table))
  refine ⟨s', by rw [hrun, hrebuild], fun hsafe => ?_, fun hkeeps => ?_⟩
  · have hdefault := hsafe.heap hlive
    have hoff := hsafe.offsets hlive
    refine ⟨⟨_, hreb.window.hdu ho, ht'.parsed, hpcount, Or.inr (hreb.header (hsafe.blocks hlive))⟩,
      ?_, ?_, hreb.window.othersKept ho, heap_compact ho ht hin hdefault hrows hreb hvla hsize hoff⟩
    · exact (cells_kept_iff ho ht hin hdefault hrows hreb hoff).2 (hiff.2 (hsafe.moves hlive))
    · refine (hreb.window.contiguous_iff ho).2 ?_
      rw [ht'.dataEnd]
      dsimp only
      rw [hpcount]
  · by_cases hdefault : table.theap = table.mainBytes
    · by_cases hbits : ∃ c ∈ tableHeapCells s h table, 2 ^ c.kind.bits ≤ c.newOff
      · exact Or.inr (Or.inr hbits)
      · have hsmall : ∀ c ∈ tableHeapCells s h table, c.newOff < 2 ^ c.kind.bits := fun c hc =>
          Nat.lt_of_not_le fun hle => hbits ⟨c, hc, hle⟩
        have hoff := offsets_of_kept ho ht hin hdefault hrows hreb hsmall hkeeps.cells
        -- a new heap size is in a header that fills its blocks
        have hblocks : h.offsets.headerBlockCount = headerBlocks h.cards.length := by
          obtain ⟨cards, hdu, -, hcards, hdisk⟩ := hkeeps.header
          have hnew : cards = setPcountInCards h.cards (liveBytes (tableHeapCells s h table)) := by
            rw [hreb.window.hdu ho] at hdu
            exact (congrArg Hdu.cards (Option.some.inj hdu)).symm
          rcases hdisk with hsame | hdisk
          · rw [hsame] at hcards
            exact absurd hcards.symm hlive
          · rw [hnew] at hdisk
            exact blocks_of_header hreb.window ht.pcountCard (by omega) hdisk
        exact Or.inl ⟨fun hzero => absurd hzero hnrows, fun _ => hblocks, fun _ => hdefault,
          fun _ => hoff, fun _ =>
            hiff.1 ((cells_kept_iff ho ht hin hdefault hrows hreb hoff).1 hkeeps.cells)⟩
    · exact Or.inr (Or.inl hdefault)

/-- A table that is left alone.  It has the property exactly when the heap is as long as
the live cells, which it is unless the table has no rows. -/
theorem empty_exact (ho : Opened s idx h) (ht : BinTable h table)
    (hin : DescriptorsInRange s h table)
    (hempty : natKeyword h.cards (str "PCOUNT") = 0 ∨ table.nrows = 0) :
    repackTableHeap idx s = .ok () s ∧ (RepackSafe s h table → RepackKeeps s idx h table s) ∧
      (RepackKeeps s idx h table s → RepackSafe s h table) := by
  have hrun := repack_of_empty ho ht hempty
  have hlive : liveBytes (tableHeapCells s h table) = 0 := by
    refine liveBytes_eq_zero fun c hc => ?_
    obtain ⟨-, hrow, -, -⟩ := cell_inRange hin hc
    have := cell_le ht hin hc
    omega
  refine ⟨hrun, fun hsafe => repackKeeps_refl ho ht ?_ hrun, fun hkeeps => ?_⟩
  · rw [hlive]
    rcases hempty with hzero | hzero
    · exact hzero.symm
    · exact (hsafe.rows hzero).symm
  · obtain ⟨cards, hdu, -, hpcount, -⟩ := hkeeps.header
    have hcards : h.cards = cards := by
      rw [ho.hdu] at hdu
      exact congrArg Hdu.cards (Option.some.inj hdu)
    rw [← hcards] at hpcount
    exact ⟨fun _ => by omega, fun hne => absurd hpcount.symm hne,
      fun hne => absurd hpcount.symm hne, fun hne => absurd hpcount.symm hne,
      fun hne => absurd hpcount.symm hne⟩

/-- A repack that is not refused returns.  It has the property under `RepackSafe`, and
only then, except by accident. -/
theorem repack_exact (ho : Opened s idx h) (ht : BinTable h table)
    (hvla : anyVarColumn table.columns = true) (hin : DescriptorsInRange s h table)
    (hsize : table.mainBytes + liveBytes (tableHeapCells s h table) ≤ 9223372036854775807)
    (hcase : ¬ TheapRefused h.cards table.mainBytes ∨ natKeyword h.cards (str "PCOUNT") = 0 ∨
      table.nrows = 0) :
    ∃ s', repackTableHeap idx s = .ok () s' ∧
      (RepackSafe s h table → RepackKeeps s idx h table s') ∧
      (RepackKeeps s idx h table s' → RepackSafe s h table ∨ table.theap ≠ table.mainBytes ∨
        ∃ c ∈ tableHeapCells s h table, 2 ^ c.kind.bits ≤ c.newOff) := by
  by_cases hempty : natKeyword h.cards (str "PCOUNT") = 0 ∨ table.nrows = 0
  · obtain ⟨hrun, hkeeps, hsafe⟩ := empty_exact ho ht hin hempty
    exact ⟨s, hrun, hkeeps, fun h => Or.inl (hsafe h)⟩
  have hpos : natKeyword h.cards (str "PCOUNT") ≠ 0 := fun hzero => hempty (Or.inl hzero)
  have hnrows : table.nrows ≠ 0 := fun hzero => hempty (Or.inr hzero)
  have hheap := hcase.resolve_right hempty
  by_cases hlive : liveBytes (tableHeapCells s h table) = natKeyword h.cards (str "PCOUNT")
  · obtain ⟨rows, -, hrun⟩ := repack_eq ho ht hvla hin hpos hnrows hheap
    rw [if_pos hlive] at hrun
    exact ⟨s, hrun, fun _ => repackKeeps_refl ho ht hlive hrun, fun _ => Or.inl
      ⟨fun hzero => absurd hzero hnrows, fun hne => absurd hlive hne, fun hne => absurd hlive hne,
        fun hne => absurd hlive hne, fun hne => absurd hlive hne⟩⟩
  · exact rebuild_exact ho ht hvla hin hsize hpos hnrows hheap hlive

end

/-! ## Two small tables -/

def heapPrimary : List Card :=
  [str "SIMPLE  =                    T", str "BITPIX  =                    8",
    str "NAXIS   =                    0", endCard]

/-- The header of a table of two rows of one variable-length byte column, with a
heap of `pcount` bytes. -/
def heapCards (pcount : Str) : List Card :=
  [str "XTENSION= 'BINTABLE'", str "BITPIX  =                    8",
    str "NAXIS   =                    2", str "NAXIS1  =                    8",
    str "NAXIS2  =                    2", str "PCOUNT  =                    " ++ pcount,
    str "GCOUNT  =                    1", str "TFIELDS =                    1",
    str "TTYPE1  = 'A       '", str "TFORM1  = '1PB     '", endCard]

def heapHdu (pcount : Str) : Hdu := ⟨heapCards pcount, ⟨2880, 1, 5760⟩, .binaryTable⟩

def heapColumn : Column := ⟨str "A", 0x42, 0, 8, some .p⟩

def heapTable : TableMeta := ⟨2, 8, 16, [heapColumn]⟩

/-- A file of a primary header and that table. -/
def heapFile (pcount : Str) (rows heap : Bytes) : Fits where
  bytes :=
  serializeHeaderToDiskBytes heapPrimary ++ serializeHeaderToDiskBytes (heapCards pcount) ++
    (rows ++ (heap ++ List.replicate (2864 - heap.length) 0))
  hdus := [⟨heapPrimary, ⟨0, 1, 2880⟩, .image⟩, heapHdu pcount]

theorem heapFile_length {pcount : Str} {rows heap : Bytes} (hrows : rows.length = 16)
    (hheap : heap.length ≤ 2864) : (heapFile pcount rows heap).bytes.length = 8640 := by
  simp [heapFile, serialize_length, headerBlocks_eq, heapPrimary, heapCards, hrows]
  omega

/-- The data section of the file. -/
theorem heapFile_drop (pcount : Str) (rows heap : Bytes) :
    (heapFile pcount rows heap).bytes.drop 5760 =
      rows ++ (heap ++ List.replicate (2864 - heap.length) 0) := by
  refine List.drop_left' ?_
  simp [serialize_length, headerBlocks_eq, heapPrimary, heapCards]

theorem tableRows_heapFile {pcount : Str} {rows heap : Bytes} (hrows : rows.length = 16) :
    tableRows (heapFile pcount rows heap) (heapHdu pcount) heapTable = rows := by
  show slice _ 5760 (2 * 8) = rows
  rw [slice, heapFile_drop, List.take_left' hrows]

theorem heapFile_heap {pcount : Str} {rows heap : Bytes} (hrows : rows.length = 16) {i : Nat}
    (hi : i < heap.length) : (heapFile pcount rows heap).bytes[5776 + i]? = heap[i]? := by
  rw [show 5776 + i = 5760 + (16 + i) by omega, ← List.getElem?_drop, heapFile_drop,
    List.getElem?_append_right (by omega), hrows, Nat.add_sub_cancel_left,
    List.getElem?_append_left hi]

/-- The table, from the lookups in its header. -/
theorem binTable_heapHdu {pcount : Str} {p : Nat}
    (hkeys : [str "BITPIX", str "NAXIS", str "GCOUNT", str "NAXIS1", str "NAXIS2",
      str "PCOUNT"].map (parseKeyword (heapCards pcount)) =
        [some 8, some 2, some 1, some 8, some 2, some (p : Int)])
    (hcard : (cardIndex (str "PCOUNT") (heapCards pcount)).isSome)
    (hfirst : PcountFirst (heapCards pcount))
    (hparsed : parseTableMeta (heapCards pcount) = .ok heapTable) (hp : p ≤ 1000000) :
    BinTable (heapHdu pcount) heapTable ∧ natKeyword (heapCards pcount) (str "PCOUNT") = p := by
  simp only [List.map_cons, List.map_nil, List.cons.injEq] at hkeys
  obtain ⟨hbitpix, hnaxis, hgcount, hnaxis1, hnaxis2, hpcount, -⟩ := hkeys
  have hbytes : tableDataBytes (heapCards pcount) = 16 + p := by
    rw [tableDataBytes, natKeyword_of_some (n := 8) hnaxis1, natKeyword_of_some (n := 2) hnaxis2,
      natKeyword_of_some hpcount]
  have hstd : StandardTable (heapCards pcount) :=
    ⟨hbitpix, hnaxis, by rw [hgcount]; rfl, ⟨8, hnaxis1⟩, ⟨2, hnaxis2⟩, by omega⟩
  have hfits : headerBlocks (heapHdu pcount).cards.length ≤
      (heapHdu pcount).offsets.headerBlockCount := by
    show headerBlocks 11 ≤ 1
    decide
  exact ⟨⟨hstd, hcard, hfirst, hfits, hparsed, by decide⟩, natKeyword_of_some hpcount⟩

theorem opened_heapFile {pcount : Str} {p : Nat} {rows heap : Bytes} (hrows : rows.length = 16)
    (hheap : heap.length ≤ 2864) (hp : p ≤ 2864) (ht : BinTable (heapHdu pcount) heapTable)
    (hpcount : natKeyword (heapCards pcount) (str "PCOUNT") = p) :
    Opened (heapFile pcount rows heap) 1 (heapHdu pcount) := by
  refine ⟨⟨rfl, by decide, by decide, ?_⟩, rfl⟩
  rw [show Hdu.dataEnd ⟨heapPrimary, ⟨0, 1, 2880⟩, .image⟩ = 2880 by decide +kernel]
  refine ⟨rfl, Nat.one_pos, ?_, ?_⟩
  · show 5760 = 2880 + 1 * blockSize
    decide
  · show (heapHdu pcount).dataEnd = _
    rw [ht.dataEnd, heapFile_length hrows hheap,
      show natKeyword (heapHdu pcount).cards (str "PCOUNT") = p
      from hpcount, show heapTable.mainBytes = 16 from rfl, roundUpToBlock_eq]
    show 5760 + _ = 8640
    omega

theorem heapTable_three :
    BinTable (heapHdu (str "3")) heapTable ∧ natKeyword (heapCards (str "3")) (str "PCOUNT") = 3 :=
  binTable_heapHdu (by decide +kernel) (by decide +kernel) (by unfold PcountFirst; decide +kernel)
    (by decide +kernel) (by decide)

example : tableDataBytes (heapCards (str "3")) = 19 := by decide +kernel

theorem heapTable_two :
    BinTable (heapHdu (str "2")) heapTable ∧ natKeyword (heapCards (str "2")) (str "PCOUNT") = 2 :=
  binTable_heapHdu (by decide +kernel) (by decide +kernel) (by unfold PcountFirst; decide +kernel)
    (by decide +kernel) (by decide)

/-- Row 0 holds byte 1 of the heap; row 1 is empty. -/
def oneDeadRows : Bytes := writeDescriptor .p 1 1 ++ writeDescriptor .p 0 0

/-- Row 0 holds byte 1 of the heap; row 1 holds bytes 0 to 2. -/
def sharedRows : Bytes := writeDescriptor .p 1 1 ++ writeDescriptor .p 3 0

example : slotDescriptor sharedRows 8 1 heapColumn .p = (3, 0) := by decide +kernel

theorem heapCells_oneDead : heapCells oneDeadRows 8 (tableCells 2 [heapColumn]) 0 =
    [⟨0, heapColumn, .p, 1, 1, 0⟩, ⟨1, heapColumn, .p, 0, 0, 1⟩] := by
  decide +kernel

theorem heapCells_shared : heapCells sharedRows 8 (tableCells 2 [heapColumn]) 0 =
    [⟨0, heapColumn, .p, 1, 1, 0⟩, ⟨1, heapColumn, .p, 3, 0, 1⟩] := by
  decide +kernel

/-- Two byte cells in range. -/
theorem inRange_two {rows : Bytes} {p n₀ o₀ n₁ o₁ : Nat}
    (h₀ : slotDescriptor rows 8 0 heapColumn .p = ((n₀ : Int), (o₀ : Int)))
    (h₁ : slotDescriptor rows 8 1 heapColumn .p = ((n₁ : Int), (o₁ : Int)))
    (hle₀ : o₀ + n₀ ≤ p) (hle₁ : o₁ + n₁ ≤ p) :
    InRange rows 8 p (tableCells 2 [heapColumn]) := by
  rintro ⟨row, column⟩ hcell kind hkind
  obtain ⟨hrow, hcolumn⟩ := mem_tableCells.1 hcell
  obtain rfl : column = heapColumn := by simpa using hcolumn
  obtain rfl : VarKind.p = kind := Option.some.inj hkind
  have hbytes : ∀ n, exactLength heapColumn.tformLetter n = n := fun n => Nat.mul_one n
  dsimp only
  obtain rfl | rfl : row = 0 ∨ row = 1 := by omega
  · rw [h₀]
    exact ⟨by simp, by simp, by simpa [hbytes] using hle₀⟩
  · rw [h₁]
    exact ⟨by simp, by simp, by simpa [hbytes] using hle₁⟩

example : livePlans (heapCells sharedRows 8 (tableCells 2 [heapColumn]) 0) =
    [⟨1, 1, 0⟩, ⟨0, 3, 1⟩] := by
  decide +kernel

end RustFits.BinaryTable
