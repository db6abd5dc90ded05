import RustFits.BinaryTable.Columns
import RustFits.Lib.Moves

/-!
# Reading cells and repacking the heap

A variable-length cell is a region of the heap.  Assignments leave dead regions
behind, and `repack_table_heap` (`write_vla.rs`) rebuilds the heap from the live
ones, in row order.

* `readCell` is a cell as the readers resolve it (`heap_pass` of `read.rs` for a
  variable-length one): its number of elements and its bytes.
* `repackTableHeap` follows the source: the scan of the descriptors, the moves in
  place or through a staging area behind the heap, the new descriptor table, the
  tail of the file and the header.
-/

namespace RustFits.BinaryTable

open Ascii ByteFile Machine BigEndian

/-! ## Reading a cell -/

/-- The heap bytes of a cell of `n` elements. -/
def cellLength (letter : UInt8) (n : Nat) : Nat :=
  if letter = 0x58 then divCeil n 8 else n * (bytesPerElement letter).getD 0 % u64Size

/-- The place of a column in the rows. -/
def slotOffset (rowWidth row : Nat) (column : Column) : Nat := row * rowWidth + column.byteOffset

/-- The bytes of a column in a row. -/
def readSlot (file : Bytes) (dataOffset rowWidth row : Nat) (column : Column) : Bytes :=
  slice file (dataOffset + slotOffset rowWidth row column) column.byteWidth

/-- A variable-length cell, from its descriptor. -/
def readVarCell (file : Bytes) (heapBaseFile : Nat) (letter : UInt8) (desc : Int × Int) :
    Except PyErr (Nat × Bytes) :=
  if desc.1 < 0 ∨ desc.2 < 0 then
    .error (.io (str "variable cell descriptor (nelements=" ++ intDec desc.1 ++
      str ", heap_offset=" ++ intDec desc.2 ++ str ") has negative values"))
  else
    match readExact file (heapBaseFile + desc.2.toNat) (cellLength letter desc.1.toNat) with
    | some bytes => .ok (desc.1.toNat, bytes)
    | none => .error (.io (str "failed to fill whole buffer"))

/-- A cell of the table: the elements of a variable-length one, the bytes of any. -/
def readCell (file : Bytes) (dataOffset : Nat) (table : TableMeta) (row : Nat) (column : Column) :
    Except PyErr (Nat × Bytes) :=
  let slot := readSlot file dataOffset table.rowWidth row column
  match column.varKind with
  | none => .ok (0, slot)
  | some kind =>
    readVarCell file (dataOffset + table.theap) column.tformLetter (readDescriptor kind slot)

/-! ## The scan -/

/-- `heap_base_in_data`. -/
def heapBaseInData (cards : List Card) : Nat :=
  let theap := (parseKeyword cards (str "THEAP")).getD 0
  if 0 < theap then theap.toNat
  else saturatingMul (natKeyword cards (str "NAXIS1")) (natKeyword cards (str "NAXIS2"))

/-- A live cell and its place in the compact heap. -/
structure MovePlan where
  oldOff : Nat
  length : Nat
  newOff : Nat
  deriving DecidableEq, Repr

/-- The state of the scan: the rows with their new descriptors, the live cells so
far, and the end of the compact heap so far. -/
structure Scan where
  mainBuf : Bytes
  plans : List MovePlan
  newCursor : Nat

/-- One column of one row. -/
def scanCell (rowWidth currentPcount : Nat) (scan : Scan) (cell : Nat × Column) :
    Except PyErr Scan :=
  match cell.2.varKind with
  | none => .ok scan
  | some kind => do
    let descOff := slotOffset rowWidth cell.1 cell.2
    let desc ← sliceOf scan.mainBuf descOff cell.2.byteWidth
    let (nelementsS, oldOffS) := readDescriptor kind desc
    if nelementsS < 0 ∨ oldOffS < 0 then
      .error (.value (str "repack: column '" ++ cell.2.name ++ str "' row " ++ natDec cell.1 ++
        str ": descriptor has negative field (nelements=" ++ intDec nelementsS ++ str ", offset=" ++
        intDec oldOffS ++ str ")"))
    else
      let nelements := nelementsS.toNat
      let oldOff := oldOffS.toNat
      let nBytes := cellLength cell.2.tformLetter nelements
      if currentPcount < (oldOff + nBytes) % u64Size then
        .error (.value (str "repack: column '" ++ cell.2.name ++ str "' row " ++ natDec cell.1 ++
          str ": descriptor points past heap end (offset+bytes=" ++
          natDec ((oldOff + nBytes) % u64Size) ++ str " > PCOUNT=" ++ natDec currentPcount ++
          str ")"))
      else do
        let mainBuf ← splice scan.mainBuf descOff (writeDescriptor kind nelements scan.newCursor)
        if 0 < nBytes then
          return ⟨mainBuf, scan.plans ++ [⟨oldOff, nBytes, scan.newCursor⟩],
            scan.newCursor + nBytes⟩
        else return { scan with mainBuf := mainBuf }

/-- Every column of every row. -/
def tableCells (nrows : Nat) (columns : List Column) : List (Nat × Column) :=
  (List.range nrows).flatMap fun row => columns.map fun column => (row, column)

/-! ## The moves -/

/-- No move in place overwrites a cell that is still to be read. -/
def fastPathSafe (currentPcount : Nat) : List MovePlan → Bool
  | [] => true
  | [plan] => decide (plan.newOff + plan.length ≤ currentPcount)
  | plan :: next :: rest =>
    decide (plan.newOff + plan.length ≤ next.oldOff) && fastPathSafe currentPcount (next :: rest)

/-- The in-place moves. -/
def moveInPlace (heapStart : Nat) (plans : List MovePlan) : FileOp Unit :=
  plans.forM fun plan =>
    if plan.newOff = plan.oldOff then pure ()
    else streamCopyInFile shiftChunk (heapStart + plan.oldOff) (heapStart + plan.newOff) plan.length

/-- The moves through the staging area behind the heap. -/
def moveStaged (dataOffset mainBytes heapStart currentPcount newPcount : Nat)
    (plans : List MovePlan) : FileOp Unit := do
  growFileToAtLeast dataOffset (mainBytes + currentPcount + newPcount)
  plans.forM fun plan => streamCopyInFile shiftChunk (heapStart + plan.oldOff)
    (heapStart + currentPcount + plan.newOff) plan.length
  plans.forM fun plan => streamCopyInFile shiftChunk (heapStart + currentPcount + plan.newOff)
    (heapStart + plan.newOff) plan.length

/-- The data section, which ends at `currentEnd`, shrinks to `newHduEnd`, with the
tail of the file. -/
def shrinkHdu (currentEnd newHduEnd : Nat) : FileOp Unit := fun s =>
  if newHduEnd < currentEnd then
    if currentEnd < s.bytes.length then
      shiftFileTailBackwardAndUpdateOffsets currentEnd (currentEnd - newHduEnd) s
    else .ok () { s with bytes := setLen s.bytes newHduEnd }
  else .ok () s

/-- The live cells in the order of the old heap. -/
def sortPlans (plans : List MovePlan) : List MovePlan :=
  plans.mergeSort fun a b => decide (a.oldOff ≤ b.oldOff)

/-- The moves.  The result is the end of the data section after them
(`effective_current_hdu_end`). -/
def moveCells (dataOffset mainBytes heapStart currentPcount newPcount : Nat)
    (plans : List MovePlan) : FileOp Nat :=
  if fastPathSafe currentPcount plans then do
    moveInPlace heapStart plans
    return dataOffset + roundUpToBlock (mainBytes + currentPcount)
  else do
    moveStaged dataOffset mainBytes heapStart currentPcount newPcount plans
    return dataOffset + roundUpToBlock (mainBytes + currentPcount + newPcount)

/-- The moves, the descriptors, the tail of the file and the header, once the
scan has found a different heap size. -/
def rebuildHeap (idx : Nat) (cards : List Card)
    (dataOffset mainBytes heapStart currentPcount : Nat) (scan : Scan) : FileOp Unit := do
  let newPcount := scan.newCursor
  let currentEnd ← moveCells dataOffset mainBytes heapStart currentPcount newPcount
    (sortPlans scan.plans)
  writeAt dataOffset scan.mainBuf
  shrinkHdu currentEnd (dataOffset + roundUpToBlock (mainBytes + newPcount))
  let newCards := setPcountInCards cards newPcount
  writeHeaderBefore dataOffset newCards
  commitCards idx newCards

/-- `repack_table_heap`. -/
def repackTableHeap (idx : Nat) : FileOp Unit := do
  let s ← get
  match s.hdus[idx]? with
  | none => throw (.value (str "no such HDU"))
  | some h =>
    let cards := h.cards
    let dataOffset := h.offsets.dataOffset
    let columns ← FileOp.ofExcept (parseColumns cards)
    let nrows := natKeyword cards (str "NAXIS2")
    let rowWidth := natKeyword cards (str "NAXIS1")
    let currentPcount := natKeyword cards (str "PCOUNT")
    if !anyVarColumn columns then return ()
    else if currentPcount = 0 ∨ nrows = 0 then return ()
    else do
      let theapRaw := (parseKeyword cards (str "THEAP")).getD 0
      let mainBytes := saturatingMul nrows rowWidth
      FileOp.raiseIf (0 < theapRaw ∧ theapRaw.toNat ≠ mainBytes)
        (.value (str "repack: file has non-default THEAP=" ++ intDec theapRaw ++
          str " (main rows end at " ++ natDec mainBytes ++
          str "); repack would write the new heap at the default position and corrupt the " ++
          str "file.  Workaround: rewrite the file through a fresh create_table_hdu + write"))
      let mainBuf ← readAt (str "repack: read main table failed: ") dataOffset (nrows * rowWidth)
      let scan ← FileOp.ofExcept
        ((tableCells nrows columns).foldlM (scanCell rowWidth currentPcount) ⟨mainBuf, [], 0⟩)
      if scan.newCursor = currentPcount then return ()
      else
        rebuildHeap idx cards dataOffset mainBytes (dataOffset + heapBaseInData cards) currentPcount
          scan

end RustFits.BinaryTable
