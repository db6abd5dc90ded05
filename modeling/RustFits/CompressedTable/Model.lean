import RustFits.BinaryTable.Columns
import RustFits.TableHeader

/-!
# Compressed tables

A compressed table keeps one row per tile: for every column of the original
table a 16-byte descriptor of the blob that holds this column's cells in the
tile.  The blobs lie in the heap behind the rows.  For a variable-length column
the blob holds two descriptor arrays, one of the original heap and one of the
compressed cells, which are heap blobs of their own.

The mutations (`write.rs`, `append.rs`, `setitem.rs`, `repack.rs` of
`hdu_table_compressed`) follow the source step by step.  The codecs are a
parameter.  So are the columns, which none of the operations changes, and the
outcome of the conversion of the input arrays, which is numpy's: a converted
cell is its big-endian bytes.
-/

namespace RustFits.CompressedTable

open Ascii ByteFile Machine BigEndian

/-- A column of the original table. -/
structure Column where
  name : Str
  tformLetter : UInt8
  byteWidth : Nat
  varKind : Option VarKind
  deriving DecidableEq, Repr

/-- The codecs: the slab of a column by the algorithm of its `ZCTYPn` card, and
the gzip of the descriptor arrays.  `n` is the number of rows of a slab, or of
elements of a variable-length cell. -/
structure Codec where
  encodeTableColumnSlab : (col n : Nat) → Bytes → Except PyErr Bytes
  decompressColumnSlab : (col n : Nat) → Bytes → Except PyErr Bytes
  encodeGzip1 : Bytes → Except PyErr Bytes
  gzipDecompressBytes : Bytes → (expectedLen : Nat) → Except PyErr Bytes

/-- A variable-length cell: its number of elements and, when it serializes, its
big-endian bytes. -/
structure VlaCell where
  nelements : Nat
  bytes : Except PyErr Bytes

/-- The array given for one column: it may fail the checks that precede every
change of the file, and single cells may fail to convert. -/
inductive ColumnInput where
  | rejected (e : PyErr)
  | fixed (cells : List (Except PyErr Bytes))
  | vla (cells : List (Except PyErr VlaCell))

/-- The checks of the arrays, in column order. -/
def checkInputs : List ColumnInput → Except PyErr Unit
  | [] => .ok ()
  | .rejected e :: _ => .error e
  | _ :: rest => checkInputs rest

def ColumnInput.fixedCell (input : ColumnInput) (row : Nat) : Except PyErr Bytes :=
  match input with
  | .fixed cells => cells.getD row (.error (.panic (str "input row")))
  | .rejected e => .error e
  | .vla _ => .error (.panic (str "column kind"))

def ColumnInput.vlaCell (input : ColumnInput) (row : Nat) : Except PyErr VlaCell :=
  match input with
  | .vla cells => cells.getD row (.error (.panic (str "input row")))
  | .rejected e => .error e
  | .fixed _ => .error (.panic (str "column kind"))

/-- A column with the array given for it. -/
abbrev Source := Column × ColumnInput

/-! ## The layout of the original heap -/

/-- One row of `plan_vla_heap_layout`: the original heap offset of every cell
(unused for a fixed column), and the offset behind the row. -/
def planRow (row : Nat) : List Source → Nat → Except PyErr (List Nat × Nat)
  | [], cursor => .ok ([], cursor)
  | (column, input) :: rest, cursor =>
    match column.varKind with
    | none => do
      let (offsets, next) ← planRow row rest cursor
      return (0 :: offsets, next)
    | some _ => do
      let cell ← input.vlaCell row
      let bytes := if column.tformLetter = 0x58 then divCeil cell.nelements 8
        else cell.nelements * (bytesPerElement column.tformLetter).getD 0
      if u64Size ≤ cursor + bytes then .error (.value (str "heap size overflow"))
      else
        let (offsets, next) ← planRow row rest (cursor + bytes)
        return (cursor :: offsets, next)

/-- `plan_vla_heap_layout`, row by row from `row` on. -/
def planVlaHeapLayout (sources : List Source) :
  Nat → Nat → Nat → Except PyErr (List (List Nat) × Nat)
  | 0, _, cursor => .ok ([], cursor)
  | nrows + 1, row, cursor => do
    let (offsets, next) ← planRow row sources cursor
    let (plans, total) ← planVlaHeapLayout sources nrows (row + 1) next
    return (offsets :: plans, total)

/-- The original heap offset planned for a cell. -/
def plannedOffset (plans : List (List Nat)) (row col : Nat) : Nat := (plans.getD row []).getD col 0

/-! ## Encoding into the heap -/

/-- Where the table lies: its data section, its heap and the width of a row. -/
structure Place where
  dataOffset : Nat
  heapStart : Nat
  rowWidth : Nat

/-- The loop state of an encoder: the heap cursor and the descriptor table. -/
structure Progress where
  cursor : Nat
  table : Bytes

section

variable (codec : Codec)

/-- `encode_be_slab_to_heap_and_record`. -/
def encodeBeSlabToHeapAndRecord (place : Place) (tile col n : Nat) (slab : Bytes) (st : Progress) :
    FileOp Progress := do
  let blob ← FileOp.ofExcept (codec.encodeTableColumnSlab col n slab)
  let cursor ← heapPut place.dataOffset place.heapStart st.cursor blob
  let table ← FileOp.ofExcept
    (recordDescriptor st.table place.rowWidth tile col blob.length st.cursor)
  return ⟨cursor, table⟩

/-- `build_and_encode_tile_col`. -/
def buildAndEncodeTileCol (place : Place) (tile col rowsInTile sourceRowOffset : Nat)
    (input : ColumnInput) (st : Progress) : FileOp Progress := do
  let cells ← FileOp.ofExcept
    ((List.range rowsInTile).mapM fun r => input.fixedCell (sourceRowOffset + r))
  encodeBeSlabToHeapAndRecord codec place tile col rowsInTile cells.flatten st

/-- What is stored of a cell: its bytes when the compressed form is no shorter. -/
def cellPayload (col : Nat) (cell : VlaCell) : Except PyErr Bytes := do
  let cellBytesBe ← cell.bytes
  let compressed ← codec.encodeTableColumnSlab col cell.nelements cellBytesBe
  return if cellBytesBe.length ≤ compressed.length then cellBytesBe else compressed

/-- Put a cell in the heap, unless it is empty: the new cursor and the place of
the stored bytes. -/
def putCell (place : Place) (col : Nat) (cell : VlaCell) (cursor : Nat) :
    FileOp (Nat × Nat × Nat) := do
  if cell.nelements = 0 then
    return (cursor, 0, 0)
  else
    let payload ← FileOp.ofExcept (cellPayload codec col cell)
    let next ← heapPut place.dataOffset place.heapStart cursor payload
    return (next, payload.length, cursor)

/-- The loop over the cells of a tile: the cursor behind them and, for every
cell, its number of elements and the place of its stored bytes. -/
def putCells (place : Place) (col : Nat) (input : ColumnInput) :
    List Nat → Nat → FileOp (Nat × List (Nat × Nat × Nat))
  | [], cursor => return (cursor, [])
  | row :: rows, cursor => do
    let cell ← FileOp.ofExcept (input.vlaCell row)
    let (next, cvlalen, cvlastart) ← putCell codec place col cell cursor
    let (last, cells) ← putCells place col input rows next
    return (last, (cell.nelements, cvlalen, cvlastart) :: cells)

/-- The compressed dual-descriptor blob goes behind the cells, and its
descriptor into the table. -/
def putBlob (place : Place) (tile col cursor : Nat) (blob table : Bytes) : FileOp Progress := do
  let gzipped ← FileOp.ofExcept (codec.encodeGzip1 blob)
  let next ← heapPut place.dataOffset place.heapStart cursor gzipped
  let table ← FileOp.ofExcept (recordDescriptor table place.rowWidth tile col gzipped.length cursor)
  return ⟨next, table⟩

/-- The element width of a variable-length column. -/
def checkElemSize (column : Column) : Except PyErr Unit :=
  match bytesPerElement column.tformLetter with
  | some _ => .ok ()
  | none => .error (.value (str "VLA column '" ++ column.name ++
      str "': unsupported inner letter '" ++ [column.tformLetter] ++ str "'"))

/-- The original descriptors of the cells, then the descriptors of the stored
bytes. -/
def dualDescriptorBlob (kind : VarKind) (plans : List (List Nat)) (col : Nat) (rows : List Nat)
    (cells : List (Nat × Nat × Nat)) : Bytes :=
  ((cells.zip rows).flatMap fun cell =>
    writeDescriptor kind cell.1.1 (plannedOffset plans cell.2 col)) ++
  cells.flatMap fun cell => writeDescriptor .q cell.2.1 cell.2.2

/-- `encode_vla_column_tile`. -/
def encodeVlaColumnTile (place : Place) (tile col rowsInTile tileRowStart : Nat) (kind : VarKind)
    (column : Column) (input : ColumnInput) (plans : List (List Nat)) (st : Progress) :
    FileOp Progress := do
  FileOp.ofExcept (checkElemSize column)
  let rows := (List.range rowsInTile).map (tileRowStart + ·)
  let (cursor, cells) ← putCells codec place col input rows st.cursor
  putBlob codec place tile col cursor (dualDescriptorBlob kind plans col rows cells) st.table

/-- One column of one fresh tile. -/
def encodeTileColumn (place : Place) (plans : List (List Nat))
    (tile rowsInTile sourceRowOffset : Nat) (st : Progress) (source : Source × Nat) :
    FileOp Progress :=
  match source.1.1.varKind with
  | some kind => encodeVlaColumnTile codec place tile source.2 rowsInTile sourceRowOffset kind
      source.1.1 source.1.2 plans st
  | none => buildAndEncodeTileCol codec place tile source.2 rowsInTile sourceRowOffset source.1.2 st

/-! ## write -/

/-- A tile of a full write. -/
def writeTile (place : Place) (sources : List Source) (plans : List (List Nat))
    (nrows ztilelen nTiles : Nat) (st : Progress) (tile : Nat) : FileOp Progress := do
  let tileRowStart := tile * ztilelen
  let rowsInTile := if tile + 1 = nTiles then wrappingSub nrows tileRowStart else ztilelen
  sources.zipIdx.foldlM (encodeTileColumn codec place plans tile rowsInTile tileRowStart) st

/-- The header that a write leaves: heap size and original heap size. -/
def pcountCards (cards : List Card) (pcount : Nat) (zpcount : Option Nat) : List Card :=
  match zpcount with
  | some z => setZpcountInCards (setPcountInCards cards pcount) z
  | none => setPcountInCards cards pcount

/-- The header goes to disk, then the cards are committed. -/
def commitHeader (idx : Nat) (cards : List Card) : FileOp Unit := do
  rewriteHeaderToDisk idx cards
  commitCards idx cards

/-- The original heap of a write or an append, planned from `start` on. -/
def planInput (sources : List Source) (nrows start : Nat) : Except PyErr (List (List Nat) × Nat) :=
  if sources.any fun source => source.1.varKind.isSome then
    planVlaHeapLayout sources nrows 0 start
  else .ok ([], start)

/-- `write_compressed_table_data`. -/
def writeCompressedTableData (idx : Nat) (cards : List Card) (columns : List Column)
    (inputs : List ColumnInput) (nrows ztilelen nTiles rowWidth dataOffset : Nat) :
    FileOp Unit := do
  FileOp.raiseIf (inputs.length ≠ columns.length)
    (.value (str "internal: per-column inputs len " ++ natDec inputs.length ++
      str " != columns len " ++ natDec columns.length))
  let sources := columns.zip inputs
  let (plans, originalPcount) ← FileOp.ofExcept (planInput sources nrows 0)
  FileOp.ofExcept (checkInputs inputs)
  let place : Place := ⟨dataOffset, dataOffset + nTiles * rowWidth, rowWidth⟩
  let currentEnd := dataOffset + roundUpToBlock (nTiles * rowWidth)
  modify fun s => if s.bytes.length < currentEnd then { s with bytes := setLen s.bytes currentEnd }
    else s
  let st ← (List.range nTiles).foldlM (writeTile codec place sources plans nrows ztilelen nTiles)
    ⟨0, List.replicate (nTiles * rowWidth) 0⟩
  let totalDataBytes := nTiles * rowWidth + st.cursor
  writeAt (dataOffset + totalDataBytes)
    (List.replicate (roundUpToBlock totalDataBytes - totalDataBytes) 0)
  writeAt dataOffset st.table
  commitHeader idx (pcountCards cards st.cursor (some originalPcount))

/-! ## Reading a tile back -/

/-- The heap base that the decoders use. -/
def heapBase (cards : List Card) : Nat :=
  let theap := (parseKeyword cards (str "THEAP")).getD 0
  if 0 < theap then theap.toNat
  else natKeyword cards (str "NAXIS2") * natKeyword cards (str "NAXIS1")

/-- `decode_existing_tile_to_be_bytes`. -/
def decodeExistingTileToBeBytes (cards : List Card) (dataOffset tile col rowsInTile rowWidth : Nat)
    (column : Column) : FileOp Bytes := do
  let heapStart := dataOffset + heapBase cards
  let desc ← readAt (str "append/decode: read descriptor failed: ")
    (dataOffset + tile * rowWidth + col * 16) 16
  let (nelems, heapOffset) := readDescriptor .q desc
  FileOp.raiseIf (nelems < 0 ∨ heapOffset < 0)
    (.value (str "append/decode: tile " ++ natDec tile ++ str " col '" ++ column.name ++
      str "': descriptor has negative field (nelements=" ++ intDec nelems ++ str ", offset=" ++
      intDec heapOffset ++ str ")"))
  let compressed ← readAt (str "append/decode: read heap failed: ")
    (heapStart + heapOffset.toNat) nelems.toNat
  FileOp.ofExcept (codec.decompressColumnSlab col rowsInTile compressed)

/-- `read_vla_merge_old_blob`. -/
def readVlaMergeOldBlob (dataOffset tile col rowspertile existingNTiles rowWidth : Nat)
    (kind : VarKind) (column : Column) : FileOp Bytes := do
  let mainDesc ← readAt (str "append: read main desc for VLA tile " ++ natDec tile ++
    str " col '" ++ column.name ++ str "': ") (dataOffset + tile * rowWidth + col * 16) 16
  let (nelems, heapOffset) := readDescriptor .q mainDesc
  if nelems.toNat = 0 then
    return []
  else
    let compressed ← readAt (str "append: read existing VLA dual-descriptor blob for tile " ++
      natDec tile ++ str " col '" ++ column.name ++ str "': ")
      (dataOffset + existingNTiles * rowWidth + heapOffset.toNat) nelems.toNat
    FileOp.ofExcept
      (codec.gzipDecompressBytes compressed (rowspertile * kind.width + rowspertile * 16))

/-! ## append -/

/-- What an append keeps of the last tile, for one column: the slab of a fixed
column, the descriptor arrays of a variable-length one. -/
def readMergeColumn (cards : List Card)
    (dataOffset tile rowsInTile existingNTiles rowWidth : Nat) (column : Column) (col : Nat) :
    FileOp Bytes :=
  match column.varKind with
  | some kind =>
    readVlaMergeOldBlob codec dataOffset tile col rowsInTile existingNTiles rowWidth kind column
  | none =>
    decodeExistingTileToBeBytes codec cards dataOffset tile col rowsInTile rowWidth column

/-- `relocate_region_forward_local`. -/
def relocateRegionForwardLocal (srcStart dstStart total : Nat) : FileOp Unit := fun s =>
  if total = 0 ∨ srcStart = dstStart then .ok () s
  else
    match copyBackToFront shiftChunk srcStart dstStart total total s.bytes with
    | none => .error (.io (str "append: heap relocate read failed")) s
    | some bytes => .ok () { s with bytes := bytes }

/-- The stored cells of the last tile are copied to the end of the heap: the
cursor behind them and, for every cell, its original descriptor and the place of
its stored bytes. -/
def copyCells (place : Place) (kind : VarKind) (oldBlob : Bytes) (rowspertile : Nat) :
    List Nat → Nat → FileOp (Nat × List (Bytes × Nat × Nat))
  | [], cursor => return (cursor, [])
  | r :: rows, cursor => do
    let original ← FileOp.ofExcept (sliceOf oldBlob (r * kind.width) kind.width)
    let desc ← FileOp.ofExcept (sliceOf oldBlob (rowspertile * kind.width + r * 16) 16)
    let cvlalen := (readDescriptor .q desc).1.toNat
    let cvlastart := (readDescriptor .q desc).2.toNat
    if cvlalen = 0 then
      let (last, cells) ← copyCells place kind oldBlob rowspertile rows cursor
      return (last, (original, 0, 0) :: cells)
    else
      let dstAbs := place.heapStart + cursor
      growFileToAtLeast place.dataOffset (dstAbs + cvlalen - place.dataOffset)
      streamCopyInFile shiftChunk (place.heapStart + cvlastart) dstAbs cvlalen
      let (last, cells) ← copyCells place kind oldBlob rowspertile rows (cursor + cvlalen)
      return (last, (original, cvlalen, cursor) :: cells)

/-- `encode_vla_column_tile_with_merge`. -/
def encodeVlaColumnTileWithMerge (place : Place) (tile col existingRows mergeRows : Nat)
    (kind : VarKind) (column : Column) (input : ColumnInput) (plans : List (List Nat))
    (oldBlob : Bytes) (st : Progress) : FileOp Progress := do
  FileOp.ofExcept (checkElemSize column)
  let (middle, kept) ← copyCells place kind oldBlob existingRows (List.range existingRows) st.cursor
  let rows := List.range mergeRows
  let (cursor, cells) ← putCells codec place col input rows middle
  let blob :=
    (kept.flatMap fun cell => cell.1) ++
    ((cells.zip rows).flatMap fun (cell, row) =>
      writeDescriptor kind cell.1 (plannedOffset plans row col)) ++
    (kept.flatMap fun cell => writeDescriptor .q cell.2.1 cell.2.2) ++
    cells.flatMap fun cell => writeDescriptor .q cell.2.1 cell.2.2
  putBlob codec place tile col cursor blob st.table

/-- One column of the tile that an append fills up. -/
def mergeTileColumn (place : Place) (plans : List (List Nat)) (tile existingRows mergeRows : Nat)
    (st : Progress) (source : (Source × Bytes) × Nat) : FileOp Progress :=
  match source.1.1.1.varKind with
  | some kind => encodeVlaColumnTileWithMerge codec place tile source.2 existingRows mergeRows kind
      source.1.1.1 source.1.1.2 plans source.1.2 st
  | none => do
    let cells ← FileOp.ofExcept ((List.range mergeRows).mapM source.1.1.2.fixedCell)
    encodeBeSlabToHeapAndRecord codec place tile source.2 (existingRows + mergeRows)
      (source.1.2 ++ cells.flatten) st

/-- A fresh tile of an append. -/
def appendTile (place : Place) (sources : List Source) (plans : List (List Nat))
    (appendNrows ztilelen existingNTiles addedNTiles mergeRows : Nat) (st : Progress)
    (newTileOffset : Nat) : FileOp Progress :=
  let tileRowStart := mergeRows + newTileOffset * ztilelen
  let rowsInTile := if newTileOffset + 1 = addedNTiles then wrappingSub appendNrows tileRowStart
    else ztilelen
  sources.zipIdx.foldlM
    (encodeTileColumn codec place plans (existingNTiles + newTileOffset) rowsInTile tileRowStart) st

/-- The header that an append leaves. -/
def appendedCards (cards : List Card) (newNTiles newNrows pcount : Nat) (zpcount : Option Nat) :
    Except PyErr (List Card) := do
  let cards ← updateIntCardInPlace cards (str "NAXIS2") (asI64 newNTiles) (str "number of tiles")
  let cards ← updateIntCardInPlace cards (str "ZNAXIS2") (asI64 newNrows)
    (str "original (uncompressed) row count")
  return pcountCards cards pcount zpcount

/-- The numbers of an append. -/
structure AppendShape where
  newNrows : Nat
  newNTiles : Nat
  addedNTiles : Nat
  existingRows : Nat
  mergeRows : Nat

/-- How the new rows spread over the last tile and fresh tiles. -/
def appendShape (appendNrows existingNrows ztilelen existingNTiles : Nat) : AppendShape :=
  let newNrows := existingNrows + appendNrows
  let newNTiles := divCeil newNrows (max ztilelen 1)
  let existingRows := if existingNTiles = 0 then 0
    else wrappingSub existingNrows ((existingNTiles - 1) * ztilelen)
  let room := if 0 < existingNTiles ∧ existingRows < ztilelen then ztilelen - existingRows else 0
  { newNrows := newNrows
    newNTiles := newNTiles
    addedNTiles := wrappingSub newNTiles existingNTiles
    existingRows := existingRows
    mergeRows := min appendNrows room }

/-- The columns of the last tile, when new rows go into it. -/
def readMergeColumns (cards : List Card) (columns : List Column) (shape : AppendShape)
    (existingNTiles rowWidth dataOffset : Nat) : FileOp (List Bytes) :=
  if 0 < shape.mergeRows then
    columns.zipIdx.mapM fun column => readMergeColumn codec cards dataOffset (existingNTiles - 1)
      shape.existingRows existingNTiles rowWidth column.1 column.2
  else pure []

/-- The heap moves behind the larger descriptor table. -/
def relocateHeap (dataOffset oldDescsBytes newDescsBytes addedDescsBytes pcount : Nat) :
    FileOp Unit :=
  if 0 < addedDescsBytes ∧ 0 < pcount then
    relocateRegionForwardLocal (dataOffset + oldDescsBytes) (dataOffset + newDescsBytes) pcount
  else pure ()

/-- The descriptor table with room for the new tiles. -/
def grownTable (existing : Bytes) (newDescsBytes : Nat) : Except PyErr Bytes :=
  if existing.length ≤ newDescsBytes then
    .ok (existing ++ List.replicate (newDescsBytes - existing.length) 0)
  else .error (.panic (str "descriptor table"))

/-- The last tile takes its share of the new rows. -/
def mergeTile (place : Place) (sources : List Source) (plans : List (List Nat)) (kept : List Bytes)
    (shape : AppendShape) (existingNTiles : Nat) (st : Progress) : FileOp Progress :=
  if 0 < shape.mergeRows then
    (sources.zip kept).zipIdx.foldlM (mergeTileColumn codec place plans (existingNTiles - 1)
      shape.existingRows shape.mergeRows) st
  else pure st

/-- The part of an append that changes the file. -/
def appendRows (idx : Nat) (cards : List Card) (sources : List Source) (plans : List (List Nat))
    (kept : List Bytes) (shape : AppendShape) (zpcount : Option Nat)
    (appendNrows ztilelen existingNTiles rowWidth dataOffset currentPcount : Nat) :
    FileOp Unit := do
  let newDescsBytes := shape.newNTiles * rowWidth
  growFileToAtLeast dataOffset (newDescsBytes + currentPcount)
  relocateHeap dataOffset (existingNTiles * rowWidth) newDescsBytes (shape.addedNTiles * rowWidth)
    currentPcount
  let place : Place := ⟨dataOffset, dataOffset + newDescsBytes, rowWidth⟩
  let existing ← readAt (str "append: read existing descriptor table failed: ") dataOffset
    (existingNTiles * rowWidth)
  let table ← FileOp.ofExcept (grownTable existing newDescsBytes)
  let merged ← mergeTile codec place sources plans kept shape existingNTiles ⟨currentPcount, table⟩
  let st ← (List.range shape.addedNTiles).foldlM (appendTile codec place sources plans appendNrows
    ztilelen existingNTiles shape.addedNTiles shape.mergeRows) merged
  writeAt dataOffset st.table
  let newCards ← FileOp.ofExcept
    (appendedCards cards shape.newNTiles shape.newNrows st.cursor zpcount)
  commitHeader idx newCards

/-- `append_compressed_table_data`, for `appendNrows` new rows.  The result says
that the tile cache was cleared. -/
def appendCompressedTableData (idx : Nat) (cards : List Card) (columns : List Column)
    (inputs : List ColumnInput)
    (appendNrows existingNrows ztilelen existingNTiles rowWidth dataOffset currentPcount : Nat) :
    FileOp Bool := do
  FileOp.raiseIf (inputs = [] ∨ columns = [])
    (.value (str "CompressedTableHDU.append: no columns to write"))
  if appendNrows = 0 then
    return false
  else
    let sources := columns.zip inputs
    let shape := appendShape appendNrows existingNrows ztilelen existingNTiles
    FileOp.ofExcept (checkInputs inputs)
    let (plans, newOrigPcount) ← FileOp.ofExcept
      (planInput sources appendNrows (natKeyword cards (str "ZPCOUNT")))
    let kept ← readMergeColumns codec cards columns shape existingNTiles rowWidth dataOffset
    let zpcount := if columns.any fun column => column.varKind.isSome then some newOrigPcount
      else none
    appendRows codec idx cards sources plans kept shape zpcount appendNrows ztilelen existingNTiles
      rowWidth dataOffset currentPcount
    return true

/-! ## setitem -/

/-- The rows to change, by tile in increasing order: the row in the tile and the
row of the input. -/
def editsByTile (zt : Nat) (diskRows : List Nat) : List (Nat × List (Nat × Nat)) :=
  let lastTile := (diskRows.map (· / zt)).foldr max 0
  (List.range (lastTile + 1)).filterMap fun tile =>
    match (diskRows.zipIdx.filter fun (row, _) => row / zt = tile).map
        fun (row, inputRow) => (row % zt, inputRow) with
    | [] => none
    | edits => some (tile, edits)

/-- The new cells of a tile of a fixed column. -/
def editSlab (width : Nat) (input : ColumnInput) : List (Nat × Nat) → Bytes → Except PyErr Bytes
  | [], slab => .ok slab
  | (inTile, inputRow) :: edits, slab => do
    let cell ← input.fixedCell inputRow
    let slab ← splice slab (inTile * width) cell
    editSlab width input edits slab

/-- The new cells of a tile of a variable-length column: each goes to the end of
the heap and gets both of its descriptors in the blob. -/
def editCells (place : Place) (tile col rowsInTile : Nat) (kind : VarKind) (column : Column)
    (input : ColumnInput) :
    List (Nat × Nat) → Nat → Bytes → Nat → FileOp (Nat × Bytes × Nat)
  | [], cursor, blob, zpcount => return (cursor, blob, zpcount)
  | (inTile, inputRow) :: edits, cursor, blob, zpcount => do
    let cell ← FileOp.ofExcept (input.vlaCell inputRow)
    let (next, cvlalen, cvlastart) ← putCell codec place col cell cursor
    let blob ← FileOp.ofExcept
      (splice blob (rowsInTile * kind.width + inTile * 16) (writeDescriptor .q cvlalen cvlastart))
    let blob ← FileOp.ofExcept
      (splice blob (inTile * kind.width) (writeDescriptor kind cell.nelements zpcount))
    let bytes := cell.nelements * (bytesPerElement column.tformLetter).getD 0
    FileOp.raiseIf (u64Size ≤ zpcount + bytes)
      (.value (str "__setitem__: ZPCOUNT overflow at tile " ++ natDec tile ++ str " col '" ++
        column.name ++ str "'"))
    editCells place tile col rowsInTile kind column input edits next blob (zpcount + bytes)

/-- The descriptor arrays of a tile; a slot that was never filled starts from
zeros. -/
def readEditedBlob (place : Place) (tile : Nat) (desc : Int × Int) (expectedBlobSize : Nat)
    (column : Column) : FileOp Bytes :=
  if 0 < desc.1.toNat then do
    let compressed ← readAt (str "__setitem__: read VLA dual-descriptor blob for tile " ++
      natDec tile ++ str " col '" ++ column.name ++ str "': ")
      (place.heapStart + desc.2.toNat) desc.1.toNat
    FileOp.ofExcept (codec.gzipDecompressBytes compressed expectedBlobSize)
  else pure (List.replicate expectedBlobSize 0)

/-- `setitem_vla_column_tile`. -/
def setitemVlaColumnTile (place : Place) (tile col rowsInTile : Nat) (kind : VarKind)
    (column : Column) (input : ColumnInput) (edits : List (Nat × Nat)) (st : Progress)
    (zpcount : Nat) : FileOp (Progress × Nat) := do
  FileOp.ofExcept (checkElemSize column)
  let desc ← FileOp.ofExcept (sliceOf st.table (tile * place.rowWidth + col * 16) 16)
  let blob ← readEditedBlob codec place tile (readDescriptor .q desc)
    (rowsInTile * kind.width + rowsInTile * 16) column
  let (cursor, blob, zpcount) ← editCells codec place tile col rowsInTile kind column input edits
    st.cursor blob zpcount
  let st ← putBlob codec place tile col cursor blob st.table
  return (st, zpcount)

/-- One column of one tile of an assignment. -/
def setitemTileColumn (place : Place) (cards : List Card) (tile rowsInTile : Nat)
    (edits : List (Nat × Nat)) (st : Progress × Nat) (source : Source × Nat) :
    FileOp (Progress × Nat) :=
  match source.1.1.varKind with
  | some kind => setitemVlaColumnTile codec place tile source.2 rowsInTile kind source.1.1
      source.1.2 edits st.1 st.2
  | none => do
    let slab ← decodeExistingTileToBeBytes codec cards place.dataOffset tile source.2 rowsInTile
      place.rowWidth source.1.1
    let slab ← FileOp.ofExcept (editSlab source.1.1.byteWidth source.1.2 edits slab)
    let progress ← encodeBeSlabToHeapAndRecord codec place tile source.2 rowsInTile slab st.1
    return (progress, st.2)

/-- One tile of an assignment. -/
def setitemTile (place : Place) (cards : List Card) (selected : List (Source × Nat))
    (nrows ztilelen nTiles : Nat) (st : Progress × Nat) (tile : Nat × List (Nat × Nat)) :
    FileOp (Progress × Nat) :=
  let rowsInTile := if tile.1 + 1 = nTiles then wrappingSub nrows (tile.1 * ztilelen) else ztilelen
  selected.foldlM (setitemTileColumn codec place cards tile.1 rowsInTile tile.2) st

/-- `setitem_compressed_cols`: the selected columns, each with its index in the
table.  The result says that the tile cache was cleared. -/
def setitemCompressedCols (idx : Nat) (cards : List Card) (selected : List (Source × Nat))
    (diskRows : List Nat) (nrows ztilelen nTiles rowWidth dataOffset currentPcount : Nat) :
    FileOp Bool := do
  if diskRows = [] ∨ selected = [] then
    return false
  else
    FileOp.ofExcept (checkInputs (selected.map fun source => source.1.2))
    let table ← readAt (str "__setitem__: read descriptor table: ") dataOffset (nTiles * rowWidth)
    let place : Place := ⟨dataOffset, dataOffset + nTiles * rowWidth, rowWidth⟩
    let (st, zpcount) ← (editsByTile (max ztilelen 1) diskRows).foldlM
      (setitemTile codec place cards selected nrows ztilelen nTiles)
      (⟨currentPcount, table⟩, natKeyword cards (str "ZPCOUNT"))
    writeAt dataOffset st.table
    let anyVla := selected.any fun source => source.1.1.varKind.isSome
    commitHeader idx (pcountCards cards st.cursor (if anyVla then some zpcount else none))
    return true

/-! ## repack -/

/-- A live blob and its place in the compact heap. -/
structure MovePlan where
  oldOffset : Nat
  length : Nat
  newOffset : Nat
  tileIdx : Nat
  colIdx : Nat
  deriving DecidableEq, Repr

/-- The live blobs in scan order, each at the sum of the lengths in front of it. -/
def movePlans (table : Bytes) (rowWidth currentPcount : Nat) :
    List (Nat × Nat) → Nat → Except PyErr (List MovePlan × Nat)
  | [], cursor => .ok ([], cursor)
  | (tile, col) :: cells, cursor => do
    let desc ← sliceOf table (tile * rowWidth + col * 16) 16
    let (nelems, oldOff) := readDescriptor .q desc
    if nelems < 0 ∨ oldOff < 0 then
      .error (.value (str "repack: tile " ++ natDec tile ++ str " col " ++ natDec col ++
        str " descriptor negative: nelems=" ++ intDec nelems ++ str " offset=" ++ intDec oldOff))
    else if nelems = 0 then movePlans table rowWidth currentPcount cells cursor
    else if currentPcount < oldOff.toNat + nelems.toNat then
      .error (.value (str "repack: tile " ++ natDec tile ++ str " col " ++ natDec col ++
        str " descriptor points past heap end (offset+bytes=" ++
        natDec (oldOff.toNat + nelems.toNat) ++ str " > PCOUNT=" ++ natDec currentPcount ++
        str ")"))
    else
      let (plans, total) ← movePlans table rowWidth currentPcount cells (cursor + nelems.toNat)
      return (⟨oldOff.toNat, nelems.toNat, cursor, tile, col⟩ :: plans, total)

/-- No move overwrites a blob that is still to be read. -/
def fastPathSafe (currentPcount : Nat) : List MovePlan → Bool
  | [] => true
  | [plan] => decide (plan.newOffset + plan.length ≤ currentPcount)
  | plan :: next :: rest =>
    decide (plan.newOffset + plan.length ≤ next.oldOffset) &&
      fastPathSafe currentPcount (next :: rest)

/-- The blobs move to their new places, in place when that is safe and through a
staging area behind the heap otherwise. -/
def moveBlobs (dataOffset heapStart currentPcount newPcount : Nat) (plans : List MovePlan) :
    FileOp Unit :=
  if fastPathSafe currentPcount plans then
    plans.forM fun plan =>
      if plan.newOffset = plan.oldOffset then pure ()
      else streamCopyInFile shiftChunk (heapStart + plan.oldOffset) (heapStart + plan.newOffset)
        plan.length
  else do
    growFileToAtLeast dataOffset (heapStart - dataOffset + currentPcount + newPcount)
    plans.forM fun plan => streamCopyInFile shiftChunk (heapStart + plan.oldOffset)
      (heapStart + currentPcount + plan.newOffset) plan.length
    plans.forM fun plan => streamCopyInFile shiftChunk
      (heapStart + currentPcount + plan.newOffset) (heapStart + plan.newOffset) plan.length

/-- The data section shrinks to `newHduEnd`, with the tail of the file.  The
distance to the next header is a difference of `u64`s. -/
def shrinkToHduEnd (dataOffset newHduEnd : Nat) : FileOp Unit := fun s =>
  if newHduEnd < s.bytes.length then
    match nextHduStart s.hdus dataOffset with
    | none => .ok () { s with bytes := setLen s.bytes newHduEnd }
    | some next =>
      let delta := if newHduEnd ≤ next then next - newHduEnd else u64Size - (newHduEnd - next)
      shiftFileTailBackwardAndUpdateOffsets next delta s
  else .ok () s

/-- The end of both repacks: descriptors, file length and header. -/
def finishRepack (idx : Nat) (cards : List Card) (table : Bytes)
    (nTiles rowWidth dataOffset newPcount : Nat) : FileOp Unit := do
  writeAt dataOffset table
  shrinkToHduEnd dataOffset (dataOffset + roundUpToBlock (nTiles * rowWidth + newPcount))
  let newCards := setPcountInCards cards newPcount
  writeHeaderBefore dataOffset newCards
  commitCards idx newCards

/-- Every cell of the descriptor table. -/
def tableCells (nTiles ncols : Nat) : List (Nat × Nat) :=
  (List.range nTiles).flatMap fun tile => (List.range ncols).map fun col => (tile, col)

/-- The fixed-column path of `repack_compressed_table_heap`. -/
def repackFixed (idx : Nat) (cards : List Card)
    (ncols nTiles rowWidth currentPcount dataOffset : Nat) :
    FileOp Bool := do
  let heapStart := dataOffset + nTiles * rowWidth
  let table ← readAt (str "repack: read descriptor table: ") dataOffset (nTiles * rowWidth)
  let (scanned, newPcount) ← FileOp.ofExcept
    (movePlans table rowWidth currentPcount (tableCells nTiles ncols) 0)
  if newPcount = currentPcount then
    return false
  else
    let plans := scanned.mergeSort fun a b => decide (a.oldOffset ≤ b.oldOffset)
    moveBlobs dataOffset heapStart currentPcount newPcount plans
    let table ← FileOp.ofExcept (plans.foldlM (fun table plan =>
      recordDescriptor table rowWidth plan.tileIdx plan.colIdx plan.length plan.newOffset) table)
    finishRepack idx cards table nTiles rowWidth dataOffset newPcount
    return true

/-- A blob or a cell is copied to the staging area. -/
def stageCopy (place : Place) (currentPcount srcOffset length staging : Nat) : FileOp Unit := do
  growFileToAtLeast place.dataOffset
    (place.heapStart - place.dataOffset + currentPcount + staging + length)
  streamCopyInFile shiftChunk (place.heapStart + srcOffset)
    (place.heapStart + currentPcount + staging) length

/-- The stored cells of one tile of a variable-length column move to the staging
area; their descriptors in the blob follow. -/
def stageCells (place : Place) (tile rowspertile currentPcount : Nat) (kind : VarKind)
    (column : Column) : List Nat → Bytes → Nat → FileOp (Bytes × Nat)
  | [], blob, staging => return (blob, staging)
  | r :: rows, blob, staging => do
    let compOff := rowspertile * kind.width + r * 16
    let desc ← FileOp.ofExcept (sliceOf blob compOff 16)
    let cvlalen := (readDescriptor .q desc).1.toNat
    let cvlastart := (readDescriptor .q desc).2.toNat
    if cvlalen = 0 then
      let blob ← FileOp.ofExcept (splice blob compOff (writeDescriptor .q 0 0))
      stageCells place tile rowspertile currentPcount kind column rows blob staging
    else if currentPcount < cvlastart + cvlalen then
      throw (.value (str "repack-vla: tile " ++ natDec tile ++ str " col '" ++ column.name ++
        str "' row " ++ natDec r ++
        str " cell descriptor points past heap end (cvlastart+cvlalen=" ++
        natDec (cvlastart + cvlalen) ++ str " > PCOUNT=" ++ natDec currentPcount ++ str ")"))
    else
      stageCopy place currentPcount cvlastart cvlalen staging
      let blob ← FileOp.ofExcept (splice blob compOff (writeDescriptor .q cvlalen staging))
      stageCells place tile rowspertile currentPcount kind column rows blob (staging + cvlalen)

/-- A live blob, with the cells behind it, moves to the staging area. -/
def stageLiveBlob (place : Place) (totalNrows ztilelen nTiles currentPcount tile : Nat)
    (column : Column) (oldOffset oldLength staging : Nat) : FileOp ((Nat × Nat) × Nat) :=
  match column.varKind with
  | none => do
    stageCopy place currentPcount oldOffset oldLength staging
    return ((staging, oldLength), staging + oldLength)
  | some kind => do
    let rowspertile := if tile + 1 = nTiles then totalNrows - tile * ztilelen else ztilelen
    let compressedOld ← readAt (str "repack-vla: read old dual-descriptor blob for tile " ++
      natDec tile ++ str " col '" ++ column.name ++ str "': ")
      (place.heapStart + oldOffset) oldLength
    let blob ← FileOp.ofExcept
      (codec.gzipDecompressBytes compressedOld (rowspertile * kind.width + rowspertile * 16))
    let (blob, staging) ← stageCells place tile rowspertile currentPcount kind column
      (List.range rowspertile) blob staging
    let gzipped ← FileOp.ofExcept (codec.encodeGzip1 blob)
    growFileToAtLeast place.dataOffset
      (place.heapStart - place.dataOffset + currentPcount + staging + gzipped.length)
    writeAt (place.heapStart + currentPcount + staging) gzipped
    return ((staging, gzipped.length), staging + gzipped.length)

/-- One descriptor of `repack_compressed_table_heap_vla`: the place of its blob in
the staging area, and the staging cursor behind it. -/
def stageBlob (place : Place) (table : Bytes) (totalNrows ztilelen nTiles currentPcount tile : Nat)
    (column : Column) (col staging : Nat) : FileOp ((Nat × Nat) × Nat) := do
  let desc ← FileOp.ofExcept (sliceOf table (tile * place.rowWidth + col * 16) 16)
  let (nelems, oldOff) := readDescriptor .q desc
  if nelems ≤ 0 then
    return ((0, 0), staging)
  else do
    let oldLength := nelems.toNat
    let oldOffset := oldOff.toNat
    FileOp.raiseIf (currentPcount < oldOffset + oldLength)
      (.value (str "repack-vla: tile " ++ natDec tile ++ str " col '" ++ column.name ++
        str "' main descriptor points past heap end (offset+bytes=" ++
        natDec (oldOffset + oldLength) ++ str " > PCOUNT=" ++ natDec currentPcount ++ str ")"))
    stageLiveBlob codec place totalNrows ztilelen nTiles currentPcount tile column oldOffset
      oldLength staging

/-- The scan of `repack_compressed_table_heap_vla`: the new descriptors and the
staging cursor. -/
def stageBlobs (place : Place) (table : Bytes) (columns : List Column)
    (totalNrows ztilelen nTiles currentPcount : Nat) :
    List (Nat × Nat) → Nat → FileOp (List ((Nat × Nat) × Nat × Nat) × Nat)
  | [], staging => return ([], staging)
  | (tile, col) :: cells, staging => do
    let column ← FileOp.ofExcept (match columns[col]? with
      | some column => .ok column
      | none => .error (.panic (str "column")))
    let (desc, staging) ← stageBlob codec place table totalNrows ztilelen nTiles currentPcount tile
      column col staging
    let (descs, staging) ← stageBlobs place table columns totalNrows ztilelen nTiles currentPcount
      cells staging
    return (((tile, col), desc) :: descs, staging)

/-- `repack_compressed_table_heap_vla`. -/
def repackCompressedTableHeapVla (idx : Nat) (cards : List Card) (columns : List Column)
    (nTiles rowWidth currentPcount dataOffset : Nat) : FileOp Bool := do
  let place : Place := ⟨dataOffset, dataOffset + nTiles * rowWidth, rowWidth⟩
  let table ← readAt (str "repack-vla: read descriptor table: ") dataOffset (nTiles * rowWidth)
  let (descs, newPcount) ← stageBlobs codec place table columns
    (natKeyword cards (str "ZNAXIS2")) (natKeyword cards (str "ZTILELEN")) nTiles currentPcount
    (tableCells nTiles columns.length) 0
  streamCopyInFile shiftChunk (place.heapStart + currentPcount) place.heapStart newPcount
  let table ← FileOp.ofExcept (descs.foldlM (fun table desc =>
    recordDescriptor table rowWidth desc.1.1 desc.1.2 desc.2.2 desc.2.1) table)
  finishRepack idx cards table nTiles rowWidth dataOffset newPcount
  return true

/-! ## The methods -/

/-- The mutating methods of `CompressedTableHDU`, with their converted input.  The
rows of an append are counted by its first array. -/
inductive Op where
  | write (inputs : List ColumnInput)
  | append (inputs : List ColumnInput) (appendNrows : Nat)
  | setitem (selected : List (Source × Nat)) (diskRows : List Nat)
  | repack

/-- A mutating method on the compressed table `idx`.  The result says that the
tile cache was cleared. -/
def apply (columns : List Column) (idx : Nat) (op : Op) : FileOp Bool := do
  let s ← get
  match s.hdus[idx]? with
  | none => throw (.value (str "no such HDU"))
  | some h =>
    let cards := h.cards
    let dataOffset := h.offsets.dataOffset
    let nrows := natKeyword cards (str "ZNAXIS2")
    let ztilelen := natKeyword cards (str "ZTILELEN")
    let nTiles := natKeyword cards (str "NAXIS2")
    let rowWidth := natKeyword cards (str "NAXIS1")
    let pcount := natKeyword cards (str "PCOUNT")
    match op with
    | .write inputs => do
      writeCompressedTableData codec idx cards columns inputs nrows ztilelen nTiles rowWidth
        dataOffset
      return false
    | .append inputs appendNrows =>
      appendCompressedTableData codec idx cards columns inputs appendNrows nrows ztilelen nTiles
        rowWidth dataOffset pcount
    | .setitem selected diskRows =>
      setitemCompressedCols codec idx cards selected diskRows nrows ztilelen nTiles rowWidth
        dataOffset pcount
    | .repack =>
      if nTiles = 0 ∨ columns.isEmpty ∨ pcount = 0 then return false
      else if columns.any fun column => column.varKind.isSome then
        repackCompressedTableHeapVla codec idx cards columns nTiles rowWidth pcount dataOffset
      else repackFixed idx cards columns.length nTiles rowWidth pcount dataOffset

end

end RustFits.CompressedTable
