import Mathlib.Data.List.Forall2
import RustFits.Layout

/-!
# Appending rows to an ASCII table

`append_ascii_table` and the row writer it calls
(`hdu_ascii_table/write_fixed.rs`), with the fields a read takes from the data
section.

The text of one cell comes from `format_one_cell`, which converts a Python
object.  It is a parameter here; a successful text has the width of its column.
`formatAField` is its case for text columns.
-/

namespace RustFits

open Ascii ByteFile Machine

/-- An ASCII-table column: where its field stands in a row. -/
structure AsciiColumn where
  name : Str
  tformLetter : UInt8
  byteOffset : Nat
  byteWidth : Nat
  decimals : Option Nat
  deriving DecidableEq, Repr

/-- What `parse_ascii_columns` has checked: the fields lie inside the row and do
not overlap. -/
structure AsciiColumnsValid (columns : List AsciiColumn) (rowWidth : Nat) : Prop where
  inside : ∀ col ∈ columns, col.byteOffset + col.byteWidth ≤ rowWidth
  apart : columns.Pairwise fun a b =>
    a.byteOffset + a.byteWidth ≤ b.byteOffset ∨ b.byteOffset + b.byteWidth ≤ a.byteOffset

/-- `AsciiTableMeta::nrows`. -/
def asciiNrows (cards : List Card) : Nat := ((parseKeyword cards (str "NAXIS2")).getD 0).toNat

/-- `AsciiTableMeta::row_width`. -/
def asciiRowWidth (cards : List Card) : Nat := ((parseKeyword cards (str "NAXIS1")).getD 0).toNat

/-! ## Writing rows -/

/-- `format_a_field`: the text left-justified and cut at the field width. -/
def formatAField (rowIndex : Nat) (col : AsciiColumn) (src : Str) : Except PyErr Str :=
  match (src.take col.byteWidth).findIdx? fun b => decide (0x80 ≤ b) with
  | some i =>
    let b := src.getD i 0
    .error (.value (str "column '" ++ col.name ++ str "' row " ++ natDec rowIndex ++
      str ": A field contains non-ASCII byte 0x" ++
      [hexDigit (b.toNat / 16), hexDigit (b.toNat % 16)] ++ str " at position " ++ natDec i))
  | none => .ok (padRight col.byteWidth (src.take col.byteWidth))

section

variable {Cell : Type} (formatOneCell : AsciiColumn → Cell → Except PyErr Str)

/-- The texts of the cells of one row. -/
def formatCells : List AsciiColumn → List Cell → Except PyErr (List Str)
  | col :: columns, cell :: row =>
    match formatOneCell col cell with
    | .error e => .error e
    | .ok field =>
      match formatCells columns row with
      | .error e => .error e
      | .ok fields => .ok (field :: fields)
  | _, _ => .ok []

/-- The fields of a row in the row buffer. -/
def placeCells : List AsciiColumn → List Str → Bytes → Bytes
  | col :: columns, field :: fields, dst =>
    placeCells columns fields (writeAll dst col.byteOffset field)
  | _, _, dst => dst

/-- The bytes of a row with these fields; between fields the row is blank. -/
def rowBytes (columns : List AsciiColumn) (rowWidth : Nat) (fields : List Str) : Bytes :=
  placeCells columns fields (List.replicate rowWidth blank)

/-- `format_row`: each cell into the slice of its column.  The end of a slice is a sum of
64 bits; a slice that does not lie in the row buffer is a panic. -/
def formatRow : List AsciiColumn → List Cell → Bytes → Except PyErr Bytes
  | col :: columns, cell :: row, dst =>
    let stop := (col.byteOffset + col.byteWidth) % u64Size
    if stop < col.byteOffset ∨ dst.length < stop then .error (.panic (str "format_row"))
    else
      match formatOneCell col cell with
      | .error e => .error e
      | .ok field => formatRow columns row (writeAll dst col.byteOffset field)
  | _, _, dst => .ok dst

/-- `format_row` over the rows of one chunk. -/
def formatRows (columns : List AsciiColumn) (rowWidth : Nat) :
    List (List Cell) → Except PyErr Bytes
  | [] => .ok []
  | row :: rows =>
    match formatRow formatOneCell columns row (List.replicate rowWidth blank) with
    | .error e => .error e
    | .ok bytes =>
      match formatRows columns rowWidth rows with
      | .error e => .error e
      | .ok rest => .ok (bytes ++ rest)

/-- The chunk loop of `write_ascii_table_data`, from the position `pos` of the
file on.  A cell that does not format stops it after the chunks before. -/
def writeAsciiChunks (columns : List AsciiColumn) (rowWidth rowsPerChunk : Nat) :
    Nat → Nat → List (List Cell) → FileOp Unit
  | 0, _, _ => pure ()
  | fuel + 1, pos, rows =>
    if rows.isEmpty then pure ()
    else
      match formatRows formatOneCell columns rowWidth (rows.take rowsPerChunk) with
      | .error e => throw e
      | .ok chunk => do
        writeAt pos chunk
        writeAsciiChunks columns rowWidth rowsPerChunk fuel (pos + chunk.length)
          (rows.drop rowsPerChunk)

/-- `write_ascii_table_data`: the padding is computed from the rows of this
call. -/
def writeAsciiTableData (columns : List AsciiColumn) (rows : List (List Cell)) (rowWidth : Nat)
    (startOffset : Nat) (padToBlock : Bool) : FileOp Unit :=
  if rowWidth = 0 ∨ rows.length = 0 then pure ()
  else do
    let rowsPerChunk := max 1 (1048576 / rowWidth)
    writeAsciiChunks formatOneCell columns rowWidth rowsPerChunk rows.length startOffset rows
    if padToBlock then
      let total := rows.length * rowWidth
      let padN := (blockSize - total % blockSize) % blockSize
      writeAt (startOffset + total) (List.replicate padN blank)

/-- The place of the card that an append overwrites. -/
def naxis2Index (cards : List Card) : Option Nat :=
  cards.findIdx? fun c => decide (6 ≤ c.length) && decide (trim (c.take 6) = str "NAXIS2")

/-- The header with the row count `n`. -/
def naxis2Card (n : Nat) : Card :=
  trimEnd (cardInt (str "NAXIS2") (asI64 n) (str "number of rows in table"))

/-- The growth of the data section in `append_ascii_table`. -/
def growAsciiData (dataOffset currentDataBytes newDataBytes : Nat) : FileOp Unit := do
  let currentHduEnd := dataOffset + roundUpToBlock currentDataBytes
  let newHduEnd := dataOffset + roundUpToBlock newDataBytes
  if currentHduEnd < newHduEnd then
    let delta := newHduEnd - currentHduEnd
    let s ← get
    if currentHduEnd < s.bytes.length then
      shiftFileTailAndUpdateOffsets currentHduEnd delta
      zeroFillRange currentHduEnd delta
    else
      modify fun s => { s with bytes := setLen s.bytes newHduEnd }

/-- `append_ascii_table`. -/
def appendAsciiTable (idx : Nat) (cards : List Card) (columns : List AsciiColumn)
    (rows : List (List Cell)) (currentNrows newNrows rowWidth dataOffset : Nat) : FileOp Unit := do
  let currentDataBytes := currentNrows * rowWidth
  growAsciiData dataOffset currentDataBytes (newNrows * rowWidth)
  match naxis2Index cards with
  | none => throw (.value (str "header missing NAXIS2"))
  | some cardIdx =>
    let newCards := cards.set cardIdx (naxis2Card newNrows)
    let headerBytes := serializeHeaderToDiskBytes newCards
    writeAt (dataOffset - headerBytes.length) headerBytes
    commitCards idx newCards
    writeAsciiTableData formatOneCell columns rows rowWidth (dataOffset + currentDataBytes) true

/-- `AsciiTableHDU::append` on the HDU `idx`. -/
def asciiAppend (idx : Nat) (columns : List AsciiColumn) (rows : List (List Cell)) :
    FileOp Unit := do
  let s ← get
  match s.hdus[idx]? with
  | none => throw (.value (str "no such HDU"))
  | some h =>
    if rows.isEmpty then pure ()
    else
      let currentNrows := asciiNrows h.cards
      appendAsciiTable formatOneCell idx h.cards columns rows currentNrows
        (currentNrows + rows.length) (asciiRowWidth h.cards) h.offsets.dataOffset

end

/-! ## Reading rows -/

/-- The fields of row `r`. -/
def readAsciiRow (bytes : Bytes) (dataOffset rowWidth : Nat)
    (columns : List AsciiColumn) (r : Nat) :
    List Str :=
  columns.map fun col => slice bytes (dataOffset + r * rowWidth + col.byteOffset) col.byteWidth

/-- The fields a read of the whole table takes from the file.  Without a row width it
takes none: the values of each row stay zero. -/
def readAsciiTable (s : Fits) (h : Hdu) (columns : List AsciiColumn) : List (List Str) :=
  (List.range (asciiNrows h.cards)).map fun r =>
    if asciiRowWidth h.cards = 0 then []
    else readAsciiRow s.bytes h.offsets.dataOffset (asciiRowWidth h.cards) columns r

end RustFits
