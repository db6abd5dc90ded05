import RustFits.BinaryTable.Write
import RustFits.ColumnEdit.Rows
import RustFits.Header.Model
import RustFits.Lib.PySlice

/-!
# Writing variable-length cells

`write_vla.rs`, and the parts of `setitem.rs` and `edit.rs` for variable-length columns.
Every call plans the heap first: each cell gets its number of elements and its offset in
the heap, row by row.  The cells of a whole table start at the front of the heap, and all
others behind its end, which PCOUNT tells.  Then the rows are written, with a descriptor
for each planned cell.

* `planVlaHeapLayout` is the plan.
* `fillMainRow` makes one row.
* `VarCall.run` is a call on a table.

A table is its rows and its PCOUNT here.  Each row carries the plans that its descriptors
were written from, so that the two can be compared.  A plan is kept with its row and not
with its column.
-/

namespace RustFits.BinaryTable

open Ascii ByteFile Machine BigEndian
open ColumnEdit (stripRows insertedRow)
open Header (toAsciiUppercase)

/-! ## Cells -/

/-- What an input column gives for a row. -/
inductive CellInput where
  | array (dtype : Dtype) (shape : List Nat) (contiguous : Bool)
  | text (utf8 : Bytes)
  | bytes (bytes : Bytes)
  | other (typeName : Str)
  deriving DecidableEq, Repr

/-- An input column: its array, and what indexing it gives. -/
structure ColumnInput where
  array : ColumnArray
  cells : List CellInput
  deriving DecidableEq, Repr

def CellInput.typeName : CellInput → Str
  | .array _ _ _ => str "ndarray"
  | .text _ => str "str"
  | .bytes _ => str "bytes"
  | .other name => name

/-- `column '…' row …: …`. -/
def vlaCellText (colName : Str) (row : Nat) (text : Str) : Str :=
  str "column '" ++ colName ++ str "' row " ++ natDec row ++ str ": " ++ text

/-- `extract_string_vla_cell_bytes`. -/
def extractStringVlaCellBytes (cell : CellInput) (colName : Str) (row : Nat) : Except PyErr Bytes :=
  match cell with
  | .bytes bytes => .ok bytes
  | .text utf8 =>
    match utf8.findIdx? fun b => decide (0x80 ≤ b) with
    | none => .ok utf8
    | some i =>
      let b := (utf8.getD i 0).toNat
      .error (.value (vlaCellText colName row (str "VLA string cell contains non-ASCII byte 0x" ++
        [hexDigit (b / 16), hexDigit (b % 16)] ++ str " at position " ++ natDec i ++
        str "; pass bytes instead of str to store arbitrary bytes")))
  | _ => .error (.value (vlaCellText colName row
      (str "VLA string cell must be a Python str (ASCII) or bytes; got " ++ cell.typeName)))

/-- `validate_vla_cell`: the number of elements of a cell. -/
def validateVlaCell (cell : CellInput) (letter : UInt8) (colName : Str) (row : Nat) :
    Except PyErr Nat :=
  if letter = 0x41 then (extractStringVlaCellBytes cell colName row).map List.length
  else match cell with
    | .array dtype [n] contiguous =>
      match naturalDtype letter with
      | none => .error (.panic (str "vla_cell_expected_dtype"))
      | some expected =>
        if dtype ≠ expected then
          .error (.value (vlaCellText colName row (str "VLA cell dtype kind '" ++ [dtype.kind] ++
            str "' itemsize " ++ natDec dtype.itemsize ++
              str " does not match expected inner type '" ++
            [letter] ++ str "' (kind '" ++ [expected.kind] ++ str "' itemsize " ++
            natDec expected.itemsize ++ str ")")))
        else if 0 < n ∧ contiguous = false then
          .error (.value (vlaCellText colName row (str "VLA cell ndarray must be C-contiguous")))
        else .ok n
    | .array _ shape _ =>
      .error (.value (vlaCellText colName row (str "VLA cell must be 1-D, got shape " ++
        dimsText shape)))
    | _ => .error (.value (vlaCellText colName row (str "VLA cell must be a numpy ndarray")))

/-! ## The plan of the heap -/

/-- `VlaCellPlan`. -/
structure VlaCellPlan where
  nelements : Nat
  bytesOffsetInHeap : Nat
  deriving DecidableEq, Repr

/-- The plan of one cell at the cursor, and the cursor behind it. -/
def planCell (field : Field) (cell : CellInput) (row cursor : Nat) :
    Except PyErr (VlaCellPlan × Nat) := do
  let nelements ← validateVlaCell cell field.tformLetter field.name row
  let next := cursor + cellLength field.tformLetter nelements
  if u64Size ≤ next then .error (.value (str "heap size overflow"))
  else return (⟨nelements, cursor⟩, next)

/-- The plans of one row.  A fixed column has none. -/
def planRow :
  List (Field × ColumnInput) → Nat → Nat → Except PyErr (List (Option VlaCellPlan) × Nat)
  | [], _, cursor => .ok ([], cursor)
  | (field, input) :: columns, row, cursor =>
    if field.varKind.isNone then do
      let (plans, last) ← planRow columns row cursor
      return (none :: plans, last)
    else
      match input.cells[row]? with
      | none => .error (.index (str "index out of bounds"))
      | some cell => do
        let (plan, next) ← planCell field cell row cursor
        let (plans, last) ← planRow columns row next
        return (some plan :: plans, last)

/-- The plans of `n` rows from `row` on. -/
def planRows (columns : List (Field × ColumnInput)) :
    Nat → Nat → Nat → Except PyErr (List (List (Option VlaCellPlan)) × Nat)
  | 0, _, cursor => .ok ([], cursor)
  | n + 1, row, cursor => do
    let (plans, next) ← planRow columns row cursor
    let (rest, last) ← planRows columns n (row + 1) next
    return (plans :: rest, last)

/-- `plan_vla_heap_layout`: the plans of the rows, and the size of the heap after them. -/
def planVlaHeapLayout (fields : List Field) (perCol : List ColumnInput) (nrows heapStart : Nat) :
    Except PyErr (List (List (Option VlaCellPlan)) × Nat) :=
  planRows (fields.zip perCol) nrows 0 heapStart

/-! ## Rows -/

/-- `build_fixed_col_info`. -/
def buildFixedColInfo (array : ColumnArray) (field : Field) (nrows : Nat) :
    Except PyErr WritePart :=
  let refuse (text : Str) : Except PyErr WritePart :=
    .error (.value (str "column '" ++ field.name ++ str "': " ++ text))
  if array.shape.head? ≠ some nrows then
    refuse (str "array shape " ++ dimsText array.shape ++
      str " does not have first axis == nrows (" ++ natDec nrows ++ str ")")
  else if array.shape.tail ≠ columnExpectedShape field then
    refuse (str "per-cell shape " ++ dimsText array.shape.tail ++
      str " does not match table column expected shape " ++ dimsText (columnExpectedShape field))
  else do
    let transform ← columnTransform field array.dtype
    let perCellBytes := array.dtype.itemsize * max 1 array.shape.tail.prod
    if array.contiguous = false then refuse (str "ndarray must be C-contiguous")
    else if u64Size ≤ nrows * perCellBytes then .error (.value (str "input size overflow"))
    else if array.bytes.length < nrows * perCellBytes then
      refuse (str "buffer length " ++ natDec array.bytes.length ++ str " smaller than expected " ++
        natDec (nrows * perCellBytes))
    else return ⟨field, transform, array.bytes, 0, perCellBytes, perCellBytes⟩

/-- The fixed columns. -/
def fixedColInfos (fields : List Field) (perCol : List ColumnInput) (nrows : Nat) :
    Except PyErr (List (Option WritePart)) :=
  if perCol.length < fields.length then .error (.panic (str "index"))
  else (fields.zip perCol).mapM fun (field, input) =>
    if field.varKind.isNone then (buildFixedColInfo input.array field nrows).map some else .ok none

/-- One cell of a row: a descriptor, or the bytes of a fixed column. -/
def fillCell (inputRow : Nat) (row : Bytes) (cell : Field × Option WritePart × Option VlaCellPlan) :
    Except PyErr Bytes := do
  let (field, part, plan) := cell
  let dst ← sliceOf row field.byteOffset field.byteWidth
  match field.varKind, plan, part with
  | some kind, some plan, _ =>
    splice row field.byteOffset (writeDescriptor kind plan.nelements plan.bytesOffsetInHeap)
  | none, _, some part => do
    let src ← part.source.cell inputRow
    let bytes ← applyTransformCell part.transform src dst field.name inputRow
    splice row field.byteOffset bytes
  | _, _, _ => .error (.panic (str "column '" ++ field.name ++ str "' is neither fixed nor VLA"))

/-- `fill_main_row`. -/
def fillMainRow (fields : List Field) (fixed : List (Option WritePart))
    (plans : List (Option VlaCellPlan)) (rowWidth inputRow : Nat) : Except PyErr Bytes :=
  (fields.zip (fixed.zip plans)).foldlM (fillCell inputRow) (List.replicate rowWidth 0)

/-! ## Tables -/

/-- A row on disk, and the plans that its descriptors were written from. -/
structure VarRow where
  bytes : Bytes
  plans : List (Option VlaCellPlan)
  deriving DecidableEq, Repr

/-- A table: its columns, NAXIS1, its rows and PCOUNT. -/
structure VarTable where
  fields : List Field
  rowWidth : Nat
  rows : List VarRow
  pcount : Int
  deriving DecidableEq, Repr

/-- Calls change the table also where they raise. -/
abbrev VarOp := EStateM PyErr VarTable

/-- Raise the error of a pure step. -/
def VarOp.ofExcept {α : Type} : Except PyErr α → VarOp α
  | .ok a => pure a
  | .error e => throw e

/-- PCOUNT as it is read: `unwrap_or(0).max(0)`. -/
def VarTable.currentPcount (t : VarTable) : Nat := t.pcount.toNat

/-- PCOUNT as it is written: `as i64`. -/
def VarTable.setPcount (t : VarTable) (n : Nat) : VarTable :=
  { t with pcount := toSigned 64 (n % u64Size) }

/-- Overwrite the rows from `first` on. -/
def VarTable.putRows (t : VarTable) (first : Nat) (rows : List VarRow) : VarTable :=
  { t with rows := t.rows.take first ++ rows ++ t.rows.drop (first + rows.length) }

/-- The input rows from `start` on, as rows of the table. -/
def fillRows (t : VarTable) (fixed : List (Option WritePart))
    (plans : List (List (Option VlaCellPlan))) (start chunk : Nat) : Except PyErr (List VarRow) :=
  (List.range' start chunk).mapM fun inputRow => do
    let plan := plans.getD inputRow []
    let bytes ← fillMainRow t.fields fixed plan t.rowWidth inputRow
    return ⟨bytes, plan⟩

/-- The strips of `write_vla_data_range`.  A row that fails stops it after the strips
before. -/
def writeVlaStrips (fixed : List (Option WritePart)) (plans : List (List (Option VlaCellPlan)))
    (first nrows strip : Nat) : Nat → Nat → VarOp Unit
  | 0, _ => pure ()
  | fuel + 1, rowStart => do
    if nrows ≤ rowStart then pure ()
    else do
      let t ← get
      let chunk := min (nrows - rowStart) strip
      let rows ← VarOp.ofExcept (fillRows t fixed plans rowStart chunk)
      set (t.putRows (first + rowStart) rows)
      writeVlaStrips fixed plans first nrows strip fuel (rowStart + chunk)

/-- `write_vla_data_range`. -/
def writeVlaDataRange (fixed : List (Option WritePart)) (plans : List (List (Option VlaCellPlan)))
    (first nrows : Nat) : VarOp Unit := do
  let t ← get
  writeVlaStrips fixed plans first nrows (stripRows t.rowWidth nrows) nrows 0

/-- `write_vla_data_strided`: the rows go to these rows of the table. -/
def writeVlaDataStrided (fixed : List (Option WritePart)) (plans : List (List (Option VlaCellPlan)))
    (diskRows : List Nat) : VarOp Unit :=
  diskRows.zipIdx.forM fun (diskRow, inputRow) => do
    let t ← get
    let rows ← VarOp.ofExcept (fillRows t fixed plans inputRow 1)
    set (t.putRows diskRow rows)

/-- Every input column has this number of rows. -/
def checkInputRows (fields : List Field) (perCol : List ColumnInput) (nrows : Nat)
    (expected : Str) :
    Except PyErr Unit :=
  (fields.zip perCol).forM fun (field, input) =>
    let found := input.array.shape.head?.getD 0
    if found ≠ nrows then
      .error (.value (str "column '" ++ field.name ++ str "': input has " ++ natDec found ++
        str " rows but " ++ expected ++ natDec nrows))
    else .ok ()

/-! ## Calls -/

/-- `write_vla_aware`. -/
def writeVlaAware (perCol : List ColumnInput) : VarOp Unit := do
  let t ← get
  let nrows := t.rows.length
  VarOp.ofExcept (checkInputRows t.fields perCol nrows (str "table NAXIS2="))
  let fixed ← VarOp.ofExcept (fixedColInfos t.fields perCol nrows)
  let (plans, total) ← VarOp.ofExcept (planVlaHeapLayout t.fields perCol nrows 0)
  writeVlaDataRange fixed plans 0 nrows
  modify fun t => t.setPcount total

/-- `append_vla_aware`.  Rows that are written before a row fails lie behind the last row
of the table. -/
def appendVlaAware (perCol : List ColumnInput) (appendNrows : Nat) : VarOp Unit := do
  if appendNrows = 0 then pure ()
  else do
    let t ← get
    VarOp.ofExcept (checkInputRows t.fields perCol appendNrows (str "append_nrows="))
    let fixed ← VarOp.ofExcept (fixedColInfos t.fields perCol appendNrows)
    let (plans, total) ← VarOp.ofExcept
      (planVlaHeapLayout t.fields perCol appendNrows t.currentPcount)
    let rows ← VarOp.ofExcept (fillRows t fixed plans 0 appendNrows)
    set ((t.putRows t.rows.length rows).setPcount total)

/-- `VlaRowSpec`. -/
inductive VlaRowSpec where
  | contiguous (firstRow count : Nat)
  | strided (diskRows : List Nat)

def VlaRowSpec.inputNrows : VlaRowSpec → Nat
  | .contiguous _ count => count
  | .strided diskRows => diskRows.length

/-- `setitem_rows_vla_aware_inner`. -/
def setitemRowsVlaAwareInner (perCol : List ColumnInput) (rows : VlaRowSpec) : VarOp Unit := do
  let t ← get
  let fixed ← VarOp.ofExcept (fixedColInfos t.fields perCol rows.inputNrows)
  let (plans, total) ← VarOp.ofExcept
    (planVlaHeapLayout t.fields perCol rows.inputNrows t.currentPcount)
  match rows with
  | .contiguous firstRow count => writeVlaDataRange fixed plans firstRow count
  | .strided diskRows => writeVlaDataStrided fixed plans diskRows
  modify fun t => t.setPcount total

/-- `normalize_row_index`. -/
def normalizeRowIndex (i : Int) (nrows : Nat) : Except PyErr Nat :=
  let r := if i < 0 then i + nrows else i
  if r < 0 ∨ (nrows : Int) ≤ r then
    .error (.index (str "row index " ++ intDec i ++ str " out of bounds for " ++ natDec nrows ++
      str " rows"))
  else .ok r.toNat

/-- `setitem_single_row_vla_aware`, with a record of one row. -/
def setitemSingleRowVlaAware (i : Int) (perCol : List ColumnInput) : VarOp Unit := do
  let t ← get
  let r ← VarOp.ofExcept (normalizeRowIndex i t.rows.length)
  setitemRowsVlaAwareInner perCol (.contiguous r 1)

/-- `setitem_row_slice_vla_aware`, with `valueLen` rows. -/
def setitemRowSliceVlaAware (slice : PySlice) (valueLen : Nat) (perCol : List ColumnInput) :
    VarOp Unit := do
  let t ← get
  match slice.indices t.rows.length with
  | none => throw (.value (str "slice step cannot be zero"))
  | some indices =>
    if indices.step ≤ 0 then
      throw (.value (str "TableHDU[slice] = value: negative or zero step is not supported"))
    else if indices.count ≠ valueLen then
      throw (.value (str "TableHDU[slice] = value: slice selects " ++ natDec indices.count ++
        str " rows but value has length " ++ natDec valueLen))
    else if indices.count = 0 then pure ()
    else if indices.step = 1 then
      setitemRowsVlaAwareInner perCol (.contiguous indices.start.toNat indices.count)
    else setitemRowsVlaAwareInner perCol (.strided indices.toList)

/-- `setitem_fancy_rows_vla_aware`, with `valueLen` rows. -/
def setitemFancyRowsVlaAware (rows : List Int) (valueLen : Nat) (perCol : List ColumnInput) :
    VarOp Unit := do
  let t ← get
  if rows.length = 0 ∧ valueLen ≠ 0 then
    throw (.value (str "TableHDU[[rows]] = value: row list is empty but value has length " ++
      natDec valueLen))
  else if rows.length ≠ valueLen then
    throw (.value (str "TableHDU[[rows]] = value: row list has " ++ natDec rows.length ++
      str " entries but value has length " ++ natDec valueLen))
  else if rows.length = 0 then pure ()
  else do
    let diskRows ← VarOp.ofExcept (rows.mapM fun i => normalizeRowIndex i t.rows.length)
    setitemRowsVlaAwareInner perCol (.strided diskRows)

/-- The descriptor of one cell, in its row. -/
def VarRow.putDescriptor (row : VarRow) (idx : Nat) (field : Field) (kind : VarKind)
    (plan : VlaCellPlan) : VarRow :=
  ⟨writeAll row.bytes field.byteOffset (writeDescriptor kind plan.nelements plan.bytesOffsetInHeap),
    row.plans.set idx (some plan)⟩

/-- The plan of a row that has one cell. -/
def onlyPlan (plans : List (Option VlaCellPlan)) : Option VlaCellPlan := plans.head?.join

/-- `setitem_single_column_vla`, for the column `idx`. -/
def setitemSingleColumnVla (idx : Nat) (value : ColumnInput) : VarOp Unit := do
  let t ← get
  match t.fields[idx]? with
  | none => throw (.panic (str "index"))
  | some field =>
    match field.varKind with
    | none => throw (.panic (str "unwrap"))
    | some kind =>
      let column := str "column '" ++ field.name ++ str "': "
      if value.array.shape ≠ [t.rows.length] then
        throw (.value (column ++ str "value must have shape (" ++ natDec t.rows.length ++
          str ",); got " ++ dimsText value.array.shape))
      else if value.array.dtype.kind ≠ 0x4F then
        throw (.value (column ++ str "VLA column write requires an Object-dtype ndarray " ++
          str "(one inner ndarray per row); got dtype kind '" ++
            [value.array.dtype.kind] ++ str "'"))
      else do
        let (plans, total) ← VarOp.ofExcept
          (planVlaHeapLayout [field] [value] t.rows.length t.currentPcount)
        let rows := (t.rows.zip plans).map fun (row, plans) =>
          match onlyPlan plans with
          | some plan => row.putDescriptor idx field kind plan
          | none => row
        set ({ t with rows := rows }.setPcount total)

/-- `setitem_cell_vla`, for the column `idx`. -/
def setitemCellVla (idx : Nat) (i : Int) (value : CellInput) : VarOp Unit := do
  let t ← get
  let r ← VarOp.ofExcept (normalizeRowIndex i t.rows.length)
  match t.fields[idx]? with
  | none => throw (.panic (str "index"))
  | some field =>
    match field.varKind with
    | none => throw (.panic (str "unwrap"))
    | some kind => do
      let nelements ← VarOp.ofExcept (validateVlaCell value field.tformLetter field.name r)
      let plan : VlaCellPlan := ⟨nelements, t.currentPcount⟩
      set ({ t with rows := t.rows.modify r fun row =>
        row.putDescriptor idx field kind plan }.setPcount
        (t.currentPcount + cellLength field.tformLetter nelements))

/-- `insert_column` of a variable-length column: a descriptor in each row, and the columns
behind it move. -/
def VarTable.insertField (t : VarTable) (idx : Nat) (field : Field) (kind : VarKind)
    (plans : List (List (Option VlaCellPlan))) : VarTable :=
  let preWidth := totalWidth ((t.fields.take idx).map Field.toColumn)
  { t with
    fields := t.fields.take idx ++ { field with byteOffset := preWidth } ::
      (t.fields.drop idx).map fun f => { f with byteOffset := f.byteOffset + kind.width }
    rowWidth := t.rowWidth + kind.width
    rows := (t.rows.zip plans).map fun (row, plans) =>
      match onlyPlan plans with
      | some plan =>
        ⟨insertedRow preWidth row.bytes
            (writeDescriptor kind plan.nelements plan.bytesOffsetInHeap),
          row.plans.take idx ++ some plan :: row.plans.drop idx⟩
      | none => row }

/-- `insert_column` and `insert_vla_column_impl`, for an array of objects and the letter of
`inner_dtype`. -/
def insertVlaColumn (name : Str) (position : Option Int) (kind : VarKind) (letter : UInt8)
    (value : ColumnInput) : VarOp Unit := do
  let t ← get
  if name = [] then throw (.value (str "insert_column: column name must be non-empty"))
  else if t.fields.any fun f => toAsciiUppercase f.name == toAsciiUppercase name then
    throw (.value (str "insert_column: column '" ++ name ++ str "' already exists"))
  else
    let place := position.getD t.fields.length
    if place < 0 ∨ (t.fields.length : Int) < place then
      throw (.value (str "insert_column: position=" ++ intDec place ++
        str " out of range (table has " ++ natDec t.fields.length ++
        str " columns; valid positions are 0..=" ++ natDec t.fields.length ++ str ")"))
    else if value.array.shape ≠ [t.rows.length] then
      throw (.value (str "insert_column: VLA data must be a 1-D Object ndarray of shape (" ++
        natDec t.rows.length ++ str ",); got " ++ dimsText value.array.shape))
    else do
      let field : Field := ⟨⟨name, letter, 0, kind.width, some kind⟩, 1, none, Double.one, 0⟩
      let (plans, total) ← VarOp.ofExcept
        (planVlaHeapLayout [field] [value] t.rows.length t.currentPcount)
      set ((t.insertField place.toNat field kind plans).setPcount total)

/-- A call of a user. -/
inductive VarCall where
  | write (perCol : List ColumnInput)
  | append (perCol : List ColumnInput) (nrows : Nat)
  | setRow (i : Int) (perCol : List ColumnInput)
  | setSlice (slice : PySlice) (valueLen : Nat) (perCol : List ColumnInput)
  | setFancy (rows : List Int) (valueLen : Nat) (perCol : List ColumnInput)
  | setColumn (idx : Nat) (value : ColumnInput)
  | setCell (idx : Nat) (row : Int) (value : CellInput)
  | insertColumn (name : Str) (position : Option Int) (kind : VarKind) (letter : UInt8)
      (value : ColumnInput)

def VarCall.run : VarCall → VarOp Unit
  | .write perCol => writeVlaAware perCol
  | .append perCol nrows => appendVlaAware perCol nrows
  | .setRow i perCol => setitemSingleRowVlaAware i perCol
  | .setSlice slice valueLen perCol => setitemRowSliceVlaAware slice valueLen perCol
  | .setFancy rows valueLen perCol => setitemFancyRowsVlaAware rows valueLen perCol
  | .setColumn idx value => setitemSingleColumnVla idx value
  | .setCell idx row value => setitemCellVla idx row value
  | .insertColumn name position kind letter value => insertVlaColumn name position kind letter value

/-- The table after a call, whether it returns or raises. -/
def VarCall.after (call : VarCall) (t : VarTable) : VarTable :=
  match call.run t with
  | .ok _ t' => t'
  | .error _ t' => t'

end RustFits.BinaryTable
