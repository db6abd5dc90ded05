import RustFits.BinaryTable.Repack
import RustFits.BinaryTable.Cells

/-!
# Writing rows

`write_setup.rs` and `write_fixed.rs`: rows of fixed columns come from a structured
array or from one array for each column, and go to the file in strips.

* `columnTransform` chooses the transform of a column from the type of its input.
* `prepareInput` checks the input and finds the bytes of each column in it.
* `writeStrip` builds a strip of rows.  Where the input has the layout of the rows
  it copies them whole and converts them in place, and otherwise it goes through the
  columns one by one.
* `writeTableData` writes the strips.

The three lists of columns, transforms and sources run in step, so they are one list
here.
-/

namespace RustFits.BinaryTable

open Ascii ByteFile Machine BigEndian

/-! ## Transforms -/

/-- `WriteTransform`. -/
inductive WriteTransform where
  | identity (elemW numElems : Nat)
  | unsignedXor (elemW numElems : Nat)
  | boolToLogical (numBytes : Nat)
  | bytesCopy (numBytes : Nat)
  | unicodeToAscii (numChars : Nat)
  | bitsPackMsb (numBits : Nat)
  deriving DecidableEq, Repr

/-- The bytes that are swapped as one.  A complex number is two of them. -/
def swapUnit (letter : UInt8) : Nat :=
  if letter = 0x49 then 2
  else if letter = 0x4A ∨ letter = 0x45 ∨ letter = 0x43 then 4
  else if letter = 0x4B ∨ letter = 0x44 ∨ letter = 0x4D then 8
  else 1

/-- Written with the unsigned trick.  A `B` column is not. -/
def unsignedTrick (field : Field) : Bool :=
  decide (field.tscal = Double.one) && decide (field.tformLetter ≠ 0x42) &&
    decide (unsignedBias field.tformLetter = some field.tzero)

/-- `column '…' (…): expected …, got kind '…' itemsize …`. -/
def transformText (field : Field) (kind expected : Str) (dtype : Dtype) : Str :=
  str "column '" ++ field.name ++ str "' (" ++ kind ++ str "): expected " ++ expected ++
    str ", got kind '" ++ [dtype.kind] ++ str "' itemsize " ++ natDec dtype.itemsize

/-- The transform of a column of numbers. -/
def numberTransform (field : Field) (natural dtype : Dtype) : Except PyErr WriteTransform :=
  let unit := swapUnit field.tformLetter
  let numElems := field.byteWidth / unit
  if field.tformLetter = 0x4C then
    if dtype = ⟨0x62, 1⟩ then .ok (.boolToLogical numElems)
    else .error (.value (transformText field (str "L") (str "numpy bool input") dtype))
  else if unsignedTrick field then
    if dtype = ⟨0x75, natural.itemsize⟩ then .ok (.unsignedXor unit numElems)
    else .error (.value (transformText field
      ([field.tformLetter] ++ str " + TZERO unsigned-int trick")
      (str "u" ++ natDec (natural.itemsize * 8) ++ str " input") dtype))
  else if dtype = natural ∧ field.tscal = Double.one ∧ field.tzero.isZero then
    .ok (.identity unit numElems)
  else if ¬(field.tscal = Double.one ∧ field.tzero.isZero) then
    .error (.value (str "column '" ++ field.name ++
      str "' has TSCAL/TZERO scaling other than the unsigned-int trick; " ++
      str "writing scaled columns is not yet supported"))
  else .error (.value (transformText field [field.tformLetter]
    (str "input dtype kind '" ++ [natural.kind] ++ str "' itemsize " ++
      natDec natural.itemsize) dtype))

/-- `column_transform`. -/
def columnTransform (field : Field) (dtype : Dtype) : Except PyErr WriteTransform :=
  if field.tformLetter = 0x41 then
    let chars := natDec (perStringBytes field)
    if dtype = ⟨0x53, perStringBytes field⟩ then .ok (.bytesCopy field.byteWidth)
    else if dtype = ⟨0x55, 4 * perStringBytes field⟩ then .ok (.unicodeToAscii field.byteWidth)
    else .error (.value (transformText field (str "A, " ++ chars ++ str " chars/string")
      (str "numpy S" ++ chars ++ str " or U" ++ chars ++ str " input") dtype))
  else if field.tformLetter = 0x58 then
    if dtype = ⟨0x62, 1⟩ then .ok (.bitsPackMsb field.repeatCount)
    else .error (.value (transformText field (str "X, " ++ natDec field.repeatCount ++ str " bits")
      (str "numpy bool input") dtype))
  else match naturalDtype field.tformLetter with
    | some natural => numberTransform field natural dtype
    | none => .error (.value (str "column '" ++ field.name ++ str "': unsupported TFORM letter '" ++
        [field.tformLetter] ++ str "' on write"))

/-- `^= 0x80` of the first byte. -/
def flipTop : Bytes → Bytes
  | [] => []
  | b :: bytes => (b ^^^ 0x80) :: bytes

/-- A number of 32 bits in hexadecimal, of four digits at least. -/
def hexCode (n : Nat) : Str :=
  let digits := (List.range 8).map fun k => hexDigit (n / 16 ^ (7 - k) % 16)
  ((digits.take 4).dropWhile fun b => b == 0x30) ++ digits.drop 4

/-- One character of a text cell. -/
def narrowChar (name : Str) (row i : Nat) (code : Bytes) : Except PyErr Bytes :=
  let cp := fromBe code.reverse
  if 0x7F < cp then
    .error (.value (str "TableHDU.write: column '" ++ name ++ str "' row " ++ natDec row ++
      str " char " ++ natDec i ++ str ": non-ASCII Unicode codepoint U+" ++ hexCode cp ++
      str "; FITS A columns are restricted to 7-bit ASCII"))
  else .ok [cp.toUInt8]

/-- `dst[i / 8] |= 1 << (7 - i % 8)`. -/
def setBit (i : Nat) (byte : Bytes) : Bytes := byte.map fun b => b ||| 1 <<< (7 - i % 8).toUInt8

/-- A numpy bool as a logical byte. -/
def boolByte (element : Bytes) : Bytes := element.map fun b => if b = 0 then 0x46 else 0x54

/-- `apply_transform_cell`. -/
def applyTransformCell (t : WriteTransform) (src dst : Bytes) (name : Str) (row : Nat) :
    Except PyErr Bytes :=
  match t with
  | .identity elemW numElems =>
    if elemW = 1 then copyFromSlice src dst
    else eachElement numElems elemW elemW List.reverse src dst
  | .unsignedXor elemW numElems =>
    eachElement numElems elemW elemW (fun e => flipTop e.reverse) src dst
  | .boolToLogical numBytes => eachElement numBytes 1 1 boolByte src dst
  | .bytesCopy numBytes => do
    let bytes ← sliceOf src 0 numBytes
    splice dst 0 bytes
  | .unicodeToAscii numChars =>
    (List.range numChars).foldlM (fun dst i => do
      let code ← sliceOf src (i * 4) 4
      let char ← narrowChar name row i code
      splice dst i char) dst
  | .bitsPackMsb numBits => do
    let dst ← splice dst 0 (List.replicate (divCeil numBits 8) 0)
    (List.range numBits).foldlM (fun dst i => do
      let flag ← sliceOf src i 1
      if flag = [0] then pure dst
      else do
        let byte ← sliceOf dst (i / 8) 1
        splice dst (i / 8) (setBit i byte)) dst

/-- Convert the elements of one cell where they are. -/
def convertInPlace (numElems elemW : Nat) (f : Bytes → Bytes) (off : Nat) (strip : Bytes) :
    Except PyErr Bytes :=
  (List.range numElems).foldlM (fun strip e => do
    let element ← sliceOf strip (off + e * elemW) elemW
    splice strip (off + e * elemW) (f element)) strip

/-- `apply_in_place_transform`. -/
def applyInPlaceTransform (t : WriteTransform) (column : Column) (chunk rowWidth : Nat)
    (strip : Bytes) : Except PyErr Bytes :=
  match t with
  | .identity elemW numElems =>
    if elemW = 1 then .ok strip
    else (List.range chunk).foldlM (fun strip r =>
      convertInPlace numElems elemW List.reverse (slotOffset rowWidth r column) strip) strip
  | .unsignedXor elemW numElems =>
    (List.range chunk).foldlM (fun strip r =>
      convertInPlace numElems elemW (fun e => flipTop e.reverse) (slotOffset rowWidth r column)
        strip) strip
  | .boolToLogical numBytes =>
    (List.range chunk).foldlM (fun strip r =>
      convertInPlace numBytes 1 boolByte (slotOffset rowWidth r column) strip) strip
  | .bytesCopy _ => .ok strip
  | .unicodeToAscii _ => .error (.panic (str "UnicodeToAscii in fast-path"))
  | .bitsPackMsb _ => .error (.panic (str "BitsPackMsb in fast-path"))

/-! ## Input -/

/-- `ColumnSource`: where the cells of a column are in a buffer. -/
structure ColumnSource where
  srcBytes : Bytes
  srcOffset : Nat
  srcRowStride : Nat
  srcTotalSize : Nat
  deriving DecidableEq, Repr

/-- The bytes of a cell. -/
def ColumnSource.cell (source : ColumnSource) (row : Nat) : Except PyErr Bytes :=
  sliceOf source.srcBytes (row * source.srcRowStride + source.srcOffset) source.srcTotalSize

/-- A column with its transform and its source. -/
structure WritePart where
  field : Field
  transform : WriteTransform
  source : ColumnSource
  deriving DecidableEq, Repr

/-- `PreparedInput`. -/
structure PreparedInput where
  parts : List WritePart
  layoutMatches : Bool
  deriving DecidableEq, Repr

/-- A field of a structured array, with the shape of a cell. -/
structure InputField where
  name : Str
  dtype : Dtype
  bigEndian : Bool
  shape : List Nat
  offset : Nat
  deriving DecidableEq, Repr

/-- A structured array.  Numpy keeps the fields inside an item, and their names apart. -/
structure StructuredArray where
  fields : List InputField
  itemsize : Nat
  len : Nat
  contiguous : Bool
  bytes : Bytes
  inside : ∀ f ∈ fields, f.offset + fieldSize f.dtype f.shape ≤ itemsize
  apart : (fields.map InputField.name).Nodup

/-- An array for one column.  Its first axis are the rows. -/
structure ColumnArray where
  dtype : Dtype
  bigEndian : Bool
  shape : List Nat
  contiguous : Bool
  bytes : Bytes
  deriving DecidableEq, Repr

/-- What `write` is called with. -/
inductive WriteInput where
  | structured (array : StructuredArray)
  | dict (arrays : List (Str × ColumnArray))
  | listed (arrays : List ColumnArray) (names : List Str)

/-- Refuse with a text. -/
def refuseIf (c : Prop) [Decidable c] (text : Str) : Except PyErr Unit :=
  if c then .error (.value (str "TableHDU.write: " ++ text)) else .ok ()

/-- `validate_field_for_column`. -/
def validateFieldForColumn (field : Field) (input : InputField) : Except PyErr WriteTransform := do
  refuseIf (input.shape ≠ columnExpectedShape field)
    (str "column '" ++ field.name ++ str "' per-cell shape " ++ dimsText input.shape ++
      str " does not match table column expected shape " ++ dimsText (columnExpectedShape field))
  columnTransform field input.dtype

/-- A column of a structured array. -/
def structuredPart (array : StructuredArray) (field : Field) : Except PyErr WritePart :=
  match array.fields.find? fun f => f.name == field.name with
  | none => .error (.value (str "TableHDU.write: input dtype is missing field '" ++ field.name ++
      str "' (table column)"))
  | some input => do
    let transform ← validateFieldForColumn field input
    return ⟨field, transform, array.bytes, input.offset, array.itemsize,
      fieldSize input.dtype input.shape⟩

/-- A column lies in the array as in a row.  Bits never do. -/
def partMatches (array : StructuredArray) (part : WritePart) (i : Nat) : Bool :=
  decide ((array.fields[i]?).map InputField.name = some part.field.name) &&
    decide (part.source.srcOffset = part.field.byteOffset) &&
    decide (part.source.srcTotalSize = part.field.byteWidth) &&
    decide (part.field.tformLetter ≠ 0x58)

/-- `prepare_structured_input`. -/
def prepareStructuredInput (array : StructuredArray) (fields : List Field) (nrows rowWidth : Nat) :
    Except PyErr PreparedInput := do
  refuseIf (array.fields.length ≠ fields.length)
    (str "input has " ++ natDec array.fields.length ++ str " columns, table has " ++
      natDec fields.length)
  fields.forM fun field =>
    refuseIf (field.name ∉ array.fields.map InputField.name)
      (str "input dtype is missing field '" ++ field.name ++ str "' (table column)")
  refuseIf (array.len ≠ nrows)
    (str "input has " ++ natDec array.len ++ str " rows but table NAXIS2=" ++ natDec nrows)
  refuseIf (array.contiguous = false) (str "input ndarray must be C-contiguous")
  if u64Size ≤ array.len * array.itemsize then .error (.value (str "input size overflow"))
  else do
    refuseIf (array.bytes.length < array.len * array.itemsize)
      (str "source buffer length " ++ natDec array.bytes.length ++ str " smaller than expected " ++
        natDec (array.len * array.itemsize))
    let parts ← fields.mapM (structuredPart array)
    return ⟨parts, decide (array.itemsize = rowWidth) &&
      parts.zipIdx.all fun (part, i) => partMatches array part i⟩

/-- `acquire_per_column_array`. -/
def acquirePerColumnArray (array : ColumnArray) (field : Field) (nrows : Nat) :
    Except PyErr WritePart := do
  let column := str "column '" ++ field.name ++ str "': "
  refuseIf (array.shape.head? ≠ some nrows)
    (column ++ str "array shape " ++ dimsText array.shape ++
      str " does not have first axis == nrows (" ++ natDec nrows ++ str ")")
  refuseIf (array.shape.tail ≠ columnExpectedShape field)
    (column ++ str "per-cell shape " ++ dimsText array.shape.tail ++
      str " does not match table column expected shape " ++ dimsText (columnExpectedShape field))
  let transform ← columnTransform field array.dtype
  let size := array.dtype.itemsize * max 1 array.shape.tail.prod
  refuseIf (array.contiguous = false) (column ++ str "ndarray must be C-contiguous")
  if u64Size ≤ nrows * size then .error (.value (str "input size overflow"))
  else do
    refuseIf (array.bytes.length < nrows * size)
      (column ++ str "buffer length " ++ natDec array.bytes.length ++
        str " smaller than expected " ++
        natDec (nrows * size))
    return ⟨field, transform, array.bytes, 0, size, size⟩

/-- The column of that name among named arrays. -/
def namedPart (arrays : List (Str × ColumnArray)) (missing : Str → Str) (nrows : Nat)
    (field : Field) : Except PyErr WritePart :=
  match arrays.find? fun a => a.1 == field.name with
  | none => .error (.value (missing field.name))
  | some (_, array) => acquirePerColumnArray array field nrows

/-- `prepare_dict_input`. -/
def prepareDictInput (arrays : List (Str × ColumnArray)) (fields : List Field) (nrows : Nat) :
    Except PyErr PreparedInput := do
  arrays.forM fun (key, _) =>
    refuseIf (key ∉ fields.map fun field => field.name)
      (str "dict has extra key '" ++ key ++ str "' not in table columns")
  let parts ← fields.mapM (namedPart arrays
    (fun name => str "TableHDU.write: dict is missing column '" ++ name ++ str "'") nrows)
  return ⟨parts, false⟩

/-- `prepare_list_names_input`. -/
def prepareListNamesInput (arrays : List ColumnArray) (names : List Str) (fields : List Field)
    (nrows : Nat) : Except PyErr PreparedInput := do
  refuseIf (arrays.length ≠ names.length)
    (str "len(data)=" ++ natDec arrays.length ++ str " != len(names)=" ++ natDec names.length)
  (names.zipIdx).forM fun (name, i) => do
    refuseIf (name ∉ fields.map fun field => field.name)
      (str "names list has extra entry '" ++ name ++ str "' not in table columns")
    refuseIf (name ∈ names.take i) (str "duplicate name '" ++ name ++ str "' in names list")
  let parts ← fields.mapM (namedPart (names.zip arrays)
    (fun name =>
      str "TableHDU.write: column '" ++ name ++ str "' is missing from names list") nrows)
  return ⟨parts, false⟩

/-- `dispatch_write_input`. -/
def dispatchWriteInput (input : WriteInput) (fields : List Field) (nrows rowWidth : Nat) :
    Except PyErr PreparedInput :=
  match input with
  | .structured array => prepareStructuredInput array fields nrows rowWidth
  | .dict arrays => prepareDictInput arrays fields nrows
  | .listed arrays names => prepareListNamesInput arrays names fields nrows

/-! ## Strips -/

/-- The cell of one row. -/
def placeCell (part : WritePart) (rowStart rowWidth : Nat) (strip : Bytes) (r : Nat) :
    Except PyErr Bytes := do
  let src ← part.source.cell (rowStart + r)
  let dst ← sliceOf strip (slotOffset rowWidth r part.field.toColumn) part.field.byteWidth
  let cell ← applyTransformCell part.transform src dst part.field.name r
  splice strip (slotOffset rowWidth r part.field.toColumn) cell

/-- The cells of one column go to the rows of a strip. -/
def placeColumn (part : WritePart) (rowStart chunk rowWidth : Nat) (strip : Bytes) :
    Except PyErr Bytes :=
  (List.range chunk).foldlM (placeCell part rowStart rowWidth) strip

/-- A strip of `chunk` rows. -/
def writeStrip (prep : PreparedInput) (rowWidth rowStart chunk : Nat) : Except PyErr Bytes :=
  if prep.layoutMatches then
    match prep.parts with
    | [] => .error (.panic (str "index"))
    | shared :: _ => do
      let strip ← sliceOf shared.source.srcBytes (rowStart * shared.source.srcRowStride)
        (chunk * rowWidth)
      prep.parts.foldlM (fun strip part =>
        applyInPlaceTransform part.transform part.field.toColumn chunk rowWidth strip) strip
  else
    prep.parts.foldlM (fun strip part => placeColumn part rowStart chunk rowWidth strip)
      (List.replicate (chunk * rowWidth) 0)

/-- The loop over the strips, from row `rowStart` on.  A strip that fails stops it after
the strips before. -/
def writeStrips (prep : PreparedInput) (start nrows rowWidth stripRows : Nat) :
    Nat → Nat → FileOp Unit
  | 0, _ => pure ()
  | fuel + 1, rowStart =>
    if nrows ≤ rowStart then pure ()
    else do
      let chunk := min (nrows - rowStart) stripRows
      let strip ← FileOp.ofExcept (writeStrip prep rowWidth rowStart chunk)
      writeAt (start + rowStart * rowWidth) strip
      writeStrips prep start nrows rowWidth stripRows fuel (rowStart + chunk)

/-- `write_table_data`, with strips of about `stripTarget` bytes. -/
def writeTableData (prep : PreparedInput) (start nrows rowWidth stripTarget : Nat) : FileOp Unit :=
  if nrows = 0 then pure ()
  else writeStrips prep start nrows rowWidth
    (min nrows (max 1 (stripTarget / max 1 rowWidth))) nrows 0

/-- `strip_target_bytes`. -/
def stripTargetBytes : Nat := 1048576

/-- `write_fixed_only`. -/
def writeFixedOnly (input : WriteInput) (fields : List Field) (nrows rowWidth dataOffset : Nat) :
    FileOp Unit := do
  let prep ← FileOp.ofExcept (dispatchWriteInput input fields nrows rowWidth)
  writeTableData prep dataOffset nrows rowWidth stripTargetBytes

end RustFits.BinaryTable
