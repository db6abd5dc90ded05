import RustFits.BinaryTable.Columns
import RustFits.Lib.Elements

/-!
# The cells of fixed columns

`columns.rs` and `read.rs`: what a read needs of a column beside its place in a
row, and the conversion of one cell to the bytes of a numpy field.

* `parseFields` is `parse_columns` with the repeat count, the dimensions and the
  scaling of each column.
* `convertColumnCell` converts the cell of one row.  Its loops are loops over
  elements (`eachElement`).
* `Fits.converts` says that it stays inside its source and its destination, for the
  field that `fieldDtypeAndShape` asks numpy for.

A double is its bit pattern, and the arithmetic on doubles is a parameter.
-/

namespace RustFits.BinaryTable

open Ascii ByteFile Machine BigEndian

/-! ## Columns with their cells -/

/-- An `f64`, by its bit pattern. -/
abbrev Double := UInt64

/-- The doubles of the standard library. -/
structure Doubles where
  parse : Str → Option Double
  ofInt : Int → Double
  /-- From the bit pattern of an `f32`. -/
  ofSingle : Nat → Double
  /-- `tscal * stored + tzero`. -/
  physical : Double → Double → Double → Double

/-- `1.0`. -/
def Double.one : Double := 0x3FF0000000000000

/-- `x == 0.0`, which holds of both zeros. -/
def Double.isZero (x : Double) : Bool := x == 0 || x == 0x8000000000000000

/-- A column with what its cells are read with. -/
structure Field extends Column where
  repeatCount : Nat
  tdim : Option (List Nat)
  tscal : Double
  tzero : Double
  deriving DecidableEq, Repr

/-- `parse_keyword_float`. -/
def parseKeywordFloat (doubles : Doubles) : List Card → Str → Option Double
  | [], _ => none
  | card :: rest, key =>
    if isValueCard key card then
      match valueToken card with
      | some cleaned => doubles.parse cleaned
      | none => parseKeywordFloat doubles rest key
    else parseKeywordFloat doubles rest key

/-- The dimensions of a column.  A descriptor column has none. -/
def fieldTdim (cards : List Card) (info : TformInfo) (i : Nat) : Except PyErr (Option (List Nat)) :=
  if info.innerLetter.isSome then .ok none
  else match parseStringKeyword cards (tdimKey i) with
  | none => .ok none
  | some tdim => do
    let dims ← parseTdim tdim i
    checkTdim cards info.repeatCount i
    return some dims

/-- Column `i` with all its data. -/
def parseField (doubles : Doubles) (cards : List Card) (i offset : Nat) : Except PyErr Field := do
  let column ← parseColumn cards i offset
  let info ← parseTform ((parseStringKeyword cards (tformKey i)).getD []) i
  let tdim ← fieldTdim cards info i
  let tscal := (parseKeywordFloat doubles cards (str "TSCAL" ++ natDec i)).getD Double.one
  let tzero := (parseKeywordFloat doubles cards (str "TZERO" ++ natDec i)).getD 0
  return ⟨column, if info.innerLetter.isSome then 1 else info.repeatCount, tdim, tscal, tzero⟩

/-- The columns from `i` on: the columns and the width of a row. -/
def parseFieldsFrom (doubles : Doubles) (cards : List Card) :
    Nat → Nat → Nat → Except PyErr (List Field × Nat)
  | 0, _, offset => .ok ([], offset)
  | count + 1, i, offset => do
    let field ← parseField doubles cards i offset
    let (fields, width) ←
      parseFieldsFrom doubles cards count (i + 1) ((offset + field.byteWidth) % u64Size)
    return (field :: fields, width)

/-- `parse_columns`, with all the data of the columns. -/
def parseFields (doubles : Doubles) (cards : List Card) : Except PyErr (List Field) :=
  match parseKeyword cards (str "TFIELDS") with
  | none => .error (.value (str "BINTABLE missing required TFIELDS keyword"))
  | some tfields =>
    if tfields < 0 then
      .error (.value (str "BINTABLE TFIELDS=" ++ intDec tfields ++ str " is negative"))
    else do
      let (fields, offset) ← parseFieldsFrom doubles cards tfields.toNat 1 0
      let naxis1 := (parseKeyword cards (str "NAXIS1")).getD 0
      if asU64 naxis1 ≠ offset then
        .error (.value (str "BINTABLE row width " ++ natDec offset ++
          str " bytes from TFORM*s does not match NAXIS1=" ++ intDec naxis1))
      else return fields

/-! ## Scaling -/

/-- `ScalingKind`. -/
inductive ScalingKind where
  | none
  | unsignedTrick
  | general
  deriving DecidableEq, Repr

/-- The bias of the unsigned trick, for an integer letter. -/
def unsignedBias (letter : UInt8) : Option Double :=
  if letter = 0x42 then some 0xC060000000000000
  else if letter = 0x49 then some 0x40E0000000000000
  else if letter = 0x4A then some 0x41E0000000000000
  else if letter = 0x4B then some 0x43E0000000000000
  else .none

/-- `scaling_kind`. -/
def scalingKind (field : Field) : Except PyErr ScalingKind :=
  if field.tscal = Double.one ∧ field.tzero.isZero then .ok .none
  else if field.tformLetter = 0x4C ∨ field.tformLetter = 0x41 ∨
    field.tformLetter = 0x58 then .ok .none
  else if field.tformLetter = 0x43 ∨ field.tformLetter = 0x4D then
    .error (.value (str "column '" ++ field.name ++
      str "' has TSCAL/TZERO set on a complex column (TFORM='" ++ [field.tformLetter] ++
      str "'); FITS does not unambiguously specify how to apply scaling to complex values.  " ++
      str "Use scale=False to read raw stored values."))
  else if field.tscal = Double.one ∧ unsignedBias field.tformLetter = some field.tzero then
    .ok .unsignedTrick
  else .ok .general

/-- The scaling of a read.  With `scale=False` nothing is scaled. -/
def columnKind (scale : Bool) (field : Field) : Except PyErr ScalingKind :=
  if scale then scalingKind field else .ok .none

/-! ## Numpy fields -/

/-- A numpy type without its byte order: its kind letter and the bytes of an item. -/
structure Dtype where
  kind : UInt8
  itemsize : Nat
  deriving DecidableEq, Repr

/-- The numpy type of a letter that is not scaled. -/
def naturalDtype (letter : UInt8) : Option Dtype :=
  if letter = 0x4C ∨ letter = 0x58 then some ⟨0x62, 1⟩
  else if letter = 0x42 then some ⟨0x75, 1⟩
  else if letter = 0x49 then some ⟨0x69, 2⟩
  else if letter = 0x4A then some ⟨0x69, 4⟩
  else if letter = 0x4B then some ⟨0x69, 8⟩
  else if letter = 0x45 then some ⟨0x66, 4⟩
  else if letter = 0x44 then some ⟨0x66, 8⟩
  else if letter = 0x43 then some ⟨0x63, 8⟩
  else if letter = 0x4D then some ⟨0x63, 16⟩
  else none

/-- `scaled_output_dtype`. -/
def scaledOutputDtype (letter : UInt8) : ScalingKind → Option Dtype
  | .unsignedTrick =>
    if letter = 0x42 then some ⟨0x69, 1⟩
    else if letter = 0x49 then some ⟨0x75, 2⟩
    else if letter = 0x4A then some ⟨0x75, 4⟩
    else if letter = 0x4B then some ⟨0x75, 8⟩
    else .none
  | .general => some ⟨0x66, 8⟩
  | .none => .none

/-- `column_expected_shape`: the shape of a cell as numpy sees it. -/
def columnExpectedShape (field : Field) : List Nat :=
  if field.tformLetter = 0x41 then
    match field.tdim with
    | some tdim => (tdim.drop 1).reverse
    | none => []
  else match field.tdim with
    | some tdim => tdim.reverse
    | none => if 1 < field.repeatCount then [field.repeatCount] else []

/-- The characters of one string. -/
def perStringBytes (field : Field) : Nat :=
  match field.tdim with
  | some tdim => tdim.headD 0
  | none => field.repeatCount

/-- `field_dtype_and_shape`. -/
def fieldDtypeAndShape (field : Field) (scale : Bool) : Except PyErr (Dtype × List Nat) :=
  if field.varKind.isSome then .ok (⟨0x4F, 8⟩, [])
  else if field.tformLetter = 0x58 then .ok (⟨0x62, 1⟩, columnExpectedShape field)
  else if field.tformLetter = 0x41 then
    .ok (⟨0x55, 4 * perStringBytes field⟩, columnExpectedShape field)
  else do
    let kind ← columnKind scale field
    let dtype := if kind = .none then naturalDtype field.tformLetter
      else scaledOutputDtype field.tformLetter kind
    match dtype with
    | some dtype => return (dtype, columnExpectedShape field)
    | none => .error (.panic (str "unreachable"))

/-- The bytes of a field: an item for each place of its shape. -/
def fieldSize (dtype : Dtype) (shape : List Nat) : Nat := dtype.itemsize * shape.prod

/-! ## Conversion -/

/-- Convert `n` elements of `w` bytes to elements of `v` bytes. -/
def eachElement (n w v : Nat) (f : Bytes → Bytes) (src dst : Bytes) : Except PyErr Bytes :=
  (List.range n).foldlM (fun dst k => do
    let element ← sliceOf src (k * w) w
    splice dst (k * v) (f element)) dst

/-- `dst.copy_from_slice(src)`. -/
def copyFromSlice (src dst : Bytes) : Except PyErr Bytes :=
  if src.length = dst.length then .ok src else .error (.panic (str "copy_from_slice"))

/-- `copy_with_byteswap`. -/
def copyWithByteswap (littleEndian : Bool) (src dst : Bytes) (elemSize : Nat) :
    Except PyErr Bytes :=
  if littleEndian = false ∨ elemSize ≤ 1 then copyFromSlice src dst
  else eachElement (src.length / elemSize) elemSize elemSize List.reverse src dst

/-- An element of the unsigned trick: the stored number plus the bias. -/
def unsignedElement (littleEndian : Bool) (w : Nat) (element : Bytes) : Bytes :=
  toNeBytes littleEndian w (toSigned (8 * w) (fromBe element) + 2 ^ (8 * w - 1))

/-- `convert_unsigned_trick_cell`. -/
def convertUnsignedTrickCell (littleEndian : Bool) (letter : UInt8) (repeatCount : Nat)
    (src dst : Bytes) : Except PyErr Bytes :=
  if letter = 0x42 then eachElement repeatCount 1 1 (fun e => e.map fun b => b - 128) src dst
  else if letter = 0x49 then eachElement repeatCount 2 2 (unsignedElement littleEndian 2) src dst
  else if letter = 0x4A then eachElement repeatCount 4 4 (unsignedElement littleEndian 4) src dst
  else if letter = 0x4B then eachElement repeatCount 8 8 (unsignedElement littleEndian 8) src dst
  else .error (.panic (str "unreachable"))

/-- An element as a double. -/
def storedDouble (doubles : Doubles) (letter : UInt8) (element : Bytes) : Double :=
  if letter = 0x42 then doubles.ofInt (fromBe element)
  else if letter = 0x45 then doubles.ofSingle (fromBe element)
  else if letter = 0x44 then UInt64.ofNat (fromBe element)
  else doubles.ofInt (toSigned (8 * element.length) (fromBe element))

/-- `convert_general_scaling_cell`. -/
def convertGeneralScalingCell (doubles : Doubles) (littleEndian : Bool) (letter : UInt8)
    (repeatCount : Nat) (tscal tzero : Double) (src dst : Bytes) : Except PyErr Bytes :=
  let physical (element : Bytes) : Bytes :=
    toNeBytes littleEndian 8
      (doubles.physical tscal (storedDouble doubles letter element) tzero).toNat
  if letter = 0x42 then eachElement repeatCount 1 8 physical src dst
  else if letter = 0x49 then eachElement repeatCount 2 8 physical src dst
  else if letter = 0x4A ∨ letter = 0x45 then eachElement repeatCount 4 8 physical src dst
  else if letter = 0x4B ∨ letter = 0x44 then eachElement repeatCount 8 8 physical src dst
  else if repeatCount = 0 then .ok dst
  else .error (.panic (str "unreachable"))

/-- The text of one string: up to the first NUL, without the blanks at its end. -/
def cellText (src : Bytes) : Bytes := (src.takeWhile fun b => b ≠ 0).rdropWhile fun b => b == blank

/-- One string of a cell, as UCS-4. -/
def convertString (littleEndian : Bool) (field : Field) (row : Nat) (src : Bytes) :
    Except PyErr Bytes :=
  let text := cellText src
  match text.findIdx? fun b => decide (0x80 ≤ b) with
  | some i =>
    let b := (text.getD i 0).toNat
    .error (.value (str "column '" ++ field.name ++ str "' row " ++ natDec row ++
      str " contains non-ASCII byte 0x" ++ [hexDigit (b / 16), hexDigit (b % 16)] ++
      str " at position " ++ natDec i ++ str " (read this column with table.read_column('" ++
      field.name ++ str "', as_bytes=True) to get raw bytes)"))
  | none => .ok (text.flatMap fun b => toNeBytes littleEndian 4 b.toNat)

/-- String `s` of a cell. -/
def placeString (littleEndian : Bool) (field : Field) (row : Nat) (src dst : Bytes) (s : Nat) :
    Except PyErr Bytes := do
  let strLen := perStringBytes field
  let srcStr ← sliceOf src (s * strLen) strLen
  let dstStr ← sliceOf dst (s * (strLen * 4)) (strLen * 4)
  let codes ← convertString littleEndian field row srcStr
  let dstStr ← splice dstStr 0 codes
  splice dst (s * (strLen * 4)) dstStr

/-- `convert_a_cell`. -/
def convertACell (littleEndian : Bool) (field : Field) (src dst : Bytes) (row : Nat) :
    Except PyErr Bytes :=
  if perStringBytes field = 0 then .ok dst
  else (List.range (field.repeatCount / perStringBytes field)).foldlM
    (placeString littleEndian field row src) (List.replicate dst.length 0)

/-- Bit `i` of a cell, the first one on top of its byte. -/
def cellBit (src : Bytes) (i : Nat) : Except PyErr Bytes :=
  match src[i / 8]? with
  | some b => .ok [b >>> (7 - i % 8).toUInt8 &&& 1]
  | none => .error (.panic (str "index"))

/-- `convert_x_cell`. -/
def convertXCell (field : Field) (src dst : Bytes) : Except PyErr Bytes :=
  (List.range (min field.repeatCount dst.length)).foldlM (fun dst i => do
    let bit ← cellBit src i
    splice dst i bit) dst

/-- A logical byte as a numpy bool. -/
def logicalByte (element : Bytes) : Bytes := element.map fun b => if b = 0x54 then 1 else 0

/-- `convert_column_cell`. -/
def convertColumnCell (doubles : Doubles) (littleEndian : Bool) (field : Field) (src dst : Bytes)
    (row : Nat) (kind : ScalingKind) : Except PyErr Bytes :=
  match kind with
  | .unsignedTrick =>
    convertUnsignedTrickCell littleEndian field.tformLetter field.repeatCount src dst
  | .general =>
    convertGeneralScalingCell doubles littleEndian field.tformLetter field.repeatCount field.tscal
      field.tzero src dst
  | .none =>
    if field.tformLetter = 0x4C then eachElement src.length 1 1 logicalByte src dst
    else if field.tformLetter = 0x42 then copyFromSlice src dst
    else if field.tformLetter = 0x49 then copyWithByteswap littleEndian src dst 2
    else if field.tformLetter = 0x4A ∨ field.tformLetter = 0x45 ∨ field.tformLetter = 0x43 then
      copyWithByteswap littleEndian src dst 4
    else if field.tformLetter = 0x4B ∨ field.tformLetter = 0x44 ∨ field.tformLetter = 0x4D then
      copyWithByteswap littleEndian src dst 8
    else if field.tformLetter = 0x41 then convertACell littleEndian field src dst row
    else if field.tformLetter = 0x58 then convertXCell field src dst
    else .error (.panic (str "unsupported TFORM letter"))

/-! ## The loops -/

section

variable {doubles : Doubles} {littleEndian scale : Bool} {field : Field} {src dst : Bytes}
  {f : Bytes → Bytes} {n w v row : Nat} {kind : ScalingKind} {dtype : Dtype} {shape : List Nat}

theorem eachElement_ok (hsrc : n * w ≤ src.length) (hdst : n * v ≤ dst.length)
    (hf : ∀ e : Bytes, e.length = w → (f e).length = v) :
    eachElement n w v f src dst = .ok (writeAll dst 0 (mapElements n w f src)) := by
  have hlen : ∀ k < n, (f (slice src (k * w) w)).length = v := fun k hk =>
    hf _ (slice_element_length hsrc hk)
  apply foldlM_elements hlen (by omega)
  intro k hk buf hbuf
  have hin : (k + 1) * w ≤ n * w := Nat.mul_le_mul_right w hk
  have hplace : (k + 1) * v ≤ n * v := Nat.mul_le_mul_right v hk
  rw [Nat.succ_mul] at hin hplace
  rw [sliceOf_ok (by omega)]
  exact (splice_ok (by rw [hlen k hk]; omega)).trans (by rw [Nat.zero_add])

/-- A loop over elements stays inside its destination. -/
theorem eachElement_length (hsrc : n * w ≤ src.length) (hdst : n * v ≤ dst.length)
    (hf : ∀ e : Bytes, e.length = w → (f e).length = v) :
    ∃ out, eachElement n w v f src dst = .ok out ∧ out.length = dst.length := by
  refine ⟨_, eachElement_ok hsrc hdst hf, writeAll_length_of_le ?_⟩
  rw [mapElements_length hsrc hf]
  omega

/-- A loop over elements that fills its destination. -/
theorem eachElement_fill (hsrc : n * w ≤ src.length) (hdst : dst.length = n * v)
    (hf : ∀ e : Bytes, e.length = w → (f e).length = v) :
    eachElement n w v f src dst = .ok (mapElements n w f src) := by
  rw [eachElement_ok hsrc hdst.ge hf, writeAll_whole (by rw [mapElements_length hsrc hf, hdst])]

theorem copyFromSlice_ok (h : src.length = dst.length) : copyFromSlice src dst = .ok src :=
  if_pos h

/-! ## Staying inside -/

/-- The conversion fills a destination of `size` bytes or refuses the cell.  It does not
leave its source or its destination, where the program panics. -/
def StaysInside (size : Nat) : Except PyErr Bytes → Prop
  | .ok out => out.length = size
  | .error (.panic _) => False
  | .error _ => True

theorem staysInside_ok {size : Nat} {r : Except PyErr Bytes}
    (h : ∃ out, r = .ok out ∧ out.length = size) :
    StaysInside size r := by
  obtain ⟨out, rfl, hlen⟩ := h
  exact hlen

/-- A loop stays inside when each step does. -/
theorem staysInside_foldlM {size : Nat} {step : Bytes → Nat → Except PyErr Bytes} {l : List Nat}
    (hstep : ∀ k ∈ l, ∀ buf : Bytes, buf.length = size → StaysInside size (step buf k))
    (hdst : dst.length = size) : StaysInside size (l.foldlM step dst) := by
  induction l generalizing dst with
  | nil => exact hdst
  | cons k l ih =>
    have hfirst := hstep k List.mem_cons_self dst hdst
    rw [List.foldlM_cons]
    cases hk : step dst k with
    | ok out =>
      rw [hk] at hfirst
      exact ih (fun k hk => hstep k (List.mem_cons_of_mem _ hk)) hfirst
    | error e =>
      rw [hk] at hfirst
      exact hfirst

theorem cellText_length_le (src : Bytes) : (cellText src).length ≤ src.length :=
  le_trans (List.rdropWhile_prefix _ _).length_le (List.takeWhile_prefix _).length_le

theorem convertString_stays {e : PyErr} (h : convertString littleEndian field row src = .error e) :
    ∃ msg, e = .value msg := by
  unfold convertString at h
  dsimp only at h
  split at h
  · exact ⟨_, (Except.error.inj h).symm⟩
  · cases h

theorem convertString_length {codes : Bytes}
    (h : convertString littleEndian field row src = .ok codes) : codes.length ≤ src.length * 4 := by
  unfold convertString at h
  dsimp only at h
  split at h
  · cases h
  · rw [← Except.ok.inj h, flatMap_length_of_width fun _ _ => toNeBytes_length littleEndian 4 _]
    have := cellText_length_le src
    omega

/-- A text cell stays inside a field of four bytes a character. -/
theorem convertACell_stays (hsrc : field.repeatCount ≤ src.length)
    (hdst : perStringBytes field ≠ 0 → field.repeatCount * 4 ≤ dst.length) :
    StaysInside dst.length (convertACell littleEndian field src dst row) := by
  unfold convertACell
  split_ifs with hzero
  · exact rfl
  have hdst := hdst hzero
  apply staysInside_foldlM _ List.length_replicate
  intro s hs buf hbuf
  unfold placeString
  -- the strings lie in the repeat count, also when it is no multiple of their length
  have hplace : (s + 1) * perStringBytes field ≤ field.repeatCount := by
    calc (s + 1) * perStringBytes field
        ≤ field.repeatCount / perStringBytes field * perStringBytes field :=
          Nat.mul_le_mul_right _ (List.mem_range.1 hs)
      _ ≤ field.repeatCount := Nat.div_mul_le_self _ _
  rw [Nat.succ_mul] at hplace
  have hwide : s * (perStringBytes field * 4) + perStringBytes field * 4 ≤ buf.length := by
    rw [← Nat.mul_assoc, ← Nat.add_mul]
    omega
  simp only [sliceOf_ok (hplace.trans hsrc), sliceOf_ok hwide, Bind.bind, Except.bind]
  have hlen : (slice src (s * perStringBytes field) (perStringBytes field)).length =
      perStringBytes field := by
    rw [slice_length]
    omega
  cases hcodes : convertString littleEndian field row
      (slice src (s * perStringBytes field) (perStringBytes field)) with
  | error e =>
    obtain ⟨msg, rfl⟩ := convertString_stays hcodes
    exact trivial
  | ok codes =>
    have hfit := convertString_length hcodes
    rw [hlen] at hfit
    have hstr : (slice buf (s * (perStringBytes field * 4)) (perStringBytes field * 4)).length =
        perStringBytes field * 4 := by
      rw [slice_length]
      omega
    have hput : (writeAll (slice buf (s * (perStringBytes field * 4)) (perStringBytes field * 4)) 0
        codes).length = perStringBytes field * 4 := by
      rw [writeAll_length_of_le (by omega), hstr]
    simp only [splice_ok (show 0 + codes.length ≤ (slice buf (s * (perStringBytes field * 4))
      (perStringBytes field * 4)).length by omega)]
    rw [splice_ok (by omega)]
    exact (writeAll_length_of_le (by omega)).trans hbuf

/-- A bit cell stays inside a field of one byte a bit. -/
theorem convertXCell_stays (hsrc : divCeil field.repeatCount 8 ≤ src.length) :
    StaysInside dst.length (convertXCell field src dst) := by
  unfold convertXCell
  apply staysInside_foldlM _ rfl
  intro i hi buf hbuf
  have hbit := List.mem_range.1 hi
  have hbyte : i / 8 < src.length := by
    unfold divCeil at hsrc
    split_ifs at hsrc <;> omega
  simp only [cellBit, List.getElem?_eq_getElem hbyte, Bind.bind, Except.bind]
  have hfit : i + [src[i / 8] >>> (7 - i % 8).toUInt8 &&& 1].length ≤ buf.length := by
    rw [List.length_singleton]
    omega
  rw [splice_ok hfit]
  exact (writeAll_length_of_le hfit).trans hbuf

/-! ## A cell and its field -/

/-- The width of a column over the integers. -/
def Field.exactWidth (field : Field) : Nat :=
  match field.varKind with
  | some kind => kind.width
  | none =>
    if field.tformLetter = 0x58 then divCeil field.repeatCount 8
    else field.repeatCount * (bytesPerElement field.tformLetter).getD 0

/-- The letters of fixed columns. -/
def isFixedLetter (letter : UInt8) : Bool :=
  decide (letter = 0x58) || (bytesPerElement letter).isSome

/-- The cells of this letter are copied whole, and the copy wants both sides of one
length. -/
def copiesWhole (littleEndian : Bool) (letter : UInt8) : Bool :=
  decide (letter = 0x42) ||
    (!littleEndian && decide (letter ≠ 0x4C ∧ letter ≠ 0x41 ∧ letter ≠ 0x58))

/-- The field of this column has room for one element, and its cell has none. -/
def EmptyScalar (field : Field) : Prop := field.repeatCount = 0 ∧ field.tdim = none

theorem copyWithByteswap_stays {size : Nat} (hle : src.length ≤ dst.length)
    (hwhole : littleEndian = false ∨ size ≤ 1 → src.length = dst.length) :
    StaysInside dst.length (copyWithByteswap littleEndian src dst size) := by
  unfold copyWithByteswap
  split_ifs with h
  · rw [copyFromSlice_ok (hwhole h)]
    exact hwhole h
  · have hdiv : src.length / size * size ≤ src.length := Nat.div_mul_le_self _ _
    exact staysInside_ok (eachElement_length hdiv (hdiv.trans hle) fun e he => by simpa using he)

/-- The items of a field that is not text. -/
theorem shape_prod (hletter : field.tformLetter ≠ 0x41)
    (htdim : ∀ dims ∈ field.tdim, dims.prod = field.repeatCount) :
    field.repeatCount ≤ (columnExpectedShape field).prod ∧
      (¬EmptyScalar field → (columnExpectedShape field).prod = field.repeatCount) := by
  unfold columnExpectedShape EmptyScalar
  rw [if_neg hletter]
  cases hdims : field.tdim with
  | some dims =>
    have hprod : dims.reverse.prod = field.repeatCount := by
      rw [List.prod_reverse]
      exact htdim dims hdims
    exact ⟨hprod.ge, fun _ => hprod⟩
  | none =>
    dsimp only
    split_ifs with hone
    · simp
    · constructor
      · simp
        omega
      · intro hne
        have : field.repeatCount ≠ 0 := fun hzero => hne ⟨hzero, rfl⟩
        simp
        omega

/-- The bytes of a text field. -/
theorem text_size (hletter : field.tformLetter = 0x41)
    (htdim : ∀ dims ∈ field.tdim, dims.prod = field.repeatCount) (hstr : perStringBytes field ≠ 0) :
    4 * perStringBytes field * (columnExpectedShape field).prod = field.repeatCount * 4 := by
  unfold columnExpectedShape
  rw [if_pos hletter]
  unfold perStringBytes at hstr ⊢
  cases hdims : field.tdim with
  | some dims =>
    rw [hdims] at hstr
    cases dims with
    | nil => exact absurd rfl hstr
    | cons d dims =>
      have hprod := htdim _ hdims
      rw [List.prod_cons] at hprod
      simp only [List.headD_cons, List.drop_succ_cons, List.drop_zero, List.prod_reverse]
      rw [Nat.mul_assoc, hprod, Nat.mul_comm]
  | none => simp [Nat.mul_comm]

/-- The letters with their elements. -/
theorem letter_cases {letter : UInt8} {w : Nat} (h : bytesPerElement letter = some w) :
    (letter = 0x41 ∧ w = 1) ∨ (letter = 0x4C ∧ w = 1) ∨ (letter = 0x42 ∧ w = 1) ∨
      (letter = 0x49 ∧ w = 2) ∨ (letter = 0x4A ∧ w = 4) ∨ (letter = 0x45 ∧ w = 4) ∨
      (letter = 0x4B ∧ w = 8) ∨ (letter = 0x44 ∧ w = 8) ∨ (letter = 0x43 ∧ w = 8) ∨
      (letter = 0x4D ∧ w = 16) := by
  unfold bytesPerElement at h
  split_ifs at h with h1 h2 h3 h4 h5 <;> obtain rfl := Option.some.inj h
  · rcases h1 with rfl | rfl | rfl <;> simp
  · simp [h2]
  · rcases h3 with rfl | rfl <;> simp
  · rcases h4 with rfl | rfl | rfl <;> simp
  · simp [h5]

/-- A number has the width of its letter in numpy too. -/
theorem naturalDtype_itemsize {letter : UInt8} (hw : bytesPerElement letter = some w)
    (hA : letter ≠ 0x41) (h : naturalDtype letter = some dtype) : dtype.itemsize = w := by
  rcases letter_cases hw with ⟨rfl, rfl⟩ | ⟨rfl, rfl⟩ | ⟨rfl, rfl⟩ | ⟨rfl, rfl⟩ | ⟨rfl, rfl⟩ |
    ⟨rfl, rfl⟩ | ⟨rfl, rfl⟩ | ⟨rfl, rfl⟩ | ⟨rfl, rfl⟩ | ⟨rfl, rfl⟩
  · exact absurd rfl hA
  all_goals
    obtain rfl := Option.some.inj h
    rfl

/-- The unsigned trick is a matter of integers. -/
theorem scalingKind_unsignedTrick (h : scalingKind field = .ok .unsignedTrick) :
    (unsignedBias field.tformLetter).isSome := by
  unfold scalingKind at h
  split_ifs at h with h1 h2 h3 h4
  · cases h
  · cases h
  · rw [h4.2]
    rfl
  · cases h

/-- General scaling is a matter of real numbers. -/
theorem scalingKind_general (h : scalingKind field = .ok .general) :
    field.tformLetter ≠ 0x4C ∧ field.tformLetter ≠ 0x41 ∧ field.tformLetter ≠ 0x58 ∧
      field.tformLetter ≠ 0x43 ∧ field.tformLetter ≠ 0x4D := by
  unfold scalingKind at h
  split_ifs at h with h1 h2 h3 h4
  · cases h
  · cases h
  · cases h
  · tauto

theorem columnKind_eq (h : columnKind scale field = .ok kind) (hne : kind ≠ .none) :
    scale = true ∧ scalingKind field = .ok kind := by
  unfold columnKind at h
  split_ifs at h with hscale
  · exact ⟨hscale, h⟩
  · exact absurd (Except.ok.inj h).symm hne

theorem unsignedBias_cases {letter : UInt8} (h : (unsignedBias letter).isSome) :
    letter = 0x42 ∨ letter = 0x49 ∨ letter = 0x4A ∨ letter = 0x4B := by
  unfold unsignedBias at h
  split_ifs at h with h1 h2 h3 h4 <;> simp_all

/-- The unsigned trick keeps the width of an element. -/
theorem unsignedTrick_stays (hbias : (unsignedBias field.tformLetter).isSome)
    (hdtype : scaledOutputDtype field.tformLetter .unsignedTrick = some dtype)
    (hsrc : src.length = field.repeatCount * (bytesPerElement field.tformLetter).getD 0)
    (hdst : dtype.itemsize * field.repeatCount ≤ dst.length) :
    StaysInside dst.length
      (convertUnsignedTrickCell littleEndian field.tformLetter field.repeatCount src dst) := by
  have hwidth (w : Nat) : ∀ e : Bytes, e.length = w →
      (unsignedElement littleEndian w e).length = w :=
    fun _ _ => toNeBytes_length _ _ _
  rcases unsignedBias_cases hbias with h | h | h | h <;> rw [h] at hdtype hsrc ⊢ <;>
    obtain rfl := Option.some.inj hdtype <;> replace hsrc := hsrc.ge <;> dsimp only at hdst <;>
    rw [Nat.mul_comm] at hdst <;> apply staysInside_ok
  · exact eachElement_length hsrc hdst fun e he => by simpa using he
  · exact eachElement_length hsrc hdst (hwidth 2)
  · exact eachElement_length hsrc hdst (hwidth 4)
  · exact eachElement_length hsrc hdst (hwidth 8)

/-- General scaling makes eight bytes of an element. -/
theorem general_stays (hfixed : isFixedLetter field.tformLetter)
    (hletter : field.tformLetter ≠ 0x4C ∧ field.tformLetter ≠ 0x41 ∧ field.tformLetter ≠ 0x58 ∧
      field.tformLetter ≠ 0x43 ∧ field.tformLetter ≠ 0x4D)
    (hsrc : src.length = field.repeatCount * (bytesPerElement field.tformLetter).getD 0)
    (hdst : 8 * field.repeatCount ≤ dst.length) :
    StaysInside dst.length (convertGeneralScalingCell doubles littleEndian field.tformLetter
      field.repeatCount field.tscal field.tzero src dst) := by
  obtain ⟨hL, hA, hX, hC, hM⟩ := hletter
  have hsome : (bytesPerElement field.tformLetter).isSome := by
    simpa [isFixedLetter, hX] using hfixed
  obtain ⟨w, hw⟩ := Option.isSome_iff_exists.1 hsome
  rw [hw, Option.getD_some] at hsrc
  rw [Nat.mul_comm] at hdst
  rcases letter_cases hw with ⟨h, rfl⟩ | ⟨h, rfl⟩ | ⟨h, rfl⟩ | ⟨h, rfl⟩ | ⟨h, rfl⟩ | ⟨h, rfl⟩ |
    ⟨h, rfl⟩ | ⟨h, rfl⟩ | ⟨h, rfl⟩ | ⟨h, rfl⟩
  · exact absurd h hA
  · exact absurd h hL
  case inr.inr.inr.inr.inr.inr.inr.inr.inl => exact absurd h hC
  case inr.inr.inr.inr.inr.inr.inr.inr.inr => exact absurd h hM
  all_goals
    rw [h]
    exact staysInside_ok
      (eachElement_length hsrc.ge hdst fun _ _ => toNeBytes_length littleEndian 8 _)

/-- A cell that is not scaled.  An element of a number keeps its width. -/
theorem natural_stays (hletter : isFixedLetter field.tformLetter)
    (hcopy : ¬(copiesWhole littleEndian field.tformLetter ∧ EmptyScalar field))
    (htdim : ∀ dims ∈ field.tdim, dims.prod = field.repeatCount)
    (hX : field.tformLetter = 0x58 → src.length = divCeil field.repeatCount 8)
    (hA : field.tformLetter = 0x41 → src.length = field.repeatCount ∧
      dst.length = 4 * perStringBytes field * (columnExpectedShape field).prod)
    (hnumber : ∀ w, bytesPerElement field.tformLetter = some w → field.tformLetter ≠ 0x41 →
      src.length = field.repeatCount * w ∧ dst.length = w * (columnExpectedShape field).prod) :
    StaysInside dst.length
      (convertColumnCell doubles littleEndian field src dst row .none) := by
  by_cases hx : field.tformLetter = 0x58
  · rw [convertColumnCell, hx]
    exact convertXCell_stays (hX hx).ge
  have hsome : (bytesPerElement field.tformLetter).isSome := by
    simpa [isFixedLetter, hx] using hletter
  obtain ⟨w, hw⟩ := Option.isSome_iff_exists.1 hsome
  by_cases ha : field.tformLetter = 0x41
  · obtain ⟨hsrc, hdst⟩ := hA ha
    rw [convertColumnCell, ha]
    exact convertACell_stays hsrc.ge fun hstr => by rw [hdst, text_size ha htdim hstr]
  obtain ⟨hsrc, hdst⟩ := hnumber w hw ha
  obtain ⟨hitems, hexact⟩ := shape_prod ha htdim
  have hle : src.length ≤ dst.length := by
    rw [hsrc, hdst, Nat.mul_comm]
    exact Nat.mul_le_mul_left w hitems
  have hwhole (hc : copiesWhole littleEndian field.tformLetter) : src.length = dst.length := by
    rw [hsrc, hdst, hexact fun he => hcopy ⟨hc, he⟩, Nat.mul_comm]
  have hswap {size : Nat} (hsize : 1 < size) (hL : field.tformLetter ≠ 0x4C) :
      StaysInside dst.length (copyWithByteswap littleEndian src dst size) := by
    apply copyWithByteswap_stays hle
    rintro (hbig | hsmall)
    · exact hwhole (by simp [copiesWhole, hbig, hL, ha, hx])
    · omega
  unfold convertColumnCell
  rcases letter_cases hw with ⟨h, rfl⟩ | ⟨h, rfl⟩ | ⟨h, rfl⟩ | ⟨h, rfl⟩ | ⟨h, rfl⟩ | ⟨h, rfl⟩ |
    ⟨h, rfl⟩ | ⟨h, rfl⟩ | ⟨h, rfl⟩ | ⟨h, rfl⟩
  · exact absurd h ha
  · rw [h]
    exact staysInside_ok (eachElement_length (by omega) (by omega) fun e he => by
      simpa [logicalByte] using he)
  · have hlen := hwhole (by simp [copiesWhole, h])
    rw [h]
    exact staysInside_ok ⟨src, copyFromSlice_ok hlen, hlen⟩
  all_goals
    have hL : field.tformLetter ≠ 0x4C := by rw [h]; decide
    rw [h]
    exact hswap (by decide) hL

end

end RustFits.BinaryTable
