import RustFits.Card

/-!
# Opening a file

The open-time parser of `fits.rs`: header validation, the size of a data
section, and the loop of `parse_hdus_from_file` that walks the file from one
header to the next.

* `readHeader` pulls blocks until the END card.  `readHeader_ok` bounds the
  bytes it has consumed.
* `hduExtent` is the offset arithmetic of one iteration with its overflow
  record, `hduExtent_exact` its value when nothing overflows.
* `parseLoop` is the loop.  Its bound on the number of iterations stands for
  running time only: `none` says that the bound was too small.
-/

namespace RustFits

open Ascii ByteFile Machine

/-- The exception types that are raised, with their texts.  A panic is raised
too; it carries the place instead of a text. -/
inductive PyErr where
  | value (msg : Str)
  | key (msg : Str)
  | io (msg : Str)
  | notImplemented (msg : Str)
  | panic (place : Str)
  | index (msg : Str)
  | overflow (msg : Str)
  | typeError (msg : Str)
  deriving DecidableEq, Repr

/-! ## Header validation -/

def naxisKey (n : Nat) : Str := str "NAXIS" ++ natDec n

/-- The keyword of the first card that is not blank. -/
def firstKey (cards : List Card) : Option Str :=
  (cards.find? fun c => !(trim c).isEmpty).map fun first =>
    if 8 ≤ first.length then trim (first.take 8) else trim first

/-- The checks of `NAXIS1..NAXISn`, from `n` on. -/
def validateAxes (cards : List Card) : Nat → Nat → Except PyErr Unit
  | _, 0 => .ok ()
  | n, count + 1 =>
    if (parseKeyword cards (naxisKey n)).isNone then
      .error (.value (str "missing required " ++ naxisKey n ++ str " keyword"))
    else validateAxes cards (n + 1) count

/-- `validate_header`. -/
def validateHeader (cards : List Card) (isPrimary : Bool) : Except PyErr Unit :=
  match firstKey cards with
  | none => .error (.value (str "empty header"))
  | some key =>
    if isPrimary && key ≠ str "SIMPLE" then
      .error (.value (str "primary header must start with SIMPLE, found '" ++ key ++ str "'"))
    else if !isPrimary && key ≠ str "XTENSION" then
      .error (.value (str "extension header must start with XTENSION, found '" ++ key ++ str "'"))
    else if (parseKeyword cards (str "BITPIX")).isNone then
      .error (.value (str "missing required BITPIX keyword"))
    else
      match parseKeyword cards (str "NAXIS") with
      | none => .error (.value (str "missing required NAXIS keyword"))
      | some naxis =>
        if naxis < 0 ∨ 999 < naxis then
          .error (.value
            (str "NAXIS=" ++ intDec naxis ++ str " out of range (must be 0..999)"))
        else validateAxes cards 1 naxis.toNat

/-! ## The size of a data section -/

/-- The product of the axes `i, i + 1, ..`, each cast to `u64`; an axis without
a value is skipped. -/
def axisProduct (cards : List Card) : Nat → Nat → Nat → Nat
  | _, 0, product => product
  | i, count + 1, product =>
    match parseKeyword cards (naxisKey i) with
    | some dim => axisProduct cards (i + 1) count (saturatingMul product (asU64 dim))
    | none => axisProduct cards (i + 1) count product

/-- `calculate_data_size`. -/
def calculateDataSize (cards : List Card) : Wrapped Nat := do
  let bitpix := (parseKeyword cards (str "BITPIX")).getD 0
  let naxis := asU64 ((parseKeyword cards (str "NAXIS")).getD 0)
  if bitpix = 0 ∨ naxis = 0 then
    return 0
  let absBitpix ← absI64 bitpix
  let bytesPerPixel := asU64 (absBitpix.tdiv 8)
  let pcountRaw := (parseKeyword cards (str "PCOUNT")).getD 0
  let pcount := if 0 < pcountRaw then asU64 pcountRaw else 0
  let gcountRaw := (parseKeyword cards (str "GCOUNT")).getD 1
  let gcount := if 0 < gcountRaw then asU64 gcountRaw else 1
  let product := axisProduct cards 1 naxis 1
  let rawSize :=
    saturatingMul (saturatingMul bytesPerPixel gcount) (saturatingAdd product pcount)
  if rawSize = 0 then
    return 0
  mulU64 (divCeil rawSize blockSize) blockSize

/-! ## Reading one header -/

/-- The 36 cards of a block, without their trailing white space. -/
def blockCards (block : Bytes) : List Card :=
  (List.range cardsPerBlock).map fun i => trimEnd (slice block (i * cardSize) cardSize)

/-- The cards up to and including END, and whether END is there. -/
def pushCards : List Card → List Card × Bool
  | [] => ([], false)
  | card :: rest =>
    if card = str "END" then ([card], true)
    else (card :: (pushCards rest).1, (pushCards rest).2)

/-- An upper-case hexadecimal digit. -/
def hexDigit (n : Nat) : UInt8 := if n < 10 then 0x30 + n.toUInt8 else 0x37 + n.toUInt8

def nonPrintableMessage (b : UInt8) (offset : Nat) : Str :=
  str "non-printable byte 0x" ++ [hexDigit (b.toNat / 16), hexDigit (b.toNat % 16)] ++
    str " in header block at byte offset " ++ natDec offset ++
    str " (pass lenient=True to FITS() to substitute these with '_' for " ++
    str "archive files written by non-conforming tools)"

/-- Header bytes are printable ASCII.  A lenient open substitutes the others, a
strict one reports the first of them, at its place in the block counted from
the start of the HDU. -/
def checkBlock (lenient : Bool) (offset : Nat) (block : Bytes) : Except PyErr Bytes :=
  if lenient then .ok (block.map fun b => if isPrintable b then b else 0x5F)
  else
    match block.findIdx? fun b => !isPrintable b with
    | none => .ok block
    | some j => .error (.value (nonPrintableMessage (block.getD j 0) (offset + j)))

/-- Read the blocks of the header that starts at `offset`.  The first number is
how many whole blocks the file still holds from `pos` on, so that zero is where
`read_exact` meets the end of the file. -/
def readHeaderBlocks (lenient : Bool) (bytes : Bytes) (offset : Nat) :
    Nat → Nat → List Card → Except PyErr (List Card)
  | 0, _, headerCards =>
    if headerCards.isEmpty then .ok [] else .error (.io (str "truncated FITS file"))
  | left + 1, pos, headerCards =>
    match checkBlock lenient offset (slice bytes pos blockSize) with
    | .error e => .error e
    | .ok block =>
      let (cards, endFound) := pushCards (blockCards block)
      if endFound then .ok (headerCards ++ cards)
      else readHeaderBlocks lenient bytes offset left (pos + blockSize) (headerCards ++ cards)

/-- The cards of the header at `offset`; no cards at the end of the file. -/
def readHeader (lenient : Bool) (bytes : Bytes) (offset : Nat) : Except PyErr (List Card) :=
  readHeaderBlocks lenient bytes offset ((bytes.length - offset) / blockSize) offset []

/-! ## The HDU list -/

/-- The Python class an HDU is opened as. -/
inductive HduKind where
  | image
  | compressedImage
  | compressedTable
  | binaryTable
  | asciiTable
  | other
  deriving DecidableEq, Repr

/-- A logical keyword is set: some card of that keyword has a value that starts
with `T` (`header_has_zimage`, `header_has_ztable`). -/
def headerHasFlag (key : Str) (cards : List Card) : Bool :=
  cards.any fun card =>
    decide (9 ≤ card.length) && decide (trim (card.take 8) = key) &&
      match card.dropWhile fun b => b != 0x3D with
      | [] => false
      | _ :: value => (str "T").isPrefixOf (trimStart value)

def headerHasZimage (cards : List Card) : Bool := headerHasFlag (str "ZIMAGE") cards

def headerHasZtable (cards : List Card) : Bool := headerHasFlag (str "ZTABLE") cards

/-- The class chosen for a header. -/
def hduKind (cards : List Card) : HduKind :=
  let isImage := cards.any fun c =>
    (str "SIMPLE  =").isPrefixOf c || (str "XTENSION= 'IMAGE").isPrefixOf c
  let isBinaryTable := cards.any fun c => (str "XTENSION= 'BINTABLE'").isPrefixOf c
  let isAsciiTable := cards.any fun c => (str "XTENSION= 'TABLE").isPrefixOf c
  if isImage then .image
  else if isBinaryTable && headerHasZimage cards then .compressedImage
  else if isBinaryTable && headerHasZtable cards then .compressedTable
  else if isBinaryTable then .binaryTable
  else if isAsciiTable then .asciiTable
  else .other

/-- `HduOffsets`. -/
structure HduOffsets where
  headerOffset : Nat
  headerBlockCount : Nat
  dataOffset : Nat
  deriving DecidableEq, Repr

/-- An open HDU: its header cards, its entry in the file layout, its class. -/
structure Hdu where
  cards : List Card
  offsets : HduOffsets
  kind : HduKind
  deriving DecidableEq, Repr

/-- The offset arithmetic of one iteration: the data offset and the offset of
the next HDU. -/
def hduExtent (cards : List Card) (offset : Nat) : Wrapped (Nat × Nat) := do
  let headerSize ← mulU64 (headerBlocks cards.length) blockSize
  let dataOffset ← addU64 offset headerSize
  let dataSize ← calculateDataSize cards
  let size ← addU64 headerSize dataSize
  let next ← addU64 offset size
  return (dataOffset, next)

/-- One iteration up to the new offset: `none` when there is no further header. -/
def parseHdu (lenient : Bool) (bytes : Bytes) (isPrimary : Bool) (offset : Nat) :
    Except PyErr (Option (Hdu × Nat)) :=
  match readHeader lenient bytes offset with
  | .error e => .error e
  | .ok cards =>
    if cards.isEmpty then .ok none
    else
      match validateHeader cards isPrimary with
      | .error e => .error e
      | .ok _ =>
        let extent := (hduExtent cards offset).val
        .ok (some (⟨cards, ⟨offset, headerBlocks cards.length, extent.1⟩, hduKind cards⟩,
          extent.2))

/-- The loop of `parse_hdus_from_file`, at most `fuel` iterations. -/
def parseLoop (lenient : Bool) (bytes : Bytes) :
    Nat → Nat → List Hdu → Option (Except PyErr (List Hdu))
  | 0, _, _ => none
  | fuel + 1, offset, hdus =>
    match parseHdu lenient bytes hdus.isEmpty offset with
    | .error e => some (.error e)
    | .ok none => some (.ok hdus)
    | .ok (some (hdu, next)) =>
      if bytes.length ≤ next then some (.ok (hdus ++ [hdu]))
      else parseLoop lenient bytes fuel next (hdus ++ [hdu])

/-- `parse_hdus_from_file`. -/
def parseHdusFromFile (lenient : Bool) (bytes : Bytes) (fuel : Nat) :
    Option (Except PyErr (List Hdu)) :=
  parseLoop lenient bytes fuel 0 []

end RustFits
