import RustFits.Header.Model
import RustFits.Lib.Binary64

/-!
# Creating an image HDU

`create_image_hdu` of `fits.rs` without compression: the pixel type, the cards of the
header, the size of the data section, and the append to the end of the file.

The text of a pixel type is the `str` of a numpy type.  The offset BZERO of an unsigned
type is an integer here; the conversion of a blank value goes through doubles
(`Binary64.round`).
-/

namespace RustFits

open Ascii ByteFile Machine Header

namespace Image

/-! ## Pixel types -/

def toAsciiLowercase (s : Str) : Str :=
  s.map fun b => if 0x41 ≤ b && b ≤ 0x5A then b + 0x20 else b

/-- A sign of the byte order. -/
def isOrderSign (b : UInt8) : Bool := b == 0x3C || b == 0x3E || b == 0x7C || b == 0x3D

/-- The names of the pixel types, with their BITPIX and BZERO. -/
def pixelTypes : List (Str × Int × Option Int) :=
  [(str "u1", 8, none), (str "uint8", 8, none),
    (str "i1", 8, some (-128)), (str "int8", 8, some (-128)),
    (str "i2", 16, none), (str "int16", 16, none),
    (str "u2", 16, some 32768), (str "uint16", 16, some 32768),
    (str "i4", 32, none), (str "int32", 32, none),
    (str "u4", 32, some 2147483648), (str "uint32", 32, some 2147483648),
    (str "i8", 64, none), (str "int64", 64, none),
    (str "u8", 64, some 9223372036854775808), (str "uint64", 64, some 9223372036854775808),
    (str "f4", -32, none), (str "float32", -32, none),
    (str "f8", -64, none), (str "float64", -64, none)]

/-- `dtype_to_bitpix`. -/
def dtypeToBitpix (dtype : Str) : Except PyErr (Int × Option Int) :=
  match pixelTypes.lookup (toAsciiLowercase (dtype.dropWhile isOrderSign)) with
  | some found => .ok found
  | none => .error (.value (str "unsupported numpy dtype '" ++ dtype ++ str "'. Supported: " ++
      str "'u1','i1','i2','u2','i4','u4','i8','u8','f4','f8'"))

/-- `bitpix_to_numpy_kind`: the size of a pixel. -/
def bitpixToNumpyKind (bitpix : Int) : Except PyErr Nat :=
  if bitpix = 8 then .ok 1
  else if bitpix = 16 then .ok 2
  else if bitpix = 32 ∨ bitpix = -32 then .ok 4
  else if bitpix = 64 ∨ bitpix = -64 then .ok 8
  else .error (.value (str "unsupported BITPIX " ++ intDec bitpix))

/-- The cast of a double to `i64`. -/
def saturatingI64 (q : ℚ) : Int :=
  max i64Min (min 9223372036854775807 (if q < 0 then -⌊-q⌋ else ⌊q⌋))

/-- The range of the integers of a BITPIX. -/
def storedRange (bitpix : Int) : Int × Int :=
  if bitpix = 8 then (0, 255)
  else if bitpix = 16 then (-32768, 32767)
  else if bitpix = 32 then (-2147483648, 2147483647)
  else (i64Min, 9223372036854775807)

/-- `physical_blank_to_stored`. -/
def physicalBlankToStored (physical bitpix : Int) (bzero : Option Int) : Except PyErr Int :=
  if bitpix < 0 then
    .error (.value (str "blank= is not valid on float BITPIX (" ++ intDec bitpix ++
      str "); the FITS standard forbids BLANK on floating-point arrays " ++
      str "(NaN serves that role).  Omit blank= for float images."))
  else
    let stored :=
      match bzero with
      | none => physical
      | some bz => saturatingI64 (Binary64.round (Binary64.round physical - bz))
    let range := storedRange bitpix
    if stored < range.1 ∨ range.2 < stored then
      .error (.value (str "blank value " ++ intDec physical ++ str " (stored as " ++
        intDec stored ++ str " after any unsigned-trick transform) is outside the legal BITPIX=" ++
        intDec bitpix ++ str " stored range [" ++ intDec range.1 ++ str ", " ++ intDec range.2 ++
        str "]"))
    else .ok stored

/-! ## The header -/

/-- The slowest axis may be empty, and no other. -/
def validateDims : Nat → List Int → Except PyErr Unit
  | _, [] => .ok ()
  | i, d :: dims =>
    if i = 0 ∧ d < 0 ∨ i ≠ 0 ∧ d ≤ 0 then
      .error (.value (str "dimension " ++ natDec i ++ str " must be " ++
        (if i = 0 then str ">=" else str ">") ++ str " 0, got " ++ intDec d))
    else validateDims (i + 1) dims

/-- The cards of the axes from `i` on, the fastest axis first. -/
def axisCards : Nat → List Int → List Card
  | _, [] => []
  | i, d :: dims =>
    cardInt (naxisKey i) d (str "length of data axis " ++ natDec i) :: axisCards (i + 1) dims

/-- The cards of an offset. -/
def scalingCards (bzero : Option Int) : List Card :=
  match bzero with
  | none => []
  | some bz =>
    [cardInt (str "BSCALE") 1 (str "default linear scaling"),
      if 9223372036854775807 < bz then
        cardUint (str "BZERO") bz.toNat (str "offset for unsigned-int storage")
      else cardInt (str "BZERO") bz (str "offset for unsigned-int storage")]

/-- The cards of the name and the version of an HDU. -/
def nameCards (extname : Option Str) (extver : Option Int) : List Card :=
  (extname.map fun name => cardString (str "EXTNAME") name (str "name of this HDU")).toList ++
    (extver.map fun ver => cardInt (str "EXTVER") ver (str "extension version")).toList

/-- The first card of the header. -/
def leadCard (isPrimary : Bool) : Card :=
  if isPrimary then cardLogical (str "SIMPLE") true (str "file conforms to FITS standard")
  else cardString (str "XTENSION") (str "IMAGE") (str "image extension")

/-- The cards behind the axes. -/
def groupCards (isPrimary : Bool) : List Card :=
  if isPrimary then [cardLogical (str "EXTEND") true (str "FITS dataset may contain extensions")]
  else
    [cardInt (str "PCOUNT") 0 (str "required keyword; must = 0"),
      cardInt (str "GCOUNT") 1 (str "required keyword; must = 1")]

/-- The arguments of a call without `compress`. -/
structure ImageArgs where
  dtype : Str
  dims : List Int
  extname : Option Str
  extver : Option Int
  quantize : Bool
  blank : Option Int
  deriving DecidableEq, Repr

/-- The cards that the pixel type, the shape and the other arguments give. -/
def imageCards (isPrimary : Bool) (args : ImageArgs) (bitpix : Int) (bzero : Option Int) :
    Except PyErr (List Card) := do
  let front := [leadCard isPrimary,
      cardInt (str "BITPIX") bitpix (str "number of bits per data pixel"),
      cardInt (str "NAXIS") args.dims.length (str "number of data axes")] ++
    axisCards 1 args.dims.reverse ++ groupCards isPrimary ++ nameCards args.extname args.extver ++
      scalingCards bzero
  match args.blank with
  | none => return front ++ [padToCard endCard]
  | some b =>
    let stored ← physicalBlankToStored b bitpix bzero
    return front ++ [cardInt (str "BLANK") stored (str "integer sentinel for blank pixels"),
      padToCard endCard]

/-- `data_section_padded`. -/
def dataSectionPadded (dataSize : Nat) : Wrapped Nat :=
  if dataSize = 0 then pure 0 else mulU64 (divCeil dataSize blockSize) blockSize

/-- The product of the axes and the size of the data section. -/
def imageDataPadded (bitpix : Int) (dims : List Int) : Wrapped Nat := do
  let product := dims.reverse.foldl (fun product d => saturatingMul product (asU64 d)) 1
  let dataSize ← if dims.isEmpty then pure 0 else mulU64 (bitpix.natAbs / 8) product
  dataSectionPadded dataSize

/-! ## The file -/

/-- `append_header_and_data_to_file` and `finalize_hdu`: the new HDU, with its cards as
the parser would read them. -/
def appendHdu (cards : List Card) (dataPadded : Nat) (kind : HduKind) : FileOp Unit :=
  modify fun s =>
    let header := padRight (divCeil (cards.flatten.length) blockSize * blockSize) cards.flatten
    let start := s.bytes.length
    { bytes := s.bytes ++ header ++ List.replicate dataPadded 0
      hdus := s.hdus ++ [⟨cards.map trimEnd,
        ⟨start, header.length / blockSize, start + header.length⟩, kind⟩] }

/-- The checks of `create_image_hdu`, and what it appends. -/
def planImage (isPrimary : Bool) (args : ImageArgs) : Except PyErr (List Card × Wrapped Nat) := do
  if args.quantize then
    throw (.value (str "quantize= is only valid with compress= (it controls " ++
      str "the per-tile quantization for tile-compressed float " ++
      str "images); for uncompressed images, omit quantize="))
  validateDims 0 args.dims
  let (bitpix, bzero) ← dtypeToBitpix args.dtype
  let cards ← imageCards isPrimary args bitpix bzero
  return (cards, imageDataPadded bitpix args.dims)

/-- `create_image_hdu` without compression. -/
def createImageHdu (args : ImageArgs) : FileOp Unit := do
  let isPrimary := (← get).hdus.isEmpty
  let plan ← FileOp.ofExcept (planImage isPrimary args)
  appendHdu plan.1 plan.2.val .image

end Image

end RustFits
