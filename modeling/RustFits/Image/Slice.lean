import RustFits.Image.Arrays
import RustFits.Lib.PySlice
import RustFits.Lib.Scatter
import RustFits.Lib.StridedBox

/-!
# Reading and writing parts of an image

`hdu_image.rs`: `image[key]`, `image[key] = value`, `read` and `write`.

A key is resolved into one `AxisSlice` per axis (`normalizeSliceKey`).  The trailing axes
that are contiguous in the file make a strip, and the loops go from strip to strip by the
indices of the other axes (`odometer`).  A file is its bytes.
-/

namespace RustFits.Image

open Ascii ByteFile Machine StridedBox
open BinaryTable (Dtype Double Doubles ScalingKind)

/-! ## Keys -/

/-- One part of a key. -/
inductive IndexItem where
  | int (i : Int)
  | slice (s : PySlice)
  | ellipsis
  | other
  deriving DecidableEq, Repr

/-- The part of an axis that a key selects. -/
structure AxisSlice where
  start : Nat
  step : Nat
  count : Nat
  isInt : Bool
  deriving DecidableEq, Repr

/-- `full_axis_slice`. -/
def fullAxisSlice (dim : Nat) : AxisSlice := ⟨0, 1, dim, false⟩

/-- `parse_axis_indexer`. -/
def parseAxisIndexer (item : IndexItem) (dim : Nat) : Except PyErr AxisSlice :=
  let unsupported : Except PyErr AxisSlice :=
    .error (.value (str "unsupported index type (expected int, slice, or Ellipsis)"))
  match item with
  | .slice s =>
    match s.indices dim with
    | none => .error (.value (str "slice step cannot be zero"))
    | some r =>
      if r.step ≤ 0 then .error (.value (str "negative or zero step is not supported"))
      else .ok ⟨(max r.start 0).toNat, r.step.toNat, r.count, false⟩
  | .int i =>
    if i < i64Min ∨ 9223372036854775807 < i then unsupported
    else
      let normalized := if i < 0 then dim + i else i
      if normalized < 0 ∨ dim ≤ normalized then
        .error (.index (str "index " ++ intDec i ++ str " out of bounds for axis of size " ++
          natDec dim))
      else .ok ⟨normalized.toNat, 1, 1, true⟩
  | _ => unsupported

/-- The axes that are left, and the parts of the key that are left.  An ellipsis stands
for `fill` axes, and so do missing parts at the end. -/
def walkKey (fill : Nat) : List IndexItem → List Nat → Except PyErr (List AxisSlice)
  | [], shape => .ok (shape.map fullAxisSlice)
  | .ellipsis :: items, shape =>
    (walkKey fill items (shape.drop fill)).map ((shape.take fill).map fullAxisSlice ++ ·)
  | item :: items, dim :: shape => do
    let slice ← parseAxisIndexer item dim
    let slices ← walkKey fill items shape
    return slice :: slices
  | _ :: _, [] => .error (.panic (str "index out of bounds"))

/-- `normalize_slice_key`.  A key that is not a tuple is a list of one part. -/
def normalizeSliceKey (items : List IndexItem) (hduShape : List Nat) :
    Except PyErr (List AxisSlice) :=
  let ellipses := items.count .ellipsis
  if 1 < ellipses then .error (.value (str "an index can only have a single ellipsis"))
  else
    let explicit := items.length - ellipses
    if hduShape.length < explicit then
      .error (.value (str "too many indices for array: HDU has " ++ natDec hduShape.length ++
        str " axes, got " ++ natDec explicit ++ str " explicit"))
    else walkKey (hduShape.length - explicit) items hduShape

/-- The shape of what is selected. -/
def outputShape (slices : List AxisSlice) : List Nat :=
  (slices.filter fun s => !s.isInt).map AxisSlice.count

/-- The debug text of a shape. -/
def shapeText (shape : List Nat) : Str :=
  str "[" ++ List.intercalate (str ", ") (shape.map natDec) ++ str "]"

/-! ## Strips -/

/-- `row_major_strides`. -/
def rowMajorStrides : List Nat → List Nat
  | [] => []
  | [_] => [1]
  | _ :: n :: shape =>
    match rowMajorStrides (n :: shape) with
    | [] => []
    | stride :: strides => stride * n :: stride :: strides

/-- The loop of `compute_read_strip_layout`, the last axis first. -/
def readStripLayoutFrom : List (Nat × AxisSlice) → Nat → Nat × Nat
  | [], stripPixels => (0, stripPixels)
  | (dim, s) :: outer, stripPixels =>
    if s.step ≠ 1 then (outer.length + 1, stripPixels)
    else if s.start ≠ 0 ∨ s.count ≠ dim then (outer.length, stripPixels * s.count)
    else readStripLayoutFrom outer (stripPixels * s.count)

/-- `compute_read_strip_layout`: the number of axes outside of a strip, and its pixels. -/
def computeReadStripLayout (hduShape : List Nat) (slices : List AxisSlice) : Nat × Nat :=
  readStripLayoutFrom (hduShape.zip slices).reverse 1

/-- The loop of `compute_strip_layout`, the last axis first. -/
def stripLayoutFrom : List (Nat × Nat × Nat) → Nat → Nat × Nat
  | [], stripPixels => (0, stripPixels)
  | (dim, count, start) :: outer, stripPixels =>
    if start ≠ 0 ∨ count ≠ dim then (outer.length, stripPixels * count)
    else stripLayoutFrom outer (stripPixels * count)

/-- `compute_strip_layout`. -/
def computeStripLayout (hduShape dataShape start : List Nat) : Nat × Nat :=
  stripLayoutFrom (hduShape.zip (dataShape.zip start)).reverse 1

/-- The first pixel of the strip at some outer indices. -/
def stripPixel (strides : List Nat) (outer inner : List AxisSlice) (idx : List Nat) : Nat :=
  weighted (inner.map AxisSlice.start) (strides.drop outer.length) +
    weighted (List.zipWith (fun s i => s.start + i * s.step) outer idx) strides

/-- `read_exact` at a position. -/
def readAt (file : Bytes) (off n : Nat) : Except PyErr Bytes :=
  match readExact file off n with
  | none => .error (.io (str "failed to fill whole buffer"))
  | some bytes => .ok bytes

/-! ## Reading -/

/-- `ImageMeta`. -/
structure ImageMeta where
  bitpix : Int
  shape : List Nat
  bscale : Double
  bzero : Double
  blank : Option Int
  deriving DecidableEq, Repr

/-- `parse_image_hdu_shape_lax`. -/
def parseImageHduShapeLax (cards : List Card) : Except PyErr (Int × List Nat) :=
  match parseKeyword cards (str "BITPIX") with
  | none => .error (.value (str "HDU header missing BITPIX"))
  | some bitpix =>
    let naxis := ((parseKeyword cards (str "NAXIS")).getD 0).toNat
    let axes := (List.range' 1 naxis).map fun i => ((parseKeyword cards (naxisKey i)).getD 0).toNat
    .ok (asI32 bitpix, axes.reverse)

/-- `parse_image_meta`. -/
def parseImageMeta (doubles : Doubles) (cards : List Card) : Except PyErr ImageMeta := do
  let (bitpix, shape) ← parseImageHduShapeLax cards
  let (bscale, bzero) := parseBscaleBzero doubles cards
  return ⟨bitpix, shape, bscale, bzero, parseKeyword cards (str "BLANK")⟩

/-- An array of what a buffer holds. -/
def NumpyArray.ofBuffer (dtype : Dtype) (order : ByteOrder) (shape : List Nat) (buffer : Bytes) :
    Except PyErr NumpyArray :=
  if h : buffer.length = shape.prod * dtype.itemsize then .ok ⟨dtype, order, shape, buffer, h⟩
  else .error (.value (str "allocated buffer length (" ++ natDec buffer.length ++
    str ") does not match expected (" ++ natDec (shape.prod * dtype.itemsize) ++ str ")"))

section

variable (numpy : Numpy) (littleEndian : Bool)

/-- The bytes of pixels in memory. -/
def toHost (bpp : Nat) (buffer : Bytes) : Bytes :=
  if 1 < bpp ∧ littleEndian then byteswapInPlace buffer bpp else buffer

/-- The loop of `read_image_slice`.  Each strip goes behind the one before. -/
def readStrips (bpp dataOffset : Nat) (file : Bytes) (hduShape : List Nat) (slices : List AxisSlice)
    (buffer : Bytes) : Except PyErr Bytes :=
  let layout := computeReadStripLayout hduShape slices
  let outer := slices.take layout.1
  let inner := slices.drop layout.1
  let stripBytes := layout.2 * bpp
  let counts := outer.map AxisSlice.count
  (·.1) <$> odometer counts (fun idx (state : Bytes × Nat) => do
    let srcPixel := stripPixel (rowMajorStrides hduShape) outer inner idx
    let strip ← readAt file (dataOffset + srcPixel * bpp) stripBytes
    let buffer ← splice state.1 state.2 strip
    return (buffer, state.2 + stripBytes)) counts.prod (List.replicate counts.length 0) (buffer, 0)

/-- `read_image_slice`.  The array of `np.empty` starts with zeros here; the strips cover
it. -/
def readImageSlice (info : ImageMeta) (dataOffset : Nat) (file : Bytes) (slices : List AxisSlice)
    (scale : Bool) : Except PyErr NumpyArray := do
  if info.shape.isEmpty then throw (.value (str "HDU has NAXIS=0 (no data section)"))
  if slices.length ≠ info.shape.length then
    throw (.value (str "internal error: " ++ natDec slices.length ++ str " slices for " ++
      natDec info.shape.length ++ str " axes"))
  let dtype ← bitpixToNativeDtype info.bitpix
  let order := hostOrder littleEndian dtype.itemsize
  let bpp := info.bitpix.natAbs / 8
  if (slices.map AxisSlice.count).prod = 0 then
    NumpyArray.ofBuffer dtype order (outputShape slices) []
  else
    let empty := List.replicate ((outputShape slices).prod * bpp) 0
    let buffer ← readStrips bpp dataOffset file info.shape slices empty
    let arr ← NumpyArray.ofBuffer dtype order (outputShape slices) (toHost littleEndian bpp buffer)
    if scale then
      let kind := imageScalingKind info.bitpix info.bscale info.bzero
      return applyImageScaling numpy littleEndian arr info.bitpix kind info.bscale info.bzero
    else return arr

/-- `read_image_data`, without the mask. -/
def readImageData (info : ImageMeta) (dataOffset : Nat) (file : Bytes) (scale : Bool) :
    Except PyErr NumpyArray := do
  if info.shape.isEmpty then throw (.value (str "HDU has NAXIS=0 (no data section)"))
  let dtype ← bitpixToNativeDtype info.bitpix
  let bpp := info.bitpix.natAbs / 8
  let buffer ← readAt file dataOffset (info.shape.prod * bpp)
  let arr ← NumpyArray.ofBuffer dtype (hostOrder littleEndian dtype.itemsize) info.shape
    (toHost littleEndian bpp buffer)
  if scale then
    let kind := imageScalingKind info.bitpix info.bscale info.bzero
    return applyImageScaling numpy littleEndian arr info.bitpix kind info.bscale info.bzero
  else return arr

/-- `image[key]`. -/
def getItem (cards : List Card) (dataOffset : Nat) (file : Bytes) (key : List IndexItem) :
    Except PyErr NumpyArray := do
  let info ← parseImageMeta numpy.doubles cards
  if info.shape.isEmpty then throw (.value (str "HDU has NAXIS=0 (no data section)"))
  let slices ← normalizeSliceKey key info.shape
  readImageSlice numpy littleEndian info dataOffset file slices true

/-! ## Writing -/

/-- The bytes of an array as in a file. -/
def diskBytes (bpp : Nat) (a : NumpyArray) : Bytes :=
  if bpp ≠ 1 ∧ a.order = .little then byteswapInPlace a.buffer bpp else a.buffer

/-- An integer of a type. -/
def extractInt (v : PyScalar) (lower upper : Int) (width : Nat) : Except PyErr Bytes :=
  match v with
  | .int n =>
    if lower ≤ n ∧ n ≤ upper then .ok (intElement width n)
    else .error (.overflow (str "out of range integral type conversion attempted"))
  | .float _ => .error (.typeError (str "'float' object cannot be interpreted as an integer"))

/-- `scalar_to_be_bytes_native`. -/
def scalarToBeBytesNative (value : PyScalar) (bitpix : Int) : Except PyErr Bytes :=
  if bitpix ∈ [8, 16, 32, (64 : Int)] then
    extractInt value (dtypeRange (pixelDtype bitpix)).1 (dtypeRange (pixelDtype bitpix)).2
      (bitpix.natAbs / 8)
  else if bitpix = -32 ∨ bitpix = -64 then numpy.extractFloat value (bitpix.natAbs / 8)
  else .error (.value (str "unsupported BITPIX " ++ intDec bitpix))

/-- `scalar_to_be_bytes`. -/
def scalarToBeBytes (cards : List Card) (value : PyScalar) (bitpix : Int) : Except PyErr Bytes := do
  let (bscale, bzero) := parseBscaleBzero numpy.doubles cards
  let kind := imageScalingKind bitpix bscale bzero
  if kind = .none then scalarToBeBytesNative numpy value bitpix
  else
    let dtype := if kind = .unsignedTrick then trickDtype bitpix else f8
    let order := hostOrder littleEndian dtype.itemsize
    let e ← castScalar numpy value dtype
    let arr ← NumpyArray.ofBuffer dtype order [] (order.toBig e)
    let native ← normalizeInputDtype numpy littleEndian cards arr
    let bpp := bitpix.natAbs / 8
    return toHost littleEndian bpp native.buffer

/-- What is assigned to a part of an image.  A numpy scalar or an array without axes
counts as a scalar. -/
inductive Rhs where
  | scalar (value : PyScalar)
  | array (input : ArrayInput)
  deriving DecidableEq, Repr

/-- The loop of `write_image_slice`.  The strips of an array lie one behind the other in
`source`; for a scalar each strip is `source`. -/
def writeStrips (bpp dataOffset : Nat) (hduShape : List Nat) (slices : List AxisSlice)
    (source : Bytes) (perStrip : Bool) (file : Bytes) : Except PyErr Bytes :=
  let layout := computeReadStripLayout hduShape slices
  let outer := slices.take layout.1
  let inner := slices.drop layout.1
  let stripBytes := layout.2 * bpp
  let counts := outer.map AxisSlice.count
  (·.1) <$> odometer counts (fun idx (state : Bytes × Nat) => do
    let dstPixel := stripPixel (rowMajorStrides hduShape) outer inner idx
    let src ← if perStrip then sliceOf source state.2 stripBytes else pure source
    return (writeAll state.1 (dataOffset + dstPixel * bpp) src,
      if perStrip then state.2 + stripBytes else state.2)) counts.prod
    (List.replicate counts.length 0) (file, 0)

/-- `write_image_slice`. -/
def writeImageSlice (cards : List Card) (dataOffset : Nat) (slices : List AxisSlice) (rhs : Rhs)
    (file : Bytes) : Except PyErr Bytes := do
  let (bitpix, hduShape) ← parseImageHduShape cards
  let bpp := bitpix.natAbs / 8
  match rhs with
  | .scalar value =>
    if (slices.map AxisSlice.count).prod = 0 then return file
    else
      let pixel ← scalarToBeBytes numpy littleEndian cards value bitpix
      let strip := (List.replicate (computeReadStripLayout hduShape slices).2 pixel).flatten
      writeStrips bpp dataOffset hduShape slices strip false file
  | .array input =>
    let data ← unwrapMaskedInput numpy cards false input
    if (slices.map AxisSlice.count).prod = 0 then return file
    else if data.shape ≠ outputShape slices then
      .error (.value (str "RHS shape " ++ shapeText data.shape ++
        str " does not match indexed output shape " ++ shapeText (outputShape slices)))
    else
      let data ← normalizeInputDtype numpy littleEndian cards data
      writeStrips bpp dataOffset hduShape slices (diskBytes bpp data) true file

/-- `image[key] = value`. -/
def setItem (cards : List Card) (dataOffset : Nat) (key : List IndexItem) (rhs : Rhs)
    (file : Bytes) :
    Except PyErr Bytes := do
  let (_, hduShape) ← parseImageHduShape cards
  let slices ← normalizeSliceKey key hduShape
  writeImageSlice numpy littleEndian cards dataOffset slices rhs file

/-- `MAX_CHUNK_BYTES`. -/
def maxChunkBytes : Nat := 1048576

/-- The loop over the chunks of a strip whose bytes are swapped.  `fuel` bounds the number
of chunks; the length of the strip is enough. -/
def writeSwapped (bpp pos : Nat) (src : Bytes) : Nat → Nat → Bytes → Bytes
  | 0, _, file => file
  | fuel + 1, off, file =>
    if src.length ≤ off then file
    else
      let n := min (src.length - off) (min src.length maxChunkBytes)
      writeSwapped bpp pos src fuel (off + n)
        (writeAll file (pos + off) (byteswapInPlace (slice src off n) bpp))

/-- The start of a write: the origin when it is left out. -/
def startVector (naxis : Nat) : Option (List Int) → Except PyErr (List Nat)
  | none => .ok (List.replicate naxis 0)
  | some start =>
    if start.length ≠ naxis then
      .error (.value (str "start has " ++ natDec start.length ++ str " components, expected " ++
        natDec naxis))
    else match start.findIdx? (· < 0) with
    | some i =>
      .error (.value (str "start[" ++ natDec i ++ str "] must be >= 0, got " ++
        intDec (start.getD i 0)))
    | none => .ok (start.map Int.toNat)

/-- The check of the axes from `i` on. -/
def checkBox : Nat → List (Nat × Nat × Nat) → Except PyErr Unit
  | _, [] => .ok ()
  | i, (start, count, dim) :: axes =>
    if dim < start + count then
      .error (.value (str "axis " ++ natDec i ++ str ": start (" ++ natDec start ++
        str ") + data shape (" ++ natDec count ++ str ") exceeds HDU dim (" ++ natDec dim ++
        str ")"))
    else checkBox (i + 1) axes

/-- The loop of `write_image_data`. -/
def writeBox (bpp dataOffset : Nat) (hduShape dataShape start : List Nat) (data : NumpyArray)
    (file : Bytes) : Except PyErr Bytes :=
  let layout := computeStripLayout hduShape dataShape start
  let stripBytes := layout.2 * bpp
  let hduStrides := rowMajorStrides hduShape
  let srcStrides := rowMajorStrides dataShape
  let basePixel := weighted start hduStrides
  let counts := dataShape.take layout.1
  odometer counts (fun idx file => do
    let hduPixel := basePixel + weighted idx hduStrides
    let srcPixel := weighted idx srcStrides
    let filePos := dataOffset + hduPixel * bpp
    let src ← sliceOf data.buffer (srcPixel * bpp) stripBytes
    if bpp ≠ 1 ∧ data.order = .little then return writeSwapped bpp filePos src stripBytes 0 file
    else return writeAll file filePos src) counts.prod (List.replicate counts.length 0) file

/-- `write_image_data`. -/
def writeImageData (cards : List Card) (dataOffset : Nat) (input : ArrayInput)
    (start : Option (List Int)) (file : Bytes) : Except PyErr Bytes := do
  let (bitpix, hduShape) ← parseImageHduShape cards
  let data ← unwrapMaskedInput numpy cards false input
  let data ← normalizeInputDtype numpy littleEndian cards data
  let naxis := hduShape.length
  if data.shape.length ≠ naxis then
    throw (.value (str "data has " ++ natDec data.shape.length ++ str " axes, HDU has " ++
      natDec naxis))
  let start ← startVector naxis start
  checkBox 0 (start.zip (data.shape.zip hduShape))
  if data.shape.prod = 0 then return file
  else writeBox (bitpix.natAbs / 8) dataOffset hduShape data.shape start data file

end

end RustFits.Image
