import RustFits.CompressedImage.Repack
import RustFits.Header.Model
import RustFits.Lib.Elements
import RustFits.Lib.RowMajor

/-!
# Compressed images: the header and the decoded tiles

`parse_compressed_image_meta` of `hdu_image_compressed/meta.rs` and
`get_or_decode_tile` of `read.rs`.  The five decompressors and the dequantisation to
floating point are parameters (`TileCodecs`); which of them runs on which bytes of
the file, and with which parameters, is as the source has it.
-/

namespace RustFits.CompressedImage

open Ascii ByteFile Machine BigEndian BinaryTable RowMajor Header

/-! ## The header -/

inductive CompressionAlgorithm where
  | rice1
  | gzip1
  | gzip2
  | hcompress1
  | plio1
  deriving DecidableEq, Repr

/-- `parse_algorithm`. -/
def parseAlgorithm (zcmptype : Str) : Except PyErr CompressionAlgorithm :=
  let name := trim zcmptype
  if name = str "RICE_1" ∨ name = str "RICE_ONE" then .ok .rice1
  else if name = str "GZIP_1" ∨ name = str "GZIP" then .ok .gzip1
  else if name = str "GZIP_2" then .ok .gzip2
  else if name = str "HCOMPRESS_1" ∨ name = str "HCOMPRESS" then .ok .hcompress1
  else if name = str "PLIO_1" then .ok .plio1
  else .error (.value (str "unknown ZCMPTYPE '" ++ name ++ str "'"))

def znaxisKey (i : Nat) : Str := str "ZNAXIS" ++ natDec i

def ztileKey (i : Nat) : Str := str "ZTILE" ++ natDec i

def znameKey (n : Nat) : Str := str "ZNAME" ++ natDec n

def zvalKey (n : Nat) : Str := str "ZVAL" ++ natDec n

/-- `parse_compressed_image_shape`: ZBITPIX and the axes, the slowest first. -/
def parseCompressedImageShape (cards : List Card) : Except PyErr (Int × List Nat) :=
  match parseKeyword cards (str "ZBITPIX") with
  | none => .error (.value (str "compressed image HDU missing ZBITPIX"))
  | some zbitpix =>
    let axes := (List.range' 1 (natKeyword cards (str "ZNAXIS"))).map fun i =>
      natKeyword cards (znaxisKey i)
    .ok (asI32 zbitpix, axes.reverse)

/-- `parse_tile_shape`: a tile is one row by default. -/
def parseTileShape (cards : List Card) (imageShape : List Nat) : List Nat :=
  ((List.range' 1 imageShape.length).map fun i =>
    match parseKeyword cards (ztileKey i) with
    | some x => x.toNat
    | none => if i = 1 then imageShape.getLastD 0 else 1).reverse

/-- The loop of `compute_n_tiles`. -/
def countTiles : Nat → List (Nat × Nat) → Nat
  | total, [] => total
  | total, (img, tile) :: axes =>
    if img = 0 ∨ tile = 0 then 0 else countTiles (saturatingMul total (divCeil img tile)) axes

/-- `compute_n_tiles`. -/
def computeNTiles (imageShape tileShape : List Nat) : Nat :=
  if imageShape.isEmpty then 0 else countTiles 1 (imageShape.zip tileShape)

/-- The loop of `parse_rice_params` from parameter `n` on.  Every parameter has a card
of its own, which bounds the loop. -/
def riceParamsFrom (cards : List Card) : Nat → Nat → Option Nat × Option Nat →
    Option Nat × Option Nat
  | 0, _, found => found
  | fuel + 1, n, found =>
    match parseStringKeyword cards (znameKey n) with
    | none => found
    | some name =>
      riceParamsFrom cards fuel (n + 1) <|
        match parseKeyword cards (zvalKey n) with
        | none => found
        | some val =>
          if trim name = str "BLOCKSIZE" ∧ 0 < val then (some (asU32 val), found.2)
          else if trim name = str "BYTEPIX" ∧ 0 < val then (found.1, some (asU32 val))
          else found

/-- `parse_rice_params`. -/
def parseRiceParams (cards : List Card) : Option Nat × Option Nat :=
  riceParamsFrom cards (cards.length + 1) 1 (none, none)

/-- The loop of `parse_hcompress_smooth`. -/
def smoothFrom (cards : List Card) : Nat → Nat → Bool
  | 0, _ => false
  | fuel + 1, n =>
    match parseStringKeyword cards (znameKey n) with
    | none => false
    | some name =>
      match parseKeyword cards (zvalKey n) with
      | none => smoothFrom cards fuel (n + 1)
      | some v =>
        if toAsciiUppercase (trim name) = str "SMOOTH" then v != 0
        else smoothFrom cards fuel (n + 1)

/-- `parse_hcompress_smooth`. -/
def parseHcompressSmooth (cards : List Card) : Bool := smoothFrom cards (cards.length + 1) 1

inductive DitherMethod where
  | noDither
  | subtractiveDither1
  | subtractiveDither2
  deriving DecidableEq, Repr

/-- `parse_dither_method`. -/
def parseDitherMethod (zquantiz : Option Str) : Except PyErr (Option DitherMethod) :=
  match zquantiz.map trim with
  | none => .ok (some .noDither)
  | some name =>
    if name = str "NONE" then .ok none
    else if name = str "NO_DITHER" then .ok (some .noDither)
    else if name = str "SUBTRACTIVE_DITHER_1" then .ok (some .subtractiveDither1)
    else if name = str "SUBTRACTIVE_DITHER_2" then .ok (some .subtractiveDither2)
    else .error (.value (str "unsupported ZQUANTIZ '" ++ name ++ str "'"))

/-- Column `i` of the walk over the columns, for the offset of the one called `name`. -/
def walkOffset (cards : List Card) (name : Str) (walk : Option Nat × Nat) (i : Nat) :
    Except PyErr (Option Nat × Nat) := do
  let ttype := (parseStringKeyword cards (ttypeKey i)).getD []
  match parseStringKeyword cards (tformKey i) with
  | none => .error (.value (str "ZIMAGE BINTABLE column " ++ natDec i ++ str " missing TFORM"))
  | some tform =>
    let width ← tformByteWidth tform
    return (if trim ttype = name then some walk.2 else walk.1, (walk.2 + width) % u64Size)

/-- The offset in a row of the column called `name`, as `find_data_columns` collects it
for ZSCALE and ZZERO. -/
def columnOffset (cards : List Card) (name : Str) : Except PyErr (Option Nat) :=
  (·.1) <$> (List.range' 1 (natKeyword cards (str "TFIELDS"))).foldlM
    (walkOffset cards name) (none, 0)

structure ZimageQuantContext where
  method : DitherMethod
  zdither0 : Int
  zscaleOffsetInRow : Nat
  zzeroOffsetInRow : Nat
  outputZbitpix : Int
  deriving DecidableEq, Repr

/-- `build_quant_context`. -/
def buildQuantContext (cards : List Card) : Except PyErr (Option ZimageQuantContext) := do
  let method ← parseDitherMethod (parseStringKeyword cards (str "ZQUANTIZ"))
  let zscale ← columnOffset cards (str "ZSCALE")
  let zzero ← columnOffset cards (str "ZZERO")
  match method, zscale, zzero with
  | some method, some zscale, some zzero =>
    let zdither0 := (parseKeyword cards (str "ZDITHER0")).getD 0
    let zdither0 := if zdither0 ≤ 0 then 1 else zdither0
    match parseKeyword cards (str "ZBITPIX") with
    | none => .error (.value (str "compressed HDU missing ZBITPIX"))
    | some zbitpix =>
      let zbitpix := asI32 zbitpix
      if zbitpix ≠ -32 ∧ zbitpix ≠ -64 then
        .error (.value (str "build_quant_context called for non-float ZBITPIX=" ++ intDec zbitpix))
      else return some ⟨method, zdither0, zscale, zzero, zbitpix⟩
  | _, _, _ => return none

/-- `CompressedImageMeta`, up to the scaling of the values that are read. -/
structure CompressedImageMeta where
  zbitpix : Int
  imageShape : List Nat
  tileShape : List Nat
  nTiles : Nat
  algorithm : CompressionAlgorithm
  blocksize : Nat
  bytepix : Nat
  smooth : Bool
  naxis1 : Nat
  theap : Nat
  cols : ZimageDataColumns
  quant : Option ZimageQuantContext
  deriving DecidableEq, Repr

/-- The bytes of a stored integer. -/
def defaultBytepix (storedZbitpix : Int) : Option Nat :=
  if storedZbitpix = 8 then some 1
  else if storedZbitpix = 16 then some 2
  else if storedZbitpix = 32 then some 4
  else if storedZbitpix = 64 then some 8
  else none

/-- `parse_compressed_image_meta`. -/
def parseCompressedImageMeta (cards : List Card) : Except PyErr CompressedImageMeta := do
  let zcmptype ← match parseStringKeyword cards (str "ZCMPTYPE") with
    | none => .error (.value (str "compressed HDU missing ZCMPTYPE"))
    | some zcmptype => pure zcmptype
  let algorithm ← parseAlgorithm zcmptype
  let (zbitpix, imageShape) ← parseCompressedImageShape cards
  if imageShape.isEmpty then
    .error (.value (str "compressed HDU has ZNAXIS=0 (no image data)"))
  else
    let bytepix ← match defaultBytepix (if zbitpix < 0 then 32 else zbitpix) with
      | none => .error (.value (str "unsupported ZBITPIX " ++ intDec zbitpix))
      | some bytepix => pure bytepix
    let (blocksize, bytepixFromHeader) := parseRiceParams cards
    let smooth := parseHcompressSmooth cards
    let naxis1 ← match parseKeyword cards (str "NAXIS1") with
      | none => .error (.value (str "BINTABLE missing NAXIS1"))
      | some v => pure (asU64 v)
    let naxis2 ← match parseKeyword cards (str "NAXIS2") with
      | none => .error (.value (str "BINTABLE missing NAXIS2"))
      | some v => pure (asU64 v)
    let theap := match parseKeyword cards (str "THEAP") with
      | none => (mulU64 naxis1 naxis2).val
      | some x => x.toNat
    let cols ← findDataColumns cards
    let quant ← if zbitpix < 0 then buildQuantContext cards else pure none
    let tileShape := parseTileShape cards imageShape
    let nTiles := computeNTiles imageShape tileShape
    if nTiles ≠ naxis2 then
      .error (.value (str "ZIMAGE row count NAXIS2=" ++ natDec naxis2 ++
        str " disagrees with tile count " ++ natDec nTiles))
    else
      return ⟨zbitpix, imageShape, tileShape, nTiles, algorithm, blocksize.getD 32,
        bytepixFromHeader.getD bytepix, smooth, naxis1, theap, cols, quant⟩

/-! ## A tile -/

/-- `decode_tile_to_bytes` and the two dequantisers.  A decompressor is given the bytes,
the number of pixels, the bytes of a pixel, the block size, ZBITPIX, the shape of the
tile and the smoothing flag; a dequantiser ZBITPIX, the decoded integers, the scale and
the zero as they stand in the row, the method, the row number and ZDITHER0. -/
structure TileCodecs where
  decodeTileToBytes : CompressionAlgorithm → Bytes → Nat → Nat → Nat → Int → List Nat → Bool →
    Except PyErr Bytes
  dequantize : Int → Bytes → Bytes → Bytes → DitherMethod → Nat → Int → Except PyErr Bytes

/-- `get_or_decode_tile` on the bytes of a file.  `littleEndian` is the host's byte
order. -/
def getOrDecodeTile (codecs : TileCodecs) (littleEndian : Bool) (info : CompressedImageMeta)
    (file : Bytes) (dataOffset tileIdx : Nat) (actualShape : List Nat) : Except PyErr Bytes := do
  let payload ← fetchTilePayload file dataOffset info.theap info.naxis1 info.cols tileIdx
  let rowOffset := dataOffset + tileIdx * info.naxis1
  let readF64 (offset : Nat) : Except PyErr Bytes :=
    match readExact file (rowOffset + offset) 8 with
    | none => .error (.io (str "failed to fill whole buffer"))
    | some bytes => .ok bytes
  let scaleZero ← match info.quant with
    | none => pure ([], [])
    | some ctx => do
      let scale ← readF64 ctx.zscaleOffsetInRow
      let zero ← readF64 ctx.zzeroOffsetInRow
      pure (scale, zero)
  let tileNPixels := actualShape.prod
  let storedZbitpix := if info.zbitpix < 0 then 32 else info.zbitpix
  let floatBytepix := if info.zbitpix = -32 then 4 else if info.zbitpix = -64 then 8 else 0
  let primary := match payload with
    | .primaryCompressed _ => true
    | _ => false
  let dequantApplies := primary && info.quant.isSome
  let (decodeBp, decodeZb) :=
    if dequantApplies then (info.bytepix, storedZbitpix)
    else if info.zbitpix < 0 then (floatBytepix, -info.zbitpix)
    else (info.bytepix, storedZbitpix)
  let decode (algorithm : CompressionAlgorithm) (bytes : Bytes) : Except PyErr Bytes :=
    codecs.decodeTileToBytes algorithm bytes tileNPixels decodeBp info.blocksize decodeZb
      actualShape info.smooth
  let decoded ← match payload with
    | .primaryCompressed bytes => decode info.algorithm bytes
    | .fallbackCompressed bytes => decode .gzip1 bytes
    | .uncompressed bytes =>
      if u64Size ≤ tileNPixels * decodeBp then
        .error (.value (str "ZIMAGE: tile pixel count * bytepix overflowed usize"))
      else if bytes.length ≠ tileNPixels * decodeBp then
        .error (.value (str "ZIMAGE tile " ++ natDec tileIdx ++
          str ": UNCOMPRESSED_DATA payload is " ++ natDec bytes.length ++
          str " bytes but expected " ++ natDec (tileNPixels * decodeBp) ++ str " (" ++
          natDec tileNPixels ++ str " pixels * " ++ natDec decodeBp ++ str " bytes/pixel)"))
      else if littleEndian then pure (byteswapInPlace bytes decodeBp)
      else pure bytes
  match dequantApplies, info.quant with
  | true, some ctx =>
    if ctx.outputZbitpix = -32 ∨ ctx.outputZbitpix = -64 then
      codecs.dequantize ctx.outputZbitpix decoded scaleZero.1 scaleZero.2 ctx.method (tileIdx + 1)
        ctx.zdither0
    else
      .error (.value (str "ZimageQuantContext.output_zbitpix=" ++ intDec ctx.outputZbitpix ++
        str " not in \x7b-32,-64\x7d"))
  | _, _ => pure decoded

/-- `MAX_NAXIS`. -/
def maxNaxis : Nat := 8

/-- `tile_origin_and_shape`. -/
def tileOriginAndShape (tileIdx : Nat) (imageShape nominal : List Nat) :
    Except PyErr (List Nat × List Nat) :=
  if maxNaxis < imageShape.length then .error (.panic (str "tile_origin_and_shape"))
  else if 0 ∈ nominal then .error (.panic (str "attempt to divide by zero"))
  else match unfoldIndex (gridShape imageShape nominal) tileIdx with
    | none => .error (.panic (str "attempt to divide by zero"))
    | some coord => .ok (List.zipWith (· * ·) coord nominal, tileShape imageShape nominal coord)

end RustFits.CompressedImage
