import RustFits.BinaryTable.Rebuild

/-!
# Compressed images: tiles and the heap repack

A compressed image is a binary table with one row for each tile.  A row holds up
to three array descriptors: the compressed tile, its gzip fallback and its
uncompressed fallback.  `hdu_image_compressed/repack.rs` rebuilds the heap from the
blobs that these descriptors still reach.

* `findDataColumns` (`meta.rs`) finds the descriptor columns from the TTYPE and
  TFORM cards.
* `resolve` is the byte string behind one descriptor, and `fetchTilePayload`
  (`read.rs`) is what a reader decodes for a tile.
* `repackCompressedHeap` is the repack.  Its scan is its own; the moves, the new
  rows, the tail of the file and the header are those of the table repack
  (`BinaryTable.rebuildHeap`), which has the same code.
-/

namespace RustFits.CompressedImage

open Ascii ByteFile Machine BigEndian BinaryTable

/-! ## The descriptor columns -/

/-- The place of a descriptor in a row, its kind, and the bytes of one heap
element. -/
structure ZimageColumnInfo where
  byteOffsetInRow : Nat
  isQ : Bool
  innerByteWidth : Nat
  deriving DecidableEq, Repr

/-- The kind of the descriptors of a column. -/
def ZimageColumnInfo.kind (col : ZimageColumnInfo) : VarKind := if col.isQ then .q else .p

structure ZimageDataColumns where
  primary : ZimageColumnInfo
  gzipFallback : Option ZimageColumnInfo
  uncompressedFallback : Option ZimageColumnInfo
  deriving DecidableEq, Repr

/-- `cols_list` of the repack. -/
def ZimageDataColumns.slots (cols : ZimageDataColumns) : List ZimageColumnInfo :=
  cols.primary :: (cols.gzipFallback.toList ++ cols.uncompressedFallback.toList)

/-- The TFORM text behind its repeat count. -/
def tformType (tform : Str) : Str := (trim tform).dropWhile isDigit

/-- `tform_byte_width`. -/
def tformByteWidth (tform : Str) : Except PyErr Nat := do
  let digits := (trim tform).takeWhile isDigit
  let count ←
    if digits.isEmpty then pure 1
    else match parseU64 digits with
      | some n => pure n
      | none => .error (.value (str "bad TFORM repeat: " ++ tform))
  match tformType tform with
  | [] => .error (.value (str "TFORM missing type letter: " ++ tform))
  | t :: _ =>
    if t = 0x58 then return divCeil count 8
    else if t = 0x50 then return count * 8 % u64Size
    else if t = 0x51 then return count * 16 % u64Size
    else match bytesPerElement t with
      | some n => return count * n % u64Size
      | none =>
        .error (.value (str "unsupported TFORM type '" ++ [t] ++ str "' in ZIMAGE BINTABLE"))

/-- `tform_vla_inner_byte_width`. -/
def tformVlaInnerByteWidth (tform : Str) : Option Nat :=
  match tformType tform with
  | outer :: inner :: _ => if outer = 0x50 ∨ outer = 0x51 then bytesPerElement inner else none
  | _ => none

/-- `tform_is_q_descriptor`. -/
def tformIsQDescriptor (tform : Str) : Bool := (tformType tform).head? == some 0x51

/-- The columns found so far, and the offset of the next one. -/
structure ColumnWalk where
  primary : Option ZimageColumnInfo
  gzipFallback : Option ZimageColumnInfo
  uncompressedFallback : Option ZimageColumnInfo
  offset : Nat

/-- Column `i` of the walk. -/
def walkColumn (cards : List Card) (walk : ColumnWalk) (i : Nat) : Except PyErr ColumnWalk := do
  let ttype := (parseStringKeyword cards (ttypeKey i)).getD []
  match parseStringKeyword cards (tformKey i) with
  | none => .error (.value (str "ZIMAGE BINTABLE column " ++ natDec i ++ str " missing TFORM"))
  | some tform =>
    let width ← tformByteWidth tform
    let info : ZimageColumnInfo :=
      ⟨walk.offset, tformIsQDescriptor tform, (tformVlaInnerByteWidth tform).getD 1⟩
    let walk := { walk with offset := (walk.offset + width) % u64Size }
    if trim ttype = str "COMPRESSED_DATA" then return { walk with primary := some info }
    else if trim ttype = str "GZIP_COMPRESSED_DATA" then
      return { walk with gzipFallback := some info }
    else if trim ttype = str "UNCOMPRESSED_DATA" then
      return { walk with uncompressedFallback := some info }
    else return walk

/-- `find_data_columns`. -/
def findDataColumns (cards : List Card) : Except PyErr ZimageDataColumns := do
  let tfields := natKeyword cards (str "TFIELDS")
  if tfields = 0 then .error (.value (str "ZIMAGE BINTABLE has TFIELDS=0"))
  else
    let walk ← (List.range' 1 tfields).foldlM (walkColumn cards) ⟨none, none, none, 0⟩
    match walk.primary with
    | none => .error (.value (str "ZIMAGE BINTABLE missing COMPRESSED_DATA column"))
    | some primary => return ⟨primary, walk.gzipFallback, walk.uncompressedFallback⟩

/-! ## Reading a tile -/

/-- `read_descriptor_from_buf`, on the bytes of the descriptor: its fields are
unsigned here. -/
def readDescriptorFromBuf (kind : VarKind) (src : Bytes) : Nat × Nat :=
  (fromBe (slice src 0 (kind.width / 2)), fromBe (slice src (kind.width / 2) (kind.width / 2)))

/-- The byte string behind a descriptor of the file, with its number of elements. -/
def resolve (file : Bytes) (dataOffset theap rowWidth row : Nat) (col : ZimageColumnInfo) :
    Except PyErr (Nat × Bytes) :=
  match readExact file (dataOffset + row * rowWidth + col.byteOffsetInRow) col.kind.width with
  | none => .error (.io (str "failed to fill whole buffer"))
  | some desc =>
    let (nelem, off) := readDescriptorFromBuf col.kind desc
    if nelem = 0 then .ok (0, [])
    else match readExact file (dataOffset + theap + off)
      (saturatingMul nelem col.innerByteWidth) with
      | none => .error (.io (str "failed to fill whole buffer"))
      | some bytes => .ok (nelem, bytes)

/-- What a tile is decoded from. -/
inductive TilePayload where
  | primaryCompressed (bytes : Bytes)
  | fallbackCompressed (bytes : Bytes)
  | uncompressed (bytes : Bytes)
  deriving DecidableEq, Repr

/-- `fetch_tile_payload_inner`: the first column whose descriptor is not empty. -/
def fetchTilePayload (file : Bytes) (dataOffset theap rowWidth : Nat) (cols : ZimageDataColumns)
    (tile : Nat) : Except PyErr TilePayload := do
  let primary ← resolve file dataOffset theap rowWidth tile cols.primary
  if 0 < primary.1 then return .primaryCompressed primary.2
  let gzip ← match cols.gzipFallback with
    | none => pure (0, [])
    | some col => resolve file dataOffset theap rowWidth tile col
  if 0 < gzip.1 then return .fallbackCompressed gzip.2
  let plain ← match cols.uncompressedFallback with
    | none => pure (0, [])
    | some col => resolve file dataOffset theap rowWidth tile col
  if 0 < plain.1 then return .uncompressed plain.2
  .error (.value (str "ZIMAGE tile " ++ natDec tile ++
    str " has no data in any of COMPRESSED_DATA / GZIP_COMPRESSED_DATA / UNCOMPRESSED_DATA"))

/-! ## The scan -/

/-- `write_descriptor` of `write.rs`: a `P` descriptor refuses what it cannot
hold. -/
def writeDescriptorAt (buf : Bytes) (place : Nat) (kind : VarKind) (nel off : Nat) :
    Except PyErr Bytes :=
  if kind = .p ∧ (4294967295 < nel ∨ 4294967295 < off) then
    .error (.value (str "compressed extend: P-descriptor overflow (nelem=" ++ natDec nel ++
      str ", offset=" ++ natDec off ++ str "); use heap_format='Q' for heaps > 4 GB"))
  else splice buf place (writeDescriptor kind nel off)

/-- The place of a descriptor in the rows. -/
def descAt (rowWidth : Nat) (slot : Nat × ZimageColumnInfo) : Nat :=
  slot.1 * rowWidth + slot.2.byteOffsetInRow

/-- One descriptor of one row. -/
def scanTile (rowWidth currentPcount : Nat) (scan : Scan) (slot : Nat × ZimageColumnInfo) :
    Except PyErr Scan := do
  let desc ← sliceOf scan.mainBuf (descAt rowWidth slot) slot.2.kind.width
  let (nel, oldOff) := readDescriptorFromBuf slot.2.kind desc
  if nel = 0 then
    let mainBuf ← writeDescriptorAt scan.mainBuf (descAt rowWidth slot) slot.2.kind 0 0
    return { scan with mainBuf := mainBuf }
  else
    let nBytes := saturatingMul nel slot.2.innerByteWidth
    if currentPcount < (oldOff + nBytes) % u64Size then
      .error (.value (str "repack: tile row " ++ natDec slot.1 ++
        str ": descriptor points past heap end (offset+bytes=" ++
        natDec ((oldOff + nBytes) % u64Size) ++ str " > PCOUNT=" ++ natDec currentPcount ++
        str ")"))
    else
      let mainBuf ← writeDescriptorAt scan.mainBuf (descAt rowWidth slot) slot.2.kind nel
        scan.newCursor
      return ⟨mainBuf, scan.plans ++ [⟨oldOff, nBytes, scan.newCursor⟩], scan.newCursor + nBytes⟩

/-- Every descriptor of every row. -/
def tileSlots (nrows : Nat) (cols : ZimageDataColumns) : List (Nat × ZimageColumnInfo) :=
  (List.range nrows).flatMap fun row => cols.slots.map fun col => (row, col)

/-- `repack_compressed_heap`. -/
def repackCompressedHeap (idx : Nat) : FileOp Unit := do
  let s ← get
  match s.hdus[idx]? with
  | none => throw (.value (str "no such HDU"))
  | some h =>
    let cards := h.cards
    let naxis1 := natKeyword cards (str "NAXIS1")
    let naxis2 := natKeyword cards (str "NAXIS2")
    let currentPcount := natKeyword cards (str "PCOUNT")
    let dataOffset := h.offsets.dataOffset
    if currentPcount = 0 ∨ naxis2 = 0 then return ()
    else do
      let theapRaw := (parseKeyword cards (str "THEAP")).getD 0
      let mainBytes := saturatingMul naxis1 naxis2
      FileOp.raiseIf (0 < theapRaw ∧ theapRaw.toNat ≠ mainBytes)
        (.value (str "repack: file has non-default THEAP=" ++ intDec theapRaw ++
          str " (main rows end at " ++ natDec mainBytes ++
          str "); repack would write the new heap at the default position and corrupt the file"))
      let cols ← FileOp.ofExcept (findDataColumns cards)
      let mainBuf ← readAt (str "repack: read main failed: ") dataOffset mainBytes
      let scan ← FileOp.ofExcept
        ((tileSlots naxis2 cols).foldlM (scanTile naxis1 currentPcount) ⟨mainBuf, [], 0⟩)
      if scan.newCursor = currentPcount then return ()
      else
        rebuildHeap idx cards dataOffset mainBytes (dataOffset + mainBytes) currentPcount scan

end RustFits.CompressedImage
