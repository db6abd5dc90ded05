import RustFits.CompressedTable.Chain
import RustFits.Lib.LruCache

/-!
# Reading compressed tables through the tile cache

`read_compressed_table` decodes, tile by tile, the slabs of the selected columns
and keeps them in a cache by tile and column.  The reader is written over an
arbitrary way to obtain a slab: `readTable` with `fresh` decodes the file, with
`LruCache.fetch` it goes through the cache.

* `Coherent` says that every cached slab is what the file decodes to.  On such a
  cache the two readers agree, whatever the capacity (`follows_readTable`).
* A `Session` is an open table with its cache.  `session_reads_fresh` follows a
  whole run of reads, mutations and cache controls.
-/

namespace RustFits.CompressedTable

open Ascii ByteFile Machine BigEndian

/-! ## The reader -/

/-- How a cell becomes a value of the output array: `convert_column_cell` and
`build_var_cell_value`.  `row` is the output row, for the text of an error. -/
structure Render (Value : Type) where
  convertColumnCell : Column → (row : Nat) → Bytes → Except PyErr Value
  buildVarCellValue : Column → (row vlalen : Nat) → Bytes → Except PyErr Value

/-- What a read asks for: the rows, if not all of them, and the columns, each
with the place in the table at which the lookup of its name finds it. -/
structure ReadRequest where
  rows : Option (List Nat)
  selected : List (Column × Nat)

/-- The counts of the table. -/
structure Shape where
  nRows : Nat
  nTiles : Nat
  ztilelen : Nat
  rowWidth : Nat

def shapeOf (cards : List Card) : Shape :=
  ⟨natKeyword cards (str "ZNAXIS2"), natKeyword cards (str "NAXIS2"),
    natKeyword cards (str "ZTILELEN"), natKeyword cards (str "NAXIS1")⟩

/-- The rows of a tile; the last one has the rest. -/
def Shape.rowsInTile (shape : Shape) (tile : Nat) : Nat :=
  if tile + 1 = shape.nTiles then wrappingSub shape.nRows (tile * shape.ztilelen)
  else shape.ztilelen

/-- `RowPlan::from_indices`: the requested rows by tile in increasing order, each
as the row in the tile and the output row. -/
def requestsByTile (ztilelen : Nat) (indices : List Nat) : List (Nat × List (Nat × Nat)) :=
  let tileOf := fun row => if ztilelen = 0 then 0 else row / ztilelen
  let inTile := fun row => if ztilelen = 0 then 0 else row % ztilelen
  let lastTile := (indices.map tileOf).foldr max 0
  (List.range (lastTile + 1)).filterMap fun tile =>
    match (indices.zipIdx.filter fun request => tileOf request.1 = tile).map
        fun request => (inTile request.1, request.2) with
    | [] => none
    | requests => some (tile, requests)

/-- `RowPlan::tiles_with_requests`. -/
def tilesWithRequests (shape : Shape) : Option (List Nat) → List (Nat × List (Nat × Nat))
  | none => (List.range shape.nTiles).map fun tile =>
      (tile, (List.range (shape.rowsInTile tile)).map fun r => (r, tile * shape.ztilelen + r))
  | some indices => requestsByTile shape.ztilelen indices

/-- The number of output rows. -/
def outputRows (shape : Shape) : Option (List Nat) → Nat
  | none => shape.nRows
  | some indices => indices.length

/-- Read exactly `n` bytes of the file. -/
def readBytes (file : Bytes) (context : Str) (off n : Nat) : Except PyErr Bytes :=
  match readExact file off n with
  | some bytes => .ok bytes
  | none => .error (.io (context ++ str "failed to fill whole buffer"))

/-- `CacheKey`: both indices are cut to 32 bits. -/
def cacheKey (tile col : Nat) : Nat × Nat := (tile % 4294967296, col % 4294967296)

section

variable (codec : Codec)

/-- The decoded slab of a fixed column, or the descriptor arrays of a
variable-length one. -/
def decodeSlab (file : Bytes) (tile col rowspertile heapStart : Nat) (desc : Int × Int)
    (column : Column) : Except PyErr Bytes :=
  match column.varKind with
  | some kind => do
    let compressed ← readBytes file (str "read VLA descriptor blob for tile " ++ natDec tile ++
      str " col '" ++ column.name ++ str "': ") (heapStart + desc.2.toNat) desc.1.toNat
    if 0 < desc.1.toNat then
      codec.gzipDecompressBytes compressed (rowspertile * kind.width + rowspertile * 16)
    else .ok []
  | none => do
    let compressed ← readBytes file (str "read heap for tile " ++ natDec tile ++
      str " col '" ++ column.name ++ str "': ") (heapStart + desc.2.toNat) desc.1.toNat
    codec.decompressColumnSlab col rowspertile compressed

/-- The bytes of a variable-length cell. -/
def vlaCellBytes (file : Bytes) (tile col inTile heapStart elemSize vlalen cvlalen cvlastart : Nat)
    (column : Column) : Except PyErr Bytes := do
  let compressed ← readBytes file (str "read compressed VLA bytes for tile " ++ natDec tile ++
    str " col '" ++ column.name ++ str "' row " ++ natDec inTile ++ str ": ")
    (heapStart + cvlastart) cvlalen
  if u64Size ≤ vlalen * elemSize then .error (.value (str "VLA cell size overflowed usize"))
  else if cvlalen = vlalen * elemSize then .ok compressed
  else codec.decompressColumnSlab col vlalen compressed

/-- One requested cell of a variable-length column. -/
def readVlaCell {Value : Type} (render : Render Value) (file : Bytes)
    (tile col rowspertile heapStart elemSize : Nat) (kind : VarKind) (column : Column)
    (blob : Bytes) (request : Nat × Nat) : Except PyErr Value := do
  let origDesc ← sliceOf blob (request.1 * kind.width) kind.width
  let vlalen := (readDescriptor kind origDesc).1
  if vlalen < 0 then
    .error (.value (str "tile " ++ natDec tile ++ str " col '" ++ column.name ++ str "' row " ++
      natDec request.1 ++ str ": original VLA descriptor has negative nelements (" ++
      intDec vlalen ++ str ")"))
  else do
    let compDesc ← sliceOf blob (rowspertile * kind.width + request.1 * 16) 16
    let (cvlalen, cvlastart) := readDescriptor .q compDesc
    if cvlalen < 0 ∨ cvlastart < 0 then
      .error (.value (str "tile " ++ natDec tile ++ str " col '" ++ column.name ++ str "' row " ++
        natDec request.1 ++ str ": compressed-VLA descriptor has negative field (cvlalen=" ++
        intDec cvlalen ++ str ", cvlastart=" ++ intDec cvlastart ++ str ")"))
    else if vlalen = 0 then render.buildVarCellValue column request.2 0 []
    else do
      let bytes ← vlaCellBytes codec file tile col request.1 heapStart elemSize vlalen.toNat
        cvlalen.toNat cvlastart.toNat column
      render.buildVarCellValue column request.2 vlalen.toNat bytes

/-- One requested cell of a fixed column. -/
def readFixedCell {Value : Type} (render : Render Value) (column : Column) (slab : Bytes)
    (request : Nat × Nat) : Except PyErr Value := do
  let cell ← sliceOf slab (request.1 * column.byteWidth) column.byteWidth
  render.convertColumnCell column request.2 cell

section

variable {m : Type → Type} [Monad m] [MonadExceptOf PyErr m]
  (fetch : Nat × Nat → Except PyErr Bytes → m Bytes)

/-- Raise the error of a pure step. -/
def raise {α : Type} : Except PyErr α → m α
  | .ok a => pure a
  | .error e => throw e

/-- The cells of one column in one tile, each with its output row and the place
of the column in the output. -/
def readColumnTile {Value : Type} (render : Render Value) (file : Bytes)
    (tile rowspertile heapStart : Nat) (descRow : Bytes) (requests : List (Nat × Nat))
    (selected : (Column × Nat) × Nat) : m (List ((Nat × Nat) × Value)) := do
  let column := selected.1.1
  let col := selected.1.2
  let desc := readDescriptor .q (slice descRow (col * 16) 16)
  raise (if desc.1 < 0 ∨ desc.2 < 0 then
    .error (.value (str "tile " ++ natDec tile ++ str " column '" ++ column.name ++
      str "': descriptor has negative field (nelements=" ++ intDec desc.1 ++ str ", offset=" ++
      intDec desc.2 ++ str ")"))
    else .ok ())
  match column.varKind with
  | some kind => do
    let elemSize ← raise (match bytesPerElement column.tformLetter with
      | some n => .ok n
      | none => .error (.value (str "column '" ++ column.name ++
          str "': unsupported VLA inner letter '" ++ [column.tformLetter] ++ str "'")))
    let blob ← fetch (cacheKey tile col)
      (decodeSlab codec file tile col rowspertile heapStart desc column)
    requests.mapM fun request => do
      let value ← raise (readVlaCell codec render file tile col rowspertile heapStart elemSize kind
        column blob request)
      return ((request.2, selected.2), value)
  | none => do
    let slab ← fetch (cacheKey tile col)
      (decodeSlab codec file tile col rowspertile heapStart desc column)
    requests.mapM fun request => do
      let value ← raise (readFixedCell render column slab request)
      return ((request.2, selected.2), value)

/-- The descriptor row of a tile. -/
def readDescriptorRow (file : Bytes) (shape : Shape) (dataOffset tile : Nat) : Except PyErr Bytes :=
  readBytes file (str "read descriptor row for tile " ++ natDec tile ++ str ": ")
    (dataOffset + tile * shape.rowWidth) shape.rowWidth

/-- One tile: its descriptors, then its columns. -/
def readTile {Value : Type} (render : Render Value) (file : Bytes) (shape : Shape)
    (dataOffset heapStart : Nat) (selected : List (Column × Nat)) (tile : Nat × List (Nat × Nat)) :
    m (List ((Nat × Nat) × Value)) := do
  let descRow ← raise (readDescriptorRow file shape dataOffset tile.1)
  let cells ← selected.zipIdx.mapM (readColumnTile codec fetch render file tile.1
    (shape.rowsInTile tile.1) heapStart descRow tile.2)
  return cells.flatten

/-- `read_compressed_table`: the cells of the output array, in the order in which
they are filled. -/
def readTable {Value : Type} (render : Render Value) (columns : List Column) (file : Bytes)
    (cards : List Card) (dataOffset : Nat) (request : ReadRequest) :
    m (List ((Nat × Nat) × Value)) := do
  let shape := shapeOf cards
  if outputRows shape request.rows = 0 ∨ request.selected = [] then
    return []
  else do
    raise (if shape.rowWidth ≠ columns.length * 16 then
      .error (.value (str "compressed table NAXIS1 = " ++ natDec shape.rowWidth ++
        str " but expected ncols (" ++ natDec columns.length ++ str ") * 16 = " ++
        natDec (columns.length * 16) ++ str " bytes per descriptor row"))
      else .ok ())
    let tiles ← (tilesWithRequests shape request.rows).mapM
      (readTile codec fetch render file shape dataOffset (dataOffset + heapBase cards)
        request.selected)
    return tiles.flatten

end

/-- Decode a slab from the file. -/
def fresh (_ : Nat × Nat) (compute : Except PyErr Bytes) : Except PyErr Bytes := compute

end

/-! ## Transparency -/

/-- The decompressed slabs by tile and column. -/
abbrev ColumnTileCache := LruCache (Nat × Nat)

/-- The slab is what the file holds for every tile and column of that key. -/
def SlabOf (codec : Codec) (columns : List Column) (file : Bytes) (cards : List Card)
    (dataOffset : Nat) (key : Nat × Nat) (slab : Bytes) : Prop :=
  ∀ (tile col : Nat) (column : Column) (descRow : Bytes), tile < 4294967296 → col < 4294967296 →
    cacheKey tile col = key → columns[col]? = some column →
    readDescriptorRow file (shapeOf cards) dataOffset tile = .ok descRow →
    decodeSlab codec file tile col ((shapeOf cards).rowsInTile tile) (dataOffset + heapBase cards)
      (readDescriptor .q (slice descRow (col * 16) 16)) column = .ok slab

/-- The tiles and columns of a request have 32-bit numbers, and the columns are
those of the table. -/
structure Addressed (columns : List Column) (cards : List Card) (request : ReadRequest) : Prop where
  tiles : ∀ tile ∈ tilesWithRequests (shapeOf cards) request.rows, tile.1 < 4294967296
  columns : ∀ selected ∈ request.selected,
    selected.2 < 4294967296 ∧ columns[selected.2]? = some selected.1

section

variable {codec : Codec} {columns : List Column} {file : Bytes} {cards : List Card}
  {dataOffset : Nat} {Value : Type} {render : Render Value}

theorem follows_raise {σ α : Type} {I : σ → Prop} (y : Except PyErr α) :
    Follows I (raise y : EStateM PyErr σ α) (raise y) := by
  cases y with
  | ok a => exact Follows.pure a
  | error e => exact Follows.throw e

/-- Keys of 32-bit numbers are distinct. -/
theorem cacheKey_inj {tile tile' col col' : Nat} (h1 : tile < 4294967296) (h2 : tile' < 4294967296)
    (h3 : col < 4294967296) (h4 : col' < 4294967296) (h : cacheKey tile col = cacheKey tile' col') :
    tile = tile' ∧ col = col' := by
  unfold cacheKey at h
  rw [Prod.mk.injEq] at h
  omega

/-- The cache property of one key is the equation of one slab. -/
theorem slabOf_iff (codec : Codec) {tile col : Nat} {column : Column} {descRow : Bytes}
    (htile : tile < 4294967296) (hcol : col < 4294967296) (hcolumn : columns[col]? = some column)
    (hrow : readDescriptorRow file (shapeOf cards) dataOffset tile = .ok descRow) (slab : Bytes) :
    SlabOf codec columns file cards dataOffset (cacheKey tile col) slab ↔
      decodeSlab codec file tile col ((shapeOf cards).rowsInTile tile) (dataOffset + heapBase cards)
        (readDescriptor .q (slice descRow (col * 16) 16)) column = .ok slab := by
  constructor
  · intro hslab
    exact hslab tile col column descRow htile hcol rfl hcolumn hrow
  · intro hdecode tile' col' column' descRow' htile' hcol' hkey hcolumn' hrow'
    obtain ⟨rfl, rfl⟩ := cacheKey_inj htile' htile hcol' hcol hkey
    rw [hcolumn, Option.some.injEq] at hcolumn'
    rw [hrow, Except.ok.injEq] at hrow'
    rw [← hcolumn', ← hrow']
    exact hdecode

section

variable {σ : Type} {I : σ → Prop} {fetch : Nat × Nat → Except PyErr Bytes → EStateM PyErr σ Bytes}

theorem follows_readColumnTile {tile rowspertile heapStart : Nat} {descRow : Bytes}
    (requests : List (Nat × Nat)) {selected : (Column × Nat) × Nat}
    (hfetch : Follows I (fetch (cacheKey tile selected.1.2)
        (decodeSlab codec file tile selected.1.2 rowspertile heapStart
          (readDescriptor .q (slice descRow (selected.1.2 * 16) 16)) selected.1.1))
      (decodeSlab codec file tile selected.1.2 rowspertile heapStart
        (readDescriptor .q (slice descRow (selected.1.2 * 16) 16)) selected.1.1)) :
    Follows I
      (readColumnTile codec fetch render file tile rowspertile heapStart descRow requests selected)
      (readColumnTile codec fresh render file tile rowspertile heapStart descRow requests
        selected) := by
  unfold readColumnTile
  refine Follows.bind (follows_raise _) fun _ => ?_
  split
  · refine Follows.bind (follows_raise _) fun elemSize => ?_
    refine Follows.bind hfetch fun blob => Follows.mapM fun request _ => ?_
    exact Follows.bind (follows_raise _) fun value => Follows.pure _
  · refine Follows.bind hfetch fun slab => Follows.mapM fun request _ => ?_
    exact Follows.bind (follows_raise _) fun value => Follows.pure _

/-- A read whose fetches give what a fresh decoding of the slab gives. -/
theorem follows_readTable_of_fetch (render : Render Value) {request : ReadRequest}
    (hfetch : ∀ tile ∈ tilesWithRequests (shapeOf cards) request.rows, ∀ p ∈ request.selected,
      ∀ descRow, readDescriptorRow file (shapeOf cards) dataOffset tile.1 = .ok descRow →
        let slab := decodeSlab codec file tile.1 p.2 ((shapeOf cards).rowsInTile tile.1)
          (dataOffset + heapBase cards) (readDescriptor .q (slice descRow (p.2 * 16) 16)) p.1
        Follows I (fetch (cacheKey tile.1 p.2) slab) slab) :
    Follows I (readTable codec fetch render columns file cards dataOffset request)
      (readTable codec fresh render columns file cards dataOffset request) := by
  unfold readTable
  dsimp only
  by_cases hempty : outputRows (shapeOf cards) request.rows = 0 ∨ request.selected = []
  · rw [if_pos hempty, if_pos hempty]
    exact Follows.pure []
  rw [if_neg hempty, if_neg hempty]
  refine Follows.bind (follows_raise _) fun _ => ?_
  refine Follows.bind (Follows.mapM fun tile htile => ?_) fun tiles => Follows.pure _
  unfold readTile
  cases hrow : readDescriptorRow file (shapeOf cards) dataOffset tile.1 with
  | error e => exact Follows.throw e
  | ok descRow =>
    change Follows _ (pure descRow >>= _) (pure descRow >>= _)
    rw [pure_bind, pure_bind]
    refine Follows.bind (Follows.mapM fun p hp => ?_) fun cells => Follows.pure _
    exact follows_readColumnTile tile.2
      (hfetch tile htile p.1 (List.fst_mem_of_mem_zipIdx hp) descRow hrow)

end

/-- On a coherent cache a read gives what a fresh decoding gives, and leaves the
cache coherent. -/
theorem follows_readTable (render : Render Value) {request : ReadRequest}
    (haddr : Addressed columns cards request) :
    Follows (LruCache.All (SlabOf codec columns file cards dataOffset))
      (readTable codec LruCache.fetch render columns file cards dataOffset request)
      (readTable codec fresh render columns file cards dataOffset request) := by
  refine follows_readTable_of_fetch render fun tile htile p hp descRow hrow => ?_
  have hcol := haddr.columns p hp
  exact LruCache.triple_fetch (slabOf_iff codec (haddr.tiles tile htile) hcol.1 hcol.2 hrow)

end

/-! ## Calls that leave the cache alone -/

section

variable {codec : Codec} {columns : List Column} {idx : Nat} {s : Fits}

/-- A program that ends as its last part does. -/
theorem returns_bind_last {α β : Type} {x : FileOp α} {f : α → FileOp β} {Q : β → Fits → Prop}
    (hf : ∀ a, Returns (fun _ => True) (f a) Q) : Returns (fun _ => True) (x >>= f) Q := by
  have hx : Returns (fun _ => True) x fun _ _ => True := by
    intro t _
    cases x t with
    | ok a t' => trivial
    | error e t' => trivial
  exact hx.bind hf

/-- A method that reports the cache as cleared. -/
def Clears (x : FileOp Bool) : Prop := Returns (fun _ => True) x fun cleared _ => cleared = true

theorem clears_pure : Clears (pure true) := fun _ _ => rfl

theorem Clears.unchanged {x : FileOp Bool} (h : Clears x) :
    Returns (fun t => t = s) x fun cleared s' => cleared = false → s' = s := by
  refine (Triple.pre h fun _ _ => trivial).post fun cleared s' hcleared hfalse => ?_
  rw [hcleared] at hfalse
  cases hfalse

theorem returns_false_unchanged :
    Returns (fun t => t = s) (pure false : FileOp Bool) fun cleared s' =>
      cleared = false → s' = s :=
  Triple.pure fun _ ht _ => ht

theorem append_unchanged (cards : List Card) (inputs : List ColumnInput)
    (appendNrows nrows ztilelen nTiles rowWidth dataOffset pcount : Nat) :
    Returns (fun t => t = s)
      (appendCompressedTableData codec idx cards columns inputs appendNrows nrows ztilelen nTiles
        rowWidth dataOffset pcount) fun cleared s' => cleared = false → s' = s := by
  unfold appendCompressedTableData
  refine (Triple.raiseIf fun _ _ => trivial).bind fun _ => Triple.assume fun _ => ?_
  refine Triple.ite (fun _ => returns_false_unchanged) fun _ => ?_
  refine Clears.unchanged (returns_bind_last fun _ => returns_bind_last fun _ => ?_)
  exact returns_bind_last fun _ => returns_bind_last fun _ => clears_pure

theorem setitem_unchanged (cards : List Card) (selected : List (Source × Nat)) (diskRows : List Nat)
    (nrows ztilelen nTiles rowWidth dataOffset pcount : Nat) :
    Returns (fun t => t = s)
      (setitemCompressedCols codec idx cards selected diskRows nrows ztilelen nTiles rowWidth
        dataOffset pcount) fun cleared s' => cleared = false → s' = s := by
  unfold setitemCompressedCols
  refine Triple.ite (fun _ => returns_false_unchanged) fun _ => ?_
  refine Clears.unchanged (returns_bind_last fun _ => returns_bind_last fun _ => ?_)
  refine returns_bind_last fun _ => returns_bind_last fun _ => ?_
  exact returns_bind_last fun _ => clears_pure

theorem repackVla_clears (cards : List Card) (nTiles rowWidth pcount dataOffset : Nat) :
    Clears
      (repackCompressedTableHeapVla codec idx cards columns nTiles rowWidth pcount dataOffset) := by
  refine returns_bind_last fun _ => returns_bind_last fun _ => returns_bind_last fun _ => ?_
  exact returns_bind_last fun _ => returns_bind_last fun _ => clears_pure

theorem repackFixed_unchanged (cards : List Card) (ncols nTiles rowWidth pcount dataOffset : Nat) :
    Returns (fun t => t = s) (repackFixed idx cards ncols nTiles rowWidth pcount dataOffset)
      fun cleared s' => cleared = false → s' = s := by
  unfold repackFixed
  refine (Triple.readAt fun _ _ _ => trivial).bind fun table => Triple.assume fun _ => ?_
  refine (Triple.ofExcept fun _ _ _ => trivial).bind fun ⟨scanned, newPcount⟩ =>
    Triple.assume fun _ => ?_
  refine Triple.ite (fun _ => returns_false_unchanged) fun _ => ?_
  refine Clears.unchanged (returns_bind_last fun _ => returns_bind_last fun _ => ?_)
  exact returns_bind_last fun _ => clears_pure

/-- The method is `write`, which leaves the cache alone. -/
def Op.isWrite : Op → Bool
  | .write _ => true
  | _ => false

/-- Any other method that does not clear the cache has not changed the file. -/
theorem apply_unchanged {op : Op} (hop : op.isWrite = false) :
    Returns (fun t => t = s) (apply codec columns idx op) fun cleared s' =>
      cleared = false → s' = s := by
  unfold apply
  refine (Triple.get (Q := fun a u => a = s ∧ u = s) fun t ht => ⟨ht, ht⟩).bind fun t =>
    Triple.assume fun ht => ?_
  subst ht
  cases t.hdus[idx]? with
  | none => exact Triple.throw fun _ _ => trivial
  | some h =>
    cases op with
    | write inputs => cases hop
    | append inputs appendNrows => exact append_unchanged _ _ _ _ _ _ _ _ _
    | setitem selected diskRows => exact setitem_unchanged _ _ _ _ _ _ _ _ _
    | repack =>
      refine Triple.ite (fun _ => returns_false_unchanged) fun _ => ?_
      exact Triple.ite (fun _ => (repackVla_clears _ _ _ _ _).unchanged) fun _ =>
        repackFixed_unchanged _ _ _ _ _ _

end

/-! ## Sessions -/

/-- An open table with its tile cache. -/
structure Session where
  file : Fits
  cache : ColumnTileCache

/-- The methods of `CompressedTableHDU` that use the file or the cache. -/
inductive Call where
  | read (request : ReadRequest)
  | mutate (op : Op)
  | setTileCacheSize (bytes : Nat)
  | clearTileCache

section

variable (codec : Codec) {Value : Type} (render : Render Value) (columns : List Column) (idx : Nat)

/-- A read of the table `idx`, given a way to read a table. -/
def readHdu {m : Type → Type} [Monad m] [MonadExceptOf PyErr m]
    (fetch : Nat × Nat → Except PyErr Bytes → m Bytes) (file : Fits) (request : ReadRequest) :
    m (List ((Nat × Nat) × Value)) :=
  match file.hdus[idx]? with
  | none => throw (.value (str "no such HDU"))
  | some h => readTable codec fetch render columns file.bytes h.cards h.offsets.dataOffset request

/-- What a read returns. -/
def Session.readResult (s : Session) (request : ReadRequest) :
    Except PyErr (List ((Nat × Nat) × Value)) :=
  match readHdu codec render columns idx LruCache.fetch s.file request s.cache with
  | .ok cells _ => .ok cells
  | .error e _ => .error e

/-- The session after a call, whether it returns or raises. -/
def Call.perform (s : Session) : Call → Session
  | .read request =>
    match readHdu codec render columns idx LruCache.fetch s.file request s.cache with
    | .ok _ cache => { s with cache := cache }
    | .error _ cache => { s with cache := cache }
  | .mutate op =>
    match apply codec columns idx op s.file with
    | .ok cleared file => ⟨file, if cleared then s.cache.clear else s.cache⟩
    | .error _ file => { s with file := file }
  | .setTileCacheSize bytes => { s with cache := s.cache.setCapacity bytes }
  | .clearTileCache => { s with cache := s.cache.clear }

/-- Every cached slab is what the file decodes to. -/
def Coherent (s : Session) : Prop :=
  ∀ h, s.file.hdus[idx]? = some h →
    LruCache.All (SlabOf codec columns s.file.bytes h.cards h.offsets.dataOffset) s.cache

/-- What a call asks of the session before it.  A mutation needs an empty cache,
unless it clears the cache itself: then it must not raise. -/
def Call.Safe (s : Session) : Call → Prop
  | .read request => ∀ h, s.file.hdus[idx]? = some h → Addressed columns h.cards request
  | .mutate op => s.cache.entries = [] ∨
      op.isWrite = false ∧ ∃ cleared file, apply codec columns idx op s.file = .ok cleared file
  | .setTileCacheSize _ => True
  | .clearTileCache => True

/-- The sessions that safe calls lead to from a freshly opened file. -/
inductive Reached (file : Fits) (maxBytes : Nat) : Session → Prop
  | start : Reached file maxBytes ⟨file, .new maxBytes⟩
  | call {s : Session} {call : Call} : Reached file maxBytes s →
    call.Safe codec columns idx s → Reached file maxBytes (call.perform codec render columns idx s)

end

section

variable {codec : Codec} {Value : Type} {render : Render Value} {columns : List Column} {idx : Nat}
  {s : Session}

/-- A read on a coherent session gives what the file decodes to. -/
theorem follows_readHdu (render : Render Value) (hs : Coherent codec columns idx s)
    {request : ReadRequest} (hsafe : (Call.read request).Safe codec columns idx s) :
    match readHdu codec render columns idx LruCache.fetch s.file request s.cache with
    | .ok cells cache => readHdu codec render columns idx fresh s.file request = .ok cells ∧
        Coherent codec columns idx { s with cache := cache }
    | .error e cache => readHdu codec render columns idx fresh s.file request = .error e ∧
        Coherent codec columns idx { s with cache := cache } := by
  unfold readHdu
  cases hdu : s.file.hdus[idx]? with
  | none => exact ⟨rfl, hs⟩
  | some h =>
    have hread := follows_readTable render (hsafe h hdu) s.cache (hs h hdu)
    have hcoherent : ∀ cache, LruCache.All
        (SlabOf codec columns s.file.bytes h.cards h.offsets.dataOffset) cache →
        Coherent codec columns idx { s with cache := cache } := by
      intro cache hall h' hdu'
      rw [hdu, Option.some.injEq] at hdu'
      rw [← hdu']
      exact hall
    dsimp only
    cases hres : readTable codec LruCache.fetch render columns s.file.bytes h.cards
        h.offsets.dataOffset request s.cache with
    | ok cells cache =>
      rw [hres] at hread
      exact ⟨hread.1, hcoherent cache hread.2⟩
    | error e cache =>
      rw [hres] at hread
      exact ⟨hread.1, hcoherent cache hread.2⟩

/-- Every safe call keeps the session coherent. -/
theorem coherent_perform (hs : Coherent codec columns idx s) {call : Call}
    (hsafe : call.Safe codec columns idx s) :
    Coherent codec columns idx (call.perform codec render columns idx s) := by
  cases call with
  | read request =>
    have hread := follows_readHdu render hs hsafe
    unfold Call.perform
    dsimp only
    cases hres : readHdu codec render columns idx LruCache.fetch s.file request s.cache with
    | ok cells cache =>
      rw [hres] at hread
      exact hread.2
    | error e cache =>
      rw [hres] at hread
      exact hread.2
  | mutate op =>
    unfold Call.perform
    dsimp only
    rcases hsafe with hempty | ⟨hop, cleared, file, hrun⟩
    · -- nothing is cached, so nothing can be stale
      cases hres : apply codec columns idx op s.file with
      | ok cleared file =>
        intro h hdu
        cases cleared with
        | true => exact LruCache.all_clear
        | false => exact LruCache.all_of_nil hempty
      | error e file =>
        intro h hdu
        exact LruCache.all_of_nil hempty
    · rw [hrun]
      cases cleared with
      | true =>
        intro h hdu
        exact LruCache.all_clear
      | false =>
        have hfile : file = s.file := (apply_unchanged hop).ok rfl hrun rfl
        rw [hfile]
        exact hs
  | setTileCacheSize bytes =>
    intro h hdu
    exact LruCache.all_setCapacity (hs h hdu) bytes
  | clearTileCache =>
    intro h hdu
    exact LruCache.all_clear

theorem coherent_of_reached {file : Fits} {maxBytes : Nat}
    (hrun : Reached codec render columns idx file maxBytes s) : Coherent codec columns idx s := by
  induction hrun with
  | start =>
    intro h hdu
    exact LruCache.all_new maxBytes
  | call _ hsafe ih => exact coherent_perform ih hsafe

/-- After any safe calls from a freshly opened file, with any capacity, a read
returns exactly what the file decodes to without a cache. -/
theorem session_reads_fresh {file : Fits} {maxBytes : Nat}
    (hrun : Reached codec render columns idx file maxBytes s) {request : ReadRequest}
    (hsafe : (Call.read request).Safe codec columns idx s) :
    s.readResult codec render columns idx request =
      readHdu codec render columns idx fresh s.file request := by
  have hread := follows_readHdu render (coherent_of_reached hrun) hsafe
  unfold Session.readResult
  cases hres : readHdu codec render columns idx LruCache.fetch s.file request s.cache with
  | ok cells cache =>
    rw [hres] at hread
    exact hread.1.symm
  | error e cache =>
    rw [hres] at hread
    exact hread.1.symm

end

/-! ### A table of one byte -/

/-- Cells as they are in the file. -/
def rawCells : Render Bytes := ⟨fun _ _ bytes => .ok bytes, fun _ _ _ bytes => .ok bytes⟩

def byteRequest : ReadRequest := ⟨none, [(byteColumn, 0)]⟩

/-- The file holds the byte `v` in its one tile. -/
structure HoldsByte (file : Bytes) (cards : List Card) (dataOffset : Nat) (v : UInt8) : Prop where
  shape : shapeOf cards = ⟨1, 1, 1, 16⟩
  heap : heapBase cards = 16
  desc : readExact file dataOffset 16 = some (writeDescriptor .q 2 0)
  blob : readExact file (dataOffset + 16) 2 = some [v, 0]

theorem readTable_byte {m : Type → Type} [Monad m] [LawfulMonad m] [MonadExceptOf PyErr m]
    (fetch : Nat × Nat → Except PyErr Bytes → m Bytes) {file : Bytes} {cards : List Card}
    {dataOffset : Nat} {v : UInt8} (h : HoldsByte file cards dataOffset v) :
    readTable riceOfByte fetch rawCells [byteColumn] file cards dataOffset byteRequest = do
      let slab ← fetch (0, 0) (.ok [v])
      let value ← raise (readFixedCell rawCells byteColumn slab (0, 0))
      return [((0, 0), value)] := by
  have hrow : readDescriptorRow file ⟨1, 1, 1, 16⟩ dataOffset 0 = .ok (writeDescriptor .q 2 0) := by
    unfold readDescriptorRow readBytes
    rw [Nat.zero_mul, Nat.add_zero, h.desc]
  have hslab : decodeSlab riceOfByte file 0 0 1 (dataOffset + 16) (2, 0) byteColumn = .ok [v] := by
    unfold decodeSlab readBytes
    rw [show byteColumn.varKind = none from rfl]
    dsimp only
    rw [show dataOffset + 16 + Int.toNat 0 = dataOffset + 16 from rfl,
      show Int.toNat 2 = 2 from rfl, h.blob]
    rfl
  have htile : readTile riceOfByte fetch rawCells file ⟨1, 1, 1, 16⟩ dataOffset (dataOffset + 16)
      [(byteColumn, 0)] (0, [(0, 0)]) = do
      let slab ← fetch (0, 0) (.ok [v])
      let value ← raise (readFixedCell rawCells byteColumn slab (0, 0))
      return [((0, 0), value)] := by
    unfold readTile
    rw [hrow]
    show ((pure (writeDescriptor .q 2 0) : m Bytes) >>= _) = _
    rw [pure_bind, show [(byteColumn, 0)].zipIdx = [((byteColumn, 0), 0)] from rfl,
      List.mapM_cons, List.mapM_nil]
    unfold readColumnTile
    dsimp only
    rw [show readDescriptor .q (slice (writeDescriptor .q 2 0) (0 * 16) 16) = (2, 0) by decide]
    rw [show byteColumn.varKind = none from rfl]
    dsimp only
    rw [show (Shape.rowsInTile ⟨1, 1, 1, 16⟩ 0) = 1 by decide, hslab]
    show _ = _
    simp [raise, cacheKey]
  unfold readTable
  rw [h.shape, h.heap]
  dsimp only
  rw [if_neg (by decide)]
  rw [show tilesWithRequests ⟨1, 1, 1, 16⟩ byteRequest.rows = [(0, [(0, 0)])] by decide,
    List.mapM_cons, List.mapM_nil]
  show ((pure () : m Unit) >>= _) = _
  rw [pure_bind, show byteRequest.selected = [(byteColumn, 0)] from rfl, htile]
  simp

/-- The counts of a table of one byte. -/
theorem shapeOf_byte {h : Hdu} (hbyte : ByteTable h) : shapeOf h.cards = ⟨1, 1, 1, 16⟩ := by
  rw [shapeOf, hbyte.rows, hbyte.tiles, hbyte.tileLen, hbyte.width]

theorem heapBase_byte {h : Hdu} (hbyte : ByteTable h)
    (htheap : natKeyword h.cards (str "THEAP") = 0) :
    heapBase h.cards = 16 := by
  unfold natKeyword at htheap
  unfold heapBase
  dsimp only
  rw [if_neg (by omega), hbyte.width, hbyte.tiles]

theorem holdsByte_byteFile (v : UInt8) (padding : Bytes) :
    HoldsByte (byteFile (str "   2") [v, 0] padding).bytes (byteCards (str "   2")) 5760 v := by
  have hbyte := byteTable_two.1
  have hlen := byteFile_length (str "   2") [v, 0] padding
  have htwo : [v, 0].length = 2 := rfl
  have hheader : (serializeHeaderToDiskBytes bytePrimary ++
      serializeHeaderToDiskBytes (byteCards (str "   2"))).length = 5760 := by
    simp [serialize_length, headerBlocks_eq, bytePrimary, byteCards]
  refine ⟨shapeOf_byte hbyte, heapBase_byte hbyte (by decide +kernel), ?_, ?_⟩
  · rw [readExact_eq_some (by omega)]
    show some (slice (_ ++ writeDescriptor .q 2 0 ++ [v, 0] ++ padding) 5760 16) = _
    rw [List.append_assoc, List.append_assoc, slice_append_behind hheader,
      show (16 : Nat) = (writeDescriptor .q 2 0).length from rfl, List.take_left]
  · rw [readExact_eq_some (by omega)]
    show some (slice (_ ++ writeDescriptor .q 2 0 ++ [v, 0] ++ padding) 5776 2) = _
    rw [List.append_assoc, slice_append_behind (by
      rw [List.length_append, hheader, writeDescriptor_length, VarKind.width]),
        List.take_left' htwo]

/-- A written table of one byte holds that byte. -/
theorem holdsByte_byteWritten {s : Fits} {idx : Nat} {h : Hdu} (ho : Opened s idx h)
    (hbyte : ByteTable h) (hfit : ByteHeaderFits h)
    (htheap : natKeyword h.cards (str "THEAP") = 0) (v : UInt8) :
    HoldsByte (byteWritten s idx h v).bytes (pcountCards h.cards 2 (some 0)) h.offsets.dataOffset
      v := by
  have hlookup : ∀ key, (str "PCOUNT").isPrefixOf key = false →
      (str "ZPCOUNT").isPrefixOf key = false →
      natKeyword (pcountCards h.cards 2 (some 0)) key = natKeyword h.cards key := by
    intro key hp hz
    rw [natKeyword, natKeyword, parseKeyword_pcountCards_other 2 (some 0) hp hz]
  have hblock := byteTable_dataEnd hbyte
  have hle := ho.dataEnd_le
  have hlen := byteWritten_length ho hbyte hfit v
  obtain ⟨-, -, hoff, -⟩ := ho.chain
  have hheader := headerBytes_length hfit
  have htwo : [v, 0].length = 2 := rfl
  have hdesc : (writeDescriptor .q 2 0).length = 16 := writeDescriptor_length .q 2 0
  obtain ⟨h1, h2, h3⟩ := byteWritten_steps ho hbyte v
  refine ⟨?_, ?_, ?_, ?_⟩
  · rw [shapeOf, hlookup _ (by decide) (by decide), hlookup _ (by decide) (by decide),
      hlookup _ (by decide) (by decide), hlookup _ (by decide) (by decide)]
    exact shapeOf_byte hbyte
  · unfold heapBase
    rw [parseKeyword_pcountCards_other 2 (some 0) (by decide) (by decide),
      hlookup _ (by decide) (by decide), hlookup _ (by decide) (by decide)]
    exact heapBase_byte hbyte htheap
  · rw [readExact_eq_some (by omega)]
    show some (slice (writeAll (writeAll _ h.offsets.dataOffset (writeDescriptor .q 2 0))
      h.offsets.headerOffset _) h.offsets.dataOffset 16) = _
    rw [slice_writeAll_of_disjoint (by omega) (Or.inr (by omega)),
      slice_writeAll_of_length (by omega) hdesc]
  · rw [readExact_eq_some (by omega)]
    show some (slice (writeAll (writeAll _ h.offsets.dataOffset (writeDescriptor .q 2 0))
      h.offsets.headerOffset _) (h.offsets.dataOffset + 16) 2) = _
    rw [slice_writeAll_of_disjoint (by omega) (Or.inr (by omega)),
      slice_writeAll_of_disjoint (by omega) (Or.inr (by omega)),
      slice_writeAll_of_disjoint (by omega) (Or.inl (by omega)),
      slice_writeAll_of_length (by omega) htwo]

/-- The first read caches the slab of the one tile. -/
theorem perform_read_byte {s : Session} {h : Hdu} {v : UInt8} (hdu : s.file.hdus[1]? = some h)
    (hv : HoldsByte s.file.bytes h.cards h.offsets.dataOffset v) (hcap : s.cache = .new 100) :
    (Call.read byteRequest).perform riceOfByte rawCells [byteColumn] 1 s =
      ⟨s.file, ⟨[((0, 0), [v])], 1, 100⟩⟩ := by
  unfold Call.perform readHdu
  dsimp only
  rw [hdu]
  dsimp only
  rw [readTable_byte _ hv, hcap]
  rfl

/-- A cached slab is served whatever the file holds. -/
theorem readResult_byte {s : Session} {h : Hdu} {v w : UInt8} (hdu : s.file.hdus[1]? = some h)
    (hv : HoldsByte s.file.bytes h.cards h.offsets.dataOffset v)
    (hcache : s.cache = ⟨[((0, 0), [w])], 1, 100⟩) :
    s.readResult riceOfByte rawCells [byteColumn] 1 byteRequest = .ok [((0, 0), [w])] := by
  unfold Session.readResult readHdu
  rw [hdu]
  dsimp only
  rw [readTable_byte _ hv, hcache]
  rfl

theorem readHdu_fresh_byte {s : Fits} {h : Hdu} {v : UInt8} (hdu : s.hdus[1]? = some h)
    (hv : HoldsByte s.bytes h.cards h.offsets.dataOffset v) :
    readHdu riceOfByte rawCells [byteColumn] 1 fresh s byteRequest = .ok [((0, 0), [v])] := by
  unfold readHdu
  rw [hdu]
  dsimp only
  rw [readTable_byte _ hv]
  rfl

/-- A write leaves the cache alone. -/
theorem perform_write_byte {s : Session} {h : Hdu} (ho : Opened s.file 1 h)
    (hroom : Room s.file 1 h h.dataEnd) (hbyte : ByteTable h)
    (hfit : ByteHeaderFits h) (v : UInt8) :
    (Call.mutate (.write [.fixed [.ok [v]]])).perform riceOfByte rawCells [byteColumn] 1 s =
      ⟨byteWritten s.file 1 h v, s.cache⟩ := by
  unfold Call.perform
  dsimp only
  rw [write_byte_eq ho hroom hbyte hfit v]
  rfl

theorem byteWritten_hdu {s : Fits} {idx : Nat} {h : Hdu} (hdu : s.hdus[idx]? = some h) (v : UInt8) :
    (byteWritten s idx h v).hdus[idx]? =
      some { h with cards := pcountCards h.cards 2 (some 0) } := by
  show (s.hdus.modify idx _)[idx]? = _
  rw [List.getElem?_modify_eq, hdu]
  rfl

theorem addressed_byte {cards : List Card} (hshape : shapeOf cards = ⟨1, 1, 1, 16⟩) :
    Addressed [byteColumn] cards byteRequest := by
  refine ⟨?_, by decide⟩
  rw [hshape]
  decide

/-- An open table of one byte. -/
def byteSession : Session := ⟨byteFile (str "   2") [5, 0] (List.replicate 2862 0), .new 100⟩

theorem theap_byte : natKeyword (byteHdu (str "   2")).cards (str "THEAP") = 0 := by decide +kernel

/-- Clearing the cache before the write: the read after it is fresh. -/
theorem session_reads_fresh_afterClear :
    ∃ read cleared written : Session,
      (Call.read byteRequest).perform riceOfByte rawCells [byteColumn] 1 byteSession = read ∧
      Call.clearTileCache.perform riceOfByte rawCells [byteColumn] 1 read = cleared ∧
      (Call.mutate (.write [.fixed [.ok [7]]])).perform riceOfByte rawCells [byteColumn] 1 cleared =
        written ∧
      written.readResult riceOfByte rawCells [byteColumn] 1 byteRequest =
        readHdu riceOfByte rawCells [byteColumn] 1 fresh written.file byteRequest := by
  obtain ⟨ho, hbyte⟩ := opened_byteFile_two
  have hread := perform_read_byte (s := byteSession) ho.hdu (holdsByte_byteFile 5 _) rfl
  have hwrite := perform_write_byte (s := ⟨byteSession.file, ⟨[], 0, 100⟩⟩) ho (Or.inr rfl) hbyte
    (byteHeaderFits _) 7
  refine ⟨_, ⟨byteSession.file, ⟨[], 0, 100⟩⟩, _, hread, rfl, hwrite, ?_⟩
  have hreached : Reached riceOfByte rawCells [byteColumn] 1 byteSession.file 100
      ⟨byteSession.file, ⟨[((0, 0), [5])], 1, 100⟩⟩ := by
    rw [← hread]
    refine .call .start fun h hdu => ?_
    rw [← Option.some.inj (ho.hdu.symm.trans hdu)]
    exact addressed_byte (shapeOf_byte hbyte)
  have hwritten : Reached riceOfByte rawCells [byteColumn] 1 byteSession.file 100
      ⟨byteWritten byteSession.file 1 (byteHdu (str "   2")) 7, ⟨[], 0, 100⟩⟩ := by
    have hcleared : Reached riceOfByte rawCells [byteColumn] 1 byteSession.file 100
        (Call.clearTileCache.perform riceOfByte rawCells [byteColumn] 1
          ⟨byteSession.file, ⟨[((0, 0), [5])], 1, 100⟩⟩) := .call hreached trivial
    rw [← hwrite]
    exact .call hcleared (Or.inl rfl)
  refine session_reads_fresh hwritten fun h hdu => ?_
  rw [← Option.some.inj ((byteWritten_hdu ho.hdu 7).symm.trans hdu)]
  exact addressed_byte (holdsByte_byteWritten ho hbyte (byteHeaderFits _) theap_byte 7).shape

/-- The read after a write returns what the read before it has cached. -/
theorem not_fresh_read_write_read :
    ∃ read written : Session,
      (Call.read byteRequest).perform riceOfByte rawCells [byteColumn] 1 byteSession = read ∧
      (Call.mutate (.write [.fixed [.ok [7]]])).perform riceOfByte rawCells [byteColumn] 1 read =
        written ∧
      written.readResult riceOfByte rawCells [byteColumn] 1 byteRequest = .ok [((0, 0), [5])] ∧
      readHdu riceOfByte rawCells [byteColumn] 1 fresh written.file byteRequest =
        .ok [((0, 0), [7])] := by
  obtain ⟨ho, hbyte⟩ := opened_byteFile_two
  have hholds := holdsByte_byteWritten ho hbyte (byteHeaderFits _) theap_byte 7
  refine ⟨_, _, perform_read_byte ho.hdu (holdsByte_byteFile 5 _) rfl,
    perform_write_byte ho (Or.inr rfl) hbyte (byteHeaderFits _) 7, ?_, ?_⟩
  · exact readResult_byte (byteWritten_hdu ho.hdu 7) hholds rfl
  · exact readHdu_fresh_byte (byteWritten_hdu ho.hdu 7) hholds

end RustFits.CompressedTable
