import RustFits.BinaryTable.Rebuild
import RustFits.CompressedTable.Read

/-!
# What a compressed table stores

The heap holds one blob for every column of every tile.  For a fixed column it is
the compressed slab.  For a variable-length column it is the compressed pair of
descriptor arrays: the original descriptors, and those of the compressed cells,
which are heap regions of their own.

* `Stored` is what can be reached from a descriptor, whatever its place in the heap.
* `BlobInRange` says that a descriptor, and the descriptors behind it, lie in the
  heap.
* A read depends on the stored data only (`readHdu_of_stored`).
-/

namespace RustFits.CompressedTable

open Ascii ByteFile Machine BigEndian

/-! ## The table -/

/-- A standard compressed table of these columns: a 16-byte descriptor for every
column and tiles that cover the rows. -/
structure CompTable (h : Hdu) (columns : List Column) : Prop where
  standard : StandardTable h.cards
  pcountCard : (cardIndex (str "PCOUNT") h.cards).isSome
  pcountFirst : PcountFirst h.cards
  fits : headerBlocks h.cards.length ≤ h.offsets.headerBlockCount
  width : natKeyword h.cards (str "NAXIS1") = columns.length * 16
  covered : natKeyword h.cards (str "ZNAXIS2") ≤
    natKeyword h.cards (str "NAXIS2") * natKeyword h.cards (str "ZTILELEN")
  needed : (natKeyword h.cards (str "NAXIS2") - 1) * natKeyword h.cards (str "ZTILELEN") ≤
    natKeyword h.cards (str "ZNAXIS2")

/-- The bytes of the descriptor table. -/
def descBytes (h : Hdu) : Nat :=
  natKeyword h.cards (str "NAXIS2") * natKeyword h.cards (str "NAXIS1")

def heapSize (h : Hdu) : Nat := natKeyword h.cards (str "PCOUNT")

/-- The descriptor table of the file. -/
def descTable (s : Fits) (h : Hdu) : Bytes := slice s.bytes h.offsets.dataOffset (descBytes h)

/-- The heap of the file. -/
def tableHeap (s : Fits) (h : Hdu) : Bytes :=
  slice s.bytes (h.offsets.dataOffset + descBytes h) (heapSize h)

/-- The place of a descriptor in the table. -/
def slotAt (rowWidth : Nat) (cell : Nat × Nat) : Nat := cell.1 * rowWidth + cell.2 * 16

/-- The descriptor of a column of a tile. -/
def slotDesc (table : Bytes) (rowWidth : Nat) (cell : Nat × Nat) : Int × Int :=
  readDescriptor .q (slice table (slotAt rowWidth cell) 16)

/-! ## The stored data -/

/-- What is stored for a column of a tile: the blob of a fixed column; for every row
of a variable-length one, the original descriptor and the compressed cell. -/
inductive Stored where
  | slab (blob : Bytes)
  | cells (rows : List (Bytes × Bytes))
  deriving DecidableEq, Repr

/-- The descriptor of a compressed cell. -/
def cellDesc (kind : VarKind) (n : Nat) (blob : Bytes) (r : Nat) : Int × Int :=
  readDescriptor .q (slice blob (n * kind.width + r * 16) 16)

/-- One row of the descriptor arrays. -/
def storedCell (heap : Bytes) (kind : VarKind) (n : Nat) (blob : Bytes) (r : Nat) : Bytes × Bytes :=
  (slice blob (r * kind.width) kind.width,
    slice heap (cellDesc kind n blob r).2.toNat (cellDesc kind n blob r).1.toNat)

/-- The stored data behind a descriptor, for a tile of `n` rows. -/
def storedBlob (codec : Codec) (heap : Bytes) (n : Nat) (desc : Int × Int) (column : Column) :
    Except PyErr Stored :=
  match column.varKind with
  | none => .ok (.slab (slice heap desc.2.toNat desc.1.toNat))
  | some kind =>
    if desc.1 ≤ 0 then .ok (.cells [])
    else do
      let blob ← codec.gzipDecompressBytes (slice heap desc.2.toNat desc.1.toNat)
        (n * kind.width + n * 16)
      return .cells ((List.range n).map (storedCell heap kind n blob))

/-- A heap region. -/
def DescInRange (heapLen : Nat) (desc : Int × Int) : Prop :=
  0 ≤ desc.1 ∧ 0 ≤ desc.2 ∧ (desc.1 ≠ 0 → desc.2.toNat + desc.1.toNat ≤ heapLen)

/-- The descriptor and the descriptors behind it lie in the heap. -/
structure BlobInRange (codec : Codec) (heap : Bytes) (n : Nat) (desc : Int × Int)
    (column : Column) :
    Prop where
  region : DescInRange heap.length desc
  cells : desc.1 ≠ 0 → ∀ kind, column.varKind = some kind →
    ∃ blob, codec.gzipDecompressBytes (slice heap desc.2.toNat desc.1.toNat)
        (n * kind.width + n * 16) = .ok blob ∧
      ∀ r < n, DescInRange heap.length (cellDesc kind n blob r)

/-- The decompressor of descriptor arrays checks the length of its result. -/
def Sized (codec : Codec) : Prop :=
  ∀ z n b, codec.gzipDecompressBytes z n = .ok b → b.length = n

/-- The columns of the table, each with its index, at a tile. -/
def TableInRange (codec : Codec) (columns : List Column) (s : Fits) (h : Hdu) : Prop :=
  ∀ tile < natKeyword h.cards (str "NAXIS2"), ∀ col column, columns[col]? = some column →
    BlobInRange codec (tableHeap s h) ((shapeOf h.cards).rowsInTile tile)
      (slotDesc (descTable s h) (natKeyword h.cards (str "NAXIS1")) (tile, col)) column

/-- The stored data of a column of a tile. -/
def storedTile (codec : Codec) (s : Fits) (h : Hdu) (tile col : Nat) (column : Column) :
    Except PyErr Stored :=
  storedBlob codec (tableHeap s h) ((shapeOf h.cards).rowsInTile tile)
    (slotDesc (descTable s h) (natKeyword h.cards (str "NAXIS1")) (tile, col)) column

/-- The heap bytes that a column of a tile holds: its blob, and the compressed cells
behind it. -/
def liveBlob (codec : Codec) (heap : Bytes) (n : Nat) (desc : Int × Int) (column : Column) : Nat :=
  match storedBlob codec heap n desc column with
  | .ok (.cells rows) => desc.1.toNat + (rows.map fun row => row.2.length).sum
  | _ => desc.1.toNat

/-- The heap bytes that the descriptors of `cells` reach. -/
def liveCells (codec : Codec) (columns : List Column) (heap table : Bytes) (rowWidth : Nat)
    (rowsIn : Nat → Nat) (cells : List (Nat × Nat)) : Nat :=
  (cells.map fun cell => (columns[cell.2]?).elim 0
    (liveBlob codec heap (rowsIn cell.1) (slotDesc table rowWidth cell))).sum

/-- The heap bytes that can be reached. -/
def liveBytes (codec : Codec) (columns : List Column) (s : Fits) (h : Hdu) : Nat :=
  liveCells codec columns (tableHeap s h) (descTable s h) (natKeyword h.cards (str "NAXIS1"))
    (shapeOf h.cards).rowsInTile (tableCells (natKeyword h.cards (str "NAXIS2")) columns.length)

/-! ## Reads -/

/-- The heap lies in the file. -/
structure HeapAt (file : Bytes) (heapStart : Nat) (heap : Bytes) : Prop where
  bytes : slice file heapStart heap.length = heap
  inside : heapStart + heap.length ≤ file.length

section

variable {codec : Codec} {columns : List Column} {file file' heap heap' : Bytes}
  {heapStart heapStart' : Nat} {Value : Type} {render : Render Value}

theorem readBytes_heap (hh : HeapAt file heapStart heap) {desc : Int × Int}
    (hd : DescInRange heap.length desc) (context : Str) :
    readBytes file context (heapStart + desc.2.toNat) desc.1.toNat =
      .ok (slice heap desc.2.toNat desc.1.toNat) := by
  obtain ⟨hn, hoff, hin⟩ := hd
  by_cases hzero : desc.1 = 0
  · rw [hzero]
    simp [readBytes, readExact]
  · have hle := hin hzero
    have hinside := hh.inside
    unfold readBytes
    rw [readExact_eq_some (by omega)]
    simp only
    rw [← slice_slice hle, hh.bytes]

theorem slice_length_of_inRange {desc : Int × Int} (hd : DescInRange heap.length desc) :
    (slice heap desc.2.toNat desc.1.toNat).length = desc.1.toNat := by
  obtain ⟨hn, hoff, hin⟩ := hd
  rw [slice_length]
  by_cases hzero : desc.1 = 0
  · rw [hzero]
    simp
  · have := hin hzero
    omega

/-- A cell of a variable-length column is read from its stored row. -/
theorem readVlaCell_congr {kind : VarKind} {n : Nat} {blob blob' : Bytes} {request : Nat × Nat}
    (hh : HeapAt file heapStart heap) (hh' : HeapAt file' heapStart' heap')
    (hlen : blob.length = n * kind.width + n * 16) (hlen' : blob'.length = n * kind.width + n * 16)
    (hr : request.1 < n) (hd : DescInRange heap.length (cellDesc kind n blob request.1))
    (hd' : DescInRange heap'.length (cellDesc kind n blob' request.1))
    (hstored : storedCell heap' kind n blob' request.1 = storedCell heap kind n blob request.1)
    (tile col elemSize : Nat) (column : Column) :
    readVlaCell codec render file' tile col n heapStart' elemSize kind column blob' request =
      readVlaCell codec render file tile col n heapStart elemSize kind column blob request := by
  obtain ⟨horig, hbytes⟩ := Prod.mk.inj hstored
  have hcells := congrArg List.length hbytes
  rw [slice_length_of_inRange hd, slice_length_of_inRange hd'] at hcells
  have hroom : (request.1 + 1) * kind.width ≤ n * kind.width := Nat.mul_le_mul_right _ hr
  rw [Nat.succ_mul] at hroom
  -- the places of both descriptors lie in the arrays
  have hslice : ∀ b : Bytes, b.length = n * kind.width + n * 16 →
      sliceOf b (request.1 * kind.width) kind.width =
          .ok (slice b (request.1 * kind.width) kind.width) ∧
        sliceOf b (n * kind.width + request.1 * 16) 16 =
          .ok (slice b (n * kind.width + request.1 * 16) 16) := by
    intro b hb
    exact ⟨by rw [sliceOf, if_pos (by omega)], by rw [sliceOf, if_pos (by omega)]⟩
  have hread := fun context => readBytes_heap hh hd context
  have hread' := fun context => readBytes_heap hh' hd' context
  have hnonneg : ¬ ((cellDesc kind n blob request.1).1 < 0 ∨
      (cellDesc kind n blob request.1).2 < 0) := by
    have := hd.1
    have := hd.2.1
    omega
  have hnonneg' : ¬ ((cellDesc kind n blob' request.1).1 < 0 ∨
      (cellDesc kind n blob' request.1).2 < 0) := by
    have := hd'.1
    have := hd'.2.1
    omega
  unfold cellDesc at *
  unfold readVlaCell vlaCellBytes
  rw [(hslice blob hlen).1, (hslice blob hlen).2, (hslice blob' hlen').1, (hslice blob' hlen').2,
    horig]
  simp only [bind, Except.bind]
  rw [if_neg hnonneg, if_neg hnonneg', hread, hread', hbytes, hcells]

/-- The slab of a fixed column, or the descriptor arrays. -/
theorem decodeSlab_eq (hh : HeapAt file heapStart heap) {desc : Int × Int}
    (hd : DescInRange heap.length desc) (tile col n : Nat) (column : Column) :
    decodeSlab codec file tile col n heapStart desc column =
      match column.varKind with
      | some kind =>
        if desc.1 ≤ 0 then .ok []
        else codec.gzipDecompressBytes (slice heap desc.2.toNat desc.1.toNat)
          (n * kind.width + n * 16)
      | none => codec.decompressColumnSlab col n (slice heap desc.2.toNat desc.1.toNat) := by
  unfold decodeSlab
  cases hkind : column.varKind with
  | none =>
    simp only
    rw [readBytes_heap hh hd]
    rfl
  | some kind =>
    simp only
    rw [readBytes_heap hh hd]
    simp only [bind, Except.bind]
    split_ifs <;> first | rfl | omega

/-- A loop over the requests depends on what each of them gives. -/
theorem mapM_congr_mem {m : Type → Type} [Monad m] [LawfulMonad m] {α β : Type} {f g : α → m β}
    {l : List α} (h : ∀ a ∈ l, f a = g a) : l.mapM f = l.mapM g := by
  induction l with
  | nil => rw [List.mapM_nil, List.mapM_nil]
  | cons a l ih =>
    rw [List.mapM_cons, List.mapM_cons, h a List.mem_cons_self,
      ih fun b hb => h b (List.mem_cons_of_mem _ hb)]

/-- The descriptor arrays of a tile.  Those of a tile without a blob have no rows. -/
theorem descriptorArrays_ok (hsized : Sized codec) {n : Nat} {desc : Int × Int} {column : Column}
    {kind : VarKind} (hkind : column.varKind = some kind)
    (hb : BlobInRange codec heap n desc column) :
    ∃ blob rows, (if desc.1 ≤ 0 then .ok []
        else codec.gzipDecompressBytes (slice heap desc.2.toNat desc.1.toNat)
          (n * kind.width + n * 16)) = Except.ok blob ∧
      storedBlob codec heap n desc column = .ok (.cells rows) ∧
      (desc.1 = 0 ∧ blob = [] ∧ rows = [] ∨
        blob.length = n * kind.width + n * 16 ∧
          (∀ r < n, DescInRange heap.length (cellDesc kind n blob r)) ∧
          rows = (List.range n).map (storedCell heap kind n blob)) := by
  have hnonneg := hb.region.1
  unfold storedBlob
  rw [hkind]
  by_cases hzero : desc.1 = 0
  · simp only [if_pos (show desc.1 ≤ 0 by omega)]
    exact ⟨[], [], rfl, rfl, Or.inl ⟨hzero, rfl, rfl⟩⟩
  · obtain ⟨blob, hblob, hcells⟩ := hb.cells hzero kind hkind
    simp only [if_neg (show ¬ desc.1 ≤ 0 by omega), hblob, bind, Except.bind]
    exact ⟨blob, _, rfl, rfl, Or.inr ⟨hsized _ _ _ hblob, hcells, rfl⟩⟩

/-- A row of a tile without a blob cannot be read. -/
theorem readVlaCell_nil (tile col n elemSize : Nat) (kind : VarKind) (column : Column)
    (request : Nat × Nat) :
    readVlaCell codec render file tile col n heapStart elemSize kind column [] request =
      .error (.panic (str "slice")) := by
  unfold readVlaCell
  rw [sliceOf, if_neg]
  · rfl
  · cases kind <;> simp [VarKind.width]

/-- A column of a tile is read from its stored data. -/
theorem readColumnTile_congr (hsized : Sized codec) (hh : HeapAt file heapStart heap)
    (hh' : HeapAt file' heapStart' heap') {n tile : Nat} {descRow descRow' : Bytes}
    {requests : List (Nat × Nat)} {selected : (Column × Nat) × Nat}
    (hreq : ∀ request ∈ requests, request.1 < n)
    (hb : BlobInRange codec heap n (readDescriptor .q (slice descRow (selected.1.2 * 16) 16))
      selected.1.1)
    (hb' : BlobInRange codec heap' n (readDescriptor .q (slice descRow' (selected.1.2 * 16) 16))
      selected.1.1)
    (hstored : storedBlob codec heap' n (readDescriptor .q (slice descRow' (selected.1.2 * 16) 16))
        selected.1.1 =
      storedBlob codec heap n (readDescriptor .q (slice descRow (selected.1.2 * 16) 16))
        selected.1.1) :
    readColumnTile codec fresh render file' tile n heapStart' descRow' requests selected =
      readColumnTile codec fresh render file tile n heapStart descRow requests selected := by
  have hneg : ¬ ((readDescriptor .q (slice descRow (selected.1.2 * 16) 16)).1 < 0 ∨
      (readDescriptor .q (slice descRow (selected.1.2 * 16) 16)).2 < 0) := by
    have := hb.region.1
    have := hb.region.2.1
    omega
  have hneg' : ¬ ((readDescriptor .q (slice descRow' (selected.1.2 * 16) 16)).1 < 0 ∨
      (readDescriptor .q (slice descRow' (selected.1.2 * 16) 16)).2 < 0) := by
    have := hb'.region.1
    have := hb'.region.2.1
    omega
  unfold readColumnTile
  simp only [if_neg hneg, if_neg hneg', decodeSlab_eq hh hb.region, decodeSlab_eq hh' hb'.region,
    fresh]
  generalize readDescriptor .q (slice descRow (selected.1.2 * 16) 16) = desc at *
  generalize readDescriptor .q (slice descRow' (selected.1.2 * 16) 16) = desc' at *
  cases hkind : selected.1.1.varKind with
  | none =>
    simp only [storedBlob, hkind] at hstored
    have hblob : slice heap' desc'.2.toNat desc'.1.toNat = slice heap desc.2.toNat desc.1.toNat :=
      Stored.slab.inj (Except.ok.inj hstored)
    simp only
    rw [hblob]
  | some kind =>
    obtain ⟨blob, rows, hdecode, hrows, hcase⟩ := descriptorArrays_ok hsized hkind hb
    obtain ⟨blob', rows', hdecode', hrows', hcase'⟩ := descriptorArrays_ok hsized hkind hb'
    have hsame : rows' = rows := by
      rw [hrows, hrows'] at hstored
      exact Stored.cells.inj (Except.ok.inj hstored)
    simp only
    rw [hdecode, hdecode']
    refine congrArg _ (funext fun _ => congrArg _ (funext fun elemSize => ?_))
    refine mapM_congr_mem fun request hrequest => ?_
    have hlt := hreq request hrequest
    -- a tile of some rows has both blobs or none
    rcases hcase with ⟨-, hnil, hrows₀⟩ | ⟨hlen, hcells, hmap⟩
    · rcases hcase' with ⟨-, hnil', -⟩ | ⟨-, -, hmap'⟩
      · rw [hnil, hnil', readVlaCell_nil, readVlaCell_nil]
      · have hcount := congrArg List.length (hmap'.symm.trans (hsame.trans hrows₀))
        simp at hcount
        omega
    · rcases hcase' with ⟨-, -, hrows₀'⟩ | ⟨hlen', hcells', hmap'⟩
      · have hcount := congrArg List.length (hmap.symm.trans (hsame.symm.trans hrows₀'))
        simp at hcount
        omega
      · have hrow := congrArg (fun l : List (Bytes × Bytes) => l[request.1]?)
          (hmap'.symm.trans (hsame.trans hmap))
        simp only [List.getElem?_map, List.getElem?_range hlt, Option.map_some,
          Option.some.injEq] at hrow
        rw [readVlaCell_congr hh hh' hlen hlen' hlt (hcells _ hlt) (hcells' _ hlt) hrow]

/-! ### A whole read -/

/-- A request of rows and columns of the table. -/
structure Asks (columns : List Column) (cards : List Card) (request : ReadRequest) : Prop where
  rows : ∀ rows, request.rows = some rows → ∀ row ∈ rows, row < natKeyword cards (str "ZNAXIS2")
  selected : ∀ p ∈ request.selected, columns[p.2]? = some p.1

theorem natKeyword_le (cards : List Card) (key : Str) :
    natKeyword cards key ≤ 9223372036854775807 := by
  have : InI64 ((parseKeyword cards key).getD 0) := inI64_getD (by unfold InI64; omega)
  unfold InI64 at this
  unfold natKeyword
  omega

variable {s s' : Fits} {h h' : Hdu} {idx : Nat}

theorem CompTable.heapTable (ht : CompTable h columns) : BinaryTable.HeapTable h (descBytes h) :=
  ⟨ht.standard, ht.pcountCard, ht.fits, Nat.mul_comm _ _⟩

/-- The descriptors and the heap lie in the file. -/
theorem CompTable.inside (ht : CompTable h columns) (ho : Opened s idx h) :
    h.offsets.dataOffset + descBytes h + heapSize h ≤ s.bytes.length := by
  have hend := ho.dataEnd_le
  have hround := le_roundUpToBlock (descBytes h + natKeyword h.cards (str "PCOUNT"))
  rw [ht.heapTable.dataEnd] at hend
  unfold heapSize
  omega

theorem CompTable.heapAt (ht : CompTable h columns) (ho : Opened s idx h) :
    HeapAt s.bytes (h.offsets.dataOffset + descBytes h) (tableHeap s h) := by
  have hin := ht.inside ho
  have hlen : (tableHeap s h).length = heapSize h := by
    rw [tableHeap, slice_length]
    omega
  exact ⟨by rw [hlen]; rfl, by rw [hlen]; exact hin⟩

/-- The rows of a tile, without wrap-around. -/
theorem CompTable.rowsInTile (ht : CompTable h columns) {tile : Nat} :
    (shapeOf h.cards).rowsInTile tile =
      if tile + 1 = natKeyword h.cards (str "NAXIS2") then
        natKeyword h.cards (str "ZNAXIS2") - tile * natKeyword h.cards (str "ZTILELEN")
      else natKeyword h.cards (str "ZTILELEN") := by
  have hneeded := ht.needed
  have hlt := natKeyword_le h.cards (str "ZNAXIS2")
  unfold Shape.rowsInTile
  show (if tile + 1 = natKeyword h.cards (str "NAXIS2") then
    wrappingSub (natKeyword h.cards (str "ZNAXIS2")) (tile * natKeyword h.cards (str "ZTILELEN"))
      else natKeyword h.cards (str "ZTILELEN")) = _
  split_ifs with hlast
  · rw [← hlast, Nat.add_sub_cancel] at hneeded
    exact wrappingSub_of_le hneeded (by unfold u64Size; omega)
  · rfl

/-- The tiles of a request, and the rows in each of them, are those of the table. -/
theorem CompTable.requested (ht : CompTable h columns) {request : ReadRequest}
    (hasks : Asks columns h.cards request) {tile : Nat × List (Nat × Nat)}
    (hmem : tile ∈ tilesWithRequests (shapeOf h.cards) request.rows) :
    tile.1 < natKeyword h.cards (str "NAXIS2") ∧
      ∀ q ∈ tile.2, q.1 < (shapeOf h.cards).rowsInTile tile.1 := by
  cases hrows : request.rows with
  | none =>
    rw [hrows] at hmem
    obtain ⟨t, ht, rfl⟩ := List.mem_map.1 hmem
    refine ⟨List.mem_range.1 ht, fun q hq => ?_⟩
    obtain ⟨r, hr, rfl⟩ := List.mem_map.1 hq
    exact List.mem_range.1 hr
  | some rows =>
    rw [hrows] at hmem
    have hrow := hasks.rows rows hrows
    have hcovered := ht.covered
    change tile ∈ requestsByTile (natKeyword h.cards (str "ZTILELEN")) rows at hmem
    have hsplit := fun t => @CompTable.rowsInTile _ _ ht t
    generalize natKeyword h.cards (str "ZTILELEN") = ztilelen at *
    unfold requestsByTile at hmem
    simp only [List.mem_filterMap] at hmem
    obtain ⟨t, -, hsome⟩ := hmem
    -- every request of the tile is a row of the table
    have hreq : ∀ q ∈ (rows.zipIdx.filter fun request =>
        (if ztilelen = 0 then 0 else request.1 / ztilelen) = t).map
          (fun request => (if ztilelen = 0 then 0 else request.1 % ztilelen, request.2)),
        0 < ztilelen ∧ ∃ row ∈ rows, row / ztilelen = t ∧ row % ztilelen = q.1 := by
      intro q hq
      obtain ⟨p, hp, rfl⟩ := List.mem_map.1 hq
      obtain ⟨hp, htile⟩ := List.mem_filter.1 hp
      have hp₁ := List.fst_mem_of_mem_zipIdx hp
      have hlt := hrow _ hp₁
      have hpos : 0 < ztilelen := by
        rcases Nat.eq_zero_or_pos ztilelen with hz | hpos
        · rw [hz, Nat.mul_zero] at hcovered
          omega
        · exact hpos
      rw [decide_eq_true_eq, if_neg (by omega)] at htile
      exact ⟨hpos, p.1, hp₁, htile, by simp only; rw [if_neg (by omega)]⟩
    generalize (rows.zipIdx.filter fun request =>
        (if ztilelen = 0 then 0 else request.1 / ztilelen) = t).map
          (fun request => (if ztilelen = 0 then 0 else request.1 % ztilelen, request.2)) =
      requests at hsome hreq
    cases requests with
    | nil => cases hsome
    | cons first requests =>
      cases hsome
      have htile : t < natKeyword h.cards (str "NAXIS2") := by
        obtain ⟨hpos, row, hmem, hdiv, -⟩ := hreq first List.mem_cons_self
        have hlt := hrow row hmem
        rw [← hdiv, Nat.div_lt_iff_lt_mul hpos]
        omega
      refine ⟨htile, fun q hq => ?_⟩
      obtain ⟨hpos, row, hmem, hdiv, hmod⟩ := hreq q hq
      have hlt := hrow row hmem
      have hrest := Nat.mod_lt row hpos
      have hrow := Nat.div_add_mod row ztilelen
      rw [hdiv, Nat.mul_comm] at hrow
      rw [hsplit t]
      split_ifs <;> omega

/-- The descriptors of a tile, from its row or from the table. -/
theorem CompTable.descRow (ht : CompTable h columns) (ho : Opened s idx h) {tile : Nat}
    (htile : tile < natKeyword h.cards (str "NAXIS2")) :
    ∃ descRow, readDescriptorRow s.bytes (shapeOf h.cards) h.offsets.dataOffset tile = .ok descRow ∧
      ∀ col < columns.length, readDescriptor .q (slice descRow (col * 16) 16) =
        slotDesc (descTable s h) (natKeyword h.cards (str "NAXIS1")) (tile, col) := by
  have hin := ht.inside ho
  have hwidth := ht.width
  have hrow : (tile + 1) * natKeyword h.cards (str "NAXIS1") ≤ descBytes h :=
    Nat.mul_le_mul_right _ htile
  rw [Nat.succ_mul] at hrow
  refine ⟨slice s.bytes (h.offsets.dataOffset + tile * natKeyword h.cards (str "NAXIS1"))
    (natKeyword h.cards (str "NAXIS1")), ?_, fun col hcol => ?_⟩
  · show readBytes s.bytes _ (h.offsets.dataOffset + tile * natKeyword h.cards (str "NAXIS1"))
      (natKeyword h.cards (str "NAXIS1")) = _
    unfold readBytes
    rw [readExact_eq_some (by omega)]
  · simp only [slotDesc, descTable, slotAt]
    rw [slice_slice (by omega), slice_slice (by omega), Nat.add_assoc]

/-- A read depends on the stored data only, when the heap is right behind the descriptors. -/
theorem readHdu_of_stored (hsized : Sized codec) (ho : Opened s idx h) (ho' : Opened s' idx h')
    (ht : CompTable h columns) (ht' : CompTable h' columns)
    (hbase : heapBase h.cards = descBytes h) (hbase' : heapBase h'.cards = descBytes h')
    (hshape : shapeOf h'.cards = shapeOf h.cards) (hin : TableInRange codec columns s h)
    (hin' : TableInRange codec columns s' h')
    (hstored : ∀ tile < natKeyword h.cards (str "NAXIS2"), ∀ col column,
      columns[col]? = some column →
        storedTile codec s' h' tile col column = storedTile codec s h tile col column)
    (render : Render Value) {request : ReadRequest} (hasks : Asks columns h.cards request) :
    readHdu codec render columns idx fresh s' request =
      readHdu codec render columns idx fresh s request := by
  have htiles : natKeyword h'.cards (str "NAXIS2") = natKeyword h.cards (str "NAXIS2") :=
    congrArg Shape.nTiles hshape
  have hheap := ht.heapAt ho
  have hheap' := ht'.heapAt ho'
  unfold readHdu
  rw [ho.hdu, ho'.hdu]
  unfold readTable
  simp only [hshape]
  by_cases hempty : outputRows (shapeOf h.cards) request.rows = 0 ∨ request.selected = []
  · rw [if_pos hempty, if_pos hempty]
  · rw [if_neg hempty, if_neg hempty]
    refine congrArg _ (funext fun _ => ?_)
    refine congrArg (fun x : Except PyErr _ => x >>= _) (mapM_congr_mem fun tile hmem => ?_)
    obtain ⟨htile, hreq⟩ := ht.requested hasks hmem
    obtain ⟨descRow, hread, hdesc⟩ := ht.descRow ho htile
    obtain ⟨descRow', hread', hdesc'⟩ := ht'.descRow ho' (by rw [htiles]; exact htile)
    rw [hshape] at hread'
    unfold readTile
    rw [hread, hread', hbase, hbase']
    simp only [raise, pure_bind]
    refine congrArg (fun x : Except PyErr _ => x >>= _) (mapM_congr_mem fun selected hsel => ?_)
    have hcolumn := hasks.selected _ (List.fst_mem_of_mem_zipIdx hsel)
    have hcol : selected.1.2 < columns.length := (List.getElem?_eq_some_iff.1 hcolumn).1
    have hb := hin tile.1 htile _ _ hcolumn
    have hb' := hin' tile.1 (by rw [htiles]; exact htile) _ _ hcolumn
    have hsame := hstored tile.1 htile _ _ hcolumn
    unfold storedTile at hsame
    rw [hshape] at hb' hsame
    rw [← hdesc _ hcol] at hb hsame
    rw [← hdesc' _ hcol] at hb' hsame
    exact readColumnTile_congr hsized hheap hheap' hreq hb hb' hsame

end

end RustFits.CompressedTable
