import RustFits.CompressedImage.Scan

/-!
# A repack of a compressed image keeps every tile

After a repack every descriptor resolves to the bytes it did, PCOUNT is the sum of
the live blobs and a second repack changes nothing, exactly under the condition
`RepackSafe` on the image before it.

* `TileTable` is the image at hand: a standard binary table whose descriptor columns
  the parser finds.
* `RepackKeeps` is the property of the state that a repack leaves.
* `repack_keeps_tiles` is the result, and `not_repackKeeps_longBlob` an image on which
  it fails: a blob of 2 MiB that moves up by one byte.
-/

namespace RustFits.CompressedImage

open Ascii ByteFile Machine BigEndian BinaryTable

/-! ## The image -/

/-- The layout part of `CompressedImageMeta`. -/
structure TileMeta where
  nrows : Nat
  rowWidth : Nat
  theap : Nat
  cols : ZimageDataColumns
  deriving DecidableEq, Repr

/-- The layout part of `parse_compressed_image_meta`. -/
def parseTileMeta (cards : List Card) : Except PyErr TileMeta := do
  let rowWidth := natKeyword cards (str "NAXIS1")
  let nrows := natKeyword cards (str "NAXIS2")
  let theap := ((parseKeyword cards (str "THEAP")).map Int.toNat).getD (rowWidth * nrows % u64Size)
  let cols ← findDataColumns cards
  return ⟨nrows, rowWidth, theap, cols⟩

/-- The bytes of the rows. -/
def TileMeta.mainBytes (table : TileMeta) : Nat := table.rowWidth * table.nrows

/-- A standard binary table with the descriptor columns of `table`.  The descriptors
lie in the row and do not overlap. -/
structure TileTable (h : Hdu) (table : TileMeta) : Prop where
  standard : StandardTable h.cards
  pcountCard : (cardIndex (str "PCOUNT") h.cards).isSome
  pcountFirst : PcountFirst h.cards
  fits : headerBlocks h.cards.length ≤ h.offsets.headerBlockCount
  parsed : parseTileMeta h.cards = .ok table
  inside : ∀ col ∈ table.cols.slots, col.byteOffsetInRow + col.kind.width ≤ table.rowWidth
  apart : table.cols.slots.Pairwise fun a b =>
    a.byteOffsetInRow + a.kind.width ≤ b.byteOffsetInRow ∨
      b.byteOffsetInRow + b.kind.width ≤ a.byteOffsetInRow

/-- The rows of the image. -/
def tileRows (s : Fits) (h : Hdu) (table : TileMeta) : Bytes :=
  slice s.bytes h.offsets.dataOffset table.mainBytes

/-- The blobs of the image, with their places in the compact heap. -/
def imageBlobs (s : Fits) (h : Hdu) (table : TileMeta) : List TileBlob :=
  tileBlobs (tileRows s h table) table.rowWidth (tileSlots table.nrows table.cols) 0

/-- Every descriptor of the image lies in its heap. -/
def DescriptorsInRange (s : Fits) (h : Hdu) (table : TileMeta) : Prop :=
  ∀ b ∈ imageBlobs s h table, b.InRange (natKeyword h.cards (str "PCOUNT"))

/-- What a repack should leave of the image `idx`: every descriptor resolves to the
bytes it did, the heap is as long as the live blobs, the other HDUs are as they were,
and a second repack changes nothing.  A new header is on disk. -/
structure RepackKeeps (s : Fits) (idx : Nat) (h : Hdu) (table : TileMeta) (s' : Fits) : Prop where
  header : ∃ cards, s'.hdus[idx]? = some { h with cards := cards } ∧
    parseTileMeta cards = .ok table ∧
    natKeyword cards (str "PCOUNT") = liveBytes (imageBlobs s h table) ∧
    (cards = h.cards ∨
      slice s'.bytes h.offsets.headerOffset (h.offsets.headerBlockCount * blockSize) =
        serializeHeaderToDiskBytes cards)
  tiles : ∀ row < table.nrows, ∀ col ∈ table.cols.slots,
    resolve s'.bytes h.offsets.dataOffset table.theap table.rowWidth row col =
      resolve s.bytes h.offsets.dataOffset table.theap table.rowWidth row col
  contiguous : Contiguous s'
  others : OthersKept idx s s'
  again : repackCompressedHeap idx s' = .ok () s'

/-- When a repack keeps every tile.  The heap of an image without rows is not emptied.
The new header is written right in front of the data, so the header must have no
block to spare.  The reader must find the heap right behind the rows, where the repack
puts it: it does not when a THEAP card has a value that is not positive.  The moves must
not overwrite what they still read. -/
structure RepackSafe (s : Fits) (h : Hdu) (table : TileMeta) : Prop where
  rows : table.nrows = 0 → natKeyword h.cards (str "PCOUNT") = 0
  blocks : liveBytes (imageBlobs s h table) ≠ natKeyword h.cards (str "PCOUNT") →
    h.offsets.headerBlockCount = headerBlocks h.cards.length
  heap : liveBytes (imageBlobs s h table) ≠ natKeyword h.cards (str "PCOUNT") →
    table.theap = table.mainBytes
  moves : liveBytes (imageBlobs s h table) ≠ natKeyword h.cards (str "PCOUNT") →
    let plans := sortPlans (livePlans (imageBlobs s h table))
    let heapStart := h.offsets.dataOffset + table.mainBytes
    if fastPathSafe (natKeyword h.cards (str "PCOUNT")) plans then
      ForwardSafe heapStart plans s.bytes
    else StagingSafe heapStart (natKeyword h.cards (str "PCOUNT")) plans s.bytes

/-- A tile is decoded from the same bytes when its descriptors resolve alike. -/
theorem RepackKeeps.payload {s s' : Fits} {idx : Nat} {h : Hdu} {table : TileMeta}
    (hkeeps : RepackKeeps s idx h table s') {tile : Nat} (htile : tile < table.nrows) :
    fetchTilePayload s'.bytes h.offsets.dataOffset table.theap table.rowWidth table.cols tile =
      fetchTilePayload s.bytes h.offsets.dataOffset table.theap table.rowWidth table.cols tile := by
  have htiles := hkeeps.tiles tile htile
  have hgzip : ∀ col, table.cols.gzipFallback = some col → col ∈ table.cols.slots :=
    fun col hcol => by
    simp [ZimageDataColumns.slots, hcol]
  have hplain : ∀ col, table.cols.uncompressedFallback = some col → col ∈ table.cols.slots :=
    fun col hcol => by simp [ZimageDataColumns.slots, hcol]
  unfold fetchTilePayload
  rw [htiles _ List.mem_cons_self]
  cases hg : table.cols.gzipFallback with
  | none =>
    cases hu : table.cols.uncompressedFallback with
    | none => rfl
    | some ucol =>
      simp only
      rw [htiles ucol (hplain ucol hu)]
  | some gcol =>
    simp only
    rw [htiles gcol (hgzip gcol hg)]
    cases hu : table.cols.uncompressedFallback with
    | none => rfl
    | some ucol =>
      simp only
      rw [htiles ucol (hplain ucol hu)]

/-! ## The columns -/

section

variable {cards cards' : List Card}

theorem findDataColumns_congr (h : SameColumns cards cards') :
    findDataColumns cards' = findDataColumns cards := by
  have hwalk : walkColumn cards' = walkColumn cards := by
    funext walk i
    unfold walkColumn
    simp only [h.ttype, h.tform]
  unfold findDataColumns natKeyword
  rw [h.tfields, hwalk]

/-- The elements of the columns found so far have bytes. -/
def ColumnWalk.Inner (walk : ColumnWalk) : Prop :=
  ∀ col, walk.primary = some col ∨ walk.gzipFallback = some col ∨
    walk.uncompressedFallback = some col → 0 < col.innerByteWidth

theorem bytesPerElement_pos {letter : UInt8} {n : Nat} (h : bytesPerElement letter = some n) :
    0 < n := by
  unfold bytesPerElement at h
  split_ifs at h <;> cases h <;> decide

theorem tformVlaInnerByteWidth_pos (tform : Str) :
    0 < (tformVlaInnerByteWidth tform).getD 1 := by
  cases hw : tformVlaInnerByteWidth tform with
  | none => exact Nat.one_pos
  | some n =>
    unfold tformVlaInnerByteWidth at hw
    split at hw
    · split_ifs at hw
      exact bytesPerElement_pos hw
    · cases hw

theorem walkColumn_inner {walk walk' : ColumnWalk} {i : Nat} (hwalk : walk.Inner)
    (h : walkColumn cards walk i = .ok walk') : walk'.Inner := by
  unfold walkColumn at h
  split at h
  · cases h
  · rename_i tform _
    have hpos := tformVlaInnerByteWidth_pos tform
    cases hwidth : tformByteWidth tform with
    | error e => simp [hwidth, Bind.bind, Except.bind] at h
    | ok width =>
      simp only [hwidth, Bind.bind, Except.bind] at h
      split_ifs at h <;> cases h <;> intro col hcol <;> simp only [Option.some.injEq] at hcol
      · rcases hcol with rfl | hcol | hcol
        · exact hpos
        · exact hwalk col (Or.inr (Or.inl hcol))
        · exact hwalk col (Or.inr (Or.inr hcol))
      · rcases hcol with hcol | rfl | hcol
        · exact hwalk col (Or.inl hcol)
        · exact hpos
        · exact hwalk col (Or.inr (Or.inr hcol))
      · rcases hcol with hcol | hcol | rfl
        · exact hwalk col (Or.inl hcol)
        · exact hwalk col (Or.inr (Or.inl hcol))
        · exact hpos
      · exact hwalk col hcol

theorem walkColumns_inner : ∀ {l : List Nat} {walk walk' : ColumnWalk}, walk.Inner →
    l.foldlM (walkColumn cards) walk = .ok walk' → walk'.Inner := by
  intro l
  induction l with
  | nil =>
    intro walk walk' hwalk h
    cases h
    exact hwalk
  | cons i l ih =>
    intro walk walk' hwalk h
    rw [List.foldlM_cons] at h
    cases hstep : walkColumn cards walk i with
    | error e => simp [hstep, Bind.bind, Except.bind] at h
    | ok next =>
      rw [hstep] at h
      exact ih (walkColumn_inner hwalk hstep) h

/-- The heap elements of the descriptor columns have bytes. -/
theorem findDataColumns_inner {cols : ZimageDataColumns} (h : findDataColumns cards = .ok cols) :
    ∀ col ∈ cols.slots, 0 < col.innerByteWidth := by
  unfold findDataColumns at h
  simp only at h
  split_ifs at h
  cases hwalk : (List.range' 1 (natKeyword cards (str "TFIELDS"))).foldlM (walkColumn cards)
      ⟨none, none, none, 0⟩ with
  | error e => simp [hwalk, Bind.bind, Except.bind] at h
  | ok walk =>
    have hinner : walk.Inner := walkColumns_inner (by simp [ColumnWalk.Inner]) hwalk
    simp only [hwalk, Bind.bind, Except.bind] at h
    split at h
    · cases h
    · rename_i primary hprimary
      cases h
      intro col hcol
      refine hinner col ?_
      simp only [ZimageDataColumns.slots, List.mem_cons, List.mem_append, Option.mem_toList] at hcol
      rcases hcol with rfl | hcol | hcol
      · exact Or.inl hprimary
      · exact Or.inr (Or.inl hcol)
      · exact Or.inr (Or.inr hcol)

end

/-! ## The slots and the plans -/

section

variable {s s' : Fits} {idx : Nat} {h : Hdu} {table : TileMeta}

theorem parseTileMeta_ok {cards : List Card} (h : parseTileMeta cards = .ok table) :
    findDataColumns cards = .ok table.cols ∧ table.nrows = natKeyword cards (str "NAXIS2") ∧
      table.rowWidth = natKeyword cards (str "NAXIS1") ∧
      table.theap = ((parseKeyword cards (str "THEAP")).map Int.toNat).getD
        (table.rowWidth * table.nrows % u64Size) := by
  unfold parseTileMeta at h
  cases hc : findDataColumns cards with
  | error e => simp [hc, Bind.bind, Except.bind] at h
  | ok cols =>
    simp only [hc, Bind.bind, Except.bind] at h
    cases h
    exact ⟨rfl, rfl, rfl, rfl⟩

theorem TileTable.heapTable (ht : TileTable h table) : HeapTable h table.mainBytes := by
  obtain ⟨-, hn, hw, -⟩ := parseTileMeta_ok ht.parsed
  refine ⟨ht.standard, ht.pcountCard, ht.fits, ?_⟩
  rw [TileMeta.mainBytes, hn, hw]

theorem TileTable.pcount_lt (ht : TileTable h table) :
    natKeyword h.cards (str "PCOUNT") < u64Size := by
  have := ht.heapTable.size
  unfold u64Size
  omega

theorem mem_tileSlots {nrows row : Nat} {cols : ZimageDataColumns} {col : ZimageColumnInfo} :
    (row, col) ∈ tileSlots nrows cols ↔ row < nrows ∧ col ∈ cols.slots := by
  simp [tileSlots]

/-- The descriptors lie in the rows. -/
theorem TileTable.slot_le (ht : TileTable h table) {slot : Nat × ZimageColumnInfo}
    (hslot : slot ∈ tileSlots table.nrows table.cols) :
    descAt table.rowWidth slot + slot.2.kind.width ≤ table.mainBytes := by
  obtain ⟨hrow, hcol⟩ := mem_tileSlots.1 (show (slot.1, slot.2) ∈ _ from hslot)
  have hin := ht.inside _ hcol
  have hle : (slot.1 + 1) * table.rowWidth ≤ table.nrows * table.rowWidth :=
    Nat.mul_le_mul_right _ hrow
  rw [Nat.succ_mul, Nat.mul_comm table.nrows] at hle
  unfold descAt TileMeta.mainBytes
  omega

/-- The descriptors do not overlap. -/
theorem TileTable.slots_apart (ht : TileTable h table) :
    (tileSlots table.nrows table.cols).Pairwise (SlotsApart table.rowWidth) := by
  rw [tileSlots, List.pairwise_flatMap]
  refine ⟨fun row _ => ?_, ?_⟩
  · rw [List.pairwise_map]
    refine ht.apart.imp fun hab => ?_
    unfold SlotsApart descAt
    dsimp only
    omega
  · refine List.pairwise_lt_range.imp fun {r r'} hlt x hx y hy => ?_
    obtain ⟨a, ha, rfl⟩ := List.mem_map.1 hx
    obtain ⟨b, hb, rfl⟩ := List.mem_map.1 hy
    have hwidth := ht.inside a ha
    have hrow : (r + 1) * table.rowWidth ≤ r' * table.rowWidth := Nat.mul_le_mul_right _ hlt
    rw [Nat.succ_mul] at hrow
    unfold SlotsApart descAt
    dsimp only
    omega

theorem TileTable.rows_le (ht : TileTable h table) (ho : Opened s idx h) :
    h.offsets.dataOffset + table.mainBytes + natKeyword h.cards (str "PCOUNT") ≤
      s.bytes.length := by
  have hend := ho.dataEnd_le
  have hround := le_roundUpToBlock (table.mainBytes + natKeyword h.cards (str "PCOUNT"))
  rw [ht.heapTable.dataEnd] at hend
  omega

theorem TileTable.rows_length (ht : TileTable h table) (ho : Opened s idx h) :
    (tileRows s h table).length = table.mainBytes := by
  have := ht.rows_le ho
  rw [tileRows, slice_length]
  omega

theorem blob_mem {b : TileBlob} (hb : b ∈ imageBlobs s h table) :
    b.row < table.nrows ∧ b.col ∈ table.cols.slots := mem_tileSlots.1 (tileBlobs_mem hb).1

theorem TileTable.blob_length_pos (ht : TileTable h table) {b : TileBlob}
    (hb : b ∈ imageBlobs s h table) (hnel : b.nel ≠ 0) : 0 < b.length :=
  b.length_pos hnel (findDataColumns_inner (parseTileMeta_ok ht.parsed).1 _ (blob_mem hb).2)

theorem TileTable.blob_le (ht : TileTable h table) (hin : DescriptorsInRange s h table)
    {b : TileBlob} (hb : b ∈ imageBlobs s h table) (hnel : b.nel ≠ 0) :
    b.oldOff + b.length ≤ natKeyword h.cards (str "PCOUNT") :=
  (TileBlob.length_le (hin b hb) ht.pcount_lt hnel).2

theorem blob_new_le {b : TileBlob} (hb : b ∈ imageBlobs s h table) :
    b.newOff + b.length ≤ liveBytes (imageBlobs s h table) := by
  have := (tileBlobs_mem hb).2.2.2.2
  rw [Nat.zero_add] at this
  exact this

/-- The plans of the image. -/
theorem plans_of_image (ht : TileTable h table) (hin : DescriptorsInRange s h table) :
    Plans (natKeyword h.cards (str "PCOUNT")) (liveBytes (imageBlobs s h table))
      (sortPlans (livePlans (imageBlobs s h table))) := by
  have hperm : (sortPlans (livePlans (imageBlobs s h table))).Perm
      (livePlans (imageBlobs s h table)) := List.mergeSort_perm _ _
  have hmem : ∀ p ∈ sortPlans (livePlans (imageBlobs s h table)),
      ∃ b ∈ imageBlobs s h table, b.nel ≠ 0 ∧ b.plan = p := fun p hp =>
    mem_livePlans.1 (hperm.mem_iff.1 hp)
  have hpairs : (livePlans (imageBlobs s h table)).Pairwise fun a b =>
      0 < a.length ∧ a.newOff + a.length ≤ b.newOff := by
    rw [livePlans, List.pairwise_map]
    have hall : ((imageBlobs s h table).filter fun blob => decide (blob.nel ≠ 0)).Pairwise
        fun a b => a.nel ≠ 0 → b.nel ≠ 0 → a.newOff + a.length ≤ b.newOff :=
      tileBlobs_pairwise.filter _
    refine hall.imp_of_mem fun {a b} ha hb hab => ?_
    obtain ⟨ha, hanel⟩ := List.mem_filter.1 ha
    obtain ⟨hb, hbnel⟩ := List.mem_filter.1 hb
    rw [decide_eq_true_eq] at hanel hbnel
    exact ⟨ht.blob_length_pos ha hanel, hab hanel hbnel⟩
  refine ⟨sortPlans_pairwise (hpairs.imp fun hab => by omega), ?_, ?_, ?_, ?_⟩
  · have hsymm : ∀ {a b : MovePlan}, PlanApart a b → PlanApart b a := fun hab => Or.symm hab
    exact (hperm.pairwise_iff hsymm).2 (hpairs.imp fun hab => Or.inl hab.2)
  · intro p hp
    obtain ⟨b, hb, hnel, rfl⟩ := hmem p hp
    exact ht.blob_le hin hb hnel
  · intro p hp
    obtain ⟨b, hb, -, rfl⟩ := hmem p hp
    exact blob_new_le hb
  · have hfull : liveBytes (imageBlobs s h table) = 0 ∨ ∃ b ∈ imageBlobs s h table,
        b.nel ≠ 0 ∧ b.newOff + b.length = 0 + liveBytes (imageBlobs s h table) := tileBlobs_full
    rcases hfull with hzero | ⟨b, hb, hnel, hend⟩
    · exact Or.inl hzero
    · rw [Nat.zero_add] at hend
      exact Or.inr ⟨b.plan, hperm.mem_iff.2 (mem_livePlans.2 ⟨b, hb, hnel, rfl⟩), hend⟩

/-! ## The run -/

theorem TileTable.saturatingMul_main (ht : TileTable h table) :
    saturatingMul table.rowWidth table.nrows = table.mainBytes := by
  have := ht.heapTable.size
  exact saturatingMul_of_lt (by unfold TileMeta.mainBytes at this; unfold u64Size; omega)

/-- A heap that the reader finds right behind the rows is not refused. -/
theorem TileTable.not_refused (ht : TileTable h table) (hdefault : table.theap = table.mainBytes) :
    ¬ TheapRefused h.cards table.mainBytes := by
  obtain ⟨-, -, -, htheap⟩ := parseTileMeta_ok ht.parsed
  rintro ⟨hpos, hne⟩
  cases hcard : parseKeyword h.cards (str "THEAP") with
  | none =>
    rw [hcard] at hpos
    exact absurd hpos (by decide)
  | some t =>
    rw [hcard] at htheap hne
    exact hne (htheap.symm.trans hdefault)

/-- An image without rows or without a heap is left alone. -/
theorem repack_of_empty (ho : Opened s idx h) (ht : TileTable h table)
    (hempty : natKeyword h.cards (str "PCOUNT") = 0 ∨ table.nrows = 0) :
    repackCompressedHeap idx s = .ok () s := by
  obtain ⟨-, hn, -, -⟩ := parseTileMeta_ok ht.parsed
  unfold repackCompressedHeap
  rw [FileOp.get_bind, ho.hdu]
  simp only
  rw [← hn, if_pos hempty]
  rfl

/-- A THEAP card with another positive place is refused. -/
theorem repack_refuses (ho : Opened s idx h) (ht : TileTable h table)
    (hpos : natKeyword h.cards (str "PCOUNT") ≠ 0) (hnrows : table.nrows ≠ 0)
    (hheap : TheapRefused h.cards table.mainBytes) :
    ∃ e, repackCompressedHeap idx s = .error e s := by
  obtain ⟨-, hn, hw, -⟩ := parseTileMeta_ok ht.parsed
  unfold TheapRefused at hheap
  unfold repackCompressedHeap
  rw [FileOp.get_bind, ho.hdu]
  simp only
  rw [← hn, ← hw, ht.saturatingMul_main, if_neg (by simp [hpos, hnrows]),
    FileOp.raiseIf_bind_error hheap]
  exact ⟨_, rfl⟩

/-- The repack up to its scan. -/
theorem repack_eq (ho : Opened s idx h) (ht : TileTable h table)
    (hpos : natKeyword h.cards (str "PCOUNT") ≠ 0) (hnrows : table.nrows ≠ 0)
    (hheap : ¬ TheapRefused h.cards table.mainBytes) :
    repackCompressedHeap idx s =
      match (tileSlots table.nrows table.cols).foldlM
          (scanTile table.rowWidth (natKeyword h.cards (str "PCOUNT")))
          ⟨tileRows s h table, [], 0⟩ with
      | .error e => .error e s
      | .ok scan =>
        if scan.newCursor = natKeyword h.cards (str "PCOUNT") then .ok () s
        else rebuildHeap idx h.cards h.offsets.dataOffset table.mainBytes
          (h.offsets.dataOffset + table.mainBytes) (natKeyword h.cards (str "PCOUNT")) scan s := by
  obtain ⟨hcols, hn, hw, -⟩ := parseTileMeta_ok ht.parsed
  have hle := ht.rows_le ho
  have hread : readAt (str "repack: read main failed: ") h.offsets.dataOffset table.mainBytes s =
      .ok (tileRows s h table) s := by
    rw [readAt, readExact_eq_some (by omega)]
    rfl
  unfold TheapRefused at hheap
  unfold repackCompressedHeap
  rw [FileOp.get_bind, ho.hdu]
  simp only
  rw [hcols, ← hn, ← hw, ht.saturatingMul_main, if_neg (by simp [hpos, hnrows]),
    FileOp.raiseIf_bind hheap, FileOp.ofExcept_bind,
    FileOp.bind_ok hread]
  cases hscan : (tileSlots table.nrows table.cols).foldlM
      (scanTile table.rowWidth (natKeyword h.cards (str "PCOUNT")))
      ⟨tileRows s h table, [], 0⟩ with
  | error e => rfl
  | ok scan =>
    rw [FileOp.ofExcept_bind]
    simp only
    split_ifs <;> rfl

/-- The scan of the image. -/
theorem scan_image (ho : Opened s idx h) (ht : TileTable h table)
    (hin : DescriptorsInRange s h table) (hfits : ∀ b ∈ imageBlobs s h table, b.Fits) :
    ∃ rows', (tileSlots table.nrows table.cols).foldlM
          (scanTile table.rowWidth (natKeyword h.cards (str "PCOUNT")))
          ⟨tileRows s h table, [], 0⟩ =
        .ok ⟨rows', livePlans (imageBlobs s h table), liveBytes (imageBlobs s h table)⟩ ∧
      Rewritten table.rowWidth (tileSlots table.nrows table.cols) (tileRows s h table) 0 rows' := by
  have hscan := @scan_spec _ _ ht.pcount_lt (tileSlots table.nrows table.cols)
    (tileRows s h table) [] 0 ht.slots_apart
    (fun slot hslot => by rw [ht.rows_length ho]; exact ht.slot_le hslot) hin hfits
  rw [List.nil_append, Nat.zero_add] at hscan
  exact hscan

/-- A `P` descriptor that cannot hold its new offset is refused. -/
theorem repack_overflows (ho : Opened s idx h) (ht : TileTable h table)
    (hin : DescriptorsInRange s h table) (hpos : natKeyword h.cards (str "PCOUNT") ≠ 0)
    (hnrows : table.nrows ≠ 0) (hheap : ¬ TheapRefused h.cards table.mainBytes)
    (hbad : ∃ b ∈ imageBlobs s h table, ¬ b.Fits) :
    ∃ e, repackCompressedHeap idx s = .error e s := by
  obtain ⟨e, he⟩ := @scan_refuses _ _ ht.pcount_lt (tileSlots table.nrows table.cols)
    (tileRows s h table) [] 0 ht.slots_apart
    (fun slot hslot => by rw [ht.rows_length ho]; exact ht.slot_le hslot) hin hbad
  rw [repack_eq ho ht hpos hnrows hheap, he]
  exact ⟨e, rfl⟩

/-! ## The image after the rebuild -/

/-- The image with its new heap size. -/
theorem tileTable_setPcount (ht : TileTable h table) {n : Nat}
    (hsize : table.mainBytes + n ≤ 9223372036854775807) :
    TileTable { h with cards := setPcountInCards h.cards n } table ∧
      natKeyword (setPcountInCards h.cards n) (str "PCOUNT") = n := by
  obtain ⟨ht', hfirst, hpcount⟩ := ht.heapTable.setPcount ht.pcountFirst hsize
  have hother : ∀ key, (str "PCOUNT").isPrefixOf key = false →
      parseKeyword (setPcountInCards h.cards n) key = parseKeyword h.cards key :=
    fun key hkey => parseKeyword_setPcount_other n hkey
  refine ⟨⟨ht'.standard, ht'.pcountCard, hfirst, ht'.fits, ?_, ht.inside, ht.apart⟩,
    hpcount⟩
  · show parseTileMeta (setPcountInCards h.cards n) = .ok table
    unfold parseTileMeta natKeyword
    rw [findDataColumns_congr (sameColumns_setPcount n), hother _ (by decide), hother _ (by decide),
      hother _ (by decide)]
    exact ht.parsed

/-- A descriptor of the file, through the rows. -/
theorem resolve_eq {f rows : Bytes} (ht : TileTable h table)
    (hrows : slice f h.offsets.dataOffset table.mainBytes = rows)
    (hlen : h.offsets.dataOffset + table.mainBytes ≤ f.length) {row : Nat} {col : ZimageColumnInfo}
    (hslot : (row, col) ∈ tileSlots table.nrows table.cols) :
    resolve f h.offsets.dataOffset table.theap table.rowWidth row col =
      if (slotDesc rows table.rowWidth (row, col)).1 = 0 then .ok (0, [])
      else match readExact f
          (h.offsets.dataOffset + table.theap + (slotDesc rows table.rowWidth (row, col)).2)
          (saturatingMul (slotDesc rows table.rowWidth (row, col)).1 col.innerByteWidth) with
        | none => .error (.io (str "failed to fill whole buffer"))
        | some bytes => .ok ((slotDesc rows table.rowWidth (row, col)).1, bytes) := by
  have hle : row * table.rowWidth + col.byteOffsetInRow + col.kind.width ≤ table.mainBytes :=
    ht.slot_le hslot
  have hread : readExact f (h.offsets.dataOffset + row * table.rowWidth + col.byteOffsetInRow)
      col.kind.width = some (slice f
        (h.offsets.dataOffset + row * table.rowWidth + col.byteOffsetInRow) col.kind.width) :=
    readExact_eq_some (by omega)
  have hdesc : slotDesc rows table.rowWidth (row, col) = readDescriptorFromBuf col.kind
      (slice f (h.offsets.dataOffset + row * table.rowWidth + col.byteOffsetInRow)
        col.kind.width) := by
    rw [slotDesc, ← hrows, slice_slice (ht.slot_le hslot), descAt, Nat.add_assoc]
  unfold resolve
  rw [hdesc]
  split
  next hnone =>
    rw [hread] at hnone
    cases hnone
  next desc hsome =>
    rw [hread] at hsome
    cases hsome
    rfl

/-- A blob before the repack. -/
theorem resolve_before (ho : Opened s idx h) (ht : TileTable h table)
    (hin : DescriptorsInRange s h table) (hdefault : table.theap = table.mainBytes) {b : TileBlob}
    (hb : b ∈ imageBlobs s h table) :
    resolve s.bytes h.offsets.dataOffset table.theap table.rowWidth b.row b.col =
      .ok (b.nel, slice s.bytes (h.offsets.dataOffset + table.mainBytes + b.oldOff) b.length) := by
  obtain ⟨hslot, hdesc, -⟩ := tileBlobs_mem hb
  have hle := ht.rows_le ho
  rw [resolve_eq ht rfl (by omega) hslot]
  change _ = slotDesc (slice s.bytes h.offsets.dataOffset table.mainBytes) _ _ at hdesc
  rw [← hdesc, hdefault]
  dsimp only
  by_cases hnel : b.nel = 0
  · rw [if_pos hnel, hnel, TileBlob.length_of_zero hnel, slice_zero]
  · have hlen := ht.blob_le hin hb hnel
    unfold TileBlob.length at hlen ⊢
    rw [if_neg hnel, readExact_eq_some (by omega)]

/-- A blob after the repack. -/
theorem resolve_after {rows : Bytes} (ht : TileTable h table)
    (hdefault : table.theap = table.mainBytes)
    (hlen : h.offsets.dataOffset + table.mainBytes + liveBytes (imageBlobs s h table) ≤
      s'.bytes.length)
    (hrows : slice s'.bytes h.offsets.dataOffset table.mainBytes = rows) {b : TileBlob}
    (hb : b ∈ imageBlobs s h table)
    (hdesc : slotDesc rows table.rowWidth (b.row, b.col) = (b.nel, b.newOff)) :
    resolve s'.bytes h.offsets.dataOffset table.theap table.rowWidth b.row b.col =
      .ok (b.nel, slice s'.bytes (h.offsets.dataOffset + table.mainBytes + b.newOff) b.length) := by
  have hnew := blob_new_le hb
  rw [resolve_eq ht hrows (by omega) (tileBlobs_mem hb).1, hdesc, hdefault]
  dsimp only
  by_cases hnel : b.nel = 0
  · rw [if_pos hnel, hnel, TileBlob.length_of_zero hnel, slice_zero]
  · unfold TileBlob.length at hnew ⊢
    rw [if_neg hnel, readExact_eq_some (by omega)]

/-- Every descriptor of the new rows is that of a blob. -/
theorem slotDesc_new {rows : Bytes}
    (hsize : table.mainBytes + liveBytes (imageBlobs s h table) ≤ 9223372036854775807)
    (hrows : Rewritten table.rowWidth (tileSlots table.nrows table.cols)
      (tileRows s h table) 0 rows)
    (hfits : ∀ b ∈ imageBlobs s h table, b.Fits) {b : TileBlob} (hb : b ∈ imageBlobs s h table) :
    slotDesc rows table.rowWidth (b.row, b.col) = (b.nel, b.newOff) := by
  have hn : b.nel < 2 ^ b.col.kind.bits := by
    have := readDescriptorFromBuf_lt b.col.kind
      (slice (tileRows s h table) (descAt table.rowWidth (b.row, b.col)) b.col.kind.width)
    have hdesc := congrArg Prod.fst (tileBlobs_mem hb).2.1
    exact Nat.lt_of_le_of_lt (Nat.le_of_eq hdesc) this
  have hoff : b.newOff < 2 ^ b.col.kind.bits := by
    have hnew := blob_new_le hb
    have hfit := hfits b hb
    unfold TileBlob.Fits at hfit
    cases hkind : b.col.kind with
    | p =>
      have hle : b.newOff ≤ 4294967295 := hfit hkind
      show b.newOff < 4294967296
      omega
    | q =>
      show b.newOff < 18446744073709551616
      omega
  rw [slotDesc, hrows.descriptors b hb, readDescriptorFromBuf_write hn hoff]

/-- The image with the heap size that the repack sets. -/
def repackedHdu (s : Fits) (h : Hdu) (table : TileMeta) : Hdu :=
  { h with cards := setPcountInCards h.cards (liveBytes (imageBlobs s h table)) }

section

variable {rows : Bytes} (ho : Opened s idx h) (ht : TileTable h table)
  (hin : DescriptorsInRange s h table) (hdefault : table.theap = table.mainBytes)
  (hsize : table.mainBytes + liveBytes (imageBlobs s h table) ≤ 9223372036854775807)
  (hfits : ∀ b ∈ imageBlobs s h table, b.Fits)
  (hrows : Rewritten table.rowWidth (tileSlots table.nrows table.cols) (tileRows s h table) 0 rows)
  (hw : Window s idx h
    { h with cards := setPcountInCards h.cards (liveBytes (imageBlobs s h table)) }
    (h.offsets.dataOffset + roundUpToBlock (table.mainBytes + liveBytes (imageBlobs s h table))) s')
  (hmain : slice s'.bytes h.offsets.dataOffset table.mainBytes = rows)

include ho ht hin hdefault hsize hfits hrows hw hmain

/-- The descriptors resolve as before exactly when the blobs arrived. -/
theorem tiles_kept_iff :
    (∀ row < table.nrows, ∀ col ∈ table.cols.slots,
      resolve s'.bytes h.offsets.dataOffset table.theap table.rowWidth row col =
        resolve s.bytes h.offsets.dataOffset table.theap table.rowWidth row col) ↔
      CellsKept (h.offsets.dataOffset + table.mainBytes)
        (sortPlans (livePlans (imageBlobs s h table))) s.bytes s'.bytes := by
  have hperm : (sortPlans (livePlans (imageBlobs s h table))).Perm
      (livePlans (imageBlobs s h table)) := List.mergeSort_perm _ _
  have hround := le_roundUpToBlock (table.mainBytes + liveBytes (imageBlobs s h table))
  have hlen := hw.le_length
  have hblob : ∀ b ∈ imageBlobs s h table,
      (resolve s'.bytes h.offsets.dataOffset table.theap table.rowWidth b.row b.col =
        resolve s.bytes h.offsets.dataOffset table.theap table.rowWidth b.row b.col ↔
      ∀ q < b.length, s'.bytes[h.offsets.dataOffset + table.mainBytes + b.newOff + q]? =
        s.bytes[h.offsets.dataOffset + table.mainBytes + b.oldOff + q]?) := by
    intro b hb
    rw [resolve_before ho ht hin hdefault hb, resolve_after ht hdefault (by omega) hmain hb
      (slotDesc_new hsize hrows hfits hb)]
    constructor
    · intro heq q hq
      have hbytes := congrArg (fun l : Bytes => l[q]?) (Prod.mk.inj (Except.ok.inj heq)).2
      simpa [slice_getElem?, hq] using hbytes
    · intro hsame
      refine congrArg (fun l => Except.ok (b.nel, l)) (List.ext_getElem? fun q => ?_)
      rw [slice_getElem?, slice_getElem?]
      split_ifs with hq
      · exact hsame q hq
      · rfl
  constructor
  · intro htiles p hp
    obtain ⟨b, hb, -, rfl⟩ := mem_livePlans.1 (hperm.mem_iff.1 hp)
    exact (hblob b hb).1 (htiles _ (blob_mem hb).1 _ (blob_mem hb).2)
  · intro hkept row hrow col hcol
    obtain ⟨b, hb, heq⟩ : ∃ b ∈ imageBlobs s h table, (b.row, b.col) = (row, col) :=
      exists_tileBlob (mem_tileSlots.2 ⟨hrow, hcol⟩)
    obtain ⟨rfl, rfl⟩ := Prod.mk.inj heq
    refine (hblob b hb).2 fun q hq => ?_
    have hnel : b.nel ≠ 0 := fun h0 => by
      rw [TileBlob.length_of_zero h0] at hq
      omega
    exact hkept b.plan (hperm.mem_iff.2 (mem_livePlans.2 ⟨b, hb, hnel, rfl⟩)) q hq

/-- A second repack finds a heap that its blobs fill. -/
theorem heap_compact : repackCompressedHeap idx s' = .ok () s' := by
  obtain ⟨ht₁, hpcount₁⟩ := tileTable_setPcount ht hsize
  have ht' : TileTable (repackedHdu s h table) table := ht₁
  have hpcount : natKeyword (repackedHdu s h table).cards (str "PCOUNT") =
      liveBytes (imageBlobs s h table) := hpcount₁
  have hend : (repackedHdu s h table).dataEnd = h.offsets.dataOffset +
      roundUpToBlock (table.mainBytes + liveBytes (imageBlobs s h table)) := by
    rw [ht'.heapTable.dataEnd, hpcount]
    rfl
  have ho' : Opened s' idx (repackedHdu s h table) := ⟨(hw.contiguous_iff ho).2 hend, hw.hdu ho⟩
  -- the blobs found by the second scan are those of the first, at their new places
  have hblobs : imageBlobs s' (repackedHdu s h table) table =
      (imageBlobs s h table).map fun b => { b with oldOff := b.newOff } := by
    unfold imageBlobs
    rw [show tileRows s' (repackedHdu s h table) table = rows from hmain]
    exact tileBlobs_moved fun b hb => slotDesc_new hsize hrows hfits hb
  have hlive : liveBytes (imageBlobs s' (repackedHdu s h table) table) =
      liveBytes (imageBlobs s h table) := by
    rw [hblobs, liveBytes, List.map_map]
    rfl
  have hin' : DescriptorsInRange s' (repackedHdu s h table) table := by
    rw [DescriptorsInRange, hblobs, hpcount]
    intro c hc hnel
    obtain ⟨b, hb, rfl⟩ := List.mem_map.1 hc
    have hlen := (TileBlob.length_le (hin b hb) ht.pcount_lt hnel).1
    have hnew := blob_new_le hb
    rw [hlen] at hnew
    exact hnew
  have hfits' : ∀ b ∈ imageBlobs s' (repackedHdu s h table) table, b.Fits := by
    rw [hblobs]
    intro c hc
    obtain ⟨b, hb, rfl⟩ := List.mem_map.1 hc
    exact hfits b hb
  by_cases hempty : liveBytes (imageBlobs s h table) = 0 ∨ table.nrows = 0
  · refine repack_of_empty ho' ht' ?_
    rw [hpcount]
    exact hempty
  · obtain ⟨rows', hscan, -⟩ := scan_image ho' ht' hin' hfits'
    rw [repack_eq ho' ht' (by rw [hpcount]; omega) (by omega) (ht'.not_refused hdefault), hscan]
    simp only
    rw [if_pos (by rw [hpcount, hlive])]

end

/-! ## The result -/

/-- A repack that changes nothing keeps every tile, when the heap is as long as the
live blobs. -/
theorem repackKeeps_refl (ho : Opened s idx h) (ht : TileTable h table)
    (hlive : liveBytes (imageBlobs s h table) = natKeyword h.cards (str "PCOUNT"))
    (hrun : repackCompressedHeap idx s = .ok () s) : RepackKeeps s idx h table s :=
  ⟨⟨h.cards, ho.hdu, ht.parsed, hlive.symm, Or.inl rfl⟩, fun _ _ _ _ => rfl, ho.contiguous,
    OthersKept.refl idx s, hrun⟩

/-- A repack that changed nothing kept the heap size. -/
theorem RepackKeeps.live_of_same (ho : Opened s idx h) (hkeeps : RepackKeeps s idx h table s) :
    natKeyword h.cards (str "PCOUNT") = liveBytes (imageBlobs s h table) := by
  obtain ⟨cards, hdu, -, hpcount, -⟩ := hkeeps.header
  rw [ho.hdu] at hdu
  have hcards := congrArg Hdu.cards (Option.some.inj hdu)
  rw [hcards]
  exact hpcount

/-- The rebuilt image.  It has the property exactly under `RepackSafe`, except that a
reader that looks for the heap in the rows may find equal bytes by accident. -/
theorem rebuild_exact (ho : Opened s idx h) (ht : TileTable h table)
    (hin : DescriptorsInRange s h table) (hpos : natKeyword h.cards (str "PCOUNT") ≠ 0)
    (hnrows : table.nrows ≠ 0) (hheap : ¬ TheapRefused h.cards table.mainBytes)
    (hsize : table.mainBytes + liveBytes (imageBlobs s h table) ≤ 9223372036854775807)
    (hfits : ∀ b ∈ imageBlobs s h table, b.Fits)
    (hlive : liveBytes (imageBlobs s h table) ≠ natKeyword h.cards (str "PCOUNT")) :
    ∃ s', repackCompressedHeap idx s = .ok () s' ∧
      (RepackSafe s h table → RepackKeeps s idx h table s') ∧
      (RepackKeeps s idx h table s' → RepackSafe s h table ∨ table.theap ≠ table.mainBytes) := by
  obtain ⟨rows, hscan, hrows⟩ := scan_image ho ht hin hfits
  have hlength : rows.length = table.mainBytes := by rw [hrows.length, ht.rows_length ho]
  obtain ⟨s', hrebuild, hw, hheader, hmain, hiff⟩ := rebuildHeap_run ho ht.heapTable
    (Nat.pos_of_ne_zero hpos) hlength (plans_of_image ht hin)
  obtain ⟨ht', hpcount⟩ := tileTable_setPcount ht hsize
  have htiles : table.theap = table.mainBytes → _ := fun hdefault =>
    tiles_kept_iff ho ht hin hdefault hsize hfits hrows hw hmain
  have hround := le_roundUpToBlock (table.mainBytes + liveBytes (imageBlobs s h table))
  refine ⟨s', ?_, fun hsafe => ?_, fun hkeeps => ?_⟩
  · rw [repack_eq ho ht hpos hnrows hheap, hscan]
    simp only
    rw [if_neg hlive, hrebuild]
  · have hdefault := hsafe.heap hlive
    refine ⟨⟨_, hw.hdu ho, ht'.parsed, hpcount, Or.inr (hheader (hsafe.blocks hlive))⟩,
      (htiles hdefault).2 (hiff.2 (hsafe.moves hlive)), ?_, hw.othersKept ho,
      heap_compact ho ht hin hdefault hsize hfits hrows hw hmain⟩
    refine (hw.contiguous_iff ho).2 ?_
    rw [ht'.heapTable.dataEnd]
    dsimp only
    rw [hpcount]
  · by_cases hdefault : table.theap = table.mainBytes
    · -- a new heap size is in a header that fills its blocks
      have hblocks : h.offsets.headerBlockCount = headerBlocks h.cards.length := by
        obtain ⟨cards, hdu, -, hcards, hdisk⟩ := hkeeps.header
        have hnew : cards = setPcountInCards h.cards (liveBytes (imageBlobs s h table)) := by
          rw [hw.hdu ho] at hdu
          exact (congrArg Hdu.cards (Option.some.inj hdu)).symm
        rcases hdisk with hsame | hdisk
        · rw [hsame] at hcards
          exact absurd hcards.symm hlive
        · rw [hnew] at hdisk
          exact blocks_of_header hw ht.pcountCard (by omega) hdisk
      exact Or.inl ⟨fun hzero => absurd hzero hnrows, fun _ => hblocks, fun _ => hdefault,
        fun _ => hiff.1 ((htiles hdefault).1 hkeeps.tiles)⟩
    · exact Or.inr hdefault

/-- A repack that is not refused returns.  It has the property under `RepackSafe`, and
only then, except by accident. -/
theorem repack_exact (ho : Opened s idx h) (ht : TileTable h table)
    (hin : DescriptorsInRange s h table)
    (hsize : table.mainBytes + liveBytes (imageBlobs s h table) ≤ 9223372036854775807)
    (hcase : natKeyword h.cards (str "PCOUNT") = 0 ∨ table.nrows = 0 ∨
      ¬ TheapRefused h.cards table.mainBytes ∧ ∀ b ∈ imageBlobs s h table, b.Fits) :
    ∃ s', repackCompressedHeap idx s = .ok () s' ∧
      (RepackSafe s h table → RepackKeeps s idx h table s') ∧
      (RepackKeeps s idx h table s' → RepackSafe s h table ∨ table.theap ≠ table.mainBytes) := by
  by_cases hempty : natKeyword h.cards (str "PCOUNT") = 0 ∨ table.nrows = 0
  · -- nothing is done: the heap size is right when it was
    have hrun := repack_of_empty ho ht hempty
    have hlive : liveBytes (imageBlobs s h table) = 0 := by
      have hfull : liveBytes (imageBlobs s h table) = 0 ∨ ∃ b ∈ imageBlobs s h table,
          b.nel ≠ 0 ∧ b.newOff + b.length = 0 + liveBytes (imageBlobs s h table) := tileBlobs_full
      rcases hfull with hzero | ⟨b, hb, hnel, -⟩
      · exact hzero
      · have hle := ht.blob_le hin hb hnel
        have hlt := ht.blob_length_pos hb hnel
        have hrow := (blob_mem hb).1
        omega
    refine ⟨s, hrun, fun hsafe => repackKeeps_refl ho ht ?_ hrun, fun hkeeps => Or.inl ?_⟩
    · rcases hempty with hzero | hzero
      · rw [hlive, hzero]
      · rw [hlive, hsafe.rows hzero]
    · have hsame := hkeeps.live_of_same ho
      exact ⟨fun _ => by rw [hsame, hlive], fun hne => absurd hsame.symm hne,
        fun hne => absurd hsame.symm hne, fun hne => absurd hsame.symm hne⟩
  · obtain ⟨hheap, hfits⟩ : ¬ TheapRefused h.cards table.mainBytes ∧
        ∀ b ∈ imageBlobs s h table, b.Fits := by
      rcases hcase with hzero | hzero | hcase
      · exact absurd (Or.inl hzero) hempty
      · exact absurd (Or.inr hzero) hempty
      · exact hcase
    have hpos : natKeyword h.cards (str "PCOUNT") ≠ 0 := fun hz => hempty (Or.inl hz)
    have hnrows : table.nrows ≠ 0 := fun hz => hempty (Or.inr hz)
    by_cases hlive : liveBytes (imageBlobs s h table) = natKeyword h.cards (str "PCOUNT")
    · obtain ⟨rows, hscan, -⟩ := scan_image ho ht hin hfits
      have hrun : repackCompressedHeap idx s = .ok () s := by
        rw [repack_eq ho ht hpos hnrows hheap, hscan]
        simp only
        rw [if_pos hlive]
      exact ⟨s, hrun, fun _ => repackKeeps_refl ho ht hlive hrun, fun _ => Or.inl
        ⟨fun hzero => absurd hzero hnrows, fun hne => absurd hlive hne,
          fun hne => absurd hlive hne, fun hne => absurd hlive hne⟩⟩
    · exact rebuild_exact ho ht hin hpos hnrows hheap hsize hfits hlive

end

/-! ## Two small images -/

def tilePrimary : List Card :=
  [str "SIMPLE  =                    T", str "BITPIX  =                    8",
    str "NAXIS   =                    0", endCard]

/-- The header of an image of two tiles, with a heap of `pcount` bytes. -/
def tileCards (pcount : Str) : List Card :=
  [str "XTENSION= 'BINTABLE'", str "BITPIX  =                    8",
    str "NAXIS   =                    2", str "NAXIS1  =                    8",
    str "NAXIS2  =                    2", str "PCOUNT  =              " ++ pcount,
    str "GCOUNT  =                    1", str "TFIELDS =                    1",
    str "TTYPE1  = 'COMPRESSED_DATA'", str "TFORM1  = '1PB     '",
    str "ZIMAGE  =                    T", str "ZCMPTYPE= 'GZIP_1  '",
    str "ZBITPIX =                    8", str "ZNAXIS  =                    1",
    str "ZNAXIS1 =                    2", str "ZTILE1  =                    1", endCard]

def tileHdu (pcount : Str) : Hdu := ⟨tileCards pcount, ⟨2880, 1, 5760⟩, .compressedImage⟩

def tileColumn : ZimageColumnInfo := ⟨0, false, 1⟩

def tileTable : TileMeta := ⟨2, 8, 16, ⟨tileColumn, none, none⟩⟩

/-- A file of a primary header and that image. -/
def tileFile (pcount : Str) (rows heap : Bytes) : Fits where
  bytes :=
  serializeHeaderToDiskBytes tilePrimary ++ serializeHeaderToDiskBytes (tileCards pcount) ++
    (rows ++ (heap ++ List.replicate (roundUpToBlock (16 + heap.length) - (16 + heap.length)) 0))
  hdus := [⟨tilePrimary, ⟨0, 1, 2880⟩, .image⟩, tileHdu pcount]

section

variable {pcount : Str} {rows heap : Bytes}

theorem tileFile_length (hrows : rows.length = 16) :
    (tileFile pcount rows heap).bytes.length = 5760 + roundUpToBlock (16 + heap.length) := by
  have hround := le_roundUpToBlock (16 + heap.length)
  have hheaders : (serializeHeaderToDiskBytes tilePrimary ++
      serializeHeaderToDiskBytes (tileCards pcount)).length = 5760 := by
    simp [serialize_length, headerBlocks_eq, tilePrimary, tileCards]
  simp only [tileFile, List.length_append, List.length_replicate] at hheaders ⊢
  omega

theorem tileFile_drop : (tileFile pcount rows heap).bytes.drop 5760 =
    rows ++
      (heap ++ List.replicate (roundUpToBlock (16 + heap.length) - (16 + heap.length)) 0) := by
  refine List.drop_left' ?_
  simp [serialize_length, headerBlocks_eq, tilePrimary, tileCards]

theorem tileRows_tileFile (hrows : rows.length = 16) :
    tileRows (tileFile pcount rows heap) (tileHdu pcount) tileTable = rows := by
  show slice _ 5760 (8 * 2) = rows
  rw [slice, tileFile_drop, List.take_left' hrows]

theorem tileFile_heap (hrows : rows.length = 16) {i : Nat} (hi : i < heap.length) :
    (tileFile pcount rows heap).bytes[5776 + i]? = heap[i]? := by
  rw [show 5776 + i = 5760 + (16 + i) by omega, ← List.getElem?_drop, tileFile_drop,
    List.getElem?_append_right (by omega), hrows, Nat.add_sub_cancel_left,
    List.getElem?_append_left hi]

/-- The image, from the lookups in its header. -/
theorem tileTable_tileHdu {p : Nat}
    (hkeys : [str "BITPIX", str "NAXIS", str "GCOUNT", str "NAXIS1", str "NAXIS2",
      str "PCOUNT"].map (parseKeyword (tileCards pcount)) =
        [some 8, some 2, some 1, some 8, some 2, some (p : Int)])
    (hcard : (cardIndex (str "PCOUNT") (tileCards pcount)).isSome)
    (hfirst : PcountFirst (tileCards pcount))
    (hparsed : parseTileMeta (tileCards pcount) = .ok tileTable) (hp : p ≤ 1000000000) :
    TileTable (tileHdu pcount) tileTable ∧ natKeyword (tileCards pcount) (str "PCOUNT") = p := by
  simp only [List.map_cons, List.map_nil, List.cons.injEq] at hkeys
  obtain ⟨hbitpix, hnaxis, hgcount, hnaxis1, hnaxis2, hpcount, -⟩ := hkeys
  have hbytes : tableDataBytes (tileCards pcount) = 16 + p := by
    rw [tableDataBytes, natKeyword_of_some (n := 8) hnaxis1, natKeyword_of_some (n := 2) hnaxis2,
      natKeyword_of_some hpcount]
  have hstd : StandardTable (tileCards pcount) :=
    ⟨hbitpix, hnaxis, by rw [hgcount]; rfl, ⟨8, hnaxis1⟩, ⟨2, hnaxis2⟩, by omega⟩
  have hfits : headerBlocks (tileHdu pcount).cards.length ≤
      (tileHdu pcount).offsets.headerBlockCount := by
    show headerBlocks 17 ≤ 1
    decide
  refine ⟨⟨hstd, hcard, hfirst, hfits, hparsed, ?_, ?_⟩, natKeyword_of_some hpcount⟩
  · intro col hcol
    obtain rfl : col = tileColumn := by simpa [tileTable, ZimageDataColumns.slots] using hcol
    decide
  · exact List.pairwise_singleton _ _

theorem opened_tileFile (hrows : rows.length = 16) (ht : TileTable (tileHdu pcount) tileTable)
    (hpcount : natKeyword (tileCards pcount) (str "PCOUNT") = heap.length) :
    Opened (tileFile pcount rows heap) 1 (tileHdu pcount) := by
  refine ⟨⟨rfl, by decide, by decide, ?_⟩, rfl⟩
  rw [show Hdu.dataEnd ⟨tilePrimary, ⟨0, 1, 2880⟩, .image⟩ = 2880 by decide +kernel]
  refine ⟨rfl, Nat.one_pos, ?_, ?_⟩
  · show 5760 = 2880 + 1 * blockSize
    decide
  · show (tileHdu pcount).dataEnd = _
    rw [ht.heapTable.dataEnd, tileFile_length hrows, show natKeyword (tileHdu pcount).cards
      (str "PCOUNT") = heap.length from hpcount]
    rfl

end

theorem tileTable_two :
    TileTable (tileHdu (str "2")) tileTable ∧ natKeyword (tileCards (str "2")) (str "PCOUNT") = 2 :=
  tileTable_tileHdu (by decide +kernel) (by decide +kernel) (by unfold PcountFirst; decide +kernel)
    (by decide +kernel) (by decide)

example : tableDataBytes (tileCards (str "2")) = 18 := by decide +kernel

theorem tileTable_long :
    TileTable (tileHdu (str "3145729")) tileTable ∧
      natKeyword (tileCards (str "3145729")) (str "PCOUNT") = 3145729 :=
  tileTable_tileHdu (by decide +kernel) (by decide +kernel) (by unfold PcountFirst; decide +kernel)
    (by decide +kernel) (by decide)

/-- Tile 0 has byte 1 of the heap, tile 1 is empty. -/
def deadByteRows : Bytes := writeDescriptor .p 1 1 ++ writeDescriptor .p 0 0

example : deadByteRows = [0, 0, 0, 1, 0, 0, 0, 1, 0, 0, 0, 0, 0, 0, 0, 0] := by decide +kernel

/-- Tile 0 is the last byte of the heap, tile 1 its first 2 MiB. -/
def longRows : Bytes := writeDescriptor .p 1 3145728 ++ writeDescriptor .p 2097152 0

/-- The heap: 1 MiB of zeros, then ones. -/
def longHeap : Bytes := List.replicate 1048576 0 ++ List.replicate 2097153 1

example : (readDescriptor .p (longRows.take 8)).1 = 1 := by decide +kernel

end RustFits.CompressedImage
