import RustFits.CompressedTable.RepackRuns

/-!
# A repack of a compressed table keeps every cell

After a repack every descriptor leads to the data it led to, every read returns what it
did, PCOUNT is the number of live bytes and a second repack changes nothing, under the
condition `RepackSafe` on the table before it.

* `RepackKeeps` is the property of the state that a repack leaves.
* With variable-length columns a second repack stages the heap once more, in the padding
  if there is room (`vla_again`), so `RepackSafe` says what has to stand there.
* `repack_keeps_tableCells` is the result, for tables of fixed columns and for tables with
  variable-length columns, and `not_repackKeeps_longSlab` a table on which it fails: a
  blob of 2 MiB that moves up by one byte.
-/

namespace RustFits.CompressedTable

open Ascii ByteFile Machine BigEndian

/-! ## The property -/

/-- The table has a variable-length column. -/
def anyVla (columns : List Column) : Bool := columns.any fun column => column.varKind.isSome

/-- The compact heap. -/
def compactHeap (codec : Codec) (columns : List Column) (s : Fits) (h : Hdu) : Bytes :=
  match packTable codec columns s h with
  | .ok packed => packed.2
  | .error _ => []

/-- The bytes of the compact heap. -/
def compactBytes (codec : Codec) (columns : List Column) (s : Fits) (h : Hdu) : Nat :=
  (compactHeap codec columns s h).length

/-- What a repack should leave of the table `idx`, which becomes `h'`: only PCOUNT
changes in the header (so ZPCOUNT does not), and it is the number of live bytes; the
stored data, with the original descriptors, and all reads are as before; so are the
other HDUs; a second repack leaves the file as it is. -/
structure RepackKeeps (codec : Codec) (columns : List Column) (s : Fits) (idx : Nat) (h : Hdu)
    (s' : Fits) (h' : Hdu) : Prop where
  hdu : s'.hdus[idx]? = some h'
  offsets : h'.offsets = h.offsets
  header : ∀ key, (str "PCOUNT").isPrefixOf key = false →
    parseKeyword h'.cards key = parseKeyword h.cards key
  pcount : heapSize h' = liveBytes codec columns s' h'
  disk : heapSize h' = heapSize h ∨
    slice s'.bytes h.offsets.headerOffset (h.offsets.headerBlockCount * blockSize) =
      serializeHeaderToDiskBytes h'.cards
  stored : ∀ tile < natKeyword h.cards (str "NAXIS2"), ∀ col column, columns[col]? = some column →
    storedTile codec s' h' tile col column = storedTile codec s h tile col column
  reads : ∀ (Value : Type) (render : Render Value) (request : ReadRequest),
    Asks columns h.cards request →
      readHdu codec render columns idx fresh s' request =
        readHdu codec render columns idx fresh s request
  contiguous : Contiguous s'
  others : OthersKept idx s s'
  again : ∃ cleared, apply codec columns idx .repack s' = .ok cleared s'

/-- The file behind the compact heap, as a repack with variable-length columns leaves it
(the old heap, with the staged compact heap behind it), holds what the next one stages
there: the compact heap again, as far as the last block reaches. -/
def PaddingSettled (codec : Codec) (columns : List Column) (s : Fits) (h : Hdu) : Prop :=
  ∀ i < compactBytes codec columns s h,
    descBytes h + compactBytes codec columns s h + i <
        roundUpToBlock (descBytes h + compactBytes codec columns s h) →
      (tableHeap s h ++ compactHeap codec columns s h)[compactBytes codec columns s h + i]? =
        (compactHeap codec columns s h)[i]?

/-- When a repack keeps every cell.  The heap of a table without tiles or columns is not
emptied.  The new header is written right in front of the data, so the header must have
no block to spare.  A heap that is moved or rebuilt must be right behind the descriptors,
where a repack takes it to be.  The moves of fixed blobs must not overwrite what they
still read.  With variable-length columns the padding must be settled. -/
structure RepackSafe (codec : Codec) (columns : List Column) (s : Fits) (h : Hdu) : Prop where
  tiles : natKeyword h.cards (str "NAXIS2") = 0 ∨ columns = [] → heapSize h = 0
  blocks : compactBytes codec columns s h ≠ heapSize h →
    h.offsets.headerBlockCount = headerBlocks h.cards.length
  heap : heapSize h ≠ 0 → anyVla columns = true ∨ compactBytes codec columns s h ≠ heapSize h →
    heapBase h.cards = descBytes h
  moves : anyVla columns = false → compactBytes codec columns s h ≠ heapSize h →
    let plans := BinaryTable.sortPlans ((tablePlans s h columns).map MovePlan.move)
    let heapStart := h.offsets.dataOffset + descBytes h
    if BinaryTable.fastPathSafe (heapSize h) plans then
      BinaryTable.ForwardSafe heapStart plans s.bytes
    else BinaryTable.StagingSafe heapStart (heapSize h) plans s.bytes
  padding : anyVla columns = true → PaddingSettled codec columns s h

section

variable {s s' : Fits} {idx n : Nat} {h : Hdu} {columns : List Column} {codec : Codec}
    {table : Bytes}

/-! ## The state after a repack -/

theorem parseKeyword_repacked (h : Hdu) (n : Nat) {key : Str}
    (hkey : (str "PCOUNT").isPrefixOf key = false) :
    parseKeyword (repackedHdu h n).cards key = parseKeyword h.cards key :=
  parseKeyword_setPcount_other n hkey

theorem natKeyword_repacked (h : Hdu) (n : Nat) {key : Str}
    (hkey : (str "PCOUNT").isPrefixOf key = false) :
    natKeyword (repackedHdu h n).cards key = natKeyword h.cards key := by
  unfold natKeyword
  rw [parseKeyword_repacked h n hkey]

theorem shapeOf_repacked (h : Hdu) (n : Nat) :
    shapeOf (repackedHdu h n).cards = shapeOf h.cards := by
  unfold shapeOf
  rw [natKeyword_repacked h n (by decide), natKeyword_repacked h n (by decide),
    natKeyword_repacked h n (by decide), natKeyword_repacked h n (by decide)]

theorem descBytes_repacked (h : Hdu) (n : Nat) : descBytes (repackedHdu h n) = descBytes h := by
  unfold descBytes
  rw [natKeyword_repacked h n (by decide), natKeyword_repacked h n (by decide)]

theorem heapBase_repacked (h : Hdu) (n : Nat) :
    heapBase (repackedHdu h n).cards = heapBase h.cards := by
  unfold heapBase
  rw [parseKeyword_repacked h n (by decide), natKeyword_repacked h n (by decide),
    natKeyword_repacked h n (by decide)]

/-- The table with its new heap size. -/
theorem CompTable.repacked (ht : CompTable h columns)
    (hsize : descBytes h + n ≤ 9223372036854775807) :
    CompTable (repackedHdu h n) columns ∧ heapSize (repackedHdu h n) = n := by
  obtain ⟨ht', hfirst, hpcount⟩ := ht.heapTable.setPcount ht.pcountFirst hsize
  refine ⟨⟨ht'.standard, ht'.pcountCard, hfirst, ht'.fits, ?_, ?_, ?_⟩, hpcount⟩
  · rw [natKeyword_repacked h n (by decide)]
    exact ht.width
  · rw [natKeyword_repacked h n (by decide), natKeyword_repacked h n (by decide),
      natKeyword_repacked h n (by decide)]
    exact ht.covered
  · rw [natKeyword_repacked h n (by decide), natKeyword_repacked h n (by decide),
      natKeyword_repacked h n (by decide)]
    exact ht.needed

theorem Repacked.opened (hrep : Repacked s idx h table n s') (ho : Opened s idx h)
    (ht : CompTable h columns) (hsize : descBytes h + n ≤ 9223372036854775807) :
    Opened s' idx (repackedHdu h n) := by
  obtain ⟨ht', hpcount⟩ := ht.repacked hsize
  refine ⟨(hrep.window.contiguous_iff ho).2 ?_, hrep.window.hdu ho⟩
  rw [ht'.heapTable.dataEnd, descBytes_repacked]
  unfold heapSize at hpcount
  rw [hpcount]
  rfl

theorem Repacked.descTable (hrep : Repacked s idx h table n s') :
    descTable s' (repackedHdu h n) = table := by
  unfold CompressedTable.descTable
  rw [descBytes_repacked]
  exact hrep.table

theorem tableHeap_repacked (hpcount : heapSize (repackedHdu h n) = n) :
    tableHeap s' (repackedHdu h n) = slice s'.bytes (h.offsets.dataOffset + descBytes h) n := by
  unfold CompressedTable.tableHeap
  rw [descBytes_repacked, hpcount]
  rfl

/-- The header on disk is the new one when there is no block to spare, and only then. -/
theorem Repacked.disk_iff (hrep : Repacked s idx h table n s') (ho : Opened s idx h)
    (ht : CompTable h columns) :
    slice s'.bytes h.offsets.headerOffset (h.offsets.headerBlockCount * blockSize) =
        serializeHeaderToDiskBytes (repackedHdu h n).cards ↔
      h.offsets.headerBlockCount = headerBlocks h.cards.length := by
  constructor
  · intro hdisk
    have hbytes := congrArg List.length hdisk
    have hlen := hrep.window.le_length
    have hdata : h.offsets.dataOffset =
        h.offsets.headerOffset + h.offsets.headerBlockCount * blockSize := hrep.window.dataOffset
    have hmin : min (h.offsets.headerBlockCount * blockSize)
        (s'.bytes.length - h.offsets.headerOffset) =
          h.offsets.headerBlockCount * blockSize := Nat.min_eq_left (by omega)
    rw [slice_length, hmin, serialize_length, repackedHdu,
      BinaryTable.setPcount_length ht.pcountCard] at hbytes
    exact Nat.eq_of_mul_eq_mul_right (by decide : 0 < blockSize) hbytes
  · exact BinaryTable.header_of_finish ho ht.pcountCard hrep.header

/-- A repack keeps every cell when the stored data is in range and as before. -/
theorem Repacked.keeps (hgzip : LosslessGzip codec) (hrep : Repacked s idx h table n s')
    (ho : Opened s idx h) (ht : CompTable h columns) (hbase : heapBase h.cards = descBytes h)
    (hsize : descBytes h + n ≤ 9223372036854775807) (hin : TableInRange codec columns s h)
    (hin' : TableInRange codec columns s' (repackedHdu h n))
    (hlive : n = liveBytes codec columns s' (repackedHdu h n))
    (hdisk : n ≠ heapSize h → h.offsets.headerBlockCount = headerBlocks h.cards.length)
    (hstored : ∀ tile < natKeyword h.cards (str "NAXIS2"), ∀ col column,
      columns[col]? = some column → storedTile codec s' (repackedHdu h n) tile col column =
        storedTile codec s h tile col column)
    (hagain : ∃ cleared, apply codec columns idx .repack s' = .ok cleared s') :
    RepackKeeps codec columns s idx h s' (repackedHdu h n) := by
  obtain ⟨ht', hpcount⟩ := ht.repacked hsize
  have ho' := hrep.opened ho ht hsize
  refine ⟨ho'.hdu, rfl, fun key hkey => parseKeyword_repacked h n hkey, hpcount.trans hlive, ?_,
    hstored, fun Value render request hasks => ?_, ho'.contiguous,
    hrep.window.othersKept ho, hagain⟩
  · rw [hpcount]
    by_cases hne : n = heapSize h
    · exact Or.inl hne
    · exact Or.inr ((hrep.disk_iff ho ht).2 (hdisk hne))
  · have hbase' : heapBase (repackedHdu h n).cards = descBytes (repackedHdu h n) := by
      rw [heapBase_repacked, descBytes_repacked]
      exact hbase
    exact readHdu_of_stored hgzip.sized ho ho' ht ht' hbase hbase' (shapeOf_repacked h n) hin hin'
      hstored render hasks

/-- The repack method, on a table. -/
theorem apply_repack (hdu : s.hdus[idx]? = some h) :
    apply codec columns idx .repack s =
      if natKeyword h.cards (str "NAXIS2") = 0 ∨ columns.isEmpty ∨ heapSize h = 0 then .ok false s
      else if anyVla columns then
        repackCompressedTableHeapVla codec idx h.cards columns (natKeyword h.cards (str "NAXIS2"))
          (natKeyword h.cards (str "NAXIS1")) (heapSize h) h.offsets.dataOffset s
      else repackFixed idx h.cards columns.length (natKeyword h.cards (str "NAXIS2"))
        (natKeyword h.cards (str "NAXIS1")) (heapSize h) h.offsets.dataOffset s := by
  unfold apply
  rw [FileOp.get_bind, hdu]
  simp only
  unfold heapSize anyVla
  split_ifs <;> rfl

/-! ## Variable-length columns -/

/-- The recorded descriptors are those of the new regions. -/
theorem records_of_slices {descs : List ((Nat × Nat) × Nat × Nat)} {out : Bytes} {rowWidth : Nat}
    (hbound : out.length ≤ 9223372036854775807) (hle : ∀ d ∈ descs, d.2.1 + d.2.2 ≤ out.length)
    (hself : ∀ d ∈ descs, slice table (slotAt rowWidth d.1) 16 = writeDescriptor .q d.2.2 d.2.1) :
    Records table rowWidth descs := by
  intro d hd
  have := hle d hd
  rw [slotDesc, hself d hd, readDescriptor_q (by omega) (by omega)]
  rfl

/-- The table after a repack with variable-length columns. -/
structure VlaRepacked (codec : Codec) (columns : List Column) (s : Fits) (idx : Nat) (h : Hdu)
    (out : Bytes) (s' : Fits) : Prop where
  inRange : TableInRange codec columns s' (repackedHdu h out.length)
  live : out.length = liveBytes codec columns s' (repackedHdu h out.length)
  stored : ∀ tile < natKeyword h.cards (str "NAXIS2"), ∀ col column, columns[col]? = some column →
    storedTile codec s' (repackedHdu h out.length) tile col column =
      storedTile codec s h tile col column
  again : ∃ descs, packTable codec columns s' (repackedHdu h out.length) = .ok (descs, out) ∧
    ∀ table', table'.length = descBytes h →
      (∀ d ∈ descs, slice table' (slotAt (natKeyword h.cards (str "NAXIS1")) d.1) 16 =
        writeDescriptor .q d.2.2 d.2.1) → table' = descTable s' (repackedHdu h out.length)

/-- Two descriptor tables with the same descriptors. -/
theorem table_ext {f g : Bytes} {rowWidth ncols nTiles : Nat} (hwidth : rowWidth = ncols * 16)
    (hf : f.length = nTiles * rowWidth) (hg : g.length = nTiles * rowWidth)
    (hsame : ∀ cell ∈ tableCells nTiles ncols,
      slice f (slotAt rowWidth cell) 16 = slice g (slotAt rowWidth cell) 16) : f = g := by
  apply List.ext_getElem?
  intro i
  by_cases hi : i < nTiles * rowWidth
  · -- byte `i` lies in the slot of its tile and column
    have hpos : 0 < rowWidth := by
      rcases Nat.eq_zero_or_pos rowWidth with hz | hpos
      · rw [hz, Nat.mul_zero] at hi
        omega
      · exact hpos
    have htile : i / rowWidth < nTiles := (Nat.div_lt_iff_lt_mul hpos).2 hi
    have hrest := Nat.mod_lt i hpos
    have hcol : i % rowWidth / 16 < ncols := (Nat.div_lt_iff_lt_mul (by decide)).2 (by omega)
    have hrow := Nat.div_add_mod i rowWidth
    have hbyte := Nat.div_add_mod (i % rowWidth) 16
    have hcomm := Nat.mul_comm rowWidth (i / rowWidth)
    have heq := congrArg (fun l : Bytes => l[i % rowWidth % 16]?)
      (hsame (i / rowWidth, i % rowWidth / 16) (mem_tableCells.2 ⟨htile, hcol⟩))
    have hlt : i % rowWidth % 16 < 16 := Nat.mod_lt _ (by decide)
    simp only [slice_getElem?, if_pos hlt, slotAt] at heq
    rw [show i / rowWidth * rowWidth + i % rowWidth / 16 * 16 + i % rowWidth % 16 =
      i by omega] at heq
    exact heq
  · rw [List.getElem?_eq_none (by omega), List.getElem?_eq_none (by omega)]

theorem vlaRepacked_of_run (hgzip : LosslessGzip codec) (ho : Opened s idx h)
    (ht : CompTable h columns) (hin : TableInRange codec columns s h)
    {descs : List ((Nat × Nat) × Nat × Nat)} {out : Bytes}
    (hsize : descBytes h + out.length ≤ 9223372036854775807)
    (hpack : packTable codec columns s h = .ok (descs, out))
    (hrep : Repacked s idx h table out.length s')
    (hheap : slice s'.bytes (h.offsets.dataOffset + descBytes h) out.length = out)
    (hself : ∀ d ∈ descs, slice table (slotAt (natKeyword h.cards (str "NAXIS1")) d.1) 16 =
      writeDescriptor .q d.2.2 d.2.1) :
    VlaRepacked codec columns s idx h out s' := by
  obtain ⟨ht', hpcount⟩ := ht.repacked hsize
  have ho' := hrep.opened ho ht hsize
  obtain ⟨descs', out', hpack', horder, -, hpacked⟩ := @packBlobs_spec _ _ _ _ _ _ hgzip _ []
    fun cell hcell => (ht.cell_inRange ho hin hcell).2.2
  obtain ⟨rfl, rfl⟩ : descs' = descs ∧ out' = out := by
    have := hpack'.symm.trans hpack
    rw [Except.ok.injEq, Prod.mk.injEq] at this
    exact this
  have hpacked := hpacked (by omega)
  have hrecords : Records table (natKeyword h.cards (str "NAXIS1")) descs' :=
    records_of_slices (by omega) hpacked.le hself
  have htable := hrep.descTable
  have hheap' : tableHeap s' (repackedHdu h out'.length) = out' :=
    (tableHeap_repacked hpcount).trans hheap
  -- every cell has its new region
  have hcell : ∀ tile < natKeyword h.cards (str "NAXIS2"), ∀ col column,
      columns[col]? = some column → ∃ d ∈ descs', d.1 = (tile, col) := by
    intro tile htile col column hcolumn
    have hcol := (List.getElem?_eq_some_iff.1 hcolumn).1
    have hmem : (tile, col) ∈ descs'.map Prod.fst := by
      rw [horder]
      exact mem_tableCells.2 ⟨htile, hcol⟩
    exact List.mem_map.1 hmem
  refine ⟨?_, ?_, ?_, descs', ?_, ?_⟩
  · intro tile htile col column hcolumn
    rw [natKeyword_repacked h _ (by decide)] at htile
    obtain ⟨d, hd, hdc⟩ := hcell tile htile col column hcolumn
    have hb := (hpacked.blobs d hd column (by rw [hdc]; exact hcolumn) out' List.prefix_rfl).1
    have hdesc := hrecords d hd
    rw [hdc] at hb hdesc
    rw [hheap', htable, shapeOf_repacked, natKeyword_repacked h _ (by decide), hdesc]
    exact hb
  · have hlive := hpacked.live out' table List.prefix_rfl hrecords
    rw [List.length_nil, Nat.zero_add] at hlive
    unfold liveBytes
    rw [hheap', htable, shapeOf_repacked, natKeyword_repacked h _ (by decide),
      natKeyword_repacked h _ (by decide)]
    exact hlive
  · intro tile htile col column hcolumn
    obtain ⟨d, hd, hdc⟩ := hcell tile htile col column hcolumn
    have hb := (hpacked.blobs d hd column (by rw [hdc]; exact hcolumn) out' List.prefix_rfl).2
    have hdesc := hrecords d hd
    rw [hdc] at hb hdesc
    unfold storedTile
    rw [hheap', htable, shapeOf_repacked, natKeyword_repacked h _ (by decide), hdesc]
    exact hb
  · unfold packTable
    rw [hheap', htable, shapeOf_repacked, natKeyword_repacked h _ (by decide),
      natKeyword_repacked h _ (by decide)]
    exact hpacked.again out' table List.prefix_rfl hrecords
  · intro table' hlen hself'
    rw [htable]
    have hlen' : table.length = descBytes h := by
      have := ht'.descTable_length ho'
      rw [htable, descBytes_repacked] at this
      exact this
    refine table_ext ht.width hlen hlen' fun cell hcell' => ?_
    have hmem : cell ∈ descs'.map Prod.fst := by
      rw [horder]
      exact hcell'
    obtain ⟨d, hd, rfl⟩ := List.mem_map.1 hmem
    rw [hself' d hd, hself d hd]

/-- The rebuilt table has the header that a repack to the same size writes again. -/
theorem repackedHdu_again (ht : CompTable h columns) (n : Nat) :
    repackedHdu (repackedHdu h n) n = repackedHdu h n := by
  unfold repackedHdu
  rw [setPcount_again ht.pcountCard]

theorem Repacked.table_length (hrep : Repacked s idx h table n s') :
    table.length = descBytes h := by
  have hlen := hrep.window.le_length
  have hround := le_roundUpToBlock (descBytes h + n)
  rw [← hrep.table, slice_length]
  omega

/-- A repack that leaves the header, the descriptors, the heap and the padding leaves the
file. -/
theorem eq_of_repacked (ho : Opened s idx h) (ht : CompTable h columns)
    (hn : heapSize h = n) (hcards : repackedHdu h n = h)
    (hheader : slice s.bytes (h.offsets.dataOffset - BinaryTable.headerLength h n)
      (BinaryTable.headerLength h n) = serializeHeaderToDiskBytes (setPcountInCards h.cards n))
    (hrep : Repacked s idx h (descTable s h) n s')
    (hheap : slice s'.bytes (h.offsets.dataOffset + descBytes h) n = tableHeap s h)
    (hfront : ∀ i < h.offsets.dataOffset - BinaryTable.headerLength h n, s'.bytes[i]? = s.bytes[i]?)
    (hpad : ∀ i, heapEnd h ≤ i → i < h.dataEnd → s'.bytes[i]? = s.bytes[i]?) : s' = s := by
  have hend : h.offsets.dataOffset + roundUpToBlock (descBytes h + n) = h.dataEnd := by
    have := ht.heapTable.dataEnd
    unfold heapSize at hn
    rw [hn] at this
    exact this.symm
  have hw := hrep.window
  rw [hcards, hend] at hw
  have hround := le_roundUpToBlock (descBytes h + n)
  -- two slices at the same place agree byte by byte
  have hbyte : ∀ {off m i : Nat}, slice s'.bytes off m = slice s.bytes off m → off ≤ i →
      i < off + m → s'.bytes[i]? = s.bytes[i]? := by
    intro off m i heq hlo hhi
    have := congrArg (fun l : Bytes => l[i - off]?) heq
    simp only [slice_getElem?, if_pos (show i - off < m by omega)] at this
    rw [show off + (i - off) = i by omega] at this
    exact this
  have hhdus : s'.hdus = s.hdus := hw.hdus.trans ho.window.hdus.symm
  suffices hbytes : s'.bytes = s.bytes by
    cases s
    cases s'
    rw [Fits.mk.injEq]
    exact ⟨hbytes, hhdus⟩
  apply List.ext_getElem?
  intro i
  rcases Nat.lt_or_ge i h.dataEnd with hlt | hge
  · by_cases h1 : i < h.offsets.dataOffset - BinaryTable.headerLength h n
    · exact hfront i h1
    · by_cases h2 : i < h.offsets.dataOffset
      · exact hbyte (hrep.header.trans hheader.symm) (by omega) (by omega)
      · by_cases h3 : i < h.offsets.dataOffset + descBytes h
        · exact hbyte hrep.table (by omega) h3
        · rcases Nat.lt_or_ge i (heapEnd h) with hheapEnd | hrest
          · refine @hbyte (h.offsets.dataOffset + descBytes h) n i ?_ (by omega) ?_
            · rw [hheap, tableHeap, hn]
            · unfold heapEnd at hheapEnd
              omega
          · exact hpad i hrest hlt
  · have hback := congrArg (fun l : Bytes => l[i - h.dataEnd]?) hw.back
    simp only [List.getElem?_drop] at hback
    rw [show h.dataEnd + (i - h.dataEnd) = i by omega] at hback
    exact hback

/-- What stands behind the compact heap after a repack. -/
theorem padding_after (ho : Opened s idx h) (ht : CompTable h columns) {out : Bytes}
    (hpad : ∀ i, h.offsets.dataOffset + descBytes h + out.length ≤ i →
      i < h.offsets.dataOffset + roundUpToBlock (descBytes h + out.length) →
      i < h.dataEnd ∨ i < heapEnd h + out.length →
      s'.bytes[i]? = if heapEnd h ≤ i ∧ i < heapEnd h + out.length then out[i - heapEnd h]?
        else s.bytes[i]?) {i : Nat} (hi : i < heapSize h)
    (hblock : descBytes h + out.length + i < roundUpToBlock (descBytes h + out.length)) :
    s'.bytes[h.offsets.dataOffset + (descBytes h + out.length) + i]? =
      (tableHeap s h ++ out)[out.length + i]? := by
  have hheap := ht.tableHeap_length ho
  rw [hpad _ (by omega) (by omega) (Or.inr (by unfold heapEnd; omega))]
  by_cases hlt : out.length + i < heapSize h
  · rw [if_neg (by unfold heapEnd; omega), List.getElem?_append_left (by omega), tableHeap,
      slice_getElem?, if_pos hlt]
    congr 1
    omega
  · rw [if_pos (by unfold heapEnd; omega), List.getElem?_append_right (by omega), hheap]
    congr 1
    unfold heapEnd
    omega

/-- A second repack with variable-length columns stages the compact heap once more.  It
leaves the file when the padding holds these bytes, and only then. -/
theorem vla_again (hgzip : LosslessGzip codec) (ho : Opened s idx h) (ht : CompTable h columns)
    {out : Bytes} (hsize : descBytes h + out.length ≤ 9223372036854775807)
    (hvla : anyVla columns = true) (htiles : natKeyword h.cards (str "NAXIS2") ≠ 0)
    (hcols : columns ≠ []) (hrep : Repacked s idx h table out.length s')
    (hheap : slice s'.bytes (h.offsets.dataOffset + descBytes h) out.length = out)
    (hafter : VlaRepacked codec columns s idx h out s') :
    ∃ cleared s'', apply codec columns idx .repack s' = .ok cleared s'' ∧
      (s'' = s' ↔ ∀ i < out.length,
        descBytes h + out.length + i < roundUpToBlock (descBytes h + out.length) →
          s'.bytes[h.offsets.dataOffset + (descBytes h + out.length) + i]? = out[i]?) := by
  obtain ⟨ht', hpcount⟩ := ht.repacked hsize
  have ho' := hrep.opened ho ht hsize
  by_cases hz : heapSize (repackedHdu h out.length) = 0
  · -- an empty heap is left alone
    refine ⟨false, s', ?_, fun _ i hi => ?_, fun _ => rfl⟩
    · rw [apply_repack ho'.hdu, if_pos (Or.inr (Or.inr hz))]
    · omega
  · obtain ⟨descs₂, out₂, table₂, s'', hpack₂, hrun₂, hrep₂, hheap₂, hself₂, hfront₂, hpad₂⟩ :=
      repackVla_run hgzip ho' ht' hafter.inRange hz
    obtain ⟨descs', hpack', htable⟩ := hafter.again
    obtain ⟨rfl, rfl⟩ : descs' = descs₂ ∧ out = out₂ := by
      have := hpack'.symm.trans hpack₂
      rw [Except.ok.injEq, Prod.mk.injEq] at this
      exact this
    have hcond : ¬ (natKeyword (repackedHdu h out.length).cards (str "NAXIS2") = 0 ∨
        columns.isEmpty ∨ heapSize (repackedHdu h out.length) = 0) := by
      rw [natKeyword_repacked h _ (by decide)]
      simp [htiles, hcols, hz]
    have hend : (repackedHdu h out.length).dataEnd =
        h.offsets.dataOffset + roundUpToBlock (descBytes h + out.length) := by
      have hend := ht'.heapTable.dataEnd
      unfold heapSize at hpcount
      rw [hpcount, descBytes_repacked] at hend
      exact hend
    have hheapEnd : heapEnd (repackedHdu h out.length) =
        h.offsets.dataOffset + (descBytes h + out.length) := by
      rw [heapEnd, descBytes_repacked, hpcount, Nat.add_assoc]
      rfl
    rw [hheapEnd, hend, descBytes_repacked] at hpad₂
    have hplace : ∀ i, h.offsets.dataOffset + (descBytes h + out.length) ≤ i →
        i < h.offsets.dataOffset + roundUpToBlock (descBytes h + out.length) →
        s''.bytes[i]? = if h.offsets.dataOffset + (descBytes h + out.length) ≤ i ∧
            i < h.offsets.dataOffset + (descBytes h + out.length) + out.length then
          out[i - (h.offsets.dataOffset + (descBytes h + out.length))]? else s'.bytes[i]? :=
      fun i hlo hhi => hpad₂ i (by show h.offsets.dataOffset + _ + _ ≤ i; omega) hhi (Or.inl hhi)
    refine ⟨true, s'', ?_, fun hsame i hi hblock => ?_, fun hsettled => ?_⟩
    · rw [apply_repack ho'.hdu, if_neg hcond, if_pos hvla]
      exact hrun₂
    · have hbyte := hplace (h.offsets.dataOffset + (descBytes h + out.length) + i) (by omega)
        (by omega)
      rw [hsame, if_pos (by omega), Nat.add_sub_cancel_left] at hbyte
      exact hbyte
    · rw [natKeyword_repacked h _ (by decide)] at hself₂
      rw [descBytes_repacked] at hheap₂
      have htable₂ := htable table₂ (by rw [hrep₂.table_length, descBytes_repacked]) hself₂
      rw [htable₂] at hrep₂
      refine eq_of_repacked ho' ht' hpcount (repackedHdu_again ht out.length) ?_ hrep₂ ?_ hfront₂ ?_
      · have hlength : BinaryTable.headerLength (repackedHdu h out.length) out.length =
            BinaryTable.headerLength h out.length := by
          unfold BinaryTable.headerLength repackedHdu
          rw [setPcount_again ht.pcountCard]
        have hsame : setPcountInCards (repackedHdu h out.length).cards out.length =
            setPcountInCards h.cards out.length := setPcount_again ht.pcountCard _
        rw [hlength, hsame]
        exact hrep.header
      · rw [descBytes_repacked, tableHeap_repacked hpcount, hheap]
        exact hheap₂
      · intro i hlo hhi
        rw [hheapEnd] at hlo
        rw [hend] at hhi
        rw [hplace i hlo hhi]
        split_ifs with hstaged
        · have hbyte := hsettled (i - (h.offsets.dataOffset + (descBytes h + out.length)))
            (by omega) (by omega)
          rw [Nat.add_sub_cancel' hlo] at hbyte
          exact hbyte.symm
        · rfl

/-- A repack with variable-length columns keeps every cell, when the new header gets to
its place and the padding is settled. -/
theorem vla_exact (hgzip : LosslessGzip codec) (ho : Opened s idx h) (ht : CompTable h columns)
    (hin : TableInRange codec columns s h)
    (hsize : descBytes h + compactBytes codec columns s h ≤ 9223372036854775807)
    (hvla : anyVla columns = true) (htiles : natKeyword h.cards (str "NAXIS2") ≠ 0)
    (hcols : columns ≠ []) (hpos : heapSize h ≠ 0) :
    ∃ cleared s', apply codec columns idx .repack s = .ok cleared s' ∧
      (RepackSafe codec columns s h → ∃ h', RepackKeeps codec columns s idx h s' h') ∧
      ((∃ h', RepackKeeps codec columns s idx h s' h') → RepackSafe codec columns s h ∨
        heapBase h.cards ≠ descBytes h ∨ heapSize h < compactBytes codec columns s h) := by
  obtain ⟨descs, out, table, s', hpack, hrun, hrep, hheap, hself, hfront, hpad⟩ :=
    repackVla_run hgzip ho ht hin hpos
  have hout : compactHeap codec columns s h = out := by
    rw [compactHeap, hpack]
  have hcompact : compactBytes codec columns s h = out.length := by
    rw [compactBytes, hout]
  rw [hcompact] at hsize ⊢
  obtain ⟨ht', hpcount⟩ := ht.repacked hsize
  have ho' := hrep.opened ho ht hsize
  have hafter := vlaRepacked_of_run hgzip ho ht hin hsize hpack hrep hheap hself
  obtain ⟨cleared, s'', hrun₂, hsame⟩ :=
    vla_again hgzip ho ht hsize hvla htiles hcols hrep hheap hafter
  refine ⟨true, s', ?_, fun hsafe => ?_, fun hkeeps => ?_⟩
  · rw [apply_repack ho.hdu, if_neg (by simp [htiles, hcols, hpos]), if_pos hvla]
    exact hrun
  · refine ⟨_, hrep.keeps hgzip ho ht (hsafe.heap hpos (Or.inl hvla)) hsize hin hafter.inRange
      hafter.live ?_ hafter.stored ⟨cleared, ?_⟩⟩
    · intro hne
      exact hsafe.blocks (by rw [hcompact]; exact hne)
    · have hsettled : s'' = s' := hsame.2 fun i hi hblock => by
        have hbyte :=
          hsafe.padding hvla i (by rw [hcompact]; exact hi) (by rw [hcompact]; exact hblock)
        rw [hcompact, hout] at hbyte
        -- the byte is there, so the old heap reaches that far
        have hlt : out.length + i < (tableHeap s h ++ out).length := by
          by_contra hge
          rw [List.getElem?_eq_none (by omega), List.getElem?_eq_getElem hi] at hbyte
          cases hbyte
        rw [List.length_append, ht.tableHeap_length ho] at hlt
        rw [padding_after ho ht hpad (by omega) hblock, hbyte]
      rw [hsettled] at hrun₂
      exact hrun₂
  · obtain ⟨h', hkeeps⟩ := hkeeps
    obtain rfl : repackedHdu h out.length = h' := Option.some.inj (ho'.hdu.symm.trans hkeeps.hdu)
    by_cases hbase : heapBase h.cards = descBytes h
    swap
    · exact Or.inr (Or.inl hbase)
    by_cases hlong : heapSize h < out.length
    · exact Or.inr (Or.inr hlong)
    refine Or.inl ⟨fun hempty => ?_, fun hne => ?_, fun _ _ => hbase, fun hfixed => ?_, fun _ => ?_⟩
    · rcases hempty with hz | hz
      · exact absurd hz htiles
      · exact absurd hz hcols
    · rw [hcompact] at hne
      rcases hkeeps.disk with hsize' | hdisk
      · rw [hpcount] at hsize'
        exact absurd hsize' hne
      · exact (hrep.disk_iff ho ht).1 hdisk
    · rw [hvla] at hfixed
      cases hfixed
    · obtain ⟨cleared', hagain⟩ := hkeeps.again
      rw [hrun₂] at hagain
      have hleft : s'' = s' := by
        injection hagain
      intro i hi hblock
      rw [hcompact] at hi hblock ⊢
      rw [hout, ← padding_after ho ht hpad (by omega) hblock]
      exact hsame.1 hleft i hi hblock

/-! ## Fixed columns -/

theorem varKind_of_fixed (hfixed : anyVla columns = false) {col : Nat} {column : Column}
    (hcolumn : columns[col]? = some column) : column.varKind = none := by
  have hmem := List.mem_of_getElem? hcolumn
  have hnot := (List.any_eq_false.1 hfixed) column hmem
  simpa using hnot

/-- The compact heap of fixed blobs is as long as they are. -/
theorem packBlobs_fixed (hfixed : anyVla columns = false) {heap : Bytes} {rowWidth : Nat}
    {rowsIn : Nat → Nat} : ∀ {cells : List (Nat × Nat)} {out : Bytes},
    (∀ cell ∈ cells, ∃ column, columns[cell.2]? = some column ∧
      BlobInRange codec heap (rowsIn cell.1) (slotDesc table rowWidth cell) column) →
    ∃ descs out', packBlobs codec columns heap table rowWidth rowsIn cells out = .ok (descs, out') ∧
      out'.length = out.length + blobBytes table rowWidth cells := by
  intro cells
  induction cells with
  | nil =>
    intro out _
    exact ⟨[], out, rfl, rfl⟩
  | cons cell cells ih =>
    intro out hin
    obtain ⟨column, hcolumn, hb⟩ := hin cell List.mem_cons_self
    have hkind := varKind_of_fixed hfixed hcolumn
    have hcol : columnAt columns cell = .ok column := by rw [columnAt, hcolumn]
    have hlen := slice_length_of_inRange hb.region
    obtain ⟨new, out₁, hpack, hout₁⟩ : ∃ new out₁,
        packBlob codec heap (rowsIn cell.1) (slotDesc table rowWidth cell) column out =
          .ok (new, out₁) ∧
        out₁.length = out.length + (slotDesc table rowWidth cell).1.toNat := by
      unfold packBlob
      split_ifs with hz
      · exact ⟨_, _, rfl, by omega⟩
      · rw [hkind]
        exact ⟨_, _, rfl, by rw [List.length_append, hlen]⟩
    obtain ⟨descs, out', hrest, hout'⟩ := @ih out₁ fun c hc => hin c (List.mem_cons_of_mem _ hc)
    refine ⟨(cell, new) :: descs, out', ?_, by rw [blobBytes_cons, hout', hout₁, Nat.add_assoc]⟩
    rw [packBlobs, hcol]
    simp only [bind, Except.bind]
    rw [hpack]
    simp only
    rw [hrest]
    rfl

theorem compactBytes_fixed (ho : Opened s idx h) (ht : CompTable h columns)
    (hin : TableInRange codec columns s h) (hfixed : anyVla columns = false) :
    compactBytes codec columns s h = tableBytes s h columns := by
  obtain ⟨descs, out, hpack, hlen⟩ : ∃ descs out,
      packTable codec columns s h = .ok (descs, out) ∧
        out.length = ([] : Bytes).length + tableBytes s h columns :=
    packBlobs_fixed hfixed fun cell hcell => (ht.cell_inRange ho hin hcell).2.2
  rw [compactBytes, compactHeap, hpack]
  simp only
  rw [hlen, List.length_nil, Nat.zero_add]

/-- The live bytes of fixed columns are the lengths of their blobs. -/
theorem liveBytes_fixed (hfixed : anyVla columns = false) :
    liveBytes codec columns s h = tableBytes s h columns := by
  unfold liveBytes liveCells tableBytes blobBytes
  refine congrArg _ (List.map_congr_left fun cell hcell => ?_)
  have hcol := (mem_tableCells.1 hcell).2
  rw [List.getElem?_eq_getElem hcol]
  exact liveBlob_slab (varKind_of_fixed hfixed (List.getElem?_eq_getElem hcol))

/-- The descriptors after the moves of a table of fixed columns. -/
structure FixedRepacked (s : Fits) (h : Hdu) (columns : List Column) (table : Bytes) : Prop where
  moved : ∀ p ∈ tablePlans s h columns,
    slotDesc table (natKeyword h.cards (str "NAXIS1")) p.cell =
      ((p.length : Int), (p.newOffset : Int))
  empty : ∀ cell ∈ tableCells (natKeyword h.cards (str "NAXIS2")) columns.length,
    (slotDesc (descTable s h) (natKeyword h.cards (str "NAXIS1")) cell).1 = 0 →
    slotDesc table (natKeyword h.cards (str "NAXIS1")) cell =
      slotDesc (descTable s h) (natKeyword h.cards (str "NAXIS1")) cell

/-- A cell is empty and has kept its descriptor, or its blob was moved. -/
theorem FixedRepacked.cases (hf : FixedRepacked s h columns table) {cell : Nat × Nat}
    (hcell : cell ∈ tableCells (natKeyword h.cards (str "NAXIS2")) columns.length) :
    ((slotDesc (descTable s h) (natKeyword h.cards (str "NAXIS1")) cell).1 = 0 ∧
      slotDesc table (natKeyword h.cards (str "NAXIS1")) cell =
        slotDesc (descTable s h) (natKeyword h.cards (str "NAXIS1")) cell) ∨
    ∃ p ∈ tablePlans s h columns, p.cell = cell ∧
      slotDesc table (natKeyword h.cards (str "NAXIS1")) cell =
        ((p.length : Int), (p.newOffset : Int)) := by
  by_cases hz : (slotDesc (descTable s h) (natKeyword h.cards (str "NAXIS1")) cell).1 = 0
  · exact Or.inl ⟨hz, hf.empty cell hcell hz⟩
  · obtain ⟨p, hp, hpc⟩ := exists_livePlan hcell hz
    exact Or.inr ⟨p, hp, hpc, by rw [← hpc]; exact hf.moved p hp⟩

/-- A moved blob, before and after. -/
theorem plan_facts (ho : Opened s idx h) (ht : CompTable h columns)
    (hin : TableInRange codec columns s h) {p : MovePlan} (hp : p ∈ tablePlans s h columns) :
    p.cell ∈ tableCells (natKeyword h.cards (str "NAXIS2")) columns.length ∧
      slotDesc (descTable s h) (natKeyword h.cards (str "NAXIS1")) p.cell =
        ((p.length : Int), (p.oldOffset : Int)) ∧
      p.oldOffset + p.length ≤ heapSize h ∧ p.newOffset + p.length ≤ tableBytes s h columns := by
  obtain ⟨hcell, hne, hlen, hold, -, hnew⟩ := livePlans_mem hp
  obtain ⟨hn, hoff, hle⟩ := ht.desc_inRange ho hin hcell
  have := hle hne
  rw [Nat.zero_add] at hnew
  refine ⟨hcell, Prod.ext ?_ ?_, by omega, hnew⟩
  · show _ = (p.length : Int)
    omega
  · show _ = (p.oldOffset : Int)
    omega

section

variable (ho : Opened s idx h) (ht : CompTable h columns) (hin : TableInRange codec columns s h)
  (hfixed : anyVla columns = false)
  (hsize : descBytes h + tableBytes s h columns ≤ 9223372036854775807)
  (hrep : Repacked s idx h table (tableBytes s h columns) s')
  (hf : FixedRepacked s h columns table)

include ho ht hin hrep hf

/-- The lengths of the blobs are as before. -/
theorem tableBytes_repacked :
    tableBytes s' (repackedHdu h (tableBytes s h columns)) columns = tableBytes s h columns := by
  show blobBytes (descTable s' (repackedHdu h _)) _ _ = blobBytes (descTable s h) _ _
  rw [hrep.descTable, natKeyword_repacked h _ (by decide), natKeyword_repacked h _ (by decide)]
  unfold blobBytes
  refine congrArg _ (List.map_congr_left fun cell hcell => ?_)
  rcases hf.cases hcell with ⟨-, hsame⟩ | ⟨p, hp, hpc, hdesc⟩
  · rw [hsame]
  · have hold := (plan_facts ho ht hin hp).2.1
    rw [hpc] at hold
    rw [hdesc, hold]

include hfixed hsize

/-- The new descriptors are in range. -/
theorem inRange_fixed :
    TableInRange codec columns s' (repackedHdu h (tableBytes s h columns)) := by
  obtain ⟨ht', hpcount⟩ := ht.repacked hsize
  have ho' := hrep.opened ho ht hsize
  intro tile htile col column hcolumn
  rw [natKeyword_repacked h _ (by decide)] at htile
  have hcol := (List.getElem?_eq_some_iff.1 hcolumn).1
  have hkind := varKind_of_fixed hfixed hcolumn
  refine ⟨?_, fun _ kind hsome => by rw [hkind] at hsome; cases hsome⟩
  rw [ht'.tableHeap_length ho', hpcount, hrep.descTable, natKeyword_repacked h _ (by decide)]
  have hmem : (tile, col) ∈ tableCells (natKeyword h.cards (str "NAXIS2")) columns.length :=
    mem_tableCells.2 ⟨htile, hcol⟩
  rcases hf.cases hmem with ⟨hz, hsame⟩ | ⟨p, hp, -, hdesc⟩
  · have hold := ht.desc_inRange ho hin hmem
    rw [hsame]
    exact ⟨hold.1, hold.2.1, fun hne => absurd hz hne⟩
  · rw [hdesc]
    have hnew := (plan_facts ho ht hin hp).2.2.2
    exact ⟨Int.natCast_nonneg _, Int.natCast_nonneg _, fun _ => by
      rw [Int.toNat_natCast, Int.toNat_natCast]; exact hnew⟩

/-- The stored data is as before exactly when the blobs arrived. -/
theorem stored_fixed_iff :
    (∀ tile < natKeyword h.cards (str "NAXIS2"), ∀ col column, columns[col]? = some column →
      storedTile codec s' (repackedHdu h (tableBytes s h columns)) tile col column =
        storedTile codec s h tile col column) ↔
      BinaryTable.CellsKept (h.offsets.dataOffset + descBytes h)
        (BinaryTable.sortPlans ((tablePlans s h columns).map MovePlan.move)) s.bytes s'.bytes := by
  obtain ⟨ht', hpcount⟩ := ht.repacked hsize
  have hperm : (BinaryTable.sortPlans ((tablePlans s h columns).map MovePlan.move)).Perm
      ((tablePlans s h columns).map MovePlan.move) := List.mergeSort_perm _ _
  have htable := hrep.descTable
  have hheap := @tableHeap_repacked s' _ _ hpcount
  -- one cell: the slabs are slices of the two files
  have hcell : ∀ p ∈ tablePlans s h columns, ∀ column, columns[p.cell.2]? = some column →
      (storedTile codec s' (repackedHdu h (tableBytes s h columns)) p.cell.1 p.cell.2 column =
          storedTile codec s h p.cell.1 p.cell.2 column ↔
        ∀ q < p.length, s'.bytes[h.offsets.dataOffset + descBytes h + p.newOffset + q]? =
          s.bytes[h.offsets.dataOffset + descBytes h + p.oldOffset + q]?) := by
    intro p hp column hcolumn
    have hkind := varKind_of_fixed hfixed hcolumn
    obtain ⟨-, hold, holdLe, hnewLe⟩ := plan_facts ho ht hin hp
    unfold storedTile
    rw [storedBlob_slab hkind, storedBlob_slab hkind, htable, hheap,
      natKeyword_repacked h _ (by decide), hf.moved p hp, hold]
    simp only [Int.toNat_natCast]
    rw [slice_slice hnewLe, tableHeap, slice_slice holdLe]
    constructor
    · intro heq q hq
      have hbytes := congrArg (fun l : Bytes => l[q]?) (Stored.slab.inj (Except.ok.inj heq))
      simpa [slice_getElem?, hq] using hbytes
    · intro hsame
      refine congrArg (fun l => Except.ok (Stored.slab l)) (List.ext_getElem? fun q => ?_)
      rw [slice_getElem?, slice_getElem?]
      split_ifs with hq
      · exact hsame q hq
      · rfl
  constructor
  · intro hstored q hq
    obtain ⟨p, hp, rfl⟩ := List.mem_map.1 (hperm.mem_iff.1 hq)
    obtain ⟨htile, hcol⟩ := mem_tableCells.1 (plan_facts ho ht hin hp).1
    exact (hcell p hp _ (List.getElem?_eq_getElem hcol)).1
      (hstored _ htile _ _ (List.getElem?_eq_getElem hcol))
  · intro hkept tile htile col column hcolumn
    have hcol := (List.getElem?_eq_some_iff.1 hcolumn).1
    have hmem : (tile, col) ∈ tableCells (natKeyword h.cards (str "NAXIS2")) columns.length :=
      mem_tableCells.2 ⟨htile, hcol⟩
    rcases hf.cases hmem with ⟨hz, hsame⟩ | ⟨p, hp, hpc, -⟩
    · have hkind := varKind_of_fixed hfixed hcolumn
      unfold storedTile
      rw [storedBlob_slab hkind, storedBlob_slab hkind, htable, natKeyword_repacked h _ (by decide),
        hsame, hz]
      simp
    · have hp' := hkept p.move (hperm.mem_iff.2 (List.mem_map_of_mem hp))
      obtain ⟨rfl, rfl⟩ := Prod.mk.inj hpc
      exact (hcell p hp column hcolumn).2 hp'

/-- A second repack finds a heap that its blobs fill. -/
theorem repack_again (hmain : 0 < descBytes h) :
    apply codec columns idx .repack s' = .ok false s' := by
  obtain ⟨ht', hpcount⟩ := ht.repacked hsize
  have ho' := hrep.opened ho ht hsize
  have hfull := tableBytes_repacked ho ht hin hrep hf
  have hin' := inRange_fixed ho ht hin hfixed hsize hrep hf
  rw [apply_repack ho'.hdu]
  split_ifs with hempty hvla
  · rfl
  · rw [hfixed] at hvla
    cases hvla
  · rw [not_or, not_or] at hempty
    refine (repackFixed_run ho' ht' hin' hempty.2.2 ?_).1 (hfull.trans hpcount.symm)
    rw [descBytes_repacked]
    exact hmain

end

/-- A repack that changes nothing keeps every cell, when the heap is as long as the
live blobs. -/
theorem repackKeeps_refl (ho : Opened s idx h) (hlive : heapSize h = liveBytes codec columns s h)
    (hrun : apply codec columns idx .repack s = .ok false s) :
    RepackKeeps codec columns s idx h s h :=
  ⟨ho.hdu, rfl, fun _ _ => rfl, hlive, Or.inl rfl, fun _ _ _ _ _ => rfl, fun _ _ _ _ => rfl,
    ho.contiguous, OthersKept.refl idx s, false, hrun⟩

/-- A repack of fixed columns keeps every cell, when the new header gets to its place
and the moves overwrite nothing that they still read. -/
theorem fixed_exact (hgzip : LosslessGzip codec) (ho : Opened s idx h) (ht : CompTable h columns)
    (hin : TableInRange codec columns s h)
    (hsize : descBytes h + compactBytes codec columns s h ≤ 9223372036854775807)
    (hfixed : anyVla columns = false) (htiles : natKeyword h.cards (str "NAXIS2") ≠ 0)
    (hcols : columns ≠ []) (hpos : heapSize h ≠ 0) :
    ∃ cleared s', apply codec columns idx .repack s = .ok cleared s' ∧
      (RepackSafe codec columns s h → ∃ h', RepackKeeps codec columns s idx h s' h') ∧
      ((∃ h', RepackKeeps codec columns s idx h s' h') → RepackSafe codec columns s h ∨
        heapBase h.cards ≠ descBytes h) := by
  have hmain : 0 < descBytes h := by
    have hwidth : 0 < columns.length * 16 :=
      Nat.mul_pos (List.length_pos_iff.2 hcols) (by decide)
    rw [← ht.width] at hwidth
    exact Nat.mul_pos (Nat.pos_of_ne_zero htiles) hwidth
  have hcompact := compactBytes_fixed ho ht hin hfixed
  have happly : apply codec columns idx .repack s =
      repackFixed idx h.cards columns.length (natKeyword h.cards (str "NAXIS2"))
        (natKeyword h.cards (str "NAXIS1")) (heapSize h) h.offsets.dataOffset s := by
    rw [apply_repack ho.hdu, if_neg (by simp [htiles, hcols, hpos]), if_neg (by simp [hfixed])]
  have hempty : natKeyword h.cards (str "NAXIS2") = 0 ∨ columns = [] → heapSize h = 0 := by
    rintro (hz | hz)
    · exact absurd hz htiles
    · exact absurd hz hcols
  have hpadding : anyVla columns = true → PaddingSettled codec columns s h := fun hvla => by
    rw [hfixed] at hvla
    cases hvla
  obtain ⟨hsame, hmoved⟩ := repackFixed_run ho ht hin hpos hmain
  by_cases hfull : tableBytes s h columns = heapSize h
  · have hrun := happly.trans (hsame hfull)
    refine ⟨false, s, hrun, fun _ => ⟨h, ?_⟩, fun _ =>
      Or.inl ⟨hempty, fun hne => ?_, fun _ hmove => ?_, fun _ hne => ?_, hpadding⟩⟩
    · exact repackKeeps_refl ho ((liveBytes_fixed hfixed).trans hfull).symm hrun
    · exact absurd (hcompact.trans hfull) hne
    · rcases hmove with hvla | hne
      · rw [hfixed] at hvla
        cases hvla
      · exact absurd (hcompact.trans hfull) hne
    · exact absurd (hcompact.trans hfull) hne
  · obtain ⟨table, s', hrun, hrep, hself, hzero, hiff⟩ := hmoved hfull
    rw [hcompact] at hsize
    have hf : FixedRepacked s h columns table := by
      refine ⟨fun p hp => ?_, hzero⟩
      have hnew := (plan_facts ho ht hin hp).2.2.2
      rw [slotDesc, hself p hp, readDescriptor_q (by omega) (by omega)]
    have hstored := stored_fixed_iff ho ht hin hfixed hsize hrep hf
    have hne : compactBytes codec columns s h ≠ heapSize h := by
      rw [hcompact]
      exact hfull
    refine ⟨true, s', happly.trans hrun, fun hsafe =>
      ⟨repackedHdu h (tableBytes s h columns), ?_⟩, fun hkeeps => ?_⟩
    · refine hrep.keeps hgzip ho ht (hsafe.heap hpos (Or.inr hne)) hsize hin
        (inRange_fixed ho ht hin hfixed hsize hrep hf) ?_ (fun _ => hsafe.blocks hne)
        (hstored.2 (hiff.2 (hsafe.moves hfixed hne)))
        ⟨false, repack_again ho ht hin hfixed hsize hrep hf hmain⟩
      rw [liveBytes_fixed hfixed]
      exact (tableBytes_repacked ho ht hin hrep hf).symm
    · obtain ⟨h', hkeeps⟩ := hkeeps
      obtain ⟨ht', hpcount⟩ := ht.repacked hsize
      have hdu := (hrep.opened ho ht hsize).hdu
      obtain rfl : repackedHdu h (tableBytes s h columns) = h' :=
        Option.some.inj (hdu.symm.trans hkeeps.hdu)
      by_cases hbase : heapBase h.cards = descBytes h
      swap
      · exact Or.inr hbase
      refine Or.inl ⟨hempty, fun _ => ?_, fun _ _ => hbase,
        fun _ _ => hiff.1 (hstored.1 hkeeps.stored), hpadding⟩
      rcases hkeeps.disk with hsize' | hdisk
      · rw [hpcount] at hsize'
        exact absurd hsize' hfull
      · exact (hrep.disk_iff ho ht).1 hdisk

/-! ## The result -/

/-- All descriptors of an empty heap, and of a table without tiles or columns, are empty. -/
theorem desc_empty (ho : Opened s idx h) (ht : CompTable h columns)
    (hin : TableInRange codec columns s h)
    (hempty : natKeyword h.cards (str "NAXIS2") = 0 ∨ columns = [] ∨ heapSize h = 0) :
    ∀ cell ∈ tableCells (natKeyword h.cards (str "NAXIS2")) columns.length,
      (slotDesc (descTable s h) (natKeyword h.cards (str "NAXIS1")) cell).1 ≤ 0 := by
  intro cell hcell
  obtain ⟨htile, hcol⟩ := mem_tableCells.1 hcell
  obtain ⟨hnonneg, -, hle⟩ := ht.desc_inRange ho hin hcell
  rcases hempty with hz | rfl | hz
  · omega
  · exact absurd hcol (Nat.not_lt_zero _)
  · by_contra hpos
    have := hle (by omega)
    omega

/-- Empty blobs add nothing to the compact heap. -/
theorem packBlobs_empty {heap : Bytes} {rowWidth : Nat} {rowsIn : Nat → Nat} {out : Bytes} :
    ∀ {cells : List (Nat × Nat)}, (∀ cell ∈ cells, cell.2 < columns.length) →
      (∀ cell ∈ cells, (slotDesc table rowWidth cell).1 ≤ 0) →
      ∃ descs, packBlobs codec columns heap table rowWidth rowsIn cells out = .ok (descs, out) := by
  intro cells
  induction cells with
  | nil => exact fun _ _ => ⟨[], rfl⟩
  | cons cell cells ih =>
    intro hcols hzero
    obtain ⟨column, hcolumn⟩ : ∃ column, columnAt columns cell = .ok column :=
      ⟨_, by rw [columnAt, List.getElem?_eq_getElem (hcols cell List.mem_cons_self)]⟩
    obtain ⟨descs, hrest⟩ := ih (fun c hc => hcols c (List.mem_cons_of_mem _ hc))
      (fun c hc => hzero c (List.mem_cons_of_mem _ hc))
    refine ⟨(cell, (0, 0)) :: descs, ?_⟩
    rw [packBlobs, hcolumn]
    simp only [bind, Except.bind]
    rw [packBlob, if_pos (hzero cell List.mem_cons_self)]
    simp only
    rw [hrest]
    rfl

/-- An empty heap, and a table without tiles or columns, have no live bytes. -/
theorem live_empty (ho : Opened s idx h) (ht : CompTable h columns)
    (hin : TableInRange codec columns s h)
    (hempty : natKeyword h.cards (str "NAXIS2") = 0 ∨ columns = [] ∨ heapSize h = 0) :
    liveBytes codec columns s h = 0 ∧ compactBytes codec columns s h = 0 := by
  have hzero := desc_empty ho ht hin hempty
  constructor
  · refine List.sum_eq_zero_iff_forall_eq_nat.2 fun n hn => ?_
    obtain ⟨cell, hcell, rfl⟩ := List.mem_map.1 hn
    rw [List.getElem?_eq_getElem (mem_tableCells.1 hcell).2]
    exact liveBlob_empty (hzero cell hcell)
  · obtain ⟨descs, hpack⟩ : ∃ descs, packTable codec columns s h = .ok (descs, []) :=
      packBlobs_empty (fun cell hcell => (mem_tableCells.1 hcell).2) hzero
    rw [compactBytes, compactHeap, hpack]
    rfl

end

/-! ## Two small tables -/

def slabPrimary : List Card :=
  [str "SIMPLE  =                    T", str "BITPIX  =                    8",
    str "NAXIS   =                    0", endCard]

/-- The header of a table of one row, of a column of one byte and a column of `width`
bytes, with a heap of `pcount` bytes. -/
def slabCards (pcount rowWidth width : Str) : List Card :=
  [str "XTENSION= 'BINTABLE'", str "BITPIX  =                    8",
    str "NAXIS   =                    2", str "NAXIS1  =                   32",
    str "NAXIS2  =                    1", str "PCOUNT  =              " ++ pcount,
    str "GCOUNT  =                    1", str "TFIELDS =                    2",
    str "TTYPE1  = 'A       '", str "TFORM1  = '1QB     '", str "TTYPE2  = 'B       '",
    str "TFORM2  = '1QB     '", str "ZTABLE  =                    T",
    str "ZTILELEN=                    1", str "ZNAXIS1 =              " ++ rowWidth,
    str "ZNAXIS2 =                    1", str "ZPCOUNT =                    0",
    str "ZFORM1  = '1B      '", str "ZCTYP1  = 'GZIP_1  '", str "ZFORM2  = '" ++ width ++ str "B'",
    str "ZCTYP2  = 'GZIP_1  '", endCard]

def slabHdu (pcount rowWidth width : Str) : Hdu :=
  ⟨slabCards pcount rowWidth width, ⟨2880, 1, 5760⟩, .compressedTable⟩

def slabColumns (width : Nat) : List Column :=
  [⟨str "A", 0x42, 1, none⟩, ⟨str "B", 0x42, width, none⟩]

/-- A codec that stores slabs as they are. -/
def storedSlabs : Codec where
  encodeTableColumnSlab _ _ slab := .ok slab
  decompressColumnSlab _ _ blob := .ok blob
  encodeGzip1 bytes := .ok (1 :: bytes)
  gzipDecompressBytes blob n :=
    if (blob.drop 1).length = n then .ok (blob.drop 1) else .error (.value (str "gzip"))

theorem losslessGzip_storedSlabs : LosslessGzip storedSlabs := by
  refine ⟨fun z n b h => ?_, fun b => ⟨1 :: b, rfl⟩, fun b z h => ?_⟩
  · simp only [storedSlabs] at h
    split_ifs at h with hlen
    cases h
    exact hlen
  · cases h
    exact ⟨by simp, by simp [storedSlabs]⟩

/-- A file of a primary header and that table. -/
def slabFile (pcount rowWidth width : Str) (table heap : Bytes) : Fits where
  bytes := serializeHeaderToDiskBytes slabPrimary ++
    serializeHeaderToDiskBytes (slabCards pcount rowWidth width) ++
    (table ++ (heap ++ List.replicate (roundUpToBlock (32 + heap.length) - (32 + heap.length)) 0))
  hdus := [⟨slabPrimary, ⟨0, 1, 2880⟩, .image⟩, slabHdu pcount rowWidth width]

section

variable {pcount rowWidth width : Str} {table heap : Bytes}

theorem slabFile_length (htable : table.length = 32) :
    (slabFile pcount rowWidth width table heap).bytes.length =
      5760 + roundUpToBlock (32 + heap.length) := by
  have hround := le_roundUpToBlock (32 + heap.length)
  have hheaders : (serializeHeaderToDiskBytes slabPrimary ++
      serializeHeaderToDiskBytes (slabCards pcount rowWidth width)).length = 5760 := by
    simp [serialize_length, headerBlocks_eq, slabPrimary, slabCards]
  simp only [slabFile, List.length_append, List.length_replicate] at hheaders ⊢
  omega

theorem slabFile_drop : (slabFile pcount rowWidth width table heap).bytes.drop 5760 =
    table ++ (heap ++
      List.replicate (roundUpToBlock (32 + heap.length) - (32 + heap.length)) 0) := by
  refine List.drop_left' ?_
  simp [serialize_length, headerBlocks_eq, slabPrimary, slabCards]

theorem slabFile_heap (htable : table.length = 32) {i : Nat} (hi : i < heap.length) :
    (slabFile pcount rowWidth width table heap).bytes[5792 + i]? = heap[i]? := by
  rw [show 5792 + i = 5760 + (32 + i) by omega, ← List.getElem?_drop, slabFile_drop,
    List.getElem?_append_right (by omega), htable, Nat.add_sub_cancel_left,
    List.getElem?_append_left hi]

/-- The table, from the lookups in its header. -/
structure SlabTable (h : Hdu) (columns : List Column) (p : Nat) : Prop where
  table : CompTable h columns
  base : heapBase h.cards = descBytes h
  width : natKeyword h.cards (str "NAXIS1") = 32
  tiles : natKeyword h.cards (str "NAXIS2") = 1
  heap : heapSize h = p

theorem slabTable_of_lookups {p w : Nat}
    (hkeys : [str "BITPIX", str "NAXIS", str "GCOUNT", str "NAXIS1", str "NAXIS2", str "PCOUNT",
      str "ZNAXIS2", str "ZTILELEN", str "THEAP"].map
        (parseKeyword (slabCards pcount rowWidth width)) =
        [some 8, some 2, some 1, some 32, some 1, some (p : Int), some 1, some 1, none])
    (hcard : (cardIndex (str "PCOUNT") (slabCards pcount rowWidth width)).isSome)
    (hfirst : PcountFirst (slabCards pcount rowWidth width)) (hp : p ≤ 1000000000) :
    SlabTable (slabHdu pcount rowWidth width) (slabColumns w) p := by
  simp only [List.map_cons, List.map_nil, List.cons.injEq] at hkeys
  obtain ⟨hbitpix, hnaxis, hgcount, hnaxis1, hnaxis2, hpcount, hrows, htile, htheap, -⟩ := hkeys
  have h1 := natKeyword_of_some (n := 32) hnaxis1
  have h2 := natKeyword_of_some (n := 1) hnaxis2
  have hz := natKeyword_of_some (n := 1) hrows
  have hlen := natKeyword_of_some (n := 1) htile
  have hbytes : tableDataBytes (slabCards pcount rowWidth width) = 32 + p := by
    rw [tableDataBytes, h1, h2, natKeyword_of_some hpcount]
  have hstd : StandardTable (slabCards pcount rowWidth width) :=
    ⟨hbitpix, hnaxis, by rw [hgcount]; rfl, ⟨32, hnaxis1⟩, ⟨1, hnaxis2⟩, by omega⟩
  have hbase : heapBase (slabHdu pcount rowWidth width).cards =
      descBytes (slabHdu pcount rowWidth width) := by
    show heapBase (slabCards pcount rowWidth width) = _
    rw [heapBase, htheap]
    rfl
  have hfits : headerBlocks (slabHdu pcount rowWidth width).cards.length ≤
      (slabHdu pcount rowWidth width).offsets.headerBlockCount := by
    show headerBlocks 22 ≤ 1
    decide
  refine ⟨⟨hstd, hcard, hfirst, hfits, h1, ?_, ?_⟩, hbase, h1, h2, natKeyword_of_some hpcount⟩
  · show natKeyword (slabCards pcount rowWidth width) _ ≤
      natKeyword (slabCards pcount rowWidth width) _ * natKeyword
        (slabCards pcount rowWidth width) _
    simp [hz, h2, hlen]
  · show (natKeyword (slabCards pcount rowWidth width) _ - 1) *
      natKeyword (slabCards pcount rowWidth width) _ ≤
        natKeyword (slabCards pcount rowWidth width) _
    simp [h2]

theorem opened_slabFile {columns : List Column} (htable : table.length = 32)
    (ht : SlabTable (slabHdu pcount rowWidth width) columns heap.length) :
    Opened (slabFile pcount rowWidth width table heap) 1 (slabHdu pcount rowWidth width) := by
  refine ⟨⟨rfl, by decide, by decide, ?_⟩, rfl⟩
  rw [show Hdu.dataEnd ⟨slabPrimary, ⟨0, 1, 2880⟩, .image⟩ = 2880 by decide +kernel]
  refine ⟨rfl, Nat.one_pos, ?_, ?_⟩
  · show 5760 = 2880 + 1 * blockSize
    decide
  · show (slabHdu pcount rowWidth width).dataEnd = _
    have hheap : natKeyword (slabHdu pcount rowWidth width).cards (str "PCOUNT") = heap.length :=
      ht.heap
    have hend := ht.table.heapTable.dataEnd
    rw [hheap, descBytes, ht.width, ht.tiles] at hend
    exact hend.trans (slabFile_length htable).symm

end

section

variable {pcount rowWidth width : Str} {table heap : Bytes} {columns : List Column}

theorem descTable_slabFile (htable : table.length = 32)
    (ht : SlabTable (slabHdu pcount rowWidth width) columns heap.length) :
    descTable (slabFile pcount rowWidth width table heap)
      (slabHdu pcount rowWidth width) = table := by
  rw [descTable, descBytes, ht.width, ht.tiles]
  show slice _ 5760 32 = table
  rw [slice, slabFile_drop, List.take_left' htable]

/-- The descriptors of the two columns decide that all descriptors are in range. -/
theorem inRange_slabFile {w : Nat} (htable : table.length = 32)
    (ht : SlabTable (slabHdu pcount rowWidth width) (slabColumns w) heap.length)
    (h0 : DescInRange heap.length (slotDesc table 32 (0, 0)))
    (h1 : DescInRange heap.length (slotDesc table 32 (0, 1))) :
    TableInRange storedSlabs (slabColumns w) (slabFile pcount rowWidth width table heap)
      (slabHdu pcount rowWidth width) := by
  have ho := opened_slabFile htable ht
  intro tile htile col column hcolumn
  rw [ht.tiles] at htile
  obtain rfl : tile = 0 := by omega
  have hfixed : anyVla (slabColumns w) = false := rfl
  refine ⟨?_, fun _ kind hkind => by
    rw [varKind_of_fixed hfixed hcolumn] at hkind
    cases hkind⟩
  rw [ht.table.tableHeap_length ho, ht.heap, descTable_slabFile htable ht, ht.width]
  have hcol : col < 2 := (List.getElem?_eq_some_iff.1 hcolumn).1
  obtain rfl | rfl : col = 0 ∨ col = 1 := by omega
  · exact h0
  · exact h1

end

theorem slabTable_small : SlabTable (slabHdu (str "3") (str "2") (str "1")) (slabColumns 1) 3 :=
  slabTable_of_lookups (by decide +kernel) (by decide +kernel)
    (by unfold PcountFirst; decide +kernel) (by decide)

example : tableDataBytes (slabHdu (str "3") (str "2") (str "1")).cards = 35 := by decide +kernel

theorem slabTable_long :
    SlabTable (slabHdu (str "3145729") (str "2097153") (str "2097152")) (slabColumns 2097152)
      3145729 :=
  slabTable_of_lookups (by decide +kernel) (by decide +kernel)
    (by unfold PcountFirst; decide +kernel) (by decide)

/-- The first byte of the heap is dead, the columns have one byte each. -/
def deadByteTable : Bytes := writeDescriptor .q 1 1 ++ writeDescriptor .q 1 2

example : slotDesc deadByteTable 32 (0, 1) = (1, 2) := by decide +kernel

/-- Column A has the last byte of the heap, column B its first 2 MiB. -/
def longTable : Bytes := writeDescriptor .q 1 3145728 ++ writeDescriptor .q 2097152 0

/-- The heap: 1 MiB of zeros, then ones. -/
def longHeap : Bytes := List.replicate 1048576 0 ++ List.replicate 2097153 1

example : slotDesc longTable 32 (0, 0) = (1, 3145728) := by decide +kernel

end RustFits.CompressedTable
