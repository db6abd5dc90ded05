import RustFits.BinaryTable.RepackMoves

/-!
# The rebuilt heap

What a repack does to the file once its scan has found a different heap size.

* `BinTable` is the table at hand: a standard binary table as the parser finds it.
* `plans_of_table`: the plans of the table satisfy what the moves rely on.
* `rebuildHeap_spec` describes the state that the rebuild leaves (`Rebuilt`), with
  the one question that the moves leave open, whether the cells arrived.
-/

namespace RustFits.BinaryTable

open Ascii ByteFile Machine BigEndian

/-! ## The table -/

/-- A standard binary table with the columns and the heap of `table`, in a header
that has the blocks it needs. -/
structure BinTable (h : Hdu) (table : TableMeta) : Prop where
  standard : StandardTable h.cards
  pcountCard : (cardIndex (str "PCOUNT") h.cards).isSome
  pcountFirst : PcountFirst h.cards
  fits : headerBlocks h.cards.length ≤ h.offsets.headerBlockCount
  parsed : parseTableMeta h.cards = .ok table
  width : totalWidth table.columns < u64Size

/-- What a rebuild of the heap relies on: a standard table with `mainBytes` bytes of
rows, and a header that has its blocks. -/
structure HeapTable (h : Hdu) (mainBytes : Nat) : Prop where
  standard : StandardTable h.cards
  pcountCard : (cardIndex (str "PCOUNT") h.cards).isSome
  fits : headerBlocks h.cards.length ≤ h.offsets.headerBlockCount
  main : natKeyword h.cards (str "NAXIS1") * natKeyword h.cards (str "NAXIS2") = mainBytes

/-- The bytes of the rows. -/
def TableMeta.mainBytes (table : TableMeta) : Nat := table.nrows * table.rowWidth

/-- The rows of the table. -/
def tableRows (s : Fits) (h : Hdu) (table : TableMeta) : Bytes :=
  slice s.bytes h.offsets.dataOffset table.mainBytes

/-- The variable-length cells of the table, with their places in the compact
heap. -/
def tableHeapCells (s : Fits) (h : Hdu) (table : TableMeta) : List HeapCell :=
  heapCells (tableRows s h table) table.rowWidth (tableCells table.nrows table.columns) 0

/-- Every descriptor of the table lies in its heap. -/
def DescriptorsInRange (s : Fits) (h : Hdu) (table : TableMeta) : Prop :=
  InRange (tableRows s h table) table.rowWidth (natKeyword h.cards (str "PCOUNT"))
    (tableCells table.nrows table.columns)

section

variable {h : Hdu} {table : TableMeta}

theorem parseTableMeta_ok {cards : List Card} (h : parseTableMeta cards = .ok table) :
    parseColumns cards = .ok table.columns ∧ table.nrows = natKeyword cards (str "NAXIS2") ∧
      table.rowWidth = natKeyword cards (str "NAXIS1") ∧
      table.theap = ((parseKeyword cards (str "THEAP")).map Int.toNat).getD
        (table.nrows * table.rowWidth % u64Size) := by
  unfold parseTableMeta at h
  cases hc : parseColumns cards with
  | error e => simp [hc, Bind.bind, Except.bind] at h
  | ok columns =>
    simp only [hc, Bind.bind, Except.bind] at h
    cases h
    exact ⟨rfl, rfl, rfl, rfl⟩

theorem HeapTable.bytes {mainBytes : Nat} (ht : HeapTable h mainBytes) :
    tableDataBytes h.cards = mainBytes + natKeyword h.cards (str "PCOUNT") := by
  rw [tableDataBytes, ht.main]

theorem HeapTable.size {mainBytes : Nat} (ht : HeapTable h mainBytes) :
    mainBytes + natKeyword h.cards (str "PCOUNT") ≤ 9223372036854775807 := by
  rw [← ht.bytes]
  exact ht.standard.size

theorem HeapTable.dataEnd {mainBytes : Nat} (ht : HeapTable h mainBytes) :
    h.dataEnd = h.offsets.dataOffset +
      roundUpToBlock (mainBytes + natKeyword h.cards (str "PCOUNT")) := by
  rw [Hdu.dataEnd, Hdu.dataSize, dataSize_of_standard ht.standard, ht.bytes]

theorem BinTable.heapTable (ht : BinTable h table) : HeapTable h table.mainBytes := by
  obtain ⟨-, hn, hw, -⟩ := parseTableMeta_ok ht.parsed
  refine ⟨ht.standard, ht.pcountCard, ht.fits, ?_⟩
  rw [TableMeta.mainBytes, hn, hw, Nat.mul_comm]

theorem BinTable.size (ht : BinTable h table) :
    table.mainBytes + natKeyword h.cards (str "PCOUNT") ≤ 9223372036854775807 :=
  ht.heapTable.size

theorem BinTable.placed (ht : BinTable h table) : Placed 0 table.columns table.rowWidth := by
  obtain ⟨w, hw⟩ := ht.standard.naxis1
  obtain ⟨hc, -, hwidth, -⟩ := parseTableMeta_ok ht.parsed
  rw [hwidth, natKeyword_of_some hw]
  exact parseColumns_placed hc ht.width hw

theorem BinTable.dataEnd (ht : BinTable h table) :
    h.dataEnd = h.offsets.dataOffset +
      roundUpToBlock (table.mainBytes + natKeyword h.cards (str "PCOUNT")) :=
  ht.heapTable.dataEnd

theorem BinTable.saturatingMul (ht : BinTable h table) :
    saturatingMul table.nrows table.rowWidth = table.mainBytes := by
  have := ht.size
  exact saturatingMul_of_lt (by unfold TableMeta.mainBytes at this; unfold u64Size; omega)

/-- The THEAP cards that the repack refuses: it would put the heap in another place. -/
def TheapRefused (cards : List Card) (mainBytes : Nat) : Prop :=
  0 < (parseKeyword cards (str "THEAP")).getD 0 ∧
    ((parseKeyword cards (str "THEAP")).getD 0).toNat ≠ mainBytes

/-- Where the repack looks for the heap that it does not refuse. -/
theorem BinTable.heapBase (ht : BinTable h table) (hheap : ¬ TheapRefused h.cards table.mainBytes) :
    heapBaseInData h.cards = table.mainBytes := by
  obtain ⟨-, hn, hw, -⟩ := parseTableMeta_ok ht.parsed
  have hmul := ht.saturatingMul
  unfold heapBaseInData
  rw [← hn, ← hw, show Machine.saturatingMul table.rowWidth table.nrows = table.mainBytes by
    rw [← hmul, Machine.saturatingMul, Machine.saturatingMul, Nat.mul_comm]]
  unfold TheapRefused at hheap
  dsimp only
  split_ifs with hpos
  · exact not_not.1 fun hne => hheap ⟨hpos, hne⟩
  · rfl

/-- A heap that the readers find right behind the rows is not refused. -/
theorem BinTable.not_refused (ht : BinTable h table) (hdefault : table.theap = table.mainBytes) :
    ¬ TheapRefused h.cards table.mainBytes := by
  obtain ⟨-, -, -, htheap⟩ := parseTableMeta_ok ht.parsed
  rintro ⟨hpos, hne⟩
  cases hcard : parseKeyword h.cards (str "THEAP") with
  | none =>
    rw [hcard] at hpos
    exact absurd hpos (by decide)
  | some t =>
    rw [hcard] at htheap hne
    exact hne (htheap.symm.trans hdefault)

end

/-! ## The plans -/

section

variable {s : Fits} {idx : Nat} {h : Hdu} {table : TableMeta} {mainBytes : Nat}

theorem cell_inRange (hin : DescriptorsInRange s h table) {c : HeapCell}
    (hc : c ∈ tableHeapCells s h table) :
    DescriptorInRange (natKeyword h.cards (str "PCOUNT")) c.column.tformLetter
        (slotDescriptor (tableRows s h table) table.rowWidth c.row c.column c.kind) ∧
      c.row < table.nrows ∧ c.column ∈ table.columns ∧ c.column.varKind = some c.kind := by
  obtain ⟨hmem, hkind, -⟩ := heapCells_mem hc
  obtain ⟨hrow, hcolumn⟩ := mem_tableCells.1 hmem
  exact ⟨hin _ hmem c.kind hkind, hrow, hcolumn, hkind⟩

theorem cell_le (ht : BinTable h table) (hin : DescriptorsInRange s h table) {c : HeapCell}
    (hc : c ∈ tableHeapCells s h table) :
    c.oldOff + c.length ≤ natKeyword h.cards (str "PCOUNT") := by
  have hrange := (cell_inRange hin hc).1
  obtain ⟨-, -, hn, hoff, -⟩ := heapCells_mem hc
  have hsize := ht.size
  have hlen := hrange.length (by unfold u64Size; omega)
  rw [HeapCell.length, hn, hoff, hlen]
  exact hrange.fits

/-- The plans of the table. -/
theorem plans_of_table (ht : BinTable h table) (hin : DescriptorsInRange s h table) :
    Plans (natKeyword h.cards (str "PCOUNT")) (liveBytes (tableHeapCells s h table))
      (sortPlans (livePlans (tableHeapCells s h table))) := by
  have hperm : (sortPlans (livePlans (tableHeapCells s h table))).Perm
      (livePlans (tableHeapCells s h table)) := List.mergeSort_perm _ _
  have hpairs : (livePlans (tableHeapCells s h table)).Pairwise fun a b =>
      0 < a.length ∧ a.newOff + a.length ≤ b.newOff := by
    have hall : ((tableHeapCells s h table).map HeapCell.plan).Pairwise fun a b =>
        a.newOff + a.length ≤ b.newOff := by
      rw [List.pairwise_map]
      exact heapCells_pairwise
    have hlive : (livePlans (tableHeapCells s h table)).Pairwise fun a b =>
        a.newOff + a.length ≤ b.newOff := hall.filter _
    refine hlive.imp_of_mem fun {a b} ha _ hab => ⟨?_, hab⟩
    obtain ⟨c, -, hpos, rfl⟩ := mem_livePlans.1 ha
    exact hpos
  refine ⟨sortPlans_pairwise (hpairs.imp fun hab => by omega), ?_, ?_, ?_, ?_⟩
  · have hsymm : ∀ {a b : MovePlan}, PlanApart a b → PlanApart b a := fun hab => Or.symm hab
    exact (hperm.pairwise_iff hsymm).2 (hpairs.imp fun hab => Or.inl hab.2)
  · intro p hp
    obtain ⟨c, hc, -, rfl⟩ := mem_livePlans.1 (hperm.mem_iff.1 hp)
    exact cell_le ht hin hc
  · intro p hp
    obtain ⟨c, hc, -, rfl⟩ := mem_livePlans.1 (hperm.mem_iff.1 hp)
    have := (heapCells_mem hc).2.2.2.2.2
    rw [Nat.zero_add] at this
    exact this
  · have hfull : liveBytes (tableHeapCells s h table) = 0 ∨ ∃ c ∈ tableHeapCells s h table,
        0 < c.length ∧ c.newOff + c.length = 0 + liveBytes (tableHeapCells s h table) :=
      heapCells_full
    rcases hfull with hzero | ⟨c, hc, hpos, hend⟩
    · exact Or.inl hzero
    · rw [Nat.zero_add] at hend
      exact Or.inr ⟨c.plan, hperm.mem_iff.2 (mem_livePlans.2 ⟨c, hc, hpos, rfl⟩), hend⟩

/-- The scan of the table. -/
theorem scan_table (ho : Opened s idx h) (ht : BinTable h table)
    (hin : DescriptorsInRange s h table) :
    ∃ rows', (tableCells table.nrows table.columns).foldlM
          (scanCell table.rowWidth (natKeyword h.cards (str "PCOUNT")))
            ⟨tableRows s h table, [], 0⟩ =
        .ok ⟨rows', livePlans (tableHeapCells s h table), liveBytes (tableHeapCells s h table)⟩ ∧
      Rewritten table.rowWidth (tableCells table.nrows table.columns)
        (tableRows s h table) 0 rows' := by
  have hsize := ht.size
  have hend := ho.dataEnd_le
  have hround := le_roundUpToBlock (table.mainBytes + natKeyword h.cards (str "PCOUNT"))
  rw [ht.dataEnd] at hend
  have hrows : (tableRows s h table).length = table.mainBytes := by
    rw [tableRows, slice_length]
    omega
  have hpcount : natKeyword h.cards (str "PCOUNT") < u64Size := by
    unfold u64Size
    omega
  have hscan := @scan_spec _ _ hpcount (tableCells table.nrows table.columns)
    (tableRows s h table) [] 0 (tableCells_pairwise ht.placed) (fun cell hcell => by
      obtain ⟨hrow, hcolumn⟩ := mem_tableCells.1 hcell
      rw [hrows]
      exact ⟨slot_le ht.placed hrow hcolumn, ((placed_mem ht.placed).2 _ hcolumn).2.2⟩) hin
  rw [List.nil_append, Nat.zero_add] at hscan
  exact hscan

/-! ## The rebuilt heap -/

/-- The moves, whichever way, keep the window and the bytes outside the heap. -/
theorem moveCells_spec (ho : Opened s idx h) (ht : HeapTable h mainBytes) {newPcount : Nat}
    {plans : List MovePlan} (hpos : 0 < natKeyword h.cards (str "PCOUNT"))
    (hplans : Plans (natKeyword h.cards (str "PCOUNT")) newPcount plans) :
    ∃ hi s₁, moveCells h.offsets.dataOffset mainBytes
          (h.offsets.dataOffset + mainBytes) (natKeyword h.cards (str "PCOUNT")) newPcount plans s =
        .ok hi s₁ ∧
      Window s idx h h hi s₁ ∧ h.offsets.dataOffset + roundUpToBlock (mainBytes + newPcount) ≤ hi ∧
      (CellsKept (h.offsets.dataOffset + mainBytes) plans s.bytes s₁.bytes ↔
        if fastPathSafe (natKeyword h.cards (str "PCOUNT")) plans then
          ForwardSafe (h.offsets.dataOffset + mainBytes) plans s.bytes
        else StagingSafe (h.offsets.dataOffset + mainBytes)
          (natKeyword h.cards (str "PCOUNT")) plans s.bytes) := by
  have hw := ho.window
  have hdata := hw.headerOffset_lt
  have hlen := hw.le_length
  have hround := le_roundUpToBlock (mainBytes + natKeyword h.cards (str "PCOUNT"))
  have hendeq := ht.dataEnd
  generalize natKeyword h.cards (str "PCOUNT") = pcount at *
  unfold moveCells
  split_ifs with hsafe
  · obtain ⟨f', hrun, ⟨hlen', hkeep⟩, hiff⟩ := moveInPlace_spec hplans hsafe
      (show h.offsets.dataOffset + mainBytes + pcount ≤ s.bytes.length by omega)
    refine ⟨h.offsets.dataOffset + roundUpToBlock (mainBytes + pcount), ⟨f', s.hdus⟩, ?_, ?_, ?_,
      hiff⟩
    · rw [FileOp.bind_ok hrun]
      rfl
    · rw [← hendeq]
      exact hw.replace hlen' fun i hi => hkeep i (by omega)
    · have hle : newPcount ≤ pcount := by
        rcases hplans.full with hzero | ⟨p, hp, hend⟩
        · omega
        · have := fastPathSafe_le hsafe hplans.old p hp
          omega
      have := roundUpToBlock_mono (show mainBytes + newPcount ≤ mainBytes + pcount by omega)
      omega
  · have hmono := roundUpToBlock_mono
      (show mainBytes + pcount ≤ mainBytes + pcount + newPcount by omega)
    have hmono' := roundUpToBlock_mono
      (show mainBytes + newPcount ≤ mainBytes + pcount + newPcount by omega)
    have hstage := le_roundUpToBlock (mainBytes + pcount + newPcount)
    obtain ⟨s₁, hgrow, hw₁, htake⟩ := hw.grow ho (Or.inl (by omega))
      (mainBytes + pcount + newPcount)
    rw [Nat.max_eq_right (by omega)] at hw₁
    have hlen₁ := hw₁.le_length
    have hsame : ∀ i < h.dataEnd, s₁.bytes[i]? = s.bytes[i]? := fun i hi => by
      rw [← List.getElem?_take_of_lt hi, htake, List.getElem?_take_of_lt hi]
    obtain ⟨f₁, hto, ⟨hlenTo, hkeepTo⟩, hstaged⟩ := copyToStaging_spec hplans
      (show h.offsets.dataOffset + mainBytes + pcount + newPcount ≤ s₁.bytes.length by omega)
    have hstaged' : ∀ p ∈ plans, ∀ q < p.length,
        f₁[h.offsets.dataOffset + mainBytes + pcount + p.newOff + q]? =
          s.bytes[h.offsets.dataOffset + mainBytes + p.oldOff + q]? := by
      intro p hp q hq
      have := hplans.old p hp
      rw [hstaged p hp q hq, hsame _ (by omega)]
    obtain ⟨f', hfrom, ⟨hlenFrom, hkeepFrom⟩, hiff⟩ := copyFromStaging_spec hplans hpos
      (show h.offsets.dataOffset + mainBytes + pcount + newPcount ≤ f₁.length by omega) hstaged'
    refine ⟨h.offsets.dataOffset + roundUpToBlock (mainBytes + pcount + newPcount),
      ⟨f', s₁.hdus⟩, ?_, ?_, by omega, hiff⟩
    · have hrunTo : (plans.forM fun plan => streamCopyInFile shiftChunk
          (h.offsets.dataOffset + mainBytes + plan.oldOff)
          (h.offsets.dataOffset + mainBytes + pcount + plan.newOff) plan.length) s₁ =
            .ok () ⟨f₁, s₁.hdus⟩ := forM_copies (fun p s f hcopy => streamCopy_of_copy hcopy) hto
      have hrunFrom : (plans.forM fun plan => streamCopyInFile shiftChunk
          (h.offsets.dataOffset + mainBytes + pcount + plan.newOff)
          (h.offsets.dataOffset + mainBytes + plan.newOff) plan.length) ⟨f₁, s₁.hdus⟩ =
            .ok () ⟨f', s₁.hdus⟩ := @forM_copies
              (MovePlan.fromStaging (h.offsets.dataOffset + mainBytes) pcount) _ _
              (fun p s f hcopy => streamCopy_of_copy hcopy) plans ⟨f₁, s₁.hdus⟩ hfrom
      have hstagedRun : moveStaged h.offsets.dataOffset mainBytes
          (h.offsets.dataOffset + mainBytes) pcount newPcount plans s = .ok () ⟨f', s₁.hdus⟩ := by
        unfold moveStaged
        rw [FileOp.bind_ok hgrow, FileOp.bind_ok hrunTo]
        exact hrunFrom
      rw [FileOp.bind_ok hstagedRun]
      rfl
    · refine hw₁.replace (hlenFrom.trans hlenTo) fun i hi => ?_
      rw [hkeepFrom i (by omega), hkeepTo i (by omega)]

theorem setPcount_length (hcard : (cardIndex (str "PCOUNT") h.cards).isSome) (n : Nat) :
    (setPcountInCards h.cards n).length = h.cards.length := by
  obtain ⟨i, hi⟩ := Option.isSome_iff_exists.1 hcard
  exact setCard_length_of_some hi

/-- The table with its new heap size. -/
theorem HeapTable.setPcount (ht : HeapTable h mainBytes) (hfirst : PcountFirst h.cards) {n : Nat}
    (hsize : mainBytes + n ≤ 9223372036854775807) :
    HeapTable { h with cards := setPcountInCards h.cards n } mainBytes ∧
      PcountFirst (setPcountInCards h.cards n) ∧
      natKeyword (setPcountInCards h.cards n) (str "PCOUNT") = n := by
  obtain ⟨r, hr⟩ := ht.standard.naxis2
  have hother : ∀ key, (str "PCOUNT").isPrefixOf key = false →
      parseKeyword (setPcountInCards h.cards n) key = parseKeyword h.cards key :=
    fun key hkey => parseKeyword_setPcount_other n hkey
  have hpcount : parseKeyword (setPcountInCards h.cards n) (str "PCOUNT") = some (n : Int) := by
    rw [parseKeyword_setPcount_self hfirst, asI64_of_le (by omega)]
  have hrows : natKeyword h.cards (str "NAXIS1") * r = mainBytes := by
    rw [← ht.main, natKeyword_of_some hr]
  obtain ⟨hstd, -⟩ := standard_of_counts ht.standard
    (fun key hkey => hother key (by
      simp only [List.mem_cons, List.not_mem_nil, or_false] at hkey
      rcases hkey with rfl | rfl | rfl | rfl <;> decide))
    ((hother (str "NAXIS2") (by decide)).trans hr) hpcount (by rw [hrows]; exact hsize)
  obtain ⟨hcard, hfirst'⟩ := pcountFirst_setPcount ht.pcountCard hfirst n
  refine ⟨⟨hstd, hcard, ?_, ?_⟩, hfirst', natKeyword_of_some hpcount⟩
  · show headerBlocks (setPcountInCards h.cards n).length ≤ _
    rw [setPcount_length ht.pcountCard]
    exact ht.fits
  · show natKeyword (setPcountInCards h.cards n) (str "NAXIS1") *
      natKeyword (setPcountInCards h.cards n) (str "NAXIS2") = mainBytes
    unfold natKeyword
    rw [hother _ (by decide), hother _ (by decide)]
    exact ht.main

/-- The bytes of the header with the heap size `n`. -/
def headerLength (h : Hdu) (n : Nat) : Nat :=
  (serializeHeaderToDiskBytes (setPcountInCards h.cards n)).length

/-- What follows the moves: the rows, the tail of the file, which `shrink` moves up to
the end of the compact heap, and the header, which is written right in front of the
data. -/
theorem finish_run (ho : Opened s idx h) (ht : HeapTable h mainBytes) {rows : Bytes} {s₁ : Fits}
    {hi newPcount : Nat} {shrink : FileOp Unit} (hw₁ : Window s idx h h hi s₁)
    (hrows : rows.length = mainBytes)
    (hend : h.offsets.dataOffset + roundUpToBlock (mainBytes + newPcount) ≤ hi)
    (hshrink : ∀ t, Window s idx h h hi t → ∃ t', shrink t = .ok () t' ∧
      Window s idx h h (h.offsets.dataOffset + roundUpToBlock (mainBytes + newPcount)) t' ∧
      ∀ i < h.offsets.dataOffset + roundUpToBlock (mainBytes + newPcount),
        t'.bytes[i]? = t.bytes[i]?) :
    ∃ s', (do
        writeAt h.offsets.dataOffset rows
        shrink
        writeHeaderBefore h.offsets.dataOffset (setPcountInCards h.cards newPcount)
        commitCards idx (setPcountInCards h.cards newPcount) : FileOp Unit) s₁ = .ok () s' ∧
      Window s idx h { h with cards := setPcountInCards h.cards newPcount }
        (h.offsets.dataOffset + roundUpToBlock (mainBytes + newPcount)) s' ∧
      (∀ i < h.offsets.dataOffset - headerLength h newPcount, s'.bytes[i]? = s₁.bytes[i]?) ∧
      slice s'.bytes (h.offsets.dataOffset - headerLength h newPcount) (headerLength h newPcount) =
        serializeHeaderToDiskBytes (setPcountInCards h.cards newPcount) ∧
      ∀ i, h.offsets.dataOffset ≤ i →
        i < h.offsets.dataOffset + roundUpToBlock (mainBytes + newPcount) →
        s'.bytes[i]? = if i < h.offsets.dataOffset + mainBytes then
          rows[i - h.offsets.dataOffset]? else s₁.bytes[i]? := by
  have hround := le_roundUpToBlock (mainBytes + newPcount)
  have hstart := hw₁.headerOffset_lt
  have hlen₁ := hw₁.le_length
  have hw₂ := hw₁.write (show h.offsets.headerOffset ≤ h.offsets.dataOffset by omega)
    (show h.offsets.dataOffset + rows.length ≤ hi by omega)
  obtain ⟨s₃, hshrunk, hw₃, hsame₃⟩ := hshrink _ hw₂
  have hlen₃ := hw₃.le_length
  have hdata := hw₁.dataOffset
  have hheader : (serializeHeaderToDiskBytes (setPcountInCards h.cards newPcount)).length =
      headerBlocks h.cards.length * blockSize := by
    rw [serialize_length, setPcount_length ht.pcountCard]
    rfl
  have hfits : headerBlocks h.cards.length * blockSize ≤
      h.offsets.headerBlockCount * blockSize := Nat.mul_le_mul_right _ ht.fits
  generalize hplace : h.offsets.dataOffset -
    (serializeHeaderToDiskBytes (setPcountInCards h.cards newPcount)).length = place
  have hlo : h.offsets.headerOffset ≤ place := by omega
  have hhi : place + (serializeHeaderToDiskBytes (setPcountInCards h.cards newPcount)).length =
      h.offsets.dataOffset := by omega
  have hw₄ := hw₃.write hlo (show place +
    (serializeHeaderToDiskBytes (setPcountInCards h.cards newPcount)).length ≤ _ by omega)
  obtain ⟨s', hcommit, hbytes, hw'⟩ := hw₄.commit ho (setPcountInCards h.cards newPcount)
  refine ⟨s', ?_, hw', ?_, ?_, ?_⟩
  · rw [FileOp.bind_ok (writeAt_eq s₁ _ _), FileOp.bind_ok hshrunk]
    unfold writeHeaderBefore
    simp only [hplace]
    rw [FileOp.bind_ok (writeAt_eq s₃ _ _)]
    exact hcommit
  · intro i hi
    unfold headerLength at hi
    rw [hplace] at hi
    rw [hbytes, writeAll_getElem? (by omega), if_neg (by omega), hsame₃ i (by omega),
      writeAll_getElem? (by omega), if_neg (by omega)]
  · unfold headerLength
    rw [hplace, hbytes]
    exact slice_writeAll_self (by omega)
  · intro i hlo hhi
    rw [hbytes, writeAll_getElem? (by omega), if_neg (by omega), hsame₃ i hhi,
      writeAll_getElem? (by omega)]
    split_ifs <;> first | rfl | omega

/-- A header without a block to spare is written in its place. -/
theorem header_of_finish (ho : Opened s idx h) (hcard : (cardIndex (str "PCOUNT") h.cards).isSome)
    {f : Bytes} {n : Nat}
    (hheader : slice f (h.offsets.dataOffset - headerLength h n) (headerLength h n) =
      serializeHeaderToDiskBytes (setPcountInCards h.cards n))
    (hblocks : h.offsets.headerBlockCount = headerBlocks h.cards.length) :
    slice f h.offsets.headerOffset (h.offsets.headerBlockCount * blockSize) =
      serializeHeaderToDiskBytes (setPcountInCards h.cards n) := by
  obtain ⟨-, -, hdata, -⟩ := ho.chain
  have hlength : headerLength h n = h.offsets.headerBlockCount * blockSize := by
    rw [headerLength, serialize_length, setPcount_length hcard, hblocks]
    rfl
  have hplace : h.offsets.headerOffset = h.offsets.dataOffset - headerLength h n := by omega
  rw [hplace, ← hlength]
  exact hheader

/-- A header that fills its blocks on disk has no block to spare. -/
theorem blocks_of_header {s' : Fits} {hi n : Nat}
    (hw : Window s idx h { h with cards := setPcountInCards h.cards n } hi s')
    (hcard : (cardIndex (str "PCOUNT") h.cards).isSome) (hhi : h.offsets.dataOffset ≤ hi)
    (hdisk : slice s'.bytes h.offsets.headerOffset (h.offsets.headerBlockCount * blockSize) =
      serializeHeaderToDiskBytes (setPcountInCards h.cards n)) :
    h.offsets.headerBlockCount = headerBlocks h.cards.length := by
  have hlen := hw.le_length
  have hdata : h.offsets.dataOffset =
      h.offsets.headerOffset + h.offsets.headerBlockCount * blockSize := hw.dataOffset
  have hbytes := congrArg List.length hdisk
  rw [slice_length, serialize_length, setPcount_length hcard, Nat.min_eq_left (by omega)] at hbytes
  exact Nat.eq_of_mul_eq_mul_right (by decide : 0 < blockSize) hbytes

/-- The new rows are in front of the heap. -/
theorem rows_of_finish {f f₁ rows : Bytes} {dataOffset hi : Nat} (hrows : rows.length = mainBytes)
    (hhi : dataOffset + mainBytes ≤ hi)
    (hfinal : ∀ i, dataOffset ≤ i → i < hi →
      f[i]? = if i < dataOffset + mainBytes then rows[i - dataOffset]? else f₁[i]?) :
    slice f dataOffset mainBytes = rows := by
  apply List.ext_getElem?
  intro i
  rw [slice_getElem?]
  split_ifs with hlt
  · rw [hfinal _ (by omega) (by omega), if_pos (by omega), Nat.add_sub_cancel_left]
  · exact (List.getElem?_eq_none (by omega)).symm

/-- The rebuild: the moves, then the rest. -/
theorem rebuildHeap_run (ho : Opened s idx h) (ht : HeapTable h mainBytes) {rows : Bytes}
    {plans : List MovePlan} {newPcount : Nat} (hpos : 0 < natKeyword h.cards (str "PCOUNT"))
    (hrows : rows.length = mainBytes)
    (hplans : Plans (natKeyword h.cards (str "PCOUNT")) newPcount (sortPlans plans)) :
    ∃ s', rebuildHeap idx h.cards h.offsets.dataOffset mainBytes
          (h.offsets.dataOffset + mainBytes) (natKeyword h.cards (str "PCOUNT"))
          ⟨rows, plans, newPcount⟩ s = .ok () s' ∧
      Window s idx h { h with cards := setPcountInCards h.cards newPcount }
        (h.offsets.dataOffset + roundUpToBlock (mainBytes + newPcount)) s' ∧
      (h.offsets.headerBlockCount = headerBlocks h.cards.length →
        slice s'.bytes h.offsets.headerOffset (h.offsets.headerBlockCount * blockSize) =
          serializeHeaderToDiskBytes (setPcountInCards h.cards newPcount)) ∧
      slice s'.bytes h.offsets.dataOffset mainBytes = rows ∧
      (CellsKept (h.offsets.dataOffset + mainBytes) (sortPlans plans) s.bytes s'.bytes ↔
        if fastPathSafe (natKeyword h.cards (str "PCOUNT")) (sortPlans plans) then
          ForwardSafe (h.offsets.dataOffset + mainBytes) (sortPlans plans) s.bytes
        else StagingSafe (h.offsets.dataOffset + mainBytes)
          (natKeyword h.cards (str "PCOUNT")) (sortPlans plans) s.bytes) := by
  obtain ⟨hi, s₁, hmoves, hw₁, hend, hiff⟩ := moveCells_spec ho ht hpos hplans
  have hround := le_roundUpToBlock (mainBytes + newPcount)
  obtain ⟨s', hrun, hw', -, hheader, hfinal⟩ := finish_run ho ht hw₁ hrows hend
    fun t hw => shrinkHdu_spec ho hw (Nat.le_add_right _ _) hend
  refine ⟨s', ?_, hw', header_of_finish ho ht.pcountCard hheader,
    rows_of_finish hrows (by omega) hfinal, ?_⟩
  · unfold rebuildHeap
    rw [FileOp.bind_ok hmoves]
    exact hrun
  · rw [← hiff]
    refine forall₂_congr fun p hp => forall₂_congr fun q hq => ?_
    have hnew := hplans.new p hp
    rw [hfinal _ (by omega) (by omega), if_neg (by omega)]

/-- The state that the rebuild leaves. -/
structure Rebuilt (s : Fits) (idx : Nat) (h : Hdu) (table : TableMeta) (rows : Bytes)
    (newPcount : Nat) (s' : Fits) : Prop where
  window : Window s idx h { h with cards := setPcountInCards h.cards newPcount }
    (h.offsets.dataOffset + roundUpToBlock (table.mainBytes + newPcount)) s'
  header : h.offsets.headerBlockCount = headerBlocks h.cards.length →
    slice s'.bytes h.offsets.headerOffset (h.offsets.headerBlockCount * blockSize) =
      serializeHeaderToDiskBytes (setPcountInCards h.cards newPcount)
  rows : slice s'.bytes h.offsets.dataOffset table.mainBytes = rows

theorem rebuildHeap_spec (ho : Opened s idx h) (ht : BinTable h table) {rows : Bytes}
    {plans : List MovePlan} {newPcount : Nat} (hpos : 0 < natKeyword h.cards (str "PCOUNT"))
    (hrows : rows.length = table.mainBytes)
    (hplans : Plans (natKeyword h.cards (str "PCOUNT")) newPcount (sortPlans plans)) :
    ∃ s', rebuildHeap idx h.cards h.offsets.dataOffset table.mainBytes
          (h.offsets.dataOffset + table.mainBytes) (natKeyword h.cards (str "PCOUNT"))
          ⟨rows, plans, newPcount⟩ s = .ok () s' ∧
      Rebuilt s idx h table rows newPcount s' ∧
      (CellsKept (h.offsets.dataOffset + table.mainBytes) (sortPlans plans) s.bytes s'.bytes ↔
        if fastPathSafe (natKeyword h.cards (str "PCOUNT")) (sortPlans plans) then
          ForwardSafe (h.offsets.dataOffset + table.mainBytes) (sortPlans plans) s.bytes
        else StagingSafe (h.offsets.dataOffset + table.mainBytes)
          (natKeyword h.cards (str "PCOUNT")) (sortPlans plans) s.bytes) := by
  obtain ⟨s', hrun, hw, hheader, hmain, hiff⟩ := rebuildHeap_run ho ht.heapTable hpos hrows hplans
  exact ⟨s', hrun, ⟨hw, hheader, hmain⟩, hiff⟩

end

end RustFits.BinaryTable
