import RustFits.CompressedTable.Staging

/-!
# The two repacks of a compressed table

Both repacks end alike: the descriptor table with the new regions, the tail of the file
and the header (`Repacked`).

* `repackVla_run`: with variable-length columns the new heap is the one that `packBlobs`
  builds.
* `repackFixed_run`: with fixed columns the blobs are moved as in the heap of a binary
  table, and they arrive under the same condition.
-/

namespace RustFits.CompressedTable

open Ascii ByteFile Machine BigEndian

/-! ## The new descriptor table -/

section

variable {rowWidth ncols : Nat}

/-- Descriptors of different cells do not overlap. -/
theorem slots_apart (hwidth : rowWidth = ncols * 16) {a b : Nat × Nat} (ha : a.2 < ncols)
    (hb : b.2 < ncols) (hne : a ≠ b) :
    slotAt rowWidth a + 16 ≤ slotAt rowWidth b ∨ slotAt rowWidth b + 16 ≤ slotAt rowWidth a := by
  unfold slotAt
  rcases Nat.lt_trichotomy a.1 b.1 with hlt | heq | hgt
  · have hrow : (a.1 + 1) * rowWidth ≤ b.1 * rowWidth := Nat.mul_le_mul_right _ hlt
    rw [Nat.succ_mul] at hrow
    omega
  · have hcol : a.2 ≠ b.2 := fun hcol => hne (Prod.ext heq hcol)
    rw [heq]
    omega
  · have hrow : (b.1 + 1) * rowWidth ≤ a.1 * rowWidth := Nat.mul_le_mul_right _ hgt
    rw [Nat.succ_mul] at hrow
    omega

/-- The new regions are recorded, each in its slot. -/
theorem recordDescriptors_spec {α : Type} {cell region : α → Nat × Nat}
    (hwidth : rowWidth = ncols * 16) :
    ∀ {l : List α} {table : Bytes}, (l.map cell).Nodup → (∀ a ∈ l, (cell a).2 < ncols) →
      (∀ a ∈ l, slotAt rowWidth (cell a) + 16 ≤ table.length) →
      ∃ table', l.foldlM (fun table a => recordDescriptor table rowWidth (cell a).1 (cell a).2
            (region a).2 (region a).1) table = .ok table' ∧
        table'.length = table.length ∧
        (∀ a ∈ l, slice table' (slotAt rowWidth (cell a)) 16 =
          writeDescriptor .q (region a).2 (region a).1) ∧
        ∀ c, c.2 < ncols → c ∉ l.map cell →
          slice table' (slotAt rowWidth c) 16 = slice table (slotAt rowWidth c) 16 := by
  intro l
  induction l with
  | nil =>
    intro table _ _ _
    exact ⟨table, rfl, rfl, by simp, fun _ _ _ => rfl⟩
  | cons a l ih =>
    intro table hnodup hcol hslot
    rw [List.map_cons, List.nodup_cons] at hnodup
    have ha := hcol a List.mem_cons_self
    have hfit := hslot a List.mem_cons_self
    have hlen : (writeDescriptor .q (region a).2 (region a).1).length = 16 :=
      writeDescriptor_length .q _ _
    have hsize : (writeAll table (slotAt rowWidth (cell a))
        (writeDescriptor .q (region a).2 (region a).1)).length = table.length :=
      writeAll_length_of_le (by omega)
    have hstep : recordDescriptor table rowWidth (cell a).1 (cell a).2 (region a).2 (region a).1 =
        .ok (writeAll table (slotAt rowWidth (cell a))
          (writeDescriptor .q (region a).2 (region a).1)) := if_pos hfit
    obtain ⟨table', hrun, hlength, hself, hothers⟩ := @ih
      (writeAll table (slotAt rowWidth (cell a)) (writeDescriptor .q (region a).2 (region a).1))
      hnodup.2 (fun b hb => hcol b (List.mem_cons_of_mem _ hb))
      (fun b hb => by rw [hsize]; exact hslot b (List.mem_cons_of_mem _ hb))
    refine ⟨table', ?_, hlength.trans hsize, ?_, ?_⟩
    · rw [List.foldlM_cons, hstep]
      exact hrun
    · intro b hb
      rcases List.mem_cons.1 hb with rfl | hb
      · rw [hothers (cell b) ha hnodup.1]
        exact slice_writeAll_of_length (by omega) hlen
      · exact hself b hb
    · intro c hc hnot
      rw [List.map_cons, List.mem_cons, not_or] at hnot
      rw [hothers c hc hnot.2]
      refine slice_writeAll_of_disjoint (by omega) ?_
      rw [hlen]
      exact slots_apart hwidth hc ha hnot.1

theorem mem_tableCells {nTiles : Nat} {cell : Nat × Nat} :
    cell ∈ tableCells nTiles ncols ↔ cell.1 < nTiles ∧ cell.2 < ncols := by
  simp [tableCells, Prod.ext_iff]

theorem tableCells_nodup (nTiles ncols : Nat) : (tableCells nTiles ncols).Nodup := by
  rw [tableCells, List.Nodup, List.pairwise_flatMap]
  refine ⟨fun tile _ => ?_, ?_⟩
  · rw [List.pairwise_map]
    exact List.nodup_range.imp fun hab heq => hab (Prod.mk.inj heq).2
  · refine List.nodup_range.imp fun {a b} hne c hc d hd heq => ?_
    obtain ⟨_, -, rfl⟩ := List.mem_map.1 hc
    obtain ⟨_, -, rfl⟩ := List.mem_map.1 hd
    exact hne (Prod.mk.inj heq).1

/-- The slots lie in the table. -/
theorem slot_le {nTiles : Nat} (hwidth : rowWidth = ncols * 16) {cell : Nat × Nat}
    (hcell : cell ∈ tableCells nTiles ncols) : slotAt rowWidth cell + 16 ≤ nTiles * rowWidth := by
  obtain ⟨htile, hcol⟩ := mem_tableCells.1 hcell
  have hrow : (cell.1 + 1) * rowWidth ≤ nTiles * rowWidth := Nat.mul_le_mul_right _ htile
  rw [Nat.succ_mul] at hrow
  unfold slotAt
  omega

end

/-! ## The end of a repack -/

/-- The table with a heap of `n` bytes. -/
def repackedHdu (h : Hdu) (n : Nat) : Hdu := { h with cards := setPcountInCards h.cards n }

/-- The state that a repack leaves: the new descriptor table, a heap of `n` bytes behind
it, and the header right in front of the data. -/
structure Repacked (s : Fits) (idx : Nat) (h : Hdu) (table : Bytes) (n : Nat)
    (s' : Fits) : Prop where
  window : Window s idx h (repackedHdu h n)
    (h.offsets.dataOffset + roundUpToBlock (descBytes h + n)) s'
  header : slice s'.bytes (h.offsets.dataOffset - BinaryTable.headerLength h n)
    (BinaryTable.headerLength h n) = serializeHeaderToDiskBytes (setPcountInCards h.cards n)
  table : slice s'.bytes h.offsets.dataOffset (descBytes h) = table

section

variable {s s' s₁ : Fits} {idx : Nat} {h : Hdu} {columns : List Column} {codec : Codec}

/-- The end of both repacks. -/
theorem finishRepack_run (ho : Opened s idx h) (ht : CompTable h columns) {hi n : Nat}
    {table : Bytes} (hroom : Room s idx h hi) (hw : Window s idx h h hi s₁)
    (htable : table.length = descBytes h)
    (hend : h.offsets.dataOffset + roundUpToBlock (descBytes h + n) ≤ hi) :
    ∃ s', finishRepack idx h.cards table (natKeyword h.cards (str "NAXIS2"))
        (natKeyword h.cards (str "NAXIS1")) h.offsets.dataOffset n s₁ = .ok () s' ∧
      Repacked s idx h table n s' ∧
      (∀ i < h.offsets.dataOffset - BinaryTable.headerLength h n, s'.bytes[i]? = s₁.bytes[i]?) ∧
      ∀ i, h.offsets.dataOffset + descBytes h ≤ i →
        i < h.offsets.dataOffset + roundUpToBlock (descBytes h + n) →
        s'.bytes[i]? = s₁.bytes[i]? := by
  have hround := le_roundUpToBlock (descBytes h + n)
  obtain ⟨s', hrun, hw', hfront, hheader, hfinal⟩ :=
    BinaryTable.finish_run ho ht.heapTable hw htable
    hend fun t hwt => shrinkToHduEnd_run ho hroom (Nat.le_add_right _ _) hend hwt
  refine ⟨s', hrun, ⟨hw', hheader, ?_⟩, hfront, fun i hlo hhi => ?_⟩
  · exact BinaryTable.rows_of_finish htable (by omega) hfinal
  · rw [hfinal i (by omega) hhi, if_neg (by omega)]

/-- A table with a heap has a data section. -/
theorem CompTable.room (ht : CompTable h columns) (idx : Nat) (s : Fits) (hpos : heapSize h ≠ 0) :
    Room s idx h h.dataEnd := by
  refine Or.inl ?_
  have hround := le_roundUpToBlock (descBytes h + natKeyword h.cards (str "PCOUNT"))
  rw [ht.heapTable.dataEnd]
  unfold heapSize at hpos
  omega

theorem CompTable.descTable_length (ht : CompTable h columns) (ho : Opened s idx h) :
    (descTable s h).length = descBytes h := by
  have := ht.inside ho
  rw [descTable, slice_length]
  omega

theorem CompTable.tableHeap_length (ht : CompTable h columns) (ho : Opened s idx h) :
    (tableHeap s h).length = heapSize h := by
  have := ht.inside ho
  rw [tableHeap, slice_length]
  omega

theorem CompTable.read_descTable (ht : CompTable h columns) (ho : Opened s idx h) (context : Str) :
    readAt context h.offsets.dataOffset
        (natKeyword h.cards (str "NAXIS2") * natKeyword h.cards (str "NAXIS1")) s =
      .ok (descTable s h) s := by
  have hin := ht.inside ho
  have hread : readExact s.bytes h.offsets.dataOffset
      (natKeyword h.cards (str "NAXIS2") * natKeyword h.cards (str "NAXIS1")) =
        some (descTable s h) :=
        readExact_eq_some (show h.offsets.dataOffset + descBytes h ≤ _ by omega)
  rw [readAt, hread]

/-- The cells of the table are in range. -/
theorem CompTable.cell_inRange (ht : CompTable h columns) (ho : Opened s idx h)
    (hin : TableInRange codec columns s h) {cell : Nat × Nat}
    (hcell : cell ∈ tableCells (natKeyword h.cards (str "NAXIS2")) columns.length) :
    slotAt (natKeyword h.cards (str "NAXIS1")) cell + 16 ≤ (descTable s h).length ∧
      (if cell.1 + 1 = natKeyword h.cards (str "NAXIS2") then
          natKeyword h.cards (str "ZNAXIS2") - cell.1 * natKeyword h.cards (str "ZTILELEN")
        else natKeyword h.cards (str "ZTILELEN")) = (shapeOf h.cards).rowsInTile cell.1 ∧
      ∃ column, columns[cell.2]? = some column ∧ BlobInRange codec (tableHeap s h)
        ((shapeOf h.cards).rowsInTile cell.1)
        (slotDesc (descTable s h) (natKeyword h.cards (str "NAXIS1")) cell) column := by
  obtain ⟨htile, hcol⟩ := mem_tableCells.1 hcell
  refine ⟨?_, ht.rowsInTile.symm, columns[cell.2], List.getElem?_eq_getElem hcol,
    hin cell.1 htile cell.2 _ (List.getElem?_eq_getElem hcol)⟩
  rw [ht.descTable_length ho]
  exact slot_le ht.width hcell

/-- The compact heap of the table. -/
def packTable (codec : Codec) (columns : List Column) (s : Fits) (h : Hdu) :
    Except PyErr (List ((Nat × Nat) × Nat × Nat) × Bytes) :=
  packBlobs codec columns (tableHeap s h) (descTable s h) (natKeyword h.cards (str "NAXIS1"))
    (shapeOf h.cards).rowsInTile (tableCells (natKeyword h.cards (str "NAXIS2")) columns.length) []

/-- The repack with variable-length columns leaves the compact heap, and behind it what
stood there: the old heap, with the staged bytes behind that. -/
theorem repackVla_run (hgzip : LosslessGzip codec) (ho : Opened s idx h) (ht : CompTable h columns)
    (hin : TableInRange codec columns s h) (hpos : heapSize h ≠ 0) :
    ∃ descs out table s', packTable codec columns s h = .ok (descs, out) ∧
      repackCompressedTableHeapVla codec idx h.cards columns (natKeyword h.cards (str "NAXIS2"))
        (natKeyword h.cards (str "NAXIS1")) (heapSize h) h.offsets.dataOffset s = .ok true s' ∧
      Repacked s idx h table out.length s' ∧
      slice s'.bytes (h.offsets.dataOffset + descBytes h) out.length = out ∧
      (∀ d ∈ descs, slice table (slotAt (natKeyword h.cards (str "NAXIS1")) d.1) 16 =
        writeDescriptor .q d.2.2 d.2.1) ∧
      (∀ i < h.offsets.dataOffset - BinaryTable.headerLength h out.length,
        s'.bytes[i]? = s.bytes[i]?) ∧
      ∀ i, h.offsets.dataOffset + descBytes h + out.length ≤ i →
        i < h.offsets.dataOffset + roundUpToBlock (descBytes h + out.length) →
        i < h.dataEnd ∨ i < heapEnd h + out.length →
        s'.bytes[i]? = if heapEnd h ≤ i ∧ i < heapEnd h + out.length then out[i - heapEnd h]?
          else s.bytes[i]? := by
  have hroom := ht.room idx s hpos
  obtain ⟨descs, out, t, hpack, hstage, hs⟩ := stageBlobs_run hgzip ho ht hroom
    (fun cell hcell => ht.cell_inRange ho hin hcell) (staging_start ho ht)
  have hlen := hs.window.le_length
  have hend := heapEnd_le_stagingEnd h out.length
  have hround := le_roundUpToBlock (descBytes h + out.length)
  -- the copy back goes to an earlier place
  obtain ⟨f, hcopy, hlength, hbytes⟩ := copyFrontToBack_getElem? (show 0 < shiftChunk by decide)
    (show heapEnd h + out.length ≤ t.bytes.length by omega)
    (show h.offsets.dataOffset + descBytes h + out.length ≤ t.bytes.length by
      unfold heapEnd at hend; omega)
  have hback : ∀ q, forwardRead t.bytes shiftChunk (heapEnd h)
      (h.offsets.dataOffset + descBytes h) q = t.bytes[heapEnd h + q]? :=
    forwardRead_of_le (by unfold heapEnd; omega)
  have hw : Window s idx h h (stagingEnd h out.length) ⟨f, t.hdus⟩ := by
    refine hs.window.replace hlength fun i hi => ?_
    have hstart := ho.headerOffset_lt
    rw [hbytes, if_neg (by unfold heapEnd at hend; omega)]
  have hcells : descs.map Prod.fst =
      tableCells (natKeyword h.cards (str "NAXIS2")) columns.length := by
    obtain ⟨descs', out', hpack', horder, -⟩ := @packBlobs_spec _ _ _ _ _ _ hgzip _ []
      fun cell hcell => (ht.cell_inRange ho hin hcell).2.2
    rw [hpack, Except.ok.injEq, Prod.mk.injEq] at hpack'
    rw [hpack'.1]
    exact horder
  obtain ⟨table, hrecord, hsize, hself, -⟩ := @recordDescriptors_spec _ columns.length _
    Prod.fst Prod.snd ht.width descs (descTable s h)
    (by rw [hcells]; exact tableCells_nodup _ _)
    (fun d hd => (mem_tableCells.1 (hcells ▸ List.mem_map_of_mem hd)).2)
    (fun d hd => (ht.cell_inRange ho hin (hcells ▸ List.mem_map_of_mem hd)).1)
  have hmono := roundUpToBlock_mono (show descBytes h + out.length ≤
    descBytes h + heapSize h + out.length by omega)
  have hroom' : Room s idx h (stagingEnd h out.length) := by
    rcases hroom with hlt | hlast
    · exact Or.inl (Nat.lt_of_lt_of_le hlt (Nat.le_max_left _ _))
    · exact Or.inr hlast
  obtain ⟨s', hfinish, hrep, hfront, hheap⟩ := finishRepack_run ho ht hroom' hw
    (hsize.trans (ht.descTable_length ho)) (show h.offsets.dataOffset +
      roundUpToBlock (descBytes h + out.length) ≤ stagingEnd h out.length by
        unfold stagingEnd; omega)
  refine ⟨descs, out, table, s', hpack, ?_, hrep, ?_, hself, fun i hi => ?_,
    fun i hlo hhi hin => ?_⟩
  · have hcopyRun : streamCopyInFile shiftChunk ((tablePlace h).heapStart + heapSize h)
        (tablePlace h).heapStart out.length t = .ok () ⟨f, t.hdus⟩ := by
      have hcopy' : copyFrontToBack shiftChunk ((tablePlace h).heapStart + heapSize h)
        (tablePlace h).heapStart out.length out.length 0 t.bytes = some f := hcopy
      rw [streamCopyInFile, hcopy']
    unfold repackCompressedTableHeapVla
    rw [FileOp.bind_ok (ht.read_descTable ho _)]
    refine (FileOp.bind_ok hstage).trans ?_
    refine (FileOp.bind_ok hcopyRun).trans ?_
    rw [hrecord, FileOp.ofExcept_bind, FileOp.bind_ok hfinish]
    rfl
  · apply List.ext_getElem?
    intro i
    rw [slice_getElem?]
    split_ifs with hi
    · rw [hheap _ (by omega) (by omega), hbytes, if_pos (by omega), Nat.add_sub_cancel_left, hback,
        hs.staged i hi]
    · exact (List.getElem?_eq_none (by omega)).symm
  · rw [hfront i hi]
    show f[i]? = _
    rw [hbytes, if_neg (by omega), hs.kept i (by unfold heapEnd; omega)]
  · -- behind the compact heap the copy back wrote nothing
    rw [hheap i (by omega) hhi]
    show f[i]? = _
    rw [hbytes, if_neg (by omega)]
    split_ifs with hstaged
    · have hplace := hs.staged (i - heapEnd h) (by omega)
      rw [Nat.add_sub_cancel' hstaged.1] at hplace
      exact hplace
    · rcases Nat.lt_or_ge i (heapEnd h) with hlt | hge
      · exact hs.kept i hlt
      · exact hs.rest i (by omega) (by omega)

end

/-! ## Fixed columns -/

/-- A move, as the binary table makes it. -/
def MovePlan.move (p : MovePlan) : BinaryTable.MovePlan := ⟨p.oldOffset, p.length, p.newOffset⟩

/-- The slot of a moved blob. -/
def MovePlan.cell (p : MovePlan) : Nat × Nat := (p.tileIdx, p.colIdx)

/-- The live blobs in scan order, each at the sum of the lengths in front of it. -/
def livePlans (table : Bytes) (rowWidth : Nat) : List (Nat × Nat) → Nat → List MovePlan
  | [], _ => []
  | cell :: cells, cursor =>
    let desc := slotDesc table rowWidth cell
    if desc.1 = 0 then livePlans table rowWidth cells cursor
    else ⟨desc.2.toNat, desc.1.toNat, cursor, cell.1, cell.2⟩ ::
      livePlans table rowWidth cells (cursor + desc.1.toNat)

/-- The lengths of the blobs. -/
def blobBytes (table : Bytes) (rowWidth : Nat) (cells : List (Nat × Nat)) : Nat :=
  (cells.map fun cell => (slotDesc table rowWidth cell).1.toNat).sum

section

variable {table : Bytes} {rowWidth pcount : Nat}

theorem blobBytes_cons (cell : Nat × Nat) (cells : List (Nat × Nat)) :
    blobBytes table rowWidth (cell :: cells) =
      (slotDesc table rowWidth cell).1.toNat + blobBytes table rowWidth cells := by
  rw [blobBytes, List.map_cons, List.sum_cons]
  rfl

/-- The scan of descriptors in range. -/
theorem movePlans_eq : ∀ {cells : List (Nat × Nat)} {cursor : Nat},
    (∀ cell ∈ cells, slotAt rowWidth cell + 16 ≤ table.length) →
    (∀ cell ∈ cells, DescInRange pcount (slotDesc table rowWidth cell)) →
    movePlans table rowWidth pcount cells cursor =
      .ok (livePlans table rowWidth cells cursor, cursor + blobBytes table rowWidth cells) := by
  intro cells
  induction cells with
  | nil =>
    intro cursor _ _
    rfl
  | cons cell cells ih =>
    intro cursor hslot hin
    obtain ⟨tile, col⟩ := cell
    have hdesc : sliceOf table (tile * rowWidth + col * 16) 16 =
        .ok (slice table (slotAt rowWidth (tile, col)) 16) :=
      sliceOf_ok (hslot _ List.mem_cons_self)
    obtain ⟨hn, hoff, hle⟩ := hin _ List.mem_cons_self
    have ih := fun cursor => @ih cursor (fun c hc => hslot c (List.mem_cons_of_mem _ hc))
      fun c hc => hin c (List.mem_cons_of_mem _ hc)
    rw [movePlans, hdesc, livePlans, blobBytes_cons]
    simp only [bind, Except.bind]
    change (if (slotDesc table rowWidth (tile, col)).1 < 0 ∨
      (slotDesc table rowWidth (tile, col)).2 < 0 then _ else
      if (slotDesc table rowWidth (tile, col)).1 = 0 then _ else
      if pcount < (slotDesc table rowWidth (tile, col)).2.toNat +
        (slotDesc table rowWidth (tile, col)).1.toNat then _ else _) = _
    rw [if_neg (by omega)]
    by_cases hz : (slotDesc table rowWidth (tile, col)).1 = 0
    · rw [if_pos hz, if_pos hz, ih, hz]
      simp
    · have := hle hz
      rw [if_neg hz, if_neg hz, if_neg (by omega)]
      have hrest : movePlans table rowWidth pcount cells
          (cursor + (readDescriptor .q (slice table (slotAt rowWidth (tile, col)) 16)).1.toNat) =
            _ := ih _
      rw [hrest, Nat.add_assoc]
      rfl

example : movePlans (writeDescriptor .q 2 1 ++ writeDescriptor .q 0 9) 32 3 [(0, 0), (0, 1)] 0 =
    .ok ([⟨1, 2, 0, 0, 0⟩], 2) := by
  decide +kernel

/-- A move of the scan. -/
theorem livePlans_mem : ∀ {cells : List (Nat × Nat)} {cursor : Nat} {p : MovePlan},
    p ∈ livePlans table rowWidth cells cursor →
      p.cell ∈ cells ∧ (slotDesc table rowWidth p.cell).1 ≠ 0 ∧
        p.length = (slotDesc table rowWidth p.cell).1.toNat ∧
        p.oldOffset = (slotDesc table rowWidth p.cell).2.toNat ∧ cursor ≤ p.newOffset ∧
        p.newOffset + p.length ≤ cursor + blobBytes table rowWidth cells := by
  intro cells
  induction cells with
  | nil =>
    intro cursor p hp
    cases hp
  | cons cell cells ih =>
    intro cursor p hp
    rw [livePlans] at hp
    rw [blobBytes_cons]
    split_ifs at hp with hz
    · obtain ⟨hcell, hne, hlen, hold, hlo, hhi⟩ := ih hp
      exact ⟨List.mem_cons_of_mem _ hcell, hne, hlen, hold, hlo, by omega⟩
    · rcases List.mem_cons.1 hp with rfl | hp
      · exact ⟨List.mem_cons_self, hz, rfl, rfl, Nat.le_refl _, by dsimp only; omega⟩
      · obtain ⟨hcell, hne, hlen, hold, hlo, hhi⟩ := ih hp
        exact ⟨List.mem_cons_of_mem _ hcell, hne, hlen, hold, by omega, by omega⟩

/-- The moves go to consecutive places. -/
theorem livePlans_pairwise : ∀ {cells : List (Nat × Nat)} {cursor : Nat},
    (livePlans table rowWidth cells cursor).Pairwise fun a b => a.newOffset + a.length ≤
      b.newOffset := by
  intro cells
  induction cells with
  | nil =>
    intro cursor
    exact List.Pairwise.nil
  | cons cell cells ih =>
    intro cursor
    rw [livePlans]
    split_ifs with hz
    · exact ih
    · exact List.pairwise_cons.2 ⟨fun p hp => (livePlans_mem hp).2.2.2.2.1, ih⟩

example : blobBytes (writeDescriptor .q 2 1 ++ writeDescriptor .q 1 0) 32 [(0, 0), (0, 1)] = 3 := by
  decide +kernel

/-- The last move ends at the end of the heap. -/
theorem livePlans_full : ∀ {cells : List (Nat × Nat)} {cursor : Nat},
    (∀ cell ∈ cells, 0 ≤ (slotDesc table rowWidth cell).1) →
    blobBytes table rowWidth cells = 0 ∨ ∃ p ∈ livePlans table rowWidth cells cursor,
      p.newOffset + p.length = cursor + blobBytes table rowWidth cells := by
  intro cells
  induction cells with
  | nil =>
    intro cursor _
    exact Or.inl rfl
  | cons cell cells ih =>
    intro cursor hin
    have hself := hin cell List.mem_cons_self
    have ih := fun cursor => @ih cursor fun c hc => hin c (List.mem_cons_of_mem _ hc)
    rw [livePlans, blobBytes_cons]
    split_ifs with hz
    · rw [hz, Int.toNat_zero, Nat.zero_add]
      exact ih cursor
    · refine Or.inr ?_
      rcases ih (cursor + (slotDesc table rowWidth cell).1.toNat) with hzero | ⟨p, hp, hend⟩
      · exact ⟨_, List.mem_cons_self, by dsimp only; omega⟩
      · exact ⟨p, List.mem_cons_of_mem _ hp, by omega⟩

/-- Every live blob is moved. -/
theorem exists_livePlan : ∀ {cells : List (Nat × Nat)} {cursor : Nat} {cell : Nat × Nat},
    cell ∈ cells → (slotDesc table rowWidth cell).1 ≠ 0 →
    ∃ p ∈ livePlans table rowWidth cells cursor, p.cell = cell := by
  intro cells
  induction cells with
  | nil =>
    intro cursor cell hcell
    cases hcell
  | cons c cells ih =>
    intro cursor cell hcell hne
    rw [livePlans]
    rcases List.mem_cons.1 hcell with rfl | hcell
    · rw [if_neg hne]
      exact ⟨_, List.mem_cons_self, rfl⟩
    · obtain ⟨p, hp, hpc⟩ := @ih (if (slotDesc table rowWidth c).1 = 0 then cursor
        else cursor + (slotDesc table rowWidth c).1.toNat) cell hcell hne
      split_ifs at hp ⊢
      · exact ⟨p, hp, hpc⟩
      · exact ⟨p, List.mem_cons_of_mem _ hp, hpc⟩

/-- No blob is moved twice. -/
theorem livePlans_nodup : ∀ {cells : List (Nat × Nat)} {cursor : Nat}, cells.Nodup →
    ((livePlans table rowWidth cells cursor).map MovePlan.cell).Nodup := by
  intro cells
  induction cells with
  | nil =>
    intro cursor _
    exact List.nodup_nil
  | cons cell cells ih =>
    intro cursor hnodup
    obtain ⟨hnot, hnodup⟩ := List.nodup_cons.1 hnodup
    rw [livePlans]
    split_ifs with hz
    · exact ih hnodup
    · rw [List.map_cons]
      refine List.nodup_cons.2 ⟨fun hmem => hnot ?_, ih hnodup⟩
      obtain ⟨p, hp, hpc⟩ := List.mem_map.1 hmem
      have hcell := (livePlans_mem hp).1
      rw [hpc] at hcell
      exact hcell

end

section

variable {s : Fits} {idx : Nat} {h : Hdu} {columns : List Column} {codec : Codec}

theorem fastPathSafe_move {pcount : Nat} : ∀ plans : List MovePlan,
    BinaryTable.fastPathSafe pcount (plans.map MovePlan.move) = fastPathSafe pcount plans
  | [] => rfl
  | [_] => rfl
  | plan :: next :: rest => by
    have ih := @fastPathSafe_move pcount (next :: rest)
    simp only [List.map_cons, BinaryTable.fastPathSafe, fastPathSafe] at ih ⊢
    rw [ih]
    rfl

/-- The moves of both tables are the same. -/
theorem moveBlobs_eq (dataOffset mainBytes pcount newPcount : Nat) (plans : List MovePlan) :
    moveBlobs dataOffset (dataOffset + mainBytes) pcount newPcount plans =
      if BinaryTable.fastPathSafe pcount (plans.map MovePlan.move) then
        BinaryTable.moveInPlace (dataOffset + mainBytes) (plans.map MovePlan.move)
      else BinaryTable.moveStaged dataOffset mainBytes (dataOffset + mainBytes) pcount newPcount
        (plans.map MovePlan.move) := by
  unfold moveBlobs BinaryTable.moveInPlace BinaryTable.moveStaged
  rw [fastPathSafe_move, Nat.add_sub_cancel_left]
  simp only [List.forM_eq_forM, List.forM_map]
  rfl

/-- The first part of a program that then only returns. -/
theorem ok_of_bind_pure {α : Type} {x : FileOp Unit} {a b : α} {s s' : Fits}
    (hrun : (x >>= fun _ => pure a : FileOp α) s = .ok b s') : x s = .ok () s' := by
  cases hx : x s with
  | ok u t =>
    rw [FileOp.bind_ok hx] at hrun
    cases hrun
    rfl
  | error e t =>
    rw [FileOp.bind_error hx] at hrun
    cases hrun

/-- The moves in the order of the old heap. -/
def sortedPlans (plans : List MovePlan) : List MovePlan :=
  plans.mergeSort fun a b => decide (a.oldOffset ≤ b.oldOffset)

theorem sortedPlans_move (plans : List MovePlan) :
    (sortedPlans plans).map MovePlan.move = BinaryTable.sortPlans (plans.map MovePlan.move) :=
  List.map_mergeSort fun _ _ _ _ => rfl

/-- The moves of the table. -/
def tablePlans (s : Fits) (h : Hdu) (columns : List Column) : List MovePlan :=
  livePlans (descTable s h) (natKeyword h.cards (str "NAXIS1"))
    (tableCells (natKeyword h.cards (str "NAXIS2")) columns.length) 0

/-- The lengths of the blobs of the table. -/
def tableBytes (s : Fits) (h : Hdu) (columns : List Column) : Nat :=
  blobBytes (descTable s h) (natKeyword h.cards (str "NAXIS1"))
    (tableCells (natKeyword h.cards (str "NAXIS2")) columns.length)

/-- The descriptors of the table lie in its heap. -/
theorem CompTable.desc_inRange (ht : CompTable h columns) (ho : Opened s idx h)
    (hin : TableInRange codec columns s h) {cell : Nat × Nat}
    (hcell : cell ∈ tableCells (natKeyword h.cards (str "NAXIS2")) columns.length) :
    DescInRange (heapSize h)
      (slotDesc (descTable s h) (natKeyword h.cards (str "NAXIS1")) cell) := by
  obtain ⟨-, -, column, -, hb⟩ := ht.cell_inRange ho hin hcell
  rw [← ht.tableHeap_length ho]
  exact hb.region

/-- What the moves rely on. -/
theorem CompTable.plans (ht : CompTable h columns) (ho : Opened s idx h)
    (hin : TableInRange codec columns s h) :
    BinaryTable.Plans (heapSize h) (tableBytes s h columns)
      (BinaryTable.sortPlans ((tablePlans s h columns).map MovePlan.move)) := by
  have hperm : (BinaryTable.sortPlans ((tablePlans s h columns).map MovePlan.move)).Perm
      ((tablePlans s h columns).map MovePlan.move) := List.mergeSort_perm _ _
  have hmem : ∀ q ∈ BinaryTable.sortPlans ((tablePlans s h columns).map MovePlan.move),
      ∃ p ∈ tablePlans s h columns, p.move = q := fun q hq =>
    List.mem_map.1 (hperm.mem_iff.1 hq)
  have hpairs : ((tablePlans s h columns).map MovePlan.move).Pairwise fun a b =>
      0 < a.length ∧ a.newOff + a.length ≤ b.newOff := by
    rw [List.pairwise_map]
    refine livePlans_pairwise.imp_of_mem fun {a b} ha _ hab => ⟨?_, hab⟩
    obtain ⟨hcell, hne, hlen, -⟩ := livePlans_mem ha
    have hnonneg := (ht.desc_inRange ho hin hcell).1
    show 0 < a.length
    omega
  refine ⟨BinaryTable.sortPlans_pairwise (hpairs.imp fun hab => by omega), ?_, ?_, ?_, ?_⟩
  · have hsymm : ∀ {a b : BinaryTable.MovePlan}, BinaryTable.PlanApart a b →
        BinaryTable.PlanApart b a := fun hab => Or.symm hab
    exact (hperm.pairwise_iff hsymm).2 (hpairs.imp fun hab => Or.inl hab.2)
  · intro q hq
    obtain ⟨p, hp, rfl⟩ := hmem q hq
    obtain ⟨hcell, hne, hlen, hold, -⟩ := livePlans_mem hp
    have hle := (ht.desc_inRange ho hin hcell).2.2 hne
    show p.oldOffset + p.length ≤ heapSize h
    omega
  · intro q hq
    obtain ⟨p, hp, rfl⟩ := hmem q hq
    have hle := (livePlans_mem hp).2.2.2.2.2
    rw [Nat.zero_add] at hle
    exact hle
  · rcases @livePlans_full (descTable s h) (natKeyword h.cards (str "NAXIS1"))
        (tableCells (natKeyword h.cards (str "NAXIS2")) columns.length) 0
        (fun cell hcell => (ht.desc_inRange ho hin hcell).1) with hzero | ⟨p, hp, hend⟩
    · exact Or.inl hzero
    · rw [Nat.zero_add] at hend
      exact Or.inr ⟨p.move, hperm.mem_iff.2 (List.mem_map_of_mem hp), hend⟩

/-- The repack of a table of fixed columns.  A compact heap is left alone. -/
theorem repackFixed_run (ho : Opened s idx h) (ht : CompTable h columns)
    (hin : TableInRange codec columns s h) (hpos : heapSize h ≠ 0) (hmain : 0 < descBytes h) :
    (tableBytes s h columns = heapSize h →
      repackFixed idx h.cards columns.length (natKeyword h.cards (str "NAXIS2"))
        (natKeyword h.cards (str "NAXIS1")) (heapSize h) h.offsets.dataOffset s = .ok false s) ∧
    (tableBytes s h columns ≠ heapSize h →
      ∃ table s', repackFixed idx h.cards columns.length (natKeyword h.cards (str "NAXIS2"))
          (natKeyword h.cards (str "NAXIS1")) (heapSize h) h.offsets.dataOffset s = .ok true s' ∧
        Repacked s idx h table (tableBytes s h columns) s' ∧
        (∀ p ∈ tablePlans s h columns, slice table
          (slotAt (natKeyword h.cards (str "NAXIS1")) p.cell) 16 =
            writeDescriptor .q p.length p.newOffset) ∧
        (∀ cell ∈ tableCells (natKeyword h.cards (str "NAXIS2")) columns.length,
          (slotDesc (descTable s h) (natKeyword h.cards (str "NAXIS1")) cell).1 = 0 →
          slotDesc table (natKeyword h.cards (str "NAXIS1")) cell =
            slotDesc (descTable s h) (natKeyword h.cards (str "NAXIS1")) cell) ∧
        (BinaryTable.CellsKept (h.offsets.dataOffset + descBytes h)
            (BinaryTable.sortPlans ((tablePlans s h columns).map MovePlan.move)) s.bytes s'.bytes ↔
          if BinaryTable.fastPathSafe (heapSize h)
              (BinaryTable.sortPlans ((tablePlans s h columns).map MovePlan.move)) then
            BinaryTable.ForwardSafe (h.offsets.dataOffset + descBytes h)
              (BinaryTable.sortPlans ((tablePlans s h columns).map MovePlan.move)) s.bytes
          else BinaryTable.StagingSafe (h.offsets.dataOffset + descBytes h) (heapSize h)
            (BinaryTable.sortPlans ((tablePlans s h columns).map MovePlan.move)) s.bytes)) := by
  have hscan : movePlans (descTable s h) (natKeyword h.cards (str "NAXIS1")) (heapSize h)
      (tableCells (natKeyword h.cards (str "NAXIS2")) columns.length) 0 =
        .ok (tablePlans s h columns, tableBytes s h columns) := by
    rw [movePlans_eq (fun cell hcell => (ht.cell_inRange ho hin hcell).1)
      (fun cell hcell => ht.desc_inRange ho hin hcell), Nat.zero_add]
    rfl
  refine ⟨fun hsame => ?_, fun hne => ?_⟩
  · unfold repackFixed
    rw [FileOp.bind_ok (ht.read_descTable ho _), hscan, FileOp.ofExcept_bind]
    simp only
    rw [if_pos hsame]
    rfl
  · have hplans := ht.plans ho hin
    obtain ⟨hi, s₁, hmoves, hw, hend, hiff⟩ := BinaryTable.moveCells_spec ho ht.heapTable
      (Nat.pos_of_ne_zero hpos) hplans
    rw [show natKeyword h.cards (str "PCOUNT") = heapSize h from rfl] at hmoves hiff
    have hmoved : moveBlobs h.offsets.dataOffset (h.offsets.dataOffset + descBytes h) (heapSize h)
        (tableBytes s h columns) (sortedPlans (tablePlans s h columns)) s = .ok () s₁ := by
      rw [moveBlobs_eq, sortedPlans_move]
      unfold BinaryTable.moveCells at hmoves
      split_ifs at hmoves ⊢ with hsafe
      · exact ok_of_bind_pure hmoves
      · exact ok_of_bind_pure hmoves
    have hperm : (sortedPlans (tablePlans s h columns)).Perm (tablePlans s h columns) :=
      List.mergeSort_perm _ _
    have hcells : ∀ p ∈ sortedPlans (tablePlans s h columns),
        p.cell ∈ tableCells (natKeyword h.cards (str "NAXIS2")) columns.length :=
      fun p hp => (livePlans_mem (hperm.mem_iff.1 hp)).1
    obtain ⟨table, hrecord, hsize, hself, hothers⟩ := @recordDescriptors_spec _ columns.length _
      MovePlan.cell (fun p => (p.newOffset, p.length)) ht.width
      (sortedPlans (tablePlans s h columns)) (descTable s h)
      ((hperm.map MovePlan.cell).nodup_iff.2 (livePlans_nodup (tableCells_nodup _ _)))
      (fun p hp => (mem_tableCells.1 (hcells p hp)).2)
      (fun p hp => (ht.cell_inRange ho hin (hcells p hp)).1)
    have hround := le_roundUpToBlock (descBytes h + tableBytes s h columns)
    obtain ⟨s', hfinish, hrep, -, hheap⟩ := finishRepack_run ho ht (Or.inl (by omega)) hw
      (hsize.trans (ht.descTable_length ho)) hend
    refine ⟨table, s', ?_, hrep, fun p hp => hself p (hperm.mem_iff.2 hp), ?_, ?_⟩
    · unfold repackFixed
      rw [FileOp.bind_ok (ht.read_descTable ho _), hscan, FileOp.ofExcept_bind]
      simp only
      rw [if_neg hne]
      refine (FileOp.bind_ok hmoved).trans ?_
      have hrecord' : ((tablePlans s h columns).mergeSort fun a b =>
          decide (a.oldOffset ≤ b.oldOffset)).foldlM (fun table plan => recordDescriptor table
            (natKeyword h.cards (str "NAXIS1")) plan.tileIdx plan.colIdx plan.length plan.newOffset)
              (descTable s h) = .ok table := hrecord
      rw [hrecord', FileOp.ofExcept_bind, FileOp.bind_ok hfinish]
      rfl
    · intro cell hcell hz
      unfold slotDesc
      rw [hothers cell (mem_tableCells.1 hcell).2]
      intro hmem
      obtain ⟨p, hp, hpc⟩ := List.mem_map.1 hmem
      have hlive := (livePlans_mem (hperm.mem_iff.1 hp)).2.1
      rw [hpc] at hlive
      exact hlive hz
    · rw [← hiff]
      refine forall₂_congr fun p hp => forall₂_congr fun q hq => ?_
      have hnew := hplans.new p hp
      rw [hheap _ (by omega) (by omega)]

end

end RustFits.CompressedTable
