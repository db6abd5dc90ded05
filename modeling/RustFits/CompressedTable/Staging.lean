import RustFits.CompressedTable.Pack

/-!
# The staging area

`repack_compressed_table_heap_vla` grows the data section behind the heap and builds
the compact heap there.  The old heap is not written, so every blob is read as it was,
and what is staged is what `packBlobs` builds (`stageBlobs_run`).  The copy back goes to
an earlier place, so it is one move (`stagedHeap_copied`).
-/

namespace RustFits.CompressedTable

open Ascii ByteFile Machine BigEndian

/-- The end of the heap, where the staging area begins. -/
def heapEnd (h : Hdu) : Nat := h.offsets.dataOffset + descBytes h + heapSize h

/-- The end of the data section with `n` staged bytes. -/
def stagingEnd (h : Hdu) (n : Nat) : Nat :=
  max h.dataEnd (h.offsets.dataOffset + roundUpToBlock (descBytes h + heapSize h + n))

/-- `t` is the file `s` with `out` in the staging area of the table `idx`. -/
structure Staging (s : Fits) (idx : Nat) (h : Hdu) (out : Bytes) (t : Fits) : Prop where
  window : Window s idx h h (stagingEnd h out.length) t
  kept : ∀ i < heapEnd h, t.bytes[i]? = s.bytes[i]?
  staged : ∀ i < out.length, t.bytes[heapEnd h + i]? = out[i]?
  rest : ∀ i, heapEnd h + out.length ≤ i → i < h.dataEnd → t.bytes[i]? = s.bytes[i]?

section

variable {s t : Fits} {idx : Nat} {h : Hdu} {columns : List Column} {codec : Codec} {out : Bytes}

theorem heapEnd_le_stagingEnd (h : Hdu) (n : Nat) : heapEnd h + n ≤ stagingEnd h n := by
  have := le_roundUpToBlock (descBytes h + heapSize h + n)
  unfold heapEnd stagingEnd
  omega

/-- Nothing is staged yet. -/
theorem staging_start (ho : Opened s idx h) (ht : CompTable h columns) : Staging s idx h [] s := by
  refine ⟨?_, fun _ _ => rfl, by simp, fun _ _ _ => rfl⟩
  have hend := ht.heapTable.dataEnd
  have hsame : stagingEnd h ([] : Bytes).length = h.dataEnd := by
    unfold stagingEnd
    rw [List.length_nil, Nat.add_zero, hend]
    exact Nat.max_self _
  rw [hsame]
  exact ho.window

/-- The data section grows to hold `n` more bytes. -/
theorem Staging.grow (ho : Opened s idx h) (hroom : Room s idx h h.dataEnd)
    (hs : Staging s idx h out t) (n : Nat) :
    ∃ t', growFileToAtLeast h.offsets.dataOffset (descBytes h + heapSize h + out.length + n) t =
        .ok () t' ∧
      Window s idx h h (stagingEnd h (out.length + n)) t' ∧
      ∀ i < stagingEnd h out.length, t'.bytes[i]? = t.bytes[i]? := by
  have hroom' : Room s idx h (stagingEnd h out.length) := by
    rcases hroom with hlt | hlast
    · exact Or.inl (Nat.lt_of_lt_of_le hlt (Nat.le_max_left _ _))
    · exact Or.inr hlast
  obtain ⟨t', hgrow, hw, htake⟩ := hs.window.grow ho hroom'
    (descBytes h + heapSize h + out.length + n)
  refine ⟨t', hgrow, ?_, fun i hi => ?_⟩
  · have hmono := roundUpToBlock_mono (show descBytes h + heapSize h + out.length ≤
      descBytes h + heapSize h + out.length + n by omega)
    have hsame : stagingEnd h (out.length + n) = max (stagingEnd h out.length)
        (h.offsets.dataOffset + roundUpToBlock (descBytes h + heapSize h + out.length + n)) := by
      unfold stagingEnd
      rw [← Nat.add_assoc]
      omega
    rw [hsame]
    exact hw
  · rw [← List.getElem?_take_of_lt hi, htake, List.getElem?_take_of_lt hi]

/-- Bytes behind what is staged. -/
theorem Staging.extend (ho : Opened s idx h) (hs : Staging s idx h out t) {t' : Fits}
    {data f : Bytes} (hw : Window s idx h h (stagingEnd h (out.length + data.length)) t')
    (hsame : ∀ i < stagingEnd h out.length, t'.bytes[i]? = t.bytes[i]?)
    (hlen : f.length = t'.bytes.length)
    (hdata : ∀ i < data.length, f[heapEnd h + out.length + i]? = data[i]?)
    (hout : ∀ i, i < heapEnd h + out.length ∨ heapEnd h + out.length + data.length ≤ i →
      f[i]? = t'.bytes[i]?) :
    Staging s idx h (out ++ data) ⟨f, t'.hdus⟩ := by
  have hend := heapEnd_le_stagingEnd h (out.length + data.length)
  have hold := heapEnd_le_stagingEnd h out.length
  have hdataEnd : h.dataEnd ≤ stagingEnd h out.length := Nat.le_max_left _ _
  have hstart := ho.headerOffset_lt
  refine ⟨?_, fun i hi => ?_, fun i hi => ?_, fun i hlo hhi => ?_⟩
  · rw [List.length_append]
    refine hw.replace hlen fun i hi => hout i ?_
    unfold heapEnd at *
    omega
  · show f[i]? = _
    rw [hout i (Or.inl (by omega)), hsame i (by omega), hs.kept i hi]
  · show f[heapEnd h + i]? = _
    rw [List.length_append] at hi
    by_cases hlt : i < out.length
    · rw [hout _ (Or.inl (by omega)), hsame _ (by omega), hs.staged i hlt,
        List.getElem?_append_left hlt]
    · rw [List.getElem?_append_right (by omega), ← hdata (i - out.length) (by omega)]
      congr 1
      omega
  · show f[i]? = _
    rw [List.length_append] at hlo
    rw [hout i (Or.inr (by omega)), hsame i (by omega), hs.rest i (by omega) hhi]

/-- A region of the old heap is as it was. -/
theorem Staging.region (ho : Opened s idx h) (ht : CompTable h columns) (hs : Staging s idx h out t)
    {off len : Nat} (hin : off + len ≤ (tableHeap s h).length) :
    h.offsets.dataOffset + descBytes h + off + len ≤ t.bytes.length ∧
      slice t.bytes (h.offsets.dataOffset + descBytes h + off) len =
        slice (tableHeap s h) off len := by
  have hlen := (ht.heapAt ho).inside
  have hheap : (tableHeap s h).length ≤ heapSize h := by
    rw [tableHeap, slice_length]
    omega
  have hend := heapEnd_le_stagingEnd h out.length
  have hle := hs.window.le_length
  refine ⟨by unfold heapEnd at hend; omega, ?_⟩
  have hsrc : slice s.bytes (h.offsets.dataOffset + descBytes h + off) len =
      slice (tableHeap s h) off len := by
    rw [tableHeap, slice_slice (by omega)]
  rw [← hsrc]
  apply List.ext_getElem?
  intro i
  rw [slice_getElem?, slice_getElem?]
  split_ifs with hi
  · exact hs.kept _ (by unfold heapEnd; omega)
  · rfl

/-- A blob or a cell is staged. -/
theorem stageCopy_run (ho : Opened s idx h) (ht : CompTable h columns)
    (hroom : Room s idx h h.dataEnd) (hs : Staging s idx h out t) {off len : Nat}
    (hin : off + len ≤ (tableHeap s h).length) :
    ∃ t', stageCopy (tablePlace h) (heapSize h) off len out.length t = .ok () t' ∧
      Staging s idx h (out ++ slice (tableHeap s h) off len) t' := by
  obtain ⟨hfit, hslice⟩ := hs.region ho ht hin
  have hdata : (slice (tableHeap s h) off len).length = len := by
    rw [slice_length]
    omega
  have hheap : (tableHeap s h).length ≤ heapSize h := by
    rw [tableHeap, slice_length]
    omega
  obtain ⟨t₁, hgrow, hw, hsame⟩ := hs.grow ho hroom len
  have hend := heapEnd_le_stagingEnd h (out.length + len)
  have hold := heapEnd_le_stagingEnd h out.length
  have hle := hw.le_length
  -- the source lies in front of the staging area
  obtain ⟨f, hcopy, hlength, hbytes⟩ := copyFrontToBack_getElem?
    (show 0 < shiftChunk by decide)
    (show h.offsets.dataOffset + descBytes h + off + len ≤ t₁.bytes.length by
      unfold heapEnd at *; omega)
    (show heapEnd h + out.length + len ≤ t₁.bytes.length by omega)
  refine ⟨⟨f, t₁.hdus⟩, ?_, hs.extend ho (by rw [hdata]; exact hw) hsame hlength ?_ ?_⟩
  · have hgrow' : growFileToAtLeast (tablePlace h).dataOffset
        ((tablePlace h).heapStart - (tablePlace h).dataOffset + heapSize h + out.length + len) t =
          .ok () t₁ := by
      have hstart : (tablePlace h).heapStart - (tablePlace h).dataOffset = descBytes h :=
        Nat.add_sub_cancel_left _ _
      rw [hstart]
      exact hgrow
    unfold stageCopy
    rw [FileOp.bind_ok hgrow']
    unfold streamCopyInFile
    have hcopy' : copyFrontToBack shiftChunk ((tablePlace h).heapStart + off)
        ((tablePlace h).heapStart + heapSize h + out.length) len len 0 t₁.bytes = some f := hcopy
    rw [hcopy']
  · intro i hi
    rw [hdata] at hi
    rw [hbytes, if_pos (by omega), Nat.add_sub_cancel_left,
      forwardRead_of_disjoint (by unfold heapEnd; omega),
      hsame _ (by unfold heapEnd at hold; omega), ← hslice, slice_getElem?, if_pos hi]
  · intro i hi
    rw [hdata] at hi
    rw [hbytes, if_neg (by omega)]

/-- New bytes are staged. -/
theorem stageWrite_run (ho : Opened s idx h) (hroom : Room s idx h h.dataEnd)
    (hs : Staging s idx h out t) (data : Bytes) :
    ∃ t₁ t', growFileToAtLeast (tablePlace h).dataOffset ((tablePlace h).heapStart -
          (tablePlace h).dataOffset + heapSize h + out.length + data.length) t = .ok () t₁ ∧
      writeAt ((tablePlace h).heapStart + heapSize h + out.length) data t₁ = .ok () t' ∧
      Staging s idx h (out ++ data) t' := by
  obtain ⟨t₁, hgrow, hw, hsame⟩ := hs.grow ho hroom data.length
  have hend := heapEnd_le_stagingEnd h (out.length + data.length)
  have hle := hw.le_length
  have hplace : (tablePlace h).heapStart + heapSize h + out.length = heapEnd h + out.length := rfl
  refine ⟨t₁, _, ?_, writeAt_eq t₁ _ _, hs.extend ho hw hsame ?_ ?_ ?_⟩
  · have hstart : (tablePlace h).heapStart - (tablePlace h).dataOffset = descBytes h :=
      Nat.add_sub_cancel_left _ _
    rw [hstart]
    exact hgrow
  · rw [hplace, writeAll_length_of_le (by omega)]
  · intro i hi
    rw [hplace, writeAll_getElem? (by omega), if_pos (by omega), Nat.add_sub_cancel_left]
  · intro i hi
    rw [hplace, writeAll_getElem? (by omega), if_neg (by omega)]

/-- The cells of a tile are staged one behind the other. -/
theorem stageCells_run (ho : Opened s idx h) (ht : CompTable h columns)
    (hroom : Room s idx h h.dataEnd) {kind : VarKind} {n : Nat} (tile : Nat) (column : Column) :
    ∀ {rows : List Nat} {blob out : Bytes} {t : Fits}, rows.Nodup → (∀ r ∈ rows, r < n) →
      blob.length = n * kind.width + n * 16 →
      (∀ r ∈ rows, DescInRange (tableHeap s h).length (cellDesc kind n blob r)) →
      Staging s idx h out t →
      ∃ t', stageCells (tablePlace h) tile n (heapSize h) kind column rows blob out.length t =
          .ok ((packCells (tableHeap s h) kind n rows (blob, out)).1,
            (packCells (tableHeap s h) kind n rows (blob, out)).2.length) t' ∧
        Staging s idx h (packCells (tableHeap s h) kind n rows (blob, out)).2 t' := by
  have hheap : (tableHeap s h).length ≤ heapSize h := by
    rw [tableHeap, slice_length]
    omega
  intro rows
  induction rows with
  | nil =>
    intro blob out t _ _ _ _ hs
    exact ⟨t, rfl, hs⟩
  | cons r rows ih =>
    intro blob out t hnodup hrows hblob hin hs
    obtain ⟨hnew, hnodup⟩ := List.nodup_cons.1 hnodup
    have hr := hrows r List.mem_cons_self
    obtain ⟨hn, hoff, hle⟩ := hin r List.mem_cons_self
    have hplace : cellAt kind n r + 16 ≤ blob.length := by
      rw [hblob, cellAt]
      omega
    have hdesc : sliceOf blob (n * kind.width + r * 16) 16 =
        .ok (slice blob (cellAt kind n r) 16) := sliceOf_ok hplace
    -- the rest of the rows, after the descriptor of this one
    have hrest : ∀ (data out₁ : Bytes) (t₁ : Fits), data.length = 16 → Staging s idx h out₁ t₁ →
        splice blob (n * kind.width + r * 16) data = .ok (writeAll blob (cellAt kind n r) data) ∧
          ∃ t', stageCells (tablePlace h) tile n (heapSize h) kind column rows
              (writeAll blob (cellAt kind n r) data) out₁.length t₁ =
            .ok ((packCells (tableHeap s h) kind n rows
                (writeAll blob (cellAt kind n r) data, out₁)).1,
              (packCells (tableHeap s h) kind n rows
                (writeAll blob (cellAt kind n r) data, out₁)).2.length) t' ∧
          Staging s idx h (packCells (tableHeap s h) kind n rows
            (writeAll blob (cellAt kind n r) data, out₁)).2 t' := by
      intro data out₁ t₁ hdata hs₁
      refine ⟨?_, ih hnodup (fun q hq => hrows q (List.mem_cons_of_mem _ hq)) ?_ ?_ hs₁⟩
      · exact splice_ok (by rw [hdata]; exact hplace)
      · rw [writeAll_length_of_le (by omega), hblob]
      · intro q hq
        have hsame : cellDesc kind n (writeAll blob (cellAt kind n r) data) q =
            cellDesc kind n blob q := by
          refine congrArg _ (slice_writeAll_of_disjoint (by omega) ?_)
          have hne : q ≠ r := fun heq => hnew (heq ▸ hq)
          rw [hdata]
          unfold cellAt
          omega
        rw [hsame]
        exact hin q (List.mem_cons_of_mem _ hq)
    rw [stageCells, packCells]
    dsimp only
    rw [hdesc, FileOp.ofExcept_bind]
    by_cases hz : (cellDesc kind n blob r).1.toNat = 0
    · obtain ⟨hsplice, t', hrun, hs'⟩ := hrest (writeDescriptor .q 0 0) out t
        (writeDescriptor_length .q 0 0) hs
      rw [if_pos hz, if_pos (show (readDescriptor .q (slice blob (cellAt kind n r) 16)).1.toNat = 0
        from hz), hsplice, FileOp.ofExcept_bind]
      exact ⟨t', hrun, hs'⟩
    · have hin' := hle (by omega)
      obtain ⟨t₁, hcopy, hs₁⟩ := stageCopy_run ho ht hroom hs hin'
      obtain ⟨hsplice, t', hrun, hs'⟩ := hrest
        (writeDescriptor .q (cellDesc kind n blob r).1.toNat out.length) _ t₁
        (writeDescriptor_length .q _ _) hs₁
      have hlen : (out ++ slice (tableHeap s h) (cellDesc kind n blob r).2.toNat
          (cellDesc kind n blob r).1.toNat).length =
            out.length + (cellDesc kind n blob r).1.toNat := by
        rw [List.length_append, slice_length]
        omega
      rw [hlen] at hrun
      rw [if_neg hz]
      change ∃ t', (if (cellDesc kind n blob r).1.toNat = 0 then _
        else if heapSize h < (cellDesc kind n blob r).2.toNat + (cellDesc kind n blob r).1.toNat
          then _ else _ : FileOp _) t = _ ∧ _
      rw [if_neg hz, if_neg (by omega)]
      refine ⟨t', ?_, hs'⟩
      refine (FileOp.bind_ok hcopy).trans ?_
      have hsplice' : splice blob (n * kind.width + r * 16)
          (writeDescriptor .q (readDescriptor .q (slice blob (cellAt kind n r) 16)).1.toNat
            out.length) = _ := hsplice
      rw [hsplice', FileOp.ofExcept_bind]
      exact hrun

/-- A live blob is staged, behind its cells. -/
theorem stageLiveBlob_run (hgzip : LosslessGzip codec) (ho : Opened s idx h)
    (ht : CompTable h columns) (hroom : Room s idx h h.dataEnd) {desc : Int × Int} {column : Column}
    {tile n totalNrows ztilelen nTiles : Nat} (hpos : ¬ desc.1 ≤ 0)
    (hn : (if tile + 1 = nTiles then totalNrows - tile * ztilelen else ztilelen) = n)
    (hb : BlobInRange codec (tableHeap s h) n desc column) (hs : Staging s idx h out t) :
    ∃ new out' t', packBlob codec (tableHeap s h) n desc column out = .ok (new, out') ∧
      stageLiveBlob codec (tablePlace h) totalNrows ztilelen nTiles (heapSize h) tile column
        desc.2.toNat desc.1.toNat out.length t = .ok (new, out'.length) t' ∧
      Staging s idx h out' t' := by
  obtain ⟨hnonneg, -, hle⟩ := hb.region
  have hin := hle (by omega)
  have hslice : (slice (tableHeap s h) desc.2.toNat desc.1.toNat).length = desc.1.toNat :=
    slice_length_of_inRange hb.region
  unfold packBlob stageLiveBlob
  rw [if_neg hpos]
  cases hkind : column.varKind with
  | none =>
    obtain ⟨t', hcopy, hs'⟩ := stageCopy_run ho ht hroom hs hin
    refine ⟨_, _, t', rfl, ?_, hs'⟩
    simp only
    rw [FileOp.bind_ok hcopy, List.length_append, hslice]
    rfl
  | some kind =>
    obtain ⟨blob, hblob, hcells⟩ := hb.cells (by omega) kind hkind
    obtain ⟨z, hz⟩ := hgzip.encodes
      (packCells (tableHeap s h) kind n (List.range n) (blob, out)).1
    obtain ⟨hfit, hregion⟩ := hs.region ho ht hin
    obtain ⟨t₁, hcellsRun, hs₁⟩ := stageCells_run ho ht hroom tile column List.nodup_range
      (fun r hr => List.mem_range.1 hr) (hgzip.sized _ _ _ hblob)
      (fun r hr => hcells r (List.mem_range.1 hr)) hs
    obtain ⟨t₂, t', hgrow, hwrite, hs'⟩ := stageWrite_run ho hroom hs₁ z
    have hread :
        ∀ context, readAt context ((tablePlace h).heapStart + desc.2.toNat) desc.1.toNat t =
        .ok (slice (tableHeap s h) desc.2.toNat desc.1.toNat) t := by
      intro context
      have hexact : readExact t.bytes ((tablePlace h).heapStart + desc.2.toNat) desc.1.toNat =
          some (slice (tableHeap s h) desc.2.toNat desc.1.toNat) :=
        (readExact_eq_some hfit).trans (congrArg some hregion)
      rw [readAt, hexact]
    refine ⟨((packCells (tableHeap s h) kind n (List.range n) (blob, out)).2.length, z.length),
      _, t', ?_, ?_, hs'⟩
    · simp only [hblob, bind, Except.bind]
      rw [hz]
      rfl
    · simp only [hn]
      rw [FileOp.bind_ok (hread _), hblob, FileOp.ofExcept_bind, FileOp.bind_ok hcellsRun]
      simp only
      rw [hz, FileOp.ofExcept_bind, FileOp.bind_ok hgrow, FileOp.bind_ok hwrite, List.length_append]
      rfl

/-- One descriptor of the scan. -/
theorem stageBlob_run (hgzip : LosslessGzip codec) (ho : Opened s idx h) (ht : CompTable h columns)
    (hroom : Room s idx h h.dataEnd) {table : Bytes} {column : Column}
    {tile col n totalNrows ztilelen nTiles : Nat}
    (hslot : slotAt (natKeyword h.cards (str "NAXIS1")) (tile, col) + 16 ≤ table.length)
    (hn : (if tile + 1 = nTiles then totalNrows - tile * ztilelen else ztilelen) = n)
    (hb : BlobInRange codec (tableHeap s h) n
      (slotDesc table (natKeyword h.cards (str "NAXIS1")) (tile, col)) column)
    (hs : Staging s idx h out t) :
    ∃ new out' t', packBlob codec (tableHeap s h) n
        (slotDesc table (natKeyword h.cards (str "NAXIS1")) (tile, col)) column out =
          .ok (new, out') ∧
      stageBlob codec (tablePlace h) table totalNrows ztilelen nTiles (heapSize h) tile column col
        out.length t = .ok (new, out'.length) t' ∧
      Staging s idx h out' t' := by
  have hheap : (tableHeap s h).length ≤ heapSize h := by
    rw [tableHeap, slice_length]
    omega
  have hdesc : sliceOf table (tile * (tablePlace h).rowWidth + col * 16) 16 =
      .ok (slice table (slotAt (natKeyword h.cards (str "NAXIS1")) (tile, col)) 16) :=
    sliceOf_ok hslot
  unfold stageBlob
  rw [hdesc, FileOp.ofExcept_bind]
  change ∃ new out' t', _ ∧ (if (slotDesc table (natKeyword h.cards (str "NAXIS1"))
    (tile, col)).1 ≤ 0 then _ else _ : FileOp _) t = _ ∧ _
  by_cases hpos : (slotDesc table (natKeyword h.cards (str "NAXIS1")) (tile, col)).1 ≤ 0
  · rw [packBlob, if_pos hpos, if_pos hpos]
    exact ⟨(0, 0), out, t, rfl, rfl, hs⟩
  · obtain ⟨new, out', t', hpack, hrun, hs'⟩ :=
      stageLiveBlob_run hgzip ho ht hroom hpos hn hb hs
    refine ⟨new, out', t', hpack, ?_, hs'⟩
    have hin := hb.region.2.2 (by omega)
    rw [if_neg hpos]
    refine (FileOp.raiseIf_bind ?_ _ _ _).trans hrun
    change ¬ heapSize h < (slotDesc table (natKeyword h.cards (str "NAXIS1")) (tile, col)).2.toNat +
      (slotDesc table (natKeyword h.cards (str "NAXIS1")) (tile, col)).1.toNat
    omega

/-- The scan stages what `packBlobs` builds. -/
theorem stageBlobs_run (hgzip : LosslessGzip codec) (ho : Opened s idx h) (ht : CompTable h columns)
    (hroom : Room s idx h h.dataEnd) {table : Bytes} {rowsIn : Nat → Nat}
    {totalNrows ztilelen nTiles : Nat} :
    ∀ {cells : List (Nat × Nat)} {out : Bytes} {t : Fits},
      (∀ cell ∈ cells,
        slotAt (natKeyword h.cards (str "NAXIS1")) cell + 16 ≤ table.length ∧
        (if cell.1 + 1 = nTiles then totalNrows - cell.1 * ztilelen else ztilelen) =
          rowsIn cell.1 ∧
        ∃ column, columns[cell.2]? = some column ∧ BlobInRange codec (tableHeap s h)
          (rowsIn cell.1) (slotDesc table (natKeyword h.cards (str "NAXIS1")) cell) column) →
      Staging s idx h out t →
      ∃ descs out' t', packBlobs codec columns (tableHeap s h) table
          (natKeyword h.cards (str "NAXIS1")) rowsIn cells out = .ok (descs, out') ∧
        stageBlobs codec (tablePlace h) table columns totalNrows ztilelen nTiles (heapSize h) cells
          out.length t = .ok (descs, out'.length) t' ∧
        Staging s idx h out' t' := by
  intro cells
  induction cells with
  | nil =>
    intro out t _ hs
    exact ⟨[], out, t, rfl, rfl, hs⟩
  | cons cell cells ih =>
    intro out t hin hs
    obtain ⟨hslot, hn, column, hcolumn, hb⟩ := hin cell List.mem_cons_self
    obtain ⟨tile, col⟩ := cell
    obtain ⟨new, out₁, t₁, hpack, hrun, hs₁⟩ := stageBlob_run hgzip ho ht hroom hslot hn hb hs
    obtain ⟨descs, out', t', hrest, hrestRun, hs'⟩ := ih
      (fun c hc => hin c (List.mem_cons_of_mem _ hc)) hs₁
    refine ⟨((tile, col), new) :: descs, out', t', ?_, ?_, hs'⟩
    · rw [packBlobs, columnAt]
      simp only [hcolumn, bind, Except.bind]
      simp only at hpack
      rw [hpack]
      simp only
      rw [hrest]
      rfl
    · rw [stageBlobs]
      simp only at hcolumn
      rw [hcolumn]
      simp only
      rw [FileOp.ofExcept_bind, FileOp.bind_ok hrun]
      simp only
      rw [FileOp.bind_ok hrestRun]
      rfl

end

end RustFits.CompressedTable
