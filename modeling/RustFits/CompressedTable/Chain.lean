import RustFits.CompressedTable.Heap

/-!
# Compressed tables and the chain of HDUs

Every mutation of a compressed table ends with the header that holds the new
heap size.  The chain of HDUs is whole again exactly when the data section by
that header ends where the window of the operation ends (`Closes`).

* `append`, `__setitem__` and both repacks always get there, on a table with a
  data section (`step_append`, `step_setitem`, `step_repackFixed`,
  `step_repackVla`).
* `write` restarts the heap at zero but only ever grows the file, so it gets
  there exactly when the new heap needs no fewer blocks than the old one
  (`returns_write`, `step_write`).
-/

namespace RustFits.CompressedTable

open Ascii ByteFile Machine BigEndian

section

variable {base : Fits} {idx : Nat} {h cur : Hdu} {old : Nat} {place : Place} {codec : Codec}
  {E : PyErr → Fits → Prop}

/-! ## The end of an operation -/

/-- The chain is whole again exactly when the new cards describe the window. -/
structure Closes (base : Fits) (idx hi dataOffset : Nat) (cards : List Card) (s : Fits) : Prop where
  le_length : hi ≤ s.bytes.length
  contiguous_iff : Contiguous s ↔ (calculateDataSize cards).val = hi - dataOffset
  othersKept : OthersKept idx base s

theorem returns_commitHeader (ho : Opened base idx h) {hi : Nat} (cards : List Card) :
    Returns (Window base idx h cur hi) (commitHeader idx cards)
      fun _ => Closes base idx hi cur.offsets.dataOffset cards := by
  refine (Window.triple_rewriteHeader ho cards).bind fun _ => ?_
  refine (Window.triple_commit ho cards).post fun _ s hw => ⟨?_, ?_, hw.othersKept ho⟩
  · exact Nat.le_trans (Nat.le_add_right _ _) hw.le_length
  · rw [hw.contiguous_iff ho]
    have hle := hw.dataOffset_le
    show cur.offsets.dataOffset + (headerBlocks cards.length - cur.offsets.headerBlockCount) *
      blockSize + (calculateDataSize cards).val = _ ↔ _
    have hle' : cur.offsets.dataOffset + (headerBlocks cards.length -
      cur.offsets.headerBlockCount) * blockSize ≤ hi + (headerBlocks cards.length -
      cur.offsets.headerBlockCount) * blockSize := hle
    omega

/-- Shrinking the window to an earlier end keeps what lies in front of it. -/
theorem shrinkToHduEnd_run (ho : Opened base idx h) {hi newEnd : Nat} {s : Fits}
    (hroom : Room base idx cur hi) (hlo : cur.offsets.dataOffset ≤ newEnd) (hhi : newEnd ≤ hi)
    (hw : Window base idx h cur hi s) :
    ∃ s', shrinkToHduEnd cur.offsets.dataOffset newEnd s = .ok () s' ∧
      Window base idx h cur newEnd s' ∧ ∀ i < newEnd, s'.bytes[i]? = s.bytes[i]? := by
  have hlen := hw.le_length
  have hnext := hw.nextHduStart ho hroom
  unfold shrinkToHduEnd
  by_cases hlt : newEnd < s.bytes.length
  · rw [if_pos hlt, hnext]
    by_cases hlast : base.hdus.drop (idx + 1) = []
    · rw [if_pos hlast]
      refine ⟨_, rfl, hw.truncate ho hlast hlo hhi, fun i hi' => ?_⟩
      dsimp only
      rw [setLen_getElem?, if_pos hi', if_pos (by omega)]
    · rw [if_neg hlast]
      dsimp only
      rw [if_pos hhi, shiftFileTailBackward_eq hlen (by omega)]
      have hshrink : cur.offsets.dataOffset + (hi - newEnd) ≤ hi := by omega
      have hgap := hw.closeGap ho hshrink
      rw [show hi - (hi - newEnd) = newEnd by omega] at hgap
      refine ⟨_, rfl, hgap, fun i hi' => ?_⟩
      rw [closeGap_getElem? hlen (by omega), if_pos (by omega)]
  · have heq : newEnd = hi := by omega
    rw [if_neg hlt, heq]
    exact ⟨s, rfl, hw, fun _ _ => rfl⟩

theorem triple_shrinkToHduEnd (ho : Opened base idx h) {hi newEnd : Nat}
    (hroom : Room base idx cur hi) (hlo : cur.offsets.dataOffset ≤ newEnd) (hhi : newEnd ≤ hi) :
    Triple (Window base idx h cur hi) (shrinkToHduEnd cur.offsets.dataOffset newEnd)
      (fun _ => Window base idx h cur newEnd) E := by
  intro s hw
  obtain ⟨s', hrun, hw', -⟩ := shrinkToHduEnd_run ho hroom hlo hhi hw
  rw [hrun]
  exact hw'

/-- Descriptors, file length and header at the end of a repack. -/
theorem returns_finishRepack (ho : Opened base idx h) {hi : Nat} {cards : List Card} {table : Bytes}
    {nTiles rowWidth newPcount : Nat} (hroom : Room base idx cur hi)
    (hstart : h.offsets.headerOffset ≤ cur.offsets.dataOffset)
    (htable : table.length = nTiles * rowWidth)
    (hend : cur.offsets.dataOffset + roundUpToBlock (nTiles * rowWidth + newPcount) ≤ hi)
    (hfit : headerBlocks (setPcountInCards cards newPcount).length ≤
      cur.offsets.headerBlockCount) :
    Returns (Window base idx h cur hi)
      (finishRepack idx cards table nTiles rowWidth cur.offsets.dataOffset newPcount)
      fun _ => Closes base idx
        (cur.offsets.dataOffset + roundUpToBlock (nTiles * rowWidth + newPcount))
        cur.offsets.dataOffset (setPcountInCards cards newPcount) := by
  have hround := le_roundUpToBlock (nTiles * rowWidth + newPcount)
  refine (Window.triple_write hstart (by omega)).bind fun _ => ?_
  refine (triple_shrinkToHduEnd ho hroom (by omega) hend).bind fun _ => ?_
  refine (Window.triple_writeHeaderBefore hfit).bind fun _ => ?_
  refine (Window.triple_commit ho _).post fun _ s hw => ⟨hw.le_length, ?_, hw.othersKept ho⟩
  rw [hw.contiguous_iff ho]
  show cur.offsets.dataOffset + (calculateDataSize (setPcountInCards cards newPcount)).val = _ ↔ _
  omega

end

/-! ## The heap of a full write -/

section

variable (codec : Codec)

/-- `putCells` without the file. -/
def encodedCells (col : Nat) (input : ColumnInput) :
    List Nat → Nat → Except PyErr (Nat × List (Nat × Nat × Nat))
  | [], cursor => .ok (cursor, [])
  | row :: rows, cursor => do
    let cell ← input.vlaCell row
    let stored ← if cell.nelements = 0 then .ok (0, 0) else do
      let payload ← cellPayload codec col cell
      .ok (payload.length, cursor)
    let rest ← encodedCells col input rows (cursor + stored.1)
    .ok (rest.1, (cell.nelements, stored) :: rest.2)

/-- The heap cursor behind one column of one fresh tile. -/
def encodedTileColumn (plans : List (List Nat)) (rowsInTile sourceRowOffset cursor : Nat)
    (source : Source × Nat) : Except PyErr Nat :=
  match source.1.1.varKind with
  | some kind => do
    let rows := (List.range rowsInTile).map (sourceRowOffset + ·)
    let cells ← encodedCells codec source.2 source.1.2 rows cursor
    let gzipped ← codec.encodeGzip1 (dualDescriptorBlob kind plans source.2 rows cells.2)
    .ok (cells.1 + gzipped.length)
  | none => do
    let cells ← (List.range rowsInTile).mapM fun r => source.1.2.fixedCell (sourceRowOffset + r)
    let blob ← codec.encodeTableColumnSlab source.2 rowsInTile cells.flatten
    .ok (cursor + blob.length)

/-- The heap cursor behind one tile of a full write. -/
def encodedTile (sources : List Source) (plans : List (List Nat)) (nrows ztilelen nTiles : Nat)
    (cursor tile : Nat) : Except PyErr Nat :=
  let rowsInTile := if tile + 1 = nTiles then wrappingSub nrows (tile * ztilelen) else ztilelen
  sources.zipIdx.foldlM (encodedTileColumn codec plans rowsInTile (tile * ztilelen)) cursor

/-- The compressed heap that a full write of these arrays needs. -/
def encodedHeap (columns : List Column) (inputs : List ColumnInput) (nrows ztilelen nTiles : Nat) :
    Except PyErr Nat := do
  let planned ← planInput (columns.zip inputs) nrows 0
  (List.range nTiles).foldlM
    (encodedTile codec (columns.zip inputs) planned.1 nrows ztilelen nTiles) 0

variable {codec}

theorem returns_heapPut_value (dataOffset heapStart cursor : Nat) (payload : Bytes) :
    Returns (fun _ => True) (heapPut dataOffset heapStart cursor payload)
      fun next _ => next = cursor + payload.length := by
  intro s _
  unfold heapPut
  cases hgrow :
    growFileToAtLeast dataOffset (heapStart + cursor + payload.length - dataOffset) s with
  | ok a s' =>
    rw [FileOp.bind_ok hgrow]
    rfl
  | error e s' =>
    rw [FileOp.bind_error hgrow]
    trivial

theorem returns_encodedCells (place : Place) (col : Nat) (input : ColumnInput) (rows : List Nat)
    (cursor : Nat) :
    Returns (fun _ => True) (putCells codec place col input rows cursor)
      fun out _ => encodedCells codec col input rows cursor = .ok out := by
  induction rows generalizing cursor with
  | nil => exact Triple.pure fun s _ => rfl
  | cons row rows ih =>
    rw [putCells]
    refine (Triple.ofExcept fun _ _ _ => trivial).bind fun cell => Triple.assume fun hcell => ?_
    by_cases hzero : cell.nelements = 0
    · rw [putCell, if_pos hzero, pure_bind]
      refine (ih cursor).bind fun out => ?_
      obtain ⟨last, cells⟩ := out
      refine Triple.pure fun s hrest => ?_
      simp [encodedCells, hcell, hzero, hrest, bind, Except.bind]
    · rw [putCell, if_neg hzero]
      simp only [bind_assoc, pure_bind]
      refine (Triple.ofExcept fun _ _ _ => trivial).bind fun payload =>
        Triple.assume fun hpayload => ?_
      refine (returns_heapPut_value _ _ cursor payload).bind fun next => ?_
      refine Triple.of_state fun s hnext => ?_
      subst hnext
      refine ((ih (cursor + payload.length)).pre fun _ _ => trivial).bind fun out => ?_
      obtain ⟨last, cells⟩ := out
      refine Triple.pure fun s hrest => ?_
      simp [encodedCells, hcell, hzero, hpayload, hrest, bind, Except.bind]

theorem returns_encodedTileColumn (place : Place) (plans : List (List Nat)) (tile rows start : Nat)
    (st : Progress) (source : Source × Nat) :
    Returns (fun _ => True) (encodeTileColumn codec place plans tile rows start st source)
      fun st' _ => encodedTileColumn codec plans rows start st.cursor source = .ok st'.cursor := by
  unfold encodeTileColumn encodedTileColumn
  cases hkind : source.1.1.varKind with
  | some kind =>
    dsimp only
    refine (Triple.ofExcept fun _ _ _ => trivial).bind fun _ => Triple.assume fun _ => ?_
    refine (returns_encodedCells place source.2 source.1.2 _ st.cursor).bind
      fun ⟨cursor, cells⟩ => ?_
    refine Triple.of_state fun s hcells => ?_
    refine (Triple.ofExcept fun _ _ _ => trivial).bind fun gzipped => Triple.assume fun hgzip => ?_
    refine ((returns_heapPut_value _ _ cursor gzipped).pre fun _ _ => trivial).bind fun next => ?_
    refine Triple.of_state fun s' hnext => ?_
    refine (Triple.ofExcept fun _ _ _ => trivial).bind fun table => Triple.assume fun _ => ?_
    refine Triple.pure fun s'' _ => ?_
    simp only [hcells, bind, Except.bind, hgzip]
    exact congrArg Except.ok hnext.symm
  | none =>
    dsimp only
    refine (Triple.ofExcept fun _ _ _ => trivial).bind fun cells => Triple.assume fun hcells => ?_
    refine (Triple.ofExcept fun _ _ _ => trivial).bind fun blob => Triple.assume fun hblob => ?_
    refine (returns_heapPut_value _ _ st.cursor blob).bind fun next => ?_
    refine Triple.of_state fun s' hnext => ?_
    refine (Triple.ofExcept fun _ _ _ => trivial).bind fun table => Triple.assume fun _ => ?_
    refine Triple.pure fun s'' _ => ?_
    simp only [hcells, bind, Except.bind, hblob]
    exact congrArg Except.ok hnext.symm

/-- A loop whose steps have the cursors of a pure loop. -/
theorem returns_encoded_foldlM {α : Type} {f : Progress → α → FileOp Progress}
    {g : Nat → α → Except PyErr Nat}
    (hf : ∀ st a, Returns (fun _ => True) (f st a) fun st' _ => g st.cursor a = .ok st'.cursor)
    (l : List α) (st : Progress) :
    Returns (fun _ => True) (l.foldlM f st) fun st' _ => l.foldlM g st.cursor = .ok st'.cursor := by
  induction l generalizing st with
  | nil =>
    rw [List.foldlM_nil]
    exact Triple.pure fun s _ => rfl
  | cons a l ih =>
    rw [List.foldlM_cons]
    refine (hf st a).bind fun st' => Triple.of_state fun s hst => ?_
    refine ((ih st').pre fun _ _ => trivial).post fun st'' s' hst' => ?_
    rw [List.foldlM_cons, hst]
    exact hst'

end

/-! ## New headers -/

section

variable {cards : List Card}

theorem parseKeyword_pcountCards_other {key : Str} (pcount : Nat) (zpcount : Option Nat)
    (hp : (str "PCOUNT").isPrefixOf key = false) (hz : (str "ZPCOUNT").isPrefixOf key = false) :
    parseKeyword (pcountCards cards pcount zpcount) key = parseKeyword cards key := by
  cases zpcount with
  | none => exact parseKeyword_setPcount_other pcount hp
  | some z =>
    rw [pcountCards, parseKeyword_setZpcount_other z hz, parseKeyword_setPcount_other pcount hp]

theorem parseKeyword_pcountCards_self (hfirst : PcountFirst cards) {pcount : Nat}
    (hlt : pcount ≤ 9223372036854775807) (zpcount : Option Nat) :
    parseKeyword (pcountCards cards pcount zpcount) (str "PCOUNT") = some (pcount : Int) := by
  have hself := parseKeyword_setPcount_self hfirst pcount
  rw [asI64_of_le hlt] at hself
  cases zpcount with
  | none => exact hself
  | some z => rw [pcountCards, parseKeyword_setZpcount_other z (by decide), hself]

/-- The data section by the header that an operation leaves. -/
theorem dataSize_pcountCards {base : List Card} (hstd : StandardTable base)
    (hsame : ∀ key ∈ [str "BITPIX", str "NAXIS", str "GCOUNT", str "NAXIS1"],
      parseKeyword cards key = parseKeyword base key) {n pcount : Nat}
    (hn : parseKeyword cards (str "NAXIS2") = some (n : Int)) (hfirst : PcountFirst cards)
    (zpcount : Option Nat)
    (hsize : natKeyword base (str "NAXIS1") * n + pcount ≤ 9223372036854775807) :
    (calculateDataSize (pcountCards cards pcount zpcount)).val =
      roundUpToBlock (natKeyword base (str "NAXIS1") * n + pcount) := by
  refine dataSize_of_counts hstd (fun key hkey => ?_) ?_
    (parseKeyword_pcountCards_self hfirst (by omega) zpcount) hsize
  · rw [parseKeyword_pcountCards_other, hsame key hkey]
    · revert hkey key
      decide
    · revert hkey key
      decide
  · rw [parseKeyword_pcountCards_other pcount zpcount (by decide) (by decide), hn]

theorem naxis2_eq (hstd : StandardTable cards) :
    parseKeyword cards (str "NAXIS2") = some (natKeyword cards (str "NAXIS2") : Int) := by
  obtain ⟨n, hn⟩ := hstd.naxis2
  rw [hn, natKeyword_of_some hn]

end

/-! ## One operation -/

/-- File offsets are signed 64-bit integers. -/
def Addressable (s : Fits) : Prop := s.bytes.length ≤ 9223372036854775807

section

variable {s s' : Fits} {idx : Nat} {h : Hdu} {codec : Codec}

theorem advances_writeTiles {base : Fits} {cur : Hdu} {old : Nat} {place : Place} {nTiles : Nat}
    (hs : nTiles ≠ 0 → Site base idx h cur old place) (sources : List Source)
    (plans : List (List Nat)) (nrows ztilelen : Nat) (st : Progress) :
    Advances base idx h cur old place st
      ((List.range nTiles).foldlM
        (writeTile codec place sources plans nrows ztilelen nTiles) st) := by
  by_cases hn : nTiles = 0
  · subst hn
    exact advances_pure st
  · refine advances_foldlM (fun st tile => ?_) _ st
    exact advances_foldlM (fun st source =>
      advances_encodeTileColumn (hs hn) _ _ _ _ st source) _ st

theorem returns_encoded_writeTiles (place : Place) (sources : List Source)
    (plans : List (List Nat)) (nrows ztilelen nTiles : Nat) (st : Progress) :
    Returns (fun _ => True)
      ((List.range nTiles).foldlM (writeTile codec place sources plans nrows ztilelen nTiles) st)
      fun st' _ => (List.range nTiles).foldlM
        (encodedTile codec sources plans nrows ztilelen nTiles) st.cursor = .ok st'.cursor := by
  refine returns_encoded_foldlM (fun st tile => ?_) _ st
  exact returns_encoded_foldlM (fun st source => returns_encodedTileColumn _ _ _ _ _ st source) _ st

theorem dataEnd_of_standard (hstd : StandardTable h.cards) :
    h.dataEnd = h.offsets.dataOffset + roundUpToBlock (tableDataBytes h.cards) := by
  rw [Hdu.dataEnd, Hdu.dataSize, dataSize_of_standard hstd]

/-- The place of the table in the middle of an operation that keeps its tiles. -/
def tablePlace (h : Hdu) : Place :=
  ⟨h.offsets.dataOffset,
    h.offsets.dataOffset + natKeyword h.cards (str "NAXIS2") * natKeyword h.cards (str "NAXIS1"),
    natKeyword h.cards (str "NAXIS1")⟩

theorem site_tablePlace (ho : Opened s idx h) (hroom : Room s idx h h.dataEnd) :
    Site s idx h h h.dataEnd (tablePlace h) :=
  ⟨ho, Nat.le_of_lt ho.headerOffset_lt, rfl, Nat.le_add_right _ _, hroom⟩

/-- The window of the table while the heap grows from `cursor` on. -/
theorem heapEnd_tablePlace (hstd : StandardTable h.cards) (cursor : Nat) :
    (tablePlace h).heapEnd h.dataEnd cursor = h.offsets.dataOffset +
      max (roundUpToBlock (tableDataBytes h.cards))
        (roundUpToBlock (natKeyword h.cards (str "NAXIS1") * natKeyword h.cards (str "NAXIS2") +
          cursor)) := by
  unfold Place.heapEnd tablePlace
  rw [dataEnd_of_standard hstd]
  dsimp only
  rw [Nat.add_sub_cancel_left, Nat.mul_comm (natKeyword h.cards (str "NAXIS2"))]
  omega

/-- The window of the table before the heap grows. -/
theorem heapWindow_start (ho : Opened s idx h) (hstd : StandardTable h.cards) :
    HeapWindow s idx h h h.dataEnd (tablePlace h) (natKeyword h.cards (str "PCOUNT")) s := by
  rw [HeapWindow, heapEnd_tablePlace hstd, ← tableDataBytes, Nat.max_self,
    ← dataEnd_of_standard hstd]
  exact ho.window

/-- The window of the table when the heap starts again. -/
theorem heapWindow_zero (ho : Opened s idx h) (hstd : StandardTable h.cards) :
    HeapWindow s idx h h h.dataEnd (tablePlace h) 0 s := by
  have hmono := roundUpToBlock_mono (show natKeyword h.cards (str "NAXIS1") *
    natKeyword h.cards (str "NAXIS2") ≤ tableDataBytes h.cards from Nat.le_add_right _ _)
  rw [HeapWindow, heapEnd_tablePlace hstd, Nat.add_zero, Nat.max_eq_left hmono,
    ← dataEnd_of_standard hstd]
  exact ho.window

/-- A full write: the window ends at the old or the new end of the data section,
whichever is later. -/
theorem returns_write (ho : Opened s idx h) (hstd : StandardTable h.cards)
    (hroom : natKeyword h.cards (str "NAXIS2") = 0 ∨ Room s idx h h.dataEnd)
    (columns : List Column) (inputs : List ColumnInput) (nrows ztilelen : Nat) :
    Returns (fun t => t = s)
      (writeCompressedTableData codec idx h.cards columns inputs nrows ztilelen
        (natKeyword h.cards (str "NAXIS2")) (natKeyword h.cards (str "NAXIS1"))
        h.offsets.dataOffset)
      fun _ s' => ∃ pcount zpcount,
        encodedHeap codec columns inputs nrows ztilelen (natKeyword h.cards (str "NAXIS2")) =
          .ok pcount ∧
        Closes s idx ((tablePlace h).heapEnd h.dataEnd pcount) h.offsets.dataOffset
          (pcountCards h.cards pcount zpcount) s' := by
  have hbytes : tableDataBytes h.cards =
      natKeyword h.cards (str "NAXIS1") * natKeyword h.cards (str "NAXIS2") +
        natKeyword h.cards (str "PCOUNT") := rfl
  have hcomm := Nat.mul_comm (natKeyword h.cards (str "NAXIS1")) (natKeyword h.cards (str "NAXIS2"))
  have hstart := ho.headerOffset_lt
  have hend := dataEnd_of_standard hstd
  have hle := ho.dataEnd_le
  have hmono := roundUpToBlock_mono (show natKeyword h.cards (str "NAXIS2") *
    natKeyword h.cards (str "NAXIS1") ≤ tableDataBytes h.cards by omega)
  have hwin0 := heapWindow_zero ho hstd
  unfold writeCompressedTableData
  refine (Triple.raiseIf fun _ _ => trivial).bind fun _ => Triple.assume fun _ => ?_
  refine (Triple.ofExcept fun _ _ _ => trivial).bind fun ⟨plans, originalPcount⟩ =>
    Triple.assume fun hplan => ?_
  refine (Triple.ofExcept fun _ _ _ => trivial).bind fun _ => Triple.assume fun _ => ?_
  refine (Triple.modify fun t ht => ?_ : Returns (fun t => t = s) _ fun _ =>
    HeapWindow s idx h h h.dataEnd (tablePlace h) 0).bind fun _ => ?_
  · rw [ht, if_neg (by omega)]
    exact hwin0
  · refine ((advances_writeTiles (fun hn => site_tablePlace ho (hroom.resolve_left hn)) _ plans
      nrows ztilelen ⟨0, _⟩).and (returns_encoded_writeTiles (tablePlace h) (columns.zip inputs)
        plans nrows ztilelen (natKeyword h.cards (str "NAXIS2")) _)).pre
          (fun _ hw => ⟨hw, trivial⟩) |>.bind fun st => ?_
    refine Triple.of_state fun t hst => ?_
    obtain ⟨⟨⟨htable, -⟩, hwin⟩, hvalue⟩ := hst
    have hheap := heapEnd_tablePlace hstd st.cursor
    have htotal := le_roundUpToBlock (natKeyword h.cards (str "NAXIS1") *
      natKeyword h.cards (str "NAXIS2") + st.cursor)
    rw [List.length_replicate] at htable
    refine Triple.pre ?_ (fun t' (ht : t' = t) => ht ▸ hwin)
    refine (Window.triple_write (by omega) ?_).bind fun _ => ?_
    · rw [List.length_replicate, ← hcomm]
      omega
    · refine (Window.triple_write (by omega) (by omega)).bind fun _ => ?_
      refine (returns_commitHeader ho _).post fun _ s' hclose =>
        ⟨st.cursor, some originalPcount, ?_, hclose⟩
      rw [encodedHeap, hplan]
      exact hvalue

/-- A write leaves the chain whole exactly when the new heap needs at least the
blocks of the old one. -/
theorem step_write (ho : Opened s idx h) (hstd : StandardTable h.cards)
    (hfirst : PcountFirst h.cards)
    (hroom : natKeyword h.cards (str "NAXIS2") = 0 ∨ Room s idx h h.dataEnd)
    (columns : List Column) (inputs : List ColumnInput) (nrows ztilelen : Nat) :
    Returns (fun t => t = s)
      (writeCompressedTableData codec idx h.cards columns inputs nrows ztilelen
        (natKeyword h.cards (str "NAXIS2")) (natKeyword h.cards (str "NAXIS1"))
        h.offsets.dataOffset)
      fun _ s' => ∃ pcount,
        encodedHeap codec columns inputs nrows ztilelen (natKeyword h.cards (str "NAXIS2")) =
          .ok pcount ∧ OthersKept idx s s' ∧
        (Addressable s' → (Contiguous s' ↔ roundUpToBlock (tableDataBytes h.cards) ≤ roundUpToBlock
          (natKeyword h.cards (str "NAXIS1") * natKeyword h.cards (str "NAXIS2") + pcount))) := by
  refine (returns_write ho hstd hroom columns inputs nrows ztilelen).post fun _ s' hpost => ?_
  obtain ⟨pcount, zpcount, hencoded, hclose⟩ := hpost
  refine ⟨pcount, hencoded, hclose.othersKept, fun haddr => ?_⟩
  have hend := heapEnd_tablePlace hstd pcount
  have hlen := hclose.le_length
  have htotal := le_roundUpToBlock (natKeyword h.cards (str "NAXIS1") *
    natKeyword h.cards (str "NAXIS2") + pcount)
  unfold Addressable at haddr
  have hsize := dataSize_pcountCards hstd (fun _ _ => rfl) (naxis2_eq hstd) hfirst zpcount
    (show natKeyword h.cards (str "NAXIS1") * natKeyword h.cards (str "NAXIS2") + pcount ≤
      9223372036854775807 by omega)
  rw [hclose.contiguous_iff, hsize, hend]
  omega

/-! ### append -/

theorem returns_relocate {base : Fits} {cur : Hdu} {hi src dst n : Nat}
    (hlo : h.offsets.headerOffset ≤ dst) (hhi : dst + n ≤ hi) :
    Returns (Window base idx h cur hi) (relocateRegionForwardLocal src dst n)
      fun _ => Window base idx h cur hi := by
  intro t hw
  unfold relocateRegionForwardLocal
  split_ifs
  · exact hw
  · cases hcopy : copyBackToFront shiftChunk src dst n n t.bytes with
    | none => trivial
    | some bytes =>
      obtain ⟨h1, h2, h3⟩ := copyBackToFront_frame n n t.bytes bytes hlo hhi hw.le_length hcopy
      exact ⟨hw.hdus, hw.start, hw.blocks, hw.dataOffset, h1.trans hw.front, h2.trans hw.back,
        hw.dataOffset_le, by rw [h3]; exact hw.le_length⟩

theorem returns_relocateHeap {base : Fits} {cur : Hdu} {hi dataOffset old new added pcount : Nat}
    (hlo : h.offsets.headerOffset ≤ dataOffset + new) (hhi : dataOffset + new + pcount ≤ hi) :
    Returns (Window base idx h cur hi) (relocateHeap dataOffset old new added pcount)
      fun _ => Window base idx h cur hi :=
  Triple.ite (fun _ => returns_relocate hlo hhi) fun _ => Triple.pure fun _ hw => hw

theorem grownTable_ok {existing table : Bytes} {n : Nat} (hok : grownTable existing n = .ok table) :
    existing.length ≤ n ∧ table.length = n := by
  unfold grownTable at hok
  split_ifs at hok with hle
  cases hok
  refine ⟨hle, ?_⟩
  simp
  omega

/-- The window of an append, once the heap lies behind the larger descriptor
table and reaches up to `cursor`. -/
theorem heapEnd_append (hstd : StandardTable h.cards) {descs cursor : Nat}
    (hdescs : natKeyword h.cards (str "NAXIS2") * natKeyword h.cards (str "NAXIS1") ≤ descs)
    (hcursor : natKeyword h.cards (str "PCOUNT") ≤ cursor) :
    (Place.mk h.offsets.dataOffset (h.offsets.dataOffset + descs)
      (natKeyword h.cards (str "NAXIS1"))).heapEnd h.dataEnd cursor =
      h.offsets.dataOffset + roundUpToBlock (descs + cursor) := by
  have hmono := roundUpToBlock_mono (show tableDataBytes h.cards ≤ descs + cursor by
    rw [tableDataBytes, Nat.mul_comm]
    omega)
  unfold Place.heapEnd
  rw [dataEnd_of_standard hstd]
  dsimp only
  rw [Nat.add_sub_cancel_left]
  omega

/-- The part of an append that changes the file. -/
theorem returns_appendRows (ho : Opened s idx h) (hstd : StandardTable h.cards)
    (hroom : Room s idx h h.dataEnd) (sources : List Source) (plans : List (List Nat))
    (kept : List Bytes) (shape : AppendShape) (zpcount : Option Nat) (appendNrows ztilelen : Nat) :
    Returns (fun t => t = s)
      (appendRows codec idx h.cards sources plans kept shape zpcount appendNrows ztilelen
        (natKeyword h.cards (str "NAXIS2")) (natKeyword h.cards (str "NAXIS1"))
        h.offsets.dataOffset (natKeyword h.cards (str "PCOUNT")))
      fun _ s' => ∃ pcount cards',
        appendedCards h.cards shape.newNTiles shape.newNrows pcount zpcount = .ok cards' ∧
        Closes s idx (h.offsets.dataOffset +
            roundUpToBlock (shape.newNTiles * natKeyword h.cards (str "NAXIS1") + pcount))
          h.offsets.dataOffset cards' s' := by
  have hstart := ho.headerOffset_lt
  generalize hdescs : shape.newNTiles * natKeyword h.cards (str "NAXIS1") = descs
  let place : Place := ⟨h.offsets.dataOffset, h.offsets.dataOffset + descs,
    natKeyword h.cards (str "NAXIS1")⟩
  have hsite : Site s idx h h h.dataEnd place :=
    ⟨ho, Nat.le_of_lt hstart, rfl, Nat.le_add_right _ _, hroom⟩
  unfold appendRows
  dsimp only
  rw [hdescs]
  refine Triple.pre ?_ (fun t (ht : t = s) => (ht ▸ ho.window : Window s idx h h h.dataEnd t))
  refine (Window.triple_grow ho hroom _).bind fun _ => ?_
  have hheap : max h.dataEnd (h.offsets.dataOffset +
      roundUpToBlock (descs + natKeyword h.cards (str "PCOUNT"))) =
      place.heapEnd h.dataEnd (natKeyword h.cards (str "PCOUNT")) := by
    show _ = max h.dataEnd (h.offsets.dataOffset +
      roundUpToBlock (h.offsets.dataOffset + descs - h.offsets.dataOffset + _))
    rw [Nat.add_sub_cancel_left]
  rw [hheap]
  have hge := heapEnd_ge h.dataEnd hsite.heapStart (natKeyword h.cards (str "PCOUNT"))
  have hplace : place.heapStart = h.offsets.dataOffset + descs := rfl
  refine (returns_relocateHeap (by omega) (by omega)).bind fun _ => ?_
  refine (Triple.readAt fun _ _ _ => trivial).bind fun existing => Triple.assume fun hread => ?_
  refine (Triple.ofExcept fun _ _ _ => trivial).bind fun table => Triple.assume fun htable => ?_
  obtain ⟨hfit, hsize⟩ := grownTable_ok htable
  refine (advances_mergeTile hsite sources plans kept shape _ ⟨_, table⟩).bind fun merged =>
    Triple.assume fun hmerged => ?_
  refine (advances_foldlM (fun st tile => ?_) _ merged).bind fun st => Triple.assume fun hst => ?_
  · exact advances_foldlM (fun st source => advances_encodeTileColumn hsite _ _ _ _ st source) _ st
  · have hcursor : natKeyword h.cards (str "PCOUNT") ≤ st.cursor := Nat.le_trans hmerged.2 hst.2
    have hend := heapEnd_append hstd (hread ▸ hfit) hcursor
    have hround := le_roundUpToBlock (descs + st.cursor)
    have hlength : st.table.length = descs := by
      rw [hst.1, hmerged.1]
      exact hsize
    rw [HeapWindow, hend]
    refine (Window.triple_write (by omega) (by omega)).bind fun _ => ?_
    refine (Triple.ofExcept fun _ _ _ => trivial).bind fun cards' => Triple.assume fun hcards => ?_
    exact (returns_commitHeader ho cards').post fun _ s' hclose =>
      ⟨st.cursor, cards', hcards, hclose⟩

/-- The counts in the header that an append leaves. -/
theorem appendedCards_ok (hfirst : PcountFirst h.cards)
    (hrows : IntCardFirst (str "NAXIS2") h.cards)
    {newNTiles newNrows pcount : Nat} {zpcount : Option Nat} {cards' : List Card}
    (hok : appendedCards h.cards newNTiles newNrows pcount zpcount = .ok cards') :
    ∃ cards, cards' = pcountCards cards pcount zpcount ∧ PcountFirst cards ∧
      (∀ key ∈ [str "BITPIX", str "NAXIS", str "GCOUNT", str "NAXIS1"],
        parseKeyword cards key = parseKeyword h.cards key) ∧
      parseKeyword cards (str "NAXIS2") = some (asI64 newNTiles) := by
  unfold appendedCards at hok
  cases htiles : updateIntCardInPlace h.cards (str "NAXIS2") (asI64 newNTiles)
      (str "number of tiles") with
  | error e =>
    rw [htiles] at hok
    cases hok
  | ok cards1 =>
    rw [htiles] at hok
    change (updateIntCardInPlace cards1 (str "ZNAXIS2") (asI64 newNrows)
      (str "original (uncompressed) row count") >>= fun cards =>
        .ok (pcountCards cards pcount zpcount)) = _ at hok
    cases hnrows : updateIntCardInPlace cards1 (str "ZNAXIS2") (asI64 newNrows)
        (str "original (uncompressed) row count") with
    | error e =>
      rw [hnrows] at hok
      cases hok
    | ok cards2 =>
      rw [hnrows] at hok
      obtain ⟨-, hother1, hself1⟩ :=
        updateIntCardInPlace_ok (by decide) (by decide) (inI64_asI64 newNTiles) htiles
      obtain ⟨-, hother2, -⟩ :=
        updateIntCardInPlace_ok (by decide) (by decide) (inI64_asI64 newNrows) hnrows
      have hfirst1 : PcountFirst cards1 := pcountFirst_update (by decide) (by decide)
        (inI64_asI64 newNTiles) (by decide) (by decide) htiles hfirst
      have hfirst2 : PcountFirst cards2 := pcountFirst_update (by decide) (by decide)
        (inI64_asI64 newNrows) (by decide) (by decide) hnrows hfirst1
      refine ⟨cards2, (Except.ok.inj hok).symm, hfirst2, fun key hkey => ?_, ?_⟩
      · rw [hother2 key, hother1 key]
        · revert hkey key
          decide
        · revert hkey key
          decide
      · rw [hother2 _ (by decide), hself1 hrows]

/-- An append leaves the chain whole. -/
theorem step_append (ho : Opened s idx h) (hstd : StandardTable h.cards)
    (hfirst : PcountFirst h.cards) (hrows : IntCardFirst (str "NAXIS2") h.cards)
    (hwidth : 0 < natKeyword h.cards (str "NAXIS1")) (hroom : Room s idx h h.dataEnd)
    (columns : List Column) (inputs : List ColumnInput) (appendNrows nrows ztilelen : Nat) :
    Returns (fun t => t = s)
      (appendCompressedTableData codec idx h.cards columns inputs appendNrows nrows ztilelen
        (natKeyword h.cards (str "NAXIS2")) (natKeyword h.cards (str "NAXIS1"))
        h.offsets.dataOffset (natKeyword h.cards (str "PCOUNT")))
      fun _ s' => Addressable s' → Contiguous s' ∧ OthersKept idx s s' := by
  unfold appendCompressedTableData
  refine (Triple.raiseIf fun _ _ => trivial).bind fun _ => Triple.assume fun _ => ?_
  refine Triple.ite (fun _ => ?_) fun _ => ?_
  · refine Triple.pure fun t ht _ => ?_
    rw [ht]
    exact ⟨ho.contiguous, OthersKept.refl idx s⟩
  · refine (Triple.ofExcept fun _ _ _ => trivial).bind fun _ => Triple.assume fun _ => ?_
    refine (Triple.ofExcept fun _ _ _ => trivial).bind fun ⟨plans, newOrigPcount⟩ =>
      Triple.assume fun _ => ?_
    refine (returns_readMergeColumns h.cards columns _ _ _ _ _).bind fun kept => ?_
    refine (returns_appendRows ho hstd hroom _ plans kept _ _ appendNrows ztilelen).bind fun _ => ?_
    refine Triple.pure fun s' hpost haddr => ?_
    obtain ⟨pcount, cards', hcards, hclose⟩ := hpost
    have hlen := hclose.le_length
    obtain ⟨cards, rfl, hfirst', hsame, htiles⟩ := appendedCards_ok hfirst hrows hcards
    generalize (appendShape appendNrows nrows ztilelen
      (natKeyword h.cards (str "NAXIS2"))).newNTiles = tiles at *
    have htotal := le_roundUpToBlock (tiles * natKeyword h.cards (str "NAXIS1") + pcount)
    have hle : tiles ≤ tiles * natKeyword h.cards (str "NAXIS1") := Nat.le_mul_of_pos_right _ hwidth
    unfold Addressable at haddr
    rw [asI64_of_le (by omega)] at htiles
    have hsize : natKeyword h.cards (str "NAXIS1") * tiles + pcount ≤ 9223372036854775807 := by
      rw [Nat.mul_comm]
      omega
    refine ⟨hclose.contiguous_iff.2 ?_, hclose.othersKept⟩
    rw [dataSize_pcountCards hstd hsame htiles hfirst' _ hsize, Nat.mul_comm]
    omega

/-! ### setitem -/

/-- An assignment leaves the chain whole: it only adds to the heap. -/
theorem step_setitem (ho : Opened s idx h) (hstd : StandardTable h.cards)
    (hfirst : PcountFirst h.cards) (hroom : Room s idx h h.dataEnd)
    (selected : List (Source × Nat)) (diskRows : List Nat) (nrows ztilelen : Nat) :
    Returns (fun t => t = s)
      (setitemCompressedCols codec idx h.cards selected diskRows nrows ztilelen
        (natKeyword h.cards (str "NAXIS2")) (natKeyword h.cards (str "NAXIS1"))
        h.offsets.dataOffset (natKeyword h.cards (str "PCOUNT")))
      fun _ s' => Addressable s' → Contiguous s' ∧ OthersKept idx s s' := by
  have hsite := site_tablePlace ho hroom
  have hstart := ho.headerOffset_lt
  have hcomm := Nat.mul_comm (natKeyword h.cards (str "NAXIS1")) (natKeyword h.cards (str "NAXIS2"))
  have hwindow := heapWindow_start ho hstd
  unfold setitemCompressedCols
  refine Triple.ite (fun _ => ?_) fun _ => ?_
  · refine Triple.pure fun t ht _ => ?_
    rw [ht]
    exact ⟨ho.contiguous, OthersKept.refl idx s⟩
  · refine (Triple.ofExcept fun _ _ _ => trivial).bind fun _ => Triple.assume fun _ => ?_
    refine (Triple.readAt fun _ _ _ => trivial).bind fun table => Triple.assume fun hread => ?_
    refine Triple.pre ?_ (fun t (ht : t = s) => (ht ▸ hwindow : HeapWindow s idx h h h.dataEnd
      (tablePlace h) (natKeyword h.cards (str "PCOUNT")) t))
    refine (advancesEdit_foldlM (fun st tile => ?_) _ (⟨_, table⟩, _)).bind fun ⟨st, zpcount⟩ =>
      Triple.assume fun hst => ?_
    · exact advancesEdit_foldlM
        (fun st source => advancesEdit_column hsite h.cards _ _ _ st source) _ st
    · obtain ⟨htable, hcursor⟩ := hst
      have hend := heapEnd_tablePlace hstd st.cursor
      have hmono := roundUpToBlock_mono (show tableDataBytes h.cards ≤
          natKeyword h.cards (str "NAXIS1") * natKeyword h.cards (str "NAXIS2") + st.cursor from
        Nat.add_le_add_left hcursor _)
      rw [Nat.max_eq_right hmono] at hend
      have htotal := le_roundUpToBlock (natKeyword h.cards (str "NAXIS1") *
        natKeyword h.cards (str "NAXIS2") + st.cursor)
      rw [HeapWindow, hend]
      refine (Window.triple_write (by omega) ?_).bind fun _ => ?_
      · dsimp only at htable
        omega
      · refine (returns_commitHeader ho _).bind fun _ => ?_
        refine Triple.pure fun s' hpost haddr => ?_
        have hlen := hpost.le_length
        unfold Addressable at haddr
        refine ⟨hpost.contiguous_iff.2 ?_, hpost.othersKept⟩
        rw [dataSize_pcountCards hstd (fun _ _ => rfl) (naxis2_eq hstd) hfirst _ (by omega)]
        omega

/-! ### repack -/

/-- Where the scan puts the live blobs. -/
theorem movePlans_ok {table : Bytes} {rowWidth currentPcount : Nat} :
    ∀ {cells : List (Nat × Nat)} {cursor : Nat} {plans : List MovePlan} {total : Nat},
      movePlans table rowWidth currentPcount cells cursor = .ok (plans, total) →
      cursor ≤ total ∧
      (∀ plan ∈ plans, plan.oldOffset + plan.length ≤ currentPcount ∧
        plan.newOffset + plan.length ≤ total) ∧
      (total = cursor ∨ ∃ plan ∈ plans, plan.newOffset + plan.length = total) := by
  intro cells
  induction cells with
  | nil =>
    intro cursor plans total hok
    cases hok
    exact ⟨Nat.le_refl _, by simp, Or.inl rfl⟩
  | cons cell cells ih =>
    intro cursor plans total hok
    obtain ⟨tile, col⟩ := cell
    rw [movePlans] at hok
    cases hdesc : sliceOf table (tile * rowWidth + col * 16) 16 with
    | error e =>
      rw [hdesc] at hok
      cases hok
    | ok desc =>
      rw [hdesc] at hok
      dsimp only [bind, Except.bind] at hok
      generalize readDescriptor .q desc = place at hok
      obtain ⟨nelems, oldOff⟩ := place
      dsimp only at hok
      split_ifs at hok with hneg hzero hpast
      · exact ih hok
      · -- a live blob goes to the cursor
        cases hrest : movePlans table rowWidth currentPcount cells (cursor + nelems.toNat) with
        | error e =>
          rw [hrest] at hok
          cases hok
        | ok out =>
          rw [hrest] at hok
          cases hok
          obtain ⟨hle, hmem, hlast⟩ := ih hrest
          refine ⟨by omega, fun plan hplan => ?_, Or.inr ?_⟩
          · rcases List.mem_cons.1 hplan with rfl | hplan
            · exact ⟨by dsimp only; omega, by dsimp only; omega⟩
            · exact hmem plan hplan
          · rcases hlast with hlast | ⟨plan, hplan, hlast⟩
            · exact ⟨_, List.mem_cons_self, hlast.symm⟩
            · exact ⟨plan, List.mem_cons_of_mem _ hplan, hlast⟩

/-- In-place moves stay inside the old heap. -/
theorem fastPathSafe_le {currentPcount : Nat} :
    ∀ {plans : List MovePlan}, (∀ plan ∈ plans, plan.oldOffset + plan.length ≤ currentPcount) →
      fastPathSafe currentPcount plans = true →
      ∀ plan ∈ plans, plan.newOffset + plan.length ≤ currentPcount
  | [], _, _ => by simp
  | [plan], _, hsafe => by simpa [fastPathSafe] using hsafe
  | plan :: next :: rest, hold, hsafe => by
    rw [fastPathSafe, Bool.and_eq_true, decide_eq_true_eq] at hsafe
    intro p hp
    rcases List.mem_cons.1 hp with rfl | hp
    · have := hold next (by simp)
      omega
    · exact fastPathSafe_le (fun q hq => hold q (List.mem_cons_of_mem _ hq)) hsafe.2 p hp

/-- The moves of a repack: the window they leave has room for the new heap. -/
theorem returns_moveBlobs (ho : Opened s idx h) (hstd : StandardTable h.cards)
    (hroom : Room s idx h h.dataEnd) {plans : List MovePlan} {newPcount : Nat}
    (hmem : ∀ plan ∈ plans, plan.oldOffset + plan.length ≤ natKeyword h.cards (str "PCOUNT") ∧
      plan.newOffset + plan.length ≤ newPcount)
    (hlast : newPcount = 0 ∨ ∃ plan ∈ plans, plan.newOffset + plan.length = newPcount) :
    Returns (Window s idx h h h.dataEnd)
      (moveBlobs h.offsets.dataOffset (tablePlace h).heapStart
        (natKeyword h.cards (str "PCOUNT")) newPcount plans)
      fun _ s' => ∃ hi, h.dataEnd ≤ hi ∧
        h.offsets.dataOffset + roundUpToBlock (natKeyword h.cards (str "NAXIS2") *
          natKeyword h.cards (str "NAXIS1") + newPcount) ≤ hi ∧ Window s idx h h hi s' := by
  have hstart := ho.headerOffset_lt
  have hend := dataEnd_of_standard hstd
  have hbytes := le_roundUpToBlock (tableDataBytes h.cards)
  have hsize : tableDataBytes h.cards = natKeyword h.cards (str "NAXIS2") *
      natKeyword h.cards (str "NAXIS1") + natKeyword h.cards (str "PCOUNT") := by
    rw [tableDataBytes, Nat.mul_comm]
  have hheap : (tablePlace h).heapStart = h.offsets.dataOffset + natKeyword h.cards (str "NAXIS2") *
    natKeyword h.cards (str "NAXIS1") := rfl
  unfold moveBlobs
  refine Triple.ite (fun hsafe => ?_) fun _ => ?_
  · -- in place: the new heap is no longer than the old one
    have hfast := fastPathSafe_le (fun plan hplan => (hmem plan hplan).1) hsafe
    have hshrunk : newPcount ≤ natKeyword h.cards (str "PCOUNT") := by
      rcases hlast with hzero | ⟨plan, hplan, hlast⟩
      · omega
      · rw [← hlast]
        exact hfast plan hplan
    have hmono := roundUpToBlock_mono (show natKeyword h.cards (str "NAXIS2") *
      natKeyword h.cards (str "NAXIS1") + newPcount ≤ tableDataBytes h.cards by omega)
    refine (Triple.forM fun plan hplan => ?_).post fun _ s' hw =>
      ⟨h.dataEnd, Nat.le_refl _, by omega, hw⟩
    have := hfast plan hplan
    refine Triple.ite (fun _ => Triple.pure fun _ hw => hw) fun _ => ?_
    exact Window.returns_copy (by omega) (by omega)
  · -- through the staging area behind the old heap
    have hstaged := le_roundUpToBlock (natKeyword h.cards (str "NAXIS2") *
      natKeyword h.cards (str "NAXIS1") + natKeyword h.cards (str "PCOUNT") + newPcount)
    have hmono := roundUpToBlock_mono (show natKeyword h.cards (str "NAXIS2") *
      natKeyword h.cards (str "NAXIS1") + newPcount ≤ natKeyword h.cards (str "NAXIS2") *
      natKeyword h.cards (str "NAXIS1") + natKeyword h.cards (str "PCOUNT") + newPcount by omega)
    rw [show (tablePlace h).heapStart - h.offsets.dataOffset = natKeyword h.cards (str "NAXIS2") *
      natKeyword h.cards (str "NAXIS1") by omega]
    refine (Window.triple_grow ho hroom _).bind fun _ => ?_
    refine (Triple.forM fun plan hplan => ?_).bind fun _ => ?_
    · have := (hmem plan hplan).2
      exact Window.returns_copy (by omega) (by omega)
    · refine (Triple.forM fun plan hplan => ?_).post fun _ s' hw =>
        ⟨_, Nat.le_max_left _ _, by omega, hw⟩
      have := (hmem plan hplan).2
      exact Window.returns_copy (by omega) (by omega)

theorem recordDescriptors_length {α : Type} {rowWidth : Nat} {row col length offset : α → Nat} :
    ∀ {l : List α} {table table' : Bytes},
      l.foldlM (fun table a =>
        recordDescriptor table rowWidth (row a) (col a) (length a) (offset a))
        table = .ok table' → table'.length = table.length := by
  intro l
  induction l with
  | nil =>
    intro table table' hok
    cases hok
    rfl
  | cons a l ih =>
    intro table table' hok
    rw [List.foldlM_cons] at hok
    cases hrec : recordDescriptor table rowWidth (row a) (col a) (length a) (offset a) with
    | error e =>
      rw [hrec] at hok
      cases hok
    | ok table'' =>
      rw [hrec] at hok
      exact (ih hok).trans (recordDescriptor_length hrec).1

theorem setPcountInCards_length (cards : List Card) (m n : Nat) :
    (setPcountInCards cards m).length = (setPcountInCards cards n).length := by
  unfold setPcountInCards setCard
  split
  · simp
  · simp [List.length_insertIdx]

/-- The blocks of the header with a heap size card are reserved. -/
def HeaderFits (h : Hdu) : Prop :=
  headerBlocks (setPcountInCards h.cards 0).length ≤ h.offsets.headerBlockCount

/-- Both repacks end with a whole chain. -/
theorem closes_repack (hstd : StandardTable h.cards) (hfirst : PcountFirst h.cards)
    {newPcount : Nat}
    (hclose : Closes s idx
      (h.offsets.dataOffset + roundUpToBlock (natKeyword h.cards (str "NAXIS2") *
        natKeyword h.cards (str "NAXIS1") + newPcount)) h.offsets.dataOffset
      (setPcountInCards h.cards newPcount) s') (haddr : Addressable s') :
    Contiguous s' ∧ OthersKept idx s s' := by
  have hcomm := Nat.mul_comm (natKeyword h.cards (str "NAXIS1")) (natKeyword h.cards (str "NAXIS2"))
  have htotal := le_roundUpToBlock (natKeyword h.cards (str "NAXIS2") *
    natKeyword h.cards (str "NAXIS1") + newPcount)
  have hlen := hclose.le_length
  unfold Addressable at haddr
  have hsize := dataSize_pcountCards hstd (fun _ _ => rfl) (naxis2_eq hstd) hfirst none
    (show natKeyword h.cards (str "NAXIS1") * natKeyword h.cards (str "NAXIS2") + newPcount ≤
      9223372036854775807 by omega)
  refine ⟨hclose.contiguous_iff.2 ?_, hclose.othersKept⟩
  rw [show setPcountInCards h.cards newPcount = pcountCards h.cards newPcount none from rfl, hsize,
    hcomm]
  omega

theorem step_repackFixed (ho : Opened s idx h) (hstd : StandardTable h.cards)
    (hfirst : PcountFirst h.cards) (hfit : HeaderFits h) (hroom : Room s idx h h.dataEnd)
    (ncols : Nat) :
    Returns (fun t => t = s)
      (repackFixed idx h.cards ncols (natKeyword h.cards (str "NAXIS2"))
        (natKeyword h.cards (str "NAXIS1"))
        (natKeyword h.cards (str "PCOUNT")) h.offsets.dataOffset)
      fun _ s' => Addressable s' → Contiguous s' ∧ OthersKept idx s s' := by
  unfold repackFixed
  refine (Triple.readAt fun _ _ _ => trivial).bind fun table => Triple.assume fun hread => ?_
  refine (Triple.ofExcept fun _ _ _ => trivial).bind fun ⟨scanned, newPcount⟩ =>
    Triple.assume fun hplans => ?_
  obtain ⟨-, hmem, hlast⟩ := movePlans_ok hplans
  refine Triple.ite (fun _ => ?_) fun _ => ?_
  · refine Triple.pure fun t ht _ => ?_
    rw [ht]
    exact ⟨ho.contiguous, OthersKept.refl idx s⟩
  · refine Triple.pre ?_ (fun t (ht : t = s) => (ht ▸ ho.window : Window s idx h h h.dataEnd t))
    refine (returns_moveBlobs ho hstd hroom (fun plan hplan =>
      hmem plan (List.mem_mergeSort.1 hplan)) ?_).bind fun _ => ?_
    · exact hlast.imp id fun ⟨plan, hplan, hnew⟩ => ⟨plan, List.mem_mergeSort.2 hplan, hnew⟩
    · refine Triple.of_state fun t ⟨hi, hle, hend, hw⟩ => ?_
      refine Triple.pre ?_ (fun t' (ht : t' = t) => (ht ▸ hw : Window s idx h h hi t'))
      refine (Triple.ofExcept fun _ _ _ => trivial).bind fun table' =>
        Triple.assume fun htable => ?_
      have hroom' : Room s idx h hi := hroom.imp (fun hlt => Nat.lt_of_lt_of_le hlt hle) id
      refine (returns_finishRepack ho hroom' (Nat.le_of_lt ho.headerOffset_lt)
        ((recordDescriptors_length htable).trans hread) hend ?_).bind fun _ => ?_
      · rw [setPcountInCards_length h.cards newPcount 0]
        exact hfit
      · exact Triple.pure fun s' hclose haddr => closes_repack hstd hfirst hclose haddr

section Staging

variable {base : Fits} {cur : Hdu} {old : Nat} {place : Place} {currentPcount : Nat}

/-- The staging area begins behind the heap. -/
def StagingWindow (base : Fits) (idx : Nat) (h cur : Hdu) (old : Nat) (place : Place)
    (currentPcount staging : Nat) : Fits → Prop :=
  HeapWindow base idx h cur old place (currentPcount + staging)

/-- Growing the staging area. -/
theorem triple_growStaging (hs : Site base idx h cur old place) (staging n : Nat)
    {E : PyErr → Fits → Prop} :
    Triple (StagingWindow base idx h cur old place currentPcount staging)
      (growFileToAtLeast place.dataOffset
        (place.heapStart - place.dataOffset + currentPcount + staging + n))
      (fun _ => StagingWindow base idx h cur old place currentPcount (staging + n)) E := by
  have hle := hs.heapStart
  rw [show place.heapStart - place.dataOffset + currentPcount + staging + n =
    place.heapStart + (currentPcount + staging) + n - place.dataOffset by omega]
  unfold StagingWindow
  rw [show currentPcount + (staging + n) = currentPcount + staging + n by omega]
  exact triple_growHeap hs n

theorem returns_stageCopy (hs : Site base idx h cur old place) (src n staging : Nat) :
    Returns (StagingWindow base idx h cur old place currentPcount staging)
      (stageCopy place currentPcount src n staging)
      fun _ => StagingWindow base idx h cur old place currentPcount (staging + n) := by
  have hge := heapEnd_ge old hs.heapStart (currentPcount + (staging + n))
  have hstart := hs.start
  have hheap := hs.heapStart
  refine (triple_growStaging hs staging n).bind fun _ => ?_
  exact Window.returns_copy (by omega) (by omega)

theorem returns_stageCells (hs : Site base idx h cur old place) (tile rowspertile : Nat)
    (kind : VarKind) (column : Column) (rows : List Nat) (blob : Bytes) (staging : Nat) :
    Returns (StagingWindow base idx h cur old place currentPcount staging)
      (stageCells place tile rowspertile currentPcount kind column rows blob staging)
      fun out => StagingWindow base idx h cur old place currentPcount out.2 := by
  induction rows generalizing blob staging with
  | nil => exact Triple.pure fun s hw => hw
  | cons r rows ih =>
    rw [stageCells]
    refine (Triple.ofExcept fun _ _ _ => trivial).bind fun desc => Triple.assume fun _ => ?_
    refine Triple.ite (fun _ => ?_) fun _ => Triple.ite (fun _ => ?_) fun _ => ?_
    · refine (Triple.ofExcept fun _ _ _ => trivial).bind fun blob' => Triple.assume fun _ => ?_
      exact ih blob' staging
    · exact Triple.throw fun _ _ => trivial
    · refine (returns_stageCopy hs _ _ staging).bind fun _ => ?_
      refine (Triple.ofExcept fun _ _ _ => trivial).bind fun blob' => Triple.assume fun _ => ?_
      exact ih blob' _

theorem returns_stageLiveBlob (hs : Site base idx h cur old place)
    (totalNrows ztilelen nTiles tile : Nat) (column : Column) (oldOffset oldLength staging : Nat) :
    Returns (StagingWindow base idx h cur old place currentPcount staging)
      (stageLiveBlob codec place totalNrows ztilelen nTiles currentPcount tile column oldOffset
        oldLength staging)
      fun out => StagingWindow base idx h cur old place currentPcount out.2 := by
  unfold stageLiveBlob
  split
  · refine (returns_stageCopy hs _ _ staging).bind fun _ => ?_
    exact Triple.pure fun s hw => hw
  · refine (Triple.readAt fun _ _ _ => trivial).bind fun compressed => Triple.assume fun _ => ?_
    refine (Triple.ofExcept fun _ _ _ => trivial).bind fun blob => Triple.assume fun _ => ?_
    refine (returns_stageCells hs tile _ _ column _ blob staging).bind fun ⟨blob', staging'⟩ => ?_
    refine (Triple.ofExcept fun _ _ _ => trivial).bind fun gzipped => Triple.assume fun _ => ?_
    have hge := heapEnd_ge old hs.heapStart (currentPcount + (staging' + gzipped.length))
    have hstart := hs.start
    have hheap := hs.heapStart
    refine (triple_growStaging hs staging' gzipped.length).bind fun _ => ?_
    refine (Window.triple_write (by omega) (by omega)).bind fun _ => ?_
    exact Triple.pure fun s hw => hw

theorem returns_stageBlobs (hs : Site base idx h cur old place) (table : Bytes)
    (columns : List Column) (totalNrows ztilelen nTiles : Nat) (cells : List (Nat × Nat))
    (staging : Nat) :
    Returns (StagingWindow base idx h cur old place currentPcount staging)
      (stageBlobs codec place table columns totalNrows ztilelen nTiles currentPcount cells staging)
      fun out => StagingWindow base idx h cur old place currentPcount out.2 := by
  induction cells generalizing staging with
  | nil => exact Triple.pure fun s hw => hw
  | cons cell cells ih =>
    obtain ⟨tile, col⟩ := cell
    rw [stageBlobs]
    refine (Triple.ofExcept fun _ _ _ => trivial).bind fun column => Triple.assume fun _ => ?_
    have hblob : Returns (StagingWindow base idx h cur old place currentPcount staging)
        (stageBlob codec place table totalNrows ztilelen nTiles currentPcount tile
          column col staging)
        fun out => StagingWindow base idx h cur old place currentPcount out.2 := by
      refine (Triple.ofExcept fun _ _ _ => trivial).bind fun desc => Triple.assume fun _ => ?_
      refine Triple.ite (fun _ => Triple.pure fun s hw => hw) fun _ => ?_
      refine (Triple.raiseIf fun _ _ => trivial).bind fun _ => Triple.assume fun _ => ?_
      exact returns_stageLiveBlob hs _ _ _ _ column _ _ staging
    refine hblob.bind fun ⟨desc, staging'⟩ => ?_
    refine (ih staging').bind fun ⟨descs, staging''⟩ => ?_
    exact Triple.pure fun s hw => hw

end Staging

theorem step_repackVla (ho : Opened s idx h) (hstd : StandardTable h.cards)
    (hfirst : PcountFirst h.cards) (hfit : HeaderFits h) (hroom : Room s idx h h.dataEnd)
    (columns : List Column) :
    Returns (fun t => t = s)
      (repackCompressedTableHeapVla codec idx h.cards columns (natKeyword h.cards (str "NAXIS2"))
        (natKeyword h.cards (str "NAXIS1"))
        (natKeyword h.cards (str "PCOUNT")) h.offsets.dataOffset)
      fun _ s' => Addressable s' → Contiguous s' ∧ OthersKept idx s s' := by
  have hsite := site_tablePlace ho hroom
  have hstart := ho.headerOffset_lt
  have hheap : (tablePlace h).heapStart = h.offsets.dataOffset + natKeyword h.cards (str "NAXIS2") *
    natKeyword h.cards (str "NAXIS1") := rfl
  have hwindow : StagingWindow s idx h h h.dataEnd (tablePlace h)
      (natKeyword h.cards (str "PCOUNT")) 0 s := by
    rw [StagingWindow, Nat.add_zero]
    exact heapWindow_start ho hstd
  unfold repackCompressedTableHeapVla
  refine (Triple.readAt fun _ _ _ => trivial).bind fun table => Triple.assume fun hread => ?_
  refine Triple.pre ?_ (fun t (ht : t = s) => (ht ▸ hwindow : StagingWindow s idx h h h.dataEnd
    (tablePlace h) (natKeyword h.cards (str "PCOUNT")) 0 t))
  refine (returns_stageBlobs hsite table columns _ _ _ _ 0).bind fun ⟨descs, newPcount⟩ => ?_
  have hge := heapEnd_ge h.dataEnd hsite.heapStart (natKeyword h.cards (str "PCOUNT") + newPcount)
  have hend := heapEnd_tablePlace hstd (natKeyword h.cards (str "PCOUNT") + newPcount)
  have hcomm := Nat.mul_comm (natKeyword h.cards (str "NAXIS1")) (natKeyword h.cards (str "NAXIS2"))
  have hmono := roundUpToBlock_mono (show natKeyword h.cards (str "NAXIS2") *
    natKeyword h.cards (str "NAXIS1") + newPcount ≤ natKeyword h.cards (str "NAXIS1") *
    natKeyword h.cards (str "NAXIS2") + (natKeyword h.cards (str "PCOUNT") + newPcount) by omega)
  refine (Window.returns_copy (by dsimp only; omega) (by dsimp only; omega)).bind fun _ => ?_
  refine (Triple.ofExcept fun _ _ _ => trivial).bind fun table' => Triple.assume fun htable => ?_
  refine (returns_finishRepack ho (hsite.room_heapEnd _) (Nat.le_of_lt hstart)
    ((recordDescriptors_length htable).trans hread) (by dsimp only; omega) ?_).bind fun _ => ?_
  · rw [setPcountInCards_length h.cards newPcount 0]
    exact hfit
  · exact Triple.pure fun s' hclose haddr => closes_repack hstd hfirst hclose haddr

/-! ## Runs -/

/-- The header of a standard table whose heap size is read from the card that the
updates overwrite. -/
structure Regular (h : Hdu) : Prop where
  standard : StandardTable h.cards
  pcountFirst : PcountFirst h.cards

/-- What a call asks of the file before it.  A write must not need fewer blocks
than the data section has.  The calls that add to the heap need a data section
to start with, unless the table is the last HDU. -/
def Op.Safe (codec : Codec) (columns : List Column) (s : Fits) (idx : Nat) (h : Hdu) : Op → Prop
  | .write inputs =>
    (natKeyword h.cards (str "NAXIS2") = 0 ∨ Room s idx h h.dataEnd) ∧
      ∀ pcount, encodedHeap codec columns inputs (natKeyword h.cards (str "ZNAXIS2"))
          (natKeyword h.cards (str "ZTILELEN")) (natKeyword h.cards (str "NAXIS2")) = .ok pcount →
        roundUpToBlock (tableDataBytes h.cards) ≤ roundUpToBlock
          (natKeyword h.cards (str "NAXIS1") * natKeyword h.cards (str "NAXIS2") + pcount)
  | .append _ _ => Room s idx h h.dataEnd ∧ 0 < natKeyword h.cards (str "NAXIS1") ∧
      IntCardFirst (str "NAXIS2") h.cards
  | .setitem _ _ => Room s idx h h.dataEnd
  | .repack => HeaderFits h

/-- A heap leaves room. -/
theorem room_of_pcount (hstd : StandardTable h.cards)
    (hpos : natKeyword h.cards (str "PCOUNT") ≠ 0) : Room s idx h h.dataEnd := by
  have htotal := le_roundUpToBlock (tableDataBytes h.cards)
  have hend := dataEnd_of_standard hstd
  unfold tableDataBytes at htotal hend
  exact Or.inl (by omega)

/-- One call. -/
theorem step_apply (ho : Opened s idx h) (hreg : Regular h) {columns : List Column} {op : Op}
    (hsafe : op.Safe codec columns s idx h) :
    Returns (fun t => t = s) (apply codec columns idx op)
      fun _ s' => Addressable s' → Contiguous s' ∧ OthersKept idx s s' := by
  obtain ⟨hstd, hfirst⟩ := hreg
  unfold apply
  refine (Triple.get (Q := fun a u => a = s ∧ u = s) fun t ht => ⟨ht, ht⟩).bind fun t =>
    Triple.assume fun ht => ?_
  subst ht
  rw [ho.hdu]
  dsimp only
  cases op with
  | write inputs =>
    obtain ⟨hroom, hheap⟩ := hsafe
    refine (step_write ho hstd hfirst hroom columns inputs _ _).bind fun _ => ?_
    refine Triple.pure fun s' ⟨pcount, hencoded, hkept, hiff⟩ haddr => ?_
    exact ⟨(hiff haddr).2 (hheap pcount hencoded), hkept⟩
  | append inputs appendNrows =>
    obtain ⟨hroom, hwidth, hrows⟩ := hsafe
    exact step_append ho hstd hfirst hrows hwidth hroom columns inputs appendNrows _ _
  | setitem selected diskRows =>
    exact step_setitem ho hstd hfirst hsafe selected diskRows _ _
  | repack =>
    refine Triple.ite (fun _ => ?_) fun hnot => ?_
    · refine Triple.pure fun t' ht' _ => ?_
      rw [ht']
      exact ⟨ho.contiguous, OthersKept.refl idx t⟩
    · have hroom : Room t idx h h.dataEnd := room_of_pcount hstd fun hzero =>
        hnot (Or.inr (Or.inr hzero))
      refine Triple.ite (fun _ => ?_) fun _ => ?_
      · exact step_repackVla ho hstd hfirst hsafe hroom columns
      · exact step_repackFixed ho hstd hfirst hsafe hroom columns.length

/-- The files that successful calls lead to, when each of them finds what it asks
for.  Any compressed table of the file may be called. -/
inductive Reaches (codec : Codec) (s : Fits) : Fits → Prop
  | start : Reaches codec s s
  | call {t t' : Fits} {columns : List Column} {idx : Nat} {h : Hdu} {op : Op} {cleared : Bool} :
    Reaches codec s t → t.hdus[idx]? = some h → Regular h → op.Safe codec columns t idx h →
    apply codec columns idx op t = .ok cleared t' → Addressable t' → Reaches codec s t'

theorem contiguous_of_reaches {t : Fits} (hs : Contiguous s) (hrun : Reaches codec s t) :
    Contiguous t := by
  induction hrun with
  | start => exact hs
  | call _ hdu hreg hsafe hcall haddr ih =>
    exact (((step_apply ⟨ih, hdu⟩ hreg hsafe).ok rfl hcall) haddr).1

/-- After any calls that find what they ask for, and after each further one, the
chain is whole, and the call has left the other HDUs alone. -/
theorem compressedTable_calls_keep_chain {t t' : Fits} {columns : List Column} {op : Op}
    {cleared : Bool} (hs : Contiguous s) (hrun : Reaches codec s t) (hdu : t.hdus[idx]? = some h)
    (hreg : Regular h) (hsafe : op.Safe codec columns t idx h)
    (hcall : apply codec columns idx op t = .ok cleared t') (haddr : Addressable t') :
    Contiguous t ∧ Contiguous t' ∧ OthersKept idx t t' := by
  have ht := contiguous_of_reaches hs hrun
  exact ⟨ht, (step_apply ⟨ht, hdu⟩ hreg hsafe).ok rfl hcall haddr⟩

/-! ### A table of one byte -/

/-- RICE_1 on one row of one byte: the byte, then a block without bits. -/
def riceOfByte : Codec where
  encodeTableColumnSlab _ _ slab := .ok (slab ++ [0])
  decompressColumnSlab _ n blob := .ok (blob.take n)
  encodeGzip1 _ := .error (.value (str "no variable-length column"))
  gzipDecompressBytes _ _ := .error (.value (str "no variable-length column"))

def byteColumn : Column := ⟨str "A", 0x42, 1, none⟩

/-- A table of one row of one byte. -/
structure ByteTable (h : Hdu) : Prop where
  regular : Regular h
  width : natKeyword h.cards (str "NAXIS1") = 16
  tiles : natKeyword h.cards (str "NAXIS2") = 1
  rows : natKeyword h.cards (str "ZNAXIS2") = 1
  tileLen : natKeyword h.cards (str "ZTILELEN") = 1

theorem byteTable_of_lookups {p : Nat}
    (hkeys : [str "BITPIX", str "NAXIS", str "GCOUNT", str "NAXIS1", str "NAXIS2", str "PCOUNT",
      str "ZNAXIS2", str "ZTILELEN"].map (parseKeyword h.cards) =
      [some 8, some 2, some 1, some 16, some 1, some (p : Int), some 1, some 1])
    (hfirst : PcountFirst h.cards) (hp : p ≤ 1000000) :
    ByteTable h ∧ tableDataBytes h.cards = 16 + p := by
  simp only [List.map_cons, List.map_nil, List.cons.injEq] at hkeys
  obtain ⟨hbitpix, hnaxis, hgcount, hnaxis1, hnaxis2, hpcount, hznaxis2, hztilelen, -⟩ := hkeys
  have hbytes : tableDataBytes h.cards = 16 + p := by
    rw [tableDataBytes, natKeyword_of_some (n := 16) hnaxis1, natKeyword_of_some (n := 1) hnaxis2,
      natKeyword_of_some hpcount]
  refine ⟨⟨⟨⟨hbitpix, hnaxis, by rw [hgcount]; rfl, ⟨16, hnaxis1⟩, ⟨1, hnaxis2⟩, by omega⟩, hfirst⟩,
    natKeyword_of_some hnaxis1, natKeyword_of_some hnaxis2, natKeyword_of_some hznaxis2,
    natKeyword_of_some hztilelen⟩, hbytes⟩

theorem writeTiles_byte (place : Place) (v : UInt8) (st : Progress) :
    (List.range 1).foldlM
      (writeTile riceOfByte place [(byteColumn, .fixed [.ok [v]])] [] 1 1 1) st =
      encodeBeSlabToHeapAndRecord riceOfByte place 0 0 1 [v] st := by
  rw [List.range_one, List.foldlM_cons]
  show ((List.foldlM _ st [((byteColumn, _), 0)]) >>= fun st => pure st) = _
  rw [bind_pure, List.foldlM_cons]
  show (encodeTileColumn _ _ _ _ _ _ _ _ >>= fun st => pure st) = _
  rw [bind_pure, show (if 0 + 1 = 1 then wrappingSub 1 (0 * 1) else 1) = 1 by decide]
  rfl

/-- The header of the written table fits its blocks. -/
def ByteHeaderFits (h : Hdu) : Prop :=
  (pcountCards h.cards 2 (some 0)).length ≤ h.offsets.headerBlockCount * cardsPerBlock

/-- The file after the write of one row of one byte. -/
def byteWritten (s : Fits) (idx : Nat) (h : Hdu) (v : UInt8) : Fits :=
  let cards := pcountCards h.cards 2 (some 0)
  let blob := writeAll s.bytes (h.offsets.dataOffset + 16) [v, 0]
  let padded := writeAll blob (h.offsets.dataOffset + 18) (List.replicate 2862 0)
  let table := writeAll padded h.offsets.dataOffset (writeDescriptor .q 2 0)
  ⟨writeAll table h.offsets.headerOffset (headerBytes h.offsets.headerBlockCount cards),
    s.hdus.modify idx fun g => { g with cards := cards }⟩

/-- The data section of a table of one byte has at least a block. -/
theorem byteTable_dataEnd (hbyte : ByteTable h) : h.offsets.dataOffset + 2880 ≤ h.dataEnd := by
  have hend := dataEnd_of_standard hbyte.regular.standard
  have hbytes : tableDataBytes h.cards = 16 + natKeyword h.cards (str "PCOUNT") := by
    rw [tableDataBytes, hbyte.width, hbyte.tiles]
  have hblock : 2880 ≤ roundUpToBlock (tableDataBytes h.cards) :=
    roundUpToBlock_mono (show 1 ≤ tableDataBytes h.cards by omega)
  omega

theorem writeData_byte_eq (ho : Opened s idx h) (hroom : Room s idx h h.dataEnd)
    (hbyte : ByteTable h) (hfit : ByteHeaderFits h)
    (v : UInt8) :
    writeCompressedTableData riceOfByte idx h.cards [byteColumn] [.fixed [.ok [v]]] 1 1 1 16
      h.offsets.dataOffset s = .ok () (byteWritten s idx h v) := by
  unfold ByteHeaderFits at hfit
  have hblock := byteTable_dataEnd hbyte
  have hle := ho.dataEnd_le
  have hgrow : growFileToAtLeast h.offsets.dataOffset
      (h.offsets.dataOffset + 1 * 16 + 0 + [v, 0].length - h.offsets.dataOffset) s = .ok () s := by
    refine ho.window.grow_of_le ho hroom ?_
    rw [show h.offsets.dataOffset + 1 * 16 + 0 + [v, 0].length - h.offsets.dataOffset = 18 by
      rw [show [v, 0].length = 2 from rfl]
      omega, show roundUpToBlock 18 = 2880 by decide]
    omega
  have hput : heapPut h.offsets.dataOffset (h.offsets.dataOffset + 1 * 16) 0 [v, 0] s =
      .ok 2 { s with bytes := writeAll s.bytes (h.offsets.dataOffset + 16) [v, 0] } := by
    unfold heapPut
    rw [FileOp.bind_ok hgrow]
    rfl
  have hencode : encodeBeSlabToHeapAndRecord riceOfByte
      ⟨h.offsets.dataOffset, h.offsets.dataOffset + 1 * 16, 16⟩ 0 0 1 [v]
      ⟨0, List.replicate (1 * 16) 0⟩ s = .ok ⟨2, writeDescriptor .q 2 0⟩
        { s with bytes := writeAll s.bytes (h.offsets.dataOffset + 16) [v, 0] } := by
    unfold encodeBeSlabToHeapAndRecord
    rw [FileOp.bind_ok (show FileOp.ofExcept _ s = .ok [v, 0] s from rfl), FileOp.bind_ok hput]
    rfl
  unfold writeCompressedTableData
  rw [FileOp.raiseIf, if_neg (by simp), pure_bind,
    FileOp.bind_ok (show FileOp.ofExcept _ s = .ok ([], 0) s from rfl)]
  dsimp only
  rw [FileOp.bind_ok (show FileOp.ofExcept _ s = .ok () s from rfl)]
  have hmodify : (modify fun t : Fits => if t.bytes.length < h.offsets.dataOffset +
      roundUpToBlock (1 * 16) then { t with bytes := setLen t.bytes (h.offsets.dataOffset +
      roundUpToBlock (1 * 16)) } else t : FileOp PUnit) s = .ok () s := by
    show EStateM.Result.ok () (if _ then _ else s) = _
    rw [if_neg]
    rw [show roundUpToBlock (1 * 16) = 2880 by decide]
    omega
  rw [FileOp.bind_ok hmodify, show List.zip [byteColumn] [ColumnInput.fixed [.ok [v]]] =
    [(byteColumn, .fixed [.ok [v]])] from rfl, writeTiles_byte, FileOp.bind_ok hencode]
  dsimp only
  rw [FileOp.bind_ok (writeAt_eq _ _ _), FileOp.bind_ok (writeAt_eq _ _ _)]
  unfold commitHeader
  dsimp only
  have hheader : ∀ bytes, rewriteHeaderToDisk idx (pcountCards h.cards 2 (some 0))
      ⟨bytes, s.hdus⟩ = .ok () ⟨writeAll bytes h.offsets.headerOffset (headerBytes
        h.offsets.headerBlockCount (pcountCards h.cards 2 (some 0))), s.hdus⟩ :=
    fun bytes => rewriteHeaderToDisk_of_fits (s := ⟨bytes, s.hdus⟩) ho.hdu hfit
  rw [FileOp.bind_ok (hheader _), show roundUpToBlock (1 * 16 + 2) - (1 * 16 + 2) = 2862 by decide]
  rfl

/-- The write of one row of one byte succeeds. -/
theorem write_byte_eq (ho : Opened s idx h) (hroom : Room s idx h h.dataEnd) (hbyte : ByteTable h)
    (hfit : ByteHeaderFits h) (v : UInt8) :
    apply riceOfByte [byteColumn] idx (.write [.fixed [.ok [v]]]) s =
      .ok false (byteWritten s idx h v) := by
  unfold apply
  rw [FileOp.get_bind, ho.hdu]
  dsimp only
  rw [hbyte.width, hbyte.tiles, hbyte.rows, hbyte.tileLen,
    FileOp.bind_ok (writeData_byte_eq ho hroom hbyte hfit v)]
  rfl

/-- The writes stay inside the file. -/
theorem byteWritten_steps (ho : Opened s idx h) (hbyte : ByteTable h) (v : UInt8) :
    (writeAll s.bytes (h.offsets.dataOffset + 16) [v, 0]).length = s.bytes.length ∧
      (writeAll (writeAll s.bytes (h.offsets.dataOffset + 16) [v, 0])
        (h.offsets.dataOffset + 18) (List.replicate 2862 0)).length = s.bytes.length ∧
      (writeAll (writeAll (writeAll s.bytes (h.offsets.dataOffset + 16) [v, 0])
        (h.offsets.dataOffset + 18) (List.replicate 2862 0)) h.offsets.dataOffset
        (writeDescriptor .q 2 0)).length = s.bytes.length := by
  have hblock := byteTable_dataEnd hbyte
  have hle := ho.dataEnd_le
  have htwo : [v, 0].length = 2 := rfl
  have hdesc : (writeDescriptor .q 2 0).length = 16 := writeDescriptor_length .q 2 0
  have h1 : (writeAll s.bytes (h.offsets.dataOffset + 16) [v, 0]).length = s.bytes.length :=
    writeAll_length_of_le (by omega)
  have h2 : (writeAll (writeAll s.bytes (h.offsets.dataOffset + 16) [v, 0])
      (h.offsets.dataOffset + 18) (List.replicate 2862 0)).length = s.bytes.length := by
    rw [writeAll_length_of_le (by rw [List.length_replicate, h1]; omega), h1]
  exact ⟨h1, h2, by rw [writeAll_length_of_le (by omega), h2]⟩

theorem byteWritten_length (ho : Opened s idx h) (hbyte : ByteTable h) (hfit : ByteHeaderFits h)
    (v : UInt8) : (byteWritten s idx h v).bytes.length = s.bytes.length := by
  have hblock := byteTable_dataEnd hbyte
  have hle := ho.dataEnd_le
  obtain ⟨-, -, hoff, -⟩ := ho.chain
  obtain ⟨-, -, hlen⟩ := byteWritten_steps ho hbyte v
  have hheader := headerBytes_length hfit
  show (writeAll _ h.offsets.headerOffset _).length = _
  rw [writeAll_length_of_le (by rw [hheader, hlen]; omega), hlen]

theorem encodedHeap_byte (v : UInt8) :
    encodedHeap riceOfByte [byteColumn] [.fixed [.ok [v]]] 1 1 1 = .ok 2 := rfl

/-- The written table needs one block. -/
theorem contiguous_byteWritten (ho : Opened s idx h) (hroom : Room s idx h h.dataEnd)
    (hbyte : ByteTable h) (hfit : ByteHeaderFits h) (v : UInt8) (haddr : Addressable s) :
    Contiguous (byteWritten s idx h v) ↔ roundUpToBlock (tableDataBytes h.cards) ≤ 2880 := by
  have hstep : Returns (fun t => t = s) (writeCompressedTableData riceOfByte idx h.cards
      [byteColumn] [.fixed [.ok [v]]] 1 1 _ _ h.offsets.dataOffset) _ :=
    step_write ho hbyte.regular.standard hbyte.regular.pcountFirst (Or.inr hroom) [byteColumn]
      [.fixed [.ok [v]]] 1 1
  rw [hbyte.width, hbyte.tiles] at hstep
  obtain ⟨pcount, hpcount, -, hiff⟩ := hstep.ok rfl (writeData_byte_eq ho hroom hbyte hfit v)
  rw [encodedHeap_byte, Except.ok.injEq] at hpcount
  rw [hiff (by rw [Addressable, byteWritten_length ho hbyte hfit v]; exact haddr), ← hpcount,
    show roundUpToBlock (16 * 1 + 2) = 2880 by decide]

theorem safe_write_byte (hroom : Room s idx h h.dataEnd) (hbyte : ByteTable h)
    (hsize : roundUpToBlock (tableDataBytes h.cards) ≤ 2880) (v : UInt8) :
    (Op.write [.fixed [.ok [v]]]).Safe riceOfByte [byteColumn] s idx h := by
  refine ⟨Or.inr hroom, fun pcount hpcount => ?_⟩
  rw [hbyte.rows, hbyte.tileLen, hbyte.tiles, encodedHeap_byte, Except.ok.injEq] at hpcount
  rw [hbyte.width, hbyte.tiles, ← hpcount, show roundUpToBlock (16 * 1 + 2) = 2880 by decide]
  exact hsize

end

def bytePrimary : List Card :=
  [str "SIMPLE  =                    T", str "BITPIX  =                    8",
    str "NAXIS   =                    0", endCard]

/-- The header of a table of one row of one byte, with a heap of `pcount` bytes. -/
def byteCards (pcount : Str) : List Card :=
  [str "XTENSION= 'BINTABLE'", str "BITPIX  =                    8",
    str "NAXIS   =                    2", str "NAXIS1  =                   16",
    str "NAXIS2  =                    1", str "PCOUNT  =                 " ++ pcount,
    str "GCOUNT  =                    1", str "TFIELDS =                    1",
    str "TTYPE1  = 'A       '", str "TFORM1  = '1QB     '", str "ZTABLE  =                    T",
    str "ZTILELEN=                    1", str "ZNAXIS1 =                    1",
    str "ZNAXIS2 =                    1", str "ZPCOUNT =                    0",
    str "ZFORM1  = '1B      '", str "ZCTYP1  = 'RICE_1  '", endCard]

def byteHdu (pcount : Str) : Hdu := ⟨byteCards pcount, ⟨2880, 1, 5760⟩, .compressedTable⟩

/-- A file of a primary header and that table.  The live blob is the last one of
the heap, as after assignments to the row. -/
def byteFile (pcount : Str) (heap padding : Bytes) : Fits where
  bytes :=
  serializeHeaderToDiskBytes bytePrimary ++ serializeHeaderToDiskBytes (byteCards pcount) ++
    writeDescriptor .q 2 (heap.length - 2) ++ heap ++ padding
  hdus := [⟨bytePrimary, ⟨0, 1, 2880⟩, .image⟩, byteHdu pcount]

theorem byteFile_length (pcount : Str) (heap padding : Bytes) :
    (byteFile pcount heap padding).bytes.length = 5776 + heap.length + padding.length := by
  simp [byteFile, serialize_length, headerBlocks_eq, bytePrimary, byteCards, VarKind.width]
  omega

theorem byteHeaderFits (pcount : Str) : ByteHeaderFits (byteHdu pcount) := by
  have hpcount : (setPcountInCards (byteCards pcount) 2).length ≤ 18 + 1 := setCard_length_le
  have hzpcount : (setZpcountInCards (setPcountInCards (byteCards pcount) 2) 0).length ≤
      (setPcountInCards (byteCards pcount) 2).length + 1 := setCard_length_le
  have hreserved : (byteHdu pcount).offsets.headerBlockCount * cardsPerBlock = 36 := rfl
  show (setZpcountInCards (setPcountInCards (byteCards pcount) 2) 0).length ≤ _
  omega

theorem opened_byteFile {pcount : Str} {heap padding : Bytes}
    (hlen : 16 + heap.length + padding.length = (byteHdu pcount).dataSize) :
    Opened (byteFile pcount heap padding) 1 (byteHdu pcount) := by
  refine ⟨⟨rfl, by decide, by decide, ?_⟩, rfl⟩
  rw [show Hdu.dataEnd ⟨bytePrimary, ⟨0, 1, 2880⟩, .image⟩ = 2880 by decide +kernel]
  refine ⟨rfl, Nat.one_pos, ?_, ?_⟩
  · show 5760 = 2880 + 1 * blockSize
    decide
  · show 5760 + (byteHdu pcount).dataSize = _
    rw [byteFile_length]
    omega

theorem byteTable_two :
    ByteTable (byteHdu (str "   2")) ∧ tableDataBytes (byteCards (str "   2")) = 16 + 2 :=
  byteTable_of_lookups (by decide +kernel) (by unfold PcountFirst; decide +kernel) (by decide)

example : tableDataBytes (byteCards (str "   2")) = 18 := by decide +kernel

theorem byteTable_many :
    ByteTable (byteHdu (str "2866")) ∧ tableDataBytes (byteCards (str "2866")) = 16 + 2866 :=
  byteTable_of_lookups (by decide +kernel) (by unfold PcountFirst; decide +kernel) (by decide)

/-- The table with a heap of one blob. -/
theorem opened_byteFile_two :
    Opened (byteFile (str "   2") [5, 0] (List.replicate 2862 0)) 1 (byteHdu (str "   2")) ∧
      ByteTable (byteHdu (str "   2")) := by
  obtain ⟨hbyte, hbytes⟩ := byteTable_two
  refine ⟨opened_byteFile ?_, hbyte⟩
  rw [Hdu.dataSize, dataSize_of_standard hbyte.regular.standard,
    show tableDataBytes (byteHdu (str "   2")).cards = 16 + 2 from hbytes, List.length_replicate]
  decide

/-- A heap of one blob: the write keeps the chain. -/
theorem compressedTable_calls_keep_chain_oneBlob :
    let s := byteFile (str "   2") [5, 0] (List.replicate 2862 0)
    ∃ s', apply riceOfByte [byteColumn] 1 (.write [.fixed [.ok [7]]]) s = .ok false s' ∧
      Contiguous s ∧ Contiguous s' ∧ OthersKept 1 s s' := by
  intro s
  obtain ⟨ho, hbyte⟩ := opened_byteFile_two
  have hround : roundUpToBlock (tableDataBytes (byteHdu (str "   2")).cards) = 2880 := by
    rw [show tableDataBytes (byteHdu (str "   2")).cards = 16 + 2 from byteTable_two.2]
    decide
  have hroom : Room s 1 (byteHdu (str "   2")) (byteHdu (str "   2")).dataEnd := Or.inr rfl
  have hwrite := write_byte_eq ho hroom hbyte (byteHeaderFits _) 7
  refine ⟨_, hwrite, compressedTable_calls_keep_chain ho.contiguous .start ho.hdu hbyte.regular
    (safe_write_byte hroom hbyte (Nat.le_of_eq hround) 7) hwrite ?_⟩
  rw [Addressable, byteWritten_length ho hbyte (byteHeaderFits _), byteFile_length,
    List.length_replicate]
  decide

/-- A heap with dead blobs behind the first block: the write needs a block less
and leaves a gap behind the data section. -/
theorem not_contiguous_write_deadBlobs :
    let s := byteFile (str "2866") (List.replicate 2864 0 ++ [5, 0]) (List.replicate 2878 0)
    Contiguous s ∧ ∃ s', apply riceOfByte [byteColumn] 1 (.write [.fixed [.ok [7]]]) s =
      .ok false s' ∧
      ¬ Contiguous s' := by
  intro s
  obtain ⟨hbyte, hbytes⟩ := byteTable_many
  have hround : roundUpToBlock (tableDataBytes (byteHdu (str "2866")).cards) = 5760 := by
    rw [show tableDataBytes (byteHdu (str "2866")).cards = 16 + 2866 from hbytes]
    decide
  have hlen : (List.replicate 2864 0 ++ [5, 0] : Bytes).length = 2866 := by
    rw [List.length_append, List.length_replicate]
    rfl
  have ho : Opened s 1 (byteHdu (str "2866")) := opened_byteFile (by
    rw [Hdu.dataSize, dataSize_of_standard hbyte.regular.standard, hround, hlen,
      List.length_replicate])
  have haddr : Addressable s := by
    rw [Addressable, byteFile_length, hlen, List.length_replicate]
    decide
  refine ⟨ho.contiguous, _, write_byte_eq ho (Or.inr rfl) hbyte (byteHeaderFits _) 7, fun hc => ?_⟩
  have hsmall := (contiguous_byteWritten ho (Or.inr rfl) hbyte (byteHeaderFits _) 7 haddr).1 hc
  omega

end RustFits.CompressedTable
