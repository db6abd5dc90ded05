import RustFits.CompressedTable.Model

/-!
# The heap of a compressed table under construction

The encoders put blobs at the heap cursor and grow the data section for each of
them.  They work inside the window of their HDU: whatever they encode, the file
outside the window is untouched, and the window ends where the heap does or
where the data section ended before (`Place.heapEnd`).

`Advances` is the specification that all encoders share: the cursor does not go
back and the descriptor table keeps its size.  There is one lemma per encoder,
and `advances_foldlM` for the loops over tiles and columns.
-/

namespace RustFits.CompressedTable

open Ascii ByteFile Machine BigEndian

/-! ## The heap under construction -/

/-- Where an encoder works: inside the window of the HDU, which has a data section
to start with or is the last one. -/
structure Site (base : Fits) (idx : Nat) (h cur : Hdu) (old : Nat) (place : Place) : Prop where
  opened : Opened base idx h
  start : h.offsets.headerOffset ≤ place.dataOffset
  dataOffset : cur.offsets.dataOffset = place.dataOffset
  heapStart : place.dataOffset ≤ place.heapStart
  room : Room base idx cur old

/-- The end of the window once the heap has reached `cursor`. -/
def Place.heapEnd (place : Place) (old cursor : Nat) : Nat :=
  max old (place.dataOffset + roundUpToBlock (place.heapStart - place.dataOffset + cursor))

/-- The heap reaches up to `cursor`, inside the window. -/
def HeapWindow (base : Fits) (idx : Nat) (h cur : Hdu) (old : Nat) (place : Place) (cursor : Nat) :
    Fits → Prop :=
  Window base idx h cur (place.heapEnd old cursor)

section

variable {base : Fits} {idx : Nat} {h cur : Hdu} {old : Nat} {place : Place} {codec : Codec}
  {E : PyErr → Fits → Prop}

theorem Site.room_heapEnd (hs : Site base idx h cur old place) (cursor : Nat) :
    Room base idx cur (place.heapEnd old cursor) := by
  rcases hs.room with hlt | hlast
  · exact Or.inl (Nat.lt_of_lt_of_le hlt (Nat.le_max_left _ _))
  · exact Or.inr hlast

/-- Growing to a later cursor moves the end of the window there. -/
theorem heapEnd_grow {cursor n : Nat} :
    max (place.heapEnd old cursor)
        (place.dataOffset + roundUpToBlock (place.heapStart - place.dataOffset + (cursor + n))) =
      place.heapEnd old (cursor + n) := by
  have := roundUpToBlock_mono (show place.heapStart - place.dataOffset + cursor ≤
    place.heapStart - place.dataOffset + (cursor + n) by omega)
  unfold Place.heapEnd
  omega

theorem heapEnd_ge (old : Nat) (hle : place.dataOffset ≤ place.heapStart) (cursor : Nat) :
    place.heapStart + cursor ≤ place.heapEnd old cursor := by
  have := le_roundUpToBlock (place.heapStart - place.dataOffset + cursor)
  unfold Place.heapEnd
  omega

/-- Growing the data section up to a cursor behind the present one. -/
theorem triple_growHeap (hs : Site base idx h cur old place) {cursor : Nat} (n : Nat) :
    Triple (HeapWindow base idx h cur old place cursor)
      (growFileToAtLeast place.dataOffset (place.heapStart + cursor + n - place.dataOffset))
      (fun _ => HeapWindow base idx h cur old place (cursor + n)) E := by
  have hgrow := Window.triple_grow (E := E) hs.opened (hs.room_heapEnd cursor)
    (place.heapStart + cursor + n - place.dataOffset)
  have hle := hs.heapStart
  rw [hs.dataOffset, show place.heapStart + cursor + n - place.dataOffset =
    place.heapStart - place.dataOffset + (cursor + n) by omega, heapEnd_grow] at hgrow
  rw [show place.heapStart + cursor + n - place.dataOffset =
    place.heapStart - place.dataOffset + (cursor + n) by omega]
  exact hgrow

/-- A blob at the cursor. -/
theorem triple_heapPut (hs : Site base idx h cur old place) {cursor : Nat} (payload : Bytes) :
    Triple (HeapWindow base idx h cur old place cursor)
      (heapPut place.dataOffset place.heapStart cursor payload)
      (fun next s => next = cursor + payload.length ∧ HeapWindow base idx h cur old place next s)
      E := by
  have hge := heapEnd_ge old hs.heapStart (cursor + payload.length)
  have hstart := hs.start
  have hheap := hs.heapStart
  refine (triple_growHeap hs payload.length).bind fun _ => ?_
  refine (Window.triple_write (by omega) (by omega)).bind fun _ => ?_
  exact Triple.pure fun s hw => ⟨rfl, hw⟩

/-- What an encoder does: the heap grows to a later cursor and the descriptor
table keeps its size. -/
def Advances (base : Fits) (idx : Nat) (h cur : Hdu) (old : Nat) (place : Place) (st : Progress)
    (x : FileOp Progress) : Prop :=
  Returns (HeapWindow base idx h cur old place st.cursor) x fun st' s =>
    (st'.table.length = st.table.length ∧ st.cursor ≤ st'.cursor) ∧
      HeapWindow base idx h cur old place st'.cursor s

theorem advances_pure (st : Progress) : Advances base idx h cur old place st (pure st) := by
  unfold Advances
  exact Triple.pure fun s hw => ⟨⟨rfl, Nat.le_refl _⟩, hw⟩

theorem advances_encodeBeSlab (hs : Site base idx h cur old place) (tile col n : Nat) (slab : Bytes)
    (st : Progress) : Advances base idx h cur old place st
      (encodeBeSlabToHeapAndRecord codec place tile col n slab st) := by
  refine (Triple.ofExcept fun _ _ _ => trivial).bind fun blob => Triple.assume fun _ => ?_
  refine (triple_heapPut hs blob).bind fun next => Triple.assume fun hnext => ?_
  refine (Triple.ofExcept fun _ _ _ => trivial).bind fun table => Triple.assume fun htable => ?_
  exact Triple.pure fun s hw => ⟨⟨(recordDescriptor_length htable).1, by
    show st.cursor ≤ next
    omega⟩, hw⟩

theorem advances_buildAndEncode (hs : Site base idx h cur old place) (tile col rows start : Nat)
    (input : ColumnInput) (st : Progress) : Advances base idx h cur old place st
      (buildAndEncodeTileCol codec place tile col rows start input st) := by
  refine (Triple.ofExcept fun _ _ _ => trivial).bind fun cells => Triple.assume fun _ => ?_
  exact advances_encodeBeSlab hs tile col rows _ st

theorem returns_putCell (hs : Site base idx h cur old place) (col : Nat) (cell : VlaCell)
    (cursor : Nat) :
    Returns (HeapWindow base idx h cur old place cursor) (putCell codec place col cell cursor)
      fun out s => cursor ≤ out.1 ∧ HeapWindow base idx h cur old place out.1 s := by
  refine Triple.ite (fun _ => Triple.pure fun s hw => ⟨Nat.le_refl _, hw⟩) fun _ => ?_
  refine (Triple.ofExcept fun _ _ _ => trivial).bind fun payload => Triple.assume fun _ => ?_
  refine (triple_heapPut hs payload).bind fun next => Triple.assume fun hnext => ?_
  exact Triple.pure fun s hw => ⟨by show cursor ≤ next; omega, hw⟩

theorem returns_putCells (hs : Site base idx h cur old place) (col : Nat) (input : ColumnInput)
    (rows : List Nat) (cursor : Nat) :
    Returns (HeapWindow base idx h cur old place cursor)
      (putCells codec place col input rows cursor)
      fun out s => cursor ≤ out.1 ∧ HeapWindow base idx h cur old place out.1 s := by
  induction rows generalizing cursor with
  | nil => exact Triple.pure fun s hw => ⟨Nat.le_refl _, hw⟩
  | cons row rows ih =>
    rw [putCells]
    refine (Triple.ofExcept fun _ _ _ => trivial).bind fun cell => Triple.assume fun _ => ?_
    refine (returns_putCell hs col cell cursor).bind fun ⟨next, cvlalen, cvlastart⟩ =>
      Triple.assume fun hnext => ?_
    refine (ih next).bind fun ⟨last, cells⟩ => Triple.assume fun hlast => ?_
    exact Triple.pure fun s hw => ⟨Nat.le_trans hnext hlast, hw⟩

theorem returns_putBlob (hs : Site base idx h cur old place) (tile col cursor : Nat)
    (blob table : Bytes) :
    Returns (HeapWindow base idx h cur old place cursor)
      (putBlob codec place tile col cursor blob table) fun st s =>
        (st.table.length = table.length ∧ cursor ≤ st.cursor) ∧
          HeapWindow base idx h cur old place st.cursor s := by
  refine (Triple.ofExcept fun _ _ _ => trivial).bind fun gzipped => Triple.assume fun _ => ?_
  refine (triple_heapPut hs gzipped).bind fun next => Triple.assume fun hnext => ?_
  refine (Triple.ofExcept fun _ _ _ => trivial).bind fun table' => Triple.assume fun htable => ?_
  exact Triple.pure fun s hw => ⟨⟨(recordDescriptor_length htable).1, by
    show cursor ≤ next
    omega⟩, hw⟩

theorem advances_encodeVla (hs : Site base idx h cur old place) (tile col rows start : Nat)
    (kind : VarKind) (column : Column) (input : ColumnInput) (plans : List (List Nat))
    (st : Progress) : Advances base idx h cur old place st
      (encodeVlaColumnTile codec place tile col rows start kind column input plans st) := by
  refine (Triple.ofExcept fun _ _ _ => trivial).bind fun _ => Triple.assume fun _ => ?_
  refine (returns_putCells hs col input _ st.cursor).bind fun ⟨cursor, cells⟩ =>
    Triple.assume fun hcursor => ?_
  refine (returns_putBlob hs tile col cursor _ st.table).post fun st' s hst => ?_
  exact ⟨⟨hst.1.1, Nat.le_trans hcursor hst.1.2⟩, hst.2⟩

theorem advances_encodeTileColumn (hs : Site base idx h cur old place) (plans : List (List Nat))
    (tile rows start : Nat) (st : Progress) (source : Source × Nat) :
    Advances base idx h cur old place st
      (encodeTileColumn codec place plans tile rows start st source) := by
  unfold encodeTileColumn
  split
  · exact advances_encodeVla hs _ _ _ _ _ _ _ _ _
  · exact advances_buildAndEncode hs _ _ _ _ _ _

/-- A loop of encoders is an encoder. -/
theorem advances_foldlM {α : Type} {f : Progress → α → FileOp Progress}
    (hf : ∀ st a, Advances base idx h cur old place st (f st a)) (l : List α) (st : Progress) :
    Advances base idx h cur old place st (l.foldlM f st) := by
  induction l generalizing st with
  | nil => exact advances_pure st
  | cons a l ih =>
    rw [List.foldlM_cons]
    refine (hf st a).bind fun st' => Triple.assume fun hst => ?_
    exact (ih st').post fun st'' s hst' =>
      ⟨⟨hst'.1.1.trans hst.1, Nat.le_trans hst.2 hst'.1.2⟩, hst'.2⟩

theorem returns_copyCells (hs : Site base idx h cur old place) (kind : VarKind) (oldBlob : Bytes)
    (rowspertile : Nat) (rows : List Nat) (cursor : Nat) :
    Returns (HeapWindow base idx h cur old place cursor)
      (copyCells place kind oldBlob rowspertile rows cursor)
      fun out s => cursor ≤ out.1 ∧ HeapWindow base idx h cur old place out.1 s := by
  induction rows generalizing cursor with
  | nil => exact Triple.pure fun s hw => ⟨Nat.le_refl _, hw⟩
  | cons r rows ih =>
    rw [copyCells]
    refine (Triple.ofExcept fun _ _ _ => trivial).bind fun original => Triple.assume fun _ => ?_
    refine (Triple.ofExcept fun _ _ _ => trivial).bind fun desc => Triple.assume fun _ => ?_
    refine Triple.ite (fun _ => ?_) fun _ => ?_
    · refine (ih cursor).bind fun ⟨last, cells⟩ => Triple.assume fun hlast => ?_
      exact Triple.pure fun s hw => ⟨hlast, hw⟩
    · have hge := heapEnd_ge old hs.heapStart (cursor + (readDescriptor .q desc).1.toNat)
      have hstart := hs.start
      have hheap := hs.heapStart
      refine (triple_growHeap hs _).bind fun _ => ?_
      refine (Window.returns_copy (by omega) (by omega)).bind fun _ => ?_
      refine (ih _).bind fun ⟨last, cells⟩ => Triple.assume fun hlast => ?_
      exact Triple.pure fun s hw => ⟨Nat.le_trans (Nat.le_add_right _ _) hlast, hw⟩

theorem advances_mergeVla (hs : Site base idx h cur old place) (tile col existing merge : Nat)
    (kind : VarKind) (column : Column) (input : ColumnInput) (plans : List (List Nat))
    (oldBlob : Bytes) (st : Progress) : Advances base idx h cur old place st
      (encodeVlaColumnTileWithMerge codec place tile col existing merge kind column input plans
        oldBlob st) := by
  refine (Triple.ofExcept fun _ _ _ => trivial).bind fun _ => Triple.assume fun _ => ?_
  refine (returns_copyCells hs kind oldBlob existing _ st.cursor).bind fun ⟨middle, kept⟩ =>
    Triple.assume fun hmiddle => ?_
  refine (returns_putCells hs col input _ middle).bind fun ⟨cursor, cells⟩ =>
    Triple.assume fun hcursor => ?_
  refine (returns_putBlob hs tile col cursor _ st.table).post fun st' s hst => ?_
  exact ⟨⟨hst.1.1, Nat.le_trans (Nat.le_trans hmiddle hcursor) hst.1.2⟩, hst.2⟩

theorem advances_mergeTileColumn (hs : Site base idx h cur old place) (plans : List (List Nat))
    (tile existing merge : Nat) (st : Progress) (source : (Source × Bytes) × Nat) :
    Advances base idx h cur old place st
      (mergeTileColumn codec place plans tile existing merge st source) := by
  unfold mergeTileColumn
  split
  · exact advances_mergeVla hs _ _ _ _ _ _ _ _ _ _
  · refine (Triple.ofExcept fun _ _ _ => trivial).bind fun cells => Triple.assume fun _ => ?_
    exact advances_encodeBeSlab hs _ _ _ _ st

theorem advances_mergeTile (hs : Site base idx h cur old place) (sources : List Source)
    (plans : List (List Nat)) (kept : List Bytes) (shape : AppendShape) (n : Nat) (st : Progress) :
    Advances base idx h cur old place st
      (mergeTile codec place sources plans kept shape n st) := by
  unfold mergeTile
  split_ifs
  · exact advances_foldlM (fun st' source => advances_mergeTileColumn hs _ _ _ _ st' source) _ st
  · exact advances_pure st

theorem returns_decodeExisting (cards : List Card) (dataOffset tile col rows rowWidth : Nat)
    (column : Column) (P : Fits → Prop) :
    Returns P (decodeExistingTileToBeBytes codec cards dataOffset tile col rows rowWidth column)
      fun _ => P := by
  refine (Triple.readAt fun _ _ _ => trivial).bind fun desc => Triple.assume fun _ => ?_
  refine (Triple.raiseIf fun _ _ => trivial).bind fun _ => Triple.assume fun _ => ?_
  refine (Triple.readAt fun _ _ _ => trivial).bind fun compressed => Triple.assume fun _ => ?_
  exact (Triple.ofExcept fun _ _ _ => trivial).post fun _ _ hp => hp.2

theorem returns_readMergeColumns (cards : List Card) (columns : List Column) (shape : AppendShape)
    (existingNTiles rowWidth dataOffset : Nat) (P : Fits → Prop) :
    Returns P (readMergeColumns codec cards columns shape existingNTiles rowWidth dataOffset)
      fun _ => P := by
  refine Triple.ite (fun _ => Triple.mapM fun column _ => ?_) fun _ => Triple.pure fun _ hp => hp
  unfold readMergeColumn
  split
  · refine (Triple.readAt fun _ _ _ => trivial).bind fun desc => Triple.assume fun _ => ?_
    refine Triple.ite (fun _ => Triple.pure fun _ hp => hp) fun _ => ?_
    refine (Triple.readAt fun _ _ _ => trivial).bind fun compressed => Triple.assume fun _ => ?_
    exact (Triple.ofExcept fun _ _ _ => trivial).post fun _ _ hp => hp.2
  · exact returns_decodeExisting cards _ _ _ _ _ _ P

/-- What one column of an assignment does. -/
def AdvancesEdit (base : Fits) (idx : Nat) (h cur : Hdu) (old : Nat) (place : Place)
    (st : Progress × Nat) (x : FileOp (Progress × Nat)) : Prop :=
  Returns (HeapWindow base idx h cur old place st.1.cursor) x fun st' s =>
    (st'.1.table.length = st.1.table.length ∧ st.1.cursor ≤ st'.1.cursor) ∧
      HeapWindow base idx h cur old place st'.1.cursor s

theorem advancesEdit_foldlM {α : Type} {f : Progress × Nat → α → FileOp (Progress × Nat)}
    (hf : ∀ st a, AdvancesEdit base idx h cur old place st (f st a)) (l : List α)
    (st : Progress × Nat) : AdvancesEdit base idx h cur old place st (l.foldlM f st) := by
  induction l generalizing st with
  | nil =>
    unfold AdvancesEdit
    rw [List.foldlM_nil]
    exact Triple.pure fun s hw => ⟨⟨rfl, Nat.le_refl _⟩, hw⟩
  | cons a l ih =>
    rw [List.foldlM_cons]
    refine (hf st a).bind fun st' => Triple.assume fun hst => ?_
    exact (ih st').post fun st'' s hst' =>
      ⟨⟨hst'.1.1.trans hst.1, Nat.le_trans hst.2 hst'.1.2⟩, hst'.2⟩

theorem returns_editCells (hs : Site base idx h cur old place) (tile col rowsInTile : Nat)
    (kind : VarKind) (column : Column) (input : ColumnInput) (edits : List (Nat × Nat))
    (cursor : Nat) (blob : Bytes) (zpcount : Nat) :
    Returns (HeapWindow base idx h cur old place cursor)
      (editCells codec place tile col rowsInTile kind column input edits cursor blob zpcount)
      fun out s => cursor ≤ out.1 ∧ HeapWindow base idx h cur old place out.1 s := by
  induction edits generalizing cursor blob zpcount with
  | nil => exact Triple.pure fun s hw => ⟨Nat.le_refl _, hw⟩
  | cons edit edits ih =>
    obtain ⟨inTile, inputRow⟩ := edit
    rw [editCells]
    refine (Triple.ofExcept fun _ _ _ => trivial).bind fun cell => Triple.assume fun _ => ?_
    refine (returns_putCell hs col cell cursor).bind fun ⟨next, cvlalen, cvlastart⟩ =>
      Triple.assume fun hnext => ?_
    refine (Triple.ofExcept fun _ _ _ => trivial).bind fun blob' => Triple.assume fun _ => ?_
    refine (Triple.ofExcept fun _ _ _ => trivial).bind fun blob'' => Triple.assume fun _ => ?_
    refine (Triple.raiseIf fun _ _ => trivial).bind fun _ => Triple.assume fun _ => ?_
    exact (ih next blob'' _).post fun out s hout => ⟨Nat.le_trans hnext hout.1, hout.2⟩

theorem returns_readEditedBlob (tile : Nat) (desc : Int × Int) (size : Nat) (column : Column)
    (P : Fits → Prop) :
    Returns P (readEditedBlob codec place tile desc size column) fun _ => P := by
  refine Triple.ite (fun _ => ?_) fun _ => Triple.pure fun s hs => hs
  refine (Triple.readAt fun _ _ _ => trivial).bind fun compressed => Triple.assume fun _ => ?_
  exact (Triple.ofExcept fun _ _ _ => trivial).post fun _ _ hp => hp.2

theorem advancesEdit_vla (hs : Site base idx h cur old place) (tile col rowsInTile : Nat)
    (kind : VarKind) (column : Column) (input : ColumnInput) (edits : List (Nat × Nat))
    (st : Progress) (zpcount : Nat) : AdvancesEdit base idx h cur old place (st, zpcount)
      (setitemVlaColumnTile codec place tile col rowsInTile kind column input edits st
        zpcount) := by
  refine (Triple.ofExcept fun _ _ _ => trivial).bind fun _ => Triple.assume fun _ => ?_
  refine (Triple.ofExcept fun _ _ _ => trivial).bind fun desc => Triple.assume fun _ => ?_
  refine (returns_readEditedBlob tile _ _ column _).bind fun blob => ?_
  refine (returns_editCells hs tile col rowsInTile kind column input edits st.cursor blob
    zpcount).bind fun ⟨cursor, blob', zpcount'⟩ => Triple.assume fun hcursor => ?_
  refine (returns_putBlob hs tile col cursor blob' st.table).bind fun st' =>
    Triple.assume fun hst => ?_
  exact Triple.pure fun s hw => ⟨⟨hst.1, Nat.le_trans hcursor hst.2⟩, hw⟩

theorem advancesEdit_column (hs : Site base idx h cur old place) (cards : List Card)
    (tile rowsInTile : Nat) (edits : List (Nat × Nat)) (st : Progress × Nat)
    (source : Source × Nat) : AdvancesEdit base idx h cur old place st
      (setitemTileColumn codec place cards tile rowsInTile edits st source) := by
  unfold setitemTileColumn
  split
  · exact advancesEdit_vla hs _ _ _ _ _ _ _ _ _
  · refine (returns_decodeExisting cards _ _ _ _ _ _ _).bind fun slab => ?_
    refine (Triple.ofExcept fun _ _ _ => trivial).bind fun slab' => Triple.assume fun _ => ?_
    refine (advances_encodeBeSlab hs _ _ _ _ st.1).bind fun st' => Triple.assume fun hst => ?_
    exact Triple.pure fun s hw => ⟨hst, hw⟩

end

end RustFits.CompressedTable
