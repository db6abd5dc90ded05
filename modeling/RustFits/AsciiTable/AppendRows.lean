import RustFits.AsciiTable.RowLayout
import RustFits.TableHeader

/-!
# The steps of an ASCII append

* Rows are written field by field, blanks around them: `readback_rowBytes` reads the
  fields of a written row back, `writeAsciiTableData_eq` gives the bytes of all rows.
* `growAsciiData_eq` shifts the tail of the file, with the HDUs in it.
* The cards of the new header differ from the old ones in the row count only
  (`SameButRowCount`), and mean the same otherwise.
-/

namespace RustFits

open Ascii ByteFile Machine

/-! ## Fields of a row -/

/-- Each field has the width of its column. -/
def FieldsFit (columns : List AsciiColumn) (fields : List Str) : Prop :=
  List.Forall₂ (fun col field => field.length = col.byteWidth) columns fields

theorem placeCells_length {columns : List AsciiColumn} {fields : List Str}
    (hfit : FieldsFit columns fields) {dst : Bytes}
    (hin : ∀ col ∈ columns, col.byteOffset + col.byteWidth ≤ dst.length) :
    (placeCells columns fields dst).length = dst.length := by
  induction hfit generalizing dst with
  | nil => rfl
  | @cons col field columns fields hwidth _ ih =>
    have hlen : (writeAll dst col.byteOffset field).length = dst.length :=
      writeAll_length_of_le (by rw [hwidth]; exact hin col (by simp))
    rw [placeCells, ih fun c hc => by rw [hlen]; exact hin c (List.mem_cons_of_mem _ hc), hlen]

/-- A part of the row that no column covers stays as it is. -/
theorem slice_placeCells_of_apart {columns : List AsciiColumn} {fields : List Str} {a n : Nat}
    (hfit : FieldsFit columns fields) {dst : Bytes}
    (hin : ∀ col ∈ columns, col.byteOffset + col.byteWidth ≤ dst.length)
    (hapart : ∀ col ∈ columns, a + n ≤ col.byteOffset ∨ col.byteOffset + col.byteWidth ≤ a) :
    slice (placeCells columns fields dst) a n = slice dst a n := by
  induction hfit generalizing dst with
  | nil => rfl
  | @cons col field columns fields hwidth _ ih =>
    have hcol := hin col (by simp)
    have hlen : (writeAll dst col.byteOffset field).length = dst.length :=
      writeAll_length_of_le (by rw [hwidth]; exact hcol)
    rw [placeCells, ih (fun c hc => by rw [hlen]; exact hin c (List.mem_cons_of_mem _ hc))
      fun c hc => hapart c (List.mem_cons_of_mem _ hc)]
    exact slice_writeAll_of_disjoint (by omega) (by rw [hwidth]; exact hapart col (by simp))

theorem readback_placeCells {columns : List AsciiColumn} {fields : List Str}
    (hfit : FieldsFit columns fields) {dst : Bytes}
    (hin : ∀ col ∈ columns, col.byteOffset + col.byteWidth ≤ dst.length)
    (hapart : columns.Pairwise fun a b =>
      a.byteOffset + a.byteWidth ≤ b.byteOffset ∨ b.byteOffset + b.byteWidth ≤ a.byteOffset) :
    columns.map (fun col => slice (placeCells columns fields dst) col.byteOffset col.byteWidth) =
      fields := by
  induction hfit generalizing dst with
  | nil => rfl
  | @cons col field columns fields hwidth hrest ih =>
    have hcol := hin col (by simp)
    have hlen : (writeAll dst col.byteOffset field).length = dst.length :=
      writeAll_length_of_le (by rw [hwidth]; exact hcol)
    have hin' : ∀ c ∈ columns,
        c.byteOffset + c.byteWidth ≤ (writeAll dst col.byteOffset field).length := fun c hc => by
      rw [hlen]
      exact hin c (List.mem_cons_of_mem _ hc)
    obtain ⟨hfirst, hpair⟩ := List.pairwise_cons.1 hapart
    rw [List.map_cons, placeCells, ih hin' hpair,
      slice_placeCells_of_apart hrest hin' hfirst, ← hwidth, slice_writeAll_self (by omega)]

/-- The fields of a written row are read back. -/
theorem readback_rowBytes {columns : List AsciiColumn} {rowWidth : Nat} {fields : List Str}
    (hvalid : AsciiColumnsValid columns rowWidth) (hfit : FieldsFit columns fields) :
    columns.map (fun col => slice (rowBytes columns rowWidth fields) col.byteOffset col.byteWidth) =
      fields :=
  readback_placeCells hfit (fun col hc => by simpa using hvalid.inside col hc) hvalid.apart

theorem rowBytes_length {columns : List AsciiColumn} {rowWidth : Nat} {fields : List Str}
    (hvalid : AsciiColumnsValid columns rowWidth) (hfit : FieldsFit columns fields) :
    (rowBytes columns rowWidth fields).length = rowWidth := by
  rw [rowBytes, placeCells_length hfit fun col hc => by simpa using hvalid.inside col hc]
  simp

/-! ## Writing rows -/

section

variable {Cell : Type} {formatOneCell : AsciiColumn → Cell → Except PyErr Str}
  {columns : List AsciiColumn} {rowWidth : Nat}

/-- These rows format to these fields. -/
def RowsFormat (formatOneCell : AsciiColumn → Cell → Except PyErr Str)
    (columns : List AsciiColumn) (rows : List (List Cell)) (fields : List (List Str)) : Prop :=
  List.Forall₂
    (fun row fs => row.length = columns.length ∧ formatCells formatOneCell columns row = .ok fs)
    rows fields

theorem fieldsFit_of_formatCells
    (hwidth : ∀ col cell field, formatOneCell col cell = .ok field → field.length = col.byteWidth) :
    ∀ {columns : List AsciiColumn} {row : List Cell} {fields : List Str},
      row.length = columns.length → formatCells formatOneCell columns row = .ok fields →
      FieldsFit columns fields := by
  intro columns
  induction columns with
  | nil =>
    intro row fields _ h
    have : fields = [] := by simpa [formatCells] using h.symm
    rw [this]
    exact .nil
  | cons col columns ih =>
    intro row fields hlen h
    cases row with
    | nil => simp at hlen
    | cons cell row =>
      rw [formatCells] at h
      split at h
      · cases h
      · rename_i field hfield
        split at h
        · cases h
        · rename_i rest hrest
          rw [← Except.ok.inj h]
          exact .cons (hwidth col cell field hfield) (ih (by simpa using hlen) hrest)

theorem fieldsFit_of_rowsFormat
    (hwidth : ∀ col cell field, formatOneCell col cell = .ok field → field.length = col.byteWidth)
    {rows : List (List Cell)} {fields : List (List Str)}
    (h : RowsFormat formatOneCell columns rows fields) : ∀ fs ∈ fields, FieldsFit columns fs := by
  induction h with
  | nil => simp
  | cons hrow _ ih =>
    intro fs hfs
    rcases List.mem_cons.1 hfs with rfl | hfs
    · exact fieldsFit_of_formatCells hwidth hrow.1 hrow.2
    · exact ih fs hfs

/-- Where the columns lie in the row, the slices of a row are in the buffer. -/
theorem formatRow_eq
    (hwidth : ∀ col cell field, formatOneCell col cell = .ok field → field.length = col.byteWidth) :
    ∀ {columns : List AsciiColumn} {row : List Cell} {fields : List Str} {dst : Bytes},
      row.length = columns.length → formatCells formatOneCell columns row = .ok fields →
      (∀ col ∈ columns, col.byteOffset + col.byteWidth ≤ dst.length) → dst.length < u64Size →
      formatRow formatOneCell columns row dst = .ok (placeCells columns fields dst) := by
  intro columns
  induction columns with
  | nil =>
    intro row fields dst _ h _ _
    have hnil : fields = [] := by simpa [formatCells] using h.symm
    rw [hnil]
    rfl
  | cons col columns ih =>
    intro row fields dst hlen h hin hdst
    cases row with
    | nil => simp at hlen
    | cons cell row =>
      have hcol := hin col List.mem_cons_self
      have hstop : (col.byteOffset + col.byteWidth) % u64Size = col.byteOffset + col.byteWidth :=
        Nat.mod_eq_of_lt (by omega)
      rw [formatCells] at h
      rw [formatRow, hstop]
      rw [if_neg (by omega)]
      cases hcell : formatOneCell col cell with
      | error e =>
        rw [hcell] at h
        cases h
      | ok field =>
        rw [hcell] at h
        dsimp only at h ⊢
        cases hrest : formatCells formatOneCell columns row with
        | error e =>
          rw [hrest] at h
          cases h
        | ok rest =>
          rw [hrest] at h
          have hkeep : (writeAll dst col.byteOffset field).length = dst.length :=
            writeAll_length_of_le (by rw [hwidth col cell field hcell]; exact hcol)
          rw [← Except.ok.inj h, placeCells]
          refine ih (by simpa using hlen) hrest (fun c hc => ?_) (by omega)
          rw [hkeep]
          exact hin c (List.mem_cons_of_mem col hc)

/-- A column that ends behind the row is a panic, unless a cell in front of it does
not format. -/
theorem formatRow_outside
    (hwidth : ∀ col cell field, formatOneCell col cell = .ok field → field.length = col.byteWidth)
    {bad : AsciiColumn} :
    ∀ {columns : List AsciiColumn} {row : List Cell} {dst : Bytes},
      row.length = columns.length → bad ∈ columns →
      (∀ col ∈ columns, col.byteOffset < u64Size ∧ col.byteWidth < u64Size) →
      dst.length < bad.byteOffset + bad.byteWidth →
      ∃ e, formatRow formatOneCell columns row dst = .error e := by
  intro columns
  induction columns with
  | nil =>
    intro row dst _ hbad
    simp at hbad
  | cons col columns ih =>
    intro row dst hlen hbad hwords hout
    cases row with
    | nil => simp at hlen
    | cons cell row =>
      have hcol := hwords col List.mem_cons_self
      rw [formatRow]
      split_ifs with hslice
      · exact ⟨_, rfl⟩
      · have hin : col.byteOffset + col.byteWidth ≤ dst.length := by
          unfold u64Size at hslice hcol
          omega
        cases hcell : formatOneCell col cell with
        | error e => exact ⟨e, rfl⟩
        | ok field =>
          have hkeep : (writeAll dst col.byteOffset field).length = dst.length :=
            writeAll_length_of_le (by rw [hwidth col cell field hcell]; exact hin)
          rcases List.mem_cons.1 hbad with rfl | hbad
          · omega
          · exact ih (by simpa using hlen) hbad
              (fun c hc => hwords c (List.mem_cons_of_mem col hc)) (by omega)

theorem formatRows_eq
    (hwidth : ∀ col cell field, formatOneCell col cell = .ok field → field.length = col.byteWidth)
    (hin : ∀ col ∈ columns, col.byteOffset + col.byteWidth ≤ rowWidth) (hrow : rowWidth < u64Size)
    {rows : List (List Cell)} {fields : List (List Str)}
    (h : RowsFormat formatOneCell columns rows fields) :
    formatRows formatOneCell columns rowWidth rows =
      .ok (fields.flatMap (rowBytes columns rowWidth)) := by
  induction h with
  | nil => rfl
  | @cons row fs rows fields hfirst _ ih =>
    have hone : formatRow formatOneCell columns row (List.replicate rowWidth blank) =
        .ok (rowBytes columns rowWidth fs) :=
      formatRow_eq hwidth hfirst.1 hfirst.2 (by simpa using hin) (by simpa using hrow)
    rw [formatRows, hone]
    dsimp only
    rw [ih, List.flatMap_cons]

/-- The chunks follow one another, so the loop is one write. -/
theorem writeAsciiChunks_eq
    (hwidth : ∀ col cell field, formatOneCell col cell = .ok field → field.length = col.byteWidth)
    (hin : ∀ col ∈ columns, col.byteOffset + col.byteWidth ≤ rowWidth) (hrow : rowWidth < u64Size)
    {rowsPerChunk : Nat} (hchunk : 0 < rowsPerChunk) :
    ∀ (fuel pos : Nat) (rows : List (List Cell)) (fields : List (List Str)) (s : Fits),
      RowsFormat formatOneCell columns rows fields → rows.length ≤ fuel → pos ≤ s.bytes.length →
      writeAsciiChunks formatOneCell columns rowWidth rowsPerChunk fuel pos rows s =
        .ok () { s with
          bytes := writeAll s.bytes pos (fields.flatMap (rowBytes columns rowWidth)) } := by
  intro fuel
  induction fuel with
  | zero =>
    intro pos rows fields s hrows hfuel _
    have hnil : rows = [] := List.length_eq_zero_iff.1 (by omega)
    subst hnil
    cases hrows
    simp only [List.flatMap_nil, writeAll_nil]
    rfl
  | succ fuel ih =>
    intro pos rows fields s hrows hfuel hpos
    rw [writeAsciiChunks]
    split_ifs with hempty
    · have hnil : rows = [] := by simpa using hempty
      subst hnil
      cases hrows
      simp only [List.flatMap_nil, writeAll_nil]
      rfl
    · have hne : 0 < rows.length := by
        rcases Nat.eq_zero_or_pos rows.length with h0 | h0
        · exact absurd (by simpa using h0) hempty
        · exact h0
      rw [formatRows_eq hwidth hin hrow (List.forall₂_take rowsPerChunk hrows)]
      dsimp only
      have hall : fields.flatMap (rowBytes columns rowWidth) =
          (fields.take rowsPerChunk).flatMap (rowBytes columns rowWidth) ++
            (fields.drop rowsPerChunk).flatMap (rowBytes columns rowWidth) := by
        rw [← List.flatMap_append, List.take_append_drop]
      rw [hall]
      generalize (fields.take rowsPerChunk).flatMap (rowBytes columns rowWidth) = chunk
      have hlen := writeAll_length s.bytes chunk pos hpos
      rw [FileOp.bind_ok (writeAt_eq s pos chunk),
        ih _ _ (fields.drop rowsPerChunk) _ (List.forall₂_drop rowsPerChunk hrows)
          (by simp; omega) (by dsimp only; omega),
        writeAll_writeAll_append hpos]

/-- The padding bytes that a call writes behind `total` bytes. -/
def writtenPad (total : Nat) : Nat := (blockSize - total % blockSize) % blockSize

/-- The row writer with padding: the rows and then blanks. -/
theorem writeAsciiTableData_eq
    (hwidth : ∀ col cell field, formatOneCell col cell = .ok field → field.length = col.byteWidth)
    (hw : 0 < rowWidth) (hrow : rowWidth < u64Size) {rows : List (List Cell)}
    {fields : List (List Str)} (hrows : RowsFormat formatOneCell columns rows fields)
    (hne : rows ≠ []) (hvalid : AsciiColumnsValid columns rowWidth) {s : Fits} {start : Nat}
    (hstart : start ≤ s.bytes.length) :
    writeAsciiTableData formatOneCell columns rows rowWidth start true s =
      .ok () { s with
        bytes := writeAll s.bytes start (fields.flatMap (rowBytes columns rowWidth) ++
          List.replicate (writtenPad (rows.length * rowWidth)) blank) } := by
  have hlen : rows.length ≠ 0 := fun h => hne (List.length_eq_zero_iff.1 h)
  have hcount : fields.length = rows.length := hrows.length_eq.symm
  have hfit := fieldsFit_of_rowsFormat hwidth hrows
  have hbytes : (fields.flatMap (rowBytes columns rowWidth)).length = rows.length * rowWidth := by
    rw [flatMap_length_of_width fun fs hfs => rowBytes_length hvalid (hfit fs hfs), hcount]
  rw [writeAsciiTableData, if_neg (by omega)]
  dsimp only
  rw [FileOp.bind_ok (writeAsciiChunks_eq hwidth hvalid.inside hrow (by omega) rows.length start
    rows fields s hrows (Nat.le_refl _) hstart)]
  rw [if_pos rfl, ← hbytes, writeAt_eq, writeAll_writeAll_append hstart]
  rfl

/-- The first row does not go into its buffer when a column ends behind the row. -/
theorem writeAsciiTableData_outside
    (hwidth : ∀ col cell field, formatOneCell col cell = .ok field → field.length = col.byteWidth)
    (hw : 0 < rowWidth) {rows : List (List Cell)} {fields : List (List Str)}
    (hrows : RowsFormat formatOneCell columns rows fields) (hne : rows ≠ [])
    (hwords : ∀ col ∈ columns, col.byteOffset < u64Size ∧ col.byteWidth < u64Size)
    {bad : AsciiColumn} (hbad : bad ∈ columns) (hout : rowWidth < bad.byteOffset + bad.byteWidth)
    (s : Fits) (start : Nat) :
    ∃ e s', writeAsciiTableData formatOneCell columns rows rowWidth start true s = .error e s' := by
  have hlen : rows.length ≠ 0 := fun h => hne (List.length_eq_zero_iff.1 h)
  cases hrows with
  | nil => exact absurd rfl hne
  | @cons row fs rows fields hfirst _ =>
    obtain ⟨e, he⟩ : ∃ e, formatRow formatOneCell columns row (List.replicate rowWidth blank) =
        .error e :=
      formatRow_outside hwidth hfirst.1 hbad hwords (by simpa using hout)
    obtain ⟨k, hk⟩ : ∃ k, max 1 (1048576 / rowWidth) = k + 1 :=
      ⟨max 1 (1048576 / rowWidth) - 1, by omega⟩
    have hformat : formatRows formatOneCell columns rowWidth
        ((row :: rows).take (max 1 (1048576 / rowWidth))) = .error e := by
      rw [hk, List.take_succ_cons, formatRows, he]
    refine ⟨e, s, ?_⟩
    rw [writeAsciiTableData, if_neg (by omega)]
    dsimp only
    refine FileOp.bind_error ?_
    rw [List.length_cons, writeAsciiChunks, if_neg (by simp), hformat]
    rfl

end

/-! ## Growing the data section -/

/-- The record of an HDU after the tail of the file has moved. -/
def Hdu.shifted (afterOffset delta : Nat) (h : Hdu) : Hdu :=
  { h with offsets := h.offsets.shift afterOffset delta }

theorem Hdu.shifted_of_front {afterOffset delta : Nat} {h : Hdu}
    (hfront : h.offsets.headerOffset < afterOffset) : h.shifted afterOffset delta = h := by
  simp [Hdu.shifted, HduOffsets.shift, Nat.not_le.2 hfront]

@[simp] theorem Hdu.shifted_zero (afterOffset : Nat) : Hdu.shifted afterOffset 0 = id := by
  funext h
  simp [Hdu.shifted, HduOffsets.shift]

/-- Two moves at the end of one data section. -/
theorem Hdu.shifted_shifted (afterOffset d e : Nat) (h : Hdu) :
    (h.shifted afterOffset d).shifted (afterOffset + d) e = h.shifted afterOffset (d + e) := by
  simp only [Hdu.shifted, HduOffsets.shift]
  split_ifs <;> simp_all <;> omega

theorem Hdu.shifted_headerOffset (afterOffset delta : Nat) (h : Hdu) :
    (h.shifted afterOffset delta).offsets.headerOffset =
      if afterOffset ≤ h.offsets.headerOffset then h.offsets.headerOffset + delta
      else h.offsets.headerOffset := by
  simp only [Hdu.shifted, HduOffsets.shift]
  split_ifs <;> rfl

/-- The data section grows by zero bytes at its end, and the HDUs behind it move. -/
theorem growAsciiData_eq {s : Fits} {dataOffset c n : Nat} (hcn : c ≤ n)
    (hend : dataOffset + roundUpToBlock c ≤ s.bytes.length)
    (hrecorded : ∀ g ∈ s.hdus, g.offsets.headerOffset < s.bytes.length) :
    growAsciiData dataOffset c n s =
      .ok () ⟨insertZeros s.bytes (dataOffset + roundUpToBlock c)
          (roundUpToBlock n - roundUpToBlock c),
        s.hdus.map (Hdu.shifted (dataOffset + roundUpToBlock c)
          (roundUpToBlock n - roundUpToBlock c))⟩ := by
  have hmono := roundUpToBlock_mono hcn
  unfold growAsciiData
  split_ifs with hgrow
  · rw [FileOp.get_bind]
    split_ifs with htail
    · have hdelta : dataOffset + roundUpToBlock n - (dataOffset + roundUpToBlock c) =
          roundUpToBlock n - roundUpToBlock c := by omega
      rw [hdelta]
      have hbytes : writeAll (openGap s.bytes (dataOffset + roundUpToBlock c)
          (roundUpToBlock n - roundUpToBlock c)) (dataOffset + roundUpToBlock c)
          (List.replicate (roundUpToBlock n - roundUpToBlock c) 0) =
          insertZeros s.bytes (dataOffset + roundUpToBlock c)
            (roundUpToBlock n - roundUpToBlock c) := by
        apply List.ext_getElem?
        intro i
        rw [writeAll_getElem? (by rw [openGap_length hend]; omega), openGap_getElem? hend,
          insertZeros_getElem? hend, List.length_replicate, List.getElem?_replicate]
        split_ifs <;> first | rfl | omega
      rw [FileOp.bind_ok (shiftFileTail_eq hend), zeroFillRange, writeAt_eq]
      dsimp only
      rw [hbytes]
      rfl
    · have hbytes : setLen s.bytes (dataOffset + roundUpToBlock n) =
          insertZeros s.bytes (dataOffset + roundUpToBlock c)
            (roundUpToBlock n - roundUpToBlock c) := by
        apply List.ext_getElem?
        intro i
        rw [setLen_getElem?, insertZeros_getElem? hend]
        split_ifs <;> first | rfl | omega | exact (List.getElem?_eq_none (by omega)).symm
      -- no HDU stands behind the end of the file
      have hsame : s.hdus.map (Hdu.shifted (dataOffset + roundUpToBlock c)
          (roundUpToBlock n - roundUpToBlock c)) = s.hdus := by
        rw [List.map_congr_left fun g hg =>
          Hdu.shifted_of_front (by have := hrecorded g hg; omega), List.map_id']
      rw [hsame, ← hbytes]
      rfl
  · have hzero : roundUpToBlock n - roundUpToBlock c = 0 := by omega
    have hsame : s.hdus.map (Hdu.shifted (dataOffset + roundUpToBlock c) 0) = s.hdus := by
      simp
    rw [hzero, hsame, insertZeros, List.replicate_zero, List.append_nil, List.take_append_drop]
    rfl

/-! ## The row count card -/

/-- An append finds a NAXIS2 card at or in front of the one that readers use, and not a
card of a longer keyword. -/
def Naxis2Slot (cards : List Card) : Prop :=
  ∃ j card, naxis2Index cards = some j ∧ cards[j]? = some card ∧
    trim (card.take 8) = str "NAXIS2" ∧ ∀ c ∈ cards.take j, decidesKey (str "NAXIS2") c = false

/-- A card is kept, unless it is one of the row count. -/
def SameButRowCount (old new : Card) : Prop :=
  new = old ∨ trim (old.take 8) = str "NAXIS2" ∧ trim (new.take 8) = str "NAXIS2"

theorem SameButRowCount.trans {a b c : Card} (hab : SameButRowCount a b)
    (hbc : SameButRowCount b c) : SameButRowCount a c := by
  rcases hab with rfl | hab
  · exact hbc
  · rcases hbc with rfl | hbc
    · exact Or.inr hab
    · exact Or.inr ⟨hab.1, hbc.2⟩

theorem forall₂_sameButRowCount_trans {a b c : List Card}
    (hab : List.Forall₂ SameButRowCount a b) (hbc : List.Forall₂ SameButRowCount b c) :
    List.Forall₂ SameButRowCount a c := by
  induction hab generalizing c with
  | nil => exact hbc
  | cons hfirst _ ih =>
    cases hbc with
    | cons hnext hrest => exact .cons (hfirst.trans hnext) (ih hrest)

section

variable {cards cards' : List Card} {key : Str}

/-- The lookups of other keywords are as before, -/
theorem parseKeyword_of_sameButRowCount (h : List.Forall₂ SameButRowCount cards cards')
    (hkey : key ≠ str "NAXIS2") : parseKeyword cards' key = parseKeyword cards key := by
  have hother (card : Card) (hcard : trim (card.take 8) = str "NAXIS2") :
      decidesKey key card = false := by
    rw [Bool.eq_false_iff]
    intro hd
    exact hkey ((keyword_of_decidesKey hd).symm.trans hcard)
  induction h with
  | nil => rfl
  | @cons old new cards cards' hcard _ ih =>
    rcases hcard with rfl | ⟨hold, hnew⟩
    · rw [parseKeyword, parseKeyword, ih]
    · rw [parseKeyword_cons_of_not_decides (hother old hold),
        parseKeyword_cons_of_not_decides (hother new hnew), ih]

/-- also those of texts. -/
theorem parseStringKeyword_of_sameButRowCount (h : List.Forall₂ SameButRowCount cards cards')
    (hkey : key ≠ str "NAXIS2") : parseStringKeyword cards' key = parseStringKeyword cards key := by
  have hother (card : Card) (hcard : trim (card.take 8) = str "NAXIS2") :
      isValueCard key card = false := by
    have hne : str "NAXIS2" ≠ key := fun h => hkey h.symm
    simp [isValueCard, hcard, hne]
  induction h with
  | nil => rfl
  | @cons old new cards cards' hcard _ ih =>
    rcases hcard with rfl | ⟨hold, hnew⟩
    · rw [parseStringKeyword, parseStringKeyword, ih]
    · simp [parseStringKeyword, hother old hold, hother new hnew, ih]

theorem asciiRowWidth_of_sameButRowCount (h : List.Forall₂ SameButRowCount cards cards') :
    asciiRowWidth cards' = asciiRowWidth cards := by
  rw [asciiRowWidth, parseKeyword_of_sameButRowCount h (by decide)]
  rfl

theorem ne_naxis2_of_head {b : UInt8} {rest : Str} (hb : b ≠ 0x4E) : b :: rest ≠ str "NAXIS2" := by
  intro h
  exact hb (List.cons.inj h).1

/-- The columns do not depend on the row count. -/
theorem parseAsciiColumns_of_sameButRowCount (h : List.Forall₂ SameButRowCount cards cards') :
    AsciiTable.parseAsciiColumns cards' = AsciiTable.parseAsciiColumns cards := by
  have hcolumn (naxis1 i : Nat) : AsciiTable.parseAsciiColumn cards' naxis1 i =
      AsciiTable.parseAsciiColumn cards naxis1 i := by
    have htbcol : parseKeyword cards' (AsciiTable.tbcolKey i) =
        parseKeyword cards (AsciiTable.tbcolKey i) :=
      parseKeyword_of_sameButRowCount h (ne_naxis2_of_head (by decide))
    have htform : parseStringKeyword cards' (BinaryTable.tformKey i) =
        parseStringKeyword cards (BinaryTable.tformKey i) :=
      parseStringKeyword_of_sameButRowCount h (ne_naxis2_of_head (by decide))
    have httype : parseStringKeyword cards' (BinaryTable.ttypeKey i) =
        parseStringKeyword cards (BinaryTable.ttypeKey i) :=
      parseStringKeyword_of_sameButRowCount h (ne_naxis2_of_head (by decide))
    unfold AsciiTable.parseAsciiColumn
    rw [htbcol, htform, httype]
  unfold AsciiTable.parseAsciiColumns
  rw [parseKeyword_of_sameButRowCount h (by decide), asciiRowWidth_of_sameButRowCount h]
  simp only [hcolumn]

end

theorem naxis2Index_keyword {cards : List Card} {j : Nat} (h : naxis2Index cards = some j) :
    ∃ card, cards[j]? = some card ∧ trim (card.take 6) = str "NAXIS2" := by
  obtain ⟨hj, hcard, -⟩ := List.findIdx?_eq_some_iff_getElem.1 h
  refine ⟨cards[j], List.getElem?_eq_getElem hj, ?_⟩
  simp only [Bool.and_eq_true, decide_eq_true_eq] at hcard
  exact hcard.2

/-- The row count read from the updated header. -/
theorem asciiNrows_set {cards : List Card} {j : Nat} (hj : naxis2Index cards = some j) (n : Nat) :
    asciiNrows (cards.set j (naxis2Card n)) =
      if ∀ c ∈ cards.take j, decidesKey (str "NAXIS2") c = false then (asI64 n).toNat
      else asciiNrows cards := by
  obtain ⟨card, hcard, -⟩ := naxis2Index_keyword hj
  have hlt : j < cards.length := (List.getElem?_eq_some_iff.1 hcard).1
  have hset : cards.set j (naxis2Card n) = cards.take j ++ naxis2Card n :: cards.drop (j + 1) :=
    List.set_eq_take_append_cons_drop.trans (if_pos hlt)
  have hval : ∀ rest, parseKeyword (naxis2Card n :: rest) (str "NAXIS2") = some (asI64 n) :=
    fun rest => parseKeyword_cardInt (by decide) (by decide) (inI64_asI64 n)
  unfold asciiNrows
  split_ifs with hslot
  · rw [hset, parseKeyword_append_of_not_decides hslot, hval]
    rfl
  · have hfront : ∃ c ∈ cards.take j, decidesKey (str "NAXIS2") c = true := by
      by_contra hnone
      refine hslot fun c hc => ?_
      rw [Bool.eq_false_iff]
      exact fun hd => hnone ⟨c, hc, hd⟩
    have hold := parseKeyword_append_of_decides hfront (cards.drop j)
    rw [List.take_append_drop] at hold
    rw [hset, parseKeyword_append_of_decides hfront, hold]

theorem naxis2Card_keyword (n : Nat) : trim ((naxis2Card n).take 8) = str "NAXIS2" :=
  keyword_cardInt (by decide) (by decide) (inI64_asI64 n)

/-- The new cards are the old ones but for the row count exactly when the card that is
overwritten is one of the row count. -/
theorem sameButRowCount_set_iff {cards : List Card} {j : Nat} {card : Card}
    (hcard : cards[j]? = some card) (n : Nat) :
    List.Forall₂ SameButRowCount cards (cards.set j (naxis2Card n)) ↔
      trim (card.take 8) = str "NAXIS2" := by
  induction cards generalizing j with
  | nil => simp at hcard
  | cons c cards ih =>
    have hrefl : List.Forall₂ SameButRowCount cards cards :=
      List.forall₂_same.2 fun c _ => Or.inl rfl
    cases j with
    | zero =>
      obtain rfl : c = card := by simpa using hcard
      rw [List.set_cons_zero, List.forall₂_cons]
      constructor
      · rintro ⟨hsame | hkey, -⟩
        · rw [← hsame]
          exact naxis2Card_keyword n
        · exact hkey.1
      · exact fun hkey => ⟨Or.inr ⟨hkey, naxis2Card_keyword n⟩, hrefl⟩
    | succ j =>
      rw [List.set_cons_succ, List.forall₂_cons, ih (by simpa using hcard)]
      exact and_iff_right (Or.inl rfl)

end RustFits
