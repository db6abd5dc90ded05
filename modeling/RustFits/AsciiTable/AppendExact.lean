import RustFits.AsciiTable.AppendedFile

/-!
# When an ASCII append is a concatenation

The rows of an append start at an arbitrary place of the last block, while the
padding behind them is computed from the appended bytes alone.  The two agree
when the table ends at a block boundary.

* `AppendFits` is the condition on the file before the append.
* `appendCorrect_iff` is the equivalence for one append, and
  `asciiAppend_concatenates_iff` the one for a run of appends.
-/

namespace RustFits

open Ascii ByteFile Machine

/-! ## One append and a run of appends -/

/-- The condition on an append of some rows.  The columns lie in the row: without a row
width nothing is written and read.  The header has no block to spare, since it is written
right in front of the data section.  The row count card is found and the count is an `i64`.
The table ends at a block boundary, or the padding runs over into blanks. -/
structure RowsFit {Cell : Type} (columns : List AsciiColumn) (s : Fits) (h : Hdu)
    (rows : List (List Cell)) : Prop where
  inside : ∀ col ∈ columns, col.byteOffset + col.byteWidth ≤ asciiRowWidth h.cards
  blocks : h.offsets.headerBlockCount = headerBlocks h.cards.length
  slot : Naxis2Slot h.cards
  count : asciiNrows h.cards + rows.length ≤ 9223372036854775807
  padding : asciiDataBytes h % 2880 = 0 ∨
    (roundUpToBlock (asciiDataBytes h % 2880 + rows.length * asciiRowWidth h.cards) =
        roundUpToBlock (rows.length * asciiRowWidth h.cards) ∧
      slice s.bytes (asciiDataEnd h) (asciiDataBytes h % 2880) =
        List.replicate (asciiDataBytes h % 2880) blank)

/-- The condition on the file before an append.  Without rows the padding is blank
already. -/
def AppendFits {Cell : Type} (columns : List AsciiColumn) (s : Fits) (h : Hdu)
    (rows : List (List Cell)) : Prop :=
  if rows = [] then
    slice s.bytes (h.offsets.dataOffset + asciiDataBytes h)
        (roundUpToBlock (asciiDataBytes h) - asciiDataBytes h) =
      List.replicate (roundUpToBlock (asciiDataBytes h) - asciiDataBytes h) blank
  else RowsFit columns s h rows

section

variable {Cell : Type} {formatOneCell : AsciiColumn → Cell → Except PyErr Str}
  {columns : List AsciiColumn} {s : Fits} {idx : Nat} {h : Hdu}
  {rows : List (List Cell)} {fields : List (List Str)}

/-- Columns that lie in the row do not overlap. -/
theorem AsciiFile.columnsValid (hfile : AsciiFile s idx h columns)
    (hin : ∀ col ∈ columns, col.byteOffset + col.byteWidth ≤ asciiRowWidth h.cards) :
    AsciiColumnsValid columns (asciiRowWidth h.cards) where
  inside := hin
  apart := AsciiTable.checkOverlap_apart
    (fun col hcol =>
      AsciiTable.fieldEnd_of_inside (hin col hcol) (AsciiTable.asciiRowWidth_lt h.cards))
    (AsciiTable.parseAsciiColumns_ok hfile.parsed).2

/-- The header of the table ends at its data section. -/
theorem AsciiFile.header_le (hfile : AsciiFile s idx h columns) (j n : Nat) :
    (serializeHeaderToDiskBytes (h.cards.set j (naxis2Card n))).length ≤
      h.offsets.headerBlockCount * 2880 := by
  rw [serialize_length, List.length_set]
  exact Nat.mul_le_mul_right 2880 hfile.headerFits

theorem AsciiFile.headerOffset_lt (hfile : AsciiFile s idx h columns) :
    h.offsets.headerOffset < asciiDataEnd h := by
  have hoff := hfile.dataOffset_eq
  have hpos := hfile.headerPos
  unfold asciiDataEnd
  omega

/-- The bytes under the new rows of an append to the table. -/
def appendBase (s : Fits) (h : Hdu) (j k : Nat) : Bytes :=
  grownBytes s.bytes h.offsets.dataOffset (asciiDataBytes h)
    (asciiDataBytes h + k * asciiRowWidth h.cards)
    (serializeHeaderToDiskBytes (h.cards.set j (naxis2Card (asciiNrows h.cards + k))))

/-- The HDUs after an append to the table. -/
def appendHdus (s : Fits) (idx : Nat) (h : Hdu) (j k : Nat) : List Hdu :=
  (s.hdus.map (Hdu.shifted (asciiDataEnd h) (roundUpToBlock
    (asciiDataBytes h + k * asciiRowWidth h.cards) - roundUpToBlock (asciiDataBytes h)))).modify idx
      fun g => { g with cards := h.cards.set j (naxis2Card (asciiNrows h.cards + k)) }

theorem grownFrom_appendBase (hfile : AsciiFile s idx h columns) (j k : Nat) :
    GrownFrom s.bytes (appendBase s h j k) h.offsets.dataOffset (asciiDataBytes h)
      (asciiDataBytes h + k * asciiRowWidth h.cards) := by
  have hle := hfile.header_le j (asciiNrows h.cards + k)
  have hoff := hfile.dataOffset_eq
  exact grownFrom_grownBytes hfile.complete (by omega)

theorem appendHdus_self (hfile : AsciiFile s idx h columns) (j k : Nat) :
    (appendHdus s idx h j k)[idx]? = some (appendedHdu h h.cards j (asciiNrows h.cards + k)) := by
  rw [appendHdus, List.getElem?_modify, List.getElem?_map, hfile.hdu, Option.map_some,
    Hdu.shifted_of_front hfile.headerOffset_lt]
  simp [appendedHdu]

theorem appendHdus_other {i : Nat} (hi : i ≠ idx) (j k : Nat) :
    (appendHdus s idx h j k)[i]? = s.hdus[i]?.map (Hdu.shifted (asciiDataEnd h) (roundUpToBlock
      (asciiDataBytes h + k * asciiRowWidth h.cards) - roundUpToBlock (asciiDataBytes h))) := by
  rw [appendHdus, List.getElem?_modify, List.getElem?_map]
  simp [Ne.symm hi]

/-- An append of some rows up to their bytes. -/
theorem asciiAppend_rows (hfile : AsciiFile s idx h columns) (hne : rows ≠ []) {j : Nat}
    (hj : naxis2Index h.cards = some j) :
    asciiAppend formatOneCell idx columns rows s =
      writeAsciiTableData formatOneCell columns rows (asciiRowWidth h.cards)
        (h.offsets.dataOffset + asciiDataBytes h) true
        ⟨appendBase s h j rows.length, appendHdus s idx h j rows.length⟩ := by
  rw [asciiAppend, FileOp.get_bind, hfile.hdu]
  dsimp only
  rw [if_neg (by simpa using hne), appendAsciiTable_eq hfile.complete hfile.recorded hj]
  rw [Nat.add_mul]
  rfl

/-- An append of some rows in terms of the grown file. -/
theorem asciiAppend_grown
    (hwidth : ∀ col cell field, formatOneCell col cell = .ok field → field.length = col.byteWidth)
    (hfile : AsciiFile s idx h columns) (hrows : RowsFormat formatOneCell columns rows fields)
    (hne : rows ≠ [])
    (hin : ∀ col ∈ columns, col.byteOffset + col.byteWidth ≤ asciiRowWidth h.cards) {j : Nat}
    (hj : naxis2Index h.cards = some j) :
    asciiAppend formatOneCell idx columns rows s =
      .ok () ⟨writeAll (appendBase s h j rows.length) (h.offsets.dataOffset + asciiDataBytes h)
        (fields.flatMap (rowBytes columns (asciiRowWidth h.cards)) ++
          List.replicate (writtenPad (rows.length * asciiRowWidth h.cards)) blank),
        appendHdus s idx h j rows.length⟩ := by
  have hvalid := hfile.columnsValid hin
  have hfit := fieldsFit_of_rowsFormat hwidth hrows
  rw [asciiAppend_rows hfile hne hj]
  rcases Nat.eq_zero_or_pos (asciiRowWidth h.cards) with hw | hw
  · rw [hw] at hvalid ⊢
    have hnil : fields.flatMap (rowBytes columns 0) = [] := by
      apply List.eq_nil_of_length_eq_zero
      rw [flatMap_length_of_width fun fs hfs => rowBytes_length hvalid (hfit fs hfs)]
      omega
    have hpad : writtenPad (rows.length * 0) = 0 := by simp [writtenPad]
    rw [hnil, hpad, List.replicate_zero, List.append_nil, writeAll_nil, writeAsciiTableData,
      if_pos (Or.inl rfl)]
    rfl
  · have hg := grownFrom_appendBase hfile j rows.length
    have hstart := hg.complete
    have hlen := hg.length_eq
    have hle := le_roundUpToBlock (asciiDataBytes h)
    rw [writeAsciiTableData_eq hwidth hw (AsciiTable.asciiRowWidth_lt h.cards) hrows hne hvalid
      (by dsimp only; omega)]

/-- A table without a row width has no columns in the row. -/
theorem AsciiFile.columns_eq_nil (hfile : AsciiFile s idx h columns)
    (hin : ∀ col ∈ columns, col.byteOffset + col.byteWidth ≤ asciiRowWidth h.cards)
    (hw : asciiRowWidth h.cards = 0) : columns = [] := by
  apply List.eq_nil_iff_forall_not_mem.2
  intro col hcol
  obtain ⟨hparse, -⟩ := AsciiTable.parseAsciiColumns_ok hfile.parsed
  obtain ⟨i, -, hone⟩ := exists_of_mem_mapM hparse hcol
  have hpos := (AsciiTable.parseAsciiColumn_ok hone).2.2.1
  have hend := hin col hcol
  omega

/-- Everything but the padding is right as soon as the row count is. -/
theorem readAsciiTable_appended (hvalid : AsciiColumnsValid columns (asciiRowWidth h.cards))
    (hnil : asciiRowWidth h.cards = 0 → columns = [])
    (hfit : ∀ fs ∈ fields, FieldsFit columns fs) {base : Bytes} {hdus : List Hdu} {pad : Nat}
    {cards : List Card} (hcards : List.Forall₂ SameButRowCount h.cards cards)
    (hg : GrownFrom s.bytes base h.offsets.dataOffset (asciiDataBytes h)
      (asciiDataBytes h + fields.length * asciiRowWidth h.cards))
    (hcount : asciiNrows cards = asciiNrows h.cards + fields.length) :
    readAsciiTable ⟨writeAll base (h.offsets.dataOffset + asciiDataBytes h)
        (fields.flatMap (rowBytes columns (asciiRowWidth h.cards)) ++
          List.replicate pad blank), hdus⟩ { h with cards := cards } columns =
      readAsciiTable s h columns ++ fields := by
  have hwidth : ∀ fs ∈ fields, (rowBytes columns (asciiRowWidth h.cards) fs).length =
      asciiRowWidth h.cards := fun fs hfs => rowBytes_length hvalid (hfit fs hfs)
  unfold readAsciiTable
  dsimp only
  rw [hcount, asciiRowWidth_of_sameButRowCount hcards, List.range_add, List.map_append]
  congr 1
  · apply List.map_congr_left
    intro r hr
    split_ifs with hw
    · rfl
    · exact readAsciiRow_old hvalid hg (flatMap_length_of_width hwidth) (List.mem_range.1 hr)
  · apply List.ext_getElem?
    intro i
    rw [List.map_map, List.getElem?_map]
    rcases Nat.lt_or_ge i fields.length with hi | hi
    · obtain ⟨fs, hfs⟩ : ∃ fs, fields[i]? = some fs := ⟨_, List.getElem?_eq_getElem hi⟩
      rw [List.getElem?_range hi, hfs, Option.map_some]
      refine congrArg some ?_
      show (if asciiRowWidth h.cards = 0 then [] else _) = fs
      split_ifs with hw
      · have hempty := hfit fs (List.mem_of_getElem? hfs)
        rw [hnil hw] at hempty
        cases hempty
        rfl
      · exact readAsciiRow_new hvalid hfit hg hfs
    · rw [List.getElem?_eq_none (by simpa using hi), List.getElem?_eq_none hi]
      rfl

end

/-! ## The header on disk -/

/-- A list that is its own continuation behind `front` ends in blanks only if it is
blank. -/
theorem eq_of_append_replicate {α : Type} {front l : List α} {a : α} {n : Nat}
    (hlen : front.length = n) (hpos : 0 < n) (h : front ++ l = l ++ List.replicate n a) :
    ∀ x ∈ l, x = a := by
  subst hlen
  have hget (d : Nat) : ∀ i, l.length ≤ i + d → i < l.length → l[i]? = some a := by
    induction d with
    | zero =>
      intro i hle hi
      omega
    | succ d ih =>
      intro i hle hi
      have hat := congrArg (fun m => m[front.length + i]?) h
      rw [List.getElem?_append_right (by omega), Nat.add_sub_cancel_left] at hat
      rw [hat]
      rcases Nat.lt_or_ge (front.length + i) l.length with hin | hout
      · rw [List.getElem?_append_left hin]
        exact ih _ (by omega) hin
      · rw [List.getElem?_append_right hout, List.getElem?_replicate, if_pos (by omega)]
  intro x hx
  obtain ⟨i, hi, hxi⟩ := List.mem_iff_getElem.1 hx
  have hblank := hget l.length i (by omega) hi
  rw [List.getElem?_eq_getElem hi, hxi] at hblank
  exact Option.some.inj hblank

/-- A header over more blocks than it needs. -/
theorem headerBytes_eq {blocks : Nat} {cards : List Card} (h : headerBlocks cards.length ≤ blocks) :
    headerBytes blocks cards = serializeHeaderToDiskBytes cards ++
      List.replicate ((blocks - headerBlocks cards.length) * blockSize) blank := by
  have hlen := flatMap_length_of_width fun card (_ : card ∈ cards) => padToCard_length card
  have hneed : (cards.flatMap padToCard).length ≤ headerBlocks cards.length * blockSize := by
    rw [hlen, headerBlocks_eq]
    unfold blockSize
    omega
  have hmul := Nat.mul_le_mul_right blockSize h
  rw [headerBytes, serializeHeaderToDiskBytes, padRight, padRight, List.append_assoc,
    List.replicate_append_replicate, Nat.sub_mul]
  congr 2
  omega

theorem naxis2_mem_serialize {cards : List Card} {j n : Nat} (hj : j < cards.length) :
    (0x4E : UInt8) ∈ serializeHeaderToDiskBytes (cards.set j (naxis2Card n)) := by
  have hkeyword : (0x4E : UInt8) ∈ trim ((naxis2Card n).take 8) := by
    rw [naxis2Card_keyword]
    decide
  have hcard : (0x4E : UInt8) ∈ padToCard (naxis2Card n) := by
    have htake := (trim_sublist _).subset hkeyword
    have hcut : (naxis2Card n).take 8 = ((naxis2Card n).take cardSize).take 8 := by
      rw [List.take_take]
      rfl
    rw [hcut] at htake
    exact List.mem_append_left _ (List.mem_of_mem_take htake)
  exact List.mem_append_left _ (List.mem_flatMap.2 ⟨_, List.mem_set hj _, hcard⟩)

section

variable {columns : List AsciiColumn} {s : Fits} {idx : Nat} {h : Hdu} {j k : Nat}

/-- The new header is right in front of the data section. -/
theorem append_header (hfile : AsciiFile s idx h columns) (j k : Nat) (data : Bytes) :
    slice (writeAll (appendBase s h j k) (h.offsets.dataOffset + asciiDataBytes h) data)
        (h.offsets.dataOffset - (serializeHeaderToDiskBytes
          (h.cards.set j (naxis2Card (asciiNrows h.cards + k)))).length)
        (serializeHeaderToDiskBytes
          (h.cards.set j (naxis2Card (asciiNrows h.cards + k)))).length =
      serializeHeaderToDiskBytes (h.cards.set j (naxis2Card (asciiNrows h.cards + k))) := by
  have hg := grownFrom_appendBase hfile j k
  have hle := hfile.header_le j (asciiNrows h.cards + k)
  have hoff := hfile.dataOffset_eq
  have hround := le_roundUpToBlock (asciiDataBytes h)
  have hcomplete := hg.complete
  have hlen := hg.length_eq
  rw [slice_writeAll_of_disjoint (by omega) (by omega)]
  exact grownBytes_header hfile.complete

/-- The bytes in front of the HDU are as before. -/
theorem append_front (hfile : AsciiFile s idx h columns) (j k : Nat) (data : Bytes) :
    (writeAll (appendBase s h j k) (h.offsets.dataOffset + asciiDataBytes h) data).take
      h.offsets.headerOffset = s.bytes.take h.offsets.headerOffset := by
  have hg := grownFrom_appendBase hfile j k
  have hle := hfile.header_le j (asciiNrows h.cards + k)
  have hoff := hfile.dataOffset_eq
  have hround := le_roundUpToBlock (asciiDataBytes h)
  have hcomplete := hg.complete
  have hlen := hg.length_eq
  apply List.ext_getElem?
  intro i
  rw [List.getElem?_take, List.getElem?_take]
  split_ifs with hi
  · rw [writeAll_getElem? (by omega), if_neg (by omega)]
    exact grownBytes_front hfile.complete (by omega)
  · rfl

/-- A header without a block to spare is the one on disk. -/
theorem append_diskHeader (hfile : AsciiFile s idx h columns)
    (hblocks : h.offsets.headerBlockCount = headerBlocks h.cards.length) (j k : Nat) (data : Bytes)
    (hdus : List Hdu) :
    diskHeader ⟨writeAll (appendBase s h j k) (h.offsets.dataOffset + asciiDataBytes h) data, hdus⟩
        h =
      headerBytes h.offsets.headerBlockCount
        (h.cards.set j (naxis2Card (asciiNrows h.cards + k))) := by
  have hheader := append_header hfile j k data
  have hoff := hfile.dataOffset_eq
  have hserialize : serializeHeaderToDiskBytes
      (h.cards.set j (naxis2Card (asciiNrows h.cards + k))) =
      headerBytes h.offsets.headerBlockCount
        (h.cards.set j (naxis2Card (asciiNrows h.cards + k))) := by
    rw [serializeHeaderToDiskBytes, headerBytes, hblocks, List.length_set]
  have hlength : (serializeHeaderToDiskBytes
      (h.cards.set j (naxis2Card (asciiNrows h.cards + k)))).length =
      h.offsets.headerBlockCount * 2880 := by
    rw [serialize_length, List.length_set, hblocks]
  rw [hlength, hserialize] at hheader
  have hplace : h.offsets.dataOffset - h.offsets.headerBlockCount * 2880 =
      h.offsets.headerOffset := by omega
  rw [hplace] at hheader
  exact hheader

/-- A header on disk that is the new one has no block to spare. -/
theorem blocks_of_diskHeader (hfile : AsciiFile s idx h columns) (hj : j < h.cards.length)
    {data : Bytes} {hdus : List Hdu}
    (hdisk : diskHeader
        ⟨writeAll (appendBase s h j k) (h.offsets.dataOffset + asciiDataBytes h) data, hdus⟩ h =
      headerBytes h.offsets.headerBlockCount
        (h.cards.set j (naxis2Card (asciiNrows h.cards + k)))) :
    h.offsets.headerBlockCount = headerBlocks h.cards.length := by
  have hheader := append_header hfile j k data
  have hfits := hfile.headerFits
  have hoff := hfile.dataOffset_eq
  have hbyte := naxis2_mem_serialize (n := asciiNrows h.cards + k) hj
  have hlength := serialize_length (h.cards.set j (naxis2Card (asciiNrows h.cards + k)))
  rw [List.length_set] at hlength
  rw [headerBytes_eq (by rwa [List.length_set]), List.length_set] at hdisk
  unfold diskHeader at hdisk
  dsimp only at hdisk
  generalize serializeHeaderToDiskBytes (h.cards.set j (naxis2Card (asciiNrows h.cards + k))) =
    header at hheader hdisk hbyte hlength
  generalize writeAll (appendBase s h j k) (h.offsets.dataOffset + asciiDataBytes h) data = file
    at hheader hdisk
  obtain ⟨spare, hspare⟩ := Nat.exists_eq_add_of_le hfits
  rw [hspare, Nat.add_sub_cancel_left, Nat.add_mul, Nat.add_comm, slice_add] at hdisk
  have hplace : h.offsets.headerOffset + spare * blockSize =
      h.offsets.dataOffset - header.length := by
    rw [hlength, hoff, hspare, Nat.add_mul]
    unfold blockSize
    omega
  have hsame : headerBlocks h.cards.length * blockSize = header.length := hlength.symm
  rw [hplace, hsame, hheader] at hdisk
  have hfront : (slice file h.offsets.headerOffset (spare * blockSize)).length =
      spare * blockSize := by
    have hlen := congrArg List.length hdisk
    rw [List.length_append, List.length_append, List.length_replicate] at hlen
    omega
  rcases Nat.eq_zero_or_pos spare with h0 | h0
  · omega
  · have hroom : 0 < spare * blockSize := Nat.mul_pos h0 (by decide)
    exact absurd (eq_of_append_replicate hfront hroom hdisk _ hbyte) (by decide)

end

/-- The append succeeds and is a concatenation. -/
def AppendCorrect {Cell : Type} (formatOneCell : AsciiColumn → Cell → Except PyErr Str)
    (idx : Nat) (columns : List AsciiColumn) (s : Fits) (h : Hdu) (rows : List (List Cell))
    (fields : List (List Str)) : Prop :=
  ∃ s' h', asciiAppend formatOneCell idx columns rows s = .ok () s' ∧ s'.hdus[idx]? = some h' ∧
    Appended idx columns s h fields s' h'

section

variable {Cell : Type} {formatOneCell : AsciiColumn → Cell → Except PyErr Str}
  {columns : List AsciiColumn} {s : Fits} {idx : Nat} {h : Hdu}
  {rows : List (List Cell)} {fields : List (List Str)}

/-- Without a row count card the append raises, after it has grown the file. -/
theorem asciiAppend_of_no_slot (hfile : AsciiFile s idx h columns) (hne : rows ≠ [])
    (hj : naxis2Index h.cards = none) :
    ∃ s', asciiAppend formatOneCell idx columns rows s =
      .error (.value (str "header missing NAXIS2")) s' := by
  have hgrow := growAsciiData_eq
    (Nat.mul_le_mul_right (asciiRowWidth h.cards)
      (Nat.le_add_right (asciiNrows h.cards) rows.length))
    hfile.complete hfile.recorded
  rw [asciiAppend, FileOp.get_bind, hfile.hdu]
  dsimp only
  rw [if_neg (by simpa using hne), appendAsciiTable]
  dsimp only
  rw [FileOp.bind_ok hgrow, hj]
  exact ⟨_, rfl⟩

/-- An append that reads back has its columns in the row: behind the row the writer
panics, and without a row width nothing is read. -/
theorem inside_of_append
    (hwidth : ∀ col cell field, formatOneCell col cell = .ok field → field.length = col.byteWidth)
    (hfile : AsciiFile s idx h columns) (hrows : RowsFormat formatOneCell columns rows fields)
    (hne : rows ≠ []) {j : Nat} (hj : naxis2Index h.cards = some j) {s' : Fits} {h' : Hdu}
    (happend : asciiAppend formatOneCell idx columns rows s = .ok () s')
    (happended : Appended idx columns s h fields s' h') :
    ∀ col ∈ columns, col.byteOffset + col.byteWidth ≤ asciiRowWidth h.cards := by
  intro bad hbad
  by_contra hout
  rw [Nat.not_le] at hout
  rcases Nat.eq_zero_or_pos (asciiRowWidth h.cards) with hw | hw
  · have hw' : asciiRowWidth h'.cards = 0 :=
      (asciiRowWidth_of_sameButRowCount happended.cards).trans hw
    have hlen : fields ≠ [] := by
      intro hnil
      have := hrows.length_eq
      rw [hnil] at this
      exact hne (List.length_eq_zero_iff.1 this)
    obtain ⟨fs, hfs⟩ := List.exists_mem_of_ne_nil fields hlen
    have hread : fs ∈ readAsciiTable s' h' columns := by
      rw [happended.rows]
      exact List.mem_append_right _ hfs
    unfold readAsciiTable at hread
    simp only [hw', if_pos] at hread
    obtain ⟨r, -, hr⟩ := List.mem_map.1 hread
    have hfit := (fieldsFit_of_rowsFormat hwidth hrows fs hfs).length_eq
    rw [← hr, List.length_nil, List.length_eq_zero_iff] at hfit
    rw [hfit] at hbad
    simp at hbad
  · have hwords : ∀ col ∈ columns, col.byteOffset < u64Size ∧ col.byteWidth < u64Size := by
      intro col hcol
      obtain ⟨hparse, -⟩ := AsciiTable.parseAsciiColumns_ok hfile.parsed
      obtain ⟨i, -, hone⟩ := exists_of_mem_mapM hparse hcol
      exact AsciiTable.parseAsciiColumn_words hone
    obtain ⟨e, t, herror⟩ := writeAsciiTableData_outside hwidth hw hrows hne hwords hbad hout
      ⟨appendBase s h j rows.length, appendHdus s idx h j rows.length⟩
      (h.offsets.dataOffset + asciiDataBytes h)
    rw [asciiAppend_rows hfile hne hj, herror] at happend
    cases happend

/-- The grown file ends behind the new data section and is whole blocks. -/
theorem grownFrom_length {bytes base : Bytes} {dataOffset c n : Nat}
    (hg : GrownFrom bytes base dataOffset c n) (hcn : c ≤ n) :
    dataOffset + roundUpToBlock n ≤ base.length ∧ base.length % 2880 = bytes.length % 2880 := by
  have h1 := hg.complete
  have h2 := hg.length_eq
  have h3 := roundUpToBlock_mono hcn
  have h4 := roundUpToBlock_mod c
  have h5 := roundUpToBlock_mod n
  omega

theorem asciiDataBytes_of_count {h' : Hdu} {k : Nat}
    (hcards : List.Forall₂ SameButRowCount h.cards h'.cards)
    (hcount : asciiNrows h'.cards = asciiNrows h.cards + k) :
    asciiDataBytes h' = asciiDataBytes h + k * asciiRowWidth h.cards := by
  rw [asciiDataBytes, hcount, asciiRowWidth_of_sameButRowCount hcards, Nat.add_mul]
  rfl

/-- The rows that are read back are counted. -/
theorem Appended.nrows_eq {s' : Fits} {h' : Hdu}
    (happended : Appended idx columns s h fields s' h') :
    asciiNrows h'.cards = asciiNrows h.cards + fields.length := by
  have hlen := congrArg List.length happended.rows
  simpa [readAsciiTable] using hlen

theorem appended_pos (hne : rows ≠ []) :
    asciiDataBytes h % 2880 ≠ 0 → 0 < rows.length * asciiRowWidth h.cards := by
  intro hodd
  refine Nat.mul_pos (List.length_pos_of_ne_nil hne) (Nat.pos_of_ne_zero fun h0 => hodd ?_)
  simp [asciiDataBytes, h0]

/-- The padding and the tail of an append, from the residues. -/
theorem padding_tail_iff {bytes base data : Bytes} {dataOffset c a : Nat}
    (hg : GrownFrom bytes base dataOffset c (c + a)) (hdata : data.length = a)
    (hwhole : bytes.length % 2880 = 0) (hzero : c % 2880 ≠ 0 → 0 < a) :
    (slice (writeAll base (dataOffset + c) (data ++ List.replicate (writtenPad a) blank))
          (dataOffset + (c + a)) (roundUpToBlock (c + a) - (c + a)) =
        List.replicate (roundUpToBlock (c + a) - (c + a)) blank ∧
      (writeAll base (dataOffset + c) (data ++ List.replicate (writtenPad a) blank)).drop
          (dataOffset + roundUpToBlock (c + a)) = bytes.drop (dataOffset + roundUpToBlock c) ∧
      (writeAll base (dataOffset + c) (data ++ List.replicate (writtenPad a) blank)).length % 2880
        = 0) ↔
    (c % 2880 = 0 ∨ (roundUpToBlock (c % 2880 + a) = roundUpToBlock a ∧
      slice bytes (dataOffset + roundUpToBlock c) (c % 2880) =
        List.replicate (c % 2880) blank)) := by
  have hlen := (grownFrom_length hg (Nat.le_add_right c a)).2
  have hmono := roundUpToBlock_mono (Nat.le_add_right c a)
  have hbase := hg.length_eq
  by_cases hc : c % 2880 = 0
  · have hpad := writtenPad_of_whole (a := a) hc
    obtain ⟨htail, hlength⟩ := tail_appended hg hdata hpad
    refine iff_of_true ⟨padding_appended hg hdata (by omega), htail, by omega⟩ (Or.inl hc)
  · by_cases hover : roundUpToBlock (c % 2880 + a) = roundUpToBlock a
    · have hpad := writtenPad_of_over hover
      have hiff := tail_appended_over hg hdata (by omega) hpad
      constructor
      · rintro ⟨-, htail⟩
        exact Or.inr ⟨hover, hiff.1 htail⟩
      · rintro (h0 | ⟨-, hblank⟩)
        · exact absurd h0 hc
        · exact ⟨padding_appended hg hdata (by omega), hiff.2 hblank⟩
    · obtain ⟨hshort, hgrow⟩ := writtenPad_of_under (hzero hc) hover
      refine iff_of_false (fun hp => not_padding_appended hg hdata hshort hgrow hp.1) ?_
      rintro (h0 | ⟨h0, -⟩)
      · exact hc h0
      · exact hover h0

/-- The HDUs begin in the file also behind the new rows. -/
theorem appendHdus_recorded (hfile : AsciiFile s idx h columns) {j k : Nat} {data : Bytes} :
    ∀ g ∈ appendHdus s idx h j k, g.offsets.headerOffset <
      (writeAll (appendBase s h j k) (h.offsets.dataOffset + asciiDataBytes h) data).length := by
  intro g hg
  have hgrown := grownFrom_appendBase hfile j k
  have hlen := hgrown.length_eq
  have hround := le_roundUpToBlock (asciiDataBytes h)
  have hcomplete := hgrown.complete
  rw [writeAll_length _ _ _ (by omega)]
  refine Nat.lt_of_lt_of_le ?_ (Nat.le_max_left _ _)
  obtain ⟨i, hi⟩ := List.mem_iff_getElem?.1 hg
  by_cases hidx : i = idx
  · subst hidx
    rw [appendHdus_self hfile] at hi
    obtain rfl := Option.some.inj hi
    have hfront := hfile.headerOffset_lt
    unfold asciiDataEnd at hfront
    show h.offsets.headerOffset < _
    omega
  · rw [appendHdus_other hidx] at hi
    obtain ⟨old, hold, rfl⟩ := Option.map_eq_some_iff.1 hi
    have hin := hfile.recorded old (List.mem_of_getElem? hold)
    rw [Hdu.shifted_headerOffset]
    split_ifs <;> omega

/-- An append that meets the condition is a concatenation, and leaves a complete
file. -/
theorem appended_of_fits
    (hwidth : ∀ col cell field, formatOneCell col cell = .ok field → field.length = col.byteWidth)
    (hfile : AsciiFile s idx h columns) (hrows : RowsFormat formatOneCell columns rows fields)
    (hfits : AppendFits columns s h rows) :
    ∃ s' h', asciiAppend formatOneCell idx columns rows s = .ok () s' ∧
      AsciiFile s' idx h' columns ∧ Appended idx columns s h fields s' h' := by
  have hfit := fieldsFit_of_rowsFormat hwidth hrows
  have hlen : fields.length = rows.length := hrows.length_eq.symm
  unfold AppendFits at hfits
  split_ifs at hfits with hempty
  · subst hempty
    have hnil : fields = [] := List.length_eq_zero_iff.1 (by simpa using hlen)
    subst hnil
    refine ⟨s, h, asciiAppend_nil hfile, hfile, ?_⟩
    exact {
      rows := (List.append_nil _).symm
      tail := rfl
      padding := hfits
      whole := hfile.whole
      old := rfl
      front := rfl
      header := Or.inl ⟨rfl, rfl⟩
      cards := List.forall₂_same.2 fun c _ => Or.inl rfl
      place := rfl
      others := fun i _ => by simp }
  · obtain ⟨j, card, hj, hcard, hkeyword, hslot⟩ := hfits.slot
    have hvalid := hfile.columnsValid hfits.inside
    have happend := asciiAppend_grown hwidth hfile hrows hempty hfits.inside hj
    have hg := grownFrom_appendBase hfile j rows.length
    have hcards := (sameButRowCount_set_iff hcard (asciiNrows h.cards + rows.length)).2 hkeyword
    have hcount : asciiNrows (h.cards.set j (naxis2Card (asciiNrows h.cards + rows.length))) =
        asciiNrows h.cards + rows.length := by
      rw [asciiNrows_set hj, if_pos hslot]
      exact (asI64_toNat_iff _).2 hfits.count
    have hbytes : asciiDataBytes (appendedHdu h h.cards j (asciiNrows h.cards + rows.length)) =
        asciiDataBytes h + rows.length * asciiRowWidth h.cards :=
      asciiDataBytes_of_count hcards hcount
    have hdata : (fields.flatMap (rowBytes columns (asciiRowWidth h.cards))).length =
        rows.length * asciiRowWidth h.cards := by
      rw [flatMap_length_of_width fun fs hfs => rowBytes_length hvalid (hfit fs hfs), hlen]
    obtain ⟨hpadding, htail, hwhole⟩ :=
      (padding_tail_iff hg hdata hfile.whole (appended_pos hempty)).2 hfits.padding
    have hend : asciiDataEnd (appendedHdu h h.cards j (asciiNrows h.cards + rows.length)) =
        h.offsets.dataOffset +
          roundUpToBlock (asciiDataBytes h + rows.length * asciiRowWidth h.cards) := by
      rw [asciiDataEnd, hbytes]
      rfl
    refine ⟨_, appendedHdu h h.cards j (asciiNrows h.cards + rows.length), happend, ?_, ?_⟩
    · refine ⟨appendHdus_self hfile j rows.length, hfile.dataOffset_eq, ?_, hfile.headerPos,
        hfile.aligned, hwhole, ?_, appendHdus_recorded hfile, ?_⟩
      · simpa [appendedHdu] using hfile.headerFits
      · have hroom := (grownFrom_length hg (Nat.le_add_right _ _)).1
        have hle := le_roundUpToBlock (asciiDataBytes h)
        have hstart := hg.complete
        have hbase := hg.length_eq
        rw [hend, writeAll_length _ _ _ (by omega)]
        exact Nat.le_trans hroom (Nat.le_max_left _ _)
      · exact (parseAsciiColumns_of_sameButRowCount hcards).trans hfile.parsed
    · exact {
        rows := by
          rw [← hlen] at hg hcards hcount ⊢
          exact readAsciiTable_appended hvalid (hfile.columns_eq_nil hfits.inside) hfit hcards hg
            hcount
        tail := by
          rw [hend]
          exact htail
        padding := by
          rw [hbytes]
          exact hpadding
        whole := hwhole
        old := slice_appended_old hg hdata (Nat.le_refl _) (Nat.le_refl _)
        front := append_front hfile j rows.length _
        header := Or.inr (append_diskHeader hfile hfits.blocks j rows.length _ _)
        cards := hcards
        place := rfl
        others := by
          intro i hi
          have hdelta : asciiDataEnd
              (appendedHdu h h.cards j (asciiNrows h.cards + rows.length)) - asciiDataEnd h =
              roundUpToBlock (asciiDataBytes h + rows.length * asciiRowWidth h.cards) -
                roundUpToBlock (asciiDataBytes h) := by
            rw [hend, asciiDataEnd]
            omega
          rw [hdelta]
          exact appendHdus_other hi j rows.length }

/-- An append of some rows that is a concatenation meets the condition. -/
theorem rowsFit_of_appended
    (hwidth : ∀ col cell field, formatOneCell col cell = .ok field → field.length = col.byteWidth)
    (hfile : AsciiFile s idx h columns) (hrows : RowsFormat formatOneCell columns rows fields)
    (hne : rows ≠ []) {j : Nat} (hj : naxis2Index h.cards = some j) {s' : Fits} {h' : Hdu}
    (happend : asciiAppend formatOneCell idx columns rows s = .ok () s')
    (hidx' : s'.hdus[idx]? = some h') (happended : Appended idx columns s h fields s' h') :
    RowsFit columns s h rows := by
  have hlen : fields.length = rows.length := hrows.length_eq.symm
  have hfit := fieldsFit_of_rowsFormat hwidth hrows
  have hin := inside_of_append hwidth hfile hrows hne hj happend happended
  have hvalid := hfile.columnsValid hin
  have hg := grownFrom_appendBase hfile j rows.length
  rw [asciiAppend_grown hwidth hfile hrows hne hin hj] at happend
  obtain rfl : _ = s' := (EStateM.Result.ok.inj happend).2
  rw [appendHdus_self hfile] at hidx'
  obtain rfl := Option.some.inj hidx'
  obtain ⟨card, hcard, -⟩ := naxis2Index_keyword hj
  have hpos : 0 < rows.length := List.length_pos_of_ne_nil hne
  -- the number of rows read back decides whether the count card was found
  have hcount : asciiNrows (h.cards.set j (naxis2Card (asciiNrows h.cards + rows.length))) =
      asciiNrows h.cards + rows.length := by
    have hnrows := happended.nrows_eq
    rw [hlen] at hnrows
    exact hnrows
  have hbytes := asciiDataBytes_of_count happended.cards hcount
  have hset : asciiNrows h.cards + rows.length = _ :=
    hcount.symm.trans (asciiNrows_set hj (asciiNrows h.cards + rows.length))
  have hdata : (fields.flatMap (rowBytes columns (asciiRowWidth h.cards))).length =
      rows.length * asciiRowWidth h.cards := by
    rw [flatMap_length_of_width fun fs hfs => rowBytes_length hvalid (hfit fs hfs), hlen]
  have htail := happended.tail
  have hpadding := happended.padding
  rw [asciiDataEnd, hbytes] at htail
  rw [hbytes] at hpadding
  split_ifs at hset with hslot
  · refine ⟨hin, ?_, ⟨j, card, hj, hcard, (sameButRowCount_set_iff hcard _).1 happended.cards,
      hslot⟩, (asI64_toNat_iff _).1 hset.symm, (padding_tail_iff hg hdata hfile.whole
        (appended_pos hne)).1 ⟨hpadding, htail, happended.whole⟩⟩
    rcases happended.header with ⟨hsame, -⟩ | hdisk
    · have hrowcount : asciiNrows (appendedHdu h h.cards j
          (asciiNrows h.cards + rows.length)).cards = asciiNrows h.cards := by rw [hsame]
      have hmore : asciiNrows (appendedHdu h h.cards j
          (asciiNrows h.cards + rows.length)).cards = asciiNrows h.cards + rows.length := hcount
      omega
    · exact blocks_of_diskHeader hfile (List.getElem?_eq_some_iff.1 hcard).1 hdisk
  · omega

/-- One append is a concatenation exactly when the condition holds. -/
theorem appendCorrect_iff
    (hwidth : ∀ col cell field, formatOneCell col cell = .ok field → field.length = col.byteWidth)
    (hfile : AsciiFile s idx h columns) (hrows : RowsFormat formatOneCell columns rows fields) :
    AppendCorrect formatOneCell idx columns s h rows fields ↔ AppendFits columns s h rows := by
  constructor
  · rintro ⟨s', h', happend, hidx', happended⟩
    unfold AppendFits
    split_ifs with hempty
    · subst hempty
      rw [asciiAppend_nil hfile] at happend
      cases happend
      rw [hfile.hdu] at hidx'
      cases hidx'
      exact happended.padding
    · cases hj : naxis2Index h.cards with
      | none =>
        have hraises : ∃ s'', asciiAppend formatOneCell idx columns rows s =
            .error (.value (str "header missing NAXIS2")) s'' :=
          asciiAppend_of_no_slot hfile hempty hj
        obtain ⟨s'', hraise⟩ := hraises
        rw [hraise] at happend
        cases happend
      | some j => exact rowsFit_of_appended hwidth hfile hrows hempty hj happend hidx' happended
  · intro hfits
    obtain ⟨s', h', happend, hfile', happended⟩ := appended_of_fits hwidth hfile hrows hfits
    exact ⟨s', h', happend, hfile'.hdu, happended⟩

/-- States that a sequence of appends reaches, with the fields appended so far;
each append meets the condition in the state before it. -/
inductive AppendRun (formatOneCell : AsciiColumn → Cell → Except PyErr Str) (idx : Nat)
    (columns : List AsciiColumn) (s₀ : Fits) : List (List Str) → Fits → Prop where
  | first {h : Hdu} {rows : List (List Cell)} {fields : List (List Str)} {s : Fits} :
      s₀.hdus[idx]? = some h → RowsFormat formatOneCell columns rows fields →
      AppendFits columns s₀ h rows → asciiAppend formatOneCell idx columns rows s₀ = .ok () s →
      AppendRun formatOneCell idx columns s₀ fields s
  | next {h : Hdu} {rows : List (List Cell)} {done fields : List (List Str)} {s s' : Fits} :
      AppendRun formatOneCell idx columns s₀ done s → s.hdus[idx]? = some h →
      RowsFormat formatOneCell columns rows fields → AppendFits columns s h rows →
      asciiAppend formatOneCell idx columns rows s = .ok () s' →
      AppendRun formatOneCell idx columns s₀ (done ++ fields) s'

theorem Appended.dataBytes_le {s' : Fits} {h' : Hdu}
    (happended : Appended idx columns s h fields s' h') : asciiDataBytes h ≤ asciiDataBytes h' := by
  rw [asciiDataBytes_of_count happended.cards happended.nrows_eq]
  exact Nat.le_add_right _ _

theorem Appended.offsets_eq {s' : Fits} {h' : Hdu}
    (happended : Appended idx columns s h fields s' h') : h'.offsets = h.offsets := by
  rw [happended.place]

theorem Appended.diskHeader_eq {s' : Fits} {h' : Hdu}
    (happended : Appended idx columns s h fields s' h') (t : Fits) :
    diskHeader t h' = diskHeader t h := by
  rw [diskHeader, diskHeader, happended.offsets_eq]

/-- Two appends in turn are one. -/
theorem Appended.trans {s₀ s₁ s₂ : Fits} {h₀ h₁ h₂ : Hdu} {fields more : List (List Str)}
    (h01 : Appended idx columns s₀ h₀ fields s₁ h₁)
    (h12 : Appended idx columns s₁ h₁ more s₂ h₂) :
    Appended idx columns s₀ h₀ (fields ++ more) s₂ h₂ where
  rows := by rw [h12.rows, h01.rows, List.append_assoc]
  tail := h12.tail.trans h01.tail
  padding := h12.padding
  whole := h12.whole
  old := by
    have hle := h01.dataBytes_le
    have hold := congrArg (fun bytes => slice bytes 0 (asciiDataBytes h₀)) h12.old
    rw [slice_slice (by omega), slice_slice (by omega), Nat.add_zero, h01.offsets_eq] at hold
    exact hold.trans h01.old
  front := by
    have hfront := h12.front
    rw [h01.offsets_eq] at hfront
    exact hfront.trans h01.front
  header := by
    have hheader := h12.header
    rw [h01.diskHeader_eq, h01.diskHeader_eq, h01.offsets_eq] at hheader
    rcases hheader with ⟨hcards, hsame⟩ | hdisk
    · rw [hcards, hsame]
      exact h01.header
    · exact Or.inr hdisk
  cards := forall₂_sameButRowCount_trans h01.cards h12.cards
  place := h12.place.trans (by rw [h01.place])
  others := by
    intro i hi
    obtain ⟨d, hd⟩ := Nat.exists_eq_add_of_le
      (asciiDataEnd_mono (congrArg HduOffsets.dataOffset h01.offsets_eq) h01.dataBytes_le)
    obtain ⟨e, he⟩ := Nat.exists_eq_add_of_le
      (asciiDataEnd_mono (congrArg HduOffsets.dataOffset h12.offsets_eq) h12.dataBytes_le)
    have hfirst := h01.others i hi
    have hnext := h12.others i hi
    rw [hd, Nat.add_sub_cancel_left] at hfirst
    rw [he, hd, Nat.add_sub_cancel_left] at hnext
    have hsum : asciiDataEnd h₂ - asciiDataEnd h₀ = d + e := by omega
    rw [hnext, hfirst, hsum, Option.map_map]
    congr 1
    funext g
    exact Hdu.shifted_shifted (asciiDataEnd h₀) d e g

/-- Every state of a run is the concatenation of what was appended. -/
theorem appended_of_run
    (hwidth : ∀ col cell field, formatOneCell col cell = .ok field → field.length = col.byteWidth)
    (hfile : AsciiFile s idx h columns) {done : List (List Str)} {s' : Fits}
    (hrun : AppendRun formatOneCell idx columns s done s') :
    ∃ h', AsciiFile s' idx h' columns ∧ Appended idx columns s h done s' h' := by
  induction hrun with
  | first hidx hrows hfits happend =>
    obtain rfl : h = _ := Option.some.inj (hfile.hdu.symm.trans hidx)
    obtain ⟨s₁, h₁, happend₁, hfile₁, happended⟩ := appended_of_fits hwidth hfile hrows hfits
    cases happend₁.symm.trans happend
    exact ⟨h₁, hfile₁, happended⟩
  | next _ hidx hrows hfits happend ih =>
    obtain ⟨h₁, hfile₁, happended⟩ := ih
    obtain rfl : h₁ = _ := Option.some.inj (hfile₁.hdu.symm.trans hidx)
    obtain ⟨s₂, h₂, happend₂, hfile₂, happended₂⟩ := appended_of_fits hwidth hfile₁ hrows hfits
    cases happend₂.symm.trans happend
    exact ⟨h₂, hfile₂, happended.trans happended₂⟩

end

/-! ## A table of one text column -/

theorem formatAField_length {rowIndex : Nat} {col : AsciiColumn} {src field : Str}
    (h : formatAField rowIndex col src = .ok field) : field.length = col.byteWidth := by
  unfold formatAField at h
  split at h
  · cases h
  · rw [← Except.ok.inj h, padRight_length, List.length_take]
    omega

/-- A text column of width four. -/
def textColumn : AsciiColumn := ⟨str "COL1", 0x41, 0, 4, none⟩

def textPrimary : List Card :=
  [str "SIMPLE  =                    T", str "BITPIX  =                    8",
    str "NAXIS   =                    0", endCard]

/-- The header of a table with that column and `nrows` rows. -/
def textHeader (nrows : Str) : List Card :=
  [str "XTENSION= 'TABLE   '", str "BITPIX  =                    8",
    str "NAXIS   =                    2", str "NAXIS1  =                    4",
    str "NAXIS2  =                    " ++ nrows, str "PCOUNT  =                    0",
    str "GCOUNT  =                    1", str "TFIELDS =                    1",
    str "TBCOL1  =                    1", str "TFORM1  = 'A4      '", endCard]

def textHdu (nrows : Str) : Hdu := ⟨textHeader nrows, ⟨2880, 1, 5760⟩, .asciiTable⟩

/-- A file of a primary header and that table, with the data section `data`. -/
def textFile (nrows : Str) (data : Bytes) : Fits where
  bytes := serializeHeaderToDiskBytes textPrimary ++
    serializeHeaderToDiskBytes (textHeader nrows) ++ data
  hdus := [⟨textPrimary, ⟨0, 1, 2880⟩, .image⟩, textHdu nrows]

theorem textFile_length (nrows : Str) (data : Bytes) :
    (textFile nrows data).bytes.length = 5760 + data.length := by
  simp [textFile, serialize_length, headerBlocks_eq, textPrimary, textHeader]
  omega

theorem textFile_recorded (nrows : Str) (data : Bytes) :
    ∀ g ∈ (textFile nrows data).hdus, g.offsets.headerOffset <
      (textFile nrows data).bytes.length := by
  rw [textFile_length]
  intro g hg
  rcases List.mem_cons.1 hg with rfl | hg
  · show 0 < _
    omega
  · rw [List.mem_singleton.1 hg]
    show 2880 < _
    omega

end RustFits
