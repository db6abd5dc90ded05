import RustFits.AsciiTable.AppendRows

/-!
# The file an ASCII append leaves

`AsciiFile` is a file that an append works on and `Appended` says what the append should
leave.  `appendAsciiTable_eq` gives what it does leave: the old file grown by zero bytes,
with the new header and the new rows written into it (`grownBytes`).  The lemmas behind it
read that file at the places that `Appended` speaks of.
-/

namespace RustFits

open Ascii ByteFile Machine

/-! ## The file an append leaves -/

/-- The bytes of the rows. -/
def asciiDataBytes (h : Hdu) : Nat := asciiNrows h.cards * asciiRowWidth h.cards

/-- The end of the padded data section. -/
def asciiDataEnd (h : Hdu) : Nat := h.offsets.dataOffset + roundUpToBlock (asciiDataBytes h)

/-- The end of the padded data section of a table that grows. -/
theorem asciiDataEnd_mono {h h' : Hdu} (hoff : h'.offsets.dataOffset = h.offsets.dataOffset)
    (hle : asciiDataBytes h ≤ asciiDataBytes h') : asciiDataEnd h ≤ asciiDataEnd h' := by
  rw [asciiDataEnd, asciiDataEnd, hoff]
  exact Nat.add_le_add_left (roundUpToBlock_mono hle) _

/-- The header blocks on disk. -/
def diskHeader (s : Fits) (h : Hdu) : Bytes :=
  slice s.bytes h.offsets.headerOffset (h.offsets.headerBlockCount * blockSize)

/-- A complete file whose HDU `idx` is an ASCII table with these columns.  Its HDUs begin
in the file. -/
structure AsciiFile (s : Fits) (idx : Nat) (h : Hdu) (columns : List AsciiColumn) : Prop where
  hdu : s.hdus[idx]? = some h
  dataOffset_eq :
    h.offsets.dataOffset = h.offsets.headerOffset + h.offsets.headerBlockCount * 2880
  headerFits : headerBlocks h.cards.length ≤ h.offsets.headerBlockCount
  headerPos : 0 < h.offsets.headerBlockCount
  aligned : h.offsets.headerOffset % 2880 = 0
  whole : s.bytes.length % 2880 = 0
  complete : asciiDataEnd h ≤ s.bytes.length
  recorded : ∀ g ∈ s.hdus, g.offsets.headerOffset < s.bytes.length
  parsed : AsciiTable.parseAsciiColumns h.cards = .ok columns

/-- What an append should do: the table reads back as the old rows and then `fields`,
everything behind the data section is the former tail, the padding is blank and the file
is whole blocks.  Nothing else is touched: the bytes of the old rows and those in front of
the HDU stay, the other HDUs stay where they are or move with the tail, only the row
count changes among the cards, and the header on disk has the new cards. -/
structure Appended (idx : Nat) (columns : List AsciiColumn) (s : Fits) (h : Hdu)
    (fields : List (List Str)) (s' : Fits) (h' : Hdu) : Prop where
  rows : readAsciiTable s' h' columns = readAsciiTable s h columns ++ fields
  tail : s'.bytes.drop (asciiDataEnd h') = s.bytes.drop (asciiDataEnd h)
  padding : slice s'.bytes (h'.offsets.dataOffset + asciiDataBytes h')
      (roundUpToBlock (asciiDataBytes h') - asciiDataBytes h') =
    List.replicate (roundUpToBlock (asciiDataBytes h') - asciiDataBytes h') blank
  whole : s'.bytes.length % 2880 = 0
  old : slice s'.bytes h.offsets.dataOffset (asciiDataBytes h) =
    slice s.bytes h.offsets.dataOffset (asciiDataBytes h)
  front : s'.bytes.take h.offsets.headerOffset = s.bytes.take h.offsets.headerOffset
  header : h'.cards = h.cards ∧ diskHeader s' h = diskHeader s h ∨
    diskHeader s' h = headerBytes h.offsets.headerBlockCount h'.cards
  cards : List.Forall₂ SameButRowCount h.cards h'.cards
  place : h' = { h with cards := h'.cards }
  others : ∀ i, i ≠ idx →
    s'.hdus[i]? = s.hdus[i]?.map (Hdu.shifted (asciiDataEnd h) (asciiDataEnd h' - asciiDataEnd h))

section

variable {Cell : Type} {formatOneCell : AsciiColumn → Cell → Except PyErr Str}
  {columns : List AsciiColumn} {s : Fits} {idx : Nat} {h : Hdu}
  {rows : List (List Cell)} {fields : List (List Str)}

theorem asciiAppend_nil (hfile : AsciiFile s idx h columns) :
    asciiAppend formatOneCell idx columns [] s = .ok () s := by
  unfold asciiAppend
  rw [FileOp.get_bind, hfile.hdu]
  rfl

/-- The header an append leaves. -/
def appendedHdu (h : Hdu) (cards : List Card) (j n : Nat) : Hdu :=
  { h with cards := cards.set j (naxis2Card n) }

/-- The file under the new rows: grown by zero bytes, with the new header in front of the
data section. -/
def grownBytes (bytes : Bytes) (dataOffset c n : Nat) (header : Bytes) : Bytes :=
  writeAll (insertZeros bytes (dataOffset + roundUpToBlock c)
    (roundUpToBlock n - roundUpToBlock c)) (dataOffset - header.length) header

/-- An append up to its rows, once the row count card is found. -/
theorem appendAsciiTable_eq {cards : List Card} {nrows w dataOffset j : Nat}
    (hend : dataOffset + roundUpToBlock (nrows * w) ≤ s.bytes.length)
    (hrecorded : ∀ g ∈ s.hdus, g.offsets.headerOffset < s.bytes.length)
    (hj : naxis2Index cards = some j) :
    appendAsciiTable formatOneCell idx cards columns rows nrows (nrows + rows.length) w
        dataOffset s =
      writeAsciiTableData formatOneCell columns rows w (dataOffset + nrows * w) true
        ⟨grownBytes s.bytes dataOffset (nrows * w) ((nrows + rows.length) * w)
            (serializeHeaderToDiskBytes (cards.set j (naxis2Card (nrows + rows.length)))),
          (s.hdus.map (Hdu.shifted (dataOffset + roundUpToBlock (nrows * w))
            (roundUpToBlock ((nrows + rows.length) * w) - roundUpToBlock (nrows * w)))).modify idx
              fun h => { h with cards := cards.set j (naxis2Card (nrows + rows.length)) }⟩ := by
  have hgrow := growAsciiData_eq (n := (nrows + rows.length) * w)
    (Nat.mul_le_mul_right w (Nat.le_add_right nrows rows.length)) hend hrecorded
  unfold appendAsciiTable
  dsimp only
  rw [FileOp.bind_ok hgrow, hj]
  dsimp only
  rw [FileOp.bind_ok (writeAt_eq _ _ _), FileOp.bind_ok (x := commitCards idx _) (a := ()) rfl]
  rfl

end

/-! ## The written padding -/

section

variable {bytes base data : Bytes} {dataOffset c a : Nat}

/-- The padding written behind `a` appended bytes is the one that `c + a` bytes
need when `c` bytes are whole blocks. -/
theorem writtenPad_of_whole (hc : c % 2880 = 0) :
    c + a + writtenPad a = roundUpToBlock (c + a) := by
  rw [roundUpToBlock_eq]
  unfold writtenPad blockSize
  omega

/-- Otherwise it is too long by the odd bytes of the last block, -/
theorem writtenPad_of_over (h : roundUpToBlock (c % 2880 + a) = roundUpToBlock a) :
    c + a + writtenPad a = roundUpToBlock (c + a) + c % 2880 := by
  simp only [roundUpToBlock_eq] at h ⊢
  unfold writtenPad blockSize
  omega

/-- or too short by what they leave of it. -/
theorem writtenPad_of_under (ha : 0 < a)
    (h : roundUpToBlock (c % 2880 + a) ≠ roundUpToBlock a) :
    c + a + writtenPad a < roundUpToBlock (c + a) ∧ roundUpToBlock c < roundUpToBlock (c + a) := by
  simp only [roundUpToBlock_eq] at h ⊢
  unfold writtenPad blockSize
  omega

/-- The file of `grownBytes` behind the data offset: grown by zero bytes at the end of the
data section. -/
structure GrownFrom (bytes base : Bytes) (dataOffset c n : Nat) : Prop where
  complete : dataOffset + roundUpToBlock c ≤ bytes.length
  length_eq : base.length = bytes.length + (roundUpToBlock n - roundUpToBlock c)
  getElem?_eq : ∀ i, dataOffset ≤ i →
    base[i]? = (insertZeros bytes (dataOffset + roundUpToBlock c)
      (roundUpToBlock n - roundUpToBlock c))[i]?

theorem grownFrom_grownBytes {header : Bytes} {n : Nat}
    (hend : dataOffset + roundUpToBlock c ≤ bytes.length) (hheader : header.length ≤ dataOffset) :
    GrownFrom bytes (grownBytes bytes dataOffset c n header) dataOffset c n := by
  have hgrown := insertZeros_length (n := roundUpToBlock n - roundUpToBlock c) hend
  refine ⟨hend, ?_, fun i hi => ?_⟩
  · rw [grownBytes, writeAll_length_of_le (by omega), hgrown]
  · rw [grownBytes, writeAll_getElem? (by omega), if_neg (by omega)]

/-- In front of the new header the file is as before, -/
theorem grownBytes_front {header : Bytes} {n i : Nat}
    (hend : dataOffset + roundUpToBlock c ≤ bytes.length) (hi : i < dataOffset - header.length) :
    (grownBytes bytes dataOffset c n header)[i]? = bytes[i]? := by
  have hgrown := insertZeros_length (n := roundUpToBlock n - roundUpToBlock c) hend
  rw [grownBytes, writeAll_getElem? (by omega), if_neg (by omega), insertZeros_getElem? hend,
    if_pos (by omega)]

/-- and the new header is right in front of the data section. -/
theorem grownBytes_header {header : Bytes} {n : Nat}
    (hend : dataOffset + roundUpToBlock c ≤ bytes.length) :
    slice (grownBytes bytes dataOffset c n header) (dataOffset - header.length) header.length =
      header := by
  have hgrown := insertZeros_length (n := roundUpToBlock n - roundUpToBlock c) hend
  exact slice_writeAll_self (by omega)

/-- The rows and the padding in the grown file, byte by byte. -/
theorem appended_getElem? (hg : GrownFrom bytes base dataOffset c (c + a)) (hdata : data.length = a)
    {pad i : Nat} (hi : dataOffset ≤ i) :
    (writeAll base (dataOffset + c) (data ++ List.replicate pad blank))[i]? =
      if i < dataOffset + c then bytes[i]?
      else if i < dataOffset + c + a then data[i - (dataOffset + c)]?
      else if i < dataOffset + c + a + pad then some blank
      else if i < dataOffset + roundUpToBlock (c + a) then
        (if i < dataOffset + roundUpToBlock c then bytes[i]? else some 0)
      else bytes[i - (roundUpToBlock (c + a) - roundUpToBlock c)]? := by
  have hc := le_roundUpToBlock c
  have hmono := roundUpToBlock_mono (Nat.le_add_right c a)
  have hend := hg.complete
  have hlen := hg.length_eq
  rw [writeAll_getElem? (by omega), hg.getElem?_eq i hi, insertZeros_getElem? hend,
    List.length_append, List.length_replicate, hdata]
  by_cases h1 : i < dataOffset + c
  · rw [if_neg (by omega), if_pos h1, if_pos (by omega)]
  rw [if_neg h1]
  by_cases h2 : i < dataOffset + c + a
  · rw [if_pos (by omega), if_pos h2, List.getElem?_append_left (by omega)]
  rw [if_neg h2]
  by_cases h3 : i < dataOffset + c + a + pad
  · rw [if_pos (by omega), if_pos h3, List.getElem?_append_right (by omega),
      List.getElem?_replicate, if_pos (by omega)]
  rw [if_neg h3, if_neg (by omega)]
  split_ifs <;> first | rfl | omega

/-- The bytes in front of the new rows. -/
theorem slice_appended_old (hg : GrownFrom bytes base dataOffset c (c + a))
    (hdata : data.length = a) {pad x m : Nat} (hx : dataOffset ≤ x) (hm : x + m ≤ dataOffset + c) :
    slice (writeAll base (dataOffset + c) (data ++ List.replicate pad blank)) x m =
      slice bytes x m := by
  apply List.ext_getElem?
  intro i
  rw [slice_getElem?, slice_getElem?]
  split_ifs with hi
  · rw [appended_getElem? hg hdata (by omega), if_pos (by omega)]
  · rfl

/-- The new rows. -/
theorem slice_appended_new (hg : GrownFrom bytes base dataOffset c (c + a))
    (hdata : data.length = a) {pad x m : Nat} (hm : x + m ≤ a) :
    slice (writeAll base (dataOffset + c) (data ++ List.replicate pad blank))
      (dataOffset + c + x) m = slice data x m := by
  apply List.ext_getElem?
  intro i
  rw [slice_getElem?, slice_getElem?]
  split_ifs with hi
  · rw [appended_getElem? hg hdata (by omega), if_neg (by omega), if_pos (by omega)]
    congr 1
    omega
  · rfl

/-- Padding that reaches the end of the data section is blank throughout. -/
theorem padding_appended (hg : GrownFrom bytes base dataOffset c (c + a)) (hdata : data.length = a)
    {pad : Nat} (hpad : roundUpToBlock (c + a) ≤ c + a + pad) :
    slice (writeAll base (dataOffset + c) (data ++ List.replicate pad blank))
        (dataOffset + (c + a)) (roundUpToBlock (c + a) - (c + a)) =
      List.replicate (roundUpToBlock (c + a) - (c + a)) blank := by
  apply List.ext_getElem?
  intro i
  rw [slice_getElem?, List.getElem?_replicate]
  split_ifs with hi
  · rw [appended_getElem? hg hdata (by omega), if_neg (by omega), if_neg (by omega),
      if_pos (by omega)]
  · rfl

/-- Padding that stops short leaves a zero byte at the end of the data section. -/
theorem not_padding_appended (hg : GrownFrom bytes base dataOffset c (c + a))
    (hdata : data.length = a) {pad : Nat} (hpad : c + a + pad < roundUpToBlock (c + a))
    (hgrow : roundUpToBlock c < roundUpToBlock (c + a)) :
    slice (writeAll base (dataOffset + c) (data ++ List.replicate pad blank))
        (dataOffset + (c + a)) (roundUpToBlock (c + a) - (c + a)) ≠
      List.replicate (roundUpToBlock (c + a) - (c + a)) blank := by
  intro heq
  have hlast := congrArg (fun l => l[roundUpToBlock (c + a) - (c + a) - 1]?) heq
  rw [slice_getElem?, if_pos (by omega), appended_getElem? hg hdata (by omega), if_neg (by omega),
    if_neg (by omega), if_neg (by omega), if_pos (by omega), if_neg (by omega),
    List.getElem?_replicate, if_pos (by omega)] at hlast
  exact absurd (Option.some.inj hlast) (by decide)

/-- Padding that ends with the data section leaves the tail and the length. -/
theorem tail_appended (hg : GrownFrom bytes base dataOffset c (c + a)) (hdata : data.length = a)
    {pad : Nat} (hpad : c + a + pad = roundUpToBlock (c + a)) :
    (writeAll base (dataOffset + c) (data ++ List.replicate pad blank)).drop
        (dataOffset + roundUpToBlock (c + a)) = bytes.drop (dataOffset + roundUpToBlock c) ∧
      (writeAll base (dataOffset + c) (data ++ List.replicate pad blank)).length =
        bytes.length + (roundUpToBlock (c + a) - roundUpToBlock c) := by
  have hmono := roundUpToBlock_mono (Nat.le_add_right c a)
  have hend := hg.complete
  have hlen := hg.length_eq
  have hc := le_roundUpToBlock c
  constructor
  · apply List.ext_getElem?
    intro i
    rw [List.getElem?_drop, List.getElem?_drop, appended_getElem? hg hdata (by omega),
      if_neg (by omega), if_neg (by omega), if_neg (by omega), if_neg (by omega)]
    congr 1
    omega
  · rw [writeAll_length_of_le]
    · exact hlen
    · simp only [List.length_append, List.length_replicate, hdata]
      omega

/-- Padding that runs `r` bytes over puts blanks on the tail: it is harmless
exactly when they were there before. -/
theorem tail_appended_over (hg : GrownFrom bytes base dataOffset c (c + a))
    (hdata : data.length = a) {pad r : Nat}
    (hwhole : (bytes.length + (roundUpToBlock (c + a) - roundUpToBlock c)) % 2880 = 0)
    (hpad : c + a + pad = roundUpToBlock (c + a) + r) :
    (writeAll base (dataOffset + c) (data ++ List.replicate pad blank)).drop
          (dataOffset + roundUpToBlock (c + a)) = bytes.drop (dataOffset + roundUpToBlock c) ∧
        (writeAll base (dataOffset + c) (data ++ List.replicate pad blank)).length % 2880 = 0 ↔
      slice bytes (dataOffset + roundUpToBlock c) r = List.replicate r blank := by
  have hmono := roundUpToBlock_mono (Nat.le_add_right c a)
  have hend := hg.complete
  have hlen := hg.length_eq
  have hc := le_roundUpToBlock c
  have hn := le_roundUpToBlock (c + a)
  constructor
  · rintro ⟨htail, -⟩
    apply List.ext_getElem?
    intro i
    rw [slice_getElem?, List.getElem?_replicate]
    split_ifs with hi
    · have hget := congrArg (fun l => l[i]?) htail
      rw [List.getElem?_drop, List.getElem?_drop, appended_getElem? hg hdata (by omega),
        if_neg (by omega), if_neg (by omega), if_pos (by omega)] at hget
      exact hget.symm
    · rfl
  · intro hblank
    have hroom := congrArg List.length hblank
    rw [slice_length, List.length_replicate] at hroom
    constructor
    · apply List.ext_getElem?
      intro i
      rw [List.getElem?_drop, List.getElem?_drop, appended_getElem? hg hdata (by omega),
        if_neg (by omega), if_neg (by omega)]
      by_cases hi : i < r
      · have hget := congrArg (fun l => l[i]?) hblank
        rw [slice_getElem?, if_pos hi, List.getElem?_replicate, if_pos hi] at hget
        rw [if_pos (by omega), hget]
      · rw [if_neg (by omega), if_neg (by omega)]
        congr 1
        omega
    · rw [writeAll_length_of_le]
      · rw [hlen]
        exact hwhole
      · simp only [List.length_append, List.length_replicate, hdata]
        omega

end

/-! ## Rows of the appended table -/

section

variable {columns : List AsciiColumn} {bytes base : Bytes} {dataOffset nrows w : Nat}
  {fields : List (List Str)}

/-- The rows in front of the new ones. -/
theorem readAsciiRow_old {data : Bytes} {a pad r : Nat} (hvalid : AsciiColumnsValid columns w)
    (hg : GrownFrom bytes base dataOffset (nrows * w) (nrows * w + a)) (hdata : data.length = a)
    (hr : r < nrows) :
    readAsciiRow (writeAll base (dataOffset + nrows * w) (data ++ List.replicate pad blank))
        dataOffset w columns r = readAsciiRow bytes dataOffset w columns r := by
  have hrow : r * w + w ≤ nrows * w := by
    rw [← Nat.succ_mul]
    exact Nat.mul_le_mul_right w hr
  apply List.map_congr_left
  intro col hcol
  have := hvalid.inside col hcol
  exact slice_appended_old hg hdata (by omega) (by omega)

/-- The new rows have the fields they were formatted from. -/
theorem readAsciiRow_new {pad i : Nat} {fs : List Str} (hvalid : AsciiColumnsValid columns w)
    (hfit : ∀ fs ∈ fields, FieldsFit columns fs)
    (hg : GrownFrom bytes base dataOffset (nrows * w) (nrows * w + fields.length * w))
    (hi : fields[i]? = some fs) :
    readAsciiRow (writeAll base (dataOffset + nrows * w)
        (fields.flatMap (rowBytes columns w) ++ List.replicate pad blank))
        dataOffset w columns (nrows + i) = fs := by
  have hwidth : ∀ fs ∈ fields, (rowBytes columns w fs).length = w :=
    fun fs hfs => rowBytes_length hvalid (hfit fs hfs)
  have hlt : i < fields.length := (List.getElem?_eq_some_iff.1 hi).1
  have hrow : i * w + w ≤ fields.length * w := by
    rw [← Nat.succ_mul]
    exact Nat.mul_le_mul_right w hlt
  rw [← readback_rowBytes hvalid (hfit fs (List.mem_of_getElem? hi))]
  apply List.map_congr_left
  intro col hcol
  have hin := hvalid.inside col hcol
  have hpos : dataOffset + (nrows + i) * w + col.byteOffset =
      dataOffset + nrows * w + (i * w + col.byteOffset) := by
    rw [Nat.add_mul]
    omega
  rw [hpos, slice_appended_new hg (flatMap_length_of_width hwidth) (by omega),
    ← slice_flatMap hwidth hi, slice_slice hin]

end

end RustFits
