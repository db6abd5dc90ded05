import RustFits.BinaryTable.Schema

/-!
# Rows, written and read

Both write paths compute the same rows, whatever the size of a strip.

* `Prepared` is what `dispatchWriteInput` finds in the input.
* `columns_strip` and `bulk_strip` are the two paths: both give `diskRows`.
* `writeTableData_run` is the loop over the strips: it is one write of all the rows.
-/

namespace RustFits.BinaryTable

open Ascii ByteFile Machine BigEndian

/-! ## The rows -/

/-- The bytes of a cell in the input. -/
def WritePart.memory (part : WritePart) (row : Nat) : Bytes :=
  slice part.source.srcBytes (row * part.source.srcRowStride + part.source.srcOffset)
    part.source.srcTotalSize

/-- The cells of the input lie in its buffer. -/
def WritePart.Inside (part : WritePart) (nrows : Nat) : Prop :=
  ∀ r < nrows, r * part.source.srcRowStride + part.source.srcOffset + part.source.srcTotalSize ≤
    part.source.srcBytes.length

/-- A row on disk. -/
def diskRow (parts : List WritePart) (row : Nat) : Bytes :=
  parts.flatMap fun part => encoded part.transform (part.memory row)

/-- The rows from `start` on. -/
def diskRows (parts : List WritePart) (start n : Nat) : Bytes :=
  (List.range n).flatMap fun r => diskRow parts (start + r)

/-- The columns that a strip is made of. -/
structure Placeable (parts : List WritePart) (rowWidth nrows : Nat) : Prop where
  placed : Placed 0 (parts.map fun part => part.field.toColumn) rowWidth
  sized : ∀ part ∈ parts, part.transform.Sized part.source.srcTotalSize part.field.byteWidth
  inside : ∀ part ∈ parts, part.Inside nrows
  accepts : ∀ part ∈ parts, ∀ r < nrows, part.transform.Accepts (part.memory r)

section

variable {parts : List WritePart} {part : WritePart} {columns : List Column}
  {start stop rowWidth nrows rowStart chunk r n : Nat} {strip row : Bytes} {t : WriteTransform}

/-- A row is its cells one behind the other. -/
theorem placed_concat (h : Placed start columns stop) :
    slice row start (stop - start) = columns.flatMap fun c =>
      slice row c.byteOffset c.byteWidth := by
  induction columns generalizing start with
  | nil =>
    obtain rfl : start = stop := h
    simp [slice]
  | cons column columns ih =>
    obtain ⟨hoff, -, hrest⟩ := h
    have hle := (placed_mem hrest).1
    have hsplit : stop - start = column.byteWidth + (stop - (start + column.byteWidth)) := by omega
    rw [hsplit, slice_add, ih hrest, List.flatMap_cons, hoff]

theorem memory_length (h : part.Inside nrows) (hr : r < nrows) :
    (part.memory r).length = part.source.srcTotalSize := by
  have := h r hr
  rw [WritePart.memory, slice_length]
  omega

theorem cell_ok (h : part.Inside nrows) (hr : r < nrows) :
    part.source.cell r = .ok (part.memory r) :=
  sliceOf_ok (h r hr)

/-- A cell on disk. -/
theorem Placeable.cell_length (h : Placeable parts rowWidth nrows) (hpart : part ∈ parts)
    (hr : r < nrows) : (encoded part.transform (part.memory r)).length = part.field.byteWidth := by
  have hsized := h.sized part hpart
  rw [← memory_length (h.inside part hpart) hr] at hsized
  exact encoded_length hsized (h.accepts part hpart r hr)

theorem diskRow_length (h : Placeable parts rowWidth nrows) (hr : r < nrows) :
    (diskRow parts r).length = rowWidth := by
  have htotal := placed_total h.placed
  rw [Nat.zero_add, totalWidth, List.map_map] at htotal
  rw [diskRow, List.length_flatMap, htotal]
  congr 1
  exact List.map_congr_left fun part hpart => h.cell_length hpart hr

theorem diskRows_length (h : Placeable parts rowWidth nrows) (hfit : rowStart + chunk ≤ nrows) :
    (diskRows parts rowStart chunk).length = chunk * rowWidth :=
  elements_length fun _ hk => diskRow_length h (by omega)

/-- The rows of one strip after those of another. -/
theorem diskRows_append (a b : Nat) :
    diskRows parts rowStart a ++ diskRows parts (rowStart + a) b =
      diskRows parts rowStart (a + b) := by
  have hsplit : List.range (a + b) = List.range a ++ (List.range b).map (a + ·) := List.range_add
  rw [diskRows, diskRows, diskRows, hsplit, List.flatMap_append, List.flatMap_map]
  congr 1
  apply List.flatMap_congr
  intro r _
  rw [Nat.add_assoc]

/-- A strip is known by its cells. -/
theorem strip_eq (h : Placeable parts rowWidth nrows) (hlen : strip.length = chunk * rowWidth)
    (hcells : ∀ part ∈ parts, ∀ r < chunk,
      slice strip (slotOffset rowWidth r part.field.toColumn) part.field.byteWidth =
        encoded part.transform (part.memory (rowStart + r))) :
    strip = diskRows parts rowStart chunk := by
  rw [← mapElements_id hlen, mapElements, diskRows]
  apply List.flatMap_congr
  intro r hr
  have hr := List.mem_range.1 hr
  have hrow : (r + 1) * rowWidth ≤ chunk * rowWidth := Nat.mul_le_mul_right _ hr
  rw [Nat.succ_mul] at hrow
  have hconcat : slice (slice strip (r * rowWidth) rowWidth) 0 (rowWidth - 0) = _ :=
    placed_concat h.placed
  rw [Nat.sub_zero, slice_slice (by omega), Nat.add_zero, List.flatMap_map] at hconcat
  rw [id, hconcat, diskRow]
  apply List.flatMap_congr
  intro part hpart
  have hin := ((placed_mem h.placed).2 _ (List.mem_map_of_mem hpart)).2.1
  rw [slice_slice hin]
  exact hcells part hpart r hr

/-! ## The two paths -/

/-- The cells of a strip, column by column. -/
def stripCells (parts : List WritePart) (chunk : Nat) : List (WritePart × Nat) :=
  parts.flatMap fun part => (List.range chunk).map fun r => (part, r)

/-- The place of a cell in a strip. -/
def cellPlace (rowWidth : Nat) (job : WritePart × Nat) : Nat :=
  slotOffset rowWidth job.2 job.1.field.toColumn

theorem mem_stripCells {job : WritePart × Nat} :
    job ∈ stripCells parts chunk ↔ job.1 ∈ parts ∧ job.2 < chunk := by
  obtain ⟨part, r⟩ := job
  simp [stripCells]

theorem cellPlace_le (h : Placed 0 (parts.map fun part => part.field.toColumn) rowWidth)
    {job : WritePart × Nat} (hjob : job ∈ stripCells parts chunk) :
    cellPlace rowWidth job + job.1.field.byteWidth ≤ chunk * rowWidth := by
  obtain ⟨hpart, hr⟩ := mem_stripCells.1 hjob
  exact slot_le h hr (List.mem_map_of_mem hpart)

/-- The cells lie apart. -/
theorem stripCells_apart (h : Placed 0 (parts.map fun part => part.field.toColumn) rowWidth) :
    (stripCells parts chunk).Pairwise fun a b => Apart (cellPlace rowWidth a) a.1.field.byteWidth
      (cellPlace rowWidth b) b.1.field.byteWidth := by
  have hrows (a b : WritePart) (ha : a ∈ parts) (hb : b ∈ parts) (r r' : Nat) (hlt : r < r') :
      cellPlace rowWidth (a, r) + a.field.byteWidth ≤ cellPlace rowWidth (b, r') := by
    have hin := ((placed_mem h).2 _ (List.mem_map_of_mem ha)).2.1
    have hrow : (r + 1) * rowWidth ≤ r' * rowWidth := Nat.mul_le_mul_right _ hlt
    rw [Nat.succ_mul] at hrow
    unfold cellPlace slotOffset
    dsimp only
    omega
  unfold stripCells
  rw [List.pairwise_flatMap]
  constructor
  · intro part hpart
    rw [List.pairwise_map]
    exact List.pairwise_lt_range.imp fun hlt => .inl (hrows part part hpart hpart _ _ hlt)
  · have hcolumns := List.pairwise_map.1 (placed_pairwise h)
    refine hcolumns.imp_of_mem fun {a b} ha hb hab x hx y hy => ?_
    obtain ⟨r, -, rfl⟩ := List.mem_map.1 hx
    obtain ⟨r', -, rfl⟩ := List.mem_map.1 hy
    rcases Nat.lt_trichotomy r r' with hlt | rfl | hgt
    · exact .inl (hrows a b ha hb r r' hlt)
    · left
      unfold cellPlace slotOffset
      dsimp only
      omega
    · exact .inr (hrows b a hb ha r' r hgt)

/-- Cells that are each put into their place make up the strip. -/
theorem strip_of_cells {step : Bytes → WritePart × Nat → Except PyErr Bytes} {dst : Bytes}
    (h : Placeable parts rowWidth nrows) (hfit : rowStart + chunk ≤ nrows)
    (hdst : dst.length = chunk * rowWidth)
    (hstep : ∀ job ∈ stripCells parts chunk, ∀ buf : Bytes, buf.length = dst.length →
      slice buf (cellPlace rowWidth job) job.1.field.byteWidth =
        slice dst (cellPlace rowWidth job) job.1.field.byteWidth →
      step buf job = .ok (writeAll buf (cellPlace rowWidth job)
        (encoded job.1.transform (job.1.memory (rowStart + job.2))))) :
    (stripCells parts chunk).foldlM step dst = .ok (diskRows parts rowStart chunk) ∧
      ∀ job ∈ stripCells parts chunk,
        slice (diskRows parts rowStart chunk) (cellPlace rowWidth job) job.1.field.byteWidth =
          encoded job.1.transform (job.1.memory (rowStart + job.2)) := by
  obtain ⟨out, hout, hlen, hslots, -⟩ := foldlM_slots (cellPlace rowWidth)
    (fun job => job.1.field.byteWidth)
    (fun job => encoded job.1.transform (job.1.memory (rowStart + job.2)))
    (fun job hjob => h.cell_length (mem_stripCells.1 hjob).1
      (by have := (mem_stripCells.1 hjob).2; omega))
    (fun job hjob => by rw [hdst]; exact cellPlace_le h.placed hjob)
    (stripCells_apart h.placed) hstep
  obtain rfl := strip_eq h (hlen.trans hdst) fun part hpart r hr =>
    hslots (part, r) (mem_stripCells.2 ⟨hpart, hr⟩)
  exact ⟨hout, hslots⟩

/-- A cell in its place. -/
theorem diskRows_slot (h : Placeable parts rowWidth nrows) (hfit : rowStart + chunk ≤ nrows)
    (hpart : part ∈ parts) (hr : r < chunk) :
    slice (diskRows parts rowStart chunk) (slotOffset rowWidth r part.field.toColumn)
      part.field.byteWidth = encoded part.transform (part.memory (rowStart + r)) := by
  have hslots := (strip_of_cells h hfit (List.length_replicate (a := (0 : UInt8)))
    fun _ _ _ _ _ => rfl).2
  exact hslots (part, r) (mem_stripCells.2 ⟨hpart, hr⟩)

/-- The path through the columns one by one. -/
theorem columns_strip {prep : PreparedInput} (h : Placeable prep.parts rowWidth nrows)
    (hfit : rowStart + chunk ≤ nrows) (hslow : prep.layoutMatches = false) :
    writeStrip prep rowWidth rowStart chunk = .ok (diskRows prep.parts rowStart chunk) := by
  have hloop : writeStrip prep rowWidth rowStart chunk = (stripCells prep.parts chunk).foldlM
      (fun strip job => placeCell job.1 rowStart rowWidth strip job.2)
      (List.replicate (chunk * rowWidth) 0) := by
    rw [writeStrip, hslow, stripCells, foldlM_flatMap]
    simp only [Bool.false_eq_true, if_false, List.foldlM_map]
    rfl
  rw [hloop]
  apply (strip_of_cells h hfit List.length_replicate _).1
  intro job hjob buf hbuf _
  rw [List.length_replicate] at hbuf
  obtain ⟨hpart, hr⟩ := mem_stripCells.1 hjob
  have hrow : rowStart + job.2 < nrows := by omega
  have hplace := cellPlace_le h.placed hjob
  have hinside := h.inside _ hpart
  have hsized := h.sized _ hpart
  have hslot : (slice buf (cellPlace rowWidth job) job.1.field.byteWidth).length =
      job.1.field.byteWidth := by
    rw [slice_length]
    omega
  rw [← memory_length hinside hrow, ← hslot] at hsized
  have hcell : applyTransformCell job.1.transform (job.1.memory (rowStart + job.2))
      (slice buf (cellPlace rowWidth job) job.1.field.byteWidth) job.1.field.name job.2 = _ ∧ _ :=
    applyTransformCell_ok hsized (h.accepts _ hpart _ hrow)
  unfold placeCell
  rw [cell_ok hinside hrow]
  simp only [Bind.bind, Except.bind]
  rw [show slotOffset rowWidth job.2 job.1.field.toColumn = cellPlace rowWidth job from rfl,
    sliceOf_ok (by omega)]
  dsimp only
  rw [hcell.1]
  dsimp only
  rw [splice_ok (by rw [hcell.2, hslot]; omega)]

/-- The transforms of the bulk path. -/
def WriteTransform.InPlace (t : WriteTransform) : Prop :=
  match t with
  | .unicodeToAscii _ => False
  | .bitsPackMsb _ => False
  | _ => True

/-- One cell of `applyInPlaceTransform`. -/
def cellInPlace (t : WriteTransform) (off : Nat) (strip : Bytes) : Except PyErr Bytes :=
  match t with
  | .identity elemW numElems =>
    if elemW = 1 then .ok strip else convertInPlace numElems elemW List.reverse off strip
  | .unsignedXor elemW numElems =>
    convertInPlace numElems elemW (fun e => flipTop e.reverse) off strip
  | .boolToLogical numBytes => convertInPlace numBytes 1 boolByte off strip
  | _ => .ok strip

theorem foldlM_same {α : Type} (l : List α) (buf : Bytes) :
    l.foldlM (fun strip _ => (.ok strip : Except PyErr Bytes)) buf = .ok buf := by
  induction l with
  | nil => rfl
  | cons a l ih => rw [List.foldlM_cons]; exact ih

/-- The loop over the rows, where some transforms have nothing to do. -/
theorem applyInPlaceTransform_eq (h : t.InPlace) (column : Column) :
    applyInPlaceTransform t column chunk rowWidth strip =
      (List.range chunk).foldlM (fun strip r => cellInPlace t (slotOffset rowWidth r column) strip)
        strip := by
  cases t with
  | identity elemW numElems =>
    unfold applyInPlaceTransform cellInPlace
    dsimp only
    split_ifs
    · exact (foldlM_same _ _).symm
    · rfl
  | bytesCopy numBytes => exact (foldlM_same _ _).symm
  | unicodeToAscii numChars => exact h.elim
  | bitsPackMsb numBits => exact h.elim
  | _ => rfl

theorem convertInPlace_ok {f : Bytes → Bytes} {w off : Nat}
    (hf : ∀ e : Bytes, e.length = w → (f e).length = w) (hfit : off + n * w ≤ strip.length) :
    convertInPlace n w f off strip =
      .ok (writeAll strip off (mapElements n w f (slice strip off (n * w)))) := by
  apply foldlM_inPlace hf hfit
  intro k hk buf hbuf
  have hin : (k + 1) * w ≤ n * w := Nat.mul_le_mul_right w hk
  rw [Nat.succ_mul] at hin
  have hlen : (slice buf (off + k * w) w).length = w := by
    rw [slice_length]
    omega
  rw [sliceOf_ok (by omega)]
  exact splice_ok (by rw [hf _ hlen]; omega)

/-- A cell is converted where it is. -/
theorem cellInPlace_ok {width off : Nat} (h : t.InPlace) (hsize : t.Sized width width)
    (hfit : off + width ≤ strip.length) :
    cellInPlace t off strip = .ok (writeAll strip off (encoded t (slice strip off width))) := by
  cases t with
  | identity elemW numElems =>
    obtain ⟨hpos, rfl, -⟩ := hsize
    unfold cellInPlace encoded
    dsimp only
    split_ifs
    · rw [writeAll_slice_self hfit]
    · exact convertInPlace_ok (fun e he => by simpa using he) hfit
  | unsignedXor elemW numElems =>
    obtain ⟨hpos, rfl, -⟩ := hsize
    exact convertInPlace_ok (fun e he => by simpa using he) hfit
  | boolToLogical numBytes =>
    obtain ⟨rfl, -⟩ := hsize
    have hone : numBytes = numBytes * 1 := (Nat.mul_one _).symm
    have hbyte : ∀ e : Bytes, e.length = 1 → (boolByte e).length = 1 := fun e he => by
      simpa using he
    have hloop := convertInPlace_ok hbyte (show off + numBytes * 1 ≤ strip.length by omega)
    rwa [← hone] at hloop
  | bytesCopy numBytes =>
    obtain ⟨rfl, -⟩ := hsize
    have hsame : slice (slice strip off numBytes) 0 numBytes = slice strip off numBytes := by
      rw [slice_slice (by omega), Nat.add_zero]
    unfold cellInPlace encoded
    dsimp only
    rw [hsame, writeAll_slice_self hfit]
  | unicodeToAscii numChars => exact h.elim
  | bitsPackMsb numBits => exact h.elim

/-- The input has the layout of the rows. -/
structure Bulk (prep : PreparedInput) (rowWidth nrows : Nat) (bytes : Bytes) : Prop where
  layout : prep.layoutMatches = true
  enough : nrows * rowWidth ≤ bytes.length
  source : ∀ part ∈ prep.parts,
    part.source = ⟨bytes, part.field.byteOffset, rowWidth, part.field.byteWidth⟩

/-- The bulk path. -/
theorem bulk_strip {prep : PreparedInput} {bytes : Bytes} (h : Placeable prep.parts rowWidth nrows)
    (hbulk : Bulk prep rowWidth nrows bytes) (hfit : rowStart + chunk ≤ nrows)
    (hne : prep.parts ≠ []) (hin : ∀ part ∈ prep.parts, part.transform.InPlace) :
    writeStrip prep rowWidth rowStart chunk = .ok (diskRows prep.parts rowStart chunk) := by
  have hrows : (rowStart + chunk) * rowWidth ≤ nrows * rowWidth := Nat.mul_le_mul_right _ hfit
  have henough := hbulk.enough
  rw [Nat.add_mul] at hrows
  have hcopy : (slice bytes (rowStart * rowWidth) (chunk * rowWidth)).length =
      chunk * rowWidth := by
    rw [slice_length]
    omega
  have hloop : writeStrip prep rowWidth rowStart chunk = (stripCells prep.parts chunk).foldlM
      (fun strip job => cellInPlace job.1.transform (cellPlace rowWidth job) strip)
      (slice bytes (rowStart * rowWidth) (chunk * rowWidth)) := by
    rw [writeStrip, hbulk.layout, if_pos rfl]
    split
    · rename_i hnil
      exact absurd hnil hne
    · rename_i shared rest hparts
      have hshared := hbulk.source shared (by rw [hparts]; exact List.mem_cons_self)
      rw [stripCells, foldlM_flatMap, hshared]
      dsimp only
      rw [sliceOf_ok (by omega)]
      apply foldlM_congr
      intro part hpart buf
      rw [applyInPlaceTransform_eq (hin part hpart), List.foldlM_map]
      rfl
  rw [hloop]
  apply (strip_of_cells h hfit hcopy _).1
  intro job hjob buf hbuf hslot
  obtain ⟨hpart, hr⟩ := mem_stripCells.1 hjob
  have hplace := cellPlace_le h.placed hjob
  have hsource := hbulk.source _ hpart
  have hsized := h.sized _ hpart
  rw [hsource] at hsized
  have hmemory : slice buf (cellPlace rowWidth job) job.1.field.byteWidth =
      job.1.memory (rowStart + job.2) := by
    rw [hslot, slice_slice hplace, WritePart.memory, hsource]
    dsimp only
    unfold cellPlace slotOffset
    rw [Nat.add_mul, Nat.add_assoc]
  have hroom : cellPlace rowWidth job + job.1.field.byteWidth ≤ buf.length := by
    rw [hbuf, hcopy]
    exact hplace
  rw [cellInPlace_ok (hin _ hpart) hsized hroom, hmemory]

/-! ## The strips -/

/-- Strips that are the rows of the table are one write, whatever their number. -/
theorem writeStrips_run {prep : PreparedInput} {stripRows fuel : Nat}
    (hstrip : ∀ a n, a + n ≤ nrows → writeStrip prep rowWidth a n = .ok (diskRows parts a n))
    (hlen : ∀ a n, a + n ≤ nrows → (diskRows parts a n).length = n * rowWidth)
    (hpos : 0 < stripRows) (hle : rowStart ≤ nrows) (hfuel : nrows - rowStart ≤ fuel) (s : Fits)
    (hstart : start + rowStart * rowWidth ≤ s.bytes.length) :
    writeStrips prep start nrows rowWidth stripRows fuel rowStart s =
      .ok () ⟨writeAll s.bytes (start + rowStart * rowWidth)
        (diskRows parts rowStart (nrows - rowStart)), s.hdus⟩ := by
  -- a strip of no rows
  have hdone (s : Fits) (a : Nat) (h : nrows - a = 0) : writeAll s.bytes (start + a * rowWidth)
      (diskRows parts a (nrows - a)) = s.bytes := by
    rw [h]
    rfl
  induction fuel generalizing rowStart s with
  | zero =>
    rw [hdone s rowStart (by omega)]
    rfl
  | succ fuel ih =>
    rw [writeStrips]
    split_ifs with hend
    · rw [hdone s rowStart (by omega)]
      rfl
    · have hchunk := hlen rowStart (min (nrows - rowStart) stripRows) (by omega)
      have hnext : start + (rowStart + min (nrows - rowStart) stripRows) * rowWidth =
          start + rowStart * rowWidth +
            (diskRows parts rowStart (min (nrows - rowStart) stripRows)).length := by
        rw [hchunk, Nat.add_mul, Nat.add_assoc]
      have hroom : start + (rowStart + min (nrows - rowStart) stripRows) * rowWidth ≤
          (writeAll s.bytes (start + rowStart * rowWidth)
            (diskRows parts rowStart (min (nrows - rowStart) stripRows))).length := by
        rw [writeAll_length _ _ _ hstart, hnext]
        exact Nat.le_max_right _ _
      have hall : min (nrows - rowStart) stripRows +
          (nrows - (rowStart + min (nrows - rowStart) stripRows)) = nrows - rowStart := by omega
      simp only [hstrip rowStart (min (nrows - rowStart) stripRows) (by omega)]
      rw [FileOp.ofExcept_bind, FileOp.bind_ok (writeAt_eq _ _ _),
        ih (by omega) (by omega) _ hroom, hnext, writeAll_writeAll_append hstart,
        diskRows_append, hall]

theorem writeTableData_run {prep : PreparedInput} {target : Nat}
    (hstrip : ∀ a n, a + n ≤ nrows → writeStrip prep rowWidth a n = .ok (diskRows parts a n))
    (hlen : ∀ a n, a + n ≤ nrows → (diskRows parts a n).length = n * rowWidth) (s : Fits)
    (hstart : start ≤ s.bytes.length) :
    writeTableData prep start nrows rowWidth target s =
      .ok () ⟨writeAll s.bytes start (diskRows parts 0 nrows), s.hdus⟩ := by
  unfold writeTableData
  split_ifs with hzero
  · rw [hzero]
    rfl
  · have hrun : writeStrips prep start nrows rowWidth (min nrows (max 1 (target / max 1 rowWidth)))
        nrows 0 s = _ :=
      writeStrips_run hstrip hlen (by omega) (by omega) (by omega) s (by omega)
    rwa [Nat.zero_mul, Nat.add_zero, Nat.sub_zero] at hrun

/-- Equal strips give equal runs. -/
theorem writeTableData_congr {prep prep' : PreparedInput} {target : Nat}
    (h : ∀ a n, a + n ≤ nrows → writeStrip prep rowWidth a n = writeStrip prep' rowWidth a n) :
    writeTableData prep start nrows rowWidth target =
      writeTableData prep' start nrows rowWidth target := by
  have hloop (stripRows fuel rowStart : Nat) :
      writeStrips prep start nrows rowWidth stripRows fuel rowStart =
      writeStrips prep' start nrows rowWidth stripRows fuel rowStart := by
    induction fuel generalizing rowStart with
    | zero => rfl
    | succ fuel ih =>
      rw [writeStrips, writeStrips]
      split_ifs with hend
      · rfl
      · simp only [h rowStart (min (nrows - rowStart) stripRows) (by omega), ih]
  unfold writeTableData
  rw [hloop]

/-- A run with one strip for all rows. -/
theorem strip_of_run {prep : PreparedInput} {s s' : Fits} {u : Unit} (hn : 0 < nrows)
    (h : writeTableData prep start nrows rowWidth (nrows * max 1 rowWidth) s = .ok u s') :
    ∃ strip, writeStrip prep rowWidth 0 nrows = .ok strip := by
  have hrows : min nrows (max 1 (nrows * max 1 rowWidth / max 1 rowWidth)) = nrows := by
    rw [Nat.mul_div_cancel _ (by omega)]
    omega
  unfold writeTableData at h
  rw [if_neg (by omega), hrows] at h
  obtain ⟨m, rfl⟩ : ∃ m, nrows = m + 1 := ⟨nrows - 1, by omega⟩
  rw [writeStrips, if_neg (by omega), Nat.sub_zero, Nat.min_self] at h
  cases hstrip : writeStrip prep rowWidth 0 (m + 1) with
  | ok strip => exact ⟨strip, rfl⟩
  | error e =>
    simp only [hstrip] at h
    cases h

end

/-! ## The input -/

/-- The type and the byte order of a column of the input. -/
def WriteInput.column (input : WriteInput) (name : Str) : Option (Dtype × Bool) :=
  match input with
  | .structured array =>
    (array.fields.find? fun f => f.name == name).map fun f => (f.dtype, f.bigEndian)
  | .dict arrays => (arrays.find? fun a => a.1 == name).map fun a => (a.2.dtype, a.2.bigEndian)
  | .listed arrays names =>
    ((names.zip arrays).find? fun a => a.1 == name).map fun a => (a.2.dtype, a.2.bigEndian)

/-- A cell in the byte order of the machine. -/
def nativeForm (bigEndian : Bool) (unit : Nat) (memory : Bytes) : Bytes :=
  if bigEndian then mapElements (memory.length / unit) unit List.reverse memory else memory

/-- A cell of the input as the values that it holds. -/
def WriteInput.nativeCell (input : WriteInput) (part : WritePart) (row : Nat) : Bytes :=
  match input.column part.field.name with
  | some (dtype, bigEndian) => nativeForm bigEndian dtype.unit (part.memory row)
  | none => part.memory row

/-- What is found in the input. -/
structure Prepared (input : WriteInput) (fields : List Field) (nrows rowWidth : Nat)
    (prep : PreparedInput) : Prop where
  fields_eq : prep.parts.map WritePart.field = fields
  parts : ∀ part ∈ prep.parts, part.Inside nrows ∧ ∃ dtype bigEndian,
    input.column part.field.name = some (dtype, bigEndian) ∧
      TransformFor part.field dtype part.transform ∧
      part.source.srcTotalSize = fieldSize dtype (columnExpectedShape part.field)
  bulk : prep.layoutMatches = true → ∃ bytes, Bulk prep rowWidth nrows bytes
  bits : prep.layoutMatches = true → ∀ part ∈ prep.parts, part.field.tformLetter ≠ 0x58

section

variable {input : WriteInput} {fields : List Field} {field : Field} {part : WritePart}
  {nrows rowWidth : Nat} {prep : PreparedInput}

theorem refuseIf_bind {α : Type} {c : Prop} [Decidable c] {text : Str} {f : Unit → Except PyErr α}
    {a : α} : (refuseIf c text >>= f) = .ok a ↔ ¬c ∧ f () = .ok a := by
  unfold refuseIf
  split_ifs with hc
  · exact iff_of_false (fun h => by cases h) fun h => h.1 hc
  · exact ⟨fun h => ⟨hc, h⟩, fun h => h.2⟩

/-- One array for one column. -/
theorem acquirePerColumnArray_ok {array : ColumnArray} (hf : FixedField field)
    (h : acquirePerColumnArray array field nrows = .ok part) :
    part.field = field ∧ part.Inside nrows ∧ TransformFor field array.dtype part.transform ∧
      part.source.srcTotalSize = fieldSize array.dtype (columnExpectedShape field) := by
  unfold acquirePerColumnArray at h
  dsimp only at h
  obtain ⟨hrows, h⟩ := refuseIf_bind.1 h
  obtain ⟨hshape, h⟩ := refuseIf_bind.1 h
  obtain ⟨t, ht, h⟩ := bind_eq_ok.1 h
  obtain ⟨hcontiguous, h⟩ := refuseIf_bind.1 h
  split_ifs at h with hoverflow
  obtain ⟨henough, h⟩ := refuseIf_bind.1 h
  obtain rfl := Except.ok.inj h
  have hshape := not_not.1 hshape
  refine ⟨rfl, fun r hr => ?_, columnTransform_cases ht, ?_⟩
  · have hrow : (r + 1) * (array.dtype.itemsize * max 1 array.shape.tail.prod) ≤
        nrows * (array.dtype.itemsize * max 1 array.shape.tail.prod) := Nat.mul_le_mul_right _ hr
    rw [Nat.succ_mul] at hrow
    dsimp only
    omega
  · -- a shape without elements does not occur
    have hpos : 0 < (columnExpectedShape field).prod := by
      unfold columnExpectedShape
      cases hdims : field.tdim with
      | none =>
        dsimp only
        split_ifs <;> simp
        omega
      | some dims =>
        obtain ⟨hne, hprod⟩ := hf.dims dims hdims
        dsimp only
        split_ifs
        · cases dims with
          | nil => exact absurd rfl hne
          | cons d dims =>
            rw [List.prod_cons] at hprod
            rw [List.prod_reverse]
            exact Nat.pos_of_mul_pos_left hprod
        · rwa [List.prod_reverse]
    dsimp only
    rw [hshape, fieldSize, Nat.max_eq_right hpos]

/-- One column of a structured array. -/
theorem structuredPart_ok {array : StructuredArray} (h : structuredPart array field = .ok part) :
    part.field = field ∧ ∃ found, (array.fields.find? fun f => f.name == field.name) = some found ∧
      found.shape = columnExpectedShape field ∧ TransformFor field found.dtype part.transform ∧
        part.source =
          ⟨array.bytes, found.offset, array.itemsize, fieldSize found.dtype found.shape⟩ := by
  unfold structuredPart at h
  split at h
  · cases h
  · rename_i found hfound
    obtain ⟨t, ht, h⟩ := bind_eq_ok.1 h
    obtain rfl := Except.ok.inj h
    unfold validateFieldForColumn at ht
    obtain ⟨hshape, ht⟩ := refuseIf_bind.1 ht
    exact ⟨rfl, found, hfound, not_not.1 hshape, columnTransform_cases ht, rfl⟩

theorem prepareStructuredInput_ok {array : StructuredArray}
    (h : prepareStructuredInput array fields nrows rowWidth = .ok prep) :
    Prepared (.structured array) fields nrows rowWidth prep := by
  unfold prepareStructuredInput at h
  obtain ⟨-, h⟩ := refuseIf_bind.1 h
  obtain ⟨-, -, h⟩ := bind_eq_ok.1 h
  obtain ⟨hrows, h⟩ := refuseIf_bind.1 h
  obtain ⟨-, h⟩ := refuseIf_bind.1 h
  split_ifs at h with hoverflow
  obtain ⟨henough, h⟩ := refuseIf_bind.1 h
  obtain ⟨parts, hparts, h⟩ := bind_eq_ok.1 h
  obtain rfl := Except.ok.inj h
  have hrows : array.len = nrows := not_not.1 hrows
  have henough : nrows * array.itemsize ≤ array.bytes.length := by
    rw [← hrows]
    omega
  have hpart : ∀ part ∈ parts, ∃ found, (array.fields.find? fun f => f.name == part.field.name) =
      some found ∧ found.shape = columnExpectedShape part.field ∧
        TransformFor part.field found.dtype part.transform ∧ part.source =
          ⟨array.bytes, found.offset, array.itemsize, fieldSize found.dtype found.shape⟩ := by
    intro part hpart
    obtain ⟨field, -, hfield⟩ := exists_of_mem_mapM hparts hpart
    obtain ⟨rfl, hfound⟩ := structuredPart_ok hfield
    exact hfound
  refine ⟨?_, ?_, ?_, ?_⟩
  · have := map_eq_of_mapM hparts fun field part h => (structuredPart_ok h).1
    rwa [List.map_id'] at this
  · intro part hmem
    obtain ⟨found, hfound, hshape, ht, hsource⟩ := hpart part hmem
    have hin := array.inside found (List.mem_of_find?_eq_some hfound)
    refine ⟨fun r hr => ?_, found.dtype, found.bigEndian, ?_, ht, by rw [hsource, hshape]⟩
    · have hrow : (r + 1) * array.itemsize ≤ nrows * array.itemsize := Nat.mul_le_mul_right _ hr
      rw [Nat.succ_mul] at hrow
      rw [hsource]
      dsimp only
      omega
    · rw [WriteInput.column, hfound]
      rfl
  all_goals
    intro hlayout
    have hitem := hlayout
    simp only [Bool.and_eq_true, decide_eq_true_eq, List.all_eq_true] at hitem
    obtain ⟨hitem, hall⟩ := hitem
    have hmatch : ∀ part ∈ parts, ∃ i, partMatches array part i = true := by
      intro part hmem
      obtain ⟨i, hi, rfl⟩ := List.mem_iff_getElem.1 hmem
      exact ⟨i, hall (parts[i], i)
        (List.mk_mem_zipIdx_iff_getElem?.2 (List.getElem?_eq_getElem hi))⟩
  · refine ⟨array.bytes, hlayout, hitem ▸ henough, fun part hmem => ?_⟩
    obtain ⟨found, -, -, -, hsource⟩ := hpart part hmem
    obtain ⟨i, hi⟩ := hmatch part hmem
    unfold partMatches at hi
    simp only [Bool.and_eq_true, decide_eq_true_eq] at hi
    rw [hsource] at hi ⊢
    rw [← hi.1.1.2, ← hi.1.2, hitem]
  · intro part hmem
    obtain ⟨i, hi⟩ := hmatch part hmem
    unfold partMatches at hi
    simp only [Bool.and_eq_true, decide_eq_true_eq] at hi
    exact hi.2

/-- One array for each column. -/
theorem namedParts_ok {arrays : List (Str × ColumnArray)} {missing : Str → Str}
    {parts : List WritePart} (hschema : ∀ field ∈ fields, FixedField field)
    (hcolumn : ∀ name, input.column name =
      (arrays.find? fun a => a.1 == name).map fun a => (a.2.dtype, a.2.bigEndian))
    (h : fields.mapM (namedPart arrays missing nrows) = .ok parts) :
    Prepared input fields nrows rowWidth ⟨parts, false⟩ := by
  have hpart (field : Field) (part : WritePart)
      (h : namedPart arrays missing nrows field = .ok part) :
      ∃ found, (arrays.find? fun a => a.1 == field.name) = some found ∧
        acquirePerColumnArray found.2 field nrows = .ok part := by
    unfold namedPart at h
    split at h
    · cases h
    · rename_i found hfound
      exact ⟨_, hfound, h⟩
  have hfield (field : Field) (part : WritePart)
      (h : namedPart arrays missing nrows field = .ok part) :
      part.field = field := by
    obtain ⟨found, -, h⟩ := hpart field part h
    unfold acquirePerColumnArray at h
    obtain ⟨-, h⟩ := refuseIf_bind.1 h
    obtain ⟨-, h⟩ := refuseIf_bind.1 h
    obtain ⟨t, -, h⟩ := bind_eq_ok.1 h
    obtain ⟨-, h⟩ := refuseIf_bind.1 h
    split_ifs at h
    obtain ⟨-, h⟩ := refuseIf_bind.1 h
    rw [← Except.ok.inj h]
  refine ⟨?_, fun part hmem => ?_, fun h => (by cases h), fun h => (by cases h)⟩
  · have := map_eq_of_mapM h hfield
    rwa [List.map_id'] at this
  · obtain ⟨field, hmem, h⟩ := exists_of_mem_mapM h hmem
    obtain ⟨found, hfound, h⟩ := hpart field part h
    obtain ⟨rfl, hinside, ht, hsize⟩ := acquirePerColumnArray_ok (hschema field hmem) h
    exact ⟨hinside, found.2.dtype, found.2.bigEndian, by rw [hcolumn, hfound]; rfl, ht, hsize⟩

theorem dispatchWriteInput_ok (hschema : ∀ field ∈ fields, FixedField field)
    (h : dispatchWriteInput input fields nrows rowWidth = .ok prep) :
    Prepared input fields nrows rowWidth prep := by
  cases input with
  | structured array => exact prepareStructuredInput_ok h
  | dict arrays =>
    obtain ⟨-, -, h⟩ := bind_eq_ok.1 h
    obtain ⟨parts, hparts, h⟩ := bind_eq_ok.1 h
    obtain rfl := Except.ok.inj h
    exact namedParts_ok hschema (fun _ => rfl) hparts
  | listed arrays names =>
    obtain ⟨-, h⟩ := refuseIf_bind.1 h
    obtain ⟨-, -, h⟩ := bind_eq_ok.1 h
    obtain ⟨parts, hparts, h⟩ := bind_eq_ok.1 h
    obtain rfl := Except.ok.inj h
    exact namedParts_ok hschema (fun _ => rfl) hparts

end

end RustFits.BinaryTable
