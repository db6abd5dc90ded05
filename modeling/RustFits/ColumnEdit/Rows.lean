import RustFits.Header.Model

/-!
# Rows of another width

Inserting or deleting a column gives every row of a table another width
(`edit.rs` of `hdu_table` and `hdu_ascii_table`, which do this alike).  The rows are
rewritten in place in strips of about 1 MiB: from the last to the first when they
grow, from the first to the last when they shrink.

* `shuffleMainForInsert_eq` and `shuffleMainForDelete_eq` give the file after the
  strips.
* `shuffleMainForInsert_error` gives it when the cell of some row cannot be made: the
  strips behind that row have been written.
* `growOrShrinkDataExtent` keeps the data section at whole blocks.
-/

namespace RustFits.ColumnEdit

open Ascii ByteFile Machine

/-! ## The strips -/

/-- `STRIP_TARGET_BYTES`. -/
def stripTargetBytes : Nat := 1048576

/-- The rows of one strip. -/
def stripRows (rowWidth nrows : Nat) : Nat := min (max (stripTargetBytes / max rowWidth 1) 1) nrows

/-- A row with the new cell in it.  The fields in front of the cell take `preWidth`
bytes, which is at most the row width. -/
def insertedRow (preWidth : Nat) (row cell : Bytes) : Bytes :=
  row.take preWidth ++ cell ++ row.drop preWidth

/-- A row without the field between `preWidth` and `postOffset`. -/
def shrunkRow (preWidth postOffset : Nat) (row : Bytes) : Bytes :=
  row.take preWidth ++ row.drop postOffset

/-- The new rows of the strip that starts at row `rowStart`. -/
def insertedRows (rowWidth preWidth : Nat) (cell : Nat → Except PyErr Bytes) (old : Bytes)
    (rowStart : Nat) : Nat → Except PyErr Bytes
  | 0 => .ok []
  | chunk + 1 => do
    let front ← insertedRows rowWidth preWidth cell old rowStart chunk
    let text ← cell (rowStart + chunk)
    return front ++ insertedRow preWidth (slice old (chunk * rowWidth) rowWidth) text

section

variable (context : Str) (dataOffset rowWidth newRowWidth preWidth strip : Nat)

/-- The loop of `shuffle_main_for_insert`, over the rows in front of `rowEnd`. -/
def insertStrips (cell : Nat → Except PyErr Bytes) : Nat → Nat → FileOp Unit
  | 0, _ => pure ()
  | fuel + 1, rowEnd =>
    if rowEnd = 0 then pure ()
    else do
      let chunk := min rowEnd strip
      let rowStart := rowEnd - chunk
      let old ← readAt context (dataOffset + rowStart * rowWidth) (chunk * rowWidth)
      let new ← FileOp.ofExcept (insertedRows rowWidth preWidth cell old rowStart chunk)
      writeAt (dataOffset + rowStart * newRowWidth) new
      insertStrips cell fuel rowStart

/-- The loop of `shuffle_main_for_delete`, over the rows from `rowStart` on. -/
def deleteStrips (postOffset nrows : Nat) : Nat → Nat → FileOp Unit
  | 0, _ => pure ()
  | fuel + 1, rowStart =>
    if nrows ≤ rowStart then pure ()
    else do
      let chunk := min (nrows - rowStart) strip
      let old ← readAt context (dataOffset + rowStart * rowWidth) (chunk * rowWidth)
      let new := (List.range chunk).flatMap fun r =>
        shrunkRow preWidth postOffset (slice old (r * rowWidth) rowWidth)
      writeAt (dataOffset + rowStart * newRowWidth) new
      deleteStrips postOffset nrows fuel (rowStart + chunk)

end

/-- `shuffle_main_for_insert`. -/
def shuffleMainForInsert (context : Str) (dataOffset nrows rowWidth newRowWidth preWidth : Nat)
    (cell : Nat → Except PyErr Bytes) : FileOp Unit :=
  if nrows = 0 then pure ()
  else insertStrips context dataOffset rowWidth newRowWidth preWidth (stripRows newRowWidth nrows)
    cell nrows nrows

/-- `shuffle_main_for_delete`. -/
def shuffleMainForDelete (context : Str) (dataOffset nrows rowWidth newRowWidth preWidth
    postOffset : Nat) : FileOp Unit :=
  if nrows = 0 ∨ newRowWidth = rowWidth then pure ()
  else deleteStrips context dataOffset rowWidth newRowWidth preWidth (stripRows rowWidth nrows)
    postOffset nrows nrows 0

/-- `grow_or_shrink_data_extent`. -/
def growOrShrinkDataExtent (dataOffset oldDataBytes newDataBytes : Nat) : FileOp Unit := do
  let currentPadded := roundUpToBlock oldDataBytes
  let newPadded := roundUpToBlock newDataBytes
  if newPadded = currentPadded then pure ()
  else
    let currentHduEnd := dataOffset + currentPadded
    let newHduEnd := dataOffset + newPadded
    let s ← get
    if currentPadded < newPadded then
      let delta := newPadded - currentPadded
      if currentHduEnd < s.bytes.length then
        shiftFileTailAndUpdateOffsets currentHduEnd delta
        zeroFillRange currentHduEnd delta
      else modify fun s => { s with bytes := setLen s.bytes newHduEnd }
    else
      if currentHduEnd < s.bytes.length then
        shiftFileTailBackwardAndUpdateOffsets currentHduEnd (currentPadded - newPadded)
      else modify fun s => { s with bytes := setLen s.bytes newHduEnd }

/-! ## The rows of a strip -/

/-- The new rows `from` to `from + n`, made of the rows of `f`. -/
def newRows (f : Bytes) (dataOffset rowWidth preWidth : Nat) (text : Nat → Bytes) (start n : Nat) :
    Bytes :=
  (List.range n).flatMap fun r =>
    insertedRow preWidth (slice f (dataOffset + (start + r) * rowWidth) rowWidth) (text (start + r))

section

variable {rowWidth newRowWidth preWidth dataOffset strip : Nat} {cell : Nat → Except PyErr Bytes}
  {text : Nat → Bytes} {f : Bytes} {context : Str}

theorem insertedRow_length {row new : Bytes} (hrow : row.length = rowWidth)
    (hnew : new.length = newRowWidth - rowWidth) (hle : rowWidth ≤ newRowWidth) :
    (insertedRow preWidth row new).length = newRowWidth := by
  simp only [insertedRow, List.length_append, List.length_take, List.length_drop]
  omega

theorem newRows_length {start n : Nat} (hle : rowWidth ≤ newRowWidth)
    (hlen : dataOffset + (start + n) * rowWidth ≤ f.length)
    (htext : ∀ r, start ≤ r → r < start + n → (text r).length = newRowWidth - rowWidth) :
    (newRows f dataOffset rowWidth preWidth text start n).length = n * newRowWidth := by
  rw [newRows, flatMap_length_of_width fun r hr => insertedRow_length ?_ ?_ hle, List.length_range]
  · have hr' := List.mem_range.1 hr
    have hrow := Nat.mul_le_mul_right rowWidth (show start + r + 1 ≤ start + n by omega)
    rw [Nat.succ_mul] at hrow
    rw [slice_length]
    omega
  · exact htext _ (by omega) (by have := List.mem_range.1 hr; omega)

/-- All cells of the strip can be made. -/
theorem insertedRows_eq {old : Bytes} {rowStart : Nat} :
    ∀ {chunk : Nat}, (∀ r < chunk, cell (rowStart + r) = .ok (text (rowStart + r))) →
      insertedRows rowWidth preWidth cell old rowStart chunk =
        .ok ((List.range chunk).flatMap fun r =>
          insertedRow preWidth (slice old (r * rowWidth) rowWidth) (text (rowStart + r))) := by
  intro chunk
  induction chunk with
  | zero => exact fun _ => rfl
  | succ chunk ih =>
    intro hcell
    rw [insertedRows, ih fun r hr => hcell r (by omega), hcell chunk (by omega), List.range_succ,
      List.flatMap_append]
    simp [bind, Except.bind, pure, Except.pure]

/-- Some cell of the strip cannot. -/
theorem insertedRows_error {old : Bytes} {rowStart : Nat} :
    ∀ {chunk : Nat}, (∃ r < chunk, ∃ e, cell (rowStart + r) = .error e) →
      ∃ e, insertedRows rowWidth preWidth cell old rowStart chunk = .error e := by
  intro chunk
  induction chunk with
  | zero => rintro ⟨r, hr, -⟩; omega
  | succ chunk ih =>
    rintro ⟨r, hr, e, he⟩
    rw [insertedRows]
    cases hfront : insertedRows rowWidth preWidth cell old rowStart chunk with
    | error e' => exact ⟨e', rfl⟩
    | ok front =>
      -- the rows in front are fine, so it is the last one
      have hlast : r = chunk := by
        by_contra hne
        obtain ⟨e', he'⟩ := ih ⟨r, by omega, e, he⟩
        rw [hfront] at he'
        cases he'
      rw [hlast] at he
      exact ⟨e, by simp [bind, Except.bind, he]⟩

/-- One strip: the rows that are read are those of the file. -/
theorem strip_rows {s : Fits} {rowStart chunk : Nat}
    (hlen : dataOffset + (rowStart + chunk) * rowWidth ≤ s.bytes.length) :
    readAt context (dataOffset + rowStart * rowWidth) (chunk * rowWidth) s =
        .ok (slice s.bytes (dataOffset + rowStart * rowWidth) (chunk * rowWidth)) s ∧
      ((List.range chunk).flatMap fun r =>
          insertedRow preWidth (slice (slice s.bytes (dataOffset + rowStart * rowWidth)
            (chunk * rowWidth)) (r * rowWidth) rowWidth) (text (rowStart + r))) =
        newRows s.bytes dataOffset rowWidth preWidth text rowStart chunk := by
  constructor
  · rw [Nat.add_mul] at hlen
    rw [readAt, readExact_eq_some (by omega)]
  · unfold newRows
    refine List.flatMap_congr fun r hr => ?_
    have hr' := List.mem_range.1 hr
    have hle := Nat.mul_le_mul_right rowWidth (show r + 1 ≤ chunk by omega)
    rw [Nat.succ_mul] at hle
    rw [slice_slice hle, Nat.add_mul, Nat.add_assoc]

/-! ## All strips -/

/-- Rows behind the written ones are still the old ones. -/
theorem newRows_congr {g : Bytes} {start n : Nat}
    (hsame : ∀ r < start + n, slice g (dataOffset + r * rowWidth) rowWidth =
      slice f (dataOffset + r * rowWidth) rowWidth) :
    newRows g dataOffset rowWidth preWidth text start n =
      newRows f dataOffset rowWidth preWidth text start n := by
  unfold newRows
  refine List.flatMap_congr fun r hr => ?_
  rw [hsame (start + r) (by have := List.mem_range.1 hr; omega)]

theorem newRows_add {n m : Nat} (start : Nat) :
    newRows f dataOffset rowWidth preWidth text start (n + m) =
      newRows f dataOffset rowWidth preWidth text start n ++
        newRows f dataOffset rowWidth preWidth text (start + n) m := by
  simp only [newRows, List.range_add, List.flatMap_append, List.flatMap_map, Nat.add_assoc]

section

variable {s : Fits} {rowEnd fuel : Nat} (hle : rowWidth ≤ newRowWidth)
  (hlen : dataOffset + rowEnd * newRowWidth ≤ s.bytes.length)

include hle hlen

theorem rows_le : dataOffset + rowEnd * rowWidth ≤ s.bytes.length := by
  have := Nat.mul_le_mul_left rowEnd hle
  omega

/-- A strip whose cells can be made is written. -/
theorem insertStrips_step (hpos : rowEnd ≠ 0)
    (hcell : ∀ r, rowEnd - min rowEnd strip ≤ r → r < rowEnd → cell r = .ok (text r)) :
    insertStrips context dataOffset rowWidth newRowWidth preWidth strip cell (fuel + 1) rowEnd s =
      insertStrips context dataOffset rowWidth newRowWidth preWidth strip cell fuel
        (rowEnd - min rowEnd strip)
        ⟨writeAll s.bytes (dataOffset + (rowEnd - min rowEnd strip) * newRowWidth)
          (newRows s.bytes dataOffset rowWidth preWidth text (rowEnd - min rowEnd strip)
            (min rowEnd strip)), s.hdus⟩ := by
  have hchunk : rowEnd - min rowEnd strip + min rowEnd strip = rowEnd := by omega
  obtain ⟨hread, hrows⟩ := @strip_rows rowWidth preWidth dataOffset text context s
    (rowEnd - min rowEnd strip) (min rowEnd strip) (by
      rw [hchunk]
      exact rows_le hle hlen)
  rw [insertStrips, if_neg hpos, FileOp.bind_ok hread,
    insertedRows_eq fun r hr => hcell _ (by omega) (by omega), hrows, FileOp.ofExcept_bind]
  rfl

/-- A strip with a cell that cannot be made stops the loop. -/
theorem insertStrips_stop (hpos : rowEnd ≠ 0)
    (hbad : ∃ r, rowEnd - min rowEnd strip ≤ r ∧ r < rowEnd ∧ ∃ e, cell r = .error e) :
    ∃ e, insertStrips context dataOffset rowWidth newRowWidth preWidth strip cell (fuel + 1)
      rowEnd s = .error e s := by
  have hchunk : rowEnd - min rowEnd strip + min rowEnd strip = rowEnd := by omega
  obtain ⟨hread, -⟩ := @strip_rows rowWidth preWidth dataOffset (fun _ => []) context s
    (rowEnd - min rowEnd strip) (min rowEnd strip) (by
      rw [hchunk]
      exact rows_le hle hlen)
  obtain ⟨r, hlo, hhi, e, he⟩ := hbad
  obtain ⟨e', he'⟩ := @insertedRows_error rowWidth preWidth cell
    (slice s.bytes (dataOffset + (rowEnd - min rowEnd strip) * rowWidth)
      (min rowEnd strip * rowWidth))
    (rowEnd - min rowEnd strip) (min rowEnd strip)
    ⟨r - (rowEnd - min rowEnd strip), by omega, e, by rw [Nat.add_sub_cancel' hlo]; exact he⟩
  refine ⟨e', ?_⟩
  rw [insertStrips, if_neg hpos, FileOp.bind_ok hread, he']
  rfl

/-- The rows in front of a written strip are still the old ones. -/
theorem newRows_after {rowStart start n : Nat} {data : Bytes} (hstart : rowStart ≤ rowEnd)
    (hn : start + n ≤ rowStart) :
    newRows (writeAll s.bytes (dataOffset + rowStart * newRowWidth) data) dataOffset
      rowWidth preWidth
        text start n = newRows s.bytes dataOffset rowWidth preWidth text start n := by
  refine newRows_congr fun r hr => slice_writeAll_of_disjoint ?_ (Or.inl ?_)
  · have := Nat.mul_le_mul_right newRowWidth hstart
    omega
  · have hrow := Nat.mul_le_mul_right rowWidth (show r + 1 ≤ rowStart by omega)
    have hwide := Nat.mul_le_mul_left rowStart hle
    rw [Nat.succ_mul] at hrow
    omega

end

/-- All cells can be made: every row gets its cell. -/
theorem insertStrips_eq (hle : rowWidth ≤ newRowWidth) (hstrip : 0 < strip) :
    ∀ {fuel rowEnd : Nat} {s : Fits}, rowEnd ≤ fuel →
      dataOffset + rowEnd * newRowWidth ≤ s.bytes.length →
      (∀ r < rowEnd, cell r = .ok (text r) ∧ (text r).length = newRowWidth - rowWidth) →
      insertStrips context dataOffset rowWidth newRowWidth preWidth strip cell fuel rowEnd s =
        .ok () ⟨writeAll s.bytes dataOffset
          (newRows s.bytes dataOffset rowWidth preWidth text 0 rowEnd), s.hdus⟩ := by
  intro fuel
  induction fuel with
  | zero =>
    intro rowEnd s hfuel hlen _
    obtain rfl : rowEnd = 0 := by omega
    simp [insertStrips, newRows, writeAll]
    rfl
  | succ fuel ih =>
    intro rowEnd s hfuel hlen hcell
    by_cases hpos : rowEnd = 0
    · subst hpos
      simp [insertStrips, newRows, writeAll]
      rfl
    · rw [insertStrips_step hle hlen hpos fun r _ hr => (hcell r hr).1]
      have hsplit : rowEnd - min rowEnd strip + min rowEnd strip = rowEnd := by omega
      generalize hchunk : min rowEnd strip = chunk at hsplit ⊢
      generalize hstart : rowEnd - chunk = rowStart at hsplit ⊢
      have htext : ∀ r < rowEnd, (text r).length = newRowWidth - rowWidth :=
        fun r hr => (hcell r hr).2
      have hfront : (newRows s.bytes dataOffset rowWidth preWidth text 0 rowStart).length =
          rowStart * newRowWidth := by
        refine newRows_length hle ?_ fun r _ hr => htext r (by omega)
        have := Nat.mul_le_mul (show 0 + rowStart ≤ rowEnd by omega) hle
        omega
      have hback : (newRows s.bytes dataOffset rowWidth preWidth text rowStart chunk).length =
          chunk * newRowWidth := by
        refine newRows_length hle ?_ fun r _ hr => htext r (by omega)
        rw [hsplit]
        exact rows_le hle hlen
      have hroom : dataOffset + rowStart * newRowWidth + chunk * newRowWidth ≤ s.bytes.length := by
        rw [Nat.add_assoc, ← Nat.add_mul, hsplit]
        exact hlen
      have hsize : (writeAll s.bytes (dataOffset + rowStart * newRowWidth)
          (newRows s.bytes dataOffset rowWidth preWidth text rowStart chunk)).length =
            s.bytes.length := writeAll_length_of_le (by rw [hback]; exact hroom)
      rw [@ih rowStart _ (by omega) (by dsimp only; omega) fun r hr => hcell r (by omega)]
      dsimp only
      rw [newRows_after hle hlen (by omega) (by omega)]
      have hjoin :=
        @writeAll_before s.bytes (newRows s.bytes dataOffset rowWidth preWidth text 0 rowStart)
        (newRows s.bytes dataOffset rowWidth preWidth text rowStart chunk) dataOffset
        (by rw [hfront, hback]; exact hroom)
      rw [hfront] at hjoin
      rw [hjoin, ← hsplit, newRows_add, Nat.zero_add]

/-- The row behind the strip of row `bad`, when the strips are counted from the end. -/
def stripEnd (strip nrows bad : Nat) : Nat := nrows - (nrows - 1 - bad) / strip * strip

theorem bad_lt_stripEnd {nrows bad : Nat} (strip : Nat) (h : bad < nrows) :
    bad < stripEnd strip nrows bad := by
  have := Nat.div_mul_le_self (nrows - 1 - bad) strip
  unfold stripEnd
  omega

/-- The cell of row `bad` is the last one that cannot be made: the strips behind its
own have been written. -/
theorem insertStrips_error (hle : rowWidth ≤ newRowWidth) (hstrip : 0 < strip)
    {bad : Nat} {e : PyErr} (hbad : cell bad = .error e) :
    ∀ {fuel rowEnd : Nat} {s : Fits}, rowEnd ≤ fuel → bad < rowEnd →
      dataOffset + rowEnd * newRowWidth ≤ s.bytes.length →
      (∀ r, bad < r → r < rowEnd → cell r = .ok (text r) ∧
        (text r).length = newRowWidth - rowWidth) →
      ∃ e', insertStrips context dataOffset rowWidth newRowWidth preWidth strip cell fuel rowEnd s =
        .error e' ⟨writeAll s.bytes (dataOffset + stripEnd strip rowEnd bad * newRowWidth)
          (newRows s.bytes dataOffset rowWidth preWidth text (stripEnd strip rowEnd bad)
            (rowEnd - stripEnd strip rowEnd bad)), s.hdus⟩ := by
  intro fuel
  induction fuel with
  | zero =>
    intro rowEnd s hfuel hrow
    omega
  | succ fuel ih =>
    intro rowEnd s hfuel hrow hlen hcell
    by_cases hhere : rowEnd - min rowEnd strip ≤ bad
    · -- the strip of `bad`: nothing has been written
      have hend : stripEnd strip rowEnd bad = rowEnd := by
        have : (rowEnd - 1 - bad) / strip = 0 := Nat.div_eq_of_lt (by omega)
        rw [stripEnd, this, Nat.zero_mul, Nat.sub_zero]
      obtain ⟨e', he'⟩ :=
        @insertStrips_stop rowWidth newRowWidth preWidth dataOffset strip cell context
        s rowEnd fuel hle hlen (by omega) ⟨bad, hhere, hrow, e, hbad⟩
      refine ⟨e', ?_⟩
      rw [he', hend, Nat.sub_self]
      simp [newRows, writeAll]
    · have hchunk : min rowEnd strip = strip := by omega
      have hend : stripEnd strip rowEnd bad = stripEnd strip (rowEnd - strip) bad := by
        have hdiv : (rowEnd - 1 - bad) / strip = (rowEnd - strip - 1 - bad) / strip + 1 := by
          rw [show rowEnd - 1 - bad = rowEnd - strip - 1 - bad + strip by omega,
            Nat.add_div_right _ hstrip]
        rw [stripEnd, stripEnd, hdiv, Nat.succ_mul]
        omega
      have hcells : ∀ r, rowEnd - min rowEnd strip ≤ r → r < rowEnd → cell r = .ok (text r) :=
        fun r hlo hhi => (hcell r (by omega) hhi).1
      rw [insertStrips_step hle hlen (by omega) hcells, hchunk, hend]
      have hroom : dataOffset + (rowEnd - strip) * newRowWidth + strip * newRowWidth ≤
          s.bytes.length := by
        rw [Nat.add_assoc, ← Nat.add_mul, Nat.sub_add_cancel (by omega)]
        exact hlen
      have hback :
          (newRows s.bytes dataOffset rowWidth preWidth text (rowEnd - strip) strip).length =
          strip * newRowWidth := by
        refine newRows_length hle ?_ fun r hlo hhi => (hcell r (by omega) (by omega)).2
        rw [Nat.sub_add_cancel (by omega)]
        exact rows_le hle hlen
      have hsize : (writeAll s.bytes (dataOffset + (rowEnd - strip) * newRowWidth)
          (newRows s.bytes dataOffset rowWidth preWidth text (rowEnd - strip) strip)).length =
            s.bytes.length := writeAll_length_of_le (by rw [hback]; exact hroom)
      obtain ⟨e', he'⟩ := @ih (rowEnd - strip)
        ⟨writeAll s.bytes (dataOffset + (rowEnd - strip) * newRowWidth)
          (newRows s.bytes dataOffset rowWidth preWidth text (rowEnd - strip) strip), s.hdus⟩
        (by omega) (by omega) (by dsimp only; omega) fun r hlo hhi => hcell r hlo (by omega)
      refine ⟨e', he'.trans ?_⟩
      have hle' : stripEnd strip (rowEnd - strip) bad ≤ rowEnd - strip := Nat.sub_le _ _
      have hlt := bad_lt_stripEnd strip (show bad < rowEnd - strip by omega)
      generalize stripEnd strip (rowEnd - strip) bad = m at hle' hlt ⊢
      have hsum : m + (rowEnd - strip - m) = rowEnd - strip := by omega
      have hfront :
          (newRows s.bytes dataOffset rowWidth preWidth text m (rowEnd - strip - m)).length =
          (rowEnd - strip - m) * newRowWidth := by
        refine newRows_length hle ?_ fun r hlo hhi => (hcell r (by omega) (by omega)).2
        rw [hsum]
        have := Nat.mul_le_mul (show rowEnd - strip ≤ rowEnd by omega) hle
        omega
      have hplace : dataOffset + m * newRowWidth + (rowEnd - strip - m) * newRowWidth =
          dataOffset + (rowEnd - strip) * newRowWidth := by
        rw [Nat.add_assoc, ← Nat.add_mul, hsum]
      have hjoin := @writeAll_before s.bytes
        (newRows s.bytes dataOffset rowWidth preWidth text m (rowEnd - strip - m))
        (newRows s.bytes dataOffset rowWidth preWidth text (rowEnd - strip) strip)
        (dataOffset + m * newRowWidth) (by rw [hfront, hback, hplace]; exact hroom)
      rw [hfront, hplace] at hjoin
      dsimp only
      rw [newRows_after hle hlen (by omega) (by omega), hjoin,
        show rowEnd - m = rowEnd - strip - m + strip by omega, newRows_add, hsum]

theorem stripRows_pos {nrows : Nat} (h : nrows ≠ 0) : 0 < stripRows rowWidth nrows := by
  unfold stripRows
  omega

theorem shuffleMainForInsert_eq {nrows : Nat} {s : Fits} (hle : rowWidth ≤ newRowWidth)
    (hlen : dataOffset + nrows * newRowWidth ≤ s.bytes.length)
    (hcell : ∀ r < nrows, cell r = .ok (text r) ∧ (text r).length = newRowWidth - rowWidth) :
    shuffleMainForInsert context dataOffset nrows rowWidth newRowWidth preWidth cell s =
      .ok () ⟨writeAll s.bytes dataOffset
        (newRows s.bytes dataOffset rowWidth preWidth text 0 nrows), s.hdus⟩ := by
  unfold shuffleMainForInsert
  split_ifs with hzero
  · subst hzero
    simp [newRows, writeAll]
    rfl
  · exact insertStrips_eq hle (stripRows_pos hzero) (Nat.le_refl _) hlen hcell

theorem shuffleMainForInsert_error {nrows bad : Nat} {s : Fits} {e : PyErr}
    (hle : rowWidth ≤ newRowWidth) (hrow : bad < nrows)
    (hlen : dataOffset + nrows * newRowWidth ≤ s.bytes.length) (hbad : cell bad = .error e)
    (hcell : ∀ r, bad < r → r < nrows → cell r = .ok (text r) ∧
      (text r).length = newRowWidth - rowWidth) :
    let m := stripEnd (stripRows newRowWidth nrows) nrows bad
    ∃ e', shuffleMainForInsert context dataOffset nrows rowWidth newRowWidth preWidth cell s =
      .error e' ⟨writeAll s.bytes (dataOffset + m * newRowWidth)
        (newRows s.bytes dataOffset rowWidth preWidth text m (nrows - m)), s.hdus⟩ := by
  have hzero : nrows ≠ 0 := by omega
  unfold shuffleMainForInsert
  rw [if_neg hzero]
  exact insertStrips_error hle (stripRows_pos hzero) hbad (Nat.le_refl _) hrow hlen hcell

/-! ## Rows that shrink -/

/-- The rows from `start` on, without the field. -/
def shrunkRows (f : Bytes) (dataOffset rowWidth preWidth postOffset start n : Nat) : Bytes :=
  (List.range n).flatMap fun r =>
    shrunkRow preWidth postOffset (slice f (dataOffset + (start + r) * rowWidth) rowWidth)

theorem shrunkRow_length {postOffset : Nat} {row : Bytes} (hrow : row.length = rowWidth)
    (hpre : preWidth ≤ postOffset) (hpost : postOffset ≤ rowWidth) :
    (shrunkRow preWidth postOffset row).length = rowWidth - (postOffset - preWidth) := by
  simp only [shrunkRow, List.length_append, List.length_take, List.length_drop]
  omega

theorem shrunkRows_length {postOffset start n : Nat} (hpre : preWidth ≤ postOffset)
    (hpost : postOffset ≤ rowWidth) (hlen : dataOffset + (start + n) * rowWidth ≤ f.length) :
    (shrunkRows f dataOffset rowWidth preWidth postOffset start n).length =
      n * (rowWidth - (postOffset - preWidth)) := by
  rw [shrunkRows, flatMap_length_of_width fun r hr => shrunkRow_length ?_ hpre hpost,
    List.length_range]
  have hr' := List.mem_range.1 hr
  have hrow := Nat.mul_le_mul_right rowWidth (show start + r + 1 ≤ start + n by omega)
  rw [Nat.succ_mul] at hrow
  rw [slice_length]
  omega

theorem shrunkRows_add {postOffset n m : Nat} (start : Nat) :
    shrunkRows f dataOffset rowWidth preWidth postOffset start (n + m) =
      shrunkRows f dataOffset rowWidth preWidth postOffset start n ++
        shrunkRows f dataOffset rowWidth preWidth postOffset (start + n) m := by
  simp only [shrunkRows, List.range_add, List.flatMap_append, List.flatMap_map, Nat.add_assoc]

/-- The rows behind a write are still the old ones. -/
theorem shrunkRows_after {postOffset start n off : Nat} {data : Bytes} (hoff : off ≤ f.length)
    (hend : off + data.length ≤ dataOffset + start * rowWidth) :
    shrunkRows (writeAll f off data) dataOffset rowWidth preWidth postOffset start n =
      shrunkRows f dataOffset rowWidth preWidth postOffset start n := by
  unfold shrunkRows
  refine List.flatMap_congr fun r _ => congrArg _ (slice_writeAll_of_disjoint hoff (Or.inr ?_))
  have := Nat.mul_le_mul_right rowWidth (show start ≤ start + r by omega)
  omega

/-- Rows that lose no field are the rows of the file. -/
theorem shrunkRows_same (n : Nat) :
    shrunkRows f dataOffset rowWidth preWidth preWidth 0 n = slice f dataOffset (n * rowWidth) := by
  induction n with
  | zero => simp [shrunkRows]
  | succ n ih =>
    have hone : shrunkRows f dataOffset rowWidth preWidth preWidth (0 + n) 1 =
        slice f (dataOffset + n * rowWidth) rowWidth := by
      simp [shrunkRows, shrunkRow]
    rw [shrunkRows_add, ih, hone, Nat.succ_mul, slice_add]

/-- Every row from `rowStart` on loses the field. -/
theorem deleteStrips_eq {postOffset nrows : Nat} (hpre : preWidth ≤ postOffset)
    (hpost : postOffset ≤ rowWidth) (hnew : newRowWidth = rowWidth - (postOffset - preWidth))
    (hstrip : 0 < strip) :
    ∀ {fuel rowStart : Nat} {s : Fits}, rowStart ≤ nrows → nrows - rowStart ≤ fuel →
      dataOffset + nrows * rowWidth ≤ s.bytes.length →
      deleteStrips context dataOffset rowWidth newRowWidth preWidth strip postOffset nrows fuel
          rowStart s =
        .ok () ⟨writeAll s.bytes (dataOffset + rowStart * newRowWidth)
          (shrunkRows s.bytes dataOffset rowWidth preWidth postOffset rowStart (nrows - rowStart)),
            s.hdus⟩ := by
  have hle : newRowWidth ≤ rowWidth := by omega
  intro fuel
  induction fuel with
  | zero =>
    intro rowStart s hrow hfuel hlen
    rw [show nrows - rowStart = 0 by omega]
    simp [deleteStrips, shrunkRows, writeAll]
    rfl
  | succ fuel ih =>
    intro rowStart s hrow hfuel hlen
    by_cases hdone : nrows ≤ rowStart
    · rw [deleteStrips, if_pos hdone, show nrows - rowStart = 0 by omega]
      simp [shrunkRows, writeAll]
      rfl
    · obtain ⟨chunk, hchunk⟩ : ∃ chunk, min (nrows - rowStart) strip = chunk := ⟨_, rfl⟩
      have hrows : dataOffset + rowStart * rowWidth + chunk * rowWidth ≤ s.bytes.length := by
        have := Nat.mul_le_mul_right rowWidth (show rowStart + chunk ≤ nrows by omega)
        rw [Nat.add_mul] at this
        omega
      have hread : readAt context (dataOffset + rowStart * rowWidth) (chunk * rowWidth) s =
          .ok (slice s.bytes (dataOffset + rowStart * rowWidth) (chunk * rowWidth)) s := by
        rw [readAt, readExact_eq_some hrows]
      have hnewRows : ((List.range chunk).flatMap fun r => shrunkRow preWidth postOffset
          (slice (slice s.bytes (dataOffset + rowStart * rowWidth) (chunk * rowWidth))
            (r * rowWidth) rowWidth)) =
          shrunkRows s.bytes dataOffset rowWidth preWidth postOffset rowStart chunk := by
        unfold shrunkRows
        refine List.flatMap_congr fun r hr => ?_
        have hr' := List.mem_range.1 hr
        have hin := Nat.mul_le_mul_right rowWidth (show r + 1 ≤ chunk by omega)
        rw [Nat.succ_mul] at hin
        rw [slice_slice hin, Nat.add_mul, Nat.add_assoc]
      have hlength :
          (shrunkRows s.bytes dataOffset rowWidth preWidth postOffset rowStart chunk).length =
          chunk * newRowWidth := by
        rw [hnew]
        refine shrunkRows_length hpre hpost ?_
        rw [Nat.add_mul]
        omega
      have hroom : dataOffset + rowStart * newRowWidth + chunk * newRowWidth ≤ s.bytes.length := by
        have h1 := Nat.mul_le_mul_left rowStart hle
        have h2 := Nat.mul_le_mul_left chunk hle
        omega
      have hsize : (writeAll s.bytes (dataOffset + rowStart * newRowWidth)
          (shrunkRows s.bytes dataOffset rowWidth preWidth postOffset rowStart chunk)).length =
            s.bytes.length := writeAll_length_of_le (by rw [hlength]; exact hroom)
      rw [deleteStrips, if_neg hdone, hchunk, FileOp.bind_ok hread, hnewRows,
        FileOp.bind_ok (writeAt_eq _ _ _), @ih (rowStart + chunk) _ (by omega) (by omega)
          (by dsimp only; omega)]
      -- the rows that are still to come have not been touched
      have hrest : shrunkRows (writeAll s.bytes (dataOffset + rowStart * newRowWidth)
          (shrunkRows s.bytes dataOffset rowWidth preWidth postOffset rowStart chunk)) dataOffset
            rowWidth preWidth postOffset (rowStart + chunk) (nrows - (rowStart + chunk)) =
          shrunkRows s.bytes dataOffset rowWidth preWidth postOffset (rowStart + chunk)
            (nrows - (rowStart + chunk)) := by
        refine shrunkRows_after (by omega) ?_
        rw [hlength, Nat.add_assoc, ← Nat.add_mul]
        exact Nat.add_le_add_left (Nat.mul_le_mul_left _ hle) _
      have hjoin := @writeAll_writeAll_append s.bytes
        (shrunkRows s.bytes dataOffset rowWidth preWidth postOffset rowStart chunk)
        (shrunkRows s.bytes dataOffset rowWidth preWidth postOffset (rowStart + chunk)
          (nrows - (rowStart + chunk))) (dataOffset + rowStart * newRowWidth) (by omega)
      rw [hlength, Nat.add_assoc, ← Nat.add_mul] at hjoin
      dsimp only
      rw [hrest, hjoin, show nrows - rowStart = chunk + (nrows - (rowStart + chunk)) by omega,
        shrunkRows_add]

theorem shuffleMainForDelete_eq {postOffset nrows : Nat} {s : Fits} (hpre : preWidth ≤ postOffset)
    (hpost : postOffset ≤ rowWidth) (hnew : newRowWidth = rowWidth - (postOffset - preWidth))
    (hlen : dataOffset + nrows * rowWidth ≤ s.bytes.length) :
    shuffleMainForDelete context dataOffset nrows rowWidth newRowWidth preWidth postOffset s =
      .ok () ⟨writeAll s.bytes dataOffset
        (shrunkRows s.bytes dataOffset rowWidth preWidth postOffset 0 nrows), s.hdus⟩ := by
  unfold shuffleMainForDelete
  split_ifs with hskip
  · -- nothing to do: the rows stay as they are
    have hrows : shrunkRows s.bytes dataOffset rowWidth preWidth postOffset 0 nrows =
        slice s.bytes dataOffset (nrows * rowWidth) := by
      rcases hskip with rfl | hsame
      · simp [shrunkRows]
      · obtain rfl : postOffset = preWidth := by omega
        exact shrunkRows_same nrows
    rw [hrows, writeAll_slice_self hlen]
    rfl
  · rw [not_or] at hskip
    have := @deleteStrips_eq rowWidth newRowWidth preWidth dataOffset (stripRows rowWidth nrows)
      context postOffset nrows hpre hpost hnew (stripRows_pos hskip.1) nrows 0 s (Nat.zero_le _)
      (Nat.le_refl _) hlen
    rw [this, Nat.zero_mul, Nat.add_zero, Nat.sub_zero]

end

/-! ## The data section -/

/-- The data section gets the length of the new rows, and keeps what lies in front of
both ends. -/
theorem growOrShrinkDataExtent_run {base s : Fits} {idx : Nat} {h cur : Hdu} {oldDataBytes : Nat}
    (newDataBytes : Nat) (ho : Opened base idx h)
    (hw : Window base idx h cur (cur.offsets.dataOffset + roundUpToBlock oldDataBytes) s) :
    ∃ s', growOrShrinkDataExtent cur.offsets.dataOffset oldDataBytes newDataBytes s = .ok () s' ∧
      Window base idx h cur (cur.offsets.dataOffset + roundUpToBlock newDataBytes) s' ∧
      ∀ n, n ≤ cur.offsets.dataOffset + roundUpToBlock oldDataBytes →
        n ≤ cur.offsets.dataOffset + roundUpToBlock newDataBytes →
        s'.bytes.take n = s.bytes.take n := by
  have hle := hw.le_length
  have hstart := hw.start
  have hheader := hw.headerOffset_lt
  unfold growOrShrinkDataExtent
  dsimp only
  by_cases hsame : roundUpToBlock newDataBytes = roundUpToBlock oldDataBytes
  · rw [if_pos hsame, hsame]
    exact ⟨s, rfl, hw, fun _ _ _ => rfl⟩
  · rw [if_neg hsame, FileOp.get_bind]
    by_cases hlast : base.hdus.drop (idx + 1) = []
    · -- the last HDU: the file gets another length
      have hend := hw.length_of_last ho hlast
      have hless : ¬ cur.offsets.dataOffset + roundUpToBlock oldDataBytes < s.bytes.length := by
        omega
      rw [if_neg hless, if_neg hless]
      split_ifs with hgrow
      · exact ⟨_, rfl, hw.extend ho hlast (by omega), fun n h1 h2 => take_setLen (by omega) h2⟩
      · exact ⟨_, rfl, hw.truncate ho hlast (by omega) (by omega),
          fun n h1 h2 => take_setLen (by omega) h2⟩
    · have hmore : cur.offsets.dataOffset + roundUpToBlock oldDataBytes < s.bytes.length := by
        by_contra hnot
        refine hlast (ho.last_of_length ?_)
        have := hw.length ho
        omega
      rw [if_pos hmore, if_pos hmore]
      split_ifs with hgrow
      · obtain ⟨s₁, hshift, hwin, hbytes⟩ := hw.shiftTail ho
          (roundUpToBlock newDataBytes - roundUpToBlock oldDataBytes) (by omega) (Nat.le_refl _)
        rw [show cur.offsets.dataOffset + roundUpToBlock oldDataBytes +
          (roundUpToBlock newDataBytes - roundUpToBlock oldDataBytes) =
            cur.offsets.dataOffset + roundUpToBlock newDataBytes by omega] at hwin
        rw [FileOp.bind_ok hshift]
        refine ⟨_, writeAt_eq _ _ _, hwin.write (by omega) ?_, fun n h1 h2 => ?_⟩
        · rw [List.length_replicate]
          omega
        · have hroom := hwin.le_length
          dsimp only
          rw [take_writeAll_of_le (by omega) h1, hbytes, take_openGap hle h1]
      · rw [shiftFileTailBackward_eq hle (by omega)]
        have hgap := @Window.closeGap _ _ _ _ _ _ ho hw
          (roundUpToBlock oldDataBytes - roundUpToBlock newDataBytes) (by omega)
        rw [show cur.offsets.dataOffset + roundUpToBlock oldDataBytes -
          (roundUpToBlock oldDataBytes - roundUpToBlock newDataBytes) =
            cur.offsets.dataOffset + roundUpToBlock newDataBytes by omega] at hgap
        refine ⟨_, rfl, hgap, fun n h1 h2 => ?_⟩
        dsimp only
        rw [closeGap, List.take_append_of_le_length (by rw [List.length_take]; omega),
          List.take_take, Nat.min_eq_left (by omega)]

end RustFits.ColumnEdit
