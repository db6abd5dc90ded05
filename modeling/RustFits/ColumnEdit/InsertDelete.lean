import RustFits.ColumnEdit.Rows

/-!
# A column inserted and deleted again

`edit.rs` of `hdu_table` and `hdu_ascii_table`: `shuffle_main_for_delete` behind
`shuffle_main_for_insert`, for any number of rows and so for any division into strips.
-/

namespace RustFits.ColumnEdit

open Ascii ByteFile Machine

section

variable {dataOffset nrows rowWidth cellWidth preWidth : Nat} {f : Bytes} {text : Nat → Bytes}

/-- The field that was put in is the one that goes. -/
theorem shrunkRow_insertedRow {row new : Bytes} (hpre : preWidth ≤ row.length) :
    shrunkRow preWidth (preWidth + new.length) (insertedRow preWidth row new) = row := by
  have hfront : (row.take preWidth).length = preWidth := by
    rw [List.length_take]
    exact Nat.min_eq_left hpre
  have hboth : (row.take preWidth ++ new).length = preWidth + new.length := by
    rw [List.length_append, hfront]
  rw [shrunkRow, insertedRow, List.drop_left' hboth, List.append_assoc, List.take_left' hfront,
    List.take_append_drop]

theorem old_row_length {r : Nat} (hr : r < nrows)
    (hlen : dataOffset + nrows * (rowWidth + cellWidth) ≤ f.length) :
    (slice f (dataOffset + r * rowWidth) rowWidth).length = rowWidth := by
  have hrow := Nat.mul_le_mul_right rowWidth (Nat.succ_le_of_lt hr)
  rw [Nat.succ_mul] at hrow
  rw [Nat.mul_add] at hlen
  rw [slice_length]
  omega

/-- A row after the insertion. -/
theorem slice_newRows {r : Nat} (hr : r < nrows)
    (hlen : dataOffset + nrows * (rowWidth + cellWidth) ≤ f.length)
    (htext : ∀ r < nrows, (text r).length = cellWidth) :
    slice (newRows f dataOffset rowWidth preWidth text 0 nrows) (r * (rowWidth + cellWidth))
      (rowWidth + cellWidth) =
      insertedRow preWidth (slice f (dataOffset + r * rowWidth) rowWidth) (text r) := by
  have hwidth : ∀ r ∈ List.range nrows,
      (insertedRow preWidth (slice f (dataOffset + (0 + r) * rowWidth) rowWidth)
        (text (0 + r))).length =
        rowWidth + cellWidth := by
    intro r hr
    rw [Nat.zero_add]
    have hnew := htext r (List.mem_range.1 hr)
    exact insertedRow_length (old_row_length (List.mem_range.1 hr) hlen) (by omega)
      (Nat.le_add_right _ _)
  have hrow := slice_flatMap hwidth (List.getElem?_range hr)
  rwa [Nat.zero_add] at hrow

/-- The file in front of the rows and behind them. -/
theorem writeAll_frame {rows : Bytes} {w : Nat} (hrows : rows.length ≤ w)
    (hlen : dataOffset + w ≤ f.length) :
    (writeAll f dataOffset rows).length = f.length ∧
      (writeAll f dataOffset rows).take dataOffset = f.take dataOffset ∧
      (writeAll f dataOffset rows).drop (dataOffset + w) = f.drop (dataOffset + w) :=
  ⟨writeAll_length_of_le (by omega), take_writeAll_of_le (by omega) (Nat.le_refl _),
    drop_writeAll_of_le (by omega) (by omega)⟩

/-- Inserting a column puts its cell into every row and keeps the other fields, and deleting
it gives the old rows back.  Nothing else in the file changes. -/
theorem insert_delete_restores (context : Str) (text : Nat → Bytes)
    {cell : Nat → Except PyErr Bytes} {s : Fits}
    (hpre : preWidth ≤ rowWidth)
    (hlen : dataOffset + nrows * (rowWidth + cellWidth) ≤ s.bytes.length)
    (hcell : ∀ r < nrows, cell r = .ok (text r) ∧ (text r).length = cellWidth) :
    ∃ wide narrow,
      shuffleMainForInsert context dataOffset nrows rowWidth (rowWidth + cellWidth)
        preWidth cell s =
        .ok () ⟨wide, s.hdus⟩ ∧
      (∀ r < nrows, slice wide (dataOffset + r * (rowWidth + cellWidth)) (rowWidth + cellWidth) =
        insertedRow preWidth (slice s.bytes (dataOffset + r * rowWidth) rowWidth) (text r)) ∧
      shuffleMainForDelete context dataOffset nrows (rowWidth + cellWidth) rowWidth preWidth
        (preWidth + cellWidth)
        ⟨wide, s.hdus⟩ = .ok () ⟨narrow, s.hdus⟩ ∧
      slice narrow dataOffset (nrows * rowWidth) = slice s.bytes dataOffset (nrows * rowWidth) ∧
      ∀ file ∈ [wide, narrow], file.length = s.bytes.length ∧ file.take dataOffset =
        s.bytes.take dataOffset ∧
        file.drop (dataOffset + nrows * (rowWidth + cellWidth)) =
          s.bytes.drop (dataOffset + nrows * (rowWidth + cellWidth)) := by
  have htext : ∀ r < nrows, (text r).length = cellWidth := fun r hr => (hcell r hr).2
  have hnarrow : nrows * rowWidth ≤ nrows * (rowWidth + cellWidth) :=
    Nat.mul_le_mul_left nrows (Nat.le_add_right _ _)
  have hnew : (newRows s.bytes dataOffset rowWidth preWidth text 0 nrows).length =
      nrows * (rowWidth + cellWidth) :=
    newRows_length (Nat.le_add_right _ _) (by rw [Nat.zero_add]; omega) fun r _ hr => by
      rw [htext r (by omega)]
      omega
  have hinsert : shuffleMainForInsert context dataOffset nrows rowWidth (rowWidth + cellWidth)
      preWidth cell s = _ :=
    shuffleMainForInsert_eq (Nat.le_add_right rowWidth cellWidth) hlen
      fun r hr => ⟨(hcell r hr).1, by rw [htext r hr]; omega⟩
  have hframe := writeAll_frame (Nat.le_of_eq hnew) hlen
  generalize hwide :
      writeAll s.bytes dataOffset (newRows s.bytes dataOffset rowWidth preWidth text 0 nrows) = wide
    at hinsert hframe
  have hrow :
      ∀ r < nrows, slice wide (dataOffset + r * (rowWidth + cellWidth)) (rowWidth + cellWidth) =
      insertedRow preWidth (slice s.bytes (dataOffset + r * rowWidth) rowWidth) (text r) := by
    intro r hr
    have hin := Nat.mul_le_mul_right (rowWidth + cellWidth) (Nat.succ_le_of_lt hr)
    rw [Nat.succ_mul] at hin
    rw [← slice_slice hin, ← hwide, slice_writeAll_of_length (by omega) hnew,
      slice_newRows hr hlen htext]
  have hin : dataOffset + nrows * (rowWidth + cellWidth) ≤ wide.length := by
    rw [hframe.1]
    exact hlen
  have hdelete :
      shuffleMainForDelete context dataOffset nrows (rowWidth + cellWidth) rowWidth preWidth
      (preWidth + cellWidth) ⟨wide, s.hdus⟩ = _ :=
    shuffleMainForDelete_eq (Nat.le_add_right preWidth cellWidth)
      (Nat.add_le_add_right hpre cellWidth)
      (show rowWidth = rowWidth + cellWidth - (preWidth + cellWidth - preWidth) by omega) hin
  have hback :
      shrunkRows wide dataOffset (rowWidth + cellWidth) preWidth (preWidth + cellWidth) 0 nrows =
      slice s.bytes dataOffset (nrows * rowWidth) := by
    have hsame : shrunkRows s.bytes dataOffset rowWidth preWidth preWidth 0 nrows = _ :=
      shrunkRows_same nrows
    rw [← hsame]
    refine List.flatMap_congr fun r hr => ?_
    have hr' := List.mem_range.1 hr
    have hold := old_row_length hr' hlen
    rw [Nat.zero_add, hrow r hr', ← htext r hr',
      shrunkRow_insertedRow (by rw [hold]; exact hpre), shrunkRow, List.take_append_drop]
  rw [hback] at hdelete
  have hlength : (slice s.bytes dataOffset (nrows * rowWidth)).length = nrows * rowWidth := by
    rw [slice_length]
    omega
  have hagain := writeAll_frame (Nat.le_trans (Nat.le_of_eq hlength) hnarrow) hin
  refine ⟨wide, _, hinsert, hrow, hdelete,
    slice_writeAll_of_length (Nat.le_trans (Nat.le_add_right _ _) hin) hlength, ?_⟩
  intro file hfile
  rcases List.mem_pair.1 hfile with h | h
  · rw [h]
    exact hframe
  · rw [h]
    exact ⟨hagain.1.trans hframe.1, hagain.2.1.trans hframe.2.1, hagain.2.2.trans hframe.2.2⟩

end

/-- Two rows of two bytes, and a cell between the bytes. -/
theorem insert_delete_restores_middle :
    ∃ wide narrow,
      shuffleMainForInsert (str "table") 1 2 2 (2 + 1) 1 (fun r => .ok [UInt8.ofNat r])
        ⟨[9, 1, 2, 3, 4, 0, 0, 8], []⟩ = .ok () ⟨wide, []⟩ ∧
      (∀ r < 2, slice wide (1 + r * (2 + 1)) (2 + 1) =
        insertedRow 1 (slice [9, 1, 2, 3, 4, 0, 0, 8] (1 + r * 2) 2) [UInt8.ofNat r]) ∧
      shuffleMainForDelete (str "table") 1 2 (2 + 1) 2 1 (1 + 1) ⟨wide, []⟩ = .ok () ⟨narrow, []⟩ ∧
      slice narrow 1 (2 * 2) = slice [9, 1, 2, 3, 4, 0, 0, 8] 1 (2 * 2) ∧
      ∀ file ∈ [wide, narrow], file.length = 8 ∧ file.take 1 = [9] ∧
      file.drop (1 + 2 * (2 + 1)) = [8] :=
  insert_delete_restores (str "table") (fun r => [UInt8.ofNat r]) (by decide) (by decide)
    fun _ _ => ⟨rfl, rfl⟩

end RustFits.ColumnEdit
