import RustFits.AsciiTable.Columns
import RustFits.Lib.Outcome
import RustFits.Lib.Fallible

/-!
# Row layouts of ASCII tables

What the loops over rows rely on: the columns of an accepted header lie in the row
and do not overlap (`AsciiColumnsValid`), so that the slice of a column stays inside the
row buffer.

`parse_ascii_columns` adds places and widths in words of 64 bits and compares the end of
a column with NAXIS1 where NAXIS1 is positive.  `PlacesFit` says which headers have no
other sums and widths.
-/

namespace RustFits.AsciiTable

open Ascii ByteFile Machine Outcome

/-! ## Rows in a buffer -/

section

variable {Cell Value σ : Type}

/-- The slice of a column in a row: its end is a sum of 64 bits. -/
def fieldEnd (col : AsciiColumn) : Nat := (col.byteOffset + col.byteWidth) % u64Size

/-- The row loop of `read_table` over the selected columns.  `convert` is the conversion
of a field, with the comparison with TNULL in front of it. -/
def readRow (convert : AsciiColumn → Bytes → Except PyErr Value) (srcRow : Bytes) :
    List AsciiColumn → Outcome PyErr (List Value)
  | [] => .ok []
  | col :: columns => do
    let src ← getRange srcRow col.byteOffset (fieldEnd col)
    let value ← ofExcept (convert col src)
    let values ← readRow convert srcRow columns
    .ok (value :: values)

/-- A span of disk rows that is read at once, with the place of each row in the output. -/
structure RunPlan where
  startDiskRow : Nat
  outputIndices : List Nat
  deriving DecidableEq, Repr

/-- The number of rows of a span. -/
def RunPlan.len (run : RunPlan) : Nat := run.outputIndices.length

/-- The loop of `process_runs` over the rows of a chunk. -/
def processRows (rowWidth : Nat) (onRow : Bytes → Nat → Nat → σ → Outcome PyErr σ) (chunk : Bytes)
    (run : RunPlan) (localOffset : Nat) : Nat → Nat → σ → Outcome PyErr σ
  | 0, _, state => .ok state
  | count + 1, rLocal, state => do
    let inRun := localOffset + rLocal
    let outputRow ← getAt run.outputIndices inRun
    let srcRow ← getRange chunk (rLocal * rowWidth) ((rLocal + 1) * rowWidth)
    let state ← onRow srcRow (run.startDiskRow + inRun) outputRow state
    processRows rowWidth onRow chunk run localOffset count (rLocal + 1) state

/-- The loop of `process_runs` over the chunks of a span. -/
def processChunks (bytes : Bytes) (dataOffset rowWidth rowsPerChunk : Nat)
    (onRow : Bytes → Nat → Nat → σ → Outcome PyErr σ) (run : RunPlan) : Nat → Nat → σ →
    Outcome PyErr σ
  | 0, _, _ => .fault
  | fuel + 1, localOffset, state =>
    if localOffset < run.len then do
      let thisRows := min rowsPerChunk (run.len - localOffset)
      let pos := dataOffset + (run.startDiskRow + localOffset) * rowWidth
      if bytes.length < pos + thisRows * rowWidth then
        .error (.io (str "failed to fill whole buffer"))
      else do
        let state ← processRows rowWidth onRow (slice bytes pos (thisRows * rowWidth)) run
            localOffset thisRows 0 state
        processChunks bytes dataOffset rowWidth rowsPerChunk onRow run fuel
          (localOffset + thisRows) state
    else .ok state

/-- `process_runs`. -/
def processRuns (bytes : Bytes) (dataOffset rowWidth rowsPerChunk : Nat)
    (onRow : Bytes → Nat → Nat → σ → Outcome PyErr σ) : List RunPlan → σ → Outcome PyErr σ
  | [], state => .ok state
  | run :: runs, state => do
    let state ← processChunks bytes dataOffset rowWidth rowsPerChunk onRow run (run.len + 1) 0 state
    processRuns bytes dataOffset rowWidth rowsPerChunk onRow runs state

/-- `read_ascii_table`, the rows with their places in the output.  `read_one_column` is the
case of one column.  Without a row width no row is read. -/
def readRows (convert : AsciiColumn → Bytes → Except PyErr Value) (bytes : Bytes)
    (dataOffset rowWidth : Nat)
    (columns : List AsciiColumn) (runs : List RunPlan) : Outcome PyErr (List (Nat × List Value)) :=
  if rowWidth = 0 then .ok []
  else
    processRuns bytes dataOffset rowWidth (max 1 (1048576 / rowWidth))
      (fun srcRow _ outputRow out => do
        let values ← readRow convert srcRow columns
        .ok (out ++ [(outputRow, values)])) runs []

/-- `format_one_cell`: the text of a cell goes into a slice, which keeps its length. -/
abbrev CellFormat (Cell : Type) : Type :=
  AsciiColumn → Cell → (dst : Bytes) → Except PyErr { out : Bytes // out.length = dst.length }

/-- `format_row`: the cells into the slices of their columns. -/
def formatRow (formatOneCell : CellFormat Cell) :
    List AsciiColumn → List Cell → Bytes → Outcome PyErr Bytes
  | col :: columns, cell :: cells, dst => do
    let cellDst ← getRange dst col.byteOffset (fieldEnd col)
    let text ← ofExcept (formatOneCell col cell cellDst)
    let dst ← putRange dst col.byteOffset (fieldEnd col) text.1
    formatRow formatOneCell columns cells dst
  | _, _, dst => .ok dst

/-- The rows of a chunk into the chunk buffer. -/
def formatRowsInto (formatOneCell : CellFormat Cell) (columns : List AsciiColumn) (rowWidth : Nat) :
    List (List Cell) → Nat → Bytes → Outcome PyErr Bytes
  | [], _, buf => .ok buf
  | row :: rows, r, buf => do
    let rowDst ← getRange buf (r * rowWidth) ((r + 1) * rowWidth)
    let rowDst ← formatRow formatOneCell columns row rowDst
    let buf ← putRange buf (r * rowWidth) ((r + 1) * rowWidth) rowDst
    formatRowsInto formatOneCell columns rowWidth rows (r + 1) buf

/-- The chunk loop of `write_ascii_table_data`, with the bytes that it writes. -/
def writeChunks (formatOneCell : CellFormat Cell) (columns : List AsciiColumn)
    (rowWidth rowsPerChunk : Nat) : Nat → List (List Cell) → Bytes → Bytes → Outcome PyErr Bytes
  | 0, _, _, _ => .fault
  | fuel + 1, rows, buf, out =>
    if rows = [] then .ok out
    else do
      let thisRows := rows.take rowsPerChunk
      let buf ← formatRowsInto formatOneCell columns rowWidth thisRows 0 buf
      let chunk ← getRange buf 0 (thisRows.length * rowWidth)
      writeChunks formatOneCell columns rowWidth rowsPerChunk fuel (rows.drop rowsPerChunk) buf
        (out ++ chunk)

/-- The rows of `write_ascii_table_data`. -/
def writeRows (formatOneCell : CellFormat Cell) (columns : List AsciiColumn)
    (rows : List (List Cell)) (rowWidth : Nat) : Outcome PyErr Bytes :=
  if rowWidth = 0 ∨ rows = [] then .ok []
  else
    let rowsPerChunk := max 1 (1048576 / rowWidth)
    writeChunks formatOneCell columns rowWidth rowsPerChunk (rows.length + 1) rows
      (List.replicate (rowsPerChunk * rowWidth) blank) []

/-! ### Inside the row -/

variable {columns : List AsciiColumn} {rowWidth : Nat}

/-- A column inside a row that can be counted ends at the sum of its place and width. -/
theorem fieldEnd_of_inside {col : AsciiColumn} (h : col.byteOffset + col.byteWidth ≤ rowWidth)
    (hrow : rowWidth < u64Size) : fieldEnd col = col.byteOffset + col.byteWidth :=
  Nat.mod_eq_of_lt (Nat.lt_of_le_of_lt h hrow)

theorem readRow_guarantees (convert : AsciiColumn → Bytes → Except PyErr Value) {srcRow : Bytes}
    (hrow : srcRow.length < u64Size)
    (h : ∀ col ∈ columns, col.byteOffset + col.byteWidth ≤ srcRow.length) :
    Guarantees (fun _ => True) (readRow convert srcRow columns) := by
  induction columns with
  | nil => trivial
  | cons col columns ih =>
    obtain ⟨hcol, hrest⟩ := List.forall_mem_cons.1 h
    have hend := fieldEnd_of_inside hcol hrow
    rw [readRow, getRange_of_le (by omega) (by omega), ok_bind]
    refine (Guarantees.ofExcept (P := fun _ => True) fun _ _ => trivial).bind fun value _ => ?_
    exact (ih hrest).bind fun values _ => trivial

theorem mul_rows_le {r count rowWidth len : Nat} (h : (r + (count + 1)) * rowWidth ≤ len) :
    r * rowWidth ≤ (r + 1) * rowWidth ∧ (r + 1) * rowWidth ≤ len ∧
    (r + 1) * rowWidth - r * rowWidth = rowWidth := by
  have hmono : (r + 1) * rowWidth ≤ (r + (count + 1)) * rowWidth :=
    Nat.mul_le_mul_right _ (by omega)
  rw [Nat.succ_mul] at hmono ⊢
  omega

section

variable {bytes : Bytes} {dataOffset rowsPerChunk : Nat}
    {onRow : Bytes → Nat → Nat → σ → Outcome PyErr σ}

theorem processRows_guarantees
    (hstep : ∀ srcRow : Bytes, srcRow.length = rowWidth → ∀ diskRow outputRow state,
      Guarantees (fun _ => True) (onRow srcRow diskRow outputRow state))
    {chunk : Bytes} {run : RunPlan} {localOffset : Nat} :
    ∀ (count rLocal : Nat) (state : σ), (rLocal + count) * rowWidth ≤ chunk.length →
      localOffset + (rLocal + count) ≤ run.len →
      Guarantees (fun _ => True)
        (processRows rowWidth onRow chunk run localOffset count rLocal state) := by
  intro count
  induction count with
  | zero => exact fun rLocal state _ _ => trivial
  | succ count ih =>
    intro rLocal state hchunk hrun
    obtain ⟨hstart, hstop, hwidth⟩ := mul_rows_le hchunk
    unfold RunPlan.len at hrun
    rw [processRows,
      getAt_of_lt (show localOffset + rLocal < run.outputIndices.length by omega) 0, ok_bind,
      getRange_of_le hstart hstop, ok_bind]
    have hlen :
        ((chunk.drop (rLocal * rowWidth)).take
          ((rLocal + 1) * rowWidth - rLocal * rowWidth)).length =
        rowWidth := by
      rw [List.length_take, List.length_drop]
      omega
    refine (hstep _ hlen _ _ state).bind fun next _ => ?_
    exact ih (rLocal + 1) next (by rwa [Nat.add_assoc, Nat.add_comm 1])
      (by unfold RunPlan.len; omega)

/-- A round that does not end the loop reads rows. -/
theorem processChunks_guarantees
    (hstep : ∀ srcRow : Bytes, srcRow.length = rowWidth → ∀ diskRow outputRow state,
      Guarantees (fun _ => True) (onRow srcRow diskRow outputRow state))
    (hpos : 0 < rowsPerChunk) {run : RunPlan} :
    ∀ (fuel localOffset : Nat) (state : σ), localOffset ≤ run.len → run.len < localOffset + fuel →
      Guarantees (fun _ => True)
        (processChunks bytes dataOffset rowWidth rowsPerChunk onRow run fuel
          localOffset state) := by
  intro fuel
  induction fuel with
  | zero =>
    intro localOffset state hle hfuel
    omega
  | succ fuel ih =>
    intro localOffset state hle hfuel
    rw [processChunks]
    by_cases hmore : localOffset < run.len
    · rw [if_pos hmore]
      dsimp only
      by_cases hend : bytes.length < dataOffset + (run.startDiskRow + localOffset) * rowWidth +
          min rowsPerChunk (run.len - localOffset) * rowWidth
      · rw [if_pos hend]
        trivial
      rw [if_neg hend]
      refine (processRows_guarantees hstep _ 0 state ?_ (by omega)).bind fun next _ => ?_
      · rw [slice_length, Nat.zero_add]
        omega
      · exact ih _ next (by omega) (by omega)
    · rw [if_neg hmore]
      trivial

theorem processRuns_guarantees
    (hstep : ∀ srcRow : Bytes, srcRow.length = rowWidth → ∀ diskRow outputRow state,
      Guarantees (fun _ => True) (onRow srcRow diskRow outputRow state))
    (hpos : 0 < rowsPerChunk) (runs : List RunPlan) (state : σ) :
    Guarantees (fun _ => True)
      (processRuns bytes dataOffset rowWidth rowsPerChunk onRow runs state) := by
  induction runs generalizing state with
  | nil => trivial
  | cons run runs ih =>
    rw [processRuns]
    exact (processChunks_guarantees hstep hpos _ 0 state (Nat.zero_le _) (by omega)).bind
      fun next _ => ih next

end

/-- Rows of columns that lie in the row are read without a fault. -/
theorem readRows_guarantees (convert : AsciiColumn → Bytes → Except PyErr Value) (bytes : Bytes)
    (dataOffset : Nat) (hrow : rowWidth < u64Size)
    (h : ∀ col ∈ columns, col.byteOffset + col.byteWidth ≤ rowWidth) (runs : List RunPlan) :
    Guarantees (fun _ => True) (readRows convert bytes dataOffset rowWidth columns runs) := by
  unfold readRows
  by_cases hzero : rowWidth = 0
  · rw [if_pos hzero]
    trivial
  rw [if_neg hzero]
  refine processRuns_guarantees (fun srcRow hlen diskRow outputRow out => ?_) (by omega) runs []
  exact (readRow_guarantees convert (by rwa [hlen]) (by rwa [hlen])).bind fun values _ => trivial

theorem formatRow_guarantees (formatOneCell : CellFormat Cell) (hrow : rowWidth < u64Size)
    (h : ∀ col ∈ columns, col.byteOffset + col.byteWidth ≤ rowWidth)
    (cells : List Cell) {dst : Bytes} (hdst : dst.length = rowWidth) :
    Guarantees (fun out => out.length = rowWidth) (formatRow formatOneCell columns cells dst) := by
  induction columns generalizing cells dst with
  | nil => exact hdst
  | cons col columns ih =>
    cases cells with
    | nil => exact hdst
    | cons cell cells =>
      obtain ⟨hcol, hrest⟩ := List.forall_mem_cons.1 h
      have hend := fieldEnd_of_inside hcol hrow
      rw [formatRow, getRange_of_le (by omega) (by omega), ok_bind]
      refine (Guarantees.ofExcept (P := fun text =>
        text.1.length = fieldEnd col - col.byteOffset) ?_).bind ?_
      · intro text _
        rw [text.2, List.length_take, List.length_drop]
        omega
      · intro text htext
        rw [putRange_of_le (by omega) (by omega) htext, ok_bind]
        refine ih hrest cells ?_
        rw [List.length_append, List.length_append, List.length_take, List.length_drop, htext]
        omega

theorem formatRowsInto_guarantees (formatOneCell : CellFormat Cell) (hrow : rowWidth < u64Size)
    (h : ∀ col ∈ columns, col.byteOffset + col.byteWidth ≤ rowWidth) {len : Nat} :
    ∀ (rows : List (List Cell)) (r : Nat) {buf : Bytes}, buf.length = len →
      (r + rows.length) * rowWidth ≤ len →
      Guarantees (fun out => out.length = len)
        (formatRowsInto formatOneCell columns rowWidth rows r buf) := by
  intro rows
  induction rows with
  | nil => exact fun r buf hbuf _ => hbuf
  | cons row rows ih =>
    intro r buf hbuf hroom
    rw [List.length_cons] at hroom
    obtain ⟨hstart, hstop, hwidth⟩ := mul_rows_le hroom
    have hlen : ((buf.drop (r * rowWidth)).take ((r + 1) * rowWidth - r * rowWidth)).length =
        rowWidth := by
      rw [List.length_take, List.length_drop]
      omega
    rw [formatRowsInto, getRange_of_le hstart (by omega), ok_bind]
    refine (formatRow_guarantees formatOneCell hrow h row hlen).bind fun rowDst hdst => ?_
    rw [putRange_of_le hstart (by omega) (by omega), ok_bind]
    refine ih (r + 1) ?_ (by rwa [Nat.add_assoc, Nat.add_comm 1])
    rw [List.length_append, List.length_append, List.length_take, List.length_drop, hdst]
    omega

theorem writeChunks_guarantees (formatOneCell : CellFormat Cell) (hrow : rowWidth < u64Size)
    (h : ∀ col ∈ columns, col.byteOffset + col.byteWidth ≤ rowWidth) {rowsPerChunk : Nat}
    (hpos : 0 < rowsPerChunk) :
    ∀ (fuel : Nat) (rows : List (List Cell)) {buf : Bytes} (out : Bytes), rows.length < fuel →
      buf.length = rowsPerChunk * rowWidth →
      Guarantees (fun _ => True)
        (writeChunks formatOneCell columns rowWidth rowsPerChunk fuel rows buf out) := by
  intro fuel
  induction fuel with
  | zero =>
    intro rows buf out hfuel _
    exact absurd hfuel (Nat.not_lt_zero _)
  | succ fuel ih =>
    intro rows buf out hfuel hbuf
    rw [writeChunks]
    by_cases hnil : rows = []
    · rw [if_pos hnil]
      trivial
    have hlen := List.length_pos_iff.2 hnil
    have hroom : (rows.take rowsPerChunk).length * rowWidth ≤ rowsPerChunk * rowWidth :=
      Nat.mul_le_mul_right _ (List.length_take_le _ _)
    rw [if_neg hnil]
    dsimp only
    refine (formatRowsInto_guarantees formatOneCell hrow h _ 0 hbuf (by rwa [Nat.zero_add])).bind
      fun buf' hbuf' => ?_
    rw [getRange_of_le (Nat.zero_le _) (by omega), ok_bind]
    exact ih (rows.drop rowsPerChunk) _ (by rw [List.length_drop]; omega) hbuf'

/-- Rows of columns that lie in the row are written without a fault. -/
theorem writeRows_guarantees (formatOneCell : CellFormat Cell) (hrow : rowWidth < u64Size)
    (h : ∀ col ∈ columns, col.byteOffset + col.byteWidth ≤ rowWidth) (rows : List (List Cell)) :
    Guarantees (fun _ => True) (writeRows formatOneCell columns rows rowWidth) := by
  unfold writeRows
  by_cases hempty : rowWidth = 0 ∨ rows = []
  · rw [if_pos hempty]
    trivial
  · rw [if_neg hempty]
    exact writeChunks_guarantees formatOneCell hrow h (by omega) _ rows [] (Nat.lt_succ_self _)
      List.length_replicate

end

/-! ## Accepted headers -/

/-- The place of column `i`, from zero, as its card declares it. -/
def declaredPlace (cards : List Card) (i : Nat) : Nat :=
  (((parseKeyword cards (tbcolKey i)).getD 1) - 1).toNat

/-- The width of column `i`, as its TFORM declares it. -/
def declaredWidth (cards : List Card) (i : Nat) : Nat :=
  (((parseStringKeyword cards (BinaryTable.tformKey i)).bind fun tform =>
    (parseAsciiTform tform i).toOption).map AsciiTformInfo.width).getD 0

/-- The number of columns. -/
def asciiTfields (cards : List Card) : Nat := ((parseKeyword cards (str "TFIELDS")).getD 0).toNat

/-- A table with columns has a row width, and the ends of the columns can be counted. -/
structure PlacesFit (cards : List Card) : Prop where
  naxis1 : 0 < asciiTfields cards → 0 < asciiRowWidth cards
  ends : ∀ i < asciiTfields cards, declaredPlace cards (i + 1) + declaredWidth cards
    (i + 1) < u64Size

/-- The columns lie in the row and do not overlap, and the loops over rows have no fault. -/
structure SafeRows (cards : List Card) (columns : List AsciiColumn) : Prop where
  layout : AsciiColumnsValid columns (asciiRowWidth cards)
  reads :
    ∀ {Value : Type} (convert : AsciiColumn → Bytes → Except PyErr Value) (bytes : Bytes)
      (dataOffset : Nat)
    (selected : List AsciiColumn) (runs : List RunPlan), (∀ col ∈ selected, col ∈ columns) →
    Guarantees (fun _ => True)
      (readRows convert bytes dataOffset (asciiRowWidth cards) selected runs)
  writes : ∀ {Cell : Type} (formatOneCell : CellFormat Cell) (rows : List (List Cell)),
    Guarantees (fun _ => True) (writeRows formatOneCell columns rows (asciiRowWidth cards))

/-- The row width is a word. -/
theorem asciiRowWidth_lt (cards : List Card) : asciiRowWidth cards < u64Size := by
  unfold asciiRowWidth u64Size
  cases hkey : parseKeyword cards (str "NAXIS1") with
  | none => decide
  | some v =>
    have hin := inI64_of_parseKeyword hkey
    unfold InI64 at hin
    rw [Option.getD_some]
    omega

section

variable {cards : List Card} {columns : List AsciiColumn}

theorem parseAsciiTform_width {tform : Str} {i : Nat} {info : AsciiTformInfo}
    (h : parseAsciiTform tform i = .ok info) : 0 < info.width ∧ info.width < u64Size := by
  unfold parseAsciiTform at h
  cases htext : trim tform with
  | nil =>
    rw [htext] at h
    cases h
  | cons first rest =>
    rw [htext] at h
    dsimp only at h
    split_ifs at h with hletter
    cases hwidth : parseU64 (trim (rest.takeWhile fun b => b != 0x2E)) with
    | none =>
      rw [hwidth] at h
      cases h
    | some width =>
      rw [hwidth] at h
      dsimp only at h
      split_ifs at h with hzero
      obtain ⟨decimals, -, hinfo⟩ := bind_eq_ok.1 h
      rw [← Except.ok.inj hinfo]
      exact ⟨Nat.pos_of_ne_zero hzero, parseU64_lt hwidth⟩

/-- What a column takes from its cards, and the check of its end. -/
theorem parseAsciiColumn_ok {naxis1 i : Nat} {col : AsciiColumn}
    (h : parseAsciiColumn cards naxis1 i = .ok col) :
    col.byteOffset = declaredPlace cards i ∧ col.byteWidth = declaredWidth cards i ∧
      0 < col.byteWidth ∧
      (0 < naxis1 → fieldEnd col ≤ naxis1) := by
  unfold parseAsciiColumn at h
  cases htbcol : parseKeyword cards (tbcolKey i) with
  | none =>
    rw [htbcol] at h
    cases h
  | some tbcol =>
    rw [htbcol] at h
    dsimp only at h
    by_cases hlow : tbcol < 1
    · rw [if_pos hlow] at h
      cases h
    rw [if_neg hlow] at h
    cases htform : parseStringKeyword cards (BinaryTable.tformKey i) with
    | none =>
      rw [htform] at h
      cases h
    | some tform =>
      rw [htform] at h
      obtain ⟨info, hinfo, hcol⟩ := bind_eq_ok.1 h
      by_cases hend : 0 < naxis1 ∧ naxis1 < ((tbcol - 1).toNat + info.width) % u64Size
      · rw [if_pos hend] at hcol
        cases hcol
      rw [if_neg hend] at hcol
      have hplace : declaredPlace cards i = (tbcol - 1).toNat := by
        rw [declaredPlace, htbcol, Option.getD_some]
      have hwidth : declaredWidth cards i = info.width := by
        rw [declaredWidth, htform, Option.bind_some, hinfo]
        rfl
      have hpos : 0 < info.width := (parseAsciiTform_width hinfo).1
      rw [← Except.ok.inj hcol, hplace, hwidth]
      refine ⟨rfl, rfl, hpos, fun hrow => ?_⟩
      show ((tbcol - 1).toNat + info.width) % u64Size ≤ naxis1
      omega

/-- The place and the width of a column are words. -/
theorem parseAsciiColumn_words {naxis1 i : Nat} {col : AsciiColumn}
    (h : parseAsciiColumn cards naxis1 i = .ok col) :
    col.byteOffset < u64Size ∧ col.byteWidth < u64Size := by
  obtain ⟨hplace, hwidth, -, -⟩ := parseAsciiColumn_ok h
  rw [hplace, hwidth]
  constructor
  · unfold declaredPlace u64Size
    cases hkey : parseKeyword cards (tbcolKey i) with
    | none => decide
    | some v =>
      have hin := inI64_of_parseKeyword hkey
      unfold InI64 at hin
      rw [Option.getD_some]
      omega
  · unfold declaredWidth
    cases htext : parseStringKeyword cards (BinaryTable.tformKey i) with
    | none => exact (by decide : 0 < u64Size)
    | some tform =>
      cases hinfo : parseAsciiTform tform i with
      | error e =>
        rw [Option.bind_some, hinfo]
        exact (by decide : 0 < u64Size)
      | ok info =>
        rw [Option.bind_some, hinfo]
        exact (parseAsciiTform_width hinfo).2

theorem parseAsciiColumns_ok (h : parseAsciiColumns cards = .ok columns) :
    (List.range (asciiTfields cards)).mapM
        (fun i => parseAsciiColumn cards (asciiRowWidth cards) (i + 1)) =
        .ok columns ∧
      checkOverlap (byPlace columns) = .ok () := by
  unfold parseAsciiColumns at h
  cases htfields : parseKeyword cards (str "TFIELDS") with
  | none =>
    rw [htfields] at h
    cases h
  | some tfields =>
    have hcount : asciiTfields cards = tfields.toNat := by
      rw [asciiTfields, htfields, Option.getD_some]
    rw [htfields] at h
    dsimp only at h
    by_cases hneg : tfields < 0
    · rw [if_pos hneg] at h
      cases h
    rw [if_neg hneg] at h
    obtain ⟨found, hfound, h⟩ := bind_eq_ok.1 h
    obtain ⟨_, hcheck, h⟩ := bind_eq_ok.1 h
    rw [hcount, ← Except.ok.inj h]
    exact ⟨hfound, hcheck⟩

/-- Where the ends are sums, each column of a checked list ends before the next one. -/
theorem checkOverlap_chain :
    ∀ {l : List (AsciiColumn × Nat)}, (∀ a ∈ l, fieldEnd a.1 = a.1.byteOffset + a.1.byteWidth) →
      checkOverlap l = .ok () →
      l.IsChain fun a b => a.1.byteOffset + a.1.byteWidth ≤ b.1.byteOffset := by
  intro l
  induction l with
  | nil => exact fun _ _ => List.isChain_nil
  | cons a l ih =>
    intro hends h
    cases l with
    | nil => exact List.isChain_singleton a
    | cons b rest =>
      obtain ⟨hend, hrest⟩ := List.forall_mem_cons.1 hends
      unfold fieldEnd at hend
      rw [checkOverlap, hend] at h
      by_cases hover : b.1.byteOffset < a.1.byteOffset + a.1.byteWidth
      · rw [if_pos hover] at h
        cases h
      · rw [if_neg hover] at h
        exact List.isChain_cons_cons.2 ⟨Nat.not_lt.1 hover, ih hrest h⟩

/-- The check of neighbours by place tells all pairs apart. -/
theorem checkOverlap_apart (hends : ∀ col ∈ columns, fieldEnd col = col.byteOffset + col.byteWidth)
    (h : checkOverlap (byPlace columns) = .ok ()) :
    columns.Pairwise fun a b =>
      a.byteOffset + a.byteWidth ≤ b.byteOffset ∨ b.byteOffset + b.byteWidth ≤ a.byteOffset := by
  have hperm : (byPlace columns).Perm columns.zipIdx := List.mergeSort_perm _ _
  have hmem : ∀ a ∈ byPlace columns, a.1 ∈ columns := by
    intro a ha
    have hfst := List.mem_map_of_mem (f := Prod.fst) (hperm.mem_iff.1 ha)
    rwa [List.zipIdx_map_fst] at hfst
  have : Trans (fun a b : AsciiColumn × Nat => a.1.byteOffset + a.1.byteWidth ≤ b.1.byteOffset)
      (fun a b : AsciiColumn × Nat => a.1.byteOffset + a.1.byteWidth ≤ b.1.byteOffset)
      (fun a b : AsciiColumn × Nat => a.1.byteOffset + a.1.byteWidth ≤ b.1.byteOffset) :=
    ⟨fun hab hbc => by omega⟩
  have hsorted := (checkOverlap_chain (fun a ha => hends a.1 (hmem a ha)) h).pairwise
  have happart : columns.zipIdx.Pairwise fun a b =>
      a.1.byteOffset + a.1.byteWidth ≤ b.1.byteOffset ∨ b.1.byteOffset + b.1.byteWidth ≤
        a.1.byteOffset :=
    (hperm.pairwise_iff fun hab => hab.symm).1 (hsorted.imp Or.inl)
  rw [← List.zipIdx_map_fst 0 columns, List.pairwise_map]
  exact happart

/-- The rows of an accepted header are safe exactly where its places fit. -/
theorem safeRows_iff (h : parseAsciiColumns cards = .ok columns) :
    SafeRows cards columns ↔ PlacesFit cards := by
  obtain ⟨hcolumns, hcheck⟩ := parseAsciiColumns_ok h
  have hrow := asciiRowWidth_lt cards
  constructor
  · -- a column inside the row has an end that is counted, and the row is not empty
    intro hsafe
    have hinside : ∀ i < asciiTfields cards, ∃ col,
        parseAsciiColumn cards (asciiRowWidth cards) (i + 1) = .ok col ∧
        col.byteOffset + col.byteWidth ≤ asciiRowWidth cards := by
      intro i hi
      obtain ⟨col, hcol, hparse⟩ := exists_of_mem_mapM_left hcolumns (List.mem_range.2 hi)
      exact ⟨col, hparse, hsafe.layout.inside col hcol⟩
    constructor
    · intro hsome
      obtain ⟨col, hparse, hin⟩ := hinside 0 hsome
      have hpos := (parseAsciiColumn_ok hparse).2.2.1
      omega
    · intro i hi
      obtain ⟨col, hparse, hin⟩ := hinside i hi
      obtain ⟨hplace, hwidth, -, -⟩ := parseAsciiColumn_ok hparse
      omega
  · intro hfit
    have hcol : ∀ col ∈ columns, fieldEnd col = col.byteOffset + col.byteWidth ∧
        col.byteOffset + col.byteWidth ≤ asciiRowWidth cards := by
      intro col hcol
      obtain ⟨i, hi, hparse⟩ := exists_of_mem_mapM hcolumns hcol
      have hi := List.mem_range.1 hi
      obtain ⟨hplace, hwidth, -, hchecked⟩ := parseAsciiColumn_ok hparse
      have hend : fieldEnd col = col.byteOffset + col.byteWidth := by
        refine Nat.mod_eq_of_lt ?_
        rw [hplace, hwidth]
        exact hfit.ends i hi
      exact ⟨hend, hend ▸ hchecked (hfit.naxis1 (Nat.zero_lt_of_lt hi))⟩
    refine ⟨⟨fun col hmem => (hcol col hmem).2,
      checkOverlap_apart (fun col hmem => (hcol col hmem).1) hcheck⟩, ?_, ?_⟩
    · intro Value convert bytes dataOffset selected runs hselected
      exact readRows_guarantees convert bytes dataOffset hrow (fun col hmem =>
        (hcol col (hselected col hmem)).2) runs
    · intro Cell formatOneCell rows
      exact writeRows_guarantees formatOneCell hrow (fun col hmem => (hcol col hmem).2) rows

end

/-! ### Headers -/

/-- The cards of a table with one column. -/
def oneColumn (naxis1 : Int) (tform : Str) : List Card :=
  [cardInt (str "NAXIS1") naxis1 (str "row"), cardInt (str "TFIELDS") 1 (str "columns"),
    cardInt (str "TBCOL1") 10 (str "place"), str "TFORM1  = '" ++ tform ++ str "'"]

/-- A name of four bytes, a blank, and a number of nine bytes. -/
def nameAndCount : List Card :=
  [cardInt (str "NAXIS1") 14 (str "row"), cardInt (str "TFIELDS") 2 (str "columns"),
    str "TTYPE1  = 'NAME'", cardInt (str "TBCOL1") 1 (str "place"), str "TFORM1  = 'A4'",
    str "TTYPE2  = 'COUNT'", cardInt (str "TBCOL2") 6 (str "place"), str "TFORM2  = 'I9'"]

theorem safeRows_nameAndCount :
    SafeRows nameAndCount [⟨str "NAME", 0x41, 0, 4, none⟩, ⟨str "COUNT", 0x49, 5, 9, none⟩] := by
  have hcolumns : (List.range (2 : Int).toNat).mapM (fun i =>
      parseAsciiColumn nameAndCount (asciiRowWidth nameAndCount) (i + 1)) =
        .ok [⟨str "NAME", 0x41, 0, 4, none⟩, ⟨str "COUNT", 0x49, 5, 9, none⟩] := by
    decide +kernel
  have hplaces : byPlace [⟨str "NAME", 0x41, 0, 4, none⟩, ⟨str "COUNT", 0x49, 5, 9, none⟩] =
      [(⟨str "NAME", 0x41, 0, 4, none⟩, 0), (⟨str "COUNT", 0x49, 5, 9, none⟩, 1)] :=
    List.mergeSort_of_pairwise (by decide)
  have hparse : parseAsciiColumns nameAndCount =
      .ok [⟨str "NAME", 0x41, 0, 4, none⟩, ⟨str "COUNT", 0x49, 5, 9, none⟩] := by
    unfold parseAsciiColumns
    rw [show parseKeyword nameAndCount (str "TFIELDS") = some 2 by decide +kernel]
    dsimp only
    rw [if_neg (by decide), hcolumns]
    show (checkOverlap (byPlace _) >>= fun _ => pure _) = _
    rw [hplaces]
    rfl
  have hfields : asciiTfields nameAndCount = 2 := by
    decide +kernel
  refine (safeRows_iff hparse).2 ⟨fun _ => by decide +kernel, ?_⟩
  rw [hfields]
  decide +kernel

/-- The end `9 + 18446744073709551610` is 3 in machine words, so that the header is
accepted, and the slice from 9 to 3 of the first row is a fault.  Without a row width
there is no check. -/
theorem not_safeRows_wraps :
    (parseAsciiColumns (oneColumn 8 (str "I18446744073709551610")) =
        .ok [⟨str "COL1", 0x49, 9, 18446744073709551610, none⟩] ∧
      ¬ SafeRows (oneColumn 8 (str "I18446744073709551610"))
        [⟨str "COL1", 0x49, 9, 18446744073709551610, none⟩]) ∧
      parseAsciiColumns (oneColumn 0 (str "A4")) = .ok [⟨str "COL1", 0x41, 9, 4, none⟩] ∧
      ¬ SafeRows (oneColumn 0 (str "A4")) [⟨str "COL1", 0x41, 9, 4, none⟩] := by
  refine ⟨⟨by decide +kernel, fun hsafe => ?_⟩, by decide +kernel, fun hsafe => ?_⟩
  · have hreads := hsafe.reads (fun _ src => .ok src) (List.replicate 8 0) 0 _ [⟨0, [0]⟩]
      fun col hcol => hcol
    have hfault : readRows (fun _ src => .ok src) (List.replicate 8 0) 0
        (asciiRowWidth (oneColumn 8 (str "I18446744073709551610")))
        [⟨str "COL1", 0x49, 9, 18446744073709551610, none⟩] [⟨0, [0]⟩] = .fault := by decide +kernel
    rw [hfault] at hreads
    exact hreads
  · have hinside := hsafe.layout.inside _ List.mem_cons_self
    exact absurd hinside (by decide +kernel)

end RustFits.AsciiTable
