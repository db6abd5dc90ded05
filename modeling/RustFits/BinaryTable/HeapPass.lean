import RustFits.BinaryTable.Columns
import RustFits.Lib.Fallible

/-!
# Reading the heap

`heap_pass` in `read.rs`: the variable-length cells of a read are sorted by their
heap offset and served from a chunk of the heap, which is loaded again when a cell
lies outside of it.  A load goes on over the cells that follow, within a budget.

* `takeEnd` is the end of a load, `plannedChunks` are the loads of a whole pass.
  Both look at offsets and lengths only.
* `serveCells_eq` is the loop: where the planned chunks lie inside the file, each
  cell is built from its own bytes.
* `heapPass_right_iff` puts it together.  An empty cell may point anywhere, and one
  that points behind the end of the file can draw a load there.
-/

namespace RustFits.BinaryTable

open Ascii ByteFile Machine

/-! ## Cells -/

/-- `VarCell`: a descriptor, and where its cell goes. -/
structure VarCell where
  outputRow : Nat
  colIdx : Nat
  nelements : Int
  heapOffset : Int
  deriving DecidableEq, Repr

/-- A cell of the result.  The numbers are left as the big-endian bytes of the file. -/
inductive CellValue where
  | bytes (src : Bytes)
  | text (s : Str)
  | bits (flags : List Bool)
  | logicals (flags : List Bool)
  | numbers (src : Bytes)
  deriving DecidableEq, Repr

/-- The bytes of a cell with elements of this letter. -/
def readLength (letter : UInt8) (n : Nat) : Except PyErr Nat :=
  if letter = 0x58 then .ok (divCeil n 8)
  else match bytesPerElement letter with
    | some elemSize => .ok (n * elemSize % u64Size)
    | none => .error (.panic (str "unwrap"))

/-- `build_var_cell_value`. -/
def buildVarCellValue (column : Column) (src : Bytes) (nelements row : Nat) (asBytes : Bool) :
    Except PyErr CellValue :=
  if column.tformLetter = 0x41 then
    if asBytes then .ok (.bytes src)
    else match src.findIdx? fun b => decide (0x80 ≤ b) with
      | some i =>
        let b := (src.getD i 0).toNat
        .error (.value (str "column '" ++ column.name ++ str "' row " ++ natDec row ++
          str " contains non-ASCII byte 0x" ++ [hexDigit (b / 16), hexDigit (b % 16)] ++
          str " at position " ++ natDec i ++
          str " (read this column with table.read_column('" ++ column.name ++
          str "', as_bytes=True) to get raw bytes)"))
      | none => .ok (.text src)
  else if column.tformLetter = 0x58 then
    if nelements = 0 then .ok (.bits [])
    else if src.length ≠ divCeil nelements 8 then
      .error (.io (str "variable X cell heap read length mismatch: got " ++ natDec src.length ++
        str " bytes, expected " ++ natDec (divCeil nelements 8) ++ str " (ceil(" ++
        natDec nelements ++ str " bits / 8))"))
    else .ok (.bits ((List.range nelements).map fun i =>
      (src.getD (i / 8) 0).toNat.testBit (7 - i % 8)))
  else
    match bytesPerElement column.tformLetter with
    | none => .error (.panic (str "unsupported variable inner letter"))
    | some elemSize =>
      if nelements = 0 then .ok (if column.tformLetter = 0x4C then .logicals [] else .numbers [])
      else if src.length ≠ nelements * elemSize then
        .error (.io (str "variable cell heap read length mismatch: got " ++ natDec src.length ++
          str " bytes, expected " ++ natDec (nelements * elemSize) ++ str " (" ++
          natDec nelements ++ str " elements " ++ [0xC3, 0x97, 0x20] ++ natDec elemSize ++ str ")"))
      else if column.tformLetter = 0x4C then .ok (.logicals (src.map fun b => b == 0x54))
      else .ok (.numbers src)

/-! ## The chunks -/

/-- `HEAP_CHUNK_BYTES`. -/
def heapChunkBytes : Nat := 1048576

/-- A cell in the order of the heap: its offset, its length and the rest of it. -/
structure PassCell where
  cell : VarCell
  column : Column
  offset : Nat
  length : Nat
  deriving DecidableEq, Repr

/-- `col.heap_offset as u64 + read_len`. -/
def PassCell.stop (c : PassCell) : Nat := c.offset + c.length

/-- The end of a load that starts at `start`: it goes on over the cells that follow.  The
first of them is taken whatever its distance.  The cells are sorted, so the differences
do not wrap. -/
def takeEnd (start : Nat) : Nat → Bool → List PassCell → Nat
  | stop, _, [] => stop
  | stop, first, next :: rest =>
    if heapChunkBytes < next.stop - start ∧ first = false then stop
    else if heapChunkBytes < max stop next.stop - start then max stop next.stop
    else takeEnd start (max stop next.stop) false rest

/-- The end of the load for a cell. -/
def loadEnd (c : PassCell) (rest : List PassCell) : Nat := takeEnd c.offset c.stop true rest

/-- The cell is outside of the resident range. -/
def isOutside (start stop : Nat) (c : PassCell) : Bool :=
  decide (start = stop) || decide (c.offset < start) || decide (stop < c.stop)

/-- `read_chunk`. -/
def readChunk (file : Bytes) (heapBase start stop : Nat) : Except PyErr Bytes :=
  match readExact file (heapBase + start) (stop - start) with
  | some buf => .ok buf
  | none => .error (.io (str "failed to fill whole buffer"))

/-- The loop over the sorted cells, with the chunk that is resident. -/
def serveCells (file : Bytes) (heapBase : Nat) (asBytes : Bool) :
    Nat → Bytes → List PassCell → Except PyErr (List (VarCell × CellValue))
  | _, _, [] => .ok []
  | chunkStart, buf, c :: rest => do
    let outside := isOutside chunkStart (chunkStart + buf.length) c
    let start := if outside then c.offset else chunkStart
    let buf ← if outside then readChunk file heapBase c.offset (loadEnd c rest) else pure buf
    let src ← sliceOf buf (c.offset - start) c.length
    let value ← buildVarCellValue c.column src c.cell.nelements.toNat c.cell.outputRow asBytes
    let values ← serveCells file heapBase asBytes start buf rest
    return (c.cell, value) :: values

/-- The checks of the descriptors. -/
def checkCell (columns : List Column) (cell : VarCell) : Except PyErr PassCell :=
  if cell.nelements < 0 ∨ cell.heapOffset < 0 then
    .error (.io (str "variable cell descriptor (nelements=" ++ intDec cell.nelements ++
      str ", heap_offset=" ++ intDec cell.heapOffset ++ str ") has negative values"))
  else match columns[cell.colIdx]? with
    | none => .error (.panic (str "index out of bounds"))
    | some column => do
      let length ← readLength column.tformLetter cell.nelements.toNat
      return ⟨cell, column, cell.heapOffset.toNat, length⟩

/-- `sort_by_key`, which is stable. -/
def sortCells (cells : List VarCell) : List VarCell :=
  cells.mergeSort fun a b => decide (a.heapOffset ≤ b.heapOffset)

/-- `heap_pass`: the assignments into the array, in order. -/
def heapPass (file : Bytes) (columns : List Column) (dataOffset theap : Nat) (cells : List VarCell)
    (asBytes : Bool) : Except PyErr (List (VarCell × CellValue)) := do
  let sorted ← (sortCells cells).mapM (checkCell columns)
  serveCells file (dataOffset + theap) asBytes 0 [] sorted

/-! ## The loop -/

/-- The loads of a pass, from the resident range on. -/
def plannedChunks : Nat → Nat → List PassCell → List (Nat × Nat)
  | _, _, [] => []
  | start, stop, c :: rest =>
    if isOutside start stop c then
      (c.offset, loadEnd c rest) :: plannedChunks c.offset (loadEnd c rest) rest
    else plannedChunks start stop rest

/-- A load that is empty or ends inside the file. -/
def Loadable (file : Bytes) (heapBase : Nat) (chunk : Nat × Nat) : Prop :=
  chunk.1 = chunk.2 ∨ heapBase + chunk.2 ≤ file.length

instance (file : Bytes) (heapBase : Nat) (chunk : Nat × Nat) :
    Decidable (Loadable file heapBase chunk) :=
  inferInstanceAs (Decidable (_ ∨ _))

/-- A cell, built from its own bytes of the heap. -/
def ownValue (file : Bytes) (heapBase : Nat) (asBytes : Bool) (c : PassCell) :
    Except PyErr (VarCell × CellValue) :=
  (buildVarCellValue c.column (slice file (heapBase + c.offset) c.length) c.cell.nelements.toNat
    c.cell.outputRow asBytes).map fun value => (c.cell, value)

section

variable {file buf : Bytes} {heapBase start stop chunkStart : Nat} {asBytes first : Bool}
  {c : PassCell} {cells rest : List PassCell} {out : List (VarCell × CellValue)}

theorem le_takeEnd : stop ≤ takeEnd start stop first rest := by
  induction rest generalizing stop first with
  | nil => exact Nat.le_refl _
  | cons next rest ih =>
    rw [takeEnd]
    split_ifs with hfar hlong
    · exact Nat.le_refl _
    · exact Nat.le_max_left _ _
    · exact Nat.le_trans (Nat.le_max_left _ _) ih

theorem stop_le_loadEnd : c.stop ≤ loadEnd c rest := le_takeEnd

theorem readChunk_ok_iff (h : start ≤ stop) : readChunk file heapBase start stop = .ok buf ↔
    Loadable file heapBase (start, stop) ∧ buf = slice file (heapBase + start) (stop - start) := by
  unfold readChunk readExact Loadable
  dsimp only
  by_cases hempty : stop - start = 0
  · rw [if_pos hempty, hempty, slice_zero]
    constructor
    · rintro ⟨⟩
      exact ⟨Or.inl (by omega), rfl⟩
    · rintro ⟨-, rfl⟩
      rfl
  · rw [if_neg hempty]
    by_cases hfit : heapBase + start + (stop - start) ≤ file.length
    · rw [if_pos hfit]
      constructor
      · rintro ⟨⟩
        exact ⟨Or.inr (by omega), rfl⟩
      · rintro ⟨-, rfl⟩
        rfl
    · rw [if_neg hfit]
      refine iff_of_false (fun h => by cases h) ?_
      rintro ⟨hload, -⟩
      omega

theorem isOutside_false (h : isOutside start stop c = false) :
    start ≤ c.offset ∧ c.stop ≤ stop := by
  simp only [isOutside, Bool.or_eq_false_iff, decide_eq_false_iff_not] at h
  omega

/-- The cells come out right as long as the planned loads lie inside the file. -/
theorem serveCells_ok_iff (hbuf : buf = slice file (heapBase + chunkStart) buf.length) :
    serveCells file heapBase asBytes chunkStart buf cells = .ok out ↔
      (∀ chunk ∈ plannedChunks chunkStart (chunkStart + buf.length) cells,
        Loadable file heapBase chunk) ∧
        cells.mapM (ownValue file heapBase asBytes) = .ok out := by
  induction cells generalizing chunkStart buf out with
  | nil => exact ⟨fun h => ⟨by simp [plannedChunks], h⟩, fun h => h.2⟩
  | cons c rest ih =>
    -- what is left once the cell lies in the buffer
    have hserve : ∀ {start : Nat} {buf : Bytes}, buf = slice file (heapBase + start) buf.length →
        start ≤ c.offset → c.stop ≤ start + buf.length →
        ((do
          let src ← sliceOf buf (c.offset - start) c.length
          let value ← buildVarCellValue c.column src c.cell.nelements.toNat c.cell.outputRow asBytes
          let values ← serveCells file heapBase asBytes start buf rest
          return (c.cell, value) :: values) = .ok out ↔
        (∀ chunk ∈ plannedChunks start (start + buf.length) rest, Loadable file heapBase chunk) ∧
          (c :: rest).mapM (ownValue file heapBase asBytes) = .ok out) := by
      intro start buf hbuf hstart hstop
      have hstop' : c.offset + c.length ≤ start + buf.length := hstop
      have hown : sliceOf buf (c.offset - start) c.length =
          .ok (slice file (heapBase + c.offset) c.length) := by
        rw [sliceOf_ok (by omega), hbuf, slice_slice (by omega)]
        congr 2
        omega
      rw [List.mapM_cons]
      constructor
      · intro h
        obtain ⟨src, hsrc, h⟩ := bind_eq_ok.1 h
        rw [hown] at hsrc
        cases hsrc
        obtain ⟨value, hvalue, h⟩ := bind_eq_ok.1 h
        obtain ⟨values, hvalues, h⟩ := bind_eq_ok.1 h
        obtain ⟨hplan, hrest⟩ := (ih hbuf).1 hvalues
        refine ⟨hplan, bind_eq_ok.2 ⟨(c.cell, value), map_eq_ok_iff.2 ⟨value, hvalue, rfl⟩, ?_⟩⟩
        exact bind_eq_ok.2 ⟨values, hrest, h⟩
      · rintro ⟨hplan, h⟩
        obtain ⟨p, hp, h⟩ := bind_eq_ok.1 h
        obtain ⟨value, hvalue, rfl⟩ := map_eq_ok_iff.1 hp
        obtain ⟨values, hvalues, h⟩ := bind_eq_ok.1 h
        refine bind_eq_ok.2 ⟨_, hown, bind_eq_ok.2 ⟨value, hvalue, ?_⟩⟩
        exact bind_eq_ok.2 ⟨values, (ih hbuf).2 ⟨hplan, hvalues⟩, h⟩
    rw [serveCells, plannedChunks]
    dsimp only
    cases houtside : isOutside chunkStart (chunkStart + buf.length) c with
    | false =>
      obtain ⟨hstart, hstop⟩ := isOutside_false houtside
      exact hserve hbuf hstart hstop
    | true =>
      have hle : c.offset ≤ loadEnd c rest := Nat.le_trans (Nat.le_add_right _ _) stop_le_loadEnd
      simp only [if_true, List.forall_mem_cons]
      rw [bind_eq_ok]
      -- once the load has succeeded the buffer ends where it was planned
      have hloaded : Loadable file heapBase (c.offset, loadEnd c rest) →
          let loaded := slice file (heapBase + c.offset) (loadEnd c rest - c.offset)
          c.offset + loaded.length = loadEnd c rest ∧
            loaded = slice file (heapBase + c.offset) loaded.length := by
        rintro hload
        have hlen : (slice file (heapBase + c.offset) (loadEnd c rest - c.offset)).length =
            loadEnd c rest - c.offset := by
          rw [slice_length]
          rcases hload with hempty | hfit
          · dsimp only at hempty
            omega
          · dsimp only at hfit
            omega
        dsimp only
        rw [hlen]
        exact ⟨by omega, rfl⟩
      constructor
      · rintro ⟨loaded, hload, h⟩
        obtain ⟨hloadable, rfl⟩ := (readChunk_ok_iff hle).1 hload
        obtain ⟨hend, hself⟩ := hloaded hloadable
        obtain ⟨hplan, hvalues⟩ := (hserve hself (Nat.le_refl _) (hend.symm ▸ stop_le_loadEnd)).1 h
        rw [hend] at hplan
        exact ⟨⟨hloadable, hplan⟩, hvalues⟩
      · rintro ⟨⟨hloadable, hplan⟩, hvalues⟩
        obtain ⟨hend, hself⟩ := hloaded hloadable
        refine ⟨_, (readChunk_ok_iff hle).2 ⟨hloadable, rfl⟩, ?_⟩
        refine (hserve hself (Nat.le_refl _) (hend.symm ▸ stop_le_loadEnd)).2 ⟨?_, hvalues⟩
        rw [hend]
        exact hplan

end

/-! ## What a pass does -/

/-- The length of a cell, not reduced to a machine word. -/
def exactCellLength (letter : UInt8) (n : Nat) : Nat :=
  if letter = 0x58 then divCeil n 8 else n * (bytesPerElement letter).getD 0

section

variable (file : Bytes) (columns : List Column) (dataOffset theap : Nat) (cells : List VarCell)
  (asBytes : Bool)

/-- The heap bytes of a cell with elements of this letter. -/
def cellBytes (letter : UInt8) (cell : VarCell) : Bytes :=
  slice file (dataOffset + theap + cell.heapOffset.toNat)
    (exactCellLength letter cell.nelements.toNat)

/-- A cell of the table: a descriptor that is not negative, and that lies inside the file
unless the cell is empty. -/
structure IsVarCell (cell : VarCell) : Prop where
  column : ∃ column, columns[cell.colIdx]? = some column ∧
    (column.tformLetter = 0x58 ∨ (bytesPerElement column.tformLetter).isSome = true)
  nelements : 0 ≤ cell.nelements
  heapOffset : 0 ≤ cell.heapOffset
  inside : cell.nelements ≠ 0 → ∀ column, columns[cell.colIdx]? = some column →
    dataOffset + theap + cell.heapOffset.toNat +
      exactCellLength column.tformLetter cell.nelements.toNat ≤ file.length

/-- Every cell is assigned once, and it is built from its own bytes. -/
def HeapPassRight : Prop :=
  ∃ out, heapPass file columns dataOffset theap cells asBytes = .ok out ∧
    (out.map Prod.fst).Perm cells ∧
    ∀ p ∈ out, ∃ column, columns[p.1.colIdx]? = some column ∧
      buildVarCellValue column (cellBytes file dataOffset theap column.tformLetter p.1)
        p.1.nelements.toNat p.1.outputRow asBytes = .ok p.2

/-- No load is planned past the end of the file, and texts are ASCII. -/
structure HeapReadable : Prop where
  chunks : ∀ sorted, (sortCells cells).mapM (checkCell columns) = .ok sorted →
    ∀ chunk ∈ plannedChunks 0 0 sorted, Loadable file (dataOffset + theap) chunk
  texts : ∀ cell ∈ cells, ∀ column, columns[cell.colIdx]? = some column →
    column.tformLetter = 0x41 →
    asBytes = false → ∀ b ∈ cellBytes file dataOffset theap 0x41 cell, b < 0x80

end

section

variable {file : Bytes} {columns : List Column} {column : Column} {dataOffset theap n row : Nat}
  {cells : List VarCell} {cell : VarCell} {asBytes : Bool} {src : Bytes} {letter : UInt8}

theorem exactCellLength_zero (letter : UInt8) : exactCellLength letter 0 = 0 := by
  unfold exactCellLength
  split_ifs
  · rfl
  · exact Nat.zero_mul _

theorem readLength_ok (hletter : letter = 0x58 ∨ (bytesPerElement letter).isSome = true)
    (hlt : exactCellLength letter n < u64Size) :
    readLength letter n = .ok (exactCellLength letter n) := by
  unfold exactCellLength at hlt
  unfold readLength exactCellLength
  split_ifs with hx
  · rfl
  · obtain ⟨size, hsize⟩ := Option.isSome_iff_exists.1 (hletter.resolve_left hx)
    rw [if_neg hx, hsize, Option.getD_some] at hlt
    rw [hsize, Option.getD_some]
    dsimp only
    rw [Nat.mod_eq_of_lt hlt]

/-- A cell is built unless it is a text that is not ASCII. -/
theorem buildVarCellValue_ok_iff
    (hletter : column.tformLetter = 0x58 ∨ (bytesPerElement column.tformLetter).isSome = true)
    (hlen : n ≠ 0 → src.length = exactCellLength column.tformLetter n) :
    (∃ value, buildVarCellValue column src n row asBytes = .ok value) ↔
      (column.tformLetter = 0x41 → asBytes = false → ∀ b ∈ src, b < 0x80) := by
  unfold buildVarCellValue
  by_cases htext : column.tformLetter = 0x41
  · rw [if_pos htext]
    cases asBytes with
    | true => simp
    | false =>
      rw [if_neg Bool.false_ne_true]
      cases hfind : src.findIdx? fun b => decide (0x80 ≤ b) with
      | some i =>
        obtain ⟨hlt, hb, -⟩ := List.findIdx?_eq_some_iff_getElem.1 hfind
        refine iff_of_false (by simp) fun h => ?_
        have hascii := h htext rfl _ (List.getElem_mem hlt)
        exact absurd (of_decide_eq_true hb) (UInt8.not_le.2 hascii)
      | none =>
        rw [List.findIdx?_eq_none_iff] at hfind
        refine iff_of_true ⟨_, rfl⟩ fun _ _ b hb => ?_
        simpa using hfind b hb
  · refine iff_of_true ?_ fun h => absurd h htext
    rw [if_neg htext]
    unfold exactCellLength at hlen
    by_cases hx : column.tformLetter = 0x58
    · rw [if_pos hx] at hlen ⊢
      split_ifs with hzero hbad
      · exact ⟨_, rfl⟩
      · exact absurd (hlen hzero) hbad
      · exact ⟨_, rfl⟩
    · obtain ⟨size, hsize⟩ := Option.isSome_iff_exists.1 (hletter.resolve_left hx)
      rw [if_neg hx, hsize, Option.getD_some] at hlen
      rw [if_neg hx, hsize]
      dsimp only
      by_cases hzero : n = 0
      · rw [if_pos hzero]
        exact ⟨_, rfl⟩
      · rw [if_neg hzero, if_neg (not_not.2 (hlen hzero))]
        split_ifs
        · exact ⟨_, rfl⟩
        · exact ⟨_, rfl⟩

/-- The descriptor of a cell passes the checks. -/
theorem checkCell_ok (hfile : file.length < u64Size)
    (h : IsVarCell file columns dataOffset theap cell)
    (hcolumn : columns[cell.colIdx]? = some column) :
    checkCell columns cell = .ok ⟨cell, column, cell.heapOffset.toNat,
      exactCellLength column.tformLetter cell.nelements.toNat⟩ := by
  obtain ⟨column', hcolumn', hletter⟩ := h.column
  rw [hcolumn] at hcolumn'
  cases hcolumn'
  have hlt : exactCellLength column.tformLetter cell.nelements.toNat < u64Size := by
    by_cases hempty : cell.nelements = 0
    · rw [hempty, Int.toNat_zero, exactCellLength_zero]
      decide
    · have hinside := h.inside hempty column hcolumn
      omega
  unfold checkCell
  rw [if_neg (by have := h.nelements; have := h.heapOffset; omega), hcolumn]
  dsimp only
  rw [readLength_ok hletter hlt]
  rfl

theorem checkCell_cell {c : PassCell} (h : checkCell columns cell = .ok c) : c.cell = cell := by
  unfold checkCell at h
  split_ifs at h
  cases hcolumn : columns[cell.colIdx]? with
  | none =>
    rw [hcolumn] at h
    cases h
  | some column =>
    rw [hcolumn] at h
    obtain ⟨len, -, h⟩ := bind_eq_ok.1 h
    cases h
    rfl

theorem mem_sortCells : cell ∈ sortCells cells ↔ cell ∈ cells := (List.mergeSort_perm _ _).mem_iff

theorem ownValue_ok_iff {p : VarCell × CellValue} {len : Nat} :
    ownValue file (dataOffset + theap) asBytes ⟨cell, column, cell.heapOffset.toNat, len⟩ = .ok p ↔
      p.1 = cell ∧ buildVarCellValue column
        (slice file (dataOffset + theap + cell.heapOffset.toNat) len) cell.nelements.toNat
          cell.outputRow asBytes = .ok p.2 := by
  rw [ownValue, map_eq_ok_iff]
  constructor
  · rintro ⟨value, hvalue, rfl⟩
    exact ⟨rfl, hvalue⟩
  · rintro ⟨rfl, hvalue⟩
    exact ⟨p.2, hvalue, rfl⟩

/-- The pass over the cells of a table, once they are sorted and checked. -/
theorem heapPass_ok_iff {sorted : List PassCell} {out : List (VarCell × CellValue)}
    (hsorted : (sortCells cells).mapM (checkCell columns) = .ok sorted) :
    heapPass file columns dataOffset theap cells asBytes = .ok out ↔
      (∀ chunk ∈ plannedChunks 0 0 sorted, Loadable file (dataOffset + theap) chunk) ∧
        sorted.mapM (ownValue file (dataOffset + theap) asBytes) = .ok out := by
  unfold heapPass
  rw [hsorted]
  have hserve := @serveCells_ok_iff file [] (dataOffset + theap) 0 asBytes sorted out (by simp)
  exact hserve

theorem buildVarCellValue_own_iff (hcell : IsVarCell file columns dataOffset theap cell)
    (hcolumn : columns[cell.colIdx]? = some column) :
    (∃ value, buildVarCellValue column (cellBytes file dataOffset theap column.tformLetter cell)
      cell.nelements.toNat row asBytes = .ok value) ↔
      (column.tformLetter = 0x41 → asBytes = false →
        ∀ b ∈ cellBytes file dataOffset theap column.tformLetter cell, b < 0x80) := by
  obtain ⟨column', hcolumn', hletter⟩ := hcell.column
  rw [hcolumn] at hcolumn'
  cases hcolumn'
  refine buildVarCellValue_ok_iff hletter fun hne => ?_
  have hinside := hcell.inside (by rintro h; rw [h] at hne; exact hne rfl) column hcolumn
  rw [cellBytes, slice_length]
  omega

/-- Every cell gets its own bytes exactly when no load is planned past the end of the file
and all texts are ASCII. -/
theorem heapPass_right_iff (hfile : file.length < u64Size)
    (hcells : ∀ cell ∈ cells, IsVarCell file columns dataOffset theap cell) :
    HeapPassRight file columns dataOffset theap cells asBytes ↔
      HeapReadable file columns dataOffset theap cells asBytes := by
  have hcheck : ∀ {cell column}, cell ∈ cells → columns[cell.colIdx]? = some column →
      checkCell columns cell = .ok ⟨cell, column, cell.heapOffset.toNat,
        exactCellLength column.tformLetter cell.nelements.toNat⟩ :=
    fun hcell hcolumn => checkCell_ok hfile (hcells _ hcell) hcolumn
  obtain ⟨sorted, hsorted⟩ : ∃ sorted, (sortCells cells).mapM (checkCell columns) = .ok sorted := by
    rw [exists_mapM_ok]
    intro cell hcell
    obtain ⟨column, hcolumn, -⟩ := (hcells cell (mem_sortCells.1 hcell)).column
    exact ⟨_, hcheck (mem_sortCells.1 hcell) hcolumn⟩
  have hpass := @heapPass_ok_iff file columns dataOffset theap cells asBytes sorted
  -- a sorted cell is one of the cells with its column
  have hheap : ∀ c ∈ sorted, ∃ cell ∈ cells, ∃ column, columns[cell.colIdx]? = some column ∧
      c = ⟨cell, column, cell.heapOffset.toNat,
        exactCellLength column.tformLetter cell.nelements.toNat⟩ := by
    intro c hc
    obtain ⟨cell, hcell, hok⟩ := exists_of_mem_mapM hsorted hc
    obtain ⟨column, hcolumn, -⟩ := (hcells cell (mem_sortCells.1 hcell)).column
    rw [hcheck (mem_sortCells.1 hcell) hcolumn] at hok
    exact ⟨cell, mem_sortCells.1 hcell, column, hcolumn, (Except.ok.inj hok).symm⟩
  have hcellMap : sorted.map PassCell.cell = sortCells cells :=
    (map_eq_of_mapM (g := id) hsorted fun _ _ h => checkCell_cell h).trans (List.map_id _)
  have htexts : (∃ out, sorted.mapM (ownValue file (dataOffset + theap) asBytes) = .ok out) ↔
      ∀ cell ∈ cells, ∀ column, columns[cell.colIdx]? = some column → column.tformLetter = 0x41 →
        asBytes = false → ∀ b ∈ cellBytes file dataOffset theap 0x41 cell, b < 0x80 := by
    rw [exists_mapM_ok]
    constructor
    · intro hvalues cell hcell column hcolumn hletter hbytes
      rw [← mem_sortCells, ← hcellMap] at hcell
      obtain ⟨c, hc, rfl⟩ := List.mem_map.1 hcell
      obtain ⟨cell, hmem, column', hcolumn', rfl⟩ := hheap c hc
      rw [hcolumn] at hcolumn'
      cases hcolumn'
      obtain ⟨p, hp⟩ := hvalues _ hc
      have hbuild := (buildVarCellValue_own_iff (hcells cell hmem) hcolumn).1
        ⟨p.2, (ownValue_ok_iff.1 hp).2⟩ hletter hbytes
      rwa [hletter] at hbuild
    · intro htext c hc
      obtain ⟨cell, hcell, column, hcolumn, rfl⟩ := hheap c hc
      obtain ⟨value, hvalue⟩ := (@buildVarCellValue_own_iff file columns column dataOffset theap
        cell.outputRow cell asBytes (hcells cell hcell) hcolumn).2
          fun hletter hbytes => hletter ▸ htext cell hcell column hcolumn hletter hbytes
      exact ⟨(cell, value), ownValue_ok_iff.2 ⟨rfl, hvalue⟩⟩
  constructor
  · rintro ⟨out, hout, -, -⟩
    obtain ⟨hplan, hvalues⟩ := (hpass hsorted).1 hout
    refine ⟨fun sorted' hsorted' => ?_, htexts.1 ⟨out, hvalues⟩⟩
    rw [hsorted] at hsorted'
    cases hsorted'
    exact hplan
  · rintro ⟨hplan, htext⟩
    obtain ⟨out, hvalues⟩ := htexts.2 htext
    refine ⟨out, (hpass hsorted).2 ⟨hplan sorted hsorted, hvalues⟩, ?_, fun p hp => ?_⟩
    · have hfirst : out.map Prod.fst = sorted.map PassCell.cell := by
        refine map_eq_of_mapM hvalues fun c p h => ?_
        obtain ⟨value, -, rfl⟩ := map_eq_ok_iff.1 h
        rfl
      rw [hfirst, hcellMap]
      exact List.mergeSort_perm _ _
    · obtain ⟨c, hc, hown⟩ := exists_of_mem_mapM hvalues hp
      obtain ⟨cell, hcell, column, hcolumn, rfl⟩ := hheap c hc
      obtain ⟨hfst, hvalue⟩ := ownValue_ok_iff.1 hown
      rw [← hfst] at hcolumn hvalue
      exact ⟨column, hcolumn, hvalue⟩

end

/-- A column of bytes, and its cells: two bytes, and an empty cell at some offset. -/
def byteColumn : Column := ⟨str "DATA", 0x42, 0, 8, some .p⟩

def twoCells (empty : Int) : List VarCell := [⟨0, 0, 2, 1⟩, ⟨1, 0, 0, empty⟩]

theorem isVarCell_twoCells {empty : Int} (h : 0 ≤ empty) :
    ∀ cell ∈ twoCells empty, IsVarCell [5, 6, 7] [byteColumn] 0 0 cell := by
  have hcolumn : ∃ column, [byteColumn][0]? = some column ∧
      (column.tformLetter = 0x58 ∨ (bytesPerElement column.tformLetter).isSome = true) :=
    ⟨byteColumn, rfl, Or.inr rfl⟩
  intro cell hcell
  rcases List.mem_cons.1 hcell with rfl | hcell
  · refine ⟨hcolumn, by decide, by decide, fun _ column hc => ?_⟩
    cases hc
    decide
  · rw [List.mem_singleton.1 hcell]
    exact ⟨hcolumn, Int.le_refl 0, h, fun hne => absurd rfl hne⟩

theorem sortCells_twoCells {empty : Int} (h : 1 ≤ empty) :
    sortCells (twoCells empty) = twoCells empty := by
  apply List.mergeSort_of_pairwise
  simp [twoCells, h]

theorem heapPass_right_inside : HeapPassRight [5, 6, 7] [byteColumn] 0 0 (twoCells 2) false := by
  refine (heapPass_right_iff (by decide) (isVarCell_twoCells (by decide))).2 ⟨?_, ?_⟩
  · intro sorted hsorted
    rw [sortCells_twoCells (by decide)] at hsorted
    cases hsorted
    decide
  · intro cell hcell column hcolumn hletter
    have hfirst : cell.colIdx = 0 := by
      rcases List.mem_cons.1 hcell with rfl | hcell
      · rfl
      · rw [List.mem_singleton.1 hcell]
    rw [hfirst] at hcolumn
    cases hcolumn
    exact absurd hletter (by decide)

/-- An empty cell behind the end of the file is read. -/
theorem heapPass_fails : (∀ cell ∈ twoCells 4000, IsVarCell [5, 6, 7] [byteColumn] 0 0 cell) ∧
    ¬HeapPassRight [5, 6, 7] [byteColumn] 0 0 (twoCells 4000) false := by
  refine ⟨isVarCell_twoCells (by decide), ?_⟩
  rintro ⟨out, hout, -⟩
  unfold heapPass at hout
  rw [sortCells_twoCells (by decide)] at hout
  cases hout

end RustFits.BinaryTable
