import RustFits.BinaryTable.Cells
import RustFits.BinaryTable.HeapPass
import RustFits.CompressedTable.Tiles
import RustFits.Header.Model
import RustFits.Lib.Fallible
import RustFits.Lib.PySlice
import Mathlib.Data.List.MinMax

/-!
# Selections of a compressed table

`read(rows=, columns=)` of a compressed table.  The rows are a slice or a list, resolved
into row numbers without repeats; the columns are found by their names up to case.  The
rows are put in the tiles that hold them, and the cells of each tile go to the places that
the request has for them.

* `mem_tilesWithRequests` says which rows a plan has, and in which tiles.
* `FreshCell` is the value of a cell as the file decodes to it.  A read of any rows and
  columns puts these values in their places, with every way to obtain slabs that hold them
  (`triple_readTable`, `RequestCells.returnedCell`).
-/

namespace RustFits.CompressedTable

open Ascii ByteFile Machine BigEndian
open Header (toAsciiUppercase)

/-! ## The arguments of a read -/

/-- The argument `rows`.  An entry that is not an integer is `none`. -/
inductive RowsArg where
  | slice (s : PySlice)
  | entries (entries : List (Option Int))
  | other
  deriving DecidableEq, Repr

/-- An entry of a list of rows.  A negative one counts from the end. -/
def resolveRow (nRows : Nat) (entry : Option Int) : Except PyErr Nat :=
  match entry.filter fun v => InI64 v with
  | none => .error (.value (str "rows= entries must be integers"))
  | some v =>
    let normalized := if v < 0 then nRows + v else v
    if normalized < 0 ∨ nRows ≤ normalized then
      .error (.index (str "row index " ++ intDec v ++ str " out of range for table with " ++
        natDec nRows ++ str " rows"))
    else .ok normalized.toNat

/-- The rows that are asked for, with repeats. -/
def requestedRows (nRows : Nat) : RowsArg → Except PyErr (List Nat)
  | .slice s =>
    match s.indices nRows with
    | none => .error (.value (str "slice step cannot be zero"))
    | some r => .ok r.toList
  | .entries entries => entries.mapM (resolveRow nRows)
  | .other => .error (.value (str "rows= must be a slice or an iterable of integers"))

/-- `resolve_rows`. -/
def resolveRows (arg : RowsArg) (nRows : Nat) : Except PyErr (List Nat) := do
  let requested ← requestedRows nRows arg
  if requested = [] then
    .error (.value (str "rows= selected zero rows; pass None for all rows"))
  else return requested.eraseDups

/-- The columns of the names, after the names `seen`. -/
def resolveNames (all : List Column) : (seen names : List Str) → Except PyErr (List Column)
  | _, [] => .ok []
  | seen, name :: names =>
    let key := toAsciiUppercase (trim name)
    if key ∈ seen then
      .error (.value (str "duplicate column name in request: '" ++ name ++ str "'"))
    else
      match all.find? fun c => toAsciiUppercase c.name = key with
      | none =>
        let available := (all.map fun c => str "\"" ++ c.name ++ str "\"").intersperse (str ", ")
        .error (.value (str "unknown column name: '" ++ name ++ str "'.  Available columns: [" ++
          available.flatten ++ str "]"))
      | some column => do
        let rest ← resolveNames all (key :: seen) names
        return column :: rest

/-- `resolve_columns`. -/
def resolveColumns (all : List Column) (requested : List Str) : Except PyErr (List Column) :=
  if requested = [] then
    .error (.value (str "columns= requested an empty list; pass None for all columns"))
  else resolveNames all [] requested

/-- The place of a column in the table: that of the first column of its name. -/
def placeOf (all : List Column) (column : Column) : Nat :=
  all.findIdx fun c => toAsciiUppercase c.name = toAsciiUppercase column.name

/-- The columns of a call of `read`. -/
def chosenColumns (all : List Column) : Option (List Str) → Except PyErr (List Column)
  | none => .ok all
  | some names => resolveColumns all names

/-- The rows of a call of `read`. -/
def chosenRows (nRows : Nat) : Option RowsArg → Except PyErr (Option (List Nat))
  | none => .ok none
  | some arg => (resolveRows arg nRows).map some

/-- The request of a call of `read`. -/
def resolveRequest (all : List Column) (nRows : Nat) (rows : Option RowsArg)
    (columns : Option (List Str)) : Except PyErr ReadRequest := do
  let selected ← chosenColumns all columns
  let rows ← chosenRows nRows rows
  return ⟨rows, selected.map fun column => (column, placeOf all column)⟩

section

variable {nRows : Nat} {arg : RowsArg} {rows : List Nat}

/-- The resolved rows are rows of the table. -/
theorem requestedRows_lt (h : requestedRows nRows arg = .ok rows) {row : Nat} (hrow : row ∈ rows) :
    row < nRows := by
  cases arg with
  | slice s =>
    unfold requestedRows at h
    dsimp only at h
    cases hs : s.indices nRows with
    | none =>
      rw [hs] at h
      cases h
    | some r =>
      rw [hs] at h
      obtain rfl := Except.ok.inj h
      exact s.mem_toList hs hrow
  | entries entries =>
    obtain ⟨entry, -, hentry⟩ := exists_of_mem_mapM h hrow
    unfold resolveRow at hentry
    cases hv : entry.filter fun v => InI64 v with
    | none =>
      rw [hv] at hentry
      cases hentry
    | some v =>
      rw [hv] at hentry
      dsimp only at hentry
      split_ifs at hentry with hrange hneg hneg
      · obtain rfl := Except.ok.inj hentry
        omega
      · obtain rfl := Except.ok.inj hentry
        omega
  | other => cases h

theorem resolveRows_lt (h : resolveRows arg nRows = .ok rows) {row : Nat} (hrow : row ∈ rows) :
    row < nRows := by
  obtain ⟨requested, hreq, h⟩ := bind_eq_ok.1 h
  split_ifs at h
  obtain rfl := Except.ok.inj h
  exact requestedRows_lt hreq (List.mem_eraseDups.1 hrow)

end

/-! ## The rows of the tiles -/

/-- The tiles cover the rows, and every tile holds one. -/
structure Tiled (shape : Shape) : Prop where
  pos : 0 < shape.ztilelen
  covered : shape.nRows ≤ shape.nTiles * shape.ztilelen
  needed : 0 < shape.nTiles → (shape.nTiles - 1) * shape.ztilelen < shape.nRows

/-- The row of the table that goes to an output row. -/
def rowAt (shape : Shape) (rows : Option (List Nat)) (i : Nat) : Option Nat :=
  match rows with
  | none => if i < shape.nRows then some i else none
  | some rows => rows[i]?

/-- The rows of a request are rows of the table. -/
def RowsInside (shape : Shape) (rows : Option (List Nat)) : Prop :=
  ∀ i row, rowAt shape rows i = some row → row < shape.nRows

section

variable {cards : List Card} {rows : Option (List Nat)} {t r i : Nat}

theorem Tiled.rowsInTile (h : Tiled (shapeOf cards)) (ht : t < (shapeOf cards).nTiles) :
    (shapeOf cards).rowsInTile t =
      if t + 1 = (shapeOf cards).nTiles then (shapeOf cards).nRows - t * (shapeOf cards).ztilelen
      else (shapeOf cards).ztilelen := by
  have hneeded := h.needed (by omega)
  have hlt : (shapeOf cards).nRows ≤ 9223372036854775807 := natKeyword_le cards (str "ZNAXIS2")
  unfold Shape.rowsInTile
  split_ifs with hlast
  · rw [← hlast, Nat.add_sub_cancel] at hneeded
    exact wrappingSub_of_le hneeded.le (by unfold u64Size; omega)
  · rfl

/-- A row in a tile is a row of the table, and conversely. -/
theorem Tiled.row_iff (h : Tiled (shapeOf cards)) :
    t < (shapeOf cards).nTiles ∧ r < (shapeOf cards).rowsInTile t ↔
      t * (shapeOf cards).ztilelen + r < (shapeOf cards).nRows ∧ r < (shapeOf cards).ztilelen := by
  have hcovered := h.covered
  have hpos := h.pos
  have hneeded := h.needed
  have hsplit := @Tiled.rowsInTile cards t h
  generalize shapeOf cards = shape at *
  constructor
  · rintro ⟨ht, hr⟩
    rw [hsplit ht] at hr
    have hneeded := hneeded (by omega)
    split_ifs at hr with hlast
    · rw [← hlast, Nat.succ_mul] at hcovered
      omega
    · have hnext : (t + 1) * shape.ztilelen ≤ (shape.nTiles - 1) * shape.ztilelen :=
        Nat.mul_le_mul_right _ (by omega)
      rw [Nat.succ_mul] at hnext
      omega
  · rintro ⟨hrow, hr⟩
    have ht : t < shape.nTiles := by
      by_contra hge
      have := Nat.mul_le_mul_right shape.ztilelen (not_lt.1 hge)
      omega
    refine ⟨ht, ?_⟩
    rw [hsplit ht]
    split_ifs <;> omega

theorem Tiled.rowsInTile_pos (h : Tiled (shapeOf cards)) (ht : t < (shapeOf cards).nTiles) :
    0 < (shapeOf cards).rowsInTile t := by
  have hrow := @Tiled.row_iff cards t 0 h
  have hneeded := h.needed (by omega)
  have hpos := h.pos
  have hbefore : t * (shapeOf cards).ztilelen ≤
      ((shapeOf cards).nTiles - 1) * (shapeOf cards).ztilelen := Nat.mul_le_mul_right _ (by omega)
  exact (hrow.2 ⟨by omega, hpos⟩).2

/-- Every tile of a plan holds a requested row. -/
theorem exists_request (h : Tiled (shapeOf cards)) {tile : Nat × List (Nat × Nat)}
    (htile : tile ∈ tilesWithRequests (shapeOf cards) rows) : ∃ q, q ∈ tile.2 := by
  cases rows with
  | none =>
    obtain ⟨t, ht, rfl⟩ := List.mem_map.1 htile
    have hin := h.rowsInTile_pos (List.mem_range.1 ht)
    exact ⟨_, List.mem_map.2 ⟨0, List.mem_range.2 hin, rfl⟩⟩
  | some rows =>
    obtain ⟨t, -, hsome⟩ := List.mem_filterMap.1 htile
    split at hsome
    · cases hsome
    · rename_i hne
      obtain rfl := Option.some.inj hsome
      exact List.exists_mem_of_ne_nil _ hne

/-- The plan of a read puts every requested row in its tile, and no other. -/
theorem mem_tilesWithRequests (h : Tiled (shapeOf cards))
    (hrows : RowsInside (shapeOf cards) rows) :
    (∃ tile ∈ tilesWithRequests (shapeOf cards) rows, tile.1 = t ∧ (r, i) ∈ tile.2) ↔
      ∃ row, rowAt (shapeOf cards) rows i = some row ∧
        row / (shapeOf cards).ztilelen = t ∧ row % (shapeOf cards).ztilelen = r := by
  have hpos := h.pos
  cases rows with
  | none =>
    have hrow := @Tiled.row_iff cards t r h
    generalize shapeOf cards = shape at *
    constructor
    · rintro ⟨tile, htile, rfl, hmem⟩
      obtain ⟨t, ht, rfl⟩ := List.mem_map.1 htile
      obtain ⟨r', hr', heq⟩ := List.mem_map.1 hmem
      obtain ⟨rfl, rfl⟩ := Prod.mk.inj heq
      obtain ⟨hlt, hr⟩ := hrow.1 ⟨List.mem_range.1 ht, List.mem_range.1 hr'⟩
      refine ⟨t * shape.ztilelen + r', if_pos hlt, ?_, ?_⟩
      · rw [Nat.mul_comm, Nat.mul_add_div hpos, Nat.div_eq_of_lt hr, Nat.add_zero]
      · rw [Nat.mul_comm, Nat.mul_add_mod, Nat.mod_eq_of_lt hr]
    · rintro ⟨row, hat, rfl, rfl⟩
      have hlt := hrows i row hat
      have hi : i = row := by
        unfold rowAt at hat
        dsimp only at hat
        split_ifs at hat
        exact Option.some.inj hat
      have hsplit := Nat.div_add_mod' row shape.ztilelen
      obtain ⟨ht, hr⟩ := hrow.2 ⟨by omega, Nat.mod_lt row hpos⟩
      refine ⟨_, List.mem_map.2 ⟨row / shape.ztilelen, List.mem_range.2 ht, rfl⟩, rfl, ?_⟩
      exact List.mem_map.2 ⟨row % shape.ztilelen, List.mem_range.2 hr, by rw [hsplit, hi]⟩
  | some rows =>
    generalize shapeOf cards = shape at *
    show (∃ tile ∈ requestsByTile shape.ztilelen rows, tile.1 = t ∧ (r, i) ∈ tile.2) ↔ _
    unfold requestsByTile rowAt
    simp only [if_neg hpos.ne']
    constructor
    · rintro ⟨tile, htile, rfl, hmem⟩
      obtain ⟨t, -, hsome⟩ := List.mem_filterMap.1 htile
      have hreq : tile.1 = t ∧ tile.2 = (rows.zipIdx.filter fun request =>
          decide (request.1 / shape.ztilelen = t)).map
            fun request => (request.1 % shape.ztilelen, request.2) := by
        split at hsome
        · cases hsome
        · obtain rfl := Option.some.inj hsome
          exact ⟨rfl, rfl⟩
      rw [hreq.2] at hmem
      obtain ⟨p, hp, heq⟩ := List.mem_map.1 hmem
      obtain ⟨rfl, rfl⟩ := Prod.mk.inj heq
      obtain ⟨hp, htile⟩ := List.mem_filter.1 hp
      refine ⟨p.1, List.mem_zipIdx_iff_getElem?.1 hp, ?_, rfl⟩
      rw [hreq.1]
      exact of_decide_eq_true htile
    · rintro ⟨row, hat, rfl, rfl⟩
      have hmem : (row % shape.ztilelen, i) ∈ (rows.zipIdx.filter fun request =>
          decide (request.1 / shape.ztilelen = row / shape.ztilelen)).map
            fun request => (request.1 % shape.ztilelen, request.2) :=
        List.mem_map.2 ⟨(row, i), List.mem_filter.2
          ⟨List.mem_zipIdx_iff_getElem?.2 hat, decide_eq_true rfl⟩, rfl⟩
      have hlast : row / shape.ztilelen ≤
          (rows.map fun row => row / shape.ztilelen).foldr max 0 :=
        List.le_max_of_le' 0 (List.mem_map_of_mem (List.mem_of_getElem? hat)) le_rfl
      refine ⟨(row / shape.ztilelen, _), List.mem_filterMap.2
        ⟨row / shape.ztilelen, List.mem_range.2 (by omega), ?_⟩, rfl, hmem⟩
      split
      · rename_i heq
        rw [heq] at hmem
        cases hmem
      · rfl

/-- A request without output rows asks for no row. -/
theorem rowAt_none_of_empty (hinside : RowsInside (shapeOf cards) rows)
    (h : outputRows (shapeOf cards) rows = 0) (i : Nat) :
    rowAt (shapeOf cards) rows i = none := by
  cases hat : rowAt (shapeOf cards) rows i with
  | none => rfl
  | some row =>
    have hlt := hinside i row hat
    cases rows with
    | none =>
      have h : (shapeOf cards).nRows = 0 := h
      omega
    | some rows =>
      rw [List.length_eq_zero_iff.1 h] at hat
      cases hat

theorem tilesWithRequests_of_empty (htiled : Tiled (shapeOf cards))
    (hinside : RowsInside (shapeOf cards) rows) (h : outputRows (shapeOf cards) rows = 0) :
    tilesWithRequests (shapeOf cards) rows = [] := by
  rw [List.eq_nil_iff_forall_not_mem]
  intro tile htile
  obtain ⟨q, hq⟩ := exists_request htiled htile
  obtain ⟨row, hat, -⟩ := (mem_tilesWithRequests htiled hinside).1 ⟨tile, htile, rfl, hq⟩
  rw [rowAt_none_of_empty hinside h] at hat
  cases hat

end

/-! ## Cells -/

/-- The text of an error may name the output row; a value does not depend on it. -/
structure Render.RowInErrorsOnly {Value : Type} (render : Render Value) : Prop where
  fixed : ∀ column row row' bytes value, render.convertColumnCell column row bytes = .ok value →
    render.convertColumnCell column row' bytes = .ok value
  vla : ∀ column row row' len bytes value,
    render.buildVarCellValue column row len bytes = .ok value →
    render.buildVarCellValue column row' len bytes = .ok value

/-- The conversions of a binary table, into the bytes of the place in the output array or a
Python value. -/
def tableRender (doubles : BinaryTable.Doubles) (littleEndian asBytes : Bool)
    (field : Column → BinaryTable.Field) (place : Column → Bytes)
    (kind : Column → BinaryTable.ScalingKind) : Render (Bytes ⊕ BinaryTable.CellValue) where
  convertColumnCell column row bytes :=
    (BinaryTable.convertColumnCell doubles littleEndian (field column) bytes (place column) row
      (kind column)).map .inl
  buildVarCellValue column row len bytes :=
    (BinaryTable.buildVarCellValue (field column).toColumn bytes len row asBytes).map .inr

/-- A loop whose steps come out the same, where they come out. -/
theorem foldlM_ok_of_steps {α β ε : Type} {f g : β → α → Except ε β} {l : List α} {b c : β}
    (hstep : ∀ b a c, f b a = .ok c → g b a = .ok c) (h : l.foldlM f b = .ok c) :
    l.foldlM g b = .ok c := by
  induction l generalizing b with
  | nil => exact h
  | cons a l ih =>
    rw [List.foldlM_cons] at h ⊢
    obtain ⟨next, hnext, h⟩ := bind_eq_ok.1 h
    exact bind_eq_ok.2 ⟨next, hstep b a next hnext, ih h⟩

theorem map_ok_of_ok {α β ε : Type} {f : α → β} {x y : Except ε α} {value : β}
    (hxy : ∀ a, x = .ok a → y = .ok a) (h : x.map f = .ok value) : y.map f = .ok value := by
  cases hx : x with
  | error e =>
    rw [hx] at h
    cases h
  | ok a =>
    rw [hx] at h
    rw [hxy a hx]
    exact h

section

variable {littleEndian : Bool} {field : BinaryTable.Field} {src : Bytes} {row : Nat}

theorem convertString_row {codes : Bytes}
    (h : BinaryTable.convertString littleEndian field row src = .ok codes) (row' : Nat) :
    BinaryTable.convertString littleEndian field row' src = .ok codes := by
  unfold BinaryTable.convertString at h ⊢
  cases hfind : (BinaryTable.cellText src).findIdx? fun b => decide (0x80 ≤ b) with
  | some i => simp [hfind] at h
  | none => simpa [hfind] using h

theorem convertACell_row {dst value : Bytes}
    (h : BinaryTable.convertACell littleEndian field src dst row = .ok value) (row' : Nat) :
    BinaryTable.convertACell littleEndian field src dst row' = .ok value := by
  unfold BinaryTable.convertACell at h ⊢
  split_ifs at h ⊢
  · exact h
  · refine foldlM_ok_of_steps (fun cell i next hnext => ?_) h
    obtain ⟨srcStr, hsrc, hnext⟩ := bind_eq_ok.1 hnext
    obtain ⟨dstStr, hdst, hnext⟩ := bind_eq_ok.1 hnext
    obtain ⟨codes, hcodes, hnext⟩ := bind_eq_ok.1 hnext
    exact bind_eq_ok.2 ⟨srcStr, hsrc, bind_eq_ok.2 ⟨dstStr, hdst,
      bind_eq_ok.2 ⟨codes, convertString_row hcodes row', hnext⟩⟩⟩

end

theorem rowInErrorsOnly_tableRender (doubles : BinaryTable.Doubles) (littleEndian asBytes : Bool)
    (field : Column → BinaryTable.Field) (place : Column → Bytes)
    (kind : Column → BinaryTable.ScalingKind) :
    (tableRender doubles littleEndian asBytes field place kind).RowInErrorsOnly where
  fixed := by
    intro column row row' bytes value h
    refine map_ok_of_ok (fun cell hcell => ?_) h
    unfold BinaryTable.convertColumnCell at hcell ⊢
    cases hkind : kind column with
    | none =>
      rw [hkind] at hcell
      dsimp only at hcell ⊢
      split_ifs at hcell ⊢
      all_goals try exact convertACell_row hcell row'
      all_goals exact hcell
    | _ =>
      rw [hkind] at hcell
      exact hcell
  vla := by
    intro column row row' len bytes value h
    refine map_ok_of_ok (fun cell hcell => ?_) h
    unfold BinaryTable.buildVarCellValue at hcell ⊢
    cases hfind : bytes.findIdx? fun b => decide (0x80 ≤ b) with
    | none => simpa only [hfind] using hcell
    | some i =>
      simp only [hfind] at hcell ⊢
      split_ifs at hcell ⊢ <;> exact hcell

/-- The element width of a variable-length column. -/
def vlaElemSize (column : Column) : Except PyErr Nat :=
  match bytesPerElement column.tformLetter with
  | some n => .ok n
  | none => .error (.value (str "column '" ++ column.name ++
      str "': unsupported VLA inner letter '" ++ [column.tformLetter] ++ str "'"))

section

variable (codec : Codec) {Value : Type} (render : Render Value) (columns : List Column)
  (file : Bytes)
  (cards : List Card) (dataOffset : Nat)

/-- A requested cell, from the slab of its tile and column. -/
def cellFromSlab (tile col : Nat) (column : Column) (slab : Bytes) (request : Nat × Nat) :
    Except PyErr Value :=
  match column.varKind with
  | some kind => do
    let elemSize ← vlaElemSize column
    readVlaCell codec render file tile col ((shapeOf cards).rowsInTile tile)
      (dataOffset + heapBase cards) elemSize kind column slab request
  | none => readFixedCell render column slab request

/-- The slab of a column of a tile, as the file decodes to it. -/
def SlabAt (tile col : Nat) (column : Column) (slab : Bytes) : Prop :=
  ∃ descRow, readDescriptorRow file (shapeOf cards) dataOffset tile = .ok descRow ∧
    0 ≤ (readDescriptor .q (slice descRow (col * 16) 16)).1 ∧
    0 ≤ (readDescriptor .q (slice descRow (col * 16) 16)).2 ∧
    decodeSlab codec file tile col ((shapeOf cards).rowsInTile tile) (dataOffset + heapBase cards)
      (readDescriptor .q (slice descRow (col * 16) 16)) column = .ok slab

/-- A slab holds the value of a cell. -/
def Holds (tile col : Nat) (column : Column) (slab : Bytes) (inTile : Nat) (value : Value) : Prop :=
  ∀ row, cellFromSlab codec render file cards dataOffset tile col column slab
    (inTile, row) = .ok value

/-- The value of a cell, as the file decodes to it. -/
def FreshCell (tile col inTile : Nat) (value : Value) : Prop :=
  ∃ column slab, columns[col]? = some column ∧
    SlabAt codec file cards dataOffset tile col column slab ∧
    Holds codec render file cards dataOffset tile col column slab inTile value

/-- The cells of a tile and a column of a request. -/
def ColumnCells (tile : Nat × List (Nat × Nat)) (selected : (Column × Nat) × Nat)
    (cells : List ((Nat × Nat) × Value)) : Prop :=
  List.Forall₂ (fun request cell => cell.1 = (request.2, selected.2) ∧
    FreshCell codec render columns file cards dataOffset tile.1 selected.1.2 request.1 cell.2)
    tile.2 cells

/-- The cells of a tile of a request. -/
def TileCells (selected : List (Column × Nat)) (tile : Nat × List (Nat × Nat))
    (cells : List ((Nat × Nat) × Value)) : Prop :=
  ∃ parts, cells = List.flatten parts ∧ List.Forall₂
    (ColumnCells codec render columns file cards dataOffset tile) selected.zipIdx parts

/-- The cells of a request, each with the value that the file decodes to. -/
def RequestCells (request : ReadRequest) (cells : List ((Nat × Nat) × Value)) : Prop :=
  ∃ parts, cells = List.flatten parts ∧ List.Forall₂
    (TileCells codec render columns file cards dataOffset request.selected)
    (tilesWithRequests (shapeOf cards) request.rows) parts

end

section

variable {codec : Codec} {Value : Type} {render : Render Value} {columns : List Column}
  {file : Bytes}
  {cards : List Card} {dataOffset tile col inTile : Nat} {column : Column} {slab slab' : Bytes}
  {value value' : Value}

theorem SlabAt.unique (h : SlabAt codec file cards dataOffset tile col column slab)
    (h' : SlabAt codec file cards dataOffset tile col column slab') : slab = slab' := by
  obtain ⟨descRow, hrow, -, -, hslab⟩ := h
  obtain ⟨descRow', hrow', -, -, hslab'⟩ := h'
  rw [hrow, Except.ok.injEq] at hrow'
  rw [← hrow', hslab] at hslab'
  exact Except.ok.inj hslab'

theorem Holds.unique
    (h : Holds codec render file cards dataOffset tile col column slab inTile value)
    (h' : Holds codec render file cards dataOffset tile col column slab inTile value') :
    value = value' := by
  have h₀ := h 0
  rw [h' 0] at h₀
  exact (Except.ok.inj h₀).symm

theorem FreshCell.unique
    (h : FreshCell codec render columns file cards dataOffset tile col inTile value)
    (h' : FreshCell codec render columns file cards dataOffset tile col inTile value') :
    value = value' := by
  obtain ⟨column, slab, hcolumn, hslab, hvalue⟩ := h
  obtain ⟨column', slab', hcolumn', hslab', hvalue'⟩ := h'
  rw [hcolumn, Option.some.injEq] at hcolumn'
  subst hcolumn'
  obtain rfl := hslab.unique hslab'
  exact hvalue.unique hvalue'

theorem Holds.vlaElemSize
    (h : Holds codec render file cards dataOffset tile col column slab inTile value)
    (hkind : column.varKind.isSome) : ∃ n, vlaElemSize column = .ok n := by
  obtain ⟨kind, hkind⟩ := Option.isSome_iff_exists.1 hkind
  have hvalue := h 0
  unfold cellFromSlab at hvalue
  rw [hkind] at hvalue
  obtain ⟨n, hn, -⟩ := bind_eq_ok.1 hvalue
  exact ⟨n, hn⟩

/-- One successful reading of a cell shows its value for every output row. -/
theorem holds_of_ok (hrender : render.RowInErrorsOnly) {row : Nat}
    (h : cellFromSlab codec render file cards dataOffset tile col column slab
      (inTile, row) = .ok value) :
    Holds codec render file cards dataOffset tile col column slab inTile value := by
  intro row'
  unfold cellFromSlab at h ⊢
  cases hkind : column.varKind with
  | none =>
    rw [hkind] at h
    obtain ⟨cell, hcell, h⟩ := bind_eq_ok.1 h
    exact bind_eq_ok.2 ⟨cell, hcell, hrender.fixed _ _ _ _ _ h⟩
  | some kind =>
    rw [hkind] at h
    obtain ⟨elemSize, helem, h⟩ := bind_eq_ok.1 h
    refine bind_eq_ok.2 ⟨elemSize, helem, ?_⟩
    unfold readVlaCell at h ⊢
    obtain ⟨origDesc, horig, h⟩ := bind_eq_ok.1 h
    refine bind_eq_ok.2 ⟨origDesc, horig, ?_⟩
    dsimp only at h ⊢
    by_cases hneg : (readDescriptor kind origDesc).1 < 0
    · rw [if_pos hneg] at h
      cases h
    rw [if_neg hneg] at h ⊢
    obtain ⟨compDesc, hcomp, h⟩ := bind_eq_ok.1 h
    refine bind_eq_ok.2 ⟨compDesc, hcomp, ?_⟩
    generalize readDescriptor .q compDesc = stored at h ⊢
    obtain ⟨cvlalen, cvlastart⟩ := stored
    dsimp only at h ⊢
    by_cases hfield : cvlalen < 0 ∨ cvlastart < 0
    · rw [if_pos hfield] at h
      cases h
    rw [if_neg hfield] at h ⊢
    by_cases hempty : (readDescriptor kind origDesc).1 = 0
    · rw [if_pos hempty] at h ⊢
      exact hrender.vla _ _ _ _ _ _ h
    · rw [if_neg hempty] at h ⊢
      obtain ⟨bytes, hbytes, h⟩ := bind_eq_ok.1 h
      exact bind_eq_ok.2 ⟨bytes, hbytes, hrender.vla _ _ _ _ _ _ h⟩

theorem raise_except {α : Type} (y : Except PyErr α) : (raise y : Except PyErr α) = y := by
  cases y <;> rfl

end

/-! ## What a read does -/

section

variable {codec : Codec} {Value : Type} {render : Render Value} {columns : List Column}
  {file : Bytes}
  {cards : List Card} {dataOffset : Nat}

/-- What a column of a tile that is read without a cache has shown. -/
theorem slabAt_of_readColumnTile {tile : Nat} {descRow : Bytes} {requests : List (Nat × Nat)}
    {selected : (Column × Nat) × Nat} {cells : List ((Nat × Nat) × Value)}
    (hrow : readDescriptorRow file (shapeOf cards) dataOffset tile = .ok descRow)
    (h : readColumnTile codec fresh render file tile ((shapeOf cards).rowsInTile tile)
      (dataOffset + heapBase cards) descRow requests selected = .ok cells) :
    ∃ slab, SlabAt codec file cards dataOffset tile selected.1.2 selected.1.1 slab ∧
      ∀ request ∈ requests, ∃ value, cellFromSlab codec render file cards dataOffset tile
        selected.1.2 selected.1.1 slab request = .ok value := by
  unfold readColumnTile at h
  dsimp only at h
  simp only [raise_except] at h
  obtain ⟨_, hdesc, h⟩ := bind_eq_ok.1 h
  split_ifs at hdesc with hneg
  unfold SlabAt cellFromSlab
  cases hkind : selected.1.1.varKind with
  | none =>
    rw [hkind] at h
    obtain ⟨slab, hslab, h⟩ := bind_eq_ok.1 h
    refine ⟨slab, ⟨descRow, hrow, by omega, by omega, hslab⟩, fun request hmem => ?_⟩
    obtain ⟨_, -, hcell⟩ := exists_of_mem_mapM_left h hmem
    obtain ⟨value, hvalue, -⟩ := bind_eq_ok.1 hcell
    exact ⟨value, hvalue⟩
  | some kind =>
    rw [hkind] at h
    obtain ⟨elemSize, helem, h⟩ := bind_eq_ok.1 h
    obtain ⟨slab, hslab, h⟩ := bind_eq_ok.1 h
    refine ⟨slab, ⟨descRow, hrow, by omega, by omega, hslab⟩, fun request hmem => ?_⟩
    obtain ⟨_, -, hcell⟩ := exists_of_mem_mapM_left h hmem
    obtain ⟨value, hvalue, -⟩ := bind_eq_ok.1 hcell
    exact ⟨value, bind_eq_ok.2 ⟨elemSize, helem, hvalue⟩⟩

variable {σ : Type} {I : σ → Prop} {fetch : Nat × Nat → Except PyErr Bytes → EStateM PyErr σ Bytes}

/-- A column of a tile, with any way to obtain a slab that holds its cells. -/
theorem triple_readColumnTile {tile : Nat × List (Nat × Nat)} {descRow slab : Bytes}
    {selected : (Column × Nat) × Nat} (hcolumn : columns[selected.1.2]? = some selected.1.1)
    (hrow : readDescriptorRow file (shapeOf cards) dataOffset tile.1 = .ok descRow)
    (hslab : SlabAt codec file cards dataOffset tile.1 selected.1.2 selected.1.1 slab)
    (helem : selected.1.1.varKind.isSome → ∃ n, vlaElemSize selected.1.1 = .ok n)
    (hfetch : Triple I (fetch (cacheKey tile.1 selected.1.2)
        (decodeSlab codec file tile.1 selected.1.2 ((shapeOf cards).rowsInTile tile.1)
          (dataOffset + heapBase cards) (readDescriptor .q (slice descRow (selected.1.2 * 16) 16))
          selected.1.1))
      (fun found s => (∀ request ∈ tile.2, ∃ value, Holds codec render file cards dataOffset tile.1
          selected.1.2 selected.1.1 found request.1 value ∧
          Holds codec render file cards dataOffset tile.1 selected.1.2 selected.1.1 slab
            request.1 value) ∧ I s)
      fun _ _ => False) :
    Triple I (readColumnTile codec fetch render file tile.1 ((shapeOf cards).rowsInTile tile.1)
        (dataOffset + heapBase cards) descRow tile.2 selected)
      (fun cells s =>
        ColumnCells codec render columns file cards dataOffset tile selected cells ∧ I s)
      fun _ _ => False := by
  obtain ⟨descRow', hrow', hfirst, hsecond, -⟩ := id hslab
  rw [hrow, Except.ok.injEq] at hrow'
  subst hrow'
  unfold readColumnTile
  dsimp only
  rw [if_neg (by omega)]
  refine (Triple.pure (Q := fun _ => I) fun s hs => hs).bind fun _ => ?_
  have hcell : ∀ found request value, Holds codec render file cards dataOffset tile.1 selected.1.2
      selected.1.1 found request value →
      ∀ row, cellFromSlab codec render file cards dataOffset tile.1
        selected.1.2 selected.1.1 found (request, row) = .ok value := fun _ _ _ h => h
  unfold cellFromSlab at hcell
  cases hkind : selected.1.1.varKind with
  | none =>
    rw [hkind] at hcell
    refine hfetch.bind fun found => Triple.assume fun hfound =>
      Triple.mapM_forall₂ fun request hmem => ?_
    obtain ⟨value, hvalue, hfresh⟩ := hfound request hmem
    have hok := hcell found request.1 value hvalue request.2
    change readFixedCell _ _ _ _ = _ at hok
    rw [hok]
    exact Triple.pure fun s hs => ⟨⟨rfl, selected.1.1, slab, hcolumn, hslab, hfresh⟩, hs⟩
  | some kind =>
    obtain ⟨n, hn⟩ := helem (by rw [hkind]; rfl)
    rw [hkind, hn] at hcell
    change Triple I (raise (vlaElemSize selected.1.1) >>= _) _ _
    rw [hn]
    refine (Triple.pure (Q := fun a s => a = n ∧ I s) fun s hs => ⟨rfl, hs⟩).bind fun elemSize =>
      Triple.assume fun helem => ?_
    subst helem
    refine hfetch.bind fun found => Triple.assume fun hfound =>
      Triple.mapM_forall₂ fun request hmem => ?_
    obtain ⟨value, hvalue, hfresh⟩ := hfound request hmem
    have hok := hcell found request.1 value hvalue request.2
    change readVlaCell _ _ _ _ _ _ _ _ _ _ _ _ = _ at hok
    rw [hok]
    exact Triple.pure fun s hs => ⟨⟨rfl, selected.1.1, slab, hcolumn, hslab, hfresh⟩, hs⟩

end

/-! ## Slabs that stand for each other -/

section

variable (codec : Codec) {Value : Type} (render : Render Value) (columns : List Column)
  (file : Bytes)
  (cards : List Card) (dataOffset : Nat)

/-- The bytes `found` give the cells of a tile and a column the values of its slab. -/
def Serves (tile col : Nat) (column : Column) (slab found : Bytes) : Prop :=
  ∀ inTile < (shapeOf cards).rowsInTile tile, ∀ value : Value,
    Holds codec render file cards dataOffset tile col column slab inTile value →
    Holds codec render file cards dataOffset tile col column found inTile value

/-- The bytes serve every tile and column of a key of the cache. -/
def ServesKey (key : Nat × Nat) (found : Bytes) : Prop :=
  ∀ tile col column slab, tile < (shapeOf cards).nTiles → columns[col]? = some column →
    cacheKey tile col = key → SlabAt codec file cards dataOffset tile col column slab →
    Serves codec render file cards dataOffset tile col column slab found

/-- The slabs that share a key of the cache hold the same cells. -/
def KeysServe : Prop :=
  ∀ tile col column slab, tile < (shapeOf cards).nTiles → columns[col]? = some column →
    SlabAt codec file cards dataOffset tile col column slab →
    ServesKey codec render columns file cards dataOffset (cacheKey tile col) slab

/-- Every slab of the table decodes, and every cell has a value. -/
structure Readable : Prop where
  width : (shapeOf cards).rowWidth = columns.length * 16
  slab : ∀ tile < (shapeOf cards).nTiles, ∀ col column, columns[col]? = some column →
    ∃ slab, SlabAt codec file cards dataOffset tile col column slab ∧
      ∀ inTile < (shapeOf cards).rowsInTile tile, ∃ value,
        Holds codec render file cards dataOffset tile col column slab inTile value

end

/-- Every column is found by its own name. -/
def NamedApart (columns : List Column) : Prop :=
  ∀ col column, columns[col]? = some column →
    columns.findIdx? (fun c => toAsciiUppercase c.name = toAsciiUppercase (trim column.name)) =
      some col

section

variable {codec : Codec} {Value : Type} {render : Render Value} {columns : List Column}
  {file : Bytes}
  {cards : List Card} {dataOffset : Nat}

theorem NamedApart.placeOf (h : NamedApart columns) {col : Nat} {column : Column}
    (hcolumn : columns[col]? = some column) : placeOf columns column = col := by
  have hfind := h col column hcolumn
  obtain ⟨hlt, heq⟩ := List.getElem?_eq_some_iff.1 hcolumn
  have hself := (List.findIdx?_eq_some_iff_getElem.1 hfind).2.1
  rw [heq] at hself
  unfold CompressedTable.placeOf
  rw [of_decide_eq_true hself]
  exact (List.findIdx_eq_getD_findIdx?.trans (by rw [hfind]; rfl))

/-- A read of the whole table that succeeds shows that the table is readable. -/
theorem readable_of_full (hnamed : NamedApart columns)
    (hrender : render.RowInErrorsOnly) {request : ReadRequest} {full : List ((Nat × Nat) × Value)}
    (hrequest : resolveRequest columns (shapeOf cards).nRows none none = .ok request)
    (hfull : readTable codec fresh render columns file cards dataOffset request = .ok full)
    (hrows : (shapeOf cards).nRows ≠ 0) (hcolumns : columns ≠ []) :
    Readable codec render columns file cards dataOffset := by
  obtain rfl := Except.ok.inj hrequest
  unfold readTable at hfull
  dsimp only at hfull
  rw [if_neg (by simp [outputRows, hrows, hcolumns])] at hfull
  simp only [raise_except] at hfull
  obtain ⟨_, hwidth, hfull⟩ := bind_eq_ok.1 hfull
  split_ifs at hwidth with hne
  refine ⟨not_not.1 hne, fun tile htile col column hcolumn => ?_⟩
  obtain ⟨_, htiles, -⟩ := bind_eq_ok.1 hfull
  have hmem : (tile, (List.range ((shapeOf cards).rowsInTile tile)).map fun r =>
      (r, tile * (shapeOf cards).ztilelen + r)) ∈ tilesWithRequests (shapeOf cards) none :=
    List.mem_map.2 ⟨tile, List.mem_range.2 htile, rfl⟩
  obtain ⟨_, -, hread⟩ := exists_of_mem_mapM_left htiles hmem
  unfold readTile at hread
  simp only [raise_except] at hread
  obtain ⟨descRow, hrow, hread⟩ := bind_eq_ok.1 hread
  obtain ⟨_, hcols, -⟩ := bind_eq_ok.1 hread
  have hsel : ((column, col), col) ∈
      (columns.map fun column => (column, placeOf columns column)).zipIdx := by
    rw [List.mem_zipIdx_iff_getElem?, List.getElem?_map, hcolumn]
    show some (column, placeOf columns column) = _
    rw [hnamed.placeOf hcolumn]
  obtain ⟨_, -, hcol⟩ := exists_of_mem_mapM_left hcols hsel
  obtain ⟨slab, hslab, hvalues⟩ := slabAt_of_readColumnTile hrow hcol
  refine ⟨slab, hslab, fun inTile hin => ?_⟩
  obtain ⟨value, hvalue⟩ := hvalues _ (List.mem_map.2 ⟨inTile, List.mem_range.2 hin, rfl⟩)
  exact ⟨value, holds_of_ok hrender hvalue⟩

variable {σ : Type} {I : σ → Prop} {fetch : Nat × Nat → Except PyErr Bytes → EStateM PyErr σ Bytes}

/-- A read of any rows and columns gives the values that the file decodes to, if every slab
that is fetched serves its tile and column. -/
theorem triple_readTable (htiled : Tiled (shapeOf cards)) {request : ReadRequest}
    (hreadable : (shapeOf cards).nRows ≠ 0 → columns ≠ [] →
      Readable codec render columns file cards dataOffset)
    (hinside : RowsInside (shapeOf cards) request.rows)
    (hselected : ∀ p ∈ request.selected, columns[p.2]? = some p.1)
    (hfetch : ∀ tile ∈ tilesWithRequests (shapeOf cards) request.rows, ∀ p ∈ request.selected,
      ∀ slab, SlabAt codec file cards dataOffset tile.1 p.2 p.1 slab →
        Triple I (fetch (cacheKey tile.1 p.2) (.ok slab))
          (fun found s => Serves codec render file cards dataOffset tile.1 p.2 p.1 slab found ∧ I s)
          fun _ _ => False) :
    Triple I (readTable codec fetch render columns file cards dataOffset request)
      (fun cells s => RequestCells codec render columns file cards dataOffset request cells ∧ I s)
      fun _ _ => False := by
  unfold readTable
  dsimp only
  by_cases hempty : outputRows (shapeOf cards) request.rows = 0 ∨ request.selected = []
  · rw [if_pos hempty]
    refine Triple.pure fun s hs => ⟨?_, hs⟩
    rcases hempty with hempty | hempty
    · exact ⟨[], rfl, by rw [tilesWithRequests_of_empty htiled hinside hempty]; exact .nil⟩
    · refine ⟨(tilesWithRequests (shapeOf cards) request.rows).map fun _ => [], ?_, ?_⟩
      · exact (List.flatten_eq_nil_iff.2 (by simp)).symm
      · rw [List.forall₂_map_right_iff, List.forall₂_same]
        exact fun tile _ => ⟨[], rfl, by rw [hempty]; exact .nil⟩
  obtain ⟨p, hp⟩ := List.exists_mem_of_ne_nil _ fun h => hempty (Or.inr h)
  have hreadable : Readable codec render columns file cards dataOffset := by
    refine hreadable (fun hzero => hempty (Or.inl ?_)) fun hnil => ?_
    · cases hrows : request.rows with
      | none => exact hzero
      | some rows =>
        rw [hrows] at hinside
        refine List.length_eq_zero_iff.2 (List.eq_nil_iff_forall_not_mem.2 fun row hrow => ?_)
        obtain ⟨i, hi⟩ := List.mem_iff_getElem?.1 hrow
        have := hinside i row hi
        omega
    · have := hselected p hp
      rw [hnil] at this
      cases this
  rw [if_neg hempty, if_neg (not_not.2 hreadable.width)]
  refine (Triple.pure (Q := fun _ => I) fun s hs => hs).bind fun _ => ?_
  suffices htile : ∀ tile ∈ tilesWithRequests (shapeOf cards) request.rows,
      Triple I (readTile codec fetch render file (shapeOf cards) dataOffset
        (dataOffset + heapBase cards) request.selected tile)
        (fun cells s => TileCells codec render columns file cards dataOffset request.selected tile
          cells ∧ I s) fun _ _ => False from
    (Triple.mapM_forall₂ htile).bind fun tiles => Triple.pure fun s hs =>
      ⟨⟨tiles, rfl, hs.1⟩, hs.2⟩
  intro tile htile
  -- the rows of the tile are rows of the table
  have hrows : ∀ q ∈ tile.2, tile.1 < (shapeOf cards).nTiles ∧
      q.1 < (shapeOf cards).rowsInTile tile.1 := by
    intro q hq
    obtain ⟨row, hat, hdiv, hmod⟩ := (mem_tilesWithRequests htiled hinside).1
      ⟨tile, htile, rfl, hq⟩
    refine htiled.row_iff.2 ?_
    rw [← hdiv, ← hmod, Nat.div_add_mod']
    exact ⟨hinside _ _ hat, Nat.mod_lt _ htiled.pos⟩
  obtain ⟨q, hq⟩ := exists_request htiled htile
  have htiles := (hrows q hq).1
  obtain ⟨_, ⟨descRow, hrow, -⟩, -⟩ := hreadable.slab _ htiles _ _ (hselected p hp)
  unfold readTile
  rw [hrow]
  refine (Triple.pure (Q := fun a s => a = descRow ∧ I s) fun s hs => ⟨rfl, hs⟩).bind fun a =>
    Triple.assume fun ha => ?_
  subst ha
  suffices hcol : ∀ p ∈ request.selected.zipIdx, Triple I
      (readColumnTile codec fetch render file tile.1 ((shapeOf cards).rowsInTile tile.1)
        (dataOffset + heapBase cards) a tile.2 p)
      (fun cells s => ColumnCells codec render columns file cards dataOffset tile p cells ∧ I s)
      fun _ _ => False from
    (Triple.mapM_forall₂ hcol).bind fun parts => Triple.pure fun s hs => ⟨⟨parts, rfl, hs.1⟩, hs.2⟩
  intro p hp
  have hmem := List.fst_mem_of_mem_zipIdx hp
  obtain ⟨slab, hslab, hvalues⟩ := hreadable.slab _ htiles _ _ (hselected _ hmem)
  refine triple_readColumnTile (hselected _ hmem) hrow hslab ?_ ?_
  · obtain ⟨value, hvalue⟩ := hvalues _ (hrows q hq).2
    exact hvalue.vlaElemSize
  · obtain ⟨_, hrow', -, -, hdecode⟩ := id hslab
    rw [hrow, Except.ok.injEq] at hrow'
    rw [hrow', hdecode]
    refine (hfetch tile htile p.1 hmem slab hslab).post fun found s hs =>
      ⟨fun request hreq => ?_, hs.2⟩
    obtain ⟨value, hvalue⟩ := hvalues _ (hrows request hreq).2
    exact ⟨value, hs.1 _ (hrows request hreq).2 value hvalue, hvalue⟩

end

/-! ## Arrays -/

/-- The value that a list of filled cells leaves at a place of the output array. -/
def returnedCell {Value : Type} (cells : List ((Nat × Nat) × Value)) (i j : Nat) : Option Value :=
  (cells.reverse.find? fun cell => cell.1 = (i, j)).map Prod.snd

/-- The array of a request is the array of the whole table, restricted to the rows and columns
of the request in their order. -/
structure Projects {Value : Type} (shape : Shape) (request : ReadRequest)
    (full cells : List ((Nat × Nat) × Value)) : Prop where
  cell : ∀ i row, rowAt shape request.rows i = some row → ∀ j p, request.selected[j]? = some p →
    ∃ value, returnedCell cells i j = some value ∧ returnedCell full row p.2 = some value
  inside : ∀ i j, (returnedCell cells i j).isSome →
    (rowAt shape request.rows i).isSome ∧ (request.selected[j]?).isSome

section

variable {codec : Codec} {Value : Type} {render : Render Value} {columns : List Column}
  {file : Bytes}
  {cards : List Card} {dataOffset i j : Nat} {cells full : List ((Nat × Nat) × Value)}
  {value : Value}
  {request : ReadRequest}

theorem mem_of_returnedCell (h : returnedCell cells i j = some value) :
    ((i, j), value) ∈ cells := by
  obtain ⟨cell, hcell, rfl⟩ := Option.map_eq_some_iff.1 h
  have hplace : cell.1 = (i, j) := by simpa using List.find?_some hcell
  rw [← hplace]
  exact List.mem_reverse.1 (List.mem_of_find?_eq_some hcell)

/-- A place that is filled with one value only. -/
theorem returnedCell_eq (hmem : ((i, j), value) ∈ cells)
    (hall : ∀ value', ((i, j), value') ∈ cells → value' = value) :
    returnedCell cells i j = some value := by
  cases hcell : returnedCell cells i j with
  | none =>
    have hfind := List.find?_eq_none.1 (Option.map_eq_none_iff.1 hcell) _ (List.mem_reverse.2 hmem)
    exact absurd (decide_eq_true rfl) hfind
  | some value' => rw [hall value' (mem_of_returnedCell hcell)]

/-- A cell that is filled is a requested one, and has the value of the file. -/
theorem RequestCells.of_mem (htiled : Tiled (shapeOf cards))
    (hinside : RowsInside (shapeOf cards) request.rows)
    (h : RequestCells codec render columns file cards dataOffset request cells)
    (hmem : ((i, j), value) ∈ cells) :
    ∃ row p, rowAt (shapeOf cards) request.rows i = some row ∧ request.selected[j]? = some p ∧
      FreshCell codec render columns file cards dataOffset (row / (shapeOf cards).ztilelen) p.2
        (row % (shapeOf cards).ztilelen) value := by
  obtain ⟨tiles, rfl, htiles⟩ := h
  obtain ⟨part, hpart, hmem⟩ := List.mem_flatten.1 hmem
  obtain ⟨tile, htile, parts, rfl, hcols⟩ := exists_of_forall₂_right htiles hpart
  obtain ⟨col, hcol, hmem⟩ := List.mem_flatten.1 hmem
  obtain ⟨p, hp, hcells⟩ := exists_of_forall₂_right hcols hcol
  obtain ⟨q, hq, hplace, hfresh⟩ := exists_of_forall₂_right hcells hmem
  obtain ⟨rfl, rfl⟩ := Prod.mk.inj hplace
  obtain ⟨row, hat, hdiv, hmod⟩ := (mem_tilesWithRequests htiled hinside).1 ⟨tile, htile, rfl, hq⟩
  refine ⟨row, p.1, hat, List.mem_zipIdx_iff_getElem?.1 hp, ?_⟩
  rw [hdiv, hmod]
  exact hfresh

/-- Every requested cell is filled. -/
theorem RequestCells.exists_mem (htiled : Tiled (shapeOf cards))
    (hinside : RowsInside (shapeOf cards) request.rows)
    (h : RequestCells codec render columns file cards dataOffset request cells) {row : Nat}
    {p : Column × Nat} (hat : rowAt (shapeOf cards) request.rows i = some row)
    (hp : request.selected[j]? = some p) : ∃ value, ((i, j), value) ∈ cells := by
  obtain ⟨tiles, rfl, htiles⟩ := h
  obtain ⟨tile, htile, -, hq⟩ := (mem_tilesWithRequests htiled hinside).2 ⟨row, hat, rfl, rfl⟩
  obtain ⟨part, hpart, parts, rfl, hcols⟩ := exists_of_forall₂_left htiles htile
  have hcol : (p, j) ∈ request.selected.zipIdx := List.mem_zipIdx_iff_getElem?.2 hp
  obtain ⟨col, hcol, hcells⟩ := exists_of_forall₂_left hcols hcol
  obtain ⟨cell, hcell, hplace, -⟩ := exists_of_forall₂_left hcells hq
  refine ⟨cell.2, List.mem_flatten.2 ⟨_, hpart, List.mem_flatten.2 ⟨_, hcol, ?_⟩⟩⟩
  rw [← hplace]
  exact hcell

/-- The array has the value of the file at every requested place. -/
theorem RequestCells.returnedCell (htiled : Tiled (shapeOf cards))
    (hinside : RowsInside (shapeOf cards) request.rows)
    (h : RequestCells codec render columns file cards dataOffset request cells) {row : Nat}
    {p : Column × Nat} (hat : rowAt (shapeOf cards) request.rows i = some row)
    (hp : request.selected[j]? = some p) :
    ∃ value, CompressedTable.returnedCell cells i j = some value ∧
      FreshCell codec render columns file cards dataOffset (row / (shapeOf cards).ztilelen) p.2
        (row % (shapeOf cards).ztilelen) value := by
  have hfresh : ∀ value, ((i, j), value) ∈ cells →
      FreshCell codec render columns file cards dataOffset
      (row / (shapeOf cards).ztilelen) p.2 (row % (shapeOf cards).ztilelen) value := by
    intro value hmem
    obtain ⟨row', p', hat', hp', hvalue⟩ := h.of_mem htiled hinside hmem
    rw [hat, Option.some.injEq] at hat'
    rw [hp, Option.some.injEq] at hp'
    rw [hat', hp']
    exact hvalue
  obtain ⟨value, hmem⟩ := h.exists_mem htiled hinside hat hp
  exact ⟨value, returnedCell_eq hmem fun value' hmem' =>
    (hfresh value' hmem').unique (hfresh value hmem),
    hfresh value hmem⟩

end

end RustFits.CompressedTable
