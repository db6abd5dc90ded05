import RustFits.BinaryTable.Scan
import RustFits.BinaryTable.VarWrite
import RustFits.Lib.Fallible
import RustFits.Lib.Trace
import RustFits.Lib.Triple

/-!
# Descriptors over a run of calls

A descriptor is written with `as i32` or `as i64`, which nothing checks.

* `Stored` says that the descriptors of a row read back as they were planned.
* `CellsFit` is about the cells that a call gets: their numbers of elements, and the
  offsets that they come to, fit the descriptors.
* `fillMainRow_stored` is one row, and `VarCall.keeps` one call.  `stored_of_run` is a
  run of calls.
-/

namespace RustFits.BinaryTable

open Ascii ByteFile Machine BigEndian
open ColumnEdit (stripRows insertedRow)

/-! ## What is kept -/

/-- The numbers of a plan fit a descriptor of this kind. -/
def VlaCellPlan.Fits (plan : VlaCellPlan) (kind : VarKind) : Prop :=
  plan.nelements < 2 ^ (kind.bits - 1) ∧ plan.bytesOffsetInHeap < 2 ^ (kind.bits - 1)

/-- The descriptors of a row read back as the plans that they were written from. -/
def Stored (fields : List Field) (row : VarRow) : Prop :=
  ∀ (i : Nat) (field : Field) (kind : VarKind) (plan : VlaCellPlan), fields[i]? = some field →
    field.varKind = some kind → row.plans[i]? = some (some plan) →
      readDescriptor kind (slice row.bytes field.byteOffset field.byteWidth) =
        (↑plan.nelements, ↑plan.bytesOffsetInHeap)

/-- The columns lie one behind the other, and each row has its width. -/
structure VarTable.Layout (t : VarTable) : Prop where
  placed : Placed 0 (t.fields.map Field.toColumn) t.rowWidth
  rows : ∀ row ∈ t.rows, row.bytes.length = t.rowWidth ∧ row.plans.length = t.fields.length

/-- Every descriptor that is in the table as a call stored it reads back as planned. -/
def VarTable.Faithful (t : VarTable) : Prop := ∀ row ∈ t.rows, Stored t.fields row

/-- A cell that a call gets. -/
structure GivenCell where
  kind : VarKind
  letter : UInt8
  nelements : Nat
  deriving DecidableEq, Repr

/-- The cell of a column for a row.  A cell that is refused is none. -/
def givenCell (row : Nat) (column : Field × ColumnInput) : Option GivenCell :=
  match column.1.varKind, column.2.cells[row]? with
  | some kind, some cell =>
    match validateVlaCell cell column.1.tformLetter column.1.name row with
    | .ok nelements => some ⟨kind, column.1.tformLetter, nelements⟩
    | .error _ => none
  | _, _ => none

/-- The cells for one row. -/
def givenRow (columns : List (Field × ColumnInput)) (row : Nat) : List GivenCell :=
  columns.filterMap (givenCell row)

/-- The cells for `n` rows. -/
def givenCells (columns : List (Field × ColumnInput)) (n : Nat) : List GivenCell :=
  (List.range n).flatMap (givenRow columns)

/-- The numbers of elements fit the descriptors, and so do the sums of the sizes of the
cells before, from `start` on. -/
def CellsFit : Nat → List GivenCell → Prop
  | _, [] => True
  | start, cell :: cells =>
    cell.nelements < 2 ^ (cell.kind.bits - 1) ∧ start < 2 ^ (cell.kind.bits - 1) ∧
      CellsFit (start + cellLength cell.letter cell.nelements) cells

instance decidableCellsFit : ∀ start cells, Decidable (CellsFit start cells)
  | _, [] => isTrue trivial
  | start, cell :: cells =>
    have := decidableCellsFit (start + cellLength cell.letter cell.nelements) cells
    inferInstanceAs (Decidable (_ ∧ _ ∧ _))

/-- Where the heap begins for the cells of a call. -/
def VarCall.heapStart (t : VarTable) : VarCall → Nat
  | .write _ => 0
  | _ => t.currentPcount

/-- The cells that a call gets, in the order of the heap. -/
def VarCall.given (t : VarTable) : VarCall → List GivenCell
  | .write perCol => givenCells (t.fields.zip perCol) t.rows.length
  | .append perCol nrows => givenCells (t.fields.zip perCol) nrows
  | .setRow _ perCol => givenCells (t.fields.zip perCol) 1
  | .setSlice _ valueLen perCol => givenCells (t.fields.zip perCol) valueLen
  | .setFancy _ valueLen perCol => givenCells (t.fields.zip perCol) valueLen
  | .setColumn idx value =>
    (t.fields[idx]?).toList.flatMap fun field => givenCells [(field, value)] t.rows.length
  | .setCell idx _ value => (t.fields[idx]?).toList.flatMap fun field =>
      givenCells [(field, ⟨⟨⟨0x4F, 8⟩, false, [1], true, []⟩, [value]⟩)] 1
  | .insertColumn name _ kind letter value =>
    givenCells [(⟨⟨name, letter, 0, kind.width, some kind⟩, 1, none, Double.one, 0⟩, value)]
      t.rows.length

/-- The cells of a call fit. -/
def CallFits (t : VarTable) (call : VarCall) : Prop := CellsFit (call.heapStart t) (call.given t)

instance (t : VarTable) (call : VarCall) : Decidable (CallFits t call) :=
  inferInstanceAs (Decidable (CellsFit _ _))

/-! ## The plan -/

section

variable {columns : List (Field × ColumnInput)} {plans : List (Option VlaCellPlan)}
  {row n cursor last : Nat} {fields : List Field} {perCol : List ColumnInput}

/-- A row has a plan for each variable-length column, which fits. -/
def PlansFit (fields : List Field) (plans : List (Option VlaCellPlan)) : Prop :=
  List.Forall₂ (fun field plan => ∀ kind ∈ field.varKind, ∃ p, plan = some p ∧ p.Fits kind)
    fields plans

theorem planRow_fits (rest : List GivenCell) (h : planRow columns row cursor = .ok (plans, last))
    (hfit : CellsFit cursor (givenRow columns row ++ rest)) :
    PlansFit (columns.map Prod.fst) plans ∧ CellsFit last rest := by
  induction columns generalizing cursor plans with
  | nil =>
    obtain ⟨rfl, rfl⟩ := Prod.mk.inj (Except.ok.inj h)
    exact ⟨List.Forall₂.nil, hfit⟩
  | cons column columns ih =>
    obtain ⟨field, input⟩ := column
    rw [planRow] at h
    split_ifs at h with hkind
    · obtain ⟨⟨plans, next⟩, hplans, h⟩ := bind_eq_ok.1 h
      obtain ⟨rfl, rfl⟩ := Prod.mk.inj (Except.ok.inj h)
      have hnone := Option.isNone_iff_eq_none.1 hkind
      have hgiven : givenRow ((field, input) :: columns) row = givenRow columns row := by
        have hcell : givenCell row (field, input) = none := by simp [givenCell, hnone]
        rw [givenRow, List.filterMap_cons, hcell]
        rfl
      rw [hgiven] at hfit
      obtain ⟨hfits, hrest⟩ := ih hplans hfit
      refine ⟨List.Forall₂.cons (fun kind hk => ?_) hfits, hrest⟩
      rw [hnone] at hk
      cases hk
    · split at h
      · cases h
      · rename_i cell hcell
        obtain ⟨⟨plan, next⟩, hplan, h⟩ := bind_eq_ok.1 h
        obtain ⟨⟨plans, last⟩, hplans, h⟩ := bind_eq_ok.1 h
        obtain ⟨rfl, rfl⟩ := Prod.mk.inj (Except.ok.inj h)
        obtain ⟨nelements, hvalid, hplan⟩ := bind_eq_ok.1 hplan
        dsimp only at hplan
        split_ifs at hplan with hoverflow
        obtain ⟨rfl, rfl⟩ := Prod.mk.inj (Except.ok.inj hplan)
        obtain ⟨kind, hsome⟩ := Option.ne_none_iff_exists'.1 (mt Option.isNone_iff_eq_none.2 hkind)
        have hgiven : givenRow ((field, input) :: columns) row =
            ⟨kind, field.tformLetter, nelements⟩ :: givenRow columns row := by
          have hfound :
              givenCell row (field, input) = some ⟨kind, field.tformLetter, nelements⟩ := by
            simp [givenCell, hsome, hcell, hvalid]
          rw [givenRow, List.filterMap_cons, hfound]
          rfl
        rw [hgiven] at hfit
        obtain ⟨hcount, hstart, hfit⟩ := hfit
        obtain ⟨hfits, hrest⟩ := ih hplans hfit
        refine ⟨List.Forall₂.cons (fun k hk => ?_) hfits, hrest⟩
        obtain rfl := Option.some.inj (hsome.symm.trans hk)
        exact ⟨_, rfl, hcount, hstart⟩

theorem planRows_fits {rows : List (List (Option VlaCellPlan))} (rest : List GivenCell)
    (h : planRows columns n row cursor = .ok (rows, last))
    (hfit : CellsFit cursor (((List.range' row n).flatMap (givenRow columns)) ++ rest)) :
    rows.length = n ∧ ∀ plans ∈ rows, PlansFit (columns.map Prod.fst) plans := by
  induction n generalizing row cursor rows with
  | zero =>
    obtain ⟨rfl, rfl⟩ := Prod.mk.inj (Except.ok.inj h)
    exact ⟨rfl, by simp⟩
  | succ n ih =>
    rw [planRows] at h
    obtain ⟨⟨plans, next⟩, hplans, h⟩ := bind_eq_ok.1 h
    obtain ⟨⟨others, last⟩, hothers, h⟩ := bind_eq_ok.1 h
    obtain ⟨rfl, rfl⟩ := Prod.mk.inj (Except.ok.inj h)
    rw [List.range'_succ, List.flatMap_cons, List.append_assoc] at hfit
    obtain ⟨hfits, hfit⟩ := planRow_fits _ hplans hfit
    obtain ⟨hlen, hall⟩ := ih hothers hfit
    refine ⟨by rw [List.length_cons, hlen], ?_⟩
    rw [List.forall_mem_cons]
    exact ⟨hfits, hall⟩

/-- What fits as it is given fits as it is planned. -/
theorem planVlaHeapLayout_fits {rows : List (List (Option VlaCellPlan))}
    (h : planVlaHeapLayout fields perCol n cursor = .ok (rows, last))
    (hfit : CellsFit cursor (givenCells (fields.zip perCol) n)) :
    rows.length = n ∧ ∀ plans ∈ rows, PlansFit ((fields.zip perCol).map Prod.fst) plans := by
  apply planRows_fits [] h
  rwa [List.append_nil, ← List.range_eq_range']

end

/-! ## Rows -/

section

variable {field : Field} {fields : List Field} {fixed : List (Option WritePart)}
  {plans : List (Option VlaCellPlan)} {part : Option WritePart} {plan : Option VlaCellPlan}
  {inputRow start stop rowWidth : Nat} {row out data : Bytes}

theorem splice_eq_ok_iff {off : Nat} : splice row off data = .ok out ↔
    off + data.length ≤ row.length ∧ writeAll row off data = out := by
  unfold splice
  split_ifs with h
  · exact ⟨fun heq => ⟨h, Except.ok.inj heq⟩, fun heq => congrArg _ heq.2⟩
  · exact iff_of_false (fun heq => by cases heq) fun heq => h heq.1

/-- A cell of a row: the cells in front of it stay, and a descriptor is in its place. -/
theorem fillCell_ok (h : fillCell inputRow row (field, part, plan) = .ok out) :
    out.length = row.length ∧
      (∀ a n, a + n ≤ field.byteOffset → slice out a n = slice row a n) ∧
      ∀ kind p, field.varKind = some kind → plan = some p →
        slice out field.byteOffset kind.width =
          writeDescriptor kind p.nelements p.bytesOffsetInHeap := by
  unfold fillCell at h
  dsimp only at h
  obtain ⟨dst, -, h⟩ := bind_eq_ok.1 h
  have hwrite {data : Bytes} (hfit : field.byteOffset + data.length ≤ row.length) :
      (writeAll row field.byteOffset data).length = row.length ∧
        ∀ a n, a + n ≤ field.byteOffset →
          slice (writeAll row field.byteOffset data) a n = slice row a n :=
    ⟨writeAll_length_of_le hfit, fun a n hle => slice_writeAll_of_disjoint (by omega) (.inl hle)⟩
  split at h
  · rename_i kind parsed _ hkind _
    obtain ⟨hfit, rfl⟩ := splice_eq_ok_iff.1 h
    obtain ⟨hlen, hfront⟩ := hwrite hfit
    refine ⟨hlen, hfront, fun k q hk hq => ?_⟩
    obtain rfl := Option.some.inj (hkind.symm.trans hk)
    obtain rfl := Option.some.inj hq
    exact slice_writeAll_of_length (by omega) (writeDescriptor_length _ _ _)
  · rename_i hkind _
    obtain ⟨src, -, h⟩ := bind_eq_ok.1 h
    obtain ⟨bytes, -, h⟩ := bind_eq_ok.1 h
    obtain ⟨hfit, rfl⟩ := splice_eq_ok_iff.1 h
    obtain ⟨hlen, hfront⟩ := hwrite hfit
    refine ⟨hlen, hfront, fun k q hk _ => ?_⟩
    rw [hkind] at hk
    cases hk
  · cases h

/-- A descriptor reads back just when its numbers fit. -/
theorem VlaCellPlan.reads_iff {p : VlaCellPlan} {kind : VarKind} :
    readDescriptor kind (writeDescriptor kind p.nelements p.bytesOffsetInHeap) =
      (↑p.nelements, ↑p.bytesOffsetInHeap) ↔ p.Fits kind := by
  constructor
  · intro h
    have hlt := readDescriptor_lt kind (writeDescriptor kind p.nelements p.bytesOffsetInHeap)
    rw [h] at hlt
    exact ⟨Int.ofNat_lt.1 hlt.1, Int.ofNat_lt.1 hlt.2⟩
  · intro h
    rw [readDescriptor_writeDescriptor, toSigned_mod_of_lt h.1, toSigned_mod_of_lt h.2]

/-- The cells of a row, from `start` on. -/
theorem fillCells_stored (hplaced : Placed start (fields.map Field.toColumn) stop)
    (hfixed : fixed.length = fields.length) (hfit : PlansFit fields plans)
    (h : (fields.zip (fixed.zip plans)).foldlM (fillCell inputRow) row = .ok out) :
    out.length = row.length ∧ (∀ a n, a + n ≤ start → slice out a n = slice row a n) ∧
      Stored fields ⟨out, plans⟩ := by
  induction hfit generalizing fixed start row with
  | nil =>
    obtain rfl := Except.ok.inj h
    exact ⟨rfl, fun _ _ _ => rfl, fun i field kind plan hi => by cases hi⟩
  | @cons field plan fields plans hfirst hrest ih =>
    cases fixed with
    | nil => cases hfixed
    | cons part fixed =>
      obtain ⟨hoff, hwidth, hplaced⟩ := hplaced
      rw [List.zip_cons_cons, List.zip_cons_cons, List.foldlM_cons] at h
      obtain ⟨next, hcell, h⟩ := bind_eq_ok.1 h
      obtain ⟨hlen, hfront, hdesc⟩ := fillCell_ok hcell
      obtain ⟨hlen', hfront', hstored⟩ := ih hplaced (by simpa using hfixed) h
      have hoff : field.byteOffset = start := hoff
      refine ⟨hlen'.trans hlen, fun a n hle => ?_, ?_⟩
      · rw [hfront' a n (by omega), hfront a n (by omega)]
      · rintro (_ | i) f kind p hf hkind hp
        · obtain rfl := Option.some.inj hf
          obtain rfl := Option.some.inj hp
          have hw : field.byteWidth = kind.width := hwidth kind hkind
          have hin : field.byteOffset + field.byteWidth ≤ start + field.byteWidth := by omega
          dsimp only
          rw [hfront' _ _ hin, hw, hdesc kind p hkind rfl]
          obtain ⟨q, hq, hfits⟩ := hfirst kind hkind
          rw [Option.some.inj hq, VlaCellPlan.reads_iff.2 hfits]
        · exact hstored i f kind p hf hkind hp

/-- One row of a write. -/
theorem fillMainRow_stored (hplaced : Placed 0 (fields.map Field.toColumn) rowWidth)
    (hfixed : fixed.length = fields.length) (hfit : PlansFit fields plans)
    (h : fillMainRow fields fixed plans rowWidth inputRow = .ok out) :
    out.length = rowWidth ∧ Stored fields ⟨out, plans⟩ := by
  obtain ⟨hlen, -, hstored⟩ := fillCells_stored hplaced hfixed hfit h
  rw [List.length_replicate] at hlen
  exact ⟨hlen, hstored⟩

end

/-! ## Tables -/

/-- A row of the right length, whose descriptors read back. -/
structure RowSound (fields : List Field) (rowWidth : Nat) (row : VarRow) : Prop where
  length : row.bytes.length = rowWidth
  plans : row.plans.length = fields.length
  stored : Stored fields row

/-- The invariant of a run. -/
structure VarTable.Sound (t : VarTable) : Prop where
  placed : Placed 0 (t.fields.map Field.toColumn) t.rowWidth
  rows : ∀ row ∈ t.rows, RowSound t.fields t.rowWidth row

section

variable {t : VarTable} {fields : List Field} {field : Field} {fixed : List (Option WritePart)}
  {plans : List (List (Option VlaCellPlan))} {perCol : List ColumnInput} {value : ColumnInput}
  {row : VarRow} {rows : List VarRow} {n first start chunk idx total rowWidth : Nat}
  {kind : VarKind} {p : VlaCellPlan}

theorem VarTable.sound_iff : t.Sound ↔ t.Layout ∧ t.Faithful :=
  ⟨fun h => ⟨⟨h.placed, fun row hrow => ⟨(h.rows row hrow).length, (h.rows row hrow).plans⟩⟩,
      fun row hrow => (h.rows row hrow).stored⟩,
    fun h =>
      ⟨h.1.placed, fun row hrow => ⟨(h.1.rows row hrow).1, (h.1.rows row hrow).2, h.2 row hrow⟩⟩⟩

theorem VarTable.Sound.setPcount (h : t.Sound) (n : Nat) : (t.setPcount n).Sound :=
  ⟨h.placed, h.rows⟩

theorem VarTable.Sound.putRows (h : t.Sound)
    (hrows : ∀ row ∈ rows, RowSound t.fields t.rowWidth row)
    (first : Nat) : (t.putRows first rows).Sound := by
  refine ⟨h.placed, fun row hrow => ?_⟩
  simp only [VarTable.putRows, List.mem_append] at hrow
  rcases hrow with (hrow | hrow) | hrow
  · exact h.rows row (List.mem_of_mem_take hrow)
  · exact hrows row hrow
  · exact h.rows row (List.mem_of_mem_drop hrow)

/-- What a call over whole rows has planned. -/
structure Planned (fields : List Field) (n : Nat) (fixed : List (Option WritePart))
    (plans : List (List (Option VlaCellPlan))) : Prop where
  fixed : fixed.length = fields.length
  length : plans.length = n
  fit : ∀ row ∈ plans, PlansFit fields row

theorem planned_of_ok (hfixed : fixedColInfos fields perCol n = .ok fixed)
    (hplans : planVlaHeapLayout fields perCol n start = .ok (plans, total))
    (hfit : CellsFit start (givenCells (fields.zip perCol) n)) : Planned fields n fixed plans := by
  unfold fixedColInfos at hfixed
  split_ifs at hfixed with hshort
  have hzip : (fields.zip perCol).map Prod.fst = fields := List.map_fst_zip (by omega)
  obtain ⟨hlen, hall⟩ := planVlaHeapLayout_fits hplans hfit
  rw [hzip] at hall
  have hcount := (mapM_eq_ok_iff.1 hfixed).length_eq
  rw [List.length_zip] at hcount
  exact ⟨by omega, hlen, hall⟩

/-- Rows that are filled from plans that fit. -/
theorem fillRows_sound (h : t.Sound) (hplanned : Planned t.fields n fixed plans)
    (hle : start + chunk ≤ n) (hrows : fillRows t fixed plans start chunk = .ok rows) :
    ∀ row ∈ rows, RowSound t.fields t.rowWidth row := by
  intro row hrow
  obtain ⟨inputRow, hmem, hfill⟩ := exists_of_mem_mapM hrows hrow
  obtain ⟨bytes, hbytes, hfill⟩ := bind_eq_ok.1 hfill
  obtain rfl := Except.ok.inj hfill
  have hlt : inputRow < plans.length := by
    have := (List.mem_range'_1.1 hmem).2
    rw [hplanned.length]
    omega
  have hfit : PlansFit t.fields (plans.getD inputRow []) := by
    rw [List.getD_eq_getElem?_getD, List.getElem?_eq_getElem hlt]
    exact hplanned.fit _ (List.getElem_mem hlt)
  obtain ⟨hlen, hstored⟩ := fillMainRow_stored h.placed hplanned.fixed hfit hbytes
  exact ⟨hlen, hfit.length_eq.symm, hstored⟩

/-- The bytes of a descriptor lie apart from the other columns. -/
theorem RowSound.putDescriptor (h : RowSound fields rowWidth row)
    (hplaced : Placed 0 (fields.map Field.toColumn) rowWidth) (hfield : fields[idx]? = some field)
    (hkind : field.varKind = some kind) (hfit : p.Fits kind) :
    RowSound fields rowWidth (row.putDescriptor idx field kind p) := by
  have hmem : field.toColumn ∈ fields.map Field.toColumn :=
    List.mem_map_of_mem (List.mem_of_getElem? hfield)
  obtain ⟨-, hin, hwidth⟩ := (placed_mem hplaced).2 _ hmem
  have hwidth : field.byteWidth = kind.width := hwidth kind hkind
  have hlen := h.length
  have hdata : (writeDescriptor kind p.nelements p.bytesOffsetInHeap).length = field.byteWidth := by
    rw [writeDescriptor_length, hwidth]
  have hroom : field.byteOffset + (writeDescriptor kind p.nelements p.bytesOffsetInHeap).length ≤
      row.bytes.length := by
    rw [hdata, hlen]
    exact hin
  refine ⟨(writeAll_length_of_le hroom).trans hlen, ?_, ?_⟩
  · rw [VarRow.putDescriptor, List.length_set]
    exact h.plans
  · intro i f k q hf hk hq
    unfold VarRow.putDescriptor at hq ⊢
    dsimp only at hq ⊢
    by_cases hi : i = idx
    · subst hi
      obtain rfl := Option.some.inj (hf.symm.trans hfield)
      obtain rfl := Option.some.inj (hk.symm.trans hkind)
      have hlt : i < row.plans.length := by
        rw [h.plans]
        exact (List.getElem?_eq_some_iff.1 hf).1
      rw [List.getElem?_set_self hlt] at hq
      obtain rfl := Option.some.inj (Option.some.inj hq)
      rw [slice_writeAll_of_length (by omega) hdata, VlaCellPlan.reads_iff.2 hfit]
    · rw [List.getElem?_set_ne (Ne.symm hi)] at hq
      have hapart : f.byteOffset + f.byteWidth ≤ field.byteOffset ∨
          field.byteOffset + field.byteWidth ≤ f.byteOffset := by
        obtain ⟨hi', rfl⟩ := List.getElem?_eq_some_iff.1 hf
        obtain ⟨hidx, rfl⟩ := List.getElem?_eq_some_iff.1 hfield
        have hpair := List.pairwise_iff_getElem.1 (List.pairwise_map.1 (placed_pairwise hplaced))
        rcases Nat.lt_or_gt_of_ne hi with hlt | hgt
        · exact .inl (hpair i idx hi' hidx hlt)
        · exact .inr (hpair idx i hidx hi' hgt)
      rw [slice_writeAll_of_disjoint (by omega) (by omega)]
      exact h.stored i f k q hf hk hq

end

/-! ## Calls -/

/-- The columns are those of `t`, and the table is sound. -/
def SoundAs (t s : VarTable) : Prop := s.fields = t.fields ∧ s.rowWidth = t.rowWidth ∧ s.Sound

section

variable {α : Type} {t : VarTable} {P : VarTable → Prop} {E : PyErr → VarTable → Prop}
  {fixed : List (Option WritePart)} {plans : List (List (Option VlaCellPlan))}
  {perCol : List ColumnInput} {n first : Nat} {call : VarCall}

theorem VarTable.Sound.as (h : t.Sound) : SoundAs t t := ⟨rfl, rfl, h⟩

/-- A step that may raise. -/
theorem VarOp.ofExcept_triple {β : Type} {x : Except PyErr α} {f : α → VarOp β}
    {Q : β → VarTable → Prop} (hE : ∀ e s, P s → E e s) (h : ∀ a, x = .ok a → Triple P (f a) Q E) :
    Triple P (VarOp.ofExcept x >>= f) Q E := by
  cases x with
  | ok a => exact h a rfl
  | error e => exact hE e

/-- The rows of an input, put into the table. -/
theorem SoundAs.putRows {s : VarTable} (h : SoundAs t s) (hplanned : Planned t.fields n fixed plans)
    {start chunk : Nat} (hle : start + chunk ≤ n) {rows : List VarRow}
    (hrows : fillRows s fixed plans start chunk = .ok rows) (first : Nat) :
    SoundAs t (s.putRows first rows) := by
  obtain ⟨hfields, hwidth, hsound⟩ := h
  refine ⟨hfields, hwidth, hsound.putRows ?_ first⟩
  exact fillRows_sound hsound (hfields ▸ hplanned) hle hrows

theorem writeVlaStrips_keeps (hplanned : Planned t.fields n fixed plans)
    {strip fuel rowStart : Nat} :
    Triple (SoundAs t) (writeVlaStrips fixed plans first n strip fuel rowStart) (fun _ => SoundAs t)
      fun _ => SoundAs t := by
  induction fuel generalizing rowStart with
  | zero => exact Triple.pure fun _ hs => hs
  | succ fuel ih =>
    unfold writeVlaStrips
    apply Triple.ite
    · exact fun _ => Triple.pure fun _ hs => hs
    · intro hend
      apply Triple.get_bind
      intro s hs
      apply VarOp.ofExcept_triple (fun _ s' hs' => hs' ▸ hs)
      intro rows hrows
      have hput := hs.putRows hplanned (by omega) hrows (first + rowStart)
      exact Triple.bind (Triple.set fun _ _ => hput) fun _ => ih

theorem writeVlaDataRange_keeps (hplanned : Planned t.fields n fixed plans) :
    Triple (SoundAs t) (writeVlaDataRange fixed plans first n) (fun _ => SoundAs t)
      fun _ => SoundAs t := by
  apply Triple.get_bind
  intro s hs
  exact (writeVlaStrips_keeps hplanned).pre fun s' hs' => hs' ▸ hs

theorem writeVlaDataStrided_keeps {diskRows : List Nat}
    (hplanned : Planned t.fields diskRows.length fixed plans) :
    Triple (SoundAs t) (writeVlaDataStrided fixed plans diskRows) (fun _ => SoundAs t)
      fun _ => SoundAs t := by
  apply Triple.forM
  rintro ⟨diskRow, inputRow⟩ hjob
  have hlt : inputRow < diskRows.length := by
    have := (List.mem_zipIdx' hjob).1
    exact this
  apply Triple.get_bind
  intro s hs
  apply VarOp.ofExcept_triple (fun _ s' hs' => hs' ▸ hs)
  intro rows hrows
  exact Triple.set fun _ _ => hs.putRows hplanned hlt hrows diskRow

theorem SoundAs.setPcount {s : VarTable} (h : SoundAs t s) (m : Nat) : SoundAs t (s.setPcount m) :=
  ⟨h.1, h.2.1, h.2.2.setPcount m⟩

/-- The rows are written, and then PCOUNT. -/
theorem SoundAs.finish {x : VarOp Unit} (h : t.Sound)
    (hrows : Triple (SoundAs t) x (fun _ => SoundAs t) fun _ => SoundAs t) (total : Nat) :
    Triple (fun s => s = t) (x >>= fun _ => modify fun s => s.setPcount total)
      (fun _ => VarTable.Sound) fun _ => VarTable.Sound := by
  have hall : Triple (SoundAs t) (x >>= fun _ => modify fun s => s.setPcount total)
      (fun _ => SoundAs t) fun _ => SoundAs t :=
    hrows.bind fun _ => Triple.modify fun s hs => hs.setPcount total
  apply hall.conseq
  · rintro s rfl
    exact h.as
  · exact fun _ s hs => hs.2.2
  · exact fun _ s hs => hs.2.2

theorem setitemRowsVlaAwareInner_keeps (h : t.Sound) {rows : VlaRowSpec}
    (hfit : CellsFit t.currentPcount (givenCells (t.fields.zip perCol) rows.inputNrows)) :
    Triple (fun s => s = t) (setitemRowsVlaAwareInner perCol rows) (fun _ => VarTable.Sound)
      fun _ => VarTable.Sound := by
  apply Triple.get_bind
  rintro s rfl
  apply VarOp.ofExcept_triple (fun _ s' hs' => hs' ▸ h)
  intro fixed hfixed
  apply VarOp.ofExcept_triple (fun _ s' hs' => hs' ▸ h)
  rintro ⟨plans, total⟩ hplans
  have hplanned := planned_of_ok hfixed hplans hfit
  cases rows with
  | contiguous firstRow count => exact SoundAs.finish h (writeVlaDataRange_keeps hplanned) total
  | strided diskRows => exact SoundAs.finish h (writeVlaDataStrided_keeps hplanned) total

theorem writeVlaAware_keeps (h : t.Sound) (hfit : CallFits t (.write perCol)) :
    Triple (fun s => s = t) (writeVlaAware perCol) (fun _ => VarTable.Sound) fun _ =>
      VarTable.Sound := by
  apply Triple.get_bind
  rintro s rfl
  apply VarOp.ofExcept_triple (fun _ s' hs' => hs' ▸ h)
  intro _ _
  apply VarOp.ofExcept_triple (fun _ s' hs' => hs' ▸ h)
  intro fixed hfixed
  apply VarOp.ofExcept_triple (fun _ s' hs' => hs' ▸ h)
  rintro ⟨plans, total⟩ hplans
  exact SoundAs.finish h (writeVlaDataRange_keeps (planned_of_ok hfixed hplans hfit)) total

theorem appendVlaAware_keeps (h : t.Sound) (hfit : CallFits t (.append perCol n)) :
    Triple (fun s => s = t) (appendVlaAware perCol n) (fun _ => VarTable.Sound)
      fun _ => VarTable.Sound := by
  apply Triple.ite
  · exact fun _ => Triple.pure fun s hs => hs ▸ h
  · intro _
    apply Triple.get_bind
    rintro s rfl
    apply VarOp.ofExcept_triple (fun _ s' hs' => hs' ▸ h)
    intro _ _
    apply VarOp.ofExcept_triple (fun _ s' hs' => hs' ▸ h)
    intro fixed hfixed
    apply VarOp.ofExcept_triple (fun _ s' hs' => hs' ▸ h)
    rintro ⟨plans, total⟩ hplans
    apply VarOp.ofExcept_triple (fun _ s' hs' => hs' ▸ h)
    intro rows hrows
    have hplanned := planned_of_ok hfixed hplans hfit
    have hput := h.as.putRows hplanned (by omega) hrows s.rows.length
    exact Triple.set fun _ _ => (hput.setPcount total).2.2

theorem setitemSingleRowVlaAware_keeps {i : Int} (h : t.Sound)
    (hfit : CallFits t (.setRow i perCol)) :
    Triple (fun s => s = t) (setitemSingleRowVlaAware i perCol) (fun _ => VarTable.Sound)
      fun _ => VarTable.Sound := by
  apply Triple.get_bind
  rintro s rfl
  apply VarOp.ofExcept_triple (fun _ s' hs' => hs' ▸ h)
  intro r _
  exact setitemRowsVlaAwareInner_keeps h hfit

theorem setitemRowSliceVlaAware_keeps {slice : PySlice} (h : t.Sound)
    (hfit : CallFits t (.setSlice slice n perCol)) :
    Triple (fun s => s = t) (setitemRowSliceVlaAware slice n perCol) (fun _ => VarTable.Sound)
      fun _ => VarTable.Sound := by
  have hstay (e : PyErr) : Triple (fun s => s = t) (throw e : VarOp Unit) (fun _ => VarTable.Sound)
      fun _ => VarTable.Sound := Triple.throw fun s hs => hs ▸ h
  apply Triple.get_bind
  rintro s rfl
  split
  · exact hstay _
  · rename_i indices hindices
    apply Triple.ite (fun _ => hstay _)
    intro _
    apply Triple.ite (fun _ => hstay _)
    intro hcount
    have hcount : indices.count = n := not_not.1 hcount
    apply Triple.ite (fun _ => Triple.pure fun s hs => hs ▸ h)
    intro _
    apply Triple.ite
    · intro _
      apply setitemRowsVlaAwareInner_keeps h
      rw [VlaRowSpec.inputNrows, hcount]
      exact hfit
    · intro _
      apply setitemRowsVlaAwareInner_keeps h
      rw [VlaRowSpec.inputNrows, SliceIndices.toList, List.length_map, List.length_range, hcount]
      exact hfit

theorem setitemFancyRowsVlaAware_keeps {rows : List Int} (h : t.Sound)
    (hfit : CallFits t (.setFancy rows n perCol)) :
    Triple (fun s => s = t) (setitemFancyRowsVlaAware rows n perCol) (fun _ => VarTable.Sound)
      fun _ => VarTable.Sound := by
  have hstay (e : PyErr) : Triple (fun s => s = t) (throw e : VarOp Unit) (fun _ => VarTable.Sound)
      fun _ => VarTable.Sound := Triple.throw fun s hs => hs ▸ h
  apply Triple.get_bind
  rintro s rfl
  apply Triple.ite (fun _ => hstay _)
  intro _
  apply Triple.ite (fun _ => hstay _)
  intro hcount
  apply Triple.ite (fun _ => Triple.pure fun s hs => hs ▸ h)
  intro _
  apply VarOp.ofExcept_triple (fun _ s' hs' => hs' ▸ h)
  intro diskRows hrows
  apply setitemRowsVlaAwareInner_keeps h
  rw [VlaRowSpec.inputNrows, ← (mapM_eq_ok_iff.1 hrows).length_eq, not_not.1 hcount]
  exact hfit

/-! ## One column -/

theorem onlyPlan_fits {field : Field} {kind : VarKind} {row : List (Option VlaCellPlan)}
    (h : PlansFit [field] row) (hkind : field.varKind = some kind) :
    ∃ p, onlyPlan row = some p ∧ p.Fits kind := by
  cases h with
  | cons hfirst hrest =>
    obtain ⟨p, rfl, hfits⟩ := hfirst kind hkind
    exact ⟨p, rfl, hfits⟩

theorem setitemSingleColumnVla_keeps {idx : Nat} {value : ColumnInput} (h : t.Sound)
    (hfit : CallFits t (.setColumn idx value)) :
    Triple (fun s => s = t) (setitemSingleColumnVla idx value) (fun _ => VarTable.Sound)
      fun _ => VarTable.Sound := by
  have hstay (e : PyErr) : Triple (fun s => s = t) (throw e : VarOp Unit) (fun _ => VarTable.Sound)
      fun _ => VarTable.Sound := Triple.throw fun s hs => hs ▸ h
  apply Triple.get_bind
  rintro s rfl
  split
  · exact hstay _
  · rename_i field hfield
    split
    · exact hstay _
    · rename_i kind hkind
      apply Triple.ite (fun _ => hstay _)
      intro _
      apply Triple.ite (fun _ => hstay _)
      intro _
      apply VarOp.ofExcept_triple (fun _ s' hs' => hs' ▸ h)
      rintro ⟨plans, total⟩ hplans
      unfold CallFits VarCall.given at hfit
      dsimp only at hfit
      rw [hfield, Option.toList_some, List.flatMap_singleton] at hfit
      obtain ⟨-, hall⟩ := planVlaHeapLayout_fits hplans hfit
      apply Triple.set
      intro _ _
      refine ⟨h.placed, fun row hrow => ?_⟩
      obtain ⟨⟨old, plan⟩, hmem, rfl⟩ := List.mem_map.1 hrow
      obtain ⟨hold, hplan⟩ := List.of_mem_zip hmem
      obtain ⟨p, hp, hfits⟩ := onlyPlan_fits (hall plan hplan) hkind
      dsimp only
      rw [hp]
      exact (h.rows old hold).putDescriptor h.placed hfield hkind hfits

theorem mem_modify {β : Type} {f : β → β} {l : List β} {i : Nat} {x : β} (h : x ∈ l.modify i f) :
    x ∈ l ∨ ∃ a ∈ l, x = f a := by
  obtain ⟨k, hk⟩ := List.mem_iff_getElem?.1 h
  rw [List.getElem?_modify] at hk
  obtain ⟨a, ha, rfl⟩ := Option.map_eq_some_iff.1 hk
  have hmem := List.mem_of_getElem? ha
  split_ifs
  · exact .inr ⟨a, hmem, rfl⟩
  · exact .inl hmem

/-- The text of an error is all that the row matters for. -/
theorem validateVlaCell_row {cell : CellInput} {letter : UInt8} {name : Str} {row nelements : Nat}
    (h : validateVlaCell cell letter name row = .ok nelements) (row' : Nat) :
    validateVlaCell cell letter name row' = .ok nelements := by
  unfold validateVlaCell at h ⊢
  split_ifs at h ⊢ with hA
  · cases cell with
    | text utf8 =>
      unfold extractStringVlaCellBytes at h ⊢
      dsimp only at h ⊢
      split at h
      · exact h
      · cases h
    | bytes bytes => exact h
    | _ => cases h
  · split at h
    · split at h
      · cases h
      · split_ifs at h ⊢
        exact h
    · cases h
    · cases h

theorem setitemCellVla_keeps {idx : Nat} {i : Int} {value : CellInput} (h : t.Sound)
    (hfit : CallFits t (.setCell idx i value)) :
    Triple (fun s => s = t) (setitemCellVla idx i value) (fun _ => VarTable.Sound)
      fun _ => VarTable.Sound := by
  have hstay (e : PyErr) : Triple (fun s => s = t) (throw e : VarOp Unit) (fun _ => VarTable.Sound)
      fun _ => VarTable.Sound := Triple.throw fun s hs => hs ▸ h
  apply Triple.get_bind
  rintro s rfl
  apply VarOp.ofExcept_triple (fun _ s' hs' => hs' ▸ h)
  intro r _
  split
  · exact hstay _
  · rename_i field hfield
    split
    · exact hstay _
    · rename_i kind hkind
      apply VarOp.ofExcept_triple (fun _ s' hs' => hs' ▸ h)
      intro nelements hvalid
      have hgiven : VarCall.given s (.setCell idx i value) =
          [⟨kind, field.tformLetter, nelements⟩] := by
        rw [VarCall.given, hfield]
        simp [givenCells, givenRow, givenCell, hkind, validateVlaCell_row hvalid 0]
      unfold CallFits at hfit
      rw [hgiven] at hfit
      have hfits : VlaCellPlan.Fits ⟨nelements, s.currentPcount⟩ kind := ⟨hfit.1, hfit.2.1⟩
      apply Triple.set
      intro _ _
      refine ⟨h.placed, fun row hrow => ?_⟩
      rcases mem_modify hrow with hold | ⟨old, hold, rfl⟩
      · exact h.rows row hold
      · exact (h.rows old hold).putDescriptor h.placed hfield hkind hfits

/-! ## A new column -/

theorem placed_append {l r : List Column} {a b : Nat} :
    Placed a (l ++ r) b ↔ Placed a l (a + totalWidth l) ∧ Placed (a + totalWidth l) r b := by
  induction l generalizing a with
  | nil => exact ⟨fun h => ⟨rfl, h⟩, fun h => h.2⟩
  | cons c l ih =>
    have htotal : a + totalWidth (c :: l) = a + c.byteWidth + totalWidth l := by
      rw [totalWidth, List.map_cons, List.sum_cons, ← Nat.add_assoc]
      rfl
    rw [List.cons_append, Placed, Placed, ih, htotal]
    tauto

theorem placed_shift {columns : List Column} {a b w : Nat} (h : Placed a columns b) :
    Placed (a + w) (columns.map fun c => { c with byteOffset := c.byteOffset + w }) (b + w) := by
  induction columns generalizing a with
  | nil => exact congrArg (· + w) h
  | cons c columns ih =>
    obtain ⟨hoff, hkind, hrest⟩ := h
    refine ⟨congrArg (· + w) hoff, hkind, ?_⟩
    have := ih hrest
    rwa [Nat.add_right_comm] at this

theorem insertedRow_front {row data : Bytes} {pre a n : Nat} (hpre : pre ≤ row.length)
    (hle : a + n ≤ pre) : slice (insertedRow pre row data) a n = slice row a n := by
  rw [insertedRow, List.append_assoc,
    slice_append_left (by rw [List.length_take]; omega), slice, slice,
    List.drop_take, List.take_take, Nat.min_eq_left (by omega)]

theorem insertedRow_middle {row data : Bytes} {pre n : Nat} (hpre : pre ≤ row.length)
    (hn : data.length = n) : slice (insertedRow pre row data) pre n = data := by
  rw [insertedRow, List.append_assoc, slice_append_behind (by rw [List.length_take]; omega), ← hn,
    List.take_left]

theorem insertedRow_behind {row data : Bytes} {pre a n w : Nat} (hpre : pre ≤ row.length)
    (hn : data.length = w) (hle : pre ≤ a) :
    slice (insertedRow pre row data) (a + w) n = slice row a n := by
  have hfront : (row.take pre ++ data).length = pre + w := by
    rw [List.length_append, List.length_take, hn]
    omega
  obtain ⟨k, rfl⟩ := Nat.exists_eq_add_of_le hle
  rw [insertedRow, slice, slice, show pre + k + w = (row.take pre ++ data).length + k by omega,
    List.drop_length_add_append, List.drop_drop]

end

section

variable {t : VarTable} {idx : Nat} {field : Field} {kind : VarKind} {row : VarRow}
    {p : VlaCellPlan}

/-- The columns with a new one at `idx`. -/
def insertedFields (fields : List Field) (idx : Nat) (field : Field)
    (kind : VarKind) : List Field :=
  fields.take idx ++
    { field with byteOffset := totalWidth ((fields.take idx).map Field.toColumn) } ::
      (fields.drop idx).map fun f => { f with byteOffset := f.byteOffset + kind.width }

/-- A row with a descriptor for the new column. -/
def insertedVarRow (fields : List Field) (idx : Nat) (kind : VarKind) (p : VlaCellPlan)
    (row : VarRow) :
    VarRow :=
  ⟨insertedRow (totalWidth ((fields.take idx).map Field.toColumn)) row.bytes
      (writeDescriptor kind p.nelements p.bytesOffsetInHeap),
    row.plans.take idx ++ some p :: row.plans.drop idx⟩

theorem placed_inserted {fields : List Field} {rowWidth : Nat}
    (h : Placed 0 (fields.map Field.toColumn) rowWidth) (hkind : field.varKind = some kind)
    (hwidth : field.byteWidth = kind.width) :
    Placed 0 ((insertedFields fields idx field kind).map Field.toColumn)
      (rowWidth + kind.width) := by
  have hsplit : fields.map Field.toColumn =
      (fields.take idx).map Field.toColumn ++ (fields.drop idx).map Field.toColumn := by
    rw [← List.map_append, List.take_append_drop]
  rw [hsplit] at h
  obtain ⟨hfront, hback⟩ := placed_append.1 h
  have hshift := placed_shift (w := kind.width) hback
  rw [insertedFields, List.map_append, List.map_cons, List.map_map]
  rw [List.map_map] at hshift
  refine placed_append.2 ⟨hfront, (Nat.zero_add _).symm, fun k hk => ?_, ?_⟩
  · rw [hwidth, Option.some.inj (hkind.symm.trans hk)]
  · have hw : (⟨field.toColumn.name, field.toColumn.tformLetter,
        totalWidth ((fields.take idx).map Field.toColumn), field.byteWidth,
          field.varKind⟩ : Column).byteWidth = kind.width := hwidth
    rw [← hw] at hshift ⊢
    exact hshift

/-- The other columns are read where they move. -/
theorem insertedVarRow_sound {fields : List Field} {rowWidth : Nat}
    (h : Placed 0 (fields.map Field.toColumn) rowWidth) (hidx : idx ≤ fields.length)
    (hkind : field.varKind = some kind) (hwidth : field.byteWidth = kind.width)
    (hrow : RowSound fields rowWidth row) (hfits : p.Fits kind) :
    RowSound (insertedFields fields idx field kind) (rowWidth + kind.width)
      (insertedVarRow fields idx kind p row) := by
  have hdata : (writeDescriptor kind p.nelements p.bytesOffsetInHeap).length = kind.width :=
    writeDescriptor_length _ _ _
  have hsplit : fields.map Field.toColumn =
      (fields.take idx).map Field.toColumn ++ (fields.drop idx).map Field.toColumn := by
    rw [← List.map_append, List.take_append_drop]
  have hplaces := placed_append.1 (hsplit ▸ h)
  have hpre : totalWidth ((fields.take idx).map Field.toColumn) ≤ row.bytes.length := by
    have := (placed_mem hplaces.2).1
    rw [hrow.length]
    omega
  have hplans := hrow.plans
  have hfields : (fields.take idx).length = idx := by rw [List.length_take]; omega
  have hrowPlans : (row.plans.take idx).length = idx := by rw [List.length_take]; omega
  refine ⟨?_, ?_, ?_⟩
  · simp only [insertedVarRow, insertedRow, List.length_append, List.length_take, List.length_drop,
      hdata]
    have := hrow.length
    omega
  · simp only [insertedVarRow, insertedFields, List.length_append, List.length_take,
      List.length_cons, List.length_map, List.length_drop]
    omega
  · intro i f k q hf hk hq
    unfold insertedVarRow at hq ⊢
    unfold insertedFields at hf
    dsimp only at hq ⊢
    rcases Nat.lt_trichotomy i idx with hlt | rfl | hgt
    · -- a column in front
      rw [List.getElem?_append_left (by omega), List.getElem?_take_of_lt hlt] at hf hq
      have hmem : f.toColumn ∈ (fields.take idx).map Field.toColumn := by
        apply List.mem_map_of_mem
        apply List.mem_of_getElem? (i := i)
        rwa [List.getElem?_take_of_lt hlt]
      have hin := ((placed_mem hplaces.1).2 _ hmem).2.1
      rw [Nat.zero_add] at hin
      rw [insertedRow_front hpre hin]
      exact hrow.stored i f k q hf hk hq
    · -- the new column
      rw [List.getElem?_append_right (by omega), hfields, Nat.sub_self] at hf
      rw [List.getElem?_append_right (by omega), hrowPlans, Nat.sub_self] at hq
      obtain rfl := Option.some.inj hf
      obtain rfl := Option.some.inj (Option.some.inj hq)
      obtain rfl := Option.some.inj (hkind.symm.trans hk)
      dsimp only
      rw [insertedRow_middle hpre (hdata.trans hwidth.symm), VlaCellPlan.reads_iff.2 hfits]
    · -- a column behind
      obtain ⟨j, rfl⟩ := Nat.exists_eq_add_of_lt hgt
      rw [List.getElem?_append_right (by omega), hfields,
        show idx + j + 1 - idx = j + 1 by omega, List.getElem?_cons_succ, List.getElem?_map,
        List.getElem?_drop] at hf
      rw [List.getElem?_append_right (by omega), hrowPlans,
        show idx + j + 1 - idx = j + 1 by omega, List.getElem?_cons_succ, List.getElem?_drop] at hq
      obtain ⟨g, hg, rfl⟩ := Option.map_eq_some_iff.1 hf
      have hmem : g.toColumn ∈ (fields.drop idx).map Field.toColumn := by
        apply List.mem_map_of_mem
        apply List.mem_of_getElem? (i := j)
        rwa [List.getElem?_drop]
      have hbehind := ((placed_mem hplaces.2).2 _ hmem).1
      rw [Nat.zero_add] at hbehind
      dsimp only at hk ⊢
      rw [insertedRow_behind hpre hdata hbehind]
      exact hrow.stored _ g k q hg hk hq

theorem insertVlaColumn_keeps {name : Str} {position : Option Int} {letter : UInt8}
    {value : ColumnInput} (h : t.Sound)
    (hfit : CallFits t (.insertColumn name position kind letter value)) :
    Triple (fun s => s = t) (insertVlaColumn name position kind letter value)
      (fun _ => VarTable.Sound) fun _ => VarTable.Sound := by
  have hstay (e : PyErr) : Triple (fun s => s = t) (throw e : VarOp Unit) (fun _ => VarTable.Sound)
      fun _ => VarTable.Sound := Triple.throw fun s hs => hs ▸ h
  apply Triple.get_bind
  rintro s rfl
  apply Triple.ite (fun _ => hstay _)
  intro _
  apply Triple.ite (fun _ => hstay _)
  intro _
  apply Triple.ite (fun _ => hstay _)
  intro hplace
  apply Triple.ite (fun _ => hstay _)
  intro _
  apply VarOp.ofExcept_triple (fun _ s' hs' => hs' ▸ h)
  rintro ⟨plans, total⟩ hplans
  obtain ⟨hlen, hall⟩ := planVlaHeapLayout_fits hplans hfit
  have hidx : (position.getD s.fields.length).toNat ≤ s.fields.length := by omega
  apply Triple.set
  intro _ _
  refine ⟨placed_inserted h.placed rfl rfl, fun row hrow => ?_⟩
  obtain ⟨⟨old, plan⟩, hmem, rfl⟩ := List.mem_map.1 hrow
  obtain ⟨hold, hplan⟩ := List.of_mem_zip hmem
  obtain ⟨p, hp, hfits⟩ := onlyPlan_fits (hall plan hplan) rfl
  dsimp only
  rw [hp]
  exact insertedVarRow_sound h.placed hidx rfl rfl (h.rows old hold) hfits

/-! ## Runs -/

/-- A call whose cells fit keeps the table sound, whether it returns or raises. -/
theorem VarCall.keeps (call : VarCall) (h : t.Sound) (hfit : CallFits t call) :
    (call.after t).Sound := by
  have hrun : Triple (fun s => s = t) call.run (fun _ => VarTable.Sound) fun _ =>
      VarTable.Sound := by
    cases call with
    | write perCol => exact writeVlaAware_keeps h hfit
    | append perCol nrows => exact appendVlaAware_keeps h hfit
    | setRow i perCol => exact setitemSingleRowVlaAware_keeps h hfit
    | setSlice slice valueLen perCol => exact setitemRowSliceVlaAware_keeps h hfit
    | setFancy rows valueLen perCol => exact setitemFancyRowsVlaAware_keeps h hfit
    | setColumn idx value => exact setitemSingleColumnVla_keeps h hfit
    | setCell idx row value => exact setitemCellVla_keeps h hfit
    | insertColumn name position kind letter value => exact insertVlaColumn_keeps h hfit
  unfold VarCall.after
  cases hcall : call.run t with
  | ok u s => exact hrun.ok rfl hcall
  | error e s => exact hrun.error rfl hcall

/-- A call as a step. -/
def varStep (t : VarTable) (call : VarCall) : Option VarTable := some (call.after t)

/-- Over a run of calls whose cells fit their descriptors, every descriptor in the table
reads back as it was planned. -/
theorem faithful_of_run {t' : VarTable} {calls : List VarCall} (layout : t.Layout)
    (faithful : t.Faithful) (fit : Trace.EachStep varStep CallFits t calls)
    (run : Trace.run varStep t calls = some t') : t'.Faithful := by
  have hsound : t'.Sound := Trace.invariant
    (fun s call s' hs hfit hstep => Option.some.inj hstep ▸ call.keeps hs hfit)
    (VarTable.sound_iff.2 ⟨layout, faithful⟩) fit run
  exact (VarTable.sound_iff.1 hsound).2

end

/-- One row with a column of bytes, and a heap of this size. -/
def varExample (pcount : Int) : VarTable :=
  ⟨[⟨⟨str "DATA", 0x42, 0, 8, some .p⟩, 1, none, Double.one, 0⟩], 8, [⟨List.replicate 8 0, [none]⟩],
    pcount⟩

theorem varExample_layout (pcount : Int) :
    (varExample pcount).Layout ∧ (varExample pcount).Faithful := by
  refine ⟨⟨⟨rfl, fun kind hkind => by rw [← Option.some.inj hkind]; rfl, rfl⟩, fun row hrow => ?_⟩,
    fun row hrow => ?_⟩ <;> obtain rfl := List.mem_singleton.1 hrow
  · exact ⟨rfl, rfl⟩
  · rintro (_ | i) field kind plan hfield hkind hplan
    · cases hplan
    · cases hfield

/-- Three bytes, and then two others for them. -/
theorem varExample_run :
    ((VarCall.setCell 0 0 (.array ⟨0x75, 1⟩ [2] true)).after
      ((VarCall.setCell 0 0 (.array ⟨0x75, 1⟩ [3] true)).after (varExample 0))).Faithful := by
  have hfit : Trace.EachStep varStep CallFits (varExample 0)
      [.setCell 0 0 (.array ⟨0x75, 1⟩ [3] true), .setCell 0 0 (.array ⟨0x75, 1⟩ [2] true)] :=
    ⟨by decide, by decide, trivial⟩
  exact faithful_of_run (varExample_layout 0).1 (varExample_layout 0).2 hfit rfl

/-- Behind 2 GiB of heap the offset is stored as a negative number, and nothing is raised. -/
theorem varExample_wraps :
    (varExample 2147483648).Layout ∧ (varExample 2147483648).Faithful ∧
      (VarCall.setCell 0 0 (.array ⟨0x75, 1⟩ [1] true)).run (varExample 2147483648) = .ok ()
        ⟨(varExample 0).fields, 8, [⟨[0, 0, 0, 1, 0x80, 0, 0, 0], [some ⟨1, 2147483648⟩]⟩],
          2147483649⟩ ∧
      ¬((VarCall.setCell 0 0 (.array ⟨0x75, 1⟩ [1] true)).after
        (varExample 2147483648)).Faithful := by
  have hrun : (VarCall.setCell 0 0 (.array ⟨0x75, 1⟩ [1] true)).run (varExample 2147483648) = .ok ()
      ⟨(varExample 0).fields, 8, [⟨[0, 0, 0, 1, 0x80, 0, 0, 0], [some ⟨1, 2147483648⟩]⟩],
        2147483649⟩ := by
    rfl
  refine ⟨(varExample_layout _).1, (varExample_layout _).2, hrun, fun h => ?_⟩
  rw [VarCall.after, hrun] at h
  have hread := h _ List.mem_cons_self 0 _ .p _ rfl rfl rfl
  exact absurd hread (by decide +kernel)

end RustFits.BinaryTable
