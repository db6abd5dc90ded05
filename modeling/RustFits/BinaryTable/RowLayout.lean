import Mathlib.Algebra.Order.BigOperators.Group.List
import RustFits.BinaryTable.Cells
import RustFits.BinaryTable.Scan
import RustFits.Lib.Fallible

/-!
# The layout of a row

`parse_columns` multiplies and adds header numbers in machine words and compares the
width it gets with NAXIS1, cast to unsigned.

* `DeclaredAs` is what a column takes from its TFORM and TDIM.
* `SafeLayout` is what the readers rely on: the columns lie one behind the other in
  a row of NAXIS1 bytes, and the conversion of a cell stays inside its source and its
  field.
* `safeLayout_iff` says which accepted headers have it.
-/

namespace RustFits.BinaryTable

open Ascii ByteFile Machine

/-! ## Declarations -/

/-- The width of a column over the integers, as TFORM declares it. -/
def TformInfo.exactWidth (info : TformInfo) : Nat :=
  if info.letter = 0x50 then 8
  else if info.letter = 0x51 then 16
  else if info.letter = 0x58 then divCeil info.repeatCount 8
  else info.repeatCount * (bytesPerElement info.letter).getD 0

/-- The TFORM of column `i`. -/
def declaredTform (cards : List Card) (i : Nat) : Option TformInfo :=
  (parseStringKeyword cards (tformKey i)).bind fun tform => (parseTform tform i).toOption

/-- The dimensions of column `i`. -/
def declaredTdim (cards : List Card) (i : Nat) : Option (List Nat) :=
  (parseStringKeyword cards (tdimKey i)).bind fun tdim => (parseTdim tdim i).toOption

def declaredWidth (cards : List Card) (i : Nat) : Nat :=
  ((declaredTform cards i).map TformInfo.exactWidth).getD 0

/-- NAXIS1. -/
def headerWidth (cards : List Card) : Int := (parseKeyword cards (str "NAXIS1")).getD 0

/-- The numbers of the columns. -/
def columnNumbers (cards : List Card) : List Nat :=
  List.range' 1 ((parseKeyword cards (str "TFIELDS")).getD 0).toNat

/-- What column `i` takes from its TFORM and TDIM. -/
structure DeclaredAs (cards : List Card) (i : Nat) (field : Field) (info : TformInfo) : Prop where
  tform : declaredTform cards i = some info
  small : info.repeatCount < u64Size
  byteWidth : field.byteWidth = info.exactWidth % u64Size
  exactWidth : field.exactWidth = info.exactWidth
  tdim : field.tdim = declaredTdim cards i
  descriptor : field.varKind.isSome → info.repeatCount = 1 ∧ declaredTdim cards i = none
  fixed : field.varKind = none → field.repeatCount = info.repeatCount ∧
    field.tformLetter = info.letter ∧ isFixedLetter field.tformLetter ∧
    ∀ dims ∈ field.tdim, dims.prod % u64Size = field.repeatCount

section

variable {doubles : Doubles} {littleEndian : Bool} {cards : List Card} {i offset count width : Nat}
  {field : Field} {fields : List Field} {tform : Str} {info : TformInfo}

theorem sliceOf_length {buf src : Bytes} {off n : Nat} (h : sliceOf buf off n = .ok src) :
    src.length = n := by
  unfold sliceOf at h
  split_ifs at h with hfit
  rw [← Except.ok.inj h, slice_length]
  omega

/-- The pieces of a TFORM. -/
theorem parseTform_ok (h : parseTform tform i = .ok info) :
    info.repeatCount < u64Size ∧
      (info.innerLetter.isSome ↔ info.letter = 0x50 ∨ info.letter = 0x51) := by
  unfold parseTform at h
  dsimp only at h
  split at h
  · cases h
  · rename_i letter trailing _
    -- the letter and what follows it, for any repeat count
    have hrest (n : Nat) (hn : n < u64Size)
        (h : (if letter = 0x50 ∨ letter = 0x51 then do
            let inner ← parseVariableInnerLetter trailing tform i
            pure (⟨n, letter, some inner⟩ : TformInfo)
          else if (!(trim trailing).isEmpty) = true then
            .error (.value (columnText i (str "TFORM='" ++ tform ++
              str "' has unsupported trailing modifier '" ++ trailing ++ str "'")))
          else pure ⟨n, letter, none⟩) = .ok info) :
        info.repeatCount < u64Size ∧
          (info.innerLetter.isSome ↔ info.letter = 0x50 ∨ info.letter = 0x51) := by
      split_ifs at h with hvar htrail
      · obtain ⟨inner, -, h⟩ := bind_eq_ok.1 h
        obtain rfl := Except.ok.inj h
        exact ⟨hn, iff_of_true rfl hvar⟩
      · obtain rfl := Except.ok.inj h
        exact ⟨hn, iff_of_false (by simp) hvar⟩
    split at h
    · exact hrest 1 (by decide) h
    · split at h
      · rename_i n hn
        exact hrest n (parseU64_lt hn) h
      · cases h

theorem foldl_prod (dims : List Nat) (acc : Nat) :
    dims.foldl (fun acc n => acc * n % u64Size) (acc % u64Size) = acc * dims.prod % u64Size := by
  induction dims generalizing acc with
  | nil => simp
  | cons n dims ih =>
    have hstep : acc % u64Size * n % u64Size = acc * n % u64Size := Nat.mod_mul_mod _ _ _
    rw [List.foldl_cons, hstep, ih, List.prod_cons, Nat.mul_assoc]

/-- The product of the dimensions is the repeat count, in machine words. -/
theorem fieldTdim_ok {tdim : Option (List Nat)} (h : fieldTdim cards info i = .ok tdim)
    (hinner : info.innerLetter = none) :
    tdim = declaredTdim cards i ∧ ∀ dims ∈ tdim, dims.prod % u64Size = info.repeatCount := by
  unfold fieldTdim at h
  rw [hinner] at h
  simp only [Option.isSome_none, Bool.false_eq_true, if_false] at h
  unfold declaredTdim
  cases hs : parseStringKeyword cards (tdimKey i) with
  | none =>
    rw [hs] at h
    obtain rfl := Except.ok.inj h
    exact ⟨rfl, fun dims hdims => by cases hdims⟩
  | some s =>
    rw [hs] at h
    obtain ⟨dims, hdims, h⟩ := bind_eq_ok.1 h
    obtain ⟨⟨⟩, hcheck, h⟩ := bind_eq_ok.1 h
    obtain rfl := Except.ok.inj h
    refine ⟨by rw [Option.bind_some, hdims]; rfl, fun found hfound => ?_⟩
    obtain rfl := Option.some.inj hfound
    unfold checkTdim at hcheck
    simp only [hs, hdims, Bind.bind, Except.bind] at hcheck
    have hprod := foldl_prod dims 1
    rw [Nat.one_mod_eq_one.2 (by decide), Nat.one_mul] at hprod
    rw [hprod] at hcheck
    split_ifs at hcheck with hne
    exact not_not.1 hne

/-- A descriptor column and its width. -/
theorem variableKind_ok {inner : UInt8} {kind : VarKind}
    (h : variableKind cards info inner tform i = .ok kind)
    (hletter : info.letter = 0x50 ∨ info.letter = 0x51) :
    kind.width = info.exactWidth ∧ info.repeatCount = 1 ∧ declaredTdim cards i = none := by
  unfold variableKind at h
  split_ifs at h with h1 h2 h3 h4 <;> obtain rfl := Except.ok.inj h
  all_goals
    have htdim : declaredTdim cards i = none := by
      rw [declaredTdim, Option.not_isSome_iff_eq_none.1 h3]
      rfl
    refine ⟨?_, not_not.1 h1, htdim⟩
  · simp [TformInfo.exactWidth, h4, VarKind.width]
  · have hq : info.letter = 0x51 := hletter.resolve_left h4
    simp [TformInfo.exactWidth, hq, VarKind.width]

/-- The width of a fixed column, in machine words. -/
theorem fixedWidth_ok (h : fixedWidth info tform i = .ok width)
    (hrepeat : info.repeatCount < u64Size) (hletter : ¬(info.letter = 0x50 ∨ info.letter = 0x51)) :
    width = info.exactWidth % u64Size ∧ isFixedLetter info.letter := by
  rw [not_or] at hletter
  unfold fixedWidth at h
  split_ifs at h with hx
  · obtain rfl := Except.ok.inj h
    have hlt : divCeil info.repeatCount 8 < u64Size := by
      unfold divCeil
      split_ifs <;> omega
    rw [TformInfo.exactWidth, if_neg hletter.1, if_neg hletter.2, if_pos hx, Nat.mod_eq_of_lt hlt]
    exact ⟨rfl, by simp [isFixedLetter, hx]⟩
  · split at h
    · rename_i size hsize
      obtain rfl := Except.ok.inj h
      rw [TformInfo.exactWidth, if_neg hletter.1, if_neg hletter.2, if_neg hx, hsize]
      exact ⟨rfl, by simp [isFixedLetter, hsize]⟩
    · cases h

/-- A column and its TFORM. -/
theorem parseColumn_pieces {column : Column} (h : parseColumn cards i offset = .ok column) :
    ∃ tform info, parseStringKeyword cards (tformKey i) = some tform ∧
      parseTform tform i = .ok info ∧
      ((info.innerLetter.isSome ∧ ∃ kind, column.varKind = some kind ∧
          column.byteWidth = kind.width ∧ kind.width = info.exactWidth ∧
            info.repeatCount = 1 ∧ declaredTdim cards i = none) ∨
        (info.innerLetter = none ∧ column.varKind = none ∧ column.tformLetter = info.letter ∧
          column.byteWidth = info.exactWidth % u64Size ∧ isFixedLetter info.letter)) := by
  unfold parseColumn at h
  split at h
  · cases h
  · rename_i tform htform
    obtain ⟨info, hinfo, h⟩ := bind_eq_ok.1 h
    obtain ⟨hrepeat, hvar⟩ := parseTform_ok hinfo
    refine ⟨tform, info, htform, hinfo, ?_⟩
    dsimp only at h
    split at h
    · rename_i inner hinner
      obtain ⟨kind, hkind, h⟩ := bind_eq_ok.1 h
      obtain rfl := Except.ok.inj h
      have hsome : info.innerLetter.isSome := by rw [hinner]; rfl
      exact .inl ⟨hsome, kind, rfl, rfl, variableKind_ok hkind (hvar.1 hsome)⟩
    · rename_i hinner
      obtain ⟨w, hw, h⟩ := bind_eq_ok.1 h
      obtain ⟨_, _, h⟩ := bind_eq_ok.1 h
      obtain rfl := Except.ok.inj h
      have hletter : ¬(info.letter = 0x50 ∨ info.letter = 0x51) := by
        rw [← hvar, hinner]
        simp
      obtain ⟨hwidth, hfixed⟩ := fixedWidth_ok hw hrepeat hletter
      exact .inr ⟨hinner, rfl, rfl, hwidth, hfixed⟩

/-- A column with all its data. -/
theorem parseField_ok (h : parseField doubles cards i offset = .ok field) :
    parseColumn cards i offset = .ok field.toColumn ∧ ∃ info, DeclaredAs cards i field info := by
  obtain ⟨column, hcolumn, h⟩ := bind_eq_ok.1 h
  obtain ⟨info, hinfo, h⟩ := bind_eq_ok.1 h
  obtain ⟨tdim, htdim, h⟩ := bind_eq_ok.1 h
  obtain rfl := Except.ok.inj h
  refine ⟨hcolumn, info, ?_⟩
  obtain ⟨tform, found, htform, hfound, hkinds⟩ := parseColumn_pieces hcolumn
  rw [htform, Option.getD_some, hfound] at hinfo
  obtain rfl := Except.ok.inj hinfo
  have hdeclared : declaredTform cards i = some found := by
    rw [declaredTform, htform, Option.bind_some, hfound]
    rfl
  have hsmall := (parseTform_ok hfound).1
  rcases hkinds with ⟨hinner, kind, hkind, hwidth, hexact, hone, hnone⟩ | ⟨hinner, hkind, hletter,
    hwidth, hfixed⟩
  · rw [fieldTdim, if_pos hinner] at htdim
    obtain rfl := Except.ok.inj htdim
    have hkindWidth : found.exactWidth < u64Size := by
      rw [← hexact]
      cases kind <;> decide
    refine ⟨hdeclared, hsmall, ?_, ?_, hnone.symm, fun _ => ⟨hone, hnone⟩, fun hfixed => ?_⟩
    · rw [Nat.mod_eq_of_lt hkindWidth, ← hexact]
      exact hwidth
    · rw [Field.exactWidth, hkind]
      exact hexact
    · rw [hkind] at hfixed
      cases hfixed
  · have hnot : ¬found.innerLetter.isSome = true := by rw [hinner]; simp
    obtain ⟨hsame, hprod⟩ := fieldTdim_ok htdim hinner
    have hvar := (parseTform_ok hfound).2
    rw [hinner] at hvar
    simp only [Option.isSome_none, Bool.false_eq_true, false_iff, not_or] at hvar
    refine ⟨hdeclared, hsmall, hwidth, ?_, hsame, fun hsome => ?_,
      fun _ => ⟨if_neg hnot, hletter, ?_, ?_⟩⟩
    · simp only [Field.exactWidth, hkind, hletter, if_neg hnot]
      rw [TformInfo.exactWidth, if_neg hvar.1, if_neg hvar.2]
    · rw [hkind] at hsome
      cases hsome
    · rw [hletter]
      exact hfixed
    · simp only [if_neg hnot]
      exact hprod

/-- The columns of a header, each as declared. -/
theorem parseFieldsFrom_ok (h : parseFieldsFrom doubles cards count i offset =
    .ok (fields, width)) :
    parseColumnsFrom cards count i offset = .ok (fields.map Field.toColumn, width) ∧
      List.Forall₂ (fun i field => ∃ info, DeclaredAs cards i field info)
        (List.range' i count) fields := by
  induction count generalizing i offset fields with
  | zero =>
    obtain ⟨rfl, rfl⟩ := Prod.mk.inj (Except.ok.inj h)
    exact ⟨rfl, List.Forall₂.nil⟩
  | succ count ih =>
    obtain ⟨field, hfield, h⟩ := bind_eq_ok.1 h
    obtain ⟨⟨rest, stop⟩, hrest, h⟩ := bind_eq_ok.1 h
    obtain ⟨rfl, rfl⟩ := Prod.mk.inj (Except.ok.inj h)
    obtain ⟨hcolumn, hdeclared⟩ := parseField_ok hfield
    obtain ⟨hcolumns, hall⟩ := ih hrest
    constructor
    · rw [parseColumnsFrom, hcolumn]
      simp only [Bind.bind, Except.bind, hcolumns]
      rfl
    · rw [List.range'_succ]
      exact List.Forall₂.cons hdeclared hall

/-- What `parse_columns` accepts. -/
theorem parseFields_ok (h : parseFields doubles cards = .ok fields) :
    ∃ width, asU64 (headerWidth cards) = width ∧
      parseColumnsFrom cards (columnNumbers cards).length 1 0 =
        .ok (fields.map Field.toColumn, width) ∧
      List.Forall₂ (fun i field => ∃ info, DeclaredAs cards i field info)
        (columnNumbers cards) fields := by
  unfold parseFields at h
  split at h
  · cases h
  · rename_i tfields htfields
    split_ifs at h
    obtain ⟨⟨found, width⟩, hfrom, h⟩ := bind_eq_ok.1 h
    dsimp only at h
    split_ifs at h with hne
    obtain rfl := Except.ok.inj h
    obtain ⟨hcolumns, hall⟩ := parseFieldsFrom_ok hfrom
    have hnumbers : columnNumbers cards = List.range' 1 tfields.toNat := by
      rw [columnNumbers, htfields, Option.getD_some]
    rw [hnumbers, List.length_range']
    exact ⟨width, not_not.1 hne, hcolumns, hall⟩

/-- The projection to the columns that the other modules work with. -/
theorem parseFields_columns (h : parseFields doubles cards = .ok fields) :
    parseColumns cards = .ok (fields.map Field.toColumn) := by
  obtain ⟨width, hwidth, hfrom, -⟩ := parseFields_ok h
  unfold parseFields at h
  cases htfields : parseKeyword cards (str "TFIELDS") with
  | none =>
    rw [htfields] at h
    cases h
  | some tfields =>
    have hlen : (columnNumbers cards).length = tfields.toNat := by
      rw [columnNumbers, htfields, Option.getD_some, List.length_range']
    rw [hlen] at hfrom
    rw [htfields] at h
    dsimp only at h
    split_ifs at h with hneg
    unfold parseColumns
    rw [htfields]
    dsimp only
    rw [if_neg hneg, hfrom]
    simp only [Bind.bind, Except.bind]
    exact if_neg fun hne => hne hwidth

end

/-! ## Safe layouts -/

/-- What the readers rely on. -/
structure SafeLayout (doubles : Doubles) (littleEndian : Bool) (cards : List Card)
    (fields : List Field) : Prop where
  naxis1 : 0 ≤ headerWidth cards
  exact : ∀ field ∈ fields, field.byteWidth = field.exactWidth
  placed : Placed 0 (fields.map Field.toColumn) (headerWidth cards).toNat
  tdim : ∀ field ∈ fields, ∀ dims ∈ field.tdim, dims.prod = field.repeatCount
  cells : ∀ bytes : Bytes, bytes.length = (headerWidth cards).toNat → ∀ field ∈ fields,
    field.varKind = none → ∀ scale kind dtype shape, columnKind scale field = .ok kind →
      fieldDtypeAndShape field scale = .ok (dtype, shape) → ∀ dst : Bytes,
        dst.length = fieldSize dtype shape → ∀ row, ∃ src,
          sliceOf bytes field.byteOffset field.byteWidth = .ok src ∧
            StaysInside dst.length (convertColumnCell doubles littleEndian field src dst row kind)

/-- The declared numbers fit in machine words, NAXIS1 is not negative, and no column
that is copied whole is an empty scalar. -/
structure LayoutFits (littleEndian : Bool) (cards : List Card) : Prop where
  naxis1 : 0 ≤ headerWidth cards
  width : ((columnNumbers cards).map (declaredWidth cards)).sum < u64Size
  tdim : ∀ i ∈ columnNumbers cards, ∀ dims ∈ declaredTdim cards i, dims.prod < u64Size
  scalar : ∀ i ∈ columnNumbers cards, ∀ info ∈ declaredTform cards i,
    copiesWhole littleEndian info.letter → info.repeatCount = 0 → (declaredTdim cards i).isSome

section

variable {doubles : Doubles} {littleEndian : Bool} {cards : List Card} {fields : List Field}
  {field : Field} {i : Nat} {info : TformInfo}

theorem DeclaredAs.declaredWidth_eq (h : DeclaredAs cards i field info) :
    declaredWidth cards i = field.exactWidth := by
  rw [declaredWidth, h.tform, h.exactWidth]
  rfl

/-- The exact width of a row. -/
theorem map_exactWidth {numbers : List Nat}
    (h : List.Forall₂ (fun i field => ∃ info, DeclaredAs cards i field info) numbers fields) :
    fields.map Field.exactWidth = numbers.map (declaredWidth cards) := by
  induction h with
  | nil => rfl
  | cons hfirst _ ih =>
    obtain ⟨info, hinfo⟩ := hfirst
    rw [List.map_cons, List.map_cons, hinfo.declaredWidth_eq, ih]

theorem totalWidth_eq (h : ∀ field ∈ fields, field.byteWidth = field.exactWidth) :
    totalWidth (fields.map Field.toColumn) = (fields.map Field.exactWidth).sum := by
  rw [totalWidth, List.map_map]
  congr 1
  exact List.map_congr_left h

/-- A column of every number. -/
theorem exists_field {numbers : List Nat}
    (h : List.Forall₂ (fun i field => ∃ info, DeclaredAs cards i field info) numbers fields)
    (hi : i ∈ numbers) : ∃ field ∈ fields, ∃ info, DeclaredAs cards i field info := by
  induction h with
  | nil => cases hi
  | cons hfirst _ ih =>
    rcases List.mem_cons.1 hi with rfl | hi
    · exact ⟨_, List.mem_cons_self, hfirst⟩
    · obtain ⟨field, hfield, hinfo⟩ := ih hi
      exact ⟨field, List.mem_cons_of_mem _ hfield, hinfo⟩

/-- A number of every column. -/
theorem exists_number {numbers : List Nat}
    (h : List.Forall₂ (fun i field => ∃ info, DeclaredAs cards i field info) numbers fields)
    (hfield : field ∈ fields) : ∃ i ∈ numbers, ∃ info, DeclaredAs cards i field info := by
  induction h with
  | nil => cases hfield
  | cons hfirst _ ih =>
    rcases List.mem_cons.1 hfield with rfl | hfield
    · exact ⟨_, List.mem_cons_self, hfirst⟩
    · obtain ⟨i, hi, hinfo⟩ := ih hfield
      exact ⟨i, List.mem_cons_of_mem _ hi, hinfo⟩

/-- The conversion of a cell stays inside, for every scaling that a read can ask for. -/
theorem convertColumnCell_stays {scale : Bool} {kind : ScalingKind} {dtype : Dtype}
    {shape : List Nat} {src dst : Bytes} {row : Nat} (hfixed : field.varKind = none)
    (hletter : isFixedLetter field.tformLetter)
    (hcopy : ¬(copiesWhole littleEndian field.tformLetter ∧ EmptyScalar field))
    (htdim : ∀ dims ∈ field.tdim, dims.prod = field.repeatCount)
    (hsrc : src.length = field.exactWidth) (hkind : columnKind scale field = .ok kind)
    (hdtype : fieldDtypeAndShape field scale = .ok (dtype, shape))
    (hdst : dst.length = fieldSize dtype shape) :
    StaysInside dst.length (convertColumnCell doubles littleEndian field src dst row kind) := by
  have hx (h : field.tformLetter = 0x58) : src.length = divCeil field.repeatCount 8 := by
    rw [hsrc, Field.exactWidth, hfixed]
    exact if_pos h
  have hnumber (h : field.tformLetter ≠ 0x58) :
      src.length = field.repeatCount * (bytesPerElement field.tformLetter).getD 0 := by
    rw [hsrc, Field.exactWidth, hfixed]
    exact if_neg h
  unfold fieldDtypeAndShape at hdtype
  rw [hfixed] at hdtype
  simp only [Option.isSome_none, Bool.false_eq_true, if_false, hkind, Bind.bind,
    Except.bind] at hdtype
  -- a number has the type of its letter and its scaling
  have hplain (hX : field.tformLetter ≠ 0x58) (hA : field.tformLetter ≠ 0x41) :
      (if kind = .none then naturalDtype field.tformLetter
        else scaledOutputDtype field.tformLetter kind) = some dtype ∧
        columnExpectedShape field = shape := by
    rw [if_neg hX, if_neg hA] at hdtype
    split at hdtype
    · rename_i found hfound
      obtain ⟨rfl, rfl⟩ := Prod.mk.inj (Except.ok.inj hdtype)
      exact ⟨hfound, rfl⟩
    · cases hdtype
  cases kind with
  | unsignedTrick =>
    obtain ⟨-, hscaling⟩ := columnKind_eq hkind (by decide)
    have hbias := scalingKind_unsignedTrick hscaling
    have hX : field.tformLetter ≠ 0x58 := by
      rcases unsignedBias_cases hbias with h | h | h | h <;> rw [h] <;> decide
    have hA : field.tformLetter ≠ 0x41 := by
      rcases unsignedBias_cases hbias with h | h | h | h <;> rw [h] <;> decide
    obtain ⟨hfound, rfl⟩ := hplain hX hA
    apply unsignedTrick_stays hbias hfound (hnumber hX)
    rw [hdst, fieldSize]
    exact Nat.mul_le_mul_left _ (shape_prod hA htdim).1
  | general =>
    obtain ⟨-, hscaling⟩ := columnKind_eq hkind (by decide)
    have hne := scalingKind_general hscaling
    obtain ⟨hfound, rfl⟩ := hplain hne.2.2.1 hne.2.1
    obtain rfl := Option.some.inj hfound
    apply general_stays hletter hne (hnumber hne.2.2.1)
    rw [hdst, fieldSize]
    exact Nat.mul_le_mul_left _ (shape_prod hne.2.1 htdim).1
  | none =>
    apply natural_stays hletter hcopy htdim hx
    · intro hA
      have hX : field.tformLetter ≠ 0x58 := by rw [hA]; decide
      rw [if_neg hX, if_pos hA] at hdtype
      obtain ⟨rfl, rfl⟩ := Prod.mk.inj (Except.ok.inj hdtype)
      refine ⟨?_, hdst⟩
      rw [hnumber hX, hA]
      exact Nat.mul_one _
    · intro w hw hA
      have hX : field.tformLetter ≠ 0x58 := by
        intro hX
        rw [hX] at hw
        cases hw
      obtain ⟨hfound, rfl⟩ := hplain hX hA
      rw [hnumber hX, hw]
      refine ⟨rfl, ?_⟩
      rw [hdst, fieldSize, naturalDtype_itemsize hw hA hfound]

/-- Every column has a field. -/
theorem exists_dtype (hletter : isFixedLetter field.tformLetter) :
    ∃ dtype shape, fieldDtypeAndShape field false = .ok (dtype, shape) := by
  unfold fieldDtypeAndShape
  split_ifs with hvar hX hA
  · exact ⟨_, _, rfl⟩
  · exact ⟨_, _, rfl⟩
  · exact ⟨_, _, rfl⟩
  · have hsome : (bytesPerElement field.tformLetter).isSome := by
      simpa [isFixedLetter, hX] using hletter
    obtain ⟨w, hw⟩ := Option.isSome_iff_exists.1 hsome
    have hnatural : (naturalDtype field.tformLetter).isSome := by
      rcases letter_cases hw with ⟨h, -⟩ | ⟨h, -⟩ | ⟨h, -⟩ | ⟨h, -⟩ | ⟨h, -⟩ | ⟨h, -⟩ | ⟨h, -⟩ |
        ⟨h, -⟩ | ⟨h, -⟩ | ⟨h, -⟩
      · exact absurd h hA
      all_goals
        rw [h]
        rfl
    obtain ⟨dtype, hdtype⟩ := Option.isSome_iff_exists.1 hnatural
    refine ⟨dtype, columnExpectedShape field, ?_⟩
    simp only [columnKind, Bind.bind, Except.bind, Bool.false_eq_true, if_false, if_true, hdtype]
    rfl

/-- An empty scalar that is copied whole panics: numpy has one element for it. -/
theorem emptyScalar_panics {src dst : Bytes} {row : Nat} {dtype : Dtype} {shape : List Nat}
    (hfixed : field.varKind = none) (hletter : isFixedLetter field.tformLetter)
    (hcopy : copiesWhole littleEndian field.tformLetter) (hempty : EmptyScalar field)
    (hsrc : src.length = field.exactWidth)
    (hdtype : fieldDtypeAndShape field false = .ok (dtype, shape))
    (hdst : dst.length = fieldSize dtype shape) :
    ¬StaysInside dst.length (convertColumnCell doubles littleEndian field src dst row .none) := by
  have hnot : field.tformLetter ≠ 0x4C ∧ field.tformLetter ≠ 0x41 ∧ field.tformLetter ≠ 0x58 := by
    unfold copiesWhole at hcopy
    simp only [Bool.or_eq_true, Bool.and_eq_true, decide_eq_true_eq] at hcopy
    rcases hcopy with h | h
    · rw [h]
      decide
    · exact h.2
  obtain ⟨hL, hA, hX⟩ := hnot
  have hsome : (bytesPerElement field.tformLetter).isSome := by
    simpa [isFixedLetter, hX] using hletter
  obtain ⟨w, hw⟩ := Option.isSome_iff_exists.1 hsome
  have hzero : src = [] := by
    rw [Field.exactWidth, hfixed, hempty.1] at hsrc
    simpa [hX] using hsrc
  have hshape : columnExpectedShape field = [] := by
    rw [columnExpectedShape, if_neg hA, hempty.2, hempty.1]
    rfl
  have hpos : dst.length = w := by
    unfold fieldDtypeAndShape at hdtype
    rw [hfixed, if_neg hX, if_neg hA] at hdtype
    simp only [Option.isSome_none, Bool.false_eq_true, if_false, columnKind, Bind.bind, Except.bind,
      if_true] at hdtype
    split at hdtype
    · rename_i found hfound
      obtain ⟨rfl, rfl⟩ := Prod.mk.inj (Except.ok.inj hdtype)
      rw [hdst, fieldSize, hshape, List.prod_nil, Nat.mul_one, naturalDtype_itemsize hw hA hfound]
    · cases hdtype
  have hne : src.length ≠ dst.length := by
    rw [hzero, hpos]
    rcases letter_cases hw with ⟨_, rfl⟩ | ⟨_, rfl⟩ | ⟨_, rfl⟩ | ⟨_, rfl⟩ | ⟨_, rfl⟩ | ⟨_, rfl⟩ |
      ⟨_, rfl⟩ | ⟨_, rfl⟩ | ⟨_, rfl⟩ | ⟨_, rfl⟩ <;> decide
  have hwhole : copyFromSlice src dst = .error (.panic (str "copy_from_slice")) := if_neg hne
  have hpanic : convertColumnCell doubles littleEndian field src dst row .none =
      .error (.panic (str "copy_from_slice")) := by
    have hswap (hbig : littleEndian = false) (size : Nat) :
        copyWithByteswap littleEndian src dst size = .error (.panic (str "copy_from_slice")) := by
      rw [copyWithByteswap, if_pos (.inl hbig), hwhole]
    have hbig (hB : field.tformLetter ≠ 0x42) : littleEndian = false := by
      simp only [copiesWhole, hB, decide_false, Bool.false_or, Bool.and_eq_true] at hcopy
      simpa using hcopy.1
    unfold convertColumnCell
    rcases letter_cases hw with ⟨h, -⟩ | ⟨h, -⟩ | ⟨h, -⟩ | ⟨h, -⟩ | ⟨h, -⟩ | ⟨h, -⟩ | ⟨h, -⟩ |
      ⟨h, -⟩ | ⟨h, -⟩ | ⟨h, -⟩
    · exact absurd h hA
    · exact absurd h hL
    · rw [h]
      exact hwhole
    all_goals
      have hB : field.tformLetter ≠ 0x42 := by rw [h]; decide
      rw [h]
      exact hswap (hbig hB) _
  rw [hpanic]
  exact id

theorem inI64_headerWidth (cards : List Card) : InI64 (headerWidth cards) := by
  unfold headerWidth
  cases hw : parseKeyword cards (str "NAXIS1") with
  | none => decide
  | some w => exact inI64_of_parseKeyword hw

/-- A safe layout has numbers that fit. -/
theorem SafeLayout.fits (hsafe : SafeLayout doubles littleEndian cards fields)
    (h : parseFields doubles cards = .ok fields) : LayoutFits littleEndian cards := by
  obtain ⟨width, hwidth, hfrom, hall⟩ := parseFields_ok h
  have hin := inI64_headerWidth cards
  have hsum : ((columnNumbers cards).map (declaredWidth cards)).sum =
      (headerWidth cards).toNat := by
    rw [placed_total hsafe.placed, totalWidth_eq hsafe.exact, map_exactWidth hall, Nat.zero_add]
  have hfits : (headerWidth cards).toNat < u64Size := by
    unfold InI64 at hin
    unfold u64Size
    omega
  refine ⟨hsafe.naxis1, hsum ▸ hfits, fun i hi dims hdims => ?_,
    fun i hi info hinfo hcopy hzero => ?_⟩
  all_goals obtain ⟨field, hfield, found, hdeclared⟩ := exists_field hall hi
  · rw [← hdeclared.tdim] at hdims
    have hfixed : field.varKind = none := by
      rw [← Option.not_isSome_iff_eq_none]
      intro hvar
      rw [hdeclared.tdim, (hdeclared.descriptor hvar).2] at hdims
      cases hdims
    rw [hsafe.tdim field hfield dims hdims, (hdeclared.fixed hfixed).1]
    exact hdeclared.small
  · rw [hdeclared.tform] at hinfo
    obtain rfl := Option.some.inj hinfo
    by_contra hnone
    have hfixed : field.varKind = none := by
      rw [← Option.not_isSome_iff_eq_none]
      intro hvar
      have := (hdeclared.descriptor hvar).1
      omega
    obtain ⟨hrepeat, hsame, hletter, -⟩ := hdeclared.fixed hfixed
    have hempty : EmptyScalar field :=
      ⟨hrepeat.trans hzero, by rw [hdeclared.tdim, Option.not_isSome_iff_eq_none.1 hnone]⟩
    obtain ⟨dtype, shape, hdtype⟩ := exists_dtype hletter
    obtain ⟨src, hsrc, hstays⟩ := hsafe.cells (List.replicate (headerWidth cards).toNat 0)
      List.length_replicate field hfield hfixed false .none dtype shape rfl hdtype
      (List.replicate (fieldSize dtype shape) 0) List.length_replicate 0
    have hlen : src.length = field.exactWidth := by
      rw [← hsafe.exact field hfield]
      exact sliceOf_length hsrc
    exact emptyScalar_panics hfixed hletter (by rwa [hsame]) hempty hlen hdtype
      List.length_replicate hstays

/-- Numbers that fit give a safe layout. -/
theorem LayoutFits.safe (hfit : LayoutFits littleEndian cards)
    (h : parseFields doubles cards = .ok fields) :
    SafeLayout doubles littleEndian cards fields := by
  obtain ⟨width, hwidth, hfrom, hall⟩ := parseFields_ok h
  have hin := inI64_headerWidth cards
  -- no number wraps, so the machine words are the integers
  have hexact : ∀ field ∈ fields, field.byteWidth = field.exactWidth := by
    intro field hfield
    obtain ⟨i, hi, info, hdeclared⟩ := exists_number hall hfield
    have hle : declaredWidth cards i ≤ ((columnNumbers cards).map (declaredWidth cards)).sum :=
      List.le_sum_of_mem (List.mem_map_of_mem hi)
    have hsmall := lt_of_le_of_lt hle hfit.width
    rw [hdeclared.declaredWidth_eq, hdeclared.exactWidth] at hsmall
    rw [hdeclared.byteWidth, hdeclared.exactWidth, Nat.mod_eq_of_lt hsmall]
  have hsum : totalWidth (fields.map Field.toColumn) < u64Size := by
    rw [totalWidth_eq hexact, map_exactWidth hall]
    exact hfit.width
  have hrow : (headerWidth cards).toNat = width := by
    rw [← hwidth, asU64_of_nonneg hfit.naxis1]
    unfold InI64 at hin
    unfold u64Size
    omega
  have hplaced : Placed 0 (fields.map Field.toColumn) (headerWidth cards).toNat := by
    rw [hrow]
    exact (parseColumnsFrom_placed hfrom (by omega)).1
  have htdim : ∀ field ∈ fields, ∀ dims ∈ field.tdim, dims.prod = field.repeatCount := by
    intro field hfield dims hdims
    obtain ⟨i, hi, info, hdeclared⟩ := exists_number hall hfield
    have hfixed : field.varKind = none := by
      rw [← Option.not_isSome_iff_eq_none]
      intro hvar
      rw [hdeclared.tdim, (hdeclared.descriptor hvar).2] at hdims
      cases hdims
    have hwords := (hdeclared.fixed hfixed).2.2.2 dims hdims
    rw [hdeclared.tdim] at hdims
    rwa [Nat.mod_eq_of_lt (hfit.tdim i hi dims hdims)] at hwords
  refine ⟨hfit.naxis1, hexact, hplaced, htdim, ?_⟩
  intro bytes hbytes field hfield hfixed scale kind dtype shape hkind hdtype dst hdst row
  obtain ⟨i, hi, info, hdeclared⟩ := exists_number hall hfield
  obtain ⟨hrepeat, hsame, hletter, -⟩ := hdeclared.fixed hfixed
  have hinside := ((placed_mem hplaced).2 field.toColumn (List.mem_map_of_mem hfield)).2.1
  refine ⟨_, sliceOf_ok (by omega), ?_⟩
  have hcopy : ¬(copiesWhole littleEndian field.tformLetter ∧ EmptyScalar field) := by
    rintro ⟨hcopy, hzero, hnone⟩
    have := hfit.scalar i hi info hdeclared.tform (by rwa [← hsame]) (hrepeat.symm.trans hzero)
    rw [← hdeclared.tdim, hnone] at this
    cases this
  apply convertColumnCell_stays hfixed hletter hcopy (htdim field hfield) _ hkind hdtype hdst
  rw [slice_length, ← hexact field hfield]
  omega

/-- The layout of an accepted header is safe when its numbers fit. -/
theorem safeLayout_iff (h : parseFields doubles cards = .ok fields) :
    SafeLayout doubles littleEndian cards fields ↔ LayoutFits littleEndian cards :=
  ⟨fun hsafe => hsafe.fits h, fun hfit => hfit.safe h⟩

end

/-! ## Headers -/

/-- Doubles that are never looked at. -/
def exampleDoubles : Doubles := ⟨fun _ => none, fun _ => 0, fun _ => 0, fun _ _ _ => 0⟩

/-- The cards of a table with one column. -/
def oneColumn (naxis1 : Int) (tform : Str) : List Card :=
  [cardInt (str "NAXIS1") naxis1 (str "row"), cardInt (str "TFIELDS") 1 (str "columns"),
    str "TFORM1  = '" ++ tform ++ str "'"]

theorem safeLayout_numbers :
    SafeLayout exampleDoubles true (oneColumn 8 (str "2J"))
      [⟨⟨str "COL1", 0x4A, 0, 8, none⟩, 2, none, Double.one, 0⟩] := by
  apply (safeLayout_iff (by decide +kernel)).2
  constructor <;> decide +kernel

/-- `2305843009213693953 * 8` is 8 in machine words, and a scalar of no byte has one byte
in numpy. -/
theorem layout_wraps :
    (∃ fields, parseFields exampleDoubles (oneColumn 8 (str "2305843009213693953K")) = .ok fields ∧
      ¬SafeLayout exampleDoubles true (oneColumn 8 (str "2305843009213693953K")) fields) ∧
      ∃ fields, parseFields exampleDoubles (oneColumn 0 (str "0B")) = .ok fields ∧
        ¬SafeLayout exampleDoubles true (oneColumn 0 (str "0B")) fields := by
  constructor
  · refine ⟨[⟨⟨str "COL1", 0x4B, 0, 8, none⟩, 2305843009213693953, none, Double.one, 0⟩],
      by decide +kernel, fun hsafe => ?_⟩
    exact absurd (hsafe.exact _ List.mem_cons_self) (by decide)
  · refine ⟨[⟨⟨str "COL1", 0x42, 0, 0, none⟩, 0, none, Double.one, 0⟩], by decide +kernel,
      fun hsafe => ?_⟩
    obtain ⟨src, hsrc, hstays⟩ := hsafe.cells [] (by decide +kernel) _ List.mem_cons_self rfl false
      .none ⟨0x75, 1⟩ [] rfl rfl [0] rfl 0
    obtain rfl := Except.ok.inj hsrc
    exact hstays

end RustFits.BinaryTable
