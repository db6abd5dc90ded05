import RustFits.Descriptor
import RustFits.TableHeader

/-!
# The columns of a binary table

`columns.rs`: the columns of a table are read from its TFORM, TTYPE and TDIM
cards, and the shape of the table from NAXIS1, NAXIS2 and THEAP.

* `parseColumns` reads the columns.  `parseColumns_congr` says which lookups it
  depends on.
* `Placed` is the layout it computes: the columns lie one behind the other in a
  row, as long as the widths do not wrap (`parseColumns_placed`).
* `parseTableMeta` is the snapshot that the readers work from.

Scaling, null values and units are not part of a column here.  They are the
business of the conversion to and from arrays.
-/

namespace RustFits

open Ascii ByteFile Machine BigEndian

/-- `bytes_per_element`. -/
def bytesPerElement (letter : UInt8) : Option Nat :=
  if letter = 0x4C ∨ letter = 0x42 ∨ letter = 0x41 then some 1
  else if letter = 0x49 then some 2
  else if letter = 0x4A ∨ letter = 0x45 then some 4
  else if letter = 0x4B ∨ letter = 0x44 ∨ letter = 0x43 then some 8
  else if letter = 0x4D then some 16
  else none

namespace BinaryTable

/-- A column: the letter of its elements, and its place in a row.  A
variable-length column keeps a descriptor there. -/
structure Column where
  name : Str
  tformLetter : UInt8
  byteOffset : Nat
  byteWidth : Nat
  varKind : Option VarKind
  deriving DecidableEq, Repr

/-! ## TFORM and TDIM -/

def isAsciiAlphabetic (b : UInt8) : Bool := (0x41 ≤ b && b ≤ 0x5A) || (0x61 ≤ b && b ≤ 0x7A)

/-- The texts of the column errors start alike. -/
def columnText (col : Nat) (rest : Str) : Str := str "column " ++ natDec col ++ str ": " ++ rest

structure TformInfo where
  repeatCount : Nat
  letter : UInt8
  innerLetter : Option UInt8
  deriving DecidableEq, Repr

/-- `parse_variable_inner_letter`. -/
def parseVariableInnerLetter (trailing tform : Str) (col : Nat) : Except PyErr UInt8 :=
  match trim trailing with
  | [] => .error (.value (columnText col (str "variable-length TFORM='" ++ tform ++
      str "' is missing the inner element type letter (e.g. 'PE', 'PD', '1PJ(100)')")))
  | inner :: rest =>
    if !isAsciiAlphabetic inner then
      .error (.value (columnText col (str "variable-length TFORM='" ++ tform ++
        str "' inner element '" ++ [inner] ++ str "' is not a letter")))
    else
      let after := trim rest
      if after.isEmpty ∨ (after.head? = some 0x28 ∧ after.getLast? = some 0x29) then .ok inner
      else .error (.value (columnText col (str "variable-length TFORM='" ++ tform ++
        str "' has invalid trailer '" ++ after ++ str "' after the inner letter")))

/-- `parse_tform`. -/
def parseTform (tform : Str) (col : Nat) : Except PyErr TformInfo :=
  let trimmed := trim tform
  match trimmed.dropWhile fun b => !isAsciiAlphabetic b with
  | [] => .error (.value (columnText col (str "TFORM='" ++ tform ++ str "' has no type letter")))
  | letter :: trailing => do
    let digits := trimmed.takeWhile fun b => !isAsciiAlphabetic b
    let repeatCount ←
      if digits.isEmpty then pure 1
      else match parseU64 digits with
        | some n => pure n
        | none => .error (.value (columnText col (str "TFORM='" ++ tform ++
            str "' repeat count is not an integer")))
    if letter = 0x50 ∨ letter = 0x51 then
      let inner ← parseVariableInnerLetter trailing tform col
      return ⟨repeatCount, letter, some inner⟩
    else if !(trim trailing).isEmpty then
      .error (.value (columnText col (str "TFORM='" ++ tform ++
        str "' has unsupported trailing modifier '" ++ trailing ++ str "'")))
    else return ⟨repeatCount, letter, none⟩

/-- One dimension of a TDIM value. -/
def parseDim (tdim part : Str) (col : Nat) : Except PyErr Nat :=
  match parseU64 (trim part) with
  | none => .error (.value (columnText col (str "TDIM='" ++ tdim ++
      str "' contains non-integer dimension '" ++ part ++ str "'")))
  | some 0 => .error (.value (columnText col (str "TDIM='" ++ tdim ++
      str "' contains zero dimension")))
  | some n => .ok n

/-- `parse_tdim`. -/
def parseTdim (tdim : Str) (col : Nat) : Except PyErr (List Nat) :=
  let trimmed := trim tdim
  if ¬ (trimmed.head? = some 0x28 ∧ trimmed.getLast? = some 0x29) then
    .error (.value (columnText col (str "TDIM='" ++ tdim ++ str "' must be parenthesized")))
  else ((trimmed.drop 1).dropLast.splitOn 0x2C).mapM fun part => parseDim tdim part col

/-- A list of numbers as the error text shows it. -/
def dimsText (dims : List Nat) : Str :=
  str "[" ++ List.intercalate (str ", ") (dims.map natDec) ++ str "]"

/-! ## Columns -/

def tformKey (i : Nat) : Str := str "TFORM" ++ natDec i

def ttypeKey (i : Nat) : Str := str "TTYPE" ++ natDec i

def tdimKey (i : Nat) : Str := str "TDIM" ++ natDec i

/-- The width of a fixed column in a row. -/
def fixedWidth (info : TformInfo) (tform : Str) (i : Nat) : Except PyErr Nat :=
  if info.letter = 0x58 then .ok (divCeil info.repeatCount 8)
  else match bytesPerElement info.letter with
    | some elemSize => .ok (info.repeatCount * elemSize % u64Size)
    | none => .error (.value (columnText i (str "TFORM='" ++ tform ++
        str "' uses unsupported type letter '" ++ [info.letter] ++ str "'")))

/-- The dimensions of a fixed column multiply to its repeat count. -/
def checkTdim (cards : List Card) (repeatCount i : Nat) : Except PyErr Unit :=
  match parseStringKeyword cards (tdimKey i) with
  | none => .ok ()
  | some tdim => do
    let dims ← parseTdim tdim i
    let product := dims.foldl (fun acc n => acc * n % u64Size) 1
    if product ≠ repeatCount then
      .error (.value (columnText i (str "TDIM dims " ++ dimsText dims ++ str " have product " ++
        natDec product ++ str " but TFORM repeat is " ++ natDec repeatCount)))
    else .ok ()

/-- The checks of a variable-length column, and its descriptor kind. -/
def variableKind (cards : List Card) (info : TformInfo) (inner : UInt8) (tform : Str) (i : Nat) :
    Except PyErr VarKind :=
  if info.repeatCount ≠ 1 then
    .error (.value (columnText i (str "variable-length TFORM='" ++ tform ++
      str "' with repeat>1 not yet supported (only one descriptor per row)")))
  else if inner ≠ 0x58 ∧ (bytesPerElement inner).isNone then
    .error (.value (columnText i (str "variable-length TFORM='" ++ tform ++
      str "' has unsupported inner element letter '" ++ [inner] ++ str "'")))
  else if (parseStringKeyword cards (tdimKey i)).isSome then
    .error (.value (columnText i (str "TDIM on variable-length column not yet supported")))
  else .ok (if info.letter = 0x50 then .p else .q)

/-- Column `i`, at `offset` of a row. -/
def parseColumn (cards : List Card) (i offset : Nat) : Except PyErr Column :=
  match parseStringKeyword cards (tformKey i) with
  | none => .error (.value (str "BINTABLE missing required " ++ tformKey i ++ str " keyword"))
  | some tform => do
    let info ← parseTform tform i
    let name := (parseStringKeyword cards (ttypeKey i)).getD (str "COL" ++ natDec i)
    match info.innerLetter with
    | some inner =>
      let kind ← variableKind cards info inner tform i
      return ⟨name, inner, offset, kind.width, some kind⟩
    | none =>
      let byteWidth ← fixedWidth info tform i
      checkTdim cards info.repeatCount i
      return ⟨name, info.letter, offset, byteWidth, none⟩

/-- The columns from `i` on: the columns and the width of a row. -/
def parseColumnsFrom (cards : List Card) : Nat → Nat → Nat → Except PyErr (List Column × Nat)
  | 0, _, offset => .ok ([], offset)
  | count + 1, i, offset => do
    let column ← parseColumn cards i offset
    let (columns, width) ←
      parseColumnsFrom cards count (i + 1) ((offset + column.byteWidth) % u64Size)
    return (column :: columns, width)

/-- `parse_columns`. -/
def parseColumns (cards : List Card) : Except PyErr (List Column) :=
  match parseKeyword cards (str "TFIELDS") with
  | none => .error (.value (str "BINTABLE missing required TFIELDS keyword"))
  | some tfields =>
    if tfields < 0 then
      .error (.value (str "BINTABLE TFIELDS=" ++ intDec tfields ++ str " is negative"))
    else do
      let (columns, offset) ← parseColumnsFrom cards tfields.toNat 1 0
      let naxis1 := (parseKeyword cards (str "NAXIS1")).getD 0
      if asU64 naxis1 ≠ offset then
        .error (.value (str "BINTABLE row width " ++ natDec offset ++
          str " bytes from TFORM*s does not match NAXIS1=" ++ intDec naxis1))
      else return columns

structure TableMeta where
  nrows : Nat
  rowWidth : Nat
  theap : Nat
  columns : List Column
  deriving DecidableEq, Repr

/-- `parse_table_meta`. -/
def parseTableMeta (cards : List Card) : Except PyErr TableMeta := do
  let columns ← parseColumns cards
  let nrows := natKeyword cards (str "NAXIS2")
  let rowWidth := natKeyword cards (str "NAXIS1")
  let theap := ((parseKeyword cards (str "THEAP")).map Int.toNat).getD (nrows * rowWidth % u64Size)
  return ⟨nrows, rowWidth, theap, columns⟩

/-- `any_var_column`. -/
def anyVarColumn (columns : List Column) : Bool := columns.any fun column => column.varKind.isSome

end BinaryTable

/-! ## Which cards decide -/

section

variable {cards : List Card} {key other : Str} {card old : Card} {place i : Nat}

/-- Only the value cards of the keyword decide a text lookup. -/
theorem parseStringKeyword_filter (cards : List Card) (key : Str) :
    parseStringKeyword (cards.filter (isValueCard key)) key = parseStringKeyword cards key := by
  induction cards with
  | nil => rfl
  | cons card cards ih =>
    cases h : isValueCard key card with
    | true => simp [h, parseStringKeyword]
    | false => simp [h, parseStringKeyword, ih]

theorem filter_set_of_not {p : Card → Bool} (hi : cards[i]? = some old) (hold : p old = false)
    (hnew : p card = false) : (cards.set i card).filter p = cards.filter p := by
  induction cards generalizing i with
  | nil => simp at hi
  | cons c cards ih =>
    cases i with
    | zero =>
      obtain rfl : c = old := by simpa using hi
      simp [hold, hnew]
    | succ i =>
      rw [List.set_cons_succ, List.filter_cons, List.filter_cons, ih (by simpa using hi)]

theorem filter_insertIdx_of_not {p : Card → Bool} (hnew : p card = false) :
    (cards.insertIdx i card).filter p = cards.filter p := by
  induction cards generalizing i with
  | nil =>
    cases i with
    | zero => simp [hnew]
    | succ i => simp
  | cons c cards ih =>
    cases i with
    | zero => simp [hnew]
    | succ i => rw [List.insertIdx_succ_cons, List.filter_cons, List.filter_cons, ih]

/-- A card whose keyword field starts with `key` is no value card of a keyword that
does not. -/
theorem not_isValueCard_of_keyword {rest : Str} (h : trim (card.take 8) = key ++ rest)
    (hother : key.isPrefixOf other = false) : isValueCard other card = false := by
  rw [Bool.eq_false_iff]
  intro hd
  simp only [isValueCard, Bool.and_eq_true, decide_eq_true_eq] at hd
  rw [h] at hd
  rw [← hd.1.2, List.isPrefixOf_iff_prefix.2 (List.prefix_append _ _)] at hother
  exact Bool.noConfusion hother

/-- Text lookups of other keywords are as before. -/
theorem parseStringKeyword_setCard_other {v : Int} {comment : Str} (hkey : IsToken key)
    (hlen : key.length ≤ 8) (hv : InI64 v) (hother : key.isPrefixOf other = false) :
    parseStringKeyword (setCard key (trimEnd (cardInt key v comment)) place cards) other =
      parseStringKeyword cards other := by
  have hkeyword : trim ((trimEnd (cardInt key v comment)).take 8) = key ++ [] := by
    rw [keyword_cardInt hkey hlen hv, List.append_nil]
  have hnew : isValueCard other (trimEnd (cardInt key v comment)) = false :=
    not_isValueCard_of_keyword hkeyword hother
  rw [← parseStringKeyword_filter, ← parseStringKeyword_filter cards]
  congr 1
  unfold setCard
  split
  · rename_i i hi
    obtain ⟨old, hold, htrim⟩ := cardIndex_some hi
    obtain ⟨rest, hrest⟩ := keyword_of_trim_take hkey hlen htrim
    exact filter_set_of_not hold (not_isValueCard_of_keyword hrest hother) hnew
  · exact filter_insertIdx_of_not hnew

end

namespace BinaryTable

/-- Two headers with the same columns. -/
structure SameColumns (cards cards' : List Card) : Prop where
  tfields : parseKeyword cards' (str "TFIELDS") = parseKeyword cards (str "TFIELDS")
  naxis1 : parseKeyword cards' (str "NAXIS1") = parseKeyword cards (str "NAXIS1")
  tform : ∀ i, parseStringKeyword cards' (tformKey i) = parseStringKeyword cards (tformKey i)
  ttype : ∀ i, parseStringKeyword cards' (ttypeKey i) = parseStringKeyword cards (ttypeKey i)
  tdim : ∀ i, parseStringKeyword cards' (tdimKey i) = parseStringKeyword cards (tdimKey i)

section

variable {cards cards' : List Card} {columns : List Column}

theorem parseColumn_congr (h : SameColumns cards cards') (i offset : Nat) :
    parseColumn cards' i offset = parseColumn cards i offset := by
  unfold parseColumn variableKind checkTdim
  simp only [h.tform, h.ttype, h.tdim]

theorem parseColumnsFrom_congr (h : SameColumns cards cards') (count i offset : Nat) :
    parseColumnsFrom cards' count i offset = parseColumnsFrom cards count i offset := by
  induction count generalizing i offset with
  | zero => rfl
  | succ count ih =>
    rw [parseColumnsFrom, parseColumnsFrom, parseColumn_congr h]
    simp only [ih]

/-- The columns are read from the cards of `SameColumns` alone. -/
theorem parseColumns_congr (h : SameColumns cards cards') :
    parseColumns cards' = parseColumns cards := by
  unfold parseColumns
  simp only [h.tfields, h.naxis1, parseColumnsFrom_congr h]

/-- A keyword of another first byte does not start with `key`. -/
theorem isPrefixOf_cons_of_ne {a b : UInt8} {key other : Str} (h : a ≠ b) :
    (a :: key).isPrefixOf (b :: other) = false := by
  simp [List.isPrefixOf, h]

/-- Setting a card of a keyword that does not start with `T` keeps the columns,
unless it is NAXIS1. -/
theorem sameColumns_setCard {b : UInt8} {rest comment : Str} {v : Int} {place : Nat}
    (hkey : IsToken (b :: rest)) (hlen : (b :: rest).length ≤ 8) (hv : InI64 v) (hb : b ≠ 0x54)
    (hnaxis1 : (b :: rest).isPrefixOf (str "NAXIS1") = false) :
    SameColumns cards
      (setCard (b :: rest) (trimEnd (cardInt (b :: rest) v comment)) place cards) :=
  ⟨parseKeyword_setCard_other hkey hlen hv (isPrefixOf_cons_of_ne hb),
    parseKeyword_setCard_other hkey hlen hv hnaxis1,
    fun _ => parseStringKeyword_setCard_other hkey hlen hv (isPrefixOf_cons_of_ne hb),
    fun _ => parseStringKeyword_setCard_other hkey hlen hv (isPrefixOf_cons_of_ne hb),
    fun _ => parseStringKeyword_setCard_other hkey hlen hv (isPrefixOf_cons_of_ne hb)⟩

theorem sameColumns_setPcount (n : Nat) : SameColumns cards (setPcountInCards cards n) :=
  sameColumns_setCard (by decide) (by decide) (inI64_asI64 n) (by decide) (by decide)

/-! ## The layout of a row -/

/-- From `start` to `stop` the columns lie one behind the other. -/
def Placed : Nat → List Column → Nat → Prop
  | start, [], stop => start = stop
  | start, column :: columns, stop =>
    column.byteOffset = start ∧ (∀ kind ∈ column.varKind, column.byteWidth = kind.width) ∧
      Placed (start + column.byteWidth) columns stop

/-- The width of a row. -/
def totalWidth (columns : List Column) : Nat := (columns.map Column.byteWidth).sum

theorem parseColumn_ok {i offset : Nat} {column : Column}
    (h : parseColumn cards i offset = .ok column) :
    column.byteOffset = offset ∧ ∀ kind ∈ column.varKind, column.byteWidth = kind.width := by
  unfold parseColumn at h
  split at h
  · cases h
  · rename_i tform _
    cases hinfo : parseTform tform i with
    | error e => simp [hinfo, Bind.bind, Except.bind] at h
    | ok info =>
      simp only [hinfo, Bind.bind, Except.bind] at h
      split at h
      · split at h
        · cases h
        · cases h
          exact ⟨rfl, fun kind hkind => by cases hkind; rfl⟩
      · split at h
        · cases h
        · split at h
          · cases h
          · cases h
            exact ⟨rfl, fun kind hkind => by cases hkind⟩

theorem parseColumnsFrom_placed {count i offset width : Nat}
    (h : parseColumnsFrom cards count i offset = .ok (columns, width))
    (hfit : offset + totalWidth columns < u64Size) :
    Placed offset columns width ∧ width = offset + totalWidth columns := by
  induction count generalizing i offset columns with
  | zero =>
    cases h
    exact ⟨rfl, rfl⟩
  | succ count ih =>
    rw [parseColumnsFrom] at h
    cases hcolumn : parseColumn cards i offset with
    | error e => simp [hcolumn, Bind.bind, Except.bind] at h
    | ok column =>
      simp only [hcolumn, Bind.bind, Except.bind] at h
      split at h
      · cases h
      · rename_i result hrest
        obtain ⟨rest, stop⟩ := result
        cases h
        have htotal : totalWidth (column :: rest) = column.byteWidth + totalWidth rest := rfl
        simp only [htotal] at hfit ⊢
        rw [Nat.mod_eq_of_lt (by omega)] at hrest
        obtain ⟨hplaced, hwidth⟩ := ih hrest (by omega)
        exact ⟨⟨(parseColumn_ok hcolumn).1, (parseColumn_ok hcolumn).2, hplaced⟩, by omega⟩

/-- The columns fill the row. -/
theorem parseColumns_placed (h : parseColumns cards = .ok columns)
    (hfit : totalWidth columns < u64Size) {w : Nat}
    (hw : parseKeyword cards (str "NAXIS1") = some (w : Int)) : Placed 0 columns w := by
  unfold parseColumns at h
  split at h
  · cases h
  · rename_i tfields _
    split_ifs at h
    cases hfrom : parseColumnsFrom cards tfields.toNat 1 0 with
    | error e => simp [hfrom, Bind.bind, Except.bind] at h
    | ok result =>
      obtain ⟨found, offset⟩ := result
      have hin := inI64_of_parseKeyword hw
      have hasU64 : asU64 (w : Int) = w := by
        rw [asU64_of_nonneg (by omega) (by unfold InI64 at hin; unfold u64Size; omega)]
        rfl
      simp only [hfrom, Bind.bind, Except.bind, hw, Option.getD_some, hasU64] at h
      split_ifs at h with hne
      · cases h
        obtain ⟨hplaced, -⟩ := parseColumnsFrom_placed hfrom (by omega)
        have hwidth : w = offset := by simpa using hne
        rw [hwidth]
        exact hplaced

end

end BinaryTable

end RustFits
