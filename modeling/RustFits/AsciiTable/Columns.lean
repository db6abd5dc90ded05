import RustFits.AsciiTable.Append
import RustFits.BinaryTable.Columns
import RustFits.Header.Model

/-!
# The columns of an ASCII table

`columns.rs` of `hdu_ascii_table`: a column stands where its TBCOL card says and is as
wide as its TFORM card says.  Columns may stand in any order, with gaps between them.

`parseAsciiColumns` reads the columns and checks that they do not overlap and that
they end in the row.

Scaling, null values and units are not part of a column here.
-/

namespace RustFits.AsciiTable

open Ascii ByteFile Machine Header

/-! ## TFORM -/

structure AsciiTformInfo where
  letter : UInt8
  width : Nat
  decimals : Option Nat
  deriving DecidableEq, Repr

/-- The texts of the TFORM errors start alike. -/
def tformText (i : Nat) (tform rest : Str) : PyErr :=
  .value (str "column " ++ natDec i ++ str ": TFORM='" ++ tform ++ str "'" ++ rest)

/-- The decimals of a field, which only the float formats have. -/
def parseDecimals (letter : UInt8) (decimals : Option Str) (tform : Str) (i : Nat) :
    Except PyErr (Option Nat) :=
  if letter = 0x41 ∨ letter = 0x49 then
    match decimals with
    | some _ => .error (tformText i tform (str " has decimal modifier on letter '" ++ [letter] ++
        str "' (only F/E/D take Fw.d form)"))
    | none => .ok none
  else
    match decimals with
    | none => .error (tformText i tform (str " is missing decimal modifier (need '" ++ [letter] ++
        str "w.d' form)"))
    | some d =>
      match parseU64 (trim d) with
      | some n => .ok (some n)
      | none => .error (tformText i tform (str " decimals '" ++ d ++
          str "' is not a non-negative integer"))

/-- `parse_ascii_tform`. -/
def parseAsciiTform (tform : Str) (i : Nat) : Except PyErr AsciiTformInfo :=
  match trim tform with
  | [] => .error (tformText i tform (str " is empty"))
  | first :: rest =>
    let letter := (toAsciiUppercase [first]).headD first
    if letter ∉ str "AIFED" then
      .error (tformText i tform (str " uses unsupported ASCII-table type letter '" ++ [letter] ++
        str "'; expected one of A, I, F, E, D"))
    else
      let widthText := rest.takeWhile fun b => b != 0x2E
      let decimalsText := match rest.dropWhile fun b => b != 0x2E with
        | [] => none
        | _ :: d => some d
      match parseU64 (trim widthText) with
      | none => .error (tformText i tform (str " width '" ++ widthText ++
          str "' is not a positive integer"))
      | some width =>
        if width = 0 then .error (tformText i tform (str " has zero width"))
        else do
          let decimals ← parseDecimals letter decimalsText tform i
          return ⟨letter, width, decimals⟩

/-! ## Columns -/

def tbcolKey (i : Nat) : Str := str "TBCOL" ++ natDec i

/-- Column `i`.  The sum of place and width is one of 64 bits. -/
def parseAsciiColumn (cards : List Card) (naxis1 i : Nat) : Except PyErr AsciiColumn :=
  match parseKeyword cards (tbcolKey i) with
  | none => .error (.value (str "ASCII table missing required " ++ tbcolKey i ++ str " keyword"))
  | some tbcol =>
    if tbcol < 1 then
      .error (.value (str "column " ++ natDec i ++ str ": " ++ tbcolKey i ++ str "=" ++
        intDec tbcol ++ str " must be >= 1 (1-based per spec)"))
    else
      let byteOffset := (tbcol - 1).toNat
      match parseStringKeyword cards (BinaryTable.tformKey i) with
      | none => .error (.value (str "ASCII table missing required " ++ BinaryTable.tformKey i ++
          str " keyword"))
      | some tform => do
        let info ← parseAsciiTform tform i
        if 0 < naxis1 ∧ naxis1 < (byteOffset + info.width) % u64Size then
          .error (.value (str "column " ++ natDec i ++ str ": " ++ tbcolKey i ++ str "=" ++
            intDec tbcol ++ str " + TFORM width " ++ natDec info.width ++
            str " extends past NAXIS1=" ++ natDec naxis1 ++ str " (row width)"))
        else
          let name :=
            (parseStringKeyword cards (BinaryTable.ttypeKey i)).getD (str "COL" ++ natDec i)
          return ⟨name, info.letter, byteOffset, info.width, info.decimals⟩

/-- Each column of a list by place ends before the next one starts. -/
def checkOverlap : List (AsciiColumn × Nat) → Except PyErr Unit
  | a :: b :: rest =>
    if b.1.byteOffset < (a.1.byteOffset + a.1.byteWidth) % u64Size then
      .error (.value (str "ASCII table columns " ++ natDec (a.2 + 1) ++ str " (TBCOL=" ++
        natDec (a.1.byteOffset + 1) ++ str ", width=" ++ natDec a.1.byteWidth ++ str ") and " ++
        natDec (b.2 + 1) ++ str " (TBCOL=" ++ natDec (b.1.byteOffset + 1) ++
        str (", ...) overlap on disk; this is rejected as likely-corrupt " ++
          "(no sane writer produces overlap)")))
    else checkOverlap (b :: rest)
  | _ => .ok ()

/-- The columns with their indices, by place. -/
def byPlace (columns : List AsciiColumn) : List (AsciiColumn × Nat) :=
  columns.zipIdx.mergeSort fun a b => decide (a.1.byteOffset ≤ b.1.byteOffset)

/-- `parse_ascii_columns`. -/
def parseAsciiColumns (cards : List Card) : Except PyErr (List AsciiColumn) :=
  match parseKeyword cards (str "TFIELDS") with
  | none => .error (.value (str "ASCII table missing required TFIELDS keyword"))
  | some tfields =>
    if tfields < 0 then
      .error (.value (str "ASCII table TFIELDS=" ++ intDec tfields ++ str " is negative"))
    else do
      let columns ← (List.range tfields.toNat).mapM fun i =>
        parseAsciiColumn cards (asciiRowWidth cards) (i + 1)
      checkOverlap (byPlace columns)
      return columns

end RustFits.AsciiTable
