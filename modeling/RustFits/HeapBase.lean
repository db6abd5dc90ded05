import Mathlib.Data.List.GetD
import RustFits.BinaryTable.Repack
import RustFits.ColumnEdit.Cards
import RustFits.CompressedTable.Model

/-!
# Where the heap of a table starts

Every operation of a binary table and of a compressed table works out the start of the
heap in the data section from the header by itself.

* `heapBases` is that start, for each operation, as the operation computes it; an
  operation that refuses the header has none.
* `changeHeader` is the header that a mutation leaves, with the start of the heap that
  the mutation left in the file.
* `heapBases_agree_iff` says when all of them are the base that a read uses, before and
  after the mutation.
-/

namespace RustFits.HeapBase

open Ascii ByteFile Machine ColumnEdit BinaryTable

/-! ## The base of each operation -/

inductive Kind where
  | binary
  | compressed
  deriving DecidableEq, Repr

inductive HeapOp where
  | read
  | write
  | append
  | setitem
  | repack
  | insertColumn
  | deleteColumn
  | checksum
  deriving DecidableEq, Repr

/-- The bytes of the rows, or of the descriptors of a compressed table. -/
def mainBytes (cards : List Card) : Nat :=
  natKeyword cards (str "NAXIS2") * natKeyword cards (str "NAXIS1") % u64Size

def theapRaw (cards : List Card) : Int := (parseKeyword cards (str "THEAP")).getD 0

/-- `reject_non_default_theap`. -/
def rejectNonDefaultTheap (cards : List Card) : Except PyErr Unit :=
  if 0 < theapRaw cards ∧ (theapRaw cards).toNat ≠ mainBytes cards then
    .error (.value (str "schema edit: file has non-default THEAP=" ++ intDec (theapRaw cards) ++
      str " (main rows end at " ++ natDec (mainBytes cards) ++
      str "); insert/delete writes the heap at the default position " ++
      str "and would corrupt this file.  Workaround: rewrite the file " ++
      str "through a fresh create_table_hdu + write"))
  else .ok ()

/-- The guard of `repack_table_heap`. -/
def rejectRepackTheap (cards : List Card) : Except PyErr Unit :=
  let main := saturatingMul (natKeyword cards (str "NAXIS2")) (natKeyword cards (str "NAXIS1"))
  if 0 < theapRaw cards ∧ (theapRaw cards).toNat ≠ main then
    .error (.value (str "repack: file has non-default THEAP=" ++ intDec (theapRaw cards) ++
      str " (main rows end at " ++ natDec main ++
      str "); repack would write the new heap at the default position and corrupt the file.  " ++
      str "Workaround: rewrite the file through a fresh create_table_hdu + write"))
  else .ok ()

/-- The bases of an operation of a binary table.  Its checksum streams the data section
as it is. -/
def tableHeapBases (cards : List Card) : HeapOp → Except PyErr (List Nat)
  | .read => (parseTableMeta cards).map fun table => [table.theap]
  | .write | .append | .setitem => .ok [mainBytes cards]
  | .repack => (rejectRepackTheap cards).map fun _ => [heapBaseInData cards]
  | .insertColumn | .deleteColumn => (rejectNonDefaultTheap cards).map fun _ => [mainBytes cards]
  | .checksum => .ok []

/-- Column edits of compressed tables are refused. -/
def schemaEditError (method : Str) : PyErr :=
  .notImplemented (str "CompressedTableHDU." ++ method ++
    str "() " ++ emDash ++
    str " schema edits on compressed tables are not planned for the current roadmap")

/-- The bases of an operation of a compressed table: that of the blobs that are decoded,
and that of the blobs and cells that are copied or written. -/
def compressedHeapBases (cards : List Card) : HeapOp → Except PyErr (List Nat)
  | .read => .ok [CompressedTable.heapBase cards]
  | .append | .setitem | .checksum => .ok [CompressedTable.heapBase cards, mainBytes cards]
  | .write | .repack => .ok [mainBytes cards]
  | .insertColumn => .error (schemaEditError (str "insert_column"))
  | .deleteColumn => .error (schemaEditError (str "delete_column"))

def heapBases : Kind → List Card → HeapOp → Except PyErr (List Nat)
  | .binary => tableHeapBases
  | .compressed => compressedHeapBases

/-- The base of a read. -/
def readBase : Kind → List Card → Except PyErr Nat
  | .binary, cards => (parseTableMeta cards).map TableMeta.theap
  | .compressed, cards => .ok (CompressedTable.heapBase cards)

/-! ## The header of a mutation -/

inductive Change where
  | write (pcount : Nat) (zpcount : Option Nat) (maxBits : List (Nat × VarKind × Nat))
  | setitem (pcount : Nat) (zpcount : Option Nat)
  | append (count pcount : Nat) (zpcount : Option Nat)
  | repack (pcount : Nat)
  | insertColumn (col : WriteColumn) (insertIdx : Nat) (pcount : Option Nat) (maxBits : Nat)
  | deleteColumn (key : Int)

/-- `resolve_column_key`, for an integer. -/
def resolveColumnKey (ncols : Nat) (i : Int) : Except PyErr Nat :=
  let resolved := if i < 0 then i + ncols else i
  if resolved < 0 ∨ ncols ≤ resolved.toNat then
    .error (.value (str "column index " ++ intDec i ++ str " out of range (table has " ++
      natDec ncols ++ str " columns)"))
  else .ok resolved.toNat

/-- The header of `append_vla_aware`. -/
def appendedTableCards (cards : List Card) (newNrows pcount : Nat) : Except PyErr (List Card) :=
  match cardIndex (str "NAXIS2") cards with
  | some i =>
    .ok (setPcountInCards
      (cards.set i
        (trimEnd (cardInt (str "NAXIS2") (asI64 newNrows) (str "number of rows in table")))) pcount)
  | none => .error (.value (str "header missing NAXIS2"))

/-- The header that a mutation of a binary table leaves, and the start of its heap. -/
def changeTable (cards : List Card) : Change → Except PyErr (List Card × Nat)
  | .write pcount _ maxBits =>
    .ok (maxBits.foldl (fun cards x => setXVlaTformMaxlenInCards cards x.1 x.2.1 x.2.2)
      (setPcountInCards cards pcount), mainBytes cards)
  | .setitem pcount _ => .ok (setPcountInCards cards pcount, mainBytes cards)
  | .append count pcount _ => do
    let newNrows := natKeyword cards (str "NAXIS2") + count
    let cards' ← appendedTableCards cards newNrows pcount
    return (cards', newNrows * natKeyword cards (str "NAXIS1"))
  | .repack pcount => do
    rejectRepackTheap cards
    return (setPcountInCards cards pcount, mainBytes cards)
  | .insertColumn col insertIdx pcount maxBits => do
    let columns ← parseColumns cards
    rejectNonDefaultTheap cards
    let newRowWidth := natKeyword cards (str "NAXIS1") + col.byteWidth
    let cards' ← insertedCards cards col insertIdx columns.length newRowWidth pcount maxBits
    return (cards', natKeyword cards (str "NAXIS2") * newRowWidth)
  | .deleteColumn key => do
    let columns ← parseColumns cards
    rejectNonDefaultTheap cards
    if columns.isEmpty then .error (.value (str "delete_column: table has no columns to delete"))
    else do
      let deleteIdx ← resolveColumnKey columns.length key
      let deletedWidth := ((columns[deleteIdx]?).map Column.byteWidth).getD 0
      let newRowWidth := natKeyword cards (str "NAXIS1") - deletedWidth
      let cards' ← deletedCards cards deleteIdx columns.length newRowWidth
      return (cards', natKeyword cards (str "NAXIS2") * newRowWidth)

/-- The same for a compressed table, which has tiles in place of rows. -/
def changeCompressed (cards : List Card) : Change → Except PyErr (List Card × Nat)
  | .write pcount zpcount _ =>
    .ok (CompressedTable.pcountCards cards pcount zpcount, mainBytes cards)
  | .setitem pcount zpcount =>
    .ok (CompressedTable.pcountCards cards pcount zpcount, mainBytes cards)
  | .append count pcount zpcount => do
    let shape := CompressedTable.appendShape count (natKeyword cards (str "ZNAXIS2"))
      (natKeyword cards (str "ZTILELEN")) (natKeyword cards (str "NAXIS2"))
    let cards' ← CompressedTable.appendedCards cards shape.newNTiles shape.newNrows pcount zpcount
    return (cards', shape.newNTiles * natKeyword cards (str "NAXIS1"))
  | .repack pcount => .ok (CompressedTable.pcountCards cards pcount none, mainBytes cards)
  | .insertColumn .. => .error (schemaEditError (str "insert_column"))
  | .deleteColumn _ => .error (schemaEditError (str "delete_column"))

def changeHeader : Kind → List Card → Change → Except PyErr (List Card × Nat)
  | .binary => changeTable
  | .compressed => changeCompressed

/-! ## The header of a table -/

/-- A standard table, with the counts of its rows in left-justified cards. -/
structure RowHeader (cards : List Card) : Prop where
  standard : StandardTable cards
  naxis1 : LeftJustified (str "NAXIS1") cards
  naxis2 : LeftJustified (str "NAXIS2") cards

/-- The place that the THEAP card gives to the heap, for a read. -/
def explicitHeap (kind : Kind) (cards : List Card) : Option Nat :=
  match kind with
  | .binary => (parseKeyword cards (str "THEAP")).map Int.toNat
  | .compressed => if 0 < theapRaw cards then some (theapRaw cards).toNat else none

/-- No card places the heap, or it places it behind the rows and they stay as many
bytes. -/
def DefaultHeap (kind : Kind) (cards : List Card) (left : Nat) : Prop :=
  ∀ t, explicitHeap kind cards = some t → t = mainBytes cards ∧ left = mainBytes cards

section

variable {cards cards' : List Card} {table : TableMeta} {kind : Kind} {change : Change}
  {left base base' n w : Nat}

theorem RowHeader.main_lt (h : RowHeader cards) :
    natKeyword cards (str "NAXIS2") * natKeyword cards (str "NAXIS1") < 9223372036854775808 := by
  have hsize := h.standard.size
  rw [tableDataBytes, Nat.mul_comm] at hsize
  omega

theorem RowHeader.mainBytes (h : RowHeader cards) :
    mainBytes cards = natKeyword cards (str "NAXIS2") * natKeyword cards (str "NAXIS1") :=
  Nat.mod_eq_of_lt (h.main_lt.trans (by decide))

/-- The base of a read: the place that the card gives, or behind the rows. -/
theorem readBase_eq (hread : readBase kind cards = .ok base)
    (hmain : natKeyword cards (str "NAXIS2") * natKeyword cards (str "NAXIS1") < u64Size) :
    base = (explicitHeap kind cards).getD (mainBytes cards) := by
  cases kind with
  | binary =>
    obtain ⟨table, htable, hbase⟩ := map_eq_ok_iff.1 hread
    obtain ⟨columns, -, hmeta⟩ := bind_eq_ok.1 htable
    rw [← hbase, ← Except.ok.inj hmeta]
    rfl
  | compressed =>
    have hbase : base = CompressedTable.heapBase cards := (Except.ok.inj hread).symm
    rw [hbase, CompressedTable.heapBase, explicitHeap, theapRaw, HeapBase.mainBytes,
      Nat.mod_eq_of_lt hmain]
    split_ifs <;> rfl

/-- Where the card places the heap behind the rows, or there is none, repack uses that. -/
theorem heapBaseInData_of_default (h : RowHeader cards)
    (hdefault : ∀ t, explicitHeap .binary cards = some t → t = HeapBase.mainBytes cards) :
    heapBaseInData cards = HeapBase.mainBytes cards := by
  have hlt := h.main_lt
  unfold heapBaseInData
  dsimp only
  by_cases hpos : 0 < (parseKeyword cards (str "THEAP")).getD 0
  · rw [if_pos hpos]
    cases hcard : parseKeyword cards (str "THEAP") with
    | none =>
      rw [hcard] at hpos
      exact absurd hpos (by decide)
    | some v =>
      refine hdefault v.toNat ?_
      rw [explicitHeap, hcard]
      rfl
  · rw [if_neg hpos, h.mainBytes, saturatingMul, Nat.mul_comm (natKeyword cards (str "NAXIS1"))]
    exact Nat.min_eq_left (by rw [u64Size]; omega)

theorem heapBases_same_iff (h : RowHeader cards) (hread : readBase kind cards = .ok base) :
    (∀ op bases, heapBases kind cards op = .ok bases → ∀ b ∈ bases, b = base) ↔
      ∀ t, explicitHeap kind cards = some t → t = HeapBase.mainBytes cards := by
  have hbase := readBase_eq hread (h.main_lt.trans (by decide))
  constructor
  · intro hsame t ht
    rw [ht, Option.getD_some] at hbase
    have hmain : HeapBase.mainBytes cards = base := by
      cases kind with
      | binary => exact hsame .setitem _ rfl _ (by simp)
      | compressed => exact hsame .setitem _ rfl _ (by simp)
    exact hbase.symm.trans hmain.symm
  · intro hdefault op bases hop b hb
    have hmain : base = HeapBase.mainBytes cards := by
      rw [hbase]
      cases ht : explicitHeap kind cards with
      | none => rfl
      | some t => exact hdefault t ht
    rw [hmain]
    cases kind with
    | binary =>
      have hguard : ∀ {guard : Except PyErr Unit} {value : Nat}, value = HeapBase.mainBytes cards →
          guard.map (fun _ => [value]) = .ok bases → b = HeapBase.mainBytes cards := by
        intro guard value hvalue hg
        obtain ⟨-, -, hlist⟩ := map_eq_ok_iff.1 hg
        rw [← hlist, List.mem_singleton] at hb
        exact hb.trans hvalue
      cases op with
      | read =>
        obtain ⟨table, htable, hlist⟩ := map_eq_ok_iff.1 hop
        rw [← hlist, List.mem_singleton] at hb
        have hread' : readBase .binary cards = .ok table.theap :=
          map_eq_ok_iff.2 ⟨table, htable, rfl⟩
        rw [hread] at hread'
        rw [hb, ← Except.ok.inj hread', hmain]
      | write | append | setitem =>
        rw [← Except.ok.inj hop, List.mem_singleton] at hb
        exact hb
      | repack => exact hguard (heapBaseInData_of_default h hdefault) hop
      | insertColumn | deleteColumn => exact hguard rfl hop
      | checksum =>
        rw [← Except.ok.inj hop] at hb
        cases hb
    | compressed =>
      have hheap : CompressedTable.heapBase cards = HeapBase.mainBytes cards :=
        (Except.ok.inj hread).trans hmain
      cases op with
      | read =>
        rw [← Except.ok.inj hop, List.mem_singleton] at hb
        exact hb.trans hheap
      | append | setitem | checksum =>
        rw [← Except.ok.inj hop, List.mem_cons, List.mem_singleton] at hb
        exact hb.elim (·.trans hheap) id
      | write | repack =>
        rw [← Except.ok.inj hop, List.mem_singleton] at hb
        exact hb
      | insertColumn | deleteColumn => cases hop

/-! ## The header after a mutation -/

/-- Where every card of the keyword is found by its first bytes, none in front of the one
that is found decides the keyword. -/
theorem none_decides_before {key : Str} {p : Card → Bool} {i : Nat} (hj : LeftJustified key cards)
    (hfind : cards.findIdx? p = some i)
    (hp : ∀ c, decidesKey key c = true → trimEnd (c.take 8) = key → p c = true) :
    ∀ c ∈ cards.take i, decidesKey key c = false := by
  intro c hc
  rw [Bool.eq_false_iff]
  intro hd
  obtain ⟨hi, -, hbefore⟩ := List.findIdx?_eq_some_iff_getElem.1 hfind
  obtain ⟨j, hjlt, hcard⟩ := List.mem_take_iff_getElem.1 hc
  have hfound := hp c hd (hj c (List.mem_of_mem_take hc) hd)
  rw [← hcard] at hfound
  exact hbefore j (by omega) hfound

/-- What a left-justified card starts with. -/
theorem take_of_justified {key : Str} {c : Card} (h : trimEnd (c.take 8) = key) :
    c.take key.length = key := by
  have hprefix : key <+: c := by
    rw [← h]
    exact (List.rdropWhile_prefix _ _).trans (List.take_prefix _ _)
  exact (List.prefix_iff_eq_take.1 hprefix).symm

theorem nine_le_of_decides {key : Str} {c : Card} (h : decidesKey key c = true) : 9 ≤ c.length := by
  simp only [decidesKey, isValueCard, Bool.and_eq_true, decide_eq_true_eq] at h
  exact h.1.1.1

/-- Behind the keyword of a left-justified card there is white space. -/
theorem white_of_justified {key : Str} {c : Card} (h : trimEnd (c.take 8) = key)
    (hlen : key.length < 8) (hlong : 9 ≤ c.length) : isWhitespace (c.getD key.length 0) = true := by
  have hsplit : trimEnd (c.take 8) ++ (c.take 8).rtakeWhile isWhitespace = c.take 8 :=
    List.rdropWhile_append_rtakeWhile
  have hget : c.getD key.length 0 = (c.take 8).getD key.length 0 := by
    rw [List.getD_eq_getElem?_getD, List.getD_eq_getElem?_getD, List.getElem?_take_of_lt hlen]
  have hlength := congrArg List.length hsplit
  rw [List.length_append, h, List.length_take] at hlength
  rw [hget, ← hsplit, h, List.getD_append_right _ _ _ _ (Nat.le_refl _), Nat.sub_self,
    List.getD_eq_getElem _ _ (by omega)]
  exact List.mem_rtakeWhile_imp (List.getElem_mem _)

theorem not_isDigit_of_white {b : UInt8} (h : isWhitespace b = true) : isDigit b = false := by
  simp only [isWhitespace, isDigit, Bool.or_eq_true, Bool.and_eq_true, beq_iff_eq,
    decide_eq_true_eq, Bool.and_eq_false_iff, decide_eq_false_iff_not, UInt8.le_iff_toNat_le] at h ⊢
  rcases h with rfl | h
  · exact .inl (by decide)
  · left
    have h9 := h.2
    simp only [UInt8.reduceToNat] at h9 ⊢
    omega

/-- `set_pcount_in_cards` and `set_zpcount_in_cards` leave the other keywords. -/
theorem parseKeyword_pcountCards {key : Str} (pcount : Nat) (zpcount : Option Nat)
    (hp : (str "PCOUNT").isPrefixOf key = false) (hz : (str "ZPCOUNT").isPrefixOf key = false) :
    parseKeyword (CompressedTable.pcountCards cards pcount zpcount) key =
      parseKeyword cards key := by
  cases zpcount with
  | none => exact parseKeyword_setPcount_other pcount hp
  | some z =>
    exact (parseKeyword_setZpcount_other z hz).trans (parseKeyword_setPcount_other pcount hp)

theorem keepsKey_maxBits {key : Str} (hkey : NotColumnKey key)
    (maxBits : List (Nat × VarKind × Nat)) :
    ∀ cards, parseKeyword
      (maxBits.foldl (fun cards x => setXVlaTformMaxlenInCards cards x.1 x.2.1 x.2.2) cards) key =
        parseKeyword cards key := by
  induction maxBits with
  | nil => exact fun cards => rfl
  | cons x maxBits ih =>
    exact fun cards => (ih _).trans (keepsKey_setXVlaTformMaxlen hkey cards x.1 x.2.1 x.2.2).lookup

/-- The row count that an append sets in the header of a binary table. -/
theorem appendedTableCards_spec {pcount : Nat}
    (h : appendedTableCards cards n pcount = .ok cards') :
    (∀ key, (str "NAXIS2").isPrefixOf key = false → (str "PCOUNT").isPrefixOf key = false →
        parseKeyword cards' key = parseKeyword cards key) ∧
      (LeftJustified (str "NAXIS2") cards → parseKeyword cards' (str "NAXIS2") =
        some (asI64 n)) := by
  unfold appendedTableCards at h
  cases hfind : cardIndex (str "NAXIS2") cards with
  | none =>
    rw [hfind] at h
    cases h
  | some i =>
    rw [hfind] at h
    rw [← Except.ok.inj h]
    obtain ⟨old, hold, htrim⟩ := cardIndex_some hfind
    refine ⟨fun key hkey hp => ?_, fun hj => ?_⟩
    · rw [parseKeyword_setPcount_other pcount hp]
      exact parseKeyword_set_of_not_decides hold
        (not_decides_of_startsWith (by decide) (by decide) htrim hkey)
        (not_decides_cardInt (by decide) (by decide) (inI64_asI64 n) hkey)
    · rw [parseKeyword_setPcount_other pcount (by decide)]
      refine parseKeyword_set_cardInt (by decide) (by decide) (inI64_asI64 n)
        (List.getElem?_eq_some_iff.1 hold).1 (none_decides_before hj hfind ?_)
      intro c hd hc
      have hlong := nine_le_of_decides hd
      have htake := take_of_justified hc
      rw [startsWithKey, htake]
      have hlen : (str "NAXIS2").length = 6 := by decide
      simp only [Bool.and_eq_true, decide_eq_true_eq]
      exact ⟨by omega, by decide⟩

theorem intCardFirst_of_justified {key : Str} (hlen : key.length < 8)
    (hj : LeftJustified key cards) : IntCardFirst key cards := by
  unfold IntCardFirst
  cases hfind : intCardIndex key cards with
  | none => exact fun c hc => by simp at hc
  | some i =>
    refine none_decides_before hj hfind fun c hd hc => ?_
    have hlong := nine_le_of_decides hd
    have hblank := not_isDigit_of_white (white_of_justified hc hlen hlong)
    have htake := take_of_justified hc
    have htoken : trimEnd key = key := by
      rw [← hc]
      exact List.rdropWhile_idempotent _ _
    rw [htake, htoken, hblank]
    simp only [Bool.and_eq_true, decide_eq_true_eq, Bool.not_false, Bool.or_true, and_true]
    omega

/-- The tile count that an append sets in the header of a compressed table. -/
theorem appendedCards_spec {newNrows pcount : Nat} {zpcount : Option Nat}
    (h : CompressedTable.appendedCards cards n newNrows pcount zpcount = .ok cards') :
    (∀ key, (str "NAXIS2").isPrefixOf key = false → (str "ZNAXIS2").isPrefixOf key = false →
        (str "PCOUNT").isPrefixOf key = false → (str "ZPCOUNT").isPrefixOf key = false →
        parseKeyword cards' key = parseKeyword cards key) ∧
      (LeftJustified (str "NAXIS2") cards → parseKeyword cards' (str "NAXIS2") =
        some (asI64 n)) := by
  obtain ⟨cards1, h1, h⟩ := bind_eq_ok.1 h
  obtain ⟨cards2, h2, h⟩ := bind_eq_ok.1 h
  obtain ⟨-, hother1, hself1⟩ := updateIntCardInPlace_ok (by decide) (by decide) (inI64_asI64 _) h1
  obtain ⟨-, hother2, -⟩ := updateIntCardInPlace_ok (by decide) (by decide) (inI64_asI64 _) h2
  rw [← Except.ok.inj h]
  refine ⟨fun key hn hzn hp hz => ?_, fun hj => ?_⟩
  · rw [parseKeyword_pcountCards pcount zpcount hp hz, hother2 key hzn, hother1 key hn]
  · rw [parseKeyword_pcountCards pcount zpcount (by decide) (by decide), hother2 _ (by decide)]
    exact hself1 (intCardFirst_of_justified (by decide) hj)

/-- A count in its own card, where it is read from. -/
theorem natKeyword_mul {key : Str} (hcount : parseKeyword cards' key = some (asI64 n))
    (hfits : n * w ≤ 9223372036854775807) : natKeyword cards' key * w = n * w := by
  rw [natKeyword, hcount, Option.getD_some]
  rcases Nat.eq_zero_or_pos w with rfl | hw
  · rw [Nat.mul_zero, Nat.mul_zero]
  · have hle : n ≤ 9223372036854775807 := (Nat.le_mul_of_pos_right n hw).trans hfits
    rw [(asI64_toNat_iff n).2 hle]

/-- What a mutation does to the keywords that place the heap. -/
structure PlacesHeap (cards cards' : List Card) (left : Nat) : Prop where
  theap : parseKeyword cards' (str "THEAP") = parseKeyword cards (str "THEAP")
  main : natKeyword cards' (str "NAXIS2") * natKeyword cards' (str "NAXIS1") = left

theorem natKeyword_congr {key : Str} (h : parseKeyword cards' key = parseKeyword cards key) :
    natKeyword cards' key = natKeyword cards key := by
  rw [natKeyword, natKeyword, h]

/-- The counts stay. -/
theorem placesHeap_of_counts (h : RowHeader cards)
    (hsame : ∀ key ∈ [str "THEAP", str "NAXIS1", str "NAXIS2"],
      parseKeyword cards' key = parseKeyword cards key) :
    PlacesHeap cards cards' (HeapBase.mainBytes cards) := by
  refine ⟨hsame _ (by simp), ?_⟩
  rw [natKeyword_congr (hsame (str "NAXIS1") (by simp)),
    natKeyword_congr (hsame (str "NAXIS2") (by simp)), h.mainBytes]

/-- The number of rows changes. -/
theorem placesHeap_of_rows (htheap : parseKeyword cards' (str "THEAP") =
    parseKeyword cards (str "THEAP"))
    (hwidth : parseKeyword cards' (str "NAXIS1") = parseKeyword cards (str "NAXIS1"))
    (hrows : parseKeyword cards' (str "NAXIS2") = some (asI64 n))
    (hfits : n * natKeyword cards (str "NAXIS1") ≤ 9223372036854775807) :
    PlacesHeap cards cards' (n * natKeyword cards (str "NAXIS1")) := by
  refine ⟨htheap, ?_⟩
  rw [natKeyword_congr hwidth]
  exact natKeyword_mul hrows hfits

/-- The width of the rows changes. -/
theorem placesHeap_of_width (htheap : parseKeyword cards' (str "THEAP") =
    parseKeyword cards (str "THEAP"))
    (hrows : parseKeyword cards' (str "NAXIS2") = parseKeyword cards (str "NAXIS2"))
    (hwidth : parseKeyword cards' (str "NAXIS1") = some (asI64 w))
    (hfits : natKeyword cards (str "NAXIS2") * w ≤ 9223372036854775807) :
    PlacesHeap cards cards' (natKeyword cards (str "NAXIS2") * w) := by
  refine ⟨htheap, ?_⟩
  rw [natKeyword_congr hrows, Nat.mul_comm, Nat.mul_comm _ w]
  exact natKeyword_mul hwidth (by rw [Nat.mul_comm]; exact hfits)

theorem otherKey_theap : OtherKey (str "THEAP") :=
  ⟨notColumnKey_of_all (by decide), by decide, by decide⟩

theorem otherKey_naxis2 : OtherKey (str "NAXIS2") :=
  ⟨notColumnKey_of_all (by decide), by decide, by decide⟩

/-- A keyword that places the heap. -/
theorem heapKey_cases {key : Str} (h : key ∈ [str "THEAP", str "NAXIS1", str "NAXIS2"]) :
    NotColumnKey key ∧ (str "PCOUNT").isPrefixOf key = false ∧
    (str "ZPCOUNT").isPrefixOf key = false := by
  simp only [List.mem_cons, List.not_mem_nil, or_false] at h
  rcases h with rfl | rfl | rfl
  · exact ⟨notColumnKey_of_all (by decide), by decide, by decide⟩
  · exact ⟨notColumnKey_of_all (by decide), by decide, by decide⟩
  · exact ⟨notColumnKey_of_all (by decide), by decide, by decide⟩

theorem changeTable_spec (h : RowHeader cards)
    (hchange : changeTable cards change = .ok (cards', left))
    (hfits : left ≤ 9223372036854775807) : PlacesHeap cards cards' left := by
  cases change with
  | write pcount zpcount maxBits =>
    cases Except.ok.inj hchange
    refine placesHeap_of_counts h fun key hkey => ?_
    obtain ⟨hcolumn, hp, -⟩ := heapKey_cases hkey
    exact (keepsKey_maxBits hcolumn maxBits _).trans (parseKeyword_setPcount_other pcount hp)
  | setitem pcount zpcount =>
    cases Except.ok.inj hchange
    exact placesHeap_of_counts h fun key hkey =>
      parseKeyword_setPcount_other pcount (heapKey_cases hkey).2.1
  | append count pcount zpcount =>
    obtain ⟨cards1, hcards, hpair⟩ := bind_eq_ok.1 hchange
    cases Except.ok.inj hpair
    obtain ⟨hother, hrows⟩ := appendedTableCards_spec hcards
    exact placesHeap_of_rows (hother _ (by decide) (by decide)) (hother _ (by decide) (by decide))
      (hrows h.naxis2) hfits
  | repack pcount =>
    obtain ⟨-, -, hpair⟩ := bind_eq_ok.1 hchange
    cases Except.ok.inj hpair
    exact placesHeap_of_counts h fun key hkey =>
      parseKeyword_setPcount_other pcount (heapKey_cases hkey).2.1
  | insertColumn col insertIdx pcount maxBits =>
    obtain ⟨columns, -, hrest⟩ := bind_eq_ok.1 hchange
    obtain ⟨-, -, hrest⟩ := bind_eq_ok.1 hrest
    obtain ⟨cards1, hcards, hpair⟩ := bind_eq_ok.1 hrest
    cases Except.ok.inj hpair
    exact placesHeap_of_width (insertedCards_other otherKey_theap (by decide) hcards).lookup
      (insertedCards_other otherKey_naxis2 (by decide) hcards).lookup
      (insertedCards_width h.naxis1 hcards) hfits
  | deleteColumn key =>
    obtain ⟨columns, -, hrest⟩ := bind_eq_ok.1 hchange
    obtain ⟨-, -, hrest⟩ := bind_eq_ok.1 hrest
    by_cases hnone : columns.isEmpty
    · rw [if_pos hnone] at hrest
      cases hrest
    rw [if_neg hnone] at hrest
    obtain ⟨deleteIdx, -, hrest⟩ := bind_eq_ok.1 hrest
    obtain ⟨cards1, hcards, hpair⟩ := bind_eq_ok.1 hrest
    cases Except.ok.inj hpair
    exact placesHeap_of_width (deletedCards_other otherKey_theap (by decide) hcards).lookup
      (deletedCards_other otherKey_naxis2 (by decide) hcards).lookup
      (deletedCards_width h.naxis1 hcards) hfits

theorem changeCompressed_spec (h : RowHeader cards)
    (hchange : changeCompressed cards change = .ok (cards', left))
    (hfits : left ≤ 9223372036854775807) : PlacesHeap cards cards' left := by
  have hcounts : ∀ pcount zpcount,
      PlacesHeap cards (CompressedTable.pcountCards cards pcount zpcount)
        (HeapBase.mainBytes cards) :=
    fun pcount zpcount => placesHeap_of_counts h fun key hkey =>
      parseKeyword_pcountCards pcount zpcount (heapKey_cases hkey).2.1 (heapKey_cases hkey).2.2
  cases change with
  | write pcount zpcount maxBits =>
    cases Except.ok.inj hchange
    exact hcounts pcount zpcount
  | setitem pcount zpcount =>
    cases Except.ok.inj hchange
    exact hcounts pcount zpcount
  | append count pcount zpcount =>
    obtain ⟨cards1, hcards, hpair⟩ := bind_eq_ok.1 hchange
    cases Except.ok.inj hpair
    obtain ⟨hother, hrows⟩ := appendedCards_spec hcards
    exact placesHeap_of_rows (hother _ (by decide) (by decide) (by decide) (by decide))
      (hother _ (by decide) (by decide) (by decide) (by decide)) (hrows h.naxis2) hfits
  | repack pcount =>
    cases Except.ok.inj hchange
    exact hcounts pcount none
  | insertColumn col insertIdx pcount maxBits => cases hchange
  | deleteColumn key => cases hchange

theorem changeHeader_spec (h : RowHeader cards)
    (hchange : changeHeader kind cards change = .ok (cards', left))
    (hfits : left ≤ 9223372036854775807) : PlacesHeap cards cards' left := by
  cases kind with
  | binary => exact changeTable_spec h hchange hfits
  | compressed => exact changeCompressed_spec h hchange hfits

theorem explicitHeap_congr (h : parseKeyword cards' (str "THEAP") =
    parseKeyword cards (str "THEAP")) :
    explicitHeap kind cards' = explicitHeap kind cards := by
  cases kind with
  | binary => rw [explicitHeap, explicitHeap, h]
  | compressed => rw [explicitHeap, explicitHeap, theapRaw, theapRaw, h]

end

/-- All operations on a table use the base of a read, and a read after a mutation uses the
base where that has left the heap, exactly where no card places the heap, or it places it
behind the rows and these stay as many bytes. -/
theorem heapBases_agree_iff (kind : Kind) {cards cards' : List Card} (h : RowHeader cards)
    {change : Change} {base base' left : Nat} (hread : readBase kind cards = .ok base)
    (hchange : changeHeader kind cards change = .ok (cards', left))
    (hread' : readBase kind cards' = .ok base') (hfits : left ≤ 9223372036854775807) :
    ((∀ op bases, heapBases kind cards op = .ok bases → ∀ b ∈ bases, b = base) ∧ base' = left) ↔
      DefaultHeap kind cards left := by
  obtain ⟨htheap, hmain⟩ := changeHeader_spec h hchange hfits
  have hbase' := readBase_eq hread' (by rw [hmain, u64Size]; omega)
  have hmain' : HeapBase.mainBytes cards' = left := by
    rw [HeapBase.mainBytes, hmain]
    exact Nat.mod_eq_of_lt (by rw [u64Size]; omega)
  rw [explicitHeap_congr htheap, hmain'] at hbase'
  rw [heapBases_same_iff h hread]
  constructor
  · intro hagree t ht
    have hdefault := hagree.1 t ht
    rw [ht, Option.getD_some] at hbase'
    exact ⟨hdefault, hagree.2.symm.trans (hbase'.trans hdefault)⟩
  · intro hdefault
    refine ⟨fun t ht => (hdefault t ht).1, ?_⟩
    cases ht : explicitHeap kind cards with
    | none => rw [hbase', ht, Option.getD_none]
    | some t =>
      obtain ⟨hplace, hleft⟩ := hdefault t ht
      rw [hbase', ht, Option.getD_some, hplace, hleft]

/-! ## A table of two variable-length cells -/

/-- Two rows of one descriptor, with or without a THEAP card. -/
def cellCards (theap : List Card) : List Card :=
  [str "XTENSION= 'BINTABLE'", str "BITPIX  =                    8",
    str "NAXIS   =                    2",
    str "NAXIS1  =                    8", str "NAXIS2  =                    2",
    str "PCOUNT  =                    3", str "GCOUNT  =                    1",
    str "TFIELDS =                    1", str "TTYPE1  = 'A       '", str "TFORM1  = '1PB     '"] ++
  theap ++ [str "END"]

theorem rowHeader_cellCards : RowHeader (cellCards []) where
  standard := ⟨by decide +kernel, by decide +kernel, by decide +kernel, ⟨8, by decide +kernel⟩,
    ⟨2, by decide +kernel⟩, by decide +kernel⟩
  naxis1 := by decide +kernel
  naxis2 := by decide +kernel

theorem heapBases_agree_append :
    (∀ op bases, heapBases .binary (cellCards []) op = .ok bases → ∀ b ∈ bases, b = 16) ∧ 24 = 24 :=
  (@heapBases_agree_iff .binary (cellCards []) _ rowHeader_cellCards (.append 1 3 none) 16 24
    24 rfl rfl rfl
    (by decide)).2 fun t ht => by cases ht

/-- A card that places the heap at zero: a read resolves the descriptors from the start of
the rows, an assignment writes the cells behind them. -/
theorem not_heapBases_agree_zero :
    ∃ cards, RowHeader cards ∧ readBase .binary cards = .ok 0 ∧
      heapBases .binary cards .setitem = .ok [16] := by
  refine ⟨cellCards [str "THEAP   =                    0"],
    ⟨⟨?_, ?_, ?_, ⟨8, ?_⟩, ⟨2, ?_⟩, ?_⟩, ?_, ?_⟩, ?_, ?_⟩
  all_goals decide +kernel

end RustFits.HeapBase
