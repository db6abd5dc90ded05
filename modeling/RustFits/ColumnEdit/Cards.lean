import RustFits.BinaryTable.Columns
import RustFits.Header.Edit
import RustFits.Lib.Fallible

/-!
# The cards of a column edit

What inserting or deleting a column of a binary table does to the header
(`hdu_table/edit.rs`): the keywords of the columns behind it are renumbered, the cards of
a new column go in front of END, those of a deleted one are dropped, and the counts are
set in place.

A keyword that is none of these is read as before (`insertedCards_other`,
`deletedCards_other`), and the row width is the new one.
-/

namespace RustFits.ColumnEdit

open Ascii ByteFile Machine BinaryTable Header

/-! ## Cards of one column -/

/-- `PER_COLUMN_PREFIXES`. -/
def perColumnPrefixes : List Str :=
  [str "TTYPE", str "TFORM", str "TDIM", str "TUNIT", str "TZERO", str "TSCAL", str "TNULL",
    str "TDISP", str "TBCOL"]

/-- The number behind a keyword of a column. -/
def columnNumber (keyword pre : Str) : Option Nat :=
  if pre.isPrefixOf keyword then
    let rest := keyword.drop pre.length
    if !rest.isEmpty && rest.all isDigit then (parseNat rest).filter (1 ≤ ·) else none
  else none

/-- `parse_per_column_card`. -/
def parsePerColumnCard (card : Card) : Option (Str × Nat) :=
  if card.length < 8 then none
  else
    let keyword := trimEnd (card.take 8)
    perColumnPrefixes.findSome? fun pre => (columnNumber keyword pre).map (pre, ·)

/-- `rebuild_per_column_card`. -/
def rebuildPerColumnCard (card : Card) (pre : Str) (newN : Nat) : Card :=
  padRight 8 (pre ++ natDec newN) ++ card.drop 8

def renumberCard (pivotIdx : Nat) (delta : Int) (card : Card) : Except PyErr Card :=
  match parsePerColumnCard card with
  | none => .ok card
  | some (pre, n) =>
    if delta = 1 then
      .ok (if pivotIdx + 1 ≤ n then rebuildPerColumnCard card pre ((n : Int) + delta).toNat
        else card)
    else if delta = -1 then
      .ok (if pivotIdx + 1 < n then rebuildPerColumnCard card pre ((n : Int) + delta).toNat
        else card)
    else .error (.value (str "internal: renumber delta must be +/-1"))

/-- `renumber_per_column_cards`. -/
def renumberPerColumnCards (cards : List Card) (pivotIdx : Nat) (delta : Int) :
    Except PyErr (List Card) :=
  cards.mapM (renumberCard pivotIdx delta)

/-- `drop_per_column_cards`. -/
def dropPerColumnCards (cards : List Card) (deleteIdx : Nat) : List Card :=
  cards.filter fun card =>
    match parsePerColumnCard card with
    | some (_, n) => n ≠ deleteIdx + 1
    | none => true

/-- The place of the last END card. -/
def endPlace (cards : List Card) : Option Nat :=
  (cards.reverse.findIdx? (startsWithKey (str "END"))).map fun i => cards.length - 1 - i

/-- `insert_cards_before_end`. -/
def insertCardsBeforeEnd (cards newCards : List Card) : Except PyErr (List Card) :=
  match endPlace cards with
  | some i => .ok (cards.take i ++ newCards ++ cards.drop i)
  | none => .error (.value (str "header missing END card"))

def intCardComment (keyword : Str) : Str :=
  if keyword = str "NAXIS1" then str "width of table in bytes"
  else if keyword = str "NAXIS2" then str "number of rows in table"
  else if keyword = str "TFIELDS" then str "number of columns"
  else []

/-- `update_int_card`. -/
def updateIntCard (cards : List Card) (keyword : Str) (newValue : Int) : Except PyErr (List Card) :=
  match cards.findIdx? fun c => decide (8 ≤ c.length) && decide (trimEnd (c.take 8) = keyword) with
  | some i => .ok (cards.set i (trimEnd (cardInt keyword newValue (intCardComment keyword))))
  | none => .error (.value (str "header missing required keyword " ++ keyword))

/-! ## The cards of a new column -/

structure WriteColumn where
  name : Str
  tformLetter : UInt8
  repeatCount : Nat
  byteWidth : Nat
  tzero : Option Nat
  tdim : Option Str
  tunit : Option Str
  varKind : Option VarKind
  deriving DecidableEq, Repr

def kindLetter : VarKind → UInt8
  | .p => 0x50
  | .q => 0x51

/-- `build_new_column_cards`. -/
def buildNewColumnCards (col : WriteColumn) (insertIdx : Nat) : List Card :=
  let n := natDec (insertIdx + 1)
  let tform := match col.varKind with
    | some desc => [0x31, kindLetter desc, col.tformLetter]
    | none => natDec col.repeatCount ++ [col.tformLetter]
  [trimEnd (cardString (str "TTYPE" ++ n) col.name (str "label for column")),
    trimEnd (cardString (str "TFORM" ++ n) tform (str "data format of column"))] ++
  (col.tdim.map fun tdim =>
    trimEnd (cardString (str "TDIM" ++ n) tdim
      (str "array dimensions (FORTRAN, fastest-first)"))).toList ++
  (col.tzero.map fun tz =>
    trimEnd (cardUint (str "TZERO" ++ n) tz
      (str "offset for unsigned integer (unsigned-int trick)"))).toList ++
  (col.tunit.map fun unit =>
    trimEnd (cardString (str "TUNIT" ++ n) unit (str "physical unit of column"))).toList

/-- The text between the first opening and the last closing parenthesis. -/
def parenthesized (card : Card) : Option Str := do
  let lp ← card.findIdx? (· == 0x28)
  let back ← card.reverse.findIdx? (· == 0x29)
  let rp := card.length - 1 - back
  if lp < rp then some ((card.take rp).drop (lp + 1)) else none

/-- `set_x_vla_tform_maxlen_in_cards`. -/
def setXVlaTformMaxlenInCards (cards : List Card) (column : Nat) (kind : VarKind)
    (newMaxBits : Nat) :
    List Card :=
  let key := tformKey column
  match cards.findIdx? fun c =>
    decide (key.length ≤ c.length) && decide (trimEnd (c.take key.length) = key) with
  | none => cards
  | some i =>
    let prevMax := ((parenthesized (cards.getD i [])).bind fun text => parseU64 (trim text)).getD 0
    cards.set i (cardString key
      ([0x31, kindLetter kind] ++ str "X(" ++ natDec (max prevMax newMaxBits) ++ str ")")
      (str "data format of column"))

/-! ## The header of an edit -/

/-- The header after a column is inserted: `pcount` and `maxBits` are those of a
variable-length column. -/
def insertedCards (cards : List Card) (col : WriteColumn) (insertIdx ncols newRowWidth : Nat)
    (pcount : Option Nat) (maxBits : Nat) : Except PyErr (List Card) := do
  let cards ← renumberPerColumnCards cards insertIdx 1
  let cards ← insertCardsBeforeEnd cards (buildNewColumnCards col insertIdx)
  let cards ← updateIntCard cards (str "TFIELDS") (asI64 (ncols + 1))
  let cards ← updateIntCard cards (str "NAXIS1") (asI64 newRowWidth)
  match col.varKind, pcount with
  | some kind, some pcount => do
    let cards ← updateIntCard cards (str "PCOUNT") (asI64 pcount)
    return if col.tformLetter = 0x58 then
      setXVlaTformMaxlenInCards cards (insertIdx + 1) kind maxBits
      else cards
  | _, _ => return cards

/-- The header after a column is deleted. -/
def deletedCards (cards : List Card) (deleteIdx ncols newRowWidth : Nat) :
    Except PyErr (List Card) := do
  let cards ← renumberPerColumnCards (dropPerColumnCards cards deleteIdx) deleteIdx (-1)
  let cards ← updateIntCard cards (str "TFIELDS") (asI64 (wrappingSub ncols 1))
  updateIntCard cards (str "NAXIS1") (asI64 newRowWidth)

/-! ## Lookups of other keywords -/

/-- The cards of the keyword stand in their keyword field from its first column on. -/
def LeftJustified (key : Str) (cards : List Card) : Prop :=
  ∀ c ∈ cards, decidesKey key c = true → trimEnd (c.take 8) = key

instance (key : Str) (cards : List Card) : Decidable (LeftJustified key cards) :=
  inferInstanceAs (Decidable (∀ c ∈ cards, decidesKey key c = true → trimEnd (c.take 8) = key))

/-- A keyword is read as before, from left-justified cards. -/
structure KeepsKey (key : Str) (cards cards' : List Card) : Prop where
  lookup : parseKeyword cards' key = parseKeyword cards key
  justified : LeftJustified key cards → LeftJustified key cards'

/-- A keyword that is not one of a column. -/
def NotColumnKey (key : Str) : Prop := ∀ pre ∈ perColumnPrefixes, pre.isPrefixOf key = false

section

variable {key keyword : Str} {cards cards' cards'' : List Card} {card card' old : Card} {i n : Nat}

theorem KeepsKey.refl (key : Str) (cards : List Card) : KeepsKey key cards cards := ⟨rfl, id⟩

theorem KeepsKey.trans (h : KeepsKey key cards cards') (h' : KeepsKey key cards' cards'') :
    KeepsKey key cards cards'' :=
  ⟨h'.lookup.trans h.lookup, fun hj => h'.justified (h.justified hj)⟩

theorem perColumnPrefixes_token : ∀ pre ∈ perColumnPrefixes, IsToken pre ∧ pre.length ≤ 8 := by
  have hall : perColumnPrefixes.all (fun pre => decide (IsToken pre ∧ pre.length ≤ 8)) = true := by
    decide
  exact fun pre hpre => of_decide_eq_true (List.all_eq_true.1 hall pre hpre)

/-- A card that starts with the name of a column keyword decides no other keyword. -/
theorem not_decides_of_column {pre : Str} (hkey : NotColumnKey key) (hpre : pre ∈ perColumnPrefixes)
    (h : pre <+: card) : decidesKey key card = false := by
  obtain ⟨htoken, hlen⟩ := perColumnPrefixes_token pre hpre
  refine not_decides_of_startsWith htoken hlen ?_ (hkey pre hpre)
  rw [← List.prefix_iff_eq_take.1 h, trim_of_isToken htoken]

theorem prefix_of_parsePerColumnCard {pre : Str} (h : parsePerColumnCard card = some (pre, n)) :
    pre ∈ perColumnPrefixes ∧ pre <+: card := by
  unfold parsePerColumnCard at h
  by_cases hshort : card.length < 8
  · rw [if_pos hshort] at h
    cases h
  rw [if_neg hshort] at h
  obtain ⟨p, hp, hnumber⟩ := List.exists_of_findSome?_eq_some h
  obtain ⟨m, hm, hpair⟩ := Option.map_eq_some_iff.1 hnumber
  have hpre : p = pre := congrArg Prod.fst hpair
  subst hpre
  unfold columnNumber at hm
  by_cases hprefix : p.isPrefixOf (trimEnd (card.take 8))
  · refine ⟨hp, (List.isPrefixOf_iff_prefix.1 hprefix).trans ?_⟩
    exact (List.rdropWhile_prefix _ _).trans (List.take_prefix _ _)
  · rw [if_neg hprefix] at hm
    cases hm

theorem prefix_rebuildPerColumnCard (card : Card) (pre : Str) (n : Nat) :
    pre <+: rebuildPerColumnCard card pre n := by
  rw [rebuildPerColumnCard, padRight, List.append_assoc, List.append_assoc]
  exact List.prefix_append _ _

/-- A renumbered card decides nothing that is no keyword of a column. -/
theorem renumberCard_other (hkey : NotColumnKey key) {pivotIdx : Nat} {delta : Int}
    (h : renumberCard pivotIdx delta card = .ok card') :
    card' = card ∨ decidesKey key card = false ∧ decidesKey key card' = false := by
  unfold renumberCard at h
  cases hparse : parsePerColumnCard card with
  | none =>
    rw [hparse] at h
    exact .inl (Except.ok.inj h).symm
  | some found =>
    obtain ⟨pre, n⟩ := found
    rw [hparse] at h
    dsimp only at h
    obtain ⟨hmem, hprefix⟩ := prefix_of_parsePerColumnCard hparse
    have hold : decidesKey key card = false := not_decides_of_column hkey hmem hprefix
    have hrebuilt : ∀ m, decidesKey key (rebuildPerColumnCard card pre m) = false := fun m =>
      not_decides_of_column hkey hmem (prefix_rebuildPerColumnCard card pre m)
    have hcase : ∀ c : Prop, ∀ m, [Decidable c] →
        card' = (if c then rebuildPerColumnCard card pre m else card) →
        decidesKey key card' = false := by
      intro c m _ hc
      rw [hc]
      by_cases hcond : c
      · rw [if_pos hcond]
        exact hrebuilt m
      · rw [if_neg hcond]
        exact hold
    refine .inr ⟨hold, ?_⟩
    by_cases hone : delta = 1
    · rw [if_pos hone] at h
      exact hcase _ _ (Except.ok.inj h).symm
    rw [if_neg hone] at h
    by_cases hminus : delta = -1
    · rw [if_pos hminus] at h
      exact hcase _ _ (Except.ok.inj h).symm
    rw [if_neg hminus] at h
    cases h

/-- Cards rewritten one by one, where those that change do not decide the keyword. -/
theorem keepsKey_mapM {f : Card → Except PyErr Card}
    (hf : ∀ c c', f c = .ok c' → c' = c ∨ decidesKey key c = false ∧ decidesKey key c' = false) :
    ∀ {cards cards' : List Card}, cards.mapM f = .ok cards' → KeepsKey key cards cards' := by
  intro cards
  induction cards with
  | nil =>
    intro cards' h
    cases h
    exact .refl key []
  | cons c cards ih =>
    intro cards' h
    rw [List.mapM_cons, bind_eq_ok] at h
    obtain ⟨c', hc, h⟩ := h
    obtain ⟨rest, hrest, h⟩ := bind_eq_ok.1 h
    cases h
    obtain ⟨hlookup, hjustified⟩ := ih hrest
    rcases hf c c' hc with rfl | ⟨hold, hnew⟩
    · refine ⟨parseKeyword_append_congr [c'] hlookup, fun hj => ?_⟩
      have htail := hjustified fun d hd => hj d (List.mem_cons_of_mem _ hd)
      exact List.forall_mem_cons.2 ⟨hj c' List.mem_cons_self, htail⟩
    · refine ⟨?_, fun hj => ?_⟩
      · rw [parseKeyword_cons_of_not_decides hnew, parseKeyword_cons_of_not_decides hold, hlookup]
      · have htail := hjustified fun d hd => hj d (List.mem_cons_of_mem _ hd)
        refine List.forall_mem_cons.2 ⟨fun hd => ?_, htail⟩
        rw [hnew] at hd
        cases hd

theorem keepsKey_renumber (hkey : NotColumnKey key) {pivotIdx : Nat} {delta : Int}
    (h : renumberPerColumnCards cards pivotIdx delta = .ok cards') : KeepsKey key cards cards' :=
  keepsKey_mapM (fun _ _ hc => renumberCard_other hkey hc) h

theorem keepsKey_drop (hkey : NotColumnKey key) (cards : List Card) (deleteIdx : Nat) :
    KeepsKey key cards (dropPerColumnCards cards deleteIdx) := by
  refine ⟨parseKeyword_filter fun c _ hc => ?_, fun hj c hc => hj c (List.mem_of_mem_filter hc)⟩
  cases hparse : parsePerColumnCard c with
  | none =>
    rw [hparse] at hc
    cases hc
  | some found =>
    obtain ⟨pre, n⟩ := found
    obtain ⟨hmem, hprefix⟩ := prefix_of_parsePerColumnCard hparse
    exact not_decides_of_column hkey hmem hprefix

theorem keepsKey_insert {newCards : List Card} (hnew : ∀ c ∈ newCards, decidesKey key c = false)
    (h : insertCardsBeforeEnd cards newCards = .ok cards') : KeepsKey key cards cards' := by
  unfold insertCardsBeforeEnd at h
  cases hplace : endPlace cards with
  | none =>
    rw [hplace] at h
    cases h
  | some i =>
    rw [hplace] at h
    have hcards : cards' = cards.take i ++ newCards ++ cards.drop i := (Except.ok.inj h).symm
    subst hcards
    refine ⟨?_, fun hj c hc hd => ?_⟩
    · conv_rhs => rw [← List.take_append_drop i cards]
      rw [List.append_assoc]
      exact parseKeyword_append_congr _ (parseKeyword_append_of_not_decides hnew _)
    · rw [List.append_assoc, List.mem_append, List.mem_append] at hc
      rcases hc with hc | hc | hc
      · exact hj c (List.mem_of_mem_take hc) hd
      · rw [hnew c hc] at hd
        cases hd
      · exact hj c (List.mem_of_mem_drop hc) hd

/-- A card replaced by one that decides the keyword no more than the old one does. -/
theorem keepsKey_set (hi : cards[i]? = some old) (hold : decidesKey key old = false)
    (hnew : decidesKey key card = false) : KeepsKey key cards (cards.set i card) := by
  refine ⟨parseKeyword_set_of_not_decides hi hold hnew, fun hj c hc hd => ?_⟩
  rcases List.mem_or_eq_of_mem_set hc with hc | rfl
  · exact hj c hc hd
  · rw [hnew] at hd
    cases hd

/-- A token at the front of a text is still there without the trailing blanks. -/
theorem prefix_trimEnd {pre text : Str} (hpre : IsToken pre) (h : pre <+: text) :
    pre <+: trimEnd text := by
  obtain ⟨rest, rfl⟩ := h
  obtain ⟨front, last, hsplit⟩ : ∃ front last, pre = front ++ [last] :=
    ⟨pre.dropLast, pre.getLast hpre.1, (List.dropLast_append_getLast hpre.1).symm⟩
  have hlast : isWhitespace last = false := hpre.2 last (by simp [hsplit])
  rw [hsplit, List.append_assoc, List.singleton_append, trimEnd_append hlast]
  exact ⟨trimEnd rest, by rw [List.append_assoc, List.singleton_append]⟩

theorem prefix_padToCard {pre text : Str} (hlen : pre.length ≤ 8) (h : pre <+: text) :
    pre <+: padToCard text := by
  have htake : pre <+: text.take cardSize :=
    List.prefix_take_iff.2 ⟨h, hlen.trans (by decide)⟩
  exact htake.trans (List.prefix_append _ _)

/-- A card under a keyword of a column starts with the name of the keyword. -/
theorem prefix_cardString {pre n : Str} (hlen : pre.length ≤ 8) (value comment : Str) :
    pre <+: cardString (pre ++ n) value comment := by
  have hkey : pre <+: padRight 8 (pre ++ n) :=
    (List.prefix_append _ _).trans (List.prefix_append _ _)
  have hhead :
      pre <+: padRight 8 (pre ++ n) ++ str "= '" ++ padRight 8 (doubleQuotes value) ++ str "'" := by
    rw [List.append_assoc, List.append_assoc]
    exact hkey.trans (List.prefix_append _ _)
  refine prefix_padToCard hlen ?_
  split_ifs with hcomment hshort
  · exact hhead
  · rw [padRight, List.append_assoc, List.append_assoc]
    exact hhead.trans (List.prefix_append _ _)
  · rw [List.append_assoc _ (str " / ")]
    exact hhead.trans (List.prefix_append _ _)

theorem prefix_cardUint {pre n : Str} (hlen : pre.length ≤ 8) (value : Nat) (comment : Str) :
    pre <+: cardUint (pre ++ n) value comment := by
  have hkey : pre <+: padRight 8 (pre ++ n) :=
    (List.prefix_append _ _).trans (List.prefix_append _ _)
  have hhead : pre <+: padRight 8 (pre ++ n) ++ str "= " ++ padLeft 20 (natDec value) := by
    rw [List.append_assoc]
    exact hkey.trans (List.prefix_append _ _)
  refine prefix_padToCard hlen ?_
  split_ifs with hcomment
  · exact hhead
  · rw [List.append_assoc _ (str " / ")]
    exact hhead.trans (List.prefix_append _ _)

/-- The card of a new column starts with the name of a column keyword. -/
theorem prefix_of_newColumnCards {col : WriteColumn} {insertIdx : Nat}
    (h : card ∈ buildNewColumnCards col insertIdx) : ∃ pre ∈ perColumnPrefixes, pre <+: card := by
  have htext : ∀ pre ∈ perColumnPrefixes, ∀ n value comment,
      card = trimEnd (cardString (pre ++ n) value comment) → ∃ pre ∈ perColumnPrefixes,
      pre <+: card := by
    intro pre hpre n value comment hcard
    obtain ⟨htoken, hlen⟩ := perColumnPrefixes_token pre hpre
    exact ⟨pre, hpre, hcard ▸ prefix_trimEnd htoken (prefix_cardString hlen value comment)⟩
  simp only [buildNewColumnCards, List.mem_append, List.mem_cons, List.not_mem_nil, or_false,
    Option.mem_toList, Option.map_eq_some_iff] at h
  rcases h with (((h | h) | ⟨tdim, -, h⟩) | ⟨tz, -, h⟩) | ⟨unit, -, h⟩
  · exact htext (str "TTYPE") (by decide) _ _ _ h
  · exact htext (str "TFORM") (by decide) _ _ _ h
  · exact htext (str "TDIM") (by decide) _ _ _ h.symm
  · have hpre : str "TZERO" ∈ perColumnPrefixes := by decide
    obtain ⟨htoken, hlen⟩ := perColumnPrefixes_token _ hpre
    exact ⟨_, hpre, h ▸ prefix_trimEnd htoken (prefix_cardUint hlen _ _)⟩
  · exact htext (str "TUNIT") (by decide) _ _ _ h.symm

/-- The card that `update_int_card` overwrites starts with the keyword. -/
theorem updateIntCard_place {value : Int} (h : updateIntCard cards keyword value = .ok cards') :
    ∃ i old, cards[i]? = some old ∧ trimEnd (old.take 8) = keyword ∧
      cards' = cards.set i (trimEnd (cardInt keyword value (intCardComment keyword))) ∧
      ∀ c ∈ cards.take i, decidesKey keyword c = true → trimEnd (c.take 8) ≠ keyword := by
  unfold updateIntCard at h
  cases hfind : cards.findIdx? fun c =>
    decide (8 ≤ c.length) && decide (trimEnd (c.take 8) = keyword) with
  | none =>
    rw [hfind] at h
    cases h
  | some i =>
    rw [hfind] at h
    obtain ⟨hi, hold, hbefore⟩ := List.findIdx?_eq_some_iff_getElem.1 hfind
    simp only [Bool.and_eq_true, decide_eq_true_eq] at hold
    refine ⟨i, cards[i], List.getElem?_eq_getElem hi, hold.2, (Except.ok.inj h).symm, ?_⟩
    intro c hc hd hkey
    obtain ⟨j, hj, hcard⟩ := List.mem_take_iff_getElem.1 hc
    have hlong : 8 ≤ c.length := by
      simp only [decidesKey, isValueCard, Bool.and_eq_true, decide_eq_true_eq] at hd
      omega
    refine hbefore j (by omega) ?_
    simp [hcard, hlong, hkey]

theorem updateIntCard_spec {value : Int} (hkeyword : IsToken keyword) (hlen : keyword.length ≤ 8)
    (hvalue : InI64 value) (h : updateIntCard cards keyword value = .ok cards') :
    (∀ key, keyword.isPrefixOf key = false → KeepsKey key cards cards') ∧
      (LeftJustified keyword cards → parseKeyword cards' keyword = some value) := by
  obtain ⟨i, old, hi, hstart, rfl, hbefore⟩ := updateIntCard_place h
  have hprefix : keyword <+: old := by
    rw [← hstart]
    exact (List.rdropWhile_prefix _ _).trans (List.take_prefix _ _)
  have htake : trim (old.take keyword.length) = keyword := by
    rw [← List.prefix_iff_eq_take.1 hprefix, trim_of_isToken hkeyword]
  refine ⟨fun key hother => ?_, fun hj => ?_⟩
  · refine keepsKey_set hi (not_decides_of_startsWith hkeyword hlen htake hother) ?_
    exact not_decides_cardInt hkeyword hlen hvalue hother
  · refine parseKeyword_set_cardInt hkeyword hlen hvalue (List.getElem?_eq_some_iff.1 hi).1
      fun c hc => ?_
    rw [Bool.eq_false_iff]
    exact fun hd => hbefore c hc hd (hj c (List.mem_of_mem_take hc) hd)

theorem keepsKey_setXVlaTformMaxlen (hkey : NotColumnKey key) (cards : List Card) (column : Nat)
    (kind : VarKind) (newMaxBits : Nat) :
    KeepsKey key cards (setXVlaTformMaxlenInCards cards column kind newMaxBits) := by
  have hpre : str "TFORM" ∈ perColumnPrefixes := by decide
  unfold setXVlaTformMaxlenInCards
  dsimp only
  cases hfind : cards.findIdx? fun c =>
      decide ((tformKey column).length ≤ c.length) &&
        decide (trimEnd (c.take (tformKey column).length) = tformKey column) with
  | none => exact .refl key cards
  | some i =>
    obtain ⟨hi, hold, -⟩ := List.findIdx?_eq_some_iff_getElem.1 hfind
    simp only [Bool.and_eq_true, decide_eq_true_eq] at hold
    refine keepsKey_set (List.getElem?_eq_getElem hi) (not_decides_of_column hkey hpre ?_)
      (not_decides_of_column hkey hpre (prefix_cardString (by decide) _ _))
    have hprefix : str "TFORM" <+: tformKey column := List.prefix_append _ _
    refine hprefix.trans ?_
    conv_lhs => rw [← hold.2]
    exact (List.rdropWhile_prefix _ _).trans (List.take_prefix _ _)

/-- A keyword that only the update of the row width can set. -/
structure OtherKey (key : Str) : Prop where
  column : NotColumnKey key
  tfields : (str "TFIELDS").isPrefixOf key = false
  pcount : (str "PCOUNT").isPrefixOf key = false

theorem notColumnKey_of_all (h : perColumnPrefixes.all (fun pre => !pre.isPrefixOf key) = true) :
    NotColumnKey key := fun pre hpre => by
  simpa using List.all_eq_true.1 h pre hpre

/-- The steps of an insert around the update of the row width. -/
theorem insertedCards_steps {col : WriteColumn} {insertIdx ncols newRowWidth maxBits : Nat}
    {pcount : Option Nat} (hkey : OtherKey key)
    (h : insertedCards cards col insertIdx ncols newRowWidth pcount maxBits = .ok cards') :
    ∃ before after, KeepsKey key cards before ∧
      updateIntCard before (str "NAXIS1") (asI64 newRowWidth) = .ok after ∧
      KeepsKey key after cards' := by
  obtain ⟨cards1, h1, h⟩ := bind_eq_ok.1 h
  obtain ⟨cards2, h2, h⟩ := bind_eq_ok.1 h
  obtain ⟨cards3, h3, h⟩ := bind_eq_ok.1 h
  obtain ⟨cards4, h4, h⟩ := bind_eq_ok.1 h
  have hnew : ∀ c ∈ buildNewColumnCards col insertIdx, decidesKey key c = false := by
    intro c hc
    obtain ⟨pre, hpre, hprefix⟩ := prefix_of_newColumnCards hc
    exact not_decides_of_column hkey.column hpre hprefix
  refine ⟨cards3, cards4, ?_, h4, ?_⟩
  · exact ((keepsKey_renumber hkey.column h1).trans (keepsKey_insert hnew h2)).trans
      ((updateIntCard_spec (by decide) (by decide) (inI64_asI64 _) h3).1 key hkey.tfields)
  · cases hkind : col.varKind with
    | none =>
      rw [hkind] at h
      exact Except.ok.inj h ▸ .refl key cards4
    | some kind =>
      cases pcount with
      | none =>
        rw [hkind] at h
        exact Except.ok.inj h ▸ .refl key cards4
      | some p =>
        rw [hkind] at h
        obtain ⟨cards5, h5, h⟩ := bind_eq_ok.1 h
        have hheap :=
          (updateIntCard_spec (by decide) (by decide) (inI64_asI64 _) h5).1 key hkey.pcount
        rw [← Except.ok.inj h]
        split_ifs
        · exact hheap.trans (keepsKey_setXVlaTformMaxlen hkey.column _ _ _ _)
        · exact hheap

theorem insertedCards_other {col : WriteColumn} {insertIdx ncols newRowWidth maxBits : Nat}
    {pcount : Option Nat} (hkey : OtherKey key) (hwidth : (str "NAXIS1").isPrefixOf key = false)
    (h : insertedCards cards col insertIdx ncols newRowWidth pcount maxBits = .ok cards') :
    KeepsKey key cards cards' := by
  obtain ⟨before, after, hbefore, hupdate, hafter⟩ := insertedCards_steps hkey h
  have hset := updateIntCard_spec (by decide) (by decide) (inI64_asI64 _) hupdate
  exact (hbefore.trans (hset.1 key hwidth)).trans hafter

theorem otherKey_naxis1 : OtherKey (str "NAXIS1") :=
  ⟨notColumnKey_of_all (by decide), by decide, by decide⟩

/-- The row width that an insert sets. -/
theorem insertedCards_width {col : WriteColumn} {insertIdx ncols newRowWidth maxBits : Nat}
    {pcount : Option Nat} (hj : LeftJustified (str "NAXIS1") cards)
    (h : insertedCards cards col insertIdx ncols newRowWidth pcount maxBits = .ok cards') :
    parseKeyword cards' (str "NAXIS1") = some (asI64 newRowWidth) := by
  obtain ⟨before, after, hbefore, hupdate, hafter⟩ := insertedCards_steps otherKey_naxis1 h
  have hset := updateIntCard_spec (by decide) (by decide) (inI64_asI64 _) hupdate
  exact hafter.lookup.trans (hset.2 (hbefore.justified hj))

theorem deletedCards_steps {deleteIdx ncols newRowWidth : Nat} (hkey : OtherKey key)
    (h : deletedCards cards deleteIdx ncols newRowWidth = .ok cards') :
    ∃ before, KeepsKey key cards before ∧
      updateIntCard before (str "NAXIS1") (asI64 newRowWidth) = .ok cards' := by
  obtain ⟨cards1, h1, h⟩ := bind_eq_ok.1 h
  obtain ⟨cards2, h2, h3⟩ := bind_eq_ok.1 h
  refine ⟨cards2, ?_, h3⟩
  exact ((keepsKey_drop hkey.column cards deleteIdx).trans (keepsKey_renumber hkey.column h1)).trans
    ((updateIntCard_spec (by decide) (by decide) (inI64_asI64 _) h2).1 key hkey.tfields)

theorem deletedCards_other {deleteIdx ncols newRowWidth : Nat} (hkey : OtherKey key)
    (hwidth : (str "NAXIS1").isPrefixOf key = false)
    (h : deletedCards cards deleteIdx ncols newRowWidth = .ok cards') :
    KeepsKey key cards cards' := by
  obtain ⟨before, hbefore, hupdate⟩ := deletedCards_steps hkey h
  have hset := updateIntCard_spec (by decide) (by decide) (inI64_asI64 _) hupdate
  exact hbefore.trans (hset.1 key hwidth)

theorem deletedCards_width {deleteIdx ncols newRowWidth : Nat}
    (hj : LeftJustified (str "NAXIS1") cards)
    (h : deletedCards cards deleteIdx ncols newRowWidth = .ok cards') :
    parseKeyword cards' (str "NAXIS1") = some (asI64 newRowWidth) := by
  obtain ⟨before, hbefore, hupdate⟩ := deletedCards_steps otherKey_naxis1 h
  exact (updateIntCard_spec (by decide) (by decide) (inI64_asI64 _) hupdate).2
    (hbefore.justified hj)

end

end RustFits.ColumnEdit
