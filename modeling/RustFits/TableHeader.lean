import RustFits.Chain
import RustFits.HeaderBytes
import RustFits.OpenSafety

/-!
# The header of a table

Every table operation ends with new header cards: the row count, the heap size
and, for a compressed table, the counts of the original table.  The updates look
for a card by its first bytes, the readers by its keyword field and value
indicator.

* `setPcountInCards`, `setZpcountInCards` and `updateIntCardInPlace` are the
  updates, with one lookup lemma for the keyword they set and one for every
  other keyword.
* `StandardTable` is the header of a standard binary table: its data size is the
  rows and the heap (`dataSize_of_standard`).
* `rewriteHeaderToDisk` writes the header, over more blocks when the cards need
  them, and `writeHeaderBefore` writes it in front of the data section.
-/

namespace RustFits

open Ascii ByteFile Machine

/-! ## Setting a card -/

/-- The card starts with `key`. -/
def startsWithKey (key : Str) (c : Card) : Bool :=
  decide (key.length ≤ c.length) && decide (trim (c.take key.length) = key)

/-- The first card that starts with `key`. -/
def cardIndex (key : Str) (cards : List Card) : Option Nat := cards.findIdx? (startsWithKey key)

/-- Overwrite the first card that starts with `key`, or insert at `place`. -/
def setCard (key : Str) (card : Card) (place : Nat) (cards : List Card) : List Card :=
  match cardIndex key cards with
  | some i => cards.set i card
  | none => cards.insertIdx place card

/-- `set_pcount_in_cards`.  A new card goes in front of TFIELDS. -/
def setPcountInCards (cards : List Card) (newPcount : Nat) : List Card :=
  setCard (str "PCOUNT")
    (trimEnd (cardInt (str "PCOUNT") (asI64 newPcount) (str "size of special data area")))
    ((cardIndex (str "TFIELDS") cards).getD (cards.length - 1)) cards

/-- `set_zpcount_in_cards`.  A new card goes in front of END. -/
def setZpcountInCards (cards : List Card) (newValue : Nat) : List Card :=
  setCard (str "ZPCOUNT")
    (trimEnd (cardInt (str "ZPCOUNT") (asI64 newValue)
      (str "original heap size (0 for fixed-only tables)")))
    ((cardIndex (str "END") cards).getD cards.length) cards

/-- The card that `update_int_card_in_place` overwrites. -/
def intCardIndex (keyword : Str) (cards : List Card) : Option Nat :=
  cards.findIdx? fun c =>
    decide (keyword.length ≤ c.length) && decide (trimEnd (c.take keyword.length) = keyword) &&
      (decide (c.length = keyword.length) || !isDigit (c.getD keyword.length 0))

/-- `update_int_card_in_place`. -/
def updateIntCardInPlace (cards : List Card) (keyword : Str) (value : Int) (comment : Str) :
    Except PyErr (List Card) :=
  match intCardIndex keyword cards with
  | some i => .ok (cards.set i (trimEnd (cardInt keyword value comment)))
  | none => .error (.value (str "append: header missing required keyword " ++ keyword))

/-! ## Lookups in the new header -/

/-- Where `setCard` puts the card. -/
def cardPlace (key : Str) (place : Nat) (cards : List Card) : Nat :=
  (cardIndex key cards).getD place

section

variable {key other : Str} {card : Card} {cards : List Card} {place : Nat}

theorem cardIndex_some {i : Nat} (h : cardIndex key cards = some i) :
    ∃ old, cards[i]? = some old ∧ trim (old.take key.length) = key := by
  obtain ⟨hi, hcard, -⟩ := List.findIdx?_eq_some_iff_getElem.1 h
  refine ⟨cards[i], List.getElem?_eq_getElem hi, ?_⟩
  simp only [startsWithKey, Bool.and_eq_true, decide_eq_true_eq] at hcard
  exact hcard.2

theorem cardIndex_le {i : Nat} (h : cardIndex key cards = some i) : i < cards.length :=
  (List.findIdx?_eq_some_iff_getElem.1 h).1

theorem insertIdx_eq_take_append_cons_drop {i : Nat} (hi : i ≤ cards.length) :
    cards.insertIdx i card = cards.take i ++ card :: cards.drop i := by
  induction cards generalizing i with
  | nil =>
    rw [show i = 0 by simpa using hi]
    rfl
  | cons c cards ih =>
    cases i with
    | zero => rfl
    | succ i =>
      rw [List.insertIdx_succ_cons, ih (by simpa using hi)]
      rfl

/-- The new card list: the cards in front of the place, the new card, and the
rest of the old list with or without the card that stood there. -/
theorem setCard_eq (key : Str) (card : Card) (hplace : place ≤ cards.length) :
    ∃ rest, setCard key card place cards =
      cards.take (cardPlace key place cards) ++ card :: rest := by
  unfold setCard cardPlace
  split
  · rename_i i hi
    rw [hi, List.set_eq_take_append_cons_drop, if_pos (cardIndex_le hi)]
    exact ⟨_, rfl⟩
  · rename_i hi
    rw [hi, Option.getD_none, insertIdx_eq_take_append_cons_drop hplace]
    exact ⟨_, rfl⟩

/-- A card that starts with `key` is no card of a keyword that does not. -/
theorem not_decides_of_startsWith (hkey : IsToken key) (hlen : key.length ≤ 8)
    (h : trim (card.take key.length) = key) (hother : key.isPrefixOf other = false) :
    decidesKey other card = false := by
  rw [Bool.eq_false_iff]
  intro hd
  obtain ⟨rest, hrest⟩ := keyword_of_trim_take hkey hlen h
  rw [keyword_of_decidesKey hd] at hrest
  rw [hrest, List.isPrefixOf_iff_prefix.2 (List.prefix_append _ _)] at hother
  exact Bool.noConfusion hother

/-- The new card decides its keyword. -/
theorem parseKeyword_setCard_self {v : Int} {comment : Str} (hkey : IsToken key)
    (hlen : key.length ≤ 8) (hv : InI64 v) (hplace : place ≤ cards.length)
    (hfirst : ∀ c ∈ cards.take (cardPlace key place cards), decidesKey key c = false) :
    parseKeyword (setCard key (trimEnd (cardInt key v comment)) place cards) key = some v := by
  obtain ⟨rest, hset⟩ := setCard_eq key (trimEnd (cardInt key v comment)) hplace
  rw [hset, parseKeyword_append_of_not_decides hfirst, parseKeyword_cardInt hkey hlen hv]

theorem parseKeyword_insertIdx_of_not_decides (hcard : decidesKey other card = false) (i : Nat) :
    parseKeyword (cards.insertIdx i card) other = parseKeyword cards other := by
  induction cards generalizing i with
  | nil =>
    cases i with
    | zero => exact parseKeyword_cons_of_not_decides hcard []
    | succ i => rfl
  | cons c cards ih =>
    cases i with
    | zero => exact parseKeyword_cons_of_not_decides hcard _
    | succ i =>
      rw [List.insertIdx_succ_cons]
      cases hc : decidesKey other c with
      | true => rw [parseKeyword_cons_of_decides hc, ← parseKeyword_cons_of_decides hc cards]
      | false =>
        rw [parseKeyword_cons_of_not_decides hc, parseKeyword_cons_of_not_decides hc, ih]

/-- Other keywords are looked up as before. -/
theorem parseKeyword_setCard_other {v : Int} {comment : Str} (hkey : IsToken key)
    (hlen : key.length ≤ 8) (hv : InI64 v) (hother : key.isPrefixOf other = false) :
    parseKeyword (setCard key (trimEnd (cardInt key v comment)) place cards) other =
      parseKeyword cards other := by
  have hnew : decidesKey other (trimEnd (cardInt key v comment)) = false := by
    rw [Bool.eq_false_iff]
    intro hd
    have hk := keyword_of_decidesKey hd
    rw [keyword_cardInt hkey hlen hv] at hk
    rw [hk, List.isPrefixOf_iff_prefix.2 (List.prefix_refl _)] at hother
    exact Bool.noConfusion hother
  unfold setCard
  split
  · rename_i i hi
    obtain ⟨old, hold, hstart⟩ := cardIndex_some hi
    exact parseKeyword_set_of_not_decides hold
      (not_decides_of_startsWith hkey hlen hstart hother) hnew
  · exact parseKeyword_insertIdx_of_not_decides hnew place

theorem setCard_length_le : (setCard key card place cards).length ≤ cards.length + 1 := by
  unfold setCard
  split
  · simp
  · exact List.length_insertIdx_le_succ

theorem setCard_length_of_some {i : Nat} (h : cardIndex key cards = some i) :
    (setCard key card place cards).length = cards.length := by
  simp [setCard, h]

/-- The card that an in-place update overwrites. -/
theorem intCardIndex_some {i : Nat} (h : intCardIndex key cards = some i) :
    ∃ old, cards[i]? = some old ∧ old.take key.length = key := by
  obtain ⟨hi, hcard, -⟩ := List.findIdx?_eq_some_iff_getElem.1 h
  refine ⟨cards[i], List.getElem?_eq_getElem hi, ?_⟩
  simp only [Bool.and_eq_true, decide_eq_true_eq] at hcard
  have hsub : (trimEnd (cards[i].take key.length)).Sublist (cards[i].take key.length) :=
    (List.rdropWhile_prefix _ _).sublist
  rw [hcard.1.2] at hsub
  exact (hsub.eq_of_length_le (by simp)).symm

/-- A formatted card decides no keyword that its own is not the front of. -/
theorem not_decides_cardInt {v : Int} {comment : Str} (hkey : IsToken key) (hlen : key.length ≤ 8)
    (hv : InI64 v) (hother : key.isPrefixOf other = false) :
    decidesKey other (trimEnd (cardInt key v comment)) = false := by
  rw [Bool.eq_false_iff]
  intro hd
  have hk := keyword_of_decidesKey hd
  rw [keyword_cardInt hkey hlen hv] at hk
  rw [hk, List.isPrefixOf_iff_prefix.2 (List.prefix_refl _)] at hother
  exact Bool.noConfusion hother

/-- A formatted card decides its keyword where no card in front of it does. -/
theorem parseKeyword_set_cardInt {v : Int} {comment : Str} {i : Nat} (hkey : IsToken key)
    (hlen : key.length ≤ 8) (hv : InI64 v) (hi : i < cards.length)
    (hfirst : ∀ c ∈ cards.take i, decidesKey key c = false) :
    parseKeyword (cards.set i (trimEnd (cardInt key v comment))) key = some v := by
  rw [List.set_eq_take_append_cons_drop, if_pos hi, parseKeyword_append_of_not_decides hfirst,
    parseKeyword_cardInt hkey hlen hv]

/-- What an in-place update of a card does to the lookups. -/
theorem updateIntCardInPlace_ok {cards' : List Card} {v : Int} {comment : Str}
    (hkey : IsToken key) (hlen : key.length ≤ 8) (hv : InI64 v)
    (h : updateIntCardInPlace cards key v comment = .ok cards') :
    cards'.length = cards.length ∧
      (∀ other, key.isPrefixOf other = false →
        parseKeyword cards' other = parseKeyword cards other) ∧
      ((∀ c ∈ cards.take ((intCardIndex key cards).getD 0), decidesKey key c = false) →
        parseKeyword cards' key = some v) := by
  unfold updateIntCardInPlace at h
  split at h
  · rename_i i hi
    obtain ⟨old, hold, hstart⟩ := intCardIndex_some hi
    have hlt : i < cards.length := (List.getElem?_eq_some_iff.1 hold).1
    have hcards : cards' = cards.set i (trimEnd (cardInt key v comment)) := (Except.ok.inj h).symm
    subst hcards
    refine ⟨List.length_set, fun other hother => ?_, fun hfirst => ?_⟩
    · have htrim : trim (old.take key.length) = key := by rw [hstart, trim_of_isToken hkey]
      exact parseKeyword_set_of_not_decides hold (not_decides_of_startsWith hkey hlen htrim hother)
        (not_decides_cardInt hkey hlen hv hother)
    · rw [hi, Option.getD_some] at hfirst
      exact parseKeyword_set_cardInt hkey hlen hv hlt hfirst
  · cases h

end

/-! ## Cards that stay where they are -/

section

variable {cards : List Card} {key : Str} {old new : Card} {i : Nat}

/-- A card whose first byte is neither blank nor the first byte of `key`. -/
theorem not_startsWithKey_of_head {b : UInt8} {rest : Str} (hb : isWhitespace b = false)
    (hkey : key.head? ≠ some b) (hlen : 0 < key.length) :
    startsWithKey key (b :: rest) = false := by
  rw [Bool.eq_false_iff]
  intro hs
  simp only [startsWithKey, Bool.and_eq_true, decide_eq_true_eq] at hs
  obtain ⟨n, hn⟩ : ∃ n, key.length = n + 1 := ⟨key.length - 1, by omega⟩
  have htoken : IsToken [b] := ⟨by simp, by simpa using hb⟩
  have htrim := trim_token_append htoken (rest.take n)
  rw [hn, List.take_succ_cons] at hs
  rw [List.singleton_append] at htrim
  rw [htrim] at hs
  exact hkey (by rw [← hs.2]; rfl)

theorem findIdx?_set_of_not {p : Card → Bool} (hi : cards[i]? = some old) (hold : p old = false)
    (hnew : p new = false) : (cards.set i new).findIdx? p = cards.findIdx? p := by
  induction cards generalizing i with
  | nil => simp at hi
  | cons c cards ih =>
    cases i with
    | zero =>
      have hc : c = old := by simpa using hi
      rw [List.set_cons_zero, List.findIdx?_cons, List.findIdx?_cons, hc, hold, hnew]
    | succ i =>
      rw [List.set_cons_succ, List.findIdx?_cons, List.findIdx?_cons, ih (by simpa using hi)]

/-- Nothing in front of a place decides a keyword, also after a card that decides
it neither before nor after has been replaced. -/
theorem none_decides_take_set {n : Nat} (hnew : decidesKey key new = false)
    (h : ∀ c ∈ cards.take n, decidesKey key c = false) :
    ∀ c ∈ (cards.set i new).take n, decidesKey key c = false := by
  intro c hc
  rw [List.take_set] at hc
  rcases List.mem_or_eq_of_mem_set hc with hc | rfl
  · exact h c hc
  · exact hnew

end

/-! ## The heap size card -/

/-- Where the heap size card goes. -/
def pcountPlace (cards : List Card) : Nat :=
  cardPlace (str "PCOUNT") ((cardIndex (str "TFIELDS") cards).getD (cards.length - 1)) cards

/-- No card in front of that place is read as the heap size. -/
def PcountFirst (cards : List Card) : Prop :=
  ∀ c ∈ cards.take (pcountPlace cards), decidesKey (str "PCOUNT") c = false

/-- No card in front of the one that an in-place update overwrites is read for
the keyword. -/
def IntCardFirst (key : Str) (cards : List Card) : Prop :=
  ∀ c ∈ cards.take ((intCardIndex key cards).getD 0), decidesKey key c = false

section

variable {cards cards' : List Card} {key : Str} {v : Int} {comment : Str}

theorem tfieldsPlace_le (cards : List Card) :
    (cardIndex (str "TFIELDS") cards).getD (cards.length - 1) ≤ cards.length := by
  cases hi : cardIndex (str "TFIELDS") cards with
  | none => exact Nat.sub_le _ _
  | some i => exact Nat.le_of_lt (cardIndex_le hi)

theorem parseKeyword_setPcount_self (hfirst : PcountFirst cards) (n : Nat) :
    parseKeyword (setPcountInCards cards n) (str "PCOUNT") = some (asI64 n) :=
  parseKeyword_setCard_self (by decide) (by decide) (inI64_asI64 n) (tfieldsPlace_le cards) hfirst

theorem parseKeyword_setPcount_other (n : Nat) (h : (str "PCOUNT").isPrefixOf key = false) :
    parseKeyword (setPcountInCards cards n) key = parseKeyword cards key :=
  parseKeyword_setCard_other (by decide) (by decide) (inI64_asI64 n) h

theorem parseKeyword_setZpcount_other (n : Nat) (h : (str "ZPCOUNT").isPrefixOf key = false) :
    parseKeyword (setZpcountInCards cards n) key = parseKeyword cards key :=
  parseKeyword_setCard_other (by decide) (by decide) (inI64_asI64 n) h

/-- The formatted card of a keyword starts with it. -/
theorem startsWithKey_cardInt (hkey : IsToken key) (hlen : key.length ≤ 8) (hv : InI64 v) :
    startsWithKey key (trimEnd (cardInt key v comment)) = true := by
  obtain ⟨tail, hcard, -⟩ :=
    trimEnd_cardFixed comment hlen (isToken_intDec v) (intDec_length_le hv)
  have htake : (trimEnd (cardInt key v comment)).take key.length = key := by
    rw [cardInt, hcard, padRight, List.append_assoc, List.append_assoc, List.append_assoc,
      List.take_left]
  have hle : key.length ≤ (trimEnd (cardInt key v comment)).length := by
    have := congrArg List.length htake
    rw [List.length_take] at this
    omega
  rw [startsWithKey, htake, trim_of_isToken hkey]
  simpa using hle

/-- A card set again is found at the same place. -/
theorem cardIndex_set {i : Nat} {card : Card} (h : cardIndex key cards = some i)
    (hcard : startsWithKey key card = true) : cardIndex key (cards.set i card) = some i := by
  obtain ⟨hlt, -, hbefore⟩ := List.findIdx?_eq_some_iff_getElem.1 h
  refine List.findIdx?_eq_some_iff_getElem.2 ⟨by simpa using hlt, by simpa using hcard, ?_⟩
  intro j hj
  rw [List.getElem_set_ne (by omega)]
  exact hbefore j hj

/-- The heap size is read from the same card again. -/
theorem pcountFirst_setPcount (hfound : (cardIndex (str "PCOUNT") cards).isSome)
    (hfirst : PcountFirst cards) (n : Nat) :
    (cardIndex (str "PCOUNT") (setPcountInCards cards n)).isSome ∧
      PcountFirst (setPcountInCards cards n) := by
  obtain ⟨i, hi⟩ := Option.isSome_iff_exists.1 hfound
  have hset : setPcountInCards cards n = cards.set i
      (trimEnd (cardInt (str "PCOUNT") (asI64 n) (str "size of special data area"))) := by
    rw [setPcountInCards, setCard, hi]
  have hindex : cardIndex (str "PCOUNT") (setPcountInCards cards n) = some i := by
    rw [hset]
    exact cardIndex_set hi (startsWithKey_cardInt (by decide) (by decide) (inI64_asI64 n))
  refine ⟨by rw [hindex]; rfl, ?_⟩
  unfold PcountFirst pcountPlace cardPlace at *
  rw [hi] at hfirst
  rw [hindex, hset]
  simpa [List.take_set_of_le (Nat.le_refl i)] using hfirst

/-- Setting the same heap size again changes nothing. -/
theorem setPcount_again (hfound : (cardIndex (str "PCOUNT") cards).isSome) (n : Nat) :
    setPcountInCards (setPcountInCards cards n) n = setPcountInCards cards n := by
  obtain ⟨i, hi⟩ := Option.isSome_iff_exists.1 hfound
  have hset : setPcountInCards cards n = cards.set i
      (trimEnd (cardInt (str "PCOUNT") (asI64 n) (str "size of special data area"))) := by
    rw [setPcountInCards, setCard, hi]
  have hindex : cardIndex (str "PCOUNT") (setPcountInCards cards n) = some i := by
    rw [hset]
    exact cardIndex_set hi (startsWithKey_cardInt (by decide) (by decide) (inI64_asI64 n))
  have hset' : setPcountInCards (setPcountInCards cards n) n = (setPcountInCards cards n).set i
      (trimEnd (cardInt (str "PCOUNT") (asI64 n) (str "size of special data area"))) := by
    conv_lhs => rw [setPcountInCards, setCard, hindex]
  rw [hset', hset, List.set_set]

/-- A formatted card starts with its keyword. -/
theorem cardInt_head (comment : Str) {b : UInt8} {rest : Str} (hlen : (b :: rest).length ≤ 8)
    (hv : InI64 v) :
    ∃ tail, trimEnd (cardInt (b :: rest) v comment) = b :: tail := by
  obtain ⟨tail, hcard, -⟩ :=
    trimEnd_cardFixed comment hlen (isToken_intDec v) (intDec_length_le hv)
  rw [cardInt, hcard]
  exact ⟨_, rfl⟩

/-- Updating a card of another keyword moves no other card. -/
theorem cardIndex_update {b : UInt8} {rest other : Str} (hkey : IsToken (b :: rest))
    (hlen : (b :: rest).length ≤ 8) (hv : InI64 v) (hother : other.head? ≠ some b)
    (hpos : 0 < other.length)
    (h : updateIntCardInPlace cards (b :: rest) v comment = .ok cards') :
    cardIndex other cards' = cardIndex other cards := by
  have hb : isWhitespace b = false := hkey.2 b (by simp)
  obtain ⟨tail, hnew⟩ := cardInt_head comment hlen hv
  unfold updateIntCardInPlace at h
  split at h
  · rename_i i hi
    obtain ⟨old, hold, hstart⟩ := intCardIndex_some hi
    have hcons : old = b :: old.tail := by
      cases old with
      | nil => simp at hstart
      | cons c old =>
        rw [List.length_cons, List.take_succ_cons, List.cons.injEq] at hstart
        rw [hstart.1]
        rfl
    cases h
    refine findIdx?_set_of_not hold ?_ ?_
    · rw [hcons]
      exact not_startsWithKey_of_head hb hother hpos
    · rw [hnew]
      exact not_startsWithKey_of_head hb hother hpos
  · cases h

/-- Updating a card of another keyword leaves the heap size card alone. -/
theorem pcountFirst_update {b : UInt8} {rest : Str} (hkey : IsToken (b :: rest))
    (hlen : (b :: rest).length ≤ 8) (hv : InI64 v) (hp : b ≠ 0x50) (ht : b ≠ 0x54)
    (h : updateIntCardInPlace cards (b :: rest) v comment = .ok cards')
    (hfirst : PcountFirst cards) : PcountFirst cards' := by
  have hlength := (updateIntCardInPlace_ok hkey hlen hv h).1
  have hpcount : cardIndex (str "PCOUNT") cards' = cardIndex (str "PCOUNT") cards :=
    cardIndex_update hkey hlen hv (fun hb => hp (Option.some.inj hb).symm) (by decide) h
  have htfields : cardIndex (str "TFIELDS") cards' = cardIndex (str "TFIELDS") cards :=
    cardIndex_update hkey hlen hv (fun hb => ht (Option.some.inj hb).symm) (by decide) h
  have hplace : pcountPlace cards' = pcountPlace cards := by
    rw [pcountPlace, pcountPlace, cardPlace, cardPlace, hpcount, htfields, hlength]
  unfold updateIntCardInPlace at h
  split at h
  · cases h
    rw [PcountFirst, hplace]
    refine none_decides_take_set ?_ hfirst
    rw [Bool.eq_false_iff]
    intro hd
    have hk := keyword_of_decidesKey hd
    rw [keyword_cardInt hkey hlen hv] at hk
    exact hp (by simpa [str] using congrArg List.head? hk)
  · cases h

end

/-! ## Standard tables -/

/-- An integer keyword as the table code reads it: a missing or negative one is
zero. -/
def natKeyword (cards : List Card) (key : Str) : Nat := ((parseKeyword cards key).getD 0).toNat

theorem natKeyword_of_some {cards : List Card} {key : Str} {n : Nat}
    (h : parseKeyword cards key = some (n : Int)) : natKeyword cards key = n := by
  rw [natKeyword, h]
  rfl

/-- The bytes of the rows and the heap. -/
def tableDataBytes (cards : List Card) : Nat :=
  natKeyword cards (str "NAXIS1") * natKeyword cards (str "NAXIS2") +
    natKeyword cards (str "PCOUNT")

/-- The header of a standard binary table. -/
structure StandardTable (cards : List Card) : Prop where
  bitpix : parseKeyword cards (str "BITPIX") = some 8
  naxis : parseKeyword cards (str "NAXIS") = some 2
  gcount : (parseKeyword cards (str "GCOUNT")).getD 1 = 1
  naxis1 : ∃ w : Nat, parseKeyword cards (str "NAXIS1") = some (w : Int)
  naxis2 : ∃ n : Nat, parseKeyword cards (str "NAXIS2") = some (n : Int)
  size : tableDataBytes cards ≤ 9223372036854775807

theorem naxisKey_one : naxisKey 1 = str "NAXIS1" := by decide

theorem naxisKey_two : naxisKey 2 = str "NAXIS2" := by decide

theorem roundUpToBlock_lt {n : Nat} (h : n ≤ 9223372036854775807) :
    roundUpToBlock n < u64Size := by
  rw [roundUpToBlock_eq, u64Size]
  omega

/-- The data section of a standard table is its rows and its heap. -/
theorem dataSize_of_standard {cards : List Card} (h : StandardTable cards) :
    (calculateDataSize cards).val = roundUpToBlock (tableDataBytes cards) := by
  obtain ⟨w, hw⟩ := h.naxis1
  obtain ⟨n, hn⟩ := h.naxis2
  have hsize := h.size
  have hwlt := inI64_of_parseKeyword hw
  have hnlt := inI64_of_parseKeyword hn
  have hu : asU64 ((parseKeyword cards (str "NAXIS")).getD 0) = 2 := by
    rw [h.naxis]
    decide
  have hraw : declaredRawSize cards = tableDataBytes cards := by
    have hwu : asU64 (w : Int) = w := by
      rw [asU64_of_inI64 hwlt (by omega), Int.toNat_natCast]
    have hnu : asU64 (n : Int) = n := by
      rw [asU64_of_inI64 hnlt (by omega), Int.toNat_natCast]
    have hprod : declaredProduct cards 1 2 1 = w * n := by
      rw [declaredProduct, naxisKey_one, hw]
      show declaredProduct cards 2 1 (1 * asU64 (w : Int)) = w * n
      rw [declaredProduct, naxisKey_two, hn]
      show 1 * asU64 (w : Int) * asU64 (n : Int) = w * n
      rw [hwu, hnu, Nat.one_mul]
    rw [declaredRawSize]
    simp only [hu, hprod, h.bitpix, h.gcount]
    rw [tableDataBytes, natKeyword, natKeyword, natKeyword, hw, hn]
    simp
  have hdecl : declaredDataSize cards = roundUpToBlock (tableDataBytes cards) := by
    rw [declaredDataSize, hu, if_neg (by decide), hraw]
  have hover : (calculateDataSize cards).overflow = false := by
    rw [calculateDataSize_overflow, hdecl]
    refine ⟨fun hb => ?_, roundUpToBlock_lt hsize⟩
    have hmin := hb.1
    rw [h.bitpix] at hmin
    exact absurd hmin (by decide)
  rw [calculateDataSize_val hover, hdecl]

/-- A header with other counts. -/
theorem standard_of_counts {cards cards' : List Card} (h : StandardTable cards) {n p : Nat}
    (hsame : ∀ key ∈ [str "BITPIX", str "NAXIS", str "GCOUNT", str "NAXIS1"],
      parseKeyword cards' key = parseKeyword cards key)
    (hn : parseKeyword cards' (str "NAXIS2") = some (n : Int))
    (hp : parseKeyword cards' (str "PCOUNT") = some (p : Int))
    (hsize : natKeyword cards (str "NAXIS1") * n + p ≤ 9223372036854775807) :
    StandardTable cards' ∧ tableDataBytes cards' = natKeyword cards (str "NAXIS1") * n + p := by
  have hw : natKeyword cards' (str "NAXIS1") = natKeyword cards (str "NAXIS1") := by
    rw [natKeyword, natKeyword, hsame _ (by simp)]
  have hbytes : tableDataBytes cards' = natKeyword cards (str "NAXIS1") * n + p := by
    rw [tableDataBytes, hw, natKeyword_of_some hn, natKeyword_of_some hp]
  refine ⟨⟨?_, ?_, ?_, ?_, ⟨n, hn⟩, by rw [hbytes]; exact hsize⟩, hbytes⟩
  · rw [hsame _ (by simp)]
    exact h.bitpix
  · rw [hsame _ (by simp)]
    exact h.naxis
  · rw [hsame _ (by simp)]
    exact h.gcount
  · rw [hsame _ (by simp)]
    exact h.naxis1

/-- A header with other counts: the size of its data section. -/
theorem dataSize_of_counts {cards cards' : List Card} (h : StandardTable cards) {n p : Nat}
    (hsame : ∀ key ∈ [str "BITPIX", str "NAXIS", str "GCOUNT", str "NAXIS1"],
      parseKeyword cards' key = parseKeyword cards key)
    (hn : parseKeyword cards' (str "NAXIS2") = some (n : Int))
    (hp : parseKeyword cards' (str "PCOUNT") = some (p : Int))
    (hsize : natKeyword cards (str "NAXIS1") * n + p ≤ 9223372036854775807) :
    (calculateDataSize cards').val =
      roundUpToBlock (natKeyword cards (str "NAXIS1") * n + p) := by
  obtain ⟨hstd, hbytes⟩ := standard_of_counts h hsame hn hp hsize
  rw [dataSize_of_standard hstd, hbytes]

/-! ## Writing the header -/

/-- Header cards over `blocks` header blocks, blank behind the last card. -/
def headerBytes (blocks : Nat) (cards : List Card) : Bytes :=
  padRight (blocks * blockSize) (cards.flatMap padToCard)

/-- The header blocks that `n` cards need are reserved. -/
def HduOffsets.reserve (n : Nat) (o : HduOffsets) : HduOffsets :=
  let deltaBlocks := headerBlocks n - o.headerBlockCount
  { o with
    headerBlockCount := o.headerBlockCount + deltaBlocks
    dataOffset := o.dataOffset + deltaBlocks * blockSize }

/-- `rewrite_header_to_disk`. -/
def rewriteHeaderToDisk (idx : Nat) (cards : List Card) : FileOp Unit := do
  let s ← get
  match s.hdus[idx]? with
  | none => throw (.io (str "no such HDU"))
  | some h =>
    if h.offsets.headerBlockCount * cardsPerBlock < cards.length then
      let neededBlocks := headerBlocks cards.length
      let deltaBlocks := neededBlocks - h.offsets.headerBlockCount
      shiftFileTailAndUpdateOffsets h.offsets.dataOffset (deltaBlocks * blockSize)
      modify fun s => { s with
        hdus := s.hdus.modify idx fun h => { h with offsets := h.offsets.reserve cards.length } }
      writeAt h.offsets.headerOffset (headerBytes neededBlocks cards)
    else
      writeAt h.offsets.headerOffset (headerBytes h.offsets.headerBlockCount cards)

/-- The header in front of the data section, over the blocks its cards need. -/
def writeHeaderBefore (dataOffset : Nat) (cards : List Card) : FileOp Unit :=
  let header := serializeHeaderToDiskBytes cards
  writeAt (dataOffset - header.length) header

theorem headerBytes_length {blocks : Nat} {cards : List Card}
    (h : cards.length ≤ blocks * cardsPerBlock) :
    (headerBytes blocks cards).length = blocks * blockSize := by
  have hlen := flatMap_length_of_width fun card (_ : card ∈ cards) => padToCard_length card
  rw [headerBytes, padRight_length, hlen]
  unfold cardsPerBlock blockSize cardSize at *
  omega

section

variable {base s : Fits} {idx : Nat} {h cur : Hdu} {hi : Nat}

/-- The header of the HDU under operation, over more blocks if it needs them;
then the whole window behind it moves on. -/
theorem Window.rewriteHeader (ho : Opened base idx h) (hw : Window base idx h cur hi s)
    (cards : List Card) :
    ∃ s', rewriteHeaderToDisk idx cards s = .ok () s' ∧
      Window base idx h { cur with offsets := cur.offsets.reserve cards.length }
        (hi + (headerBlocks cards.length - cur.offsets.headerBlockCount) * blockSize) s' := by
  have hstart := hw.start
  have hlt := hw.headerOffset_lt
  have hdata := hw.dataOffset
  have hle := hw.dataOffset_le
  have hidx := (List.getElem?_eq_some_iff.1 ho.hdu).1
  unfold rewriteHeaderToDisk
  rw [FileOp.get_bind, hw.hdu ho]
  dsimp only
  split_ifs with hgrow
  · have hneed : cur.offsets.headerBlockCount < headerBlocks cards.length := by
      rw [headerBlocks_eq]
      unfold cardsPerBlock blockSize cardSize at hgrow
      omega
    obtain ⟨s1, hshift, hgap, -⟩ :=
      hw.shiftTail ho ((headerBlocks cards.length - cur.offsets.headerBlockCount) * blockSize)
        (Nat.le_refl _) hle
    rw [FileOp.bind_ok hshift]
    have hreserved : Window base idx h { cur with offsets := cur.offsets.reserve cards.length }
        (hi + (headerBlocks cards.length - cur.offsets.headerBlockCount) * blockSize)
        { s1 with hdus := s1.hdus.modify idx fun g =>
          { g with offsets := g.offsets.reserve cards.length } } := by
      refine ⟨?_, hw.start, ?_, ?_, hgap.front, hgap.back, ?_, hgap.le_length⟩
      · have htake : (base.hdus.take idx).length = idx := by
          rw [List.length_take]
          omega
        have hmodify := modify_append_cons (base.hdus.take idx) cur
          ((base.hdus.drop (idx + 1)).map (Hdu.moved h.dataEnd
            (hi + (headerBlocks cards.length - cur.offsets.headerBlockCount) * blockSize)))
          (fun g : Hdu => { g with offsets := g.offsets.reserve cards.length })
        rw [htake] at hmodify
        show s1.hdus.modify idx _ = _
        rw [hgap.hdus, hmodify]
      · have := hw.blocks
        show 0 < cur.offsets.headerBlockCount + _
        omega
      · show cur.offsets.dataOffset + (headerBlocks cards.length - cur.offsets.headerBlockCount) *
          blockSize = cur.offsets.headerOffset + (cur.offsets.headerBlockCount +
          (headerBlocks cards.length - cur.offsets.headerBlockCount)) * blockSize
        rw [Nat.add_mul]
        omega
      · show cur.offsets.dataOffset + _ ≤ hi + _
        exact Nat.add_le_add_right hle _
    refine ⟨_, rfl, hreserved.write (by omega) ?_⟩
    have hfit : cards.length ≤ headerBlocks cards.length * cardsPerBlock := by
      rw [headerBlocks_eq]
      unfold cardsPerBlock blockSize cardSize
      omega
    rw [headerBytes_length hfit]
    unfold blockSize at *
    omega
  · have hzero : headerBlocks cards.length - cur.offsets.headerBlockCount = 0 := by
      rw [headerBlocks_eq]
      unfold cardsPerBlock blockSize cardSize at hgrow
      omega
    have hsame : ({ cur with offsets := cur.offsets.reserve cards.length } : Hdu) = cur := by
      simp [HduOffsets.reserve, hzero]
    rw [hsame, hzero, Nat.zero_mul, Nat.add_zero]
    refine ⟨_, writeAt_eq _ _ _, hw.write (by omega) ?_⟩
    rw [headerBytes_length (Nat.not_lt.1 hgrow)]
    omega

/-- A header that fits its blocks is written over them. -/
theorem rewriteHeaderToDisk_of_fits (hdu : s.hdus[idx]? = some h) {cards : List Card}
    (hfit : cards.length ≤ h.offsets.headerBlockCount * cardsPerBlock) :
    rewriteHeaderToDisk idx cards s =
      .ok () ⟨writeAll s.bytes h.offsets.headerOffset
        (headerBytes h.offsets.headerBlockCount cards), s.hdus⟩ := by
  unfold rewriteHeaderToDisk
  rw [FileOp.get_bind, hdu]
  dsimp only
  rw [if_neg (Nat.not_lt.2 hfit)]
  rfl

/-- The header in front of the data section stays in the window when its blocks
are reserved. -/
theorem Window.writeHeaderBefore (hw : Window base idx h cur hi s) {cards : List Card}
    (hfit : headerBlocks cards.length ≤ cur.offsets.headerBlockCount) :
    ∃ s', RustFits.writeHeaderBefore cur.offsets.dataOffset cards s = .ok () s' ∧
      Window base idx h cur hi s' := by
  have hdata := hw.dataOffset
  have hstart := hw.start
  have hle := hw.dataOffset_le
  have hmul : headerBlocks cards.length * blockSize ≤
      cur.offsets.headerBlockCount * blockSize := Nat.mul_le_mul_right _ hfit
  refine ⟨_, writeAt_eq _ _ _, hw.write ?_ ?_⟩
  · rw [serialize_length]
    unfold blockSize at *
    omega
  · rw [serialize_length]
    unfold blockSize at *
    omega

variable {E : PyErr → Fits → Prop}

theorem Window.triple_rewriteHeader (ho : Opened base idx h) (cards : List Card) :
    Triple (Window base idx h cur hi) (rewriteHeaderToDisk idx cards)
      (fun _ => Window base idx h { cur with offsets := cur.offsets.reserve cards.length }
        (hi + (headerBlocks cards.length - cur.offsets.headerBlockCount) * blockSize)) E := by
  intro s hw
  obtain ⟨s', hrun, hw'⟩ := hw.rewriteHeader ho cards
  rw [hrun]
  exact hw'

theorem Window.triple_writeHeaderBefore {cards : List Card}
    (hfit : headerBlocks cards.length ≤ cur.offsets.headerBlockCount) :
    Triple (Window base idx h cur hi) (RustFits.writeHeaderBefore cur.offsets.dataOffset cards)
      (fun _ => Window base idx h cur hi) E := by
  intro s hw
  obtain ⟨s', hrun, hw'⟩ := hw.writeHeaderBefore hfit
  rw [hrun]
  exact hw'

end

end RustFits
