import RustFits.Lib.Ascii
import RustFits.Lib.ByteFile
import RustFits.Lib.Machine

/-!
# Header cards

The 80-byte records of a FITS header (`common.rs`, `header.rs` and the
serializer of `hdu_image.rs`): the block geometry, the lookup of an integer or
string keyword, the cards the program formats itself, and the bytes a card list
is written as.

The program holds a card as a string.  Cards are byte strings here, and a
position inside a card is a byte position, as it is in the source.
-/

namespace RustFits

open Ascii ByteFile Machine

/-! ## Blocks -/

/-- `BLOCK_SIZE`. -/
def blockSize : Nat := 2880

/-- `CARD_SIZE`. -/
def cardSize : Nat := 80

/-- `CARDS_PER_BLOCK`. -/
def cardsPerBlock : Nat := blockSize / cardSize

/-- `round_up_to_block`. -/
def roundUpToBlock (n : Nat) : Nat := divCeil n blockSize * blockSize

/-- The number of header blocks that `n` cards need. -/
def headerBlocks (n : Nat) : Nat := divCeil n cardsPerBlock

theorem roundUpToBlock_eq (n : Nat) : roundUpToBlock n = (n + 2879) / 2880 * 2880 := by
  unfold roundUpToBlock divCeil blockSize
  split_ifs <;> omega

theorem headerBlocks_eq (n : Nat) : headerBlocks n = (n + 35) / 36 := by
  unfold headerBlocks divCeil cardsPerBlock blockSize cardSize
  split_ifs <;> omega

theorem le_roundUpToBlock (n : Nat) : n ≤ roundUpToBlock n := by
  rw [roundUpToBlock_eq]
  omega

theorem roundUpToBlock_mod (n : Nat) : roundUpToBlock n % 2880 = 0 := by
  rw [roundUpToBlock_eq]
  omega

theorem roundUpToBlock_mono {m n : Nat} (h : m ≤ n) : roundUpToBlock m ≤ roundUpToBlock n := by
  rw [roundUpToBlock_eq, roundUpToBlock_eq]
  omega

/-! ## Keyword lookup -/

/-- One header card. -/
abbrev Card := Str

/-- Columns 1 to 8 hold `key` and column 9 the equals sign. -/
def isValueCard (key : Str) (card : Card) : Bool :=
  decide (9 ≤ card.length) && decide (trim (card.take 8) = key) &&
    (str "=").isPrefixOf (card.drop 8)

/-- The number token after the equals sign, without a trailing quote or slash. -/
def valueToken (card : Card) : Option Str :=
  (nextToken (card.drop 9)).map (trimEndMatches fun b => b == 0x27 || b == 0x20 || b == 0x2F)

/-- `parse_keyword`: the first card of that keyword with a value decides. -/
def parseKeyword : List Card → Str → Option Int
  | [], _ => none
  | card :: rest, key =>
    if isValueCard key card then
      match valueToken card with
      | some cleaned => parseI64 cleaned
      | none => parseKeyword rest key
    else parseKeyword rest key

/-- The bytes before the closing quote, where a doubled quote is not one, with
doubled quotes undone.  `none` when the string is not closed. -/
def closeQuote : Str → Option Str
  | [] => none
  | [b] => if b = 0x27 then some [] else none
  | b :: c :: rest =>
    if b = 0x27 then
      if c = 0x27 then (closeQuote rest).map (0x27 :: ·) else some []
    else (closeQuote (c :: rest)).map (b :: ·)

/-- `parse_string_keyword`: the first card of that keyword decides, also when
its value is not a string. -/
def parseStringKeyword : List Card → Str → Option Str
  | [], _ => none
  | card :: rest, key =>
    if isValueCard key card then
      match trimStart (card.drop 9) with
      | 0x27 :: afterOpen => (closeQuote afterOpen).map trimEnd
      | _ => none
    else parseStringKeyword rest key

/-! ## Formatting -/

/-- `pad_to_card`: to exactly 80 bytes. -/
def padToCard (s : Str) : Card := padRight cardSize (s.take cardSize)

/-- A card with its optional comment, as `card_int`, `card_uint` and
`card_logical` lay it out. -/
def cardFixed (key value comment : Str) : Card :=
  let head := padRight 8 key ++ str "= " ++ padLeft 20 value
  padToCard (if comment.isEmpty then head else head ++ str " / " ++ comment)

def cardInt (key : Str) (value : Int) (comment : Str) : Card := cardFixed key (intDec value) comment

def cardUint (key : Str) (value : Nat) (comment : Str) : Card :=
  cardFixed key (natDec value) comment

def cardLogical (key : Str) (value : Bool) (comment : Str) : Card :=
  cardFixed key (if value then str "T" else str "F") comment

/-- `serialize_header_to_disk_bytes`: the padded cards, blank to the end of the
last block. -/
def serializeHeaderToDiskBytes (header : List Card) : Bytes :=
  padRight (headerBlocks header.length * blockSize) (header.flatMap padToCard)

/-! ## Lookup in a card list -/

/-- The lookup of `key` stops at this card. -/
def decidesKey (key : Str) (card : Card) : Bool := isValueCard key card && (valueToken card).isSome

theorem keyword_of_decidesKey {key : Str} {card : Card} (h : decidesKey key card = true) :
    trim (card.take 8) = key := by
  simp only [decidesKey, isValueCard, Bool.and_eq_true, decide_eq_true_eq] at h
  exact h.1.1.2

theorem parseKeyword_cons_of_decides {key : Str} {card : Card} (h : decidesKey key card = true)
    (rest : List Card) : parseKeyword (card :: rest) key = parseKeyword [card] key := by
  simp only [decidesKey, Bool.and_eq_true, Option.isSome_iff_exists] at h
  obtain ⟨hcard, token, htoken⟩ := h
  simp [parseKeyword, hcard, htoken]

theorem parseKeyword_cons_of_not_decides {key : Str} {card : Card}
    (h : decidesKey key card = false) (rest : List Card) :
    parseKeyword (card :: rest) key = parseKeyword rest key := by
  simp only [decidesKey, Bool.and_eq_false_iff, Option.isSome_eq_false_iff,
    Option.isNone_iff_eq_none] at h
  rw [parseKeyword]
  rcases h with h | h
  · simp [h]
  · simp [h]

/-- Cards in front that do not decide the keyword are skipped. -/
theorem parseKeyword_append_of_not_decides {key : Str} {front : List Card}
    (h : ∀ card ∈ front, decidesKey key card = false) (rest : List Card) :
    parseKeyword (front ++ rest) key = parseKeyword rest key := by
  induction front with
  | nil => rfl
  | cons card front ih =>
    rw [List.cons_append, parseKeyword_cons_of_not_decides (h card (by simp))]
    exact ih fun c hc => h c (List.mem_cons_of_mem _ hc)

/-- Behind a card that decides the keyword nothing matters. -/
theorem parseKeyword_append_of_decides {key : Str} {front : List Card}
    (h : ∃ card ∈ front, decidesKey key card = true) (rest : List Card) :
    parseKeyword (front ++ rest) key = parseKeyword front key := by
  induction front with
  | nil => simp at h
  | cons card front ih =>
    cases hc : decidesKey key card with
    | true =>
      rw [List.cons_append, parseKeyword_cons_of_decides hc,
        ← parseKeyword_cons_of_decides hc front]
    | false =>
      rw [List.cons_append, parseKeyword_cons_of_not_decides hc,
        parseKeyword_cons_of_not_decides hc]
      obtain ⟨c, hmem, hdec⟩ := h
      rcases List.mem_cons.1 hmem with rfl | hmem
      · rw [hc] at hdec
        exact Bool.noConfusion hdec
      · exact ih ⟨c, hmem, hdec⟩

/-- Replacing a card changes no lookup that neither the old nor the new card
decides. -/
theorem parseKeyword_set_of_not_decides {key : Str} {cards : List Card} {i : Nat} {old new : Card}
    (hi : cards[i]? = some old) (hold : decidesKey key old = false)
    (hnew : decidesKey key new = false) :
    parseKeyword (cards.set i new) key = parseKeyword cards key := by
  induction cards generalizing i with
  | nil => simp at hi
  | cons card cards ih =>
    cases i with
    | zero =>
      have hcard : card = old := by simpa using hi
      rw [List.set_cons_zero, parseKeyword_cons_of_not_decides hnew,
        parseKeyword_cons_of_not_decides (hcard ▸ hold)]
    | succ i =>
      have hi' : cards[i]? = some old := by simpa using hi
      rw [List.set_cons_succ]
      cases hc : decidesKey key card with
      | true =>
        rw [parseKeyword_cons_of_decides hc, ← parseKeyword_cons_of_decides hc cards]
      | false =>
        rw [parseKeyword_cons_of_not_decides hc, parseKeyword_cons_of_not_decides hc, ih hi']

/-- The keyword field of a card that starts with a token. -/
theorem keyword_of_trim_take {card key : Str} (hkey : IsToken key) (hlen : key.length ≤ 8)
    (h : trim (card.take key.length) = key) : ∃ rest, trim (card.take 8) = key ++ rest := by
  have htake : card.take key.length = key := eq_of_trim_eq h (by simp)
  have hsplit : card.take 8 = key ++ (card.take 8).drop key.length := by
    conv_lhs => rw [← List.take_append_drop key.length (card.take 8)]
    rw [List.take_take, Nat.min_eq_left hlen, htake]
  exact ⟨_, by rw [hsplit, trim_token_append hkey]⟩

/-! ## Reading a formatted card -/

/-- A formatted card without its trailing blanks: the keyword field, the value
indicator, the value field, and then nothing or a blank. -/
theorem trimEnd_cardFixed (comment : Str) {key value : Str} (hkey : key.length ≤ 8)
    (hvalue : IsToken value) (hlen : value.length ≤ 20) :
    ∃ rest : Str, trimEnd (cardFixed key value comment) =
        padRight 8 key ++ str "= " ++ padLeft 20 value ++ rest ∧
      ∀ b ∈ rest.head?, isWhitespace b = true := by
  have hk : (padRight 8 key).length = 8 := by rw [padRight_length]; omega
  have hv : (padLeft 20 value).length = 20 := by simp [padLeft]; omega
  have hhead : (padRight 8 key ++ str "= " ++ padLeft 20 value).length = 30 := by
    simp [hk, hv, str]
  obtain ⟨init, last, hinit⟩ : ∃ init last, value = init ++ [last] :=
    ⟨value.dropLast, value.getLast hvalue.1, (List.dropLast_append_getLast hvalue.1).symm⟩
  have hlast : isWhitespace last = false := hvalue.2 last (by simp [hinit])
  have hsplit : ∀ tail : Str, trimEnd (padRight 8 key ++ str "= " ++ padLeft 20 value ++ tail) =
      padRight 8 key ++ str "= " ++ padLeft 20 value ++ trimEnd tail := by
    intro tail
    have hmove : ∀ t : Str, padRight 8 key ++ str "= " ++ padLeft 20 value ++ t =
        (padRight 8 key ++ str "= " ++ List.replicate (20 - value.length) blank ++ init) ++
          last :: t := by
      intro t
      simp [padLeft, hinit]
    rw [hmove, trimEnd_append hlast, ← hmove]
  have hcard : ∀ tail : Str,
      trimEnd (padToCard (padRight 8 key ++ str "= " ++ padLeft 20 value ++ tail)) =
        padRight 8 key ++ str "= " ++ padLeft 20 value ++ trimEnd (tail.take 50) := by
    intro tail
    rw [padToCard, padRight, trimEnd_append_blanks, cardSize, List.take_append, hhead,
      List.take_of_length_le (by omega), hsplit]
  unfold cardFixed
  dsimp only
  split_ifs with hc
  · refine ⟨[], ?_, by simp⟩
    have := hcard []
    simpa [trimEnd] using this
  · refine ⟨trimEnd ((str " / " ++ comment).take 50), ?_, ?_⟩
    · rw [List.append_assoc _ (str " / "), hcard]
    · intro b hb
      have htake :
          (str " / " ++ comment).take 50 = [blank] ++ 0x2F :: ((blank :: comment).take 48) := by
        rfl
      rw [htake, trimEnd_append (by decide)] at hb
      simp only [List.singleton_append, List.head?_cons, Option.mem_def, Option.some.injEq] at hb
      rw [← hb]
      decide

/-- The first card decides: a formatted integer card gives its value. -/
theorem parseKeyword_cardInt {key comment : Str} {v : Int} {rest : List Card}
    (hkey : IsToken key) (hlen : key.length ≤ 8) (hv : InI64 v) :
    parseKeyword (trimEnd (cardInt key v comment) :: rest) key = some v := by
  obtain ⟨tail, hcard, htail⟩ :=
    trimEnd_cardFixed comment hlen (isToken_intDec v) (intDec_length_le hv)
  have hk : (padRight 8 key).length = 8 := by rw [padRight_length]; omega
  rw [cardInt, hcard]
  have htake : (padRight 8 key ++ str "= " ++ padLeft 20 (intDec v) ++ tail).take 8 =
      padRight 8 key := by
    rw [List.append_assoc, List.append_assoc]
    exact List.take_left' hk
  have hdrop8 : (padRight 8 key ++ str "= " ++ padLeft 20 (intDec v) ++ tail).drop 8 =
      str "= " ++ padLeft 20 (intDec v) ++ tail := by
    rw [List.append_assoc, List.append_assoc, List.drop_left' hk, List.append_assoc]
  have hdrop9 : (padRight 8 key ++ str "= " ++ padLeft 20 (intDec v) ++ tail).drop 9 =
      List.replicate (1 + (20 - (intDec v).length)) blank ++ intDec v ++ tail := by
    have : (9 : Nat) = 8 + 1 := rfl
    rw [this, ← List.drop_drop, hdrop8, padLeft, List.replicate_add]
    rfl
  have hvalue : isValueCard key (padRight 8 key ++ str "= " ++ padLeft 20 (intDec v) ++ tail)
      = true := by
    rw [isValueCard, htake, hdrop8, padRight, trim_append_blanks, trim_of_isToken hkey]
    simp [str]
    omega
  have htoken : valueToken (padRight 8 key ++ str "= " ++ padLeft 20 (intDec v) ++ tail) =
      some (intDec v) := by
    rw [valueToken, hdrop9, nextToken_eq _ (isToken_intDec v) htail, Option.map_some,
      trimEndMatches, (List.rdropWhile_eq_self_iff).2]
    intro hne
    rcases intDec_bytes (List.getLast_mem hne) with hd | hd
    · generalize (intDec v).getLast hne = b at hd
      intro hq
      simp only [Bool.or_eq_true, beq_iff_eq] at hq
      rcases hq with (rfl | rfl) | rfl <;> exact absurd hd (by decide)
    · rw [hd]
      decide
  rw [parseKeyword, hvalue, if_pos rfl, htoken]
  exact parseI64_intDec hv

theorem keyword_cardInt {key comment : Str} {v : Int} (hkey : IsToken key) (hlen : key.length ≤ 8)
    (hv : InI64 v) : trim ((trimEnd (cardInt key v comment)).take 8) = key := by
  obtain ⟨tail, hcard, -⟩ :=
    trimEnd_cardFixed comment hlen (isToken_intDec v) (intDec_length_le hv)
  have hk : (padRight 8 key).length = 8 := by rw [padRight_length]; omega
  rw [cardInt, hcard, List.append_assoc, List.append_assoc, List.take_left' hk, padRight,
    trim_append_blanks, trim_of_isToken hkey]

end RustFits
