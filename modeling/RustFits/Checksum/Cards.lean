import RustFits.Checksum.Encode
import RustFits.Header.Model
import RustFits.HeaderBytes

/-!
# The checksum cards

`cards_with_datasum` and `cards_with_checksum` put the two cards of the FITS
checksum convention in a header.  The second one is chosen so that the header
and the data add up to all ones: the card is first written with sixteen zeros,
and the complement of the sum so far replaces them.

* `setOrInsertStringCard_split` says where a card goes.
* `checksumCard_words` compares the words of the final card with those of the
  placeholder.  The value stands in the columns 12 to 27, one byte before a word
  boundary, and the characters are rotated by one place for that.
* `cardsWithChecksum_seals` is the result: the sum is all ones, the value has
  only letters and digits, and the other cards stay.
-/

namespace RustFits.Checksum

open Ascii ByteFile Machine BigEndian OnesComplement Header

/-! ## The code -/

/-- The keyword field of the card is `key`, in any case. -/
def hasKeyword (key : Str) (card : Card) : Bool :=
  decide (key.length ≤ card.length) &&
    decide (toAsciiUppercase (trim (card.take key.length)) = toAsciiUppercase key)

/-- `set_or_insert_string_card`.  A new card goes in front of the last one. -/
def setOrInsertStringCard (cards : List Card) (key value comment : Str) : List Card :=
  let card := trimEnd (cardString key value comment)
  match cards.findIdx? (hasKeyword key) with
  | some i => cards.set i card
  | none => cards.insertIdx (cards.length - 1) card

/-- `format_datasum`. -/
def formatDatasum (sum : Nat) : Str := natDec sum

/-- `cards_with_datasum`. -/
def cardsWithDatasum (cards : List Card) (sum : Nat) (key : Str) : List Card :=
  setOrInsertStringCard cards key (formatDatasum sum) (str "data unit checksum")

/-- `ones_complement_add`, with `compute` for `compute_checksum_bytes`. -/
def onesComplementAdd (compute : Nat → Bytes → Wrapped Nat) (a b : Nat) : Wrapped Nat :=
  compute a (beBytes 4 b)

/-- The sixteen zeros. -/
def placeholder : Str := str "0000000000000000"

/-- `cards_with_checksum`. -/
def cardsWithChecksum (compute : Nat → Bytes → Wrapped Nat) (cards : List Card) (datasum : Nat)
    (key : Str) : Wrapped (List Card) := do
  let newCards := setOrInsertStringCard cards key placeholder (str "HDU checksum")
  let hsum ← compute 0 (serializeHeaderToDiskBytes newCards)
  let total ← onesComplementAdd compute hsum datasum
  pure (setOrInsertStringCard newCards key (encodeChecksumAscii total true) (str "HDU checksum"))

/-! ## Where the card goes -/

section

variable {key value comment : Str} {cards front back : List Card} {card : Card}

/-- The card list is cut at the first card of the keyword, or in front of the
last card, and the new card goes there. -/
theorem setOrInsertStringCard_split (key : Str) (cards : List Card) :
    ∃ front old back, cards = front ++ old ++ back ∧
      (∀ c ∈ front, hasKeyword key c = false) ∧ (∀ c ∈ old, hasKeyword key c = true) ∧
      old.length ≤ 1 ∧ (old = [] → back = cards.drop (cards.length - 1)) ∧
      ∀ value comment, setOrInsertStringCard cards key value comment =
        front ++ trimEnd (cardString key value comment) :: back := by
  cases hfind : cards.findIdx? (hasKeyword key) with
  | some i =>
    obtain ⟨hi, hcard, hbefore⟩ := List.findIdx?_eq_some_iff_getElem.1 hfind
    refine ⟨cards.take i, [cards[i]], cards.drop (i + 1), ?_, ?_, ?_, ?_, ?_, ?_⟩
    · rw [List.append_assoc, List.singleton_append, ← List.drop_eq_getElem_cons hi,
        List.take_append_drop]
    · intro c hc
      obtain ⟨j, hj, rfl⟩ := List.getElem_of_mem hc
      rw [List.length_take] at hj
      rw [List.getElem_take]
      exact Bool.eq_false_iff.2 (hbefore j (by omega))
    · simpa using hcard
    · simp
    · simp
    · intro value comment
      rw [setOrInsertStringCard, hfind]
      dsimp only
      rw [List.set_eq_take_append_cons_drop, if_pos hi]
  | none =>
    refine ⟨cards.take (cards.length - 1), [], cards.drop (cards.length - 1), ?_, ?_, ?_, ?_, ?_,
      ?_⟩
    · rw [List.append_nil, List.take_append_drop]
    · intro c hc
      exact List.findIdx?_eq_none_iff.1 hfind c (List.mem_of_mem_take hc)
    · simp
    · simp
    · intro _
      rfl
    · intro value comment
      rw [setOrInsertStringCard, hfind]
      exact insertIdx_eq_take_append_cons_drop (by omega)

/-- A card that is there is replaced. -/
theorem setOrInsertStringCard_found (hfront : ∀ c ∈ front, hasKeyword key c = false)
    (hcard : hasKeyword key card = true) (value comment : Str) :
    setOrInsertStringCard (front ++ card :: back) key value comment =
      front ++ trimEnd (cardString key value comment) :: back := by
  have hfind : (front ++ card :: back).findIdx? (hasKeyword key) = some front.length := by
    rw [List.findIdx?_append, List.findIdx?_eq_none_iff.2 hfront, List.findIdx?_cons, hcard]
    simp
  rw [setOrInsertStringCard, hfind]
  simp

end

/-! ## The card -/

/-- The key that the card is written under: both have eight letters. -/
def IsChecksumKey (key : Str) : Prop := key = str "CHECKSUM" ∨ key = str "ZHECKSUM"

/-- The card with its value. -/
def checksumCard (key text : Str) : Card := key ++ str "= '" ++ text ++ str "'   / HDU checksum"

section

variable {key text : Str}

theorem IsChecksumKey.length (h : IsChecksumKey key) : key.length = 8 := by
  rcases h with rfl | rfl <;> rfl

theorem IsChecksumKey.trim (h : IsChecksumKey key) : trim key = key := by
  rcases h with rfl | rfl <;> decide

theorem doubleQuotes_of_not_mem {s : Str} (h : (0x27 : UInt8) ∉ s) : doubleQuotes s = s := by
  induction s with
  | nil => rfl
  | cons b s ih =>
    rw [List.mem_cons, not_or] at h
    rw [doubleQuotes, List.flatMap_cons, if_neg (Ne.symm h.1), ← doubleQuotes, ih h.2]
    rfl

/-- The columns of a short string card: the comment starts in column 32. -/
theorem trimEnd_cardString {key value comment : Str} {last : UInt8} (hkey : key.length ≤ 8)
    (hquote : (0x27 : UInt8) ∉ value) (hlen : value.length ≤ 19) (hcomment : comment.length ≤ 45)
    (hlast : isWhitespace last = false) :
    trimEnd (cardString key value (comment ++ [last])) =
      padRight 31 (padRight 8 key ++ str "= '" ++ padRight 8 value ++ str "'") ++ str "/ " ++
        (comment ++ [last]) := by
  have hopen : (str "= '").length = 3 := rfl
  have hclose : (str "'").length = 1 := rfl
  have hslash : (str "/ ").length = 2 := rfl
  have hhead : (padRight 8 key ++ str "= '" ++ padRight 8 value ++ str "'").length ≤ 31 := by
    simp only [List.length_append, padRight_length]
    omega
  have hbody : (padRight 31 (padRight 8 key ++ str "= '" ++ padRight 8 value ++ str "'") ++
      str "/ " ++ (comment ++ [last])).length ≤ cardSize := by
    simp only [List.length_append, padRight_length, List.length_singleton, hslash, cardSize]
      at hhead ⊢
    omega
  unfold cardString
  dsimp only
  rw [doubleQuotes_of_not_mem hquote, if_neg (by simp), if_pos hhead, padToCard,
    List.take_of_length_le hbody, padRight.eq_1 cardSize, trimEnd_append_blanks,
    ← List.append_assoc, trimEnd_append hlast]
  simp [trimEnd]

/-- The blank columns of the card are those of the fixed format. -/
theorem trimEnd_cardString_checksum (hkey : IsChecksumKey key) (hlen : text.length = 16)
    (hquote : (0x27 : UInt8) ∉ text) :
    trimEnd (cardString key text (str "HDU checksum")) = checksumCard key text := by
  have hk := hkey.length
  have hcomment : str "HDU checksum" = str "HDU checksu" ++ [0x6D] := by decide
  rw [hcomment, trimEnd_cardString (by omega) hquote (by omega) (by decide) (by decide)]
  have hpad : padRight 8 key = key := by simp [padRight, hk]
  have htext : padRight 8 text = text := by simp [padRight, hlen]
  have hhead : (key ++ str "= '" ++ text ++ str "'").length = 28 := by simp [hk, hlen, str]
  rw [hpad, htext, padRight, hhead]
  simp [checksumCard, str, List.replicate, blank]

theorem hasKeyword_checksumCard (hkey : IsChecksumKey key) (text : Str) :
    hasKeyword key (checksumCard key text) = true := by
  have htake : (checksumCard key text).take key.length = key := by
    rw [checksumCard, List.append_assoc, List.append_assoc, List.take_left]
  have hlen : key.length ≤ (checksumCard key text).length := by
    simp only [checksumCard, List.length_append]
    omega
  rw [hasKeyword, htake, hkey.trim, decide_eq_true hlen, decide_eq_true rfl]
  rfl

theorem padToCard_checksumCard (hkey : IsChecksumKey key) (hlen : text.length = 16) :
    padToCard (checksumCard key text) =
      (key ++ str "= '") ++ text ++ (str "'   / HDU checksum" ++ List.replicate 35 blank) := by
  have hcard : (checksumCard key text).length = 45 := by
    simp [checksumCard, hkey.length, hlen, str]
  rw [padToCard_of_clean (by omega), hcard, checksumCard]
  simp only [List.append_assoc]

/-- The value stands at the byte 11 of the card. -/
theorem checksumCard_words (hkey : IsChecksumKey key) {text' : Str} (hlen : text.length = 16)
    (hlen' : text'.length = 16) {n : Nat} (h : weigh 3 text = n + weigh 3 text') :
    (words (padToCard (checksumCard key text))).sum =
      n + (words (padToCard (checksumCard key text'))).sum := by
  have hhead : (key ++ str "= '").length = 11 := by simp [hkey.length, str]
  have hplace : ∀ t : Str, weigh (0 + 11) t = weigh 3 t := fun t => by
    rw [← weigh_add_four 3, ← weigh_add_four 7]
  have hcard : ∀ t : Str, t.length = 16 → (words (padToCard (checksumCard key t))).sum =
      weigh 0 (key ++ str "= '") + weigh 3 t +
        weigh (0 + (11 + 16)) (str "'   / HDU checksum" ++ List.replicate 35 blank) := by
    intro t ht
    rw [words_sum_eq_weigh, padToCard_checksumCard hkey ht, weigh_append, weigh_append, hhead,
      hplace, List.length_append, hhead, ht]
  rw [hcard text hlen, hcard text' hlen', h]
  omega

end

/-! ## The serialised header -/

section

variable {compute : Nat → Bytes → Wrapped Nat} {fits : Nat → Bytes → Prop} {key : Str}
  {cards front back : List Card} {card : Card} {datasum : Nat}

theorem flatMap_padToCard_length (cards : List Card) :
    (cards.flatMap padToCard).length % 4 = 0 := by
  rw [flatMap_length_of_width fun card _ => padToCard_length card]
  omega

/-- A card counts with its own words, wherever it stands. -/
theorem serialize_words (front back : List Card) :
    ∃ rest, ∀ card, (words (serializeHeaderToDiskBytes (front ++ card :: back))).sum =
      rest + (words (padToCard card)).sum := by
  refine ⟨(words (front.flatMap padToCard)).sum + (words ((back ++ List.replicate
    (headerBlocks (front.length + (back.length + 1)) * 36 - (front.length + (back.length + 1)))
      []).flatMap padToCard)).sum, fun card => ?_⟩
  rw [serialize_eq_flatMap, List.append_assoc, List.flatMap_append, List.cons_append,
    List.flatMap_cons, words_append (flatMap_padToCard_length front),
    words_append (by rw [padToCard_length]), List.sum_append, List.sum_append, List.length_append,
    List.length_cons]
  omega

/-- Every byte of a string that the program holds as text. -/
def IsText (s : Str) : Prop := ∀ b ∈ s, b.toNat ≤ 0xF4

theorem isText_of_all {s : Str} (h : s.all (fun b => decide (b.toNat ≤ 0xF4)) = true) : IsText s :=
  fun b hb => of_decide_eq_true (List.all_eq_true.1 h b hb)

theorem isText_padToCard (h : IsText card) : IsText (padToCard card) := by
  intro b hb
  rw [padToCard, padRight] at hb
  rcases List.mem_append.1 hb with hb | hb
  · exact h b (List.mem_of_mem_take hb)
  · rw [(List.mem_replicate.1 hb).2]
    decide

theorem isText_serialize (h : ∀ c ∈ cards, IsText c) :
    IsText (serializeHeaderToDiskBytes cards) := by
  intro b hb
  rw [serialize_eq_flatMap] at hb
  obtain ⟨c, hc, hb⟩ := List.mem_flatMap.1 hb
  rcases List.mem_append.1 hc with hc | hc
  · exact isText_padToCard (h c hc) b hb
  · rw [(List.mem_replicate.1 hc).2] at hb
    exact isText_padToCard (by simp [IsText]) b hb

/-- Text has no byte above `0xF4`, so a header of 92 blocks fits in the two
counters. -/
theorem pieceFits_of_text {bytes : Bytes} (h : IsText bytes) (hlen : bytes.length ≤ 264960) :
    PieceFits 0 bytes := by
  have hwords := words_length_le bytes
  have hbound : ∀ bytes : Bytes, IsText bytes → ∀ w ∈ words bytes,
      w / 65536 ≤ 62708 ∧ w % 65536 ≤ 62708 := by
    intro bytes
    have hhalf : ∀ a b : UInt8, a.toNat ≤ 0xF4 → b.toNat ≤ 0xF4 → fromBe [a, b] ≤ 62708 :=
      fun a b ha hb => by
        simp only [fromBe, List.foldl_cons, List.foldl_nil]
        omega
    fun_induction words bytes with
    | case1 => simp
    | case2 a | case3 a b | case4 a b c =>
      intro htext
      simp only [IsText, List.forall_mem_cons] at htext
      simp [word_div, word_mod, hhalf, htext]
    | case5 a b c d rest ih =>
      intro htext
      simp only [IsText, List.forall_mem_cons] at htext
      obtain ⟨ha, hb, hc, hd, hrest⟩ := htext
      rw [List.forall_mem_cons, word_div, word_mod]
      exact ⟨⟨hhalf a b ha hb, hhalf c d hc hd⟩, ih hrest⟩
  have hupper := List.sum_le_card_nsmul ((words bytes).map (· / 65536)) 62708 (by
    intro x hx
    obtain ⟨w, hw, rfl⟩ := List.mem_map.1 hx
    exact (hbound bytes h w hw).1)
  have hlower := List.sum_le_card_nsmul ((words bytes).map (· % 65536)) 62708 (by
    intro x hx
    obtain ⟨w, hw, rfl⟩ := List.mem_map.1 hx
    exact (hbound bytes h w hw).2)
  simp only [List.length_map, smul_eq_mul] at hupper hlower
  constructor
  · simp only [u32Size, upperSum]
    omega
  · simp only [u32Size, lowerSum]
    omega

theorem isText_checksumCard {text : Str} (hkey : IsChecksumKey key) (h : IsText text) :
    IsText (checksumCard key text) := by
  have hstr : IsText key ∧ IsText (str "= '") ∧ IsText (str "'   / HDU checksum") := by
    rcases hkey with rfl | rfl <;>
      exact ⟨isText_of_all (by decide), isText_of_all (by decide), isText_of_all (by decide)⟩
  intro b hb
  simp only [checksumCard, List.mem_append] at hb
  rcases hb with ((hb | hb) | hb) | hb
  · exact hstr.1 b hb
  · exact hstr.2.1 b hb
  · exact h b hb
  · exact hstr.2.2 b hb

theorem alphanumeric_facts {b : UInt8} (h : isAlphanumeric b = true) :
    b.toNat ≤ 0xF4 ∧ b ≠ 0x27 := by
  have hcheck : ∀ b : UInt8, isAlphanumeric b = true → b.toNat ≤ 0xF4 ∧ b ≠ 0x27 := by
    apply forall_byte
    decide +kernel
  exact hcheck b h

/-- The sum of two checksums. -/
theorem onesComplementAdd_exact (hc : ExactOn compute fits) {a b : Nat} (ha : a ≤ allOnes)
    (hb : b < u32Size) :
    (onesComplementAdd compute a b).overflow = false ∧
      (onesComplementAdd compute a b).val = residue allOnes (a + b) := by
  have hfit : fits a (beBytes 4 b) := hc.short a (lt_u32Size_of_le ha) _ (by simp)
  have hwords : words (beBytes 4 b) = [fromBe (beBytes 4 b)] := rfl
  rw [onesComplementAdd, hc.overflow a (lt_u32Size_of_le ha),
    hc.exact a (lt_u32Size_of_le ha) _ hfit, checksum_eq ha, hwords, fromBe_beBytes,
    List.sum_singleton, Nat.mod_eq_of_lt (by simpa [u32Size] using hb)]
  exact ⟨hfit, rfl⟩

/-- What the new cards are for: the header and the data add up to all ones, the
value has only letters and digits, and no other card has changed. -/
structure Sealed (key : Str) (datasum : Nat) (cards newCards : List Card) : Prop where
  sums : checksum datasum (serializeHeaderToDiskBytes newCards) = 0xFFFFFFFF
  value : ∃ text : Str, text.length = 16 ∧ (∀ b ∈ text, isAlphanumeric b = true) ∧
    newCards.find? (hasKeyword key) = some (checksumCard key text)
  others : newCards.filter (fun c => !hasKeyword key c) =
    cards.filter (fun c => !hasKeyword key c)
  closed : newCards.getLast? = some endCard

/-- The sum of the header with sixteen zeros in the card, and the data. -/
def sumSoFar (key : Str) (datasum : Nat) (front back : List Card) : Nat :=
  residue allOnes ((words (serializeHeaderToDiskBytes
    (front ++ checksumCard key placeholder :: back))).sum + datasum)

theorem sumSoFar_le (key : Str) (datasum : Nat) (front back : List Card) :
    sumSoFar key datasum front back ≤ allOnes := residue_le (by decide) _

/-- The complement of the sum so far makes it all ones. -/
theorem checksum_complement (hkey : IsChecksumKey key) (hdatasum : datasum ≤ allOnes)
    (front back : List Card) :
    checksum datasum (serializeHeaderToDiskBytes (front ++
      checksumCard key (encodeChecksumAscii (sumSoFar key datasum front back) true) :: back)) =
        allOnes := by
  obtain ⟨rest, hrest⟩ := serialize_words front back
  have hworth := weigh_encodeChecksumAscii (lt_u32Size_of_le (sumSoFar_le key datasum front back))
    true
  have hwords := checksumCard_words hkey (encodeChecksumAscii_length _ true)
    (by decide : placeholder.length = 16) hworth
  have hones : 0 < allOnes := by decide
  have hcomplement := residue_add_complement hones ((words (serializeHeaderToDiskBytes
    (front ++ checksumCard key placeholder :: back))).sum + datasum)
  rw [← sumSoFar, hrest] at hcomplement
  have harg : ∀ w v : Nat, datasum + (rest + (v + w)) = rest + w + datasum + v := fun w v => by
    omega
  rw [checksum_eq hdatasum, hrest, hwords, encodedValue, if_pos rfl, harg]
  exact hcomplement

/-- The two writes of the card, where the card list is cut. -/
theorem cardsWithChecksum_run (hc : ExactOn compute fits) (hkey : IsChecksumKey key)
    (hdatasum : datasum < u32Size)
    (hfront : ∀ c ∈ front, hasKeyword key c = false)
    (hset : ∀ value comment, setOrInsertStringCard cards key value comment =
      front ++ trimEnd (cardString key value comment) :: back)
    (hfit : fits 0 (serializeHeaderToDiskBytes
      (front ++ checksumCard key placeholder :: back))) :
    (cardsWithChecksum compute cards datasum key).overflow = false ∧
      (cardsWithChecksum compute cards datasum key).val =
        front ++ checksumCard key (encodeChecksumAscii (sumSoFar key datasum front back) true) ::
          back := by
  have hzeros : setOrInsertStringCard cards key placeholder (str "HDU checksum") =
      front ++ checksumCard key placeholder :: back := by
    rw [hset, trimEnd_cardString_checksum hkey (by decide) (by decide)]
  have hsum := hc.exact 0 (by decide) _ hfit
  rw [checksum_eq (by decide), Nat.zero_add] at hsum
  obtain ⟨haddNo, haddVal⟩ := onesComplementAdd_exact hc (residue_le (by decide)
    (words (serializeHeaderToDiskBytes (front ++ checksumCard key placeholder :: back))).sum)
      hdatasum
  rw [residue_add_left, ← sumSoFar] at haddVal
  have hquote : (0x27 : UInt8) ∉ encodeChecksumAscii (sumSoFar key datasum front back) true :=
    fun hmem => (alphanumeric_facts (alphanumeric_encodeChecksumAscii _ _ _ hmem)).2 rfl
  have hfinal : setOrInsertStringCard (front ++ checksumCard key placeholder :: back) key
      (encodeChecksumAscii (sumSoFar key datasum front back) true) (str "HDU checksum") =
        front ++ checksumCard key (encodeChecksumAscii (sumSoFar key datasum front back) true) ::
          back := by
    rw [setOrInsertStringCard_found hfront (hasKeyword_checksumCard hkey _),
      trimEnd_cardString_checksum hkey (encodeChecksumAscii_length _ true) hquote]
  constructor
  · simp only [cardsWithChecksum, Wrapped.overflow_bind, Wrapped.overflow_pure, hzeros, hsum,
      (hc.overflow 0 (by decide) _).2 hfit, haddNo, Bool.or_false]
  · simp only [cardsWithChecksum, Wrapped.val_bind, Wrapped.val_pure, hzeros, hsum, haddVal, hfinal]

/-- The header with the placeholder has one block more at most. -/
theorem pieceFits_placeholder {old : List Card} (hkey : IsChecksumKey key)
    (hcards : cards = front ++ old ++ back) (htext : ∀ c ∈ cards, IsText c)
    (hsize : (serializeHeaderToDiskBytes cards).length < 262144) :
    PieceFits 0 (serializeHeaderToDiskBytes (front ++ checksumCard key placeholder :: back)) := by
  have hcount : front.length + (back.length + 1) ≤ cards.length + 1 := by
    rw [hcards]
    simp only [List.length_append]
    omega
  refine pieceFits_of_text (isText_serialize fun c hc => ?_) ?_
  · rw [hcards] at htext
    rcases List.mem_append.1 hc with hc | hc
    · exact htext c (by simp [hc])
    · rcases List.mem_cons.1 hc with rfl | hc
      · exact isText_checksumCard hkey (isText_of_all (by decide))
      · exact htext c (by simp [hc])
  · rw [serialize_length, headerBlocks_eq] at hsize ⊢
    rw [List.length_append, List.length_cons]
    omega

/-- The last card stays the last. -/
theorem closed_of_split {old : List Card} (hnot : hasKeyword key endCard = false)
    (hcards : cards = front ++ old ++ back) (hold : ∀ c ∈ old, hasKeyword key c = true)
    (hback : old = [] → back = cards.drop (cards.length - 1))
    (hend : cards.getLast? = some endCard) : back.getLast? = some endCard := by
  cases hlast : back.getLast? with
  | some c =>
    rw [hcards, List.getLast?_append, hlast, Option.some_or] at hend
    exact hend
  | none =>
    have hnil : back = [] := List.getLast?_eq_none_iff.1 hlast
    have hlen : 0 < cards.length := List.length_pos_iff.2 fun hempty => by simp [hempty] at hend
    cases hcase : old.getLast? with
    | none =>
      have hempty := hback (List.getLast?_eq_none_iff.1 hcase)
      rw [hnil] at hempty
      have hdrop := congrArg List.length hempty
      rw [List.length_nil, List.length_drop] at hdrop
      omega
    | some c =>
      rw [hcards, hnil, List.append_nil, List.getLast?_append, hcase, Option.some_or] at hend
      have hc := hold c (List.mem_of_getLast? hcase)
      rw [Option.some.inj hend, hnot] at hc
      exact absurd hc (by simp)

/-- The checksum card seals every header below 256 KiB that ends in END, for
every data sum. -/
theorem cardsWithChecksum_seals (key : Str) (hkey : IsChecksumKey key) (cards : List Card)
    (hend : cards.getLast? = some endCard) (htext : ∀ c ∈ cards, IsText c)
    (hsize : (serializeHeaderToDiskBytes cards).length < 262144) (datasum : Nat)
    (hdatasum : datasum < u32Size) :
    (cardsWithChecksum computeChecksumBytes cards datasum key).overflow = false ∧
      Sealed key datasum cards (cardsWithChecksum computeChecksumBytes cards datasum key).val := by
  obtain ⟨front, old, back, hcards, hfront, hold, -, hback, hset⟩ :=
    setOrInsertStringCard_split key cards
  have hfit := pieceFits_placeholder hkey hcards htext hsize
  obtain ⟨hover, hval⟩ :=
    cardsWithChecksum_run exactOn_computeChecksumBytes hkey hdatasum hfront hset hfit
  have hle : datasum ≤ allOnes := by
    simp only [allOnes]
    omega
  have hcard := hasKeyword_checksumCard hkey
    (encodeChecksumAscii (sumSoFar key datasum front back) true)
  refine ⟨hover, ?_⟩
  rw [hval]
  constructor
  · exact checksum_complement hkey hle front back
  · refine ⟨encodeChecksumAscii (sumSoFar key datasum front back) true,
      encodeChecksumAscii_length _ true, alphanumeric_encodeChecksumAscii _ true, ?_⟩
    rw [List.find?_append, List.find?_eq_none.2 fun c hc => by simp [hfront c hc], List.find?_cons,
      hcard, Option.none_or]
  · have hnone : old.filter (fun c => !hasKeyword key c) = [] :=
      List.filter_eq_nil_iff.2 fun c hc => by simp [hold c hc]
    rw [hcards, List.filter_append, List.filter_append, List.filter_append, hnone,
      List.filter_cons_of_neg (by simp [hcard]), List.append_nil]
  · have hnot : hasKeyword key endCard = false := by
      rcases hkey with rfl | rfl <;> decide
    have hlast := closed_of_split hnot hcards hold hback hend
    rw [List.getLast?_append, List.getLast?_cons, hlast]
    rfl

theorem cardsWithChecksum_seals_minimal :
    (cardsWithChecksum computeChecksumBytes [str "SIMPLE  =                    T", endCard] 7
        (str "CHECKSUM")).overflow = false ∧
      Sealed (str "CHECKSUM") 7 [str "SIMPLE  =                    T", endCard]
        (cardsWithChecksum computeChecksumBytes [str "SIMPLE  =                    T", endCard] 7
          (str "CHECKSUM")).val :=
  cardsWithChecksum_seals (str "CHECKSUM")
    (Or.inl rfl) [str "SIMPLE  =                    T", endCard]
    rfl (List.forall_mem_cons.2 ⟨isText_of_all (by decide),
      List.forall_mem_singleton.2 (isText_of_all (by decide))⟩)
    (by rw [serialize_length]; decide) 7 (by decide)

end

end RustFits.Checksum
