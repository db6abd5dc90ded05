import RustFits.Checksum.Put
import RustFits.Checksum.Hdu

/-!
# Checksums that verify

`add_checksum` on an HDU of an open file, and the verification afterwards.

* `SumCards` says what the two new cards are for, on the card list alone.
  `sumCards_spec` is the step from the accepted header to it.
* `Verifies` is the goal for an open file: the bytes of the HDU on disk add up to
  all ones and both verifications return True.
* `Summed` is what `add_checksum` establishes.  It depends on the bytes and on the
  record of the HDU only (`Summed.congr`), so it survives a re-open.
-/

namespace RustFits.Checksum

open Ascii ByteFile Machine OnesComplement Header

/-! ## The two cards -/

/-- The keyword of the sum over the HDU. -/
def checksumKey : Str := str "CHECKSUM"

/-- The keyword of the sum over the data. -/
def datasumKey : Str := str "DATASUM"

/-- The card of the data sum. -/
def datasumCard (sum : Nat) : Card :=
  padRight 31 (padRight 8 datasumKey ++ str "= '" ++ padRight 8 (natDec sum) ++ str "'") ++
    str "/ " ++ str "data unit checksum"

/-- The new cards of an HDU with the data sum `sum`: the header and the data add
up to all ones, the data sum reads back, and the checksum card is there. -/
structure SumCards (sum : Nat) (cards newCards : List Card) : Prop where
  put : Put 2 cards newCards
  seals : checksum sum (serializeHeaderToDiskBytes newCards) = allOnes
  datasum : parseStringKeyword newCards datasumKey = some (natDec sum)
  checksum : (parseStringKeyword newCards checksumKey).isSome = true

section

variable {sum : Nat} {cards : List Card}

theorem natDec_facts (hsum : sum < u32Size) :
    (natDec sum).length ≤ 10 ∧ (0x27 : UInt8) ∉ natDec sum ∧
      (∀ b ∈ natDec sum, isPrintable b = true) ∧ trimEnd (padRight 8 (natDec sum)) =
        natDec sum := by
  have hdigit : ∀ b : UInt8, isDigit b = true →
      b ≠ 0x27 ∧ isPrintable b = true ∧ isWhitespace b = false := by
    apply forall_byte
    decide +kernel
  refine ⟨?_, fun hmem => (hdigit _ (natDec_digits sum _ hmem)).1 rfl,
    fun b hb => (hdigit b (natDec_digits sum b hb)).2.1, ?_⟩
  · have hlen := natDecAux_length_le (sum + 1) sum 9 [] (by
      simp only [u32Size] at hsum
      omega)
    simpa [natDec] using hlen
  · rw [padRight, trimEnd_append_blanks, trimEnd, List.rdropWhile_eq_self_iff]
    intro hne
    rw [(hdigit _ (natDec_digits sum _ (List.getLast_mem hne))).2.2]
    simp

theorem trimEnd_cardString_datasum (hsum : sum < u32Size) :
    trimEnd (cardString datasumKey (formatDatasum sum) (str "data unit checksum")) =
      datasumCard sum := by
  have hcomment : str "data unit checksum" = str "data unit checksu" ++ [0x6D] := by decide
  have hfacts := natDec_facts hsum
  rw [hcomment, formatDatasum, trimEnd_cardString (by decide) hfacts.2.1 (by omega) (by decide)
    (by decide), datasumCard, hcomment]

theorem hasKeyword_datasumCard (sum : Nat) : hasKeyword datasumKey (datasumCard sum) = true := by
  have hsplit : datasumCard sum = datasumKey ++ (blank :: str "= '" ++ padRight 8 (natDec sum) ++
      str "'" ++ List.replicate (31 - (padRight 8 datasumKey ++ str "= '" ++
        padRight 8 (natDec sum) ++ str "'").length) blank ++ str "/ " ++
          str "data unit checksum") := by
    rw [datasumCard, padRight.eq_1 31]
    simp [padRight, datasumKey, str, blank]
  have htake : (datasumCard sum).take datasumKey.length = datasumKey := by
    rw [hsplit, List.take_left]
  have hlen : datasumKey.length ≤ (datasumCard sum).length := by
    rw [hsplit, List.length_append]
    omega
  rw [hasKeyword, htake, decide_eq_true hlen]
  decide

/-- A card of printable text without trailing blanks. -/
theorem cleanCard_of_cardString {key value comment : Str} {card : Card}
    (h : trimEnd (cardString key value comment) = card)
    (hprint : ∀ b ∈ card, isPrintable b = true) : CleanCard card := by
  have hshort : IsShort (trimEnd (cardString key value comment)) := isShort_trimEnd_padToCard _
  rw [h] at hshort
  exact ⟨hshort.1, hprint, hshort.2⟩

theorem clean_datasumCard (hsum : sum < u32Size) : CleanCard (datasumCard sum) := by
  refine cleanCard_of_cardString (trimEnd_cardString_datasum hsum) ?_
  refine printable_append (printable_append (printable_padRight ?_ 31)
    (printable_of_all (by decide))) (printable_of_all (by decide))
  refine printable_append (printable_append (printable_append
    (printable_padRight (printable_of_all (by decide)) 8) (printable_of_all (by decide)))
    (printable_padRight ?_ 8)) (printable_of_all (by decide))
  exact (natDec_facts hsum).2.2.1

theorem clean_checksumCard {text : Str} (hlen : text.length = 16)
    (h : ∀ b ∈ text, isAlphanumeric b = true) : CleanCard (checksumCard checksumKey text) := by
  have hchars : ∀ b : UInt8, isAlphanumeric b = true → isPrintable b = true ∧ b ≠ 0x27 := by
    apply forall_byte
    decide +kernel
  have hquote : (0x27 : UInt8) ∉ text := fun hmem => (hchars _ (h _ hmem)).2 rfl
  refine cleanCard_of_cardString (trimEnd_cardString_checksum (Or.inl rfl) hlen hquote) ?_
  exact printable_append (printable_append (printable_append (printable_of_all (by decide))
    (printable_of_all (by decide))) fun b hb => (hchars b (h b hb)).1)
    (printable_of_all (by decide))

/-- The data sum reads back. -/
theorem parse_datasumCard (hsum : sum < u32Size) (rest : List Card) :
    parseStringKeyword (datasumCard sum :: rest) datasumKey = some (natDec sum) := by
  obtain ⟨hlen, hquote, -, htrim⟩ := natDec_facts hsum
  have hplain : (0x27 : UInt8) ∉ padRight 8 (natDec sum) := by
    intro hmem
    rcases List.mem_append.1 hmem with hmem | hmem
    · exact hquote hmem
    · exact absurd (List.mem_replicate.1 hmem).2 (by decide)
  have hwidth : 31 - (padRight 8 datasumKey ++ str "= '" ++ padRight 8 (natDec sum) ++
      str "'").length = (31 - (padRight 8 datasumKey ++ str "= '" ++ padRight 8 (natDec sum) ++
        str "'").length - 1) + 1 := by
    have hopen : (str "= '").length = 3 := rfl
    have hclose : (str "'").length = 1 := rfl
    have hkey : datasumKey.length = 7 := rfl
    simp only [List.length_append, padRight_length, hopen, hclose, hkey]
    omega
  have hsplit : ∃ tail, datasumCard sum = padRight 8 datasumKey ++ str "= '" ++
      padRight 8 (natDec sum) ++ 0x27 :: blank :: tail := by
    refine ⟨List.replicate (31 - (padRight 8 datasumKey ++ str "= '" ++ padRight 8 (natDec sum) ++
      str "'").length - 1) blank ++ str "/ " ++ str "data unit checksum", ?_⟩
    rw [datasumCard, padRight.eq_1 31, hwidth, List.replicate_succ]
    simp [str]
  obtain ⟨tail, htail⟩ := hsplit
  rw [htail, parseStringKeyword_card (by decide) (by decide) hplain (by decide), htrim]

/-- The checksum card is found. -/
theorem parse_checksumCard {text : Str} (h : ∀ b ∈ text, isAlphanumeric b = true)
    (rest : List Card) :
    (parseStringKeyword (checksumCard checksumKey text :: rest) checksumKey).isSome = true := by
  have hquote : (0x27 : UInt8) ∉ text := fun hmem => (alphanumeric_facts (h _ hmem)).2 rfl
  have hsplit : checksumCard checksumKey text = padRight 8 checksumKey ++ str "= '" ++ text ++
      0x27 :: blank :: str "  / HDU checksum" := rfl
  rw [hsplit, parseStringKeyword_card (by decide) (by decide) hquote (by decide)]
  rfl

/-- The two cards in an accepted header. -/
theorem sumCards_spec {isPrimary : Bool} (hclean : CleanHeader cards)
    (hvalid : validateHeader cards isPrimary = .ok ()) (hplain : Unindented datasumKey cards)
    (hsum : sum < u32Size) :
    SumCards sum cards
      (cardsWithChecksum exactSum (cardsWithDatasum cards sum datasumKey) sum checksumKey).val := by
  have hkey : IsSumKey datasumKey := by decide
  have hkey' : IsChecksumKey checksumKey := Or.inl rfl
  -- the data sum
  obtain ⟨front, old, back, hcards, hfront, hold, hone, hback, hset⟩ :=
    setOrInsertStringCard_split datasumKey cards
  have hdatasum : cardsWithDatasum cards sum datasumKey = front ++ datasumCard sum :: back := by
    rw [cardsWithDatasum, hset, trimEnd_cardString_datasum hsum]
  have hput := put_spec hkey hclean hvalid hcards hold hone hback (clean_datasumCard hsum)
    (hasKeyword_datasumCard sum)
  have hread : parseStringKeyword (front ++ datasumCard sum :: back) datasumKey =
      some (natDec sum) := by
    rw [parseStringKeyword_skip fun c hc => not_isValueCard_of_not_hasKeyword hkey hplain
        (by simp [hcards, hc]) (hfront c hc), parse_datasumCard hsum]
  rw [hdatasum]
  -- the checksum
  obtain ⟨front', old', back', hcards', hfront', hold', hone', hback', hset'⟩ :=
    setOrInsertStringCard_split checksumKey (front ++ datasumCard sum :: back)
  obtain ⟨-, hval⟩ := cardsWithChecksum_run exactOn_exactSum hkey' hsum hfront' hset' trivial
  have hchars := alphanumeric_encodeChecksumAscii (sumSoFar checksumKey sum front' back') true
  have hvalid' := (hput.layout.validateHeader isPrimary).trans hvalid
  have hput' := put_spec hkey'.isSumKey hput.clean hvalid' hcards' hold' hone' hback'
    (clean_checksumCard (encodeChecksumAscii_length _ true) hchars)
    (hasKeyword_checksumCard hkey' _)
  rw [hval]
  constructor
  · exact hput.trans hput'
  · refine checksum_complement hkey' ?_ front' back'
    simp only [allOnes]
    omega
  · rw [parseStringKeyword_other (by decide) (by decide) hold' (hasKeyword_checksumCard hkey' _),
      ← hcards']
    exact hread
  · rw [parseStringKeyword_skip fun c hc => not_isValueCard_of_not_hasKeyword hkey'.isSumKey
      (unindented_of_length (by decide) (front ++ datasumCard sum :: back)) (by simp [hcards', hc])
      (hfront' c hc)]
    exact parse_checksumCard hchars back'

end

/-! ## The verification -/

/-- The HDU verifies: its bytes on disk add up to all ones, from the start of the
header to the end of the padded data section, and both methods return True. -/
structure Verifies (idx : Nat) (s : Fits) : Prop where
  onDisk : ∃ h, s.hdus[idx]? = some h ∧
    checksum 0 (slice s.bytes h.offsets.headerOffset (h.dataEnd - h.offsets.headerOffset)) =
      0xFFFFFFFF
  checksum : checksumHduVerifyChecksum exactSum idx checksumKey s = .ok (some true) s
  datasum : checksumHduVerifyDatasum exactSum idx datasumKey s = .ok (some true) s

section

variable {s : Fits} {idx : Nat} {h : Hdu}

theorem parseDatasum_natDec {sum : Nat} (hsum : sum < u32Size) :
    parseDatasum (trim (natDec sum)) = some sum := by
  have hparse := parseNat_natDec sum
  have hsign : ∀ rest, natDec sum ≠ 0x2B :: rest := by
    intro rest hrest
    have hdigit := natDec_digits sum 0x2B (by rw [hrest]; simp)
    exact absurd hdigit (by decide)
  have hu64 : parseU64 (natDec sum) = some sum := by
    unfold parseU64
    dsimp only
    split
    · rename_i rest hrest
      exact absurd hrest (hsign rest)
    · simp only [u32Size] at hsum
      rw [hparse, Option.bind_some, if_pos (by omega)]
  have htoken : IsToken (natDec sum) :=
    ⟨natDec_ne_nil sum, fun b hb => not_whitespace_of_isDigit (natDec_digits sum b hb)⟩
  rw [parseDatasum, trim_of_isToken htoken, trim_of_isToken htoken, hu64]
  simp [hsum]

/-- An HDU with its checksum cards: the header blocks are all in use, the file
holds the data section, and the cards belong to its sum. -/
structure Summed (s : Fits) (h : Hdu) : Prop where
  measured : Measured h
  file : h.dataEnd ≤ s.bytes.length
  dataOffset : h.offsets.dataOffset = h.offsets.headerOffset + headerBlocks h.cards.length * 2880
  header : slice s.bytes h.offsets.headerOffset (headerBlocks h.cards.length * 2880) =
    serializeHeaderToDiskBytes h.cards
  cards :
    ∃ cards, SumCards (checksum 0 (slice s.bytes h.offsets.dataOffset h.dataSize)) cards h.cards

/-- Only the bytes and the record of the HDU matter. -/
theorem Summed.congr {h' : Hdu} {hdus : List Hdu} (hs : Summed s h) (hrec : h'.record = h.record) :
    Summed ⟨s.bytes, hdus⟩ h' := by
  obtain ⟨cards, offsets, kind⟩ := h
  obtain ⟨cards', offsets', kind'⟩ := h'
  obtain ⟨rfl, rfl⟩ := Prod.mk.inj hrec
  exact ⟨hs.measured, hs.file, hs.dataOffset, hs.header, hs.cards⟩

theorem verifies_of_summed (hdu : s.hdus[idx]? = some h) (hs : Summed s h) : Verifies idx s := by
  obtain ⟨hmeasured, hfile, hdata, hheader, cards, hcards⟩ := hs
  generalize hsection : slice s.bytes h.offsets.dataOffset h.dataSize = data at hcards
  have hzero : (0 : Nat) ≤ allOnes := by decide
  have hsum := checksum_le hzero data
  have haligned : (serializeHeaderToDiskBytes h.cards).length % 4 = 0 := by
    rw [serialize_length]
    omega
  have htotal : checksum (checksum 0 (serializeHeaderToDiskBytes h.cards)) data = allOnes := by
    rw [← hcards.seals, checksum_eq (checksum_le hzero _), checksum_eq hzero, Nat.zero_add,
      checksum_eq hsum, checksum_eq hzero, Nat.zero_add, residue_add_left, residue_add_left,
      Nat.add_comm]
  constructor
  · refine ⟨h, hdu, ?_⟩
    have hextent : h.dataEnd - h.offsets.headerOffset =
        headerBlocks h.cards.length * 2880 + h.dataSize := by
      rw [Hdu.dataEnd]
      omega
    rw [hextent, slice_add, hheader, ← hdata, hsection, checksum_append haligned, htotal]
    rfl
  · obtain ⟨text, htext⟩ := Option.isSome_iff_exists.1 hcards.checksum
    unfold checksumHduVerifyChecksum
    rw [FileOp.bind_ok (hduAt_run hdu), htext]
    dsimp only
    have hrun := streamDataSection_run hdu hmeasured hfile (checksum_le hzero
      (serializeHeaderToDiskBytes h.cards))
    rw [hsection, htotal] at hrun
    rw [exactSum, Wrapped.val_pure, FileOp.bind_ok hrun]
    rfl
  · unfold checksumHduVerifyDatasum
    rw [FileOp.bind_ok (hduAt_run hdu), hcards.datasum]
    dsimp only
    rw [parseDatasum_natDec (lt_u32Size_of_le hsum)]
    dsimp only
    have hrun := streamDataSection_run hdu hmeasured hfile hzero
    rw [hsection] at hrun
    rw [FileOp.bind_ok hrun]
    simp only [beq_self_eq_true]
    rfl

end

end RustFits.Checksum
