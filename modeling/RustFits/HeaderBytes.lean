import RustFits.Parse

/-!
# Header bytes

What the header reader consumes (`readHeader_fits`), and reading back the bytes a card
list is written as.  `CleanHeader` is the shape of every card list the parser returns:
printable cards of at most 80 bytes without trailing blanks, of which the last, and
only the last, is END.
`readHeader_serialize` is the round trip for a header that occupies exactly the
blocks its cards need.
-/

namespace RustFits

open Ascii ByteFile Machine

/-! ## Reading one header -/

theorem pushCards_length_le (l : List Card) : (pushCards l).1.length ≤ l.length := by
  induction l with
  | nil => simp [pushCards]
  | cons card rest ih =>
    rw [pushCards]
    split_ifs
    · simp
    · simpa using ih

theorem pushCards_of_not_found {l : List Card} (h : (pushCards l).2 = false) :
    (pushCards l).1 = l := by
  induction l with
  | nil => rfl
  | cons card rest ih =>
    by_cases hend : card = str "END"
    · simp [pushCards, hend] at h
    · have hrest : (pushCards rest).2 = false := by simpa [pushCards, hend] using h
      simp [pushCards, hend, ih hrest]

theorem pushCards_pos_of_found {l : List Card} (h : (pushCards l).2 = true) :
    0 < (pushCards l).1.length := by
  cases l with
  | nil => simp [pushCards] at h
  | cons card rest =>
    rw [pushCards]
    split_ifs <;> simp

theorem blockCards_length (block : Bytes) : (blockCards block).length = 36 := by
  simp [blockCards, cardsPerBlock, blockSize, cardSize]

/-- The cards read end inside the last block read. -/
theorem readHeaderBlocks_length {lenient : Bool} {bytes : Bytes} {offset : Nat}
    {cards : List Card} :
    ∀ (left pos k : Nat) (acc : List Card), acc.length = 36 * k →
      readHeaderBlocks lenient bytes offset left pos acc = .ok cards →
      cards = [] ∨ (36 * k < cards.length ∧ cards.length ≤ 36 * (k + left)) := by
  intro left
  induction left with
  | zero =>
    intro pos k acc hacc h
    rw [readHeaderBlocks] at h
    split_ifs at h
    exact Or.inl (Except.ok.inj h).symm
  | succ left ih =>
    intro pos k acc hacc h
    rw [readHeaderBlocks] at h
    split at h
    · cases h
    · rename_i block _
      have hle := pushCards_length_le (blockCards block)
      rw [blockCards_length] at hle
      dsimp only at h
      split_ifs at h with hend
      · have hpos := pushCards_pos_of_found hend
        rw [← Except.ok.inj h, List.length_append]
        omega
      · have hfull := pushCards_of_not_found (Bool.eq_false_iff.2 hend)
        have hlen : (acc ++ (pushCards (blockCards block)).1).length = 36 * (k + 1) := by
          rw [List.length_append, hfull, blockCards_length]
          omega
        rcases ih _ _ _ hlen h with rfl | ⟨h1, h2⟩
        · exact Or.inl rfl
        · exact Or.inr ⟨by omega, by omega⟩

/-- A header that was read lies inside the file. -/
theorem readHeader_fits {lenient : Bool} {bytes : Bytes} {offset : Nat} {cards : List Card}
    (h : readHeader lenient bytes offset = .ok cards) (hne : cards ≠ []) :
    0 < headerBlocks cards.length ∧
      offset + headerBlocks cards.length * blockSize ≤ bytes.length := by
  rcases readHeaderBlocks_length _ _ 0 _ (by simp) h with rfl | ⟨hpos, hle⟩
  · exact absurd rfl hne
  · rw [headerBlocks_eq]
    unfold blockSize at hle ⊢
    omega

/-! ## Clean headers -/

/-- The END card. -/
def endCard : Card := str "END"

/-- A card as the parser holds it. -/
structure CleanCard (card : Card) : Prop where
  length_le : card.length ≤ 80
  printable : ∀ b ∈ card, isPrintable b = true
  trimmed : trimEnd card = card

instance (card : Card) : Decidable (CleanCard card) :=
  decidable_of_iff
    (card.length ≤ 80 ∧ card.all isPrintable = true ∧ trimEnd card = card)
    ⟨fun h => ⟨h.1, List.all_eq_true.1 h.2.1, h.2.2⟩,
      fun h => ⟨h.1, List.all_eq_true.2 h.2, h.3⟩⟩

/-- A card list as the parser returns it. -/
structure CleanHeader (cards : List Card) : Prop where
  clean : ∀ card ∈ cards, CleanCard card
  closed : ∃ body, cards = body ++ [endCard] ∧ endCard ∉ body

theorem padToCard_length (card : Card) : (padToCard card).length = 80 := by
  rw [padToCard, padRight_length]
  simp [cardSize]

theorem padToCard_nil : padToCard [] = List.replicate 80 blank := rfl

theorem padToCard_of_clean {card : Card} (h : card.length ≤ 80) :
    padToCard card = card ++ List.replicate (80 - card.length) blank := by
  rw [padToCard, padRight, List.take_of_length_le (by unfold cardSize; omega), cardSize]

theorem trimEnd_padToCard {card : Card} (h : CleanCard card) : trimEnd (padToCard card) = card := by
  rw [padToCard_of_clean h.length_le, trimEnd_append_blanks, h.trimmed]

theorem printable_append {s t : Str} (hs : ∀ b ∈ s, isPrintable b = true)
    (ht : ∀ b ∈ t, isPrintable b = true) : ∀ b ∈ s ++ t, isPrintable b = true := fun b hb =>
  (List.mem_append.1 hb).elim (hs b) (ht b)

/-- A literal is checked as a whole. -/
theorem printable_of_all {s : Str} (h : s.all isPrintable = true) :
    ∀ b ∈ s, isPrintable b = true := List.all_eq_true.1 h

theorem printable_blanks (n : Nat) : ∀ b ∈ List.replicate n blank, isPrintable b = true := by
  intro b hb
  rw [(List.mem_replicate.1 hb).2]
  decide

theorem printable_padRight {s : Str} (h : ∀ b ∈ s, isPrintable b = true) (w : Nat) :
    ∀ b ∈ padRight w s, isPrintable b = true := printable_append h (printable_blanks _)

theorem printable_padToCard {card : Card} (h : ∀ b ∈ card, isPrintable b = true) :
    ∀ b ∈ padToCard card, isPrintable b = true :=
  printable_padRight (fun b hb => h b (List.mem_of_mem_take hb)) cardSize

/-! ## Serialized headers -/

theorem serialize_eq_flatMap (cards : List Card) :
    serializeHeaderToDiskBytes cards =
      (cards ++ List.replicate (headerBlocks cards.length * 36 - cards.length) []).flatMap
        padToCard := by
  have hlen := flatMap_length_of_width fun card (_ : card ∈ cards) => padToCard_length card
  have hblank : ∀ n : Nat, (List.replicate n ([] : Card)).flatMap padToCard =
      List.replicate (n * 80) blank := by
    intro n
    induction n with
    | zero => simp
    | succ n ih =>
      rw [List.replicate_succ, List.flatMap_cons, ih, padToCard_nil, ← List.replicate_add]
      congr 1
      omega
  rw [serializeHeaderToDiskBytes, padRight, List.flatMap_append, hblank, hlen]
  congr 2
  unfold blockSize
  omega

theorem serialize_length (cards : List Card) :
    (serializeHeaderToDiskBytes cards).length = headerBlocks cards.length * 2880 := by
  rw [serialize_eq_flatMap, flatMap_length_of_width fun card _ => padToCard_length card]
  simp only [List.length_append, List.length_replicate]
  rw [headerBlocks_eq]
  omega

/-- A serialized header is printable throughout. -/
theorem printable_serialize {cards : List Card}
    (h : ∀ card ∈ cards, ∀ b ∈ card, isPrintable b = true) :
    ∀ b ∈ serializeHeaderToDiskBytes cards, isPrintable b = true := by
  intro b hb
  rw [serialize_eq_flatMap] at hb
  obtain ⟨card, hcard, hb⟩ := List.mem_flatMap.1 hb
  refine printable_padToCard ?_ b hb
  rcases List.mem_append.1 hcard with hcard | hcard
  · exact h card hcard
  · rw [(List.mem_replicate.1 hcard).2]
    simp

/-- More than one block of cards: the first block and the serialized rest. -/
theorem serialize_append {first : List Card} (hfirst : first.length = 36) (rest : List Card) :
    serializeHeaderToDiskBytes (first ++ rest) =
      first.flatMap padToCard ++ serializeHeaderToDiskBytes rest := by
  rw [serialize_eq_flatMap, serialize_eq_flatMap, List.append_assoc, List.flatMap_append]
  congr 4
  rw [List.length_append, headerBlocks_eq, headerBlocks_eq]
  omega

/-! ## Reading a serialized header -/

theorem checkBlock_of_printable {lenient : Bool} {offset : Nat} {block : Bytes}
    (h : ∀ b ∈ block, isPrintable b = true) : checkBlock lenient offset block = .ok block := by
  unfold checkBlock
  split_ifs
  · congr 1
    have hmap : block.map (fun b => if isPrintable b then b else 0x5F) = block.map id := by
      apply List.map_congr_left
      intro b hb
      simp [h b hb]
    rw [hmap, List.map_id]
  · have hnone : block.findIdx? (fun b => !isPrintable b) = none := by
      rw [List.findIdx?_eq_none_iff]
      intro b hb
      simp [h b hb]
    rw [hnone]

/-- The cards of a block of 36 padded cards. -/
theorem blockCards_flatMap {cards : List Card} (hlen : cards.length = 36)
    (htrim : ∀ card ∈ cards, trimEnd (padToCard card) = card) :
    blockCards (cards.flatMap padToCard) = cards := by
  apply List.ext_getElem?
  intro i
  rcases Nat.lt_or_ge i 36 with hi | hi
  · obtain ⟨card, hcard⟩ : ∃ card, cards[i]? = some card :=
      ⟨_, List.getElem?_eq_getElem (by omega)⟩
    have hslice := slice_flatMap (fun c _ => padToCard_length c) hcard
    have hrange : (List.range cardsPerBlock)[i]? = some i := by
      rw [List.getElem?_range (by simpa [cardsPerBlock, blockSize, cardSize] using hi)]
    rw [blockCards, List.getElem?_map, hrange, Option.map_some, cardSize, hslice, hcard,
      htrim card (List.mem_of_getElem? hcard)]
  · rw [List.getElem?_eq_none (by rw [blockCards_length]; omega),
      List.getElem?_eq_none (by omega)]

theorem pushCards_of_no_end {l : List Card} (h : endCard ∉ l) : pushCards l = (l, false) := by
  induction l with
  | nil => rfl
  | cons card rest ih =>
    have hcard : card ≠ str "END" := fun he => h (by simp [he, endCard])
    have hrest := ih (fun hm => h (List.mem_cons_of_mem _ hm))
    simp [pushCards, hcard, hrest]

theorem pushCards_of_end {body rest : List Card} (h : endCard ∉ body) :
    pushCards (body ++ endCard :: rest) = (body ++ [endCard], true) := by
  induction body with
  | nil => simp [pushCards, endCard]
  | cons card body ih =>
    have hcard : card ≠ str "END" := fun he => h (by simp [he, endCard])
    have hrest := ih (fun hm => h (List.mem_cons_of_mem _ hm))
    rw [List.cons_append, pushCards, if_neg hcard, hrest]
    rfl

theorem trimEnd_padToCard_nil : trimEnd (padToCard []) = [] := by decide

/-- The blocks of a clean header read back as its cards, appended to those that
were read before. -/
theorem readHeaderBlocks_serialize {lenient : Bool} {bytes : Bytes} {offset : Nat} :
    ∀ (left pos : Nat) (acc cards : List Card), CleanHeader cards →
      headerBlocks cards.length ≤ left →
      slice bytes pos (headerBlocks cards.length * 2880) = serializeHeaderToDiskBytes cards →
      readHeaderBlocks lenient bytes offset left pos acc = .ok (acc ++ cards) := by
  intro left
  induction left with
  | zero =>
    intro pos acc cards hclean hleft _
    obtain ⟨body, rfl, -⟩ := hclean.closed
    rw [headerBlocks_eq, List.length_append, List.length_singleton] at hleft
    omega
  | succ left ih =>
    intro pos acc cards hclean hleft hbytes
    obtain ⟨body, hbody, hend⟩ := hclean.closed
    have hprint := printable_serialize fun card hc => (hclean.clean card hc).printable
    have hblocks := headerBlocks_eq cards.length
    have hcount : cards.length = body.length + 1 := by simp [hbody]
    -- the first block is always a prefix of the serialized header
    have hblock : slice bytes pos blockSize = (serializeHeaderToDiskBytes cards).take 2880 := by
      rw [← hbytes, slice, slice, List.take_take, blockSize]
      congr 1
      omega
    have hprint' : ∀ b ∈ slice bytes pos blockSize, isPrintable b = true := by
      intro b hb
      rw [hblock] at hb
      exact hprint b (List.mem_of_mem_take hb)
    rw [readHeaderBlocks, checkBlock_of_printable hprint']
    dsimp only
    rcases Nat.lt_or_ge 36 cards.length with hmany | hfew
    · -- END lies beyond this block
      have hsplit : cards = cards.take 36 ++ cards.drop 36 := (List.take_append_drop 36 cards).symm
      have hfirst : (cards.take 36).length = 36 := by rw [List.length_take]; omega
      have hwidth := flatMap_length_of_width fun card (_ : card ∈ cards.take 36) =>
        padToCard_length card
      have htake : cards.take 36 = body.take 36 := by
        rw [hbody, List.take_append_of_le_length (by omega)]
      have hdrop : cards.drop 36 = body.drop 36 ++ [endCard] := by
        rw [hbody, List.drop_append_of_le_length (by omega)]
      have hnoend : endCard ∉ cards.take 36 := by
        rw [htake]
        exact fun hm => hend (List.mem_of_mem_take hm)
      have hser := serialize_append hfirst (cards.drop 36)
      rw [← hsplit] at hser
      have hcards : blockCards (slice bytes pos blockSize) = cards.take 36 := by
        rw [hblock, hser, List.take_append_of_le_length (by omega),
          List.take_of_length_le (by omega)]
        exact blockCards_flatMap hfirst fun card hc =>
          trimEnd_padToCard (hclean.clean card (List.mem_of_mem_take hc))
      rw [hcards, pushCards_of_no_end hnoend]
      simp only [Bool.false_eq_true, if_false]
      have hrest : CleanHeader (cards.drop 36) :=
        ⟨fun card hc => hclean.clean card (List.mem_of_mem_drop hc),
          body.drop 36, hdrop, fun hm => hend (List.mem_of_mem_drop hm)⟩
      have hlen : (cards.drop 36).length = cards.length - 36 := List.length_drop
      have hrestBlocks := headerBlocks_eq (cards.drop 36).length
      have htail : slice bytes (pos + blockSize) (headerBlocks (cards.drop 36).length * 2880) =
          serializeHeaderToDiskBytes (cards.drop 36) := by
        have hright : (serializeHeaderToDiskBytes cards).drop 2880 =
            serializeHeaderToDiskBytes (cards.drop 36) := by
          rw [hser]
          exact List.drop_left' (by omega)
        have hcut : headerBlocks (cards.drop 36).length * 2880 =
            headerBlocks cards.length * 2880 - 2880 := by omega
        rw [← hright, ← hbytes, slice, slice, List.drop_take, List.drop_drop, blockSize, hcut]
      rw [ih _ _ _ hrest (by omega) htail, List.append_assoc, List.take_append_drop]
    · -- END is in this block
      have hone : headerBlocks cards.length = 1 := by omega
      have hcards : blockCards (slice bytes pos blockSize) =
          cards ++ List.replicate (36 - cards.length) [] := by
        rw [hblock, List.take_of_length_le (by rw [serialize_length]; omega),
          serialize_eq_flatMap, hone]
        refine blockCards_flatMap (by simp; omega) fun card hc => ?_
        rcases List.mem_append.1 hc with hc | hc
        · exact trimEnd_padToCard (hclean.clean card hc)
        · rw [(List.mem_replicate.1 hc).2]
          exact trimEnd_padToCard_nil
      rw [hcards, hbody, List.append_assoc, List.singleton_append, pushCards_of_end hend]
      rfl

/-- A clean header that stands at `offset` reads back as its cards. -/
theorem readHeader_serialize {lenient : Bool} {bytes : Bytes} {offset : Nat} {cards : List Card}
    (hclean : CleanHeader cards)
    (hbytes : slice bytes offset (headerBlocks cards.length * 2880) =
      serializeHeaderToDiskBytes cards) :
    readHeader lenient bytes offset = .ok cards := by
  have hlen := congrArg List.length hbytes
  rw [slice_length, serialize_length] at hlen
  unfold readHeader blockSize
  refine readHeaderBlocks_serialize _ _ [] cards hclean ?_ hbytes
  omega

/-- A file that holds one clean header and nothing else. -/
theorem readHeader_serialize_self {lenient : Bool} {cards : List Card}
    (hclean : CleanHeader cards) :
    readHeader lenient (serializeHeaderToDiskBytes cards) 0 = .ok cards := by
  refine readHeader_serialize hclean ?_
  rw [slice, List.drop_zero, List.take_of_length_le]
  rw [serialize_length]

end RustFits
