import Mathlib.Data.List.Infix
import RustFits.Header.Steps

/-!
# The cards of a key

`blocks q cards` lists the cards whose key has the property `q`, each with the
CONTINUE cards that follow it, and `KeepsBlocks q` compares two card lists by it.

A change under one key keeps the cards of all others (`keepsCards_cardEdit`).  It keeps
their CONTINUE cards too, unless it deletes cards in front of a stray CONTINUE card,
one that `find_chain_end` does not count: then that card moves up behind another key
(`strayBehind`).  `keepsBlocks_run` is the result for a method.
-/

namespace RustFits

open Ascii ByteFile Machine

namespace Header

/-- The card continues the one in front of it. -/
def isContinue (card : Card) : Bool := continueKey.isPrefixOf (trimEnd card)

/-- The CONTINUE cards at the front of the list. -/
def continuation (cards : List Card) : List Card := cards.takeWhile isContinue

/-- The cards whose key has the property, in their order, each with its CONTINUE
cards. -/
def blocks (q : Str → Bool) : List Card → List (Card × List Card)
  | [] => []
  | card :: rest =>
    if (cardKey card).any q then (card, continuation rest) :: blocks q rest else blocks q rest

/-- The cards with the property are the same ones in the same order. -/
def KeepsCards (q : Str → Bool) (cards cards' : List Card) : Prop :=
  cards'.filter (fun c => (cardKey c).any q) = cards.filter fun c => (cardKey c).any q

/-- They are the same ones in the same order, each with its CONTINUE cards. -/
def KeepsBlocks (q : Str → Bool) (cards cards' : List Card) : Prop :=
  blocks q cards' = blocks q cards

variable {q : Str → Bool}

theorem KeepsCards.refl (q : Str → Bool) (cards : List Card) : KeepsCards q cards cards := rfl

theorem KeepsCards.trans {a b c : List Card} (h : KeepsCards q a b) (h' : KeepsCards q b c) :
    KeepsCards q a c := Eq.trans h' h

theorem KeepsBlocks.refl (q : Str → Bool) (cards : List Card) : KeepsBlocks q cards cards := rfl

theorem KeepsBlocks.trans {a b c : List Card} (h : KeepsBlocks q a b) (h' : KeepsBlocks q b c) :
    KeepsBlocks q a c := Eq.trans h' h

theorem map_fst_blocks (q : Str → Bool) (cards : List Card) :
    (blocks q cards).map Prod.fst = cards.filter fun c => (cardKey c).any q := by
  induction cards with
  | nil => rfl
  | cons card rest ih =>
    rw [blocks]
    split_ifs with hq
    · simp [hq, ih]
    · simp [hq, ih]

theorem KeepsBlocks.keepsCards {cards cards' : List Card} (h : KeepsBlocks q cards cards') :
    KeepsCards q cards cards' := by
  unfold KeepsCards
  rw [← map_fst_blocks, ← map_fst_blocks, h]

/-- A card with a protected keyword in its keyword field. -/
theorem cardKey_of_field {key : Str} {card : Card} (hkey : isProtectedKey key = true)
    (hfield : trim (card.take 8) = key) : cardKey card = some key := by
  have hlen : key.length ≤ 8 := by
    rw [← hfield]
    exact ((List.rdropWhile_prefix isWhitespace _).sublist.trans
      (List.dropWhile_suffix _).sublist).length_le.trans (List.length_take_le 8 card)
  have hword : keywordOf card = some key := by
    unfold keywordOf
    dsimp only
    rw [trim_take_trimEnd, hfield, if_neg, if_neg]
    · rintro rfl
      exact absurd hkey (by decide)
    · intro hempty
      rw [← trim_take_trimEnd, List.isEmpty_iff.1 hempty] at hfield
      exact (isProtectedKey_chars hkey).1 hfield.symm
  rw [cardKey_of_keywordOf hword, normalizeKeyword_of_isProtectedKey hkey hlen]

/-! ## Stray CONTINUE cards -/

/-- The first card continues something. -/
def startsWithContinue (cards : List Card) : Bool := cards.head?.any isContinue

/-- A CONTINUE card stands behind one of these cards. -/
def strayBehindAny (p : Card → Bool) : List Card → Bool
  | [] => false
  | card :: rest => (p card && startsWithContinue rest) || strayBehindAny p rest

/-- A CONTINUE card stands right behind the cards that a deletion of the key takes away. -/
def strayBehind (key : Str) (cards : List Card) : Bool :=
  if isCommentaryKey key then strayBehindAny (cardMatchesCommentaryKeyword key) cards
  else
    match cards.findIdx? (matchesKey key) with
    | none => false
    | some start => startsWithContinue (cards.drop (findChainEnd cards start))

/-- Deleting OBJECT would leave its CONTINUE card to the card in front of it. -/
example : strayBehind (str "OBJECT") [str "OBJECT  = 'M31     '", str "CONTINUE  'x'",
    endCard] = true := by
  decide +kernel

theorem startsWithContinue_append {new back : List Card}
    (hnew : ∀ c ∈ new, isContinue c = false) (hback : startsWithContinue back = false) :
    startsWithContinue (new ++ back) = false := by
  cases new with
  | nil => exact hback
  | cons card rest => exact hnew card List.mem_cons_self

theorem continuation_eq_nil {cards : List Card} (h : startsWithContinue cards = false) :
    continuation cards = [] := by
  cases cards with
  | nil => rfl
  | cons card rest =>
    have hcard : isContinue card = false := h
    rw [continuation, List.takeWhile_cons_of_neg (by simp [hcard])]

/-! ## Lists of cards -/

/-- Cards without the property are replaced. -/
theorem keepsCards_replace {front old new back : List Card}
    (hold : ∀ c ∈ old, (cardKey c).any q = false) (hnew : ∀ c ∈ new, (cardKey c).any q = false) :
    KeepsCards q (front ++ old ++ back) (front ++ new ++ back) := by
  have hnone : ∀ l : List Card, (∀ c ∈ l, (cardKey c).any q = false) →
      l.filter (fun c => (cardKey c).any q) = [] :=
    fun l hl => List.filter_eq_nil_iff.2 fun c hc => by simp [hl c hc]
  simp only [KeepsCards, List.filter_append, hnone old hold, hnone new hnew]

/-- The blocks are kept, and the CONTINUE cards at the front with them. -/
def KeepsFront (q : Str → Bool) (cards cards' : List Card) : Prop :=
  KeepsBlocks q cards cards' ∧ continuation cards' = continuation cards

theorem KeepsFront.cons (card : Card) {cards cards' : List Card} (h : KeepsFront q cards cards') :
    KeepsFront q (card :: cards) (card :: cards') := by
  have hblocks : blocks q cards' = blocks q cards := h.1
  have hfront : cards'.takeWhile isContinue = cards.takeWhile isContinue := h.2
  constructor
  · unfold KeepsBlocks
    rw [blocks, blocks, hblocks, h.2]
  · unfold continuation
    rw [List.takeWhile_cons, List.takeWhile_cons, hfront]

theorem KeepsFront.append (front : List Card) {cards cards' : List Card}
    (h : KeepsFront q cards cards') : KeepsFront q (front ++ cards) (front ++ cards') := by
  induction front with
  | nil => exact h
  | cons card front ih => exact ih.cons card

/-- Cards without the property make no blocks. -/
theorem blocks_append {front : List Card} (hfront : ∀ c ∈ front, (cardKey c).any q = false)
    (cards : List Card) : blocks q (front ++ cards) = blocks q cards := by
  induction front with
  | nil => rfl
  | cons card front ih =>
    rw [List.cons_append, blocks, hfront card List.mem_cons_self, if_neg (by decide)]
    exact ih fun c hc => hfront c (List.mem_cons_of_mem card hc)

/-- Cards without the property are replaced, where nothing is continued before or
after. -/
theorem keepsFront_replace {old new back : List Card}
    (hold : ∀ c ∈ old, (cardKey c).any q = false) (hnew : ∀ c ∈ new, (cardKey c).any q = false)
    (holdHead : startsWithContinue (old ++ back) = false)
    (hnewHead : startsWithContinue (new ++ back) = false) :
    KeepsFront q (old ++ back) (new ++ back) := by
  constructor
  · unfold KeepsBlocks
    rw [blocks_append hold, blocks_append hnew]
  · rw [continuation_eq_nil holdHead, continuation_eq_nil hnewHead]

/-- Cards are deleted that neither have the property nor are CONTINUE cards, and have no
CONTINUE card behind them. -/
theorem keepsFront_filter {p : Card → Bool} {cards : List Card}
    (hp : ∀ c ∈ cards, p c = true → (cardKey c).any q = false ∧ isContinue c = false)
    (hstray : strayBehindAny p cards = false) :
    KeepsFront q cards (cards.filter fun c => !p c) := by
  induction cards with
  | nil => exact ⟨KeepsBlocks.refl q [], rfl⟩
  | cons card rest ih =>
    rw [strayBehindAny, Bool.or_eq_false_iff] at hstray
    have hrest := ih (fun c hc => hp c (List.mem_cons_of_mem card hc)) hstray.2
    cases hc : p card with
    | false =>
      rw [List.filter_cons_of_pos (by simp [hc])]
      exact hrest.cons card
    | true =>
      obtain ⟨hfree, hcontinue⟩ := hp card List.mem_cons_self hc
      have hbehind : continuation rest = [] := continuation_eq_nil (by simpa [hc] using hstray.1)
      rw [List.filter_cons_of_neg (by simp [hc])]
      constructor
      · unfold KeepsBlocks
        rw [blocks, hfree, if_neg (by decide)]
        exact hrest.1
      · rw [hrest.2, hbehind]
        have hnil : continuation (card :: rest) = [] := continuation_eq_nil hcontinue
        exact hnil.symm

/-! ## One change -/

theorem not_isContinue_of_cardKey {key : Str} {card : Card} (hkey : key ≠ continueKey)
    (h : cardKey card = some key) : isContinue card = false := by
  rw [Bool.eq_false_iff]
  intro hc
  rw [cardKey_continue hc] at h
  exact hkey (Option.some.inj h).symm

theorem not_isContinue_of_matchesKey {key : Str} {card : Card} (h : matchesKey key card = true) :
    isContinue card = false := by
  rw [Bool.eq_false_iff]
  intro hc
  unfold matchesKey at h
  rw [keywordOf_continue hc] at h
  simp only [show skippedKeys.contains continueKey = true from by decide] at h
  cases h

section

variable {key : Str} {cards cards' : List Card} (hcontinue : q continueKey = false)
  (hq : q key = false)

include hcontinue in
theorem any_of_isContinue {card : Card} (h : isContinue card = true) :
    (cardKey card).any q = false := by
  rw [cardKey_continue h]
  exact hcontinue

include hcontinue hq

theorem any_of_written {card : Card} (h : Written key card) : (cardKey card).any q = false := by
  rcases h.cardKey with h | h | h
  · rw [h]
    exact hq
  · rw [h]
    exact hcontinue
  · rw [h]
    rfl

/-- The cards that a method finds for the key. -/
theorem matched_split {start : Nat} (hstart : cards.findIdx? (matchesKey key) = some start) :
    ∃ card chain, cards = cards.take start ++ (card :: chain) ++
        cards.drop (findChainEnd cards start) ∧ isContinue card = false ∧
      ∀ c ∈ card :: chain, (cardKey c).any q = false := by
  obtain ⟨hlt, hmatch, -⟩ := List.findIdx?_eq_some_iff_getElem.1 hstart
  obtain ⟨chain, hsplit, hchain⟩ := chain_split hlt
  refine ⟨cards[start], chain, hsplit, not_isContinue_of_matchesKey hmatch, fun c hc => ?_⟩
  rcases List.mem_cons.1 hc with rfl | hc
  · rw [cardKey_of_matchesKey hmatch]
    exact hq
  · exact any_of_isContinue hcontinue (hchain c hc)

theorem keepsFront_replaceMatched {start : Nat} {new : List Card}
    (hstart : cards.findIdx? (matchesKey key) = some start)
    (hnew : ∀ c ∈ new, (cardKey c).any q = false)
    (hhead : startsWithContinue (new ++ cards.drop (findChainEnd cards start)) = false) :
    KeepsFront q cards (spliceCards start (findChainEnd cards start) new cards) := by
  obtain ⟨card, chain, hsplit, hcard, hfree⟩ := matched_split hcontinue hq hstart
  have hfront : KeepsFront q (card :: chain ++ cards.drop (findChainEnd cards start))
      (new ++ cards.drop (findChainEnd cards start)) :=
    keepsFront_replace hfree hnew hcard hhead
  have happ := hfront.append (cards.take start)
  rw [← List.append_assoc, ← hsplit] at happ
  rw [spliceCards, List.append_assoc]
  exact happ

theorem keepsCards_replaceMatched {start : Nat} {new : List Card}
    (hstart : cards.findIdx? (matchesKey key) = some start)
    (hnew : ∀ c ∈ new, (cardKey c).any q = false) :
    KeepsCards q cards (spliceCards start (findChainEnd cards start) new cards) := by
  obtain ⟨card, chain, hsplit, -, hfree⟩ := matched_split hcontinue hq hstart
  have hreplace : KeepsCards q
      (cards.take start ++ (card :: chain) ++ cards.drop (findChainEnd cards start))
      (cards.take start ++ new ++ cards.drop (findChainEnd cards start)) :=
    keepsCards_replace hfree hnew
  rw [← hsplit] at hreplace
  exact hreplace

omit hcontinue hq in
theorem keepsCards_insert {new : List Card} (hnew : ∀ c ∈ new, (cardKey c).any q = false)
    (pos : Nat) : KeepsCards q cards (spliceCards pos pos new cards) := by
  have hinsert : KeepsCards q (cards.take pos ++ [] ++ cards.drop pos)
      (cards.take pos ++ new ++ cards.drop pos) := keepsCards_replace (by simp) hnew
  rw [List.append_nil, List.take_append_drop] at hinsert
  exact hinsert

omit hcontinue hq in
theorem startsWithContinue_end : startsWithContinue (cards.drop (endPosition cards)) = false := by
  unfold startsWithContinue
  rw [List.head?_drop]
  unfold endPosition
  cases hend : cards.findIdx? fun c => decide (trimEnd c = endCard) with
  | none => rw [Option.getD_none, List.getElem?_eq_none (Nat.le_refl _), Option.any_none]
  | some pos =>
    obtain ⟨hlt, hmatch, -⟩ := List.findIdx?_eq_some_iff_getElem.1 hend
    rw [Option.getD_some, List.getElem?_eq_getElem hlt, Option.any_some, isContinue,
      of_decide_eq_true hmatch]
    decide

omit hcontinue hq in
/-- Cards without the property go in in front of END. -/
theorem keepsFront_insertEnd {new : List Card} (hnew : ∀ c ∈ new, (cardKey c).any q = false)
    (hhead : startsWithContinue (new ++ cards.drop (endPosition cards)) = false) :
    KeepsFront q cards (spliceCards (endPosition cards) (endPosition cards) new cards) := by
  have hfront : KeepsFront q ([] ++ cards.drop (endPosition cards))
      (new ++ cards.drop (endPosition cards)) :=
    keepsFront_replace (by simp) hnew startsWithContinue_end hhead
  have happ := hfront.append (cards.take (endPosition cards))
  rw [List.nil_append, List.take_append_drop] at happ
  rw [spliceCards, List.append_assoc]
  exact happ

omit hcontinue in
/-- A commentary card of the key. -/
theorem any_of_commentary {card : Card} (hkey : isCommentaryKey key = true)
    (h : cardMatchesCommentaryKeyword key card = true) :
    (cardKey card).any q = false ∧ isContinue card = false := by
  have hfield : (trimEnd card).isEmpty = false ∧ trim ((trimEnd card).take 8) = key := by
    unfold cardMatchesCommentaryKeyword at h
    dsimp only at h
    split_ifs at h with hempty
    · rw [Bool.and_eq_true, decide_eq_true_eq] at h
      refine ⟨?_, by rw [List.isEmpty_iff.1 hempty, List.isEmpty_iff.1 h.2]⟩
      rw [Bool.eq_false_iff, Ne, List.isEmpty_iff]
      intro hnil
      rw [hnil] at h
      exact absurd h.1 (by decide)
    · simpa using h
  have hform : key ≠ hierarchKey ∧ key ≠ continueKey ∧ normalizeKeyword key = key := by
    simp only [isCommentaryKey, Bool.or_eq_true, decide_eq_true_eq, List.isEmpty_iff] at hkey
    rcases hkey with (rfl | rfl) | rfl <;> decide
  have hcard : cardKey card = some key := by
    have hword : keywordOf card = some key := by
      unfold keywordOf
      dsimp only
      rw [hfield.1, if_neg (by decide), hfield.2, if_neg hform.1]
    rw [cardKey_of_keywordOf hword, hform.2.2]
  refine ⟨?_, not_isContinue_of_cardKey hform.2.1 hcard⟩
  rw [hcard]
  exact hq

omit hcontinue in
/-- The cards that a text of commentary becomes. -/
theorem commentaryCards_free (text : Str) (hkey : isCommentaryKey key = true) :
    ∀ c ∈ (makeCommentaryCards key text).map trimEnd,
      (cardKey c).any q = false ∧ isContinue c = false := by
  intro c hc
  obtain ⟨d, hd, rfl⟩ := List.mem_map.1 hc
  have hne : key ≠ continueKey := by
    rintro rfl
    exact absurd hkey (by decide)
  rcases cardKey_of_commentary hkey d hd with hcard | hcard
  · refine ⟨?_, not_isContinue_of_cardKey hne hcard⟩
    rw [hcard]
    exact hq
  · refine ⟨by rw [hcard, Option.any_none], ?_⟩
    rw [Bool.eq_false_iff]
    intro hcont
    rw [cardKey_continue hcont] at hcard
    cases hcard

omit hcontinue in
/-- Commentary cards go in behind the last one of their keyword. -/
theorem keepsFront_appendCommentary (text : Str) (hkey : isCommentaryKey key = true) :
    KeepsFront q cards (appendCommentaryToCards cards key text) := by
  have hnew := commentaryCards_free (q := q) hq text hkey
  unfold appendCommentaryToCards commentaryPosition
  cases hlast : cards.reverse.findIdx? (cardMatchesCommentaryKeyword key) with
  | none =>
    exact keepsFront_insertEnd (fun c hc => (hnew c hc).1)
      (startsWithContinue_append (fun c hc => (hnew c hc).2) startsWithContinue_end)
  | some i =>
    obtain ⟨hlt, hmatch, -⟩ := List.findIdx?_eq_some_iff_getElem.1 hlast
    rw [List.length_reverse] at hlt
    rw [List.getElem_reverse] at hmatch
    obtain ⟨hfree, hend⟩ := any_of_commentary hq hkey hmatch
    have hpos : cards.length - i = cards.length - 1 - i + 1 := by omega
    -- the last card of the keyword and the cards behind it, with the new ones between
    have hfront : KeepsFront q ([cards[cards.length - 1 - i]] ++ cards.drop (cards.length - i))
        (cards[cards.length - 1 - i] :: (makeCommentaryCards key text).map trimEnd ++
          cards.drop (cards.length - i)) :=
      keepsFront_replace (by simpa using hfree)
        (List.forall_mem_cons.2 ⟨hfree, fun c hc => (hnew c hc).1⟩) hend hend
    have happ := hfront.append (cards.take (cards.length - 1 - i))
    have htake : cards.take (cards.length - i) =
        cards.take (cards.length - 1 - i) ++ [cards[cards.length - 1 - i]] := by
      rw [hpos, List.take_succ_eq_append_getElem]
    have hcards : cards.take (cards.length - 1 - i) ++
        ([cards[cards.length - 1 - i]] ++ cards.drop (cards.length - i)) = cards := by
      rw [hpos, List.singleton_append, List.getElem_cons_drop, List.take_append_drop]
    dsimp only
    rw [spliceCards, htake, List.append_assoc, List.append_assoc]
    rw [hcards] at happ
    exact happ

/-- The cards of a call, as they go in. -/
theorem any_of_set {first : Card} {more : List Card}
    (hnew : ∀ c ∈ first :: more, Written key (trimEnd c)) :
    ∀ c ∈ (first :: more).map trimEnd, (cardKey c).any q = false := by
  intro c hc
  obtain ⟨d, hd, rfl⟩ := List.mem_map.1 hc
  exact any_of_written hcontinue hq (hnew d hd)

/-- A change under a key without the property keeps the cards with it. -/
theorem keepsCards_cardEdit {deletes : Bool} (h : CardEdit deletes key cards cards') :
    KeepsCards q cards cards' := by
  cases h with
  | set first more hkey hfirst hnew =>
    unfold setCardForKey
    dsimp only
    split
    · rename_i start hstart
      exact keepsCards_replaceMatched hcontinue hq hstart (any_of_set hcontinue hq hnew)
    · exact keepsCards_insert (any_of_set hcontinue hq hnew) _
  | delete kept hdeletes hkey hdel =>
    obtain ⟨start, hstart, rfl⟩ := Option.map_eq_some_iff.1 hdel
    exact keepsCards_replaceMatched hcontinue hq hstart (by simp)
  | deleteCommentary hdeletes hkey =>
    unfold KeepsCards deleteCommentaryCards
    rw [List.filter_filter]
    refine List.filter_congr fun c _ => ?_
    cases hc : cardMatchesCommentaryKeyword key c with
    | false => simp
    | true => simp [(any_of_commentary hq hkey hc).1]
  | appendCommentary text hkey =>
    exact keepsCards_insert (fun c hc => (commentaryCards_free hq text hkey c hc).1) _

/-- A change that deletes nothing keeps the CONTINUE cards behind them too. -/
theorem keepsBlocks_cardEdit (hkey : key ≠ continueKey) (h : CardEdit false key cards cards') :
    KeepsBlocks q cards cards' := by
  cases h with
  | set first more hfree hfirst hnew =>
    have hhead : isContinue (trimEnd first) = false := not_isContinue_of_cardKey hkey hfirst
    unfold setCardForKey
    dsimp only
    split
    · rename_i start hstart
      exact (keepsFront_replaceMatched hcontinue hq hstart (any_of_set hcontinue hq hnew) hhead).1
    · exact (keepsFront_insertEnd (any_of_set hcontinue hq hnew) hhead).1
  | delete kept hdeletes hkey hdel => cases hdeletes
  | deleteCommentary hdeletes hkey => cases hdeletes
  | appendCommentary text hkey => exact (keepsFront_appendCommentary hq text hkey).1

/-- So does a deletion that leaves no stray CONTINUE card. -/
theorem keepsBlocks_delete {kept : List Card} (hcom : isCommentaryKey key = false)
    (hstray : strayBehind key cards = false) (hdel : deleteCardForKey cards key = some kept) :
    KeepsBlocks q cards kept := by
  obtain ⟨start, hstart, rfl⟩ := Option.map_eq_some_iff.1 hdel
  unfold strayBehind at hstray
  rw [hcom, if_neg (by decide), hstart] at hstray
  exact (keepsFront_replaceMatched hcontinue hq hstart (by simp) hstray).1

omit hcontinue in
theorem keepsBlocks_deleteCommentary (hcom : isCommentaryKey key = true)
    (hstray : strayBehind key cards = false) :
    KeepsBlocks q cards (deleteCommentaryCards cards key) := by
  unfold strayBehind at hstray
  rw [hcom, if_pos rfl] at hstray
  exact (keepsFront_filter (fun c _ hc => any_of_commentary hq hcom hc) hstray).1

end

/-! ## Methods -/

/-- The method leaves every CONTINUE card to the card it follows: it deletes nothing in
front of a stray one, and it writes no card under the keyword CONTINUE. -/
def HeaderMethod.StrayFree {F : Type} (floats : Floats F) (cards : List Card) :
    HeaderMethod F → Prop
  | .delItem key => strayBehind (normalizeKeyword key) cards = false
  | m => continueKey ∉ m.keys floats

section

variable {F : Type} {floats : Floats F} {keys : List Str} {cards cards' : List Card}
  (hcontinue : q continueKey = false)

include hcontinue

/-- Changes under keys without the property keep the cards with it. -/
theorem keepsCards_cardEdits {deletes : Bool}
    (hkeys : ∀ key ∈ keys, isProtectedKey key = false → q key = false)
    (h : CardEdits deletes keys cards cards') : KeepsCards q cards cards' := by
  induction h with
  | refl => exact KeepsCards.refl q cards
  | tail _ hedit ih =>
    obtain ⟨key, hkey, hedit⟩ := hedit
    exact ih.trans (keepsCards_cardEdit hcontinue (hkeys key hkey hedit.unprotected) hedit)

theorem keepsBlocks_cardEdits
    (hkeys : ∀ key ∈ keys, isProtectedKey key = false → q key = false) (hnot : continueKey ∉ keys)
    (h : CardEdits false keys cards cards') : KeepsBlocks q cards cards' := by
  induction h with
  | refl => exact KeepsBlocks.refl q cards
  | tail _ hedit ih =>
    obtain ⟨key, hkey, hedit⟩ := hedit
    have hne : key ≠ continueKey := fun heq => hnot (heq ▸ hkey)
    exact ih.trans (keepsBlocks_cardEdit hcontinue (hkeys key hkey hedit.unprotected) hne hedit)

/-- A method keeps the cards of all keys but its own. -/
theorem keepsCards_run (m : HeaderMethod F)
    (hkeys : ∀ key ∈ m.keys floats, isProtectedKey key = false → q key = false) :
    match m.run floats cards with
    | .ok _ cards' => KeepsCards q cards cards'
    | .error _ cards' => KeepsCards q cards cards' := by
  have hrun := performs_run floats m cards cards (CardEdits.refl _ _ cards)
  cases hresult : m.run floats cards with
  | ok a cards' =>
    rw [hresult] at hrun
    exact keepsCards_cardEdits hcontinue hkeys hrun
  | error e cards' =>
    rw [hresult] at hrun
    exact keepsCards_cardEdits hcontinue hkeys hrun

omit hcontinue in
theorem run_delItem (key : Str) : (HeaderMethod.delItem key).run floats cards =
    match headerDelItem key cards with
    | .ok _ kept => .ok true kept
    | .error e kept => .error e kept := by
  show EStateM.bind (headerDelItem key) _ cards = _
  unfold EStateM.bind
  cases headerDelItem key cards <;> rfl

/-- It keeps their CONTINUE cards too when it leaves no stray one. -/
theorem keepsBlocks_run (m : HeaderMethod F)
    (hkeys : ∀ key ∈ m.keys floats, isProtectedKey key = false → q key = false)
    (hstray : m.StrayFree floats cards) :
    match m.run floats cards with
    | .ok _ cards' => KeepsBlocks q cards cards'
    | .error _ cards' => KeepsBlocks q cards cards' := by
  by_cases hdeletes : ∃ key, m = .delItem key
  · obtain ⟨key, rfl⟩ := hdeletes
    have hkey := hkeys (normalizeKeyword key) (by simp [HeaderMethod.keys])
    rw [run_delItem]
    rcases headerDelItem_cases key cards with
      ⟨e, hrun⟩ | ⟨hfree, ⟨hcom, hrun⟩ | ⟨hcom, kept, hdel, hrun⟩⟩
    · rw [hrun]
      exact KeepsBlocks.refl q cards
    · rw [hrun]
      exact keepsBlocks_deleteCommentary (hkey hfree) hcom hstray
    · rw [hrun]
      exact keepsBlocks_delete hcontinue (hkey hfree) hcom hstray hdel
  · have hwrites : m.deletes = false ∧ continueKey ∉ m.keys floats := by
      cases m with
      | delItem key => exact absurd ⟨key, rfl⟩ hdeletes
      | _ => exact ⟨rfl, hstray⟩
    have hrun := performs_run floats m cards cards (CardEdits.refl _ _ cards)
    rw [hwrites.1] at hrun
    cases hresult : m.run floats cards with
    | ok a cards' =>
      rw [hresult] at hrun
      exact keepsBlocks_cardEdits hcontinue hkeys hwrites.2 hrun
    | error e cards' =>
      rw [hresult] at hrun
      exact keepsBlocks_cardEdits hcontinue hkeys hwrites.2 hrun

end

end Header

end RustFits
