import RustFits.Checksum.Cards
import RustFits.Header.Free

/-!
# The card of a checksum keyword

`set_or_insert_string_card` looks for the card of its keyword by the first bytes of
the card, as many as the keyword has.  The keyword of a card stands in its first eight
columns.

* `upsertFirst` replaces the first card that a test accepts.  Two tests that accept the
  new card have the same effect only if they pick the same card (`upsertFirst_eq_iff`).
* `setOrInsertStringCard_own_iff` follows: only its own card changes exactly when the
  first card that starts with the keyword is the first card of the keyword.
* For a keyword of eight letters this is always so
  (`sameFirst_of_eight_letters`).  Only DATASUM has seven.
-/

namespace RustFits.Checksum

open Ascii Header

/-! ## The first card that a test accepts -/

section

variable {α : Type} {p q : α → Bool} {new : α} {cards : List α}

/-- Replace the first card that the test accepts, or put the new card in front of the
last one. -/
def upsertFirst (p : α → Bool) (new : α) (cards : List α) : List α :=
  match cards.findIdx? p with
  | some i => cards.set i new
  | none => cards.insertIdx (cards.length - 1) new

/-- The two tests pick the same first card. -/
def SameFirst (p q : α → Bool) (cards : List α) : Prop := cards.findIdx? p = cards.findIdx? q

instance (p q : α → Bool) (cards : List α) : Decidable (SameFirst p q cards) :=
  inferInstanceAs (Decidable (_ = _))

/-- A card that a test accepts in front of its first card is the new one. -/
theorem le_of_set_eq {i j : Nat} (hi : cards.findIdx? p = some i) (hj : cards.findIdx? q = some j)
    (hnew : q new = true) (heq : cards.set i new = cards.set j new) : j ≤ i := by
  by_contra hlt
  have hlen := (List.findIdx?_eq_some_iff_getElem.1 hi).1
  have hget := congrArg (·[i]?) heq
  simp only [List.getElem?_set_self hlen] at hget
  rw [List.getElem?_set_ne (by omega), List.getElem?_eq_getElem hlen] at hget
  have hbefore := (List.findIdx?_eq_some_iff_getElem.1 hj).2.2 i (by omega)
  rw [← Option.some.inj hget] at hbefore
  exact hbefore hnew

/-- Replacing keeps the length, and inserting does not. -/
theorem set_ne_insertIdx (i : Nat) : cards.set i new ≠ cards.insertIdx (cards.length - 1) new := by
  intro heq
  have hlen := congrArg List.length heq
  rw [List.length_set, List.length_insertIdx, if_pos (by omega)] at hlen
  omega

theorem upsertFirst_eq_iff (hp : p new = true) (hq : q new = true) :
    upsertFirst p new cards = upsertFirst q new cards ↔ SameFirst p q cards := by
  unfold upsertFirst SameFirst
  cases hi : cards.findIdx? p with
  | none =>
    cases hj : cards.findIdx? q with
    | none => exact iff_of_true rfl rfl
    | some j => exact iff_of_false (fun heq => set_ne_insertIdx j heq.symm) (by simp)
  | some i =>
    cases hj : cards.findIdx? q with
    | none => exact iff_of_false (set_ne_insertIdx i) (by simp)
    | some j =>
      constructor
      · intro heq
        have hle := le_of_set_eq hi hj hq heq
        have hge := le_of_set_eq hj hi hp heq.symm
        rw [Nat.le_antisymm hge hle]
      · intro heq
        rw [Option.some.inj heq]

end

/-! ## The keyword field -/

section

variable {key value comment : Str} {cards newCards : List Card} {card : Card}

/-- The first eight columns hold the keyword, in any case. -/
def inKeywordField (key : Str) (card : Card) : Bool :=
  decide (toAsciiUppercase (trim (card.take 8)) = toAsciiUppercase key)

/-- The keywords of the two cards, in a plain HDU and in a compressed one. -/
def integrityKeys : List Str :=
  [str "DATASUM", str "CHECKSUM", str "ZDATASUM", str "ZHECKSUM"]

/-- Only the first card that is `own` has changed, or the card is a new one in front of
END because there was none. -/
def TouchesOwn (own : Card → Bool) (card : Card) (cards newCards : List Card) : Prop :=
  (∃ front old back, cards = front ++ old :: back ∧ (∀ c ∈ front, own c = false) ∧
      own old = true ∧ newCards = front ++ card :: back) ∨
    (∀ c ∈ cards, own c = false) ∧ newCards = cards.dropLast ++ [card, endCard]

theorem touchesOwn_iff {own : Card → Bool} (hend : cards.getLast? = some endCard) :
    TouchesOwn own card cards newCards ↔ newCards = upsertFirst own card cards := by
  have hsplit : cards = cards.dropLast ++ [endCard] := by
    have hne : cards ≠ [] := fun hnil => by simp [hnil] at hend
    rw [List.getLast?_eq_some_getLast hne] at hend
    rw [← Option.some.inj hend, List.dropLast_append_getLast hne]
  unfold TouchesOwn upsertFirst
  cases hfind : cards.findIdx? own with
  | none =>
    have hnone := List.findIdx?_eq_none_iff.1 hfind
    have hinsert : cards.insertIdx (cards.length - 1) card = cards.dropLast ++ [card, endCard] := by
      rw [insertIdx_eq_take_append_cons_drop (by omega), ← List.dropLast_eq_take]
      congr 2
      conv_lhs => rw [hsplit]
      simp
    rw [hinsert]
    constructor
    · rintro (⟨front, old, back, hcards, -, hold, -⟩ | ⟨-, hnew⟩)
      · have hmem := hnone old (by simp [hcards])
        rw [hold] at hmem
        exact absurd hmem (by simp)
      · exact hnew
    · exact fun hnew => Or.inr ⟨hnone, hnew⟩
  | some i =>
    obtain ⟨hi, hown, hbefore⟩ := List.findIdx?_eq_some_iff_getElem.1 hfind
    constructor
    · rintro (⟨front, old, back, rfl, hfront, hold, rfl⟩ | ⟨hnone, -⟩)
      · rw [List.findIdx?_append, List.findIdx?_eq_none_iff.2 hfront, List.findIdx?_cons, hold]
          at hfind
        have hidx : front.length = i := by simpa using hfind
        rw [← hidx]
        simp
      · rw [hnone _ (List.getElem_mem hi)] at hown
        exact absurd hown (by simp)
    · rintro rfl
      refine Or.inl ⟨cards.take i, cards[i], cards.drop (i + 1), ?_, ?_, hown, ?_⟩
      · rw [← List.drop_eq_getElem_cons hi, List.take_append_drop]
      · intro c hc
        obtain ⟨j, hj, rfl⟩ := List.getElem_of_mem hc
        rw [List.length_take] at hj
        rw [List.getElem_take]
        exact Bool.eq_false_iff.2 (hbefore j (by omega))
      · dsimp only
        rw [List.set_eq_take_append_cons_drop, if_pos hi]

/-- The keyword field stands at the front of the card, an equals sign behind it. -/
theorem trimEnd_cardString_front (hkey : key.length ≤ 8) (value comment : Str) :
    ∃ rest, trimEnd (cardString key value comment) = padRight 8 key ++ 0x3D :: rest := by
  obtain ⟨rest, hcard⟩ := cardString_value key value comment
  have hfield : (padRight 8 key).length = 8 := by
    rw [padRight_length]
    omega
  have htake : (padRight 8 key ++ 0x3D :: rest).take 80 = padRight 8 key ++ 0x3D ::
      rest.take 71 := by
    rw [List.take_append, hfield, List.take_of_length_le (by omega)]
    rfl
  rw [hcard, padToCard, cardSize, htake, padRight.eq_1 80, trimEnd_append_blanks,
    trimEnd_append (by decide)]
  exact ⟨_, rfl⟩

theorem isToken_integrityKey (hkey : key ∈ integrityKeys) : IsToken key ∧ key.length ≤ 8 := by
  simp only [integrityKeys, List.mem_cons, List.not_mem_nil, or_false] at hkey
  rcases hkey with rfl | rfl | rfl | rfl <;> decide

/-- The new card is found by both tests. -/
theorem own_of_cardString (hkey : key ∈ integrityKeys) (value comment : Str) :
    hasKeyword key (trimEnd (cardString key value comment)) = true ∧
      inKeywordField key (trimEnd (cardString key value comment)) = true := by
  obtain ⟨htoken, hlen⟩ := isToken_integrityKey hkey
  obtain ⟨rest, hcard⟩ := trimEnd_cardString_front hlen value comment
  have hpad : padRight 8 key = key ++ List.replicate (8 - key.length) blank := rfl
  constructor
  · have htake : (trimEnd (cardString key value comment)).take key.length = key := by
      rw [hcard, hpad]
      simp only [List.append_assoc, List.take_left]
    have hle : key.length ≤ (trimEnd (cardString key value comment)).length := by
      rw [hcard, hpad]
      simp only [List.length_append]
      omega
    rw [hasKeyword, htake, trim_of_isToken htoken, decide_eq_true hle, decide_eq_true rfl]
    rfl
  · have htake : (trimEnd (cardString key value comment)).take 8 = padRight 8 key := by
      rw [hcard]
      apply List.take_left'
      rw [padRight_length, Nat.max_eq_left hlen]
    rw [inKeywordField, htake, hpad, trim_append_blanks, trim_of_isToken htoken]
    exact decide_eq_true rfl

/-- Only the card of the keyword changes exactly when the first card that starts with
the keyword is the first card with that keyword. -/
theorem setOrInsertStringCard_own_iff (hend : cards.getLast? = some endCard)
    (hkey : key ∈ integrityKeys) (value comment : Str) :
    TouchesOwn (inKeywordField key) (trimEnd (cardString key value comment)) cards
        (setOrInsertStringCard cards key value comment) ↔
      SameFirst (hasKeyword key) (inKeywordField key) cards := by
  obtain ⟨hstarts, hfield⟩ := own_of_cardString hkey value comment
  rw [touchesOwn_iff hend, ← upsertFirst_eq_iff hstarts hfield]
  rfl

/-- The first bytes of the card are the keyword field. -/
theorem sameFirst_of_eight_letters (hlen : key.length = 8) (cards : List Card) :
    SameFirst (hasKeyword key) (inKeywordField key) cards := by
  have hsame : hasKeyword key = inKeywordField key := by
    funext card
    rw [hasKeyword, inKeywordField, hlen, Bool.and_eq_right_iff_imp, decide_eq_true_eq,
      decide_eq_true_eq]
    intro hupper
    -- a shorter card has a shorter keyword
    have hlength := congrArg List.length hupper
    have htrim : (trim (card.take 8)).length ≤ (card.take 8).length :=
      ((List.rdropWhile_prefix _ _).sublist.trans (List.dropWhile_suffix _).sublist).length_le
    simp only [toAsciiUppercase, List.length_map, List.length_take] at hlength htrim
    omega
  rw [SameFirst, hsame]

end

end RustFits.Checksum
