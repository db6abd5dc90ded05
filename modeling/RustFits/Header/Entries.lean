import RustFits.Header.ViewsAgree

/-!
# The entries of a header

A string value goes on over CONTINUE cards.  The reader of values follows such a chain
in one way, `find_chain_end` of the mutating methods in another.

* `Reading` is the state of the reader between two cards, `joins` says that it takes the
  next card as a continuation.  `attached` lists for every card the keyword it is joined
  to.
* `joinedLength` counts the cards that the reader joins; it is the number that the
  loops of the source step over (`joinedLength_eq`).
* `ContinuesClean` is the condition under which `find_chain_end` finds the same number
  (`chainLength_eq_iff`).
-/

namespace RustFits.Header

open Ascii

/-! ## The reader between two cards -/

/-- A string value that may go on: its keyword and its text so far. -/
abbrev Reading := Option (Str × Str)

/-- The text of a well-formed continuation card. -/
def continuationText (card : Card) : Option Str :=
  let raw := (splitValueComment (afterKeyword (trimEnd card))).1
  if continueKey.isPrefixOf (trimEnd card) && isQuoted raw then
    some (extractFitsString raw) else none

/-- The reader joins the card. -/
def joins (r : Reading) (card : Card) : Bool :=
  match r with
  | some (_, s) => s.getLast? == some 0x26 && (continuationText card).isSome
  | none => false

/-- The reading that a card starts. -/
def startReading (card : Card) : Reading :=
  match dictKeyword card with
  | some (keyword, value) =>
    if isQuoted (splitValueComment value).1 then
      some (keyword, extractFitsString (splitValueComment value).1)
    else none
  | none => none

/-- The reading behind a card. -/
def nextReading (r : Reading) (card : Card) : Reading :=
  if joins r card then
    match r, continuationText card with
    | some (keyword, s), some segment => some (keyword, s.dropLast ++ segment)
    | _, _ => none
  else startReading card

/-- The keyword that every card is joined to. -/
def attached : Reading → List Card → List (Option Str)
  | _, [] => []
  | r, card :: rest =>
    (if joins r card then r.map Prod.fst else none) :: attached (nextReading r card) rest

/-- The number of cards that the reader joins. -/
def joinedLength : Reading → List Card → Nat
  | _, [] => 0
  | r, card :: rest => if joins r card then joinedLength (nextReading r card) rest + 1 else 0

section

variable {r : Reading} {card : Card} {cards rest : List Card} {keyword s : Str}

theorem attached_append (r : Reading) (a b : List Card) :
    attached r (a ++ b) = attached r a ++ attached (a.foldl nextReading r) b := by
  induction a generalizing r with
  | nil => rfl
  | cons card a ih =>
    rw [List.cons_append, attached, attached, ih, List.foldl_cons, List.cons_append]

theorem attached_length (r : Reading) (cards : List Card) :
    (attached r cards).length = cards.length := by
  induction cards generalizing r with
  | nil => rfl
  | cons card cards ih => rw [attached, List.length_cons, ih, List.length_cons]

theorem joins_some (h : joins r card = true) :
    ∃ keyword s segment, r = some (keyword, s) ∧ s.getLast? = some 0x26 ∧
      continuationText card = some segment ∧ nextReading r card =
        some (keyword, s.dropLast ++ segment) := by
  cases r with
  | none => cases h
  | some x =>
    obtain ⟨keyword, s⟩ := x
    have hjoin := h
    rw [joins, Bool.and_eq_true, beq_iff_eq] at h
    obtain ⟨segment, hsegment⟩ := Option.isSome_iff_exists.1 h.2
    refine ⟨keyword, s, segment, rfl, h.1, hsegment, ?_⟩
    unfold nextReading
    rw [if_pos hjoin, hsegment]

theorem nextReading_of_not_joins (h : joins r card = false) :
    nextReading r card = startReading card := by
  unfold nextReading
  rw [h]
  rfl

/-- Behind a card that is not joined the reader has forgotten what it read. -/
theorem attached_of_not_joins (h : ∀ c ∈ cards.head?, joins r c = false) :
    attached r cards = attached none cards := by
  cases cards with
  | nil => rfl
  | cons card rest =>
    have hcard := h card rfl
    have hnone : joins none card = false := rfl
    rw [attached, attached, nextReading_of_not_joins hcard, nextReading_of_not_joins hnone, hcard,
      hnone]
    rfl

/-- The cards that are joined are attached to the keyword, and the others are read as if
nothing stood in front. -/
theorem attached_joined (r : Reading) (cards : List Card) :
    attached r cards = List.replicate (joinedLength r cards) (r.map Prod.fst) ++
      attached none (cards.drop (joinedLength r cards)) := by
  induction cards generalizing r with
  | nil => rfl
  | cons card rest ih =>
    rw [joinedLength]
    by_cases hjoin : joins r card = true
    · obtain ⟨keyword, s, segment, rfl, -, -, hnext⟩ := joins_some hjoin
      rw [if_pos hjoin, attached, if_pos hjoin, hnext, ih, List.replicate_succ, List.cons_append,
        List.drop_succ_cons]
      rfl
    · rw [if_neg hjoin, List.replicate_zero, List.nil_append, List.drop_zero]
      refine attached_of_not_joins fun c hc => ?_
      rw [List.head?_cons, Option.mem_some_iff] at hc
      exact hc ▸ Bool.eq_false_iff.2 hjoin

theorem continuedCount_eq : ∀ {cards : List Card} {keyword s : Str},
    continuedCount s cards = joinedLength (some (keyword, s)) cards := by
  intro cards
  induction cards with
  | nil => exact fun {_ _} => rfl
  | cons next rest ih =>
    intro keyword s
    rw [continuedCount, joinedLength]
    by_cases hcont : (continueKey.isPrefixOf (trimEnd next) &&
        isQuoted (splitValueComment (afterKeyword (trimEnd next))).1) = true
    · have hsegment : continuationText next =
          some (extractFitsString (splitValueComment (afterKeyword (trimEnd next))).1) := by
        rw [continuationText, if_pos hcont]
      rw [Bool.and_assoc, hcont, Bool.and_true]
      by_cases hlast : (s.getLast? == some 0x26) = true
      · have hjoin : joins (some (keyword, s)) next = true := by
          rw [joins, hlast, hsegment]
          rfl
        have hnext : nextReading (some (keyword, s)) next = some (keyword, s.dropLast ++
            extractFitsString (splitValueComment (afterKeyword (trimEnd next))).1) := by
          unfold nextReading
          rw [if_pos hjoin, hsegment]
        rw [if_pos hlast, if_pos hjoin, hnext, ih]
      · have hjoin : joins (some (keyword, s)) next = false := by
          rw [joins, Bool.eq_false_iff.2 hlast]
          rfl
        rw [if_neg hlast, hjoin]
        rfl
    · have hjoin : joins (some (keyword, s)) next = false := by
        rw [joins, continuationText, if_neg hcont, Option.isSome_none, Bool.and_false]
      rw [Bool.and_assoc, if_neg (by rw [Bool.eq_false_iff.2 hcont, Bool.and_false]; simp), hjoin]
      rfl

/-- The reader of a value steps over the cards that are joined to it. -/
theorem joinedLength_eq {value : Str} (h : dictKeyword card = some (keyword, value))
    (rest : List Card) :
    joinedLength (startReading card) rest = joinedCount rest value := by
  rw [startReading, h, joinedCount]
  dsimp only
  split_ifs
  · exact continuedCount_eq.symm
  · cases rest <;> rfl

end

/-! ## The chain of a card -/

/-- Behind a raw ampersand the CONTINUE cards are joined by the reader too, and the first
CONTINUE card behind another value is not. -/
def ContinuesClean : Reading → Card → List Card → Prop
  | _, _, [] => True
  | r, prev, next :: rest =>
    continueKey.isPrefixOf (trimEnd next) = true →
      if cardValueEndsWithAmp prev = true then
        joins r next = true ∧ ContinuesClean (nextReading r next) next rest
      else joins r next = false

section

variable {r : Reading} {prev card : Card} {cards rest : List Card}

theorem continues_of_joins (h : joins r card = true) :
    continueKey.isPrefixOf (trimEnd card) = true := by
  obtain ⟨-, -, segment, -, -, hsegment, -⟩ := joins_some h
  rw [continuationText] at hsegment
  by_contra hnot
  rw [Bool.eq_false_iff.2 hnot, Bool.false_and] at hsegment
  cases hsegment

/-- `find_chain_end` finds what the reader joins exactly under the condition. -/
theorem chainLength_eq_iff (r : Reading) (prev : Card) (cards : List Card) :
    chainLength prev cards = joinedLength r cards ↔ ContinuesClean r prev cards := by
  induction cards generalizing r prev with
  | nil => exact iff_of_true rfl trivial
  | cons next rest ih =>
    rw [chainLength, joinedLength, ContinuesClean]
    by_cases hcont : continueKey.isPrefixOf (trimEnd next) = true
    · simp only [hcont, Bool.and_true, forall_const]
      by_cases hamp : cardValueEndsWithAmp prev = true
      · rw [if_pos hamp, if_pos hamp]
        by_cases hjoin : joins r next = true
        · rw [if_pos hjoin, ← ih, Nat.add_right_cancel_iff]
          exact ⟨fun h => ⟨hjoin, h⟩, fun h => h.2⟩
        · rw [if_neg hjoin]
          exact iff_of_false (Nat.succ_ne_zero _) fun h => hjoin h.1
      · rw [if_neg hamp, if_neg hamp]
        by_cases hjoin : joins r next = true
        · rw [if_pos hjoin]
          exact iff_of_false (Nat.succ_ne_zero _).symm fun h => by
            rw [hjoin] at h
            exact Bool.noConfusion h
        · rw [if_neg hjoin]
          exact iff_of_true rfl (Bool.eq_false_iff.2 hjoin)
    · have hjoin : ¬joins r next = true := fun h => hcont (continues_of_joins h)
      rw [if_neg (by rw [Bool.and_eq_true]; exact fun h => hcont h.2), if_neg hjoin]
      exact iff_of_true rfl fun h => absurd h hcont

end

end RustFits.Header
