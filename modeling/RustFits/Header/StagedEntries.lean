import RustFits.Header.Blocks
import RustFits.Header.Update

/-!
# Entries in front of a refused one

An edit session applies the entries of an update to its card list one by one.  An entry
that is refused leaves behind what the ones in front of it have done.

* `CommentLeft` is the comment that an entry finds under its key, `FitsWith` says when the
  entry is taken with it.
* `Repeats` says that the cards of an entry are there already.
* `keptInFront_iff`: under different keys, entries leave nothing behind exactly when each of
  them is taken or repeats what is there.
-/

namespace RustFits

open Ascii ByteFile Machine

namespace Header

/-! ## Blocks of a key -/

section

variable {q : Str → Bool} {front back new cards : List Card} {k : Str}

theorem continuation_append (h : startsWithContinue back = false) :
    continuation (front ++ back) = continuation front := by
  have hback : back.takeWhile isContinue = [] := continuation_eq_nil h
  induction front with
  | nil => exact hback
  | cons card front ih =>
    unfold continuation at ih ⊢
    rw [List.cons_append, List.takeWhile_cons, List.takeWhile_cons, ih]

/-- Cards that continue nothing begin with blocks of their own. -/
theorem blocks_append_of_head (h : startsWithContinue back = false) :
    blocks q (front ++ back) = blocks q front ++ blocks q back := by
  induction front with
  | nil => rfl
  | cons card front ih =>
    rw [List.cons_append, blocks, blocks, continuation_append h, ih]
    split_ifs
    · rfl
    · rfl

theorem continuation_of_chain {chain : List Card} (h : ∀ c ∈ chain, isContinue c = true) :
    continuation (chain ++ back) = chain ++ continuation back := by
  unfold continuation
  exact List.takeWhile_append_of_pos h

theorem isContinue_of_hasKeyword {card : Card} (h : HasKeyword continueKey card) :
    isContinue (trimEnd card) = true := by
  have hfield := keywordField_hasKeyword (by decide) (by decide) h
  have htake : (trimEnd (trimEnd card)).take 8 = continueKey :=
    eq_of_trim_eq hfield (by simp [show continueKey.length = 8 from rfl])
  rw [isContinue, List.isPrefixOf_iff_prefix, ← htake]
  exact List.take_prefix 8 _

/-- The first card of the key, with the cards that continue it. -/
def HoldsCards (cards : List Card) (k : Str) (new : List Card) : Prop :=
  ∃ start, cards.findIdx? (matchesKey k) = some start ∧
    (cards.take (findChainEnd cards start)).drop start = new

/-- Cards that are there already change nothing. -/
theorem setCardForKey_of_holds (h : HoldsCards cards k (new.map trimEnd)) :
    setCardForKey cards k new = cards := by
  obtain ⟨start, hstart, hnew⟩ := h
  have hle : start ≤ findChainEnd cards start := by
    unfold findChainEnd
    omega
  have htake : cards.take start = (cards.take (findChainEnd cards start)).take start := by
    rw [List.take_take, Nat.min_eq_left hle]
  unfold setCardForKey
  rw [hstart]
  dsimp only
  rw [spliceCards, ← hnew, htake, List.take_append_drop, List.take_append_drop]

/-- Cards that go in and leave the blocks of their key as they were were there already. -/
theorem holds_of_blocks {first : Card} {more : List Card} (hk : k ≠ continueKey)
    (hfirst : cardKey (trimEnd first) = some k)
    (hmore : ∀ c ∈ more, isContinue (trimEnd c) = true)
    (hsame : KeepsBlocks (fun key => decide (key = k)) cards
      (setCardForKey cards k (first :: more))) :
    HoldsCards cards k ((first :: more).map trimEnd) := by
  have hany : ∀ c, cardKey c = some k → (cardKey c).any (fun key => decide (key = k)) = true := by
    intro c hc
    rw [hc]
    simp
  have hchain : ∀ c ∈ more.map trimEnd, isContinue c = true := by
    simpa using hmore
  cases hfind : cards.findIdx? (matchesKey k) with
  | none =>
    -- one card more of the key
    have hcards := hsame.keepsCards
    unfold setCardForKey KeepsCards at hcards
    rw [hfind] at hcards
    dsimp only at hcards
    have hlen := congrArg List.length hcards
    conv at hlen => rhs; rw [← List.take_append_drop (endPosition cards) cards]
    rw [spliceCards, List.map_cons, List.filter_append, List.filter_append, List.filter_append,
      List.filter_cons, if_pos (hany _ hfirst)] at hlen
    simp at hlen
    omega
  | some start =>
    obtain ⟨hlt, hmatch, -⟩ := List.findIdx?_eq_some_iff_getElem.1 hfind
    obtain ⟨chain, hsplit, hcont⟩ := chain_split hlt
    have hkey : cardKey cards[start] = some k := cardKey_of_matchesKey hmatch
    have hhead : isContinue cards[start] = false := not_isContinue_of_cardKey hk hkey
    have hheadNew : isContinue (trimEnd first) = false := not_isContinue_of_cardKey hk hfirst
    have hback : ∀ c rest, isContinue c = false → startsWithContinue (c :: rest) = false :=
      fun c rest h => h
    have hfront : cards.take (findChainEnd cards start) =
        cards.take start ++ (cards[start] :: chain) := by
      refine (List.append_left_inj (cards.drop (findChainEnd cards start))).1 ?_
      rw [List.take_append_drop]
      exact hsplit
    have hblocks : blocks (fun key => decide (key = k)) (cards.take start ++
        ((first :: more).map trimEnd ++ cards.drop (findChainEnd cards start))) =
          blocks (fun key => decide (key = k)) (cards.take start ++
            ((cards[start] :: chain) ++ cards.drop (findChainEnd cards start))) := by
      have hsame' : blocks (fun key => decide (key = k)) (setCardForKey cards k (first :: more)) =
          blocks (fun key => decide (key = k)) cards := hsame
      unfold setCardForKey at hsame'
      rw [hfind] at hsame'
      dsimp only at hsame'
      rw [← List.append_assoc, ← List.append_assoc, ← hsplit]
      exact hsame'
    rw [List.map_cons, List.cons_append, List.cons_append,
      blocks_append_of_head (hback _ _ hheadNew), blocks_append_of_head (hback _ _ hhead), blocks,
      blocks, if_pos (hany _ hfirst), if_pos (hany _ hkey),
      continuation_of_chain hchain, continuation_of_chain hcont] at hblocks
    have hpair := List.head_eq_of_cons_eq (List.append_cancel_left hblocks)
    refine ⟨start, hfind, ?_⟩
    rw [hfront, List.drop_left' (by rw [List.length_take]; omega), List.map_cons]
    rw [(Prod.mk.inj hpair).1, List.append_cancel_right (Prod.mk.inj hpair).2]

end

/-! ## What an entry finds -/

section

variable {F : Type} (floats : Floats F)

/-- The comment that stands under a key. -/
def existingComment (cards : List Card) (k : Str) : Str :=
  (extractExistingComment floats cards k).getD []

/-- The comment under a key, behind some entries: that of the target, or the one that an
entry of the key leaves where it has found such a comment. -/
inductive CommentLeft (cards : List Card) (k : Str) : List (UpdateAction F) → Str → Prop where
  | target : CommentLeft cards k [] (existingComment floats cards k)
  | other (front : List (UpdateAction F)) (a : UpdateAction F) (comment : Str)
      (hkey : a.key ≠ k) (hleft : CommentLeft cards k front comment) :
      CommentLeft cards k (front ++ [a]) comment
  | same (front : List (UpdateAction F)) (a : UpdateAction F) (before after : List Card)
      (hkey : a.key = k) (hleft : CommentLeft cards k front (existingComment floats before k))
      (hset : a.apply floats before = .ok () after) :
      CommentLeft cards k (front ++ [a]) (existingComment floats after k)

/-- The entry is taken, with its own comment or with the one that it finds. -/
def UpdateAction.FitsWith (found : Str) : UpdateAction F → Prop
  | .setKey key value comment =>
    validateKeyword key = .ok () ∧
      CardFits floats (normalizeKeyword key) value (comment.getD found)
  | .appendCommentary _ _ => True

/-- The cards of the entry are there already. -/
def UpdateAction.Repeats (cards : List Card) : UpdateAction F → Prop
  | .setKey key value comment =>
    validateKeyword key = .ok () ∧
      ∃ new, buildCardFromValue floats (storedKeyword cards key) value
          (writtenComment floats cards key comment) = .ok new ∧
        HoldsCards cards (normalizeKeyword key) (new.map trimEnd)
  | .appendCommentary _ _ => False

/-- Each of the entries may be taken. -/
def Passes (cards : List Card) (done : List (UpdateAction F)) : Prop :=
  ∀ front a rest, done = front ++ a :: rest →
    ∃ found, CommentLeft floats cards a.key front found ∧ a.FitsWith floats found

/-- Behind entries that pass, an entry is taken, or those entries repeat what is there. -/
def TakenOrRepeats (cards : List Card) (entries : List (UpdateAction F)) : Prop :=
  ∀ done a rest, entries = done ++ a :: rest → Passes floats cards done →
    (∀ found, CommentLeft floats cards a.key done found → a.FitsWith floats found) ∨
      ∀ b ∈ done, b.Repeats floats cards

/-- The entries are under different keys, and none of them is a continuation. -/
def KeysApart (entries : List (UpdateAction F)) : Prop :=
  (entries.map UpdateAction.key).Nodup ∧ continueKey ∉ entries.map UpdateAction.key

end

section

variable {F : Type} {floats : Floats F} {cards reached : List Card} {k found : Str}
  {a : UpdateAction F} {done front entries : List (UpdateAction F)}

theorem accepted_iff : a.Accepted floats cards ↔
    a.FitsWith floats (existingComment floats cards a.key) := by
  cases a <;> rfl

theorem existingComment_congr {cards' : List Card}
    (h : readKey floats cards' k = readKey floats cards k) :
    existingComment floats cards' k = existingComment floats cards k := by
  have hread : ∀ cards, extractExistingComment floats cards k =
      (readKey floats cards k).map Prod.snd := by
    intro cards
    rw [readKey, Option.map_map]
    rfl
  rw [existingComment, existingComment, hread, hread, h]

/-- What is found under a key when some entries have been applied. -/
theorem commentLeft_of_run (hk : k ≠ []) (hallowed : ∀ a ∈ done, a.Allowed)
    (hrun : done.forM (UpdateAction.apply floats) cards = .ok ⟨⟩ reached) :
    CommentLeft floats cards k done (existingComment floats reached k) := by
  induction done using List.reverseRecOn generalizing reached with
  | nil =>
    cases hrun
    exact .target
  | append_singleton done a ih =>
    obtain ⟨before, hdone, hlast⟩ := Batch.forM_append_ok_iff.1 hrun
    have hleft := ih (fun b hb => hallowed b (List.mem_append_left _ hb)) hdone
    rw [Batch.forM_cons_eq] at hlast
    cases hstep : a.apply floats before with
    | error e t =>
      rw [hstep] at hlast
      cases hlast
    | ok u after =>
      rw [hstep] at hlast
      cases hlast
      by_cases hkey : a.key = k
      · exact .same done a before _ hkey hleft hstep
      · have hread := readKey_apply hk (hallowed a (by simp)) hkey hstep
        rw [existingComment_congr hread]
        exact .other done a _ hkey hleft

/-- Under a key of its own an entry finds the comment of the target. -/
theorem CommentLeft.eq_of_apart (h : CommentLeft floats cards k done found)
    (hapart : ∀ a ∈ done, a.key ≠ k) : found = existingComment floats cards k := by
  induction h with
  | target => rfl
  | other front a comment hkey hleft ih =>
    exact ih fun b hb => hapart b (List.mem_append_left _ hb)
  | same front a before after hkey hleft hset => exact absurd hkey (hapart a (by simp))

theorem passes_of_run (hallowed : ∀ a ∈ done, a.Allowed) (hkeys : ∀ a ∈ done, a.key ≠ [])
    (hrun : done.forM (UpdateAction.apply floats) cards = .ok ⟨⟩ reached) :
    Passes floats cards done := by
  rintro front a rest rfl
  obtain ⟨before, hfront, hrest⟩ := Batch.forM_append_ok_iff.1 hrun
  refine ⟨existingComment floats before a.key, commentLeft_of_run (hkeys a (by simp))
    (fun b hb => hallowed b (List.mem_append_left _ hb)) hfront, ?_⟩
  rw [← accepted_iff, ← apply_ok_iff]
  rw [Batch.forM_cons_eq] at hrest
  cases hstep : a.apply floats before with
  | error e t =>
    rw [hstep] at hrest
    cases hrest
  | ok u after => exact ⟨after, rfl⟩

theorem apply_of_repeats (h : a.Repeats floats cards) : a.apply floats cards = .ok () cards := by
  cases a with
  | appendCommentary keyword text => exact h.elim
  | setKey key value comment =>
    obtain ⟨hvalid, new, hbuild, hholds⟩ := h
    have heq := applySetitem_eq floats key value comment cards
    rw [hvalid, hbuild] at heq
    dsimp only at heq
    rw [setCardForKey_of_holds hholds] at heq
    exact heq

theorem run_of_repeats (h : ∀ b ∈ done, b.Repeats floats cards) :
    done.forM (UpdateAction.apply floats) cards = .ok ⟨⟩ cards := by
  induction done with
  | nil => rfl
  | cons b done ih =>
    obtain ⟨hb, hdone⟩ := List.forall_mem_cons.1 h
    rw [Batch.forM_cons_eq, apply_of_repeats hb]
    exact ih hdone

/-- Entries that are taken or repeat what is there leave nothing behind. -/
theorem keptInFront_of_takenOrRepeats (hallowed : ∀ a ∈ entries, a.Allowed)
    (hkeys : ∀ a ∈ entries, a.key ≠ []) (h : TakenOrRepeats floats cards entries) :
    Batch.KeptInFront (UpdateAction.apply floats) entries cards := by
  rintro done a rest reached rfl hdone hfails
  have hallowedDone : ∀ b ∈ done, b.Allowed := fun b hb => hallowed b (by simp [hb])
  have hpasses := passes_of_run hallowedDone (fun b hb => hkeys b (by simp [hb])) hdone
  rcases h done a rest rfl hpasses with htaken | hrepeats
  · have hleft := commentLeft_of_run (hkeys a (by simp)) hallowedDone hdone
    have haccepted : a.Accepted floats reached := accepted_iff.2 (htaken _ hleft)
    exact absurd ((apply_ok_iff a reached).2 haccepted) hfails
  · rw [run_of_repeats hrepeats] at hdone
    cases hdone
    rfl

/-! ## Entries under different keys -/

/-- An entry keeps the blocks of every other key. -/
theorem keepsBlocks_apply {cards' : List Card} (hallowed : a.Allowed) (hkey : a.key ≠ k)
    (hk : k ≠ continueKey) (hnot : a.key ≠ continueKey)
    (h : a.apply floats cards = .ok () cards') :
    KeepsBlocks (fun key => decide (key = k)) cards cards' := by
  have hrun := @performs_action F floats false [a.key] a hallowed (List.mem_singleton.2 rfl)
    cards cards (CardEdits.refl false [a.key] cards)
  rw [h] at hrun
  refine keepsBlocks_cardEdits ?_ ?_ ?_ hrun
  · exact decide_eq_false fun heq => hk heq.symm
  · intro key hmem _
    rw [List.mem_singleton.1 hmem]
    exact decide_eq_false hkey
  · simpa using fun heq => hnot heq.symm

/-- An entry that leaves the blocks of its key as they were repeats what is there. -/
theorem repeats_of_blocks {key : Str} {value : HeaderValue F} {comment : Option Str}
    {cards' : List Card} (hset : Settable (normalizeKeyword key))
    (hnot : normalizeKeyword key ≠ continueKey)
    (h : applySetitem floats key value comment cards = .ok () cards')
    (hsame : KeepsBlocks (fun k => decide (k = normalizeKeyword key)) cards cards') :
    (UpdateAction.setKey key value comment).Repeats floats cards := by
  obtain ⟨hvalid, new, hbuild, rfl⟩ := applySetitem_ok h
  refine ⟨hvalid, new, hbuild, ?_⟩
  obtain ⟨first, more, rfl, hfirst, hmore⟩ := buildCardFromValue_cards hbuild
  exact holds_of_blocks hnot (cardKey_first hvalid hset rfl hfirst)
    (fun c hc => isContinue_of_hasKeyword (hmore c hc)) hsame

/-- Entries under different keys that leave the cards as they were repeat what is there. -/
theorem repeats_of_run (hallowed : ∀ a ∈ done, ∃ key value comment,
      a = .setKey key value comment ∧ Settable (normalizeKeyword key))
    (hapart : KeysApart done)
    (hrun : done.forM (UpdateAction.apply floats) cards = .ok ⟨⟩ cards) :
    ∀ b ∈ done, b.Repeats floats cards := by
  induction done with
  | nil => simp
  | cons b done ih =>
    obtain ⟨⟨key, value, comment, rfl, hset⟩, hrest⟩ := List.forall_mem_cons.1 hallowed
    obtain ⟨hnodup, hnot⟩ := hapart
    rw [List.map_cons, List.nodup_cons] at hnodup
    rw [List.map_cons, List.mem_cons, not_or] at hnot
    rw [Batch.forM_cons_eq] at hrun
    cases hstep : UpdateAction.apply floats (.setKey key value comment) cards with
    | error e t =>
      rw [hstep] at hrun
      cases hrun
    | ok u after =>
      rw [hstep] at hrun
      -- the other entries keep the blocks of this key
      have hback : blocks (fun k => decide (k = normalizeKeyword key)) cards =
          blocks (fun k => decide (k = normalizeKeyword key)) after := by
        refine Batch.forM_frame (fun c hc s s' h => ?_) hrun
        have hmem : c.key ∈ done.map UpdateAction.key := List.mem_map_of_mem hc
        obtain ⟨key', value', comment', rfl, hset'⟩ := hrest c hc
        have hallowed' : (UpdateAction.setKey key' value' comment').Allowed := hset'
        refine keepsBlocks_apply hallowed' ?_ (fun heq => hnot.1 heq.symm) ?_ h
        · intro heq
          rw [heq] at hmem
          exact hnodup.1 hmem
        · intro heq
          rw [heq] at hmem
          exact hnot.2 hmem
      have hfirst := repeats_of_blocks hset (fun heq => hnot.1 heq.symm) hstep hback.symm
      rw [apply_of_repeats hfirst] at hstep
      cases hstep
      rw [List.forall_mem_cons]
      exact ⟨hfirst, ih hrest ⟨hnodup.2, hnot.2⟩ hrun⟩

/-- Under different keys entries that pass are applied. -/
theorem run_of_passes (hallowed : ∀ a ∈ done, a.Allowed) (hkeys : ∀ a ∈ done, a.key ≠ [])
    (hnodup : (done.map UpdateAction.key).Nodup) (h : Passes floats cards done) :
    ∃ reached, done.forM (UpdateAction.apply floats) cards = .ok ⟨⟩ reached := by
  induction done using List.reverseRecOn with
  | nil => exact ⟨cards, rfl⟩
  | append_singleton done a ih =>
    have hallowedDone : ∀ b ∈ done, b.Allowed := fun b hb => hallowed b (List.mem_append_left _ hb)
    rw [List.map_append, List.nodup_append] at hnodup
    obtain ⟨reached, hdone⟩ := ih hallowedDone
      (fun b hb => hkeys b (List.mem_append_left _ hb)) hnodup.1 fun front b rest hsplit =>
        h front b (rest ++ [a]) (by rw [hsplit]; simp)
    have hother : ∀ b ∈ done, b.key ≠ a.key := fun b hb =>
      hnodup.2.2 b.key (List.mem_map_of_mem hb) a.key (by simp)
    obtain ⟨found, hleft, hfits⟩ := h done a [] rfl
    have hreached := commentLeft_of_run (hkeys a (by simp)) hallowedDone hdone
    rw [hleft.eq_of_apart hother, ← hreached.eq_of_apart hother, ← accepted_iff,
      ← apply_ok_iff] at hfits
    obtain ⟨after, hstep⟩ := hfits
    refine ⟨after, Batch.forM_append_ok_iff.2 ⟨reached, hdone, ?_⟩⟩
    rw [Batch.forM_cons_eq, hstep]
    rfl

/-- Under different keys nothing else keeps a staged update whole. -/
theorem takenOrRepeats_of_keptInFront (hallowed : ∀ a ∈ entries, ∃ key value comment,
      a = .setKey key value comment ∧ Settable (normalizeKeyword key))
    (hapart : KeysApart entries)
    (h : Batch.KeptInFront (UpdateAction.apply floats) entries cards) :
    TakenOrRepeats floats cards entries := by
  have hsettable : ∀ b ∈ entries, b.Allowed ∧ b.key ≠ [] := by
    intro b hb
    obtain ⟨key, value, comment, rfl, hset⟩ := hallowed b hb
    exact ⟨hset, hset.2⟩
  rintro done a rest rfl hpasses
  obtain ⟨hnodup, hnot⟩ := hapart
  rw [List.map_append, List.map_cons, List.nodup_append] at hnodup
  have hother : ∀ b ∈ done, b.key ≠ a.key := fun b hb =>
    hnodup.2.2 b.key (List.mem_map_of_mem hb) a.key (by simp)
  have hallowedDone : ∀ b ∈ done, b.Allowed := fun b hb => (hsettable b (by simp [hb])).1
  by_cases hfits : a.FitsWith floats (existingComment floats cards a.key)
  · refine Or.inl fun found hleft => ?_
    rw [hleft.eq_of_apart hother]
    exact hfits
  · obtain ⟨reached, hdone⟩ := run_of_passes hallowedDone
      (fun b hb => (hsettable b (by simp [hb])).2) hnodup.1 hpasses
    have hleft := commentLeft_of_run (hsettable a (by simp)).2 hallowedDone hdone
    have hfails : ¬∃ after, a.apply floats reached = .ok () after := by
      rw [apply_ok_iff, accepted_iff, hleft.eq_of_apart hother]
      exact hfits
    obtain rfl := h done a rest reached rfl hdone hfails
    refine Or.inr (repeats_of_run (fun b hb => hallowed b (by simp [hb])) ⟨hnodup.1, ?_⟩ hdone)
    intro hmem
    exact hnot (by rw [List.map_append]; exact List.mem_append_left _ hmem)

end

end Header

end RustFits
