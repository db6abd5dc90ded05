import RustFits.Header.Steps

/-!
# Header edits keep the structure

A header edit replaces, inserts and removes free cards.  What the parser computes
from a header it reads from cards of protected keywords, so an edit changes none
of it.

* `Editable` is the shape of a card list that an edit needs and keeps.
  `SameStructure` says that two card lists agree in all that the parser computes.
* `keeps_splice` and `keeps_filter` are the two ways to change a card list.
* `preserves_run` is the result for every method.
-/

namespace RustFits

open Ascii ByteFile Machine

namespace Header

/-! ## Card lists that can be edited -/

/-- The shape of a card list that an edit needs and keeps: short cards, END at the
end and nowhere else, and a protected keyword in front. -/
structure Editable (cards : List Card) : Prop where
  short : ∀ c ∈ cards, IsShort c
  closed : ∃ body, cards = body ++ [endCard] ∧ endCard ∉ body
  first : ∃ c, cards.find? isNonblank = some c ∧ ¬ IsFree c ∧ c ≠ endCard

/-- Two card lists agree in all that the parser computes from them. -/
structure SameStructure (cards cards' : List Card) : Prop where
  lookup : ∀ key, isProtectedKey key = true → parseKeyword cards' key = parseKeyword cards key
  first : cards'.find? isNonblank = cards.find? isNonblank

theorem SameStructure.refl (cards : List Card) : SameStructure cards cards :=
  ⟨fun _ _ => rfl, rfl⟩

theorem SameStructure.symm {a b : List Card} (h : SameStructure a b) : SameStructure b a :=
  ⟨fun key hkey => (h.lookup key hkey).symm, h.first.symm⟩

theorem SameStructure.trans {a b c : List Card} (h : SameStructure a b) (h' : SameStructure b c) :
    SameStructure a c :=
  ⟨fun key hkey => (h'.lookup key hkey).trans (h.lookup key hkey), h'.first.trans h.first⟩

/-- The new card list can be edited again and has the structure of the old one. -/
def Keeps (cards cards' : List Card) : Prop := Editable cards' ∧ SameStructure cards cards'

theorem Keeps.trans {a b c : List Card} (h : Keeps a b) (h' : Keeps b c) : Keeps a c :=
  ⟨h'.1, h.2.trans h'.2⟩

theorem parseKeyword_append_congr {rest rest' : List Card} {key : Str} (front : List Card)
    (h : parseKeyword rest' key = parseKeyword rest key) :
    parseKeyword (front ++ rest') key = parseKeyword (front ++ rest) key := by
  induction front with
  | nil => exact h
  | cons c front ih =>
    cases hc : decidesKey key c with
    | true =>
      rw [List.cons_append, List.cons_append, parseKeyword_cons_of_decides hc,
        ← parseKeyword_cons_of_decides hc (front ++ rest)]
    | false =>
      rw [List.cons_append, List.cons_append, parseKeyword_cons_of_not_decides hc,
        parseKeyword_cons_of_not_decides hc, ih]

/-- Free cards in the middle are replaced. -/
theorem keeps_splice {front old new back : List Card} (h : Editable (front ++ old ++ back))
    (hfirst : ∃ c ∈ front, isNonblank c = true) (hback : back ≠ [])
    (hold : ∀ c ∈ old, IsFree c) (hnew : ∀ c ∈ new, Insertable c) :
    Keeps (front ++ old ++ back) (front ++ new ++ back) := by
  obtain ⟨body, hbody, hend⟩ := h.closed
  have hfind : ∀ rest : List Card, (front ++ rest).find? isNonblank = front.find? isNonblank := by
    intro rest
    have hsome : (front.find? isNonblank).isSome = true := List.find?_isSome.2 hfirst
    rw [List.find?_append]
    obtain ⟨c, hc⟩ := Option.isSome_iff_exists.1 hsome
    rw [hc]
    rfl
  have hsame : (front ++ new ++ back).find? isNonblank =
      (front ++ old ++ back).find? isNonblank := by
    rw [List.append_assoc, List.append_assoc, hfind, hfind]
  refine ⟨⟨fun c hc => ?_, ?_, ?_⟩, fun key hkey => ?_, hsame⟩
  · rw [List.append_assoc, List.mem_append, List.mem_append] at hc
    rcases hc with hc | hc | hc
    · exact h.short c (by simp [hc])
    · exact (hnew c hc).short
    · exact h.short c (by simp [hc])
  · -- the last card behind the place is END
    obtain ⟨init, last, rfl⟩ : ∃ init last, back = init ++ [last] :=
      ⟨back.dropLast, back.getLast hback, (List.dropLast_append_getLast hback).symm⟩
    rw [← List.append_assoc] at hbody
    obtain ⟨hinit, hlast⟩ := List.append_inj' hbody rfl
    refine ⟨front ++ new ++ init, by rw [← hlast, List.append_assoc _ init], fun hm => ?_⟩
    rw [List.append_assoc, List.mem_append, List.mem_append] at hm
    rcases hm with hm | hm | hm
    · exact hend (by rw [← hinit]; simp [hm])
    · exact endCard_not_free (hnew _ hm).free
    · exact hend (by rw [← hinit]; simp [hm])
  · obtain ⟨c, hc, hprot⟩ := h.first
    exact ⟨c, hsame.trans hc, hprot⟩
  · rw [List.append_assoc, List.append_assoc]
    refine parseKeyword_append_congr front ?_
    rw [parseKeyword_append_of_not_decides fun c hc => not_decides_of_isFree (hnew c hc).free hkey,
      parseKeyword_append_of_not_decides fun c hc => not_decides_of_isFree (hold c hc) hkey]

theorem parseKeyword_filter {cards : List Card} {key : Str} {p : Card → Bool}
    (h : ∀ c ∈ cards, p c = false → decidesKey key c = false) :
    parseKeyword (cards.filter p) key = parseKeyword cards key := by
  induction cards with
  | nil => rfl
  | cons c cards ih =>
    have hrest := ih fun d hd => h d (List.mem_cons_of_mem _ hd)
    cases hp : p c with
    | true =>
      rw [List.filter_cons_of_pos hp]
      exact parseKeyword_append_congr [c] hrest
    | false =>
      rw [List.filter_cons_of_neg (by rw [hp]; decide), hrest,
        parseKeyword_cons_of_not_decides (h c List.mem_cons_self hp)]

/-- Free cards are removed. -/
theorem keeps_filter {cards : List Card} {p : Card → Bool} (h : Editable cards)
    (hp : ∀ c ∈ cards, p c = false → IsFree c) : Keeps cards (cards.filter p) := by
  obtain ⟨body, rfl, hend⟩ := h.closed
  obtain ⟨first, hfirst, hprot, hne⟩ := h.first
  have hkept : ∀ c ∈ body ++ [endCard], ¬ IsFree c → p c = true := by
    intro c hc hfree
    cases hpc : p c with
    | true => rfl
    | false => exact absurd (hp c hc hpc) hfree
  have hfind : ((body ++ [endCard]).filter p).find? isNonblank = some first := by
    obtain ⟨hblank, front, back, hsplit, hfront⟩ := List.find?_eq_some_iff_append.1 hfirst
    have hmem : first ∈ body ++ [endCard] := by rw [hsplit]; simp
    rw [List.find?_eq_some_iff_append]
    refine ⟨hblank, front.filter p, back.filter p, ?_, ?_⟩
    · rw [hsplit, List.filter_append, List.filter_cons_of_pos (hkept first hmem hprot)]
    · exact fun c hc => hfront c (List.mem_of_mem_filter hc)
  refine ⟨⟨fun c hc => h.short c (List.mem_of_mem_filter hc), ?_, ?_⟩, fun key hkey => ?_, ?_⟩
  · refine ⟨body.filter p, ?_, fun hm => hend (List.mem_of_mem_filter hm)⟩
    rw [List.filter_append, List.filter_cons_of_pos (hkept endCard (by simp) endCard_not_free)]
    rfl
  · exact ⟨first, hfind, hprot, hne⟩
  · exact parseKeyword_filter fun c hc hpc => not_decides_of_isFree (hp c hc hpc) hkey
  · rw [hfind, hfirst]

/-! ## The places of an edit -/

section

variable {cards : List Card} {i : Nat} {c : Card}

/-- In front of a card that is not the first one stands the first one. -/
theorem first_before (hfirst : ∀ f, cards.find? isNonblank = some f → f ≠ c)
    (hi : cards[i]? = some c) (hc : isNonblank c = true) :
    ∃ f ∈ cards.take i, isNonblank f = true := by
  have hsome : (cards.find? isNonblank).isSome = true :=
    List.find?_isSome.2 ⟨c, List.mem_of_getElem? hi, hc⟩
  obtain ⟨f, hf⟩ := Option.isSome_iff_exists.1 hsome
  obtain ⟨hblank, front, back, rfl, hfront⟩ := List.find?_eq_some_iff_append.1 hf
  have hlt : front.length < i := by
    rcases Nat.lt_trichotomy i front.length with hlt | heq | hgt
    · rw [List.getElem?_append_left hlt] at hi
      have := hfront c (List.mem_of_getElem? hi)
      rw [hc] at this
      exact Bool.noConfusion this
    · rw [heq, List.getElem?_append_right (Nat.le_refl _), Nat.sub_self] at hi
      exact absurd (by simpa using hi) (hfirst f hf)
    · exact hgt
  refine ⟨f, ?_, hblank⟩
  rw [List.take_append, List.mem_append]
  refine Or.inr ?_
  obtain ⟨n, hn⟩ : ∃ n, i - front.length = n + 1 := ⟨i - front.length - 1, by omega⟩
  rw [hn, List.take_succ_cons]
  exact List.mem_cons_self

theorem continue_free {next : Card} (h : continueKey.isPrefixOf (trimEnd next) = true) :
    IsFree next := by
  obtain ⟨rest, hrest⟩ := List.isPrefixOf_iff_prefix.1 h
  have htake : (trimEnd next).take 8 = continueKey := by
    rw [← hrest]
    rfl
  rw [IsFree, ← trim_take_trimEnd, htake]
  decide

/-- The cards of a lookup form that is not protected are replaced. -/
theorem keeps_replaceMatched {key : Str} {start : Nat} {new : List Card} (h : Editable cards)
    (hkey : isProtectedKey key = false) (hstart : cards.findIdx? (matchesKey key) = some start)
    (hnew : ∀ c ∈ new, Insertable c) :
    Keeps cards (spliceCards start (findChainEnd cards start) new cards) := by
  obtain ⟨hlt, hmatch, -⟩ := List.findIdx?_eq_some_iff_getElem.1 hstart
  obtain ⟨hfree, hblank⟩ := matchesKey_free hkey hmatch
  have hget : cards[start]? = some cards[start] := List.getElem?_eq_getElem hlt
  obtain ⟨chain, hsplit, hchain⟩ := chain_split hlt
  have holdFree : ∀ c ∈ cards[start] :: chain, IsFree c := by
    intro c hc
    rcases List.mem_cons.1 hc with rfl | hc
    · exact hfree
    · exact continue_free (hchain c hc)
  have hfront : ∃ f ∈ cards.take start, isNonblank f = true := by
    refine first_before (fun f hf => ?_) hget hblank
    obtain ⟨f', hf', hprot, -⟩ := h.first
    rintro rfl
    rw [hf] at hf'
    exact hprot (Option.some.inj hf' ▸ hfree)
  have hback : cards.drop (findChainEnd cards start) ≠ [] := by
    intro hnil
    obtain ⟨body, hbody, -⟩ := h.closed
    rw [hnil, List.append_nil] at hsplit
    have hlast : endCard ∈ cards[start] :: chain := by
      have hlast' := congrArg List.getLast? (hbody.symm.trans hsplit)
      rw [List.getLast?_concat, List.getLast?_append_of_ne_nil _ (List.cons_ne_nil _ _)] at hlast'
      exact List.mem_of_getLast? hlast'.symm
    exact endCard_not_free (holdFree _ hlast)
  have hkeeps := keeps_splice (hsplit ▸ h) hfront hback holdFree hnew
  rw [← hsplit] at hkeeps
  exact hkeeps

/-- Free cards go in at one place. -/
theorem keeps_insert {pos : Nat} {new : List Card} (h : Editable cards)
    (hfirst : ∃ f ∈ cards.take pos, isNonblank f = true) (hpos : pos < cards.length)
    (hnew : ∀ c ∈ new, Insertable c) : Keeps cards (spliceCards pos pos new cards) := by
  have hsplit : cards.take pos ++ [] ++ cards.drop pos = cards := by
    rw [List.append_nil, List.take_append_drop]
  have hback : cards.drop pos ≠ [] := by
    rw [Ne, List.drop_eq_nil_iff]
    omega
  have hkeeps : Keeps (cards.take pos ++ [] ++ cards.drop pos)
      (cards.take pos ++ new ++ cards.drop pos) :=
    keeps_splice (hsplit.symm ▸ h) hfirst hback (by simp) hnew
  rwa [hsplit] at hkeeps

theorem endCard_nonblank : isNonblank endCard = true := by decide

theorem endPosition_clean {body : List Card} (htrim : ∀ c ∈ body, trimEnd c = c)
    (hend : endCard ∉ body) : endPosition (body ++ [endCard]) = body.length := by
  have hidx : (body ++ [endCard]).findIdx? (fun c => decide (trimEnd c = endCard)) =
      some body.length := by
    rw [List.findIdx?_eq_some_iff_getElem]
    refine ⟨by simp, by simp; decide, fun j hj => ?_⟩
    rw [List.getElem_append_left hj, htrim _ (List.getElem_mem hj)]
    intro he
    exact hend (of_decide_eq_true he ▸ List.getElem_mem hj)
  rw [endPosition, hidx]
  rfl

/-- The place of END. -/
theorem endPosition_spec (h : Editable cards) :
    endPosition cards < cards.length ∧
      ∃ f ∈ cards.take (endPosition cards), isNonblank f = true := by
  obtain ⟨body, rfl, hend⟩ := h.closed
  have hpos : endPosition (body ++ [endCard]) = body.length :=
    endPosition_clean (fun c hc => (h.short c (List.mem_append_left _ hc)).2) hend
  rw [hpos]
  refine ⟨by simp, ?_⟩
  refine first_before (fun f hf => ?_) (by simp) endCard_nonblank
  obtain ⟨f', hf', -, hne⟩ := h.first
  rw [hf] at hf'
  exact Option.some.inj hf' ▸ hne

/-- A commentary card is free and not blank. -/
theorem commentary_free {keyword : Str} (hkey : isCommentaryKey keyword = true)
    (h : cardMatchesCommentaryKeyword keyword c = true) : IsFree c := by
  have hfield : trim ((trimEnd c).take 8) = keyword := by
    unfold cardMatchesCommentaryKeyword at h
    dsimp only at h
    split_ifs at h with hempty
    · rw [Bool.and_eq_true] at h
      rw [List.isEmpty_iff.1 hempty, List.isEmpty_iff.1 h.2]
    · rw [Bool.and_eq_true, decide_eq_true_eq] at h
      exact h.2
  rw [IsFree, ← trim_take_trimEnd, hfield]
  simp only [isCommentaryKey, Bool.or_eq_true, decide_eq_true_eq, List.isEmpty_iff] at hkey
  rcases hkey with (rfl | rfl) | rfl <;> decide

theorem commentary_nonblank {keyword : Str} (h : cardMatchesCommentaryKeyword keyword c = true) :
    isNonblank c = true := by
  apply nonblank_of_trimEnd
  unfold cardMatchesCommentaryKeyword at h
  dsimp only at h
  split_ifs at h
  · rw [Bool.and_eq_true, decide_eq_true_eq] at h
    intro hnil
    rw [hnil] at h
    exact absurd h.1 (by decide)
  · rw [Bool.and_eq_true] at h
    intro hnil
    rw [hnil] at h
    exact absurd h.1 (by decide)

/-- The place behind the last commentary card. -/
theorem commentaryPosition_spec {keyword : Str} (hkey : isCommentaryKey keyword = true)
    (h : Editable cards) :
    commentaryPosition keyword cards < cards.length ∧
      ∃ f ∈ cards.take (commentaryPosition keyword cards), isNonblank f = true := by
  unfold commentaryPosition
  split
  · rename_i i hi
    obtain ⟨hlt, hmatch, -⟩ := List.findIdx?_eq_some_iff_getElem.1 hi
    rw [List.length_reverse] at hlt
    rw [List.getElem_reverse] at hmatch
    have hlast : i ≠ 0 := by
      rintro rfl
      obtain ⟨body, rfl, -⟩ := h.closed
      have hend : (body ++ [endCard])[(body ++ [endCard]).length - 1 - 0] = endCard := by simp
      rw [hend] at hmatch
      exact endCard_not_free (commentary_free hkey hmatch)
    refine ⟨by omega, cards[cards.length - 1 - i], ?_, commentary_nonblank hmatch⟩
    rw [List.mem_take_iff_getElem]
    exact ⟨cards.length - 1 - i, by omega, rfl⟩
  · exact endPosition_spec h

end

/-! ## The methods -/

section

variable {F : Type} {floats : Floats F} {cards : List Card}

theorem keeps_setCardForKey {key : Str} {newCards : List Card} (h : Editable cards)
    (hkey : isProtectedKey key = false) (hnew : ∀ c ∈ newCards, Insertable (trimEnd c)) :
    Keeps cards (setCardForKey cards key newCards) := by
  have hnorm : ∀ c ∈ newCards.map trimEnd, Insertable c := by
    intro c hc
    obtain ⟨d, hd, rfl⟩ := List.mem_map.1 hc
    exact hnew d hd
  unfold setCardForKey
  dsimp only
  split
  · rename_i start hstart
    exact keeps_replaceMatched h hkey hstart hnorm
  · obtain ⟨hpos, hfirst⟩ := endPosition_spec h
    exact keeps_insert h hfirst hpos hnorm

theorem keeps_deleteCardForKey {key : Str} {kept : List Card} (h : Editable cards)
    (hkey : isProtectedKey key = false) (hdel : deleteCardForKey cards key = some kept) :
    Keeps cards kept := by
  obtain ⟨start, hstart, rfl⟩ := Option.map_eq_some_iff.1 hdel
  exact keeps_replaceMatched h hkey hstart (by simp)

theorem keeps_deleteCommentary {key : Str} (h : Editable cards)
    (hkey : isCommentaryKey key = true) :
    Keeps cards (deleteCommentaryCards cards key) :=
  keeps_filter h fun c _ hc => commentary_free hkey (by simpa using hc)

theorem keeps_appendCommentary {keyword : Str} (text : Str) (h : Editable cards)
    (hkey : isCommentaryKey keyword = true) :
    Keeps cards (appendCommentaryToCards cards keyword text) := by
  obtain ⟨hpos, hfirst⟩ := commentaryPosition_spec hkey h
  refine keeps_insert h hfirst hpos fun c hc => ?_
  obtain ⟨d, hd, rfl⟩ := List.mem_map.1 hc
  exact (written_of_commentary hkey d hd).insertable

theorem keeps_cardEdit {deletes : Bool} {key : Str} {cards' : List Card} (h : Editable cards)
    (hedit : CardEdit deletes key cards cards') : Keeps cards cards' := by
  cases hedit with
  | set first more hkey hfirst hnew =>
    exact keeps_setCardForKey h hkey fun c hc => (hnew c hc).insertable
  | delete kept hdeletes hkey hdel => exact keeps_deleteCardForKey h hkey hdel
  | deleteCommentary hdeletes hkey => exact keeps_deleteCommentary h hkey
  | appendCommentary text hkey => exact keeps_appendCommentary text h hkey

theorem Keeps.refl (h : Editable cards) : Keeps cards cards := ⟨h, SameStructure.refl cards⟩

theorem keeps_cardEdits {deletes : Bool} {keys : List Str} {cards' : List Card} (h : Editable cards)
    (hedits : CardEdits deletes keys cards cards') : Keeps cards cards' := by
  induction hedits with
  | refl => exact Keeps.refl h
  | tail _ hedit ih =>
    obtain ⟨key, -, hedit⟩ := hedit
    exact ih.trans (keeps_cardEdit ih.1 hedit)

/-- Every method keeps the structure of the cards, also when it raises. -/
theorem preserves_run (floats : Floats F) (m : HeaderMethod F) (base : List Card) :
    Triple (Keeps base) (m.run floats) (fun _ => Keeps base) (fun _ => Keeps base) := by
  intro cards h
  have hrun := performs_run floats m cards cards (CardEdits.refl _ _ cards)
  cases hresult : m.run floats cards with
  | ok a cards' =>
    rw [hresult] at hrun
    exact h.trans (keeps_cardEdits h.1 hrun)
  | error e cards' =>
    rw [hresult] at hrun
    exact h.trans (keeps_cardEdits h.1 hrun)

end

/-! ## What the parser computes -/

section

variable {cards cards' : List Card}

theorem isProtectedKey_naxisKey (n : Nat) : isProtectedKey (naxisKey n) = true := by
  have hmem : str "NAXIS" ∈ indexedPrefixes := by decide
  rw [isProtectedKey, Bool.or_eq_true]
  refine Or.inr (List.any_eq_true.2 ⟨_, hmem, ?_⟩)
  rw [naxisKey, List.drop_left, List.isPrefixOf_iff_prefix.2 (List.prefix_append _ _)]
  have hne : (natDec n).isEmpty = false := by
    rw [List.isEmpty_eq_false_iff]
    exact natDec_ne_nil n
  rw [hne, List.all_eq_true.2 (natDec_digits n)]
  rfl

/-- The keywords that the extent of an HDU is computed from. -/
inductive IsLayoutKey : Str → Prop where
  | bitpix : IsLayoutKey (str "BITPIX")
  | naxis : IsLayoutKey (str "NAXIS")
  | axis (n : Nat) : IsLayoutKey (naxisKey n)
  | pcount : IsLayoutKey (str "PCOUNT")
  | gcount : IsLayoutKey (str "GCOUNT")

/-- Two card lists declare the same data section and are accepted alike. -/
structure SameLayout (cards cards' : List Card) : Prop where
  lookup : ∀ key, IsLayoutKey key → parseKeyword cards' key = parseKeyword cards key
  first : cards'.find? isNonblank = cards.find? isNonblank

theorem SameLayout.trans {a b c : List Card} (h : SameLayout a b) (h' : SameLayout b c) :
    SameLayout a c :=
  ⟨fun key hkey => (h'.lookup key hkey).trans (h.lookup key hkey), h'.first.trans h.first⟩

theorem SameStructure.layout (h : SameStructure cards cards') : SameLayout cards cards' := by
  refine ⟨fun key hkey => h.lookup key ?_, h.first⟩
  cases hkey with
  | axis n => exact isProtectedKey_naxisKey n
  | bitpix | naxis | pcount | gcount => decide

theorem SameLayout.validateAxes (h : SameLayout cards cards') :
    ∀ (count n : Nat), RustFits.validateAxes cards' n count =
      RustFits.validateAxes cards n count := by
  intro count
  induction count with
  | zero =>
    intro n
    rfl
  | succ count ih =>
    intro n
    rw [RustFits.validateAxes, RustFits.validateAxes, h.lookup _ (.axis n), ih]

theorem SameLayout.validateHeader (h : SameLayout cards cards') (isPrimary : Bool) :
    RustFits.validateHeader cards' isPrimary = RustFits.validateHeader cards isPrimary := by
  have hfirst : firstKey cards' = firstKey cards := by
    unfold firstKey
    exact congrArg _ h.first
  unfold RustFits.validateHeader
  rw [hfirst, h.lookup _ .bitpix, h.lookup _ .naxis]
  simp only [h.validateAxes]

theorem SameLayout.axisProduct (h : SameLayout cards cards') :
    ∀ (count i product : Nat), RustFits.axisProduct cards' i count product =
      RustFits.axisProduct cards i count product := by
  intro count
  induction count with
  | zero =>
    intro i product
    rfl
  | succ count ih =>
    intro i product
    rw [RustFits.axisProduct, RustFits.axisProduct, h.lookup _ (.axis i)]
    simp only [ih]

theorem SameLayout.calculateDataSize (h : SameLayout cards cards') :
    RustFits.calculateDataSize cards' = RustFits.calculateDataSize cards := by
  unfold RustFits.calculateDataSize
  rw [h.lookup _ .bitpix, h.lookup _ .naxis, h.lookup _ .pcount, h.lookup _ .gcount]
  simp only [h.axisProduct]

/-- The first card of an accepted header. -/
theorem firstCard_of_accepted {isPrimary : Bool}
    (hvalid : RustFits.validateHeader cards isPrimary = .ok ()) :
    ∃ c, cards.find? isNonblank = some c ∧
      (trim (c.take 8) = str "SIMPLE" ∨ trim (c.take 8) = str "XTENSION") := by
  unfold RustFits.validateHeader firstKey at hvalid
  cases hfind : cards.find? fun c => !(trim c).isEmpty with
  | none =>
    rw [hfind] at hvalid
    cases hvalid
  | some c =>
    refine ⟨c, hfind, ?_⟩
    rw [hfind] at hvalid
    dsimp only [Option.map_some] at hvalid
    -- both forms of the keyword field are the first eight bytes, trimmed
    have hfield : (if 8 ≤ c.length then trim (c.take 8) else trim c) = trim (c.take 8) := by
      split_ifs with h8
      · rfl
      · rw [List.take_of_length_le (by omega)]
    rw [hfield] at hvalid
    by_contra hneither
    rw [not_or] at hneither
    cases isPrimary with
    | true => simp [hneither.1] at hvalid
    | false => simp [hneither.2] at hvalid

/-- The header of an HDU that the parser accepted can be edited. -/
theorem editable_of_accepted {isPrimary : Bool} (hclean : CleanHeader cards)
    (hvalid : RustFits.validateHeader cards isPrimary = .ok ()) : Editable cards := by
  refine ⟨fun c hc => ⟨(hclean.clean c hc).length_le, (hclean.clean c hc).trimmed⟩,
    hclean.closed, ?_⟩
  obtain ⟨c, hfind, hkey⟩ := firstCard_of_accepted hvalid
  refine ⟨c, hfind, ?_, ?_⟩
  · intro hfree
    rw [IsFree] at hfree
    rcases hkey with hk | hk
    · rw [hk] at hfree
      exact absurd hfree (by decide)
    · rw [hk] at hfree
      exact absurd hfree (by decide)
  · rintro rfl
    rcases hkey with hk | hk
    · exact absurd hk (by decide)
    · exact absurd hk (by decide)

/-- An edited header is clean when it is printable. -/
theorem cleanHeader_of_editable (h : Editable cards)
    (hprint : ∀ c ∈ cards, ∀ b ∈ c, isPrintable b = true) : CleanHeader cards :=
  ⟨fun c hc => ⟨(h.short c hc).1, hprint c hc, (h.short c hc).2⟩, h.closed⟩

end

end Header

end RustFits
