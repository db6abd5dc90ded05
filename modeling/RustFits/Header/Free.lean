import RustFits.Header.Model
import RustFits.Reopen

/-!
# Free cards

A card is free when its keyword is not one that the program manages itself.  The
cards that an edit finds by a keyword it may change are free (`matchesKey_free`),
and so are the cards that it builds for one (`buildCardFromValue_keyword` and
`insertable_of_builtFor`).  The two forms of a keyword and the long keys of the
HIERARCH convention are what stands between the keyword of a call and the keyword
field of a card.
-/

namespace RustFits

open Ascii ByteFile Machine

namespace Header

/-! ## Keywords -/

/-- A character of a protected keyword. -/
def isUpperOrDigit (b : UInt8) : Bool := (0x41 ≤ b && b ≤ 0x5A) || isDigit b

theorem not_white_of_upperOrDigit {b : UInt8} (h : isUpperOrDigit b = true) :
    isWhitespace b = false :=
  forall_byte (p := fun b => isUpperOrDigit b = true → isWhitespace b = false)
    (by decide +kernel) b h

example : isUpperOrDigit 0x5F = false := by decide +kernel

theorem toAsciiUppercase_of_upperOrDigit {s : Str} (h : ∀ b ∈ s, isUpperOrDigit b = true) :
    toAsciiUppercase s = s := by
  have hbyte : ∀ b : UInt8, isUpperOrDigit b = true →
      (if 0x61 ≤ b && b ≤ 0x7A then b - 0x20 else b) = b := forall_byte (by decide +kernel)
  exact (List.map_congr_left fun b hb => hbyte b (h b hb)).trans (List.map_id _)

theorem isProtectedKey_chars {key : Str} (h : isProtectedKey key = true) :
    key ≠ [] ∧ ∀ b ∈ key, isUpperOrDigit b = true := by
  have hliteral : ∀ k ∈ literalProtected, k ≠ [] ∧ k.all isUpperOrDigit = true := by decide
  have hindexed : ∀ p ∈ indexedPrefixes, p.all isUpperOrDigit = true := by decide
  rw [isProtectedKey, Bool.or_eq_true, List.contains_iff_mem, List.any_eq_true] at h
  rcases h with h | ⟨p, hp, h⟩
  · exact ⟨(hliteral key h).1, List.all_eq_true.1 (hliteral key h).2⟩
  · simp only [Bool.and_eq_true] at h
    obtain ⟨⟨hpre, hne⟩, hdigits⟩ := h
    obtain ⟨rest, rfl⟩ := List.isPrefixOf_iff_prefix.1 hpre
    rw [List.drop_left] at hne hdigits
    refine ⟨fun hnil => by simp_all, fun b hb => ?_⟩
    rcases List.mem_append.1 hb with hb | hb
    · exact List.all_eq_true.1 (hindexed p hp) b hb
    · rw [isUpperOrDigit, List.all_eq_true.1 hdigits b hb, Bool.or_true]

theorem isToken_of_isProtectedKey {key : Str} (h : isProtectedKey key = true) : IsToken key :=
  ⟨(isProtectedKey_chars h).1, fun b hb =>
    not_white_of_upperOrDigit ((isProtectedKey_chars h).2 b hb)⟩

/-- A protected keyword is its own lookup form. -/
theorem normalizeKeyword_of_isProtectedKey {key : Str} (h : isProtectedKey key = true)
    (hlen : key.length ≤ 8) : normalizeKeyword key = key := by
  have htoken := isToken_of_isProtectedKey h
  have hblank : isHierarchKey key = false := by
    rw [isHierarchKey, Bool.or_eq_false_iff]
    refine ⟨by simpa using hlen, ?_⟩
    rw [Bool.eq_false_iff]
    intro hc
    have := htoken.2 blank (by simpa using hc)
    exact absurd this (by decide)
  rw [normalizeKeyword, trim_of_isToken htoken, hblank]
  exact toAsciiUppercase_of_upperOrDigit (isProtectedKey_chars h).2

theorem toAsciiUppercase_length (s : Str) : (toAsciiUppercase s).length = s.length := by
  simp [toAsciiUppercase]

/-- Upper case changes no white space, and makes none. -/
theorem isWhitespace_upper (b : UInt8) :
    isWhitespace (if 0x61 ≤ b && b ≤ 0x7A then b - 0x20 else b) = isWhitespace b :=
  forall_byte (p := fun b => isWhitespace (if 0x61 ≤ b && b ≤ 0x7A then b - 0x20 else b) =
    isWhitespace b) (by decide +kernel) b

example : toAsciiUppercase (str "a b1") = str "A B1" := by decide +kernel

theorem isHierarchKey_upper (s : Str) : isHierarchKey (toAsciiUppercase s) = isHierarchKey s := by
  have hbyte : ∀ b : UInt8, (if 0x61 ≤ b && b ≤ 0x7A then b - 0x20 else b) = blank ↔ b = blank :=
    forall_byte (by decide +kernel)
  have hblank : (toAsciiUppercase s).contains blank = s.contains blank := by
    rw [Bool.eq_iff_iff, List.contains_iff_mem, List.contains_iff_mem, toAsciiUppercase,
      List.mem_map]
    constructor
    · rintro ⟨b, hb, he⟩
      rwa [← (hbyte b).1 he]
    · exact fun hb => ⟨blank, hb, (hbyte blank).2 rfl⟩
  rw [isHierarchKey, isHierarchKey, toAsciiUppercase_length, hblank]

/-- White space that does not end the text leaves a blank. -/
theorem blank_mem_joinWords :
    ∀ {s : Str} {gap : Bool}, (∀ b ∈ s.getLast?, isWhitespace b = false) → s ≠ [] →
      gap = true ∨ (∃ b ∈ s, isWhitespace b = true) → blank ∈ joinWords gap s := by
  intro s
  induction s with
  | nil =>
    intro gap _ hne
    exact absurd rfl hne
  | cons b rest ih =>
    intro gap hlast _ hsome
    have hrest : ∀ c ∈ rest.getLast?, isWhitespace c = false := by
      intro c hc
      apply hlast c
      cases rest with
      | nil => simp at hc
      | cons d rest => simpa using hc
    rw [joinWords]
    by_cases hb : isWhitespace b = true
    · rw [if_pos hb]
      refine ih hrest ?_ (Or.inl rfl)
      rintro rfl
      rw [hlast b (by simp)] at hb
      exact Bool.noConfusion hb
    · rw [if_neg hb]
      by_cases hg : gap = true
      · rw [if_pos hg]
        exact List.mem_cons_self
      · rw [if_neg hg]
        obtain ⟨c, hc, hcw⟩ := hsome.resolve_left hg
        have hc' : c ∈ rest := by
          rcases List.mem_cons.1 hc with rfl | hc
          · exact absurd hcw hb
          · exact hc
        exact List.mem_cons_of_mem _
          (ih hrest (List.ne_nil_of_mem hc') (Or.inr ⟨c, hc', hcw⟩))

theorem joinWords_of_token :
    ∀ {s : Str}, (∀ b ∈ s, isWhitespace b = false) → joinWords false s = s := by
  intro s
  induction s with
  | nil =>
    intro _
    rfl
  | cons b rest ih =>
    intro h
    rw [joinWords, if_neg (by rw [h b (by simp)]; decide), if_neg (by decide),
      ih fun c hc => h c (List.mem_cons_of_mem _ hc)]

theorem trim_getLast (s : Str) : ∀ b ∈ (trim s).getLast?, isWhitespace b = false := by
  intro b hb
  have hself := (List.rdropWhile_eq_self_iff).1
    (List.rdropWhile_idempotent isWhitespace (trimStart s))
  have hne : trim s ≠ [] := by
    rintro he
    rw [he] at hb
    simp at hb
  rw [List.getLast?_eq_some_getLast hne, Option.mem_some_iff] at hb
  rw [← hb, Bool.eq_false_iff]
  exact hself hne

theorem trimStart_trim (s : Str) : trimStart (trim s) = trim s := by
  have hidem : trimStart (trimStart s) = trimStart s := List.dropWhile_idempotent _ _
  obtain ⟨w, hw⟩ : ∃ w, trim s ++ w = trimStart s := List.rdropWhile_prefix _ _
  cases ht : trim s with
  | nil => rfl
  | cons b rest =>
    rw [ht, List.cons_append] at hw
    have hb : isWhitespace b = false := by
      rw [Bool.eq_false_iff]
      intro hb
      rw [← hw, trimStart, List.dropWhile_cons_of_pos hb] at hidem
      have hlen := (List.dropWhile_suffix isWhitespace (l := rest ++ w)).length_le
      rw [hidem, List.length_cons] at hlen
      omega
    rw [trimStart, List.dropWhile_cons_of_neg (by simp [hb])]

/-- Collapsing white space does not turn a long key into a short one. -/
theorem isHierarchKey_collapse {key : Str} (h : isHierarchKey (trim key) = true) :
    isHierarchKey (collapseWhitespace (trim key)) = true := by
  rw [collapseWhitespace, trimStart_trim]
  by_cases hw : ∃ b ∈ trim key, isWhitespace b = true
  · obtain ⟨b, hb, hbw⟩ := hw
    have hmem : blank ∈ joinWords false (trim key) :=
      blank_mem_joinWords (trim_getLast key) (List.ne_nil_of_mem hb) (Or.inr ⟨b, hb, hbw⟩)
    rw [isHierarchKey, List.contains_iff_mem.2 hmem, Bool.or_true]
  · rw [joinWords_of_token]
    · exact h
    · intro b hb
      rw [Bool.eq_false_iff]
      exact fun hbw => hw ⟨b, hb, hbw⟩

/-- A short storage form is the lookup form. -/
theorem storageKeyword_eq_normalize {key : Str} (h : isHierarchKey (storageKeyword key) = false) :
    storageKeyword key = normalizeKeyword key := by
  unfold storageKeyword normalizeKeyword at *
  by_cases hk : isHierarchKey (trim key) = true
  · rw [if_pos hk, isHierarchKey_collapse hk] at h
    exact Bool.noConfusion h
  · rw [if_neg hk, if_neg hk]

theorem keywordChar_of_valid {key : Str} (hvalid : validateKeyword key = .ok ()) {c : UInt8}
    (hc : c ∈ key) : isKeywordChar (isHierarchKey key) c = true := by
  unfold validateKeyword at hvalid
  split_ifs at hvalid
  split at hvalid
  · rename_i hnone
    simpa using List.find?_eq_none.1 hnone c hc
  · cases hvalid

/-- A short lookup form of a valid keyword is a token of at most eight bytes. -/
theorem isToken_normalizeKeyword {key : Str} (hvalid : validateKeyword key = .ok ())
    (hne : normalizeKeyword key ≠ []) (h : isHierarchKey (normalizeKeyword key) = false) :
    IsToken (normalizeKeyword key) ∧ (normalizeKeyword key).length ≤ 8 := by
  have hk : isHierarchKey (trim key) = false := by
    rw [Bool.eq_false_iff]
    intro hk
    rw [normalizeKeyword, if_pos hk, isHierarchKey_upper, isHierarchKey_collapse hk] at h
    exact Bool.noConfusion h
  have hform : normalizeKeyword key = toAsciiUppercase (trim key) := by
    rw [normalizeKeyword, if_neg (by rw [hk]; decide)]
  refine ⟨⟨hne, fun b hb => ?_⟩, ?_⟩
  · rw [hform, toAsciiUppercase] at hb
    obtain ⟨c, hc, rfl⟩ := List.mem_map.1 hb
    rw [isWhitespace_upper]
    have hck : c ∈ key := (List.dropWhile_suffix _).sublist.subset (mem_of_mem_trimEnd hc)
    have hchar := keywordChar_of_valid hvalid hck
    have hnotblank : c ≠ blank := by
      rintro rfl
      rw [isHierarchKey, Bool.or_eq_false_iff] at hk
      rw [List.contains_iff_mem.2 hc] at hk
      exact Bool.noConfusion hk.2
    have hall : ∀ (q : Bool) (c : UInt8), isKeywordChar q c = true → c ≠ blank →
        isWhitespace c = false := fun q => forall_byte (by cases q <;> decide +kernel)
    exact hall _ c hchar hnotblank
  · rw [hform, toAsciiUppercase_length]
    rw [isHierarchKey, Bool.or_eq_false_iff] at hk
    simpa using hk.1

/-! ## Free cards -/

/-- A card of no protected keyword. -/
def IsFree (card : Card) : Prop := isProtectedKey (trim (card.take 8)) = false

theorem not_decides_of_isFree {card : Card} {key : Str} (h : IsFree card)
    (hkey : isProtectedKey key = true) : decidesKey key card = false := by
  rw [Bool.eq_false_iff]
  intro hd
  rw [IsFree, keyword_of_decidesKey hd, hkey] at h
  exact Bool.noConfusion h

theorem endCard_not_free : ¬ IsFree endCard := by
  unfold IsFree
  decide

/-- The card is not blank. -/
def isNonblank (c : Card) : Bool := !(trim c).isEmpty

theorem nonblank_of_trimEnd {c : Card} (h : trimEnd c ≠ []) : isNonblank c = true := by
  rw [isNonblank, Bool.not_eq_true', Bool.eq_false_iff]
  intro hblank
  apply h
  rw [trimEnd, List.rdropWhile_eq_nil_iff]
  have hall := (List.rdropWhile_eq_nil_iff).1 (List.isEmpty_iff.1 hblank)
  intro b hb
  by_contra hw
  have hsplit := List.takeWhile_append_dropWhile (p := isWhitespace) (l := c)
  rw [← hsplit, List.mem_append] at hb
  rcases hb with hb | hb
  · exact hw (List.mem_takeWhile_imp hb)
  · exact hw (hall b hb)

/-- The card of a lookup form that is not protected is free. -/
theorem matchesKey_free {key : Str} {card : Card} (hkey : isProtectedKey key = false)
    (h : matchesKey key card = true) : IsFree card ∧ isNonblank card = true := by
  unfold matchesKey keywordOf at h
  dsimp only at h
  by_cases hempty : (trimEnd card).isEmpty = true
  · rw [if_pos hempty] at h
    exact Bool.noConfusion h
  · rw [if_neg hempty] at h
    refine ⟨?_, nonblank_of_trimEnd (by simpa using hempty)⟩
    rw [IsFree, ← trim_take_trimEnd, Bool.eq_false_iff]
    intro hprot
    by_cases hh : trim ((trimEnd card).take 8) = hierarchKey
    · rw [hh] at hprot
      exact absurd hprot (by decide)
    · rw [if_neg hh] at h
      have hlen : (trim ((trimEnd card).take 8)).length ≤ 8 := by
        have h1 := ((List.rdropWhile_prefix isWhitespace
          (trimStart ((trimEnd card).take 8))).sublist.trans
          (List.dropWhile_suffix _).sublist).length_le
        have h2 := List.length_take_le 8 (trimEnd card)
        exact Nat.le_trans h1 h2
      simp only [Bool.and_eq_true, decide_eq_true_eq] at h
      rw [normalizeKeyword_of_isProtectedKey hprot hlen] at h
      rw [h.2, hkey] at hprot
      exact Bool.noConfusion hprot

/-- The card starts with a keyword field. -/
def HasKeyword (key : Str) (card : Card) : Prop := ∃ rest, card = padToCard (padRight 8 key ++ rest)

theorem isFree_of_hasKeyword {key : Str} {card : Card} (htrim : trim key = key)
    (hlen : key.length ≤ 8) (hfree : isProtectedKey key = false) (h : HasKeyword key card) :
    IsFree (trimEnd card) := by
  obtain ⟨rest, rfl⟩ := h
  have hfield : (padRight 8 key).length = 8 := by rw [padRight_length]; omega
  have htake : (padToCard (padRight 8 key ++ rest)).take 8 = padRight 8 key := by
    rw [padToCard, padRight, cardSize, List.take_append_of_le_length (by simp [hfield]),
      List.take_take, Nat.min_eq_left (by omega), List.take_left' hfield]
  rw [IsFree, trim_take_trimEnd, htake, padRight, trim_append_blanks, htrim]
  exact hfree

theorem withComment_eq (body comment : Str) : ∃ tail, withComment body comment = body ++ tail := by
  unfold withComment
  split_ifs
  · exact ⟨[], by simp⟩
  · exact ⟨str " / " ++ comment, by rw [List.append_assoc]⟩

theorem continue_eq (s : Str) :
    str "CONTINUE  '" ++ s = padRight 8 continueKey ++ (str "  '" ++ s) := rfl

theorem hierarch_eq (s : Str) : str "HIERARCH " ++ s = padRight 8 hierarchKey ++ (blank :: s) := rfl

theorem continueCards_keyword (comment : Str) :
    ∀ (fuel : Nat) (rest : Str), ∀ c ∈ continueCards comment fuel rest,
    HasKeyword continueKey c := by
  intro fuel
  induction fuel with
  | zero => simp [continueCards]
  | succ fuel ih =>
    intro rest c hc
    rw [continueCards] at hc
    split_ifs at hc with h1 h2
    · simp at hc
    · obtain ⟨tail, htail⟩ := withComment_eq (str "CONTINUE  '" ++ rest ++ str "'") comment
      rw [List.mem_singleton.1 hc, htail, List.append_assoc, List.append_assoc, continue_eq]
      exact ⟨_, rfl⟩
    · rcases List.mem_cons.1 hc with rfl | hc
      · rw [List.append_assoc, continue_eq]
        exact ⟨_, rfl⟩
      · exact ih _ c hc

/-- The card starts with a keyword field and an equals sign. -/
def HasValue (key : Str) (card : Card) : Prop :=
  ∃ rest, card = padToCard (padRight 8 key ++ 0x3D :: rest)

/-- The card starts with a long key of the HIERARCH convention and its equals
sign. -/
def HasLongKey (key : Str) (card : Card) : Prop :=
  key.length ≤ 69 ∧ ∃ rest, card = padToCard (str "HIERARCH " ++ key ++ [blank] ++ 0x3D :: rest)

theorem hasKeyword_of_hasValue {key : Str} {card : Card} (h : HasValue key card) :
    HasKeyword key card := by
  obtain ⟨rest, rfl⟩ := h
  exact ⟨_, rfl⟩

theorem hasKeyword_of_hasLongKey {key : Str} {card : Card} (h : HasLongKey key card) :
    HasKeyword hierarchKey card := by
  obtain ⟨-, rest, rfl⟩ := h
  rw [List.append_assoc, List.append_assoc, hierarch_eq]
  exact ⟨_, rfl⟩

/-- A card of a short keyword, of a HIERARCH keyword or of a continuation. -/
def BuiltFor (key : Str) (card : Card) : Prop :=
  isHierarchKey key = false ∧ HasValue key card ∨ isHierarchKey key = true ∧ HasLongKey key card ∨
    HasKeyword continueKey card

theorem cardFixed_value (key value comment : Str) : HasValue key (cardFixed key value comment) := by
  unfold cardFixed
  dsimp only
  split_ifs
  · exact ⟨_, by rw [List.append_assoc]; rfl⟩
  · exact ⟨_, by rw [List.append_assoc, List.append_assoc, List.append_assoc]; rfl⟩

theorem cardString_value (key value comment : Str) :
    HasValue key (cardString key value comment) := by
  unfold cardString
  dsimp only
  split_ifs
  · exact ⟨_, by rw [List.append_assoc, List.append_assoc]; rfl⟩
  · exact ⟨_, by rw [padRight, List.append_assoc, List.append_assoc, List.append_assoc,
      List.append_assoc, List.append_assoc]; rfl⟩
  · exact ⟨_, by
      rw [List.append_assoc, List.append_assoc, List.append_assoc, List.append_assoc]; rfl⟩

/-- The cards of a value: one of the kind `p`, and continuations. -/
def ValueCards (p : Card → Prop) (cards : List Card) : Prop :=
  ∃ first rest, cards = first :: rest ∧ p first ∧ ∀ c ∈ rest, HasKeyword continueKey c

theorem ValueCards.single {p : Card → Prop} {card : Card} (h : p card) : ValueCards p [card] :=
  ⟨card, [], rfl, h, by simp⟩

theorem ValueCards.imp {p q : Card → Prop} {cards : List Card} (h : ValueCards p cards)
    (hpq : ∀ c, p c → q c) : ValueCards q cards := by
  obtain ⟨first, rest, hcards, hfirst, hrest⟩ := h
  exact ⟨first, rest, hcards, hpq first hfirst, hrest⟩

theorem buildStringValueCards_cards {key value comment : Str} {cards : List Card}
    (h : buildStringValueCards key value comment = .ok cards) :
    ValueCards (HasValue key) cards := by
  unfold buildStringValueCards at h
  dsimp only at h
  split_ifs at h
  · cases h
    exact .single (cardString_value key value comment)
  · cases h
    exact ⟨_, _, rfl, ⟨_, by rw [List.append_assoc, List.append_assoc]; rfl⟩,
      continueCards_keyword comment _ _⟩

theorem assembleHierarchSingle_cards {key value comment : Str} {cards : List Card}
    (h : assembleHierarchSingle key value comment = .ok cards) :
    ValueCards (HasLongKey key) cards := by
  unfold assembleHierarchSingle at h
  dsimp only at h
  split_ifs at h with hlong
  cases h
  obtain ⟨tail, htail⟩ := withComment_eq (str "HIERARCH " ++ key ++ str " = " ++ value) comment
  rw [htail, cardSize] at hlong
  simp only [List.length_append, show (str "HIERARCH ").length = 9 from rfl,
    show (str " = ").length = 3 from rfl] at hlong
  refine .single ⟨by omega, str " " ++ (value ++ tail), ?_⟩
  rw [htail]
  simp only [List.append_assoc]
  rfl

theorem buildHierarchStringCards_cards {key value comment : Str} {cards : List Card}
    (h : buildHierarchStringCards key value comment = .ok cards) :
    ValueCards (HasLongKey key) cards := by
  unfold buildHierarchStringCards at h
  dsimp only at h
  by_cases hshort : (withComment (str "HIERARCH " ++ key ++ str " = '" ++
      padRight 8 (doubleQuotes value) ++ str "'") comment).length ≤ cardSize
  · rw [if_pos hshort] at h
    cases h
    obtain ⟨tail, htail⟩ := withComment_eq (str "HIERARCH " ++ key ++ str " = '" ++
      padRight 8 (doubleQuotes value) ++ str "'") comment
    rw [htail, cardSize] at hshort
    simp only [List.length_append, padRight_length, show (str "HIERARCH ").length =
      9 from rfl] at hshort
    refine .single
      ⟨by omega, str " '" ++ (padRight 8 (doubleQuotes value) ++ (str "'" ++ tail)), ?_⟩
    rw [htail]
    simp only [List.append_assoc]
    rfl
  · rw [if_neg hshort] at h
    split_ifs at h with hempty hkey hcomment hrest
    all_goals
      cases h
      refine ⟨_, _, rfl, ⟨by omega, str " '" ++ ((doubleQuotes value).take (chunkSize
        (doubleQuotes value) (min (65 - key.length) (doubleQuotes value).length)) ++ str "&'"), ?_⟩,
        ?_⟩
      · simp only [List.append_assoc]
        rfl
    · obtain ⟨tail, htail⟩ := withComment_eq (str "CONTINUE  ''") comment
      intro c hc
      rw [List.mem_singleton.1 hc, htail]
      exact ⟨str "  ''" ++ tail, rfl⟩
    · exact continueCards_keyword comment _ _

section

variable {F : Type} {floats : Floats F}

theorem buildHierarchCards_cards {key : Str} {value : HeaderValue F} {comment : Str}
    {cards : List Card} (h : buildHierarchCards floats key value comment = .ok cards) :
    ValueCards (HasLongKey key) cards := by
  cases value with
  | logical b => exact assembleHierarchSingle_cards h
  | integer n => exact assembleHierarchSingle_cards h
  | complex re im => exact assembleHierarchSingle_cards h
  | real x => exact assembleHierarchSingle_cards h
  | string s => exact buildHierarchStringCards_cards h
  | undefined => cases h

/-- The first card of a value has the keyword, the others continue it. -/
theorem buildCardFromValue_cards {key : Str} {value : HeaderValue F} {comment : Str}
    {cards : List Card} (h : buildCardFromValue floats key value comment = .ok cards) :
    ValueCards (fun c => isHierarchKey key = false ∧ HasValue key c ∨
      isHierarchKey key = true ∧ HasLongKey key c) cards := by
  unfold buildCardFromValue at h
  by_cases hk : isHierarchKey key = true
  · rw [if_pos hk] at h
    exact (buildHierarchCards_cards h).imp fun c hc => Or.inr ⟨hk, hc⟩
  · rw [if_neg hk] at h
    have hshort : isHierarchKey key = false := Bool.eq_false_iff.2 hk
    have hvalue : ValueCards (HasValue key) cards := by
      cases value with
      | logical b =>
        cases h
        exact .single (cardFixed_value _ _ _)
      | integer n =>
        cases h
        exact .single (cardFixed_value _ _ _)
      | complex re im =>
        dsimp only [cardComplex] at h
        split_ifs at h
        · cases h
        · cases h
          obtain ⟨tail, htail⟩ :=
            withComment_eq (padRight 8 key ++ str "= " ++ complexText floats re im) comment
          rw [htail, List.append_assoc, List.append_assoc]
          exact .single ⟨_, rfl⟩
      | real x =>
        cases h
        exact .single (cardFixed_value _ _ _)
      | string s => exact buildStringValueCards_cards h
      | undefined => cases h
    exact hvalue.imp fun c hc => Or.inl ⟨hshort, hc⟩

theorem buildCardFromValue_keyword {key : Str} {value : HeaderValue F} {comment : Str}
    {cards : List Card} (h : buildCardFromValue floats key value comment = .ok cards) :
    ∀ c ∈ cards, BuiltFor key c := by
  obtain ⟨first, rest, rfl, hfirst, hrest⟩ := buildCardFromValue_cards h
  refine List.forall_mem_cons.2 ⟨?_, fun c hc => Or.inr (Or.inr (hrest c hc))⟩
  rcases hfirst with hfirst | hfirst
  · exact Or.inl hfirst
  · exact Or.inr (Or.inl hfirst)

end

/-- A card of at most 80 bytes without trailing white space. -/
def IsShort (card : Card) : Prop := card.length ≤ 80 ∧ trimEnd card = card

theorem isShort_trimEnd_padToCard (s : Str) : IsShort (trimEnd (padToCard s)) := by
  refine ⟨?_, trimEnd_trimEnd _⟩
  have h := trimEnd_length_le (padToCard s)
  rw [padToCard_length] at h
  exact h

/-- A card that an edit may insert. -/
structure Insertable (card : Card) : Prop where
  free : IsFree card
  short : IsShort card

theorem insertable_of_hasKeyword {key : Str} {card : Card} (htrim : trim key = key)
    (hlen : key.length ≤ 8) (hfree : isProtectedKey key = false) (h : HasKeyword key card) :
    Insertable (trimEnd card) := by
  refine ⟨isFree_of_hasKeyword htrim hlen hfree h, ?_⟩
  obtain ⟨rest, rfl⟩ := h
  exact isShort_trimEnd_padToCard _

/-- The cards built for a storage keyword that agrees with the lookup form. -/
theorem insertable_of_builtFor {key : Str} {card : Card}
    (hkey : isHierarchKey key = false →
      IsToken key ∧ key.length ≤ 8 ∧ isProtectedKey key = false)
    (h : BuiltFor key card) : Insertable (trimEnd card) := by
  rcases h with ⟨hshort, h⟩ | ⟨-, h⟩ | h
  · obtain ⟨htoken, hlen, hfree⟩ := hkey hshort
    exact insertable_of_hasKeyword (trim_of_isToken htoken) hlen hfree (hasKeyword_of_hasValue h)
  · exact insertable_of_hasKeyword (by decide) (by decide) (by decide) (hasKeyword_of_hasLongKey h)
  · exact insertable_of_hasKeyword (by decide) (by decide) (by decide) h

end Header

end RustFits
