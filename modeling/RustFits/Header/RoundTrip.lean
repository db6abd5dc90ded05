import RustFits.Header.Reopen
import RustFits.Header.StringCards

/-!
# Strings in the header

A string value that a header was given reads back, from the card list and from its
bytes.

* `RoundTrips` is what a reader of the header expects of an assignment: the cards
  hold what was written, and the value and the comment read back.
* `StringFits` is when this is so.  It has a condition for each place where the
  writer and the reader disagree: cards that are too long, white space at the end of
  a value or at the ends of a comment, a card of the comment that is not written,
  CONTINUE cards that stand behind the ones that were written, and two keywords that
  the lookup does not find.
* `setString_roundTrips_iff` says that the assignment is right exactly then.
-/

namespace RustFits

open Ascii ByteFile Machine

namespace Header

section

variable {F : Type} (floats : Floats F)

/-- The value and the comment under a lookup form: `__getitem__` and `comment_of`. -/
def readKey (cards : List Card) (lookup : Str) : Option (HeaderValue F × Str) :=
  (findCardForKey cards lookup).map fun found => parseValueWithContinue floats found.1 found.2

end

/-! ## Reading on behind the cards -/

section

variable {s comment : Str} {cards : List Card}

theorem readContinued_of_last (h : s.getLast? ≠ some ampersand) :
    readContinued s comment cards = (s, comment) := by
  cases cards with
  | nil => rfl
  | cons card rest =>
    have hfalse : (s.getLast? == some 0x26) = false := by simpa [ampersand] using h
    rw [readContinued, hfalse]
    rfl

theorem trim_append_blank {a b : Str} (ha : trim a = a) (hb : trim b = b) (hane : a ≠ [])
    (hbne : b ≠ []) : trim (a ++ [blank] ++ b) = a ++ [blank] ++ b := by
  refine trim_of_ends (fun c hc => ?_) fun c hc => ?_
  · obtain ⟨d, rest, rfl⟩ := List.exists_cons_of_ne_nil hane
    obtain rfl : d = c := by simpa using hc
    have hstart := trimStart_trim (d :: rest)
    rw [ha] at hstart
    rw [Bool.eq_false_iff]
    intro hd
    rw [trimStart, List.dropWhile_cons_of_pos hd] at hstart
    have hlen := (List.dropWhile_suffix isWhitespace (l := rest)).length_le
    rw [hstart, List.length_cons] at hlen
    omega
  · rw [List.getLast?_append_of_ne_nil _ hbne, ← hb] at hc
    exact trim_getLast b c hc

/-- Comments are put together from trimmed ones. -/
theorem readContinued_trim : ∀ {cards : List Card} {s comment : Str}, trim comment = comment →
    trim (readContinued s comment cards).2 = (readContinued s comment cards).2 := by
  intro cards
  induction cards with
  | nil =>
    intro s comment h
    exact h
  | cons next rest ih =>
    intro s comment h
    rw [readContinued]
    split_ifs with hcontinue hempty hnone
    · exact ih h
    · exact ih (trim_trim _)
    · have hraw : trim (splitValueComment (afterKeyword (trimEnd next))).2 =
          (splitValueComment (afterKeyword (trimEnd next))).2 := trim_trim _
      exact ih (trim_append_blank h hraw (by simpa using hnone) (by simpa using hempty))
    · exact h

end

/-- What a right reader has read in front of the cards that follow. -/
def expected (key value comment : Str) : Str × Str :=
  if NothingLeft key value comment then (value ++ [ampersand], []) else (trimEnd value, comment)

/-- The text of the value and the comment read back in front of the cards `back`. -/
structure TextFits (key value comment : Str) (back : List Card) : Prop where
  blanks : BlanksFit key value comment
  trimmed : trim comment = comment
  behind : readContinued (expected key value comment).1 (expected key value comment).2 back =
    (trimEnd value, comment)

theorem blanksFit_of_last {key value comment : Str}
    (h : value.getLast? = some quote) : BlanksFit key value comment := by
  obtain ⟨front, rfl⟩ := List.getLast?_eq_some_iff.1 h
  have hzero : whiteTail (front ++ [quote]) = 0 := by
    have hlen := trimEnd_length (front ++ [quote])
    rw [trimEnd_append (b := []) (by decide)] at hlen
    simp [trimEnd] at hlen
    exact hlen
  rw [BlanksFit, hzero]
  split_ifs
  · exact Or.inr ⟨Nat.zero_le _, Nat.zero_le _⟩
  · exact Nat.zero_le _

theorem textFits_iff {key value comment : Str} {pending : Str × Str}
    (h : Pending key value comment pending) (back : List Card) :
    readContinued pending.1 pending.2 back = (trimEnd value, comment) ↔
      TextFits key value comment back := by
  have htrim : ∀ {s c : Str}, readContinued s (trim c) back = (trimEnd value, comment) →
      trim comment = comment := by
    intro s c hread
    have := @readContinued_trim back s (trim c) (trim_trim c)
    rwa [hread] at this
  by_cases hlost : NothingLeft key value comment
  · rw [h.lost hlost]
    have hexpected : expected key value comment = (value ++ [ampersand], []) := if_pos hlost
    constructor
    · intro hread
      exact ⟨blanksFit_of_last hlost.2.1,
        htrim (c := []) hread, by rw [hexpected]; exact hread⟩
    · intro hfits
      have := hfits.behind
      rwa [hexpected] at this
  · obtain ⟨front, last, hvalue, hpending, hblanks⟩ := h.read hlost
    have hexpected : expected key value comment = (trimEnd value, comment) := if_neg hlost
    rw [hpending]
    dsimp only
    have hiff := append_trimEnd_iff front last
    rw [← hvalue, hblanks] at hiff
    constructor
    · intro hread
      have hfits : BlanksFit key value comment := by
        rw [← hiff]
        -- without the condition the text read ends with a blank, and reading stops there
        have hstop : (front ++ trimEnd last).getLast? ≠ some ampersand ∨
            front ++ trimEnd last = trimEnd value := by
          by_cases hlast : trimEnd last = []
          · rw [hlast, List.append_nil]
            by_cases hamp : front.getLast? = some ampersand
            · right
              have hle := (append_trimEnd_iff front last).2 (whiteTail_append_le (Or.inl (by
                rw [hamp]
                rintro c ⟨⟩
                decide)))
              rwa [hlast, List.append_nil, ← hvalue] at hle
            · exact Or.inl hamp
          · right
            rw [hvalue, whiteTail_append_of_ne hlast]
        rcases hstop with hstop | heq
        · rw [readContinued_of_last hstop] at hread
          exact congrArg Prod.fst hread
        · exact heq
      have hcom := htrim hread
      refine ⟨hfits, hcom, ?_⟩
      rw [hexpected]
      rw [hcom, hiff.2 hfits] at hread
      exact hread
    · intro hfits
      have := hfits.behind
      rw [hexpected] at this
      rw [hiff.2 hfits.blanks, hfits.trimmed]
      exact this

/-! ## Looking a keyword up -/

section

variable {key : Str} {card : Card} {rest : List Card}

/-- A card of another keyword is passed over. -/
theorem findCardForKey_skip (hkey : key ∉ skippedKeys) (h : matchesKey key card = false) :
    findCardForKey (card :: rest) key = findCardForKey rest key := by
  have hskipped : ∀ k ∈ skippedKeys, normalizeKeyword k = k := by decide
  rw [findCardForKey]
  unfold matchesKey keywordOf at h
  dsimp only at h ⊢
  by_cases hempty : (trimEnd card).isEmpty = true
  · rw [if_pos (by rw [hempty, Bool.true_or])]
  · rw [if_neg hempty] at h
    by_cases hfield : skippedKeys.contains (trim ((trimEnd card).take 8)) = true
    · rw [if_pos (by rw [hfield, Bool.or_true])]
    · rw [if_neg (by simp only [Bool.or_eq_true, not_or]; exact ⟨hempty, hfield⟩)]
      cases hafter : afterEquals (trimEnd card) with
      | none => rfl
      | some value =>
        dsimp only
        refine if_neg fun hnormal => ?_
        rw [hafter, Option.isSome_some, Bool.true_and] at h
        by_cases hlong : trim ((trimEnd card).take 8) = hierarchKey
        · rw [if_pos hlong] at h hnormal
          by_cases hnil : trim (((trimEnd card).takeWhile fun b => b != 0x3D).drop 8) = []
          · rw [hnil] at hnormal
            apply hkey
            rw [← hnormal]
            decide
          · rw [if_pos (by simpa using hnil)] at h
            dsimp only at h
            rw [hnormal, decide_eq_true rfl, Bool.and_true, Bool.not_eq_false'] at h
            apply hkey
            rw [← hnormal, hskipped _ (List.contains_iff_mem.1 h)]
            exact List.contains_iff_mem.1 h
        · rw [if_neg hlong] at h hnormal
          dsimp only at h
          rw [hnormal, decide_eq_true rfl, Bool.and_true, Bool.not_eq_false'] at h
          exact hfield h

theorem findCardForKey_append {front : List Card} (hkey : key ∉ skippedKeys)
    (h : ∀ c ∈ front, matchesKey key c = false) :
    findCardForKey (front ++ rest) key = findCardForKey rest key := by
  induction front with
  | nil => rfl
  | cons c front ih =>
    rw [List.cons_append, findCardForKey_skip hkey (h c (by simp))]
    exact ih fun d hd => h d (List.mem_cons_of_mem _ hd)

/-- A card of the keyword with an equals sign is the one. -/
theorem findCardForKey_hit {value : Str} (hlong : key ≠ hierarchKey)
    (h : matchesKey key card = true) (hvalue : afterEquals (trimEnd card) = some value) :
    findCardForKey (card :: rest) key = some (rest, value) := by
  rw [findCardForKey]
  unfold matchesKey keywordOf at h
  dsimp only at h ⊢
  by_cases hempty : (trimEnd card).isEmpty = true
  · rw [if_pos hempty] at h
    exact Bool.noConfusion h
  · rw [if_neg hempty, hvalue, Option.isSome_some, Bool.true_and] at h
    rw [hvalue]
    dsimp only
    by_cases hfield : trim ((trimEnd card).take 8) = hierarchKey
    · rw [if_pos hfield] at h
      by_cases hnil : trim (((trimEnd card).takeWhile fun b => b != 0x3D).drop 8) = []
      · rw [if_neg (by simp [hnil])] at h
        simp only [Bool.and_eq_true, decide_eq_true_eq] at h
        exact absurd (h.2.symm.trans (by decide)) hlong
      · rw [if_pos (by simpa using hnil)] at h
        simp only [Bool.and_eq_true, decide_eq_true_eq] at h
        rw [if_pos hfield, if_pos h.2, hfield, if_neg]
        simp only [Bool.or_eq_true, not_or]
        exact ⟨hempty, by decide⟩
    · rw [if_neg hfield] at h
      simp only [Bool.and_eq_true, decide_eq_true_eq, Bool.not_eq_true'] at h
      rw [if_neg hfield, if_pos h.2, if_neg]
      simp only [Bool.or_eq_true, not_or]
      exact ⟨hempty, by rw [h.1]; decide⟩

theorem afterEquals_front {front text : Str} (h : 0x3D ∉ front) :
    afterEquals (front ++ 0x3D :: text) = some text := by
  unfold afterEquals
  rw [List.dropWhile_append_of_pos, List.dropWhile_cons_of_neg (by decide)]
  intro b hb
  have : b ≠ 0x3D := fun he => h (he ▸ hb)
  simpa using this

end

/-! ## The keyword of the cards -/

/-- The storage form that the cards of a call are written under. -/
def storedKeyword (cards : List Card) (key : Str) : Str :=
  (existingStorageKeyword cards (normalizeKeyword key)).getD (storageKeyword key)

/-- What the storage form has to do with the lookup form of the call. -/
structure StoredAs (lookup storage : Str) : Prop where
  equals : 0x3D ∉ storage
  printable : ∀ b ∈ storage, isPrintable b = true
  short : isHierarchKey storage = false → storage = lookup ∧ IsToken storage ∧ storage.length ≤ 8
  long : isHierarchKey storage = true → trim storage = storage ∧ storage ≠ [] ∧
    normalizeKeyword storage = lookup ∧ isHierarchKey lookup = true
  upper : toAsciiUppercase lookup = lookup

theorem printable_normalize {key : Str} (hvalid : validateKeyword key = .ok ()) :
    ∀ b ∈ normalizeKeyword key, isPrintable b = true := by
  have hchar : ∀ q, ∀ b : UInt8, isKeywordChar q b = true → isPrintable b = true :=
    fun q => forall_byte (by cases q <;> decide +kernel)
  have hupper : ∀ b : UInt8, isPrintable b = true →
      isPrintable (if 0x61 ≤ b && b ≤ 0x7A then b - 0x20 else b) = true :=
    forall_byte (by decide +kernel)
  have htrim : ∀ b ∈ trim key, isPrintable b = true := fun b hb =>
    hchar _ b (keywordChar_of_valid hvalid
      ((List.dropWhile_suffix _).sublist.subset (mem_of_mem_trimEnd hb)))
  have hmap : ∀ s : Str, (∀ b ∈ s, isPrintable b = true) →
      ∀ b ∈ toAsciiUppercase s, isPrintable b = true := by
    intro s hs b hb
    obtain ⟨c, hc, rfl⟩ := List.mem_map.1 hb
    exact hupper c (hs c hc)
  unfold normalizeKeyword
  split_ifs
  · refine hmap _ fun b hb => ?_
    rw [collapseWhitespace, trimStart_trim] at hb
    rcases mem_joinWords b hb with rfl | hb
    · decide
    · exact htrim b hb
  · exact hmap _ htrim

theorem storedAs_of_call {key : Str} {cards : List Card} (hvalid : validateKeyword key = .ok ())
    (hkey : Settable (normalizeKeyword key)) :
    StoredAs (normalizeKeyword key) (storedKeyword cards key) := by
  obtain ⟨kw, hstorage, hkw⟩ := @storage_of_call cards key _ rfl
  have hlookupUpper : ∀ k : Str, toAsciiUppercase (normalizeKeyword k) = normalizeKeyword k := by
    intro k
    unfold normalizeKeyword
    split_ifs <;> exact toAsciiUppercase_upper _
  rw [storedKeyword, hstorage]
  cases hlong : isHierarchKey (storageKeyword kw) with
  | false =>
    have heq := (storageKeyword_eq_normalize hlong).trans hkw
    have hshort := hlong
    rw [heq] at hshort ⊢
    obtain ⟨htoken, hlen⟩ := isToken_normalizeKeyword hvalid hkey.2 hshort
    refine ⟨equals_not_mem_normalize hvalid, printable_normalize hvalid, fun _ =>
      ⟨rfl, htoken, hlen⟩, fun h => ?_, hlookupUpper key⟩
    rw [hshort] at h
    exact Bool.noConfusion h
  | true =>
    obtain ⟨hupper, htrim, hnormal⟩ := storageKeyword_long hlong
    rw [hkw] at hupper hnormal
    have hchars : ∀ b ∈ storageKeyword kw,
        (if 0x61 ≤ b && b ≤ 0x7A then b - 0x20 else b) ∈ normalizeKeyword key := by
      intro b hb
      rw [← hupper]
      exact List.mem_map_of_mem hb
    refine ⟨fun hmem => equals_not_mem_normalize hvalid (hchars _ hmem), fun b hb =>
      ?_, fun h => ?_, fun _ => ⟨htrim, ?_, hnormal, ?_⟩, hlookupUpper key⟩
    · have hlower : ∀ b : UInt8,
          isPrintable (if 0x61 ≤ b && b ≤ 0x7A then b - 0x20 else b) = true →
          isPrintable b = true :=
        forall_byte (by decide +kernel)
      exact hlower b (printable_normalize hvalid _ (hchars b hb))
    · rw [hlong] at h
      exact Bool.noConfusion h
    · intro hnil
      rw [hnil] at hlong
      exact absurd hlong (by decide)
    · rw [← hupper, isHierarchKey_upper]
      exact hlong

/-- The first card of a value has the keyword that it was written under. -/
theorem keywordOf_first {lookup storage text : Str} (h : StoredAs lookup storage)
    (hshort : IsShort (valueFront storage ++ 0x3D :: text)) :
    keywordOf (valueFront storage ++ 0x3D :: text) = some storage := by
  obtain ⟨hlen, htrim⟩ := hshort
  have hpad : trimEnd (padToCard (valueFront storage ++ 0x3D :: text)) =
      valueFront storage ++ 0x3D :: text := by
    rw [padToCard_of_clean hlen, trimEnd_append_blanks, htrim]
  rw [← hpad]
  cases hlong : isHierarchKey storage with
  | false =>
    obtain ⟨-, htoken, hkey⟩ := h.short hlong
    refine keywordOf_hasValue htoken hkey ⟨text, ?_⟩
    rw [valueFront, hlong]
    rfl
  | true =>
    obtain ⟨htrimKey, hne, -, -⟩ := h.long hlong
    rw [valueFront, if_pos hlong] at hlen ⊢
    refine keywordOf_hasLongKey htrimKey hne h.equals ⟨?_, text, rfl⟩
    simp only [List.length_append, List.length_cons, List.length_nil,
      show (str "HIERARCH ").length = 9 from rfl] at hlen
    omega

theorem equals_not_mem_front {lookup storage : Str} (h : StoredAs lookup storage) :
    0x3D ∉ valueFront storage := by
  unfold valueFront
  split_ifs
  · simp only [List.mem_append, not_or]
    exact ⟨⟨by decide, h.equals⟩, by decide⟩
  · rw [padRight, List.mem_append, not_or]
    refine ⟨h.equals, fun hmem => ?_⟩
    exact absurd (List.mem_replicate.1 hmem).2 (by decide)

/-! ## The cards around -/

/-- The cards in front of the ones that an assignment writes, and the cards behind
them. -/
def cardsAround (cards : List Card) (lookup : Str) : List Card × List Card :=
  match cards.findIdx? (matchesKey lookup) with
  | some start => (cards.take start, cards.drop (findChainEnd cards start))
  | none => (cards.take (endPosition cards), cards.drop (endPosition cards))

theorem setCardForKey_around (cards : List Card) (lookup : Str) (new : List Card) :
    setCardForKey cards lookup new =
      (cardsAround cards lookup).1 ++ new.map trimEnd ++ (cardsAround cards lookup).2 := by
  unfold setCardForKey cardsAround
  cases cards.findIdx? (matchesKey lookup) <;> rfl

section

variable {cards : List Card} {lookup : Str}

theorem matchesKey_endCard (lookup : Str) : matchesKey lookup endCard = false := by
  have hkey : keywordOf endCard = some (str "END") := by decide
  rw [matchesKey, hkey]
  rfl

theorem matchesKey_continue {card : Card} (h : continueKey.isPrefixOf (trimEnd card) = true) :
    matchesKey lookup card = false := by
  rw [matchesKey, keywordOf_continue h]
  rfl

/-- None of the cards in front is one of the keyword. -/
theorem cardsAround_front (cards : List Card) (lookup : Str) :
    ∀ c ∈ (cardsAround cards lookup).1, matchesKey lookup c = false := by
  intro c hc
  unfold cardsAround at hc
  cases hfind : cards.findIdx? (matchesKey lookup) with
  | none =>
    rw [hfind] at hc
    exact List.findIdx?_eq_none_iff.1 hfind c (List.mem_of_mem_take hc)
  | some start =>
    rw [hfind] at hc
    obtain ⟨hlt, -, hbefore⟩ := List.findIdx?_eq_some_iff_getElem.1 hfind
    obtain ⟨i, hi, rfl⟩ := List.mem_take_iff_getElem.1 hc
    simpa using hbefore i (by omega)

/-- None of the cards in front is one of the keyword, and END is behind. -/
theorem cardsAround_spec (hclean : CleanHeader cards) (lookup : Str) :
    (∃ old, cards = (cardsAround cards lookup).1 ++ old ++ (cardsAround cards lookup).2) ∧
      (∀ c ∈ (cardsAround cards lookup).1, matchesKey lookup c = false) ∧
      (cardsAround cards lookup).2 ≠ [] := by
  obtain ⟨body, hbody, hend⟩ := hclean.closed
  have hfront := cardsAround_front cards lookup
  unfold cardsAround at hfront ⊢
  cases hfind : cards.findIdx? (matchesKey lookup) with
  | none =>
    rw [hfind] at hfront
    have hpos : endPosition cards = body.length := by
      rw [hbody]
      refine endPosition_clean (fun c hc => (hclean.clean c ?_).trimmed) hend
      rw [hbody]
      exact List.mem_append_left _ hc
    refine ⟨⟨[], by simp⟩, hfront, ?_⟩
    dsimp only
    rw [hpos, hbody, List.drop_left]
    simp
  | some start =>
    rw [hfind] at hfront
    obtain ⟨hlt, hmatch, -⟩ := List.findIdx?_eq_some_iff_getElem.1 hfind
    obtain ⟨chain, hsplit, hchain⟩ := chain_split hlt
    refine ⟨⟨_, hsplit⟩, hfront, fun hnil => ?_⟩
    dsimp only at hnil
    rw [hnil, List.append_nil] at hsplit
    have hlast : endCard ∈ cards[start] :: chain := by
      have hlast' := congrArg List.getLast? (hbody.symm.trans hsplit)
      rw [List.getLast?_concat, List.getLast?_append_of_ne_nil _ (List.cons_ne_nil _ _)] at hlast'
      exact List.mem_of_getLast? hlast'.symm
    rcases List.mem_cons.1 hlast with he | hmem
    · rw [← he, matchesKey_endCard] at hmatch
      exact Bool.noConfusion hmatch
    · exact absurd (hchain _ hmem) (by decide)

/-- Clean cards in the place of others make a clean header. -/
theorem cleanHeader_splice {front old new back : List Card}
    (hclean : CleanHeader (front ++ old ++ back))
    (hback : back ≠ []) (hnew : ∀ c ∈ new, CleanCard c) (hend : endCard ∉ new) :
    CleanHeader (front ++ new ++ back) := by
  obtain ⟨body, hbody, hbodyEnd⟩ := hclean.closed
  have hsplit : back = back.dropLast ++ [endCard] := by
    have hlast := congrArg List.getLast? hbody
    rw [List.getLast?_append_of_ne_nil _ hback, List.getLast?_concat] at hlast
    exact (List.dropLast_append_getLast? endCard hlast).symm
  have hfront : body = front ++ old ++ back.dropLast := by
    rw [hsplit, ← List.append_assoc] at hbody
    exact (List.append_inj_left' hbody rfl).symm
  refine ⟨fun c hc => ?_, front ++ new ++ back.dropLast, ?_, ?_⟩
  · simp only [List.mem_append] at hc
    rcases hc with (hc | hc) | hc
    · exact hclean.clean c (by simp [hc])
    · exact hnew c hc
    · exact hclean.clean c (by simp [hc])
  · rw [List.append_assoc (front ++ new), ← hsplit]
  · rw [hfront] at hbodyEnd
    simp only [List.mem_append, not_or] at hbodyEnd ⊢
    exact ⟨⟨hbodyEnd.1.1, hend⟩, hbodyEnd.2⟩

end

/-! ## Keywords that the lookup does not find -/

/-- The lookup passes over what an assignment writes under these keywords: it takes
one for a continuation, the other for the mark of a long key. -/
def IsHidden (lookup : Str) : Prop := lookup = continueKey ∨ lookup = hierarchKey

instance (lookup : Str) : Decidable (IsHidden lookup) := inferInstanceAs (Decidable (_ ∨ _))

/-- A value in front of these cards does not go on in them. -/
def Stops (cards : List Card) : Prop := ∀ s comment, readContinued s comment cards = (s, comment)

section

variable {F : Type} {floats : Floats F} {lookup : Str}

theorem stops_of_head {card : Card} {rest : List Card}
    (h : continueKey.isPrefixOf (trimEnd card) = false ∨
      isQuoted (splitValueComment (afterKeyword (trimEnd card))).1 = false) :
        Stops (card :: rest) := by
  intro s comment
  rw [readContinued, if_neg]
  simp only [Bool.and_eq_true, not_and, Bool.not_eq_true]
  rcases h with h | h
  · intro hs
    rw [h] at hs
    exact absurd hs.2 (by decide)
  · exact fun _ => h

theorem readContinued_congr {x y : List Card} (hx : Stops x) (hy : Stops y) :
    ∀ {front : List Card} {s comment : Str},
      readContinued s comment (front ++ x) = readContinued s comment (front ++ y) := by
  intro front
  induction front with
  | nil =>
    intro s comment
    exact (hx s comment).trans (hy s comment).symm
  | cons card front ih =>
    intro s comment
    rw [List.cons_append, List.cons_append, readContinued, readContinued, ih]

theorem parse_congr {a b : List Card}
    (h : ∀ s comment, readContinued s comment a = readContinued s comment b)
    (text : Str) : parseValueWithContinue floats a text = parseValueWithContinue floats b text := by
  unfold parseValueWithContinue
  dsimp only
  rw [h]

/-- A card decides by itself whether it is the one that is looked for. -/
theorem findCardForKey_cons (card : Card) (lookup : Str) : ∃ value : Option Str, ∀ rest,
    findCardForKey (card :: rest) lookup =
      match value with
      | some text => some (rest, text)
      | none => findCardForKey rest lookup := by
  obtain ⟨keyword, hkeyword⟩ : ∃ keyword, (if trim ((trimEnd card).take 8) = hierarchKey then
      trim (((trimEnd card).takeWhile fun b => b != 0x3D).drop 8)
    else trim ((trimEnd card).take 8)) = keyword := ⟨_, rfl⟩
  by_cases hskip :
      ((trimEnd card).isEmpty || skippedKeys.contains (trim ((trimEnd card).take 8))) = true
  · refine ⟨none, fun rest => ?_⟩
    rw [findCardForKey]
    exact if_pos hskip
  · cases hafter : afterEquals (trimEnd card) with
    | none =>
      refine ⟨none, fun rest => ?_⟩
      rw [findCardForKey]
      dsimp only
      rw [if_neg hskip, hafter]
    | some text =>
      refine ⟨if normalizeKeyword keyword = lookup then some text else none, fun rest => ?_⟩
      rw [findCardForKey]
      dsimp only
      rw [if_neg hskip, hafter, hkeyword]
      dsimp only
      by_cases h : normalizeKeyword keyword = lookup
      · rw [if_pos h, if_pos h]
      · rw [if_neg h, if_neg h]

theorem readKey_congr {x y : List Card} (hx : Stops x) (hy : Stops y)
    (h : readKey floats x lookup = readKey floats y lookup) (front : List Card) :
    readKey floats (front ++ x) lookup = readKey floats (front ++ y) lookup := by
  induction front with
  | nil => exact h
  | cons card front ih =>
    obtain ⟨value, hvalue⟩ := findCardForKey_cons card lookup
    rw [readKey, readKey, List.cons_append, List.cons_append, hvalue, hvalue]
    cases value with
    | none => exact ih
    | some text =>
      exact congrArg some (parse_congr (fun s c => readContinued_congr hx hy) text)

/-- Cards that the lookup passes over. -/
theorem findCardForKey_continue {card : Card} (h : continueKey.isPrefixOf (trimEnd card) = true)
    (rest : List Card) (lookup : Str) :
    findCardForKey (card :: rest) lookup = findCardForKey rest lookup := by
  obtain ⟨text, htext⟩ := List.isPrefixOf_iff_prefix.1 h
  rw [findCardForKey]
  dsimp only
  rw [if_pos]
  rw [← htext, show (continueKey ++ text).take 8 = continueKey from rfl]
  rw [show skippedKeys.contains (trim continueKey) = true by decide, Bool.or_true]

theorem findCardForKey_continues {front : List Card}
    (h : ∀ c ∈ front, continueKey.isPrefixOf (trimEnd c) = true) (rest : List Card) (lookup : Str) :
    findCardForKey (front ++ rest) lookup = findCardForKey rest lookup := by
  induction front with
  | nil => rfl
  | cons c front ih =>
    rw [List.cons_append, findCardForKey_continue (h c (by simp))]
    exact ih fun d hd => h d (List.mem_cons_of_mem _ hd)

/-- A card with a hidden keyword field in front of its equals sign. -/
theorem hidden_first {text : Str} (h : IsHidden lookup)
    (htrim : trimEnd (lookup ++ 0x3D :: text) = lookup ++ 0x3D :: text) :
    (∀ rest, findCardForKey ((lookup ++ 0x3D :: text) :: rest) lookup =
      findCardForKey rest lookup) ∧
      ∀ rest, Stops ((lookup ++ 0x3D :: text) :: rest) := by
  rcases h with rfl | rfl
  · have hprefix : continueKey.isPrefixOf (trimEnd (continueKey ++ 0x3D :: text)) = true := by
      rw [htrim]
      exact List.isPrefixOf_iff_prefix.2 (List.prefix_append _ _)
    refine ⟨fun rest => findCardForKey_continue hprefix rest _, fun rest =>
      stops_of_head (Or.inr ?_)⟩
    rw [htrim, show afterKeyword (continueKey ++ 0x3D :: text) = 0x3D :: text from rfl,
      splitValueComment, cutComment, if_neg (by decide), if_neg (by decide)]
    dsimp only
    rw [show ∀ s : Str, trim (0x3D :: s) = 0x3D :: trimEnd s from
      fun s => trim_token_append (s := [0x3D]) (by decide) s]
    rfl
  · refine ⟨fun rest => ?_, fun rest => stops_of_head (Or.inl ?_)⟩
    · rw [findCardForKey]
      dsimp only
      have hfield : trim ((hierarchKey ++ 0x3D :: text).take 8) = hierarchKey := by
        rw [show (hierarchKey ++ 0x3D :: text).take 8 = hierarchKey from rfl]
        decide
      have hkeyword : (hierarchKey ++ 0x3D :: text).takeWhile (fun b => b != 0x3D) = hierarchKey :=
        takeWhile_equals text (by decide)
      rw [htrim, hfield, afterEquals_front (by decide), if_pos rfl, hkeyword, if_neg (by
        rw [show skippedKeys.contains hierarchKey = false by decide, Bool.or_false]
        simp)]
      exact if_neg (by decide)
    · rw [htrim]
      rfl

end

/-! ## The round trip -/

section

variable {F : Type} (floats : Floats F) (key value comment : Str) (cards : List Card)

/-- What a reader expects of `header[key] = (value, comment)`. -/
structure RoundTrips (cards' : List Card) : Prop where
  built : buildCardFromValue floats (storedKeyword cards key) (.string value) comment =
    .ok ((stringBodies (storedKeyword cards key) value comment).map padToCard)
  short : ∀ body ∈ stringBodies (storedKeyword cards key) value comment, body.length ≤ cardSize
  read : readKey floats cards' (normalizeKeyword key) = some (.string (trimEnd value), comment)
  reread : ∀ lenient, ∃ parsed,
    readHeader lenient (serializeHeaderToDiskBytes cards') 0 = .ok parsed ∧
      readKey floats parsed (normalizeKeyword key) = some (.string (trimEnd value), comment)

/-- When the assignment does what is expected.  Under a hidden keyword the lookup sees
the other cards only, with a card between them that is neither found nor read on in. -/
structure StringFits : Prop where
  room : HasRoom (storedKeyword cards key) value comment
  hidden : IsHidden (normalizeKeyword key) →
    readKey floats ((cardsAround cards (normalizeKeyword key)).1 ++
      [] :: (cardsAround cards (normalizeKeyword key)).2) (normalizeKeyword key) =
        some (.string (trimEnd value), comment)
  text : ¬ IsHidden (normalizeKeyword key) →
    TextFits (storedKeyword cards key) value comment (cardsAround cards (normalizeKeyword key)).2

end

section

variable {F : Type} {floats : Floats F} {key value comment : Str} {cards cards' : List Card}

/-- The comment that an assignment writes: the one given, or the one that is there. -/
def writtenComment (floats : Floats F) (cards : List Card) (key : Str)
    (comment : Option Str) : Str :=
  comment.getD ((extractExistingComment floats cards (normalizeKeyword key)).getD [])

/-- An assignment without the checks of the view: it replaces the cards of the key, or it
raises and leaves them. -/
theorem applySetitem_eq (floats : Floats F) (key : Str) (value : HeaderValue F)
    (comment : Option Str) (cards : List Card) :
    applySetitem floats key value comment cards =
      match validateKeyword key with
      | .error e => .error e cards
      | .ok _ =>
        match buildCardFromValue floats (storedKeyword cards key) value
          (writtenComment floats cards key comment) with
        | .error e => .error e cards
        | .ok newCards => .ok () (setCardForKey cards (normalizeKeyword key) newCards) := by
  unfold applySetitem
  cases hvalid : validateKeyword key with
  | error e => rfl
  | ok u =>
    show (CardOp.ofExcept (buildCardFromValue floats (storedKeyword cards key) value
        (writtenComment floats cards key comment)) >>= fun newCards =>
          set (setCardForKey cards (normalizeKeyword key) newCards) : CardOp Unit) cards = _
    cases buildCardFromValue floats (storedKeyword cards key) value
        (writtenComment floats cards key comment) with
    | error e => rfl
    | ok newCards => rfl

/-- What an assignment that succeeds has done. -/
theorem applySetitem_ok {value : HeaderValue F} {comment : Option Str}
    (h : applySetitem floats key value comment cards = .ok () cards') :
    validateKeyword key = .ok () ∧
      ∃ newCards, buildCardFromValue floats (storedKeyword cards key) value
        (writtenComment floats cards key comment) = .ok newCards ∧
          cards' = setCardForKey cards (normalizeKeyword key) newCards := by
  rw [applySetitem_eq] at h
  cases hvalid : validateKeyword key with
  | error e =>
    rw [hvalid] at h
    cases h
  | ok u =>
    rw [hvalid] at h
    dsimp only at h
    cases hbuild : buildCardFromValue floats (storedKeyword cards key) value
        (writtenComment floats cards key comment) with
    | error e =>
      rw [hbuild] at h
      cases h
    | ok newCards =>
      rw [hbuild] at h
      cases h
      exact ⟨rfl, newCards, rfl, rfl⟩

theorem headerSetItem_ok {value : HeaderValue F} {comment : Option Str}
    (h : headerSetItem floats key value comment cards = .ok () cards') :
    Settable (normalizeKeyword key) ∧ isCommentaryKey (normalizeKeyword key) ≠ true ∧
      applySetitem floats key value comment cards = .ok () cards' := by
  unfold headerSetItem at h
  dsimp only at h
  by_cases hcom : isCommentaryKey (normalizeKeyword key) = true
  · rw [if_pos hcom] at h
    cases h
  · rw [if_neg hcom] at h
    by_cases hprot : isProtectedKey (normalizeKeyword key) = true
    · rw [if_pos hprot] at h
      cases h
    · rw [if_neg hprot] at h
      exact ⟨settable_of_checks hcom (by simpa using hprot), hcom, h⟩

/-- The cards of an assignment with printable text make a clean header. -/
theorem clean_setString {newCards : List Card} (hclean : CleanHeader cards)
    (hvalue : ∀ b ∈ value, isPrintable b = true) (hcomment : ∀ b ∈ comment, isPrintable b = true)
    (hvalid : validateKeyword key = .ok ()) (hset : Settable (normalizeKeyword key))
    (hbuild : buildCardFromValue floats (storedKeyword cards key) (.string value) comment =
      .ok newCards) :
    CleanHeader (setCardForKey cards (normalizeKeyword key) newCards) := by
  obtain ⟨⟨old, hold⟩, -, hback⟩ := cardsAround_spec hclean (normalizeKeyword key)
  have hstored := @storedAs_of_call _ cards hvalid hset
  rw [hold] at hclean
  rw [setCardForKey_around]
  refine cleanHeader_splice hclean hback (fun c hc => ?_) fun hend => ?_
  · obtain ⟨d, hd, rfl⟩ := List.mem_map.1 hc
    rw [(shape_stringBodies hbuild).1] at hd
    obtain ⟨body, hbody, rfl⟩ := List.mem_map.1 hd
    have hprint := printable_stringBodies hstored.printable hvalue hcomment body hbody
    obtain ⟨hlen, htrim⟩ := isShort_trimEnd_padToCard body
    exact ⟨hlen, fun b hb => printable_padToCard hprint b (mem_of_mem_trimEnd hb), htrim⟩
  · obtain ⟨d, hd, hdend⟩ := List.mem_map.1 hend
    have hfree := (written_of_builtFor hvalid hset rfl
      (buildCardFromValue_keyword hbuild d hd)).insertable.free
    rw [hdend] at hfree
    exact endCard_not_free hfree

/-- The keyword of an assignment is none that is passed over. -/
theorem lookup_not_skipped {lookup : Str} (hset : Settable lookup)
    (hcom : isCommentaryKey lookup ≠ true) (hhidden : ¬ IsHidden lookup) :
    lookup ∉ skippedKeys := by
  have hcommentary : ∀ k, isCommentaryKey k = true → lookup ≠ k := fun k hk he => hcom (he ▸ hk)
  have hend : lookup ≠ str "END" := by
    rintro rfl
    exact absurd hset.1 (by decide)
  have hcontinue : lookup ≠ continueKey := fun he => hhidden (Or.inl he)
  simp [skippedKeys, hend, hcommentary commentKey (by decide), hcommentary historyKey (by decide),
    hset.2, hcontinue]

/-- The lookup finds a card that was written. -/
theorem readKey_first {lookup storage text : Str} {front rest : List Card}
    (hstored : StoredAs lookup storage) (hskipped : lookup ∉ skippedKeys)
    (hhidden : ¬ IsHidden lookup) (hfront : ∀ c ∈ front, matchesKey lookup c = false)
    (hshort : IsShort (valueFront storage ++ 0x3D :: text)) :
    readKey floats (front ++ (valueFront storage ++ 0x3D :: text) :: rest) lookup =
      some (parseValueWithContinue floats rest text) := by
  have hmatch : matchesKey lookup (valueFront storage ++ 0x3D :: text) = true := by
    rw [matchesKey, keywordOf_first hstored hshort]
    dsimp only
    rw [Bool.and_eq_true, decide_eq_true_eq, Bool.not_eq_true', Bool.eq_false_iff]
    cases hlong : isHierarchKey storage with
    | false =>
      obtain ⟨hsame, htoken, -⟩ := hstored.short hlong
      subst hsame
      refine ⟨fun hc => hskipped (List.contains_iff_mem.1 hc), ?_⟩
      rw [normalizeKeyword, trim_of_isToken htoken, hlong, if_neg (by decide), hstored.upper]
    | true =>
      refine ⟨fun hc => ?_, (hstored.long hlong).2.2.1⟩
      have hnone : ∀ k ∈ skippedKeys, isHierarchKey k = false := by decide
      rw [hnone _ (List.contains_iff_mem.1 hc)] at hlong
      exact Bool.noConfusion hlong
  have hvalue : afterEquals (trimEnd (valueFront storage ++ 0x3D :: text)) = some text := by
    rw [hshort.2, afterEquals_front (equals_not_mem_front hstored)]
  rw [readKey, findCardForKey_append hskipped hfront,
    findCardForKey_hit (fun he => hhidden (Or.inr he)) hmatch hvalue, Option.map_some]

/-- The lookup finds the cards of a string. -/
theorem readKey_written {lookup storage : Str} {bodies : List Str} {pending : Str × Str}
    {front back : List Card} (hstored : StoredAs lookup storage) (hset : Settable lookup)
    (hcom : isCommentaryKey lookup ≠ true) (hhidden : ¬ IsHidden lookup)
    (hfront : ∀ c ∈ front, matchesKey lookup c = false)
    (hshape : Shape storage value comment bodies pending)
    (hshort : ∀ body ∈ bodies, body.length ≤ 80) :
    readKey floats (front ++ bodies.map (fun body => trimEnd (padToCard body)) ++ back) lookup =
      some (.string (readContinued pending.1 pending.2 back).1,
        (readContinued pending.1 pending.2 back).2) := by
  obtain ⟨text, rest, hcards, -, hreads⟩ := @Shape.reads _ floats _ _ _ _ _ hshape hshort
  have hisShort : IsShort (valueFront storage ++ 0x3D :: text) := by
    have hmem : (valueFront storage ++ 0x3D :: text) ∈
        bodies.map (fun body => trimEnd (padToCard body)) := by
      rw [hcards]
      exact List.mem_cons_self
    obtain ⟨body, -, hbody⟩ := List.mem_map.1 hmem
    rw [← hbody]
    exact isShort_trimEnd_padToCard body
  rw [List.append_assoc, hcards, List.cons_append,
    readKey_first hstored (lookup_not_skipped hset hcom hhidden) hhidden hfront hisShort, hreads]

/-- The lookup does not find what was written under a hidden keyword. -/
theorem readKey_passed {lookup storage text : Str} {front rest back : List Card}
    (hstored : StoredAs lookup storage) (hhidden : IsHidden lookup)
    (htrim : ∀ c ∈ (valueFront storage ++ 0x3D :: text) :: rest, trimEnd c = c)
    (hrest : ∀ c ∈ rest, continueKey.isPrefixOf c = true) :
    readKey floats (front ++ ((valueFront storage ++ 0x3D :: text) :: rest) ++ back) lookup =
      readKey floats (front ++ [] :: back) lookup := by
  have hfront : valueFront storage = lookup := by
    have hlookup : isHierarchKey lookup = false := by
      rcases hhidden with rfl | rfl <;> decide
    have hlong : isHierarchKey storage = false := by
      rw [Bool.eq_false_iff]
      intro hlong
      rw [(hstored.long hlong).2.2.2] at hlookup
      exact Bool.noConfusion hlookup
    obtain ⟨hsame, -, -⟩ := hstored.short hlong
    rw [valueFront, hlong, hsame]
    rcases hhidden with rfl | rfl <;> rfl
  rw [hfront] at htrim ⊢
  obtain ⟨hskip, hstops⟩ := hidden_first hhidden (htrim _ List.mem_cons_self)
  have hblankSkip : ∀ cards : List Card, findCardForKey ([] :: cards) lookup =
      findCardForKey cards lookup :=
    fun _ => rfl
  rw [List.append_assoc]
  refine readKey_congr (hstops _) (stops_of_head (Or.inl rfl)) ?_ front
  rw [readKey, readKey, hskip, hblankSkip]
  refine congrArg _ (findCardForKey_continues (fun c hc => ?_) back lookup)
  rw [htrim c (List.mem_cons_of_mem _ hc)]
  exact hrest c hc

theorem readKey_hidden {lookup storage : Str} {bodies : List Str} {pending : Str × Str}
    {front back : List Card} (hstored : StoredAs lookup storage) (hhidden : IsHidden lookup)
    (hshape : Shape storage value comment bodies pending)
    (hshort : ∀ body ∈ bodies, body.length ≤ 80) :
    readKey floats (front ++ bodies.map (fun body => trimEnd (padToCard body)) ++ back) lookup =
      readKey floats (front ++ [] :: back) lookup := by
  obtain ⟨text, rest, hcards, hrest, -⟩ := @Shape.reads _ floats _ _ _ _ _ hshape hshort
  have hcard : ∀ c ∈ bodies.map (fun body => trimEnd (padToCard body)), trimEnd c = c := by
    intro c hc
    obtain ⟨body, -, rfl⟩ := List.mem_map.1 hc
    exact trimEnd_trimEnd _
  rw [hcards] at hcard ⊢
  exact readKey_passed hstored hhidden hcard hrest

/-- What the lookup gives once the cards of a string are not too long. -/
theorem readKey_setString_iff {newCards : List Card} (hvalid : validateKeyword key = .ok ())
    (hset : Settable (normalizeKeyword key)) (hcom : isCommentaryKey (normalizeKeyword key) ≠ true)
    (hbuild : buildCardFromValue floats (storedKeyword cards key) (.string value) comment =
      .ok newCards) (hr : HasRoom (storedKeyword cards key) value comment) :
    readKey floats (setCardForKey cards (normalizeKeyword key) newCards) (normalizeKeyword key) =
        some (.string (trimEnd value), comment) ↔ StringFits floats key value comment cards := by
  have hstored := @storedAs_of_call _ cards hvalid hset
  have hfront := cardsAround_front cards (normalizeKeyword key)
  obtain ⟨hcards, pending, hshape, hpending, hroom⟩ := shape_stringBodies hbuild
  have hshort := hroom.2 hr
  have hwritten : setCardForKey cards (normalizeKeyword key) newCards =
      (cardsAround cards (normalizeKeyword key)).1 ++
        (stringBodies (storedKeyword cards key) value comment).map
          (fun body => trimEnd (padToCard body)) ++
            (cardsAround cards (normalizeKeyword key)).2 := by
    rw [setCardForKey_around, hcards, List.map_map]
    rfl
  rw [hwritten]
  by_cases hhidden : IsHidden (normalizeKeyword key)
  · rw [readKey_hidden hstored hhidden hshape hshort]
    exact ⟨fun hread => ⟨hr, fun _ => hread, fun hn => absurd hhidden hn⟩,
      fun hfits => hfits.hidden hhidden⟩
  · rw [readKey_written hstored hset hcom hhidden hfront hshape hshort]
    have hiff := textFits_iff (hpending hr) (cardsAround cards (normalizeKeyword key)).2
    constructor
    · intro hread
      refine ⟨hr, fun hh => absurd hh hhidden, fun _ => hiff.1 ?_⟩
      simp only [Option.some.injEq, Prod.mk.injEq, HeaderValue.string.injEq] at hread
      exact Prod.ext hread.1 hread.2
    · intro hfits
      rw [hiff.2 (hfits.text hhidden)]

/-- A string that a header is given reads back, from the cards and from their bytes,
exactly when it fits. -/
theorem setString_roundTrips_iff (hclean : CleanHeader cards)
    (hvalue : ∀ b ∈ value, isPrintable b = true) (hcomment : ∀ b ∈ comment, isPrintable b = true)
    (h : headerSetItem floats key (.string value) (some comment) cards = .ok () cards') :
    RoundTrips floats key value comment cards cards' ↔
    StringFits floats key value comment cards := by
  obtain ⟨hset, hcom, hrun⟩ := headerSetItem_ok h
  obtain ⟨hvalid, newCards, hbuilt, rfl⟩ := applySetitem_ok hrun
  have hbuild : buildCardFromValue floats (storedKeyword cards key) (.string value) comment =
      .ok newCards := hbuilt
  obtain ⟨hcards, -, -, -, hroom⟩ := shape_stringBodies hbuild
  have hclean' := clean_setString hclean hvalue hcomment hvalid hset hbuild
  have hread := readKey_setString_iff hvalid hset hcom hbuild
  constructor
  · intro htrips
    exact (hread (hroom.1 htrips.short)).1 htrips.read
  · intro hfits
    have hval := (hread hfits.room).2 hfits
    exact ⟨hcards ▸ hbuild, hroom.2 hfits.room, hval,
      fun lenient => ⟨_, readHeader_serialize_self hclean', hval⟩⟩

theorem endOnly_clean : CleanHeader [endCard] :=
  ⟨by decide +kernel, [], rfl, by simp⟩

theorem setString_roundTrips_object :
    RoundTrips exampleFloats (str "object") (str "O'Neill") (str "observer") [endCard]
      [str "OBJECT  = 'O''Neill'           / observer", endCard] :=
  (setString_roundTrips_iff endOnly_clean (printable_of_all (by decide))
    (printable_of_all (by decide))
    rfl).2 ⟨by decide, fun h => absurd h (by decide), fun _ => ⟨by decide, by decide, by decide⟩⟩

/-- A comment of 48 characters behind a short value loses its last one. -/
theorem setString_cuts_comment : ∃ cards', headerSetItem exampleFloats (str "OBJECT")
      (.string (str "M31"))
        (some (str "the nearest large galaxy, low in the eastern sky")) [endCard] =
        .ok () cards' ∧
      readKey exampleFloats cards' (str "OBJECT") =
        some (.string (str "M31"), str "the nearest large galaxy, low in the eastern sk") ∧
      ¬ RoundTrips exampleFloats (str "OBJECT") (str "M31")
        (str "the nearest large galaxy, low in the eastern sky") [endCard] cards' := by
  refine ⟨_, rfl, by decide +kernel, fun h => ?_⟩
  exact absurd (h.short _ List.mem_cons_self) (by decide +kernel)

end

end Header

end RustFits
