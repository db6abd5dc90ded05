import RustFits.Checksum.OwnCard
import RustFits.CompressedImage.Decode

/-!
# The header of the uncompressed image

`build_equivalent_uncompressed_header` of `hdu_image_compressed/checksum.rs` makes the
header that the image would have without compression.  Five keywords are copied from
the header of the table, with the first card that starts with the keyword.

* `CopiesOwn` is a header with the first card of each of the five keywords.
* `buildEquivalentUncompressedHeader_copies_iff`: the header is that one exactly when
  the first card that starts with a keyword is the first card of the keyword, for all
  five.
* `integrityCards_own_iff` puts it together with the checksum cards.
-/

namespace RustFits.CompressedImage

open Ascii Header Checksum

/-! ## The code -/

/-- The value of a keyword that has to be there. -/
def requiredKeyword (cards : List Card) (key : Str) : Except PyErr Int :=
  match parseKeyword cards key with
  | some v => .ok v
  | none => .error (.value (str "compressed HDU missing " ++ key))

/-- The cards of the axes from `i` on. -/
def axisCards (cards : List Card) : Nat → Nat → Except PyErr (List Card)
  | _, 0 => .ok []
  | i, count + 1 => do
    let v ← requiredKeyword cards (znaxisKey i)
    let rest ← axisCards cards (i + 1) count
    return cardInt (naxisKey i) v (str "length of data axis " ++ natDec i) :: rest

/-- The cards of the structure. -/
def structuralCards (cards : List Card) : Except PyErr (List Card) := do
  let zbitpix ← requiredKeyword cards (str "ZBITPIX")
  let znaxis ← requiredKeyword cards (str "ZNAXIS")
  let axes ← axisCards cards 1 znaxis.toNat
  return [cardString (str "XTENSION") (str "IMAGE") (str "image extension"),
      cardInt (str "BITPIX") zbitpix (str "number of bits per data pixel"),
      cardInt (str "NAXIS") znaxis (str "number of data axes")] ++ axes ++
    [cardInt (str "PCOUNT") 0 (str "required keyword; must = 0"),
      cardInt (str "GCOUNT") 1 (str "required keyword; must = 1")]

/-- The card starts with the keyword. -/
def startsWithKey (key : Str) (card : Card) : Bool :=
  decide (key.length ≤ card.length) && decide (trim (card.take key.length) = key)

/-- The first card that the test accepts. -/
def firstCard (test : Card → Bool) (cards : List Card) : List Card :=
  ((cards.find? test).map trimEnd).toList

def copiedKeys : List Str :=
  [str "BSCALE", str "BZERO", str "BLANK", str "EXTNAME", str "EXTVER"]

/-- The cards behind the copied ones. -/
def closingCards (datasum checksum : Str) : List Card :=
  [cardString (str "DATASUM") datasum (str "data unit checksum"),
    cardString (str "CHECKSUM") checksum (str "HDU checksum"), padToCard endCard]

/-- `build_equivalent_uncompressed_header`. -/
def buildEquivalentUncompressedHeader (cards : List Card) (datasum checksum : Str) :
    Except PyErr (List Card) := do
  let front ← structuralCards cards
  return front ++ copiedKeys.flatMap (fun key => firstCard (startsWithKey key) cards) ++
    closingCards datasum checksum

/-! ## The copied cards -/

/-- The first eight columns hold the keyword. -/
def hasKeyField (key : Str) (card : Card) : Bool := decide (trim (card.take 8) = key)

/-- Between the cards of the structure and the closing ones stand the first cards of
the five keywords. -/
def CopiesOwn (cards : List Card) (datasum checksum : Str) (header : List Card) : Prop :=
  ∃ front, structuralCards cards = .ok front ∧
    header = front ++ copiedKeys.flatMap (fun key => firstCard (hasKeyField key) cards) ++
      closingCards datasum checksum

section

variable {α ι : Type} {f g : ι → Option α} {names : List ι}

/-- Lists of optional items are the same only item by item, when an item of the one
list can be an item of the other one for the same name only. -/
theorem flatMap_toList_eq_iff (hnodup : names.Nodup)
    (hname : ∀ m ∈ names, ∀ n ∈ names, ∀ a, f m = some a → g n = some a → m = n) :
    names.flatMap (fun n => (f n).toList) = names.flatMap (fun n => (g n).toList) ↔
      ∀ n ∈ names, f n = g n := by
  induction names with
  | nil => simp
  | cons n names ih =>
    obtain ⟨hnot, hnodup⟩ := List.nodup_cons.1 hnodup
    have ih := ih hnodup fun m hm k hk =>
      hname m (List.mem_cons_of_mem n hm) k (List.mem_cons_of_mem n hk)
    rw [List.flatMap_cons, List.flatMap_cons, List.forall_mem_cons]
    have hlater : ∀ (e : ι → Option α) (a : α) (rest : List α),
        a :: rest = names.flatMap (fun n => (e n).toList) → ∃ m ∈ names, e m = some a := by
      intro e a rest heq
      have hmem : a ∈ names.flatMap (fun n => (e n).toList) := heq ▸ List.mem_cons_self
      obtain ⟨m, hm, ha⟩ := List.mem_flatMap.1 hmem
      exact ⟨m, hm, Option.mem_toList.1 ha⟩
    cases hf : f n with
    | none =>
      cases hg : g n with
      | none => simpa using ih
      | some b =>
        refine iff_of_false (fun heq => ?_) (by simp)
        obtain ⟨m, hm, hfm⟩ := hlater f b _ (by simpa using heq.symm)
        exact hnot (hname m (List.mem_cons_of_mem n hm) n List.mem_cons_self b hfm hg ▸ hm)
    | some a =>
      cases hg : g n with
      | none =>
        refine iff_of_false (fun heq => ?_) (by simp)
        obtain ⟨m, hm, hgm⟩ := hlater g a _ (by simpa using heq)
        exact hnot (hname n List.mem_cons_self m (List.mem_cons_of_mem n hm) a hf hgm ▸ hm)
      | some b =>
        simp only [Option.toList_some, List.singleton_append, List.cons.injEq, Option.some.injEq]
        exact and_congr Iff.rfl ih

end

section

variable {α β : Type} {p q : α → Bool} {t : α → β}

/-- The first cards of two tests are the same up to what the tests do not see only if
they are one card. -/
theorem find?_map_eq_iff (hp : ∀ a b, t a = t b → p a = p b) (hq : ∀ a b, t a = t b → q a = q b)
    {cards : List α} :
    (cards.find? p).map t = (cards.find? q).map t ↔ SameFirst p q cards := by
  unfold SameFirst
  induction cards with
  | nil => exact iff_of_true rfl rfl
  | cons c cards ih =>
    rw [List.find?_cons, List.find?_cons, List.findIdx?_cons, List.findIdx?_cons]
    cases hpc : p c with
    | false =>
      cases hqc : q c with
      | false => exact ih.trans (Option.map_injective (Nat.succ_injective)).eq_iff.symm
      | true =>
        refine iff_of_false (fun heq => ?_) (by simp)
        obtain ⟨d, hd, hdc⟩ := Option.map_eq_some_iff.1 heq
        rw [← hp d c hdc, List.find?_some hd] at hpc
        exact Bool.noConfusion hpc
    | true =>
      cases hqc : q c with
      | false =>
        refine iff_of_false (fun heq => ?_) (by simp)
        obtain ⟨d, hd, hdc⟩ := Option.map_eq_some_iff.1 heq.symm
        rw [← hq d c hdc, List.find?_some hd] at hqc
        exact Bool.noConfusion hqc
      | true => exact iff_of_true rfl rfl

end

section

variable {key key' : Str} {cards header : List Card} {card : Card} {datasum checksum : Str}

theorem isToken_copiedKey (hkey : key ∈ copiedKeys) : IsToken key ∧ key.length ≤ 8 := by
  simp only [copiedKeys, List.mem_cons, List.not_mem_nil, or_false] at hkey
  rcases hkey with rfl | rfl | rfl | rfl | rfl <;> decide

/-- None of the keywords starts with another one. -/
theorem copiedKey_eq_of_prefix (hkey : key ∈ copiedKeys) (hkey' : key' ∈ copiedKeys)
    (h : key <+: key') : key = key' := by
  have hcheck : ∀ key ∈ copiedKeys, ∀ key' ∈ copiedKeys, key.isPrefixOf key' → key = key' := by
    decide
  exact hcheck key hkey key' hkey' (List.isPrefixOf_iff_prefix.2 h)

theorem startsWithKey_iff (hkey : IsToken key) : startsWithKey key card = true ↔ key <+: card := by
  rw [startsWithKey, Bool.and_eq_true, decide_eq_true_eq, decide_eq_true_eq]
  constructor
  · rintro ⟨-, htrim⟩
    have heq := eq_of_trim_eq htrim (List.length_take_le _ _)
    rw [List.prefix_iff_eq_take]
    exact heq.symm
  · intro hstarts
    rw [← List.prefix_iff_eq_take.1 hstarts]
    exact ⟨hstarts.length_le, trim_of_isToken hkey⟩

theorem prefix_trimEnd (hkey : IsToken key) (h : key <+: card) : key <+: trimEnd card := by
  obtain ⟨rest, rfl⟩ := h
  obtain ⟨hne, hwhite⟩ := hkey
  have hlast := hwhite _ (List.getLast_mem hne)
  rw [← List.dropLast_append_getLast hne, List.append_assoc, List.singleton_append,
    trimEnd_append hlast]
  exact ⟨trimEnd rest, by simp⟩

/-- Trailing white space does not count for the two tests. -/
theorem startsWithKey_trimEnd (hkey : IsToken key) (card : Card) :
    startsWithKey key (trimEnd card) = startsWithKey key card := by
  rw [Bool.eq_iff_iff, startsWithKey_iff hkey, startsWithKey_iff hkey]
  constructor
  · intro h
    exact h.trans (List.rdropWhile_prefix _ _)
  · exact prefix_trimEnd hkey

theorem hasKeyField_trimEnd (key : Str) (card : Card) :
    hasKeyField key (trimEnd card) = hasKeyField key card := by
  rw [hasKeyField, hasKeyField, trim_take_trimEnd]

/-- A card that starts with one of the keywords and has one in its keyword field has
the same keyword in both. -/
theorem key_eq_of_card (hkey : key ∈ copiedKeys) (hkey' : key' ∈ copiedKeys)
    (hstart : startsWithKey key card = true) (hfield : hasKeyField key' card = true) :
    key = key' := by
  obtain ⟨htoken, hlen⟩ := isToken_copiedKey hkey
  apply copiedKey_eq_of_prefix hkey hkey'
  obtain ⟨rest, hcard⟩ := (startsWithKey_iff htoken).1 hstart
  have htake : card.take 8 = key ++ rest.take (8 - key.length) := by
    rw [← hcard, List.take_append, List.take_of_length_le hlen]
  rw [← of_decide_eq_true hfield, htake, trim_token_append htoken]
  exact List.prefix_append _ _

theorem firstCard_eq_iff (hkey : key ∈ copiedKeys) (cards : List Card) :
    (cards.find? (startsWithKey key)).map trimEnd = (cards.find? (hasKeyField key)).map trimEnd ↔
      SameFirst (startsWithKey key) (hasKeyField key) cards := by
  have htoken := (isToken_copiedKey hkey).1
  apply find?_map_eq_iff
  · intro a b hab
    rw [← startsWithKey_trimEnd htoken a, hab, startsWithKey_trimEnd htoken]
  · intro a b hab
    rw [← hasKeyField_trimEnd key a, hab, hasKeyField_trimEnd]

/-- The header has exactly the cards of the five keywords when the first card that
starts with a keyword is the first card of the keyword. -/
theorem buildEquivalentUncompressedHeader_copies_iff
    (hbuild : buildEquivalentUncompressedHeader cards datasum checksum = .ok header) :
    CopiesOwn cards datasum checksum header ↔
      ∀ key ∈ copiedKeys, SameFirst (startsWithKey key) (hasKeyField key) cards := by
  unfold buildEquivalentUncompressedHeader at hbuild
  unfold CopiesOwn
  cases hfront : structuralCards cards with
  | error e =>
    rw [hfront] at hbuild
    cases hbuild
  | ok front =>
    rw [hfront] at hbuild
    cases hbuild
    have hsame : (∃ front', Except.ok front = (Except.ok front' : Except PyErr (List Card)) ∧
        front ++ copiedKeys.flatMap (fun key => firstCard (startsWithKey key) cards) ++
            closingCards datasum checksum =
          front' ++ copiedKeys.flatMap (fun key => firstCard (hasKeyField key) cards) ++
            closingCards datasum checksum) ↔
        copiedKeys.flatMap (fun key => firstCard (startsWithKey key) cards) =
          copiedKeys.flatMap (fun key => firstCard (hasKeyField key) cards) := by
      constructor
      · rintro ⟨front', hok, heq⟩
        cases hok
        exact List.append_cancel_left (List.append_cancel_right heq)
      · intro heq
        exact ⟨front, rfl, by rw [heq]⟩
    refine hsame.trans ((flatMap_toList_eq_iff (by decide) ?_).trans ?_)
    · intro m hm n hn a hf hg
      obtain ⟨c, hc, rfl⟩ := Option.map_eq_some_iff.1 hf
      obtain ⟨d, hd, hdc⟩ := Option.map_eq_some_iff.1 hg
      apply key_eq_of_card hm hn (List.find?_some hc)
      rw [← hasKeyField_trimEnd, ← hdc, hasKeyField_trimEnd]
      exact List.find?_some hd
    · exact forall₂_congr fun key hkey => firstCard_eq_iff hkey cards

/-! ## Both writers -/

/-- The checksum cards and the header of the uncompressed image touch and copy exactly
the cards of their keywords when every keyword is found where a card starts with it. -/
theorem integrityCards_own_iff (cards : List Card) (hend : cards.getLast? = some endCard) :
    (∀ key ∈ integrityKeys, ∀ value comment,
      TouchesOwn (inKeywordField key) (trimEnd (cardString key value comment)) cards
          (setOrInsertStringCard cards key value comment) ↔
        SameFirst (hasKeyword key) (inKeywordField key) cards) ∧
      (∀ key ∈ integrityKeys, key ≠ str "DATASUM" →
        SameFirst (hasKeyword key) (inKeywordField key) cards) ∧
      ∀ datasum checksum header,
        buildEquivalentUncompressedHeader cards datasum checksum = .ok header →
          (CopiesOwn cards datasum checksum header ↔
            ∀ key ∈ copiedKeys, SameFirst (startsWithKey key) (hasKeyField key) cards) := by
  refine ⟨fun key hkey value comment => setOrInsertStringCard_own_iff hend hkey value comment,
    fun key hkey hne => sameFirst_of_eight_letters ?_ cards,
    fun datasum checksum header => buildEquivalentUncompressedHeader_copies_iff⟩
  simp only [integrityKeys, List.mem_cons, List.not_mem_nil, or_false] at hkey
  rcases hkey with rfl | rfl | rfl | rfl
  · exact absurd rfl hne
  all_goals rfl

/-- A header with a DATASUM card and an EXTNAME card. -/
def namedHeader : List Card :=
  [str "ZBITPIX =                    8", str "ZNAXIS  =                    0",
    str "EXTNAME = 'SCI     '", str "DATASUM = '0       '", endCard]

theorem integrityCards_own_named :
    (∀ key ∈ integrityKeys, ∀ value comment,
      TouchesOwn (inKeywordField key) (trimEnd (cardString key value comment)) namedHeader
          (setOrInsertStringCard namedHeader key value comment) ↔
        SameFirst (hasKeyword key) (inKeywordField key) namedHeader) ∧
      (∀ key ∈ integrityKeys, key ≠ str "DATASUM" →
        SameFirst (hasKeyword key) (inKeywordField key) namedHeader) ∧
      ∀ datasum checksum header,
        buildEquivalentUncompressedHeader namedHeader datasum checksum = .ok header →
          (CopiesOwn namedHeader datasum checksum header ↔
            ∀ key ∈ copiedKeys, SameFirst (startsWithKey key) (hasKeyField key) namedHeader) :=
  integrityCards_own_iff namedHeader rfl

/-- A card of the keyword DATASUMX, and one of EXTNAMES. -/
def namesakeHeader : List Card :=
  [str "ZBITPIX =                    8", str "ZNAXIS  =                    0",
    str "EXTNAMES=                    3", str "DATASUMX=                    5", endCard]

/-- The card DATASUMX is overwritten, and the card EXTNAMES copied. -/
theorem integrityCards_touch_namesake :
    namesakeHeader.getLast? = some endCard ∧
      ¬ TouchesOwn (inKeywordField (str "DATASUM"))
          (trimEnd (cardString (str "DATASUM") (str "7") (str "data unit checksum"))) namesakeHeader
          (setOrInsertStringCard namesakeHeader (str "DATASUM") (str "7")
            (str "data unit checksum")) ∧
      ∃ header, buildEquivalentUncompressedHeader namesakeHeader (str "7") (str "0") = .ok header ∧
        ¬ CopiesOwn namesakeHeader (str "7") (str "0") header := by
  refine ⟨rfl, fun htouch => ?_, ?_⟩
  · have hsame := (setOrInsertStringCard_own_iff rfl (by decide) _ _).1 htouch
    exact absurd hsame (by decide)
  · have hbuild : ∃ header,
        buildEquivalentUncompressedHeader namesakeHeader (str "7") (str "0") = .ok header :=
      ⟨_, rfl⟩
    obtain ⟨header, hbuild⟩ := hbuild
    refine ⟨header, hbuild, fun hcopies => ?_⟩
    have hsame := (buildEquivalentUncompressedHeader_copies_iff hbuild).1 hcopies
    exact absurd (hsame (str "EXTNAME") (by decide)) (by decide)

end

end RustFits.CompressedImage
