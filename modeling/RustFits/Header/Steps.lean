import Mathlib.Logic.Relation
import RustFits.Header.Free

/-!
# What a header method does to the cards

A method of a header view changes a card list in four ways: it replaces or inserts
the cards of a key, it deletes them, it deletes the commentary cards of a key, and
it appends some.  `CardEdit` lists the four with what the checks in front of them
establish, and `performs_run` says that every method is a sequence of them under the
keys it names, also when it raises.  Only `del` deletes, and it does so at most once
(`headerDelItem_cases`).  What holds across header edits is proved on `CardEdit`.
-/

namespace RustFits

open Ascii ByteFile Machine

namespace Header

/-! ## The keyword of a card that was built -/

/-- The keyword of the card, in its lookup form. -/
def cardKey (card : Card) : Option Str := (keywordOf card).map normalizeKeyword

theorem cardKey_of_keywordOf {card : Card} {keyword : Str} (h : keywordOf card = some keyword) :
    cardKey card = some (normalizeKeyword keyword) := by
  simp [cardKey, h]

/-- A card that a method found under a key. -/
theorem cardKey_of_matchesKey {key : Str} {card : Card} (h : matchesKey key card = true) :
    cardKey card = some key := by
  unfold matchesKey at h
  cases hk : keywordOf card with
  | none => simp [hk] at h
  | some keyword =>
    simp only [hk, Bool.and_eq_true, decide_eq_true_eq] at h
    rw [cardKey_of_keywordOf hk, h.2]

theorem trimEnd_padToCard_equals (front rest : Str) (h : front.length < 80) :
    ∃ rest', trimEnd (padToCard (front ++ 0x3D :: rest)) = front ++ 0x3D :: rest' := by
  obtain ⟨n, hn⟩ : ∃ n, 80 - front.length = n + 1 := ⟨79 - front.length, by omega⟩
  rw [padToCard, padRight, trimEnd_append_blanks, cardSize, List.take_append, hn,
    List.take_of_length_le (Nat.le_of_lt h), List.take_succ_cons, trimEnd_append (by decide)]
  exact ⟨_, rfl⟩

theorem takeWhile_equals {front : Str} (rest : Str) (h : 0x3D ∉ front) :
    (front ++ 0x3D :: rest).takeWhile (fun b => b != 0x3D) = front := by
  rw [List.takeWhile_append_of_pos]
  · simp
  · intro b hb
    have : b ≠ 0x3D := fun he => h (he ▸ hb)
    simpa using this

theorem afterEquals_append (front rest : Str) :
    (afterEquals (front ++ 0x3D :: rest)).isSome = true := by
  unfold afterEquals
  split
  · rename_i hnil
    have := List.dropWhile_eq_nil_iff.1 hnil 0x3D (by simp)
    simp at this
  · rfl

theorem keywordOf_continue {card : Card} (h : continueKey.isPrefixOf (trimEnd card) = true) :
    keywordOf card = some continueKey := by
  obtain ⟨rest, hrest⟩ := List.isPrefixOf_iff_prefix.1 h
  unfold keywordOf
  dsimp only
  rw [← hrest]
  have htake : (continueKey ++ rest).take 8 = continueKey := List.take_left' rfl
  rw [if_neg (by simp [continueKey, str]), htake]
  rfl

theorem cardKey_continue {card : Card} (h : continueKey.isPrefixOf (trimEnd card) = true) :
    cardKey card = some continueKey :=
  (cardKey_of_keywordOf (keywordOf_continue h)).trans (by decide)

/-- The keyword of a card with a keyword field and an equals sign. -/
theorem keywordOf_hasValue {key : Str} {card : Card} (htoken : IsToken key) (hlen : key.length ≤ 8)
    (h : HasValue key card) : keywordOf (trimEnd card) = some key := by
  obtain ⟨rest, rfl⟩ := h
  have hfield : (padRight 8 key).length = 8 := by rw [padRight_length]; omega
  obtain ⟨rest', hcard⟩ := trimEnd_padToCard_equals (padRight 8 key) rest (by omega)
  have htrim : trim (padRight 8 key) = key := by
    rw [padRight, trim_append_blanks, trim_of_isToken htoken]
  unfold keywordOf
  dsimp only
  rw [trimEnd_trimEnd, hcard, if_neg (by simp), List.take_left' hfield, htrim]
  split_ifs with hh hlong
  · -- a keyword HIERARCH of its own: nothing stands between it and the equals sign
    subst hh
    exact absurd hlong (by
      rw [takeWhile_equals rest' (by decide)]
      simp [trim, trimEnd, trimStart, padRight, hierarchKey, str])
  · rw [hh]
  · rfl

/-- The keyword of a card with a long key. -/
theorem keywordOf_hasLongKey {key : Str} {card : Card} (htrim : trim key = key) (hne : key ≠ [])
    (hequals : 0x3D ∉ key) (h : HasLongKey key card) : keywordOf (trimEnd card) = some key := by
  obtain ⟨hlen, rest, rfl⟩ := h
  have hfront : (str "HIERARCH " ++ key ++ [blank]).length = key.length + 10 := by
    simp [str]
  obtain ⟨rest', hcard⟩ := trimEnd_padToCard_equals (str "HIERARCH " ++ key ++ [blank]) rest
    (by omega)
  have hfield : (str "HIERARCH " ++ key ++ [blank] ++ 0x3D :: rest').take 8 = hierarchKey := by
    rw [List.append_assoc, List.append_assoc, List.take_append_of_le_length (by decide)]
    rfl
  have hlong : trim (((str "HIERARCH " ++ key ++ [blank] ++ 0x3D :: rest').takeWhile
      fun b => b != 0x3D).drop 8) = key := by
    rw [takeWhile_equals rest' (by
      simp only [List.mem_append, not_or]
      exact ⟨⟨by decide, hequals⟩, by decide⟩)]
    show trim (blank :: (key ++ List.replicate 1 blank)) = key
    rw [trim, trimStart, List.dropWhile_cons_of_pos (by decide)]
    exact (trim_append_blanks key 1).trans htrim
  unfold keywordOf
  dsimp only
  rw [trimEnd_trimEnd, hcard, if_neg (by simp), hfield, if_pos (by decide), hlong,
    if_pos (by rw [afterEquals_append]; simpa using hne)]

/-! ## The two forms of a keyword -/

theorem toAsciiUppercase_upper (s : Str) :
    toAsciiUppercase (toAsciiUppercase s) = toAsciiUppercase s := by
  have hbyte : ∀ b : UInt8, (if 0x61 ≤ (if 0x61 ≤ b && b ≤ 0x7A then b - 0x20 else b) &&
      (if 0x61 ≤ b && b ≤ 0x7A then b - 0x20 else b) ≤ 0x7A then
        (if 0x61 ≤ b && b ≤ 0x7A then b - 0x20 else b) - 0x20
      else (if 0x61 ≤ b && b ≤ 0x7A then b - 0x20 else b)) =
        if 0x61 ≤ b && b ≤ 0x7A then b - 0x20 else b := forall_byte (by decide +kernel)
  rw [toAsciiUppercase, toAsciiUppercase, List.map_map]
  exact List.map_congr_left fun b _ => hbyte b

/-- A text without white space at its ends. -/
theorem trim_of_ends {s : Str} (hhead : ∀ b ∈ s.head?, isWhitespace b = false)
    (hlast : ∀ b ∈ s.getLast?, isWhitespace b = false) : trim s = s := by
  have hstart : trimStart s = s := by
    cases s with
    | nil => rfl
    | cons b rest => exact List.dropWhile_cons_of_neg (by simp [hhead b (by simp)])
  rw [trim, hstart, trimEnd, List.rdropWhile_eq_self_iff]
  intro hne
  rw [hlast _ (List.getLast?_eq_some_getLast hne)]
  exact Bool.false_ne_true

theorem joinWords_getLast :
    ∀ {s : Str} {gap : Bool}, ∀ b ∈ (joinWords gap s).getLast?, isWhitespace b = false := by
  intro s
  induction s with
  | nil => simp [joinWords]
  | cons c rest ih =>
    intro gap b hb
    rw [joinWords] at hb
    have hcons : ∀ front : Str, isWhitespace c = false →
        b ∈ (front ++ c :: joinWords false rest).getLast? → isWhitespace b = false := by
      intro front hc hb
      rw [List.getLast?_append_of_ne_nil _ (List.cons_ne_nil _ _)] at hb
      cases hrest : joinWords false rest with
      | nil =>
        rw [hrest] at hb
        obtain rfl : c = b := by simpa using hb
        exact hc
      | cons d tail =>
        refine @ih false b ?_
        rw [hrest] at hb ⊢
        simpa using hb
    split_ifs at hb with hc hg
    · exact ih b hb
    · exact hcons [blank] (Bool.eq_false_iff.2 hc) hb
    · exact hcons [] (Bool.eq_false_iff.2 hc) hb

theorem mem_joinWords : ∀ {s : Str} {gap : Bool}, ∀ b ∈ joinWords gap s, b = blank ∨ b ∈ s := by
  intro s
  induction s with
  | nil => simp [joinWords]
  | cons c rest ih =>
    intro gap b hb
    rw [joinWords] at hb
    split_ifs at hb with hc hg
    · exact (ih b hb).imp id (List.mem_cons_of_mem c)
    · rcases List.mem_cons.1 hb with rfl | hb
      · exact Or.inl rfl
      · rcases List.mem_cons.1 hb with rfl | hb
        · exact Or.inr List.mem_cons_self
        · exact (ih b hb).imp id (List.mem_cons_of_mem c)
    · rcases List.mem_cons.1 hb with rfl | hb
      · exact Or.inr List.mem_cons_self
      · exact (ih b hb).imp id (List.mem_cons_of_mem c)

/-- Collapsed white space leaves none at the ends. -/
theorem trim_collapseWhitespace (s : Str) :
    trim (collapseWhitespace (trim s)) = collapseWhitespace (trim s) := by
  refine trim_of_ends ?_ fun b hb => joinWords_getLast b hb
  rw [collapseWhitespace, trimStart_trim]
  have hstart := trimStart_trim s
  cases ht : trim s with
  | nil => simp [joinWords]
  | cons c rest =>
    have hc : isWhitespace c = false := by
      rw [ht] at hstart
      rw [Bool.eq_false_iff]
      intro hc
      rw [trimStart, List.dropWhile_cons_of_pos hc] at hstart
      have hlen := (List.dropWhile_suffix isWhitespace (l := rest)).length_le
      rw [hstart, List.length_cons] at hlen
      omega
    intro b hb
    rw [joinWords, if_neg (by simp [hc]), if_neg (by decide)] at hb
    obtain rfl : c = b := by simpa using hb
    exact hc

theorem joinWords_joinWords : ∀ {s : Str} {gap : Bool},
    joinWords false (joinWords gap s) = joinWords gap s := by
  intro s
  induction s with
  | nil => simp [joinWords]
  | cons c rest ih =>
    intro gap
    rw [joinWords]
    split_ifs with hc hg
    · exact ih
    · rw [joinWords, if_pos (by decide), joinWords, if_neg hc, if_pos rfl, ih]
    · rw [joinWords, if_neg hc, if_neg (by decide), ih]

/-- A long storage form has no white space at its ends, and it has the lookup form of
its keyword. -/
theorem storageKeyword_long {key : Str} (h : isHierarchKey (storageKeyword key) = true) :
    toAsciiUppercase (storageKeyword key) = normalizeKeyword key ∧
      trim (storageKeyword key) = storageKeyword key ∧
      normalizeKeyword (storageKeyword key) = normalizeKeyword key := by
  have hk : isHierarchKey (trim key) = true := by
    by_contra hk
    rw [storageKeyword, if_neg hk, isHierarchKey_upper] at h
    exact hk h
  have hstorage : storageKeyword key = joinWords false (trim key) := by
    rw [storageKeyword, if_pos hk, collapseWhitespace, trimStart_trim]
  have hlookup : normalizeKeyword key = toAsciiUppercase (storageKeyword key) := by
    rw [normalizeKeyword, if_pos hk, storageKeyword, if_pos hk]
  have htrim : trim (storageKeyword key) = storageKeyword key := by
    rw [storageKeyword, if_pos hk, trim_collapseWhitespace]
  refine ⟨hlookup.symm, htrim, ?_⟩
  rw [normalizeKeyword, htrim, if_pos h, hlookup, collapseWhitespace]
  conv_lhs => rw [← htrim, trimStart_trim, htrim, hstorage, joinWords_joinWords]
  rw [hstorage]

/-! ## The chain of a card -/

theorem chainLength_continue : ∀ (rest : List Card) (prev : Card),
    ∀ c ∈ rest.take (chainLength prev rest), continueKey.isPrefixOf (trimEnd c) = true := by
  intro rest
  induction rest with
  | nil => simp
  | cons next rest ih =>
    intro prev c hc
    rw [chainLength] at hc
    split_ifs at hc with hchain
    · rw [List.take_succ_cons] at hc
      rw [Bool.and_eq_true] at hchain
      rcases List.mem_cons.1 hc with rfl | hc
      · exact hchain.2
      · exact ih next c hc
    · simp at hc

/-- A card, the CONTINUE cards of its chain, and the cards around them. -/
theorem chain_split {cards : List Card} {start : Nat} (h : start < cards.length) :
    ∃ chain, cards = cards.take start ++ (cards[start] :: chain) ++
        cards.drop (findChainEnd cards start) ∧
      ∀ c ∈ chain, continueKey.isPrefixOf (trimEnd c) = true := by
  refine ⟨_, ?_, chainLength_continue (cards.drop (start + 1)) (cards.getD start [])⟩
  obtain ⟨n, hn⟩ : ∃ n, chainLength (cards.getD start []) (cards.drop (start + 1)) = n := ⟨_, rfl⟩
  have hback : cards.drop (start + 1 + n) = (cards.drop (start + 1)).drop n := by
    rw [List.drop_drop]
  rw [findChainEnd, hn, hback, List.append_assoc, List.cons_append, List.take_append_drop,
    List.getElem_cons_drop h, List.take_append_drop]

/-! ## The changes -/

/-- A card that a method inserts for a key: a card of that key, a CONTINUE card or a
blank one. -/
structure Written (key : Str) (card : Card) : Prop where
  insertable : Insertable card
  cardKey : cardKey card = some key ∨ cardKey card = some continueKey ∨ cardKey card = none

/-- One change of a card list under a key, a deletion only where `deletes` allows it. -/
inductive CardEdit (deletes : Bool) (key : Str) (cards : List Card) : List Card → Prop where
  | set (first : Card) (more : List Card) (hkey : isProtectedKey key = false)
      (hfirst : cardKey (trimEnd first) = some key)
      (hnew : ∀ c ∈ first :: more, Written key (trimEnd c)) :
      CardEdit deletes key cards (setCardForKey cards key (first :: more))
  | delete (kept : List Card) (hdeletes : deletes = true) (hkey : isProtectedKey key = false)
      (hdel : deleteCardForKey cards key = some kept) : CardEdit deletes key cards kept
  | deleteCommentary (hdeletes : deletes = true) (hkey : isCommentaryKey key = true) :
      CardEdit deletes key cards (deleteCommentaryCards cards key)
  | appendCommentary (text : Str) (hkey : isCommentaryKey key = true) :
      CardEdit deletes key cards (appendCommentaryToCards cards key text)

/-- A sequence of changes under some keys. -/
def CardEdits (deletes : Bool) (keys : List Str) : List Card → List Card → Prop :=
  Relation.ReflTransGen fun cards cards' => ∃ key ∈ keys, CardEdit deletes key cards cards'

theorem CardEdits.refl (deletes : Bool) (keys : List Str) (cards : List Card) :
    CardEdits deletes keys cards cards :=
  Relation.ReflTransGen.refl

theorem CardEdits.single {deletes : Bool} {keys : List Str} {key : Str} {cards cards' : List Card}
    (hkey : key ∈ keys) (h : CardEdit deletes key cards cards') :
    CardEdits deletes keys cards cards' :=
  Relation.ReflTransGen.single ⟨key, hkey, h⟩

theorem isProtectedKey_of_isCommentaryKey {key : Str} (h : isCommentaryKey key = true) :
    isProtectedKey key = false := by
  simp only [isCommentaryKey, Bool.or_eq_true, decide_eq_true_eq, List.isEmpty_iff] at h
  rcases h with (rfl | rfl) | rfl <;> decide

/-- A change is under a key that is not protected. -/
theorem CardEdit.unprotected {deletes : Bool} {key : Str} {cards cards' : List Card}
    (h : CardEdit deletes key cards cards') : isProtectedKey key = false := by
  cases h with
  | set first more hkey hfirst hnew => exact hkey
  | delete kept hdeletes hkey hdel => exact hkey
  | deleteCommentary hdeletes hkey => exact isProtectedKey_of_isCommentaryKey hkey
  | appendCommentary text hkey => exact isProtectedKey_of_isCommentaryKey hkey

theorem makeCommentaryCards_keyword (keyword text : Str) :
    ∀ c ∈ makeCommentaryCards keyword text, HasKeyword keyword c := by
  intro c hc
  unfold makeCommentaryCards at hc
  split_ifs at hc
  · rw [List.mem_singleton.1 hc]
    exact ⟨[], by rw [List.append_nil]⟩
  · obtain ⟨chunk, -, rfl⟩ := List.mem_map.1 hc
    exact ⟨chunk, rfl⟩

/-- The keyword field of a card that starts with a keyword. -/
theorem field_of_hasKeyword {key : Str} {card : Card} (htrim : trim key = key)
    (hlen : key.length ≤ 8) (h : HasKeyword key card) : trim ((trimEnd card).take 8) = key := by
  obtain ⟨rest, rfl⟩ := h
  have hfield : (padRight 8 key).length = 8 := by rw [padRight_length]; omega
  rw [trim_take_trimEnd, padToCard, padRight, cardSize, List.take_append_of_le_length
    (by simp [hfield]), List.take_take, Nat.min_eq_left (by omega),
    List.take_left' hfield, padRight, trim_append_blanks, htrim]

/-- A card under a keyword field that stands for no long key. -/
theorem cardKey_of_hasKeyword {key : Str} {card : Card} (htrim : trim key = key)
    (hlen : key.length ≤ 8) (hlong : key ≠ hierarchKey) (hkey : normalizeKeyword key = key)
    (h : HasKeyword key card) : cardKey (trimEnd card) = some key ∨
    cardKey (trimEnd card) = none := by
  unfold cardKey keywordOf
  dsimp only
  rw [trimEnd_trimEnd, field_of_hasKeyword htrim hlen h, if_neg hlong]
  split_ifs
  · exact Or.inr rfl
  · exact Or.inl (by simp [hkey])

theorem commentaryKey_form {key : Str} (hkey : isCommentaryKey key = true) :
    trim key = key ∧ key.length ≤ 8 ∧ key ≠ hierarchKey ∧ normalizeKeyword key = key := by
  simp only [isCommentaryKey, Bool.or_eq_true, decide_eq_true_eq, List.isEmpty_iff] at hkey
  rcases hkey with (rfl | rfl) | rfl <;> decide

theorem cardKey_of_commentary {keyword text : Str} (hkey : isCommentaryKey keyword = true) :
    ∀ c ∈ makeCommentaryCards keyword text,
      cardKey (trimEnd c) = some keyword ∨ cardKey (trimEnd c) = none := by
  intro c hc
  obtain ⟨htrim, hlen, hlong, hnormal⟩ := commentaryKey_form hkey
  exact cardKey_of_hasKeyword htrim hlen hlong hnormal
    (makeCommentaryCards_keyword keyword text c hc)

theorem written_of_commentary {keyword text : Str} (hkey : isCommentaryKey keyword = true) :
    ∀ c ∈ makeCommentaryCards keyword text, Written keyword (trimEnd c) := by
  intro c hc
  obtain ⟨htrim, hlen, -⟩ := commentaryKey_form hkey
  exact ⟨insertable_of_hasKeyword htrim hlen (isProtectedKey_of_isCommentaryKey hkey)
      (makeCommentaryCards_keyword keyword text c hc),
    (cardKey_of_commentary hkey c hc).imp id Or.inr⟩

section

variable {F : Type} {floats : Floats F} {cards : List Card}

theorem existingStorageKeyword_some {lookup storage : Str}
    (h : existingStorageKeyword cards lookup = some storage) :
    ∃ kw, storage = storageKeyword kw ∧ normalizeKeyword kw = lookup := by
  induction cards with
  | nil => cases h
  | cons card cards ih =>
    rw [existingStorageKeyword] at h
    split at h
    · cases h
    · rename_i kw hkw
      split_ifs at h with hmatch
      · rw [Bool.and_eq_true, decide_eq_true_eq] at hmatch
        exact ⟨kw, (Option.some.inj h).symm, hmatch.2⟩
      · exact ih h

/-- A lookup form that a call may set. -/
def Settable (lookup : Str) : Prop := isProtectedKey lookup = false ∧ lookup ≠ []

/-- The keyword that the cards of a call are written under. -/
theorem storage_of_call {key storage : Str}
    (hstorage : (existingStorageKeyword cards (normalizeKeyword key)).getD (storageKeyword key) =
      storage) :
    ∃ kw, storage = storageKeyword kw ∧ normalizeKeyword kw = normalizeKeyword key := by
  cases hex : existingStorageKeyword cards (normalizeKeyword key) with
  | none =>
    rw [hex, Option.getD_none] at hstorage
    exact ⟨key, hstorage.symm, rfl⟩
  | some st =>
    rw [hex, Option.getD_some] at hstorage
    obtain ⟨kw, hst, hkw⟩ := existingStorageKeyword_some hex
    exact ⟨kw, by rw [← hstorage, hst], hkw⟩

/-- A valid keyword has no equals sign. -/
theorem equals_not_mem_normalize {key : Str} (hvalid : validateKeyword key = .ok ()) :
    0x3D ∉ normalizeKeyword key := by
  have hbyte : ∀ b : UInt8, (if 0x61 ≤ b && b ≤ 0x7A then b - 0x20 else b) = 0x3D → b = 0x3D :=
    forall_byte (by decide +kernel)
  have hkey : 0x3D ∉ trim key := by
    intro hmem
    have hmem' : 0x3D ∈ key := (List.dropWhile_suffix _).sublist.subset (mem_of_mem_trimEnd hmem)
    have hchar := keywordChar_of_valid hvalid hmem'
    revert hchar
    cases isHierarchKey key <;> decide
  intro hmem
  unfold normalizeKeyword toAsciiUppercase at hmem
  split_ifs at hmem
  · obtain ⟨b, hb, he⟩ := List.mem_map.1 hmem
    obtain rfl := hbyte b he
    rw [collapseWhitespace, trimStart_trim] at hb
    rcases mem_joinWords _ hb with hblank | hb
    · exact absurd hblank (by decide)
    · exact hkey hb
  · obtain ⟨b, hb, he⟩ := List.mem_map.1 hmem
    obtain rfl := hbyte b he
    exact hkey hb

/-- The storage form of a short keyword of a call. -/
theorem storage_short {key kw : Str} (hvalid : validateKeyword key = .ok ())
    (hkey : Settable (normalizeKeyword key)) (hkw : normalizeKeyword kw = normalizeKeyword key)
    (hshort : isHierarchKey (storageKeyword kw) = false) :
    IsToken (storageKeyword kw) ∧ (storageKeyword kw).length ≤ 8 ∧
      isProtectedKey (storageKeyword kw) = false := by
  have heq := (storageKeyword_eq_normalize hshort).trans hkw
  rw [heq] at hshort ⊢
  obtain ⟨htoken, hlen⟩ := isToken_normalizeKeyword hvalid hkey.2 hshort
  exact ⟨htoken, hlen, hkey.1⟩

/-- The first card that a call builds has its key. -/
theorem cardKey_first {key storage : Str} {card : Card} (hvalid : validateKeyword key = .ok ())
    (hkey : Settable (normalizeKeyword key))
    (hstorage : (existingStorageKeyword cards (normalizeKeyword key)).getD (storageKeyword key) =
      storage)
    (h : isHierarchKey storage = false ∧ HasValue storage card ∨
      isHierarchKey storage = true ∧ HasLongKey storage card) :
    cardKey (trimEnd card) = some (normalizeKeyword key) := by
  obtain ⟨kw, rfl, hkw⟩ := storage_of_call hstorage
  rcases h with ⟨hk, h⟩ | ⟨hk, h⟩
  · obtain ⟨htoken, hlen, -⟩ := storage_short hvalid hkey hkw hk
    have hupper : toAsciiUppercase (normalizeKeyword kw) = normalizeKeyword kw := by
      unfold normalizeKeyword
      split_ifs <;> exact toAsciiUppercase_upper _
    rw [cardKey_of_keywordOf (keywordOf_hasValue htoken hlen h), normalizeKeyword,
      trim_of_isToken htoken, hk, if_neg (by decide), storageKeyword_eq_normalize hk, hupper, hkw]
  · obtain ⟨hupper, htrim, hnormal⟩ := storageKeyword_long hk
    have hne : storageKeyword kw ≠ [] := by
      intro hnil
      rw [hnil] at hk
      exact absurd hk (by decide)
    have hequals : 0x3D ∉ storageKeyword kw := by
      intro hmem
      refine equals_not_mem_normalize hvalid ?_
      rw [← hkw, ← hupper]
      exact List.mem_map.2 ⟨_, hmem, by decide⟩
    rw [cardKey_of_keywordOf (keywordOf_hasLongKey htrim hne hequals h), hnormal, hkw]

/-- The cards that a call builds. -/
theorem written_of_builtFor {key storage : Str} {card : Card}
    (hvalid : validateKeyword key = .ok ()) (hkey : Settable (normalizeKeyword key))
    (hstorage : (existingStorageKeyword cards (normalizeKeyword key)).getD (storageKeyword key) =
      storage) (h : BuiltFor storage card) : Written (normalizeKeyword key) (trimEnd card) := by
  constructor
  · obtain ⟨kw, rfl, hkw⟩ := storage_of_call hstorage
    exact insertable_of_builtFor (storage_short hvalid hkey hkw) h
  · rcases h with h | h | h
    · exact Or.inl (cardKey_first hvalid hkey hstorage (Or.inl h))
    · exact Or.inl (cardKey_first hvalid hkey hstorage (Or.inr h))
    · exact Or.inr (cardKey_of_hasKeyword (by decide) (by decide) (by decide) (by decide) h)

theorem trim_trim (s : Str) : trim (trim s) = trim s := by
  rw [trim, trimStart_trim]
  exact trimEnd_trimEnd _

theorem normalizeKeyword_ne_nil {key : Str} (h : trim key ≠ []) : normalizeKeyword key ≠ [] := by
  unfold normalizeKeyword
  split_ifs with hk
  · intro hnil
    have hcol := isHierarchKey_collapse hk
    rw [← isHierarchKey_upper, hnil] at hcol
    exact absurd hcol (by decide)
  · intro hnil
    apply h
    rw [← List.length_eq_zero_iff, ← toAsciiUppercase_length, hnil]
    rfl

theorem keywordOf_trim {card : Card} {kw : Str} (h : keywordOf card = some kw) : trim kw = kw := by
  unfold keywordOf at h
  dsimp only at h
  split_ifs at h
  · rw [← Option.some.inj h]
    exact trim_trim _
  · rw [← Option.some.inj h]
    decide
  · rw [← Option.some.inj h]
    exact trim_trim _

/-- An action that an update may apply. -/
def UpdateAction.Allowed : UpdateAction F → Prop
  | .setKey key _ _ => Settable (normalizeKeyword key)
  | .appendCommentary keyword _ => isCommentaryKey keyword = true

theorem headerActions_allowed (copyCommentary : Bool) :
    ∀ (cards : List Card), ∀ a ∈ headerActions floats copyCommentary cards, a.Allowed := by
  intro cards
  induction cards with
  | nil => simp [headerActions]
  | cons card rest ih =>
    intro a ha
    rw [headerActions] at ha
    rcases List.mem_append.1 ha with ha | ha
    · split_ifs at ha with h1 h2 h3 h4
      · simp at ha
      · rw [List.mem_singleton.1 ha]
        exact h2
      · simp at ha
      · simp at ha
      · split at ha
        · simp at ha
        · rw [List.mem_singleton.1 ha]
          rw [Bool.or_eq_true, not_or, Bool.not_eq_true, Bool.not_eq_true] at h4
          refine ⟨h4.2, normalizeKeyword_ne_nil ?_⟩
          cases hkw : keywordOf card with
          | none =>
            rw [hkw] at h4
            exact absurd h4.1 (by decide)
          | some kw =>
            rw [hkw] at h4
            rw [Option.getD_some, keywordOf_trim hkw]
            simpa using h4.1
    · exact ih a ha

theorem mappingActions_allowed :
    ∀ {items : List (Str × HeaderValue F × Option Str)} {actions : List (UpdateAction F)},
      mappingActions items = .ok actions → ∀ a ∈ actions, a.Allowed := by
  intro items
  induction items with
  | nil =>
    intro actions h
    cases h
    simp
  | cons item rest ih =>
    intro actions h
    obtain ⟨key, value, comment⟩ := item
    rw [mappingActions] at h
    split_ifs at h with hcom hprot
    cases hrest : mappingActions rest with
    | error e =>
      rw [hrest] at h
      cases h
    | ok actions' =>
      rw [hrest] at h
      cases h
      intro a ha
      rcases List.mem_cons.1 ha with rfl | ha
      · refine ⟨Bool.eq_false_iff.2 hprot, fun hnil => hcom ?_⟩
        rw [hnil]
        decide
      · exact ih hrest a ha

theorem collectUpdateActions_allowed {source : UpdateSource F} {copyCommentary : Bool}
    {actions : List (UpdateAction F)}
    (h : collectUpdateActions floats source copyCommentary = .ok actions) :
    ∀ a ∈ actions, a.Allowed := by
  cases source with
  | header cards =>
    cases h
    exact headerActions_allowed copyCommentary cards
  | mapping items => exact mappingActions_allowed h

theorem settable_of_checks {lookup : Str} (hcom : isCommentaryKey lookup ≠ true)
    (hprot : isProtectedKey lookup ≠ true) : Settable lookup := by
  refine ⟨Bool.eq_false_iff.2 hprot, fun hnil => hcom ?_⟩
  rw [hnil]
  decide

theorem get_bind_cards {β : Type} (g : List Card → CardOp β) (cards : List Card) :
    (get >>= g) cards = g cards cards := rfl

/-! ## The methods -/

/-- The key of an action. -/
def UpdateAction.key : UpdateAction F → Str
  | .setKey key _ _ => normalizeKeyword key
  | .appendCommentary keyword _ => keyword

/-- The keys that a method changes cards of. -/
def HeaderMethod.keys (floats : Floats F) : HeaderMethod F → List Str
  | .setItem key _ _ => [normalizeKeyword key]
  | .delItem key => [normalizeKeyword key]
  | .addComment _ => [commentKey]
  | .addHistory _ => [historyKey]
  | .addBlank _ => [[]]
  | .setComment key _ => [normalizeKeyword key]
  | .update source copyCommentary =>
    match collectUpdateActions floats source copyCommentary with
    | .ok actions => actions.map UpdateAction.key
    | .error _ => []

/-- The method may delete cards. -/
def HeaderMethod.deletes : HeaderMethod F → Bool
  | .delItem _ => true
  | _ => false

/-- The program changes the cards it started from by a sequence of changes under
some keys. -/
def Performs {α : Type} (deletes : Bool) (keys : List Str) (x : CardOp α) : Prop :=
  ∀ base : List Card, Triple (CardEdits deletes keys base) x (fun _ => CardEdits deletes keys base)
    (fun _ => CardEdits deletes keys base)

variable {deletes : Bool} {keys : List Str}

theorem performs_ofExcept {α : Type} (x : Except PyErr α) :
    Performs deletes keys (CardOp.ofExcept x) := by
  intro base cards h
  cases x with
  | ok a => exact h
  | error e => exact h

theorem Performs.bind {α β : Type} {x : CardOp α} {f : α → CardOp β} (hx : Performs deletes keys x)
    (hf : ∀ a, Performs deletes keys (f a)) : Performs deletes keys (x >>= f) :=
  fun base => (hx base).bind fun a => hf a base

theorem performs_pure {α : Type} (a : α) : Performs deletes keys (pure a : CardOp α) :=
  fun _ => Triple.pure fun _ h => h

theorem performs_throw {α : Type} (e : PyErr) : Performs deletes keys (throw e : CardOp α) :=
  fun _ => Triple.throw fun _ h => h

theorem performs_ite {α : Type} {c : Prop} [Decidable c] {x y : CardOp α}
    (hx : c → Performs deletes keys x)
    (hy : ¬ c → Performs deletes keys y) : Performs deletes keys (if c then x else y) :=
  fun base => Triple.ite (fun hc => hx hc base) fun hc => hy hc base

/-- A computed change of the cards. -/
theorem performs_of_state {α : Type} {x : CardOp α}
    (h : ∀ cards, match x cards with
      | .ok _ cards' => CardEdits deletes keys cards cards'
      | .error _ cards' => CardEdits deletes keys cards cards') : Performs deletes keys x := by
  intro base cards hbase
  have hx := h cards
  cases hrun : x cards with
  | ok a cards' =>
    rw [hrun] at hx
    exact Relation.ReflTransGen.trans hbase hx
  | error e cards' =>
    rw [hrun] at hx
    exact Relation.ReflTransGen.trans hbase hx

theorem performs_applySetitem {key : Str} {value : HeaderValue F} {comment : Option Str}
    (hkey : Settable (normalizeKeyword key)) (hmem : normalizeKeyword key ∈ keys) :
    Performs deletes keys (applySetitem floats key value comment) := by
  refine performs_of_state fun cards => ?_
  cases hvalid : validateKeyword key with
  | error e =>
    have hrun : applySetitem floats key value comment cards = .error e cards := by
      unfold applySetitem
      rw [hvalid]
      rfl
    rw [hrun]
    exact CardEdits.refl deletes keys cards
  | ok u =>
    obtain ⟨storage, hst⟩ : ∃ storage, (existingStorageKeyword cards (normalizeKeyword key)).getD
      (storageKeyword key) = storage := ⟨_, rfl⟩
    obtain ⟨text, htext⟩ : ∃ text, comment.getD
      ((extractExistingComment floats cards (normalizeKeyword key)).getD []) = text := ⟨_, rfl⟩
    cases hbuild : buildCardFromValue floats storage value text with
    | error e =>
      have hrun : applySetitem floats key value comment cards = .error e cards := by
        unfold applySetitem
        rw [hvalid]
        show (CardOp.ofExcept (buildCardFromValue floats _ value _) >>= _ : CardOp Unit) cards = _
        rw [hst, htext, hbuild]
        rfl
      rw [hrun]
      exact CardEdits.refl deletes keys cards
    | ok newCards =>
      have hrun : applySetitem floats key value comment cards =
          .ok () (setCardForKey cards (normalizeKeyword key) newCards) := by
        unfold applySetitem
        rw [hvalid]
        show (CardOp.ofExcept (buildCardFromValue floats _ value _) >>= _ : CardOp Unit) cards = _
        rw [hst, htext, hbuild]
        rfl
      rw [hrun]
      obtain ⟨first, more, rfl, hfirst, -⟩ := buildCardFromValue_cards hbuild
      refine CardEdits.single hmem (CardEdit.set first more hkey.1
        (cardKey_first hvalid hkey hst hfirst) fun c hc => ?_)
      exact written_of_builtFor hvalid hkey hst (buildCardFromValue_keyword hbuild c hc)

theorem performs_modifyCommentary {keyword : Str} (text : Str)
    (hkey : isCommentaryKey keyword = true) (hmem : keyword ∈ keys) :
    Performs deletes keys (modify fun cards => appendCommentaryToCards cards keyword text) :=
  performs_of_state fun _ => CardEdits.single hmem (CardEdit.appendCommentary text hkey)

theorem performs_action {a : UpdateAction F} (ha : a.Allowed) (hmem : a.key ∈ keys) :
    Performs deletes keys (a.apply floats) := by
  cases a with
  | setKey key value comment => exact performs_applySetitem ha hmem
  | appendCommentary keyword text => exact performs_modifyCommentary text ha hmem

theorem performs_actions : ∀ {actions : List (UpdateAction F)},
    (∀ a ∈ actions, a.Allowed ∧ a.key ∈ keys) →
      Performs deletes keys (actions.forM (UpdateAction.apply floats)) := by
  intro actions
  induction actions with
  | nil => exact fun _ => performs_pure _
  | cons a actions ih =>
    intro h
    obtain ⟨hallowed, hmem⟩ := h a List.mem_cons_self
    exact (performs_action hallowed hmem).bind fun _ => ih fun b hb =>
      h b (List.mem_cons_of_mem _ hb)

theorem performs_headerSetItem (key : Str) (value : HeaderValue F) (comment : Option Str) :
    Performs deletes [normalizeKeyword key] (headerSetItem floats key value comment) := by
  unfold headerSetItem
  refine performs_ite (fun _ => performs_throw _) fun hcom => ?_
  exact performs_ite (fun _ => performs_throw _) fun hprot =>
    performs_applySetitem (settable_of_checks hcom hprot) (by simp)

theorem performs_applySetComment (key comment : Str) :
    Performs deletes [normalizeKeyword key] (applySetComment floats key comment) := by
  unfold applySetComment
  refine performs_ite (fun _ => performs_throw _) fun hcom => ?_
  refine performs_ite (fun _ => performs_throw _) fun hprot => ?_
  refine Performs.bind (fun base => Triple.get fun _ h => h) fun cards => ?_
  split
  · exact performs_throw _
  · split
    · exact performs_throw _
    · exact performs_applySetitem (settable_of_checks hcom hprot) (by simp)

/-- What `del` does: it raises and leaves the cards, or it deletes the cards of its key. -/
theorem headerDelItem_cases (key : Str) (cards : List Card) :
    (∃ e, headerDelItem key cards = .error e cards) ∨
      isProtectedKey (normalizeKeyword key) = false ∧
        ((isCommentaryKey (normalizeKeyword key) = true ∧ headerDelItem key cards =
            .ok () (deleteCommentaryCards cards (normalizeKeyword key))) ∨
          isCommentaryKey (normalizeKeyword key) = false ∧ ∃ kept,
            deleteCardForKey cards (normalizeKeyword key) = some kept ∧
              headerDelItem key cards = .ok () kept) := by
  unfold headerDelItem
  by_cases hprot : isProtectedKey (normalizeKeyword key) = true
  · exact Or.inl ⟨_, by simp only [hprot, if_true]; rfl⟩
  · have hfree : isProtectedKey (normalizeKeyword key) = false := Bool.eq_false_iff.2 hprot
    simp only [hfree, Bool.false_eq_true, if_false]
    rw [get_bind_cards]
    by_cases hcom : isCommentaryKey (normalizeKeyword key) = true
    · rw [if_pos hcom]
      by_cases hless : (deleteCommentaryCards cards (normalizeKeyword key)).length < cards.length
      · rw [if_pos hless]
        exact Or.inr ⟨trivial, Or.inl ⟨hcom, rfl⟩⟩
      · rw [if_neg hless]
        exact Or.inl ⟨_, rfl⟩
    · rw [if_neg hcom]
      cases hdel : deleteCardForKey cards (normalizeKeyword key) with
      | none => exact Or.inl ⟨_, rfl⟩
      | some kept => exact Or.inr ⟨trivial, Or.inr ⟨Bool.eq_false_iff.2 hcom, kept, rfl, rfl⟩⟩

theorem performs_headerDelItem (key : Str) :
    Performs true [normalizeKeyword key] (headerDelItem key) := by
  refine performs_of_state fun cards => ?_
  rcases headerDelItem_cases key cards with ⟨e, hrun⟩ | ⟨hfree,
    ⟨hcom, hrun⟩ | ⟨-, kept, hdel, hrun⟩⟩
  · rw [hrun]
    exact CardEdits.refl _ _ cards
  · rw [hrun]
    exact CardEdits.single (by simp) (CardEdit.deleteCommentary rfl hcom)
  · rw [hrun]
    exact CardEdits.single (by simp) (CardEdit.delete kept rfl hfree hdel)

theorem performs_appendCommentary {keyword : Str} (text : Str)
    (hkey : isCommentaryKey keyword = true) :
    Performs deletes [keyword] (appendCommentary keyword text) :=
  (performs_ofExcept _).bind fun _ => performs_modifyCommentary text hkey (by simp)

/-- Every method is a sequence of changes under its keys, also when it raises. -/
theorem performs_run (floats : Floats F) (m : HeaderMethod F) :
    Performs m.deletes (m.keys floats) (m.run floats) := by
  cases m with
  | setItem key value comment =>
    exact (performs_headerSetItem key value comment).bind fun _ => performs_pure true
  | delItem key => exact (performs_headerDelItem key).bind fun _ => performs_pure true
  | addComment text =>
    exact (performs_appendCommentary text (by decide)).bind fun _ => performs_pure true
  | addHistory text =>
    exact (performs_appendCommentary text (by decide)).bind fun _ => performs_pure true
  | addBlank text =>
    exact (performs_appendCommentary text (by decide)).bind fun _ => performs_pure true
  | setComment key comment =>
    exact (performs_applySetComment key comment).bind fun _ => performs_pure true
  | update source copyCommentary =>
    intro base
    refine Triple.bind (R := fun actions cards =>
      (∀ a ∈ actions, a.Allowed ∧ a.key ∈ (HeaderMethod.update source copyCommentary).keys floats) ∧
        CardEdits false ((HeaderMethod.update source copyCommentary).keys floats) base cards) ?_
      fun actions => ?_
    · intro cards h
      cases hactions : collectUpdateActions floats source copyCommentary with
      | ok actions =>
        refine ⟨fun a ha => ⟨collectUpdateActions_allowed hactions a ha, ?_⟩, h⟩
        simp only [HeaderMethod.keys, hactions]
        exact List.mem_map_of_mem ha
      | error e => exact h
    · refine Triple.assume fun hall => ?_
      exact ((performs_actions hall).bind fun _ => performs_pure _) base

end

end Header

end RustFits
