import RustFits.Checksum.Cards
import RustFits.Header.Edit

/-!
# A header with new checksum cards

What `set_or_insert_string_card` does to an accepted header.  The keywords of the
checksum convention start with a letter that none of the layout keywords starts
with, so the data section is declared as before, and the new header is clean.

* `hasKeyword_head` is the fact about letters.
* `put_spec` is the step for one card: `Put` keeps the layout, the shape of the
  header and its cards, up to the new one.
* `parseStringKeyword_put` and `parseStringKeyword_other` read the cards back.
-/

namespace RustFits.Checksum

open Ascii ByteFile Machine OnesComplement Header

/-- The four keywords of the checksum convention. -/
def IsSumKey (key : Str) : Prop :=
  key ∈ [str "CHECKSUM", str "DATASUM", str "ZHECKSUM", str "ZDATASUM"]

instance (key : Str) : Decidable (IsSumKey key) := inferInstanceAs (Decidable (_ ∈ _))

theorem IsChecksumKey.isSumKey {key : Str} (h : IsChecksumKey key) : IsSumKey key := by
  rcases h with rfl | rfl <;> decide

/-- The bytes that are one of the letters C, D and Z. -/
def IsSumLetter (b : UInt8) : Prop := b ∈ [0x43, 0x63, 0x44, 0x64, 0x5A, 0x7A]

instance (b : UInt8) : Decidable (IsSumLetter b) := inferInstanceAs (Decidable (_ ∈ _))

theorem sumKey_facts : ∀ key ∈ [str "CHECKSUM", str "DATASUM", str "ZHECKSUM", str "ZDATASUM"],
    toAsciiUppercase key = key ∧ hasKeyword key endCard = false ∧ trim key = key ∧
      key.length ≤ 8 := by decide

section

variable {key other : Str} {c : Card}

/-- A card of such a keyword starts with that letter. -/
theorem hasKeyword_head (hkey : IsSumKey key) (h : hasKeyword key c = true) :
    ∃ b rest, c = b :: rest ∧ IsSumLetter b := by
  simp only [hasKeyword, Bool.and_eq_true, decide_eq_true_eq] at h
  obtain ⟨hlen, hfield⟩ := h
  have hupper := (sumKey_facts key hkey).1
  have hfull : c.take key.length = trim (c.take key.length) := by
    refine eq_of_trim_eq rfl ?_
    have hcount := congrArg List.length hfield
    rw [toAsciiUppercase_length, toAsciiUppercase_length] at hcount
    rw [hcount, List.length_take]
    omega
  rw [← hfull, hupper] at hfield
  have hletter : ∀ b : UInt8, (if 0x61 ≤ b && b ≤ 0x7A then b - 0x20 else b) ∈
      [(0x43 : UInt8), 0x44, 0x5A] → IsSumLetter b := by
    apply forall_byte
    decide +kernel
  have hhead : ∃ k rest, key = k :: rest ∧ k ∈ [(0x43 : UInt8), 0x44, 0x5A] := by
    simp only [IsSumKey, List.mem_cons, List.not_mem_nil, or_false] at hkey
    rcases hkey with rfl | rfl | rfl | rfl <;> exact ⟨_, _, rfl, by decide⟩
  obtain ⟨k, rest, hk, hmem⟩ := hhead
  cases c with
  | nil =>
    rw [hk] at hlen
    simp at hlen
  | cons b tail =>
    refine ⟨b, tail, rfl, hletter b ?_⟩
    rw [hk, List.length_cons, List.take_succ_cons, toAsciiUppercase, List.map_cons,
      List.cons.injEq] at hfield
    rw [hfield.1]
    exact hmem

theorem IsSumLetter.not_white {b : UInt8} (h : IsSumLetter b) : isWhitespace b = false := by
  have hall : [0x43, 0x63, 0x44, 0x64, 0x5A, 0x7A].all (fun b => !isWhitespace b) = true := by
    decide
  simpa using List.all_eq_true.1 hall b h

/-- The keyword field of such a card starts with the letter too. -/
theorem keywordField_head (hkey : IsSumKey key) (h : hasKeyword key c = true) :
    ∃ b rest, trim (c.take 8) = b :: rest ∧ IsSumLetter b := by
  obtain ⟨b, rest, rfl, hb⟩ := hasKeyword_head hkey h
  have htoken : IsToken [b] := ⟨by simp, by simpa using hb.not_white⟩
  exact ⟨b, _, trim_token_append htoken (rest.take 7), hb⟩

theorem not_layout_letter (hother : IsLayoutKey other) {b : UInt8} {rest : Str}
    (h : other = b :: rest) : ¬ IsSumLetter b := by
  intro hb
  cases hother with
  | axis n =>
    have hhead : b = 0x4E := (List.cons.inj h).1.symm
    subst hhead
    exact absurd hb (by decide)
  | bitpix | naxis | pcount | gcount =>
    have hhead := (List.cons.inj h).1
    subst hhead
    exact absurd hb (by decide)

theorem not_decides_of_hasKeyword (hkey : IsSumKey key) (h : hasKeyword key c = true)
    (hother : IsLayoutKey other) : decidesKey other c = false := by
  obtain ⟨b, rest, hfield, hb⟩ := keywordField_head hkey h
  refine Bool.eq_false_iff.2 fun hdec => ?_
  exact not_layout_letter hother ((keyword_of_decidesKey hdec).symm.trans hfield) hb

end

/-! ## One card -/

/-- A header after `n` checksum cards were put in. -/
structure Put (n : Nat) (cards newCards : List Card) : Prop where
  layout : SameLayout cards newCards
  clean : CleanHeader newCards
  count : cards.length ≤ newCards.length
  bound : newCards.length ≤ cards.length + n

theorem Put.trans {m n : Nat} {a b c : List Card} (h : Put m a b) (h' : Put n b c) :
    Put (m + n) a c :=
  ⟨h.layout.trans h'.layout, h'.clean, Nat.le_trans h.count h'.count, by
    have hm := h.bound
    have hn := h'.bound
    omega⟩

section

variable {key : Str} {cards front old back : List Card} {card : Card}

/-- The header ends in the part behind the card. -/
theorem back_closed (hkey : IsSumKey key) (hclean : CleanHeader cards)
    (hcards : cards = front ++ old ++ back) (hold : ∀ c ∈ old, hasKeyword key c = true)
    (hback : old = [] → back = cards.drop (cards.length - 1)) :
    ∃ body, back = body ++ [endCard] ∧ endCard ∉ front ++ old ++ body := by
  obtain ⟨all, hall, hnot⟩ := hclean.closed
  have hend : cards.getLast? = some endCard := by
    rw [hall, List.getLast?_append]
    rfl
  have hlast := closed_of_split (sumKey_facts key hkey).2.1 hcards hold hback hend
  obtain ⟨body, hbody⟩ := List.getLast?_eq_some_iff.1 hlast
  refine ⟨body, hbody, ?_⟩
  rw [hcards, hbody, ← List.append_assoc] at hall
  rw [(List.append_inj' hall rfl).1]
  exact hnot

/-- The first card of an accepted header is in the part before the card. -/
theorem first_in_front {isPrimary : Bool} (hkey : IsSumKey key)
    (hvalid : validateHeader cards isPrimary = .ok ()) (hcards : cards = front ++ old ++ back)
    (hold : ∀ c ∈ old, hasKeyword key c = true) (hback : old = [] → back = [endCard]) :
    ∃ c, front.find? isNonblank = some c := by
  obtain ⟨c, hfind, hfirst⟩ := firstCard_of_accepted hvalid
  cases hfront : front.find? isNonblank with
  | some c => exact ⟨c, rfl⟩
  | none =>
    rw [hcards, List.append_assoc, List.find?_append, hfront, Option.none_or] at hfind
    cases old with
    | nil =>
      rw [hback rfl, List.nil_append, List.find?_cons, endCard_nonblank] at hfind
      rw [← Option.some.inj hfind] at hfirst
      exact absurd hfirst (by decide)
    | cons o old =>
      obtain ⟨b, rest, hfield, hb⟩ := keywordField_head hkey (hold o (by simp))
      have hnonblank : isNonblank o = true := by
        obtain ⟨d, tail, rfl, hd⟩ := hasKeyword_head hkey (hold o (by simp))
        have htoken : IsToken [d] := ⟨by simp, by simpa using hd.not_white⟩
        have htrim : trim (d :: tail) = d :: trimEnd tail := trim_token_append htoken tail
        rw [isNonblank, htrim]
        rfl
      rw [List.cons_append, List.find?_cons, hnonblank] at hfind
      rw [← Option.some.inj hfind, hfield] at hfirst
      rcases hfirst with hfirst | hfirst
      · have hhead : b = 0x53 := (List.cons.inj hfirst).1
        subst hhead
        exact absurd hb (by decide)
      · have hhead : b = 0x58 := (List.cons.inj hfirst).1
        subst hhead
        exact absurd hb (by decide)

/-- Putting a card in. -/
theorem put_spec {isPrimary : Bool} (hkey : IsSumKey key) (hclean : CleanHeader cards)
    (hvalid : validateHeader cards isPrimary = .ok ()) (hcards : cards = front ++ old ++ back)
    (hold : ∀ c ∈ old, hasKeyword key c = true) (hone : old.length ≤ 1)
    (hback : old = [] → back = cards.drop (cards.length - 1)) (hcard : CleanCard card)
    (hkeyword : hasKeyword key card = true) : Put 1 cards (front ++ card :: back) := by
  obtain ⟨body, hbody, hnot⟩ := back_closed hkey hclean hcards hold hback
  have hlast : old = [] → back = [endCard] := by
    intro hnil
    have hlen := congrArg List.length (hback hnil)
    rw [List.length_drop, hbody, List.length_append, List.length_singleton] at hlen
    have hzero : body.length = 0 := by omega
    rw [hbody, List.length_eq_zero_iff.1 hzero, List.nil_append]
  obtain ⟨c, hfirst⟩ := first_in_front hkey hvalid hcards hold hlast
  refine ⟨⟨fun other hother => ?_, ?_⟩, ⟨fun x hx => ?_, front ++ card :: body, ?_, ?_⟩, ?_, ?_⟩
  · rw [hcards, List.append_assoc]
    refine parseKeyword_append_congr front ?_
    rw [parseKeyword_append_of_not_decides fun x hx =>
        not_decides_of_hasKeyword hkey (hold x hx) hother,
      parseKeyword_cons_of_not_decides (not_decides_of_hasKeyword hkey hkeyword hother)]
  · rw [hcards, List.append_assoc, List.find?_append, List.find?_append, hfirst]
    rfl
  · rcases List.mem_append.1 hx with hx | hx
    · exact hclean.clean x (by simp [hcards, hx])
    · rcases List.mem_cons.1 hx with rfl | hx
      · exact hcard
      · exact hclean.clean x (by simp [hcards, hx])
  · rw [hbody, List.append_assoc, List.cons_append]
  · intro hmem
    rcases List.mem_append.1 hmem with hmem | hmem
    · exact hnot (by simp [hmem])
    · rcases List.mem_cons.1 hmem with hmem | hmem
      · rw [← hmem, (sumKey_facts key hkey).2.1] at hkeyword
        exact absurd hkeyword (by simp)
      · exact hnot (by simp [hmem])
  · rw [hcards]
    simp only [List.length_append, List.length_cons]
    omega
  · rw [hcards]
    simp only [List.length_append, List.length_cons]
    omega

end

/-! ## Reading the cards back -/

section

variable {key other : Str} {cards front old back : List Card} {card c : Card}

theorem parseStringKeyword_skip (h : ∀ c ∈ front, isValueCard key c = false) (rest : List Card) :
    parseStringKeyword (front ++ rest) key = parseStringKeyword rest key := by
  induction front with
  | nil => rfl
  | cons c front ih =>
    rw [List.cons_append, parseStringKeyword, h c (by simp), if_neg (by simp)]
    exact ih fun x hx => h x (List.mem_cons_of_mem _ hx)

theorem parseStringKeyword_append_congr {rest rest' : List Card} (front : List Card)
    (h : parseStringKeyword rest' key = parseStringKeyword rest key) :
    parseStringKeyword (front ++ rest') key = parseStringKeyword (front ++ rest) key := by
  induction front with
  | nil => exact h
  | cons c front ih =>
    rw [List.cons_append, List.cons_append, parseStringKeyword, parseStringKeyword, ih]

/-- The closing quote of a string without quotes. -/
theorem closeQuote_of_plain {value : Str} (hquote : (0x27 : UInt8) ∉ value) {b : UInt8}
    (hb : b ≠ 0x27) (rest : Str) : closeQuote (value ++ 0x27 :: b :: rest) = some value := by
  induction value with
  | nil => simp [closeQuote, hb]
  | cons v value ih =>
    rw [List.mem_cons, not_or] at hquote
    obtain ⟨x, tail, htail⟩ : ∃ x tail, value ++ 0x27 :: b :: rest = x :: tail := by
      cases value with
      | nil => exact ⟨_, _, rfl⟩
      | cons x value => exact ⟨_, _, rfl⟩
    have hrest := ih hquote.2
    rw [htail] at hrest
    rw [List.cons_append, htail, closeQuote, if_neg (Ne.symm hquote.1), hrest]
    rfl

/-- A string card in the fixed format gives its value. -/
theorem parseStringKeyword_card (hkey : IsToken key) (hlen : key.length ≤ 8) {value : Str}
    (hquote : (0x27 : UInt8) ∉ value) {b : UInt8} (hb : b ≠ 0x27) (tail : Str) (rest : List Card) :
    parseStringKeyword ((padRight 8 key ++ str "= '" ++ value ++ 0x27 :: b :: tail) :: rest) key =
      some (trimEnd value) := by
  have hfield : (padRight 8 key).length = 8 := by
    rw [padRight_length]
    omega
  have hsplit : padRight 8 key ++ str "= '" ++ value ++ 0x27 :: b :: tail =
      padRight 8 key ++ (0x3D :: blank :: 0x27 :: (value ++ 0x27 :: b :: tail)) := by
    rw [List.append_assoc, List.append_assoc]
    rfl
  have hcard : isValueCard key (padRight 8 key ++ (0x3D :: blank :: 0x27 ::
      (value ++ 0x27 :: b :: tail))) = true := by
    rw [isValueCard, List.take_left' hfield, List.drop_left' hfield, padRight, trim_append_blanks,
      trim_of_isToken hkey]
    simp [str]
    omega
  have hdrop : (padRight 8 key ++ (0x3D :: blank :: 0x27 :: (value ++ 0x27 :: b :: tail))).drop 9 =
      blank :: 0x27 :: (value ++ 0x27 :: b :: tail) := by
    rw [show (9 : Nat) = 8 + 1 from rfl, ← List.drop_drop, List.drop_left' hfield]
    rfl
  have hstart : trimStart (blank :: 0x27 :: (value ++ 0x27 :: b :: tail)) =
      0x27 :: (value ++ 0x27 :: b :: tail) := rfl
  rw [hsplit, parseStringKeyword, hcard, if_pos rfl, hdrop, hstart]
  show (closeQuote (value ++ 0x27 :: b :: tail)).map trimEnd = _
  rw [closeQuote_of_plain hquote hb]
  rfl

/-- No card holds the keyword behind leading blanks. -/
def Unindented (key : Str) (cards : List Card) : Prop :=
  ∀ c ∈ cards, trim (c.take 8) = key → c.take key.length = key

theorem unindented_of_length (h : key.length = 8) (cards : List Card) : Unindented key cards := by
  intro c _ htrim
  rw [h]
  exact eq_of_trim_eq htrim (by rw [List.length_take]; omega)

/-- In front of the first card of the keyword there is no value of it. -/
theorem not_isValueCard_of_not_hasKeyword (hkey : IsSumKey key) (hplain : Unindented key cards)
    (hc : c ∈ cards) (h : hasKeyword key c = false) : isValueCard key c = false := by
  refine Bool.eq_false_iff.2 fun hvalue => Bool.eq_false_iff.1 h ?_
  simp only [isValueCard, Bool.and_eq_true, decide_eq_true_eq] at hvalue
  have htake := hplain c hc hvalue.1.2
  have hlen : key.length ≤ c.length := by
    have hcount := congrArg List.length htake
    rw [List.length_take] at hcount
    omega
  rw [hasKeyword, htake, (sumKey_facts key hkey).2.2.1, decide_eq_true hlen, decide_eq_true rfl]
  rfl

/-- Where a card is put in, the lookups of other keywords do not change. -/
theorem parseStringKeyword_other (hlen : key.length = 8)
    (hne : toAsciiUppercase other ≠ toAsciiUppercase key)
    (hold : ∀ c ∈ old, hasKeyword key c = true)
    (hcard : hasKeyword key card = true) (front back : List Card) :
    parseStringKeyword (front ++ card :: back) other =
      parseStringKeyword (front ++ old ++ back) other := by
  have hnot : ∀ c, hasKeyword key c = true → isValueCard other c = false := by
    intro c hc
    refine Bool.eq_false_iff.2 fun hvalue => hne ?_
    simp only [hasKeyword, isValueCard, Bool.and_eq_true, decide_eq_true_eq] at hc hvalue
    rw [← hvalue.1.2, ← hc.2, hlen]
  rw [List.append_assoc]
  refine parseStringKeyword_append_congr front ?_
  rw [parseStringKeyword_skip (fun c hc => hnot c (hold c hc)), parseStringKeyword,
    hnot card hcard, if_neg (by simp)]

end

end RustFits.Checksum
