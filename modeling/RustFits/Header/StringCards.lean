import RustFits.Header.Edit
import RustFits.Header.Quoted

/-!
# The cards of a string

A string value takes one card when it is short, and goes on in CONTINUE cards when it
is long.

* `stringBodies` are the cards of a value before they are padded to 80 bytes.
* `Shape` says what stands on them, and `Shape.reads` what a reader gets from cards
  that are not cut.
* `HasRoom`, `BlanksFit` and `NothingLeft` are the places where the writer goes wrong.
  `shape_stringValueBodies` and `shape_hierarchStringBodies` are the two writers: which
  shape their cards have, and that no card is too long exactly when there is room.
-/

namespace RustFits

open Ascii ByteFile Machine

namespace Header

def ampersand : UInt8 := 0x26

/-! ## The cards before they are padded -/

/-- The CONTINUE cards of `continue_cards`, not padded. -/
def continueBodies (comment : Str) : Nat → Str → List Str
  | 0, _ => []
  | fuel + 1, rest =>
    if rest.isEmpty then []
    else if rest.length ≤ lastPayload comment then
      [withComment (str "CONTINUE  '" ++ rest ++ str "'") comment]
    else
      let n := chunkSize rest (min (rest.length - lastPayload comment) 67)
      (str "CONTINUE  '" ++ rest.take n ++ str "&'") :: continueBodies comment fuel (rest.drop n)

/-- The card of `card_string`, not padded. -/
def stringBody (key value comment : Str) : Str :=
  let head := padRight 8 key ++ str "= '" ++ padRight 8 (doubleQuotes value) ++ str "'"
  if comment.isEmpty then head
  else if head.length ≤ 31 then padRight 31 head ++ str "/ " ++ comment
  else head ++ str " / " ++ comment

/-- The cards of `build_string_value_cards`, not padded. -/
def stringValueBodies (key value comment : Str) : List Str :=
  let escaped := doubleQuotes value
  if escaped.length ≤ lastPayload comment then [stringBody key value comment]
  else
    let n := chunkSize escaped (min (escaped.length - lastPayload comment) 67)
    (padRight 8 key ++ str "= '" ++ escaped.take n ++ str "&'") ::
      continueBodies comment escaped.length (escaped.drop n)

/-- The single card of a HIERARCH string, not padded. -/
def hierarchBody (key value comment : Str) : Str :=
  withComment (str "HIERARCH " ++ key ++ str " = '" ++ padRight 8 (doubleQuotes value) ++ str "'")
    comment

/-- The cards of `build_hierarch_string_cards`, not padded. -/
def hierarchStringBodies (key value comment : Str) : List Str :=
  let escaped := doubleQuotes value
  if (hierarchBody key value comment).length ≤ cardSize then [hierarchBody key value comment]
  else
    let n := chunkSize escaped (min (65 - key.length) escaped.length)
    let rest := escaped.drop n
    (str "HIERARCH " ++ key ++ str " = '" ++ escaped.take n ++ str "&'") ::
      if rest.isEmpty then [withComment (str "CONTINUE  ''") comment]
      else continueBodies comment escaped.length rest

/-- The cards of a string value under a storage keyword, not padded. -/
def stringBodies (key value comment : Str) : List Str :=
  if isHierarchKey key then hierarchStringBodies key value comment
  else stringValueBodies key value comment

theorem continueCards_eq (comment : Str) : ∀ (fuel : Nat) (rest : Str),
    continueCards comment fuel rest = (continueBodies comment fuel rest).map padToCard := by
  intro fuel
  induction fuel with
  | zero =>
    intro rest
    rfl
  | succ fuel ih =>
    intro rest
    rw [continueCards, continueBodies]
    split_ifs
    · rfl
    · rfl
    · dsimp only
      rw [List.map_cons, ih]

section

variable {F : Type} {floats : Floats F} {key value comment : Str} {cards : List Card}

theorem buildStringValueCards_eq (h : buildStringValueCards key value comment = .ok cards) :
    cards = (stringValueBodies key value comment).map padToCard ∧ comment.length ≤ 64 := by
  unfold buildStringValueCards at h
  unfold stringValueBodies
  dsimp only at h ⊢
  by_cases hlong : (!comment.isEmpty && decide (65 ≤ comment.length)) = true
  · rw [if_pos hlong] at h
    cases h
  · rw [if_neg hlong] at h
    have hcomment : comment.length ≤ 64 := by
      by_contra hlt
      apply hlong
      have hne : comment.isEmpty = false := by
        cases comment with
        | nil => simp at hlt
        | cons => rfl
      rw [hne, decide_eq_true (by omega)]
      rfl
    refine ⟨?_, hcomment⟩
    split_ifs at h ⊢ with hone
    · cases h
      rfl
    · cases h
      rw [List.map_cons, continueCards_eq]

theorem buildHierarchStringCards_eq (h : buildHierarchStringCards key value comment = .ok cards) :
    cards = (hierarchStringBodies key value comment).map padToCard ∧
      ((hierarchBody key value comment).length ≤ cardSize ∨
        comment.length ≤ 64 ∧ key.length ≤ 64 ∧ value ≠ []) := by
  unfold buildHierarchStringCards at h
  unfold hierarchStringBodies
  dsimp only at h ⊢
  by_cases hone : (hierarchBody key value comment).length ≤ cardSize
  · rw [if_pos hone]
    rw [hierarchBody] at hone
    rw [if_pos hone] at h
    cases h
    exact ⟨rfl, Or.inl hone⟩
  · rw [if_neg hone]
    rw [hierarchBody] at hone
    rw [if_neg hone] at h
    split_ifs at h with hempty hkey hcomment hrest
    all_goals
      have hne : value ≠ [] := by
        rintro rfl
        exact hempty rfl
      have hshort : comment.length ≤ 64 := by
        by_contra hlt
        apply hcomment
        have hne : comment.isEmpty = false := by
          cases comment with
          | nil => simp at hlt
          | cons => rfl
        rw [hne, decide_eq_true (by omega)]
        rfl
      cases h
      refine ⟨?_, Or.inr ⟨hshort, by omega, hne⟩⟩
      rw [List.map_cons]
    · rw [if_pos hrest]
      rfl
    · rw [if_neg hrest, continueCards_eq]

end

/-! ## The text on the cards -/

/-- What stands behind the value of a card. -/
def commentTail (comment : Str) : Str := if comment.isEmpty then [] else str " / " ++ comment

theorem withComment_tail (body comment : Str) :
    withComment body comment = body ++ commentTail comment := by
  unfold withComment commentTail
  split_ifs
  · rw [List.append_nil]
  · rw [List.append_assoc]

theorem trim_blank_cons (s : Str) : trim (blank :: s) = trim s := by
  rw [trim, trimStart, List.dropWhile_cons_of_pos (by decide)]
  rfl

theorem commentTail_reads (comment : Str) : CommentTail (commentTail comment) (trim comment) := by
  cases comment with
  | nil => exact .none (by simp [commentTail])
  | cons b rest =>
    have h := CommentTail.slash (w := [blank]) (by simp; decide) (blank :: b :: rest)
    rw [trim_blank_cons] at h
    exact h

/-- A CONTINUE card, not padded, with its text. -/
def continueBody (text comment : Str) : Str :=
  str "CONTINUE  " ++ (quoted text ++ commentTail comment)

/-- What stands in front of the equals sign. -/
def valueFront (key : Str) : Str :=
  if isHierarchKey key then str "HIERARCH " ++ key ++ [blank] else padRight 8 key

/-- The first card of a value, not padded, with its text. -/
def firstBody (key text tail : Str) : Str :=
  valueFront key ++ 0x3D :: blank :: (quoted text ++ tail)

/-- The piece of a text that another one follows. -/
def pieceBody (piece : Str) : Str := continueBody (piece ++ [ampersand]) []

/-- The cards of a value, and what a reader has read at their end: the text and the
comment. -/
inductive Shape (key value comment : Str) : List Str → Str × Str → Prop where
  | single {n : Nat} {tail : Str} (htail : CommentTail tail (trim comment)) :
      Shape key value comment [firstBody key (value ++ List.replicate n blank) tail]
        (trimEnd value, trim comment)
  | chain {a last : Str} {middle : List Str} (hvalue : value = a ++ middle.flatten ++ last) :
      Shape key value comment
        (firstBody key (a ++ [ampersand]) [] ::
          (middle.map pieceBody ++ [continueBody last comment]))
        (a ++ middle.flatten ++ trimEnd last, trim comment)
  | lost {a : Str} {middle : List Str} (hvalue : value = a ++ middle.flatten) :
      Shape key value comment (firstBody key (a ++ [ampersand]) [] :: middle.map pieceBody)
        (value ++ [ampersand], [])

theorem CommentTail.trimEnd {tail comment : Str} (h : CommentTail tail comment) :
    CommentTail (Ascii.trimEnd tail) comment := by
  cases h with
  | none hw => exact .none fun b hb => hw b (mem_of_mem_trimEnd hb)
  | @slash w hw c =>
    have htrim : trim (Ascii.trimEnd c) = trim c := by
      conv_rhs => rw [← List.rdropWhile_append_rtakeWhile (p := isWhitespace) (l := c),
        trim_append_white _ fun b hb => List.mem_rtakeWhile_imp hb]
      rfl
    rw [trimEnd_append (by decide), ← htrim]
    exact .slash hw _

/-- A card that is not cut keeps its text. -/
theorem card_of_body {front t tail comment : Str}
    (hlen : (front ++ (quoted t ++ tail)).length ≤ 80) (htail : CommentTail tail comment) :
    ∃ tail', CommentTail tail' comment ∧
      trimEnd (padToCard (front ++ (quoted t ++ tail))) = front ++ (quoted t ++ tail') := by
  refine ⟨trimEnd tail, htail.trimEnd, ?_⟩
  rw [padToCard_of_clean hlen, trimEnd_append_blanks]
  have hsplit : ∀ x : Str, front ++ (quoted t ++ x) = (front ++ quote :: doubleQuotes t) ++
      quote :: x := by
    intro x
    simp [quoted]
  rw [hsplit, trimEnd_append (by decide), ← hsplit]

section

variable {F : Type} {floats : Floats F} {s t tail comment : Str} {rest : List Card}

theorem readContinued_step (hlen : (continueBody t comment).length ≤ 80) :
    readContinued (s ++ [ampersand]) [] (trimEnd (padToCard (continueBody t comment)) :: rest) =
      readContinued (s ++ trimEnd t) (trim comment) rest := by
  obtain ⟨tail, htail, hcard⟩ := card_of_body hlen (commentTail_reads comment)
  have hraw :
      splitValueComment (afterKeyword (trimEnd (trimEnd (padToCard (continueBody t comment))))) =
      (quoted t, trim comment) := by
    rw [continueBody, trimEnd_trimEnd, hcard]
    exact splitValueComment_quoted (w := str "  ") (List.all_eq_true.1 (by decide)) htail t
  have hcontinue : continueKey.isPrefixOf (trimEnd (trimEnd (padToCard (continueBody t comment)))) =
      true := by
    rw [continueBody, trimEnd_trimEnd, hcard]
    exact List.isPrefixOf_iff_prefix.2 ⟨str "  " ++ (quoted t ++ tail), rfl⟩
  have hamp : ((s ++ [ampersand]).getLast? == some 0x26) = true := by
    rw [List.getLast?_concat]
    rfl
  rw [readContinued, hraw, hcontinue, isQuoted_quoted, hamp, if_pos (by decide),
    List.dropLast_concat, extractFitsString_quoted]
  congr 1
  cases htrim : trim comment <;> simp

theorem readContinued_pieces : ∀ {middle : List Str} {s : Str},
    (∀ m ∈ middle, (pieceBody m).length ≤ 80) →
    readContinued (s ++ [ampersand]) []
        (middle.map (fun m => trimEnd (padToCard (pieceBody m))) ++ rest) =
      readContinued (s ++ middle.flatten ++ [ampersand]) [] rest := by
  intro middle
  induction middle with
  | nil =>
    intro s _
    simp
  | cons m middle ih =>
    intro s h
    have hm := h m (by simp)
    rw [List.map_cons, List.cons_append, pieceBody, readContinued_step hm]
    have htrim : trimEnd (m ++ [ampersand]) = m ++ [ampersand] := trimEnd_append (by decide)
    rw [htrim, ← List.append_assoc, List.flatten_cons, ← List.append_assoc]
    exact ih fun x hx => h x (List.mem_cons_of_mem _ hx)

theorem parse_quoted (htail : CommentTail tail comment) :
    parseValueWithContinue floats rest (blank :: (quoted t ++ tail)) =
      (.string (readContinued (trimEnd t) comment rest).1,
        (readContinued (trimEnd t) comment rest).2) := by
  have hraw : splitValueComment (blank :: (quoted t ++ tail)) = (quoted t, comment) :=
    splitValueComment_quoted (w := [blank]) (List.all_eq_true.1 (by decide)) htail t
  unfold parseValueWithContinue
  dsimp only
  rw [hraw, if_neg (by simp [quoted]), if_pos (isQuoted_quoted t), extractFitsString_quoted]

end

section

variable {F : Type} {floats : Floats F} {key value comment : Str} {bodies : List Str}
  {pending : Str × Str}

/-- Cards that are not cut give what they hold to the reader. -/
theorem Shape.reads (h : Shape key value comment bodies pending)
    (hlen : ∀ body ∈ bodies, body.length ≤ 80) :
    ∃ text rest, bodies.map (fun body => trimEnd (padToCard body)) =
        (valueFront key ++ 0x3D :: text) :: rest ∧
      (∀ c ∈ rest, continueKey.isPrefixOf c = true) ∧
      ∀ back, parseValueWithContinue floats (rest ++ back) text =
        (.string (readContinued pending.1 pending.2 back).1,
          (readContinued pending.1 pending.2 back).2) := by
  have hfirst : ∀ {t tail c : Str}, CommentTail tail c → (firstBody key t tail).length ≤ 80 →
      ∃ tail', CommentTail tail' c ∧ trimEnd (padToCard (firstBody key t tail)) =
        valueFront key ++ 0x3D :: blank :: (quoted t ++ tail') := by
    intro t tail c htail ht
    have hsplit : ∀ x : Str, valueFront key ++ 0x3D :: blank :: x =
        (valueFront key ++ [0x3D, blank]) ++ x := by simp
    rw [firstBody, hsplit] at ht ⊢
    obtain ⟨tail', htail', hcard⟩ := card_of_body ht htail
    exact ⟨tail', htail', hcard.trans (hsplit _).symm⟩
  have hrest : ∀ {t c : Str}, (continueBody t c).length ≤ 80 →
      continueKey.isPrefixOf (trimEnd (padToCard (continueBody t c))) = true := by
    intro t c ht
    obtain ⟨tail, -, hcard⟩ := card_of_body ht (commentTail_reads c)
    rw [continueBody, hcard]
    exact List.isPrefixOf_iff_prefix.2 ⟨str "  " ++ (quoted t ++ tail), rfl⟩
  have hamp : ∀ a : Str, trimEnd (a ++ [ampersand]) = a ++ [ampersand] :=
    fun a => trimEnd_append (by decide)
  cases h with
  | @single n tail htail =>
    obtain ⟨tail', htail', hcard⟩ := hfirst htail (hlen _ List.mem_cons_self)
    refine ⟨_, [], congrArg (fun c => [c]) hcard, by simp, fun back => ?_⟩
    rw [List.nil_append, parse_quoted htail', trimEnd_append_blanks]
  | @chain a last middle hvalue =>
    obtain ⟨tail', htail', hcard⟩ := hfirst (.none (w := []) (by simp)) (hlen _ List.mem_cons_self)
    have hmiddle : ∀ m ∈ middle, (pieceBody m).length ≤ 80 :=
      fun m hm => hlen _ (by simp; exact Or.inr (Or.inl ⟨m, hm, rfl⟩))
    have hlast : (continueBody last comment).length ≤ 80 := hlen _ (by simp)
    refine ⟨_, _, congrArg (fun c => c :: _) hcard, ?_, fun back => ?_⟩
    · intro c hc
      simp only [List.map_append, List.map_map, List.mem_append, List.mem_map, List.map_singleton,
        List.mem_singleton] at hc
      rcases hc with ⟨m, hm, rfl⟩ | rfl
      · exact hrest (hmiddle m hm)
      · exact hrest hlast
    · rw [parse_quoted htail', hamp, List.map_append, List.map_map, List.map_singleton,
        List.append_assoc]
      have hpieces := @readContinued_pieces
        ([trimEnd (padToCard (continueBody last comment))] ++ back) _ a hmiddle
      rw [List.singleton_append, readContinued_step hlast] at hpieces
      exact congrArg (fun r : Str × Str => (HeaderValue.string r.1, r.2)) hpieces
  | @lost a middle hvalue =>
    obtain ⟨tail', htail', hcard⟩ := hfirst (.none (w := []) (by simp)) (hlen _ List.mem_cons_self)
    have hmiddle : ∀ m ∈ middle, (pieceBody m).length ≤ 80 :=
      fun m hm => hlen _ (List.mem_cons_of_mem _ (List.mem_map_of_mem hm))
    refine ⟨_, _, congrArg (fun c => c :: _) hcard, ?_, fun back => ?_⟩
    · intro c hc
      simp only [List.map_map, List.mem_map] at hc
      obtain ⟨m, hm, rfl⟩ := hc
      exact hrest (hmiddle m hm)
    · rw [parse_quoted htail', hamp, List.map_map]
      have hpieces := @readContinued_pieces back _ a hmiddle
      rw [← hvalue] at hpieces
      exact congrArg (fun r : Str × Str => (HeaderValue.string r.1, r.2)) hpieces

end

/-! ## When a value reads back -/

/-- Every card has room for what is written on it.  The writer has two places where
it has none: a comment that is moved to its column behind a short value, and a
doubled quote behind a long key of the greatest length. -/
def HasRoom (key value comment : Str) : Prop :=
  if isHierarchKey key then key.length = 64 → value.head? ≠ some quote
  else (doubleQuotes value).length + comment.length ≤ 65 → (doubleQuotes value).length < 20 →
    comment.length < 48

/-- The blanks at the end of the value are all on the last card. -/
def BlanksFit (key value comment : Str) : Prop :=
  if isHierarchKey key then (hierarchBody key value comment).length ≤ cardSize ∨
    whiteTail value ≤ lastPayload comment ∧
      whiteTail value ≤ (doubleQuotes value).length - (65 - key.length)
  else whiteTail value ≤ lastPayload comment

/-- Nothing is left for the card of the comment: it has room for one byte next to the
comment, and the value ends with a quote. -/
def NothingLeft (key value comment : Str) : Prop :=
  comment.length = 64 ∧ value.getLast? = some quote ∧
    (isHierarchKey key = true → 65 - key.length < (doubleQuotes value).length)

instance (key value comment : Str) : Decidable (HasRoom key value comment) :=
  inferInstanceAs (Decidable (ite (isHierarchKey key = true) (_ → _) (_ → _ → _)))

instance (key value comment : Str) : Decidable (BlanksFit key value comment) :=
  inferInstanceAs (Decidable (ite (isHierarchKey key = true) (_ ∨ _) (_ ≤ _)))

instance (key value comment : Str) : Decidable (NothingLeft key value comment) :=
  inferInstanceAs (Decidable (_ ∧ _ ∧ _))

/-- What a reader has read at the end of the cards. -/
structure Pending (key value comment : Str) (pending : Str × Str) : Prop where
  lost : NothingLeft key value comment → pending = (value ++ [ampersand], [])
  read : ¬ NothingLeft key value comment → ∃ front last, value = front ++ last ∧
    pending = (front ++ trimEnd last, trim comment) ∧
      (whiteTail value ≤ last.length ↔ BlanksFit key value comment)

section

variable {key value comment : Str}

theorem lastPayload_pos (h : comment.length ≤ 64) : 0 < lastPayload comment := by
  unfold lastPayload
  split_ifs <;> omega

theorem lastPayload_eq_one (h : comment.length ≤ 64) :
    lastPayload comment = 1 ↔ comment.length = 64 := by
  unfold lastPayload
  split_ifs with hempty
  · rw [List.isEmpty_iff.1 hempty]
    decide
  · omega

theorem quoted_length (t : Str) : (quoted t).length = (doubleQuotes t).length + 2 := by
  simp [quoted]

theorem commentTail_length (h : comment.length ≤ 64) :
    lastPayload comment + (commentTail comment).length = 68 := by
  unfold lastPayload commentTail
  split_ifs
  · rfl
  · rw [List.length_append, show (str " / ").length = 3 from rfl]
    omega

theorem firstBody_length (key t tail : Str) :
    (firstBody key t tail).length = (valueFront key).length + (doubleQuotes t).length + 4 +
      tail.length := by
  simp only [firstBody, List.length_append, List.length_cons, quoted_length]
  omega

theorem doubleQuotes_ampersand (a : Str) :
    doubleQuotes (a ++ [ampersand]) = doubleQuotes a ++ [ampersand] :=
  doubleQuotes_append a _

/-- The cards behind the first one are short. -/
theorem pieces_short {P : Nat} {t last : Str} {middle : List Str} (h : Cuts P t middle last)
    (hP : P = lastPayload comment) (hcomment : comment.length ≤ 64) :
    ∀ body ∈ middle.map pieceBody ++ [continueBody last comment], body.length ≤ 80 := by
  obtain ⟨hmiddle, hlast⟩ := h.short
  have htail := commentTail_length hcomment
  intro body hbody
  rcases List.mem_append.1 hbody with hbody | hbody
  · obtain ⟨m, hm, rfl⟩ := List.mem_map.1 hbody
    have := hmiddle m hm
    rw [pieceBody, continueBody, List.length_append, List.length_append, quoted_length,
      doubleQuotes_ampersand, List.length_append, show (str "CONTINUE  ").length = 10 from rfl]
    simp [commentTail]
    omega
  · rw [List.mem_singleton.1 hbody, continueBody, List.length_append, List.length_append,
      quoted_length, show (str "CONTINUE  ").length = 10 from rfl]
    omega

/-- The CONTINUE cards of a text are its pieces. -/
theorem continueBodies_cuts (hcomment : comment.length ≤ 64) : ∀ (fuel : Nat) (t : Str),
    (doubleQuotes t).length ≤ fuel → ∃ middle last, Cuts (lastPayload comment) t middle last ∧
      continueBodies comment fuel (doubleQuotes t) =
        middle.map pieceBody ++ if last = [] then [] else [continueBody last comment] := by
  intro fuel
  induction fuel with
  | zero =>
    intro t ht
    have hnil : t = [] := by
      have := length_le_doubleQuotes t
      exact List.length_eq_zero_iff.1 (by omega)
    subst hnil
    exact ⟨[], [], .last (Nat.zero_le _), rfl⟩
  | succ fuel ih =>
    intro t ht
    rw [continueBodies]
    by_cases hempty : (doubleQuotes t).isEmpty = true
    · have hnil : t = [] := by
        have := length_le_doubleQuotes t
        rw [List.isEmpty_iff.1 hempty] at this
        exact List.length_eq_zero_iff.1 (Nat.le_zero.1 this)
      subst hnil
      exact ⟨[], [], .last (Nat.zero_le _), rfl⟩
    · have hne : t ≠ [] := by
        rintro rfl
        exact hempty rfl
      rw [if_neg hempty]
      by_cases hshort : (doubleQuotes t).length ≤ lastPayload comment
      · rw [if_pos hshort]
        refine ⟨[], t, .last hshort, ?_⟩
        rw [if_neg hne, withComment_tail, continueBody, quoted]
        simp [str, quote]
      · rw [if_neg hshort]
        obtain ⟨a, b, hsplit, hne', hlen, hcuts⟩ :=
          cut_step (lastPayload_pos hcomment) (Nat.lt_of_not_le hshort)
        have hpos := List.length_pos_of_ne_nil hne'
        have hle := length_le_doubleQuotes a
        have hdouble : doubleQuotes t = doubleQuotes a ++ doubleQuotes b := by
          rw [hsplit, doubleQuotes_append]
        have htotal :
            (doubleQuotes t).length = (doubleQuotes a).length + (doubleQuotes b).length := by
          rw [hdouble, List.length_append]
        obtain ⟨middle, last, hrest, hbodies⟩ := ih b (by omega)
        refine ⟨a :: middle, last, hcuts _ _ hrest, ?_⟩
        dsimp only
        rw [← hlen, hdouble, List.take_left, List.drop_left, hbodies, List.map_cons,
          List.cons_append]
        congr 1
        rw [pieceBody, continueBody, quoted, doubleQuotes_ampersand]
        simp [str, quote, commentTail, ampersand]

theorem firstBody_append (key t tail : Str) :
    firstBody key t tail = firstBody key t [] ++ tail := by
  simp [firstBody]

theorem padRight_doubleQuotes (n : Nat) (value : Str) : padRight n (doubleQuotes value) =
    doubleQuotes (value ++ List.replicate (n - (doubleQuotes value).length) blank) := by
  rw [doubleQuotes_append, doubleQuotes_blanks, padRight]

/-- The card of a short value. -/
theorem stringBody_eq (hkey : isHierarchKey key = false) (value comment : Str) :
    ∃ tail, CommentTail tail (trim comment) ∧
      stringBody key value comment =
        firstBody key (value ++ List.replicate (8 - (doubleQuotes value).length) blank) tail ∧
      (comment = [] → tail.length = 0) ∧
      (comment ≠ [] → 12 + max 8 (doubleQuotes value).length ≤ 31 →
        12 + max 8 (doubleQuotes value).length + tail.length = 33 + comment.length) ∧
      (comment ≠ [] → 31 < 12 + max 8 (doubleQuotes value).length →
        tail.length = 3 + comment.length) := by
  have hlen : key.length ≤ 8 := by
    rw [isHierarchKey, Bool.or_eq_false_iff] at hkey
    simpa using hkey.1
  have hfront : valueFront key = padRight 8 key := by
    rw [valueFront, hkey]
    rfl
  have hhead : padRight 8 key ++ str "= '" ++ padRight 8 (doubleQuotes value) ++ str "'" =
      firstBody key (value ++ List.replicate (8 - (doubleQuotes value).length) blank) [] := by
    rw [padRight_doubleQuotes, firstBody, hfront, quoted]
    simp [str, quote, blank]
  have hheadLen : (firstBody key (value ++ List.replicate (8 - (doubleQuotes value).length) blank)
      []).length = 12 + max 8 (doubleQuotes value).length := by
    rw [firstBody_length, hfront, padRight_length, ← padRight_doubleQuotes, padRight_length]
    simp
    omega
  have hslash :
      ∀ n, CommentTail (List.replicate n blank ++ 0x2F :: blank :: comment) (trim comment) := by
    intro n
    have h := CommentTail.slash (w := List.replicate n blank) (fun b => isWhitespace_of_mem_blanks)
      (blank :: comment)
    rwa [trim_blank_cons] at h
  unfold stringBody
  dsimp only
  rw [hhead]
  split_ifs with hempty hcolumn
  · have hnil := List.isEmpty_iff.1 hempty
    rw [hnil]
    exact ⟨[], .none (by simp), rfl, fun _ => rfl, fun h => absurd rfl h, fun h => absurd rfl h⟩
  · rw [hheadLen] at hcolumn
    refine ⟨_, hslash (31 - (12 + max 8 (doubleQuotes value).length)), ?_,
      fun h => absurd (List.isEmpty_iff.2 h) hempty, fun _ _ => ?_, fun _ h => by omega⟩
    · rw [firstBody_append key _ (List.replicate _ blank ++ _), padRight, hheadLen]
      simp [str, blank]
    · rw [List.length_append, List.length_replicate, List.length_cons, List.length_cons]
      omega
  · rw [hheadLen] at hcolumn
    refine ⟨_, hslash 1, ?_, fun h => absurd (List.isEmpty_iff.2 h) hempty, fun _ h => by omega,
      fun _ _ => ?_⟩
    · rw [firstBody_append key _ (List.replicate _ blank ++ _)]
      simp [str, blank]
    · rw [List.length_append, List.length_replicate, List.length_cons, List.length_cons]
      omega

/-- The cards of a value under a short keyword. -/
theorem shape_stringValueBodies (hkey : isHierarchKey key = false)
    (hcomment : comment.length ≤ 64) :
    ∃ pending, Shape key value comment (stringValueBodies key value comment) pending ∧
      Pending key value comment pending ∧
      ((∀ body ∈ stringValueBodies key value comment, body.length ≤ 80) ↔
        HasRoom key value comment) := by
  have hnot : ¬ isHierarchKey key = true := by
    rw [hkey]
    decide
  have hlen : key.length ≤ 8 := by
    rw [isHierarchKey, Bool.or_eq_false_iff] at hkey
    simpa using hkey.1
  have hfront : valueFront key = padRight 8 key := if_neg hnot
  have hwidth : (valueFront key).length = 8 := by
    rw [hfront, padRight_length]
    omega
  have hvalue := length_le_doubleQuotes value
  have hblanks : BlanksFit key value comment ↔ whiteTail value ≤ lastPayload comment := by
    rw [BlanksFit, if_neg hnot]
  have hroom : HasRoom key value comment ↔ ((doubleQuotes value).length + comment.length ≤ 65 →
      (doubleQuotes value).length < 20 → comment.length < 48) := by
    rw [HasRoom, if_neg hnot]
  have hlost : NothingLeft key value comment ↔
      lastPayload comment = 1 ∧ value.getLast? = some quote := by
    rw [NothingLeft, lastPayload_eq_one hcomment]
    simp [hkey]
  have hwhite := whiteTail_le value
  rw [stringValueBodies]
  by_cases hone : (doubleQuotes value).length ≤ lastPayload comment
  · rw [if_pos hone]
    obtain ⟨tail, htail, hbody, hnone, hcolumn, hbehind⟩ := stringBody_eq hkey value comment
    refine ⟨(trimEnd value, trim comment), ?_, ⟨?_, ?_⟩, ?_⟩
    · rw [hbody]
      exact .single htail
    · intro hn
      obtain ⟨hP, hquote⟩ := hlost.1 hn
      obtain ⟨front, rfl⟩ := List.getLast?_eq_some_iff.1 hquote
      rw [hP, doubleQuotes_append, List.length_append] at hone
      have htwo : (doubleQuotes [quote]).length = 2 := rfl
      omega
    · intro _
      refine ⟨[], value, rfl, rfl, iff_of_true hwhite (hblanks.2 ?_)⟩
      exact hwhite.trans (hvalue.trans hone)
    · rw [List.forall_mem_singleton, hroom, hbody, firstBody_length, hwidth,
        ← padRight_doubleQuotes, padRight_length]
      unfold lastPayload at hone
      cases comment with
      | nil =>
        have := hnone rfl
        simp only [List.isEmpty_nil, if_true] at hone
        exact iff_of_true (by omega) (by simp)
      | cons c comment =>
        have hcol := hcolumn (List.cons_ne_nil c comment)
        have hbeh := hbehind (List.cons_ne_nil c comment)
        simp only [List.isEmpty_cons, Bool.false_eq_true, if_false] at hone
        rcases Nat.lt_or_ge 31 (12 + max 8 (doubleQuotes value).length) with h | h
        · have := hbeh h
          exact iff_of_true (by omega) (by omega)
        · have := hcol h
          constructor <;> omega
  · rw [if_neg hone]
    obtain ⟨a, b, hsplit, -, hlenA, hcuts⟩ :=
      cut_step (lastPayload_pos hcomment) (Nat.lt_of_not_le hone)
    have hdouble : doubleQuotes value = doubleQuotes a ++ doubleQuotes b := by
      rw [hsplit, doubleQuotes_append]
    have htotal :
        (doubleQuotes value).length = (doubleQuotes a).length + (doubleQuotes b).length := by
      rw [hdouble, List.length_append]
    obtain ⟨middle, last, hrest, hbodies⟩ :=
      continueBodies_cuts hcomment (doubleQuotes value).length b
      (by omega)
    have hall := hcuts _ _ hrest
    have hne : value ≠ [] := by
      rintro rfl
      exact hone (Nat.zero_le _)
    have hfirst : padRight 8 key ++ str "= '" ++ doubleQuotes a ++ str "&'" =
        firstBody key (a ++ [ampersand]) [] := by
      rw [firstBody, hfront, quoted, doubleQuotes_ampersand]
      simp [str, quote, blank, ampersand]
    dsimp only
    rw [← hlenA, hdouble, List.take_left, List.drop_left, ← hdouble, hbodies, hfirst]
    have hshort : ∀ bodies : List Str,
        (∀ body ∈ bodies, body ∈ middle.map pieceBody ++ [continueBody last comment]) →
          ((∀ body ∈ firstBody key (a ++ [ampersand]) [] :: bodies, body.length ≤ 80) ↔
            HasRoom key value comment) := by
      intro bodies hmem
      refine iff_of_true (List.forall_mem_cons.2 ⟨?_, fun body hbody => ?_⟩) ?_
      · have := (hall.short).1 a (by simp)
        rw [firstBody_length, hwidth, doubleQuotes_ampersand, List.length_append]
        simp
        omega
      · exact pieces_short hrest rfl hcomment body (hmem body hbody)
      · rw [hroom]
        unfold lastPayload at hone
        split_ifs at hone with hempty
        · rw [List.isEmpty_iff.1 hempty]
          simp
        · omega
    have hvalue' : value = a ++ middle.flatten ++ last := by
      rw [hsplit, hrest.flatten, List.append_assoc]
    have hlastNil := hall.last_eq_nil hne
    by_cases hlast : last = []
    · rw [if_pos hlast, List.append_nil]
      refine ⟨(value ++ [ampersand], []), .lost (by rw [hvalue', hlast, List.append_nil]),
        ⟨fun _ => rfl, fun hn => absurd (hlost.2 (hlastNil.1 hlast)) hn⟩, hshort _ ?_⟩
      exact fun body hbody => List.mem_append_left _ hbody
    · rw [if_neg hlast]
      refine ⟨_, .chain hvalue', ⟨fun hn => absurd (hlastNil.2 (hlost.1 hn)) hlast, fun _ => ?_⟩,
        hshort _ fun _ => id⟩
      refine ⟨a ++ middle.flatten, last, hvalue', rfl, ?_⟩
      rw [hblanks]
      exact hall.white (Nat.lt_of_not_le hone) []

/-- The single card of a value under a long key. -/
theorem hierarchBody_eq (hkey : isHierarchKey key = true) (value comment : Str) :
    hierarchBody key value comment =
      firstBody key (value ++ List.replicate (8 - (doubleQuotes value).length) blank)
        (commentTail comment) := by
  rw [hierarchBody, withComment_tail, padRight_doubleQuotes, firstBody, valueFront,
    if_pos hkey, quoted]
  simp [str, quote, blank]

/-- A doubled quote takes two bytes also where one was asked for. -/
theorem chunkSize_one (t : Str) : chunkSize (doubleQuotes (quote :: t)) 1 = 2 := by
  have h : chunkLength (doubleQuotes (quote :: t)) 1 = 0 := by
    rw [doubleQuotes_cons_quote, chunkLength, if_pos ⟨by simp, rfl, rfl⟩]
    rfl
  rw [chunkSize, if_pos h, doubleQuotes_cons_quote]
  simp

/-- The cards of a value under a long key. -/
theorem shape_hierarchStringBodies (hkey : isHierarchKey key = true)
    (hcut : (hierarchBody key value comment).length ≤ cardSize ∨
      comment.length ≤ 64 ∧ key.length ≤ 64 ∧ value ≠ []) :
    ∃ pending, Shape key value comment (hierarchStringBodies key value comment) pending ∧
      (HasRoom key value comment → Pending key value comment pending) ∧
      ((∀ body ∈ hierarchStringBodies key value comment, body.length ≤ 80) ↔
        HasRoom key value comment) := by
  have hwidth : (valueFront key).length = key.length + 10 := by
    rw [valueFront, if_pos hkey, List.length_append, List.length_append,
      show (str "HIERARCH ").length = 9 from rfl, List.length_singleton]
    omega
  have hvalue := length_le_doubleQuotes value
  have hwhite := whiteTail_le value
  have hroom : HasRoom key value comment ↔ (key.length = 64 → value.head? ≠ some quote) := by
    rw [HasRoom, if_pos hkey]
  have hblanks : BlanksFit key value comment ↔ (hierarchBody key value comment).length ≤ cardSize ∨
      whiteTail value ≤ lastPayload comment ∧
        whiteTail value ≤ (doubleQuotes value).length - (65 - key.length) := by
    rw [BlanksFit, if_pos hkey]
  have hbodyLen : (hierarchBody key value comment).length =
      key.length + 14 + max 8 (doubleQuotes value).length + (commentTail comment).length := by
    rw [hierarchBody_eq hkey, firstBody_length, hwidth, ← padRight_doubleQuotes, padRight_length]
    omega
  rw [hierarchStringBodies]
  by_cases hone : (hierarchBody key value comment).length ≤ cardSize
  · rw [if_pos hone]
    refine ⟨(trimEnd value, trim comment), ?_, fun _ => ⟨?_, ?_⟩, ?_⟩
    · rw [hierarchBody_eq hkey]
      exact .single (commentTail_reads comment)
    · rintro ⟨hc, -, -⟩
      have htail := @commentTail_length comment (by omega)
      have hP := (@lastPayload_eq_one comment (by omega)).2 hc
      unfold cardSize at hone
      omega
    · exact fun _ => ⟨[], value, rfl, rfl, iff_of_true hwhite (hblanks.2 (Or.inl hone))⟩
    · rw [List.forall_mem_singleton, hroom]
      unfold cardSize at hone
      exact iff_of_true hone fun h64 => by omega
  · obtain ⟨hcomment, hk, hne⟩ := hcut.resolve_left hone
    have hpos := List.length_pos_of_ne_nil hne
    obtain ⟨n, hn⟩ : ∃ n, min (65 - key.length) (doubleQuotes value).length = n := ⟨_, rfl⟩
    obtain ⟨a, b, hsplit, hlenA, hneA, htwo, hfit, hcutA⟩ :=
      chunk_split (t := value) (n := n) (by omega) (by omega)
    have hdouble : doubleQuotes value = doubleQuotes a ++ doubleQuotes b := by
      rw [hsplit, doubleQuotes_append]
    have htotal :
        (doubleQuotes value).length = (doubleQuotes a).length + (doubleQuotes b).length := by
      rw [hdouble, List.length_append]
    obtain ⟨middle, last, hrest, hbodies⟩ :=
      continueBodies_cuts hcomment (doubleQuotes value).length b
      (by omega)
    have hb := length_le_doubleQuotes b
    have hfirst : str "HIERARCH " ++ key ++ str " = '" ++ doubleQuotes a ++ str "&'" =
        firstBody key (a ++ [ampersand]) [] := by
      rw [firstBody, valueFront, if_pos hkey, quoted, doubleQuotes_ampersand]
      simp [str, quote, blank, ampersand]
    have hempty : withComment (str "CONTINUE  ''") comment = continueBody [] comment := by
      rw [withComment_tail, continueBody]
      rfl
    rw [if_neg hone]
    dsimp only
    rw [hn, ← hlenA, hdouble, List.take_left, List.drop_left, ← hdouble, hbodies, hfirst, hempty]
    -- the first card is short exactly when the chunk is as long as it was asked for
    have hroomA : (doubleQuotes a).length ≤ 65 - key.length ↔ HasRoom key value comment := by
      rw [hroom]
      constructor
      · intro h h64 hhead
        obtain ⟨t, rfl⟩ := List.head?_eq_some_iff.1 hhead
        have hone' : n = 1 := by
          rw [doubleQuotes_cons_quote, List.length_cons, List.length_cons] at hn
          omega
        rw [hone', chunkSize_one] at hlenA
        omega
      · intro h
        rcases hfit with hle | ⟨hone', hhead⟩
        · omega
        · have h64 : key.length ≠ 64 := fun h64 => h h64 hhead
          omega
    have hshort : ∀ bodies : List Str,
        (∀ body ∈ bodies, body ∈ middle.map pieceBody ++ [continueBody last comment] ∨
          body = continueBody [] comment) →
          ((∀ body ∈ firstBody key (a ++ [ampersand]) [] :: bodies, body.length ≤ 80) ↔
            HasRoom key value comment) := by
      intro bodies hmem
      rw [← hroomA, List.forall_mem_cons, firstBody_length, hwidth, doubleQuotes_ampersand,
        List.length_append]
      have htail : ∀ body ∈ bodies, body.length ≤ 80 := by
        intro body hbody
        rcases hmem body hbody with hpiece | rfl
        · exact pieces_short hrest rfl hcomment body hpiece
        · exact pieces_short (.last (t := []) (Nat.zero_le _)) rfl hcomment _ (by simp)
      refine (and_iff_left htail).trans ?_
      simp only [List.length_cons, List.length_nil]
      constructor <;> omega
    by_cases hbnil : b = []
    · have hbLen : (doubleQuotes b).length = 0 := by
        rw [hbnil]
        rfl
      rw [List.length_eq_zero_iff.1 hbLen, if_pos (show ([] : Str).isEmpty = true from rfl)]
      have hvalue' : value = a ++ ([] : List Str).flatten ++ [] := by simpa [hbnil] using hsplit
      refine ⟨_, @Shape.chain _ _ _ _ _ [] hvalue', fun hr => ⟨?_, fun _ => ?_⟩,
        hshort _ fun body hbody => Or.inr (by simpa using hbody)⟩
      · rintro ⟨-, -, hlt⟩
        have := hroomA.2 hr
        have := hlt hkey
        omega
      · refine ⟨a, [], by simpa using hvalue', by simp, ?_⟩
        rw [hblanks]
        have := hroomA.2 hr
        rw [List.length_nil]
        constructor
        · exact fun h => Or.inr ⟨by omega, by omega⟩
        · intro h
          have := (h.resolve_left hone).2
          omega
    · have hbpos := List.length_pos_of_ne_nil hbnil
      have hbne : ¬ (doubleQuotes b).isEmpty = true := by
        rw [List.isEmpty_iff]
        intro h
        rw [h] at hb
        simp at hb
        exact hbnil hb
      rw [if_neg hbne]
      have hcutN : n = 65 - key.length ∧ 65 - key.length < (doubleQuotes value).length := by
        rcases hcutA with h | h <;> omega
      have hvalue' : value = a ++ middle.flatten ++ last := by
        rw [hsplit, hrest.flatten, List.append_assoc]
      have hlost : NothingLeft key value comment ↔ last = [] := by
        rw [hrest.last_eq_nil hbnil, lastPayload_eq_one hcomment, NothingLeft]
        have hget : value.getLast? = b.getLast? := by
          rw [hsplit, List.getLast?_append_of_ne_nil _ hbnil]
        rw [hget]
        exact ⟨fun h => ⟨h.1, h.2.1⟩, fun h => ⟨h.1, h.2, fun _ => hcutN.2⟩⟩
      by_cases hlast : last = []
      · rw [if_pos hlast, List.append_nil]
        refine ⟨(value ++ [ampersand], []), .lost (by rw [hvalue', hlast, List.append_nil]),
          fun _ => ⟨fun _ => rfl, fun hn => absurd (hlost.2 hlast) hn⟩, hshort _ ?_⟩
        exact fun body hbody => Or.inl (List.mem_append_left _ hbody)
      · rw [if_neg hlast]
        refine ⟨_, .chain hvalue', fun _ => ⟨fun hn => absurd (hlost.1 hn) hlast, fun _ => ?_⟩,
          hshort _ fun _ => Or.inl⟩
        refine ⟨a ++ middle.flatten, last, hvalue', rfl, ?_⟩
        rw [hblanks, or_iff_right hone]
        rcases Nat.lt_or_ge (lastPayload comment) (doubleQuotes b).length with hlong | hfits
        · -- the rest takes several cards
          have hw := hrest.white hlong a
          rw [← hsplit] at hw
          rw [hw]
          refine ⟨fun h => ⟨h, ?_⟩, fun h => h.1⟩
          rcases hcutA with heq | hblocked
          · omega
          · have := (hblocked.2 []).1
            rw [List.nil_append] at this
            omega
        · -- the rest is on one card
          have hlastB : last = b := by
            cases hrest with
            | last => rfl
            | cut hlong => omega
          rw [hlastB]
          rcases hcutA with heq | hblocked
          · have hw := whiteTail_le_doubleQuotes a b
            rw [← hsplit] at hw
            rw [hw]
            constructor
            · exact fun h => ⟨by omega, by omega⟩
            · exact fun h => by omega
          · have hw := hblocked.2 []
            rw [List.nil_append] at hw
            exact iff_of_true hw.2 ⟨by omega, by omega⟩

/-! ## The cards of printable text -/

theorem printable_withComment {body : Str} (hbody : ∀ b ∈ body, isPrintable b = true)
    (hcomment : ∀ b ∈ comment, isPrintable b = true) :
    ∀ b ∈ withComment body comment, isPrintable b = true := by
  unfold withComment
  split_ifs
  · exact hbody
  · exact printable_append (printable_append hbody (printable_of_all (by decide))) hcomment

theorem printable_continueBodies (hcomment : ∀ b ∈ comment, isPrintable b = true) :
    ∀ (fuel : Nat) (rest : Str), (∀ b ∈ rest, isPrintable b = true) →
      ∀ body ∈ continueBodies comment fuel rest, ∀ b ∈ body, isPrintable b = true := by
  intro fuel
  induction fuel with
  | zero =>
    intro rest _ body hbody
    cases hbody
  | succ fuel ih =>
    intro rest hrest body hbody
    rw [continueBodies] at hbody
    split_ifs at hbody
    · cases hbody
    · rw [List.mem_singleton.1 hbody]
      exact printable_withComment (printable_append (printable_append (printable_of_all (by decide))
        hrest) (printable_of_all (by decide))) hcomment
    · rcases List.mem_cons.1 hbody with rfl | hbody
      · exact printable_append (printable_append (printable_of_all (by decide))
          fun b hb => hrest b (List.mem_of_mem_take hb)) (printable_of_all (by decide))
      · exact ih _ (fun b hb => hrest b (List.mem_of_mem_drop hb)) body hbody

theorem printable_stringBodies (hkey : ∀ b ∈ key, isPrintable b = true)
    (hvalue : ∀ b ∈ value, isPrintable b = true) (hcomment : ∀ b ∈ comment, isPrintable b = true) :
    ∀ body ∈ stringBodies key value comment, ∀ b ∈ body, isPrintable b = true := by
  have hescaped : ∀ b ∈ doubleQuotes value, isPrintable b = true :=
    fun b hb => hvalue b (mem_doubleQuotes.1 hb)
  have hquote := printable_of_all (s := str "'") (by decide)
  intro body hbody
  unfold stringBodies at hbody
  split_ifs at hbody
  · have hfront : ∀ b ∈ str "HIERARCH " ++ key ++ str " = '", isPrintable b = true :=
      printable_append (printable_append (printable_of_all (by decide)) hkey)
        (printable_of_all (by decide))
    unfold hierarchStringBodies at hbody
    dsimp only at hbody
    split_ifs at hbody with hone hempty
    · rw [List.mem_singleton.1 hbody]
      exact printable_withComment (printable_append (printable_append hfront
        (printable_padRight hescaped 8)) hquote) hcomment
    · rcases List.mem_cons.1 hbody with rfl | hbody
      · exact printable_append (printable_append hfront fun b hb =>
          hescaped b (List.mem_of_mem_take hb))
          (printable_of_all (by decide))
      · rw [List.mem_singleton.1 hbody]
        exact printable_withComment (printable_of_all (by decide)) hcomment
    · rcases List.mem_cons.1 hbody with rfl | hbody
      · exact printable_append (printable_append hfront fun b hb =>
          hescaped b (List.mem_of_mem_take hb))
          (printable_of_all (by decide))
      · exact printable_continueBodies hcomment _ _
          (fun b hb => hescaped b (List.mem_of_mem_drop hb)) body hbody
  · have hfront : ∀ b ∈ padRight 8 key ++ str "= '", isPrintable b = true :=
      printable_append (printable_padRight hkey 8) (printable_of_all (by decide))
    unfold stringValueBodies at hbody
    dsimp only at hbody
    split_ifs at hbody with hone
    · have hhead :=
        printable_append (printable_append hfront (printable_padRight hescaped 8)) hquote
      rw [List.mem_singleton.1 hbody]
      unfold stringBody
      dsimp only
      split_ifs
      · exact hhead
      · exact printable_append (printable_append (printable_padRight hhead 31)
          (printable_of_all (by decide))) hcomment
      · exact printable_append (printable_append hhead (printable_of_all (by decide))) hcomment
    · rcases List.mem_cons.1 hbody with rfl | hbody
      · exact printable_append (printable_append hfront fun b hb =>
          hescaped b (List.mem_of_mem_take hb))
          (printable_of_all (by decide))
      · exact printable_continueBodies hcomment _ _
          (fun b hb => hescaped b (List.mem_of_mem_drop hb)) body hbody

/-- The cards of a string value: both writers. -/
theorem shape_stringBodies {F : Type} {floats : Floats F} {cards : List Card}
    (h : buildCardFromValue floats key (.string value) comment = .ok cards) :
    cards = (stringBodies key value comment).map padToCard ∧
      ∃ pending, Shape key value comment (stringBodies key value comment) pending ∧
        (HasRoom key value comment → Pending key value comment pending) ∧
        ((∀ body ∈ stringBodies key value comment, body.length ≤ 80) ↔
          HasRoom key value comment) := by
  unfold buildCardFromValue at h
  unfold stringBodies
  by_cases hkey : isHierarchKey key = true
  · rw [if_pos hkey] at h ⊢
    obtain ⟨hcards, hcut⟩ := buildHierarchStringCards_eq h
    exact ⟨hcards, shape_hierarchStringBodies hkey hcut⟩
  · rw [if_neg hkey] at h ⊢
    obtain ⟨hcards, hcomment⟩ := buildStringValueCards_eq h
    obtain ⟨pending, hshape, hpending, hshort⟩ :=
      @shape_stringValueBodies _ value _ (Bool.eq_false_iff.2 hkey) hcomment
    exact ⟨hcards, pending, hshape, fun _ => hpending, hshort⟩

end

end Header

end RustFits
