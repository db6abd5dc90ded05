import Mathlib.Data.List.GetD
import RustFits.Header.Steps

/-!
# Quoted text

What is written between quotes reads back.  The writer doubles the quotes of a text;
the reader looks for the comment outside quotes, undoes the doubled ones, and drops
the white space at the end.

* `splitValueComment_quoted` and `extractFitsString_quoted` are the two halves of the
  reader on a quoted text.
* `chunk_split` says where the writer cuts a long text: never inside a doubled quote,
  and where it was asked to cut unless quotes stand there.
* `whiteTail` counts the white space at the end of a text.  A text that is read in
  pieces loses the white space at the end of its last piece only, which is all of it
  as long as the last piece is long enough (`append_trimEnd_iff`).
-/

namespace RustFits

open Ascii ByteFile Machine

namespace Header

/-- The quote. -/
def quote : UInt8 := 0x27

/-! ## White space at the end -/

/-- The number of white bytes at the end of a text. -/
def whiteTail (s : Str) : Nat := (s.rtakeWhile isWhitespace).length

theorem trimEnd_length (s : Str) : (trimEnd s).length + whiteTail s = s.length := by
  rw [trimEnd, whiteTail, ← List.length_append, List.rdropWhile_append_rtakeWhile]

theorem whiteTail_le (s : Str) : whiteTail s ≤ s.length := by
  have := trimEnd_length s
  omega

/-- The white space at the end of a text that is not all white. -/
theorem whiteTail_append_of_ne {a b : Str} (h : trimEnd b ≠ []) :
    trimEnd (a ++ b) = a ++ trimEnd b := by
  obtain ⟨front, c, hsplit⟩ : ∃ front c, trimEnd b = front ++ [c] :=
    ⟨_, _, (List.dropLast_append_getLast h).symm⟩
  have hc : isWhitespace c = false := by
    have hself := List.rdropWhile_eq_self_iff.1 (List.rdropWhile_idempotent isWhitespace b)
    have hlast := hself h
    have hget : (trimEnd b).getLast h = c := by simp [hsplit]
    rw [Bool.eq_false_iff]
    rwa [← hget]
  have hb : b = front ++ c :: b.rtakeWhile isWhitespace := by
    conv_lhs => rw [← List.rdropWhile_append_rtakeWhile (p := isWhitespace) (l := b)]
    rw [show b.rdropWhile isWhitespace = front ++ [c] from hsplit, List.append_assoc]
    rfl
  rw [hb, ← List.append_assoc, trimEnd_append hc, trimEnd_append hc, List.append_assoc]

/-- The pieces of a text lose no more white space than the text when the last piece
is long enough, and the white space at its end only. -/
theorem append_trimEnd_iff (a b : Str) :
    a ++ trimEnd b = trimEnd (a ++ b) ↔ whiteTail (a ++ b) ≤ b.length := by
  by_cases hb : trimEnd b = []
  · have hwhite : ∀ c ∈ b, isWhitespace c = true := List.rdropWhile_eq_nil_iff.1 hb
    have htail := trimEnd_length (a ++ b)
    have hle := (List.rdropWhile_prefix isWhitespace a).length_le
    rw [hb, List.append_nil, trimEnd_append_white a hwhite]
    rw [trimEnd_append_white a hwhite, List.length_append] at htail
    constructor
    · intro ha
      rw [← ha] at htail
      omega
    · intro hlen
      exact ((List.rdropWhile_prefix isWhitespace a).eq_of_length
        (Nat.le_antisymm hle (show a.length ≤ (trimEnd a).length by omega))).symm
  · rw [whiteTail_append_of_ne hb]
    have htail := trimEnd_length (a ++ b)
    have hpos := List.length_pos_of_ne_nil hb
    rw [whiteTail_append_of_ne hb, List.length_append, List.length_append] at htail
    exact iff_of_true rfl (by omega)

theorem whiteTail_append_le {a b : Str}
    (h : (∀ c ∈ a.getLast?, isWhitespace c = false) ∨ ∃ c ∈ b, isWhitespace c = false) :
    whiteTail (a ++ b) ≤ b.length := by
  refine (append_trimEnd_iff a b).1 ?_
  by_cases hb : trimEnd b = []
  · have hwhite : ∀ c ∈ b, isWhitespace c = true := List.rdropWhile_eq_nil_iff.1 hb
    have ha : ∀ c ∈ a.getLast?, isWhitespace c = false := by
      refine h.resolve_right ?_
      rintro ⟨c, hc, hcw⟩
      rw [hwhite c hc] at hcw
      exact Bool.noConfusion hcw
    rw [hb, List.append_nil, trimEnd_append_white a hwhite]
    refine (List.rdropWhile_eq_self_iff.2 fun hne => ?_).symm
    rw [ha _ (List.getLast?_eq_some_getLast hne)]
    exact Bool.false_ne_true
  · exact (whiteTail_append_of_ne hb).symm

/-! ## Doubled quotes -/

theorem doubleQuotes_append (a b : Str) :
    doubleQuotes (a ++ b) = doubleQuotes a ++ doubleQuotes b := List.flatMap_append

theorem doubleQuotes_cons_quote (t : Str) :
    doubleQuotes (quote :: t) = quote :: quote :: doubleQuotes t := rfl

theorem doubleQuotes_cons {b : UInt8} (h : b ≠ quote) (t : Str) :
    doubleQuotes (b :: t) = b :: doubleQuotes t := by
  rw [doubleQuotes, List.flatMap_cons, if_neg (show ¬b = 0x27 from h)]
  rfl

theorem doubleQuotes_blanks (n : Nat) :
    doubleQuotes (List.replicate n blank) = List.replicate n blank := by
  induction n with
  | zero => rfl
  | succ n ih => rw [List.replicate_succ, doubleQuotes_cons (by decide), ih]

theorem mem_doubleQuotes {b : UInt8} {t : Str} : b ∈ doubleQuotes t ↔ b ∈ t := by
  induction t with
  | nil => rfl
  | cons c t ih =>
    by_cases hc : c = quote
    · rw [hc, doubleQuotes_cons_quote, List.mem_cons, List.mem_cons, List.mem_cons, ih]
      tauto
    · rw [doubleQuotes_cons hc, List.mem_cons, List.mem_cons, ih]

theorem length_le_doubleQuotes (t : Str) : t.length ≤ (doubleQuotes t).length := by
  induction t with
  | nil => rfl
  | cons c t ih =>
    by_cases hc : c = quote
    · rw [hc, doubleQuotes_cons_quote, List.length_cons, List.length_cons, List.length_cons]
      omega
    · rw [doubleQuotes_cons hc, List.length_cons, List.length_cons]
      omega

theorem doubleQuotes_of_white {t : Str} (h : ∀ b ∈ t, isWhitespace b = true) :
    doubleQuotes t = t := by
  induction t with
  | nil => rfl
  | cons c t ih =>
    have hc : c ≠ quote := by
      rintro rfl
      exact absurd (h quote (by simp)) (by decide)
    rw [doubleQuotes_cons hc, ih fun b hb => h b (List.mem_cons_of_mem _ hb)]

theorem trimEnd_doubleQuotes (t : Str) : trimEnd (doubleQuotes t) = doubleQuotes (trimEnd t) := by
  have hsplit : trimEnd t ++ t.rtakeWhile isWhitespace = t := List.rdropWhile_append_rtakeWhile
  have hwhite : ∀ b ∈ t.rtakeWhile isWhitespace, isWhitespace b = true :=
    fun b hb => List.mem_rtakeWhile_imp hb
  conv_lhs => rw [← hsplit, doubleQuotes_append, doubleQuotes_of_white hwhite,
    trimEnd_append_white _ hwhite]
  -- the last byte of the trimmed text is not white, and it stays the last one
  cases hlast : (trimEnd t).getLast? with
  | none =>
    rw [List.getLast?_eq_none_iff.1 hlast]
    rfl
  | some c =>
    have hne : trimEnd t ≠ [] := by
      intro he
      simp [he] at hlast
    have hself := List.rdropWhile_eq_self_iff.1 (List.rdropWhile_idempotent isWhitespace t) hne
    obtain ⟨front, hfront⟩ := List.getLast?_eq_some_iff.1 hlast
    have hc : isWhitespace c = false := by
      have hget : (trimEnd t).getLast hne = c := by simp [hfront]
      rw [Bool.eq_false_iff]
      rwa [← hget]
    rw [hfront, doubleQuotes_append]
    by_cases hq : c = quote
    · rw [hq, show doubleQuotes [quote] = [quote] ++ quote :: [] from rfl, ← List.append_assoc,
        trimEnd_append (by decide)]
      rfl
    · rw [doubleQuotes_cons hq, trimEnd_append hc]
      rfl

theorem whiteTail_doubleQuotes (t : Str) : whiteTail (doubleQuotes t) = whiteTail t := by
  have hsplit : trimEnd t ++ t.rtakeWhile isWhitespace = t := List.rdropWhile_append_rtakeWhile
  have hlen := trimEnd_length (doubleQuotes t)
  rw [trimEnd_doubleQuotes] at hlen
  conv at hlen =>
    rhs
    rw [← hsplit, doubleQuotes_append, doubleQuotes_of_white fun b hb => List.mem_rtakeWhile_imp hb,
      List.length_append]
  exact Nat.add_left_cancel hlen

theorem undoubleQuotes_doubleQuotes (t : Str) : undoubleQuotes (doubleQuotes t) = t := by
  induction t with
  | nil => rfl
  | cons b t ih =>
    by_cases hb : b = quote
    · rw [hb, doubleQuotes_cons_quote, undoubleQuotes, if_pos ⟨rfl, rfl⟩, ih]
      rfl
    · rw [doubleQuotes_cons hb]
      cases hrest : doubleQuotes t with
      | nil =>
        rw [hrest] at ih
        rw [← ih]
        rfl
      | cons c rest =>
        rw [hrest] at ih
        rw [undoubleQuotes, if_neg fun h => hb h.1, ih]

/-! ## Reading a quoted text -/

theorem cutComment_quoted (t rest : Str) :
    cutComment true (doubleQuotes t ++ quote :: rest) =
      (doubleQuotes t ++ quote :: (cutComment false rest).1, (cutComment false rest).2) := by
  induction t with
  | nil =>
    show cutComment true (quote :: rest) = _
    rw [cutComment, if_pos (by decide)]
    rfl
  | cons b t ih =>
    by_cases hb : b = quote
    · rw [hb, doubleQuotes_cons_quote, List.cons_append, List.cons_append, cutComment,
        if_pos (by decide), cutComment, if_pos (by decide)]
      simp only [Bool.not_true, Bool.not_false, ih]
      rfl
    · rw [doubleQuotes_cons hb, List.cons_append, cutComment, if_neg (show ¬b = 0x27 from hb),
        if_neg (by simp), ih]
      rfl

/-- Text without a quote and a slash stands in front of the comment. -/
theorem cutComment_plain {s : Str} (hs : ∀ b ∈ s, b ≠ 0x27 ∧ b ≠ 0x2F) (rest : Str) :
    cutComment false (s ++ rest) = (s ++ (cutComment false rest).1, (cutComment false rest).2) := by
  induction s with
  | nil => rfl
  | cons b s ih =>
    obtain ⟨⟨hquote, hslash⟩, hs⟩ := List.forall_mem_cons.1 hs
    rw [List.cons_append, cutComment, if_neg hquote, if_neg (by simp [hslash]), ih hs]
    rfl

theorem cutComment_white {w : Str} (hw : ∀ b ∈ w, isWhitespace b = true) (rest : Str) :
    cutComment false (w ++ rest) = (w ++ (cutComment false rest).1, (cutComment false rest).2) := by
  refine cutComment_plain (fun b hb => ?_) rest
  have hwhite := hw b hb
  constructor
  · rintro rfl
    exact absurd hwhite (by decide)
  · rintro rfl
    exact absurd hwhite (by decide)

/-- A text in quotes. -/
def quoted (t : Str) : Str := quote :: doubleQuotes t ++ [quote]

theorem isQuoted_quoted (t : Str) : isQuoted (quoted t) = true := by
  rw [isQuoted, quoted, List.getLast?_concat]
  simp [quote]

theorem isQuoted_plain {s : Str} (h : ∀ b ∈ s, b ≠ 0x27) : isQuoted s = false := by
  cases s with
  | nil => rfl
  | cons b s =>
    have hhead : ((b :: s).head? == some 0x27) = false := by
      simpa using h b List.mem_cons_self
    rw [isQuoted, hhead]
    rfl

/-- A quoted text reads back without the white space at its end. -/
theorem extractFitsString_quoted (t : Str) : extractFitsString (quoted t) = trimEnd t := by
  rw [extractFitsString, innerText, quoted, List.cons_append, List.tail_cons,
    List.dropLast_concat, undoubleQuotes_doubleQuotes]

/-- What follows the closing quote: nothing, or white space and a comment. -/
inductive CommentTail : Str → Str → Prop where
  | none {w : Str} (hw : ∀ b ∈ w, isWhitespace b = true) : CommentTail w []
  | slash {w : Str} (hw : ∀ b ∈ w, isWhitespace b = true) (comment : Str) :
      CommentTail (w ++ 0x2F :: comment) (trim comment)

/-- The cut in front of the comment. -/
theorem CommentTail.cut {tail comment : Str} (h : CommentTail tail comment) :
    (∀ b ∈ (cutComment false tail).1, isWhitespace b = true) ∧
      trim (cutComment false tail).2 = comment := by
  cases h with
  | none hw =>
    have hall := cutComment_white hw []
    rw [List.append_nil] at hall
    rw [hall]
    exact ⟨by simpa [cutComment] using hw, rfl⟩
  | slash hw c =>
    rw [cutComment_white hw, cutComment, if_neg (by decide), if_pos (by decide)]
    exact ⟨by simpa using hw, rfl⟩

theorem cutComment_text {w : Str} (hw : ∀ b ∈ w, isWhitespace b = true) (t tail : Str) :
    cutComment false (w ++ (quoted t ++ tail)) =
      (w ++ (quoted t ++ (cutComment false tail).1), (cutComment false tail).2) := by
  rw [cutComment_white hw, quoted, List.append_assoc, List.cons_append, cutComment,
    if_pos (by decide)]
  simp only [Bool.not_false, List.singleton_append, cutComment_quoted]
  simp [quote]

theorem splitValueComment_quoted {w tail comment : Str} (hw : ∀ b ∈ w, isWhitespace b = true)
    (htail : CommentTail tail comment) (t : Str) :
    splitValueComment (w ++ (quoted t ++ tail)) = (quoted t, comment) := by
  have htrim : ∀ v : Str, (∀ b ∈ v, isWhitespace b = true) →
      trim (w ++ (quoted t ++ v)) = quoted t := by
    intro v hv
    have hstart : trimStart (w ++ quoted t) = quoted t := by
      rw [trimStart, List.dropWhile_append_of_pos hw, quoted, List.cons_append,
        List.dropWhile_cons_of_neg (by decide)]
    rw [← List.append_assoc, trim_append_white _ hv, trim, hstart, quoted,
      show (quote :: doubleQuotes t ++ [quote]) = (quote :: doubleQuotes t) ++ quote :: [] from rfl,
      trimEnd_append (by decide)]
    rfl
  obtain ⟨hwhite, hcomment⟩ := htail.cut
  rw [splitValueComment, cutComment_text hw]
  dsimp only
  rw [htrim _ hwhite, hcomment]

/-- The same behind a text that is not quoted. -/
theorem splitValueComment_plain {w raw tail comment : Str} (hw : ∀ b ∈ w, isWhitespace b = true)
    (hraw : ∀ b ∈ raw, b ≠ 0x27 ∧ b ≠ 0x2F) (htrim : trim raw = raw)
    (htail : CommentTail tail comment) :
    splitValueComment (w ++ (raw ++ tail)) = (raw, comment) := by
  obtain ⟨hwhite, hcomment⟩ := htail.cut
  rw [splitValueComment, cutComment_white hw, cutComment_plain hraw]
  dsimp only
  rw [trim_white_append hw, trim_append_white _ hwhite, htrim, hcomment]

/-! ## Cutting a long text -/

/-- A cut that stands between no two quotes is inside no doubled quote. -/
theorem split_doubleQuotes : ∀ {t : Str} {m : Nat}, m + 1 ≤ (doubleQuotes t).length →
    ¬((doubleQuotes t).getD m 0 = quote ∧ (doubleQuotes t).getD (m + 1) 0 = quote) →
    ∃ a b, t = a ++ b ∧ (doubleQuotes a).length = m + 1 := by
  intro t
  induction t with
  | nil =>
    intro m hm
    simp [doubleQuotes] at hm
  | cons b t ih =>
    intro m hm hcut
    by_cases hb : b = quote
    · subst hb
      rw [doubleQuotes_cons_quote] at hm hcut
      match m, hm, hcut with
      | 0, _, hcut => exact absurd ⟨rfl, rfl⟩ hcut
      | 1, _, _ => exact ⟨[quote], t, rfl, rfl⟩
      | m + 2, hm, hcut =>
        obtain ⟨a, c, rfl, hlen⟩ := ih (by simpa using hm) (by simpa using hcut)
        exact ⟨quote :: a, c, rfl, by simp [doubleQuotes_cons_quote, hlen]⟩
    · rw [doubleQuotes_cons hb] at hm hcut
      cases m with
      | zero =>
        refine ⟨[b], t, rfl, ?_⟩
        rw [doubleQuotes_cons hb]
        rfl
      | succ m =>
        obtain ⟨a, c, rfl, hlen⟩ := ih (by simpa using hm) (by simpa using hcut)
        exact ⟨b :: a, c, rfl, by simp [doubleQuotes_cons hb, hlen]⟩

/-- Where the cut moves back to: in front of it stand quotes only. -/
theorem chunkLength_spec (s : Str) : ∀ n : Nat, chunkLength s n ≤ n ∧
    (chunkLength s n = n ∨ s.getD n 0 = quote ∧ s.getD (chunkLength s n) 0 = quote) ∧
    (∀ m, chunkLength s n = m + 1 →
      ¬(m + 1 < s.length ∧ s.getD m 0 = quote ∧ s.getD (m + 1) 0 = quote)) ∧
    (chunkLength s n = 0 → 0 < n → s.getD 0 0 = quote ∧ s.getD 1 0 = quote) := by
  intro n
  induction n with
  | zero =>
    refine ⟨Nat.le_refl 0, Or.inl rfl, ?_, fun _ h => absurd h (by decide)⟩
    intro m hm
    cases hm
  | succ n ih =>
    obtain ⟨hle, hquote, hstop, hzero⟩ := ih
    rw [chunkLength]
    by_cases hback : n + 1 < s.length ∧ s.getD n 0 = 0x27 ∧ s.getD (n + 1) 0 = 0x27
    · rw [if_pos hback]
      refine ⟨Nat.le_succ_of_le hle, Or.inr ⟨hback.2.2, ?_⟩, hstop, fun h0 _ => ?_⟩
      · rcases hquote with he | ⟨-, hq⟩
        · rw [he]
          exact hback.2.1
        · exact hq
      · cases n with
        | zero => exact hback.2
        | succ n => exact hzero h0 (Nat.succ_pos n)
    · rw [if_neg hback]
      refine ⟨Nat.le_refl _, Or.inl rfl, ?_, fun h0 => absurd h0 (Nat.succ_ne_zero n)⟩
      rintro m hm
      obtain rfl := Nat.succ.inj hm
      exact hback

theorem head_doubleQuotes (t : Str) : (doubleQuotes t).head? = t.head? := by
  cases t with
  | nil => rfl
  | cons b t =>
    by_cases hb : b = quote
    · rw [hb, doubleQuotes_cons_quote]
      rfl
    · rw [doubleQuotes_cons hb]
      rfl

theorem head_of_getD {s : Str} {b : UInt8} (hb : b ≠ 0) (h : s.getD 0 0 = b) :
    s.head? = some b := by
  cases s with
  | nil => exact absurd h.symm hb
  | cons c s =>
    rw [← h]
    rfl

theorem length_of_getD {s : Str} {b : UInt8} {n : Nat} (hb : b ≠ 0) (h : s.getD n 0 = b) :
    n < s.length := by
  by_contra hn
  rw [List.getD_eq_default s 0 (by omega)] at h
  exact hb h.symm

/-- A chunk of a long text: it cuts no doubled quote, it is not empty, and it has the
length it was asked for unless the cut moved away from quotes. -/
theorem chunk_split {t : Str} {n : Nat} (hpos : 0 < n) (hn : n ≤ (doubleQuotes t).length) :
    ∃ a b, t = a ++ b ∧ (doubleQuotes a).length = chunkSize (doubleQuotes t) n ∧ a ≠ [] ∧
      (doubleQuotes a).length ≤ max n 2 ∧
      ((doubleQuotes a).length ≤ n ∨ n = 1 ∧ t.head? = some quote) ∧
      ((doubleQuotes a).length = n ∨ n < (doubleQuotes t).length ∧ ∀ front,
        whiteTail (front ++ t) ≤ (doubleQuotes t).length - n ∧ whiteTail (front ++ t) ≤
          b.length) := by
  obtain ⟨hle, hquote, hstop, hzero⟩ := chunkLength_spec (doubleQuotes t) n
  -- quotes at the place of the cut bound the white space at the end
  have hcut : (doubleQuotes t).getD n 0 = quote → ∀ front,
      whiteTail (front ++ t) ≤ (doubleQuotes t).length - n := by
    intro hq front
    have hlt := length_of_getD (by decide) hq
    have hsplit : doubleQuotes (front ++ t) =
        (doubleQuotes front ++ (doubleQuotes t).take n) ++ (doubleQuotes t).drop n := by
      rw [List.append_assoc, List.take_append_drop, doubleQuotes_append]
    rw [← whiteTail_doubleQuotes, hsplit]
    refine (whiteTail_append_le (Or.inr ⟨quote, ?_, by decide⟩)).trans (by rw [List.length_drop])
    apply List.mem_of_getElem? (i := 0)
    rw [List.getElem?_drop, Nat.add_zero, ← hq, List.getD_eq_getElem?_getD,
      List.getElem?_eq_getElem hlt, Option.getD_some]
  cases hm : chunkLength (doubleQuotes t) n with
  | zero =>
    obtain ⟨h0, h1⟩ := hzero hm hpos
    have hlen := length_of_getD (by decide) h1
    obtain ⟨t', rfl⟩ : ∃ t', t = quote :: t' := by
      have hhead := head_of_getD (by decide) h0
      rw [head_doubleQuotes] at hhead
      exact List.head?_eq_some_iff.1 hhead
    rw [hm] at hquote
    have hq := (hquote.resolve_left (by omega)).1
    refine ⟨[quote], t', rfl, ?_, by simp, Nat.le_max_right n 2, ?_,
      Or.inr ⟨length_of_getD (by decide) hq, fun front => ?_⟩⟩
    · rw [chunkSize, if_pos hm, Nat.min_eq_left hlen]
      rfl
    · rcases Nat.lt_or_ge 1 n with h | h
      · exact Or.inl h
      · exact Or.inr ⟨by omega, rfl⟩
    · refine ⟨hcut hq front, ?_⟩
      rw [show front ++ quote :: t' = (front ++ [quote]) ++ t' by simp]
      refine whiteTail_append_le (Or.inl ?_)
      rw [List.getLast?_concat]
      rintro c ⟨⟩
      decide
  | succ m =>
    rw [hm] at hle hquote
    have hcut' : ¬((doubleQuotes t).getD m 0 = quote ∧ (doubleQuotes t).getD (m + 1) 0 = quote) :=
      fun h => hstop m hm ⟨length_of_getD (by decide) h.2, h⟩
    obtain ⟨a, b, rfl, hlen⟩ := split_doubleQuotes (Nat.le_trans hle hn) hcut'
    refine ⟨a, b, rfl, ?_, ?_, by omega, Or.inl (by omega), ?_⟩
    · rw [chunkSize, if_neg (by omega), hm, hlen]
    · rintro rfl
      simp [doubleQuotes] at hlen
    · refine hquote.imp (fun h => hlen.trans h) fun hq =>
        ⟨length_of_getD (by decide) hq.1, fun front => ⟨hcut hq.1 front, ?_⟩⟩
      rw [← List.append_assoc]
      refine whiteTail_append_le (Or.inr ⟨quote, ?_, by decide⟩)
      rw [doubleQuotes_append, ← hlen, List.getD_append_right _ _ _ _ (Nat.le_refl _),
        Nat.sub_self] at hq
      have hhead := head_of_getD (by decide) hq.2
      rw [head_doubleQuotes] at hhead
      exact List.mem_of_mem_head? hhead

/-- The white space at the end of a text is counted alike in what is written. -/
theorem whiteTail_le_doubleQuotes (front b : Str) :
    whiteTail (front ++ b) ≤ b.length ↔ whiteTail (front ++ b) ≤ (doubleQuotes b).length := by
  constructor
  · exact fun h => h.trans (length_le_doubleQuotes b)
  · intro h
    by_cases hb : ∃ c ∈ b, isWhitespace c = false
    · exact whiteTail_append_le (Or.inr hb)
    · rwa [doubleQuotes_of_white] at h
      intro c hc
      by_contra hcw
      exact hb ⟨c, hc, Bool.eq_false_iff.2 hcw⟩

/-- A text cut in pieces: the last one takes at most `P` bytes between its quotes, the
others at most 67. -/
inductive Cuts (P : Nat) : Str → List Str → Str → Prop where
  | last {t : Str} (h : (doubleQuotes t).length ≤ P) : Cuts P t [] t
  | cut {a b last : Str} {middle : List Str} (hlong : P < (doubleQuotes (a ++ b)).length)
      (hne : a ≠ []) (hshort : (doubleQuotes a).length ≤ 67)
      (hend : b = [] → P = 1 ∧ a.getLast? = some quote)
      (hwhite : (doubleQuotes b).length ≤ P → ∀ front,
        (whiteTail (front ++ (a ++ b)) ≤ b.length ↔ whiteTail (front ++ (a ++ b)) ≤ P))
      (h : Cuts P b middle last) : Cuts P (a ++ b) (a :: middle) last

/-- The next piece of a text that is too long for the last card. -/
theorem cut_step {t : Str} {P : Nat} (hP : 0 < P) (hlong : P < (doubleQuotes t).length) :
    ∃ a b, t = a ++ b ∧ a ≠ [] ∧
      (doubleQuotes a).length = chunkSize (doubleQuotes t) (min ((doubleQuotes t).length - P) 67) ∧
      ∀ middle last, Cuts P b middle last → Cuts P t (a :: middle) last := by
  obtain ⟨n, hn⟩ : ∃ n, min ((doubleQuotes t).length - P) 67 = n := ⟨_, rfl⟩
  obtain ⟨a, b, rfl, hlen, hne, htwo, hfit, hcut⟩ :=
    chunk_split (t := t) (n := n) (by omega) (by omega)
  have htotal :
      (doubleQuotes (a ++ b)).length = (doubleQuotes a).length + (doubleQuotes b).length := by
    rw [doubleQuotes_append, List.length_append]
  refine ⟨a, b, rfl, hne, hn ▸ hlen, fun middle last h => .cut hlong hne (by omega) ?_ ?_ h⟩
  · -- nothing is left for the last card: the piece is one doubled quote
    rintro rfl
    have hnil : (doubleQuotes ([] : Str)).length = 0 := rfl
    have hone : n = 1 ∧ (a ++ []).head? = some quote := hfit.resolve_left (by omega)
    rw [List.append_nil] at hone
    obtain ⟨c, rfl⟩ := List.head?_eq_some_iff.1 hone.2
    have hc : c = [] := by
      have := length_le_doubleQuotes c
      rw [doubleQuotes_cons_quote, List.length_cons, List.length_cons] at htwo
      exact List.length_eq_zero_iff.1 (by omega)
    subst hc
    refine ⟨?_, rfl⟩
    have htwo' : (doubleQuotes [quote]).length = 2 := rfl
    omega
  · intro hb front
    rcases hcut with heq | hblocked
    · -- the last piece is as long as it may be
      have hfull : (doubleQuotes b).length = P := by omega
      rw [← List.append_assoc, whiteTail_le_doubleQuotes, hfull]
    · exact iff_of_true (hblocked.2 front).2
        ((hblocked.2 front).2.trans ((length_le_doubleQuotes b).trans hb))

section

variable {P : Nat} {t last : Str} {middle : List Str}

theorem Cuts.flatten (h : Cuts P t middle last) : t = middle.flatten ++ last := by
  induction h with
  | last _ => rfl
  | cut _ _ _ _ _ _ ih => rw [List.flatten_cons, List.append_assoc, ← ih]

theorem Cuts.short (h : Cuts P t middle last) :
    (∀ m ∈ middle, (doubleQuotes m).length ≤ 67) ∧ (doubleQuotes last).length ≤ P := by
  induction h with
  | last h => exact ⟨by simp, h⟩
  | cut _ _ hshort _ _ _ ih => exact ⟨List.forall_mem_cons.2 ⟨hshort, ih.1⟩, ih.2⟩

/-- Nothing is left for the last card when it has room for one byte only and the text
ends with a quote. -/
theorem Cuts.last_eq_nil (h : Cuts P t middle last) (ht : t ≠ []) :
    last = [] ↔ P = 1 ∧ t.getLast? = some quote := by
  induction h with
  | last hlen =>
    refine iff_of_false ht ?_
    rintro ⟨rfl, hquote⟩
    obtain ⟨front, rfl⟩ := List.getLast?_eq_some_iff.1 hquote
    rw [doubleQuotes_append, List.length_append] at hlen
    have htwo : (doubleQuotes [quote]).length = 2 := rfl
    omega
  | @cut a b last middle _ _ _ hend _ hrest ih =>
    by_cases hb : b = []
    · subst hb
      have hlast : last = [] := (List.append_eq_nil_iff.1 hrest.flatten.symm).2
      rw [List.append_nil]
      exact iff_of_true hlast (hend rfl)
    · rw [ih hb, List.getLast?_append_of_ne_nil _ hb]

/-- The white space at the end of a text that does not fit one card. -/
theorem Cuts.white (h : Cuts P t middle last) (hlong : P < (doubleQuotes t).length) :
    ∀ front, whiteTail (front ++ t) ≤ last.length ↔ whiteTail (front ++ t) ≤ P := by
  induction h with
  | last hlen => exact absurd hlong (by omega)
  | @cut a b last middle _ _ _ _ hwhite hrest ih =>
    intro front
    rcases Nat.lt_or_ge P (doubleQuotes b).length with hb | hb
    · have := ih hb (front ++ a)
      rwa [List.append_assoc] at this
    · have hlast : last = b := by
        cases hrest with
        | last => rfl
        | cut hlong' => omega
      rw [hlast]
      exact hwhite hb front

end

end Header

end RustFits
