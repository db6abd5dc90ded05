import RustFits.Lib.ByteFile

/-!
# Sequences of moves inside one file

A compaction moves many regions of a file, one after the other, each through a
bounded buffer from its front to its back.  A region read late may have been
overwritten by then, by an earlier move or by an earlier chunk of its own copy.

* `forwardRead` is the byte that the copy of one region reads, for any position of
  the two regions, and `copyFrontToBack_getElem?` says that the copy writes these
  bytes and nothing else.
* `forwardRead_eq_iff`: the copy is faithful exactly when every byte it reads from
  its own output is the byte that stood there.
* `copyMoves_spec`: a sequence of moves to disjoint places.  Every move reads the
  file as the moves before it left it.
* `Moved.back_iff`: moves by one distance to earlier places are faithful exactly
  when no move changes a byte that a later one still reads.
-/

namespace RustFits.ByteFile

/-! ## One move -/

/-- The byte at place `q` of the region at `src`, as a front-to-back copy to `dst`
reads it: an earlier chunk may have written there. -/
def forwardRead (f : Bytes) (chunk src dst q : Nat) : Option UInt8 :=
  if _h : dst ≤ src + q ∧ (src + q - dst) / chunk < q / chunk then
    forwardRead f chunk src dst (src + q - dst)
  else f[src + q]?
termination_by q
decreasing_by exact Nat.lt_of_div_lt_div _h.2

section

variable {f g : Bytes} {chunk src dst : Nat}

/-- A copy to an earlier place reads what stood there. -/
theorem forwardRead_of_le (h : dst ≤ src) (q : Nat) :
    forwardRead f chunk src dst q = f[src + q]? := by
  rw [forwardRead, dif_neg]
  rintro ⟨-, hlt⟩
  have := Nat.lt_of_div_lt_div hlt
  omega

/-- A copy to a place behind the region reads what stood there. -/
theorem forwardRead_of_disjoint {q : Nat} (h : src + q < dst) :
    forwardRead f chunk src dst q = f[src + q]? := by
  rw [forwardRead, dif_neg]
  omega

theorem forwardRead_congr {n : Nat} (h : ∀ q < n, g[src + q]? = f[src + q]?) :
    ∀ q < n, forwardRead g chunk src dst q = forwardRead f chunk src dst q := by
  intro q
  induction q using Nat.strongRecOn with
  | ind q ih =>
    intro hq
    rw [forwardRead]
    conv_rhs => rw [forwardRead]
    split_ifs with hback
    · have hlt := Nat.lt_of_div_lt_div hback.2
      exact ih _ hlt (by omega)
    · exact h q hq

/-- The copy is faithful exactly when what it reads from its own output is what
stood there. -/
theorem forwardRead_eq_iff {n : Nat} :
    (∀ q < n, forwardRead f chunk src dst q = f[src + q]?) ↔
      ∀ q < n, dst ≤ src + q → (src + q - dst) / chunk < q / chunk →
        f[src + (src + q - dst)]? = f[src + q]? := by
  constructor
  · intro h q hq hle hchunk
    have hlt := Nat.lt_of_div_lt_div hchunk
    rw [← h q hq, ← h (src + q - dst) (by omega)]
    conv_rhs => rw [forwardRead, dif_pos ⟨hle, hchunk⟩]
  · intro h q
    induction q using Nat.strongRecOn with
    | ind q ih =>
      intro hq
      rw [forwardRead]
      split_ifs with hback
      · have hlt := Nat.lt_of_div_lt_div hback.2
        rw [ih _ hlt (by omega), h q hq hback.1 hback.2]
      · rfl

/-- The copy, byte by byte: `f` is the file before it and `g` the file after the
first `moved` bytes, whole chunks. -/
theorem copyFrontToBack_loop {total : Nat} (hchunk : 0 < chunk) (hsrc : src + total ≤ f.length)
    (hdst : dst + total ≤ f.length) :
    ∀ (fuel moved : Nat) (g : Bytes), total ≤ moved + fuel → moved ≤ total →
      (moved = total ∨ moved % chunk = 0) → g.length = f.length →
      (∀ i, g[i]? = if dst ≤ i ∧ i < dst + moved then forwardRead f chunk src dst (i - dst)
        else f[i]?) →
      ∃ f', copyFrontToBack chunk src dst total fuel moved g = some f' ∧ f'.length = f.length ∧
        ∀ i, f'[i]? = if dst ≤ i ∧ i < dst + total then forwardRead f chunk src dst (i - dst)
          else f[i]? := by
  intro fuel
  induction fuel with
  | zero =>
    intro moved g hfuel hle _ hlen hg
    have hmoved : moved = total := by omega
    subst hmoved
    exact ⟨g, rfl, hlen, hg⟩
  | succ fuel ih =>
    intro moved g hfuel hle hwhole hlen hg
    rw [copyFrontToBack]
    split_ifs with hdone
    · have hmoved : moved = total := by omega
      subst hmoved
      exact ⟨g, rfl, hlen, hg⟩
    · simp only
      have hmod : moved % chunk = 0 := by omega
      have hn : min (total - moved) chunk ≤ total - moved := Nat.min_le_left _ _
      have hnchunk : min (total - moved) chunk ≤ chunk := Nat.min_le_right _ _
      have hwhole' : moved + min (total - moved) chunk = total ∨
          (moved + min (total - moved) chunk) % chunk = 0 := by
        rcases Nat.le_total (total - moved) chunk with h | h
        · rw [Nat.min_eq_left h]
          omega
        · rw [Nat.min_eq_right h, Nat.add_mod_right]
          exact Or.inr hmod
      have hn0 : 0 < min (total - moved) chunk := by omega
      generalize min (total - moved) chunk = n at hn hnchunk hwhole' hn0 ⊢
      rw [readExact_eq_some (by omega)]
      simp only
      have hbuf : (slice g (src + moved) n).length = n := by simp; omega
      refine ih (moved + n) _ (by omega) (by omega) hwhole' ?_ fun i => ?_
      · rw [writeAll_length_of_le (by omega), hlen]
      · rw [writeAll_slice_getElem? (by omega) (by omega)]
        by_cases hnew : dst + moved ≤ i ∧ i < dst + moved + n
        · -- the chunk at hand: what it reads was written before exactly when the
          -- place lies in the part already moved
          obtain ⟨k, rfl⟩ : ∃ k, i = dst + moved + k := ⟨i - (dst + moved), by omega⟩
          have hk : k < chunk := by omega
          have hplace : dst + moved + k - dst = moved + k := by omega
          have hsame : dst + moved + k - (dst + moved) = k := by omega
          have hdiv : (moved + k) / chunk = moved / chunk := by
            obtain ⟨m, rfl⟩ := Nat.dvd_of_mod_eq_zero hmod
            rw [Nat.mul_add_div hchunk, Nat.mul_div_cancel_left m hchunk, Nat.div_eq_of_lt hk]
            rfl
          have hbefore : (src + (moved + k) - dst) / chunk < (moved + k) / chunk ↔
              src + (moved + k) - dst < moved := by
            rw [hdiv]
            obtain ⟨m, rfl⟩ := Nat.dvd_of_mod_eq_zero hmod
            rw [Nat.mul_div_cancel_left m hchunk, Nat.div_lt_iff_lt_mul hchunk, Nat.mul_comm m]
          rw [if_pos hnew, if_pos (by omega), hplace, hsame, hg, Nat.add_assoc]
          conv_rhs => rw [forwardRead]
          by_cases hback : dst ≤ src + (moved + k) ∧ src + (moved + k) < dst + moved
          · rw [if_pos hback, dif_pos ⟨hback.1, hbefore.2 (by omega)⟩]
          · rw [if_neg hback, dif_neg]
            rintro ⟨hle', hlt⟩
            have := hbefore.1 hlt
            omega
        · rw [if_neg hnew, hg]
          split_ifs <;> first | rfl | omega

/-- A front-to-back copy, byte by byte. -/
theorem copyFrontToBack_getElem? {total : Nat} (hchunk : 0 < chunk) (hsrc : src + total ≤ f.length)
    (hdst : dst + total ≤ f.length) :
    ∃ f', copyFrontToBack chunk src dst total total 0 f = some f' ∧ f'.length = f.length ∧
      ∀ i, f'[i]? = if dst ≤ i ∧ i < dst + total then forwardRead f chunk src dst (i - dst)
        else f[i]? := by
  refine copyFrontToBack_loop hchunk hsrc hdst total 0 f (by omega) (by omega) (by simp) rfl
    fun i => ?_
  rw [if_neg (by omega)]

/-- A region copied to itself. -/
theorem copyFrontToBack_self {total : Nat} :
    ∀ {fuel moved : Nat} {f f' : Bytes},
      copyFrontToBack chunk src src total fuel moved f = some f' → f' = f := by
  intro fuel
  induction fuel with
  | zero =>
    intro moved f f' h
    cases h
    rfl
  | succ fuel ih =>
    intro moved f f' h
    rw [copyFrontToBack] at h
    split_ifs at h
    · cases h
      rfl
    · simp only at h
      split at h
      · cases h
      · rename_i buf hread
        have hsame : writeAll f (src + moved) buf = f := by
          unfold readExact at hread
          split_ifs at hread with hn hfit
          · cases hread
            exact writeAll_nil f _
          · cases hread
            apply List.ext_getElem?
            intro i
            rw [writeAll_slice_getElem? hfit (by omega)]
            split_ifs <;> first | rfl | (congr 1; omega)
        rw [hsame] at h
        exact ih h

end

/-! ## Many moves -/

/-- A region and the place it moves to. -/
structure Move where
  src : Nat
  dst : Nat
  len : Nat
  deriving DecidableEq, Repr

/-- The move writes the byte `i`. -/
def Move.Covers (m : Move) (i : Nat) : Prop := m.dst ≤ i ∧ i < m.dst + m.len

instance (m : Move) (i : Nat) : Decidable (m.Covers i) := inferInstanceAs (Decidable (_ ∧ _))

/-- Two moves to disjoint places. -/
def Move.Apart (m m' : Move) : Prop := m.dst + m.len ≤ m'.dst ∨ m'.dst + m'.len ≤ m.dst

/-- Both regions of the move lie inside a file of `n` bytes. -/
def Move.Inside (n : Nat) (m : Move) : Prop := m.src + m.len ≤ n ∧ m.dst + m.len ≤ n

/-- The moves, one after the other. -/
def copyMoves (chunk : Nat) (moves : List Move) (f : Bytes) : Option Bytes :=
  moves.foldlM (fun f m => copyFrontToBack chunk m.src m.dst m.len m.len 0 f) f

section

variable {chunk : Nat} {moves : List Move} {f f' : Bytes}

theorem Move.Apart.not_covers {m m' : Move} (h : m.Apart m') {i : Nat} (hi : m.Covers i) :
    ¬ m'.Covers i := by
  unfold Move.Apart at h
  unfold Move.Covers at *
  omega

/-- What a sequence of moves to disjoint places leaves: every move wrote what it
read, from the file that the moves in front of it left. -/
structure Moved (chunk : Nat) (moves : List Move) (f f' : Bytes) : Prop where
  length : f'.length = f.length
  outside : ∀ i, (∀ m ∈ moves, ¬ m.Covers i) → f'[i]? = f[i]?
  written : ∀ front m back, moves = front ++ m :: back →
    ∃ g : Bytes, (∀ i, g[i]? = if ∃ m' ∈ front, m'.Covers i then f'[i]? else f[i]?) ∧
      ∀ q < m.len, f'[m.dst + q]? = forwardRead g chunk m.src m.dst q

theorem copyMoves_spec (hchunk : 0 < chunk) (hapart : moves.Pairwise Move.Apart) :
    ∀ {f : Bytes}, (∀ m ∈ moves, m.Inside f.length) →
      ∃ f', copyMoves chunk moves f = some f' ∧ Moved chunk moves f f' := by
  induction moves with
  | nil =>
    intro f _
    exact ⟨f, rfl, rfl, fun _ _ => rfl, by simp⟩
  | cons m moves ih =>
    intro f hin
    obtain ⟨hm, hmoves⟩ := List.pairwise_cons.1 hapart
    obtain ⟨hsrc, hdst⟩ := hin m (by simp)
    obtain ⟨f₁, hcopy, hlen₁, hbytes₁⟩ := copyFrontToBack_getElem? hchunk hsrc hdst
    have hf₁ : ∀ i, f₁[i]? =
        if m.Covers i then forwardRead f chunk m.src m.dst (i - m.dst) else f[i]? := hbytes₁
    obtain ⟨f', hrest, hmoved⟩ := ih hmoves (f := f₁) fun m' hm' => by
      rw [hlen₁]
      exact hin m' (List.mem_cons_of_mem _ hm')
    -- the moves behind `m` keep what it wrote
    have hkeep : ∀ i, m.Covers i → f'[i]? = f₁[i]? := fun i hi =>
      hmoved.outside i fun m' hm' => (hm m' hm').not_covers hi
    refine ⟨f', ?_, hmoved.length.trans hlen₁, fun i hi => ?_, fun front m' back hsplit => ?_⟩
    · rw [copyMoves, List.foldlM_cons, hcopy]
      exact hrest
    · rw [hmoved.outside i fun m' hm' => hi m' (List.mem_cons_of_mem _ hm'), hf₁, if_neg]
      exact hi m (by simp)
    · cases front with
      | nil =>
        obtain ⟨rfl, rfl⟩ : m = m' ∧ moves = back := by simpa using hsplit
        refine ⟨f, by simp, fun q hq => ?_⟩
        have hcovers : m.Covers (m.dst + q) := ⟨by omega, by omega⟩
        rw [hkeep _ hcovers, hf₁, if_pos hcovers, Nat.add_sub_cancel_left]
      | cons m₀ front =>
        obtain ⟨rfl, hsplit'⟩ : m = m₀ ∧ moves = front ++ m' :: back := by simpa using hsplit
        obtain ⟨g, hg, hwritten⟩ := hmoved.written front m' back hsplit'
        refine ⟨g, fun i => ?_, hwritten⟩
        rw [hg, hf₁]
        by_cases hi : m.Covers i
        · rw [if_pos (⟨m, by simp, hi⟩ : ∃ m' ∈ m :: front, m'.Covers i), hkeep i hi, hf₁]
          split_ifs <;> rfl
        · rw [if_neg hi]
          simp [hi]

/-- No byte outside `[lo, hi)` changes. -/
def KeptOutside (lo hi : Nat) (f f' : Bytes) : Prop :=
  f'.length = f.length ∧ ∀ i, i < lo ∨ hi ≤ i → f'[i]? = f[i]?

theorem KeptOutside.trans {lo hi : Nat} {f₁ f₂ f₃ : Bytes} (h : KeptOutside lo hi f₁ f₂)
    (h' : KeptOutside lo hi f₂ f₃) : KeptOutside lo hi f₁ f₃ :=
  ⟨h'.1.trans h.1, fun i hi => (h'.2 i hi).trans (h.2 i hi)⟩

/-- Moves into `[lo, hi)` keep the rest. -/
theorem Moved.keptOutside {lo hi : Nat} (h : Moved chunk moves f f')
    (hin : ∀ m ∈ moves, lo ≤ m.dst ∧ m.dst + m.len ≤ hi) : KeptOutside lo hi f f' := by
  refine ⟨h.length, fun i hi => h.outside i fun m hm hcovers => ?_⟩
  have := hin m hm
  unfold Move.Covers at hcovers
  omega

/-- A sequence of moves that never reads what an earlier one wrote. -/
theorem Moved.fresh (h : Moved chunk moves f f') {m : Move} (hm : m ∈ moves)
    (hfresh : ∀ front back, moves = front ++ m :: back →
      ∀ m' ∈ front, ∀ q < m.len, ¬ m'.Covers (m.src + q)) :
    ∀ q < m.len, f'[m.dst + q]? = forwardRead f chunk m.src m.dst q := by
  obtain ⟨front, back, hsplit⟩ := List.append_of_mem hm
  obtain ⟨g, hg, hwritten⟩ := h.written front m back hsplit
  intro q hq
  rw [hwritten q hq]
  refine forwardRead_congr (fun q hq => ?_) q hq
  rw [hg, if_neg]
  rintro ⟨m', hm', hcovers⟩
  exact hfresh front back hsplit m' hm' q hq hcovers

/-- Moves to earlier places, all by the same distance: they are faithful exactly
when no move changes a byte that a later one still reads. -/
theorem Moved.back_iff {dist : Nat} (hdist : 0 < dist) (h : Moved chunk moves f f')
    (hsrc : ∀ m ∈ moves, m.src = m.dst + dist) :
    (∀ m ∈ moves, ∀ q < m.len, f'[m.dst + q]? = f[m.src + q]?) ↔
      ∀ front m back, moves = front ++ m :: back → ∀ m' ∈ front, ∀ q < m.len,
        m'.Covers (m.src + q) → f[m.src + q + dist]? = f[m.src + q]? := by
  have hread : ∀ front m back, moves = front ++ m :: back → ∀ q < m.len,
      f'[m.dst + q]? =
        if ∃ m' ∈ front, m'.Covers (m.src + q) then f'[m.src + q]? else f[m.src + q]? := by
    intro front m back hsplit q hq
    obtain ⟨g, hg, hwritten⟩ := h.written front m back hsplit
    have hm := hsrc m (by simp [hsplit])
    rw [hwritten q hq, forwardRead_of_le (by omega), hg]
  constructor
  · intro hgood front m back hsplit m' hm' q hq hcovers
    have hmem : m ∈ moves := by simp [hsplit]
    have hmem' : m' ∈ moves := by simp [hsplit, hm']
    have hplace := hread front m back hsplit q hq
    rw [hgood m hmem q hq, if_pos ⟨m', hm', hcovers⟩] at hplace
    obtain ⟨k, hk⟩ : ∃ k, m.src + q = m'.dst + k := ⟨m.src + q - m'.dst, by
      have := hcovers.1
      omega⟩
    have hklt : k < m'.len := by
      have := hcovers.2
      omega
    rw [hplace, hk, hgood m' hmem' k hklt, hsrc m' hmem']
    congr 1
    omega
  · intro hsame
    -- from the back of the file to its front
    have hall : ∀ n, ∀ m ∈ moves, ∀ q < m.len, f.length ≤ m.dst + q + n →
        f'[m.dst + q]? = f[m.src + q]? := by
      intro n
      induction n with
      | zero =>
        intro m hm q hq hle
        have hm' := hsrc m hm
        have hlen := h.length
        rw [List.getElem?_eq_none (by omega), List.getElem?_eq_none (by omega)]
      | succ n ih =>
        intro m hm q hq hle
        obtain ⟨front, back, hsplit⟩ := List.append_of_mem hm
        rw [hread front m back hsplit q hq]
        split_ifs with hcovers
        · obtain ⟨m', hm', hcovers⟩ := hcovers
          have hmem' : m' ∈ moves := by simp [hsplit, hm']
          rw [← hsame front m back hsplit m' hm' q hq hcovers]
          obtain ⟨k, hk⟩ : ∃ k, m.src + q = m'.dst + k := ⟨m.src + q - m'.dst, by
            have := hcovers.1
            omega⟩
          have hklt : k < m'.len := by
            have := hcovers.2
            omega
          have hm'' := hsrc m hm
          rw [hk, ih m' hmem' k hklt (by omega), hsrc m' hmem']
          congr 1
          omega
        · rfl
    exact fun m hm q hq => hall f.length m hm q hq (by omega)

end

end RustFits.ByteFile
