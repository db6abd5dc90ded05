import Mathlib.Data.List.Nodup
import Mathlib.Data.List.ProdSigma
import RustFits.Lib.Outcome

/-!
# Loops over an array that is changed in place

A loop goes over jobs and changes one array, which it also reads.  What a job finds
there is what the array held at the start

* when job `k` writes cell `k` and reads no cell in front of it (`foldlM_forward`);
* when every job reads and writes cells of its own (`foldlM_disjoint`);
* when every job writes one cell, which no later job reads (`foldlM_writes`), as in moves
  of cells (`foldlM_moves`).

All follow from `foldlM_run`: what holds at the start and is kept by every job, with
the jobs that are done, holds at the end.  `foldlM_lines` is the rule for permutations of
lines that have no cell in common.

`grid` lists the blocks of a rectangle row by row, and `mem_grid_zipIdx` counts them.
-/

namespace RustFits

/-- The blocks of a rectangle, row by row. -/
def grid (p q : Nat) : List (Nat × Nat) := List.range p ×ˢ List.range q

@[simp] theorem mem_grid {p q : Nat} {block : Nat × Nat} :
    block ∈ grid p q ↔ block.1 < p ∧ block.2 < q := by
  simp [grid, List.product, SProd.sprod, Prod.ext_iff]

@[simp] theorem grid_length (p q : Nat) : (grid p q).length = p * q := by
  rw [grid, List.length_product, List.length_range, List.length_range]

theorem grid_nodup (p q : Nat) : (grid p q).Nodup := List.nodup_range.product List.nodup_range

theorem grid_succ (p q : Nat) :
    grid (p + 1) q = grid p q ++ (List.range q).map fun j => (p, j) := by
  show (List.range (p + 1)).flatMap (fun i => (List.range q).map (Prod.mk i)) = _
  rw [List.range_succ, List.flatMap_append, List.flatMap_singleton]
  rfl

/-- A block is found at its place. -/
theorem grid_getElem? {p q i j : Nat} (hi : i < p) (hj : j < q) :
    (grid p q)[q * i + j]? = some (i, j) := by
  induction p with
  | zero => omega
  | succ p ih =>
    rw [grid_succ]
    rcases Nat.lt_or_eq_of_le (Nat.le_of_lt_succ hi) with hlt | heq
    · have hin : q * i + j < (grid p q).length := by
        rw [grid_length]
        calc q * i + j < q * i + q := by omega
          _ = (i + 1) * q := by ring
          _ ≤ p * q := Nat.mul_le_mul_right q hlt
      rw [List.getElem?_append_left hin, ih hlt]
    · subst heq
      have hlen : q * i = i * q := Nat.mul_comm q i
      rw [List.getElem?_append_right (by rw [grid_length]; omega), grid_length, List.getElem?_map,
        List.getElem?_range (by omega)]
      simp
      omega

/-- The blocks are counted row by row. -/
theorem mem_grid_zipIdx {p q i j k : Nat} :
    ((i, j), k) ∈ (grid p q).zipIdx ↔ i < p ∧ j < q ∧ k = q * i + j := by
  rw [List.mem_zipIdx_iff_getElem?]
  refine ⟨fun h => ?_, fun h => by rw [h.2.2, grid_getElem? h.1 h.2.1]⟩
  have hk : k < p * q := by
    rw [← grid_length]
    exact (List.getElem?_eq_some_iff.1 h).1
  have hq : 0 < q := Nat.pos_of_mul_pos_left (Nat.lt_of_le_of_lt (Nat.zero_le k) hk)
  have hrow : k / q < p := Nat.div_lt_of_lt_mul (by rwa [Nat.mul_comm])
  have hcol : k % q < q := Nat.mod_lt k hq
  have hat := grid_getElem? hrow hcol
  rw [Nat.div_add_mod, h] at hat
  have hpair := Option.some.inj hat
  have h1 : i = k / q := congrArg Prod.fst hpair
  have h2 : j = k % q := congrArg Prod.snd hpair
  exact ⟨h1 ▸ hrow, h2 ▸ hcol, by rw [h1, h2, Nat.div_add_mod]⟩

theorem map_grid_getElem? {α : Type} {p q i j : Nat} (f : Nat × Nat → α) (hi : i < p) (hj : j < q) :
    ((grid p q).map f)[q * i + j]? = some (f (i, j)) := by
  rw [List.getElem?_map, grid_getElem? hi hj]
  rfl

theorem grid_pairwise {p q : Nat} {R : Nat × Nat → Nat × Nat → Prop} (h : ∀ b b', b ≠ b' → R b b') :
    (grid p q).Pairwise R := (grid_nodup p q).imp fun hne => h _ _ hne

theorem grid_zipIdx_pairwise {p q : Nat} {R : Nat × Nat → Nat × Nat → Prop}
    (h : ∀ b b', b ≠ b' → R b b') :
    (grid p q).zipIdx.Pairwise fun x y => R x.1 y.1 := by
  rw [← List.pairwise_map (f := Prod.fst), List.zipIdx_map_fst]
  exact grid_pairwise h

namespace Outcome

variable {ε α β σ : Type}

theorem getAt_of_some {l : List α} {i : Nat} {a : α} (h : l[i]? = some a) :
    (getAt l i : Outcome ε α) = .ok a := by
  rw [getAt, h]

/-- What holds at the start and is kept by every step holds at the end. -/
theorem foldlM_run {f : σ → β → Outcome ε σ} {l : List β} (P : List β → σ → Prop)
    (step : ∀ done x rest s, l = done ++ x :: rest → P done s →
      ∃ s', f s x = .ok s' ∧ P (done ++ [x]) s') {s : σ} (hs : P [] s) :
    ∃ s', l.foldlM f s = .ok s' ∧ P l s' := by
  suffices h : ∀ rest done s, l = done ++ rest → P done s →
      ∃ s', rest.foldlM f s = .ok s' ∧ P l s' from
    h l [] s rfl hs
  intro rest
  induction rest with
  | nil =>
    intro done s hl hP
    rw [List.append_nil] at hl
    exact ⟨s, rfl, hl ▸ hP⟩
  | cons x rest ih =>
    intro done s hl hP
    obtain ⟨s', hstep, hP'⟩ := step done x rest s hl hP
    have hl' : l = (done ++ [x]) ++ rest := by rw [hl, List.append_assoc, List.singleton_append]
    obtain ⟨out, hrun, hout⟩ := ih (done ++ [x]) s' hl' hP'
    refine ⟨out, ?_, hout⟩
    rw [List.foldlM_cons, hstep]
    exact hrun

/-- Job `k` writes cell `k` and reads no cell in front of it. -/
theorem foldlM_forward {f : List α → β × Nat → Outcome ε (List α)} {a : List α} {l : List β}
    (want : β → α) (hlen : l.length ≤ a.length)
    (step : ∀ x k, (x, k) ∈ l.zipIdx → ∀ s : List α, s.length = a.length →
      (∀ p, k ≤ p → s[p]? = a[p]?) → f s (x, k) = .ok (s.set k (want x))) :
    l.zipIdx.foldlM f a = .ok (l.map want ++ a.drop l.length) := by
  have hrun := foldlM_run (f := f) (l := l.zipIdx)
    (fun done s => s = (done.map Prod.fst).map want ++ a.drop done.length) ?_ (s := a) rfl
  · obtain ⟨s', hs', hP⟩ := hrun
    rw [hs', hP, List.length_zipIdx, List.zipIdx_map_fst]
  · intro done x rest s hl hs
    have hk : l.zipIdx[done.length]? = some x := by rw [hl]; simp
    have hat : l[done.length]? = some x.1 ∧ x.2 = done.length := by
      rw [List.getElem?_zipIdx] at hk
      obtain ⟨y, hy, hxy⟩ := Option.map_eq_some_iff.1 hk
      rw [← hxy]
      exact ⟨hy, Nat.zero_add _⟩
    have hlt : done.length < a.length :=
      Nat.lt_of_lt_of_le (List.getElem?_eq_some_iff.1 hat.1).1 hlen
    have hmem : (x.1, x.2) ∈ l.zipIdx := by
      rw [List.mem_zipIdx_iff_getElem?, hat.2]
      exact hat.1
    have hfront : ((done.map Prod.fst).map want).length = done.length := by
      rw [List.length_map, List.length_map]
    have hslen : s.length = a.length := by
      rw [hs, List.length_append, hfront, List.length_drop]
      omega
    have hsame : ∀ p, x.2 ≤ p → s[p]? = a[p]? := by
      intro p hp
      rw [hat.2] at hp
      rw [hs, List.getElem?_append_right (by rw [hfront]; exact hp), List.getElem?_drop, hfront,
        Nat.add_sub_cancel' hp]
    refine ⟨_, step x.1 x.2 hmem s hslen hsame, ?_⟩
    rw [hat.2, hs, List.set_append_right _ _ (by rw [hfront]), hfront, Nat.sub_self,
      List.drop_eq_getElem_cons hlt, List.set_cons_zero, List.map_append, List.map_append,
      List.append_assoc, List.length_append]
    rfl

/-- Every job reads and writes cells of its own. -/
theorem foldlM_disjoint {f : List α → β → Outcome ε (List α)} {a : List α} {l : List β}
    (own : β → Nat → Prop)
    (want : Nat → Option α) (hdisj : l.Pairwise fun x y => ∀ p, own x p → ¬ own y p)
    (step : ∀ x ∈ l, ∀ s : List α, s.length = a.length → (∀ p, own x p → s[p]? = a[p]?) →
      ∃ s', f s x = .ok s' ∧ s'.length = a.length ∧ (∀ p, own x p → s'[p]? = want p) ∧
        ∀ p, ¬ own x p → s'[p]? = s[p]?) :
    ∃ s', l.foldlM f a = .ok s' ∧ s'.length = a.length ∧ (∀ x ∈ l, ∀ p, own x p → s'[p]? = want p) ∧
      ∀ p, (∀ x ∈ l, ¬ own x p) → s'[p]? = a[p]? := by
  refine foldlM_run (fun done s => s.length = a.length ∧
    (∀ x ∈ done, ∀ p, own x p → s[p]? = want p) ∧
    ∀ p, (∀ x ∈ done, ¬ own x p) → s[p]? = a[p]?) ?_ ⟨rfl, fun _ h => (nomatch h), fun _ _ => rfl⟩
  intro done x rest s hl hP
  have hx : x ∈ l := by rw [hl]; simp
  have hapart : ∀ y ∈ done, ∀ p, own y p → ¬ own x p := by
    rw [hl, List.pairwise_append] at hdisj
    exact fun y hy => hdisj.2.2 y hy x List.mem_cons_self
  have hfound : ∀ p, own x p → s[p]? = a[p]? :=
    fun p hp => hP.2.2 p fun y hy hown => hapart y hy p hown hp
  obtain ⟨s', hstep, hlen, hwant, hkeep⟩ := step x hx s hP.1 hfound
  refine ⟨s', hstep, hlen, ?_, ?_⟩
  · intro y hy p hp
    rcases List.mem_append.1 hy with hdone | hlast
    · rw [hkeep p (hapart y hdone p hp), hP.2.1 y hdone p hp]
    · rw [List.mem_singleton.1 hlast] at hp
      exact hwant p hp
  · intro p hp
    rw [hkeep p (hp x (by simp)), hP.2.2 p fun y hy => hp y (List.mem_append_left _ hy)]

/-- Every job writes one cell, which no later job reads. -/
theorem foldlM_writes {f : List α → β → Outcome ε (List α)} {a : List α} {l : List β}
    (dst : β → Nat) (val : β → α)
    (reads : β → Nat → Prop) (hapart : l.Pairwise fun x y => dst x ≠ dst y ∧ ¬ reads y (dst x))
    (step : ∀ x ∈ l, dst x < a.length ∧ ∀ s : List α, s.length = a.length →
      (∀ p, reads x p → s[p]? = a[p]?) →
      f s x = .ok (s.set (dst x) (val x))) :
    ∃ s', l.foldlM f a = .ok s' ∧ s'.length = a.length ∧ (∀ x ∈ l, s'[dst x]? = some (val x)) ∧
      ∀ p, (∀ x ∈ l, p ≠ dst x) → s'[p]? = a[p]? := by
  refine foldlM_run (fun done s => s.length = a.length ∧ (∀ x ∈ done, s[dst x]? = some (val x)) ∧
    ∀ p, (∀ x ∈ done, p ≠ dst x) → s[p]? = a[p]?) ?_ ⟨rfl, fun _ h => (nomatch h), fun _ _ => rfl⟩
  intro done x rest s hl hP
  have hx : x ∈ l := by rw [hl]; simp
  have hearlier : ∀ y ∈ done, dst y ≠ dst x ∧ ¬ reads x (dst y) := by
    rw [hl, List.pairwise_append] at hapart
    exact fun y hy => hapart.2.2 y hy x List.mem_cons_self
  obtain ⟨hin, hrun⟩ := step x hx
  refine ⟨_, hrun s hP.1 fun p hp => hP.2.2 p fun y hy heq =>
    (hearlier y hy).2 (heq ▸ hp), ?_, ?_, ?_⟩
  · rw [List.length_set, hP.1]
  · intro y hy
    rcases List.mem_append.1 hy with hdone | hlast
    · rw [List.getElem?_set_ne (hearlier y hdone).1.symm, hP.2.1 y hdone]
    · rw [List.mem_singleton.1 hlast, List.getElem?_set_self (by rw [hP.1]; exact hin)]
  · intro p hp
    rw [List.getElem?_set_ne (hp x (by simp)).symm, hP.2.2 p fun y hy =>
      hp y (List.mem_append_left _ hy)]

/-- Cells are moved, and none is overwritten before it is moved. -/
theorem foldlM_moves {a : List α} {l : List β} (src dst : β → Nat)
    (hapart : l.Pairwise fun x y => dst x ≠ dst y ∧ src y ≠ dst x)
    (hin : ∀ x ∈ l, src x < a.length ∧ dst x < a.length) :
    ∃ s', (l.foldlM (fun a x => do
        let v ← getAt a (src x)
        setAt a (dst x) v) a : Outcome ε (List α)) = .ok s' ∧
      s'.length = a.length ∧ (∀ x ∈ l, s'[dst x]? = a[src x]?) ∧ ∀ p, (∀ x ∈ l, p ≠ dst x) →
      s'[p]? = a[p]? := by
  rcases List.eq_nil_or_concat l with hnil | ⟨front, last, hlast⟩
  · rw [hnil]
    exact ⟨a, rfl, rfl, fun _ h => (nomatch h), fun _ _ => rfl⟩
  have hsome : src last < a.length := (hin last (by rw [hlast]; simp)).1
  have hat : ∀ x ∈ l, a[src x]? = some (a.getD (src x) a[src last]) := fun x hx => by
    rw [List.getD_eq_getElem _ _ (hin x hx).1]
    exact List.getElem?_eq_getElem (hin x hx).1
  obtain ⟨s', hrun, hlen, hmoved, hkeep⟩ := foldlM_writes (ε := ε) (a := a) (f := fun a x => do
      let v ← getAt a (src x)
      setAt a (dst x) v) dst (fun x => a.getD (src x) a[src last]) (fun x p => p = src x)
    (hapart.imp fun h => ⟨h.1, fun heq => h.2 heq.symm⟩) fun x hx =>
      ⟨(hin x hx).2, fun s hs hsame => by
      rw [getAt_of_some ((hsame _ rfl).trans (hat x hx)), ok_bind,
        setAt_of_lt (by rw [hs]; exact (hin x hx).2)]⟩
  exact ⟨s', hrun, hlen, fun x hx => by rw [hmoved x hx, hat x hx], hkeep⟩

theorem mapM_of_ok {f : β → Outcome ε α} {g : β → α} {l : List β} (h : ∀ x ∈ l, f x = .ok (g x)) :
    l.mapM f = .ok (l.map g) := by
  induction l with
  | nil => rfl
  | cons x l ih =>
    rw [List.mapM_cons, h x List.mem_cons_self, ok_bind, ih fun y hy =>
      h y (List.mem_cons_of_mem x hy)]
    rfl

theorem mapM_getAt {a : List α} {l : List β} (src : β → Nat) (d : α)
    (hin : ∀ x ∈ l, src x < a.length) :
    (l.mapM fun x => (getAt a (src x) : Outcome ε α)) = .ok (l.map fun x => a.getD (src x) d) :=
  mapM_of_ok fun x hx => getAt_of_lt (hin x hx) d

/-- Every job permutes the cells of a line of its own. -/
theorem foldlM_lines {f : List α → Nat → Outcome ε (List α)} {a : List α} {count len : Nat}
    (place : Nat → Nat → Nat) (pick : Nat → Nat) (hpick : ∀ j < len, pick j < len)
    (hapart : ∀ t < count, ∀ t' < count, ∀ j < len, ∀ j' < len, place t j = place t' j' → t = t')
    (step : ∀ t < count, ∀ s : List α, s.length = a.length → ∃ s', f s t = .ok s' ∧
      s'.length = s.length ∧
      (∀ j < len, s'[place t j]? = s[place t (pick j)]?) ∧ ∀ p, (∀ j < len, p ≠ place t j) →
      s'[p]? = s[p]?) :
    ∃ s', (List.range count).foldlM f a = .ok s' ∧ s'.length = a.length ∧
      (∀ t < count, ∀ j < len, s'[place t j]? = a[place t (pick j)]?) ∧
      ∀ p, (∀ t < count, ∀ j < len, p ≠ place t j) → s'[p]? = a[p]? := by
  have hrun := foldlM_run (f := f) (l := List.range count) (s := a)
    (fun done s => s.length = a.length ∧
      (∀ t ∈ done, ∀ j < len, s[place t j]? = a[place t (pick j)]?) ∧
      ∀ p, (∀ t ∈ done, ∀ j < len, p ≠ place t j) → s[p]? = a[p]?) ?_ ⟨rfl, fun _ h => (nomatch h),
      fun _ _ => rfl⟩
  · obtain ⟨s', hs', hlen, hmoved, hkeep⟩ := hrun
    exact ⟨s', hs', hlen, fun t ht => hmoved t (List.mem_range.2 ht),
      fun p hp => hkeep p fun t ht => hp t (List.mem_range.1 ht)⟩
  intro done t rest s hl hP
  have hin : ∀ u ∈ done ++ [t], u < count := fun u hu => List.mem_range.1 (by
    rw [hl, ← List.singleton_append, ← List.append_assoc]
    exact List.mem_append_left _ hu)
  have hother : ∀ u ∈ done, u ≠ t := by
    have hnodup := List.nodup_range (n := count)
    rw [hl, List.nodup_append] at hnodup
    exact fun u hu => hnodup.2.2 u hu t List.mem_cons_self
  have ht := hin t (by simp)
  obtain ⟨s', hstep, hlen, hmoved, hkeep⟩ := step t ht s hP.1
  refine ⟨s', hstep, hlen.trans hP.1, ?_, ?_⟩
  · intro u hu j hj
    rcases List.mem_append.1 hu with hdone | hlast
    · rw [hkeep _ fun j' hj' heq => hother u hdone (hapart u (hin u hu) t ht j hj j' hj' heq),
        hP.2.1 u hdone j hj]
    · rw [List.mem_singleton.1 hlast, hmoved j hj]
      refine hP.2.2 _ fun v hv j' hj' heq => hother v hv ?_
      have hv := hin v (List.mem_append_left _ hv)
      exact (hapart t ht v hv (pick j) (hpick j hj) j' hj' heq).symm
  · intro p hp
    rw [hkeep p (hp t (by simp)), hP.2.2 p fun u hu => hp u (List.mem_append_left _ hu)]

end Outcome

end RustFits
