import Mathlib.Data.List.GetD
import Mathlib.Data.List.Induction
import RustFits.Lib.Elements

/-!
# Elements written apart

Elements of one width are written into a file, each at its own place.  The places are
counted in elements from `base` on, and come in any order.

A write may start behind the end of the file, which is then filled with zero bytes, so a
file is compared byte by byte through `List.getD`.

* `writeAll_append_data` and `writeAll_elements` cut one write into the writes of its
  elements.
* `Scattered` says what a file is after elements have been written to distinct places;
  `scatter_scattered` that the loop does it.
-/

namespace RustFits.ByteFile

/-! ## One write -/

section

variable {f data e : Bytes} {off a n i : Nat}

/-- The bytes in front of a write. -/
def writeFront (f : Bytes) (off : Nat) : Bytes := f.take off ++ List.replicate (off - f.length) 0

theorem writeFront_length (f : Bytes) (off : Nat) : (writeFront f off).length = off := by
  rw [writeFront, List.length_append, List.length_take, List.length_replicate]
  omega

theorem writeFront_getD (h : i < off) : (writeFront f off).getD i 0 = f.getD i 0 := by
  rcases Nat.lt_or_ge i f.length with hin | hout
  · rw [writeFront, List.getD_append _ _ _ _ (by rw [List.length_take]; omega),
      List.getD_eq_getElem?_getD, List.getElem?_take_of_lt h, List.getD_eq_getElem?_getD]
  · rw [writeFront, List.getD_append_right _ _ _ _ (by rw [List.length_take]; omega),
      List.getD_eq_default f 0 hout, List.getD_eq_getElem?_getD, List.getElem?_replicate]
    split_ifs <;> rfl

theorem writeAll_eq_front (h : data ≠ []) :
    writeAll f off data = writeFront f off ++ (data ++ f.drop (off + data.length)) := by
  rw [writeAll, if_neg (by simpa using h), writeFront, List.append_assoc _ data]

theorem writeAll_getD (i : Nat) :
    (writeAll f off data).getD i 0 =
      if off ≤ i ∧ i < off + data.length then data.getD (i - off) 0 else f.getD i 0 := by
  by_cases hd : data = []
  · subst hd
    rw [writeAll_nil, if_neg (by simp)]
  · rw [writeAll_eq_front hd]
    rcases Nat.lt_or_ge i off with hlt | hge
    · rw [List.getD_append _ _ _ _ (by rw [writeFront_length]; exact hlt), writeFront_getD hlt,
        if_neg (by omega)]
    · rw [List.getD_append_right _ _ _ _ (by rw [writeFront_length]; exact hge), writeFront_length]
      rcases Nat.lt_or_ge i (off + data.length) with hin | hout
      · rw [List.getD_append _ _ _ _ (by omega), if_pos ⟨hge, hin⟩]
      · rw [List.getD_append_right _ _ _ _ (by omega), if_neg (by omega),
          List.getD_eq_getElem?_getD, List.getD_eq_getElem?_getD, List.getElem?_drop]
        congr 2
        omega

theorem length_writeAll (h : data ≠ []) :
    (writeAll f off data).length = max f.length (off + data.length) := by
  rw [writeAll_eq_front h, List.length_append, List.length_append, writeFront_length,
    List.length_drop]
  omega

/-- Two files with the same bytes. -/
theorem eq_of_getD {f g : Bytes} (hlen : f.length = g.length)
    (h : ∀ i < f.length, f.getD i 0 = g.getD i 0) : f = g := by
  apply List.ext_getElem hlen
  intro i hf hg
  have hi := h i hf
  rwa [List.getD_eq_getElem _ _ hf, List.getD_eq_getElem _ _ hg] at hi

theorem slice_getD (h : i < n) : (slice f a n).getD i 0 = f.getD (a + i) 0 := by
  rw [List.getD_eq_getElem?_getD, slice_getElem?, if_pos h, List.getD_eq_getElem?_getD]

theorem slice_length_of_le (h : a + n ≤ f.length) : (slice f a n).length = n := by
  rw [slice_length]
  omega

/-- One write after the other, end to end. -/
theorem writeAll_append_data : writeAll (writeAll f off data) (off + data.length) e =
    writeAll f off (data ++ e) := by
  by_cases hd : data = []
  · subst hd
    rw [writeAll_nil, List.length_nil, Nat.add_zero, List.nil_append]
  by_cases he : e = []
  · subst he
    rw [writeAll_nil, List.append_nil]
  apply eq_of_getD
  · rw [length_writeAll he, length_writeAll hd, length_writeAll (by simp [hd]), List.length_append]
    omega
  · intro i _
    simp only [writeAll_getD, List.length_append]
    split_ifs with h1 h2 h3 h4 h5
    · rw [List.getD_append_right _ _ _ _ (by omega), Nat.sub_add_eq]
    · omega
    · rw [List.getD_append _ _ _ _ (by omega)]
    · omega
    · omega
    · rfl

/-- What a write has stored. -/
theorem slice_writeAll_stored (hn : data.length = n) :
    slice (writeAll f off data) off n = data := by
  by_cases hd : data = []
  · subst hd
    rw [← hn]
    exact slice_zero _ _
  have hlen := @length_writeAll f data off hd
  have hslice : (slice (writeAll f off data) off n).length = n := slice_length_of_le (by omega)
  apply eq_of_getD (hslice.trans hn.symm)
  intro i hi
  rw [hslice] at hi
  rw [slice_getD hi, writeAll_getD, if_pos (by omega), Nat.add_sub_cancel_left]

/-- What a write elsewhere has left. -/
theorem slice_writeAll_left (hin : a + n ≤ f.length) (h : a + n ≤ off ∨ off + data.length ≤ a) :
    slice (writeAll f off data) a n = slice f a n := by
  have hge := length_le_writeAll f off data
  have hslice : (slice (writeAll f off data) a n).length = n := slice_length_of_le (by omega)
  apply eq_of_getD (hslice.trans (slice_length_of_le hin).symm)
  intro i hi
  rw [hslice] at hi
  rw [slice_getD hi, slice_getD hi, writeAll_getD, if_neg (by omega)]

end

/-! ## Many writes -/

/-- Write each element at its place. -/
def scatter (w base : Nat) (jobs : List (Nat × Bytes)) (f : Bytes) : Bytes :=
  jobs.foldl (fun f job => writeAll f (base + job.1 * w) job.2) f

/-- The file after elements have been written to their places: nothing else has changed,
and it is not longer than it has to be. -/
structure Scattered (w base room : Nat) (jobs : List (Nat × Bytes)) (f f' : Bytes) : Prop where
  stored : ∀ job ∈ jobs, slice f' (base + job.1 * w) w = job.2
  other : ∀ i, (∀ job ∈ jobs, i < base + job.1 * w ∨ base + (job.1 + 1) * w ≤ i) →
    f'.getD i 0 = f.getD i 0
  length_ge : f.length ≤ f'.length
  length_le : f'.length ≤ max f.length (base + room * w)

section

variable {w base room n p : Nat} {jobs : List (Nat × Bytes)} {f f' : Bytes}

/-- One write as the writes of its elements. -/
theorem writeAll_elements {g : Nat → Bytes} (hlen : ∀ k < n, (g k).length = w) :
    writeAll f (base + p * w) ((List.range n).flatMap g) =
      scatter w base ((List.range n).map fun k => (p + k, g k)) f := by
  induction n with
  | zero => exact writeAll_nil _ _
  | succ n ih =>
    have hfront : ((List.range n).flatMap g).length = n * w :=
      elements_length fun k hk => hlen k (Nat.lt_succ_of_lt hk)
    have hplace : base + (p + n) * w = base + p * w + n * w := by rw [Nat.add_mul, Nat.add_assoc]
    rw [List.range_succ, List.flatMap_append, List.flatMap_singleton, ← writeAll_append_data,
      ih fun k hk => hlen k (Nat.lt_succ_of_lt hk), hfront, List.map_append, scatter, scatter,
      List.foldl_append, ← hplace]
    rfl

theorem scatter_append (more : List (Nat × Bytes)) :
    scatter w base (jobs ++ more) f = scatter w base more (scatter w base jobs f) :=
  List.foldl_append

/-- Places that differ do not overlap. -/
theorem apart_of_ne {p q : Nat} (h : p ≠ q) :
    base + p * w + w ≤ base + q * w ∨ base + q * w + w ≤ base + p * w := by
  rcases Nat.lt_or_gt_of_ne h with hlt | hgt
  · have := Nat.mul_le_mul_right w (Nat.succ_le_of_lt hlt)
    rw [Nat.succ_mul] at this
    omega
  · have := Nat.mul_le_mul_right w (Nat.succ_le_of_lt hgt)
    rw [Nat.succ_mul] at this
    omega

/-- One element more. -/
theorem Scattered.snoc {job : Nat × Bytes} (hw : 0 < w) (hlen : job.2.length = w)
    (hroom : job.1 < room) (hnew : ∀ old ∈ jobs, old.1 ≠ job.1)
    (hin : ∀ old ∈ jobs, base + old.1 * w + w ≤ f'.length) (h : Scattered w base room jobs f f') :
    Scattered w base room (jobs ++ [job]) f (writeAll f' (base + job.1 * w) job.2) where
  stored old hold := by
    rcases List.mem_append.1 hold with hold | hold
    · rw [slice_writeAll_left (hin old hold) (by rw [hlen]; exact apart_of_ne (hnew old hold)),
        h.stored old hold]
    · rw [List.mem_singleton.1 hold, slice_writeAll_stored hlen]
  other i hi := by
    have hlast := hi job (by simp)
    rw [Nat.succ_mul] at hlast
    rw [writeAll_getD, if_neg (by omega)]
    exact h.other i fun old hold => hi old (List.mem_append_left _ hold)
  length_ge := Nat.le_trans h.length_ge (length_le_writeAll _ _ _)
  length_le := by
    have hne : job.2 ≠ [] := by
      intro hnil
      rw [hnil, List.length_nil] at hlen
      omega
    have hle := Nat.mul_le_mul_right w (Nat.succ_le_of_lt hroom)
    have hold := h.length_le
    rw [Nat.succ_mul] at hle
    rw [length_writeAll hne]
    omega

/-- An element that no write is for. -/
theorem Scattered.slice_other (h : Scattered w base room jobs f f') (hp : ∀ job ∈ jobs, job.1 ≠ p)
    (hin : base + p * w + w ≤ f.length) : slice f' (base + p * w) w = slice f (base + p * w) w := by
  have hlen := slice_length_of_le hin
  have hlen' := slice_length_of_le (Nat.le_trans hin h.length_ge)
  refine eq_of_getD (Eq.trans hlen' hlen.symm) fun i hi => ?_
  rw [hlen'] at hi
  rw [slice_getD hi, slice_getD hi]
  refine h.other _ fun job hjob => ?_
  have hapart := @apart_of_ne w base job.1 p (hp job hjob)
  rw [Nat.succ_mul]
  omega

theorem Scattered.length_eq (h : Scattered w base room jobs f f')
    (hroom : base + room * w ≤ f.length) :
    f'.length = f.length := by
  have hge := h.length_ge
  have hle := h.length_le
  omega

/-- What lies in front of the elements. -/
theorem Scattered.take_base (h : Scattered w base room jobs f f')
    (hroom : base + room * w ≤ f.length) :
    f'.take base = f.take base := by
  have hlen := h.length_eq hroom
  refine eq_of_getD (by rw [List.length_take, List.length_take, hlen]) fun i hi => ?_
  rw [List.length_take] at hi
  have hsame := h.other i fun job _ => .inl (by omega)
  simpa [List.getD_eq_getElem?_getD, List.getElem?_take, show i < base by omega] using hsame

/-- What lies behind the elements. -/
theorem Scattered.drop_room (h : Scattered w base room jobs f f')
    (hroom : base + room * w ≤ f.length)
    (hjobs : ∀ job ∈ jobs, job.1 < room) :
    f'.drop (base + room * w) = f.drop (base + room * w) := by
  have hlen := h.length_eq hroom
  refine eq_of_getD (by rw [List.length_drop, List.length_drop, hlen]) fun i hi => ?_
  have hsame := h.other (base + room * w + i) fun job hjob => .inr (by
    have hle := Nat.mul_le_mul_right w (Nat.succ_le_of_lt (hjobs job hjob))
    rw [Nat.succ_eq_add_one] at hle
    omega)
  simpa [List.getD_eq_getElem?_getD, List.getElem?_drop] using hsame

theorem scatter_length_ge (jobs : List (Nat × Bytes)) (f : Bytes) :
    f.length ≤ (scatter w base jobs f).length := by
  induction jobs generalizing f with
  | nil => exact Nat.le_refl _
  | cons job jobs ih => exact Nat.le_trans (length_le_writeAll _ _ _) (ih _)

/-- The places are in the file afterwards. -/
theorem scatter_covers (hw : 0 < w) (hlen : ∀ job ∈ jobs, job.2.length = w) :
    ∀ job ∈ jobs, base + job.1 * w + w ≤ (scatter w base jobs f).length := by
  induction jobs generalizing f with
  | nil => simp
  | cons first jobs ih =>
    rw [List.forall_mem_cons] at hlen ⊢
    refine ⟨?_, fun job hjob => ih hlen.2 job hjob⟩
    have hne : first.2 ≠ [] := by
      intro hnil
      rw [hnil, List.length_nil] at hlen
      omega
    have hfirst := @length_writeAll f first.2 (base + first.1 * w) hne
    have hge := @scatter_length_ge w base jobs (writeAll f (base + first.1 * w) first.2)
    have hdef : scatter w base (first :: jobs) f =
        scatter w base jobs (writeAll f (base + first.1 * w) first.2) := rfl
    rw [hdef]
    omega

/-- The loop over distinct places. -/
theorem scatter_scattered (hw : 0 < w) (hlen : ∀ job ∈ jobs, job.2.length = w)
    (hroom : ∀ job ∈ jobs, job.1 < room) (hnodup : (jobs.map Prod.fst).Nodup) :
    Scattered w base room jobs f (scatter w base jobs f) := by
  induction jobs using List.reverseRecOn with
  | nil =>
    exact ⟨by simp, fun _ _ => rfl, Nat.le_refl _, Nat.le_max_left _ _⟩
  | append_singleton jobs job ih =>
    rw [List.map_append, List.nodup_append] at hnodup
    have hfront := fun old hold => hlen old (List.mem_append_left [job] hold)
    have hold := ih hfront (fun old hold => hroom old (List.mem_append_left [job] hold)) hnodup.1
    rw [scatter_append]
    refine hold.snoc hw (hlen job (by simp)) (hroom job (by simp)) ?_ (scatter_covers hw hfront)
    intro old hmem
    exact hnodup.2.2 old.1 (List.mem_map_of_mem hmem) job.1 (by simp)

end

end RustFits.ByteFile
