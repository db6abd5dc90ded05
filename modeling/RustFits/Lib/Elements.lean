import RustFits.Lib.ByteFile

/-!
# Elements of one width

Buffers are filled by loops that write one piece after the other.

* `mapElements` converts a buffer element by element.  Two conversions compose
  (`mapElements_mapElements`).
* `foldlM_elements` is the loop that writes elements one behind the other: it is one
  write of all of them.  `foldlM_inPlace` is the loop that converts them where they are.
* `foldlM_slots` is the loop over pieces that lie apart from each other, in any order.
-/

namespace RustFits

open ByteFile

/-- The first `n` elements of `w` bytes, each converted. -/
def mapElements (n w : Nat) (f : Bytes → Bytes) (src : Bytes) : Bytes :=
  (List.range n).flatMap fun k => f (slice src (k * w) w)

/-- Reverse the bytes of each element, in place. -/
def byteswapInPlace (buf : Bytes) (itemsize : Nat) : Bytes :=
  if _h : 1 < itemsize ∧ itemsize ≤ buf.length then
    (buf.take itemsize).reverse ++ byteswapInPlace (buf.drop itemsize) itemsize
  else buf
termination_by buf.length
decreasing_by
  rw [List.length_drop]
  omega

section

variable {ε : Type} {g : Nat → Bytes} {f f' : Bytes → Bytes} {off n w v : Nat} {src dst : Bytes}

theorem elements_length (hlen : ∀ k < n, (g k).length = v) :
    ((List.range n).flatMap g).length = n * v := by
  rw [flatMap_length_of_width (w := v) fun k hk => hlen k (List.mem_range.1 hk), List.length_range]

theorem slice_element_length (h : n * w ≤ src.length) {k : Nat} (hk : k < n) :
    (slice src (k * w) w).length = w := by
  have : (k + 1) * w ≤ n * w := Nat.mul_le_mul_right w hk
  rw [Nat.succ_mul] at this
  rw [slice_length]
  omega

theorem mapElements_length (hsrc : n * w ≤ src.length)
    (hf : ∀ e : Bytes, e.length = w → (f e).length = v) : (mapElements n w f src).length = n * v :=
  elements_length fun _ hk => hf _ (slice_element_length hsrc hk)

/-- Only the elements count. -/
theorem mapElements_congr (h : ∀ k < n, f (slice src (k * w) w) = f' (slice src (k * w) w)) :
    mapElements n w f src = mapElements n w f' src := by
  unfold mapElements
  rw [List.flatMap_def, List.flatMap_def]
  congr 1
  exact List.map_congr_left fun k hk => h k (List.mem_range.1 hk)

theorem mapElements_id (h : src.length = n * w) : mapElements n w id src = src := by
  induction n generalizing src with
  | zero => rw [Nat.zero_mul] at h; rw [List.length_eq_zero_iff.1 h]; rfl
  | succ n ih =>
    rw [Nat.succ_mul] at h
    have hfront : (src.take (n * w)).length = n * w := by rw [List.length_take]; omega
    have hsame : mapElements n w id src = mapElements n w id (src.take (n * w)) := by
      unfold mapElements
      rw [List.flatMap_def, List.flatMap_def]
      congr 1
      apply List.map_congr_left
      intro k hk
      have hle : (k + 1) * w ≤ n * w := Nat.mul_le_mul_right w (List.mem_range.1 hk)
      rw [Nat.succ_mul] at hle
      have := slice_slice (f := src) (a := 0) (n := n * w) (b := k * w) (m := w) hle
      rw [Nat.zero_add] at this
      simpa [slice] using this.symm
    have hlast : slice src (n * w) w = src.drop (n * w) := by
      rw [slice, List.take_of_length_le (by rw [List.length_drop]; omega)]
    have hsplit : mapElements (n + 1) w id src = mapElements n w id src ++ slice src (n * w) w := by
      unfold mapElements
      rw [List.range_succ, List.flatMap_append, List.flatMap_singleton]
      rfl
    rw [hsplit, hsame, ih hfront, hlast, List.take_append_drop]

/-- One conversion after the other. -/
theorem mapElements_mapElements (hsrc : n * w ≤ src.length)
    (hf : ∀ e : Bytes, e.length = w → (f e).length = v) :
    mapElements n v f' (mapElements n w f src) = mapElements n w (fun e => f' (f e)) src := by
  unfold mapElements
  rw [List.flatMap_def, List.flatMap_def]
  congr 1
  apply List.map_congr_left
  intro k hk
  have hwidth : ∀ j ∈ List.range n, (f (slice src (j * w) w)).length = v := fun j hj =>
    hf _ (slice_element_length hsrc (List.mem_range.1 hj))
  have hget : (List.range n)[k]? = some k := List.getElem?_range (List.mem_range.1 hk)
  exact congrArg f' (slice_flatMap hwidth hget)

/-- Element `k` of a conversion. -/
theorem slice_mapElements (hsrc : n * w ≤ src.length)
    (hf : ∀ e : Bytes, e.length = w → (f e).length = v) {k : Nat} (hk : k < n) :
    slice (mapElements n w f src) (k * v) v = f (slice src (k * w) w) :=
  slice_flatMap (fun _ hj => hf _ (slice_element_length hsrc (List.mem_range.1 hj)))
    (List.getElem?_range hk)

theorem mapElements_succ_front :
    mapElements (n + 1) w f src = f (src.take w) ++ mapElements n w f (src.drop w) := by
  have hfirst : slice src (0 * w) w = src.take w := by rw [Nat.zero_mul]; rfl
  have hrest (k : Nat) : slice src ((k + 1) * w) w = slice (src.drop w) (k * w) w := by
    rw [slice, slice, List.drop_drop, Nat.succ_mul, Nat.add_comm w]
  unfold mapElements
  rw [List.range_succ_eq_map, List.flatMap_cons, hfirst, List.flatMap_map]
  simp only [Nat.succ_eq_add_one, hrest]

theorem byteswapInPlace_eq (hw : 1 < w) (h : src.length = n * w) :
    byteswapInPlace src w = mapElements n w List.reverse src := by
  induction n generalizing src with
  | zero =>
    rw [Nat.zero_mul] at h
    rw [byteswapInPlace, dif_neg (by omega), List.length_eq_zero_iff.1 h]
    rfl
  | succ n ih =>
    rw [Nat.succ_mul] at h
    rw [byteswapInPlace, dif_pos ⟨hw, by omega⟩, mapElements_succ_front,
      ih (by rw [List.length_drop]; omega)]

/-- A conversion that is undone. -/
theorem mapElements_inverse (hsrc : src.length = n * w)
    (hf : ∀ e : Bytes, e.length = w → (f e).length = v)
    (hback : ∀ k < n, f' (f (slice src (k * w) w)) = slice src (k * w) w) :
    mapElements n v f' (mapElements n w f src) = src := by
  have hsame : mapElements n w (fun e => f' (f e)) src = mapElements n w id src :=
    mapElements_congr hback
  rw [mapElements_mapElements (Nat.le_of_eq hsrc.symm) hf]
  exact hsame.trans (mapElements_id hsrc)

/-! ## Loops -/

/-- The elements of a loop, from `off` on. -/
theorem foldlM_elements {step : Bytes → Nat → Except ε Bytes} (hlen : ∀ k < n, (g k).length = v)
    (hfit : off + n * v ≤ dst.length)
    (hstep : ∀ k < n, ∀ buf : Bytes, buf.length = dst.length →
      step buf k = .ok (writeAll buf (off + k * v) (g k))) :
    (List.range n).foldlM step dst = .ok (writeAll dst off ((List.range n).flatMap g)) := by
  induction n with
  | zero => rfl
  | succ n ih =>
    rw [Nat.succ_mul] at hfit
    have hfront : ((List.range n).flatMap g).length = n * v :=
      elements_length fun k hk => hlen k (Nat.lt_succ_of_lt hk)
    have hbuf : (writeAll dst off ((List.range n).flatMap g)).length = dst.length :=
      writeAll_length_of_le (by omega)
    rw [List.range_succ, List.foldlM_append,
      ih (fun k hk => hlen k (Nat.lt_succ_of_lt hk)) (by omega)
        fun k hk => hstep k (Nat.lt_succ_of_lt hk)]
    simp only [Bind.bind, Except.bind, List.foldlM_cons, List.foldlM_nil]
    rw [hstep n (Nat.lt_succ_self n) _ hbuf, ← hfront, writeAll_writeAll_append (by omega),
      List.flatMap_append, List.flatMap_singleton]
    rfl

/-- The loop that converts the elements from `off` on where they are. -/
theorem foldlM_inPlace {step : Bytes → Nat → Except ε Bytes}
    (hf : ∀ e : Bytes, e.length = w → (f e).length = w) (hfit : off + n * w ≤ dst.length)
    (hstep : ∀ k < n, ∀ buf : Bytes, buf.length = dst.length →
      step buf k = .ok (writeAll buf (off + k * w) (f (slice buf (off + k * w) w)))) :
    (List.range n).foldlM step dst =
      .ok (writeAll dst off (mapElements n w f (slice dst off (n * w)))) := by
  induction n with
  | zero => rfl
  | succ n ih =>
    have hall : (n + 1) * w = n * w + w := Nat.succ_mul n w
    have hsrc : ((slice dst off (n * w))).length = n * w := by rw [slice_length]; omega
    have hfront : (mapElements n w f (slice dst off (n * w))).length = n * w :=
      mapElements_length (Nat.le_of_eq hsrc.symm) hf
    have hbuf :
        (writeAll dst off (mapElements n w f (slice dst off (n * w)))).length = dst.length :=
      writeAll_length_of_le (by omega)
    -- the element of this step is as it was at the start
    have hthere :
        slice (writeAll dst off (mapElements n w f (slice dst off (n * w)))) (off + n * w) w =
        slice dst (off + n * w) w :=
      slice_writeAll_of_disjoint (by omega) (.inr (by omega))
    have hlast : slice (slice dst off ((n + 1) * w)) (n * w) w = slice dst (off + n * w) w :=
      slice_slice (by omega)
    have hsame : mapElements n w f (slice dst off ((n + 1) * w)) =
        mapElements n w f (slice dst off (n * w)) := by
      unfold mapElements
      rw [List.flatMap_def, List.flatMap_def]
      congr 1
      apply List.map_congr_left
      intro k hk
      have hle : (k + 1) * w ≤ n * w := Nat.mul_le_mul_right w (List.mem_range.1 hk)
      rw [Nat.succ_mul] at hle
      rw [slice_slice (by omega), slice_slice (by omega)]
    have hsplit : mapElements (n + 1) w f (slice dst off ((n + 1) * w)) =
        mapElements n w f (slice dst off (n * w)) ++ f (slice dst (off + n * w) w) := by
      rw [← hsame, ← hlast]
      unfold mapElements
      rw [List.range_succ, List.flatMap_append, List.flatMap_singleton]
    rw [List.range_succ, List.foldlM_append,
      ih (by omega) fun k hk => hstep k (Nat.lt_succ_of_lt hk)]
    simp only [Bind.bind, Except.bind, List.foldlM_cons, List.foldlM_nil]
    rw [hstep n (Nat.lt_succ_self n) _ hbuf, hthere, hsplit,
      ← writeAll_writeAll_append (show off ≤ dst.length by omega), hfront]
    rfl

/-- Writing at the start of a buffer. -/
theorem writeAll_front (data : Bytes) : writeAll dst 0 data = data ++ dst.drop data.length := by
  cases data with
  | nil => rfl
  | cons b data => simp [writeAll]

/-- Writing over all of a buffer. -/
theorem writeAll_whole {data : Bytes} (h : data.length = dst.length) :
    writeAll dst 0 data = data := by
  rw [writeAll_front, List.drop_eq_nil_of_le (Nat.le_of_eq h.symm), List.append_nil]

end

/-! ## Pieces that lie apart -/

section

variable {ε ι : Type} {step : Bytes → ι → Except ε Bytes} {jobs : List ι} {dst : Bytes}

/-- Two ranges without a byte in common. -/
def Apart (a n b m : Nat) : Prop := a + n ≤ b ∨ b + m ≤ a

/-- A loop over pieces that lie apart writes each of them, and leaves the rest as it
was. -/
theorem foldlM_slots (pos len : ι → Nat) (data : ι → Bytes)
    (hlen : ∀ j ∈ jobs, (data j).length = len j)
    (hin : ∀ j ∈ jobs, pos j + len j ≤ dst.length)
    (hapart : jobs.Pairwise fun i j => Apart (pos i) (len i) (pos j) (len j))
    (hstep : ∀ j ∈ jobs, ∀ buf : Bytes, buf.length = dst.length →
      slice buf (pos j) (len j) = slice dst (pos j) (len j) →
      step buf j = .ok (writeAll buf (pos j) (data j))) :
    ∃ out, jobs.foldlM step dst = .ok out ∧ out.length = dst.length ∧
      (∀ j ∈ jobs, slice out (pos j) (len j) = data j) ∧
      ∀ a n, (∀ j ∈ jobs, Apart (pos j) (len j) a n) → slice out a n = slice dst a n := by
  induction jobs generalizing dst with
  | nil => exact ⟨dst, rfl, rfl, by simp, fun _ _ _ => rfl⟩
  | cons j jobs ih =>
    rw [List.pairwise_cons] at hapart
    obtain ⟨hj, hrest⟩ := hapart
    have hjlen := hlen j List.mem_cons_self
    have hjin := hin j List.mem_cons_self
    have hbuf : (writeAll dst (pos j) (data j)).length = dst.length :=
      writeAll_length_of_le (by omega)
    have hkeep {a n : Nat} (h : Apart (pos j) (len j) a n) :
        slice (writeAll dst (pos j) (data j)) a n = slice dst a n :=
      slice_writeAll_of_disjoint (by omega) (by unfold Apart at h; omega)
    obtain ⟨out, hout, hsize, hslots, hframe⟩ := @ih (writeAll dst (pos j) (data j))
      (fun i hi => hlen i (List.mem_cons_of_mem _ hi))
      (fun i hi => by rw [hbuf]; exact hin i (List.mem_cons_of_mem _ hi)) hrest
      (fun i hi buf hlength hsame => hstep i (List.mem_cons_of_mem _ hi) buf
        (hlength.trans hbuf) (hsame.trans (hkeep (hj i hi))))
    refine ⟨out, ?_, hsize.trans hbuf, ?_, ?_⟩
    · rw [List.foldlM_cons, hstep j List.mem_cons_self dst rfl rfl]
      exact hout
    · intro i hi
      rcases List.mem_cons.1 hi with rfl | hi
      · rw [hframe _ _ fun k hk => by have := hj k hk; unfold Apart at this ⊢; omega,
          slice_writeAll_of_length (by omega) hjlen]
      · exact hslots i hi
    · intro a n h
      rw [hframe a n fun k hk => h k (List.mem_cons_of_mem _ hk), hkeep (h j List.mem_cons_self)]

/-- A loop that returns has made each of its steps. -/
theorem exists_step_of_foldlM {out : Bytes} (h : jobs.foldlM step dst = .ok out) {j : ι}
    (hj : j ∈ jobs) : ∃ buf out', step buf j = .ok out' := by
  induction jobs generalizing dst with
  | nil => cases hj
  | cons i jobs ih =>
    rw [List.foldlM_cons] at h
    cases hstep : step dst i with
    | error e => rw [hstep] at h; cases h
    | ok buf =>
      rw [hstep] at h
      rcases List.mem_cons.1 hj with rfl | hj
      · exact ⟨dst, buf, hstep⟩
      · exact ih h hj

theorem foldlM_congr {step' : Bytes → ι → Except ε Bytes}
    (h : ∀ j ∈ jobs, ∀ buf, step buf j = step' buf j) :
    jobs.foldlM step dst = jobs.foldlM step' dst := by
  induction jobs generalizing dst with
  | nil => rfl
  | cons j jobs ih =>
    rw [List.foldlM_cons, List.foldlM_cons, h j List.mem_cons_self]
    congr 1
    funext buf
    exact ih fun i hi => h i (List.mem_cons_of_mem _ hi)

/-- A loop over loops. -/
theorem foldlM_flatMap {κ : Type} {outer : List κ} {inner : κ → List ι} :
    (outer.flatMap inner).foldlM step dst =
      outer.foldlM (fun buf k => (inner k).foldlM step buf) dst := by
  induction outer generalizing dst with
  | nil => rfl
  | cons k outer ih =>
    rw [List.flatMap_cons, List.foldlM_append, List.foldlM_cons]
    congr 1
    funext buf
    exact ih

end

end RustFits
