import RustFits.Layout
import RustFits.Lib.Triple

/-!
# The chain of HDUs

A file is contiguous when its HDUs follow one another without gaps, each data
section as long as its own cards say, and the last one ends the file.  An
operation on one HDU works inside a window of the file: from the header of that
HDU to the header of the next one.

* `Chained` and `Contiguous` state the chain, `OthersKept` that the other HDUs are
  unchanged except for being moved.
* `Window` is the state in the middle of an operation: the HDU at hand starts
  where it started, the tail of the file begins at `hi`, and everything outside
  the window is as it was in the base file.
* One rule per primitive keeps the window (`Window.write`, `Window.grow`,
  `Window.copy`, `Window.commit`).  At its end `Window.othersKept` holds, and the
  chain is whole again exactly when the HDU ends at `hi` (`Window.contiguous_iff`).
* The `Triple` rules of the file primitives.
-/

namespace RustFits

open Ascii ByteFile Machine

/-! ## Chains -/

/-- The padded data size of an HDU, from its own cards. -/
def Hdu.dataSize (h : Hdu) : Nat := (calculateDataSize h.cards).val

/-- The end of the data section of an HDU. -/
def Hdu.dataEnd (h : Hdu) : Nat := h.offsets.dataOffset + h.dataSize

/-- From `start` to `stop` the HDUs follow one another without gaps. -/
def Chained : Nat → List Hdu → Nat → Prop
  | start, [], stop => start = stop
  | start, h :: rest, stop =>
    h.offsets.headerOffset = start ∧ 0 < h.offsets.headerBlockCount ∧
      h.offsets.dataOffset = start + h.offsets.headerBlockCount * blockSize ∧
      Chained h.dataEnd rest stop

/-- The HDUs of the file follow one another without gaps and end with it. -/
def Contiguous (s : Fits) : Prop := Chained 0 s.hdus s.bytes.length

/-- The header and data bytes of an HDU. -/
def Fits.hduBytes (s : Fits) (h : Hdu) : Bytes :=
  slice s.bytes h.offsets.headerOffset (h.dataEnd - h.offsets.headerOffset)

/-- An HDU of the one file is an HDU of the other, moved. -/
structure SameHdu (s s' : Fits) (h h' : Hdu) : Prop where
  cards : h'.cards = h.cards
  kind : h'.kind = h.kind
  blocks : h'.offsets.headerBlockCount = h.offsets.headerBlockCount
  bytes : s'.hduBytes h' = s.hduBytes h

/-- Every HDU but `idx` is unchanged except for being moved. -/
def OthersKept (idx : Nat) (s s' : Fits) : Prop :=
  s'.hdus.length = s.hdus.length ∧
    ∀ (j : Nat) (h : Hdu), j ≠ idx → s.hdus[j]? = some h →
      ∃ h', s'.hdus[j]? = some h' ∧ SameHdu s s' h h'

theorem OthersKept.refl (idx : Nat) (s : Fits) : OthersKept idx s s :=
  ⟨rfl, fun _ h _ hj => ⟨h, hj, rfl, rfl, rfl, rfl⟩⟩

/-- Move an HDU with the tail of the file, which began at `lo` and begins at
`hi` now. -/
def Hdu.moved (lo hi : Nat) (h : Hdu) : Hdu :=
  { h with
    offsets := { h.offsets with
      headerOffset := h.offsets.headerOffset - lo + hi
      dataOffset := h.offsets.dataOffset - lo + hi } }

@[simp] theorem Hdu.moved_dataSize (lo hi : Nat) (h : Hdu) :
    (h.moved lo hi).dataSize = h.dataSize :=
  rfl

section Chained

variable {start stop : Nat} {hdus front back : List Hdu} {h : Hdu}

theorem chained_append :
    ∀ {front : List Hdu} {start : Nat}, Chained start (front ++ back) stop ↔
      ∃ mid, Chained start front mid ∧ Chained mid back stop := by
  intro front
  induction front with
  | nil =>
    intro start
    constructor
    · exact fun hc => ⟨start, rfl, hc⟩
    · rintro ⟨mid, rfl, hc⟩
      exact hc
  | cons h front ih =>
    intro start
    constructor
    · rintro ⟨h1, h2, h3, hrest⟩
      obtain ⟨mid, hfront, hback⟩ := ih.1 hrest
      exact ⟨mid, ⟨h1, h2, h3, hfront⟩, hback⟩
    · rintro ⟨mid, ⟨h1, h2, h3, hfront⟩, hback⟩
      exact ⟨h1, h2, h3, ih.2 ⟨mid, hfront, hback⟩⟩

/-- Where an HDU of a chain lies. -/
theorem chained_mem :
    ∀ {hdus : List Hdu} {start : Nat}, Chained start hdus stop →
      start ≤ stop ∧ ∀ h ∈ hdus, start ≤ h.offsets.headerOffset ∧
        h.offsets.headerOffset < h.offsets.dataOffset ∧ h.dataEnd ≤ stop := by
  intro hdus
  induction hdus with
  | nil =>
    intro start hc
    exact ⟨Nat.le_of_eq hc, by simp⟩
  | cons h rest ih =>
    rintro start ⟨h1, h2, h3, hrest⟩
    obtain ⟨hle, hmem⟩ := ih hrest
    have hpos : 0 < h.offsets.headerBlockCount * blockSize := Nat.mul_pos h2 (by decide)
    have hend : h.offsets.dataOffset ≤ h.dataEnd := Nat.le_add_right _ _
    refine ⟨by omega, fun g hg => ?_⟩
    rcases List.mem_cons.1 hg with rfl | hg
    · exact ⟨by omega, by omega, hle⟩
    · obtain ⟨h4, h5, h6⟩ := hmem g hg
      exact ⟨by omega, h5, h6⟩

/-- A chain that moves as a whole is still a chain. -/
theorem chained_moved {lo : Nat} (hi : Nat) :
    ∀ {hdus : List Hdu} {start : Nat}, lo ≤ start → Chained start hdus stop →
      Chained (start - lo + hi) (hdus.map (Hdu.moved lo hi)) (stop - lo + hi) := by
  intro hdus
  induction hdus with
  | nil =>
    intro start _ hc
    rw [show start = stop from hc]
    rfl
  | cons h rest ih =>
    rintro start hlo ⟨h1, h2, h3, hrest⟩
    have hpos : 0 < h.offsets.headerBlockCount * blockSize := Nat.mul_pos h2 (by decide)
    have hend : h.offsets.dataOffset ≤ h.dataEnd := Nat.le_add_right _ _
    have hnext : Chained (h.dataEnd - lo + hi) (rest.map (Hdu.moved lo hi)) (stop - lo + hi) :=
      ih (by omega) hrest
    refine ⟨by simp [Hdu.moved, h1], h2, ?_, ?_⟩
    · show h.offsets.dataOffset - lo + hi = start - lo + hi + h.offsets.headerBlockCount * blockSize
      omega
    · rw [show (h.moved lo hi).dataEnd = h.dataEnd - lo + hi by
        show h.offsets.dataOffset - lo + hi + h.dataSize =
          h.offsets.dataOffset + h.dataSize - lo + hi
        omega]
      exact hnext

end Chained

/-! ## The window of an operation -/

/-- The HDU `idx` of a contiguous file, before an operation on it. -/
structure Opened (base : Fits) (idx : Nat) (h : Hdu) : Prop where
  contiguous : Contiguous base
  hdu : base.hdus[idx]? = some h

/-- A file in the middle of an operation on HDU `idx` of `base`: the HDU is now
`cur`, and the tail of the base file begins at `hi`. -/
structure Window (base : Fits) (idx : Nat) (h : Hdu) (cur : Hdu) (hi : Nat) (s : Fits) : Prop where
  hdus : s.hdus = base.hdus.take idx ++
    cur :: (base.hdus.drop (idx + 1)).map (Hdu.moved h.dataEnd hi)
  start : cur.offsets.headerOffset = h.offsets.headerOffset
  blocks : 0 < cur.offsets.headerBlockCount
  dataOffset : cur.offsets.dataOffset =
    cur.offsets.headerOffset + cur.offsets.headerBlockCount * blockSize
  front : s.bytes.take h.offsets.headerOffset = base.bytes.take h.offsets.headerOffset
  back : s.bytes.drop hi = base.bytes.drop h.dataEnd
  dataOffset_le : cur.offsets.dataOffset ≤ hi
  le_length : hi ≤ s.bytes.length

/-- The growth of a data section looks for the next header behind the data
offset.  It finds it when the window has a data section, or is the last one. -/
def Room (base : Fits) (idx : Nat) (cur : Hdu) (hi : Nat) : Prop :=
  cur.offsets.dataOffset < hi ∨ base.hdus.drop (idx + 1) = []

section Window

variable {base s : Fits} {idx : Nat} {h cur : Hdu} {hi : Nat}

theorem Opened.split (ho : Opened base idx h) :
    base.hdus = base.hdus.take idx ++ h :: base.hdus.drop (idx + 1) := by
  obtain ⟨hlt, hget⟩ := List.getElem?_eq_some_iff.1 ho.hdu
  rw [← hget, List.getElem_cons_drop hlt, List.take_append_drop]

/-- The chain in front of the HDU, the HDU, and the chain behind it. -/
theorem Opened.chain (ho : Opened base idx h) :
    Chained 0 (base.hdus.take idx) h.offsets.headerOffset ∧
      0 < h.offsets.headerBlockCount ∧
      h.offsets.dataOffset = h.offsets.headerOffset + h.offsets.headerBlockCount * blockSize ∧
      Chained h.dataEnd (base.hdus.drop (idx + 1)) base.bytes.length := by
  have hc := ho.contiguous
  rw [Contiguous, ho.split] at hc
  obtain ⟨mid, hfront, h1, h2, h3, hback⟩ := chained_append.1 hc
  exact ⟨h1 ▸ hfront, h2, by rw [h3, h1], hback⟩

theorem Opened.dataEnd_le (ho : Opened base idx h) : h.dataEnd ≤ base.bytes.length :=
  (chained_mem ho.chain.2.2.2).1

theorem Opened.headerOffset_lt (ho : Opened base idx h) :
    h.offsets.headerOffset < h.offsets.dataOffset := by
  obtain ⟨-, hpos, hoff, -⟩ := ho.chain
  have : 0 < h.offsets.headerBlockCount * blockSize := Nat.mul_pos hpos (by decide)
  omega

/-- An operation starts with the whole extent of the HDU as its window. -/
theorem Opened.window (ho : Opened base idx h) : Window base idx h h h.dataEnd base := by
  obtain ⟨-, hpos, hoff, hback⟩ := ho.chain
  refine ⟨?_, rfl, hpos, hoff, rfl, rfl, Nat.le_add_right _ _, ho.dataEnd_le⟩
  have hmoved : (base.hdus.drop (idx + 1)).map (Hdu.moved h.dataEnd h.dataEnd) =
      base.hdus.drop (idx + 1) := by
    refine (List.map_congr_left fun g hg => ?_).trans (List.map_id _)
    obtain ⟨h1, h2, -⟩ := (chained_mem hback).2 g hg
    have hheader : g.offsets.headerOffset - h.dataEnd + h.dataEnd = g.offsets.headerOffset := by
      omega
    have hdata : g.offsets.dataOffset - h.dataEnd + h.dataEnd = g.offsets.dataOffset := by omega
    simp [Hdu.moved, hheader, hdata]
  rw [hmoved]
  exact ho.split

theorem Window.headerOffset_lt (hw : Window base idx h cur hi s) :
    cur.offsets.headerOffset < cur.offsets.dataOffset := by
  have : 0 < cur.offsets.headerBlockCount * blockSize := Nat.mul_pos hw.blocks (by decide)
  rw [hw.dataOffset]
  omega

/-- The HDU under operation. -/
theorem Window.hdu (ho : Opened base idx h) (hw : Window base idx h cur hi s) :
    s.hdus[idx]? = some cur := by
  have hlt := (List.getElem?_eq_some_iff.1 ho.hdu).1
  rw [hw.hdus, List.getElem?_append_right (by simp), List.length_take,
    Nat.min_eq_left (Nat.le_of_lt hlt), Nat.sub_self]
  rfl

/-- The length of the file: the tail is what it was. -/
theorem Window.length (ho : Opened base idx h) (hw : Window base idx h cur hi s) :
    s.bytes.length = hi + (base.bytes.length - h.dataEnd) := by
  have hback := congrArg List.length hw.back
  have := hw.le_length
  have := ho.dataEnd_le
  simp only [List.length_drop] at hback
  omega

/-- A last window ends the file. -/
theorem Window.length_of_last (ho : Opened base idx h) (hw : Window base idx h cur hi s)
    (hlast : base.hdus.drop (idx + 1) = []) : s.bytes.length = hi := by
  obtain ⟨-, -, -, hback⟩ := ho.chain
  rw [hlast] at hback
  rw [hw.length ho, show h.dataEnd = base.bytes.length from hback]
  omega

/-- Headers in front of the data section. -/
theorem Window.front_lt (ho : Opened base idx h) (hw : Window base idx h cur hi s) :
    ∀ g ∈ base.hdus.take idx, g.offsets.headerOffset < cur.offsets.dataOffset := by
  intro g hg
  obtain ⟨-, h2, h3⟩ := (chained_mem ho.chain.1).2 g hg
  have h4 : g.offsets.dataOffset ≤ g.dataEnd := Nat.le_add_right _ _
  have := hw.headerOffset_lt
  have := hw.start
  omega

/-- Headers behind the window. -/
theorem Opened.back_ge (ho : Opened base idx h) :
    ∀ g ∈ base.hdus.drop (idx + 1),
      h.dataEnd ≤ g.offsets.headerOffset ∧ g.offsets.headerOffset < g.offsets.dataOffset := by
  intro g hg
  obtain ⟨h1, h2, -⟩ := (chained_mem ho.chain.2.2.2).2 g hg
  exact ⟨h1, h2⟩

/-- The next header, when the growth can find it. -/
theorem Window.nextHduStart (ho : Opened base idx h) (hw : Window base idx h cur hi s)
    (hroom : Room base idx cur hi) :
    nextHduStart s.hdus cur.offsets.dataOffset =
      if base.hdus.drop (idx + 1) = [] then none else some hi := by
  have hfront : ((base.hdus.take idx).map fun g => g.offsets.headerOffset).filter
      (fun off => decide (cur.offsets.dataOffset < off)) = [] := by
    rw [List.filter_eq_nil_iff]
    intro off hoff
    obtain ⟨g, hg, rfl⟩ := List.mem_map.1 hoff
    have := hw.front_lt ho g hg
    simp
    omega
  have hcur : ¬ cur.offsets.dataOffset < cur.offsets.headerOffset := by
    have := hw.headerOffset_lt
    omega
  unfold RustFits.nextHduStart
  rw [hw.hdus, List.map_append, List.filter_append, hfront, List.nil_append, List.map_cons,
    List.filter_cons_of_neg (by simpa using hcur)]
  split_ifs with hlast
  · rw [hlast]
    rfl
  · obtain ⟨g, rest, hg⟩ := List.exists_cons_of_ne_nil hlast
    have hlt : cur.offsets.dataOffset < hi := hroom.resolve_right hlast
    obtain ⟨-, -, -, hback⟩ := ho.chain
    rw [hg] at hback
    have hstart : g.offsets.headerOffset = h.dataEnd := hback.1
    rw [List.min?_eq_some_iff]
    constructor
    · simp only [hg, List.map_cons, List.mem_filter, List.mem_cons, decide_eq_true_eq]
      refine ⟨Or.inl ?_, hlt⟩
      show hi = g.offsets.headerOffset - h.dataEnd + hi
      omega
    · intro off hoff
      obtain ⟨hmem, -⟩ := List.mem_filter.1 hoff
      simp only [List.map_map, List.mem_map] at hmem
      obtain ⟨g', -, rfl⟩ := hmem
      show hi ≤ g'.offsets.headerOffset - h.dataEnd + hi
      omega

/-! ### One rule per primitive -/

/-- Writing inside the window. -/
theorem Window.write (hw : Window base idx h cur hi s) {off : Nat} {data : Bytes}
    (hlo : h.offsets.headerOffset ≤ off) (hhi : off + data.length ≤ hi) :
    Window base idx h cur hi { s with bytes := writeAll s.bytes off data } := by
  have hle := hw.le_length
  have hoff : off ≤ s.bytes.length := by omega
  refine ⟨hw.hdus, hw.start, hw.blocks, hw.dataOffset, ?_, ?_, hw.dataOffset_le, ?_⟩
  · rw [take_writeAll_of_le hoff hlo]
    exact hw.front
  · rw [drop_writeAll_of_le hoff hhi]
    exact hw.back
  · rw [writeAll_length_of_le (by omega)]
    exact hle

/-- The tail and its offset records move on by `delta`. -/
theorem Window.openGap (ho : Opened base idx h) (hw : Window base idx h cur hi s) {off : Nat}
    (delta : Nat) (hlo : cur.offsets.dataOffset ≤ off) (hhi : off ≤ hi) :
    Window base idx h cur (hi + delta)
      ⟨RustFits.openGap s.bytes off delta,
        s.hdus.map fun g => { g with offsets := g.offsets.shift off delta }⟩ := by
  have hle := hw.le_length
  have hstart := hw.headerOffset_lt
  have hoff : off ≤ s.bytes.length := by omega
  have hheader := hw.start
  refine ⟨?_, hw.start, hw.blocks, hw.dataOffset, ?_, ?_, ?_, ?_⟩
  · have hkeep : ∀ g : Hdu, g.offsets.headerOffset < cur.offsets.dataOffset →
        ({ g with offsets := g.offsets.shift off delta } : Hdu) = g := by
      intro g hg
      rw [HduOffsets.shift, if_neg (by omega)]
    simp only [hw.hdus, List.map_append, List.map_cons, List.map_map]
    congr 1
    · exact (List.map_congr_left fun g hg => hkeep g (hw.front_lt ho g hg)).trans (List.map_id _)
    · congr 1
      · exact hkeep cur hstart
      · refine List.map_congr_left fun g hg => ?_
        show ({ g.moved h.dataEnd hi with
          offsets := (g.moved h.dataEnd hi).offsets.shift off delta } : Hdu) = _
        rw [HduOffsets.shift, if_pos (by
          show off ≤ g.offsets.headerOffset - h.dataEnd + hi
          omega)]
        simp [Hdu.moved, Nat.add_assoc]
  · rw [take_openGap hoff (by omega)]
    exact hw.front
  · rw [drop_openGap hoff hhi]
    exact hw.back
  · have := hw.dataOffset_le
    omega
  · rw [openGap_length hoff]
    omega

/-- The forward shift of the tail, from a place inside the window. -/
theorem Window.shiftTail (ho : Opened base idx h) (hw : Window base idx h cur hi s) {off : Nat}
    (delta : Nat) (hlo : cur.offsets.dataOffset ≤ off) (hhi : off ≤ hi) :
    ∃ s', shiftFileTailAndUpdateOffsets off delta s = .ok () s' ∧
      Window base idx h cur (hi + delta) s' ∧ s'.bytes = RustFits.openGap s.bytes off delta :=
  ⟨_, shiftFileTail_eq (Nat.le_trans hhi hw.le_length), hw.openGap ho delta hlo hhi, rfl⟩

/-- Nothing behind the HDU: it is the last one. -/
theorem Opened.last_of_length (ho : Opened base idx h) (hlen : base.bytes.length ≤ h.dataEnd) :
    base.hdus.drop (idx + 1) = [] := by
  rw [List.eq_nil_iff_forall_not_mem]
  intro g hg
  obtain ⟨h1, h2, h3⟩ := (chained_mem ho.chain.2.2.2).2 g hg
  have h4 : g.offsets.dataOffset ≤ g.dataEnd := Nat.le_add_right _ _
  omega

/-- The last HDU is extended to a later end. -/
theorem Window.extend (ho : Opened base idx h) (hw : Window base idx h cur hi s)
    (hlast : base.hdus.drop (idx + 1) = []) {newEnd : Nat} (hhi : hi ≤ newEnd) :
    Window base idx h cur newEnd { s with bytes := setLen s.bytes newEnd } := by
  have hend := hw.length_of_last ho hlast
  have hstart := hw.start
  have hheader := hw.headerOffset_lt
  have hdata := hw.dataOffset_le
  refine ⟨?_, hw.start, hw.blocks, hw.dataOffset, ?_, ?_, by omega, by simp⟩
  · show s.hdus = _
    rw [hw.hdus, hlast]
    rfl
  · show (setLen s.bytes newEnd).take h.offsets.headerOffset = _
    rw [take_setLen (by omega) (by omega)]
    exact hw.front
  · show (setLen s.bytes newEnd).drop newEnd = _
    rw [← hw.back, List.drop_of_length_le (by simp), List.drop_of_length_le (by omega)]

/-- The last HDU is cut at an earlier end. -/
theorem Window.truncate (ho : Opened base idx h) (hw : Window base idx h cur hi s)
    (hlast : base.hdus.drop (idx + 1) = []) {newEnd : Nat} (hlo : cur.offsets.dataOffset ≤ newEnd)
    (hhi : newEnd ≤ hi) :
    Window base idx h cur newEnd { s with bytes := setLen s.bytes newEnd } := by
  have hend := hw.length_of_last ho hlast
  have hstart := hw.start
  have hheader := hw.headerOffset_lt
  refine ⟨?_, hw.start, hw.blocks, hw.dataOffset, ?_, ?_, hlo, by simp⟩
  · show s.hdus = _
    rw [hw.hdus, hlast]
    rfl
  · show (setLen s.bytes newEnd).take h.offsets.headerOffset = _
    rw [take_setLen (by omega) (by omega)]
    exact hw.front
  · show (setLen s.bytes newEnd).drop newEnd = _
    rw [← hw.back, List.drop_of_length_le (by simp), List.drop_of_length_le (by omega)]

/-- Other bytes inside the window. -/
theorem Window.replace (hw : Window base idx h cur hi s) {f : Bytes}
    (hlen : f.length = s.bytes.length)
    (hout : ∀ i, i < h.offsets.headerOffset ∨ hi ≤ i → f[i]? = s.bytes[i]?) :
    Window base idx h cur hi ⟨f, s.hdus⟩ := by
  refine ⟨hw.hdus, hw.start, hw.blocks, hw.dataOffset, ?_, ?_, hw.dataOffset_le, ?_⟩
  · rw [← hw.front]
    apply List.ext_getElem?
    intro i
    rw [List.getElem?_take, List.getElem?_take]
    split_ifs with hi
    · exact hout i (Or.inl hi)
    · rfl
  · rw [← hw.back]
    apply List.ext_getElem?
    intro i
    rw [List.getElem?_drop, List.getElem?_drop]
    exact hout _ (Or.inr (Nat.le_add_right _ _))
  · rw [hlen]
    exact hw.le_length

/-- The tail and its offset records move back by `delta`. -/
theorem Window.closeGap (ho : Opened base idx h) (hw : Window base idx h cur hi s) {delta : Nat}
    (hle : cur.offsets.dataOffset + delta ≤ hi) :
    Window base idx h cur (hi - delta)
      ⟨RustFits.closeGap s.bytes hi delta,
        s.hdus.map fun g => { g with offsets := g.offsets.shiftBack hi delta }⟩ := by
  have hlen := hw.le_length
  have hstart := hw.headerOffset_lt
  have hheader := hw.start
  refine ⟨?_, hw.start, hw.blocks, hw.dataOffset, ?_, ?_, by omega, ?_⟩
  · have hkeep : ∀ g : Hdu, g.offsets.headerOffset < cur.offsets.dataOffset →
        ({ g with offsets := g.offsets.shiftBack hi delta } : Hdu) = g := by
      intro g hg
      rw [HduOffsets.shiftBack, if_neg (by omega)]
    simp only [hw.hdus, List.map_append, List.map_cons, List.map_map]
    congr 1
    · exact (List.map_congr_left fun g hg => hkeep g (hw.front_lt ho g hg)).trans (List.map_id _)
    · congr 1
      · exact hkeep cur hstart
      · refine List.map_congr_left fun g hg => ?_
        obtain ⟨h1, h2⟩ := ho.back_ge g hg
        show ({ g.moved h.dataEnd hi with
          offsets := (g.moved h.dataEnd hi).offsets.shiftBack hi delta } : Hdu) = _
        rw [HduOffsets.shiftBack, if_pos (by
          show hi ≤ g.offsets.headerOffset - h.dataEnd + hi
          omega)]
        have hh : g.offsets.headerOffset - h.dataEnd + hi - delta =
            g.offsets.headerOffset - h.dataEnd + (hi - delta) := by omega
        have hd : g.offsets.dataOffset - h.dataEnd + hi - delta =
            g.offsets.dataOffset - h.dataEnd + (hi - delta) := by omega
        simp [Hdu.moved, hh, hd]
  · rw [← hw.front, RustFits.closeGap, List.take_append_of_le_length (by simp; omega),
      List.take_take, Nat.min_eq_left (by omega)]
  · rw [← hw.back, RustFits.closeGap, List.drop_left' (by simp; omega)]
  · rw [closeGap_length hlen (by omega)]
    omega

/-- Growing the data section: the window is as long as asked for, and what it
held stays in place. -/
theorem Window.grow (ho : Opened base idx h) (hw : Window base idx h cur hi s)
    (hroom : Room base idx cur hi) (n : Nat) :
    ∃ s', growFileToAtLeast cur.offsets.dataOffset n s = .ok () s' ∧
      Window base idx h cur (max hi (cur.offsets.dataOffset + roundUpToBlock n)) s' ∧
      s'.bytes.take hi = s.bytes.take hi := by
  have hle := hw.le_length
  have hnext := hw.nextHduStart ho hroom
  unfold growFileToAtLeast
  dsimp only
  rw [hnext]
  by_cases hlast : base.hdus.drop (idx + 1) = []
  · have hlen := hw.length_of_last ho hlast
    rw [if_pos hlast]
    simp only [Option.getD_none, Option.isNone_none, if_true]
    split_ifs with hwant
    · exact ⟨s, rfl, by rw [Nat.max_eq_left (by omega)]; exact hw, rfl⟩
    · rw [Nat.max_eq_right (by omega)]
      exact ⟨_, rfl, hw.extend ho hlast (by omega), take_setLen hle (by omega)⟩
  · rw [if_neg hlast]
    simp only [Option.getD_some, Option.isNone_some, Bool.false_eq_true, if_false]
    split_ifs with hwant
    · exact ⟨s, rfl, by rw [Nat.max_eq_left (by omega)]; exact hw, rfl⟩
    · obtain ⟨s', hshift, hwin, hbytes⟩ :=
        hw.shiftTail ho (cur.offsets.dataOffset + roundUpToBlock n - hi) hw.dataOffset_le
          (Nat.le_refl _)
      rw [show max hi (cur.offsets.dataOffset + roundUpToBlock n) =
        hi + (cur.offsets.dataOffset + roundUpToBlock n - hi) by omega]
      exact ⟨s', hshift, hwin, by rw [hbytes, take_openGap hle (Nat.le_refl _)]⟩

/-- A window that is long enough does not grow. -/
theorem Window.grow_of_le (ho : Opened base idx h) (hw : Window base idx h cur hi s)
    (hroom : Room base idx cur hi) {n : Nat}
    (hle : cur.offsets.dataOffset + roundUpToBlock n ≤ hi) :
    growFileToAtLeast cur.offsets.dataOffset n s = .ok () s := by
  have hlen := hw.le_length
  unfold growFileToAtLeast
  dsimp only
  rw [hw.nextHduStart ho hroom]
  by_cases hlast : base.hdus.drop (idx + 1) = []
  · rw [if_pos hlast, Option.getD_none, if_pos (by omega)]
  · rw [if_neg hlast, Option.getD_some, if_pos hle]

/-- A copy changes nothing outside a region that holds its destination. -/
theorem copyFrontToBack_frame {chunk src dst total lo hi : Nat} :
    ∀ (fuel moved : Nat) (f f' : Bytes), lo ≤ dst → dst + total ≤ hi → hi ≤ f.length →
      moved ≤ total → copyFrontToBack chunk src dst total fuel moved f = some f' →
      f'.take lo = f.take lo ∧ f'.drop hi = f.drop hi ∧ f'.length = f.length := by
  intro fuel
  induction fuel with
  | zero =>
    intro moved f f' _ _ _ _ hc
    rw [copyFrontToBack] at hc
    cases hc
    exact ⟨rfl, rfl, rfl⟩
  | succ fuel ih =>
    intro moved f f' hlo hhi hlen hmoved hc
    rw [copyFrontToBack] at hc
    split_ifs at hc with hdone
    · cases hc
      exact ⟨rfl, rfl, rfl⟩
    · dsimp only at hc
      have hn : min (total - moved) chunk ≤ total - moved := Nat.min_le_left _ _
      generalize min (total - moved) chunk = n at hn hc
      split at hc
      · cases hc
      · rename_i buf hread
        have hbuf : buf.length ≤ n := by
          unfold readExact at hread
          split_ifs at hread <;> cases hread <;> simp
        have hsame : (writeAll f (dst + moved) buf).length = f.length :=
          writeAll_length_of_le (by omega)
        obtain ⟨h1, h2, h3⟩ := ih (moved + n) _ f' hlo hhi (by omega) (by omega) hc
        refine ⟨?_, ?_, by omega⟩
        · rw [h1, take_writeAll_of_le (by omega) (by omega)]
        · rw [h2, drop_writeAll_of_le (by omega) (by omega)]

/-- The same for a copy that runs backwards. -/
theorem copyBackToFront_frame {chunk src dst lo hi : Nat} :
    ∀ (fuel remaining : Nat) (f f' : Bytes), lo ≤ dst → dst + remaining ≤ hi → hi ≤ f.length →
      copyBackToFront chunk src dst fuel remaining f = some f' →
      f'.take lo = f.take lo ∧ f'.drop hi = f.drop hi ∧ f'.length = f.length := by
  intro fuel
  induction fuel with
  | zero =>
    intro remaining f f' _ _ _ hc
    rw [copyBackToFront] at hc
    cases hc
    exact ⟨rfl, rfl, rfl⟩
  | succ fuel ih =>
    intro remaining f f' hlo hhi hlen hc
    rw [copyBackToFront] at hc
    split_ifs at hc with hdone
    · cases hc
      exact ⟨rfl, rfl, rfl⟩
    · dsimp only at hc
      have hn : min remaining chunk ≤ remaining := Nat.min_le_left _ _
      generalize min remaining chunk = n at hn hc
      split at hc
      · cases hc
      · rename_i buf hread
        have hbuf : buf.length ≤ n := by
          unfold readExact at hread
          split_ifs at hread <;> cases hread <;> simp
        have hsame : (writeAll f (dst + remaining - n) buf).length = f.length :=
          writeAll_length_of_le (by omega)
        obtain ⟨h1, h2, h3⟩ := ih (remaining - n) _ f' hlo (by omega) (by omega) hc
        refine ⟨?_, ?_, by omega⟩
        · rw [h1, take_writeAll_of_le (by omega) (by omega)]
        · rw [h2, drop_writeAll_of_le (by omega) (by omega)]

/-- A copy inside the window. -/
theorem Window.copy (hw : Window base idx h cur hi s) {chunk src dst n : Nat} {s' : Fits}
    (hlo : h.offsets.headerOffset ≤ dst) (hhi : dst + n ≤ hi)
    (hc : streamCopyInFile chunk src dst n s = .ok () s') : Window base idx h cur hi s' := by
  unfold streamCopyInFile at hc
  split at hc
  · cases hc
  · rename_i bytes hcopy
    cases hc
    obtain ⟨h1, h2, h3⟩ :=
      copyFrontToBack_frame n 0 s.bytes bytes hlo hhi hw.le_length (Nat.zero_le _) hcopy
    exact ⟨hw.hdus, hw.start, hw.blocks, hw.dataOffset, h1.trans hw.front, h2.trans hw.back,
      hw.dataOffset_le, by rw [h3]; exact hw.le_length⟩

theorem modify_append_cons {α : Type} (front : List α) (a : α) (back : List α) (f : α → α) :
    (front ++ a :: back).modify front.length f = front ++ f a :: back := by
  induction front with
  | nil => rfl
  | cons b front ih => rw [List.cons_append, List.length_cons, List.modify_succ_cons, ih]; rfl

/-- Committing cards changes nothing but the cards. -/
theorem Window.commit (ho : Opened base idx h) (hw : Window base idx h cur hi s)
    (cards : List Card) : ∃ s', commitCards idx cards s = .ok () s' ∧ s'.bytes = s.bytes ∧
      Window base idx h { cur with cards := cards } hi s' := by
  have hlt := (List.getElem?_eq_some_iff.1 ho.hdu).1
  refine ⟨_, rfl, rfl, ?_, hw.start, hw.blocks, hw.dataOffset, hw.front, hw.back, hw.dataOffset_le,
    hw.le_length⟩
  show s.hdus.modify idx _ = _
  have htake : (base.hdus.take idx).length = idx := by
    rw [List.length_take]
    omega
  have hmodify := modify_append_cons (base.hdus.take idx) cur
    ((base.hdus.drop (idx + 1)).map (Hdu.moved h.dataEnd hi))
    (fun g : Hdu => { g with cards := cards })
  rw [htake] at hmodify
  rw [hw.hdus, hmodify]

/-- The operation is over: the chain is whole again exactly when the HDU ends
where the window ends. -/
theorem Window.contiguous_iff (ho : Opened base idx h) (hw : Window base idx h cur hi s) :
    Contiguous s ↔ cur.dataEnd = hi := by
  obtain ⟨hfront, -, -, hback⟩ := ho.chain
  have hlen := hw.length ho
  rw [Contiguous, hw.hdus]
  constructor
  · intro hc
    obtain ⟨mid, -, -, -, -, hrest⟩ := chained_append.1 hc
    cases hdrop : base.hdus.drop (idx + 1) with
    | nil =>
      rw [hdrop] at hrest
      rw [← hw.length_of_last ho hdrop]
      exact hrest
    | cons g rest =>
      rw [hdrop] at hrest hback
      have hnext : g.offsets.headerOffset - h.dataEnd + hi = cur.dataEnd := hrest.1
      rw [hback.1] at hnext
      omega
  · intro hend
    refine chained_append.2 ⟨h.offsets.headerOffset, hfront, hw.start, hw.blocks, ?_, ?_⟩
    · rw [hw.dataOffset, hw.start]
    · have hmoved := chained_moved hi (Nat.le_refl _) hback
      rw [hend, show s.bytes.length = base.bytes.length - h.dataEnd + hi by omega]
      simpa using hmoved

/-- The other HDUs are what they were. -/
theorem Window.othersKept (ho : Opened base idx h) (hw : Window base idx h cur hi s) :
    OthersKept idx base s := by
  obtain ⟨hfront, -, -, -⟩ := ho.chain
  have hidx := (List.getElem?_eq_some_iff.1 ho.hdu).1
  refine ⟨?_, fun j g hj hg => ?_⟩
  · rw [hw.hdus]
    simp
    omega
  · rcases Nat.lt_or_ge j idx with hlt | hge
    · -- an HDU in front lies inside the bytes that did not change
      have hmem : g ∈ base.hdus.take idx := by
        rw [List.mem_take_iff_getElem]
        obtain ⟨hjl, hget⟩ := List.getElem?_eq_some_iff.1 hg
        exact ⟨j, by omega, hget⟩
      obtain ⟨-, -, hle⟩ := (chained_mem hfront).2 g hmem
      refine ⟨g, ?_, rfl, rfl, rfl, ?_⟩
      · rw [hw.hdus, List.getElem?_append_left (by simp; omega), List.getElem?_take_of_lt hlt]
        exact hg
      · have hslice :
            ∀ f : Bytes, slice f g.offsets.headerOffset (g.dataEnd - g.offsets.headerOffset) =
            slice (f.take h.offsets.headerOffset) g.offsets.headerOffset
              (g.dataEnd - g.offsets.headerOffset) := by
          intro f
          apply List.ext_getElem?
          intro i
          rw [slice_getElem?, slice_getElem?]
          split_ifs with hi
          · rw [List.getElem?_take_of_lt (by omega)]
          · rfl
        rw [Fits.hduBytes, Fits.hduBytes, hslice s.bytes, hw.front, ← hslice]
    · -- an HDU behind lies in the tail
      have hmem : g ∈ base.hdus.drop (idx + 1) := by
        rw [List.mem_drop_iff_getElem]
        obtain ⟨hjl, hget⟩ := List.getElem?_eq_some_iff.1 hg
        exact ⟨j - (idx + 1), by omega, by
          rw [← hget]
          congr 1
          omega⟩
      obtain ⟨hle, hlt⟩ := ho.back_ge g hmem
      refine ⟨g.moved h.dataEnd hi, ?_, rfl, rfl, rfl, ?_⟩
      · rw [hw.hdus, List.getElem?_append_right (by simp; omega), List.length_take,
          Nat.min_eq_left (Nat.le_of_lt hidx), show j - idx = (j - (idx + 1)) + 1 by omega,
          List.getElem?_cons_succ, List.getElem?_map, List.getElem?_drop,
          show idx + 1 + (j - (idx + 1)) = j by omega, hg]
        rfl
      · have hmove : ∀ (f : Bytes) (a : Nat), slice f (g.offsets.headerOffset - h.dataEnd + a)
            (g.dataEnd - g.offsets.headerOffset) =
            slice (f.drop a) (g.offsets.headerOffset - h.dataEnd)
              (g.dataEnd - g.offsets.headerOffset) := by
          intro f a
          rw [slice, slice, List.drop_drop, Nat.add_comm]
        have hsize : (g.moved h.dataEnd hi).dataEnd -
            (g.moved h.dataEnd hi).offsets.headerOffset = g.dataEnd - g.offsets.headerOffset := by
          show g.offsets.dataOffset - h.dataEnd + hi + g.dataSize -
            (g.offsets.headerOffset - h.dataEnd + hi) =
            g.offsets.dataOffset + g.dataSize - g.offsets.headerOffset
          omega
        rw [Fits.hduBytes, Fits.hduBytes, hsize]
        show slice s.bytes (g.offsets.headerOffset - h.dataEnd + hi) _ = _
        rw [hmove, hw.back, ← hmove, show g.offsets.headerOffset - h.dataEnd + h.dataEnd =
          g.offsets.headerOffset by omega]

end Window

/-! ## Rules for file operations -/

section

variable {α β γ : Type} {P : Fits → Prop} {E : PyErr → Fits → Prop}

theorem Triple.ofExcept {x : Except PyErr α} (hE : ∀ e s, P s → E e s) :
    Triple P (FileOp.ofExcept x) (fun a s => x = .ok a ∧ P s) E := by
  intro s hs
  cases x with
  | ok a => exact ⟨rfl, hs⟩
  | error e => exact hE e s hs

theorem Triple.ofExcept_ok {x : Except PyErr α} {a : α} (h : x = .ok a) :
    Triple P (FileOp.ofExcept x) (fun b s => b = a ∧ P s) E := by
  intro s hs
  rw [h]
  exact ⟨rfl, hs⟩

theorem Triple.raiseIf {c : Prop} [Decidable c] {e : PyErr} (hE : ∀ s, P s → E e s) :
    Triple P (FileOp.raiseIf c e) (fun _ s => ¬ c ∧ P s) E := by
  intro s hs
  unfold FileOp.raiseIf
  by_cases hc : c
  · rw [if_pos hc]
    exact hE s hs
  · rw [if_neg hc]
    exact ⟨hc, hs⟩

theorem Triple.readAt {context : Str} {off n : Nat} (hE : ∀ e s, P s → E e s) :
    Triple P (RustFits.readAt context off n) (fun bytes s => bytes.length = n ∧ P s) E := by
  intro s hs
  unfold RustFits.readAt readExact
  by_cases hn : n = 0
  · rw [if_pos hn]
    exact ⟨hn.symm, hs⟩
  · rw [if_neg hn]
    by_cases hfit : off + n ≤ s.bytes.length
    · rw [if_pos hfit]
      exact ⟨by simp; omega, hs⟩
    · rw [if_neg hfit]
      exact hE _ s hs

end

section

variable {base : Fits} {idx : Nat} {h cur : Hdu} {hi : Nat} {E : PyErr → Fits → Prop}

theorem Window.triple_write {off : Nat} {data : Bytes} (hlo : h.offsets.headerOffset ≤ off)
    (hhi : off + data.length ≤ hi) :
    Triple (Window base idx h cur hi) (writeAt off data) (fun _ => Window base idx h cur hi) E :=
  fun _ hw => hw.write hlo hhi

theorem Window.triple_grow (ho : Opened base idx h) (hroom : Room base idx cur hi) (n : Nat) :
    Triple (Window base idx h cur hi) (growFileToAtLeast cur.offsets.dataOffset n)
      (fun _ => Window base idx h cur (max hi (cur.offsets.dataOffset + roundUpToBlock n))) E := by
  intro s hw
  obtain ⟨s', hgrow, hw', -⟩ := hw.grow ho hroom n
  rw [hgrow]
  exact hw'

theorem Window.returns_copy {chunk src dst n : Nat} (hlo : h.offsets.headerOffset ≤ dst)
    (hhi : dst + n ≤ hi) :
    Returns (Window base idx h cur hi) (streamCopyInFile chunk src dst n)
      (fun _ => Window base idx h cur hi) := by
  intro s hw
  cases hc : streamCopyInFile chunk src dst n s with
  | ok a s' => exact hw.copy hlo hhi hc
  | error e s' => trivial

theorem Window.triple_commit (ho : Opened base idx h) (cards : List Card) :
    Triple (Window base idx h cur hi) (commitCards idx cards)
      (fun _ => Window base idx h { cur with cards := cards } hi) E := by
  intro s hw
  obtain ⟨s', hc, -, hw'⟩ := hw.commit ho cards
  rw [hc]
  exact hw'

end

end RustFits
