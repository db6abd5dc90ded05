import Mathlib.Data.List.Forall2
import RustFits.LayoutWords

/-!
# The two tail shifts undo each other

`common.rs` opens room in the middle of a file by moving everything behind a
split offset, and closes it again by moving it back.  `ExactMove` says what the
first of them may do to the bytes and to the offset records of the HDUs.

* `shiftFileTail_run` and `shiftFileTailBackward_openGap` describe the two moves
  for every split offset, also for one behind the end of the file.  There is no
  tail then, and the file grows to the split first.
* `tailShift_exact_move` puts them together, for the shifts in machine words.  The
  way back ends with the file it started from, except that a split behind the end has
  lengthened it.
* `tailShift_lengthens_file` has the splits behind the end and the sums that do not
  fit.
-/

namespace RustFits

open Ascii ByteFile Machine

/-- The data section starts right behind the header blocks. -/
def HduOffsets.Placed (o : HduOffsets) : Prop :=
  o.dataOffset = o.headerOffset + blockSize * o.headerBlockCount

/-- What the move does to one HDU: both offsets grow when the HDU lies at or
behind the split, and nothing else changes. -/
structure HduMoved (split delta : Nat) (h h' : Hdu) : Prop where
  cards : h'.cards = h.cards
  kind : h'.kind = h.kind
  blocks : h'.offsets.headerBlockCount = h.offsets.headerBlockCount
  behind : split ≤ h.offsets.headerOffset →
    h'.offsets.headerOffset = h.offsets.headerOffset + delta ∧
      h'.offsets.dataOffset = h.offsets.dataOffset + delta
  before : h.offsets.headerOffset < split → h'.offsets = h.offsets
  placed : h.offsets.Placed → h'.offsets.Placed

/-- The bytes before the split stay and those behind it move by `delta`, and the
HDUs move with them. -/
structure ExactMove (split delta : Nat) (s moved : Fits) : Prop where
  before : ∀ p, p < split → p < s.bytes.length → moved.bytes[p]? = s.bytes[p]?
  behind : ∀ p, split ≤ p → moved.bytes[p + delta]? = s.bytes[p]?
  hdus : List.Forall₂ (HduMoved split delta) s.hdus moved.hdus

theorem hduMoved_shift (split delta : Nat) (h : Hdu) :
    HduMoved split delta h { h with offsets := h.offsets.shift split delta } := by
  unfold HduOffsets.shift
  split_ifs with hle
  · refine ⟨rfl, rfl, rfl, fun _ => ⟨rfl, rfl⟩, fun hlt => ?_, fun hp => ?_⟩
    · omega
    · unfold HduOffsets.Placed at hp ⊢
      dsimp only
      omega
  · exact ⟨rfl, rfl, rfl, fun hge => absurd hge hle, fun _ => rfl, id⟩

/-- The record of an HDU moves back exactly when it has moved. -/
theorem shiftBack_shift {delta : Nat} (hd : 0 < delta) (split : Nat) (o : HduOffsets) :
    (o.shift split delta).shiftBack (split + delta) delta = o := by
  unfold HduOffsets.shift
  split_ifs with hle
  · rw [HduOffsets.shiftBack, if_pos (by dsimp only; omega)]
    simp
  · rw [HduOffsets.shiftBack, if_neg (by omega)]

section

variable {f : Bytes} {split delta : Nat}

/-- A split behind the end of the file: the file grows to the split, and there
is nothing to move. -/
theorem openGap_setLen (h : f.length ≤ split) :
    openGap (setLen f split) split delta = setLen f (split + delta) := by
  have hdrop : (setLen f split).drop split = [] := List.drop_eq_nil_of_le (by rw [setLen_length])
  rw [openGap, hdrop, writeAll_nil, setLen_length]
  apply List.ext_getElem?
  intro i
  rw [setLen_getElem?, setLen_getElem?, setLen_getElem?, setLen_length]
  split_ifs <;> first | rfl | omega

theorem closeGap_openGap (h : split ≤ f.length) :
    closeGap (openGap f split delta) (split + delta) delta = f := by
  have hlen : (openGap f split delta).length = f.length + delta := openGap_length h
  apply List.ext_getElem?
  intro i
  rw [closeGap_getElem? (by omega) (by omega), openGap_getElem? h, openGap_getElem? h]
  split_ifs <;> first | rfl | omega | (congr 1; omega)

end

section

variable {s : Fits} {split delta : Nat}

/-- The forward shift for every split offset. -/
theorem shiftFileTail_run (hd : 0 < delta) :
    shiftFileTailAndUpdateOffsets split delta s =
      .ok () ⟨openGap (setLen s.bytes (max s.bytes.length split)) split delta,
        s.hdus.map fun h => { h with offsets := h.offsets.shift split delta }⟩ := by
  by_cases hle : split ≤ s.bytes.length
  · have hsame : setLen s.bytes (max s.bytes.length split) = s.bytes := by
      rw [Nat.max_eq_left hle, setLen_of_le (Nat.le_refl _), List.take_length]
    rw [shiftFileTail_eq hle, hsame]
  · have htail : s.bytes.length - split = 0 := by omega
    have hmax : max (s.bytes.length + delta) (split + delta) = split + delta := by omega
    rw [Nat.max_eq_right (by omega), openGap_setLen (by omega), shiftFileTailAndUpdateOffsets,
      if_neg (by omega)]
    dsimp only
    rw [htail, hmax]
    rfl

/-- The backward shift after the forward one. -/
theorem shiftFileTailBackward_openGap {f : Bytes} (hd : 0 < delta) (hle : split ≤ f.length)
    (hdus : List Hdu) :
    shiftFileTailBackwardAndUpdateOffsets (split + delta) delta
      ⟨openGap f split delta,
        hdus.map fun h => { h with offsets := h.offsets.shift split delta }⟩ =
          .ok () ⟨f, hdus⟩ := by
  rw [shiftFileTailBackward_eq (by rw [openGap_length hle]; omega) (by omega),
    closeGap_openGap hle, List.map_map]
  have hid : ∀ h : Hdu, h ∈ hdus →
      ((fun h : Hdu => { h with offsets := h.offsets.shiftBack (split + delta) delta }) ∘
        fun h : Hdu => { h with offsets := h.offsets.shift split delta }) h = h := by
    intro h _
    show ({ h with offsets := (h.offsets.shift split delta).shiftBack (split + delta) delta } : Hdu)
      = h
    rw [shiftBack_shift hd]
  rw [List.map_congr_left hid, List.map_id']

/-- The records that have moved are words, and at least `delta`. -/
theorem shifted_offsets_fit {s : Fits} {split delta : Nat}
    (hoffsets : ∀ h ∈ s.hdus, split ≤ h.offsets.headerOffset →
      h.offsets.headerOffset + delta < u64Size ∧ h.offsets.dataOffset + delta < u64Size) :
    ∀ h ∈ s.hdus.map fun h : Hdu => { h with offsets := h.offsets.shift split delta },
      split + delta ≤ h.offsets.headerOffset →
        h.offsets.headerOffset < u64Size ∧ delta ≤ h.offsets.dataOffset ∧
          h.offsets.dataOffset < u64Size := by
  intro h hmem hbehind
  obtain ⟨g, hg, rfl⟩ := List.mem_map.1 hmem
  have hfit := hoffsets g hg
  dsimp only at hbehind ⊢
  unfold HduOffsets.shift at hbehind ⊢
  split_ifs at hbehind ⊢ with hle
  · have := hfit hle
    dsimp only at hbehind ⊢
    omega
  · omega

theorem exactMove_openGap (s : Fits) (split delta : Nat) :
    ExactMove split delta s
      ⟨openGap (setLen s.bytes (max s.bytes.length split)) split delta,
        s.hdus.map fun h => { h with offsets := h.offsets.shift split delta }⟩ := by
  have hsplit : split ≤ (setLen s.bytes (max s.bytes.length split)).length := by
    rw [setLen_length]
    omega
  constructor
  · intro p hp hlen
    dsimp only
    rw [openGap_getElem? hsplit, if_pos (by omega), setLen_length, if_pos (by omega),
      setLen_getElem?, if_pos (by omega), if_pos hlen]
  · intro p hp
    dsimp only
    rw [openGap_getElem? hsplit, if_neg (by omega), Nat.add_sub_cancel, setLen_getElem?]
    split_ifs <;> first | rfl | omega | exact (List.getElem?_eq_none (by omega)).symm
  · dsimp only
    exact List.forall₂_map_right_iff.2 (List.forall₂_same.2 fun h _ => hduMoved_shift split delta h)

/-- Growing and shrinking at one split offset, when the longer file is a file and the
offsets that move are words.  The forward shift succeeds and is an exact move, also of
the HDU that starts at the split.  The backward shift takes the tail and the records
back.  The file has its old length again, unless the split lay behind its end: then it
ends at the split. -/
theorem tailShift_exact_move (s : Fits) (split delta : Nat) (hd : 0 < delta)
    (hlen : max s.bytes.length split + delta < fileLimit)
    (hoffsets : ∀ h ∈ s.hdus, split ≤ h.offsets.headerOffset →
      h.offsets.headerOffset + delta < u64Size ∧ h.offsets.dataOffset + delta < u64Size) :
    ∃ moved restored,
      Words.shiftFileTailAndUpdateOffsets split delta s = .ok () moved ∧
        ExactMove split delta s moved ∧
        Words.shiftFileTailBackwardAndUpdateOffsets (split + delta) delta moved =
          .ok () restored ∧
        restored.hdus = s.hdus ∧
        restored.bytes = setLen s.bytes (max s.bytes.length split) ∧
        (split ≤ s.bytes.length → restored = s) := by
  have hsplit : split ≤ (setLen s.bytes (max s.bytes.length split)).length := by
    rw [setLen_length]
    omega
  have hforward := Words.shiftFileTail_eq hlen hoffsets
  have hback : Words.shiftFileTailBackwardAndUpdateOffsets (split + delta) delta
      ⟨openGap (setLen s.bytes (max s.bytes.length split)) split delta,
        s.hdus.map fun h => { h with offsets := h.offsets.shift split delta }⟩ = _ :=
    Words.shiftFileTailBackward_eq (by rw [openGap_length hsplit, setLen_length]; exact hlen)
      (by rw [openGap_length hsplit]; omega) (shifted_offsets_fit hoffsets)
  refine ⟨_, ⟨setLen s.bytes (max s.bytes.length split), s.hdus⟩,
    hforward.trans (shiftFileTail_run hd), exactMove_openGap s split delta, ?_, rfl, rfl, ?_⟩
  · exact hback.trans (shiftFileTailBackward_openGap hd hsplit s.hdus)
  · intro hle
    rw [Nat.max_eq_left hle, setLen_of_le (Nat.le_refl _), List.take_length]

end

/-- One byte of room in front of the second byte of a file with one HDU behind the
split. -/
theorem tailShift_exact_move_one :
    ∃ moved restored,
      Words.shiftFileTailAndUpdateOffsets 1 1 ⟨[1, 2], [⟨[], ⟨1, 0, 1⟩, .image⟩]⟩ =
          .ok () moved ∧
        ExactMove 1 1 ⟨[1, 2], [⟨[], ⟨1, 0, 1⟩, .image⟩]⟩ moved ∧
        Words.shiftFileTailBackwardAndUpdateOffsets (1 + 1) 1 moved = .ok () restored ∧
        restored.hdus = [⟨[], ⟨1, 0, 1⟩, .image⟩] ∧
        restored.bytes = setLen [1, 2] (max 2 1) ∧
        (1 ≤ 2 → restored = ⟨[1, 2], [⟨[], ⟨1, 0, 1⟩, .image⟩]⟩) :=
  tailShift_exact_move ⟨[1, 2], [⟨[], ⟨1, 0, 1⟩, .image⟩]⟩ 1 1 (by decide) (by decide)
    (List.forall_mem_singleton.2 (by decide))

/-- Three shifts that are no exact moves.  A split behind the end of an empty file: the
way back leaves one byte.  An HDU record that does not fit after the move: its offsets
wrap to zero.  A delta that no file is as long as: the shift raises. -/
theorem tailShift_lengthens_file :
    (∃ moved restored,
      Words.shiftFileTailAndUpdateOffsets 1 1 ⟨[], []⟩ = .ok () moved ∧
        Words.shiftFileTailBackwardAndUpdateOffsets (1 + 1) 1 moved = .ok () restored ∧
        restored.bytes.length ≠ ([] : Bytes).length) ∧
      (∃ moved,
        Words.shiftFileTailAndUpdateOffsets 0 1
            ⟨[], [⟨[], ⟨u64Size - 1, 0, u64Size - 1⟩, .image⟩]⟩ = .ok () moved ∧
          moved.hdus = [⟨[], ⟨0, 0, 0⟩, .image⟩]) ∧
      Words.shiftFileTailAndUpdateOffsets 0 fileLimit ⟨[], []⟩ =
        .error (.io lengthError) ⟨[], []⟩ :=
  ⟨⟨⟨[0, 0], []⟩, ⟨[0], []⟩, rfl, rfl, by decide⟩, ⟨⟨[0], [⟨[], ⟨0, 0, 0⟩, .image⟩]⟩, rfl, rfl⟩,
    rfl⟩

end RustFits
