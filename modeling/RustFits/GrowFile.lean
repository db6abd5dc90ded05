import RustFits.Header.Reopen
import RustFits.TailShift

/-!
# Room for a data section

`grow_file_to_at_least` of `common.rs` makes a data section as long as a writer asks
for.  The next HDU is the one with the least header offset behind the data offset, and
behind is meant strictly.

* `LaidOut` is a file layout: the HDUs stand one behind another, and only the last
  data section may be cut off by the end of the file.  `Reserves` is what the growth
  is for.
* `growFileToAtLeast_reserves` is the growth when no other header starts at the data
  offset, and `reserves_iff_alone` says that it fails when one does, which is so when
  the data section is empty, and room is asked for.
* `growFileToAtLeast_reserves_iff` is about the growth in machine words.  There is one
  more way to fail: no file is as long as the grown one would be.
-/

namespace RustFits

open Ascii ByteFile Header Machine

/-- The HDUs stand one behind another, and their headers are in the file. -/
structure LaidOut (s : Fits) : Prop where
  length : s.bytes.length < fileLimit
  blocks : ∀ h ∈ s.hdus, 0 < h.offsets.headerBlockCount
  placed : ∀ h ∈ s.hdus, h.offsets.Placed
  ordered : s.hdus.Pairwise fun g h => g.dataEnd ≤ h.offsets.headerOffset
  headers : ∀ h ∈ s.hdus, h.offsets.dataOffset ≤ s.bytes.length

/-- The data section of the HDU has room for `minBytes` bytes in whole blocks.  The
room is in the file and lies apart from every other HDU.  The others are only moved,
and the HDU has the bytes that it had. -/
structure Reserves (idx minBytes : Nat) (s s' : Fits) (h : Hdu) : Prop where
  own : s'.hdus[idx]? = some h
  ownBytes : ∀ p, h.offsets.headerOffset ≤ p → p < h.dataEnd → p < s.bytes.length →
    s'.bytes[p]? = s.bytes[p]?
  inFile : h.offsets.dataOffset + roundUpToBlock minBytes ≤ s'.bytes.length
  others : OthersKept idx s s'
  apart : ∀ j g, j ≠ idx → s'.hdus[j]? = some g →
    h.offsets.dataOffset + roundUpToBlock minBytes ≤ g.offsets.headerOffset ∨
      g.dataEnd ≤ h.offsets.dataOffset

/-- No other header starts at the data offset of the HDU. -/
def Alone (idx : Nat) (s : Fits) (h : Hdu) : Prop :=
  ∀ j g, j ≠ idx → s.hdus[j]? = some g → g.offsets.headerOffset ≠ h.offsets.dataOffset

section

variable {s : Fits} {idx j minBytes next : Nat} {g h : Hdu}

theorem LaidOut.headerOffset_lt (hl : LaidOut s) (hg : g ∈ s.hdus) :
    g.offsets.headerOffset < g.offsets.dataOffset := by
  have hpos := hl.blocks g hg
  have hplaced := hl.placed g hg
  unfold HduOffsets.Placed blockSize at hplaced
  omega

theorem Hdu.dataOffset_le_dataEnd (h : Hdu) : h.offsets.dataOffset ≤ h.dataEnd :=
  Nat.le_add_right _ _

/-- The other HDUs lie in front or behind. -/
theorem LaidOut.before_or_behind (hl : LaidOut s) (hdu : s.hdus[idx]? = some h)
    (hj : s.hdus[j]? = some g) (hne : j ≠ idx) :
    g.dataEnd ≤ h.offsets.headerOffset ∨ h.dataEnd ≤ g.offsets.headerOffset := by
  obtain ⟨hjlt, rfl⟩ := List.getElem?_eq_some_iff.1 hj
  obtain ⟨hilt, rfl⟩ := List.getElem?_eq_some_iff.1 hdu
  have hpairs := List.pairwise_iff_getElem.1 hl.ordered
  rcases Nat.lt_or_gt_of_ne hne with hlt | hlt
  · exact Or.inl (hpairs j idx hjlt hilt hlt)
  · exact Or.inr (hpairs idx j hilt hjlt hlt)

/-- An HDU in front of the data section ends where the header of the HDU starts. -/
theorem LaidOut.front_of_le (hl : LaidOut s) (hdu : s.hdus[idx]? = some h)
    (hj : s.hdus[j]? = some g) (hne : j ≠ idx)
    (hle : g.offsets.headerOffset ≤ h.offsets.dataOffset) (halone : Alone idx s h) :
    g.dataEnd ≤ h.offsets.headerOffset := by
  rcases hl.before_or_behind hdu hj hne with hfront | hback
  · exact hfront
  · have hend := h.dataOffset_le_dataEnd
    exact absurd (Nat.le_antisymm hle (Nat.le_trans hend hback)) (halone j g hne hj)

theorem nextHduStart_eq_some :
    nextHduStart s.hdus h.offsets.dataOffset = some next ↔
      (∃ g ∈ s.hdus, g.offsets.headerOffset = next ∧ h.offsets.dataOffset < next) ∧
        ∀ g ∈ s.hdus, h.offsets.dataOffset < g.offsets.headerOffset →
          next ≤ g.offsets.headerOffset := by
  rw [nextHduStart, List.min?_eq_some_iff]
  simp only [List.mem_filter, List.mem_map, decide_eq_true_eq]
  constructor
  · rintro ⟨⟨⟨g, hg, rfl⟩, hlt⟩, hle⟩
    exact ⟨⟨g, hg, rfl, hlt⟩, fun f hf hbehind => hle _ ⟨⟨f, hf, rfl⟩, hbehind⟩⟩
  · rintro ⟨⟨g, hg, rfl, hlt⟩, hle⟩
    refine ⟨⟨⟨g, hg, rfl⟩, hlt⟩, ?_⟩
    rintro b ⟨⟨f, hf, rfl⟩, hbehind⟩
    exact hle f hf hbehind

theorem nextHduStart_eq_none :
    nextHduStart s.hdus h.offsets.dataOffset = none ↔
      ∀ g ∈ s.hdus, g.offsets.headerOffset ≤ h.offsets.dataOffset := by
  rw [nextHduStart, List.min?_eq_none_iff, List.filter_eq_nil_iff]
  simp

/-- The next header is in the file. -/
theorem LaidOut.next_le (hl : LaidOut s)
    (hnext : nextHduStart s.hdus h.offsets.dataOffset = some next) : next ≤ s.bytes.length := by
  obtain ⟨⟨f, hf, hfnext, -⟩, -⟩ := nextHduStart_eq_some.1 hnext
  have h1 := hl.headers f hf
  have h2 := hl.headerOffset_lt hf
  omega

theorem LaidOut.offsets_le (hl : LaidOut s) (hg : g ∈ s.hdus) :
    g.offsets.headerOffset ≤ s.bytes.length ∧ g.offsets.dataOffset ≤ s.bytes.length := by
  have h1 := hl.headers g hg
  have h2 := hl.headerOffset_lt hg
  omega

/-- The growth does not raise, and moves the headers behind the data offset only. -/
theorem growFileToAtLeast_run (hl : LaidOut s) :
    ∃ s', growFileToAtLeast h.offsets.dataOffset minBytes s = .ok () s' ∧
      ∀ g, s.hdus[j]? = some g → g.offsets.headerOffset ≤ h.offsets.dataOffset →
        s'.hdus[j]? = some g := by
  unfold growFileToAtLeast
  dsimp only
  cases hnext : nextHduStart s.hdus h.offsets.dataOffset with
  | none =>
    split_ifs
    · exact ⟨s, rfl, fun g hg _ => hg⟩
    · exact ⟨_, rfl, fun g hg _ => hg⟩
    · simp at *
  | some next =>
    obtain ⟨⟨f, hf, hfnext, hlt⟩, -⟩ := nextHduStart_eq_some.1 hnext
    have hinside := hl.next_le hnext
    split_ifs
    · exact ⟨s, rfl, fun g hg _ => hg⟩
    · simp at *
    · refine ⟨_, shiftFileTail_eq hinside, fun g hg hle => ?_⟩
      show (s.hdus.map _)[j]? = _
      rw [List.getElem?_map, hg, Option.map_some, HduOffsets.shift, Option.getD_some,
        if_neg (by omega)]

/-- Every other HDU stands in front, and the file gets longer. -/
theorem reserves_lengthened (hl : LaidOut s) (hdu : s.hdus[idx]? = some h)
    (hbefore : ∀ j g, j ≠ idx → s.hdus[j]? = some g → g.dataEnd ≤ h.offsets.headerOffset)
    (hlonger : s.bytes.length < h.offsets.dataOffset + roundUpToBlock minBytes) :
    Reserves idx minBytes s
      { s with bytes := setLen s.bytes (h.offsets.dataOffset + roundUpToBlock minBytes) } h := by
  have hmem := List.mem_of_getElem? hdu
  have hown := hl.headerOffset_lt hmem
  have hfile := hl.headers h hmem
  refine ⟨hdu, fun p _ _ hp => ?_, ?_, ⟨rfl, fun j g hne hj => ?_⟩, fun j g hne hj => ?_⟩
  · show (setLen s.bytes _)[p]? = _
    rw [setLen_getElem?, if_pos (by omega), if_pos hp]
  · show _ ≤ (setLen s.bytes _).length
    rw [setLen_length]
  · refine ⟨g, hj, rfl, rfl, rfl, ?_⟩
    have hle := hbefore j g hne hj
    apply List.ext_getElem?
    intro i
    rw [Fits.hduBytes, Fits.hduBytes, slice_getElem?, slice_getElem?]
    split_ifs with hi
    · show (setLen s.bytes _)[_]? = _
      rw [setLen_getElem?, if_pos (by omega), if_pos (by omega)]
    · rfl
  · have hle := hbefore j g hne hj
    exact Or.inr (by omega)

/-- An HDU behind a gap is moved by it. -/
theorem sameHdu_behind_gap {hdus : List Hdu} {delta : Nat} (hinside : next ≤ s.bytes.length)
    (hle : next ≤ g.offsets.headerOffset) :
    SameHdu s ⟨openGap s.bytes next delta, hdus⟩ g
      { g with offsets := { g.offsets with
        headerOffset := g.offsets.headerOffset + delta
        dataOffset := g.offsets.dataOffset + delta } } := by
  refine ⟨rfl, rfl, rfl, ?_⟩
  have hextent : g.offsets.dataOffset + delta + g.dataSize - (g.offsets.headerOffset + delta) =
      g.dataEnd - g.offsets.headerOffset := by
    rw [Hdu.dataEnd]
    omega
  show slice (openGap s.bytes next delta) (g.offsets.headerOffset + delta)
    (g.offsets.dataOffset + delta + g.dataSize - (g.offsets.headerOffset + delta)) = _
  rw [hextent]
  exact slice_openGap_behind hinside hle

/-- The file opens behind the data section, and what stands behind it moves. -/
theorem reserves_shifted {delta : Nat} (hdu : s.hdus[idx]? = some h)
    (hown : h.offsets.headerOffset < h.offsets.dataOffset) (hinside : next ≤ s.bytes.length)
    (hlt : h.offsets.dataOffset < next) (hdataEnd : h.dataEnd ≤ next)
    (hfront : ∀ j g, j ≠ idx → s.hdus[j]? = some g →
      g.offsets.headerOffset ≤ h.offsets.dataOffset → g.dataEnd ≤ h.offsets.headerOffset)
    (hback : ∀ g ∈ s.hdus, h.offsets.dataOffset < g.offsets.headerOffset →
      next ≤ g.offsets.headerOffset)
    (hroom : h.offsets.dataOffset + roundUpToBlock minBytes ≤ next + delta) :
    Reserves idx minBytes s ⟨openGap s.bytes next delta,
      s.hdus.map fun g => { g with offsets := g.offsets.shift next delta }⟩ h := by
  have hkeep : ∀ g : Hdu, g.offsets.headerOffset ≤ h.offsets.dataOffset →
      ({ g with offsets := g.offsets.shift next delta } : Hdu) = g := by
    intro g hle
    rw [HduOffsets.shift, if_neg (by omega)]
  have hmove : ∀ g ∈ s.hdus, h.offsets.dataOffset < g.offsets.headerOffset →
      g.offsets.shift next delta = { g.offsets with
        headerOffset := g.offsets.headerOffset + delta
        dataOffset := g.offsets.dataOffset + delta } := by
    intro g hg hbehind
    rw [HduOffsets.shift, if_pos (hback g hg hbehind)]
  have hget : ∀ j,
      (s.hdus.map fun g : Hdu => { g with offsets := g.offsets.shift next delta })[j]? =
        s.hdus[j]?.map fun g : Hdu => { g with offsets := g.offsets.shift next delta } :=
    fun j => List.getElem?_map
  refine ⟨?_, fun p _ hp hfile => ?_, ?_, ⟨List.length_map _, fun j g hne hj => ?_⟩,
    fun j g hne hj => ?_⟩
  · show (s.hdus.map _)[idx]? = _
    rw [hget, hdu, Option.map_some, hkeep h (by omega)]
  · show (openGap s.bytes next delta)[p]? = _
    rw [openGap_getElem? hinside, if_pos (by omega), if_pos hfile]
  · show _ ≤ (openGap s.bytes next delta).length
    rw [openGap_length hinside]
    omega
  · show ∃ h', (s.hdus.map _)[j]? = some h' ∧ _
    rw [hget, hj, Option.map_some]
    rcases Nat.lt_or_ge h.offsets.dataOffset g.offsets.headerOffset with hbehind | hbefore
    · have hg := List.mem_of_getElem? hj
      rw [hmove g hg hbehind]
      exact ⟨_, rfl, sameHdu_behind_gap hinside (hback g hg hbehind)⟩
    · have hle := hfront j g hne hj hbefore
      rw [hkeep g hbefore]
      exact ⟨g, rfl, rfl, rfl, rfl, slice_openGap_before hinside (by omega)⟩
  · have hj : (s.hdus.map _)[j]? = some g := hj
    rw [hget] at hj
    obtain ⟨g₀, hj₀, rfl⟩ := Option.map_eq_some_iff.1 hj
    rcases Nat.lt_or_ge h.offsets.dataOffset g₀.offsets.headerOffset with hbehind | hbefore
    · have hle := hback g₀ (List.mem_of_getElem? hj₀) hbehind
      rw [hmove g₀ (List.mem_of_getElem? hj₀) hbehind]
      exact Or.inl (by dsimp only; omega)
    · have hle := hfront j g₀ hne hj₀ hbefore
      rw [hkeep g₀ hbefore]
      exact Or.inr (by omega)

/-- The data section ends in front of the next header. -/
theorem LaidOut.dataEnd_le_next (hl : LaidOut s) (hdu : s.hdus[idx]? = some h)
    (hnext : nextHduStart s.hdus h.offsets.dataOffset = some next) : h.dataEnd ≤ next := by
  obtain ⟨⟨f, hf, hfnext, hlt⟩, -⟩ := nextHduStart_eq_some.1 hnext
  have hown := hl.headerOffset_lt (List.mem_of_getElem? hdu)
  obtain ⟨j, hj⟩ := List.getElem?_of_mem hf
  have hne : j ≠ idx := by
    rintro rfl
    rw [hdu] at hj
    cases hj
    omega
  rcases hl.before_or_behind hdu hj hne with hbefore | hbehind
  · have hend := f.dataOffset_le_dataEnd
    have hheader := hl.headerOffset_lt hf
    omega
  · omega

/-- The growth of the data section of an HDU that no other header stands at the data
offset of. -/
theorem growFileToAtLeast_reserves (hl : LaidOut s) (hdu : s.hdus[idx]? = some h)
    (halone : Alone idx s h) :
    ∃ s', growFileToAtLeast h.offsets.dataOffset minBytes s = .ok () s' ∧
      Reserves idx minBytes s s' h := by
  have hown := hl.headerOffset_lt (List.mem_of_getElem? hdu)
  have hfront : ∀ j g, j ≠ idx → s.hdus[j]? = some g →
      g.offsets.headerOffset ≤ h.offsets.dataOffset → g.dataEnd ≤ h.offsets.headerOffset :=
    fun j g hne hj hle => hl.front_of_le hdu hj hne hle halone
  unfold growFileToAtLeast
  dsimp only
  cases hnext : nextHduStart s.hdus h.offsets.dataOffset with
  | none =>
    -- every other HDU stands in front
    have hall := nextHduStart_eq_none.1 hnext
    have hbefore : ∀ j g, j ≠ idx → s.hdus[j]? = some g → g.dataEnd ≤ h.offsets.headerOffset :=
      fun j g hne hj => hfront j g hne hj (hall g (List.mem_of_getElem? hj))
    rw [Option.getD_none]
    split_ifs with hwant hnone
    · refine ⟨s, rfl, hdu, fun _ _ _ _ => rfl, hwant, OthersKept.refl idx s, ?_⟩
      exact fun j g hne hj => Or.inr (by have := hbefore j g hne hj; omega)
    · exact ⟨_, rfl, reserves_lengthened hl hdu hbefore (Nat.not_le.1 hwant)⟩
    · simp at hnone
  | some next =>
    obtain ⟨⟨f, hf, hfnext, hlt⟩, hback⟩ := nextHduStart_eq_some.1 hnext
    have hinside := hl.next_le hnext
    rw [Option.getD_some]
    split_ifs with hwant hnone
    · refine ⟨s, rfl, hdu, fun _ _ _ _ => rfl, by omega, OthersKept.refl idx s, ?_⟩
      intro j g hne hj
      rcases Nat.lt_or_ge h.offsets.dataOffset g.offsets.headerOffset with hbehind | hbefore
      · exact Or.inl (by have := hback g (List.mem_of_getElem? hj) hbehind; omega)
      · exact Or.inr (by have := hfront j g hne hj hbefore; omega)
    · simp at hnone
    · exact ⟨_, shiftFileTail_eq hinside, reserves_shifted hdu hown hinside hlt
        (hl.dataEnd_le_next hdu hnext) hfront hback (by omega)⟩

/-- The growth on natural numbers reserves the room it is asked for exactly when it is
asked for none, or no other header starts at the data offset. -/
theorem reserves_iff_alone (hl : LaidOut s) (hdu : s.hdus[idx]? = some h) :
    (∃ s', growFileToAtLeast h.offsets.dataOffset minBytes s = .ok () s' ∧
        Reserves idx minBytes s s' h) ↔ (0 < minBytes → Alone idx s h) := by
  have hmem := List.mem_of_getElem? hdu
  constructor
  · rintro ⟨s', hrun, hres⟩ hpos j g hne hj heq
    obtain ⟨s₁, hrun₁, hkept⟩ := growFileToAtLeast_run hl
    rw [hrun] at hrun₁
    cases hrun₁
    have hg := hl.headerOffset_lt (List.mem_of_getElem? hj)
    have hend := g.dataOffset_le_dataEnd
    have hround : minBytes ≤ roundUpToBlock minBytes := by
      rw [roundUpToBlock_eq]
      omega
    rcases hres.apart j g hne (hkept g hj (by omega)) with hle | hle <;> omega
  · intro hcond
    rcases Nat.eq_zero_or_pos minBytes with rfl | hpos
    · -- no room is asked for, and nothing happens
      have hzero : roundUpToBlock 0 = 0 := rfl
      have hsame : growFileToAtLeast h.offsets.dataOffset 0 s = .ok () s := by
        unfold growFileToAtLeast
        dsimp only
        rw [hzero, Nat.add_zero, if_pos]
        cases hnext : nextHduStart s.hdus h.offsets.dataOffset with
        | none => exact hl.headers h hmem
        | some next =>
          obtain ⟨⟨f, -, -, hlt⟩, -⟩ := nextHduStart_eq_some.1 hnext
          exact Nat.le_of_lt hlt
      refine ⟨s, hsame, hdu, fun _ _ _ _ => rfl, hl.headers h hmem, OthersKept.refl idx s, ?_⟩
      intro j g hne hj
      have hown := hl.headerOffset_lt hmem
      have hend := h.dataOffset_le_dataEnd
      rw [hzero]
      rcases hl.before_or_behind hdu hj hne with hle | hle
      · exact Or.inr (by omega)
      · exact Or.inl (by omega)
    · exact growFileToAtLeast_reserves hl hdu (hcond hpos)

/-- The growth reserves the room it is asked for exactly when a file can be as long as
the grown one, and no other header starts at the data offset when room is asked for. -/
theorem growFileToAtLeast_reserves_iff (hl : LaidOut s) (hdu : s.hdus[idx]? = some h) :
    (∃ s', Words.growFileToAtLeast h.offsets.dataOffset minBytes s = .ok () s' ∧
        Reserves idx minBytes s s' h) ↔
      Words.grownLength s h.offsets.dataOffset minBytes < fileLimit ∧
        (0 < minBytes → Alone idx s h) := by
  have hnext : ∀ next, nextHduStart s.hdus h.offsets.dataOffset = some next →
      next ≤ s.bytes.length := fun _ hsome => hl.next_le hsome
  have hoffsets : ∀ g ∈ s.hdus, g.offsets.headerOffset ≤ s.bytes.length ∧
      g.offsets.dataOffset ≤ s.bytes.length := fun _ hg => hl.offsets_le hg
  constructor
  · rintro ⟨s', hrun, hres⟩
    have hlen := Words.grownLength_lt hl.length hnext hoffsets hrun hres.inFile
    rw [Words.growFileToAtLeast_eq hnext hoffsets hlen] at hrun
    exact ⟨hlen, (reserves_iff_alone hl hdu).1 ⟨s', hrun, hres⟩⟩
  · rintro ⟨hlen, hcond⟩
    rw [Words.growFileToAtLeast_eq hnext hoffsets hlen]
    exact (reserves_iff_alone hl hdu).2 hcond

end

theorem crowdedFile_laidOut : LaidOut crowdedFile := by
  have hlen := crowdedFile_length
  refine ⟨?_, ?_, ?_, ?_, ?_⟩
  · rw [hlen]
    decide
  · intro h hh
    rcases List.mem_pair.1 hh with rfl | rfl <;> decide
  · intro h hh
    rcases List.mem_pair.1 hh with rfl | rfl <;> rfl
  · exact List.pairwise_pair.2 (Nat.le_of_eq rfl)
  · intro h hh
    rw [hlen]
    rcases List.mem_pair.1 hh with rfl | rfl <;> decide

/-- Room behind the last HDU. -/
theorem growFileToAtLeast_reserves_last :
    (∃ s', Words.growFileToAtLeast 8640 1 crowdedFile = .ok () s' ∧
        Reserves 1 1 crowdedFile s' ⟨emptyExtension, ⟨5760, 1, 8640⟩, .image⟩) ↔
      Words.grownLength crowdedFile 8640 1 < fileLimit ∧
        (0 < 1 → Alone 1 crowdedFile ⟨emptyExtension, ⟨5760, 1, 8640⟩, .image⟩) :=
  @growFileToAtLeast_reserves_iff crowdedFile 1 1 ⟨emptyExtension, ⟨5760, 1, 8640⟩, .image⟩
    crowdedFile_laidOut rfl

/-- The first HDU has no data, and one byte is asked for.  The file grows at its end,
and the room lies over the header of the second HDU.  The second HDU is the last, and
`2^64 - 1` bytes are asked for.  They round up to 704 bytes, and nothing grows enough. -/
theorem growFileToAtLeast_overlaps_next :
    LaidOut crowdedFile ∧
      crowdedFile.hdus[0]? = some ⟨crowdedHeader, ⟨0, 2, 5760⟩, .image⟩ ∧
      (∃ s', Words.growFileToAtLeast 5760 1 crowdedFile = .ok () s' ∧
        ¬ Reserves 0 1 crowdedFile s' ⟨crowdedHeader, ⟨0, 2, 5760⟩, .image⟩) ∧
      crowdedFile.hdus[1]? = some ⟨emptyExtension, ⟨5760, 1, 8640⟩, .image⟩ ∧
      ∃ s', Words.growFileToAtLeast 8640 (u64Size - 1) crowdedFile = .ok () s' ∧
        ¬ Reserves 1 (u64Size - 1) crowdedFile s'
          ⟨emptyExtension, ⟨5760, 1, 8640⟩, .image⟩ := by
  have hl := crowdedFile_laidOut
  have hlen := crowdedFile_length
  have hnone : nextHduStart crowdedFile.hdus 8640 = none := by decide
  have hsome : nextHduStart crowdedFile.hdus 5760 = none := by decide
  refine ⟨hl, rfl, ?_, rfl, ?_⟩
  · obtain ⟨s', hrun, hkept⟩ := @growFileToAtLeast_run crowdedFile 1 1
      ⟨crowdedHeader, ⟨0, 2, 5760⟩, .image⟩ hl
    have hwords : Words.growFileToAtLeast 5760 1 crowdedFile = .ok () s' := by
      rw [← hrun]
      refine Words.growFileToAtLeast_eq (fun next h => ?_) (fun g hg => hl.offsets_le hg) ?_
      · rw [hsome] at h
        cases h
      · rw [Words.grownLength, hsome, hlen]
        decide
    refine ⟨s', hwords, fun hres => ?_⟩
    have hsecond := hkept ⟨emptyExtension, ⟨5760, 1, 8640⟩, .image⟩ rfl (Nat.le_refl _)
    rcases hres.apart 1 _ (by omega) hsecond with hle | hle
    · exact absurd hle (by decide)
    · have hdata : 8640 ≤ (⟨emptyExtension, ⟨5760, 1, 8640⟩, .image⟩ : Hdu).dataEnd :=
        Hdu.dataOffset_le_dataEnd ⟨emptyExtension, ⟨5760, 1, 8640⟩, .image⟩
      have hlow : (⟨emptyExtension, ⟨5760, 1, 8640⟩, .image⟩ : Hdu).dataEnd ≤ 5760 := hle
      omega
  · have hwords : Words.growFileToAtLeast 8640 (u64Size - 1) crowdedFile =
        .ok () { crowdedFile with bytes := setLen crowdedFile.bytes 9344 } := by
      have hend : (addU64 8640 (Words.roundUpToBlock (u64Size - 1))).val = 9344 := by decide
      unfold Words.growFileToAtLeast
      dsimp only
      rw [hend, hnone, Option.getD_none, hlen]
      rfl
    refine ⟨_, hwords, fun hres => ?_⟩
    have hroom := hres.inFile
    dsimp only at hroom
    rw [setLen_length] at hroom
    have hlarge : 9344 < 8640 + roundUpToBlock (u64Size - 1) := by decide
    omega

end RustFits
