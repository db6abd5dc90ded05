import RustFits.Layout

/-!
# The layout in machine words

Offsets and lengths are `u64` in `common.rs`, and the length of a file is an `i64`.
The functions of this module compute in these words.  A sum that does not fit wraps,
as it does in a release build, and a build with overflow checks stops there.

* `Words.shiftFileTailAndUpdateOffsets`, `Words.growFileToAtLeast` and the shift back
  are the functions of `common.rs`.
* `Words.shiftFileTail_eq`, `Words.shiftFileTailBackward_eq` and
  `Words.growFileToAtLeast_eq` say that they are the functions on natural numbers as
  long as the lengths and the offsets that come out fit.
* `Words.growFileToAtLeast_length`: no growth that succeeds leaves a file that is too
  long.
-/

namespace RustFits

open Ascii ByteFile Machine

/-- No file has this length: `set_len` takes a `u64` and refuses what is no `i64`. -/
def fileLimit : Nat := 9223372036854775808

/-- What `set_len` says of such a length. -/
def lengthError : Str := str "out of range integral type conversion attempted"

/-- The `fetch_add` of both offsets of an HDU at or behind `afterOffset`. -/
def HduOffsets.fetchAdd (afterOffset delta : Nat) (o : HduOffsets) : HduOffsets :=
  if afterOffset ≤ o.headerOffset then
    { o with
      headerOffset := (addU64 o.headerOffset delta).val
      dataOffset := (addU64 o.dataOffset delta).val }
  else o

/-- The `fetch_sub` of both offsets of an HDU at or behind `afterOffset`. -/
def HduOffsets.fetchSub (afterOffset delta : Nat) (o : HduOffsets) : HduOffsets :=
  if afterOffset ≤ o.headerOffset then
    { o with
      headerOffset := wrappingSub o.headerOffset delta
      dataOffset := wrappingSub o.dataOffset delta }
  else o

namespace Words

/-- `round_up_to_block`. -/
def roundUpToBlock (n : Nat) : Nat := (mulU64 (divCeil n blockSize) blockSize).val

/-- `shift_file_tail_and_update_offsets`. -/
def shiftFileTailAndUpdateOffsets (afterOffset delta : Nat) : FileOp Unit := fun s =>
  if delta = 0 then .ok () s
  else
    let originalLen := s.bytes.length
    let tailLen := originalLen - afterOffset
    let dst := (addU64 afterOffset delta).val
    let newLen := max (saturatingAdd originalLen delta) dst
    if fileLimit ≤ newLen then .error (.io lengthError) s
    else
      let file := setLen s.bytes newLen
      match copyBackToFront shiftChunk afterOffset dst tailLen tailLen file with
      | none => .error (.io (str "read failed during file shift")) { s with bytes := file }
      | some bytes =>
        .ok () ⟨bytes,
          s.hdus.map fun h => { h with offsets := h.offsets.fetchAdd afterOffset delta }⟩

/-- `shift_file_tail_backward_and_update_offsets`. -/
def shiftFileTailBackwardAndUpdateOffsets (oldAfterOffset delta : Nat) : FileOp Unit := fun s =>
  if delta = 0 then .ok () s
  else if oldAfterOffset < delta then
    .error (.io (str "shift_file_tail_backward: delta exceeds the source offset")) s
  else
    let originalLen := s.bytes.length
    let tailLen := originalLen - oldAfterOffset
    match copyFrontToBack shiftChunk oldAfterOffset (oldAfterOffset - delta) tailLen tailLen 0
        s.bytes with
    | none => .error (.io (str "read failed during backward shift")) s
    | some bytes =>
      let newLen := wrappingSub originalLen delta
      if fileLimit ≤ newLen then
        .error (.io (str "set_len failed after backward shift: " ++ lengthError ++
          str "; close + reopen")) { s with bytes := bytes }
      else
        .ok () ⟨setLen bytes newLen,
          s.hdus.map fun h => { h with offsets := h.offsets.fetchSub oldAfterOffset delta }⟩

/-- `grow_file_to_at_least`. -/
def growFileToAtLeast (dataOffset minBytes : Nat) : FileOp Unit := fun s =>
  let wantEnd := (addU64 dataOffset (roundUpToBlock minBytes)).val
  let next := nextHduStart s.hdus dataOffset
  let effectiveEnd := next.getD s.bytes.length
  if wantEnd ≤ effectiveEnd then .ok () s
  else
    let delta := wantEnd - effectiveEnd
    if next.isNone then
      if fileLimit ≤ wantEnd then
        .error (.io (str "grow_file_to_at_least: set_len(" ++ natDec wantEnd ++
          str ") failed: " ++ lengthError)) s
      else .ok () { s with bytes := setLen s.bytes wantEnd }
    else shiftFileTailAndUpdateOffsets effectiveEnd delta s

/-! ## The sums that fit -/

section

variable {s : Fits} {afterOffset delta : Nat}

theorem fetchAdd_eq {o : HduOffsets} (h : afterOffset ≤ o.headerOffset →
    o.headerOffset + delta < u64Size ∧ o.dataOffset + delta < u64Size) :
    o.fetchAdd afterOffset delta = o.shift afterOffset delta := by
  unfold HduOffsets.fetchAdd HduOffsets.shift
  split_ifs with hle
  · obtain ⟨hheader, hdata⟩ := h hle
    rw [val_addU64 ((overflow_addU64 _ _).2 hheader), val_addU64 ((overflow_addU64 _ _).2 hdata)]
  · rfl

theorem fetchSub_eq {o : HduOffsets} (hdelta : delta ≤ afterOffset)
    (h : afterOffset ≤ o.headerOffset → o.headerOffset < u64Size ∧ delta ≤ o.dataOffset ∧
      o.dataOffset < u64Size) :
    o.fetchSub afterOffset delta = o.shiftBack afterOffset delta := by
  unfold HduOffsets.fetchSub HduOffsets.shiftBack
  split_ifs with hle
  · obtain ⟨hheader, hback, hdata⟩ := h hle
    rw [wrappingSub_of_le (by omega) hheader, wrappingSub_of_le hback hdata]
  · rfl

theorem roundUpToBlock_eq {n : Nat} (h : RustFits.roundUpToBlock n < u64Size) :
    roundUpToBlock n = RustFits.roundUpToBlock n :=
  val_mulU64 ((overflow_mulU64 _ _).2 h)

/-- The forward shift is the one on natural numbers when the file and the offsets
that it leaves fit. -/
theorem shiftFileTail_eq (hlen : max s.bytes.length afterOffset + delta < fileLimit)
    (hoffsets : ∀ h ∈ s.hdus, afterOffset ≤ h.offsets.headerOffset →
      h.offsets.headerOffset + delta < u64Size ∧ h.offsets.dataOffset + delta < u64Size) :
    shiftFileTailAndUpdateOffsets afterOffset delta s =
      RustFits.shiftFileTailAndUpdateOffsets afterOffset delta s := by
  have hlimit : fileLimit < u64Size := by decide
  have hdst : (addU64 afterOffset delta).val = afterOffset + delta :=
    val_addU64 ((overflow_addU64 _ _).2 (by omega))
  have hnew : max (saturatingAdd s.bytes.length delta) (afterOffset + delta) =
      max (s.bytes.length + delta) (afterOffset + delta) := by
    rw [saturatingAdd_of_lt (by omega)]
  have hhdus : (s.hdus.map fun h => { h with offsets := h.offsets.fetchAdd afterOffset delta }) =
      s.hdus.map fun h => { h with offsets := h.offsets.shift afterOffset delta } := by
    refine List.map_congr_left fun h hmem => ?_
    rw [fetchAdd_eq (hoffsets h hmem)]
  unfold shiftFileTailAndUpdateOffsets RustFits.shiftFileTailAndUpdateOffsets
  split_ifs with hzero
  · rfl
  · dsimp only
    rw [hdst, hnew, if_neg (by omega)]
    cases copyBackToFront shiftChunk afterOffset (afterOffset + delta)
      (s.bytes.length - afterOffset) (s.bytes.length - afterOffset)
      (setLen s.bytes (max (s.bytes.length + delta) (afterOffset + delta))) <;> simp only [hhdus]

/-- A shift that succeeds leaves a file that is not too long. -/
theorem shiftFileTail_length {s' : Fits} (hs : s.bytes.length < fileLimit)
    (hrun : shiftFileTailAndUpdateOffsets afterOffset delta s = .ok () s') :
    delta = 0 ∨ s.bytes.length + delta < fileLimit := by
  by_contra hlong
  obtain ⟨hdelta, hlen⟩ := not_or.1 hlong
  have hlimit : fileLimit < u64Size := by decide
  have hnew : fileLimit ≤ max (saturatingAdd s.bytes.length delta)
      (addU64 afterOffset delta).val := by
    unfold saturatingAdd
    omega
  unfold shiftFileTailAndUpdateOffsets at hrun
  dsimp only at hrun
  rw [if_neg hdelta, if_pos hnew] at hrun
  cases hrun

/-- The backward shift is the one on natural numbers when the file is as long as it
takes away and the offsets that move are behind the room. -/
theorem shiftFileTailBackward_eq (hlen : s.bytes.length < fileLimit)
    (hdelta : delta ≤ s.bytes.length)
    (hoffsets : ∀ h ∈ s.hdus, afterOffset ≤ h.offsets.headerOffset →
      h.offsets.headerOffset < u64Size ∧ delta ≤ h.offsets.dataOffset ∧
        h.offsets.dataOffset < u64Size) :
    shiftFileTailBackwardAndUpdateOffsets afterOffset delta s =
      RustFits.shiftFileTailBackwardAndUpdateOffsets afterOffset delta s := by
  have hlimit : fileLimit < u64Size := by decide
  have hnew : wrappingSub s.bytes.length delta = s.bytes.length - delta :=
    wrappingSub_of_le hdelta (by omega)
  unfold shiftFileTailBackwardAndUpdateOffsets RustFits.shiftFileTailBackwardAndUpdateOffsets
  split_ifs with hzero hlt
  · rfl
  · rfl
  · have hhdus :
        (s.hdus.map fun h => { h with offsets := h.offsets.fetchSub afterOffset delta }) =
          s.hdus.map fun h => { h with offsets := h.offsets.shiftBack afterOffset delta } := by
      refine List.map_congr_left fun h hmem => ?_
      rw [fetchSub_eq (by omega) (hoffsets h hmem)]
    dsimp only
    rw [hnew, hhdus]
    cases copyFrontToBack shiftChunk afterOffset (afterOffset - delta)
      (s.bytes.length - afterOffset) (s.bytes.length - afterOffset) 0 s.bytes with
    | none => rfl
    | some bytes => exact if_neg (by omega)

end

/-! ## The growth -/

/-- The length of the file after the growth, in numbers that do not wrap. -/
def grownLength (s : Fits) (dataOffset minBytes : Nat) : Nat :=
  let wantEnd := dataOffset + RustFits.roundUpToBlock minBytes
  match nextHduStart s.hdus dataOffset with
  | none => max s.bytes.length wantEnd
  | some next => s.bytes.length + (wantEnd - next)

section

variable {s : Fits} {dataOffset minBytes : Nat}

/-- The end that the growth asks for does not lie behind the grown file. -/
theorem wantEnd_le_grownLength (hnext : ∀ next, nextHduStart s.hdus dataOffset = some next →
    next ≤ s.bytes.length) :
    dataOffset + RustFits.roundUpToBlock minBytes ≤ grownLength s dataOffset minBytes := by
  unfold grownLength
  cases hsome : nextHduStart s.hdus dataOffset with
  | none => exact Nat.le_max_right _ _
  | some next =>
    have := hnext next hsome
    dsimp only
    omega

/-- The growth is the one on natural numbers when the grown file is not too long. -/
theorem growFileToAtLeast_eq
    (hnext : ∀ next, nextHduStart s.hdus dataOffset = some next → next ≤ s.bytes.length)
    (hoffsets : ∀ h ∈ s.hdus, h.offsets.headerOffset ≤ s.bytes.length ∧
      h.offsets.dataOffset ≤ s.bytes.length)
    (hlen : grownLength s dataOffset minBytes < fileLimit) :
    growFileToAtLeast dataOffset minBytes s =
      RustFits.growFileToAtLeast dataOffset minBytes s := by
  have hlimit : fileLimit < u64Size := by decide
  have hwant : dataOffset + RustFits.roundUpToBlock minBytes ≤ grownLength s dataOffset minBytes :=
    wantEnd_le_grownLength hnext
  have hround : roundUpToBlock minBytes = RustFits.roundUpToBlock minBytes :=
    roundUpToBlock_eq (by omega)
  have hend : (addU64 dataOffset (roundUpToBlock minBytes)).val =
      dataOffset + RustFits.roundUpToBlock minBytes := by
    rw [hround]
    exact val_addU64 ((overflow_addU64 _ _).2 (by omega))
  unfold growFileToAtLeast RustFits.growFileToAtLeast
  dsimp only
  rw [hend]
  unfold grownLength at hlen
  cases hsome : nextHduStart s.hdus dataOffset with
  | none =>
    rw [hsome] at hlen
    dsimp only at hlen
    rw [Option.getD_none]
    split_ifs with hle hnone hlong
    · rfl
    · omega
    · rfl
    · simp at hnone
  | some next =>
    rw [hsome] at hlen
    dsimp only at hlen
    have hin := hnext next hsome
    rw [Option.getD_some]
    split_ifs with hle hnone
    · rfl
    · simp at hnone
    · simp at hnone
    · refine shiftFileTail_eq (by omega) fun h hmem _ => ?_
      have := hoffsets h hmem
      omega

/-- A growth that succeeds leaves a file that is not too long. -/
theorem growFileToAtLeast_length {s' : Fits} (hs : s.bytes.length < fileLimit)
    (hnext : ∀ next, nextHduStart s.hdus dataOffset = some next → next ≤ s.bytes.length)
    (hoffsets : ∀ h ∈ s.hdus, h.offsets.headerOffset ≤ s.bytes.length ∧
      h.offsets.dataOffset ≤ s.bytes.length)
    (hrun : growFileToAtLeast dataOffset minBytes s = .ok () s') :
    s'.bytes.length < fileLimit := by
  have hlimit : fileLimit < u64Size := by decide
  unfold growFileToAtLeast at hrun
  dsimp only at hrun
  generalize (addU64 dataOffset (roundUpToBlock minBytes)).val = wantEnd at hrun
  cases hsome : nextHduStart s.hdus dataOffset with
  | none =>
    rw [hsome, Option.getD_none] at hrun
    split_ifs at hrun with hle hnone hlong
    · cases hrun
      exact hs
    · cases hrun
      show (setLen s.bytes wantEnd).length < fileLimit
      rw [setLen_length]
      omega
    · simp at hnone
  | some next =>
    have hin := hnext next hsome
    rw [hsome, Option.getD_some] at hrun
    split_ifs at hrun with hle hnone hlong
    · cases hrun
      exact hs
    · simp at hnone
    · have hlen := (shiftFileTail_length hs hrun).resolve_left (by omega)
      rw [shiftFileTail_eq (by omega) fun h hmem _ => by have := hoffsets h hmem; omega,
        RustFits.shiftFileTail_eq hin] at hrun
      cases hrun
      show (openGap s.bytes next (wantEnd - next)).length < fileLimit
      rw [openGap_length hin]
      exact hlen

/-- A growth that succeeds and leaves the room in the file asks for no more than a
file can hold. -/
theorem grownLength_lt {s' : Fits} (hs : s.bytes.length < fileLimit)
    (hnext : ∀ next, nextHduStart s.hdus dataOffset = some next → next ≤ s.bytes.length)
    (hoffsets : ∀ h ∈ s.hdus, h.offsets.headerOffset ≤ s.bytes.length ∧
      h.offsets.dataOffset ≤ s.bytes.length)
    (hrun : growFileToAtLeast dataOffset minBytes s = .ok () s')
    (hroom : dataOffset + RustFits.roundUpToBlock minBytes ≤ s'.bytes.length) :
    grownLength s dataOffset minBytes < fileLimit := by
  have hlimit : fileLimit < u64Size := by decide
  have hlen := growFileToAtLeast_length hs hnext hoffsets hrun
  have hend : (addU64 dataOffset (roundUpToBlock minBytes)).val =
      dataOffset + RustFits.roundUpToBlock minBytes := by
    rw [roundUpToBlock_eq (by omega)]
    exact val_addU64 ((overflow_addU64 _ _).2 (by omega))
  unfold grownLength
  cases hsome : nextHduStart s.hdus dataOffset with
  | none =>
    dsimp only
    omega
  | some next =>
    dsimp only
    unfold growFileToAtLeast at hrun
    dsimp only at hrun
    rw [hend, hsome, Option.getD_some] at hrun
    split_ifs at hrun with hle hnone
    · omega
    · simp at hnone
    · exact (shiftFileTail_length hs hrun).resolve_left (by omega)

end

end Words

end RustFits
