import RustFits.Parse

/-!
# The open file and its layout

The state of an open file and the shared primitives of `common.rs` that move
parts of it: the two tail shifts, which keep the offset records of the later
HDUs in step with the bytes, the zero fill, the growth of a data section and the
copy inside the file.

* `FileOp` is a method on the open file.  It leaves a state behind also when it
  raises.  Disk errors are not modelled; the end-of-file error of an exact read
  is.
* `openGap` and `closeGap` are what the two shifts do to the bytes.
  `shiftFileTail_eq` and `shiftFileTailBackward_eq` say that the chunked loops
  have that effect.
-/

namespace RustFits

open Ascii ByteFile Machine

/-- An open file: its bytes and its HDUs in file order. -/
structure Fits where
  bytes : Bytes
  hdus : List Hdu
  deriving DecidableEq, Repr

/-- A method on the open file. -/
abbrev FileOp (α : Type) := EStateM PyErr Fits α

namespace FileOp

/-- Run a block after another that succeeds. -/
theorem bind_ok {α β : Type} {x : FileOp α} {g : α → FileOp β} {s s' : Fits} {a : α}
    (h : x s = .ok a s') : (x >>= g) s = g a s' := by
  show EStateM.bind x g s = g a s'
  rw [EStateM.bind, h]

theorem get_bind {β : Type} (g : Fits → FileOp β) (s : Fits) : (get >>= g) s = g s s := rfl

theorem bind_error {α β : Type} {x : FileOp α} {g : α → FileOp β} {s s' : Fits} {e : PyErr}
    (h : x s = .error e s') : (x >>= g) s = .error e s' := by
  show EStateM.bind x g s = .error e s'
  rw [EStateM.bind, h]

end FileOp

/-- Raise the error of a pure step. -/
def FileOp.ofExcept {α : Type} : Except PyErr α → FileOp α
  | .ok a => pure a
  | .error e => throw e

/-- Raise `e` when `c` holds. -/
def FileOp.raiseIf (c : Prop) [Decidable c] (e : PyErr) : FileOp Unit :=
  if c then throw e else pure ()

theorem FileOp.ofExcept_bind {α β : Type} (a : α) (g : α → FileOp β) (s : Fits) :
    (FileOp.ofExcept (.ok a) >>= g) s = g a s := rfl

theorem FileOp.raiseIf_bind {β : Type} {c : Prop} [Decidable c] (h : ¬ c) (e : PyErr)
    (g : Unit → FileOp β) (s : Fits) : (FileOp.raiseIf c e >>= g) s = g () s := by
  rw [FileOp.raiseIf, if_neg h]
  rfl

theorem FileOp.raiseIf_bind_error {β : Type} {c : Prop} [Decidable c] (h : c) (e : PyErr)
    (g : Unit → FileOp β) (s : Fits) : (FileOp.raiseIf c e >>= g) s = .error e s := by
  rw [FileOp.raiseIf, if_pos h]
  rfl

/-- The chunk size of the copies, one mebibyte. -/
def shiftChunk : Nat := 1048576

/-- Write at a position of the file. -/
def writeAt (off : Nat) (data : Bytes) : FileOp Unit :=
  modify fun s => { s with bytes := writeAll s.bytes off data }

theorem writeAt_eq (s : Fits) (off : Nat) (data : Bytes) :
    writeAt off data s = .ok () ⟨writeAll s.bytes off data, s.hdus⟩ := rfl

/-- Commit new cards of the HDU `idx`. -/
def commitCards (idx : Nat) (cards : List Card) : FileOp Unit :=
  modify fun s => { s with hdus := s.hdus.modify idx fun h => { h with cards := cards } }

/-- Read exactly `n` bytes at a position of the file; `context` starts the text
of the error. -/
def readAt (context : Str) (off n : Nat) : FileOp Bytes := fun s =>
  match readExact s.bytes off n with
  | some bytes => .ok bytes s
  | none => .error (.io (context ++ str "failed to fill whole buffer")) s

/-! ## Shifting the tail -/

/-- The offset record of an HDU that lies at or behind `afterOffset` grows by
`delta`. -/
def HduOffsets.shift (afterOffset delta : Nat) (o : HduOffsets) : HduOffsets :=
  if afterOffset ≤ o.headerOffset then
    { o with headerOffset := o.headerOffset + delta, dataOffset := o.dataOffset + delta }
  else o

def HduOffsets.shiftBack (afterOffset delta : Nat) (o : HduOffsets) : HduOffsets :=
  if afterOffset ≤ o.headerOffset then
    { o with headerOffset := o.headerOffset - delta, dataOffset := o.dataOffset - delta }
  else o

/-- `shift_file_tail_and_update_offsets`. -/
def shiftFileTailAndUpdateOffsets (afterOffset delta : Nat) : FileOp Unit := fun s =>
  if delta = 0 then .ok () s
  else
    let originalLen := s.bytes.length
    let tailLen := originalLen - afterOffset
    let newLen := max (originalLen + delta) (afterOffset + delta)
    let file := setLen s.bytes newLen
    match copyBackToFront shiftChunk afterOffset (afterOffset + delta) tailLen tailLen file with
    | none => .error (.io (str "read failed during file shift")) { s with bytes := file }
    | some bytes =>
      .ok () ⟨bytes, s.hdus.map fun h => { h with offsets := h.offsets.shift afterOffset delta }⟩

/-- `shift_file_tail_backward_and_update_offsets`. -/
def shiftFileTailBackwardAndUpdateOffsets (oldAfterOffset delta : Nat) : FileOp Unit := fun s =>
  if delta = 0 then .ok () s
  else if oldAfterOffset < delta then
    .error (.io (str "shift_file_tail_backward: delta exceeds the source offset")) s
  else
    let originalLen := s.bytes.length
    let tailLen := originalLen - oldAfterOffset
    match copyFrontToBack shiftChunk oldAfterOffset (oldAfterOffset - delta) tailLen tailLen 0
        s.bytes with
    | none => .error (.io (str "read failed during backward shift")) s
    | some bytes =>
      .ok () ⟨setLen bytes (originalLen - delta),
        s.hdus.map fun h => { h with offsets := h.offsets.shiftBack oldAfterOffset delta }⟩

/-- `zero_fill_range`.  The chunks follow one another, so they are one write. -/
def zeroFillRange (start len : Nat) : FileOp Unit := writeAt start (List.replicate len 0)

/-- The least header offset behind `dataOffset`. -/
def nextHduStart (hdus : List Hdu) (dataOffset : Nat) : Option Nat :=
  ((hdus.map fun h => h.offsets.headerOffset).filter fun off => dataOffset < off).min?

/-- `grow_file_to_at_least`. -/
def growFileToAtLeast (dataOffset minBytes : Nat) : FileOp Unit := fun s =>
  let wantEnd := dataOffset + roundUpToBlock minBytes
  let next := nextHduStart s.hdus dataOffset
  let effectiveEnd := next.getD s.bytes.length
  if wantEnd ≤ effectiveEnd then .ok () s
  else
    let delta := wantEnd - effectiveEnd
    if next.isNone then .ok () { s with bytes := setLen s.bytes wantEnd }
    else shiftFileTailAndUpdateOffsets effectiveEnd delta s

/-- `stream_copy_in_file`. -/
def streamCopyInFile (chunk srcOff dstOff length : Nat) : FileOp Unit := fun s =>
  match copyFrontToBack chunk srcOff dstOff length length 0 s.bytes with
  | none => .error (.io (str "read failed")) s
  | some bytes => .ok () { s with bytes := bytes }

/-! ## What the shifts do to the bytes -/

/-- Insert `delta` bytes at `off`.  The gap keeps what stood there before. -/
def openGap (f : Bytes) (off delta : Nat) : Bytes :=
  writeAll (setLen f (f.length + delta)) (off + delta) (f.drop off)

/-- Remove the `delta` bytes in front of `off`. -/
def closeGap (f : Bytes) (off delta : Nat) : Bytes := f.take (off - delta) ++ f.drop off

section

variable {f : Bytes} {off delta : Nat}

theorem openGap_length (h : off ≤ f.length) : (openGap f off delta).length = f.length + delta := by
  rw [openGap, writeAll_length _ _ _ (by rw [setLen_length]; omega)]
  simp
  omega

theorem openGap_getElem? (h : off ≤ f.length) (i : Nat) :
    (openGap f off delta)[i]? =
      if i < off + delta then (if i < f.length then f[i]? else some 0) else f[i - delta]? := by
  rw [openGap, writeAll_getElem? (by rw [setLen_length]; omega), setLen_getElem?]
  simp only [List.length_drop, List.getElem?_drop]
  by_cases h1 : i < off + delta
  · rw [if_neg (by omega), if_pos h1, if_pos (by omega)]
  · rw [if_neg h1]
    by_cases h2 : i < f.length + delta
    · rw [if_pos (by omega)]
      congr 1
      omega
    · rw [if_neg (by omega), if_neg h2, List.getElem?_eq_none (by omega)]

theorem openGap_zero (h : off ≤ f.length) : openGap f off 0 = f := by
  apply List.ext_getElem?
  intro i
  rw [openGap_getElem? h]
  simp only [Nat.add_zero, Nat.sub_zero]
  split_ifs <;> first | rfl | omega

theorem take_openGap (h : off ≤ f.length) {n : Nat} (hn : n ≤ off) :
    (openGap f off delta).take n = f.take n := by
  apply List.ext_getElem?
  intro i
  rw [List.getElem?_take, List.getElem?_take]
  split_ifs with hi
  · rw [openGap_getElem? h, if_pos (by omega), if_pos (by omega)]
  · rfl

theorem drop_openGap (h : off ≤ f.length) {n : Nat} (hn : off ≤ n) :
    (openGap f off delta).drop (n + delta) = f.drop n := by
  apply List.ext_getElem?
  intro i
  rw [List.getElem?_drop, List.getElem?_drop, openGap_getElem? h, if_neg (by omega)]
  congr 1
  omega

theorem slice_openGap_before (h : off ≤ f.length) {a n : Nat} (hn : a + n ≤ off) :
    slice (openGap f off delta) a n = slice f a n := by
  apply List.ext_getElem?
  intro i
  rw [slice_getElem?, slice_getElem?]
  split_ifs with hi
  · rw [openGap_getElem? h, if_pos (by omega), if_pos (by omega)]
  · rfl

theorem slice_openGap_behind (h : off ≤ f.length) {a n : Nat} (hn : off ≤ a) :
    slice (openGap f off delta) (a + delta) n = slice f a n := by
  rw [slice, slice, drop_openGap h hn]

theorem closeGap_length (h : off ≤ f.length) (hd : delta ≤ off) :
    (closeGap f off delta).length = f.length - delta := by
  simp [closeGap]
  omega

theorem closeGap_getElem? (h : off ≤ f.length) (hd : delta ≤ off) (i : Nat) :
    (closeGap f off delta)[i]? = if i < off - delta then f[i]? else f[i + delta]? := by
  rw [closeGap]
  split_ifs with hi
  · rw [List.getElem?_append_left (by simp; omega), List.getElem?_take_of_lt hi]
  · rw [List.getElem?_append_right (by simp; omega), List.getElem?_drop]
    congr 1
    simp
    omega

end

/-- The forward shift opens a gap and moves the later offset records. -/
theorem shiftFileTail_eq {s : Fits} {afterOffset delta : Nat} (h : afterOffset ≤ s.bytes.length) :
    shiftFileTailAndUpdateOffsets afterOffset delta s =
      .ok () ⟨openGap s.bytes afterOffset delta,
        s.hdus.map fun h => { h with offsets := h.offsets.shift afterOffset delta }⟩ := by
  unfold shiftFileTailAndUpdateOffsets
  split_ifs with hd
  · subst hd
    have hhdus : (s.hdus.map fun h => { h with offsets := h.offsets.shift afterOffset 0 }) =
        s.hdus := by
      refine (List.map_congr_left fun h _ => ?_).trans (List.map_id _)
      simp [HduOffsets.shift]
    rw [openGap_zero h, hhdus]
  · have hlen : max (s.bytes.length + delta) (afterOffset + delta) = s.bytes.length + delta := by
      omega
    dsimp only
    rw [hlen, copyBackToFront_eq (by decide) (by omega) _ _ _ (by omega)
      (by rw [setLen_length]; omega)]
    have hslice : slice (setLen s.bytes (s.bytes.length + delta)) afterOffset
        (s.bytes.length - afterOffset) = s.bytes.drop afterOffset := by
      apply List.ext_getElem?
      intro i
      rw [slice_getElem?, setLen_getElem?, List.getElem?_drop]
      split_ifs <;> first | rfl | omega | exact (List.getElem?_eq_none (by omega)).symm
    rw [hslice]
    rfl

/-- The backward shift closes a gap and moves the later offset records. -/
theorem shiftFileTailBackward_eq {s : Fits} {oldAfterOffset delta : Nat}
    (h : oldAfterOffset ≤ s.bytes.length) (hd : delta ≤ oldAfterOffset) :
    shiftFileTailBackwardAndUpdateOffsets oldAfterOffset delta s =
      .ok () ⟨closeGap s.bytes oldAfterOffset delta,
        s.hdus.map fun h => { h with offsets := h.offsets.shiftBack oldAfterOffset delta }⟩ := by
  unfold shiftFileTailBackwardAndUpdateOffsets
  split_ifs with h0 hlt
  · subst h0
    have hbytes : closeGap s.bytes oldAfterOffset 0 = s.bytes := by simp [closeGap]
    have hhdus : (s.hdus.map fun h => { h with offsets := h.offsets.shiftBack oldAfterOffset 0 }) =
        s.hdus := by
      refine (List.map_congr_left fun h _ => ?_).trans (List.map_id _)
      simp [HduOffsets.shiftBack]
    rw [hbytes, hhdus]
  · omega
  · dsimp only
    rw [copyFrontToBack_eq (by decide) (Or.inl (by omega)) _ _ _ (by omega) (by omega) (by omega)
      (by omega)]
    have hbytes : setLen (writeAll s.bytes (oldAfterOffset - delta + 0)
        (slice s.bytes (oldAfterOffset + 0) (s.bytes.length - oldAfterOffset - 0)))
        (s.bytes.length - delta) = closeGap s.bytes oldAfterOffset delta := by
      simp only [Nat.add_zero, Nat.sub_zero]
      apply List.ext_getElem?
      intro i
      rw [closeGap_getElem? h hd, setLen_getElem?,
        writeAll_slice_getElem? (by omega) (by omega)]
      have hlen : (writeAll s.bytes (oldAfterOffset - delta)
          (slice s.bytes oldAfterOffset (s.bytes.length - oldAfterOffset))).length =
          s.bytes.length := writeAll_length_of_le (by simp; omega)
      rw [hlen]
      split_ifs <;> first | rfl | omega | (congr 1; omega) |
        exact (List.getElem?_eq_none (by omega)).symm
    simp only [hbytes]

end RustFits
