import RustFits.Layout
import RustFits.Lib.BigEndian

/-!
# Array descriptors and the heap

A variable-length cell, or a compressed blob, is a region of the heap behind the
rows.  Its place is in a descriptor: the number of elements and the offset in
the heap, as two big-endian integers of 4 (`P`) or 8 (`Q`) bytes.

A new blob is put at the heap cursor: the data section grows to cover it, then
the bytes are written (`heapPut`).
-/

namespace RustFits

open Ascii ByteFile Machine BigEndian

/-- The two descriptor kinds. -/
inductive VarKind where
  | p
  | q
  deriving DecidableEq, Repr

/-- The width of a descriptor. -/
def VarKind.width : VarKind → Nat
  | .p => 8
  | .q => 16

/-- `write_descriptor`. -/
def writeDescriptor (kind : VarKind) (nelements heapOffset : Nat) : Bytes :=
  match kind with
  | .p => beBytes 4 nelements ++ beBytes 4 heapOffset
  | .q => beBytes 8 nelements ++ beBytes 8 heapOffset

/-- `read_descriptor`. -/
def readDescriptor (kind : VarKind) (src : Bytes) : Int × Int :=
  match kind with
  | .p => (toSigned 32 (fromBe (slice src 0 4)), toSigned 32 (fromBe (slice src 4 4)))
  | .q => (toSigned 64 (fromBe (slice src 0 8)), toSigned 64 (fromBe (slice src 8 8)))

@[simp] theorem writeDescriptor_length (kind : VarKind) (n off : Nat) :
    (writeDescriptor kind n off).length = kind.width := by
  cases kind <;> simp [writeDescriptor, VarKind.width]

/-- The bits of one field of a descriptor. -/
def VarKind.bits : VarKind → Nat
  | .p => 32
  | .q => 64

/-- A descriptor reads back as it was written, in the bits of its fields. -/
theorem readDescriptor_writeDescriptor (kind : VarKind) (n off : Nat) :
    readDescriptor kind (writeDescriptor kind n off) =
      (toSigned kind.bits (n % 2 ^ kind.bits), toSigned kind.bits (off % 2 ^ kind.bits)) := by
  have hfirst : ∀ w, slice (beBytes w n ++ beBytes w off) 0 w = beBytes w n := fun w => by
    rw [slice, List.drop_zero, List.take_left' (beBytes_length w n)]
  have hsecond : ∀ w, slice (beBytes w n ++ beBytes w off) w w = beBytes w off := fun w => by
    rw [slice, List.drop_left' (beBytes_length w n), List.take_of_length_le (by simp)]
  cases kind with
  | p =>
    rw [readDescriptor, writeDescriptor, hfirst, hsecond, fromBe_beBytes, fromBe_beBytes]
    rfl
  | q =>
    rw [readDescriptor, writeDescriptor, hfirst, hsecond, fromBe_beBytes, fromBe_beBytes]
    rfl

theorem toSigned_lt {bits n : Nat} (hbits : 0 < bits) (h : n < 2 ^ bits) :
    toSigned bits n < ((2 ^ (bits - 1) : Nat) : Int) := by
  have hpow : 2 ^ bits = 2 * 2 ^ (bits - 1) := by
    rw [← Nat.pow_succ', Nat.succ_eq_add_one, Nat.sub_add_cancel hbits]
  unfold toSigned
  split_ifs
  · omega
  · omega

/-- The fields of a descriptor are signed. -/
theorem readDescriptor_lt (kind : VarKind) (src : Bytes) :
    (readDescriptor kind src).1 < ((2 ^ (kind.bits - 1) : Nat) : Int) ∧
      (readDescriptor kind src).2 < ((2 ^ (kind.bits - 1) : Nat) : Int) := by
  have hlt : ∀ off w, fromBe (slice src off w) < 256 ^ w := fun off w =>
    fromBe_lt (by rw [slice_length]; omega)
  cases kind with
  | p => exact ⟨toSigned_lt (by decide) (hlt 0 4), toSigned_lt (by decide) (hlt 4 4)⟩
  | q => exact ⟨toSigned_lt (by decide) (hlt 0 8), toSigned_lt (by decide) (hlt 8 8)⟩

/-- A number of the positive half. -/
theorem toSigned_mod_of_lt {bits n : Nat} (h : n < 2 ^ (bits - 1)) :
    toSigned bits (n % 2 ^ bits) = n := by
  have hle : 2 ^ (bits - 1) ≤ 2 ^ bits := Nat.pow_le_pow_right (by decide) (by omega)
  rw [Nat.mod_eq_of_lt (by omega), toSigned, if_pos h]

/-- A number of the negative half. -/
theorem toSigned_mod_neg {bits n : Nat} (hlo : 2 ^ (bits - 1) ≤ n) (hhi : n < 2 ^ bits) :
    toSigned bits (n % 2 ^ bits) < 0 := by
  rw [Nat.mod_eq_of_lt hhi, toSigned, if_neg (by omega)]
  omega

/-- Put a blob at the heap cursor; the new cursor is behind it. -/
def heapPut (dataOffset heapStart cursor : Nat) (payload : Bytes) : FileOp Nat := do
  growFileToAtLeast dataOffset (heapStart + cursor + payload.length - dataOffset)
  writeAt (heapStart + cursor) payload
  return cursor + payload.length

/-- A part of a buffer; out of bounds it panics. -/
def sliceOf (buf : Bytes) (off n : Nat) : Except PyErr Bytes :=
  if off + n ≤ buf.length then .ok (slice buf off n) else .error (.panic (str "slice"))

/-- Overwrite a part of a buffer; out of bounds it panics. -/
def splice (buf : Bytes) (off : Nat) (data : Bytes) : Except PyErr Bytes :=
  if off + data.length ≤ buf.length then .ok (writeAll buf off data)
  else .error (.panic (str "slice"))

theorem sliceOf_ok {buf : Bytes} {off n : Nat} (h : off + n ≤ buf.length) :
    sliceOf buf off n = .ok (slice buf off n) := by
  rw [sliceOf, if_pos h]

theorem splice_ok {buf data : Bytes} {off : Nat} (h : off + data.length ≤ buf.length) :
    splice buf off data = .ok (writeAll buf off data) := by
  rw [splice, if_pos h]

/-- Set the 16-byte descriptor of a column in a row of a descriptor table that is
held in memory. -/
def recordDescriptor (table : Bytes) (rowWidth row col length heapOffset : Nat) :
    Except PyErr Bytes :=
  if row * rowWidth + col * 16 + 16 ≤ table.length then
    .ok (writeAll table (row * rowWidth + col * 16) (writeDescriptor .q length heapOffset))
  else .error (.panic (str "descriptor table"))

theorem recordDescriptor_length {table table' : Bytes} {rowWidth row col length heapOffset : Nat}
    (h : recordDescriptor table rowWidth row col length heapOffset = .ok table') :
    table'.length = table.length ∧ 16 ≤ table.length := by
  unfold recordDescriptor at h
  split_ifs at h with hfit
  cases h
  refine ⟨writeAll_length_of_le ?_, by omega⟩
  rw [writeDescriptor_length]
  exact hfit

end RustFits
