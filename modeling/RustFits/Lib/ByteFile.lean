import Mathlib.Data.List.Basic
import Mathlib.Tactic.SplitIfs

/-!
# Byte files and chunked copies inside one file

The contents of a random-access file as a list of bytes, with the three
operations a program performs on it: an exact read, a write at a position and
a change of length.  Nothing here knows what the bytes mean.

* `readExact`, `writeAll` and `setLen` follow the behaviour of the usual file
  interfaces: a read past the end fails, a write past the end fills the gap
  with zero bytes, and writing nothing changes nothing.
* `writeAll_getElem?`, `setLen_getElem?` and `slice_getElem?` describe the
  results byte by byte.  Equalities of files are proved from them through
  `List.ext_getElem?`.
* `copyBackToFront` and `copyFrontToBack` move a region inside the file
  through a bounded buffer.  `copyBackToFront_eq` and `copyFrontToBack_eq` say
  that the loop has the effect of one overlapping move, as soon as it runs in
  the direction that never overwrites a byte it has still to read.
-/

namespace RustFits.ByteFile

/-- The contents of a file. -/
abbrev Bytes := List UInt8

/-- The bytes `[off, off + n)`, cut off at the end of the file. -/
def slice (f : Bytes) (off n : Nat) : Bytes := (f.drop off).take n

/-- Read exactly `n` bytes at `off`.  `none` is the end-of-file error. -/
def readExact (f : Bytes) (off n : Nat) : Option Bytes :=
  if n = 0 then some []
  else if off + n ≤ f.length then some (slice f off n)
  else none

/-- Write `data` at `off`. -/
def writeAll (f : Bytes) (off : Nat) (data : Bytes) : Bytes :=
  if data.isEmpty then f
  else f.take off ++ List.replicate (off - f.length) 0 ++ data ++ f.drop (off + data.length)

/-- Truncate or zero-extend to `n` bytes. -/
def setLen (f : Bytes) (n : Nat) : Bytes :=
  f.take n ++ List.replicate (n - f.length) 0

/-! ## Single operations -/

@[simp] theorem slice_length (f : Bytes) (off n : Nat) :
    (slice f off n).length = min n (f.length - off) := by
  simp [slice]

theorem slice_getElem? (f : Bytes) (off n i : Nat) :
    (slice f off n)[i]? = if i < n then f[off + i]? else none := by
  simp only [slice, List.getElem?_take, List.getElem?_drop]

@[simp] theorem slice_zero (f : Bytes) (off : Nat) : slice f off 0 = [] := by
  simp [slice]

/-- A slice taken from the first part of a file. -/
theorem slice_append_left {f g : Bytes} {off n : Nat} (h : off + n ≤ f.length) :
    slice (f ++ g) off n = slice f off n := by
  apply List.ext_getElem?
  intro i
  simp only [slice_getElem?]
  split_ifs with hi
  · exact List.getElem?_append_left (by omega)
  · rfl

/-- A slice taken from behind the first part of a file. -/
theorem slice_append_behind {f g : Bytes} {off n : Nat} (h : f.length = off) :
    slice (f ++ g) off n = g.take n := by
  rw [slice, List.drop_left' h]

/-- A read inside the file succeeds. -/
theorem readExact_eq_some {f : Bytes} {off n : Nat} (h : off + n ≤ f.length) :
    readExact f off n = some (slice f off n) := by
  unfold readExact
  split_ifs with hn
  · simp [hn]
  · rfl

@[simp] theorem writeAll_nil (f : Bytes) (off : Nat) : writeAll f off [] = f := by
  simp [writeAll]

theorem writeAll_of_ne_nil {f data : Bytes} {off : Nat} (h : data ≠ []) (hoff : off ≤ f.length) :
    writeAll f off data = f.take off ++ data ++ f.drop (off + data.length) := by
  have he : data.isEmpty = false := by simpa using h
  have hz : off - f.length = 0 := by omega
  simp [writeAll, he, hz]

/-- A write that starts inside the file, byte by byte. -/
theorem writeAll_getElem? {f data : Bytes} {off : Nat} (hoff : off ≤ f.length) (i : Nat) :
    (writeAll f off data)[i]? =
      if off ≤ i ∧ i < off + data.length then data[i - off]? else f[i]? := by
  by_cases hd : data = []
  · subst hd
    rw [writeAll_nil, if_neg (by simp)]
  · rw [writeAll_of_ne_nil hd hoff]
    have htake : (f.take off).length = off := by simp [hoff]
    rcases Nat.lt_or_ge i off with hlt | hge
    · rw [List.append_assoc, List.getElem?_append_left (by omega),
        List.getElem?_take_of_lt hlt, if_neg (by omega)]
    · rcases Nat.lt_or_ge i (off + data.length) with hin | hout
      · rw [List.getElem?_append_left (by simp; omega),
          List.getElem?_append_right (by omega), htake, if_pos ⟨hge, hin⟩]
      · rw [List.getElem?_append_right (by simp; omega), List.getElem?_drop,
          if_neg (by omega)]
        congr 1
        simp
        omega

@[simp] theorem writeAll_length (f data : Bytes) (off : Nat) (hoff : off ≤ f.length) :
    (writeAll f off data).length = max f.length (off + data.length) := by
  by_cases hd : data = []
  · subst hd
    simp [hoff]
  · rw [writeAll_of_ne_nil hd hoff]
    simp
    omega

/-- A write that stays inside the file keeps its length. -/
theorem writeAll_length_of_le {f data : Bytes} {off : Nat} (h : off + data.length ≤ f.length) :
    (writeAll f off data).length = f.length := by
  rw [writeAll_length f data off (by omega)]
  omega

theorem setLen_getElem? (f : Bytes) (n i : Nat) :
    (setLen f n)[i]? =
      if i < n then (if i < f.length then f[i]? else some 0) else none := by
  unfold setLen
  rcases Nat.lt_or_ge i n with hin | hout
  · rw [if_pos hin]
    rcases Nat.lt_or_ge i f.length with hf | hf
    · rw [List.getElem?_append_left (by simp; omega), List.getElem?_take_of_lt hin, if_pos hf]
    · rw [List.getElem?_append_right (by simp; omega), if_neg (by omega),
        List.getElem?_replicate, if_pos (by simp; omega)]
  · rw [if_neg (by omega)]
    exact List.getElem?_eq_none (by simp; omega)

@[simp] theorem setLen_length (f : Bytes) (n : Nat) : (setLen f n).length = n := by
  simp [setLen]
  omega

theorem setLen_of_le {f : Bytes} {n : Nat} (h : n ≤ f.length) : setLen f n = f.take n := by
  have hz : n - f.length = 0 := by omega
  simp [setLen, hz]

/-- Another length keeps what lies in front of both ends. -/
theorem take_setLen {f : Bytes} {n a : Nat} (hf : a ≤ f.length) (hn : a ≤ n) :
    (setLen f n).take a = f.take a := by
  rw [setLen, List.take_append_of_le_length (by simp; omega), List.take_take,
    Nat.min_eq_left (by omega)]

/-- The slice a write has just filled. -/
theorem slice_writeAll_self {f data : Bytes} {off : Nat} (hoff : off ≤ f.length) :
    slice (writeAll f off data) off data.length = data := by
  apply List.ext_getElem?
  intro i
  rw [slice_getElem?]
  split_ifs with hi
  · rw [writeAll_getElem? hoff, if_pos (by omega)]
    congr 1
    omega
  · exact (List.getElem?_eq_none (by omega)).symm

theorem slice_writeAll_of_length {f data : Bytes} {off n : Nat} (hoff : off ≤ f.length)
    (hn : data.length = n) : slice (writeAll f off data) off n = data := by
  rw [← hn, slice_writeAll_self hoff]

/-- A slice disjoint from a write is unchanged. -/
theorem slice_writeAll_of_disjoint {f data : Bytes} {off a n : Nat} (hoff : off ≤ f.length)
    (h : a + n ≤ off ∨ off + data.length ≤ a) :
    slice (writeAll f off data) a n = slice f a n := by
  apply List.ext_getElem?
  intro i
  simp only [slice_getElem?, writeAll_getElem? hoff]
  split_ifs <;> first | rfl | omega

/-- A slice of the file in front of a write is unchanged, wherever the write
begins. -/
theorem slice_writeAll_front {f data : Bytes} {off a n : Nat} (hfile : a + n ≤ f.length)
    (h : a + n ≤ off) : slice (writeAll f off data) a n = slice f a n := by
  have htake : (writeAll f off data).take (a + n) = f.take (a + n) := by
    unfold writeAll
    split_ifs
    · rfl
    · rw [List.append_assoc, List.append_assoc, List.take_append_of_le_length
        (by rw [List.length_take]; omega), List.take_take, Nat.min_eq_left h]
  have hdrop : ∀ l : Bytes, (l.drop a).take n = (l.take (a + n)).drop a := by
    intro l
    rw [List.drop_take, Nat.add_sub_cancel_left]
  rw [slice, slice, hdrop, hdrop, htake]

theorem length_le_writeAll (f : Bytes) (off : Nat) (data : Bytes) :
    f.length ≤ (writeAll f off data).length := by
  unfold writeAll
  split_ifs
  · exact Nat.le_refl _
  · simp only [List.length_append, List.length_take, List.length_replicate, List.length_drop]
    omega

theorem writeAll_length_le (f : Bytes) (off : Nat) (data : Bytes) :
    (writeAll f off data).length ≤ max f.length (off + data.length) := by
  unfold writeAll
  split_ifs
  · exact Nat.le_max_left _ _
  · simp only [List.length_append, List.length_take, List.length_replicate, List.length_drop]
    omega

/-- Everything behind a write is unchanged. -/
theorem drop_writeAll_of_le {f data : Bytes} {off a : Nat} (hoff : off ≤ f.length)
    (h : off + data.length ≤ a) : (writeAll f off data).drop a = f.drop a := by
  apply List.ext_getElem?
  intro i
  simp only [List.getElem?_drop, writeAll_getElem? hoff]
  split_ifs
  · omega
  · rfl

/-- Everything in front of a write is unchanged. -/
theorem take_writeAll_of_le {f data : Bytes} {off a : Nat} (hoff : off ≤ f.length)
    (h : a ≤ off) : (writeAll f off data).take a = f.take a := by
  apply List.ext_getElem?
  intro i
  simp only [List.getElem?_take, writeAll_getElem? hoff]
  split_ifs <;> first | rfl | omega

/-- Two writes that meet end to end are one write. -/
theorem writeAll_writeAll_append {f d e : Bytes} {off : Nat} (hoff : off ≤ f.length) :
    writeAll (writeAll f off d) (off + d.length) e = writeAll f off (d ++ e) := by
  apply List.ext_getElem?
  intro i
  have hlen : off + d.length ≤ (writeAll f off d).length := by
    rw [writeAll_length f d off hoff]
    omega
  rw [writeAll_getElem? hlen, writeAll_getElem? hoff, writeAll_getElem? hoff]
  simp only [List.length_append]
  by_cases h1 : off ≤ i ∧ i < off + d.length
  · rw [if_neg (by omega), if_pos h1, if_pos (by omega), List.getElem?_append_left (by omega)]
  · by_cases h2 : off + d.length ≤ i ∧ i < off + d.length + e.length
    · rw [if_pos h2, if_pos (by omega), List.getElem?_append_right (by omega)]
      congr 1
      omega
    · rw [if_neg h2, if_neg h1, if_neg (by omega)]

/-- A write that ends where an earlier one starts. -/
theorem writeAll_before {f d e : Bytes} {off : Nat} (hlen : off + d.length + e.length ≤ f.length) :
    writeAll (writeAll f (off + d.length) e) off d = writeAll f off (d ++ e) := by
  apply List.ext_getElem?
  intro i
  have hlen' : (writeAll f (off + d.length) e).length = f.length := writeAll_length_of_le hlen
  rw [writeAll_getElem? (by omega), writeAll_getElem? (by omega), writeAll_getElem? (by omega)]
  simp only [List.length_append, List.getElem?_append]
  split_ifs <;> first | rfl | omega | (congr 1; omega)

theorem slice_add (f : Bytes) (off a b : Nat) :
    slice f off (a + b) = slice f off a ++ slice f (off + a) b := by
  rw [slice, slice, slice, List.take_add, List.drop_drop]

/-- Writing what is there changes nothing. -/
theorem writeAll_slice_self {f : Bytes} {off n : Nat} (h : off + n ≤ f.length) :
    writeAll f off (slice f off n) = f := by
  apply List.ext_getElem?
  intro i
  rw [writeAll_getElem? (by omega), slice_length, slice_getElem?]
  split_ifs <;> first | rfl | omega | (congr 1; omega)

/-- A slice of a slice. -/
theorem slice_slice {f : Bytes} {a n b m : Nat} (h : b + m ≤ n) :
    slice (slice f a n) b m = slice f (a + b) m := by
  apply List.ext_getElem?
  intro i
  simp only [slice_getElem?]
  split_ifs
  · rw [Nat.add_assoc]
  · omega
  · rfl

/-- Insert `n` zero bytes at `off`. -/
def insertZeros (f : Bytes) (off n : Nat) : Bytes := f.take off ++ List.replicate n 0 ++ f.drop off

theorem insertZeros_length {f : Bytes} {off n : Nat} (h : off ≤ f.length) :
    (insertZeros f off n).length = f.length + n := by
  simp [insertZeros]
  omega

theorem insertZeros_getElem? {f : Bytes} {off n : Nat} (h : off ≤ f.length) (i : Nat) :
    (insertZeros f off n)[i]? =
      if i < off then f[i]? else if i < off + n then some 0 else f[i - n]? := by
  have htake : (f.take off).length = off := by simp [h]
  rw [insertZeros]
  split_ifs with h1 h2
  · rw [List.append_assoc, List.getElem?_append_left (by omega), List.getElem?_take_of_lt h1]
  · rw [List.getElem?_append_left (by simp; omega), List.getElem?_append_right (by omega),
      List.getElem?_replicate, if_pos (by omega)]
  · rw [List.getElem?_append_right (by simp; omega), List.getElem?_drop]
    congr 1
    simp
    omega

/-! ## Records of one width -/

section Records

variable {α : Type} {f : α → Bytes} {w : Nat}

theorem flatMap_length_of_width {l : List α} (hw : ∀ x ∈ l, (f x).length = w) :
    (l.flatMap f).length = l.length * w := by
  induction l with
  | nil => simp
  | cons x l ih =>
    rw [List.flatMap_cons, List.length_append, hw x (by simp), List.length_cons, Nat.succ_mul,
      ih fun y hy => hw y (List.mem_cons_of_mem _ hy)]
    omega

/-- Record `k` of a sequence of records of one width. -/
theorem slice_flatMap {l : List α} (hw : ∀ x ∈ l, (f x).length = w) {k : Nat} {x : α}
    (hx : l[k]? = some x) : slice (l.flatMap f) (k * w) w = f x := by
  induction l generalizing k with
  | nil => simp at hx
  | cons y l ih =>
    have hy := hw y (by simp)
    cases k with
    | zero =>
      have hyx : y = x := by simpa using hx
      simp [slice, ← hyx, ← hy]
    | succ k =>
      have hdrop : ((y :: l).flatMap f).drop ((k + 1) * w) = (l.flatMap f).drop (k * w) := by
        rw [List.flatMap_cons, Nat.succ_mul, Nat.add_comm, ← List.drop_drop, List.drop_left' hy]
      have hx' : l[k]? = some x := by simpa using hx
      rw [slice, hdrop]
      exact ih (fun z hz => hw z (List.mem_cons_of_mem _ hz)) hx'

end Records

/-! ## Chunked copies -/

/-- Move the `remaining` bytes at `src` to `dst`, last chunk first.  `fuel`
bounds the number of iterations; `remaining` is always enough. -/
def copyBackToFront (chunk src dst : Nat) : Nat → Nat → Bytes → Option Bytes
  | 0, _, f => some f
  | fuel + 1, remaining, f =>
    if remaining = 0 then some f
    else
      let n := min remaining chunk
      match readExact f (src + remaining - n) n with
      | none => none
      | some buf =>
        copyBackToFront chunk src dst fuel (remaining - n)
          (writeAll f (dst + remaining - n) buf)

/-- Move the bytes `[src + moved, src + total)` to `dst + moved`, first chunk
first. -/
def copyFrontToBack (chunk src dst total : Nat) : Nat → Nat → Bytes → Option Bytes
  | 0, _, f => some f
  | fuel + 1, moved, f =>
    if total ≤ moved then some f
    else
      let n := min (total - moved) chunk
      match readExact f (src + moved) n with
      | none => none
      | some buf =>
        copyFrontToBack chunk src dst total fuel (moved + n)
          (writeAll f (dst + moved) buf)

/-- The effect of one overlapping move, byte by byte. -/
theorem writeAll_slice_getElem? {f : Bytes} {src dst n : Nat}
    (hsrc : src + n ≤ f.length) (hdst : dst ≤ f.length) (i : Nat) :
    (writeAll f dst (slice f src n))[i]? =
      if dst ≤ i ∧ i < dst + n then f[src + (i - dst)]? else f[i]? := by
  have hlen : (slice f src n).length = n := by simp; omega
  rw [writeAll_getElem? hdst, hlen]
  split_ifs with h
  · rw [slice_getElem?, if_pos (by omega)]
  · rfl

/-- A back-to-front copy to a later position is one overlapping move. -/
theorem copyBackToFront_eq {chunk src dst : Nat} (hchunk : 0 < chunk) (hle : src ≤ dst) :
    ∀ (fuel remaining : Nat) (f : Bytes), remaining ≤ fuel →
      dst + remaining ≤ f.length →
      copyBackToFront chunk src dst fuel remaining f =
        some (writeAll f dst (slice f src remaining)) := by
  intro fuel
  induction fuel with
  | zero =>
    intro remaining f hfuel _
    have hr : remaining = 0 := by omega
    simp [copyBackToFront, hr]
  | succ fuel ih =>
    intro remaining f hfuel hlen
    rw [copyBackToFront]
    split_ifs with hr
    · simp [hr]
    · simp only
      have hn : min remaining chunk ≤ remaining := Nat.min_le_left _ _
      have hn0 : 0 < min remaining chunk := by omega
      generalize min remaining chunk = n at hn hn0 ⊢
      rw [readExact_eq_some (by omega)]
      simp only
      have hbuf : (slice f (src + remaining - n) n).length = n := by simp; omega
      have hlen' : (writeAll f (dst + remaining - n) (slice f (src + remaining - n) n)).length
          = f.length := writeAll_length_of_le (by omega)
      rw [ih (remaining - n) _ (by omega) (by omega)]
      congr 1
      apply List.ext_getElem?
      intro i
      -- the lower part is read from bytes the chunk just written does not touch
      rw [writeAll_slice_getElem? (by omega) (by omega),
        writeAll_slice_getElem? (by omega) (by omega),
        writeAll_slice_getElem? (by omega) (by omega),
        writeAll_slice_getElem? (by omega) (by omega)]
      split_ifs <;> first | rfl | omega | (congr 1; omega)

/-- A front-to-back copy is one move, as soon as it goes to an earlier position
or the two regions do not overlap. -/
theorem copyFrontToBack_eq {chunk src dst total : Nat} (hchunk : 0 < chunk)
    (hle : dst ≤ src ∨ src + total ≤ dst) :
    ∀ (fuel moved : Nat) (f : Bytes), total ≤ moved + fuel → moved ≤ total →
      src + total ≤ f.length → dst + total ≤ f.length →
      copyFrontToBack chunk src dst total fuel moved f =
        some (writeAll f (dst + moved) (slice f (src + moved) (total - moved))) := by
  intro fuel
  induction fuel with
  | zero =>
    intro moved f hfuel hm _ _
    have hr : total - moved = 0 := by omega
    simp [copyFrontToBack, hr]
  | succ fuel ih =>
    intro moved f hfuel hm hsrc hdst
    rw [copyFrontToBack]
    split_ifs with hr
    · have hz : total - moved = 0 := by omega
      simp [hz]
    · simp only
      have hn : min (total - moved) chunk ≤ total - moved := Nat.min_le_left _ _
      have hn0 : 0 < min (total - moved) chunk := by omega
      generalize min (total - moved) chunk = n at hn hn0 ⊢
      rw [readExact_eq_some (by omega)]
      simp only
      have hbuf : (slice f (src + moved) n).length = n := by simp; omega
      have hlen' : (writeAll f (dst + moved) (slice f (src + moved) n)).length
          = f.length := writeAll_length_of_le (by omega)
      rw [ih (moved + n) _ (by omega) (by omega) (by omega) (by omega)]
      congr 1
      apply List.ext_getElem?
      intro i
      rw [writeAll_slice_getElem? (by omega) (by omega),
        writeAll_slice_getElem? (by omega) (by omega),
        writeAll_slice_getElem? (by omega) (by omega),
        writeAll_slice_getElem? (by omega) (by omega)]
      split_ifs <;> first | rfl | omega | (congr 1; omega)

end RustFits.ByteFile
