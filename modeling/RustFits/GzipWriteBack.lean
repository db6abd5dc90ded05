import Mathlib.Data.List.Basic
import RustFits.Lib.Trace

/-!
# Writing a `.gz` file back

A `.gz` file that was opened `r+` or `w+` lives in memory (`MemStore`,
common.rs) until `sync()` or `close()` recompresses it over the file on
disk (fits.rs).  Both calls release the lock of the buffer before they
compress, so threads interleave: `sync()` copies the buffer and clears the
dirty flag under the lock, writes a temporary file and renames it outside
the lock, and marks the buffer dirty again when that failed.  `close()`
takes the buffer out of the handle and writes it only when it is dirty.

`Session` is the state that all the threads share, with the calls that are
in flight.  `step` is one atomic step of one thread, and a run of `step` is
one interleaving of any number of threads.  Each mutation of the buffer
gives it a new version number; the numbers, `diskVersion` and `reports`
only record what happened, and no step reads them.

`not_noLostUpdate_lateRename` is the interleaving in which an update is
lost: two `sync()` calls overlap and the older copy is renamed last, while
the flag is clear.  `renames_in_order_lose_nothing` says that nothing else
can go wrong.  The model lets `close()` overlap a `sync()`, which the borrow
of `&mut self` excludes, so the result does not rest on that exclusion.
-/

namespace RustFits

/-- The gzip codec (`GzEncoder`, `MultiGzDecoder`): what is compressed is
read back. -/
structure Gzip where
  compress : List UInt8 → List UInt8
  decompress : List UInt8 → Option (List UInt8)
  lossless : ∀ raw, decompress (compress raw) = some raw

namespace Gzip

/-- The file on disk stands for these contents.  A file of no bytes, which
is what a `w+` open leaves until the first write-back, stands for none. -/
def Holds (g : Gzip) (disk contents : List UInt8) : Prop :=
  g.decompress disk = some contents ∨ disk = [] ∧ contents = []

instance (g : Gzip) (disk contents : List UInt8) : Decidable (g.Holds disk contents) :=
  inferInstanceAs (Decidable (_ ∨ _))

end Gzip

namespace GzipWriteBack

/-- The buffer (common.rs `MemStore`) with the number of mutations that it
has seen. -/
structure MemStore where
  contents : List UInt8
  dirty : Bool
  version : Nat
  deriving DecidableEq, Repr

/-- A copy of the buffer that a call is about to write. -/
structure Snapshot where
  raw : List UInt8
  version : Nat
  deriving DecidableEq, Repr

def MemStore.snapshot (m : MemStore) : Snapshot := ⟨m.contents, m.version⟩

/-- Where a `sync()` call in flight stands: past the taint check and before
the lock, in `gzip_write_back`, or back from it with an error. -/
inductive SyncCall where
  | checked
  | writing (snap : Snapshot)
  | failed (snap : Snapshot)
  deriving DecidableEq, Repr

/-- The copy that a call in flight holds. -/
def SyncCall.snapshot? : SyncCall → Option Snapshot
  | .checked => none
  | .writing snap => some snap
  | .failed snap => some snap

/-- Where the `close()` call stands. -/
inductive CloseCall where
  | notCalled
  | taken
  | writing (snap : Snapshot)
  | returned (ok : Bool)
  deriving DecidableEq, Repr

/-- What a call told its caller. -/
inductive Report where
  | wrote (version : Nat)
  | nothingToDo
  | error
  deriving DecidableEq, Repr

/-- What the threads share, and the calls in flight.  `closed` is the
`None` that `close()` leaves in the handle; `store` is then the buffer that
it took. -/
structure Session where
  store : MemStore
  closed : Bool
  tainted : Bool
  syncs : List SyncCall
  close : CloseCall
  disk : List UInt8
  diskVersion : Nat
  reports : List Report
  deriving DecidableEq, Repr

inductive Mode where
  | readWrite
  | truncate
  deriving DecidableEq, Repr

/-- The session that a buffer starts over a file. -/
def Session.start (disk contents : List UInt8) : Session :=
  { store := ⟨contents, false, 0⟩, closed := false, tainted := false, syncs := []
    close := .notCalled, disk := disk, diskVersion := 0, reports := [] }

/-- The `.gz` branch of `FITS::new` for the writable modes. -/
def Session.opened (g : Gzip) (mode : Mode) (disk : List UInt8) : Option Session :=
  match mode with
  | .readWrite => (g.decompress disk).map (Session.start disk)
  | .truncate => some (Session.start [] [])

/-- The atomic steps.  `i` is the place of a `sync()` call among those in
flight. -/
inductive Event where
  /-- A `write` or `set_len` on the buffer. -/
  | mutate (contents : List UInt8)
  /-- A mid-write failure sets the taint flag. -/
  | taint
  /-- `sync()` is called and checks the taint flag. -/
  | syncCall
  /-- It looks at the buffer under the lock. -/
  | syncLock (i : Nat)
  /-- `gzip_write_back` renames its temporary file over the file. -/
  | syncRename (i : Nat)
  /-- `gzip_write_back` fails. -/
  | syncFail (i : Nat)
  /-- The failed call marks the buffer dirty again and returns. -/
  | syncRemark (i : Nat)
  /-- `close()` is called and takes the buffer. -/
  | closeTake
  /-- `close()` checks the taint flag. -/
  | closeCheck
  | closeRename
  | closeFail
  deriving DecidableEq, Repr

namespace Session

def report (s : Session) (r : Report) : Session := { s with reports := s.reports ++ [r] }

/-- The rename of `gzip_write_back`. -/
def install (g : Gzip) (s : Session) (snap : Snapshot) : Session :=
  { s with disk := g.compress snap.raw, diskVersion := snap.version }

/-- The `i`-th call in flight returns. -/
def finish (s : Session) (i : Nat) : Session := { s with syncs := s.syncs.eraseIdx i }

end Session

open Session in
/-- One atomic step of one thread.  `none`: the step cannot be taken. -/
def step (g : Gzip) (s : Session) : Event → Option Session
  | .mutate contents =>
    if s.closed then none
    else some { s with store := ⟨contents, true, s.store.version + 1⟩ }
  | .taint => some { s with tainted := true }
  | .syncCall =>
    if s.tainted then some (s.report .error)
    else some { s with syncs := s.syncs ++ [.checked] }
  | .syncLock i =>
    match s.syncs[i]? with
    | some .checked =>
      if s.closed = false ∧ s.store.dirty then
        some { s with
          store := { s.store with dirty := false }
          syncs := s.syncs.set i (.writing s.store.snapshot) }
      else some ((s.finish i).report .nothingToDo)
    | _ => none
  | .syncRename i =>
    match s.syncs[i]? with
    | some (.writing snap) => some (((s.install g snap).finish i).report (.wrote snap.version))
    | _ => none
  | .syncFail i =>
    match s.syncs[i]? with
    | some (.writing snap) => some { s with syncs := s.syncs.set i (.failed snap) }
    | _ => none
  | .syncRemark i =>
    match s.syncs[i]? with
    | some (.failed _) =>
      let s := (s.finish i).report .error
      -- A closed handle has no buffer left to mark.
      if s.closed then some s else some { s with store := { s.store with dirty := true } }
    | _ => none
  | .closeTake =>
    match s.close with
    | .notCalled =>
      if s.store.dirty then some { s with closed := true, close := .taken }
      else some (Session.report { s with closed := true, close := .returned true } .nothingToDo)
    | _ => none
  | .closeCheck =>
    match s.close with
    | .taken =>
      if s.tainted then some (Session.report { s with close := .returned false } .error)
      else some { s with close := .writing s.store.snapshot }
    | _ => none
  | .closeRename =>
    match s.close with
    | .writing snap =>
      some (Session.report (install g { s with close := .returned true } snap)
        (.wrote snap.version))
    | _ => none
  | .closeFail =>
    match s.close with
    | .writing _ => some (Session.report { s with close := .returned false } .error)
    | _ => none

/-- `close()` returned successfully and every `sync()` call has finished. -/
def Settled (s : Session) : Prop := s.close = .returned true ∧ s.syncs = []

/-- The file decompresses to the final contents of the buffer, or some call
reported an error and no call reported these contents as written. -/
def NoLostUpdate (g : Gzip) (s : Session) : Prop :=
  g.Holds s.disk s.store.contents ∨
    .error ∈ s.reports ∧ .wrote s.store.version ∉ s.reports

instance (g : Gzip) (s : Session) : Decidable (NoLostUpdate g s) :=
  inferInstanceAs (Decidable (_ ∨ _))

/-- The condition on one step: a `sync()` renames its copy over the file
only while the file does not yet hold a later state of the buffer. -/
def InOrder (s : Session) : Event → Prop
  | .syncRename i =>
    match s.syncs[i]? with
    | some (.writing snap) => s.diskVersion ≤ snap.version
    | _ => True
  | _ => True

/-! ## The invariant of a run -/

/-- The last state of the buffer is on disk, or something still answers for
it: a copy in flight, the dirty flag of an open handle, a `close()` that has
not succeeded, or an error that a call reported. -/
def Covered (s : Session) : Prop :=
  s.diskVersion = s.store.version ∨
  (∃ call ∈ s.syncs, ∃ snap, call.snapshot? = some snap ∧ snap.version = s.store.version) ∨
  (s.closed = false ∧ s.store.dirty = true) ∨
  (s.closed = true ∧ s.close ≠ .returned true) ∨
  (s.closed = true ∧ .error ∈ s.reports)

/-- A copy of the buffer is of an earlier state, or of this one. -/
def Of (m : MemStore) (snap : Snapshot) : Prop :=
  snap.version ≤ m.version ∧ (snap.version = m.version → snap.raw = m.contents)

structure Inv (g : Gzip) (s : Session) : Prop where
  copies : ∀ call ∈ s.syncs, ∀ snap, call.snapshot? = some snap → Of s.store snap
  diskVersion_le : s.diskVersion ≤ s.store.version
  holds : s.diskVersion = s.store.version → g.Holds s.disk s.store.contents
  reported_le : ∀ v, .wrote v ∈ s.reports → v ≤ s.diskVersion
  closed_iff : s.closed = true ↔ s.close ≠ .notCalled
  closing : ∀ snap, s.close = .writing snap → snap = s.store.snapshot
  covered : Covered s

section Steps

variable {g : Gzip} {s : Session}

theorem of_snapshot (m : MemStore) : Of m m.snapshot := ⟨Nat.le_refl _, fun _ => rfl⟩

/-- A copy stays a copy of an earlier state when the buffer is mutated. -/
theorem Of.mutate {m : MemStore} {snap : Snapshot} (h : Of m snap) (contents : List UInt8)
    (dirty : Bool) : Of ⟨contents, dirty, m.version + 1⟩ snap := by
  have hle := h.1
  refine ⟨by simp only; omega, fun he => ?_⟩
  simp only at he
  omega

theorem inv_start {disk contents : List UInt8} (h : g.Holds disk contents) :
    Inv g (Session.start disk contents) where
  copies := by simp [Session.start]
  diskVersion_le := Nat.le_refl _
  holds := fun _ => h
  reported_le := by simp [Session.start]
  closed_iff := by simp [Session.start]
  closing := by simp [Session.start]
  covered := Or.inl rfl

theorem inv_opened {mode : Mode} {disk : List UInt8} (h : Session.opened g mode disk = some s) :
    Inv g s := by
  cases mode with
  | readWrite =>
    simp only [Session.opened, Option.map_eq_some_iff] at h
    obtain ⟨contents, hd, rfl⟩ := h
    exact inv_start (Or.inl hd)
  | truncate =>
    simp only [Session.opened, Option.some.injEq] at h
    subst h
    exact inv_start (Or.inr ⟨rfl, rfl⟩)

theorem inv_mutate (hI : Inv g s) (ho : s.closed = false) (contents : List UInt8) :
    Inv g { s with store := ⟨contents, true, s.store.version + 1⟩ } where
  copies call hcall snap hsnap := (hI.copies call hcall snap hsnap).mutate contents true
  diskVersion_le := Nat.le_succ_of_le hI.diskVersion_le
  holds := by
    have hle := hI.diskVersion_le
    intro he
    simp only at he
    omega
  reported_le := hI.reported_le
  closed_iff := hI.closed_iff
  closing := by
    intro snap hc
    have : s.closed = true := hI.closed_iff.2 (by simp only at hc; simp [hc])
    simp [ho] at this
  covered := Or.inr (Or.inr (Or.inl ⟨ho, rfl⟩))

/-- A report that is not of a version leaves the invariant. -/
theorem inv_report (hI : Inv g s) {r : Report} (hr : ∀ v, r = .wrote v → v ≤ s.diskVersion) :
    Inv g (s.report r) where
  copies := hI.copies
  diskVersion_le := hI.diskVersion_le
  holds := hI.holds
  reported_le := by
    intro v hv
    rcases List.mem_append.1 hv with hv | hv
    · exact hI.reported_le v hv
    · exact hr v (List.mem_singleton.1 hv).symm
  closed_iff := hI.closed_iff
  closing := hI.closing
  covered := by
    rcases hI.covered with h | h | h | h | ⟨hc, he⟩
    · exact Or.inl h
    · exact Or.inr (Or.inl h)
    · exact Or.inr (Or.inr (Or.inl h))
    · exact Or.inr (Or.inr (Or.inr (Or.inl h)))
    · exact Or.inr (Or.inr (Or.inr (Or.inr ⟨hc, List.mem_append_left _ he⟩)))

/-- The calls in flight may change in any way that makes no copy up and
keeps those of the last state, when nothing else answers for that state. -/
theorem inv_syncs (hI : Inv g s) {calls : List SyncCall}
    (hcopies : ∀ call ∈ calls, ∀ snap, call.snapshot? = some snap → Of s.store snap)
    (hkeep : ∀ call ∈ s.syncs, ∀ snap, call.snapshot? = some snap →
      snap.version = s.store.version →
      s.diskVersion = s.store.version ∨
        ∃ call' ∈ calls, ∃ snap', call'.snapshot? = some snap' ∧
          snap'.version = s.store.version) :
    Inv g { s with syncs := calls } where
  copies := hcopies
  diskVersion_le := hI.diskVersion_le
  holds := hI.holds
  reported_le := hI.reported_le
  closed_iff := hI.closed_iff
  closing := hI.closing
  covered := by
    rcases hI.covered with h | ⟨call, hcall, snap, hsnap, hv⟩ | h
    · exact Or.inl h
    · rcases hkeep call hcall snap hsnap hv with h | h
      · exact Or.inl h
      · exact Or.inr (Or.inl h)
    · exact Or.inr (Or.inr h)

/-- A member of a list other than the erased one stays. -/
theorem mem_eraseIdx_of_ne {calls : List SyncCall} {i : Nat} {call erased : SyncCall}
    (hi : calls[i]? = some erased) (hcall : call ∈ calls) (hne : call ≠ erased) :
    call ∈ calls.eraseIdx i := by
  obtain ⟨j, hj⟩ := List.mem_iff_getElem?.1 hcall
  refine List.mem_eraseIdx_iff_getElem?.2 ⟨j, ?_, hj⟩
  rintro rfl
  rw [hi] at hj
  exact hne (Option.some.inj hj).symm

/-- A call that holds no copy of the last state, or whose copy is on disk,
may return. -/
theorem inv_finish (hI : Inv g s) {i : Nat} {erased : SyncCall}
    (hi : s.syncs[i]? = some erased)
    (hv : ∀ snap, erased.snapshot? = some snap → snap.version = s.store.version →
      s.diskVersion = s.store.version) :
    Inv g (s.finish i) := by
  refine inv_syncs hI (fun call hcall => hI.copies call (List.mem_of_mem_eraseIdx hcall)) ?_
  intro call hcall snap hsnap hver
  by_cases he : call = erased
  · exact Or.inl (hv snap (he ▸ hsnap) hver)
  · exact Or.inr ⟨call, mem_eraseIdx_of_ne hi hcall he, snap, hsnap, hver⟩

/-- A rename in order keeps the invariant: the file now holds the copy, and
the copy is of no earlier state than what it held. -/
theorem inv_install (hI : Inv g s) {snap : Snapshot} (hof : Of s.store snap)
    (hle : s.diskVersion ≤ snap.version) : Inv g (s.install g snap) where
  copies := hI.copies
  diskVersion_le := hof.1
  holds := by
    intro he
    have hraw : snap.raw = s.store.contents := hof.2 he
    refine Or.inl ?_
    show g.decompress (g.compress snap.raw) = some s.store.contents
    rw [← hraw]
    exact g.lossless snap.raw
  reported_le := fun v hv => Nat.le_trans (hI.reported_le v hv) hle
  closed_iff := hI.closed_iff
  closing := hI.closing
  covered := by
    rcases hI.covered with h | h
    · exact Or.inl (Nat.le_antisymm hof.1 (h ▸ hle))
    · exact Or.inr h

/-- The copy that `sync()` takes answers for the state whose flag it
clears. -/
theorem inv_snapshot (hI : Inv g s) {i : Nat} (hi : s.syncs[i]? = some .checked) :
    Inv g { s with
      store := { s.store with dirty := false }
      syncs := s.syncs.set i (.writing s.store.snapshot) } where
  copies := by
    intro call hcall snap hsnap
    rcases List.mem_or_eq_of_mem_set hcall with hcall | rfl
    · exact hI.copies call hcall snap hsnap
    · cases hsnap
      exact of_snapshot s.store
  diskVersion_le := hI.diskVersion_le
  holds := hI.holds
  reported_le := hI.reported_le
  closed_iff := hI.closed_iff
  closing := hI.closing
  covered := by
    refine Or.inr (Or.inl ⟨.writing s.store.snapshot, ?_, s.store.snapshot, rfl, rfl⟩)
    have hlt : i < s.syncs.length := (List.getElem?_eq_some_iff.1 hi).1
    exact List.mem_set hlt _

/-- A call that failed still holds its copy. -/
theorem inv_fail (hI : Inv g s) {i : Nat} {snap : Snapshot}
    (hi : s.syncs[i]? = some (.writing snap)) :
    Inv g { s with syncs := s.syncs.set i (.failed snap) } := by
  have hlt : i < s.syncs.length := (List.getElem?_eq_some_iff.1 hi).1
  have hmem : SyncCall.failed snap ∈ s.syncs.set i (.failed snap) := List.mem_set hlt _
  refine inv_syncs hI ?_ ?_
  · intro call hcall snap' hsnap'
    rcases List.mem_or_eq_of_mem_set hcall with hcall | rfl
    · exact hI.copies call hcall snap' hsnap'
    · exact hI.copies _ (List.mem_of_getElem? hi) snap' hsnap'
  · intro call hcall snap' hsnap' hver
    obtain ⟨j, hj⟩ := List.mem_iff_getElem?.1 hcall
    by_cases hij : i = j
    · subst hij
      rw [hi] at hj
      cases hj
      exact Or.inr ⟨_, hmem, snap', hsnap', hver⟩
    · refine Or.inr ⟨call, List.mem_of_getElem? (i := j) ?_, snap', hsnap', hver⟩
      rwa [List.getElem?_set_ne hij]

/-- A failed call leaves: its error answers for the copy that it drops when
the handle is closed, and the dirty flag does when it is open. -/
theorem inv_remark (hI : Inv g s) (i : Nat) {dirty : Bool}
    (hd : s.closed = false → dirty = true) :
    Inv g { (s.finish i).report .error with store := { s.store with dirty := dirty } } where
  copies call hcall := hI.copies call (List.mem_of_mem_eraseIdx hcall)
  diskVersion_le := hI.diskVersion_le
  holds := hI.holds
  reported_le := by
    intro v hv
    rcases List.mem_append.1 hv with hv | hv
    · exact hI.reported_le v hv
    · simp at hv
  closed_iff := hI.closed_iff
  closing := hI.closing
  covered := by
    by_cases hc : s.closed = true
    · exact Or.inr (Or.inr (Or.inr (Or.inr ⟨hc, by simp [Session.report]⟩)))
    · have ho : s.closed = false := by simpa using hc
      exact Or.inr (Or.inr (Or.inl ⟨ho, hd ho⟩))

/-- `close()` moves on: what answered for the last state still does, or the
call that has not succeeded does. -/
theorem inv_close (hI : Inv g s) {close : CloseCall} (hne : close ≠ .notCalled)
    (hclosing : ∀ snap, close = .writing snap → snap = s.store.snapshot)
    (hopen : s.closed = false → s.store.dirty = true → close ≠ .returned true)
    (hclosed : s.closed = true → close = .returned true → s.diskVersion = s.store.version) :
    Inv g { s with closed := true, close := close } where
  copies := hI.copies
  diskVersion_le := hI.diskVersion_le
  holds := hI.holds
  reported_le := hI.reported_le
  closed_iff := by simp [hne]
  closing := hclosing
  covered := by
    by_cases hr : close = .returned true
    · rcases hI.covered with h | h | ⟨ho, hd⟩ | ⟨hc, -⟩ | ⟨-, he⟩
      · exact Or.inl h
      · exact Or.inr (Or.inl h)
      · exact absurd hr (hopen ho hd)
      · exact Or.inl (hclosed hc hr)
      · exact Or.inr (Or.inr (Or.inr (Or.inr ⟨rfl, he⟩)))
    · exact Or.inr (Or.inr (Or.inr (Or.inl ⟨rfl, hr⟩)))

theorem inv_close_closed (hI : Inv g s) {close : CloseCall} (hclosed : s.closed = true)
    (hne : close ≠ .notCalled)
    (hclosing : ∀ snap, close = .writing snap → snap = s.store.snapshot)
    (hdisk : close = .returned true → s.diskVersion = s.store.version) :
    Inv g { s with close := close } := by
  have h := inv_close hI hne hclosing (by simp [hclosed]) fun _ => hdisk
  have hs : Session.mk s.store true s.tainted s.syncs close s.disk s.diskVersion s.reports =
      { s with close := close } := by rw [← hclosed]
  rwa [hs] at h

/-- Each step in order keeps the invariant. -/
theorem inv_step {e : Event} {s' : Session} (hI : Inv g s) (hord : InOrder s e)
    (h : step g s e = some s') : Inv g s' := by
  cases e with
  | mutate contents =>
    simp only [step] at h
    split at h
    · cases h
    next ho =>
      cases h
      exact inv_mutate hI (by simpa using ho) contents
  | taint =>
    cases h
    exact ⟨hI.copies, hI.diskVersion_le, hI.holds, hI.reported_le, hI.closed_iff, hI.closing,
      hI.covered⟩
  | syncCall =>
    simp only [step] at h
    split at h
    · cases h
      exact inv_report hI (by simp)
    · cases h
      refine inv_syncs hI ?_ ?_
      · intro call hcall snap hsnap
        rcases List.mem_append.1 hcall with hcall | hcall
        · exact hI.copies call hcall snap hsnap
        · rw [List.mem_singleton.1 hcall] at hsnap
          cases hsnap
      · intro call hcall snap hsnap hver
        exact Or.inr ⟨call, List.mem_append_left _ hcall, snap, hsnap, hver⟩
  | syncLock i =>
    simp only [step] at h
    split at h
    next hi =>
      split at h
      · cases h
        exact inv_snapshot hI hi
      · cases h
        exact inv_report (inv_finish hI hi (by simp [SyncCall.snapshot?])) (by simp)
    · cases h
  | syncRename i =>
    simp only [step] at h
    split at h
    next snap hi =>
      cases h
      have hof : Of s.store snap := hI.copies _ (List.mem_of_getElem? hi) snap rfl
      have hle : s.diskVersion ≤ snap.version := by simpa [InOrder, hi] using hord
      have hin := inv_install hI hof hle
      refine inv_report (inv_finish hin hi ?_) ?_
      · intro snap' hsnap' hver
        cases hsnap'
        exact hver
      · intro v hv
        cases hv
        exact Nat.le_refl _
    · cases h
  | syncFail i =>
    simp only [step] at h
    split at h
    next snap hi =>
      cases h
      exact inv_fail hI hi
    · cases h
  | syncRemark i =>
    simp only [step] at h
    split at h
    next snap hi =>
      split at h
      next hc =>
        cases h
        have hclosed : s.closed = true := hc
        exact inv_remark hI i (by simp [hclosed])
      next hc =>
        cases h
        exact inv_remark hI i fun _ => rfl
    · cases h
  | closeTake =>
    simp only [step] at h
    split at h
    next hc =>
      have ho : s.closed = false := by
        by_contra hne
        exact hI.closed_iff.1 (by simpa using hne) hc
      split at h
      next hd =>
        cases h
        exact inv_close hI (by simp) (by simp) (by simp) (by simp)
      next hd =>
        cases h
        refine inv_report (inv_close hI (by simp) (by simp) ?_ (by simp [ho])) (by simp)
        intro _ hd'
        exact absurd hd' hd
    · cases h
  | closeCheck =>
    simp only [step] at h
    split at h
    next hc =>
      have hclosed : s.closed = true := hI.closed_iff.2 (by simp [hc])
      split at h
      · cases h
        exact inv_report (inv_close_closed hI hclosed (by simp) (by simp) (by simp)) (by simp)
      · cases h
        exact inv_close_closed hI hclosed (by simp) (by simp) (by simp)
    · cases h
  | closeRename =>
    simp only [step] at h
    split at h
    next snap hc =>
      cases h
      have hclosed : s.closed = true := hI.closed_iff.2 (by simp [hc])
      have hsnap : snap = s.store.snapshot := hI.closing snap hc
      have hof : Of s.store snap := hsnap ▸ of_snapshot s.store
      have hle : s.diskVersion ≤ snap.version := hsnap ▸ hI.diskVersion_le
      have hin := inv_install hI hof hle
      have hver : (s.install g snap).diskVersion = s.store.version := by
        rw [hsnap]
        rfl
      refine inv_report (inv_close_closed hin hclosed (by simp) (by simp) fun _ => hver) ?_
      intro v hv
      cases hv
      exact Nat.le_refl _
    · cases h
  | closeFail =>
    simp only [step] at h
    split at h
    next snap hc =>
      cases h
      have hclosed : s.closed = true := hI.closed_iff.2 (by simp [hc])
      exact inv_report (inv_close_closed hI hclosed (by simp) (by simp) (by simp)) (by simp)
    · cases h

end Steps

/-- In every interleaving in which a `sync()` never renames its copy over a
later state of the buffer, whatever `close()` overlaps, no update is lost. -/
theorem renames_in_order_lose_nothing (g : Gzip) (mode : Mode) (disk : List UInt8)
    (s₀ s : Session) (events : List Event) (hopen : Session.opened g mode disk = some s₀)
    (hord : Trace.EachStep (step g) InOrder s₀ events)
    (hrun : Trace.run (step g) s₀ events = some s) (hset : Settled s) : NoLostUpdate g s := by
  have hI : Inv g s := by
    refine Trace.invariant (P := InOrder) ?_ (inv_opened hopen) hord hrun
    intro t e t' hI hP ht
    exact inv_step hI hP ht
  by_cases hv : s.diskVersion = s.store.version
  · exact Or.inl (hI.holds hv)
  refine Or.inr ⟨?_, fun hw => ?_⟩
  · have hclosed : s.closed = true := hI.closed_iff.2 (by simp [hset.1])
    rcases hI.covered with h | ⟨call, hcall, -⟩ | ⟨ho, -⟩ | ⟨-, hr⟩ | ⟨-, he⟩
    · exact absurd h hv
    · simp [hset.2] at hcall
    · simp [hclosed] at ho
    · exact absurd hset.1 hr
    · exact he
  · exact hv (Nat.le_antisymm hI.diskVersion_le (hI.reported_le _ hw))

/-! ## The interleavings of two `sync()` calls -/

/-- A codec for runs on fixed inputs: the two magic bytes and the contents
as they are. -/
def stored : Gzip where
  compress raw := 31 :: 139 :: raw
  decompress
    | 31 :: 139 :: raw => some raw
    | _ => none
  lossless _ := rfl

/-- Two `sync()` calls overlap, one with the buffer `[1]` and one with
`[1, 2]`, and their renames come in either order.  `close()` then finds the
flag clear. -/
def overlapping (first second : Event) : List Event :=
  [.mutate [1], .syncCall, .syncLock 0, .mutate [1, 2], .syncCall, .syncLock 1, first, second,
    .closeTake]

theorem renames_in_order_lose_nothing_overlapping :
    ∃ s, Trace.run (step stored) (Session.start [] [])
        (overlapping (.syncRename 0) (.syncRename 0)) = some s ∧
      Settled s ∧ s.store.contents = [1, 2] ∧ NoLostUpdate stored s := by
  refine ⟨_, rfl, ⟨rfl, rfl⟩, rfl, ?_⟩
  refine renames_in_order_lose_nothing stored .truncate [] _ _
    (overlapping (.syncRename 0) (.syncRename 0)) rfl ?_ rfl ⟨rfl, rfl⟩
  exact ⟨trivial, trivial, trivial, trivial, trivial, trivial, Nat.zero_le 1, Nat.le_succ 1,
    trivial, trivial⟩

/-- The older copy is renamed last: `close()` succeeds, no call reports an
error, and the file holds the older state. -/
theorem not_noLostUpdate_lateRename :
    ∃ s, Session.opened stored .truncate [] = some (Session.start [] []) ∧
      Trace.run (step stored) (Session.start [] [])
        (overlapping (.syncRename 1) (.syncRename 0)) = some s ∧
      Settled s ∧ s.store.contents = [1, 2] ∧ stored.Holds s.disk [1] ∧
      Report.error ∉ s.reports ∧ ¬ NoLostUpdate stored s := by
  exact ⟨_, rfl, rfl, ⟨rfl, rfl⟩, rfl, Or.inl rfl, by decide, by decide⟩

end GzipWriteBack

end RustFits
