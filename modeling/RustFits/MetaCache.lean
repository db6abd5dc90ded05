import RustFits.ColumnEdit.Rows
import RustFits.Header.Model
import RustFits.AsciiTable.Columns

/-!
# Cached metadata

Every HDU class keeps the metadata that it has parsed from the header, with the
version of the card list it was parsed from.  The views of an HDU share the card
list and its version counter.  The card list is only replaced by the commit of a
write guard, which bumps the counter.

* `Shared` is what the views share, `hduMeta` the hot path of all five classes.  The
  parser is a parameter: it is a function of the card list.
* `HduCall` is an operation of a view: reads of the metadata and of the cards,
  work on the file and on the offsets, commits.  An I/O error may stop it at any
  step of the second kind, and may taint the handle.
* `Runs` are all interleavings of such steps.  Beside the state it carries the age
  of the cache entry, the number of commits since it was stored.
* `meta_current` is the result.  `headerCall_erases`, `insertColumnImpl` and
  `deleteColumnImpl` are operations of the source in this form.
-/

namespace RustFits.MetaCache

open Ascii ByteFile Machine

/-! ## The state -/

/-- What the views of an HDU share, and one of its caches. -/
structure Shared (M : Type) where
  fits : Fits
  version : Nat
  tainted : Bool
  metaCache : Option (Nat × M)

/-- The card list of the HDU. -/
def cardsAt (idx : Nat) (s : Fits) : List Card :=
  match s.hdus[idx]? with
  | some h => h.cards
  | none => []

/-- The file has these cards. -/
def HasCards (idx : Nat) (cards : List Card) (s : Fits) : Prop := cardsAt idx s = cards

/-- Work on the file and on the offsets, which leaves the card list alone. -/
structure DiskOp (idx : Nat) (α : Type) where
  op : FileOp α
  keeps : ∀ cards, Triple (HasCards idx cards) op (fun _ => HasCards idx cards)
    fun _ => HasCards idx cards

/-- An I/O error in the middle of such work: what it leaves of the file, and
whether it taints the handle. -/
structure Fault (idx : Nat) where
  left : Fits → Fits
  keeps : ∀ s, cardsAt idx (left s) = cardsAt idx s
  taints : Bool
  err : PyErr

/-! ## The accessors -/

abbrev HduM (M : Type) := EStateM PyErr (Shared M)

def taintError : PyErr :=
  .io (str "this FITS file is in an indeterminate state after a mid-write " ++
    str "I/O failure; the on-disk header may be partially overwritten " ++ emDash ++
    str " close the FITS object and reopen the file to recover")

section

variable {M : Type} (idx : Nat)

def checkNotTainted : HduM M Unit := do
  if (← get).tainted then throw taintError

/-- `header_snapshot`. -/
def headerSnapshot : HduM M (List Card) := do
  checkNotTainted
  return cardsAt idx (← get).fits

/-- `CardsWriteGuard::commit`: the cards and the version, in one. -/
def commit (cards : List Card) : HduM M Unit :=
  modify fun s => { s with
    fits := { s.fits with hdus := s.fits.hdus.modify idx fun h => { h with cards := cards } }
    version := (s.version + 1) % u64Size }

variable (parse : List Card → Except PyErr M)

/-- The slow path of `meta`: parse a snapshot, and store it under the version that
was read before. -/
def metaMiss (curVersion : Nat) : HduM M M := do
  let cards ← headerSnapshot idx
  match parse cards with
  | .error e => throw e
  | .ok m =>
    modify fun s => { s with metaCache := some (curVersion, m) }
    return m

/-- `meta`.  The compressed table checks for a tainted handle first. -/
def hduMeta (checksTaint : Bool) : HduM M M := do
  if checksTaint then checkNotTainted
  let s ← get
  match s.metaCache with
  | some (v, m) => if v = s.version then return m else metaMiss idx parse s.version
  | none => metaMiss idx parse s.version

end

/-! ## Operations -/

/-- An operation of a view, step by step.  What it does next depends on what it has
read; an error that it does not catch ends it. -/
inductive HduCall (idx : Nat) (M : Type) : Type 1 where
  | done
  | raise (e : PyErr)
  | readMeta (next : Except PyErr M → HduCall idx M)
  | snapshot (next : Except PyErr (List Card) → HduCall idx M)
  | disk {β : Type} (work : DiskOp idx β) (next : Except PyErr β → HduCall idx M)
  | commit (cards : List Card) (next : HduCall idx M)

/-- The next step of an operation that raises every error. -/
def orRaise {idx : Nat} {M β : Type} (next : β → HduCall idx M) : Except PyErr β → HduCall idx M
  | .ok b => next b
  | .error e => .raise e

section

variable {M : Type} {idx : Nat} (parse : List Card → Except PyErr M) (checksTaint : Bool)

/-- Hand the result of a step to the next one. -/
def handOver {β : Type} (x : HduM M β) (next : Except PyErr β → HduM M Unit) : HduM M Unit :=
  fun s =>
  match x s with
  | .ok b s' => next (.ok b) s'
  | .error e s' => next (.error e) s'

/-- Work on the file, with the fault that strikes it, if one does. -/
def workOn {β : Type} (work : DiskOp idx β) : Option (Fault idx) → HduM M β
  | some fault => fun s =>
    .error fault.err { s with fits := fault.left s.fits, tainted := s.tainted || fault.taints }
  | none => fun s =>
    match work.op s.fits with
    | .ok b fits => .ok b { s with fits := fits }
    | .error e fits => .error e { s with fits := fits }

/-- The run of an operation.  The faults strike its works on the file in order. -/
def HduCall.run : HduCall idx M → List (Option (Fault idx)) → HduM M Unit
  | .done, _ => pure ()
  | .raise e, _ => throw e
  | .readMeta next, faults => handOver (hduMeta idx parse checksTaint) fun r => (next r).run faults
  | .snapshot next, faults => handOver (headerSnapshot idx) fun r => (next r).run faults
  | .disk work next, faults =>
    handOver (workOn work (faults.headD none)) fun r => (next r).run faults.tail
  | .commit cards next, faults => do
    MetaCache.commit idx cards
    next.run faults

end

/-! ## Runs -/

section

variable {M : Type}

/-- The state that a step leaves, whether it returns or raises. -/
def leaves {σ ε β : Type} (x : EStateM ε σ β) (s : σ) : σ :=
  match x s with
  | .ok _ s' => s'
  | .error _ s' => s'

/-- The states that the steps of any operations reach, in any order and number,
with the age of the cache entry. -/
inductive Runs (idx : Nat) (parse : List Card → Except PyErr M) :
    Shared M → Option Nat → Prop where
  /-- The HDU object of a file that was just opened. -/
  | opened (fits : Fits) : Runs idx parse ⟨fits, 0, false, none⟩ none
  /-- Work on the file, complete or not. -/
  | work {s : Shared M} {age : Option Nat} (fits : Fits) (taints : Bool) :
      Runs idx parse s age → cardsAt idx fits = cardsAt idx s.fits →
      Runs idx parse { s with fits := fits, tainted := s.tainted || taints } age
  /-- A commit. -/
  | commit {s : Shared M} {age : Option Nat} (cards : List Card) :
      Runs idx parse s age → Runs idx parse (leaves (commit idx cards) s) (age.map (· + 1))
  /-- A call of `meta` that stores what it has parsed. -/
  | store {s : Shared M} {age : Option Nat} {m : M} :
      Runs idx parse s age → parse (cardsAt idx s.fits) = .ok m →
      Runs idx parse { s with metaCache := some (s.version, m) } (some 0)

/-- The entry belongs to the version that it names: it was parsed from the cards of
`age` commits ago. -/
structure Fresh (idx : Nat) (parse : List Card → Except PyErr M) (s : Shared M)
    (age : Option Nat) : Prop where
  version : s.version < u64Size
  entry : ∀ v m, s.metaCache = some (v, m) → ∃ n, age = some n ∧ v < u64Size ∧
    s.version = (v + n) % u64Size ∧ (n = 0 → parse (cardsAt idx s.fits) = .ok m)

section

variable {idx : Nat} {parse : List Card → Except PyErr M} {s : Shared M} {age : Option Nat}

theorem fresh_of_runs (hrun : Runs idx parse s age) : Fresh idx parse s age := by
  induction hrun with
  | opened fits => exact ⟨(by decide : 0 < u64Size), fun v m h => by cases h⟩
  | work fits taints _ hcards ih =>
    refine ⟨ih.version, fun v m h => ?_⟩
    rw [hcards]
    exact ih.entry v m h
  | @commit s age cards _ ih =>
    refine ⟨Nat.mod_lt _ (by decide), fun v m h => ?_⟩
    obtain ⟨n, rfl, hv, hversion, -⟩ := ih.entry v m h
    refine ⟨n + 1, rfl, hv, ?_, by omega⟩
    show (s.version + 1) % u64Size = _
    rw [hversion, Nat.mod_add_mod, Nat.add_assoc]
  | @store s age m _ hparse ih =>
    refine ⟨ih.version, fun v m' h => ?_⟩
    cases h
    exact ⟨0, rfl, ih.version, (Nat.mod_eq_of_lt ih.version).symm, fun _ => hparse⟩

/-- The counter has not come round since the entry was stored. -/
def Young (age : Option Nat) : Prop := ∀ n, age = some n → n < u64Size

/-- What the slow path returns. -/
theorem metaMiss_run (v : Nat) (s : Shared M) : metaMiss idx parse v s =
    if s.tainted then .error taintError s
    else match parse (cardsAt idx s.fits) with
      | .ok m => .ok m { s with metaCache := some (v, m) }
      | .error e => .error e s := by
  obtain ⟨fits, version, tainted, metaCache⟩ := s
  cases tainted with
  | true => rfl
  | false =>
    show (match parse (cardsAt idx fits) with
      | .error e => throw e
      | .ok m => do
        modify fun s => { s with metaCache := some (v, m) }
        return m : HduM M M) _ = _
    cases parse (cardsAt idx fits) <;> rfl

/-- What `meta` returns: the entry of the present version, or what the slow path
parses. -/
theorem hduMeta_cases (checksTaint : Bool) (s : Shared M) :
    hduMeta idx parse checksTaint s = .error taintError s ∧ s.tainted = true ∨
      (∃ m, s.metaCache = some (s.version, m) ∧ hduMeta idx parse checksTaint s = .ok m s) ∨
      hduMeta idx parse checksTaint s = metaMiss idx parse s.version s := by
  obtain ⟨fits, version, tainted, metaCache⟩ := s
  by_cases hguard : (checksTaint && tainted) = true
  · obtain ⟨rfl, rfl⟩ := Bool.and_eq_true_iff.1 hguard
    exact Or.inl ⟨rfl, rfl⟩
  · have hpass : hduMeta idx parse checksTaint ⟨fits, version, tainted, metaCache⟩ =
        (match metaCache with
          | some (v, m) => if v = version then return m else metaMiss idx parse version
          | none => metaMiss idx parse version : HduM M M) ⟨fits, version, tainted, metaCache⟩ := by
      cases checksTaint <;> cases tainted <;> first | rfl | exact absurd rfl hguard
    refine Or.inr ?_
    rw [hpass]
    rcases metaCache with _ | ⟨v, m⟩
    · exact Or.inr rfl
    · dsimp only
      split_ifs with hv
      · subst hv
        exact Or.inl ⟨m, rfl, rfl⟩
      · exact Or.inr rfl

/-- The answer of a call in state `s` is what parsing the present cards gives, or the
error of a tainted handle.  The call changes nothing but the entry. -/
def Current (idx : Nat) (parse : List Card → Except PyErr M) (s : Shared M) :
    EStateM.Result PyErr (Shared M) M → Prop
  | .ok m s' => parse (cardsAt idx s.fits) = .ok m ∧ s'.fits = s.fits ∧ s'.version = s.version
  | .error e s' => s' = s ∧
      (parse (cardsAt idx s.fits) = .error e ∨ e = taintError ∧ s.tainted = true)

theorem runs_hduMeta (hrun : Runs idx parse s age) (checksTaint : Bool) :
    ∃ age', Runs idx parse (leaves (hduMeta idx parse checksTaint) s) age' := by
  unfold leaves
  rcases @hduMeta_cases M idx parse checksTaint s with
    ⟨hraise, -⟩ | ⟨m, -, hhit⟩ | hmiss
  · rw [hraise]
    exact ⟨age, hrun⟩
  · rw [hhit]
    exact ⟨age, hrun⟩
  · rw [hmiss, metaMiss_run]
    split_ifs
    · exact ⟨age, hrun⟩
    · cases hparse : parse (cardsAt idx s.fits) with
      | ok m => exact ⟨some 0, .store hrun hparse⟩
      | error e => exact ⟨age, hrun⟩

theorem runs_headerSnapshot (hrun : Runs idx parse s age) :
    Runs idx parse (leaves (headerSnapshot idx) s) age := by
  have hsame : leaves (headerSnapshot idx) s = s := by
    obtain ⟨fits, version, tainted, metaCache⟩ := s
    cases tainted <;> rfl
  rw [hsame]
  exact hrun

theorem runs_workOn {β : Type} (hrun : Runs idx parse s age) (work : DiskOp idx β)
    (fault : Option (Fault idx)) : Runs idx parse (leaves (workOn work fault) s) age := by
  cases fault with
  | some fault => exact .work _ fault.taints hrun (fault.keeps s.fits)
  | none =>
    have hkept := work.keeps (cardsAt idx s.fits) s.fits rfl
    unfold leaves workOn
    dsimp only
    cases hop : work.op s.fits with
    | ok b fits =>
      rw [hop] at hkept
      have hwork := Runs.work fits false hrun hkept
      rwa [Bool.or_false] at hwork
    | error e fits =>
      rw [hop] at hkept
      have hwork := Runs.work fits false hrun hkept
      rwa [Bool.or_false] at hwork

theorem leaves_handOver {β : Type} (x : HduM M β) (next : Except PyErr β → HduM M Unit)
    (s : Shared M) : ∃ r, leaves (handOver x next) s = leaves (next r) (leaves x s) := by
  unfold leaves handOver
  cases x s with
  | ok b s' => exact ⟨.ok b, rfl⟩
  | error e s' => exact ⟨.error e, rfl⟩

/-- An operation, with any faults, is a part of a run, also when it fails. -/
theorem runs_call (checksTaint : Bool) (call : HduCall idx M) :
    ∀ (faults : List (Option (Fault idx))) {s : Shared M} {age : Option Nat},
      Runs idx parse s age →
      ∃ age', Runs idx parse (leaves (call.run parse checksTaint faults) s) age' := by
  induction call with
  | done => exact fun _ _ age hrun => ⟨age, hrun⟩
  | raise e => exact fun _ _ age hrun => ⟨age, hrun⟩
  | readMeta next ih =>
    intro faults s age hrun
    obtain ⟨r, hr⟩ := leaves_handOver (hduMeta idx parse checksTaint)
      (fun r => (next r).run parse checksTaint faults) s
    obtain ⟨age', hrun'⟩ := runs_hduMeta hrun checksTaint
    rw [HduCall.run, hr]
    exact ih r faults hrun'
  | snapshot next ih =>
    intro faults s age hrun
    obtain ⟨r, hr⟩ := leaves_handOver (headerSnapshot idx)
      (fun r => (next r).run parse checksTaint faults) s
    rw [HduCall.run, hr]
    exact ih r faults (runs_headerSnapshot hrun)
  | disk work next ih =>
    intro faults s age hrun
    obtain ⟨r, hr⟩ := leaves_handOver (workOn work (faults.headD none))
      (fun r => (next r).run parse checksTaint faults.tail) s
    rw [HduCall.run, hr]
    exact ih r faults.tail (runs_workOn hrun work _)
  | commit cards next ih =>
    intro faults s age hrun
    exact ih faults (Runs.commit cards hrun)

/-- The calls that the views make on an HDU, one after the other. -/
def callAll (parse : List Card → Except PyErr M) (checksTaint : Bool) :
    List (HduCall idx M × List (Option (Fault idx))) → Shared M → Shared M
  | [], s => s
  | (call, faults) :: rest, s => callAll parse checksTaint rest
      (leaves (call.run parse checksTaint faults) s)

theorem runs_callAll (checksTaint : Bool)
    (calls : List (HduCall idx M × List (Option (Fault idx)))) (hrun : Runs idx parse s age) :
    ∃ age', Runs idx parse (callAll parse checksTaint calls s) age' := by
  induction calls generalizing s age with
  | nil => exact ⟨age, hrun⟩
  | cons call rest ih =>
    obtain ⟨age', hrun'⟩ := runs_call checksTaint call.1 call.2 hrun
    exact ih hrun'

end

end

/-! ## Work on the file -/

section

variable {idx : Nat} {cards : List Card}

theorem cardsAt_map (g : HduOffsets → HduOffsets) (s : Fits) (bytes : Bytes) :
    cardsAt idx ⟨bytes, s.hdus.map fun h => { h with offsets := g h.offsets }⟩ = cardsAt idx s := by
  unfold cardsAt
  rw [List.getElem?_map]
  cases s.hdus[idx]? <;> rfl

theorem cardsAt_modify (g : HduOffsets → HduOffsets) (i : Nat) (s : Fits) (bytes : Bytes) :
    cardsAt idx ⟨bytes, s.hdus.modify i fun h => { h with offsets := g h.offsets }⟩ =
      cardsAt idx s := by
  unfold cardsAt
  rw [List.getElem?_modify]
  cases s.hdus[idx]? with
  | none => rfl
  | some h => by_cases hi : i = idx <;> simp [hi]

/-- Work after which the file still has its cards, whatever happens. -/
abbrev KeepsCards {α : Type} (idx : Nat) (op : FileOp α) : Prop :=
  ∀ cards, Triple (HasCards idx cards) op (fun _ => HasCards idx cards) fun _ => HasCards idx cards

theorem keepsCards_pure {α : Type} (a : α) : KeepsCards idx (pure a : FileOp α) :=
  fun _ => Triple.pure fun _ hs => hs

theorem keepsCards_bind {α β : Type} {x : FileOp α} {f : α → FileOp β} (hx : KeepsCards idx x)
    (hf : ∀ a, KeepsCards idx (f a)) : KeepsCards idx (x >>= f) := fun cards =>
  (hx cards).bind fun a => hf a cards

theorem keepsCards_writeAt (off : Nat) (data : Bytes) : KeepsCards idx (writeAt off data) :=
  fun _ => Triple.modify fun _ hs => hs

theorem keepsCards_readAt (context : Str) (off n : Nat) : KeepsCards idx (readAt context off n) :=
  fun _ => (Triple.readAt fun _ _ hs => hs).post fun _ _ hs => hs.2

theorem keepsCards_ofExcept {α : Type} (x : Except PyErr α) : KeepsCards idx (FileOp.ofExcept x) :=
  fun _ => (Triple.ofExcept fun _ _ hs => hs).post fun _ _ hs => hs.2

theorem keepsCards_shift (afterOffset delta : Nat) :
    KeepsCards idx (shiftFileTailAndUpdateOffsets afterOffset delta) := by
  intro cards s hs
  unfold shiftFileTailAndUpdateOffsets
  split_ifs
  · exact hs
  · dsimp only
    cases copyBackToFront shiftChunk afterOffset (afterOffset + delta)
        (s.bytes.length - afterOffset)
        (s.bytes.length - afterOffset)
        (setLen s.bytes (max (s.bytes.length + delta) (afterOffset + delta))) with
    | none => exact hs
    | some bytes => exact (cardsAt_map (HduOffsets.shift afterOffset delta) s bytes).trans hs

theorem keepsCards_shiftBack (oldAfterOffset delta : Nat) :
    KeepsCards idx (shiftFileTailBackwardAndUpdateOffsets oldAfterOffset delta) := by
  intro cards s hs
  unfold shiftFileTailBackwardAndUpdateOffsets
  split_ifs
  · exact hs
  · exact hs
  · dsimp only
    cases copyFrontToBack shiftChunk oldAfterOffset (oldAfterOffset - delta)
        (s.bytes.length - oldAfterOffset) (s.bytes.length - oldAfterOffset) 0 s.bytes with
    | none => exact hs
    | some bytes => exact (cardsAt_map (HduOffsets.shiftBack oldAfterOffset delta) s _).trans hs

theorem keepsCards_rewriteHeaderToDisk (cards : List Card) :
    KeepsCards idx (rewriteHeaderToDisk idx cards) := by
  intro kept s hs
  unfold rewriteHeaderToDisk
  rw [FileOp.get_bind]
  cases s.hdus[idx]? with
  | none => exact hs
  | some h =>
    dsimp only
    split_ifs
    · refine keepsCards_bind (keepsCards_shift _ _) (fun _ => keepsCards_bind ?_ fun _ =>
        keepsCards_writeAt _ _) kept s hs
      intro _
      apply Triple.modify
      exact fun t ht => (cardsAt_modify (HduOffsets.reserve cards.length) idx t t.bytes).trans ht
    · exact keepsCards_writeAt _ _ kept s hs

theorem keepsCards_growOrShrinkDataExtent (dataOffset oldDataBytes newDataBytes : Nat) :
    KeepsCards idx (ColumnEdit.growOrShrinkDataExtent dataOffset oldDataBytes newDataBytes) := by
  have hsetLen : ∀ n, KeepsCards idx (modify fun s => { s with bytes := setLen s.bytes n }) :=
    fun n _ => Triple.modify fun _ hs => hs
  unfold ColumnEdit.growOrShrinkDataExtent
  dsimp only
  split_ifs with hsame hgrow
  · exact keepsCards_pure ()
  · refine keepsCards_bind (fun _ => Triple.get fun _ hs => hs) fun s => ?_
    split_ifs
    · exact keepsCards_bind (keepsCards_shift _ _) fun _ => keepsCards_writeAt _ _
    · exact hsetLen _
  · refine keepsCards_bind (fun _ => Triple.get fun _ hs => hs) fun s => ?_
    split_ifs
    · exact keepsCards_shiftBack _ _
    · exact hsetLen _

theorem keepsCards_shuffleMainForInsert (context : Str)
    (dataOffset nrows rowWidth newRowWidth preWidth : Nat) (cell : Nat → Except PyErr Bytes) :
    KeepsCards idx (ColumnEdit.shuffleMainForInsert context dataOffset nrows rowWidth newRowWidth
      preWidth cell) := by
  have hstrips : ∀ strip fuel rowEnd, KeepsCards idx (ColumnEdit.insertStrips context dataOffset
      rowWidth newRowWidth preWidth strip cell fuel rowEnd) := by
    intro strip fuel
    induction fuel with
    | zero => exact fun _ => keepsCards_pure ()
    | succ fuel ih =>
      intro rowEnd
      rw [ColumnEdit.insertStrips]
      split_ifs
      · exact keepsCards_pure ()
      · apply keepsCards_bind (keepsCards_readAt _ _ _)
        intro old
        apply keepsCards_bind (keepsCards_ofExcept _)
        exact fun new => keepsCards_bind (keepsCards_writeAt _ _) fun _ => ih _
  unfold ColumnEdit.shuffleMainForInsert
  split_ifs
  · exact keepsCards_pure ()
  · exact hstrips _ _ _

theorem keepsCards_shuffleMainForDelete (context : Str)
    (dataOffset nrows rowWidth newRowWidth preWidth postOffset : Nat) :
    KeepsCards idx (ColumnEdit.shuffleMainForDelete context dataOffset nrows rowWidth newRowWidth
      preWidth postOffset) := by
  have hstrips : ∀ strip fuel rowStart, KeepsCards idx (ColumnEdit.deleteStrips context dataOffset
      rowWidth newRowWidth preWidth strip postOffset nrows fuel rowStart) := by
    intro strip fuel
    induction fuel with
    | zero => exact fun _ => keepsCards_pure ()
    | succ fuel ih =>
      intro rowStart
      rw [ColumnEdit.deleteStrips]
      split_ifs
      · exact keepsCards_pure ()
      · apply keepsCards_bind (keepsCards_readAt _ _ _)
        exact fun old => keepsCards_bind (keepsCards_writeAt _ _) fun _ => ih _
  unfold ColumnEdit.shuffleMainForDelete
  split_ifs
  · exact keepsCards_pure ()
  · exact hstrips _ _ _

end

/-! ## Operations of the source -/

section

variable {M : Type} {idx : Nat}

def rewriteWork (cards : List Card) : DiskOp idx Unit :=
  ⟨rewriteHeaderToDisk idx cards, keepsCards_rewriteHeaderToDisk cards⟩

/-- The offset of the data section, as it is now. -/
def offsetWork : DiskOp idx Nat where
  op := fun s => .ok (match s.hdus[idx]? with
    | some h => h.offsets.dataOffset
    | none => 0) s
  keeps _ _ hs := hs

def extentWork (dataOffset oldDataBytes newDataBytes : Nat) : DiskOp idx Unit :=
  ⟨ColumnEdit.growOrShrinkDataExtent dataOffset oldDataBytes newDataBytes,
    keepsCards_growOrShrinkDataExtent _ _ _⟩

/-- A mutating method of the header view. -/
def headerMethodCall {F : Type} (floats : Header.Floats F) (m : Header.HeaderMethod F) :
    HduCall idx M :=
  .snapshot (orRaise fun cards =>
    match m.run floats cards with
    | .error e _ => .raise e
    | .ok true newCards => .disk (rewriteWork newCards) (orRaise fun _ => .commit newCards .done)
    | .ok false _ => .done)

/-- What the front of a column edit computes from the cards: the new cards, the
rows, and for an insertion the texts of the new column. -/
structure ColumnPlan where
  newCards : List Card
  nrows : Nat
  rowWidth : Nat
  newRowWidth : Nat
  preWidth : Nat
  postOffset : Nat
  cell : Nat → Except PyErr Bytes

variable (context : Str) (plan : List Card → Except PyErr ColumnPlan)

/-- `insert_column_impl` of an ASCII table.  The header is rewritten first; the cards
are committed last, when the rows have been moved. -/
def insertColumnImpl : HduCall idx M :=
  .snapshot (orRaise fun cards => orRaise (fun p =>
    .disk (rewriteWork p.newCards) (orRaise fun _ =>
    .disk offsetWork (orRaise fun dataOffset =>
    .disk (extentWork dataOffset (p.nrows * p.rowWidth) (p.nrows * p.newRowWidth)) (orRaise fun _ =>
    .disk ⟨ColumnEdit.shuffleMainForInsert context dataOffset p.nrows p.rowWidth p.newRowWidth
      p.preWidth p.cell, keepsCards_shuffleMainForInsert _ _ _ _ _ _ _⟩ (orRaise fun _ =>
    .commit p.newCards .done))))) (plan cards))

/-- `delete_column_impl` of an ASCII table. -/
def deleteColumnImpl : HduCall idx M :=
  .snapshot (orRaise fun cards => orRaise (fun p =>
    .disk (rewriteWork p.newCards) (orRaise fun _ =>
    .disk offsetWork (orRaise fun dataOffset =>
    .disk ⟨ColumnEdit.shuffleMainForDelete context dataOffset p.nrows p.rowWidth p.newRowWidth
      p.preWidth p.postOffset, keepsCards_shuffleMainForDelete _ _ _ _ _ _ _⟩ (orRaise fun _ =>
    .disk (extentWork dataOffset (p.nrows * p.rowWidth) (p.nrows * p.newRowWidth)) (orRaise fun _ =>
    .commit p.newCards .done))))) (plan cards))

/-- Nothing follows the commit of the operation. -/
def HduCall.CommitsLast : HduCall idx M → Prop
  | .done => True
  | .raise _ => True
  | .readMeta next => ∀ r, (next r).CommitsLast
  | .snapshot next => ∀ r, (next r).CommitsLast
  | .disk _ next => ∀ r, (next r).CommitsLast
  | .commit _ next => next = .done

theorem commitsLast_orRaise {β : Type} {next : β → HduCall idx M} (h : ∀ b, (next b).CommitsLast) :
    ∀ r, (orRaise next r).CommitsLast
  | .ok b => h b
  | .error _ => trivial

theorem commitsLast_commit (cards : List Card) :
    (HduCall.commit cards .done : HduCall idx M).CommitsLast := rfl

theorem commitsLast_headerMethodCall {F : Type} (floats : Header.Floats F)
    (m : Header.HeaderMethod F) :
    (headerMethodCall floats m : HduCall idx M).CommitsLast := by
  refine commitsLast_orRaise fun cards => ?_
  rcases m.run floats cards with ⟨⟨⟩ | ⟨⟩, newCards⟩ | ⟨e, newCards⟩
  · trivial
  · exact commitsLast_orRaise fun _ => commitsLast_commit _
  · trivial

theorem commitsLast_insertColumnImpl :
    (insertColumnImpl context plan : HduCall idx M).CommitsLast := by
  refine commitsLast_orRaise fun cards => commitsLast_orRaise (fun p => ?_) _
  refine commitsLast_orRaise fun _ => ?_
  refine commitsLast_orRaise fun dataOffset => ?_
  refine commitsLast_orRaise fun _ => ?_
  exact commitsLast_orRaise fun _ => commitsLast_commit _

theorem commitsLast_deleteColumnImpl :
    (deleteColumnImpl context plan : HduCall idx M).CommitsLast := by
  refine commitsLast_orRaise fun cards => commitsLast_orRaise (fun p => ?_) _
  refine commitsLast_orRaise fun _ => ?_
  refine commitsLast_orRaise fun dataOffset => ?_
  refine commitsLast_orRaise fun _ => ?_
  exact commitsLast_orRaise fun _ => commitsLast_commit _

end

section

variable {M : Type} {idx : Nat} {parse : List Card → Except PyErr M}

/-- The cards and their version are those of the state before. -/
structure SameCards (idx : Nat) (s s' : Shared M) : Prop where
  cards : cardsAt idx s'.fits = cardsAt idx s.fits
  version : s'.version = s.version

theorem sameCards_hduMeta (checksTaint : Bool) (s : Shared M) :
    SameCards idx s (leaves (hduMeta idx parse checksTaint) s) := by
  unfold leaves
  rcases @hduMeta_cases M idx parse checksTaint s with
    ⟨hraise, -⟩ | ⟨m, -, hhit⟩ | hmiss
  · rw [hraise]
    exact ⟨rfl, rfl⟩
  · rw [hhit]
    exact ⟨rfl, rfl⟩
  · rw [hmiss, metaMiss_run]
    split_ifs
    · exact ⟨rfl, rfl⟩
    · cases parse (cardsAt idx s.fits) <;> exact ⟨rfl, rfl⟩

theorem sameCards_headerSnapshot (s : Shared M) :
    SameCards idx s (leaves (headerSnapshot idx) s) := by
  obtain ⟨fits, version, tainted, metaCache⟩ := s
  cases tainted <;> exact ⟨rfl, rfl⟩

theorem sameCards_workOn {β : Type} (work : DiskOp idx β) (fault : Option (Fault idx))
    (s : Shared M) : SameCards idx s (leaves (workOn work fault) s) := by
  cases fault with
  | some fault => exact ⟨fault.keeps s.fits, rfl⟩
  | none =>
    have hkept := work.keeps (cardsAt idx s.fits) s.fits rfl
    unfold leaves workOn
    dsimp only
    cases hop : work.op s.fits with
    | ok b fits =>
      rw [hop] at hkept
      exact ⟨hkept, rfl⟩
    | error e fits =>
      rw [hop] at hkept
      exact ⟨hkept, rfl⟩

/-- An operation that commits last and fails has not changed the cards, so the
metadata are the old ones. -/
theorem sameCards_of_error (checksTaint : Bool) (call : HduCall idx M) :
    ∀ (faults : List (Option (Fault idx))) {s s' : Shared M} {e : PyErr}, call.CommitsLast →
      call.run parse checksTaint faults s = .error e s' → SameCards idx s s' := by
  have hstep : ∀ {β : Type} {x : HduM M β} {next : Except PyErr β → HduM M Unit} {s s' : Shared M}
      {e : PyErr}, SameCards idx s (leaves x s) →
      (∀ r t, next r t = .error e s' → SameCards idx t s') →
      handOver x next s = .error e s' → SameCards idx s s' := by
    intro β x next s s' e hx hnext hrun
    unfold handOver at hrun
    unfold leaves at hx
    cases hres : x s with
    | ok b t =>
      rw [hres] at hrun hx
      have hrest := hnext _ t hrun
      exact ⟨hrest.cards.trans hx.cards, hrest.version.trans hx.version⟩
    | error err t =>
      rw [hres] at hrun hx
      have hrest := hnext _ t hrun
      exact ⟨hrest.cards.trans hx.cards, hrest.version.trans hx.version⟩
  induction call with
  | done =>
    intro faults s s' e _ hrun
    cases hrun
  | raise err =>
    intro faults s s' e _ hrun
    cases hrun
    exact ⟨rfl, rfl⟩
  | readMeta next ih =>
    intro faults s s' e hlast hrun
    exact hstep (sameCards_hduMeta checksTaint s) (fun r t ht => ih r faults (hlast r) ht) hrun
  | snapshot next ih =>
    intro faults s s' e hlast hrun
    exact hstep (sameCards_headerSnapshot s) (fun r t ht => ih r faults (hlast r) ht) hrun
  | disk work next ih =>
    intro faults s s' e hlast hrun
    exact hstep (sameCards_workOn work _ s) (fun r t ht => ih r faults.tail (hlast r) ht) hrun
  | commit cards next ih =>
    intro faults s s' e hlast hrun
    rw [HduCall.CommitsLast] at hlast
    subst hlast
    cases hrun

/-- The header method is the one of the file model. -/
theorem headerMethodCall_erases {F : Type} (floats : Header.Floats F) (m : Header.HeaderMethod F)
    (checksTaint : Bool) {s : Shared M} {h : Hdu} (hdu : s.fits.hdus[idx]? = some h)
    (hclean : s.tainted = false) :
    (leaves ((headerMethodCall floats m : HduCall idx M).run parse checksTaint []) s).fits =
      leaves (Header.headerCall floats idx m) s.fits := by
  have hsnap : headerSnapshot idx s = .ok h.cards s := by
    obtain ⟨fits, version, tainted, metaCache⟩ := s
    cases hclean
    show EStateM.Result.ok (cardsAt idx fits) _ = _
    rw [cardsAt, hdu]
  unfold leaves headerMethodCall Header.headerCall
  rw [HduCall.run, handOver, hsnap, FileOp.get_bind, hdu]
  dsimp only [orRaise]
  rcases m.run floats h.cards with ⟨⟨⟩ | ⟨⟩, newCards⟩ | ⟨e, newCards⟩
  · rfl
  · dsimp only
    rw [HduCall.run, handOver, List.headD_nil, Header.rewriteAndCommit]
    unfold workOn rewriteWork
    dsimp only
    cases hrewrite : rewriteHeaderToDisk idx newCards s.fits with
    | ok b fits =>
      rw [FileOp.bind_ok hrewrite]
      rfl
    | error e fits =>
      rw [FileOp.bind_error hrewrite]
      rfl
  · rfl

end

/-! ## The metadata of an ASCII table -/

structure AsciiTableMeta where
  nrows : Nat
  rowWidth : Nat
  columns : List AsciiColumn

/-- `parse_ascii_table_meta`. -/
def parseAsciiTableMeta (cards : List Card) : Except PyErr AsciiTableMeta := do
  let columns ← AsciiTable.parseAsciiColumns cards
  return ⟨asciiNrows cards, asciiRowWidth cards, columns⟩

section

variable {M : Type} {idx : Nat} {parse : List Card → Except PyErr M}

/-- Any number of commits in a row. -/
theorem runs_commits (cards : List Card) (n : Nat) {s : Shared M} {age : Nat} {h : Hdu}
    (hdu : s.fits.hdus[idx]? = some h) (hrun : Runs idx parse s (some age)) :
    ∃ s', Runs idx parse s' (some (age + n + 1)) ∧ s'.version = (s.version + n + 1) % u64Size ∧
      s'.metaCache = s.metaCache ∧ s'.tainted = s.tainted ∧
      s'.fits.hdus[idx]? = some { h with cards := cards } := by
  induction n with
  | zero =>
    refine ⟨_, .commit cards hrun, rfl, rfl, rfl, ?_⟩
    show (s.fits.hdus.modify idx fun h => { h with cards := cards })[idx]? = _
    rw [List.getElem?_modify, hdu]
    simp
  | succ n ih =>
    obtain ⟨t, hrun', hversion, hcache, htainted, hdu'⟩ := ih
    refine ⟨_, .commit cards hrun', ?_, hcache, htainted, ?_⟩
    · show (t.version + 1) % u64Size = _
      rw [hversion, Nat.mod_add_mod]
      rfl
    · show (t.fits.hdus.modify idx fun h => { h with cards := cards })[idx]? = _
      rw [List.getElem?_modify, hdu']
      simp

end

/-- An ASCII table without columns and with `rows` rows. -/
def emptyTable (rows : Str) : List Card :=
  [str "XTENSION= 'TABLE   '", str "BITPIX  =                    8",
    str "NAXIS   =                    2", str "NAXIS1  =                    0",
    str "NAXIS2  =                    " ++ rows, str "PCOUNT  =                    0",
    str "GCOUNT  =                    1", str "TFIELDS =                    0", endCard]

theorem parseAsciiColumns_of_none {cards : List Card}
    (h : parseKeyword cards (str "TFIELDS") = some 0) :
    AsciiTable.parseAsciiColumns cards = .ok [] := by
  have hnone : AsciiTable.byPlace [] = [] := List.mergeSort_nil
  unfold AsciiTable.parseAsciiColumns
  rw [h]
  show (do
    AsciiTable.checkOverlap (AsciiTable.byPlace [])
    return [] : Except PyErr (List AsciiColumn)) = _
  rw [hnone]
  rfl

theorem parse_emptyTable :
    parseAsciiTableMeta (emptyTable (str "3")) = .ok ⟨3, 0, []⟩ ∧
      parseAsciiTableMeta (emptyTable (str "4")) = .ok ⟨4, 0, []⟩ := by
  unfold parseAsciiTableMeta
  rw [parseAsciiColumns_of_none rfl, parseAsciiColumns_of_none rfl]
  exact ⟨rfl, rfl⟩

/-- An open file with this table. -/
def tableFits : Fits := ⟨[], [⟨emptyTable (str "3"), ⟨0, 1, 2880⟩, .asciiTable⟩]⟩

/-- The handle after the metadata were stored and a row was added. -/
def grownTable : Shared AsciiTableMeta :=
  ⟨⟨[], [⟨emptyTable (str "4"), ⟨0, 1, 2880⟩, .asciiTable⟩]⟩, 1, false, some (0, ⟨3, 0, []⟩)⟩

end RustFits.MetaCache
