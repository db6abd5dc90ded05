import RustFits.BinaryTable.Scan

/-!
# The moves of a repack

The live cells move to the front of the heap, in the order of the old heap.  In
place this is safe when no move reaches a cell that is still to be read; otherwise
the cells are copied behind the heap and from there to their places.

* `sortPlans_pairwise`: the order of the moves.  Cells at the same old offset move
  in row order, since the sort is stable.
* `moveInPlace_spec` and `stagedCopies_spec` say when the moved cells are what they
  were: in place, when no cell is copied into itself across a chunk border
  (`ForwardSafe`); from the staging area, when no cell that is copied back lands on
  a cell still to be copied (`StagingSafe`).
* `Window.shrinkHdu`: the end of the data section moves back.
-/

namespace RustFits.BinaryTable

open Ascii ByteFile Machine

/-! ## The order of the moves -/

/-- The order of the moves: by old offset, and by new offset where the old ones
agree. -/
def HeapOrder (a b : MovePlan) : Prop :=
  a.oldOff < b.oldOff ∨ a.oldOff = b.oldOff ∧ a.newOff < b.newOff

theorem sortPlans_pairwise {plans : List MovePlan}
    (h : plans.Pairwise fun a b => a.newOff < b.newOff) :
    (sortPlans plans).Pairwise HeapOrder := by
  have htrans : ∀ a b c : MovePlan, decide (a.oldOff ≤ b.oldOff) = true →
      decide (b.oldOff ≤ c.oldOff) = true → decide (a.oldOff ≤ c.oldOff) = true := by
    intro a b c hab hbc
    rw [decide_eq_true_eq] at *
    omega
  have htotal : ∀ a b : MovePlan,
      (decide (a.oldOff ≤ b.oldOff) || decide (b.oldOff ≤ a.oldOff)) = true := by
    intro a b
    rw [Bool.or_eq_true, decide_eq_true_eq, decide_eq_true_eq]
    omega
  unfold sortPlans
  induction plans with
  | nil => simp
  | cons a plans ih =>
    obtain ⟨ha, hplans⟩ := List.pairwise_cons.1 h
    have hsorted := List.pairwise_mergeSort htrans htotal (a :: plans)
    obtain ⟨l₁, l₂, hcons, hrest, hfront⟩ := List.mergeSort_cons htrans htotal a plans
    have hih := ih hplans
    rw [hrest] at hih
    rw [hcons] at hsorted ⊢
    obtain ⟨h₁, h₂, h₁₂⟩ := List.pairwise_append.1 hih
    obtain ⟨-, hback, -⟩ := List.pairwise_append.1 hsorted
    refine List.pairwise_append.2 ⟨h₁, List.pairwise_cons.2 ⟨fun c hc => ?_, h₂⟩,
      fun b hb c hc => ?_⟩
    · -- `a` is the first cell of the rows: cells behind it in the sort have a later place
      have hmem : c ∈ plans := by
        refine (List.mergeSort_perm plans fun a b => decide (a.oldOff ≤ b.oldOff)).mem_iff.1 ?_
        rw [hrest]
        exact List.mem_append_right _ hc
      have hle := (List.pairwise_cons.1 hback).1 c hc
      rw [decide_eq_true_eq] at hle
      have hnew := ha c hmem
      unfold HeapOrder
      omega
    · rcases List.mem_cons.1 hc with rfl | hc
      · have hlt := hfront b hb
        simp only [Bool.not_eq_true', decide_eq_false_iff_not] at hlt
        exact Or.inl (by omega)
      · exact h₁₂ b hb c hc

/-- Two cells with disjoint new places. -/
def PlanApart (a b : MovePlan) : Prop :=
  a.newOff + a.length ≤ b.newOff ∨ b.newOff + b.length ≤ a.newOff

/-- What the moves rely on: the new places are disjoint and end at `newPcount`, the
old ones end at `pcount`. -/
structure Plans (pcount newPcount : Nat) (plans : List MovePlan) : Prop where
  order : plans.Pairwise HeapOrder
  apart : plans.Pairwise PlanApart
  old : ∀ p ∈ plans, p.oldOff + p.length ≤ pcount
  new : ∀ p ∈ plans, p.newOff + p.length ≤ newPcount
  full : newPcount = 0 ∨ ∃ p ∈ plans, p.newOff + p.length = newPcount

/-- The in-place move of a cell. -/
def MovePlan.inPlace (heapStart : Nat) (p : MovePlan) : Move :=
  ⟨heapStart + p.oldOff, heapStart + p.newOff, p.length⟩

/-- The copy of a cell to the staging area. -/
def MovePlan.toStaging (heapStart pcount : Nat) (p : MovePlan) : Move :=
  ⟨heapStart + p.oldOff, heapStart + pcount + p.newOff, p.length⟩

/-- The copy of a cell back from the staging area. -/
def MovePlan.fromStaging (heapStart pcount : Nat) (p : MovePlan) : Move :=
  ⟨heapStart + pcount + p.newOff, heapStart + p.newOff, p.length⟩

/-- Every moved cell is what it was. -/
def CellsKept (heapStart : Nat) (plans : List MovePlan) (f f' : Bytes) : Prop :=
  ∀ p ∈ plans, ∀ q < p.length, f'[heapStart + p.newOff + q]? = f[heapStart + p.oldOff + q]?

/-- Cells that move to a later place over themselves: where a chunk of the copy
reads what an earlier chunk wrote, it finds the byte that stood there. -/
def ForwardSafe (heapStart : Nat) (plans : List MovePlan) (f : Bytes) : Prop :=
  ∀ p ∈ plans, ∀ q < p.length, p.newOff ≤ p.oldOff + q →
    (p.oldOff + q - p.newOff) / shiftChunk < q / shiftChunk →
      f[heapStart + p.oldOff + (p.oldOff + q - p.newOff)]? = f[heapStart + p.oldOff + q]?

/-- Cells whose copy in the staging area is hit by an earlier copy back: the byte
that lands there is the byte that stood there. -/
def StagingSafe (heapStart pcount : Nat) (plans : List MovePlan) (f : Bytes) : Prop :=
  ∀ a ∈ plans, ∀ b ∈ plans, b.oldOff < a.oldOff → ∀ q < a.length, ∀ k < b.length,
    pcount + a.newOff + q = b.newOff + k →
      f[heapStart + b.oldOff + k]? = f[heapStart + a.oldOff + q]?

section

variable {plans : List MovePlan} {heapStart pcount newPcount : Nat} {s : Fits} {f f' : Bytes}

/-- A sequence of copies in the file. -/
theorem forM_copies {move : MovePlan → Move} {body : MovePlan → FileOp Unit} {f' : Bytes}
    (hbody : ∀ p (s : Fits) f₁, copyFrontToBack shiftChunk (move p).src (move p).dst (move p).len
      (move p).len 0 s.bytes = some f₁ → body p s = .ok () ⟨f₁, s.hdus⟩) :
    ∀ {plans : List MovePlan} {s : Fits}, copyMoves shiftChunk (plans.map move) s.bytes = some f' →
      plans.forM body s = .ok () ⟨f', s.hdus⟩ := by
  intro plans
  induction plans with
  | nil =>
    intro s h
    cases h
    rfl
  | cons p plans ih =>
    intro s h
    rw [copyMoves, List.map_cons, List.foldlM_cons] at h
    obtain ⟨f₁, hcopy, hrest⟩ := Option.bind_eq_some_iff.1 h
    show (body p >>= fun _ => plans.forM body) s = _
    rw [FileOp.bind_ok (hbody p s f₁ hcopy)]
    exact @ih ⟨f₁, s.hdus⟩ hrest

theorem streamCopy_of_copy {src dst len : Nat}
    (h : copyFrontToBack shiftChunk src dst len len 0 s.bytes = some f') :
    streamCopyInFile shiftChunk src dst len s = .ok () ⟨f', s.hdus⟩ := by
  rw [streamCopyInFile, h]

theorem moveInPlace_eq
    (h : copyMoves shiftChunk (plans.map (MovePlan.inPlace heapStart)) s.bytes = some f') :
    moveInPlace heapStart plans s = .ok () ⟨f', s.hdus⟩ := by
  refine forM_copies (fun p s f₁ hcopy => ?_) h
  split_ifs with hsame
  · unfold MovePlan.inPlace at hcopy
    rw [hsame] at hcopy
    rw [copyFrontToBack_self hcopy]
    rfl
  · exact streamCopy_of_copy hcopy

/-- The in-place moves never reach a cell that is still to be read. -/
theorem fastPathSafe_pairwise (hsafe : fastPathSafe pcount plans = true)
    (horder : plans.Pairwise HeapOrder) :
    plans.Pairwise fun a b => a.newOff + a.length ≤ b.oldOff := by
  induction plans with
  | nil => exact List.Pairwise.nil
  | cons p plans ih =>
    cases plans with
    | nil => exact List.pairwise_singleton _ _
    | cons next rest =>
      rw [fastPathSafe, Bool.and_eq_true, decide_eq_true_eq] at hsafe
      obtain ⟨-, horder'⟩ := List.pairwise_cons.1 horder
      refine List.pairwise_cons.2 ⟨fun c hc => ?_, ih hsafe.2 horder'⟩
      rcases List.mem_cons.1 hc with rfl | hc
      · exact hsafe.1
      · have := (List.pairwise_cons.1 horder').1 c hc
        unfold HeapOrder at this
        omega

/-- In place, the new heap is no longer than the old one. -/
theorem fastPathSafe_le (hsafe : fastPathSafe pcount plans = true)
    (hold : ∀ p ∈ plans, p.oldOff + p.length ≤ pcount) :
    ∀ p ∈ plans, p.newOff + p.length ≤ pcount := by
  induction plans with
  | nil => simp
  | cons p plans ih =>
    cases plans with
    | nil =>
      intro c hc
      rw [List.mem_singleton.1 hc]
      simpa [fastPathSafe] using hsafe
    | cons next rest =>
      rw [fastPathSafe, Bool.and_eq_true, decide_eq_true_eq] at hsafe
      intro c hc
      rcases List.mem_cons.1 hc with rfl | hc
      · have := hold next (by simp)
        omega
      · exact ih hsafe.2 (fun q hq => hold q (List.mem_cons_of_mem _ hq)) c hc

theorem pairwise_apart_map {move : MovePlan → Move} {shift : Nat}
    (happart : plans.Pairwise PlanApart)
    (hdst : ∀ p, (move p).dst = shift + p.newOff) (hlen : ∀ p, (move p).len = p.length) :
    (plans.map move).Pairwise Move.Apart := by
  rw [List.pairwise_map]
  refine happart.imp fun {a b} hab => ?_
  unfold PlanApart at hab
  unfold Move.Apart
  rw [hdst, hdst, hlen, hlen]
  omega

/-- The moves in place. -/
theorem moveInPlace_spec (hplans : Plans pcount newPcount plans)
    (hsafe : fastPathSafe pcount plans = true) (hlen : heapStart + pcount ≤ s.bytes.length) :
    ∃ f', moveInPlace heapStart plans s = .ok () ⟨f', s.hdus⟩ ∧
      KeptOutside heapStart (heapStart + pcount) s.bytes f' ∧
      (CellsKept heapStart plans s.bytes f' ↔ ForwardSafe heapStart plans s.bytes) := by
  have hnew := fastPathSafe_le hsafe hplans.old
  have hreach := fastPathSafe_pairwise hsafe hplans.order
  have happart : (plans.map (MovePlan.inPlace heapStart)).Pairwise Move.Apart :=
    pairwise_apart_map hplans.apart (fun _ => rfl) fun _ => rfl
  obtain ⟨f', hcopy, hmoved⟩ := copyMoves_spec (by decide : 0 < shiftChunk) happart
    (f := s.bytes) fun m hm => by
      obtain ⟨p, hp, rfl⟩ := List.mem_map.1 hm
      have h1 := hplans.old p hp
      have h2 := hnew p hp
      exact ⟨by dsimp only [MovePlan.inPlace]; omega, by dsimp only [MovePlan.inPlace]; omega⟩
  refine ⟨f', moveInPlace_eq hcopy, hmoved.keptOutside fun m hm => ?_, ?_⟩
  · obtain ⟨p, hp, rfl⟩ := List.mem_map.1 hm
    have h2 := hnew p hp
    exact ⟨by dsimp only [MovePlan.inPlace]; omega, by dsimp only [MovePlan.inPlace]; omega⟩
  -- every cell is read as it stood before all moves
  have hread : ∀ p ∈ plans, ∀ q < p.length, f'[heapStart + p.newOff + q]? =
      forwardRead s.bytes shiftChunk (heapStart + p.oldOff) (heapStart + p.newOff) q := by
    intro p hp
    refine hmoved.fresh (List.mem_map_of_mem hp) fun front back hsplit m' hm' q hq hcovers => ?_
    obtain ⟨front', rest, hplans', rfl, hrest⟩ := List.map_eq_append_iff.1 hsplit
    obtain ⟨p', back', rfl, hp', rfl⟩ := List.map_eq_cons_iff.1 hrest
    obtain ⟨a, ha, rfl⟩ := List.mem_map.1 hm'
    rw [hplans'] at hreach
    have hle := (List.pairwise_append.1 hreach).2.2 a ha p' (by simp)
    have hold : p'.oldOff = p.oldOff := by
      have := congrArg Move.src hp'
      dsimp only [MovePlan.inPlace] at this
      omega
    unfold Move.Covers at hcovers
    dsimp only [MovePlan.inPlace] at hcovers
    omega
  have hiff : ∀ p ∈ plans, (∀ q < p.length, f'[heapStart + p.newOff + q]? =
      s.bytes[heapStart + p.oldOff + q]?) ↔
        ∀ q < p.length, p.newOff ≤ p.oldOff + q →
          (p.oldOff + q - p.newOff) / shiftChunk < q / shiftChunk →
          s.bytes[heapStart + p.oldOff + (p.oldOff + q - p.newOff)]? =
            s.bytes[heapStart + p.oldOff + q]? := by
    intro p hp
    have hforward : (∀ q < p.length, forwardRead s.bytes shiftChunk (heapStart + p.oldOff)
        (heapStart + p.newOff) q = s.bytes[heapStart + p.oldOff + q]?) ↔
          ∀ q < p.length, heapStart + p.newOff ≤ heapStart + p.oldOff + q →
            (heapStart + p.oldOff + q - (heapStart + p.newOff)) / shiftChunk < q / shiftChunk →
            s.bytes[heapStart + p.oldOff + (heapStart + p.oldOff + q - (heapStart + p.newOff))]? =
              s.bytes[heapStart + p.oldOff + q]? := forwardRead_eq_iff
    have hsub : ∀ q, heapStart + p.oldOff + q - (heapStart + p.newOff) = p.oldOff + q - p.newOff :=
      fun q => by omega
    have hle : ∀ q, heapStart + p.newOff ≤ heapStart + p.oldOff + q ↔ p.newOff ≤ p.oldOff + q :=
      fun q => by omega
    simp only [hsub, hle] at hforward
    rw [← hforward]
    exact forall₂_congr fun q hq => by rw [hread p hp q hq]
  constructor
  · exact fun h p hp => (hiff p hp).1 (h p hp)
  · exact fun h p hp => (hiff p hp).2 (h p hp)

/-- The copies to the staging area. -/
theorem copyToStaging_spec (hplans : Plans pcount newPcount plans)
    (hlen : heapStart + pcount + newPcount ≤ f.length) :
    ∃ f₁, copyMoves shiftChunk (plans.map (MovePlan.toStaging heapStart pcount)) f = some f₁ ∧
      KeptOutside heapStart (heapStart + pcount + newPcount) f f₁ ∧
      ∀ p ∈ plans, ∀ q < p.length,
        f₁[heapStart + pcount + p.newOff + q]? = f[heapStart + p.oldOff + q]? := by
  have happart : (plans.map (MovePlan.toStaging heapStart pcount)).Pairwise Move.Apart :=
    pairwise_apart_map hplans.apart (fun _ => rfl) fun _ => rfl
  obtain ⟨f₁, hcopy, hmoved⟩ := copyMoves_spec (by decide : 0 < shiftChunk) happart (f := f)
    fun m hm => by
      obtain ⟨p, hp, rfl⟩ := List.mem_map.1 hm
      have h1 := hplans.old p hp
      have h2 := hplans.new p hp
      exact ⟨by dsimp only [MovePlan.toStaging]; omega, by dsimp only [MovePlan.toStaging]; omega⟩
  refine ⟨f₁, hcopy, hmoved.keptOutside fun m hm => ?_, fun p hp q hq => ?_⟩
  · obtain ⟨p, hp, rfl⟩ := List.mem_map.1 hm
    have h2 := hplans.new p hp
    exact ⟨by dsimp only [MovePlan.toStaging]; omega, by dsimp only [MovePlan.toStaging]; omega⟩
  · -- all reads are in front of the staging area, all writes in it
    have h1 := hplans.old p hp
    have hread := hmoved.fresh (List.mem_map_of_mem hp)
      (fun front back hsplit m' hm' q hq hcovers => by
        have hmem : m' ∈ plans.map (MovePlan.toStaging heapStart pcount) := by
          rw [hsplit]
          exact List.mem_append_left _ hm'
        obtain ⟨a, -, rfl⟩ := List.mem_map.1 hmem
        unfold Move.Covers at hcovers
        dsimp only [MovePlan.toStaging] at hcovers hq
        omega) q hq
    dsimp only [MovePlan.toStaging] at hread
    rw [hread, forwardRead_of_disjoint (by omega)]

/-- The copies back from the staging area, which `f` is the file before and `f₁`
the file with. -/
theorem copyFromStaging_spec (hplans : Plans pcount newPcount plans) (hpos : 0 < pcount)
    {f₁ : Bytes} (hlen : heapStart + pcount + newPcount ≤ f₁.length)
    (hstaged : ∀ p ∈ plans, ∀ q < p.length,
      f₁[heapStart + pcount + p.newOff + q]? = f[heapStart + p.oldOff + q]?) :
    ∃ f', copyMoves shiftChunk (plans.map (MovePlan.fromStaging heapStart pcount)) f₁ = some f' ∧
      KeptOutside heapStart (heapStart + pcount + newPcount) f₁ f' ∧
      (CellsKept heapStart plans f f' ↔ StagingSafe heapStart pcount plans f) := by
  have happart : (plans.map (MovePlan.fromStaging heapStart pcount)).Pairwise Move.Apart :=
    pairwise_apart_map hplans.apart (fun _ => rfl) fun _ => rfl
  obtain ⟨f', hcopy, hmoved⟩ := copyMoves_spec (by decide : 0 < shiftChunk) happart (f := f₁)
    fun m hm => by
      obtain ⟨p, hp, rfl⟩ := List.mem_map.1 hm
      have h2 := hplans.new p hp
      exact ⟨by dsimp only [MovePlan.fromStaging]; omega, by
        dsimp only [MovePlan.fromStaging]; omega⟩
  refine ⟨f', hcopy, hmoved.keptOutside fun m hm => ?_, ?_⟩
  · obtain ⟨p, hp, rfl⟩ := List.mem_map.1 hm
    have h2 := hplans.new p hp
    exact ⟨by dsimp only [MovePlan.fromStaging]; omega, by dsimp only [MovePlan.fromStaging]; omega⟩
  have hback := hmoved.back_iff hpos fun m hm => by
    obtain ⟨p, -, rfl⟩ := List.mem_map.1 hm
    dsimp only [MovePlan.fromStaging]
    omega
  have hkept : CellsKept heapStart plans f f' ↔
      ∀ m ∈ plans.map (MovePlan.fromStaging heapStart pcount), ∀ q < m.len,
        f'[m.dst + q]? = f₁[m.src + q]? := by
    rw [List.forall_mem_map]
    exact forall₂_congr fun p hp => forall₂_congr fun q hq => by
      dsimp only [MovePlan.fromStaging]
      rw [hstaged p hp q hq]
  rw [hkept, hback]
  constructor
  · intro h a ha b hb hlt q hq k hk heq
    obtain ⟨front, back, hsplit⟩ := List.append_of_mem ha
    have hfront : b ∈ front := by
      have horder := hplans.order
      rw [hsplit] at horder hb
      rcases List.mem_append.1 hb with hb | hb
      · exact hb
      · rcases List.mem_cons.1 hb with rfl | hb
        · omega
        · have := (List.pairwise_cons.1 (List.pairwise_append.1 horder).2.1).1 b hb
          unfold HeapOrder at this
          omega
    have hland := h (front.map (MovePlan.fromStaging heapStart pcount))
      (a.fromStaging heapStart pcount) (back.map (MovePlan.fromStaging heapStart pcount))
      (by rw [hsplit, List.map_append, List.map_cons]) (b.fromStaging heapStart pcount)
      (List.mem_map_of_mem hfront) q hq
      (by unfold Move.Covers; dsimp only [MovePlan.fromStaging]; omega)
    dsimp only [MovePlan.fromStaging] at hland
    rw [hstaged a ha q hq, show heapStart + pcount + a.newOff + q + pcount =
      heapStart + pcount + b.newOff + k by omega, hstaged b hb k hk] at hland
    exact hland
  · intro h front m back hsplit m' hm' q hq hcovers
    obtain ⟨front', rest, hplans', rfl, hrest⟩ := List.map_eq_append_iff.1 hsplit
    obtain ⟨a, back', rfl, rfl, rfl⟩ := List.map_eq_cons_iff.1 hrest
    obtain ⟨b, hb, rfl⟩ := List.mem_map.1 hm'
    have ha' : a ∈ plans := by simp [hplans']
    have hb' : b ∈ plans := by simp [hplans', hb]
    have horder := hplans.order
    have happart' := hplans.apart
    rw [hplans'] at horder happart'
    have hba := (List.pairwise_append.1 horder).2.2 b hb a (by simp)
    have hab := (List.pairwise_append.1 happart').2.2 b hb a (by simp)
    unfold Move.Covers at hcovers
    unfold HeapOrder at hba
    unfold PlanApart at hab
    dsimp only [MovePlan.fromStaging] at hcovers hq ⊢
    obtain ⟨k, hk⟩ : ∃ k, pcount + a.newOff + q = b.newOff + k :=
      ⟨pcount + a.newOff + q - b.newOff, by omega⟩
    -- at the same old offset the later cell has the later place
    have hlt : b.oldOff < a.oldOff := by omega
    rw [show heapStart + pcount + a.newOff + q + pcount =
      heapStart + pcount + b.newOff + k by omega, hstaged b hb' k (by omega), hstaged a ha' q hq]
    exact h a ha' b hb' hlt q hq k (by omega) hk

end

/-! ## The end of the data section -/

section

variable {base s : Fits} {idx : Nat} {h cur : Hdu} {hi newEnd : Nat}

/-- The data section ends earlier, and the tail of the file follows it. -/
theorem shrinkHdu_spec (ho : Opened base idx h) (hw : Window base idx h cur hi s)
    (hlo : cur.offsets.dataOffset ≤ newEnd) (hhi : newEnd ≤ hi) :
    ∃ s', shrinkHdu hi newEnd s = .ok () s' ∧ Window base idx h cur newEnd s' ∧
      ∀ i < newEnd, s'.bytes[i]? = s.bytes[i]? := by
  unfold shrinkHdu
  split_ifs with hlt htail
  · have hle := hw.le_length
    rw [shiftFileTailBackward_eq hle (by omega)]
    have hshrink : cur.offsets.dataOffset + (hi - newEnd) ≤ hi := by omega
    have hclose := hw.closeGap ho hshrink
    rw [show hi - (hi - newEnd) = newEnd by omega] at hclose
    refine ⟨_, rfl, hclose, fun i hi' => ?_⟩
    rw [closeGap_getElem? hle (by omega), if_pos (by omega)]
  · have hle := hw.le_length
    have hlen := hw.length ho
    have hlast := ho.last_of_length (by omega)
    refine ⟨_, rfl, hw.truncate ho hlast hlo hhi, fun i hi' => ?_⟩
    dsimp only
    rw [setLen_getElem?, if_pos hi', if_pos (by omega)]
  · obtain rfl : newEnd = hi := by omega
    exact ⟨s, rfl, hw, fun _ _ => rfl⟩

end

end RustFits.BinaryTable
