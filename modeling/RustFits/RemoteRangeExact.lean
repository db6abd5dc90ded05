import RustFits.RemoteRange

/-!
# Ranged reading is reading of the content

A server that answers every request with the bytes of the range serves a content.  Then
`HttpRangeStore` is a cursor over the content, whatever the cache holds: `StoreOf` is
the invariant, `triple_fetchBlocks` and `triple_read` are the calls, and
`store_refines_cursor` is the run.

Every request is for a range of at least one byte inside the content.
-/

namespace RustFits.RemoteRange

open Ascii ByteFile Machine Outcome

/-- The server answers each request with exactly the bytes of the range. -/
def Serves (server : Server) (content : Bytes) : Prop :=
  ∀ first last, first ≤ last → last < content.length →
    server first last = .ok (206, slice content first (last + 1 - first))

/-- A block; the last one may be short. -/
def blockOf (content : Bytes) (blockBytes k : Nat) : Bytes :=
  slice content (k * blockBytes) blockBytes

/-- A view of the content at this position: what the cache holds are blocks of the
content, and every request was for a range inside it. -/
structure StoreOf (content : Bytes) (bb pos : Nat) (st : HttpRangeStore) : Prop where
  len : st.len = content.length
  blockBytes : st.blockBytes = bb
  pos : st.pos = pos
  cache : st.cache.All fun k bytes => bytes = blockOf content bb k
  requested : ∀ range ∈ st.requested, range.1 ≤ range.2 ∧ range.2 < content.length

@[simp] theorem lift_ok {α : Type} (a : α) : lift (.ok a) = pure a := rfl

variable {server : Server} {content : Bytes} {bb pos : Nat}

theorem block_succ (k : Nat) : (k + 1) * bb = k * bb + bb := Nat.succ_mul k bb

/-! ## Fetching -/

theorem triple_readBlocks (range : Str) (startBlock : Nat)
    (hmem : content.length ≤ isizeMax) (m : Nat) :
    ∀ (i : Nat) (body : Bytes), (∀ j < m, (startBlock + (i + j)) * bb < content.length) →
      startBlock + (i + m) < 2 ^ 64 →
      (0 < m → ∃ n, body = slice content ((startBlock + i) * bb) n ∧
        min ((startBlock + (i + m)) * bb) content.length ≤ (startBlock + i) * bb + n) →
      Triple (StoreOf content bb pos) (readBlocks range startBlock (List.range' i m) body)
        (fun out st => out = (List.range' i m).map (fun j => blockOf content bb (startBlock + j)) ∧
          StoreOf content bb pos st) fun _ _ => False := by
  induction m with
  | zero =>
    intro i body _ _ _
    exact Triple.pure fun st hst => ⟨rfl, hst⟩
  | succ m ih =>
    intro i body hinside hword hbody
    obtain ⟨n, hslice, hcover⟩ := hbody (Nat.succ_pos m)
    subst hslice
    clear hbody
    have hhere : (startBlock + i) * bb < content.length := hinside 0 (Nat.succ_pos m)
    have hnext : (startBlock + (i + 1)) * bb = (startBlock + i) * bb + bb := by
      rw [← Nat.add_assoc, block_succ]
    have hle : (startBlock + (i + 1)) * bb ≤ (startBlock + (i + (m + 1))) * bb :=
      Nat.mul_le_mul_right bb (by omega)
    have hroom : (startBlock + i) * bb < 2 ^ 64 := by
      have : isizeMax < 2 ^ 64 := by decide
      omega
    rw [List.range'_succ, readBlocks]
    refine Triple.get_bind fun st hst => ?_
    rw [addWord_of_lt (by omega), lift_ok, pure_bind, hst.blockBytes, mulWord_of_lt hroom,
      lift_ok, pure_bind, hst.len, subWord_of_le (Nat.le_of_lt hhere), lift_ok, pure_bind]
    have hlen : (slice content ((startBlock + i) * bb) n).length =
        min n (content.length - (startBlock + i) * bb) := slice_length _ _ _
    rw [if_neg (by rw [hlen]; omega)]
    refine (Triple.modify (Q := fun _ => StoreOf content bb pos) fun t ht => ?_).bind fun _ => ?_
    · rw [ht]
      exact ⟨hst.len, hst.blockBytes, hst.pos, hst.cache, hst.requested⟩
    generalize hexpect : min bb (content.length - (startBlock + i) * bb) = expect
    have hfits : expect ≤ n := by omega
    have hblock : (slice content ((startBlock + i) * bb) n).take expect =
        blockOf content bb (startBlock + i) := by
      have htake : (slice content ((startBlock + i) * bb) n).take expect =
          slice content ((startBlock + i) * bb) expect := by
        have :=
          slice_slice (f := content) (a := (startBlock + i) * bb) (n := n) (b := 0)
            (m := expect) (by omega)
        simpa [slice] using this
      rw [htake, ← hexpect, blockOf]
      apply List.ext_getElem?
      intro k
      rw [slice_getElem?, slice_getElem?]
      split_ifs <;> first | rfl | omega | exact (List.getElem?_eq_none (by omega)).symm
    have hrest : 0 < m → ∃ n', (slice content ((startBlock + i) * bb) n).drop expect =
          slice content ((startBlock + (i + 1)) * bb) n' ∧
        min ((startBlock + (i + 1 + m)) * bb) content.length ≤
          (startBlock + (i + 1)) * bb + n' := by
      intro hm
      have hfull : (startBlock + (i + 1)) * bb < content.length := hinside 1 (Nat.succ_lt_succ hm)
      have hbb : expect = bb := by omega
      refine ⟨n - bb, ?_, ?_⟩
      · rw [hbb, hnext, slice, slice, List.drop_take, List.drop_drop]
      · rw [show i + 1 + m = i + (m + 1) by omega, hnext]
        omega
    refine (ih (i + 1) _ (fun j hj => ?_) (by omega) hrest).bind fun blocks => ?_
    · have := hinside (j + 1) (Nat.succ_lt_succ hj)
      rwa [show i + 1 + j = i + (j + 1) by omega]
    · refine Triple.pure fun st hread => ⟨?_, hread.2⟩
      rw [hblock, hread.1, List.map_cons]

/-- The blocks of a run come from one request for the range that they take up. -/
theorem triple_fetchBlocks (hserves : Serves server content) (hmem : content.length ≤ isizeMax)
    (hbb : 0 < bb ∧ bb < u64Size) {startBlock n : Nat} (hn : 0 < n)
    (hinside : (startBlock + (n - 1)) * bb < content.length) :
    Triple (StoreOf content bb pos) (fetchBlocks server startBlock n)
      (fun out st => out = (List.range n).map (fun j => blockOf content bb (startBlock + j)) ∧
        StoreOf content bb pos st) fun _ _ => False := by
  have hsize : isizeMax = 9223372036854775807 := rfl
  have hwords : u64Size = 2 ^ 64 := rfl
  have hend : (startBlock + n) * bb = (startBlock + (n - 1)) * bb + bb := by
    rw [show startBlock + n = startBlock + (n - 1) + 1 by omega, block_succ]
  have hfirst : startBlock * bb ≤ (startBlock + (n - 1)) * bb := Nat.mul_le_mul_right bb (by omega)
  have hblocks : startBlock + (n - 1) ≤ (startBlock + (n - 1)) * bb :=
    Nat.le_mul_of_pos_right _ hbb.1
  -- a block that is larger than half of the range of a word is the only one
  have hendWord : (startBlock + n) * bb < 2 ^ 64 := by
    rcases Nat.lt_or_ge (2 ^ 63) bb with hlarge | hsmall
    · have hzero : startBlock + (n - 1) = 0 := by
        by_contra hpos
        have : 1 * bb ≤ (startBlock + (n - 1)) * bb := Nat.mul_le_mul_right bb (by omega)
        omega
      rw [hend, hzero]
      omega
    · omega
  rw [fetchBlocks]
  refine Triple.get_bind fun st hst => ?_
  rw [hst.blockBytes, mulWord_of_lt (by omega), lift_ok, pure_bind, addWord_of_lt (by omega),
    lift_ok, pure_bind,
    mulWord_of_lt hendWord, lift_ok, pure_bind, hst.len, subWord_of_le (by omega),
    lift_ok, pure_bind]
  dsimp only
  refine (Triple.modify (Q := fun _ => StoreOf content bb pos) fun t ht => ?_).bind fun _ => ?_
  · rw [ht]
    refine ⟨hst.len, hst.blockBytes, hst.pos, hst.cache, fun range hrange => ?_⟩
    rcases List.mem_append.1 hrange with hrange | hrange
    · exact hst.requested range hrange
    · rw [List.mem_singleton.1 hrange]
      dsimp only
      omega
  rw [hserves _ _ (by omega) (by omega)]
  dsimp only
  rw [if_neg (fun h => h rfl), List.range_eq_range']
  refine (triple_readBlocks _ startBlock hmem n 0 _ (fun j hj => ?_) (by omega) fun _ =>
    ?_).bind fun out => ?_
  · refine Nat.lt_of_le_of_lt (Nat.mul_le_mul_right bb ?_) hinside
    omega
  · refine ⟨_, rfl, ?_⟩
    rw [Nat.zero_add]
    simp only [Nat.add_zero]
    omega
  · refine (Triple.modify (Q := fun _ st =>
      out = (List.range' 0 n).map (fun j => blockOf content bb (startBlock + j)) ∧
        StoreOf content bb pos st) fun t ht => ?_).bind fun _ => Triple.pure fun st hst => hst
    exact ⟨ht.1, ht.2.len, ht.2.blockBytes, ht.2.pos, ht.2.cache, ht.2.requested⟩

/-! ## The runs of missing blocks -/

/-- Every run is inside the span, and has a block. -/
theorem planLoop_inside (first i : Nat) (flags : List Bool) :
    ∀ run ∈ planLoop first i flags, 0 < run.2 ∧ first + i ≤ run.1 ∧
    run.1 + run.2 ≤ first + i + flags.length := by
  fun_induction planLoop first i flags with
  | case1 i =>
    intro run hrun
    exact absurd hrun List.not_mem_nil
  | case2 i rest ih =>
    intro run hrun
    have := ih run hrun
    rw [List.length_cons]
    omega
  | case3 i rest len ih =>
    intro run hrun
    have hsplit :=
      congrArg List.length (List.takeWhile_append_dropWhile (p := fun b => !b) (l := rest))
    rw [List.length_append] at hsplit
    rw [List.length_cons]
    rcases List.mem_cons.1 hrun with rfl | hrun
    · dsimp only
      omega
    · have := ih run hrun
      omega

/-- Every missing block is in a run. -/
theorem planLoop_covers (first i : Nat) (flags : List Bool) :
    ∀ k, flags[k]? = some false →
      ∃ run ∈ planLoop first i flags, run.1 ≤ first + i + k ∧ first + i + k < run.1 + run.2 := by
  fun_induction planLoop first i flags with
  | case1 i =>
    intro k hk
    cases hk
  | case2 i rest ih =>
    intro k hk
    cases k with
    | zero => cases hk
    | succ k =>
      obtain ⟨run, hrun, hle, hlt⟩ := ih k hk
      exact ⟨run, hrun, by omega, by omega⟩
  | case3 i rest len ih =>
    intro k hk
    by_cases hin : k < len
    · exact ⟨_, List.mem_cons_self, by dsimp only; omega, by dsimp only; omega⟩
    · have hlen : len = 1 + (rest.takeWhile fun b => !b).length := rfl
      have hlater : (rest.dropWhile fun b => !b)[k - len]? = some false := by
        obtain ⟨k', rfl⟩ : ∃ k', k = k' + 1 := ⟨k - 1, by omega⟩
        rw [List.getElem?_cons_succ,
          ← List.takeWhile_append_dropWhile (p := fun b => !b) (l := rest),
          List.getElem?_append_right (by omega)] at hk
        rw [← hk]
        congr 1
        omega
      obtain ⟨run, hrun, hle, hlt⟩ := ih (k - len) hlater
      exact ⟨run, List.mem_cons_of_mem _ hrun, by omega, by omega⟩

/-! ## The blocks of a span -/

/-- The blocks of a span, from the block `first` on: those that are there are the blocks
of the content, and these are. -/
structure Gathered (content : Bytes) (bb first count : Nat) (there : Nat → Prop)
    (blocks : List (Option Bytes)) :
    Prop where
  length : blocks.length = count
  right : ∀ k bytes, blocks[k]? = some (some bytes) → bytes = blockOf content bb (first + k)
  there : ∀ k < count, there k → ∃ bytes, blocks[k]? = some (some bytes)

variable {first count : Nat} {there : Nat → Prop} {blocks : List (Option Bytes)}

theorem Gathered.set (h : Gathered content bb first count there blocks) {slot : Nat}
    (hslot : slot < count) :
    Gathered content bb first count (fun k => there k ∨ k = slot)
      (blocks.set slot (some (blockOf content bb (first + slot)))) := by
  have hlt : slot < blocks.length := h.length ▸ hslot
  refine ⟨by rw [List.length_set, h.length], fun k bytes hk => ?_, fun k hcount hk => ?_⟩
  · rw [List.getElem?_set] at hk
    by_cases hsame : slot = k
    · rw [if_pos hsame, if_pos hlt] at hk
      rw [← hsame]
      exact (Option.some.inj (Option.some.inj hk)).symm
    · rw [if_neg hsame] at hk
      exact h.right k bytes hk
  · rw [List.getElem?_set]
    by_cases hsame : slot = k
    · rw [if_pos hsame, if_pos hlt]
      exact ⟨_, rfl⟩
    · rw [if_neg hsame]
      exact h.there k hcount (hk.resolve_right fun heq => hsame heq.symm)

/-- When they are all there. -/
theorem Gathered.eq_map (h : Gathered content bb first count there blocks)
    (hall : ∀ k < count, there k) :
    blocks = (List.range count).map fun k => some (blockOf content bb (first + k)) := by
  apply List.ext_getElem?
  intro k
  by_cases hk : k < count
  · obtain ⟨bytes, hbytes⟩ := h.there k hk (hall k hk)
    rw [hbytes, List.getElem?_map, List.getElem?_range hk, h.right k bytes hbytes]
    rfl
  · rw [List.getElem?_eq_none (by rw [h.length]; omega), List.getElem?_eq_none (by simp; omega)]

theorem triple_cacheGet (block : Nat) :
    Triple (StoreOf content bb pos) (cacheGet block)
      (fun found st => (∀ bytes, found = some bytes → bytes = blockOf content bb block) ∧
        StoreOf content bb pos st) fun _ _ => False := by
  refine Triple.get_bind fun st hst => ?_
  cases hget : st.cache.get? block with
  | none =>
    exact Triple.pure fun t ht => ⟨by simp, ht ▸ hst⟩
  | some hit =>
    obtain ⟨hbytes, hall⟩ := LruCache.all_get hst.cache hget
    refine (Triple.set (Q := fun _ => StoreOf content bb pos) fun t ht => ?_).bind fun _ =>
      Triple.pure fun t ht => ⟨fun bytes heq => ?_, ht⟩
    · exact ⟨hst.len, hst.blockBytes, hst.pos, hall, hst.requested⟩
    · rw [← Option.some.inj heq]
      exact hbytes

/-- A block that has been fetched is kept. -/
theorem triple_keepBlock {runStart : Nat} {blk : Bytes × Nat}
    (hblk : blk.1 = blockOf content bb (runStart + blk.2))
    (hfirst : first ≤ runStart) (hlast : runStart + blk.2 < first + count)
    (hword : first + count < 2 ^ 64) :
    Triple (fun st => Gathered content bb first count there blocks ∧ StoreOf content bb pos st)
      (keepBlock first runStart blocks blk)
      (fun blocks' st =>
        Gathered content bb first count (fun k => there k ∨ k = runStart + blk.2 - first) blocks' ∧
        StoreOf content bb pos st) fun _ _ => False := by
  refine Triple.assume fun hblocks => ?_
  have hslot : runStart + blk.2 - first < count := by omega
  have hset := hblocks.set hslot
  rw [keepBlock, addWord_of_lt (by omega), lift_ok, pure_bind]
  refine (Triple.modify (Q := fun _ => StoreOf content bb pos) fun st hst => ?_).bind fun _ => ?_
  · exact ⟨hst.len, hst.blockBytes, hst.pos, LruCache.all_put hst.cache hblk, hst.requested⟩
  · rw [subWord_of_le (by omega), lift_ok, pure_bind,
      setAt_of_lt (by rw [hblocks.length]; exact hslot), lift_ok, hblk]
    rw [show first + (runStart + blk.2 - first) = runStart + blk.2 by omega] at hset
    exact Triple.pure fun st hst => ⟨hset, hst⟩

/-- A run of missing blocks is fetched and kept. -/
theorem triple_fetchRun (hserves : Serves server content) (hmem : content.length ≤ isizeMax)
    (hbb : 0 < bb ∧ bb < u64Size) {run : Nat × Nat}
    (hrun : 0 < run.2 ∧ first ≤ run.1 ∧ run.1 + run.2 ≤ first + count)
    (hinside : (first + (count - 1)) * bb < content.length) :
    Triple (fun st => Gathered content bb first count there blocks ∧ StoreOf content bb pos st)
      (fetchRun server first blocks run)
      (fun blocks' st => Gathered content bb first count
          (fun k => there k ∨ run.1 ≤ first + k ∧ first + k < run.1 + run.2) blocks' ∧
        StoreOf content bb pos st) fun _ _ => False := by
  refine Triple.assume fun hblocks => ?_
  obtain ⟨hpos, hfirst, hlast⟩ := hrun
  have hlastInside : (run.1 + (run.2 - 1)) * bb < content.length :=
    Nat.lt_of_le_of_lt (Nat.mul_le_mul_right bb (by omega)) hinside
  have hword : first + count < 2 ^ 64 := by
    have hle : first + (count - 1) ≤ (first + (count - 1)) * bb := Nat.le_mul_of_pos_right _ hbb.1
    have : isizeMax + 1 < 2 ^ 64 := by decide
    omega
  refine (triple_fetchBlocks hserves hmem hbb hpos hlastInside).bind fun fetched =>
    Triple.assume fun hfetched => ?_
  have hget : ∀ blk : Bytes × Nat, blk ∈ fetched.zipIdx ↔
      blk.2 < run.2 ∧ blk.1 = blockOf content bb (run.1 + blk.2) := by
    intro blk
    rw [List.mem_zipIdx_iff_getElem?, hfetched, List.getElem?_map, Option.map_eq_some_iff]
    constructor
    · rintro ⟨j, hj, hblk⟩
      obtain ⟨hlt, rfl⟩ := List.getElem?_eq_some_iff.1 hj
      simp only [List.length_range] at hlt
      rw [List.getElem_range] at hblk
      exact ⟨hlt, hblk.symm⟩
    · rintro ⟨hlt, hblk⟩
      exact ⟨blk.2, List.getElem?_range hlt, hblk.symm⟩
  refine ((Triple.foldlM_done (I := fun done blocks' st => Gathered content bb first count
      (fun k => there k ∨ ∃ blk ∈ done, k = run.1 + blk.2 - first) blocks' ∧
      StoreOf content bb pos st)
    fun done acc blk hmem => ?_) blocks).conseq (fun st hst => ⟨?_, hst⟩)
      (fun blocks' st hst => ⟨?_, hst.2⟩)
    fun _ _ h => h
  · obtain ⟨hlt, hblk⟩ := (hget blk).1 hmem
    refine (triple_keepBlock hblk hfirst (by omega) hword).post fun blocks' st hst => ⟨?_, hst.2⟩
    refine ⟨hst.1.length, hst.1.right, fun k hk hthere => hst.1.there k hk ?_⟩
    rcases hthere with hthere | ⟨other, hother, rfl⟩
    · exact .inl (.inl hthere)
    · rcases List.mem_append.1 hother with hother | hother
      · exact .inl (.inr ⟨other, hother, rfl⟩)
      · rw [List.mem_singleton.1 hother]
        exact .inr rfl
  · refine ⟨hblocks.length, hblocks.right, fun k hk hthere => hblocks.there k hk ?_⟩
    exact hthere.resolve_right fun ⟨_, hnil, _⟩ => List.not_mem_nil hnil
  · refine ⟨hst.1.length, hst.1.right, fun k hk hthere => hst.1.there k hk ?_⟩
    refine hthere.imp id fun hin => ⟨(blockOf content bb (first + k), first + k - run.1), ?_, ?_⟩
    · rw [hget]
      refine ⟨by dsimp only; omega, ?_⟩
      dsimp only
      rw [show run.1 + (first + k - run.1) = first + k by omega]
    · dsimp only
      omega

/-! ## The copy -/

/-- The blocks that a span touches. -/
structure Span (bb pos want first count : Nat) : Prop where
  start : first * bb ≤ pos ∧ pos < (first + 1) * bb
  stop : (first + (count - 1)) * bb < pos + want ∧ pos + want ≤ (first + count) * bb
  nonempty : 0 < count

theorem span_of_div (hbb : 0 < bb) {want : Nat} (hwant : 0 < want) :
    Span bb pos want (pos / bb) ((pos + want - 1) / bb + 1 - pos / bb) := by
  have hle : pos / bb ≤ (pos + want - 1) / bb := Nat.div_le_div_right (by omega)
  have hlast := Nat.div_mul_le_self (pos + want - 1) bb
  have hnext := Nat.lt_div_mul_add hbb (a := pos + want - 1)
  have hstart := Nat.lt_div_mul_add hbb (a := pos)
  refine ⟨⟨Nat.div_mul_le_self pos bb, by rw [block_succ]; omega⟩, ⟨?_, ?_⟩, by omega⟩
  · rw [show pos / bb + ((pos + want - 1) / bb + 1 - pos / bb - 1) = (pos + want - 1) / bb by omega]
    omega
  · rw [show pos / bb + ((pos + want - 1) / bb + 1 - pos / bb) =
      (pos + want - 1) / bb + 1 by omega, block_succ]
    omega

/-- The bytes of the span in front of a block. -/
def filledTo (bb pos want first i : Nat) : Nat := min want ((first + i) * bb - pos)

/-- What a block has of the span is `[pos + d, pos + d')`, between the bytes in front of
it and those in front of the next one. -/
structure BlockPart (content : Bytes) (bb pos want B d d' : Nat) : Prop where
  start : max pos B = pos + d
  stop : min (pos + want) (B + (slice content B bb).length) = pos + d'
  order : d ≤ d' ∧ d' ≤ want
  inside : B ≤ pos + d ∧ pos + d' ≤ B + (slice content B bb).length
  full : B + (slice content B bb).length ≤ content.length
  whole : pos + d' ≤ B + bb

theorem blockPart {want : Nat} (hspan : Span bb pos want first count)
    (hstop : pos + want ≤ content.length) {i : Nat} (hi : i < count) :
    BlockPart content bb pos want ((first + i) * bb) (filledTo bb pos want first i)
      (filledTo bb pos want first (i + 1)) := by
  have hlast : (first + i) * bb ≤ (first + (count - 1)) * bb := Nat.mul_le_mul_right bb (by omega)
  have hfirst : first * bb ≤ (first + i) * bb := Nat.mul_le_mul_right bb (by omega)
  have hnext : (first + (i + 1)) * bb = (first + i) * bb + bb := by rw [← Nat.add_assoc, block_succ]
  obtain ⟨⟨hstart, hstart'⟩, ⟨hstop', -⟩, -⟩ := hspan
  rw [block_succ] at hstart'
  unfold filledTo
  rw [hnext]
  generalize (first + i) * bb = B at *
  have hlen : (slice content B bb).length = min bb (content.length - B) := slice_length _ _ _
  rw [show min want (B - pos) = B - pos by omega]
  rcases Nat.le_total (B + bb) (pos + want) with hle | hle
  · have hfull : (slice content B bb).length = bb := by omega
    rw [show min want (B + bb - pos) = B + bb - pos by omega]
    exact ⟨by omega, by omega, by omega, by omega, by omega, by omega⟩
  · have hfull : pos + want ≤ B + (slice content B bb).length := by omega
    rw [show min want (B + bb - pos) = want by omega]
    exact ⟨by omega, by omega, by omega, by omega, by omega, by omega⟩

theorem copyBlock_eq (hmem : content.length ≤ isizeMax) {want : Nat}
    (hspan : Span bb pos want first count) (hstop : pos + want ≤ content.length) {buf : Bytes}
    (hbuf : want ≤ buf.length) {i : Nat} (hi : i < count) :
    copyBlock first pos (pos + want) bb
        (slice content pos (filledTo bb pos want first i) ++
          buf.drop (filledTo bb pos want first i))
        (some (blockOf content bb (first + i)), i) =
      .ok (slice content pos (filledTo bb pos want first (i + 1)) ++
        buf.drop (filledTo bb pos want first (i + 1))) := by
  have hsize : isizeMax + 1 < 2 ^ 64 := by decide
  have hindex : first + i ≤ (first + i) * bb := by
    have := hspan.start.2
    rw [block_succ] at this
    have hstart := hspan.start.1
    exact Nat.le_mul_of_pos_right _ (by omega)
  obtain ⟨hfrom, hto, ⟨hdd, hwant⟩, ⟨hB, hend⟩, hfull, hwhole⟩ := blockPart hspan hstop hi
  generalize filledTo bb pos want first i = d at *
  generalize filledTo bb pos want first (i + 1) = d' at *
  rw [copyBlock, blockOf]
  dsimp only
  generalize hblk : (first + i) * bb = B at *
  have hpart : ((slice content B bb).drop (pos + d - B)).take (pos + d' - B - (pos + d - B)) =
      slice content (pos + d) (d' - d) := by
    rw [show pos + d' - B - (pos + d - B) = d' - d by omega, ← slice, slice_slice (by omega),
      show B + (pos + d - B) = pos + d by omega]
  have hfilled : (slice content pos d).length = d := by
    rw [slice_length]
    omega
  have hfront : slice content pos d ++ slice content (pos + d) (d' - d) = slice content pos d' := by
    rw [← slice_add, Nat.add_sub_of_le hdd]
  have hback : (slice content pos d ++ buf.drop d).drop d' = buf.drop d' := by
    rw [List.drop_append, hfilled, List.drop_of_length_le (by rw [hfilled]; exact hdd),
      List.nil_append, List.drop_drop, Nat.add_sub_of_le hdd]
  have hroom : d' ≤ (slice content pos d ++ buf.drop d).length := by
    rw [List.length_append, hfilled, List.length_drop]
    omega
  rw [addWord_of_lt (by omega), ok_bind, mulWord_of_lt (by omega), ok_bind, hblk,
    addWord_of_lt (by omega), ok_bind,
    hfrom, hto, subWord_of_le (by omega), ok_bind, subWord_of_le (by omega), ok_bind,
    subWord_of_le (by omega), ok_bind,
    subWord_of_le (by omega), ok_bind, getRange_of_le (by omega) (by omega), ok_bind, hpart,
    Nat.add_sub_cancel_left, show d + (pos + d' - B - (pos + d - B)) = d' by omega,
    putRange_of_le hdd hroom (by rw [slice_length]; omega), List.take_left' hfilled, hfront, hback]

/-- The blocks of the span, copied one after the other. -/
theorem copyBlocks_eq (hmem : content.length ≤ isizeMax) {want : Nat}
    (hspan : Span bb pos want first count) (hstop : pos + want ≤ content.length) {buf : Bytes}
    (hbuf : want ≤ buf.length) :
    ((List.range count).map fun k => some (blockOf content bb (first + k))).zipIdx.foldlM
        (copyBlock first pos (pos + want) bb) buf =
      .ok (slice content pos want ++ buf.drop want) := by
  have hzip : ((List.range count).map fun k => some (blockOf content bb (first + k))).zipIdx =
      (List.range count).map fun k => (some (blockOf content bb (first + k)), k) := by
    apply List.ext_getElem
    · simp
    · intro k hk hk'
      simp
  have hloop : ∀ i ≤ count, (List.range i).foldlM
      (fun buf k =>
        copyBlock first pos (pos + want) bb buf (some (blockOf content bb (first + k)), k)) buf =
      (.ok (slice content pos (filledTo bb pos want first i) ++
        buf.drop (filledTo bb pos want first i)) :
        Outcome Stop Bytes) := by
    intro i
    induction i with
    | zero =>
      intro _
      have hnone : filledTo bb pos want first 0 = 0 := by
        have := hspan.start.1
        unfold filledTo
        rw [Nat.add_zero]
        omega
      rw [hnone, slice_zero, List.nil_append, List.drop_zero]
      rfl
    | succ i ih =>
      intro hi
      rw [List.range_succ, List.foldlM_append, ih (by omega), ok_bind, List.foldlM_cons,
        copyBlock_eq hmem hspan hstop hbuf hi, ok_bind]
      rfl
  have hall : filledTo bb pos want first count = want := by
    have := hspan.stop.2
    unfold filledTo
    omega
  rw [hzip, List.foldlM_map, hloop count (Nat.le_refl count), hall]

/-! ## Calls -/

/-- A read returns what the content has from the position on. -/
theorem triple_read (hserves : Serves server content) (hmem : content.length ≤ isizeMax)
    (hbb : 0 < bb ∧ bb < u64Size) (buf : Bytes) :
    Triple (StoreOf content bb pos) (read server buf)
      (fun out st =>
        out = ((slice content pos buf.length).length,
          slice content pos buf.length ++ buf.drop (slice content pos buf.length).length) ∧
        StoreOf content bb (pos + (slice content pos buf.length).length) st) fun _ _ => False := by
  rw [read]
  refine Triple.get_bind fun st hst => ?_
  rw [hst.len, hst.pos, hst.blockBytes]
  refine Triple.ite (fun hnone => ?_) fun hsome => ?_
  · have hempty : slice content pos buf.length = [] := by
      apply List.eq_nil_of_length_eq_zero
      rw [slice_length]
      rcases hnone with rfl | hend
      · exact Nat.zero_min _
      · omega
    rw [hempty]
    exact Triple.pure fun t ht => ⟨rfl, ht ▸ hst⟩
  obtain ⟨hbuf, hpos⟩ := not_or.1 hsome
  have hlen : 0 < buf.length := List.length_pos_iff.2 hbuf
  dsimp only
  generalize hwant : min buf.length (content.length - pos) = want
  have hspan : Span bb pos want (pos / bb) ((pos + want - 1) / bb + 1 - pos / bb) :=
    span_of_div hbb.1 (by omega)
  generalize pos / bb = first at *
  generalize (pos + want - 1) / bb + 1 - first = count at *
  have hinside : (first + (count - 1)) * bb < content.length := by
    have := hspan.stop.1
    omega
  have hpart : slice content pos buf.length = slice content pos want := by
    rw [← hwant]
    apply List.ext_getElem?
    intro k
    rw [slice_getElem?, slice_getElem?]
    split_ifs <;> first | rfl | omega | exact List.getElem?_eq_none (by omega)
  have hpartLen : (slice content pos want).length = want := by
    rw [slice_length]
    omega
  rw [hpart, hpartLen]
  refine Triple.bind (R := fun blocks st =>
      List.Forall₂ (fun block found => ∀ bytes, found = some bytes →
      bytes = blockOf content bb block) (List.range' first count) blocks ∧
      StoreOf content bb pos st)
    ((Triple.mapM_forall₂ fun block _ => triple_cacheGet block).pre fun t ht =>
      ht ▸ hst) fun held =>
      Triple.assume fun hheld => ?_
  have hgathered : Gathered content bb first count (fun k => held[k]? ≠ some none) held := by
    have hcount : held.length = count := by rw [← hheld.length_eq, List.length_range']
    refine ⟨hcount, fun k bytes hk => ?_, fun k hk hthere => ?_⟩
    · obtain ⟨hlt, hget⟩ := List.getElem?_eq_some_iff.1 hk
      have hrel := hheld.get (by rw [List.length_range']; omega) hlt
      rw [List.get_eq_getElem, List.get_eq_getElem, List.getElem_range', Nat.one_mul] at hrel
      exact hrel bytes hget
    · cases hget : held[k]? with
      | none => exact absurd (List.getElem?_eq_none_iff.1 hget) (by omega)
      | some found =>
        cases found with
        | none => exact absurd hget hthere
        | some bytes => exact ⟨bytes, rfl⟩
  refine Triple.bind (R := fun blocks st => blocks = (List.range count).map (fun k =>
      some (blockOf content bb (first + k))) ∧ StoreOf content bb pos st) ?_ fun blocks =>
    Triple.assume fun hblocks => ?_
  · -- the runs that are done, and the blocks that they have fetched
    refine ((Triple.foldlM_done (I := fun done blocks' st => Gathered content bb first count
        (fun k => held[k]? ≠ some none ∨ ∃ run ∈ done, run.1 ≤ first + k ∧
          first + k < run.1 + run.2) blocks' ∧
          StoreOf content bb pos st)
      fun done acc run hrun => ?_) held).conseq (fun st hst => ⟨?_, hst⟩)
        (fun blocks' st hst => ⟨?_, hst.2⟩)
      fun _ _ h => h
    · have hruns := planLoop_inside first 0 _ run hrun
      rw [List.length_map, hgathered.length] at hruns
      refine (triple_fetchRun hserves hmem hbb ⟨hruns.1, by omega, by omega⟩ hinside).post
        fun blocks' st hst =>
        ⟨⟨hst.1.length, hst.1.right, fun k hk hthere => hst.1.there k hk ?_⟩, hst.2⟩
      rcases hthere with hthere | ⟨other, hother, hin⟩
      · exact .inl (.inl hthere)
      · rcases List.mem_append.1 hother with hother | hother
        · exact .inl (.inr ⟨other, hother, hin⟩)
        · rw [List.mem_singleton.1 hother] at hin
          exact .inr hin
    · refine ⟨hgathered.length, hgathered.right, fun k hk hthere => hgathered.there k hk ?_⟩
      exact hthere.resolve_right fun ⟨_, hnil, _⟩ => List.not_mem_nil hnil
    · refine hst.1.eq_map fun k hk => ?_
      by_cases hmissing : held[k]? = some none
      · obtain ⟨run, hrun, hle, hlt⟩ := planLoop_covers first 0 (held.map Option.isSome) k (by
          rw [List.getElem?_map, hmissing]
          rfl)
        exact .inr ⟨run, hrun, by omega, by omega⟩
      · exact .inl hmissing
  · rw [hblocks, copyBlocks_eq hmem hspan (by omega) (by omega), lift_ok, pure_bind]
    refine (Triple.modify (Q := fun _ => StoreOf content bb (pos + want)) fun t ht =>
      ?_).bind fun _ =>
      Triple.pure fun t ht => ⟨rfl, ht⟩
    exact ⟨ht.len, ht.blockBytes, rfl, ht.cache, ht.requested⟩

/-- The kind of an error; a fault has none. -/
def Stop.kind : Stop → Option ErrorKind
  | .io kind _ => some kind
  | .fault => none

theorem addOffset_eq {base : Nat} (hbase : base < u64Size) (delta : Int) :
    addOffset base delta = (Cursor.moved base delta).toOption := by
  unfold addOffset Cursor.moved
  split_ifs with hsign hsum hmoved hmoved hdiff hmoved hmoved
  · rw [show ((base : Int) + delta).toNat = base + delta.toNat by omega]
    rfl
  · omega
  · omega
  · rfl
  · rw [show ((base : Int) + delta).toNat = base - delta.natAbs by omega]
    rfl
  · omega
  · omega
  · rfl

/-- The end of a seek on the store, `x`, is that of the cursor, `y`: the same position,
or a refusal. -/
structure SeekAgrees (st : HttpRangeStore) (y : Except Stop Nat)
    (x : EStateM.Result Stop HttpRangeStore Nat) :
    Prop where
  ok : ∀ p, y = .ok p → x = .ok p { st with pos := p } ∧ p < u64Size
  error : ∀ e, y = .error e → e.kind = some .invalidInput ∧
    ∃ message, x = .error (.io .invalidInput message) st

theorem seekAgrees_moved (base : Nat) (delta : Int) (st : HttpRangeStore) :
    SeekAgrees st (Cursor.moved base delta) (moveTo (Cursor.moved base delta).toOption st) := by
  unfold Cursor.moved
  split_ifs with hrange
  · refine ⟨fun p hp => ?_, fun e he => nomatch he⟩
    cases hp
    exact ⟨rfl, by omega⟩
  · refine ⟨fun p hp => (nomatch hp), fun e he => ?_⟩
    cases he
    exact ⟨rfl, _, rfl⟩

theorem seekAgrees_seek (target : SeekFrom) {st : HttpRangeStore} (hst : StoreOf content bb pos st)
    (hmem : content.length ≤ isizeMax) (hpos : pos < u64Size) :
    SeekAgrees st (Cursor.seek ⟨content, pos⟩ target) (seek target st) := by
  have hlen : content.length < u64Size := Nat.lt_of_le_of_lt hmem (by decide)
  cases target with
  | start p =>
    refine ⟨fun q hq => ?_, fun e he => nomatch he⟩
    cases hq
    exact ⟨rfl, p.toNat_lt⟩
  | fromEnd d =>
    have hseek : seek (.fromEnd d) st = moveTo (addOffset st.len d.toInt) st := rfl
    rw [hseek, hst.len, addOffset_eq hlen]
    exact seekAgrees_moved content.length d.toInt st
  | current d =>
    have hseek : seek (.current d) st = moveTo (addOffset st.pos d.toInt) st := rfl
    rw [hseek, hst.pos, addOffset_eq hpos]
    exact seekAgrees_moved pos d.toInt st

/-- One call: the reply is that of the cursor, up to the text of an error, and so is
the position behind it. -/
theorem perform_spec (hserves : Serves server content) (hmem : content.length ≤ isizeMax)
    (hbb : 0 < bb ∧ bb < u64Size) {st : HttpRangeStore} (hst : StoreOf content bb pos st)
    (hpos : pos < u64Size) (call : Call) :
    (perform server st call).1.mapError Stop.kind =
      (Cursor.perform ⟨content, pos⟩ call).1.mapError Stop.kind ∧
      ∃ pos', (Cursor.perform ⟨content, pos⟩ call).2 = ⟨content, pos'⟩ ∧ pos' < u64Size ∧
        StoreOf content bb pos' (perform server st call).2 := by
  cases call with
  | seek target =>
    have hseek := seekAgrees_seek target hst hmem hpos
    unfold perform Cursor.perform
    dsimp only
    cases hcursor : Cursor.seek ⟨content, pos⟩ target with
    | ok p =>
      obtain ⟨hmoved, hp⟩ := hseek.ok p hcursor
      rw [hmoved]
      exact ⟨rfl, p, rfl, hp, hst.len, hst.blockBytes, rfl, hst.cache, hst.requested⟩
    | error e =>
      obtain ⟨hkind, message, hmessage⟩ := hseek.error e hcursor
      rw [hmessage]
      refine ⟨?_, pos, rfl, hpos, hst⟩
      show Except.error (some ErrorKind.invalidInput) = Except.error e.kind
      rw [hkind]
  | read buf =>
    obtain ⟨out, st', hread, hout, hst'⟩ := (triple_read hserves hmem hbb buf).exists_ok hst
    have hbound : pos + (slice content pos buf.length).length < u64Size := by
      rw [slice_length]
      have : isizeMax < u64Size := by decide
      omega
    unfold perform Cursor.perform Cursor.taken
    dsimp only
    rw [hread, hout]
    exact ⟨rfl, _, rfl, hbound, hst'⟩

/-! ## A run -/

theorem performAll_spec (hserves : Serves server content) (hmem : content.length ≤ isizeMax)
    (hbb : 0 < bb ∧ bb < u64Size) (calls : List Call) :
    ∀ {pos : Nat} {st : HttpRangeStore}, StoreOf content bb pos st → pos < u64Size →
      (performAll server st calls).1.map (Except.mapError Stop.kind) =
          (Cursor.performAll ⟨content, pos⟩ calls).1.map (Except.mapError Stop.kind) ∧
        StoreOf content bb (Cursor.performAll ⟨content, pos⟩ calls).2.pos
          (performAll server st calls).2 := by
  induction calls with
  | nil =>
    intro pos st hst _
    exact ⟨rfl, hst⟩
  | cons call calls ih =>
    intro pos st hst hpos
    obtain ⟨hreply, pos', hcursor, hpos', hst'⟩ := perform_spec hserves hmem hbb hst hpos call
    obtain ⟨hreplies, hlast⟩ := ih hst' hpos'
    rw [performAll, Cursor.performAll, hcursor]
    exact ⟨by rw [List.map_cons, List.map_cons, hreply, hreplies], hlast⟩

/-- The view returns what a cursor over the content returns, up to the texts of errors,
for all calls; its position is that of the cursor, and it has requested ranges of at
least one byte inside the content only.  A content in memory has at most `isizeMax`
bytes. -/
theorem store_refines_cursor (hserves : Serves server content)
    (hmem : content.length ≤ isizeMax) (url : Str)
    (blockBytes cacheBytes : UInt64) (hblock : 0 < blockBytes.toNat) (calls : List Call) :
    (performAll server (opened url content.length blockBytes cacheBytes) calls).1.map
        (Except.mapError Stop.kind) =
      (Cursor.performAll ⟨content, 0⟩ calls).1.map (Except.mapError Stop.kind) ∧
    (performAll server (opened url content.length blockBytes cacheBytes) calls).2.pos =
      (Cursor.performAll ⟨content, 0⟩ calls).2.pos ∧
    ∀ range ∈
      (performAll server (opened url content.length blockBytes cacheBytes) calls).2.requested,
      range.1 ≤ range.2 ∧ range.2 < content.length := by
  have hopened :
      StoreOf content blockBytes.toNat 0 (opened url content.length blockBytes cacheBytes) :=
    ⟨rfl, rfl, rfl, LruCache.all_new _, fun range hrange => absurd hrange List.not_mem_nil⟩
  obtain ⟨hreplies, hstore⟩ :=
    performAll_spec hserves hmem ⟨hblock, blockBytes.toNat_lt⟩ calls hopened (by decide)
  exact ⟨hreplies, hstore.pos, hstore.requested⟩

/-- A server of five bytes. -/
def sampleServer : Server :=
  fun first last => .ok (206, slice [1, 2, 3, 4, 5] first (last + 1 - first))

/-- Blocks of two bytes, and no cache. -/
theorem store_refines_cursor_five :
    (performAll sampleServer (opened (str "http://host/file") 5 2 0)
        [.seek (.fromEnd (-4)), .read [9, 9, 9, 9, 9, 9], .seek (.current (-9))]).1.map
        (Except.mapError Stop.kind) =
      (Cursor.performAll ⟨[1, 2, 3, 4, 5], 0⟩
        [.seek (.fromEnd (-4)), .read [9, 9, 9, 9, 9, 9], .seek (.current (-9))]).1.map
        (Except.mapError Stop.kind) :=
  (@store_refines_cursor sampleServer [1, 2, 3, 4, 5] (fun _ _ _ _ => rfl) (by decide)
    (str "http://host/file") 2 0
    (by decide) [.seek (.fromEnd (-4)), .read [9, 9, 9, 9, 9, 9], .seek (.current (-9))]).1

end RustFits.RemoteRange
