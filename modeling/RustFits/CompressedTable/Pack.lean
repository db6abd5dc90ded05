import RustFits.CompressedTable.Tiles

/-!
# The compact heap of a table with variable-length columns

`repack_compressed_table_heap_vla` builds the new heap in a staging area, blob by
blob.  Here the same heap is built in memory.

* `packCells`, `packBlob` and `packBlobs` append what is live to the heap so far, and
  give every descriptor its new place.
* The packed data is the stored data (`BlobPacked.stored`), and packing it again
  changes nothing (`BlobPacked.again`).  Both hold in every heap that begins with the
  packed one, so they survive what is appended later.
-/

namespace RustFits.CompressedTable

open Ascii ByteFile Machine BigEndian

/-- What is relied on of gzip: it does not fail to compress, its output is not empty,
and the decompressor, which checks the length, undoes it. -/
structure LosslessGzip (codec : Codec) : Prop where
  sized : Sized codec
  encodes : ∀ b, ∃ z, codec.encodeGzip1 b = .ok z
  decodes : ∀ b z, codec.encodeGzip1 b = .ok z →
    z ≠ [] ∧ codec.gzipDecompressBytes z b.length = .ok b

/-! ## Cells -/

/-- The place of a compressed-cell descriptor in the descriptor arrays. -/
def cellAt (kind : VarKind) (n r : Nat) : Nat := n * kind.width + r * 16

/-- The cells of a tile, one behind the other: the descriptor arrays with the new
places, and the heap so far. -/
def packCells (heap : Bytes) (kind : VarKind) (n : Nat) : List Nat → Bytes × Bytes → Bytes × Bytes
  | [], st => st
  | r :: rows, st =>
    let desc := cellDesc kind n st.1 r
    if desc.1.toNat = 0 then
      packCells heap kind n rows (writeAll st.1 (cellAt kind n r) (writeDescriptor .q 0 0), st.2)
    else
      packCells heap kind n rows
        (writeAll st.1 (cellAt kind n r) (writeDescriptor .q desc.1.toNat st.2.length),
          st.2 ++ slice heap desc.2.toNat desc.1.toNat)

section

variable {heap : Bytes} {kind : VarKind} {n : Nat}

theorem packCells_begins (rows : List Nat) (blob out : Bytes) :
    out <+: (packCells heap kind n rows (blob, out)).2 := by
  induction rows generalizing blob out with
  | nil => exact List.prefix_rfl
  | cons r rows ih =>
    rw [packCells]
    dsimp only
    split_ifs
    · exact ih _ out
    · exact (List.prefix_append _ _).trans (ih _ _)

/-- A descriptor of 63-bit fields reads back. -/
theorem readDescriptor_q {len off : Nat} (hlen : len ≤ 9223372036854775807)
    (hoff : off ≤ 9223372036854775807) :
    readDescriptor .q (writeDescriptor .q len off) = ((len : Int), (off : Int)) := by
  rw [readDescriptor_writeDescriptor, toSigned_mod_of_lt (show len < 2 ^ (VarKind.q.bits - 1) from
    Nat.lt_succ_of_le hlen), toSigned_mod_of_lt (show off < 2 ^ (VarKind.q.bits - 1) from
    Nat.lt_succ_of_le hoff)]

/-- What packing the cells `rows` leaves, from the arrays `blob` and the heap `out`. -/
structure CellsPacked (heap : Bytes) (kind : VarKind) (n : Nat) (rows : List Nat)
    (blob out blob' out' : Bytes) : Prop where
  length : blob'.length = blob.length
  grows : out <+: out'
  front : ∀ a m, a + m ≤ n * kind.width → slice blob' a m = slice blob a m
  others : ∀ r, r ∉ rows → slice blob' (cellAt kind n r) 16 = slice blob (cellAt kind n r) 16
  region : ∀ r ∈ rows, DescInRange out'.length (cellDesc kind n blob' r)
  moved : ∀ r ∈ rows,
    slice out' (cellDesc kind n blob' r).2.toNat (cellDesc kind n blob' r).1.toNat =
      slice heap (cellDesc kind n blob r).2.toNat (cellDesc kind n blob r).1.toNat
  live : out'.length = out.length + (rows.map fun r => (cellDesc kind n blob r).1.toNat).sum
  again : ∀ heap', out' <+: heap' → packCells heap' kind n rows (blob', out) = (blob', out')

/-- Packing one cell first. -/
theorem CellsPacked.cons {r len off : Nat} {rows : List Nat} {blob out out₁ blob' out' : Bytes}
    (hr : r < n) (hnew : r ∉ rows) (hblob : blob.length = n * kind.width + n * 16)
    (hlen : (cellDesc kind n blob r).1.toNat = len)
    (hcell : (slice heap (cellDesc kind n blob r).2.toNat len).length = len)
    (hout : out₁ = out ++ slice heap (cellDesc kind n blob r).2.toNat len)
    (hoff : off = if len = 0 then 0 else out.length)
    (hbound : out₁.length ≤ 9223372036854775807)
    (hrest : CellsPacked heap kind n rows
      (writeAll blob (cellAt kind n r) (writeDescriptor .q len off)) out₁ blob' out') :
    CellsPacked heap kind n (r :: rows) blob out blob' out' := by
  have hplace : cellAt kind n r + (writeDescriptor .q len off).length ≤ blob.length := by
    rw [writeDescriptor_length, hblob, cellAt, VarKind.width]
    omega
  have hwidth : (writeDescriptor .q len off).length = 16 := writeDescriptor_length .q len off
  have hout₁ : out₁.length = out.length + len := by rw [hout, List.length_append, hcell]
  -- the write concerns this cell only
  have hother : ∀ q, q ≠ r → slice (writeAll blob (cellAt kind n r) (writeDescriptor .q len off))
      (cellAt kind n q) 16 = slice blob (cellAt kind n q) 16 := by
    intro q hq
    refine slice_writeAll_of_disjoint (by omega) ?_
    rw [hwidth]
    unfold cellAt
    omega
  have hdescOther : ∀ q ∈ rows, cellDesc kind n
      (writeAll blob (cellAt kind n r) (writeDescriptor .q len off)) q = cellDesc kind n blob q :=
    fun q hq => congrArg _ (hother q fun heq => hnew (heq ▸ hq))
  have hself : slice blob' (cellAt kind n r) 16 = writeDescriptor .q len off := by
    rw [hrest.others r hnew]
    exact slice_writeAll_of_length (by omega) hwidth
  have hdesc : cellDesc kind n blob' r = ((len : Int), (off : Int)) := by
    show readDescriptor .q (slice blob' (cellAt kind n r) 16) = _
    rw [hself]
    refine readDescriptor_q ?_ ?_
    · omega
    · rw [hoff]
      split_ifs <;> omega
  obtain ⟨extra, hextra⟩ := hrest.grows
  have hcellMoved : slice out' off len = slice heap (cellDesc kind n blob r).2.toNat len := by
    by_cases hz : len = 0
    · rw [hz, slice_zero, slice_zero]
    · rw [hoff, if_neg hz, ← hextra, hout, List.append_assoc, slice_append_behind rfl,
        List.take_left' hcell]
  refine ⟨?_, ?_, ?_, ?_, ?_, ?_, ?_, ?_⟩
  · rw [hrest.length, writeAll_length_of_le hplace]
  · rw [← hextra, hout, List.append_assoc]
    exact List.prefix_append _ _
  · intro a m ham
    rw [hrest.front a m ham]
    refine slice_writeAll_of_disjoint (by omega) (Or.inl ?_)
    unfold cellAt
    omega
  · intro q hq
    rw [List.mem_cons, not_or] at hq
    rw [hrest.others q hq.2, hother q hq.1]
  · intro q hq
    rcases List.mem_cons.1 hq with rfl | hq
    · rw [hdesc]
      refine ⟨Int.natCast_nonneg _, Int.natCast_nonneg _, fun hne => ?_⟩
      have hle : out₁.length ≤ out'.length := by
        rw [← hextra, List.length_append]
        omega
      have hz : len ≠ 0 := fun hz => hne (by rw [hz]; rfl)
      rw [hoff, if_neg hz, Int.toNat_natCast, Int.toNat_natCast]
      omega
    · exact hrest.region q hq
  · intro q hq
    rcases List.mem_cons.1 hq with rfl | hq
    · rw [hdesc, Int.toNat_natCast, Int.toNat_natCast, hcellMoved, hlen]
    · rw [hrest.moved q hq, hdescOther q hq]
  · rw [hrest.live, hout₁, List.map_cons, List.sum_cons, hlen,
      List.map_congr_left fun q hq => congrArg (fun d : Int × Int => d.1.toNat) (hdescOther q hq)]
    omega
  · intro heap' hpre
    have hwrite : writeAll blob' (cellAt kind n r) (writeDescriptor .q len off) = blob' := by
      rw [← hself]
      apply List.ext_getElem?
      intro i
      have hin : cellAt kind n r + 16 ≤ blob'.length := by
        rw [hrest.length, writeAll_length_of_le hplace]
        omega
      rw [writeAll_slice_getElem? hin (by omega)]
      split_ifs
      · congr 1
        omega
      · rfl
    have hslice : out ++ slice heap' off len = out₁ := by
      obtain ⟨more, hmore⟩ := hpre
      rw [← hmore, slice_append_left, hcellMoved, hout]
      by_cases hz : len = 0
      · rw [hoff, if_pos hz]
        omega
      · rw [hoff, if_neg hz, ← hextra, List.length_append]
        omega
    rw [packCells]
    dsimp only
    rw [hdesc, Int.toNat_natCast, Int.toNat_natCast]
    split_ifs with hz
    · have hzero : writeDescriptor .q len off = writeDescriptor .q 0 0 := by
        rw [hoff, if_pos hz, hz]
      have hsame : out₁ = out := by rw [hout, hz, slice_zero, List.append_nil]
      rw [← hzero, hwrite, ← hsame]
      exact hrest.again heap' hpre
    · have hplaced : off = out.length := by rw [hoff, if_neg hz]
      rw [← hplaced, hwrite, hslice]
      exact hrest.again heap' hpre

/-- Packing the cells of a tile. -/
theorem packCells_spec {rows : List Nat} (hnodup : rows.Nodup) (hrows : ∀ r ∈ rows, r < n) :
    ∀ {blob out : Bytes}, blob.length = n * kind.width + n * 16 →
      (∀ r ∈ rows, DescInRange heap.length (cellDesc kind n blob r)) →
      (packCells heap kind n rows (blob, out)).2.length ≤ 9223372036854775807 →
      CellsPacked heap kind n rows blob out (packCells heap kind n rows (blob, out)).1
        (packCells heap kind n rows (blob, out)).2 := by
  induction rows with
  | nil =>
    intro blob out _ _ _
    exact ⟨rfl, List.prefix_rfl, fun _ _ _ => rfl, fun _ _ => rfl, by simp, by simp, rfl,
      fun _ _ => rfl⟩
  | cons r rows ih =>
    intro blob out hblob hin hbound
    obtain ⟨hnew, hnodup⟩ := List.nodup_cons.1 hnodup
    have hr := hrows r List.mem_cons_self
    have hcell := slice_length_of_inRange (hin r List.mem_cons_self)
    -- the new descriptor, and the tail of the rows after it
    have hstep : ∀ len off : Nat, ∀ out₁ : Bytes, (cellDesc kind n blob r).1.toNat = len →
        out₁ = out ++ slice heap (cellDesc kind n blob r).2.toNat len →
        (off = if len = 0 then 0 else out.length) →
        packCells heap kind n (r :: rows) (blob, out) = packCells heap kind n rows
          (writeAll blob (cellAt kind n r) (writeDescriptor .q len off), out₁) →
        CellsPacked heap kind n (r :: rows) blob out
          (packCells heap kind n (r :: rows) (blob, out)).1
          (packCells heap kind n (r :: rows) (blob, out)).2 := by
      intro len off out₁ hlen hout hoff heq
      rw [heq] at hbound ⊢
      have hle : out₁.length ≤ (packCells heap kind n rows
          (writeAll blob (cellAt kind n r) (writeDescriptor .q len off), out₁)).2.length :=
        (packCells_begins _ _ _).length_le
      have hplace : cellAt kind n r + (writeDescriptor .q len off).length ≤ blob.length := by
        rw [writeDescriptor_length, hblob, cellAt, VarKind.width]
        omega
      refine CellsPacked.cons hr hnew hblob hlen (by rw [← hlen]; exact hcell) hout hoff
        (Nat.le_trans hle hbound) (ih hnodup (fun q hq => hrows q (List.mem_cons_of_mem _ hq)) ?_ ?_
          hbound)
      · rw [writeAll_length_of_le hplace, hblob]
      · intro q hq
        have hdesc : cellDesc kind n
            (writeAll blob (cellAt kind n r) (writeDescriptor .q len off)) q =
              cellDesc kind n blob q := by
          refine congrArg _ (slice_writeAll_of_disjoint (by omega) ?_)
          have hne : q ≠ r := fun heq => hnew (heq ▸ hq)
          rw [writeDescriptor_length, VarKind.width]
          unfold cellAt
          omega
        rw [hdesc]
        exact hin q (List.mem_cons_of_mem _ hq)
    by_cases hz : (cellDesc kind n blob r).1.toNat = 0
    · refine hstep 0 0 out hz (by rw [slice_zero, List.append_nil]) rfl ?_
      rw [packCells]
      dsimp only
      rw [if_pos hz]
    · refine hstep _ out.length _ rfl rfl (by rw [if_neg hz]) ?_
      rw [packCells]
      dsimp only
      rw [if_neg hz]

end

/-! ## Blobs -/

/-- The blob of a descriptor, behind its cells: its new offset and length, and the heap
so far. -/
def packBlob (codec : Codec) (heap : Bytes) (n : Nat) (desc : Int × Int) (column : Column)
    (out : Bytes) : Except PyErr ((Nat × Nat) × Bytes) :=
  if desc.1 ≤ 0 then .ok ((0, 0), out)
  else
    match column.varKind with
    | none => .ok ((out.length, desc.1.toNat), out ++ slice heap desc.2.toNat desc.1.toNat)
    | some kind => do
      let blob ← codec.gzipDecompressBytes (slice heap desc.2.toNat desc.1.toNat)
        (n * kind.width + n * 16)
      let packed := packCells heap kind n (List.range n) (blob, out)
      let gzipped ← codec.encodeGzip1 packed.1
      return ((packed.2.length, gzipped.length), packed.2 ++ gzipped)

/-- The descriptor of a region. -/
def regionDesc (region : Nat × Nat) : Int × Int := ((region.2 : Int), (region.1 : Int))

/-- What packing a blob leaves, in every heap that begins with the packed one. -/
structure BlobPacked (codec : Codec) (heap : Bytes) (n : Nat) (desc : Int × Int) (column : Column)
    (out : Bytes) (new : Nat × Nat) (out' : Bytes) : Prop where
  grows : out <+: out'
  le : new.1 + new.2 ≤ out'.length
  inRange : ∀ heap', out' <+: heap' → BlobInRange codec heap' n (regionDesc new) column
  stored : ∀ heap', out' <+: heap' →
    storedBlob codec heap' n (regionDesc new) column = storedBlob codec heap n desc column
  live : ∀ heap', out' <+: heap' →
    out'.length = out.length + liveBlob codec heap' n (regionDesc new) column
  again : ∀ heap', out' <+: heap' →
    packBlob codec heap' n (regionDesc new) column out = .ok (new, out')

section

variable {codec : Codec} {heap : Bytes} {n : Nat} {desc : Int × Int} {column : Column}

theorem storedBlob_slab (hkind : column.varKind = none) :
    storedBlob codec heap n desc column = .ok (.slab (slice heap desc.2.toNat desc.1.toNat)) := by
  rw [storedBlob, hkind]

theorem storedBlob_empty {kind : VarKind} (hkind : column.varKind = some kind)
    (hdesc : desc.1 ≤ 0) :
    storedBlob codec heap n desc column = .ok (.cells []) := by
  rw [storedBlob, hkind]
  simp only
  rw [if_pos hdesc]

theorem storedBlob_cells {kind : VarKind} {blob : Bytes} (hkind : column.varKind = some kind)
    (hdesc : ¬ desc.1 ≤ 0)
    (hblob : codec.gzipDecompressBytes (slice heap desc.2.toNat desc.1.toNat)
      (n * kind.width + n * 16) = .ok blob) :
    storedBlob codec heap n desc column =
      .ok (.cells ((List.range n).map (storedCell heap kind n blob))) := by
  rw [storedBlob, hkind]
  simp only
  rw [if_neg hdesc, hblob]
  rfl

theorem liveBlob_slab (hkind : column.varKind = none) :
    liveBlob codec heap n desc column = desc.1.toNat := by
  rw [liveBlob, storedBlob_slab hkind]

theorem liveBlob_empty (hdesc : desc.1 ≤ 0) : liveBlob codec heap n desc column = 0 := by
  unfold liveBlob
  cases hkind : column.varKind with
  | none =>
    rw [storedBlob_slab hkind]
    simp only
    omega
  | some kind =>
    rw [storedBlob_empty hkind hdesc]
    simp only [List.map_nil, List.sum_nil]
    omega

/-- An empty descriptor stays empty. -/
theorem blobPacked_empty (hdesc : desc.1 = 0) (out : Bytes) :
    BlobPacked codec heap n desc column out (0, 0) out := by
  refine ⟨List.prefix_rfl, Nat.zero_le _, fun heap' _ => ⟨⟨Int.le_refl _, Int.le_refl _, ?_⟩, ?_⟩,
    fun heap' _ => ?_, fun heap' _ => ?_, fun heap' _ => ?_⟩
  · exact fun hne => absurd rfl hne
  · exact fun hne => absurd rfl hne
  · cases hkind : column.varKind with
    | none =>
      rw [storedBlob_slab hkind, storedBlob_slab hkind, hdesc]
      simp [regionDesc]
    | some kind =>
      rw [storedBlob_empty hkind (Int.le_refl _), storedBlob_empty hkind (by omega)]
  · rw [liveBlob_empty (Int.le_refl _), Nat.add_zero]
  · rw [packBlob, if_pos (show (regionDesc (0, 0)).1 ≤ 0 from Int.le_refl _)]

/-- A region behind the heap so far. -/
theorem region_append {out z heap' : Bytes} (hz : z ≠ []) (hpre : out ++ z <+: heap') :
    ¬ (regionDesc (out.length, z.length)).1 ≤ 0 ∧
      DescInRange heap'.length (regionDesc (out.length, z.length)) ∧
      slice heap' (regionDesc (out.length, z.length)).2.toNat
        (regionDesc (out.length, z.length)).1.toNat = z := by
  have hpos : 0 < z.length := List.length_pos_of_ne_nil hz
  obtain ⟨more, rfl⟩ := hpre
  refine ⟨by simp only [regionDesc]; omega, ⟨?_, ?_, fun _ => ?_⟩, ?_⟩
  · exact Int.natCast_nonneg _
  · exact Int.natCast_nonneg _
  · simp only [regionDesc, Int.toNat_natCast, List.length_append]
    omega
  · simp only [regionDesc, Int.toNat_natCast]
    rw [List.append_assoc, slice_append_behind rfl, List.take_left' rfl]

/-- The blob of a fixed column moves. -/
theorem blobPacked_slab (hkind : column.varKind = none) (hdesc : ¬ desc.1 ≤ 0)
    (hb : BlobInRange codec heap n desc column) (out : Bytes) :
    BlobPacked codec heap n desc column out (out.length, desc.1.toNat)
      (out ++ slice heap desc.2.toNat desc.1.toNat) := by
  have hlen := slice_length_of_inRange hb.region
  generalize hz : slice heap desc.2.toNat desc.1.toNat = z at *
  have hne : z ≠ [] := by
    rintro rfl
    rw [List.length_nil] at hlen
    omega
  rw [← hlen]
  refine ⟨List.prefix_append _ _, by simp, fun heap' hpre => ⟨(region_append hne hpre).2.1, ?_⟩,
    fun heap' hpre => ?_, fun heap' hpre => ?_, fun heap' hpre => ?_⟩
  · intro _ kind hsome
    rw [hkind] at hsome
    cases hsome
  · rw [storedBlob_slab hkind, storedBlob_slab hkind, (region_append hne hpre).2.2, hz]
  · rw [liveBlob_slab hkind, List.length_append]
    simp [regionDesc]
  · rw [packBlob, if_neg (region_append hne hpre).1, hkind]
    simp only
    rw [(region_append hne hpre).2.2]
    simp [regionDesc]

/-- The descriptor arrays of a variable-length column move behind their cells. -/
theorem blobPacked_cells (hgzip : LosslessGzip codec) {kind : VarKind}
    {out blob out₁ blob' z : Bytes} (hkind : column.varKind = some kind) (hdesc : ¬ desc.1 ≤ 0)
    (hblob : codec.gzipDecompressBytes (slice heap desc.2.toNat desc.1.toNat)
      (n * kind.width + n * 16) = .ok blob)
    (hcells : ∀ r < n, DescInRange heap.length (cellDesc kind n blob r))
    (hpacked : CellsPacked heap kind n (List.range n) blob out blob' out₁)
    (hz : codec.encodeGzip1 blob' = .ok z) :
    BlobPacked codec heap n desc column out (out₁.length, z.length) (out₁ ++ z) := by
  obtain ⟨hne, hdecode⟩ := hgzip.decodes _ _ hz
  have hsize : blob'.length = n * kind.width + n * 16 := by
    rw [hpacked.length, hgzip.sized _ _ _ hblob]
  rw [hsize] at hdecode
  -- the new arrays lead to the cells, in every later heap
  have hcell : ∀ heap', out₁ ++ z <+: heap' → ∀ r < n,
      DescInRange heap'.length (cellDesc kind n blob' r) ∧
        storedCell heap' kind n blob' r = storedCell heap kind n blob r := by
    intro heap' hpre r hr
    obtain ⟨hn, hoff, hin⟩ := hpacked.region r (List.mem_range.2 hr)
    have hroom : (r + 1) * kind.width ≤ n * kind.width := Nat.mul_le_mul_right _ hr
    rw [Nat.succ_mul] at hroom
    obtain ⟨more, rfl⟩ := hpre
    refine ⟨⟨hn, hoff, fun h0 => ?_⟩, ?_⟩
    · have := hin h0
      simp only [List.length_append]
      omega
    · unfold storedCell
      rw [hpacked.front _ _ hroom, ← hpacked.moved r (List.mem_range.2 hr)]
      refine Prod.ext rfl ?_
      by_cases h0 : (cellDesc kind n blob' r).1 = 0
      · simp only [h0, Int.toNat_zero, slice_zero]
      · simp only [List.append_assoc]
        exact slice_append_left (hin h0)
  have hstored : ∀ heap', out₁ ++ z <+: heap' →
      storedBlob codec heap' n (regionDesc (out₁.length, z.length)) column =
        .ok (.cells ((List.range n).map (storedCell heap kind n blob))) := by
    intro heap' hpre
    obtain ⟨hpos, -, hslice⟩ := region_append hne hpre
    rw [storedBlob_cells hkind hpos (by rw [hslice]; exact hdecode)]
    refine congrArg (fun l => Except.ok (Stored.cells l)) (List.map_congr_left fun r hr => ?_)
    exact (hcell heap' hpre r (List.mem_range.1 hr)).2
  refine ⟨hpacked.grows.trans (List.prefix_append _ _), by simp, fun heap' hpre => ?_,
    fun heap' hpre => ?_, fun heap' hpre => ?_, fun heap' hpre => ?_⟩
  · obtain ⟨hpos, hin, hslice⟩ := region_append hne hpre
    refine ⟨hin, fun _ kind' hkind' => ?_⟩
    rw [hkind, Option.some.injEq] at hkind'
    subst hkind'
    exact ⟨blob', by rw [hslice]; exact hdecode, fun r hr => (hcell heap' hpre r hr).1⟩
  · rw [hstored heap' hpre, storedBlob_cells hkind hdesc hblob]
  · have hsum : ((List.range n).map fun r => (cellDesc kind n blob r).1.toNat).sum =
        (((List.range n).map (storedCell heap kind n blob)).map fun row => row.2.length).sum := by
      rw [List.map_map]
      refine congrArg _ (List.map_congr_left fun r hr => ?_)
      exact (slice_length_of_inRange (hcells r (List.mem_range.1 hr))).symm
    have hlive := hpacked.live
    rw [liveBlob, hstored heap' hpre]
    simp only [regionDesc, Int.toNat_natCast, List.length_append]
    omega
  · obtain ⟨hpos, -, hslice⟩ := region_append hne hpre
    rw [packBlob, if_neg hpos, hkind]
    simp only
    rw [hslice, hdecode]
    simp only [bind, Except.bind]
    rw [hpacked.again heap' ((List.prefix_append _ _).trans hpre), hz]
    rfl

/-- Packing a blob. -/
theorem packBlob_spec (hgzip : LosslessGzip codec) (hb : BlobInRange codec heap n desc column)
    (out : Bytes) :
    ∃ new out', packBlob codec heap n desc column out = .ok (new, out') ∧ out <+: out' ∧
      (out'.length ≤ 9223372036854775807 → BlobPacked codec heap n desc column out new out') := by
  by_cases hdesc : desc.1 ≤ 0
  · have hzero : desc.1 = 0 := Int.le_antisymm hdesc hb.region.1
    exact ⟨(0, 0), out, by rw [packBlob, if_pos hdesc], List.prefix_rfl,
      fun _ => blobPacked_empty hzero out⟩
  · cases hkind : column.varKind with
    | none =>
      refine ⟨_, _, ?_, List.prefix_append _ _, fun _ => blobPacked_slab hkind hdesc hb out⟩
      rw [packBlob, if_neg hdesc, hkind]
    | some kind =>
      obtain ⟨blob, hblob, hcells⟩ := hb.cells (by omega) kind hkind
      obtain ⟨z, hz⟩ := hgzip.encodes (packCells heap kind n (List.range n) (blob, out)).1
      refine ⟨_, _, ?_, ?_, fun hbound => blobPacked_cells hgzip hkind hdesc hblob hcells
        (packCells_spec List.nodup_range (fun r hr => List.mem_range.1 hr) (hgzip.sized _ _ _ hblob)
          (fun r hr => hcells r (List.mem_range.1 hr)) ?_) hz⟩
      · rw [packBlob, if_neg hdesc, hkind]
        simp only
        rw [hblob]
        simp only [bind, Except.bind]
        rw [hz]
        rfl
      · exact (packCells_begins (List.range n) blob out).trans (List.prefix_append _ _)
      · rw [List.length_append] at hbound
        omega

end

/-! ## The table -/

/-- The column of a cell of the descriptor table. -/
def columnAt (columns : List Column) (cell : Nat × Nat) : Except PyErr Column :=
  match columns[cell.2]? with
  | some column => .ok column
  | none => .error (.panic (str "column"))

/-- All blobs of the descriptor table: the new region of each, and the compact heap.
`rowsIn` counts the rows of a tile. -/
def packBlobs (codec : Codec) (columns : List Column) (heap table : Bytes) (rowWidth : Nat)
    (rowsIn : Nat → Nat) :
    List (Nat × Nat) → Bytes → Except PyErr (List ((Nat × Nat) × Nat × Nat) × Bytes)
  | [], out => .ok ([], out)
  | cell :: cells, out => do
    let column ← columnAt columns cell
    let (new, out) ← packBlob codec heap (rowsIn cell.1) (slotDesc table rowWidth cell) column out
    let (news, out) ← packBlobs codec columns heap table rowWidth rowsIn cells out
    return ((cell, new) :: news, out)

/-- The descriptors of a table are those of the new regions. -/
def Records (table : Bytes) (rowWidth : Nat) (descs : List ((Nat × Nat) × Nat × Nat)) : Prop :=
  ∀ d ∈ descs, slotDesc table rowWidth d.1 = regionDesc d.2

/-- What packing the blobs of `cells` leaves, in every heap that begins with the packed
one. -/
structure TablePacked (codec : Codec) (columns : List Column) (heap table : Bytes) (rowWidth : Nat)
    (rowsIn : Nat → Nat) (cells : List (Nat × Nat)) (out : Bytes)
    (descs : List ((Nat × Nat) × Nat × Nat)) (out' : Bytes) : Prop where
  le : ∀ d ∈ descs, d.2.1 + d.2.2 ≤ out'.length
  blobs : ∀ d ∈ descs, ∀ column, columns[d.1.2]? = some column → ∀ heap', out' <+: heap' →
    BlobInRange codec heap' (rowsIn d.1.1) (regionDesc d.2) column ∧
      storedBlob codec heap' (rowsIn d.1.1) (regionDesc d.2) column =
        storedBlob codec heap (rowsIn d.1.1) (slotDesc table rowWidth d.1) column
  live : ∀ heap' table', out' <+: heap' → Records table' rowWidth descs →
    out'.length = out.length + liveCells codec columns heap' table' rowWidth rowsIn cells
  again : ∀ heap' table', out' <+: heap' → Records table' rowWidth descs →
    packBlobs codec columns heap' table' rowWidth rowsIn cells out = .ok (descs, out')

section

variable {codec : Codec} {columns : List Column} {heap table : Bytes} {rowWidth : Nat}
  {rowsIn : Nat → Nat}

/-- Packing a table whose descriptors are in range. -/
theorem packBlobs_spec (hgzip : LosslessGzip codec) :
    ∀ {cells : List (Nat × Nat)} {out : Bytes},
      (∀ cell ∈ cells, ∃ column, columns[cell.2]? = some column ∧
        BlobInRange codec heap (rowsIn cell.1) (slotDesc table rowWidth cell) column) →
      ∃ descs out', packBlobs codec columns heap table rowWidth rowsIn cells out =
          .ok (descs, out') ∧ descs.map Prod.fst = cells ∧ out <+: out' ∧
        (out'.length ≤ 9223372036854775807 →
          TablePacked codec columns heap table rowWidth rowsIn cells out descs out') := by
  intro cells
  induction cells with
  | nil =>
    intro out _
    exact ⟨[], out, rfl, rfl, List.prefix_rfl, fun _ => ⟨by simp, by simp, by simp [liveCells],
      fun _ _ _ _ => rfl⟩⟩
  | cons cell cells ih =>
    intro out hin
    obtain ⟨column, hcolumn, hb⟩ := hin cell List.mem_cons_self
    obtain ⟨new, out₁, hpack, hgrows, hblob⟩ := packBlob_spec hgzip hb out
    obtain ⟨descs, out', hrest, horder, hgrows', htable⟩ := @ih out₁ fun c hc =>
      hin c (List.mem_cons_of_mem _ hc)
    have hcol : columnAt columns cell = .ok column := by rw [columnAt, hcolumn]
    refine ⟨(cell, new) :: descs, out', ?_, by rw [List.map_cons, horder], hgrows.trans hgrows',
      fun hbound => ?_⟩
    · rw [packBlobs, hcol]
      simp only [bind, Except.bind]
      rw [hpack]
      simp only
      rw [hrest]
      rfl
    · have hblob := hblob (Nat.le_trans hgrows'.length_le hbound)
      have htable := htable hbound
      refine ⟨?_, ?_, ?_, ?_⟩
      · intro d hd
        rcases List.mem_cons.1 hd with rfl | hd
        · exact Nat.le_trans hblob.le hgrows'.length_le
        · exact htable.le d hd
      · intro d hd column' hcolumn' heap' hpre
        rcases List.mem_cons.1 hd with rfl | hd
        · rw [hcolumn, Option.some.injEq] at hcolumn'
          subst hcolumn'
          exact ⟨hblob.inRange heap' (hgrows'.trans hpre), hblob.stored heap' (hgrows'.trans hpre)⟩
        · exact htable.blobs d hd column' hcolumn' heap' hpre
      · intro heap' table' hpre hrec
        have hlive := hblob.live heap' (hgrows'.trans hpre)
        have hlive' := htable.live heap' table' hpre fun d hd => hrec d (List.mem_cons_of_mem _ hd)
        have hself : slotDesc table' rowWidth cell = regionDesc new :=
          hrec (cell, new) List.mem_cons_self
        unfold liveCells at hlive' ⊢
        rw [List.map_cons, List.sum_cons, hcolumn, hself]
        simp only [Option.elim_some]
        omega
      · intro heap' table' hpre hrec
        have hself : slotDesc table' rowWidth cell = regionDesc new :=
          hrec (cell, new) List.mem_cons_self
        rw [packBlobs, hcol]
        simp only [bind, Except.bind]
        rw [hself, hblob.again heap' (hgrows'.trans hpre)]
        simp only
        rw [htable.again heap' table' hpre fun d hd => hrec d (List.mem_cons_of_mem _ hd)]
        rfl

end

end RustFits.CompressedTable
