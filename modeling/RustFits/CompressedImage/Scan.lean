import RustFits.CompressedImage.Repack

/-!
# What the scan of an image repack computes

The scan gives every blob that a descriptor reaches the sum of the lengths in front
of it as its new heap offset, and an empty descriptor the offset 0.

* `TileBlob` is a blob with its old and its new place; `tileBlobs` lists them in the
  order of the scan.
* `scan_spec`: with descriptors in range, and `P` descriptors that can hold the new
  offsets, the scan returns.  Its plans are the blobs with bytes, and the rows are as
  before except for the descriptors (`Rewritten`).
* `scan_refuses`: a `P` descriptor that cannot hold its new offset ends the scan with
  an error.
-/

namespace RustFits.CompressedImage

open Ascii ByteFile Machine BigEndian BinaryTable

/-! ## Descriptors of unsigned fields -/

/-- A descriptor reads back as it was written, when its fields hold the numbers. -/
theorem readDescriptorFromBuf_write {kind : VarKind} {n off : Nat} (hn : n < 2 ^ kind.bits)
    (hoff : off < 2 ^ kind.bits) :
    readDescriptorFromBuf kind (writeDescriptor kind n off) = (n, off) := by
  have hfirst : ∀ w, slice (beBytes w n ++ beBytes w off) 0 w = beBytes w n := fun w => by
    rw [slice, List.drop_zero, List.take_left' (beBytes_length w n)]
  have hsecond : ∀ w, slice (beBytes w n ++ beBytes w off) w w = beBytes w off := fun w => by
    rw [slice, List.drop_left' (beBytes_length w n), List.take_of_length_le (by simp)]
  cases kind with
  | p =>
    have hn' : n < 256 ^ 4 := hn
    have hoff' : off < 256 ^ 4 := hoff
    show (fromBe (slice (beBytes 4 n ++ beBytes 4 off) 0 4),
      fromBe (slice (beBytes 4 n ++ beBytes 4 off) 4 4)) = _
    rw [hfirst, hsecond, fromBe_beBytes, fromBe_beBytes, Nat.mod_eq_of_lt hn',
      Nat.mod_eq_of_lt hoff']
  | q =>
    have hn' : n < 256 ^ 8 := hn
    have hoff' : off < 256 ^ 8 := hoff
    show (fromBe (slice (beBytes 8 n ++ beBytes 8 off) 0 8),
      fromBe (slice (beBytes 8 n ++ beBytes 8 off) 8 8)) = _
    rw [hfirst, hsecond, fromBe_beBytes, fromBe_beBytes, Nat.mod_eq_of_lt hn',
      Nat.mod_eq_of_lt hoff']

theorem readDescriptorFromBuf_lt (kind : VarKind) (src : Bytes) :
    (readDescriptorFromBuf kind src).1 < 2 ^ kind.bits := by
  have hlt : ∀ w, fromBe (slice src 0 w) < 256 ^ w := fun w =>
    fromBe_lt (by rw [slice_length]; omega)
  cases kind with
  | p => exact hlt 4
  | q => exact hlt 8

/-! ## Blobs -/

/-- A blob: its slot, its descriptor, and its place in the compact heap. -/
structure TileBlob where
  row : Nat
  col : ZimageColumnInfo
  nel : Nat
  oldOff : Nat
  newOff : Nat
  deriving DecidableEq, Repr

/-- The heap bytes of the blob. -/
def TileBlob.length (blob : TileBlob) : Nat := saturatingMul blob.nel blob.col.innerByteWidth

def TileBlob.plan (blob : TileBlob) : MovePlan := ⟨blob.oldOff, blob.length, blob.newOff⟩

/-- The descriptor in a slot of the rows. -/
def slotDesc (rows : Bytes) (rowWidth : Nat) (slot : Nat × ZimageColumnInfo) : Nat × Nat :=
  readDescriptorFromBuf slot.2.kind (slice rows (descAt rowWidth slot) slot.2.kind.width)

/-- The blob of a slot, at `cursor` of the compact heap. -/
def blobAt (rows : Bytes) (rowWidth : Nat) (slot : Nat × ZimageColumnInfo) (cursor : Nat) :
    TileBlob :=
  let desc := slotDesc rows rowWidth slot
  ⟨slot.1, slot.2, desc.1, desc.2, if desc.1 = 0 then 0 else cursor⟩

/-- The blobs in the order of the scan, the first at `cursor`. -/
def tileBlobs (rows : Bytes) (rowWidth : Nat) :
    List (Nat × ZimageColumnInfo) → Nat → List TileBlob
  | [], _ => []
  | slot :: rest, cursor =>
    blobAt rows rowWidth slot cursor ::
      tileBlobs rows rowWidth rest (cursor + (blobAt rows rowWidth slot cursor).length)

/-- The bytes of the live blobs. -/
def liveBytes (blobs : List TileBlob) : Nat := (blobs.map TileBlob.length).sum

/-- The moves of the live blobs. -/
def livePlans (blobs : List TileBlob) : List MovePlan :=
  (blobs.filter fun blob => decide (blob.nel ≠ 0)).map TileBlob.plan

/-- The blob lies in a heap of `pcount` bytes. -/
def TileBlob.InRange (pcount : Nat) (blob : TileBlob) : Prop :=
  blob.nel ≠ 0 → blob.oldOff + blob.nel * blob.col.innerByteWidth ≤ pcount

/-- The descriptor of the blob holds its new offset. -/
def TileBlob.Fits (blob : TileBlob) : Prop := blob.col.kind = .p → blob.newOff ≤ 4294967295

instance (blob : TileBlob) : Decidable blob.Fits := inferInstanceAs (Decidable (_ → _))

/-- The descriptors of two slots do not overlap. -/
def SlotsApart (rowWidth : Nat) (a b : Nat × ZimageColumnInfo) : Prop :=
  descAt rowWidth a + a.2.kind.width ≤ descAt rowWidth b ∨
    descAt rowWidth b + b.2.kind.width ≤ descAt rowWidth a

/-- The rows after the scan: the descriptors are new, the rest is as it was. -/
structure Rewritten (rowWidth : Nat) (slots : List (Nat × ZimageColumnInfo)) (rows : Bytes)
    (cursor : Nat) (rows' : Bytes) : Prop where
  length : rows'.length = rows.length
  descriptors : ∀ b ∈ tileBlobs rows rowWidth slots cursor,
    slice rows' (descAt rowWidth (b.row, b.col)) b.col.kind.width =
      writeDescriptor b.col.kind b.nel b.newOff
  others : ∀ i, (∀ slot ∈ slots, i < descAt rowWidth slot ∨
      descAt rowWidth slot + slot.2.kind.width ≤ i) → rows'[i]? = rows[i]?

section

variable {rows rows' : Bytes} {rowWidth pcount cursor : Nat}
  {slots : List (Nat × ZimageColumnInfo)} {slot : Nat × ZimageColumnInfo}

theorem liveBytes_cons (b : TileBlob) (l : List TileBlob) :
    liveBytes (b :: l) = b.length + liveBytes l := rfl

theorem mem_livePlans {blobs : List TileBlob} {p : MovePlan} :
    p ∈ livePlans blobs ↔ ∃ b ∈ blobs, b.nel ≠ 0 ∧ b.plan = p := by
  simp [livePlans, and_assoc]

theorem livePlans_cons (b : TileBlob) (l : List TileBlob) :
    livePlans (b :: l) = livePlans [b] ++ livePlans l := by
  rw [livePlans, livePlans, livePlans, ← List.map_append, ← List.filter_append]
  rfl

theorem TileBlob.length_of_zero {b : TileBlob} (h : b.nel = 0) : b.length = 0 := by
  simp [TileBlob.length, h, saturatingMul]

theorem TileBlob.length_pos {b : TileBlob} (h : b.nel ≠ 0) (hinner : 0 < b.col.innerByteWidth) :
    0 < b.length := by
  have hpos : 0 < b.nel * b.col.innerByteWidth := Nat.mul_pos (Nat.pos_of_ne_zero h) hinner
  unfold TileBlob.length saturatingMul u64Size
  omega

theorem TileBlob.length_le {b : TileBlob} (hin : b.InRange pcount) (hpcount : pcount < u64Size)
    (h : b.nel ≠ 0) : b.length = b.nel * b.col.innerByteWidth ∧ b.oldOff + b.length ≤ pcount := by
  have hle := hin h
  have hlen : b.length = b.nel * b.col.innerByteWidth := saturatingMul_of_lt (by omega)
  exact ⟨hlen, by omega⟩

/-- A blob of the list comes from a slot. -/
theorem tileBlobs_mem {b : TileBlob} :
    ∀ {slots : List (Nat × ZimageColumnInfo)} {cursor : Nat},
      b ∈ tileBlobs rows rowWidth slots cursor →
      (b.row, b.col) ∈ slots ∧ (b.nel, b.oldOff) = slotDesc rows rowWidth (b.row, b.col) ∧
        (b.nel = 0 → b.newOff = 0) ∧ (b.nel ≠ 0 → cursor ≤ b.newOff) ∧
        b.newOff + b.length ≤ cursor + liveBytes (tileBlobs rows rowWidth slots cursor) := by
  intro slots
  induction slots with
  | nil =>
    intro cursor hb
    cases hb
  | cons slot rest ih =>
    intro cursor hb
    rw [tileBlobs, liveBytes_cons]
    rw [tileBlobs] at hb
    rcases List.mem_cons.1 hb with rfl | hb
    · refine ⟨List.mem_cons_self, rfl, fun h => ?_, fun h => ?_, ?_⟩
      · exact if_pos h
      · exact Nat.le_of_eq (if_neg h).symm
      · show (if _ then 0 else cursor) + _ ≤ _
        split_ifs <;> omega
    · obtain ⟨h1, h2, h3, h4, h5⟩ := ih hb
      refine ⟨List.mem_cons_of_mem _ h1, h2, h3, fun h => ?_, by omega⟩
      have := h4 h
      omega

/-- Every slot is in the list. -/
theorem exists_tileBlob : ∀ {slots : List (Nat × ZimageColumnInfo)} {cursor : Nat}, slot ∈ slots →
    ∃ b ∈ tileBlobs rows rowWidth slots cursor, (b.row, b.col) = slot := by
  intro slots
  induction slots with
  | nil =>
    intro cursor h
    cases h
  | cons first rest ih =>
    intro cursor h
    rw [tileBlobs]
    rcases List.mem_cons.1 h with rfl | h
    · exact ⟨_, List.mem_cons_self, rfl⟩
    · obtain ⟨b, hb, heq⟩ := @ih (cursor + (blobAt rows rowWidth first cursor).length) h
      exact ⟨b, List.mem_cons_of_mem _ hb, heq⟩

/-- The new places of the live blobs follow one another. -/
theorem tileBlobs_pairwise : ∀ {slots : List (Nat × ZimageColumnInfo)} {cursor : Nat},
    (tileBlobs rows rowWidth slots cursor).Pairwise fun a b =>
      a.nel ≠ 0 → b.nel ≠ 0 → a.newOff + a.length ≤ b.newOff := by
  intro slots
  induction slots with
  | nil => exact fun {_} => List.Pairwise.nil
  | cons slot rest ih =>
    intro cursor
    rw [tileBlobs]
    refine List.pairwise_cons.2 ⟨fun b hb ha hb' => ?_, ih⟩
    have hle := (tileBlobs_mem hb).2.2.2.1 hb'
    have hnew : (blobAt rows rowWidth slot cursor).newOff = cursor := if_neg ha
    omega

/-- The last live blob ends the compact heap. -/
theorem tileBlobs_full : ∀ {slots : List (Nat × ZimageColumnInfo)} {cursor : Nat},
    liveBytes (tileBlobs rows rowWidth slots cursor) = 0 ∨
      ∃ b ∈ tileBlobs rows rowWidth slots cursor, b.nel ≠ 0 ∧
        b.newOff + b.length = cursor + liveBytes (tileBlobs rows rowWidth slots cursor) := by
  intro slots
  induction slots with
  | nil => exact fun {_} => Or.inl rfl
  | cons slot rest ih =>
    intro cursor
    rw [tileBlobs, liveBytes_cons]
    generalize hb : blobAt rows rowWidth slot cursor = b
    rcases @ih (cursor + b.length) with hzero | ⟨d, hd, hnel, hend⟩
    · by_cases h0 : b.nel = 0
      · have := TileBlob.length_of_zero h0
        exact Or.inl (by omega)
      · have hnew : b.newOff = cursor := by
          rw [← hb]
          exact if_neg (by rw [← hb] at h0; exact h0)
        exact Or.inr ⟨b, List.mem_cons_self, h0, by omega⟩
    · exact Or.inr ⟨d, List.mem_cons_of_mem _ hd, hnel, by omega⟩

/-- The blobs depend on the rows through their descriptors. -/
theorem tileBlobs_congr : ∀ {slots : List (Nat × ZimageColumnInfo)} {cursor : Nat},
    (∀ slot ∈ slots, slotDesc rows' rowWidth slot = slotDesc rows rowWidth slot) →
      tileBlobs rows' rowWidth slots cursor = tileBlobs rows rowWidth slots cursor := by
  intro slots
  induction slots with
  | nil => exact fun {_} _ => rfl
  | cons slot rest ih =>
    intro cursor h
    have hblob : ∀ c, blobAt rows' rowWidth slot c = blobAt rows rowWidth slot c := fun c => by
      unfold blobAt
      rw [h _ List.mem_cons_self]
    rw [tileBlobs, tileBlobs, hblob, ih fun x hx => h x (List.mem_cons_of_mem _ hx)]

/-- Rows whose descriptors hold the new places list the same blobs, there. -/
theorem tileBlobs_moved : ∀ {slots : List (Nat × ZimageColumnInfo)} {cursor : Nat},
    (∀ b ∈ tileBlobs rows rowWidth slots cursor,
      slotDesc rows' rowWidth (b.row, b.col) = (b.nel, b.newOff)) →
      tileBlobs rows' rowWidth slots cursor =
        (tileBlobs rows rowWidth slots cursor).map fun b => { b with oldOff := b.newOff } := by
  intro slots
  induction slots with
  | nil => exact fun {_} _ => rfl
  | cons slot rest ih =>
    intro cursor h
    rw [tileBlobs] at h
    have hdesc : slotDesc rows' rowWidth slot = ((blobAt rows rowWidth slot cursor).nel,
        (blobAt rows rowWidth slot cursor).newOff) := h _ List.mem_cons_self
    have hblob : blobAt rows' rowWidth slot cursor =
        { blobAt rows rowWidth slot cursor with
          oldOff := (blobAt rows rowWidth slot cursor).newOff } := by
      rw [blobAt, hdesc]
      rfl
    rw [tileBlobs, tileBlobs, List.map_cons, hblob]
    exact congrArg _ (ih fun b hb => h b (List.mem_cons_of_mem _ hb))

/-! ## The scan -/

/-- One descriptor in range, up to the check of the new one. -/
theorem scanTile_eq (hpcount : pcount < u64Size) (scan : Scan)
    (hslot : descAt rowWidth slot + slot.2.kind.width ≤ scan.mainBuf.length)
    (hrange : (blobAt scan.mainBuf rowWidth slot scan.newCursor).InRange pcount) :
    let blob := blobAt scan.mainBuf rowWidth slot scan.newCursor
    (blob.Fits → scanTile rowWidth pcount scan slot =
      .ok ⟨writeAll scan.mainBuf (descAt rowWidth slot)
          (writeDescriptor slot.2.kind blob.nel blob.newOff),
        scan.plans ++ livePlans [blob], scan.newCursor + blob.length⟩) ∧
    (¬ blob.Fits → ∃ e, scanTile rowWidth pcount scan slot = .error e) := by
  intro blob
  have hlt : blob.nel < 2 ^ slot.2.kind.bits := readDescriptorFromBuf_lt _ _
  have hsplice : ∀ n off, splice scan.mainBuf (descAt rowWidth slot)
      (writeDescriptor slot.2.kind n off) =
        .ok (writeAll scan.mainBuf (descAt rowWidth slot) (writeDescriptor slot.2.kind n off)) :=
    fun n off => by rw [splice, if_pos (by rw [writeDescriptor_length]; exact hslot)]
  -- the number of elements always fits its field
  have hwrite :
      ∀ off, writeDescriptorAt scan.mainBuf (descAt rowWidth slot) slot.2.kind blob.nel off =
      if slot.2.kind = .p ∧ 4294967295 < off then
        .error (.value (str "compressed extend: P-descriptor overflow (nelem=" ++ natDec blob.nel ++
          str ", offset=" ++ natDec off ++ str "); use heap_format='Q' for heaps > 4 GB"))
      else .ok (writeAll scan.mainBuf (descAt rowWidth slot)
        (writeDescriptor slot.2.kind blob.nel off)) := by
    intro off
    have hiff : (slot.2.kind = .p ∧ (4294967295 < blob.nel ∨ 4294967295 < off)) ↔
        (slot.2.kind = .p ∧ 4294967295 < off) := by
      refine and_congr_right fun hkind => ?_
      rw [hkind] at hlt
      have : blob.nel < 4294967296 := hlt
      omega
    rw [writeDescriptorAt, hsplice]
    exact if_congr hiff rfl rfl
  have hread : scanTile rowWidth pcount scan slot =
      if blob.nel = 0 then do
        let mainBuf ← writeDescriptorAt scan.mainBuf (descAt rowWidth slot) slot.2.kind 0 0
        return { scan with mainBuf := mainBuf }
      else if pcount < (blob.oldOff + blob.length) % u64Size then
        .error (.value (str "repack: tile row " ++ natDec slot.1 ++
          str ": descriptor points past heap end (offset+bytes=" ++
          natDec ((blob.oldOff + blob.length) % u64Size) ++ str " > PCOUNT=" ++ natDec pcount ++
          str ")"))
      else do
        let mainBuf ← writeDescriptorAt scan.mainBuf (descAt rowWidth slot) slot.2.kind blob.nel
          scan.newCursor
        return ⟨mainBuf, scan.plans ++ [⟨blob.oldOff, blob.length, scan.newCursor⟩],
          scan.newCursor + blob.length⟩ := by
    unfold scanTile
    rw [sliceOf, if_pos hslot]
    rfl
  rw [hread]
  by_cases hnel : blob.nel = 0
  · have hnew : blob.newOff = 0 := if_pos hnel
    have hfits : blob.Fits := fun _ => by omega
    refine ⟨fun _ => ?_, fun hne => absurd hfits hne⟩
    have hzero := hwrite 0
    rw [hnel, if_neg (by omega)] at hzero
    rw [if_pos hnel, hzero, hnew, hnel, TileBlob.length_of_zero hnel,
      show livePlans [blob] = [] by simp [livePlans, hnel], List.append_nil]
    rfl
  · have hnew : blob.newOff = scan.newCursor := if_neg hnel
    have hle : blob.oldOff + blob.length ≤ pcount :=
      (TileBlob.length_le hrange hpcount hnel).2
    have hmod : (blob.oldOff + blob.length) % u64Size = blob.oldOff + blob.length :=
      Nat.mod_eq_of_lt (by omega)
    rw [if_neg hnel, hmod, if_neg (by omega), hwrite]
    refine ⟨fun hfits => ?_, fun hne => ?_⟩
    · rw [if_neg fun hc => by have := hfits hc.1; omega, hnew,
        show livePlans [blob] = [blob.plan] by simp [livePlans, hnel], TileBlob.plan, hnew]
      rfl
    · have hkind : slot.2.kind = .p ∧ 4294967295 < scan.newCursor := by
        unfold TileBlob.Fits at hne
        rw [Classical.not_imp] at hne
        exact ⟨hne.1, by omega⟩
      rw [if_pos hkind]
      exact ⟨_, rfl⟩

/-- The new descriptor of a slot leaves the other slots as they were. -/
theorem slice_write_of_apart {slot' : Nat × ZimageColumnInfo} {n off : Nat}
    (hslot : descAt rowWidth slot + slot.2.kind.width ≤ rows.length)
    (hapart : SlotsApart rowWidth slot slot') :
    slice (writeAll rows (descAt rowWidth slot) (writeDescriptor slot.2.kind n off))
        (descAt rowWidth slot') slot'.2.kind.width =
      slice rows (descAt rowWidth slot') slot'.2.kind.width := by
  unfold SlotsApart at hapart
  refine slice_writeAll_of_disjoint (by omega) ?_
  rw [writeDescriptor_length]
  omega

/-- The scan, from any state of it.  The slots do not overlap and lie in the rows. -/
theorem scan_spec (hpcount : pcount < u64Size) :
    ∀ {slots : List (Nat × ZimageColumnInfo)} {rows : Bytes} {plans : List MovePlan} {cursor : Nat},
      slots.Pairwise (SlotsApart rowWidth) →
      (∀ slot ∈ slots, descAt rowWidth slot + slot.2.kind.width ≤ rows.length) →
      (∀ b ∈ tileBlobs rows rowWidth slots cursor, b.InRange pcount) →
      (∀ b ∈ tileBlobs rows rowWidth slots cursor, b.Fits) →
      ∃ rows', slots.foldlM (scanTile rowWidth pcount) ⟨rows, plans, cursor⟩ =
          .ok ⟨rows', plans ++ livePlans (tileBlobs rows rowWidth slots cursor),
            cursor + liveBytes (tileBlobs rows rowWidth slots cursor)⟩ ∧
        Rewritten rowWidth slots rows cursor rows' := by
  intro slots
  induction slots with
  | nil =>
    intro rows plans cursor _ _ _ _
    refine ⟨rows, ?_, rfl, by simp [tileBlobs], fun _ _ => rfl⟩
    simp [tileBlobs, livePlans, liveBytes]
    rfl
  | cons slot rest ih =>
    intro rows plans cursor hslots hbounds hin hfits
    obtain ⟨hapart, hrest⟩ := List.pairwise_cons.1 hslots
    have hslot := hbounds slot List.mem_cons_self
    rw [tileBlobs] at hin hfits
    have hstep := (scanTile_eq hpcount ⟨rows, plans, cursor⟩ hslot (hin _ List.mem_cons_self)).1
      (hfits _ List.mem_cons_self)
    dsimp only at hstep
    generalize hblob : blobAt rows rowWidth slot cursor = blob at hstep hin hfits
    have hcol : blob.col = slot.2 := by rw [← hblob]; rfl
    have hrow : (blob.row, blob.col) = slot := by rw [← hblob]; rfl
    generalize hrows₁ : writeAll rows (descAt rowWidth slot)
      (writeDescriptor slot.2.kind blob.nel blob.newOff) = rows₁ at hstep
    have hlen₁ : rows₁.length = rows.length := by
      rw [← hrows₁]
      exact writeAll_length_of_le (by rw [writeDescriptor_length]; exact hslot)
    have hdesc : ∀ x ∈ rest, slotDesc rows₁ rowWidth x = slotDesc rows rowWidth x := by
      intro x hx
      unfold slotDesc
      rw [← hrows₁, slice_write_of_apart hslot (hapart x hx)]
    have hblobs : ∀ c, tileBlobs rows₁ rowWidth rest c = tileBlobs rows rowWidth rest c :=
      fun _ => tileBlobs_congr hdesc
    obtain ⟨rows', hscan, hrows⟩ := @ih rows₁ (plans ++ livePlans [blob]) (cursor + blob.length)
      hrest (fun x hx => by rw [hlen₁]; exact hbounds x (List.mem_cons_of_mem _ hx))
      (fun b hb => by rw [hblobs] at hb; exact hin b (List.mem_cons_of_mem _ hb))
      (fun b hb => by rw [hblobs] at hb; exact hfits b (List.mem_cons_of_mem _ hb))
    rw [hblobs] at hscan
    have hdescriptors := hrows.descriptors
    rw [hblobs] at hdescriptors
    refine ⟨rows', ?_, hrows.length.trans hlen₁, ?_, fun i hi => ?_⟩
    · rw [tileBlobs, hblob, liveBytes_cons, livePlans_cons, ← List.append_assoc, ← Nat.add_assoc,
        List.foldlM_cons, hstep]
      exact hscan
    · rw [tileBlobs, hblob]
      intro b hb
      rcases List.mem_cons.1 hb with rfl | hb
      · -- the rest of the scan keeps the descriptor of this slot
        rw [hrow, hcol]
        have hself : slice rows₁ (descAt rowWidth slot) slot.2.kind.width =
            writeDescriptor slot.2.kind b.nel b.newOff := by
          rw [← hrows₁]
          exact slice_writeAll_of_length (by omega) (writeDescriptor_length _ _ _)
        rw [← hself]
        apply List.ext_getElem?
        intro i
        rw [slice_getElem?, slice_getElem?]
        split_ifs with hi
        · refine hrows.others _ fun x hx => ?_
          have := hapart x hx
          unfold SlotsApart at this
          omega
        · rfl
      · exact hdescriptors b hb
    · rw [hrows.others i fun x hx => hi x (List.mem_cons_of_mem _ hx), ← hrows₁,
        writeAll_getElem? (by omega), if_neg]
      rw [writeDescriptor_length]
      have := hi slot List.mem_cons_self
      omega

/-- A new offset that its descriptor cannot hold. -/
theorem scan_refuses (hpcount : pcount < u64Size) :
    ∀ {slots : List (Nat × ZimageColumnInfo)} {rows : Bytes} {plans : List MovePlan} {cursor : Nat},
      slots.Pairwise (SlotsApart rowWidth) →
      (∀ slot ∈ slots, descAt rowWidth slot + slot.2.kind.width ≤ rows.length) →
      (∀ b ∈ tileBlobs rows rowWidth slots cursor, b.InRange pcount) →
      (∃ b ∈ tileBlobs rows rowWidth slots cursor, ¬ b.Fits) →
      ∃ e, slots.foldlM (scanTile rowWidth pcount) ⟨rows, plans, cursor⟩ = .error e := by
  intro slots
  induction slots with
  | nil =>
    rintro rows plans cursor _ _ _ ⟨b, hb, -⟩
    cases hb
  | cons slot rest ih =>
    intro rows plans cursor hslots hbounds hin hbad
    obtain ⟨hapart, hrest⟩ := List.pairwise_cons.1 hslots
    have hslot := hbounds slot List.mem_cons_self
    rw [tileBlobs] at hin hbad
    obtain ⟨hok, herror⟩ := scanTile_eq hpcount ⟨rows, plans, cursor⟩ hslot
      (hin _ List.mem_cons_self)
    rw [List.foldlM_cons]
    by_cases hfits : (blobAt rows rowWidth slot cursor).Fits
    · rw [hok hfits]
      dsimp only at hbad hin ⊢
      have hdesc : ∀ n off, ∀ x ∈ rest, slotDesc (writeAll rows (descAt rowWidth slot)
          (writeDescriptor slot.2.kind n off)) rowWidth x = slotDesc rows rowWidth x := by
        intro n off x hx
        unfold slotDesc
        rw [slice_write_of_apart hslot (hapart x hx)]
      refine ih hrest (fun x hx => ?_) ?_ ?_
      · rw [writeAll_length_of_le (by rw [writeDescriptor_length]; exact hslot)]
        exact hbounds x (List.mem_cons_of_mem _ hx)
      · rw [tileBlobs_congr (hdesc _ _)]
        exact fun b hb => hin b (List.mem_cons_of_mem _ hb)
      · rw [tileBlobs_congr (hdesc _ _)]
        obtain ⟨b, hb, hne⟩ := hbad
        rcases List.mem_cons.1 hb with rfl | hb
        · exact absurd hfits hne
        · exact ⟨b, hb, hne⟩
    · obtain ⟨e, he⟩ := herror hfits
      rw [he]
      exact ⟨e, rfl⟩

end

end RustFits.CompressedImage
