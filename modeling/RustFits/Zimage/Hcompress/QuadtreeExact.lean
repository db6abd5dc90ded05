import RustFits.Zimage.Hcompress.QuadtreeLevels

/-!
# The round trip of the quadtree coder

A plane is written in one of two forms (`PlaneText`), and the decoder reads either of them
into the same bits (`reads_decodePlane`).  The planes follow one another
(`planes_roundTrip`), and what the decoder has in the end is the `or` of the planes.

The codes of a block are made in a word of the coefficients' own width, by shifts to the
left: in the three highest planes the bits of some cells leave the word, and the bit of
another cell comes back in their place.  `TopBitsAgree` says that those bits are the
same, and `quadtree_exact_iff` that the coder is exact if and only if they are.
-/

namespace RustFits.Zimage.Hcompress

open BitStream Outcome

variable {w : Nat} {checks : Bool} {a : List (BitVec w)} {n nqx nqy bit : Nat}

/-! ## One plane -/

/-- The nybbles of a plane. -/
def planeCodes (a : List (BitVec w)) (n nqx nqy bit : Nat) : List Nybble :=
  (blocks nqx nqy).map (planeCode a n nqx nqy (bit % w))

theorem planeCodes_length : (planeCodes a n nqx nqy bit).length = half nqx * half nqy := by
  rw [planeCodes, List.length_map, blocks_length]

/-- What stands in the stream for a plane: the nybbles as they are, or their tree. -/
inductive PlaneText (nqx nqy : Nat) (low : List Nybble) : List Bool → Prop
  | direct : PlaneText nqx nqy low (nybbleBits 0 ++ low.flatMap nybbleBits)
  | tree : PlaneText nqx nqy low (nybbleBits 0xF ++ treeBits nqx nqy low)

/-- The arrays of the encoder keep their sizes, and the writer has room. -/
structure EncodeState.Ready (bmax : Nat) (st : EncodeState) : Prop where
  room : st.writer.HasRoom
  scratch : st.scratch.length = 2 * bmax
  buffer : st.buffer.length = bmax

theorem encodePlane_spec {bmax : Nat} {st : EncodeState}
    (hbit : shlBit w checks bit = .ok (1#w <<< (bit % w)))
    (hx : 1 ≤ nqx) (hy : 1 ≤ nqy) (hin : Covers a.length n nqx nqy)
    (hbmax : bmax = half (half nqx * half nqy)) (hst : st.Ready bmax) :
    ∃ st' code, encodePlane checks a n nqx nqy bmax st bit = .ok st' ∧ st'.Ready bmax ∧
      PlaneText nqx nqy (planeCodes a n nqx nqy bit) code ∧
      st'.writer.bits = st.writer.bits ++ code := by
  have hlow : (planeCodes a n nqx nqy bit).length = half nqx * half nqy := planeCodes_length
  have hcells : 0 < half nqx * half nqy :=
    Nat.mul_pos (by unfold half; omega) (by unfold half; omega)
  have hsize : half nqx * half nqy ≤ 2 * bmax ∧ 0 < bmax := by
    rw [hbmax]
    generalize half nqx * half nqy = k at hcells ⊢
    unfold half
    omega
  have hone : ∀ s : List Nybble, s.length = 2 * bmax → qtreeOnebit checks a n nqx nqy s bit =
      .ok (planeCodes a n nqx nqy bit ++ s.drop (half nqx * half nqy)) := fun s hs =>
    qtreeOnebit_eq hbit hin (by rw [hs]; exact hsize.1)
  have hkeep : ∀ s : List Nybble, s.length = 2 * bmax →
      (planeCodes a n nqx nqy bit ++ s.drop (half nqx * half nqy)).length = 2 * bmax := by
    intro s hs
    rw [List.length_append, hlow, List.length_drop, hs]
    omega
  have hopen : HuffBuf.Open bmax ⟨st.buffer, 0, 0, 0⟩ :=
    ⟨hst.buffer, hsize.2, Nat.zero_le 7, Nat.one_pos⟩
  obtain ⟨passes, hpasses, hscratch, hbuffer, hdone⟩ :=
    encodePasses_spec hlow (log2n (max nqx nqy) - 1) 0
    (st.scratch.drop (half nqx * half nqy)) ⟨st.buffer, 0, 0, 0⟩ hopen rfl
  have hpasses' : encodePasses bmax (log2n (max nqx nqy) - 1) (half nqx) (half nqy)
      (planeCodes a n nqx nqy bit ++ st.scratch.drop (half nqx * half nqy)) ⟨st.buffer, 0, 0, 0⟩ =
        .ok passes := hpasses
  have hscratch' : passes.scratch.length = 2 * bmax := hscratch.trans (hkeep _ hst.scratch)
  rw [encodePlane, hone _ hst.scratch, ok_bind, hpasses', ok_bind]
  by_cases hfull : passes.overflowed = true
  · rw [if_pos hfull, writeBdirect, hone _ hscratch', ok_bind]
    have htake : (planeCodes a n nqx nqy bit ++ passes.scratch.drop (half nqx * half nqy)).take
        (half nqx * half nqy) = planeCodes a n nqx nqy bit := List.take_left' hlow
    obtain ⟨hroom, hbits⟩ := (writes_outputNybble 0).comp
      (writes_outputNnybble (planeCodes a n nqx nqy bit)) st.writer hst.room
    rw [htake]
    exact ⟨_, _, rfl, ⟨hroom, hkeep _ hscratch', hbuffer⟩, .direct, hbits⟩
  · obtain ⟨hopen', hbits'⟩ := hdone (Bool.eq_false_iff.2 hfull)
    obtain ⟨hroom, hbits⟩ := writes_outputHuffman hopen' st.writer hst.room
    rw [if_neg hfull]
    refine ⟨_, _, rfl, ⟨hroom, hscratch', hbuffer⟩, .tree, ?_⟩
    rw [hbits, hbits', treeBits, Nat.zero_add]

/-- The decoder sets the bits of the plane, whatever the form is that it is written in. -/
theorem reads_decodePlane {low scratch : List Nybble} {code : List Bool} {d : List (BitVec w)}
    {plane : BitVec w}
    (hbit : shlBit w checks bit = .ok plane) (hx : 1 ≤ nqx) (hy : 1 ≤ nqy) (hny : nqy ≤ n)
    (hin : Covers d.length n nqx nqy) (hlow : low.length = half nqx * half nqy)
    (hscratch : scratch.length = half nqx * half nqy) (htext : PlaneText nqx nqy low code) :
    ∃ d' scratch', Reads (decodePlane checks n nqx nqy (d, scratch) bit) code (d', scratch') ∧
      scratch'.length = half nqx * half nqy ∧ d'.length = d.length ∧
      (∀ row < nqx, ∀ col < nqy,
        d'[n * row + col]? = (d[n * row + col]?).map (withPlane low nqy plane row col)) ∧
      ∀ p, (∀ row < nqx, ∀ col < nqy, p ≠ n * row + col) → d'[p]? = d[p]? := by
  obtain ⟨d', hrun, hlen, hcells, hframe⟩ := qtreeBitins_spec hbit hny hin (Nat.le_of_eq hlow.symm)
  unfold decodePlane
  cases htext with
  | direct =>
    refine ⟨d', low ++ scratch.drop (half nqx * half nqy), ?_, ?_, hlen, hcells, hframe⟩
    · refine (reads_inputNybble 0).bind ?_
      rw [if_pos rfl]
      unfold readBdirect
      rw [← hlow]
      exact (reads_inputNnybble low).map ((Reads.lift hrun).map (Reads.pure _))
    · rw [List.length_append, List.length_drop, hlow, hscratch, Nat.sub_self, Nat.add_zero]
  | tree =>
    obtain ⟨top, htop, hcode⟩ := treeBits_eq hx hy hlow
    have hfirst : 0 < scratch.length := by
      rw [hscratch]
      exact Nat.mul_pos (by unfold half; omega) (by unfold half; omega)
    have hlevels := reads_levels hx hy hlow htop hscratch
    refine ⟨d', low, ?_, hlow, hlen, hcells, hframe⟩
    refine (reads_inputNybble 0xF).bind ?_
    rw [if_neg (by decide), if_pos rfl, hcode]
    refine (reads_inputHuffman top).bind ?_
    rw [← List.nil_append (codesBelow _ _ _ _)]
    exact (Reads.lift (setAt_of_lt hfirst top)).bind
      (hlevels.map ((Reads.lift hrun).map (Reads.pure _)))

/-! ## All planes -/

/-- What the decoder makes of a cell, plane after plane. -/
def decodedCell (a : List (BitVec w)) (n nqx nqy row col : Nat) (bits : List Nat)
    (x : BitVec w) : BitVec w :=
  bits.foldl (fun x bit =>
    withPlane (planeCodes a n nqx nqy bit) nqy (1#w <<< (bit % w)) row col x) x

/-- The planes are written one behind the other, and read in the same order. -/
theorem planes_roundTrip {bmax : Nat} (hx : 1 ≤ nqx) (hy : 1 ≤ nqy) (hny : nqy ≤ n)
    (hin : Covers a.length n nqx nqy) (hbmax : bmax = half (half nqx * half nqy)) (bits : List Nat)
    (hbits : ∀ bit ∈ bits, shlBit w checks bit = .ok (1#w <<< (bit % w))) :
    ∀ st : EncodeState, st.Ready bmax →
    ∃ st' code, bits.foldlM (encodePlane checks a n nqx nqy bmax) st = .ok st' ∧ st'.Ready bmax ∧
      st'.writer.bits = st.writer.bits ++ code ∧
      ∀ (d : List (BitVec w)) (scratch : List Nybble), Covers d.length n nqx nqy →
        scratch.length = half nqx * half nqy →
        ∃ d' scratch', Reads (bits.foldlM (decodePlane checks n nqx nqy) (d, scratch)) code
          (d', scratch') ∧
          d'.length = d.length ∧
          (∀ row < nqx, ∀ col < nqy,
            d'[n * row + col]? = (d[n * row + col]?).map (decodedCell a n nqx nqy row col bits)) ∧
          ∀ p, (∀ row < nqx, ∀ col < nqy, p ≠ n * row + col) → d'[p]? = d[p]? := by
  induction bits with
  | nil =>
    intro st hst
    refine ⟨st, [], rfl, hst, (List.append_nil _).symm, fun d scratch _ _ => ?_⟩
    refine ⟨d, scratch, Reads.pure _, rfl, fun row _ col _ => ?_, fun _ _ => rfl⟩
    exact (Option.map_id' ..).symm
  | cons bit bits ih =>
    intro st hst
    have hbit := hbits bit List.mem_cons_self
    obtain ⟨st₁, code₁, hrun₁, hready₁, htext, hcode₁⟩ := encodePlane_spec hbit hx hy hin hbmax hst
    obtain ⟨st₂, code₂, hrun₂, hready₂, hcode₂, hread⟩ :=
      ih (fun b hb => hbits b (List.mem_cons_of_mem _ hb)) st₁ hready₁
    refine ⟨st₂, code₁ ++ code₂, ?_, hready₂, ?_, fun d scratch hd hscratch => ?_⟩
    · rw [List.foldlM_cons, hrun₁]
      exact hrun₂
    · rw [hcode₂, hcode₁, List.append_assoc]
    · obtain ⟨d₁, scratch₁, hread₁, hscratch₁, hlen₁, hcells₁, hframe₁⟩ :=
        reads_decodePlane hbit hx hy hny hd planeCodes_length hscratch htext
      obtain ⟨d₂, scratch₂, hread₂, hlen₂, hcells₂, hframe₂⟩ :=
        hread d₁ scratch₁ (by rw [hlen₁]; exact hd) hscratch₁
      refine ⟨d₂, scratch₂, ?_, hlen₂.trans hlen₁, fun row hrow col hcol => ?_, fun p hp => ?_⟩
      · rw [List.foldlM_cons]
        exact hread₁.bind hread₂
      · rw [hcells₂ row hrow col hcol, hcells₁ row hrow col hcol, Option.map_map]
        rfl
      · rw [hframe₂ p hp, hframe₁ p hp]

/-! ## The bits that come back -/

/-- The bit that the code of a block has for a cell. -/
def codeBit (a : List (BitVec w)) (n nqx nqy p row col : Nat) : Bool :=
  if p + (cellAt row col).bit < w then cellBit a n nqx nqy p row col
  else blockBit a n nqx nqy p (row / 2, col / 2) (w - 1 - p)

theorem cellOf_cellAt (row col : Nat) :
    cellOf (row / 2, col / 2) (cellAt row col).bit = cellAt row col := by
  simp only [cellOf, cellAt, Cell.mk.injEq, true_and]
  omega

/-- The code of the block of a cell has its bit where it should, unless it has left the word. -/
theorem getLsbD_codeOver (hw : 4 ≤ w) {row col : Nat} (hrow : row < nqx) (hcol : col < nqy) :
    (codeOver (planeCodes a n nqx nqy bit) nqy row col).getLsbD (cellAt row col).bit =
      codeBit a n nqx nqy (bit % w) row col := by
  have hplane : bit % w < w := Nat.mod_lt _ (by omega)
  have ht : (cellAt row col).bit < 4 := by
    show 3 - _ - _ < 4
    omega
  have hcode : codeOver (planeCodes a n nqx nqy bit) nqy row col =
      planeCode a n nqx nqy (bit % w) (row / 2, col / 2) := by
    have hat := map_grid_getElem? (planeCode a n nqx nqy (bit % w)) (half_lt hrow) (half_lt hcol)
    rw [codeOver, List.getD_eq_getElem?_getD]
    show ((grid (half nqx) (half nqy)).map _)[_]?.getD 0 = _
    rw [hat]
    rfl
  have hcell : blockBit a n nqx nqy (bit % w) (row / 2, col / 2) (cellAt row col).bit =
      cellBit a n nqx nqy (bit % w) row col := by
    rw [blockBit, cellOf_cellAt]
    rfl
  rw [hcode, getLsbD_planeCode hw hplane ht, hcell, codeBit]

/-- The cells get the `or` of the bits in their codes. -/
theorem getLsbD_decodedCell (hw : 4 ≤ w) {row col p : Nat} (hrow : row < nqx)
    (hcol : col < nqy) (hp : p < w)
    (bits : List Nat) : ∀ x : BitVec w, (decodedCell a n nqx nqy row col bits x).getLsbD p =
      (x.getLsbD p || (bits.any fun bit => decide (bit % w = p)) &&
        codeBit a n nqx nqy p row col) := by
  induction bits with
  | nil =>
    intro x
    simp [decodedCell]
  | cons bit bits ih =>
    intro x
    show (decodedCell a n nqx nqy row col bits (withPlane _ _ _ row col x)).getLsbD p = _
    rw [ih, withPlane, getLsbD_codeOver hw hrow hcol, List.any_cons]
    by_cases hplane : bit % w = p
    · have hset : (1#w <<< (bit % w)).getLsbD p = true := by simp [hplane, hp]
      rw [hplane, decide_eq_true rfl, Bool.true_or, Bool.true_and]
      rw [hplane] at hset
      cases codeBit a n nqx nqy p row col
      · simp
      · simp [BitVec.getLsbD_or, hset]
    · have hclear : (1#w <<< (bit % w)).getLsbD p = false := by
        simp only [BitVec.getLsbD_shiftLeft, BitVec.getLsbD_one]
        simp
        omega
      rw [decide_eq_false hplane, Bool.false_or]
      cases codeBit a n nqx nqy (bit % w) row col
      · simp
      · simp [BitVec.getLsbD_or, hclear]

/-! ## The round trip -/

/-- The coefficients need no more planes than are written. -/
def FitsPlanes (a : List (BitVec w)) (n nqx nqy nbitplanes : Nat) : Prop :=
  ∀ row < nqx, ∀ col < nqy, (a.getD (n * row + col) 0).toNat < 2 ^ nbitplanes

/-- From any state of the writer, the encoder adds a code to its bits; and any decoder that
comes to this code takes just its bits, restores the coefficients where it finds zeros,
and touches no cell outside the quadrant. -/
def RoundTrips (checks : Bool) (a : List (BitVec w)) (n nqx nqy nbitplanes : Nat) : Prop :=
  ∀ wr : HWriter, wr.HasRoom → ∃ wr' code, qtreeEncode checks wr a n nqx nqy nbitplanes =
    .ok wr' ∧ wr'.HasRoom ∧
    wr'.bits = wr.bits ++ code ∧
    ∀ d : List (BitVec w), Covers d.length n nqx nqy →
      (∀ row < nqx, ∀ col < nqy, d[n * row + col]? = some 0) →
      ∃ d', Reads (qtreeDecode checks d n nqx nqy nbitplanes) code d' ∧ d'.length = d.length ∧
        (∀ row < nqx, ∀ col < nqy, d'[n * row + col]? = a[n * row + col]?) ∧
        ∀ p, (∀ row < nqx, ∀ col < nqy, p ≠ n * row + col) → d'[p]? = d[p]?

/-- Where the bit of a cell leaves the word, the bit that comes in its place is the same. -/
def TopBitsAgree (a : List (BitVec w)) (n nqx nqy : Nat) : Prop :=
  ∀ p < w, ∀ row < nqx, ∀ col < nqy, w ≤ p + (cellAt row col).bit →
    cellBit a n nqx nqy p row col = blockBit a n nqx nqy p (row / 2, col / 2) (w - 1 - p)

theorem topBitsAgree_iff : TopBitsAgree a n nqx nqy ↔
    ∀ p < w, ∀ row < nqx, ∀ col < nqy, codeBit a n nqx nqy p row col =
      cellBit a n nqx nqy p row col := by
  refine forall₂_congr fun p _ => forall₂_congr fun row _ => forall₂_congr fun col _ => ?_
  rw [codeBit]
  by_cases hlow : p + (cellAt row col).bit < w
  · rw [if_pos hlow]
    exact ⟨fun _ => rfl, fun _ hle => absurd hlow (Nat.not_lt_of_le hle)⟩
  · rw [if_neg hlow]
    exact ⟨fun h => (h (Nat.le_of_not_lt hlow)).symm, fun h _ => h.symm⟩

/-- The planes that are not written are empty. -/
theorem FitsPlanes.cellBit_eq {k p : Nat} (h : FitsPlanes a n nqx nqy k) (hp : k ≤ p)
    (row col : Nat) :
    cellBit a n nqx nqy p row col = false := by
  rw [cellBit, Bool.and_eq_false_imp]
  intro hcell
  obtain ⟨hrow, hcol⟩ := of_decide_eq_true hcell
  exact Nat.testBit_lt_two_pow
    (Nat.lt_of_lt_of_le (h row hrow col hcol) (Nat.pow_le_pow_right (by decide) hp))

theorem FitsPlanes.codeBit_eq {k p : Nat} (h : FitsPlanes a n nqx nqy k) (hp : k ≤ p)
    (row col : Nat) :
    codeBit a n nqx nqy p row col = false := by
  rw [codeBit, blockBit, h.cellBit_eq hp, h.cellBit_eq hp, ite_self]

/-- No bit leaves the word where the three highest planes are empty. -/
theorem topBitsAgree_of_fits (h : FitsPlanes a n nqx nqy (w - 3)) : TopBitsAgree a n nqx nqy := by
  intro p hp row _ col _ hout
  have hbit : (cellAt row col).bit ≤ 3 := by
    show 3 - _ - _ ≤ 3
    omega
  rw [blockBit, h.cellBit_eq (by omega), h.cellBit_eq (by omega)]

/-- A cell comes back if and only if its bits have the codes that they should. -/
theorem decodedCell_eq_iff {nbitplanes row col : Nat} (hw : 4 ≤ w)
    (hfits : FitsPlanes a n nqx nqy nbitplanes) (hrow : row < nqx) (hcol : col < nqy) :
    decodedCell a n nqx nqy row col (List.range nbitplanes).reverse 0 = a.getD (n * row + col) 0 ↔
      ∀ p < w, codeBit a n nqx nqy p row col = cellBit a n nqx nqy p row col := by
  have hcell : ∀ p, cellBit a n nqx nqy p row col = (a.getD (n * row + col) 0).getLsbD p :=
    fun p => by
    rw [cellBit, decide_eq_true ⟨hrow, hcol⟩, Bool.true_and]
  have hbit :
      ∀ p < w, (decodedCell a n nqx nqy row col (List.range nbitplanes).reverse 0).getLsbD p =
      codeBit a n nqx nqy p row col := by
    intro p hp
    have hzero : (0 : BitVec w).getLsbD p = false := BitVec.getLsbD_zero
    rw [getLsbD_decodedCell hw hrow hcol hp, hzero, Bool.false_or]
    by_cases hplane : p < nbitplanes
    · have hany : ((List.range nbitplanes).reverse.any fun bit => decide (bit % w = p)) = true :=
        List.any_eq_true.2 ⟨p, by simpa using hplane, decide_eq_true (Nat.mod_eq_of_lt hp)⟩
      rw [hany, Bool.true_and]
    · rw [hfits.codeBit_eq (Nat.le_of_not_lt hplane), Bool.and_false]
  constructor
  · intro h p hp
    rw [← hbit p hp, h, hcell]
  · intro h
    refine BitVec.eq_of_getLsbD_eq fun p hp => ?_
    rw [hbit p hp, h p hp, hcell]

/-- The planes fit in the word, or the build does not check. -/
theorem shlBit_planes {nbitplanes : Nat} (h : checks = true → nbitplanes ≤ w) :
    ∀ bit ∈ (List.range nbitplanes).reverse, shlBit w checks bit = .ok (1#w <<< (bit % w)) := by
  intro bit hbit
  rw [List.mem_reverse, List.mem_range] at hbit
  rw [shlBit]
  by_cases hlt : bit < w
  · rw [if_pos hlt, Nat.mod_eq_of_lt hlt]
  · rw [if_neg hlt]
    cases checks with
    | false => rfl
    | true =>
      have := h rfl
      omega

/-- The coder as a whole: what it makes of any array in front of it. -/
theorem qtree_roundTrip {nbitplanes : Nat} (hx : 1 ≤ nqx) (hy : 1 ≤ nqy) (hny : nqy ≤ n)
    (hin : Covers a.length n nqx nqy) (hplanes : checks = true → nbitplanes ≤ w) (wr : HWriter)
    (hwr : wr.HasRoom) :
    ∃ wr' code, qtreeEncode checks wr a n nqx nqy nbitplanes = .ok wr' ∧ wr'.HasRoom ∧
      wr'.bits = wr.bits ++ code ∧
      ∀ d : List (BitVec w), Covers d.length n nqx nqy →
        ∃ d', Reads (qtreeDecode checks d n nqx nqy nbitplanes) code d' ∧ d'.length = d.length ∧
          (∀ row < nqx, ∀ col < nqy, d'[n * row + col]? =
            (d[n * row + col]?).map
              (decodedCell a n nqx nqy row col (List.range nbitplanes).reverse)) ∧
          ∀ p, (∀ row < nqx, ∀ col < nqy, p ≠ n * row + col) → d'[p]? = d[p]? := by
  obtain ⟨st, code, hrun, hready, hcode, hread⟩ := planes_roundTrip hx hy hny hin rfl
    (List.range nbitplanes).reverse (shlBit_planes hplanes)
    ⟨wr, List.replicate (2 * half (half nqx * half nqy)) 0,
      List.replicate (half (half nqx * half nqy)) 0⟩
    ⟨hwr, List.length_replicate, List.length_replicate⟩
  refine ⟨st.writer, code, ?_, hready.room, hcode, fun d hd => ?_⟩
  · rw [qtreeEncode]
    show (List.foldlM _ _ _ >>= _) = _
    rw [hrun]
    rfl
  · obtain ⟨d', scratch', hd', hlen, hcells, hframe⟩ :=
      hread d (List.replicate (half nqx * half nqy) 0) hd
      List.length_replicate
    exact ⟨d', hd'.map (Reads.pure _), hlen, hcells, hframe⟩

/-- A cell of the quadrant. -/
theorem getElem?_of_covers (hin : Covers a.length n nqx nqy) {row col : Nat} (hrow : row < nqx)
    (hcol : col < nqy) :
    a[n * row + col]? = some (a.getD (n * row + col) 0) := by
  have hlt := hin row hrow col hcol
  rw [List.getD_eq_getElem _ _ hlt]
  exact List.getElem?_eq_getElem hlt

theorem RoundTrips.of_topBitsAgree {nbitplanes : Nat} (hw : 4 ≤ w) (hx : 1 ≤ nqx) (hy : 1 ≤ nqy)
    (hny : nqy ≤ n) (hin : Covers a.length n nqx nqy) (hfits : FitsPlanes a n nqx nqy nbitplanes)
    (hplanes : checks = true → nbitplanes ≤ w) (htop : TopBitsAgree a n nqx nqy) :
    RoundTrips checks a n nqx nqy nbitplanes := by
  intro wr hwr
  obtain ⟨wr', code, hrun, hroom, hcode, hread⟩ := qtree_roundTrip hx hy hny hin hplanes wr hwr
  refine ⟨wr', code, hrun, hroom, hcode, fun d hd hzeros => ?_⟩
  obtain ⟨d', hd', hlen, hcells, hframe⟩ := hread d hd
  refine ⟨d', hd', hlen, fun row hrow col hcol => ?_, hframe⟩
  have hbits := fun p hp => topBitsAgree_iff.1 htop p hp row hrow col hcol
  rw [hcells row hrow col hcol, hzeros row hrow col hcol, Option.map_some,
    getElem?_of_covers hin hrow hcol, (decodedCell_eq_iff hw hfits hrow hcol).2 hbits]

/-- A build that checks shifts refuses a plane outside the word. -/
theorem qtreeEncode_fault {nbitplanes : Nat} (h : w < nbitplanes) (wr : HWriter) :
    qtreeEncode true wr a n nqx nqy nbitplanes = .fault := by
  obtain ⟨m, rfl⟩ : ∃ m, nbitplanes = m + 1 := ⟨nbitplanes - 1, by omega⟩
  have hshl : shlBit w true m = .fault := by
    rw [shlBit, if_neg (by omega), if_pos rfl]
  rw [qtreeEncode, List.range_succ, List.reverse_append, List.reverse_singleton,
    List.singleton_append, List.foldlM_cons, encodePlane, qtreeOnebit, hshl]
  rfl

/-- The quadtree coder is exact if and only if the bits that leave the word agree with
those that come in their place, and a build that checks shifts has no plane outside the word. -/
theorem quadtree_exact_iff {nbitplanes : Nat} (hw : 4 ≤ w) (hx : 1 ≤ nqx) (hy : 1 ≤ nqy)
    (hny : nqy ≤ n) (hin : Covers a.length n nqx nqy) (hfits : FitsPlanes a n nqx nqy nbitplanes) :
    RoundTrips checks a n nqx nqy nbitplanes ↔
      (checks = true → nbitplanes ≤ w) ∧ TopBitsAgree a n nqx nqy := by
  constructor
  · intro h
    have hplanes : checks = true → nbitplanes ≤ w := by
      intro hchecks
      by_contra hlt
      obtain ⟨wr', code, hrun, -⟩ := h HWriter.new ⟨by decide, by decide⟩
      rw [hchecks, qtreeEncode_fault (Nat.lt_of_not_le hlt)] at hrun
      cases hrun
    refine ⟨hplanes, topBitsAgree_iff.2 fun p hp row hrow col hcol => ?_⟩
    obtain ⟨wr', code, hrun, -, hcode, hread⟩ := h HWriter.new ⟨by decide, by decide⟩
    obtain ⟨wr'', code', hrun', -, hcode', hread'⟩ :=
      qtree_roundTrip hx hy hny hin hplanes HWriter.new ⟨by decide, by decide⟩
    have hsame : code' = code := by
      rw [hrun] at hrun'
      cases hrun'
      exact List.append_cancel_left (hcode'.symm.trans hcode)
    -- Both decoders start from zeros and come to the same code.
    have hzeros : ∀ row < nqx, ∀ col < nqy,
        (List.replicate a.length (0 : BitVec w))[n * row + col]? = some 0 := by
      intro row hrow col hcol
      rw [List.getElem?_replicate, if_pos (hin row hrow col hcol)]
    have hsize : Covers (List.replicate a.length (0 : BitVec w)).length n nqx nqy := by
      rw [List.length_replicate]
      exact hin
    obtain ⟨d, hd, -, hexact, -⟩ := hread _ hsize hzeros
    obtain ⟨d', hd', -, hcells, -⟩ := hread' _ hsize
    obtain ⟨bytes, hbytes⟩ :=
      exists_ofBytes code.length (code ++ List.replicate (code.length * 7) false) (by
      rw [List.length_append, List.length_replicate]
      omega)
    obtain ⟨st, hst, -⟩ := hd (HState.new bytes) _ (Nat.zero_le 7) hbytes
    obtain ⟨st', hst', -⟩ := hd' (HState.new bytes) _ (Nat.zero_le 7) (by rw [hsame]; exact hbytes)
    have hout : d = d' := by
      rw [hst] at hst'
      cases hst'
      rfl
    have hcell := hcells row hrow col hcol
    rw [← hout, hexact row hrow col hcol, getElem?_of_covers hin hrow hcol,
      hzeros row hrow col hcol, Option.map_some] at hcell
    exact (decodedCell_eq_iff hw hfits hrow hcol).1 (Option.some.inj hcell).symm p hp
  · intro h
    exact RoundTrips.of_topBitsAgree hw hx hy hny hin hfits h.1 h.2

/-- A block of small coefficients comes back.  A coefficient with bit 29 in a word of 32
bits does not. -/
theorem quadtree_exact_block :
    RoundTrips true [5#32, 2#32, 0#32, 7#32] 2 2 2 3 ∧
    ¬ RoundTrips false [536870912#32] 1 1 1 30 := by
  constructor
  · exact (quadtree_exact_iff (by decide) (by decide) (by decide) (by decide)
      (by unfold Covers; decide)
      (by unfold FitsPlanes; decide)).2
      ⟨fun _ => by decide, topBitsAgree_of_fits (by unfold FitsPlanes; decide)⟩
  · intro h
    have htop :=
      ((quadtree_exact_iff (by decide) (by decide) (by decide) (by decide)
        (by unfold Covers; decide)
      (by unfold FitsPlanes; decide)).1 h).2
    exact absurd (htop 29 (by decide) 0 (by decide) 0 (by decide) (by decide)) (by decide)

end RustFits.Zimage.Hcompress
