import RustFits.Checksum.Verify

/-!
# `add_checksum` after any history of edits

The checksum is computed from a header that is serialised again, not from the
bytes on disk.  The two are the same as long as every reserved header block is
in use: the rewrite of a header keeps the blocks that deleted cards have left
empty, and the serialiser does not write them.

* `measured_of_standard`: for images and tables as the standard declares them
  the checksum methods and the parser agree on the size of the data section.
* `addChecksum_spec` is the method on a file that the parser walks.
* `EditRun` is a run of header calls and data writes, `consistent_run` its
  invariant, and `addChecksum_verifies` the result for whole runs.
* `addChecksum_spare` is the sum on disk when blocks are left empty.
-/

namespace RustFits.Checksum

open Ascii ByteFile Machine OnesComplement Header

/-! ## The size of a standard data section -/

/-- The declared counts of an HDU as the standard has them: no axis is negative,
and there is no heap, or an element is a byte and there is one group. -/
structure StandardSection (cards : List Card) : Prop where
  axes : ∀ i : Nat, 1 ≤ i → (i : Int) ≤ (parseKeyword cards (str "NAXIS")).getD 0 →
    0 ≤ (parseKeyword cards (naxisKey i)).getD 0
  counts : (parseKeyword cards (str "PCOUNT")).getD 0 ≤ 0 ∨
    ((parseKeyword cards (str "BITPIX")).getD 0).natAbs / 8 *
      (max ((parseKeyword cards (str "GCOUNT")).getD 1) 1).toNat = 1

section

variable {cards : List Card} {h : Hdu}

theorem axis_isSome :
    ∀ {count n : Nat}, validateAxes cards n count = .ok () →
      ∀ i, n ≤ i → i < n + count → (parseKeyword cards (naxisKey i)).isSome = true := by
  intro count
  induction count with
  | zero =>
    intro n _ i hn hlt
    omega
  | succ count ih =>
    intro n hvalid i hn hlt
    rw [validateAxes] at hvalid
    split_ifs at hvalid with hnone
    rcases Nat.lt_or_eq_of_le hn with hlt' | rfl
    · exact ih hvalid i (by omega) (by omega)
    · simpa [Option.isSome_iff_ne_none] using hnone

/-- The saturating product is the exact one, cut off once. -/
theorem sectionElements_eq :
    ∀ (count i product : Nat),
      (∀ j, i ≤ j → j < i + count → ∃ d, parseKeyword cards (naxisKey j) = some d ∧ 0 ≤ d) →
      sectionElements cards i count (min product (u64Size - 1)) =
        min (declaredProduct cards i count product) (u64Size - 1) := by
  intro count
  induction count with
  | zero =>
    intro i product _
    rfl
  | succ count ih =>
    intro i product haxes
    obtain ⟨d, hd, hnonneg⟩ := haxes i (Nat.le_refl _) (by omega)
    have hrange := inI64_of_parseKeyword hd
    have hdim : asU64 d = d.toNat := asU64_of_inI64 hrange hnonneg
    have hcut : d.toNat = min d.toNat (u64Size - 1) := by
      unfold InI64 at hrange
      unfold u64Size
      omega
    rw [sectionElements, declaredProduct, hd, Option.getD_some]
    dsimp only
    rw [hcut, saturatingMul_min, hdim]
    exact ih _ _ fun j hj hlt => haxes j (by omega) (by omega)

/-- The counts of an accepted header. -/
theorem accepted_counts {isPrimary : Bool} (hvalid : validateHeader cards isPrimary = .ok ()) :
    ∃ bitpix naxis, parseKeyword cards (str "BITPIX") = some bitpix ∧
      parseKeyword cards (str "NAXIS") = some naxis ∧ 0 ≤ naxis ∧
      validateAxes cards 1 naxis.toNat = .ok () := by
  unfold validateHeader at hvalid
  split at hvalid
  · cases hvalid
  · split_ifs at hvalid with _ _ hbitpix
    obtain ⟨bitpix, hb⟩ : ∃ bitpix, parseKeyword cards (str "BITPIX") = some bitpix := by
      cases hcase : parseKeyword cards (str "BITPIX") with
      | none => simp [hcase] at hbitpix
      | some bitpix => exact ⟨bitpix, rfl⟩
    cases hn : parseKeyword cards (str "NAXIS") with
    | none =>
      rw [hn] at hvalid
      cases hvalid
    | some naxis =>
      rw [hn] at hvalid
      dsimp only at hvalid
      split_ifs at hvalid with hrange
      exact ⟨bitpix, naxis, hb, rfl, by omega, hvalid⟩

/-- The size before rounding, for a product of axes `p` and counts `g` and
`pcount` of a standard section. -/
theorem standard_rawSize {b g p pcount : Nat} (hb : b ≤ u64Size - 1) (hg : g ≤ u64Size - 1)
    (h : pcount = 0 ∨ b * g = 1) :
    saturatingAdd (saturatingMul (saturatingMul b (min p (u64Size - 1))) g) pcount =
      min (b * g * (p + pcount)) (u64Size - 1) := by
  have hprod : saturatingMul (saturatingMul b (min p (u64Size - 1))) g =
      min (b * p * g) (u64Size - 1) := by
    rw [← Nat.min_eq_left hb, saturatingMul_min, ← Nat.min_eq_left hg, saturatingMul_min,
      Nat.min_eq_left hb, Nat.min_eq_left hg]
  rw [hprod, saturatingAdd]
  rcases h with rfl | hone
  · rw [Nat.add_zero, Nat.add_zero, Nat.mul_right_comm]
    omega
  · have hsize : b * p * g = p := by rw [Nat.mul_right_comm, hone, Nat.one_mul]
    rw [hsize, hone, Nat.one_mul]
    omega

/-- Both ways to compute the size agree. -/
theorem measured_of_standard {isPrimary : Bool}
    (hvalid : validateHeader h.cards isPrimary = .ok ())
    (hover : (calculateDataSize h.cards).overflow = false) (hstd : StandardSection h.cards) :
    Measured h := by
  obtain ⟨bitpix, naxis, hbitpix, hnaxis, hnonneg, haxes⟩ := accepted_counts hvalid
  obtain ⟨-, hlt⟩ := (calculateDataSize_overflow _).1 hover
  have hval := calculateDataSize_val hover
  have hnaxis64 : asU64 naxis = naxis.toNat := asU64_of_inI64 (inI64_of_parseKeyword hnaxis) hnonneg
  have hlist : ∀ j, 1 ≤ j → j < 1 + naxis.toNat →
      ∃ d, parseKeyword h.cards (naxisKey j) = some d ∧ 0 ≤ d := by
    intro j hj hjlt
    obtain ⟨d, hd⟩ := Option.isSome_iff_exists.1 (axis_isSome haxes j hj hjlt)
    have hstdj := hstd.axes j hj (by rw [hnaxis, Option.getD_some]; omega)
    rw [hd, Option.getD_some] at hstdj
    exact ⟨d, hd, hstdj⟩
  have hprod := sectionElements_eq naxis.toNat 1 1 hlist
  rw [show min 1 (u64Size - 1) = 1 by decide] at hprod
  have hpc : InI64 ((parseKeyword h.cards (str "PCOUNT")).getD 0) := inI64_getD (by decide)
  have hgc : InI64 ((parseKeyword h.cards (str "GCOUNT")).getD 1) := inI64_getD (by decide)
  have hbit := inI64_of_parseKeyword hbitpix
  have hcounts := hstd.counts
  rw [Measured, Hdu.dataSize, hval, dataSectionPaddedSizeFor]
  unfold declaredDataSize declaredRawSize at hlt ⊢
  rw [hnaxis, hbitpix, Option.getD_some, Option.getD_some, hnaxis64] at hlt ⊢
  rw [hbitpix, Option.getD_some] at hcounts
  dsimp only at hlt ⊢
  generalize (parseKeyword h.cards (str "PCOUNT")).getD 0 = pcount at *
  generalize (parseKeyword h.cards (str "GCOUNT")).getD 1 = gcount at *
  by_cases hzero : naxis = 0
  · rw [if_pos hzero, if_pos (by omega)]
  · rw [if_neg hzero, hprod]
    rw [if_neg (by omega)] at hlt ⊢
    have hgroup : (if 0 < gcount then gcount.toNat else 1) = (max gcount 1).toNat := by
      split_ifs <;> omega
    rw [hgroup] at hlt ⊢
    unfold InI64 at hbit hpc hgc
    rw [standard_rawSize (by unfold u64Size; omega) (by unfold u64Size; omega)
      (hcounts.imp (by omega) id)]
    have hle := le_roundUpToBlock (bitpix.natAbs / 8 * (max gcount 1).toNat *
      (declaredProduct h.cards 1 naxis.toNat 1 + pcount.toNat))
    rw [Nat.min_eq_left (by omega)]
    exact congrArg Except.ok (Nat.mod_eq_of_lt hlt)

end

/-! ## The method -/

section

variable {lenient : Bool} {s s' : Fits} {idx : Nat} {h : Hdu}

/-- The cards that `add_checksum` writes, for a data sum. -/
def sealedCards (sum : Nat) (cards : List Card) : List Card :=
  (cardsWithChecksum exactSum (cardsWithDatasum cards sum datasumKey) sum checksumKey).val

/-- The HDU after its header was rewritten over all the blocks it needs. -/
theorem editHdus_self {cards : List Card} {delta : Nat} (hdu : s.hdus[idx]? = some h)
    (hlt : h.offsets.headerOffset < h.offsets.dataOffset) :
    (editHdus idx cards (shiftHdus h.offsets.dataOffset delta s.hdus))[idx]? =
      some ⟨cards, h.offsets.reserve cards.length, h.kind⟩ := by
  have hstay : h.offsets.shift h.offsets.dataOffset delta = h.offsets := by
    rw [HduOffsets.shift, if_neg (by omega)]
  have hshifted : (shiftHdus h.offsets.dataOffset delta s.hdus)[idx]? = some h := by
    rw [shiftHdus, List.getElem?_map, hdu, Option.map_some, hstay]
  rw [editHdus, List.getElem?_modify, hshifted]
  simp

/-- The sizes that the methods and the parser compute for an HDU of the file. -/
theorem measured_of_walked (hwalked : Walked lenient s.bytes h) (hstd : StandardSection h.cards) :
    Measured h := by
  obtain ⟨isPrimary, -, -, hvalid⟩ := hwalked.header
  obtain ⟨hb, hdeclared⟩ := (hduExtent_overflow _ _).1 hwalked.noOverflow
  refine measured_of_standard hvalid ((calculateDataSize_overflow _).2 ⟨hb, ?_⟩) hstd
  unfold declaredEnd at hdeclared
  omega

/-- `add_checksum` on a file that the parser walks and that holds the data section:
the parser walks the new file too, and the HDU is summed in it. -/
theorem addChecksum_spec (hw : Walks lenient s.bytes true 0 s.hdus) (hdu : s.hdus[idx]? = some h)
    (hstd : StandardSection h.cards) (hplain : Unindented datasumKey h.cards)
    (hroom : ∀ g ∈ s.hdus, g.dataEnd + 2880 < u64Size) (hfile : h.dataEnd ≤ s.bytes.length) :
    ∃ s' h', checksumHduAddChecksum exactSum idx checksumKey datasumKey s = .ok () s' ∧
      Walks lenient s'.bytes true 0 s'.hdus ∧ s'.hdus[idx]? = some h' ∧ Summed s' h' := by
  have hwalked := (hw.mem h (List.mem_of_getElem? hdu)).2
  obtain ⟨isPrimary, -, -, hvalid⟩ := hwalked.header
  obtain ⟨hlt, hle⟩ := hwalked.fits
  have hmeasured := measured_of_walked hwalked hstd
  have hzero : (0 : Nat) ≤ allOnes := by decide
  have hrun := streamDataSection_run hdu hmeasured hfile hzero
  generalize hdata : slice s.bytes h.offsets.dataOffset h.dataSize = data at hrun
  have hsum := lt_u32Size_of_le (checksum_le hzero data)
  have hcards := sumCards_spec hwalked.clean hvalid hplain hsum
  rw [← sealedCards] at hcards
  unfold checksumHduAddChecksum
  rw [FileOp.bind_ok hrun, FileOp.bind_ok (hduAt_run hdu), ← sealedCards]
  generalize sealedCards (checksum 0 data) h.cards = newCards at hcards ⊢
  -- the rewrite of the header
  have hblocks : h.offsets.headerBlockCount ≤ headerBlocks newCards.length := by
    have hcount := hcards.put.count
    rw [hwalked.blocks, headerBlocks_eq, headerBlocks_eq]
    omega
  have hgrowth : headerGrowth h newCards ≤ 2880 := by
    have hbound := hcards.put.bound
    rw [headerGrowth, hwalked.blocks, headerBlocks_eq, headerBlocks_eq]
    unfold blockSize
    omega
  obtain ⟨hwrite, hwalks⟩ := rewriteAndCommit_run hw hdu hcards.put.clean hblocks hcards.put.layout
    fun g hg => by
      have := hroom g hg
      omega
  refine ⟨_, _, hwrite, hwalks, editHdus_self hdu hlt, ?_⟩
  have hgap : (openGap s.bytes h.offsets.dataOffset (headerGrowth h newCards)).length =
      s.bytes.length + headerGrowth h newCards := openGap_length hle
  have hlength := serialize_length newCards
  have hreserve : (h.offsets.reserve newCards.length).dataOffset =
      h.offsets.headerOffset + headerBlocks newCards.length * 2880 := by
    have hoffset := hwalked.dataOffset
    rw [HduOffsets.reserve, hoffset]
    dsimp only
    unfold blockSize
    omega
  have hmoved : h.offsets.dataOffset + headerGrowth h newCards =
      h.offsets.headerOffset + headerBlocks newCards.length * 2880 := by
    have hoffset := hwalked.dataOffset
    rw [headerGrowth, hoffset]
    unfold blockSize
    omega
  have hstart : h.offsets.headerOffset ≤
      (openGap s.bytes h.offsets.dataOffset (headerGrowth h newCards)).length := by omega
  have hsize : (⟨newCards, h.offsets.reserve newCards.length, h.kind⟩ : Hdu).dataSize =
      h.dataSize := congrArg Wrapped.val hcards.put.layout.calculateDataSize
  have hsection : slice (writeAll (openGap s.bytes h.offsets.dataOffset (headerGrowth h newCards))
      h.offsets.headerOffset (serializeHeaderToDiskBytes newCards))
        (h.offsets.reserve newCards.length).dataOffset h.dataSize = data := by
    rw [hreserve, ← hlength, slice, drop_writeAll_of_le hstart (Nat.le_refl _), hlength, ← hmoved,
      drop_openGap hle (Nat.le_refl _), ← slice, hdata]
  constructor
  · rw [Measured, hsize, dataSectionPaddedSizeFor_congr hcards.put.layout]
    exact hmeasured
  · rw [Hdu.dataEnd, hsize]
    dsimp only
    rw [writeAll_length_of_le (by omega), hgap, hreserve, ← hmoved]
    rw [Hdu.dataEnd] at hfile
    omega
  · exact hreserve
  · show slice _ _ (headerBlocks newCards.length * 2880) = _
    rw [← hlength]
    exact slice_writeAll_self hstart
  · refine ⟨h.cards, ?_⟩
    rw [hsize]
    dsimp only
    rw [hsection]
    exact hcards

/-- A file that ends inside the data section. -/
theorem addChecksum_truncated (hdu : s.hdus[idx]? = some h) (hmeasured : Measured h)
    (hstart : h.offsets.dataOffset ≤ s.bytes.length) (hshort : s.bytes.length < h.dataEnd) :
    ∃ err, checksumHduAddChecksum exactSum idx checksumKey datasumKey s = .error err s := by
  obtain ⟨err, hrun⟩ := streamDataSection_truncated exactSum hdu hmeasured hstart hshort
  exact ⟨err, FileOp.bind_error hrun⟩

end

/-! ## Runs of edits -/

/-- A step of a run: a call on the headers, or a strip of bytes written into the
data section of an HDU, which the writers refuse beyond its end. -/
inductive EditStep (F : Type) where
  | header (call : Call F)
  | write (idx off : Nat) (data : Bytes)

def EditStep.perform {F : Type} (floats : Floats F) (e : Editor) : EditStep F → Editor
  | .header call => call.perform floats e
  | .write idx off data =>
    match e.fits.hdus[idx]? with
    | none => e
    | some h =>
      if off + data.length ≤ h.dataSize then
        ⟨⟨writeAll e.fits.bytes (h.offsets.dataOffset + off) data, e.fits.hdus⟩, e.edits⟩
      else e

/-- The condition on a step, in the state before it. -/
def EditStep.Safe {F : Type} (floats : Floats F) (e : Editor) : EditStep F → Prop
  | .header call => call.Safe floats e
  | .write _ _ _ => True

/-- A run of safe steps. -/
inductive EditRun {F : Type} (floats : Floats F) : Editor → Editor → Prop where
  | refl (e : Editor) : EditRun floats e e
  | step {e e' : Editor} (step : EditStep F) :
      EditRun floats e e' → step.Safe floats e' → EditRun floats e (step.perform floats e')

section

variable {lenient : Bool} {bytes data : Bytes} {off : Nat}

theorem shiftHdus_zero (cut : Nat) (hdus : List Hdu) : shiftHdus cut 0 hdus = hdus := by
  have hstay : ∀ h ∈ hdus, ({ h with offsets := h.offsets.shift cut 0 } : Hdu) = h := by
    intro h _
    rw [HduOffsets.shift]
    split_ifs <;> rfl
  rw [shiftHdus, List.map_congr_left hstay, List.map_id']

theorem dataEnd_lt_of_walked {h : Hdu} (hw : Walked lenient bytes h) : h.dataEnd < u64Size := by
  have hoff : h.offsets = ⟨h.offsets.headerOffset, headerBlocks h.cards.length,
      h.offsets.headerOffset + headerBlocks h.cards.length * blockSize⟩ := by
    rw [← hw.blocks, ← hw.dataOffset]
  obtain ⟨-, hlt⟩ := (hduExtent_overflow _ _).1 hw.noOverflow
  have hend := congrArg Prod.snd (hduExtent_of_offsets hoff hw.noOverflow)
  rw [hduExtent_exact hw.noOverflow] at hend
  exact Nat.lt_of_le_of_lt (Nat.le_of_eq hend.symm) hlt

/-- Bytes in the data section of an HDU move no header. -/
theorem walks_writeData :
    ∀ {hdus : List Hdu} {isPrimary : Bool} {offset : Nat},
      Walks lenient bytes isPrimary offset hdus →
      ∀ h ∈ hdus, off + data.length ≤ h.dataSize →
        Walks lenient (writeAll bytes (h.offsets.dataOffset + off) data) isPrimary offset hdus := by
  intro hdus
  induction hdus with
  | nil => simp
  | cons g rest ih =>
    intro isPrimary offset hw h hh hfit
    have hg := (hw.mem g List.mem_cons_self).2
    have hfits := hg.fits.2
    have hblocks := hg.blocks
    have hdata := hg.dataOffset
    obtain ⟨hat, hoff, hover, hnext⟩ := hw
    have hstart : g.offsets.headerOffset = offset := by rw [hoff]
    have hend : g.dataEnd = g.offsets.dataOffset + g.dataSize := rfl
    -- the header of the first HDU lies in front of the written bytes
    have hbehind : g.offsets.dataOffset ≤ h.offsets.dataOffset := by
      rcases List.mem_cons.1 hh with rfl | hh
      · exact Nat.le_refl _
      · rcases hnext with ⟨-, hwalk⟩ | ⟨-, rfl⟩
        · obtain ⟨hle, hwalked⟩ := hwalk.mem h hh
          have := hwalked.fits.1
          omega
        · cases hh
    have hkept : slice (writeAll bytes (h.offsets.dataOffset + off) data) offset
        (headerBlocks g.cards.length * 2880) =
          slice bytes offset (headerBlocks g.cards.length * 2880) := by
      apply slice_writeAll_front
      · unfold blockSize at hdata
        omega
      · unfold blockSize at hdata
        omega
    refine ⟨hat.congr hkept, hoff, hover, ?_⟩
    rcases List.mem_cons.1 hh with rfl | hh
    · rcases hnext with ⟨hlt, hwalk⟩ | ⟨hle, rfl⟩
      · have hinside : h.offsets.dataOffset + off ≤ bytes.length := by omega
        have hlen : (writeAll bytes (h.offsets.dataOffset + off) data).length = bytes.length :=
          writeAll_length_of_le (by omega)
        have hdrop : (writeAll bytes (h.offsets.dataOffset + off) data).drop (h.dataEnd + 0) =
            bytes.drop h.dataEnd := drop_writeAll_of_le hinside (by omega)
        have hmoved := hwalk.shift hdrop hlen (Nat.le_refl _)
          fun f hf => dataEnd_lt_of_walked (hwalk.mem f hf).2
        rw [shiftHdus_zero] at hmoved
        exact Or.inl ⟨by omega, hmoved⟩
      · refine Or.inr ⟨?_, rfl⟩
        have := writeAll_length_le bytes (h.offsets.dataOffset + off) data
        omega
    · rcases hnext with ⟨hlt, hwalk⟩ | ⟨hle, rfl⟩
      · have := length_le_writeAll bytes (h.offsets.dataOffset + off) data
        exact Or.inl ⟨by omega, ih hwalk h hh hfit⟩
      · cases hh

end

section

variable {F : Type} {floats : Floats F} {lenient : Bool} {e e' : Editor} {idx : Nat} {h : Hdu}

/-- One safe step. -/
theorem consistent_perform (hc : Consistent lenient e) (step : EditStep F)
    (hsafe : step.Safe floats e) : Consistent lenient (step.perform floats e) := by
  cases step with
  | header call => exact hc.perform call hsafe
  | write idx off data =>
    cases hdu : e.fits.hdus[idx]? with
    | none =>
      simp only [EditStep.perform, hdu]
      exact hc
    | some h =>
      simp only [EditStep.perform, hdu]
      split_ifs with hfit
      · exact ⟨walks_writeData hc.walks h (List.mem_of_getElem? hdu) hfit, hc.sessions⟩
      · exact hc

/-- Whole runs. -/
theorem consistent_run (hc : Consistent lenient e) (hrun : EditRun floats e e') :
    Consistent lenient e' := by
  induction hrun with
  | refl => exact hc
  | step step _ hsafe ih => exact consistent_perform ih step hsafe

/-- After a run of safe steps on an opened file, `add_checksum` makes the HDU
verify, also when the file is opened again.  It raises, and changes nothing, where
the file ends inside the data section. -/
theorem addChecksum_verifies {s : Fits} (hopen : Reopens lenient s) (hno : NoOverflow s.hdus)
    (hrun : EditRun floats ⟨s, []⟩ e) (hdu : e.fits.hdus[idx]? = some h)
    (hstd : StandardSection h.cards) (hplain : Unindented datasumKey h.cards)
    (hroom : ∀ g ∈ e.fits.hdus, g.dataEnd + 2880 < u64Size) :
    match checksumHduAddChecksum exactSum idx checksumKey datasumKey e.fits with
    | .ok () s' =>
      Verifies idx s' ∧ ∃ fuel hdus, parseHdusFromFile lenient s'.bytes fuel = some (.ok hdus) ∧
        Verifies idx ⟨s'.bytes, hdus⟩
    | .error _ s' => e.fits.bytes.length < h.dataEnd ∧ s' = e.fits := by
  have hw := (consistent_run ⟨walks_of_reopens hopen hno, by simp⟩ hrun).walks
  have hwalked := (hw.mem h (List.mem_of_getElem? hdu)).2
  rcases Nat.lt_or_ge e.fits.bytes.length h.dataEnd with hshort | hfile
  · obtain ⟨err, herr⟩ := addChecksum_truncated hdu (measured_of_walked hwalked hstd)
      hwalked.fits.2 hshort
    rw [herr]
    exact ⟨hshort, rfl⟩
  · obtain ⟨s', h', hok, hw', hdu', hsummed⟩ := addChecksum_spec hw hdu hstd hplain hroom hfile
    rw [hok]
    refine ⟨verifies_of_summed hdu' hsummed, ?_⟩
    obtain ⟨fuel, hdus, hparse, hsame⟩ := reopens_of_walks hw'
    refine ⟨fuel, hdus, hparse, ?_⟩
    have hrec : (hdus.map Hdu.record)[idx]? = some h'.record := by
      rw [hsame, List.getElem?_map, hdu']
      rfl
    rw [List.getElem?_map] at hrec
    obtain ⟨h'', hdu'', hrec''⟩ := Option.map_eq_some_iff.1 hrec
    exact verifies_of_summed hdu'' (hsummed.congr hrec'')

/-- The crowded file with a new card in the header of the second HDU. -/
def namedFile : Editor :=
  EditStep.perform exampleFloats ⟨crowdedFile, []⟩
    (.header (.header 1 (.setItem (str "object") (.integer 5) none)))

theorem namedFile_hdus : namedFile.fits.hdus =
    [⟨crowdedHeader, ⟨0, 2, 5760⟩, .image⟩, ⟨namedExtension, ⟨5760, 1, 8640⟩, .image⟩] := by
  have hsecond : crowdedFile.hdus[1]? = some ⟨emptyExtension, ⟨5760, 1, 8640⟩, .image⟩ := rfl
  simp only [namedFile, EditStep.perform, Call.perform,
    headerCall_of_fits hsecond run_setItem_emptyExtension (by decide)]
  rfl

/-- Its checksum. -/
theorem addChecksum_verifies_setObject :
    match checksumHduAddChecksum exactSum 1 checksumKey datasumKey namedFile.fits with
    | .ok () s' =>
      Verifies 1 s' ∧ ∃ fuel hdus, parseHdusFromFile false s'.bytes fuel = some (.ok hdus) ∧
        Verifies 1 ⟨s'.bytes, hdus⟩
    | .error _ s' => namedFile.fits.bytes.length <
        (⟨namedExtension, ⟨5760, 1, 8640⟩, .image⟩ : Hdu).dataEnd ∧ s' = namedFile.fits := by
  have hrun : EditRun exampleFloats ⟨crowdedFile, []⟩ namedFile :=
    .step (.header _) (.refl _) safe_setObject
  have hdu : namedFile.fits.hdus[1]? = some ⟨namedExtension, ⟨5760, 1, 8640⟩, .image⟩ := by
    rw [namedFile_hdus]
    rfl
  have hplain : Unindented datasumKey namedExtension := by
    show ∀ c ∈ namedExtension, trim (c.take 8) = datasumKey → c.take datasumKey.length = datasumKey
    decide +kernel
  have hnaxis : (parseKeyword namedExtension (str "NAXIS")).getD 0 = 0 := rfl
  have hstd : StandardSection namedExtension := by
    refine ⟨fun i hi hle => ?_, Or.inl (Int.le_refl 0)⟩
    rw [hnaxis] at hle
    omega
  refine addChecksum_verifies (reopens_of_walks walks_crowdedFile) crowdedFile_noOverflow hrun hdu
    hstd hplain fun g hg => ?_
  rw [namedFile_hdus] at hg
  revert g
  decide +kernel

end

/-! ## Reserved blocks that are not in use -/

section

variable {s : Fits} {idx : Nat} {h : Hdu} {cards : List Card}

/-- The blanks behind the last card of a header with unused blocks. -/
theorem headerBytes_spare {blocks : Nat} (hblocks : headerBlocks cards.length ≤ blocks) :
    headerBytes blocks cards = serializeHeaderToDiskBytes cards ++
      List.replicate (4 * ((blocks - headerBlocks cards.length) * 720)) blank := by
  have hcards := flatMap_length_of_width fun card (_ : card ∈ cards) => padToCard_length card
  have hfit := headerBlocks_eq cards.length
  rw [headerBytes, serializeHeaderToDiskBytes, padRight, padRight, List.append_assoc,
    List.replicate_append_replicate, hcards]
  congr 2
  unfold blockSize
  omega

/-- The sum of three sections when the outer two add up to all ones. -/
theorem checksum_between {a b c : Bytes} (ha : a.length % 4 = 0) (hb : b.length % 4 = 0)
    (hseals : checksum (checksum 0 c) a = allOnes) :
    checksum 0 (a ++ b ++ c) = residue allOnes (allOnes + (words b).sum) := by
  have hzero : (0 : Nat) ≤ allOnes := by decide
  have hab : (a ++ b).length % 4 = 0 := by
    rw [List.length_append]
    omega
  have hwords : words (a ++ b ++ c) = words a ++ words b ++ words c := by
    rw [words_append hab, words_append ha]
  rw [checksum_eq (checksum_le hzero c), checksum_eq hzero c, Nat.zero_add,
    residue_add_left] at hseals
  calc checksum 0 (a ++ b ++ c)
      = residue allOnes ((words a).sum + (words b).sum + (words c).sum) := by
        rw [checksum_eq hzero, hwords, List.sum_append, List.sum_append, Nat.zero_add]
    _ = residue allOnes ((words c).sum + (words a).sum + (words b).sum) := by
        congr 1
        omega
    _ = residue allOnes (residue allOnes ((words c).sum + (words a).sum) + (words b).sum) :=
        (residue_add_left _ _ _).symm
    _ = residue allOnes (allOnes + (words b).sum) := by rw [hseals]

/-- `add_checksum` on a header that does not fill its blocks: every unused block
adds 720 words of blanks to the sum on disk. -/
theorem addChecksum_spare {isPrimary : Bool} (hdu : s.hdus[idx]? = some h)
    (hclean : CleanHeader h.cards) (hvalid : validateHeader h.cards isPrimary = .ok ())
    (hmeasured : Measured h) (hplain : Unindented datasumKey h.cards)
    (hdata : h.offsets.dataOffset = h.offsets.headerOffset + h.offsets.headerBlockCount * blockSize)
    (hfile : h.dataEnd ≤ s.bytes.length)
    (hspare : headerBlocks (h.cards.length + 2) ≤ h.offsets.headerBlockCount) :
    ∃ s' cards, checksumHduAddChecksum exactSum idx checksumKey datasumKey s = .ok () s' ∧
      s'.hdus[idx]? = some ⟨cards, h.offsets, h.kind⟩ ∧
      h.cards.length ≤ cards.length ∧ cards.length ≤ h.cards.length + 2 ∧
      checksum 0 (slice s'.bytes h.offsets.headerOffset
          ((⟨cards, h.offsets, h.kind⟩ : Hdu).dataEnd - h.offsets.headerOffset)) =
        residue allOnes (allOnes +
          (h.offsets.headerBlockCount - headerBlocks cards.length) * 720 * 0x20202020) := by
  have hzero : (0 : Nat) ≤ allOnes := by decide
  have hrun := streamDataSection_run hdu hmeasured hfile hzero
  generalize hsection : slice s.bytes h.offsets.dataOffset h.dataSize = data at hrun
  have hcards := sumCards_spec hclean hvalid hplain (lt_u32Size_of_le (checksum_le hzero data))
  rw [← sealedCards] at hcards
  unfold checksumHduAddChecksum
  rw [FileOp.bind_ok hrun, FileOp.bind_ok (hduAt_run hdu), ← sealedCards]
  generalize sealedCards (checksum 0 data) h.cards = newCards at hcards ⊢
  have hbound := hcards.put.bound
  have hblocks : headerBlocks newCards.length ≤ h.offsets.headerBlockCount := by
    rw [headerBlocks_eq] at hspare ⊢
    omega
  have hfit : newCards.length ≤ h.offsets.headerBlockCount * cardsPerBlock := by
    rw [headerBlocks_eq] at hblocks
    unfold cardsPerBlock blockSize cardSize
    omega
  have hlength := headerBytes_length hfit
  have hend : h.dataEnd = h.offsets.dataOffset + h.dataSize := rfl
  have hwrite : rewriteAndCommit idx newCards s =
      .ok () ⟨writeAll s.bytes h.offsets.headerOffset
          (headerBytes h.offsets.headerBlockCount newCards),
        s.hdus.modify idx fun g => { g with cards := newCards }⟩ :=
    FileOp.bind_ok (rewriteHeaderToDisk_of_fits hdu hfit)
  refine ⟨_, newCards, hwrite, ?_, hcards.put.count, hbound, ?_⟩
  · show (s.hdus.modify idx fun g => { g with cards := newCards })[idx]? = _
    rw [List.getElem?_modify, hdu]
    simp
  · have hsize : (⟨newCards, h.offsets, h.kind⟩ : Hdu).dataSize = h.dataSize :=
      congrArg Wrapped.val hcards.put.layout.calculateDataSize
    have hstart : h.offsets.headerOffset ≤ s.bytes.length := by omega
    have hextent : (⟨newCards, h.offsets, h.kind⟩ : Hdu).dataEnd - h.offsets.headerOffset =
        h.offsets.headerBlockCount * blockSize + h.dataSize := by
      rw [Hdu.dataEnd, hsize]
      dsimp only
      omega
    have hkept : slice (writeAll s.bytes h.offsets.headerOffset
        (headerBytes h.offsets.headerBlockCount newCards))
          (h.offsets.headerOffset + h.offsets.headerBlockCount * blockSize) h.dataSize = data := by
      rw [slice_writeAll_of_disjoint hstart (Or.inr (by omega)), ← hdata, hsection]
    have haligned : (serializeHeaderToDiskBytes newCards).length % 4 = 0 := by
      rw [serialize_length]
      omega
    dsimp only at hextent ⊢
    rw [hextent, slice_add, slice_writeAll_of_length hstart hlength, hkept,
      headerBytes_spare hblocks, checksum_between haligned (by simp) hcards.seals,
      words_replicate, List.sum_replicate, smul_eq_mul]
    rfl

end

/-- The primary header of the crowded file without its HISTORY cards. -/
def emptiedHeader : List Card := emptyPrimary ++ [str "OBJECT  = 'M31     '", endCard]

theorem run_delItem_history :
    (HeaderMethod.delItem (str "HISTORY")).run exampleFloats crowdedHeader =
      .ok true emptiedHeader := by
  rfl

/-- Deleting HISTORY leaves the second header block unused, and the checksum that
is added then does not cover it. -/
theorem addChecksum_misses_block :
    Reopens false crowdedFile ∧ NoOverflow crowdedFile.hdus ∧
      ∃ s', checksumHduAddChecksum exactSum 0 checksumKey datasumKey
          (EditStep.perform exampleFloats ⟨crowdedFile, []⟩
            (.header (.header 0 (.delItem (str "HISTORY"))))).fits = .ok () s' ∧
        ¬ Verifies 0 s' := by
  refine ⟨reopens_of_walks walks_crowdedFile, crowdedFile_noOverflow, ?_⟩
  have hfirst : crowdedFile.hdus[0]? = some ⟨crowdedHeader, ⟨0, 2, 5760⟩, .image⟩ := rfl
  have hcall := headerCall_of_fits hfirst run_delItem_history (by decide)
  simp only [EditStep.perform, Call.perform, hcall]
  generalize hbytes : writeAll crowdedFile.bytes 0 (headerBytes 2 emptiedHeader) = bytes
  have hfile : 5760 ≤ bytes.length := by
    have := length_le_writeAll crowdedFile.bytes 0 (headerBytes 2 emptiedHeader)
    rw [crowdedFile_length, hbytes] at this
    omega
  have hclean : CleanHeader emptiedHeader :=
    ⟨by decide +kernel, emptiedHeader.dropLast, by decide +kernel, by decide +kernel⟩
  have hplain : Unindented datasumKey emptiedHeader := by
    show ∀ c ∈ emptiedHeader, trim (c.take 8) = datasumKey → c.take datasumKey.length = datasumKey
    decide +kernel
  have hmeasured : Measured ⟨emptiedHeader, ⟨0, 2, 5760⟩, .image⟩ := by
    show dataSectionPaddedSizeFor emptiedHeader = .ok (calculateDataSize emptiedHeader).val
    rfl
  have hvalid : validateHeader emptiedHeader true = .ok () := rfl
  have hemptied : (⟨bytes, crowdedFile.hdus.modify 0 fun g => { g with cards := emptiedHeader }⟩ :
      Fits).hdus[0]? = some ⟨emptiedHeader, ⟨0, 2, 5760⟩, .image⟩ := rfl
  obtain ⟨s', cards, hok, hdu', hle, hbound, hsum⟩ :=
    addChecksum_spare hemptied hclean hvalid hmeasured hplain rfl hfile (by decide)
  refine ⟨s', hok, fun hv => ?_⟩
  obtain ⟨g, hg, honDisk⟩ := hv.onDisk
  rw [hdu'] at hg
  cases hg
  have hone : headerBlocks cards.length = 1 := by
    have hfive : emptiedHeader.length = 5 := rfl
    dsimp only at hle hbound
    rw [headerBlocks_eq]
    omega
  rw [hsum, hone] at honDisk
  exact absurd honDisk (by decide)

end RustFits.Checksum
