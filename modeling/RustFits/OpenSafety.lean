import Mathlib.Data.List.Chain
import RustFits.HeaderBytes

/-!
# Opening arbitrary bytes

What the open-time loop does on an arbitrary byte string.  The sizes it works
with come from signed integers in the file, so its offset arithmetic can
overflow.

* `declaredDataSize` is the size a header declares, in unbounded arithmetic.
  `calculateDataSize_exact` says when the program computes it.
* `Declared` are the header positions that follow from the declared sizes,
  `Visited` those the loop visits.  `visited_iff_declared` relates them as long
  as the sizes fit.
-/

namespace RustFits

open Ascii ByteFile Machine

/-! ## Declared sizes -/

/-- The product of the axes `i, i + 1, ..` without saturation. -/
def declaredProduct (cards : List Card) : Nat → Nat → Nat → Nat
  | _, 0, product => product
  | i, count + 1, product =>
    match parseKeyword cards (naxisKey i) with
    | some dim => declaredProduct cards (i + 1) count (product * asU64 dim)
    | none => declaredProduct cards (i + 1) count product

/-- The number of data bytes a header declares, before rounding: the general
formula `|BITPIX| / 8 * GCOUNT * (PCOUNT + NAXIS1 * .. * NAXISn)`, with a
negative axis taken as the `u64` of its bit pattern, a `PCOUNT` that is not
positive taken as zero and such a `GCOUNT` as one. -/
def declaredRawSize (cards : List Card) : Nat :=
  let pcount := (parseKeyword cards (str "PCOUNT")).getD 0
  let gcount := (parseKeyword cards (str "GCOUNT")).getD 1
  let naxis := asU64 ((parseKeyword cards (str "NAXIS")).getD 0)
  ((parseKeyword cards (str "BITPIX")).getD 0).natAbs / 8 *
    (if 0 < gcount then gcount.toNat else 1) *
    (declaredProduct cards 1 naxis 1 + pcount.toNat)

/-- The size of the data section a header declares. -/
def declaredDataSize (cards : List Card) : Nat :=
  if asU64 ((parseKeyword cards (str "NAXIS")).getD 0) = 0 then 0
  else roundUpToBlock (declaredRawSize cards)

/-- The magnitude of BITPIX is computed, and does not exist. -/
def BitpixOverflows (cards : List Card) : Prop :=
  (parseKeyword cards (str "BITPIX")).getD 0 = i64Min ∧
    asU64 ((parseKeyword cards (str "NAXIS")).getD 0) ≠ 0

theorem inI64_of_parseKeyword {cards : List Card} {key : Str} {v : Int}
    (h : parseKeyword cards key = some v) : InI64 v := by
  induction cards with
  | nil => simp [parseKeyword] at h
  | cons card rest ih =>
    rw [parseKeyword] at h
    split_ifs at h
    · split at h
      · exact inI64_of_parseI64 h
      · exact ih h
    · exact ih h

theorem inI64_getD {cards : List Card} {key : Str} {d : Int} (hd : InI64 d) :
    InI64 ((parseKeyword cards key).getD d) := by
  cases h : parseKeyword cards key with
  | none => simpa using hd
  | some v => simpa using inI64_of_parseKeyword h

theorem asU64_of_inI64 {v : Int} (h : InI64 v) (h0 : 0 ≤ v) : asU64 v = v.toNat := by
  apply asU64_of_nonneg h0
  have := h.2
  unfold u64Size
  omega

/-- The saturating product is the exact one, cut off once. -/
theorem axisProduct_eq (cards : List Card) :
    ∀ (count i product : Nat),
      axisProduct cards i count (min product (u64Size - 1)) =
        min (declaredProduct cards i count product) (u64Size - 1) := by
  intro count
  induction count with
  | zero => intro i product; rfl
  | succ count ih =>
    intro i product
    rw [axisProduct, declaredProduct]
    cases parseKeyword cards (naxisKey i) with
    | none => exact ih _ _
    | some dim =>
      have hdim : asU64 dim = min (asU64 dim) (u64Size - 1) := by
        have := asU64_lt dim
        omega
      have hmul : saturatingMul (min product (u64Size - 1)) (asU64 dim) =
          min (product * asU64 dim) (u64Size - 1) := by
        rw [hdim, saturatingMul_min, ← hdim]
      simp only [hmul]
      exact ih _ _

/-- The saturated size before rounding is the declared one, cut off once. -/
theorem rawSize_eq {bitpix pcount gcount : Int} (product : Nat) (hbit : InI64 bitpix)
    (hmin : bitpix ≠ i64Min) (hpc : InI64 pcount) (hgc : InI64 gcount) :
    saturatingMul
        (saturatingMul (asU64 ((absI64 bitpix).val.tdiv 8))
          (if 0 < gcount then asU64 gcount else 1))
        (saturatingAdd (min product (u64Size - 1)) (if 0 < pcount then asU64 pcount else 0)) =
      min (bitpix.natAbs / 8 * (if 0 < gcount then gcount.toNat else 1) *
        (product + pcount.toNat)) (u64Size - 1) := by
  have hbpp : asU64 ((absI64 bitpix).val.tdiv 8) = min (bitpix.natAbs / 8) (u64Size - 1) := by
    rw [val_absI64 hmin]
    have hval : ((bitpix.natAbs : Int)).tdiv 8 = ((bitpix.natAbs / 8 : Nat) : Int) :=
      (Int.ofNat_tdiv _ _).symm
    have hle : bitpix.natAbs / 8 ≤ u64Size - 1 := by
      unfold InI64 at hbit
      unfold u64Size
      omega
    rw [hval, asU64_of_nonneg (by omega) (by unfold u64Size at *; omega)]
    omega
  have hg : (if 0 < gcount then asU64 gcount else 1) =
      min (if 0 < gcount then gcount.toNat else 1) (u64Size - 1) := by
    split_ifs with h
    · rw [asU64_of_inI64 hgc (by omega)]
      unfold InI64 at hgc
      unfold u64Size
      omega
    · rfl
  have hp : (if 0 < pcount then asU64 pcount else 0) = pcount.toNat := by
    split_ifs with h
    · exact asU64_of_inI64 hpc (by omega)
    · omega
  rw [hbpp, hg, hp, saturatingAdd_min, saturatingMul_min, saturatingMul_min]

/-- Rounding the saturated size overflows exactly when the rounded declared size
is not a `u64`: the greatest `u64` is not a multiple of the block size. -/
theorem roundUp_min_lt_iff (raw : Nat) :
    roundUpToBlock (min raw (u64Size - 1)) < u64Size ↔ roundUpToBlock raw < u64Size := by
  rw [roundUpToBlock_eq, roundUpToBlock_eq]
  unfold u64Size
  omega

/-- Unless the magnitude of BITPIX overflows, the only operation that can is the
last multiplication. -/
theorem calculateDataSize_eq {cards : List Card} (h : ¬ BitpixOverflows cards) :
    calculateDataSize cards =
      if asU64 ((parseKeyword cards (str "NAXIS")).getD 0) = 0 then pure 0
      else
        ⟨roundUpToBlock (min (declaredRawSize cards) (u64Size - 1)) % u64Size,
          decide (u64Size ≤ roundUpToBlock (min (declaredRawSize cards) (u64Size - 1)))⟩ := by
  have hbit : InI64 ((parseKeyword cards (str "BITPIX")).getD 0) := inI64_getD (by decide)
  have hpc : InI64 ((parseKeyword cards (str "PCOUNT")).getD 0) := inI64_getD (by decide)
  have hgc : InI64 ((parseKeyword cards (str "GCOUNT")).getD 1) := inI64_getD (by decide)
  have hprod := axisProduct_eq cards (asU64 ((parseKeyword cards (str "NAXIS")).getD 0)) 1 1
  rw [show min 1 (u64Size - 1) = 1 by decide] at hprod
  unfold BitpixOverflows at h
  unfold calculateDataSize declaredRawSize
  simp only [hprod]
  generalize (parseKeyword cards (str "BITPIX")).getD 0 = bitpix at *
  generalize (parseKeyword cards (str "PCOUNT")).getD 0 = pcount at *
  generalize (parseKeyword cards (str "GCOUNT")).getD 1 = gcount at *
  generalize asU64 ((parseKeyword cards (str "NAXIS")).getD 0) = naxis at *
  have hzero : roundUpToBlock 0 = 0 := rfl
  by_cases hn : naxis = 0
  · rw [if_pos (Or.inr hn), if_pos hn]
  · rw [if_neg hn]
    by_cases hb : bitpix = 0
    · rw [if_pos (Or.inl hb), hb]
      simp [hzero]
      rfl
    · have hmin : bitpix ≠ i64Min := fun he => h ⟨he, hn⟩
      have hne : ¬ (bitpix = 0 ∨ naxis = 0) := fun h0 => h0.elim hb hn
      have habs : absI64 bitpix = pure (absI64 bitpix).val := by
        unfold absI64
        rw [if_neg hmin]
        rfl
      rw [if_neg hne]
      rw [habs]
      simp only [pure_bind]
      rw [rawSize_eq _ hbit hmin hpc hgc]
      generalize min (_ * _ * _) (u64Size - 1) = raw
      split_ifs with hraw
      · rw [hraw, hzero]
        rfl
      · rfl

/-- `calculate_data_size` overflows exactly when the magnitude of BITPIX does or
the declared size is not a `u64`. -/
theorem calculateDataSize_overflow (cards : List Card) :
    (calculateDataSize cards).overflow = false ↔
      ¬ BitpixOverflows cards ∧ declaredDataSize cards < u64Size := by
  by_cases hb : BitpixOverflows cards
  · have hover : (calculateDataSize cards).overflow = true := by
      obtain ⟨hmin, hn⟩ := hb
      unfold calculateDataSize
      simp only [hmin]
      rw [if_neg (by simp [hn, i64Min])]
      simp [absI64]
    simp [hover, hb]
  · rw [calculateDataSize_eq hb, declaredDataSize]
    split_ifs with hn
    · simp [hb, u64Size]
    · simp [hb, roundUp_min_lt_iff]

/-- Without an overflow `calculate_data_size` is the declared size. -/
theorem calculateDataSize_val {cards : List Card}
    (h : (calculateDataSize cards).overflow = false) :
    (calculateDataSize cards).val = declaredDataSize cards := by
  obtain ⟨hb, hlt⟩ := (calculateDataSize_overflow cards).1 h
  rw [calculateDataSize_eq hb]
  unfold declaredDataSize at hlt ⊢
  split_ifs with hn
  · rfl
  · rw [if_neg hn] at hlt
    have hle := le_roundUpToBlock (declaredRawSize cards)
    rw [Nat.min_eq_left (by omega)]
    exact Nat.mod_eq_of_lt hlt

/-! ## The offset of the next HDU -/

/-- Where the HDU at `offset` ends by its own header. -/
def declaredEnd (cards : List Card) (offset : Nat) : Nat :=
  offset + headerBlocks cards.length * blockSize + declaredDataSize cards

/-- The offset arithmetic of one iteration overflows exactly when the magnitude
of BITPIX does or the declared end is not a `u64`. -/
theorem hduExtent_overflow (cards : List Card) (offset : Nat) :
    (hduExtent cards offset).overflow = false ↔
      ¬ BitpixOverflows cards ∧ declaredEnd cards offset < u64Size := by
  unfold hduExtent declaredEnd
  simp only [Wrapped.overflow_bind, Wrapped.overflow_pure, Bool.or_false, Bool.or_eq_false_iff]
  constructor
  · rintro ⟨h1, h2, h3, h4, h5⟩
    rw [val_mulU64 h1] at h2 h4 h5
    rw [val_addU64 h4, calculateDataSize_val h3] at h5
    have hlt := (overflow_addU64 _ _).1 h5
    exact ⟨((calculateDataSize_overflow cards).1 h3).1, by omega⟩
  · rintro ⟨hb, hlt⟩
    have h1 : (mulU64 (headerBlocks cards.length) blockSize).overflow = false :=
      (overflow_mulU64 _ _).2 (by omega)
    have h3 : (calculateDataSize cards).overflow = false :=
      (calculateDataSize_overflow cards).2 ⟨hb, by omega⟩
    have h4 : (addU64 (headerBlocks cards.length * blockSize) (declaredDataSize cards)).overflow
        = false := (overflow_addU64 _ _).2 (by omega)
    rw [val_mulU64 h1, calculateDataSize_val h3, val_addU64 h4]
    exact ⟨h1, (overflow_addU64 _ _).2 (by omega), h3, h4, (overflow_addU64 _ _).2 (by omega)⟩

/-- Without an overflow an iteration computes the positions the header declares. -/
theorem hduExtent_exact {cards : List Card} {offset : Nat}
    (h : (hduExtent cards offset).overflow = false) :
    (hduExtent cards offset).val =
      (offset + headerBlocks cards.length * blockSize, declaredEnd cards offset) := by
  unfold hduExtent at h ⊢
  simp only [Wrapped.overflow_bind, Wrapped.overflow_pure, Bool.or_false, Bool.or_eq_false_iff] at h
  obtain ⟨h1, h2, h3, h4, h5⟩ := h
  simp only [Wrapped.val_bind, Wrapped.val_pure]
  rw [val_addU64 h2, val_addU64 h5, val_addU64 h4, val_mulU64 h1, calculateDataSize_val h3,
    declaredEnd, Nat.add_assoc]

/-! ## Visited and declared header positions -/

section

variable (lenient : Bool) (bytes : Bytes)

/-- The parser accepts the header at `offset`. -/
def HeaderAt (isPrimary : Bool) (offset : Nat) (cards : List Card) : Prop :=
  readHeader lenient bytes offset = .ok cards ∧ cards ≠ [] ∧
    validateHeader cards isPrimary = .ok ()

/-- The offsets at which the loop starts an iteration; the flag says that no HDU
was found yet. -/
inductive Visited : Bool → Nat → Prop where
  | first : Visited true 0
  | next {isPrimary : Bool} {offset : Nat} {cards : List Card} :
      Visited isPrimary offset → HeaderAt lenient bytes isPrimary offset cards →
      (hduExtent cards offset).val.2 < bytes.length →
      Visited false (hduExtent cards offset).val.2

/-- The offsets at which a header is due by the declared ends of those before. -/
inductive Declared : Bool → Nat → Prop where
  | first : Declared true 0
  | next {isPrimary : Bool} {offset : Nat} {cards : List Card} :
      Declared isPrimary offset → HeaderAt lenient bytes isPrimary offset cards →
      declaredEnd cards offset < bytes.length →
      Declared false (declaredEnd cards offset)

/-- Opening is arithmetically safe: the loop stops, the running offset grows at
each HDU, no computation overflows, and the offsets of an opened file fit its
headers. -/
structure OpenSafe : Prop where
  terminates : ∃ fuel result, parseHdusFromFile lenient bytes fuel = some result
  increases : ∀ isPrimary offset cards, Visited lenient bytes isPrimary offset →
    HeaderAt lenient bytes isPrimary offset cards → offset < (hduExtent cards offset).val.2
  noOverflow : ∀ isPrimary offset cards, Visited lenient bytes isPrimary offset →
    HeaderAt lenient bytes isPrimary offset cards → (hduExtent cards offset).overflow = false
  dataOffsets : ∀ fuel hdus, parseHdusFromFile lenient bytes fuel = some (.ok hdus) →
    ∀ h ∈ hdus,
      h.offsets.dataOffset = h.offsets.headerOffset + blockSize * h.offsets.headerBlockCount
  headersApart : ∀ fuel hdus, parseHdusFromFile lenient bytes fuel = some (.ok hdus) →
    hdus.IsChain fun a b =>
      a.offsets.headerOffset + blockSize * a.offsets.headerBlockCount ≤ b.offsets.headerOffset

/-- Every header that is due declares a size that fits: BITPIX has a magnitude
where it is used, and the declared end is a `u64`. -/
def DeclaredSizesFit : Prop :=
  ∀ isPrimary offset cards, Declared lenient bytes isPrimary offset →
    HeaderAt lenient bytes isPrimary offset cards →
    ¬ BitpixOverflows cards ∧ declaredEnd cards offset < u64Size

variable {lenient bytes}

theorem declared_of_visited (hfit : DeclaredSizesFit lenient bytes) {isPrimary : Bool}
    {offset : Nat} (h : Visited lenient bytes isPrimary offset) :
    Declared lenient bytes isPrimary offset := by
  induction h with
  | first => exact .first
  | next _ hat hlt ih =>
    have hexact := hduExtent_exact ((hduExtent_overflow _ _).2 (hfit _ _ _ ih hat))
    rw [hexact] at hlt ⊢
    exact .next ih hat hlt

theorem visited_of_declared
    (hno : ∀ isPrimary offset cards, Visited lenient bytes isPrimary offset →
      HeaderAt lenient bytes isPrimary offset cards → (hduExtent cards offset).overflow = false)
    {isPrimary : Bool} {offset : Nat} (h : Declared lenient bytes isPrimary offset) :
    Visited lenient bytes isPrimary offset := by
  induction h with
  | first => exact .first
  | next _ hat hlt ih =>
    have hend := congrArg Prod.snd (hduExtent_exact (hno _ _ _ ih hat))
    dsimp only at hend
    rw [← hend] at hlt ⊢
    exact .next ih hat hlt

/-- One iteration succeeds with an HDU exactly at an accepted header. -/
theorem parseHdu_eq_some {isPrimary : Bool} {offset next : Nat} {hdu : Hdu}
    (h : parseHdu lenient bytes isPrimary offset = .ok (some (hdu, next))) :
    ∃ cards, HeaderAt lenient bytes isPrimary offset cards ∧
      hdu = ⟨cards, ⟨offset, headerBlocks cards.length, (hduExtent cards offset).val.1⟩,
        hduKind cards⟩ ∧
      next = (hduExtent cards offset).val.2 := by
  unfold parseHdu at h
  cases hread : readHeader lenient bytes offset with
  | error e => simp [hread] at h
  | ok cards =>
    simp only [hread] at h
    split_ifs at h with hempty
    · simp at h
    · cases hval : validateHeader cards isPrimary with
      | error e => simp [hval] at h
      | ok u =>
        simp only [hval, Except.ok.injEq, Option.some.injEq, Prod.mk.injEq] at h
        refine ⟨cards, ⟨hread, by simpa using hempty, hval⟩, h.1.symm, h.2.symm⟩

theorem isEmpty_concat (hdus : List Hdu) (hdu : Hdu) : (hdus ++ [hdu]).isEmpty = false := by
  cases hdus <;> rfl

/-- With the offset growing at each HDU the loop stops after at most one
iteration per remaining byte. -/
theorem parseLoop_terminates
    (hinc : ∀ isPrimary offset cards, Visited lenient bytes isPrimary offset →
      HeaderAt lenient bytes isPrimary offset cards → offset < (hduExtent cards offset).val.2) :
    ∀ (fuel offset : Nat) (hdus : List Hdu), Visited lenient bytes hdus.isEmpty offset →
      bytes.length - offset < fuel → ∃ result, parseLoop lenient bytes fuel offset hdus =
        some result := by
  intro fuel
  induction fuel with
  | zero => intro offset hdus _ hfuel; omega
  | succ fuel ih =>
    intro offset hdus hv hfuel
    rw [parseLoop]
    split
    · exact ⟨_, rfl⟩
    · exact ⟨_, rfl⟩
    · rename_i hdu next hstep
      split_ifs with hlen
      · exact ⟨_, rfl⟩
      · obtain ⟨cards, hat, -, rfl⟩ := parseHdu_eq_some hstep
        have hlt := hinc _ _ _ hv hat
        refine ih _ _ ?_ (by omega)
        rw [isEmpty_concat]
        exact Visited.next hv hat (by omega)

/-- The HDUs found so far have consistent offsets and end at or before `offset`. -/
def OffsetsUpTo (offset : Nat) (hdus : List Hdu) : Prop :=
  (∀ h ∈ hdus,
    h.offsets.dataOffset = h.offsets.headerOffset + blockSize * h.offsets.headerBlockCount) ∧
  (hdus.IsChain fun a b =>
    a.offsets.headerOffset + blockSize * a.offsets.headerBlockCount ≤ b.offsets.headerOffset) ∧
  ∀ h ∈ hdus.getLast?,
    h.offsets.headerOffset + blockSize * h.offsets.headerBlockCount ≤ offset

/-- One more HDU keeps the offsets consistent. -/
theorem offsetsUpTo_append {offset : Nat} {hdus : List Hdu} {cards : List Card}
    (h : OffsetsUpTo offset hdus) (hno : (hduExtent cards offset).overflow = false) :
    OffsetsUpTo (hduExtent cards offset).val.2
      (hdus ++ [⟨cards, ⟨offset, headerBlocks cards.length, (hduExtent cards offset).val.1⟩,
        hduKind cards⟩]) := by
  rw [hduExtent_exact hno]
  obtain ⟨hdata, hchain, hlast⟩ := h
  refine ⟨?_, ?_, ?_⟩
  · intro h hmem
    rcases List.mem_append.1 hmem with hmem | hmem
    · exact hdata h hmem
    · rw [List.mem_singleton.1 hmem, Nat.mul_comm]
  · refine List.isChain_append.2 ⟨hchain, List.isChain_singleton _, ?_⟩
    intro a ha b hb
    simp only [List.head?_cons, Option.mem_def, Option.some.injEq] at hb
    rw [← hb]
    exact hlast a ha
  · intro h hmem
    simp only [List.getLast?_append, List.getLast?_singleton, Option.some_or, Option.mem_def,
      Option.some.injEq] at hmem
    rw [← hmem]
    simp only [declaredEnd, Nat.mul_comm]
    omega

theorem parseLoop_offsets
    (hno : ∀ isPrimary offset cards, Visited lenient bytes isPrimary offset →
      HeaderAt lenient bytes isPrimary offset cards → (hduExtent cards offset).overflow = false) :
    ∀ (fuel offset : Nat) (hdus result : List Hdu), Visited lenient bytes hdus.isEmpty offset →
      OffsetsUpTo offset hdus → parseLoop lenient bytes fuel offset hdus = some (.ok result) →
      ∃ last, OffsetsUpTo last result := by
  intro fuel
  induction fuel with
  | zero => intro offset hdus result _ _ h; simp [parseLoop] at h
  | succ fuel ih =>
    intro offset hdus result hv hup h
    rw [parseLoop] at h
    split at h
    · simp at h
    · simp only [Option.some.injEq, Except.ok.injEq] at h
      exact ⟨offset, h ▸ hup⟩
    · rename_i hdu next hstep
      obtain ⟨cards, hat, rfl, rfl⟩ := parseHdu_eq_some hstep
      have hup' := offsetsUpTo_append hup (hno _ _ _ hv hat)
      split_ifs at h with hlen
      · simp only [Option.some.injEq, Except.ok.injEq] at h
        exact ⟨_, h ▸ hup'⟩
      · refine ih _ _ _ ?_ hup' h
        rw [isEmpty_concat]
        exact Visited.next hv hat (by omega)

/-- Opening is safe exactly on the files whose headers declare sizes that fit. -/
theorem openSafe_iff_declaredSizesFit (lenient : Bool) (bytes : Bytes) :
    OpenSafe lenient bytes ↔ DeclaredSizesFit lenient bytes := by
  constructor
  · intro hsafe isPrimary offset cards hdecl hat
    have hv := visited_of_declared hsafe.noOverflow hdecl
    exact (hduExtent_overflow _ _).1 (hsafe.noOverflow _ _ _ hv hat)
  · intro hfit
    have hno : ∀ isPrimary offset cards, Visited lenient bytes isPrimary offset →
        HeaderAt lenient bytes isPrimary offset cards →
        (hduExtent cards offset).overflow = false := by
      intro isPrimary offset cards hv hat
      exact (hduExtent_overflow _ _).2 (hfit _ _ _ (declared_of_visited hfit hv) hat)
    have hinc : ∀ isPrimary offset cards, Visited lenient bytes isPrimary offset →
        HeaderAt lenient bytes isPrimary offset cards →
        offset < (hduExtent cards offset).val.2 := by
      intro isPrimary offset cards hv hat
      rw [hduExtent_exact (hno _ _ _ hv hat)]
      have hpos := (readHeader_fits hat.1 hat.2.1).1
      simp only [declaredEnd, blockSize]
      omega
    have hstart : OffsetsUpTo 0 [] := ⟨by simp, List.isChain_nil, by simp⟩
    refine ⟨?_, hinc, hno, ?_, ?_⟩
    · obtain ⟨result, h⟩ :=
        parseLoop_terminates hinc (bytes.length + 1) 0 [] .first (by omega)
      exact ⟨_, result, h⟩
    · intro fuel hdus h
      obtain ⟨_, hup⟩ := parseLoop_offsets hno fuel 0 [] hdus .first hstart h
      exact hup.1
    · intro fuel hdus h
      obtain ⟨_, hup⟩ := parseLoop_offsets hno fuel 0 [] hdus .first hstart h
      exact hup.2.1

end

/-- A primary header with one axis of length -1. -/
def negativeAxisHeader : List Card :=
  [str "SIMPLE  =                    T", str "BITPIX  =                    8",
    str "NAXIS   =                    1", str "NAXIS1  =                   -1", endCard]

theorem negativeAxisHeader_clean : CleanHeader negativeAxisHeader :=
  ⟨by decide +kernel, negativeAxisHeader.dropLast, by decide +kernel, by decide +kernel⟩

/-- On a file that is this header alone the size computation overflows. -/
theorem not_openSafe_negativeAxis :
    ¬ OpenSafe false (serializeHeaderToDiskBytes negativeAxisHeader) := by
  intro hsafe
  have hat : HeaderAt false (serializeHeaderToDiskBytes negativeAxisHeader) true 0
      negativeAxisHeader :=
    ⟨readHeader_serialize_self negativeAxisHeader_clean, by decide, by decide +kernel⟩
  have hno := hsafe.noOverflow _ _ _ .first hat
  have hover : (hduExtent negativeAxisHeader 0).overflow = true := by decide +kernel
  rw [hover] at hno
  exact Bool.noConfusion hno

end RustFits
