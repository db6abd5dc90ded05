import Mathlib.Algebra.BigOperators.Group.List.Lemmas
import Mathlib.Algebra.BigOperators.Ring.List
import RustFits.Checksum.AddChecksum
import RustFits.Image.Create
import RustFits.Lib.Fallible

/-!
# The size of a data section, computed four times

The parser computes the size of a data section (`calculate_data_size`), the checksum
methods do (`data_section_padded_size_for`), `ImageHDU.extend` does before it grows the
section, and `create_image_hdu` does before it appends one.

* `ExtentsAgree` says that the first three give one number, `PlainExtent` is the
  condition on the counts of the header.
* `extentsAgree_iff` relates them for every header that the parser accepts.
* `planImage_agrees_iff` is about a header that `create_image_hdu` writes: all four
  agree exactly when there are at most 999 axes and the size is a `u64`.
-/

namespace RustFits.Image

open Ascii ByteFile Machine Header Checksum

/-! ## The code -/

/-- The axes from `i` on. -/
def hduAxes (cards : List Card) : Nat → Nat → Except PyErr (List Nat)
  | _, 0 => .ok []
  | i, count + 1 =>
    match parseKeyword cards (naxisKey i) with
    | none => .error (.value (str "HDU header missing " ++ naxisKey i))
    | some d =>
      if d < 0 then .error (.value (naxisKey i ++ str " is negative"))
      else (hduAxes cards (i + 1) count).map (d.toNat :: ·)

/-- `parse_image_hdu_shape`: BITPIX and the axes, the slowest first. -/
def parseImageHduShape (cards : List Card) : Except PyErr (Int × List Nat) :=
  match parseKeyword cards (str "BITPIX") with
  | none => .error (.value (str "HDU header missing BITPIX"))
  | some bitpix =>
    match parseKeyword cards (str "NAXIS") with
    | none => .error (.value (str "HDU header missing NAXIS"))
    | some naxis =>
      if asU64 naxis = 0 then .error (.value (str "HDU has NAXIS=0 (no data section)"))
      else (hduAxes cards 1 (asU64 naxis)).map fun axes => (asI32 bitpix, axes.reverse)

/-- The padded size of the data section in `extend`. -/
def currentPadded (hduShape : List Nat) (bpp : Nat) : Wrapped Nat := do
  let product ← hduShape.foldlM mulU64 1
  let dataSize ← mulU64 product bpp
  mulU64 (divCeil dataSize blockSize) blockSize

/-! ## The counts of a header -/

section

variable (cards : List Card)

def naxisCount : Nat := ((parseKeyword cards (str "NAXIS")).getD 0).toNat

/-- The lengths of the axes. -/
def axes : List Int :=
  (List.range' 1 (naxisCount cards)).map fun i => (parseKeyword cards (naxisKey i)).getD 0

/-- The bytes of an element. -/
def elementBytes : Nat := ((parseKeyword cards (str "BITPIX")).getD 0).natAbs / 8

/-- The number of groups, at least one. -/
def groupCount : Nat := (max ((parseKeyword cards (str "GCOUNT")).getD 1) 1).toNat

/-- The number of parameters of a group, or the bytes of the heap. -/
def paramCount : Nat := ((parseKeyword cards (str "PCOUNT")).getD 0).toNat

/-- The number of elements; a negative axis has none. -/
def elements : Nat := ((axes cards).map Int.toNat).prod

/-- The three sizes are one number, which the parser computes without a wrap. -/
structure ExtentsAgree : Prop where
  parsed : (calculateDataSize cards).overflow = false
  checksummed : dataSectionPaddedSizeFor cards = .ok (calculateDataSize cards).val
  extended : hduKind cards = .image → ∀ bitpix hduShape bpp,
    parseImageHduShape cards = .ok (bitpix, hduShape) → bitpixToNumpyKind bitpix = .ok bpp →
      (currentPadded hduShape bpp).val = (calculateDataSize cards).val

/-- The padding behind `n` bytes. -/
def room (n : Nat) : Nat := roundUpToBlock n - n

/-- The counts for which it makes no difference where PCOUNT and GCOUNT stand in the
formula: the bytes by which the sizes differ fit in the padding. -/
structure PlainExtent : Prop where
  fits : (parseKeyword cards (str "BITPIX")).getD 0 ≠ i64Min ∧
    roundUpToBlock (elementBytes cards * groupCount cards * (elements cards + paramCount cards)) <
      u64Size
  signs : (∃ d ∈ axes cards, d < 0) → 0 ∈ axes cards ∨ elementBytes cards = 0
  heap : (elementBytes cards = 0 → paramCount cards = 0) ∧
    (elementBytes cards * groupCount cards - 1) * paramCount cards ≤
      room (elementBytes cards * groupCount cards * elements cards + paramCount cards)
  image : hduKind cards = .image → (∀ d ∈ axes cards, 0 ≤ d) → ∀ bpp,
    bitpixToNumpyKind (asI32 ((parseKeyword cards (str "BITPIX")).getD 0)) = .ok bpp →
      (asI32 ((parseKeyword cards (str "BITPIX")).getD 0) =
          (parseKeyword cards (str "BITPIX")).getD 0 ∨
          elements cards + paramCount cards = 0) ∧
        elementBytes cards * (groupCount cards - 1) * elements cards +
            elementBytes cards * groupCount cards * paramCount cards ≤
          room (elementBytes cards * elements cards)

/-- BITPIX, NAXIS and the axes are there. -/
structure Counted : Prop where
  bitpix : (parseKeyword cards (str "BITPIX")).isSome = true
  naxis : ∃ n : Int, parseKeyword cards (str "NAXIS") = some n ∧ 0 ≤ n
  axes : ∀ i, 1 ≤ i → i < 1 + naxisCount cards → (parseKeyword cards (naxisKey i)).isSome = true

end

section

variable {cards : List Card}

theorem counted_of_valid {isPrimary : Bool} (hvalid : validateHeader cards isPrimary = .ok ()) :
    Counted cards := by
  obtain ⟨bitpix, naxis, hbitpix, hnaxis, hnonneg, haxes⟩ := accepted_counts hvalid
  refine ⟨by rw [hbitpix]; rfl, ⟨naxis, hnaxis, hnonneg⟩, fun i hi hlt => ?_⟩
  rw [naxisCount, hnaxis, Option.getD_some] at hlt
  exact axis_isSome haxes i hi hlt

theorem asU64_naxis (hc : Counted cards) :
    asU64 ((parseKeyword cards (str "NAXIS")).getD 0) = naxisCount cards := by
  obtain ⟨n, hn, hnonneg⟩ := hc.naxis
  rw [naxisCount, hn, Option.getD_some, asU64_of_inI64 (inI64_of_parseKeyword hn) hnonneg]

theorem axes_eq_nil_iff : axes cards = [] ↔ naxisCount cards = 0 := by
  rw [axes, List.map_eq_nil_iff, List.range'_eq_nil_iff]

/-- The product of the axes as bit patterns. -/
theorem declaredProduct_eq : ∀ (count i product : Nat),
    (∀ j, i ≤ j → j < i + count → (parseKeyword cards (naxisKey j)).isSome = true) →
    declaredProduct cards i count product = product * ((List.range' i count).map fun j =>
      asU64 ((parseKeyword cards (naxisKey j)).getD 0)).prod := by
  intro count
  induction count with
  | zero =>
    intro i product _
    simp [declaredProduct]
  | succ count ih =>
    intro i product hsome
    obtain ⟨d, hd⟩ := Option.isSome_iff_exists.1 (hsome i (Nat.le_refl i) (by omega))
    rw [declaredProduct, hd]
    dsimp only
    rw [ih _ _ fun j hj hlt => hsome j (by omega) (by omega), List.range'_succ, List.map_cons,
      List.prod_cons, hd, Option.getD_some, Nat.mul_assoc]

/-- The product of the checksum methods. -/
theorem sectionElements_eq_prod : ∀ (count i product : Nat),
    sectionElements cards i count (min product (u64Size - 1)) =
      min (product * ((List.range' i count).map fun j =>
        ((parseKeyword cards (naxisKey j)).getD 0).toNat).prod) (u64Size - 1) := by
  intro count
  induction count with
  | zero =>
    intro i product
    simp [sectionElements]
  | succ count ih =>
    intro i product
    have hrange : InI64 ((parseKeyword cards (naxisKey i)).getD 0) := inI64_getD (by decide)
    have hcut : ((parseKeyword cards (naxisKey i)).getD 0).toNat =
        min ((parseKeyword cards (naxisKey i)).getD 0).toNat (u64Size - 1) := by
      unfold InI64 at hrange
      unfold u64Size
      omega
    rw [sectionElements, hcut, saturatingMul_min, ih, List.range'_succ, List.map_cons,
      List.prod_cons, Nat.mul_assoc]

/-- The wrapping product. -/
theorem foldlM_mulU64_val (shape : List Nat) {a : Nat} (ha : a < u64Size) :
    (shape.foldlM mulU64 a).val = a * shape.prod % u64Size := by
  induction shape generalizing a with
  | nil => simpa using (Nat.mod_eq_of_lt ha).symm
  | cons d shape ih =>
    rw [List.foldlM_cons, Wrapped.val_bind, List.prod_cons]
    show (shape.foldlM mulU64 (a * d % u64Size)).val = _
    rw [ih (Nat.mod_lt _ (by decide)), Nat.mod_mul_mod, Nat.mul_assoc]

theorem currentPadded_val (shape : List Nat) (bpp : Nat) :
    (currentPadded shape bpp).val = roundUpToBlock (shape.prod * bpp % u64Size) % u64Size := by
  have hprod := foldlM_mulU64_val shape (by decide : 1 < u64Size)
  rw [Nat.one_mul] at hprod
  show divCeil ((shape.foldlM mulU64 1).val * bpp % u64Size) blockSize * blockSize % u64Size = _
  rw [hprod, Nat.mod_mul_mod]
  rfl

/-- The product of the bit patterns and that of the lengths. -/
theorem prod_of_signs {dims : List Int} (hrange : ∀ d ∈ dims, InI64 d) :
    ((∃ d ∈ dims, d < 0) → 0 ∈ dims) ∧
        (dims.map asU64).prod = (dims.map Int.toNat).prod ∨
      ((∃ d ∈ dims, d < 0) ∧ 0 ∉ dims) ∧ (dims.map Int.toNat).prod = 0 ∧
        9223372036854775808 ≤ (dims.map asU64).prod := by
  by_cases hneg : ∃ d ∈ dims, d < 0
  · obtain ⟨d, hd, hlt⟩ := hneg
    have hlengths : (dims.map Int.toNat).prod = 0 :=
      List.prod_eq_zero (List.mem_map.2 ⟨d, hd, by omega⟩)
    by_cases hzero : 0 ∈ dims
    · refine Or.inl ⟨fun _ => hzero, ?_⟩
      rw [hlengths]
      exact List.prod_eq_zero (List.mem_map.2 ⟨0, hzero, rfl⟩)
    · refine Or.inr ⟨⟨⟨d, hd, hlt⟩, hzero⟩, hlengths, ?_⟩
      have hpos : 0 < (dims.map asU64).prod := by
        apply Nat.pos_of_ne_zero
        intro hprod
        obtain ⟨e, he, hpattern⟩ := List.mem_map.1 (List.prod_eq_zero_iff.1 hprod)
        have hrange := hrange e he
        have hne : e ≠ 0 := fun h0 => hzero (h0 ▸ he)
        simp only [asU64, u64Size] at hpattern
        unfold InI64 at hrange
        omega
      have hfactor : 9223372036854775808 ≤ asU64 d := by
        have hrange := hrange d hd
        unfold asU64 u64Size
        unfold InI64 at hrange
        omega
      exact hfactor.trans (Nat.le_of_dvd hpos (List.dvd_prod (List.mem_map_of_mem hd)))
  · refine Or.inl ⟨fun h => absurd h hneg, congrArg List.prod (List.map_congr_left fun d hd => ?_)⟩
    have hnonneg : 0 ≤ d := by
      by_contra hlt
      exact hneg ⟨d, hd, by omega⟩
    exact asU64_of_inI64 (hrange d hd) hnonneg

theorem inI64_of_mem_axes {d : Int} (hd : d ∈ axes cards) : InI64 d := by
  obtain ⟨i, -, rfl⟩ := List.mem_map.1 hd
  exact inI64_getD (by decide)

/-- The product of the bit patterns of the axes. -/
def patternProduct (cards : List Card) : Nat := ((axes cards).map asU64).prod

theorem groupCount_eq (cards : List Card) :
    (if 0 < (parseKeyword cards (str "GCOUNT")).getD 1 then
      ((parseKeyword cards (str "GCOUNT")).getD 1).toNat else 1) = groupCount cards := by
  unfold groupCount
  split_ifs <;> omega

/-- The size that the parser computes. -/
theorem declaredDataSize_eq (hc : Counted cards) (hne : axes cards ≠ []) :
    declaredDataSize cards = roundUpToBlock (elementBytes cards * groupCount cards *
      (patternProduct cards + paramCount cards)) := by
  have hcount : naxisCount cards ≠ 0 := fun h => hne (axes_eq_nil_iff.2 h)
  unfold declaredDataSize declaredRawSize
  dsimp only
  rw [asU64_naxis hc, if_neg hcount, declaredProduct_eq _ _ _ hc.axes, Nat.one_mul, groupCount_eq,
    patternProduct, axes, List.map_map]
  rfl

/-- The size that the checksum methods compute. -/
theorem dataSectionPaddedSizeFor_eq (hc : Counted cards) (hne : axes cards ≠ []) :
    dataSectionPaddedSizeFor cards = .ok (roundUpToBlock (min (elementBytes cards *
      groupCount cards * elements cards + paramCount cards) (u64Size - 1)) % u64Size) := by
  obtain ⟨bitpix, hbitpix⟩ := Option.isSome_iff_exists.1 hc.bitpix
  obtain ⟨n, hn, hnonneg⟩ := hc.naxis
  have hcount : naxisCount cards ≠ 0 := fun h => hne (axes_eq_nil_iff.2 h)
  have hnaxis : n ≠ 0 := by
    rintro rfl
    rw [naxisCount, hn] at hcount
    exact hcount rfl
  have hproduct := @sectionElements_eq_prod cards (naxisCount cards) 1 1
  rw [show min 1 (u64Size - 1) = 1 by decide, Nat.one_mul] at hproduct
  have hbytes : elementBytes cards = min (elementBytes cards) (u64Size - 1) := by
    have hrange := inI64_of_parseKeyword hbitpix
    rw [elementBytes, hbitpix, Option.getD_some]
    unfold InI64 at hrange
    unfold u64Size
    omega
  have hgroups : groupCount cards = min (groupCount cards) (u64Size - 1) := by
    have hrange : InI64 ((parseKeyword cards (str "GCOUNT")).getD 1) := inI64_getD (by decide)
    unfold InI64 at hrange
    unfold groupCount u64Size
    omega
  have hsize : saturatingAdd (saturatingMul (saturatingMul (elementBytes cards)
      (min (elements cards) (u64Size - 1))) (groupCount cards)) (paramCount cards) =
        min (elementBytes cards * groupCount cards * elements cards + paramCount cards)
          (u64Size - 1) := by
    rw [hbytes, saturatingMul_min, hgroups, saturatingMul_min, saturatingAdd_min, ← hbytes,
      ← hgroups, Nat.mul_right_comm]
  have helements : sectionElements cards 1 n.toNat 1 = min (elements cards) (u64Size - 1) := by
    rw [naxisCount, hn, Option.getD_some] at hproduct
    rw [hproduct, elements, axes, naxisCount, hn, Option.getD_some, List.map_map]
    rfl
  unfold dataSectionPaddedSizeFor
  rw [hn, hbitpix, Option.getD_some, if_neg hnaxis]
  dsimp only
  rw [helements, ← hsize, elementBytes, hbitpix, Option.getD_some]
  rfl

/-- The axes are read when none is missing or negative. -/
theorem hduAxes_eq_ok_iff : ∀ (count i : Nat) (l : List Nat),
    (∀ j, i ≤ j → j < i + count → (parseKeyword cards (naxisKey j)).isSome = true) →
    (hduAxes cards i count = .ok l ↔
      (∀ d ∈ (List.range' i count).map fun j => (parseKeyword cards (naxisKey j)).getD 0, 0 ≤ d) ∧
        l = ((List.range' i count).map fun j => (parseKeyword cards (naxisKey j)).getD 0).map
          Int.toNat) := by
  intro count
  induction count with
  | zero =>
    intro i l _
    simp [hduAxes, eq_comm]
  | succ count ih =>
    intro i l hsome
    obtain ⟨d, hd⟩ := Option.isSome_iff_exists.1 (hsome i (Nat.le_refl i) (by omega))
    have ih := fun l => ih (i + 1) l fun j hj hlt => hsome j (by omega) (by omega)
    rw [hduAxes, hd, List.range'_succ, List.map_cons, List.map_cons, hd, Option.getD_some,
      List.forall_mem_cons]
    dsimp only
    split_ifs with hneg
    · exact iff_of_false (by simp) fun h => absurd h.1.1 (by omega)
    · rw [map_eq_ok_iff]
      constructor
      · rintro ⟨rest, hrest, rfl⟩
        obtain ⟨hall, rfl⟩ := (ih rest).1 hrest
        exact ⟨⟨by omega, hall⟩, rfl⟩
      · rintro ⟨⟨-, hall⟩, rfl⟩
        exact ⟨_, (ih _).2 ⟨hall, rfl⟩, rfl⟩

theorem parseImageHduShape_eq_ok_iff (hc : Counted cards) (hne : axes cards ≠ [])
    {bitpix : Int} {hduShape : List Nat} :
    parseImageHduShape cards = .ok (bitpix, hduShape) ↔ (∀ d ∈ axes cards, 0 ≤ d) ∧
      bitpix = asI32 ((parseKeyword cards (str "BITPIX")).getD 0) ∧
        hduShape = ((axes cards).map Int.toNat).reverse := by
  obtain ⟨v, hv⟩ := Option.isSome_iff_exists.1 hc.bitpix
  obtain ⟨n, hn, hnonneg⟩ := hc.naxis
  have hcount : naxisCount cards ≠ 0 := fun h => hne (axes_eq_nil_iff.2 h)
  have hnaxis : asU64 n = naxisCount cards := by
    rw [← asU64_naxis hc, hn, Option.getD_some]
  unfold parseImageHduShape
  rw [hv, hn, Option.getD_some]
  dsimp only
  rw [hnaxis, if_neg hcount, map_eq_ok_iff]
  constructor
  · rintro ⟨l, hl, heq⟩
    obtain ⟨hall, rfl⟩ := (hduAxes_eq_ok_iff _ _ _ hc.axes).1 hl
    obtain ⟨rfl, rfl⟩ := Prod.mk.inj heq
    exact ⟨hall, rfl, rfl⟩
  · rintro ⟨hall, rfl, rfl⟩
    exact ⟨_, (hduAxes_eq_ok_iff _ _ _ hc.axes).2 ⟨hall, rfl⟩, rfl⟩

/-! ## The sizes as numbers -/

theorem roundUp_eq_iff {m n : Nat} (h : m ≤ n) :
    roundUpToBlock m = roundUpToBlock n ↔ n - m ≤ room m := by
  rw [room, roundUpToBlock_eq, roundUpToBlock_eq]
  omega

/-- The parser wraps nowhere when the size is a `u64` and BITPIX has a magnitude. -/
theorem parsed_iff (hc : Counted cards) (hne : axes cards ≠ []) :
    (calculateDataSize cards).overflow = false ↔
      (parseKeyword cards (str "BITPIX")).getD 0 ≠ i64Min ∧
        roundUpToBlock (elementBytes cards * groupCount cards *
          (patternProduct cards + paramCount cards)) < u64Size := by
  have hcount : naxisCount cards ≠ 0 := fun h => hne (axes_eq_nil_iff.2 h)
  rw [calculateDataSize_overflow, declaredDataSize_eq hc hne, BitpixOverflows, asU64_naxis hc]
  simp [hcount]

/-- Without a size there is none to disagree about. -/
theorem extentsAgree_of_no_axes (hc : Counted cards) (hnil : axes cards = []) :
    ExtentsAgree cards := by
  have hcount := axes_eq_nil_iff.1 hnil
  obtain ⟨n, hn, hnonneg⟩ := hc.naxis
  have hzero : n = 0 := by
    rw [naxisCount, hn, Option.getD_some] at hcount
    omega
  have hsize : declaredDataSize cards = 0 := by
    rw [declaredDataSize, if_pos (by rw [asU64_naxis hc, hcount])]
  have hparsed : (calculateDataSize cards).overflow = false := by
    refine (calculateDataSize_overflow cards).2 ⟨fun h => h.2 ?_, ?_⟩
    · rw [asU64_naxis hc, hcount]
    · rw [hsize]
      decide
  refine ⟨hparsed, ?_, ?_⟩
  · rw [calculateDataSize_val hparsed, hsize, dataSectionPaddedSizeFor, hn, Option.getD_some,
      if_pos hzero]
  · intro _ bitpix hduShape bpp hshape
    obtain ⟨v, hv⟩ := Option.isSome_iff_exists.1 hc.bitpix
    rw [parseImageHduShape, hv, hn, hzero] at hshape
    cases hshape

/-- The three sizes as numbers. -/
theorem extentsAgree_iff_sizes (hc : Counted cards) (hne : axes cards ≠ []) :
    ExtentsAgree cards ↔
      ((parseKeyword cards (str "BITPIX")).getD 0 ≠ i64Min ∧
        roundUpToBlock (elementBytes cards * groupCount cards *
          (patternProduct cards + paramCount cards)) < u64Size) ∧
      roundUpToBlock (min (elementBytes cards * groupCount cards * elements cards +
          paramCount cards) (u64Size - 1)) % u64Size =
        roundUpToBlock (elementBytes cards * groupCount cards *
          (patternProduct cards + paramCount cards)) ∧
      (hduKind cards = .image → (∀ d ∈ axes cards, 0 ≤ d) → ∀ bpp,
        bitpixToNumpyKind (asI32 ((parseKeyword cards (str "BITPIX")).getD 0)) = .ok bpp →
          roundUpToBlock (elements cards * bpp % u64Size) % u64Size =
            roundUpToBlock (elementBytes cards * groupCount cards *
              (patternProduct cards + paramCount cards))) := by
  have hval : (calculateDataSize cards).overflow = false → (calculateDataSize cards).val =
      roundUpToBlock (elementBytes cards * groupCount cards *
        (patternProduct cards + paramCount cards)) := fun h => by
    rw [calculateDataSize_val h, declaredDataSize_eq hc hne]
  have hprod : ((axes cards).map Int.toNat).reverse.prod = elements cards := List.prod_reverse _
  constructor
  · rintro ⟨hparsed, hchecksummed, hextended⟩
    refine ⟨(parsed_iff hc hne).1 hparsed, ?_, fun hkind hall bpp hbpp => ?_⟩
    · rw [dataSectionPaddedSizeFor_eq hc hne, hval hparsed] at hchecksummed
      exact Except.ok.inj hchecksummed
    · have hshape := (parseImageHduShape_eq_ok_iff hc hne).2 ⟨hall, rfl, rfl⟩
      have hextended := hextended hkind _ _ _ hshape hbpp
      rwa [currentPadded_val, hprod, hval hparsed] at hextended
  · rintro ⟨hfits, hchecksummed, hextended⟩
    have hparsed := (parsed_iff hc hne).2 hfits
    refine ⟨hparsed, ?_, fun hkind bitpix hduShape bpp hshape hbpp => ?_⟩
    · rw [dataSectionPaddedSizeFor_eq hc hne, hval hparsed, hchecksummed]
    · obtain ⟨hall, rfl, rfl⟩ := (parseImageHduShape_eq_ok_iff hc hne).1 hshape
      rw [currentPadded_val, hprod, hval hparsed]
      exact hextended hkind hall bpp hbpp

/-- With the heap counted in elements or in bytes. -/
theorem section_iff {b g pcount n : Nat} (hg : 0 < g) (hp : pcount < 9223372036854775808)
    (hfits : roundUpToBlock (b * g * (n + pcount)) < u64Size) :
    roundUpToBlock (min (b * g * n + pcount) (u64Size - 1)) % u64Size =
        roundUpToBlock (b * g * (n + pcount)) ↔
      (b = 0 → pcount = 0) ∧ (b * g - 1) * pcount ≤ room (b * g * n + pcount) := by
  rcases Nat.eq_zero_or_pos b with rfl | hb
  · have hcut : min pcount (u64Size - 1) = pcount := by
      unfold u64Size
      omega
    have hround : roundUpToBlock pcount < u64Size := by
      rw [roundUpToBlock_eq]
      unfold u64Size
      omega
    have hpadded : roundUpToBlock pcount = 0 ↔ pcount = 0 := by
      rw [roundUpToBlock_eq]
      omega
    rw [Nat.zero_mul, Nat.zero_mul, Nat.zero_mul, Nat.zero_add, hcut, Nat.mod_eq_of_lt hround]
    refine hpadded.trans ⟨fun h => ⟨fun _ => h, ?_⟩, fun h => h.1 rfl⟩
    rw [h, Nat.mul_zero]
    exact Nat.zero_le _
  · have hk : 0 < b * g := Nat.mul_pos hb hg
    have hsplit : b * g * (n + pcount) = b * g * n + pcount + (b * g - 1) * pcount := by
      obtain ⟨k, hk⟩ := Nat.exists_eq_add_one.2 hk
      rw [hk, Nat.add_sub_cancel]
      ring
    rw [hsplit] at hfits ⊢
    generalize (b * g - 1) * pcount = extra at *
    generalize b * g * n + pcount = size at *
    have hround := le_roundUpToBlock (size + extra)
    have hmono := roundUpToBlock_mono (Nat.le_add_right size extra)
    have hdiff := roundUp_eq_iff (Nat.le_add_right size extra)
    have hcut : min size (u64Size - 1) = size := by omega
    have hlt : roundUpToBlock size < u64Size := by omega
    rw [hcut, Nat.mod_eq_of_lt hlt, hdiff, Nat.add_sub_cancel_left]
    exact ⟨fun h => ⟨fun h0 => by omega, h⟩, fun h => h.2⟩

/-- The sizes of the pixel types. -/
theorem pixelSize_of_ok {bitpix : Int} {bpp : Nat} (h : bitpixToNumpyKind bitpix = .ok bpp) :
    bitpix.natAbs / 8 = bpp ∧ 0 < bpp ∧ bpp ≤ 8 := by
  unfold bitpixToNumpyKind at h
  split_ifs at h with h8 h16 h32 h64
  · cases h
    omega
  · cases h
    omega
  · cases h
    omega
  · cases h
    omega

/-- With and without groups and parameters, and with BITPIX cut to 32 bits. -/
theorem extended_iff {bitpix : Int} {b g pcount n bpp : Nat} (hb : b = bitpix.natAbs / 8)
    (hg : 0 < g) (hbpp : bitpixToNumpyKind (asI32 bitpix) = .ok bpp)
    (hfits : roundUpToBlock (b * g * (n + pcount)) < u64Size) :
    roundUpToBlock (n * bpp % u64Size) % u64Size = roundUpToBlock (b * g * (n + pcount)) ↔
      (asI32 bitpix = bitpix ∨ n + pcount = 0) ∧
        b * (g - 1) * n + b * g * pcount ≤ room (b * n) := by
  obtain ⟨hsize, hpos, hle⟩ := pixelSize_of_ok hbpp
  obtain ⟨k, rfl⟩ := Nat.exists_eq_add_one.2 hg
  have hround := le_roundUpToBlock (b * (k + 1) * (n + pcount))
  by_cases hsame : asI32 bitpix = bitpix
  · rw [hsame, ← hb] at hsize
    have hsplit : b * (k + 1) * (n + pcount) = b * n + (b * k * n + b * (k + 1) * pcount) := by ring
    rw [← hsize, Nat.mul_comm n b, Nat.add_sub_cancel]
    rw [hsplit] at hround hfits ⊢
    generalize b * k * n + b * (k + 1) * pcount = extra at *
    generalize b * n = size at *
    have hmono := roundUpToBlock_mono (Nat.le_add_right size extra)
    have hlt : size < u64Size := by omega
    have hpadded : roundUpToBlock size < u64Size := by omega
    rw [Nat.mod_eq_of_lt hlt, Nat.mod_eq_of_lt hpadded,
      roundUp_eq_iff (Nat.le_add_right size extra), Nat.add_sub_cancel_left]
    exact ⟨fun h => ⟨Or.inl hsame, h⟩, fun h => h.2⟩
  · by_cases hzero : n + pcount = 0
    · obtain ⟨rfl, rfl⟩ := Nat.add_eq_zero_iff.1 hzero
      simp [roundUpToBlock_eq]
    · -- a BITPIX of more than 32 bits has elements of many bytes
      refine iff_of_false (fun heq => ?_) fun h => h.1.elim hsame hzero
      have hlarge : 268435456 ≤ b := by
        by_contra hlt
        exact hsame (asI32_of_range (by omega))
      have hbytes : 268435456 * (n + pcount) ≤ b * (k + 1) * (n + pcount) :=
        Nat.mul_le_mul_right _ (hlarge.trans (Nat.le_mul_of_pos_right b hg))
      have hpixels : n * bpp ≤ 8 * (n + pcount) := by nlinarith
      generalize b * (k + 1) * (n + pcount) = size at *
      generalize n * bpp = pixels at *
      have hlt : pixels < u64Size := by omega
      have hmono := roundUpToBlock_mono (show pixels ≤ size by omega)
      have hpadded : roundUpToBlock pixels < u64Size := by omega
      rw [Nat.mod_eq_of_lt hlt, Nat.mod_eq_of_lt hpadded, roundUpToBlock_eq,
        roundUpToBlock_eq] at heq
      omega

/-- A size of at least `2 ^ 63` bytes and the parameters is another one than that of the
parameters. -/
theorem not_sameBlocks {pcount patterns size : Nat} (hp : pcount < 9223372036854775808)
    (hpatterns : 9223372036854775808 ≤ patterns) (hlarge : patterns + pcount ≤ size) :
    roundUpToBlock (min pcount (u64Size - 1)) % u64Size ≠ roundUpToBlock size := by
  have hcut : min pcount (u64Size - 1) = pcount := by
    unfold u64Size
    omega
  have hround := le_roundUpToBlock size
  have hpadded : roundUpToBlock pcount % u64Size ≤ pcount + 2879 := by
    refine (Nat.mod_le _ _).trans ?_
    rw [roundUpToBlock_eq]
    omega
  rw [hcut]
  omega

theorem groupCount_pos (cards : List Card) : 0 < groupCount cards := by
  unfold groupCount
  omega

theorem paramCount_lt (cards : List Card) : paramCount cards < 9223372036854775808 := by
  have hrange : InI64 ((parseKeyword cards (str "PCOUNT")).getD 0) := inI64_getD (by decide)
  unfold InI64 at hrange
  unfold paramCount
  omega

/-- The three sizes agree exactly when the header has no axes or its counts are plain. -/
theorem extentsAgree_iff_counted (hc : Counted cards) :
    ExtentsAgree cards ↔ axes cards = [] ∨ PlainExtent cards := by
  by_cases hne : axes cards = []
  · exact iff_of_true (extentsAgree_of_no_axes hc hne) (Or.inl hne)
  rw [extentsAgree_iff_sizes hc hne, or_iff_right hne]
  have hg := groupCount_pos cards
  have hp := paramCount_lt cards
  rcases prod_of_signs (fun d hd => inI64_of_mem_axes hd) with
    ⟨hsigns, hprod⟩ | ⟨⟨hneg, hzero⟩, hlengths, hpatterns⟩
  · -- every factor counts the same on both sides
    rw [patternProduct, hprod, ← elements]
    constructor
    · rintro ⟨hfits, hsection, hextended⟩
      refine ⟨hfits, fun h => Or.inl (hsigns h), (section_iff hg hp hfits.2).1 hsection, ?_⟩
      intro hkind hall bpp hbpp
      exact (extended_iff rfl hg hbpp hfits.2).1 (hextended hkind hall bpp hbpp)
    · rintro ⟨hfits, -, hheap, himage⟩
      refine ⟨hfits, (section_iff hg hp hfits.2).2 hheap, fun hkind hall bpp hbpp => ?_⟩
      exact (extended_iff rfl hg hbpp hfits.2).2 (himage hkind hall bpp hbpp)
  · have hempty : elements cards = 0 := hlengths
    have hnot : ¬ ∀ d ∈ axes cards, 0 ≤ d := by
      obtain ⟨d, hd, hlt⟩ := hneg
      exact fun hall => absurd (hall d hd) (by omega)
    rcases Nat.eq_zero_or_pos (elementBytes cards) with hbytes | hbytes
    · -- the elements have no bytes
      have hnone : ∀ n : Nat, roundUpToBlock (0 * groupCount cards * n) < u64Size := fun n => by
        rw [Nat.zero_mul, Nat.zero_mul]
        decide
      have hsame : 0 * groupCount cards * (patternProduct cards + paramCount cards) =
          0 * groupCount cards * (0 + paramCount cards) := by
        rw [Nat.zero_mul, Nat.zero_mul, Nat.zero_mul]
      have hsection := section_iff (b := 0) (n := 0) hg hp (hnone _)
      constructor
      · rintro ⟨hfits, hsizes, -⟩
        rw [hbytes, hempty, hsame] at hsizes
        refine ⟨⟨hfits.1, ?_⟩, fun _ => Or.inr hbytes, ?_, fun _ hall => absurd hall hnot⟩
        · rw [hbytes]
          exact hnone _
        · rw [hbytes, hempty]
          exact hsection.1 hsizes
      · rintro ⟨hfits, -, hheap, -⟩
        rw [hbytes, hempty] at hheap
        refine ⟨⟨hfits.1, ?_⟩, ?_, fun _ hall => absurd hall hnot⟩
        · rw [hbytes]
          exact hnone _
        · rw [hbytes, hempty, hsame]
          exact hsection.2 hheap
    · -- the bit pattern of a negative axis is a length of at least 2 ^ 63
      refine iff_of_false ?_ fun h => (h.signs hneg).elim hzero (Nat.ne_of_gt hbytes)
      rintro ⟨⟨-, hfits⟩, hsizes, -⟩
      rw [hempty, Nat.mul_zero, Nat.zero_add] at hsizes
      have hpatterns : 9223372036854775808 ≤ patternProduct cards := hpatterns
      have hlarge : patternProduct cards + paramCount cards ≤
          elementBytes cards * groupCount cards * (patternProduct cards + paramCount cards) :=
        Nat.le_mul_of_pos_left _ (Nat.mul_pos hbytes hg)
      exact not_sameBlocks hp hpatterns hlarge hsizes

/-- The formulas agree on a header that the parser accepts exactly when it has no axes or
its counts are plain. -/
theorem extentsAgree_iff {isPrimary : Bool} (hvalid : validateHeader cards isPrimary = .ok ()) :
    ExtentsAgree cards ↔ axes cards = [] ∨ PlainExtent cards :=
  extentsAgree_iff_counted (counted_of_valid hvalid)

end

end RustFits.Image
