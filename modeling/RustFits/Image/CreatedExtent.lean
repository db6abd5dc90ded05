import RustFits.Image.Extent

/-!
# The size of a created image

The header that `create_image_hdu` writes has the counts that were asked for, so the
four sizes agree on it as long as they fit.

* `parseKeyword_axisCards` reads an axis back.  A thousandth axis has a keyword of nine
  letters, which no lookup finds.
* `planImage_agrees_iff`: the sizes agree exactly when there are at most 999 axes and
  the size is a `u64`.
* `extents_agree_iff` is both results.
-/

namespace RustFits.Image

open Ascii ByteFile Machine Header Checksum

/-! ## Keywords of axes -/

theorem natDecAux_length_ge : ∀ (fuel n k : Nat) (tail : Str), n < fuel → 10 ^ k ≤ n →
    tail.length + (k + 1) ≤ (natDecAux fuel n tail).length := by
  intro fuel
  induction fuel with
  | zero =>
    intro n k tail hlt
    omega
  | succ fuel ih =>
    intro n k tail hlt hle
    rw [natDecAux]
    split_ifs with h10
    · cases k with
      | zero => simp
      | succ k =>
        rw [Nat.pow_succ] at hle
        have hpos := Nat.pow_pos (n := k) (show 0 < 10 by decide)
        omega
    · cases k with
      | zero =>
        have h := ih (n / 10) 0 ((0x30 + (n % 10).toUInt8) :: tail) (by omega)
          (by rw [Nat.pow_zero]; omega)
        rw [List.length_cons] at h
        omega
      | succ k =>
        have hdiv : 10 ^ k ≤ n / 10 := by
          rw [Nat.le_div_iff_mul_le (by decide), ← Nat.pow_succ]
          exact hle
        have h := ih (n / 10) k ((0x30 + (n % 10).toUInt8) :: tail) (by omega) hdiv
        rw [List.length_cons] at h
        omega

theorem natDec_injective {m n : Nat} (h : natDec m = natDec n) : m = n := by
  have hm := parseNat_natDec m
  rw [h, parseNat_natDec] at hm
  exact (Option.some.inj hm).symm

theorem isToken_naxisKey (i : Nat) : IsToken (naxisKey i) := by
  refine ⟨by simp [naxisKey, str], fun b hb => ?_⟩
  rcases List.mem_append.1 hb with hb | hb
  · exact (show IsToken (str "NAXIS") by decide).2 b hb
  · exact not_whitespace_of_isDigit (natDec_digits i b hb)

theorem naxisKey_length_le {i : Nat} (h : i ≤ 999) : (naxisKey i).length ≤ 8 := by
  have hdigits := natDecAux_length_le (i + 1) i 2 [] (by omega)
  rw [← natDec, List.length_nil] at hdigits
  rw [naxisKey, List.length_append]
  show 5 + (natDec i).length ≤ 8
  omega

theorem naxisKey_length_gt {i : Nat} (h : 999 < i) : 8 < (naxisKey i).length := by
  have hdigits := natDecAux_length_ge (i + 1) i 3 [] (by omega) (by omega)
  rw [← natDec, List.length_nil] at hdigits
  rw [naxisKey, List.length_append]
  show 8 < 5 + (natDec i).length
  omega

theorem naxisKey_injective {i j : Nat} (h : naxisKey i = naxisKey j) : i = j :=
  natDec_injective (List.append_cancel_left h)

/-! ## Lookups in the new header -/

section

variable {key other : Str} {card : Card} {cards : List Card}

/-- The keyword field of a card that was built for a keyword. -/
theorem field_of_hasKeyword (h : HasKeyword key card) :
    trim ((trimEnd card).take 8) = trim (key.take 8) := by
  obtain ⟨rest, rfl⟩ := h
  have hfield : 8 ≤ (padRight 8 key).length := by
    rw [padRight_length]
    omega
  have htake : (padRight 8 key).take 8 = key.take 8 ++ List.replicate (8 - key.length) blank := by
    rw [padRight, List.take_append, List.take_replicate]
    congr 2
    omega
  rw [trim_take_trimEnd, padToCard, padRight.eq_1 cardSize, cardSize,
    List.take_append_of_le_length (by rw [List.length_take, List.length_append]; omega),
    List.take_take, Nat.min_eq_left (by decide), List.take_append_of_le_length hfield, htake,
    trim_append_blanks]

theorem not_decides_of_field (h : HasKeyword key card) (hother : trim (key.take 8) ≠ other) :
    decidesKey other (trimEnd card) = false := by
  refine Bool.eq_false_iff.2 fun hdec => hother ?_
  rw [← field_of_hasKeyword h, keyword_of_decidesKey hdec]

theorem not_decides_of_token (h : HasKeyword key card) (htoken : IsToken key)
    (hlen : key.length ≤ 8) (hother : key ≠ other) : decidesKey other (trimEnd card) = false := by
  apply not_decides_of_field h
  rw [List.take_of_length_le hlen, trim_of_isToken htoken]
  exact hother

/-- A keyword of more than eight letters is found nowhere. -/
theorem parseKeyword_eq_none (hlen : 8 < key.length) (cards : List Card) :
    parseKeyword cards key = none := by
  induction cards with
  | nil => rfl
  | cons card cards ih =>
    rw [parseKeyword_cons_of_not_decides, ih]
    refine Bool.eq_false_iff.2 fun hdec => ?_
    have hfield := congrArg List.length (keyword_of_decidesKey hdec)
    have htrim : (trim (card.take 8)).length ≤ (card.take 8).length :=
      ((List.rdropWhile_prefix _ _).sublist.trans (List.dropWhile_suffix _).sublist).length_le
    rw [List.length_take] at htrim
    omega

theorem cardInt_keyword (key : Str) (v : Int) (comment : Str) :
    HasKeyword key (cardInt key v comment) := hasKeyword_of_hasValue (cardFixed_value key _ comment)

/-- An axis is read back. -/
theorem parseKeyword_axisCards : ∀ (dims : List Int) (k i : Nat) (rest : List Card),
    (∀ d ∈ dims, InI64 d) → k ≤ i → i < k + dims.length → i ≤ 999 →
      parseKeyword ((axisCards k dims).map trimEnd ++ rest) (naxisKey i) = dims[i - k]? := by
  intro dims
  induction dims with
  | nil =>
    intro k i rest _ hle hlt
    simp at hlt
    omega
  | cons d dims ih =>
    intro k i rest hrange hle hlt hsmall
    rw [axisCards, List.map_cons, List.cons_append]
    rcases Nat.eq_or_lt_of_le hle with rfl | hbehind
    · rw [parseKeyword_cardInt (isToken_naxisKey k) (naxisKey_length_le hsmall)
        (hrange d List.mem_cons_self), Nat.sub_self]
      rfl
    · have hother : naxisKey k ≠ naxisKey i := fun h => by
        have := naxisKey_injective h
        omega
      have hfront := not_decides_of_token (cardInt_keyword (naxisKey k) d
        (str "length of data axis " ++ natDec k)) (isToken_naxisKey k)
        (naxisKey_length_le (by omega)) hother
      rw [parseKeyword_cons_of_not_decides hfront,
        ih (k + 1) i rest (fun e he => hrange e (List.mem_cons_of_mem d he)) hbehind (by
          rw [List.length_cons] at hlt
          omega) hsmall]
      rw [show i - k = i - (k + 1) + 1 by omega, List.getElem?_cons_succ]

/-- The cards of the axes hold no other keyword. -/
theorem axisCards_not_decide (hother : (str "NAXIS").isPrefixOf other = false) :
    ∀ (dims : List Int) (k : Nat), ∀ c ∈ (axisCards k dims).map trimEnd,
      decidesKey other c = false := by
  intro dims
  induction dims with
  | nil =>
    intro k c hc
    exact absurd hc (by simp [axisCards])
  | cons d dims ih =>
    intro k c hc
    rw [axisCards, List.map_cons] at hc
    rcases List.mem_cons.1 hc with rfl | hc
    · apply not_decides_of_field (cardInt_keyword (naxisKey k) d _)
      intro hfield
      have htake : (naxisKey k).take 8 = str "NAXIS" ++ (natDec k).take 3 := by
        rw [naxisKey, List.take_append, List.take_of_length_le (by decide)]
        rfl
      rw [htake, trim_token_append (by decide)] at hfield
      rw [← hfield, List.isPrefixOf_iff_prefix.2 (List.prefix_append _ _)] at hother
      exact Bool.noConfusion hother
    · exact ih (k + 1) c hc

end

/-! ## The counts of the new header -/

/-- The keywords that may stand behind the counts. -/
def backKeys : List Str :=
  [str "EXTNAME", str "EXTVER", str "BSCALE", str "BZERO", str "BLANK", str "END"]

section

variable {isPrimary : Bool} {args : ImageArgs} {bitpix : Int} {bzero : Option Int}
  {cards back : List Card} {other : Str}

/-- The cards behind the counts have keywords of their own. -/
def IsBack (back : List Card) : Prop := ∀ c ∈ back, ∃ key ∈ backKeys, HasKeyword key c

theorem isBack_append {front back : List Card} (hfront : IsBack front) (hback : IsBack back) :
    IsBack (front ++ back) := fun c hc => (List.mem_append.1 hc).elim (hfront c) (hback c)

theorem isBack_nameCards (extname : Option Str) (extver : Option Int) :
    IsBack (nameCards extname extver) := by
  intro c hc
  rcases List.mem_append.1 hc with hc | hc
  · obtain ⟨name, -, rfl⟩ := Option.map_eq_some_iff.1 (Option.mem_toList.1 hc)
    exact ⟨str "EXTNAME", by decide, hasKeyword_of_hasValue (cardString_value _ _ _)⟩
  · obtain ⟨ver, -, rfl⟩ := Option.map_eq_some_iff.1 (Option.mem_toList.1 hc)
    exact ⟨str "EXTVER", by decide, cardInt_keyword _ _ _⟩

theorem isBack_scalingCards (bzero : Option Int) : IsBack (scalingCards bzero) := by
  intro c hc
  cases bzero with
  | none => exact absurd hc (by simp [scalingCards])
  | some bz =>
    rcases List.mem_pair.1 hc with rfl | rfl
    · exact ⟨str "BSCALE", by decide, cardInt_keyword _ _ _⟩
    · refine ⟨str "BZERO", by decide, ?_⟩
      split_ifs
      · exact hasKeyword_of_hasValue (cardFixed_value _ _ _)
      · exact cardInt_keyword _ _ _

theorem isBack_end : IsBack [padToCard endCard] := by
  intro c hc
  rw [List.mem_singleton.1 hc]
  exact ⟨str "END", by decide, [], by decide⟩

/-- The counts come first. -/
theorem imageCards_eq (h : imageCards isPrimary args bitpix bzero = .ok cards) :
    ∃ back, IsBack back ∧ cards = [leadCard isPrimary,
        cardInt (str "BITPIX") bitpix (str "number of bits per data pixel"),
        cardInt (str "NAXIS") args.dims.length (str "number of data axes")] ++
      (axisCards 1 args.dims.reverse ++ (groupCards isPrimary ++ back)) := by
  have hnames :=
    isBack_append (isBack_nameCards args.extname args.extver) (isBack_scalingCards bzero)
  unfold imageCards at h
  dsimp only at h
  cases hblank : args.blank with
  | none =>
    rw [hblank] at h
    cases h
    exact ⟨_, isBack_append hnames isBack_end, by simp only [List.append_assoc]⟩
  | some b =>
    rw [hblank] at h
    cases hstored : physicalBlankToStored b bitpix bzero with
    | error e =>
      simp only [hstored] at h
      cases h
    | ok stored =>
      simp only [hstored] at h
      cases h
      refine ⟨nameCards args.extname args.extver ++ scalingCards bzero ++
        [cardInt (str "BLANK") stored (str "integer sentinel for blank pixels"), padToCard endCard],
        isBack_append hnames fun c hc => ?_, by simp only [List.append_assoc]⟩
      rcases List.mem_pair.1 hc with rfl | rfl
      · exact ⟨str "BLANK", by decide, cardInt_keyword _ _ _⟩
      · exact isBack_end _ List.mem_cons_self

theorem back_not_decides (hback : IsBack back) (hother : other ∉ backKeys) :
    ∀ c ∈ back.map trimEnd, decidesKey other c = false := by
  intro c hc
  obtain ⟨d, hd, rfl⟩ := List.mem_map.1 hc
  obtain ⟨key, hkey, hcard⟩ := hback d hd
  have htokens : ∀ key ∈ backKeys, IsToken key ∧ key.length ≤ 8 := by decide
  obtain ⟨htoken, hlen⟩ := htokens key hkey
  exact not_decides_of_token hcard htoken hlen fun h => hother (h ▸ hkey)

theorem lead_not_decides (isPrimary : Bool) (hother : other ∉ [str "SIMPLE", str "XTENSION"]) :
    decidesKey other (trimEnd (leadCard isPrimary)) = false := by
  cases isPrimary with
  | true =>
    exact not_decides_of_token (hasKeyword_of_hasValue (cardFixed_value (str "SIMPLE") _ _))
      (by decide) (by decide) fun h => hother (h ▸ by decide)
  | false =>
    exact not_decides_of_token (hasKeyword_of_hasValue (cardString_value (str "XTENSION") _ _))
      (by decide) (by decide) fun h => hother (h ▸ by decide)

/-- What the lookups find in the new header. -/
structure HasCounts (bitpix : Int) (dims : List Int) (cards : List Card) : Prop where
  bitpix : parseKeyword cards (str "BITPIX") = some bitpix
  naxis : parseKeyword cards (str "NAXIS") = some (dims.length : Int)
  axis : ∀ i, 1 ≤ i → i < 1 + dims.length → i ≤ 999 →
    parseKeyword cards (naxisKey i) = dims.reverse[i - 1]?
  pcount : (parseKeyword cards (str "PCOUNT")).getD 0 = 0
  gcount : (parseKeyword cards (str "GCOUNT")).getD 1 = 1

/-- The arguments are values of the types of the signature. -/
structure ImageArgs.Typed (args : ImageArgs) : Prop where
  dims : ∀ d ∈ args.dims, InI64 d
  length : InI64 args.dims.length

theorem parseKeyword_back (hback : IsBack back) (hother : other ∉ backKeys) :
    parseKeyword (back.map trimEnd) other = none := by
  have h := parseKeyword_append_of_not_decides (back_not_decides hback hother) []
  rw [List.append_nil] at h
  exact h

/-- The group counts of the new header. -/
theorem groupCards_counts (isPrimary : Bool) (hback : IsBack back) :
    (parseKeyword ((groupCards isPrimary).map trimEnd ++ back.map trimEnd) (str "PCOUNT")).getD 0 =
      0 ∧
      (parseKeyword ((groupCards isPrimary).map trimEnd ++ back.map trimEnd)
        (str "GCOUNT")).getD 1 =
        1 := by
  have hnone : ∀ other, other ∉ backKeys → parseKeyword (back.map trimEnd) other = none :=
    fun other => parseKeyword_back hback
  cases isPrimary with
  | true =>
    have hextend : ∀ other, str "EXTEND" ≠ other → decidesKey other (trimEnd (cardLogical
        (str "EXTEND") true (str "FITS dataset may contain extensions"))) = false := fun other =>
      not_decides_of_token (hasKeyword_of_hasValue (cardFixed_value _ _ _)) (by decide) (by decide)
    constructor
    · rw [groupCards, if_pos rfl, List.map_singleton, List.singleton_append,
        parseKeyword_cons_of_not_decides (hextend _ (by decide)), hnone _ (by decide)]
      rfl
    · rw [groupCards, if_pos rfl, List.map_singleton, List.singleton_append,
        parseKeyword_cons_of_not_decides (hextend _ (by decide)), hnone _ (by decide)]
      rfl
  | false =>
    have hpcount := not_decides_of_token (cardInt_keyword (str "PCOUNT") 0
      (str "required keyword; must = 0")) (by decide) (by decide)
      (show str "PCOUNT" ≠ str "GCOUNT" by decide)
    rw [groupCards, if_neg (by decide), List.map_cons, List.map_singleton, List.cons_append]
    constructor
    · rw [parseKeyword_cardInt (by decide) (by decide) (by decide)]
      rfl
    · rw [parseKeyword_cons_of_not_decides hpcount, List.singleton_append,
        parseKeyword_cardInt (by decide) (by decide) (by decide)]
      rfl

theorem hasCounts_imageCards (htyped : args.Typed) (hbitpix : InI64 bitpix)
    (h : imageCards isPrimary args bitpix bzero = .ok cards) :
    HasCounts bitpix args.dims (cards.map trimEnd) := by
  obtain ⟨back, hback, rfl⟩ := imageCards_eq h
  have hlead : ∀ other, other ∉ [str "SIMPLE", str "XTENSION"] →
      decidesKey other (trimEnd (leadCard isPrimary)) = false :=
    fun other => lead_not_decides isPrimary
  have hbits : ∀ other, str "BITPIX" ≠ other → decidesKey other (trimEnd
      (cardInt (str "BITPIX") bitpix (str "number of bits per data pixel"))) = false :=
    fun other => not_decides_of_token (cardInt_keyword _ _ _) (by decide) (by decide)
  have hnaxis : ∀ other, str "NAXIS" ≠ other → decidesKey other (trimEnd
      (cardInt (str "NAXIS") args.dims.length (str "number of data axes"))) = false :=
    fun other => not_decides_of_token (cardInt_keyword _ _ _) (by decide) (by decide)
  simp only [List.map_append, List.map_cons, List.cons_append, List.nil_append]
  constructor
  · rw [parseKeyword_cons_of_not_decides (hlead _ (by decide)),
      parseKeyword_cardInt (by decide) (by decide) hbitpix]
  · rw [parseKeyword_cons_of_not_decides (hlead _ (by decide)),
      parseKeyword_cons_of_not_decides (hbits _ (by decide)),
      parseKeyword_cardInt (by decide) (by decide) htyped.length]
  · intro i hpos hlt hsmall
    have hother : ∀ key, (str "NAXIS").isPrefixOf key = false → key ≠ naxisKey i := by
      rintro key hkey rfl
      rw [naxisKey, List.isPrefixOf_iff_prefix.2 (List.prefix_append _ _)] at hkey
      exact Bool.noConfusion hkey
    have hcount : str "NAXIS" ≠ naxisKey i := fun heq =>
      natDec_ne_nil i (List.append_cancel_left (heq.symm.trans (List.append_nil _).symm))
    have hfirst : naxisKey i ∉ [str "SIMPLE", str "XTENSION"] := fun hmem => by
      rcases List.mem_pair.1 hmem with heq | heq
      · exact hother (str "SIMPLE") (by decide) heq.symm
      · exact hother (str "XTENSION") (by decide) heq.symm
    rw [parseKeyword_cons_of_not_decides (hlead _ hfirst),
      parseKeyword_cons_of_not_decides (hbits _ (hother _ (by decide))),
      parseKeyword_cons_of_not_decides (hnaxis _ hcount),
      parseKeyword_axisCards _ _ _ _ (fun d hd => htyped.dims d (List.mem_reverse.1 hd)) hpos
        (by rwa [List.length_reverse]) hsmall]
  · rw [parseKeyword_cons_of_not_decides (hlead _ (by decide)),
      parseKeyword_cons_of_not_decides (hbits _ (by decide)),
      parseKeyword_cons_of_not_decides (hnaxis _ (by decide)),
      parseKeyword_append_of_not_decides (axisCards_not_decide (by decide) _ _)]
    exact (groupCards_counts isPrimary hback).1
  · rw [parseKeyword_cons_of_not_decides (hlead _ (by decide)),
      parseKeyword_cons_of_not_decides (hbits _ (by decide)),
      parseKeyword_cons_of_not_decides (hnaxis _ (by decide)),
      parseKeyword_append_of_not_decides (axisCards_not_decide (by decide) _ _)]
    exact (groupCards_counts isPrimary hback).2

/-! ## The sizes of the new image -/

/-- The axes of a shape that the checks accept: none is negative, and only the slowest
is empty. -/
theorem validateDims_ok : ∀ {dims : List Int} {i : Nat}, validateDims i dims = .ok () →
    (∀ d ∈ dims, 0 ≤ d) ∧ ∀ d ∈ dims.drop (1 - i), 0 < d := by
  intro dims
  induction dims with
  | nil => simp
  | cons d dims ih =>
    intro i h
    rw [validateDims] at h
    split_ifs at h with hbad
    obtain ⟨hall, hpos⟩ := ih h
    rw [show 1 - (i + 1) = 0 by omega, List.drop_zero] at hpos
    refine ⟨List.forall_mem_cons.2 ⟨by omega, hall⟩, ?_⟩
    rcases Nat.eq_zero_or_pos i with rfl | hi
    · simpa using hpos
    · rw [show 1 - i = 0 by omega, List.drop_zero]
      exact List.forall_mem_cons.2 ⟨by omega, hpos⟩

/-- The pixel types of the program. -/
theorem pixelBytes_of_dtype {dtype : Str} (h : dtypeToBitpix dtype = .ok (bitpix, bzero)) :
    bitpix ∈ [8, 16, 32, 64, -32, -64] := by
  unfold dtypeToBitpix at h
  cases hfound : pixelTypes.lookup (toAsciiLowercase (dtype.dropWhile isOrderSign)) with
  | none =>
    rw [hfound] at h
    cases h
  | some found =>
    rw [hfound] at h
    cases h
    have hall : ∀ entry ∈ pixelTypes, entry.2.1 ∈ [8, 16, 32, 64, (-32 : Int), -64] := by decide
    obtain ⟨front, back, hsplit, -⟩ := List.lookup_eq_some_iff.1 hfound
    exact hall (_, bitpix, bzero) (hsplit ▸ List.mem_append_right _ List.mem_cons_self)

/-- The saturating product of a shape. -/
theorem foldl_saturatingMul : ∀ (dims : List Int) (product : Nat), (∀ d ∈ dims, InI64 d) →
    (∀ d ∈ dims, 0 ≤ d) →
      dims.foldl (fun product d => saturatingMul product (asU64 d)) (min product (u64Size - 1)) =
        min (product * (dims.map Int.toNat).prod) (u64Size - 1) := by
  intro dims
  induction dims with
  | nil =>
    intro product _ _
    simp
  | cons d dims ih =>
    intro product hrange hall
    have hd := hrange d List.mem_cons_self
    have hcut : d.toNat = min d.toNat (u64Size - 1) := by
      unfold InI64 at hd
      unfold u64Size
      omega
    rw [List.foldl_cons, asU64_of_inI64 hd (hall d List.mem_cons_self), hcut, saturatingMul_min,
      ih _ (fun e he => hrange e (List.mem_cons_of_mem d he))
        (fun e he => hall e (List.mem_cons_of_mem d he)), List.map_cons, List.prod_cons,
      Nat.mul_assoc]

/-- The number of pixels. -/
def pixelCount (dims : List Int) : Nat := (dims.map Int.toNat).prod

theorem dataSectionPadded_spec (n : Nat) :
    ((dataSectionPadded n).overflow = false ↔ roundUpToBlock n < u64Size) ∧
      ((dataSectionPadded n).overflow = false → (dataSectionPadded n).val = roundUpToBlock n) := by
  unfold dataSectionPadded
  split_ifs with hzero
  · rw [hzero]
    exact ⟨iff_of_true rfl (by decide), fun _ => rfl⟩
  · refine ⟨overflow_mulU64 _ _, fun h => ?_⟩
    rw [val_mulU64 h]
    rfl

/-- The size that is allocated wraps nowhere when it is a `u64`. -/
theorem imageDataPadded_eq {dims : List Int} (hpixel : bitpix ∈ [8, 16, 32, 64, (-32 : Int), -64])
    (hne : dims ≠ []) (hrange : ∀ d ∈ dims, InI64 d) (hall : ∀ d ∈ dims, 0 ≤ d) :
    ((imageDataPadded bitpix dims).overflow = false ↔
        roundUpToBlock (bitpix.natAbs / 8 * pixelCount dims) < u64Size) ∧
      ((imageDataPadded bitpix dims).overflow = false →
        (imageDataPadded bitpix dims).val =
          roundUpToBlock (bitpix.natAbs / 8 * pixelCount dims)) := by
  have hbytes : 0 < bitpix.natAbs / 8 ∧ bitpix.natAbs / 8 ≤ 8 := by
    simp only [List.mem_cons, List.not_mem_nil, or_false] at hpixel
    omega
  have hproduct : dims.reverse.foldl (fun product d => saturatingMul product (asU64 d)) 1 =
      min (pixelCount dims) (u64Size - 1) := by
    have h := foldl_saturatingMul dims.reverse 1 (fun d hd => hrange d (List.mem_reverse.1 hd))
      (fun d hd => hall d (List.mem_reverse.1 hd))
    rw [show min 1 (u64Size - 1) = 1 by decide, Nat.one_mul, List.map_reverse,
      List.prod_reverse] at h
    exact h
  have hempty : dims.isEmpty = false := by simpa using hne
  have hrun : imageDataPadded bitpix dims =
      mulU64 (bitpix.natAbs / 8) (min (pixelCount dims) (u64Size - 1)) >>= dataSectionPadded := by
    unfold imageDataPadded
    rw [hproduct, hempty]
    rfl
  rw [hrun, Wrapped.overflow_bind, Wrapped.val_bind, Bool.or_eq_false_iff, overflow_mulU64]
  generalize bitpix.natAbs / 8 = b at *
  generalize pixelCount dims = n at *
  have hround := le_roundUpToBlock (b * n)
  rcases Nat.lt_or_ge n u64Size with hlt | hge
  · have hcut : min n (u64Size - 1) = n := by omega
    rw [hcut]
    constructor
    · constructor
      · rintro ⟨hsize, hpad⟩
        rw [val_mulU64 ((overflow_mulU64 _ _).2 hsize)] at hpad
        exact ((dataSectionPadded_spec (b * n)).1).1 hpad
      · intro hpad
        have hsize : b * n < u64Size := by omega
        rw [val_mulU64 ((overflow_mulU64 _ _).2 hsize)]
        exact ⟨hsize, ((dataSectionPadded_spec (b * n)).1).2 hpad⟩
    · rintro ⟨hsize, hpad⟩
      rw [val_mulU64 ((overflow_mulU64 _ _).2 hsize)] at hpad ⊢
      exact (dataSectionPadded_spec (b * n)).2 hpad
  · -- the product was cut off, and the size cannot be rounded up
    have hcut : min n (u64Size - 1) = u64Size - 1 := by omega
    have hbig : n ≤ b * n := Nat.le_mul_of_pos_left n hbytes.1
    have hfalse : ¬ (b * (u64Size - 1) < u64Size ∧
        (dataSectionPadded (mulU64 b (u64Size - 1)).val).overflow = false) := by
      rintro ⟨hsize, hpad⟩
      rw [val_mulU64 ((overflow_mulU64 _ _).2 hsize), (dataSectionPadded_spec _).1] at hpad
      have hle : u64Size - 1 ≤ b * (u64Size - 1) := Nat.le_mul_of_pos_left _ hbytes.1
      generalize b * (u64Size - 1) = size at *
      rw [roundUpToBlock_eq] at hpad
      unfold u64Size at *
      omega
    rw [hcut]
    exact ⟨iff_of_false hfalse (by omega), fun h => absurd h hfalse⟩

/-- The four sizes of a new image: its header and the bytes that are allocated. -/
def CreatedAgree (plan : List Card × Wrapped Nat) : Prop :=
  ExtentsAgree (plan.1.map trimEnd) ∧
    plan.2 = ⟨(calculateDataSize (plan.1.map trimEnd)).val, false⟩

theorem planImage_ok {plan : List Card × Wrapped Nat}
    (hpixel : dtypeToBitpix args.dtype = .ok (bitpix, bzero))
    (h : planImage isPrimary args = .ok plan) :
    validateDims 0 args.dims = .ok () ∧ imageCards isPrimary args bitpix bzero = .ok plan.1 ∧
      plan.2 = imageDataPadded bitpix args.dims := by
  unfold planImage at h
  dsimp only at h
  split_ifs at h
  · cases h
  obtain ⟨u, hdims, h⟩ := bind_eq_ok.1 h
  obtain ⟨pixel, hfound, h⟩ := bind_eq_ok.1 h
  rw [hpixel] at hfound
  cases hfound
  obtain ⟨cards, hcards, h⟩ := bind_eq_ok.1 h
  cases h
  exact ⟨hdims, hcards, rfl⟩

/-- At most 999 axes: every count of the header is read back. -/
theorem counted_of_hasCounts (hcounts : HasCounts bitpix args.dims cards)
    (hsmall : args.dims.length ≤ 999) : Counted cards ∧ axes cards = args.dims.reverse := by
  have hcount : naxisCount cards = args.dims.length := by
    rw [naxisCount, hcounts.naxis]
    rfl
  have haxis : ∀ i, 1 ≤ i → i < 1 + naxisCount cards →
      parseKeyword cards (naxisKey i) = args.dims.reverse[i - 1]? := by
    rw [hcount]
    exact fun i hpos hlt => hcounts.axis i hpos hlt (by omega)
  refine ⟨⟨by rw [hcounts.bitpix]; rfl, ⟨_, hcounts.naxis, by omega⟩, fun i hpos hlt => ?_⟩, ?_⟩
  · rw [haxis i hpos hlt, List.getElem?_eq_getElem (by rw [List.length_reverse]; omega)]
    rfl
  · apply List.ext_getElem?
    intro i
    rw [axes, List.getElem?_map]
    rcases Nat.lt_or_ge i (naxisCount cards) with hlt | hge
    · have hi : i < args.dims.reverse.length := by
        rw [List.length_reverse]
        omega
      rw [List.getElem?_range' hlt, Option.map_some, haxis _ (by omega) (by omega), Nat.one_mul,
        Nat.add_sub_cancel_left, List.getElem?_eq_getElem hi, Option.getD_some]
    · rw [List.getElem?_eq_none (by rw [List.length_range']; omega),
        List.getElem?_eq_none (by rw [List.length_reverse]; omega), Option.map_none]

/-- The sizes of a new image with at most 999 axes agree when they are a `u64`. -/
theorem createdAgree_of_small {plan : List Card × Wrapped Nat} (htyped : args.Typed)
    (hpixel : bitpix ∈ [8, 16, 32, 64, (-32 : Int), -64])
    (hdims : validateDims 0 args.dims = .ok ())
    (hcounts : HasCounts bitpix args.dims (plan.1.map trimEnd))
    (hpadded : plan.2 = imageDataPadded bitpix args.dims) (hsmall : args.dims.length ≤ 999) :
    CreatedAgree plan ↔ roundUpToBlock (bitpix.natAbs / 8 * pixelCount args.dims) < u64Size := by
  obtain ⟨hc, haxes⟩ := counted_of_hasCounts hcounts hsmall
  have hall := (validateDims_ok hdims).1
  have hbytes : elementBytes (plan.1.map trimEnd) = bitpix.natAbs / 8 := by
    rw [elementBytes, hcounts.bitpix, Option.getD_some]
  have hgroups : groupCount (plan.1.map trimEnd) = 1 := by
    rw [groupCount, hcounts.gcount]
    rfl
  have hparams : paramCount (plan.1.map trimEnd) = 0 := by
    rw [paramCount, hcounts.pcount]
    rfl
  have helements : elements (plan.1.map trimEnd) = pixelCount args.dims := by
    rw [elements, haxes, List.map_reverse, List.prod_reverse, pixelCount]
  have hpatterns : patternProduct (plan.1.map trimEnd) = pixelCount args.dims := by
    rw [patternProduct, haxes, List.map_reverse, List.prod_reverse, pixelCount]
    exact congrArg List.prod (List.map_congr_left fun d hd =>
      asU64_of_inI64 (htyped.dims d hd) (hall d hd))
  have hpos : 0 < bitpix.natAbs / 8 ∧ bitpix.natAbs / 8 ≤ 8 := by
    simp only [List.mem_cons, List.not_mem_nil, or_false] at hpixel
    omega
  by_cases hnil : args.dims = []
  · -- no axes, and no bytes
    have hagree := extentsAgree_of_no_axes hc (by rw [haxes, hnil]; rfl)
    have hcount : naxisCount (plan.1.map trimEnd) = 0 :=
      axes_eq_nil_iff.1 (by rw [haxes, hnil]; rfl)
    have hsize : (calculateDataSize (plan.1.map trimEnd)).val = 0 := by
      rw [calculateDataSize_val hagree.parsed, declaredDataSize, asU64_naxis hc, if_pos hcount]
    refine iff_of_true ⟨hagree, ?_⟩ ?_
    · rw [hpadded, hsize, hnil]
      rfl
    · rw [hnil, roundUpToBlock_eq]
      show (bitpix.natAbs / 8 * 1 + 2879) / 2880 * 2880 < u64Size
      unfold u64Size
      omega
  · have hne : axes (plan.1.map trimEnd) ≠ [] := by
      rw [haxes]
      simpa using hnil
    have hdeclared := declaredDataSize_eq hc hne
    have hparsed := parsed_iff hc hne
    rw [hbytes, hgroups, hparams, hpatterns, Nat.mul_one, Nat.add_zero] at hdeclared hparsed
    obtain ⟨hoverflow, hval⟩ := imageDataPadded_eq hpixel hnil htyped.dims hall
    constructor
    · exact fun h => (hparsed.1 h.1.parsed).2
    · intro hfits
      have hplain : PlainExtent (plan.1.map trimEnd) := by
        constructor
        · rw [hbytes, hgroups, hparams, helements, Nat.mul_one, Nat.add_zero, hcounts.bitpix]
          refine ⟨fun hmin => ?_, hfits⟩
          rw [Option.getD_some] at hmin
          rw [hmin] at hpixel
          exact absurd hpixel (by decide)
        · rintro ⟨d, hd, hneg⟩
          rw [haxes] at hd
          have := hall d (List.mem_reverse.1 hd)
          omega
        · rw [hbytes, hparams, Nat.mul_zero]
          exact ⟨fun _ => rfl, Nat.zero_le _⟩
        · intro _ _ bpp _
          rw [hcounts.bitpix, Option.getD_some, hgroups, hparams, Nat.sub_self, Nat.mul_zero,
            Nat.zero_mul, Nat.mul_zero, Nat.add_zero]
          refine ⟨Or.inl (asI32_of_range ?_), Nat.zero_le _⟩
          simp only [List.mem_cons, List.not_mem_nil, or_false] at hpixel
          omega
      have hagree := (extentsAgree_iff_counted hc).2 (Or.inr hplain)
      refine ⟨hagree, ?_⟩
      have hno := hoverflow.2 hfits
      have hsize : plan.2.val = (calculateDataSize (plan.1.map trimEnd)).val := by
        rw [hpadded, hval hno, calculateDataSize_val hagree.parsed, hdeclared]
      rw [← hsize, hpadded, ← hno]

/-- The product of axes that are not empty. -/
theorem declaredProduct_pos : ∀ (count i product : Nat), 0 < product →
    (∀ j d, i ≤ j → j < i + count → parseKeyword cards (naxisKey j) = some d → 0 < asU64 d) →
      0 < declaredProduct cards i count product := by
  intro count
  induction count with
  | zero =>
    intro i product hpos _
    exact hpos
  | succ count ih =>
    intro i product hpos hall
    rw [declaredProduct]
    cases hd : parseKeyword cards (naxisKey i) with
    | none => exact ih _ _ hpos fun j d hj hlt => hall j d (by omega) (by omega)
    | some d =>
      exact ih _ _ (Nat.mul_pos hpos (hall i d (Nat.le_refl i) (by omega) hd))
        fun j d hj hlt => hall j d (by omega) (by omega)

/-- The sizes of a new image with more axes do not agree: the checksum methods find no
thousandth axis, and the parser leaves it out. -/
theorem not_createdAgree_of_large {plan : List Card × Wrapped Nat} (htyped : args.Typed)
    (hpixel : bitpix ∈ [8, 16, 32, 64, (-32 : Int), -64])
    (hdims : validateDims 0 args.dims = .ok ())
    (hcounts : HasCounts bitpix args.dims (plan.1.map trimEnd))
    (hlarge : 999 < args.dims.length) : ¬ CreatedAgree plan := by
  rintro ⟨⟨hparsed, hchecksummed, -⟩, -⟩
  have hbytes : 0 < bitpix.natAbs / 8 := by
    simp only [List.mem_cons, List.not_mem_nil, or_false] at hpixel
    omega
  have hcount : asU64 (args.dims.length : Int) = args.dims.length := by
    rw [asU64_of_inI64 htyped.length (by omega), Int.toNat_natCast]
  -- the axes that are found are not empty
  have hpositive : ∀ i d, 1 ≤ i → i < 1 + args.dims.length →
      parseKeyword (plan.1.map trimEnd) (naxisKey i) = some d → 0 < asU64 d := by
    intro i d hpos hlt hd
    rcases Nat.lt_or_ge 999 i with hbig | hsmall
    · rw [parseKeyword_eq_none (naxisKey_length_gt hbig)] at hd
      cases hd
    · rw [hcounts.axis i hpos hlt hsmall, List.getElem?_reverse (by omega)] at hd
      have hmem : d ∈ args.dims.drop 1 := by
        refine List.mem_of_getElem? (i := args.dims.length - 1 - (i - 1) - 1) ?_
        rw [List.getElem?_drop, ← hd]
        congr 1
        omega
      have hdpos := (validateDims_ok hdims).2 d hmem
      rw [asU64_of_inI64 (htyped.dims d (List.mem_of_mem_drop hmem)) (by omega)]
      omega
  have hproduct := declaredProduct_pos args.dims.length 1 1 Nat.one_pos hpositive
  have hdeclared : 0 < declaredDataSize (plan.1.map trimEnd) := by
    have hround := le_roundUpToBlock (declaredRawSize (plan.1.map trimEnd))
    have hraw : 0 < declaredRawSize (plan.1.map trimEnd) := by
      rw [declaredRawSize, hcounts.bitpix, hcounts.naxis, hcounts.pcount, hcounts.gcount,
        Option.getD_some, Option.getD_some, hcount, if_pos (by decide)]
      exact Nat.mul_pos (Nat.mul_pos hbytes (by decide))
        (Nat.lt_of_lt_of_le hproduct (Nat.le_add_right _ _))
    rw [declaredDataSize, hcounts.naxis, Option.getD_some, hcount, if_neg (by omega)]
    omega
  -- the checksum methods count a missing axis as empty
  have helements : sectionElements (plan.1.map trimEnd) 1 args.dims.length 1 = 0 := by
    have h := @sectionElements_eq_prod (plan.1.map trimEnd) args.dims.length 1 1
    rw [show min 1 (u64Size - 1) = 1 by decide] at h
    rw [h, List.prod_eq_zero, Nat.mul_zero]
    · rfl
    · refine List.mem_map.2 ⟨1000, List.mem_range'_1.2 ⟨by omega, by omega⟩, ?_⟩
      rw [parseKeyword_eq_none (naxisKey_length_gt (by decide))]
      rfl
  have hsection : dataSectionPaddedSizeFor (plan.1.map trimEnd) = .ok 0 := by
    rw [dataSectionPaddedSizeFor, hcounts.naxis, hcounts.bitpix, hcounts.pcount, hcounts.gcount,
      Option.getD_some, if_neg (by omega)]
    dsimp only
    have hempty : saturatingMul (bitpix.natAbs / 8) 0 = 0 := by simp [saturatingMul]
    rw [Int.toNat_natCast, helements, hempty]
    rfl
  rw [hsection, calculateDataSize_val hparsed] at hchecksummed
  have := Except.ok.inj hchecksummed
  omega

/-- The four sizes of a new image agree exactly when it has at most 999 axes and its size
is a `u64`. -/
theorem planImage_agrees_iff {plan : List Card × Wrapped Nat} (htyped : args.Typed)
    (hpixel : dtypeToBitpix args.dtype = .ok (bitpix, bzero))
    (hplan : planImage isPrimary args = .ok plan) :
    CreatedAgree plan ↔ args.dims.length ≤ 999 ∧
      roundUpToBlock (bitpix.natAbs / 8 * pixelCount args.dims) < u64Size := by
  obtain ⟨hdims, hcards, hpadded⟩ := planImage_ok hpixel hplan
  have hbits := pixelBytes_of_dtype hpixel
  have hrange : InI64 bitpix := by
    simp only [List.mem_cons, List.not_mem_nil, or_false] at hbits
    unfold InI64
    omega
  have hcounts := hasCounts_imageCards htyped hrange hcards
  rcases Nat.lt_or_ge 999 args.dims.length with hlarge | hsmall
  · exact iff_of_false (not_createdAgree_of_large htyped hbits hdims hcounts hlarge) (by omega)
  · rw [createdAgree_of_small htyped hbits hdims hcounts hpadded hsmall]
    exact ⟨fun h => ⟨hsmall, h⟩, fun h => h.2⟩

/-- The formulas agree on the headers that the parser accepts, and on those of new images,
exactly where their counts are plain and their sizes fit. -/
theorem extents_agree_iff (cards : List Card) (isPrimary : Bool) (args : ImageArgs)
    (plan : List Card × Wrapped Nat) (bitpix : Int) (bzero : Option Int) :
    (validateHeader cards isPrimary = .ok () →
      (ExtentsAgree cards ↔ axes cards = [] ∨ PlainExtent cards)) ∧
    (args.Typed → dtypeToBitpix args.dtype = .ok (bitpix, bzero) →
      planImage isPrimary args = .ok plan →
        (CreatedAgree plan ↔ args.dims.length ≤ 999 ∧
          roundUpToBlock (bitpix.natAbs / 8 * pixelCount args.dims) < u64Size)) :=
  ⟨extentsAgree_iff, planImage_agrees_iff⟩

/-- An image of three pixels. -/
def rowHeader : List Card :=
  [str "XTENSION= 'IMAGE   '", str "BITPIX  =                   16",
    str "NAXIS   =                    1",
    str "NAXIS1  =                    3", str "PCOUNT  =                    0",
    str "GCOUNT  =                    1", endCard]

theorem extents_agree_row :
    (ExtentsAgree rowHeader ↔ axes rowHeader = [] ∨ PlainExtent rowHeader) ∧
      ∃ plan, planImage true ⟨str "<i2", [3], none, none, false, none⟩ = .ok plan ∧
        (CreatedAgree plan ↔ 1 ≤ 999 ∧ roundUpToBlock (2 * pixelCount [3]) < u64Size) :=
  ⟨(extents_agree_iff rowHeader false ⟨str "<i2", [3], none, none, false, none⟩ ([], ⟨0, false⟩) 16
      none).1 rfl, _, rfl,
    (extents_agree_iff rowHeader true ⟨str "<i2", [3], none, none, false, none⟩ _ 16 none).2
      ⟨by decide, by decide⟩ rfl rfl⟩

/-- An image of one pixel with 2880 parameters. -/
def paramHeader : List Card :=
  [str "XTENSION= 'IMAGE   '", str "BITPIX  =                   16",
    str "NAXIS   =                    1",
    str "NAXIS1  =                    1", str "PCOUNT  =                 2880",
    str "GCOUNT  =                    1", endCard]

/-- The three sizes of an image with parameters are three numbers, and the size of a new
image of `2 ^ 61` doubles is wrapped to zero. -/
theorem extents_disagree_params :
    validateHeader paramHeader false = .ok () ∧ (calculateDataSize paramHeader).val = 8640 ∧
      dataSectionPaddedSizeFor paramHeader = .ok 5760 ∧ (currentPadded [1] 2).val = 2880 ∧
        ¬ ExtentsAgree paramHeader ∧
      ∃ plan, planImage true ⟨str "<f8", [2305843009213693952], none, none, false,
        none⟩ = .ok plan ∧
        plan.2.val = 0 ∧ ¬ CreatedAgree plan := by
  have hparsed : (calculateDataSize paramHeader).val = 8640 := by decide +kernel
  have hsection : dataSectionPaddedSizeFor paramHeader = .ok 5760 := by decide +kernel
  refine ⟨by decide +kernel, hparsed, hsection, by decide +kernel, fun hagree => ?_, _, rfl,
    by decide +kernel, fun hagree => ?_⟩
  · have hchecksummed := hagree.checksummed
    rw [hparsed, hsection] at hchecksummed
    exact absurd (Except.ok.inj hchecksummed) (by decide)
  · have hover := congrArg Wrapped.overflow hagree.2
    exact absurd hover (by decide +kernel)

end

end RustFits.Image
