import RustFits.BinaryTable.Scan
import RustFits.BinaryTable.WriteCells

/-!
# Columns and their transforms

Which transform a column has, and that the conversion of a read undoes it.

* `Schema` is the layout of a table of fixed columns.
* `columnTransform_cases` says which transform a column has, for which input type, and
  `TransformFor.sized` that the sizes agree.
* `reads_cell` and `reads_text_iff`: a cell on disk is read as the cell that was
  written, and text as what is left of it.  `emptyScalar_unread` is the exception.
-/

namespace RustFits.BinaryTable

open Ascii ByteFile Machine BigEndian

/-! ## The table -/

/-- A table of fixed columns that lie one behind the other. -/
structure Schema (fields : List Field) (rowWidth : Nat) : Prop where
  fixed : ∀ field ∈ fields, field.varKind = none
  letter : ∀ field ∈ fields, isFixedLetter field.tformLetter
  exact : ∀ field ∈ fields, field.byteWidth = field.exactWidth
  placed : Placed 0 (fields.map Field.toColumn) rowWidth
  tdim : ∀ field ∈ fields, ∀ dims ∈ field.tdim, dims.prod = field.repeatCount
  dims : ∀ field ∈ fields, ∀ dims ∈ field.tdim, dims ≠ [] ∧ 0 < dims.prod

/-- A fixed column with its width and its dimensions. -/
structure FixedField (field : Field) : Prop where
  fixed : field.varKind = none
  letter : isFixedLetter field.tformLetter
  exact : field.byteWidth = field.exactWidth
  tdim : ∀ dims ∈ field.tdim, dims.prod = field.repeatCount
  dims : ∀ dims ∈ field.tdim, dims ≠ [] ∧ 0 < dims.prod

theorem Schema.field {fields : List Field} {rowWidth : Nat} (h : Schema fields rowWidth)
    {field : Field} (hfield : field ∈ fields) : FixedField field :=
  ⟨h.fixed field hfield, h.letter field hfield, h.exact field hfield, h.tdim field hfield,
    h.dims field hfield⟩

/-- A column whose numpy field has room for one element, while its cells have none. -/
def IsEmptyScalar (field : Field) : Prop := field.tformLetter ≠ 0x41 ∧ EmptyScalar field

section

variable {field : Field} {dtype : Dtype} {t : WriteTransform} {w : Nat}

/-- The bytes of an item that are swapped as one. -/
def Dtype.unit (dtype : Dtype) : Nat :=
  if dtype.kind = 0x63 then dtype.itemsize / 2
  else if dtype.kind = 0x55 then 4
  else if dtype.kind = 0x53 then 1
  else dtype.itemsize

/-- The transforms, with the columns and the types that they are for. -/
inductive TransformFor (field : Field) (dtype : Dtype) : WriteTransform → Prop where
  | bytesCopy : field.tformLetter = 0x41 → dtype = ⟨0x53, perStringBytes field⟩ →
      TransformFor field dtype (.bytesCopy field.byteWidth)
  | unicodeToAscii : field.tformLetter = 0x41 → dtype = ⟨0x55, 4 * perStringBytes field⟩ →
      TransformFor field dtype (.unicodeToAscii field.byteWidth)
  | bitsPackMsb : field.tformLetter = 0x58 → dtype = ⟨0x62, 1⟩ →
      TransformFor field dtype (.bitsPackMsb field.repeatCount)
  | boolToLogical : field.tformLetter = 0x4C → dtype = ⟨0x62, 1⟩ →
      TransformFor field dtype (.boolToLogical (field.byteWidth / 1))
  | unsignedXor (w : Nat) : bytesPerElement field.tformLetter = some w →
      field.tformLetter ≠ 0x42 → scalingKind field = .ok .unsignedTrick → dtype = ⟨0x75, w⟩ →
      TransformFor field dtype (.unsignedXor w (field.byteWidth / w))
  | identity (w : Nat) : bytesPerElement field.tformLetter = some w → field.tformLetter ≠ 0x41 →
      field.tformLetter ≠ 0x4C → scalingKind field = .ok .none →
      naturalDtype field.tformLetter = some dtype →
      TransformFor field dtype (.identity (swapUnit field.tformLetter)
        (field.byteWidth / swapUnit field.tformLetter))

theorem unsignedBias_ne_zero {letter : UInt8} {bias : Double}
    (h : unsignedBias letter = some bias) :
    bias.isZero = false := by
  unfold unsignedBias at h
  split_ifs at h <;> obtain rfl := Option.some.inj h <;> decide

theorem scalingKind_of_trick (h : unsignedTrick field = true) :
    scalingKind field = .ok .unsignedTrick ∧ field.tformLetter ≠ 0x42 ∧
      (unsignedBias field.tformLetter).isSome := by
  unfold unsignedTrick at h
  simp only [Bool.and_eq_true, decide_eq_true_eq] at h
  obtain ⟨⟨hone, hB⟩, hbias⟩ := h
  have hsome : (unsignedBias field.tformLetter).isSome := by rw [hbias]; rfl
  have hzero := unsignedBias_ne_zero hbias
  refine ⟨?_, hB, hsome⟩
  unfold scalingKind
  rw [if_neg (by simp [hzero])]
  rcases unsignedBias_cases hsome with h | h | h | h <;>
    rw [if_neg (by rw [h]; decide), if_neg (by rw [h]; decide), if_pos ⟨hone, hbias⟩]

theorem bytesPerElement_of_natural {letter : UInt8} (h : naturalDtype letter = some dtype)
    (hX : letter ≠ 0x58) : ∃ w, bytesPerElement letter = some w := by
  unfold naturalDtype at h
  split_ifs at h with h1 h2 h3 h4 h5 h6 h7 h8 h9
  · obtain rfl := h1.resolve_right hX
    exact ⟨_, rfl⟩
  all_goals
    subst letter
    exact ⟨_, rfl⟩

/-- The transform of a column. -/
theorem columnTransform_cases (h : columnTransform field dtype = .ok t) :
    TransformFor field dtype t := by
  unfold columnTransform at h
  dsimp only at h
  split_ifs at h with hA hS hU hX hbit
  · obtain rfl := Except.ok.inj h
    exact .bytesCopy hA hS
  · obtain rfl := Except.ok.inj h
    exact .unicodeToAscii hA hU
  · obtain rfl := Except.ok.inj h
    exact .bitsPackMsb hX hbit
  · split at h
    · rename_i natural hnatural
      unfold numberTransform at h
      dsimp only at h
      obtain ⟨w, hw⟩ := bytesPerElement_of_natural hnatural hX
      have hsize := naturalDtype_itemsize hw hA hnatural
      split_ifs at h with hL hbool htrick hu hplain hscaled
      · obtain rfl := Except.ok.inj h
        have hunit : swapUnit field.tformLetter = 1 := by rw [hL]; rfl
        rw [hunit]
        exact .boolToLogical hL hbool
      · obtain rfl := Except.ok.inj h
        obtain ⟨hkind, hB, hbias⟩ := scalingKind_of_trick htrick
        have hunit : swapUnit field.tformLetter = w := by
          rcases unsignedBias_cases hbias with h | h | h | h
          · exact absurd h hB
          all_goals
            rw [h] at hw ⊢
            exact Option.some.inj hw
        rw [hunit]
        exact .unsignedXor w hw hB hkind (by rw [hu, hsize])
      · obtain rfl := Except.ok.inj h
        have hkind : scalingKind field = .ok .none := if_pos hplain.2
        exact .identity w hw hA hL hkind (by rw [hnatural, hplain.1])
    · cases h

/-! ## Sizes -/

/-- The width of a column that is not of bits. -/
theorem FixedField.width (h : FixedField field) (hw : bytesPerElement field.tformLetter = some w) :
    field.byteWidth = field.repeatCount * w := by
  have hX : field.tformLetter ≠ 0x58 := by
    intro hX
    rw [hX] at hw
    cases hw
  rw [h.exact, Field.exactWidth, h.fixed]
  dsimp only
  rw [if_neg hX, hw, Option.getD_some]

theorem FixedField.text (h : FixedField field) (hA : field.tformLetter = 0x41) :
    field.byteWidth = field.repeatCount ∧
      perStringBytes field * (columnExpectedShape field).prod = field.repeatCount ∧
      (perStringBytes field = 0 → field.repeatCount = 0) := by
  have hw : bytesPerElement field.tformLetter = some 1 := by rw [hA]; rfl
  have hzero : perStringBytes field = 0 → field.repeatCount = 0 := by
    unfold perStringBytes
    cases hdims : field.tdim with
    | none => exact id
    | some dims =>
      obtain ⟨hne, hpos⟩ := h.dims dims hdims
      cases dims with
      | nil => exact absurd rfl hne
      | cons d dims =>
        intro hd
        have hd : d = 0 := hd
        rw [List.prod_cons, hd, Nat.zero_mul] at hpos
        exact absurd hpos (lt_irrefl 0)
  refine ⟨by rw [h.width hw, Nat.mul_one], ?_, hzero⟩
  by_cases hstr : perStringBytes field = 0
  · rw [hstr, hzero hstr, Nat.zero_mul]
  · have := text_size hA h.tdim hstr
    rw [Nat.mul_assoc] at this
    omega

theorem FixedField.items (h : FixedField field) (hA : field.tformLetter ≠ 0x41)
    (hne : ¬IsEmptyScalar field) : (columnExpectedShape field).prod = field.repeatCount :=
  (shape_prod hA h.tdim).2 fun he => hne ⟨hA, he⟩

theorem swapUnit_dvd {letter : UInt8} (hw : bytesPerElement letter = some w) :
    0 < swapUnit letter ∧ swapUnit letter ∣ w := by
  rcases letter_cases hw with ⟨rfl, rfl⟩ | ⟨rfl, rfl⟩ | ⟨rfl, rfl⟩ | ⟨rfl, rfl⟩ | ⟨rfl, rfl⟩ |
    ⟨rfl, rfl⟩ | ⟨rfl, rfl⟩ | ⟨rfl, rfl⟩ | ⟨rfl, rfl⟩ | ⟨rfl, rfl⟩ <;> decide

theorem bytesPerElement_pos {letter : UInt8} (hw : bytesPerElement letter = some w) : 0 < w := by
  rcases letter_cases hw with ⟨_, rfl⟩ | ⟨_, rfl⟩ | ⟨_, rfl⟩ | ⟨_, rfl⟩ | ⟨_, rfl⟩ | ⟨_, rfl⟩ |
    ⟨_, rfl⟩ | ⟨_, rfl⟩ | ⟨_, rfl⟩ | ⟨_, rfl⟩ <;> decide

/-- The cells of the input have the size that the transform takes. -/
theorem TransformFor.sized (h : TransformFor field dtype t) (hf : FixedField field)
    (hne : ¬IsEmptyScalar field) :
    t.Sized (fieldSize dtype (columnExpectedShape field)) field.byteWidth := by
  unfold fieldSize
  cases h with
  | bytesCopy hA hd =>
    obtain ⟨hwidth, hsize, -⟩ := hf.text hA
    rw [hd]
    exact ⟨rfl, hsize.trans hwidth.symm⟩
  | unicodeToAscii hA hd =>
    obtain ⟨hwidth, hsize, -⟩ := hf.text hA
    rw [hd]
    refine ⟨rfl, ?_⟩
    dsimp only
    rw [Nat.mul_assoc, hsize, hwidth, Nat.mul_comm]
  | bitsPackMsb hX hd =>
    have hA : field.tformLetter ≠ 0x41 := by rw [hX]; decide
    rw [hd, hf.items hA hne]
    refine ⟨?_, Nat.one_mul _⟩
    rw [hf.exact, Field.exactWidth, hf.fixed]
    exact (if_pos hX).symm
  | boolToLogical hL hd =>
    have hA : field.tformLetter ≠ 0x41 := by rw [hL]; decide
    have hw : bytesPerElement field.tformLetter = some 1 := by rw [hL]; rfl
    rw [hd, hf.items hA hne, hf.width hw]
    exact ⟨by rw [Nat.div_one], by rw [Nat.mul_one, Nat.one_mul]⟩
  | unsignedXor w hw hB hkind hd =>
    have hA : field.tformLetter ≠ 0x41 := by
      rcases unsignedBias_cases (scalingKind_unsignedTrick hkind) with h | h | h | h <;>
        rw [h] <;> decide
    have hpos := bytesPerElement_pos hw
    rw [hd, hf.items hA hne, hf.width hw]
    exact ⟨hpos, by rw [Nat.mul_div_cancel _ hpos], Nat.mul_comm _ _⟩
  | identity w hw hA hL hkind hd =>
    obtain ⟨hpos, hdvd⟩ := swapUnit_dvd hw
    rw [hf.items hA hne, hf.width hw, naturalDtype_itemsize hw hA hd]
    exact ⟨hpos, Nat.div_mul_cancel (hdvd.mul_left _), Nat.mul_comm _ _⟩

end

/-! ## Reading a cell back -/

/-- The strings on disk as the characters that a read gives. -/
def textField (field : Field) (disk : Bytes) : Bytes :=
  mapElements (field.repeatCount / perStringBytes field) (perStringBytes field)
    (wideString (perStringBytes field)) disk

/-- What a read gives for a cell: the cell, and for text what is left of it up to the
first NUL without the blanks at the end. -/
def readBack (field : Field) (t : WriteTransform) (cell : Bytes) : Bytes :=
  match t with
  | .bytesCopy _ => textField field (encoded t cell)
  | .unicodeToAscii _ => textField field (encoded t cell)
  | _ => cell

/-- A read converts these bytes of a row to `out`, whatever was in the array before. -/
def ReadsAs (doubles : Doubles) (field : Field) (disk out : Bytes) : Prop :=
  ∃ kind dtype shape, columnKind true field = .ok kind ∧
    fieldDtypeAndShape field true = .ok (dtype, shape) ∧
      ∀ dst : Bytes, dst.length = fieldSize dtype shape → ∀ row,
        convertColumnCell doubles true field disk dst row kind = .ok out

/-- The strings of a cell can be read. -/
def TextReads (field : Field) (disk : Bytes) : Prop :=
  ∀ s < field.repeatCount / perStringBytes field,
    ReadableText (slice disk (s * perStringBytes field) (perStringBytes field))

section

variable {doubles : Doubles} {field : Field} {dtype : Dtype} {t : WriteTransform} {w : Nat}
  {src dst disk out : Bytes}

theorem scalingKind_flat (h : field.tformLetter = 0x4C ∨ field.tformLetter = 0x41 ∨
    field.tformLetter = 0x58) : scalingKind field = .ok .none := by
  unfold scalingKind
  split_ifs <;> rfl

/-- A text cell. -/
theorem reads_text_iff (hf : FixedField field) (hA : field.tformLetter = 0x41)
    (hdisk : disk.length = field.repeatCount) :
    ReadsAs doubles field disk (textField field disk) ↔ TextReads field disk := by
  obtain ⟨hwidth, hsize, hzero⟩ := hf.text hA
  have hkind : columnKind true field = .ok .none := scalingKind_flat (.inr (.inl hA))
  have hdtype : fieldDtypeAndShape field true =
      .ok (⟨0x55, 4 * perStringBytes field⟩, columnExpectedShape field) := by
    rw [fieldDtypeAndShape, hf.fixed, hA]
    rfl
  have hconvert (dst : Bytes) (row : Nat) :
      convertColumnCell doubles true field disk dst row .none =
      convertACell true field disk dst row := by
    unfold convertColumnCell
    rw [hA]
    rfl
  by_cases hstr : perStringBytes field = 0
  · -- nothing is stored and nothing is read
    have hrepeat := hzero hstr
    refine iff_of_true ⟨.none, _, _, hkind, hdtype, fun dst hdst row => ?_⟩ fun s hs => ?_
    · have hempty : dst = [] := by
        rw [← List.length_eq_zero_iff, hdst, fieldSize, hstr]
        simp
      rw [hconvert, convertACell, if_pos hstr, hempty, textField, hrepeat, Nat.zero_div]
      rfl
    · rw [hrepeat, Nat.zero_div] at hs
      omega
  · have hcount :
        field.repeatCount = field.repeatCount / perStringBytes field * perStringBytes field :=
      (Nat.div_mul_cancel ⟨_, hsize.symm⟩).symm
    constructor
    · rintro ⟨kind, found, shape, hk, hd, hreads⟩
      rw [hkind] at hk
      obtain rfl := Except.ok.inj hk
      have hread := hreads (List.replicate (fieldSize found shape) 0) List.length_replicate 0
      rw [hconvert] at hread
      exact readable_of_reads rfl (Nat.pos_of_ne_zero hstr) hcount hread
    · intro htext
      refine ⟨.none, _, _, hkind, hdtype, fun dst hdst row => ?_⟩
      rw [hconvert]
      refine reads_text rfl (Nat.pos_of_ne_zero hstr) hcount (hdisk.trans hcount) ?_ htext
      rw [hdst, fieldSize]
      dsimp only
      rw [Nat.mul_assoc, hsize, ← Nat.mul_assoc, ← hcount, Nat.mul_comm]

/-- A cell of numbers, bools or bits comes back as it was. -/
theorem reads_cell (h : TransformFor field dtype t) (hf : FixedField field)
    (hne : ¬IsEmptyScalar field) (hA : field.tformLetter ≠ 0x41)
    (hsrc : src.length = fieldSize dtype (columnExpectedShape field))
    (hbool : dtype.kind = 0x62 → ∀ b ∈ src, IsBool b) :
    ReadsAs doubles field (encoded t src) src := by
  have hsized := h.sized hf hne
  rw [← hsrc] at hsized
  unfold ReadsAs fieldDtypeAndShape
  rw [hf.fixed]
  simp only [Option.isSome_none, Bool.false_eq_true, if_false, if_neg hA]
  cases h with
  | bytesCopy h _ => exact absurd h hA
  | unicodeToAscii h _ => exact absurd h hA
  | bitsPackMsb hX hd =>
    obtain ⟨-, hlen⟩ := hsized
    refine ⟨.none, _, _, scalingKind_flat (.inr (.inr hX)), if_pos hX, fun dst hdst row => ?_⟩
    have hdst : dst.length = src.length := by rw [hdst, hsrc, hd]
    have hconvert :
        convertColumnCell doubles true field (encoded (.bitsPackMsb field.repeatCount) src)
        dst row .none = convertXCell field (encoded (.bitsPackMsb field.repeatCount) src) dst := by
      unfold convertColumnCell
      rw [hX]
      rfl
    rw [hconvert, ← hlen]
    exact reads_bits (hbool (by rw [hd])) hlen.symm hdst
  | boolToLogical hL hd =>
    obtain ⟨-, hlen⟩ := hsized
    have hkind : scalingKind field = .ok .none := scalingKind_flat (.inl hL)
    have hX : field.tformLetter ≠ 0x58 := by rw [hL]; decide
    refine ⟨.none, ⟨0x62, 1⟩, columnExpectedShape field, hkind, ?_, fun dst hdst row => ?_⟩
    · rw [if_neg hX, columnKind, if_pos rfl, hkind, hL]
      rfl
    · have hdst : dst.length = src.length := by rw [hdst, hsrc, hd]
      have hconvert : convertColumnCell doubles true field
          (encoded (.boolToLogical (field.byteWidth / 1)) src) dst row .none =
            eachElement (encoded (.boolToLogical (field.byteWidth / 1)) src).length 1 1 logicalByte
              (encoded (.boolToLogical (field.byteWidth / 1)) src) dst := by
        unfold convertColumnCell
        rw [hL]
        rfl
      rw [hconvert]
      exact reads_logicals (hbool (by rw [hd])) (by rw [hlen, Nat.div_one]) hdst
  | unsignedXor w hw hB hkind hd =>
    obtain ⟨hpos, hcount, hlen⟩ := hsized
    have hbias := scalingKind_unsignedTrick hkind
    have hX : field.tformLetter ≠ 0x58 := by
      rcases unsignedBias_cases hbias with h | h | h | h <;> rw [h] <;> decide
    have hscaled : scaledOutputDtype field.tformLetter .unsignedTrick = some ⟨0x75, w⟩ := by
      rcases unsignedBias_cases hbias with h | h | h | h
      · exact absurd h hB
      all_goals
        rw [h] at hw ⊢
        rw [← Option.some.inj hw]
        rfl
    refine ⟨.unsignedTrick, ⟨0x75, w⟩, columnExpectedShape field, hkind, ?_, fun dst hdst row => ?_⟩
    · rw [if_neg hX, columnKind, if_pos rfl, hkind]
      simp only [Bind.bind, Except.bind]
      rw [if_neg (by decide), hscaled]
      rfl
    · have hdst : dst.length = src.length := by rw [hdst, hsrc, hd]
      have hrepeat : field.repeatCount = field.byteWidth / w := by
        rw [hf.width hw, Nat.mul_div_cancel _ hpos]
      have hread : eachElement (field.byteWidth / w) w w (unsignedElement true w) _ dst = _ :=
        reads_unsigned hpos (hlen.trans hcount.symm) hdst
      unfold convertColumnCell convertUnsignedTrickCell
      dsimp only
      rw [hrepeat]
      rcases unsignedBias_cases hbias with h | h | h | h
      · exact absurd h hB
      all_goals
        rw [h] at hw ⊢
        obtain rfl := Option.some.inj hw
        exact hread
  | identity w hw _ hL hkind hd =>
    obtain ⟨hpos, hcount, hlen⟩ := hsized
    have hX : field.tformLetter ≠ 0x58 := by
      intro hX
      rw [hX] at hw
      cases hw
    refine ⟨.none, dtype, columnExpectedShape field, hkind, ?_, fun dst hdst row => ?_⟩
    · rw [if_neg hX, columnKind, if_pos rfl, hkind]
      simp only [Bind.bind, Except.bind, if_true, hd]
      rfl
    · have hdst : dst.length = src.length := by rw [hdst, hsrc]
      have hread (hone : 1 < swapUnit field.tformLetter) :
          copyWithByteswap true _ dst (swapUnit field.tformLetter) = _ :=
        reads_numbers hone (hlen.trans hcount.symm) hdst
      unfold convertColumnCell
      rcases letter_cases hw with ⟨h, -⟩ | ⟨h, -⟩ | ⟨h, -⟩ | ⟨h, -⟩ | ⟨h, -⟩ | ⟨h, -⟩ | ⟨h, -⟩ |
        ⟨h, -⟩ | ⟨h, -⟩ | ⟨h, -⟩
      · exact absurd h hA
      · exact absurd h hL
      · rw [h]
        exact copyFromSlice_ok hdst.symm
      all_goals
        rw [h] at hread ⊢
        exact hread (by decide)

theorem copyFromSlice_nil (h : copyFromSlice [] dst = .ok out) : out = dst := by
  unfold copyFromSlice at h
  split_ifs at h with hlen
  rw [← Except.ok.inj h, List.length_eq_zero_iff.1 hlen.symm]

theorem copyWithByteswap_nil {size : Nat} (h : copyWithByteswap true [] dst size = .ok out) :
    out = dst := by
  unfold copyWithByteswap at h
  split at h
  · exact copyFromSlice_nil h
  · rw [List.length_nil, Nat.zero_div] at h
    exact (Except.ok.inj h).symm

/-- The conversion of an empty cell leaves the array as it is. -/
theorem converts_nothing (hA : field.tformLetter ≠ 0x41) (hrepeat : field.repeatCount = 0)
    {kind : ScalingKind} {row : Nat}
    (h : convertColumnCell doubles true field [] dst row kind = .ok out) : out = dst := by
  unfold convertColumnCell at h
  cases kind with
  | unsignedTrick =>
    unfold convertUnsignedTrickCell at h
    rw [hrepeat] at h
    split_ifs at h <;> exact (Except.ok.inj h).symm
  | general =>
    unfold convertGeneralScalingCell at h
    rw [hrepeat] at h
    dsimp only at h
    split_ifs at h <;> exact (Except.ok.inj h).symm
  | none =>
    dsimp only at h
    split_ifs at h
    · exact (Except.ok.inj h).symm
    · exact copyFromSlice_nil h
    · exact copyWithByteswap_nil h
    · exact copyWithByteswap_nil h
    · exact copyWithByteswap_nil h
    · unfold convertXCell at h
      rw [hrepeat, Nat.zero_min] at h
      exact (Except.ok.inj h).symm

/-- An empty scalar has an element in the array, which no read fills. -/
theorem emptyScalar_unread (hf : FixedField field) (hempty : IsEmptyScalar field) :
    ¬ReadsAs doubles field [] out := by
  obtain ⟨hA, hrepeat, htdim⟩ := hempty
  rintro ⟨kind, dtype, shape, hkind, hdtype, hreads⟩
  have hshape : columnExpectedShape field = [] := by
    rw [columnExpectedShape, if_neg hA, htdim, hrepeat]
    rfl
  have hsize : 0 < fieldSize dtype shape := by
    unfold fieldDtypeAndShape at hdtype
    rw [hf.fixed, if_neg hA, hshape] at hdtype
    simp only [Option.isSome_none, Bool.false_eq_true, if_false, hkind, Bind.bind, Except.bind]
      at hdtype
    split_ifs at hdtype with hX hnone
    · obtain ⟨rfl, rfl⟩ := Prod.mk.inj (Except.ok.inj hdtype)
      decide
    · split at hdtype
      · rename_i found hfound
        obtain ⟨rfl, rfl⟩ := Prod.mk.inj (Except.ok.inj hdtype)
        obtain ⟨w, hw⟩ := bytesPerElement_of_natural hfound hX
        rw [fieldSize, naturalDtype_itemsize hw hA hfound]
        simpa using bytesPerElement_pos hw
      · cases hdtype
    · split at hdtype
      · rename_i found hfound
        obtain ⟨rfl, rfl⟩ := Prod.mk.inj (Except.ok.inj hdtype)
        have hitem : 0 < found.itemsize := by
          unfold scaledOutputDtype at hfound
          split at hfound
          · split_ifs at hfound <;> obtain rfl := Option.some.inj hfound <;> decide
          · obtain rfl := Option.some.inj hfound
            decide
          · cases hfound
        simpa [fieldSize] using hitem
      · cases hdtype
  have hzero := converts_nothing hA hrepeat
    (hreads (List.replicate (fieldSize dtype shape) 0) List.length_replicate 0)
  have hone := converts_nothing hA hrepeat
    (hreads (List.replicate (fieldSize dtype shape) 1) List.length_replicate 0)
  have hsame := hzero.symm.trans hone
  rw [List.replicate_right_inj hsize.ne'] at hsame
  exact absurd hsame (by decide)

end

end RustFits.BinaryTable
