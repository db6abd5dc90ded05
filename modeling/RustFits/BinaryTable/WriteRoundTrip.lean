import RustFits.BinaryTable.RowLayout
import RustFits.BinaryTable.WriteRows

/-!
# Rows, written and read

* `RoundTrips` says that a block of rows comes back: both paths write the same bytes,
  in strips of any size, and a read gives the values of each cell.
* `RowsFit` is when it does.  The type of an array does not tell its byte order, and the
  transform of a column is chosen by the type alone, so an array in the other order is
  written as it lies in memory.
* `writeRoundTrips_iff` puts the two together.
-/

namespace RustFits.BinaryTable

open Ascii ByteFile Machine BigEndian

/-! ## What comes back -/

/-- The column of a part has a type of this kind in the input. -/
def WriteInput.HasKind (input : WriteInput) (part : WritePart) (kind : UInt8) : Prop :=
  ∃ dtype bigEndian, input.column part.field.name = some (dtype, bigEndian) ∧ dtype.kind = kind

/-- Bools are bools and characters are characters, as numpy keeps them. -/
structure ValidCells (input : WriteInput) (nrows : Nat) (prep : PreparedInput) : Prop where
  bools : ∀ part ∈ prep.parts, input.HasKind part 0x62 → ∀ r < nrows, ∀ b ∈ part.memory r, IsBool b
  chars : ∀ part ∈ prep.parts, ∀ dtype bigEndian,
    input.column part.field.name = some (dtype, bigEndian) → dtype.kind = 0x55 →
      ∀ r < nrows, ∀ i < part.source.srcTotalSize / 4,
        fromBe (if bigEndian then slice (part.memory r) (i * 4) 4
          else (slice (part.memory r) (i * 4) 4).reverse) < 0x110000

/-- Both paths write the same rows, and the rows are read as they were. -/
structure RoundTrips (doubles : Doubles) (input : WriteInput) (nrows rowWidth : Nat)
    (prep : PreparedInput) : Prop where
  paths : prep.layoutMatches = true → ∀ start target s, start ≤ s.bytes.length →
    writeTableData prep start nrows rowWidth target s =
      writeTableData { prep with layoutMatches := false } start nrows rowWidth target s
  rows : ∃ rows : Bytes, rows.length = nrows * rowWidth ∧
    (∀ start target s, start ≤ s.bytes.length →
      writeTableData prep start nrows rowWidth target s =
        .ok () ⟨writeAll s.bytes start rows, s.hdus⟩) ∧
    ∀ part ∈ prep.parts, ∀ r < nrows,
      ReadsAs doubles part.field
        (slice rows (slotOffset rowWidth r part.field.toColumn) part.field.byteWidth)
        (readBack part.field part.transform (input.nativeCell part r))

/-- The cells are in the byte order of the machine, or read the same in both, and text is
ASCII.  No column is an empty scalar, and where the input has the layout of the rows there
is a column, and none of empty characters. -/
structure RowsFit (input : WriteInput) (nrows : Nat) (prep : PreparedInput) : Prop where
  order : ∀ part ∈ prep.parts, ∀ r < nrows, input.nativeCell part r = part.memory r
  text : ∀ part ∈ prep.parts, input.HasKind part 0x53 → ∀ r < nrows,
    TextReads part.field (part.memory r)
  chars : ∀ part ∈ prep.parts, input.HasKind part 0x55 → ∀ r < nrows,
    ∀ i < part.source.srcTotalSize / 4, fromBe (slice (part.memory r) (i * 4) 4).reverse ≤ 0x7F
  scalar : 0 < nrows → ∀ part ∈ prep.parts, ¬IsEmptyScalar part.field
  bulk : 0 < nrows → prep.layoutMatches = true →
    prep.parts ≠ [] ∧ ∀ part ∈ prep.parts, ¬input.HasKind part 0x55

/-! ## Cells -/

section

variable {doubles : Doubles} {field : Field} {dtype : Dtype} {t : WriteTransform}
  {src out out' : Bytes}
  {letter : UInt8} {n : Nat}

theorem naturalDtype_kind (h : naturalDtype letter = some dtype) :
    dtype.kind ≠ 0x53 ∧ dtype.kind ≠ 0x55 := by
  unfold naturalDtype at h
  split_ifs at h <;> obtain rfl := Option.some.inj h <;> decide

/-- Bytes are copied for an `S` type only. -/
theorem TransformFor.bytes (h : TransformFor field dtype t) (hkind : dtype.kind = 0x53) :
    field.tformLetter = 0x41 ∧ t = .bytesCopy field.byteWidth := by
  cases h with
  | bytesCopy hA => exact ⟨hA, rfl⟩
  | identity w _ _ _ _ hd => exact absurd hkind (naturalDtype_kind hd).1
  | _ => simp_all

/-- Characters are narrowed for a `U` type only. -/
theorem TransformFor.chars (h : TransformFor field dtype t) (hkind : dtype.kind = 0x55) :
    field.tformLetter = 0x41 ∧ t = .unicodeToAscii field.byteWidth := by
  cases h with
  | unicodeToAscii hA => exact ⟨hA, rfl⟩
  | identity w _ _ _ _ hd => exact absurd hkind (naturalDtype_kind hd).2
  | _ => simp_all

/-- A text column takes bytes or characters. -/
theorem TransformFor.text (h : TransformFor field dtype t) (hA : field.tformLetter = 0x41) :
    dtype.kind = 0x53 ∨ dtype.kind = 0x55 := by
  cases h with
  | bytesCopy _ hd => exact .inl (by rw [hd])
  | unicodeToAscii _ hd => exact .inr (by rw [hd])
  | bitsPackMsb hX => exact absurd (hA.symm.trans hX) (by decide)
  | boolToLogical hL => exact absurd (hA.symm.trans hL) (by decide)
  | unsignedXor w _ _ hkind =>
    rcases unsignedBias_cases (scalingKind_unsignedTrick hkind) with h | h | h | h <;>
      exact absurd (hA.symm.trans h) (by decide)
  | identity w _ hne => exact absurd hA hne

/-- Two reads of the same bytes give the same. -/
theorem ReadsAs.unique {disk : Bytes} (h : ReadsAs doubles field disk out)
    (h' : ReadsAs doubles field disk out') : out = out' := by
  obtain ⟨kind, dtype, shape, hkind, hdtype, hreads⟩ := h
  obtain ⟨kind', dtype', shape', hkind', hdtype', hreads'⟩ := h'
  obtain rfl := Except.ok.inj (hkind.symm.trans hkind')
  obtain ⟨rfl, rfl⟩ := Prod.mk.inj (Except.ok.inj (hdtype.symm.trans hdtype'))
  exact Except.ok.inj ((hreads _ List.length_replicate 0).symm.trans
    (hreads' (List.replicate (fieldSize dtype shape) 0) List.length_replicate 0))

theorem mapElements_reverse_single (src : Bytes) :
    mapElements (src.length / 1) 1 List.reverse src = src := by
  rw [Nat.div_one]
  have hsame : mapElements src.length 1 List.reverse src = mapElements src.length 1 id src := by
    apply mapElements_congr
    intro k hk
    have hone : (slice src (k * 1) 1).length = 1 := slice_element_length (by omega) hk
    obtain ⟨b, hb⟩ := List.length_eq_one_iff.1 hone
    rw [hb]
    rfl
  rw [hsame, mapElements_id (by omega)]

/-- A code point that is one in both byte orders, and ASCII in one, is zero. -/
theorem reverse_of_codes {code : Bytes} (hlen : code.length = 4)
    (hascii : fromBe code.reverse ≤ 0x7F)
    (hvalid : fromBe code < 0x110000) : code.reverse = code := by
  obtain ⟨a, b, c, d, rfl⟩ : ∃ a b c d, code = [a, b, c, d] := by
    match code, hlen with
    | [a, b, c, d], _ => exact ⟨a, b, c, d, rfl⟩
  simp only [fromBe, List.reverse_cons, List.reverse_nil, List.nil_append, List.cons_append,
    List.foldl_cons, List.foldl_nil] at hascii hvalid ⊢
  have hzero : a = 0 ∧ b = 0 ∧ c = 0 ∧ d = 0 := by
    simp only [← UInt8.toNat_inj, UInt8.toNat_zero]
    omega
  rw [hzero.1, hzero.2.1, hzero.2.2.1, hzero.2.2.2]

/-- Narrowed characters can be read. -/
theorem narrowed_reads {w : Nat} (haccept : WriteTransform.Accepts (.unicodeToAscii w) src) :
    TextReads field (encoded (.unicodeToAscii w) src) := by
  have hbytes : ∀ b ∈ encoded (.unicodeToAscii w) src, b < 0x80 := by
    intro b hb
    obtain ⟨i, hi, hb⟩ := List.mem_flatMap.1 hb
    have hcode := haccept i (List.mem_range.1 hi)
    obtain rfl := List.mem_singleton.1 hb
    have hsmall : fromBe (slice src (i * 4) 4).reverse < UInt8.size :=
      Nat.lt_of_le_of_lt hcode (by decide)
    rw [UInt8.lt_iff_toNat_lt, UInt8.toNat_ofNat_of_lt' hsmall]
    exact Nat.lt_succ_of_le hcode
  intro s hs b hb
  apply hbytes
  have hsub : b ∈ slice (encoded (.unicodeToAscii w) src) (s * perStringBytes field)
      (perStringBytes field) :=
    (List.takeWhile_prefix _).subset ((List.rdropWhile_prefix _ _).subset hb)
  exact List.mem_of_mem_drop (List.mem_of_mem_take hsub)

theorem encoded_bytesCopy (h : src.length = n) : encoded (.bytesCopy n) src = src := by
  rw [encoded, slice, List.drop_zero, ← h, List.take_length]

/-- A cell of the input, written and read. -/
theorem TransformFor.reads (h : TransformFor field dtype t) (hf : FixedField field)
    (hne : ¬IsEmptyScalar field) (hsrc : src.length = fieldSize dtype (columnExpectedShape field))
    (hbool : dtype.kind = 0x62 → ∀ b ∈ src, IsBool b) (haccept : t.Accepts src)
    (htext : dtype.kind = 0x53 → TextReads field src) :
    ReadsAs doubles field (encoded t src) (readBack field t src) := by
  have hsized := h.sized hf hne
  rw [← hsrc] at hsized
  by_cases hA : field.tformLetter = 0x41
  · have hwidth : (encoded t src).length = field.repeatCount :=
      (encoded_length hsized haccept).trans (hf.text hA).1
    rcases h.text hA with hkind | hkind
    · obtain ⟨-, rfl⟩ := h.bytes hkind
      apply (reads_text_iff hf hA hwidth).2
      rw [encoded_bytesCopy hsized.2]
      exact htext hkind
    · obtain ⟨-, rfl⟩ := h.chars hkind
      exact (reads_text_iff hf hA hwidth).2 (narrowed_reads haccept)
  · have hsame : readBack field t src = src := by
      cases h with
      | bytesCopy h => exact absurd h hA
      | unicodeToAscii h => exact absurd h hA
      | _ => rfl
    rw [hsame]
    exact reads_cell h hf hne hA hsrc hbool

end

/-! ## Blocks of rows -/

section

variable {doubles : Doubles} {input : WriteInput} {fields : List Field} {nrows rowWidth : Nat}
  {prep : PreparedInput} {part : WritePart}

theorem Prepared.field (h : Prepared input fields nrows rowWidth prep)
    (schema : Schema fields rowWidth) (hpart : part ∈ prep.parts) : FixedField part.field := by
  apply schema.field
  rw [← h.fields_eq]
  exact List.mem_map_of_mem hpart

/-- The rows of prepared input. -/
theorem Prepared.placeable (h : Prepared input fields nrows rowWidth prep)
    (schema : Schema fields rowWidth) (hscalar : ∀ part ∈ prep.parts, ¬IsEmptyScalar part.field)
    (haccept : ∀ part ∈ prep.parts, ∀ r < nrows, part.transform.Accepts (part.memory r)) :
    Placeable prep.parts rowWidth nrows := by
  refine ⟨?_, fun part hpart => ?_, fun part hpart => (h.parts part hpart).1, haccept⟩
  · have hcolumns : prep.parts.map (fun part => part.field.toColumn) =
        fields.map Field.toColumn := by
      rw [← h.fields_eq, List.map_map]
      rfl
    rw [hcolumns]
    exact schema.placed
  · obtain ⟨-, dtype, bigEndian, -, ht, hsize⟩ := h.parts part hpart
    rw [hsize]
    exact ht.sized (h.field schema hpart) (hscalar part hpart)

/-- A column that is not of characters is converted in place in the bulk path. -/
theorem Prepared.inPlace (h : Prepared input fields nrows rowWidth prep)
    (hlayout : prep.layoutMatches = true) (hpart : part ∈ prep.parts)
    (hchars : ¬input.HasKind part 0x55) : part.transform.InPlace := by
  obtain ⟨-, dtype, bigEndian, hcolumn, ht, -⟩ := h.parts part hpart
  have hbits := h.bits hlayout part hpart
  cases hform : part.transform with
  | unicodeToAscii n =>
    rw [hform] at ht
    cases ht with
    | unicodeToAscii _ hd => exact absurd ⟨dtype, bigEndian, hcolumn, by rw [hd]⟩ hchars
  | bitsPackMsb n =>
    rw [hform] at ht
    cases ht with
    | bitsPackMsb hX => exact absurd hX hbits
  | _ => trivial

/-- Either path gives the rows. -/
theorem Prepared.strip (h : Prepared input fields nrows rowWidth prep)
    (hplace : Placeable prep.parts rowWidth nrows)
    (hbulk : prep.layoutMatches = true → prep.parts ≠ [] ∧ ∀ part ∈ prep.parts,
      ¬input.HasKind part 0x55)
    {a n : Nat} (hfit : a + n ≤ nrows) :
    writeStrip prep rowWidth a n = .ok (diskRows prep.parts a n) := by
  cases hlayout : prep.layoutMatches with
  | false => exact columns_strip hplace hfit hlayout
  | true =>
    obtain ⟨bytes, hsource⟩ := h.bulk hlayout
    obtain ⟨hne, hchars⟩ := hbulk hlayout
    exact bulk_strip hplace hsource hfit hne fun part hpart =>
      h.inPlace hlayout hpart (hchars part hpart)

/-- A path that gives the rows has accepted every cell. -/
theorem Prepared.accepts_of_strip (h : Prepared input fields nrows rowWidth prep) {strip : Bytes}
    (hstrip : writeStrip prep rowWidth 0 nrows = .ok strip) :
    (prep.layoutMatches = true → prep.parts ≠ [] ∧ ∀ part ∈ prep.parts, ¬input.HasKind part 0x55) ∧
      ∀ part ∈ prep.parts, ∀ r < nrows, part.transform.Accepts (part.memory r) := by
  have hkind (part : WritePart) (hpart : part ∈ prep.parts) (hchars : input.HasKind part 0x55) :
      ∃ n, part.transform = .unicodeToAscii n := by
    obtain ⟨-, dtype, bigEndian, hcolumn, ht, -⟩ := h.parts part hpart
    obtain ⟨found, order, hfound, hkind⟩ := hchars
    obtain ⟨rfl, rfl⟩ := Prod.mk.inj (Option.some.inj (hcolumn.symm.trans hfound))
    exact ⟨_, (ht.chars hkind).2⟩
  cases hlayout : prep.layoutMatches with
  | true =>
    rw [writeStrip, hlayout, if_pos rfl] at hstrip
    split at hstrip
    · cases hstrip
    · rename_i shared rest hparts
      obtain ⟨copied, -, hloop⟩ := bind_eq_ok.1 hstrip
      -- the bulk path refuses characters with a panic
      have hchars : ∀ part ∈ prep.parts, ∀ n, part.transform ≠ .unicodeToAscii n := by
        intro part hpart n hform
        obtain ⟨buf, out, hstep⟩ := exists_step_of_foldlM hloop hpart
        rw [hform] at hstep
        cases hstep
      refine ⟨fun _ => ⟨?_, fun part hpart hcontra => ?_⟩, fun part hpart r _ => ?_⟩
      · rw [hparts]
        exact List.cons_ne_nil _ _
      · obtain ⟨n, hform⟩ := hkind part hpart hcontra
        exact hchars part hpart n hform
      · cases hform : part.transform with
        | unicodeToAscii n => exact absurd hform (hchars part hpart n)
        | _ => trivial
  | false =>
    rw [writeStrip, hlayout, if_neg (by decide)] at hstrip
    refine ⟨fun h => (by cases h), fun part hpart r hr => ?_⟩
    obtain ⟨buf, out, hcolumn⟩ := exists_step_of_foldlM hstrip hpart
    obtain ⟨buf', out', hcell⟩ := exists_step_of_foldlM hcolumn (List.mem_range.2 hr)
    unfold placeCell at hcell
    rw [Nat.zero_add, cell_ok (h.parts part hpart).1 hr] at hcell
    obtain ⟨src, hsrc, hcell⟩ := bind_eq_ok.1 hcell
    obtain rfl := Except.ok.inj hsrc
    obtain ⟨dst, -, hcell⟩ := bind_eq_ok.1 hcell
    obtain ⟨cell, hcell, -⟩ := bind_eq_ok.1 hcell
    exact accepts_of_ok hcell

/-- A block that fits comes back. -/
theorem RowsFit.roundTrips (fit : RowsFit input nrows prep)
    (h : Prepared input fields nrows rowWidth prep) (schema : Schema fields rowWidth)
    (valid : ValidCells input nrows prep) : RoundTrips doubles input nrows rowWidth prep := by
  obtain rfl | hn := Nat.eq_zero_or_pos nrows
  · exact ⟨fun _ _ _ _ _ => rfl, [], by simp, fun _ _ _ _ => rfl, fun _ _ _ hr =>
      absurd hr (by omega)⟩
  have haccept : ∀ part ∈ prep.parts, ∀ r < nrows, part.transform.Accepts (part.memory r) := by
    intro part hpart r hr
    obtain ⟨hinside, dtype, bigEndian, hcolumn, ht, hsize⟩ := h.parts part hpart
    have hsized := ht.sized (h.field schema hpart) (fit.scalar hn part hpart)
    cases hform : part.transform with
    | unicodeToAscii n =>
      rw [hform] at ht hsized
      have hkind : dtype.kind = 0x55 := by
        cases ht with
        | unicodeToAscii _ hd => rw [hd]
      intro i hi
      apply fit.chars part hpart ⟨dtype, bigEndian, hcolumn, hkind⟩ r hr
      rw [hsize, hsized.2, Nat.mul_div_cancel _ (by decide)]
      exact hi
    | _ => trivial
  have hplace := h.placeable schema (fit.scalar hn) haccept
  have hstrip (a n : Nat) (hfit : a + n ≤ nrows) : writeStrip prep rowWidth a n = _ :=
    h.strip hplace (fit.bulk hn) hfit
  have hlen (a n : Nat) (hfit : a + n ≤ nrows) := diskRows_length hplace hfit
  refine ⟨fun _ start target s hs => ?_, diskRows prep.parts 0 nrows, hlen 0 nrows (by omega),
    fun start target s hs => writeTableData_run hstrip hlen s hs, fun part hpart r hr => ?_⟩
  · apply congrFun
    apply writeTableData_congr
    intro a n hfit
    have hslow : writeStrip { prep with layoutMatches := false } rowWidth a n = _ :=
      columns_strip hplace hfit rfl
    rw [hstrip a n hfit, hslow]
  · obtain ⟨hinside, dtype, bigEndian, hcolumn, ht, hsize⟩ := h.parts part hpart
    rw [diskRows_slot hplace (by omega) hpart hr, fit.order part hpart r hr, Nat.zero_add]
    apply ht.reads (h.field schema hpart) (fit.scalar hn part hpart)
      ((memory_length hinside hr).trans hsize) _ (haccept part hpart r hr)
    · exact fun hkind => fit.text part hpart ⟨dtype, bigEndian, hcolumn, hkind⟩ r hr
    · exact fun hkind => valid.bools part hpart ⟨dtype, bigEndian, hcolumn, hkind⟩ r hr

/-- A cell that is read as its values is in the byte order of the machine. -/
theorem Prepared.order_of_reads (h : Prepared input fields nrows rowWidth prep)
    (schema : Schema fields rowWidth) (valid : ValidCells input nrows prep)
    (hpart : part ∈ prep.parts) {r : Nat} (hr : r < nrows) (hscalar : ¬IsEmptyScalar part.field)
    (haccept : part.transform.Accepts (part.memory r))
    (hread : ReadsAs doubles part.field (encoded part.transform (part.memory r))
      (readBack part.field part.transform (input.nativeCell part r))) :
    input.nativeCell part r = part.memory r := by
  obtain ⟨hinside, dtype, bigEndian, hcolumn, ht, hsize⟩ := h.parts part hpart
  have hf := h.field schema hpart
  have hlen := (memory_length hinside hr).trans hsize
  have hnative : input.nativeCell part r = nativeForm bigEndian dtype.unit (part.memory r) := by
    rw [WriteInput.nativeCell, hcolumn]
  by_cases hA : part.field.tformLetter = 0x41
  · rw [hnative]
    cases bigEndian with
    | false => rfl
    | true =>
      rcases ht.text hA with hkind | hkind
      · have hunit : dtype.unit = 1 := by simp [Dtype.unit, hkind]
        rw [hunit]
        exact mapElements_reverse_single _
      · have hunit : dtype.unit = 4 := by simp [Dtype.unit, hkind]
        obtain ⟨-, hform⟩ := ht.chars hkind
        have hsized := ht.sized hf hscalar
        rw [hform] at haccept hsized
        rw [← hlen] at hsized
        have hcount : (part.memory r).length / 4 = part.field.byteWidth := by
          rw [hsized.2, Nat.mul_div_cancel _ (by decide)]
        have hsame : mapElements ((part.memory r).length / 4) 4 List.reverse (part.memory r) =
            mapElements ((part.memory r).length / 4) 4 id (part.memory r) := by
          apply mapElements_congr
          intro k hk
          apply reverse_of_codes (slice_element_length (Nat.div_mul_le_self _ _) hk)
            (haccept k (hcount ▸ hk))
          exact valid.chars part hpart dtype true hcolumn hkind r hr k
            (by rwa [← memory_length hinside hr])
        rw [hunit, nativeForm, if_pos rfl, hsame, mapElements_id]
        rw [hcount]
        exact hsized.2
  · -- the read gives the bytes in memory
    have hcell :
        ReadsAs doubles part.field (encoded part.transform (part.memory r)) (part.memory r) :=
      reads_cell ht hf hscalar hA hlen fun hkind =>
        valid.bools part hpart ⟨dtype, bigEndian, hcolumn, hkind⟩ r hr
    have hback : readBack part.field part.transform (input.nativeCell part r) =
        input.nativeCell part r := by
      cases hform : part.transform with
      | bytesCopy n => rw [hform] at ht; cases ht with | bytesCopy h => exact absurd h hA
      | unicodeToAscii n => rw [hform] at ht; cases ht with | unicodeToAscii h => exact absurd h hA
      | _ => rfl
    rw [hback] at hread
    exact hread.unique hcell

/-- A block that comes back fits. -/
theorem RoundTrips.fit (back : RoundTrips doubles input nrows rowWidth prep)
    (h : Prepared input fields nrows rowWidth prep) (schema : Schema fields rowWidth)
    (valid : ValidCells input nrows prep) : RowsFit input nrows prep := by
  obtain ⟨rows, hlen, hrun, hreads⟩ := back.rows
  obtain rfl | hn := Nat.eq_zero_or_pos nrows
  · constructor <;> intros <;> omega
  have hscalar : ∀ part ∈ prep.parts, ¬IsEmptyScalar part.field := by
    intro part hpart hempty
    have hread := hreads part hpart 0 hn
    have hwidth : part.field.byteWidth = 0 := by
      rw [(h.field schema hpart).exact, Field.exactWidth, (h.field schema hpart).fixed, hempty.2.1]
      dsimp only
      split_ifs
      · rfl
      · exact Nat.zero_mul _
    rw [hwidth, slice, List.take_zero] at hread
    exact emptyScalar_unread (h.field schema hpart) hempty hread
  -- one strip for all rows
  have hfile := hrun 0 (nrows * max 1 rowWidth) ⟨[], []⟩ (Nat.zero_le _)
  obtain ⟨strip, hstrip⟩ := strip_of_run hn hfile
  obtain ⟨hbulk, haccept⟩ := h.accepts_of_strip hstrip
  have hplace := h.placeable schema hscalar haccept
  have hrows : rows = diskRows prep.parts 0 nrows := by
    have hwritten : writeTableData prep 0 nrows rowWidth (nrows * max 1 rowWidth) ⟨[], []⟩ = _ :=
      writeTableData_run (fun a n hfit => h.strip hplace hbulk hfit)
        (fun a n hfit => diskRows_length hplace hfit) ⟨[], []⟩ (Nat.zero_le _)
    rw [hfile] at hwritten
    have hbytes := congrArg Fits.bytes (EStateM.Result.ok.inj hwritten).2
    dsimp only at hbytes
    rwa [writeAll_front, writeAll_front, List.drop_nil, List.drop_nil, List.append_nil,
      List.append_nil] at hbytes
  have hread (part : WritePart) (hpart : part ∈ prep.parts) (r : Nat) (hr : r < nrows) :
      ReadsAs doubles part.field (encoded part.transform (part.memory r))
        (readBack part.field part.transform (input.nativeCell part r)) := by
    have := hreads part hpart r hr
    rwa [hrows, diskRows_slot hplace (by omega) hpart hr, Nat.zero_add] at this
  have horder (part : WritePart) (hpart : part ∈ prep.parts) (r : Nat) (hr : r < nrows) :=
    h.order_of_reads schema valid hpart hr (hscalar part hpart) (haccept part hpart r hr)
      (hread part hpart r hr)
  refine ⟨horder, ?_, ?_, fun _ => hscalar, fun _ => hbulk⟩
  · rintro part hpart ⟨dtype, bigEndian, hcolumn, hkind⟩ r hr
    obtain ⟨hinside, found, order, hfound, ht, hsize⟩ := h.parts part hpart
    obtain ⟨rfl, rfl⟩ := Prod.mk.inj (Option.some.inj (hcolumn.symm.trans hfound))
    have hf := h.field schema hpart
    obtain ⟨hA, hform⟩ := ht.bytes hkind
    have hsized := ht.sized hf (hscalar part hpart)
    rw [hform, ← hsize, ← memory_length hinside hr] at hsized
    have hback := hread part hpart r hr
    rw [hform, horder part hpart r hr] at hback
    have htext :=
      (reads_text_iff hf hA ((encoded_length hsized trivial).trans (hf.text hA).1)).1 hback
    rwa [encoded_bytesCopy hsized.2] at htext
  · rintro part hpart ⟨dtype, bigEndian, hcolumn, hkind⟩ r hr i hi
    obtain ⟨hinside, found, order, hfound, ht, hsize⟩ := h.parts part hpart
    obtain ⟨rfl, rfl⟩ := Prod.mk.inj (Option.some.inj (hcolumn.symm.trans hfound))
    obtain ⟨hA, hform⟩ := ht.chars hkind
    have hsized := ht.sized (h.field schema hpart) (hscalar part hpart)
    have hok := haccept part hpart r hr
    rw [hform] at hok hsized
    apply hok
    rwa [hsize, hsized.2, Nat.mul_div_cancel _ (by decide)] at hi

/-- A block of valid rows comes back exactly when it fits. -/
theorem writeRoundTrips_iff (schema : Schema fields rowWidth)
    (prepared : dispatchWriteInput input fields nrows rowWidth = .ok prep)
    (valid : ValidCells input nrows prep) :
    RoundTrips doubles input nrows rowWidth prep ↔ RowsFit input nrows prep := by
  have h := dispatchWriteInput_ok (fun _ => schema.field) prepared
  exact ⟨fun back => back.fit h schema valid, fun fit => fit.roundTrips h schema valid⟩

end

/-! ## Headers -/

section

variable {doubles : Doubles} {littleEndian : Bool} {cards : List Card} {fields : List Field}

theorem parseTdim_pos {tdim : Str} {col : Nat} {dims : List Nat}
    (h : parseTdim tdim col = .ok dims) :
    dims ≠ [] ∧ 0 < dims.prod := by
  unfold parseTdim at h
  dsimp only at h
  split_ifs at h
  have hlen := (mapM_eq_ok_iff.1 h).length_eq
  constructor
  · rintro rfl
    exact List.splitOn_ne_nil _ _ (List.length_eq_zero_iff.1 hlen)
  · apply List.prod_pos_iff_forall_pos_nat.2
    intro dim hdim
    obtain ⟨part, -, hpart⟩ := exists_of_mem_mapM h hdim
    unfold parseDim at hpart
    split at hpart
    · cases hpart
    · cases hpart
    · rename_i n hzero hn
      rw [← Except.ok.inj hpart]
      exact Nat.pos_of_ne_zero fun h => hzero h

/-- The columns of a safe layout, when none is of variable length. -/
theorem SafeLayout.schema (hsafe : SafeLayout doubles littleEndian cards fields)
    (h : parseFields doubles cards = .ok fields) (hfixed : ∀ field ∈ fields, field.varKind = none) :
    Schema fields (headerWidth cards).toNat := by
  obtain ⟨width, -, -, hall⟩ := parseFields_ok h
  refine ⟨hfixed, fun field hfield => ?_, hsafe.exact, hsafe.placed, hsafe.tdim,
    fun field hfield dims hdims => ?_⟩
  all_goals obtain ⟨i, -, info, hdeclared⟩ := exists_number hall hfield
  · exact (hdeclared.fixed (hfixed field hfield)).2.2.1
  · rw [hdeclared.tdim, declaredTdim] at hdims
    obtain ⟨tdim, -, hparse⟩ := Option.bind_eq_some_iff.1 hdims
    cases hd : parseTdim tdim i with
    | error e => rw [hd] at hparse; cases hparse
    | ok found =>
      rw [hd] at hparse
      obtain rfl := Option.some.inj hparse
      exact parseTdim_pos hd

end

/-! ## A number and a name -/

/-- A column of 32-bit numbers. -/
def fluxField : Field := ⟨⟨str "FLUX", 0x4A, 0, 4, none⟩, 1, none, Double.one, 0⟩

/-- One row for it. -/
def fluxInput (bigEndian : Bool) (bytes : Bytes) : WriteInput :=
  .dict [(str "FLUX", ⟨⟨0x69, 4⟩, bigEndian, [1], true, bytes⟩)]

/-- What is found in it. -/
def fluxPart (bytes : Bytes) : WritePart := ⟨fluxField, .identity 4 1, bytes, 0, 4, 4⟩

theorem flux_schema : Schema [fluxField] 4 := by
  constructor <;> intros <;>
    simp_all [fluxField, isFixedLetter, bytesPerElement, Field.exactWidth, Placed]

theorem flux_valid {bigEndian : Bool} {bytes : Bytes} :
    ValidCells (fluxInput bigEndian bytes) 1 ⟨[fluxPart bytes], false⟩ := by
  have hkind (dtype : Dtype) (order : Bool)
      (h : (fluxInput bigEndian bytes).column (str "FLUX") = some (dtype, order)) :
      dtype.kind = 0x69 := by
    obtain ⟨rfl, -⟩ := Prod.mk.inj (Option.some.inj h)
    rfl
  constructor
  · rintro part hpart ⟨dtype, order, h, hbool⟩
    obtain rfl := List.mem_singleton.1 hpart
    exact absurd ((hkind dtype order h).symm.trans hbool) (by decide)
  · intro part hpart dtype order h hchars
    obtain rfl := List.mem_singleton.1 hpart
    exact absurd ((hkind dtype order h).symm.trans hchars) (by decide)

/-- A column of names of three characters behind it. -/
def nameField : Field := ⟨⟨str "NAME", 0x41, 4, 3, none⟩, 3, none, Double.one, 0⟩

/-- Three rows of both, one behind the other as on disk. -/
def sourceArray : StructuredArray where
  fields := [⟨str "FLUX", ⟨0x69, 4⟩, false, [], 0⟩, ⟨str "NAME", ⟨0x53, 3⟩, false, [], 4⟩]
  itemsize := 7
  len := 3
  contiguous := true
  bytes :=
  [1, 0, 0, 0] ++ str "M31" ++ [0, 1, 0, 0] ++ str "M33" ++ [255, 255, 255, 255] ++ str "LMC"
  inside := by decide
  apart := by decide

def sourceParts : List WritePart :=
  [⟨fluxField, .identity 4 1, sourceArray.bytes, 0, 7, 4⟩,
    ⟨nameField, .bytesCopy 3, sourceArray.bytes, 4, 7, 3⟩]

theorem source_schema : Schema [fluxField, nameField] 7 := by
  have hboth : ∀ P : Field → Prop, P fluxField → P nameField →
      ∀ f ∈ [fluxField, nameField], P f := by
    intro P hflux hname f hf
    rcases List.mem_cons.1 hf with rfl | hf
    · exact hflux
    · rw [List.mem_singleton.1 hf]
      exact hname
  refine ⟨hboth _ rfl rfl, hboth _ rfl rfl, hboth _ rfl rfl, ?_, hboth _ ?_ ?_,
    hboth _ ?_ ?_⟩
  · simp [Placed, fluxField, nameField]
  all_goals
    intro dims hdims
    cases hdims

/-- The rows go to the file in one piece. -/
theorem source_roundTrips :
    dispatchWriteInput (.structured sourceArray) [fluxField, nameField] 3 7 =
        .ok ⟨sourceParts, true⟩ ∧
      RoundTrips exampleDoubles (.structured sourceArray) 3 7 ⟨sourceParts, true⟩ := by
  have hprepared : dispatchWriteInput (.structured sourceArray) [fluxField, nameField] 3 7 =
      .ok ⟨sourceParts, true⟩ := by
    decide +kernel
  have hflux : WriteInput.column (.structured sourceArray) (str "FLUX") = some (⟨0x69, 4⟩, false) :=
    rfl
  have hname : WriteInput.column (.structured sourceArray) (str "NAME") = some (⟨0x53, 3⟩, false) :=
    rfl
  -- neither bools nor characters of four bytes
  have hkind (part : WritePart) (hpart : part ∈ sourceParts) (dtype : Dtype) (order : Bool)
      (h : WriteInput.column (.structured sourceArray) part.field.name = some (dtype, order)) :
      dtype.kind ≠ 0x62 ∧ dtype.kind ≠ 0x55 ∧ order = false := by
    rcases List.mem_cons.1 hpart with rfl | hpart
    · cases hflux.symm.trans h
      decide
    · obtain rfl := List.mem_singleton.1 hpart
      cases hname.symm.trans h
      decide
  have hvalid : ValidCells (.structured sourceArray) 3 ⟨sourceParts, true⟩ := by
    constructor
    · intro part hpart hbool
      obtain ⟨dtype, order, h, hbool⟩ := hbool
      exact absurd hbool (hkind part hpart dtype order h).1
    · intro part hpart dtype order h hchars
      exact absurd hchars (hkind part hpart dtype order h).2.1
  refine ⟨hprepared, (writeRoundTrips_iff source_schema hprepared hvalid).2 ?_⟩
  constructor
  · intro part hpart r _
    unfold WriteInput.nativeCell
    cases h : WriteInput.column (.structured sourceArray) part.field.name with
    | none => rfl
    | some found =>
      dsimp only
      rw [(hkind part hpart found.1 found.2 h).2.2]
      rfl
  · intro part hpart htext r hr
    rcases List.mem_cons.1 hpart with rfl | hpart
    · obtain ⟨dtype, order, h, htext⟩ := htext
      cases hflux.symm.trans h
      exact absurd htext (by decide)
    · obtain rfl := List.mem_singleton.1 hpart
      intro k hk
      have hone : k < 1 := hk
      have hrow : ∀ r < 3, (cellText (slice (slice sourceArray.bytes (r * 7 + 4) 3) (k * 3) 3)).all
          (fun b => decide (b < 0x80)) = true := by
        obtain rfl := Nat.lt_one_iff.1 hone
        decide +kernel
      intro b hb
      exact of_decide_eq_true (List.all_eq_true.1 (hrow r hr) b hb)
  · intro part hpart hchars
    obtain ⟨dtype, order, h, hchars⟩ := hchars
    exact absurd hchars (hkind part hpart dtype order h).2.1
  · intro _ part hpart hempty
    rcases List.mem_cons.1 hpart with rfl | hpart
    · exact absurd hempty.2.1 (by decide)
    · obtain rfl := List.mem_singleton.1 hpart
      exact absurd rfl hempty.1
  · intro _ _
    refine ⟨by decide, fun part hpart hchars => ?_⟩
    obtain ⟨dtype, order, h, hchars⟩ := hchars
    exact absurd hchars (hkind part hpart dtype order h).2.1

/-- A big-endian array is written byte by byte as it lies, so that 1 is read as 16777216. -/
theorem flux_swapped :
    Schema [fluxField] 4 ∧
      dispatchWriteInput (fluxInput true [0, 0, 0, 1]) [fluxField] 1 4 =
        .ok ⟨[fluxPart [0, 0, 0, 1]], false⟩ ∧
      ValidCells (fluxInput true [0, 0, 0, 1]) 1 ⟨[fluxPart [0, 0, 0, 1]], false⟩ ∧
      ¬RoundTrips exampleDoubles (fluxInput true [0, 0, 0, 1]) 1 4
        ⟨[fluxPart [0, 0, 0, 1]], false⟩ := by
  refine ⟨flux_schema, by decide +kernel, flux_valid, fun back => ?_⟩
  obtain ⟨rows, hlen, hrun, hreads⟩ := back.rows
  have hfile := hrun 0 4 ⟨[], []⟩ (Nat.zero_le _)
  have hwritten : writeTableData ⟨[fluxPart [0, 0, 0, 1]], false⟩ 0 1 4 4 ⟨[], []⟩ =
      .ok () ⟨[1, 0, 0, 0], []⟩ := by
    rfl
  rw [hwritten] at hfile
  have hbytes := congrArg Fits.bytes (EStateM.Result.ok.inj hfile).2
  dsimp only at hbytes
  rw [writeAll_front, List.drop_nil, List.append_nil] at hbytes
  obtain rfl := hbytes
  obtain ⟨kind, dtype, shape, hkind, hdtype, hread⟩ := hreads _ List.mem_cons_self 0 Nat.one_pos
  obtain rfl := Except.ok.inj hkind
  obtain ⟨rfl, rfl⟩ := Prod.mk.inj (Except.ok.inj hdtype)
  have hcell := Except.ok.inj (hread [0, 0, 0, 0] rfl 0)
  exact absurd hcell (by decide +kernel)

end RustFits.BinaryTable
