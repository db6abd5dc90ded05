import RustFits.AsciiTable.Append
import RustFits.Descriptor
import RustFits.Header.Protected
import RustFits.Header.Reopen

/-!
# Where the structural writers put the header

The operations that grow or repack a data section write the header with its new
counts in front of the data section: at the data offset minus the length of the
serialized cards.  `rewrite_header_to_disk` keeps the blocks that a header once
needed.  The two agree only while the cards need all reserved blocks.

* `HeaderWriter` lists these operations with the cards that each of them writes.
* `peakBlocks` is the largest number of blocks that the cards of an HDU needed in a
  run of header edits; `blockCount_performAll` says that it is the number reserved.
* `writers_find_header` is the result.
-/

namespace RustFits

open Ascii ByteFile Machine

namespace Header

/-! ## The writers -/

/-- Overwrite the first card that an operation looks for. -/
def overwriteCard (found : Card → Bool) (card : Card) (missing : Str) (cards : List Card) :
    Except PyErr (List Card) :=
  match cards.findIdx? found with
  | some i => .ok (cards.set i (trimEnd card))
  | none => .error (.value missing)

/-- The NAXISn card of `ImageHDU::extend`. -/
def setNaxisn (naxis newLength : Nat) (cards : List Card) : Except PyErr (List Card) :=
  overwriteCard (fun c => decide (8 ≤ c.length) && decide (trim (c.take 8) = naxisKey naxis))
    (cardInt (naxisKey naxis) (asI64 newLength) (str "length of data axis " ++ natDec naxis))
    (str "header missing " ++ naxisKey naxis) cards

/-- The NAXIS2 card of the table appends. -/
def setNaxis2 (newNrows : Nat) (cards : List Card) : Except PyErr (List Card) :=
  overwriteCard (fun c => decide (6 ≤ c.length) && decide (trim (c.take 6) = str "NAXIS2"))
    (cardInt (str "NAXIS2") (asI64 newNrows) (str "number of rows in table"))
    (str "header missing NAXIS2") cards

/-- The number between the first opening and the last closing bracket. -/
def bracketedNumber (card : Card) : Nat :=
  let behind := (card.dropWhile fun b => b != 0x28).tail
  ((parseU64 (trim (behind.reverse.dropWhile fun b => b != 0x29).tail.reverse))).getD 0

/-- `set_x_vla_tform_maxlen_in_cards`. -/
def setXVlaTformMaxlenInCards (cards : List Card) (column : Nat) (kind : UInt8) (newMaxBits : Nat) :
    List Card :=
  let key := str "TFORM" ++ natDec column
  match cards.findIdx? fun c =>
    decide (key.length ≤ c.length) && decide (trimEnd (c.take key.length) = key) with
  | none => cards
  | some i =>
    let maxBits := max (bracketedNumber (cards.getD i [])) newMaxBits
    cards.set i (cardString key (str "1" ++ [kind] ++ str "X(" ++ natDec maxBits ++ str ")")
      (str "data format of column"))

/-- The operations that write a header in front of the data section, with the counts
that they write. -/
inductive HeaderWriter where
  | imageExtend (naxis newLength : Nat)
  | appendFixedOnly (newNrows : Nat)
  | appendVlaAware (newNrows newPcount : Nat)
  | writeVlaAware (totalHeapBytes : Nat) (bitColumns : List (Nat × UInt8 × Nat))
  | setitemVlaCell (newPcount : Nat)
  | setitemVlaRows (newPcount : Nat)
  | setitemVlaColumn (newPcount : Nat)
  | repackTableHeap (newPcount : Nat)
  | appendAsciiTable (newNrows : Nat)
  | repackCompressedImage (newPcount : Nat)
  | repackCompressedTable (newPcount : Nat)
  deriving DecidableEq, Repr

/-- The cards that the operation writes. -/
def HeaderWriter.newCards (cards : List Card) : HeaderWriter → Except PyErr (List Card)
  | .imageExtend naxis newLength => setNaxisn naxis newLength cards
  | .appendFixedOnly newNrows => setNaxis2 newNrows cards
  | .appendVlaAware newNrows newPcount =>
    (setNaxis2 newNrows cards).map fun cards => setPcountInCards cards newPcount
  | .writeVlaAware totalHeapBytes bitColumns =>
    .ok (bitColumns.foldl (fun cards column =>
      setXVlaTformMaxlenInCards cards column.1 column.2.1 column.2.2)
        (setPcountInCards cards totalHeapBytes))
  | .setitemVlaCell newPcount => .ok (setPcountInCards cards newPcount)
  | .setitemVlaRows newPcount => .ok (setPcountInCards cards newPcount)
  | .setitemVlaColumn newPcount => .ok (setPcountInCards cards newPcount)
  | .repackTableHeap newPcount => .ok (setPcountInCards cards newPcount)
  | .appendAsciiTable newNrows => setNaxis2 newNrows cards
  | .repackCompressedImage newPcount => .ok (setPcountInCards cards newPcount)
  | .repackCompressedTable newPcount => .ok (setPcountInCards cards newPcount)

/-- The position that the operation computes for the header, as a difference of
numbers: below zero the `u64` subtraction overflows. -/
def writerOffset (dataOffset : Nat) (cards : List Card) : Int :=
  (dataOffset : Int) - ((serializeHeaderToDiskBytes cards).length : Int)

/-- The cards that the operation adds: PCOUNT where there is none. -/
def HeaderWriter.inserts (cards : List Card) : HeaderWriter → Nat
  | .imageExtend _ _ | .appendFixedOnly _ | .appendAsciiTable _ => 0
  | _ => if (cardIndex (str "PCOUNT") cards).isSome then 0 else 1

theorem overwriteCard_ok {found : Card → Bool} {card : Card} {missing : Str}
    {cards cards' : List Card} (h : overwriteCard found card missing cards = .ok cards') :
    ∃ i c, cards[i]? = some c ∧ found c = true ∧ cards' = cards.set i (trimEnd card) := by
  unfold overwriteCard at h
  cases hidx : cards.findIdx? found with
  | none => simp [hidx] at h
  | some i =>
    obtain ⟨hlt, hfound, -⟩ := List.findIdx?_eq_some_iff_getElem.1 hidx
    rw [hidx] at h
    exact ⟨i, cards[i], List.getElem?_eq_getElem hlt, hfound, (Except.ok.inj h).symm⟩

theorem setXVlaTformMaxlen_length (cards : List Card) (column : Nat) (kind : UInt8) (bits : Nat) :
    (setXVlaTformMaxlenInCards cards column kind bits).length = cards.length := by
  unfold setXVlaTformMaxlenInCards
  dsimp only
  split <;> simp

theorem setPcount_length_eq (cards : List Card) (hne : cards ≠ []) (n : Nat) :
    (setPcountInCards cards n).length =
      cards.length + if (cardIndex (str "PCOUNT") cards).isSome then 0 else 1 := by
  have hpos := List.length_pos_of_ne_nil hne
  unfold setPcountInCards setCard
  cases hidx : cardIndex (str "PCOUNT") cards with
  | some i => simp
  | none =>
    have hplace : (cardIndex (str "TFIELDS") cards).getD (cards.length - 1) ≤ cards.length := by
      cases ht : cardIndex (str "TFIELDS") cards with
      | none => simp
      | some i => exact Nat.le_of_lt (List.findIdx?_eq_some_iff_getElem.1 ht).1
    simp [List.length_insertIdx_of_le_length hplace]

theorem any_set {p : Card → Bool} {new old : Card} (hnew : p new = false) (hold : p old = false) :
    ∀ {cards : List Card} {i : Nat}, cards[i]? = some old →
    (cards.set i new).any p = cards.any p := by
  intro cards
  induction cards with
  | nil =>
    intro i h
    cases h
  | cons card rest ih =>
    intro i h
    cases i with
    | zero =>
      obtain rfl := Option.some.inj h
      simp [hnew, hold]
    | succ i => simp [ih h]

/-- NAXIS2 is not taken for PCOUNT. -/
theorem cardIndex_pcount_naxis2 {cards cards' : List Card} {n : Nat}
    (h : setNaxis2 n cards = .ok cards') :
    (cardIndex (str "PCOUNT") cards').isSome = (cardIndex (str "PCOUNT") cards).isSome := by
  obtain ⟨i, c, hget, hfound, rfl⟩ := overwriteCard_ok h
  have hnot : ∀ c : Card, trim (c.take 6) = str "NAXIS2" →
      startsWithKey (str "PCOUNT") c = false := by
    intro c hc
    unfold startsWithKey
    rw [show (str "PCOUNT").length = 6 from rfl, hc]
    simp [show ¬ str "NAXIS2" = str "PCOUNT" from by decide]
  have hnew :
      trim ((trimEnd (cardInt (str "NAXIS2") (asI64 n) (str "number of rows in table"))).take 6) =
      str "NAXIS2" := by
    have hlen : (str "NAXIS2").length ≤ 8 := by decide
    obtain ⟨tail, hcard, -⟩ := trimEnd_cardFixed (str "number of rows in table") hlen
      (isToken_intDec (asI64 n)) (intDec_length_le (inI64_asI64 n))
    rw [cardInt, hcard, padRight, List.append_assoc, List.append_assoc, List.append_assoc]
    show trim ((str "NAXIS2" ++ _).take (str "NAXIS2").length) = _
    rw [List.take_left]
    decide
  simp only [Bool.and_eq_true, decide_eq_true_eq] at hfound
  unfold cardIndex
  rw [List.findIdx?_isSome, List.findIdx?_isSome]
  exact any_set (hnot _ hnew) (hnot c hfound.2) hget

theorem HeaderWriter.newCards_length {w : HeaderWriter} {cards cards' : List Card}
    (hne : cards ≠ [])
    (h : w.newCards cards = .ok cards') : cards'.length = cards.length + w.inserts cards := by
  have hover : ∀ {found card missing}, overwriteCard found card missing cards = .ok cards' →
      cards'.length = cards.length := by
    intro found card missing hcards
    obtain ⟨i, c, -, -, rfl⟩ := overwriteCard_ok hcards
    exact List.length_set
  have hpcount : ∀ n, cards' = setPcountInCards cards n → cards'.length =
      cards.length + if (cardIndex (str "PCOUNT") cards).isSome then 0 else 1 := by
    rintro n rfl
    exact setPcount_length_eq cards hne n
  cases w with
  | imageExtend naxis newLength => exact hover h
  | appendFixedOnly newNrows => exact hover h
  | appendAsciiTable newNrows => exact hover h
  | appendVlaAware newNrows newPcount =>
    obtain ⟨mid, hmid, rfl⟩ : ∃ mid, setNaxis2 newNrows cards = .ok mid ∧
        setPcountInCards mid newPcount = cards' := by
      simp only [HeaderWriter.newCards] at h
      cases hn : setNaxis2 newNrows cards with
      | error e =>
        rw [hn] at h
        cases h
      | ok mid =>
        rw [hn] at h
        exact ⟨mid, rfl, Except.ok.inj h⟩
    have hlen : mid.length = cards.length := by
      obtain ⟨i, c, -, -, rfl⟩ := overwriteCard_ok hmid
      exact List.length_set
    have hmidne : mid ≠ [] := by
      intro hnil
      rw [hnil] at hlen
      exact hne (List.length_eq_zero_iff.1 hlen.symm)
    rw [setPcount_length_eq mid hmidne, hlen, cardIndex_pcount_naxis2 hmid]
    rfl
  | writeVlaAware totalHeapBytes bitColumns =>
    have hfold : ∀ (columns : List (Nat × UInt8 × Nat)) (cards : List Card),
        (columns.foldl (fun cards column =>
          setXVlaTformMaxlenInCards cards column.1 column.2.1 column.2.2) cards).length =
            cards.length := by
      intro columns
      induction columns with
      | nil => exact fun _ => rfl
      | cons column columns ih =>
        intro cards
        rw [List.foldl_cons, ih, setXVlaTformMaxlen_length]
    obtain rfl := Except.ok.inj h
    rw [hfold, setPcount_length_eq cards hne]
    rfl
  | setitemVlaCell newPcount => exact hpcount _ (Except.ok.inj h).symm
  | setitemVlaRows newPcount => exact hpcount _ (Except.ok.inj h).symm
  | setitemVlaColumn newPcount => exact hpcount _ (Except.ok.inj h).symm
  | repackTableHeap newPcount => exact hpcount _ (Except.ok.inj h).symm
  | repackCompressedImage newPcount => exact hpcount _ (Except.ok.inj h).symm
  | repackCompressedTable newPcount => exact hpcount _ (Except.ok.inj h).symm

/-! ## The blocks that a run reserves -/

/-- An HDU whose record has room for its cards and nothing between header and
data. -/
structure HeaderPlaced (h : Hdu) : Prop where
  cards : h.cards.length ≤ h.offsets.headerBlockCount * cardsPerBlock
  data : h.offsets.dataOffset = h.offsets.headerOffset + h.offsets.headerBlockCount * blockSize

/-- The file position is the start of the HDU exactly when the cards need all the
blocks of the header. -/
theorem writerOffset_eq_iff {h : Hdu} (hplaced : HeaderPlaced h) (cards : List Card) :
    writerOffset h.offsets.dataOffset cards = h.offsets.headerOffset ↔
      headerBlocks cards.length = h.offsets.headerBlockCount := by
  rw [writerOffset, serialize_length, hplaced.data]
  unfold blockSize
  omega

/-- The header blocks that the cards of the HDU need. -/
def neededBlocks (s : Fits) (idx : Nat) : Nat :=
  ((s.hdus[idx]?).map fun h => headerBlocks h.cards.length).getD 0

/-- The blocks that are reserved for the header of the HDU. -/
def reservedBlocks (s : Fits) (idx : Nat) : Nat :=
  ((s.hdus[idx]?).map fun h => h.offsets.headerBlockCount).getD 0

/-- Every header has room for its cards. -/
def AllPlaced (s : Fits) : Prop := ∀ h ∈ s.hdus, HeaderPlaced h

theorem AllPlaced.needed_le {s : Fits} (hs : AllPlaced s) (idx : Nat) :
    neededBlocks s idx ≤ reservedBlocks s idx := by
  unfold neededBlocks reservedBlocks
  cases hdu : s.hdus[idx]? with
  | none => simp
  | some h => exact (headerBlocks_le_iff _ _).2 (hs h (List.mem_of_getElem? hdu)).cards

/-- What a call does to the records: blocks are added where the cards need them, and
never given back. -/
structure Reserves (s s' : Fits) : Prop where
  placed : AllPlaced s'
  blocks : ∀ idx, reservedBlocks s' idx = max (reservedBlocks s idx) (neededBlocks s' idx)

theorem Reserves.of_hdus {s s' : Fits} (hs : AllPlaced s) (h : s'.hdus = s.hdus) :
    Reserves s s' := by
  refine ⟨by unfold AllPlaced; rw [h]; exact hs, fun idx => ?_⟩
  have hle := hs.needed_le idx
  unfold neededBlocks reservedBlocks at *
  rw [h]
  omega

theorem HeaderPlaced.shift {h : Hdu} (hp : HeaderPlaced h) (after delta : Nat) :
    HeaderPlaced ⟨h.cards, h.offsets.shift after delta, h.kind⟩ ∧
      (h.offsets.shift after delta).headerBlockCount = h.offsets.headerBlockCount := by
  have hdata := hp.data
  unfold HduOffsets.shift
  split_ifs
  · refine ⟨⟨hp.cards, ?_⟩, rfl⟩
    dsimp only
    omega
  · exact ⟨hp, rfl⟩

/-- The record of an HDU after its header was written with new cards. -/
theorem HeaderPlaced.reserve {h : Hdu} (hp : HeaderPlaced h) (cards : List Card) :
    HeaderPlaced ⟨cards, h.offsets.reserve cards.length, h.kind⟩ ∧
      (h.offsets.reserve cards.length).headerBlockCount =
        max h.offsets.headerBlockCount (headerBlocks cards.length) := by
  have hcount : (h.offsets.reserve cards.length).headerBlockCount =
      max h.offsets.headerBlockCount (headerBlocks cards.length) := by
    unfold HduOffsets.reserve
    dsimp only
    omega
  refine ⟨⟨?_, ?_⟩, hcount⟩
  · rw [← headerBlocks_le_iff]
    dsimp only
    omega
  · unfold HduOffsets.reserve
    dsimp only
    rw [hp.data, Nat.add_mul]
    omega

/-- A rewrite adds the blocks that its cards need. -/
theorem reserves_rewrite {s : Fits} (hs : AllPlaced s) (idx : Nat) (cards : List Card) :
    Triple (fun t => t = s) (rewriteAndCommit idx cards) (fun _ t => Reserves s t)
      (fun _ t => Reserves s t) := by
  refine (rewriteAndCommit_hdus idx cards s).conseq (fun t ht => by rw [ht]) (fun _ t ht => ?_)
    fun _ t ht => Reserves.of_hdus hs ht
  obtain ⟨after, delta, ht⟩ := ht
  have hget : ∀ j, t.hdus[j]? = (s.hdus[j]?).map fun h => if idx = j then
      ⟨cards, (h.offsets.shift after delta).reserve cards.length, h.kind⟩
      else { h with offsets := h.offsets.shift after delta } := by
    intro j
    rw [ht, List.getElem?_modify, List.getElem?_map]
    cases s.hdus[j]? with
    | none => rfl
    | some h => by_cases hj : idx = j <;> simp [hj]
  constructor
  · intro g hg
    obtain ⟨j, hj⟩ := List.mem_iff_getElem?.1 hg
    rw [hget, Option.map_eq_some_iff] at hj
    obtain ⟨h, hdu, rfl⟩ := hj
    have hshift := ((hs h (List.mem_of_getElem? hdu)).shift after delta).1
    split_ifs
    · exact (hshift.reserve cards).1
    · exact hshift
  · intro j
    have hle := hs.needed_le j
    unfold reservedBlocks neededBlocks at *
    rw [hget]
    cases hdu : s.hdus[j]? with
    | none => simp
    | some h =>
      have hshift := (hs h (List.mem_of_getElem? hdu)).shift after delta
      rw [hdu] at hle
      simp only [Option.map_some, Option.getD_some] at hle ⊢
      split_ifs
      · rw [(hshift.1.reserve cards).2, hshift.2]
      · rw [hshift.2]
        dsimp only
        omega

section

variable {F : Type}

theorem reserves_headerCall (floats : Floats F) {s : Fits} (hs : AllPlaced s) (idx : Nat)
    (m : HeaderMethod F) :
    Triple (fun t => t = s) (headerCall floats idx m) (fun _ t => Reserves s t)
      (fun _ t => Reserves s t) := by
  have hsame : ∀ t, t = s → Reserves s t := fun t ht => Reserves.of_hdus hs (by rw [ht])
  refine Triple.bind (Triple.get (Q := fun r t => r = s ∧ t = s) fun _ ht => ⟨ht, ht⟩) fun r => ?_
  refine Triple.assume fun _ => ?_
  split
  · exact Triple.throw hsame
  · split
    · exact Triple.throw hsame
    · exact reserves_rewrite hs idx _
    · exact Triple.pure hsame

/-- One call. -/
theorem reserves_perform (floats : Floats F) {e : Editor} (hs : AllPlaced e.fits) (call : Call F) :
    Reserves e.fits (call.perform floats e).fits := by
  have hsame : Reserves e.fits e.fits := Reserves.of_hdus hs rfl
  cases call with
  | header idx m =>
    have hcall := reserves_headerCall floats hs idx m e.fits rfl
    cases hrun : headerCall floats idx m e.fits with
    | ok u s' =>
      rw [hrun] at hcall
      simpa only [Call.perform, hrun] using hcall
    | error err s' =>
      rw [hrun] at hcall
      simpa only [Call.perform, hrun] using hcall
  | edit idx =>
    simp only [Call.perform]
    split <;> exact hsame
  | enter i =>
    simp only [Call.perform]
    split <;> exact hsame
  | stage i m =>
    simp only [Call.perform]
    split
    · exact hsame
    · split
      · exact hsame
      · split <;> exact hsame
  | exit i raised =>
    cases hedit : e.edits[i]? with
    | none =>
      simp only [Call.perform, hedit]
      exact hsame
    | some session =>
      have hcall := reserves_rewrite hs session.hdu session.cards e.fits rfl
      simp only [Call.perform, hedit]
      split_ifs
      · cases hrun : rewriteAndCommit session.hdu session.cards e.fits with
        | ok u s' =>
          rw [hrun] at hcall
          exact hcall
        | error err s' =>
          rw [hrun] at hcall
          exact hcall
      · exact hsame

/-- The most header blocks that the cards of the HDU need in a run. -/
def peakBlocks (floats : Floats F) (idx : Nat) : List (Call F) → Editor → Nat
  | [], e => neededBlocks e.fits idx
  | call :: calls, e =>
    max (neededBlocks e.fits idx) (peakBlocks floats idx calls (call.perform floats e))

theorem needed_le_peak (floats : Floats F) (calls : List (Call F)) (e : Editor) (idx : Nat) :
    neededBlocks e.fits idx ≤ peakBlocks floats idx calls e := by
  cases calls with
  | nil => exact Nat.le_refl _
  | cons call calls => exact Nat.le_max_left _ _

/-- Whole runs: a header keeps every block it once needed. -/
theorem reserved_performAll (floats : Floats F) (calls : List (Call F)) {e : Editor}
    (hs : AllPlaced e.fits) :
    AllPlaced (performAll floats calls e).fits ∧ ∀ idx,
      reservedBlocks (performAll floats calls e).fits idx =
        max (reservedBlocks e.fits idx) (peakBlocks floats idx calls e) := by
  induction calls generalizing e with
  | nil =>
    refine ⟨hs, fun idx => ?_⟩
    have hle := hs.needed_le idx
    show reservedBlocks e.fits idx = max _ (neededBlocks e.fits idx)
    omega
  | cons call calls ih =>
    have hstep := reserves_perform floats hs call
    obtain ⟨hplaced, hblocks⟩ := ih hstep.placed
    refine ⟨hplaced, fun idx => ?_⟩
    have h₁ := hblocks idx
    have h₂ := hstep.blocks idx
    have h₃ := hs.needed_le idx
    have h₄ := needed_le_peak floats calls (call.perform floats e) idx
    show reservedBlocks (performAll floats calls (call.perform floats e)).fits idx = _
    rw [peakBlocks]
    omega

/-- The record of an HDU as it is when the file is opened. -/
structure Recorded (h : Hdu) : Prop where
  blocks : h.offsets.headerBlockCount = headerBlocks h.cards.length
  data : h.offsets.dataOffset = h.offsets.headerOffset + h.offsets.headerBlockCount * blockSize
  first : ∃ c ∈ h.cards, (cardKey c).any isProtectedKey = true

theorem recorded_of_reopens {lenient : Bool} {s : Fits} (hopen : Reopens lenient s)
    (hno : NoOverflow s.hdus) : ∀ h ∈ s.hdus, Recorded h := by
  intro h hh
  have hwalked := ((walks_of_reopens hopen hno).mem h hh).2
  obtain ⟨isPrimary, -, -, hvalid⟩ := hwalked.header
  obtain ⟨c, hc, hprot, -⟩ := (editable_of_accepted hwalked.clean hvalid).first
  have hkey : isProtectedKey (trim (c.take 8)) = true := by
    unfold IsFree at hprot
    simpa using hprot
  refine ⟨hwalked.blocks, hwalked.dataOffset, c, List.mem_of_find?_eq_some hc, ?_⟩
  rw [cardKey_of_field hkey rfl]
  exact hkey

theorem Recorded.placed {h : Hdu} (hr : Recorded h) : HeaderPlaced h :=
  ⟨(headerBlocks_le_iff _ _).1 (Nat.le_of_eq hr.blocks.symm), hr.data⟩

/-- The cards of an HDU are never all deleted. -/
theorem cards_ne_nil (floats : Floats F) {s : Fits} (hs : ∀ h ∈ s.hdus, Recorded h)
    (calls : List (Call F)) {idx : Nat} {h : Hdu}
    (hdu : (performAll floats calls ⟨s, []⟩).fits.hdus[idx]? = some h) : h.cards ≠ [] := by
  obtain ⟨g, hget, hkeeps⟩ := forall₂_getElem? (protectedCards_performAll floats s calls) hdu
  obtain ⟨c, hc, hprot⟩ := (hs g (List.mem_of_getElem? hget)).first
  have hmem : c ∈ g.cards.filter fun c => (cardKey c).any isProtectedKey :=
    List.mem_filter.2 ⟨hc, hprot⟩
  rw [← hkeeps] at hmem
  exact List.ne_nil_of_mem (List.mem_of_mem_filter hmem)

/-- After any run of header edits on an opened file, an operation that writes the
header in front of the data section finds the start of the HDU exactly when the cards
it writes need as many blocks as the header needed at its peak. -/
theorem writers_find_header (floats : Floats F) {s : Fits} (hs : ∀ h ∈ s.hdus, Recorded h)
    (calls : List (Call F)) {idx : Nat} {h : Hdu}
    (hdu : (performAll floats calls ⟨s, []⟩).fits.hdus[idx]? = some h)
    {w : HeaderWriter} {cards : List Card} (hw : w.newCards h.cards = .ok cards) :
    writerOffset h.offsets.dataOffset cards = h.offsets.headerOffset ↔
      headerBlocks (h.cards.length + w.inserts h.cards) = peakBlocks floats idx calls ⟨s, []⟩ := by
  have hstart : AllPlaced (Editor.mk s []).fits := fun g hg => (hs g hg).placed
  obtain ⟨hplaced, hblocks⟩ := reserved_performAll floats calls hstart
  have hreserved : reservedBlocks s idx ≤ neededBlocks s idx := by
    unfold reservedBlocks neededBlocks
    cases hget : s.hdus[idx]? with
    | none => simp
    | some g => exact Nat.le_of_eq (hs g (List.mem_of_getElem? hget)).blocks
  have hpeak := needed_le_peak floats calls ⟨s, []⟩ idx
  have hcount := hblocks idx
  rw [reservedBlocks, hdu, Option.map_some, Option.getD_some] at hcount
  rw [writerOffset_eq_iff (hplaced h (List.mem_of_getElem? hdu)),
    HeaderWriter.newCards_length (cards_ne_nil floats hs calls hdu) hw, hcount]
  dsimp only at hpeak
  rw [Nat.max_eq_right (by dsimp only; omega)]

end

/-! ## A header in front of its second block -/

/-- The header of an image of one byte, with OBJECT and `n` cards of commentary. -/
def imageHeader (n : Nat) : List Card :=
  [str "SIMPLE  =                    T", str "BITPIX  =                    8",
    str "NAXIS   =                    1", str "NAXIS1  =                    1",
    str "OBJECT  = 'M31     '"] ++ List.replicate n (str "HISTORY dark") ++ [endCard]

/-- The same header without OBJECT. -/
def imageHeaderThinned (n : Nat) : List Card :=
  [str "SIMPLE  =                    T", str "BITPIX  =                    8",
    str "NAXIS   =                    1", str "NAXIS1  =                    1"] ++
    List.replicate n (str "HISTORY dark") ++ [endCard]

/-- A file of this image. -/
def imageFile (n : Nat) : Fits :=
  ⟨serializeHeaderToDiskBytes (imageHeader n) ++ List.replicate 2880 0,
    [⟨imageHeader n, ⟨0, headerBlocks (n + 6), headerBlocks (n + 6) * blockSize⟩, .image⟩]⟩

theorem imageHeader_length (n : Nat) : (imageHeader n).length = n + 6 := by
  simp [imageHeader]

theorem recorded_imageFile (n : Nat) : ∀ h ∈ (imageFile n).hdus, Recorded h := by
  intro h hh
  obtain rfl := List.mem_singleton.1 hh
  refine ⟨by rw [imageHeader_length], by simp,
    str "SIMPLE  =                    T", by simp [imageHeader], ?_⟩
  decide

/-- The header after `ImageHDU::extend` to two pixels. -/
def imageHeaderExtended (n : Nat) : List Card :=
  (imageHeaderThinned n).set 3 (trimEnd (cardInt (str "NAXIS1") 2 (str "length of data axis 1")))

/-- The file after the deletion of OBJECT. -/
theorem delItem_imageFile {n : Nat}
    (hrun : (HeaderMethod.delItem (str "OBJECT")).run exampleFloats (imageHeader n) =
      .ok true (imageHeaderThinned n)) :
    (performAll exampleFloats [.header 0 (.delItem (str "OBJECT"))]
      ⟨imageFile n, []⟩).fits.hdus[0]? =
      some ⟨imageHeaderThinned n, ⟨0, headerBlocks (n + 6), headerBlocks (n + 6) * blockSize⟩,
        .image⟩ := by
  have hdu : (imageFile n).hdus[0]? = some ⟨imageHeader n, ⟨0, headerBlocks (n + 6),
    headerBlocks (n + 6) * blockSize⟩, .image⟩ := rfl
  have hfit : (imageHeaderThinned n).length ≤ headerBlocks (n + 6) * cardsPerBlock := by
    rw [← headerBlocks_le_iff, headerBlocks_eq, headerBlocks_eq]
    simp [imageHeaderThinned]
    omega
  simp only [performAll, List.foldl_cons, List.foldl_nil, Call.perform,
    headerCall_of_fits hdu hrun hfit]
  rfl

/-- OBJECT goes, and the header still needs its block. -/
theorem writers_find_header_delItem :
    writerOffset 2880 (imageHeaderExtended 1) = 0 := by
  have hdu := delItem_imageFile (n := 1) rfl
  have hw : (HeaderWriter.imageExtend 1 2).newCards (imageHeaderThinned 1) =
      .ok (imageHeaderExtended 1) := rfl
  exact (writers_find_header exampleFloats (recorded_imageFile 1) _ hdu hw).2 (by decide +kernel)

/-- OBJECT goes, and 36 cards are left in a header of two blocks: the image extension
puts the header into the second one. -/
theorem not_headerOffset_delItem :
    (∀ h ∈ (imageFile 31).hdus, Recorded h) ∧
      ∃ h cards, (performAll exampleFloats [.header 0 (.delItem (str "OBJECT"))]
          ⟨imageFile 31, []⟩).fits.hdus[0]? = some h ∧
        (HeaderWriter.imageExtend 1 2).newCards h.cards = .ok cards ∧
        writerOffset h.offsets.dataOffset cards ≠ h.offsets.headerOffset := by
  refine ⟨recorded_imageFile 31, _, imageHeaderExtended 31, delItem_imageFile rfl, rfl, ?_⟩
  dsimp only
  rw [writerOffset, serialize_length]
  decide +kernel

end Header

end RustFits
