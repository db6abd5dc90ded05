import RustFits.Header.Edit

/-!
# Header edits and the parser

A run of calls on the header views and the edit sessions of a file.  The parser
finds the edited file again as long as every rewrite of a header is safe: the new
cards need all the blocks that are reserved for the header, and they are
printable.  The rewrite never gives a block back, while the parser counts the
blocks that the cards need.

* `RewriteSafe` and `Call.Safe` are the condition, on the state before the call.
* `Consistent` is the invariant of a run: the parser walks the file, and the cards
  of every session have the structure of the header they were taken from.
* `headerEdits_reopen` is the result for whole runs.
-/

namespace RustFits

open Ascii ByteFile Machine

namespace Header

/-- A rewrite of the header of HDU `idx` with these cards keeps the file
re-openable: no block stays unused, the text is printable, and no declared end
leaves the offsets of the parser. -/
def RewriteSafe (s : Fits) (idx : Nat) (cards : List Card) : Prop :=
  ∀ h, s.hdus[idx]? = some h →
    h.offsets.headerBlockCount ≤ headerBlocks cards.length ∧
      (∀ c ∈ cards, ∀ b ∈ c, isPrintable b = true) ∧
      ∀ g ∈ s.hdus, g.dataEnd + headerGrowth h cards < u64Size

/-- The condition of a call, in the state before it. -/
def Call.Safe {F : Type} (floats : Floats F) (e : Editor) : Call F → Prop
  | .header idx m => ∀ h cards, e.fits.hdus[idx]? = some h →
      m.run floats h.cards = .ok true cards → RewriteSafe e.fits idx cards
  | .exit i raised => ∀ session, e.edits[i]? = some session →
      (session.entered && !raised && !session.committed) = true →
      RewriteSafe e.fits session.hdu session.cards
  | _ => True

/-- A run of safe calls. -/
inductive SafeRun {F : Type} (floats : Floats F) : Editor → Editor → Prop where
  | refl (e : Editor) : SafeRun floats e e
  | step {e e' : Editor} (call : Call F) :
      SafeRun floats e e' → call.Safe floats e' → SafeRun floats e (call.perform floats e')

/-- The invariant of a run. -/
structure Consistent (lenient : Bool) (e : Editor) : Prop where
  walks : Walks lenient e.fits.bytes true 0 e.fits.hdus
  sessions : ∀ session ∈ e.edits, ∃ h, e.fits.hdus[session.hdu]? = some h ∧
    Keeps h.cards session.cards

section

variable {lenient : Bool} {s : Fits} {idx : Nat} {h : Hdu} {cards : List Card}

theorem editable_of_walks (hw : Walks lenient s.bytes true 0 s.hdus) (hdu : s.hdus[idx]? = some h) :
    Editable h.cards := by
  have hwalked := (hw.mem h (List.mem_of_getElem? hdu)).2
  obtain ⟨isPrimary, -, -, hvalid⟩ := hwalked.header
  exact editable_of_accepted hwalked.clean hvalid

/-- A rewrite that needs all the header blocks: the parser walks the new file. -/
theorem rewriteAndCommit_run (hw : Walks lenient s.bytes true 0 s.hdus)
    (hdu : s.hdus[idx]? = some h) (hclean : CleanHeader cards)
    (hblocks : h.offsets.headerBlockCount ≤ headerBlocks cards.length)
    (hlayout : SameLayout h.cards cards)
    (hroom : ∀ g ∈ s.hdus, g.dataEnd + headerGrowth h cards < u64Size) :
    let hdus := editHdus idx cards (shiftHdus h.offsets.dataOffset (headerGrowth h cards) s.hdus)
    let bytes := writeAll (openGap s.bytes h.offsets.dataOffset (headerGrowth h cards))
      h.offsets.headerOffset (serializeHeaderToDiskBytes cards)
    rewriteAndCommit idx cards s = .ok () ⟨bytes, hdus⟩ ∧ Walks lenient bytes true 0 hdus := by
  have hwalked := (hw.mem h (List.mem_of_getElem? hdu)).2
  have hnew := rewritten_of_walked hwalked hclean hblocks hlayout.validateHeader
    hlayout.calculateDataSize
  refine ⟨?_, hw.rewrite hnew hdu hroom⟩
  refine (FileOp.bind_ok (rewriteHeaderToDisk_eq hdu hwalked.fits.2 hblocks)).trans ?_
  show EStateM.Result.ok () (Fits.mk _ (List.modify (List.modify _ idx _) idx _)) = _
  rw [List.modify_modify_eq]
  rfl

/-- A safe rewrite: the parser walks the new file. -/
theorem rewriteAndCommit_spec (hw : Walks lenient s.bytes true 0 s.hdus)
    (hdu : s.hdus[idx]? = some h) (hkeeps : Keeps h.cards cards) (hsafe : RewriteSafe s idx cards) :
    ∃ s', rewriteAndCommit idx cards s = .ok () s' ∧ Walks lenient s'.bytes true 0 s'.hdus ∧
      s'.hdus =
        editHdus idx cards (shiftHdus h.offsets.dataOffset (headerGrowth h cards) s.hdus) := by
  obtain ⟨hblocks, hprint, hroom⟩ := hsafe h hdu
  obtain ⟨hrun, hwalks⟩ := rewriteAndCommit_run hw hdu (cleanHeader_of_editable hkeeps.1 hprint)
    hblocks hkeeps.2.layout hroom
  exact ⟨_, hrun, hwalks, rfl⟩

/-- The cards of every HDU after the rewrite have the structure they had. -/
theorem keeps_after_rewrite {j : Nat} {g : Hdu} {delta : Nat} {staged : List Card}
    (hdu : s.hdus[idx]? = some h) (hkeeps : Keeps h.cards cards) (hg : s.hdus[j]? = some g)
    (hstaged : Keeps g.cards staged) :
    ∃ g', (editHdus idx cards (shiftHdus h.offsets.dataOffset delta s.hdus))[j]? = some g' ∧
      Keeps g'.cards staged := by
  rw [editHdus, List.getElem?_modify, shiftHdus, List.getElem?_map, hg, Option.map_some]
  by_cases hj : idx = j
  · subst hj
    rw [hdu] at hg
    cases hg
    refine ⟨_, by simp; rfl, ?_⟩
    exact ⟨hstaged.1, hkeeps.2.symm.trans hstaged.2⟩
  · refine ⟨⟨g.cards, g.offsets.shift h.offsets.dataOffset delta, g.kind⟩, ?_, hstaged⟩
    simp [hj]

end

section

variable {F : Type} {floats : Floats F} {lenient : Bool} {e : Editor}

theorem Consistent.setSession {i : Nat} {session : HeaderEdit} (hc : Consistent lenient e)
    (hs : ∃ h, e.fits.hdus[session.hdu]? = some h ∧ Keeps h.cards session.cards) :
    Consistent lenient (e.setEdit i session) := by
  refine ⟨hc.walks, fun x hx => ?_⟩
  rcases List.mem_or_eq_of_mem_set hx with hx | rfl
  · exact hc.sessions x hx
  · exact hs

/-- A safe rewrite keeps the invariant. -/
theorem Consistent.rewrite {idx : Nat} {h : Hdu} {cards : List Card} (hc : Consistent lenient e)
    (hdu : e.fits.hdus[idx]? = some h) (hkeeps : Keeps h.cards cards)
    (hsafe : RewriteSafe e.fits idx cards) :
    ∃ s', rewriteAndCommit idx cards e.fits = .ok () s' ∧
      ∀ edits : List HeaderEdit, (∀ x ∈ edits, ∃ y ∈ e.edits, x.hdu = y.hdu ∧ x.cards = y.cards) →
        Consistent lenient ⟨s', edits⟩ := by
  obtain ⟨s', hrun, hwalks, hhdus⟩ := rewriteAndCommit_spec hc.walks hdu hkeeps hsafe
  refine ⟨s', hrun, fun edits hedits => ⟨hwalks, fun x hx => ?_⟩⟩
  obtain ⟨y, hy, hxy, hcards⟩ := hedits x hx
  obtain ⟨g, hg, hstaged⟩ := hc.sessions y hy
  rw [hxy, hcards]
  show ∃ g', s'.hdus[y.hdu]? = some g' ∧ _
  rw [hhdus]
  exact keeps_after_rewrite hdu hkeeps hg hstaged

/-- One safe call. -/
theorem Consistent.perform (hc : Consistent lenient e) (call : Call F)
    (hsafe : call.Safe floats e) : Consistent lenient (call.perform floats e) := by
  cases call with
  | header idx m =>
    cases hdu : e.fits.hdus[idx]? with
    | none =>
      have hrun : headerCall floats idx m e.fits = .error (.io (str "no such HDU")) e.fits := by
        unfold headerCall
        rw [FileOp.get_bind, hdu]
        rfl
      simp only [Call.perform, hrun]
      exact hc
    | some h =>
      have heditable := editable_of_walks hc.walks hdu
      have hpres := preserves_run floats m h.cards h.cards (Keeps.refl heditable)
      cases hm : m.run floats h.cards with
      | error err cards =>
        have hrun : headerCall floats idx m e.fits = .error err e.fits := by
          unfold headerCall
          rw [FileOp.get_bind, hdu]
          dsimp only
          rw [hm]
          rfl
        simp only [Call.perform, hrun]
        exact hc
      | ok changed cards =>
        rw [hm] at hpres
        cases changed with
        | true =>
          obtain ⟨s', hs', hcons⟩ := hc.rewrite hdu hpres (hsafe h cards hdu hm)
          have hrun : headerCall floats idx m e.fits = .ok () s' := by
            unfold headerCall
            rw [FileOp.get_bind, hdu]
            dsimp only
            rw [hm]
            exact hs'
          simp only [Call.perform, hrun]
          exact hcons e.edits fun x hx => ⟨x, hx, rfl, rfl⟩
        | false =>
          have hrun : headerCall floats idx m e.fits = .ok () e.fits := by
            unfold headerCall
            rw [FileOp.get_bind, hdu]
            dsimp only
            rw [hm]
            rfl
          simp only [Call.perform, hrun]
          exact hc
  | edit idx =>
    cases hdu : e.fits.hdus[idx]? with
    | none =>
      simp only [Call.perform, hdu]
      exact hc
    | some h =>
      simp only [Call.perform, hdu]
      refine ⟨hc.walks, fun x hx => ?_⟩
      rcases List.mem_append.1 hx with hx | hx
      · exact hc.sessions x hx
      · rw [List.mem_singleton.1 hx]
        exact ⟨h, hdu, Keeps.refl (editable_of_walks hc.walks hdu)⟩
  | enter i =>
    cases hi : e.edits[i]? with
    | none =>
      simp only [Call.perform, hi]
      exact hc
    | some session =>
      simp only [Call.perform, hi]
      exact hc.setSession (hc.sessions session (List.mem_of_getElem? hi))
  | stage i m =>
    cases hi : e.edits[i]? with
    | none =>
      simp only [Call.perform, hi]
      exact hc
    | some session =>
      obtain ⟨h, hdu, hkeeps⟩ := hc.sessions session (List.mem_of_getElem? hi)
      have hpres := preserves_run floats m h.cards session.cards hkeeps
      simp only [Call.perform, hi]
      cases hactive : session.ensureActive with
      | error err => exact hc
      | ok u =>
        dsimp only
        cases hm : m.run floats session.cards with
        | ok changed cards =>
          rw [hm] at hpres
          exact hc.setSession ⟨h, hdu, hpres⟩
        | error err cards =>
          rw [hm] at hpres
          exact hc.setSession ⟨h, hdu, hpres⟩
  | exit i raised =>
    cases hi : e.edits[i]? with
    | none =>
      simp only [Call.perform, hi]
      exact hc
    | some session =>
      obtain ⟨h, hdu, hkeeps⟩ := hc.sessions session (List.mem_of_getElem? hi)
      simp only [Call.perform, hi]
      by_cases hcommit : (session.entered && !raised && !session.committed) = true
      · rw [if_pos hcommit]
        obtain ⟨s', hs', hcons⟩ := hc.rewrite hdu hkeeps (hsafe session hi hcommit)
        rw [hs']
        refine hcons _ fun x hx => ?_
        rcases List.mem_or_eq_of_mem_set hx with hx | rfl
        · exact ⟨x, hx, rfl, rfl⟩
        · exact ⟨session, List.mem_of_getElem? hi, rfl, rfl⟩
      · rw [if_neg hcommit]
        exact hc.setSession (hc.sessions session (List.mem_of_getElem? hi))

/-- Whole runs. -/
theorem Consistent.run {e' : Editor} (hc : Consistent lenient e) (hrun : SafeRun floats e e') :
    Consistent lenient e' := by
  induction hrun with
  | refl => exact hc
  | step call _ hsafe ih => exact ih.perform call hsafe

/-- In every run of safe calls on an opened file, the parser finds the file as it
is in memory. -/
theorem headerEdits_reopen {s : Fits} (hopen : Reopens lenient s) (hno : NoOverflow s.hdus)
    (hrun : SafeRun floats ⟨s, []⟩ e) : Reopens lenient e.fits :=
  reopens_of_walks (Consistent.run ⟨walks_of_reopens hopen hno, by simp⟩ hrun).walks

end

/-! ## A header that loses a block -/

section

variable {F : Type} {floats : Floats F} {lenient : Bool} {s : Fits} {idx : Nat} {h : Hdu}
  {m : HeaderMethod F} {cards : List Card}

/-- A method whose cards fit the blocks of the header. -/
theorem headerCall_of_fits (hdu : s.hdus[idx]? = some h)
    (hrun : m.run floats h.cards = .ok true cards)
    (hfit : cards.length ≤ h.offsets.headerBlockCount * cardsPerBlock) :
    headerCall floats idx m s =
      .ok ()
        ⟨writeAll s.bytes h.offsets.headerOffset (headerBytes h.offsets.headerBlockCount cards),
        s.hdus.modify idx fun g => { g with cards := cards }⟩ := by
  unfold headerCall
  rw [FileOp.get_bind, hdu]
  dsimp only
  rw [hrun]
  exact FileOp.bind_ok (rewriteHeaderToDisk_of_fits hdu hfit)

/-- A method that leaves a block of the header unused: the parser finds fewer
blocks than the open file has. -/
theorem not_reopens_of_fewer_blocks (hdu : s.hdus[idx]? = some h)
    (hrun : m.run floats h.cards = .ok true cards)
    (hfewer : headerBlocks cards.length < h.offsets.headerBlockCount) :
    ¬ Reopens lenient ((Call.header idx m).perform floats ⟨s, []⟩).fits := by
  have hfit : cards.length ≤ h.offsets.headerBlockCount * cardsPerBlock := by
    rw [headerBlocks_eq] at hfewer
    unfold cardsPerBlock blockSize cardSize
    omega
  intro hre
  simp only [Call.perform, headerCall_of_fits hdu hrun hfit] at hre
  have hmem : ({ h with cards := cards } : Hdu) ∈
      s.hdus.modify idx fun g => { g with cards := cards } := by
    refine List.mem_of_getElem? (i := idx) ?_
    rw [List.getElem?_modify, hdu]
    simp
  have hcount := blockCount_of_reopens hre _ hmem
  dsimp only at hcount
  omega

end

/-- The cards of a primary header without data. -/
def emptyPrimary : List Card :=
  [str "SIMPLE  =                    T", str "BITPIX  =                    8",
    str "NAXIS   =                    0"]

/-- A primary header of 37 cards, one more than a block holds. -/
def crowdedHeader : List Card :=
  emptyPrimary ++ str "OBJECT  = 'M31     '" :: List.replicate 32 (str "HISTORY dark") ++ [endCard]

/-- The same header without OBJECT fits one block. -/
def thinnedHeader : List Card := emptyPrimary ++ List.replicate 32 (str "HISTORY dark") ++ [endCard]

/-- An image extension without data. -/
def emptyExtension : List Card :=
  [str "XTENSION= 'IMAGE   '", str "BITPIX  =                    8",
    str "NAXIS   =                    0", str "PCOUNT  =                    0",
    str "GCOUNT  =                    1", endCard]

/-- A file of these two HDUs. -/
def crowdedFile : Fits :=
  ⟨serializeHeaderToDiskBytes crowdedHeader ++ serializeHeaderToDiskBytes emptyExtension,
    [⟨crowdedHeader, ⟨0, 2, 5760⟩, .image⟩, ⟨emptyExtension, ⟨5760, 1, 8640⟩, .image⟩]⟩

/-- Numbers that stand for the floating-point numbers of the examples, which use
none. -/
def exampleFloats : Floats Nat := ⟨fun _ => true, natDec, parseNat⟩

theorem crowdedHeader_clean : CleanHeader crowdedHeader :=
  ⟨by decide +kernel, crowdedHeader.dropLast, by decide +kernel, by decide +kernel⟩

theorem emptyExtension_clean : CleanHeader emptyExtension :=
  ⟨by decide +kernel, emptyExtension.dropLast, by decide +kernel, by decide +kernel⟩

example : headerBlocks crowdedHeader.length = 2 := by decide +kernel

theorem crowdedFile_length : crowdedFile.bytes.length = 8640 := by
  show (serializeHeaderToDiskBytes crowdedHeader ++ serializeHeaderToDiskBytes
    emptyExtension).length
    = 8640
  rw [List.length_append, serialize_length, serialize_length]
  decide +kernel

theorem crowdedFile_noOverflow : NoOverflow crowdedFile.hdus := by
  show ∀ h ∈ [_, _], _
  decide +kernel

example : (serializeHeaderToDiskBytes emptyExtension).length = 2880 := by decide +kernel

/-- The parser walks the file before the edit. -/
theorem walks_crowdedFile : Walks false crowdedFile.bytes true 0 crowdedFile.hdus := by
  have hlen : (serializeHeaderToDiskBytes crowdedHeader).length = 5760 := by
    rw [serialize_length]
    decide +kernel
  have hlen' : (serializeHeaderToDiskBytes emptyExtension).length = 2880 := by
    rw [serialize_length]
    decide +kernel
  have hbytes : crowdedFile.bytes =
      serializeHeaderToDiskBytes crowdedHeader ++ serializeHeaderToDiskBytes emptyExtension := rfl
  have hfirst : readHeader false crowdedFile.bytes 0 = .ok crowdedHeader := by
    refine readHeader_serialize crowdedHeader_clean ?_
    rw [hbytes, ← serialize_length, slice, List.drop_zero, List.take_left]
  have hsecond : readHeader false crowdedFile.bytes 5760 = .ok emptyExtension := by
    refine readHeader_serialize emptyExtension_clean ?_
    rw [hbytes, ← serialize_length, slice, List.drop_left' hlen, List.take_length]
  have hno := crowdedFile_noOverflow
  refine ⟨⟨hfirst, by decide, by decide +kernel⟩, by decide +kernel, hno _ (List.mem_cons_self),
    Or.inl ⟨?_, ⟨hsecond, by decide, by decide +kernel⟩, by decide +kernel, ?_, Or.inr ⟨?_, rfl⟩⟩⟩
  · rw [crowdedFile_length]
    decide +kernel
  · decide +kernel
  · rw [crowdedFile_length]
    decide +kernel

/-- The extension header with a new card. -/
def namedExtension : List Card :=
  emptyExtension.dropLast ++ [str "OBJECT  =                    5", endCard]

theorem run_setItem_emptyExtension :
    (HeaderMethod.setItem (str "object") (.integer 5) none).run exampleFloats emptyExtension =
      .ok true namedExtension := by
  rfl

example : headerBlocks namedExtension.length = 1 := by decide +kernel

theorem safe_setObject : (Call.header 1 (.setItem (str "object") (.integer 5) none)).Safe
    exampleFloats ⟨crowdedFile, []⟩ := by
  intro h cards hdu hrun
  have hh : h = ⟨emptyExtension, ⟨5760, 1, 8640⟩, .image⟩ := by
    rw [← Option.some.inj hdu]
  subst hh
  rw [run_setItem_emptyExtension] at hrun
  cases hrun
  intro h hdu
  have hh : h = ⟨emptyExtension, ⟨5760, 1, 8640⟩, .image⟩ := by
    rw [← Option.some.inj hdu]
  subst hh
  have htext : namedExtension.all (fun c => c.all isPrintable) = true := by decide +kernel
  refine ⟨by decide, fun c hc => printable_of_all (List.all_eq_true.1 htext c hc), ?_⟩
  show ∀ g ∈ [_, _], _
  decide +kernel

/-- A new card in the header of the second HDU. -/
theorem headerEdits_reopen_setObject :
    Reopens false ((Call.header 1 (.setItem (str "object") (.integer 5) none)).perform
      exampleFloats ⟨crowdedFile, []⟩).fits :=
  headerEdits_reopen (reopens_of_walks walks_crowdedFile) crowdedFile_noOverflow
    (.step _ (.refl _) safe_setObject)

theorem run_delItem_crowdedHeader :
    (HeaderMethod.delItem (str "OBJECT")).run exampleFloats crowdedHeader =
      .ok true thinnedHeader := by
  rfl

/-- Deleting OBJECT moves END into the first of the two blocks: the parser finds
one block where the open file has two. -/
theorem not_reopens_delItem :
    Reopens false crowdedFile ∧ NoOverflow crowdedFile.hdus ∧
      ¬ Reopens false ((Call.header 0 (.delItem (str "OBJECT"))).perform
        exampleFloats ⟨crowdedFile, []⟩).fits := by
  refine ⟨reopens_of_walks walks_crowdedFile, crowdedFile_noOverflow, ?_⟩
  have hdu : crowdedFile.hdus[0]? = some ⟨crowdedHeader, ⟨0, 2, 5760⟩, .image⟩ := rfl
  exact not_reopens_of_fewer_blocks hdu run_delItem_crowdedHeader (by decide)

end Header

end RustFits
