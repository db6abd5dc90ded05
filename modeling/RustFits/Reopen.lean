import RustFits.TableHeader

/-!
# Opening a file again

An open file reopens when the open-time parser finds its HDUs in its bytes: as
many, each with the same cards and the same offsets.

* `Walks` says it along the loop of the parser, without fuel: one accepted header
  after the other, each at the declared end of the one before.
  `walks_of_parse` and `reopens_of_walks` connect it with the parser.
* `readHeader_congr` is the frame of the header reader, `readHeader_clean` the
  shape of what it returns.
* `Walks.rewrite` is the step: a header is written over its blocks or over more
  of them, and everything behind it moves on.
-/

namespace RustFits

open Ascii ByteFile Machine

/-! ## The reader of a header -/

theorem readHeaderBlocks_ne_nil {lenient : Bool} {bytes : Bytes} {offset : Nat}
    {cards : List Card} :
    ∀ (left pos : Nat) (acc : List Card),
      readHeaderBlocks lenient bytes offset (left + 1) pos acc = .ok cards → cards ≠ [] := by
  intro left
  induction left with
  | zero =>
    intro pos acc h
    rw [readHeaderBlocks] at h
    split at h
    · cases h
    · dsimp only at h
      split_ifs at h with hend
      · have hpos := pushCards_pos_of_found hend
        rw [← Except.ok.inj h]
        intro hnil
        simp_all
      · rw [readHeaderBlocks] at h
        have hfull := pushCards_of_not_found (Bool.eq_false_iff.2 hend)
        split_ifs at h with hempty
        have hlen := congrArg List.length (List.isEmpty_iff.1 hempty)
        rw [List.length_append, hfull, blockCards_length] at hlen
        simp at hlen
  | succ left ih =>
    intro pos acc h
    rw [readHeaderBlocks] at h
    split at h
    · cases h
    · dsimp only at h
      split_ifs at h with hend
      · have hpos := pushCards_pos_of_found hend
        rw [← Except.ok.inj h]
        intro hnil
        simp_all
      · exact ih _ _ h

/-- There is no header where the file has no whole block left. -/
theorem readHeader_eq_nil {lenient : Bool} {bytes : Bytes} {offset : Nat} :
    readHeader lenient bytes offset = .ok [] ↔ bytes.length < offset + 2880 := by
  unfold readHeader
  constructor
  · intro h
    cases hleft : (bytes.length - offset) / blockSize with
    | zero =>
      unfold blockSize at hleft
      omega
    | succ left =>
      rw [hleft] at h
      exact absurd rfl (readHeaderBlocks_ne_nil left _ _ h)
  · intro h
    rw [show (bytes.length - offset) / blockSize = 0 by unfold blockSize; omega]
    rfl

theorem checkBlock_offset {lenient : Bool} {offset : Nat} (offset' : Nat) {block out : Bytes}
    (h : checkBlock lenient offset block = .ok out) :
    checkBlock lenient offset' block = .ok out := by
  unfold checkBlock at h ⊢
  split_ifs at h ⊢ with hl
  · exact h
  · split at h
    · exact h
    · cases h

/-- The reader looks at the blocks it returns cards of, and nowhere else. -/
theorem readHeaderBlocks_congr {lenient : Bool} {bytes bytes' : Bytes} {offset offset' : Nat}
    {cards : List Card} (hne : cards ≠ []) :
    ∀ (left left' pos pos' k : Nat) (acc : List Card), acc.length = 36 * k →
      readHeaderBlocks lenient bytes offset left pos acc = .ok cards →
      headerBlocks cards.length ≤ k + left' →
      slice bytes' pos' ((headerBlocks cards.length - k) * 2880) =
        slice bytes pos ((headerBlocks cards.length - k) * 2880) →
      readHeaderBlocks lenient bytes' offset' left' pos' acc = .ok cards := by
  intro left
  induction left with
  | zero =>
    intro left' pos pos' k acc hacc h _ _
    rw [readHeaderBlocks] at h
    split_ifs at h
    exact absurd (Except.ok.inj h).symm hne
  | succ left ih =>
    intro left' pos pos' k acc hacc h hleft hbytes
    have hmore : k < headerBlocks cards.length := by
      rcases readHeaderBlocks_length _ _ k acc hacc h with hnil | ⟨hlt, -⟩
      · exact absurd hnil hne
      · rw [headerBlocks_eq]
        omega
    obtain ⟨left', rfl⟩ : ∃ n, left' = n + 1 := ⟨left' - 1, by omega⟩
    have hblock : slice bytes' pos' blockSize = slice bytes pos blockSize := by
      have htake := congrArg (List.take 2880) hbytes
      rw [slice, slice, List.take_take, List.take_take, Nat.min_eq_left (by omega)] at htake
      exact htake
    rw [readHeaderBlocks] at h ⊢
    rw [hblock]
    split at h
    · cases h
    · rename_i block hcheck
      rw [checkBlock_offset offset' hcheck]
      dsimp only at h ⊢
      split_ifs at h ⊢ with hend
      · exact h
      · have hfull := pushCards_of_not_found (Bool.eq_false_iff.2 hend)
        refine ih left' _ _ (k + 1) _ ?_ h (by omega) ?_
        · rw [List.length_append, hfull, blockCards_length]
          omega
        · have hdrop := congrArg (List.drop 2880) hbytes
          rw [slice, slice, List.drop_take, List.drop_take, List.drop_drop, List.drop_drop,
            show (headerBlocks cards.length - k) * 2880 - 2880 =
              (headerBlocks cards.length - (k + 1)) * 2880 by omega] at hdrop
          exact hdrop

/-- The same header at another place of another file. -/
theorem readHeader_congr {lenient : Bool} {bytes bytes' : Bytes} {offset offset' : Nat}
    {cards : List Card} (h : readHeader lenient bytes offset = .ok cards) (hne : cards ≠ [])
    (hbytes : slice bytes' offset' (headerBlocks cards.length * 2880) =
      slice bytes offset (headerBlocks cards.length * 2880)) :
    readHeader lenient bytes' offset' = .ok cards := by
  obtain ⟨hpos, hfit⟩ := readHeader_fits h hne
  have hlen := congrArg List.length hbytes
  rw [slice_length, slice_length] at hlen
  refine readHeaderBlocks_congr hne _ _ _ _ 0 [] rfl h ?_ hbytes
  unfold blockSize at hfit ⊢
  omega

/-! ### The cards it returns -/

theorem printable_of_checkBlock {lenient : Bool} {offset : Nat} {block out : Bytes}
    (h : checkBlock lenient offset block = .ok out) : ∀ b ∈ out, isPrintable b = true := by
  unfold checkBlock at h
  split_ifs at h with hl
  · cases h
    intro b hb
    obtain ⟨c, -, rfl⟩ := List.mem_map.1 hb
    split_ifs with hc
    · exact hc
    · decide
  · split at h
    · rename_i hnone
      cases h
      intro b hb
      simpa using List.findIdx?_eq_none_iff.1 hnone b hb
    · cases h

theorem mem_of_mem_trimEnd {b : UInt8} {s : Str} (h : b ∈ trimEnd s) : b ∈ s :=
  (List.rdropWhile_prefix _ _).sublist.subset h

theorem trimEnd_length_le (s : Str) : (trimEnd s).length ≤ s.length :=
  (List.rdropWhile_prefix _ _).sublist.length_le

@[simp] theorem trimEnd_trimEnd (s : Str) : trimEnd (trimEnd s) = trimEnd s :=
  List.rdropWhile_idempotent _ _

theorem blockCards_clean {lenient : Bool} {offset : Nat} {block out : Bytes}
    (h : checkBlock lenient offset block = .ok out) : ∀ card ∈ blockCards out, CleanCard card := by
  intro card hcard
  obtain ⟨i, -, rfl⟩ := List.mem_map.1 hcard
  refine ⟨?_, fun b hb => ?_, trimEnd_trimEnd _⟩
  · have h1 := trimEnd_length_le (slice out (i * cardSize) cardSize)
    have h2 : (slice out (i * cardSize) cardSize).length ≤ 80 := by
      rw [slice_length]
      exact Nat.min_le_left _ _
    omega
  · exact printable_of_checkBlock h b
      (List.mem_of_mem_drop (List.mem_of_mem_take (mem_of_mem_trimEnd hb)))

theorem pushCards_found {l : List Card} (h : (pushCards l).2 = true) :
    ∃ body, (pushCards l).1 = body ++ [endCard] ∧ endCard ∉ body ∧ ∀ c ∈ body, c ∈ l := by
  induction l with
  | nil => simp [pushCards] at h
  | cons card rest ih =>
    by_cases hcard : card = str "END"
    · exact ⟨[], by simp [pushCards, hcard, endCard], by simp, by simp⟩
    · have hrest : (pushCards rest).2 = true := by simpa [pushCards, hcard] using h
      obtain ⟨body, hbody, hend, hmem⟩ := ih hrest
      refine ⟨card :: body, by simp [pushCards, hcard, hbody], ?_, ?_⟩
      · intro hm
        rcases List.mem_cons.1 hm with he | hm
        · exact hcard he.symm
        · exact hend hm
      · intro c hc
        rcases List.mem_cons.1 hc with rfl | hc
        · simp
        · exact List.mem_cons_of_mem _ (hmem c hc)

theorem endCard_clean : CleanCard endCard := by decide

/-- No END among the cards of a block without END. -/
theorem endCard_notMem_of_not_found {l : List Card} (h : (pushCards l).2 = false) :
    endCard ∉ l := by
  induction l with
  | nil => simp
  | cons card rest ih =>
    by_cases hcard : card = str "END"
    · simp [pushCards, hcard] at h
    · have hrest : (pushCards rest).2 = false := by simpa [pushCards, hcard] using h
      intro hm
      rcases List.mem_cons.1 hm with he | hm
      · exact hcard he.symm
      · exact ih hrest hm

theorem readHeaderBlocks_clean {lenient : Bool} {bytes : Bytes} {offset : Nat} {cards : List Card}
    (hne : cards ≠ []) :
    ∀ (left pos : Nat) (acc : List Card), (∀ c ∈ acc, CleanCard c) → endCard ∉ acc →
      readHeaderBlocks lenient bytes offset left pos acc = .ok cards → CleanHeader cards := by
  intro left
  induction left with
  | zero =>
    intro pos acc _ _ h
    rw [readHeaderBlocks] at h
    split_ifs at h
    exact absurd (Except.ok.inj h).symm hne
  | succ left ih =>
    intro pos acc hclean hend h
    rw [readHeaderBlocks] at h
    split at h
    · cases h
    · rename_i block hcheck
      have hblock := blockCards_clean hcheck
      dsimp only at h
      split_ifs at h with hfound
      · obtain ⟨body, hbody, hnot, hmem⟩ := pushCards_found hfound
        rw [← Except.ok.inj h, hbody, ← List.append_assoc]
        refine ⟨fun c hc => ?_, acc ++ body, rfl, ?_⟩
        · rcases List.mem_append.1 hc with hc | hc
          · rcases List.mem_append.1 hc with hc | hc
            · exact hclean c hc
            · exact hblock c (hmem c hc)
          · rw [List.mem_singleton.1 hc]
            exact endCard_clean
        · intro hm
          rcases List.mem_append.1 hm with hm | hm
          · exact hend hm
          · exact hnot hm
      · have hnot := endCard_notMem_of_not_found (Bool.eq_false_iff.2 hfound)
        have hfull := pushCards_of_not_found (Bool.eq_false_iff.2 hfound)
        refine ih _ _ ?_ ?_ h
        · intro c hc
          rw [hfull] at hc
          rcases List.mem_append.1 hc with hc | hc
          · exact hclean c hc
          · exact hblock c hc
        · rw [hfull]
          intro hm
          rcases List.mem_append.1 hm with hm | hm
          · exact hend hm
          · exact hnot hm

/-- What the reader returns is a clean header. -/
theorem readHeader_clean {lenient : Bool} {bytes : Bytes} {offset : Nat} {cards : List Card}
    (h : readHeader lenient bytes offset = .ok cards) (hne : cards ≠ []) : CleanHeader cards :=
  readHeaderBlocks_clean hne _ _ [] (by simp) (by simp) h

/-! ## The walk of the parser -/

/-- What a re-open has to find again of an HDU.  The class is left out: it is
chosen at open time from the cards as they are then. -/
def Hdu.record (h : Hdu) : List Card × HduOffsets := (h.cards, h.offsets)

/-- The open-time parser finds the HDUs of the open file in its bytes. -/
def Reopens (lenient : Bool) (s : Fits) : Prop :=
  ∃ fuel hdus, parseHdusFromFile lenient s.bytes fuel = some (.ok hdus) ∧
    hdus.map Hdu.record = s.hdus.map Hdu.record

/-- No offset computation of the parser overflows on these HDUs. -/
def NoOverflow (hdus : List Hdu) : Prop :=
  ∀ h ∈ hdus, (hduExtent h.cards h.offsets.headerOffset).overflow = false

/-- From `offset` on the parser accepts the headers of these HDUs, one at the end
of the other, and stops. -/
def Walks (lenient : Bool) (bytes : Bytes) : Bool → Nat → List Hdu → Prop
  | _, offset, [] => readHeader lenient bytes offset = .ok []
  | isPrimary, offset, h :: rest =>
    HeaderAt lenient bytes isPrimary offset h.cards ∧
      h.offsets = ⟨offset, headerBlocks h.cards.length,
        offset + headerBlocks h.cards.length * blockSize⟩ ∧
      (hduExtent h.cards offset).overflow = false ∧
      (h.dataEnd < bytes.length ∧ Walks lenient bytes false h.dataEnd rest ∨
        bytes.length ≤ h.dataEnd ∧ rest = [])

section Walks

variable {lenient : Bool} {bytes : Bytes}

/-- Without overflow the parser computes the end of the data section. -/
theorem hduExtent_of_offsets {h : Hdu} {offset : Nat}
    (hoff : h.offsets = ⟨offset, headerBlocks h.cards.length,
      offset + headerBlocks h.cards.length * blockSize⟩)
    (hover : (hduExtent h.cards offset).overflow = false) :
    (hduExtent h.cards offset).val = (h.offsets.dataOffset, h.dataEnd) := by
  obtain ⟨hb, hlt⟩ := (hduExtent_overflow _ _).1 hover
  have hsize : (calculateDataSize h.cards).overflow = false := by
    refine (calculateDataSize_overflow _).2 ⟨hb, ?_⟩
    unfold declaredEnd at hlt
    omega
  rw [hduExtent_exact hover, declaredEnd, ← calculateDataSize_val hsize, Hdu.dataEnd, Hdu.dataSize,
    hoff]

theorem parseHdu_of_headerAt {isPrimary : Bool} {offset : Nat} {cards : List Card}
    (h : HeaderAt lenient bytes isPrimary offset cards) :
    parseHdu lenient bytes isPrimary offset =
      .ok (some (⟨cards, ⟨offset, headerBlocks cards.length, (hduExtent cards offset).val.1⟩,
        hduKind cards⟩, (hduExtent cards offset).val.2)) := by
  obtain ⟨hread, hne, hval⟩ := h
  unfold parseHdu
  rw [hread]
  dsimp only
  rw [if_neg (by simpa using hne), hval]

/-- The parser follows a walk. -/
theorem parseLoop_of_walks :
    ∀ (hdus acc : List Hdu) (isPrimary : Bool) (offset fuel : Nat), acc.isEmpty = isPrimary →
      Walks lenient bytes isPrimary offset hdus → hdus.length < fuel →
      ∃ found, parseLoop lenient bytes fuel offset acc = some (.ok (acc ++ found)) ∧
        found.map Hdu.record = hdus.map Hdu.record := by
  intro hdus
  induction hdus with
  | nil =>
    intro acc isPrimary offset fuel _ hwalk hfuel
    obtain ⟨fuel, rfl⟩ : ∃ n, fuel = n + 1 := ⟨fuel - 1, by omega⟩
    refine ⟨[], ?_, rfl⟩
    rw [parseLoop, parseHdu, show readHeader lenient bytes offset = .ok [] from hwalk,
      List.append_nil]
    rfl
  | cons h rest ih =>
    rintro acc isPrimary offset fuel hacc ⟨hat, hoff, hover, hnext⟩ hfuel
    obtain ⟨fuel, rfl⟩ : ∃ n, fuel = n + 1 := ⟨fuel - 1, by omega⟩
    have hext := hduExtent_of_offsets hoff hover
    obtain ⟨hdu, hhdu⟩ : ∃ hdu : Hdu, hdu = ⟨h.cards, ⟨offset, headerBlocks h.cards.length,
        h.offsets.dataOffset⟩, hduKind h.cards⟩ := ⟨_, rfl⟩
    have hrecord : hdu.record = h.record := by
      rw [hhdu]
      simp [Hdu.record, hoff]
    rw [parseLoop, hacc, parseHdu_of_headerAt hat]
    dsimp only
    rw [hext]
    dsimp only
    rw [← hhdu]
    rcases hnext with ⟨hlt, hwalk⟩ | ⟨hle, rfl⟩
    · rw [if_neg (by omega)]
      obtain ⟨found, hfound, hsame⟩ :=
        ih (acc ++ [hdu]) false h.dataEnd fuel (isEmpty_concat _ _) hwalk (by simpa using hfuel)
      refine ⟨hdu :: found, ?_, ?_⟩
      · rw [hfound, List.append_assoc, List.singleton_append]
      · rw [List.map_cons, List.map_cons, hsame, hrecord]
    · rw [if_pos hle]
      exact ⟨[hdu], rfl, by rw [List.map_cons, hrecord]; rfl⟩

/-- A walk over the whole file: the file reopens. -/
theorem reopens_of_walks {s : Fits} (h : Walks lenient s.bytes true 0 s.hdus) :
    Reopens lenient s := by
  obtain ⟨found, hparse, hsame⟩ :=
    parseLoop_of_walks s.hdus [] true 0 (s.hdus.length + 1) rfl h (Nat.lt_succ_self _)
  exact ⟨_, found, hparse, hsame⟩

/-- What the parser found is a walk, where nothing overflowed. -/
theorem walks_of_parseLoop :
    ∀ (fuel offset : Nat) (acc hdus : List Hdu),
      parseLoop lenient bytes fuel offset acc = some (.ok hdus) →
      ∃ found, hdus = acc ++ found ∧
        (NoOverflow found → Walks lenient bytes acc.isEmpty offset found) := by
  intro fuel
  induction fuel with
  | zero =>
    intro offset acc hdus h
    cases h
  | succ fuel ih =>
    intro offset acc hdus h
    rw [parseLoop] at h
    split at h
    · cases h
    · rename_i hnone
      cases h
      refine ⟨[], by simp, fun _ => ?_⟩
      unfold parseHdu at hnone
      split at hnone
      · cases hnone
      · rename_i cards hread
        split_ifs at hnone with hempty
        · rw [Walks, hread, List.isEmpty_iff.1 hempty]
        · split at hnone <;> cases hnone
    · rename_i hdu next hsome
      obtain ⟨cards, hat, hhdu, rfl⟩ := parseHdu_eq_some hsome
      have hcards : hdu.cards = cards := by rw [hhdu]
      have hstart : hdu.offsets.headerOffset = offset := by rw [hhdu]
      have hwalk : ∀ rest : List Hdu, NoOverflow (hdu :: rest) →
          ((hduExtent cards offset).val.2 < bytes.length ∧
              Walks lenient bytes false (hduExtent cards offset).val.2 rest ∨
            bytes.length ≤ (hduExtent cards offset).val.2 ∧ rest = []) →
          Walks lenient bytes acc.isEmpty offset (hdu :: rest) := by
        intro rest hno hnext
        have hover := hno hdu List.mem_cons_self
        rw [hstart] at hover
        have hoff : hdu.offsets = ⟨offset, headerBlocks hdu.cards.length,
            offset + headerBlocks hdu.cards.length * blockSize⟩ := by
          rw [hcards] at hover ⊢
          rw [hhdu, hduExtent_exact hover]
        have hend := congrArg Prod.snd (hduExtent_of_offsets hoff hover)
        dsimp only at hend
        rw [hcards] at hend
        rw [hend] at hnext
        exact ⟨hcards ▸ hat, hoff, hover, hnext⟩
      split_ifs at h with hle
      · cases h
        exact ⟨[hdu], rfl, fun hno => hwalk [] hno (Or.inr ⟨hle, rfl⟩)⟩
      · obtain ⟨found, rfl, hrest⟩ := ih _ _ _ h
        refine ⟨hdu :: found, by rw [List.append_assoc, List.singleton_append], fun hno => ?_⟩
        have hfound := hrest fun g hg => hno g (List.mem_cons_of_mem _ hg)
        rw [isEmpty_concat] at hfound
        exact hwalk found hno (Or.inl ⟨by omega, hfound⟩)

/-- A walk depends on the records of the HDUs only. -/
theorem walks_of_records :
    ∀ {hdus hdus' : List Hdu} {isPrimary : Bool} {offset : Nat},
      hdus.map Hdu.record = hdus'.map Hdu.record → Walks lenient bytes isPrimary offset hdus →
      Walks lenient bytes isPrimary offset hdus' := by
  intro hdus
  induction hdus with
  | nil =>
    intro hdus' isPrimary offset hsame hwalk
    rw [List.map_eq_nil_iff.1 (hsame.symm)]
    exact hwalk
  | cons h rest ih =>
    intro hdus' isPrimary offset hsame hwalk
    cases hdus' with
    | nil => simp at hsame
    | cons h' rest' =>
      rw [List.map_cons, List.map_cons, List.cons.injEq] at hsame
      obtain ⟨hrec, hrest⟩ := hsame
      have hcards : h.cards = h'.cards := congrArg Prod.fst hrec
      have hoffs : h.offsets = h'.offsets := congrArg Prod.snd hrec
      have hend : h.dataEnd = h'.dataEnd := by
        rw [Hdu.dataEnd, Hdu.dataEnd, Hdu.dataSize, Hdu.dataSize, hcards, hoffs]
      obtain ⟨hat, hoff, hover, hnext⟩ := hwalk
      refine ⟨hcards ▸ hat, hoffs ▸ hcards ▸ hoff, hcards ▸ hover, ?_⟩
      rw [← hend]
      rcases hnext with ⟨hlt, hwalk⟩ | ⟨hle, rfl⟩
      · exact Or.inl ⟨hlt, ih hrest hwalk⟩
      · exact Or.inr ⟨hle, List.map_eq_nil_iff.1 hrest.symm⟩

theorem walks_of_reopens {s : Fits} (h : Reopens lenient s) (hno : NoOverflow s.hdus) :
    Walks lenient s.bytes true 0 s.hdus := by
  obtain ⟨fuel, hdus, hparse, hsame⟩ := h
  obtain ⟨found, rfl, hwalk⟩ := walks_of_parseLoop fuel 0 [] hdus hparse
  refine walks_of_records hsame (hwalk fun g hg => ?_)
  have hmem : g.record ∈ s.hdus.map Hdu.record := hsame ▸ List.mem_map_of_mem hg
  obtain ⟨g', hg', hrec⟩ := List.mem_map.1 hmem
  rw [← show g'.cards = g.cards from congrArg Prod.fst hrec,
    ← show g'.offsets = g.offsets from congrArg Prod.snd hrec]
  exact hno g' hg'

/-- A file that reopens has the block counts its cards need. -/
theorem blockCount_of_reopens {s : Fits} (h : Reopens lenient s) :
    ∀ g ∈ s.hdus, g.offsets.headerBlockCount = headerBlocks g.cards.length := by
  obtain ⟨fuel, hdus, hparse, hsame⟩ := h
  have hall : ∀ (fuel offset : Nat) (acc : List Hdu),
      (∀ g ∈ acc, g.offsets.headerBlockCount = headerBlocks g.cards.length) →
      parseLoop lenient s.bytes fuel offset acc = some (.ok hdus) →
      ∀ g ∈ hdus, g.offsets.headerBlockCount = headerBlocks g.cards.length := by
    intro fuel
    induction fuel with
    | zero =>
      intro offset acc _ h
      cases h
    | succ fuel ih =>
      intro offset acc hacc h
      rw [parseLoop] at h
      split at h
      · cases h
      · cases h
        exact hacc
      · rename_i hdu next hsome
        obtain ⟨cards, -, rfl, rfl⟩ := parseHdu_eq_some hsome
        have hmore : ∀ g ∈ acc ++ [(⟨cards, ⟨offset, headerBlocks cards.length,
            (hduExtent cards offset).val.1⟩, hduKind cards⟩ : Hdu)],
            g.offsets.headerBlockCount = headerBlocks g.cards.length := by
          intro g hg
          rcases List.mem_append.1 hg with hg | hg
          · exact hacc g hg
          · rw [List.mem_singleton.1 hg]
        split_ifs at h
        · cases h
          exact hmore
        · exact ih _ _ hmore h
  intro g hg
  have hmem : g.record ∈ hdus.map Hdu.record := hsame ▸ List.mem_map_of_mem hg
  obtain ⟨g', hg', hrec⟩ := List.mem_map.1 hmem
  rw [← show g'.cards = g.cards from congrArg Prod.fst hrec,
    ← show g'.offsets = g.offsets from congrArg Prod.snd hrec]
  exact hall fuel 0 [] (by simp) hparse g' hg'

/-- What a walk says about each of its HDUs. -/
structure Walked (lenient : Bool) (bytes : Bytes) (h : Hdu) : Prop where
  header : ∃ isPrimary, HeaderAt lenient bytes isPrimary h.offsets.headerOffset h.cards
  blocks : h.offsets.headerBlockCount = headerBlocks h.cards.length
  dataOffset : h.offsets.dataOffset =
    h.offsets.headerOffset + h.offsets.headerBlockCount * blockSize
  noOverflow : (hduExtent h.cards h.offsets.headerOffset).overflow = false

theorem Walks.mem :
    ∀ {hdus : List Hdu} {isPrimary : Bool} {offset : Nat},
      Walks lenient bytes isPrimary offset hdus →
      ∀ h ∈ hdus, offset ≤ h.offsets.headerOffset ∧ Walked lenient bytes h := by
  intro hdus
  induction hdus with
  | nil => simp
  | cons h rest ih =>
    rintro isPrimary offset ⟨hat, hoff, hover, hnext⟩ g hg
    have hstart : h.offsets.headerOffset = offset := by rw [hoff]
    have hdata : h.offsets.dataOffset =
        h.offsets.headerOffset + h.offsets.headerBlockCount * blockSize := by rw [hoff]
    rcases List.mem_cons.1 hg with rfl | hg
    · exact ⟨Nat.le_of_eq hstart.symm, ⟨isPrimary, hstart ▸ hat⟩, by rw [hoff], hdata,
        hstart ▸ hover⟩
    · rcases hnext with ⟨-, hwalk⟩ | ⟨-, rfl⟩
      · obtain ⟨hle, hg⟩ := ih hwalk g hg
        have hend : h.offsets.dataOffset ≤ h.dataEnd := Nat.le_add_right _ _
        exact ⟨by omega, hg⟩
      · simp at hg

section

variable {h : Hdu}

theorem Walked.clean (hw : Walked lenient bytes h) : CleanHeader h.cards := by
  obtain ⟨isPrimary, hread, hne, -⟩ := hw.header
  exact readHeader_clean hread hne

theorem Walked.fits (hw : Walked lenient bytes h) :
    h.offsets.headerOffset < h.offsets.dataOffset ∧ h.offsets.dataOffset ≤ bytes.length := by
  obtain ⟨isPrimary, hread, hne, -⟩ := hw.header
  obtain ⟨hpos, hfit⟩ := readHeader_fits hread hne
  rw [hw.dataOffset, hw.blocks]
  unfold blockSize at hfit ⊢
  omega

end

theorem HeaderAt.congr {bytes' : Bytes} {isPrimary : Bool} {offset offset' : Nat}
    {cards : List Card} (h : HeaderAt lenient bytes isPrimary offset cards)
    (hbytes : slice bytes' offset' (headerBlocks cards.length * 2880) =
      slice bytes offset (headerBlocks cards.length * 2880)) :
    HeaderAt lenient bytes' isPrimary offset' cards :=
  ⟨readHeader_congr h.1 h.2.1 hbytes, h.2⟩

/-- The offset records behind `cut` after the shift of the tail. -/
def shiftHdus (cut delta : Nat) (hdus : List Hdu) : List Hdu :=
  hdus.map fun h => { h with offsets := h.offsets.shift cut delta }

/-- The extent of an HDU that has moved on. -/
theorem hduExtent_moved {cards : List Card} {offset delta : Nat}
    (hover : (hduExtent cards offset).overflow = false)
    (hroom : offset + headerBlocks cards.length * blockSize +
      (calculateDataSize cards).val + delta <
      u64Size) : (hduExtent cards (offset + delta)).overflow = false := by
  obtain ⟨hb, hlt⟩ := (hduExtent_overflow _ _).1 hover
  have hsize : (calculateDataSize cards).overflow = false := by
    refine (calculateDataSize_overflow _).2 ⟨hb, ?_⟩
    unfold declaredEnd at hlt
    omega
  rw [calculateDataSize_val hsize] at hroom
  refine (hduExtent_overflow _ _).2 ⟨hb, ?_⟩
  unfold declaredEnd
  omega

/-- A walk that moves on as a whole. -/
theorem Walks.shift {bytes' : Bytes} {cut delta : Nat}
    (hdrop : bytes'.drop (cut + delta) = bytes.drop cut)
    (hlen : bytes'.length = bytes.length + delta) :
    ∀ {hdus : List Hdu} {isPrimary : Bool} {offset : Nat}, cut ≤ offset →
      (∀ h ∈ hdus, h.dataEnd + delta < u64Size) → Walks lenient bytes isPrimary offset hdus →
      Walks lenient bytes' isPrimary (offset + delta) (shiftHdus cut delta hdus) := by
  intro hdus
  induction hdus with
  | nil =>
    intro isPrimary offset _ _ hwalk
    have hshort := readHeader_eq_nil.1 hwalk
    exact readHeader_eq_nil.2 (by omega)
  | cons h rest ih =>
    rintro isPrimary offset hcut hroom ⟨hat, hoff, hover, hnext⟩
    have hslice : ∀ n, slice bytes' (offset + delta) n = slice bytes offset n := by
      intro n
      rw [slice, slice, show offset + delta = cut + delta + (offset - cut) by omega,
        ← List.drop_drop, hdrop, List.drop_drop, Nat.add_sub_cancel' hcut]
    have hmoved : h.offsets.shift cut delta = ⟨offset + delta, headerBlocks h.cards.length,
        offset + delta + headerBlocks h.cards.length * blockSize⟩ := by
      rw [hoff, HduOffsets.shift, if_pos hcut]
      simp only [HduOffsets.mk.injEq, true_and]
      omega
    have hend : (⟨h.cards, h.offsets.shift cut delta, h.kind⟩ : Hdu).dataEnd =
        h.dataEnd + delta := by
      show (h.offsets.shift cut delta).dataOffset + h.dataSize =
        h.offsets.dataOffset + h.dataSize + delta
      rw [hmoved, hoff]
      dsimp only
      omega
    refine ⟨hat.congr (hslice _), hmoved, ?_, ?_⟩
    · refine hduExtent_moved hover ?_
      have := hroom h (by simp)
      rw [Hdu.dataEnd, Hdu.dataSize, hoff] at this
      exact this
    · rw [hend]
      rcases hnext with ⟨hlt, hwalk⟩ | ⟨hle, rfl⟩
      · refine Or.inl ⟨by omega, ih ?_ (fun g hg => hroom g (List.mem_cons_of_mem _ hg)) hwalk⟩
        have : h.offsets.dataOffset ≤ h.dataEnd := Nat.le_add_right _ _
        rw [hoff] at this
        dsimp only at this
        omega
      · exact Or.inr ⟨by omega, rfl⟩

/-- New cards for the HDU `idx`, with the header blocks they need. -/
def editHdus (idx : Nat) (cards : List Card) (hdus : List Hdu) : List Hdu :=
  hdus.modify idx fun h => ⟨cards, h.offsets.reserve cards.length, h.kind⟩

/-- The header of one HDU is written again, over its blocks or over more of them,
with cards that declare the same data section. -/
structure Rewritten (lenient : Bool) (bytes bytes' : Bytes) (h : Hdu) (cards : List Card)
    (delta : Nat) : Prop where
  growth : headerBlocks cards.length * blockSize =
    h.offsets.headerBlockCount * blockSize + delta
  front : bytes'.take h.offsets.headerOffset = bytes.take h.offsets.headerOffset
  back : bytes'.drop (h.offsets.dataOffset + delta) = bytes.drop h.offsets.dataOffset
  length : bytes'.length = bytes.length + delta
  read : readHeader lenient bytes' h.offsets.headerOffset = .ok cards
  nonempty : cards ≠ []
  valid : ∀ isPrimary, validateHeader cards isPrimary = validateHeader h.cards isPrimary
  dataSize : calculateDataSize cards = calculateDataSize h.cards

/-- The parser walks the new file as it walked the old one. -/
theorem Walks.rewrite {bytes' : Bytes} {h : Hdu} {cards : List Card} {delta : Nat}
    (hnew : Rewritten lenient bytes bytes' h cards delta) :
    ∀ {hdus : List Hdu} {idx : Nat} {isPrimary : Bool} {offset : Nat}, hdus[idx]? = some h →
      (∀ g ∈ hdus, g.dataEnd + delta < u64Size) → Walks lenient bytes isPrimary offset hdus →
      Walks lenient bytes' isPrimary offset
        (editHdus idx cards (shiftHdus h.offsets.dataOffset delta hdus)) := by
  intro hdus
  induction hdus with
  | nil =>
    intro idx isPrimary offset hidx
    simp at hidx
  | cons g rest ih =>
    intro idx isPrimary offset hidx hroom hwalk
    have hwalked := (hwalk.mem g (by simp)).2
    obtain ⟨hat, hoff, hover, hnext⟩ := hwalk
    have hfits := hwalked.fits
    cases idx with
    | zero =>
      obtain rfl : g = h := by simpa using hidx
      have hstart : g.offsets.headerOffset = offset := by rw [hoff]
      have hcount : g.offsets.headerBlockCount = headerBlocks g.cards.length := by rw [hoff]
      have hgrow := hnew.growth
      have hoffsets : (g.offsets.shift g.offsets.dataOffset delta).reserve cards.length =
          ⟨offset, headerBlocks cards.length,
            offset + headerBlocks cards.length * blockSize⟩ := by
        rw [HduOffsets.shift, if_neg (by omega), HduOffsets.reserve, hoff]
        simp only [HduOffsets.mk.injEq, true_and]
        rw [hcount] at hgrow
        unfold blockSize at hgrow ⊢
        omega
      have hend : (⟨cards, (g.offsets.shift g.offsets.dataOffset delta).reserve cards.length,
          g.kind⟩ : Hdu).dataEnd = g.dataEnd + delta := by
        rw [Hdu.dataEnd, Hdu.dataEnd, Hdu.dataSize, Hdu.dataSize]
        dsimp only
        rw [hoffsets, hnew.dataSize, hoff]
        dsimp only
        rw [hcount] at hgrow
        omega
      have hle := hroom g (by simp)
      refine ⟨⟨?_, hnew.nonempty, ?_⟩, hoffsets, ?_, ?_⟩
      · rw [← hstart]
        exact hnew.read
      · rw [hnew.valid]
        exact hat.2.2
      · -- the header is longer, the data section as long as before
        obtain ⟨hb, hlt⟩ := (hduExtent_overflow _ _).1 hover
        have hsize : (calculateDataSize g.cards).overflow = false := by
          refine (calculateDataSize_overflow _).2 ⟨hb, ?_⟩
          unfold declaredEnd at hlt
          omega
        have hsize' : (calculateDataSize cards).overflow = false := by rw [hnew.dataSize, hsize]
        refine (hduExtent_overflow _ _).2 ⟨((calculateDataSize_overflow _).1 hsize').1, ?_⟩
        rw [← hend, Hdu.dataEnd, Hdu.dataSize] at hle
        dsimp only at hle
        rw [hoffsets, calculateDataSize_val hsize'] at hle
        exact hle
      · rw [hend, hnew.length]
        rcases hnext with ⟨hlt, hwalk⟩ | ⟨hle, rfl⟩
        · exact Or.inl ⟨by omega, hwalk.shift hnew.back hnew.length (Nat.le_add_right _ _)
            fun x hx => hroom x (List.mem_cons_of_mem _ hx)⟩
        · exact Or.inr ⟨by omega, rfl⟩
    | succ idx =>
      have hidx' : rest[idx]? = some h := by simpa using hidx
      rcases hnext with ⟨hlt, hwalk⟩ | ⟨-, rfl⟩
      · obtain ⟨hle, hh⟩ := hwalk.mem h (List.mem_of_getElem? hidx')
        have hfitsh := hh.fits
        have hgend : g.offsets.dataOffset ≤ g.dataEnd := Nat.le_add_right _ _
        have hkeep : (⟨g.cards, g.offsets.shift h.offsets.dataOffset delta, g.kind⟩ : Hdu) = g := by
          rw [HduOffsets.shift, if_neg (by omega)]
        have hlist : editHdus (idx + 1) cards (shiftHdus h.offsets.dataOffset delta (g :: rest)) =
            g :: editHdus idx cards (shiftHdus h.offsets.dataOffset delta rest) := by
          rw [editHdus, shiftHdus, List.map_cons, hkeep, List.modify_succ_cons]
          rfl
        have hslice : slice bytes' offset (headerBlocks g.cards.length * 2880) =
            slice bytes offset (headerBlocks g.cards.length * 2880) := by
          have hreach : offset + headerBlocks g.cards.length * 2880 ≤ h.offsets.headerOffset := by
            rw [hoff] at hgend
            dsimp only [blockSize] at hgend
            omega
          have htake : ∀ f : Bytes, slice f offset (headerBlocks g.cards.length * 2880) =
              slice (f.take h.offsets.headerOffset) offset
                (headerBlocks g.cards.length * 2880) := by
            intro f
            rw [slice, slice, List.drop_take, List.take_take, Nat.min_eq_left (by omega)]
          rw [htake, hnew.front, ← htake]
        rw [hlist]
        refine ⟨hat.congr hslice, hoff, hover, Or.inl ⟨?_, ?_⟩⟩
        · rw [hnew.length]
          omega
        · exact ih hidx' (fun x hx => hroom x (List.mem_cons_of_mem _ hx)) hwalk
      · simp at hidx'

end Walks

/-! ## Rewriting a header -/

section

variable {s : Fits} {idx : Nat} {h : Hdu} {cards : List Card}

/-- The blocks a header grows by, in bytes. -/
def headerGrowth (h : Hdu) (cards : List Card) : Nat :=
  (headerBlocks cards.length - h.offsets.headerBlockCount) * blockSize

/-- A header that needs all the blocks that are reserved for it: the tail moves on
by the blocks that are missing, and the header is written. -/
theorem rewriteHeaderToDisk_eq (hdu : s.hdus[idx]? = some h)
    (hle : h.offsets.dataOffset ≤ s.bytes.length)
    (hblocks : h.offsets.headerBlockCount ≤ headerBlocks cards.length) :
    rewriteHeaderToDisk idx cards s =
      .ok () ⟨writeAll (openGap s.bytes h.offsets.dataOffset (headerGrowth h cards))
          h.offsets.headerOffset (serializeHeaderToDiskBytes cards),
        (shiftHdus h.offsets.dataOffset (headerGrowth h cards) s.hdus).modify idx fun g =>
          { g with offsets := g.offsets.reserve cards.length }⟩ := by
  unfold rewriteHeaderToDisk
  rw [FileOp.get_bind, hdu]
  dsimp only
  by_cases hgrow : h.offsets.headerBlockCount * cardsPerBlock < cards.length
  · rw [if_pos hgrow]
    exact FileOp.bind_ok (shiftFileTail_eq hle)
  · rw [if_neg hgrow]
    have hsame : headerBlocks cards.length = h.offsets.headerBlockCount := by
      rw [headerBlocks_eq] at hblocks ⊢
      unfold cardsPerBlock blockSize cardSize at hgrow
      omega
    have hzero : headerGrowth h cards = 0 := by
      rw [headerGrowth, hsame, Nat.sub_self, Nat.zero_mul]
    have hshift : shiftHdus h.offsets.dataOffset 0 s.hdus = s.hdus := by
      refine (List.map_congr_left fun g _ => ?_).trans (List.map_id _)
      simp [HduOffsets.shift]
    have hmodify : (s.hdus.modify idx fun g =>
        { g with offsets := g.offsets.reserve cards.length }) = s.hdus := by
      apply List.ext_getElem?
      intro j
      rw [List.getElem?_modify]
      by_cases hj : idx = j
      · subst hj
        simp [hdu, HduOffsets.reserve, hsame]
      · cases s.hdus[j]? <;> simp [hj]
    rw [hzero, openGap_zero hle, hshift, hmodify, ← hsame]
    rfl

/-- What the rewrite of a header does to the bytes of a file that is walked. -/
theorem rewritten_of_walked {lenient : Bool} (hw : Walked lenient s.bytes h)
    (hclean : CleanHeader cards)
    (hblocks : h.offsets.headerBlockCount ≤ headerBlocks cards.length)
    (hvalid : ∀ isPrimary, validateHeader cards isPrimary = validateHeader h.cards isPrimary)
    (hsize : calculateDataSize cards = calculateDataSize h.cards) :
    Rewritten lenient s.bytes
      (writeAll (openGap s.bytes h.offsets.dataOffset (headerGrowth h cards))
        h.offsets.headerOffset (serializeHeaderToDiskBytes cards)) h cards
      (headerGrowth h cards) := by
  obtain ⟨hlt, hle⟩ := hw.fits
  have hdata := hw.dataOffset
  have hgap : (openGap s.bytes h.offsets.dataOffset (headerGrowth h cards)).length =
      s.bytes.length + headerGrowth h cards := openGap_length hle
  have hlen := serialize_length cards
  have hgrowth : headerBlocks cards.length * blockSize =
      h.offsets.headerBlockCount * blockSize + headerGrowth h cards := by
    rw [headerGrowth, Nat.sub_mul]
    unfold blockSize at *
    omega
  have hreach : h.offsets.headerOffset + (serializeHeaderToDiskBytes cards).length =
      h.offsets.dataOffset + headerGrowth h cards := by
    unfold blockSize at hgrowth hdata
    omega
  have hstart : h.offsets.headerOffset ≤
      (openGap s.bytes h.offsets.dataOffset (headerGrowth h cards)).length := by omega
  refine ⟨hgrowth, ?_, ?_, ?_, ?_, ?_, hvalid, hsize⟩
  · rw [take_writeAll_of_le hstart (Nat.le_refl _), take_openGap hle (Nat.le_of_lt hlt)]
  · rw [drop_writeAll_of_le hstart (Nat.le_of_eq hreach), drop_openGap hle (Nat.le_refl _)]
  · rw [writeAll_length_of_le (by omega), hgap]
  · refine readHeader_serialize hclean ?_
    rw [← hlen]
    exact slice_writeAll_self hstart
  · obtain ⟨body, rfl, -⟩ := hclean.closed
    simp

end

end RustFits
