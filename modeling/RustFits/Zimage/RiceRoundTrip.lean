import RustFits.Zimage.RiceBits

/-!
# When RICE streams read back

The encoder's choice of a split is of no consequence: `readBlock_reads` holds for any
split.  What can fail is the reader's limit on zeros.  A block with one large
difference among many small ones gets a small split, and the unary part of the large
one grows with the size of the block, beyond what the reader takes.

`Codable` follows the numbers of the bit buffer through the blocks (`Counter`), and
`rice_roundTrip` is an equivalence.  Unary parts up to 1024 always go through
(`codable_of_small`), and one of 1088 never does (`not_codable_of_longUnary`).
-/

namespace RustFits.Zimage.Rice

open Ascii ByteFile Machine BigEndian BitStream

/-! ## What the encoder writes -/

/-- The bits of a difference in a block with the split `fs`. -/
def splitBits (fs d : Nat) : List Bool :=
  List.replicate (d / 2 ^ fs) false ++ true :: bitsOf fs (d % 2 ^ fs)

/-- The bits of a block. -/
def blockBits (p : Params) (bytepix : Nat) (diffs : List Nat) : List Bool :=
  if p.fsmax ≤ splitOf bytepix diffs then
    bitsOf p.fsbits (p.fsmax + 1) ++ diffs.flatMap (bitsOf p.bbits)
  else if splitOf bytepix diffs = 0 ∧ pixelsum diffs = 0 then bitsOf p.fsbits 0
  else
    bitsOf p.fsbits (splitOf bytepix diffs + 1) ++ diffs.flatMap (splitBits (splitOf bytepix diffs))

theorem foldl_holds {f : BitWriter → Nat → BitWriter} {bitsFor : Nat → List Bool}
    (hf : ∀ (w : BitWriter) (bits : List Bool) (d : Nat), w.Holds bits →
      (f w d).Holds (bits ++ bitsFor d)) :
    ∀ (diffs : List Nat) {w : BitWriter} {bits : List Bool}, w.Holds bits →
      (diffs.foldl f w).Holds (bits ++ diffs.flatMap bitsFor) := by
  intro diffs
  induction diffs with
  | nil =>
    intro w bits h
    rw [List.foldl_nil, List.flatMap_nil, List.append_nil]
    exact h
  | cons d diffs ih =>
    intro w bits h
    rw [List.foldl_cons, List.flatMap_cons, ← List.append_assoc]
    exact ih (hf w bits d h)

theorem writeBlock_holds (p : Params) (bytepix : Nat) (diffs : List Nat) {w : BitWriter}
    {bits : List Bool} (h : w.Holds bits) :
    (writeBlock p bytepix diffs w).Holds (bits ++ blockBits p bytepix diffs) := by
  unfold writeBlock blockBits
  dsimp only
  by_cases hraw : p.fsmax ≤ splitOf bytepix diffs
  · rw [if_pos hraw, if_pos hraw, ← List.append_assoc]
    exact foldl_holds (fun w bits d hw => hw.writeBits d p.bbits) diffs (h.writeBits _ _)
  rw [if_neg hraw, if_neg hraw]
  by_cases hflat : splitOf bytepix diffs = 0 ∧ pixelsum diffs = 0
  · rw [if_pos hflat, if_pos hflat]
    exact h.writeBits _ _
  · rw [if_neg hflat, if_neg hflat, ← List.append_assoc]
    refine foldl_holds (fun w bits d hw => ?_) diffs (h.writeBits _ _)
    have hunary := hw.writeUnary (d / 2 ^ splitOf bytepix diffs)
    by_cases hpos : 0 < splitOf bytepix diffs
    · have hlow := hunary.writeBits (d % 2 ^ splitOf bytepix diffs) (splitOf bytepix diffs)
      rw [List.append_assoc, List.append_assoc, List.singleton_append] at hlow
      rw [if_pos hpos]
      exact hlow
    · have hzero : splitOf bytepix diffs = 0 := by omega
      rw [if_neg hpos, splitBits, hzero, bitsOf]
      rw [hzero] at hunary
      exact hunary

/-- The differences of the blocks. -/
def diffBlocks (bytepix blocksize : Nat) : Nat → Int → List Int → List (List Nat)
  | 0, _, _ => []
  | fuel + 1, lastpix, pixels =>
    if pixels = [] then []
    else
      blockDiffs bytepix lastpix (pixels.take blocksize) ::
        diffBlocks bytepix blocksize fuel ((pixels.take blocksize).getLastD lastpix)
          (pixels.drop blocksize)

theorem writeBlocks_holds (p : Params) (bytepix blocksize : Nat) :
    ∀ (fuel : Nat) (lastpix : Int) (pixels : List Int) {w : BitWriter} {bits : List Bool},
      w.Holds bits →
      (writeBlocks p bytepix blocksize fuel lastpix pixels w).Holds
        (bits ++ (diffBlocks bytepix blocksize fuel lastpix pixels).flatMap
          (blockBits p bytepix)) := by
  intro fuel
  induction fuel with
  | zero =>
    intro lastpix pixels w bits h
    rw [writeBlocks, diffBlocks, List.flatMap_nil, List.append_nil]
    exact h
  | succ fuel ih =>
    intro lastpix pixels w bits h
    rw [writeBlocks, diffBlocks]
    by_cases hnil : pixels = []
    · rw [if_pos hnil, if_pos hnil, List.flatMap_nil, List.append_nil]
      exact h
    · rw [if_neg hnil, if_neg hnil, List.flatMap_cons, ← List.append_assoc]
      exact ih _ _ (writeBlock_holds p bytepix _ h)

/-! ## What the decoder reads -/

/-- A read of a value in front of other bits: it succeeds where the numbers of the
buffer go on, and fails where they do not. -/
def Reads {α : Type} (c : Bytes) (next : Option Counter)
    (read : Except PyErr (α × BitBuf)) (value : α) (rest : List Bool) : Prop :=
  (∀ x, next = some x → ∃ s, read = .ok (value, s) ∧ s.Holds c rest ∧ s.counter c = x) ∧
    (next = none → ∃ e, read = .error e)

/-- The numbers of the buffer behind a difference. -/
def Counter.split (fuel fs : Nat) (x : Counter) (d : Nat) : Option Counter :=
  (x.unary fuel (d / 2 ^ fs) 0).map fun y => if fs = 0 then y else y.take fs

/-- The numbers of the buffer behind a block. -/
def Counter.block (p : Params) (bytepix fuel : Nat) (x : Counter) (diffs : List Nat) :
    Option Counter :=
  if p.fsmax ≤ splitOf bytepix diffs then
    diffs.foldlM (fun x _ => some (x.take p.bbits)) (x.take p.fsbits)
  else if splitOf bytepix diffs = 0 ∧ pixelsum diffs = 0 then some (x.take p.fsbits)
  else diffs.foldlM (Counter.split fuel (splitOf bytepix diffs)) (x.take p.fsbits)

theorem readRaw_reads {c : Bytes} {s : BitBuf} {rest : List Bool} {p : Params} {d : Nat}
    (h : s.Holds c (bitsOf p.bbits d ++ rest)) (hp : p.bbits ≤ 56) (hd : d < 2 ^ p.bbits) :
    Reads c (some ((s.counter c).take p.bbits)) (readRaw c p.bbits s) d rest := by
  obtain ⟨s', hread, hrest, hcount⟩ := readField_holds h
    (str "RICE decode: unexpected end of stream (raw)") (by rw [bitsOf_length]; exact hp)
  rw [bitsOf_length, bitsVal_bitsOf, Nat.mod_eq_of_lt hd] at hread
  rw [bitsOf_length] at hcount
  refine ⟨fun x hx => ⟨s', hread, hrest, ?_⟩, fun hnone => ?_⟩
  · rw [hcount]
    exact Option.some.inj hx
  · cases hnone

/-- The two parts of a difference, put together again. -/
theorem split_join {fs d : Nat} (hd : d < 2 ^ 32) :
    d / 2 ^ fs * 2 ^ fs % 2 ^ 32 ||| d % 2 ^ fs = d := by
  have hle : d / 2 ^ fs * 2 ^ fs ≤ d := Nat.div_mul_le_self _ _
  have hor := Nat.two_pow_add_eq_or_of_lt (Nat.mod_lt d (Nat.two_pow_pos fs)) (d / 2 ^ fs)
  rw [Nat.mod_eq_of_lt (Nat.lt_of_le_of_lt hle hd), Nat.mul_comm, ← hor]
  exact Nat.div_add_mod d (2 ^ fs)

theorem readSplit_reads {c : Bytes} {s : BitBuf} {rest : List Bool} {fs d : Nat}
    (h : s.Holds c (splitBits fs d ++ rest)) (hfs : fs ≤ 56) (hd : d < 2 ^ 32) :
    Reads c (Counter.split (c.length + 2) fs (s.counter c) d) (readSplit c fs s) d rest := by
  rw [splitBits, List.append_assoc, List.cons_append] at h
  have hfuel : (s.counter c).left + 1 ≤ c.length + 2 := by
    unfold BitBuf.counter
    dsimp only
    omega
  obtain ⟨hsome, hnone⟩ := readUnary_holds (c.length + 2) 0 h hfuel
  unfold Counter.split readSplit
  cases hunary : (s.counter c).unary (c.length + 2) (d / 2 ^ fs) 0 with
  | none =>
    obtain ⟨e, he⟩ := hnone hunary
    rw [he]
    refine ⟨fun x hx => ?_, fun _ => ⟨e, rfl⟩⟩
    cases hx
  | some y =>
    obtain ⟨s', hread, hrest, hcount⟩ := hsome y hunary
    rw [Nat.zero_add] at hread
    rw [hread, Option.map_some]
    dsimp only
    by_cases hzero : fs = 0
    · rw [if_pos hzero, if_pos hzero, hzero, Nat.pow_zero, Nat.div_one, Nat.mod_eq_of_lt hd]
      rw [hzero, bitsOf, List.nil_append] at hrest
      refine ⟨fun x hx => ⟨s', rfl, hrest, hcount.trans (Option.some.inj hx)⟩, fun hno => ?_⟩
      cases hno
    · obtain ⟨s'', hread', hrest', hcount'⟩ := readField_holds hrest
        (str "RICE decode: unexpected end of stream (rice tail)") (by rw [bitsOf_length]; exact hfs)
      rw [bitsOf_length, bitsVal_bitsOf, Nat.mod_mod] at hread'
      rw [bitsOf_length, hcount] at hcount'
      rw [if_neg hzero, if_neg hzero, hread']
      dsimp only
      rw [split_join hd]
      refine ⟨fun x hx => ⟨s'', rfl, hrest', hcount'.trans (Option.some.inj hx)⟩, fun hno => ?_⟩
      cases hno

/-- The pixels that differences give. -/
def undiff : Int → List Nat → List Int
  | _, [] => []
  | lastpix, d :: diffs =>
    asI32 (lastpix + unzigzag d) :: undiff (asI32 (lastpix + unzigzag d)) diffs

/-- The last pixel that differences give. -/
def lastPixel (lastpix : Int) (diffs : List Nat) : Int := (undiff lastpix diffs).getLastD lastpix

theorem lastPixel_cons (lastpix : Int) (d : Nat) (diffs : List Nat) :
    lastPixel lastpix (d :: diffs) = lastPixel (asI32 (lastpix + unzigzag d)) diffs := by
  unfold lastPixel
  rw [undiff, List.getLastD_cons]

/-- Reading pixel after pixel, from what reading one difference does. -/
theorem readPixels_reads {c : Bytes} {readDiff : BitBuf → Except PyErr (Nat × BitBuf)}
    {step : Counter → Nat → Option Counter} {bitsFor : Nat → List Bool} (fits : Nat → Prop)
    (hread : ∀ (s : BitBuf) (d : Nat) (rest : List Bool), fits d → s.Holds c (bitsFor d ++ rest) →
      Reads c (step (s.counter c) d) (readDiff s) d rest) :
    ∀ (diffs : List Nat) {s : BitBuf} {rest : List Bool} (lastpix : Int), (∀ d ∈ diffs, fits d) →
      s.Holds c (diffs.flatMap bitsFor ++ rest) →
      Reads c (diffs.foldlM step (s.counter c)) (readPixels readDiff diffs.length s lastpix)
        (undiff lastpix diffs, lastPixel lastpix diffs) rest := by
  intro diffs
  induction diffs with
  | nil =>
    intro s rest lastpix _ h
    refine ⟨fun x hx => ⟨s, rfl, h, Option.some.inj hx⟩, fun hno => ?_⟩
    cases hno
  | cons d diffs ih =>
    intro s rest lastpix hfits h
    rw [List.flatMap_cons, List.append_assoc] at h
    obtain ⟨hsome, hnone⟩ := hread s d _ (hfits d List.mem_cons_self) h
    rw [List.foldlM_cons, List.length_cons, readPixels]
    cases hstep : step (s.counter c) d with
    | none =>
      obtain ⟨e, he⟩ := hnone hstep
      rw [he]
      refine ⟨fun x hx => ?_, fun _ => ⟨e, rfl⟩⟩
      cases hx
    | some y =>
      obtain ⟨s', hok, hrest, hcount⟩ := hsome y hstep
      obtain ⟨hsome', hnone'⟩ := ih (asI32 (lastpix + unzigzag d))
        (fun u hu => hfits u (List.mem_cons_of_mem _ hu)) hrest
      rw [hcount] at hsome' hnone'
      rw [hok, undiff, lastPixel_cons]
      refine ⟨fun x hx => ?_, fun hno => ?_⟩
      · obtain ⟨s'', hok', hrest', hcount'⟩ := hsome' x hx
        exact ⟨s'', by dsimp only; rw [hok'], hrest', hcount'⟩
      · obtain ⟨e, he⟩ := hnone' hno
        exact ⟨e, by dsimp only; rw [he]⟩

/-! ### Blocks -/

/-- The constants of a pixel width of at most four bytes. -/
structure Params.Fit (p : Params) (bytepix : Nat) : Prop where
  bbits_eq : p.bbits = 8 * bytepix
  bbits_le : p.bbits ≤ 32
  fsbits_pos : 0 < p.fsbits
  fsbits_le : p.fsbits ≤ 5
  fsmax_lt : p.fsmax + 1 < 2 ^ p.fsbits

theorem unzigzag_zero : unzigzag 0 = 0 := by decide

theorem undiff_replicate_zero {lastpix : Int} (h : asI32 lastpix = lastpix) (n : Nat) :
    undiff lastpix (List.replicate n 0) = List.replicate n lastpix := by
  induction n with
  | zero => rfl
  | succ n ih =>
    rw [List.replicate_succ, List.replicate_succ, undiff, unzigzag_zero, Int.add_zero, h, ih]

/-- A sum of doubles is zero only where every summand is. -/
theorem pixelsum_eq_zero {diffs : List Nat} (h : pixelsum diffs = 0) :
    diffs = List.replicate diffs.length 0 := by
  have hmono : ∀ (l : List Nat) (sum : ℚ), 0 ≤ sum →
      l.foldl (fun (sum : ℚ) (zz : Nat) => Binary64.round (sum + zz)) sum = 0 →
      sum = 0 ∧ l = List.replicate l.length 0 := by
    intro l
    induction l with
    | nil => exact fun sum _ h => ⟨h, rfl⟩
    | cons zz l ih =>
      intro sum hsum hfold
      have hnext : (0 : ℚ) ≤ sum + zz := add_nonneg hsum (Nat.cast_nonneg zz)
      obtain ⟨hround, hrest⟩ := ih _ (Binary64.round_nonneg hnext) hfold
      have hzero : sum + (zz : ℚ) = 0 := by
        by_contra hne
        have := Binary64.round_pos (lt_of_le_of_ne hnext (Ne.symm hne))
        linarith
      have hzz : (zz : ℚ) = 0 := by
        have := Nat.cast_nonneg (α := ℚ) zz
        linarith
      have hzz' : zz = 0 := by exact_mod_cast hzz
      refine ⟨by linarith, ?_⟩
      rw [List.length_cons, List.replicate_succ, ← hrest, hzz']
  exact (hmono diffs 0 le_rfl h).2

theorem lastPixel_replicate_zero {lastpix : Int} (h : asI32 lastpix = lastpix) (n : Nat) :
    lastPixel lastpix (List.replicate n 0) = lastpix := by
  rw [lastPixel, undiff_replicate_zero h]
  cases n with
  | zero => rfl
  | succ n => simp [List.replicate_succ']

/-- One block, with any split. -/
theorem readBlock_reads {c : Bytes} {p : Params} {bytepix : Nat} (hp : p.Fit bytepix) {s : BitBuf}
    {diffs : List Nat} {rest : List Bool} {lastpix : Int} (hlast : asI32 lastpix = lastpix)
    (hfits : ∀ d ∈ diffs, d < 2 ^ p.bbits) (h : s.Holds c (blockBits p bytepix diffs ++ rest)) :
    Reads c (Counter.block p bytepix (c.length + 2) (s.counter c) diffs)
      (readBlock c p diffs.length s lastpix)
      (undiff lastpix diffs, lastPixel lastpix diffs) rest := by
  have hfsbits := hp.fsbits_le
  have hbbits := hp.bbits_le
  -- the stored split is read back, whichever it is
  have hfield : ∀ (v : Nat) (more : List Bool), v < 2 ^ p.fsbits →
      s.Holds c (bitsOf p.fsbits v ++ more) →
      ∃ s', readField c (str "RICE decode: unexpected end of stream reading fs") p.fsbits s =
          .ok (v, s') ∧ s'.Holds c more ∧ s'.counter c = (s.counter c).take p.fsbits := by
    intro v more hv hholds
    obtain ⟨s', hread, hmore, hcount⟩ := readField_holds hholds
      (str "RICE decode: unexpected end of stream reading fs") (by rw [bitsOf_length]; omega)
    rw [bitsOf_length, bitsVal_bitsOf, Nat.mod_eq_of_lt hv] at hread
    rw [bitsOf_length] at hcount
    exact ⟨s', hread, hmore, hcount⟩
  have hmax := hp.fsmax_lt
  unfold blockBits at h
  unfold readBlock Counter.block
  by_cases hraw : p.fsmax ≤ splitOf bytepix diffs
  · rw [if_pos hraw, List.append_assoc] at h
    obtain ⟨s', hread, hmore, hcount⟩ := hfield _ _ hmax h
    rw [if_pos hraw, hread, ← hcount]
    dsimp only
    rw [if_neg (by omega), if_pos (by omega)]
    exact readPixels_reads (fun d => d < 2 ^ p.bbits)
      (fun s d rest hd hs => readRaw_reads hs (by omega) hd) diffs lastpix hfits hmore
  rw [if_neg hraw] at h ⊢
  by_cases hflat : splitOf bytepix diffs = 0 ∧ pixelsum diffs = 0
  · rw [if_pos hflat] at h
    obtain ⟨s', hread, hmore, hcount⟩ := hfield 0 _ (Nat.two_pow_pos _) h
    rw [if_pos hflat, hread]
    dsimp only
    rw [if_pos rfl]
    refine ⟨fun x hx => ⟨s', ?_, hmore, hcount.trans (Option.some.inj hx)⟩, fun hno => ?_⟩
    · have hzero := pixelsum_eq_zero hflat.2
      rw [hzero, List.length_replicate, undiff_replicate_zero hlast, lastPixel_replicate_zero hlast]
    · cases hno
  · rw [if_neg hflat, List.append_assoc] at h
    obtain ⟨s', hread, hmore, hcount⟩ := hfield _ _ (by omega) h
    have hlt : p.fsmax < 32 := by
      have hpow : 2 ^ p.fsbits ≤ 2 ^ 5 := Nat.pow_le_pow_right (by decide) hfsbits
      omega
    rw [if_neg hflat, hread, ← hcount]
    dsimp only
    rw [if_neg (by omega), Nat.add_sub_cancel, if_neg (by omega)]
    refine readPixels_reads (fun d => d < 2 ^ 32)
      (fun s d rest hd hs => readSplit_reads hs (by omega) hd) diffs lastpix (fun d hd => ?_) hmore
    exact Nat.lt_of_lt_of_le (hfits d hd) (Nat.pow_le_pow_right (by decide) hbbits)

/-! ### All blocks -/

theorem asI32_asI32 (v : Int) : asI32 (asI32 v) = asI32 v := asI32_of_range (asI32_range v)

theorem asI32_lastPixel {lastpix : Int} (h : asI32 lastpix = lastpix) (diffs : List Nat) :
    asI32 (lastPixel lastpix diffs) = lastPixel lastpix diffs := by
  induction diffs generalizing lastpix with
  | nil => exact h
  | cons d diffs ih =>
    rw [lastPixel_cons]
    exact ih (asI32_asI32 _)

theorem undiff_append (lastpix : Int) (a b : List Nat) :
    undiff lastpix (a ++ b) = undiff lastpix a ++ undiff (lastPixel lastpix a) b := by
  induction a generalizing lastpix with
  | nil => rfl
  | cons d a ih => rw [List.cons_append, undiff, undiff, ih, lastPixel_cons, List.cons_append]

theorem blockDiffs_length (bytepix : Nat) :
    ∀ (lastpix : Int) (pixels : List Int), (blockDiffs bytepix lastpix pixels).length =
      pixels.length := by
  intro lastpix pixels
  induction pixels generalizing lastpix with
  | nil => rfl
  | cons v pixels ih => rw [blockDiffs, List.length_cons, List.length_cons, ih]

theorem blockDiffs_append (bytepix : Nat) (lastpix : Int) (a b : List Int) :
    blockDiffs bytepix lastpix (a ++ b) =
      blockDiffs bytepix lastpix a ++ blockDiffs bytepix (a.getLastD lastpix) b := by
  induction a generalizing lastpix with
  | nil => rfl
  | cons v a ih =>
    rw [List.cons_append, blockDiffs, blockDiffs, ih, List.getLastD_cons, List.cons_append]

theorem diffBlocks_flatten (bytepix : Nat) {blocksize : Nat} (hpos : 0 < blocksize) :
    ∀ (fuel : Nat) (lastpix : Int) (pixels : List Int), pixels.length ≤ fuel →
      (diffBlocks bytepix blocksize fuel lastpix pixels).flatten =
        blockDiffs bytepix lastpix pixels := by
  intro fuel
  induction fuel with
  | zero =>
    intro lastpix pixels hfuel
    rw [List.eq_nil_of_length_eq_zero (Nat.le_zero.1 hfuel)]
    rfl
  | succ fuel ih =>
    intro lastpix pixels hfuel
    rw [diffBlocks]
    by_cases hnil : pixels = []
    · rw [if_pos hnil, hnil]
      rfl
    · have hlen := List.length_pos_iff.2 hnil
      rw [if_neg hnil, List.flatten_cons, ih _ _ (by rw [List.length_drop]; omega),
        ← blockDiffs_append, List.take_append_drop]

theorem readBlocks_reads {c : Bytes} {p : Params} {bytepix : Nat} (hp : p.Fit bytepix)
    (hdiff : ∀ u v : Int, pixelDiff bytepix u v < 2 ^ p.bbits) {blocksize : Nat}
    (hpos : 0 < blocksize) :
    ∀ (fuel : Nat) (pixels : List Int) (encoded : Int) {s : BitBuf} {rest : List Bool}
      {decoded : Int},
      pixels.length ≤ fuel → asI32 decoded = decoded →
      s.Holds c ((diffBlocks bytepix blocksize fuel encoded pixels).flatMap (blockBits p bytepix) ++
        rest) →
      (∀ x, (diffBlocks bytepix blocksize fuel encoded pixels).foldlM
          (Counter.block p bytepix (c.length + 2)) (s.counter c) = some x →
        readBlocks c p blocksize fuel pixels.length s decoded =
          .ok (undiff decoded (diffBlocks bytepix blocksize fuel encoded pixels).flatten)) ∧
      ((diffBlocks bytepix blocksize fuel encoded pixels).foldlM
          (Counter.block p bytepix (c.length + 2)) (s.counter c) = none →
        ∃ e, readBlocks c p blocksize fuel pixels.length s decoded = .error e) := by
  have hfits : ∀ (px : List Int) (u : Int), ∀ d ∈ blockDiffs bytepix u px, d < 2 ^ p.bbits := by
    intro px
    induction px with
    | nil =>
      intro u d hd
      cases hd
    | cons v px ih =>
      intro u d hd
      rcases List.mem_cons.1 hd with rfl | hd
      · exact hdiff u v
      · exact ih v d hd
  intro fuel
  induction fuel with
  | zero =>
    intro pixels encoded s rest decoded hfuel _ _
    refine ⟨fun x _ => if_pos (Nat.le_zero.1 hfuel), fun hno => ?_⟩
    cases hno
  | succ fuel ih =>
    intro pixels encoded s rest decoded hfuel hdec h
    rw [diffBlocks] at h ⊢
    rw [readBlocks]
    by_cases hnil : pixels = []
    · rw [if_pos hnil, hnil, List.length_nil, if_pos rfl]
      refine ⟨fun x _ => rfl, fun hno => ?_⟩
      cases hno
    · have hlen := List.length_pos_iff.2 hnil
      have hblock : (blockDiffs bytepix encoded (pixels.take blocksize)).length =
          min blocksize pixels.length := by
        rw [blockDiffs_length, List.length_take]
      rw [if_neg hnil, List.flatMap_cons, List.append_assoc] at h
      obtain ⟨hsome, hnone⟩ := readBlock_reads hp hdec (hfits _ _) h
      rw [hblock] at hsome hnone
      rw [if_neg hnil, if_neg (by omega), List.foldlM_cons, List.flatten_cons, undiff_append]
      cases hstep : Counter.block p bytepix (c.length + 2) (s.counter c)
          (blockDiffs bytepix encoded (pixels.take blocksize)) with
      | none =>
        obtain ⟨e, he⟩ := hnone hstep
        rw [he]
        refine ⟨fun x hx => ?_, fun _ => ⟨e, rfl⟩⟩
        cases hx
      | some y =>
        obtain ⟨s', hok, hrest, hcount⟩ := hsome y hstep
        obtain ⟨hsome', hnone'⟩ := ih (pixels.drop blocksize)
          ((pixels.take blocksize).getLastD encoded) (by rw [List.length_drop]; omega)
          (asI32_lastPixel hdec (blockDiffs bytepix encoded (pixels.take blocksize))) hrest
        rw [hcount, List.length_drop] at hsome' hnone'
        rw [hok]
        refine ⟨fun x hx => ?_, fun hno => ?_⟩
        · dsimp only
          rw [hsome' x hx]
        · obtain ⟨e, he⟩ := hnone' hno
          exact ⟨e, by dsimp only; rw [he]⟩

/-! ## Differences and pixels -/

/-- The pixel widths of the codec. -/
def PixelWidth (bytepix : Nat) : Prop := bytepix = 1 ∨ bytepix = 2 ∨ bytepix = 4

theorem castPixel_emod {bytepix : Nat} (h : PixelWidth bytepix) (v : Int) :
    castPixel bytepix v % (256 : Int) ^ bytepix = v % (256 : Int) ^ bytepix := by
  rcases h with rfl | rfl | rfl
  · exact Int.bmod_emod
  · exact Int.bmod_emod
  · exact Int.bmod_emod

theorem castPixel_range {bytepix : Nat} (h : PixelWidth bytepix) (v : Int) :
    -((256 : Int) ^ bytepix) ≤ 2 * castPixel bytepix v ∧
      2 * castPixel bytepix v < (256 : Int) ^ bytepix := by
  rcases h with rfl | rfl | rfl
  · rw [castPixel, if_pos rfl, asI8, Int.bmod_def]
    split_ifs <;> omega
  · rw [castPixel, if_neg (by decide), if_pos rfl, asI16, Int.bmod_def]
    split_ifs <;> omega
  · rw [castPixel, if_neg (by decide), if_neg (by decide), asI32, Int.bmod_def]
    split_ifs <;> omega

/-- The code of a difference, without the casts. -/
theorem zigzag_eq {v : Int} (h : -2147483648 ≤ v ∧ v < 2147483648) :
    zigzag v = if v < 0 then (-2 * v - 1).toNat else (2 * v).toNat := by
  unfold zigzag asU32
  dsimp only
  split_ifs <;> omega

theorem unzigzag_zigzag {v : Int} (h : -2147483648 ≤ v ∧ v < 2147483648) :
    unzigzag (zigzag v) = v := by
  rw [zigzag_eq h]
  unfold unzigzag
  by_cases hneg : v < 0
  · rw [if_pos hneg, if_neg (by omega), asI32, Int.bmod_def]
    split_ifs <;> omega
  · rw [if_neg hneg, if_pos (by omega), asI32_of_range (by omega)]
    omega

theorem pow_le_of_pixelWidth {bytepix : Nat} (h : PixelWidth bytepix) :
    (256 : Int) ^ bytepix ≤ 4294967296 ∧ (256 : Int) ^ bytepix ∣ 4294967296 := by
  rcases h with rfl | rfl | rfl
  · exact ⟨by decide, by decide⟩
  · exact ⟨by decide, by decide⟩
  · exact ⟨by decide, by decide⟩

theorem pixelDiff_lt {bytepix : Nat} (h : PixelWidth bytepix) (u v : Int) :
    pixelDiff bytepix u v < 256 ^ bytepix := by
  obtain ⟨hlow, hhigh⟩ := castPixel_range h (asI32 (v - u))
  obtain ⟨hle, -⟩ := pow_le_of_pixelWidth h
  have hcast : ((256 ^ bytepix : Nat) : Int) = (256 : Int) ^ bytepix := by push_cast; rfl
  rw [pixelDiff, zigzag_eq (by omega)]
  split_ifs <;> omega

/-- A pixel comes back from its difference, up to its width. -/
theorem undiff_blockDiffs {bytepix : Nat} (h : PixelWidth bytepix) :
    ∀ (pixels : List Int) {encoded decoded : Int},
      decoded % (256 : Int) ^ bytepix = encoded % (256 : Int) ^ bytepix →
      (undiff decoded (blockDiffs bytepix encoded pixels)).map (· % (256 : Int) ^ bytepix) =
        pixels.map (· % (256 : Int) ^ bytepix) := by
  intro pixels
  induction pixels with
  | nil => exact fun _ => rfl
  | cons v pixels ih =>
    intro encoded decoded hsame
    obtain ⟨hlow, hhigh⟩ := castPixel_range h (asI32 (v - encoded))
    obtain ⟨hle, hdvd⟩ := pow_le_of_pixelWidth h
    have hdiff : unzigzag (pixelDiff bytepix encoded v) = castPixel bytepix (asI32 (v - encoded)) :=
      unzigzag_zigzag (by omega)
    have hcast32 : ∀ x : Int, asI32 x % (256 : Int) ^ bytepix = x % (256 : Int) ^ bytepix := by
      intro x
      rw [← Int.emod_emod_of_dvd (asI32 x) hdvd, ← Int.emod_emod_of_dvd x hdvd]
      exact congrArg (· % (256 : Int) ^ bytepix) Int.bmod_emod
    have hnext : asI32 (decoded + unzigzag (pixelDiff bytepix encoded v)) % (256 : Int) ^ bytepix =
        v % (256 : Int) ^ bytepix := by
      rw [hcast32, hdiff, Int.add_emod, castPixel_emod h, hcast32, hsame, ← Int.add_emod,
        show encoded + (v - encoded) = v by omega]
    rw [blockDiffs, undiff, List.map_cons, List.map_cons, hnext, ih hnext]

/-! ## The stream -/

/-- The number of bits of a block. -/
def blockLength (p : Params) (bytepix : Nat) (diffs : List Nat) : Nat :=
  p.fsbits +
    if p.fsmax ≤ splitOf bytepix diffs then diffs.length * p.bbits
    else if splitOf bytepix diffs = 0 ∧ pixelsum diffs = 0 then 0
    else (diffs.map fun d => d / 2 ^ splitOf bytepix diffs + 1 + splitOf bytepix diffs).sum

/-- The number of bytes of a stream. -/
def streamLength (p : Params) (bytepix : Nat) (blocks : List (List Nat)) : Nat :=
  (p.bbits + (blocks.map (blockLength p bytepix)).sum + 7) / 8

theorem blockBits_length (p : Params) (bytepix : Nat) (diffs : List Nat) :
    (blockBits p bytepix diffs).length = blockLength p bytepix diffs := by
  unfold blockBits blockLength
  split_ifs with hraw hflat
  · rw [List.length_append, bitsOf_length, List.length_flatMap]
    simp
  · rw [bitsOf_length, Nat.add_zero]
  · rw [List.length_append, bitsOf_length, List.length_flatMap]
    congr 2
    refine List.map_congr_left fun d _ => ?_
    rw [splitBits, List.length_append, List.length_replicate, List.length_cons, bitsOf_length]
    omega

/-- The blocks of a pixel list: the first pixel is stored, then the differences. -/
def pixelBlocks (bytepix blocksize : Nat) (px : List Int) : List (List Nat) :=
  diffBlocks bytepix blocksize px.length ((px.map (castPixel bytepix)).headD 0)
    (px.map (castPixel bytepix))

/-- The reader's numbers go through all blocks: nowhere are more than 1024 zeros used
up on the way to a one. -/
def Codable (bytepix blocksize : Nat) (px : List Int) : Prop :=
  ∀ p, riceParams bytepix = .ok p →
    ((pixelBlocks bytepix blocksize px).foldlM
      (Counter.block p bytepix (streamLength p bytepix (pixelBlocks bytepix blocksize px) + 2))
      (Counter.refill
        ⟨0, streamLength p bytepix (pixelBlocks bytepix blocksize px) - bytepix⟩)).isSome

/-- The encoder makes a stream of the pixels, given as the big-endian bytes of their
width, and the decoder makes the pixels of the stream, in the byte order of the
machine. -/
def RoundTrips (littleEndian : Bool) (bytepix blocksize : Nat) (px : List Int) : Prop :=
  ∃ stream, encodeRice (px.flatMap (toNeBytes false bytepix)) px.length bytepix
    blocksize = .ok stream ∧
    decodeRice littleEndian stream px.length bytepix blocksize (8 * bytepix : Nat) =
      .ok (px.flatMap (toNeBytes littleEndian bytepix))

theorem riceParams_fit {bytepix : Nat} (h : PixelWidth bytepix) :
    ∃ p, riceParams bytepix = .ok p ∧ p.Fit bytepix := by
  rcases h with rfl | rfl | rfl
  · exact ⟨_, rfl, by decide, by decide, by decide, by decide, by decide⟩
  · exact ⟨_, rfl, by decide, by decide, by decide, by decide, by decide⟩
  · exact ⟨_, rfl, by decide, by decide, by decide, by decide, by decide⟩

theorem seedPixel_eq {bytepix : Nat} (h : PixelWidth bytepix) (seed : Nat) :
    seedPixel (8 * bytepix) seed = castPixel bytepix seed := by
  rcases h with rfl | rfl | rfl
  · rfl
  · rfl
  · rfl

theorem castPixel_congr {bytepix : Nat} (h : PixelWidth bytepix) {u v : Int}
    (hmod : u % (256 : Int) ^ bytepix = v % (256 : Int) ^ bytepix) :
    castPixel bytepix u = castPixel bytepix v := by
  rcases h with rfl | rfl | rfl
  · exact (Int.emod_bmod u 256).symm.trans
      ((congrArg (Int.bmod · 256) hmod).trans (Int.emod_bmod v 256))
  · exact (Int.emod_bmod u 65536).symm.trans
      ((congrArg (Int.bmod · 65536) hmod).trans (Int.emod_bmod v 65536))
  · exact (Int.emod_bmod u 4294967296).symm.trans
      ((congrArg (Int.bmod · 4294967296) hmod).trans (Int.emod_bmod v 4294967296))

/-- A pixel from its big-endian bytes. -/
theorem readPixel_eq {bytepix : Nat} (h : PixelWidth bytepix) {px : List Int} {i : Nat} {v : Int}
    (hget : px[i]? = some v) :
    readPixel (px.flatMap (toNeBytes false bytepix)) bytepix i = castPixel bytepix v := by
  have hslice : slice (px.flatMap (toNeBytes false bytepix)) (i * bytepix) bytepix =
      toNeBytes false bytepix v := slice_flatMap (fun _ _ => toNeBytes_length false bytepix _) hget
  have hval : (fromBe (toNeBytes false bytepix v) : Int) = v % (256 : Int) ^ bytepix := by
    have hpos : (0 : Int) < (256 : Int) ^ bytepix := Int.pow_pos (by decide)
    have hrange := Int.emod_lt_of_pos v hpos
    have hnonneg := Int.emod_nonneg v (Int.ne_of_gt hpos)
    have hcast : ((256 ^ bytepix : Nat) : Int) = (256 : Int) ^ bytepix := by push_cast; rfl
    rw [toNeBytes, if_neg (by decide), fromBe_beBytes, Nat.mod_eq_of_lt (by omega)]
    omega
  rw [readPixel, hslice, hval]
  exact castPixel_congr h (Int.emod_emod_of_dvd v (Int.dvd_refl _))

theorem readPixel_range {bytepix : Nat} (h : PixelWidth bytepix) (px : List Int) :
    (List.range px.length).map (readPixel (px.flatMap (toNeBytes false bytepix)) bytepix) =
      px.map (castPixel bytepix) := by
  refine List.ext_getElem? fun i => ?_
  rw [List.getElem?_map, List.getElem?_map]
  by_cases hi : i < px.length
  · rw [List.getElem?_range hi, List.getElem?_eq_getElem hi, Option.map_some, Option.map_some,
      readPixel_eq h (List.getElem?_eq_getElem hi)]
  · rw [List.getElem?_eq_none (by simpa using Nat.not_lt.1 hi),
      List.getElem?_eq_none (Nat.not_lt.1 hi)]
    rfl

/-- The stream of the encoder. -/
theorem encodeRice_eq {bytepix blocksize : Nat} (h : PixelWidth bytepix) (hpos : 0 < blocksize)
    {p : Params} (hp : riceParams bytepix = .ok p) {px : List Int} (hne : px ≠ [])
    (hsize : px.length * bytepix < u64Size) :
    ∃ stream pad, encodeRice (px.flatMap (toNeBytes false bytepix)) px.length bytepix blocksize =
        .ok stream ∧ pad < 8 ∧
      ofBytes stream = bitsOf p.bbits (asU32 ((px.map (castPixel bytepix)).headD 0)) ++
        ((pixelBlocks bytepix blocksize px).flatMap (blockBits p bytepix) ++
          List.replicate pad false) := by
  have hlen := List.length_pos_iff.2 hne
  have hne8 : bytepix ≠ 8 := by
    rcases h with rfl | rfl | rfl <;> decide
  have hseed : readPixel (px.flatMap (toNeBytes false bytepix)) bytepix 0 =
      (px.map (castPixel bytepix)).headD 0 := by
    cases px with
    | nil => exact absurd rfl hne
    | cons v rest => exact readPixel_eq h rfl
  have hbytes : (px.flatMap (toNeBytes false bytepix)).length = px.length * bytepix :=
    flatMap_length_of_width fun _ _ => toNeBytes_length false bytepix _
  have hwritten := writeBlocks_holds p bytepix blocksize px.length
    ((px.map (castPixel bytepix)).headD 0) (px.map (castPixel bytepix))
    (BitWriter.holds_nil.writeBits (asU32 ((px.map (castPixel bytepix)).headD 0)) p.bbits)
  obtain ⟨pad, hpad, hbits⟩ := hwritten.finish
  rw [List.nil_append, List.append_assoc] at hbits
  refine ⟨_, pad, ?_, hpad, hbits⟩
  rw [encodeRice, if_neg (by omega), if_neg (by omega), if_neg hne8, hp]
  dsimp only
  rw [if_neg (by omega), if_neg (by rw [hbytes]; simp), readPixel_range h, hseed]

/-- The decoder behind the first pixel of such a stream. -/
theorem decodeRice_eq {bytepix blocksize : Nat} (h : PixelWidth bytepix) (hpos : 0 < blocksize)
    {p : Params} (hp : riceParams bytepix = .ok p) (hfit : p.Fit bytepix) {px : List Int}
    (hne : px ≠ []) {stream : Bytes} {pad : Nat} (hpad : pad < 8)
    (hbits : ofBytes stream = bitsOf p.bbits (asU32 ((px.map (castPixel bytepix)).headD 0)) ++
      ((pixelBlocks bytepix blocksize px).flatMap (blockBits p bytepix) ++
        List.replicate pad false))
    (littleEndian : Bool) :
    ∃ s seed, s.Holds stream ((pixelBlocks bytepix blocksize px).flatMap (blockBits p bytepix) ++
          List.replicate pad false) ∧
      s.counter stream = Counter.refill ⟨0, stream.length - bytepix⟩ ∧
      stream.length = streamLength p bytepix (pixelBlocks bytepix blocksize px) ∧
      asI32 seed = seed ∧
      seed % (256 : Int) ^ bytepix = (px.map (castPixel bytepix)).headD 0 % (256 : Int) ^ bytepix ∧
      decodeRice littleEndian stream px.length bytepix blocksize (8 * bytepix : Nat) =
        (readBlocks stream p blocksize px.length px.length s seed).map fun px =>
          px.flatMap (toNeBytes littleEndian bytepix) := by
  have hbbits := hfit.bbits_eq
  have hlen := List.length_pos_iff.2 hne
  have hne8 : bytepix ≠ 8 := by
    rcases h with rfl | rfl | rfl <;> decide
  -- the number of bytes
  have hsum : ((pixelBlocks bytepix blocksize px).flatMap (blockBits p bytepix)).length =
      ((pixelBlocks bytepix blocksize px).map (blockLength p bytepix)).sum := by
    rw [List.length_flatMap]
    congr 1
    exact List.map_congr_left fun diffs _ => blockBits_length p bytepix diffs
  have htotal := congrArg List.length hbits
  rw [ofBytes_length, List.length_append, List.length_append, bitsOf_length, List.length_replicate,
    hsum] at htotal
  have hlength : stream.length = streamLength p bytepix (pixelBlocks bytepix blocksize px) := by
    unfold streamLength
    omega
  have hmore : 0 < ((pixelBlocks bytepix blocksize px).map (blockLength p bytepix)).sum := by
    obtain ⟨diffs, blocks, hblocks⟩ : ∃ diffs blocks,
        pixelBlocks bytepix blocksize px = diffs :: blocks := by
      obtain ⟨n, hn⟩ : ∃ n, px.length = n + 1 := ⟨px.length - 1, by omega⟩
      rw [pixelBlocks, hn, diffBlocks, if_neg (by simpa using hne)]
      exact ⟨_, _, rfl⟩
    have := hfit.fsbits_pos
    rw [hblocks, List.map_cons, List.sum_cons, blockLength]
    omega
  -- the first pixel
  have hsplit :
      ofBytes stream = ofBytes (stream.take bytepix) ++ ofBytes (stream.drop bytepix) := by
    rw [← ofBytes_append, List.take_append_drop]
  rw [hbits] at hsplit
  obtain ⟨hfirst, hrest⟩ := List.append_inj hsplit (by
    rw [bitsOf_length, ofBytes_length, List.length_take]
    omega)
  have hseed : fromBe (slice stream 0 bytepix) =
      asU32 ((px.map (castPixel bytepix)).headD 0) % 2 ^ p.bbits := by
    rw [← bitsVal_bitsOf, hfirst, bitsVal_ofBytes]
    rfl
  have hstart : BitBuf.Holds stream ⟨0, 0, bytepix⟩
      ((pixelBlocks bytepix blocksize px).flatMap (blockBits p bytepix) ++
        List.replicate pad false) :=
    ⟨[], rfl, Nat.zero_le _, rfl, by dsimp only; omega, hrest⟩
  obtain ⟨hholds, hcount⟩ := refill_holds hstart
  generalize hv : (px.map (castPixel bytepix)).headD 0 = v at hseed
  have hpow : ((2 ^ p.bbits : Nat) : Int) = (256 : Int) ^ bytepix := by
    rw [hbbits, Nat.pow_mul]
    push_cast
    rfl
  obtain ⟨hle, hdvd⟩ := pow_le_of_pixelWidth h
  have hmod : ((asU32 v % 2 ^ p.bbits : Nat) : Int) % (256 : Int) ^ bytepix =
      v % (256 : Int) ^ bytepix := by
    have hu32 : ((asU32 v : Nat) : Int) = v % 4294967296 := by
      unfold asU32
      omega
    rw [Int.natCast_mod, hpow, hu32, Int.emod_emod_of_dvd _ (Int.dvd_refl _),
      Int.emod_emod_of_dvd v hdvd]
  refine ⟨refill stream ⟨0, 0, bytepix⟩, castPixel bytepix (asU32 v % 2 ^ p.bbits : Nat),
    hholds, hcount, hlength, ?_, ?_, ?_⟩
  · have := castPixel_range h (asU32 v % 2 ^ p.bbits : Nat)
    exact asI32_of_range (by omega)
  · rw [castPixel_emod h, hmod]
  · have hzbitpix : ((8 * bytepix : Nat) : Int) = 8 ∨ ((8 * bytepix : Nat) : Int) = 16 ∨
        ((8 * bytepix : Nat) : Int) = 32 ∨ ((8 * bytepix : Nat) : Int) = 64 := by
      rcases h with rfl | rfl | rfl <;> decide
    have hwidth : (((8 * bytepix : Nat) : Int) / 8).toNat = bytepix := by omega
    have hseedBytes : p.bbits / 8 = bytepix := by omega
    rw [decodeRice, if_neg (by omega), if_neg (by omega), hp]
    dsimp only
    rw [if_neg hne8, if_pos hzbitpix, hwidth, decodeRiceInt]
    dsimp only
    rw [hseedBytes, if_neg (by omega), hseed, hbbits, seedPixel_eq h, ← hbbits]
    cases readBlocks stream p blocksize px.length px.length (refill stream ⟨0, 0, bytepix⟩)
        (castPixel bytepix (asU32 v % 2 ^ p.bbits : Nat)) with
    | error e => rfl
    | ok out => rfl

theorem flatMap_toNeBytes_congr (littleEndian : Bool) {bytepix : Nat} {px px' : List Int}
    (h : px.map (· % (256 : Int) ^ bytepix) = px'.map (· % (256 : Int) ^ bytepix)) :
    px.flatMap (toNeBytes littleEndian bytepix) = px'.flatMap (toNeBytes littleEndian bytepix) := by
  have hmod : ∀ l : List Int, l.flatMap (toNeBytes littleEndian bytepix) =
      (l.map (· % (256 : Int) ^ bytepix)).flatMap (toNeBytes littleEndian bytepix) := by
    intro l
    rw [List.flatMap_map]
    refine List.flatMap_congr fun v _ => toNeBytes_congr littleEndian ?_
    exact (Int.emod_emod_of_dvd v (Int.dvd_refl _)).symm
  rw [hmod px, hmod px', h]

theorem rice1Blocksize_pos {b : Int} {blocksize : Nat} (h : rice1Blocksize b = .ok blocksize) :
    0 < blocksize := by
  unfold rice1Blocksize at h
  split_ifs at h with h0 hmax
  have := Except.ok.inj h
  omega

/-- The round trip of at least one pixel, in terms of the blocks. -/
theorem roundTrips_iff {bytepix blocksize : Nat} (h : PixelWidth bytepix) (hpos : 0 < blocksize)
    (littleEndian : Bool) {px : List Int} (hne : px ≠ []) (hsize : px.length * bytepix < u64Size) :
    RoundTrips littleEndian bytepix blocksize px ↔ Codable bytepix blocksize px := by
  obtain ⟨p, hp, hfit⟩ := riceParams_fit h
  obtain ⟨stream, pad, hencode, hpad, hbits⟩ := encodeRice_eq h hpos hp hne hsize
  obtain ⟨s, seed, hholds, hcount, hlength, hseed, hmod, hdecode⟩ :=
    decodeRice_eq h hpos hp hfit hne hpad hbits littleEndian
  have hdiff : ∀ u v : Int, pixelDiff bytepix u v < 2 ^ p.bbits := by
    intro u v
    have hpow : 2 ^ p.bbits = 256 ^ bytepix := by
      rw [hfit.bbits_eq, Nat.pow_mul]
    rw [hpow]
    exact pixelDiff_lt h u v
  have hpixels : (px.map (castPixel bytepix)).length = px.length := List.length_map _
  obtain ⟨hsome, hnone⟩ := readBlocks_reads hfit hdiff hpos px.length (px.map (castPixel bytepix))
    ((px.map (castPixel bytepix)).headD 0) (Nat.le_of_eq hpixels) hseed hholds
  rw [hcount, hlength, hpixels] at hsome hnone
  constructor
  · rintro ⟨stream', hencode', hdecode'⟩ p' hp'
    have hp_eq : p = p' := Except.ok.inj (hp.symm.trans hp')
    rw [← hp_eq]
    by_contra hfail
    obtain ⟨e, he⟩ := hnone (Option.not_isSome_iff_eq_none.1 hfail)
    rw [← Except.ok.inj (hencode.symm.trans hencode'), hdecode, he] at hdecode'
    cases hdecode'
  · intro hc
    obtain ⟨x, hx⟩ := Option.isSome_iff_exists.1 (hc p hp)
    refine ⟨stream, hencode, ?_⟩
    have hback := undiff_blockDiffs h (px.map (castPixel bytepix)) hmod
    have hcast : (px.map (castPixel bytepix)).map (· % (256 : Int) ^ bytepix) =
        px.map (· % (256 : Int) ^ bytepix) := by
      rw [List.map_map]
      exact List.map_congr_left fun v _ => castPixel_emod h v
    rw [hdecode, hsome x hx, diffBlocks_flatten bytepix hpos _ _ _ (Nat.le_of_eq hpixels)]
    exact congrArg Except.ok (flatMap_toNeBytes_congr littleEndian (hback.trans hcast))

/-- Pixels come back exactly where the reader's numbers go through, and their bytes
can be counted. -/
theorem rice_roundTrip {bytepix : Nat} (hw : PixelWidth bytepix) {b : Int} {blocksize : Nat}
    (hb : rice1Blocksize b = .ok blocksize) (littleEndian : Bool) (px : List Int) :
    RoundTrips littleEndian bytepix blocksize px ↔
      px.length * bytepix < u64Size ∧ Codable bytepix blocksize px := by
  have hpos := rice1Blocksize_pos hb
  by_cases hnil : px = []
  · rw [hnil]
    refine ⟨fun _ => ⟨by rw [List.length_nil, Nat.zero_mul]; decide, fun p _ => rfl⟩, fun _ => ?_⟩
    exact ⟨[], rfl, rfl⟩
  by_cases hsize : px.length * bytepix < u64Size
  · rw [roundTrips_iff hw hpos littleEndian hnil hsize]
    exact ⟨fun hc => ⟨hsize, hc⟩, fun hc => hc.2⟩
  · refine ⟨?_, fun hc => absurd hc.1 hsize⟩
    rintro ⟨stream, hencode, -⟩
    obtain ⟨p, hp, -⟩ := riceParams_fit hw
    have hlen := List.length_pos_iff.2 hnil
    have hne8 : bytepix ≠ 8 := by
      rcases hw with rfl | rfl | rfl <;> decide
    rw [encodeRice, if_neg (by omega), if_neg (by omega), if_neg hne8, hp] at hencode
    dsimp only at hencode
    rw [if_pos (by omega)] at hencode
    cases hencode

/-! ### Small differences -/

theorem Counter.take_left_le {x : Counter} {n : Nat} (h : x.nbits ≤ 64) :
    (x.take n).left ≤ x.left := by
  obtain ⟨h1, h2, hsum, -⟩ := refill_spec h
  unfold take
  split_ifs
  · dsimp only
    omega
  · exact Nat.le_refl _

/-- A difference goes through where its unary part is short. -/
theorem Counter.split_eq_some {fuel fs : Nat} {x : Counter} {d : Nat} (h : x.nbits ≤ 64)
    (hfs : fs ≤ 56) (hd : d / 2 ^ fs ≤ 1024) (hfuel : x.left + 1 ≤ fuel)
    (htotal : d / 2 ^ fs + 1 + fs ≤ x.total) :
    ∃ y, Counter.split fuel fs x d = some y ∧ y.nbits ≤ 64 ∧ y.left ≤ x.left ∧
      y.total + (d / 2 ^ fs + 1 + fs) = x.total := by
  obtain ⟨y, hy, hy64, hleft, hyt⟩ := unary_eq_some fuel (x := x) (d / 2 ^ fs) 0 h
    (by omega) hfuel (by omega)
  unfold split
  rw [hy, Option.map_some]
  by_cases hzero : fs = 0
  · rw [if_pos hzero]
    exact ⟨y, rfl, hy64, hleft, by omega⟩
  · obtain ⟨h1, h2⟩ := take_spec hy64 hfs (by omega)
    rw [if_neg hzero]
    exact ⟨_, rfl, h1, (take_left_le hy64).trans hleft, by omega⟩

/-- Differences or blocks one after the other, from what one of them takes. -/
theorem foldlM_eq_some {α : Type} (step : Counter → α → Option Counter) (len : α → Nat)
    (fits : α → Prop) (bound : Nat)
    (hstep : ∀ (x : Counter) (d : α), fits d → x.nbits ≤ 64 → x.left ≤ bound → len d ≤ x.total →
      ∃ y, step x d = some y ∧ y.nbits ≤ 64 ∧ y.left ≤ x.left ∧ y.total + len d = x.total) :
    ∀ (diffs : List α) {x : Counter}, (∀ d ∈ diffs, fits d) → x.nbits ≤ 64 → x.left ≤ bound →
      (diffs.map len).sum ≤ x.total →
      ∃ y, diffs.foldlM step x = some y ∧ y.nbits ≤ 64 ∧ y.left ≤ x.left ∧
        y.total + (diffs.map len).sum = x.total := by
  intro diffs
  induction diffs with
  | nil =>
    intro x _ h _ _
    exact ⟨x, rfl, h, Nat.le_refl _, rfl⟩
  | cons d diffs ih =>
    intro x hfits h hbound htotal
    rw [List.map_cons, List.sum_cons] at htotal
    obtain ⟨y, hy, hy64, hyleft, hyt⟩ := hstep x d (hfits d List.mem_cons_self) h hbound (by omega)
    obtain ⟨z, hz, hz64, hzleft, hzt⟩ := ih (fun u hu => hfits u (List.mem_cons_of_mem _ hu)) hy64
      (by omega) (by omega)
    refine ⟨z, ?_, hz64, by omega, ?_⟩
    · rw [List.foldlM_cons, hy]
      exact hz
    · rw [List.map_cons, List.sum_cons]
      omega

/-- A block with short unary parts goes through. -/
theorem Counter.block_eq_some {p : Params} {bytepix : Nat} (hp : p.Fit bytepix) {fuel : Nat}
    {x : Counter} {diffs : List Nat} (hsmall : ∀ d ∈ diffs, d / 2 ^ splitOf bytepix diffs ≤ 1024)
    (h : x.nbits ≤ 64) (hfuel : x.left + 1 ≤ fuel)
    (htotal : blockLength p bytepix diffs ≤ x.total) :
    ∃ y, Counter.block p bytepix fuel x diffs = some y ∧ y.nbits ≤ 64 ∧ y.left ≤ x.left ∧
      y.total + blockLength p bytepix diffs = x.total := by
  have hfsbits := hp.fsbits_le
  have hbbits := hp.bbits_le
  unfold blockLength at htotal ⊢
  obtain ⟨h1, h2⟩ := take_spec (n := p.fsbits) h (by omega) (by omega)
  have hleft := take_left_le (n := p.fsbits) h
  unfold block
  by_cases hraw : p.fsmax ≤ splitOf bytepix diffs
  · rw [if_pos hraw] at htotal ⊢
    have hsum : (diffs.map fun _ => p.bbits).sum = diffs.length * p.bbits := by simp
    obtain ⟨y, hy, hy64, hyleft, hyt⟩ := foldlM_eq_some
      (fun (x : Counter) (_ : Nat) => some (x.take p.bbits)) (fun _ => p.bbits)
      (fun _ => True) x.left
      (fun x d _ hx _ ht => ⟨_, rfl, (take_spec hx (by omega) ht).1, take_left_le hx,
        (take_spec hx (by omega) ht).2⟩) diffs (x := x.take p.fsbits) (fun _ _ => trivial) h1 hleft
      (by omega)
    rw [if_pos hraw]
    exact ⟨y, hy, hy64, by omega, by omega⟩
  rw [if_neg hraw] at htotal ⊢
  rw [if_neg hraw]
  by_cases hflat : splitOf bytepix diffs = 0 ∧ pixelsum diffs = 0
  · rw [if_pos hflat, if_pos hflat]
    exact ⟨_, rfl, h1, hleft, by omega⟩
  · have hlt : p.fsmax < 32 := by
      have hpow : 2 ^ p.fsbits ≤ 2 ^ 5 := Nat.pow_le_pow_right (by decide) hfsbits
      have := hp.fsmax_lt
      omega
    rw [if_neg hflat] at htotal ⊢
    obtain ⟨y, hy, hy64, hyleft, hyt⟩ := foldlM_eq_some
      (Counter.split fuel (splitOf bytepix diffs))
      (fun d => d / 2 ^ splitOf bytepix diffs + 1 + splitOf bytepix diffs)
      (fun d => d / 2 ^ splitOf bytepix diffs ≤ 1024) x.left
      (fun x' d hd hx hb ht => split_eq_some hx (by omega) hd (by omega) ht) diffs
      (x := x.take p.fsbits) hsmall h1 hleft (by omega)
    rw [if_neg hflat]
    exact ⟨y, hy, hy64, by omega, by omega⟩

/-- Pixels with short unary parts come back, whatever the size of the blocks. -/
theorem codable_of_small {bytepix blocksize : Nat} (h : PixelWidth bytepix) {px : List Int}
    (hsmall : ∀ diffs ∈ pixelBlocks bytepix blocksize px, ∀ d ∈ diffs,
      d / 2 ^ splitOf bytepix diffs ≤ 1024) :
    Codable bytepix blocksize px := by
  intro p hp
  obtain ⟨p', hp', hfit⟩ := riceParams_fit h
  rw [Except.ok.inj (hp'.symm.trans hp)] at hfit
  generalize hn : streamLength p bytepix (pixelBlocks bytepix blocksize px) = n
  have hbbits := hfit.bbits_eq
  obtain ⟨h1, -, hsum, -⟩ := Counter.refill_spec (x := ⟨0, n - bytepix⟩) (by simp)
  dsimp only at hsum
  obtain ⟨y, hy, -⟩ := foldlM_eq_some (Counter.block p bytepix (n + 2))
    (blockLength p bytepix) (fun diffs => ∀ d ∈ diffs, d / 2 ^ splitOf bytepix diffs ≤ 1024) n
    (fun x diffs hd hx hb ht => Counter.block_eq_some hfit hd hx (by omega) ht)
    (pixelBlocks bytepix blocksize px) hsmall h1 (by omega) (by
      unfold streamLength at hn
      unfold Counter.total
      omega)
  rw [hy]
  rfl

/-- Steps of one, of some hundreds and back, in blocks of two with one left over. -/
theorem rice_roundTrip_steps : RoundTrips true 2 2 [0, 1, 500, 0, -3] := by
  have hw : PixelWidth 2 := Or.inr (Or.inl rfl)
  have hsmall : ∀ diffs ∈ pixelBlocks 2 2 [0, 1, 500, 0, -3], ∀ d ∈ diffs, d ≤ 1024 := by decide
  have hshort : ∀ diffs ∈ pixelBlocks 2 2 [0, 1, 500, 0, -3], ∀ d ∈ diffs,
      d / 2 ^ splitOf 2 diffs ≤ 1024 :=
    fun diffs hin d hd => (Nat.div_le_self _ _).trans (hsmall diffs hin d hd)
  exact (rice_roundTrip hw (b := 2) (by decide) true _).2 ⟨by decide, codable_of_small hw hshort⟩

/-! ### A large difference in a large block -/

/-- Below the precision of doubles the sum is exact. -/
theorem pixelsum_eq_sum {diffs : List Nat} (h : diffs.sum < 2 ^ 53) :
    pixelsum diffs = diffs.sum := by
  have hfold : ∀ (l : List Nat) (n : Nat), n + l.sum < 2 ^ 53 →
      l.foldl (fun (sum : ℚ) (zz : Nat) => Binary64.round (sum + zz)) (n : ℚ) =
        ((n + l.sum : Nat) : ℚ) := by
    intro l
    induction l with
    | nil => exact fun n _ => rfl
    | cons zz l ih =>
      intro n hn
      rw [List.sum_cons] at hn
      have hstep : Binary64.round ((n : ℚ) + zz) = ((n + zz : Nat) : ℚ) := by
        rw [← Nat.cast_add]
        exact Binary64.round_natCast (by omega)
      rw [List.foldl_cons, hstep, ih _ (by omega), List.sum_cons, Nat.add_assoc]
  have hzero := hfold diffs 0 (by omega)
  rw [Nat.zero_add, Nat.cast_zero] at hzero
  exact hzero

/-- The numbers of the buffer stay numbers of a buffer. -/
theorem Counter.unary_nbits_le :
    ∀ (fuel : Nat) {x y : Counter} {zeros drained : Nat}, x.nbits ≤ 64 →
      x.unary fuel zeros drained = some y → y.nbits ≤ 64 := by
  intro fuel
  induction fuel with
  | zero =>
    intro x y zeros drained _ hy
    cases hy
  | succ fuel ih =>
    intro x y zeros drained h hy
    rw [unary] at hy
    split_ifs at hy with hin hmany
    · rw [← Option.some.inj hy]
      dsimp only
      omega
    · exact ih (refill_spec (x := ⟨0, x.left⟩) (by simp)).1 hy

theorem Counter.take_nbits_le {x : Counter} {n : Nat} (h : x.nbits ≤ 64) :
    (x.take n).nbits ≤ 64 := by
  obtain ⟨h1, -⟩ := refill_spec h
  unfold take
  split_ifs
  · dsimp only
    omega
  · dsimp only
    omega

theorem Counter.split_nbits_le {fuel fs : Nat} {x y : Counter} {d : Nat} (h : x.nbits ≤ 64)
    (hy : Counter.split fuel fs x d = some y) : y.nbits ≤ 64 := by
  obtain ⟨z, hz, hzy⟩ := Option.map_eq_some_iff.1 hy
  have hz64 := unary_nbits_le fuel h hz
  rw [← hzy]
  split_ifs
  · exact hz64
  · exact take_nbits_le hz64

theorem foldlM_nbits_le {α : Type} {step : Counter → α → Option Counter}
    (hkeep : ∀ {x y : Counter} {a : α}, x.nbits ≤ 64 → step x a = some y → y.nbits ≤ 64) :
    ∀ (as : List α) {x y : Counter}, x.nbits ≤ 64 → as.foldlM step x = some y → y.nbits ≤ 64 := by
  intro as
  induction as with
  | nil =>
    intro x y h hy
    rwa [← Option.some.inj hy]
  | cons a as ih =>
    intro x y h hy
    rw [List.foldlM_cons] at hy
    obtain ⟨z, hz, hzy⟩ := Option.bind_eq_some_iff.1 hy
    exact ih (hkeep h hz) hzy

/-- What stops the reader in any state stops it wherever it stands. -/
theorem foldlM_eq_none {α : Type} (step : Counter → α → Option Counter)
    (hkeep : ∀ {x y : Counter} {a : α}, x.nbits ≤ 64 → step x a = some y → y.nbits ≤ 64)
    {a : α} (hnone : ∀ x : Counter, x.nbits ≤ 64 → step x a = none) :
    ∀ {as : List α} {x : Counter}, a ∈ as → x.nbits ≤ 64 → as.foldlM step x = none := by
  intro as
  induction as with
  | nil =>
    intro x hin _
    cases hin
  | cons u as ih =>
    intro x hin h
    rw [List.foldlM_cons]
    rcases List.mem_cons.1 hin with rfl | hin
    · rw [hnone x h]
      rfl
    · cases hstep : step x u with
      | none => rfl
      | some y => exact ih hin (hkeep h hstep)

theorem Counter.block_nbits_le {p : Params} {bytepix fuel : Nat} {x y : Counter} {diffs : List Nat}
    (h : x.nbits ≤ 64) (hy : Counter.block p bytepix fuel x diffs = some y) : y.nbits ≤ 64 := by
  have htake : (x.take p.fsbits).nbits ≤ 64 := take_nbits_le h
  unfold block at hy
  split_ifs at hy
  · refine foldlM_nbits_le ?_ diffs htake hy
    intro x y _ hx hxy
    rw [← Option.some.inj hxy]
    exact take_nbits_le hx
  · rwa [← Option.some.inj hy]
  · exact foldlM_nbits_le split_nbits_le diffs htake hy

/-- A long unary part stops the reader in any state. -/
theorem Counter.split_eq_none {fuel fs : Nat} {x : Counter} {d : Nat} (h : x.nbits ≤ 64)
    (hd : 1088 ≤ d / 2 ^ fs) : Counter.split fuel fs x d = none := by
  rw [split, unary_eq_none fuel h (Nat.zero_le _) (by omega)]
  rfl

/-- Pixels with a long unary part in a block that is coded with a split do not come
back, whatever stands in front of them. -/
theorem not_codable_of_longUnary {bytepix blocksize : Nat} {p : Params}
    (hp : riceParams bytepix = .ok p) {px : List Int} {diffs : List Nat} {d : Nat}
    (hblock : diffs ∈ pixelBlocks bytepix blocksize px) (hin : d ∈ diffs)
    (hsplit : splitOf bytepix diffs < p.fsmax)
    (hcoded : ¬ (splitOf bytepix diffs = 0 ∧ pixelsum diffs = 0))
    (hd : 1088 ≤ d / 2 ^ splitOf bytepix diffs) : ¬ Codable bytepix blocksize px := by
  intro hcodable
  have hsome := hcodable p hp
  generalize streamLength p bytepix (pixelBlocks bytepix blocksize px) = n at hsome
  obtain ⟨h64, -⟩ := Counter.refill_spec (x := ⟨0, n - bytepix⟩) (by simp)
  have hnone : ∀ x : Counter, x.nbits ≤ 64 →
      Counter.block p bytepix (n + 2) x diffs = none := by
    intro x hx
    rw [Counter.block, if_neg (by omega), if_neg hcoded]
    exact foldlM_eq_none (Counter.split (n + 2) (splitOf bytepix diffs)) Counter.split_nbits_le
      (fun x h => Counter.split_eq_none h hd) hin (Counter.take_nbits_le hx)
  rw [foldlM_eq_none (Counter.block p bytepix (n + 2)) Counter.block_nbits_le hnone hblock h64]
    at hsome
  cases hsome

theorem blockDiffs_replicate (v : Int) (n : Nat) :
    blockDiffs 2 v (List.replicate n v) = List.replicate n 0 := by
  have hdiff : pixelDiff 2 v v = 0 := by
    rw [pixelDiff, Int.sub_self]
    decide
  induction n with
  | zero => rfl
  | succ n ih => rw [List.replicate_succ, blockDiffs, hdiff, ih, List.replicate_succ]

theorem diffBlocks_single {bytepix blocksize : Nat} {pixels : List Int} (hne : pixels ≠ [])
    (hle : pixels.length ≤ blocksize) (fuel : Nat) (lastpix : Int) :
    diffBlocks bytepix blocksize (fuel + 1) lastpix pixels =
      [blockDiffs bytepix lastpix pixels] := by
  rw [diffBlocks, if_neg hne, List.take_of_length_le hle, List.drop_eq_nil_of_le hle]
  cases fuel <;> rfl

/-- A mean of one leaves nothing for the split. -/
theorem splitOf_of_mean {bytepix : Nat} {diffs : List Nat} (h : dpsum diffs = ((1 : Nat) : ℚ)) :
    splitOf bytepix diffs = 0 := by
  have hhalf : min ((1 : Nat) : Int).toNat (256 ^ bytepix - 1) / 2 = 0 := by omega
  rw [splitOf, psum, h, Int.floor_natCast, hhalf]
  rfl

/-- Equal pixels and another one, in one block. -/
theorem pixelBlocks_spike (n : Nat) :
    pixelBlocks 2 (n + 2) (List.replicate (n + 1) 0 ++ [-769]) =
      [List.replicate (n + 1) 0 ++ [1537]] := by
  have hcast : (List.replicate (n + 1) (0 : Int) ++ [-769]).map (castPixel 2) =
      List.replicate (n + 1) 0 ++ [-769] := by
    rw [List.map_append, List.map_replicate, List.map_singleton, show castPixel 2 0 = 0 by decide,
      show castPixel 2 (-769) = -769 by decide]
  have hhead : (List.replicate (n + 1) (0 : Int) ++ [-769]).headD 0 = 0 := rfl
  have hlen : (List.replicate (n + 1) (0 : Int) ++ [-769]).length = n + 1 + 1 := by
    rw [List.length_append, List.length_replicate, List.length_singleton]
  have hlast : (List.replicate (n + 1) (0 : Int)).getLastD 0 = 0 := by
    rw [List.replicate_succ', List.getLastD_concat]
  rw [pixelBlocks, hcast, hhead, hlen, diffBlocks_single (by simp) (by rw [hlen]),
    blockDiffs_append, blockDiffs_replicate, hlast]
  rfl

/-- A difference of 769 in a block of 1024 pixels that are equal otherwise: the mean
of the block is one, its split is zero, and the difference takes 1537 zeros. -/
theorem not_roundTrips_longUnary :
    rice1Blocksize 1024 = .ok 1024 ∧
      ¬ RoundTrips true 2 1024 (List.replicate 1023 0 ++ [-769]) := by
  have hw : PixelWidth 2 := Or.inr (Or.inl rfl)
  have hblocks : pixelBlocks 2 1024 (List.replicate 1023 0 ++ [-769]) =
      [List.replicate 1023 0 ++ [1537]] := pixelBlocks_spike 1022
  have hlen : ∀ v : Int, (List.replicate 1023 0 ++ [v]).length = 1024 := by
    intro v
    rw [List.length_append, List.length_replicate, List.length_singleton]
  have hsum : pixelsum (List.replicate 1023 0 ++ [1537]) = ((1537 : Nat) : ℚ) := by
    have hexact : (List.replicate 1023 0 ++ [1537]).sum = 1537 := by
      rw [List.sum_append, List.sum_replicate, List.sum_singleton, Nat.nsmul_eq_mul, Nat.mul_zero]
    rw [pixelsum_eq_sum (by rw [hexact]; norm_num), hexact]
  have hmean : dpsum (List.replicate 1023 0 ++ [1537]) = ((1 : Nat) : ℚ) := by
    have hlen : (List.replicate 1023 0 ++ [1537]).length = 1024 := by
      rw [List.length_append, List.length_replicate, List.length_singleton]
    have h1 : Binary64.round (((1537 : Nat) : ℚ) - ((1024 / 2 : Nat) : ℚ)) =
        ((1025 : Nat) : ℚ) := by
      rw [show ((1537 : Nat) : ℚ) - ((1024 / 2 : Nat) : ℚ) = ((1025 : Nat) : ℚ) by norm_num]
      exact Binary64.round_natCast (by norm_num)
    have h2 : Binary64.round (((1025 : Nat) : ℚ) - 1) = ((1024 : Nat) : ℚ) := by
      rw [show ((1025 : Nat) : ℚ) - 1 = ((1024 : Nat) : ℚ) by norm_num]
      exact Binary64.round_natCast (by norm_num)
    have h3 : Binary64.round (((1024 : Nat) : ℚ) / ((1024 : Nat) : ℚ)) = ((1 : Nat) : ℚ) := by
      rw [show ((1024 : Nat) : ℚ) / ((1024 : Nat) : ℚ) = ((1 : Nat) : ℚ) by norm_num]
      exact Binary64.round_natCast (by norm_num)
    unfold dpsum
    dsimp only
    rw [hsum, hlen, h1, h2, h3, if_neg (by norm_num)]
  have hsplit : splitOf 2 (List.replicate 1023 0 ++ [1537]) = 0 := splitOf_of_mean hmean
  refine ⟨by decide, fun h => ?_⟩
  have hcodable := (roundTrips_iff hw (by decide) true
    (List.ne_nil_of_length_pos (by rw [hlen]; decide)) (by rw [hlen]; decide)).1 h
  have hdiff : 1537 / 2 ^ splitOf 2 (List.replicate 1023 0 ++ [1537]) = 1537 := by
    rw [hsplit, Nat.pow_zero, Nat.div_one]
  refine not_codable_of_longUnary (p := ⟨16, 4, 14⟩) rfl
    (by rw [hblocks]; exact List.mem_singleton_self _)
    (List.mem_append_right _ (List.mem_singleton_self 1537)) (by rw [hsplit]; decide) ?_
    (by rw [hdiff]; decide) hcodable
  rw [hsum]
  norm_num

end RustFits.Zimage.Rice
