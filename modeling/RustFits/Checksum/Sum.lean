import Mathlib.Algebra.Group.Action.Defs
import Mathlib.Algebra.Order.BigOperators.Group.List
import RustFits.Layout
import RustFits.Lib.BigEndian
import RustFits.Lib.OnesComplement

/-!
# The checksum accumulator

`compute_checksum_bytes`, the `ChecksumStream` that feeds it piece by piece, and
the stream over the data section of an HDU.

The accumulator adds the upper and the lower halves of the 32-bit words in two
`u32` counters and brings the carries back at the end.  `checksum` is what it is
for: the ones'-complement sum of the words, one end-around carry at a time.

* `computeChecksumBytes_exact` says that one call computes that sum, whatever
  the length, as long as the two counters do not overflow.
* `Represents` relates a stream to the bytes fed to it.  `feed_spec` keeps it
  over one call of `feed`, `feedAll_spec` over any sequence of them.
* `checksumStream_exact_iff` is the exact condition: the two counters hold the
  halves of every piece.  Pieces of at most 65536 words always fit
  (`pieceFits_of_length`); the mebibyte that the data sections are read by is
  four times that.
-/

namespace RustFits.Checksum

open Ascii ByteFile Machine BigEndian OnesComplement

/-- The all-ones word. -/
def allOnes : Nat := u32Size - 1

/-! ## The ones'-complement sum -/

/-- The big-endian 32-bit words of a byte string.  The last one is filled up
with zeros. -/
def words : Bytes → List Nat
  | [] => []
  | [a] => [fromBe [a, 0, 0, 0]]
  | [a, b] => [fromBe [a, b, 0, 0]]
  | [a, b, c] => [fromBe [a, b, c, 0]]
  | a :: b :: c :: d :: rest => fromBe [a, b, c, d] :: words rest

/-- The ones'-complement sum of the words of a byte string, on top of `seed`. -/
def checksum (seed : Nat) (bytes : Bytes) : Nat := (words bytes).foldl (endAround allOnes) seed

/-! ## The code -/

/-- The two counters after one word: `hi` and `lo`. -/
def addHalves (acc : Nat × Nat) (a b c d : UInt8) : Wrapped (Nat × Nat) := do
  let hi ← addU32 acc.1 (fromBe [a, b])
  let lo ← addU32 acc.2 (fromBe [c, d])
  pure (hi, lo)

/-- The loop over the words, and the remainder filled up with zeros. -/
def accumulate : Nat × Nat → Bytes → Wrapped (Nat × Nat)
  | acc, [] => pure acc
  | acc, [a] => addHalves acc a 0 0 0
  | acc, [a, b] => addHalves acc a b 0 0
  | acc, [a, b, c] => addHalves acc a b c 0
  | acc, a :: b :: c :: d :: rest => do
    let acc ← addHalves acc a b c d
    accumulate acc rest

theorem foldCarries_decreases {hi lo : Nat} (h : ¬ (hi / 65536 = 0 ∧ lo / 65536 = 0)) :
    (addU32 (hi % 65536) (lo / 65536)).val + (addU32 (lo % 65536) (hi / 65536)).val < hi + lo := by
  have hhi : (addU32 (hi % 65536) (lo / 65536)).val ≤ hi % 65536 + lo / 65536 := Nat.mod_le _ _
  have hlo : (addU32 (lo % 65536) (hi / 65536)).val ≤ lo % 65536 + hi / 65536 := Nat.mod_le _ _
  omega

/-- The end-around carries. -/
def foldCarries (hi lo : Nat) : Wrapped (Nat × Nat) :=
  if _h : hi / 65536 = 0 ∧ lo / 65536 = 0 then pure (hi, lo)
  else
    let nextHi := addU32 (hi % 65536) (lo / 65536)
    let nextLo := addU32 (lo % 65536) (hi / 65536)
    nextHi >>= fun _ => nextLo >>= fun _ => foldCarries nextHi.val nextLo.val
termination_by hi + lo
decreasing_by exact foldCarries_decreases _h

/-- `compute_checksum_bytes`. -/
def computeChecksumBytes (seed : Nat) (bytes : Bytes) : Wrapped Nat := do
  let acc ← accumulate (seed / 65536, seed % 65536) bytes
  let (hi, lo) ← foldCarries acc.1 acc.2
  pure (hi * 65536 + lo)

/-- `ChecksumStream`. -/
structure ChecksumStream where
  seed : Nat
  carry : Bytes
  deriving DecidableEq, Repr

namespace ChecksumStream

variable (compute : Nat → Bytes → Wrapped Nat)

def new (seed : Nat) : ChecksumStream := ⟨seed, []⟩

/-- The part of `feed` behind the carry: the full words are summed and the rest
is kept. -/
def feedRest (seed : Nat) (rest : Bytes) : Wrapped ChecksumStream := do
  let nFull := rest.length / 4 * 4
  let seed ← if 0 < nFull then compute seed (rest.take nFull) else pure seed
  pure ⟨seed, rest.drop nFull⟩

/-- `ChecksumStream::feed`, with `compute` for `compute_checksum_bytes`. -/
def feed (stream : ChecksumStream) (bytes : Bytes) : Wrapped ChecksumStream :=
  if bytes = [] then pure stream
  else if stream.carry ≠ [] then
    let need := 4 - stream.carry.length
    if bytes.length < need then pure ⟨stream.seed, stream.carry ++ bytes⟩
    else do
      let seed ← compute stream.seed (stream.carry ++ bytes.take need)
      feedRest compute seed (bytes.drop need)
  else feedRest compute stream.seed bytes

/-- `ChecksumStream::finish`. -/
def finish (stream : ChecksumStream) : Wrapped Nat :=
  if stream.carry ≠ [] then compute stream.seed stream.carry else pure stream.seed

/-- A run of calls of `feed`. -/
def feedAll (stream : ChecksumStream) : List Bytes → Wrapped ChecksumStream
  | [] => pure stream
  | bytes :: feeds => do
    let stream ← stream.feed compute bytes
    stream.feedAll feeds

end ChecksumStream

/-- A stream from `new` over the calls of `feed` to `finish`. -/
def streamChecksum (compute : Nat → Bytes → Wrapped Nat) (seed : Nat) (feeds : List Bytes) :
    Wrapped Nat := do
  let stream ← (ChecksumStream.new seed).feedAll compute feeds
  stream.finish compute

/-! ## One call -/

/-- The sum of the upper halves of the words, what `hi` grows by. -/
def upperSum (bytes : Bytes) : Nat := ((words bytes).map (· / 65536)).sum

/-- The sum of the lower halves of the words, what `lo` grows by. -/
def lowerSum (bytes : Bytes) : Nat := ((words bytes).map (· % 65536)).sum

/-- The two counters hold the halves of a piece on top of those of the seed. -/
structure PieceFits (seed : Nat) (piece : Bytes) : Prop where
  upper : seed / 65536 + upperSum piece < u32Size
  lower : seed % 65536 + lowerSum piece < u32Size

section

variable {seed : Nat} {bytes : Bytes}

theorem word_div (a b c d : UInt8) : fromBe [a, b, c, d] / 65536 = fromBe [a, b] := by
  have hc := c.toNat_lt
  have hd := d.toNat_lt
  simp only [fromBe, List.foldl_cons, List.foldl_nil]
  omega

theorem word_mod (a b c d : UInt8) : fromBe [a, b, c, d] % 65536 = fromBe [c, d] := by
  have hc := c.toNat_lt
  have hd := d.toNat_lt
  simp only [fromBe, List.foldl_cons, List.foldl_nil]
  omega

theorem words_le : ∀ bytes : Bytes, ∀ w ∈ words bytes, w ≤ allOnes := by
  have hword : ∀ a b c d : UInt8, fromBe [a, b, c, d] ≤ allOnes := fun a b c d => by
    have hlt : fromBe [a, b, c, d] < 256 ^ 4 := fromBe_lt (by simp)
    simp only [allOnes, u32Size]
    omega
  intro bytes
  fun_induction words bytes with
  | case1 => simp
  | case2 a => simpa using hword a 0 0 0
  | case3 a b => simpa using hword a b 0 0
  | case4 a b c => simpa using hword a b c 0
  | case5 a b c d rest ih => simpa using ⟨hword a b c d, ih⟩

theorem words_append {a : Bytes} (h : a.length % 4 = 0) (b : Bytes) :
    words (a ++ b) = words a ++ words b := by
  fun_induction words a with
  | case1 => rfl
  | case2 | case3 | case4 => simp at h
  | case5 a₀ a₁ a₂ a₃ rest ih =>
    simp only [List.length_cons] at h
    simp only [List.cons_append, words, ih (by omega)]

theorem words_sum (bytes : Bytes) :
    (words bytes).sum = upperSum bytes * 65536 + lowerSum bytes := by
  unfold upperSum lowerSum
  induction words bytes with
  | nil => rfl
  | cons w ws ih =>
    have hw := Nat.div_add_mod w 65536
    simp only [List.map_cons, List.sum_cons, ih]
    omega

/-- The sum as arithmetic. -/
theorem checksum_eq (hseed : seed ≤ allOnes) (bytes : Bytes) :
    checksum seed bytes = residue allOnes (seed + (words bytes).sum) :=
  foldl_endAround (by decide) (words_le bytes) hseed

theorem checksum_le (hseed : seed ≤ allOnes) (bytes : Bytes) : checksum seed bytes ≤ allOnes := by
  rw [checksum_eq hseed]
  exact residue_le (by decide) _

@[simp] theorem checksum_nil (seed : Nat) : checksum seed [] = seed := rfl

/-- A piece of whole words may be summed first. -/
theorem checksum_append {a : Bytes} (h : a.length % 4 = 0) (seed : Nat) (b : Bytes) :
    checksum seed (a ++ b) = checksum (checksum seed a) b := by
  unfold checksum
  rw [words_append h, List.foldl_append]

theorem upperSum_cons (a b c d : UInt8) (rest : Bytes) :
    upperSum (a :: b :: c :: d :: rest) = fromBe [a, b] + upperSum rest := by
  simp [upperSum, words, word_div]

theorem lowerSum_cons (a b c d : UInt8) (rest : Bytes) :
    lowerSum (a :: b :: c :: d :: rest) = fromBe [c, d] + lowerSum rest := by
  simp [lowerSum, words, word_mod]

theorem addHalves_overflow (acc : Nat × Nat) (a b c d : UInt8) :
    (addHalves acc a b c d).overflow = false ↔
      acc.1 + fromBe [a, b] < u32Size ∧ acc.2 + fromBe [c, d] < u32Size := by
  simp [addHalves, overflow_addU32]

theorem addHalves_val {acc : Nat × Nat} {a b c d : UInt8}
    (h : acc.1 + fromBe [a, b] < u32Size ∧ acc.2 + fromBe [c, d] < u32Size) :
    (addHalves acc a b c d).val = (acc.1 + fromBe [a, b], acc.2 + fromBe [c, d]) := by
  simp [addHalves, val_addU32 h.1, val_addU32 h.2]

/-- The loop over the words overflows exactly when the total does not fit: the
counters only grow. -/
theorem accumulate_overflow {acc : Nat × Nat} (h : acc.1 < u32Size ∧ acc.2 < u32Size)
    (bytes : Bytes) :
    (accumulate acc bytes).overflow = false ↔
      acc.1 + upperSum bytes < u32Size ∧ acc.2 + lowerSum bytes < u32Size := by
  fun_induction accumulate acc bytes with
  | case1 acc => simpa [upperSum, lowerSum, words] using h
  | case2 acc a | case3 acc a b | case4 acc a b c =>
    simp [upperSum, lowerSum, words, word_div, word_mod, addHalves_overflow]
  | case5 acc a b c d rest ih =>
    rw [Wrapped.overflow_bind, Bool.or_eq_false_iff, upperSum_cons, lowerSum_cons,
      addHalves_overflow]
    constructor
    · rintro ⟨hword, hrest⟩
      rw [addHalves_val hword] at hrest
      have hsums := (ih _ hword).1 hrest
      dsimp only at hsums
      omega
    · intro hfit
      have hword : acc.1 + fromBe [a, b] < u32Size ∧ acc.2 + fromBe [c, d] < u32Size := by omega
      rw [addHalves_val hword]
      refine ⟨hword, (ih _ hword).2 ?_⟩
      dsimp only
      omega

/-- What the loop leaves in the counters, also when they have wrapped. -/
theorem accumulate_val {acc : Nat × Nat} (h : acc.1 < u32Size ∧ acc.2 < u32Size) (bytes : Bytes) :
    (accumulate acc bytes).val =
      ((acc.1 + upperSum bytes) % u32Size, (acc.2 + lowerSum bytes) % u32Size) := by
  fun_induction accumulate acc bytes with
  | case1 acc => simp [upperSum, lowerSum, words, Nat.mod_eq_of_lt h.1, Nat.mod_eq_of_lt h.2]
  | case2 acc a | case3 acc a b | case4 acc a b c =>
    simp [upperSum, lowerSum, words, word_div, word_mod, addHalves, addU32]
  | case5 acc a b c d rest ih =>
    have hsize : 0 < u32Size := by decide
    have hword : (addHalves acc a b c d).val =
        ((acc.1 + fromBe [a, b]) % u32Size, (acc.2 + fromBe [c, d]) % u32Size) := by
      simp [addHalves, addU32]
    rw [Wrapped.val_bind, hword, ih _ ⟨Nat.mod_lt _ hsize, Nat.mod_lt _ hsize⟩, upperSum_cons,
      lowerSum_cons]
    dsimp only
    rw [Nat.mod_add_mod, Nat.mod_add_mod, Nat.add_assoc, Nat.add_assoc]

/-- One round takes the carry of `hi` out as a multiple of all ones. -/
theorem carry_round (hi lo : Nat) :
    hi * 65536 + lo = (hi % 65536 + lo / 65536) * 65536 + (lo % 65536 + hi / 65536) +
      allOnes * (hi / 65536) := by
  have hones : allOnes = 4294967295 := rfl
  rw [hones]
  omega

/-- Bringing the carries back never overflows, and keeps the sum as a residue. -/
theorem foldCarries_spec (hi lo : Nat) (h : hi < u32Size ∧ lo < u32Size) :
    (foldCarries hi lo).overflow = false ∧
      (foldCarries hi lo).val.1 * 65536 + (foldCarries hi lo).val.2 =
        residue allOnes (hi * 65536 + lo) := by
  fun_induction foldCarries hi lo with
  | case1 hi lo hdone =>
    have hle : hi * 65536 + lo ≤ allOnes := by
      simp only [allOnes, u32Size]
      omega
    exact ⟨rfl, (residue_of_le hle).symm⟩
  | case2 hi lo hmore nextHi nextLo ih =>
    simp only [u32Size] at h
    have hfitHi : hi % 65536 + lo / 65536 < u32Size := by simp only [u32Size]; omega
    have hfitLo : lo % 65536 + hi / 65536 < u32Size := by simp only [u32Size]; omega
    have hvalHi : nextHi.val = hi % 65536 + lo / 65536 := val_addU32 hfitHi
    have hvalLo : nextLo.val = lo % 65536 + hi / 65536 := val_addU32 hfitLo
    rw [hvalHi, hvalLo] at ih
    rw [Wrapped.overflow_bind, Wrapped.overflow_bind, Wrapped.val_bind, Wrapped.val_bind, hvalHi,
      hvalLo, (overflow_addU32 _ _).2 hfitHi, (overflow_addU32 _ _).2 hfitLo]
    obtain ⟨hno, hval⟩ := ih ⟨hfitHi, hfitLo⟩
    refine ⟨by simp [hno], hval.trans ?_⟩
    rw [carry_round hi lo, residue_add_mul (by omega)]

theorem foldCarries_overflow {hi lo : Nat} (h : hi < u32Size ∧ lo < u32Size) :
    (foldCarries hi lo).overflow = false := (foldCarries_spec hi lo h).1

theorem halves_lt (hseed : seed < u32Size) : seed / 65536 < u32Size ∧ seed % 65536 < u32Size := by
  simp only [u32Size] at hseed ⊢
  omega

/-- What one call returns: the residue of the two counters, each of which may
have wrapped. -/
theorem computeChecksumBytes_val (hseed : seed < u32Size) (bytes : Bytes) :
    (computeChecksumBytes seed bytes).val =
      residue allOnes ((seed / 65536 + upperSum bytes) % u32Size * 65536 +
        (seed % 65536 + lowerSum bytes) % u32Size) := by
  have hsize : 0 < u32Size := by decide
  rw [computeChecksumBytes, Wrapped.val_bind, accumulate_val (halves_lt hseed), Wrapped.val_bind]
  exact (foldCarries_spec _ _ ⟨Nat.mod_lt _ hsize, Nat.mod_lt _ hsize⟩).2

theorem computeChecksumBytes_overflow (hseed : seed < u32Size) (bytes : Bytes) :
    (computeChecksumBytes seed bytes).overflow = false ↔ PieceFits seed bytes := by
  have hsize : 0 < u32Size := by decide
  rw [computeChecksumBytes, Wrapped.overflow_bind, Bool.or_eq_false_iff,
    accumulate_overflow (halves_lt hseed), accumulate_val (halves_lt hseed), Wrapped.overflow_bind,
    foldCarries_overflow ⟨Nat.mod_lt _ hsize, Nat.mod_lt _ hsize⟩]
  exact ⟨fun h => ⟨h.1.1, h.1.2⟩, fun h => ⟨⟨h.1, h.2⟩, by simp⟩⟩

/-- One call computes the ones'-complement sum of its bytes, of any number and
with any remainder, unless a counter overflows. -/
theorem computeChecksumBytes_exact (hseed : seed < u32Size) (hfit : PieceFits seed bytes) :
    (computeChecksumBytes seed bytes).val = checksum seed bytes := by
  have hdiv := Nat.div_add_mod seed 65536
  rw [computeChecksumBytes_val hseed, Nat.mod_eq_of_lt hfit.upper, Nat.mod_eq_of_lt hfit.lower,
    checksum_eq (by simp only [allOnes]; omega), words_sum]
  congr 1
  omega

theorem words_length_le (bytes : Bytes) : (words bytes).length * 4 ≤ bytes.length + 3 := by
  fun_induction words bytes with
  | case1 | case2 | case3 | case4 => simp
  | case5 a b c d rest ih =>
    simp only [List.length_cons]
    omega

/-- The halves of at most 65536 words always fit: the counters start at most at
65535 and grow by that much at most with every word. -/
theorem pieceFits_of_length (hseed : seed < u32Size) (h : bytes.length ≤ 262144) :
    PieceFits seed bytes := by
  have hlen := words_length_le bytes
  have hdiv : ∀ x ∈ (words bytes).map (· / 65536), x ≤ 65535 := by
    intro x hx
    obtain ⟨w, hw, rfl⟩ := List.mem_map.1 hx
    have hle := words_le bytes w hw
    simp only [allOnes, u32Size] at hle
    omega
  have hmod : ∀ x ∈ (words bytes).map (· % 65536), x ≤ 65535 := by
    intro x hx
    obtain ⟨w, -, rfl⟩ := List.mem_map.1 hx
    omega
  have hupper := List.sum_le_card_nsmul _ _ hdiv
  have hlower := List.sum_le_card_nsmul _ _ hmod
  simp only [List.length_map, smul_eq_mul] at hupper hlower
  simp only [u32Size] at hseed
  constructor
  · simp only [u32Size, upperSum]
    omega
  · simp only [u32Size, lowerSum]
    omega

end

/-! ## The stream -/

/-- The whole words at the front of a byte string, and what is left. -/
def aligned (bytes : Bytes) : Bytes := bytes.take (bytes.length / 4 * 4)

def leftover (bytes : Bytes) : Bytes := bytes.drop (bytes.length / 4 * 4)

/-- The bytes that complete the last word of `before`. -/
def missing (before : Bytes) : Nat := (4 - before.length % 4) % 4

/-- A stream has been fed `before`: the whole words are summed and the rest is
in the carry. -/
structure Represents (seed : Nat) (before : Bytes) (stream : ChecksumStream) : Prop where
  seed : stream.seed = checksum seed (aligned before)
  carry : stream.carry = leftover before

/-- An accumulator that does not overflow and is exact on the pieces that fit. -/
structure ExactOn (compute : Nat → Bytes → Wrapped Nat) (fits : Nat → Bytes → Prop) : Prop where
  overflow : ∀ seed < u32Size, ∀ bytes, (compute seed bytes).overflow = false ↔ fits seed bytes
  exact : ∀ seed < u32Size, ∀ bytes, fits seed bytes →
    (compute seed bytes).val = checksum seed bytes
  short : ∀ seed < u32Size, ∀ bytes : Bytes, bytes.length ≤ 4 → fits seed bytes

/-- The part of a feed that one call sums fits: the whole words behind the bytes
that complete the word before it. -/
def FeedFits (fits : Nat → Bytes → Prop) (seed : Nat) (before bytes : Bytes) : Prop :=
  fits (checksum seed (before ++ bytes.take (missing before)))
    (aligned (bytes.drop (missing before)))

/-- Every feed of a sequence fits on top of what came before. -/
def FeedsFit (fits : Nat → Bytes → Prop) (seed : Nat) : Bytes → List Bytes → Prop
  | _, [] => True
  | before, bytes :: feeds =>
    FeedFits fits seed before bytes ∧ FeedsFit fits seed (before ++ bytes) feeds

/-- The accumulator of the code. -/
theorem exactOn_computeChecksumBytes : ExactOn computeChecksumBytes PieceFits :=
  ⟨fun _ hseed bytes => computeChecksumBytes_overflow hseed bytes,
    fun _ hseed _ hfit => computeChecksumBytes_exact hseed hfit,
    fun _ hseed _ hlen => pieceFits_of_length hseed (by omega)⟩

/-- The accumulator as it is meant to be. -/
def exactSum (seed : Nat) (bytes : Bytes) : Wrapped Nat := pure (checksum seed bytes)

theorem exactOn_exactSum : ExactOn exactSum fun _ _ => True :=
  ⟨fun _ _ _ => iff_of_true rfl trivial, fun _ _ _ _ => rfl, fun _ _ _ _ => trivial⟩

section

variable {compute : Nat → Bytes → Wrapped Nat} {fits : Nat → Bytes → Prop} {seed : Nat}
  {before bytes : Bytes} {stream : ChecksumStream}

theorem aligned_append_leftover (bytes : Bytes) : aligned bytes ++ leftover bytes = bytes :=
  List.take_append_drop _ _

theorem aligned_length (bytes : Bytes) : (aligned bytes).length % 4 = 0 := by
  rw [aligned, List.length_take]
  omega

theorem leftover_length (bytes : Bytes) : (leftover bytes).length = bytes.length % 4 := by
  rw [leftover, List.length_drop]
  omega

theorem aligned_append {a : Bytes} (h : a.length % 4 = 0) (b : Bytes) :
    aligned (a ++ b) = a ++ aligned b := by
  have hlen : (a ++ b).length / 4 * 4 = a.length + b.length / 4 * 4 := by
    rw [List.length_append]
    omega
  rw [aligned, hlen, List.take_length_add_append, aligned]

theorem leftover_append {a : Bytes} (h : a.length % 4 = 0) (b : Bytes) :
    leftover (a ++ b) = leftover b := by
  have hlen : (a ++ b).length / 4 * 4 = a.length + b.length / 4 * 4 := by
    rw [List.length_append]
    omega
  rw [leftover, hlen, List.drop_length_add_append, leftover]

theorem aligned_of_lt (h : bytes.length < 4) : aligned bytes = [] := by
  rw [aligned, Nat.div_eq_of_lt h, Nat.zero_mul, List.take_zero]

theorem leftover_of_lt (h : bytes.length < 4) : leftover bytes = bytes := by
  rw [leftover, Nat.div_eq_of_lt h, Nat.zero_mul, List.drop_zero]

theorem aligned_of_mod (h : bytes.length % 4 = 0) : aligned bytes = bytes := by
  have hnil := leftover_length bytes
  rw [h, List.length_eq_zero_iff] at hnil
  simpa [hnil] using aligned_append_leftover bytes

/-- Feeding whole words to an empty carry. -/
theorem feedRest_overflow (hc : ExactOn compute fits) (hseed : seed < u32Size) (rest : Bytes) :
    (ChecksumStream.feedRest compute seed rest).overflow = false ↔ fits seed (aligned rest) := by
  rw [ChecksumStream.feedRest]
  split_ifs with h
  · rw [Wrapped.overflow_bind, Bool.or_eq_false_iff, ← aligned, hc.overflow seed hseed]
    exact and_iff_left rfl
  · have hnil : aligned rest = [] := aligned_of_lt (by omega)
    rw [hnil]
    exact iff_of_true rfl (hc.short seed hseed [] (by simp))

theorem feedRest_val (hc : ExactOn compute fits) (hseed : seed < u32Size) {rest : Bytes}
    (h : fits seed (aligned rest)) :
    (ChecksumStream.feedRest compute seed rest).val =
      ⟨checksum seed (aligned rest), leftover rest⟩ := by
  rw [ChecksumStream.feedRest]
  split_ifs with hpos
  · rw [Wrapped.val_bind, ← aligned, hc.exact seed hseed _ h]
    rfl
  · have hnil : aligned rest = [] := aligned_of_lt (by omega)
    rw [hnil]
    rfl

theorem lt_u32Size_of_le {n : Nat} (h : n ≤ allOnes) : n < u32Size := by
  simp only [allOnes, u32Size] at h ⊢
  omega

/-- One call of `feed`.  It overflows only in the words that it brings itself:
the word completed by its first bytes always fits. -/
theorem feed_spec (hc : ExactOn compute fits) (hseed : seed ≤ allOnes)
    (h : Represents seed before stream) (bytes : Bytes) :
    ((stream.feed compute bytes).overflow = false ↔ FeedFits fits seed before bytes) ∧
      (FeedFits fits seed before bytes →
        Represents seed (before ++ bytes) (stream.feed compute bytes).val) := by
  have hsum : ∀ b, checksum seed b < u32Size := fun b => lt_u32Size_of_le (checksum_le hseed b)
  have hcarry : stream.carry.length = before.length % 4 := by rw [h.carry, leftover_length]
  have hbefore : aligned before ++ stream.carry = before := by
    rw [h.carry, aligned_append_leftover]
  unfold ChecksumStream.feed
  by_cases hnil : bytes = []
  · -- nothing to feed
    subst hnil
    have hfits : FeedFits fits seed before [] := hc.short _ (hsum _) _ (by simp [aligned])
    rw [if_pos rfl, List.append_nil]
    exact ⟨iff_of_true rfl hfits, fun _ => h⟩
  rw [if_neg hnil]
  by_cases hempty : stream.carry = []
  · -- the fed bytes end on a word
    have hmod : before.length % 4 = 0 := by simpa [hempty] using hcarry.symm
    have hmissing : missing before = 0 := by simp [missing, hmod]
    have hstream : stream.seed = checksum seed before := by rw [h.seed, aligned_of_mod hmod]
    rw [if_neg (by simp [hempty]), FeedFits, hmissing, List.take_zero, List.drop_zero,
      List.append_nil, hstream]
    refine ⟨feedRest_overflow hc (hsum _) bytes, fun hfits => ?_⟩
    rw [feedRest_val hc (hsum _) hfits]
    exact ⟨by rw [aligned_append hmod, checksum_append hmod], by rw [leftover_append hmod]⟩
  · have hpos : 0 < stream.carry.length := List.length_pos_iff.2 hempty
    have hmissing : missing before = 4 - stream.carry.length := by
      rw [missing, hcarry]
      omega
    rw [if_pos hempty]
    dsimp only
    by_cases hshort : bytes.length < 4 - stream.carry.length
    · -- the word stays incomplete
      have hfits : FeedFits fits seed before bytes := by
        rw [FeedFits, hmissing, List.drop_eq_nil_of_le (by omega)]
        exact hc.short _ (hsum _) _ (by simp [aligned])
      have hlen : (stream.carry ++ bytes).length < 4 := by
        rw [List.length_append]
        omega
      rw [if_pos hshort]
      refine ⟨iff_of_true rfl hfits, fun _ => ?_⟩
      rw [← hbefore, List.append_assoc]
      constructor
      · rw [aligned_append (aligned_length _), aligned_of_lt hlen, List.append_nil]
        exact h.seed
      · rw [leftover_append (aligned_length _), leftover_of_lt hlen]
        rfl
    · -- one word from the carry, then the rest
      have hword : (stream.carry ++ bytes.take (4 - stream.carry.length)).length = 4 := by
        rw [List.length_append, List.length_take]
        omega
      have hstitched : checksum (checksum seed (aligned before))
          (stream.carry ++ bytes.take (4 - stream.carry.length)) =
            checksum seed (before ++ bytes.take (4 - stream.carry.length)) := by
        rw [← checksum_append (aligned_length _), ← List.append_assoc, hbefore]
      have hfit : fits (checksum seed (aligned before))
          (stream.carry ++ bytes.take (4 - stream.carry.length)) :=
        hc.short _ (hsum _) _ (by omega)
      rw [if_neg hshort, Wrapped.overflow_bind, Bool.or_eq_false_iff, Wrapped.val_bind, h.seed,
        hc.overflow _ (hsum _), hc.exact _ (hsum _) _ hfit, hstitched, FeedFits, hmissing]
      refine ⟨(and_iff_right hfit).trans (feedRest_overflow hc (hsum _) _), fun hfits => ?_⟩
      rw [feedRest_val hc (hsum _) hfits]
      have hmod : (before ++ bytes.take (4 - stream.carry.length)).length % 4 = 0 := by
        rw [List.length_append, List.length_take]
        omega
      have hsplit : before ++ bytes = before ++ bytes.take (4 - stream.carry.length) ++
          bytes.drop (4 - stream.carry.length) := by
        rw [List.append_assoc, List.take_append_drop]
      rw [hsplit]
      exact ⟨by rw [aligned_append hmod, checksum_append hmod], by rw [leftover_append hmod]⟩

/-- Any sequence of calls of `feed`. -/
theorem feedAll_spec (hc : ExactOn compute fits) (hseed : seed ≤ allOnes)
    (h : Represents seed before stream) (feeds : List Bytes) :
    ((stream.feedAll compute feeds).overflow = false ↔ FeedsFit fits seed before feeds) ∧
      (FeedsFit fits seed before feeds →
        Represents seed (before ++ feeds.flatten) (stream.feedAll compute feeds).val) := by
  induction feeds generalizing before stream with
  | nil => simpa [ChecksumStream.feedAll, FeedsFit] using h
  | cons bytes feeds ih =>
    obtain ⟨hover, hval⟩ := feed_spec hc hseed h bytes
    rw [ChecksumStream.feedAll, Wrapped.overflow_bind, Bool.or_eq_false_iff, Wrapped.val_bind,
      hover, FeedsFit, List.flatten_cons, ← List.append_assoc]
    exact ⟨and_congr_right fun hfits => (ih (hval hfits)).1,
      fun hfits => (ih (hval hfits.1)).2 hfits.2⟩

/-- The end of the stream sums the last incomplete word. -/
theorem finish_spec (hc : ExactOn compute fits) (hseed : seed ≤ allOnes)
    (h : Represents seed before stream) :
    (stream.finish compute).overflow = false ∧
      (stream.finish compute).val = checksum seed before := by
  have hsum := lt_u32Size_of_le (checksum_le hseed (aligned before))
  have hlen := leftover_length before
  rw [ChecksumStream.finish, h.seed, h.carry]
  by_cases hnil : leftover before = []
  · have hmod : before.length % 4 = 0 := by simpa [hnil] using hlen.symm
    rw [if_neg (by simp [hnil]), aligned_of_mod hmod]
    exact ⟨rfl, rfl⟩
  · have hfit : fits (checksum seed (aligned before)) (leftover before) :=
      hc.short _ hsum _ (by omega)
    rw [if_pos hnil, hc.overflow _ hsum, hc.exact _ hsum _ hfit,
      ← checksum_append (aligned_length _), aligned_append_leftover]
    exact ⟨hfit, rfl⟩

/-- A stream over any sequence of feeds returns the ones'-complement sum of all
the bytes on top of the seed, and no counter overflows on the way, exactly when
the words that each feed brings fit in the two counters. -/
theorem checksumStream_exact_iff (seed : Nat) (hseed : seed < u32Size) (feeds : List Bytes) :
    ((streamChecksum computeChecksumBytes seed feeds).overflow = false ∧
        (streamChecksum computeChecksumBytes seed feeds).val = checksum seed feeds.flatten) ↔
      FeedsFit PieceFits seed [] feeds := by
  have hle : seed ≤ allOnes := by simp only [allOnes]; omega
  have hnew : Represents seed [] (ChecksumStream.new seed) := ⟨rfl, rfl⟩
  obtain ⟨hover, hval⟩ := feedAll_spec exactOn_computeChecksumBytes hle hnew feeds
  rw [streamChecksum, Wrapped.overflow_bind, Bool.or_eq_false_iff, Wrapped.val_bind, hover]
  constructor
  · exact fun h => h.1.1
  · intro hfits
    obtain ⟨hno, hsum⟩ := finish_spec exactOn_computeChecksumBytes hle (hval hfits)
    exact ⟨⟨hfits, hno⟩, hsum⟩

theorem checksumStream_exact_split :
    ((streamChecksum computeChecksumBytes 7 [[1, 2, 3], [], [4, 5], [6]]).overflow = false ∧
        (streamChecksum computeChecksumBytes 7 [[1, 2, 3], [], [4, 5], [6]]).val =
          checksum 7 [[1, 2, 3], [], [4, 5], [6]].flatten) ↔
      FeedsFit PieceFits 7 [] [[1, 2, 3], [], [4, 5], [6]] :=
  checksumStream_exact_iff 7 (by decide) _

/-- Feeds of at most 256 KiB always fit, however they cut the words. -/
theorem feedsFit_of_length (hseed : seed ≤ allOnes) {feeds : List Bytes}
    (h : ∀ bytes ∈ feeds, bytes.length ≤ 262144) : FeedsFit PieceFits seed before feeds := by
  induction feeds generalizing before with
  | nil => trivial
  | cons bytes feeds ih =>
    refine ⟨pieceFits_of_length (lt_u32Size_of_le (checksum_le hseed _)) ?_,
      ih fun b hb => h b (List.mem_cons_of_mem _ hb)⟩
    have hlen := h bytes List.mem_cons_self
    rw [aligned, List.length_take, List.length_drop]
    omega

theorem words_replicate (b : UInt8) (n : Nat) :
    words (List.replicate (4 * n) b) = List.replicate n (fromBe [b, b, b, b]) := by
  induction n with
  | zero => rfl
  | succ n ih =>
    have hsplit : List.replicate (4 * (n + 1)) b = b :: b :: b :: b :: List.replicate (4 * n) b :=
      rfl
    rw [hsplit, words, ih, List.replicate_succ]

/-- A stream that is fed once, with whole words. -/
theorem streamChecksum_single (seed : Nat) (hpos : 0 < bytes.length) (h : bytes.length % 4 = 0) :
    (streamChecksum computeChecksumBytes seed [bytes]).val =
      (computeChecksumBytes seed bytes).val := by
  have hfull : bytes.length / 4 * 4 = bytes.length := by omega
  have hne : bytes ≠ [] := List.length_pos_iff.1 hpos
  rw [streamChecksum, Wrapped.val_bind, ChecksumStream.feedAll, Wrapped.val_bind,
    ChecksumStream.feed, if_neg hne, ChecksumStream.new, if_neg (by simp),
    ChecksumStream.feedRest, hfull, if_pos hpos, Wrapped.val_bind, List.take_length,
    List.drop_length]
  rfl

/-- One mebibyte of ones bits in a single feed.  Its sum is all ones, but both
counters wrap three times and their carries are lost. -/
theorem checksumStream_loses_carries :
    (streamChecksum computeChecksumBytes 0 [List.replicate (4 * 262144) 255]).val = 0xFFFCFFFC ∧
      checksum 0 [List.replicate (4 * 262144) 255].flatten = 0xFFFFFFFF := by
  have hupper : upperSum (List.replicate (4 * 262144) 255) = 262144 * 65535 := by
    rw [upperSum, words_replicate, List.map_replicate, List.sum_replicate, smul_eq_mul]
    rfl
  have hlower : lowerSum (List.replicate (4 * 262144) 255) = 262144 * 65535 := by
    rw [lowerSum, words_replicate, List.map_replicate, List.sum_replicate, smul_eq_mul]
    rfl
  have hlength : (List.replicate (4 * 262144) (255 : UInt8)).length = 4 * 262144 :=
    List.length_replicate
  constructor
  · rw [streamChecksum_single 0 (by omega) (by omega), computeChecksumBytes_val (by decide), hupper,
      hlower]
    decide
  · rw [List.flatten_cons, List.flatten_nil, List.append_nil, checksum_eq (by decide), words_sum,
      hupper, hlower]
    decide

end

end RustFits.Checksum
