import RustFits.Lib.BigEndian
import RustFits.Zimage.Hcompress.QuadtreeExact
import RustFits.Zimage.Hcompress.Transform

/-!
# The stream of a tile

`zimage/hcompress.rs`: `encode` writes a header with the axes, the scale and the first
coefficient, which is the sum of the pixels, then the bit planes of the four quadrants
of the others, without their signs, and at the end the signs of those that are not zero.
`decode` reads it back.

The first quadrant has planes of its own, the two beside it have one number of planes, and
the last one has its own.
-/

namespace RustFits.Zimage.Hcompress

open Ascii BigEndian BitStream Outcome

/-- `CODE_MAGIC`. -/
def codeMagic : List UInt8 := [0xDD, 0x99]

/-- The numbers of bit planes of the quadrants, by the sides that they lie on. -/
structure PlaneCounts where
  q0 : Nat
  q1 : Nat
  q2 : Nat
  deriving DecidableEq, Repr

/-! ## Encoding -/

def HWriter.qwrite (bytes : List UInt8) (wr : HWriter) : HWriter :=
  { wr with out := wr.out ++ bytes }

/-- `writeint` and `writelonglong` write a number in 4 and in 8 bytes. -/
def HWriter.writeNumber (width : Nat) (v : Int) (wr : HWriter) : HWriter :=
  wr.qwrite (beBytes width (v % (256 : Int) ^ width).toNat)

def HWriter.startOutputingBits (wr : HWriter) : HWriter := { wr with buffer2 := 0, bitsToGo2 := 8 }

/-- The last byte is filled up with zeros. -/
def HWriter.doneOutputingBits (wr : HWriter) : HWriter :=
  if wr.bitsToGo2 < 8 then
    { wr with out := wr.out ++
      [UInt8.ofNat (wr.buffer2 * 2 ^ wr.bitsToGo2.toNat % 2 ^ 32 % 2 ^ 8)] }
  else wr

/-- The sign bits so far: `nsign` full bytes, and room for `bitsToGo` bits in the next one. -/
structure SignBits where
  signbits : List UInt8
  nsign : Nat
  bitsToGo : Nat
  deriving DecidableEq, Repr

/-- A sign bit comes behind the others of its byte. -/
def SignBits.push (negative : Bool) (st : SignBits) : Outcome PyErr SignBits := do
  let byte ← getAt st.signbits st.nsign
  let signbits ← setAt st.signbits st.nsign (UInt8.ofNat (2 * byte.toNat + negative.toNat))
  if st.bitsToGo = 1 then pure ⟨signbits, st.nsign + 1, 8⟩
    else pure ⟨signbits, st.nsign, st.bitsToGo - 1⟩

section

variable (w : Nat) (checks : Bool)

/-- The sign of a value that is not zero. -/
def SignBits.note (v : Int) (st : SignBits) : Outcome PyErr SignBits :=
  if v = 0 then pure st else st.push (decide (v < 0))

/-- A value without its sign. -/
def magnitude (v : Int) : Outcome PyErr Int := if v < 0 then word w checks (-v) else pure v

/-- The loop of `encode` over the coefficients: their signs are put aside. -/
def takeSigns : List Int → SignBits → Outcome PyErr (List Int × SignBits)
  | [], st => pure ([], st)
  | v :: a, st => do
    let st ← st.note v
    let v ← magnitude w checks v
    let rest ← takeSigns a st
    pure (v :: rest.1, rest.2)

/-- The bytes of the signs.  The last one is filled up with zeros. -/
def SignBits.finish (st : SignBits) : Outcome PyErr (List UInt8) :=
  if st.bitsToGo = 8 then pure (st.signbits.take st.nsign)
  else do
    let byte ← getAt st.signbits st.nsign
    let signbits ← setAt st.signbits st.nsign (UInt8.ofNat (byte.toNat * 2 ^ st.bitsToGo))
    pure (signbits.take (st.nsign + 1))

/-- The largest values of the quadrants. -/
structure Largest where
  q0 : Int
  q1 : Int
  q2 : Int
  deriving DecidableEq, Repr

def Largest.note (q : Nat) (v : Int) (vmax : Largest) : Largest :=
  match q with
  | 0 => { vmax with q0 := max vmax.q0 v }
  | 1 => { vmax with q1 := max vmax.q1 v }
  | _ => { vmax with q2 := max vmax.q2 v }

/-- How many sides a cell of row `k` and column `j` lies behind. -/
def sidesBehind (nx2 ny2 k j : Nat) : Nat := (decide (ny2 ≤ j)).toNat + (decide (nx2 ≤ k)).toNat

/-- The loop of `encode` for the largest values, from row `k` and column `j` on. -/
def largest (nx2 ny ny2 : Nat) : List Int → Nat → Nat → Largest → Largest
  | [], _, _, vmax => vmax
  | v :: a, j, k, vmax =>
    let vmax := vmax.note (sidesBehind nx2 ny2 k j) v
    if ny ≤ j + 1 then largest nx2 ny ny2 a 0 (k + 1) vmax else largest nx2 ny ny2 a (j + 1) k vmax

/-- How often a number of `fuel` bits is halved until nothing is left of it. -/
def halvings : Nat → Nat → Nat
  | 0, _ => 0
  | fuel + 1, v => if v = 0 then 0 else halvings fuel (v / 2) + 1

def planeCounts (vmax : Largest) : PlaneCounts :=
  ⟨halvings w vmax.q0.toNat, halvings w vmax.q1.toNat, halvings w vmax.q2.toNat⟩

/-- `qtree_encode(writer, &a[start..], ..)`. -/
def encodeQuadrant (wr : HWriter) (a : List (BitVec w)) (start n nqx nqy nbitplanes : Nat) :
    Outcome PyErr HWriter :=
  if start ≤ a.length then qtreeEncode checks wr (a.drop start) n nqx nqy nbitplanes else .fault

/-- `doencode`. -/
def doencode (wr : HWriter) (a : List (BitVec w)) (nx ny : Nat) (planes : PlaneCounts) :
    Outcome PyErr HWriter := do
  let wr := wr.startOutputingBits
  let wr ← encodeQuadrant w checks wr a 0 ny (half nx) (half ny) planes.q0
  let wr ← encodeQuadrant w checks wr a (half ny) ny (half nx) (ny / 2) planes.q1
  let wr ← encodeQuadrant w checks wr a (ny * half nx) ny (nx / 2) (half ny) planes.q1
  let wr ← encodeQuadrant w checks wr a (ny * half nx + half ny) ny (nx / 2) (ny / 2) planes.q2
  pure (wr.outputNybble 0).doneOutputingBits

/-- `encode` of the `nx * ny` values of `a`. -/
def encode (wr : HWriter) (a : List Int) (nx ny : Nat) (scale : Int) : Outcome PyErr HWriter := do
  let wr := (((wr.qwrite codeMagic).writeNumber 4 nx).writeNumber 4 ny).writeNumber 4 scale
  let sum ← getAt a 0
  let wr := wr.writeNumber 8 sum
  let a ← setAt a 0 0
  let unsigned ← takeSigns w checks a ⟨List.replicate ((nx * ny + 7) / 8) 0, 0, 8⟩
  let signs ← unsigned.2.finish
  let planes := planeCounts w (largest (half nx) ny (half ny) unsigned.1 0 0 ⟨0, 0, 0⟩)
  let wr := wr.qwrite [UInt8.ofNat planes.q0, UInt8.ofNat planes.q1, UInt8.ofNat planes.q2]
  let wr ← doencode w checks wr (unsigned.1.map (BitVec.ofInt w)) nx ny planes
  pure (wr.qwrite signs)

end

/-! ## Decoding -/

def qread (n : Nat) : Reader (List UInt8) := fun st =>
  if st.bytes.length < st.pos + n then
    .error (.value (str "HCOMPRESS: unexpected end of compressed stream"))
  else .ok ((st.bytes.drop st.pos).take n, { st with pos := st.pos + n })

/-- `readint` and `readlonglong` read a number of 4 and of 8 bytes. -/
def readNumber (width : Nat) : Reader Int := do
  let bytes ← qread width
  pure (toSigned (8 * width) (fromBe bytes))

/-- `start_inputing_bits`: the bits that are left in the buffer are dropped. -/
def startInputingBits : Reader Unit := fun st => .ok ((), { st with bitsToGo := 0 })

section

variable (w : Nat) (checks : Bool)

/-- `qtree_decode(state, &mut a[start..], ..)`. -/
def decodeQuadrant (a : List (BitVec w)) (start n nqx nqy nbitplanes : Nat) :
    Reader (List (BitVec w)) :=
  if start ≤ a.length then do
    let part ← qtreeDecode checks (a.drop start) n nqx nqy nbitplanes
    pure (a.take start ++ part)
  else (Outcome.fault : Outcome PyErr (List (BitVec w)))

/-- A value with its sign. -/
def readSign (v : Int) : Reader Int :=
  if v = 0 then pure v
  else do
    let b ← inputBit
    if b ≠ 0 then (word w checks (-v) : Outcome PyErr Int) else pure v

/-- The signs of the values that are not zero. -/
def readSigns : List Int → Reader (List Int)
  | [] => pure []
  | v :: a => do
    let v ← readSign w checks v
    let rest ← readSigns a
    pure (v :: rest)

/-- The part of `dodecode` that reads the four quadrants into an array of zeros, and the end
of the planes. -/
def decodePlanes (nx ny : Nat) (planes : PlaneCounts) : Reader (List (BitVec w)) := do
  let a ← decodeQuadrant w checks (List.replicate (nx * ny) 0) 0 ny (half nx) (half ny) planes.q0
  let a ← decodeQuadrant w checks a (half ny) ny (half nx) (ny / 2) planes.q1
  let a ← decodeQuadrant w checks a (ny * half nx) ny (nx / 2) (half ny) planes.q1
  let a ← decodeQuadrant w checks a (ny * half nx + half ny) ny (nx / 2) (ny / 2) planes.q2
  let eof ← inputNybble
  if eof ≠ 0 then
    (Outcome.error (.value (str "HCOMPRESS dodecode: bad bit plane values (missing EOF nybble)")) :
      Outcome PyErr (List (BitVec w)))
  else pure a

/-- `dodecode`. -/
def dodecode (nx ny : Nat) (planes : PlaneCounts) : Reader (List Int) := do
  startInputingBits
  let a ← decodePlanes w checks nx ny planes
  startInputingBits
  readSigns w checks (a.map BitVec.toInt)

/-- `decode` into an array of `size` values, with the axes and the scale of the stream. -/
def decode (size : Nat) : Reader (List Int × Nat × Nat × Int) := do
  let magic ← qread 2
  if magic ≠ codeMagic then
    (Outcome.error (.value (str "HCOMPRESS: bad magic in tile stream")) : Outcome PyErr _)
  else do
    let nx ← readNumber 4
    let ny ← readNumber 4
    let scale ← readNumber 4
    if nx ≤ 0 ∨ ny ≤ 0 then
      (Outcome.error (.value (str "HCOMPRESS: invalid dims nx=" ++ intDec nx ++ str ", ny=" ++
        intDec ny)) : Outcome PyErr _)
    else do
      let sumall ← readNumber 8
      let planes ← qread 3
      if size ≠ nx.toNat * ny.toNat then
        (Outcome.error (.value (str "HCOMPRESS: tile dims " ++ intDec nx ++ str "x" ++ intDec ny ++
          str " disagree with allocated buffer " ++ natDec size)) : Outcome PyErr _)
      else do
        let a ← dodecode w checks nx.toNat ny.toNat
          ⟨(planes.getD 0 0).toNat, (planes.getD 1 0).toNat, (planes.getD 2 0).toNat⟩
        let a ← (setAt a 0 (sumall.bmod (2 ^ w)) : Outcome PyErr (List Int))
        pure (a, nx.toNat, ny.toNat, scale)

end

/-! ## Signs -/

/-- The signs of the values that are not zero. -/
def signsOf (a : List Int) : List Bool := (a.filter (· ≠ 0)).map fun v => decide (v < 0)

/-- The bits that are put aside. -/
structure SignBits.Holds (bits : List Bool) (st : SignBits) : Prop where
  room : 1 ≤ st.bitsToGo ∧ st.bitsToGo ≤ 8
  eq : ofBytes (st.signbits.take st.nsign) ++ bitsOf (8 - st.bitsToGo)
    (st.signbits.getD st.nsign 0).toNat = bits
  full : st.nsign ≤ st.signbits.length

section

variable {w : Nat} {checks : Bool} {bits : List Bool} {st : SignBits}

theorem signsOf_cons (v : Int) (a : List Int) :
    signsOf (v :: a) = (if v = 0 then [] else [decide (v < 0)]) ++ signsOf a := by
  unfold signsOf
  by_cases h : v = 0
  · rw [if_pos h, List.filter_cons_of_neg (by simpa using h), List.nil_append]
  · rw [if_neg h, List.filter_cons_of_pos (by simpa using h)]
    rfl

theorem signsOf_length_le (a : List Int) : (signsOf a).length ≤ a.length := by
  rw [signsOf, List.length_map]
  exact List.length_filter_le _ _

theorem SignBits.Holds.length (h : st.Holds bits) :
    bits.length = 8 * st.nsign + (8 - st.bitsToGo) := by
  rw [← h.eq, List.length_append, ofBytes_length, bitsOf_length, List.length_take,
    Nat.min_eq_left h.full, Nat.mul_comm]

/-- A bit comes behind the lower bits of a byte. -/
theorem bitsOf_push (n x : Nat) (b : Bool) :
    bitsOf (n + 1) (2 * x + b.toNat) = bitsOf n x ++ [b] := by
  have hdiv : (2 * x + b.toNat) / 2 ^ 1 = x := by
    cases b <;> simp only [Bool.toNat_false, Bool.toNat_true] <;> omega
  have hmod : bitsOf 1 (2 * x + b.toNat) = [b] := by
    rw [← bitsOf_mod]
    have hbit : (2 * x + b.toNat) % 2 ^ 1 = b.toNat := by
      cases b <;> simp only [Bool.toNat_false, Bool.toNat_true] <;> omega
    rw [hbit]
    cases b <;> rfl
  rw [bitsOf_add, hdiv, hmod]

theorem bitsOf_byte {n : Nat} (hn : n ≤ 8) (x : Nat) :
    bitsOf n (UInt8.ofNat x).toNat = bitsOf n x := by
  have hbyte : (UInt8.ofNat x).toNat = x % 2 ^ 8 := by simp
  rw [hbyte, ← bitsOf_mod n (x % 2 ^ 8), Nat.mod_mod_of_dvd _ (Nat.pow_dvd_pow 2 hn), bitsOf_mod]

theorem take_set_succ {l : List UInt8} {i : Nat} (h : i < l.length) (b : UInt8) :
    (l.set i b).take (i + 1) = l.take i ++ [b] := by
  rw [List.take_add_one, List.take_set_of_le (Nat.le_refl _), List.getElem?_set_self h]
  rfl

theorem SignBits.Holds.push (h : st.Holds bits) (hroom : bits.length < 8 * st.signbits.length)
    (negative : Bool) :
    ∃ st', st.push negative = .ok st' ∧ st'.Holds (bits ++ [negative]) ∧
      st'.signbits.length = st.signbits.length := by
  have hlen := h.length
  obtain ⟨⟨hlo, hhi⟩, heq, hfull⟩ := h
  have hin : st.nsign < st.signbits.length := by omega
  have hadd := bitsOf_push (8 - st.bitsToGo) (st.signbits.getD st.nsign 0).toNat negative
  rw [SignBits.push, getAt_of_lt hin 0, ok_bind, setAt_of_lt hin, ok_bind]
  by_cases hone : st.bitsToGo = 1
  · rw [if_pos hone]
    refine ⟨_, rfl, ⟨⟨by show 1 ≤ 8; omega, by show 8 ≤ 8; omega⟩, ?_, ?_⟩, List.length_set⟩
    · show ofBytes (List.take (st.nsign + 1) _) ++ [] = _
      rw [take_set_succ hin, ofBytes_append, List.append_nil, ← heq, List.append_assoc, ← hadd]
      show _ ++ (bitsOf 8 _ ++ []) = _
      rw [List.append_nil, bitsOf_byte (by omega), hone]
    · show st.nsign + 1 ≤ _
      rw [List.length_set]
      omega
  · rw [if_neg hone]
    refine ⟨_, rfl, ⟨⟨by show 1 ≤ st.bitsToGo - 1; omega, by show st.bitsToGo - 1 ≤ 8; omega⟩, ?_,
      ?_⟩, List.length_set⟩
    · show ofBytes (List.take st.nsign (st.signbits.set st.nsign _)) ++
        bitsOf (8 - (st.bitsToGo - 1)) ((st.signbits.set st.nsign _).getD st.nsign 0).toNat = _
      rw [List.take_set_of_le (Nat.le_refl _), ← heq, List.append_assoc, ← hadd,
        show 8 - (st.bitsToGo - 1) = 8 - st.bitsToGo + 1 by
          omega, List.getD_eq_getElem _ _ (by rw [List.length_set]; exact hin),
        List.getElem_set_self, bitsOf_byte (by omega)]
    · show st.nsign ≤ _
      rw [List.length_set]
      exact hfull

/-- The signs of a list of values come behind those that are there. -/
theorem takeSigns_spec (a : List Int) : ∀ (bits : List Bool) (st : SignBits), st.Holds bits →
    bits.length + a.length ≤ 8 * st.signbits.length → (∀ v ∈ a, Fits w (-v)) →
    ∃ st', takeSigns w checks a st = .ok (a.map fun v => (v.natAbs : Int), st') ∧
      st'.Holds (bits ++ signsOf a) ∧
      st'.signbits.length = st.signbits.length := by
  induction a with
  | nil =>
    intro bits st h _ _
    exact ⟨st, rfl, by rw [show signsOf [] = [] from rfl, List.append_nil]; exact h, rfl⟩
  | cons v a ih =>
    intro bits st h hroom hfits
    rw [List.length_cons] at hroom
    have hvalue : magnitude w checks v = .ok (v.natAbs : Int) := by
      unfold magnitude
      split_ifs with hneg
      · rw [word, if_pos (hfits v List.mem_cons_self)]
        exact congrArg Outcome.ok (by omega)
      · exact congrArg Outcome.ok (by omega)
    obtain ⟨st₁, hnote, hst₁, hlen₁⟩ : ∃ st₁, st.note v = .ok st₁ ∧
        st₁.Holds (bits ++ if v = 0 then [] else [decide (v < 0)]) ∧ st₁.signbits.length =
          st.signbits.length := by
      unfold SignBits.note
      by_cases hzero : v = 0
      · rw [if_pos hzero, if_pos hzero, List.append_nil]
        exact ⟨st, rfl, h, rfl⟩
      · rw [if_neg hzero, if_neg hzero]
        exact h.push (by omega) _
    have hlen : (bits ++ if v = 0 then [] else [decide (v < 0)]).length ≤ bits.length + 1 := by
      rw [List.length_append]
      split_ifs <;> simp
    obtain ⟨st₂, hrest, hst₂, hlen₂⟩ :=
      ih _ st₁ hst₁ (by omega) fun u hu => hfits u (List.mem_cons_of_mem _ hu)
    refine ⟨st₂, ?_, ?_, hlen₂.trans hlen₁⟩
    · rw [takeSigns, hnote, ok_bind, hvalue, ok_bind, hrest]
      rfl
    · rw [signsOf_cons, ← List.append_assoc]
      exact hst₂

/-- The last byte is filled up with zeros. -/
theorem SignBits.Holds.finish (h : st.Holds bits) (hroom : bits.length ≤ 8 * st.signbits.length) :
    ∃ bytes pad, st.finish = .ok bytes ∧ ofBytes bytes = bits ++ pad ∧ pad.length < 8 := by
  have hlen := h.length
  obtain ⟨⟨hlo, hhi⟩, heq, hfull⟩ := h
  unfold SignBits.finish
  by_cases hnone : st.bitsToGo = 8
  · rw [if_pos hnone]
    rw [hnone] at heq
    refine ⟨_, [], rfl, ?_, by decide⟩
    rw [List.append_nil, ← heq]
    exact (List.append_nil _).symm
  · have hin : st.nsign < st.signbits.length := by omega
    rw [if_neg hnone, getAt_of_lt hin 0, ok_bind, setAt_of_lt hin]
    refine ⟨_, bitsOf st.bitsToGo ((st.signbits.getD st.nsign 0).toNat * 2 ^ st.bitsToGo), rfl, ?_,
      by rw [bitsOf_length]; omega⟩
    rw [take_set_succ hin, ofBytes_append, ← heq, List.append_assoc]
    congr 1
    show bitsOf 8 _ ++ [] = _
    rw [List.append_nil, bitsOf_byte (Nat.le_refl 8),
      show 8 = 8 - st.bitsToGo + st.bitsToGo by omega, bitsOf_add,
      Nat.mul_div_cancel _ (Nat.two_pow_pos _), Nat.sub_add_cancel hhi]

end

/-! ## Bit planes -/

def Largest.get (q : Nat) (vmax : Largest) : Int :=
  match q with
  | 0 => vmax.q0
  | 1 => vmax.q1
  | _ => vmax.q2

section

variable {vmax : Largest} {nx2 ny ny2 : Nat} {m : Int}

theorem Largest.le_note (q q' : Nat) (v : Int) : vmax.get q' ≤ (vmax.note q v).get q' := by
  rcases q with _ | _ | q <;> rcases q' with _ | _ | q' <;> simp [Largest.get, Largest.note]

theorem Largest.le_get_note (q : Nat) (v : Int) : v ≤ (vmax.note q v).get q := by
  rcases q with _ | _ | q <;> simp [Largest.get, Largest.note]

theorem Largest.note_le (h : ∀ q, vmax.get q ≤ m) {v : Int} (hv : v ≤ m) (q q' : Nat) :
    (vmax.note q v).get q' ≤ m := by
  have h0 := h 0
  have h1 := h 1
  have h2 := h 2
  rcases q with _ | _ | q <;> rcases q' with _ | _ | q' <;> simp_all [Largest.get, Largest.note]

variable (nx2 ny2) in
/-- Nothing is larger than the largest values, and they are not larger than they must be. -/
theorem largest_spec (a : List Int) : ∀ (j k : Nat) (vmax : Largest), j < ny →
    (∀ q, vmax.get q ≤ (largest nx2 ny ny2 a j k vmax).get q) ∧
      (∀ i v, a[i]? = some v → v ≤ (largest nx2 ny ny2 a j k vmax).get
        (sidesBehind nx2 ny2 ((ny * k + j + i) / ny) ((ny * k + j + i) % ny))) ∧
      ∀ m, (∀ q, vmax.get q ≤ m) → (∀ v ∈ a, v ≤ m) →
      ∀ q, (largest nx2 ny ny2 a j k vmax).get q ≤ m := by
  induction a with
  | nil => exact fun j k vmax _ => ⟨fun _ => le_rfl, fun _ _ h => (nomatch h), fun _ h _ => h⟩
  | cons v a ih =>
    intro j k vmax hj
    have hplace : (ny * k + j) / ny = k ∧ (ny * k + j) % ny = j := place_div_mod hj
    obtain ⟨j', k', hnext, hj', hsame⟩ : ∃ j' k', largest nx2 ny ny2 (v :: a) j k vmax =
        largest nx2 ny ny2 a j' k' (vmax.note (sidesBehind nx2 ny2 k j) v) ∧ j' < ny ∧
        ny * k' + j' = ny * k + (j + 1) := by
      by_cases hlast : ny ≤ j + 1
      · refine ⟨0, k + 1, if_pos hlast, by omega, ?_⟩
        rw [Nat.mul_add]
        omega
      · exact ⟨j + 1, k, if_neg hlast, by omega, rfl⟩
    rw [hnext]
    obtain ⟨hkeep, hlater, hbound⟩ := ih j' k' (vmax.note (sidesBehind nx2 ny2 k j) v) hj'
    refine ⟨fun q => (Largest.le_note _ q v).trans (hkeep q), fun i u hu => ?_, fun m hm ha => ?_⟩
    · rcases i with _ | i
      · rw [Nat.add_zero, hplace.1, hplace.2]
        obtain rfl : v = u := Option.some.inj hu
        exact (Largest.le_get_note _ v).trans (hkeep _)
      · have hu' := hlater i u hu
        rwa [hsame, show ny * k + (j + 1) + i = ny * k + j + (i + 1) by omega] at hu'
    · exact hbound m (Largest.note_le hm (ha v List.mem_cons_self) _) fun u hu =>
        ha u (List.mem_cons_of_mem _ hu)

/-- A number has as many bits as it takes halvings. -/
theorem halvings_spec (fuel : Nat) : ∀ v, v < 2 ^ fuel →
    v < 2 ^ halvings fuel v ∧ ∀ m, v < 2 ^ m → halvings fuel v ≤ m := by
  induction fuel with
  | zero => exact fun v h => ⟨h, fun m _ => Nat.zero_le m⟩
  | succ fuel ih =>
    intro v h
    rw [halvings]
    by_cases hzero : v = 0
    · rw [if_pos hzero, hzero]
      exact ⟨Nat.one_pos, fun m _ => Nat.zero_le m⟩
    · rw [Nat.pow_succ] at h
      obtain ⟨hlt, hleast⟩ := ih (v / 2) (by omega)
      rw [if_neg hzero]
      refine ⟨by rw [Nat.pow_succ]; omega, fun m hm => ?_⟩
      rcases m with _ | m
      · omega
      · rw [Nat.pow_succ] at hm
        have := hleast m (by omega)
        omega

end

end RustFits.Zimage.Hcompress
