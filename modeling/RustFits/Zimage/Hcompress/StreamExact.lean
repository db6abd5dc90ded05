import RustFits.Zimage.Hcompress.Stream

/-!
# The stream and back

A quadrant is a rectangle of the array, and the decoder fills one after the other
(`Filled`, `quadrant_roundTrip`); at the end all cells are filled.  `stream_roundTrip` puts
this between the header and the signs: the decoder gives back the coefficients, the axes
and the scale, whatever follows the stream.
-/

namespace RustFits.Zimage.Hcompress

open Ascii BigEndian BitStream Outcome

/-! ## Reading bytes -/

section

variable {α β : Type} {st st' : HState} {rest : List UInt8}

theorem run_bind {x : Reader α} {v : α} (h : x st = .ok (v, st')) (f : α → Reader β) :
    (x >>= f) st = f v st' := by
  show (x st >>= fun p => f p.1 p.2) = _
  rw [h]
  rfl

theorem qread_front {front : List UInt8} (hsome : 0 < front.length)
    (h : st.bytes.drop st.pos = front ++ rest) :
    ∃ st', qread front.length st = .ok (front, st') ∧ st'.bytes.drop st'.pos = rest := by
  have hlen := congrArg List.length h
  rw [List.length_drop, List.length_append] at hlen
  have hin : ¬ st.bytes.length < st.pos + front.length := by omega
  refine ⟨{ st with pos := st.pos + front.length }, ?_, ?_⟩
  · rw [qread, if_neg hin, h, List.take_left]
  · rw [← List.drop_drop, h, List.drop_left]

/-- A number of a word comes back. -/
theorem number_roundTrip {width : Nat} (hwidth : 0 < width) {v : Int} (h : Fits (8 * width) v) :
    toSigned (8 * width) (fromBe (beBytes width (v % (256 : Int) ^ width).toNat)) = v := by
  have hpow : (256 : Nat) ^ width = 2 * 2 ^ (8 * width - 1) := by
    rw [← Nat.pow_succ', Nat.succ_eq_add_one, Nat.sub_add_cancel (by omega),
      show 256 = 2 ^ 8 from rfl, ← Nat.pow_mul]
  have hcast : (256 : Int) ^ width = 2 * ((2 ^ (8 * width - 1) : Nat) : Int) := by
    have := congrArg (Nat.cast (R := Int)) hpow
    push_cast at this ⊢
    exact this
  have h2 : (2 : Int) ^ (8 * width - 1) = ((2 ^ (8 * width - 1) : Nat) : Int) := by push_cast; rfl
  have h8 : 2 ^ (8 * width) = 2 * 2 ^ (8 * width - 1) := by
    rw [← hpow, show 256 = 2 ^ 8 from rfl, ← Nat.pow_mul]
  obtain ⟨hlo, hhi⟩ := h
  rw [h2] at hlo hhi
  rw [fromBe_beBytes, hpow, hcast, toSigned, h8]
  generalize 2 ^ (8 * width - 1) = m at *
  have hmod : v % (2 * (m : Int)) = if v < 0 then v + 2 * m else v := by
    split_ifs with hneg
    · rw [← Int.add_emod_right, Int.emod_eq_of_lt (by omega) (by omega)]
    · exact Int.emod_eq_of_lt (by omega) (by omega)
  have hlt : (v % (2 * (m : Int))).toNat < 2 * m := by
    rw [hmod]
    split_ifs <;> omega
  rw [Nat.mod_eq_of_lt hlt, hmod]
  by_cases hneg : v < 0
  · rw [if_pos hneg, if_neg (by omega)]
    omega
  · rw [if_neg hneg, if_pos (by omega)]
    omega

theorem readNumber_front {width : Nat} {v : Int} (hwidth : 0 < width) (hv : Fits (8 * width) v)
    (h : st.bytes.drop st.pos = beBytes width (v % (256 : Int) ^ width).toNat ++ rest) :
    ∃ st', readNumber width st = .ok (v, st') ∧ st'.bytes.drop st'.pos = rest := by
  have hlen := beBytes_length width (v % (256 : Int) ^ width).toNat
  obtain ⟨st', hread, hrest⟩ := qread_front (by rw [hlen]; exact hwidth) h
  rw [hlen] at hread
  refine ⟨st', ?_, hrest⟩
  rw [readNumber, run_bind hread, number_roundTrip hwidth hv]
  rfl

/-- Fewer than eight bits are left of a byte: the bytes behind it are next. -/
theorem rest_of_bits {pad : List Bool} (h : st.bits = pad ++ ofBytes rest) (hpad : pad.length < 8)
    (hst : st.bitsToGo ≤ 7) :
    st.bytes.drop st.pos = rest := by
  have hlen := congrArg List.length h
  rw [HState.bits, List.length_append, List.length_append, ofBytes_length, ofBytes_length,
    bitsOf_length] at hlen
  exact ofBytes_inj (List.append_inj h (by rw [bitsOf_length]; omega)).2

/-- Bits that start at a byte and are filled up to a byte. -/
theorem Reads.bytes {x : Reader α} {v : α} {code pad : List Bool} {part : List UInt8}
    (hx : Reads x code v)
    (hpart : ofBytes part = code ++ pad) (hpad : pad.length < 8)
    (h : st.bytes.drop st.pos = part ++ rest) :
    ∃ st', x { st with bitsToGo := 0 } = .ok (v, st') ∧ st'.bytes.drop st'.pos = rest := by
  have hbits : ({ st with bitsToGo := 0 } : HState).bits = code ++ (pad ++ ofBytes rest) := by
    show [] ++ ofBytes (st.bytes.drop st.pos) = _
    rw [List.nil_append, h, ofBytes_append, hpart, List.append_assoc]
  obtain ⟨st', hrun, hst', hbits'⟩ := hx _ _ (Nat.zero_le 7) hbits
  exact ⟨st', hrun, rest_of_bits hbits' hpad hst'⟩

end

/-! ## Quadrants -/

/-- A cell lies in the rectangle of `nqx` rows of `nqy` from row `r` and column `c` on. -/
def inQuadrant (r c nqx nqy row col : Nat) : Bool :=
  decide (r ≤ row ∧ row < r + nqx ∧ c ≤ col ∧ col < c + nqy)

section

variable {w : Nat} {checks : Bool} {a d : List (BitVec w)} {nx ny r c nqx nqy planes : Nat}
    {f : Nat → Nat → Bool}

/-- The cells that `f` tells have come back, and the others are zero. -/
structure Filled (a d : List (BitVec w)) (nx ny : Nat) (f : Nat → Nat → Bool) : Prop where
  length : d.length = a.length
  cells : ∀ row < nx, ∀ col < ny, d[ny * row + col]? = if f row col then
    a[ny * row + col]? else some 0

theorem drop_getElem? {α : Type} (l : List α) (row col : Nat) :
    (l.drop (ny * r + c))[ny * row + col]? = l[ny * (r + row) + (c + col)]? := by
  rw [List.getElem?_drop]
  congr 1
  ring

/-- One more quadrant is written, and one more comes back. -/
theorem quadrant_roundTrip (h : RoundTrips checks (a.drop (ny * r + c)) ny nqx nqy planes)
    (hlen : a.length = nx * ny)
    (hr : r + nqx ≤ nx) (hc : c + nqy ≤ ny) (hstart : ny * r + c ≤ a.length) (wr : HWriter)
    (hwr : wr.HasRoom) :
    ∃ wr' code, encodeQuadrant w checks wr a (ny * r + c) ny nqx nqy planes =
      .ok wr' ∧ wr'.HasRoom ∧
      wr'.bits = wr.bits ++ code ∧
      ∀ d f, Filled a d nx ny f →
        (∀ row col, inQuadrant r c nqx nqy row col = true → f row col = false) →
        ∃ d', Reads (decodeQuadrant w checks d (ny * r + c) ny nqx nqy planes) code d' ∧
          Filled a d' nx ny fun row col => f row col || inQuadrant r c nqx nqy row col := by
  obtain ⟨wr', code, hrun, hroom, hbits, hread⟩ := h wr hwr
  refine ⟨wr', code, by rw [encodeQuadrant, if_pos hstart, hrun], hroom, hbits,
    fun d f hd hnew => ?_⟩
  have hplace : ∀ row < nqx, ∀ col < nqy, ny * (r + row) + (c + col) < d.length :=
    fun row hrow col hcol => by
    rw [hd.length, hlen]
    exact covers_rows le_rfl _ (by omega) _ (by omega)
  obtain ⟨part, hpart, hplen, hcells, hkeep⟩ := hread (d.drop (ny * r + c))
    (fun row hrow col hcol => by
      have h := hplace row hrow col hcol
      have hsum : ny * (r + row) + (c + col) = ny * r + c + (ny * row + col) := by ring
      rw [List.length_drop]
      omega)
    fun row hrow col hcol => by
      rw [drop_getElem?, hd.cells _ (by omega) _ (by omega),
        hnew _ _ (by unfold inQuadrant; simp; omega)]
      rfl
  have htake : (d.take (ny * r + c)).length = ny * r + c := by
    rw [List.length_take, hd.length, Nat.min_eq_left hstart]
  refine ⟨d.take (ny * r + c) ++ part, ?_, ?_, ?_⟩
  · rw [decodeQuadrant, if_pos (by rw [hd.length]; exact hstart)]
    exact hpart.map (Reads.pure _)
  · rw [List.length_append, htake, hplen, List.length_drop, hd.length]
    omega
  · intro row hrow col hcol
    by_cases hin : inQuadrant r c nqx nqy row col = true
    · obtain ⟨h1, h2, h3, h4⟩ := of_decide_eq_true hin
      obtain ⟨i, rfl⟩ := Nat.exists_eq_add_of_le h1
      obtain ⟨j, rfl⟩ := Nat.exists_eq_add_of_le h3
      have hsum : ny * (r + i) + (c + j) = ny * r + c + (ny * i + j) := by ring
      rw [hin, Bool.or_true, if_pos rfl, hsum,
        List.getElem?_append_right (by rw [htake]; omega), htake,
        Nat.add_sub_cancel_left, hcells i (by omega) j (by omega), drop_getElem?, ← hsum]
    · have hold : (f row col || inQuadrant r c nqx nqy row col) = f row col := by
        rw [Bool.eq_false_iff.2 hin, Bool.or_false]
      rw [hold, ← hd.cells row hrow col hcol]
      by_cases hfront : ny * row + col < ny * r + c
      · rw [List.getElem?_append_left (by rw [htake]; exact hfront),
          List.getElem?_take_of_lt hfront]
      · obtain ⟨q, hq⟩ := Nat.exists_eq_add_of_le (Nat.le_of_not_lt hfront)
        rw [hq, List.getElem?_append_right (by rw [htake]; omega), htake,
          Nat.add_sub_cancel_left, hkeep q ?_, List.getElem?_drop]
        intro i hi j hj heq
        have hsame : ny * row + col = ny * (r + i) + (c + j) := by
          rw [hq, heq]
          ring
        have hp : (ny * row + col) / ny = row ∧ (ny * row + col) % ny = col := place_div_mod hcol
        have hp' : (ny * (r + i) + (c + j)) / ny = r + i ∧ (ny * (r + i) + (c + j)) % ny = c + j :=
          place_div_mod (by omega)
        rw [hsame] at hp
        refine hin (decide_eq_true ?_)
        omega

end

/-! ## All quadrants -/

def PlaneCounts.get (q : Nat) (planes : PlaneCounts) : Nat :=
  match q with
  | 0 => planes.q0
  | 1 => planes.q1
  | _ => planes.q2

/-- Values without signs that leave the three highest planes empty. -/
structure Magnitudes (w nx ny : Nat) (b : List Int) : Prop where
  width : 4 ≤ w
  length : b.length = nx * ny
  small : ∀ v ∈ b, 0 ≤ v ∧ v < 2 ^ (w - 3)

section

variable {w : Nat} {checks : Bool} {b : List Int} {nx ny r c nqx nqy : Nat}

theorem planeCounts_get (vmax : Largest) (q : Nat) :
    (planeCounts w vmax).get q = halvings w (vmax.get q).toNat := by
  rcases q with _ | _ | q <;> rfl

/-- The planes of a quadrant hold its values. -/
theorem Magnitudes.planes (h : Magnitudes w nx ny b) (row : Nat) {col : Nat} (hcol : col < ny) :
    (∀ v, b[ny * row + col]? = some v →
      v < 2 ^ (planeCounts w (largest (half nx) ny (half ny) b 0 0 ⟨0, 0, 0⟩)).get
        (sidesBehind (half nx) (half ny) row col)) ∧
      ∀ q, (planeCounts w (largest (half nx) ny (half ny) b 0 0 ⟨0, 0, 0⟩)).get q ≤ w - 3 := by
  have hw := h.width
  obtain ⟨hnonneg, hat, hmost⟩ := largest_spec (half nx) (half ny) b 0 0 ⟨0, 0, 0⟩
    (Nat.lt_of_le_of_lt (Nat.zero_le _) hcol)
  have hpow : (0 : Int) < 2 ^ (w - 3) := by positivity
  have hplace : (ny * row + col) / ny = row ∧ (ny * row + col) % ny = col := place_div_mod hcol
  have hzero : ∀ q, (⟨0, 0, 0⟩ : Largest).get q = 0 := fun q => by
    rcases q with _ | _ | q <;> rfl
  have hbound : ∀ q, (largest (half nx) ny (half ny) b 0 0 ⟨0, 0, 0⟩).get q ≤ 2 ^ (w - 3) - 1 :=
    hmost _ (fun q => by rw [hzero]; omega) fun v hv => by
      have := (h.small v hv).2
      omega
  have hnat : ∀ q, ((largest (half nx) ny (half ny) b 0 0 ⟨0, 0, 0⟩).get q).toNat < 2 ^ (w - 3) :=
    fun q => by
    have hlo := hnonneg q
    rw [hzero] at hlo
    have hcast : ((2 ^ (w - 3) : Nat) : Int) = 2 ^ (w - 3) := by push_cast; rfl
    have := hbound q
    omega
  have hspec : ∀ q, _ := fun q => halvings_spec w _
    (Nat.lt_of_lt_of_le (hnat q) (Nat.pow_le_pow_right (by decide) (Nat.sub_le w 3)))
  refine ⟨fun v hv => ?_, fun q => ?_⟩
  · have hle := hat (ny * row + col) v hv
    rw [Nat.mul_zero, Nat.zero_add, hplace.1, hplace.2] at hle
    rw [planeCounts_get]
    have hlt := (hspec (sidesBehind (half nx) (half ny) row col)).1
    have hcast := Int.ofNat_lt.2 hlt
    push_cast at hcast
    omega
  · rw [planeCounts_get]
    exact (hspec q).2 _ (hnat q)

theorem Magnitudes.fitsPlanes {k : Nat} (h : Magnitudes w nx ny b) (hr : r + nqx ≤ nx)
    (hc : c + nqy ≤ ny)
    (hk : ∀ row < nqx, ∀ col < nqy, ∀ v, b[ny * (r + row) + (c + col)]? = some v → v < 2 ^ k) :
    FitsPlanes ((b.map (BitVec.ofInt w)).drop (ny * r + c)) ny nqx nqy k := by
  intro row hrow col hcol
  have hlt : ny * (r + row) + (c + col) < b.length := by
    rw [h.length]
    exact covers_rows le_rfl _ (by omega) _ (by omega)
  have hat := List.getElem?_eq_getElem hlt
  have hv := h.small _ (List.mem_of_getElem? hat)
  have hsmall := hk row hrow col hcol _ hat
  rw [List.getD_eq_getElem?_getD, drop_getElem?, List.getElem?_map, hat]
  show (BitVec.ofInt w _).toNat < 2 ^ k
  generalize b[ny * (r + row) + (c + col)] = v at hv hsmall
  have hw : (2 : Int) ^ (w - 3) ≤ 2 ^ w := pow_le_pow_right₀ (by decide) (Nat.sub_le w 3)
  have hcast : ((2 ^ k : Nat) : Int) = 2 ^ k := by push_cast; rfl
  have hmod : v % ((2 ^ w : Nat) : Int) = v := by
    push_cast
    exact Int.emod_eq_of_lt hv.1 (by omega)
  rw [BitVec.toNat_ofInt, hmod]
  omega

/-- A quadrant of such values is written and comes back. -/
theorem Magnitudes.quadrant (checks : Bool) {k : Nat} (h : Magnitudes w nx ny b) (hr : r + nqx ≤ nx)
    (hc : c + nqy ≤ ny) (hx : 1 ≤ nqx) (hy : 1 ≤ nqy) (hle : k ≤ w - 3)
    (hk : ∀ row < nqx, ∀ col < nqy, ∀ v, b[ny * (r + row) + (c + col)]? = some v → v < 2 ^ k)
    (wr : HWriter) (hwr : wr.HasRoom) :
    ∃ wr' code, encodeQuadrant w checks wr (b.map (BitVec.ofInt w)) (ny * r + c) ny nqx
      nqy k = .ok wr' ∧
      wr'.HasRoom ∧ wr'.bits = wr.bits ++ code ∧
      ∀ d f, Filled (b.map (BitVec.ofInt w)) d nx ny f →
        (∀ row col, inQuadrant r c nqx nqy row col = true → f row col = false) →
        ∃ d', Reads (decodeQuadrant w checks d (ny * r + c) ny nqx nqy k) code d' ∧
          Filled (b.map (BitVec.ofInt w)) d' nx ny fun row col =>
            f row col || inQuadrant r c nqx nqy row col := by
  have hlen : (b.map (BitVec.ofInt w)).length = nx * ny := by rw [List.length_map, h.length]
  have hstart : ny * r + c ≤ nx * ny := by
    have := covers_rows (Nat.le_refl (nx * ny)) r (by omega) c (by omega)
    omega
  have hcovers : Covers ((b.map (BitVec.ofInt w)).drop (ny * r + c)).length ny nqx nqy := by
    intro row hrow col hcol
    have hin := covers_rows (Nat.le_refl (nx * ny)) (r + row) (by omega) (c + col) (by omega)
    have hsum : ny * (r + row) + (c + col) = ny * r + c + (ny * row + col) := by ring
    rw [List.length_drop, hlen]
    omega
  have htop : FitsPlanes ((b.map (BitVec.ofInt w)).drop (ny * r + c)) ny nqx nqy (w - 3) :=
    h.fitsPlanes hr hc fun row hrow col hcol v hv => (h.small v (List.mem_of_getElem? hv)).2
  exact quadrant_roundTrip
    (RoundTrips.of_topBitsAgree h.width hx hy (by omega) hcovers (h.fitsPlanes hr hc hk)
    (fun _ => by omega) (topBitsAgree_of_fits htop)) hlen hr hc (by rw [hlen]; exact hstart) wr hwr

/-- All cells have come back. -/
theorem Filled.all {a d : List (BitVec w)} {f : Nat → Nat → Bool} (h : Filled a d nx ny f)
    (hlen : a.length = nx * ny) (hf : ∀ row < nx, ∀ col < ny, f row col = true) : d = a := by
  refine List.ext_getElem? fun p => ?_
  by_cases hp : p < nx * ny
  · have hy : 0 < ny := Nat.pos_of_mul_pos_left (Nat.lt_of_le_of_lt (Nat.zero_le p) hp)
    have hrow : p / ny < nx := Nat.div_lt_of_lt_mul (by rwa [Nat.mul_comm])
    have hcol : p % ny < ny := Nat.mod_lt p hy
    have hcell := h.cells _ hrow _ hcol
    rwa [hf _ hrow _ hcol, if_pos rfl, Nat.div_add_mod] at hcell
  · have hout := Nat.le_of_not_lt hp
    rw [List.getElem?_eq_none (by rw [h.length, hlen]; exact hout),
      List.getElem?_eq_none (by rw [hlen]; exact hout)]

/-- The last byte has fewer than eight zeros behind the bits. -/
theorem HWriter.done_bits {wr : HWriter} (h : wr.HasRoom) :
    ∃ pad, ofBytes wr.doneOutputingBits.out = wr.bits ++ pad ∧ pad.length < 8 := by
  obtain ⟨hlo, hhi⟩ := h
  unfold HWriter.doneOutputingBits
  by_cases hpart : wr.bitsToGo2 < 8
  · obtain ⟨k, hk⟩ : ∃ k : Nat, wr.bitsToGo2 = 8 - k := ⟨(8 - wr.bitsToGo2).toNat, by omega⟩
    have hleft : (8 - wr.bitsToGo2).toNat = k := by omega
    have hshift : wr.bitsToGo2.toNat = 8 - k := by omega
    rw [if_pos hpart]
    refine ⟨bitsOf (8 - k) (wr.buffer2 * 2 ^ (8 - k)), ?_, by rw [bitsOf_length]; omega⟩
    show ofBytes (wr.out ++ [UInt8.ofNat (_ % 2 ^ 32 % 2 ^ 8)]) = _
    have hbits : bitsOf 8 (wr.buffer2 * 2 ^ (8 - k) % 2 ^ 32) =
        bitsOf k wr.buffer2 ++ bitsOf (8 - k) (wr.buffer2 * 2 ^ (8 - k)) := by
      rw [← bitsOf_mod 8, Nat.mod_mod_of_dvd _ (Nat.pow_dvd_pow 2 (by decide)), bitsOf_mod]
      calc bitsOf 8 (wr.buffer2 * 2 ^ (8 - k)) =
        bitsOf (k + (8 - k)) (wr.buffer2 * 2 ^ (8 - k)) := by
            rw [show k + (8 - k) = 8 by omega]
        _ = bitsOf k wr.buffer2 ++ bitsOf (8 - k) (wr.buffer2 * 2 ^ (8 - k)) := by
            rw [bitsOf_add, Nat.mul_div_cancel _ (Nat.two_pow_pos _)]
    rw [ofBytes_concat, hshift, hbits, HWriter.bits, hleft, List.append_assoc]
  · have hnone : (8 - wr.bitsToGo2).toNat = 0 := by omega
    rw [if_neg hpart]
    refine ⟨[], ?_, by decide⟩
    rw [HWriter.bits, hnone, List.append_nil]
    exact (List.append_nil _).symm

theorem inQuadrant_apart {row col r' c' nqx' nqy' : Nat} (h : inQuadrant r c nqx nqy row col = true)
    (hapart : r' + nqx' ≤ r ∨ c' + nqy' ≤ c ∨ r + nqx ≤ r' ∨ c + nqy ≤ c') :
    inQuadrant r' c' nqx' nqy' row col = false := by
  have hin := of_decide_eq_true h
  exact decide_eq_false (by omega)

theorem sidesBehind_eq (row col : Nat) : sidesBehind (half nx) (half ny) row col =
    (if half ny ≤ col then 1 else 0) + if half nx ≤ row then 1 else 0 := by
  unfold sidesBehind
  split_ifs <;> simp [*]

/-- The four quadrants, and the nybble behind them. -/
theorem planes_back (checks : Bool) (h : Magnitudes w nx ny b) (hx : 2 ≤ nx) (hy : 2 ≤ ny)
    (wr : HWriter) :
    ∃ wr' code pad,
      doencode w checks wr (b.map (BitVec.ofInt w)) nx ny
        (planeCounts w (largest (half nx) ny (half ny) b 0 0 ⟨0, 0, 0⟩)) = .ok wr' ∧
      ofBytes wr'.out = ofBytes wr.out ++ (code ++ pad) ∧ pad.length < 8 ∧
      Reads (decodePlanes w checks nx ny
        (planeCounts w (largest (half nx) ny (half ny) b 0 0 ⟨0, 0, 0⟩))) code
        (b.map (BitVec.ofInt w)) := by
  have hnx : half nx + nx / 2 = nx := by unfold half; omega
  have hny : half ny + ny / 2 = ny := by unfold half; omega
  have hplanes : ∀ row col, col < ny → _ := fun row col hcol => h.planes row hcol
  have hleast := (hplanes 0 0 (by omega)).2
  generalize planeCounts w (largest (half nx) ny (half ny) b 0 0 ⟨0, 0, 0⟩) = planes at *
  have hside : ∀ {r c nqx nqy q : Nat}, c + nqy ≤ ny →
      (∀ row < nqx, ∀ col < nqy, sidesBehind (half nx) (half ny) (r + row) (c + col) = q) →
      ∀ row < nqx, ∀ col < nqy, ∀ v, b[ny * (r + row) + (c + col)]? = some v →
      v < 2 ^ planes.get q := by
    intro r c nqx nqy q hc hq row hrow col hcol v hv
    rw [← hq row hrow col hcol]
    exact (hplanes (r + row) (c + col) (by omega)).1 v hv
  have hstart : wr.startOutputingBits.HasRoom :=
    ⟨by show (1 : Int) ≤ 8; decide, by show (8 : Int) ≤ 8; decide⟩
  have hbits : wr.startOutputingBits.bits = ofBytes wr.out := List.append_nil _
  obtain ⟨wr₀, c₀, henc₀, hroom₀, hbits₀, hdec₀⟩ :=
    h.quadrant checks (r := 0) (c := 0) (by omega) (by omega)
    (show 1 ≤ half nx by omega) (show 1 ≤ half ny by omega) (hleast 0)
    (hside (by omega) fun row hrow col hcol => by
      rw [sidesBehind_eq, if_neg (by omega), if_neg (by omega)]) _ hstart
  obtain ⟨wr₁, c₁, henc₁, hroom₁, hbits₁, hdec₁⟩ :=
    h.quadrant checks (r := 0) (c := half ny) (by omega) (by omega)
    (show 1 ≤ half nx by omega) (show 1 ≤ ny / 2 by omega) (hleast 1)
    (hside (by omega) fun row hrow col hcol => by
      rw [sidesBehind_eq, if_pos (by omega), if_neg (by omega)]) wr₀ hroom₀
  obtain ⟨wr₂, c₂, henc₂, hroom₂, hbits₂, hdec₂⟩ :=
    h.quadrant checks (r := half nx) (c := 0) (by omega) (by omega)
    (show 1 ≤ nx / 2 by omega) (show 1 ≤ half ny by omega) (hleast 1)
    (hside (by omega) fun row hrow col hcol => by
      rw [sidesBehind_eq, if_neg (by omega), if_pos (by omega)]) wr₁ hroom₁
  obtain ⟨wr₃, c₃, henc₃, hroom₃, hbits₃, hdec₃⟩ :=
    h.quadrant checks (r := half nx) (c := half ny) (by omega) (by omega)
    (show 1 ≤ nx / 2 by omega) (show 1 ≤ ny / 2 by omega) (hleast 2)
    (hside (by omega) fun row hrow col hcol => by
      rw [sidesBehind_eq, if_pos (by omega), if_pos (by omega)]) wr₂ hroom₂
  obtain ⟨hroom₄, hbits₄⟩ := writes_outputNybble 0 wr₃ hroom₃
  obtain ⟨pad, hdone, hpad⟩ := HWriter.done_bits hroom₄
  rw [Nat.mul_zero, Nat.zero_add] at henc₁
  rw [Nat.add_zero] at henc₂
  refine ⟨(wr₃.outputNybble 0).doneOutputingBits, c₀ ++ (c₁ ++ (c₂ ++ (c₃ ++ nybbleBits 0))), pad,
    ?_, ?_, hpad, ?_⟩
  · show (encodeQuadrant w checks wr.startOutputingBits (b.map (BitVec.ofInt w)) (ny * 0 + 0) ny
      (half nx) (half ny)
      (planes.get 0) >>= _) = _
    rw [henc₀, ok_bind]
    show (encodeQuadrant w checks wr₀ (b.map (BitVec.ofInt w)) (half ny) ny (half nx) (ny / 2)
      (planes.get 1) >>= _) = _
    rw [henc₁, ok_bind]
    show (encodeQuadrant w checks wr₁ (b.map (BitVec.ofInt w)) (ny * half nx) ny (nx / 2) (half ny)
      (planes.get 1) >>=
      _) = _
    rw [henc₂, ok_bind]
    show (encodeQuadrant w checks wr₂ (b.map (BitVec.ofInt w)) (ny * half nx + half ny) ny
      (nx / 2) (ny / 2)
      (planes.get 2) >>= _) = _
    rw [henc₃]
    rfl
  · rw [hdone, hbits₄, hbits₃, hbits₂, hbits₁, hbits₀, hbits]
    simp only [List.append_assoc]
  · have hlen : (b.map (BitVec.ofInt w)).length = nx * ny := by rw [List.length_map, h.length]
    have hzero : Filled (b.map (BitVec.ofInt w)) (List.replicate (nx * ny) 0) nx ny
        fun _ _ => false :=
      ⟨by rw [List.length_replicate, hlen], fun row hrow col hcol => by
        rw [List.getElem?_replicate_of_lt (covers_rows le_rfl row hrow col hcol)]
        rfl⟩
    obtain ⟨d₁, hread₀, hd₁⟩ := hdec₀ _ _ hzero fun _ _ _ => rfl
    obtain ⟨d₂, hread₁, hd₂⟩ := hdec₁ d₁ _ hd₁ fun row col hin => by
      rw [inQuadrant_apart hin (by omega)]
      rfl
    obtain ⟨d₃, hread₂, hd₃⟩ := hdec₂ d₂ _ hd₂ fun row col hin => by
      rw [inQuadrant_apart hin (by omega), inQuadrant_apart hin (by omega)]
      rfl
    obtain ⟨d₄, hread₃, hd₄⟩ := hdec₃ d₃ _ hd₃ fun row col hin => by
      rw [inQuadrant_apart hin (by omega), inQuadrant_apart hin (by omega),
        inQuadrant_apart hin (by omega)]
      rfl
    rw [Nat.mul_zero, Nat.zero_add] at hread₁
    rw [Nat.add_zero] at hread₂
    have hsame := hd₄.all hlen fun row hrow col hcol => by
      simp only [inQuadrant, Bool.false_or, Bool.or_eq_true, decide_eq_true_eq]
      omega
    rw [hsame] at hread₃
    exact hread₀.bind
      (hread₁.bind (hread₂.bind (hread₃.bind ((reads_inputNybble 0).map (Reads.pure _)))))

end

/-! ## Signs -/

theorem reads_readSign {w : Nat} (checks : Bool) {v : Int} (hv : Fits w v) :
    Reads (readSign w checks (v.natAbs : Int)) (if v = 0 then [] else [decide (v < 0)]) v := by
  unfold readSign
  by_cases hzero : v = 0
  · rw [if_pos hzero, hzero]
    exact Reads.pure 0
  · rw [if_neg hzero, if_neg (by omega)]
    refine (reads_inputBit (decide (v < 0))).map ?_
    by_cases hneg : v < 0
    · have hback : -(v.natAbs : Int) = v := by omega
      rw [decide_eq_true hneg, if_pos (by decide)]
      exact Reads.lift (by rw [hback]; exact if_pos hv)
    · have hsame : (v.natAbs : Int) = v := by omega
      rw [decide_eq_false hneg, if_neg (by decide), hsame]
      exact Reads.pure v

theorem reads_readSigns {w : Nat} (checks : Bool) (a : List Int) (ha : ∀ v ∈ a, Fits w v) :
    Reads (readSigns w checks (a.map fun v => (v.natAbs : Int))) (signsOf a) a := by
  induction a with
  | nil => exact Reads.pure []
  | cons v a ih =>
    rw [signsOf_cons]
    exact (reads_readSign checks (ha v List.mem_cons_self)).bind
      ((ih fun u hu => ha u (List.mem_cons_of_mem _ hu)).map (Reads.pure _))

/-! ## The stream -/

/-- Coefficients that the stream can hold: all but the first leave the three highest planes
of a word empty. -/
structure Coefficients (w nx ny : Nat) (a : List Int) : Prop where
  width : 4 ≤ w ∧ w ≤ 64
  rows : 2 ≤ nx ∧ nx < 2 ^ 31
  cols : 2 ≤ ny ∧ ny < 2 ^ 31
  length : a.length = nx * ny
  sum : ∀ v, a[0]? = some v → Fits w v
  small : ∀ i v, 0 < i → a[i]? = some v → -2 ^ (w - 3) < v ∧ v < 2 ^ (w - 3)

section

variable {w nx ny : Nat} {a : List Int} {scale sum : Int} {st : HState} {rest : List UInt8}
    {planes : PlaneCounts}

/-- Without the first coefficient. -/
theorem Coefficients.without (h : Coefficients w nx ny a) :
    ∀ v ∈ a.set 0 0, -2 ^ (w - 3) < v ∧ v < 2 ^ (w - 3) := by
  intro v hv
  obtain ⟨i, hi⟩ := List.getElem?_of_mem hv
  have hpow : (0 : Int) < 2 ^ (w - 3) := by positivity
  rcases Nat.eq_zero_or_pos i with hzero | hpos
  · have hlt := (List.getElem?_eq_some_iff.1 hi).1
    rw [List.length_set] at hlt
    rw [hzero, List.getElem?_set_self (by omega)] at hi
    obtain rfl := Option.some.inj hi
    omega
  · rw [List.getElem?_set_ne (by omega)] at hi
    exact h.small i v hpos hi

theorem Coefficients.fits (h : Coefficients w nx ny a) :
    ∀ v ∈ a.set 0 0, Fits w v ∧ Fits w (-v) := by
  intro v hv
  have hv' := h.without v hv
  have hpow : (2 : Int) ^ (w - 3) ≤ 2 ^ (w - 1) := pow_le_pow_right₀ (by decide) (by omega)
  exact ⟨⟨by omega, by omega⟩, ⟨by omega, by omega⟩⟩

theorem Coefficients.magnitudes (h : Coefficients w nx ny a) :
    Magnitudes w nx ny ((a.set 0 0).map fun v => (v.natAbs : Int)) := by
  refine ⟨h.width.1, by rw [List.length_map, List.length_set, h.length], fun v hv => ?_⟩
  obtain ⟨u, hu, rfl⟩ := List.mem_map.1 hv
  have := h.without u hu
  omega

/-- Words and back. -/
theorem Magnitudes.words {b : List Int} (h : Magnitudes w nx ny b) :
    (b.map (BitVec.ofInt w)).map BitVec.toInt = b := by
  have hw := h.width
  have hpow : (2 : Int) ^ (w - 3) ≤ 2 ^ (w - 1) := pow_le_pow_right₀ (by decide) (by omega)
  have hword : ∀ v ∈ b, (BitVec.toInt ∘ BitVec.ofInt w) v = v := by
    intro v hv
    have hsmall := h.small v hv
    have hfits : Fits w v := ⟨by omega, by omega⟩
    show (BitVec.ofInt w v).toInt = v
    rw [BitVec.toInt_ofInt, hfits.bmod (by omega)]
  rw [List.map_map, List.map_congr_left hword, List.map_id']

theorem SignBits.holds_start (bytes : List UInt8) : (⟨bytes, 0, 8⟩ : SignBits).Holds [] :=
  ⟨⟨by show 1 ≤ 8; decide, le_rfl⟩, rfl, Nat.zero_le _⟩

/-- The planes and the signs come back. -/
theorem dodecode_back (checks : Bool) (h : Coefficients w nx ny a) {body signs : List UInt8}
    {code pad pad' : List Bool} (hplanes : Reads (decodePlanes w checks nx ny planes) code
      (((a.set 0 0).map fun v => (v.natAbs : Int)).map (BitVec.ofInt w)))
    (hbody : ofBytes body = code ++ pad) (hpad : pad.length < 8)
    (hsigns : ofBytes signs = signsOf (a.set 0 0) ++ pad') (hpad' : pad'.length < 8)
    (hst : st.bytes.drop st.pos = body ++ (signs ++ rest)) :
    ∃ st', dodecode w checks nx ny planes st = .ok (a.set 0 0, st') ∧
    st'.bytes.drop st'.pos = rest := by
  obtain ⟨st₁, hrun₁, hst₁⟩ := hplanes.bytes hbody hpad hst
  obtain ⟨st₂, hrun₂, hst₂⟩ :=
    (reads_readSigns checks _ fun v hv => (h.fits v hv).1).bytes hsigns hpad' hst₁
  refine ⟨st₂, ?_, hst₂⟩
  show (decodePlanes w checks nx ny planes >>= fun a => startInputingBits >>= fun _ =>
    readSigns w checks (a.map BitVec.toInt)) { st with bitsToGo := 0 } = _
  rw [run_bind hrun₁, h.magnitudes.words]
  exact hrun₂

/-- The bytes in front of the planes. -/
def streamHeader (nx ny : Nat) (scale sum : Int) (planes : PlaneCounts) : HWriter :=
  (((((HWriter.new.qwrite codeMagic).writeNumber 4 nx).writeNumber 4 ny).writeNumber 4
    scale).writeNumber 8 sum).qwrite
    [UInt8.ofNat planes.q0, UInt8.ofNat planes.q1, UInt8.ofNat planes.q2]

/-- The header comes back, and what is behind it is decoded with it. -/
theorem header_back (checks : Bool) (hnx : 1 ≤ nx ∧ nx < 2 ^ 31) (hny : 1 ≤ ny ∧ ny < 2 ^ 31)
    (hscale : Fits 32 scale) (hsum : Fits 64 sum) (hplanes : ∀ q, planes.get q < 256)
    (hst : st.bytes.drop st.pos = (streamHeader nx ny scale sum planes).out ++ rest) :
    ∃ st', st'.bytes.drop st'.pos = rest ∧ decode w checks (nx * ny) st =
      (do
        let a ← dodecode w checks nx ny planes
        let a ← (setAt a 0 (sum.bmod (2 ^ w)) : Outcome PyErr (List Int))
        pure (a, nx, ny, scale) : Reader (List Int × Nat × Nat × Int)) st' := by
  have hfits : ∀ {n : Nat}, n < 2 ^ 31 → Fits (8 * 4) (n : Int) := fun h => by
    constructor
    · omega
    · show _ < (2 : Int) ^ 31
      omega
  have hbytes : st.bytes.drop st.pos = codeMagic ++ (beBytes 4 ((nx : Int) % 256 ^ 4).toNat ++
      (beBytes 4 ((ny : Int) % 256 ^ 4).toNat ++ (beBytes 4 (scale % 256 ^ 4).toNat ++
        (beBytes 8 (sum % 256 ^ 8).toNat ++
          ([UInt8.ofNat planes.q0, UInt8.ofNat planes.q1, UInt8.ofNat planes.q2] ++ rest))))) := by
    rw [hst]
    show ((((((([] : List UInt8) ++ codeMagic) ++ _) ++ _) ++ _) ++ _) ++ _) ++ rest = _
    simp only [List.append_assoc, List.nil_append]
  obtain ⟨st₁, hmagic, hst₁⟩ := qread_front (by decide) hbytes
  obtain ⟨st₂, hrows, hst₂⟩ := readNumber_front (by decide) (hfits hnx.2) hst₁
  obtain ⟨st₃, hcols, hst₃⟩ := readNumber_front (by decide) (hfits hny.2) hst₂
  obtain ⟨st₄, hscale', hst₄⟩ := readNumber_front (by decide) hscale hst₃
  obtain ⟨st₅, hsum', hst₅⟩ := readNumber_front (by decide) hsum hst₄
  obtain ⟨st₆, hcounts, hst₆⟩ := qread_front (by simp) hst₅
  refine ⟨st₆, hst₆, ?_⟩
  have hbyte : ∀ {n : Nat}, n < 256 → (UInt8.ofNat n).toNat = n := fun h => by
    rw [UInt8.toNat_ofNat']
    exact Nat.mod_eq_of_lt h
  have hq :
      (⟨(UInt8.ofNat planes.q0).toNat, (UInt8.ofNat planes.q1).toNat,
        (UInt8.ofNat planes.q2).toNat⟩ :
      PlaneCounts) = planes := by
    rw [hbyte (show planes.q0 < 256 from hplanes 0), hbyte (show planes.q1 < 256 from hplanes 1),
      hbyte (show planes.q2 < 256 from hplanes 2)]
  have hmagic₂ : qread 2 st = .ok (codeMagic, st₁) := hmagic
  have hcounts₃ : qread 3 st₅ =
      .ok ([UInt8.ofNat planes.q0, UInt8.ofNat planes.q1, UInt8.ofNat planes.q2], st₆) := hcounts
  rw [decode, run_bind hmagic₂, if_neg (by simp), run_bind hrows, run_bind hcols, run_bind hscale',
    if_neg (by omega), run_bind hsum', run_bind hcounts₃, Int.toNat_natCast, Int.toNat_natCast,
    if_neg (by simp)]
  show (dodecode w checks nx ny ⟨(UInt8.ofNat planes.q0).toNat, (UInt8.ofNat planes.q1).toNat,
    (UInt8.ofNat planes.q2).toNat⟩ >>= _) st₆ = _
  rw [hq]

/-- What the encoder writes for coefficients that fit is read back, whatever follows it. -/
theorem stream_roundTrip (checks : Bool) (h : Coefficients w nx ny a) (hscale : Fits 32 scale) :
    ∃ wr, encode w checks HWriter.new a nx ny scale = .ok wr ∧ ∀ rest, ∃ st,
      decode w checks (nx * ny) (HState.new (wr.out ++ rest)) = .ok ((a, nx, ny, scale), st) ∧
        st.bytes.drop st.pos = rest := by
  have hw := h.width
  have hx := h.rows
  have hy := h.cols
  have hpos : 0 < nx * ny := Nat.mul_pos (by omega) (by omega)
  have hin : 0 < a.length := by rw [h.length]; exact hpos
  have hsum : Fits w (a.getD 0 0) :=
    h.sum _ (by rw [List.getD_eq_getElem _ _ hin, List.getElem?_eq_getElem hin])
  have hcount : nx * ny ≤ 8 * ((nx * ny + 7) / 8) := by omega
  obtain ⟨bits, htake, hbits, hlen⟩ := @takeSigns_spec w checks (a.set 0 0) [] _
    (SignBits.holds_start (List.replicate ((nx * ny + 7) / 8) 0))
    (by
      rw [List.length_set, h.length, List.length_replicate, List.length_nil,
        Nat.zero_add]; exact hcount)
    fun v hv => (h.fits v hv).2
  obtain ⟨signs, pad', hfinish, hsigns, hpad'⟩ := hbits.finish (by
    have hle := signsOf_length_le (a.set 0 0)
    rw [List.length_set, h.length] at hle
    rw [hlen, List.length_replicate, List.nil_append]
    exact hle.trans hcount)
  rw [List.nil_append] at hsigns
  have hcounts := (h.magnitudes.planes 0 (show 0 < ny by omega)).2
  have hback := planes_back checks h.magnitudes hx.1 hy.1
  generalize hplanes :
      planeCounts w (largest (half nx) ny (half ny) ((a.set 0 0).map fun v => (v.natAbs : Int)) 0 0
    ⟨0, 0, 0⟩) = planes at hback hcounts
  obtain ⟨wr, code, pad, hrun, hout, hpad, hread⟩ :=
    hback (streamHeader nx ny scale (a.getD 0 0) planes)
  obtain ⟨body, hbody, hcode⟩ := split_of_ofBytes hout
  refine ⟨wr.qwrite signs, ?_, fun rest => ?_⟩
  · rw [encode, getAt_of_lt hin 0, ok_bind, setAt_of_lt hin, ok_bind, htake, ok_bind,
      hfinish, ok_bind]
    show (doencode w checks _ _ nx ny _ >>= _) = _
    rw [hplanes]
    show (doencode w checks (streamHeader nx ny scale (a.getD 0 0) planes) _ nx ny planes >>= _) = _
    rw [hrun]
    rfl
  · have hst : (HState.new ((wr.qwrite signs).out ++ rest)).bytes.drop
        (HState.new ((wr.qwrite signs).out ++ rest)).pos =
        (streamHeader nx ny scale (a.getD 0 0) planes).out ++ (body ++ (signs ++ rest)) := by
      show wr.out ++ signs ++ rest = _
      rw [hbody]
      simp only [List.append_assoc]
    have hbytes : ∀ q, planes.get q < 256 := fun q => by
      have := hcounts q
      omega
    obtain ⟨st₁, hst₁, hdecode⟩ :=
      header_back (w := w) checks ⟨by omega, hx.2⟩ ⟨by omega, hy.2⟩ hscale
      (hsum.mono hw.2) hbytes hst
    obtain ⟨st₂, hrun₂, hst₂⟩ := dodecode_back checks h hread hcode hpad hsigns hpad' hst₁
    refine ⟨st₂, ?_, hst₂⟩
    rw [hdecode, run_bind hrun₂, hsum.bmod (by omega),
      setAt_of_lt (by rw [List.length_set]; exact hin), List.set_set,
      List.getD_eq_getElem _ _ hin, List.set_getElem_self]
    rfl

end

end RustFits.Zimage.Hcompress
