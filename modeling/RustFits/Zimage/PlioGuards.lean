import RustFits.Zimage.PlioRoundTrip
import RustFits.Zimage.RiceGuards

/-!
# The PLIO decoder with its guards

The decoder of `zimage/plio.rs` with every word of the stream, every slice of the output
and every integer of 32 or 64 bits guarded (`Outcome`).  It agrees with the plain decoder
where the output can be allocated.
-/

namespace RustFits.Zimage.Plio

open Ascii ByteFile Machine BigEndian Outcome

namespace Guarded

/-- The word with this index. -/
def wordAt (compressed : Bytes) (i : Nat) : Outcome PyErr Int := do
  let high ← getAt compressed (2 * i)
  let low ← getAt compressed (2 * i + 1)
  .ok (toSigned 16 (fromBe [high, low]))

/-- The decode loop at the word `ip`. -/
def decodeLoop (compressed : Bytes) (nPixels lllen : Nat) :
    Nat → Nat → Bool → Int → Int → Nat → List Int → Outcome PyErr (List Int)
  | 0, _, _, _, _, _, _ => .fault
  | fuel + 1, ip, skipwd, x1, pv, op, output =>
    if ip < lllen ∧ x1 ≤ nPixels then
      if skipwd then decodeLoop compressed nPixels lllen fuel (ip + 1) false x1 pv op output
      else do
        let w ← wordAt compressed ip
        let opcode := asU16 w / 4096
        let data := asU16 w % 4096
        if opcode = 0 ∨ opcode = 4 ∨ opcode = 5 then do
          let x2 ← signed 63 (x1 + data)
          let x2 ← signed 63 (x2 - 1)
          let i2 := min x2 nPixels
          let np ← signed 63 (i2 - max x1 1)
          let np ← signed 63 (np + 1)
          let next ← signed 63 (x2 + 1)
          if 0 < np then
            if nPixels ≤ op + np.toNat - 1 then
              .error (.value (overflowMessage opcode op np.toNat nPixels))
            else do
              let output ← putAt output op (runPixels opcode np.toNat pv (decide (i2 = x2)))
              decodeLoop compressed nPixels lllen fuel (ip + 1) false next pv (op + np.toNat) output
          else decodeLoop compressed nPixels lllen fuel (ip + 1) false next pv op output
        else if opcode = 1 then
          if lllen ≤ ip + 1 then
            .error (.value (str "PLIO_1: SH opcode at end of stream (no following data word)"))
          else do
            let word ← wordAt compressed (ip + 1)
            let high ← signed 31 (word * 4096)
            let pv ← signed 31 (high + data)
            decodeLoop compressed nPixels lllen fuel (ip + 1) true x1 pv op output
        else if opcode = 2 then
          decodeLoop compressed nPixels lllen fuel (ip + 1) false x1 (asI32 (pv + data)) op output
        else if opcode = 3 then
          decodeLoop compressed nPixels lllen fuel (ip + 1) false x1 (asI32 (pv - data)) op output
        else if opcode = 6 ∨ opcode = 7 then do
          let pv := asI32 (if opcode = 6 then pv + data else pv - data)
          let next ← signed 63 (x1 + 1)
          if nPixels ≤ op then
            .error (.value (if opcode = 6 then str "PLIO_1: PS overflow"
              else str "PLIO_1: MS overflow"))
          else do
            let output ← putAt output op [pv]
            decodeLoop compressed nPixels lllen fuel (ip + 1) false next pv (op + 1) output
        else
          .error (.value (str "PLIO_1: unknown opcode " ++ natDec opcode ++ str " at word index " ++
            natDec ip))
    else .ok output

/-- The length of the stream in words and the index of its first data word. -/
def streamExtent (compressed : Bytes) : Outcome PyErr (Nat × Nat) := do
  let header2 ← wordAt compressed 2
  if 0 < header2 then .ok (header2.toNat, 3)
  else do
    let w3 ← wordAt compressed 3
    let w4 ← wordAt compressed 4
    let upper ← signed 31 (w4 * 32768)
    let lllen ← signed 31 (upper + w3 % 32768)
    if lllen < 0 then .error (.value (str "PLIO_1: negative computed stream length"))
    else do
      let w1 ← wordAt compressed 1
      if w1 < 0 then .error (.value (str "PLIO_1: negative header data-offset"))
      else .ok (lllen.toNat, w1.toNat)

/-- The pixels of a stream, before the cast. -/
def decodeWords (compressed : Bytes) (nPixels : Nat) : Outcome PyErr (List Int) :=
  let nWords := compressed.length / 2
  if nWords < 7 then
    .error (.value (str "PLIO_1: header truncated (need 7 shorts, got " ++ natDec nWords ++
      str ")"))
  else do
    let (lllen, llfirt) ← streamExtent compressed
    if nWords < lllen then
      .error (.value (str "PLIO_1: header claims " ++ natDec lllen ++ str " shorts but only " ++
        natDec nWords ++ str " are present"))
    else if lllen < llfirt then
      .error (.value (str "PLIO_1: header offset " ++ natDec llfirt ++ str " is past stream end " ++
        natDec lllen))
    else do
      allocate nPixels 4
      decodeLoop compressed nPixels lllen (lllen - llfirt + 1) llfirt false 1 1 0
        (List.replicate nPixels 0)

/-- `decode_plio`. -/
def decodePlio (littleEndian : Bool) (compressed : Bytes) (nPixels bytepix : Nat) (zbitpix : Int) :
    Outcome PyErr Bytes :=
  if ¬ (zbitpix = 8 ∨ zbitpix = 16 ∨ zbitpix = 32) then
    .error (.value (str "PLIO_1: unsupported ZBITPIX " ++ intDec zbitpix ++
      str " (must be 8, 16, or 32)"))
  else if ¬ (bytepix = 1 ∨ bytepix = 2 ∨ bytepix = 4) then
    .error (.value (str "PLIO_1: unsupported bytepix " ++ natDec bytepix ++
      str " (must be 1, 2, or 4)"))
  else if compressed.length % 2 ≠ 0 then
    .error (.value (str "PLIO_1: compressed payload is " ++ natDec compressed.length ++
      str " bytes (must be even " ++ [0xE2, 0x80, 0x94] ++ str " stream is i16 shorts)"))
  else do
    let output ← decodeWords compressed nPixels
    allocate output.length bytepix
    ofExcept (castI32ToTargetBytes littleEndian output bytepix zbitpix)

end Guarded

theorem Guarded.wordAt_eq {compressed : Bytes} {i : Nat} (h : 2 * i + 1 < compressed.length) :
    Guarded.wordAt compressed i = .ok (Plio.wordAt compressed i) := by
  have hslice :
      slice compressed (2 * i) 2 = [compressed.getD (2 * i) 0, compressed.getD (2 * i + 1) 0] := by
    rw [slice, List.drop_eq_getElem_cons (show 2 * i < compressed.length by omega),
      List.take_succ_cons,
      List.drop_eq_getElem_cons h, List.take_succ_cons, List.take_zero, List.getD_eq_getElem _ _ h,
      List.getD_eq_getElem _ _ (show 2 * i < compressed.length by omega)]
  rw [Guarded.wordAt, getAt_of_lt (by omega) 0, ok_bind, getAt_of_lt h 0, ok_bind,
    Plio.wordAt, hslice]

theorem wordAt_range (compressed : Bytes) (i : Nat) :
    -32768 ≤ Plio.wordAt compressed i ∧ Plio.wordAt compressed i < 32768 := by
  have hlt : fromBe (slice compressed (2 * i) 2) < 256 ^ 2 :=
    fromBe_lt (by rw [slice_length]; omega)
  unfold Plio.wordAt toSigned
  split_ifs <;> omega

theorem overwrite_length {output pixels : List Int} {op : Nat}
    (h : op + pixels.length ≤ output.length) :
    (overwrite output op pixels).length = output.length := by
  unfold overwrite
  rw [List.length_append, List.length_append, List.length_take, List.length_drop]
  omega

theorem Guarded.putAt_overwrite {output pixels : List Int} {op : Nat}
    (h : op + pixels.length ≤ output.length) :
    (putAt output op pixels : Outcome PyErr (List Int)) = .ok (overwrite output op pixels) :=
  putAt_of_le h

/-- The loop at the word `ip` is the plain one over the words that are left. -/
theorem Guarded.decodeLoop_agrees {compressed : Bytes} {nPixels lllen : Nat}
    (hfits : nPixels * 4 ≤ isizeMax) (hwords : lllen ≤ compressed.length / 2) :
    ∀ (fuel ip : Nat) (skipwd : Bool) (x1 pv : Int) (op : Nat) (output : List Int),
      ip + fuel = lllen →
      1 ≤ x1 → x1 ≤ (nPixels : Int) + 4096 → output.length = nPixels →
      Agrees (fun out => out.length = nPixels)
        (Guarded.decodeLoop compressed nPixels lllen (fuel + 1) ip skipwd x1 pv op output)
        (Plio.decodeLoop nPixels ((List.range' ip fuel).map (Plio.wordAt compressed)) ip
          skipwd x1 pv op
          output) := by
  unfold isizeMax at hfits
  intro fuel
  induction fuel with
  | zero =>
    intro ip skipwd x1 pv op output hip _ _ hlen
    rw [Guarded.decodeLoop, if_neg (by omega), List.range'_zero, List.map_nil, Plio.decodeLoop]
    exact .ok hlen
  | succ fuel ih =>
    intro ip skipwd x1 pv op output hip hx1 hx1' hlen
    rw [Guarded.decodeLoop, List.range'_succ, List.map_cons, Plio.decodeLoop]
    by_cases hdone : (nPixels : Int) < x1
    · rw [if_neg (by omega), if_pos hdone]
      exact .ok hlen
    rw [if_pos ⟨by omega, by omega⟩, if_neg hdone]
    cases skipwd with
    | true =>
      rw [if_pos rfl, if_pos rfl]
      exact ih (ip + 1) false x1 pv op output (by omega) hx1 hx1' hlen
    | false =>
      rw [if_neg (by decide), if_neg (by decide), wordAt_eq (by omega), ok_bind]
      dsimp only
      have hdata : asU16 (Plio.wordAt compressed ip) % 4096 < 4096 := Nat.mod_lt _ (by decide)
      generalize asU16 (Plio.wordAt compressed ip) / 4096 = opcode
      generalize asU16 (Plio.wordAt compressed ip) % 4096 = data at hdata ⊢
      by_cases hrun : opcode = 0 ∨ opcode = 4 ∨ opcode = 5
      · rw [if_pos hrun, if_pos hrun, signed_of_range (by omega), ok_bind,
          signed_of_range (by omega), ok_bind]
        generalize hi2 : min (x1 + data - 1) (nPixels : Int) = i2
        rw [signed_of_range (by omega), ok_bind, signed_of_range (by omega), ok_bind,
          signed_of_range (by omega), ok_bind]
        by_cases hsome : 0 < i2 - max x1 1 + 1
        · have hnp : 0 < (i2 - max x1 1 + 1).toNat := by omega
          rw [if_pos hsome, if_pos hnp]
          by_cases hover : nPixels ≤ op + (i2 - max x1 1 + 1).toNat - 1
          · rw [if_pos hover, if_pos hover]
            exact .error _
          · have hroom : op + (runPixels opcode (i2 - max x1 1 + 1).toNat pv
                (decide (i2 = x1 + data - 1))).length ≤ output.length := by
              rw [runPixels_length _ _ fun _ => hnp]
              omega
            rw [if_neg hover, if_neg hover, putAt_overwrite hroom, ok_bind]
            exact ih (ip + 1) false _ pv _ _ (by omega) (by omega) (by omega)
              ((overwrite_length hroom).trans hlen)
        · rw [if_neg hsome, if_neg (by omega)]
          exact ih (ip + 1) false _ pv op output (by omega) (by omega) (by omega) hlen
      rw [if_neg hrun, if_neg hrun]
      by_cases hset : opcode = 1
      · rw [if_pos hset, if_pos hset]
        cases fuel with
        | zero =>
          rw [if_pos (by omega)]
          exact .error _
        | succ fuel =>
          obtain ⟨hlow, hhigh⟩ := wordAt_range compressed (ip + 1)
          rw [if_neg (by omega), wordAt_eq (by omega), ok_bind, signed_of_range (by omega), ok_bind,
            signed_of_range (by omega), ok_bind]
          exact ih (ip + 1) true x1 _ op output (by omega) hx1 hx1' hlen
      rw [if_neg hset, if_neg hset]
      by_cases hup : opcode = 2
      · rw [if_pos hup, if_pos hup]
        exact ih (ip + 1) false x1 _ op output (by omega) hx1 hx1' hlen
      rw [if_neg hup, if_neg hup]
      by_cases hdown : opcode = 3
      · rw [if_pos hdown, if_pos hdown]
        exact ih (ip + 1) false x1 _ op output (by omega) hx1 hx1' hlen
      rw [if_neg hdown, if_neg hdown]
      by_cases hsix : opcode = 6
      · rw [if_pos (Or.inl hsix), if_pos hsix, if_pos hsix, if_pos hsix,
          signed_of_range (by omega), ok_bind]
        by_cases hfull : nPixels ≤ op
        · rw [if_pos hfull, if_pos hfull]
          exact .error _
        · have hroom : op + [asI32 (pv + data)].length ≤ output.length := by
            rw [List.length_singleton]
            omega
          rw [if_neg hfull, if_neg hfull, putAt_overwrite hroom, ok_bind]
          exact ih (ip + 1) false _ _ _ _ (by omega) (by omega) (by omega)
            ((overwrite_length hroom).trans hlen)
      by_cases hseven : opcode = 7
      · rw [if_pos (Or.inr hseven), if_neg hsix, if_neg hsix, if_neg hsix, if_pos hseven,
          signed_of_range (by omega), ok_bind]
        by_cases hfull : nPixels ≤ op
        · rw [if_pos hfull, if_pos hfull]
          exact .error _
        · have hroom : op + [asI32 (pv - data)].length ≤ output.length := by
            rw [List.length_singleton]
            omega
          rw [if_neg hfull, if_neg hfull, putAt_overwrite hroom, ok_bind]
          exact ih (ip + 1) false _ _ _ _ (by omega) (by omega) (by omega)
            ((overwrite_length hroom).trans hlen)
      · rw [if_neg (by omega), if_neg hsix, if_neg hseven]
        exact .error _

theorem Guarded.streamExtent_agrees {compressed : Bytes} (h : 7 ≤ compressed.length / 2) :
    Agrees (fun _ => True) (Guarded.streamExtent compressed) (Plio.streamExtent compressed) := by
  unfold Guarded.streamExtent Plio.streamExtent
  rw [wordAt_eq (by omega), ok_bind]
  by_cases hold : 0 < Plio.wordAt compressed 2
  · rw [if_pos hold, if_pos hold]
    exact .ok trivial
  obtain ⟨hlow, hhigh⟩ := wordAt_range compressed 4
  rw [if_neg hold, if_neg hold, wordAt_eq (by omega), ok_bind, wordAt_eq (by omega), ok_bind,
    signed_of_range (by omega), ok_bind, signed_of_range (by omega), ok_bind]
  dsimp only
  by_cases hneg : Plio.wordAt compressed 4 * 32768 + Plio.wordAt compressed 3 % 32768 < 0
  · rw [if_pos hneg, if_pos hneg]
    exact .error _
  rw [if_neg hneg, if_neg hneg, wordAt_eq (by omega), ok_bind]
  by_cases hoffset : Plio.wordAt compressed 1 < 0
  · rw [if_pos hoffset, if_pos hoffset]
    exact .error _
  · rw [if_neg hoffset, if_neg hoffset]
    exact .ok trivial

/-- The stream header is refused: the words are not whole or too few, or the header does
not give an extent inside the words. -/
def HeaderRefused (compressed : Bytes) : Prop :=
  compressed.length % 2 ≠ 0 ∨ compressed.length / 2 < 7 ∨
    match streamExtent compressed with
    | .error _ => True
    | .ok (lllen, llfirt) => compressed.length / 2 < lllen ∨ lllen < llfirt

theorem Guarded.decodeWords_agrees {compressed : Bytes} {nPixels : Nat}
    (hfits : HeaderRefused compressed ∨ nPixels * 4 ≤ isizeMax)
    (heven : compressed.length % 2 = 0) :
    Agrees (fun out => out.length = nPixels ∧ nPixels * 4 ≤ isizeMax)
      (Guarded.decodeWords compressed nPixels)
      (Plio.decodeWords compressed nPixels) := by
  unfold Guarded.decodeWords Plio.decodeWords
  dsimp only
  by_cases hshort : compressed.length / 2 < 7
  · rw [if_pos hshort, if_pos hshort]
    exact .error _
  have hextent := streamExtent_agrees (Nat.not_lt.1 hshort)
  rw [if_neg hshort, if_neg hshort, hextent.eq]
  unfold HeaderRefused at hfits
  cases hx : Plio.streamExtent compressed with
  | error e => exact .error e
  | ok x =>
    obtain ⟨lllen, llfirt⟩ := x
    rw [hx] at hfits
    rw [ofExcept_ok, ok_bind]
    dsimp only at hfits ⊢
    by_cases hmore : compressed.length / 2 < lllen
    · rw [if_pos hmore, if_pos hmore]
      exact .error _
    rw [if_neg hmore, if_neg hmore]
    by_cases hback : lllen < llfirt
    · rw [if_pos hback, if_pos hback]
      exact .error _
    have hroom : nPixels * 4 ≤ isizeMax := by
      rcases hfits with (hodd | hfew | hmore' | hback') | hroom
      · exact absurd heven hodd
      · exact absurd hfew hshort
      · exact absurd hmore' hmore
      · exact absurd hback' hback
      · exact hroom
    rw [if_neg hback, if_neg hback, allocate_of_le hroom, ok_bind]
    have hloop :=
      decodeLoop_agrees hroom (Nat.not_lt.1 hmore) (lllen - llfirt) llfirt false 1 1 0 _ (by omega)
      (Int.le_refl 1) (by omega) (List.length_replicate (n := nPixels) (a := 0))
    exact hloop.mono fun _ hlen => ⟨hlen, hroom⟩

/-- Where the header is in order and the output cannot be allocated, it is a fault. -/
theorem Guarded.decodeWords_fault {compressed : Bytes} {nPixels : Nat}
    (hhead : ¬ HeaderRefused compressed)
    (hlarge : isizeMax < nPixels * 4) : Guarded.decodeWords compressed nPixels = .fault := by
  obtain ⟨heven, hrest⟩ := not_or.1 hhead
  obtain ⟨hshort, hextent⟩ := not_or.1 hrest
  unfold Guarded.decodeWords
  dsimp only
  rw [if_neg hshort, (streamExtent_agrees (Nat.not_lt.1 hshort)).eq]
  cases hx : Plio.streamExtent compressed with
  | error e =>
    rw [hx] at hextent
    exact absurd trivial hextent
  | ok x =>
    obtain ⟨lllen, llfirt⟩ := x
    rw [hx] at hextent
    obtain ⟨hmore, hback⟩ := not_or.1 hextent
    rw [ofExcept_ok, ok_bind]
    dsimp only
    rw [if_neg hmore, if_neg hback, allocate_of_gt hlarge, fault_bind]

/-- The decoder with its guards does what the plain one does where the header is refused
or the output can be allocated. -/
theorem Guarded.decodePlio_agrees (littleEndian : Bool) {compressed : Bytes} {nPixels : Nat}
    (bytepix : Nat) (zbitpix : Int) (hfits : HeaderRefused compressed ∨ nPixels * 4 ≤ isizeMax) :
    Agrees (fun out => out.length = nPixels * bytepix)
      (Guarded.decodePlio littleEndian compressed nPixels bytepix zbitpix)
      (Plio.decodePlio littleEndian compressed nPixels bytepix zbitpix) := by
  unfold Guarded.decodePlio Plio.decodePlio
  by_cases hz : ¬ (zbitpix = 8 ∨ zbitpix = 16 ∨ zbitpix = 32)
  · rw [if_pos hz, if_pos hz]
    exact .error _
  rw [if_neg hz, if_neg hz]
  by_cases hb : ¬ (bytepix = 1 ∨ bytepix = 2 ∨ bytepix = 4)
  · rw [if_pos hb, if_pos hb]
    exact .error _
  rw [if_neg hb, if_neg hb]
  by_cases hodd : compressed.length % 2 ≠ 0
  · rw [if_pos hodd, if_pos hodd]
    exact .error _
  have heven : compressed.length % 2 = 0 := not_not.1 hodd
  have hwords := decodeWords_agrees hfits heven
  rw [if_neg hodd, if_neg hodd, hwords.eq]
  cases hx : Plio.decodeWords compressed nPixels with
  | error e => exact .error e
  | ok output =>
    obtain ⟨hlen, hfit⟩ := hwords.post output hx
    have hwidth : bytepix ≤ 4 := by omega
    have hroom : output.length * bytepix ≤ isizeMax := by
      rw [hlen]
      exact (Nat.mul_le_mul_left nPixels hwidth).trans hfit
    rw [ofExcept_ok, ok_bind, allocate_of_le hroom, ok_bind]
    unfold castI32ToTargetBytes
    split_ifs with hpair
    · refine .ok ?_
      rw [flatMap_length_of_width fun _ _ => toNeBytes_length littleEndian bytepix _, hlen]
    · exact .error _

/-- An error or the bytes of the pixels, and no fault, exactly where the header is refused
or the output can be allocated. -/
theorem Guarded.decodePlio_errorOrSize_iff (littleEndian : Bool) (compressed : Bytes)
    (nPixels : Nat) {bytepix : Nat} {zbitpix : Int} (hb : bytepix = 1 ∨ bytepix = 2 ∨ bytepix = 4)
    (hz : zbitpix = 8 ∨ zbitpix = 16 ∨ zbitpix = 32) :
    ErrorOrSize (nPixels * bytepix)
      (Guarded.decodePlio littleEndian compressed nPixels bytepix zbitpix) ↔
      HeaderRefused compressed ∨ nPixels * 4 ≤ isizeMax := by
  refine ⟨fun h => ?_, fun hfits =>
    (decodePlio_agrees littleEndian bytepix zbitpix hfits).errorOrSize⟩
  by_contra hfits
  obtain ⟨hhead, hlarge⟩ := not_or.1 hfits
  have heven : ¬ compressed.length % 2 ≠ 0 := (not_or.1 hhead).1
  rw [Guarded.decodePlio, if_neg (not_not.2 hz), if_neg (not_not.2 hb), if_neg heven,
    decodeWords_fault hhead (Nat.not_le.1 hlarge), fault_bind] at h
  exact h

end RustFits.Zimage.Plio

namespace RustFits.Zimage

open ByteFile Outcome

/-- The two decoders on arbitrary streams: an error or the bytes of the pixels, without a
fault, exactly where the vectors for the pixels can be allocated or the stream is refused
before that, and no difference of 64 bits is the least. -/
theorem decoders_errorOrSize_iff (littleEndian : Bool) (compressed : Bytes) (nPixels : Nat) :
    (∀ (bytepix blocksize : Nat) (zbitpix : Int), Rice.PixelWidth bytepix ∨ bytepix = 8 →
        0 < blocksize →
        zbitpix = 8 ∨ zbitpix = 16 ∨ zbitpix = 32 ∨ zbitpix = 64 →
        (ErrorOrSize (nPixels * (zbitpix / 8).toNat)
            (Rice.Guarded.decodeRice littleEndian compressed nPixels bytepix blocksize zbitpix) ↔
          Rice.PixelsFit compressed nPixels bytepix blocksize zbitpix)) ∧
      ∀ (bytepix : Nat) (zbitpix : Int), bytepix = 1 ∨ bytepix = 2 ∨ bytepix = 4 →
        zbitpix = 8 ∨ zbitpix = 16 ∨ zbitpix = 32 →
        (ErrorOrSize (nPixels * bytepix)
            (Plio.Guarded.decodePlio littleEndian compressed nPixels bytepix zbitpix) ↔
          Plio.HeaderRefused compressed ∨ nPixels * 4 ≤ isizeMax) :=
  ⟨fun _ _ _ hw hblock hz =>
      Rice.Guarded.decodeRice_errorOrSize_iff littleEndian compressed hw hblock hz,
    fun _ _ hb hz => Plio.Guarded.decodePlio_errorOrSize_iff littleEndian compressed nPixels hb hz⟩

/-- A short stream and one pixel. -/
theorem decoders_errorOrSize_one :
    (ErrorOrSize (1 * ((32 : Int) / 8).toNat)
        (Rice.Guarded.decodeRice true [0, 0, 0, 0, 0] 1 4 32 32) ↔
        Rice.PixelsFit [0, 0, 0, 0, 0] 1 4 32 32) ∧
      (ErrorOrSize (1 * 4) (Plio.Guarded.decodePlio true [0, 0, 0, 0, 0] 1 4 32) ↔
        Plio.HeaderRefused [0, 0, 0, 0, 0] ∨ 1 * 4 ≤ isizeMax) :=
  ⟨(decoders_errorOrSize_iff true [0, 0, 0, 0, 0] 1).1 4 32 32
      (Or.inl (Or.inr (Or.inr rfl))) (by decide)
      (Or.inr (Or.inr (Or.inl rfl))),
    (decoders_errorOrSize_iff true [0, 0, 0, 0, 0] 1).2 4 32 (Or.inr (Or.inr rfl))
    (Or.inr (Or.inr rfl))⟩

/-- 2^60 pixels of eight bytes, for which no vector can be allocated, and a pixel of 64
bits with the least difference. -/
theorem not_errorOrSize_large :
    ¬ ErrorOrSize (1152921504606846976 * ((64 : Int) / 8).toNat)
        (Rice.Guarded.decodeRice true [0, 0, 0, 0, 0] 1152921504606846976 4 32 64) ∧
      ¬ ErrorOrSize (1 * ((64 : Int) / 8).toNat)
        (Rice.Guarded.decodeRice true (List.replicate 8 0 ++ List.replicate 9 255) 1 8 32 64) := by
  have hlarge : Rice.Guarded.decodeRice true [0, 0, 0, 0, 0] 1152921504606846976 4 32 64 =
      .fault := by decide +kernel
  have hleast :
      Rice.Guarded.decodeRice true (List.replicate 8 0 ++ List.replicate 9 255) 1 8 32 64 =
      .fault := by decide +kernel
  rw [hlarge, hleast]
  exact ⟨id, id⟩

end RustFits.Zimage
