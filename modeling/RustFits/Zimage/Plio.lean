import RustFits.Parse
import RustFits.Lib.BigEndian

/-!
# The PLIO codec

`zimage/plio.rs`: pixel lists as a stream of 16-bit words, an opcode in the top
four bits and data in the other twelve.

* `decodePlio` reads the stream header and runs the words (`decodeLoop`).
* `encodePlioI32` walks the pixels (`encodeLoop`) and emits the words of one run of
  equal pixels at a time, with the zeros in front of it (`runWords`).

A word is the integer that an `i16` holds, a cast is `asI16` or `asI32`.
-/

namespace RustFits.Zimage.Plio

open Ascii ByteFile Machine BigEndian

/-! ## Decoding -/

/-- The big-endian word with this index. -/
def wordAt (compressed : Bytes) (i : Nat) : Int := toSigned 16 (fromBe (slice compressed (2 * i) 2))

/-- Write pixels over the output from `op` on. -/
def overwrite (output : List Int) (op : Nat) (pixels : List Int) : List Int :=
  output.take op ++ pixels ++ output.drop (op + pixels.length)

/-- The pixels of a run word: zeros, the value, or zeros with the value at the end
of a run that is not cut. -/
def runPixels (opcode np : Nat) (pv : Int) (whole : Bool) : List Int :=
  if opcode = 4 then List.replicate np pv
  else if opcode = 5 && whole then List.replicate (np - 1) 0 ++ [pv]
  else List.replicate np 0

def overflowMessage (opcode op np nPixels : Nat) : Str :=
  str "PLIO_1: decoded output overflow at opcode " ++ natDec opcode ++ str " (op=" ++ natDec op ++
    str ", np=" ++ natDec np ++ str ", n_pixels=" ++ natDec nPixels ++ str ")"

/-- The decode loop over the words from `ip` on: `x1` counts pixels from one, `pv`
is the high value, `op` the place in the output, `skipwd` says that the word is
the second one of a set-high. -/
def decodeLoop (nPixels : Nat) :
    List Int → Nat → Bool → Int → Int → Nat → List Int → Except PyErr (List Int)
  | [], _, _, _, _, _, output => .ok output
  | w :: ws, ip, skipwd, x1, pv, op, output =>
    if (nPixels : Int) < x1 then .ok output
    else if skipwd then decodeLoop nPixels ws (ip + 1) false x1 pv op output
    else
      let opcode := asU16 w / 4096
      let data := asU16 w % 4096
      if opcode = 0 ∨ opcode = 4 ∨ opcode = 5 then
        let x2 : Int := x1 + data - 1
        let i2 := min x2 nPixels
        let np := (i2 - max x1 1 + 1).toNat
        if 0 < np then
          if nPixels ≤ op + np - 1 then
            .error (.value (overflowMessage opcode op np nPixels))
          else
            decodeLoop nPixels ws (ip + 1) false (x2 + 1) pv (op + np)
              (overwrite output op (runPixels opcode np pv (decide (i2 = x2))))
        else decodeLoop nPixels ws (ip + 1) false (x2 + 1) pv op output
      else if opcode = 1 then
        match ws with
        | [] => .error (.value
            (str "PLIO_1: SH opcode at end of stream (no following data word)"))
        | next :: _ => decodeLoop nPixels ws (ip + 1) true x1 (next * 4096 + data) op output
      else if opcode = 2 then
        decodeLoop nPixels ws (ip + 1) false x1 (asI32 (pv + data)) op output
      else if opcode = 3 then
        decodeLoop nPixels ws (ip + 1) false x1 (asI32 (pv - data)) op output
      else if opcode = 6 then
        if nPixels ≤ op then .error (.value (str "PLIO_1: PS overflow"))
        else
          decodeLoop nPixels ws (ip + 1) false (x1 + 1) (asI32 (pv + data)) (op + 1)
            (overwrite output op [asI32 (pv + data)])
      else if opcode = 7 then
        if nPixels ≤ op then .error (.value (str "PLIO_1: MS overflow"))
        else
          decodeLoop nPixels ws (ip + 1) false (x1 + 1) (asI32 (pv - data)) (op + 1)
            (overwrite output op [asI32 (pv - data)])
      else
        .error (.value (str "PLIO_1: unknown opcode " ++ natDec opcode ++ str " at word index " ++
          natDec ip))

/-- The length of the stream in words and the index of its first data word. -/
def streamExtent (compressed : Bytes) : Except PyErr (Nat × Nat) :=
  if 0 < wordAt compressed 2 then .ok ((wordAt compressed 2).toNat, 3)
  else
    let lllen := wordAt compressed 4 * 32768 + wordAt compressed 3 % 32768
    if lllen < 0 then .error (.value (str "PLIO_1: negative computed stream length"))
    else if wordAt compressed 1 < 0 then
      .error (.value (str "PLIO_1: negative header data-offset"))
    else .ok (lllen.toNat, (wordAt compressed 1).toNat)

/-- `cast_i32_to_target_bytes`. -/
def castI32ToTargetBytes (littleEndian : Bool) (a : List Int) (bytepix : Nat) (zbitpix : Int) :
    Except PyErr Bytes :=
  if (bytepix = 1 ∧ zbitpix = 8) ∨ (bytepix = 2 ∧ zbitpix = 16) ∨ (bytepix = 4 ∧ zbitpix = 32) then
    .ok (a.flatMap (toNeBytes littleEndian bytepix))
  else
    .error (.value (str "PLIO_1 cast i32" ++ [0xE2, 0x86, 0x92] ++
      str "target: unsupported (bytepix=" ++ natDec bytepix ++ str ", zbitpix=" ++ intDec zbitpix ++
      str ")"))

/-- The pixels of a stream, before the cast. -/
def decodeWords (compressed : Bytes) (nPixels : Nat) : Except PyErr (List Int) :=
  let nWords := compressed.length / 2
  if nWords < 7 then
    .error (.value (str "PLIO_1: header truncated (need 7 shorts, got " ++ natDec nWords ++
      str ")"))
  else
    match streamExtent compressed with
    | .error e => .error e
    | .ok (lllen, llfirt) =>
      if nWords < lllen then
        .error (.value (str "PLIO_1: header claims " ++ natDec lllen ++ str " shorts but only " ++
          natDec nWords ++ str " are present"))
      else if lllen < llfirt then
        .error (.value (str "PLIO_1: header offset " ++ natDec llfirt ++
          str " is past stream end " ++ natDec lllen))
      else
        decodeLoop nPixels ((List.range' llfirt (lllen - llfirt)).map (wordAt compressed)) llfirt
          false 1 1 0 (List.replicate nPixels 0)

/-- `decode_plio`. -/
def decodePlio (littleEndian : Bool) (compressed : Bytes) (nPixels bytepix : Nat) (zbitpix : Int) :
    Except PyErr Bytes :=
  if ¬ (zbitpix = 8 ∨ zbitpix = 16 ∨ zbitpix = 32) then
    .error (.value (str "PLIO_1: unsupported ZBITPIX " ++ intDec zbitpix ++
      str " (must be 8, 16, or 32)"))
  else if ¬ (bytepix = 1 ∨ bytepix = 2 ∨ bytepix = 4) then
    .error (.value (str "PLIO_1: unsupported bytepix " ++ natDec bytepix ++
      str " (must be 1, 2, or 4)"))
  else if compressed.length % 2 ≠ 0 then
    .error (.value (str "PLIO_1: compressed payload is " ++ natDec compressed.length ++
      str " bytes (must be even " ++ [0xE2, 0x80, 0x94] ++ str " stream is i16 shorts)"))
  else
    match decodeWords compressed nPixels with
    | .error e => .error e
    | .ok output => castI32ToTargetBytes littleEndian output bytepix zbitpix

/-! ## Encoding -/

/-- `PLIO_MAX_PV`. -/
def plioMaxPv : Int := 134217727

/-- The loop that cuts a count into pieces of at most 4095.  Every piece takes at
least one, so the count bounds the number of pieces. -/
def pieces : Nat → Nat → List Nat
  | 0, _ => []
  | fuel + 1, remain => if remain = 0 then [] else min remain 4095 :: pieces fuel (remain - 4095)

/-- The words that set the high value. -/
def setWords (pv hi : Int) : List Int :=
  let dv := pv - hi
  if 4095 < dv.natAbs then [asI16 (pv % 4096 + 4096), asI16 (pv / 4096)]
  else if dv < 0 then [asI16 (-dv + 12288)]
  else [asI16 (dv + 8192)]

/-- Change the last word. -/
def modifyLast (f : Int → Int) (words : List Int) : List Int :=
  match words.getLast? with
  | none => words
  | some w => words.dropLast ++ [f w]

/-- The last word with the bit of a single pixel. -/
def orSinglePixel (w : Int) : Int := asI16 (asU16 w ||| 16384 : Nat)

/-- The words of `nz` zeros.  The count is cast to `i32` first. -/
def zeroWords (nz : Nat) : List Int :=
  (pieces (asI32 nz).toNat (asI32 nz).toNat).map fun n : Nat => asI16 (n : Int)

/-- The words of `np` pixels of the high value. -/
def solidWords (np : Nat) : List Int :=
  (pieces (asI32 np).toNat (asI32 np).toNat).map fun n : Nat => asI16 ((n : Int) + 16384)

/-- The words behind the high value: zeros, then the run, where a single pixel goes
into the last word of the zeros. -/
def bodyWords (pv : Int) (np nz : Nat) : List Int :=
  let zeros := zeroWords nz
  if !zeros.isEmpty && decide (np = 1) && decide (0 < pv) then
    modifyLast (fun w => asI16 (w + 20481)) zeros
  else zeros ++ solidWords np

/-- The words of one run: `np` pixels `pv` behind `nz` zeros. -/
def runWords (pv hi : Int) (np nz : Nat) : List Int :=
  if 0 < pv ∧ pv - hi ≠ 0 then
    if np = 1 ∧ nz = 0 then modifyLast orSinglePixel (setWords pv hi)
    else setWords pv hi ++ bodyWords pv np nz
  else bodyWords pv np nz

/-- The loop of the encoder at the pixel `ip`, with the pixels behind it: `pv` is
the value of the current run, `hi` the value set last, `x1` and `iz` the start of
the run and of the zeros in front of it. -/
def encodeLoop : List Int → Nat → Int → Int → Nat → Nat → List Int → List Int
  | [], ip, pv, hi, x1, iz, out =>
    let x1 := if pv = 0 then ip + 1 else x1
    out ++ runWords pv hi (ip + 1 - x1) (x1 - iz)
  | v :: rest, ip, pv, hi, x1, iz, out =>
    let nv := max v 0
    if nv = pv then encodeLoop rest (ip + 1) pv hi x1 iz out
    else if pv = 0 then encodeLoop rest (ip + 1) nv hi (ip + 1) iz out
    else
      encodeLoop rest (ip + 1) nv (if 0 < pv ∧ pv - hi ≠ 0 then pv else hi) (ip + 1) (ip + 1)
        (out ++ runWords pv hi (ip + 1 - x1) (x1 - iz))

/-- The check of one pixel. -/
def checkPixel (i : Nat) (v : Int) : Except PyErr Unit :=
  if v < 0 then
    .error (.value (str "PLIO_1 encode: pixel " ++ natDec i ++ str " = " ++ intDec v ++
      str " is negative; PLIO is only defined for non-negative integer masks"))
  else if plioMaxPv < v then
    .error (.value (str "PLIO_1 encode: pixel " ++ natDec i ++ str " = " ++ intDec v ++
      str " exceeds the PLIO maximum of " ++ intDec plioMaxPv ++ str " (2^27 - 1)"))
  else .ok ()

def checkPixels : Nat → List Int → Except PyErr Unit
  | _, [] => .ok ()
  | i, v :: rest =>
    match checkPixel i v with
    | .error e => .error e
    | .ok _ => checkPixels (i + 1) rest

/-- The data words of a pixel list. -/
def dataWords : List Int → List Int
  | [] => []
  | v :: rest => encodeLoop rest 0 (max v 0) 1 0 0 []

/-- The seven words of the stream header. -/
def headerWords (length : Nat) : List Int :=
  let total := asI32 length
  [0, 7, -100, asI16 (total.tmod 32768), asI16 (total.tdiv 32768), 0, 0]

/-- `shorts_to_be_bytes`. -/
def shortsToBeBytes (shorts : List Int) : Bytes := shorts.flatMap fun s => beBytes 2 (asU16 s)

/-- `encode_plio_i32`. -/
def encodePlioI32 (pixels : List Int) : Except PyErr Bytes :=
  match checkPixels 0 pixels with
  | .error e => .error e
  | .ok _ =>
    let data := dataWords pixels
    .ok (shortsToBeBytes (headerWords (7 + data.length) ++ data))

end RustFits.Zimage.Plio
