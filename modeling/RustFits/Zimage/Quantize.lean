import RustFits.Lib.ExactFloat
import RustFits.Lib.Machine
import Mathlib.Tactic.Positivity

/-!
# Quantisation of floating-point tiles

`zimage/quantize.rs`, with exact arithmetic (`ExactFloat`) in the place of `f32` and
`f64`, so that the functions for the two types are the same.

* `DitherTable` stands for the table of offsets, `DitherStream` for the offsets that the
  pixels of one tile see.
* `quantize` chooses a scale from the noise of the tile (`noise5`) or takes the one it
  is given, picks a zero point and stores every pixel as an `i32`.
* `dequantize` reads the pixels back, and `requantize` stores pixels with a scale and a
  zero point that the tile already has.
-/

namespace RustFits.Zimage.Quantize

open Machine ExactFloat

def nRandom : Nat := 10000

def nullValueI32 : Int := -2147483647

def zeroValueI32 : Int := -2147483646

def nReservedValues : Int := 10

def i32Min : Int := -2147483648

def i32Max : Int := 2147483647

def i64Max : Int := 9223372036854775807

inductive DitherMethod where
  | noDither
  | subtractiveDither1
  | subtractiveDither2
  deriving DecidableEq, Repr

/-! ## The dither offsets -/

/-- A table of offsets. -/
structure DitherTable where
  offset : Fin nRandom → Rat
  nonneg : ∀ i, 0 ≤ offset i
  lt_one : ∀ i, offset i < 1

/-- The states of the generator behind the table. -/
def lehmer : Nat → Nat
  | 0 => 1
  | n + 1 => 16807 * lehmer n % 2147483647

/-- `random_table`, without the cast of its values to `f32`. -/
def randomTable : DitherTable where
  offset i := lehmer (i.val + 1) / 2147483647
  nonneg i := by positivity
  lt_one i := by
    have hlt : lehmer (i.val + 1) < 2147483647 := Nat.mod_lt _ (by decide)
    rw [div_lt_one (by norm_num)]
    exact_mod_cast hlt

/-- The position in the table that a seed starts from. -/
def DitherTable.start (table : DitherTable) (iseed : Fin nRandom) : Fin nRandom :=
  ⟨⌊table.offset iseed * 500⌋.toNat, by
    have hlt : table.offset iseed * 500 < (500 : Int) := by
      have := table.lt_one iseed
      push_cast
      linarith
    have := Int.floor_lt.2 hlt
    rw [nRandom]
    omega⟩

/-- The state of the stream: the seed and the position of the next offset. -/
structure DitherStream where
  iseed : Fin nRandom
  nextrand : Fin nRandom

/-- The remainder of a number by the length of the table. -/
def seedOf (raw : Int) : Fin nRandom :=
  ⟨(raw % (nRandom : Int)).toNat, by
    have hpos : (0 : Int) < (nRandom : Int) := by decide
    have := Int.emod_lt_of_pos raw hpos
    have := Int.emod_nonneg raw hpos.ne'
    omega⟩

/-- `DitherStream::new`.  The sum wraps. -/
def DitherStream.new (table : DitherTable) (tileRow1based : Nat) (zdither0 : Int) : DitherStream :=
  let iseed := seedOf (asI64 (asU64 (asI64 tileRow1based - 1 + zdither0 - 1)))
  ⟨iseed, table.start iseed⟩

/-- `next_offset`. -/
def DitherStream.nextOffset (table : DitherTable) (s : DitherStream) : Rat × DitherStream :=
  (table.offset s.nextrand,
    if h : s.nextrand.val + 1 = nRandom then
      let iseed := seedOf (s.iseed.val + 1)
      ⟨iseed, table.start iseed⟩
    else ⟨s.iseed, ⟨s.nextrand.val + 1, by omega⟩⟩)

/-- The loops over the pixels of a tile draw one offset for each pixel, also for those
that are stored without one. -/
def perPixel {α β : Type} (table : DitherTable) (f : α → Option Rat → β) :
    Option DitherStream → List α → List β
  | _, [] => []
  | none, v :: rest => f v none :: perPixel table f none rest
  | some s, v :: rest =>
    f v (some (s.nextOffset table).1) :: perPixel table f (some (s.nextOffset table).2) rest

/-! ## Dequantisation -/

/-- The value of a stored pixel with its offset. -/
def ditheredValue (scale zero : ExactFloat) (q : Int) (offset : Option Rat) : ExactFloat :=
  (number q - number (offset.getD 0) + number (1 / 2)) * scale + zero

/-- `dequantize_to_f32`.  A stream stands in every method that dithers. -/
def dequantize (table : DitherTable) (stored : List Int) (scale zero : ExactFloat)
    (method : DitherMethod) (tileRow1based : Nat) (zdither0 : Int) : List ExactFloat :=
  match method with
  | .noDither => stored.map fun q => if q = nullValueI32 then nan else number q * scale + zero
  | .subtractiveDither1 =>
    perPixel table (fun q offset => if q = nullValueI32 then nan
      else ditheredValue scale zero q offset)
      (some (DitherStream.new table tileRow1based zdither0)) stored
  | .subtractiveDither2 =>
    perPixel table (fun q offset =>
        if q = nullValueI32 then nan
        else if q = zeroValueI32 then 0
        else ditheredValue scale zero q offset)
      (some (DitherStream.new table tileRow1based zdither0)) stored

/-! ## The noise of a tile -/

/-- `is_null_f32`: a NaN as the null value stands for every value that is not finite. -/
def isNull (v : ExactFloat) : Option ExactFloat → Bool
  | some nv => if nv = nan then !v.isFinite else decide (Same v nv)
  | none => false

/-- The number of pixels that are not null, with the least and the greatest of them. -/
structure Extent where
  ngood : Nat
  minval : ExactFloat
  maxval : ExactFloat
  deriving DecidableEq, Repr

def Extent.start : Extent := ⟨0, infinite false, infinite true⟩

def Extent.widen (e : Extent) (v : ExactFloat) : Extent :=
  { e with
    minval := if v < e.minval then v else e.minval
    maxval := if e.maxval < v then v else e.maxval }

def Extent.count (e : Extent) (n : Nat) : Extent := { e with ngood := e.ngood + n }

/-- `min_max_f32`. -/
def minMax (array : List ExactFloat) (nullValue : Option ExactFloat) : Extent :=
  array.foldl (fun e v => if isNull v nullValue then e else (e.widen v).count 1) .start

/-- Which of two values a sort puts first.  Values that cannot be compared count as
equal. -/
def sortsBefore (a b : ExactFloat) : Bool := !decide (b < a)

/-- `quick_select_f32`: the element that a sort puts in the middle, the upper one of
two. -/
def quickSelect (arr : List ExactFloat) : ExactFloat :=
  (arr.mergeSort sortsBefore).getD (arr.length / 2) 0

/-- `median_pair_f64`. -/
def medianPair (arr : List ExactFloat) : ExactFloat :=
  let sorted := arr.mergeSort sortsBefore
  (sorted.getD ((arr.length - 1) / 2) 0 + sorted.getD (arr.length / 2) 0) / 2

/-- The differences of three orders, of one row or as medians of the rows. -/
structure Differences where
  second : List ExactFloat
  third : List ExactFloat
  fifth : List ExactFloat

/-- The first eight valid pixels of a row, with the pixels behind them. -/
def firstValid (nullValue : Option ExactFloat) :
    List ExactFloat → List ExactFloat → Extent → List ExactFloat × List ExactFloat × Extent
  | found, [], e => (found, [], e)
  | found, v :: row, e =>
    if found.length = 8 then (found, v :: row, e)
    else if isNull v nullValue then firstValid nullValue found row e
    else firstValid nullValue (found ++ [v]) row ((e.widen v).count 1)

/-- The eight valid pixels before the one that is read. -/
structure Window where
  v1 : ExactFloat
  v2 : ExactFloat
  v3 : ExactFloat
  v4 : ExactFloat
  v5 : ExactFloat
  v6 : ExactFloat
  v7 : ExactFloat
  v8 : ExactFloat

def Window.next (w : Window) (v9 : ExactFloat) : Window :=
  ⟨w.v2, w.v3, w.v4, w.v5, w.v6, w.v7, w.v8, v9⟩

/-- The pixels around the middle one do not differ. -/
def Window.flat (w : Window) : Bool := decide (Same w.v5 w.v6 ∧ Same w.v6 w.v7)

def Window.constant (w : Window) : Bool := decide (Same w.v3 w.v4 ∧ Same w.v4 w.v5) && w.flat

/-- The walk over the valid pixels behind the first eight.  A pixel in a constant region
is counted at once, the others by the differences they give. -/
def walkRow (nullValue : Option ExactFloat) :
    List ExactFloat → Window → Differences → Extent → Differences × Extent
  | [], _, d, e => (d, e)
  | v9 :: row, w, d, e =>
    if isNull v9 nullValue then walkRow nullValue row w d e
    else
      let second := if w.flat then d.second else d.second ++ [(w.v5 - w.v7).abs]
      if w.constant then
        walkRow nullValue row (w.next v9) { d with second } ((e.widen v9).count 1)
      else
        walkRow nullValue row (w.next v9)
          ⟨second, d.third ++ [(2 * w.v5 - w.v3 - w.v7).abs],
            d.fifth ++ [(6 * w.v5 - 4 * w.v3 - 4 * w.v7 + w.v1 + v9).abs]⟩ (e.widen v9)

/-- The medians of one row, added to those of the rows before. -/
def rowMedians (d medians : Differences) : Differences :=
  if d.third = [] then medians
  else
    { second :=
        if 1 < d.second.length then medians.second ++ [quickSelect d.second]
        else if d.second.length = 1 ∧ d.third.length = 1 then medians.second ++ d.second
        else medians.second
      third :=
      medians.third ++ [if 1 < d.third.length then quickSelect d.third else d.third.getD 0 0]
      fifth :=
      medians.fifth ++ [if 1 < d.third.length then quickSelect d.fifth else d.fifth.getD 0 0] }

/-- One row. -/
def noiseRow (nullValue : Option ExactFloat) (acc : Differences × Extent) (row : List ExactFloat) :
    Differences × Extent :=
  match firstValid nullValue [] row acc.2 with
  | ([v1, v2, v3, v4, v5, v6, v7, v8], rest, e) =>
    let walked := walkRow nullValue rest ⟨v1, v2, v3, v4, v5, v6, v7, v8⟩ ⟨[], [], []⟩ e
    (rowMedians walked.1 acc.1, walked.2.count walked.1.third.length)
  | (_, _, e) => (acc.1, e)

structure NoiseStats where
  extent : Extent
  noise2 : ExactFloat
  noise3 : ExactFloat
  noise5 : ExactFloat

/-- The median over the rows. -/
def acrossRows (diffs : List ExactFloat) : ExactFloat :=
  if diffs = [] then 0 else if diffs.length = 1 then diffs.getD 0 0 else medianPair diffs

/-- The rows of an image. -/
def imageRows (array : List ExactFloat) (nx ny : Nat) : List (List ExactFloat) :=
  (List.range ny).map fun jj => (array.drop (jj * nx)).take nx

/-- `noise5_f32`. -/
def noise5 (array : List ExactFloat) (nxIn nyIn : Nat) (nullValue : Option ExactFloat) :
    NoiseStats :=
  let nx := if nxIn < 9 then nxIn * nyIn else nxIn
  let ny := if nxIn < 9 then 1 else nyIn
  if nx < 9 then ⟨minMax (array.take nx) nullValue, 0, 0, 0⟩
  else
    let scanned := (imageRows array nx ny).foldl (noiseRow nullValue) (⟨[], [], []⟩, .start)
    { extent := scanned.2
      noise2 := number (10483579 / 10000000) * acrossRows scanned.1.second
      noise3 := number (6052697 / 10000000) * acrossRows scanned.1.third
      noise5 := number (1772048 / 10000000) * acrossRows scanned.1.fifth }

/-! ## Quantisation -/

/-- `nint`: a NaN fails both comparisons. -/
def nint (x : ExactFloat) : Int :=
  let rounded := if AtMost 0 x then x + number (1 / 2) else x - number (1 / 2)
  if AtMost (number i32Max) rounded then i32Max
  else if AtMost rounded (number i32Min) then i32Min
  else rounded.toInt i32Min i32Max

structure QuantizedTile where
  idata : List Int
  bscale : ExactFloat
  bzero : ExactFloat
  deriving DecidableEq, Repr

/-- The least of the three noise values, but for zeros. -/
def leastNoise (stats : NoiseStats) : ExactFloat :=
  let stdev := stats.noise3
  let stdev := if ¬ Same stats.noise2 0 ∧ stats.noise2 < stdev then stats.noise2 else stdev
  if ¬ Same stats.noise5 0 ∧ stats.noise5 < stdev then stats.noise5 else stdev

/-- The extent of the tile and the scale: from the noise, or as it is given.  A tile of
nulls only gets an extent and a noise of its own. -/
def tileScale (fdata : List ExactFloat) (nxpix nypix : Nat) (nullValue : Option ExactFloat)
    (qlevel : ExactFloat) : Option (Extent × ExactFloat) :=
  if AtMost 0 qlevel then
    let stats := noise5 fdata nxpix nypix nullValue
    let nulls : Bool := nullValue.isSome && decide (stats.extent.ngood = 0)
    let extent := if nulls then { stats.extent with minval := 0, maxval := 1 } else stats.extent
    let stdev := if nulls then 1 else leastNoise stats
    let delta := if Same qlevel 0 then stdev / 4 else stdev / qlevel
    if Same delta 0 then none else some (extent, delta)
  else some (minMax fdata nullValue, -qlevel)

/-- The zero point.  With nulls, or with zeros of their own, the least pixel comes to lie
above the reserved values.  Otherwise the zero point is a multiple of the scale, or the
middle of a tile that nearly fills the range. -/
def zeroPoint (extent : Extent) (nx : Nat) (delta : ExactFloat) (method : DitherMethod) :
    ExactFloat :=
  if extent.ngood = nx then
    if method = .subtractiveDither2 then
      extent.minval - delta * (number nullValueI32 + number nReservedValues)
    else if (extent.maxval - extent.minval) / delta < number i32Max - number nReservedValues then
      number ((extent.minval / delta + number (1 / 2)).toInt i64Min i64Max) * delta
    else (extent.minval + extent.maxval) / 2
  else extent.minval - delta * (number nullValueI32 + number nReservedValues)

/-- A pixel as it is stored. -/
def quantizePixel (needsNullCheck : Bool) (nullValue : Option ExactFloat) (method : DitherMethod)
    (delta zeropt v : ExactFloat) (offset : Option Rat) : Int :=
  if needsNullCheck && isNull v nullValue then nullValueI32
  else if method = .subtractiveDither2 ∧ Same v 0 then zeroValueI32
  else
    match offset with
    | some offset => nint ((v - zeropt) / delta + number offset - number (1 / 2))
    | none => nint ((v - zeropt) / delta)

/-- The stream of a tile.  Row 0 stands for no dithering, whatever the method. -/
def ditherOf (table : DitherTable) (row1based : Nat) (ditherSeed : Int) : Option DitherStream :=
  if 0 < row1based then some (DitherStream.new table row1based ditherSeed) else none

/-- The common text of `quantize_float` and `quantize_double`. -/
def quantize (table : DitherTable) (fdata : List ExactFloat) (nxpix nypix : Nat)
    (nullValue : Option ExactFloat) (qlevel : ExactFloat) (method : DitherMethod) (row1based : Nat)
    (ditherSeed : Int) : Option QuantizedTile :=
  let nx := nxpix * nypix
  if nx ≤ 1 then none
  else
    match tileScale fdata nxpix nypix nullValue qlevel with
    | none => none
    | some (extent, delta) =>
      if 2 * number i32Max - number nReservedValues <
        (extent.maxval - extent.minval) / delta then none
      else
        let zeropt := zeroPoint extent nx delta method
        some {
          idata := perPixel table
            (quantizePixel (decide (extent.ngood ≠ nx)) nullValue method delta zeropt)
            (ditherOf table row1based ditherSeed) (fdata.take nx)
          bscale := delta
          bzero := zeropt }

/-! ## Quantisation with a given scale -/

/-- The errors of a requantisation, with the values that their messages show. -/
inductive RequantizeError where
  | invalidBscale (bscale : ExactFloat)
  | outOfRange (pixelIdx : Nat) (value : ExactFloat) (quantized loLegal hiLegal : Int)
      (bscale bzero : ExactFloat)
  deriving DecidableEq, Repr

/-- A pixel as it is stored, with its position in the tile. -/
def requantizePixel (bscale bzero : ExactFloat) (method : DitherMethod) (i : Nat) (v : ExactFloat)
    (offset : Option Rat) : Except RequantizeError Int :=
  let loLegal := i32Min + nReservedValues
  let hiLegal := i32Max
  if isNull v (some nan) then .ok nullValueI32
  else if method = .subtractiveDither2 ∧ Same v 0 then .ok zeroValueI32
  else
    let unscaled := (v - bzero) / bscale
    let q :=
      match offset with
      | some offset => (unscaled + number offset - number (1 / 2)).round.toInt i64Min i64Max
      | none => unscaled.round.toInt i64Min i64Max
    if q < loLegal ∨ hiLegal < q then .error (.outOfRange i v q loLegal hiLegal bscale bzero)
    else .ok q

/-- The common text of `requantize_float_fixed_scale` and
`requantize_double_fixed_scale`. -/
def requantize (table : DitherTable) (fdata : List ExactFloat) (bscale bzero : ExactFloat)
    (method : DitherMethod) (row1based : Nat) (ditherSeed : Int) :
    Except RequantizeError (List Int) :=
  if Same bscale 0 ∨ bscale.isFinite = false then .error (.invalidBscale bscale)
  else
    (perPixel table (fun (v : ExactFloat × Nat) offset =>
      requantizePixel bscale bzero method v.2 v.1 offset)
      (ditherOf table row1based ditherSeed) fdata.zipIdx).mapM id

/-! ## The two types -/

def quantizeFloat := quantize

def quantizeDouble := quantize

def dequantizeToF32 := dequantize

def dequantizeToF64 := dequantize

def requantizeFloatFixedScale := requantize

def requantizeDoubleFixedScale := requantize

/-- The types of pixels. -/
inductive Precision where
  | float
  | double
  deriving DecidableEq, Repr

namespace Precision

def quantize :
    Precision → DitherTable → List ExactFloat → Nat → Nat → Option ExactFloat → ExactFloat →
    DitherMethod → Nat → Int → Option QuantizedTile
  | float => quantizeFloat
  | double => quantizeDouble

def dequantize :
    Precision → DitherTable → List Int → ExactFloat → ExactFloat → DitherMethod → Nat → Int →
    List ExactFloat
  | float => dequantizeToF32
  | double => dequantizeToF64

def requantize :
    Precision → DitherTable → List ExactFloat → ExactFloat → ExactFloat → DitherMethod →
    Nat → Int → Except RequantizeError (List Int)
  | float => requantizeFloatFixedScale
  | double => requantizeDoubleFixedScale

end Precision

end RustFits.Zimage.Quantize
