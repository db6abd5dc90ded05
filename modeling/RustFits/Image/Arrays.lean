import RustFits.BinaryTable.Cells
import RustFits.Image.Extent
import RustFits.Lib.Binary64

/-!
# Pixel arrays

`hdu_image.rs`: the numpy arrays that an image is written from and read into, and what is
done to their pixels on the way.

* A `NumpyArray` has its elements in memory, in some byte order.  `NumpyArray.element` is
  one of them with its high byte first, as in a file, and the operations of numpy are
  given by what they do to the elements.
* `normalizeInputDtype` and `applyImageScaling` are the conversions in the two directions,
  and `unwrapMaskedInput` fills the masked pixels.

The casts of numpy between integers and floating point are a parameter (`Numpy`).
-/

namespace RustFits.Image

open Ascii ByteFile Machine BigEndian
open BinaryTable (Dtype Double Doubles ScalingKind parseKeywordFloat)

/-! ## Arrays -/

/-- The byte order of a type, as the first letter of its `str`. -/
inductive ByteOrder where
  | little
  | big
  | none
  deriving DecidableEq, Repr

/-- An element in memory with its high byte first, and back. -/
def ByteOrder.toBig (order : ByteOrder) (e : Bytes) : Bytes :=
  match order with
  | .little => e.reverse
  | _ => e

@[simp] theorem ByteOrder.toBig_length (order : ByteOrder) (e : Bytes) :
    (order.toBig e).length = e.length := by
  cases order <;> simp [ByteOrder.toBig]

@[simp] theorem ByteOrder.toBig_toBig (order : ByteOrder) (e : Bytes) :
    order.toBig (order.toBig e) = e := by
  cases order <;> simp [ByteOrder.toBig]

/-- The byte order of the machine. -/
def hostOrder (littleEndian : Bool) (itemsize : Nat) : ByteOrder :=
  if itemsize ≤ 1 then .none else if littleEndian then .little else .big

/-- An array in C order. -/
structure NumpyArray where
  dtype : Dtype
  order : ByteOrder
  shape : List Nat
  buffer : Bytes
  size : buffer.length = shape.prod * dtype.itemsize
  deriving DecidableEq, Repr

/-- Element `k`, its high byte first. -/
def NumpyArray.element (a : NumpyArray) (k : Nat) : Bytes :=
  a.order.toBig (slice a.buffer (k * a.dtype.itemsize) a.dtype.itemsize)

def NumpyArray.elements (a : NumpyArray) : List Bytes := (List.range a.shape.prod).map a.element

/-- An operation on each element, with a result in the byte order of the machine. -/
def NumpyArray.mapElements (littleEndian : Bool) (a : NumpyArray) (dtype : Dtype)
    (f : Bytes → Bytes)
    (hf : ∀ e, e.length = a.dtype.itemsize → (f e).length = dtype.itemsize) : NumpyArray where
  dtype := dtype
  order := hostOrder littleEndian dtype.itemsize
  shape := a.shape
  buffer := RustFits.mapElements a.shape.prod a.dtype.itemsize
    (fun e => (hostOrder littleEndian dtype.itemsize).toBig (f (a.order.toBig e))) a.buffer
  size := mapElements_length (Nat.le_of_eq a.size.symm) fun e he => by
    rw [ByteOrder.toBig_length, hf _ (by rw [ByteOrder.toBig_length, he])]

/-- `filled`: the elements under the mask replaced by one element. -/
def NumpyArray.fill (a : NumpyArray) (mask : List Bool) (e : Bytes)
    (he : e.length = a.dtype.itemsize) :
    NumpyArray where
  dtype := a.dtype
  order := a.order
  shape := a.shape
  buffer := (List.range a.shape.prod).flatMap fun k =>
    if mask.getD k false then a.order.toBig e
      else slice a.buffer (k * a.dtype.itemsize) a.dtype.itemsize
  size := elements_length fun k hk => by
    split_ifs
    · rw [ByteOrder.toBig_length, he]
    · exact slice_element_length (Nat.le_of_eq a.size.symm) hk

section

variable {a : NumpyArray} {k : Nat}

theorem NumpyArray.element_length (hk : k < a.shape.prod) :
    (a.element k).length = a.dtype.itemsize := by
  rw [NumpyArray.element, ByteOrder.toBig_length,
    slice_element_length (Nat.le_of_eq a.size.symm) hk]

theorem NumpyArray.element_mapElements {littleEndian : Bool} {dtype : Dtype} {f : Bytes → Bytes}
    {hf : ∀ e, e.length = a.dtype.itemsize → (f e).length = dtype.itemsize}
    (hk : k < a.shape.prod) :
    (a.mapElements littleEndian dtype f hf).element k = f (a.element k) := by
  have hslice := @slice_mapElements
    (fun e => (hostOrder littleEndian dtype.itemsize).toBig (f (a.order.toBig e)))
    a.shape.prod a.dtype.itemsize dtype.itemsize a.buffer (Nat.le_of_eq a.size.symm)
    (fun e he => by rw [ByteOrder.toBig_length, hf _ (by rw [ByteOrder.toBig_length, he])]) k hk
  unfold NumpyArray.element NumpyArray.mapElements
  dsimp only
  rw [hslice, ByteOrder.toBig_toBig]

end

/-- A value that Python passes in. -/
inductive PyScalar where
  | int (v : Int)
  | float (v : Double)
  deriving DecidableEq, Repr

/-! ## Pixel types -/

/-- The numpy type of a BITPIX. -/
def pixelDtype (bitpix : Int) : Dtype :=
  ⟨if bitpix < 0 then 0x66 else if bitpix = 8 then 0x75 else 0x69, bitpix.natAbs / 8⟩

/-- `bitpix_to_native_dtype` and `bitpix_to_numpy_kind`. -/
def bitpixToNativeDtype (bitpix : Int) : Except PyErr Dtype :=
  if bitpix ∈ [8, 16, 32, 64, (-32 : Int), -64] then .ok (pixelDtype bitpix)
  else .error (.value (str "unsupported BITPIX " ++ intDec bitpix))

/-- The BZERO of the unsigned trick. -/
def trickOffset (bitpix : Int) : Option Double :=
  if bitpix = 8 then some 0xC060000000000000
  else if bitpix = 16 then some 0x40E0000000000000
  else if bitpix = 32 then some 0x41E0000000000000
  else if bitpix = 64 then some 0x43E0000000000000
  else none

/-- `image_scaling_kind`. -/
def imageScalingKind (bitpix : Int) (bscale bzero : Double) : ScalingKind :=
  if bscale = BinaryTable.Double.one ∧ bzero.isZero then .none
  else if bscale = BinaryTable.Double.one ∧ trickOffset bitpix = some bzero then .unsignedTrick
  else .general

/-- `parse_bscale_bzero`. -/
def parseBscaleBzero (doubles : Doubles) (cards : List Card) : Double × Double :=
  ((parseKeywordFloat doubles cards (str "BSCALE")).getD BinaryTable.Double.one,
    (parseKeywordFloat doubles cards (str "BZERO")).getD 0)

/-- `scaled_image_dtype`: the type of the unsigned trick. -/
def trickDtype (bitpix : Int) : Dtype := ⟨if bitpix = 8 then 0x69 else 0x75, bitpix.natAbs / 8⟩

def f8 : Dtype := ⟨0x66, 8⟩

/-- The exclusive or with the sign bit. -/
def flipSign : Bytes → Bytes
  | [] => []
  | b :: rest => (b ^^^ 0x80) :: rest

@[simp] theorem flipSign_length (e : Bytes) : (flipSign e).length = e.length := by
  cases e <;> rfl

@[simp] theorem flipSign_flipSign (e : Bytes) : flipSign (flipSign e) = e := by
  cases e with
  | nil => rfl
  | cons b rest => simp only [flipSign, UInt8.xor_assoc, UInt8.xor_self, UInt8.xor_zero]

/-- What numpy does with floating point.  `storedElement` is the rounded
`(physical - bzero) / bscale`, and `checkStored` the tests of it on the whole array. -/
structure Numpy where
  doubles : Doubles
  cast : PyScalar → Dtype → Except PyErr Bytes
  extractFloat : PyScalar → Nat → Except PyErr Bytes
  storedElement : Int → Double → Double → Bytes → Bytes
  checkStored : Int → Double → Double → List Bytes → Except PyErr Unit
  cast_length : ∀ {v dtype e}, cast v dtype = .ok e → e.length = dtype.itemsize
  extractFloat_length : ∀ {v width e}, extractFloat v width = .ok e → e.length = width
  storedElement_length : ∀ bitpix bscale bzero e,
    (storedElement bitpix bscale bzero e).length = bitpix.natAbs / 8

section

variable (numpy : Numpy) (littleEndian : Bool)

/-! ## Reading -/

/-- A pixel as a double. -/
def pixelDouble (doubles : Doubles) (bitpix : Int) (e : Bytes) : Double :=
  if bitpix = 8 then doubles.ofInt (fromBe e)
  else if bitpix = -32 then doubles.ofSingle (fromBe e)
  else if bitpix = -64 then UInt64.ofNat (fromBe e)
  else doubles.ofInt (toSigned (8 * e.length) (fromBe e))

/-- `stored * bscale + bzero`. -/
def physicalElement (doubles : Doubles) (bitpix : Int) (bscale bzero : Double)
    (e : Bytes) : Bytes :=
  beBytes 8 (doubles.physical bscale (pixelDouble doubles bitpix e) bzero).toNat

/-- `apply_image_scaling`. -/
def applyImageScaling (a : NumpyArray) (bitpix : Int) (kind : ScalingKind) (bscale bzero : Double) :
    NumpyArray :=
  match kind with
  | .none => a
  | .unsignedTrick =>
    a.mapElements littleEndian ⟨(trickDtype bitpix).kind, a.dtype.itemsize⟩ flipSign
      fun e he => by rw [flipSign_length, he]
  | .general =>
    a.mapElements littleEndian f8 (physicalElement numpy.doubles bitpix bscale bzero)
      fun _ _ => beBytes_length _ _

/-! ## Writing -/

/-- `reverse_unsigned_trick`. -/
def reverseUnsignedTrick (a : NumpyArray) (bitpix : Int) : NumpyArray :=
  a.mapElements littleEndian ⟨(pixelDtype bitpix).kind, a.dtype.itemsize⟩ flipSign
    fun e he => by rw [flipSign_length, he]

/-- `reverse_general_scaling`. -/
def reverseGeneralScaling (a : NumpyArray) (bitpix : Int) (bscale bzero : Double) :
    Except PyErr NumpyArray := do
  if 0 ≤ bitpix then numpy.checkStored bitpix bscale bzero a.elements
  return a.mapElements littleEndian (pixelDtype bitpix) (numpy.storedElement bitpix bscale bzero)
    fun e _ => numpy.storedElement_length bitpix bscale bzero e

/-- The name of a type, as in `u2`. -/
def dtypeName (dtype : Dtype) : Str := [dtype.kind] ++ natDec dtype.itemsize

/-- `normalize_input_dtype`: an array of the type of the pixels. -/
def normalizeInputDtype (cards : List Card) (data : NumpyArray) : Except PyErr NumpyArray := do
  let (bitpix, _) ← parseImageHduShape cards
  let expected ← bitpixToNativeDtype bitpix
  if data.dtype = expected then return data
  let (bscale, bzero) := parseBscaleBzero numpy.doubles cards
  let refuse (extra : Str) : Except PyErr NumpyArray :=
    .error (.value (str "data dtype (" ++ dtypeName data.dtype ++
      str ") does not match HDU BITPIX=" ++ intDec bitpix ++ str " (expected '" ++
      dtypeName expected ++ str "'" ++ extra ++ str ")"))
  match imageScalingKind bitpix bscale bzero with
  | .unsignedTrick =>
    if data.dtype = trickDtype bitpix then return reverseUnsignedTrick littleEndian data bitpix
    else refuse (str " or scaled '" ++ dtypeName (trickDtype bitpix) ++ str "'")
  | .general =>
    if data.dtype = f8 then reverseGeneralScaling numpy littleEndian data bitpix bscale bzero
    else refuse (str " or scaled 'f8'")
  | .none => refuse []

/-- The range of an integer type. -/
def dtypeRange (dtype : Dtype) : Int × Int :=
  if dtype.kind = 0x75 then (0, 2 ^ (8 * dtype.itemsize) - 1)
  else (-2 ^ (8 * dtype.itemsize - 1), 2 ^ (8 * dtype.itemsize - 1) - 1)

/-- An integer as an element, its high byte first. -/
def intElement (width : Nat) (v : Int) : Bytes := beBytes width (v % (256 : Int) ^ width).toNat

/-- The conversion of a Python value to a type.  An integer that fits is itself. -/
def castScalar (v : PyScalar) (dtype : Dtype) : Except PyErr Bytes :=
  match v with
  | .int n =>
    if (dtype.kind = 0x69 ∨ dtype.kind = 0x75) ∧ (dtypeRange dtype).1 ≤ n ∧
      n ≤ (dtypeRange dtype).2 then
      .ok (intElement dtype.itemsize n)
    else numpy.cast v dtype
  | .float _ => numpy.cast v dtype

theorem castScalar_length {numpy : Numpy} {v : PyScalar} {dtype : Dtype} {e : Bytes}
    (h : castScalar numpy v dtype = .ok e) : e.length = dtype.itemsize := by
  unfold castScalar at h
  split at h
  · split_ifs at h
    · rw [← Except.ok.inj h, intElement, beBytes_length]
    · exact numpy.cast_length h
  · exact numpy.cast_length h

/-! ## Masked arrays -/

/-- The argument of a write: an array, with a mask when it is a `MaskedArray`. -/
structure ArrayInput where
  data : NumpyArray
  mask : Option (List Bool)
  deriving DecidableEq, Repr

/-- The number that a double stands for, and `none` for the ones that are no number. -/
def doubleValue (x : Double) : Option ℚ :=
  let exponent : Nat := x.toNat / 2 ^ 52 % 2048
  let fraction : Nat := x.toNat % 2 ^ 52
  let sign : ℚ := if 2 ^ 63 ≤ x.toNat then -1 else 1
  if exponent = 2047 then none
  else if exponent = 0 then some (sign * fraction / 2 ^ 1074)
  else some (sign * ((2 ^ 52 + fraction : Nat) : ℚ) * 2 ^ exponent / 2 ^ 1075)

/-- `((stored as f64) + bzero) as i64`. -/
def shiftedBlank (stored : Int) (bzero : Double) : Int :=
  match doubleValue bzero with
  | some bz => saturatingI64 (Binary64.round (Binary64.round stored + bz))
  | none =>
    if bzero = 0x7FF0000000000000 then 9223372036854775807
    else if bzero = 0xFFF0000000000000 then i64Min
    else 0

/-- `nan`. -/
def nan : Double := 0x7FF8000000000000

/-- The value for the masked pixels. -/
def fillValue (cards : List Card) (isCompressed : Bool) : Except PyErr PyScalar := do
  let bitpixKey := if isCompressed then str "ZBITPIX" else str "BITPIX"
  let bitpix ← match parseKeyword cards bitpixKey with
    | none => .error (.value (str "header missing " ++ bitpixKey))
    | some bitpix => pure (asI32 bitpix)
  if bitpix < 0 then return .float nan
  let key := if isCompressed then str "ZBLANK" else str "BLANK"
  match parseKeyword cards key with
  | none =>
    .error (.value (str "MaskedArray input requires " ++ key ++ str " to be set in the " ++
      str "header so masked positions can be filled with the " ++
      str "sentinel value.  Set it at create time with " ++
      str "`create_image_hdu(..., blank=<sentinel>)`, or fill " ++
      str "the masked positions yourself before write."))
  | some stored =>
    let bzero := (parseBscaleBzero numpy.doubles cards).2
    return .int (if bzero.isZero then stored else shiftedBlank stored bzero)

/-- `unwrap_masked_input`. -/
def unwrapMaskedInput (cards : List Card) (isCompressed : Bool) (input : ArrayInput) :
    Except PyErr NumpyArray := do
  match input.mask with
  | none => return input.data
  | some mask =>
    if mask.all (· == false) then return input.data
    else
      let value ← fillValue numpy cards isCompressed
      match h : castScalar numpy value input.data.dtype with
      | .error e => .error e
      | .ok e => return input.data.fill mask e (castScalar_length h)

end

end RustFits.Image
