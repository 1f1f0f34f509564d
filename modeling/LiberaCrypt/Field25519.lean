import LiberaCrypt.ConstantTime
import LiberaCrypt.CountedLoop
import LiberaCrypt.Endian
import LiberaCrypt.WordArithmetic

namespace LiberaCrypt.Field25519

open LiberaCrypt.ConstantTime LiberaCrypt.MonadicLoop LiberaCrypt.WordArithmetic

abbrev FieldElement := List UInt32

def radixMask : UInt32 := 0xffff

def primeLimbs : FieldElement :=
  [0xffed, 0xffff, 0xffff, 0xffff, 0xffff, 0xffff, 0xffff, 0xffff, 0xffff, 0xffff, 0xffff, 0xffff,
    0xffff, 0xffff, 0xffff, 0x7fff]

def feZero : FieldElement := List.replicate 16 0

def feOne : FieldElement := 1 :: List.replicate 15 0

variable {m : Type → Type} [Monad m] (W : Words m)

def borrowRow : UInt32 → List UInt32 → List UInt32 → m (List UInt32 × UInt32)
  | borrow, x :: xs, y :: ys => do
    let d ← W.sub64 x.toUInt64 y.toUInt64 borrow.toUInt64
    let rest ← borrowRow (d >>> 63).toUInt32 xs ys
    return ((d.toUInt32 &&& radixMask) :: rest.1, rest.2)
  | borrow, _, _ => return ([], borrow)

def selectRow (mask : UInt32) (xs ys : List UInt32) : List UInt32 :=
  List.zipWith (fun x y => (x &&& ~~~mask) ||| (y &&& mask)) xs ys

def feConditionalSubtractP (value : FieldElement) : m FieldElement := do
  let difference ← borrowRow W 0 value primeLimbs
  return selectRow (0 - (difference.2 ^^^ 1)) value difference.1

def carryRow : UInt64 → List UInt64 → m (List UInt64)
  | carry, x :: y :: rest => do
    let sum ← W.add64 x carry
    let rest ← carryRow (sum >>> 16) (y :: rest)
    return (sum &&& 0xffff) :: rest
  | carry, [x] => do
    let sum ← W.add64 x carry
    return [sum]
  | _, [] => return []

def foldTop (value : List UInt64) : m (List UInt64) := do
  let top := value.getD 15 0
  let fold ← W.mul64 (top >>> 15) 19
  let value := value.set 15 (top &&& 0x7fff)
  let low ← W.add64 (value.getD 0 0) fold
  return value.set 0 low

/-- One of the passes of `reduce16`. -/
def reducePass (value : List UInt64) : m (List UInt64) := carryRow W 0 value >>= foldTop W

def reduce16 (value : List UInt64) : m FieldElement := do
  let value ← countUpM 4 (fun _ => reducePass W) value
  let limbs ← value.mapM W.narrow
  feConditionalSubtractP W limbs

def sumRow : List UInt32 → List UInt32 → m (List UInt64)
  | x :: xs, y :: ys => do
    let sum ← W.add64 x.toUInt64 y.toUInt64
    let rest ← sumRow xs ys
    return sum :: rest
  | _, _ => return []

def feAdd (a b : FieldElement) : m FieldElement := sumRow W a b >>= reduce16 W

def addMaskedRow (mask : UInt32) : UInt32 → List UInt32 → List UInt32 → m (List UInt32)
  | carry, x :: xs, y :: ys => do
    let partialSum ← W.add32 x (y &&& mask)
    let sum ← W.add32 partialSum carry
    let rest ← addMaskedRow mask (sum >>> 16) xs ys
    return (sum &&& radixMask) :: rest
  | _, _, _ => return []

def feSub (a b : FieldElement) : m FieldElement := do
  let difference ← borrowRow W 0 a b
  addMaskedRow W (0 - difference.2) 0 difference.1 primeLimbs

def feNegate (input : FieldElement) : m FieldElement := feSub W feZero input

/-- `product[i + j] += a[i] * b[j]` for one `i`. -/
def productRow (x : UInt32) : List UInt32 → List UInt64 → m (List UInt64)
  | y :: ys, z :: zs => do
    let term ← W.mul64 x.toUInt64 y.toUInt64
    let sum ← W.add64 z term
    let rest ← productRow x ys zs
    return sum :: rest
  | _, zs => return zs

def productRows (b : List UInt32) : List UInt32 → List UInt64 → m (List UInt64)
  | x :: xs, product => do
    let product ← productRow W x b product
    let rest ← productRows b xs product.tail
    return product.head?.toList ++ rest
  | [], product => return product

/-- `product[i - 16] += product[i] * 38`. -/
def foldRow : List UInt64 → List UInt64 → m (List UInt64)
  | x :: xs, y :: ys => do
    let term ← W.mul64 y 38
    let sum ← W.add64 x term
    let rest ← foldRow xs ys
    return sum :: rest
  | xs, _ => return xs

def feMul (a b : FieldElement) : m FieldElement := do
  let product ← productRows W b a (List.replicate 31 0)
  let reduced ← foldRow W (product.take 16) (product.drop 16)
  reduce16 W reduced

def feSquare (input : FieldElement) : m FieldElement := feMul W input input

def limbBytes (limbs : FieldElement) : List UInt8 :=
  limbs.flatMap fun limb : UInt32 => [limb.toUInt8, (limb >>> 8).toUInt8]

def feToBytes (input : FieldElement) : m (List UInt8) := do
  let canonical ← feConditionalSubtractP W input
  return limbBytes canonical

def bytesLimbs : List UInt8 → FieldElement
  | low :: high :: rest => (low.toUInt32 ||| (high.toUInt32 <<< 8)) :: bytesLimbs rest
  | _ => []

def feFromCanonicalBytes (input : List UInt8) : m (FieldElement × Bool) := do
  let masked := input.set 31 (input.getD 31 0 &&& 0x7f)
  let out ← feConditionalSubtractP W (bytesLimbs masked)
  let encoded ← feToBytes W out
  let canonical := cryptoConstantTimeEqual masked encoded 32
  return (if canonical then out else feZero, canonical)

def feEqual (a b : FieldElement) : m Bool := do
  let encodedA ← feToBytes W a
  let encodedB ← feToBytes W b
  return cryptoConstantTimeEqual encodedA encodedB 32

def feIsZero (value : FieldElement) : m Bool := feEqual W value feZero

def feIsNegative (value : FieldElement) : m UInt8 := do
  let encoded ← feToBytes W value
  return encoded.getD 0 0 &&& 1

def byteBit (bytes : List UInt8) (bit : Nat) : UInt32 :=
  ((bytes.getD (bit >>> 3) 0).toUInt32 >>> UInt32.ofNat (bit &&& 7)) &&& 1

def powStep (input : FieldElement) (exponent : List UInt8) (bit : Nat) (result : FieldElement) :
    m FieldElement := do
  let squared ← feSquare W result
  if byteBit exponent bit ≠ 0 then feMul W squared input else return squared

def fePow (input : FieldElement) (exponent : List UInt8) (exponentBits : Nat) : m FieldElement :=
  countDownM exponentBits (powStep W input exponent) feOne

def inverseExponent : List UInt8 := 0xeb :: (List.replicate 30 0xff ++ [0x7f])

def sqrtExponent : List UInt8 := 0xfe :: (List.replicate 30 0xff ++ [0x0f])

def feInvert (input : FieldElement) : m FieldElement := fePow W input inverseExponent 255

def feSqrtCandidate (input : FieldElement) : m FieldElement := fePow W input sqrtExponent 252

end LiberaCrypt.Field25519
