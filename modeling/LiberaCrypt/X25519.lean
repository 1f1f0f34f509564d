import LiberaCrypt.ByteMemory
import LiberaCrypt.Field25519

namespace LiberaCrypt.X25519

open LiberaCrypt.ByteMemory LiberaCrypt.Field25519 LiberaCrypt.MonadicLoop LiberaCrypt.Outcome
open LiberaCrypt.WordArithmetic

variable {m : Type → Type} [Monad m] (W : Words m)

-- The functions on field elements that are not here are, limb for limb, those of `Field25519`.

def smallRow (multiplier : UInt32) : List UInt32 → m (List UInt64)
  | x :: xs => do
    let product ← W.mul64 x.toUInt64 multiplier.toUInt64
    let rest ← smallRow multiplier xs
    return product :: rest
  | [] => return []

def feMulSmall (a : FieldElement) (multiplier : UInt32) : m FieldElement :=
  smallRow W multiplier a >>= reduce16 W

def feCswap (a b : FieldElement) (swap : UInt32) : FieldElement × FieldElement :=
  let mask := 0 - (swap &&& 1)
  (List.zipWith (fun x y => x ^^^ ((x ^^^ y) &&& mask)) a b,
    List.zipWith (fun x y => y ^^^ ((x ^^^ y) &&& mask)) a b)

/-- The most significant bit is masked; values from the prime on are accepted. -/
def feFromBytes (input : List UInt8) : m FieldElement :=
  let out := bytesLimbs input
  feConditionalSubtractP W (out.set 15 (out.getD 15 0 &&& 0x7fff))

/-- One bit of the exponent `p - 2`, which has no zeros from bit eight on. -/
def invertStep (input : FieldElement) (bit : Nat) (result : FieldElement) : m FieldElement := do
  let squared ← feSquare W result
  if 8 ≤ bit ∨ ((0xeb : UInt32) >>> UInt32.ofNat bit) &&& 1 ≠ 0 then feMul W squared input
  else return squared

def x25519FeInvert (input : FieldElement) : m FieldElement :=
  countDownM 255 (invertStep W input) feOne

@[ext] structure LadderState where
  x2 : FieldElement
  z2 : FieldElement
  x3 : FieldElement
  z3 : FieldElement
  swap : UInt32

def x25519A24 : UInt32 := 121665

def ladderBit (scalar : List UInt8) (x1 : FieldElement) (bit : Nat) (s : LadderState) :
    m LadderState := do
  let scalarBit := byteBit scalar bit
  let x := feCswap s.x2 s.x3 (s.swap ^^^ scalarBit)
  let z := feCswap s.z2 s.z3 (s.swap ^^^ scalarBit)
  let a ← feAdd W x.1 z.1
  let aa ← feSquare W a
  let b ← feSub W x.1 z.1
  let bb ← feSquare W b
  let e ← feSub W aa bb
  let c ← feAdd W x.2 z.2
  let d ← feSub W x.2 z.2
  let da ← feMul W d a
  let cb ← feMul W c b
  let temporary0 ← feAdd W da cb
  let x3 ← feSquare W temporary0
  let temporary0 ← feSub W da cb
  let temporary1 ← feSquare W temporary0
  let z3 ← feMul W x1 temporary1
  let x2 ← feMul W aa bb
  let temporary0 ← feMulSmall W e x25519A24
  let temporary0 ← feAdd W aa temporary0
  let z2 ← feMul W e temporary0
  return ⟨x2, z2, x3, z3, scalarBit⟩

def clampScalar (scalarInput : List UInt8) : List UInt8 :=
  let scalar := scalarInput.set 0 (scalarInput.getD 0 0 &&& 248)
  let scalar := scalar.set 31 (scalar.getD 31 0 &&& 127)
  scalar.set 31 (scalar.getD 31 0 ||| 64)

def x25519ScalarMultiply (scalarInput uInput : List UInt8) : m (List UInt8) := do
  let scalar := clampScalar scalarInput
  let x1 ← feFromBytes W uInput
  let s ← countDownM 255 (ladderBit W scalar x1) ⟨feOne, feZero, x1, feOne, 0⟩
  let x := feCswap s.x2 s.x3 s.swap
  let z := feCswap s.z2 s.z3 s.swap
  let inverse ← x25519FeInvert W z.1
  let x2 ← feMul W x.1 inverse
  feToBytes W x2

def x25519IsAllZero (value : List UInt8) : Bool :=
  value.foldl (fun accumulator byte => accumulator ||| byte.toUInt32) (0 : UInt32) == 0

def basepoint : List UInt8 := 9 :: List.replicate 31 0

def cryptoX25519PublicFromPrivateInternal
    (publicKey publicKeyLength privateKey privateKeyLength : Nat) : OnMemory Unit := do
  compute (
    if publicKey = 0 ∨ privateKey = 0 ∨ privateKeyLength ≠ 32 then .error .invalidArgument
    else if publicKeyLength < 32 then .error .bufferTooSmall
    else if cryptoRangesOverlap publicKey 32 privateKey privateKeyLength then
      .error .invalidArgument
    else .ok ())
  let privateBytes ← load privateKey privateKeyLength
  let localPublic : List UInt8 := x25519ScalarMultiply machine privateBytes basepoint
  store publicKey localPublic

def sharedSecretArguments (sharedSecret sharedSecretLength privateKey privateKeyLength
    peerPublicKey peerPublicKeyLength : Nat) : Except LiberaCError Unit :=
  if sharedSecret = 0 ∨ privateKey = 0 ∨ peerPublicKey = 0 ∨ privateKeyLength ≠ 32 ∨
      peerPublicKeyLength ≠ 32 then .error .invalidArgument
  else if sharedSecretLength < 32 then .error .bufferTooSmall
  else if cryptoRangesOverlap sharedSecret 32 privateKey privateKeyLength ∨
      cryptoRangesOverlap sharedSecret 32 peerPublicKey peerPublicKeyLength then
    .error .invalidArgument
  else .ok ()

def cryptoX25519SharedSecretInternal (sharedSecret sharedSecretLength privateKey privateKeyLength
    peerPublicKey peerPublicKeyLength : Nat) : OnMemory Unit := do
  compute (sharedSecretArguments sharedSecret sharedSecretLength privateKey privateKeyLength
    peerPublicKey peerPublicKeyLength)
  let privateBytes ← load privateKey privateKeyLength
  let peerBytes ← load peerPublicKey peerPublicKeyLength
  let localSecret : List UInt8 := x25519ScalarMultiply machine privateBytes peerBytes
  wipeOnError sharedSecret 32 do
    compute (if x25519IsAllZero localSecret then .error .invalidKey else .ok ())
    store sharedSecret localSecret

end LiberaCrypt.X25519
