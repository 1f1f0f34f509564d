import LiberaCrypt.ByteMemory
import LiberaCrypt.EcEncoding
import LiberaCrypt.EcScalarVartime
import LiberaCrypt.EcdsaNonce
import LiberaCrypt.EcScalarArith

namespace LiberaCrypt.Ecdsa

open LiberaCrypt.Outcome LiberaCrypt.ByteMemory LiberaCrypt.Def LiberaCrypt.EcCurves
open LiberaCrypt.EcEncoding LiberaCrypt.EcField LiberaCrypt.EcJacobian LiberaCrypt.EcPoint
open LiberaCrypt.EcScalar LiberaCrypt.EcScalarArith LiberaCrypt.EcScalarMultiply
open LiberaCrypt.EcScalarVartime LiberaCrypt.EcdsaNonce

def ecdsaCurveFromAlg : LiberaCAlgID → Except LiberaCError CryptoEcCurve
  | .ecdsaP256 => .ok (cryptoEcCurveGet .p256)
  | .ecdsaP384 => .ok (cryptoEcCurveGet .p384)
  | .ecdsaP521 => .ok (cryptoEcCurveGet .p521)
  | _ => .error .invalidAlgId

def ecdsaPublicSize (curve : CryptoEcCurve) : Nat := 1 + 2 * curve.fieldBytes

def ecdsaSignatureSize (curve : CryptoEcCurve) : Nat := 2 * curve.scalarBytes

def ecdsaPublicLengthValid (curve : CryptoEcCurve) (publicKeyLength : Nat) : Bool :=
  publicKeyLength = 1 + curve.fieldBytes || publicKeyLength = ecdsaPublicSize curve

def ecdsaMaxPublicBytes : Nat := 133

/-- Any failure of `x` is reported as `status`. -/
def orStatus {α : Type} (x : Except LiberaCError α) (status : LiberaCError) :
    Except LiberaCError α :=
  match x with
  | .error _ => .error status
  | .ok a => .ok a

def refuse (c : Prop) [Decidable c] (status : LiberaCError) : Except LiberaCError Unit :=
  if c then .error status else .ok ()

/-- The `x` of a point, reduced modulo the order. -/
def xReduced (curve : CryptoEcCurve) (point : CryptoEcAffinePoint) :
    Except LiberaCError (List UInt32) :=
  cryptoEcScalarFromBytesReduced curve
    ((cryptoEcFieldToBytes curve point.x).take curve.scalarBytes)

def cryptoEcdsaPublicFromPrivateInternal (alg : LiberaCAlgID)
    (publicKey publicKeyLength privateKey privateKeyLength : Nat) : OnMemory Unit := do
  let curve ← compute (ecdsaCurveFromAlg alg)
  let requiredPublic := ecdsaPublicSize curve
  compute (
    if publicKey = 0 ∨ privateKey = 0 then .error .invalidArgument
    else if privateKeyLength ≠ curve.scalarBytes then .error .invalidKey
    else if publicKeyLength < requiredPublic then .error .bufferTooSmall
    else if cryptoRangesOverlap publicKey requiredPublic privateKey privateKeyLength then
      .error .invalidArgument
    else .ok ())
  wipeOnError publicKey requiredPublic do
    let scalar ← load privateKey privateKeyLength
    compute (refuse (cryptoEcScalarIsValidCt curve scalar = 0) .invalidKey)
    let publicPoint ← compute
      (cryptoEcScalarMultiplyCt curve (cryptoEcAffineGenerator curve) scalar)
    let encodedPublic ← compute
      (cryptoEcPointEncode curve publicPoint false ecdsaMaxPublicBytes).1
    compute (refuse (encodedPublic.length ≠ requiredPublic) .internal)
    store publicKey encodedPublic

section Signature

-- The hash and the MAC of the selected algorithm.
variable (hash : List UInt8 → Except LiberaCError (List UInt8))
  (ecdsaHmac : List UInt8 → List UInt8 → Except LiberaCError (List UInt8))

def ecdsaLocalSignature (curve : CryptoEcCurve) (privateKey message : List UInt8) :
    Except LiberaCError (List UInt8) := do
  refuse (cryptoEcScalarIsValidCt curve privateKey = 0) .invalidKey
  let d ← orStatus (cryptoEcScalarFromBytes curve privateKey) .invalidKey
  let digest ← hash message
  let (e, _) ← ecdsaDigestToScalar curve digest
  (ecdsaNonce ecdsaHmac curve privateKey digest).1
  let nonce := (ecdsaNonce ecdsaHmac curve privateKey digest).2
  let k ← orStatus (cryptoEcScalarFromBytes curve nonce) .internal
  let noncePoint ← orStatus
    (cryptoEcScalarMultiplyCt curve (cryptoEcAffineGenerator curve) nonce) .internal
  refuse (noncePoint.infinity ≠ 0) .internal
  let r ← orStatus (xReduced curve noncePoint) .internal
  refuse (cryptoEcScalarZeroMask curve r ≠ 0) .internal
  let kInverse := cryptoEcScalarInvertFixed curve k
  let product := cryptoEcScalarMultiply curve r d
  let sum := cryptoEcScalarAdd curve e product
  let s := cryptoEcScalarMultiply curve kInverse sum
  refuse (cryptoEcScalarZeroMask curve s ≠ 0) .internal
  pure (cryptoEcScalarToBytes curve r ++ cryptoEcScalarToBytes curve s)

def cryptoEcdsaSignInternal (alg hashAlg : LiberaCAlgID)
    (privateKey privateKeyLength message messageLength signature signatureLength : Nat) :
    OnMemory Unit := do
  let curve ← compute (ecdsaCurveFromAlg alg)
  let _ ← compute (ecdsaHashParameters curve hashAlg)
  let requiredSignature := ecdsaSignatureSize curve
  compute (
    if privateKey = 0 ∨ signature = 0 ∨ (message = 0 ∧ messageLength ≠ 0) then
      .error .invalidArgument
    else if privateKeyLength ≠ curve.scalarBytes then .error .invalidKey
    else if signatureLength < requiredSignature then .error .bufferTooSmall
    else if cryptoRangesOverlap signature requiredSignature privateKey privateKeyLength ∨
        cryptoRangesOverlap signature requiredSignature message messageLength then
      .error .invalidArgument
    else .ok ())
  wipeOnError signature requiredSignature do
    let privateBytes ← load privateKey privateKeyLength
    let messageBytes ← load message messageLength
    let localSignature ← compute
      (ecdsaLocalSignature hash ecdsaHmac curve privateBytes messageBytes)
    store signature localSignature

def ecdsaCheckSignature (curve : CryptoEcCurve) (publicKey message signature : List UInt8) :
    Except LiberaCError Unit := do
  let publicPoint ← orStatus (cryptoEcPointDecode curve publicKey false) .invalidKey
  let r ← orStatus (cryptoEcScalarFromBytes curve (signature.take curve.scalarBytes))
    .signatureInvalid
  refuse (cryptoEcScalarZeroMask curve r ≠ 0) .signatureInvalid
  let s ← orStatus (cryptoEcScalarFromBytes curve (signature.drop curve.scalarBytes))
    .signatureInvalid
  refuse (cryptoEcScalarZeroMask curve s ≠ 0) .signatureInvalid
  let digest ← hash message
  let (e, _) ← ecdsaDigestToScalar curve digest
  let inverse := cryptoEcScalarInvertFixed curve s
  let u := cryptoEcScalarMultiply curve e inverse
  let v := cryptoEcScalarMultiply curve r inverse
  let uPoint ← orStatus (cryptoEcScalarMultiplyVartime curve (cryptoEcAffineGenerator curve)
    (cryptoEcScalarToBytes curve u)) .internal
  let vPoint ← orStatus (cryptoEcScalarMultiplyVartime curve publicPoint
    (cryptoEcScalarToBytes curve v)) .internal
  let resultJacobian := cryptoEcJacobianAddComplete curve (cryptoEcAffineToJacobian curve uPoint)
    (cryptoEcAffineToJacobian curve vPoint)
  let resultPoint := cryptoEcJacobianToAffine curve resultJacobian
  refuse (resultPoint.infinity ≠ 0) .signatureInvalid
  let reduced ← orStatus (xReduced curve resultPoint) .internal
  refuse (cryptoEcScalarEqualMask reduced r = 0) .signatureInvalid

def cryptoEcdsaVerifyInternal (alg hashAlg : LiberaCAlgID)
    (publicKey publicKeyLength message messageLength signature signatureLength : Nat) :
    OnMemory Unit := do
  let curve ← compute (ecdsaCurveFromAlg alg)
  let _ ← compute (ecdsaHashParameters curve hashAlg)
  compute (
    if publicKey = 0 ∨ signature = 0 ∨ (message = 0 ∧ messageLength ≠ 0) then
      .error .invalidArgument
    else if ecdsaPublicLengthValid curve publicKeyLength = false then .error .invalidKey
    else if signatureLength ≠ ecdsaSignatureSize curve then .error .signatureInvalid
    else .ok ())
  let publicBytes ← load publicKey publicKeyLength
  let messageBytes ← load message messageLength
  let signatureBytes ← load signature signatureLength
  compute (ecdsaCheckSignature hash curve publicBytes messageBytes signatureBytes)

end Signature

end LiberaCrypt.Ecdsa
