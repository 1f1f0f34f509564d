import LiberaCrypt.Def
import LiberaCrypt.EcScalar
import LiberaCrypt.FillLoop

namespace LiberaCrypt.EcdsaNonce

open LiberaCrypt.Outcome LiberaCrypt.Def LiberaCrypt.FillLoop
open LiberaCrypt.EcCurves LiberaCrypt.EcScalar

/-- The length of the digest that a hash gives, if it is strong enough for the curve. -/
def ecdsaHashParameters (curve : CryptoEcCurve) (hashAlg : LiberaCAlgID) :
    Except LiberaCError Nat := do
  let (selectedLength, strength) ← match hashAlg with
    | .hashSha2_256 | .hashSha2_512_256 | .hashSha3_256 => .ok (32, 128)
    | .hashSha2_384 | .hashSha3_384 => .ok (48, 192)
    | .hashSha2_512 | .hashSha3_512 => .ok (64, 256)
    | _ => .error .invalidAlgId
  let requiredStrength := match curve.id with
    | .p256 => 128
    | .p384 => 192
    | .p521 => 256
  if strength < requiredStrength then .error .invalidAlgId else .ok selectedLength

/-- `(carry << (8 - shift)) | (current >> shift)` from the highest byte down. -/
def shiftBytes (shift : Nat) : UInt8 → List UInt8 → List UInt8
  | _, [] => []
  | carry, current :: rest =>
    let carryMask := ((1 : UInt32) <<< UInt32.ofNat shift - 1).toUInt8
    ((carry.toUInt32 <<< UInt32.ofNat (8 - shift)) |||
        (current.toUInt32 >>> UInt32.ofNat shift)).toUInt8 ::
      shiftBytes shift (current &&& carryMask) rest

def ecdsaShiftRightBigEndian (value : List UInt8) (shift : Nat) : List UInt8 :=
  if shift = 0 then value else shiftBytes shift 0 value

def ecdsaDigestToScalar (curve : CryptoEcCurve) (digest : List UInt8) :
    Except LiberaCError (List UInt32 × List UInt8) := do
  let digestBits := digest.length * 8
  let excessBits := curve.scalarBytes * 8 - curve.scalarBits
  let encoded :=
    if curve.scalarBits < digestBits then
      ecdsaShiftRightBigEndian (digest.take curve.scalarBytes) excessBits
    else List.replicate (curve.scalarBytes - digest.length) 0 ++ digest
  let scalar ← cryptoEcScalarFromBytesReduced curve encoded
  pure (scalar, cryptoEcScalarToBytes curve scalar)

structure HmacState where
  key : List UInt8
  value : List UInt8

structure NonceBatch where
  drbg : HmacState
  nonce : List UInt8
  found : UInt32

variable (ecdsaHmac : List UInt8 → List UInt8 → Except LiberaCError (List UInt8))

/-- A MAC of the value with the octets after it becomes the key, and then a MAC of the value alone
the value. -/
def hmacUpdate (octets : List UInt8) : OnState HmacState Unit := fun s =>
  match ecdsaHmac s.key (s.value ++ octets) with
  | .error e => (.error e, s)
  | .ok next =>
    let s := { s with key := next }
    match ecdsaHmac s.key s.value with
    | .error e => (.error e, s)
    | .ok next => (.ok (), { s with value := next })

def ecdsaRfc6979Initialize (curve : CryptoEcCurve) (privateKey digest : List UInt8) :
    OnState HmacState Unit := fun s =>
  match ecdsaDigestToScalar curve digest with
  | .error e => (.error e, s)
  | .ok (_, digestOctets) =>
    let s : HmacState := ⟨List.replicate digest.length 0, List.replicate digest.length 1⟩
    let octets := privateKey.take curve.scalarBytes ++ digestOctets
    (do
      hmacUpdate ecdsaHmac (0 :: octets)
      hmacUpdate ecdsaHmac (1 :: octets)) s

def ecdsaRfc6979RejectionUpdate : OnState HmacState Unit := hmacUpdate ecdsaHmac [0]

def nextValue : OnState HmacState (List UInt8) := fun s =>
  match ecdsaHmac s.key s.value with
  | .error e => (.error e, s)
  | .ok next => (.ok next, { s with value := next })

def selectBytes (selectMask : UInt32) (nonce candidate : List UInt8) : List UInt8 :=
  List.zipWith (fun old new => (old &&& (~~~selectMask).toUInt8) ||| (new &&& selectMask.toUInt8))
    nonce candidate

def nonceAttempt (curve : CryptoEcCurve) (digestLength : Nat) : OnState NonceBatch Unit := fun s =>
  match fillLoop digestLength (nextValue ecdsaHmac) curve.scalarBytes s.drbg with
  | (.error e, drbg) => (.error e, { s with drbg := drbg })
  | (.ok generated, drbg) =>
    let candidate :=
      if curve.scalarBytes * 8 ≠ curve.scalarBits then
        ecdsaShiftRightBigEndian generated (curve.scalarBytes * 8 - curve.scalarBits)
      else generated
    let valid := cryptoEcScalarIsValidCt curve candidate
    let selectMask := (0 : UInt32) - (valid &&& (s.found ^^^ 1))
    let nonce := selectBytes selectMask s.nonce candidate
    let found := s.found ||| valid
    match ecdsaRfc6979RejectionUpdate ecdsaHmac drbg with
    | (.error e, drbg) => (.error e, ⟨drbg, nonce, found⟩)
    | (.ok (), drbg) => (.ok (), ⟨drbg, nonce, found⟩)

def nonceAttempts (curve : CryptoEcCurve) (digestLength : Nat) : Nat → OnState NonceBatch Unit
  | 0 => pure ()
  | n + 1 => do
    nonceAttempts curve digestLength n
    nonceAttempt ecdsaHmac curve digestLength

def ecdsaRfc6979Candidates : Nat := 16

def ecdsaRfc6979Generate (curve : CryptoEcCurve) (digestLength : Nat) (drbg : HmacState) :
    Except LiberaCError Unit × List UInt8 :=
  match nonceAttempts ecdsaHmac curve digestLength ecdsaRfc6979Candidates
      ⟨drbg, List.replicate curve.scalarBytes 0, 0⟩ with
  | (.error e, s) => (.error e, s.nonce)
  | (.ok (), s) => (if s.found = 0 then .error .internal else .ok (), s.nonce)

/-- The steps of signing that draw the nonce, which is cleared before the first one. -/
def ecdsaNonce (curve : CryptoEcCurve) (privateKey digest : List UInt8) :
    Except LiberaCError Unit × List UInt8 :=
  match ecdsaRfc6979Initialize ecdsaHmac curve privateKey digest ⟨[], []⟩ with
  | (.error e, _) => (.error e, List.replicate curve.scalarBytes 0)
  | (.ok (), drbg) => ecdsaRfc6979Generate ecdsaHmac curve digest.length drbg

end LiberaCrypt.EcdsaNonce
