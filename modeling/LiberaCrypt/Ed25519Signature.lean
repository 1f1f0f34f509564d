import LiberaCrypt.ByteMemory
import LiberaCrypt.Def
import LiberaCrypt.Ed25519
import LiberaCrypt.Ed25519ScalarCorrect
import LiberaCrypt.Sha2

namespace LiberaCrypt.Ed25519Signature

open LiberaCrypt.ByteMemory LiberaCrypt.Def LiberaCrypt.Ed25519 LiberaCrypt.Ed25519Scalar
open LiberaCrypt.Outcome LiberaCrypt.Sha2 LiberaCrypt.WordArithmetic

def ed25519LBytes : List UInt8 :=
  [0xed, 0xd3, 0xf5, 0x5c, 0x1a, 0x63, 0x12, 0x58, 0xd6, 0x9c, 0xf7, 0xa2, 0xde, 0xf9, 0xde, 0x14,
    0x00, 0x00, 0x00, 0x00, 0x00, 0x00, 0x00, 0x00, 0x00, 0x00, 0x00, 0x00, 0x00, 0x00, 0x00, 0x10]

def pointIsPrimeOrder (point : Ed25519Point) : Bool :=
  let multiple := pointScalarMultiply machine point ed25519LBytes
  !pointIsIdentity machine point && pointIsIdentity machine multiple

def scalarIsCanonical (scalar : List UInt8) : Bool :=
  (scalarBorrowRow machine 0 (scalarFromBytes scalar) ed25519L).2 != 0

abbrev Sha512Parts := List UInt8 → List UInt8 → List UInt8 → Except LiberaCError (List UInt8)

def ed25519Sha512Parts : Sha512Parts := fun part0 part1 part2 => do
  let context ← cryptoSha2Init .hashSha2_512
  let context ← cryptoSha2Update context part0
  let context ← cryptoSha2Update context part1
  let context ← cryptoSha2Update context part2
  return cryptoSha2Squeeze (cryptoSha2Finalize context) .hashSha2_512

/-- The three statements on `expanded` after it is hashed. -/
def clamp (expanded : List UInt8) : List UInt8 :=
  let expanded := expanded.set 0 (expanded.getD 0 0 &&& 248)
  let expanded := expanded.set 31 (expanded.getD 31 0 &&& 63)
  expanded.set 31 (expanded.getD 31 0 ||| 64)

variable (sha512Parts : Sha512Parts)

def ed25519PublicFromSeed (seed : List UInt8) : Except LiberaCError (List UInt8) := do
  let expanded ← sha512Parts seed [] []
  let publicPoint := pointScalarMultiply machine pointBase ((clamp expanded).take 32)
  return pointEncode machine publicPoint

def cryptoEd25519PublicFromPrivateInternal (alg : LiberaCAlgID)
    (publicKey publicKeyLength privateKey privateKeyLength : Nat) : OnMemory Unit := do
  compute (
    if alg ≠ .ed25519 then .error .invalidAlgId
    else if publicKey = 0 ∨ privateKey = 0 then .error .invalidArgument
    else if privateKeyLength ≠ 32 then .error .invalidKey
    else if publicKeyLength < 32 then .error .bufferTooSmall
    else if cryptoRangesOverlap publicKey 32 privateKey privateKeyLength then
      .error .invalidArgument
    else .ok ())
  wipeOnError publicKey 32 do
    let seed ← load privateKey privateKeyLength
    let localPublic ← compute (ed25519PublicFromSeed sha512Parts seed)
    store publicKey localPublic

def ed25519LocalSignature (privateKey message : List UInt8) :
    Except LiberaCError (List UInt8) := do
  let expanded ← sha512Parts privateKey [] []
  let expanded := clamp expanded
  let publicPoint := pointScalarMultiply machine pointBase (expanded.take 32)
  let publicKey := pointEncode machine publicPoint
  let nonceDigest ← sha512Parts ((expanded.drop 32).take 32) message []
  let nonceScalar := scalarReduce machine nonceDigest
  let noncePoint := pointScalarMultiply machine pointBase nonceScalar
  let encodedNonce : List UInt8 := pointEncode machine noncePoint
  let challengeDigest ← sha512Parts encodedNonce publicKey message
  let challengeScalar := scalarReduce machine challengeDigest
  let response : List UInt8 :=
    scalarMulAdd machine challengeScalar (expanded.take 32) nonceScalar
  return encodedNonce ++ response

def cryptoEd25519SignInternal (alg : LiberaCAlgID)
    (privateKey privateKeyLength message messageLength signature signatureLength : Nat) :
    OnMemory Unit := do
  compute (
    if alg ≠ .ed25519 then .error .invalidAlgId
    else if privateKey = 0 ∨ signature = 0 ∨ (message = 0 ∧ messageLength ≠ 0) then
      .error .invalidArgument
    else if privateKeyLength ≠ 32 then .error .invalidKey
    else if signatureLength < 64 then .error .bufferTooSmall
    else if cryptoRangesOverlap signature 64 privateKey privateKeyLength ∨
        cryptoRangesOverlap signature 64 message messageLength then .error .invalidArgument
    else .ok ())
  wipeOnError signature 64 do
    let privateBytes ← load privateKey privateKeyLength
    let messageBytes ← load message messageLength
    let localSignature ← compute (ed25519LocalSignature sha512Parts privateBytes messageBytes)
    store signature localSignature

def ed25519CheckSignature (publicKey message signature : List UInt8) : Except LiberaCError Unit :=
  let publicPoint := pointDecode machine publicKey
  let encodedR := pointDecode machine (signature.take 32)
  if publicPoint.2 = false ∨ pointIsPrimeOrder publicPoint.1 = false then .error .invalidKey
  else if scalarIsCanonical (signature.drop 32) = false ∨ encodedR.2 = false then
    .error .signatureInvalid
  else do
    let challengeDigest ← sha512Parts (signature.take 32) publicKey message
    let challengeScalar := scalarReduce machine challengeDigest
    let left := pointScalarMultiply machine pointBase (signature.drop 32)
    let challengePoint := pointScalarMultiply machine publicPoint.1 challengeScalar
    let right := pointAdd machine encodedR.1 challengePoint
    let equal : Bool := pointEqual machine left right
    if equal then .ok () else .error .signatureInvalid

def cryptoEd25519VerifyInternal (alg : LiberaCAlgID)
    (publicKey publicKeyLength message messageLength signature signatureLength : Nat) :
    OnMemory Unit := do
  compute (
    if alg ≠ .ed25519 then .error .invalidAlgId
    else if publicKey = 0 ∨ signature = 0 ∨ (message = 0 ∧ messageLength ≠ 0) then
      .error .invalidArgument
    else if publicKeyLength ≠ 32 then .error .invalidKey
    else if signatureLength ≠ 64 then .error .signatureInvalid
    else .ok ())
  let publicBytes ← load publicKey publicKeyLength
  let messageBytes ← load message messageLength
  let signatureBytes ← load signature signatureLength
  compute (ed25519CheckSignature sha512Parts publicBytes messageBytes signatureBytes)

end LiberaCrypt.Ed25519Signature
