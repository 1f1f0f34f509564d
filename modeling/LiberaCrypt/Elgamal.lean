import LiberaCrypt.BignumSecret
import LiberaCrypt.Def
import LiberaCrypt.Prime

namespace LiberaCrypt.Elgamal

open LiberaCrypt.Outcome LiberaCrypt.Allocation LiberaCrypt.Def LiberaCrypt.Bignum
open LiberaCrypt.BignumSmall LiberaCrypt.BignumSecret LiberaCrypt.BignumRandom LiberaCrypt.Prime
open LiberaCrypt.ModExpSecure LiberaCrypt.ModExpVartime

structure LiberaCElgamalPublicKey where
  p : LiberaCBignum
  q : LiberaCBignum
  g : LiberaCBignum
  h : LiberaCBignum

structure LiberaCElgamalPrivateKey where
  x : LiberaCBignum

structure LiberaCElgamalCiphertext where
  c1 : LiberaCBignum
  c2 : LiberaCBignum

def elgamalRandomNonzero (upper : LiberaCBignum) : Randomized LiberaCBignum :=
  retry .internal (do
    let out ← cryptoBignumRandomRange upper
    pure (if cryptoBignumIsZero out then none else some out)) 128

/-- The square of a number in `[2, p - 2]`, unless it is one. -/
def generatorCandidate (p pMinus3 : LiberaCBignum) : Randomized (Option LiberaCBignum) := do
  let hseed ← cryptoBignumRandomRange pMinus3
  let hseed ← reported (bignumAddU32 hseed 2) .allocationFailed
  let g ← reported (cryptoBignumModSquare cryptoBignumInit hseed p) .arithmetic
  pure (if isWord g 1 then none else some g)

def storeKeys (p q g h x : LiberaCBignum) :
    Fallible (LiberaCElgamalPublicKey × LiberaCElgamalPrivateKey) := do
  let keyP ← reported (cryptoBignumCopy cryptoBignumInit p) .allocationFailed
  let keyQ ← reported (cryptoBignumCopy cryptoBignumInit q) .allocationFailed
  let keyG ← reported (cryptoBignumCopy cryptoBignumInit g) .allocationFailed
  let keyH ← reported (cryptoBignumCopy cryptoBignumInit h) .allocationFailed
  let keyX ← reported (cryptoBignumCopySecretFixedCt x p.length) .allocationFailed
  pure (⟨keyP, keyQ, keyG, keyH⟩, ⟨keyX⟩)

def cryptoElgamalKeygenInternal (alg : LiberaCAlgID) (modulusBits primeRounds : Nat) :
    Randomized (LiberaCElgamalPublicKey × LiberaCElgamalPrivateKey) :=
  if alg ≠ .elgamalSafePrime then throw .invalidAlgId
  else if modulusBits < 32 then throw .invalidArgument
  else do
    let primeRounds := if primeRounds = 0 then 32 else primeRounds
    let (p, q) ← cryptoPrimeGenerateSafeInternal modulusBits primeRounds
    let pMinus3 ← reported (bignumSubU32 cryptoBignumInit p 3) .allocationFailed
    let g ← retry .internal (generatorCandidate p pMinus3) 128
    let x ← elgamalRandomNonzero q
    let x ← cryptoBignumCopySecretFixed x p.length
    let h ← reported (cryptoBignumModExpCt g x p) .arithmetic
    storeKeys p q g h x

def encryptWithNonce (message : LiberaCBignum) (publicKey : LiberaCElgamalPublicKey)
    (y : LiberaCBignum) : Fallible LiberaCElgamalCiphertext := do
  let y ← cryptoBignumCopySecretFixed y publicKey.p.length
  let (c1, shared) ← reported
    (cryptoBignumModExp2Ct publicKey.g publicKey.h y publicKey.p false) .arithmetic
  let c2 ← reported (cryptoBignumModMul cryptoBignumInit message shared publicKey.p) .arithmetic
  pure ⟨c1, c2⟩

def cryptoElgamalEncryptInternal (alg : LiberaCAlgID) (message : LiberaCBignum)
    (publicKey : LiberaCElgamalPublicKey) : Randomized LiberaCElgamalCiphertext :=
  if alg ≠ .elgamalSafePrime then throw .invalidAlgId
  else if cryptoBignumCompare message publicKey.p ≠ .lt then throw .messageTooLarge
  else do
    let y ← elgamalRandomNonzero publicKey.q
    encryptWithNonce message publicKey y

def cryptoElgamalDecryptInternal (alg : LiberaCAlgID) (message : LiberaCBignum)
    (ciphertext : LiberaCElgamalCiphertext) (publicKey : LiberaCElgamalPublicKey)
    (privateKey : LiberaCElgamalPrivateKey) : Fallible LiberaCBignum :=
  if alg ≠ .elgamalSafePrime then throw .invalidAlgId
  else if cryptoBignumIsZero ciphertext.c1 ∨ cryptoBignumCompare ciphertext.c1 publicKey.p ≠ .lt ∨
      cryptoBignumCompare ciphertext.c2 publicKey.p ≠ .lt then throw .invalidArgument
  else do
    let pMinusOne ← reported (bignumSubU32 cryptoBignumInit publicKey.p 1) .arithmetic
    let inverseExponent ← reported
      (cryptoBignumSubSecretFixed pMinusOne privateKey.x publicKey.p.length) .arithmetic
    let factor ← reported (cryptoBignumModExpCt ciphertext.c1 inverseExponent publicKey.p)
      .arithmetic
    reported (cryptoBignumModMul message ciphertext.c2 factor publicKey.p) .arithmetic

end LiberaCrypt.Elgamal
