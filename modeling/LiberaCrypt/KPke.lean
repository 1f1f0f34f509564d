import LiberaCrypt.Def
import LiberaCrypt.MlKemAuxiliary

namespace LiberaCrypt.KPke

open LiberaCrypt.CountedLoop LiberaCrypt.Outcome LiberaCrypt.MlKemNtt LiberaCrypt.MlKemEncode
  LiberaCrypt.MlKemAuxiliary

/-- The SHA-3 functions that `hash.c` calls, by the lengths of their outputs; SHAKE128
is the stream that squeezing delivers. -/
structure Hashes where
  sha3_256 : List UInt8 → Vector UInt8 32
  sha3_512 : List UInt8 → Vector UInt8 64
  shake256 : List UInt8 → (n : Nat) → Vector UInt8 n
  shake128 : List UInt8 → Nat → UInt8

def Hashes.h (hs : Hashes) (input : List UInt8) : List UInt8 := (hs.sha3_256 input).toList

def Hashes.j (hs : Hashes) (input : List UInt8) : List UInt8 := (hs.shake256 input 32).toList

def Hashes.g (hs : Hashes) (input : List UInt8) : List UInt8 × List UInt8 :=
  let output := (hs.sha3_512 input).toList
  (output.take 32, output.drop 32)

def Hashes.prf (hs : Hashes) (eta : Nat) (seed : List UInt8) (nonce : UInt8) :
    Option (List UInt8) :=
  if eta ≠ 2 ∧ eta ≠ 3 then none
  else some (hs.shake256 (seed.take 32 ++ [nonce]) (64 * eta)).toList

structure MlKemParameters where
  k : Nat
  eta1 : Nat
  eta2 : Nat
  du : Nat
  dv : Nat
  deriving DecidableEq

def mlkemParameterSets : List MlKemParameters :=
  [⟨2, 3, 2, 10, 4⟩, ⟨3, 2, 2, 10, 4⟩, ⟨4, 2, 2, 11, 5⟩]

def mlkemParametersValid (p : MlKemParameters) : Bool :=
  decide (2 ≤ p.k ∧ p.k ≤ 4 ∧ (p.eta1 = 2 ∨ p.eta1 = 3) ∧ p.eta2 = 2 ∧
    (p.du = 10 ∨ p.du = 11) ∧ (p.dv = 4 ∨ p.dv = 5))

def zeroPoly : Poly Int32 := Vector.replicate 256 0

/-- The loop `acc[i] = (acc[i] + f[i]) % q`. -/
def addPoly (acc f : Poly Int32) : Poly Int32 :=
  countUp 256 (fun i acc => store acc i ((coeff acc i + coeff f i) % 3329)) acc

/-- The sum of the products `a[j] * b[j]` in the NTT domain, added to `init`. -/
def accumulateProducts {k : Nat} (init : Poly Int32) (a b : Fin k → Poly Int32) : Poly Int32 :=
  Fin.foldl k (fun acc j => addPoly acc (multiplyNtt zeroPoly (a j) (b j))) init

def slice (bytes : List UInt8) (start length : Nat) : List UInt8 := (bytes.drop start).take length

def sampleCbd (hs : Hashes) (eta : Nat) (seed : List UInt8) (nonce : Nat) :
    Option (Poly Int32) := do
  let bytes ← hs.prf eta seed (UInt8.ofNat nonce)
  samplePolyCbd bytes zeroPoly (64 * eta)

/-- The XOF input of entry `(i, j)` ends in `j` and `i`. -/
def sampleMatrix (hs : Hashes) (k fuel : Nat) (rho : List UInt8) :
    Run (Fin k → Fin k → Poly Int32) :=
  collect fun i => collect fun j =>
    orDiverge (sampleNtt (hs.shake128 (rho ++ [UInt8.ofNat j, UInt8.ofNat i])) fuel zeroPoly)

def encodeVector {k : Nat} (f : Fin k → Poly Int32) (bitWidth : Nat) : Run (List UInt8) := do
  let parts ← collect fun i => orInternal (byteEncode (f i) bitWidth)
  pure (List.ofFn parts).flatten

def decodeVector (k bitWidth : Nat) (bytes : List UInt8) : Run (Fin k → Poly Int32) :=
  collect fun i =>
    orInternal (byteDecode (slice bytes (i * (32 * bitWidth)) (32 * bitWidth)) bitWidth zeroPoly)

/-- The seeds `rho` and `sigma` of a key. -/
def keySeeds (hs : Hashes) (p : MlKemParameters) (seed : List UInt8) : List UInt8 × List UInt8 :=
  hs.g (seed.take 32 ++ [UInt8.ofNat p.k])

def publicVector {k : Nat} (matrix : Fin k → Fin k → Poly Int32) (secret error : Fin k → Poly Int32)
    (i : Fin k) : Poly Int32 :=
  accumulateProducts (ntt (error i)) (matrix i) fun j => ntt (secret j)

def kPkeKeyGen (hs : Hashes) (p : MlKemParameters) (fuel : Nat) (calloc : Bool)
    (seed : List UInt8) : Run (List UInt8 × List UInt8) := do
  if !mlkemParametersValid p then throw .internal
  if !calloc then throw .allocationFailed
  let rho := (keySeeds hs p seed).1
  let sigma := (keySeeds hs p seed).2
  let matrix ← sampleMatrix hs p.k fuel rho
  let secret ← collect fun i : Fin p.k => orInternal (sampleCbd hs p.eta1 sigma i)
  let error ← collect fun i : Fin p.k => orInternal (sampleCbd hs p.eta1 sigma (p.k + i))
  let publicKey ← encodeVector (publicVector matrix secret error) 12
  let privateKey ← encodeVector (fun i => ntt (secret i)) 12
  pure (publicKey ++ rho, privateKey)

def ciphertextVector {k : Nat} (matrix : Fin k → Fin k → Poly Int32)
    (secret error : Fin k → Poly Int32) (i : Fin k) : Poly Int32 :=
  addPoly (nttInv (accumulateProducts zeroPoly (fun j => matrix j i) fun j => ntt (secret j)))
    (error i)

/-- The loop `acc[i] = (acc[i] + e[i] + m[i]) % q`. -/
def addTwo (acc e m : Poly Int32) : Poly Int32 :=
  countUp 256 (fun i acc => store acc i ((coeff acc i + coeff e i + coeff m i) % 3329)) acc

def ciphertextScalar {k : Nat} (publicNtt secret : Fin k → Poly Int32)
    (scalarError messagePolynomial : Poly Int32) : Poly Int32 :=
  addTwo (nttInv (accumulateProducts zeroPoly publicNtt fun j => ntt (secret j))) scalarError
    messagePolynomial

def kPkeEnc (hs : Hashes) (p : MlKemParameters) (fuel : Nat) (calloc : Bool)
    (publicKey message randomness : List UInt8) : Run (List UInt8) := do
  if !mlkemParametersValid p then throw .internal
  if !calloc then throw .allocationFailed
  let publicNtt ← decodeVector p.k 12 publicKey
  let rho := slice publicKey (p.k * 384) 32
  let matrix ← sampleMatrix hs p.k fuel rho
  let secret ← collect fun i : Fin p.k => orInternal (sampleCbd hs p.eta1 randomness i)
  let error ← collect fun i : Fin p.k => orInternal (sampleCbd hs p.eta2 randomness (p.k + i))
  let scalarError ← orInternal (sampleCbd hs p.eta2 randomness (p.k + p.k))
  let polynomial ← orInternal (byteDecode message 1 zeroPoly)
  let messagePolynomial ← orInternal (decomp polynomial 1 zeroPoly 256)
  let vector ← collect fun i =>
    orInternal (comp (ciphertextVector matrix secret error i) p.du zeroPoly 256)
  let first ← encodeVector vector p.du
  let scalar ← orInternal
    (comp (ciphertextScalar publicNtt secret scalarError messagePolynomial) p.dv zeroPoly 256)
  let second ← orInternal (byteEncode scalar p.dv)
  pure (first ++ second)

/-- The loop `m[i] = (v[i] - f[i] + q) % q`. -/
def subPoly (v f : Poly Int32) : Poly Int32 :=
  countUp 256 (fun i m => store m i ((coeff v i - coeff f i + 3329) % 3329)) zeroPoly

def messagePolynomial {k : Nat} (privateNtt vector : Fin k → Poly Int32) (scalar : Poly Int32) :
    Poly Int32 :=
  subPoly scalar (nttInv (accumulateProducts zeroPoly privateNtt fun i => ntt (vector i)))

def kPkeDec (p : MlKemParameters) (calloc : Bool) (privateKey ciphertext : List UInt8) :
    Run (List UInt8) := do
  if !mlkemParametersValid p then throw .internal
  if !calloc then throw .allocationFailed
  let compressed ← decodeVector p.k p.du ciphertext
  let vector ← collect fun i => orInternal (decomp (compressed i) p.du zeroPoly 256)
  let polynomial ← orInternal
    (byteDecode (slice ciphertext (p.k * (32 * p.du)) (32 * p.dv)) p.dv zeroPoly)
  let scalar ← orInternal (decomp polynomial p.dv zeroPoly 256)
  let privateNtt ← decodeVector p.k 12 privateKey
  let polynomial ← orInternal (comp (messagePolynomial privateNtt vector scalar) 1 zeroPoly 256)
  orInternal (byteEncode polynomial 1)

end LiberaCrypt.KPke
