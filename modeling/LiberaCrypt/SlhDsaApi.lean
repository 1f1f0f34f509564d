import LiberaCrypt.Def
import LiberaCrypt.SlhDsaCorrect
import LiberaCrypt.SlhSha2Correct

namespace LiberaCrypt.SlhDsaApi

open LiberaCrypt.Def LiberaCrypt.Outcome LiberaCrypt.SlhDsa LiberaCrypt.SlhDsaCorrect
open LiberaCrypt.SlhSha2 LiberaCrypt.SlhSha2Correct LiberaCrypt.SlhShake LiberaCrypt.SlhShakeCorrect
open LiberaCrypt.SlhTrees

/-- The values of `LiberaCAlgID` that have a parameter set; `other` is any other one. -/
inductive SlhDsaAlgID
  | sha2_128s
  | sha2_128f
  | sha2_192s
  | sha2_192f
  | sha2_256s
  | sha2_256f
  | shake_128s
  | shake_128f
  | shake_192s
  | shake_192f
  | shake_256s
  | shake_256f
  | other
  deriving DecidableEq

def param128s : SlhParam := ⟨16, 63, 7, 9, 12, 14, 4, 30⟩
def param128f : SlhParam := ⟨16, 66, 22, 3, 6, 33, 4, 34⟩
def param192s : SlhParam := ⟨24, 63, 7, 9, 14, 17, 4, 39⟩
def param192f : SlhParam := ⟨24, 66, 22, 3, 8, 33, 4, 42⟩
def param256s : SlhParam := ⟨32, 64, 8, 8, 14, 22, 4, 47⟩
def param256f : SlhParam := ⟨32, 68, 17, 4, 9, 35, 4, 49⟩

/-- The permutation, the compression functions and what the arrays hold before they are written. -/
structure Primitives where
  keccakF1600 : Permutation
  sha2_256Compress : Compression 32
  sha2_512Compress : Compression 64
  ks : List UInt8
  block256 : List UInt8
  block512 : List UInt8
  ks_length : ks.length = 200
  block256_length : block256.length = 64

section Parameters

variable (p : Primitives)

def shakeSet (prm : SlhParam) : SlhParam × SlhFunctions :=
  (prm, shakeFunctions p.keccakF1600 p.ks prm)

def sha2Set (prm : SlhParam) : SlhParam × SlhFunctions :=
  let sha := sha2_256 p.sha2_256Compress p.block256
  (prm, sha2Functions sha sha prm)

def sha2WideSet (prm : SlhParam) : SlhParam × SlhFunctions :=
  (prm, sha2Functions (sha2_256 p.sha2_256Compress p.block256)
    (sha2_512 p.sha2_512Compress p.block512) prm)

def slhDsaParameters : SlhDsaAlgID → Option (SlhParam × SlhFunctions)
  | .sha2_128s => some (sha2Set p param128s)
  | .sha2_128f => some (sha2Set p param128f)
  | .sha2_192s => some (sha2WideSet p param192s)
  | .sha2_192f => some (sha2WideSet p param192f)
  | .sha2_256s => some (sha2WideSet p param256s)
  | .sha2_256f => some (sha2WideSet p param256f)
  | .shake_128s => some (shakeSet p param128s)
  | .shake_128f => some (shakeSet p param128f)
  | .shake_192s => some (shakeSet p param192s)
  | .shake_192f => some (shakeSet p param192f)
  | .shake_256s => some (shakeSet p param256s)
  | .shake_256f => some (shakeSet p param256f)
  | .other => none

end Parameters

def slhPkSz (prm : SlhParam) : Nat := 2 * prm.n
def slhSkSz (prm : SlhParam) : Nat := 4 * prm.n

def signatureContextMaxBytes : Nat := 255

section Interface

variable (p : Primitives) (alg : SlhDsaAlgID)

def cryptoSlhDsaSignatureSizeInternal : Nat :=
  match slhDsaParameters p alg with
  | some (prm, _) => slhSigSz prm
  | none => 0

def cryptoSlhDsaKeygenSeededInternal (seed : Option (List UInt8))
    (publicKey privateKey : Option Nat) : Run (List UInt8 × List UInt8) :=
  match slhDsaParameters p alg with
  | none => throw .invalidAlgId
  | some (prm, fn) =>
    match seed, publicKey, privateKey with
    | some seed, some publicKeyLength, some privateKeyLength =>
      if publicKeyLength < slhPkSz prm ∨ privateKeyLength < slhSkSz prm then throw .bufferTooSmall
      else
        let n := slhPkSz prm / 2
        if seed.length ≠ 3 * n then throw .invalidArgument
        else orDiverge (slhKeygenInternal fn prm seed (seed.drop n) (seed.drop (2 * n)))
    | _, _, _ => throw .invalidArgument

def cryptoSlhDsaSignSeededInternal (randomness privateKey : Option (List UInt8))
    (message context : InputBytes) (signature : Option Nat) : Run (List UInt8) :=
  match slhDsaParameters p alg with
  | none => throw .invalidAlgId
  | some (prm, fn) =>
    match randomness, privateKey, signature with
    | some randomness, some privateKey, some signatureLength =>
      if message.missing ∨ context.missing then throw .invalidArgument
      else if signatureContextMaxBytes < context.data.length then throw .invalidArgument
      else if privateKey.length ≠ slhSkSz prm then throw .invalidKey
      else if signatureLength < slhSigSz prm then throw .bufferTooSmall
      else
        let n := slhPkSz prm / 2
        if randomness.length ≠ n then throw .invalidArgument
        else do
          let written ← orDiverge (slhSign fn prm message.data context.data privateKey
            (some randomness))
          if written.length ≠ slhSigSz prm then throw .internal else pure written
    | _, _, _ => throw .invalidArgument

def cryptoSlhDsaVerifyInternal (publicKey : Option (List UInt8)) (message context : InputBytes)
    (signature : Option (List UInt8)) : Run Unit :=
  match slhDsaParameters p alg with
  | none => throw .invalidAlgId
  | some (prm, fn) =>
    match publicKey, signature with
    | some publicKey, some signature =>
      if message.missing ∨ context.missing then throw .invalidArgument
      else if signatureContextMaxBytes < context.data.length then throw .invalidArgument
      else if publicKey.length ≠ slhPkSz prm then throw .invalidKey
      else if signature.length ≠ slhSigSz prm then throw .signatureInvalid
      else do
        let valid ← orDiverge (slhVerify fn prm message.data signature context.data publicKey)
        if valid then pure () else throw .signatureInvalid
    | _, _ => throw .invalidArgument

end Interface

section RoundTrip

variable {p : Primitives} {alg : SlhDsaAlgID} {prm : SlhParam} {fn : SlhFunctions}

theorem shakeSet_implements (hn : prm.n % 8 = 0) (hmax : prm.n ≤ 32) :
    Implements (shakeSet p prm).2 (shakeHash p.keccakF1600 prm) := fun _ hpk =>
  shakeFunctions_computes hn hmax p.ks_length hpk

theorem sha2Set_implements (hpos : 0 < prm.n) (hmax : prm.n ≤ 32) :
    Implements (sha2Set p prm).2 (sha2Hash p.sha2_256Compress p.block256
      (sha2_256 p.sha2_256Compress p.block256) prm hmax hmax) := fun _ hpk =>
  sha2Functions_computes hpos p.block256_length hpk

theorem sha2WideSet_implements (hpos : 0 < prm.n) (hmax : prm.n ≤ 32) (hwide : prm.n ≤ 64) :
    Implements (sha2WideSet p prm).2 (sha2Hash p.sha2_256Compress p.block256
      (sha2_512 p.sha2_512Compress p.block512) prm hmax hwide) := fun _ hpk =>
  sha2Functions_computes hpos p.block256_length hpk

theorem slhDsaParameters_sound (halg : slhDsaParameters p alg = some (prm, fn)) :
    Sound prm ∧ ∃ hash : SlhHash prm.n, Implements fn hash := by
  cases alg with
  | sha2_128s | sha2_128f =>
    cases halg
    exact ⟨by decide, _, sha2Set_implements (by decide) (by decide)⟩
  | sha2_192s | sha2_192f | sha2_256s | sha2_256f =>
    cases halg
    exact ⟨by decide, _, sha2WideSet_implements (by decide) (by decide) (by decide)⟩
  | shake_128s | shake_128f | shake_192s | shake_192f | shake_256s | shake_256f =>
    cases halg
    exact ⟨by decide, _, shakeSet_implements (by decide) (by decide)⟩
  | other => cases halg

/-- The keys that a seed gives, the signature that a private key makes of any message and context,
and its verification with the public key. -/
theorem slh_dsa_round_trip (halg : slhDsaParameters p alg = some (prm, fn))
    {seed randomness : List UInt8} (hseed : seed.length = 3 * prm.n)
    (hrandomness : randomness.length = prm.n)
    {publicKeyLength privateKeyLength signatureLength : Nat}
    (hpublic : slhPkSz prm ≤ publicKeyLength) (hprivate : slhSkSz prm ≤ privateKeyLength)
    (hsignature : slhSigSz prm ≤ signatureLength) {message context : InputBytes}
    (hmessage : message.missing = false) (hcontext : context.missing = false)
    (hlength : context.data.length ≤ signatureContextMaxBytes) :
    ∃ publicKey privateKey signature,
      cryptoSlhDsaKeygenSeededInternal p alg (some seed) (some publicKeyLength)
        (some privateKeyLength) = pure (publicKey, privateKey) ∧
      cryptoSlhDsaSignSeededInternal p alg (some randomness) (some privateKey) message context
        (some signatureLength) = pure signature ∧
      signature.length = cryptoSlhDsaSignatureSizeInternal p alg ∧
      cryptoSlhDsaVerifyInternal p alg (some publicKey) message context (some signature) =
        pure () := by
  obtain ⟨hprm, hash, hfn⟩ := slhDsaParameters_sound halg
  have hhalf : slhPkSz prm / 2 = prm.n := Nat.mul_div_cancel_left _ (by decide)
  let skSeed := seed.take prm.n
  let skPrf := (seed.drop prm.n).take prm.n
  let pkSeed := seed.drop (2 * prm.n)
  have hskSeed : skSeed.length = prm.n := by
    rw [List.length_take]
    omega
  have hskPrf : skPrf.length = prm.n := by
    rw [List.length_take, List.length_drop]
    omega
  have hpkSeed : pkSeed.length = prm.n := by
    rw [List.length_drop]
    omega
  have hroot : (topRoot hash ⟨skSeed, pkSeed⟩).length = prm.n := topRoot_length _
  have hkeys : slhKeygenInternal fn prm seed (seed.drop prm.n) (seed.drop (2 * prm.n)) =
      slhKeygenInternal fn prm skSeed skPrf pkSeed := by
    have htake : ∀ l : List UInt8, (l.take prm.n).take prm.n = l.take prm.n :=
      fun l => by rw [List.take_take, Nat.min_self]
    simp only [slhKeygenInternal, skSeed, skPrf, pkSeed, htake]
  obtain ⟨signature, hsign, hsize, hverify⟩ := signMessage_accepted hfn hprm hskSeed hskPrf hpkSeed
    message.data (some context.data) (some randomness)
  refine ⟨pkSeed ++ topRoot hash ⟨skSeed, pkSeed⟩,
    skSeed ++ skPrf ++ pkSeed ++ topRoot hash ⟨skSeed, pkSeed⟩, signature, ?_, ?_, ?_, ?_⟩
  · unfold cryptoSlhDsaKeygenSeededInternal
    rw [halg]
    dsimp only
    rw [if_neg (by omega), hhalf, if_neg (by omega), hkeys,
      slhKeygenInternal_eq hfn hprm hskSeed hskPrf hpkSeed]
    rfl
  · have hkey : (skSeed ++ skPrf ++ pkSeed ++ topRoot hash ⟨skSeed, pkSeed⟩).length =
        slhSkSz prm := by
      simp only [List.length_append, hskSeed, hskPrf, hpkSeed, hroot, slhSkSz]
      omega
    have hsigned : slhSign fn prm message.data context.data
        (skSeed ++ skPrf ++ pkSeed ++ topRoot hash ⟨skSeed, pkSeed⟩) (some randomness) =
          some signature := by
      rw [slhSign, if_neg (show ¬ 255 < context.data.length from not_lt.mpr hlength)]
      exact hsign
    unfold cryptoSlhDsaSignSeededInternal
    rw [halg]
    dsimp only
    rw [if_neg (by simp [hmessage, hcontext]), if_neg (not_lt.mpr hlength),
      if_neg (not_not.mpr hkey), if_neg (not_lt.mpr hsignature), hhalf,
      if_neg (not_not.mpr hrandomness), hsigned]
    change (if signature.length ≠ slhSigSz prm then throw .internal else pure signature :
      Run (List UInt8)) = _
    rw [if_neg (not_not.mpr hsize)]
  · unfold cryptoSlhDsaSignatureSizeInternal
    rw [halg]
    exact hsize
  · have hkey : (pkSeed ++ topRoot hash ⟨skSeed, pkSeed⟩).length = slhPkSz prm := by
      simp only [List.length_append, hpkSeed, hroot, slhPkSz]
      omega
    have hverified : slhVerify fn prm message.data signature context.data
        (pkSeed ++ topRoot hash ⟨skSeed, pkSeed⟩) = some true := by
      rw [slhVerify, if_neg (show ¬ 255 < context.data.length from not_lt.mpr hlength)]
      exact hverify
    unfold cryptoSlhDsaVerifyInternal
    rw [halg]
    dsimp only
    rw [if_neg (by simp [hmessage, hcontext]), if_neg (not_lt.mpr hlength),
      if_neg (not_not.mpr hkey), if_neg (not_not.mpr hsize), hverified]
    rfl

def constantPrimitives : Primitives where
  keccakF1600 := ⟨fun _ => List.replicate 200 0, fun _ => List.length_replicate ..⟩
  sha2_256Compress := ⟨fun _ _ => List.replicate 32 0, fun _ _ => List.length_replicate ..⟩
  sha2_512Compress := ⟨fun _ _ => List.replicate 64 0, fun _ _ => List.length_replicate ..⟩
  ks := List.replicate 200 0
  block256 := List.replicate 64 0
  block512 := List.replicate 128 0
  ks_length := List.length_replicate ..
  block256_length := List.length_replicate ..

theorem slh_dsa_round_trip_sample : ∃ publicKey privateKey signature,
    cryptoSlhDsaKeygenSeededInternal constantPrimitives .shake_128f (some (List.replicate 48 7))
      (some 32) (some 64) = pure (publicKey, privateKey) ∧
    cryptoSlhDsaSignSeededInternal constantPrimitives .shake_128f (some (List.replicate 16 9))
      (some privateKey) (.bytes [1, 2, 3]) (.null 0) (some 17088) = pure signature ∧
    signature.length = cryptoSlhDsaSignatureSizeInternal constantPrimitives .shake_128f ∧
    cryptoSlhDsaVerifyInternal constantPrimitives .shake_128f (some publicKey) (.bytes [1, 2, 3])
      (.null 0) (some signature) = pure () :=
  have hsize : slhSigSz param128f ≤ 17088 := by decide +kernel
  @slh_dsa_round_trip constantPrimitives .shake_128f param128f _ rfl _ _ (List.length_replicate ..)
    (List.length_replicate ..) 32 64 17088 (le_refl _) (le_refl _) hsize (.bytes [1, 2, 3])
    (.null 0) rfl rfl (Nat.zero_le _)

end RoundTrip

end LiberaCrypt.SlhDsaApi
