import LiberaCrypt.Ed25519Order
import LiberaCrypt.Ed25519Signature
import LiberaCrypt.Hmac

namespace LiberaCrypt.Ed25519SignatureCorrect

open LiberaCrypt.ByteMemory LiberaCrypt.Def LiberaCrypt.Ed25519 LiberaCrypt.Ed25519Codec
open LiberaCrypt.Ed25519Curve LiberaCrypt.Ed25519Group LiberaCrypt.Ed25519Order
open LiberaCrypt.Ed25519Scalar LiberaCrypt.Ed25519ScalarCorrect LiberaCrypt.Ed25519Signature
open LiberaCrypt.ExtendedEdwards LiberaCrypt.Field25519 LiberaCrypt.Field25519Bytes
open LiberaCrypt.Field25519Product LiberaCrypt.Field25519Subtract LiberaCrypt.Field25519Values
open LiberaCrypt.Hmac LiberaCrypt.Limbs LiberaCrypt.Outcome LiberaCrypt.Radix LiberaCrypt.Sha2
open LiberaCrypt.TwistedEdwards LiberaCrypt.WordArithmetic

section Points

instance pointDecidableEq : DecidableEq (Point curveD) := fun p q =>
  decidable_of_iff (p.x = q.x ∧ p.y = q.y) Point.ext_iff.symm

variable {E E' : Extended (ZMod prime)} {p q : Point curveD} {scalar : List UInt8}

theorem pointIsIdentity_coordinates (h : E.Represents p) :
    pointIsIdentity machine (coordinates E) = pure (decide (p = 0)) := by
  simp only [pointIsIdentity, coordinates, feIsZero_element machine_exact,
    feEqual_element machine_exact, pure_bind, decide_eq_true_eq, h.eq_zero_iff]
  by_cases hx : E.x = 0 <;> simp [hx]

theorem pointEqual_coordinates (h : E.Represents p) (h' : E'.Represents q) :
    pointEqual machine (coordinates E) (coordinates E') = pure (decide (p = q)) := by
  simp only [pointEqual, coordinates, feMul_element machine_exact, feEqual_element machine_exact,
    pure_bind, decide_eq_true_eq, h.eq_iff h']
  by_cases hx : E.x * E'.z = E'.x * E.z <;> simp [hx]

theorem ed25519LBytes_value : bytesValue ed25519LBytes = order := by decide

theorem pointIsPrimeOrder_coordinates (h : E.Represents p) :
    pointIsPrimeOrder (coordinates E) = decide (p ≠ 0 ∧ order • p = 0) := by
  have hmultiple := scalarMultiple_represents h (show ed25519LBytes.length = 32 from rfl)
  rw [ed25519LBytes_value] at hmultiple
  rw [pointIsPrimeOrder, pointScalarMultiply_coordinates machine_exact]
  dsimp only [pure]
  rw [pointIsIdentity_coordinates h, pointIsIdentity_coordinates hmultiple]
  simp [pure, Bool.decide_and]

theorem scalarIsCanonical_eq (hlength : scalar.length = 32) :
    scalarIsCanonical scalar = decide (bytesValue scalar < order) := by
  have hwords : (scalarFromBytes scalar).length = ed25519L.length := scalarFromBytes_length scalar
  obtain ⟨r, hr, hlen, hlast, hvalue⟩ := scalarBorrowRow_value machine_exact hwords zero_le_one
  have hbound := wordsValue_lt r.1
  rw [hlen, scalarFromBytes_length] at hbound
  rw [ed25519L_value, scalarFromBytes_value hlength, scalarFromBytes_length, UInt32.toNat_zero,
    Nat.add_zero] at hvalue
  rw [scalarIsCanonical, hr]
  dsimp only [pure]
  cases bit_cases hlast with
  | inl h0 =>
    rw [h0, UInt32.toNat_zero, Nat.mul_zero, Nat.add_zero] at hvalue
    rw [h0, decide_eq_false (by omega)]
    rfl
  | inr h1 =>
    rw [h1, UInt32.toNat_one, Nat.mul_one] at hvalue
    rw [h1, decide_eq_true (by omega)]
    rfl

theorem multiply_base (hlength : scalar.length = 32) :
    ∃ L : Extended (ZMod prime), pointScalarMultiply machine pointBase scalar = pure (coordinates L) ∧
      L.Represents (bytesValue scalar • base) := by
  have hpoint : pointBase = coordinates (values pointBase) := basePoint.point_eq
  rw [hpoint, pointScalarMultiply_coordinates machine_exact]
  exact ⟨_, rfl, scalarMultiple_represents basePoint.valid.represents hlength⟩

theorem encoded_multiple (hlength : scalar.length = 32) :
    pointEncode machine (pointScalarMultiply machine pointBase scalar) =
      pointBytes (bytesValue scalar • base) := by
  obtain ⟨L, hmultiple, hL⟩ := multiply_base hlength
  rw [hmultiple]
  exact pointEncode_coordinates machine_exact hL

theorem pointBytes_injective : Function.Injective pointBytes := by
  intro p q h
  have hvalue := congrArg bytesValue h
  rw [pointBytes_value, pointBytes_value] at hvalue
  exact pointNumber_injective (Fin.ext hvalue)

theorem pointDecode_pointBytes (p : Point curveD) :
    pointDecode machine (pointBytes p) = (coordinates (decodedPoint p.x p.y), true) :=
  pointDecode_of_point machine_exact (pointBytes_length p) (pointBytes_value p)

theorem pointDecode_other {input : List UInt8} (hlength : input.length = 32)
    (h : ∀ p, pointBytes p ≠ input) : pointDecode machine input = (pointIdentity, false) := by
  apply pointDecode_reject machine_exact hlength
  intro p hvalue
  apply h p
  apply bytesValue_injective ((pointBytes_length p).trans hlength.symm)
  rw [pointBytes_value, hvalue]

end Points

section Verification

variable {sha512Parts : Sha512Parts} {publicKey message signature : List UInt8}

/-- What verification asks for: canonical encodings, a public key of the prime order, a reduced
response, and the equation. -/
structure Accepted (sha512Parts : Sha512Parts) (publicKey message signature : List UInt8)
    (A R : Point curveD) (digest : List UInt8) : Prop where
  key : pointBytes A = publicKey
  nonzero : A ≠ 0
  torsion : order • A = 0
  nonce : pointBytes R = signature.take 32
  response : bytesValue (signature.drop 32) < order
  hashed : sha512Parts (signature.take 32) publicKey message = .ok digest
  equation : bytesValue (signature.drop 32) • base = R + (bytesValue digest % order) • A

/-- The equation is what is left once the encodings and the scalar are in order. -/
theorem checkSignature_equation {A R : Point curveD} (hA : pointBytes A = publicKey)
    (hR : pointBytes R = signature.take 32) (hresponse : (signature.drop 32).length = 32)
    (hprime : A ≠ 0 ∧ order • A = 0) (hlt : bytesValue (signature.drop 32) < order) :
    ed25519CheckSignature sha512Parts publicKey message signature =
      (sha512Parts (signature.take 32) publicKey message >>= fun digest =>
        if bytesValue (signature.drop 32) • base = R + (bytesValue digest % order) • A then .ok ()
        else .error .signatureInvalid) := by
  have hdecodeA := pointDecode_pointBytes A
  have hdecodeR := pointDecode_pointBytes R
  rw [hA] at hdecodeA
  rw [hR] at hdecodeR
  rw [ed25519CheckSignature, hdecodeA, hdecodeR]
  dsimp only
  rw [pointIsPrimeOrder_coordinates (decodedPoint_represents A), scalarIsCanonical_eq hresponse,
    decide_eq_true hprime, decide_eq_true hlt, if_neg (by decide), if_neg (by decide)]
  congr 1
  funext digest
  obtain ⟨challenge, hchallenge, hlength, hvalue⟩ := scalarReduce_value machine_exact digest
  obtain ⟨L, hleft, hL⟩ := multiply_base hresponse
  have hmultiple := scalarMultiple_represents (decodedPoint_represents A) hlength
  have hsum := (decodedPoint_represents R).add hmultiple
  have hequal := pointEqual_coordinates hL hsum
  rw [hvalue] at hequal
  have hright := pointScalarMultiply_coordinates machine_exact (decodedPoint A.x A.y) challenge
  have hadd := pointAdd_coordinates machine_exact (decodedPoint R.x R.y)
    (scalarMultiple (decodedPoint A.x A.y) challenge)
  simp only [pure] at hchallenge hleft hright hadd hequal
  rw [hchallenge, hleft, hright, hadd, hequal]
  simp only [decide_eq_true_eq]

theorem ed25519CheckSignature_ok (hkey : publicKey.length = 32) (hsignature : signature.length = 64) :
    ed25519CheckSignature sha512Parts publicKey message signature = .ok () ↔
      ∃ A R digest, Accepted sha512Parts publicKey message signature A R digest := by
  have hresponse : (signature.drop 32).length = 32 := by rw [List.length_drop, hsignature]
  have hnonce : (signature.take 32).length = 32 := by rw [List.length_take, hsignature]; rfl
  constructor
  · intro h
    have hchecks := h
    rw [ed25519CheckSignature] at hchecks
    dsimp only at hchecks
    split_ifs at hchecks with hdecoded hcanonical
    rw [not_or, Bool.not_eq_false, Bool.not_eq_false] at hdecoded hcanonical
    obtain ⟨hpublic, hprime⟩ := hdecoded
    obtain ⟨hlt, hencoded⟩ := hcanonical
    obtain ⟨A, hA⟩ : ∃ A, pointBytes A = publicKey := by
      by_contra hother
      rw [pointDecode_other hkey (not_exists.mp hother)] at hpublic
      cases hpublic
    obtain ⟨R, hR⟩ : ∃ R, pointBytes R = signature.take 32 := by
      by_contra hother
      rw [pointDecode_other hnonce (not_exists.mp hother)] at hencoded
      cases hencoded
    have hdecodeA := pointDecode_pointBytes A
    rw [hA] at hdecodeA
    rw [hdecodeA, pointIsPrimeOrder_coordinates (decodedPoint_represents A),
      decide_eq_true_eq] at hprime
    rw [scalarIsCanonical_eq hresponse, decide_eq_true_eq] at hlt
    rw [checkSignature_equation hA hR hresponse hprime hlt, bind_eq_ok] at h
    obtain ⟨digest, hdigest, hequation⟩ := h
    split_ifs at hequation with heq
    exact ⟨A, R, digest, hA, hprime.1, hprime.2, hR, hlt, hdigest, heq⟩
  · rintro ⟨A, R, digest, h⟩
    rw [checkSignature_equation h.key h.nonce hresponse ⟨h.nonzero, h.torsion⟩ h.response,
      h.hashed]
    exact if_pos h.equation

end Verification

section Clamp

variable {expanded : List UInt8}

theorem clamp_length (expanded : List UInt8) : (clamp expanded).length = expanded.length := by
  simp [clamp]

theorem clamped_low (b : UInt8) : (b &&& 248).toNat % 8 = 0 := by
  rw [UInt8.toNat_and]
  change (b.toNat &&& 248) % 2 ^ 3 = 0
  rw [Nat.and_mod_two_pow]
  exact Nat.and_zero _

theorem clamped_high (b : UInt8) : ((b &&& 63) ||| 64).toNat = 64 + b.toNat % 64 := by
  have hlow : (b &&& 63).toNat = b.toNat % 64 := by
    rw [UInt8.toNat_and]
    exact Nat.and_two_pow_sub_one_eq_mod b.toNat 6
  rw [UInt8.toNat_or, hlow, Nat.or_comm]
  exact (Nat.two_pow_add_eq_or_of_lt (i := 6) (Nat.mod_lt _ (by decide)) 1).symm

/-- A clamped scalar is a multiple of eight with its highest bit in one place. -/
theorem clamp_value (hlength : 32 ≤ expanded.length) :
    bytesValue ((clamp expanded).take 32) % 8 = 0 ∧
      2 ^ 254 ≤ bytesValue ((clamp expanded).take 32) ∧
      bytesValue ((clamp expanded).take 32) < 2 ^ 255 := by
  have htake : ((clamp expanded).take 32).length = 32 := by
    rw [List.length_take, clamp_length]
    omega
  have hbound := bytesValue_lt ((clamp expanded).take 32)
  have hfirst := getD_toNat ((clamp expanded).take 32) 0
  have hlast := getD_toNat ((clamp expanded).take 32) 31
  have hlow : ((clamp expanded).take 32).getD 0 0 = expanded.getD 0 0 &&& 248 := by
    rw [List.getD_eq_getElem _ _ (by omega), List.getElem_take]
    simp [clamp]
  have hhigh : ((clamp expanded).take 32).getD 31 0 =
      (expanded.getD 31 0 &&& 63) ||| 64 := by
    have hlong : 31 < expanded.length := hlength
    rw [List.getD_eq_getElem _ _ (by omega), List.getElem_take]
    simp [clamp, hlong]
  have height := clamped_low (expanded.getD 0 0)
  have htop := clamped_high (expanded.getD 31 0)
  rw [htake] at hbound
  rw [hlow] at hfirst
  rw [hhigh] at hlast
  omega

/-- The order divides no clamped scalar: it would divide an eighth of it, which is smaller. -/
theorem clamp_order (hlength : 32 ≤ expanded.length) :
    ¬ order ∣ bytesValue ((clamp expanded).take 32) := by
  obtain ⟨height, hlow, hhigh⟩ := clamp_value hlength
  have hsplit : bytesValue ((clamp expanded).take 32) =
      8 * (bytesValue ((clamp expanded).take 32) / 8) := by omega
  intro hdvd
  rw [hsplit] at hdvd
  have hcoprime : Nat.Coprime order 8 := by decide
  have hle := Nat.le_of_dvd (by omega) (hcoprime.dvd_of_dvd_mul_left hdvd)
  unfold order at hle
  omega

end Clamp

section Signing

variable {sha512Parts : Sha512Parts} {sha512 : List UInt8 → List UInt8}
  {seed message : List UInt8}

/-- The parts are hashed as one string, to 64 bytes, if their lengths are lengths of objects. -/
structure Hashes (sha512Parts : Sha512Parts) (sha512 : List UInt8 → List UInt8) : Prop where
  length : ∀ xs, (sha512 xs).length = 64
  parts : ∀ {part0 part1 part2 : List UInt8}, part0.length < 2 ^ 64 → part1.length < 2 ^ 64 →
    part2.length < 2 ^ 64 → sha512Parts part0 part1 part2 = .ok (sha512 (part0 ++ part1 ++ part2))

def publicPoint (sha512 : List UInt8 → List UInt8) (seed : List UInt8) : Point curveD :=
  bytesValue ((clamp (sha512 seed)).take 32) • base

theorem publicPoint_order (h : Hashes sha512Parts sha512) (seed : List UInt8) :
    publicPoint sha512 seed ≠ 0 ∧ order • publicPoint sha512 seed = 0 := by
  constructor
  · rw [publicPoint, ne_eq, nsmul_base_eq_zero]
    exact clamp_order (by rw [h.length]; decide)
  · rw [publicPoint, ← mul_nsmul', nsmul_base_eq_zero]
    exact Nat.dvd_mul_right _ _

theorem secret_length (h : Hashes sha512Parts sha512) (seed : List UInt8) :
    ((clamp (sha512 seed)).take 32).length = 32 := by
  rw [List.length_take, clamp_length, h.length]
  rfl

theorem hash_seed (h : Hashes sha512Parts sha512) (hseed : seed.length = 32) :
    sha512Parts seed [] [] = .ok (sha512 seed) := by
  rw [h.parts (by rw [hseed]; decide) (by decide) (by decide), List.append_nil, List.append_nil]

theorem ed25519PublicFromSeed_eq (h : Hashes sha512Parts sha512) (hseed : seed.length = 32) :
    ed25519PublicFromSeed sha512Parts seed = .ok (pointBytes (publicPoint sha512 seed)) := by
  have hencode := encoded_multiple (secret_length h seed)
  rw [ed25519PublicFromSeed, hash_seed h hseed]
  exact congrArg Except.ok hencode

/-- The signature of a message is accepted under the public key of the seed. -/
theorem ed25519LocalSignature_accepted (h : Hashes sha512Parts sha512) (hseed : seed.length = 32)
    (hmessage : message.length < 2 ^ 64) :
    ∃ signature R digest, signature.length = 64 ∧
      ed25519LocalSignature sha512Parts seed message = .ok signature ∧
      Accepted sha512Parts (pointBytes (publicPoint sha512 seed)) message signature
        (publicPoint sha512 seed) R digest := by
  obtain ⟨hnonzero, htorsion⟩ := publicPoint_order h seed
  have hnonceHash : sha512Parts (((clamp (sha512 seed)).drop 32).take 32) message [] =
      .ok (sha512 (((clamp (sha512 seed)).drop 32).take 32 ++ message)) := by
    rw [h.parts _ hmessage (by decide), List.append_nil]
    exact (List.length_take_le _ _).trans_lt (by decide)
  obtain ⟨nonce, hnonce, hnonceLength, hnonceValue⟩ := scalarReduce_value machine_exact
    (sha512 (((clamp (sha512 seed)).drop 32).take 32 ++ message))
  have hbytes : ∀ p : Point curveD, (pointBytes p).length < 2 ^ 64 := fun p => by
    rw [pointBytes_length]
    decide
  have hchallengeHash := h.parts (hbytes (bytesValue nonce • base))
    (hbytes (publicPoint sha512 seed)) hmessage
  obtain ⟨challenge, hchallenge, hchallengeLength, hchallengeValue⟩ :=
    scalarReduce_value machine_exact (sha512 (pointBytes (bytesValue nonce • base) ++
      pointBytes (publicPoint sha512 seed) ++ message))
  obtain ⟨response, hresponse, hresponseLength, hresponseValue⟩ :=
    scalarMulAdd_value machine_exact hchallengeLength (secret_length h seed) hnonceLength
  have htake : (pointBytes (bytesValue nonce • base) ++ response).take 32 =
      pointBytes (bytesValue nonce • base) := List.take_left' (pointBytes_length _)
  have hdrop : (pointBytes (bytesValue nonce • base) ++ response).drop 32 = response :=
    List.drop_left' (pointBytes_length _)
  refine ⟨pointBytes (bytesValue nonce • base) ++ response, bytesValue nonce • base,
    sha512 (pointBytes (bytesValue nonce • base) ++ pointBytes (publicPoint sha512 seed) ++ message),
    ?_, ?_, rfl, hnonzero, htorsion, htake.symm, ?_, ?_, ?_⟩
  · rw [List.length_append, pointBytes_length, hresponseLength]
  · have hpublic := encoded_multiple (secret_length h seed)
    have hencoded := encoded_multiple hnonceLength
    simp only [pure] at hnonce hchallenge hresponse
    rw [ed25519LocalSignature, hash_seed h hseed]
    dsimp only [bind, Except.bind]
    rw [hpublic, hnonceHash]
    dsimp only
    rw [hnonce, hencoded]
    change Except.bind (sha512Parts (pointBytes (bytesValue nonce • base))
      (pointBytes (publicPoint sha512 seed)) message) _ = _
    rw [hchallengeHash]
    dsimp only [Except.bind]
    rw [hchallenge, hresponse]
    rfl
  · rw [hdrop, hresponseValue]
    exact Nat.mod_lt _ order_prime.pos
  · rw [htake]
    exact hchallengeHash
  · rw [hdrop, hresponseValue, nsmul_base_mod, hchallengeValue, add_nsmul, mul_nsmul', add_comm]
    rfl

end Signing

section Calls

variable {sha512Parts : Sha512Parts} {sha512 : List UInt8 → List UInt8}
  {seed message publicBytes signatureBytes : List UInt8}

/-- Wherever the seed and a large enough separate output are, the public key is written. -/
def Derives (sha512Parts : Sha512Parts) (seed publicBytes : List UInt8) : Prop :=
  ∀ (memory : Memory) (publicKey publicKeyLength privateKey : Nat),
    publicKey ≠ 0 → privateKey ≠ 0 → 32 ≤ publicKeyLength →
    Disjoint publicKey 32 privateKey seed.length →
    readBytes memory privateKey seed.length = seed →
    cryptoEd25519PublicFromPrivateInternal sha512Parts .ed25519 publicKey publicKeyLength privateKey
      seed.length memory = (.ok (), writeBytes memory publicKey publicBytes)

/-- Wherever the seed, the message and a large enough separate output are, the signature is
written. -/
def Signs (sha512Parts : Sha512Parts) (seed message signatureBytes : List UInt8) : Prop :=
  ∀ (memory : Memory) (privateKey messageAt signature signatureLength : Nat),
    privateKey ≠ 0 → signature ≠ 0 → (messageAt = 0 → message = []) → 64 ≤ signatureLength →
    Disjoint signature 64 privateKey seed.length → Disjoint signature 64 messageAt message.length →
    readBytes memory privateKey seed.length = seed →
    readBytes memory messageAt message.length = message →
    cryptoEd25519SignInternal sha512Parts .ed25519 privateKey seed.length messageAt message.length
      signature signatureLength memory = (.ok (), writeBytes memory signature signatureBytes)

/-- Wherever the key, the message and the signature are, they are accepted. -/
def Verifies (sha512Parts : Sha512Parts) (publicBytes message signatureBytes : List UInt8) : Prop :=
  ∀ (memory : Memory) (publicKey messageAt signature : Nat),
    publicKey ≠ 0 → signature ≠ 0 → (messageAt = 0 → message = []) →
    readBytes memory publicKey publicBytes.length = publicBytes →
    readBytes memory messageAt message.length = message →
    readBytes memory signature signatureBytes.length = signatureBytes →
    cryptoEd25519VerifyInternal sha512Parts .ed25519 publicKey publicBytes.length messageAt
      message.length signature signatureBytes.length memory = (.ok (), memory)

/-- Some call of the verification accepts the key, the message and the signature. -/
def Accepts (sha512Parts : Sha512Parts) (publicBytes message signatureBytes : List UInt8) : Prop :=
  ∃ (alg : LiberaCAlgID) (memory : Memory) (publicKey messageAt signature : Nat),
    readBytes memory publicKey publicBytes.length = publicBytes ∧
    readBytes memory messageAt message.length = message ∧
    readBytes memory signature signatureBytes.length = signatureBytes ∧
    (cryptoEd25519VerifyInternal sha512Parts alg publicKey publicBytes.length messageAt
      message.length signature signatureBytes.length memory).1 = .ok ()

theorem derives (h : Hashes sha512Parts sha512) (hseed : seed.length = 32) :
    Derives sha512Parts seed (pointBytes (publicPoint sha512 seed)) := by
  intro memory publicKey publicKeyLength privateKey hpublic hprivate hroom hdisjoint hread
  have hoverlap := (cryptoRangesOverlap_iff _ _ _ _).mpr hdisjoint
  rw [cryptoEd25519PublicFromPrivateInternal, if_neg (by simp), if_neg (by simp [hpublic, hprivate]),
    if_neg (by simp [hseed]), if_neg (not_lt.mpr hroom), hoverlap, if_neg (by decide),
    compute_ok_bind]
  apply wipeOnError_ok
  rw [load_bind, hread, ed25519PublicFromSeed_eq h hseed, compute_ok_bind]
  rfl

theorem signs (hseed : seed.length = 32)
    (h : ed25519LocalSignature sha512Parts seed message = .ok signatureBytes) :
    Signs sha512Parts seed message signatureBytes := by
  intro memory privateKey messageAt signature signatureLength hprivate hsignature hnull hroom
    hkey hmessage hread hreadMessage
  have hoverlapKey := (cryptoRangesOverlap_iff _ _ _ _).mpr hkey
  have hoverlapMessage := (cryptoRangesOverlap_iff _ _ _ _).mpr hmessage
  rw [cryptoEd25519SignInternal, if_neg (by simp),
    if_neg (by simpa [hprivate, hsignature] using hnull),
    if_neg (by simp [hseed]), if_neg (not_lt.mpr hroom), hoverlapKey, hoverlapMessage,
    if_neg (by decide), compute_ok_bind]
  apply wipeOnError_ok
  rw [load_bind, hread, load_bind, hreadMessage, h, compute_ok_bind]
  rfl

theorem verifies {signatureBytes : List UInt8} (hkey : publicBytes.length = 32)
    (hlength : signatureBytes.length = 64)
    (h : ed25519CheckSignature sha512Parts publicBytes message signatureBytes = .ok ()) :
    Verifies sha512Parts publicBytes message signatureBytes := by
  intro memory publicKey messageAt signature hpublic hsignature hnull hread hreadMessage
    hreadSignature
  rw [cryptoEd25519VerifyInternal, if_neg (by simp),
    if_neg (by simpa [hpublic, hsignature] using hnull),
    if_neg (by simp [hkey]), if_neg (by simp [hlength]), compute_ok_bind, load_bind, hread,
    load_bind, hreadMessage, load_bind, hreadSignature, h]
  rfl

/-- An accepted call has passed the checks of the lengths and of the signature. -/
theorem Accepts.checks (h : Accepts sha512Parts publicBytes message signatureBytes) :
    publicBytes.length = 32 ∧ signatureBytes.length = 64 ∧
      ed25519CheckSignature sha512Parts publicBytes message signatureBytes = .ok () := by
  obtain ⟨alg, memory, publicKey, messageAt, signature, hread, hreadMessage, hreadSignature, hok⟩ := h
  rw [cryptoEd25519VerifyInternal] at hok
  split_ifs at hok with halg hnull hkey hlength
  · cases hok
  · cases hok
  · cases hok
  · cases hok
  · rw [compute_ok_bind, load_bind, hread, load_bind, hreadMessage, load_bind, hreadSignature] at hok
    exact ⟨not_not.mp hkey, not_not.mp hlength, hok⟩

theorem Verifies.accepts {signatureBytes : List UInt8}
    (h : Verifies sha512Parts publicBytes message signatureBytes) :
    Accepts sha512Parts publicBytes message signatureBytes := by
  obtain ⟨memory, hread, hreadMessage, hreadSignature⟩ : ∃ memory,
      readBytes memory 1 publicBytes.length = publicBytes ∧
      readBytes memory (1 + publicBytes.length) message.length = message ∧
      readBytes memory (1 + publicBytes.length + message.length) signatureBytes.length =
        signatureBytes := by
    refine ⟨writeBytes (writeBytes (writeBytes ⟨fun _ => 0⟩ 1 publicBytes) (1 + publicBytes.length)
      message) (1 + publicBytes.length + message.length) signatureBytes, ?_, ?_, read_write _ _ _⟩
    · rw [read_write_disjoint, read_write_disjoint, read_write] <;>
      · intro i hi j hj
        omega
    · rw [read_write_disjoint, read_write]
      intro i hi j hj
      omega
  refine ⟨.ed25519, memory, 1, 1 + publicBytes.length, 1 + publicBytes.length + message.length,
    hread, hreadMessage, hreadSignature, ?_⟩
  rw [h memory _ _ _ one_ne_zero (by omega) (by omega) hread hreadMessage hreadSignature]

/-- For every seed and message, the public key of the seed accepts what is signed with the seed. -/
theorem ed25519_sign_verify (h : Hashes sha512Parts sha512) (hseed : seed.length = 32)
    (hmessage : message.length < 2 ^ 64) :
    ∃ publicBytes signatureBytes, publicBytes.length = 32 ∧ signatureBytes.length = 64 ∧
      Derives sha512Parts seed publicBytes ∧ Signs sha512Parts seed message signatureBytes ∧
      Verifies sha512Parts publicBytes message signatureBytes := by
  obtain ⟨signatureBytes, R, digest, hlength, hlocal, haccepted⟩ :=
    ed25519LocalSignature_accepted h hseed hmessage
  have hkey := pointBytes_length (publicPoint sha512 seed)
  have hcheck := (ed25519CheckSignature_ok hkey hlength).mpr ⟨_, R, digest, haccepted⟩
  exact ⟨_, signatureBytes, hkey, hlength, derives h hseed, signs hseed hlocal,
    verifies hkey hlength hcheck⟩

theorem ed25519Sha512Parts_hashes :
    Hashes ed25519Sha512Parts (sha2Digest .hashSha2_512 (.words64 iv512)) := by
  constructor
  · intro xs
    rw [sha2Digest_length]
    rfl
  · intro part0 part1 part2 h0 h1 h2
    have hlimit : sha2Limit (.words64 iv512) = 2 ^ 125 := rfl
    obtain ⟨first, hfirst, hholds⟩ := cryptoSha2Update_holds
      (cryptoSha2Start_holds (.words64 iv512)) h0 (by rw [hlimit, List.length_nil]; omega)
    obtain ⟨second, hsecond, hholds⟩ := cryptoSha2Update_holds hholds h1
      (by rw [hlimit, List.nil_append]; omega)
    obtain ⟨third, hthird, hholds⟩ := cryptoSha2Update_holds hholds h2
      (by rw [hlimit, List.nil_append, List.length_append]; omega)
    have hdigest := cryptoSha2Finalize_digest hholds .hashSha2_512
    rw [List.nil_append] at hdigest
    rw [ed25519Sha512Parts, cryptoSha2Init]
    dsimp only [bind, Except.bind]
    rw [hfirst]
    dsimp only
    rw [hsecond]
    dsimp only
    rw [hthird]
    exact congrArg Except.ok hdigest

theorem ed25519_sign_verify_empty :
    ∃ publicBytes signatureBytes, publicBytes.length = 32 ∧ signatureBytes.length = 64 ∧
      Derives ed25519Sha512Parts (List.replicate 32 7) publicBytes ∧
      Signs ed25519Sha512Parts (List.replicate 32 7) [] signatureBytes ∧
      Verifies ed25519Sha512Parts publicBytes [] signatureBytes :=
  ed25519_sign_verify ed25519Sha512Parts_hashes (List.length_replicate ..) (by decide)

/-- A signature cannot be changed in its second half, and no bytes are accepted that are not
canonical or not of the prime order. -/
theorem signature_not_malleable (sha512Parts : Sha512Parts) (publicBytes message R : List UInt8)
    (hR : R.length = 32) :
    (∀ S S', S.length = 32 → S'.length = 32 → Accepts sha512Parts publicBytes message (R ++ S) →
      Accepts sha512Parts publicBytes message (R ++ S') → S = S') ∧
    ∀ S, Accepts sha512Parts publicBytes message (R ++ S) →
      S.length = 32 ∧ bytesValue S < order ∧
      (∃ nonce : CurvePoint, pointEncode machine nonce.point = R) ∧
      ∃ key : CurvePoint, pointEncode machine key.point = publicBytes ∧ key.affine ≠ 0 ∧
        key.affine ∈ AddSubgroup.zmultiples basePoint.affine := by
  have haccepted : ∀ {S}, Accepts sha512Parts publicBytes message (R ++ S) →
      ∃ A N digest, Accepted sha512Parts publicBytes message (R ++ S) A N digest := by
    intro S h
    obtain ⟨hkey, hlength, hcheck⟩ := h.checks
    exact (ed25519CheckSignature_ok hkey hlength).mp hcheck
  have htake : ∀ S, (R ++ S).take 32 = R := fun S => List.take_left' hR
  have hdrop : ∀ S, (R ++ S).drop 32 = S := fun S => List.drop_left' hR
  constructor
  · intro S S' hS hS' h h'
    obtain ⟨A, N, digest, ha⟩ := haccepted h
    obtain ⟨A', N', digest', ha'⟩ := haccepted h'
    have hsameKey : A = A' := pointBytes_injective (ha.key.trans ha'.key.symm)
    have hsameNonce : N = N' := by
      apply pointBytes_injective
      rw [ha.nonce, ha'.nonce, htake, htake]
    have hsameDigest : digest = digest' := by
      have hhashed := ha.hashed
      have hhashed' := ha'.hashed
      rw [htake] at hhashed hhashed'
      exact Except.ok.inj (hhashed.symm.trans hhashed')
    have hequation := ha.equation.trans (by rw [hsameKey, hsameNonce, hsameDigest]) |>.trans
      ha'.equation.symm
    have hvalue := nsmul_base_injective ha.response ha'.response hequation
    rw [hdrop, hdrop] at hvalue
    exact bytesValue_injective (hS.trans hS'.symm) hvalue
  · intro S h
    obtain ⟨-, hlength, -⟩ := h.checks
    obtain ⟨A, N, digest, ha⟩ := haccepted h
    have hresponse := ha.response
    rw [hdrop] at hresponse
    have hencoded : ∀ p : Point curveD, ∃ P : CurvePoint,
        pointEncode machine P.point = pointBytes p ∧ P.affine = p := by
      intro p
      obtain ⟨P, -, haffine⟩ := curvePoint_of_represents (decodedPoint_represents p)
      exact ⟨P, by rw [encode_curvePoint machine_exact P, haffine]; rfl, haffine⟩
    obtain ⟨nonce, hnonce, -⟩ := hencoded N
    obtain ⟨key, hkey, haffine⟩ := hencoded A
    refine ⟨?_, hresponse, ⟨nonce, ?_⟩, key, ?_, ?_, ?_⟩
    · rw [List.length_append, hR] at hlength
      omega
    · rw [hnonce, ha.nonce, htake]
    · rw [hkey, ha.key]
    · rw [haffine]
      exact ha.nonzero
    · rw [haffine]
      exact mem_zmultiples_base ha.torsion

theorem signature_not_malleable_sample :
    ∃ publicBytes R S, Derives ed25519Sha512Parts (List.replicate 32 7) publicBytes ∧
      Signs ed25519Sha512Parts (List.replicate 32 7) [114, 175] (R ++ S) ∧
      Accepts ed25519Sha512Parts publicBytes [114, 175] (R ++ S) ∧
      (∀ S', S'.length = 32 → Accepts ed25519Sha512Parts publicBytes [114, 175] (R ++ S') → S' = S) ∧
      S.length = 32 ∧ bytesValue S < order ∧
      (∃ nonce : CurvePoint, pointEncode machine nonce.point = R) ∧
      ∃ key : CurvePoint, pointEncode machine key.point = publicBytes ∧ key.affine ≠ 0 ∧
        key.affine ∈ AddSubgroup.zmultiples basePoint.affine := by
  have hseed : (List.replicate 32 (7 : UInt8)).length = 32 := List.length_replicate
  have hmessage : ([114, 175] : List UInt8).length < 2 ^ 64 := by decide
  obtain ⟨signatureBytes, N, digest, hlength, hlocal, haccepted⟩ :=
    ed25519LocalSignature_accepted ed25519Sha512Parts_hashes hseed hmessage
  have hkey := pointBytes_length
    (publicPoint (sha2Digest .hashSha2_512 (.words64 iv512)) (List.replicate 32 7))
  have haccepts := (verifies hkey hlength
    ((ed25519CheckSignature_ok hkey hlength).mpr ⟨_, N, digest, haccepted⟩)).accepts
  obtain ⟨R, S, rfl, hR, hS⟩ : ∃ R S, signatureBytes = R ++ S ∧ R.length = 32 ∧ S.length = 32 :=
    ⟨signatureBytes.take 32, signatureBytes.drop 32, (List.take_append_drop 32 _).symm,
      by rw [List.length_take, hlength]; rfl, by rw [List.length_drop, hlength]⟩
  obtain ⟨hunique, hcanonical⟩ := signature_not_malleable ed25519Sha512Parts _ [114, 175] R hR
  exact ⟨_, R, S, derives ed25519Sha512Parts_hashes hseed, signs hseed hlocal, haccepts,
    fun S' hS' h => hunique S' S hS' hS h haccepts, hcanonical S haccepts⟩

end Calls

end LiberaCrypt.Ed25519SignatureCorrect
