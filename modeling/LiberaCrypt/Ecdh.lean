import LiberaCrypt.ByteMemory
import LiberaCrypt.Def
import LiberaCrypt.EcEncoding
import LiberaCrypt.EcPrimes
import LiberaCrypt.EcScalarMultiply

namespace LiberaCrypt.Ecdh

open LiberaCrypt.Outcome LiberaCrypt.BigEndian LiberaCrypt.ByteMemory LiberaCrypt.Def LiberaCrypt.Endian
open LiberaCrypt.EcCurves LiberaCrypt.EcEncoding LiberaCrypt.EcField LiberaCrypt.EcGroup
open LiberaCrypt.EcMontgomery LiberaCrypt.EcPoint LiberaCrypt.EcPrimes LiberaCrypt.EcScalar
open LiberaCrypt.EcScalarMultiply LiberaCrypt.ShortWeierstrass WeierstrassCurve.Affine

def ecdhCurveFromAlg : LiberaCAlgID → Except LiberaCError CryptoEcCurve
  | .ecdhP256 => .ok (cryptoEcCurveGet .p256)
  | .ecdhP384 => .ok (cryptoEcCurveGet .p384)
  | .ecdhP521 => .ok (cryptoEcCurveGet .p521)
  | _ => .error .invalidAlgId

def ecdhUncompressedPublicSize (curve : CryptoEcCurve) : Nat := 1 + 2 * curve.fieldBytes

def ecdhPeerPublicLengthValid (curve : CryptoEcCurve) (length : Nat) : Bool :=
  length = 1 + curve.fieldBytes || length = ecdhUncompressedPublicSize curve

def ecdhMaxPublicBytes : Nat := 133

def ecdhCheckScalar (curve : CryptoEcCurve) (scalar : List UInt8) : Except LiberaCError Unit :=
  if cryptoEcScalarIsValidCt curve scalar = 0 then .error .invalidKey else .ok ()

def cryptoEcdhPublicFromPrivateInternal (alg : LiberaCAlgID)
    (publicKey publicKeyLength privateKey privateKeyLength : Nat) : OnMemory Unit := do
  let curve ← compute (ecdhCurveFromAlg alg)
  let requiredPublic := ecdhUncompressedPublicSize curve
  compute (
    if publicKey = 0 ∨ privateKey = 0 ∨ privateKeyLength ≠ curve.scalarBytes then
      .error .invalidArgument
    else if publicKeyLength < requiredPublic then .error .bufferTooSmall
    else if cryptoRangesOverlap publicKey requiredPublic privateKey privateKeyLength then
      .error .invalidArgument
    else .ok ())
  wipeOnError publicKey requiredPublic do
    let scalar ← load privateKey privateKeyLength
    compute (ecdhCheckScalar curve scalar)
    let publicPoint ← compute
      (cryptoEcScalarMultiplyCt curve (cryptoEcAffineGenerator curve) scalar)
    let encodedPublic ← compute
      (cryptoEcPointEncode curve publicPoint false ecdhMaxPublicBytes).1
    compute (if encodedPublic.length ≠ requiredPublic then .error .internal else .ok ())
    store publicKey encodedPublic

def ecdhDecodePeer (curve : CryptoEcCurve) (peer : List UInt8) :
    Except LiberaCError CryptoEcAffinePoint :=
  match cryptoEcPointDecode curve peer false with
  | .error _ => .error .invalidKey
  | .ok point => .ok point

def cryptoEcdhSharedSecretInternal (alg : LiberaCAlgID)
    (sharedSecret sharedSecretLength privateKey privateKeyLength
      peerPublicKey peerPublicKeyLength : Nat) : OnMemory Unit := do
  let curve ← compute (ecdhCurveFromAlg alg)
  compute (
    if sharedSecret = 0 ∨ privateKey = 0 ∨ peerPublicKey = 0 ∨
        privateKeyLength ≠ curve.scalarBytes ∨
        ecdhPeerPublicLengthValid curve peerPublicKeyLength = false then
      .error .invalidArgument
    else if sharedSecretLength < curve.fieldBytes then .error .bufferTooSmall
    else if cryptoRangesOverlap sharedSecret curve.fieldBytes privateKey privateKeyLength ∨
        cryptoRangesOverlap sharedSecret curve.fieldBytes peerPublicKey peerPublicKeyLength then
      .error .invalidArgument
    else .ok ())
  wipeOnError sharedSecret curve.fieldBytes do
    let scalar ← load privateKey privateKeyLength
    compute (ecdhCheckScalar curve scalar)
    let peer ← load peerPublicKey peerPublicKeyLength
    let peerPoint ← compute (ecdhDecodePeer curve peer)
    let sharedPoint ← compute (cryptoEcScalarMultiplyCt curve peerPoint scalar)
    compute (if sharedPoint.infinity ≠ 0 then .error .invalidKey else .ok ())
    store sharedSecret (cryptoEcFieldToBytes curve sharedPoint.x)

variable {id : CryptoEcCurveId}

def algOf : CryptoEcCurveId → LiberaCAlgID
  | .p256 => .ecdhP256
  | .p384 => .ecdhP384
  | .p521 => .ecdhP521

theorem ecdhCurveFromAlg_algOf (id : CryptoEcCurveId) :
    ecdhCurveFromAlg (algOf id) = .ok (cryptoEcCurveGet id) := by
  cases id <;> rfl

structure PrivateKey (id : CryptoEcCurveId) (a : List UInt8) : Prop where
  length : a.length = (cryptoEcCurveGet id).scalarBytes
  pos : 1 ≤ beValue a
  lt : beValue a < groupOrder (cryptoEcCurveGet id)

/-- Wherever the key and a large enough separate output are, the public key is written. -/
def Derives (id : CryptoEcCurveId) (a publicBytes : List UInt8) : Prop :=
  ∀ (memory : Memory) (publicKey publicKeyLength privateKey : Nat),
    publicKey ≠ 0 → privateKey ≠ 0 →
    ecdhUncompressedPublicSize (cryptoEcCurveGet id) ≤ publicKeyLength →
    Disjoint publicKey (ecdhUncompressedPublicSize (cryptoEcCurveGet id)) privateKey a.length →
    readBytes memory privateKey a.length = a →
    cryptoEcdhPublicFromPrivateInternal (algOf id) publicKey publicKeyLength privateKey a.length
      memory = (.ok (), writeBytes memory publicKey publicBytes)

/-- Wherever the two keys and a large enough separate output are, the secret is written. -/
def Shares (id : CryptoEcCurveId) (a peer secret : List UInt8) : Prop :=
  ∀ (memory : Memory) (sharedSecret sharedSecretLength privateKey peerPublicKey : Nat),
    sharedSecret ≠ 0 → privateKey ≠ 0 → peerPublicKey ≠ 0 →
    (cryptoEcCurveGet id).fieldBytes ≤ sharedSecretLength →
    Disjoint sharedSecret (cryptoEcCurveGet id).fieldBytes privateKey a.length →
    Disjoint sharedSecret (cryptoEcCurveGet id).fieldBytes peerPublicKey peer.length →
    readBytes memory privateKey a.length = a →
    readBytes memory peerPublicKey peer.length = peer →
    cryptoEcdhSharedSecretInternal (algOf id) sharedSecret sharedSecretLength privateKey a.length
      peerPublicKey peer.length memory = (.ok (), writeBytes memory sharedSecret secret)

def Compresses (id : CryptoEcCurveId) (publicBytes compressed : List UInt8) : Prop :=
  ∃ point, cryptoEcPointDecode (cryptoEcCurveGet id) publicBytes false = .ok point ∧
    ∀ capacity, compressed.length ≤ capacity →
      cryptoEcPointEncode (cryptoEcCurveGet id) point true capacity =
        (.ok compressed, compressed.length)

theorem ecdhCheckScalar_ok {a : List UInt8} (ha : PrivateKey id a) :
    ecdhCheckScalar (cryptoEcCurveGet id) a = .ok () := by
  have hvalid : cryptoEcScalarIsValidCt (cryptoEcCurveGet id) a = 1 := by
    rw [cryptoEcScalarIsValidCt_eq (sizes id) ha.length, if_pos ⟨ha.pos, ha.lt⟩]
  rw [ecdhCheckScalar, hvalid, if_neg (by decide)]

theorem nsmul_generator_ne_zero {a : List UInt8} (ha : PrivateKey id a) :
    beValue a • generator id ≠ 0 := by
  have hpos := ha.pos
  rw [ne_eq, nsmul_generator_eq_zero]
  exact fun hdvd => absurd (Nat.le_of_dvd hpos hdvd) (not_le.mpr ha.lt)

theorem encoding_length {P : (group id).Point} (hP : P ≠ 0) (compressed : Bool) :
    (encoding id compressed P).length =
      if compressed then 1 + (cryptoEcCurveGet id).fieldBytes
      else ecdhUncompressedPublicSize (cryptoEcCurveGet id) := by
  cases P with
  | zero => exact absurd rfl hP
  | some x y hxy =>
    cases compressed
    · simp only [encoding, ecdhUncompressedPublicSize, Bool.false_eq_true, if_false,
        List.length_cons, List.length_append, coordinate_length]
      omega
    · simp only [encoding, if_true, List.length_cons, coordinate_length]
      omega

theorem uncompressed_fits (id : CryptoEcCurveId) :
    ecdhUncompressedPublicSize (cryptoEcCurveGet id) ≤ ecdhMaxPublicBytes := by
  cases id <;> decide

theorem derives {a : List UInt8} (ha : PrivateKey id a) :
    Derives id a (encoding id false (beValue a • generator id)) := by
  intro memory publicKey publicKeyLength privateKey hpublic hprivate hroom hdisjoint hread
  obtain ⟨point, hpoint, hholds⟩ :=
    cryptoEcScalarMultiplyCt_spec (generator_holds id) ha.length ha.pos ha.lt
  have hsize := encoding_length (nsmul_generator_ne_zero ha) false
  rw [if_neg (by decide)] at hsize
  have hencode := cryptoEcPointEncode_eq hholds false (hsize.trans_le (uncompressed_fits id))
  have hoverlap := (cryptoRangesOverlap_iff _ _ _ _).mpr hdisjoint
  unfold cryptoEcdhPublicFromPrivateInternal
  rw [ecdhCurveFromAlg_algOf, compute_ok_bind,
    if_neg (by simp [hpublic, hprivate, ha.length]), if_neg (not_lt.mpr hroom), hoverlap,
    if_neg (by decide), compute_ok_bind]
  apply wipeOnError_ok
  rw [load_bind, hread, ecdhCheckScalar_ok ha, compute_ok_bind, hpoint, compute_ok_bind, hencode,
    compute_ok_bind, hsize, if_neg (by simp), compute_ok_bind]
  rfl

/-- The shared secret of a point: its `x`. -/
def abscissa (id : CryptoEcCurveId) : (group id).Point → List UInt8
  | .zero => []
  | .some x _ _ => coordinate id x

theorem nsmul_ne_zero {a b : List UInt8} (ha : PrivateKey id a) (hb : PrivateKey id b) :
    beValue a • beValue b • generator id ≠ 0 := by
  have hprime := groupOrder_prime id
  have hapos := ha.pos
  have hbpos := hb.pos
  rw [← mul_nsmul, ne_eq, nsmul_generator_eq_zero, hprime.dvd_mul]
  rintro (hdvd | hdvd)
  · exact absurd (Nat.le_of_dvd hbpos hdvd) (not_le.mpr hb.lt)
  · exact absurd (Nat.le_of_dvd hapos hdvd) (not_le.mpr ha.lt)

theorem ecdhPeerPublicLengthValid_encoding {P : (group id).Point} (hP : P ≠ 0)
    (compressed : Bool) :
    ecdhPeerPublicLengthValid (cryptoEcCurveGet id) (encoding id compressed P).length = true := by
  rw [encoding_length hP]
  cases compressed <;> simp [ecdhPeerPublicLengthValid]

theorem ecdhDecodePeer_encoding {P : (group id).Point} {point : CryptoEcAffinePoint}
    (h : AffineHolds id point P) (hP : P ≠ 0) (compressed : Bool) :
    ecdhDecodePeer (cryptoEcCurveGet id) (encoding id compressed P) = .ok point := by
  rw [ecdhDecodePeer, cryptoEcPointDecode_encoding (fieldPrime_prime id) h compressed false
    (fun hzero => absurd hzero hP)]

theorem sharedBytes {point : CryptoEcAffinePoint} {P : (group id).Point}
    (h : AffineHolds id point P) (hP : P ≠ 0) :
    point.infinity = 0 ∧ cryptoEcFieldToBytes (cryptoEcCurveGet id) point.x = abscissa id P := by
  cases h with
  | infinity => exact absurd rfl hP
  | affine hxy hx hy => exact ⟨rfl, toBytes_eq (fieldModulus_sound id) hx⟩

theorem shares {a b : List UInt8} (ha : PrivateKey id a) (hb : PrivateKey id b)
    (compressed : Bool) :
    Shares id a (encoding id compressed (beValue b • generator id))
      (abscissa id (beValue a • beValue b • generator id)) := by
  intro memory sharedSecret sharedSecretLength privateKey peerPublicKey hshared hprivate hpeer
    hroom hkey hpublic hread hreadPeer
  have hpeerPoint := nsmul_generator_ne_zero hb
  obtain ⟨peerPoint, hpeerHolds⟩ := exists_affineHolds (beValue b • generator id)
  obtain ⟨point, hpoint, hholds⟩ :=
    cryptoEcScalarMultiplyCt_spec hpeerHolds ha.length ha.pos ha.lt
  have hlength := ecdhPeerPublicLengthValid_encoding hpeerPoint compressed
  have hdecode := ecdhDecodePeer_encoding hpeerHolds hpeerPoint compressed
  obtain ⟨hfinite, hbytes⟩ := sharedBytes hholds (nsmul_ne_zero ha hb)
  have hoverlapKey := (cryptoRangesOverlap_iff _ _ _ _).mpr hkey
  have hoverlapPeer := (cryptoRangesOverlap_iff _ _ _ _).mpr hpublic
  unfold cryptoEcdhSharedSecretInternal
  rw [ecdhCurveFromAlg_algOf, compute_ok_bind, hlength,
    if_neg (by simp [hshared, hprivate, hpeer, ha.length]), if_neg (not_lt.mpr hroom),
    hoverlapKey, hoverlapPeer, if_neg (by simp), compute_ok_bind]
  apply wipeOnError_ok
  rw [load_bind, hread, ecdhCheckScalar_ok ha, compute_ok_bind, load_bind, hreadPeer, hdecode,
    compute_ok_bind, hpoint, compute_ok_bind, hfinite, if_neg (by simp), compute_ok_bind, hbytes]
  rfl

theorem compresses {P : (group id).Point} (hP : P ≠ 0) :
    Compresses id (encoding id false P) (encoding id true P) := by
  obtain ⟨point, hholds⟩ := exists_affineHolds P
  refine ⟨point, ?_, fun capacity hroom => cryptoEcPointEncode_eq hholds true hroom⟩
  exact cryptoEcPointDecode_encoding (fieldPrime_prime id) hholds false false
    (fun hzero => absurd hzero hP)

theorem abscissa_length {P : (group id).Point} (hP : P ≠ 0) :
    (abscissa id P).length = (cryptoEcCurveGet id).fieldBytes := by
  cases P with
  | zero => exact absurd rfl hP
  | some x y hxy => exact coordinate_length x

/-- Two parties derive one secret, from each other's public key in either form. -/
theorem ecdh_agreement (id : CryptoEcCurveId) {a b : List UInt8}
    (ha : PrivateKey id a) (hb : PrivateKey id b) :
    ∃ publicA publicB compressedA compressedB secret,
      Derives id a publicA ∧ Derives id b publicB ∧
      Compresses id publicA compressedA ∧ Compresses id publicB compressedB ∧
      secret.length = (cryptoEcCurveGet id).fieldBytes ∧
      (∀ peer ∈ [publicB, compressedB], Shares id a peer secret) ∧
      ∀ peer ∈ [publicA, compressedA], Shares id b peer secret := by
  have hcomm : beValue b • beValue a • generator id = beValue a • beValue b • generator id := by
    rw [← mul_nsmul, ← mul_nsmul, mul_comm]
  refine ⟨_, _, _, _, _, derives ha, derives hb, compresses (nsmul_generator_ne_zero ha),
    compresses (nsmul_generator_ne_zero hb), abscissa_length (nsmul_ne_zero ha hb), ?_, ?_⟩
  · intro peer hpeer
    rcases List.mem_pair.mp hpeer with rfl | rfl
    · exact shares ha hb false
    · exact shares ha hb true
  · rw [← hcomm]
    intro peer hpeer
    rcases List.mem_pair.mp hpeer with rfl | rfl
    · exact shares hb ha false
    · exact shares hb ha true

theorem ecdh_agreement_p256 :
    ∃ publicA publicB compressedA compressedB secret,
      Derives .p256 (bigEndian 32 5) publicA ∧ Derives .p256 (bigEndian 32 7) publicB ∧
      Compresses .p256 publicA compressedA ∧ Compresses .p256 publicB compressedB ∧
      secret.length = (cryptoEcCurveGet .p256).fieldBytes ∧
      (∀ peer ∈ [publicB, compressedB], Shares .p256 (bigEndian 32 5) peer secret) ∧
      ∀ peer ∈ [publicA, compressedA], Shares .p256 (bigEndian 32 7) peer secret :=
  ecdh_agreement .p256 ⟨by decide, by decide, by decide⟩
    ⟨by decide, by decide, by decide⟩

end LiberaCrypt.Ecdh
