import LiberaCrypt.DsaScheme
import LiberaCrypt.Ecdh
import LiberaCrypt.Ecdsa

namespace LiberaCrypt.EcdsaCorrect

open LiberaCrypt.Outcome LiberaCrypt.BigEndian LiberaCrypt.ByteMemory LiberaCrypt.Def
open LiberaCrypt.DsaScheme LiberaCrypt.Endian LiberaCrypt.Ecdsa
open LiberaCrypt.Ecdh (PrivateKey Compresses compresses encoding_length nsmul_generator_ne_zero)
open LiberaCrypt.EcCurves LiberaCrypt.EcEncoding LiberaCrypt.EcField LiberaCrypt.EcGroup
open LiberaCrypt.EcJacobian LiberaCrypt.EcMontgomery LiberaCrypt.EcPoint LiberaCrypt.EcPrimes
open LiberaCrypt.EcScalar LiberaCrypt.EcScalarArith LiberaCrypt.EcScalarMultiply
open LiberaCrypt.EcScalarVartime LiberaCrypt.EcdsaNonce LiberaCrypt.ShortWeierstrass
open WeierstrassCurve.Affine

variable {id : CryptoEcCurveId}

abbrev Residue (id : CryptoEcCurveId) := ZMod (groupOrder (cryptoEcCurveGet id))

local instance groupOrder_fact (id : CryptoEcCurveId) :
    Fact (groupOrder (cryptoEcCurveGet id)).Prime :=
  ⟨groupOrder_prime id⟩

/-- The `x` of a point modulo the order. -/
def residue (id : CryptoEcCurveId) : (group id).Point → Residue id
  | .zero => 0
  | .some x _ _ => (x.val : Residue id)

def scheme (id : CryptoEcCurveId) : Scheme (groupOrder (cryptoEcCurveGet id)) (group id).Point where
  base := generator id
  order_nsmul := order_nsmul_generator id
  residue := residue id

section Outcomes

variable {α : Type} {x : Except LiberaCError α} {a : α} {status : LiberaCError} {c : Prop}
  [Decidable c]

theorem orStatus_eq_ok : orStatus x status = .ok a ↔ x = .ok a := by
  cases x <;> simp [orStatus]

theorem refuse_eq_ok {u : Unit} : refuse c status = .ok u ↔ ¬ c := by
  by_cases hc : c <;> simp [refuse, hc]

end Outcomes

structure SameWidth (curve : CryptoEcCurve) : Prop where
  bytes : curve.fieldBytes = curve.scalarBytes
  prime : fieldPrime curve < 2 ^ curve.scalarBits

theorem sameWidth (id : CryptoEcCurveId) : SameWidth (cryptoEcCurveGet id) := by
  cases id <;> constructor <;> decide

theorem xReduced_holds {point : CryptoEcAffinePoint} {P : (group id).Point}
    (h : AffineHolds id point P) (hP : P ≠ 0) :
    ∃ w, xReduced (cryptoEcCurveGet id) point = .ok w ∧
      ScalarHolds (cryptoEcCurveGet id) _ w (residue id P) := by
  cases h with
  | infinity => exact absurd rfl hP
  | @affine wx wy x y hxy hx hy =>
    obtain ⟨hbytes, hprime⟩ := sameWidth id
    have hval := ZMod.val_lt x
    have hlength : (bigEndian (cryptoEcCurveGet id).scalarBytes x.val).length =
        (cryptoEcCurveGet id).scalarBytes := bigEndian_length _ _
    have hwidth : beValue (bigEndian (cryptoEcCurveGet id).scalarBytes x.val) = x.val := by
      rw [beValue_bigEndian, Nat.mod_eq_of_lt]
      rw [← hbytes]
      exact hval.trans (fieldSizes id).bytes
    have hread : (cryptoEcFieldToBytes (cryptoEcCurveGet id) wx).take
        (cryptoEcCurveGet id).scalarBytes =
          bigEndian (cryptoEcCurveGet id).scalarBytes x.val := by
      rw [toBytes_eq (fieldModulus_sound id) hx, hbytes, List.take_of_length_le hlength.le]
    obtain ⟨w, hw, hholds⟩ := fromBytesReduced_holds (sizes id) (scalarModulus_sound id) hlength
      (by rw [hwidth]; exact hval.trans hprime)
    rw [hwidth] at hholds
    rw [xReduced, hread]
    exact ⟨w, hw, hholds⟩

theorem scalarFromBytes_of_ok {input : List UInt8} {w : List UInt32}
    (h : cryptoEcScalarFromBytes (cryptoEcCurveGet id) input = .ok w) :
    input.length = (cryptoEcCurveGet id).scalarBytes ∧
      beValue input < groupOrder (cryptoEcCurveGet id) ∧
      ScalarHolds (cryptoEcCurveGet id) _ w (beValue input : Residue id) := by
  by_cases hinput : input.length = (cryptoEcCurveGet id).scalarBytes ∧
      beValue input < groupOrder (cryptoEcCurveGet id)
  · obtain ⟨w', hw', hholds⟩ :=
      scalarFromBytes_ok (sizes id) (scalarModulus_sound id) hinput.1 hinput.2
    obtain rfl : w' = w := Except.ok.inj (hw'.symm.trans h)
    exact ⟨hinput.1, hinput.2, hholds⟩
  · rw [scalarFromBytes_error (sizes id) (scalarModulus_sound id) hinput] at h
    cases h

theorem digestToScalar_of_ok {digest octets : List UInt8} {e : List UInt32}
    (h : ecdsaDigestToScalar (cryptoEcCurveGet id) digest = .ok (e, octets)) :
    ∃ z : Residue id, ScalarHolds (cryptoEcCurveGet id) _ e z := by
  unfold ecdsaDigestToScalar at h
  obtain ⟨scalar, hscalar, hpair⟩ := bind_eq_ok.mp h
  cases hpair
  by_contra hnone
  rw [fromBytesReduced_error (sizes id)] at hscalar
  · cases hscalar
  · rintro ⟨hlength, hlt⟩
    obtain ⟨w, hw, hholds⟩ :=
      fromBytesReduced_holds (sizes id) (scalarModulus_sound id) hlength hlt
    obtain rfl : w = e := Except.ok.inj (hw.symm.trans hscalar)
    exact hnone ⟨_, hholds⟩

variable {hash : List UInt8 → Except LiberaCError (List UInt8)}
  {ecdsaHmac : List UInt8 → List UInt8 → Except LiberaCError (List UInt8)}
  {privateKey message signature : List UInt8}

def halves (id : CryptoEcCurveId) (r s : Residue id) : List UInt8 :=
  bigEndian (cryptoEcCurveGet id).scalarBytes r.val ++
    bigEndian (cryptoEcCurveGet id).scalarBytes s.val

/-- What went into a signature that was computed: the number of the digest and the nonce. -/
structure Signed (hash : List UInt8 → Except LiberaCError (List UInt8)) (id : CryptoEcCurveId)
    (d : Residue id) (message signature digest : List UInt8) (z k : Residue id) : Prop where
  hashed : hash message = .ok digest
  number : ∃ e octets, ecdsaDigestToScalar (cryptoEcCurveGet id) digest = .ok (e, octets) ∧
    ScalarHolds (cryptoEcCurveGet id) _ e z
  finite : k.val • generator id ≠ 0
  commitment : (scheme id).commitment k ≠ 0
  response : (scheme id).response d z k ≠ 0
  bytes : signature = halves id ((scheme id).commitment k) ((scheme id).response d z k)

/-- A product that was returned is the multiple by a scalar from one to the order. -/
theorem multiplyCt_of_ok {point out : CryptoEcAffinePoint} {P : (group id).Point}
    {scalar : List UInt8} (hP : AffineHolds id point P)
    (h : cryptoEcScalarMultiplyCt (cryptoEcCurveGet id) point scalar = .ok out) :
    beValue scalar < groupOrder (cryptoEcCurveGet id) ∧
      AffineHolds id out (beValue scalar • P) := by
  have haccepted := h
  unfold cryptoEcScalarMultiplyCt at haccepted
  split_ifs at haccepted with hbad
  push Not at hbad
  obtain ⟨hlength, -, hvalid⟩ := hbad
  rw [cryptoEcScalarIsValidCt_eq (sizes id) hlength] at hvalid
  split_ifs at hvalid with hrange
  · obtain ⟨other, hother, hholds⟩ :=
      cryptoEcScalarMultiplyCt_spec hP hlength hrange.1 hrange.2
    obtain rfl : other = out := Except.ok.inj (hother.symm.trans h)
    exact ⟨hrange.2, hholds⟩
  · exact absurd rfl hvalid

theorem finite_of_holds {point : CryptoEcAffinePoint} {P : (group id).Point}
    (h : AffineHolds id point P) : ¬ point.infinity ≠ 0 ↔ P ≠ 0 := by
  have hmark : (1 : UInt32) ≠ 0 := by decide
  cases h with
  | infinity => exact iff_of_false (not_not.mpr hmark) (not_not.mpr rfl)
  | affine hxy hx hy => exact iff_of_true (not_not.mpr rfl) (Point.some_ne_zero hxy)

theorem scalarZeroMask_eq_zero {w : List UInt32} {x : Residue id}
    (h : ScalarHolds (cryptoEcCurveGet id) _ w x) :
    ¬ cryptoEcScalarZeroMask (cryptoEcCurveGet id) w ≠ 0 ↔ x ≠ 0 := by
  rw [scalarZeroMask_eq (scalarModulus_sound id) h]
  by_cases hx : x = 0
  · rw [if_pos hx]
    exact iff_of_false (by decide) (not_not.mpr hx)
  · rw [if_neg hx]
    exact iff_of_true (by decide) hx

theorem localSignature_signed
    (h : ecdsaLocalSignature hash ecdsaHmac (cryptoEcCurveGet id) privateKey message =
      .ok signature) :
    ∃ digest z k, Signed hash id (beValue privateKey) message signature digest z k := by
  have hsound := scalarModulus_sound id
  simp only [ecdsaLocalSignature, bind_eq_ok, orStatus_eq_ok, refuse_eq_ok] at h
  obtain ⟨-, -, d, hd, digest, hdigest, ⟨e, octets⟩, he, -, -, k, hk, point, hpoint, -, hfinite, r,
    hr, -, hrzero, -, hszero, hbytes⟩ := h
  obtain ⟨-, -, hd⟩ := scalarFromBytes_of_ok hd
  obtain ⟨z, hz⟩ := digestToScalar_of_ok he
  obtain ⟨-, -, hk⟩ := scalarFromBytes_of_ok hk
  obtain ⟨hlt, hpoint⟩ := multiplyCt_of_ok (generator_holds id) hpoint
  generalize (ecdsaNonce ecdsaHmac (cryptoEcCurveGet id) privateKey digest).2 = nonce at *
  have hval : (beValue nonce : Residue id).val = beValue nonce := by
    rw [ZMod.val_natCast, Nat.mod_eq_of_lt hlt]
  have hfinite := (finite_of_holds hpoint).mp hfinite
  rw [← hval] at hpoint hfinite
  obtain ⟨w, hw, hresidue⟩ := xReduced_holds hpoint hfinite
  obtain rfl : w = r := Except.ok.inj (hw.symm.trans hr)
  have hsum := scalarAdd_holds hsound hz (scalarMultiply_holds hsound hresidue hd)
  have hs := scalarMultiply_holds hsound (scalarInvert_holds id hk) hsum
  refine ⟨digest, z, beValue nonce, hdigest, ⟨e, octets, he, hz⟩, hfinite,
    (scalarZeroMask_eq_zero hresidue).mp hrzero, (scalarZeroMask_eq_zero hs).mp hszero, ?_⟩
  rw [← Except.ok.inj hbytes, scalarToBytes_eq hsound hresidue, scalarToBytes_eq hsound hs]
  rfl

theorem localSignature_returns {digest octets nonce : List UInt8} {e : List UInt32} {z : Residue id}
    (hkey : PrivateKey id privateKey) (hhash : hash message = .ok digest)
    (he : ecdsaDigestToScalar (cryptoEcCurveGet id) digest = .ok (e, octets))
    (hz : ScalarHolds (cryptoEcCurveGet id) _ e z)
    (hnonce : ecdsaNonce ecdsaHmac (cryptoEcCurveGet id) privateKey digest = (.ok (), nonce))
    (hvalid : PrivateKey id nonce) (hcommitment : (scheme id).commitment (beValue nonce) ≠ 0)
    (hresponse : (scheme id).response (beValue privateKey) z (beValue nonce) ≠ 0) :
    ∃ signature,
      ecdsaLocalSignature hash ecdsaHmac (cryptoEcCurveGet id) privateKey message =
        .ok signature := by
  have hsound := scalarModulus_sound id
  have hstatus := congrArg Prod.fst hnonce
  have hbytes : (ecdsaNonce ecdsaHmac (cryptoEcCurveGet id) privateKey digest).2 = nonce :=
    congrArg Prod.snd hnonce
  subst hbytes
  have hcheck := cryptoEcScalarIsValidCt_eq (sizes id) hkey.length
  rw [if_pos ⟨hkey.pos, hkey.lt⟩] at hcheck
  obtain ⟨d, hd, hdHolds⟩ := scalarFromBytes_ok (sizes id) hsound hkey.length hkey.lt
  obtain ⟨k, hk, hkHolds⟩ := scalarFromBytes_ok (sizes id) hsound hvalid.length hvalid.lt
  obtain ⟨point, hpoint, hholds⟩ :=
    cryptoEcScalarMultiplyCt_spec (generator_holds id) hvalid.length hvalid.pos hvalid.lt
  have hfinite := nsmul_generator_ne_zero hvalid
  obtain ⟨r, hr, hrHolds⟩ := xReduced_holds hholds hfinite
  have hval := Nat.mod_eq_of_lt hvalid.lt
  rw [← ZMod.val_natCast] at hval
  rw [← hval] at hrHolds
  have hs := scalarMultiply_holds hsound (scalarInvert_holds id hkHolds)
    (scalarAdd_holds hsound hz (scalarMultiply_holds hsound hrHolds hdHolds))
  simp only [ecdsaLocalSignature, bind_eq_ok, orStatus_eq_ok, refuse_eq_ok]
  refine ⟨_, (), by rw [hcheck]; decide, d, hd, digest, hhash, (e, octets), he, (), hstatus, k, hk,
    point, hpoint, (), (finite_of_holds hholds).mpr hfinite, r, hr, (),
    (scalarZeroMask_eq_zero hrHolds).mpr hcommitment, (),
    (scalarZeroMask_eq_zero hs).mpr hresponse, rfl⟩

theorem Signed.signature_length {d z k : Residue id} {digest : List UInt8}
    (h : Signed hash id d message signature digest z k) :
    signature.length = ecdsaSignatureSize (cryptoEcCurveGet id) := by
  rw [h.bytes, halves, List.length_append, bigEndian_length, bigEndian_length, ecdsaSignatureSize]
  omega

theorem beValue_val (x : Residue id) :
    beValue (bigEndian (cryptoEcCurveGet id).scalarBytes x.val) = x.val := by
  have hlt := ZMod.val_lt x
  have hsizes := sizes id
  have hbits := Nat.lt_size_self (groupOrder (cryptoEcCurveGet id))
  have hbytes := hsizes.bytes
  rw [beValue_bigEndian, Nat.mod_eq_of_lt]
  rw [hsizes.size] at hbits
  apply (hlt.trans hbits).trans_le
  rw [show 256 = 2 ^ 8 from rfl, ← pow_mul]
  exact Nat.pow_le_pow_right Nat.two_pos (by omega)

theorem scalarFromBytes_val (x : Residue id) :
    ∃ w, cryptoEcScalarFromBytes (cryptoEcCurveGet id)
        (bigEndian (cryptoEcCurveGet id).scalarBytes x.val) = .ok w ∧
      ScalarHolds (cryptoEcCurveGet id) _ w x := by
  have hvalue := beValue_val x
  obtain ⟨w, hw, hholds⟩ := scalarFromBytes_ok (sizes id) (scalarModulus_sound id)
    (bigEndian_length (cryptoEcCurveGet id).scalarBytes x.val)
    (by rw [hvalue]; exact ZMod.val_lt x)
  rw [hvalue, ZMod.natCast_zmod_val] at hholds
  exact ⟨w, hw, hholds⟩

theorem multiplyVartime_holds {point : CryptoEcAffinePoint} {P : (group id).Point}
    (hP : AffineHolds id point P) {w : List UInt32} {x : Residue id}
    (hw : ScalarHolds (cryptoEcCurveGet id) _ w x) :
    ∃ out, cryptoEcScalarMultiplyVartime (cryptoEcCurveGet id) point
        (cryptoEcScalarToBytes (cryptoEcCurveGet id) w) = .ok out ∧
      AffineHolds id out (x.val • P) := by
  obtain ⟨out, hout, hholds⟩ := cryptoEcScalarMultiplyVartime_spec hP
    (bigEndian_length (cryptoEcCurveGet id).scalarBytes x.val).le
  rw [beValue_val] at hholds
  rw [scalarToBytes_eq (scalarModulus_sound id) hw]
  exact ⟨out, hout, hholds⟩

/-- A signature that was computed is accepted under any bytes that are read as the public point. -/
theorem Signed.checks {d z k : Residue id} {digest publicBytes : List UInt8}
    {publicPoint : CryptoEcAffinePoint} (h : Signed hash id d message signature digest z k)
    (hdecode : cryptoEcPointDecode (cryptoEcCurveGet id) publicBytes false = .ok publicPoint)
    (hpublic : AffineHolds id publicPoint (d.val • generator id)) :
    ecdsaCheckSignature hash (cryptoEcCurveGet id) publicBytes message signature = .ok () := by
  have hsound := scalarModulus_sound id
  obtain ⟨hhash, ⟨e, octets, he, hz⟩, hfinite, hcommitment, hresponse, rfl⟩ := h
  have hrecovered := Scheme.recovered_eq hresponse
  generalize hr : (scheme id).commitment k = r at *
  generalize (scheme id).response d z k = s at *
  have htake : (halves id r s).take (cryptoEcCurveGet id).scalarBytes =
      bigEndian (cryptoEcCurveGet id).scalarBytes r.val := List.take_left' (bigEndian_length _ _)
  have hdrop : (halves id r s).drop (cryptoEcCurveGet id).scalarBytes =
      bigEndian (cryptoEcCurveGet id).scalarBytes s.val := List.drop_left' (bigEndian_length _ _)
  obtain ⟨wr, hwr, hrHolds⟩ := scalarFromBytes_val r
  obtain ⟨ws, hws, hsHolds⟩ := scalarFromBytes_val s
  have hinverse := scalarInvert_holds id hsHolds
  obtain ⟨uPoint, huPoint, hu⟩ := multiplyVartime_holds (generator_holds id)
    (scalarMultiply_holds hsound hz hinverse)
  obtain ⟨vPoint, hvPoint, hv⟩ := multiplyVartime_holds hpublic
    (scalarMultiply_holds hsound hrHolds hinverse)
  have hsum := jacobianToAffine_holds
    ((affineToJacobian_represents hu).add (affineToJacobian_represents hv))
  rw [Scheme.recovered] at hrecovered
  change AffineHolds id _ ((z * s⁻¹).val • (scheme id).base +
    (r * s⁻¹).val • d.val • (scheme id).base) at hsum
  rw [hrecovered] at hsum
  obtain ⟨wx, hwx, hxHolds⟩ := xReduced_holds hsum hfinite
  have hequal := scalarEqualMask_eq hsound hxHolds hrHolds
  simp only [ecdsaCheckSignature, bind_eq_ok, orStatus_eq_ok, refuse_eq_ok]
  refine ⟨publicPoint, hdecode, wr, by rw [htake]; exact hwr, (),
    (scalarZeroMask_eq_zero hrHolds).mpr hcommitment, ws, by rw [hdrop]; exact hws, (),
    (scalarZeroMask_eq_zero hsHolds).mpr hresponse, digest, hhash, (e, octets), he, uPoint, huPoint,
    vPoint, hvPoint, (), (finite_of_holds hsum).mpr hfinite, wx, hwx, ?_⟩
  have hsame : residue id (k.val • (scheme id).base) = r := hr
  rw [hequal, if_pos hsame]
  decide

def algOf : CryptoEcCurveId → LiberaCAlgID
  | .p256 => .ecdsaP256
  | .p384 => .ecdsaP384
  | .p521 => .ecdsaP521

theorem ecdsaCurveFromAlg_algOf (id : CryptoEcCurveId) :
    ecdsaCurveFromAlg (algOf id) = .ok (cryptoEcCurveGet id) := by
  cases id <;> rfl

/-- Wherever the key and a large enough separate output are, the public key is written. -/
def Derives (id : CryptoEcCurveId) (d publicBytes : List UInt8) : Prop :=
  ∀ (memory : Memory) (publicKey publicKeyLength privateKey : Nat),
    publicKey ≠ 0 → privateKey ≠ 0 →
    ecdsaPublicSize (cryptoEcCurveGet id) ≤ publicKeyLength →
    Disjoint publicKey (ecdsaPublicSize (cryptoEcCurveGet id)) privateKey d.length →
    readBytes memory privateKey d.length = d →
    cryptoEcdsaPublicFromPrivateInternal (algOf id) publicKey publicKeyLength privateKey d.length
      memory = (.ok (), writeBytes memory publicKey publicBytes)

/-- Wherever the key, the message and the signature are, they are accepted. -/
def Verifies (hash : List UInt8 → Except LiberaCError (List UInt8)) (id : CryptoEcCurveId)
    (hashAlg : LiberaCAlgID) (publicBytes message signature : List UInt8) : Prop :=
  ∀ (memory : Memory) (publicKey messageAt signatureAt : Nat),
    publicKey ≠ 0 → signatureAt ≠ 0 → (messageAt = 0 → message = []) →
    readBytes memory publicKey publicBytes.length = publicBytes →
    readBytes memory messageAt message.length = message →
    readBytes memory signatureAt signature.length = signature →
    cryptoEcdsaVerifyInternal hash (algOf id) hashAlg publicKey publicBytes.length messageAt
      message.length signatureAt signature.length memory = (.ok (), memory)

theorem derives (hkey : PrivateKey id privateKey) :
    Derives id privateKey (encoding id false (beValue privateKey • generator id)) := by
  intro memory publicKey publicKeyLength privateAt hpublic hprivate hroom hdisjoint hread
  obtain ⟨point, hpoint, hholds⟩ :=
    cryptoEcScalarMultiplyCt_spec (generator_holds id) hkey.length hkey.pos hkey.lt
  have hsize : (encoding id false (beValue privateKey • generator id)).length =
      ecdsaPublicSize (cryptoEcCurveGet id) :=
    encoding_length (nsmul_generator_ne_zero hkey) false
  have hfits : ecdsaPublicSize (cryptoEcCurveGet id) ≤ ecdsaMaxPublicBytes := by
    cases id <;> decide
  have hencode := cryptoEcPointEncode_eq hholds false (hsize.trans_le hfits)
  have hoverlap := (cryptoRangesOverlap_iff _ _ _ _).mpr hdisjoint
  have hvalid := cryptoEcScalarIsValidCt_eq (sizes id) hkey.length
  rw [if_pos ⟨hkey.pos, hkey.lt⟩] at hvalid
  unfold cryptoEcdsaPublicFromPrivateInternal
  rw [ecdsaCurveFromAlg_algOf, compute_ok_bind, if_neg (by simp [hpublic, hprivate]),
    if_neg (by simp [hkey.length]), if_neg (not_lt.mpr hroom), hoverlap, if_neg (by decide),
    compute_ok_bind]
  apply wipeOnError_ok
  rw [load_bind, hread, hvalid, refuse, if_neg (by decide), compute_ok_bind, hpoint,
    compute_ok_bind, hencode, compute_ok_bind, refuse, if_neg (not_not.mpr hsize), compute_ok_bind]
  rfl

/-- Wherever the key, the message and a large enough separate output are, a signature that is
computed is written. -/
theorem signs {hashAlg : LiberaCAlgID} {digestLength : Nat} {memory : Memory}
    {privateAt messageAt signatureAt signatureLength : Nat}
    (hparameters : ecdsaHashParameters (cryptoEcCurveGet id) hashAlg = .ok digestLength)
    (hlength : privateKey.length = (cryptoEcCurveGet id).scalarBytes)
    (hlocal : ecdsaLocalSignature hash ecdsaHmac (cryptoEcCurveGet id) privateKey message =
      .ok signature)
    (hprivate : privateAt ≠ 0) (hsignature : signatureAt ≠ 0) (hnull : messageAt = 0 → message = [])
    (hroom : ecdsaSignatureSize (cryptoEcCurveGet id) ≤ signatureLength)
    (hkey : Disjoint signatureAt (ecdsaSignatureSize (cryptoEcCurveGet id)) privateAt
      privateKey.length)
    (hmessage : Disjoint signatureAt (ecdsaSignatureSize (cryptoEcCurveGet id)) messageAt
      message.length)
    (hread : readBytes memory privateAt privateKey.length = privateKey)
    (hreadMessage : readBytes memory messageAt message.length = message) :
    cryptoEcdsaSignInternal hash ecdsaHmac (algOf id) hashAlg privateAt privateKey.length messageAt
      message.length signatureAt signatureLength memory =
        (.ok (), writeBytes memory signatureAt signature) := by
  have hoverlapKey := (cryptoRangesOverlap_iff _ _ _ _).mpr hkey
  have hoverlapMessage := (cryptoRangesOverlap_iff _ _ _ _).mpr hmessage
  unfold cryptoEcdsaSignInternal
  rw [ecdsaCurveFromAlg_algOf, compute_ok_bind, hparameters, compute_ok_bind,
    if_neg (by simpa [hprivate, hsignature] using hnull), if_neg (not_not.mpr hlength),
    if_neg (not_lt.mpr hroom), hoverlapKey, hoverlapMessage, if_neg (by decide), compute_ok_bind]
  apply wipeOnError_ok
  rw [load_bind, hread, load_bind, hreadMessage, hlocal, compute_ok_bind]
  rfl

theorem signInternal_of_ok {hashAlg : LiberaCAlgID} {memory : Memory}
    {privateAt privateKeyLength messageAt messageLength signatureAt signatureLength : Nat}
    (h : (cryptoEcdsaSignInternal hash ecdsaHmac (algOf id) hashAlg privateAt privateKeyLength
      messageAt messageLength signatureAt signatureLength memory).1 = .ok ()) :
    ∃ signature digestLength,
      ecdsaHashParameters (cryptoEcCurveGet id) hashAlg = .ok digestLength ∧
      ecdsaLocalSignature hash ecdsaHmac (cryptoEcCurveGet id)
        (readBytes memory privateAt privateKeyLength) (readBytes memory messageAt messageLength) =
          .ok signature ∧
      (cryptoEcdsaSignInternal hash ecdsaHmac (algOf id) hashAlg privateAt privateKeyLength
        messageAt messageLength signatureAt signatureLength memory).2 =
          writeBytes memory signatureAt signature := by
  unfold cryptoEcdsaSignInternal at h ⊢
  rw [ecdsaCurveFromAlg_algOf, compute_ok_bind] at h ⊢
  cases hparameters : ecdsaHashParameters (cryptoEcCurveGet id) hashAlg with
  | error e =>
    rw [hparameters] at h
    cases h
  | ok digestLength =>
    rw [hparameters, compute_ok_bind] at h
    rw [compute_ok_bind]
    split_ifs at h ⊢
    · cases h
    · cases h
    · cases h
    · cases h
    rw [compute_ok_bind, wipeOnError, load_bind, load_bind] at h ⊢
    cases hlocal : ecdsaLocalSignature hash ecdsaHmac (cryptoEcCurveGet id)
        (readBytes memory privateAt privateKeyLength)
        (readBytes memory messageAt messageLength) with
    | error e =>
      rw [hlocal] at h
      cases h
    | ok signature => exact ⟨signature, digestLength, rfl, rfl, rfl⟩

theorem verifies {hashAlg : LiberaCAlgID} {digestLength : Nat} {publicBytes : List UInt8}
    (hparameters : ecdsaHashParameters (cryptoEcCurveGet id) hashAlg = .ok digestLength)
    (hkey : ecdsaPublicLengthValid (cryptoEcCurveGet id) publicBytes.length = true)
    (hlength : signature.length = ecdsaSignatureSize (cryptoEcCurveGet id))
    (h : ecdsaCheckSignature hash (cryptoEcCurveGet id) publicBytes message signature = .ok ()) :
    Verifies hash id hashAlg publicBytes message signature := by
  intro memory publicKey messageAt signatureAt hpublic hsignature hnull hread hreadMessage
    hreadSignature
  unfold cryptoEcdsaVerifyInternal
  rw [ecdsaCurveFromAlg_algOf, compute_ok_bind, hparameters, compute_ok_bind,
    if_neg (by simpa [hpublic, hsignature] using hnull), hkey, if_neg (by decide),
    if_neg (not_not.mpr hlength), compute_ok_bind, load_bind, hread, load_bind, hreadMessage,
    load_bind, hreadSignature, h]
  rfl

theorem ecdsaPublicLengthValid_encoding {P : (group id).Point} (hP : P ≠ 0) (compressed : Bool) :
    ecdsaPublicLengthValid (cryptoEcCurveGet id) (encoding id compressed P).length = true := by
  rw [encoding_length hP]
  cases compressed <;> simp [ecdsaPublicLengthValid, ecdsaPublicSize,
    Ecdh.ecdhUncompressedPublicSize]

/-- Whatever the hash and the MAC are, a signature that was returned is accepted under the public
key of the private one, in either form. -/
theorem ecdsa_sign_verify (id : CryptoEcCurveId) (hashAlg : LiberaCAlgID)
    (hash : List UInt8 → Except LiberaCError (List UInt8))
    (ecdsaHmac : List UInt8 → List UInt8 → Except LiberaCError (List UInt8))
    {privateKey : List UInt8} (hkey : PrivateKey id privateKey) (message : List UInt8) :
    ∃ publicBytes compressed, Derives id privateKey publicBytes ∧
      Compresses id publicBytes compressed ∧
      ∀ (memory : Memory) (privateAt messageAt signatureAt signatureLength : Nat),
        readBytes memory privateAt privateKey.length = privateKey →
        readBytes memory messageAt message.length = message →
        (cryptoEcdsaSignInternal hash ecdsaHmac (algOf id) hashAlg privateAt privateKey.length
          messageAt message.length signatureAt signatureLength memory).1 = .ok () →
        ∃ signature, signature.length = ecdsaSignatureSize (cryptoEcCurveGet id) ∧
          (cryptoEcdsaSignInternal hash ecdsaHmac (algOf id) hashAlg privateAt privateKey.length
            messageAt message.length signatureAt signatureLength memory).2 =
              writeBytes memory signatureAt signature ∧
          ∀ key ∈ [publicBytes, compressed], Verifies hash id hashAlg key message signature := by
  have hfinite := nsmul_generator_ne_zero hkey
  have hval : (beValue privateKey : Residue id).val = beValue privateKey := by
    rw [ZMod.val_natCast, Nat.mod_eq_of_lt hkey.lt]
  refine ⟨_, _, derives hkey, compresses hfinite, ?_⟩
  intro memory privateAt messageAt signatureAt signatureLength hread hreadMessage hsuccess
  obtain ⟨signature, digestLength, hparameters, hlocal, hwritten⟩ := signInternal_of_ok hsuccess
  rw [hread, hreadMessage] at hlocal
  obtain ⟨digest, z, k, hsigned⟩ := localSignature_signed hlocal
  have haccepts : ∀ compressed, Verifies hash id hashAlg
      (encoding id compressed (beValue privateKey • generator id)) message signature := by
    intro compressed
    obtain ⟨point, hpoint⟩ := exists_affineHolds (beValue privateKey • generator id)
    have hdecode := cryptoEcPointDecode_encoding (fieldPrime_prime id) hpoint compressed false
      fun hzero => absurd hzero hfinite
    rw [← hval] at hpoint
    exact verifies hparameters (ecdsaPublicLengthValid_encoding hfinite compressed)
      hsigned.signature_length (hsigned.checks hdecode hpoint)
  refine ⟨signature, hsigned.signature_length, hwritten, fun key hmem => ?_⟩
  cases List.mem_pair.mp hmem with
  | inl h =>
    rw [h]
    exact haccepts false
  | inr h =>
    rw [h]
    exact haccepts true

section Witness

def oneHmac : List UInt8 → List UInt8 → Except LiberaCError (List UInt8) := fun _ _ =>
  .ok (bigEndian 32 1)

theorem key_p256 (k : Nat) (h : 1 ≤ k ∧ k < 2 ^ 32) : PrivateKey .p256 (bigEndian 32 k) := by
  have hvalue : beValue (bigEndian 32 k) = k := by
    rw [beValue_bigEndian, Nat.mod_eq_of_lt (h.2.trans (by decide))]
  refine ⟨bigEndian_length 32 k, ?_, ?_⟩
  · rw [hvalue]
    exact h.1
  · rw [hvalue]
    exact h.2.trans (by decide)

theorem nonceAttempt_one (drbg : HmacState) {nonce : List UInt8} {found : UInt32}
    (h : selectBytes ((0 : UInt32) - (1 &&& (found ^^^ 1))) nonce (bigEndian 32 1) =
      bigEndian 32 1) :
    nonceAttempt oneHmac cryptoEcP256 32 ⟨drbg, nonce, found⟩ =
      (.ok (), ⟨⟨bigEndian 32 1, bigEndian 32 1⟩, bigEndian 32 1, found ||| 1⟩) := by
  have hfill : FillLoop.fillLoop 32 (nextValue oneHmac) cryptoEcP256.scalarBytes drbg =
      (.ok (bigEndian 32 1), ⟨drbg.key, bigEndian 32 1⟩) := by
    rw [FillLoop.fillLoop, dif_pos (by decide)]
    dsimp only [nextValue, oneHmac]
    rw [FillLoop.fillLoop, dif_neg (by decide)]
    rfl
  have hkey := key_p256 1 (by decide)
  have hvalid : cryptoEcScalarIsValidCt cryptoEcP256 (bigEndian 32 1) = 1 :=
    (cryptoEcScalarIsValidCt_eq (sizes .p256) hkey.length).trans (if_pos ⟨hkey.pos, hkey.lt⟩)
  rw [nonceAttempt, hfill]
  dsimp only
  rw [if_neg (by decide), hvalid, h]
  rfl

theorem nonceAttempts_one (n : Nat) (drbg : HmacState) :
    ∃ drbg', nonceAttempts oneHmac cryptoEcP256 32 (n + 1) ⟨drbg, List.replicate 32 0, 0⟩ =
      (.ok (), ⟨drbg', bigEndian 32 1, 1⟩) := by
  induction n with
  | zero => exact ⟨_, nonceAttempt_one drbg (by decide)⟩
  | succ n ih =>
    obtain ⟨drbg', h⟩ := ih
    exact ⟨_, (bind_ok h).trans (nonceAttempt_one drbg' (by decide))⟩

theorem nonce_one {digest octets privateKey : List UInt8} {e : List UInt32}
    (hlength : digest.length = 32)
    (he : ecdsaDigestToScalar cryptoEcP256 digest = .ok (e, octets)) :
    ecdsaNonce oneHmac cryptoEcP256 privateKey digest = (.ok (), bigEndian 32 1) := by
  obtain ⟨drbg, hattempts⟩ := nonceAttempts_one 15 ⟨bigEndian 32 1, bigEndian 32 1⟩
  have hinitialize : ecdsaRfc6979Initialize oneHmac cryptoEcP256 privateKey digest ⟨[], []⟩ =
      (.ok (), ⟨bigEndian 32 1, bigEndian 32 1⟩) := by
    rw [ecdsaRfc6979Initialize, he]
    rfl
  rw [ecdsaNonce, hinitialize]
  dsimp only
  have hdrawn : nonceAttempts oneHmac cryptoEcP256 32 ecdsaRfc6979Candidates
      ⟨⟨bigEndian 32 1, bigEndian 32 1⟩, List.replicate cryptoEcP256.scalarBytes 0, 0⟩ =
        (.ok (), ⟨drbg, bigEndian 32 1, 1⟩) := hattempts
  rw [ecdsaRfc6979Generate, hlength, hdrawn]
  rfl

theorem residue_generator_eq :
    residue .p256 (generator .p256) = (((domain .p256).gx : Nat) : Residue .p256) := by
  have hval : ((domain .p256).gx : BaseField .p256).val = (domain .p256).gx := by
    rw [ZMod.val_natCast]
    decide
  change (((domain .p256).gx : BaseField .p256).val : Residue .p256) = _
  rw [hval]

theorem residue_generator : residue .p256 (generator .p256) ≠ 0 := by
  rw [residue_generator_eq, ne_eq, ZMod.natCast_eq_zero_iff]
  decide

theorem residue_combination :
    ((6 : Nat) : Residue .p256) + residue .p256 (generator .p256) * ((5 : Nat) : Residue .p256) ≠ 0 := by
  rw [residue_generator_eq, ← Nat.cast_mul, ← Nat.cast_add, ne_eq, ZMod.natCast_eq_zero_iff]
  decide

def sumHash : List UInt8 → Except LiberaCError (List UInt8) := fun message =>
  .ok (bigEndian 32 (message.map UInt8.toNat).sum)

/-- With the nonce one, the private key five signs a message of digest six. -/
theorem localSignature_five :
    ∃ signature, ecdsaLocalSignature sumHash oneHmac cryptoEcP256 (bigEndian 32 5) [1, 2, 3] =
      .ok signature := by
  have hsix : beValue (bigEndian 32 6) = 6 := by decide
  have hone : beValue (bigEndian 32 1) = 1 := by decide
  have hfive : beValue (bigEndian 32 5) = 5 := by decide
  obtain ⟨e, he, hz⟩ := fromBytesReduced_holds (sizes .p256) (scalarModulus_sound .p256)
    (show (bigEndian 32 6).length = cryptoEcP256.scalarBytes from bigEndian_length 32 6)
    (by rw [hsix]; decide)
  have hdigest : ecdsaDigestToScalar cryptoEcP256 (bigEndian 32 6) =
      .ok (e, cryptoEcScalarToBytes cryptoEcP256 e) := by
    rw [ecdsaDigestToScalar, if_neg (by decide)]
    exact bind_eq_ok.mpr ⟨e, he, rfl⟩
  have hunit : (scheme .p256).commitment (1 : Residue .p256) = residue .p256 (generator .p256) := by
    have hval : (1 : Residue .p256).val = 1 := ZMod.val_one _
    rw [Scheme.commitment, hval, one_nsmul]
    rfl
  have hsum : ([1, 2, 3].map UInt8.toNat).sum = 6 := by decide
  have hhash : sumHash [1, 2, 3] = .ok (bigEndian 32 6) := by rw [sumHash, hsum]
  apply localSignature_returns (key_p256 5 (by decide)) hhash hdigest hz
    (nonce_one (bigEndian_length 32 6) hdigest) (key_p256 1 (by decide))
  · rw [hone, Nat.cast_one, hunit]
    exact residue_generator
  · rw [hone, hsix, hfive, Nat.cast_one, Scheme.response, hunit, inv_one, one_mul]
    exact residue_combination

theorem ecdsa_sign_verify_five :
    ∃ publicBytes compressed memory signature, Derives .p256 (bigEndian 32 5) publicBytes ∧
      Compresses .p256 publicBytes compressed ∧
      readBytes memory 200 3 = [1, 2, 3] ∧
      cryptoEcdsaSignInternal sumHash oneHmac .ecdsaP256 .hashSha2_256 100 32 200 3 300 64
        memory = (.ok (), writeBytes memory 300 signature) ∧
      ∀ key ∈ [publicBytes, compressed],
        Verifies sumHash .p256 .hashSha2_256 key [1, 2, 3] signature := by
  obtain ⟨publicBytes, compressed, hderives, hcompresses, haccepts⟩ :=
    ecdsa_sign_verify .p256 .hashSha2_256 sumHash oneHmac (key_p256 5 (by decide)) [1, 2, 3]
  obtain ⟨memory, hread, hmessage⟩ : ∃ memory, readBytes memory 100 32 = bigEndian 32 5 ∧
      readBytes memory 200 3 = [1, 2, 3] := by
    refine ⟨writeBytes (writeBytes ⟨fun _ => 0⟩ 100 (bigEndian 32 5)) 200 [1, 2, 3], ?_,
      read_write _ 200 [1, 2, 3]⟩
    rw [read_write_disjoint]
    · exact read_write _ 100 (bigEndian 32 5)
    · intro i hi j hj
      rw [List.length_cons, List.length_cons, List.length_cons, List.length_nil] at hi
      omega
  obtain ⟨computed, hcomputed⟩ := localSignature_five
  have hsigns := @signs .p256 _ _ _ _ _ .hashSha2_256 32 _ 100 200 300 64 rfl
    (bigEndian_length 32 5) hcomputed (by decide) (by decide) (fun h => absurd h (by decide))
    (by decide) ((cryptoRangesOverlap_iff _ _ _ _).mp (by decide))
    ((cryptoRangesOverlap_iff _ _ _ _).mp (by decide)) hread hmessage
  have hsuccess := congrArg Prod.fst hsigns
  obtain ⟨signature, -, hwritten, hverifies⟩ :=
    haccepts memory 100 200 300 64 hread hmessage hsuccess
  exact ⟨publicBytes, compressed, memory, signature, hderives, hcompresses, hmessage,
    Prod.ext hsuccess hwritten, hverifies⟩

end Witness

end LiberaCrypt.EcdsaCorrect
