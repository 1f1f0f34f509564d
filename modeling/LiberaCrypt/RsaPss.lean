import LiberaCrypt.CtrDrbg
import LiberaCrypt.PssEncoding
import LiberaCrypt.RsaOperations

namespace LiberaCrypt.RsaPss

open LiberaCrypt.Outcome LiberaCrypt.Allocation LiberaCrypt.BigEndian LiberaCrypt.Bignum
open LiberaCrypt.ByteMemory LiberaCrypt.CtrDrbg LiberaCrypt.Def LiberaCrypt.Endian
open LiberaCrypt.HostMemory LiberaCrypt.Mgf1 LiberaCrypt.ModExpAgree LiberaCrypt.PssEncoding
open LiberaCrypt.Rsa LiberaCrypt.RsaOperations LiberaCrypt.Sha1

structure PssRequest where
  alg : LiberaCAlgID
  hashAlg : LiberaCAlgID
  message : Nat
  messageLength : Nat
  signature : Nat
  signatureLength : Nat
  saltLength : Nat

def rsaResolveSaltLength (requested hashLength : Nat) : Nat :=
  if requested = sizeMax then hashLength else requested

def encodedBits (modulus : LiberaCBignum) : Nat := cryptoBignumBitLength modulus - 1

def PssRequest.salt (r : PssRequest) : Nat :=
  rsaResolveSaltLength r.saltLength (rsaHashLength r.hashAlg)

def pssSignCheck (r : PssRequest) (privateKey : LiberaCRsaPrivateKey) :
    Except LiberaCError Unit :=
  let hashLength := rsaHashLength r.hashAlg
  let modulusBytes := rsaModulusSize privateKey.n
  let encodedLength := pssEncodedLength (encodedBits privateKey.n)
  if r.alg ≠ .rsaPss then .error .invalidAlgId
  else if hashLength = 0 then .error .invalidAlgId
  else if rsaPrivateKeyValid privateKey = false then .error .invalidKey
  else if r.signature = 0 ∨ (r.message = 0 ∧ r.messageLength ≠ 0) then .error .invalidArgument
  else if cryptoBignumBitLength privateKey.n < 2 then .error .invalidKey
  else if sizeMax - hashLength - 2 < r.salt ∨ encodedLength < hashLength + r.salt + 2 then
    .error .messageTooLarge
  else if r.signatureLength < modulusBytes then .error .bufferTooSmall
  else if cryptoRangesOverlap r.signature modulusBytes r.message r.messageLength then
    .error .invalidArgument
  else .ok ()

def pssVerifyCheck (r : PssRequest) (publicKey : LiberaCRsaPublicKey) :
    Except LiberaCError Unit :=
  let hashLength := rsaHashLength r.hashAlg
  let modulusBytes := rsaModulusSize publicKey.n
  let encodedLength := pssEncodedLength (encodedBits publicKey.n)
  if r.alg ≠ .rsaPss then .error .invalidAlgId
  else if hashLength = 0 then .error .invalidAlgId
  else if rsaPublicKeyValid publicKey = false then .error .invalidKey
  else if r.signature = 0 ∨ (r.message = 0 ∧ r.messageLength ≠ 0) then .error .invalidArgument
  else if r.signatureLength ≠ modulusBytes then .error .signatureInvalid
  else if cryptoBignumBitLength publicKey.n < 2 then .error .invalidKey
  else if sizeMax - hashLength - 2 < r.salt ∨ encodedLength < hashLength + r.salt + 2 then
    .error .invalidArgument
  else .ok ()

section Operations

-- The hash of the selected algorithm.
variable (hash : List UInt8 → Except LiberaCError (List UInt8))

/-- What is computed between `calloc` and the label `cleanup`. -/
def pssSignature (random : Option (Nat → UInt8)) (hashLength saltLength : Nat)
    (message : List UInt8) (privateKey : LiberaCRsaPrivateKey) : Fallible (List UInt8) := do
  (if saltLength ≠ 0 then allocate saltLength .allocationFailed else pure ())
  let encoded ← given (pssEncode hash hashLength (encodedBits privateKey.n) saltLength message
    (cryptoRandomBytesInternal random saltLength))
  rsaPrivateOperation (rsaModulusSize privateKey.n) encoded privateKey true

def cryptoRsaPssSignInternal (random : Option (Nat → UInt8)) (r : PssRequest)
    (privateKey : LiberaCRsaPrivateKey) : OnHost Unit := do
  inMemory (compute (pssSignCheck r privateKey))
  let modulusBytes := rsaModulusSize privateKey.n
  allocating (allocate (pssEncodedLength (encodedBits privateKey.n)) .allocationFailed)
  cleanup (do
    let message ← inMemory (load r.message r.messageLength)
    let signature ← allocating
      (pssSignature hash random (rsaHashLength r.hashAlg) r.salt message privateKey)
    inMemory (store r.signature signature))
    fun s => { s with memory := cryptoZeroize r.signature modulusBytes s.memory }

def pssDecision (hashLength saltLength : Nat) (message signature : List UInt8)
    (publicKey : LiberaCRsaPublicKey) : Fallible Unit := do
  let encoded ← rsaPublicVerifyOperation (pssEncodedLength (encodedBits publicKey.n)) signature
    publicKey
  given (pssCheck hash hashLength (encodedBits publicKey.n) saltLength message encoded)

def cryptoRsaPssVerifyInternal (r : PssRequest) (publicKey : LiberaCRsaPublicKey) :
    OnHost Unit := do
  inMemory (compute (pssVerifyCheck r publicKey))
  allocating (allocate (pssEncodedLength (encodedBits publicKey.n)) .allocationFailed)
  let message ← inMemory (load r.message r.messageLength)
  let signature ← inMemory (load r.signature r.signatureLength)
  allocating (pssDecision hash (rsaHashLength r.hashAlg) r.salt message signature publicKey)

end Operations

section Sizes

variable {modulus : LiberaCBignum}

theorem encodedBits_eq (hm : modulus.Valid) : encodedBits modulus = modulus.value.size - 1 := by
  rw [encodedBits, cryptoBignumBitLength_eq hm]

theorem encodedLength_le (hm : modulus.Valid) :
    (encodedBits modulus + 7) / 8 ≤ rsaModulusSize modulus := by
  rw [rsaModulusSize_eq hm, encodedBits_eq hm]
  omega

theorem two_pow_encodedBits_le (hm : modulus.Valid) (hpos : modulus.value ≠ 0) :
    2 ^ encodedBits modulus ≤ modulus.value := by
  rw [encodedBits_eq hm, ← Nat.lt_size]
  have hsize := Nat.size_pos.mpr (Nat.pos_of_ne_zero hpos)
  omega

end Sizes

section Verification

variable {hash : List UInt8 → Except LiberaCError (List UInt8)} {H : List UInt8 → List UInt8}
  {n saltLength : Nat} {r : PssRequest} {key : LiberaCRsaPublicKey} {message signature : List UInt8}

/-- The signature is as long as the modulus and below it, and its power is an encoding of the digest
of the message with a salt of the length. -/
def Accepts (H : List UInt8 → List UInt8) (n saltLength : Nat) (key : LiberaCRsaPublicKey)
    (message signature : List UInt8) : Prop :=
  signature.length = rsaModulusSize key.n ∧ beValue signature < key.n.value ∧
    beValue signature ^ key.e.value % key.n.value < 256 ^ ((encodedBits key.n + 7) / 8) ∧
    PssEncodes H n (encodedBits key.n) saltLength (H message)
      (bigEndian ((encodedBits key.n + 7) / 8) (beValue signature ^ key.e.value % key.n.value))

/-- What the checks of verification say of its arguments, but for the length of the signature. -/
structure Verifiable (r : PssRequest) (key : LiberaCRsaPublicKey) : Prop where
  alg : r.alg = .rsaPss
  supported : rsaHashLength r.hashAlg ≠ 0
  pointers : ¬ (r.signature = 0 ∨ (r.message = 0 ∧ r.messageLength ≠ 0))
  bits : 2 ≤ cryptoBignumBitLength key.n
  size : r.salt ≤ sizeMax - rsaHashLength r.hashAlg - 2
  room : rsaHashLength r.hashAlg + r.salt + 2 ≤ (encodedBits key.n + 7) / 8

theorem pssVerifyCheck_eq (h : Verifiable r key) (hkey : PublicKey key) :
    pssVerifyCheck r key = if r.signatureLength = rsaModulusSize key.n then .ok ()
      else .error .signatureInvalid := by
  have hroom := h.room
  rw [← pssEncodedLength_eq] at hroom
  unfold pssVerifyCheck
  dsimp only
  rw [if_neg (not_not.mpr h.alg), if_neg h.supported, if_neg (by rw [hkey.accepted]; decide),
    if_neg h.pointers]
  by_cases hlength : r.signatureLength = rsaModulusSize key.n
  · rw [if_neg (not_not.mpr hlength), if_neg (not_lt.mpr h.bits), if_pos hlength,
      if_neg (not_or.mpr ⟨not_lt.mpr h.size, not_lt.mpr hroom⟩)]
  · rw [if_pos hlength, if_neg hlength]

def pssVerified (hash : List UInt8 → Except LiberaCError (List UInt8)) (n saltLength : Nat)
    (key : LiberaCRsaPublicKey) (message signature : List UInt8) : Except LiberaCError Unit := do
  let encoded ← (if beValue signature < key.n.value ∧
      beValue signature ^ key.e.value % key.n.value < 256 ^ ((encodedBits key.n + 7) / 8) then
    .ok (bigEndian ((encodedBits key.n + 7) / 8) (beValue signature ^ key.e.value % key.n.value))
    else .error .signatureInvalid)
  pssCheck hash n (encodedBits key.n) saltLength message encoded

theorem pssDecision_conforms (hkey : PublicKey key)
    (hlength : signature.length = rsaModulusSize key.n) :
    Conforms (108 * key.n.length) (pssDecision hash n saltLength message signature key)
      (pssVerified hash n saltLength key message signature) := by
  have hsize := rsaModulusSize_le hkey.n_valid
  have hopened := rsaPublicVerifyOperation_conforms hkey (hlength.trans_le hsize)
    ((encodedBits key.n + 7) / 8)
  unfold pssDecision
  rw [pssEncodedLength_eq]
  exact hopened.bind fun encoded _ => Conforms.given _

def failureStatus (n : Nat) (key : LiberaCRsaPublicKey) (signature : List UInt8) : LiberaCError :=
  if beValue signature < key.n.value ∧
      beValue signature ^ key.e.value % key.n.value < 256 ^ ((encodedBits key.n + 7) / 8) then
    pssFailure n (encodedBits key.n)
  else .signatureInvalid

theorem pssVerified_cases (h : Hashes hash H n) (hlength : signature.length = rsaModulusSize key.n)
    (hroom : n + saltLength + 2 ≤ (encodedBits key.n + 7) / 8) (message : List UInt8) :
    (Accepts H n saltLength key message signature ∧
      pssVerified hash n saltLength key message signature = .ok ()) ∨
    (¬ Accepts H n saltLength key message signature ∧
      pssVerified hash n saltLength key message signature =
        .error (failureStatus n key signature)) := by
  unfold pssVerified failureStatus Accepts
  by_cases hopened : beValue signature < key.n.value ∧
      beValue signature ^ key.e.value % key.n.value < 256 ^ ((encodedBits key.n + 7) / 8)
  · have hcases := pssCheck_cases h message (bigEndian_length ((encodedBits key.n + 7) / 8)
      (beValue signature ^ key.e.value % key.n.value)) hroom
    rw [if_pos hopened, if_pos hopened]
    simp only [hlength, hopened.1, hopened.2, true_and]
    exact hcases
  · rw [if_neg hopened, if_neg hopened]
    exact Or.inr ⟨fun hall => hopened ⟨hall.2.1, hall.2.2.1⟩, rfl⟩

theorem verify_run (hkey : PublicKey key) (hr : Verifiable r key) (host : Host) (s : Process) :
    let signature := readBytes s.memory r.signature r.signatureLength
    let message := readBytes s.memory r.message r.messageLength
    EndsAs host (108 * key.n.length)
      (if signature.length = rsaModulusSize key.n then
        pssVerified hash (rsaHashLength r.hashAlg) r.salt key message signature
      else .error .signatureInvalid)
      (cryptoRsaPssVerifyInternal hash r key host s).1 := by
  intro signature message
  have hsize := rsaModulusSize_le hkey.n_valid
  have hencoded := encodedLength_le hkey.n_valid
  rw [← pssEncodedLength_eq] at hencoded
  have hread : signature.length = r.signatureLength := readBytes_length _ _ _
  unfold cryptoRsaPssVerifyInternal
  rw [pssVerifyCheck_eq hr hkey, hread]
  by_cases hlength : r.signatureLength = rsaModulusSize key.n
  · rw [if_pos hlength, if_pos hlength, inMemory_compute_ok]
    obtain ⟨k, hgranted | ⟨hrefused, hroom⟩⟩ := allocate_bind .allocationFailed
      (show pssEncodedLength (encodedBits key.n) ≤ 108 * key.n.length by omega) _ host s
    · rw [hgranted, inMemory_load_bind, inMemory_load_bind]
      exact pssDecision_conforms hkey (hread.trans hlength) host k
    · rw [hrefused]
      exact EndsAs.refused hroom
  · rw [if_neg hlength, if_neg hlength, inMemory_compute_error]
    exact Or.inl rfl

theorem verify_accepts (hhash : Hashes hash H (rsaHashLength r.hashAlg)) (hkey : PublicKey key)
    (hr : Verifiable r key) (host : Host) (s : Process) :
    let signature := readBytes s.memory r.signature r.signatureLength
    let message := readBytes s.memory r.message r.messageLength
    let after := cryptoRsaPssVerifyInternal hash r key host s
    (after.1 = .ok () → Accepts H (rsaHashLength r.hashAlg) r.salt key message signature) ∧
    (Grants host (108 * key.n.length) →
      (Accepts H (rsaHashLength r.hashAlg) r.salt key message signature → after.1 = .ok ()) ∧
      (¬ Accepts H (rsaHashLength r.hashAlg) r.salt key message signature →
        after.1 = .error (if signature.length = rsaModulusSize key.n then
          failureStatus (rsaHashLength r.hashAlg) key signature else .signatureInvalid))) := by
  intro signature message after
  have hrun : EndsAs host _ _ after.1 := @verify_run hash r key hkey hr host s
  by_cases hlength : signature.length = rsaModulusSize key.n
  · rw [if_pos hlength] at hrun
    rw [if_pos hlength]
    rcases pssVerified_cases hhash hlength hr.room message with ⟨haccepts, hok⟩ | ⟨hrejects, herror⟩
    · refine ⟨fun _ => haccepts, fun hroom => ⟨fun _ => (hrun.granted hroom).trans hok, ?_⟩⟩
      exact fun hrejects => absurd haccepts hrejects
    · refine ⟨fun hafter => ?_, fun hroom => ⟨fun haccepts => absurd haccepts hrejects, ?_⟩⟩
      · rw [hafter] at hrun
        cases hrun.of_ok.symm.trans herror
      · exact fun _ => (hrun.granted hroom).trans herror
  · rw [if_neg hlength] at hrun
    rw [if_neg hlength]
    have hrejects : ¬ Accepts H (rsaHashLength r.hashAlg) r.salt key message signature :=
      fun hall => hlength hall.1
    refine ⟨fun hafter => ?_, fun hroom => ⟨fun haccepts => absurd haccepts hrejects, ?_⟩⟩
    · rw [hafter] at hrun
      cases hrun.of_ok
    · exact fun _ => hrun.granted hroom

end Verification

section Signing

variable {hash : List UInt8 → Except LiberaCError (List UInt8)} {H : List UInt8 → List UInt8}
  {n saltLength : Nat} {r : PssRequest} {key : LiberaCRsaPrivateKey} {message signature : List UInt8}
  {random : Option (Nat → UInt8)}

structure Signable (r : PssRequest) (key : LiberaCRsaPrivateKey) : Prop where
  supported : rsaHashLength r.hashAlg ≠ 0
  bits : 2 ≤ cryptoBignumBitLength key.n
  size : r.salt ≤ sizeMax - rsaHashLength r.hashAlg - 2
  room : rsaHashLength r.hashAlg + r.salt + 2 ≤ (encodedBits key.n + 7) / 8

theorem signable_of_check (h : pssSignCheck r key = .ok ()) : Signable r key := by
  unfold pssSignCheck at h
  dsimp only at h
  split_ifs at h with halg hhash hkey hnull hbits hsalt hbuffer hoverlap
  obtain ⟨hsize, hroom⟩ := not_or.mp hsalt
  rw [pssEncodedLength_eq] at hroom
  exact ⟨hhash, not_lt.mp hbits, not_lt.mp hsize, not_lt.mp hroom⟩

def pssSigned (hash : List UInt8 → Except LiberaCError (List UInt8))
    (random : Option (Nat → UInt8)) (n saltLength : Nat) (key : LiberaCRsaPrivateKey)
    (message : List UInt8) : Except LiberaCError (List UInt8) := do
  let encoded ← pssEncode hash n (encodedBits key.n) saltLength message
    (cryptoRandomBytesInternal random saltLength)
  pure (bigEndian (rsaModulusSize key.n) (beValue encoded ^ scannedExponent key % key.n.value))

/-- What a salt gives: an encoding, unless its mask is too long to be made. -/
theorem pssEncode_random (h : Hashes hash H n) {bits : Nat} (message : List UInt8)
    (hroom : n + saltLength + 2 ≤ (bits + 7) / 8) {encoded : List UInt8}
    (hencoded : pssEncode hash n bits saltLength message
      (cryptoRandomBytesInternal random saltLength) = .ok encoded) :
    PssEncodes H n bits saltLength (H message) encoded := by
  cases random with
  | none =>
    unfold pssEncode at hencoded
    rw [h.hashed] at hencoded
    cases hencoded
  | some byte =>
    have hsalt : ((List.range saltLength).map byte).length = saltLength := by simp
    have heq := @pssEncode_eq hash H n bits _ h message (hsalt.symm ▸ hroom)
    rw [hsalt] at heq
    have hok := heq.symm.trans hencoded
    split_ifs at hok with hlong
    exact ⟨not_lt.mp hlong, _, hsalt, (Except.ok.inj hok).symm⟩

theorem encoded_lt {modulus : LiberaCBignum} (hm : modulus.Valid) (hpos : modulus.value ≠ 0)
    {encoded : List UInt8} (hlt : beValue encoded < 2 ^ encodedBits modulus) :
    beValue encoded < modulus.value :=
  hlt.trans_le (two_pow_encodedBits_le hm hpos)

theorem pssSignature_conforms (h : Hashes hash H n) (hkey : PrivateKey key) (message : List UInt8)
    (hroom : n + saltLength + 2 ≤ (encodedBits key.n + 7) / 8) :
    Conforms (32 * key.n.length) (pssSignature hash random n saltLength message key)
      (pssSigned hash random n saltLength key message) := by
  have hsize := rsaModulusSize_le hkey.n_valid
  have hlength := encodedLength_le hkey.n_valid
  have hsalt : Ensures (32 * key.n.length)
      (if saltLength ≠ 0 then allocate saltLength .allocationFailed else pure ())
      fun _ => True := by
    split
    · exact Ensures.allocate (by omega)
    · exact Ensures.pure trivial
  unfold pssSignature
  refine Conforms.after hsalt fun _ _ => (Conforms.given _).bind fun encoded hencoded => ?_
  obtain ⟨hencodedLength, hlt⟩ := (pssEncode_random h message hroom hencoded).shape h hroom
  have hodd := hkey.odd
  exact rsaPrivateOperation_secret hkey (encoded_lt hkey.n_valid (by omega) hlt) (by omega) hsize

theorem sign_run (hhash : Hashes hash H (rsaHashLength r.hashAlg)) (hkey : PrivateKey key)
    (hcheck : pssSignCheck r key = .ok ()) (random : Option (Nat → UInt8)) (host : Host)
    (s : Process) :
    ∃ later result, EndsAs host (32 * key.n.length)
      (pssSigned hash random (rsaHashLength r.hashAlg) r.salt key
        (readBytes s.memory r.message r.messageLength)) result ∧
      cryptoRsaPssSignInternal hash random r key host s = match result with
        | .ok signature => (.ok (), ⟨writeBytes s.memory r.signature signature, later.requests,
            s.reportedLength⟩)
        | .error e => (.error e, later) := by
  have hallowed := signable_of_check hcheck
  have hsize := rsaModulusSize_le hkey.n_valid
  have hlength := encodedLength_le hkey.n_valid
  rw [← pssEncodedLength_eq] at hlength
  unfold cryptoRsaPssSignInternal
  rw [hcheck, inMemory_compute_ok]
  obtain ⟨k, hgranted | ⟨hrefused, hroom⟩⟩ := allocate_bind .allocationFailed
    (show pssEncodedLength (encodedBits key.n) ≤ 32 * key.n.length by omega) _ host s
  · rw [hgranted, cleanup_apply, inMemory_load_bind]
    obtain ⟨k', result, hends, hrun⟩ := conforming_bind (pssSignature_conforms hhash hkey
      (readBytes s.memory r.message r.messageLength) hallowed.room) _ host
      ⟨s.memory, k, s.reportedLength⟩
    rw [hrun]
    cases result with
    | error e => exact ⟨_, .error e, hends, rfl⟩
    | ok signature => exact ⟨⟨s.memory, k', 0⟩, .ok signature, hends, rfl⟩
  · rw [hrefused]
    exact ⟨_, .error .allocationFailed, EndsAs.refused hroom, rfl⟩

end Signing

section SignVerify

variable {hash : List UInt8 → Except LiberaCError (List UInt8)} {H : List UInt8 → List UInt8}
  {n saltLength : Nat} {publicKey : LiberaCRsaPublicKey} {privateKey : LiberaCRsaPrivateKey}
  {message signature : List UInt8} {random : Option (Nat → UInt8)} {r v : PssRequest}

theorem same_bits (h : KeyPair publicKey privateKey) :
    cryptoBignumBitLength privateKey.n = cryptoBignumBitLength publicKey.n := by
  rw [cryptoBignumBitLength_eq h.private_key.n_valid, cryptoBignumBitLength_eq h.public_key.n_valid,
    h.modulus]

/-- What signing computes is accepted, where the scan reads the whole of `D`. -/
theorem signed_accepts (h : Hashes hash H n) (hpair : KeyPair publicKey privateKey)
    (hnarrow : privateKey.d.length ≤ privateKey.n.length)
    (hroom : n + saltLength + 2 ≤ (encodedBits privateKey.n + 7) / 8)
    (hsigned : pssSigned hash random n saltLength privateKey message = .ok signature) :
    Accepts H n saltLength publicKey message signature := by
  obtain ⟨encoded, hencoded, hpower⟩ := bind_eq_ok.mp hsigned
  obtain rfl := Except.ok.inj hpower
  rw [hpair.private_key.d_whole hnarrow]
  have hencodes := pssEncode_random h message hroom hencoded
  obtain ⟨hlength, hshort⟩ := hencodes.shape h hroom
  have hodd := hpair.private_key.odd
  have hlt := encoded_lt hpair.private_key.n_valid (by omega) hshort
  have hbits : encodedBits privateKey.n = encodedBits publicKey.n := by
    rw [encodedBits, same_bits hpair, encodedBits]
  have hbelow : beValue encoded ^ privateKey.d.value % privateKey.n.value < privateKey.n.value :=
    Nat.mod_lt _ (Nat.zero_lt_of_lt hlt)
  have hvalue : beValue (bigEndian (rsaModulusSize privateKey.n)
      (beValue encoded ^ privateKey.d.value % privateKey.n.value)) =
      beValue encoded ^ privateKey.d.value % privateKey.n.value := by
    rw [beValue_bigEndian, Nat.mod_eq_of_lt (hbelow.trans (lt_size hpair.private_key.n_valid))]
  have hinverse : (beValue encoded ^ privateKey.d.value % privateKey.n.value) ^
      publicKey.e.value % publicKey.n.value = beValue encoded := by
    rw [hpair.modulus, ← Nat.pow_mod, ← pow_mul, Nat.mul_comm, pow_mul, ← hpair.modulus]
    exact hpair.inverse _ (hpair.modulus.symm ▸ hlt)
  have hfits := beValue_lt encoded
  rw [hlength, hbits] at hfits
  refine ⟨?_, ?_, ?_, ?_⟩
  · rw [bigEndian_length, hpair.size]
  · rw [hvalue, hpair.modulus]
    exact hbelow
  · rw [hvalue, hinverse]
    exact hfits
  · rw [hvalue, hinverse, ← hbits, ← hlength, bigEndian_beValue]
    exact hencodes

structure Follows (v r : PssRequest) (publicKey : LiberaCRsaPublicKey) : Prop where
  alg : v.alg = .rsaPss
  hashAlg : v.hashAlg = r.hashAlg
  saltLength : v.saltLength = r.saltLength
  pointers : ¬ (v.signature = 0 ∨ (v.message = 0 ∧ v.messageLength ≠ 0))
  signatureLength : v.signatureLength = rsaModulusSize publicKey.n

theorem verifiable_of_follows (hpair : KeyPair publicKey privateKey)
    (hr : Signable r privateKey) (hv : Follows v r publicKey) : Verifiable v publicKey := by
  have hsalt : v.salt = r.salt := by
    rw [PssRequest.salt, hv.saltLength, hv.hashAlg, PssRequest.salt]
  have hbits := same_bits hpair
  constructor
  · exact hv.alg
  · rw [hv.hashAlg]
    exact hr.supported
  · exact hv.pointers
  · rw [← hbits]
    exact hr.bits
  · rw [hsalt, hv.hashAlg]
    exact hr.size
  · rw [hsalt, hv.hashAlg, encodedBits, ← hbits]
    exact hr.room

/-- For a `D` of no more limbs than the modulus, what is signed is verified, and verification accepts
exactly the signatures of an encoding. -/
theorem rsa_pss (hhash : Hashes hash H n) (hpair : KeyPair publicKey privateKey) :
    (privateKey.d.length ≤ privateKey.n.length → ∀ (r : PssRequest) (random : Option (Nat → UInt8))
        (host : Host) (s : Process),
      rsaHashLength r.hashAlg = n → pssSignCheck r privateKey = .ok () →
      let after := cryptoRsaPssSignInternal hash random r privateKey host s
      (after.1 = .ok () → ∀ (v : PssRequest) (other : Host) (t : Process),
        Follows v r publicKey → Grants other (108 * publicKey.n.length) →
        readBytes t.memory v.signature v.signatureLength =
          readBytes after.2.memory r.signature (rsaModulusSize publicKey.n) →
        readBytes t.memory v.message v.messageLength =
          readBytes s.memory r.message r.messageLength →
        (cryptoRsaPssVerifyInternal hash v publicKey other t).1 = .ok ()) ∧
      (Grants host (32 * privateKey.n.length) → random.isSome →
        (encodedBits privateKey.n + 7) / 8 - n - 1 ≤ 2 ^ 32 * n → after.1 = .ok ())) ∧
    (∀ (v : PssRequest) (host : Host) (s : Process),
      rsaHashLength v.hashAlg = n → Verifiable v publicKey →
      let signature := readBytes s.memory v.signature v.signatureLength
      let message := readBytes s.memory v.message v.messageLength
      let after := cryptoRsaPssVerifyInternal hash v publicKey host s
      (after.1 = .ok () → Accepts H n v.salt publicKey message signature) ∧
      (Grants host (108 * publicKey.n.length) →
        Accepts H n v.salt publicKey message signature → after.1 = .ok ())) := by
  constructor
  · intro hnarrow r random host s hn hcheck after
    rw [← hn] at hhash
    have hallowed := signable_of_check hcheck
    obtain ⟨later, result, hresult, hrun⟩ :=
      sign_run hhash hpair.private_key hcheck random host s
    change after = _ at hrun
    constructor
    · intro hok v other t hv hother hsignature hmessage
      cases result with
      | error e =>
        rw [hrun] at hok
        cases hok
      | ok signature =>
        have haccepts := signed_accepts hhash hpair hnarrow hallowed.room hresult.of_ok
        have hwritten : readBytes after.2.memory r.signature (rsaModulusSize publicKey.n) =
            signature := by
          rw [hrun, ← haccepts.1]
          exact read_write _ _ _
        have hsalt : v.salt = r.salt := by
          rw [PssRequest.salt, hv.saltLength, hv.hashAlg, PssRequest.salt]
        rw [← hv.hashAlg] at hhash
        refine ((verify_accepts hhash hpair.public_key (verifiable_of_follows hpair hallowed hv)
          other t).2 hother).1 ?_
        rw [hsignature, hmessage, hwritten, hsalt, hv.hashAlg]
        exact haccepts
    · intro hgrants hrandom hmask
      obtain ⟨byte, rfl⟩ := Option.isSome_iff_exists.mp hrandom
      have hsalt : ((List.range r.salt).map byte).length = r.salt := by simp
      have hencode := @pssEncode_eq hash H _ (encodedBits privateKey.n) _ hhash
        (readBytes s.memory r.message r.messageLength) (hsalt.symm ▸ hallowed.room)
      rw [hsalt, hn, if_neg (not_lt.mpr hmask)] at hencode
      have hsigned : ∃ signature, pssSigned hash (some byte) n r.salt privateKey
          (readBytes s.memory r.message r.messageLength) = .ok signature :=
        ⟨_, bind_eq_ok.mpr ⟨_, hencode, rfl⟩⟩
      obtain ⟨signature, hsigned⟩ := hsigned
      have hexpected := hresult.granted hgrants
      rw [hn] at hexpected
      rw [hrun, hexpected.trans hsigned]
  · intro v host s hn hv signature message after
    rw [← hn] at hhash ⊢
    obtain ⟨hsound, hcomplete⟩ := verify_accepts hhash hpair.public_key hv host s
    exact ⟨hsound, fun hroom => (hcomplete hroom).1⟩

/-- A request to sign the four bytes at 5000 with a salt of ten bytes. -/
def sampleSign : PssRequest := ⟨.rsaPss, .hashSha1, 5000, 4, 3000, 64, 10⟩

theorem sampleSign_check : pssSignCheck sampleSign samplePrivateKey = .ok () := by
  have haccepted := samplePair.private_key.accepted
  have hsize : rsaModulusSize samplePrivateKey.n = 64 := by decide
  have hbits : cryptoBignumBitLength samplePrivateKey.n = 512 := by decide
  rw [pssSignCheck, encodedBits, hsize, hbits, if_neg (by decide), if_neg (by decide),
    if_neg (by rw [haccepted]; decide)]
  decide

def sampleSigned : Except LiberaCError Unit × Process :=
  cryptoRsaPssSignInternal sha1Hash (some fun _ => 1) sampleSign samplePrivateKey
    generousHost ⟨⟨fun _ => 9⟩, 0, 0⟩

def received (signed : Memory) : Memory :=
  ⟨fun address => if address < 4000 then signed.byte address else 9⟩

theorem received_signature (signed : Memory) :
    readBytes (received signed) 3000 64 = readBytes signed 3000 64 := by
  refine List.map_congr_left fun i hi => if_pos ?_
  have hlt := List.mem_range.mp hi
  omega

theorem rsa_pss_sample :
    sampleSigned.1 = .ok () ∧
      (cryptoRsaPssVerifyInternal sha1Hash sampleSign samplePublicKey generousHost
        ⟨received sampleSigned.2.memory, 0, 0⟩).1 = .ok () := by
  have hgranted : Grants generousHost (32 * samplePrivateKey.n.length) :=
    generousHost_grants (by decide)
  have hverifier : Grants generousHost (108 * samplePublicKey.n.length) :=
    generousHost_grants (by decide)
  have hbits : encodedBits samplePrivateKey.n = 511 := by decide
  have hsize : rsaModulusSize samplePublicKey.n = 64 := by decide
  have hboth := (rsa_pss sha1_hashes samplePair).1 (by decide) sampleSign (some fun _ => 1) generousHost
    ⟨⟨fun _ => 9⟩, 0, 0⟩ rfl sampleSign_check
  dsimp only at hboth
  rw [← sampleSigned, hsize, hbits] at hboth
  generalize sampleSigned = after at hboth ⊢
  obtain ⟨hverified, hsigned⟩ := hboth
  have hok : after.1 = .ok () := hsigned hgranted rfl (by decide)
  exact ⟨hok, hverified hok sampleSign generousHost ⟨received after.2.memory, 0, 0⟩
    ⟨rfl, rfl, rfl, by decide, hsize.symm⟩ hverifier (received_signature _) rfl⟩

/-- A run that signs without a salt, with a key whose `D` is wider than the modulus. -/
def wideSign : PssRequest := { sampleSign with saltLength := 0 }

theorem wideSign_check : pssSignCheck wideSign widePrivateKey = .ok () := by
  have haccepted := widePair.private_key.accepted
  have hsize : rsaModulusSize widePrivateKey.n = 64 := by decide
  have hbits : cryptoBignumBitLength widePrivateKey.n = 512 := by decide
  rw [pssSignCheck, encodedBits, hsize, hbits, if_neg (by decide), if_neg (by decide),
    if_neg (by rw [haccepted]; decide)]
  decide

def wideSigned : Except LiberaCError Unit × Process :=
  cryptoRsaPssSignInternal sha1Hash (some fun _ => 1) wideSign widePrivateKey
    generousHost ⟨⟨fun _ => 9⟩, 0, 0⟩

def wideEncoded : List UInt8 :=
  [0x1b, 0x2d, 0xac, 0xb4, 0xb3, 0xb4, 0x90, 0x30, 0x73, 0x25, 0xbb, 0xb8, 0x5d, 0x52, 0x8e, 0xcc,
    4, 0xd, 0xfb, 0x29, 0xae, 0xcc, 0x86, 0x58, 0xf1, 0xf5, 0xb8, 0x89, 0x84, 0xbf, 0x43, 0x5b,
    0x29, 0x6a, 0x83, 0xaa, 0xe, 0x45, 0x99, 0x15, 0x76, 0x63, 0x43, 0xa, 0xef, 0xc7, 0x9c, 0x29,
    0xd1, 0x4d, 0x43, 0x12, 0xb7, 0xc1, 0xf6, 0xc7, 0x12, 0x38, 0xcc, 0x28, 0x90, 0x54, 0xd9,
    0xbc]

theorem wide_signed : pssSigned sha1Hash (some fun _ => 1) 20 0 widePrivateKey
    [9, 9, 9, 9] = .ok wideEncoded := by
  have hbits : encodedBits widePrivateKey.n = 511 := by decide
  have hsize : rsaModulusSize widePrivateKey.n = 64 := by decide
  have hencoded : pssEncode sha1Hash 20 511 0 [9, 9, 9, 9]
      (cryptoRandomBytesInternal (some fun _ => 1) 0) = .ok wideEncoded := by decide +kernel
  have hwhole : bigEndian 64 (beValue wideEncoded ^ 1 % widePrivateKey.n.value) = wideEncoded := by
    decide +kernel
  rw [pssSigned, hbits, hencoded, hsize, widePrivateKey_scanned]
  exact congrArg Except.ok hwhole

theorem wideSigned_signature : wideSigned.1 = .ok () ∧
    readBytes wideSigned.2.memory 3000 64 = wideEncoded := by
  have hgranted : Grants generousHost (32 * widePrivateKey.n.length) :=
    generousHost_grants (by decide)
  obtain ⟨later, result, hends, hrun⟩ := @sign_run _ _ wideSign widePrivateKey
    sha1_hashes widePair.private_key wideSign_check (some fun _ => 1)
    generousHost ⟨⟨fun _ => 9⟩, 0, 0⟩
  have hresult : result = .ok wideEncoded := by
    have hmessage : readBytes (⟨fun _ => 9⟩ : Memory) 5000 4 = [9, 9, 9, 9] := by decide
    rw [← wide_signed, ← hmessage]
    exact hends.granted hgranted
  change wideSigned = _ at hrun
  rw [hrun, hresult]
  exact ⟨rfl, read_write ⟨fun _ => 9⟩ 3000 wideEncoded⟩

theorem wide_not_accepts (saltLength : Nat) (message : List UInt8) :
    ¬ Accepts sha1Digest 20 saltLength widePublicKey message wideEncoded := by
  rintro ⟨-, -, -, -, salt, -, hencoding⟩
  have hbits : encodedBits widePublicKey.n = 511 := by decide
  have hlast : (bigEndian 64 (beValue wideEncoded ^ widePublicKey.e.value %
      widePublicKey.n.value)).getLast? = some 0x95 := by decide +kernel
  rw [hbits] at hencoding
  have htrailer := congrArg List.getLast? hencoding
  rw [pssEncoding, ← List.append_assoc, List.getLast?_concat] at htrailer
  cases hlast.symm.trans htrailer

theorem rsa_pss_wide :
    KeyPair widePublicKey widePrivateKey ∧ pssSignCheck wideSign widePrivateKey = .ok () ∧
      wideSigned.1 = .ok () ∧ Follows wideSign wideSign widePublicKey ∧
      (cryptoRsaPssVerifyInternal sha1Hash wideSign widePublicKey generousHost
        ⟨received wideSigned.2.memory, 0, 0⟩).1 ≠ .ok () := by
  have hsize : rsaModulusSize widePublicKey.n = 64 := by decide
  have hfollows : Follows wideSign wideSign widePublicKey :=
    ⟨rfl, rfl, rfl, by decide, hsize.symm⟩
  have hverifiable := verifiable_of_follows widePair (signable_of_check wideSign_check) hfollows
  have hsigned := wideSigned_signature
  generalize wideSigned = after at hsigned ⊢
  obtain ⟨hok, hsignature⟩ := hsigned
  refine ⟨widePair, wideSign_check, hok, hfollows, fun hverified => ?_⟩
  have haccepts := (@verify_accepts _ _ wideSign widePublicKey sha1_hashes widePair.public_key hverifiable
    generousHost ⟨received after.2.memory, 0, 0⟩).1 hverified
  change Accepts _ _ _ _ _ (readBytes (received after.2.memory) 3000 64) at haccepts
  rw [received_signature, hsignature] at haccepts
  exact wide_not_accepts _ _ haccepts

end SignVerify

end LiberaCrypt.RsaPss
