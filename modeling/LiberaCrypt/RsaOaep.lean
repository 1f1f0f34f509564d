import LiberaCrypt.CtrDrbg
import LiberaCrypt.OaepEncoding
import LiberaCrypt.RsaOperations

namespace LiberaCrypt.RsaOaep

open LiberaCrypt.Outcome LiberaCrypt.Allocation LiberaCrypt.BigEndian LiberaCrypt.Bignum
open LiberaCrypt.ByteMemory LiberaCrypt.CtrDrbg LiberaCrypt.Def LiberaCrypt.Endian
open LiberaCrypt.HostMemory LiberaCrypt.Mgf1 LiberaCrypt.ModExpAgree LiberaCrypt.OaepEncoding
open LiberaCrypt.Rsa LiberaCrypt.RsaOperations LiberaCrypt.Sha1

/-- The arguments of both functions, without the keys. The length of the message is the room for it
when it is decrypted, and `lengthPointer` says where its own length goes. -/
structure OaepRequest where
  alg : LiberaCAlgID
  hashAlg : LiberaCAlgID
  message : Nat
  messageLength : Nat
  lengthPointer : Nat
  ciphertext : Nat
  ciphertextLength : Nat
  label : Nat
  labelLength : Nat

def maximumMessage (modulusBytes hashLength : Nat) : Nat := modulusBytes - 2 * hashLength - 2

def oaepEncryptCheck (r : OaepRequest) (publicKey : LiberaCRsaPublicKey) :
    Except LiberaCError Unit :=
  let hashLength := rsaHashLength r.hashAlg
  let modulusBytes := rsaModulusSize publicKey.n
  if r.alg ≠ .rsaOaep then .error .invalidAlgId
  else if hashLength = 0 then .error .invalidAlgId
  else if rsaPublicKeyValid publicKey = false then .error .invalidKey
  else if r.ciphertext = 0 ∨ (r.message = 0 ∧ r.messageLength ≠ 0) ∨
      (r.label = 0 ∧ r.labelLength ≠ 0) then .error .invalidArgument
  else if (sizeMax - 2) / 2 < hashLength ∨ modulusBytes < 2 * hashLength + 2 then
    .error .invalidKey
  else if r.ciphertextLength < modulusBytes then .error .bufferTooSmall
  else if maximumMessage modulusBytes hashLength < r.messageLength then .error .messageTooLarge
  else if cryptoRangesOverlap r.ciphertext modulusBytes r.message r.messageLength ∨
      cryptoRangesOverlap r.ciphertext modulusBytes r.label r.labelLength then
    .error .invalidArgument
  else .ok ()

def oaepDecryptCheck (r : OaepRequest) (privateKey : LiberaCRsaPrivateKey) :
    Except LiberaCError Unit :=
  let hashLength := rsaHashLength r.hashAlg
  let modulusBytes := rsaModulusSize privateKey.n
  let maximum := maximumMessage modulusBytes hashLength
  if r.alg ≠ .rsaOaep then .error .invalidAlgId
  else if hashLength = 0 then .error .invalidAlgId
  else if rsaPrivateKeyValid privateKey = false then .error .invalidKey
  else if r.lengthPointer = 0 ∨ r.ciphertext = 0 ∨ (r.label = 0 ∧ r.labelLength ≠ 0) then
    .error .invalidArgument
  else if (sizeMax - 2) / 2 < hashLength ∨ modulusBytes < 2 * hashLength + 2 then
    .error .invalidKey
  else if r.message = 0 ∧ maximum ≠ 0 then .error .invalidArgument
  else if r.messageLength < maximum then .error .bufferTooSmall
  else if cryptoRangesOverlap r.message maximum r.ciphertext r.ciphertextLength ∨
      cryptoRangesOverlap r.message maximum r.label r.labelLength then .error .invalidArgument
  else .ok ()

/-- The private operation refuses a number that is not below the modulus. -/
def refusedIsFailure : LiberaCError → LiberaCError
  | .invalidArgument => .authenticationFailed
  | e => e

/-- `*message_length = 0` and the wiping of the message. -/
def clearMessage (message maximum : Nat) (s : Process) : Process :=
  { s with memory := cryptoZeroize message maximum s.memory, reportedLength := 0 }

section Operations

-- The hash of the selected algorithm.
variable (hash : List UInt8 → Except LiberaCError (List UInt8))

/-- What is computed between `calloc` and the label `cleanup`. -/
def oaepCiphertext (random : Option (Nat → UInt8)) (hashLength : Nat) (label message : List UInt8)
    (publicKey : LiberaCRsaPublicKey) : Fallible (List UInt8) := do
  let modulusBytes := rsaModulusSize publicKey.n
  let encoded ← given (oaepEncode hash hashLength modulusBytes label message
    (cryptoRandomBytesInternal random hashLength))
  rsaPublicSecretOperation modulusBytes encoded publicKey

def cryptoRsaOaepEncryptInternal (random : Option (Nat → UInt8)) (r : OaepRequest)
    (publicKey : LiberaCRsaPublicKey) : OnHost Unit := do
  inMemory (compute (oaepEncryptCheck r publicKey))
  let modulusBytes := rsaModulusSize publicKey.n
  allocating (allocate modulusBytes .allocationFailed)
  cleanup (do
    let message ← inMemory (load r.message r.messageLength)
    let label ← inMemory (load r.label r.labelLength)
    let ciphertext ← allocating
      (oaepCiphertext hash random (rsaHashLength r.hashAlg) label message publicKey)
    inMemory (store r.ciphertext ciphertext))
    fun s => { s with memory := cryptoZeroize r.ciphertext modulusBytes s.memory }

/-- What is computed between `malloc` and the copy of the message. -/
def oaepRecovered (hashLength : Nat) (label ciphertext : List UInt8)
    (privateKey : LiberaCRsaPrivateKey) : Fallible (List UInt8) := do
  let encoded ← failingAs refusedIsFailure
    (rsaPrivateOperation (rsaModulusSize privateKey.n) ciphertext privateKey false)
  given (oaepDecode hash hashLength label encoded)

def cryptoRsaOaepDecryptInternal (r : OaepRequest) (privateKey : LiberaCRsaPrivateKey) :
    OnHost Unit := do
  inMemory (compute (oaepDecryptCheck r privateKey))
  let hashLength := rsaHashLength r.hashAlg
  let modulusBytes := rsaModulusSize privateKey.n
  let maximum := maximumMessage modulusBytes hashLength
  changing (clearMessage r.message maximum)
  inMemory (compute
    (if r.ciphertextLength ≠ modulusBytes then .error .authenticationFailed else .ok ()))
  allocating (allocate modulusBytes .allocationFailed)
  cleanup (do
    let ciphertext ← inMemory (load r.ciphertext r.ciphertextLength)
    let label ← inMemory (load r.label r.labelLength)
    let recovered ← allocating (oaepRecovered hash hashLength label ciphertext privateKey)
    inMemory (store r.message recovered)
    changing fun s => { s with reportedLength := recovered.length })
    (clearMessage r.message maximum)

end Operations

section Decryption

variable {hash : List UInt8 → Except LiberaCError (List UInt8)} {H : List UInt8 → List UInt8}
  {n : Nat} {r : OaepRequest} {key : LiberaCRsaPrivateKey} {label ciphertext message : List UInt8}
  {host : Host} {s : Process}

structure Decryptable (r : OaepRequest) (key : LiberaCRsaPrivateKey) : Prop where
  supported : rsaHashLength r.hashAlg ≠ 0
  wide : 2 * rsaHashLength r.hashAlg + 2 ≤ rsaModulusSize key.n
  apart_ciphertext : Disjoint r.message
    (maximumMessage (rsaModulusSize key.n) (rsaHashLength r.hashAlg)) r.ciphertext r.ciphertextLength
  apart_label : Disjoint r.message
    (maximumMessage (rsaModulusSize key.n) (rsaHashLength r.hashAlg)) r.label r.labelLength

theorem decryptable_of_check (h : oaepDecryptCheck r key = .ok ()) : Decryptable r key := by
  unfold oaepDecryptCheck at h
  dsimp only at h
  split_ifs at h with halg hhash hkey hnull hwide hmessage hroom hoverlap
  obtain ⟨hciphertext, hlabel⟩ := not_or.mp hoverlap
  exact ⟨hhash, not_lt.mp (not_or.mp hwide).2,
    (cryptoRangesOverlap_iff _ _ _ _).mp (Bool.eq_false_of_not_eq_true hciphertext),
    (cryptoRangesOverlap_iff _ _ _ _).mp (Bool.eq_false_of_not_eq_true hlabel)⟩

def oaepDecrypted (hash : List UInt8 → Except LiberaCError (List UInt8)) (n : Nat)
    (key : LiberaCRsaPrivateKey) (label ciphertext : List UInt8) :
    Except LiberaCError (List UInt8) :=
  if ciphertext.length ≠ rsaModulusSize key.n then .error .authenticationFailed
  else if beValue ciphertext < key.n.value then
    oaepDecode hash n label
      (bigEndian (rsaModulusSize key.n) (beValue ciphertext ^ scannedExponent key % key.n.value))
  else .error .authenticationFailed

def failureStatus (n : Nat) (key : LiberaCRsaPrivateKey) (ciphertext : List UInt8) :
    LiberaCError :=
  if ciphertext.length = rsaModulusSize key.n ∧ beValue ciphertext < key.n.value then
    oaepFailure n (rsaModulusSize key.n)
  else .authenticationFailed

theorem oaepRecovered_conforms (hkey : PrivateKey key) (label : List UInt8)
    (hlength : ciphertext.length = rsaModulusSize key.n) :
    Conforms (32 * key.n.length) (oaepRecovered hash n label ciphertext key)
      (oaepDecrypted hash n key label ciphertext) := by
  have hsize := rsaModulusSize_le hkey.n_valid
  have hpower := (rsaPrivateOperation_public hkey (hlength.trans_le hsize) hsize).failingAs
    refusedIsFailure
  have hrecovered := hpower.bind fun encoded _ =>
    Conforms.given (oaepDecode hash n label encoded)
  rw [oaepDecrypted, if_neg (not_not.mpr hlength)]
  refine (congrArg (Conforms _ _) ?_).mp hrecovered
  split_ifs <;> rfl

theorem decrypt_run (hkey : PrivateKey key) (hcheck : oaepDecryptCheck r key = .ok ())
    (host : Host) (s : Process) :
    let maximum := maximumMessage (rsaModulusSize key.n) (rsaHashLength r.hashAlg)
    let expected := oaepDecrypted hash (rsaHashLength r.hashAlg) key
      (readBytes s.memory r.label r.labelLength)
      (readBytes s.memory r.ciphertext r.ciphertextLength)
    ∃ requests result, EndsAs host (32 * key.n.length) expected result ∧
      cryptoRsaOaepDecryptInternal hash r key host s = match result with
        | .ok message => (.ok (), ⟨writeBytes (cryptoZeroize r.message maximum s.memory) r.message
            message, requests, message.length⟩)
        | .error e => (.error e, ⟨cryptoZeroize r.message maximum s.memory, requests, 0⟩) := by
  intro maximum expected
  have hallowed := decryptable_of_check hcheck
  have hread : ∀ {other length : Nat}, Disjoint r.message maximum other length →
      readBytes (cryptoZeroize r.message maximum s.memory) other length =
        readBytes s.memory other length := by
    intro other length hdisjoint
    apply read_write_disjoint
    rwa [List.length_replicate]
  unfold cryptoRsaOaepDecryptInternal
  rw [hcheck, inMemory_compute_ok, changing_bind]
  by_cases hlength : r.ciphertextLength = rsaModulusSize key.n
  · rw [if_neg (not_not.mpr hlength), inMemory_compute_ok]
    have hsize := rsaModulusSize_le hkey.n_valid
    obtain ⟨k, hgranted | ⟨hrefused, hroom⟩⟩ := allocate_bind .allocationFailed
      (show rsaModulusSize key.n ≤ 32 * key.n.length by omega) _ host
      (clearMessage r.message maximum s)
    · rw [hgranted, cleanup_apply, inMemory_load_bind, inMemory_load_bind]
      dsimp only [clearMessage]
      rw [hread hallowed.apart_ciphertext, hread hallowed.apart_label]
      obtain ⟨k', result, hends, hrun⟩ := conforming_bind (oaepRecovered_conforms hkey
        (readBytes s.memory r.label r.labelLength) ((readBytes_length _ _ _).trans hlength)) _ host
        ⟨cryptoZeroize r.message maximum s.memory, k, 0⟩
      rw [hrun]
      refine ⟨k', result, hends, ?_⟩
      cases result with
      | error e =>
        have htwice := write_write s.memory r.message
          (le_refl (List.replicate maximum (0 : UInt8)).length)
        exact congrArg (fun memory => (Except.error e, (⟨memory, k', 0⟩ : Process))) htwice
      | ok message => rfl
    · rw [hrefused]
      exact ⟨k, .error .allocationFailed, EndsAs.refused hroom, rfl⟩
  · rw [if_pos hlength, inMemory_compute_error]
    refine ⟨s.requests, .error .authenticationFailed, Or.inl ?_, rfl⟩
    exact (if_pos (by rwa [readBytes_length])).symm

def received (ciphertext : List UInt8) : Memory := writeBytes ⟨fun _ => 0⟩ 3000 ciphertext

end Decryption

section Encryption

variable {hash : List UInt8 → Except LiberaCError (List UInt8)} {H : List UInt8 → List UInt8}
  {n : Nat} {r : OaepRequest} {key : LiberaCRsaPublicKey} {label message : List UInt8}
  {random : Option (Nat → UInt8)} {host : Host} {s : Process}

structure Encryptable (r : OaepRequest) (key : LiberaCRsaPublicKey) : Prop where
  supported : rsaHashLength r.hashAlg ≠ 0
  wide : 2 * rsaHashLength r.hashAlg + 2 ≤ rsaModulusSize key.n
  fits : r.messageLength ≤ maximumMessage (rsaModulusSize key.n) (rsaHashLength r.hashAlg)

theorem encryptable_of_check (h : oaepEncryptCheck r key = .ok ()) : Encryptable r key := by
  unfold oaepEncryptCheck at h
  dsimp only at h
  split_ifs at h with halg hhash hkey hnull hwide hroom hlong hoverlap
  exact ⟨hhash, not_lt.mp (not_or.mp hwide).2, not_lt.mp hlong⟩

theorem Encryptable.room (h : Encryptable r key) :
    r.messageLength + 2 * rsaHashLength r.hashAlg + 2 ≤ rsaModulusSize key.n := by
  have hfits := h.fits
  have hwide := h.wide
  unfold maximumMessage at hfits
  omega

def oaepEncrypted (hash : List UInt8 → Except LiberaCError (List UInt8))
    (random : Option (Nat → UInt8)) (n : Nat) (key : LiberaCRsaPublicKey)
    (label message : List UInt8) : Except LiberaCError (List UInt8) := do
  let encoded ← oaepEncode hash n (rsaModulusSize key.n) label message
    (cryptoRandomBytesInternal random n)
  pure (bigEndian (rsaModulusSize key.n) (beValue encoded ^ key.e.value % key.n.value))

theorem encoded_lt {modulus : LiberaCBignum} (hm : modulus.Valid) {encoded : List UInt8}
    (hencoded : OaepEncodes H n label encoded message)
    (hlength : encoded.length = rsaModulusSize modulus) : beValue encoded < modulus.value := by
  obtain ⟨maskedSeed, maskedBlock, rfl, -⟩ := hencoded
  rw [List.length_cons] at hlength
  have hzero := beValue_cons 0 (maskedSeed ++ maskedBlock)
  rw [UInt8.toNat_zero, Nat.mul_zero, Nat.zero_add] at hzero
  rw [hzero]
  exact (beValue_lt _).trans_le (le_modulus hm (by omega))

/-- What a seed gives: an encoding, unless its mask is too long to be made. -/
theorem oaepEncode_random (h : Hashes hash H n) {k : Nat} (label : List UInt8)
    (hroom : message.length + 2 * n + 2 ≤ k) {encoded : List UInt8}
    (hencoded : oaepEncode hash n k label message (cryptoRandomBytesInternal random n) =
      .ok encoded) : encoded.length = k ∧ OaepEncodes H n label encoded message := by
  cases random with
  | none =>
    unfold oaepEncode at hencoded
    rw [h.hashed] at hencoded
    cases hencoded
  | some byte =>
    have hseed : ((List.range n).map byte).length = n := by simp
    rcases oaepEncode_cases h label hseed hroom with ⟨-, other, hok, hother⟩ | ⟨-, herror⟩
    · obtain rfl : encoded = other := Except.ok.inj (hencoded.symm.trans hok)
      exact hother
    · cases hencoded.symm.trans herror

theorem oaepCiphertext_conforms (h : Hashes hash H n) (hkey : PublicKey key) (label : List UInt8)
    (hroom : message.length + 2 * n + 2 ≤ rsaModulusSize key.n) :
    Conforms (32 * key.n.length) (oaepCiphertext hash random n label message key)
      (oaepEncrypted hash random n key label message) := by
  have hsize := rsaModulusSize_le hkey.n_valid
  refine (Conforms.given _).bind fun encoded hencoded => ?_
  obtain ⟨hlength, hencodes⟩ := oaepEncode_random h label hroom hencoded
  exact rsaPublicSecretOperation_conforms hkey (encoded_lt hkey.n_valid hencodes hlength)
    (hlength.trans_le hsize) hsize

theorem encrypt_run (hhash : Hashes hash H (rsaHashLength r.hashAlg)) (hkey : PublicKey key)
    (hcheck : oaepEncryptCheck r key = .ok ()) (random : Option (Nat → UInt8)) (host : Host)
    (s : Process) :
    let expected := oaepEncrypted hash random (rsaHashLength r.hashAlg) key
      (readBytes s.memory r.label r.labelLength) (readBytes s.memory r.message r.messageLength)
    ∃ later result, EndsAs host (32 * key.n.length) expected result ∧
      cryptoRsaOaepEncryptInternal hash random r key host s = match result with
        | .ok ciphertext => (.ok (), ⟨writeBytes s.memory r.ciphertext ciphertext,
            later.requests, s.reportedLength⟩)
        | .error e => (.error e, later) := by
  intro expected
  have hallowed := encryptable_of_check hcheck
  have hsize := rsaModulusSize_le hkey.n_valid
  have hroom : (readBytes s.memory r.message r.messageLength).length +
      2 * rsaHashLength r.hashAlg + 2 ≤ rsaModulusSize key.n := by
    rw [readBytes_length]
    exact hallowed.room
  unfold cryptoRsaOaepEncryptInternal
  rw [hcheck, inMemory_compute_ok]
  obtain ⟨k, hgranted | ⟨hrefused, hroom⟩⟩ := allocate_bind .allocationFailed
    (show rsaModulusSize key.n ≤ 32 * key.n.length by omega) _ host s
  · rw [hgranted, cleanup_apply, inMemory_load_bind, inMemory_load_bind]
    obtain ⟨k', result, hends, hrun⟩ := conforming_bind (oaepCiphertext_conforms hhash hkey
      (readBytes s.memory r.label r.labelLength) hroom) _ host ⟨s.memory, k, s.reportedLength⟩
    rw [hrun]
    cases result with
    | error e => exact ⟨_, .error e, hends, rfl⟩
    | ok ciphertext => exact ⟨⟨s.memory, k', 0⟩, .ok ciphertext, hends, rfl⟩
  · rw [hrefused]
    exact ⟨_, .error .allocationFailed, EndsAs.refused hroom, rfl⟩

end Encryption

section RoundTrip

variable {hash : List UInt8 → Except LiberaCError (List UInt8)} {H : List UInt8 → List UInt8}
  {n : Nat} {r : OaepRequest} {publicKey : LiberaCRsaPublicKey}
  {privateKey : LiberaCRsaPrivateKey} {label message ciphertext : List UInt8}
  {random : Option (Nat → UInt8)}

end RoundTrip

end LiberaCrypt.RsaOaep
