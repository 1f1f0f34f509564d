import LiberaCrypt.AesBlock
import LiberaCrypt.AesCcmSeal
import LiberaCrypt.AesGcmSeal
import LiberaCrypt.AuthenticatedEncryption
import LiberaCrypt.ChaCha20Poly1305Seal

namespace LiberaCrypt.AeadCorrect

open LiberaCrypt.AeadRequest LiberaCrypt.AeadScheme LiberaCrypt.AesAead LiberaCrypt.AesBlock
open LiberaCrypt.AesCcmSeal LiberaCrypt.AesGcmSeal LiberaCrypt.AuthenticatedEncryption
open LiberaCrypt.ByteMemory
open LiberaCrypt.ChaCha20Poly1305 LiberaCrypt.ChaCha20Poly1305Seal LiberaCrypt.Def
open LiberaCrypt.KeystreamXor LiberaCrypt.Outcome

structure Inputs where
  key : List UInt8
  nonce : List UInt8
  aad : List UInt8
  tagLength : Nat
  deriving DecidableEq

def inputsOf (r : Request) (memory : Memory) : Inputs :=
  ⟨readBytes memory r.key r.keyLength, readBytes memory r.nonce r.nonceLength,
    readBytes memory r.aad r.aadLength, r.tagLength⟩

def modeCheck (family : AeadFamily) (i : Inputs) (length : Nat) : Except LiberaCError Unit :=
  match family with
  | .aesGcm => gcmValidateLengths i.nonce.length i.aad.length length i.tagLength
  | .aesCcm => ccmValidate 1 i.nonce.length length i.tagLength
  | .chacha20Poly1305 => .ok ()

def aeadSealed (aes : AesCipher) (family : AeadFamily) (i : Inputs) (plaintext : List UInt8) :
    Except LiberaCError (List UInt8 × List UInt8) :=
  match family with
  | .chacha20Poly1305 => chacha20Poly1305Sealed i.key i.nonce i.aad plaintext
  | .aesGcm => do
    let encryptBlock ← aes i.key
    modeCheck .aesGcm i plaintext.length
    gcmSealed encryptBlock i.tagLength i.nonce i.aad plaintext
  | .aesCcm => do
    let encryptBlock ← aes i.key
    modeCheck .aesCcm i plaintext.length
    ccmSealed encryptBlock i.tagLength i.nonce i.aad plaintext

def aeadOpened (aes : AesCipher) (family : AeadFamily) (i : Inputs) (tag ciphertext : List UInt8) :
    Except LiberaCError (List UInt8) :=
  match family with
  | .chacha20Poly1305 => chacha20Poly1305Opened i.key i.nonce i.aad tag ciphertext
  | .aesGcm => do
    let encryptBlock ← aes i.key
    modeCheck .aesGcm i ciphertext.length
    gcmOpened encryptBlock i.tagLength i.nonce i.aad tag ciphertext
  | .aesCcm => do
    let encryptBlock ← aes i.key
    modeCheck .aesCcm i ciphertext.length
    ccmOpened encryptBlock i.tagLength i.nonce i.aad tag ciphertext

structure Accepted (alg : LiberaCAlgID) (parameters : AeadParameters) (r : Request) : Prop where
  supported : aeadParameters alg = .ok parameters
  validated : aeadValidateRequest r alg parameters = .ok ()

section Validation

variable {alg : LiberaCAlgID} {parameters : AeadParameters} {r : Request}

theorem separated_of_checks
    (hinput : ¬ (r.output ≠ r.input ∧
      cryptoRangesOverlap r.output r.inputLength r.input r.inputLength = true))
    (hothers : aeadOverlap r = false) : r.Separated := by
  simp only [aeadOverlap, Bool.or_eq_false_iff, cryptoRangesOverlap_iff] at hothers
  obtain ⟨⟨⟨⟨⟨⟨⟨hkey, hnonce⟩, haad⟩, htag⟩, -⟩, -⟩, -⟩, -⟩ := hothers
  refine ⟨?_, hkey, hnonce, haad, htag⟩
  by_cases hsame : r.output = r.input
  · exact .inl hsame
  · right
    rw [← cryptoRangesOverlap_iff, Bool.eq_false_iff]
    exact fun hoverlap => hinput ⟨hsame, hoverlap⟩

structure Checked (alg : LiberaCAlgID) (parameters : AeadParameters) (r : Request) : Prop where
  present : r.missing = false
  nonce : r.nonce ≠ 0
  keyLength : r.keyLength = parameters.keyLength
  nonceLength : liberacAeadNonceLengthValid alg r.nonceLength = true
  tagLength : liberacAeadTagLengthValid alg r.tagLength = true
  chacha20 : parameters.family = .chacha20Poly1305 →
    cryptoChacha20Poly1305ValidateLengths r.inputLength r.aadLength = .ok ()
  separated : r.Separated

theorem present_of_check
    (h : ¬ (r.tag = 0 ∨ r.key = 0 ∨ r.nonce = 0 ∨ (r.input = 0 ∧ r.inputLength ≠ 0) ∨
      (r.output = 0 ∧ r.inputLength ≠ 0) ∨ (r.aad = 0 ∧ r.aadLength ≠ 0))) :
    r.missing = false ∧ r.nonce ≠ 0 := by
  push Not at h
  obtain ⟨htag, -, hnonce, hinput, houtput, haad⟩ := h
  refine ⟨?_, hnonce⟩
  simp only [Request.missing, Bool.or_eq_false_iff, Bool.and_eq_false_iff, decide_eq_false_iff_not,
    not_not]
  exact ⟨⟨⟨htag, Classical.or_iff_not_imp_left.mpr fun h => haad (not_not.mp h)⟩,
    Classical.or_iff_not_imp_left.mpr fun h => hinput (not_not.mp h)⟩,
    Classical.or_iff_not_imp_left.mpr fun h => houtput (not_not.mp h)⟩

theorem Accepted.checked (h : Accepted alg parameters r) : Checked alg parameters r := by
  have hvalidated := h.validated
  unfold aeadValidateRequest at hvalidated
  dsimp only at hvalidated
  generalize hlengths : (if parameters.family = .chacha20Poly1305 then
    cryptoChacha20Poly1305ValidateLengths r.inputLength r.aadLength else .ok ()) = lengths
    at hvalidated
  cases lengths with
  | error e => split_ifs at hvalidated
  | ok u =>
    dsimp only at hvalidated
    split_ifs at hvalidated with hnull hkey hlength hcapacity hinput hothers
    obtain ⟨hpresent, hnonce⟩ := present_of_check hnull
    rw [not_or, not_not, not_not] at hlength
    refine ⟨hpresent, hnonce, not_not.mp hkey, hlength.1, hlength.2, ?_,
      separated_of_checks hinput (Bool.eq_false_iff.mpr hothers)⟩
    intro hfamily
    rw [if_pos hfamily] at hlengths
    exact hlengths

theorem Accepted.lengths (h : Accepted alg parameters r) :
    r.nonceLength ≠ 0 ∧ r.tagLength ≤ 16 ∧ (parameters.family = .chacha20Poly1305 →
      r.keyLength = 32 ∧ r.nonceLength = 12 ∧ r.tagLength = 16) := by
  have hchecked := h.checked
  have hnonce := hchecked.nonceLength
  have htag := hchecked.tagLength
  have hkey := hchecked.keyLength
  have hsupported := h.supported
  unfold liberacAeadNonceLengthValid at hnonce
  unfold liberacAeadTagLengthValid at htag
  rw [hsupported] at hnonce htag
  dsimp only at hnonce htag
  cases hfamily : parameters.family with
  | aesGcm =>
    rw [hfamily] at hnonce htag
    simp only [decide_eq_true_eq, Bool.or_eq_true, Bool.and_eq_true] at hnonce htag
    exact ⟨hnonce, by omega, nofun⟩
  | aesCcm =>
    rw [hfamily] at hnonce htag
    simp only [decide_eq_true_eq, Bool.and_eq_true] at hnonce htag
    exact ⟨by omega, by omega, nofun⟩
  | chacha20Poly1305 =>
    rw [hfamily] at hnonce htag
    simp only [decide_eq_true_eq] at hnonce htag
    have hlength : parameters.keyLength = 32 := by
      cases alg
      all_goals cases hsupported
      all_goals first | rfl | cases hfamily
    exact ⟨by omega, by omega, fun _ => ⟨hkey.trans hlength, hnonce, htag⟩⟩

end Validation

section Outcomes

variable {aes : AesCipher} {family : AeadFamily} {i : Inputs} {plaintext ciphertext tag : List UInt8}

theorem sealed_length (h : aeadSealed aes family i plaintext = .ok (ciphertext, tag)) :
    ciphertext.length = plaintext.length := by
  cases family with
  | chacha20Poly1305 => exact (chacha20Poly1305Sealed_iff.mp h).length
  | aesGcm =>
    obtain ⟨encryptBlock, -, hrest⟩ := bind_eq_ok.mp h
    obtain ⟨-, -, hsealed⟩ := bind_eq_ok.mp hrest
    exact (gcmSealed_iff.mp hsealed).length
  | aesCcm =>
    obtain ⟨encryptBlock, -, hrest⟩ := bind_eq_ok.mp h
    obtain ⟨-, -, hsealed⟩ := bind_eq_ok.mp hrest
    exact (ccmSealed_iff.mp hsealed).length

theorem aeadOpened_iff_sealed (htag : tag.length = i.tagLength) (hle : i.tagLength ≤ 16)
    (hfull : family = .chacha20Poly1305 → i.tagLength = 16) :
    aeadOpened aes family i tag ciphertext = .ok plaintext ↔
      aeadSealed aes family i plaintext = .ok (ciphertext, tag) := by
  cases family with
  | chacha20Poly1305 => exact chacha20Poly1305Opened_iff_sealed (htag.trans (hfull rfl))
  | aesGcm =>
    constructor
    · intro hopened
      obtain ⟨encryptBlock, haes, hrest⟩ := bind_eq_ok.mp hopened
      obtain ⟨u, hcheck, hgcm⟩ := bind_eq_ok.mp hrest
      have hsealed := (gcmOpened_iff_sealed htag hle).mp hgcm
      rw [(gcmSealed_iff.mp hsealed).length] at hcheck
      exact bind_eq_ok.mpr ⟨encryptBlock, haes, bind_eq_ok.mpr ⟨u, hcheck, hsealed⟩⟩
    · intro hsealed
      have hlength := sealed_length hsealed
      obtain ⟨encryptBlock, haes, hrest⟩ := bind_eq_ok.mp hsealed
      obtain ⟨u, hcheck, hgcm⟩ := bind_eq_ok.mp hrest
      rw [← hlength] at hcheck
      exact bind_eq_ok.mpr ⟨encryptBlock, haes, bind_eq_ok.mpr ⟨u, hcheck,
        (gcmOpened_iff_sealed htag hle).mpr hgcm⟩⟩
  | aesCcm =>
    constructor
    · intro hopened
      obtain ⟨encryptBlock, haes, hrest⟩ := bind_eq_ok.mp hopened
      obtain ⟨u, hcheck, hccm⟩ := bind_eq_ok.mp hrest
      have hsealed := (ccmOpened_iff_sealed htag hle).mp hccm
      rw [(ccmSealed_iff.mp hsealed).length] at hcheck
      exact bind_eq_ok.mpr ⟨encryptBlock, haes, bind_eq_ok.mpr ⟨u, hcheck, hsealed⟩⟩
    · intro hsealed
      have hlength := sealed_length hsealed
      obtain ⟨encryptBlock, haes, hrest⟩ := bind_eq_ok.mp hsealed
      obtain ⟨u, hcheck, hccm⟩ := bind_eq_ok.mp hrest
      rw [← hlength] at hcheck
      exact bind_eq_ok.mpr ⟨encryptBlock, haes, bind_eq_ok.mpr ⟨u, hcheck,
        (ccmOpened_iff_sealed htag hle).mpr hccm⟩⟩

end Outcomes

section Calls

variable (aes : AesCipher) {alg : LiberaCAlgID} {parameters : AeadParameters} {r : Request}
  (memory : Memory)

theorem gcmCheck_eq (hchecked : Checked alg parameters r) (hlength : r.nonceLength ≠ 0) :
    gcmCheck r = modeCheck .aesGcm (inputsOf r memory) (readBytes memory r.input r.inputLength).length := by
  rw [gcmCheck, if_neg, if_neg hlength, modeCheck, inputsOf]
  · simp only [readBytes_length]
  · rintro (hnull | hmissing)
    · exact hchecked.nonce hnull
    · rw [hchecked.present] at hmissing
      cases hmissing

theorem ccmCheck_eq (hchecked : Checked alg parameters r) :
    ccmCheck r = modeCheck .aesCcm (inputsOf r memory) (readBytes memory r.input r.inputLength).length := by
  rw [ccmCheck, if_neg (by rw [hchecked.present]; exact Bool.false_ne_true), modeCheck, inputsOf,
    ccmValidate, ccmValidate]
  simp only [readBytes_length, hchecked.nonce, false_or, one_ne_zero]

theorem aesEncrypt_sealsAs (h : Accepted alg parameters r)
    (hfamily : parameters.family ≠ .chacha20Poly1305) :
    SealsAs (aeadSealed aes parameters.family (inputsOf r memory)
      (readBytes memory r.input r.inputLength)) r memory
      (aeadAesEncrypt aes parameters.family r memory) := by
  have hchecked := h.checked
  obtain ⟨hlength, -⟩ := h.lengths
  cases hmode : parameters.family with
  | chacha20Poly1305 => exact absurd hmode hfamily
  | aesGcm =>
    rw [aeadAesEncrypt, load_bind]
    apply actsAs_compute (wrote_nothing r memory)
    intro encryptBlock haes
    rw [if_pos rfl, ← gcmCheck_eq memory hchecked hlength]
    cases hcheck : gcmCheck r with
    | error e =>
      apply actsAs_error (wrote_nothing r memory)
      rw [cryptoAesGcmEncrypt, hcheck, compute_error_bind]
    | ok u => exact gcmEncrypt_sealsAs hcheck hchecked.separated
  | aesCcm =>
    rw [aeadAesEncrypt, load_bind]
    apply actsAs_compute (wrote_nothing r memory)
    intro encryptBlock haes
    rw [if_neg (by decide), ← ccmCheck_eq memory hchecked]
    cases hcheck : ccmCheck r with
    | error e =>
      apply actsAs_error (wrote_nothing r memory)
      rw [cryptoAesCcmEncrypt, hcheck, compute_error_bind]
    | ok u => exact ccmEncrypt_sealsAs hcheck hchecked.separated

theorem aesDecrypt_opensAs (h : Accepted alg parameters r)
    (hfamily : parameters.family ≠ .chacha20Poly1305) :
    OpensAs (aeadOpened aes parameters.family (inputsOf r memory)
      (readBytes memory r.tag r.tagLength) (readBytes memory r.input r.inputLength)) r memory
      (aeadAesDecrypt aes parameters.family r memory) := by
  have hchecked := h.checked
  obtain ⟨hlength, -⟩ := h.lengths
  cases hmode : parameters.family with
  | chacha20Poly1305 => exact absurd hmode hfamily
  | aesGcm =>
    rw [aeadAesDecrypt, load_bind]
    apply actsAs_compute (wrote_nothing r memory)
    intro encryptBlock haes
    rw [if_pos rfl, ← gcmCheck_eq memory hchecked hlength]
    cases hcheck : gcmCheck r with
    | error e =>
      apply actsAs_error (wrote_nothing r memory)
      rw [cryptoAesGcmDecrypt, hcheck, compute_error_bind]
    | ok u => exact gcmDecrypt_opensAs hcheck hchecked.separated
  | aesCcm =>
    rw [aeadAesDecrypt, load_bind]
    apply actsAs_compute (wrote_nothing r memory)
    intro encryptBlock haes
    rw [if_neg (by decide), ← ccmCheck_eq memory hchecked]
    cases hcheck : ccmCheck r with
    | error e =>
      apply actsAs_error (wrote_nothing r memory)
      rw [cryptoAesCcmDecrypt, hcheck, compute_error_bind]
    | ok u => exact ccmDecrypt_opensAs hcheck hchecked.separated

variable {tagCapacity : Nat}

theorem encrypt_run (h : Accepted alg parameters r) (hcapacity : r.tagLength ≤ tagCapacity) :
    let sealed := aeadSealed aes parameters.family (inputsOf r memory)
      (readBytes memory r.input r.inputLength)
    (liberacAeadEncrypt aes r tagCapacity alg memory).1 = sealed.map (fun _ => ()) ∧
      ∀ ciphertext tag, sealed = .ok (ciphertext, tag) →
        (liberacAeadEncrypt aes r tagCapacity alg memory).2 =
          writeBytes (writeBytes memory r.output ciphertext) r.tag tag := by
  intro sealed
  have hchecked := h.checked
  obtain ⟨-, -, hfixed⟩ := h.lengths
  rw [liberacAeadEncrypt, h.supported, compute_ok_bind, h.validated, compute_ok_bind,
    if_neg (not_lt.mpr hcapacity), compute_ok_bind]
  by_cases hfamily : parameters.family = .chacha20Poly1305
  · obtain ⟨hkey, hnonce, -⟩ := hfixed hfamily
    have hseals := chacha20Poly1305Encrypt_sealsAs memory (hchecked.chacha20 hfamily)
      hkey hnonce hchecked.separated
    have hsealed : sealed = chacha20Poly1305Sealed (readBytes memory r.key r.keyLength)
        (readBytes memory r.nonce r.nonceLength) (readBytes memory r.aad r.aadLength)
        (readBytes memory r.input r.inputLength) := by
      change aeadSealed aes parameters.family _ _ = _
      rw [hfamily]
      rfl
    rw [if_pos hfamily, hsealed]
    exact ⟨hseals.status, fun ciphertext tag hok => hseals.ok _ hok⟩
  · have hseals := actsAs_wipe (aesEncrypt_sealsAs aes memory h hfamily)
    rw [if_neg hfamily]
    cases hresult : wipeOnError r.output r.inputLength
        (aeadAesEncrypt aes parameters.family r) memory with
    | mk status later =>
      rw [hresult] at hseals
      cases hsealed : sealed with
      | error e =>
        have hstatus : status = .error e :=
          hseals.status.trans (congrArg (Except.map fun _ => ()) hsealed)
        rw [hstatus] at hresult
        rw [wipeOnError_error hresult]
        exact ⟨rfl, nofun⟩
      | ok c =>
        have hstatus : status = .ok () :=
          hseals.status.trans (congrArg (Except.map fun _ => ()) hsealed)
        rw [hstatus] at hresult
        rw [wipeOnError_ok hresult]
        refine ⟨rfl, ?_⟩
        rintro ciphertext tag hc
        cases hc
        exact hseals.ok _ hsealed

theorem decrypt_run (h : Accepted alg parameters r) :
    let opened := aeadOpened aes parameters.family (inputsOf r memory)
      (readBytes memory r.tag r.tagLength) (readBytes memory r.input r.inputLength)
    OpensAs opened r memory (liberacAeadDecrypt aes r alg memory) ∧
      ∀ e, opened = .error e → liberacAeadDecrypt aes r alg memory =
        (.error e, writeBytes memory r.output (List.replicate r.inputLength 0)) := by
  intro opened
  have hchecked := h.checked
  obtain ⟨-, -, hfixed⟩ := h.lengths
  rw [liberacAeadDecrypt, h.supported, compute_ok_bind, h.validated, compute_ok_bind]
  by_cases hfamily : parameters.family = .chacha20Poly1305
  · obtain ⟨hkey, hnonce, htag⟩ := hfixed hfamily
    obtain ⟨body, hbody, hopens⟩ := chacha20Poly1305Decrypt_body memory
      (hchecked.chacha20 hfamily) hkey hnonce htag hchecked.separated
    have hopened : opened = chacha20Poly1305Opened (readBytes memory r.key r.keyLength)
        (readBytes memory r.nonce r.nonceLength) (readBytes memory r.aad r.aadLength)
        (readBytes memory r.tag r.tagLength) (readBytes memory r.input r.inputLength) := by
      change aeadOpened aes parameters.family _ _ _ = _
      rw [hfamily]
      rfl
    rw [if_pos hfamily, hbody, hopened]
    exact ⟨actsAs_wipe hopens, fun e he => wiped_zeros hopens he⟩
  · have hopens := aesDecrypt_opensAs aes memory h hfamily
    rw [if_neg hfamily]
    exact ⟨actsAs_wipe hopens, fun e he => wiped_zeros hopens he⟩

end Calls

section RoundTrip

variable {aes : AesCipher} {alg : LiberaCAlgID} {parameters : AeadParameters}

/-- The limits of a mode on the lengths of an accepted call. -/
def WithinLimits (family : AeadFamily) (r : Request) : Prop :=
  match family with
  | .aesGcm => r.nonceLength < 2 ^ 61 ∧ r.aadLength < 2 ^ 61 ∧ r.inputLength ≤ 2 ^ 36 - 32
  | .aesCcm => r.inputLength < 2 ^ (8 * (15 - r.nonceLength))
  | .chacha20Poly1305 => True

/-- A key of a supported length gives a block function that does not fail. -/
def Total (aes : AesCipher) : Prop :=
  ∀ key : List UInt8, key.length ∈ [16, 24, 32] →
    ∃ encryptBlock, aes key = .ok encryptBlock ∧ ∀ block, ∃ result, encryptBlock block = .ok result

def cryptoAes : AesCipher := fun key => (cryptoAesContextInit key).map cryptoAesEncryptBlock

theorem cryptoAes_total : Total cryptoAes := by
  intro key hkey
  obtain ⟨context, hcontext, hvalid⟩ := cryptoAesContextInit_valid (by simpa using hkey)
  refine ⟨cryptoAesEncryptBlock context, by rw [cryptoAes, hcontext]; rfl, fun block => ?_⟩
  exact ⟨_, cryptoAesEncryptBlock_valid hvalid block⟩

theorem keyLength_supported (h : aeadParameters alg = .ok parameters) :
    parameters.keyLength ∈ [16, 24, 32] := by
  cases alg
  all_goals cases h
  all_goals decide

theorem sealed_total (htotal : Total aes) {r : Request} (h : Accepted alg parameters r)
    (hlimits : WithinLimits parameters.family r) (memory : Memory) :
    ∃ c, aeadSealed aes parameters.family (inputsOf r memory)
      (readBytes memory r.input r.inputLength) = .ok c := by
  have hchecked := h.checked
  have hkey : (inputsOf r memory).key.length ∈ [16, 24, 32] := by
    rw [inputsOf, readBytes_length, hchecked.keyLength]
    exact keyLength_supported h.supported
  obtain ⟨encryptBlock, haes, hblock⟩ := htotal _ hkey
  have hnonce := hchecked.nonceLength
  have htag := hchecked.tagLength
  unfold liberacAeadNonceLengthValid at hnonce
  unfold liberacAeadTagLengthValid at htag
  rw [h.supported] at hnonce htag
  cases hfamily : parameters.family with
  | chacha20Poly1305 =>
    have hlengths := hchecked.chacha20 hfamily
    unfold cryptoChacha20Poly1305ValidateLengths at hlengths
    split_ifs at hlengths
    exact chacha20Poly1305Sealed_total (by rw [readBytes_length]; exact hlengths)
  | aesGcm =>
    simp only [hfamily, WithinLimits, decide_eq_true_eq, Bool.or_eq_true, Bool.and_eq_true]
      at hlimits htag
    have hcheck : modeCheck .aesGcm (inputsOf r memory)
        (readBytes memory r.input r.inputLength).length = .ok () := by
      simp only [modeCheck, inputsOf, readBytes_length, gcmValidateLengths]
      rw [if_neg, if_neg]
      · unfold maxBitStringBytes
        omega
      · simp only [gcmTagLengthValid, decide_eq_true_eq, List.mem_cons, List.not_mem_nil]
        omega
    have hsealed := gcmSealed_total r.tagLength (readBytes memory r.nonce r.nonceLength)
      (readBytes memory r.aad r.aadLength) (readBytes memory r.input r.inputLength) hblock
      (by rw [readBytes_length, maxBitStringBytes]; omega)
      (by rw [readBytes_length, maxBitStringBytes]; omega)
      (by rw [readBytes_length, maxBitStringBytes]; omega)
    obtain ⟨c, hc⟩ := hsealed
    exact ⟨c, bind_eq_ok.mpr ⟨encryptBlock, haes, bind_eq_ok.mpr ⟨(), hcheck, hc⟩⟩⟩
  | aesCcm =>
    simp only [hfamily, WithinLimits, decide_eq_true_eq, Bool.and_eq_true] at hlimits htag hnonce
    have hcheck : modeCheck .aesCcm (inputsOf r memory)
        (readBytes memory r.input r.inputLength).length = .ok () := by
      simp only [modeCheck, inputsOf, readBytes_length, ccmValidate]
      rw [if_neg (by omega), if_neg (by omega), if_neg]
      rw [not_not, ccmLengthFits]
      split_ifs
      · rfl
      · rw [decide_eq_true_eq]
        omega
    obtain ⟨c, hc⟩ := ccmSealed_total r.tagLength (readBytes memory r.nonce r.nonceLength)
      (readBytes memory r.aad r.aadLength) (readBytes memory r.input r.inputLength) hblock
    exact ⟨c, bind_eq_ok.mpr ⟨encryptBlock, haes, bind_eq_ok.mpr ⟨(), hcheck, hc⟩⟩⟩

theorem sealed_tag_length {i : Inputs} {family : AeadFamily} {plaintext ciphertext tag : List UInt8}
    (hle : i.tagLength ≤ 16) (hfull : family = .chacha20Poly1305 → i.tagLength = 16)
    (h : aeadSealed aes family i plaintext = .ok (ciphertext, tag)) : tag.length = i.tagLength := by
  cases family with
  | chacha20Poly1305 =>
    obtain ⟨stream, -, hlast⟩ := bind_eq_ok.mp h
    cases hlast
    exact chacha20Poly1305Tag_length.trans (hfull rfl).symm
  | aesGcm =>
    obtain ⟨encryptBlock, -, hrest⟩ := bind_eq_ok.mp h
    obtain ⟨-, -, hsealed⟩ := bind_eq_ok.mp hrest
    obtain ⟨hkey, -, hrest⟩ := bind_eq_ok.mp hsealed
    obtain ⟨j0, -, hrest⟩ := bind_eq_ok.mp hrest
    obtain ⟨stream, -, hrest⟩ := bind_eq_ok.mp hrest
    obtain ⟨fullTag, htag, hlast⟩ := bind_eq_ok.mp hrest
    cases hlast
    rw [List.length_take, gcmTag_length htag, Nat.min_eq_left hle]
  | aesCcm =>
    obtain ⟨encryptBlock, -, hrest⟩ := bind_eq_ok.mp h
    obtain ⟨-, -, hsealed⟩ := bind_eq_ok.mp hrest
    obtain ⟨mac, -, hrest⟩ := bind_eq_ok.mp hsealed
    obtain ⟨stream, -, hrest⟩ := bind_eq_ok.mp hrest
    obtain ⟨s0, -, hlast⟩ := bind_eq_ok.mp hrest
    cases hlast
    rw [List.length_take, xorBlock_length, Nat.min_eq_left hle]

variable (aes) {r : Request} (memory : Memory) {tagCapacity : Nat}

theorem encrypt_bytes (h : Accepted alg parameters r) (hcapacity : r.tagLength ≤ tagCapacity) :
    let sealed := aeadSealed aes parameters.family (inputsOf r memory)
      (readBytes memory r.input r.inputLength)
    let result := liberacAeadEncrypt aes r tagCapacity alg memory
    result.1 = sealed.map (fun _ => ()) ∧ ∀ ciphertext tag, sealed = .ok (ciphertext, tag) →
      readBytes result.2 r.output r.inputLength = ciphertext ∧
        readBytes result.2 r.tag r.tagLength = tag := by
  intro sealed result
  obtain ⟨hstatus, hok⟩ := encrypt_run aes memory h hcapacity
  refine ⟨hstatus, ?_⟩
  intro ciphertext tag hsealed
  obtain ⟨-, hle, hfixed⟩ := h.lengths
  have hciphertext : ciphertext.length = r.inputLength :=
    (sealed_length hsealed).trans (readBytes_length memory r.input r.inputLength)
  have htag : tag.length = r.tagLength :=
    sealed_tag_length (i := inputsOf r memory) hle (fun hfamily => (hfixed hfamily).2.2) hsealed
  have hmemory : result.2 = _ := hok ciphertext tag hsealed
  have hread := read_write memory r.output ciphertext
  have hreadtag := read_write (writeBytes memory r.output ciphertext) r.tag tag
  rw [hciphertext] at hread
  rw [htag] at hreadtag
  refine ⟨?_, by rw [hmemory, hreadtag]⟩
  rw [hmemory, read_write_disjoint, hread]
  intro i hi j hj heq
  exact h.checked.separated.tag j hj i (by omega) heq.symm

theorem decrypt_bytes (h : Accepted alg parameters r) :
    let opened := aeadOpened aes parameters.family (inputsOf r memory)
      (readBytes memory r.tag r.tagLength) (readBytes memory r.input r.inputLength)
    let result := liberacAeadDecrypt aes r alg memory
    result.1 = opened.map (fun _ => ()) ∧
      (∀ plaintext, opened = .ok plaintext →
        readBytes result.2 r.output r.inputLength = plaintext) ∧
      ∀ e, opened = .error e →
        readBytes result.2 r.output r.inputLength = List.replicate r.inputLength 0 := by
  intro opened result
  obtain ⟨hopens, hwiped⟩ := decrypt_run aes memory h
  obtain ⟨-, hle, hfixed⟩ := h.lengths
  refine ⟨hopens.status, ?_, ?_⟩
  · intro plaintext hopened
    have hsealed := (aeadOpened_iff_sealed (i := inputsOf r memory)
      (readBytes_length memory r.tag r.tagLength) hle
      (fun hfamily => (hfixed hfamily).2.2)).mp hopened
    have hlength : plaintext.length = r.inputLength :=
      (sealed_length hsealed).symm.trans (readBytes_length memory r.input r.inputLength)
    have hread := read_write memory r.output plaintext
    rw [hlength] at hread
    have hmemory : result.2 = _ := hopens.ok plaintext hopened
    rw [hmemory, hread]
  · intro e hopened
    have hread := read_write memory r.output (List.replicate r.inputLength 0)
    rw [List.length_replicate] at hread
    have hresult : result = _ := hwiped e hopened
    rw [hresult, hread]

/-- A call gives a ciphertext and a tag just when they are sealed from the bytes of its arguments. -/
theorem encrypt_gives_iff (h : Accepted alg parameters r) (hcapacity : r.tagLength ≤ tagCapacity)
    {ciphertext tag : List UInt8} :
    ((liberacAeadEncrypt aes r tagCapacity alg memory).1 = .ok () ∧
      readBytes (liberacAeadEncrypt aes r tagCapacity alg memory).2 r.output r.inputLength =
        ciphertext ∧
      readBytes (liberacAeadEncrypt aes r tagCapacity alg memory).2 r.tag r.tagLength = tag) ↔
    aeadSealed aes parameters.family (inputsOf r memory) (readBytes memory r.input r.inputLength) =
      .ok (ciphertext, tag) := by
  obtain ⟨hstatus, hbytes⟩ := encrypt_bytes aes memory h hcapacity
  constructor
  · rintro ⟨hok, hciphertext, htag⟩
    rw [hok] at hstatus
    cases hsealed : aeadSealed aes parameters.family (inputsOf r memory)
        (readBytes memory r.input r.inputLength) with
    | error e =>
      rw [hsealed] at hstatus
      cases hstatus
    | ok c =>
      obtain ⟨hc, ht⟩ := hbytes c.1 c.2 hsealed
      rw [← hciphertext, ← htag, hc, ht]
  · intro hsealed
    rw [hsealed] at hstatus
    exact ⟨hstatus, hbytes _ _ hsealed⟩

/-- A call gives a plaintext just when it is opened from the bytes of its arguments. -/
theorem decrypt_gives_iff (h : Accepted alg parameters r) {plaintext : List UInt8} :
    ((liberacAeadDecrypt aes r alg memory).1 = .ok () ∧
      readBytes (liberacAeadDecrypt aes r alg memory).2 r.output r.inputLength = plaintext) ↔
    aeadOpened aes parameters.family (inputsOf r memory) (readBytes memory r.tag r.tagLength)
      (readBytes memory r.input r.inputLength) = .ok plaintext := by
  obtain ⟨hstatus, hbytes, -⟩ := decrypt_bytes aes memory h
  constructor
  · rintro ⟨hok, hplaintext⟩
    rw [hok] at hstatus
    cases hopened : aeadOpened aes parameters.family (inputsOf r memory)
        (readBytes memory r.tag r.tagLength) (readBytes memory r.input r.inputLength) with
    | error e =>
      rw [hopened] at hstatus
      cases hstatus
    | ok other => rw [← hplaintext, hbytes other hopened]
  · intro hopened
    rw [hopened] at hstatus
    exact ⟨hstatus, hbytes _ hopened⟩

/-- What a call opens is what a call seals, for the same bytes of its arguments. -/
theorem opens_iff_seals (h : Accepted alg parameters r) {plaintext : List UInt8} :
    aeadOpened aes parameters.family (inputsOf r memory) (readBytes memory r.tag r.tagLength)
        (readBytes memory r.input r.inputLength) = .ok plaintext ↔
      aeadSealed aes parameters.family (inputsOf r memory) plaintext =
        .ok (readBytes memory r.input r.inputLength, readBytes memory r.tag r.tagLength) := by
  obtain ⟨-, hle, hfixed⟩ := h.lengths
  exact aeadOpened_iff_sealed (readBytes_length memory r.tag r.tagLength) hle
    fun hfamily => (hfixed hfamily).2.2

theorem decrypt_failed (h : Accepted alg parameters r)
    (hfailed : (liberacAeadDecrypt aes r alg memory).1 ≠ .ok ()) :
    readBytes (liberacAeadDecrypt aes r alg memory).2 r.output r.inputLength =
      List.replicate r.inputLength 0 := by
  obtain ⟨hstatus, -, hzeros⟩ := decrypt_bytes aes memory h
  cases hopened : aeadOpened aes parameters.family (inputsOf r memory)
      (readBytes memory r.tag r.tagLength) (readBytes memory r.input r.inputLength) with
  | error e => exact hzeros e hopened
  | ok plaintext =>
    exact absurd (hstatus.trans (congrArg (Except.map fun _ => ()) hopened)) hfailed

variable {other : Request} {elsewhere : Memory}

/-- Two calls that seal from the same bytes give the same status and the same bytes. -/
theorem encrypt_same (h : Accepted alg parameters r) (hcapacity : r.tagLength ≤ tagCapacity)
    {otherCapacity : Nat} (hother : Accepted alg parameters other)
    (hothercapacity : other.tagLength ≤ otherCapacity)
    (hinputs : inputsOf other elsewhere = inputsOf r memory)
    (hinput : readBytes elsewhere other.input other.inputLength =
      readBytes memory r.input r.inputLength) :
    let sealed := liberacAeadEncrypt aes r tagCapacity alg memory
    let sealed' := liberacAeadEncrypt aes other otherCapacity alg elsewhere
    sealed'.1 = sealed.1 ∧ (sealed.1 = .ok () →
      readBytes sealed'.2 other.output other.inputLength =
        readBytes sealed.2 r.output r.inputLength ∧
      readBytes sealed'.2 other.tag other.tagLength = readBytes sealed.2 r.tag r.tagLength) := by
  intro sealed sealed'
  obtain ⟨hstatus, -⟩ := encrypt_bytes aes memory h hcapacity
  obtain ⟨hstatus', -⟩ := encrypt_bytes aes elsewhere hother hothercapacity
  rw [hinputs, hinput] at hstatus'
  refine ⟨hstatus'.trans hstatus.symm, fun hok => ?_⟩
  have hsealed := (encrypt_gives_iff aes memory h hcapacity).mp ⟨hok, rfl, rfl⟩
  rw [← hinputs, ← hinput] at hsealed
  exact ((encrypt_gives_iff aes elsewhere hother hothercapacity).mpr hsealed).2

/-- Two calls that open from the same bytes give the same status and the same bytes. -/
theorem decrypt_same (h : Accepted alg parameters r) (hother : Accepted alg parameters other)
    (hinputs : inputsOf other elsewhere = inputsOf r memory)
    (hinput : readBytes elsewhere other.input other.inputLength =
      readBytes memory r.input r.inputLength)
    (htag : readBytes elsewhere other.tag other.tagLength = readBytes memory r.tag r.tagLength) :
    let opened := liberacAeadDecrypt aes r alg memory
    let opened' := liberacAeadDecrypt aes other alg elsewhere
    opened'.1 = opened.1 ∧ readBytes opened'.2 other.output other.inputLength =
      readBytes opened.2 r.output r.inputLength := by
  intro opened opened'
  obtain ⟨hstatus, -⟩ := decrypt_bytes aes memory h
  obtain ⟨hstatus', -⟩ := decrypt_bytes aes elsewhere hother
  rw [hinputs, hinput, htag] at hstatus'
  have hsame : opened'.1 = opened.1 := hstatus'.trans hstatus.symm
  refine ⟨hsame, ?_⟩
  by_cases hok : opened.1 = .ok ()
  · have hopened := (decrypt_gives_iff aes memory h).mp ⟨hok, rfl⟩
    rw [← hinputs, ← hinput, ← htag] at hopened
    exact ((decrypt_gives_iff aes elsewhere hother).mpr hopened).2
  · have hlength := congrArg List.length hinput
    rw [readBytes_length, readBytes_length] at hlength
    have hzeros := decrypt_failed aes memory h hok
    have hzeros' := decrypt_failed aes elsewhere hother fun hok' => hok (hsame.symm.trans hok')
    exact hzeros'.trans ((congrArg (List.replicate · 0) hlength).trans hzeros.symm)

/-- An encryption call and a decryption call with the same key, nonce, associated data and length
of the tag, wherever their buffers are. -/
theorem aead_round_trip {e d : Request} {M N : Memory} (he : Accepted alg parameters e)
    (hcapacity : e.tagLength ≤ tagCapacity) (hd : Accepted alg parameters d)
    (hsame : inputsOf e M = inputsOf d N) :
    let sealed := liberacAeadEncrypt aes e tagCapacity alg M
    let opened := liberacAeadDecrypt aes d alg N
    -- a ciphertext and a tag are accepted as this plaintext just when they are its encryption
    ((opened.1 = .ok () ∧
        readBytes opened.2 d.output d.inputLength = readBytes M e.input e.inputLength) ↔
      sealed.1 = .ok () ∧
        readBytes sealed.2 e.output e.inputLength = readBytes N d.input d.inputLength ∧
        readBytes sealed.2 e.tag e.tagLength = readBytes N d.tag d.tagLength) ∧
      -- a failed decryption leaves zeros
      (opened.1 ≠ .ok () →
        readBytes opened.2 d.output d.inputLength = List.replicate d.inputLength 0) ∧
      -- an encryption within the limits does not fail
      (Total aes → WithinLimits parameters.family e → sealed.1 = .ok ()) ∧
      -- it does not matter where the buffers are, in place or apart
      (∀ e' M' tagCapacity', Accepted alg parameters e' → e'.tagLength ≤ tagCapacity' →
        inputsOf e' M' = inputsOf e M →
        readBytes M' e'.input e'.inputLength = readBytes M e.input e.inputLength →
        let sealed' := liberacAeadEncrypt aes e' tagCapacity' alg M'
        sealed'.1 = sealed.1 ∧ (sealed.1 = .ok () →
          readBytes sealed'.2 e'.output e'.inputLength =
            readBytes sealed.2 e.output e.inputLength ∧
          readBytes sealed'.2 e'.tag e'.tagLength = readBytes sealed.2 e.tag e.tagLength)) ∧
      (∀ d' N', Accepted alg parameters d' → inputsOf d' N' = inputsOf d N →
        readBytes N' d'.input d'.inputLength = readBytes N d.input d.inputLength →
        readBytes N' d'.tag d'.tagLength = readBytes N d.tag d.tagLength →
        let opened' := liberacAeadDecrypt aes d' alg N'
        opened'.1 = opened.1 ∧ readBytes opened'.2 d'.output d'.inputLength =
          readBytes opened.2 d.output d.inputLength) := by
  intro sealed opened
  refine ⟨?_, decrypt_failed aes N hd, fun htotal hlimits => ?_, ?_, ?_⟩
  · have hopens := @decrypt_gives_iff aes alg parameters d N hd (readBytes M e.input e.inputLength)
    have hseals := @encrypt_gives_iff aes alg parameters e M tagCapacity he hcapacity
      (readBytes N d.input d.inputLength) (readBytes N d.tag d.tagLength)
    rw [hsame] at hseals
    exact hopens.trans ((opens_iff_seals aes N hd).trans hseals.symm)
  · obtain ⟨c, hc⟩ := sealed_total htotal he hlimits M
    exact ((encrypt_gives_iff aes M he hcapacity).mpr hc).1
  · intro e' M' tagCapacity' he' hcapacity' hinputs hinput
    exact encrypt_same aes M he hcapacity he' hcapacity' hinputs hinput
  · intro d' N' hd' hinputs hinput htag
    exact decrypt_same aes N hd hd' hinputs hinput htag

def inPlaceRequest : Request := ⟨4000, 3, 6000, 16, 4000, 3, 1000, 32, 2000, 12, 3000, 5⟩

def apartRequest : Request := ⟨5000, 3, 6000, 16, 4000, 3, 1000, 32, 2000, 12, 3000, 5⟩

def sampleMemory : Memory := ⟨fun address => UInt8.ofNat address⟩

def sampleSealed : Except LiberaCError Unit × Memory :=
  liberacAeadEncrypt cryptoAes inPlaceRequest 16 .chacha20Poly1305 sampleMemory

def carried (ciphertext tag : List UInt8) : Memory :=
  writeBytes (writeBytes sampleMemory 4000 ciphertext) 6000 tag

theorem carried_bytes {ciphertext tag : List UInt8} (hciphertext : ciphertext.length = 3)
    (htag : tag.length = 16) :
    inputsOf apartRequest (carried ciphertext tag) = inputsOf inPlaceRequest sampleMemory ∧
      readBytes (carried ciphertext tag) 4000 3 = ciphertext ∧
      readBytes (carried ciphertext tag) 6000 16 = tag := by
  have hkept : ∀ {pointer length : Nat}, pointer + length ≤ 6000 →
      readBytes (carried ciphertext tag) pointer length =
        readBytes (writeBytes sampleMemory 4000 ciphertext) pointer length := by
    intro pointer length hbefore
    apply read_write_disjoint
    intro i hi j hj
    omega
  have hinput : ∀ {pointer length : Nat}, pointer + length ≤ 4000 →
      readBytes (carried ciphertext tag) pointer length =
        readBytes sampleMemory pointer length := by
    intro pointer length hbefore
    rw [hkept (by omega)]
    apply read_write_disjoint
    intro i hi j hj
    omega
  refine ⟨?_, ?_, ?_⟩
  · have hkey := @hinput 1000 32 (by decide)
    have hnonce := @hinput 2000 12 (by decide)
    have haad := @hinput 3000 5 (by decide)
    change Inputs.mk _ _ _ 16 = Inputs.mk _ _ _ 16
    rw [Inputs.mk.injEq]
    exact ⟨hkey, hnonce, haad, rfl⟩
  · rw [hkept (by decide), ← hciphertext]
    exact read_write _ _ _
  · rw [← htag]
    exact read_write _ _ _

theorem aead_round_trip_chacha20 :
    let opened := liberacAeadDecrypt cryptoAes apartRequest .chacha20Poly1305
      (carried (readBytes sampleSealed.2 4000 3) (readBytes sampleSealed.2 6000 16))
    sampleSealed.1 = .ok () ∧ opened.1 = .ok () ∧
      readBytes opened.2 5000 3 = [160, 161, 162] := by
  have hinPlace : Accepted .chacha20Poly1305 ⟨32, .chacha20Poly1305⟩ inPlaceRequest :=
    ⟨rfl, by decide⟩
  have hapart : Accepted .chacha20Poly1305 ⟨32, .chacha20Poly1305⟩ apartRequest :=
    ⟨rfl, by decide⟩
  have hmessage : readBytes sampleMemory 4000 3 = [160, 161, 162] := by decide
  obtain ⟨hinputs, hciphertext, htag⟩ := carried_bytes (readBytes_length sampleSealed.2 4000 3)
    (readBytes_length sampleSealed.2 6000 16)
  obtain ⟨hround, -, htotal, -⟩ := aead_round_trip cryptoAes hinPlace (Nat.le_refl 16) hapart
    hinputs.symm
  have hok : sampleSealed.1 = .ok () := htotal cryptoAes_total trivial
  rw [← hmessage]
  exact ⟨hok, hround.mpr ⟨hok, hciphertext.symm, htag.symm⟩⟩

end RoundTrip

end LiberaCrypt.AeadCorrect
