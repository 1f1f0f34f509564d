import LiberaCrypt.AeadCorrect
import LiberaCrypt.Cmac
import LiberaCrypt.Ghash

namespace LiberaCrypt.Gmac

open LiberaCrypt.AeadCorrect LiberaCrypt.AeadRequest LiberaCrypt.AesAead LiberaCrypt.AesBlock
open LiberaCrypt.AesGcmSeal
open LiberaCrypt.AuthenticatedEncryption LiberaCrypt.BigEndian LiberaCrypt.BlockXor
open LiberaCrypt.ByteMemory LiberaCrypt.Cmac LiberaCrypt.Def LiberaCrypt.Endian
open LiberaCrypt.GcmField LiberaCrypt.Ghash LiberaCrypt.Outcome

def gmacAlgorithmValid : LiberaCAlgID → Bool
  | .aes128Gcm => true
  | .aes192Gcm => true
  | .aes256Gcm => true
  | _ => false

def gmacCheck (r : Request) (tagCapacity : Nat) (alg : LiberaCAlgID) : Except LiberaCError Unit :=
  if ¬ gmacAlgorithmValid alg then .error .invalidAlgId
  else if ¬ liberacAeadTagLengthValid alg r.tagLength ∨ r.tag = 0 ∨ r.key = 0 ∨ r.nonce = 0 ∨
      r.nonceLength = 0 ∨ (r.aad = 0 ∧ r.aadLength ≠ 0) then
    .error .invalidArgument
  else if tagCapacity < r.tagLength then .error .bufferTooSmall
  else .ok ()

def macRequest (r : Request) : Request :=
  { r with output := 0, outputCapacity := 0, input := 0, inputLength := 0 }

def liberacGmac (aes : AesCipher) (r : Request) (tagCapacity : Nat) (alg : LiberaCAlgID) :
    OnMemory Unit := do
  compute (gmacCheck r tagCapacity alg)
  liberacAeadEncrypt aes (macRequest r) tagCapacity alg

def tagString (aad ciphertext : List UInt8) : List UInt8 :=
  padded aad ++ (padded ciphertext ++
    (bigEndian 8 (8 * aad.length) ++ bigEndian 8 (8 * ciphertext.length)))

def nonceString (iv : List UInt8) : List UInt8 :=
  padded iv ++ (List.replicate 8 0 ++ bigEndian 8 (8 * iv.length))

/-- The block before the first counter: a nonce of 96 bits as it is, any other one hashed. -/
def IsJ0 (h iv j0 : List UInt8) : Prop :=
  if iv.length = 12 then j0 = iv ++ [0, 0, 0, 1]
  else j0.length = 16 ∧ blockElement j0 = ghash h (nonceString iv)

/-- The tag of SP 800-38D under a block function. -/
def IsGcmTag (encryptBlock : BlockFunction) (iv aad ciphertext : List UInt8) (tagLength : Nat)
    (tag : List UInt8) : Prop :=
  ∃ h j0 s y, encryptBlock zeroBlock = .ok h ∧ IsJ0 h iv j0 ∧ encryptBlock j0 = .ok s ∧
    y.length = 16 ∧ blockElement y = ghash h (tagString aad ciphertext) ∧
    tag = (xorBlocks s y).take tagLength

section Tag

variable {h iv j0 aad ciphertext : List UInt8}

theorem stored_length {n : Nat} (hn : n ≤ maxBitStringBytes) :
    cryptoStore64Be (UInt64.ofNat (n * 8)) = bigEndian 8 (8 * n) := by
  have hlt : n * 8 < 2 ^ 64 := by
    rw [maxBitStringBytes] at hn
    omega
  rw [cryptoStore64Be_eq, UInt64.toNat_ofNat_of_lt' hlt, Nat.mul_comm]

theorem zeroBlock_element : blockElement zeroBlock = 0 := element_zero

theorem gcmMakeJ0_spec (hh : h.length = 16) (hiv : iv.length ≤ maxBitStringBytes) :
    ∃ j0, gcmMakeJ0 h iv = .ok j0 ∧ j0.length = 16 ∧ IsJ0 h iv j0 := by
  rw [gcmMakeJ0]
  by_cases htwelve : iv.length = 12
  · rw [if_pos htwelve]
    refine ⟨_, rfl, ?_, ?_⟩
    · rw [List.length_append, htwelve]
      rfl
    · rw [IsJ0, if_pos htwelve]
  · have hlengths : (List.replicate 8 0 ++ bigEndian 8 (8 * iv.length)).length = 16 := by simp
    obtain ⟨hlength, hvalue⟩ := ghashBytes_element hh iv (y := zeroBlock) rfl
    obtain ⟨hlength', hvalue'⟩ := ghashBlock_element hlength hh hlengths
    rw [if_neg htwelve, if_neg (not_lt.mpr hiv), stored_length hiv]
    refine ⟨_, rfl, hlength', ?_⟩
    rw [IsJ0, if_neg htwelve]
    refine ⟨hlength', ?_⟩
    rw [ghash_eq, nonceString, ghashFrom_append (padded_length iv), ghashFrom_block hlengths,
      ← zeroBlock_element, ← hvalue]
    exact hvalue'

theorem gcmTag_spec {encryptBlock : BlockFunction} {s : List UInt8} (hh : h.length = 16)
    (haad : aad.length ≤ maxBitStringBytes) (hciphertext : ciphertext.length ≤ maxBitStringBytes)
    (hs : encryptBlock j0 = .ok s) (hlength : s.length = 16) :
    ∃ y, y.length = 16 ∧ blockElement y = ghash h (tagString aad ciphertext) ∧
      gcmTag encryptBlock h j0 aad ciphertext = .ok (xorBlocks s y) := by
  have hlengths : (bigEndian 8 (8 * aad.length) ++ bigEndian 8 (8 * ciphertext.length)).length =
      16 := by simp
  obtain ⟨hfirst, hfirstValue⟩ := ghashBytes_element hh aad (y := zeroBlock) rfl
  obtain ⟨hsecond, hsecondValue⟩ := ghashBytes_element hh ciphertext hfirst
  obtain ⟨hlast, hlastValue⟩ := ghashBlock_element hsecond hh hlengths
  refine ⟨_, hlast, ?_, ?_⟩
  · rw [ghash_eq, tagString, ghashFrom_append (padded_length aad),
      ghashFrom_append (padded_length ciphertext), ghashFrom_block hlengths, ← zeroBlock_element,
      ← hfirstValue, ← hsecondValue]
    exact hlastValue
  · have hinternal : encryptInternal encryptBlock j0 = .ok s := by rw [encryptInternal, hs]
    rw [gcmTag, if_neg (by omega), stored_length haad, stored_length hciphertext, hinternal,
      ← xorBlock_eq hlength hlast]

end Tag

def WritesBlocks (encryptBlock : BlockFunction) : Prop :=
  ∀ block result, encryptBlock block = .ok result → result.length = 16

theorem libraryAes_writesBlocks (key : List UInt8) (encryptBlock : BlockFunction)
    (h : cmacCipher .aes key = .ok encryptBlock) : WritesBlocks encryptBlock := by
  intro block result hresult
  rw [cmacCipher] at h
  cases hcontext : cryptoAesContextInit key with
  | error e =>
    rw [hcontext] at h
    cases h
  | ok context =>
    rw [hcontext] at h
    cases h
    rw [cryptoAesEncryptBlock] at hresult
    split_ifs at hresult
    cases hresult
    exact encryptState_length context block

/-- What an encryption computes ends in the tag of the standard. -/
theorem gcmSealed_tag {encryptBlock : BlockFunction} (hblocks : WritesBlocks encryptBlock)
    {tagLength : Nat} {iv aad plaintext ciphertext tag : List UInt8}
    (h : gcmSealed encryptBlock tagLength iv aad plaintext = .ok (ciphertext, tag)) :
    IsGcmTag encryptBlock iv aad ciphertext tagLength tag := by
  obtain ⟨hash, hhash, hrest⟩ := bind_eq_ok.mp h
  obtain ⟨j0, hj0, hrest⟩ := bind_eq_ok.mp hrest
  obtain ⟨stream, -, hrest⟩ := bind_eq_ok.mp hrest
  obtain ⟨fullTag, htag, hlast⟩ := bind_eq_ok.mp hrest
  cases hlast
  have hlength := hblocks _ _ hhash
  have hiv : iv.length ≤ maxBitStringBytes := by
    by_contra hlarge
    rw [gcmMakeJ0, if_neg (by rw [maxBitStringBytes] at hlarge; omega),
      if_pos (not_le.mp hlarge)] at hj0
    cases hj0
  obtain ⟨made, hmade, -, hisJ0⟩ := gcmMakeJ0_spec hlength hiv
  cases hmade.symm.trans hj0
  have hsizes : aad.length ≤ maxBitStringBytes ∧
      (KeystreamXor.xorBytes plaintext stream).length ≤ maxBitStringBytes := by
    by_contra hlarge
    rw [gcmTag, if_pos (by omega)] at htag
    cases htag
  cases hs : encryptBlock j0 with
  | error e =>
    rw [gcmTag, if_neg (by omega), encryptInternal, hs] at htag
    cases htag
  | ok s =>
    obtain ⟨y, hy, hvalue, hmadeTag⟩ := gcmTag_spec hlength hsizes.1 hsizes.2 hs (hblocks _ _ hs)
    cases hmadeTag.symm.trans htag
    exact ⟨hash, j0, s, y, hhash, hisJ0, hs, hy, hvalue, rfl⟩

theorem accepted_of_ok {aes : AesCipher} {r : Request} {tagCapacity : Nat} {alg : LiberaCAlgID}
    {memory : Memory} (h : (liberacAeadEncrypt aes r tagCapacity alg memory).1 = .ok ()) :
    ∃ parameters, Accepted alg parameters r ∧ r.tagLength ≤ tagCapacity := by
  rw [liberacAeadEncrypt] at h
  cases hparameters : aeadParameters alg with
  | error e =>
    rw [hparameters, compute_error_bind] at h
    cases h
  | ok parameters =>
    rw [hparameters, compute_ok_bind] at h
    cases hvalidated : aeadValidateRequest r alg parameters with
    | error e =>
      rw [hvalidated, compute_error_bind] at h
      cases h
    | ok u =>
      rw [hvalidated, compute_ok_bind] at h
      by_cases hcapacity : tagCapacity < r.tagLength
      · rw [if_pos hcapacity, compute_error_bind] at h
        cases h
      · exact ⟨parameters, ⟨hparameters, hvalidated⟩, not_lt.mp hcapacity⟩

theorem encrypted_tag {aes : AesCipher}
    (haes : ∀ key encryptBlock, aes key = .ok encryptBlock → WritesBlocks encryptBlock)
    {r : Request} {tagCapacity : Nat} {alg : LiberaCAlgID} {memory : Memory}
    {parameters : AeadParameters} (hparameters : aeadParameters alg = .ok parameters)
    (hfamily : parameters.family = .aesGcm)
    (h : (liberacAeadEncrypt aes r tagCapacity alg memory).1 = .ok ()) :
    ∃ encryptBlock, aes (readBytes memory r.key r.keyLength) = .ok encryptBlock ∧
      IsGcmTag encryptBlock (readBytes memory r.nonce r.nonceLength)
        (readBytes memory r.aad r.aadLength)
        (readBytes (liberacAeadEncrypt aes r tagCapacity alg memory).2 r.output r.inputLength)
        r.tagLength
        (readBytes (liberacAeadEncrypt aes r tagCapacity alg memory).2 r.tag r.tagLength) := by
  obtain ⟨parameters', haccepted, hcapacity⟩ := accepted_of_ok h
  cases haccepted.supported.symm.trans hparameters
  obtain ⟨hstatus, hbytes⟩ := encrypt_bytes aes memory haccepted hcapacity
  rw [hfamily] at hstatus hbytes
  cases hsealed : aeadSealed aes .aesGcm (inputsOf r memory)
      (readBytes memory r.input r.inputLength) with
  | error e =>
    rw [hsealed, h] at hstatus
    cases hstatus
  | ok sealed =>
    obtain ⟨ciphertext, tag⟩ := sealed
    obtain ⟨hciphertext, htag⟩ := hbytes ciphertext tag hsealed
    obtain ⟨encryptBlock, hkey, hrest⟩ := bind_eq_ok.mp hsealed
    obtain ⟨-, -, hgcm⟩ := bind_eq_ok.mp hrest
    refine ⟨encryptBlock, hkey, ?_⟩
    rw [hciphertext, htag]
    exact gcmSealed_tag (haes _ _ hkey) hgcm

theorem gmac_tag {aes : AesCipher}
    (haes : ∀ key encryptBlock, aes key = .ok encryptBlock → WritesBlocks encryptBlock)
    {r : Request} {tagCapacity : Nat} {alg : LiberaCAlgID} {memory : Memory}
    (h : (liberacGmac aes r tagCapacity alg memory).1 = .ok ()) :
    ∃ encryptBlock, aes (readBytes memory r.key r.keyLength) = .ok encryptBlock ∧
      IsGcmTag encryptBlock (readBytes memory r.nonce r.nonceLength)
        (readBytes memory r.aad r.aadLength) [] r.tagLength
        (readBytes (liberacGmac aes r tagCapacity alg memory).2 r.tag r.tagLength) := by
  cases hcheck : gmacCheck r tagCapacity alg with
  | error e =>
    rw [liberacGmac, hcheck, compute_error_bind] at h
    cases h
  | ok u =>
    have hcall : liberacGmac aes r tagCapacity alg memory =
        liberacAeadEncrypt aes (macRequest r) tagCapacity alg memory := by
      rw [liberacGmac, hcheck, compute_ok_bind]
    have hvalid : gmacAlgorithmValid alg = true := by
      by_contra hnot
      rw [gmacCheck, if_pos hnot] at hcheck
      cases hcheck
    obtain ⟨parameters, hparameters, hfamily⟩ : ∃ parameters,
        aeadParameters alg = .ok parameters ∧ parameters.family = .aesGcm := by
      cases alg
      case aes128Gcm | aes192Gcm | aes256Gcm => exact ⟨_, rfl, rfl⟩
      all_goals cases hvalid
    have hnothing : ∀ after, readBytes after (macRequest r).output (macRequest r).inputLength = [] :=
      fun _ => rfl
    rw [hcall] at h ⊢
    have htag := encrypted_tag haes hparameters hfamily h
    rw [hnothing] at htag
    exact htag

/-- The multiplication is that of the field of 2^128 elements, and the tags of encryptions and of
GMAC are those of SP 800-38D. -/
theorem gcm_sp800_38d :
    (Irreducible gcmPolynomial ∧
      (∀ x y : List UInt8, x.length = 16 → y.length = 16 → blockElement x = blockElement y → x = y) ∧
      ∀ x h : List UInt8, x.length = 16 → h.length = 16 → (gcmMultiply x h).length = 16 ∧
        blockElement (gcmMultiply x h) = blockElement x * blockElement h) ∧
    (∀ encryptBlock encrypt, Encrypts encryptBlock 16 encrypt → ∀ iv aad ciphertext : List UInt8,
      iv.length ≤ maxBitStringBytes → aad.length ≤ maxBitStringBytes →
      ciphertext.length ≤ maxBitStringBytes → ∀ tagLength, ∃ j0 fullTag,
        gcmMakeJ0 (encrypt zeroBlock) iv = .ok j0 ∧
        gcmTag encryptBlock (encrypt zeroBlock) j0 aad ciphertext = .ok fullTag ∧
        IsGcmTag encryptBlock iv aad ciphertext tagLength (fullTag.take tagLength)) ∧
    ∀ aes : AesCipher, (∀ key encryptBlock, aes key = .ok encryptBlock → WritesBlocks encryptBlock) →
      ∀ (r : Request) tagCapacity alg memory,
        (∀ parameters, aeadParameters alg = .ok parameters → parameters.family = .aesGcm →
          (liberacAeadEncrypt aes r tagCapacity alg memory).1 = .ok () →
          ∃ encryptBlock, aes (readBytes memory r.key r.keyLength) = .ok encryptBlock ∧
            IsGcmTag encryptBlock (readBytes memory r.nonce r.nonceLength)
              (readBytes memory r.aad r.aadLength)
              (readBytes (liberacAeadEncrypt aes r tagCapacity alg memory).2 r.output r.inputLength)
              r.tagLength
              (readBytes (liberacAeadEncrypt aes r tagCapacity alg memory).2 r.tag r.tagLength)) ∧
        ((liberacGmac aes r tagCapacity alg memory).1 = .ok () →
          ∃ encryptBlock, aes (readBytes memory r.key r.keyLength) = .ok encryptBlock ∧
            IsGcmTag encryptBlock (readBytes memory r.nonce r.nonceLength)
              (readBytes memory r.aad r.aadLength) [] r.tagLength
              (readBytes (liberacGmac aes r tagCapacity alg memory).2 r.tag r.tagLength)) := by
  refine ⟨⟨gcmPolynomial_irreducible, fun x y hx hy h => blockElement_injective hx hy h,
    fun x h hx hh => gcmMultiply_element hx hh⟩, ?_, ?_⟩
  · intro encryptBlock encrypt hencrypts iv aad ciphertext hiv haad hciphertext tagLength
    obtain ⟨hhash, hlength⟩ := hencrypts zeroBlock rfl
    obtain ⟨j0, hj0, hj0Length, hisJ0⟩ := gcmMakeJ0_spec hlength hiv
    obtain ⟨hs, hsLength⟩ := hencrypts j0 hj0Length
    obtain ⟨y, hy, hvalue, htag⟩ := gcmTag_spec hlength haad hciphertext hs hsLength
    exact ⟨j0, _, hj0, htag, _, j0, _, y, hhash, hisJ0, hs, hy, hvalue, rfl⟩
  · intro aes haes r tagCapacity alg memory
    exact ⟨fun parameters hparameters hfamily h => encrypted_tag haes hparameters hfamily h,
      fun h => gmac_tag haes h⟩

def zeroRequest : Request := ⟨0, 0, 100, 12, 0, 0, 200, 16, 300, 12, 0, 0⟩

/-- A hashed nonce under the identity as block function, and the AES of the library under a key of
zeros. -/
theorem gcm_sp800_38d_examples :
    (∃ j0 fullTag, gcmMakeJ0 zeroBlock [1, 2, 3] = .ok j0 ∧
      gcmTag (fun block => .ok block) zeroBlock j0 [4] [5, 6] = .ok fullTag ∧
      IsGcmTag (fun block => .ok block) [1, 2, 3] [4] [5, 6] 12 (fullTag.take 12)) ∧
    ∃ encryptBlock, cmacCipher .aes (List.replicate 16 0) = .ok encryptBlock ∧
      IsGcmTag encryptBlock (List.replicate 12 0) [] [] 12
        (readBytes (liberacGmac (cmacCipher .aes) zeroRequest 16 .aes128Gcm ⟨fun _ => 0⟩).2 100 12) :=
  ⟨gcm_sp800_38d.2.1 (fun block => .ok block) id (fun _ h => ⟨rfl, h⟩) [1, 2, 3] [4] [5, 6]
      (by decide) (by decide) (by decide) 12,
    (gcm_sp800_38d.2.2 (cmacCipher .aes) libraryAes_writesBlocks zeroRequest 16 .aes128Gcm
      ⟨fun _ => 0⟩).2 (by decide +kernel)⟩

end LiberaCrypt.Gmac
