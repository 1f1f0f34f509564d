import LiberaCrypt.AesBlock
import LiberaCrypt.BlockLoop
import LiberaCrypt.Def
import LiberaCrypt.TripleDes

namespace LiberaCrypt.BlockCipher

open LiberaCrypt.AesAead LiberaCrypt.AesBlock LiberaCrypt.BlockLoop LiberaCrypt.ByteMemory
open LiberaCrypt.Def LiberaCrypt.KeystreamXor LiberaCrypt.Outcome LiberaCrypt.TripleDes

inductive BlockCipherFamily
  | aes
  | tdes
  deriving DecidableEq

inductive CryptoAesMode
  | ecb
  | cbc
  | ctr
  deriving DecidableEq

inductive CryptoTdesMode
  | ecb
  | cbc
  deriving DecidableEq

structure BlockCipherParameters where
  keyLength : Nat
  mode : CryptoAesMode
  family : BlockCipherFamily
  tdesMode : CryptoTdesMode

def blockCipherParameters : LiberaCAlgID → Except LiberaCError BlockCipherParameters
  | .tdesEde3Ecb => .ok ⟨24, .ecb, .tdes, .ecb⟩
  | .tdesEde3Cbc => .ok ⟨24, .cbc, .tdes, .cbc⟩
  | .aes128Ecb => .ok ⟨16, .ecb, .aes, .ecb⟩
  | .aes192Ecb => .ok ⟨24, .ecb, .aes, .ecb⟩
  | .aes256Ecb => .ok ⟨32, .ecb, .aes, .ecb⟩
  | .aes128Cbc => .ok ⟨16, .cbc, .aes, .ecb⟩
  | .aes192Cbc => .ok ⟨24, .cbc, .aes, .ecb⟩
  | .aes256Cbc => .ok ⟨32, .cbc, .aes, .ecb⟩
  | .aes128Ctr => .ok ⟨16, .ctr, .aes, .ecb⟩
  | .aes192Ctr => .ok ⟨24, .ctr, .aes, .ecb⟩
  | .aes256Ctr => .ok ⟨32, .ctr, .aes, .ecb⟩
  | _ => .error .invalidAlgId

/-- The pointers of a call and the lengths that go with them. -/
structure CipherRequest where
  output : Nat
  outputCapacity : Nat
  input : Nat
  inputLength : Nat
  key : Nat
  keyLength : Nat
  iv : Nat
  ivLength : Nat

section Aes

variable (context : AesContext) (r : CipherRequest)

def ecbStep (cipher : BlockFunction) (offset : Nat) (_ : Unit) : OnMemory Unit := do
  let block ← load (r.input + offset) 16
  let result ← compute (cipher block)
  store (r.output + offset) result

def aesEcb (cipher : BlockFunction) : OnMemory Unit :=
  offsetLoop 16 (ecbStep r cipher) r.inputLength 0 ()

def aesEcbEncrypt : OnMemory Unit := aesEcb r (cryptoAesEncryptBlock context)

def aesEcbDecrypt : OnMemory Unit := aesEcb r (cryptoAesDecryptBlock context)

def cbcEncryptStep (offset : Nat) (chain : List UInt8) : OnMemory (List UInt8) := do
  let block ← load (r.input + offset) 16
  let result ← compute (cryptoAesEncryptBlock context (xorBlock block chain))
  store (r.output + offset) result
  load (r.output + offset) 16

def aesCbcEncrypt (iv : List UInt8) : OnMemory Unit :=
  offsetLoop 16 (cbcEncryptStep context r) r.inputLength 0 iv

def cbcDecryptStep (offset : Nat) (chain : List UInt8) : OnMemory (List UInt8) := do
  let cipherBlock ← load (r.input + offset) 16
  let block ← compute (cryptoAesDecryptBlock context cipherBlock)
  store (r.output + offset) (xorBlock block chain)
  return cipherBlock

def aesCbcDecrypt (iv : List UInt8) : OnMemory Unit :=
  offsetLoop 16 (cbcDecryptStep context r) r.inputLength 0 iv

def incrementCounter128 (counter : List UInt8) : List UInt8 := incrementBytes 16 15 counter

def ctrNext (_more : Bool) (counter : List UInt8) : Except LiberaCError (List UInt8 × List UInt8) :=
  match cryptoAesEncryptBlock context counter with
  | .error e => .error e
  | .ok stream => .ok (stream, incrementCounter128 counter)

def aesCtrCrypt (initialCounter : List UInt8) : OnMemory Unit :=
  xorLoop 16 (fun _ => ctrNext context) r.output r.input r.inputLength 0 initialCounter

def aesValidateRequest (expectedKeyLength : Nat) (mode : CryptoAesMode) :
    Except LiberaCError Unit :=
  if r.key = 0 ∨ (r.input = 0 ∧ r.inputLength ≠ 0) ∨ (r.output = 0 ∧ r.inputLength ≠ 0) then
    .error .invalidArgument
  else if r.keyLength ≠ expectedKeyLength then .error .invalidKey
  else if expectedKeyLength ≠ 16 ∧ expectedKeyLength ≠ 24 ∧ expectedKeyLength ≠ 32 then
    .error .invalidKey
  else
    let refused := match mode with
      | .ecb => r.ivLength ≠ 0 || r.inputLength % 16 ≠ 0
      | .cbc => r.iv = 0 || r.ivLength ≠ 16 || r.inputLength % 16 ≠ 0
      | .ctr => r.iv = 0 || r.ivLength ≠ 16
    if refused then .error .invalidArgument
    else if r.outputCapacity < r.inputLength then .error .bufferTooSmall
    else .ok ()

def cryptoAesEncrypt (expectedKeyLength : Nat) (mode : CryptoAesMode) : OnMemory Unit := do
  compute (aesValidateRequest r expectedKeyLength mode)
  let key ← load r.key r.keyLength
  let context ← compute (cryptoAesContextInit key)
  let iv ← load r.iv r.ivLength
  match mode with
  | .ecb => aesEcbEncrypt context r
  | .cbc => aesCbcEncrypt context r iv
  | .ctr => aesCtrCrypt context r iv

def cryptoAesDecrypt (expectedKeyLength : Nat) (mode : CryptoAesMode) : OnMemory Unit := do
  compute (aesValidateRequest r expectedKeyLength mode)
  let key ← load r.key r.keyLength
  let context ← compute (cryptoAesContextInit key)
  let iv ← load r.iv r.ivLength
  match mode with
  | .ecb => aesEcbDecrypt context r
  | .cbc => aesCbcDecrypt context r iv
  | .ctr => aesCtrCrypt context r iv

end Aes

section Tdes

variable (mode : CryptoTdesMode) (encrypt : Bool)

def tdesBody (roundKeys : RoundKeys) : Body UInt64 := fun chain bytes =>
  let block := load64Be bytes
  let block := if encrypt = true ∧ mode = .cbc then block ^^^ chain else block
  let result := tripleDesBlock block roundKeys encrypt
  if encrypt = false ∧ mode = .cbc then (store64Be (result ^^^ chain), block)
  else if mode = .cbc then (store64Be result, result)
  else (store64Be result, chain)

def tdesStep (roundKeys : RoundKeys) (r : CipherRequest) (offset : Nat) (chain : UInt64) :
    OnMemory UInt64 := do
  let bytes ← load (r.input + offset) 8
  let made := tdesBody mode encrypt roundKeys chain bytes
  store (r.output + offset) made.1
  return made.2

def tdesValidateRequest (r : CipherRequest) : Except LiberaCError Unit :=
  if r.key = 0 ∨ ((r.input = 0 ∨ r.output = 0) ∧ r.inputLength ≠ 0) then .error .invalidArgument
  else if r.keyLength ≠ 24 then .error .invalidKey
  else if r.inputLength % 8 ≠ 0 then .error .invalidArgument
  else
    let refused := match mode with
      | .ecb => decide (r.ivLength ≠ 0)
      | .cbc => r.iv = 0 || r.ivLength ≠ 8
    if refused then .error .invalidArgument
    else if r.outputCapacity < r.inputLength then .error .bufferTooSmall
    else .ok ()

def cryptoTdesEde3Crypt (r : CipherRequest) : OnMemory Unit := do
  compute (tdesValidateRequest mode r)
  let iv ← load r.iv r.ivLength
  let chain := if mode = .cbc then load64Be iv else 0
  let key ← load r.key r.keyLength
  offsetLoop 8 (tdesStep mode encrypt (scheduleKeys key) r) r.inputLength 0 chain

end Tdes

def liberacBlockCipherEncrypt (alg : LiberaCAlgID) (r : CipherRequest) : OnMemory Unit := do
  let parameters ← compute (blockCipherParameters alg)
  if parameters.family = .tdes then cryptoTdesEde3Crypt parameters.tdesMode true r
  else cryptoAesEncrypt r parameters.keyLength parameters.mode

def liberacBlockCipherDecrypt (alg : LiberaCAlgID) (r : CipherRequest) : OnMemory Unit := do
  let parameters ← compute (blockCipherParameters alg)
  if parameters.family = .tdes then cryptoTdesEde3Crypt parameters.tdesMode false r
  else cryptoAesDecrypt r parameters.keyLength parameters.mode

def ecbBody (cipher : List UInt8 → List UInt8) : Body Unit := fun _ block => (cipher block, ())

def cbcEncryptBody (cipher : List UInt8 → List UInt8) : Body (List UInt8) := fun chain block =>
  (cipher (xorBlock block chain), cipher (xorBlock block chain))

def cbcDecryptBody (cipher : List UInt8 → List UInt8) : Body (List UInt8) := fun chain block =>
  (xorBlock (cipher block) chain, block)

section Bodies

variable {f g : List UInt8 → List UInt8} {context : AesContext}

theorem ecbBody_keepsLength (hf : ∀ block, (f block).length = 16) :
    (ecbBody f).KeepsLength 16 := fun _ block _ => hf block

theorem cbcEncryptBody_keepsLength (hf : ∀ block, (f block).length = 16) :
    (cbcEncryptBody f).KeepsLength 16 := fun _ _ _ => hf _

theorem cbcDecryptBody_keepsLength : (cbcDecryptBody f).KeepsLength 16 :=
  fun _ _ _ => xorBlock_length _ _

theorem xorBlock_twice {block : List UInt8} (h : block.length = 16) (chain : List UInt8) :
    xorBlock (xorBlock block chain) chain = block := addRoundKey_twice h chain

theorem ecbBody_undoes (h : ∀ block, block.length = 16 → g (f block) = block) :
    Undoes 16 (ecbBody f) (ecbBody g) := fun _ block hblock => by
  rw [ecbBody, ecbBody, h block hblock]

theorem cbcDecrypt_undoes (h : ∀ block, block.length = 16 → g (f block) = block) :
    Undoes 16 (cbcEncryptBody f) (cbcDecryptBody g) := fun chain block hblock => by
  rw [cbcEncryptBody, cbcDecryptBody, h _ (xorBlock_length _ _), xorBlock_twice hblock]

theorem cbcEncrypt_undoes (hg : ∀ block, (g block).length = 16)
    (h : ∀ block, block.length = 16 → f (g block) = block) :
    Undoes 16 (cbcDecryptBody g) (cbcEncryptBody f) := fun chain block hblock => by
  rw [cbcEncryptBody, cbcDecryptBody, xorBlock_twice (hg block), h block hblock]

theorem tdesBody_keepsLength (mode : CryptoTdesMode) (encrypt : Bool) (roundKeys : RoundKeys) :
    (tdesBody mode encrypt roundKeys).KeepsLength 8 := by
  intro chain block hblock
  cases mode <;> cases encrypt <;> rfl

theorem tdesBody_undoes (mode : CryptoTdesMode) (encrypt : Bool) (roundKeys : RoundKeys) :
    Undoes 8 (tdesBody mode encrypt roundKeys) (tdesBody mode (!encrypt) roundKeys) := by
  intro chain block hblock
  have hcancel : ∀ x y : UInt64, x ^^^ y ^^^ y = x := by
    intro x y
    rw [UInt64.xor_assoc, UInt64.xor_self, UInt64.xor_zero]
  have hinverse := fun x => tripleDesBlock_inverse x roundKeys encrypt
  cases mode <;> cases encrypt <;>
    simp only [Bool.not_true, Bool.not_false] at hinverse <;>
    simp [tdesBody, load64Be_store64Be, hinverse, hcancel, store64Be_load64Be hblock]

end Bodies

def ctrStream (context : AesContext) (length : Nat) (iv : List UInt8) : List UInt8 :=
  match keystream 16 (ctrNext context) length iv with
  | .ok stream => stream
  | .error _ => []

def aesBytes (context : AesContext) (mode : CryptoAesMode) (encrypt : Bool) (iv data : List UInt8) :
    List UInt8 :=
  match mode, encrypt with
  | .ecb, true => transform 16 (ecbBody (encryptState context)) (data.length / 16) () data
  | .ecb, false => transform 16 (ecbBody (decryptState context)) (data.length / 16) () data
  | .cbc, true => transform 16 (cbcEncryptBody (encryptState context)) (data.length / 16) iv data
  | .cbc, false => transform 16 (cbcDecryptBody (decryptState context)) (data.length / 16) iv data
  | .ctr, _ => xorBytes data (ctrStream context data.length iv)

def tdesBytes (key : List UInt8) (mode : CryptoTdesMode) (encrypt : Bool) (iv data : List UInt8) :
    List UInt8 :=
  transform 8 (tdesBody mode encrypt (scheduleKeys key)) (data.length / 8)
    (if mode = .cbc then load64Be iv else 0) data

def cipherBytes (parameters : BlockCipherParameters) (encrypt : Bool) (key iv data : List UInt8) :
    List UInt8 :=
  match parameters.family with
  | .tdes => tdesBytes key parameters.tdesMode encrypt iv data
  | .aes =>
    match cryptoAesContextInit key with
    | .ok context => aesBytes context parameters.mode encrypt iv data
    | .error _ => []

section Inverse

variable {context : AesContext}

theorem ctrNext_valid (h : aesContextValid context = true) (more : Bool) (counter : List UInt8) :
    ctrNext context more counter = .ok (encryptState context counter, incrementCounter128 counter) := by
  rw [ctrNext, cryptoAesEncryptBlock_valid h]

theorem keystream_ctrStream (h : aesContextValid context = true) (length : Nat) (iv : List UInt8) :
    keystream 16 (ctrNext context) length iv = .ok (ctrStream context length iv) := by
  obtain ⟨stream, hstream⟩ := keystream_total 16 (ctrNext context)
    (fun more counter => ⟨_, ctrNext_valid h more counter⟩) length iv
  rw [ctrStream, hstream]

theorem ctrStream_length (h : aesContextValid context = true) (length : Nat) (iv : List UInt8) :
    (ctrStream context length iv).length = length :=
  keystream_length (by decide) (keystream_ctrStream h length iv)

variable {data : List UInt8}

theorem length_blocks {n : Nat} (h : data.length % n = 0) : data.length = n * (data.length / n) :=
  (Nat.mul_div_cancel' (Nat.dvd_of_mod_eq_zero h)).symm

/-- The output is as long as the input, and the other direction gives the input back. -/
theorem aesBytes_inverse (h : aesContextValid context = true) (mode : CryptoAesMode) (encrypt : Bool)
    (iv : List UInt8) (hwhole : mode ≠ .ctr → data.length % 16 = 0) :
    (aesBytes context mode encrypt iv data).length = data.length ∧
      aesBytes context mode (!encrypt) iv (aesBytes context mode encrypt iv data) = data := by
  have hforward := fun block hblock => @decryptState_encryptState context block hblock
  have hback := fun block hblock => @encryptState_decryptState context block hblock
  have hblocks : ∀ {σ : Type} {f g : Body σ} (s : σ), data.length % 16 = 0 → f.KeepsLength 16 →
      Undoes 16 f g → (transform 16 f (data.length / 16) s data).length = data.length ∧
        transform 16 g ((transform 16 f (data.length / 16) s data).length / 16) s
          (transform 16 f (data.length / 16) s data) = data := by
    intro σ f g s hmod hf hundo
    have hlength := (transform_length hf (length_blocks hmod) (s := s)).trans
      (length_blocks hmod).symm
    rw [hlength]
    exact ⟨rfl, transform_undo hf hundo (length_blocks hmod)⟩
  cases mode with
  | ecb =>
    have hmod := hwhole (by decide)
    cases encrypt with
    | true =>
      exact hblocks () hmod (ecbBody_keepsLength (encryptState_length context)) (ecbBody_undoes hforward)
    | false =>
      exact hblocks () hmod (ecbBody_keepsLength (decryptState_length context)) (ecbBody_undoes hback)
  | cbc =>
    have hmod := hwhole (by decide)
    cases encrypt with
    | true =>
      exact hblocks iv hmod (cbcEncryptBody_keepsLength (encryptState_length context))
        (cbcDecrypt_undoes hforward)
    | false =>
      exact hblocks iv hmod cbcDecryptBody_keepsLength
        (cbcEncrypt_undoes (decryptState_length context) hback)
  | ctr =>
    have hstream := ctrStream_length h data.length iv
    have hlength := xorBytes_length hstream
    refine ⟨hlength, ?_⟩
    rw [aesBytes, aesBytes, hlength, xorBytes_twice hstream]

theorem tdesBytes_inverse (key : List UInt8) (mode : CryptoTdesMode) (encrypt : Bool)
    (iv : List UInt8) (hwhole : data.length % 8 = 0) :
    (tdesBytes key mode encrypt iv data).length = data.length ∧
      tdesBytes key mode (!encrypt) iv (tdesBytes key mode encrypt iv data) = data := by
  have hkeeps := tdesBody_keepsLength mode encrypt (scheduleKeys key)
  have hlength : (tdesBytes key mode encrypt iv data).length = data.length :=
    (transform_length hkeeps (length_blocks hwhole)).trans (length_blocks hwhole).symm
  refine ⟨hlength, ?_⟩
  rw [tdesBytes, hlength]
  exact transform_undo hkeeps (tdesBody_undoes mode encrypt _) (length_blocks hwhole)

end Inverse

def Writes (call : OnMemory Unit) (r : CipherRequest) (f : List UInt8 → List UInt8)
    (memory : Memory) : Prop :=
  call memory = (.ok (), writeBytes memory r.output (f (readBytes memory r.input r.inputLength)))

section Runs

variable {r : CipherRequest} {context : AesContext} {memory : Memory}

theorem aesEcb_writes {cipher : BlockFunction} {f : List UInt8 → List UInt8}
    (hcipher : ∀ block, cipher block = .ok (f block)) (hf : ∀ block, (f block).length = 16)
    (hapart : Apart r.output r.input r.inputLength) (hwhole : r.inputLength % 16 = 0) :
    Writes (aesEcb r cipher) r (fun data => transform 16 (ecbBody f) (data.length / 16) () data)
      memory := by
  have hturns : Turns 16 (ecbBody f) r.output r.input (ecbStep r cipher) := by
    intro offset s memory
    rw [ecbStep, load_bind, hcipher, compute_ok_bind]
    rfl
  have hrun := offsetLoop_run (by decide) hapart (ecbBody_keepsLength hf) hturns
    hwhole () memory
  rw [Writes, readBytes_length]
  exact hrun

theorem aesCbcEncrypt_writes (h : aesContextValid context = true) (iv : List UInt8)
    (hapart : Apart r.output r.input r.inputLength) (hwhole : r.inputLength % 16 = 0) :
    Writes (aesCbcEncrypt context r iv) r (aesBytes context .cbc true iv) memory := by
  have hturns : Turns 16 (cbcEncryptBody (encryptState context)) r.output r.input
      (cbcEncryptStep context r) := by
    intro offset chain memory
    have hblock := encryptState_length context
      (xorBlock (readBytes memory (r.input + offset) 16) chain)
    have hback := read_write memory (r.output + offset)
      (encryptState context (xorBlock (readBytes memory (r.input + offset) 16) chain))
    rw [hblock] at hback
    rw [cbcEncryptStep, load_bind, cryptoAesEncryptBlock_valid h, compute_ok_bind, store_bind, load,
      hback]
    rfl
  have hrun := offsetLoop_run (by decide) hapart
    (cbcEncryptBody_keepsLength (encryptState_length context)) hturns hwhole iv memory
  rw [Writes, aesBytes, readBytes_length]
  exact hrun

theorem aesCbcDecrypt_writes (h : aesContextValid context = true) (iv : List UInt8)
    (hapart : Apart r.output r.input r.inputLength) (hwhole : r.inputLength % 16 = 0) :
    Writes (aesCbcDecrypt context r iv) r (aesBytes context .cbc false iv) memory := by
  have hturns : Turns 16 (cbcDecryptBody (decryptState context)) r.output r.input
      (cbcDecryptStep context r) := by
    intro offset chain memory
    rw [cbcDecryptStep, load_bind, cryptoAesDecryptBlock_valid h, compute_ok_bind, store_bind]
    rfl
  have hrun := offsetLoop_run (by decide) hapart cbcDecryptBody_keepsLength
    hturns hwhole iv memory
  rw [Writes, aesBytes, readBytes_length]
  exact hrun

theorem aesCtrCrypt_writes (h : aesContextValid context = true) (encrypt : Bool) (iv : List UInt8)
    (hapart : Apart r.output r.input r.inputLength) :
    Writes (aesCtrCrypt context r iv) r (aesBytes context .ctr encrypt iv) memory := by
  have hstream := keystream_ctrStream h r.inputLength iv
  have hstable : ∀ bytes, bytes.length ≤ r.inputLength →
      (fun _ => ctrNext context) (writeBytes memory r.output bytes) =
        (fun _ : Memory => ctrNext context) memory := fun _ _ => rfl
  obtain ⟨bytes, -, hrun, hbytes⟩ := @xorLoop_run (List UInt8) 16 (fun _ => ctrNext context) r.output
    r.input r.inputLength memory (by decide) hapart hstable iv
  rw [hstream] at hrun
  rw [Writes, aesBytes, readBytes_length, ← hbytes _ hstream]
  exact hrun

theorem tdes_turns (mode : CryptoTdesMode) (encrypt : Bool) (roundKeys : RoundKeys) :
    Turns 8 (tdesBody mode encrypt roundKeys) r.output r.input
      (tdesStep mode encrypt roundKeys r) := by
  intro offset chain memory
  rw [tdesStep, load_bind, store_bind]
  rfl

end Runs

structure Admissible (parameters : BlockCipherParameters) (r : CipherRequest) : Prop where
  key : r.key ≠ 0
  keyLength : r.keyLength = parameters.keyLength
  buffers : r.inputLength ≠ 0 → r.input ≠ 0 ∧ r.output ≠ 0
  capacity : r.inputLength ≤ r.outputCapacity
  whole : parameters.mode ≠ .ctr →
    r.inputLength % (if parameters.family = .tdes then 8 else 16) = 0
  noIv : parameters.mode = .ecb → r.ivLength = 0
  iv : parameters.mode ≠ .ecb →
    r.iv ≠ 0 ∧ r.ivLength = if parameters.family = .tdes then 8 else 16
  apart : Apart r.output r.input r.inputLength

def liberacBlockCipher (encrypt : Bool) (alg : LiberaCAlgID) (r : CipherRequest) : OnMemory Unit :=
  if encrypt then liberacBlockCipherEncrypt alg r else liberacBlockCipherDecrypt alg r

section Calls

variable {alg : LiberaCAlgID} {parameters : BlockCipherParameters} {r : CipherRequest}

theorem parameters_tdes (h : blockCipherParameters alg = .ok parameters)
    (hfamily : parameters.family = .tdes) :
    parameters.keyLength = 24 ∧
      (parameters.mode = .ecb ∧ parameters.tdesMode = .ecb ∨
        parameters.mode = .cbc ∧ parameters.tdesMode = .cbc) := by
  cases alg <;> cases h <;> first | decide | exact absurd hfamily (by decide)

theorem parameters_aes (h : blockCipherParameters alg = .ok parameters)
    (hfamily : parameters.family = .aes) :
    parameters.keyLength = 16 ∨ parameters.keyLength = 24 ∨ parameters.keyLength = 32 := by
  cases alg <;> cases h <;> decide

theorem tdesValidateRequest_ok (h : blockCipherParameters alg = .ok parameters)
    (hfamily : parameters.family = .tdes) (hr : Admissible parameters r) :
    tdesValidateRequest parameters.tdesMode r = .ok () := by
  obtain ⟨hlength, hmode⟩ := parameters_tdes h hfamily
  have hwhole := hr.whole
  have hiv := hr.iv
  have hcapacity := not_lt.mpr hr.capacity
  have hbuffers : ¬ ((r.input = 0 ∨ r.output = 0) ∧ r.inputLength ≠ 0) := by
    rintro ⟨hnull, hlong⟩
    obtain ⟨hinput, houtput⟩ := hr.buffers hlong
    exact hnull.elim hinput houtput
  rw [if_pos hfamily] at hwhole hiv
  rcases hmode with ⟨hecb, htdes⟩ | ⟨hcbc, htdes⟩
  · have hmod := hwhole (by rw [hecb]; decide)
    simp [tdesValidateRequest, htdes, hr.key, hbuffers, hr.keyLength, hlength, hmod, hr.noIv hecb,
      hcapacity]
  · have hmod := hwhole (by rw [hcbc]; decide)
    obtain ⟨hpointer, hivLength⟩ := hiv (by rw [hcbc]; decide)
    simp [tdesValidateRequest, htdes, hr.key, hbuffers, hr.keyLength, hlength, hmod, hpointer,
      hivLength, hcapacity]

theorem aesValidateRequest_ok (h : blockCipherParameters alg = .ok parameters)
    (hfamily : parameters.family = .aes) (hr : Admissible parameters r) :
    aesValidateRequest r parameters.keyLength parameters.mode = .ok () := by
  have hlength := parameters_aes h hfamily
  have hwhole := hr.whole
  have hiv := hr.iv
  have hcapacity := not_lt.mpr hr.capacity
  have hpresent : ¬ (r.key = 0 ∨ (r.input = 0 ∧ r.inputLength ≠ 0) ∨
      (r.output = 0 ∧ r.inputLength ≠ 0)) := by
    rintro (hkey | ⟨hnull, hlong⟩ | ⟨hnull, hlong⟩)
    · exact hr.key hkey
    · exact (hr.buffers hlong).1 hnull
    · exact (hr.buffers hlong).2 hnull
  have hsize : ¬ (parameters.keyLength ≠ 16 ∧ parameters.keyLength ≠ 24 ∧
      parameters.keyLength ≠ 32) := by omega
  rw [hfamily, if_neg (by decide)] at hwhole hiv
  unfold aesValidateRequest
  rw [if_neg hpresent, if_neg (not_not.mpr hr.keyLength), if_neg hsize]
  cases hmode : parameters.mode with
  | ecb =>
    have hmod := hwhole (by rw [hmode]; decide)
    simp [hr.noIv hmode, hmod, hcapacity]
  | cbc =>
    have hmod := hwhole (by rw [hmode]; decide)
    obtain ⟨hpointer, hivLength⟩ := hiv (by rw [hmode]; decide)
    simp [hpointer, hivLength, hmod, hcapacity]
  | ctr =>
    obtain ⟨hpointer, hivLength⟩ := hiv (by rw [hmode]; decide)
    simp [hpointer, hivLength, hcapacity]

/-- Every admissible call writes what its key and its IV make of the input. -/
theorem liberacBlockCipher_writes (h : blockCipherParameters alg = .ok parameters)
    (hr : Admissible parameters r) (encrypt : Bool) (memory : Memory) :
    Writes (liberacBlockCipher encrypt alg r) r
      (cipherBytes parameters encrypt (readBytes memory r.key r.keyLength)
        (readBytes memory r.iv r.ivLength)) memory := by
  cases hfamily : parameters.family with
  | tdes =>
    have hwhole := hr.whole
    have hmode := parameters_tdes h hfamily
    rw [if_pos hfamily] at hwhole
    have hmod : r.inputLength % 8 = 0 := hwhole (by rcases hmode.2 with ⟨hm, -⟩ | ⟨hm, -⟩ <;> simp [hm])
    have hcall : liberacBlockCipher encrypt alg r memory =
        cryptoTdesEde3Crypt parameters.tdesMode encrypt r memory := by
      cases encrypt <;>
        simp [liberacBlockCipher, liberacBlockCipherEncrypt, liberacBlockCipherDecrypt, h, hfamily]
    rw [Writes, hcall, cryptoTdesEde3Crypt, tdesValidateRequest_ok h hfamily hr, compute_ok_bind,
      load_bind, load_bind, cipherBytes, hfamily, tdesBytes, readBytes_length]
    exact offsetLoop_run (by decide) hr.apart (tdesBody_keepsLength _ _ _) (tdes_turns _ _ _) hmod _ memory
  | aes =>
    obtain ⟨context, hcontext, hvalid⟩ := cryptoAesContextInit_valid
      (show (readBytes memory r.key r.keyLength).length = 16 ∨ _ from by
        rw [readBytes_length, hr.keyLength]
        exact parameters_aes h hfamily)
    have hwhole := hr.whole
    rw [hfamily, if_neg (by decide)] at hwhole
    have hload := aesValidateRequest_ok h hfamily hr
    have hbytes : ∀ data, cipherBytes parameters encrypt (readBytes memory r.key r.keyLength)
        (readBytes memory r.iv r.ivLength) data =
          aesBytes context parameters.mode encrypt (readBytes memory r.iv r.ivLength) data := by
      intro data
      unfold cipherBytes
      rw [hfamily]
      dsimp only
      rw [hcontext]
    rw [Writes, hbytes]
    cases encrypt with
    | true =>
      have hcall : liberacBlockCipher true alg r memory =
          cryptoAesEncrypt r parameters.keyLength parameters.mode memory := by
        simp [liberacBlockCipher, liberacBlockCipherEncrypt, h, hfamily]
      rw [hcall, cryptoAesEncrypt, hload, compute_ok_bind, load_bind, hcontext,
        compute_ok_bind, load_bind]
      cases hmode : parameters.mode with
      | ecb =>
        exact aesEcb_writes (cryptoAesEncryptBlock_valid hvalid) (encryptState_length context)
          hr.apart (hwhole (by rw [hmode]; decide))
      | cbc => exact aesCbcEncrypt_writes hvalid _ hr.apart (hwhole (by rw [hmode]; decide))
      | ctr => exact aesCtrCrypt_writes hvalid true _ hr.apart
    | false =>
      have hcall : liberacBlockCipher false alg r memory =
          cryptoAesDecrypt r parameters.keyLength parameters.mode memory := by
        simp [liberacBlockCipher, liberacBlockCipherDecrypt, h, hfamily]
      rw [hcall, cryptoAesDecrypt, hload, compute_ok_bind, load_bind, hcontext,
        compute_ok_bind, load_bind]
      cases hmode : parameters.mode with
      | ecb =>
        exact aesEcb_writes (cryptoAesDecryptBlock_valid hvalid) (decryptState_length context)
          hr.apart (hwhole (by rw [hmode]; decide))
      | cbc => exact aesCbcDecrypt_writes hvalid _ hr.apart (hwhole (by rw [hmode]; decide))
      | ctr => exact aesCtrCrypt_writes hvalid false _ hr.apart

theorem cipherBytes_inverse (h : blockCipherParameters alg = .ok parameters)
    (hr : Admissible parameters r) (encrypt : Bool) {key : List UInt8} (iv data : List UInt8)
    (hkey : key.length = r.keyLength) (hdata : data.length = r.inputLength) :
    (cipherBytes parameters encrypt key iv data).length = data.length ∧
      cipherBytes parameters (!encrypt) key iv (cipherBytes parameters encrypt key iv data) =
        data := by
  have hwhole := hr.whole
  unfold cipherBytes
  cases hfamily : parameters.family with
  | tdes =>
    have hmode := parameters_tdes h hfamily
    rw [if_pos hfamily] at hwhole
    apply tdesBytes_inverse
    rw [hdata]
    exact hwhole (by rcases hmode.2 with ⟨hm, -⟩ | ⟨hm, -⟩ <;> simp [hm])
  | aes =>
    obtain ⟨context, hcontext, hvalid⟩ := cryptoAesContextInit_valid
      (show key.length = 16 ∨ _ from by
        rw [hkey, hr.keyLength]
        exact parameters_aes h hfamily)
    rw [hfamily, if_neg (by decide)] at hwhole
    dsimp only
    rw [hcontext]
    apply aesBytes_inverse hvalid
    rwa [hdata]

end Calls

/-- The second call takes the output of the first for its input, under the same key and IV. -/
structure Follows (first second : CipherRequest) (before between : Memory) : Prop where
  input : second.input = first.output
  inputLength : second.inputLength = first.inputLength
  key : readBytes between second.key second.keyLength = readBytes before first.key first.keyLength
  iv : readBytes between second.iv second.ivLength = readBytes before first.iv first.ivLength

/-- Either direction succeeds and writes its output only, and the other one takes it back. -/
theorem blockCipher_roundTrip {alg : LiberaCAlgID} {parameters : BlockCipherParameters}
    (h : blockCipherParameters alg = .ok parameters) (encrypt : Bool) {first : CipherRequest}
    (hfirst : Admissible parameters first) (before : Memory) :
    ∃ bytes, bytes.length = first.inputLength ∧
      liberacBlockCipher encrypt alg first before =
        (.ok (), writeBytes before first.output bytes) ∧
      ∀ (second : CipherRequest) (between : Memory), Admissible parameters second →
        readBytes between first.output first.inputLength = bytes →
        Follows first second before between →
        liberacBlockCipher (!encrypt) alg second between =
          (.ok (), writeBytes between second.output
            (readBytes before first.input first.inputLength)) := by
  have hinverse := cipherBytes_inverse h hfirst encrypt (readBytes before first.iv first.ivLength)
    (readBytes before first.input first.inputLength) (readBytes_length before first.key _)
    (readBytes_length before first.input _)
  rw [readBytes_length] at hinverse
  refine ⟨_, hinverse.1, liberacBlockCipher_writes h hfirst encrypt before, ?_⟩
  intro second between hsecond hbytes hfollows
  have hwrites := liberacBlockCipher_writes h hsecond (!encrypt) between
  rw [Writes, hfollows.key, hfollows.iv, hfollows.input, hfollows.inputLength, hbytes,
    hinverse.2] at hwrites
  exact hwrites

def cbcInPlace : CipherRequest := ⟨16, 32, 16, 32, 100, 16, 200, 16⟩

theorem blockCipher_roundTrip_cbc : ∃ bytes : List UInt8, bytes.length = 32 ∧
    liberacBlockCipher true .aes128Cbc cbcInPlace ⟨fun _ => 7⟩ =
      (.ok (), writeBytes ⟨fun _ => 7⟩ 16 bytes) ∧
    liberacBlockCipher false .aes128Cbc cbcInPlace (writeBytes ⟨fun _ => 7⟩ 16 bytes) =
      (.ok (), writeBytes (writeBytes ⟨fun _ => 7⟩ 16 bytes) 16 (List.replicate 32 7)) := by
  have hadmissible : Admissible ⟨16, .cbc, .aes, .ecb⟩ cbcInPlace :=
    ⟨by decide, rfl, by decide, by decide, by decide, by decide, by decide, .inl rfl⟩
  obtain ⟨bytes, hlength, hfirst, hsecond⟩ := blockCipher_roundTrip
    (show blockCipherParameters .aes128Cbc = .ok ⟨16, .cbc, .aes, .ecb⟩ from rfl) true hadmissible
    ⟨fun _ => 7⟩
  have hread : ∀ other, 48 ≤ other → readBytes (writeBytes ⟨fun _ => 7⟩ 16 bytes) other 16 =
      readBytes ⟨fun _ => 7⟩ other 16 := by
    intro other hother
    apply read_write_disjoint
    intro i hi j hj
    change bytes.length = 32 at hlength
    omega
  have hwritten : readBytes (writeBytes ⟨fun _ => 7⟩ 16 bytes) 16 32 = bytes := by
    have hback := read_write ⟨fun _ => 7⟩ 16 bytes
    rwa [hlength] at hback
  exact ⟨bytes, hlength, hfirst, hsecond cbcInPlace _ hadmissible hwritten
    ⟨rfl, rfl, hread 100 (by decide), hread 200 (by decide)⟩⟩

end LiberaCrypt.BlockCipher
