import LiberaCrypt.AesAead
import LiberaCrypt.ChaCha20Poly1305
import LiberaCrypt.Def

namespace LiberaCrypt.AuthenticatedEncryption

open LiberaCrypt.AeadRequest LiberaCrypt.AesAead LiberaCrypt.ByteMemory LiberaCrypt.ChaCha20Poly1305
open LiberaCrypt.Def LiberaCrypt.Outcome

inductive AeadFamily
  | aesGcm
  | aesCcm
  | chacha20Poly1305
  deriving DecidableEq

structure AeadParameters where
  keyLength : Nat
  family : AeadFamily

def aeadParameters : LiberaCAlgID → Except LiberaCError AeadParameters
  | .aes128Gcm => .ok ⟨16, .aesGcm⟩
  | .aes192Gcm => .ok ⟨24, .aesGcm⟩
  | .aes256Gcm => .ok ⟨32, .aesGcm⟩
  | .aes128Ccm => .ok ⟨16, .aesCcm⟩
  | .aes192Ccm => .ok ⟨24, .aesCcm⟩
  | .aes256Ccm => .ok ⟨32, .aesCcm⟩
  | .chacha20Poly1305 => .ok ⟨32, .chacha20Poly1305⟩
  | _ => .error .invalidAlgId

def liberacAeadNonceLengthValid (alg : LiberaCAlgID) (nonceLength : Nat) : Bool :=
  match aeadParameters alg with
  | .error _ => false
  | .ok parameters =>
    match parameters.family with
    | .aesGcm => nonceLength ≠ 0
    | .aesCcm => nonceLength ≥ 7 && nonceLength ≤ 13
    | .chacha20Poly1305 => nonceLength = 12

def liberacAeadTagLengthValid (alg : LiberaCAlgID) (tagLength : Nat) : Bool :=
  match aeadParameters alg with
  | .error _ => false
  | .ok parameters =>
    match parameters.family with
    | .aesGcm => tagLength = 4 || tagLength = 8 || (tagLength ≥ 12 && tagLength ≤ 16)
    | .aesCcm => tagLength ≥ 4 && tagLength ≤ 16 && tagLength % 2 = 0
    | .chacha20Poly1305 => tagLength = 16

def aeadOverlap (r : Request) : Bool :=
  cryptoRangesOverlap r.output r.inputLength r.key r.keyLength ||
    cryptoRangesOverlap r.output r.inputLength r.nonce r.nonceLength ||
    cryptoRangesOverlap r.output r.inputLength r.aad r.aadLength ||
    cryptoRangesOverlap r.output r.inputLength r.tag r.tagLength ||
    cryptoRangesOverlap r.tag r.tagLength r.input r.inputLength ||
    cryptoRangesOverlap r.tag r.tagLength r.key r.keyLength ||
    cryptoRangesOverlap r.tag r.tagLength r.nonce r.nonceLength ||
    cryptoRangesOverlap r.tag r.tagLength r.aad r.aadLength

def aeadValidateRequest (r : Request) (alg : LiberaCAlgID) (parameters : AeadParameters) :
    Except LiberaCError Unit :=
  if r.tag = 0 ∨ r.key = 0 ∨ r.nonce = 0 ∨ (r.input = 0 ∧ r.inputLength ≠ 0) ∨
      (r.output = 0 ∧ r.inputLength ≠ 0) ∨ (r.aad = 0 ∧ r.aadLength ≠ 0) then
    .error .invalidArgument
  else if r.keyLength ≠ parameters.keyLength then .error .invalidKey
  else if ¬ liberacAeadNonceLengthValid alg r.nonceLength ∨
      ¬ liberacAeadTagLengthValid alg r.tagLength then
    .error .invalidArgument
  else if r.outputCapacity < r.inputLength then .error .bufferTooSmall
  else
    let lengths := if parameters.family = .chacha20Poly1305 then
        cryptoChacha20Poly1305ValidateLengths r.inputLength r.aadLength
      else .ok ()
    match lengths with
    | .error e => .error e
    | .ok () =>
      if r.output ≠ r.input ∧ cryptoRangesOverlap r.output r.inputLength r.input r.inputLength then
        .error .invalidArgument
      else if aeadOverlap r then .error .invalidArgument
      else .ok ()

/-- `crypto_aes_context_init` and `crypto_aes_encrypt_block`: a key gives a block function. -/
abbrev AesCipher := List UInt8 → Except LiberaCError BlockFunction

def aeadAesEncrypt (aes : AesCipher) (family : AeadFamily) (r : Request) : OnMemory Unit := do
  let key ← load r.key r.keyLength
  let context ← compute (aes key)
  if family = .aesGcm then cryptoAesGcmEncrypt context r else cryptoAesCcmEncrypt context r

def aeadAesDecrypt (aes : AesCipher) (family : AeadFamily) (r : Request) : OnMemory Unit := do
  let key ← load r.key r.keyLength
  let context ← compute (aes key)
  if family = .aesGcm then cryptoAesGcmDecrypt context r else cryptoAesCcmDecrypt context r

def liberacAeadEncrypt (aes : AesCipher) (r : Request) (tagCapacity : Nat) (alg : LiberaCAlgID) :
    OnMemory Unit := do
  let parameters ← compute (aeadParameters alg)
  compute (aeadValidateRequest r alg parameters)
  compute (if tagCapacity < r.tagLength then .error .bufferTooSmall else .ok ())
  if parameters.family = .chacha20Poly1305 then cryptoChacha20Poly1305EncryptInternal r
  else
    wipeOnError r.tag r.tagLength <|
      wipeOnError r.output r.inputLength (aeadAesEncrypt aes parameters.family r)

def liberacAeadDecrypt (aes : AesCipher) (r : Request) (alg : LiberaCAlgID) : OnMemory Unit := do
  let parameters ← compute (aeadParameters alg)
  compute (aeadValidateRequest r alg parameters)
  if parameters.family = .chacha20Poly1305 then cryptoChacha20Poly1305DecryptInternal r
  else wipeOnError r.output r.inputLength (aeadAesDecrypt aes parameters.family r)

end LiberaCrypt.AuthenticatedEncryption
