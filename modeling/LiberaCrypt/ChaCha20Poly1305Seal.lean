import LiberaCrypt.AeadScheme
import LiberaCrypt.ChaCha20Poly1305

namespace LiberaCrypt.ChaCha20Poly1305Seal

open LiberaCrypt.AeadRequest LiberaCrypt.AeadScheme LiberaCrypt.ByteMemory LiberaCrypt.ChaCha20
open LiberaCrypt.ChaCha20Poly1305 LiberaCrypt.ConstantTime LiberaCrypt.KeystreamXor
open LiberaCrypt.Outcome LiberaCrypt.Poly1305

variable (key nonce aad : List UInt8)

def chacha20Stream (length : Nat) : Except LiberaCError (List UInt8) := do
  cryptoChacha20ValidateLength length 1
  keystream 64 (chacha20Next (chacha20InitialState key nonce)) length 1

def chacha20Poly1305Sealed (plaintext : List UInt8) :
    Except LiberaCError (List UInt8 × List UInt8) := do
  let stream ← chacha20Stream key nonce plaintext.length
  let ciphertext := xorBytes plaintext stream
  .ok (ciphertext, chacha20Poly1305Tag key nonce aad ciphertext)

def chacha20Poly1305Opened (tag ciphertext : List UInt8) : Except LiberaCError (List UInt8) :=
  if ¬ cryptoConstantTimeEqual (chacha20Poly1305Tag key nonce aad ciphertext) tag 16 then
    .error .authenticationFailed
  else do
    let stream ← chacha20Stream key nonce ciphertext.length
    .ok (xorBytes ciphertext stream)

def chacha20Poly1305Scheme : Scheme LiberaCError where
  keystream := chacha20Stream key nonce
  authenticate _ ciphertext := .ok (chacha20Poly1305Tag key nonce aad ciphertext)
  keystream_length := by
    intro n stream hstream
    obtain ⟨-, -, hkeystream⟩ := bind_eq_ok.mp hstream
    exact keystream_length (by decide) hkeystream

section Scheme

variable {key nonce aad} {plaintext ciphertext tag : List UInt8}

theorem chacha20Poly1305Tag_length : (chacha20Poly1305Tag key nonce aad ciphertext).length = 16 :=
  rfl

theorem chacha20Poly1305Sealed_iff :
    chacha20Poly1305Sealed key nonce aad plaintext = .ok (ciphertext, tag) ↔
      (chacha20Poly1305Scheme key nonce aad).Seals plaintext ciphertext tag := by
  constructor
  · intro hsealed
    obtain ⟨stream, hstream, hlast⟩ := bind_eq_ok.mp hsealed
    cases hlast
    exact ⟨stream, hstream, rfl, rfl⟩
  · rintro ⟨stream, hstream, rfl, htag⟩
    cases htag
    exact bind_eq_ok.mpr ⟨stream, hstream, rfl⟩

theorem chacha20Poly1305Opened_iff (htaglength : tag.length = 16) :
    chacha20Poly1305Opened key nonce aad tag ciphertext = .ok plaintext ↔
      (chacha20Poly1305Scheme key nonce aad).Opens ciphertext tag plaintext := by
  have hequal := cryptoConstantTimeEqual_take (chacha20Poly1305Tag key nonce aad ciphertext)
    htaglength (Nat.le_of_eq chacha20Poly1305Tag_length.symm)
  rw [List.take_of_length_le (Nat.le_of_eq chacha20Poly1305Tag_length)] at hequal
  unfold chacha20Poly1305Opened
  constructor
  · intro hopened
    split at hopened
    case isTrue => cases hopened
    case isFalse hsame =>
      obtain ⟨stream, hstream, hlast⟩ := bind_eq_ok.mp hopened
      cases hlast
      exact ⟨stream, hstream, rfl, congrArg Except.ok (hequal.mp (not_not.mp hsame))⟩
  · rintro ⟨stream, hstream, rfl, htag⟩
    rw [if_neg (not_not.mpr (hequal.mpr (Except.ok.inj htag)))]
    exact bind_eq_ok.mpr ⟨stream, hstream, rfl⟩

theorem chacha20Poly1305Opened_iff_sealed (htaglength : tag.length = 16) :
    chacha20Poly1305Opened key nonce aad tag ciphertext = .ok plaintext ↔
      chacha20Poly1305Sealed key nonce aad plaintext = .ok (ciphertext, tag) := by
  rw [chacha20Poly1305Opened_iff htaglength, chacha20Poly1305Sealed_iff, Scheme.opens_iff_seals]

theorem chacha20Poly1305Sealed_total
    (hlength : cryptoChacha20ValidateLength plaintext.length 1 = .ok ()) :
    ∃ sealed, chacha20Poly1305Sealed key nonce aad plaintext = .ok sealed := by
  obtain ⟨stream, hstream⟩ := keystream_total 64 (chacha20Next (chacha20InitialState key nonce))
    (fun _ _ => ⟨_, rfl⟩) plaintext.length 1
  exact ⟨_, bind_eq_ok.mpr ⟨stream, bind_eq_ok.mpr ⟨(), hlength, hstream⟩, rfl⟩⟩

end Scheme

section Calls

variable {r : Request} {memory : Memory}

theorem chacha20Xor_run (hseparated : r.Separated) (memory : Memory) :
    ∃ bytes, bytes.length ≤ r.inputLength ∧
      cryptoChacha20XorInternal r.output r.input r.inputLength r.key r.nonce 1 memory =
        ((chacha20Stream (readBytes memory r.key 32) (readBytes memory r.nonce 12)
          r.inputLength).map fun _ => (), writeBytes memory r.output bytes) ∧
      ∀ stream, chacha20Stream (readBytes memory r.key 32) (readBytes memory r.nonce 12)
          r.inputLength = .ok stream →
        bytes = xorBytes (readBytes memory r.input r.inputLength) stream := by
  rw [cryptoChacha20XorInternal, chacha20Stream]
  cases cryptoChacha20ValidateLength r.inputLength 1 with
  | error e => exact ⟨[], Nat.zero_le _, by rw [writeBytes_nil]; rfl, nofun⟩
  | ok u => exact xorLoop_run (by decide) hseparated.input (fun _ _ => rfl) 1

variable (memory)

theorem chacha20Poly1305Encrypt_sealsAs
    (hcheck : cryptoChacha20Poly1305ValidateLengths r.inputLength r.aadLength = .ok ())
    (hkey : r.keyLength = 32) (hnonce : r.nonceLength = 12) (hseparated : r.Separated) :
    SealsAs (chacha20Poly1305Sealed (readBytes memory r.key r.keyLength)
      (readBytes memory r.nonce r.nonceLength) (readBytes memory r.aad r.aadLength)
      (readBytes memory r.input r.inputLength)) r memory
      (cryptoChacha20Poly1305EncryptInternal r memory) := by
  obtain ⟨bytes, hbytes, hrun, hok⟩ := chacha20Xor_run hseparated memory
  rw [← hkey, ← hnonce] at hrun hok
  rw [cryptoChacha20Poly1305EncryptInternal, chacha20Poly1305Sealed, hcheck, compute_ok_bind,
    readBytes_length]
  apply actsAs_wipe
  apply actsAs_loop hbytes hrun
  intro stream hstream
  cases hok stream hstream
  obtain ⟨-, -, hkeystream⟩ := bind_eq_ok.mp hstream
  obtain ⟨hciphertext, hnonceread, haadread, hkeyread, -⟩ :=
    read_after_loop hseparated (keystream_length (by decide) hkeystream)
  rw [← hkey, ← hnonce, load_bind, load_bind, load_bind, load_bind, hciphertext, hnonceread,
    haadread, hkeyread]
  exact actsAs_ok rfl

/-- What a decryption does before its output is wiped on an error. -/
theorem chacha20Poly1305Decrypt_body
    (hcheck : cryptoChacha20Poly1305ValidateLengths r.inputLength r.aadLength = .ok ())
    (hkey : r.keyLength = 32) (hnonce : r.nonceLength = 12) (htag : r.tagLength = 16)
    (hseparated : r.Separated) :
    ∃ body, cryptoChacha20Poly1305DecryptInternal r memory =
        wipeOnError r.output r.inputLength body memory ∧
      OpensAs (chacha20Poly1305Opened (readBytes memory r.key r.keyLength)
        (readBytes memory r.nonce r.nonceLength) (readBytes memory r.aad r.aadLength)
        (readBytes memory r.tag r.tagLength) (readBytes memory r.input r.inputLength)) r memory
        (body memory) := by
  obtain ⟨bytes, hbytes, hrun, hok⟩ := chacha20Xor_run hseparated memory
  rw [← hkey, ← hnonce] at hrun hok
  rw [cryptoChacha20Poly1305DecryptInternal, chacha20Poly1305Opened, hcheck, compute_ok_bind,
    ← hkey, ← hnonce, ← htag, load_bind, load_bind, load_bind, load_bind, load_bind,
    readBytes_length]
  refine ⟨_, rfl, ?_⟩
  split_ifs with hequal
  · rw [hrun]
    cases hstream : chacha20Stream (readBytes memory r.key r.keyLength)
        (readBytes memory r.nonce r.nonceLength) r.inputLength with
    | error e => exact actsAs_error ⟨bytes, hbytes, rfl⟩ rfl
    | ok stream =>
      cases hok stream hstream
      exact actsAs_ok rfl
  · exact actsAs_error (wrote_nothing r memory) rfl

end Calls

end LiberaCrypt.ChaCha20Poly1305Seal
