import LiberaCrypt.AeadScheme
import LiberaCrypt.AesAead

namespace LiberaCrypt.AesCcmSeal

open LiberaCrypt.AeadRequest LiberaCrypt.AeadScheme LiberaCrypt.AesAead LiberaCrypt.ByteMemory
open LiberaCrypt.ConstantTime LiberaCrypt.KeystreamXor LiberaCrypt.Outcome

variable (encryptBlock : BlockFunction) (tagLength : Nat) (nonce aad : List UInt8)

def ccmSealed (plaintext : List UInt8) : Except LiberaCError (List UInt8 × List UInt8) := do
  let mac ← ccmComputeMac encryptBlock nonce aad plaintext tagLength
  let stream ← keystream 16 (ccmNext encryptBlock nonce) plaintext.length 1
  let s0 ← encryptBlock (ccmCounterBlock nonce 0)
  .ok (xorBytes plaintext stream, (xorBlock mac s0).take tagLength)

/-- The keystream comes first, since the plaintext is what is authenticated. -/
def ccmOpened (tag ciphertext : List UInt8) : Except LiberaCError (List UInt8) := do
  let stream ← keystream 16 (ccmNext encryptBlock nonce) ciphertext.length 1
  let plaintext := xorBytes ciphertext stream
  let mac ← ccmComputeMac encryptBlock nonce aad plaintext tagLength
  let s0 ← encryptBlock (ccmCounterBlock nonce 0)
  if ¬ cryptoConstantTimeEqual (xorBlock mac s0) tag tagLength then .error .authenticationFailed
  else .ok plaintext

def ccmScheme : Scheme LiberaCError where
  keystream n := keystream 16 (ccmNext encryptBlock nonce) n 1
  authenticate plaintext _ := do
    let mac ← ccmComputeMac encryptBlock nonce aad plaintext tagLength
    let s0 ← encryptBlock (ccmCounterBlock nonce 0)
    .ok ((xorBlock mac s0).take tagLength)
  keystream_length := keystream_length (by decide)

section Scheme

variable {encryptBlock tagLength nonce aad} {plaintext ciphertext tag : List UInt8}

theorem ccmSealed_iff :
    ccmSealed encryptBlock tagLength nonce aad plaintext = .ok (ciphertext, tag) ↔
      (ccmScheme encryptBlock tagLength nonce aad).Seals plaintext ciphertext tag := by
  constructor
  · intro hsealed
    obtain ⟨mac, hmac, hrest⟩ := bind_eq_ok.mp hsealed
    obtain ⟨stream, hstream, hrest⟩ := bind_eq_ok.mp hrest
    obtain ⟨s0, hs0, hlast⟩ := bind_eq_ok.mp hrest
    cases hlast
    exact ⟨stream, hstream, rfl, bind_eq_ok.mpr ⟨mac, hmac, bind_eq_ok.mpr ⟨s0, hs0, rfl⟩⟩⟩
  · rintro ⟨stream, hstream, rfl, hauthenticate⟩
    obtain ⟨mac, hmac, hrest⟩ := bind_eq_ok.mp hauthenticate
    obtain ⟨s0, hs0, hlast⟩ := bind_eq_ok.mp hrest
    cases hlast
    exact bind_eq_ok.mpr ⟨mac, hmac, bind_eq_ok.mpr ⟨stream, hstream,
      bind_eq_ok.mpr ⟨s0, hs0, rfl⟩⟩⟩

theorem ccmOpened_iff (htaglength : tag.length = tagLength) (hle : tagLength ≤ 16) :
    ccmOpened encryptBlock tagLength nonce aad tag ciphertext = .ok plaintext ↔
      (ccmScheme encryptBlock tagLength nonce aad).Opens ciphertext tag plaintext := by
  constructor
  · intro hopened
    obtain ⟨stream, hstream, hrest⟩ := bind_eq_ok.mp hopened
    obtain ⟨mac, hmac, hrest⟩ := bind_eq_ok.mp hrest
    obtain ⟨s0, hs0, hrest⟩ := bind_eq_ok.mp hrest
    split at hrest
    case isTrue => cases hrest
    case isFalse hequal =>
      have htake := (cryptoConstantTimeEqual_take _ htaglength (by rwa [xorBlock_length])).mp
        (not_not.mp hequal)
      cases hrest
      exact ⟨stream, hstream, rfl, bind_eq_ok.mpr ⟨mac, hmac,
        bind_eq_ok.mpr ⟨s0, hs0, congrArg Except.ok htake⟩⟩⟩
  · rintro ⟨stream, hstream, rfl, hauthenticate⟩
    obtain ⟨mac, hmac, hrest⟩ := bind_eq_ok.mp hauthenticate
    obtain ⟨s0, hs0, hlast⟩ := bind_eq_ok.mp hrest
    have htake := Except.ok.inj hlast
    have hequal := (cryptoConstantTimeEqual_take _ htaglength (by rwa [xorBlock_length])).mpr htake
    refine bind_eq_ok.mpr ⟨stream, hstream, bind_eq_ok.mpr ⟨mac, hmac,
      bind_eq_ok.mpr ⟨s0, hs0, ?_⟩⟩⟩
    rw [if_neg (not_not.mpr hequal)]

theorem ccmOpened_iff_sealed (htaglength : tag.length = tagLength) (hle : tagLength ≤ 16) :
    ccmOpened encryptBlock tagLength nonce aad tag ciphertext = .ok plaintext ↔
      ccmSealed encryptBlock tagLength nonce aad plaintext = .ok (ciphertext, tag) := by
  rw [ccmOpened_iff htaglength hle, ccmSealed_iff, Scheme.opens_iff_seals]

theorem ccmMacBytes_total (htotal : ∀ block, ∃ result, encryptBlock block = .ok result)
    (state data : List UInt8) : ∃ result, ccmMacBytes encryptBlock state data = .ok result := by
  induction hlen : data.length using Nat.strong_induction_on generalizing state data with
  | _ len ih =>
  rw [ccmMacBytes]
  split_ifs with hwhole hrest
  · obtain ⟨next, hnext⟩ := encryptInternal_total htotal (xorBlock state (data.take 16))
    rw [ccmMacBlock, hnext]
    exact ih (len - 16) (by omega) next (data.drop 16) (by rw [List.length_drop, hlen])
  · exact encryptInternal_total htotal _
  · exact ⟨state, rfl⟩

variable (tagLength nonce aad plaintext) in
theorem ccmComputeMac_total (htotal : ∀ block, ∃ result, encryptBlock block = .ok result) :
    ∃ mac, ccmComputeMac encryptBlock nonce aad plaintext tagLength = .ok mac := by
  obtain ⟨first, hfirst⟩ := encryptInternal_total htotal
    (xorBlock zeroBlock (ccmFirstBlock nonce aad.length plaintext.length tagLength))
  have haad : ∃ second, ccmMacAad encryptBlock first aad = .ok second := by
    unfold ccmMacAad
    dsimp only
    split_ifs with hempty
    · exact ⟨first, rfl⟩
    all_goals
      rw [ccmMacBlock]
      cases hheader : encryptInternal encryptBlock _ with
      | error e =>
        obtain ⟨result, hresult⟩ := encryptInternal_total htotal _
        exact absurd (hheader.symm.trans hresult) nofun
      | ok state => exact ccmMacBytes_total htotal state _
  obtain ⟨second, hsecond⟩ := haad
  obtain ⟨mac, hmac⟩ := ccmMacBytes_total htotal second plaintext
  exact ⟨mac, bind_eq_ok.mpr ⟨first, hfirst, bind_eq_ok.mpr ⟨second, hsecond, hmac⟩⟩⟩

variable (tagLength nonce aad plaintext) in
theorem ccmSealed_total (htotal : ∀ block, ∃ result, encryptBlock block = .ok result) :
    ∃ sealed, ccmSealed encryptBlock tagLength nonce aad plaintext = .ok sealed := by
  have hnext : ∀ more i, ∃ made, ccmNext encryptBlock nonce more i = .ok made := by
    intro more i
    obtain ⟨stream, hstream⟩ := encryptInternal_total htotal (ccmCounterBlock nonce i)
    exact ⟨(stream, i + 1), by rw [ccmNext, hstream]⟩
  obtain ⟨mac, hmac⟩ := ccmComputeMac_total tagLength nonce aad plaintext htotal
  obtain ⟨stream, hstream⟩ := keystream_total 16 _ hnext plaintext.length 1
  obtain ⟨s0, hs0⟩ := htotal (ccmCounterBlock nonce 0)
  exact ⟨_, bind_eq_ok.mpr ⟨mac, hmac, bind_eq_ok.mpr ⟨stream, hstream,
    bind_eq_ok.mpr ⟨s0, hs0, rfl⟩⟩⟩⟩

end Scheme

section Calls

variable {r : Request} {memory : Memory}

theorem ccmCtr_run (hseparated : r.Separated) (memory : Memory) :
    ∃ bytes, bytes.length ≤ r.inputLength ∧
      ccmCtr encryptBlock r.nonce r.nonceLength r.input r.inputLength r.output memory =
        ((keystream 16 (ccmNext encryptBlock (readBytes memory r.nonce r.nonceLength))
          r.inputLength 1).map fun _ => (), writeBytes memory r.output bytes) ∧
      ∀ stream, keystream 16 (ccmNext encryptBlock (readBytes memory r.nonce r.nonceLength))
          r.inputLength 1 = .ok stream →
        bytes = xorBytes (readBytes memory r.input r.inputLength) stream := by
  refine xorLoop_run (by decide) hseparated.input ?_ 1
  intro bytes hbytes
  rw [read_write_disjoint memory (disjoint_shorter hseparated.nonce hbytes)]

variable {encryptBlock}

theorem ccmEncrypt_sealsAs (hcheck : ccmCheck r = .ok ()) (hseparated : r.Separated) :
    SealsAs (ccmSealed encryptBlock r.tagLength (readBytes memory r.nonce r.nonceLength)
      (readBytes memory r.aad r.aadLength) (readBytes memory r.input r.inputLength)) r memory
      (cryptoAesCcmEncrypt encryptBlock r memory) := by
  rw [cryptoAesCcmEncrypt, ccmSealed, hcheck, compute_ok_bind, load_bind, load_bind, load_bind,
    readBytes_length]
  apply actsAs_compute (wrote_nothing r memory)
  intro mac hmac
  obtain ⟨bytes, hbytes, hrun, hok⟩ := ccmCtr_run encryptBlock hseparated memory
  apply actsAs_loop hbytes hrun
  intro stream hstream
  cases hok stream hstream
  obtain ⟨-, hnonce, -⟩ := read_after_loop hseparated (keystream_length (by decide) hstream)
  rw [load_bind, hnonce]
  apply actsAs_compute ⟨_, hbytes, rfl⟩
  intro s0 hs0
  exact actsAs_ok rfl

theorem ccmDecrypt_opensAs (hcheck : ccmCheck r = .ok ()) (hseparated : r.Separated) :
    OpensAs (ccmOpened encryptBlock r.tagLength (readBytes memory r.nonce r.nonceLength)
      (readBytes memory r.aad r.aadLength) (readBytes memory r.tag r.tagLength)
      (readBytes memory r.input r.inputLength)) r memory
      (cryptoAesCcmDecrypt encryptBlock r memory) := by
  rw [cryptoAesCcmDecrypt, ccmOpened, hcheck, compute_ok_bind, readBytes_length]
  apply actsAs_wipe
  obtain ⟨bytes, hbytes, hrun, hok⟩ := ccmCtr_run encryptBlock hseparated memory
  apply actsAs_loop hbytes hrun
  intro stream hstream
  cases hok stream hstream
  obtain ⟨hplaintext, hnonce, haad, -, htag⟩ :=
    read_after_loop hseparated (keystream_length (by decide) hstream)
  rw [load_bind, load_bind, load_bind, hplaintext, hnonce, haad]
  apply actsAs_compute ⟨_, hbytes, rfl⟩
  intro mac hmac
  apply actsAs_compute ⟨_, hbytes, rfl⟩
  intro s0 hs0
  rw [load_bind, htag]
  split_ifs with hequal
  · exact actsAs_ok rfl
  · exact actsAs_error ⟨_, hbytes, rfl⟩ rfl

end Calls

end LiberaCrypt.AesCcmSeal
