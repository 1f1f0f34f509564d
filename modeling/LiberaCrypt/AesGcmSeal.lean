import LiberaCrypt.AeadScheme
import LiberaCrypt.AesAead

namespace LiberaCrypt.AesGcmSeal

open LiberaCrypt.AeadRequest LiberaCrypt.AeadScheme LiberaCrypt.AesAead LiberaCrypt.ByteMemory
open LiberaCrypt.ConstantTime LiberaCrypt.KeystreamXor LiberaCrypt.Outcome

variable (encryptBlock : BlockFunction) (tagLength : Nat) (iv aad : List UInt8)

/-- What an encryption computes from the bytes of its arguments. -/
def gcmSealed (plaintext : List UInt8) : Except LiberaCError (List UInt8 × List UInt8) := do
  let h ← encryptBlock zeroBlock
  let j0 ← gcmMakeJ0 h iv
  let stream ← keystream 16 (gcmNext encryptBlock) plaintext.length j0
  let ciphertext := xorBytes plaintext stream
  let fullTag ← gcmTag encryptBlock h j0 aad ciphertext
  .ok (ciphertext, fullTag.take tagLength)

def gcmOpened (tag ciphertext : List UInt8) : Except LiberaCError (List UInt8) := do
  let h ← encryptBlock zeroBlock
  let j0 ← gcmMakeJ0 h iv
  let fullTag ← gcmTag encryptBlock h j0 aad ciphertext
  if ¬ cryptoConstantTimeEqual fullTag tag tagLength then .error .authenticationFailed
  else
    let stream ← keystream 16 (gcmNext encryptBlock) ciphertext.length j0
    .ok (xorBytes ciphertext stream)

def gcmScheme : Scheme LiberaCError where
  keystream n := do
    let h ← encryptBlock zeroBlock
    let j0 ← gcmMakeJ0 h iv
    keystream 16 (gcmNext encryptBlock) n j0
  authenticate _ ciphertext := do
    let h ← encryptBlock zeroBlock
    let j0 ← gcmMakeJ0 h iv
    let fullTag ← gcmTag encryptBlock h j0 aad ciphertext
    .ok (fullTag.take tagLength)
  keystream_length := by
    intro n stream hstream
    obtain ⟨h, -, hrest⟩ := bind_eq_ok.mp hstream
    obtain ⟨j0, -, hkeystream⟩ := bind_eq_ok.mp hrest
    exact keystream_length (by decide) hkeystream

section Scheme

variable {encryptBlock tagLength iv aad} {plaintext ciphertext tag : List UInt8}

theorem gcmTag_length {h j0 fullTag : List UInt8}
    (htag : gcmTag encryptBlock h j0 aad ciphertext = .ok fullTag) : fullTag.length = 16 := by
  unfold gcmTag at htag
  split at htag
  · cases htag
  · dsimp only at htag
    cases hs : encryptInternal encryptBlock j0 with
    | error e =>
      rw [hs] at htag
      cases htag
    | ok s =>
      rw [hs] at htag
      cases htag
      exact xorBlock_length _ _

theorem gcmSealed_iff :
    gcmSealed encryptBlock tagLength iv aad plaintext = .ok (ciphertext, tag) ↔
      (gcmScheme encryptBlock tagLength iv aad).Seals plaintext ciphertext tag := by
  constructor
  · intro hsealed
    obtain ⟨h, hh, hrest⟩ := bind_eq_ok.mp hsealed
    obtain ⟨j0, hj0, hrest⟩ := bind_eq_ok.mp hrest
    obtain ⟨stream, hstream, hrest⟩ := bind_eq_ok.mp hrest
    obtain ⟨fullTag, htag, hlast⟩ := bind_eq_ok.mp hrest
    cases hlast
    exact ⟨stream, bind_eq_ok.mpr ⟨h, hh, bind_eq_ok.mpr ⟨j0, hj0, hstream⟩⟩, rfl,
      bind_eq_ok.mpr ⟨h, hh, bind_eq_ok.mpr ⟨j0, hj0, bind_eq_ok.mpr ⟨fullTag, htag, rfl⟩⟩⟩⟩
  · rintro ⟨stream, hkeystream, rfl, hauthenticate⟩
    obtain ⟨h, hh, hrest⟩ := bind_eq_ok.mp hkeystream
    obtain ⟨j0, hj0, hstream⟩ := bind_eq_ok.mp hrest
    obtain ⟨h', hh', hrest'⟩ := bind_eq_ok.mp hauthenticate
    obtain ⟨j0', hj0', hrest'⟩ := bind_eq_ok.mp hrest'
    obtain ⟨fullTag, htag, hlast⟩ := bind_eq_ok.mp hrest'
    cases hh.symm.trans hh'
    cases hj0.symm.trans hj0'
    cases hlast
    exact bind_eq_ok.mpr ⟨h, hh, bind_eq_ok.mpr ⟨j0, hj0, bind_eq_ok.mpr ⟨stream, hstream,
      bind_eq_ok.mpr ⟨fullTag, htag, rfl⟩⟩⟩⟩

theorem gcmOpened_iff (htaglength : tag.length = tagLength) (hle : tagLength ≤ 16) :
    gcmOpened encryptBlock tagLength iv aad tag ciphertext = .ok plaintext ↔
      (gcmScheme encryptBlock tagLength iv aad).Opens ciphertext tag plaintext := by
  constructor
  · intro hopened
    obtain ⟨h, hh, hrest⟩ := bind_eq_ok.mp hopened
    obtain ⟨j0, hj0, hrest⟩ := bind_eq_ok.mp hrest
    obtain ⟨fullTag, htag, hrest⟩ := bind_eq_ok.mp hrest
    have hfull := gcmTag_length htag
    split at hrest
    case isTrue => cases hrest
    case isFalse hequal =>
      obtain ⟨stream, hstream, hlast⟩ := bind_eq_ok.mp hrest
      have htake := (cryptoConstantTimeEqual_take fullTag htaglength (by omega)).mp (not_not.mp hequal)
      cases hlast
      exact ⟨stream, bind_eq_ok.mpr ⟨h, hh, bind_eq_ok.mpr ⟨j0, hj0, hstream⟩⟩, rfl,
        bind_eq_ok.mpr ⟨h, hh, bind_eq_ok.mpr ⟨j0, hj0,
          bind_eq_ok.mpr ⟨fullTag, htag, congrArg Except.ok htake⟩⟩⟩⟩
  · rintro ⟨stream, hkeystream, rfl, hauthenticate⟩
    obtain ⟨h, hh, hrest⟩ := bind_eq_ok.mp hkeystream
    obtain ⟨j0, hj0, hstream⟩ := bind_eq_ok.mp hrest
    obtain ⟨h', hh', hrest'⟩ := bind_eq_ok.mp hauthenticate
    obtain ⟨j0', hj0', hrest'⟩ := bind_eq_ok.mp hrest'
    obtain ⟨fullTag, htag, hlast⟩ := bind_eq_ok.mp hrest'
    have hfull := gcmTag_length htag
    cases hh.symm.trans hh'
    cases hj0.symm.trans hj0'
    have htake := Except.ok.inj hlast
    have hequal := (cryptoConstantTimeEqual_take fullTag htaglength (by omega)).mpr htake
    refine bind_eq_ok.mpr ⟨h, hh, bind_eq_ok.mpr ⟨j0, hj0, bind_eq_ok.mpr ⟨fullTag, htag, ?_⟩⟩⟩
    rw [if_neg (not_not.mpr hequal)]
    exact bind_eq_ok.mpr ⟨stream, hstream, rfl⟩

theorem gcmOpened_iff_sealed (htaglength : tag.length = tagLength) (hle : tagLength ≤ 16) :
    gcmOpened encryptBlock tagLength iv aad tag ciphertext = .ok plaintext ↔
      gcmSealed encryptBlock tagLength iv aad plaintext = .ok (ciphertext, tag) := by
  rw [gcmOpened_iff htaglength hle, gcmSealed_iff, Scheme.opens_iff_seals]

variable (tagLength iv aad plaintext) in
theorem gcmSealed_total (htotal : ∀ block, ∃ result, encryptBlock block = .ok result)
    (hiv : iv.length ≤ maxBitStringBytes) (haad : aad.length ≤ maxBitStringBytes)
    (hplaintext : plaintext.length ≤ maxBitStringBytes) :
    ∃ sealed, gcmSealed encryptBlock tagLength iv aad plaintext = .ok sealed := by
  have hnext : ∀ more counter, ∃ made, gcmNext encryptBlock more counter = .ok made := by
    intro more counter
    obtain ⟨stream, hstream⟩ := encryptInternal_total htotal (gcmInc32 counter)
    exact ⟨(stream, gcmInc32 counter), by rw [gcmNext, hstream]⟩
  obtain ⟨h, hh⟩ := htotal zeroBlock
  have hj0 : ∃ j0, gcmMakeJ0 h iv = .ok j0 := by
    unfold gcmMakeJ0
    split_ifs with h12 hlarge
    · exact ⟨_, rfl⟩
    · exact absurd hiv (not_le.mpr hlarge)
    · exact ⟨_, rfl⟩
  obtain ⟨j0, hj0⟩ := hj0
  obtain ⟨stream, hstream⟩ := keystream_total 16 _ hnext plaintext.length j0
  have hlength : (xorBytes plaintext stream).length = plaintext.length :=
    xorBytes_length (keystream_length (by decide) hstream)
  have htag : ∃ fullTag, gcmTag encryptBlock h j0 aad (xorBytes plaintext stream) = .ok fullTag := by
    obtain ⟨s, hs⟩ := encryptInternal_total htotal j0
    rw [gcmTag, if_neg (by rw [hlength]; omega), hs]
    exact ⟨_, rfl⟩
  obtain ⟨fullTag, htag⟩ := htag
  exact ⟨_, bind_eq_ok.mpr ⟨h, hh, bind_eq_ok.mpr ⟨j0, hj0, bind_eq_ok.mpr ⟨stream, hstream,
    bind_eq_ok.mpr ⟨fullTag, htag, rfl⟩⟩⟩⟩⟩

end Scheme

section Calls

variable {r : Request} {memory : Memory}

theorem gcmCtr_run (hseparated : r.Separated) (j0 : List UInt8) (memory : Memory) :
    ∃ bytes, bytes.length ≤ r.inputLength ∧
      gcmCtr encryptBlock j0 r.input r.inputLength r.output memory =
        ((keystream 16 (gcmNext encryptBlock) r.inputLength j0).map fun _ => (),
          writeBytes memory r.output bytes) ∧
      ∀ stream, keystream 16 (gcmNext encryptBlock) r.inputLength j0 = .ok stream →
        bytes = xorBytes (readBytes memory r.input r.inputLength) stream :=
  xorLoop_run (by decide) hseparated.input (fun _ _ => rfl) j0

variable {encryptBlock}

theorem gcmEncrypt_sealsAs (hcheck : gcmCheck r = .ok ()) (hseparated : r.Separated) :
    SealsAs (gcmSealed encryptBlock r.tagLength (readBytes memory r.nonce r.nonceLength)
      (readBytes memory r.aad r.aadLength) (readBytes memory r.input r.inputLength)) r memory
      (cryptoAesGcmEncrypt encryptBlock r memory) := by
  rw [cryptoAesGcmEncrypt, gcmSealed, hcheck, compute_ok_bind, readBytes_length]
  apply actsAs_compute (wrote_nothing r memory)
  intro h hh
  rw [load_bind]
  apply actsAs_compute (wrote_nothing r memory)
  intro j0 hj0
  obtain ⟨bytes, hbytes, hrun, hok⟩ := gcmCtr_run encryptBlock hseparated j0 memory
  apply actsAs_loop hbytes hrun
  intro stream hstream
  cases hok stream hstream
  obtain ⟨hciphertext, -, haad, -⟩ :=
    read_after_loop hseparated (keystream_length (by decide) hstream)
  rw [load_bind, load_bind, haad, hciphertext]
  apply actsAs_compute ⟨_, hbytes, rfl⟩
  intro fullTag htag
  exact actsAs_ok rfl

theorem gcmDecrypt_opensAs (hcheck : gcmCheck r = .ok ()) (hseparated : r.Separated) :
    OpensAs (gcmOpened encryptBlock r.tagLength (readBytes memory r.nonce r.nonceLength)
      (readBytes memory r.aad r.aadLength) (readBytes memory r.tag r.tagLength)
      (readBytes memory r.input r.inputLength)) r memory
      (cryptoAesGcmDecrypt encryptBlock r memory) := by
  rw [cryptoAesGcmDecrypt, gcmOpened, hcheck, compute_ok_bind, readBytes_length]
  apply actsAs_wipe
  apply actsAs_compute (wrote_nothing r memory)
  intro h hh
  rw [load_bind]
  apply actsAs_compute (wrote_nothing r memory)
  intro j0 hj0
  rw [load_bind, load_bind]
  apply actsAs_compute (wrote_nothing r memory)
  intro fullTag htag
  rw [load_bind]
  split_ifs with hequal
  · obtain ⟨bytes, hbytes, hrun, hok⟩ :=
      gcmCtr_run encryptBlock hseparated j0 memory
    rw [hrun]
    cases hstream : keystream 16 (gcmNext encryptBlock) r.inputLength j0 with
    | error e => exact actsAs_error ⟨bytes, hbytes, rfl⟩ rfl
    | ok stream =>
      cases hok stream hstream
      exact actsAs_ok rfl
  · exact actsAs_error (wrote_nothing r memory) rfl

end Calls

end LiberaCrypt.AesGcmSeal
