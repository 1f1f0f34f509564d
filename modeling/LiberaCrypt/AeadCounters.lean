import LiberaCrypt.AeadCorrect
import LiberaCrypt.CcmFormatting

namespace LiberaCrypt.AeadCounters

open LiberaCrypt.AeadCorrect LiberaCrypt.AeadRequest LiberaCrypt.AesAead LiberaCrypt.AesCcmSeal
open LiberaCrypt.AesGcmSeal LiberaCrypt.AuthenticatedEncryption LiberaCrypt.BigEndian
open LiberaCrypt.ByteMemory LiberaCrypt.CcmFormatting LiberaCrypt.ChaCha20
open LiberaCrypt.ChaCha20Poly1305 LiberaCrypt.ChaCha20Poly1305Seal LiberaCrypt.CountedLoop
open LiberaCrypt.Def LiberaCrypt.Endian LiberaCrypt.KeystreamXor LiberaCrypt.Outcome
open LiberaCrypt.Poly1305

section Gcm

theorem incrementBytes_eq (count : Nat) (before : List UInt8) {counter : List UInt8}
    (after : List UInt8) (hcounter : counter.length = count) :
    incrementBytes count (before.length + count - 1) (before ++ counter ++ after) =
      before ++ bigEndian count (beValue counter + 1) ++ after := by
  induction count generalizing counter after with
  | zero =>
    rw [List.length_eq_zero_iff.mp hcounter]
    rfl
  | succ count ih =>
    obtain ⟨high, x, rfl⟩ : ∃ high x, counter = high ++ [x] :=
      (List.eq_nil_or_concat' counter).resolve_left (by rintro rfl; cases hcounter)
    have hhigh : high.length = count := by simpa using hcounter
    have hindex : before.length + (count + 1) - 1 = (before ++ high).length := by
      rw [List.length_append, hhigh]
      omega
    have hsplit : before ++ (high ++ [x]) ++ after = before ++ high ++ x :: after := by simp
    have hset : (before ++ high ++ x :: after).set (before ++ high).length
        ((before ++ high ++ x :: after).getD (before ++ high).length 0 + 1) =
        before ++ high ++ (x + 1) :: after := by
      rw [List.getD_append_right _ _ _ _ (le_refl _), Nat.sub_self, List.set_append_right _ _ (le_refl _),
        Nat.sub_self]
      rfl
    have hget : (before ++ high ++ (x + 1) :: after).getD (before ++ high).length 0 = x + 1 := by
      rw [List.getD_append_right _ _ _ _ (le_refl _), Nat.sub_self]
      rfl
    rw [hindex, incrementBytes, hsplit, hset, hget, beValue_append_byte, bigEndian]
    have hx := x.toNat_lt
    have hsum : (x + 1).toNat = (x.toNat + 1) % 256 := UInt8.toNat_add x 1
    have hbyte : UInt8.ofNat (x.toNat + 256 * beValue high + 1) = x + 1 := by
      apply UInt8.toNat_inj.mp
      rw [UInt8.toNat_ofNat', hsum]
      omega
    rw [hbyte]
    split_ifs with hcarry
    · have hsmall : x.toNat ≠ 255 := by
        intro hfull
        apply hcarry
        apply UInt8.toNat_inj.mp
        rw [hsum, hfull]
        rfl
      have hdiv : (x.toNat + 256 * beValue high + 1) / 256 = beValue high := by omega
      rw [hdiv, ← hhigh, bigEndian_beValue]
      simp
    · have hzero : x + 1 = 0 := not_not.mp hcarry
      have hfull : x.toNat = 255 := by
        have hwrap := congrArg UInt8.toNat hzero
        rw [hsum, UInt8.toNat_zero] at hwrap
        omega
      have hdiv : (x.toNat + 256 * beValue high + 1) / 256 = beValue high + 1 := by omega
      have hrest := ih ((x + 1) :: after) hhigh
      have hprevious : (before ++ high).length - 1 = before.length + count - 1 := by
        rw [List.length_append, hhigh]
      rw [hprevious, hdiv, hrest]
      simp

/-- The counter is the last four bytes of the block, and goes up modulo `2^32`. -/
theorem gcmInc32_iterate {j0 : List UInt8} (hj0 : j0.length = 16) (i : Nat) :
    gcmInc32^[i] j0 = j0.take 12 ++ bigEndian 4 (beValue (j0.drop 12) + i) := by
  induction i with
  | zero =>
    have hcounter := bigEndian_beValue (j0.drop 12)
    rw [List.length_drop, hj0] at hcounter
    rw [Function.iterate_zero, id, Nat.add_zero, hcounter, List.take_append_drop]
  | succ i ih =>
    have htake : (j0.take 12).length = 12 := by rw [List.length_take, hj0]; rfl
    have hstep := incrementBytes_eq 4 (j0.take 12) []
      (bigEndian_length 4 (beValue (j0.drop 12) + i))
    rw [htake, List.append_nil, List.append_nil] at hstep
    rw [Function.iterate_succ_apply', ih, gcmInc32]
    refine hstep.trans ?_
    rw [beValue_bigEndian, ← bigEndian_mod, Nat.mod_add_mod, bigEndian_mod, Nat.add_assoc]

theorem gcmMultiply_length (x h : List UInt8) : (gcmMultiply x h).length = 16 := by
  refine countUp_invariant (fun _ (state : List UInt8 × List UInt8) => state.1.length = 16) rfl ?_
  intro bit hbit state hstate
  exact xorBlock_length _ _

theorem gcmMakeJ0_length {h iv j0 : List UInt8} (hj0 : gcmMakeJ0 h iv = .ok j0) : j0.length = 16 := by
  unfold gcmMakeJ0 at hj0
  split_ifs at hj0 with hshort
  · cases hj0
    rw [List.length_append, hshort]
    rfl
  · cases hj0
    exact gcmMultiply_length _ _

/-- The counter blocks of a message, from the first one after `j0`. -/
def gcmCounters (j0 : List UInt8) (length : Nat) : List (List UInt8) :=
  inputsFrom gcmInc32 gcmInc32 16 length j0

theorem gcmCounters_nodup {j0 : List UInt8} (hj0 : j0.length = 16) {length : Nat}
    (hlength : length ≤ 0xfffffffe * 16) : (j0 :: gcmCounters j0 length).Nodup := by
  have hall : j0 :: gcmCounters j0 length =
      (List.range ((length + 15) / 16 + 1)).map fun i => gcmInc32^[i] j0 := by
    rw [List.range_succ_eq_map, List.map_cons, List.map_map, gcmCounters, inputsFrom]
    congr 1
    apply List.map_congr_left
    intro i hi
    rw [Function.comp_apply, Function.iterate_succ_apply']
  rw [hall]
  apply List.Nodup.map_on _ List.nodup_range
  intro i hi j hj hequal
  rw [List.mem_range] at hi hj
  rw [gcmInc32_iterate hj0, gcmInc32_iterate hj0] at hequal
  have hcounters := bigEndian_inj (List.append_cancel_left hequal)
  omega

end Gcm

section Ccm

def ccmCounters (nonce : List UInt8) (length : Nat) : List (List UInt8) :=
  inputsFrom (ccmCounterBlock nonce) (· + 1) 16 length 1

theorem add_one_iterate (i s : Nat) : (fun n : Nat => n + 1)^[i] s = s + i := by
  induction i with
  | zero => rfl
  | succ i ih => rw [Function.iterate_succ_apply', ih, Nat.add_assoc]

theorem ccmCounters_nodup {nonce : List UInt8} {length : Nat}
    (hlength : length < 256 ^ (15 - nonce.length)) :
    (ccmCounterBlock nonce 0 :: ccmCounters nonce length).Nodup := by
  have hall : ccmCounterBlock nonce 0 :: ccmCounters nonce length =
      (List.range ((length + 15) / 16 + 1)).map (ccmCounterBlock nonce) := by
    rw [List.range_succ_eq_map, List.map_cons, List.map_map, ccmCounters, inputsFrom]
    congr 1
    apply List.map_congr_left
    intro i hi
    rw [Function.comp_apply, add_one_iterate, Nat.add_comm]
  rw [hall]
  apply List.Nodup.map_on _ List.nodup_range
  intro i hi j hj hequal
  rw [List.mem_range] at hi hj
  have hencoded := List.append_cancel_left hequal
  exact bigEndian_inj_of_lt (by omega) (by omega) hencoded

end Ccm

section ChaCha20

def chacha20Counters (length : Nat) : List UInt32 := inputsFrom id (· + 1) 64 length 1

theorem next_iterate (i : Nat) (s : UInt32) :
    ((fun c : UInt32 => c + 1)^[i] s).toNat = (s.toNat + i) % 2 ^ 32 := by
  induction i with
  | zero => exact (Nat.mod_eq_of_lt s.toNat_lt).symm
  | succ i ih =>
    rw [Function.iterate_succ_apply', UInt32.toNat_add, ih, UInt32.toNat_one, Nat.mod_add_mod,
      Nat.add_assoc]

theorem chacha20Counters_nodup {length : Nat}
    (hlength : cryptoChacha20ValidateLength length 1 = .ok ()) :
    (0 :: chacha20Counters length).Nodup := by
  have hblocks : (length + 63) / 64 ≤ 2 ^ 32 - 1 := by
    unfold cryptoChacha20ValidateLength at hlength
    dsimp only at hlength
    rw [UInt32.toNat_one] at hlength
    split_ifs at hlength
    all_goals omega
  have hall : 0 :: chacha20Counters length =
      (List.range ((length + 63) / 64 + 1)).map fun i => (fun c : UInt32 => c + 1)^[i] 0 := by
    rw [List.range_succ_eq_map, List.map_cons, List.map_map, chacha20Counters, inputsFrom]
    congr 1
  rw [hall]
  apply List.Nodup.map_on _ List.nodup_range
  intro i hi j hj hequal
  rw [List.mem_range] at hi hj
  have hvalues := congrArg UInt32.toNat hequal
  rw [next_iterate, next_iterate, UInt32.toNat_zero] at hvalues
  omega

end ChaCha20

section Usage

/-- What a call does with its cipher: the inputs whose blocks mask the message, the other input, and
the tag that its block makes of a plaintext and a ciphertext. -/
structure Usage (ι : Type) where
  cipher : ι → Except LiberaCError (List UInt8)
  blockLength : Nat
  counters : List ι
  other : ι
  authenticate : List UInt8 → List UInt8 → List UInt8 → Except LiberaCError (List UInt8)

variable {ι : Type} {encryptBlock : BlockFunction} {tagLength : Nat}
  {h j0 key nonce aad plaintext ciphertext tag : List UInt8}

/-- The plaintext is masked with the blocks of the counters, and the tag made with the other block. -/
def Usage.Seals (u : Usage ι) (plaintext ciphertext tag : List UInt8) : Prop :=
  ∃ stream block, encipher u.cipher u.blockLength plaintext.length u.counters = .ok stream ∧
    ciphertext = xorBytes plaintext stream ∧ u.cipher u.other = .ok block ∧
    u.authenticate block plaintext ciphertext = .ok tag

def gcmUsage (encryptBlock : BlockFunction) (h j0 aad : List UInt8) (tagLength length : Nat) :
    Usage (List UInt8) where
  cipher := encryptInternal encryptBlock
  blockLength := 16
  counters := gcmCounters j0 length
  other := j0
  authenticate block _ ciphertext :=
    let lengths := cryptoStore64Be (UInt64.ofNat (aad.length * 8)) ++
      cryptoStore64Be (UInt64.ofNat (ciphertext.length * 8))
    let digest := ghashBlock (ghashBytes (ghashBytes zeroBlock h aad) h ciphertext) h lengths
    .ok ((xorBlock block digest).take tagLength)

def ccmUsage (encryptBlock : BlockFunction) (nonce aad : List UInt8) (tagLength length : Nat) :
    Usage (List UInt8) where
  cipher := encryptInternal encryptBlock
  blockLength := 16
  counters := ccmCounters nonce length
  other := ccmCounterBlock nonce 0
  authenticate block plaintext _ := do
    let mac ← ccmComputeMac encryptBlock nonce aad plaintext tagLength
    .ok ((xorBlock mac block).take tagLength)

def chacha20Usage (key nonce aad : List UInt8) (length : Nat) : Usage UInt32 where
  cipher counter := .ok (cryptoChacha20BlockInternal key nonce counter)
  blockLength := 64
  counters := chacha20Counters length
  other := 0
  authenticate block _ ciphertext :=
    let context := cryptoPoly1305Update (cryptoPoly1305Init block) aad
    let context := cryptoPoly1305Update (poly1305Pad16 context aad.length) ciphertext
    let lengths := cryptoStore64Le (UInt64.ofNat aad.length) ++
      cryptoStore64Le (UInt64.ofNat ciphertext.length)
    .ok (cryptoPoly1305Final
      (cryptoPoly1305Update (poly1305Pad16 context ciphertext.length) lengths))

theorem gcm_keystream (encryptBlock : BlockFunction) (j0 : List UInt8) (length : Nat) :
    keystream 16 (gcmNext encryptBlock) length j0 =
      encipher (encryptInternal encryptBlock) 16 length (gcmCounters j0 length) := by
  apply keystream_eq_encipher (by decide)
  · intro counter
    rw [gcmNext]
    cases encryptInternal encryptBlock (gcmInc32 counter) <;> rfl
  · intro counter
    rw [gcmNext]
    cases encryptInternal encryptBlock (gcmInc32 counter) <;> rfl

theorem ccm_keystream (encryptBlock : BlockFunction) (nonce : List UInt8) (length : Nat) :
    keystream 16 (ccmNext encryptBlock nonce) length 1 =
      encipher (encryptInternal encryptBlock) 16 length (ccmCounters nonce length) := by
  apply keystream_eq_encipher (by decide)
  · intro i
    rw [ccmNext]
    cases encryptInternal encryptBlock (ccmCounterBlock nonce i) <;> rfl
  · intro i
    rw [ccmNext]
    cases encryptInternal encryptBlock (ccmCounterBlock nonce i) <;> rfl

theorem chacha20_keystream (key nonce : List UInt8) {length : Nat}
    (hlength : cryptoChacha20ValidateLength length 1 = .ok ()) :
    chacha20Stream key nonce length =
      encipher (fun counter => .ok (cryptoChacha20BlockInternal key nonce counter)) 64 length
        (chacha20Counters length) := by
  have hblocks : keystream 64 (chacha20Next (chacha20InitialState key nonce)) length 1 =
      encipher (fun counter => .ok (cryptoChacha20BlockInternal key nonce counter)) 64 length
        (chacha20Counters length) := by
    apply keystream_eq_encipher (by decide)
    · intro counter
      rfl
    · intro counter
      rfl
  rw [chacha20Stream, hlength]
  exact hblocks

theorem gcmSealed_usage {iv : List UInt8} (hh : encryptBlock zeroBlock = .ok h)
    (hj0 : gcmMakeJ0 h iv = .ok j0)
    (hsealed : gcmSealed encryptBlock tagLength iv aad plaintext = .ok (ciphertext, tag)) :
    (gcmUsage encryptBlock h j0 aad tagLength plaintext.length).Seals plaintext ciphertext tag := by
  obtain ⟨h', hh', hrest⟩ := bind_eq_ok.mp hsealed
  obtain rfl := Except.ok.inj (hh.symm.trans hh')
  obtain ⟨j0', hj0', hrest⟩ := bind_eq_ok.mp hrest
  obtain rfl := Except.ok.inj (hj0.symm.trans hj0')
  obtain ⟨stream, hstream, hrest⟩ := bind_eq_ok.mp hrest
  obtain ⟨fullTag, htag, hlast⟩ := bind_eq_ok.mp hrest
  cases hlast
  rw [gcm_keystream] at hstream
  unfold gcmTag at htag
  split at htag
  · cases htag
  · cases hblock : encryptInternal encryptBlock j0 with
    | error e =>
      rw [hblock] at htag
      cases htag
    | ok block =>
      rw [hblock] at htag
      cases htag
      exact ⟨stream, block, hstream, rfl, hblock, rfl⟩

theorem ccmSealed_usage
    (hsealed : ccmSealed encryptBlock tagLength nonce aad plaintext = .ok (ciphertext, tag)) :
    (ccmUsage encryptBlock nonce aad tagLength plaintext.length).Seals plaintext ciphertext
      tag := by
  obtain ⟨mac, hmac, hrest⟩ := bind_eq_ok.mp hsealed
  obtain ⟨stream, hstream, hrest⟩ := bind_eq_ok.mp hrest
  obtain ⟨block, hblock, hlast⟩ := bind_eq_ok.mp hrest
  cases hlast
  rw [ccm_keystream] at hstream
  have hinternal : encryptInternal encryptBlock (ccmCounterBlock nonce 0) = .ok block := by
    rw [encryptInternal, hblock]
  exact ⟨stream, block, hstream, rfl, hinternal, bind_eq_ok.mpr ⟨mac, hmac, rfl⟩⟩

theorem chacha20Sealed_usage
    (hlength : cryptoChacha20ValidateLength plaintext.length 1 = .ok ())
    (hsealed : chacha20Poly1305Sealed key nonce aad plaintext = .ok (ciphertext, tag)) :
    (chacha20Usage key nonce aad plaintext.length).Seals plaintext ciphertext tag := by
  obtain ⟨stream, hstream, hlast⟩ := bind_eq_ok.mp hsealed
  cases hlast
  rw [chacha20_keystream key nonce hlength] at hstream
  exact ⟨stream, _, hstream, rfl, rfl, rfl⟩

end Usage

section Calls

variable {ι : Type} {aes : AesCipher} {alg : LiberaCAlgID} {parameters : AeadParameters}
  {r : Request} {memory : Memory}

/-- The loop of a call masks its input with the blocks of the counters, and what both calls give is
masked and tagged in this way. No input of the cipher is used twice for any of this. -/
structure Separates (u : Usage ι) (loop : OnMemory Unit) (aes : AesCipher) (alg : LiberaCAlgID)
    (r : Request) (memory : Memory) : Prop where
  distinct : (u.other :: u.counters).Nodup
  masks : ∃ bytes, bytes.length ≤ r.inputLength ∧
    loop memory = ((encipher u.cipher u.blockLength r.inputLength u.counters).map fun _ => (),
      writeBytes memory r.output bytes) ∧
    ∀ stream, encipher u.cipher u.blockLength r.inputLength u.counters = .ok stream →
      bytes = xorBytes (readBytes memory r.input r.inputLength) stream
  encrypts : ∀ tagCapacity, r.tagLength ≤ tagCapacity →
    let after := liberacAeadEncrypt aes r tagCapacity alg memory
    after.1 = .ok () → u.Seals (readBytes memory r.input r.inputLength)
      (readBytes after.2 r.output r.inputLength) (readBytes after.2 r.tag r.tagLength)
  decrypts :
    let after := liberacAeadDecrypt aes r alg memory
    after.1 = .ok () → u.Seals (readBytes after.2 r.output r.inputLength)
      (readBytes memory r.input r.inputLength) (readBytes memory r.tag r.tagLength)

theorem separates_of_sealed {u : Usage ι} {loop : OnMemory Unit} (h : Accepted alg parameters r)
    (hdistinct : (u.other :: u.counters).Nodup)
    (hmasks : ∃ bytes, bytes.length ≤ r.inputLength ∧
      loop memory = ((encipher u.cipher u.blockLength r.inputLength u.counters).map fun _ => (),
        writeBytes memory r.output bytes) ∧
      ∀ stream, encipher u.cipher u.blockLength r.inputLength u.counters = .ok stream →
        bytes = xorBytes (readBytes memory r.input r.inputLength) stream)
    (hsealed : ∀ plaintext ciphertext tag, plaintext.length = r.inputLength →
      aeadSealed aes parameters.family (inputsOf r memory) plaintext = .ok (ciphertext, tag) →
        u.Seals plaintext ciphertext tag) :
    Separates u loop aes alg r memory := by
  refine ⟨hdistinct, hmasks, fun tagCapacity hcapacity hok => ?_, fun hok => ?_⟩
  · exact hsealed _ _ _ (readBytes_length _ _ _)
      ((encrypt_gives_iff aes memory h hcapacity).mp ⟨hok, rfl, rfl⟩)
  · have hopened := (decrypt_gives_iff aes memory h).mp ⟨hok, rfl⟩
    exact hsealed _ _ _ (readBytes_length _ _ _) ((opens_iff_seals aes memory h).mp hopened)

theorem gcm_separates (h : Accepted alg parameters r) (hfamily : parameters.family = .aesGcm)
    (hcheck : gcmCheck r = .ok ()) {encryptBlock : BlockFunction} {hash j0 : List UInt8}
    (haes : aes (readBytes memory r.key r.keyLength) = .ok encryptBlock)
    (hhash : encryptBlock zeroBlock = .ok hash)
    (hj0 : gcmMakeJ0 hash (readBytes memory r.nonce r.nonceLength) = .ok j0) :
    Separates (gcmUsage encryptBlock hash j0 (readBytes memory r.aad r.aadLength) r.tagLength
      r.inputLength) (gcmCtr encryptBlock j0 r.input r.inputLength r.output) aes alg r memory := by
  have hlength : r.inputLength ≤ 0xfffffffe * 16 := by
    unfold gcmCheck gcmValidateLengths at hcheck
    dsimp only at hcheck
    split_ifs at hcheck with _ _ _ hlimits
    omega
  refine separates_of_sealed h (gcmCounters_nodup (gcmMakeJ0_length hj0) hlength) ?_ ?_
  · have hrun := gcmCtr_run encryptBlock h.checked.separated j0 memory
    rw [gcm_keystream] at hrun
    exact hrun
  · intro plaintext ciphertext tag hplaintext hsealed
    rw [hfamily] at hsealed
    obtain ⟨encryptBlock', haes', hrest⟩ := bind_eq_ok.mp hsealed
    obtain rfl := Except.ok.inj (haes.symm.trans haes')
    obtain ⟨-, -, hgcm⟩ := bind_eq_ok.mp hrest
    rw [← hplaintext]
    exact gcmSealed_usage hhash hj0 hgcm

theorem ccm_separates (h : Accepted alg parameters r) (hfamily : parameters.family = .aesCcm)
    (hcheck : ccmCheck r = .ok ()) (hsize : r.inputLength < 2 ^ 64) {encryptBlock : BlockFunction}
    (haes : aes (readBytes memory r.key r.keyLength) = .ok encryptBlock) :
    Separates (ccmUsage encryptBlock (readBytes memory r.nonce r.nonceLength)
      (readBytes memory r.aad r.aadLength) r.tagLength r.inputLength)
      (ccmCtr encryptBlock r.nonce r.nonceLength r.input r.inputLength r.output) aes alg r
      memory := by
  have hlength : r.inputLength < 256 ^ (15 - r.nonceLength) := by
    unfold ccmCheck ccmValidate at hcheck
    split_ifs at hcheck with _ _ _ hfits
    exact lt_of_ccmLengthFits hfits hsize
  have hdistinct := @ccmCounters_nodup (readBytes memory r.nonce r.nonceLength) r.inputLength
    (by rwa [readBytes_length])
  refine separates_of_sealed h hdistinct ?_ ?_
  · have hrun := ccmCtr_run encryptBlock h.checked.separated memory
    rw [ccm_keystream] at hrun
    exact hrun
  · intro plaintext ciphertext tag hplaintext hsealed
    rw [hfamily] at hsealed
    obtain ⟨encryptBlock', haes', hrest⟩ := bind_eq_ok.mp hsealed
    obtain rfl := Except.ok.inj (haes.symm.trans haes')
    obtain ⟨-, -, hccm⟩ := bind_eq_ok.mp hrest
    rw [← hplaintext]
    exact ccmSealed_usage hccm

theorem chacha20_separates (h : Accepted alg parameters r)
    (hfamily : parameters.family = .chacha20Poly1305) :
    Separates (chacha20Usage (readBytes memory r.key 32) (readBytes memory r.nonce 12)
      (readBytes memory r.aad r.aadLength) r.inputLength)
      (cryptoChacha20XorInternal r.output r.input r.inputLength r.key r.nonce 1) aes alg r
      memory := by
  obtain ⟨hkey, hnonce, -⟩ := h.lengths.2.2 hfamily
  have hcheck := h.checked.chacha20 hfamily
  have hlength : cryptoChacha20ValidateLength r.inputLength 1 = .ok () := by
    unfold cryptoChacha20Poly1305ValidateLengths at hcheck
    split_ifs at hcheck
    exact hcheck
  refine separates_of_sealed h (chacha20Counters_nodup hlength) ?_ ?_
  · have hrun := chacha20Xor_run h.checked.separated memory
    rw [chacha20_keystream _ _ hlength] at hrun
    exact hrun
  · intro plaintext ciphertext tag hplaintext hsealed
    rw [hfamily] at hsealed
    rw [← hkey, ← hnonce, ← hplaintext]
    exact chacha20Sealed_usage (hplaintext.symm ▸ hlength) hsealed

/-- In every accepted call the counter blocks of the message are different from each other and from
the block that masks the tag, or makes the key of the tag. -/
theorem keystream_separation (aes : AesCipher) (h : Accepted alg parameters r)
    (hsize : r.inputLength < 2 ^ 64) (memory : Memory) :
    (parameters.family = .aesGcm → gcmCheck r = .ok () →
      ∀ (encryptBlock : BlockFunction) (hash j0 : List UInt8),
        aes (readBytes memory r.key r.keyLength) = .ok encryptBlock →
        encryptBlock zeroBlock = .ok hash →
        gcmMakeJ0 hash (readBytes memory r.nonce r.nonceLength) = .ok j0 →
        Separates (gcmUsage encryptBlock hash j0 (readBytes memory r.aad r.aadLength) r.tagLength
          r.inputLength) (gcmCtr encryptBlock j0 r.input r.inputLength r.output) aes alg r memory) ∧
      (parameters.family = .aesCcm → ccmCheck r = .ok () → ∀ encryptBlock : BlockFunction,
        aes (readBytes memory r.key r.keyLength) = .ok encryptBlock →
        Separates (ccmUsage encryptBlock (readBytes memory r.nonce r.nonceLength)
          (readBytes memory r.aad r.aadLength) r.tagLength r.inputLength)
          (ccmCtr encryptBlock r.nonce r.nonceLength r.input r.inputLength r.output) aes alg r
          memory) ∧
      (parameters.family = .chacha20Poly1305 →
        Separates (chacha20Usage (readBytes memory r.key 32) (readBytes memory r.nonce 12)
          (readBytes memory r.aad r.aadLength) r.inputLength)
          (cryptoChacha20XorInternal r.output r.input r.inputLength r.key r.nonce 1) aes alg r
          memory) := by
  refine ⟨fun hfamily hcheck encryptBlock hash j0 haes hhash hj0 => ?_,
    fun hfamily hcheck encryptBlock haes => ?_, fun hfamily => ?_⟩
  · exact gcm_separates h hfamily hcheck haes hhash hj0
  · exact ccm_separates h hfamily hcheck hsize haes
  · exact chacha20_separates h hfamily

def gcmRequest : Request := ⟨4000, 50, 6000, 16, 4000, 50, 1000, 16, 2000, 12, 3000, 5⟩

def chacha20Request : Request := ⟨4000, 200, 6000, 16, 4000, 200, 1000, 32, 2000, 12, 3000, 5⟩

/-- The calls succeed, four blocks mask each message, and a fifth goes into the tag. -/
theorem keystream_separation_in_place :
    let sealed := liberacAeadEncrypt cryptoAes gcmRequest 16 .aes128Gcm sampleMemory
    let masked := liberacAeadEncrypt cryptoAes chacha20Request 16 .chacha20Poly1305 sampleMemory
    let j0 := readBytes sampleMemory 2000 12 ++ [0, 0, 0, 1]
    (∃ encryptBlock hash, cryptoAes (readBytes sampleMemory 1000 16) = .ok encryptBlock ∧
      sealed.1 = .ok () ∧ (gcmCounters j0 50).length = 4 ∧ (j0 :: gcmCounters j0 50).Nodup ∧
      (gcmUsage encryptBlock hash j0 (readBytes sampleMemory 3000 5) 16 50).Seals
        (readBytes sampleMemory 4000 50) (readBytes sealed.2 4000 50)
        (readBytes sealed.2 6000 16)) ∧
    masked.1 = .ok () ∧ chacha20Counters 200 = [1, 2, 3, 4] ∧ (0 :: chacha20Counters 200).Nodup ∧
      (chacha20Usage (readBytes sampleMemory 1000 32) (readBytes sampleMemory 2000 12)
        (readBytes sampleMemory 3000 5) 200).Seals (readBytes sampleMemory 4000 200)
        (readBytes masked.2 4000 200) (readBytes masked.2 6000 16) := by
  have hgcm : Accepted .aes128Gcm ⟨16, .aesGcm⟩ gcmRequest := ⟨rfl, by decide⟩
  have hchacha20 : Accepted .chacha20Poly1305 ⟨32, .chacha20Poly1305⟩ chacha20Request :=
    ⟨rfl, by decide⟩
  constructor
  · obtain ⟨encryptBlock, haes, htotal⟩ := cryptoAes_total (readBytes sampleMemory 1000 16)
      (by rw [readBytes_length]; decide)
    obtain ⟨hash, hhash⟩ := htotal zeroBlock
    have hlimits : WithinLimits .aesGcm gcmRequest := ⟨by decide, by decide, by decide⟩
    obtain ⟨c, hc⟩ := sealed_total cryptoAes_total hgcm hlimits sampleMemory
    have hok := ((encrypt_gives_iff cryptoAes sampleMemory hgcm (Nat.le_refl 16)).mpr hc).1
    have hj0 : gcmMakeJ0 hash (readBytes sampleMemory 2000 12) =
        .ok (readBytes sampleMemory 2000 12 ++ [0, 0, 0, 1]) := if_pos (readBytes_length _ _ _)
    have hseparates := (keystream_separation cryptoAes hgcm (by decide) sampleMemory).1 rfl
      (by decide) encryptBlock hash _ haes hhash hj0
    exact ⟨encryptBlock, hash, haes, hok, rfl, hseparates.distinct,
      hseparates.encrypts 16 (by decide) hok⟩
  · obtain ⟨c, hc⟩ := sealed_total cryptoAes_total hchacha20 trivial sampleMemory
    have hok := ((encrypt_gives_iff cryptoAes sampleMemory hchacha20 (Nat.le_refl 16)).mpr hc).1
    have hseparates := (keystream_separation cryptoAes hchacha20 (by decide) sampleMemory).2.2 rfl
    exact ⟨hok, by decide, hseparates.distinct, hseparates.encrypts 16 (by decide) hok⟩

end Calls

end LiberaCrypt.AeadCounters
