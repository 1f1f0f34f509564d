import LiberaCrypt.Elgamal
import LiberaCrypt.ModExpAgree
import LiberaCrypt.PrimeGeneration
import Mathlib.FieldTheory.Finite.Basic
import Mathlib.Tactic.NormNum.Prime

namespace LiberaCrypt.ElgamalCorrect

open LiberaCrypt.Outcome LiberaCrypt.Allocation LiberaCrypt.Def LiberaCrypt.Limbs
open LiberaCrypt.Bignum LiberaCrypt.BignumSmall LiberaCrypt.BignumSecret LiberaCrypt.BignumRandom
open LiberaCrypt.Prime LiberaCrypt.ModExpSecure LiberaCrypt.ModExpVartime LiberaCrypt.ModExpAgree
open LiberaCrypt.Elgamal

section Field

variable {P Q : Nat} [Fact P.Prime] {s g : ZMod P}

theorem orderOf_square (hQ : Q.Prime) (hsafe : P = 2 * Q + 1) (hs : s ≠ 0) (hone : s ^ 2 ≠ 1) :
    orderOf (s ^ 2) = Q := by
  have := Fact.mk hQ
  have hfermat := ZMod.pow_card_sub_one_eq_one hs
  have hexponent : P - 1 = 2 * Q := by omega
  rw [hexponent, pow_mul] at hfermat
  exact orderOf_eq_prime hfermat hone

/-- The exponent `p - 1 - x` takes the mask off again. -/
theorem unmask (hg : g ≠ 0) {x : Nat} (hx : x ≤ P - 1) (y : Nat) (m : ZMod P) :
    m * (g ^ x) ^ y * (g ^ y) ^ (P - 1 - x) = m := by
  have hfermat := ZMod.pow_card_sub_one_eq_one hg
  calc m * (g ^ x) ^ y * (g ^ y) ^ (P - 1 - x)
      = m * (g ^ (x + (P - 1 - x))) ^ y := by ring
    _ = m * (g ^ (P - 1)) ^ y := by rw [Nat.add_sub_cancel' hx]
    _ = m := by rw [hfermat, one_pow, mul_one]

end Field

variable {p q g h x y message out : LiberaCBignum} {room : Nat}

theorem elgamalRandomNonzero_returns (hq : q.Valid) :
    Returns (elgamalRandomNonzero q) fun x => x.Valid ∧ 1 ≤ x.value ∧ x.value < q.value := by
  unfold elgamalRandomNonzero
  refine Returns.retry ((cryptoBignumRandomRange_returns hq).bind ?_) 128
  rintro x ⟨hx, hlt⟩
  refine Returns.pure fun a ha => ?_
  by_cases hzero : cryptoBignumIsZero x = true
  · rw [if_pos hzero] at ha
    exact nomatch ha
  · rw [if_neg hzero] at ha
    cases ha
    have hlength : x.length ≠ 0 := fun h0 => hzero (beq_iff_eq.mpr h0)
    exact ⟨hx, Nat.one_le_iff_ne_zero.mpr fun h0 => hlength (hx.length_eq_zero.mpr h0), hlt⟩

/-- The square of a number that is neither `0` nor `p - 1` modulo `p`, and not one. -/
structure Generator (p g : LiberaCBignum) : Prop where
  valid : g.Valid
  square : ∃ s, 2 ≤ s ∧ s < p.value ∧ g.value = s ^ 2 % p.value
  ne_one : g.value ≠ 1

theorem generatorCandidate_returns {pMinus3 : LiberaCBignum} (hp : p.Valid) (hlarge : 3 ≤ p.value)
    (hminus : pMinus3.Valid) (hvalue : pMinus3.value = p.value - 3) :
    Returns (generatorCandidate p pMinus3) fun found => ∀ g, found = some g → Generator p g := by
  unfold generatorCandidate
  refine (cryptoBignumRandomRange_returns hminus).bind ?_
  rintro hseed ⟨hs, hlt⟩
  refine (Returns.lift (Ensures.reported (bignumAddU32_ensures hs 2 (le_refl _)))).bind ?_
  rintro seed ⟨hseed, hsum⟩
  refine (Returns.lift (Ensures.reported (cryptoBignumModSquare_ensures init_valid hseed hp
    (by omega) (le_refl _)))).bind ?_
  rintro g ⟨hg, hsquare⟩
  refine Returns.pure fun a ha => ?_
  change seed.value = _ + 2 at hsum
  by_cases hone : isWord g 1 = true
  · rw [if_pos hone] at ha
    exact nomatch ha
  · rw [if_neg hone] at ha
    cases ha
    refine ⟨hg, ⟨seed.value, by omega, by omega, hsquare⟩, ?_⟩
    exact fun h1 => hone ((isWord_iff hg (by decide)).mpr h1)

structure KeyPair (publicKey : LiberaCElgamalPublicKey) (privateKey : LiberaCElgamalPrivateKey) :
    Prop where
  p_valid : publicKey.p.Valid
  q_valid : publicKey.q.Valid
  safe : publicKey.p.value = 2 * publicKey.q.value + 1
  generator : Generator publicKey.p publicKey.g
  h_valid : publicKey.h.Valid
  h_value : publicKey.h.value =
    publicKey.g.value ^ privateKey.x.value % publicKey.p.value
  x_valid : privateKey.x.Valid
  x_lt : privateKey.x.value < publicKey.q.value
  x_storage : publicKey.p.length ≤ privateKey.x.capacity

theorem storeKeys_ensures (hp : p.Valid) (hq : q.Valid) (hg : g.Valid) (hh : h.Valid)
    (hx : Fixed p.length x y.value) (hlength : x.length ≤ p.length)
    (hroom : 4 * (p.length + q.length + g.length + h.length) ≤ room) :
    Ensures room (storeKeys p q g h x) fun keys =>
      (keys.1.p.Valid ∧ keys.1.p.value = p.value) ∧ (keys.1.q.Valid ∧ keys.1.q.value = q.value) ∧
      (keys.1.g.Valid ∧ keys.1.g.value = g.value) ∧ (keys.1.h.Valid ∧ keys.1.h.value = h.value) ∧
      Fixed p.length keys.2.x y.value := by
  apply (Ensures.reported (cryptoBignumCopy_ensures init_valid hp (by omega))).bind
  intro keyP hkeyP
  apply (Ensures.reported (cryptoBignumCopy_ensures init_valid hq (by omega))).bind
  intro keyQ hkeyQ
  apply (Ensures.reported (cryptoBignumCopy_ensures init_valid hg (by omega))).bind
  intro keyG hkeyG
  apply (Ensures.reported (cryptoBignumCopy_ensures init_valid hh (by omega))).bind
  intro keyH hkeyH
  apply (Ensures.reported (cryptoBignumCopySecretFixedCt_ensures hx.valid hlength hx.storage
    (by omega))).bind
  intro keyX hkeyX
  rw [hx.value] at hkeyX
  exact Ensures.pure ⟨hkeyP, hkeyQ, hkeyG, hkeyH, hkeyX⟩

theorem cryptoElgamalKeygenInternal_returns (alg : LiberaCAlgID) (modulusBits primeRounds : Nat) :
    Returns (cryptoElgamalKeygenInternal alg modulusBits primeRounds)
      fun keys => KeyPair keys.1 keys.2 := by
  unfold cryptoElgamalKeygenInternal
  by_cases halg : alg ≠ .elgamalSafePrime
  · rw [if_pos halg]
    exact Returns.throw
  rw [if_neg halg]
  by_cases hbits : modulusBits < 32
  · rw [if_pos hbits]
    exact Returns.throw
  rw [if_neg hbits]
  refine (PrimeGeneration.generateSafeInternal_returns modulusBits _).bind ?_
  rintro ⟨p, q⟩ ⟨hp, hq, hsafe, hsize⟩
  dsimp only at hp hq hsafe hsize
  have hlarge : 2 ^ 31 ≤ p.value := Nat.lt_size.mp (by omega)
  refine (Returns.lift (Ensures.reported (bignumSubU32_ensures init_valid hp 3 ?_ (le_refl _)))).bind
    ?_
  · exact le_trans (by decide) hlarge
  rintro pMinus3 ⟨hminus, hvalue⟩
  change _ = p.value - 3 at hvalue
  refine (Returns.retry (generatorCandidate_returns hp (by omega) hminus hvalue) 128).bind
    fun g hg => ?_
  refine (elgamalRandomNonzero_returns hq).bind ?_
  rintro x ⟨hx, -, hxlt⟩
  have hxlength : x.length ≤ p.length := hx.length_le_of_value (by omega)
  refine (Returns.lift (cryptoBignumCopySecretFixed_ensures hx hxlength (le_refl _))).bind
    fun fixed hfixed => ?_
  have hglt : g.value < p.value := by
    obtain ⟨s, -, -, hsquare⟩ := hg.square
    rw [hsquare]
    exact Nat.mod_lt _ (by omega)
  have hfixedLength : fixed.length ≤ p.length := by
    rw [hfixed.valid.length_eq hx hfixed.value]
    exact hxlength
  refine (Returns.lift (Ensures.reported (cryptoBignumModExpCt_ensures hg.valid hglt hfixed.valid
    hfixed.storage hp (by omega) (le_refl _)))).bind ?_
  rintro h ⟨hh, hpower, -⟩
  rw [exponent_whole hfixedLength, hfixed.value] at hpower
  refine (Returns.lift (storeKeys_ensures hp hq hg.valid hh hfixed hfixedLength
    (le_refl _))).mono ?_
  rintro ⟨publicKey, privateKey⟩ ⟨⟨hP, hPvalue⟩, ⟨hQ, hQvalue⟩, ⟨hG, hGvalue⟩, ⟨hH, hHvalue⟩, hX⟩
  have hPlength := hP.length_eq hp hPvalue
  refine ⟨hP, hQ, ?_, ⟨hG, ?_, ?_⟩, hH, ?_, hX.valid, ?_, ?_⟩
  · rw [hPvalue, hQvalue, hsafe]
  · rw [hPvalue, hGvalue]
    exact hg.square
  · rw [hGvalue]
    exact hg.ne_one
  · rw [hHvalue, hGvalue, hX.value, hPvalue, hpower]
  · rw [hX.value, hQvalue]
    exact hxlt
  · rw [hPlength]
    exact hX.storage

section Run

variable {publicKey : LiberaCElgamalPublicKey} {privateKey : LiberaCElgamalPrivateKey}

theorem KeyPair.order (h : KeyPair publicKey privateKey) (hp : publicKey.p.value.Prime)
    (hq : publicKey.q.value.Prime) :
    orderOf (publicKey.g.value : ZMod publicKey.p.value) = publicKey.q.value := by
  have := Fact.mk hp
  obtain ⟨s, hlow, hhigh, hsquare⟩ := h.generator.square
  have hcast : (publicKey.g.value : ZMod publicKey.p.value) =
      (s : ZMod publicKey.p.value) ^ 2 := by
    rw [hsquare, ZMod.natCast_mod, Nat.cast_pow]
  have hs : (s : ZMod publicKey.p.value) ≠ 0 := by
    rw [Ne, ZMod.natCast_eq_zero_iff]
    exact Nat.not_dvd_of_pos_of_lt (by omega) hhigh
  have hglt : publicKey.g.value < publicKey.p.value := by
    rw [hsquare]
    exact Nat.mod_lt _ hp.pos
  rw [hcast]
  refine orderOf_square hq h.safe hs fun hone => h.generator.ne_one ?_
  have hmod := (ZMod.natCast_eq_natCast_iff' _ 1 _).mp ((hcast.trans hone).trans Nat.cast_one.symm)
  rwa [Nat.mod_eq_of_lt hglt, Nat.mod_eq_of_lt hp.one_lt] at hmod

theorem KeyPair.generator_ne_zero (h : KeyPair publicKey privateKey) (hp : publicKey.p.value.Prime)
    (hq : publicKey.q.value.Prime) : (publicKey.g.value : ZMod publicKey.p.value) ≠ 0 := by
  have := Fact.mk hp
  intro hzero
  have horder := h.order hp hq
  rw [hzero, orderOf_zero] at horder
  exact hq.ne_zero horder.symm

/-- What a ciphertext of `message` under the nonce `y` is. -/
structure Encrypts (publicKey : LiberaCElgamalPublicKey) (message y : Nat)
    (ciphertext : LiberaCElgamalCiphertext) : Prop where
  c1_valid : ciphertext.c1.Valid
  c2_valid : ciphertext.c2.Valid
  c1_value : ciphertext.c1.value = publicKey.g.value ^ y % publicKey.p.value
  c2_value : ciphertext.c2.value =
    message * (publicKey.h.value ^ y % publicKey.p.value) % publicKey.p.value

theorem encryptWithNonce_ensures (hkeys : KeyPair publicKey privateKey)
    (hp : publicKey.p.value.Prime) (hmessage : message.Valid)
    (hlt : message.value < publicKey.p.value) (hy : y.Valid)
    (hylt : y.value < publicKey.q.value) (hroom : 40 * publicKey.p.length + 8 ≤ room) :
    Ensures room (encryptWithNonce message publicKey y)
      (Encrypts publicKey message.value y.value) := by
  have hm := hkeys.p_valid
  have hsafe := hkeys.safe
  have hylength : y.length ≤ publicKey.p.length := hy.length_le_of_value (by omega)
  have hglt : publicKey.g.value < publicKey.p.value := by
    obtain ⟨s, -, -, hsquare⟩ := hkeys.generator.square
    rw [hsquare]
    exact Nat.mod_lt _ hp.pos
  have hhlt : publicKey.h.value < publicKey.p.value := by
    rw [hkeys.h_value]
    exact Nat.mod_lt _ hp.pos
  apply (cryptoBignumCopySecretFixed_ensures hy hylength (by omega)).bind
  intro fixed hfixed
  have hwhole : fixed.length ≤ publicKey.p.length :=
    (hfixed.valid.length_eq hy hfixed.value).trans_le hylength
  apply (Ensures.reported (cryptoBignumModExp2Ct_ensures hkeys.generator.valid hglt hkeys.h_valid
    hhlt hfixed.valid hfixed.storage hm (by omega) (by omega))).bind
  rintro ⟨c1, shared⟩ ⟨⟨hc1, hv1⟩, ⟨hshared, hv2⟩⟩
  rw [exponent_whole hwhole, hfixed.value] at hv1 hv2
  have hslt : shared.value < publicKey.p.value := hv2.trans_lt (Nat.mod_lt _ hp.pos)
  apply (Ensures.reported (cryptoBignumModMul_ensures init_valid hmessage hlt.le hshared hslt.le hm
    hp.ne_zero (by omega))).bind
  rintro c2 ⟨hc2, hv3⟩
  rw [hv2] at hv3
  exact Ensures.pure ⟨hc1, hc2, hv1, hv3⟩

theorem cryptoElgamalDecryptInternal_ensures {ciphertext : LiberaCElgamalCiphertext} {m e : Nat}
    (hkeys : KeyPair publicKey privateKey) (hp : publicKey.p.value.Prime)
    (hq : publicKey.q.value.Prime) (hm : m < publicKey.p.value)
    (hcipher : Encrypts publicKey m e ciphertext) (hout : out.Valid)
    (hroom : 40 * publicKey.p.length + 8 ≤ room) :
    Ensures room (cryptoElgamalDecryptInternal .elgamalSafePrime out ciphertext publicKey privateKey)
      fun r => r.Valid ∧ r.value = m := by
  have := Fact.mk hp
  have hmod := hkeys.p_valid
  have hsafe := hkeys.safe
  have hxlt := hkeys.x_lt
  have hg := hkeys.generator_ne_zero hp hq
  have hlt1 : ciphertext.c1.value < publicKey.p.value :=
    hcipher.c1_value.trans_lt (Nat.mod_lt _ hp.pos)
  have hlt2 : ciphertext.c2.value < publicKey.p.value :=
    hcipher.c2_value.trans_lt (Nat.mod_lt _ hp.pos)
  have hcast1 : (ciphertext.c1.value : ZMod publicKey.p.value) =
      (publicKey.g.value : ZMod publicKey.p.value) ^ e := by
    rw [hcipher.c1_value, ZMod.natCast_mod, Nat.cast_pow]
  have hcheck : ¬ (cryptoBignumIsZero ciphertext.c1 = true ∨
      cryptoBignumCompare ciphertext.c1 publicKey.p ≠ .lt ∨
      cryptoBignumCompare ciphertext.c2 publicKey.p ≠ .lt) := by
    rw [cryptoBignumCompare_eq hcipher.c1_valid hmod, cryptoBignumCompare_eq hcipher.c2_valid hmod,
      Nat.compare_eq_lt.mpr hlt1, Nat.compare_eq_lt.mpr hlt2]
    intro h
    have hzero : ciphertext.c1.length = 0 := beq_iff_eq.mp (h.resolve_right (by simp))
    rw [hcipher.c1_valid.length_eq_zero.mp hzero, Nat.cast_zero] at hcast1
    exact pow_ne_zero e hg hcast1.symm
  unfold cryptoElgamalDecryptInternal
  rw [if_neg (by decide), if_neg hcheck]
  have hone : (1 : UInt32).toNat ≤ publicKey.p.value := hp.one_lt.le
  apply (Ensures.reported ((bignumSubU32_ensures init_valid hmod 1 hone (by omega)).and
    (bignumSubU32_capacity init_valid hmod 1 hone (by omega)))).bind
  rintro minusOne ⟨⟨hminus, hvalue⟩, hcapacity⟩
  change _ = publicKey.p.value - 1 at hvalue
  have hminusLength : minusOne.length ≤ publicKey.p.length :=
    hminus.length_le_of_value (by omega)
  apply (Ensures.reported (cryptoBignumSubSecretFixed_ensures hminus hkeys.x_valid (by omega)
    hminusLength hcapacity hkeys.x_storage (by omega))).bind
  intro inverse hinverse
  have hwhole : inverse.length ≤ publicKey.p.length := by
    apply hinverse.valid.length_le_of_value
    rw [hinverse.value]
    omega
  apply (Ensures.reported (cryptoBignumModExpCt_ensures hcipher.c1_valid hlt1 hinverse.valid
    hinverse.storage hmod (by omega) (by omega))).bind
  rintro factor ⟨hfactor, hpower, -⟩
  rw [exponent_whole hwhole, hinverse.value, hvalue] at hpower
  have hflt : factor.value < publicKey.p.value := hpower.trans_lt (Nat.mod_lt _ hp.pos)
  apply Ensures.reported
  apply (cryptoBignumModMul_ensures hout hcipher.c2_valid hlt2.le hfactor hflt.le hmod hp.ne_zero
    (by omega)).mono
  rintro r ⟨hr, hproduct⟩
  refine ⟨hr, ?_⟩
  have hrlt : r.value < publicKey.p.value := hproduct.trans_lt (Nat.mod_lt _ hp.pos)
  have hcast : (r.value : ZMod publicKey.p.value) = m := by
    rw [hproduct, hcipher.c2_value, hkeys.h_value, hpower]
    simp only [ZMod.natCast_mod, Nat.cast_mul, Nat.cast_pow]
    rw [hcast1]
    exact unmask hg (by omega) e _
  have hfinal := (ZMod.natCast_eq_natCast_iff' _ _ _).mp hcast
  rwa [Nat.mod_eq_of_lt hrlt, Nat.mod_eq_of_lt hm] at hfinal

end Run

/-- A generated pair whose numbers are prime has a generator of order `q`; then, whatever the nonce
is, decryption returns the message. -/
theorem elgamal_round_trip (alg : LiberaCAlgID) (modulusBits primeRounds : Nat) :
    Returns (cryptoElgamalKeygenInternal alg modulusBits primeRounds) fun keys =>
      keys.1.p.value.Prime → keys.1.q.value.Prime →
        orderOf (keys.1.g.value : ZMod keys.1.p.value) = keys.1.q.value ∧
        ∀ message out : LiberaCBignum, message.Valid → out.Valid →
          message.value < keys.1.p.value →
          ∀ room, 40 * keys.1.p.length + 8 ≤ room →
            (∀ y : LiberaCBignum, y.Valid → 1 ≤ y.value → y.value < keys.1.q.value →
              Ensures room (encryptWithNonce message keys.1 y) fun ciphertext =>
                Ensures room
                  (cryptoElgamalDecryptInternal .elgamalSafePrime out ciphertext keys.1 keys.2)
                  fun r => r.Valid ∧ r.value = message.value) ∧
            Returns (cryptoElgamalEncryptInternal .elgamalSafePrime message keys.1)
              fun ciphertext => Ensures room
                (cryptoElgamalDecryptInternal .elgamalSafePrime out ciphertext keys.1 keys.2)
                fun r => r.Valid ∧ r.value = message.value := by
  refine (cryptoElgamalKeygenInternal_returns alg modulusBits primeRounds).mono ?_
  rintro ⟨publicKey, privateKey⟩ hkeys hp hq
  refine ⟨hkeys.order hp hq, fun message out hmessage hout hlt room hroom => ?_⟩
  have hcorrect : ∀ y : LiberaCBignum, y.Valid → 1 ≤ y.value → y.value < publicKey.q.value →
      Ensures room (encryptWithNonce message publicKey y) fun ciphertext =>
        Ensures room
          (cryptoElgamalDecryptInternal .elgamalSafePrime out ciphertext publicKey privateKey)
          fun r => r.Valid ∧ r.value = message.value := by
    intro y hy hpos hylt
    apply (encryptWithNonce_ensures hkeys hp hmessage hlt hy hylt hroom).mono
    intro ciphertext hcipher
    exact cryptoElgamalDecryptInternal_ensures hkeys hp hq hlt hcipher hout hroom
  refine ⟨hcorrect, ?_⟩
  unfold cryptoElgamalEncryptInternal
  rw [if_neg (by decide), if_neg (by
    rw [cryptoBignumCompare_eq hmessage hkeys.p_valid, Nat.compare_eq_lt.mpr hlt]
    decide)]
  refine (elgamalRandomNonzero_returns hkeys.q_valid).bind ?_
  rintro y ⟨hy, hpos, hylt⟩
  exact Returns.lift (hcorrect y hy hpos hylt)

def sampleEntropy : Entropy := fun k =>
  some fun i => UInt8.ofNat ((if k = 0 then 1737571301 else 1000003) / 256 ^ (3 - i))

set_option maxRecDepth 100000 in
/-- A run of 32 bits that finds its pair at the first try, and a message encrypted with a nonce. -/
theorem elgamal_round_trip_sample :
    ∃ keys, outcome (cryptoElgamalKeygenInternal .elgamalSafePrime 32 1 sampleEntropy 0)
        generousHost 0 = .ok (keys, 5) ∧
      orderOf (keys.1.g.value : ZMod keys.1.p.value) = 1737571301 ∧
      Ensures 48 (encryptWithNonce (oneLimb 3000000000) keys.1 (oneLimb 1234567890)) fun ciphertext =>
        Ensures 48 (cryptoElgamalDecryptInternal .elgamalSafePrime cryptoBignumInit ciphertext keys.1
          keys.2) fun r => r.Valid ∧ r.value = 3000000000 := by
  have hrun : (outcome (cryptoElgamalKeygenInternal .elgamalSafePrime 32 1 sampleEntropy 0)
      generousHost 0).toOption.map (fun found => (found.1.1.p.value, found.1.1.q.value,
        found.1.1.p.length, found.2)) = some (3475142603, 1737571301, 1, 5) := by decide +kernel
  have hp : Nat.Prime 3475142603 := by norm_num
  have hq : Nat.Prime 1737571301 := by norm_num
  have hkeys := elgamal_round_trip .elgamalSafePrime 32 1 sampleEntropy 0 generousHost 0
  generalize outcome _ generousHost 0 = result at hrun hkeys ⊢
  cases result with
  | error e => exact nomatch hrun
  | ok found =>
    obtain ⟨keys, draws⟩ := found
    simp only [Except.toOption, Option.map_some, Option.some.injEq, Prod.mk.injEq] at hrun
    obtain ⟨hpvalue, hqvalue, hlength, hdraws⟩ := hrun
    obtain ⟨horder, hround⟩ := hkeys keys draws rfl (hpvalue ▸ hp) (hqvalue ▸ hq)
    rw [hqvalue] at horder
    have hmessage : (oneLimb 3000000000).value = 3000000000 := by decide
    have hnonce : (oneLimb 1234567890).value = 1234567890 := by decide
    obtain ⟨hdecrypts, -⟩ := hround (oneLimb 3000000000) cryptoBignumInit (oneLimb_valid (by decide))
      init_valid (by rw [hpvalue, hmessage]; norm_num) 48 (by rw [hlength])
    have hopened := hdecrypts (oneLimb 1234567890) (oneLimb_valid (by decide))
      (by rw [hnonce]; norm_num) (by rw [hqvalue, hnonce]; norm_num)
    rw [hmessage] at hopened
    exact ⟨keys, by rw [hdraws], horder, hopened⟩

end LiberaCrypt.ElgamalCorrect
