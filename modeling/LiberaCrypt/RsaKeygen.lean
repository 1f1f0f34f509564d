import LiberaCrypt.PrimeGeneration
import LiberaCrypt.RsaInverse
import LiberaCrypt.RsaOperations

namespace LiberaCrypt.RsaKeygen

open LiberaCrypt.Outcome LiberaCrypt.Allocation LiberaCrypt.Bignum LiberaCrypt.BignumAdd
open LiberaCrypt.BignumMul LiberaCrypt.BignumRandom LiberaCrypt.BignumSecret
open LiberaCrypt.BignumSmall LiberaCrypt.Def LiberaCrypt.FermatExponent LiberaCrypt.Limbs
open LiberaCrypt.ModExpAgree LiberaCrypt.ModExpSecure LiberaCrypt.ModExpVartime
open LiberaCrypt.Montgomery LiberaCrypt.Prime LiberaCrypt.PrimeGeneration LiberaCrypt.Rsa
open LiberaCrypt.RsaInverse LiberaCrypt.RsaOperations

def rsaDefaultE : UInt32 := 65537

/-- `D = (phi * k + 1) / E`, for the `k` that makes the division exact. -/
def makePrivateExponent (phi : LiberaCBignum) : Fallible LiberaCBignum :=
  let r := bignumModU32 phi rsaDefaultE
  if r = 0 then throw .invalidArgument
  else do
    let inv ← orFail (rsaInverseU32 r rsaDefaultE)
    if inv = 0 then throw .invalidArgument
    else do
      let k := rsaDefaultE - inv
      let k := if k = rsaDefaultE then 0 else k
      let tmp ← bignumMulU32 phi k
      let numerator ← bignumAddU32Copy cryptoBignumInit tmp 1
      let (d, rem) ← bignumDivU32 numerator rsaDefaultE
      if rem ≠ 0 then throw .invalidArgument else pure d

def attempted {α : Type} (x : Fallible α) : Fallible (Option α) :=
  recover (do return some (← x)) (pure none)

def storeKeys (p q n d : LiberaCBignum) :
    Fallible (LiberaCRsaPublicKey × LiberaCRsaPrivateKey) := do
  let d ← reported (cryptoBignumCopySecretFixed d n.length) .allocationFailed
  let publicN ← reported (cryptoBignumCopy cryptoBignumInit n) .allocationFailed
  let publicE ← reported (cryptoBignumSetU64 cryptoBignumInit rsaDefaultE.toUInt64)
    .allocationFailed
  let privateN ← reported (cryptoBignumCopy cryptoBignumInit n) .allocationFailed
  let privateD ← reported (cryptoBignumCopySecretFixedCt d n.length) .allocationFailed
  let privateP ← reported (cryptoBignumCopy cryptoBignumInit p) .allocationFailed
  let privateQ ← reported (cryptoBignumCopy cryptoBignumInit q) .allocationFailed
  pure (⟨publicN, publicE⟩, ⟨privateN, privateD, privateP, privateQ⟩)

def keysOfPrimes (modulusBits : Nat) (p q : LiberaCBignum) :
    Fallible (Option (LiberaCRsaPublicKey × LiberaCRsaPrivateKey)) :=
  if cryptoBignumCompare p q = .eq then pure none
  else do
    let n ← reported (cryptoBignumMul cryptoBignumInit p q false) .arithmetic
    if cryptoBignumBitLength n ≠ modulusBits then pure none
    else do
      let p1 ← reported (bignumSubU32 cryptoBignumInit p 1) .arithmetic
      let q1 ← reported (bignumSubU32 cryptoBignumInit q 1) .arithmetic
      let phi ← reported (cryptoBignumMul cryptoBignumInit p1 q1 false) .arithmetic
      if bignumModU32 phi rsaDefaultE = 0 then pure none
      else do
        match ← attempted (makePrivateExponent phi) with
        | none => pure none
        | some d => return some (← storeKeys p q n d)

def cryptoRsaKeygenInternal (alg : LiberaCAlgID) (modulusBits primeRounds : Nat) :
    Randomized (LiberaCRsaPublicKey × LiberaCRsaPrivateKey) :=
  if alg ≠ .rsaRaw ∧ alg ≠ .rsaOaep ∧ alg ≠ .rsaPss then throw .invalidAlgId
  else if modulusBits < 32 then throw .invalidArgument
  else
    let primeRounds := if primeRounds = 0 then 32 else primeRounds
    let pBits := modulusBits / 2
    let qBits := modulusBits - pBits
    retry .primeGenerationFailed (do
      let p ← cryptoPrimeGenerateInternal pBits primeRounds
      let q ← cryptoPrimeGenerateInternal qBits primeRounds
      keysOfPrimes modulusBits p q) 128

section Exponent

variable {phi : LiberaCBignum} {room : Nat}

theorem rsaDefaultE_prime : Nat.Prime 65537 := by norm_num

/-- The numerator is a multiple of `E`, as `k` is the negated inverse of `phi`. -/
theorem numerator_divisible {n inv : Nat} (hle : inv ≤ 65537)
    (hinverse : inv * (n % 65537) ≡ 1 [MOD 65537]) : (n * (65537 - inv) + 1) % 65537 = 0 := by
  have hreduced : n * inv ≡ 1 [MOD 65537] := by
    rw [Nat.mul_comm]
    exact ((Nat.mod_modEq n 65537).mul_left inv).symm.trans hinverse
  have hsum : n * (65537 - inv) + 1 + n * inv ≡ 0 + n * inv [MOD 65537] := by
    have hsplit : n * (65537 - inv) + 1 + n * inv = 65537 * n + 1 := by
      rw [Nat.add_right_comm, ← Nat.mul_add, Nat.sub_add_cancel hle, Nat.mul_comm]
    rw [hsplit, Nat.zero_add]
    exact (Nat.modEq_iff_dvd.mpr ⟨-n, by push_cast; ring⟩).trans hreduced.symm
  exact hsum.add_right_cancel' _

/-- The exponent is found wherever `phi` is no multiple of `E`. -/
theorem makePrivateExponent_ensures (hphi : phi.Valid) (hcoprime : phi.value % 65537 ≠ 0)
    (hroom : 4 * (phi.length + 2) ≤ room) :
    Ensures room (makePrivateExponent phi) fun d => d.Valid ∧
      ∃ k < 65537, 65537 * d.value = phi.value * k + 1 := by
  have hmod : (bignumModU32 phi rsaDefaultE).toNat = phi.value % 65537 :=
    bignumModU32_toNat hphi (by decide)
  have hr : bignumModU32 phi rsaDefaultE ≠ 0 := by
    intro h
    rw [h] at hmod
    exact hcoprime hmod.symm
  have hprime : Nat.Coprime (phi.value % 65537) 65537 := by
    apply Nat.Coprime.symm
    rw [Nat.Prime.coprime_iff_not_dvd rsaDefaultE_prime]
    exact fun hdvd => hcoprime (Nat.eq_zero_of_dvd_of_lt hdvd (Nat.mod_lt _ (by decide)))
  obtain ⟨inv, hfound, hpos, hlt, hone⟩ :=
    rsaInverseU32_coprime (bignumModU32 phi rsaDefaultE) rsaDefaultE (by decide)
      (by rw [hmod]; exact hprime)
  rw [hmod, show rsaDefaultE.toNat = 65537 from rfl] at hone
  rw [show rsaDefaultE.toNat = 65537 from rfl] at hlt
  have hinv : inv ≠ 0 := by
    rintro rfl
    exact absurd hpos (by decide)
  have hk : (rsaDefaultE - inv).toNat = 65537 - inv.toNat :=
    UInt32.toNat_sub_of_le _ _ (UInt32.le_iff_toNat_le.mpr hlt.le)
  have hkne : rsaDefaultE - inv ≠ rsaDefaultE := by
    intro h
    rw [h, show rsaDefaultE.toNat = 65537 from rfl] at hk
    omega
  have hzero := numerator_divisible hlt.le hone
  unfold makePrivateExponent
  dsimp only
  rw [if_neg hr, hfound, orFail_some, pure_bind, if_neg hinv, if_neg hkne]
  generalize rsaDefaultE - inv = k at hk ⊢
  apply (bignumMulU32_ensures hphi k (by omega)).bind
  rintro tmp ⟨htmp, hproduct⟩
  rw [hk] at hproduct
  have htmpLength : tmp.length ≤ phi.length + 1 := by
    apply htmp.length_le_iff.mpr
    rw [hproduct, pow_succ]
    exact Nat.mul_lt_mul'' phi.value_lt ((Nat.sub_le _ _).trans_lt (by decide))
  apply (bignumAddU32Copy_ensures init_valid htmp 1 (by omega)).bind
  rintro numerator ⟨hnumerator, hsum⟩
  rw [hproduct, UInt32.toNat_one] at hsum
  have hlength : numerator.length ≤ phi.length + 2 := by
    apply hnumerator.length_le_iff.mpr
    have hlt := htmp.length_le_iff.mp htmpLength
    rw [hsum, ← hproduct]
    exact (Nat.succ_le_of_lt hlt).trans_lt (Nat.pow_lt_pow_right (by decide) (Nat.lt_succ_self _))
  apply (bignumDivU32_ensures hnumerator (v := rsaDefaultE) (by decide) (by omega)).bind
  rintro ⟨d, rem⟩ ⟨⟨hd, hquotient⟩, hrem⟩
  change d.value = numerator.value / 65537 at hquotient
  change rem.toNat = numerator.value % 65537 at hrem
  rw [hsum, hzero] at hrem
  have hexact : rem = 0 := UInt32.toNat_inj.mp hrem
  dsimp only
  rw [if_neg (not_not.mpr hexact)]
  refine Ensures.pure ⟨hd, 65537 - inv.toNat, by omega, ?_⟩
  rw [hquotient, hsum]
  exact Nat.mul_div_cancel' (Nat.dvd_of_mod_eq_zero hzero)

end Exponent

section Keys

variable {p q n d : LiberaCBignum} {modulusBits room : Nat} {publicKey : LiberaCRsaPublicKey}
  {privateKey : LiberaCRsaPrivateKey}

/-- What is stored from two odd numbers, be they prime or not. -/
structure Generated (modulusBits : Nat) (publicKey : LiberaCRsaPublicKey)
    (privateKey : LiberaCRsaPrivateKey) : Prop where
  n_valid : publicKey.n.Valid
  e_valid : publicKey.e.Valid
  private_valid : privateKey.n.Valid
  d_valid : privateKey.d.Valid
  d_storage : publicKey.n.length ≤ privateKey.d.capacity
  modulus : publicKey.n.value = privateKey.p.value * privateKey.q.value
  same : privateKey.n.value = publicKey.n.value
  large : 32 ≤ modulusBits
  size : publicKey.n.value.size = modulusBits
  different : privateKey.p.value ≠ privateKey.q.value
  odd : publicKey.n.value % 2 = 1
  e_value : publicKey.e.value = 65537
  exponent : ∃ k < 65537,
    65537 * privateKey.d.value = (privateKey.p.value - 1) * (privateKey.q.value - 1) * k + 1

theorem attempted_ensures {α : Type} {x : Fallible α} {post : α → Prop} (h : Ensures room x post) :
    Ensures room (attempted x) fun found => ∀ a, found = some a → post a := by
  apply Ensures.recover (h.bind fun a ha => Ensures.pure ?_) (Ensures.pure nofun)
  rintro b hb
  cases hb
  exact ha

theorem storeKeys_ensures (hp : p.Valid) (hq : q.Valid) (hn : n.Valid) (hd : d.Valid)
    (hlt : d.value < n.value) (hroom : 4 * (p.length + q.length + n.length) + 8 ≤ room) :
    Ensures room (storeKeys p q n d) fun keys =>
      ((keys.1.n.Valid ∧ keys.1.n.value = n.value) ∧ keys.1.e.Valid ∧ keys.1.e.value = 65537) ∧
        (keys.2.n.Valid ∧ keys.2.n.value = n.value) ∧ Fixed n.length keys.2.d d.value ∧
          keys.2.p.value = p.value ∧ keys.2.q.value = q.value := by
  apply (Ensures.reported (cryptoBignumCopySecretFixed_ensures hd
    (hd.length_le_of_value hlt.le) (by omega))).bind
  intro fixed hfixed
  have hwidth : fixed.length ≤ n.length :=
    hfixed.valid.length_le_of_value (hfixed.value.trans_le hlt.le)
  apply (Ensures.reported (cryptoBignumCopy_ensures init_valid hn (by omega))).bind
  intro publicN hpublicN
  apply (Ensures.reported (cryptoBignumSetU64_ensures init_valid _ (by omega))).bind
  intro publicE hpublicE
  apply (Ensures.reported (cryptoBignumCopy_ensures init_valid hn (by omega))).bind
  intro privateN hprivateN
  apply (Ensures.reported (cryptoBignumCopySecretFixedCt_ensures hfixed.valid hwidth hfixed.storage
    (by omega))).bind
  intro privateD hprivateD
  apply (Ensures.reported (cryptoBignumCopy_ensures init_valid hp (by omega))).bind
  rintro privateP ⟨-, hprivateP⟩
  apply (Ensures.reported (cryptoBignumCopy_ensures init_valid hq (by omega))).bind
  rintro privateQ ⟨-, hprivateQ⟩
  rw [hfixed.value] at hprivateD
  exact Ensures.pure ⟨⟨hpublicN, hpublicE⟩, hprivateN, hprivateD, hprivateP, hprivateQ⟩

theorem product_length {a b r : LiberaCBignum} (hr : r.Valid) (h : r.value = a.value * b.value) :
    r.length ≤ a.length + b.length := by
  apply hr.length_le_iff.mpr
  rw [h, pow_add]
  exact Nat.mul_lt_mul'' a.value_lt b.value_lt

theorem exponent_range {d phi k : Nat} (hk : k < 65537) (h : 65537 * d = phi * k + 1) :
    0 < d ∧ (phi ≠ 0 → d ≤ phi) := by
  have hmul : phi * k ≤ phi * 65536 := Nat.mul_le_mul_left phi (by omega)
  omega

theorem keysOfPrimes_ensures (hp : p.Valid) (hpodd : p.value % 2 = 1) (hq : q.Valid)
    (hqodd : q.value % 2 = 1) (hlarge : 32 ≤ modulusBits)
    (hroom : 8 * (p.length + q.length) + 8 ≤ room) :
    Ensures room (keysOfPrimes modulusBits p q)
      fun found => ∀ keys, found = some keys → Generated modulusBits keys.1 keys.2 ∧
        keys.2.p.value = p.value ∧ keys.2.q.value = q.value := by
  unfold keysOfPrimes
  by_cases hcompare : cryptoBignumCompare p q = .eq
  · rw [if_pos hcompare]
    exact Ensures.pure nofun
  rw [if_neg hcompare]
  have hne : p.value ≠ q.value := fun h =>
    hcompare ((cryptoBignumCompare_eq hp hq).trans (Nat.compare_eq_eq.mpr h))
  apply (Ensures.reported (cryptoBignumMul_ensures init_valid hp hq false (by omega))).bind
  rintro n ⟨hn, hnvalue⟩
  by_cases hbits : cryptoBignumBitLength n ≠ modulusBits
  · rw [if_pos hbits]
    exact Ensures.pure nofun
  rw [if_neg hbits]
  rw [not_not, cryptoBignumBitLength_eq hn] at hbits
  have hnlength := product_length hn hnvalue
  apply (Ensures.reported (bignumSubU32_ensures init_valid hp 1
    (show 1 ≤ p.value by omega) (by omega))).bind
  rintro p1 ⟨hp1, hp1value⟩
  apply (Ensures.reported (bignumSubU32_ensures init_valid hq 1
    (show 1 ≤ q.value by omega) (by omega))).bind
  rintro q1 ⟨hq1, hq1value⟩
  rw [UInt32.toNat_one] at hp1value hq1value
  have hp1length := hp1.length_le_of_value (hp1value.trans_le (Nat.sub_le _ _))
  have hq1length := hq1.length_le_of_value (hq1value.trans_le (Nat.sub_le _ _))
  apply (Ensures.reported (cryptoBignumMul_ensures init_valid hp1 hq1 false (by omega))).bind
  rintro phi ⟨hphi, hphivalue⟩
  have hphilength := product_length hphi hphivalue
  have hmod : (bignumModU32 phi rsaDefaultE).toNat = phi.value % 65537 :=
    bignumModU32_toNat hphi (by decide)
  by_cases hcoprime : bignumModU32 phi rsaDefaultE = 0
  · rw [if_pos hcoprime]
    exact Ensures.pure nofun
  rw [if_neg hcoprime]
  have hnonzero : phi.value % 65537 ≠ 0 := fun h =>
    hcoprime (UInt32.toNat_inj.mp (hmod.trans h))
  apply (attempted_ensures (makePrivateExponent_ensures hphi hnonzero (by omega))).bind
  intro found hfound
  cases found with
  | none => exact Ensures.pure nofun
  | some d =>
    obtain ⟨hd, k, hk, hexponent⟩ := hfound d rfl
    have hle : d.value ≤ phi.value := (exponent_range hk hexponent).2 fun h => by
      rw [h] at hnonzero
      exact hnonzero rfl
    rw [hphivalue, hp1value, hq1value] at hle hexponent
    have hlt : d.value < n.value := by
      rw [hnvalue]
      apply hle.trans_lt
      exact Nat.mul_lt_mul'' (by omega) (by omega)
    apply (storeKeys_ensures hp hq hn hd hlt (by omega)).bind
    rintro ⟨publicKey, privateKey⟩
      ⟨⟨⟨hN, hNvalue⟩, hE, hEvalue⟩, ⟨hN', hNvalue'⟩, hD, hP, hQ⟩
    apply Ensures.pure
    intro keys hkeys
    cases hkeys
    have hNlength := hN.length_eq hn hNvalue
    refine ⟨⟨hN, hE, hN', hD.valid, hNlength.trans_le hD.storage, ?_, ?_, hlarge, ?_, ?_, ?_,
      hEvalue, k, hk, ?_⟩, hP, hQ⟩
    · rw [hNvalue, hnvalue, hP, hQ]
    · rw [hNvalue, hNvalue']
    · rw [hNvalue, hbits]
    · rw [hP, hQ]
      exact hne
    · rw [hNvalue, hnvalue, Nat.mul_mod, hpodd, hqodd]
    · rw [hD.value, hP, hQ, hexponent]

theorem Generated.congruence (h : Generated modulusBits publicKey privateKey) :
    65537 * privateKey.d.value ≡ 1
      [MOD (privateKey.p.value - 1) * (privateKey.q.value - 1)] := by
  obtain ⟨k, -, hk⟩ := h.exponent
  rw [hk, Nat.ModEq, Nat.mul_add_mod]

theorem Generated.n_pos (h : Generated modulusBits publicKey privateKey) :
    0 < publicKey.n.value := by
  have hodd := h.odd
  omega

theorem Generated.d_lt (h : Generated modulusBits publicKey privateKey)
    (hp : privateKey.p.value.Prime) (hq : privateKey.q.value.Prime) :
    0 < privateKey.d.value ∧ privateKey.d.value < publicKey.n.value := by
  obtain ⟨k, hk, hexponent⟩ := h.exponent
  obtain ⟨hpos, hle⟩ := exponent_range hk hexponent
  have hphi : (privateKey.p.value - 1) * (privateKey.q.value - 1) ≠ 0 :=
    Nat.mul_ne_zero (Nat.sub_ne_zero_of_lt hp.one_lt) (Nat.sub_ne_zero_of_lt hq.one_lt)
  refine ⟨hpos, (hle hphi).trans_lt ?_⟩
  rw [h.modulus]
  exact Nat.mul_lt_mul'' (Nat.sub_lt hp.pos Nat.one_pos) (Nat.sub_lt hq.pos Nat.one_pos)

/-- The exponents undo each other on every residue, the multiples of `p` and `q` among them. -/
theorem Generated.inverse (h : Generated modulusBits publicKey privateKey)
    (hp : privateKey.p.value.Prime) (hq : privateKey.q.value.Prime) {x : Nat}
    (hx : x < publicKey.n.value) :
    (x ^ publicKey.e.value) ^ privateKey.d.value % publicKey.n.value = x := by
  have hpos : 0 < 65537 * privateKey.d.value :=
    Nat.mul_pos (by decide) (h.d_lt hp hq).1
  have hpower := pow_mul_modEq_self hp hq h.different hpos h.congruence x
  rw [← h.modulus] at hpower
  rw [h.e_value, ← pow_mul, hpower, Nat.mod_eq_of_lt hx]

theorem wellFormed {a : LiberaCBignum} (ha : a.Valid) : rsaBignumWellFormed a = true := by
  rw [rsaBignumWellFormed, if_neg (not_lt.mpr ha.fits)]
  split
  · rfl
  · next hlength => exact bne_iff_ne.mpr (ha.top hlength)

/-- The schemes that check their keys accept a generated pair, and its exponent is no wider
than its modulus. -/
theorem Generated.keyPair (h : Generated modulusBits publicKey privateKey)
    (hp : privateKey.p.value.Prime) (hq : privateKey.q.value.Prime)
    (hsize : publicKey.n.length ≤ sizeMax / 32) :
    KeyPair publicKey privateKey ∧ privateKey.d.length ≤ privateKey.n.length := by
  have hlarge : 2 ^ 31 ≤ publicKey.n.value := Nat.lt_size.mp (h.size.symm ▸ h.large)
  have hsame := h.private_valid.length_eq h.n_valid h.same
  have hnlength : publicKey.n.length ≠ 0 := fun hzero =>
    h.n_pos.ne' (h.n_valid.length_eq_zero.mp hzero)
  have helength : publicKey.e.length ≠ 0 := fun hzero => by
    have hvalue := h.e_valid.length_eq_zero.mp hzero
    rw [h.e_value] at hvalue
    exact absurd hvalue (by decide)
  have hodd {a : LiberaCBignum} (hlength : a.length ≠ 0) (hvalue : a.value % 2 = 1) :
      a.limbs.getD 0 0 &&& 1 ≠ 0 := by
    rw [Ne, odd_iff, (words_head hlength).2, hvalue]
    exact Nat.one_ne_zero
  have hnodd := hodd hnlength h.odd
  have heodd := hodd helength (by rw [h.e_value])
  obtain ⟨hpos, hlt⟩ := h.d_lt hp hq
  have hnarrow := h.d_valid.length_le_of_value (hlt.le.trans h.same.ge)
  have hwhole : wordsValue (privateKey.d.limbs.take privateKey.n.length) = privateKey.d.value :=
    h.d_valid.value_take hnarrow
  refine ⟨⟨⟨h.n_valid, h.e_valid, ?_⟩, ⟨h.private_valid, h.d_valid, ?_⟩, h.same.symm,
    fun x hx => h.inverse hp hq hx⟩, hnarrow⟩
  · have hcompare : cryptoBignumCompare publicKey.e publicKey.n = .lt := by
      rw [cryptoBignumCompare_lt h.e_valid h.n_valid, h.e_value]
      exact lt_of_lt_of_le (by decide) hlarge
    have hthree : ¬ (publicKey.e.length = 1 ∧ publicKey.e.limbs.getD 0 0 < 3) := by
      rintro ⟨hone, hsmall⟩
      have hvalue := h.e_valid.value_top helength
      rw [hone, h.e_value] at hvalue
      have hless := UInt32.lt_iff_toNat_lt.mp hsmall
      simp only [Nat.sub_self, List.take_zero, wordsValue_nil, pow_zero] at hvalue
      change _ < 3 at hless
      omega
    rw [rsaPublicKeyValid, if_neg, if_neg hthree]
    simp only [wellFormed h.n_valid, wellFormed h.e_valid, hnlength, helength, hnodd, heodd,
      hcompare, not_lt.mpr hsize, Bool.true_eq_false, ne_eq, not_true_eq_false, or_self,
      not_false_eq_true]
  · rw [rsaPrivateKeyValid_iff, hwhole]
    refine ⟨⟨wellFormed h.private_valid, hsame ▸ hnlength, hsame ▸ hsize, ?_, h.d_valid.fits,
      hsame ▸ h.d_storage⟩, hpos, hlt.trans_eq h.same.symm⟩
    exact hodd (hsame ▸ hnlength) (h.same.symm ▸ h.odd)

end Keys

theorem cryptoRsaKeygenInternal_returns (alg : LiberaCAlgID) (modulusBits primeRounds : Nat) :
    Returns (cryptoRsaKeygenInternal alg modulusBits primeRounds)
      fun keys => Generated modulusBits keys.1 keys.2 := by
  unfold cryptoRsaKeygenInternal
  by_cases halg : alg ≠ .rsaRaw ∧ alg ≠ .rsaOaep ∧ alg ≠ .rsaPss
  · rw [if_pos halg]
    exact Returns.throw
  rw [if_neg halg]
  by_cases hbits : modulusBits < 32
  · rw [if_pos hbits]
    exact Returns.throw
  rw [if_neg hbits]
  dsimp only
  generalize (if primeRounds = 0 then 32 else primeRounds) = rounds
  refine returns_iff.mpr fun entropy host => ?_
  refine ReturnsOn.retry ?_ _
  refine generateInternal_generated.bind fun p hp => ?_
  refine generateInternal_generated.bind fun q hq => ?_
  exact (Returns.lift ((keysOfPrimes_ensures hp.valid hp.odd hq.valid hq.odd (by omega) le_rfl).mono
    fun found hfound keys hkeys => (hfound keys hkeys).1)).on

/-- Padded encryption and signatures take the keys of a run that found primes, whose exponent
they scan whole. -/
theorem cryptoRsaKeygenInternal_keyPair (alg : LiberaCAlgID) (modulusBits primeRounds : Nat) :
    Returns (cryptoRsaKeygenInternal alg modulusBits primeRounds) fun keys =>
      keys.2.p.value.Prime → keys.2.q.value.Prime → keys.1.n.length ≤ sizeMax / 32 →
        KeyPair keys.1 keys.2 ∧ keys.2.d.length ≤ keys.2.n.length :=
  (cryptoRsaKeygenInternal_returns alg modulusBits primeRounds).mono
    fun _ hkeys hp hq hsize => hkeys.keyPair hp hq hsize

def sampleEntropy : Entropy := fun k =>
  some fun i => UInt8.ofNat
    ((if k = 0 then 65521 else if k = 2 then 65519 else 2) / 256 ^ (1 - i))

end LiberaCrypt.RsaKeygen
