import LiberaCrypt.MlKem

namespace LiberaCrypt.MlKemCorrect

open LiberaCrypt.CountedLoop LiberaCrypt.Outcome LiberaCrypt.Radix LiberaCrypt.ConstantTime
  LiberaCrypt.MlKemReduce LiberaCrypt.MlKemNtt LiberaCrypt.MlKemNttLayers LiberaCrypt.MlKemNttRefine
  LiberaCrypt.MlKemNttRing LiberaCrypt.MlKemRing LiberaCrypt.MlKemEncode
  LiberaCrypt.MlKemAuxiliary LiberaCrypt.KPke LiberaCrypt.KPkeSample LiberaCrypt.KPkeNoise
  LiberaCrypt.KPkeCorrect LiberaCrypt.MlKem LiberaCrypt.MlKemPublicKey

variable {hs : Hashes} {p : MlKemParameters} {matrix : Fin p.k → Fin p.k → Poly Int32}

theorem privateKey_slices {a b c d : List UInt8} {k : Nat} (ha : a.length = 384 * k)
    (hb : b.length = 384 * k + 32) (hc : c.length = 32) (hd : d.length = 32) :
    slice (a ++ b ++ c ++ d) 0 (384 * k) = a ∧
      slice (a ++ b ++ c ++ d) (384 * k) (384 * k + 32) = b ∧
      slice (a ++ b ++ c ++ d) (768 * k + 32) 32 = c ∧
      slice (a ++ b ++ c ++ d) (768 * k + 64) 32 = d := by
  have hab : (a ++ b).length = 768 * k + 32 := by rw [List.length_append, ha, hb]; ring
  have habc : (a ++ b ++ c).length = 768 * k + 64 := by rw [List.length_append, hab, hc]
  refine ⟨?_, ?_, ?_, ?_⟩
  · rw [slice, List.drop_zero, List.append_assoc, List.append_assoc, ← ha, List.take_left]
  · rw [slice, List.append_assoc, List.append_assoc, ← ha, List.drop_left, ha, ← hb, List.take_left]
  · rw [slice, List.append_assoc (a ++ b), ← hab, List.drop_left, ← hc, List.take_left]
  · rw [slice, ← habc, List.drop_left, ← hd, List.take_length]

theorem selectSecret_zero {a b : List UInt8} (h : a.length = b.length) :
    selectSecret 0 a b = a := by
  induction a generalizing b with
  | nil => rfl
  | cons x a ih =>
    cases b with
    | nil => exact absurd h (by simp)
    | cons y b =>
      have hx : (x &&& ~~~(0 : UInt8)) ||| (y &&& 0) = x := by simp
      rw [selectSecret, List.zipWith_cons_cons, hx]
      exact congrArg (x :: ·) (ih (Nat.succ.inj h))

theorem h_length (hs : Hashes) (input : List UInt8) : (hs.h input).length = 32 := by
  simp [Hashes.h]

theorem j_length (hs : Hashes) (input : List UInt8) : (hs.j input).length = 32 := by
  simp [Hashes.j]

theorem cryptoConstantTimeEqual_self (bytes : List UInt8) (length : Nat) :
    cryptoConstantTimeEqual bytes bytes length = true :=
  (cryptoConstantTimeEqual_iff bytes bytes length).mpr fun _ _ => rfl

def encapsRandomness (hs : Hashes) (p : MlKemParameters) (publicKey message : List UInt8) :
    List UInt8 :=
  (hs.g (message.take 32 ++ hs.h (publicKey.take (384 * p.k + 32)))).2

theorem mlkemParametersValid_of_mem (hp : p ∈ mlkemParameterSets) :
    mlkemParametersValid p = true := by
  have h : ∀ p ∈ mlkemParameterSets, mlkemParametersValid p = true := by decide
  exact h p hp

theorem mlKemKeyGenInternal_eq {fuel : Nat} {d z publicKey pkePrivateKey : List UInt8}
    (hkey : kPkeKeyGen hs p fuel true d = pure (publicKey, pkePrivateKey))
    (hlen : publicKey.length = 384 * p.k + 32) (hz : z.length = 32) :
    mlKemKeyGenInternal hs p fuel true d z =
      pure (publicKey, pkePrivateKey ++ publicKey ++ hs.h publicKey ++ z) := by
  rw [mlKemKeyGenInternal, hkey, pure_bind]
  simp only [List.take_of_length_le hlen.le, List.take_of_length_le hz.le]

theorem encapsRandomness_eq (hs : Hashes) {publicKey message : List UInt8}
    (hlen : publicKey.length = 384 * p.k + 32) (hmessage : message.length = 32) :
    encapsRandomness hs p publicKey message = (hs.g (message ++ hs.h publicKey)).2 := by
  rw [encapsRandomness, List.take_of_length_le hmessage.le, List.take_of_length_le hlen.le]

theorem mlKemEncapsInternal_eq {fuel : Nat} {publicKey message ciphertext : List UInt8}
    (hlen : publicKey.length = 384 * p.k + 32) (hmessage : message.length = 32)
    (henc : kPkeEnc hs p fuel true publicKey message (encapsRandomness hs p publicKey message) =
      pure ciphertext) :
    mlKemEncapsInternal hs p fuel true publicKey message =
      pure ((hs.g (message ++ hs.h publicKey)).1, ciphertext) := by
  rw [encapsRandomness_eq hs hlen hmessage] at henc
  simp only [mlKemEncapsInternal, List.take_of_length_le hmessage.le,
    List.take_of_length_le hlen.le, henc, pure_bind]

/-- The keys that key generation returns pass the checks of the API. With noise of at
most 831 decryption recovers the message, and decapsulation the shared secret. -/
theorem mlKem_correct (hs : Hashes) {p : MlKemParameters} (hp : p ∈ mlkemParameterSets)
    (d z m : Vector UInt8 32) {matrix : Fin p.k → Fin p.k → Poly Int32}
    (hm : SampledMatrix hs (keySeeds hs p d.toList).1 matrix) :
    ∃ publicKey pkePrivateKey privateKey N,
      (∀ fuel ≥ N,
        kPkeKeyGen hs p fuel true d.toList = pure (publicKey, pkePrivateKey) ∧
        mlKemKeyGenInternal hs p fuel true d.toList z.toList = pure (publicKey, privateKey)) ∧
      publicKey.length = 384 * p.k + 32 ∧ privateKey.length = 768 * p.k + 96 ∧
      mlkemPublicKeyIsCanonical publicKey (384 * p.k + 32) = true ∧
      mlkemPrivateKeyHashIsValid hs privateKey (384 * p.k + 32) (768 * p.k + 96) = true ∧
      (∀ r : Vector UInt8 32, NoiseAtMost 831 (noise hs p d.toList r.toList m.toList matrix) →
        ∃ ciphertext N', ∀ fuel ≥ N',
          kPkeEnc hs p fuel true publicKey m.toList r.toList = pure ciphertext ∧
          kPkeDec p true pkePrivateKey ciphertext = pure m.toList) ∧
      (NoiseAtMost 831 (noise hs p d.toList (encapsRandomness hs p publicKey m.toList) m.toList
          matrix) →
        ∃ sharedSecret ciphertext N', ∀ fuel ≥ N',
          mlKemEncapsInternal hs p fuel true publicKey m.toList = pure (sharedSecret, ciphertext) ∧
          mlKemDecapsInternal hs p fuel true true privateKey ciphertext = pure sharedSecret) := by
  have hvalid := mlkemParametersValid_of_mem hp
  have hv := validParameters hvalid
  have hml : m.toList.length = 32 := m.length_toList
  have hzl : z.toList.length = 32 := z.length_toList
  obtain ⟨publicBytes, pkePrivateKey, hkey⟩ := exists_keyPair d.toList hv hm
  obtain ⟨N, hN⟩ := kPkeKeyGen_eq hvalid hm hkey
  obtain ⟨publicKey, hpk⟩ : ∃ publicKey, publicBytes ++ (keySeeds hs p d.toList).1 = publicKey :=
    ⟨_, rfl⟩
  have hpl : publicKey.length = 384 * p.k + 32 := by
    rw [← hpk, List.length_append, hkey.publicLength, keySeeds, g_fst_length, Nat.mul_comm]
  have hsl : pkePrivateKey.length = 384 * p.k := by rw [hkey.privateLength, Nat.mul_comm]
  obtain ⟨h1, h2, h3, h4⟩ := privateKey_slices hsl hpl (h_length hs publicKey) hzl
  rw [hpk] at hN
  refine ⟨publicKey, pkePrivateKey, pkePrivateKey ++ publicKey ++ hs.h publicKey ++ z.toList, N,
    fun fuel hfuel => ⟨hN fuel hfuel, mlKemKeyGenInternal_eq (hN fuel hfuel) hpl hzl⟩, hpl, ?_, ?_,
    ?_, fun r hr => ?_, fun hr => ?_⟩
  · simp only [List.length_append, hsl, hpl, h_length, hzl]
    ring
  · exact hpk ▸ publicKey_canonical hv hm hkey (keySeeds hs p d.toList).1
  · have hstart : 768 * p.k + 96 - (384 * p.k + 32) - 64 = 384 * p.k := by omega
    have hstored : 768 * p.k + 96 - 64 = 768 * p.k + 32 := by omega
    rw [mlkemPrivateKeyHashIsValid, hstart, hstored, h2, h3]
    exact cryptoConstantTimeEqual_self _ _
  · obtain ⟨ciphertext, hc, N', hN'⟩ := kPkeEnc_eq hvalid hm hkey hml r.toList
    rw [hpk] at hN'
    exact ⟨ciphertext, N', fun fuel hfuel => ⟨hN' fuel hfuel, kPkeDec_eq hvalid hm hkey hml hc hr⟩⟩
  · obtain ⟨ciphertext, hc, N', hN'⟩ :=
      kPkeEnc_eq hvalid hm hkey hml (encapsRandomness hs p publicKey m.toList)
    rw [hpk] at hN'
    have hdec := kPkeDec_eq hvalid hm hkey hml hc hr
    have hmt : m.toList.take 32 = m.toList := List.take_of_length_le hml.le
    have hrand := (encapsRandomness_eq hs hpl hml).symm
    refine ⟨(hs.g (m.toList ++ hs.h publicKey)).1, ciphertext, N', fun fuel hfuel =>
      ⟨mlKemEncapsInternal_eq hpl hml (hN' fuel hfuel), ?_⟩⟩
    · have hsame : byteDifference ciphertext ciphertext (32 * (p.du * p.k + p.dv)) = 0 :=
        (byteDifference_eq_zero _ _ _).mpr fun _ _ => rfl
      have hmask : rejectionMask 0 = 0 := by decide
      simp only [mlKemDecapsInternal, h1, h2, h3, hdec, hmt, hrand, hN' fuel hfuel, pure_bind, hsame,
        hmask]
      rw [selectSecret_zero ((g_fst_length _).trans (j_length hs _).symm)]

section NoiseBound

theorem rqCoeff_sub (x y : Rq) (i : Nat) : rqCoeff (x - y) i = rqCoeff x i - rqCoeff y i := by
  simp only [rqCoeff, map_sub, Polynomial.coeff_sub]

theorem noiseAtMost_of_int {bound : Nat} {x : Rq}
    (h : ∀ i < 256, ∃ e : Int, rqCoeff x i = e ∧ e.natAbs ≤ bound) : NoiseAtMost bound x := by
  intro i hi
  obtain ⟨e, he, hbound⟩ := h i hi
  refine (ZMod.natAbs_min_of_le_div_two 3329 _ e ?_ ?_).trans hbound
  · rw [ZMod.coe_valMinAbs, he]
  · exact ZMod.natAbs_valMinAbs_le _

theorem noiseAtMost_mono {a b : Nat} {x : Rq} (h : NoiseAtMost a x) (hab : a ≤ b) :
    NoiseAtMost b x := fun i hi => (h i hi).trans hab

theorem noiseAtMost_add {a b : Nat} {x y : Rq} (hx : NoiseAtMost a x) (hy : NoiseAtMost b y) :
    NoiseAtMost (a + b) (x + y) := by
  refine noiseAtMost_of_int fun i hi => ⟨(rqCoeff x i).valMinAbs + (rqCoeff y i).valMinAbs, ?_, ?_⟩
  · rw [rqCoeff_add, Int.cast_add, ZMod.coe_valMinAbs, ZMod.coe_valMinAbs]
  · exact (Int.natAbs_add_le _ _).trans (add_le_add (hx i hi) (hy i hi))

theorem noiseAtMost_sub {a b : Nat} {x y : Rq} (hx : NoiseAtMost a x) (hy : NoiseAtMost b y) :
    NoiseAtMost (a + b) (x - y) := by
  refine noiseAtMost_of_int fun i hi => ⟨(rqCoeff x i).valMinAbs - (rqCoeff y i).valMinAbs, ?_, ?_⟩
  · rw [rqCoeff_sub, Int.cast_sub, ZMod.coe_valMinAbs, ZMod.coe_valMinAbs]
  · exact (Int.natAbs_sub_le _ _).trans (add_le_add (hx i hi) (hy i hi))

theorem noiseAtMost_zero (bound : Nat) : NoiseAtMost bound 0 := by
  refine noiseAtMost_of_int fun i _ => ⟨0, ?_, Nat.zero_le _⟩
  rw [rqCoeff, map_zero, Polynomial.coeff_zero, Int.cast_zero]

theorem noiseAtMost_sum {k bound : Nat} {x : Fin k → Rq} (h : ∀ i, NoiseAtMost bound (x i)) :
    NoiseAtMost (k * bound) (∑ i, x i) := by
  induction k with
  | zero =>
    rw [Finset.univ_eq_empty, Finset.sum_empty]
    exact noiseAtMost_zero _
  | succ k ih =>
    rw [Fin.sum_univ_castSucc, Nat.succ_mul]
    exact noiseAtMost_add (ih fun i => h i.castSucc) (h (Fin.last k))

/-- Rounding to `d` bits and back moves a coefficient by at most half a step. -/
theorem compressionError_le {d : Nat} (hd : d = 4 ∨ d = 10) {f : Poly Int32}
    (hf : AllCanonical f) : NoiseAtMost ((1664 + 2 ^ (d - 1)) / 2 ^ d) (compressionError d f) := by
  have h1 : 1 ≤ d := by omega
  have h12 : d < 12 := by omega
  obtain ⟨-, hfit, hcomp⟩ := compressed_spec h1 h12 hf
  obtain ⟨-, -, hdecomp⟩ := decompressed_spec h1 h12 hfit
  refine noiseAtMost_of_int fun i hi => ?_
  have hlt : word (coeff f i) < 3329 := hf i hi
  have hword := hdecomp i hi
  rw [hcomp i hi] at hword
  rw [compressionError, rqCoeff_sub, rqCoeff_toRq _ hi, rqCoeff_toRq _ hi]
  generalize word (coeff f i) = x at hlt hword ⊢
  generalize word (coeff (decompressed d (compressed d f)) i) = z at hword ⊢
  -- a coefficient that rounds up to 2^d wraps to zero, one modulus away
  by_cases hwrap : (2 ^ d * x + 1664) / 3329 < 2 ^ d
  · refine ⟨(z : Int) - x, by push_cast; rfl, ?_⟩
    rw [Nat.mod_eq_of_lt hwrap] at hword
    rcases hd with rfl | rfl <;> omega
  · refine ⟨(z : Int) + 3329 - x, ?_, ?_⟩
    · have hq : (3329 : F) = 0 := rfl
      push_cast
      rw [hq, add_zero]
    · have htop : (2 ^ d * x + 1664) / 3329 = 2 ^ d := by rcases hd with rfl | rfl <;> omega
      rw [htop, Nat.mod_self] at hword
      rcases hd with rfl | rfl <;> omega

theorem toRq_injective {f g : Poly Int32} (hf : AllCanonical f) (hg : AllCanonical g)
    (h : toRq f = toRq g) : f = g := by
  refine poly_ext fun i hi => word_injective ?_
  have hcoeff := congrArg (fun x => rqCoeff x i) h
  simp only [rqCoeff_toRq _ hi] at hcoeff
  have hmod := (ZMod.natCast_eq_natCast_iff' _ _ _).mp hcoeff
  rwa [Nat.mod_eq_of_lt (hf i hi), Nat.mod_eq_of_lt (hg i hi)] at hmod

end NoiseBound

/-- Hash functions under which a seed with an odd first byte samples the polynomial `2`, a
seed with an even one the polynomial `0`, and column `j` of the matrix a constant stream. -/
def sampleHashes : Hashes where
  sha3_256 input := Vector.replicate 32 (UInt8.ofNat (input.map UInt8.toNat).sum)
  sha3_512 input := Vector.replicate 64 (UInt8.ofNat (input.map UInt8.toNat).sum ||| 1)
  shake256 input n := Vector.ofFn fun i : Fin n => if i.val = 0 then 3 * (input.headD 0 &&& 1) else 0
  shake128 input _ := input.getD 32 0

section Sample

theorem sampleBlock_const {b : UInt8} (hb : b.toNat ≤ 8) {s : Poly Int32 × Nat}
    (hs : s.2 % 2 = 0) (hle : s.2 ≤ 256) :
    (sampleBlock (fun _ => b) s).2 = min 256 (s.2 + 112) := by
  have hsmall : byteInt b + 256 * (byteInt b % 16) < 3329 ∧ byteInt b / 16 + 16 * byteInt b < 3329 := by
    have h : ∀ n ≤ 8, byteInt (UInt8.ofNat n) + 256 * (byteInt (UInt8.ofNat n) % 16) < 3329 ∧
        byteInt (UInt8.ofNat n) / 16 + 16 * byteInt (UInt8.ofNat n) < 3329 := by decide
    have hbyte := h b.toNat hb
    rwa [UInt8.ofNat_toNat] at hbyte
  refine countUp_invariant (fun n (t : Poly Int32 × Nat) => t.2 = min 256 (s.2 + 2 * n)) (by omega)
    fun n hn t ht => ?_
  by_cases hroom : t.2 < 256
  · have hnext : t.2 + 1 < 256 := by omega
    rw [if_pos hroom]
    simp only [sampleGroup, hsmall, if_true, true_and, hnext]
    omega
  · rw [if_neg hroom]
    omega

theorem sampleNtt_const {b : UInt8} (hb : b.toNat ≤ 8) :
    ∃ f, sampleNtt (fun _ => b) 4 zeroPoly = some f := by
  have h1 := sampleBlock_const hb (s := (zeroPoly, 0)) rfl (by norm_num)
  have h2 := sampleBlock_const hb (s := sampleBlock (fun _ => b) (zeroPoly, 0))
    (by rw [h1]; rfl) (by rw [h1]; norm_num)
  have h3 := sampleBlock_const hb
    (s := sampleBlock (fun _ => b) (sampleBlock (fun _ => b) (zeroPoly, 0)))
    (by rw [h2, h1]; rfl) (by rw [h2, h1]; norm_num)
  rw [h1] at h2
  rw [h2] at h3
  simp only [sampleNtt, sampleLoop, h1, h2, h3]
  exact ⟨_, rfl⟩

theorem sampleLoop_zero {fuel block : Nat} {s : Poly Int32 × Nat} (hs : s.1 = zeroPoly)
    {f : Poly Int32} (h : sampleLoop (fun _ => 0) fuel block s = some f) : f = zeroPoly := by
  have hstore : ∀ j, store zeroPoly j 0 = zeroPoly := fun j => by simp [store, zeroPoly]
  have hzero : byteInt 0 + 256 * (byteInt 0 % 16) = 0 ∧ byteInt 0 / 16 + 16 * byteInt 0 = 0 := by
    decide
  have hblock : ∀ s : Poly Int32 × Nat, s.1 = zeroPoly →
      (sampleBlock (fun _ => 0) s).1 = zeroPoly := by
    intro s hs
    refine countUp_invariant (fun _ (t : Poly Int32 × Nat) => t.1 = zeroPoly) hs fun group _ t ht => ?_
    simp only [sampleGroup, hzero]
    split_ifs <;> simp only [ht, hstore]
  induction fuel generalizing block s with
  | zero => exact absurd h (by simp [sampleLoop])
  | succ fuel ih =>
    rw [sampleLoop] at h
    split at h
    · exact ih (hblock s hs) h
    · exact (Option.some.inj h).symm.trans hs

theorem shake128_sample {rho : List UInt8} (hrho : rho.length = 32) (i j : Fin 3) :
    sampleHashes.shake128 (rho ++ [UInt8.ofNat j, UInt8.ofNat i]) = fun _ => UInt8.ofNat j := by
  funext n
  simp [sampleHashes, ← hrho]

/-- The column `0` of the matrix is sampled from the zero stream. -/
theorem sampledMatrix_column {rho : List UInt8} (hrho : rho.length = 32)
    {matrix : Fin 3 → Fin 3 → Poly Int32} (hm : SampledMatrix sampleHashes rho matrix) (i : Fin 3) :
    matrix i 0 = zeroPoly := by
  obtain ⟨fuel, hfuel⟩ := hm i 0
  rw [shake128_sample hrho] at hfuel
  exact sampleLoop_zero rfl hfuel

theorem sampledMatrix_sample {rho : List UInt8} (hrho : rho.length = 32) :
    ∃ matrix : Fin 3 → Fin 3 → Poly Int32, SampledMatrix sampleHashes rho matrix := by
  have hsmall : ∀ j : Fin 3, (UInt8.ofNat j).toNat ≤ 8 := by decide
  choose f hf using fun i j : Fin 3 => sampleNtt_const (hsmall j)
  exact ⟨f, fun i j => ⟨4, by rw [shake128_sample hrho, hf i j]⟩⟩

theorem low_bit (x : UInt8) : x &&& 1 = 0 ∨ x &&& 1 = 1 := by
  have hbit : (x &&& 1).toNat = x.toNat % 2 := (UInt8.toNat_and x 1).trans (Nat.and_one_is_mod _)
  rcases Nat.mod_two_eq_zero_or_one x.toNat with h | h
  · exact .inl (UInt8.toNat_inj.mp (hbit.trans h))
  · exact .inr (UInt8.toNat_inj.mp (hbit.trans h))

theorem prf_byte (input : List UInt8) {n : Nat} (hn : 0 < n) (k : Nat) :
    (sampleHashes.shake256 input n).toList.getD k 0 =
      if k = 0 then 3 * (input.headD 0 &&& 1) else 0 := by
  by_cases hk : k < n
  · rw [List.getD_eq_getElem _ _ (by rwa [Vector.length_toList]), Vector.getElem_toList]
    simp only [sampleHashes, Vector.getElem_ofFn]
  · rw [List.getD_eq_default _ _ (by rw [Vector.length_toList]; omega), if_neg (by omega)]

theorem prf_bit (input : List UInt8) {n : Nat} (hn : 0 < n) (i : Nat) :
    mlkemBitAt (sampleHashes.shake256 input n).toList i =
      if i < 2 ∧ input.headD 0 &&& 1 = 1 then 1 else 0 := by
  rw [mlkemBitAt, prf_byte input hn]
  by_cases hi : i < 8
  · rw [if_pos (Nat.div_eq_of_lt hi)]
    rcases low_bit (input.headD 0) with h | h <;> rw [h] <;> interval_cases i <;> decide
  · have hfar : i / 8 ≠ 0 := by omega
    rw [if_neg hfar, if_neg fun hlow => hi (by omega)]
    simp

theorem bitSums_sample (input : List UInt8) {n eta : Nat} (hn : 0 < n) (heta : eta = 2 ∨ eta = 3)
    (c : Nat) : bitSums (sampleHashes.shake256 input n).toList eta c =
      (if c = 0 ∧ input.headD 0 &&& 1 = 1 then 2 else 0, 0) := by
  have hhigh : ∀ i, ¬ i < 2 → mlkemBitAt (sampleHashes.shake256 input n).toList i = 0 := fun i hi => by
    rw [prf_bit input hn, if_neg fun h => hi h.1]
  have hsecond : ∀ bit, ¬ (2 * c + 1) * eta + bit < 2 := fun bit => by
    rcases heta with rfl | rfl <;> omega
  rcases Nat.eq_zero_or_pos c with rfl | hc
  · have hbit : ∀ bit, 2 * 0 * eta + bit = bit := fun bit => by omega
    have h0 := prf_bit input hn 0
    have h1 := prf_bit input hn 1
    have h2 := hhigh 2 (by norm_num)
    rcases low_bit (input.headD 0) with hlow | hlow <;> rw [hlow] at h0 h1 ⊢ <;>
      rcases heta with rfl | rfl <;>
      simp only [bitSums, countUp_succ, countUp_zero, hbit, hhigh _ (hsecond _), h0, h1, h2] <;>
      decide
  · have hfirst : ∀ bit, ¬ 2 * c * eta + bit < 2 := fun bit => by
      rcases heta with rfl | rfl <;> omega
    rw [if_neg fun h => hc.ne' h.1]
    refine countUp_invariant (fun _ s => s = (0, 0)) rfl fun bit _ s h => ?_
    rw [h, hhigh _ (hfirst bit), hhigh _ (hsecond bit)]
    rfl

theorem cbdPoly_sample {eta : Nat} (heta : eta = 2 ∨ eta = 3) {seed : List UInt8} (hseed : seed ≠ [])
    (nonce : Nat) : ∀ i < 256, coeff (cbdPoly sampleHashes eta seed nonce) i =
      if i = 0 ∧ seed.headD 0 &&& 1 = 1 then 2 else 0 := by
  intro i hi
  obtain ⟨x, rest, rfl⟩ := List.exists_cons_of_ne_nil hseed
  have hpos : 0 < 64 * eta := by omega
  have hsums := bitSums_sample ((x :: rest).take 32 ++ [UInt8.ofNat nonce]) hpos heta i
  rw [List.take_succ_cons, List.cons_append, List.headD_cons] at hsums
  have hprf : sampleCbd sampleHashes eta (x :: rest) nonce =
      samplePolyCbd (sampleHashes.shake256 ((x :: rest).take 32 ++ [UInt8.ofNat nonce])
        (64 * eta)).toList zeroPoly (64 * eta) := by
    rw [sampleCbd, Hashes.prf, if_neg (by omega)]
    rfl
  rw [cbdPoly, hprf, samplePolyCbd, if_neg (by omega), Option.getD_some,
    Nat.mul_div_cancel_left eta (by norm_num)]
  have h := pointwise_coeff (fun i _ =>
    ((bitSums (sampleHashes.shake256 ((x :: rest).take 32 ++ [UInt8.ofNat nonce])
        (64 * eta)).toList eta i).1 -
      (bitSums (sampleHashes.shake256 ((x :: rest).take 32 ++ [UInt8.ofNat nonce])
        (64 * eta)).toList eta i).2 + 3329) % 3329) zeroPoly le_rfl i hi
  rw [if_pos hi] at h
  rw [h, List.take_succ_cons, List.cons_append, hsums, List.headD_cons]
  split <;> decide

theorem toRq_sample {eta : Nat} (heta : eta = 2 ∨ eta = 3) {seed : List UInt8} (hseed : seed ≠ [])
    (nonce : Nat) : toRq (cbdPoly sampleHashes eta seed nonce) =
      if seed.headD 0 &&& 1 = 1 then 2 else 0 := by
  have hword : ∀ i ∈ Finset.range 256,
      (Polynomial.C (word (coeff (cbdPoly sampleHashes eta seed nonce) i) : F) * Polynomial.X ^ i :
        Polynomial F) = if i = 0 then (if seed.headD 0 &&& 1 = 1 then 2 else 0) else 0 := by
    intro i hi
    rw [cbdPoly_sample heta hseed nonce i (Finset.mem_range.mp hi)]
    by_cases hzero : i = 0
    · rw [hzero, pow_zero, mul_one]
      by_cases hodd : seed.headD 0 &&& 1 = 1
      · rw [if_pos ⟨rfl, hodd⟩, if_pos rfl, if_pos hodd]
        rfl
      · rw [if_neg fun h => hodd h.2, if_pos rfl, if_neg hodd]
        exact Polynomial.C_0
    · rw [if_neg fun h => hzero h.1, if_neg hzero, show word 0 = 0 from rfl, Nat.cast_zero,
        Polynomial.C_0,
        zero_mul]
  rw [toRq, Finset.sum_congr rfl hword, Finset.sum_ite_eq' _ 0, if_pos (by norm_num)]
  split
  · exact map_ofNat _ 2
  · exact map_zero _

theorem sample_mul {eta bound : Nat} (heta : eta = 2 ∨ eta = 3) {seed : List UInt8}
    (hseed : seed ≠ []) (nonce : Nat) {x : Rq} (hx : NoiseAtMost bound x) :
    NoiseAtMost (2 * bound) (toRq (cbdPoly sampleHashes eta seed nonce) * x) := by
  rw [toRq_sample heta hseed]
  split
  · rw [two_mul, two_mul]
    exact noiseAtMost_add hx hx
  · rw [zero_mul]
    exact noiseAtMost_zero _

theorem sample_le {eta : Nat} (heta : eta = 2 ∨ eta = 3) {seed : List UInt8} (hseed : seed ≠ [])
    (nonce : Nat) : NoiseAtMost 2 (toRq (cbdPoly sampleHashes eta seed nonce)) := by
  refine noiseAtMost_of_int fun i hi => ?_
  rw [rqCoeff_toRq _ hi, cbdPoly_sample heta hseed nonce i hi]
  split
  · exact ⟨2, rfl, by norm_num⟩
  · exact ⟨0, rfl, by norm_num⟩

theorem noise_sample {rho : List UInt8} {matrix : Fin 3 → Fin 3 → Poly Int32}
    (hm : SampledMatrix sampleHashes rho matrix) {seed randomness message : List UInt8}
    (hseed : (keySeeds sampleHashes ⟨3, 2, 2, 10, 4⟩ seed).2 ≠ []) (hrandomness : randomness ≠ [])
    (hlen : message.length = 32) :
    NoiseAtMost 831 (noise sampleHashes ⟨3, 2, 2, 10, 4⟩ seed randomness message matrix) := by
  have hv : ValidParameters ⟨3, 2, 2, 10, 4⟩ := validParameters (by decide)
  have hscalar := compressionError_le (.inl rfl) (encScalar_spec seed randomness hv hm hlen).1
  have hvector := fun i => compressionError_le (.inr rfl) (encVector_spec randomness hv hm i).1
  have hproducts : NoiseAtMost (3 * (2 * 2)) (∑ i, toRq (keyError sampleHashes ⟨3, 2, 2, 10, 4⟩ seed i) *
      toRq (encSecret sampleHashes ⟨3, 2, 2, 10, 4⟩ randomness i)) :=
    noiseAtMost_sum fun i => sample_mul (.inl rfl) hseed _ (sample_le (.inl rfl) hrandomness _)
  have herrors := noiseAtMost_sum fun i : Fin 3 => sample_mul (.inl rfl) hseed i
    (noiseAtMost_add (sample_le (.inl rfl) hrandomness (3 + i)) (hvector i))
  refine noiseAtMost_mono (noiseAtMost_sub (noiseAtMost_add (noiseAtMost_add hproducts
    (sample_le (.inl rfl) hrandomness _)) hscalar) herrors) ?_
  norm_num

theorem g_snd_ne_nil (hs : Hashes) (input : List UInt8) : (hs.g input).2 ≠ [] := by
  intro h
  have hlength := congrArg List.length h
  simp [Hashes.g] at hlength

end Sample

def sampleMessage : Vector UInt8 32 := Vector.ofFn fun i => UInt8.ofNat i

/-- A run of key generation, encapsulation and decapsulation in which every noise polynomial
is the constant 2. -/
theorem mlKem_correct_sample : ∃ publicKey privateKey sharedSecret ciphertext N, ∀ fuel ≥ N,
    mlKemKeyGenInternal sampleHashes ⟨3, 2, 2, 10, 4⟩ fuel true (List.replicate 32 1)
        (List.replicate 32 3) = pure (publicKey, privateKey) ∧
      mlKemEncapsInternal sampleHashes ⟨3, 2, 2, 10, 4⟩ fuel true publicKey sampleMessage.toList =
        pure (sharedSecret, ciphertext) ∧
      mlKemDecapsInternal sampleHashes ⟨3, 2, 2, 10, 4⟩ fuel true true privateKey ciphertext =
        pure sharedSecret := by
  have hrho : (keySeeds sampleHashes ⟨3, 2, 2, 10, 4⟩ (List.replicate 32 1)).1.length = 32 :=
    g_fst_length _
  obtain ⟨matrix, hm⟩ := sampledMatrix_sample hrho
  obtain ⟨publicKey, _, privateKey, N, hkey, _, _, _, _, _, hkem⟩ :=
    mlKem_correct sampleHashes (p := ⟨3, 2, 2, 10, 4⟩) (by decide) (Vector.replicate 32 1)
      (Vector.replicate 32 3) sampleMessage hm
  obtain ⟨sharedSecret, ciphertext, N', hrun⟩ := hkem (noise_sample hm (g_snd_ne_nil _ _)
    (g_snd_ne_nil _ _) sampleMessage.length_toList)
  refine ⟨publicKey, privateKey, sharedSecret, ciphertext, max N N', fun fuel hfuel => ?_⟩
  obtain ⟨henc, hdec⟩ := hrun fuel (le_of_max_le_right hfuel)
  exact ⟨(hkey fuel (le_of_max_le_left hfuel)).2, henc, hdec⟩

end LiberaCrypt.MlKemCorrect
