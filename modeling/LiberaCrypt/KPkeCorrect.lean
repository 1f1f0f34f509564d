import LiberaCrypt.MlKemRing

namespace LiberaCrypt.KPkeSample

open LiberaCrypt.Outcome LiberaCrypt.Radix LiberaCrypt.MlKemReduce LiberaCrypt.MlKemNtt
open LiberaCrypt.MlKemNttRefine
  LiberaCrypt.MlKemNttRing LiberaCrypt.MlKemEncode LiberaCrypt.MlKemAuxiliary LiberaCrypt.KPke
  LiberaCrypt.MlKemRing

section Vectors

variable {α : Type} {k : Nat}

theorem flatten_slice {parts : Fin k → List UInt8} {n : Nat} (hlen : ∀ i, (parts i).length = n)
    (tail : List UInt8) (i : Fin k) :
    slice ((List.ofFn parts).flatten ++ tail) (i * n) n = parts i := by
  induction k with
  | zero => exact i.elim0
  | succ k ih =>
    rw [List.ofFn_succ, List.flatten_cons, List.append_assoc]
    induction i using Fin.cases with
    | zero => rw [slice, Fin.val_zero, Nat.zero_mul, List.drop_zero, ← hlen 0, List.take_left]
    | succ j =>
      rw [slice, Fin.val_succ, Nat.succ_mul, Nat.add_comm, ← List.drop_drop]
      nth_rewrite 3 [← hlen 0]
      rw [List.drop_left]
      exact ih (fun i => hlen i.succ) j

theorem flatten_length {parts : Fin k → List UInt8} {n : Nat} (hlen : ∀ i, (parts i).length = n) :
    (List.ofFn parts).flatten.length = k * n := by
  induction k with
  | zero => simp
  | succ k ih =>
    rw [List.ofFn_succ, List.flatten_cons, List.length_append, hlen 0,
      ih fun i => hlen i.succ, Nat.succ_mul, Nat.add_comm]

theorem encodeVector_parts {d : Nat} (h1 : 1 ≤ d) (h12 : d ≤ 12) (f : Fin k → Poly Int32) :
    ∃ parts : Fin k → List UInt8, encodeVector f d = pure (List.ofFn parts).flatten ∧
      (∀ i, (parts i).length = 32 * d) ∧
      ∀ i, bytesValue (parts i) = radix (2 ^ d) 256 (lowBits d (f i)) := by
  choose parts hencode hlen hvalue using fun i => byteEncode_spec (f i) h1 h12
  refine ⟨parts, ?_, hlen, hvalue⟩
  rw [encodeVector, collect_of_pure (g := parts) fun i => by rw [hencode i]; rfl, pure_bind]

theorem encodeVector_spec {d : Nat} (h1 : 1 ≤ d) (h12 : d ≤ 12) {f : Fin k → Poly Int32}
    (hf : ∀ i, Fits d (f i)) :
    ∃ bytes, encodeVector f d = pure bytes ∧ bytes.length = k * (32 * d) ∧
      ∀ tail, decodeVector k d (bytes ++ tail) = pure f := by
  choose parts hencode hlen hdecode using
    fun i => byteDecode_byteEncode h1 h12 (hf i) zeroPoly
  refine ⟨(List.ofFn parts).flatten, ?_, flatten_length hlen, fun tail => ?_⟩
  · rw [encodeVector, collect_of_pure (g := parts) fun i => by rw [hencode i]; rfl, pure_bind]
  · exact collect_of_pure fun i => by rw [flatten_slice hlen, hdecode i]; rfl

end Vectors

theorem fits_canonical {f : Poly Int32} (hf : AllCanonical f) : Fits 12 f := hf

/-- The matrix that the rejection loops return for `rho` once they end. -/
def SampledMatrix (hs : Hashes) {k : Nat} (rho : List UInt8) (matrix : Fin k → Fin k → Poly Int32) :
    Prop :=
  ∀ i j : Fin k, ∃ fuel, sampleNtt (hs.shake128 (rho ++ [UInt8.ofNat j, UInt8.ofNat i])) fuel zeroPoly =
    some (matrix i j)

theorem sampledMatrix_canonical {hs : Hashes} {k : Nat} {rho : List UInt8}
    {matrix : Fin k → Fin k → Poly Int32} (h : SampledMatrix hs rho matrix) (i j : Fin k) :
    AllCanonical (matrix i j) := by
  obtain ⟨fuel, hfuel⟩ := h i j
  exact sampleNtt_canonical _ hfuel

theorem sampleMatrix_eq {hs : Hashes} {k : Nat} {rho : List UInt8}
    {matrix : Fin k → Fin k → Poly Int32} (h : SampledMatrix hs rho matrix) :
    ∃ N, ∀ fuel ≥ N, sampleMatrix hs k fuel rho = pure matrix := by
  choose bound hbound using h
  refine ⟨Finset.univ.sup fun i => Finset.univ.sup (bound i), fun fuel hfuel => ?_⟩
  refine collect_of_pure fun i => collect_of_pure fun j => ?_
  have hle : bound i j ≤ fuel := by
    have hj := Finset.le_sup (f := bound i) (Finset.mem_univ j)
    have hi := Finset.le_sup (f := fun i => Finset.univ.sup (bound i)) (Finset.mem_univ i)
    exact (hj.trans hi).trans hfuel
  rw [sampleNtt, sampleLoop_mono _ (hbound i j) hle]
  rfl

def cbdPoly (hs : Hashes) (eta : Nat) (seed : List UInt8) (nonce : Nat) : Poly Int32 :=
  (sampleCbd hs eta seed nonce).getD zeroPoly

theorem cbdPoly_spec (hs : Hashes) {eta : Nat} (heta : eta = 2 ∨ eta = 3) (seed : List UInt8)
    (nonce : Nat) : orInternal (sampleCbd hs eta seed nonce) = pure (cbdPoly hs eta seed nonce) ∧
      AllCanonical (cbdPoly hs eta seed nonce) := by
  obtain ⟨f, hf, hc⟩ := samplePolyCbd_spec
    (hs.shake256 (seed.take 32 ++ [UInt8.ofNat nonce]) (64 * eta)).toList heta zeroPoly
  have hprf : sampleCbd hs eta seed nonce = some f := by
    rw [sampleCbd, Hashes.prf, if_neg (by omega)]
    exact hf
  rw [cbdPoly, hprf]
  exact ⟨rfl, hc⟩

/-- The result of `Comp` on a polynomial. -/
def compressed (d : Nat) (f : Poly Int32) : Poly Int32 := (comp f d zeroPoly 256).getD zeroPoly

/-- The result of `Decomp` on a polynomial. -/
def decompressed (d : Nat) (f : Poly Int32) : Poly Int32 := (decomp f d zeroPoly 256).getD zeroPoly

theorem decodeModulus_pow {d : Nat} (h : d < 12) : (decodeModulus d).toNat = 2 ^ d := by
  rw [decodeModulus_toNat h.le, if_neg h.ne]

theorem compressed_spec {d : Nat} (h1 : 1 ≤ d) (h12 : d < 12) {f : Poly Int32}
    (hf : AllCanonical f) :
    orInternal (comp f d zeroPoly 256) = pure (compressed d f) ∧ Fits d (compressed d f) ∧
      ∀ i < 256, word (coeff (compressed d f) i) =
        (2 ^ d * word (coeff f i) + 1664) / 3329 % 2 ^ d := by
  obtain ⟨g, hg, hword⟩ := comp_spec hf h1 h12.le zeroPoly
  rw [compressed, hg]
  refine ⟨rfl, fun i hi => ?_, hword⟩
  rw [decodeModulus_pow h12, Option.getD_some, hword i hi]
  exact Nat.mod_lt _ (by positivity)

theorem decompressed_spec {d : Nat} (h1 : 1 ≤ d) (h12 : d < 12) {f : Poly Int32} (hf : Fits d f) :
    orInternal (decomp f d zeroPoly 256) = pure (decompressed d f) ∧
      AllCanonical (decompressed d f) ∧
      ∀ i < 256, word (coeff (decompressed d f) i) =
        (3329 * word (coeff f i) + 2 ^ (d - 1)) / 2 ^ d := by
  obtain ⟨g, hg, hc, hword⟩ := decomp_spec h1 h12.le (f := f)
    (fun i hi => (hf i hi).trans_eq (decodeModulus_pow h12)) zeroPoly
  rw [decompressed, hg]
  exact ⟨rfl, hc, hword⟩

noncomputable def compressionError (d : Nat) (f : Poly Int32) : Rq :=
  toRq (decompressed d (compressed d f)) - toRq f

/-- Every centered coefficient has absolute value at most `bound`. -/
def NoiseAtMost (bound : Nat) (x : Rq) : Prop := ∀ i < 256, (rqCoeff x i).valMinAbs.natAbs ≤ bound

/-- `Comp_1` rounds a coefficient back to its bit while the noise is at most 831. -/
theorem message_bit {x b : Nat} {e : F} (hb : b < 2)
    (h : (x : F) = ((3329 * b + 1) / 2 : Nat) + e) (he : e.valMinAbs.natAbs ≤ 831) :
    (2 * x + 1664) / 3329 % 2 = b := by
  have hcast : ((x : Int) : F) = (((3329 * b + 1) / 2 : Nat) + e.valMinAbs : Int) := by
    rw [Int.cast_add, ZMod.coe_valMinAbs, Int.cast_natCast, Int.cast_natCast, h]
  obtain ⟨c, hc⟩ := (ZMod.intCast_eq_intCast_iff_dvd_sub _ _ 3329).mp hcast
  have hlow : -831 ≤ e.valMinAbs := by omega
  have hhigh : e.valMinAbs ≤ 831 := by omega
  rcases Nat.lt_succ_iff_lt_or_eq.mp hb with h0 | rfl
  · obtain rfl : b = 0 := by omega
    omega
  · omega

end LiberaCrypt.KPkeSample

namespace LiberaCrypt.KPkeNoise

open LiberaCrypt.Outcome LiberaCrypt.MlKemReduce LiberaCrypt.MlKemNtt LiberaCrypt.MlKemNttRefine
  LiberaCrypt.MlKemNttRing LiberaCrypt.MlKemEncode LiberaCrypt.MlKemAuxiliary LiberaCrypt.KPke
  LiberaCrypt.MlKemRing LiberaCrypt.KPkeSample

variable (hs : Hashes) (p : MlKemParameters) (seed randomness message : List UInt8)

def keySecret (i : Fin p.k) : Poly Int32 := cbdPoly hs p.eta1 (keySeeds hs p seed).2 i

def keyError (i : Fin p.k) : Poly Int32 := cbdPoly hs p.eta1 (keySeeds hs p seed).2 (p.k + i)

def keyPublic (matrix : Fin p.k → Fin p.k → Poly Int32) : Fin p.k → Poly Int32 :=
  publicVector matrix (keySecret hs p seed) (keyError hs p seed)

def encSecret (i : Fin p.k) : Poly Int32 := cbdPoly hs p.eta1 randomness i

def encError (i : Fin p.k) : Poly Int32 := cbdPoly hs p.eta2 randomness (p.k + i)

def encScalarError : Poly Int32 := cbdPoly hs p.eta2 randomness (p.k + p.k)

def messageBits : Poly Int32 := (byteDecode message 1 zeroPoly).getD zeroPoly

variable (matrix : Fin p.k → Fin p.k → Poly Int32)

def encVector : Fin p.k → Poly Int32 :=
  ciphertextVector matrix (encSecret hs p randomness) (encError hs p randomness)

def encScalar : Poly Int32 :=
  ciphertextScalar (keyPublic hs p seed matrix) (encSecret hs p randomness)
    (encScalarError hs p randomness) (decompressed 1 (messageBits message))

/-- The decryption noise `e^T r + e2 + c_v - s^T (e1 + c_u)`. -/
noncomputable def noise : Rq :=
  (∑ i, toRq (keyError hs p seed i) * toRq (encSecret hs p randomness i)) +
    toRq (encScalarError hs p randomness) +
    compressionError p.dv (encScalar hs p seed randomness message matrix) -
    ∑ i, toRq (keySecret hs p seed i) * (toRq (encError hs p randomness i) +
      compressionError p.du (encVector hs p randomness matrix i))

variable {hs p seed randomness message matrix}

theorem g_fst_length (input : List UInt8) : (hs.g input).1.length = 32 := by
  simp [Hashes.g]

structure ValidParameters (p : MlKemParameters) : Prop where
  eta1 : p.eta1 = 2 ∨ p.eta1 = 3
  eta2 : p.eta2 = 2 ∨ p.eta2 = 3
  du : 1 ≤ p.du ∧ p.du < 12
  dv : 1 ≤ p.dv ∧ p.dv < 12

theorem validParameters (hp : mlkemParametersValid p = true) : ValidParameters p := by
  have h := of_decide_eq_true hp
  exact ⟨h.2.2.1, by omega, by omega, by omega⟩

theorem keySecret_spec (hs : Hashes) (seed : List UInt8) (hp : ValidParameters p) (i : Fin p.k) :
    AllCanonical (keySecret hs p seed i) := (cbdPoly_spec hs hp.eta1 _ _).2

theorem keyError_spec (hs : Hashes) (seed : List UInt8) (hp : ValidParameters p) (i : Fin p.k) :
    AllCanonical (keyError hs p seed i) := (cbdPoly_spec hs hp.eta1 _ _).2

theorem encSecret_spec (hs : Hashes) (randomness : List UInt8) (hp : ValidParameters p) (i : Fin p.k) :
    AllCanonical (encSecret hs p randomness i) := (cbdPoly_spec hs hp.eta1 _ _).2

theorem encError_spec (hs : Hashes) (randomness : List UInt8) (hp : ValidParameters p) (i : Fin p.k) :
    AllCanonical (encError hs p randomness i) := (cbdPoly_spec hs hp.eta2 _ _).2

theorem encScalarError_spec (hs : Hashes) (randomness : List UInt8) (hp : ValidParameters p) :
    AllCanonical (encScalarError hs p randomness) := (cbdPoly_spec hs hp.eta2 _ _).2

theorem keyPublic_spec (seed : List UInt8) (hp : ValidParameters p) {rho : List UInt8}
    (hm : SampledMatrix hs rho matrix) (i : Fin p.k) :
    AllCanonical (keyPublic hs p seed matrix i) ∧
      transformed (keyPublic hs p seed matrix i) = toRq (keyError hs p seed i) +
        ∑ j, transformed (matrix i j) * toRq (keySecret hs p seed j) := by
  obtain ⟨hc, ht⟩ := accumulateProducts_spec (ntt_canonical (keyError_spec hs seed hp i))
    (sampledMatrix_canonical hm i) fun j => ntt_canonical (keySecret_spec hs seed hp j)
  refine ⟨hc, ht.trans ?_⟩
  rw [transformed_ntt (keyError_spec hs seed hp i)]
  simp only [transformed_ntt (keySecret_spec hs seed hp _)]

theorem encVector_spec (randomness : List UInt8) (hp : ValidParameters p) {rho : List UInt8}
    (hm : SampledMatrix hs rho matrix) (i : Fin p.k) :
    AllCanonical (encVector hs p randomness matrix i) ∧
      toRq (encVector hs p randomness matrix i) =
        (∑ j, transformed (matrix j i) * toRq (encSecret hs p randomness j)) +
          toRq (encError hs p randomness i) := by
  obtain ⟨hc, ht⟩ := accumulateProducts_spec zeroPoly_canonical
    (fun j => sampledMatrix_canonical hm j i)
    fun j => ntt_canonical (encSecret_spec hs randomness hp j)
  have herror := encError_spec hs randomness hp i
  refine ⟨addPoly_canonical (nttInv_canonical hc) herror,
    (toRq_addPoly (nttInv_canonical hc) herror).trans ?_⟩
  rw [← transformed, ht, transformed_zeroPoly, zero_add]
  simp only [transformed_ntt (encSecret_spec hs randomness hp _)]

theorem messageBits_spec (hlen : message.length = 32) :
    byteDecode message 1 zeroPoly = some (messageBits message) ∧ Fits 1 (messageBits message) ∧
      byteEncode (messageBits message) 1 = some message := by
  obtain ⟨f, hdecode, hf, hencode⟩ :=
    byteEncode_byteDecode le_rfl (by norm_num) (show message.length = 32 * 1 by omega) zeroPoly
  rw [messageBits, hdecode]
  exact ⟨rfl, hf, hencode⟩

theorem encScalar_spec (seed randomness : List UInt8) (hp : ValidParameters p) {rho : List UInt8}
    (hm : SampledMatrix hs rho matrix) (hlen : message.length = 32) :
    AllCanonical (encScalar hs p seed randomness message matrix) ∧
      toRq (encScalar hs p seed randomness message matrix) =
        (∑ i, transformed (keyPublic hs p seed matrix i) * toRq (encSecret hs p randomness i)) +
          toRq (encScalarError hs p randomness) + toRq (decompressed 1 (messageBits message)) := by
  obtain ⟨hc, ht⟩ := accumulateProducts_spec zeroPoly_canonical
    (fun i => (keyPublic_spec seed hp hm i).1)
    fun j => ntt_canonical (encSecret_spec hs randomness hp j)
  have herror := encScalarError_spec hs randomness hp
  have hmessage := (decompressed_spec le_rfl (by norm_num) (messageBits_spec hlen).2.1).2.1
  refine ⟨addTwo_canonical (nttInv_canonical hc) herror hmessage,
    (toRq_addTwo (nttInv_canonical hc) herror hmessage).trans ?_⟩
  rw [← transformed, ht, transformed_zeroPoly, zero_add]
  simp only [transformed_ntt (encSecret_spec hs randomness hp _)]

theorem decrypted_noise (hp : ValidParameters p) {rho : List UInt8}
    (hm : SampledMatrix hs rho matrix) (hlen : message.length = 32) {u : Fin p.k → Poly Int32}
    {v : Poly Int32} (hu : ∀ i, AllCanonical (u i)) (hv : AllCanonical v)
    (hue : ∀ i, toRq (u i) = toRq (encVector hs p randomness matrix i) +
      compressionError p.du (encVector hs p randomness matrix i))
    (hve : toRq v = toRq (encScalar hs p seed randomness message matrix) +
      compressionError p.dv (encScalar hs p seed randomness message matrix)) :
    AllCanonical (messagePolynomial (fun i => ntt (keySecret hs p seed i)) u v) ∧
      toRq (messagePolynomial (fun i => ntt (keySecret hs p seed i)) u v) =
        toRq (decompressed 1 (messageBits message)) + noise hs p seed randomness message matrix := by
  obtain ⟨hc, ht⟩ := accumulateProducts_spec zeroPoly_canonical
    (fun i => ntt_canonical (keySecret_spec hs seed hp i))
    fun i => ntt_canonical (hu i)
  refine ⟨subPoly_canonical hv (nttInv_canonical hc),
    (toRq_subPoly hv (nttInv_canonical hc)).trans ?_⟩
  rw [← transformed, ht, transformed_zeroPoly, zero_add, hve,
    (encScalar_spec seed randomness hp hm hlen).2, noise]
  simp only [transformed_ntt (keySecret_spec hs seed hp _), transformed_ntt (hu _), hue,
    (encVector_spec randomness hp hm _).2, (keyPublic_spec seed hp hm _).2]
  -- the two double sums over the matrix cancel: one reads it by rows, one transposed
  have hdouble : ∑ i, (∑ j, transformed (matrix i j) * toRq (keySecret hs p seed j)) *
        toRq (encSecret hs p randomness i) =
      ∑ i, toRq (keySecret hs p seed i) *
        ∑ j, transformed (matrix j i) * toRq (encSecret hs p randomness j) := by
    simp only [Finset.sum_mul, Finset.mul_sum]
    rw [Finset.sum_comm]
    exact Finset.sum_congr rfl fun i _ => Finset.sum_congr rfl fun j _ => by ring
  simp only [add_mul, mul_add, Finset.sum_add_distrib, hdouble]
  ring

end LiberaCrypt.KPkeNoise

namespace LiberaCrypt.KPkeCorrect

open LiberaCrypt.Outcome LiberaCrypt.MlKemReduce LiberaCrypt.MlKemNtt LiberaCrypt.MlKemNttRefine
  LiberaCrypt.MlKemNttRing LiberaCrypt.MlKemEncode LiberaCrypt.MlKemAuxiliary LiberaCrypt.KPke
  LiberaCrypt.MlKemRing LiberaCrypt.KPkeSample LiberaCrypt.KPkeNoise

variable {hs : Hashes} {p : MlKemParameters} {seed randomness message : List UInt8}
  {matrix : Fin p.k → Fin p.k → Poly Int32}

/-- The keys that `K_PKE_KeyGen` stores: the encoded vectors, and `rho` after the public one. -/
structure KeyPair (hs : Hashes) (p : MlKemParameters) (seed : List UInt8)
    (matrix : Fin p.k → Fin p.k → Poly Int32) (publicBytes privateKey : List UInt8) : Prop where
  publicEncode : encodeVector (keyPublic hs p seed matrix) 12 = pure publicBytes
  publicLength : publicBytes.length = p.k * 384
  publicDecode : ∀ tail, decodeVector p.k 12 (publicBytes ++ tail) =
    pure (keyPublic hs p seed matrix)
  privateEncode : encodeVector (fun i => ntt (keySecret hs p seed i)) 12 = pure privateKey
  privateLength : privateKey.length = p.k * 384
  privateDecode : ∀ tail, decodeVector p.k 12 (privateKey ++ tail) =
    pure fun i => ntt (keySecret hs p seed i)

theorem exists_keyPair (seed : List UInt8) (hp : ValidParameters p) {rho : List UInt8}
    (hm : SampledMatrix hs rho matrix) :
    ∃ publicBytes privateKey, KeyPair hs p seed matrix publicBytes privateKey := by
  obtain ⟨publicBytes, he, hl, hd⟩ := encodeVector_spec (d := 12) (by norm_num) le_rfl
    fun i => fits_canonical (keyPublic_spec seed hp hm i).1
  obtain ⟨privateKey, he', hl', hd'⟩ := encodeVector_spec (d := 12) (by norm_num) le_rfl
    fun i => fits_canonical (ntt_canonical (keySecret_spec hs seed hp i))
  exact ⟨publicBytes, privateKey, he, hl, hd, he', hl', hd'⟩

theorem kPkeKeyGen_eq (hp : mlkemParametersValid p = true)
    (hm : SampledMatrix hs (keySeeds hs p seed).1 matrix) {publicBytes privateKey : List UInt8}
    (hkey : KeyPair hs p seed matrix publicBytes privateKey) :
    ∃ N, ∀ fuel ≥ N, kPkeKeyGen hs p fuel true seed =
      pure (publicBytes ++ (keySeeds hs p seed).1, privateKey) := by
  have hv := validParameters hp
  obtain ⟨N, hN⟩ := sampleMatrix_eq hm
  refine ⟨N, fun fuel hfuel => ?_⟩
  have hsecret := collect_of_pure (g := keySecret hs p seed) fun i =>
    (cbdPoly_spec hs hv.eta1 (keySeeds hs p seed).2 i).1
  have herror := collect_of_pure (g := keyError hs p seed) fun i =>
    (cbdPoly_spec hs hv.eta1 (keySeeds hs p seed).2 (p.k + i)).1
  have hpublic : encodeVector (publicVector matrix (keySecret hs p seed) (keyError hs p seed)) 12 =
    pure publicBytes := hkey.publicEncode
  simp only [kPkeKeyGen, hp, hN fuel hfuel, hsecret, herror, hpublic, hkey.privateEncode, pure_bind,
    Bool.not_true, Bool.false_eq_true, if_false]

structure Ciphertext (hs : Hashes) (p : MlKemParameters) (seed randomness message : List UInt8)
    (matrix : Fin p.k → Fin p.k → Poly Int32) (ciphertext : List UInt8) : Prop where
  length : ciphertext.length = 32 * (p.du * p.k + p.dv)
  vector : decodeVector p.k p.du ciphertext =
    pure fun i => compressed p.du (encVector hs p randomness matrix i)
  scalar : byteDecode (slice ciphertext (p.k * (32 * p.du)) (32 * p.dv)) p.dv zeroPoly =
    some (compressed p.dv (encScalar hs p seed randomness message matrix))

theorem kPkeEnc_eq (hp : mlkemParametersValid p = true)
    (hm : SampledMatrix hs (keySeeds hs p seed).1 matrix) {publicBytes privateKey : List UInt8}
    (hkey : KeyPair hs p seed matrix publicBytes privateKey) (hlen : message.length = 32)
    (randomness : List UInt8) :
    ∃ ciphertext, Ciphertext hs p seed randomness message matrix ciphertext ∧
      ∃ N, ∀ fuel ≥ N, kPkeEnc hs p fuel true (publicBytes ++ (keySeeds hs p seed).1) message
        randomness = pure ciphertext := by
  have hv := validParameters hp
  have hvec := fun i => compressed_spec hv.du.1 hv.du.2
    (encVector_spec randomness hv hm i).1
  have hsca := compressed_spec hv.dv.1 hv.dv.2
    (encScalar_spec seed randomness hv hm hlen).1
  obtain ⟨first, hfirst, hflen, hfdecode⟩ := encodeVector_spec hv.du.1 hv.du.2.le
    fun i => (hvec i).2.1
  obtain ⟨second, hsecond, hslen, hsdecode⟩ := byteDecode_byteEncode hv.dv.1 hv.dv.2.le hsca.2.1
    zeroPoly
  obtain ⟨hbits, hfits, -⟩ := messageBits_spec hlen
  have hmessage := (decompressed_spec le_rfl (by norm_num) hfits).1
  refine ⟨first ++ second, ⟨?_, hfdecode second, ?_⟩, ?_⟩
  · rw [List.length_append, hflen, hslen]
    ring
  · rw [slice, ← hflen, List.drop_left, ← hslen, List.take_length]
    exact hsdecode
  · obtain ⟨N, hN⟩ := sampleMatrix_eq hm
    refine ⟨N, fun fuel hfuel => ?_⟩
    have hrho : slice (publicBytes ++ (keySeeds hs p seed).1) (p.k * 384) 32 =
        (keySeeds hs p seed).1 := by
      rw [slice, ← hkey.publicLength, List.drop_left]
      exact List.take_of_length_le (g_fst_length _).le
    have hsecret := collect_of_pure (g := encSecret hs p randomness) fun i =>
      (cbdPoly_spec hs hv.eta1 randomness i).1
    have herror := collect_of_pure (g := encError hs p randomness) fun i =>
      (cbdPoly_spec hs hv.eta2 randomness (p.k + i)).1
    have hscalar : orInternal (sampleCbd hs p.eta2 randomness (p.k + p.k)) =
      pure (encScalarError hs p randomness) := (cbdPoly_spec hs hv.eta2 _ _).1
    have hcomp : collect (fun i => orInternal (comp (ciphertextVector matrix
        (encSecret hs p randomness) (encError hs p randomness) i) p.du zeroPoly 256)) =
      pure fun i => compressed p.du (encVector hs p randomness matrix i) :=
        collect_of_pure fun i => (hvec i).1
    have hlast := hsca.1
    rw [encScalar] at hlast hsecond
    simp only [kPkeEnc, hp, hkey.publicDecode, hrho, hN fuel hfuel, hsecret, herror, hscalar, hbits,
      orInternal_some, hmessage, hcomp, hfirst, hlast, hsecond, pure_bind, Bool.not_true,
      Bool.false_eq_true, if_false]

theorem kPkeDec_eq (hp : mlkemParametersValid p = true)
    (hm : SampledMatrix hs (keySeeds hs p seed).1 matrix) {publicBytes privateKey : List UInt8}
    (hkey : KeyPair hs p seed matrix publicBytes privateKey) (hlen : message.length = 32)
    {ciphertext : List UInt8} (hc : Ciphertext hs p seed randomness message matrix ciphertext)
    (hnoise : NoiseAtMost 831 (noise hs p seed randomness message matrix)) :
    kPkeDec p true privateKey ciphertext = pure message := by
  have hv := validParameters hp
  have hvec := fun i => compressed_spec hv.du.1 hv.du.2
    (encVector_spec randomness hv hm i).1
  have hsca := compressed_spec hv.dv.1 hv.dv.2
    (encScalar_spec seed randomness hv hm hlen).1
  have hu := fun i => decompressed_spec hv.du.1 hv.du.2 (hvec i).2.1
  have hd := decompressed_spec hv.dv.1 hv.dv.2 hsca.2.1
  obtain ⟨hbits, hfits, hencode⟩ := messageBits_spec hlen
  have hmessage := decompressed_spec le_rfl (by norm_num) hfits
  obtain ⟨hcan, hring⟩ := decrypted_noise hv hm hlen (fun i => (hu i).2.1) hd.2.1
    (fun i => (add_sub_cancel _ _).symm) (add_sub_cancel _ _).symm
  have hw := compressed_spec le_rfl (by norm_num) hcan
  have hround : compressed 1 (KPke.messagePolynomial (fun i => ntt (keySecret hs p seed i))
      (fun i => decompressed p.du (compressed p.du (encVector hs p randomness matrix i)))
      (decompressed p.dv (compressed p.dv (encScalar hs p seed randomness message matrix)))) =
        messageBits message := by
    refine poly_ext fun i hi => word_injective ?_
    have hbit := hfits i hi
    rw [decodeModulus_pow (by norm_num), pow_one] at hbit
    have hcoeff := congrArg (fun x => rqCoeff x i) hring
    simp only [rqCoeff_add, rqCoeff_toRq _ hi, hmessage.2.2 i hi, Nat.sub_self, pow_zero,
      pow_one] at hcoeff
    rw [hw.2.2 i hi, pow_one]
    exact message_bit hbit hcoeff (hnoise i hi)
  have hdecode := hkey.privateDecode []
  rw [List.append_nil] at hdecode
  have hcollect := collect_of_pure fun i => (hu i).1
  simp only [kPkeDec, hp, hc.vector, hc.scalar, hdecode, hcollect, hd.1, hw.1, hround, hencode,
    orInternal_some, pure_bind, Bool.not_true, Bool.false_eq_true, if_false]

end LiberaCrypt.KPkeCorrect
