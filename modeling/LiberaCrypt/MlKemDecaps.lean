import LiberaCrypt.ByteMemory
import LiberaCrypt.Def
import LiberaCrypt.MlKemCorrect

namespace LiberaCrypt.MlKemDecaps

open LiberaCrypt.Outcome LiberaCrypt.Def LiberaCrypt.ByteMemory LiberaCrypt.ConstantTime
  LiberaCrypt.MlKemReduce LiberaCrypt.MlKemNtt LiberaCrypt.MlKemNttRefine LiberaCrypt.MlKemNttRing
  LiberaCrypt.MlKemRing
  LiberaCrypt.MlKemEncode LiberaCrypt.MlKemAuxiliary LiberaCrypt.KPke LiberaCrypt.KPkeSample
  LiberaCrypt.KPkeNoise LiberaCrypt.MlKem LiberaCrypt.MlKemPublicKey LiberaCrypt.MlKemCorrect

def mlkemParametersFor : LiberaCAlgID → Option MlKemParameters
  | .mlKem512 => some ⟨2, 3, 2, 10, 4⟩
  | .mlKem768 => some ⟨3, 2, 2, 10, 4⟩
  | .mlKem1024 => some ⟨4, 2, 2, 11, 5⟩
  | _ => none

def cryptoMlKemPublicKeySizeInternal : LiberaCAlgID → Nat
  | .mlKem512 => 800
  | .mlKem768 => 1184
  | .mlKem1024 => 1568
  | _ => 0

def cryptoMlKemPrivateKeySizeInternal : LiberaCAlgID → Nat
  | .mlKem512 => 1632
  | .mlKem768 => 2400
  | .mlKem1024 => 3168
  | _ => 0

def cryptoMlKemCiphertextSizeInternal : LiberaCAlgID → Nat
  | .mlKem512 => 768
  | .mlKem768 => 1088
  | .mlKem1024 => 1568
  | _ => 0

structure DecapsRequest where
  sk : Nat
  skLen : Nat
  ct : Nat
  ctLen : Nat
  ss : Nat

/-- What decapsulation leaves in the buffer of the shared secret. The key and the
ciphertext do not overlap it, so they are read once. -/
def mlKemDecaps (hs : Hashes) (p : MlKemParameters) (fuel : Nat) (callocDec callocEnc : Bool)
    (privateKey ciphertext : List UInt8) (ss : Nat) (memory : Memory) :
    Option (Except LiberaCError Unit × Memory) :=
  (mlKemDecapsInternal hs p fuel callocDec callocEnc privateKey ciphertext).run.map fun
    | .ok sharedSecret => (.ok (), writeBytes memory ss sharedSecret)
    | .error e => (.error e, cryptoZeroize ss 32 memory)

/-- `none` is a run that does not end within its fuel. -/
def cryptoMlKemDecapsInternal (hs : Hashes) (fuel : Nat) (callocDec callocEnc : Bool)
    (alg : LiberaCAlgID) (r : DecapsRequest) (memory : Memory) :
    Option (Except LiberaCError Unit × Memory) :=
  let needPk := cryptoMlKemPublicKeySizeInternal alg
  let needSk := cryptoMlKemPrivateKeySizeInternal alg
  let needCt := cryptoMlKemCiphertextSizeInternal alg
  if needSk = 0 ∨ needCt = 0 then some (.error .invalidAlgId, memory)
  else if r.sk = 0 ∨ r.ct = 0 ∨ r.ss = 0 then some (.error .invalidArgument, memory)
  else if r.skLen < needSk ∨ r.ctLen < needCt then some (.error .bufferTooSmall, memory)
  else if cryptoRangesOverlap r.sk needSk r.ss 32 || cryptoRangesOverlap r.ct needCt r.ss 32 then
    some (.error .invalidArgument, memory)
  else if !mlkemPrivateKeyHashIsValid hs (readBytes memory r.sk needSk) needPk needSk then
    some (.error .invalidKey, cryptoZeroize r.ss 32 memory)
  else match mlkemParametersFor alg with
    | none => some (.error .internal, cryptoZeroize r.ss 32 memory)
    | some p => mlKemDecaps hs p fuel callocDec callocEnc (readBytes memory r.sk needSk)
        (readBytes memory r.ct needCt) r.ss memory

theorem parameters_sizes {alg : LiberaCAlgID} {p : MlKemParameters}
    (h : mlkemParametersFor alg = some p) :
    p ∈ mlkemParameterSets ∧ cryptoMlKemPublicKeySizeInternal alg = 384 * p.k + 32 ∧
      cryptoMlKemPrivateKeySizeInternal alg = 768 * p.k + 96 ∧
      cryptoMlKemCiphertextSizeInternal alg = 32 * (p.du * p.k + p.dv) := by
  cases alg <;> cases h <;> decide

section Loops

variable {α β : Type}

/-- A run that ends with the value `x` or does not end. -/
def Yields (run : Run α) (x : α) : Prop := run = pure x ∨ run = orDiverge none

theorem yields_pure (x : α) : Yields (pure x : Run α) x := .inl rfl

theorem Yields.bind {run : Run α} {x : α} {next : α → Run β} {y : β} (h : Yields run x)
    (hnext : Yields (next x) y) : Yields (run >>= next) y := by
  rcases h with h | h
  · rwa [h, pure_bind]
  · rw [h]
    exact .inr rfl

theorem Yields.collect {n : Nat} {f : Fin n → Run α} {g : Fin n → α}
    (h : ∀ i, Yields (f i) (g i)) : Yields (collect f) g := by
  induction n with
  | zero => exact .inl (congrArg pure (funext fun i => i.elim0))
  | succ n ih =>
    refine (ih fun i => h i.castSucc).bind ((h (Fin.last n)).bind ?_)
    exact .inl (congrArg pure (Fin.snoc_init_self g))

theorem Yields.eq {run : Run α} {x : α} {result : Except LiberaCError α} (h : Yields run x)
    (hrun : run.run = some result) : result = .ok x := by
  rcases h with rfl | rfl
  · exact (Option.some.inj hrun).symm
  · cases hrun

end Loops

variable {hs : Hashes} {p : MlKemParameters} {matrix : Fin p.k → Fin p.k → Poly Int32}

/-- The rejection loops return the entries of the matrix or do not end. -/
theorem sampleMatrix_yields {k : Nat} {rho : List UInt8} {matrix : Fin k → Fin k → Poly Int32}
    (hm : SampledMatrix hs rho matrix) (fuel : Nat) :
    Yields (sampleMatrix hs k fuel rho) matrix := by
  refine Yields.collect fun i => Yields.collect fun j => ?_
  obtain ⟨bound, hbound⟩ := hm i j
  cases hsample : sampleNtt (hs.shake128 (rho ++ [UInt8.ofNat j, UInt8.ofNat i])) fuel zeroPoly with
  | none => exact .inr rfl
  | some f =>
    have h1 := sampleLoop_mono _ hbound (le_max_left bound fuel)
    have h2 := sampleLoop_mono _ hsample (le_max_right bound fuel)
    have heq : f = matrix i j := Option.some.inj (h2.symm.trans h1)
    rw [heq]
    exact yields_pure (matrix i j)

theorem decodeVector_total {d : Nat} (h1 : 1 ≤ d) (h12 : d ≤ 12) {k : Nat} {bytes : List UInt8}
    (hlen : k * (32 * d) ≤ bytes.length) :
    ∃ f : Fin k → Poly Int32, decodeVector k d bytes = pure f ∧ ∀ i, Fits d (f i) := by
  have hslice : ∀ i : Fin k, 32 * d ≤ (slice bytes (i * (32 * d)) (32 * d)).length := by
    intro i
    have hi : (i + 1) * (32 * d) ≤ k * (32 * d) := Nat.mul_le_mul_right _ i.isLt
    rw [slice, List.length_take, List.length_drop]
    rw [Nat.succ_mul] at hi
    omega
  choose f hdecode hword using fun i => byteDecode_spec h1 h12 (hslice i) zeroPoly
  refine ⟨f, collect_of_pure fun i => congrArg orInternal (hdecode i), fun i j hj => ?_⟩
  rw [hword i j hj]
  refine Nat.mod_lt _ ?_
  rw [decodeModulus_toNat h12]
  split <;> positivity

/-- Encryption under any public key returns a ciphertext once its rejection loops end. -/
theorem kPkeEnc_total (hp : mlkemParametersValid p = true) {publicKey message : List UInt8}
    (hlen : publicKey.length = 384 * p.k + 32)
    (hm : SampledMatrix hs (slice publicKey (p.k * 384) 32) matrix) (hmessage : message.length = 32)
    (randomness : List UInt8) :
    ∃ ciphertext, ciphertext.length = 32 * (p.du * p.k + p.dv) ∧
      (∀ fuel, Yields (kPkeEnc hs p fuel true publicKey message randomness) ciphertext) ∧
      ∃ N, ∀ fuel ≥ N, kPkeEnc hs p fuel true publicKey message randomness = pure ciphertext := by
  have hv := validParameters hp
  obtain ⟨publicNtt, hpublic, hfits⟩ := decodeVector_total (d := 12) (k := p.k) (by norm_num) le_rfl
    (show p.k * (32 * 12) ≤ publicKey.length by omega)
  have hsecret := collect_of_pure (g := encSecret hs p randomness) fun i =>
    (cbdPoly_spec hs hv.eta1 randomness i).1
  have herror := collect_of_pure (g := encError hs p randomness) fun i =>
    (cbdPoly_spec hs hv.eta2 randomness (p.k + i)).1
  have hscalar : orInternal (sampleCbd hs p.eta2 randomness (p.k + p.k)) =
    pure (encScalarError hs p randomness) := (cbdPoly_spec hs hv.eta2 _ _).1
  obtain ⟨hbits, hbitsFit, -⟩ := messageBits_spec hmessage
  obtain ⟨hmsg, hmsgCanonical, -⟩ := decompressed_spec le_rfl (by norm_num) hbitsFit
  have hvec := fun i => compressed_spec hv.du.1 hv.du.2 (encVector_spec randomness hv hm i).1
  have hcomp : collect (fun i => orInternal (comp (ciphertextVector matrix
      (encSecret hs p randomness) (encError hs p randomness) i) p.du zeroPoly 256)) =
    pure fun i => compressed p.du (encVector hs p randomness matrix i) :=
      collect_of_pure fun i => (hvec i).1
  obtain ⟨hsum, -⟩ := accumulateProducts_spec zeroPoly_canonical (fun i => (hfits i : AllCanonical _))
    fun j => ntt_canonical (encSecret_spec hs randomness hv j)
  have hsca : AllCanonical (ciphertextScalar publicNtt (encSecret hs p randomness)
      (encScalarError hs p randomness) (decompressed 1 (messageBits message))) :=
    addTwo_canonical (nttInv_canonical hsum) (encScalarError_spec hs randomness hv) hmsgCanonical
  obtain ⟨hlast, hlastFit, -⟩ := compressed_spec hv.dv.1 hv.dv.2 hsca
  obtain ⟨first, hfirst, hflen, -⟩ := encodeVector_spec hv.du.1 hv.du.2.le fun i => (hvec i).2.1
  obtain ⟨second, hsecond, hslen, -⟩ := byteEncode_spec
    (compressed p.dv (ciphertextScalar publicNtt (encSecret hs p randomness)
      (encScalarError hs p randomness) (decompressed 1 (messageBits message)))) hv.dv.1 hv.dv.2.le
  have hrun : ∀ {fuel}, sampleMatrix hs p.k fuel (slice publicKey (p.k * 384) 32) = pure matrix →
      kPkeEnc hs p fuel true publicKey message randomness = pure (first ++ second) := by
    intro fuel hmatrix
    simp only [kPkeEnc, hp, hpublic, hmatrix, hsecret, herror, hscalar, hbits, orInternal_some, hmsg,
      hcomp, hfirst, hlast, hsecond, pure_bind, Bool.not_true, Bool.false_eq_true, if_false]
  refine ⟨first ++ second, ?_, fun fuel => ?_, ?_⟩
  · rw [List.length_append, hflen, hslen]
    ring
  · rcases sampleMatrix_yields hm fuel with hmatrix | hmatrix
    · exact .inl (hrun hmatrix)
    · refine .inr ?_
      simp only [kPkeEnc, hp, hpublic, hmatrix, pure_bind, Bool.not_true, Bool.false_eq_true,
        if_false]
      rfl
  · obtain ⟨N, hN⟩ := sampleMatrix_eq hm
    exact ⟨N, fun fuel hfuel => hrun (hN fuel hfuel)⟩

theorem kPkeDec_total (hp : mlkemParametersValid p = true) {privateKey ciphertext : List UInt8}
    (hlen : privateKey.length = 384 * p.k)
    (hcipher : ciphertext.length = 32 * (p.du * p.k + p.dv)) :
    ∃ message, kPkeDec p true privateKey ciphertext = pure message ∧ message.length = 32 := by
  have hv := validParameters hp
  have hsum : p.k * (32 * p.du) + 32 * p.dv = ciphertext.length := by
    rw [hcipher]
    ring
  obtain ⟨packed, hpacked, hpackedFit⟩ := decodeVector_total (k := p.k) hv.du.1 hv.du.2.le
    (show p.k * (32 * p.du) ≤ ciphertext.length by omega)
  have hu := fun i => decompressed_spec hv.du.1 hv.du.2 (hpackedFit i)
  have hvector := collect_of_pure fun i => (hu i).1
  have hslice : 32 * p.dv ≤ (slice ciphertext (p.k * (32 * p.du)) (32 * p.dv)).length := by
    rw [slice, List.length_take, List.length_drop]
    omega
  obtain ⟨scalar, hscalar, hword⟩ := byteDecode_spec hv.dv.1 hv.dv.2.le hslice zeroPoly
  have hscalarFit : Fits p.dv scalar := by
    intro i hi
    rw [hword i hi, decodeModulus_pow hv.dv.2]
    exact Nat.mod_lt _ (by positivity)
  obtain ⟨hd, hdCanonical, -⟩ := decompressed_spec hv.dv.1 hv.dv.2 hscalarFit
  obtain ⟨privateNtt, hprivate, hprivateFit⟩ := decodeVector_total (d := 12) (k := p.k) (by norm_num)
    le_rfl (show p.k * (32 * 12) ≤ privateKey.length by omega)
  obtain ⟨hproduct, -⟩ := accumulateProducts_spec zeroPoly_canonical
    (fun i => (hprivateFit i : AllCanonical _)) fun i => ntt_canonical (hu i).2.1
  have hpolynomial : AllCanonical (KPke.messagePolynomial privateNtt
      (fun i => decompressed p.du (packed i)) (decompressed p.dv scalar)) :=
    subPoly_canonical hdCanonical (nttInv_canonical hproduct)
  have hbits := (compressed_spec (d := 1) le_rfl (by norm_num) hpolynomial).1
  obtain ⟨message, hmessage, hlength, -⟩ := byteEncode_spec (compressed 1
    (KPke.messagePolynomial privateNtt (fun i => decompressed p.du (packed i))
      (decompressed p.dv scalar))) (d := 1) le_rfl (by norm_num)
  refine ⟨message, ?_, by omega⟩
  simp only [kPkeDec, hp, hpacked, hvector, hscalar, hd, hprivate, hbits, hmessage, orInternal_some,
    pure_bind, Bool.not_true, Bool.false_eq_true, if_false]

/-- One of a word and its negation has the top bit, unless the word is zero. -/
theorem rejectionMask_ne_zero {mismatch : UInt32} (h : mismatch ≠ 0) :
    rejectionMask mismatch = 255 := by
  have hpos : mismatch.toNat ≠ 0 := fun hzero => h (UInt32.toNat_inj.mp hzero)
  have hlt := mismatch.toNat_lt
  have hneg : ((0 : UInt32) - mismatch).toNat = 2 ^ 32 - mismatch.toNat := by
    rw [UInt32.toNat_sub]
    simp only [UInt32.toNat_zero]
    omega
  have hbit : ((mismatch ||| ((0 : UInt32) - mismatch)) >>> 31).toNat = 1 := by
    have hshift := shiftRight_toNat (mismatch ||| ((0 : UInt32) - mismatch)) (n := 31) (by norm_num)
    refine hshift.trans ?_
    rw [UInt32.toNat_or, hneg, ← Nat.shiftRight_eq_div_pow, Nat.shiftRight_or_distrib,
      Nat.shiftRight_eq_div_pow, Nat.shiftRight_eq_div_pow]
    have hlow : mismatch.toNat / 2 ^ 31 ≤ 1 := by omega
    have hhigh : (2 ^ 32 - mismatch.toNat) / 2 ^ 31 ≤ 1 := by omega
    have hone : mismatch.toNat / 2 ^ 31 = 1 ∨ (2 ^ 32 - mismatch.toNat) / 2 ^ 31 = 1 := by omega
    generalize mismatch.toNat / 2 ^ 31 = x at *
    generalize (2 ^ 32 - mismatch.toNat) / 2 ^ 31 = y at *
    interval_cases x <;> interval_cases y <;> simp_all
  have hword : (mismatch ||| ((0 : UInt32) - mismatch)) >>> 31 = 1 := UInt32.toNat_inj.mp hbit
  rw [rejectionMask, hword]
  rfl

theorem selectSecret_ones {a b : List UInt8} (h : a.length = b.length) :
    selectSecret 255 a b = b := by
  induction a generalizing b with
  | nil => exact (List.eq_nil_of_length_eq_zero h.symm).symm
  | cons x a ih =>
    cases b with
    | nil => exact absurd h (by simp)
    | cons y b =>
      have hones : ∀ y : UInt8, y &&& 255 = y := fun y => UInt8.and_neg_one
      have hx : (x &&& ~~~(255 : UInt8)) ||| (y &&& 255) = y := by
        rw [hones, show ~~~(255 : UInt8) = 0 from rfl, UInt8.and_zero, UInt8.zero_or]
      rw [selectSecret, List.zipWith_cons_cons, hx]
      exact congrArg (y :: ·) (ih (Nat.succ.inj h))

theorem eq_of_getD {a b : List UInt8} {n : Nat} (ha : a.length = n) (hb : b.length = n) :
    (∀ i < n, a.getD i 0 = b.getD i 0) ↔ a = b := by
  constructor
  · intro h
    refine List.ext_getElem (ha.trans hb.symm) fun i h1 h2 => ?_
    have hi := h i (by omega)
    rwa [List.getD_eq_getElem _ _ h1, List.getD_eq_getElem _ _ h2] at hi
  · rintro rfl _ _
    rfl

/-- The masked copy keeps the secret of an equal ciphertext and takes the other one else. -/
theorem select_spec {ciphertext expected : List UInt8} {n : Nat} (hc : ciphertext.length = n)
    (he : expected.length = n) {accepted rejected : List UInt8}
    (hlen : accepted.length = rejected.length) :
    selectSecret (rejectionMask (byteDifference ciphertext expected n)) accepted rejected =
      if expected = ciphertext then accepted else rejected := by
  by_cases h : expected = ciphertext
  · have hsame : byteDifference ciphertext expected n = 0 :=
      (byteDifference_eq_zero _ _ _).mpr ((eq_of_getD hc he).mpr h.symm)
    rw [if_pos h, hsame]
    exact selectSecret_zero hlen
  · have hdiff : byteDifference ciphertext expected n ≠ 0 := fun hzero =>
      h ((eq_of_getD hc he).mp ((byteDifference_eq_zero _ _ _).mp hzero)).symm
    rw [if_neg h, rejectionMask_ne_zero hdiff, selectSecret_ones hlen]

theorem slice_length {bytes : List UInt8} {start length : Nat}
    (h : start + length ≤ bytes.length) : (slice bytes start length).length = length := by
  rw [slice, List.length_take, List.length_drop]
  omega

/-- The stored hash of an accepted key is the hash of its public key. -/
theorem storedHash_eq {dk : List UInt8} {k : Nat} (hlen : dk.length = 768 * k + 96)
    (h : mlkemPrivateKeyHashIsValid hs dk (384 * k + 32) (768 * k + 96) = true) :
    slice dk (768 * k + 32) 32 = hs.h (slice dk (384 * k) (384 * k + 32)) := by
  have hstart : 768 * k + 96 - (384 * k + 32) - 64 = 384 * k := by omega
  have hstored : 768 * k + 96 - 64 = 768 * k + 32 := by omega
  rw [mlkemPrivateKeyHashIsValid, hstart, hstored, cryptoConstantTimeEqual_iff] at h
  exact ((eq_of_getD (h_length hs _) (slice_length (by omega))).mp h).symm

section Decaps

variable {dk ct : List UInt8}

def decapsSecret (hs : Hashes) (k : Nat) (dk ct message reencrypted : List UInt8) : List UInt8 :=
  if reencrypted = ct then (hs.g (message ++ hs.h (slice dk (384 * k) (384 * k + 32)))).1
  else hs.j (slice dk (768 * k + 64) 32 ++ ct)

theorem decapsSecret_length (hs : Hashes) (k : Nat) (dk ct message reencrypted : List UInt8) :
    (decapsSecret hs k dk ct message reencrypted).length = 32 := by
  rw [decapsSecret]
  split
  · exact g_fst_length _
  · exact j_length hs _

theorem mlKemDecapsInternal_eq (hct : ct.length = 32 * (p.du * p.k + p.dv))
    (hhash : slice dk (768 * p.k + 32) 32 = hs.h (slice dk (384 * p.k) (384 * p.k + 32)))
    {message reencrypted : List UInt8}
    (hdec : kPkeDec p true (slice dk 0 (384 * p.k)) ct = pure message)
    (hmessage : message.length = 32) (hlen : reencrypted.length = 32 * (p.du * p.k + p.dv))
    {fuel : Nat}
    (henc : kPkeEnc hs p fuel true (slice dk (384 * p.k) (384 * p.k + 32)) message
      (hs.g (message ++ hs.h (slice dk (384 * p.k) (384 * p.k + 32)))).2 = pure reencrypted) :
    mlKemDecapsInternal hs p fuel true true dk ct =
      pure (decapsSecret hs p.k dk ct message reencrypted) := by
  have htake : message.take 32 = message := List.take_of_length_le hmessage.le
  have hctTake : ct.take (32 * (p.du * p.k + p.dv)) = ct := List.take_of_length_le hct.le
  simp only [mlKemDecapsInternal, hdec, pure_bind, htake, hhash, henc, hctTake]
  rw [select_spec hct hlen ((g_fst_length _).trans (j_length hs _).symm), decapsSecret]

theorem mlKemDecapsInternal_alloc (hp : mlkemParametersValid p = true) {callocDec callocEnc : Bool}
    (hcalloc : ¬ (callocDec = true ∧ callocEnc = true)) {message : List UInt8}
    (hdec : kPkeDec p true (slice dk 0 (384 * p.k)) ct = pure message) (fuel : Nat) :
    mlKemDecapsInternal hs p fuel callocDec callocEnc dk ct = throw .allocationFailed := by
  cases callocDec with
  | false =>
    have hfail : kPkeDec p false (slice dk 0 (384 * p.k)) ct = throw .allocationFailed := by
      simp only [kPkeDec, hp, Bool.not_true, Bool.false_eq_true, if_false, Bool.not_false, if_true]
      rfl
    simp only [mlKemDecapsInternal, hfail]
    rfl
  | true =>
    obtain rfl : callocEnc = false := by
      cases callocEnc with
      | false => rfl
      | true => exact absurd ⟨rfl, rfl⟩ hcalloc
    have hfail : ∀ publicKey randomness : List UInt8,
        kPkeEnc hs p fuel false publicKey message randomness = throw .allocationFailed := by
      intro publicKey randomness
      simp only [kPkeEnc, hp, Bool.not_true, Bool.false_eq_true, if_false, Bool.not_false, if_true]
      rfl
    simp only [mlKemDecapsInternal, hdec, pure_bind, hfail]
    rfl

theorem mlKemDecapsInternal_yields (hct : ct.length = 32 * (p.du * p.k + p.dv))
    (hhash : slice dk (768 * p.k + 32) 32 = hs.h (slice dk (384 * p.k) (384 * p.k + 32)))
    {message reencrypted : List UInt8}
    (hdec : kPkeDec p true (slice dk 0 (384 * p.k)) ct = pure message)
    (hmessage : message.length = 32) (hlen : reencrypted.length = 32 * (p.du * p.k + p.dv))
    {fuel : Nat}
    (henc : Yields (kPkeEnc hs p fuel true (slice dk (384 * p.k) (384 * p.k + 32)) message
      (hs.g (message ++ hs.h (slice dk (384 * p.k) (384 * p.k + 32)))).2) reencrypted) :
    Yields (mlKemDecapsInternal hs p fuel true true dk ct)
      (decapsSecret hs p.k dk ct message reencrypted) := by
  rcases henc with henc | henc
  · exact .inl (mlKemDecapsInternal_eq hct hhash hdec hmessage hlen henc)
  · have htake : message.take 32 = message := List.take_of_length_le hmessage.le
    refine .inr ?_
    simp only [mlKemDecapsInternal, hdec, pure_bind, htake, hhash, henc]
    rfl

end Decaps

structure Admissible (hs : Hashes) (p : MlKemParameters) (r : DecapsRequest) (memory : Memory) :
    Prop where
  pointers : r.sk ≠ 0 ∧ r.ct ≠ 0 ∧ r.ss ≠ 0
  skLen : 768 * p.k + 96 ≤ r.skLen
  ctLen : 32 * (p.du * p.k + p.dv) ≤ r.ctLen
  skDisjoint : Disjoint r.sk (768 * p.k + 96) r.ss 32
  ctDisjoint : Disjoint r.ct (32 * (p.du * p.k + p.dv)) r.ss 32
  hash : mlkemPrivateKeyHashIsValid hs (readBytes memory r.sk (768 * p.k + 96)) (384 * p.k + 32)
    (768 * p.k + 96) = true

theorem cryptoMlKemDecapsInternal_eq {alg : LiberaCAlgID} (halg : mlkemParametersFor alg = some p)
    {r : DecapsRequest} {memory : Memory} (hr : Admissible hs p r memory) (fuel : Nat)
    (callocDec callocEnc : Bool) :
    cryptoMlKemDecapsInternal hs fuel callocDec callocEnc alg r memory =
      mlKemDecaps hs p fuel callocDec callocEnc (readBytes memory r.sk (768 * p.k + 96))
        (readBytes memory r.ct (32 * (p.du * p.k + p.dv))) r.ss memory := by
  obtain ⟨hmem, hpk, hsk, hct⟩ := parameters_sizes halg
  have hdv : 0 < p.dv := (validParameters (mlkemParametersValid_of_mem hmem)).dv.1
  have hpointers := hr.pointers
  have hskLen := hr.skLen
  have hctLen := hr.ctLen
  have hsizes : ¬ (768 * p.k + 96 = 0 ∨ 32 * (p.du * p.k + p.dv) = 0) := by omega
  have hnull : ¬ (r.sk = 0 ∨ r.ct = 0 ∨ r.ss = 0) := by tauto
  have hroom : ¬ (r.skLen < 768 * p.k + 96 ∨ r.ctLen < 32 * (p.du * p.k + p.dv)) := by omega
  have hskOverlap := (cryptoRangesOverlap_iff _ _ _ _).mpr hr.skDisjoint
  have hctOverlap := (cryptoRangesOverlap_iff _ _ _ _).mpr hr.ctDisjoint
  simp only [cryptoMlKemDecapsInternal, hpk, hsk, hct, hsizes, hnull, hroom, hskOverlap, hctOverlap,
    hr.hash, halg, if_false, Bool.or_self, Bool.false_eq_true, Bool.not_true]

/-- Decapsulation under an accepted key writes the secret of its re-encryption: the key of
the message when the ciphertext is reproduced and the rejection secret when it is not. It
ends with nothing else but a failed allocation. -/
theorem mlKemDecaps_rejects_implicitly (hs : Hashes) {alg : LiberaCAlgID} {p : MlKemParameters}
    (halg : mlkemParametersFor alg = some p) {r : DecapsRequest} {memory : Memory}
    (hr : Admissible hs p r memory) {dk ct ek : List UInt8}
    (hdk : dk = readBytes memory r.sk (768 * p.k + 96))
    (hct : ct = readBytes memory r.ct (32 * (p.du * p.k + p.dv)))
    (hek : ek = slice dk (384 * p.k) (384 * p.k + 32))
    {matrix : Fin p.k → Fin p.k → Poly Int32}
    (hm : SampledMatrix hs (slice ek (p.k * 384) 32) matrix) :
    ∃ message reencrypted,
      kPkeDec p true (slice dk 0 (384 * p.k)) ct = pure message ∧
      (decapsSecret hs p.k dk ct message reencrypted).length = 32 ∧
      (∃ N, ∀ fuel ≥ N,
        kPkeEnc hs p fuel true ek message (hs.g (message ++ hs.h ek)).2 = pure reencrypted ∧
        cryptoMlKemDecapsInternal hs fuel true true alg r memory =
          some (.ok (), writeBytes memory r.ss (decapsSecret hs p.k dk ct message reencrypted))) ∧
      ∀ fuel callocDec callocEnc result later,
        cryptoMlKemDecapsInternal hs fuel callocDec callocEnc alg r memory = some (result, later) →
          (result = .ok () ∧
            later = writeBytes memory r.ss (decapsSecret hs p.k dk ct message reencrypted)) ∨
          ((callocDec = false ∨ callocEnc = false) ∧ result = .error .allocationFailed ∧
            later = cryptoZeroize r.ss 32 memory) := by
  have hvalid := mlkemParametersValid_of_mem (parameters_sizes halg).1
  have hdkLen : dk.length = 768 * p.k + 96 := hdk ▸ readBytes_length _ _ _
  have hctLen : ct.length = 32 * (p.du * p.k + p.dv) := hct ▸ readBytes_length _ _ _
  have hekLen : ek.length = 384 * p.k + 32 := hek ▸ slice_length (by omega)
  have hhash := storedHash_eq hdkLen (hdk ▸ hr.hash)
  obtain ⟨message, hdec, hmessage⟩ := kPkeDec_total hvalid
    (slice_length (show 0 + 384 * p.k ≤ dk.length by omega)) hctLen
  obtain ⟨reencrypted, hlen, hyields, N, hN⟩ := kPkeEnc_total hvalid hekLen hm hmessage
    (hs.g (message ++ hs.h ek)).2
  subst hek
  refine ⟨message, reencrypted, hdec, decapsSecret_length _ _ _ _ _ _,
    ⟨N, fun fuel hfuel => ⟨hN fuel hfuel, ?_⟩⟩, fun fuel callocDec callocEnc result later hrun => ?_⟩
  · rw [cryptoMlKemDecapsInternal_eq halg hr, ← hdk, ← hct, mlKemDecaps,
      mlKemDecapsInternal_eq hctLen hhash hdec hmessage hlen (hN fuel hfuel)]
    rfl
  · rw [cryptoMlKemDecapsInternal_eq halg hr, ← hdk, ← hct, mlKemDecaps] at hrun
    obtain ⟨outcome, houtcome, hresult⟩ := Option.map_eq_some_iff.mp hrun
    by_cases hcalloc : callocDec = true ∧ callocEnc = true
    · obtain ⟨rfl, rfl⟩ := hcalloc
      have hok := (mlKemDecapsInternal_yields hctLen hhash hdec hmessage hlen
        (hyields fuel)).eq houtcome
      subst hok
      cases hresult
      exact .inl ⟨rfl, rfl⟩
    · rw [mlKemDecapsInternal_alloc hvalid hcalloc hdec] at houtcome
      cases houtcome
      cases hresult
      refine .inr ⟨?_, rfl, rfl⟩
      cases callocDec <;> cases callocEnc <;> simp_all

section Sample

variable {matrix : Fin 3 → Fin 3 → Poly Int32} {rho : List UInt8}

theorem encVector_sample (hrho : rho.length = 32) (hm : SampledMatrix sampleHashes rho matrix)
    (randomness : List UInt8) :
    encVector sampleHashes ⟨3, 2, 2, 10, 4⟩ randomness matrix 0 =
      encError sampleHashes ⟨3, 2, 2, 10, 4⟩ randomness 0 := by
  have hv : ValidParameters ⟨3, 2, 2, 10, 4⟩ := validParameters (by decide)
  obtain ⟨hc, hring⟩ := encVector_spec randomness hv hm 0
  refine toRq_injective hc (encError_spec sampleHashes randomness hv 0) (hring.trans ?_)
  simp only [sampledMatrix_column hrho hm, transformed_zeroPoly, zero_mul, Finset.sum_const_zero,
    zero_add]

theorem compressed_sample (hrho : rho.length = 32) (hm : SampledMatrix sampleHashes rho matrix)
    {randomness : List UInt8} (hne : randomness ≠ []) :
    word (coeff (compressed 10 (encVector sampleHashes ⟨3, 2, 2, 10, 4⟩ randomness matrix 0)) 0) =
      if randomness.headD 0 &&& 1 = 1 then 1 else 0 := by
  have hv : ValidParameters ⟨3, 2, 2, 10, 4⟩ := validParameters (by decide)
  rw [encVector_sample hrho hm,
    (compressed_spec (by norm_num) (by norm_num) (encError_spec sampleHashes randomness hv 0)).2.2 0
      (by norm_num),
    encError, cbdPoly_sample (.inl rfl) hne _ 0 (by norm_num)]
  by_cases hodd : randomness.headD 0 &&& 1 = 1
  · rw [if_pos ⟨rfl, hodd⟩, if_pos hodd]
    rfl
  · rw [if_neg fun h => hodd h.2, if_neg hodd]
    rfl

theorem ciphertexts_differ (hrho : rho.length = 32) (hm : SampledMatrix sampleHashes rho matrix)
    {seed first second message ct ct' : List UInt8} (hfirst : first.headD 0 &&& 1 = 1)
    (hsecond : second.headD 0 &&& 1 = 0) (hne : second ≠ [])
    (hc : KPkeCorrect.Ciphertext sampleHashes ⟨3, 2, 2, 10, 4⟩ seed first message matrix ct)
    (hc' : KPkeCorrect.Ciphertext sampleHashes ⟨3, 2, 2, 10, 4⟩ seed second message matrix ct') :
    ct ≠ ct' := by
  rintro rfl
  have hne' : first ≠ [] := fun h => by
    rw [h] at hfirst
    exact absurd hfirst (by decide)
  have hvector := Option.some.inj (congrArg ExceptT.run (hc.vector.symm.trans hc'.vector))
  have hpoly := congrFun (Except.ok.inj hvector) 0
  have hword := congrArg (fun f => word (coeff f 0)) hpoly
  dsimp only at hword
  rw [compressed_sample hrho hm hne', compressed_sample hrho hm hne, if_pos hfirst, if_neg] at hword
  · exact absurd hword (by norm_num)
  · rw [hsecond]
    decide

theorem g_snd_odd (input : List UInt8) : (sampleHashes.g input).2.headD 0 &&& 1 = 1 := by
  obtain ⟨total, htotal⟩ : ∃ total, UInt8.ofNat (input.map UInt8.toNat).sum = total := ⟨_, rfl⟩
  have hhead : (sampleHashes.g input).2.headD 0 = total ||| 1 := by
    simp [Hashes.g, sampleHashes, htotal]
  rw [hhead]
  refine UInt8.toNat_inj.mp ?_
  rw [UInt8.toNat_and, UInt8.toNat_or, show UInt8.toNat 1 = 1 from rfl, Nat.and_or_distrib_right,
    Nat.and_self, Nat.and_one_is_mod]
  rcases Nat.mod_two_eq_zero_or_one total.toNat with h | h <;> rw [h] <;> rfl

def sampleMemory (dk ct : List UInt8) : Memory :=
  writeBytes (writeBytes ⟨fun _ => 0⟩ 8000 dk) 4000 ct

theorem sampleMemory_read {dk ct : List UInt8} (hdk : dk.length = 2400) (hct : ct.length = 1088) :
    readBytes (sampleMemory dk ct) 8000 2400 = dk ∧
      readBytes (sampleMemory dk ct) 4000 1088 = ct := by
  constructor
  · rw [sampleMemory, read_write_disjoint, ← hdk, read_write]
    intro i hi j hj
    omega
  · rw [sampleMemory, ← hct, read_write]

/-- The keys of a seed for ML-KEM-768 under `sampleHashes`, as decapsulation reads them. -/
structure SampleKey (seed ek dk : List UInt8) (matrix : Fin 3 → Fin 3 → Poly Int32) : Prop where
  ekLength : ek.length = 384 * 3 + 32
  dkLength : dk.length = 2400
  sampled : SampledMatrix sampleHashes (slice ek (3 * 384) 32) matrix
  publicPart : slice dk (384 * 3) (384 * 3 + 32) = ek
  rejectionPart : slice dk (768 * 3 + 64) 32 = List.replicate 32 3
  hash : mlkemPrivateKeyHashIsValid sampleHashes dk 1184 2400 = true
  generated : ∃ N, ∀ fuel ≥ N, mlKemKeyGenInternal sampleHashes ⟨3, 2, 2, 10, 4⟩ fuel true seed
    (List.replicate 32 3) = pure (ek, dk)

/-- A ciphertext that the keys encrypt a message to and decrypt to the message. -/
structure SampleCiphertext (ek dk m randomness ct : List UInt8) : Prop where
  length : ct.length = 1088
  decrypted : kPkeDec ⟨3, 2, 2, 10, 4⟩ true (slice dk 0 (384 * 3)) ct = pure m
  encrypted : ∃ N, ∀ fuel ≥ N,
    kPkeEnc sampleHashes ⟨3, 2, 2, 10, 4⟩ fuel true ek m randomness = pure ct

theorem exists_sampleKey (seed : List UInt8) {m : List UInt8} (hml : m.length = 32) :
    ∃ ek dk matrix, SampleKey seed ek dk matrix ∧ ∀ randomness ≠ [], ∃ ct,
      KPkeCorrect.Ciphertext sampleHashes ⟨3, 2, 2, 10, 4⟩ seed randomness m matrix ct ∧
        SampleCiphertext ek dk m randomness ct := by
  have hvalid : mlkemParametersValid ⟨3, 2, 2, 10, 4⟩ = true := by decide
  have hrho : (keySeeds sampleHashes ⟨3, 2, 2, 10, 4⟩ seed).1.length = 32 := g_fst_length _
  obtain ⟨matrix, hm⟩ := sampledMatrix_sample hrho
  obtain ⟨publicBytes, pke, hkey⟩ :=
    KPkeCorrect.exists_keyPair seed (validParameters hvalid) hm
  obtain ⟨N, hgen⟩ := KPkeCorrect.kPkeKeyGen_eq hvalid hm hkey
  obtain ⟨ek, hek⟩ : ∃ ek,
      publicBytes ++ (keySeeds sampleHashes ⟨3, 2, 2, 10, 4⟩ seed).1 = ek := ⟨_, rfl⟩
  have hekLen : ek.length = 384 * 3 + 32 := by
    rw [← hek, List.length_append, hkey.publicLength, hrho]
    norm_num
  have hpke : pke.length = 384 * 3 := by
    rw [hkey.privateLength]
    norm_num
  have hz : (List.replicate 32 (3 : UInt8)).length = 32 := List.length_replicate
  obtain ⟨h1, h2, h3, h4⟩ := privateKey_slices hpke hekLen (h_length sampleHashes ek) hz
  have hslice : slice ek (3 * 384) 32 = (keySeeds sampleHashes ⟨3, 2, 2, 10, 4⟩ seed).1 := by
    rw [slice, ← hek, ← hkey.publicLength, List.drop_left]
    exact List.take_of_length_le hrho.le
  refine ⟨ek, pke ++ ek ++ sampleHashes.h ek ++ List.replicate 32 3, matrix,
    ⟨hekLen, ?_, ?_, h2, h4, ?_, N, fun fuel hfuel => ?_⟩, fun randomness hne => ?_⟩
  · simp only [List.length_append, hpke, hekLen, h_length, hz]
  · rw [hslice]
    exact hm
  · rw [mlkemPrivateKeyHashIsValid, show slice _ (2400 - 1184 - 64) 1184 = ek from h2,
      show slice _ (2400 - 64) 32 = sampleHashes.h ek from h3]
    exact cryptoConstantTimeEqual_self _ _
  · rw [hek] at hgen
    exact mlKemKeyGenInternal_eq (hgen fuel hfuel) hekLen hz
  · obtain ⟨ct, hc, N', henc⟩ := KPkeCorrect.kPkeEnc_eq hvalid hm hkey hml randomness
    rw [hek] at henc
    have hdec := KPkeCorrect.kPkeDec_eq hvalid hm hkey hml hc
      (noise_sample hm (g_snd_ne_nil _ _) hne hml)
    exact ⟨ct, hc, hc.length, h1.symm ▸ hdec, N', henc⟩

theorem SampleKey.admissible {seed ek dk c : List UInt8} {matrix : Fin 3 → Fin 3 → Poly Int32}
    (h : SampleKey seed ek dk matrix) (hlen : c.length = 1088) :
    Admissible sampleHashes ⟨3, 2, 2, 10, 4⟩ ⟨8000, 2400, 4000, 1088, 100⟩ (sampleMemory dk c) := by
  refine ⟨by norm_num, le_rfl, le_rfl, (cryptoRangesOverlap_iff _ _ _ _).mp (by decide),
    (cryptoRangesOverlap_iff _ _ _ _).mp (by decide), ?_⟩
  rw [show readBytes (sampleMemory dk c) 8000 (768 * 3 + 96) = dk from
    (sampleMemory_read h.dkLength hlen).1]
  exact h.hash

end Sample

/-- The ciphertext of an encapsulation gives its secret. Another encryption of the same message
gives the rejection secret. -/
theorem mlKemDecaps_rejects_implicitly_sample :
    ∃ publicKey dk secret ct rejected N, ∀ fuel ≥ N,
      mlKemKeyGenInternal sampleHashes ⟨3, 2, 2, 10, 4⟩ fuel true (List.replicate 32 1)
          (List.replicate 32 3) = pure (publicKey, dk) ∧
        mlKemEncapsInternal sampleHashes ⟨3, 2, 2, 10, 4⟩ fuel true publicKey
          sampleMessage.toList = pure (secret, ct) ∧
        kPkeEnc sampleHashes ⟨3, 2, 2, 10, 4⟩ fuel true publicKey sampleMessage.toList
          (List.replicate 32 0) = pure rejected ∧
        cryptoMlKemDecapsInternal sampleHashes fuel true true .mlKem768
            ⟨8000, 2400, 4000, 1088, 100⟩ (sampleMemory dk ct) =
          some (.ok (), writeBytes (sampleMemory dk ct) 100 secret) ∧
        cryptoMlKemDecapsInternal sampleHashes fuel true true .mlKem768
            ⟨8000, 2400, 4000, 1088, 100⟩ (sampleMemory dk rejected) =
          some (.ok (), writeBytes (sampleMemory dk rejected) 100 (3 :: List.replicate 31 0)) := by
  have hml := sampleMessage.length_toList
  generalize sampleMessage.toList = m at hml ⊢
  generalize List.replicate 32 (1 : UInt8) = seed
  obtain ⟨ek, dk, matrix, hkey, hciphertexts⟩ := exists_sampleKey seed hml
  obtain ⟨ct, hc, hct⟩ := hciphertexts _ (g_snd_ne_nil sampleHashes (m ++ sampleHashes.h ek))
  obtain ⟨rejected, hc', hrejected⟩ := hciphertexts (List.replicate 32 0) (by decide)
  obtain ⟨N₁, hgen⟩ := hkey.generated
  obtain ⟨N₂, henc⟩ := hct.encrypted
  obtain ⟨N₃, henc'⟩ := hrejected.encrypted
  have hrun : ∀ c randomness, SampleCiphertext ek dk m randomness c →
      ∃ N, ∀ fuel ≥ N, cryptoMlKemDecapsInternal sampleHashes fuel true true .mlKem768
        ⟨8000, 2400, 4000, 1088, 100⟩ (sampleMemory dk c) =
          some (.ok (), writeBytes (sampleMemory dk c) 100
            (decapsSecret sampleHashes 3 dk c m ct)) := by
    intro c randomness h
    obtain ⟨hreadKey, hreadCipher⟩ := sampleMemory_read hkey.dkLength h.length
    obtain ⟨message, reencrypted, hdecrypted, -, ⟨N, hN⟩, -⟩ :=
      mlKemDecaps_rejects_implicitly sampleHashes
        (show mlkemParametersFor .mlKem768 = some ⟨3, 2, 2, 10, 4⟩ from rfl)
        (hkey.admissible h.length) hreadKey.symm hreadCipher.symm hkey.publicPart.symm hkey.sampled
    rw [h.decrypted] at hdecrypted
    obtain rfl := Except.ok.inj (Option.some.inj (congrArg ExceptT.run hdecrypted))
    have hsame := (hN _ (le_max_left N N₂)).1.symm.trans (henc _ (le_max_right N N₂))
    obtain rfl := Except.ok.inj (Option.some.inj (congrArg ExceptT.run hsame))
    exact ⟨N, fun fuel hfuel => (hN fuel hfuel).2⟩
  obtain ⟨N₄, haccepted⟩ := hrun ct _ hct
  obtain ⟨N₅, hrejects⟩ := hrun rejected _ hrejected
  have hsecret : decapsSecret sampleHashes 3 dk ct m ct =
      (sampleHashes.g (m ++ sampleHashes.h ek)).1 := by
    rw [decapsSecret, if_pos rfl, hkey.publicPart]
  have hrejection : decapsSecret sampleHashes 3 dk rejected m ct = 3 :: List.replicate 31 0 := by
    have hrho : (slice ek (3 * 384) 32).length = 32 := slice_length hkey.ekLength.ge
    have hdiffer := ciphertexts_differ hrho hkey.sampled (g_snd_odd _) (by decide) (by decide) hc hc'
    rw [decapsSecret, if_neg hdiffer, hkey.rejectionPart]
    simp [Hashes.j, sampleHashes]
    decide
  have hrandomness : encapsRandomness sampleHashes ⟨3, 2, 2, 10, 4⟩ ek m =
      (sampleHashes.g (m ++ sampleHashes.h ek)).2 :=
    encapsRandomness_eq sampleHashes hkey.ekLength hml
  have hencaps : ∀ fuel ≥ N₂,
      mlKemEncapsInternal sampleHashes ⟨3, 2, 2, 10, 4⟩ fuel true ek m =
        pure ((sampleHashes.g (m ++ sampleHashes.h ek)).1, ct) := fun fuel hfuel =>
    mlKemEncapsInternal_eq hkey.ekLength hml (hrandomness ▸ henc fuel hfuel)
  refine ⟨ek, dk, _, ct, rejected, max (max N₁ N₂) (max N₃ (max N₄ N₅)), fun fuel hfuel =>
    ⟨hgen fuel ?_, hencaps fuel ?_, henc' fuel ?_, (haccepted fuel ?_).trans (hsecret ▸ rfl),
      (hrejects fuel ?_).trans (hrejection ▸ rfl)⟩⟩
  all_goals omega

end LiberaCrypt.MlKemDecaps
