import LiberaCrypt.MlKem

namespace LiberaCrypt.MlKemCodec

open LiberaCrypt.CountedLoop LiberaCrypt.Outcome LiberaCrypt.Radix LiberaCrypt.MlKemReduce
  LiberaCrypt.MlKemNtt LiberaCrypt.MlKemNttRefine LiberaCrypt.MlKemEncode LiberaCrypt.KPke
  LiberaCrypt.KPkeSample LiberaCrypt.MlKem LiberaCrypt.MlKemPublicKey

/-- A coefficient array that the width `d` carries: residues for `d = 12`, `d` bits else. -/
def InRange (d : Nat) (f : Poly Int32) : Prop :=
  ∀ i < 256, 0 ≤ (coeff f i).toInt ∧ (coeff f i).toInt < if d = 12 then 3329 else 2 ^ d

theorem word_of_nonneg {x : Int32} (h : 0 ≤ x.toInt) : (word x : Int) = x.toInt := by
  have hx := BitVec.toInt_eq_toNat_bmod x.toBitVec
  have hlt : word x < 2 ^ 32 := x.toUInt32.toNat_lt
  change x.toInt = Int.bmod (word x) (2 ^ 32) at hx
  rw [Int.bmod_def] at hx
  split_ifs at hx <;> omega

theorem fits_of_inRange {d : Nat} (hd : d ≤ 12) {f : Poly Int32} (hf : InRange d f) :
    Fits d f := by
  intro i hi
  obtain ⟨hnonneg, hlt⟩ := hf i hi
  rw [← word_of_nonneg hnonneg] at hlt
  rw [decodeModulus_toNat hd]
  by_cases h : d = 12
  · rw [if_pos h] at hlt ⊢
    omega
  · rw [if_neg h] at hlt ⊢
    exact_mod_cast hlt

/-- The state in which `ByteDecode` leaves its loop. -/
def byteDecodeLoop (input : List UInt8) (bitWidth : Nat) (output : Poly Int32) : DecodeState :=
  countUp 256 (byteDecodeStep bitWidth) ⟨0, 0, input, output⟩

theorem byteDecodeLoop_input {d : Nat} (h12 : d ≤ 12) {bytes : List UInt8}
    (hlen : bytes.length = 32 * d) (tail : List UInt8) (output : Poly Int32) :
    (byteDecodeLoop (bytes ++ tail) d output).input = tail := by
  have hle : 32 * d ≤ (bytes ++ tail).length := by
    rw [List.length_append]
    omega
  have hrun := countUp_invariant (n := 256) (f := byteDecodeStep d)
    (fun n s => n ≤ 256 → DecodeInv d (bytes ++ tail) n s ∧ s.bufferedBits < 8)
    (s := ⟨0, 0, bytes ++ tail, output⟩)
    (fun _ => ⟨⟨⟨0, rfl, by simp⟩, by simp [Nat.mod_one]⟩, by simp⟩) ?_
  · obtain ⟨hinv, hbits⟩ := hrun le_rfl
    obtain ⟨c, hc, hpos⟩ := hinv.position
    have hend : c = bytes.length := by omega
    exact hc.trans (hend ▸ List.drop_left)
  · intro n hn s hs _
    obtain ⟨hinv, hbits⟩ := hs (by omega)
    obtain ⟨hinv', hbits', -⟩ := byteDecodeStep_spec h12 hn hle s hbits hinv
    exact ⟨hinv', hbits'⟩

theorem rawBits_append {d : Nat} {bytes : List UInt8} (hlen : bytes.length = 32 * d)
    (tail : List UInt8) {i : Nat} (hi : i < 256) :
    rawBits d (bytes ++ tail) i = rawBits d bytes i := by
  have hsplit : 256 ^ bytes.length = (2 ^ d) ^ i * (2 ^ d * (2 ^ d) ^ (255 - i)) := by
    calc 256 ^ bytes.length = 2 ^ (d * 256) := by
          rw [hlen, pow_byte]
          congr 1
          ring
      _ = (2 ^ d) ^ (i + ((255 - i) + 1)) := by
          rw [← pow_mul]
          congr 2
          omega
      _ = (2 ^ d) ^ i * (2 ^ d * (2 ^ d) ^ (255 - i)) := by rw [pow_add, pow_succ']
  rw [rawBits, bytesValue_append, hsplit, mul_assoc, Nat.add_mul_div_left _ _ (by positivity),
    mul_assoc, Nat.add_mul_mod_self_left, rawBits]

theorem byteDecode_append {d : Nat} (h1 : 1 ≤ d) (h12 : d ≤ 12) {bytes : List UInt8}
    (hlen : bytes.length = 32 * d) (tail : List UInt8) (output : Poly Int32) :
    byteDecode (bytes ++ tail) d output = byteDecode bytes d output := by
  have hle : 32 * d ≤ (bytes ++ tail).length := by
    rw [List.length_append]
    omega
  obtain ⟨f, hf, hfword⟩ := byteDecode_spec h1 h12 hle output
  obtain ⟨g, hg, hgword⟩ := byteDecode_spec h1 h12 hlen.ge output
  rw [hf, hg, Option.some_inj]
  refine poly_ext fun i hi => word_injective ?_
  rw [hfword i hi, hgword i hi, rawBits_append hlen tail hi]

/-- One block of 12-bit values is reproduced exactly when none of them is reduced. -/
theorem recoded_block {block : List UInt8} (hlen : block.length = 384) (output : Poly Int32) :
    ∃ f recoded, byteDecode block 12 output = some f ∧ byteEncode f 12 = some recoded ∧
      recoded.length = 384 ∧ (recoded = block ↔ ∀ i < 256, rawBits 12 block i < 3329) := by
  obtain ⟨f, hdecode, hf⟩ :=
    byteDecode_spec (d := 12) (by norm_num) le_rfl (show 32 * 12 ≤ block.length by omega) output
  obtain ⟨recoded, hencode, hrecoded, hvalue⟩ := byteEncode_spec f (d := 12) (by norm_num) le_rfl
  have hlow : ∀ i < 256, lowBits 12 f i = rawBits 12 block i % 3329 := by
    intro i hi
    have hm : rawBits 12 block i % 3329 < 2 ^ 12 :=
      (Nat.mod_lt _ (by norm_num)).trans (by norm_num)
    rw [lowBits, hf i hi, decodeModulus_toNat le_rfl, if_pos rfl, Nat.mod_eq_of_lt hm]
  have hraw : bytesValue block = radix (2 ^ 12) 256 (rawBits 12 block) := by
    have hlt : bytesValue block < (2 ^ 12) ^ 256 := by
      have h := bytesValue_lt block
      rwa [hlen, pow_byte, show 8 * 384 = 12 * 256 by norm_num, pow_mul] at h
    exact ((radix_of_digits (2 ^ 12) 256 (bytesValue block)).trans (Nat.mod_eq_of_lt hlt)).symm
  refine ⟨f, recoded, hdecode, hencode, hrecoded, ?_⟩
  constructor
  · intro h i hi
    rw [h, hraw] at hvalue
    have hdigit := radix_injective (fun i _ => rawBits_lt 12 block i) (fun i _ => lowBits_lt 12 f i)
      hvalue i hi
    rw [hdigit, hlow i hi]
    exact Nat.mod_lt _ (by norm_num)
  · intro h
    refine bytesValue_injective (hrecoded.trans hlen.symm) ?_
    rw [hvalue, hraw]
    refine radix_congr fun i hi => ?_
    rw [hlow i hi, Nat.mod_eq_of_lt (h i hi)]

theorem canonical_bit_iff {x : UInt32} (hx : x.toNat < 4096) :
    (mlkemQ - 1 - x) >>> 31 = 0 ↔ x.toNat < 3329 := by
  constructor
  · intro h
    by_contra hge
    have hs := shiftRight_toNat (mlkemQ - 1 - x) (n := 31) (by norm_num)
    have hq : (mlkemQ - 1 : UInt32).toNat = 3328 := rfl
    have hzero : ((mlkemQ - 1 - x) >>> UInt32.ofNat 31).toNat = 0 := congrArg UInt32.toNat h
    rw [hzero, UInt32.toNat_sub, hq] at hs
    omega
  · exact canonical_bit

theorem groupFirst_lt (bytes : List UInt8) (offset : Nat) :
    (groupFirst bytes offset).toNat < 4096 := by
  have hx := (bytes.getD offset 0).toNat_lt
  rw [groupFirst, word_nibble]
  omega

theorem groupSecond_lt (bytes : List UInt8) (offset : Nat) :
    (groupSecond bytes offset).toNat < 4096 := by
  have hx := (bytes.getD (offset + 1) 0).toNat_lt
  have hy := (bytes.getD (offset + 2) 0).toNat_lt
  rw [groupSecond, nibble_word]
  omega

theorem mlkemPublicKeyIsCanonical_iff (publicKey : List UInt8) (k : Nat) :
    mlkemPublicKeyIsCanonical publicKey (384 * k + 32) = true ↔ ∀ group < 128 * k,
      (groupFirst publicKey (3 * group)).toNat < 3329 ∧
        (groupSecond publicKey (3 * group)).toNat < 3329 := by
  have hcount : (384 * k + 32 - 32 + 2) / 3 = 128 * k := by omega
  rw [mlkemPublicKeyIsCanonical, hcount, beq_iff_eq]
  induction 128 * k with
  | zero => simp
  | succ n ih =>
    rw [countUp_succ, UInt32.or_eq_zero_iff, UInt32.or_eq_zero_iff,
      canonical_bit_iff (groupFirst_lt _ _), canonical_bit_iff (groupSecond_lt _ _), and_assoc,
      Nat.forall_lt_succ_right]
    exact and_congr ih Iff.rfl

def keyBlock (publicKey : List UInt8) (i : Nat) : List UInt8 := slice publicKey (i * 384) 384

theorem keyBlock_length {publicKey : List UInt8} {k : Nat}
    (hlen : publicKey.length = 384 * k + 32) {i : Nat} (hi : i < k) :
    (keyBlock publicKey i).length = 384 := by
  rw [keyBlock, slice, List.length_take, List.length_drop, hlen]
  omega

/-- The groups of the check are the pairs of 12-bit values of the polynomials. -/
theorem group_rawBits {publicKey : List UInt8} {k : Nat}
    (hlen : publicKey.length = 384 * k + 32) {i s : Nat} (hi : i < k) (hs : s < 128) :
    (groupFirst publicKey (3 * (128 * i + s))).toNat = rawBits 12 (keyBlock publicKey i) (2 * s) ∧
      (groupSecond publicKey (3 * (128 * i + s))).toNat =
        rawBits 12 (keyBlock publicKey i) (2 * s + 1) := by
  have hget : ∀ e < 3, publicKey.getD (3 * (128 * i + s) + e) 0 =
      (keyBlock publicKey i).getD (3 * s + e) 0 := by
    intro e he
    rw [keyBlock, slice_getD (by omega)]
    congr 1
    omega
  have hshort : 3 * s + 2 < (keyBlock publicKey i).length := by
    rw [keyBlock_length hlen hi]
    omega
  obtain ⟨h1, h2⟩ := group_digits hshort
  have h0 := hget 0 (by norm_num)
  rw [Nat.add_zero, Nat.add_zero] at h0
  constructor
  · rw [groupFirst, h0, hget 1 (by norm_num)]
    exact h1
  · rw [groupSecond, hget 1 (by norm_num), hget 2 (by norm_num)]
    exact h2

theorem canonical_blocks {publicKey : List UInt8} {k : Nat}
    (hlen : publicKey.length = 384 * k + 32) :
    mlkemPublicKeyIsCanonical publicKey (384 * k + 32) = true ↔
      ∀ i < k, ∀ j < 256, rawBits 12 (keyBlock publicKey i) j < 3329 := by
  rw [mlkemPublicKeyIsCanonical_iff]
  constructor
  · intro h i hi j hj
    have hs : j / 2 < 128 := by omega
    obtain ⟨h1, h2⟩ := h (128 * i + j / 2) (by omega)
    obtain ⟨hfirst, hsecond⟩ := group_rawBits hlen hi hs
    rcases Nat.mod_two_eq_zero_or_one j with hpar | hpar
    · rw [show j = 2 * (j / 2) by omega, ← hfirst]
      exact h1
    · rw [show j = 2 * (j / 2) + 1 by omega, ← hsecond]
      exact h2
  · intro h group hg
    have hs := Nat.mod_lt group (show 0 < 128 by norm_num)
    obtain ⟨hfirst, hsecond⟩ := group_rawBits hlen (show group / 128 < k by omega) hs
    rw [Nat.div_add_mod] at hfirst hsecond
    rw [hfirst, hsecond]
    exact ⟨h _ (by omega) _ (by omega), h _ (by omega) _ (by omega)⟩

def recodePublicKey (k : Nat) (publicKey : List UInt8) : Run (List UInt8) := do
  let vector ← decodeVector k 12 publicKey
  encodeVector vector 12

theorem flatten_blocks {publicKey : List UInt8} {k : Nat}
    (hlen : 384 * k ≤ publicKey.length) :
    (List.ofFn fun i : Fin k => keyBlock publicKey i).flatten = publicKey.take (384 * k) := by
  induction k with
  | zero => simp
  | succ k ih =>
    rw [List.ofFn_succ_last, List.flatten_append, List.flatten_singleton]
    change (List.ofFn fun i : Fin k => keyBlock publicKey i).flatten ++ _ = _
    rw [ih (by omega), Fin.val_last, keyBlock, slice, Nat.mul_add, List.take_add, Nat.mul_comm k]

theorem flatten_inj {α : Type} {k n : Nat} {xs ys : Fin k → List α}
    (hx : ∀ i, (xs i).length = n) (hy : ∀ i, (ys i).length = n) :
    (List.ofFn xs).flatten = (List.ofFn ys).flatten ↔ ∀ i, xs i = ys i := by
  induction k with
  | zero => simp
  | succ k ih =>
    rw [List.ofFn_succ, List.ofFn_succ, List.flatten_cons, List.flatten_cons, Fin.forall_fin_succ,
      ← ih (fun i => hx i.succ) fun i => hy i.succ]
    constructor
    · exact fun h => List.append_inj h ((hx 0).trans (hy 0).symm)
    · rintro ⟨hhead, htail⟩
      rw [hhead, htail]

theorem recodePublicKey_iff {publicKey : List UInt8} {k : Nat}
    (hlen : publicKey.length = 384 * k + 32) :
    recodePublicKey k publicKey = pure (publicKey.take (384 * k)) ↔
      mlkemPublicKeyIsCanonical publicKey (384 * k + 32) = true := by
  choose f recoded hdecode hencode hrecoded hiff using
    fun i : Fin k => recoded_block (keyBlock_length hlen i.isLt) zeroPoly
  have hrun : recodePublicKey k publicKey = pure (List.ofFn recoded).flatten := by
    have hvector : decodeVector k 12 publicKey = pure f :=
      collect_of_pure fun i => congrArg orInternal (hdecode i)
    have hparts : collect (fun i => orInternal (byteEncode (f i) 12)) = (pure recoded : Run _) :=
      collect_of_pure fun i => congrArg orInternal (hencode i)
    rw [recodePublicKey, hvector, pure_bind, encodeVector, hparts, pure_bind]
  have hpure : ∀ a b : List UInt8, (pure a : Run (List UInt8)) = pure b ↔ a = b :=
    fun a b => ⟨fun h => Except.ok.inj (Option.some.inj h), congrArg _⟩
  rw [hrun, hpure, ← flatten_blocks (by omega),
    flatten_inj hrecoded fun i => keyBlock_length hlen i.isLt, canonical_blocks hlen]
  constructor
  · intro h i hi
    exact (hiff ⟨i, hi⟩).mp (h ⟨i, hi⟩)
  · intro h i
    exact (hiff i).mpr (h i i.isLt)

/-- The coefficient codec and the public-key check read one layout of the bits: encoding
and decoding are inverse, and a public key is reproduced exactly when the check accepts it. -/
theorem mlKemCodec_correct :
    (∀ d, 1 ≤ d → d ≤ 12 → ∀ output : Poly Int32,
      (∀ f, InRange d f → ∃ bytes, byteEncode f d = some bytes ∧ bytes.length = 32 * d ∧
        byteDecode bytes d output = some f) ∧
      (∀ bytes tail : List UInt8, bytes.length = 32 * d →
        byteDecode (bytes ++ tail) d output = byteDecode bytes d output ∧
        (byteDecodeLoop (bytes ++ tail) d output).input = tail) ∧
      (d < 12 → ∀ bytes : List UInt8, bytes.length = 32 * d →
        ∃ f, byteDecode bytes d output = some f ∧ byteEncode f d = some bytes)) ∧
    (∀ k (publicKey : List UInt8), publicKey.length = 384 * k + 32 →
      (recodePublicKey k publicKey = pure (publicKey.take (384 * k)) ↔
        mlkemPublicKeyIsCanonical publicKey (384 * k + 32) = true)) := by
  refine ⟨fun d h1 h12 output => ⟨fun f hf => ?_, fun bytes tail hlen => ?_, fun hd bytes hlen => ?_⟩,
    fun k publicKey hlen => recodePublicKey_iff hlen⟩
  · exact byteDecode_byteEncode h1 h12 (fits_of_inRange h12 hf) output
  · exact ⟨byteDecode_append h1 h12 hlen tail output, byteDecodeLoop_input h12 hlen tail output⟩
  · obtain ⟨f, hdecode, -, hencode⟩ := byteEncode_byteDecode h1 hd hlen output
    exact ⟨f, hdecode, hencode⟩

/-- The largest coefficients survive, and a key of ones is refused and not reproduced. -/
theorem mlKemCodec_correct_extremes :
    (∃ bytes, byteEncode (Vector.replicate 256 3328) 12 = some bytes ∧ bytes.length = 384 ∧
      byteDecode bytes 12 zeroPoly = some (Vector.replicate 256 3328)) ∧
    recodePublicKey 2 (List.replicate 800 255) ≠ pure ((List.replicate 800 255).take 768) := by
  have hrange : InRange 12 (Vector.replicate 256 3328) := by
    intro i _
    have hcoeff : coeff (Vector.replicate 256 (3328 : Int32)) i = 3328 := by
      simp only [coeff, Vector.getElem_replicate]
    rw [hcoeff]
    decide
  refine ⟨(mlKemCodec_correct.1 12 (by norm_num) le_rfl zeroPoly).1 _ hrange, ?_⟩
  rw [Ne, mlKemCodec_correct.2 2 (List.replicate 800 255) List.length_replicate]
  intro h
  obtain ⟨hfirst, -⟩ := (mlkemPublicKeyIsCanonical_iff _ 2).mp h 0 (by norm_num)
  exact absurd hfirst (by decide)

end LiberaCrypt.MlKemCodec
