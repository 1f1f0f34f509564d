import LiberaCrypt.ConstantTime
import LiberaCrypt.KPke
import LiberaCrypt.KPkeCorrect

namespace LiberaCrypt.MlKem

open LiberaCrypt.CountedLoop LiberaCrypt.Outcome LiberaCrypt.ConstantTime LiberaCrypt.MlKemReduce
  LiberaCrypt.KPke

/-- A failure zeroes the outputs; it is modelled by its status alone. -/
def mlKemKeyGenInternal (hs : Hashes) (p : MlKemParameters) (fuel : Nat) (calloc : Bool)
    (seed rejectionSeed : List UInt8) : Run (List UInt8 × List UInt8) := do
  let keys ← kPkeKeyGen hs p fuel calloc seed
  let publicKey := keys.1.take (384 * p.k + 32)
  pure (keys.1, keys.2 ++ publicKey ++ hs.h publicKey ++ rejectionSeed.take 32)

def mlKemEncapsInternal (hs : Hashes) (p : MlKemParameters) (fuel : Nat) (calloc : Bool)
    (publicKey message : List UInt8) : Run (List UInt8 × List UInt8) := do
  let hashInput := message.take 32 ++ hs.h (publicKey.take (384 * p.k + 32))
  let secrets := hs.g hashInput
  let ciphertext ← kPkeEnc hs p fuel calloc publicKey message secrets.2
  pure (secrets.1, ciphertext)

/-- The byte that is all ones exactly when `mismatch` is not zero. -/
def rejectionMask (mismatch : UInt32) : UInt8 :=
  ((0 : UInt32) - ((mismatch ||| ((0 : UInt32) - mismatch)) >>> 31)).toUInt8

def selectSecret (mask : UInt8) (sharedSecret rejectedSecret : List UInt8) : List UInt8 :=
  List.zipWith (fun s r => (s &&& ~~~mask) ||| (r &&& mask)) sharedSecret rejectedSecret

/-- The two flags are the outcomes of the allocations in decryption and encryption. -/
def mlKemDecapsInternal (hs : Hashes) (p : MlKemParameters) (fuel : Nat) (callocDec callocEnc : Bool)
    (privateKey ciphertext : List UInt8) : Run (List UInt8) := do
  let ciphertextLength := 32 * (p.du * p.k + p.dv)
  let pkePrivateKey := slice privateKey 0 (384 * p.k)
  let publicKey := slice privateKey (384 * p.k) (384 * p.k + 32)
  let publicKeyHash := slice privateKey (768 * p.k + 32) 32
  let rejectionSeed := slice privateKey (768 * p.k + 64) 32
  let message ← kPkeDec p callocDec pkePrivateKey ciphertext
  let secrets := hs.g (message.take 32 ++ publicKeyHash)
  let rejectedSecret := hs.j (rejectionSeed ++ ciphertext.take ciphertextLength)
  let expectedCiphertext ← kPkeEnc hs p fuel callocEnc publicKey message secrets.2
  let mismatch := byteDifference ciphertext expectedCiphertext ciphertextLength
  pure (selectSecret (rejectionMask mismatch) secrets.1 rejectedSecret)

def groupFirst (publicKey : List UInt8) (offset : Nat) : UInt32 :=
  (publicKey.getD offset 0).toUInt32 ||| (((publicKey.getD (offset + 1) 0).toUInt32 &&& 0x0f) <<< 8)

def groupSecond (publicKey : List UInt8) (offset : Nat) : UInt32 :=
  ((publicKey.getD (offset + 1) 0).toUInt32 >>> 4) ||| ((publicKey.getD (offset + 2) 0).toUInt32 <<< 4)

def mlkemPublicKeyIsCanonical (publicKey : List UInt8) (publicKeyLength : Nat) : Bool :=
  let encodedPolynomialLength := publicKeyLength - 32
  let invalid := countUp ((encodedPolynomialLength + 2) / 3) (fun group invalid =>
    (invalid ||| ((mlkemQ - 1 - groupFirst publicKey (3 * group)) >>> 31)) |||
      ((mlkemQ - 1 - groupSecond publicKey (3 * group)) >>> 31)) 0
  invalid == 0

def mlkemPrivateKeyHashIsValid (hs : Hashes) (privateKey : List UInt8)
    (publicKeyLength privateKeyLength : Nat) : Bool :=
  let pkePrivateKeyLength := privateKeyLength - publicKeyLength - 64
  let embeddedPublicKey := slice privateKey pkePrivateKeyLength publicKeyLength
  let storedHash := slice privateKey (privateKeyLength - 64) 32
  cryptoConstantTimeEqual (hs.h embeddedPublicKey) storedHash 32

end LiberaCrypt.MlKem

namespace LiberaCrypt.MlKemPublicKey

open LiberaCrypt.CountedLoop LiberaCrypt.Radix LiberaCrypt.MlKemReduce LiberaCrypt.MlKemNtt
  LiberaCrypt.MlKemEncode LiberaCrypt.KPke LiberaCrypt.KPkeSample LiberaCrypt.KPkeNoise
  LiberaCrypt.KPkeCorrect LiberaCrypt.MlKem

theorem slice_getD {bytes : List UInt8} {start length i : Nat} (hi : i < length) :
    (slice bytes start length).getD i 0 = bytes.getD (start + i) 0 := by
  rw [slice, List.getD_eq_getElem?_getD, List.getElem?_take_of_lt hi, List.getElem?_drop,
    ← List.getD_eq_getElem?_getD]

theorem word_nibble (x y : UInt8) :
    (x.toUInt32 ||| ((y.toUInt32 &&& 0x0f) <<< 8)).toNat = x.toNat + 256 * (y.toNat % 16) := by
  have hx := x.toNat_lt
  have hy : (y.toUInt32 &&& 0x0f).toNat = y.toNat % 16 := masked_toNat y.toUInt32 (d := 4) (by norm_num)
  have hm := Nat.mod_lt y.toNat (show 0 < 16 by norm_num)
  have h := append_toNat (x := x.toUInt32) (y := y.toUInt32 &&& 0x0f) (n := 8) (by norm_num)
    (by rw [UInt8.toNat_toUInt32]; omega) (by rw [hy]; omega)
  rw [hy, UInt8.toNat_toUInt32] at h
  exact h

theorem nibble_word (x y : UInt8) :
    ((x.toUInt32 >>> 4) ||| (y.toUInt32 <<< 4)).toNat = x.toNat / 16 + 16 * y.toNat := by
  have hx := x.toNat_lt
  have hy := y.toNat_lt
  have hs : (x.toUInt32 >>> 4).toNat = x.toNat / 16 := by
    have h := shiftRight_toNat x.toUInt32 (n := 4) (by norm_num)
    rwa [UInt8.toNat_toUInt32] at h
  have h := append_toNat (x := x.toUInt32 >>> 4) (y := y.toUInt32) (n := 4) (by norm_num)
    (by rw [hs]; omega) (by rw [UInt8.toNat_toUInt32]; omega)
  rw [hs, UInt8.toNat_toUInt32] at h
  exact h

/-- The two values of a group are the digits to base 4096 of the encoded number. -/
theorem group_digits {bytes : List UInt8} {s : Nat} (hs : 3 * s + 2 < bytes.length) :
    (groupFirst bytes (3 * s)).toNat = bytesValue bytes / (2 ^ 12) ^ (2 * s) % 2 ^ 12 ∧
      (groupSecond bytes (3 * s)).toNat = bytesValue bytes / (2 ^ 12) ^ (2 * s + 1) % 2 ^ 12 := by
  have hbyte : ∀ e < 3, (bytes.getD (3 * s + e) 0).toNat =
      bytesValue bytes / 256 ^ (3 * s) / 256 ^ e % 256 := by
    intro e he
    have hlt : 3 * s + e < bytes.length := by omega
    rw [Nat.div_div_eq_div_mul, ← pow_add, bytesValue_byte hlt, List.getD_eq_getElem?_getD,
      List.getElem?_eq_getElem hlt, Option.getD_some]
  have h0 := hbyte 0 (by norm_num)
  have h1 := hbyte 1 (by norm_num)
  have h2 := hbyte 2 (by norm_num)
  have hpow : (2 ^ 12) ^ (2 * s) = 256 ^ (3 * s) := by
    rw [show (256 : Nat) = 2 ^ 8 by norm_num, ← pow_mul, ← pow_mul]
    ring_nf
  rw [pow_succ (2 ^ 12) (2 * s), ← Nat.div_div_eq_div_mul, hpow, groupFirst, groupSecond,
    word_nibble, nibble_word, h1, h2]
  rw [Nat.add_zero] at h0
  rw [h0]
  norm_num
  omega

theorem canonical_bit {x : UInt32} (h : x.toNat < 3329) : (mlkemQ - 1 - x) >>> 31 = 0 := by
  have hq : (mlkemQ - 1 : UInt32).toNat = 3328 := rfl
  have hle : x ≤ mlkemQ - 1 := by
    rw [UInt32.le_iff_toNat_le, hq]
    omega
  have hs := shiftRight_toNat (mlkemQ - 1 - x) (n := 31) (by norm_num)
  rw [UInt32.toNat_sub_of_le _ _ hle, hq] at hs
  apply UInt32.toNat_inj.mp
  refine hs.trans ?_
  rw [Nat.div_eq_of_lt (by omega)]
  rfl

variable {hs : Hashes} {p : MlKemParameters} {seed : List UInt8}
  {matrix : Fin p.k → Fin p.k → Poly Int32}

theorem publicKey_group (hp : ValidParameters p) {rho : List UInt8}
    (hm : SampledMatrix hs rho matrix) {publicBytes privateKey : List UInt8}
    (hkey : KeyPair hs p seed matrix publicBytes privateKey) (tail : List UInt8) {group : Nat}
    (hg : group < 128 * p.k) :
    (groupFirst (publicBytes ++ tail) (3 * group)).toNat < 3329 ∧
      (groupSecond (publicBytes ++ tail) (3 * group)).toNat < 3329 := by
  obtain ⟨parts, hparts, hlen, hvalue⟩ :=
    encodeVector_parts (d := 12) (by norm_num) le_rfl (keyPublic hs p seed matrix)
  have hbytes : publicBytes = (List.ofFn parts).flatten := by
    have h := hkey.publicEncode.symm.trans hparts
    exact Except.ok.inj (Option.some.inj h)
  have hi : group / 128 < p.k := Nat.div_lt_of_lt_mul hg
  have hmod := Nat.mod_lt group (show 0 < 128 by norm_num)
  have hdiv := Nat.div_add_mod group 128
  have hslice := flatten_slice hlen tail ⟨group / 128, hi⟩
  have hget : ∀ e < 3, (publicBytes ++ tail).getD (3 * group + e) 0 =
      (parts ⟨group / 128, hi⟩).getD (3 * (group % 128) + e) 0 := by
    intro e he
    rw [← hslice, slice_getD (by omega), hbytes]
    congr 1
    simp only
    omega
  have hfirst : groupFirst (publicBytes ++ tail) (3 * group) =
      groupFirst (parts ⟨group / 128, hi⟩) (3 * (group % 128)) := by
    have h0 := hget 0 (by norm_num)
    rw [Nat.add_zero, Nat.add_zero] at h0
    rw [groupFirst, groupFirst, h0, ← hget 1 (by norm_num)]
  have hsecond : groupSecond (publicBytes ++ tail) (3 * group) =
      groupSecond (parts ⟨group / 128, hi⟩) (3 * (group % 128)) := by
    rw [groupSecond, groupSecond, ← hget 1 (by norm_num), ← hget 2 (by norm_num)]
  obtain ⟨h1, h2⟩ := group_digits (show 3 * (group % 128) + 2 < (parts ⟨group / 128, hi⟩).length by
    rw [hlen]; omega)
  have hf := fits_canonical (keyPublic_spec seed hp hm ⟨group / 128, hi⟩).1
  rw [hfirst, hsecond, h1, h2, hvalue, radix_digit (fun i _ => lowBits_lt 12 _ i) (by omega),
    radix_digit (fun i _ => lowBits_lt 12 _ i) (by omega), lowBits_of_fits le_rfl hf (by omega),
    lowBits_of_fits le_rfl hf (by omega)]
  exact ⟨hf _ (by omega), hf _ (by omega)⟩

theorem publicKey_canonical (hp : ValidParameters p) {rho : List UInt8}
    (hm : SampledMatrix hs rho matrix) {publicBytes privateKey : List UInt8}
    (hkey : KeyPair hs p seed matrix publicBytes privateKey) (tail : List UInt8) :
    mlkemPublicKeyIsCanonical (publicBytes ++ tail) (384 * p.k + 32) = true := by
  rw [mlkemPublicKeyIsCanonical, beq_iff_eq]
  refine countUp_invariant (fun _ invalid => invalid = 0) rfl fun group hg invalid hzero => ?_
  obtain ⟨h1, h2⟩ := publicKey_group hp hm hkey tail (show group < 128 * p.k by omega)
  rw [hzero, canonical_bit h1, canonical_bit h2]
  rfl

end LiberaCrypt.MlKemPublicKey
