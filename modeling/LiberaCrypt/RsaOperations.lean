import LiberaCrypt.BignumCodec
import LiberaCrypt.EcPrimes
import LiberaCrypt.HostMemory
import LiberaCrypt.PowerLadder
import LiberaCrypt.RsaWidth

namespace LiberaCrypt.RsaOperations

open LiberaCrypt.Outcome LiberaCrypt.Allocation LiberaCrypt.BigEndian LiberaCrypt.Bignum
open LiberaCrypt.BignumCodec LiberaCrypt.BignumRandom LiberaCrypt.BignumSecret LiberaCrypt.Def
open LiberaCrypt.EcGroup LiberaCrypt.EcPrimes LiberaCrypt.Endian LiberaCrypt.FermatExponent
open LiberaCrypt.HostMemory LiberaCrypt.Limbs LiberaCrypt.ModExpAgree LiberaCrypt.ModExpSecure
open LiberaCrypt.ModExpVartime LiberaCrypt.Montgomery LiberaCrypt.Rsa LiberaCrypt.RsaWidth

def rsaHashLength : LiberaCAlgID → Nat
  | .hashSha1 => 20
  | .hashSha2_224 => 28
  | .hashSha2_256 => 32
  | .hashSha2_384 => 48
  | .hashSha2_512 => 64
  | .hashSha2_512_224 => 28
  | .hashSha2_512_256 => 32
  | _ => 0

def rsaModulusSize (modulus : LiberaCBignum) : Nat :=
  let bits := cryptoBignumBitLength modulus
  bits / 8 + if bits % 8 ≠ 0 then 1 else 0

def rsaPublicSecretOperation (outputLength : Nat) (input : List UInt8)
    (publicKey : LiberaCRsaPublicKey) : Fallible (List UInt8) := do
  let encoded ← cryptoBignumFromBytesBeSecretFixedCt input publicKey.n.length
  let transformed ← cryptoBignumModExpPublicFixedBase encoded publicKey.e publicKey.n
  given (cryptoBignumToBytesBeSecretFixedCt transformed (List.replicate outputLength 0))

def rsaPrivateOperation (outputLength : Nat) (input : List UInt8)
    (privateKey : LiberaCRsaPrivateKey) (inputIsSecret : Bool) : Fallible (List UInt8) := do
  let encoded ← (if inputIsSecret then
      cryptoBignumFromBytesBeSecretFixedCt input privateKey.n.length
    else cryptoBignumFromBytesBe cryptoBignumInit input)
  let transformed ← (if inputIsSecret then
      cryptoBignumModExpCtFixedBase encoded privateKey.d privateKey.n
    else cryptoRsaDecryptInternal .rsaRaw encoded privateKey)
  given (cryptoBignumToBytesBeSecretFixedCt transformed (List.replicate outputLength 0))

/-- A number that needs more bytes than there are is no signature. -/
def tooSmallIsInvalid : LiberaCError → LiberaCError
  | .bufferTooSmall => .signatureInvalid
  | e => e

def rsaPublicVerifyOperation (outputLength : Nat) (signature : List UInt8)
    (publicKey : LiberaCRsaPublicKey) : Fallible (List UInt8) := do
  let encoded ← cryptoBignumFromBytesBe cryptoBignumInit signature
  if cryptoBignumCompare encoded publicKey.n ≠ .lt then throw .signatureInvalid
  else do
    let transformed ← cryptoRsaEncryptInternal .rsaRaw cryptoBignumInit encoded publicKey
    given (Except.mapError tooSmallIsInvalid
      (cryptoBignumToBytesBe transformed (List.replicate outputLength 0)))

section Size

variable {modulus : LiberaCBignum} {k : Nat}

theorem rsaModulusSize_eq (hm : modulus.Valid) :
    rsaModulusSize modulus = (modulus.value.size + 7) / 8 := by
  rw [rsaModulusSize, cryptoBignumBitLength_eq hm]
  split_ifs <;> omega

theorem rsaModulusSize_le_iff (hm : modulus.Valid) :
    rsaModulusSize modulus ≤ k ↔ modulus.value < 256 ^ k := by
  have hpow : 256 ^ k = 2 ^ (8 * k) := by rw [show 256 = 2 ^ 8 from rfl, ← pow_mul]
  rw [rsaModulusSize_eq hm, hpow, ← Nat.size_le]
  omega

theorem lt_size (hm : modulus.Valid) : modulus.value < 256 ^ rsaModulusSize modulus :=
  (rsaModulusSize_le_iff hm).mp le_rfl

theorem le_modulus (hm : modulus.Valid) (h : k < rsaModulusSize modulus) :
    256 ^ k ≤ modulus.value := by
  by_contra hlt
  exact absurd ((rsaModulusSize_le_iff hm).mpr (not_le.mp hlt)) (not_le.mpr h)

theorem rsaModulusSize_le (hm : modulus.Valid) : rsaModulusSize modulus ≤ 4 * modulus.length := by
  rw [rsaModulusSize_le_iff hm, show 256 ^ (4 * modulus.length) = wordBase ^ modulus.length by
    rw [pow_mul]; rfl]
  exact modulus.value_lt

end Size

structure PrivateKey (key : LiberaCRsaPrivateKey) : Prop where
  n_valid : key.n.Valid
  d_valid : key.d.Valid
  accepted : rsaPrivateKeyValid key = true

/-- As much of `D` as the exponentiation reads: as many limbs as the modulus has. -/
def scannedExponent (key : LiberaCRsaPrivateKey) : Nat :=
  key.d.value % wordBase ^ key.n.length

structure PublicKey (key : LiberaCRsaPublicKey) : Prop where
  n_valid : key.n.Valid
  e_valid : key.e.Valid
  accepted : rsaPublicKeyValid key = true

section Keys

variable {key : LiberaCRsaPrivateKey} {publicKey : LiberaCRsaPublicKey}

theorem odd_value {n : LiberaCBignum} (hlength : n.length ≠ 0)
    (hodd : n.limbs.getD 0 0 &&& 1 ≠ 0) : n.value % 2 = 1 := by
  rw [Ne, odd_iff, (words_head hlength).2] at hodd
  omega

theorem PrivateKey.stored (h : PrivateKey key) : Stored key :=
  (rsaPrivateKeyValid_iff.mp h.accepted).1

theorem PrivateKey.odd (h : PrivateKey key) : key.n.value % 2 = 1 :=
  odd_value h.stored.n_length h.stored.odd

theorem PrivateKey.d_whole (h : PrivateKey key) (hnarrow : key.d.length ≤ key.n.length) :
    scannedExponent key = key.d.value :=
  Nat.mod_eq_of_lt (h.d_valid.length_le_iff.mp hnarrow)

structure Accepted (key : LiberaCRsaPublicKey) : Prop where
  n_length : key.n.length ≠ 0
  e_length : key.e.length ≠ 0
  n_size : key.n.length ≤ sizeMax / 32
  odd : key.n.limbs.getD 0 0 &&& 1 ≠ 0

theorem PublicKey.checked (h : PublicKey publicKey) : Accepted publicKey := by
  have haccepted := h.accepted
  unfold rsaPublicKeyValid at haccepted
  split at haccepted
  · cases haccepted
  · next hchecks =>
    simp only [not_or, not_lt] at hchecks
    obtain ⟨-, -, hn, he, hsize, hodd, -⟩ := hchecks
    exact ⟨hn, he, hsize, hodd⟩

theorem PublicKey.odd (h : PublicKey publicKey) : publicKey.n.value % 2 = 1 :=
  odd_value h.checked.n_length h.checked.odd

theorem PublicKey.e_ne_zero (h : PublicKey publicKey) : publicKey.e.value ≠ 0 :=
  fun hzero => h.checked.e_length (h.e_valid.length_eq_zero.mpr hzero)

/-- Two accepted keys of one modulus whose exponents undo each other. -/
structure KeyPair (publicKey : LiberaCRsaPublicKey)
    (privateKey : LiberaCRsaPrivateKey) : Prop where
  public_key : PublicKey publicKey
  private_key : PrivateKey privateKey
  modulus : publicKey.n.value = privateKey.n.value
  inverse : ∀ x < publicKey.n.value,
    (x ^ publicKey.e.value) ^ privateKey.d.value % publicKey.n.value = x

theorem KeyPair.size (h : KeyPair publicKey key) :
    rsaModulusSize key.n = rsaModulusSize publicKey.n := by
  rw [rsaModulusSize_eq h.private_key.n_valid, rsaModulusSize_eq h.public_key.n_valid, h.modulus]

end Keys

def sampleModulus : LiberaCBignum :=
  ⟨[0x039cdaaf, 0x0c46353d, 0x58e8617b, 0x3f7c2aa3, 0xf3b9cac3, 0xa7179e84, 0xb94a1ffd, 0xf756a572,
    0xafc0f911, 0x098926ec, 0xea30a3d6, 0xbce6faae, 0x00000000, 0xfffffffe, 0x00000002, 0xfffffffe],
    16⟩

def samplePublicKey : LiberaCRsaPublicKey := ⟨sampleModulus, oneLimb 7⟩

def samplePrivateKey : LiberaCRsaPrivateKey :=
  ⟨sampleModulus, ⟨[0x02107cf7, 0x50281e6c, 0xe9a95c46, 0x254f3245, 0xd7ebf0ca, 0x0b2b51dc,
    0x5982e491, 0xb461e621, 0xe912904d, 0x02b978d5, 0xd53277f4, 0x35f8d9e8, 0x00000000, 0x24924924,
    0x92492493, 0x49249248], 16⟩, cryptoBignumInit, cryptoBignumInit⟩

theorem sampleModulus_value : sampleModulus.value = domainP256.p * domainP256.n := by decide

theorem sampleModulus_inverse {e d x : Nat}
    (h : e * d ≡ 1 [MOD (domainP256.p - 1) * (domainP256.n - 1)]) (hx : x < sampleModulus.value) :
    (x ^ e) ^ d % sampleModulus.value = x := by
  have hp : domainP256.p.Prime := (matches_domain .p256).p ▸ fieldPrime_prime .p256
  have hn : domainP256.n.Prime := (matches_domain .p256).n ▸ groupOrder_prime .p256
  have hpos : 0 < e * d := by
    by_contra hzero
    rw [Nat.eq_zero_of_not_pos hzero] at h
    exact absurd h (by decide)
  have hpower := pow_mul_modEq_self hp hn (by decide) hpos h x
  rw [← pow_mul]
  rw [sampleModulus_value] at hx ⊢
  rw [hpower, Nat.mod_eq_of_lt hx]

theorem samplePair : KeyPair samplePublicKey samplePrivateKey := by
  have hmodulus : sampleModulus.Valid :=
    padded_valid (w := sampleModulus.limbs) 0 fun _ => by decide
  have hd : samplePrivateKey.d.Valid :=
    padded_valid (w := samplePrivateKey.d.limbs) 0 fun _ => by decide
  have hexponents : samplePublicKey.e.value * samplePrivateKey.d.value ≡ 1
      [MOD (domainP256.p - 1) * (domainP256.n - 1)] := by decide
  have haccepted : rsaPrivateKeyValid samplePrivateKey = true := by
    rw [rsaPrivateKeyValid_iff]
    refine ⟨?_, by decide, by decide⟩
    constructor <;> decide
  exact ⟨⟨hmodulus, oneLimb_valid (by decide), by decide⟩, ⟨hmodulus, hd, haccepted⟩, rfl,
    fun x hx => sampleModulus_inverse hexponents hx⟩

/-- For the same modulus, a `D` of twice its limbs of which the low half is one. -/
def widePublicKey : LiberaCRsaPublicKey := ⟨sampleModulus, oneLimb 97⟩

def widePrivateKey : LiberaCRsaPrivateKey :=
  ⟨sampleModulus, ⟨1 :: List.replicate 15 0 ++ [0xff890abe, 0x6f541c61, 0x93b33cd8, 0x1fe89fa7,
    0x2c2c03e5, 0x39452d38, 0xd2240123, 0x92790f18, 0xd60dac2b, 0xdab624ab, 0xffa87c34, 0xcf090628,
    0x0606cafb, 0x31011c25, 0x2681f770, 0x01b0f574], 32⟩, cryptoBignumInit, cryptoBignumInit⟩

theorem widePair : KeyPair widePublicKey widePrivateKey := by
  have hmodulus : sampleModulus.Valid :=
    padded_valid (w := sampleModulus.limbs) 0 fun _ => by decide
  have hd : widePrivateKey.d.Valid :=
    padded_valid (w := widePrivateKey.d.limbs) 0 fun _ => by decide
  have hexponents : widePublicKey.e.value * widePrivateKey.d.value ≡ 1
      [MOD (domainP256.p - 1) * (domainP256.n - 1)] := by decide
  have haccepted : rsaPrivateKeyValid widePrivateKey = true := by
    rw [rsaPrivateKeyValid_iff]
    refine ⟨?_, by decide, by decide⟩
    constructor <;> decide
  exact ⟨⟨hmodulus, oneLimb_valid (by decide), by decide⟩, ⟨hmodulus, hd, haccepted⟩, rfl,
    fun x hx => sampleModulus_inverse hexponents hx⟩

theorem widePrivateKey_scanned : scannedExponent widePrivateKey = 1 := by decide

section Operations

variable {key : LiberaCRsaPrivateKey} {publicKey : LiberaCRsaPublicKey} {input : List UInt8}
  {outputLength room : Nat}

theorem toBytes_fixed {r : LiberaCBignum} {n x : Nat} (hr : r.Valid) (hvalue : r.value = x)
    (hcapacity : n ≤ r.capacity) (hsize : n ≤ sizeMax / 32) (hlength : outputLength ≤ 4 * n) :
    cryptoBignumToBytesBeSecretFixedCt r (List.replicate outputLength 0) =
      .ok (bigEndian outputLength x) := by
  have hwide : n ≤ (2 ^ 64 - 1) / 32 := hsize
  have hzeros : (List.replicate outputLength (0 : UInt8)).length = outputLength :=
    List.length_replicate
  have hbytes := toBytesSecret_eq hr true (hzeros.trans_le (by rw [sizeMax]; omega))
    (by rw [hzeros]; omega)
  rw [hzeros, hvalue] at hbytes
  exact hbytes

theorem rsaPrivateOperation_secret (h : PrivateKey key) (hlt : beValue input < key.n.value)
    (hinput : input.length ≤ 4 * key.n.length) (houtput : outputLength ≤ 4 * key.n.length) :
    Conforms (32 * key.n.length) (rsaPrivateOperation outputLength input key true)
      (.ok (bigEndian outputLength (beValue input ^ scannedExponent key % key.n.value))) := by
  unfold rsaPrivateOperation
  rw [if_pos rfl]
  refine Conforms.after (fromBytesSecret_ensures true hinput (by omega)) ?_
  rintro encoded ⟨hencoded, -⟩
  have hvalue : encoded.value = beValue input := hencoded.value
  rw [if_pos rfl]
  refine Conforms.after (cryptoBignumModExpCtFixedBase_ensures hencoded.valid
    (hvalue.trans_lt hlt) hencoded.storage h.d_valid h.stored.d_width h.n_valid h.odd le_rfl) ?_
  rintro r ⟨hr, hpower, hcapacity⟩
  rw [← scannedExponent, hvalue] at hpower
  rw [toBytes_fixed hr hpower hcapacity h.stored.n_size houtput]
  exact Conforms.given _

theorem rsaPrivateOperation_public (h : PrivateKey key)
    (hinput : input.length ≤ 4 * key.n.length) (houtput : outputLength ≤ 4 * key.n.length) :
    Conforms (32 * key.n.length) (rsaPrivateOperation outputLength input key false)
      (if beValue input < key.n.value then
        .ok (bigEndian outputLength (beValue input ^ scannedExponent key % key.n.value))
      else .error .invalidArgument) := by
  unfold rsaPrivateOperation
  rw [if_neg Bool.false_ne_true]
  refine Conforms.after (cryptoBignumFromBytesBe_ensures init_valid input (by omega)) ?_
  rintro encoded ⟨hencoded, hvalue⟩
  have hcompare := cryptoBignumCompare_lt hencoded h.n_valid
  rw [hvalue] at hcompare
  rw [if_neg Bool.false_ne_true, cryptoRsaDecryptInternal, if_neg (not_not.mpr rfl)]
  by_cases hlt : beValue input < key.n.value
  · rw [if_pos hlt, if_neg (not_not.mpr (hcompare.mpr hlt))]
    refine Conforms.after (Ensures.reported (cryptoBignumModExpCt_ensures hencoded
      (hvalue.trans_lt hlt) h.d_valid h.stored.d_width h.n_valid h.odd le_rfl)) ?_
    rintro r ⟨hr, hpower, hcapacity⟩
    rw [← scannedExponent, hvalue] at hpower
    rw [toBytes_fixed hr hpower hcapacity h.stored.n_size houtput]
    exact Conforms.given _
  · rw [if_neg hlt, if_pos (hcompare.not.mpr hlt)]
    exact Conforms.throw _

theorem rsaPublicSecretOperation_conforms (h : PublicKey publicKey)
    (hlt : beValue input < publicKey.n.value) (hinput : input.length ≤ 4 * publicKey.n.length)
    (houtput : outputLength ≤ 4 * publicKey.n.length) :
    Conforms (32 * publicKey.n.length) (rsaPublicSecretOperation outputLength input publicKey)
      (.ok (bigEndian outputLength (beValue input ^ publicKey.e.value % publicKey.n.value))) := by
  unfold rsaPublicSecretOperation
  refine Conforms.after (fromBytesSecret_ensures true hinput (by omega)) ?_
  rintro encoded ⟨hencoded, -⟩
  have hvalue : encoded.value = beValue input := hencoded.value
  refine Conforms.after (cryptoBignumModExpPublicFixedBase_ensures hencoded.valid
    (hvalue.trans_lt hlt) hencoded.storage h.e_valid h.e_ne_zero h.n_valid h.odd (by omega)) ?_
  rintro r ⟨hr, hpower, hcapacity⟩
  rw [hvalue] at hpower
  rw [toBytes_fixed hr hpower hcapacity h.checked.n_size houtput]
  exact Conforms.given _

/-- A signature is taken apart where it is below the modulus and its power fits. -/
theorem rsaPublicVerifyOperation_conforms (h : PublicKey publicKey)
    (hinput : input.length ≤ 4 * publicKey.n.length) (outputLength : Nat) :
    Conforms (108 * publicKey.n.length) (rsaPublicVerifyOperation outputLength input publicKey)
      (if beValue input < publicKey.n.value ∧
          beValue input ^ publicKey.e.value % publicKey.n.value < 256 ^ outputLength then
        .ok (bigEndian outputLength (beValue input ^ publicKey.e.value % publicKey.n.value))
      else .error .signatureInvalid) := by
  have hlength := Nat.pos_of_ne_zero h.checked.n_length
  have hne : publicKey.n.value ≠ 0 := by
    have hodd := h.odd
    omega
  unfold rsaPublicVerifyOperation
  refine Conforms.after (cryptoBignumFromBytesBe_ensures init_valid input (by omega)) ?_
  rintro encoded ⟨hencoded, hvalue⟩
  have hcompare := cryptoBignumCompare_lt hencoded h.n_valid
  rw [hvalue] at hcompare
  rw [cryptoRsaEncryptInternal, if_neg (not_not.mpr rfl)]
  by_cases hlt : beValue input < publicKey.n.value
  · have hlimbs := hencoded.length_le_of_value (hvalue.trans_le hlt.le)
    rw [if_neg (not_not.mpr (hcompare.mpr hlt)), if_neg (not_not.mpr (hcompare.mpr hlt))]
    refine Conforms.after (Ensures.reported (cryptoBignumModExpVartime_ensures init_valid hencoded
      h.e_valid h.n_valid hne (by omega))) ?_
    rintro r ⟨hr, hpower⟩
    have hbytes := toBytes_eq hr true (List.replicate outputLength 0)
    rw [List.length_replicate, hpower, hvalue] at hbytes
    change cryptoBignumToBytesBe r _ = _ at hbytes
    rw [hbytes]
    by_cases hfits : beValue input ^ publicKey.e.value % publicKey.n.value < 256 ^ outputLength
    · rw [if_pos hfits, if_pos ⟨hlt, hfits⟩]
      exact Conforms.given _
    · rw [if_neg hfits, if_neg fun hboth => hfits hboth.2]
      exact Conforms.given _
  · rw [if_pos (hcompare.not.mpr hlt), if_neg fun hboth => hlt hboth.1]
    exact Conforms.throw _

end Operations

end LiberaCrypt.RsaOperations
