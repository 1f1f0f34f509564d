import LiberaCrypt.BignumRandom
import LiberaCrypt.BignumSecret

namespace LiberaCrypt.BignumCodec

open LiberaCrypt.Allocation LiberaCrypt.BigEndian LiberaCrypt.Bignum LiberaCrypt.BignumRandom
open LiberaCrypt.BignumSecret LiberaCrypt.CheckedWords LiberaCrypt.CountedLoop LiberaCrypt.Endian
open LiberaCrypt.LimbBytes LiberaCrypt.Limbs LiberaCrypt.ModExpSecure LiberaCrypt.Outcome
open LiberaCrypt.Radix

/-- `LIMBS[i / 4] |= (uint32_t)BYTES[source] << (8 * (i % 4))`. -/
def orSource (bytes : List UInt8) (source : Nat → Nat) (i : Nat) (limbs : List UInt32) :
    List UInt32 :=
  limbs.set (i / 4) (limbs.getD (i / 4) 0 |||
    ((bytes.getD (source i) 0).toUInt32 <<< UInt32.ofNat (8 * (i % 4))))

def cryptoBignumFromBytesLe (out : LiberaCBignum) (bytes : List UInt8) : Fallible LiberaCBignum :=
  if sizeMax / 8 < bytes.length then throw .messageTooLarge
  else do
    let limbs := (bytes.length + 3) / 4
    let grown ← reported (bignumReserve out limbs) .allocationFailed
    pure (bignumNormalize
      ⟨countUp bytes.length (orSource bytes id) (List.replicate grown.capacity 0), limbs⟩)

def cryptoBignumByteLength (a : LiberaCBignum) : Nat := (cryptoBignumBitLength a + 7) / 8

def cryptoBignumToBytesLe (a : LiberaCBignum) (out : List UInt8) :
    Except LiberaCError (List UInt8) :=
  let need := cryptoBignumByteLength a
  if out.length < need then .error .bufferTooSmall
  else .ok (countUp need (fun i bytes => bytes.set i (limbByte a.limbs i))
    (List.replicate out.length 0))

def cryptoBignumToBytesBe (a : LiberaCBignum) (out : List UInt8) :
    Except LiberaCError (List UInt8) :=
  let need := cryptoBignumByteLength a
  if out.length < need then .error .bufferTooSmall
  else .ok (countUp need (fun i bytes => bytes.set (out.length - 1 - i) (limbByte a.limbs i))
    (List.replicate out.length 0))

def bignumSecretLengthFixed (limbs : List UInt32) (fixedLimbs : Nat) : UInt64 :=
  countUp fixedLimbs (fun i length =>
    let x := limbs.getD i 0
    let nonzero := (x ||| ((0 : UInt32) - x)) >>> 31
    let mask := (0 : UInt64) - nonzero.toUInt64
    (length &&& ~~~mask) ||| (UInt64.ofNat (i + 1) &&& mask)) 0

def bignumFromBytesSecretFixedCt (bytes : List UInt8) (fixedLimbs : Nat) (bigEndian : Bool) :
    Fallible LiberaCBignum :=
  if sizeMax / 4 < fixedLimbs ∨ fixedLimbs * 4 < bytes.length then throw .invalidArgument
  else do
    let tmp ← reported (bignumReserve cryptoBignumInit fixedLimbs) .allocationFailed
    let zeroed := storeWords tmp.limbs (List.replicate fixedLimbs 0)
    let source := fun i => if bigEndian then bytes.length - 1 - i else i
    let limbs := countUp bytes.length (orSource bytes source) zeroed
    pure ⟨limbs, (bignumSecretLengthFixed limbs fixedLimbs).toNat⟩

def cryptoBignumFromBytesBeSecretFixedCt (bytes : List UInt8) (fixedLimbs : Nat) :
    Fallible LiberaCBignum :=
  bignumFromBytesSecretFixedCt bytes fixedLimbs true

def cryptoBignumFromBytesLeSecretFixedCt (bytes : List UInt8) (fixedLimbs : Nat) :
    Fallible LiberaCBignum :=
  bignumFromBytesSecretFixedCt bytes fixedLimbs false

def bignumToBytesSecretFixedCt (a : LiberaCBignum) (out : List UInt8) (bigEndian : Bool) :
    Except LiberaCError (List UInt8) :=
  if sizeMax - 3 < out.length then .error .messageTooLarge
  else
    let neededLimbs := (out.length + 3) / 4
    if a.capacity < neededLimbs then .error .bufferTooSmall
    else .ok (countUp out.length (fun i bytes =>
      let byte := limbByte a.limbs i
      if bigEndian then bytes.set (out.length - 1 - i) byte else bytes.set i byte) out)

def cryptoBignumToBytesBeSecretFixedCt (a : LiberaCBignum) (out : List UInt8) :
    Except LiberaCError (List UInt8) :=
  bignumToBytesSecretFixedCt a out true

def cryptoBignumToBytesLeSecretFixedCt (a : LiberaCBignum) (out : List UInt8) :
    Except LiberaCError (List UInt8) :=
  bignumToBytesSecretFixedCt a out false

section Loops

variable {out : List UInt8} {f : Nat → UInt8} {k n : Nat}

theorem countUp_set (hk : k ≤ out.length) :
    countUp k (fun i bytes => bytes.set i (f i)) out = (List.range k).map f ++ out.drop k := by
  induction k with
  | zero => rfl
  | succ k ih =>
    have hdrop : out.drop k = out[k] :: out.drop (k + 1) := List.drop_eq_getElem_cons hk
    have hlength : ((List.range k).map f).length = k := by simp
    rw [countUp_succ, ih (Nat.le_of_succ_le hk), List.set_append_right _ _ hlength.le, hlength,
      Nat.sub_self, hdrop, List.set_cons_zero, List.range_succ, List.map_append, List.append_assoc]
    rfl

theorem countUp_set_back (hk : k ≤ out.length) (hn : out.length = n) :
    countUp k (fun i bytes => bytes.set (n - 1 - i) (f i)) out =
      out.take (n - k) ++ ((List.range k).map f).reverse := by
  induction k with
  | zero => simp [← hn]
  | succ k ih =>
    obtain ⟨m, hm⟩ := Nat.exists_eq_add_of_le hk
    have hlt : m < out.length := by omega
    have hlast : n - 1 - k = m := by omega
    have hbefore : n - k = m + 1 := by omega
    have hafter : n - (k + 1) = m := by omega
    have htake : (out.take m).length = m := by
      rw [List.length_take]
      exact Nat.min_eq_left hlt.le
    rw [countUp_succ, ih (Nat.le_of_succ_le hk), hlast, hbefore, hafter,
      List.take_succ_eq_append_getElem hlt, List.append_assoc, List.set_append_right _ _ htake.le,
      htake, Nat.sub_self, List.range_succ, List.map_append, List.reverse_append]
    rfl

/-- The byte that a loop reads in one order is the one that it reads of the reversed bytes in the
other. -/
theorem orSource_le (bytes : List UInt8) (limbs : List UInt32) :
    countUp bytes.length (orSource bytes id) limbs =
      countUp bytes.length (orByte bytes.reverse) limbs := by
  refine countUp_simulation Eq rfl ?_
  rintro i hi w _ rfl
  have hbyte : bytes.getD i 0 = bytes.reverse.getD (bytes.reverse.length - 1 - i) 0 := by
    rw [List.length_reverse, List.getD_eq_getElem _ _ hi,
      List.getD_eq_getElem _ _ (by simp; omega), List.getElem_reverse]
    congr 1
    omega
  rw [orSource, orByte, id, hbyte]

end Loops

section Encodings

variable {a out : LiberaCBignum} {bytes buffer : List UInt8} {n x room : Nat} {big : Bool}

def encode (big : Bool) (n x : Nat) : List UInt8 :=
  if big then bigEndian n x else (bigEndian n x).reverse

def decode (big : Bool) (bytes : List UInt8) : Nat :=
  if big then beValue bytes else beValue bytes.reverse

def cryptoBignumFromBytes (big : Bool) (out : LiberaCBignum) (bytes : List UInt8) :
    Fallible LiberaCBignum :=
  if big then cryptoBignumFromBytesBe out bytes else cryptoBignumFromBytesLe out bytes

def cryptoBignumToBytes (big : Bool) (a : LiberaCBignum) (out : List UInt8) :
    Except LiberaCError (List UInt8) :=
  if big then cryptoBignumToBytesBe a out else cryptoBignumToBytesLe a out

theorem encode_decode (big : Bool) (bytes : List UInt8) :
    encode big bytes.length (decode big bytes) = bytes := by
  cases big with
  | true => exact bigEndian_beValue bytes
  | false =>
    have hreverse := bigEndian_beValue bytes.reverse
    rw [List.length_reverse] at hreverse
    simp [encode, decode, hreverse]

theorem decode_lt (big : Bool) (bytes : List UInt8) : decode big bytes < 256 ^ bytes.length := by
  cases big with
  | true => exact beValue_lt bytes
  | false =>
    have hlt := beValue_lt bytes.reverse
    rwa [List.length_reverse] at hlt

theorem fromBytesLe_eq (out : LiberaCBignum) (bytes : List UInt8) :
    cryptoBignumFromBytesLe out bytes = cryptoBignumFromBytesBe out bytes.reverse := by
  simp only [cryptoBignumFromBytesLe, cryptoBignumFromBytesBe, orSource_le, limbsOfBytes,
    List.length_reverse]

theorem fromBytes_ensures (hout : out.Valid) (big : Bool) (h : 8 * bytes.length ≤ room) :
    Ensures room (cryptoBignumFromBytes big out bytes) fun a =>
      a.Valid ∧ a.value = decode big bytes := by
  cases big with
  | true => exact cryptoBignumFromBytesBe_ensures hout bytes h
  | false =>
    have hreverse : 8 * bytes.reverse.length ≤ room := by rwa [List.length_reverse]
    have hread := cryptoBignumFromBytesBe_ensures hout bytes.reverse hreverse
    rw [← fromBytesLe_eq] at hread
    exact hread

theorem byteLength_le_iff (ha : a.Valid) : cryptoBignumByteLength a ≤ n ↔ a.value < 256 ^ n := by
  have hpow : 256 ^ n = 2 ^ (8 * n) := by rw [show 256 = 2 ^ 8 from rfl, ← pow_mul]
  rw [cryptoBignumByteLength, cryptoBignumBitLength_eq ha, hpow, ← Nat.size_le]
  omega

theorem limbBytes_eq (w : List UInt32) (n : Nat) :
    (List.range n).map (limbByte w) = (bigEndian n (wordsValue w)).reverse := by
  rw [← bytesOfLimbs_eq]
  apply List.ext_getElem
  · simp [bytesOfLimbs]
  · intro i h h'
    simp only [List.length_map, List.length_range] at h
    simp only [bytesOfLimbs, List.getElem_reverse, List.length_map, List.length_range,
      List.getElem_map, List.getElem_range]
    congr 1
    omega

theorem limbBytes_padded {w : List UInt32} {need : Nat} (hneed : wordsValue w < 256 ^ need)
    (hle : need ≤ n) :
    (List.range need).map (limbByte w) ++ List.replicate (n - need) 0 =
      (List.range n).map (limbByte w) := by
  obtain ⟨more, rfl⟩ := Nat.exists_eq_add_of_le hle
  rw [Nat.add_sub_cancel_left, List.range_add, List.map_append, List.map_map]
  congr 1
  symm
  rw [List.eq_replicate_iff]
  constructor
  · simp
  · intro byte hbyte
    obtain ⟨i, -, rfl⟩ := List.mem_map.mp hbyte
    have hlt := hneed.trans_le (Nat.pow_le_pow_right (by decide) (Nat.le_add_right need i))
    apply UInt8.toNat_inj.mp
    rw [Function.comp_apply, limbByte_toNat, Nat.div_eq_of_lt hlt]
    rfl

theorem toBytes_eq (ha : a.Valid) (big : Bool) (buffer : List UInt8) :
    cryptoBignumToBytes big a buffer =
      if a.value < 256 ^ buffer.length then .ok (encode big buffer.length a.value)
      else .error .bufferTooSmall := by
  have hneed := (byteLength_le_iff ha).mp (le_refl (cryptoBignumByteLength a))
  by_cases hfits : a.value < 256 ^ buffer.length
  · have hle := (byteLength_le_iff ha).mpr hfits
    have hlength : cryptoBignumByteLength a ≤ (List.replicate buffer.length (0 : UInt8)).length := by
      rwa [List.length_replicate]
    have hvalue := ha.value_limbs
    rw [← hvalue] at hneed
    have hpadded := (limbBytes_padded hneed hle).trans (limbBytes_eq a.limbs buffer.length)
    rw [hvalue] at hpadded
    rw [if_pos hfits]
    cases big with
    | true =>
      have hset := @countUp_set_back _ (limbByte a.limbs) _ buffer.length hlength (by simp)
      have hreversed := congrArg List.reverse hpadded
      rw [List.reverse_append, List.reverse_replicate, List.reverse_reverse] at hreversed
      rw [List.take_replicate, Nat.min_eq_left (Nat.sub_le _ _), hreversed] at hset
      exact (if_neg (not_lt.mpr hle)).trans (congrArg Except.ok hset)
    | false =>
      have hset := @countUp_set _ (limbByte a.limbs) _ hlength
      rw [List.drop_replicate, hpadded] at hset
      exact (if_neg (not_lt.mpr hle)).trans (congrArg Except.ok hset)
  · have hgt : buffer.length < cryptoBignumByteLength a := by
      rw [← not_le, byteLength_le_iff ha]
      exact hfits
    rw [if_neg hfits]
    cases big with
    | true => exact if_pos hgt
    | false => exact if_pos hgt

theorem orSource_secret (big : Bool) (bytes : List UInt8) (n : Nat) :
    countUp bytes.length (orSource bytes fun i => if big then bytes.length - 1 - i else i)
        (List.replicate n 0) =
      limbsOfBytes n (if big then bytes else bytes.reverse) := by
  cases big with
  | true => rfl
  | false =>
    have hread := orSource_le bytes (List.replicate n 0)
    simp only [limbsOfBytes, Bool.false_eq_true, if_false, List.length_reverse]
    exact hread

theorem fromBytesSecret_ensures (big : Bool) (hfits : bytes.length ≤ 4 * n) (h : 4 * n ≤ room) :
    Ensures room (bignumFromBytesSecretFixedCt bytes n big) fun a =>
      Fixed n a (decode big bytes) ∧ 4 * n ≤ sizeMax - 3 := by
  unfold bignumFromBytesSecretFixedCt
  apply Ensures.guard
  · rintro hroom (hbig | hlong)
    · omega
    · omega
  intro hguard
  have hwidth : 4 * n ≤ sizeMax - 3 := by
    simp only [not_or, not_lt, sizeMax] at hguard ⊢
    omega
  apply (Ensures.reported (bignumReserve_init h)).bind
  rintro tmp ⟨hlimbs, hn⟩
  apply Ensures.pure
  have hzeroed : storeWords tmp.limbs (List.replicate n 0) = List.replicate n 0 := by
    rw [hlimbs, storeWords, List.length_replicate, List.drop_replicate, Nat.sub_self]
    exact List.append_nil _
  have hlength : (if big then bytes else bytes.reverse).length ≤ 4 * n := by
    cases big with
    | true => exact hfits
    | false => simpa using hfits
  obtain ⟨hw, hvalue⟩ := limbsOfBytes_spec hlength
  have hfixed := filled hw hn
  have hstore : storeWords (List.replicate n 0) (limbsOfBytes n (if big then bytes else
      bytes.reverse)) = limbsOfBytes n (if big then bytes else bytes.reverse) := by
    rw [storeWords, hw, List.drop_replicate, Nat.sub_self]
    exact List.append_nil _
  have hdecode : decode big bytes = beValue (if big then bytes else bytes.reverse) := by
    cases big with
    | true => rfl
    | false => rfl
  rw [hstore, hvalue, ← hdecode, ← orSource_secret] at hfixed
  rw [hzeroed]
  exact ⟨hfixed, hwidth⟩

theorem toBytesSecret_eq (ha : a.Valid) (big : Bool) (hsmall : buffer.length ≤ sizeMax - 3)
    (hstorage : (buffer.length + 3) / 4 ≤ a.capacity) :
    bignumToBytesSecretFixedCt a buffer big = .ok (encode big buffer.length a.value) := by
  have hbytes := limbBytes_eq a.limbs buffer.length
  rw [ha.value_limbs] at hbytes
  unfold bignumToBytesSecretFixedCt
  rw [if_neg (not_lt.mpr hsmall), if_neg (not_lt.mpr hstorage)]
  apply congrArg Except.ok
  cases big with
  | true =>
    have hset := @countUp_set_back buffer (limbByte a.limbs) _ _ (le_refl _) rfl
    rw [Nat.sub_self, List.take_zero, List.nil_append, hbytes, List.reverse_reverse] at hset
    exact hset
  | false =>
    have hset := @countUp_set buffer (limbByte a.limbs) _ (le_refl _)
    rw [List.drop_length, List.append_nil, hbytes] at hset
    exact hset

end Encodings

/-- Every byte string is read and written back unchanged, in both orders and by the public and the
fixed-width functions; these two read the same number, and write the same bytes of one that fits;
and a public buffer is too small exactly for the numbers that need more bytes. -/
theorem bignum_codecs (big : Bool) (bytes : List UInt8) :
    (∀ out : LiberaCBignum, out.Valid →
      Ensures (8 * bytes.length) (cryptoBignumFromBytes big out bytes) fun a =>
        a.Valid ∧ a.value = decode big bytes ∧
          ∀ buffer : List UInt8, buffer.length = bytes.length →
            cryptoBignumToBytes big a buffer = .ok bytes) ∧
      (∀ fixedLimbs, bytes.length ≤ 4 * fixedLimbs →
        Ensures (4 * fixedLimbs) (bignumFromBytesSecretFixedCt bytes fixedLimbs big) fun a =>
          a.Valid ∧ a.value = decode big bytes ∧
            ∀ buffer : List UInt8, buffer.length = bytes.length →
              bignumToBytesSecretFixedCt a buffer big = .ok bytes) ∧
      (∀ (a : LiberaCBignum) (buffer : List UInt8), a.Valid → a.value < 256 ^ buffer.length →
        buffer.length ≤ sizeMax - 3 → (buffer.length + 3) / 4 ≤ a.capacity →
          bignumToBytesSecretFixedCt a buffer big = cryptoBignumToBytes big a buffer) ∧
      ∀ (a : LiberaCBignum) (buffer : List UInt8), a.Valid →
        (cryptoBignumToBytes big a buffer = .error .bufferTooSmall ↔
          256 ^ buffer.length ≤ a.value) := by
  refine ⟨?_, ?_, ?_, ?_⟩
  · intro out hout
    apply (fromBytes_ensures hout big (le_refl _)).mono
    rintro a ⟨ha, hvalue⟩
    refine ⟨ha, hvalue, ?_⟩
    intro buffer hbuffer
    rw [toBytes_eq ha, hbuffer, hvalue, if_pos (decode_lt big bytes), encode_decode]
  · intro fixedLimbs hfits
    apply (fromBytesSecret_ensures big hfits (le_refl (4 * fixedLimbs))).mono
    rintro a ⟨hfixed, hwidth⟩
    refine ⟨hfixed.valid, hfixed.value, ?_⟩
    intro buffer hbuffer
    have hstorage := hfixed.storage
    rw [toBytesSecret_eq hfixed.valid big (by omega) (by omega), hbuffer, hfixed.value,
      encode_decode]
  · intro a buffer ha hfits hsmall hstorage
    rw [toBytesSecret_eq ha big hsmall hstorage, toBytes_eq ha, if_pos hfits]
  · intro a buffer ha
    rw [toBytes_eq ha]
    by_cases hfits : a.value < 256 ^ buffer.length
    · simp [hfits]
    · simp [hfits, not_lt.mp hfits]

end LiberaCrypt.BignumCodec
