import LiberaCrypt.Endian
import LiberaCrypt.Field25519Product
import LiberaCrypt.PowerLadder
import Mathlib.Data.List.GetD

namespace LiberaCrypt.Field25519Bytes

open LiberaCrypt.CheckedWords LiberaCrypt.ConstantTime LiberaCrypt.CountedLoop
open LiberaCrypt.Field25519 LiberaCrypt.Field25519Product LiberaCrypt.Field25519Subtract
open LiberaCrypt.Field25519Values LiberaCrypt.LittleEndian LiberaCrypt.MonadicLoop
open LiberaCrypt.PowerLadder LiberaCrypt.Radix LiberaCrypt.WordArithmetic

variable {m : Type → Type} [Monad m] [LawfulMonad m] {W : Words m}

section Encoding

def encoding (x : ZMod prime) : List UInt8 := limbBytes (element x)

theorem limbBytes_cons (limb : UInt32) (limbs : List UInt32) :
    limbBytes (limb :: limbs) = limb.toUInt8 :: (limb >>> 8).toUInt8 :: limbBytes limbs := rfl

theorem limbBytes_length (limbs : List UInt32) : (limbBytes limbs).length = 2 * limbs.length := by
  induction limbs with
  | nil => rfl
  | cons limb limbs ih =>
    rw [limbBytes_cons, List.length_cons, List.length_cons, List.length_cons, ih]
    ring

theorem limbBytes_value {limbs : List UInt32} (h : Below 65536 limbs) :
    bytesValue (limbBytes limbs) = limbsValue limbs := by
  induction limbs with
  | nil => rfl
  | cons limb limbs ih =>
    rw [below_cons] at h
    have hhigh : (limb >>> 8).toNat = limb.toNat / 2 ^ 8 := toNat_shift32 limb 8 (by decide)
    rw [limbBytes_cons, bytesValue_cons, bytesValue_cons, ih h.2, limbsValue_cons,
      UInt32.toNat_toUInt8, UInt32.toNat_toUInt8, hhigh]
    omega

@[simp] theorem encoding_length (x : ZMod prime) : (encoding x).length = 32 := by
  rw [encoding, limbBytes_length, element_length]

@[simp] theorem encoding_value (x : ZMod prime) : bytesValue (encoding x) = x.val := by
  rw [encoding, limbBytes_value (element_below x), element_value]

theorem encoding_injective : Function.Injective encoding := by
  intro x y h
  have hvalue := congrArg bytesValue h
  rw [encoding_value, encoding_value] at hvalue
  exact ZMod.val_injective prime hvalue

theorem feToBytes_element (hW : Exact W) (x : ZMod prime) :
    feToBytes W (element x) = pure (encoding x) := by
  rw [feToBytes, feConditionalSubtractP_element hW, pure_bind, encoding]

theorem bytesLimbs_cons (low high : UInt8) (rest : List UInt8) :
    ((low.toUInt32 ||| (high.toUInt32 <<< 8))).toNat = low.toNat + 256 * high.toNat ∧
      bytesLimbs (low :: high :: rest) =
        (low.toUInt32 ||| (high.toUInt32 <<< 8)) :: bytesLimbs rest := by
  refine ⟨?_, rfl⟩
  have hlow := low.toNat_lt
  have hhigh := high.toNat_lt
  have hjoin := toNat_join32 low.toUInt32 high.toUInt32 (k := 8) (by decide)
    (by rw [UInt8.toNat_toUInt32]; exact hlow)
  rw [UInt8.toNat_toUInt32, UInt8.toNat_toUInt32, Nat.mod_eq_of_lt (by omega)] at hjoin
  exact hjoin

theorem bytesLimbs_value {n : Nat} {bytes : List UInt8} (hlength : bytes.length = 2 * n) :
    (bytesLimbs bytes).length = n ∧ Below 65536 (bytesLimbs bytes) ∧
      limbsValue (bytesLimbs bytes) = bytesValue bytes := by
  induction n generalizing bytes with
  | zero =>
    obtain rfl := List.length_eq_zero_iff.mp hlength
    exact ⟨rfl, below_nil, rfl⟩
  | succ n ih =>
    match bytes, hlength with
    | low :: high :: rest, hlength =>
      have hrest : rest.length = 2 * n := by
        simp only [List.length_cons] at hlength
        omega
      obtain ⟨hlen, hbelow, hvalue⟩ := ih hrest
      obtain ⟨hlimb, heq⟩ := bytesLimbs_cons low high rest
      have hlow := low.toNat_lt
      have hhigh := high.toNat_lt
      rw [heq, List.length_cons, below_cons, limbsValue_cons, bytesValue_cons, bytesValue_cons,
        hlimb, hlen, hvalue]
      exact ⟨rfl, ⟨by omega, hbelow⟩, by ring⟩

end Encoding

section Comparison

theorem cryptoConstantTimeEqual_eq {left right : List UInt8} {length : Nat}
    (hleft : left.length = length) (hright : right.length = length) :
    cryptoConstantTimeEqual left right length = decide (left = right) := by
  have hiff : cryptoConstantTimeEqual left right length = true ↔ left = right := by
    rw [cryptoConstantTimeEqual_iff]
    constructor
    · intro h
      apply List.ext_getElem (hleft.trans hright.symm)
      intro i hi hi'
      have hbyte := h i (hleft ▸ hi)
      rwa [List.getD_eq_getElem _ _ hi, List.getD_eq_getElem _ _ hi'] at hbyte
    · rintro rfl i hi
      rfl
  by_cases h : left = right
  · rw [hiff.mpr h, decide_eq_true h]
  · rw [decide_eq_false h, ← Bool.not_eq_true]
    exact mt hiff.mp h

theorem feEqual_element (hW : Exact W) (x y : ZMod prime) :
    feEqual W (element x) (element y) = pure (decide (x = y)) := by
  rw [feEqual, feToBytes_element hW, pure_bind, feToBytes_element hW, pure_bind,
    cryptoConstantTimeEqual_eq (encoding_length x) (encoding_length y)]
  simp only [encoding_injective.eq_iff]

theorem feIsZero_element (hW : Exact W) (x : ZMod prime) :
    feIsZero W (element x) = pure (decide (x = 0)) := by
  rw [feIsZero, feZero_eq, feEqual_element hW]

theorem getD_toNat (bytes : List UInt8) (i : Nat) :
    (bytes.getD i 0).toNat = bytesValue bytes / 256 ^ i % 256 := by
  by_cases hi : i < bytes.length
  · rw [bytesValue_byte hi, List.getD_eq_getElem _ _ hi]
  · have hlt := bytesValue_lt bytes
    have hle : 256 ^ bytes.length ≤ 256 ^ i := Nat.pow_le_pow_right (by decide) (by omega)
    rw [List.getD_eq_default _ _ (by omega), Nat.div_eq_of_lt (hlt.trans_le hle)]
    rfl

theorem feIsNegative_element (hW : Exact W) (x : ZMod prime) :
    feIsNegative W (element x) = pure (UInt8.ofNat (x.val % 2)) := by
  rw [feIsNegative, feToBytes_element hW, pure_bind]
  congr 1
  have hlow : ((encoding x).getD 0 0 &&& 1).toNat = ((encoding x).getD 0 0).toNat % 2 := by
    rw [UInt8.toNat_and]
    exact Nat.and_two_pow_sub_one_eq_mod _ 1
  apply UInt8.toNat_inj.mp
  rw [hlow, getD_toNat, encoding_value, UInt8.toNat_ofNat']
  omega

end Comparison

section Decoding

theorem masked_value {input : List UInt8} (hlength : input.length = 32) :
    bytesValue (input.set 31 (input.getD 31 0 &&& 0x7f)) = bytesValue input % 2 ^ 255 := by
  rcases List.eq_nil_or_concat input with rfl | ⟨low, top, rfl⟩
  · simp at hlength
  · have hlow : low.length = 31 := by simpa using hlength
    have hget : (low ++ [top]).getD 31 0 = top := by simp [hlow]
    have hset : (low ++ [top]).set 31 (top &&& 0x7f) = low ++ [top &&& 0x7f] := by simp [hlow]
    have hmask : (top &&& 0x7f).toNat = top.toNat % 128 := by
      rw [UInt8.toNat_and]
      exact Nat.and_two_pow_sub_one_eq_mod _ 7
    have hlt := bytesValue_lt low
    rw [List.concat_eq_append, hget, hset, bytesValue_append, bytesValue_append, bytesValue_singleton,
      bytesValue_singleton, hmask]
    rw [hlow] at hlt ⊢
    omega

/-- The sign bit is masked, and the rest is accepted below the prime. -/
theorem feFromCanonicalBytes_eq (hW : Exact W) {input : List UInt8} (hlength : input.length = 32) :
    feFromCanonicalBytes W input = pure (if bytesValue input % 2 ^ 255 < prime
      then (element (bytesValue input % 2 ^ 255 : Nat), true) else (feZero, false)) := by
  have hvalue := masked_value hlength
  have hlt : bytesValue input % 2 ^ 255 < 2 ^ 255 := Nat.mod_lt _ (by decide)
  have hmasked : (input.set 31 (input.getD 31 0 &&& 0x7f)).length = 32 := by
    rw [List.length_set, hlength]
  rw [feFromCanonicalBytes]
  dsimp only
  generalize input.set 31 (input.getD 31 0 &&& 0x7f) = masked at *
  generalize bytesValue input % 2 ^ 255 = v at *
  obtain ⟨hlen, hbelow, hlimbs⟩ := bytesLimbs_value (n := 16) hmasked
  rw [hvalue] at hlimbs
  rw [feConditionalSubtractP_eq hW hlen hbelow (by rwa [hlimbs]), hlimbs, pure_bind,
    feToBytes_element hW, pure_bind, cryptoConstantTimeEqual_eq hmasked (encoding_length _)]
  -- the bytes are the encoding of their residue exactly below the prime
  have hcanonical : masked = encoding (v : ZMod prime) ↔ v < prime := by
    rw [← Nat.mod_eq_iff_lt (NeZero.ne prime), ← ZMod.val_natCast]
    constructor
    · intro h
      rw [← encoding_value, ← h, hvalue]
    · intro h
      apply bytesValue_injective (hmasked.trans (encoding_length _).symm)
      rw [encoding_value, h, hvalue]
  by_cases hsmall : v < prime
  · rw [decide_eq_true (hcanonical.mpr hsmall), if_pos rfl, if_pos hsmall]
  · rw [decide_eq_false (mt hcanonical.mp hsmall), if_neg Bool.false_ne_true, if_neg hsmall]

end Decoding

section Power

theorem byteBit_toNat (bytes : List UInt8) (i : Nat) :
    (byteBit bytes i).toNat = bytesValue bytes / 2 ^ i % 2 := by
  have hseven : i &&& 7 = i % 8 := Nat.and_two_pow_sub_one_eq_mod i 3
  have hbyte := getD_toNat bytes (i / 8)
  have hbit : (byteBit bytes i).toNat = (bytes.getD (i / 8) 0).toNat / 2 ^ (i % 8) % 2 := by
    rw [byteBit, UInt32.toNat_and, hseven, Nat.shiftRight_eq_div_pow,
      toNat_shift32 _ _ ((Nat.mod_lt i (by decide)).trans (by decide)), UInt8.toNat_toUInt32]
    exact Nat.and_two_pow_sub_one_eq_mod _ 1
  have hpow : 2 ^ i = 256 ^ (i / 8) * 2 ^ (i % 8) := by
    rw [show (256 : Nat) = 2 ^ 8 from rfl, ← pow_mul, ← pow_add, Nat.div_add_mod]
  have hsplit : 256 = 2 ^ (i % 8) * 2 ^ (8 - i % 8) := by
    rw [← pow_add, Nat.add_sub_cancel' (Nat.mod_lt i (by decide)).le]
    rfl
  rw [hbit, hbyte, hpow, ← Nat.div_div_eq_div_mul]
  generalize bytesValue bytes / 256 ^ (i / 8) = v
  have htwo : 2 ∣ 2 ^ (8 - i % 8) := dvd_pow_self 2 (by omega)
  rw [hsplit, Nat.mod_mul_right_div_self, Nat.mod_mod_of_dvd _ htwo]

theorem powStep_element (hW : Exact W) (x : ZMod prime) (exponent : List UInt8) (i : Nat)
    (t : ZMod prime) :
    powStep W (element x) exponent i (element t) =
      pure (element (if bytesValue exponent / 2 ^ i % 2 = 1 then t * t * x else t * t)) := by
  have hbit := byteBit_toNat exponent i
  rw [powStep, feSquare_element hW, pure_bind]
  by_cases hz : byteBit exponent i = 0
  · rw [hz, UInt32.toNat_zero] at hbit
    rw [if_neg (not_not.mpr hz), if_neg (by omega)]
  · have hne : (byteBit exponent i).toNat ≠ 0 := fun h => hz (UInt32.toNat_inj.mp h)
    rw [if_pos hz, if_pos (by omega), feMul_element hW]

theorem fePow_element (hW : Exact W) (x : ZMod prime) {exponent : List UInt8} {bits : Nat}
    (hbits : bytesValue exponent < 2 ^ bits) :
    fePow W (element x) exponent bits = pure (element (x ^ bytesValue exponent)) := by
  rw [fePow, feOne_eq, countDownM_pure fun i _ t => powStep_element hW x exponent i t]
  have hloop := countDown_invariant (n := bits) (s := 1)
    (f := fun i t => if bytesValue exponent / 2 ^ i % 2 = 1 then t * t * x else t * t)
    (fun i t => t = x ^ (bytesValue exponent / 2 ^ i)) (start x hbits).symm ?_
  · rw [hloop, pow_zero, Nat.div_one]
  · rintro i hi t rfl
    split_ifs with hbit
    · exact step_set x hbit
    · exact step_clear x (by omega)

theorem feInvert_element (hW : Exact W) (x : ZMod prime) :
    feInvert W (element x) = pure (element (x ^ (prime - 2))) := by
  have hvalue : bytesValue inverseExponent = prime - 2 := by decide
  rw [feInvert, fePow_element hW x (by rw [hvalue]; decide), hvalue]

theorem feSqrtCandidate_element (hW : Exact W) (x : ZMod prime) :
    feSqrtCandidate W (element x) = pure (element (x ^ ((prime + 3) / 8))) := by
  have hvalue : bytesValue sqrtExponent = (prime + 3) / 8 := by decide
  rw [feSqrtCandidate, fePow_element hW x (by rw [hvalue]; decide), hvalue]

end Power

end LiberaCrypt.Field25519Bytes
