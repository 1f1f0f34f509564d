import LiberaCrypt.CountedLoop
import LiberaCrypt.Endian
import LiberaCrypt.Limbs

namespace LiberaCrypt.LimbBytes

open LiberaCrypt.BigEndian LiberaCrypt.CheckedWords LiberaCrypt.CountedLoop LiberaCrypt.Endian
open LiberaCrypt.Limbs
open LiberaCrypt.LittleEndian LiberaCrypt.Radix

/-- `LIMBS[i / 4] |= BYTES[LENGTH - 1 - i] << (8 * (i % 4))`. -/
def orByte (bytes : List UInt8) (i : Nat) (limbs : List UInt32) : List UInt32 :=
  limbs.set (i / 4) (limbs.getD (i / 4) 0 |||
    ((bytes.getD (bytes.length - 1 - i) 0).toUInt32 <<< UInt32.ofNat (8 * (i % 4))))

def limbsOfBytes (n : Nat) (bytes : List UInt8) : List UInt32 :=
  countUp bytes.length (orByte bytes) (List.replicate n 0)

/-- `(uint8_t)(LIMBS[i / 4] >> (8 * (i % 4)))`. -/
def limbByte (limbs : List UInt32) (i : Nat) : UInt8 :=
  (limbs.getD (i / 4) 0 >>> UInt32.ofNat (8 * (i % 4))).toUInt8

/-- The lowest `n` bytes of limbs, highest first. -/
def bytesOfLimbs (n : Nat) (limbs : List UInt32) : List UInt8 :=
  (List.range n).map fun k => limbByte limbs (n - 1 - k)

variable {w : List UInt32} {bytes : List UInt8} {n i : Nat}

theorem wordsValue_set (hi : i < w.length) (x : UInt32) :
    wordsValue (w.set i x) + wordBase ^ i * (w.getD i 0).toNat =
      wordsValue w + wordBase ^ i * x.toNat := by
  induction w generalizing i with
  | nil => exact absurd hi (Nat.not_lt_zero i)
  | cons y w ih =>
    cases i with
    | zero =>
      simp only [List.set_cons_zero, wordsValue_cons, List.getD_cons_zero, pow_zero, Nat.one_mul]
      omega
    | succ i =>
      have hrest := ih (Nat.lt_of_succ_lt_succ hi)
      simp only [List.set_cons_succ, wordsValue_cons, List.getD_cons_succ, pow_succ]
      linear_combination wordBase * hrest

theorem limb_le (w : List UInt32) (i : Nat) : wordBase ^ i * (w.getD i 0).toNat ≤ wordsValue w := by
  induction w generalizing i with
  | nil => simp
  | cons y w ih =>
    cases i with
    | zero => simp [wordsValue_cons]
    | succ i =>
      have hrest := Nat.mul_le_mul_left wordBase (ih i)
      rw [List.getD_cons_succ, wordsValue_cons, pow_succ, Nat.mul_comm (wordBase ^ i),
        Nat.mul_assoc]
      exact hrest.trans (Nat.le_add_left _ _)

/-- Byte `k` of a number is byte `k % 4` of limb `k / 4`. -/
theorem byte_weight (k : Nat) : 256 ^ k = wordBase ^ (k / 4) * 2 ^ (8 * (k % 4)) := by
  rw [wordBase, ← pow_mul, ← pow_add, show 256 = 2 ^ 8 from rfl, ← pow_mul]
  congr 1
  omega

theorem orBytes_spec (bytes : List UInt8) {k : Nat} (hk : k ≤ bytes.length) (hk4 : k ≤ 4 * n) :
    (countUp k (orByte bytes) (List.replicate n 0)).length = n ∧
      wordsValue (countUp k (orByte bytes) (List.replicate n 0)) =
        bytesValue (bytes.reverse.take k) := by
  induction k with
  | zero => simp
  | succ k ih =>
    obtain ⟨hlength, hvalue⟩ := ih (by omega) (by omega)
    rw [countUp_succ]
    generalize countUp k (orByte bytes) (List.replicate n 0) = w at *
    have hi : k / 4 < w.length := by omega
    have hbyte : bytes.getD (bytes.length - 1 - k) 0 = bytes.reverse.getD k 0 := by
      rw [List.getD_eq_getElem _ _ (by omega), List.getD_eq_getElem _ _ (by simp; omega),
        List.getElem_reverse]
    have hlow : (w.getD (k / 4) 0).toNat < 2 ^ (8 * (k % 4)) := by
      have hle := limb_le w (k / 4)
      have hlt := bytesValue_lt (bytes.reverse.take k)
      rw [List.length_take, List.length_reverse, Nat.min_eq_left (by omega), byte_weight,
        ← hvalue] at hlt
      exact lt_of_mul_lt_mul_left (hle.trans_lt hlt) (Nat.zero_le _)
    have hjoin := toNat_join32 (w.getD (k / 4) 0) (bytes.reverse.getD k 0).toUInt32
      (k := 8 * (k % 4)) (by omega) hlow
    have hbound : (w.getD (k / 4) 0).toNat +
        2 ^ (8 * (k % 4)) * (bytes.reverse.getD k 0).toNat < 2 ^ 32 := by
      have hlt := (bytes.reverse.getD k 0).toNat_lt
      have hmul : 2 ^ (8 * (k % 4)) * ((bytes.reverse.getD k 0).toNat + 1) ≤
          2 ^ (8 * (k % 4)) * 2 ^ 8 := Nat.mul_le_mul_left _ hlt
      have hpow : 2 ^ (8 * (k % 4)) * 2 ^ 8 ≤ 2 ^ 32 := by
        rw [← pow_add]
        exact Nat.pow_le_pow_right Nat.two_pos (by omega)
      rw [Nat.mul_succ] at hmul
      omega
    rw [UInt8.toNat_toUInt32, Nat.mod_eq_of_lt hbound] at hjoin
    have hset := wordsValue_set hi
      (w.getD (k / 4) 0 ||| ((bytes.getD (bytes.length - 1 - k) 0).toUInt32 <<<
        UInt32.ofNat (8 * (k % 4))))
    rw [hbyte, hjoin] at hset
    have hnext : bytesValue (bytes.reverse.take (k + 1)) =
        bytesValue (bytes.reverse.take k) + 256 ^ k * (bytes.reverse.getD k 0).toNat := by
      have hlt : k < bytes.reverse.length := by
        rw [List.length_reverse]
        omega
      rw [List.take_succ_eq_append_getElem hlt, bytesValue_append, bytesValue_singleton,
        List.length_take, Nat.min_eq_left hlt.le, List.getD_eq_getElem _ _ hlt]
    refine ⟨(List.length_set).trans hlength, ?_⟩
    rw [orByte, hbyte, hnext, byte_weight, ← hvalue]
    rw [Nat.mul_add, ← Nat.mul_assoc] at hset
    omega

theorem limbsOfBytes_spec (h : bytes.length ≤ 4 * n) :
    (limbsOfBytes n bytes).length = n ∧ wordsValue (limbsOfBytes n bytes) = beValue bytes := by
  have hspec := orBytes_spec (n := n) bytes (le_refl _) h
  rw [← @List.length_reverse _ bytes, List.take_length, List.length_reverse] at hspec
  exact hspec

theorem limb_toNat (w : List UInt32) (i : Nat) :
    (w.getD i 0).toNat = wordsValue w / wordBase ^ i % wordBase := by
  induction w generalizing i with
  | nil => simp
  | cons x w ih =>
    have hx := word_lt x
    cases i with
    | zero =>
      rw [List.getD_cons_zero, wordsValue_cons, pow_zero, Nat.div_one, Nat.add_mul_mod_self_left,
        Nat.mod_eq_of_lt hx]
    | succ i =>
      rw [List.getD_cons_succ, wordsValue_cons, ih, pow_succ', ← Nat.div_div_eq_div_mul,
        Nat.add_mul_div_left _ _ wordBase_pos, Nat.div_eq_of_lt hx, Nat.zero_add]

theorem limb_eq_zero (h : wordsValue w < wordBase ^ n) (hi : n ≤ i) : w.getD i 0 = 0 := by
  have hlt := h.trans_le (Nat.pow_le_pow_right wordBase_pos hi)
  apply UInt32.toNat_inj.mp
  rw [limb_toNat, Nat.div_eq_of_lt hlt, Nat.zero_mod]
  rfl

theorem limbByte_toNat (w : List UInt32) (i : Nat) :
    (limbByte w i).toNat = wordsValue w / 256 ^ i % 256 := by
  have hs : 8 * (i % 4) ≤ 24 := by omega
  rw [limbByte, UInt32.toNat_toUInt8, toNat_shift32 _ _ (by omega), limb_toNat, byte_weight,
    ← Nat.div_div_eq_div_mul]
  generalize wordsValue w / wordBase ^ (i / 4) = v
  have hsplit : wordBase = 2 ^ (8 * (i % 4)) * 2 ^ (32 - 8 * (i % 4)) := by
    rw [wordBase, ← pow_add, Nat.add_sub_cancel' (by omega)]
  have hdvd : 2 ^ 8 ∣ 2 ^ (32 - 8 * (i % 4)) := Nat.pow_dvd_pow 2 (by omega)
  rw [hsplit, Nat.mod_mul_right_div_self]
  exact Nat.mod_mod_of_dvd _ hdvd

theorem bytesOfLimbs_eq (n : Nat) (w : List UInt32) :
    bytesOfLimbs n w = bigEndian n (wordsValue w) := by
  have hreverse : (bytesOfLimbs n w).reverse = (List.range n).map (limbByte w) := by
    apply List.ext_getElem
    · simp [bytesOfLimbs]
    · intro i h1 h2
      simp only [List.length_map, List.length_range] at h2
      simp only [bytesOfLimbs, List.getElem_reverse, List.length_map, List.length_range,
        List.getElem_map, List.getElem_range]
      congr 1
      omega
  have hlength : (bytesOfLimbs n w).length = n := by simp [bytesOfLimbs]
  have hvalue : beValue (bytesOfLimbs n w) = wordsValue w % 256 ^ n := by
    rw [beValue, hreverse, bytesValue, List.map_map]
    change radix 256 n (fun i => (limbByte w i).toNat) = _
    rw [← radix_of_digits 256 n (wordsValue w)]
    exact radix_congr fun i _ => limbByte_toNat w i
  rw [← bigEndian_mod, ← hvalue]
  conv_lhs => rw [← bigEndian_beValue (bytesOfLimbs n w), hlength]

end LiberaCrypt.LimbBytes
