import Mathlib.Data.Nat.Digits.Defs
import Mathlib.Tactic

namespace LiberaCrypt.Radix

/-- The number whose little-endian digits to base `b` are `v 0, ..., v (n - 1)`. -/
def radix (b n : Nat) (v : Nat → Nat) : Nat := Nat.ofDigits b ((List.range n).map v)

@[simp] theorem radix_zero (b : Nat) (v : Nat → Nat) : radix b 0 v = 0 := rfl

theorem radix_succ (b n : Nat) (v : Nat → Nat) :
    radix b (n + 1) v = radix b n v + b ^ n * v n := by
  simp only [radix, List.range_succ, List.map_append, List.map_cons, List.map_nil,
    Nat.ofDigits_append, Nat.ofDigits_singleton, List.length_map, List.length_range]

theorem radix_lt {b n : Nat} {v : Nat → Nat} (h : ∀ i < n, v i < b) : radix b n v < b ^ n := by
  induction n with
  | zero => simp
  | succ n ih =>
    have hn : v n + 1 ≤ b := h n (Nat.lt_succ_self n)
    have hm : b ^ n * (v n + 1) ≤ b ^ n * b := Nat.mul_le_mul_left _ hn
    have hlow := ih fun i hi => h i (Nat.lt_succ_of_lt hi)
    rw [radix_succ, pow_succ]
    rw [Nat.mul_succ] at hm
    omega

theorem radix_congr {b n : Nat} {v w : Nat → Nat} (h : ∀ i < n, v i = w i) :
    radix b n v = radix b n w := by
  induction n with
  | zero => rfl
  | succ n ih =>
    rw [radix_succ, radix_succ, ih fun i hi => h i (Nat.lt_succ_of_lt hi), h n (Nat.lt_succ_self n)]

theorem radix_digit {b n : Nat} {v : Nat → Nat} (h : ∀ i < n, v i < b) {i : Nat} (hi : i < n) :
    radix b n v / b ^ i % b = v i := by
  have hb : 0 < b := Nat.zero_lt_of_lt (h i hi)
  induction n with
  | zero => exact absurd hi (Nat.not_lt_zero i)
  | succ n ih =>
    have hlow := radix_lt fun i hi => h i (Nat.lt_succ_of_lt hi)
    rw [radix_succ]
    rcases Nat.lt_succ_iff_lt_or_eq.mp hi with hlt | rfl
    · have hsplit : b ^ n * v n = b ^ i * (b * (b ^ (n - i - 1) * v n)) := by
        rw [← mul_assoc, ← mul_assoc, ← pow_succ, ← pow_add, show i + 1 + (n - i - 1) = n by omega]
      rw [hsplit, Nat.add_mul_div_left _ _ (by positivity), Nat.add_mul_mod_self_left]
      exact ih (fun i hi => h i (Nat.lt_succ_of_lt hi)) hlt
    · rw [Nat.add_mul_div_left _ _ (by positivity), Nat.div_eq_of_lt hlow, zero_add,
        Nat.mod_eq_of_lt (h i hi)]

theorem radix_injective {b n : Nat} {v w : Nat → Nat} (hv : ∀ i < n, v i < b)
    (hw : ∀ i < n, w i < b) (h : radix b n v = radix b n w) : ∀ i < n, v i = w i := by
  intro i hi
  rw [← radix_digit hv hi, h, radix_digit hw hi]

theorem radix_of_digits (b n N : Nat) : radix b n (fun i => N / b ^ i % b) = N % b ^ n := by
  induction n with
  | zero => rw [radix_zero, pow_zero, Nat.mod_one]
  | succ n ih => rw [radix_succ, ih, pow_succ, Nat.mod_mul]

def bytesValue (bytes : List UInt8) : Nat := Nat.ofDigits 256 (bytes.map UInt8.toNat)

@[simp] theorem bytesValue_nil : bytesValue [] = 0 := rfl

theorem bytesValue_cons (x : UInt8) (bytes : List UInt8) :
    bytesValue (x :: bytes) = x.toNat + 256 * bytesValue bytes := by
  simp only [bytesValue, List.map_cons, Nat.ofDigits_cons]

theorem bytesValue_append (xs ys : List UInt8) :
    bytesValue (xs ++ ys) = bytesValue xs + 256 ^ xs.length * bytesValue ys := by
  simp only [bytesValue, List.map_append, Nat.ofDigits_append, List.length_map]

theorem bytesValue_singleton (x : UInt8) : bytesValue [x] = x.toNat := by
  simp only [bytesValue, List.map_cons, List.map_nil, Nat.ofDigits_singleton]

theorem byte_lt (bytes : List UInt8) : ∀ x ∈ bytes.map UInt8.toNat, x < 256 := by
  intro x hx
  obtain ⟨y, -, rfl⟩ := List.mem_map.mp hx
  exact y.toNat_lt

theorem bytesValue_lt (bytes : List UInt8) : bytesValue bytes < 256 ^ bytes.length := by
  have h := Nat.ofDigits_lt_base_pow_length (b := 256) (by norm_num) (byte_lt bytes)
  rwa [List.length_map] at h

theorem bytesValue_injective {xs ys : List UInt8} (hlen : xs.length = ys.length)
    (h : bytesValue xs = bytesValue ys) : xs = ys := by
  have hmap := Nat.ofDigits_inj_of_len_eq (b := 256) (by norm_num)
    (by rw [List.length_map, List.length_map, hlen]) (byte_lt xs) (byte_lt ys) h
  exact List.map_injective_iff.mpr (fun a b => UInt8.toNat_inj.mp) hmap

theorem bytesValue_byte {bytes : List UInt8} {i : Nat} (hi : i < bytes.length) :
    bytesValue bytes / 256 ^ i % 256 = (bytes[i]).toNat := by
  have hdrop := Nat.ofDigits_div_pow_eq_ofDigits_drop i (by norm_num) _ (byte_lt bytes)
  rw [bytesValue, hdrop, ← List.map_drop, List.drop_eq_getElem_cons hi, List.map_cons,
    Nat.ofDigits_cons, Nat.add_mul_mod_self_left, Nat.mod_eq_of_lt (UInt8.toNat_lt _)]

end LiberaCrypt.Radix
