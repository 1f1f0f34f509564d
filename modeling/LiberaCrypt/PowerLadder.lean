import Mathlib.Algebra.Group.Basic
import Mathlib.FieldTheory.Finite.Basic
import Mathlib.Tactic

namespace LiberaCrypt.PowerLadder

variable {G : Type*} [Monoid G] (x : G) {e i l : Nat}

theorem halve (e i : Nat) : e / 2 ^ i = 2 * (e / 2 ^ (i + 1)) + e / 2 ^ i % 2 := by
  rw [pow_succ, ← Nat.div_div_eq_div_mul, Nat.div_add_mod]

theorem step_clear (h : e / 2 ^ i % 2 = 0) :
    x ^ (e / 2 ^ (i + 1)) * x ^ (e / 2 ^ (i + 1)) = x ^ (e / 2 ^ i) := by
  rw [halve e i, h]
  generalize e / 2 ^ (i + 1) = q
  rw [Nat.add_zero, two_mul, pow_add]

theorem step_set (h : e / 2 ^ i % 2 = 1) :
    x ^ (e / 2 ^ (i + 1)) * x ^ (e / 2 ^ (i + 1)) * x = x ^ (e / 2 ^ i) := by
  rw [halve e i, h]
  generalize e / 2 ^ (i + 1) = q
  rw [two_mul, pow_succ, pow_add]

/-- A window of bits `l .. i - 1` is squared over and multiplied in at once. -/
theorem step_window (h : l ≤ i) :
    (x ^ (e / 2 ^ i)) ^ 2 ^ (i - l) * x ^ (e / 2 ^ l % 2 ^ (i - l)) = x ^ (e / 2 ^ l) := by
  have hpow : 2 ^ i = 2 ^ l * 2 ^ (i - l) := by
    rw [← pow_add, Nat.add_sub_cancel' h]
  rw [← pow_mul, ← pow_add, hpow, ← Nat.div_div_eq_div_mul, Nat.div_add_mod']

/-- From the lowest bit up, with the repeated squares of the base beside the result. -/
theorem step_low (e i : Nat) :
    x ^ (e % 2 ^ i) * (x ^ 2 ^ i) ^ (e / 2 ^ i % 2) = x ^ (e % 2 ^ (i + 1)) := by
  rw [← pow_mul, ← pow_add, pow_succ, Nat.mod_mul]

theorem square_low (i : Nat) : x ^ 2 ^ i * x ^ 2 ^ i = x ^ 2 ^ (i + 1) := by
  rw [← pow_add, pow_succ, Nat.mul_two]

theorem odd_power (k : Nat) : x ^ (2 * k + 1) * (x * x) = x ^ (2 * (k + 1) + 1) := by
  rw [← pow_two, ← pow_add]
  congr 1

theorem start (h : e < 2 ^ i) : x ^ (e / 2 ^ i) = 1 := by
  rw [Nat.div_eq_of_lt h, pow_zero]

end LiberaCrypt.PowerLadder

namespace LiberaCrypt.FermatExponent

variable {p q m : Nat}

theorem pow_modEq_self (hp : p.Prime) (hm : 0 < m) (h : m ≡ 1 [MOD p - 1]) (x : Nat) :
    x ^ m ≡ x [MOD p] := by
  have : Fact p.Prime := ⟨hp⟩
  rw [← ZMod.natCast_eq_natCast_iff, Nat.cast_pow]
  by_cases hzero : (x : ZMod p) = 0
  · rw [hzero, zero_pow hm.ne']
  · obtain ⟨k, hk⟩ := (Nat.modEq_iff_dvd' hm).mp h.symm
    have hexponent : m = 1 + (p - 1) * k := by omega
    rw [hexponent, pow_add, pow_one, pow_mul, ZMod.pow_card_sub_one_eq_one hzero, one_pow, mul_one]

/-- The same modulo a product of two primes, for the multiples of either prime too. -/
theorem pow_mul_modEq_self (hp : p.Prime) (hq : q.Prime) (hne : p ≠ q) (hm : 0 < m)
    (h : m ≡ 1 [MOD (p - 1) * (q - 1)]) (x : Nat) : x ^ m ≡ x [MOD p * q] := by
  rw [← Nat.modEq_and_modEq_iff_modEq_mul ((Nat.coprime_primes hp hq).mpr hne)]
  exact ⟨pow_modEq_self hp hm (h.of_mul_right _) x, pow_modEq_self hq hm (h.of_mul_left _) x⟩

end LiberaCrypt.FermatExponent
