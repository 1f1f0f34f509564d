import LiberaCrypt.ReflectedBits
import Mathlib.RingTheory.AdjoinRoot

namespace LiberaCrypt.GcmField

open LiberaCrypt.FrobeniusTest LiberaCrypt.ReflectedBits Polynomial

noncomputable def lowerTerms : (ZMod 2)[X] := X ^ 7 + X ^ 2 + X + 1

@[irreducible] noncomputable def gcmPolynomial : (ZMod 2)[X] := X ^ 128 + lowerTerms

theorem gcmPolynomial_eq : gcmPolynomial = X ^ 128 + lowerTerms := by
  delta gcmPolynomial
  exact Eq.refl _

theorem lowerTerms_degree : lowerTerms.degree < (128 : Nat) := by
  have hle : lowerTerms.degree ≤ (7 : Nat) := by
    rw [lowerTerms]
    compute_degree
    exact le_refl 7
  exact hle.trans_lt (Nat.cast_lt.mpr (by decide))

theorem gcmPolynomial_natDegree : gcmPolynomial.natDegree = 128 := by
  rw [gcmPolynomial_eq, natDegree_add_eq_left_of_degree_lt, natDegree_X_pow]
  rw [degree_X_pow]
  exact lowerTerms_degree

theorem gcmPolynomial_monic : gcmPolynomial.Monic := by
  rw [gcmPolynomial_eq]
  exact monic_X_pow_add lowerTerms_degree

theorem gcmPolynomial_ne_zero : gcmPolynomial ≠ 0 := gcmPolynomial_monic.ne_zero

abbrev Gf128 : Type := AdjoinRoot gcmPolynomial

noncomputable abbrev alpha : Gf128 := AdjoinRoot.root gcmPolynomial

theorem gcmPolynomial_degree_ne_zero : gcmPolynomial.degree ≠ 0 := by
  intro h
  have := gcmPolynomial_natDegree
  rw [natDegree_eq_of_degree_eq_some h] at this
  cases this

instance gcmFieldCharP : CharP Gf128 2 :=
  charP_of_injective_algebraMap (AdjoinRoot.of.injective_of_degree_ne_zero
    gcmPolynomial_degree_ne_zero) 2

/-- The bytes `0xe1, 0, …`, as a number. -/
def reduction : Nat := 0xe1 * 2 ^ 120

theorem alpha_pow : alpha ^ 128 = 1 + alpha + alpha ^ 2 + alpha ^ 7 := by
  have hroot : alpha ^ 128 + (alpha ^ 7 + alpha ^ 2 + alpha + 1) = 0 := by
    have h : AdjoinRoot.mk gcmPolynomial (X ^ 128 + lowerTerms) = 0 := by
      rw [← gcmPolynomial_eq]
      exact AdjoinRoot.mk_self
    rwa [lowerTerms, map_add, map_add, map_add, map_add, map_pow, map_pow, map_pow, map_one,
      AdjoinRoot.mk_X] at h
  have hsum : 1 + alpha + alpha ^ 2 + alpha ^ 7 = alpha ^ 7 + alpha ^ 2 + alpha + 1 := by abel
  rw [hsum]
  exact CharTwo.add_eq_zero.mp hroot

theorem reflected_reduction : reflected alpha 128 reduction = alpha ^ 128 := by
  have hbits : reduction = 2 ^ (128 - 1 - 0) ^^^ 2 ^ (128 - 1 - 1) ^^^ 2 ^ (128 - 1 - 2) ^^^
      2 ^ (128 - 1 - 7) := by decide +kernel
  rw [hbits, reflected_xor, reflected_xor, reflected_xor, reflected_two_pow _ _ (by decide),
    reflected_two_pow _ _ (by decide), reflected_two_pow _ _ (by decide),
    reflected_two_pow _ _ (by decide), alpha_pow, pow_zero, pow_one]

noncomputable def element (n : Nat) : Gf128 := reflected alpha 128 n

def multiply (x h : Nat) : Nat := (multiplied 128 reduction x 128 (0, h)).1

theorem multiply_spec {h : Nat} (hh : h < 2 ^ 128) (x : Nat) :
    multiply x h < 2 ^ 128 ∧ element (multiply x h) = element x * element h :=
  multiplied_eq alpha 128 (by decide) reflected_reduction hh

theorem element_xor (m n : Nat) : element (m ^^^ n) = element m + element n :=
  reflected_xor alpha 128 m n

theorem element_zero : element 0 = 0 := reflected_zero alpha 128

theorem element_one : element (2 ^ 127) = 1 := by
  rw [element, reflected_two_pow alpha 128 (k := 0) (by decide), pow_zero]

theorem element_alpha : element (2 ^ 126) = alpha := by
  rw [element, reflected_two_pow alpha 128 (k := 1) (by decide), pow_one]

noncomputable def bitsPolynomial (n : Nat) : (ZMod 2)[X] :=
  ∑ i ∈ Finset.range 128, if n.testBit (127 - i) then X ^ i else 0

theorem mk_bitsPolynomial (n : Nat) : AdjoinRoot.mk gcmPolynomial (bitsPolynomial n) = element n := by
  rw [element, reflected, bitsPolynomial, map_sum]
  apply Finset.sum_congr rfl
  intro i _
  rw [apply_ite (AdjoinRoot.mk gcmPolynomial), map_zero, map_pow, AdjoinRoot.mk_X]

theorem bitsPolynomial_coeff (n : Nat) {k : Nat} (hk : k < 128) :
    (bitsPolynomial n).coeff k = if n.testBit (127 - k) then 1 else 0 := by
  rw [bitsPolynomial, finsetSum_coeff, Finset.sum_eq_single k]
  · cases n.testBit (127 - k) <;> simp
  · intro i _ hne
    cases n.testBit (127 - i) <;> simp [coeff_X_pow, Ne.symm hne]
  · intro h
    exact absurd (Finset.mem_range.mpr hk) h

theorem bitsPolynomial_degree (n : Nat) : (bitsPolynomial n).degree < gcmPolynomial.degree := by
  rw [degree_eq_natDegree gcmPolynomial_ne_zero, gcmPolynomial_natDegree, bitsPolynomial]
  apply (degree_sum_le _ _).trans_lt
  rw [Finset.sup_lt_iff (WithBot.bot_lt_coe 128)]
  intro i hi
  have hlt := Finset.mem_range.mp hi
  cases n.testBit (127 - i)
  · rw [if_neg Bool.false_ne_true, degree_zero]
    exact WithBot.bot_lt_coe 128
  · rw [if_pos rfl, degree_X_pow]
    exact Nat.cast_lt.mpr hlt

theorem sub_degree_lt {p q : (ZMod 2)[X]} {d : WithBot Nat} (hp : p.degree < d)
    (hq : q.degree < d) : (p - q).degree < d := (degree_sub_le p q).trans_lt (max_lt hp hq)

theorem element_injective {m n : Nat} (hm : m < 2 ^ 128) (hn : n < 2 ^ 128)
    (h : element m = element n) : m = n := by
  rw [← mk_bitsPolynomial, ← mk_bitsPolynomial, AdjoinRoot.mk_eq_mk] at h
  have hzero : bitsPolynomial m - bitsPolynomial n = 0 := by
    by_contra hne
    have hlt := sub_degree_lt (bitsPolynomial_degree m) (bitsPolynomial_degree n)
    exact absurd (degree_le_of_dvd h hne) (not_le.mpr hlt)
  apply Nat.eq_of_testBit_eq
  intro j
  by_cases hj : j < 128
  · have hindex : 127 - (127 - j) = j := by omega
    have hbit : (bitsPolynomial m).coeff (127 - j) = (bitsPolynomial n).coeff (127 - j) :=
      congrArg (fun p => coeff p (127 - j)) (sub_eq_zero.mp hzero)
    rw [bitsPolynomial_coeff m (by omega), bitsPolynomial_coeff n (by omega), hindex] at hbit
    cases hmj : m.testBit j <;> cases hnj : n.testBit j <;> simp_all
  · have hle : 2 ^ 128 ≤ 2 ^ j := Nat.pow_le_pow_right (by decide) (not_lt.mp hj)
    rw [Nat.testBit_lt_two_pow (hm.trans_le hle), Nat.testBit_lt_two_pow (hn.trans_le hle)]

def square (n : Nat) : Nat := multiply n n

theorem element_square {n : Nat} (hn : n < 2 ^ 128) (k : Nat) :
    square^[k] n < 2 ^ 128 ∧ element (square^[k] n) = element n ^ 2 ^ k := by
  induction k with
  | zero => exact ⟨hn, by rw [pow_zero, pow_one, Function.iterate_zero_apply]⟩
  | succ k ih =>
    obtain ⟨hlt, hvalue⟩ := ih
    obtain ⟨hlt', hvalue'⟩ := multiply_spec hlt (square^[k] n)
    rw [Function.iterate_succ_apply']
    refine ⟨hlt', ?_⟩
    rw [square, hvalue', hvalue, ← pow_two, ← pow_mul, pow_succ]

/-- Half of the way round: `α` to the power `2 ^ 64`. -/
def halfway : Nat := 0x6f9945a9e519a7229d4c1ad657f8a686

/-- The inverse of what is left when `α` is taken from it. -/
def certificate : Nat := 0x180da934bf53158251c13dbb149f5279

theorem alpha_halfway {n : Nat} (hn : n = 64) : alpha ^ 2 ^ n = element halfway := by
  have hrun : square^[64] (2 ^ 126) = halfway := by decide +kernel
  rw [hn, ← hrun, (element_square (by decide) 64).2, element_alpha]

theorem alpha_round {n : Nat} (hn : n = 128) : alpha ^ 2 ^ n = alpha := by
  have hrun : square^[64] halfway = 2 ^ 126 := by decide +kernel
  have hsplit : n = 64 + 64 := hn
  rw [hsplit, pow_add, pow_mul, alpha_halfway rfl, ← (element_square (by decide) 64).2, hrun,
    element_alpha]

theorem halfway_certificate : (element halfway - alpha) * element certificate = 1 := by
  have hrun : multiply (halfway ^^^ 2 ^ 126) certificate = 2 ^ 127 := by decide +kernel
  rw [CharTwo.sub_eq_add, ← element_alpha, ← element_xor, ← (multiply_spec (by decide) _).2, hrun,
    element_one]

theorem mk_frobenius (e : Nat) : AdjoinRoot.mk gcmPolynomial (X ^ e - X) = alpha ^ e - alpha := by
  rw [map_sub, map_pow, AdjoinRoot.mk_X]

theorem dvd_round {n : Nat} (hn : n = 128) : gcmPolynomial ∣ X ^ Nat.card (ZMod 2) ^ n - X := by
  rw [Nat.card_zmod, ← AdjoinRoot.mk_eq_zero, mk_frobenius, alpha_round hn, sub_self]

theorem coprime_halfway {n : Nat} (hn : n = 64) :
    IsCoprime (X ^ Nat.card (ZMod 2) ^ n - X) gcmPolynomial := by
  have hone : gcmPolynomial ∣ 1 - (X ^ 2 ^ n - X) * bitsPolynomial certificate := by
    rw [← AdjoinRoot.mk_eq_zero, map_sub, map_mul, mk_frobenius, alpha_halfway hn,
      mk_bitsPolynomial, halfway_certificate, map_one, sub_self]
  obtain ⟨rest, hrest⟩ := hone
  refine ⟨bitsPolynomial certificate, rest, ?_⟩
  rw [Nat.card_zmod, mul_comm rest, ← hrest, mul_comm (bitsPolynomial certificate), add_sub_cancel]

theorem gcmPolynomial_irreducible : Irreducible gcmPolynomial :=
  irreducible_of_frobenius (k := 6) gcmPolynomial_ne_zero
    (gcmPolynomial_natDegree.trans (by norm_num)) (dvd_round (by norm_num))
    (coprime_halfway (by norm_num))

end LiberaCrypt.GcmField
