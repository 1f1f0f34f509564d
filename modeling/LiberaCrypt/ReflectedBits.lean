import Mathlib.Algebra.CharP.Two
import Mathlib.FieldTheory.Finite.Extension
import Mathlib.Tactic

namespace LiberaCrypt.ReflectedBits

open Finset

variable {R : Type*} [CommRing R] (α : R) (w : Nat)

/-- The bits of a number of `w` bits as coefficients of the powers of `α`, the highest bit as the
lowest one. -/
def reflected (n : Nat) : R := ∑ i ∈ range w, if n.testBit (w - 1 - i) then α ^ i else 0

@[simp] theorem reflected_zero : reflected α w 0 = 0 := by
  simp [reflected]

theorem reflected_two_pow {k : Nat} (hk : k < w) : reflected α w (2 ^ (w - 1 - k)) = α ^ k := by
  rw [reflected, sum_eq_single k]
  · rw [Nat.testBit_two_pow_self, if_pos rfl]
  · intro i hi hne
    have hi := mem_range.mp hi
    rw [Nat.testBit_two_pow_of_ne (by omega), if_neg Bool.false_ne_true]
  · intro h
    exact absurd (mem_range.mpr hk) h

theorem reflected_half {n : Nat} (hn : n < 2 ^ w) :
    α * reflected α w n = reflected α w (n / 2) + if n.testBit 0 then α ^ w else 0 := by
  cases w with
  | zero =>
    rw [pow_zero, Nat.lt_one_iff] at hn
    simp [hn, reflected]
  | succ w =>
    have htop : n.testBit (w + 1) = false := Nat.testBit_lt_two_pow hn
    have hup : α * reflected α (w + 1) n =
        ∑ i ∈ range (w + 1), if n.testBit (w - i) then α ^ (i + 1) else 0 := by
      rw [reflected, mul_sum]
      apply sum_congr rfl
      intro i _
      rw [mul_ite, mul_zero, ← pow_succ', Nat.add_sub_cancel]
    have hdown : reflected α (w + 1) (n / 2) =
        ∑ i ∈ range w, if n.testBit (w - i) then α ^ (i + 1) else 0 := by
      rw [reflected, sum_range_succ', Nat.testBit_div_two, Nat.add_sub_cancel, Nat.sub_zero, htop,
        if_neg Bool.false_ne_true, add_zero]
      apply sum_congr rfl
      intro i hi
      have hindex : w - (i + 1) + 1 = w - i := by
        have := mem_range.mp hi
        omega
      rw [Nat.testBit_div_two, hindex]
    rw [hup, hdown, sum_range_succ, Nat.sub_self]

section Two

variable [CharP R 2]

theorem reflected_xor (m n : Nat) :
    reflected α w (m ^^^ n) = reflected α w m + reflected α w n := by
  rw [reflected, reflected, reflected, ← sum_add_distrib]
  apply sum_congr rfl
  intro i _
  rw [Nat.testBit_xor]
  cases m.testBit (w - 1 - i) <;> cases n.testBit (w - 1 - i) <;> simp [CharTwo.add_self_eq_zero]

/-- One place down, reduced by the constant that stands for `α ^ w`. -/
def timesAlpha (constant n : Nat) : Nat := n / 2 ^^^ if n.testBit 0 then constant else 0

def multiplied (constant x : Nat) : Nat → Nat × Nat → Nat × Nat
  | 0, state => state
  | k + 1, state =>
    let (z, v) := multiplied constant x k state
    (z ^^^ if x.testBit (w - 1 - k) then v else 0, timesAlpha constant v)

variable {constant : Nat}

theorem timesAlpha_lt {n : Nat} (hconstant : constant < 2 ^ w) (hn : n < 2 ^ w) :
    timesAlpha constant n < 2 ^ w := by
  apply Nat.xor_lt_two_pow (lt_of_le_of_lt (Nat.div_le_self n 2) hn)
  cases n.testBit 0
  · exact Nat.two_pow_pos w
  · exact hconstant

theorem reflected_timesAlpha {n : Nat} (hconstant : reflected α w constant = α ^ w)
    (hn : n < 2 ^ w) : reflected α w (timesAlpha constant n) = α * reflected α w n := by
  rw [timesAlpha, reflected_xor, reflected_half α w hn]
  cases n.testBit 0
  · rw [if_neg Bool.false_ne_true, if_neg Bool.false_ne_true, reflected_zero]
  · rw [if_pos rfl, if_pos rfl, hconstant]

/-- After `k` bits: the part of the product they make, and the other factor times `α ^ k`. -/
theorem multiplied_part (hlt : constant < 2 ^ w) (hconstant : reflected α w constant = α ^ w)
    {x h : Nat} (hh : h < 2 ^ w) (k : Nat) :
    (multiplied w constant x k (0, h)).1 < 2 ^ w ∧ (multiplied w constant x k (0, h)).2 < 2 ^ w ∧
      reflected α w (multiplied w constant x k (0, h)).1 =
        (∑ i ∈ range k, if x.testBit (w - 1 - i) then α ^ i else 0) * reflected α w h ∧
      reflected α w (multiplied w constant x k (0, h)).2 = α ^ k * reflected α w h := by
  induction k with
  | zero =>
    refine ⟨Nat.two_pow_pos w, hh, ?_, ?_⟩
    · rw [multiplied, reflected_zero, range_zero, sum_empty, zero_mul]
    · rw [multiplied, pow_zero, one_mul]
  | succ k ih =>
    obtain ⟨hz, hv, hzValue, hvValue⟩ := ih
    refine ⟨?_, timesAlpha_lt w hlt hv, ?_, ?_⟩
    · apply Nat.xor_lt_two_pow hz
      cases x.testBit (w - 1 - k)
      · exact Nat.two_pow_pos w
      · exact hv
    · rw [multiplied]
      dsimp only
      rw [reflected_xor, hzValue, sum_range_succ, add_mul]
      congr 1
      cases x.testBit (w - 1 - k)
      · rw [if_neg Bool.false_ne_true, if_neg Bool.false_ne_true, reflected_zero, zero_mul]
      · rw [if_pos rfl, if_pos rfl, hvValue]
    · rw [multiplied]
      dsimp only
      rw [reflected_timesAlpha α w hconstant hv, hvValue, pow_succ', mul_assoc]

theorem multiplied_eq (hlt : constant < 2 ^ w) (hconstant : reflected α w constant = α ^ w)
    {x h : Nat} (hh : h < 2 ^ w) :
    (multiplied w constant x w (0, h)).1 < 2 ^ w ∧
      reflected α w (multiplied w constant x w (0, h)).1 =
        reflected α w x * reflected α w h := by
  obtain ⟨hz, -, hvalue, -⟩ := multiplied_part α w hlt hconstant (x := x) hh w
  exact ⟨hz, hvalue⟩

end Two

theorem horner_sum (y : R) (xs : List R) :
    xs.foldl (fun y x => (y + x) * α) y = y * α ^ xs.length +
      ∑ i ∈ range xs.length, xs.getD i 0 * α ^ (xs.length - i) := by
  induction xs generalizing y with
  | nil => simp
  | cons x xs ih =>
    rw [List.foldl_cons, ih, List.length_cons, sum_range_succ']
    simp only [List.getD_cons_succ, List.getD_cons_zero, Nat.add_sub_add_right, Nat.sub_zero]
    ring

end LiberaCrypt.ReflectedBits

namespace LiberaCrypt.FrobeniusTest

open Polynomial

variable {K : Type*} [Field K] [Finite K] {p g : K[X]} {k : Nat}

/-- A factor that the Frobenius map goes round in half the way is none of `p`. -/
theorem not_dvd_of_coprime (hhalf : IsCoprime (X ^ Nat.card K ^ 2 ^ k - X) p)
    (hg : Irreducible g) (hdvd : g ∣ p) : ¬ g.natDegree ∣ 2 ^ k := by
  intro h
  have hfrobenius := hg.natDegree_dvd_iff_dvd_X_pow_card_pow_sub_X.mp h
  exact hg.not_isUnit (hhalf.isUnit_of_dvd' hfrobenius hdvd)

/-- A polynomial whose degree is a power of two is irreducible when the Frobenius map goes round
in the whole degree, and on no factor in half of it. -/
theorem irreducible_of_frobenius (hp : p ≠ 0) (hdegree : p.natDegree = 2 ^ (k + 1))
    (hround : p ∣ X ^ Nat.card K ^ 2 ^ (k + 1) - X)
    (hhalf : IsCoprime (X ^ Nat.card K ^ 2 ^ k - X) p) : Irreducible p := by
  have hunit : ¬ IsUnit p := by
    intro h
    have hzero := natDegree_eq_zero_of_isUnit h
    rw [hdegree] at hzero
    exact absurd hzero (Nat.two_pow_pos _).ne'
  obtain ⟨g, hg, hdvd⟩ := WfDvdMonoid.exists_irreducible_factor hunit hp
  have hpower : g.natDegree ∣ 2 ^ (k + 1) :=
    hg.natDegree_dvd_of_dvd_X_pow_card_pow_sub_X (hdvd.trans hround)
  obtain ⟨j, hj, hvalue⟩ := (Nat.dvd_prime_pow Nat.prime_two).mp hpower
  have hlast : j = k + 1 := by
    by_contra hne
    apply not_dvd_of_coprime hhalf hg hdvd
    rw [hvalue]
    exact pow_dvd_pow 2 (by omega)
  have hassociated : Associated g p :=
    associated_of_dvd_of_natDegree_le hdvd hp (by rw [hdegree, hvalue, hlast])
  exact hassociated.irreducible hg

end LiberaCrypt.FrobeniusTest
