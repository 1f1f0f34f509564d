import Mathlib.Tactic

namespace LiberaCrypt.ExtendedEuclid

/-- Two remainders of the Euclidean algorithm that follow each other, each with its coefficient of
the second operand. -/
@[ext] structure Rows where
  t : Int
  newT : Int
  r : Int
  newR : Int

def start (a m : Int) : Rows := ⟨0, 1, m, a⟩

def Rows.next (s : Rows) : Rows :=
  ⟨s.newT, s.t - s.r / s.newR * s.newT, s.newR, s.r - s.r / s.newR * s.newR⟩

/-- What every round keeps. The coefficients alternate in sign, so that the sum of the products
crosswise stays `m` when absolute values are taken. -/
structure Keeps (a m : Int) (s : Rows) : Prop where
  r_pos : 0 < s.r
  newR_nonneg : 0 ≤ s.newR
  gcd_eq : Int.gcd s.r s.newR = Int.gcd m a
  r_congr : s.t * a ≡ s.r [ZMOD m]
  newR_congr : s.newT * a ≡ s.newR [ZMOD m]
  opposed : s.t * s.newT ≤ 0
  crossed : |s.newT| * s.r + |s.t| * s.newR = m
  t_le : |s.t| ≤ m

variable {a m b q t u : Int} {s : Rows}

theorem abs_sub_mul_of_opposed (hopposed : t * u ≤ 0) (hq : 0 ≤ q) :
    |t - q * u| = |t| + q * |u| := by
  rcases mul_nonpos_iff.mp hopposed with ⟨ht, hu⟩ | ⟨ht, hu⟩
  · have hqu := mul_nonneg hq (neg_nonneg.mpr hu)
    rw [abs_of_nonneg ht, abs_of_nonpos hu, abs_of_nonneg (by linarith)]
    ring
  · have hqu := mul_nonneg hq hu
    rw [abs_of_nonpos ht, abs_of_nonneg hu, abs_of_nonpos (by linarith)]
    ring

theorem start_keeps (ha : 0 ≤ a) (hm : 0 < m) : Keeps a m (start a m) where
  r_pos := hm
  newR_nonneg := ha
  gcd_eq := rfl
  r_congr := by
    rw [start, zero_mul]
    exact (Int.modEq_zero_iff_dvd.mpr dvd_rfl).symm
  newR_congr := by
    rw [start, one_mul]
  opposed := by simp [start]
  crossed := by simp [start]
  t_le := by simpa [start] using hm.le

theorem Keeps.newT_le (h : Keeps a m s) : |s.newT| ≤ m := by
  have hone := mul_le_mul_of_nonneg_left (Int.add_one_le_of_lt h.r_pos) (abs_nonneg s.newT)
  have hrest := mul_nonneg (abs_nonneg s.t) h.newR_nonneg
  have hcrossed := h.crossed
  linarith

theorem Keeps.quotient_nonneg (h : Keeps a m s) : 0 ≤ s.r / s.newR :=
  Int.ediv_nonneg h.r_pos.le h.newR_nonneg

theorem Keeps.next_newT (h : Keeps a m s) :
    |s.next.newT| = |s.t| + s.r / s.newR * |s.newT| :=
  abs_sub_mul_of_opposed h.opposed h.quotient_nonneg

theorem next_newR : s.next.newR = s.r % s.newR := by
  rw [Int.emod_def, mul_comm]
  rfl

section Round

variable (h : Keeps a m s) (hne : s.newR ≠ 0)

include h hne

theorem Keeps.newR_pos : 0 < s.newR := lt_of_le_of_ne h.newR_nonneg hne.symm

theorem Keeps.next : Keeps a m s.next where
  r_pos := h.newR_pos hne
  newR_nonneg := by
    rw [next_newR]
    exact Int.emod_nonneg _ hne
  gcd_eq := by
    rw [← h.gcd_eq, Rows.next, Int.gcd_sub_mul_right_right, Int.gcd_comm]
  r_congr := h.newR_congr
  newR_congr := by
    have hproduct := h.newR_congr.mul_left (s.r / s.newR)
    rw [← mul_assoc] at hproduct
    rw [Rows.next, sub_mul]
    exact h.r_congr.sub hproduct
  opposed := by
    have hsquare := mul_nonneg h.quotient_nonneg (mul_self_nonneg s.newT)
    have hopposed := h.opposed
    rw [Rows.next]
    linarith
  crossed := by
    rw [h.next_newT, ← h.crossed, Rows.next]
    ring
  t_le := h.newT_le

theorem Keeps.next_lt : s.next.newR < s.newR := by
  rw [next_newR]
  exact Int.emod_lt_of_pos _ (h.newR_pos hne)

theorem Keeps.quotient_mul_newT : |s.r / s.newR * s.newT| ≤ m := by
  have hnext := (h.next hne).newT_le
  rw [h.next_newT] at hnext
  rw [abs_mul, abs_of_nonneg h.quotient_nonneg]
  have habs := abs_nonneg s.t
  linarith

end Round

theorem Keeps.r_eq_gcd (h : Keeps a m s) (hend : s.newR = 0) : s.r = Int.gcd m a := by
  rw [← h.gcd_eq, hend, Int.gcd_zero_right, Int.natCast_natAbs, abs_of_pos h.r_pos]

def residue (m t : Int) : Int := if t < 0 then t + m else t

theorem residue_mem (ht : |t| ≤ m) : 0 ≤ residue m t ∧ residue m t ≤ m := by
  have hbounds := abs_le.mp ht
  unfold residue
  split <;> omega

theorem residue_congr : residue m t ≡ t [ZMOD m] := by
  unfold residue
  split
  · exact Int.add_modEq_right
  · rfl

/-- A multiple of the modulus has no inverse, which leaves the ends of the range out. -/
theorem Keeps.inverse (h : Keeps a m s) (hm : 2 ≤ m) (hone : s.r = 1) :
    0 < residue m s.t ∧ residue m s.t < m ∧ residue m s.t * a ≡ 1 [ZMOD m] := by
  have hinverse : residue m s.t * a ≡ 1 [ZMOD m] := by
    have hcongr := h.r_congr
    rw [hone] at hcongr
    exact (residue_congr.mul_right a).trans hcongr
  have hmultiple : ¬ m ∣ residue m s.t := by
    intro hdvd
    have hzero := (Int.modEq_zero_iff_dvd.mpr (hdvd.mul_right a)).symm.trans hinverse
    have hle := Int.le_of_dvd one_pos (Int.modEq_zero_iff_dvd.mp hzero.symm)
    omega
  obtain ⟨hlow, hhigh⟩ := residue_mem h.t_le
  refine ⟨lt_of_le_of_ne hlow ?_, lt_of_le_of_ne hhigh ?_, hinverse⟩
  · intro hzero
    exact hmultiple (hzero ▸ dvd_zero m)
  · intro heq
    exact hmultiple (dvd_of_eq heq.symm)

end LiberaCrypt.ExtendedEuclid
