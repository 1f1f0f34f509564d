import Mathlib.Tactic

namespace LiberaCrypt.QuotientEstimate

/-- A divisor seen through its two highest digits to base `W`, and a dividend through its three
highest; `B` is the weight of the lowest of these. -/
structure Window (W : Nat) where
  B : Nat
  v1 : Nat
  v2 : Nat
  low : Nat
  u0 : Nat
  u1 : Nat
  u2 : Nat
  rest : Nat
  v1_pos : 0 < v1
  v2_lt : v2 < W
  u1_lt : u1 < W
  u2_lt : u2 < W
  low_lt : low < B
  rest_lt : rest < B

namespace Window

variable {W : Nat} (w : Window W)

def divisor : Nat := (w.v1 * W + w.v2) * w.B + w.low

def dividend : Nat := ((w.u0 * W + w.u1) * W + w.u2) * w.B + w.rest

def Estimates (q r : Nat) : Prop := w.u0 * W + w.u1 = q * w.v1 + r

variable {w} {q r : Nat}

theorem first_estimate (w : Window W) :
    w.dividend < ((w.u0 * W + w.u1) / w.v1 + 1) * w.divisor := by
  have hrest := w.rest_lt
  have hnum : w.u0 * W + w.u1 + 1 ≤ ((w.u0 * W + w.u1) / w.v1 + 1) * w.v1 := by
    have hdiv := Nat.lt_mul_div_succ (w.u0 * W + w.u1) w.v1_pos
    rw [Nat.mul_comm _ w.v1]
    exact hdiv
  have hdividend : w.dividend < (w.u0 * W + w.u1 + 1) * (W * w.B) := by
    have hmul : ((w.u0 * W + w.u1) * W + w.u2 + 1) * w.B ≤ (w.u0 * W + w.u1 + 1) * (W * w.B) := by
      rw [← Nat.mul_assoc]
      apply Nat.mul_le_mul_right
      have hu2 := w.u2_lt
      rw [Nat.succ_mul]
      omega
    unfold dividend
    rw [Nat.succ_mul] at hmul
    omega
  have hdivisor : w.v1 * (W * w.B) ≤ w.divisor := by
    unfold divisor
    nlinarith only [Nat.zero_le (w.v2 * w.B), Nat.zero_le w.low]
  calc w.dividend < (w.u0 * W + w.u1 + 1) * (W * w.B) := hdividend
    _ ≤ ((w.u0 * W + w.u1) / w.v1 + 1) * w.v1 * (W * w.B) := Nat.mul_le_mul_right _ hnum
    _ ≤ ((w.u0 * W + w.u1) / w.v1 + 1) * w.divisor := by
        rw [Nat.mul_assoc]
        exact Nat.mul_le_mul_left _ hdivisor

theorem first_estimate_le (hnormal : W ≤ 2 * w.v1) (hu : w.u0 ≤ w.v1) :
    ((w.u0 * W + w.u1) / w.v1 - 2) * w.divisor ≤ w.dividend := by
  have hu1 := w.u1_lt
  have hdiv := Nat.div_mul_le_self (w.u0 * W + w.u1) w.v1
  have hdivisor : w.divisor ≤ (w.v1 + 1) * (W * w.B) := by
    have hmul : (w.v1 * W + w.v2 + 1) * w.B ≤ (w.v1 + 1) * W * w.B := by
      have hv2 := w.v2_lt
      apply Nat.mul_le_mul_right
      rw [Nat.succ_mul]
      omega
    have hlow := w.low_lt
    unfold divisor
    rw [Nat.succ_mul] at hmul
    rw [← Nat.mul_assoc]
    omega
  generalize (w.u0 * W + w.u1) / w.v1 = q at *
  have hq : q ≤ W + 1 := by
    by_contra hgt
    rw [not_le] at hgt
    have hlarge : (W + 2) * w.v1 ≤ q * w.v1 := Nat.mul_le_mul_right _ hgt
    have htop : w.u0 * W ≤ w.v1 * W := Nat.mul_le_mul_right _ hu
    rw [Nat.add_mul, Nat.mul_comm W] at hlarge
    omega
  have hscaled : (q - 2) * (w.v1 + 1) ≤ w.u0 * W + w.u1 := by
    rcases Nat.lt_or_ge q 2 with hsmall | hlarge
    · rw [Nat.sub_eq_zero_of_le hsmall.le, Nat.zero_mul]
      exact Nat.zero_le _
    · obtain ⟨d, rfl⟩ := Nat.exists_eq_add_of_le hlarge
      rw [Nat.add_sub_cancel_left, Nat.mul_succ]
      rw [Nat.add_mul] at hdiv
      omega
  calc (q - 2) * w.divisor ≤ (q - 2) * ((w.v1 + 1) * (W * w.B)) := Nat.mul_le_mul_left _ hdivisor
    _ = (q - 2) * (w.v1 + 1) * (W * w.B) := (Nat.mul_assoc _ _ _).symm
    _ ≤ (w.u0 * W + w.u1) * (W * w.B) := Nat.mul_le_mul_right _ hscaled
    _ ≤ w.dividend := by
        unfold dividend
        rw [Nat.add_mul ((w.u0 * W + w.u1) * W), ← Nat.mul_assoc]
        omega

theorem Estimates.too_large (h : w.Estimates q r) (htest : r * W + w.u2 < q * w.v2) :
    w.dividend < q * w.divisor := by
  have hrest := w.rest_lt
  have htop : (w.u0 * W + w.u1) * W + w.u2 + 1 ≤ q * (w.v1 * W + w.v2) := by
    rw [h]
    nlinarith only [htest]
  have hmul := Nat.mul_le_mul_right w.B htop
  calc w.dividend < ((w.u0 * W + w.u1) * W + w.u2 + 1) * w.B := by
        unfold dividend
        rw [Nat.succ_mul]
        omega
    _ ≤ q * (w.v1 * W + w.v2) * w.B := hmul
    _ ≤ q * w.divisor := by
        unfold divisor
        rw [Nat.mul_assoc]
        exact Nat.mul_le_mul_left _ (Nat.le_add_right _ _)

theorem Estimates.at_most_one (h : w.Estimates q r) (hq : q < W)
    (htest : q * w.v2 ≤ r * W + w.u2) : q * w.divisor ≤ w.dividend + w.divisor := by
  have hlow : q * w.low ≤ W * w.B := Nat.mul_le_mul hq.le w.low_lt.le
  have hdivisor : W * w.B ≤ w.divisor := by
    have hv1 : 1 * (W * w.B) ≤ w.v1 * (W * w.B) := Nat.mul_le_mul_right _ w.v1_pos
    unfold divisor
    nlinarith only [hv1]
  have htop : q * (w.v1 * W + w.v2) ≤ (w.u0 * W + w.u1) * W + w.u2 := by
    rw [h]
    nlinarith only [htest]
  have hmul := Nat.mul_le_mul_right w.B htop
  calc q * w.divisor = q * (w.v1 * W + w.v2) * w.B + q * w.low := by
        unfold divisor
        ring
    _ ≤ w.dividend + w.divisor := by
        unfold dividend
        omega

theorem Estimates.passes (h : w.Estimates q r) (hu : w.u0 ≤ w.v1) (hr : W ≤ r) :
    q < W ∧ q * w.v2 ≤ r * W + w.u2 := by
  have hu1 := w.u1_lt
  have hv2 := w.v2_lt
  have hv1 := w.v1_pos
  have hq : q < W := by
    by_contra hge
    rw [not_lt] at hge
    have hmul := Nat.mul_le_mul_right w.v1 hge
    have hmul' := Nat.mul_le_mul_right W hu
    unfold Estimates at h
    rw [Nat.mul_comm W] at hmul
    omega
  have hle : q * w.v2 ≤ r * W := (Nat.mul_le_mul hq.le hv2.le).trans (Nat.mul_le_mul_right W hr)
  exact ⟨hq, hle.trans (Nat.le_add_right _ _)⟩

theorem top_le (h : w.dividend < w.divisor * W) : w.u0 ≤ w.v1 := by
  by_contra hlt
  rw [not_le] at hlt
  have hv2 := w.v2_lt
  have hlow := w.low_lt
  have hdivisor : w.divisor < (w.v1 + 1) * W * w.B := by
    have hmul : (w.v1 * W + w.v2 + 1) * w.B ≤ (w.v1 + 1) * W * w.B := by
      apply Nat.mul_le_mul_right
      rw [Nat.succ_mul]
      omega
    unfold divisor
    rw [Nat.succ_mul] at hmul
    omega
  have hdividend : (w.v1 + 1) * W * W * w.B ≤ w.dividend := by
    have hmul : (w.v1 + 1) * W * W * w.B ≤ w.u0 * W * W * w.B :=
      Nat.mul_le_mul_right _ (Nat.mul_le_mul_right _ (Nat.mul_le_mul_right _ hlt))
    unfold dividend
    nlinarith only [hmul, Nat.zero_le (w.u1 * W * w.B), Nat.zero_le (w.u2 * w.B),
      Nat.zero_le w.rest]
  have hW : 0 < W := Nat.zero_lt_of_lt hv2
  have hscaled : w.divisor * W < (w.v1 + 1) * W * w.B * W := Nat.mul_lt_mul_of_pos_right hdivisor hW
  have hcomm : (w.v1 + 1) * W * w.B * W = (w.v1 + 1) * W * W * w.B := by ring
  omega

end Window

/-- An estimate that is exact or one too large, and what is left after it. -/
theorem corrected {u v q : Nat} (hlow : u < (q + 1) * v) (hhigh : q * v ≤ u + v) :
    (q * v ≤ u ∧ u - q * v = u % v) ∨ (u < q * v ∧ u + v - q * v = u % v) := by
  rw [Nat.succ_mul] at hlow
  rcases Nat.lt_or_ge u (q * v) with hlt | hge
  · right
    refine ⟨hlt, ?_⟩
    have hq : 0 < q := by
      by_contra hzero
      rw [Nat.eq_zero_of_not_pos hzero, Nat.zero_mul] at hlt
      exact Nat.not_lt_zero _ hlt
    have hsplit : q * v = (q - 1) * v + v := by
      rw [← Nat.succ_mul, Nat.succ_eq_add_one, Nat.sub_add_cancel hq]
    calc u + v - q * v = ((q - 1) * v + (u + v - q * v)) % v :=
          (Nat.mul_add_mod_of_lt (by omega)).symm
      _ = u % v := congrArg (· % v) (by omega)
  · left
    refine ⟨hge, ?_⟩
    calc u - q * v = (q * v + (u - q * v)) % v := (Nat.mul_add_mod_of_lt (by omega)).symm
      _ = u % v := congrArg (· % v) (by omega)

end LiberaCrypt.QuotientEstimate
