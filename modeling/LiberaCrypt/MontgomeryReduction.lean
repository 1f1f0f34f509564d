import Mathlib.Data.ZMod.Basic
import Mathlib.Tactic

namespace LiberaCrypt.MontgomeryReduction

variable {W M : Nat}

/-- A row of the interleaved product keeps the accumulator below `2 * M`. -/
theorem row_lt {a b m t t' : Nat} (ha : a ≤ M) (hb : b < W) (hm : m < W) (ht : t < 2 * M)
    (h : W * t' = t + a * b + m * M) : t' < 2 * M := by
  have hab : a * b ≤ M * (W - 1) := Nat.mul_le_mul ha (Nat.le_pred_of_lt hb)
  have hmM : m * M ≤ (W - 1) * M := Nat.mul_le_mul_right M (Nat.le_pred_of_lt hm)
  have hsplit : W * (2 * M) = 2 * M + M * (W - 1) + (W - 1) * M := by
    obtain ⟨k, rfl⟩ := Nat.exists_eq_succ_of_ne_zero (Nat.ne_of_gt (Nat.zero_lt_of_lt hb))
    rw [Nat.succ_sub_one, Nat.succ_eq_add_one]
    ring
  apply Nat.lt_of_mul_lt_mul_left (a := W)
  omega

theorem row_cast {a b m t t' : Nat} (h : W * t' = t + a * b + m * M) :
    (W : ZMod M) * t' = t + a * b := by
  have hcast := congrArg (Nat.cast : Nat → ZMod M) h
  push_cast at hcast
  rw [hcast, ZMod.natCast_self, mul_zero, add_zero]

/-- `w` is the Montgomery form of `x` for the radix power `R`. -/
structure Represents (M R w : Nat) (x : ZMod M) : Prop where
  lt : w < M
  cast : (w : ZMod M) = x * R

variable {R w v r : Nat} {x y : ZMod M}

theorem Represents.mul (hR : IsUnit (R : ZMod M)) (hw : Represents M R w x)
    (hv : Represents M R v y) (hr : r < M) (h : (r : ZMod M) * R = w * v) :
    Represents M R r (x * y) := by
  refine ⟨hr, hR.mul_right_cancel ?_⟩
  rw [h, hw.cast, hv.cast]
  ring

theorem Represents.enter (hR : IsUnit (R : ZMod M)) {s : Nat} (hs : (s : ZMod M) = R ^ 2)
    (hr : r < M) (h : (r : ZMod M) * R = w * s) : Represents M R r w := by
  refine ⟨hr, hR.mul_right_cancel ?_⟩
  rw [h, hs]
  ring

theorem Represents.leave (hR : IsUnit (R : ZMod M)) (hw : Represents M R w x)
    (h : (r : ZMod M) * R = w * (1 : Nat)) : (r : ZMod M) = x := by
  apply hR.mul_right_cancel
  rw [h, hw.cast, Nat.cast_one, mul_one]

theorem radix_isUnit (h : Nat.Coprime W M) (n : Nat) : IsUnit ((W ^ n : Nat) : ZMod M) :=
  (ZMod.isUnit_iff_coprime _ _).mpr (Nat.Coprime.pow_left n h)

theorem eq_mod_of_cast {b e : Nat} (hr : r < M) (h : (r : ZMod M) = (b : ZMod M) ^ e) :
    r = b ^ e % M := by
  rw [← Nat.cast_pow, ZMod.natCast_eq_natCast_iff', Nat.mod_eq_of_lt hr] at h
  exact h

end LiberaCrypt.MontgomeryReduction
