import Mathlib.Algebra.Field.ZMod
import Mathlib.GroupTheory.OrderOfElement
import Mathlib.Tactic.Ring

namespace LiberaCrypt.DsaScheme

/-- A group with a base of a prime order, and a residue of each of its elements. -/
structure Scheme (n : Nat) (A : Type) [AddCommGroup A] where
  base : A
  order_nsmul : n • base = 0
  residue : A → ZMod n

variable {n : Nat} {A : Type} [AddCommGroup A] (scheme : Scheme n A)

def Scheme.commitment (k : ZMod n) : ZMod n := scheme.residue (k.val • scheme.base)

def Scheme.response (d e k : ZMod n) : ZMod n := k⁻¹ * (e + scheme.commitment k * d)

def Scheme.recovered (Q : A) (e r s : ZMod n) : A :=
  (e * s⁻¹).val • scheme.base + (r * s⁻¹).val • Q

variable {scheme} {d e k : ZMod n}

theorem Scheme.nsmul_base_congr {a b : Nat} (h : (a : ZMod n) = b) :
    a • scheme.base = b • scheme.base := by
  rw [nsmul_eq_nsmul_iff_modEq]
  have hdvd := addOrderOf_dvd_of_nsmul_eq_zero scheme.order_nsmul
  exact ((ZMod.natCast_eq_natCast_iff a b n).mp h).of_dvd hdvd

variable [Fact n.Prime]

theorem Scheme.recovered_eq (h : scheme.response d e k ≠ 0) :
    scheme.recovered (d.val • scheme.base) e (scheme.commitment k) (scheme.response d e k) =
      k.val • scheme.base := by
  have hsum : e + scheme.commitment k * d ≠ 0 := by
    intro hzero
    apply h
    rw [Scheme.response, hzero, mul_zero]
  rw [Scheme.recovered, ← mul_nsmul', ← add_nsmul]
  apply Scheme.nsmul_base_congr
  simp only [Nat.cast_add, Nat.cast_mul, ZMod.natCast_val, ZMod.cast_id', id_eq]
  rw [Scheme.response, mul_inv, inv_inv]
  calc e * (k * (e + scheme.commitment k * d)⁻¹) +
        scheme.commitment k * (k * (e + scheme.commitment k * d)⁻¹) * d
      = k * ((e + scheme.commitment k * d) * (e + scheme.commitment k * d)⁻¹) := by ring
    _ = k := by rw [mul_inv_cancel₀ hsum, mul_one]

end LiberaCrypt.DsaScheme
