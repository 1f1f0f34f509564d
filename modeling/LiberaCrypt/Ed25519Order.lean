import LiberaCrypt.Ed25519Codec
import LiberaCrypt.Ed25519ScalarCorrect
import LiberaCrypt.ExtendedEdwards
import Mathlib.GroupTheory.OrderOfElement

namespace LiberaCrypt.Ed25519Order

open LiberaCrypt.Ed25519 LiberaCrypt.Ed25519Codec LiberaCrypt.Ed25519Curve
open LiberaCrypt.Ed25519Group LiberaCrypt.Ed25519ScalarCorrect LiberaCrypt.EdwardsMultiple
open LiberaCrypt.ExtendedEdwards LiberaCrypt.Field25519 LiberaCrypt.Field25519Values
open LiberaCrypt.PrimeCertificate LiberaCrypt.TwistedEdwards

section Torsion

variable {G : Type*} [AddCommGroup G] {q : Nat} {A B : G}

theorem mem_zmultiples_of_coprime {k : Int} (hk : IsCoprime k q) (hA : q • A = 0)
    (h : k • A ∈ AddSubgroup.zmultiples B) : A ∈ AddSubgroup.zmultiples B := by
  obtain ⟨u, v, huv⟩ := hk
  have hsplit : A = u • k • A := by
    calc A = (u * k + v * q) • A := by rw [huv, one_zsmul]
      _ = u • k • A + v • q • A := by rw [add_zsmul, mul_zsmul, mul_zsmul, natCast_zsmul]
      _ = u • k • A := by rw [hA, zsmul_zero, add_zero]
  rw [hsplit]
  exact AddSubgroup.zsmul_mem _ h u

/-- Where there is no room for two independent elements, one generates all that the prime
annihilates. -/
theorem mem_zmultiples_of_torsion (hq : q.Prime) {n : Nat} {f : G → Fin n}
    (hf : Function.Injective f) (hn : n < q * q) (hA : q • A = 0) (hB : q • B = 0) (hne : B ≠ 0) :
    A ∈ AddSubgroup.zmultiples B := by
  by_contra hout
  have hprime := Fact.mk hq
  have horder : addOrderOf B = q := addOrderOf_eq_prime hB hne
  have hsums : Function.Injective fun ij : Fin q × Fin q => (ij.1 : Nat) • B + (ij.2 : Nat) • A := by
    rintro ⟨i, j⟩ ⟨i', j'⟩ h
    have hdiff : ((j : Int) - j') • A = ((i' : Int) - i) • B := by
      have hsum : (i : Nat) • B + (j : Nat) • A = (i' : Nat) • B + (j' : Nat) • A := h
      simp only [sub_zsmul, natCast_zsmul, ← sub_eq_add_neg]
      rw [sub_eq_sub_iff_add_eq_add, add_comm, hsum]
    have hj : j = j' := by
      by_contra hj
      apply hout
      apply mem_zmultiples_of_coprime (k := (j : Int) - j') _ hA
      · rw [hdiff]
        exact AddSubgroup.zsmul_mem _ (AddSubgroup.mem_zmultiples B) _
      · rw [isCoprime_comm, Prime.coprime_iff_not_dvd (Nat.prime_iff_prime_int.mp hq)]
        intro hdvd
        have hzero := Int.eq_zero_of_abs_lt_dvd hdvd (by rw [abs_lt]; omega)
        omega
    subst hj
    rw [sub_self, zero_zsmul, eq_comm, ← addOrderOf_dvd_iff_zsmul_eq_zero, horder] at hdiff
    have hzero := Int.eq_zero_of_abs_lt_dvd hdiff (by rw [abs_lt]; omega)
    rw [Prod.mk.injEq]
    exact ⟨by omega, rfl⟩
  have hcard := Fintype.card_le_of_injective _ (hf.comp hsums)
  rw [Fintype.card_prod, Fintype.card_fin, Fintype.card_fin] at hcard
  omega

end Torsion

def orderCertificates : List Certificate := [
  ⟨order, 2, [(2, 2), (3, 1), (11, 1), (198211423230930754013084525763697, 1),
    (276602624281642239937218680557139826668747, 1)]⟩,
  ⟨276602624281642239937218680557139826668747, 2, [(2, 1), (7, 1),
    (19757330305831588566944191468367130476339, 1)]⟩,
  ⟨19757330305831588566944191468367130476339, 2, [(2, 1), (269, 1), (213441916511, 1),
    (172054593956031949258510691, 1)]⟩,
  ⟨198211423230930754013084525763697, 5, [(2, 4), (3, 1), (23, 1), (58964693, 1),
    (3044861653679985063343, 1)]⟩,
  ⟨172054593956031949258510691, 2, [(2, 1), (5, 1), (1361, 1), (2851, 1),
    (4434155615661930479, 1)]⟩,
  ⟨3044861653679985063343, 5, [(2, 1), (3, 1), (11, 1), (30703, 1), (82163, 1), (132667, 1),
    (137849, 1)]⟩,
  ⟨4434155615661930479, 17, [(2, 1), (41, 1), (43, 1), (1257559732178653, 1)]⟩,
  ⟨1257559732178653, 2, [(2, 2), (3, 1), (7, 1), (23, 1), (531581, 1), (1224481, 1)]⟩,
  ⟨213441916511, 13, [(2, 1), (5, 1), (73, 1), (292386187, 1)]⟩,
  ⟨292386187, 2, [(2, 1), (3, 4), (307, 1), (5879, 1)]⟩,
  ⟨58964693, 2, [(2, 2), (14741173, 1)]⟩,
  ⟨14741173, 2, [(2, 2), (3, 2), (409477, 1)]⟩,
  ⟨1224481, 13, [(2, 5), (3, 1), (5, 1), (2551, 1)]⟩,
  ⟨531581, 2, [(2, 2), (5, 1), (7, 1), (3797, 1)]⟩,
  ⟨409477, 2, [(2, 2), (3, 1), (34123, 1)]⟩,
  ⟨137849, 3, [(2, 3), (17231, 1)]⟩,
  ⟨132667, 5, [(2, 1), (3, 1), (22111, 1)]⟩,
  ⟨82163, 2, [(2, 1), (41081, 1)]⟩]

theorem orderCertificates_check : checkAll orderCertificates = true := by decide +kernel

theorem order_prime : order.Prime :=
  prime_of_checkAll orderCertificates_check _ List.mem_cons_self

def base : Point curveD := basePoint.affine

def baseNumbers : Extended Nat :=
  ⟨limbsValue ed25519BaseX, limbsValue ed25519BaseY, 1, limbsValue ed25519BaseT⟩

theorem order_check :
    (multiplyMod prime (limbsValue ed25519D) 253 order baseNumbers).x = 0 ∧
      (multiplyMod prime (limbsValue ed25519D) 253 order baseNumbers).y =
        (multiplyMod prime (limbsValue ed25519D) 253 order baseNumbers).z := by
  decide +kernel

theorem baseNumbers_represents : (residues (p := prime) baseNumbers).Represents base := by
  have hvalues : residues (p := prime) baseNumbers = values pointBase := by
    have hone : residue feOne = 1 := by rw [feOne_eq, residue_element]
    simp only [residues, baseNumbers, values, pointBase, hone, Nat.cast_one]
    rfl
  rw [hvalues]
  exact basePoint.valid.represents

theorem order_nsmul_base : order • base = 0 := by
  have hcomplete : Complete ((limbsValue ed25519D : Nat) : ZMod prime) :=
    inferInstanceAs (Complete curveD)
  have hmultiple := multiplyMod_represents (d := limbsValue ed25519D) baseNumbers_represents
    (show order < 2 ^ 253 by decide)
  exact hmultiple.eq_zero_iff.mpr ⟨(congrArg Nat.cast order_check.1).trans Nat.cast_zero,
    congrArg Nat.cast order_check.2⟩

theorem base_ne_zero : base ≠ 0 := by
  intro h
  have hx := (baseNumbers_represents.eq_zero_iff.mp h).1
  have hdvd := (ZMod.natCast_eq_zero_iff _ prime).mp hx
  revert hdvd
  decide

theorem addOrderOf_base : addOrderOf base = order := by
  have hprime := Fact.mk order_prime
  exact addOrderOf_eq_prime order_nsmul_base base_ne_zero

theorem nsmul_base_eq_zero (k : Nat) : k • base = 0 ↔ order ∣ k := by
  rw [← addOrderOf_base]
  exact addOrderOf_dvd_iff_nsmul_eq_zero.symm

theorem nsmul_base_mod (k : Nat) : (k % order) • base = k • base := by
  rw [← addOrderOf_base]
  exact mod_addOrderOf_nsmul base k

theorem nsmul_base_injective {a b : Nat} (ha : a < order) (hb : b < order)
    (h : a • base = b • base) : a = b := by
  rw [nsmul_eq_nsmul_iff_modEq, addOrderOf_base] at h
  rwa [Nat.ModEq, Nat.mod_eq_of_lt ha, Nat.mod_eq_of_lt hb] at h

def pointNumber (p : Point curveD) : Fin (2 ^ 256) :=
  ⟨p.y.val + 2 ^ 255 * (p.x.val % 2), by
    have hy : p.y.val < 2 ^ 255 := (ZMod.val_lt p.y).trans (by decide)
    omega⟩

theorem pointNumber_injective : Function.Injective pointNumber := by
  intro p q h
  have hvalue : p.y.val + 2 ^ 255 * (p.x.val % 2) = q.y.val + 2 ^ 255 * (q.x.val % 2) :=
    congrArg Fin.val h
  have hp : p.y.val < 2 ^ 255 := (ZMod.val_lt p.y).trans (by decide)
  have hq : q.y.val < 2 ^ 255 := (ZMod.val_lt q.y).trans (by decide)
  have hy : p.y = q.y := ZMod.val_injective prime (by omega)
  apply Point.ext _ hy
  apply eq_of_parity _ (by omega)
  rw [onCurve_iff.mp p.onCurve, onCurve_iff.mp q.onCurve, hy]

/-- The prime-order subgroup: what the order annihilates is a multiple of the base point. -/
theorem mem_zmultiples_base {p : Point curveD} (h : order • p = 0) :
    p ∈ AddSubgroup.zmultiples base :=
  mem_zmultiples_of_torsion order_prime pointNumber_injective (by decide) h
    order_nsmul_base base_ne_zero

end LiberaCrypt.Ed25519Order
