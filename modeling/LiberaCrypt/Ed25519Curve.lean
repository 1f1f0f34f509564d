import LiberaCrypt.Ed25519
import LiberaCrypt.ExtendedEdwards
import LiberaCrypt.Field25519Values
import LiberaCrypt.PrimeCertificate
import Mathlib.NumberTheory.LegendreSymbol.Basic

namespace LiberaCrypt.Ed25519Curve

open LiberaCrypt.Ed25519 LiberaCrypt.Field25519 LiberaCrypt.Field25519Values
open LiberaCrypt.PrimeCertificate LiberaCrypt.TwistedEdwards

/-- The prime of the field, and those that its certificate rests on. -/
def certificates : List Certificate := [
  ⟨prime, 2, [(2, 2), (3, 1), (65147, 1),
    (0xabaf8c6b094fd0f32c2ccabab864dbecd99144679c1adf804898fb2042b, 1)]⟩,
  ⟨0xabaf8c6b094fd0f32c2ccabab864dbecd99144679c1adf804898fb2042b, 2, [(2, 1), (3, 1), (353, 1),
    (57467, 1), (132049, 1), (1923133, 1), (31757755568855353, 1),
    (0xe87c2a477b815a1793787395b23e1, 1)]⟩,
  ⟨0xe87c2a477b815a1793787395b23e1, 7, [(2, 5), (3, 2), (5, 2), (75707, 1), (72106336199, 1),
    (1919519569386763, 1)]⟩,
  ⟨31757755568855353, 10, [(2, 3), (3, 1), (31, 1), (107, 1), (223, 1), (4153, 1), (430751, 1)]⟩,
  ⟨1919519569386763, 2, [(2, 1), (3, 1), (7, 1), (19, 1), (47, 2), (127, 1), (8574133, 1)]⟩,
  ⟨72106336199, 7, [(2, 1), (13, 1), (2773320623, 1)]⟩,
  ⟨2773320623, 5, [(2, 1), (2437, 1), (569003, 1)]⟩,
  ⟨8574133, 2, [(2, 2), (3, 1), (7, 1), (103, 1), (991, 1)]⟩,
  ⟨1923133, 2, [(2, 2), (3, 1), (43, 1), (3727, 1)]⟩,
  ⟨569003, 2, [(2, 1), (7, 1), (97, 1), (419, 1)]⟩,
  ⟨430751, 17, [(2, 1), (5, 3), (1723, 1)]⟩,
  ⟨132049, 26, [(2, 4), (3, 2), (7, 1), (131, 1)]⟩,
  ⟨75707, 2, [(2, 1), (37853, 1)]⟩]

theorem certificates_check : checkAll certificates = true := by decide +kernel

scoped instance primeFact : Fact prime.Prime :=
  ⟨prime_of_checkAll certificates_check _ List.mem_cons_self⟩

def residue (a : FieldElement) : ZMod prime := limbsValue a

def curveD : ZMod prime := residue ed25519D

def sqrtM1 : ZMod prime := residue ed25519SqrtM1

def isCanonical (a : FieldElement) : Bool :=
  a.length == 16 && (a.all fun x => x.toNat < 65536) && limbsValue a < prime

theorem isCanonical_canonical {a : FieldElement} (h : isCanonical a = true) : Canonical a := by
  simp only [isCanonical, Bool.and_eq_true, beq_iff_eq, List.all_eq_true, decide_eq_true_eq] at h
  exact ⟨h.1.1, h.1.2, h.2⟩

theorem residue_element (x : ZMod prime) : residue (element x) = x := by
  rw [residue, element_value, ZMod.natCast_zmod_val]

theorem constants_check :
    [ed25519D, ed25519D2, ed25519SqrtM1, ed25519BaseX, ed25519BaseY, ed25519BaseT].all
        isCanonical = true ∧
      limbsValue ed25519D2 % prime = 2 * limbsValue ed25519D % prime ∧
      (limbsValue ed25519D * 121666 + 121665) % prime = 0 % prime ∧
      (limbsValue ed25519SqrtM1 ^ 2 + 1) % prime = 0 % prime ∧
      limbsValue ed25519BaseY ^ 2 % prime = (limbsValue ed25519BaseX ^ 2 + 1 +
        limbsValue ed25519D * limbsValue ed25519BaseX ^ 2 * limbsValue ed25519BaseY ^ 2) % prime ∧
      limbsValue ed25519BaseT % prime = limbsValue ed25519BaseX * limbsValue ed25519BaseY % prime ∧
      ¬ powMod prime (limbsValue ed25519D) (prime / 2) 255 % prime = 1 := by
  decide

theorem constants_canonical {a : FieldElement} (h : a ∈ [ed25519D, ed25519D2, ed25519SqrtM1,
    ed25519BaseX, ed25519BaseY, ed25519BaseT]) : Canonical a :=
  isCanonical_canonical (List.all_eq_true.mp constants_check.1 a h)

theorem ed25519D_eq : ed25519D = element curveD :=
  (constants_canonical (by simp)).eq_element rfl

theorem ed25519SqrtM1_eq : ed25519SqrtM1 = element sqrtM1 :=
  (constants_canonical (by simp)).eq_element rfl

theorem ed25519D2_eq : ed25519D2 = element (2 * curveD) := by
  apply (constants_canonical (by simp)).eq_element
  have hcast := (ZMod.natCast_eq_natCast_iff' _ _ _).mpr constants_check.2.1
  rwa [Nat.cast_mul, Nat.cast_ofNat] at hcast

theorem curveD_eq : curveD * 121666 = -121665 := by
  have hcast := (ZMod.natCast_eq_natCast_iff' _ _ _).mpr constants_check.2.2.1
  rw [Nat.cast_add, Nat.cast_mul, Nat.cast_ofNat, Nat.cast_ofNat, Nat.cast_zero] at hcast
  exact eq_neg_of_add_eq_zero_left hcast

theorem sqrtM1_sq : sqrtM1 ^ 2 = -1 := by
  have hcast := (ZMod.natCast_eq_natCast_iff' _ _ _).mpr constants_check.2.2.2.1
  rw [Nat.cast_add, Nat.cast_pow, Nat.cast_one, Nat.cast_zero] at hcast
  exact eq_neg_of_add_eq_zero_left hcast

theorem two_ne_zero : (2 : ZMod prime) ≠ 0 := by
  intro h
  have hdvd := (ZMod.natCast_eq_zero_iff 2 prime).mp (by exact_mod_cast h)
  exact absurd (Nat.le_of_dvd Nat.two_pos hdvd) (by decide)

theorem curveD_nonsquare : ¬ IsSquare curveD := by
  have hpow : ¬ curveD ^ (prime / 2) = 1 := by
    have hbits : prime / 2 < 2 ^ 255 := by decide
    exact mt (powMod_eq_one (by decide) hbits).mpr constants_check.2.2.2.2.2.2
  have hne : curveD ≠ 0 := by
    intro h
    have hzero := curveD_eq
    rw [h, zero_mul] at hzero
    have hnat : ((121665 : Nat) : ZMod prime) = 0 := by
      rw [Nat.cast_ofNat]
      exact neg_eq_zero.mp hzero.symm
    have hdvd := (ZMod.natCast_eq_zero_iff _ _).mp hnat
    exact absurd (Nat.le_of_dvd (by decide) hdvd) (by decide)
  exact mt (ZMod.euler_criterion prime hne).mp hpow

instance : Complete curveD := ⟨⟨sqrtM1, sqrtM1_sq⟩, curveD_nonsquare, two_ne_zero⟩

end LiberaCrypt.Ed25519Curve
