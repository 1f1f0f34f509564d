import LiberaCrypt.CountedLoop
import LiberaCrypt.TwistedEdwards
import Mathlib.Algebra.Field.ZMod

namespace LiberaCrypt.ExtendedEdwards

open LiberaCrypt.TwistedEdwards

/-- Coordinates with `x = X / Z`, `y = Y / Z` and `x * y = T / Z`. -/
@[ext] structure Extended (F : Type*) where
  x : F
  y : F
  z : F
  t : F

scoped instance atLeastTwo_two : Nat.AtLeastTwo 2 := ⟨le_refl 2⟩

variable {F : Type*} [Field F] {d : F}

/-- On the curve, with the product of the coordinates in its place. -/
structure Extended.Valid (d : F) (E : Extended F) : Prop where
  z_ne_zero : E.z ≠ 0
  curve : (-E.x ^ 2 + E.y ^ 2) * E.z ^ 2 = E.z ^ 4 + d * E.x ^ 2 * E.y ^ 2
  product : E.t * E.z = E.x * E.y

structure Extended.Represents (E : Extended F) (P : Point d) : Prop where
  z_ne_zero : E.z ≠ 0
  x : E.x = P.x * E.z
  y : E.y = P.y * E.z
  t : E.t = P.x * P.y * E.z

def Extended.zero : Extended F := ⟨0, 1, 1, 0⟩

def Extended.add (d : F) (E E' : Extended F) : Extended F :=
  let a := (E.y - E.x) * (E'.y - E'.x)
  let b := (E.y + E.x) * (E'.y + E'.x)
  let c := E.t * E'.t * (2 * d)
  let z := E.z * E'.z + E.z * E'.z
  ⟨(b - a) * (z - c), (z + c) * (b + a), (z - c) * (z + c), (b - a) * (b + a)⟩

def Extended.double (E : Extended F) : Extended F :=
  let a := E.x * E.x
  let b := E.y * E.y
  let c := E.z * E.z + E.z * E.z
  let e := (E.x + E.y) * (E.x + E.y) - a - b
  let g := -a + b
  ⟨e * (g - c), g * (-a - b), (g - c) * g, e * (-a - b)⟩

variable {E E' : Extended F} {P Q : Point d}

theorem Extended.Represents.valid (h : E.Represents P) : E.Valid d := by
  refine ⟨h.z_ne_zero, ?_, ?_⟩
  · have hcurve := P.onCurve
    unfold OnCurve at hcurve
    rw [h.x, h.y]
    linear_combination E.z ^ 4 * hcurve
  · rw [h.x, h.y, h.t]
    ring

def Extended.Valid.affine (h : E.Valid d) : Point d where
  x := E.x / E.z
  y := E.y / E.z
  onCurve := by
    have hz := h.z_ne_zero
    have hequation := h.curve
    unfold OnCurve
    field_simp
    linear_combination hequation

theorem Extended.Valid.represents (h : E.Valid d) : E.Represents h.affine := by
  have hz := h.z_ne_zero
  refine ⟨hz, (div_mul_cancel₀ _ hz).symm, (div_mul_cancel₀ _ hz).symm, ?_⟩
  have hproduct := h.product
  unfold Extended.Valid.affine
  field_simp
  linear_combination hproduct

theorem Extended.Represents.unique (h : E.Represents P) (h' : E.Represents Q) : P = Q := by
  apply Point.ext
  · exact mul_right_cancel₀ h.z_ne_zero (h.x.symm.trans h'.x)
  · exact mul_right_cancel₀ h.z_ne_zero (h.y.symm.trans h'.y)

theorem represents_of_fractions {e f g h : F} (hf : f ≠ 0) (hg : g ≠ 0) (hx : e = P.x * g)
    (hy : h = P.y * f) : Extended.Represents ⟨e * f, g * h, f * g, e * h⟩ P where
  z_ne_zero := mul_ne_zero hf hg
  x := by rw [hx]; ring
  y := by rw [hy]; ring
  t := by rw [hx, hy]; ring

theorem Extended.Represents.eq_iff (h : E.Represents P) (h' : E'.Represents Q) :
    P = Q ↔ E.x * E'.z = E'.x * E.z ∧ E.y * E'.z = E'.y * E.z := by
  have hzz : E.z * E'.z ≠ 0 := mul_ne_zero h.z_ne_zero h'.z_ne_zero
  rw [h.x, h.y, h'.x, h'.y]
  constructor
  · rintro rfl
    exact ⟨by ring, by ring⟩
  · rintro ⟨hx, hy⟩
    apply Point.ext
    · apply mul_right_cancel₀ hzz
      linear_combination hx
    · apply mul_right_cancel₀ hzz
      linear_combination hy

theorem zero_represents : Extended.zero.Represents (0 : Point d) :=
  ⟨one_ne_zero, by simp [Extended.zero], by simp [Extended.zero], by simp [Extended.zero]⟩

theorem Extended.Represents.eq_zero_iff (h : E.Represents P) : P = 0 ↔ E.x = 0 ∧ E.y = E.z := by
  rw [h.eq_iff zero_represents]
  simp [Extended.zero]

variable [hd : Complete d]

theorem Extended.Represents.add (h : E.Represents P) (h' : E'.Represents Q) :
    (Extended.add d E E').Represents (P + Q) := by
  obtain ⟨hplus, hminus⟩ := denominators_ne_zero P.onCurve Q.onCurve
  have hscale : 2 * E.z * E'.z ≠ 0 :=
    mul_ne_zero (mul_ne_zero hd.two_ne_zero h.z_ne_zero) h'.z_ne_zero
  have he : (E.y + E.x) * (E'.y + E'.x) - (E.y - E.x) * (E'.y - E'.x) =
      2 * E.z * E'.z * cross P.x P.y Q.x Q.y := by
    rw [h.x, h.y, h'.x, h'.y, cross]
    ring
  have hh : (E.y + E.x) * (E'.y + E'.x) + (E.y - E.x) * (E'.y - E'.x) =
      2 * E.z * E'.z * dot P.x P.y Q.x Q.y := by
    rw [h.x, h.y, h'.x, h'.y, dot]
    ring
  have hf : E.z * E'.z + E.z * E'.z - E.t * E'.t * (2 * d) =
      2 * E.z * E'.z * (1 - twist d P.x P.y Q.x Q.y) := by
    rw [h.t, h'.t, twist]
    ring
  have hg : E.z * E'.z + E.z * E'.z + E.t * E'.t * (2 * d) =
      2 * E.z * E'.z * (1 + twist d P.x P.y Q.x Q.y) := by
    rw [h.t, h'.t, twist]
    ring
  apply represents_of_fractions
  · rw [hf]
    exact mul_ne_zero hscale hminus
  · rw [hg]
    exact mul_ne_zero hscale hplus
  · rw [he, hg, Point.add_x, sumX]
    field_simp
  · rw [hh, hf, Point.add_y, sumY]
    field_simp

theorem Extended.Represents.double (h : E.Represents P) : E.double.Represents (P + P) := by
  obtain ⟨hplus, hminus⟩ := denominators_ne_zero P.onCurve P.onCurve
  have hz := h.z_ne_zero
  have hcurve := P.onCurve
  unfold OnCurve at hcurve
  have he : (E.x + E.y) * (E.x + E.y) - E.x * E.x - E.y * E.y =
      E.z ^ 2 * cross P.x P.y P.x P.y := by
    rw [h.x, h.y, cross]
    ring
  have hh : -(E.x * E.x) - E.y * E.y = -E.z ^ 2 * dot P.x P.y P.x P.y := by
    rw [h.x, h.y, dot]
    ring
  have hg : -(E.x * E.x) + E.y * E.y = E.z ^ 2 * (1 + twist d P.x P.y P.x P.y) := by
    rw [h.x, h.y, twist]
    linear_combination E.z ^ 2 * hcurve
  have hf : -(E.x * E.x) + E.y * E.y - (E.z * E.z + E.z * E.z) =
      -E.z ^ 2 * (1 - twist d P.x P.y P.x P.y) := by
    rw [hg]
    ring
  have hscale : E.z ^ 2 ≠ 0 := pow_ne_zero 2 hz
  apply represents_of_fractions
  · rw [hf]
    exact mul_ne_zero (neg_ne_zero.mpr hscale) hminus
  · rw [hg]
    exact mul_ne_zero hscale hplus
  · rw [he, hg, Point.add_x, sumX]
    field_simp
  · rw [hh, hf, Point.add_y, sumY]
    field_simp

end LiberaCrypt.ExtendedEdwards

namespace LiberaCrypt.EdwardsMultiple

open LiberaCrypt.CountedLoop LiberaCrypt.ExtendedEdwards LiberaCrypt.TwistedEdwards

def addMod (p d : Nat) (E E' : Extended Nat) : Extended Nat :=
  let a := (E.y + (p - 1) * E.x) * (E'.y + (p - 1) * E'.x) % p
  let b := (E.y + E.x) * (E'.y + E'.x) % p
  let c := E.t * E'.t * (2 * d) % p
  let z := E.z * E'.z + E.z * E'.z
  ⟨(b + (p - 1) * a) * (z + (p - 1) * c) % p, (z + c) * (b + a) % p,
    (z + (p - 1) * c) * (z + c) % p, (b + (p - 1) * a) * (b + a) % p⟩

def multiplyMod (p d bits k : Nat) (E : Extended Nat) : Extended Nat :=
  countDown bits (fun i acc =>
    let twice := addMod p d acc acc
    if k / 2 ^ i % 2 = 1 then addMod p d twice E else twice) ⟨0, 1, 1, 0⟩

variable {p : Nat}

def residues (E : Extended Nat) : Extended (ZMod p) := ⟨E.x, E.y, E.z, E.t⟩

theorem pred_cast (hp : 0 < p) : ((p - 1 : Nat) : ZMod p) = -1 := by
  rw [Nat.cast_sub hp, ZMod.natCast_self, Nat.cast_one, zero_sub]

variable [hprime : Fact p.Prime]

theorem residues_addMod (d : Nat) (E E' : Extended Nat) :
    residues (p := p) (addMod p d E E') =
      Extended.add (d : ZMod p) (residues E) (residues E') := by
  simp only [residues, addMod, Extended.add, ZMod.natCast_mod, Nat.cast_mul, Nat.cast_add,
    Nat.cast_ofNat, pred_cast hprime.out.pos, neg_one_mul, ← sub_eq_add_neg]

variable {d : Nat} [Complete (d : ZMod p)]

/-- After the bits from the top down to `i` the accumulator stands for what they spell. -/
theorem multiplyMod_represents {E : Extended Nat} {P : Point (d : ZMod p)}
    (hE : (residues E).Represents P) {bits k : Nat} (hk : k < 2 ^ bits) :
    (residues (multiplyMod p d bits k E)).Represents (k • P) := by
  have hloop := countDown_invariant (fun i acc =>
    (residues acc).Represents ((k / 2 ^ i) • P)) (n := bits) (s := ⟨0, 1, 1, 0⟩)
    (f := fun i acc =>
      let twice := addMod p d acc acc
      if k / 2 ^ i % 2 = 1 then addMod p d twice E else twice) ?_ ?_
  · rwa [pow_zero, Nat.div_one] at hloop
  · rw [Nat.div_eq_of_lt hk, zero_nsmul]
    simpa [residues, Extended.zero] using zero_represents (d := (d : ZMod p))
  · intro i hi acc hacc
    have hdouble := hacc.add hacc
    have hhalf : k / 2 ^ i = k / 2 ^ (i + 1) + k / 2 ^ (i + 1) + k / 2 ^ i % 2 := by
      rw [pow_succ, ← Nat.div_div_eq_div_mul]
      omega
    rw [← residues_addMod, ← add_nsmul] at hdouble
    dsimp only
    split_ifs with hbit
    · have hsum := hdouble.add hE
      rw [residues_addMod, hhalf, hbit, add_nsmul, one_nsmul]
      exact hsum
    · rw [hhalf, show k / 2 ^ i % 2 = 0 by omega, add_zero]
      exact hdouble

end LiberaCrypt.EdwardsMultiple
