import Mathlib.AlgebraicGeometry.EllipticCurve.Affine.Point

namespace LiberaCrypt.MontgomeryCurve

open WeierstrassCurve.Affine

/-- The curve `y² = x³ + ax² + x`. -/
def curve {R : Type*} [CommRing R] (a : R) : WeierstrassCurve.Affine R := ⟨0, a, 0, 1, 0⟩

@[ext] structure Fraction (R : Type*) where
  x : R
  z : R

section CommRing

variable {R : Type*} [CommRing R] {a x y : R}

theorem equation_iff_cubic : (curve a).Equation x y ↔ y * y = x * x * x + a * (x * x) + x := by
  rw [equation_iff]
  simp only [curve]
  constructor
  · intro h
    linear_combination h
  · intro h
    linear_combination h

theorem negY_eq : (curve a).negY x y = -y := by
  simp [negY, curve]

/-- The abscissa of the double of a point, where `4k + 2` is the coefficient of the curve. -/
def Fraction.double (k : R) (A : Fraction R) : Fraction R :=
  let aa := (A.x + A.z) * (A.x + A.z)
  let bb := (A.x - A.z) * (A.x - A.z)
  ⟨aa * bb, (aa - bb) * (aa + (aa - bb) * k)⟩

/-- The abscissa of a sum of points whose difference has the abscissa `u`. -/
def Fraction.add (u : R) (A B : Fraction R) : Fraction R :=
  let da := (B.x - B.z) * (A.x + A.z)
  let cb := (B.x + B.z) * (A.x - A.z)
  ⟨(da + cb) * (da + cb), u * ((da - cb) * (da - cb))⟩

theorem Fraction.double_eq {k : R} (hk : 4 * k + 2 = a) (A : Fraction R) :
    A.double k = ⟨(A.x * A.x - A.z * A.z) * (A.x * A.x - A.z * A.z),
      4 * (A.x * A.z) * (A.x * A.x + a * (A.x * A.z) + A.z * A.z)⟩ := by
  subst hk
  simp only [double]
  congr 1 <;> ring

theorem Fraction.add_eq (u : R) (A B : Fraction R) :
    A.add u B = ⟨4 * ((A.x * B.x - A.z * B.z) * (A.x * B.x - A.z * B.z)),
      u * (4 * ((A.z * B.x - A.x * B.z) * (A.z * B.x - A.x * B.z)))⟩ := by
  simp only [add]
  congr 1 <;> ring

theorem Fraction.add_comm (u : R) (A B : Fraction R) : A.add u B = B.add u A := by
  simp only [add_eq]
  congr 1 <;> ring

end CommRing

variable {F : Type*} [Field F] {a k : F} {A B : Fraction F}

def abscissa : (curve a).Point → F
  | .zero => 0
  | .some x _ _ => x

/-- A fraction with the abscissa of a point; the neutral element is at infinity. -/
def Stands (A : Fraction F) : (curve a).Point → Prop
  | .zero => A.z = 0 ∧ A.x ≠ 0
  | .some x _ _ => A.z ≠ 0 ∧ A.x = x * A.z

theorem Stands.abscissa {P : (curve a).Point} (h : Stands A P) : A.x * A.z⁻¹ = abscissa P := by
  cases P with
  | zero => rw [h.1, inv_zero, mul_zero]; rfl
  | some x y hP => rw [h.2, mul_assoc, mul_inv_cancel₀ h.1, mul_one]; rfl

/-- A point on the horizontal axis is its own opposite, and its abscissa is no root of one. -/
theorem sq_ne_one_of_Y_eq_zero {x : F} (h : (curve a).Nonsingular x 0) : x * x ≠ 1 := by
  intro hone
  have hcurve := equation_iff_cubic.mp h.1
  have hx : x ≠ 0 := by
    rintro rfl
    simp at hone
  rw [nonsingular_iff] at h
  simp only [curve] at h
  cases h.2 with
  | inl hpartial =>
    apply hpartial
    have ha : 2 * x + a = 0 := by linear_combination -hcurve - (a + x) * hone
    linear_combination -2 * x * ha + hone
  | inr hpartial =>
    apply hpartial
    ring

theorem sum_mul_difference {x y x' y' l m : F} (hcurve : y * y = x * x * x + a * (x * x) + x)
    (hcurve' : y' * y' = x' * x' * x' + a * (x' * x') + x') (hne : x ≠ x')
    (hl : l * (x - x') = y - y') (hm : m * (x - x') = y + y') :
    (l ^ 2 - a - x - x') * (m ^ 2 - a - x - x') * ((x - x') * (x - x')) =
      (x * x' - 1) * (x * x' - 1) := by
  have hsub : (x - x') * (x - x') ≠ 0 := mul_ne_zero (sub_ne_zero.mpr hne) (sub_ne_zero.mpr hne)
  apply mul_right_cancel₀ hsub
  have hsum : (l ^ 2 - a - x - x') * ((x - x') * (x - x')) =
      (x + x') * (1 + x * x') + 2 * a * (x * x') - 2 * (y * y') := by
    linear_combination (l * (x - x') + (y - y')) * hl + hcurve + hcurve'
  have hdifference : (m ^ 2 - a - x - x') * ((x - x') * (x - x')) =
      (x + x') * (1 + x * x') + 2 * a * (x * x') + 2 * (y * y') := by
    linear_combination (m * (x - x') + (y + y')) * hm + hcurve + hcurve'
  calc (l ^ 2 - a - x - x') * (m ^ 2 - a - x - x') * ((x - x') * (x - x')) *
        ((x - x') * (x - x'))
      = (l ^ 2 - a - x - x') * ((x - x') * (x - x')) *
        ((m ^ 2 - a - x - x') * ((x - x') * (x - x'))) := by ring
    _ = (x * x' - 1) * (x * x' - 1) * ((x - x') * (x - x')) := by
        rw [hsum, hdifference]
        linear_combination (-4 * (y' * y')) * hcurve -
          4 * (x * x * x + a * (x * x) + x) * hcurve'

variable [DecidableEq F]

theorem Stands.double (htwo : (2 : F) ≠ 0) (hk : 4 * k + 2 = a) {P : (curve a).Point}
    (h : Stands A P) : Stands (A.double k) (P + P) := by
  rw [Fraction.double_eq hk]
  cases P with
  | zero =>
    obtain ⟨hz, hx⟩ := h
    refine ⟨by simp [hz], ?_⟩
    simpa [hz] using hx
  | some x y hP =>
    obtain ⟨hz, hx⟩ := h
    have hcurve := equation_iff_cubic.mp hP.1
    have hfour : (4 : F) ≠ 0 := by
      have hsquare := mul_ne_zero htwo htwo
      rwa [show (2 : F) * 2 = 4 by norm_num] at hsquare
    by_cases hy : y = 0
    · subst hy
      have hself : (0 : F) = (curve a).negY x 0 := by rw [negY_eq, neg_zero]
      have hone := sq_ne_one_of_Y_eq_zero hP
      rw [Point.add_self_of_Y_eq hself]
      constructor
      · rw [hx]
        linear_combination -4 * A.z ^ 4 * hcurve
      · have hdiff : A.x * A.x - A.z * A.z = (x * x - 1) * (A.z * A.z) := by
          rw [hx]
          ring
        have hne := mul_ne_zero (sub_ne_zero.mpr hone) (mul_ne_zero hz hz)
        rw [hdiff]
        exact mul_ne_zero hne hne
    · have hdouble : 2 * y ≠ 0 := mul_ne_zero htwo hy
      have hne : y ≠ (curve a).negY x y := by
        rw [negY_eq]
        intro hneg
        apply hdouble
        linear_combination hneg
      have hslope : (curve a).slope x x y y * (2 * y) = 3 * x ^ 2 + 2 * a * x + 1 := by
        have hden : y - -y = 2 * y := by ring
        rw [slope_of_Y_ne rfl hne, negY_eq, hden, div_mul_cancel₀ _ hdouble]
        simp only [curve]
        ring
      rw [Point.add_self_of_Y_ne hne]
      simp only [Stands, addX]
      generalize (curve a).slope x x y y = l at *
      have hbottom : 4 * (A.x * A.z) * (A.x * A.x + a * (A.x * A.z) + A.z * A.z) =
          (2 * y) * (2 * y) * (A.z ^ 4) := by
        rw [hx]
        linear_combination -4 * A.z ^ 4 * hcurve
      rw [hbottom]
      refine ⟨mul_ne_zero (mul_ne_zero hdouble hdouble) (pow_ne_zero 4 hz), ?_⟩
      simp only [curve]
      rw [hx]
      linear_combination
        (-(A.z ^ 4) * (l * (2 * y) + (3 * x ^ 2 + 2 * a * x + 1))) * hslope +
          4 * A.z ^ 4 * (a + 2 * x) * hcurve

/-- A point whose double has a nonzero abscissa is not at one or minus one. -/
theorem sq_ne_one_of_double {x y u v : F} {h : (curve a).Nonsingular x y}
    {hD : (curve a).Nonsingular u v} (htwo : (2 : F) ≠ 0) (hk : 4 * k + 2 = a) (hu : u ≠ 0)
    (hdouble : Point.some x y h + .some x y h = .some u v hD) : x * x ≠ 1 := by
  intro hone
  have hstands : Stands (⟨x, 1⟩ : Fraction F) (Point.some x y h) := ⟨one_ne_zero, (mul_one x).symm⟩
  have htwice := hstands.double htwo hk
  rw [hdouble, Fraction.double_eq hk] at htwice
  obtain ⟨hz, hx⟩ := htwice
  have hleft : x * x - 1 * 1 = 0 := by rw [hone, one_mul, sub_self]
  dsimp only at hx hz
  rw [hleft, zero_mul, eq_comm, mul_eq_zero] at hx
  exact hx.elim hu hz

theorem Stands.add (htwo : (2 : F) ≠ 0) (hk : 4 * k + 2 = a) {P : (curve a).Point} {u v : F}
    {hD : (curve a).Nonsingular u v} (hu : u ≠ 0) (hA : Stands A P)
    (hB : Stands B (P + .some u v hD)) : Stands (A.add u B) (P + (P + .some u v hD)) := by
  have hfour : (4 : F) ≠ 0 := by
    have hsquare := mul_ne_zero htwo htwo
    rwa [show (2 : F) * 2 = 4 by norm_num] at hsquare
  rw [Fraction.add_eq]
  cases P with
  | zero =>
    have hzero : (Point.zero : (curve a).Point) = 0 := rfl
    rw [hzero, zero_add] at hB
    rw [hzero, zero_add, zero_add]
    obtain ⟨hz, hx⟩ := hA
    obtain ⟨hz', hx'⟩ := hB
    constructor
    · have hne := mul_ne_zero hx hz'
      simpa [hz, hu, hfour] using hne
    · rw [hz, hx']
      ring
  | some x y hP =>
    generalize hQ : Point.some x y hP + .some u v hD = Q at *
    cases Q with
    | zero =>
      -- the first point is the opposite of the difference
      have hzero : (Point.zero : (curve a).Point) = 0 := rfl
      rw [hzero] at hQ
      have hopposite := eq_neg_of_add_eq_zero_left hQ
      rw [Point.neg_some, Point.some.injEq] at hopposite
      obtain ⟨hz, hx⟩ := hA
      obtain ⟨hz', hx'⟩ := hB
      rw [hzero, add_zero]
      have hne := mul_ne_zero hz hx'
      constructor
      · simpa [hz', hu, hfour] using hne
      · rw [hz', hx, hopposite.1]
        ring
    | some x' y' hQ' =>
      obtain ⟨hz, hx⟩ := hA
      obtain ⟨hz', hx'⟩ := hB
      have hscale := mul_ne_zero hz hz'
      have hcross : A.z * B.x - A.x * B.z = (x' - x) * (A.z * B.z) := by
        rw [hx, hx']
        ring
      have hline : A.x * B.x - A.z * B.z = (x * x' - 1) * (A.z * B.z) := by
        rw [hx, hx']
        ring
      have hdiff : Point.some x' y' hQ' + -Point.some x y hP = .some u v hD := by
        rw [← hQ, add_neg_eq_iff_eq_add, add_comm]
      rw [hcross, hline]
      rw [Point.neg_some] at hdiff
      by_cases hsame : x = x'
      · subst hsame
        cases Y_eq_of_X_eq hQ'.1 hP.1 rfl with
        | inl hy =>
          subst hy
          rw [← Point.neg_some hQ', add_neg_cancel] at hdiff
          exact absurd hdiff.symm (Point.some_ne_zero hD)
        | inr hy =>
          subst hy
          have hone := sq_ne_one_of_double htwo hk hu hdiff
          have hne := mul_ne_zero (sub_ne_zero.mpr hone) hscale
          rw [Point.add_of_Y_eq rfl (by rw [negY_eq, negY_eq, neg_neg])]
          constructor
          · rw [sub_self]
            ring
          · exact mul_ne_zero hfour (mul_ne_zero hne hne)
      · have hcurve := equation_iff_cubic.mp hP.1
        have hcurve' := equation_iff_cubic.mp hQ'.1
        have hsub : x' - x ≠ 0 := sub_ne_zero.mpr (Ne.symm hsame)
        have hsub' : x - x' ≠ 0 := sub_ne_zero.mpr hsame
        have hslope : (curve a).slope x x' y y' * (x - x') = y - y' := by
          rw [slope_of_X_ne hsame, div_mul_cancel₀ _ hsub']
        have hslope' : -(curve a).slope x' x y' ((curve a).negY x y) * (x - x') = y + y' := by
          rw [slope_of_X_ne (Ne.symm hsame), negY_eq]
          field_simp
          ring
        have hproduct := sum_mul_difference hcurve hcurve' hsame hslope hslope'
        rw [Point.add_of_X_ne (Ne.symm hsame), Point.some.injEq] at hdiff
        have hu' := hdiff.1
        rw [Point.add_of_X_ne hsame]
        simp only [Stands, addX] at hu' ⊢
        generalize (curve a).slope x x' y y' = l at *
        generalize (curve a).slope x' x y' ((curve a).negY x y) = m at *
        simp only [curve] at hu' ⊢
        have hne := mul_ne_zero hsub hscale
        refine ⟨mul_ne_zero hu (mul_ne_zero hfour (mul_ne_zero hne hne)), ?_⟩
        rw [← hu']
        linear_combination -4 * (A.z * B.z) ^ 2 * hproduct

end LiberaCrypt.MontgomeryCurve
