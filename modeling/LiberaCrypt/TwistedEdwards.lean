import Mathlib.Algebra.Field.Basic
import Mathlib.Algebra.Group.Even
import Mathlib.Tactic

namespace LiberaCrypt.TwistedEdwards

variable {F : Type*} [Field F]

def OnCurve (d x y : F) : Prop := -x ^ 2 + y ^ 2 = 1 + d * x ^ 2 * y ^ 2

class Complete (d : F) : Prop where
  root : ∃ i : F, i ^ 2 = -1
  nonsquare : ¬ IsSquare d
  two_ne_zero : (2 : F) ≠ 0

/-- The numerators of a sum, and what its denominators differ from one by. -/
def cross (x₁ y₁ x₂ y₂ : F) : F := x₁ * y₂ + x₂ * y₁

def dot (x₁ y₁ x₂ y₂ : F) : F := y₁ * y₂ + x₁ * x₂

def twist (d x₁ y₁ x₂ y₂ : F) : F := d * x₁ * x₂ * y₁ * y₂

def sumX (d x₁ y₁ x₂ y₂ : F) : F := cross x₁ y₁ x₂ y₂ / (1 + twist d x₁ y₁ x₂ y₂)

def sumY (d x₁ y₁ x₂ y₂ : F) : F := dot x₁ y₁ x₂ y₂ / (1 - twist d x₁ y₁ x₂ y₂)

variable {d x₁ y₁ x₂ y₂ x₃ y₃ : F}

theorem cross_comm : cross x₁ y₁ x₂ y₂ = cross x₂ y₂ x₁ y₁ := by
  unfold cross
  ring

theorem dot_comm : dot x₁ y₁ x₂ y₂ = dot x₂ y₂ x₁ y₁ := by
  unfold dot
  ring

theorem twist_comm : twist d x₁ y₁ x₂ y₂ = twist d x₂ y₂ x₁ y₁ := by
  unfold twist
  ring

section Complete

/-- A denominator that vanishes makes two numbers squares of which one is `d` times the other. -/
theorem square_of_twist (h₁ : OnCurve d x₁ y₁) (h₂ : OnCurve d x₂ y₂) {i e : F} (hi : i ^ 2 = -1)
    (he : e ^ 2 = 1) (h : twist d x₁ y₁ x₂ y₂ = e) :
    (i * x₁ + e * y₁) ^ 2 = d * (x₁ * y₁ * (i * x₂ + y₂)) ^ 2 := by
  unfold twist at h
  unfold OnCurve at h₁ h₂
  have hsquare : (d * x₁ * x₂ * y₁ * y₂) ^ 2 = 1 := by rw [h, he]
  linear_combination (x₁ ^ 2 - d * x₁ ^ 2 * y₁ ^ 2 * x₂ ^ 2) * hi + y₁ ^ 2 * he + h₁ -
    d * x₁ ^ 2 * y₁ ^ 2 * h₂ - hsquare - 2 * i * x₁ * y₁ * h

variable [hd : Complete d]

theorem twist_sq_ne_one (h₁ : OnCurve d x₁ y₁) (h₂ : OnCurve d x₂ y₂) :
    twist d x₁ y₁ x₂ y₂ ^ 2 ≠ 1 := by
  intro he
  obtain ⟨i, hi⟩ := hd.root
  have hne : i ≠ 0 := by
    rintro rfl
    simp at hi
  have hzero : ∀ r : F, r ^ 2 = -1 → r * x₂ + y₂ = 0 := by
    intro r hr
    have hsquare := square_of_twist h₁ h₂ hr he rfl
    by_contra hsum
    have hfactor : x₁ * y₁ * (r * x₂ + y₂) ≠ 0 := by
      apply mul_ne_zero _ hsum
      intro hxy
      have htwist : twist d x₁ y₁ x₂ y₂ = d * (x₁ * y₁) * (x₂ * y₂) := by
        unfold twist
        ring
      rw [htwist, hxy] at he
      simp at he
    refine hd.nonsquare ⟨(r * x₁ + twist d x₁ y₁ x₂ y₂ * y₁) / (x₁ * y₁ * (r * x₂ + y₂)), ?_⟩
    rw [div_mul_div_comm, eq_div_iff (mul_ne_zero hfactor hfactor)]
    linear_combination -hsquare
  -- both square roots of minus one do the same, so the second point has no `x`
  have hplus := hzero i hi
  have hminus := hzero (-i) (by rw [neg_sq, hi])
  have hx : 2 * i * x₂ = 0 := by linear_combination hplus - hminus
  have hx₂ : x₂ = 0 := by
    simpa [hd.two_ne_zero, hne] using hx
  rw [hx₂] at he
  simp [twist] at he

theorem denominators_ne_zero (h₁ : OnCurve d x₁ y₁) (h₂ : OnCurve d x₂ y₂) :
    1 + twist d x₁ y₁ x₂ y₂ ≠ 0 ∧ 1 - twist d x₁ y₁ x₂ y₂ ≠ 0 := by
  have hne := twist_sq_ne_one h₁ h₂
  constructor <;> intro hzero <;> apply hne
  · linear_combination (twist d x₁ y₁ x₂ y₂ - 1) * hzero
  · linear_combination -(twist d x₁ y₁ x₂ y₂ + 1) * hzero

end Complete

section Sum

theorem sum_onCurve (h₁ : OnCurve d x₁ y₁) (h₂ : OnCurve d x₂ y₂)
    (hplus : 1 + twist d x₁ y₁ x₂ y₂ ≠ 0) (hminus : 1 - twist d x₁ y₁ x₂ y₂ ≠ 0) :
    OnCurve d (sumX d x₁ y₁ x₂ y₂) (sumY d x₁ y₁ x₂ y₂) := by
  have hnumerators : -(cross x₁ y₁ x₂ y₂ * (1 - twist d x₁ y₁ x₂ y₂)) ^ 2 +
      (dot x₁ y₁ x₂ y₂ * (1 + twist d x₁ y₁ x₂ y₂)) ^ 2 =
      ((1 + twist d x₁ y₁ x₂ y₂) * (1 - twist d x₁ y₁ x₂ y₂)) ^ 2 +
        d * (cross x₁ y₁ x₂ y₂ * dot x₁ y₁ x₂ y₂) ^ 2 := by
    unfold OnCurve at h₁ h₂
    unfold cross dot twist
    linear_combination ((y₂ ^ 2 - x₂ ^ 2) ^ 2 - 2 * x₂ ^ 2 * y₂ ^ 2 * (1 + d) +
      2 * x₂ ^ 2 * y₂ ^ 2 * (y₂ ^ 2 - x₂ ^ 2) - 2 * d * x₂ ^ 4 * y₂ ^ 4 - d ^ 2 * x₂ ^ 4 * y₂ ^ 4 +
      d * x₂ ^ 2 * y₂ ^ 2 * (x₁ ^ 2 - y₁ ^ 2) * (y₂ ^ 2 - x₂ ^ 2 - d * x₂ ^ 2 * y₂ ^ 2) +
      d ^ 3 * x₁ ^ 2 * y₁ ^ 2 * x₂ ^ 4 * y₂ ^ 4) * h₁ +
      (1 + (1 + x₁ ^ 2 - y₁ ^ 2) * (y₂ ^ 2 - x₂ ^ 2 + 2 * x₂ ^ 2 * y₂ ^ 2) +
      d * x₂ ^ 2 * y₂ ^ 2 * ((1 + x₁ ^ 2) ^ 2 + y₁ ^ 4 - 2 * y₁ ^ 2)) * h₂
  unfold OnCurve sumX sumY
  field_simp
  linear_combination hnumerators

theorem sumX_fraction {u v : F} (hu : u ≠ 0) (hv : v ≠ 0) (p q : F) :
    sumX d (p / u) (q / v) x₃ y₃ =
      (p * y₃ * v + x₃ * q * u) / (u * v + d * p * q * x₃ * y₃) := by
  have huv : u * v ≠ 0 := mul_ne_zero hu hv
  have hnumerator : cross (p / u) (q / v) x₃ y₃ = (p * y₃ * v + x₃ * q * u) / (u * v) := by
    unfold cross
    field_simp
  have hdenominator :
      1 + twist d (p / u) (q / v) x₃ y₃ = (u * v + d * p * q * x₃ * y₃) / (u * v) := by
    unfold twist
    field_simp
  rw [sumX, hnumerator, hdenominator, div_div_div_cancel_right₀ huv]

theorem sumY_fraction {u v : F} (hu : u ≠ 0) (hv : v ≠ 0) (p q : F) :
    sumY d (p / u) (q / v) x₃ y₃ =
      (q * y₃ * u + p * x₃ * v) / (u * v - d * p * q * x₃ * y₃) := by
  have huv : u * v ≠ 0 := mul_ne_zero hu hv
  have hnumerator : dot (p / u) (q / v) x₃ y₃ = (q * y₃ * u + p * x₃ * v) / (u * v) := by
    unfold dot
    field_simp
  have hdenominator :
      1 - twist d (p / u) (q / v) x₃ y₃ = (u * v - d * p * q * x₃ * y₃) / (u * v) := by
    unfold twist
    field_simp
  rw [sumY, hnumerator, hdenominator, div_div_div_cancel_right₀ huv]

theorem fraction_denominators {u v p q : F} (hu : u ≠ 0) (hv : v ≠ 0)
    (h : 1 + twist d (p / u) (q / v) x₃ y₃ ≠ 0 ∧ 1 - twist d (p / u) (q / v) x₃ y₃ ≠ 0) :
    u * v + d * p * q * x₃ * y₃ ≠ 0 ∧ u * v - d * p * q * x₃ * y₃ ≠ 0 := by
  have huv : u * v ≠ 0 := mul_ne_zero hu hv
  have htwist : d * p * q * x₃ * y₃ = u * v * twist d (p / u) (q / v) x₃ y₃ := by
    unfold twist
    field_simp
  rw [htwist]
  constructor
  · have hne := mul_ne_zero huv h.1
    rwa [mul_add, mul_one] at hne
  · have hne := mul_ne_zero huv h.2
    rwa [mul_sub, mul_one] at hne

end Sum

section Associativity

/-- Both ways to add three points give the same fraction. The cofactors of the three equations are
the quotients of a division by them. -/
theorem assoc_x (h₁ : OnCurve d x₁ y₁) (h₂ : OnCurve d x₂ y₂) (h₃ : OnCurve d x₃ y₃) :
    (cross x₁ y₁ x₂ y₂ * y₃ * (1 - twist d x₁ y₁ x₂ y₂) +
        x₃ * dot x₁ y₁ x₂ y₂ * (1 + twist d x₁ y₁ x₂ y₂)) *
      ((1 + twist d x₂ y₂ x₃ y₃) * (1 - twist d x₂ y₂ x₃ y₃) +
        d * cross x₂ y₂ x₃ y₃ * dot x₂ y₂ x₃ y₃ * x₁ * y₁) =
    (cross x₂ y₂ x₃ y₃ * y₁ * (1 - twist d x₂ y₂ x₃ y₃) +
        x₁ * dot x₂ y₂ x₃ y₃ * (1 + twist d x₂ y₂ x₃ y₃)) *
      ((1 + twist d x₁ y₁ x₂ y₂) * (1 - twist d x₁ y₁ x₂ y₂) +
        d * cross x₁ y₁ x₂ y₂ * dot x₁ y₁ x₂ y₂ * x₃ * y₃) := by
  unfold OnCurve at h₁ h₂ h₃
  unfold cross dot twist
  linear_combination
    d * x₂ * y₂ * (x₃ * y₃ * (y₂ * (x₁ * y₃ - y₁ * x₃) * (y₂ ^ 2 - d * x₂ ^ 2 * y₂ ^ 2) +
        x₂ * (y₁ * y₃ - x₁ * x₃) * (x₂ ^ 2 + d * x₂ ^ 2 * y₂ ^ 2)) -
      x₂ * y₂ * ((x₃ ^ 3 + x₃) * (y₁ * y₂ + x₁ * x₂) - (y₃ ^ 3 - y₃) * (x₁ * y₂ + x₂ * y₁))) * h₁ +
    d * x₂ * y₂ * (x₃ * y₃ * ((y₁ ^ 3 - y₁) * (x₂ * y₃ + x₃ * y₂) +
        (x₁ ^ 3 + x₁) * (y₂ * y₃ + x₂ * x₃)) -
      x₁ * y₁ * ((y₃ ^ 3 - y₃) * (x₁ * y₂ + x₂ * y₁) + (x₃ ^ 3 + x₃) * (y₁ * y₂ + x₁ * x₂))) * h₂ +
    d * x₂ * y₂ * (x₂ * y₂ * ((x₁ ^ 3 + x₁) * (y₂ * y₃ + x₂ * x₃) -
        (y₁ ^ 3 - y₁) * (x₂ * y₃ + x₃ * y₂)) -
      x₁ * y₁ * (y₂ * (y₁ * x₃ - x₁ * y₃) * (y₂ ^ 2 - d * x₂ ^ 2 * y₂ ^ 2) +
        x₂ * (y₁ * y₃ - x₁ * x₃) * (x₂ ^ 2 + d * x₂ ^ 2 * y₂ ^ 2))) * h₃

theorem assoc_y (h₁ : OnCurve d x₁ y₁) (h₂ : OnCurve d x₂ y₂) (h₃ : OnCurve d x₃ y₃) :
    (dot x₁ y₁ x₂ y₂ * y₃ * (1 + twist d x₁ y₁ x₂ y₂) +
        cross x₁ y₁ x₂ y₂ * x₃ * (1 - twist d x₁ y₁ x₂ y₂)) *
      ((1 + twist d x₂ y₂ x₃ y₃) * (1 - twist d x₂ y₂ x₃ y₃) -
        d * cross x₂ y₂ x₃ y₃ * dot x₂ y₂ x₃ y₃ * x₁ * y₁) =
    (dot x₂ y₂ x₃ y₃ * y₁ * (1 + twist d x₂ y₂ x₃ y₃) +
        cross x₂ y₂ x₃ y₃ * x₁ * (1 - twist d x₂ y₂ x₃ y₃)) *
      ((1 + twist d x₁ y₁ x₂ y₂) * (1 - twist d x₁ y₁ x₂ y₂) -
        d * cross x₁ y₁ x₂ y₂ * dot x₁ y₁ x₂ y₂ * x₃ * y₃) := by
  unfold OnCurve at h₁ h₂ h₃
  unfold cross dot twist
  linear_combination
    d * x₂ * y₂ * (x₃ * y₃ * (y₂ * (y₁ * y₃ - x₁ * x₃) * (y₂ ^ 2 - d * x₂ ^ 2 * y₂ ^ 2) +
        x₂ * (x₁ * y₃ - y₁ * x₃) * (x₂ ^ 2 + d * x₂ ^ 2 * y₂ ^ 2)) +
      x₂ * y₂ * ((y₃ ^ 3 - y₃) * (y₁ * y₂ + x₁ * x₂) - (x₃ ^ 3 + x₃) * (x₁ * y₂ + x₂ * y₁))) * h₁ +
    d * x₂ * y₂ * (x₁ * y₁ * ((x₃ ^ 3 + x₃) * (x₁ * y₂ + x₂ * y₁) +
        (y₃ ^ 3 - y₃) * (y₁ * y₂ + x₁ * x₂)) -
      x₃ * y₃ * ((x₁ ^ 3 + x₁) * (x₂ * y₃ + x₃ * y₂) + (y₁ ^ 3 - y₁) * (y₂ * y₃ + x₂ * x₃))) * h₂ +
    d * x₂ * y₂ * (x₂ * y₂ * ((x₁ ^ 3 + x₁) * (x₂ * y₃ + x₃ * y₂) -
        (y₁ ^ 3 - y₁) * (y₂ * y₃ + x₂ * x₃)) -
      x₁ * y₁ * (y₂ * (y₁ * y₃ - x₁ * x₃) * (y₂ ^ 2 - d * x₂ ^ 2 * y₂ ^ 2) -
        x₂ * (x₁ * y₃ - y₁ * x₃) * (x₂ ^ 2 + d * x₂ ^ 2 * y₂ ^ 2))) * h₃

variable [Complete d]

theorem sumX_assoc (h₁ : OnCurve d x₁ y₁) (h₂ : OnCurve d x₂ y₂) (h₃ : OnCurve d x₃ y₃) :
    sumX d (sumX d x₁ y₁ x₂ y₂) (sumY d x₁ y₁ x₂ y₂) x₃ y₃ =
      sumX d (sumX d x₂ y₂ x₃ y₃) (sumY d x₂ y₂ x₃ y₃) x₁ y₁ := by
  obtain ⟨hp, hm⟩ := denominators_ne_zero h₁ h₂
  obtain ⟨hp', hm'⟩ := denominators_ne_zero h₂ h₃
  have hleft := denominators_ne_zero (sum_onCurve h₁ h₂ hp hm) h₃
  have hright := denominators_ne_zero (sum_onCurve h₂ h₃ hp' hm') h₁
  refine (sumX_fraction hp hm _ _).trans (Eq.trans ?_ (sumX_fraction hp' hm' _ _).symm)
  rw [div_eq_div_iff (fraction_denominators hp hm hleft).1
    (fraction_denominators hp' hm' hright).1]
  exact assoc_x h₁ h₂ h₃

theorem sumY_assoc (h₁ : OnCurve d x₁ y₁) (h₂ : OnCurve d x₂ y₂) (h₃ : OnCurve d x₃ y₃) :
    sumY d (sumX d x₁ y₁ x₂ y₂) (sumY d x₁ y₁ x₂ y₂) x₃ y₃ =
      sumY d (sumX d x₂ y₂ x₃ y₃) (sumY d x₂ y₂ x₃ y₃) x₁ y₁ := by
  obtain ⟨hp, hm⟩ := denominators_ne_zero h₁ h₂
  obtain ⟨hp', hm'⟩ := denominators_ne_zero h₂ h₃
  have hleft := denominators_ne_zero (sum_onCurve h₁ h₂ hp hm) h₃
  have hright := denominators_ne_zero (sum_onCurve h₂ h₃ hp' hm') h₁
  refine (sumY_fraction hp hm _ _).trans (Eq.trans ?_ (sumY_fraction hp' hm' _ _).symm)
  rw [div_eq_div_iff (fraction_denominators hp hm hleft).2
    (fraction_denominators hp' hm' hright).2]
  exact assoc_y h₁ h₂ h₃

end Associativity

@[ext] structure Point (d : F) where
  x : F
  y : F
  onCurve : OnCurve d x y

namespace Point

instance : Zero (Point d) := ⟨⟨0, 1, by simp [OnCurve]⟩⟩

instance : Neg (Point d) := ⟨fun P => ⟨-P.x, P.y, by simpa [OnCurve] using P.onCurve⟩⟩

@[simp] theorem zero_x : (0 : Point d).x = 0 := rfl

@[simp] theorem zero_y : (0 : Point d).y = 1 := rfl

@[simp] theorem neg_x (P : Point d) : (-P).x = -P.x := rfl

@[simp] theorem neg_y (P : Point d) : (-P).y = P.y := rfl

variable [Complete d]

instance : Add (Point d) := ⟨fun P Q =>
  have hne := denominators_ne_zero P.onCurve Q.onCurve
  ⟨sumX d P.x P.y Q.x Q.y, sumY d P.x P.y Q.x Q.y,
    sum_onCurve P.onCurve Q.onCurve hne.1 hne.2⟩⟩

theorem add_x (P Q : Point d) : (P + Q).x = sumX d P.x P.y Q.x Q.y := rfl

theorem add_y (P Q : Point d) : (P + Q).y = sumY d P.x P.y Q.x Q.y := rfl

theorem add_comm (P Q : Point d) : P + Q = Q + P := by
  apply Point.ext
  · rw [add_x, add_x, sumX, sumX, cross_comm, twist_comm]
  · rw [add_y, add_y, sumY, sumY, dot_comm, twist_comm]

theorem add_assoc (P Q R : Point d) : P + Q + R = P + (Q + R) := by
  rw [add_comm P (Q + R)]
  apply Point.ext
  · exact sumX_assoc P.onCurve Q.onCurve R.onCurve
  · exact sumY_assoc P.onCurve Q.onCurve R.onCurve

theorem zero_add (P : Point d) : 0 + P = P := by
  apply Point.ext
  · simp [add_x, sumX, cross, twist]
  · simp [add_y, sumY, dot, twist]

theorem neg_add_cancel (P : Point d) : -P + P = 0 := by
  have hminus := (denominators_ne_zero (-P).onCurve P.onCurve).2
  apply Point.ext
  · have hcross : cross (-P).x (-P).y P.x P.y = 0 := by
      simp only [cross, neg_x, neg_y]
      ring
    rw [add_x, sumX, hcross, zero_div, zero_x]
  · have hdot : dot (-P).x (-P).y P.x P.y = 1 - twist d (-P).x (-P).y P.x P.y := by
      have hcurve := P.onCurve
      unfold OnCurve at hcurve
      simp only [dot, twist, neg_x, neg_y]
      linear_combination hcurve
    rw [add_y, sumY, hdot, div_self hminus, zero_y]

instance : AddCommGroup (Point d) where
  add_assoc := add_assoc
  zero_add := zero_add
  add_zero P := by rw [add_comm, zero_add]
  neg_add_cancel := neg_add_cancel
  add_comm := add_comm
  nsmul := nsmulRec
  zsmul := zsmulRec

end Point

end LiberaCrypt.TwistedEdwards
