import LiberaCrypt.CountedLoop
import Mathlib.AlgebraicGeometry.EllipticCurve.Affine.Point
import Mathlib.FieldTheory.Finite.Basic
import Mathlib.Tactic

namespace LiberaCrypt.ShortWeierstrass

open WeierstrassCurve.Affine

scoped instance atLeastTwo_two : Nat.AtLeastTwo 2 := ⟨le_refl 2⟩

scoped instance atLeastTwo_three : Nat.AtLeastTwo 3 := ⟨Nat.le_succ 2⟩

/-- The curve `y² = x³ - 3x + b`. -/
def curve {R : Type*} [CommRing R] (b : R) : WeierstrassCurve.Affine R := ⟨0, 0, 0, -3, b⟩

section CommRing

variable {R : Type*} [CommRing R] {b x y : R}

theorem equation_iff_cubic : (curve b).Equation x y ↔ y * y = x * x * x - (x + x + x) + b := by
  rw [equation_iff]
  simp only [curve]
  constructor
  · intro h
    linear_combination h
  · intro h
    linear_combination h

theorem negY_eq : (curve b).negY x y = -y := by
  simp [negY, curve]

end CommRing

/-- A point off the horizontal axis is not singular. -/
theorem nonsingular_of_ne_zero {F : Type*} [Field F] {W : WeierstrassCurve.Affine F} {x y : F}
    (ha₁ : W.a₁ = 0) (ha₃ : W.a₃ = 0) (htwo : (2 : F) ≠ 0) (hy : y ≠ 0) (h : W.Equation x y) :
    W.Nonsingular x y := by
  rw [nonsingular_iff]
  refine ⟨h, Or.inr fun hneg => ?_⟩
  rw [ha₁, ha₃] at hneg
  have hdouble : 2 * y = 0 := by linear_combination hneg
  rcases mul_eq_zero.mp hdouble with h2 | h0
  · exact htwo h2
  · exact hy h0

end LiberaCrypt.ShortWeierstrass

namespace LiberaCrypt.ShortJacobian

open LiberaCrypt.CountedLoop LiberaCrypt.ShortWeierstrass WeierstrassCurve.Affine

/-- `(X / Z², Y / Z³)`, or the neutral element if `Z` is zero. -/
@[ext] structure Jacobian (R : Type*) where
  x : R
  y : R
  z : R

namespace Jacobian

section Formulas

variable {R : Type*} [CommRing R]

def infinity : Jacobian R := ⟨0, 1, 0⟩

def tangent (a : Jacobian R) : Jacobian R :=
  let delta := a.z * a.z
  let gamma := a.y * a.y
  let beta := a.x * gamma
  let alpha := 3 * ((a.x - delta) * (a.x + delta))
  let x := alpha * alpha - 8 * beta
  ⟨x, alpha * (4 * beta - x) - 8 * (gamma * gamma),
    (a.y + a.z) * (a.y + a.z) - gamma - delta⟩

def run (a b : Jacobian R) : R := b.x * (a.z * a.z) - a.x * (b.z * b.z)

def rise (a b : Jacobian R) : R :=
  2 * (b.y * (a.z * a.z * a.z) - a.y * (b.z * b.z * b.z))

def chord (a b : Jacobian R) : Jacobian R :=
  let u1 := a.x * (b.z * b.z)
  let s1 := a.y * (b.z * b.z * b.z)
  let h := run a b
  let r := rise a b
  let i := 2 * h * (2 * h)
  let j := h * i
  let v := u1 * i
  let x := r * r - j - 2 * v
  ⟨x, r * (v - x) - 2 * (s1 * j),
    ((a.z + b.z) * (a.z + b.z) - a.z * a.z - b.z * b.z) * h⟩

def Stands {b : R} (a : Jacobian R) : (curve b).Point → Prop
  | .zero => a.z = 0
  | .some x y _ => a.z ≠ 0 ∧ a.x = x * a.z ^ 2 ∧ a.y = y * a.z ^ 3

theorem stands_infinity {b : R} : Stands infinity (0 : (curve b).Point) := rfl

end Formulas

section Group

variable {F : Type*} [Field F] {b : F}

variable {a c : Jacobian F} {P Q : (curve b).Point}

theorem Stands.z_eq_zero (h : Stands a P) : a.z = 0 ↔ P = 0 := by
  cases P with
  | zero => exact iff_of_true h rfl
  | some x y hP => exact iff_of_false h.1 (Point.some_ne_zero hP)

variable [DecidableEq F]

def double (a : Jacobian F) : Jacobian F := if a.z = 0 ∨ a.y = 0 then infinity else tangent a

def add (a c : Jacobian F) : Jacobian F :=
  if c.z = 0 then a
  else if a.z = 0 then c
  else if run a c = 0 then if rise a c = 0 then double a else infinity
  else chord a c

theorem Stands.double (htwo : (2 : F) ≠ 0) (h : Stands a P) : Stands a.double (P + P) := by
  unfold Jacobian.double
  cases P with
  | zero =>
    have hz : a.z = 0 := h
    rw [if_pos (Or.inl hz)]
    exact stands_infinity
  | some x y hP =>
    obtain ⟨hz, hx, hy⟩ := h
    by_cases hzero : y = 0
    · have hself : y = (curve b).negY x y := by rw [negY_eq, hzero, neg_zero]
      rw [if_pos (Or.inr (by rw [hy, hzero, zero_mul])), Point.add_self_of_Y_eq hself]
      exact stands_infinity
    · have hdouble : 2 * y ≠ 0 := mul_ne_zero htwo hzero
      have hne : y ≠ (curve b).negY x y := by
        rw [negY_eq]
        intro hneg
        apply hdouble
        linear_combination hneg
      have hyz : a.y ≠ 0 := by
        rw [hy]
        exact mul_ne_zero hzero (pow_ne_zero 3 hz)
      have hslope : (curve b).slope x x y y * (2 * y) = 3 * x ^ 2 - 3 := by
        have hden : y - -y = 2 * y := by ring
        rw [slope_of_Y_ne rfl hne, negY_eq, hden, div_mul_cancel₀ _ hdouble]
        simp only [curve]
        ring
      rw [if_neg (not_or.mpr ⟨hz, hyz⟩), Point.add_self_of_Y_ne hne]
      simp only [Stands, addX, addY, negAddY, negY_eq]
      generalize (curve b).slope x x y y = l at *
      simp only [curve, tangent, hx, hy]
      generalize a.z = z at *
      have hrise : 3 * ((x * z ^ 2 - z * z) * (x * z ^ 2 + z * z)) = z ^ 4 * (l * (2 * y)) := by
        rw [hslope]
        ring
      rw [hrise]
      refine ⟨?_, by ring, by ring⟩
      have hthird : (y * z ^ 3 + z) * (y * z ^ 3 + z) - y * z ^ 3 * (y * z ^ 3) - z * z =
          2 * y * z ^ 4 := by ring
      rw [hthird]
      exact mul_ne_zero hdouble (pow_ne_zero 4 hz)

theorem Stands.chord {x₁ y₁ x₂ y₂ : F} {h₁ : (curve b).Nonsingular x₁ y₁}
    {h₂ : (curve b).Nonsingular x₂ y₂} (htwo : (2 : F) ≠ 0) (ha : Stands a (.some x₁ y₁ h₁))
    (hc : Stands c (.some x₂ y₂ h₂)) (hne : x₁ ≠ x₂) :
    Stands (Jacobian.chord a c) (.some x₁ y₁ h₁ + .some x₂ y₂ h₂) := by
  obtain ⟨hz, hx, hy⟩ := ha
  obtain ⟨hz', hx', hy'⟩ := hc
  have hsub : x₁ - x₂ ≠ 0 := sub_ne_zero.mpr hne
  have hslope : (curve b).slope x₁ x₂ y₁ y₂ * (x₁ - x₂) = y₁ - y₂ := by
    rw [slope_of_X_ne hne, div_mul_cancel₀ _ hsub]
  rw [Point.add_of_X_ne hne]
  simp only [Stands, addX, addY, negAddY, negY_eq]
  generalize (curve b).slope x₁ x₂ y₁ y₂ = l at *
  simp only [curve, Jacobian.chord, run, rise, hx, hy, hx', hy']
  generalize a.z = z at *
  generalize c.z = w at *
  have hy₁ : y₁ = l * (x₁ - x₂) + y₂ := by rw [hslope]; ring
  subst hy₁
  refine ⟨?_, by ring, by ring⟩
  have hthird : ((z + w) * (z + w) - z * z - w * w) *
      (x₂ * w ^ 2 * (z * z) - x₁ * z ^ 2 * (w * w)) = -(2 * (z * w) ^ 3 * (x₁ - x₂)) := by ring
  rw [hthird]
  exact neg_ne_zero.mpr (mul_ne_zero (mul_ne_zero htwo (pow_ne_zero 3 (mul_ne_zero hz hz'))) hsub)

theorem Stands.add (htwo : (2 : F) ≠ 0) (ha : Stands a P) (hc : Stands c Q) :
    Stands (Jacobian.add a c) (P + Q) := by
  unfold Jacobian.add
  by_cases hQ : Q = 0
  · rw [if_pos (hc.z_eq_zero.mpr hQ), hQ, add_zero]
    exact ha
  rw [if_neg fun h => hQ (hc.z_eq_zero.mp h)]
  by_cases hP : P = 0
  · rw [if_pos (ha.z_eq_zero.mpr hP), hP, zero_add]
    exact hc
  rw [if_neg fun h => hP (ha.z_eq_zero.mp h)]
  cases P with
  | zero => exact absurd rfl hP
  | some x₁ y₁ h₁ =>
    cases Q with
    | zero => exact absurd rfl hQ
    | some x₂ y₂ h₂ =>
      have hz := ha.1
      have hz' := hc.1
      have hrun : run a c = (x₂ - x₁) * (a.z * c.z) ^ 2 := by
        rw [run, ha.2.1, hc.2.1]
        ring
      have hrise : rise a c = 2 * (y₂ - y₁) * (a.z * c.z) ^ 3 := by
        rw [rise, ha.2.2, hc.2.2]
        ring
      have hscale : a.z * c.z ≠ 0 := mul_ne_zero hz hz'
      by_cases hx : x₁ = x₂
      · subst hx
        rw [if_pos (by rw [hrun, sub_self, zero_mul])]
        by_cases hy : y₁ = y₂
        · subst hy
          rw [if_pos (by rw [hrise, sub_self, mul_zero, zero_mul])]
          exact ha.double htwo
        · have hopposite : y₁ = (curve b).negY x₁ y₂ :=
            (Y_eq_of_X_eq h₁.1 h₂.1 rfl).resolve_left hy
          have hnonzero : rise a c ≠ 0 := by
            rw [hrise]
            have hsub : y₂ - y₁ ≠ 0 := sub_ne_zero.mpr fun heq => hy heq.symm
            exact mul_ne_zero (mul_ne_zero htwo hsub) (pow_ne_zero 3 hscale)
          rw [if_neg hnonzero, Point.add_of_Y_eq rfl hopposite]
          exact stands_infinity
      · have hnonzero : run a c ≠ 0 := by
          rw [hrun]
          exact mul_ne_zero (sub_ne_zero.mpr fun heq => hx heq.symm) (pow_ne_zero 2 hscale)
        rw [if_neg hnonzero]
        exact ha.chord htwo hc hx

end Group

section Representatives

variable (p : Nat)

def subMod (x y : Nat) : Nat := (x + (p - y % p)) % p

def tangentMod (a : Jacobian Nat) : Jacobian Nat :=
  let delta := a.z * a.z % p
  let gamma := a.y * a.y % p
  let beta := a.x * gamma % p
  let alpha := 3 * (subMod p a.x delta * (a.x + delta)) % p
  let x := subMod p (alpha * alpha) (8 * beta)
  ⟨x, subMod p (alpha * subMod p (4 * beta) x) (8 * (gamma * gamma)),
    subMod p (subMod p ((a.y + a.z) * (a.y + a.z)) gamma) delta⟩

def runMod (a c : Jacobian Nat) : Nat := subMod p (c.x * (a.z * a.z)) (a.x * (c.z * c.z))

def riseMod (a c : Jacobian Nat) : Nat :=
  2 * subMod p (c.y * (a.z * a.z * a.z)) (a.y * (c.z * c.z * c.z)) % p

def chordMod (a c : Jacobian Nat) : Jacobian Nat :=
  let u1 := a.x * (c.z * c.z) % p
  let s1 := a.y * (c.z * c.z * c.z) % p
  let h := runMod p a c
  let r := riseMod p a c
  let i := 2 * h * (2 * h) % p
  let j := h * i % p
  let v := u1 * i % p
  let x := subMod p (subMod p (r * r) j) (2 * v)
  ⟨x, subMod p (r * subMod p v x) (2 * (s1 * j)),
    subMod p (subMod p ((a.z + c.z) * (a.z + c.z)) (a.z * a.z)) (c.z * c.z) * h % p⟩

def doubleMod (a : Jacobian Nat) : Jacobian Nat :=
  if a.z % p = 0 ∨ a.y % p = 0 then ⟨0, 1, 0⟩ else tangentMod p a

def addMod (a c : Jacobian Nat) : Jacobian Nat :=
  if c.z % p = 0 then a
  else if a.z % p = 0 then c
  else if runMod p a c = 0 then if riseMod p a c = 0 then doubleMod p a else ⟨0, 1, 0⟩
  else chordMod p a c

def multiplyMod (bits k : Nat) (a : Jacobian Nat) : Jacobian Nat :=
  countDown bits (fun i acc =>
    let twice := doubleMod p acc
    if k / 2 ^ i % 2 = 1 then addMod p twice a else twice) ⟨0, 1, 0⟩

variable {p}

def residues (a : Jacobian Nat) : Jacobian (ZMod p) := ⟨a.x, a.y, a.z⟩

theorem subMod_cast (hp : 0 < p) (x y : Nat) : (subMod p x y : ZMod p) = x - y := by
  have hle : y % p ≤ p := (Nat.mod_lt y hp).le
  rw [subMod, ZMod.natCast_mod, Nat.cast_add, Nat.cast_sub hle, ZMod.natCast_self,
    ZMod.natCast_mod]
  ring

theorem reduced_eq_zero {x : Nat} (hx : x < p) : x = 0 ↔ (x : ZMod p) = 0 := by
  rw [ZMod.natCast_eq_zero_iff]
  constructor
  · rintro rfl
    exact Nat.dvd_zero p
  · intro h
    exact Nat.eq_zero_of_dvd_of_lt h hx

theorem mod_eq_zero (x : Nat) : x % p = 0 ↔ (x : ZMod p) = 0 := by
  rw [ZMod.natCast_eq_zero_iff, Nat.dvd_iff_mod_eq_zero]

theorem residues_tangentMod (hp : 0 < p) (a : Jacobian Nat) :
    residues (p := p) (tangentMod p a) = tangent (residues a) := by
  simp only [residues, tangentMod, tangent, subMod_cast hp, ZMod.natCast_mod, Nat.cast_mul,
    Nat.cast_add, Nat.cast_ofNat]

theorem runMod_cast (hp : 0 < p) (a c : Jacobian Nat) :
    (runMod p a c : ZMod p) = run (residues a) (residues c) := by
  simp only [residues, runMod, run, subMod_cast hp, Nat.cast_mul]

theorem riseMod_cast (hp : 0 < p) (a c : Jacobian Nat) :
    (riseMod p a c : ZMod p) = rise (residues a) (residues c) := by
  simp only [residues, riseMod, rise, subMod_cast hp, ZMod.natCast_mod, Nat.cast_mul,
    Nat.cast_ofNat]

theorem residues_chordMod (hp : 0 < p) (a c : Jacobian Nat) :
    residues (p := p) (chordMod p a c) = chord (residues a) (residues c) := by
  have hrun := runMod_cast hp a c
  have hrise := riseMod_cast hp a c
  simp only [residues] at hrun hrise
  simp only [residues, chordMod, chord, subMod_cast hp, ZMod.natCast_mod, Nat.cast_mul,
    Nat.cast_add, Nat.cast_ofNat, hrun, hrise]

variable [Fact p.Prime]

theorem residues_doubleMod (a : Jacobian Nat) :
    residues (p := p) (doubleMod p a) = double (residues a) := by
  have hp : 0 < p := (Fact.out : p.Prime).pos
  unfold doubleMod double
  by_cases h : a.z % p = 0 ∨ a.y % p = 0
  · rw [if_pos h]
    rw [mod_eq_zero, mod_eq_zero] at h
    rw [if_pos (show (residues (p := p) a).z = 0 ∨ (residues (p := p) a).y = 0 from h)]
    simp [residues, infinity]
  · rw [if_neg h, residues_tangentMod hp]
    rw [mod_eq_zero, mod_eq_zero] at h
    rw [if_neg (show ¬ ((residues (p := p) a).z = 0 ∨ (residues (p := p) a).y = 0) from h)]

theorem residues_addMod (a c : Jacobian Nat) :
    residues (p := p) (addMod p a c) = add (residues a) (residues c) := by
  have hp : 0 < p := (Fact.out : p.Prime).pos
  have hrun : runMod p a c = 0 ↔ run (residues (p := p) a) (residues c) = 0 := by
    rw [← runMod_cast hp]
    exact reduced_eq_zero (Nat.mod_lt _ hp)
  have hrise : riseMod p a c = 0 ↔ rise (residues (p := p) a) (residues c) = 0 := by
    rw [← riseMod_cast hp]
    exact reduced_eq_zero (Nat.mod_lt _ hp)
  unfold addMod add
  by_cases hc : c.z % p = 0
  · rw [if_pos hc, if_pos (show (residues (p := p) c).z = 0 from (mod_eq_zero _).mp hc)]
  rw [if_neg hc, if_neg (show (residues (p := p) c).z ≠ 0 from fun h => hc ((mod_eq_zero _).mpr h))]
  by_cases ha : a.z % p = 0
  · rw [if_pos ha, if_pos (show (residues (p := p) a).z = 0 from (mod_eq_zero _).mp ha)]
  rw [if_neg ha, if_neg (show (residues (p := p) a).z ≠ 0 from fun h => ha ((mod_eq_zero _).mpr h))]
  by_cases h0 : runMod p a c = 0
  · rw [if_pos h0, if_pos (hrun.mp h0)]
    by_cases h1 : riseMod p a c = 0
    · rw [if_pos h1, if_pos (hrise.mp h1), residues_doubleMod]
    · rw [if_neg h1, if_neg fun h => h1 (hrise.mpr h)]
      simp [residues, infinity]
  · rw [if_neg h0, if_neg fun h => h0 (hrun.mpr h), residues_chordMod hp]

theorem multiplyMod_stands {b : ZMod p} (htwo : (2 : ZMod p) ≠ 0) {a : Jacobian Nat}
    {P : (curve b).Point} (ha : Stands (residues a) P) {bits k : Nat} (hk : k < 2 ^ bits) :
    Stands (residues (multiplyMod p bits k a)) (k • P) := by
  have hloop := countDown_invariant (fun i acc =>
    Stands (residues (p := p) acc) ((k / 2 ^ i) • P)) (n := bits) (s := ⟨0, 1, 0⟩)
    (f := fun i acc =>
      let twice := doubleMod p acc
      if k / 2 ^ i % 2 = 1 then addMod p twice a else twice) ?_ ?_
  · rwa [pow_zero, Nat.div_one] at hloop
  · rw [Nat.div_eq_of_lt hk, zero_nsmul]
    exact Nat.cast_zero
  · intro i hi acc hacc
    have hdouble := hacc.double htwo
    have hhalf : k / 2 ^ i = k / 2 ^ (i + 1) + k / 2 ^ (i + 1) + k / 2 ^ i % 2 := by
      rw [pow_succ, ← Nat.div_div_eq_div_mul]
      omega
    rw [← residues_doubleMod, ← add_nsmul] at hdouble
    dsimp only
    split_ifs with hbit
    · have hsum := hdouble.add htwo ha
      rw [residues_addMod]
      rw [hhalf, hbit, add_nsmul, one_nsmul]
      exact hsum
    · rw [hhalf, show k / 2 ^ i % 2 = 0 by omega, add_zero]
      exact hdouble

end Representatives

end Jacobian

end LiberaCrypt.ShortJacobian
