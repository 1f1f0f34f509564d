import LiberaCrypt.CountedLoop
import LiberaCrypt.MontgomeryCurve

namespace LiberaCrypt.MontgomeryLadder

open LiberaCrypt.CountedLoop LiberaCrypt.MontgomeryCurve WeierstrassCurve.Affine

structure Ladder (R : Type*) where
  first : Fraction R
  second : Fraction R
  swapped : Bool

section Definitions

variable {R : Type*} [CommRing R]

def exchange (swap : Bool) (A B : Fraction R) : Fraction R × Fraction R :=
  if swap then (B, A) else (A, B)

/-- One bit of the scalar. The places are exchanged where the bit differs from the last one. -/
def ladderStep (k u : R) (scalar bit : Nat) (s : Ladder R) : Ladder R :=
  let pair := exchange (s.swapped ^^ scalar.testBit bit) s.first s.second
  ⟨pair.1.double k, pair.1.add u pair.2, scalar.testBit bit⟩

def ladder (k u : R) (bits scalar : Nat) : Fraction R :=
  let s := countDown bits (ladderStep k u scalar) ⟨⟨1, 0⟩, ⟨u, 1⟩, false⟩
  (exchange s.swapped s.first s.second).1

end Definitions

section Field

variable {F : Type*} [Field F] {a k : F} {D : (curve a).Point} {scalar : Nat}

theorem ladder_zero (k : F) (bits scalar : Nat) :
    (ladder k 0 bits scalar).x = 0 ∨ (ladder k 0 bits scalar).z = 0 := by
  have hloop := countDown_invariant (fun _ (s : Ladder F) =>
    (s.first.x = 0 ∨ s.first.z = 0) ∧ (s.second.x = 0 ∨ s.second.z = 0)) (n := bits)
    (s := ⟨⟨1, 0⟩, ⟨0, 1⟩, false⟩) (f := ladderStep k 0 scalar) ⟨Or.inr rfl, Or.inl rfl⟩ ?_
  · rw [ladder]
    cases (countDown bits (ladderStep k 0 scalar) ⟨⟨1, 0⟩, ⟨0, 1⟩, false⟩).swapped with
    | false => exact hloop.1
    | true => exact hloop.2
  · rintro i - s ⟨hfirst, hsecond⟩
    have hpair : (exchange (s.swapped ^^ scalar.testBit i) s.first s.second).1.x = 0 ∨
        (exchange (s.swapped ^^ scalar.testBit i) s.first s.second).1.z = 0 := by
      cases s.swapped ^^ scalar.testBit i with
      | false => exact hfirst
      | true => exact hsecond
    refine ⟨Or.inr ?_, Or.inr ?_⟩
    · rw [ladderStep, Fraction.double_eq rfl]
      cases hpair with
      | inl hx => simp [hx]
      | inr hz => simp [hz]
    · rw [ladderStep, Fraction.add_eq]
      exact zero_mul _

variable [DecidableEq F]

theorem ladderStep_stands (htwo : (2 : F) ≠ 0) (hk : 4 * k + 2 = a) {u v : F}
    {hD : (curve a).Nonsingular u v} (hu : u ≠ 0) {m i : Nat} {s : Ladder F}
    (hfirst : Stands (exchange s.swapped s.first s.second).1 (m • Point.some u v hD))
    (hsecond : Stands (exchange s.swapped s.first s.second).2 ((m + 1) • Point.some u v hD)) :
    let next := ladderStep k u scalar i s
    Stands (exchange next.swapped next.first next.second).1
        ((2 * m + (scalar.testBit i).toNat) • Point.some u v hD) ∧
      Stands (exchange next.swapped next.first next.second).2
        ((2 * m + (scalar.testBit i).toNat + 1) • Point.some u v hD) := by
  intro next
  generalize hA : (exchange s.swapped s.first s.second).1 = A at *
  generalize hB : (exchange s.swapped s.first s.second).2 = B at *
  have hpair : exchange (s.swapped ^^ scalar.testBit i) s.first s.second =
      exchange (scalar.testBit i) A B := by
    subst hA hB
    cases s.swapped <;> cases scalar.testBit i <;> rfl
  have hdouble := hfirst.double htwo hk
  have hdouble' := hsecond.double htwo hk
  have hsum := hfirst.add htwo hk hu (by rwa [succ_nsmul] at hsecond)
  rw [← succ_nsmul, ← add_nsmul, ← add_assoc, ← two_mul] at hsum
  rw [← add_nsmul, ← two_mul] at hdouble hdouble'
  have hnext : next = ⟨(exchange (scalar.testBit i) A B).1.double k,
      (exchange (scalar.testBit i) A B).1.add u (exchange (scalar.testBit i) A B).2,
      scalar.testBit i⟩ := by
    simp only [next, ladderStep, hpair]
  rw [hnext]
  cases scalar.testBit i with
  | false => exact ⟨hdouble, hsum⟩
  | true =>
    refine ⟨?_, hdouble'⟩
    change Stands (B.add u A) _
    rw [Fraction.add_comm]
    exact hsum

/-- The multiples of the point with the abscissa zero are itself and the neutral element. -/
theorem abscissa_nsmul_zero {v : F} (hD : (curve a).Nonsingular 0 v) (n : Nat) :
    abscissa (n • Point.some 0 v hD) = 0 := by
  have hcurve := equation_iff_cubic.mp hD.1
  have hv : v = 0 := by simpa using hcurve
  have hself : v = (curve a).negY 0 v := by rw [negY_eq, hv, neg_zero]
  have hmultiple : n • Point.some 0 v hD = 0 ∨ n • Point.some 0 v hD = .some 0 v hD := by
    induction n with
    | zero => exact Or.inl (zero_nsmul _)
    | succ n ih =>
      rw [succ_nsmul]
      cases ih with
      | inl h => rw [h, zero_add]; exact Or.inr rfl
      | inr h => rw [h, Point.add_self_of_Y_eq hself]; exact Or.inl rfl
  cases hmultiple with
  | inl h => rw [h]; rfl
  | inr h => rw [h]; rfl

/-- After the bits from the top down to `i` the fractions stand for consecutive multiples, as the
bits spell them. -/
theorem ladder_stands (htwo : (2 : F) ≠ 0) (hk : 4 * k + 2 = a) {u v : F}
    {hD : (curve a).Nonsingular u v} (hu : u ≠ 0) {bits : Nat} (hbits : scalar < 2 ^ bits) :
    Stands (ladder k u bits scalar) (scalar • Point.some u v hD) := by
  have hloop := countDown_invariant (fun i (s : Ladder F) =>
    Stands (exchange s.swapped s.first s.second).1 ((scalar / 2 ^ i) • Point.some u v hD) ∧
      Stands (exchange s.swapped s.first s.second).2 ((scalar / 2 ^ i + 1) • Point.some u v hD))
    (n := bits) (s := ⟨⟨1, 0⟩, ⟨u, 1⟩, false⟩) (f := ladderStep k u scalar) ?_ ?_
  · rw [pow_zero, Nat.div_one] at hloop
    exact hloop.1
  · rw [Nat.div_eq_of_lt hbits, zero_nsmul, zero_add, one_nsmul]
    exact ⟨⟨rfl, one_ne_zero⟩, one_ne_zero, (mul_one u).symm⟩
  · rintro i - s ⟨hfirst, hsecond⟩
    have hspelled : scalar / 2 ^ i = 2 * (scalar / 2 ^ (i + 1)) + (scalar.testBit i).toNat := by
      rw [Nat.toNat_testBit, pow_succ, ← Nat.div_div_eq_div_mul]
      omega
    rw [hspelled]
    exact ladderStep_stands htwo hk hu hfirst hsecond

theorem ladder_abscissa (htwo : (2 : F) ≠ 0) (hk : 4 * k + 2 = a) (D : (curve a).Point)
    {bits : Nat} (hbits : scalar < 2 ^ bits) :
    (ladder k (abscissa D) bits scalar).x * (ladder k (abscissa D) bits scalar).z⁻¹ =
      abscissa (scalar • D) := by
  have hzero : (ladder k 0 bits scalar).x * (ladder k 0 bits scalar).z⁻¹ = 0 := by
    cases ladder_zero k bits scalar with
    | inl hx => rw [hx, zero_mul]
    | inr hz => rw [hz, inv_zero, mul_zero]
  cases D with
  | zero =>
    have hneutral : (Point.zero : (curve a).Point) = 0 := rfl
    rw [hneutral, smul_zero]
    exact hzero
  | some u v hD =>
    by_cases hu : u = 0
    · subst hu
      rw [abscissa_nsmul_zero]
      exact hzero
    · exact (ladder_stands htwo hk hu hbits).abscissa

end Field

end LiberaCrypt.MontgomeryLadder
