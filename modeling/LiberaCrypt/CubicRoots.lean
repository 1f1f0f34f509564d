import LiberaCrypt.CountedLoop
import LiberaCrypt.PowerLadder
import Mathlib.FieldTheory.Finite.Basic

namespace LiberaCrypt.CubicRoots

open LiberaCrypt.CountedLoop LiberaCrypt.PowerLadder

/-- `c0 + c1 X + c2 X²`, with the coefficients reduced. -/
structure Residue where
  c0 : Nat
  c1 : Nat
  c2 : Nat
  deriving DecidableEq

/-- The product modulo `p` and `X³ = a X + b`. -/
def multiply (p a b : Nat) (s t : Residue) : Residue :=
  let d3 := s.c1 * t.c2 + s.c2 * t.c1
  let d4 := s.c2 * t.c2
  ⟨(s.c0 * t.c0 + b * d3) % p, (s.c0 * t.c1 + s.c1 * t.c0 + a * d3 + b * d4) % p,
    (s.c0 * t.c2 + s.c1 * t.c1 + s.c2 * t.c0 + a * d4) % p⟩

def power (p a b e bits : Nat) : Residue :=
  countDown bits (fun i t =>
    let square := multiply p a b t t
    if e / 2 ^ i % 2 = 1 then multiply p a b square ⟨0, 1, 0⟩ else square) ⟨1, 0, 0⟩

/-- `X ^ p - X` is a unit, with `inverse` its inverse. -/
def noRoot (p a b bits : Nat) (inverse : Residue) : Bool :=
  let t := power p a b p bits
  decide (multiply p a b inverse ⟨t.c0, t.c1 + (p - 1), t.c2⟩ = ⟨1, 0, 0⟩)

variable {p a b : Nat} {r : ZMod p}

def Residue.eval (t : Residue) (r : ZMod p) : ZMod p := t.c0 + t.c1 * r + t.c2 * r ^ 2

theorem multiply_eval (hr : r ^ 3 = a * r + b) (s t : Residue) :
    (multiply p a b s t).eval r = s.eval r * t.eval r := by
  simp only [multiply, Residue.eval, ZMod.natCast_mod, Nat.cast_add, Nat.cast_mul]
  linear_combination -(s.c1 * t.c2 + s.c2 * t.c1 + s.c2 * t.c2 * r) * hr

theorem power_eval (hr : r ^ 3 = a * r + b) {e bits : Nat} (hbits : e < 2 ^ bits) :
    (power p a b e bits).eval r = r ^ e := by
  have hloop := countDown_invariant (fun i (t : Residue) => t.eval r = r ^ (e / 2 ^ i))
    (n := bits) (s := ⟨1, 0, 0⟩)
    (f := fun i t =>
      let square := multiply p a b t t
      if e / 2 ^ i % 2 = 1 then multiply p a b square ⟨0, 1, 0⟩ else square) ?_ ?_
  · rwa [pow_zero, Nat.div_one] at hloop
  · rw [Nat.div_eq_of_lt hbits]
    simp [Residue.eval]
  · intro i hi t ht
    have hx : Residue.eval ⟨0, 1, 0⟩ r = r := by simp [Residue.eval]
    dsimp only
    split_ifs with hbit
    · rw [multiply_eval hr, multiply_eval hr, ht, hx, step_set r hbit]
    · rw [multiply_eval hr, ht, step_clear r (by omega)]

theorem ne_of_noRoot (hp : p.Prime) {bits : Nat} {inverse : Residue} (hbits : p < 2 ^ bits)
    (hcheck : noRoot p a b bits inverse = true) (r : ZMod p) : r ^ 3 ≠ a * r + b := by
  have hfact := Fact.mk hp
  intro hr
  have hpower := power_eval hr hbits
  have hinverse := congrArg (Residue.eval · r) (of_decide_eq_true hcheck)
  rw [multiply_eval hr] at hinverse
  generalize power p a b p bits = t at *
  have hzero : Residue.eval ⟨t.c0, t.c1 + (p - 1), t.c2⟩ r = 0 := by
    rw [ZMod.pow_card, Residue.eval] at hpower
    rw [Residue.eval, Nat.cast_add, Nat.cast_sub hp.one_le, ZMod.natCast_self, Nat.cast_one]
    linear_combination hpower
  rw [hzero, mul_zero] at hinverse
  simp [Residue.eval] at hinverse

end LiberaCrypt.CubicRoots
