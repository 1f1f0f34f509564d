import LiberaCrypt.Endian
import Mathlib.Data.List.GetD

namespace LiberaCrypt.BlockXor

open LiberaCrypt.BigEndian

def xorBlocks (x y : List UInt8) : List UInt8 := List.zipWith (· ^^^ ·) x y

@[simp] theorem xorBlocks_length (x y : List UInt8) :
    (xorBlocks x y).length = min x.length y.length := List.length_zipWith

theorem xor_parts {k l l' : Nat} (hl : l < 2 ^ k) (hl' : l' < 2 ^ k) (h h' : Nat) :
    (2 ^ k * h + l) ^^^ (2 ^ k * h' + l') = 2 ^ k * (h ^^^ h') + (l ^^^ l') := by
  have hpos := Nat.two_pow_pos k
  have hlow : ((2 ^ k * h + l) ^^^ (2 ^ k * h' + l')) % 2 ^ k = l ^^^ l' := by
    rw [Nat.xor_mod_two_pow, Nat.mul_add_mod, Nat.mul_add_mod, Nat.mod_eq_of_lt hl,
      Nat.mod_eq_of_lt hl']
  have hhigh : ((2 ^ k * h + l) ^^^ (2 ^ k * h' + l')) / 2 ^ k = h ^^^ h' := by
    rw [Nat.xor_div_two_pow, Nat.mul_add_div hpos, Nat.mul_add_div hpos, Nat.div_eq_of_lt hl,
      Nat.div_eq_of_lt hl', Nat.add_zero, Nat.add_zero]
  rw [← Nat.div_add_mod ((2 ^ k * h + l) ^^^ (2 ^ k * h' + l')) (2 ^ k), hlow, hhigh]

theorem two_pow_bytes (n : Nat) : 2 ^ (8 * n) = 256 ^ n := by
  rw [pow_mul]
  rfl

theorem beValue_cons_xor (x r : UInt8) (bytes : List UInt8) :
    beValue ((x ^^^ r) :: bytes) = beValue (x :: bytes) ^^^ 256 ^ bytes.length * r.toNat := by
  have hlt := beValue_lt bytes
  rw [← two_pow_bytes] at hlt
  have hparts := xor_parts hlt (Nat.two_pow_pos (8 * bytes.length)) x.toNat r.toNat
  rw [Nat.add_zero, Nat.xor_zero, two_pow_bytes] at hparts
  rw [beValue_cons, beValue_cons, UInt8.toNat_xor, hparts]

theorem beValue_append_xor (bytes : List UInt8) (x r : UInt8) :
    beValue (bytes ++ [x ^^^ r]) = beValue (bytes ++ [x]) ^^^ r.toNat := by
  have hparts := xor_parts (k := 8) x.toNat_lt r.toNat_lt (beValue bytes) 0
  rw [Nat.mul_zero, Nat.zero_add, Nat.xor_zero] at hparts
  rw [beValue_append_byte, beValue_append_byte, UInt8.toNat_xor, Nat.add_comm x.toNat,
    Nat.add_comm (x.toNat ^^^ r.toNat)]
  exact hparts.symm

theorem beValue_xorBlocks {x y : List UInt8} (h : x.length = y.length) :
    beValue (xorBlocks x y) = beValue x ^^^ beValue y := by
  induction x generalizing y with
  | nil =>
    obtain rfl := List.length_eq_zero_iff.mp h.symm
    rfl
  | cons a x ih =>
    cases y with
    | nil => cases h
    | cons b y =>
      have hlength : x.length = y.length := Nat.succ.inj h
      have hx := beValue_lt x
      have hy := beValue_lt y
      rw [← two_pow_bytes] at hx hy
      rw [← hlength] at hy
      have hparts := xor_parts hx hy a.toNat b.toNat
      change beValue ((a ^^^ b) :: xorBlocks x y) = _
      rw [beValue_cons, beValue_cons, beValue_cons, ih hlength, xorBlocks_length, ← hlength,
        Nat.min_self, UInt8.toNat_xor, ← two_pow_bytes, hparts]

/-- The bits of each byte lie where the byte lies, from the highest. -/
theorem beValue_testBit {bytes : List UInt8} {i j : Nat} (hi : i < bytes.length) (hj : j < 8) :
    (beValue bytes).testBit (8 * (bytes.length - 1 - i) + j) =
      (bytes.getD i 0).toNat.testBit j := by
  induction bytes using List.reverseRecOn generalizing i with
  | nil => exact absurd hi (Nat.not_lt_zero i)
  | append_singleton bytes x ih =>
    have hx := x.toNat_lt
    rw [List.length_append, List.length_singleton] at hi ⊢
    rw [beValue_append_byte, Nat.add_sub_cancel]
    by_cases hlast : i = bytes.length
    · rw [hlast, Nat.sub_self, Nat.mul_zero, Nat.zero_add,
        List.getD_append_right _ _ _ _ (le_refl _), Nat.sub_self, List.getD_cons_zero,
        Nat.add_comm x.toNat]
      exact Nat.testBit_two_pow_mul_add (i := 8) _ hx j |>.trans (if_pos hj)
    · have hlt : i < bytes.length := by omega
      have hindex : 8 * (bytes.length - i) + j = 8 + (8 * (bytes.length - 1 - i) + j) := by omega
      have hdiv : (x.toNat + 256 * beValue bytes) / 2 ^ 8 = beValue bytes := by omega
      rw [List.getD_append _ _ _ _ hlt, ← ih hlt, hindex, Nat.add_comm 8, ← Nat.testBit_div_two_pow,
        hdiv]

end LiberaCrypt.BlockXor
