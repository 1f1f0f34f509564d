import LiberaCrypt.CountedLoop
import Mathlib.Data.List.GetD
import Mathlib.Tactic

namespace LiberaCrypt.ConstantTime

open LiberaCrypt.CountedLoop

def byteDifference (left right : List UInt8) (length : Nat) : UInt32 :=
  countUp length (fun i difference =>
    difference ||| (left.getD i 0 ^^^ right.getD i 0).toUInt32) 0

def cryptoConstantTimeEqual (left right : List UInt8) (length : Nat) : Bool :=
  byteDifference left right length == 0

theorem nonzero_mask (x : UInt32) :
    (x ||| ((0 : UInt32) - x)) >>> 31 = if x = 0 then 0 else 1 := by
  split_ifs with h
  · rw [h]
    rfl
  · have hne : x.toNat ≠ 0 := fun h0 => h (UInt32.toNat_inj.mp h0)
    have hlt := x.toNat_lt
    have hneg : ((0 : UInt32) - x).toNat = 2 ^ 32 - x.toNat := by
      rw [UInt32.toNat_sub, UInt32.toNat_zero]
      omega
    have hor := (x ||| ((0 : UInt32) - x)).toNat_lt
    have hleft : x.toNat ≤ (x ||| ((0 : UInt32) - x)).toNat := by
      rw [UInt32.toNat_or]
      exact Nat.left_le_or
    have hright : ((0 : UInt32) - x).toNat ≤ (x ||| ((0 : UInt32) - x)).toNat := by
      rw [UInt32.toNat_or]
      exact Nat.right_le_or
    apply UInt32.toNat_inj.mp
    rw [UInt32.toNat_shiftRight, UInt32.toNat_one]
    change (x ||| ((0 : UInt32) - x)).toNat >>> 31 = 1
    rw [Nat.shiftRight_eq_div_pow]
    omega

theorem byte_eq_zero {x : UInt8} : x.toUInt32 = 0 ↔ x = 0 := by
  rw [← UInt32.toNat_inj, ← UInt8.toNat_inj, UInt8.toNat_toUInt32]
  rfl

theorem xor_eq_zero {x y : UInt8} : (x ^^^ y).toUInt32 = 0 ↔ x = y := by
  rw [byte_eq_zero, UInt8.xor_eq_zero_iff]

theorem byteDifference_eq_zero (left right : List UInt8) (length : Nat) :
    byteDifference left right length = 0 ↔ ∀ i < length, left.getD i 0 = right.getD i 0 := by
  induction length with
  | zero => simp [byteDifference]
  | succ n ih =>
    rw [byteDifference, countUp_succ, UInt32.or_eq_zero_iff, xor_eq_zero]
    change byteDifference left right n = 0 ∧ _ ↔ _
    rw [ih]
    constructor
    · rintro ⟨hlow, hn⟩ i hi
      rcases Nat.lt_succ_iff_lt_or_eq.mp hi with h | rfl
      · exact hlow i h
      · exact hn
    · intro h
      exact ⟨fun i hi => h i (Nat.lt_succ_of_lt hi), h n (Nat.lt_succ_self n)⟩

theorem cryptoConstantTimeEqual_iff (left right : List UInt8) (length : Nat) :
    cryptoConstantTimeEqual left right length = true ↔
      ∀ i < length, left.getD i 0 = right.getD i 0 := by
  rw [cryptoConstantTimeEqual, beq_iff_eq, byteDifference_eq_zero]

/-- The comparison of a tag with the first bytes of a computed one. -/
theorem cryptoConstantTimeEqual_take (full : List UInt8) {tag : List UInt8} {length : Nat}
    (htag : tag.length = length) (hfull : length ≤ full.length) :
    cryptoConstantTimeEqual full tag length = true ↔ full.take length = tag := by
  rw [cryptoConstantTimeEqual_iff]
  constructor
  · intro hequal
    apply List.ext_getElem (by rw [List.length_take, htag, Nat.min_eq_left hfull])
    intro i hi hi'
    have hbyte := hequal i (by omega)
    rw [List.getD_eq_getElem _ _ (by omega), List.getD_eq_getElem _ _ hi'] at hbyte
    rw [List.getElem_take, hbyte]
  · rintro rfl i hi
    rw [List.getD_eq_getElem _ _ (by omega), List.getD_eq_getElem _ _ (by omega),
      List.getElem_take]

end LiberaCrypt.ConstantTime
