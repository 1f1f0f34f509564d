import Mathlib.Tactic

namespace LiberaCrypt.SmallInt

/-- A signed word holds the natural number `n`. -/
def Holds (c : Int32) (n : Nat) : Prop := c.toInt = n

variable {c d : Int32} {m n : Nat}

theorem Holds.lt (h : Holds c n) : n < 2 ^ 31 := by
  have hlt := Int32.toInt_lt c
  unfold Holds at h
  omega

theorem bmod_small (h : n < 2 ^ 31) : (n : Int).bmod (2 ^ 32) = n := by
  apply Int.bmod_eq_of_le
  · omega
  · push_cast
    omega

theorem Holds.add (hc : Holds c m) (hd : Holds d n) (h : m + n < 2 ^ 31) :
    Holds (c + d) (m + n) := by
  unfold Holds at *
  rw [Int32.toInt_add, hc, hd, ← Nat.cast_add, bmod_small h]

theorem Holds.mul (hc : Holds c m) (hd : Holds d n) (h : m * n < 2 ^ 31) :
    Holds (c * d) (m * n) := by
  unfold Holds at *
  rw [Int32.toInt_mul, hc, hd, ← Nat.cast_mul, bmod_small h]

theorem Holds.div (hc : Holds c m) (hd : Holds d n) : Holds (c / d) (m / n) := by
  have hm := hc.lt
  have hle := Nat.div_le_self m n
  unfold Holds at *
  rw [Int32.toInt_div, hc, hd, Int.natCast_tdiv_eq_ediv, ← Int.natCast_ediv, bmod_small (by omega)]

theorem Holds.mod (hc : Holds c m) (hd : Holds d n) : Holds (c % d) (m % n) := by
  unfold Holds at *
  rw [Int32.toInt_mod, hc, hd, ← Int.ofNat_tmod]

theorem Holds.lt_iff (hc : Holds c m) (hd : Holds d n) : c < d ↔ m < n := by
  unfold Holds at *
  rw [Int32.lt_iff_toInt_lt, hc, hd, Nat.cast_lt]

theorem holds_toInt32 {u : UInt32} (h : u.toNat < 2 ^ 31) : Holds u.toInt32 u.toNat := by
  have hword : u.toInt32.toBitVec.toNat = u.toNat := rfl
  unfold Holds
  rw [Int32.toInt, BitVec.toInt_eq_toNat_cond, hword, if_pos (by omega)]

theorem Holds.toNat (h : Holds c n) : c.toUInt32.toNat = n := by
  have hlt := h.lt
  unfold Holds at h
  rw [Int32.toInt, BitVec.toInt_eq_toNat_cond] at h
  have hword : c.toUInt32.toNat = c.toBitVec.toNat := rfl
  rw [hword]
  have hb := c.toBitVec.isLt
  split at h <;> omega

theorem holds_of_toNat (h : c.toUInt32.toNat < 2 ^ 31) : Holds c c.toUInt32.toNat :=
  holds_toInt32 h

end LiberaCrypt.SmallInt
