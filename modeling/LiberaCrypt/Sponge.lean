import LiberaCrypt.MerkleDamgard
import Mathlib.Data.List.GetD

namespace LiberaCrypt.Sponge

open LiberaCrypt.BlockBuffer

variable {b : Nat}

abbrev BitString (b : Nat) := Fin b → Bool

/-- A one, the fewest zeros and a one that make `m` bits a multiple of `x`. -/
def pad10star1 (x m : Nat) : List Bool :=
  true :: List.replicate ((x - (m + 2) % x) % x) false ++ [true]

def xorAt (s : BitString b) (offset : Nat) (bits : List Bool) : BitString b := fun i =>
  s i ^^ (offset ≤ i.val && bits.getD (i.val - offset) false)

/-- The blocks of `r` bits, extended with zeros to the width of the state, are added and permuted
one after the other. -/
def absorb (f : BitString b → BitString b) (r : Nat) (bits : List Bool) : BitString b :=
  foldBlocks (fun s block => f (xorAt s 0 block)) r (fun _ => false) bits

def bitAt (s : BitString b) (j : Nat) : Bool := if h : j < b then s ⟨j, h⟩ else false

/-- The first `d` bits of the first `r` bits of each of the states that follow. -/
def squeeze (f : BitString b → BitString b) (r d : Nat) (s : BitString b) : List Bool :=
  (List.range d).map fun i => bitAt (f^[i / r] s) (i % r)

def sponge (f : BitString b → BitString b) (r : Nat) (bits : List Bool) (d : Nat) : List Bool :=
  squeeze f r d (absorb f r (bits ++ pad10star1 r bits.length))

/-- The state that has absorbed some bits, of which the last block is not full yet. -/
def absorbPart (f : BitString b → BitString b) (r : Nat) (bits : List Bool) : BitString b :=
  xorAt (absorb f r bits) 0 (bits.drop (r * (bits.length / r)))

theorem xorAt_nil (s : BitString b) (offset : Nat) : xorAt s offset [] = s := by
  funext i
  simp [xorAt]

theorem getD_append (xs ys : List Bool) (k : Nat) : (xs ++ ys).getD k false =
    if k < xs.length then xs.getD k false else ys.getD (k - xs.length) false := by
  split
  case isTrue h => rw [List.getD_append _ _ _ _ h]
  case isFalse h => rw [List.getD_append_right _ _ _ _ (not_lt.mp h)]

theorem xorAt_append (s : BitString b) (offset : Nat) (xs ys : List Bool) :
    xorAt s offset (xs ++ ys) = xorAt (xorAt s offset xs) (offset + xs.length) ys := by
  funext i
  unfold xorAt
  rw [getD_append]
  by_cases hoffset : offset ≤ i.val
  · by_cases hlength : i.val - offset < xs.length
    · have hnot : ¬ offset + xs.length ≤ i.val := by omega
      simp [hoffset, hlength, hnot]
    · have hle : offset + xs.length ≤ i.val := by omega
      have hout : xs.getD (i.val - offset) false = false :=
        List.getD_eq_default _ _ (not_lt.mp hlength)
      rw [if_neg hlength, hout, Nat.sub_add_eq]
      simp [hoffset, hle]
  · have hnot : ¬ offset + xs.length ≤ i.val := by omega
    simp [hoffset, hnot]

section Absorb

variable {f : BitString b → BitString b} {r : Nat} {bits more : List Bool}

theorem absorb_append (hr : 0 < r) (bits more : List Bool) :
    absorb f r (bits ++ more) = foldBlocks (fun s block => f (xorAt s 0 block)) r
      (absorb f r bits) (bits.drop (r * (bits.length / r)) ++ more) := by
  have hlength := Nat.div_add_mod bits.length r
  have hmod := Nat.mod_lt bits.length hr
  have hfull : (bits.take (r * (bits.length / r))).length = r * (bits.length / r) := by
    rw [List.length_take]
    omega
  have htail : (bits.drop (r * (bits.length / r))).length < r := by
    rw [List.length_drop]
    omega
  have hbits : absorb f r bits = foldBlocks (fun s block => f (xorAt s 0 block)) r
      (fun _ => false) (bits.take (r * (bits.length / r))) := by
    conv_lhs => rw [absorb, ← List.take_append_drop (r * (bits.length / r)) bits,
      foldBlocks_append hr _ _ hfull, foldBlocks_short _ htail]
  rw [hbits]
  conv_lhs => rw [absorb, ← List.take_append_drop (r * (bits.length / r)) bits,
    List.append_assoc, foldBlocks_append hr _ _ hfull]

theorem drop_length (bits : List Bool) (r : Nat) :
    (bits.drop (r * (bits.length / r))).length = bits.length % r := by
  have hlength := Nat.div_add_mod bits.length r
  rw [List.length_drop]
  omega

theorem absorbPart_within (hr : 0 < r) (h : bits.length % r + more.length < r) :
    absorbPart f r (bits ++ more) = xorAt (absorbPart f r bits) (bits.length % r) more := by
  have hlength := drop_length bits r
  have hdiv : (bits ++ more).length / r = bits.length / r := by
    have hdivision := Nat.div_add_mod bits.length r
    rw [List.length_append]
    apply Nat.div_eq_of_lt_le
    · rw [Nat.mul_comm]
      omega
    · rw [Nat.succ_mul, Nat.mul_comm]
      omega
  have hshort : (bits.drop (r * (bits.length / r)) ++ more).length < r := by
    rw [List.length_append, hlength]
    exact h
  rw [absorbPart, absorb_append hr, foldBlocks_short _ hshort, hdiv,
    List.drop_append_of_le_length (Nat.mul_div_le _ _), xorAt_append, Nat.zero_add, hlength,
    absorbPart]

theorem absorb_full (hr : 0 < r) (h : bits.length % r + more.length = r) :
    absorb f r (bits ++ more) = f (xorAt (absorbPart f r bits) (bits.length % r) more) := by
  have hlength := drop_length bits r
  have hblock : (bits.drop (r * (bits.length / r)) ++ more).length = r := by
    rw [List.length_append, hlength]
    exact h
  rw [absorb_append hr, foldBlocks_one hr _ hblock, xorAt_append, Nat.zero_add, hlength, absorbPart]

theorem absorbPart_full (hr : 0 < r) (h : bits.length % r + more.length = r) :
    absorbPart f r (bits ++ more) = f (xorAt (absorbPart f r bits) (bits.length % r) more) := by
  have hdivision := Nat.div_add_mod bits.length r
  have htotal : (bits ++ more).length = r * (bits.length / r + 1) := by
    rw [List.length_append, Nat.mul_succ]
    omega
  rw [absorbPart, ← absorb_full (f := f) hr h, htotal, Nat.mul_div_cancel_left _ hr, ← htotal,
    List.drop_length, xorAt_nil]

theorem absorbPart_nil : absorbPart f r [] = fun _ => false := by
  rw [absorbPart, List.drop_nil, xorAt_nil]
  simp [absorb, foldBlocks, pieces]

end Absorb

section Padding

variable {r : Nat} {bits suffix : List Bool}

/-- A suffix and the padding that fit behind the waiting bits fill the block. -/
theorem suffix_pad (h : bits.length % r + suffix.length + 2 ≤ r) :
    suffix ++ pad10star1 r (bits ++ suffix).length =
      suffix ++ [true] ++ List.replicate (r - bits.length % r - suffix.length - 2) false ++
        [true] := by
  have hdivision := Nat.div_add_mod bits.length r
  have hzeros : (r - ((bits ++ suffix).length + 2) % r) % r =
      r - bits.length % r - suffix.length - 2 := by
    apply MerkleDamgard.zeros_eq (m := bits.length / r + 1) (by omega)
    rw [List.length_append, Nat.mul_succ]
    omega
  rw [pad10star1, hzeros]
  simp

theorem suffix_pad_length (h : bits.length % r + suffix.length + 2 ≤ r) :
    (suffix ++ pad10star1 r (bits ++ suffix).length).length = r - bits.length % r := by
  rw [suffix_pad h]
  simp only [List.length_append, List.length_replicate, List.length_singleton]
  omega

theorem suffix_pad_getD (h : bits.length % r + suffix.length + 2 ≤ r) (k : Nat) :
    (suffix ++ pad10star1 r (bits ++ suffix).length).getD k false =
      ((suffix ++ [true]).getD k false ^^ decide (k + 1 = r - bits.length % r)) := by
  rw [suffix_pad h, getD_append, getD_append]
  simp only [List.length_append, List.length_replicate, List.length_singleton]
  generalize hn : r - bits.length % r = n at *
  by_cases hfirst : k < suffix.length + 1
  · have hlast : ¬ k + 1 = n := by omega
    rw [if_pos (by omega), if_pos hfirst]
    simp [hlast]
  have hout : (suffix ++ [true]).getD k false = false :=
    List.getD_eq_default _ _ (by simpa using hfirst)
  rw [hout, if_neg hfirst]
  by_cases hzero : k < n - 1
  · have hlast : ¬ k + 1 = n := by omega
    rw [if_pos (by omega)]
    simp [hlast]
  · rw [if_neg (by omega)]
    by_cases hlast : k + 1 = n
    · have hindex : k - (suffix.length + 1 + (n - suffix.length - 2)) = 0 := by omega
      simp [hindex, hlast]
    · rw [List.getD_eq_default _ _ (by simp; omega)]
      simp [hlast]

end Padding

end LiberaCrypt.Sponge
