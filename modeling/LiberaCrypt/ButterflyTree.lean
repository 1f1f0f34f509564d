import Mathlib.Algebra.Polynomial.Eval.Defs
import Mathlib.RingTheory.Coprime.Lemmas
import Mathlib.Tactic

namespace LiberaCrypt.ButterflyTree

open Polynomial

variable {K : Type*} [Field K]

/-- One layer of a forward transform: every pair at distance `len` is replaced
by its two residues, with one factor for each block. -/
def Splits (len count : Nat) (z : Nat → K) (v w : Nat → K) : Prop :=
  ∀ b < count, ∀ t < len,
    w (b * (2 * len) + t) = v (b * (2 * len) + t) + z b * v (b * (2 * len) + t + len) ∧
      w (b * (2 * len) + t + len) = v (b * (2 * len) + t) - z b * v (b * (2 * len) + t + len)

def Merges (len count : Nat) (z : Nat → K) (v w : Nat → K) : Prop :=
  ∀ b < count, ∀ t < len,
    w (b * (2 * len) + t) = v (b * (2 * len) + t) + v (b * (2 * len) + t + len) ∧
      w (b * (2 * len) + t + len) =
        z b * (v (b * (2 * len) + t + len) - v (b * (2 * len) + t))

/-- `v` is `c` times `w` on the coefficients a transform works on. -/
def Scaled (n : Nat) (c : K) (v w : Nat → K) : Prop := ∀ k < n, v k = c * w k

theorem block_index {len count k : Nat} (hlen : 0 < len) (hk : k < count * (2 * len)) :
    ∃ b < count, ∃ t < len, k = b * (2 * len) + t ∨ k = b * (2 * len) + t + len := by
  have hb : k / (2 * len) < count := (Nat.div_lt_iff_lt_mul (by omega)).mpr hk
  have hm := Nat.mod_lt k (show 0 < 2 * len by omega)
  have he := Nat.div_add_mod' k (2 * len)
  by_cases h : k % (2 * len) < len
  · exact ⟨_, hb, k % (2 * len), h, Or.inl he.symm⟩
  · exact ⟨_, hb, k % (2 * len) - len, by omega, Or.inr (by omega)⟩

theorem block_bound {len count b t : Nat} (hb : b < count) (ht : t < len) :
    b * (2 * len) + t + len < count * (2 * len) := by
  have h : (b + 1) * (2 * len) ≤ count * (2 * len) := Nat.mul_le_mul_right _ hb
  rw [Nat.succ_mul] at h
  omega

/-- An inverse layer undoes the forward layer whose factors are the negated
inverses of its own, up to a factor of two. -/
theorem merges_splits {len count : Nat} {z z' : Nat → K} {v v' w w' : Nat → K} {c : K}
    (hlen : 0 < len) (hz : ∀ b < count, z' b * z b = -1) (hv : Splits len count z v v')
    (hw : Merges len count z' w w') (h : Scaled (count * (2 * len)) c w v') :
    Scaled (count * (2 * len)) (2 * c) w' v := by
  intro k hk
  obtain ⟨b, hb, t, ht, hkt⟩ := block_index hlen hk
  have hbound := block_bound hb ht
  obtain ⟨hv0, hv1⟩ := hv b hb t ht
  obtain ⟨hw0, hw1⟩ := hw b hb t ht
  have h0 := h (b * (2 * len) + t) (by omega)
  have h1 := h (b * (2 * len) + t + len) hbound
  rcases hkt with rfl | rfl
  · rw [hw0, h0, h1, hv0, hv1]
    ring
  · rw [hw1, h0, h1, hv0, hv1]
    linear_combination (-2 * c * v (b * (2 * len) + t + len)) * hz b hb

theorem splits_merges {len count : Nat} {z z' : Nat → K} {v v' w w' : Nat → K} {c : K}
    (hlen : 0 < len) (hz : ∀ b < count, z' b * z b = -1) (hw : Merges len count z' w w')
    (hv : Splits len count z v v') (h : Scaled (count * (2 * len)) c v w') :
    Scaled (count * (2 * len)) (2 * c) v' w := by
  intro k hk
  obtain ⟨b, hb, t, ht, hkt⟩ := block_index hlen hk
  have hbound := block_bound hb ht
  obtain ⟨hv0, hv1⟩ := hv b hb t ht
  obtain ⟨hw0, hw1⟩ := hw b hb t ht
  have h0 := h (b * (2 * len) + t) (by omega)
  have h1 := h (b * (2 * len) + t + len) hbound
  rcases hkt with rfl | rfl
  · rw [hv0, h0, h1, hw0, hw1]
    linear_combination
      (c * (w (b * (2 * len) + t + len) - w (b * (2 * len) + t))) * hz b hb
  · rw [hv1, h0, h1, hw0, hw1]
    linear_combination
      (-c * (w (b * (2 * len) + t + len) - w (b * (2 * len) + t))) * hz b hb

/-- The polynomial whose coefficients are block `b` of `v`. -/
noncomputable def blockPoly (v : Nat → K) (len b : Nat) : K[X] :=
  ∑ t ∈ Finset.range len, C (v (b * len + t)) * X ^ t

theorem blockPoly_split (v : Nat → K) (len b : Nat) :
    blockPoly v (2 * len) b =
      blockPoly v len (2 * b) + X ^ len * blockPoly v len (2 * b + 1) := by
  simp only [blockPoly, two_mul len, Finset.sum_range_add]
  congr 1
  · refine Finset.sum_congr rfl fun t _ => ?_
    rw [show b * (len + len) + t = 2 * b * len + t by ring]
  · rw [Finset.mul_sum]
    refine Finset.sum_congr rfl fun t _ => ?_
    rw [show b * (len + len) + (len + t) = (2 * b + 1) * len + t by ring]
    ring

theorem blockPoly_splits {len count : Nat} {z : Nat → K} {v w : Nat → K}
    (h : Splits len count z v w) {b : Nat} (hb : b < count) :
    blockPoly w len (2 * b) = blockPoly v len (2 * b) + C (z b) * blockPoly v len (2 * b + 1) ∧
      blockPoly w len (2 * b + 1) =
        blockPoly v len (2 * b) - C (z b) * blockPoly v len (2 * b + 1) := by
  simp only [blockPoly, Finset.mul_sum, ← Finset.sum_add_distrib, ← Finset.sum_sub_distrib]
  have h0 (t : Nat) : 2 * b * len + t = b * (2 * len) + t := by ring
  have h1 (t : Nat) : (2 * b + 1) * len + t = b * (2 * len) + t + len := by ring
  constructor
  · refine Finset.sum_congr rfl fun t ht => ?_
    rw [h0, h1, (h b hb t (Finset.mem_range.mp ht)).1, C_add, C_mul]
    ring
  · refine Finset.sum_congr rfl fun t ht => ?_
    rw [h0, h1, (h b hb t (Finset.mem_range.mp ht)).2, C_sub, C_mul]
    ring

theorem residue_splits {len count : Nat} {z : Nat → K} {v w : Nat → K}
    (h : Splits len count z v w) {b : Nat} (hb : b < count) :
    X ^ len - C (z b) ∣ blockPoly v (2 * len) b - blockPoly w len (2 * b) ∧
      X ^ len - C (-z b) ∣ blockPoly v (2 * len) b - blockPoly w len (2 * b + 1) := by
  obtain ⟨h0, h1⟩ := blockPoly_splits h hb
  rw [blockPoly_split, h0, h1]
  refine ⟨⟨blockPoly v len (2 * b + 1), by ring⟩, ⟨blockPoly v len (2 * b + 1), ?_⟩⟩
  rw [C_neg]
  ring

theorem modulus_split (len : Nat) (z : K) :
    (X ^ (2 * len) - C (z ^ 2) : K[X]) = (X ^ len - C z) * (X ^ len - C (-z)) := by
  rw [C_neg, C_pow, two_mul, pow_add]
  ring

theorem modulus_coprime (len : Nat) {z : K} (hz : z ≠ 0) (h2 : (2 : K) ≠ 0) :
    IsCoprime (X ^ len - C z : K[X]) (X ^ len - C (-z)) := by
  refine ⟨-C (2 * z)⁻¹, C (2 * z)⁻¹, ?_⟩
  have hunit : (C (2 * z)⁻¹ * C (2 * z) : K[X]) = 1 := by
    rw [← C_mul, inv_mul_cancel₀ (mul_ne_zero h2 hz), C_1]
  calc -C (2 * z)⁻¹ * (X ^ len - C z) + C (2 * z)⁻¹ * (X ^ len - C (-z))
      = C (2 * z)⁻¹ * C (2 * z) := by
        rw [C_neg, two_mul z, C_add]
        ring
    _ = 1 := hunit

/-- The factors of a transform of `depth` layers. Node `b` of level `i` stands for the
modulus `X^len - root i b`, which splits by the square root `factor i b`. -/
structure FactorTree (K : Type*) [Field K] (depth : Nat) where
  factor : Nat → Nat → K
  root : Nat → Nat → K
  inverse : Nat → Nat → K
  square : ∀ i < depth, ∀ b < 2 ^ i, factor i b ^ 2 = root i b
  left : ∀ i < depth, ∀ b < 2 ^ i, root (i + 1) (2 * b) = factor i b
  right : ∀ i < depth, ∀ b < 2 ^ i, root (i + 1) (2 * b + 1) = -factor i b
  cancel : ∀ i < depth, ∀ b < 2 ^ i, inverse i b * factor i b = -1

section Tree

variable {depth L : Nat} (T : FactorTree K depth) {v w : Nat → Nat → K} {c : K}

/-- `v i` is the array after `i` forward layers. -/
def Forward (L : Nat) (v : Nat → Nat → K) : Prop :=
  ∀ i < depth, Splits (L * 2 ^ (depth - 1 - i)) (2 ^ i) (T.factor i) (v i) (v (i + 1))

/-- `w i` is the array after `i` inverse layers. -/
def Backward (L : Nat) (w : Nat → Nat → K) : Prop :=
  ∀ i < depth,
    Merges (L * 2 ^ i) (2 ^ (depth - 1 - i)) (T.inverse (depth - 1 - i)) (w i) (w (i + 1))

theorem level_span {i : Nat} (hi : i < depth) :
    2 ^ i * (2 * (L * 2 ^ (depth - 1 - i))) = L * 2 ^ depth := by
  have hd : depth = i + 1 + (depth - 1 - i) := by omega
  calc 2 ^ i * (2 * (L * 2 ^ (depth - 1 - i)))
      = L * 2 ^ (i + 1 + (depth - 1 - i)) := by ring
    _ = L * 2 ^ depth := by rw [← hd]

theorem backward_forward (hL : 0 < L) (hv : Forward T L v) (hw : Backward T L w)
    (h : Scaled (L * 2 ^ depth) c (w 0) (v depth)) :
    Scaled (L * 2 ^ depth) (2 ^ depth * c) (w depth) (v 0) := by
  have hrun : ∀ i ≤ depth, Scaled (L * 2 ^ depth) (2 ^ i * c) (w i) (v (depth - i)) := by
    intro i hi
    induction i with
    | zero => simpa only [pow_zero, one_mul, Nat.sub_zero] using h
    | succ i ih =>
      have hlt : depth - 1 - i < depth := by omega
      have hlayer := hv (depth - 1 - i) hlt
      rw [show depth - 1 - (depth - 1 - i) = i by omega,
        show depth - 1 - i + 1 = depth - i by omega] at hlayer
      have hspan := level_span (L := L) hlt
      rw [show depth - 1 - (depth - 1 - i) = i by omega] at hspan
      have hstep := merges_splits (by positivity) (T.cancel _ hlt) hlayer
        (hw i (by omega)) (hspan ▸ ih (by omega))
      rw [hspan, show depth - 1 - i = depth - (i + 1) by omega] at hstep
      rwa [pow_succ', mul_assoc]
  simpa only [Nat.sub_self] using hrun depth le_rfl

theorem forward_backward (hL : 0 < L) (hv : Forward T L v) (hw : Backward T L w)
    (h : Scaled (L * 2 ^ depth) c (v 0) (w depth)) :
    Scaled (L * 2 ^ depth) (2 ^ depth * c) (v depth) (w 0) := by
  have hrun : ∀ i ≤ depth, Scaled (L * 2 ^ depth) (2 ^ i * c) (v i) (w (depth - i)) := by
    intro i hi
    induction i with
    | zero => simpa only [pow_zero, one_mul, Nat.sub_zero] using h
    | succ i ih =>
      have hlt : i < depth := by omega
      have hlayer := hw (depth - 1 - i) (by omega)
      rw [show depth - 1 - (depth - 1 - i) = i by omega,
        show depth - 1 - i + 1 = depth - i by omega] at hlayer
      have hspan := level_span (L := L) hlt
      have hstep := splits_merges (by positivity) (T.cancel i hlt) hlayer (hv i hlt)
        (hspan ▸ ih (by omega))
      rw [hspan, show depth - 1 - i = depth - (i + 1) by omega] at hstep
      rwa [pow_succ', mul_assoc]
  simpa only [Nat.sub_self] using hrun depth le_rfl

theorem forward_residue (hv : Forward T L v) {b : Nat} (hb : b < 2 ^ depth) :
    X ^ L - C (T.root depth b) ∣ blockPoly (v 0) (L * 2 ^ depth) 0 - blockPoly (v depth) L b := by
  have hrun : ∀ i ≤ depth, ∀ b < 2 ^ i, X ^ (L * 2 ^ (depth - i)) - C (T.root i b) ∣
      blockPoly (v 0) (L * 2 ^ depth) 0 - blockPoly (v i) (L * 2 ^ (depth - i)) b := by
    intro i hi
    induction i with
    | zero =>
      intro b hb
      obtain rfl : b = 0 := by simpa using hb
      simp only [Nat.sub_zero, sub_self, dvd_zero]
    | succ i ih =>
      intro b hb
      have hlt : i < depth := hi
      have hhalf : b / 2 < 2 ^ i := by rw [pow_succ] at hb; omega
      have hprev := ih (by omega) (b / 2) hhalf
      obtain ⟨hleft, hright⟩ := residue_splits (hv i hlt) hhalf
      rw [show L * 2 ^ (depth - i) = 2 * (L * 2 ^ (depth - 1 - i)) by
        rw [show depth - i = depth - 1 - i + 1 by omega]; ring, ← T.square i hlt _ hhalf,
        modulus_split] at hprev
      rw [show depth - (i + 1) = depth - 1 - i by omega]
      rcases Nat.even_or_odd' b with ⟨m, rfl | rfl⟩
      · rw [show 2 * m / 2 = m by omega] at *
        rw [T.left i hlt _ hhalf]
        have hsum := dvd_add (dvd_trans (dvd_mul_right _ _) hprev) hleft
        rwa [sub_add_sub_cancel] at hsum
      · rw [show (2 * m + 1) / 2 = m by omega] at *
        rw [T.right i hlt _ hhalf]
        have hsum := dvd_add (dvd_trans (dvd_mul_left _ _) hprev) hright
        rwa [sub_add_sub_cancel] at hsum
  simpa only [Nat.sub_self, pow_zero, mul_one] using hrun depth le_rfl b hb

theorem top_dvd (h2 : (2 : K) ≠ 0) {p : K[X]}
    (h : ∀ b < 2 ^ depth, X ^ L - C (T.root depth b) ∣ p) :
    X ^ (L * 2 ^ depth) - C (T.root 0 0) ∣ p := by
  have hrun : ∀ i ≤ depth, ∀ b < 2 ^ (depth - i),
      X ^ (L * 2 ^ i) - C (T.root (depth - i) b) ∣ p := by
    intro i hi
    induction i with
    | zero => simpa only [Nat.sub_zero, pow_zero, mul_one] using h
    | succ i ih =>
      intro b hb
      have hlt : depth - (i + 1) < depth := by omega
      have hroot : T.factor (depth - (i + 1)) b ≠ 0 := by
        intro hzero
        have hc := T.cancel _ hlt b hb
        rw [hzero, mul_zero] at hc
        exact neg_ne_zero.mpr one_ne_zero hc.symm
      have hnext : depth - i = depth - (i + 1) + 1 := by omega
      have hleft := ih (by omega) (2 * b) (by rw [hnext, pow_succ]; omega)
      have hright := ih (by omega) (2 * b + 1) (by rw [hnext, pow_succ]; omega)
      rw [hnext, T.left _ hlt b hb] at hleft
      rw [hnext, T.right _ hlt b hb] at hright
      rw [← T.square _ hlt b hb, show L * 2 ^ (i + 1) = 2 * (L * 2 ^ i) by ring, modulus_split]
      exact (modulus_coprime _ hroot h2).mul_dvd hleft hright
  simpa only [Nat.sub_self] using hrun depth le_rfl 0 (by positivity)

end Tree

end LiberaCrypt.ButterflyTree
