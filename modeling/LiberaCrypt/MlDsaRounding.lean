import LiberaCrypt.HighBits
import Mathlib.Tactic

namespace LiberaCrypt.MlDsaRounding

open LiberaCrypt.HighBits

/-- The three values of `MLD_CONFIG_PARAMETER_SET` that the library is built with. -/
inductive ParameterSet where
  | mlDsa44
  | mlDsa65
  | mlDsa87
  deriving DecidableEq, Repr

namespace ParameterSet

def k : ParameterSet → Nat
  | mlDsa44 => 4
  | mlDsa65 => 6
  | mlDsa87 => 8

def beta : ParameterSet → Int
  | mlDsa44 => 78
  | mlDsa65 => 196
  | mlDsa87 => 120

/-- `(MLDSA_Q - 1) / 88` and `(MLDSA_Q - 1) / 32`. -/
def gamma2 : ParameterSet → Int
  | mlDsa44 => 95232
  | mlDsa65 => 261888
  | mlDsa87 => 261888

def omega : ParameterSet → Nat
  | mlDsa44 => 80
  | mlDsa65 => 55
  | mlDsa87 => 75

end ParameterSet

def mldsaQ : Int := 8380417

/-- `-2^31 <= x < 2^31`: the value has the type `int32_t`. -/
def IsInt32 (x : Int) : Prop := -2 ^ 31 ≤ x ∧ x < 2 ^ 31

def mldCastUint32ToInt32 (x : UInt32) : Int := x.toInt32.toInt

def mldCastInt64ToUint32 (x : Int) : UInt32 := UInt32.ofInt x

def mldCastInt32ToUint32 (x : Int) : UInt32 := mldCastInt64ToUint32 x

def mldCtSelInt32 (a b : Int) (cond : UInt32) : Int :=
  let au := mldCastInt32ToUint32 a
  let bu := mldCastInt32ToUint32 b
  mldCastUint32ToInt32 (bu ^^^ (cond &&& (au ^^^ bu)))

def mldCtCmaskNegI32 (x : Int) : UInt32 := mldCastInt64ToUint32 (x.shiftRight 31)

def mldCtAbsI32 (x : Int) : Int := mldCtSelInt32 (-x) x (mldCtCmaskNegI32 x)

def mldReduce32 (a : Int) : Int :=
  let t := (a + 2 ^ 22).shiftRight 23
  a - t * mldsaQ

def mldCaddq (a : Int) : Int := mldCtSelInt32 (a + mldsaQ) a (mldCtCmaskNegI32 a)

/-- The number of the window that `a` rounds to, by the multiplication with an inverse. -/
def decomposeHigh : ParameterSet → Int → Int
  | .mlDsa44, a =>
    let a1 := (a + 127).shiftRight 7
    let a1 := (a1 * 11275 + 2 ^ 23).shiftRight 24
    mldCtSelInt32 0 a1 (mldCtCmaskNegI32 (43 - a1))
  | .mlDsa65, a | .mlDsa87, a =>
    let a1 := (a + 127).shiftRight 7
    let a1 := (a1 * 1025 + 2 ^ 21).shiftRight 22
    mldCastUint32ToInt32 (mldCastInt32ToUint32 a1 &&& 15)

def mldDecompose (p : ParameterSet) (a : Int) : Int × Int :=
  let a1 := decomposeHigh p a
  let a0 := a - a1 * 2 * p.gamma2
  (mldCtSelInt32 (a0 - mldsaQ) a0 (mldCtCmaskNegI32 ((mldsaQ - 1) / 2 - a0)), a1)

def mldMakeHint (p : ParameterSet) (a0 a1 : Int) : Nat :=
  if a0 > p.gamma2 ∨ a0 < -p.gamma2 ∨ a0 = -p.gamma2 ∧ a1 ≠ 0 then 1 else 0

def mldUseHint (p : ParameterSet) (a hint : Int) : Int :=
  let a0 := (mldDecompose p a).1
  let a1 := (mldDecompose p a).2
  if hint = 0 then a1
  else match p with
    | .mlDsa44 =>
      if a0 > 0 then if a1 = 43 then 0 else a1 + 1
      else if a1 = 0 then 43 else a1 - 1
    | .mlDsa65 | .mlDsa87 =>
      if a0 > 0 then mldCastUint32ToInt32 (mldCastInt32ToUint32 (a1 + 1) &&& 15)
      else mldCastUint32ToInt32 (mldCastInt32ToUint32 (a1 - 1) &&& 15)

theorem shiftRight_eq (x : Int) (n : Nat) : x.shiftRight n = x / ((2 ^ n : Nat) : Int) :=
  Int.shiftRight_eq_div_pow x n

theorem cast_toNat (x : Int) : ((mldCastInt64ToUint32 x).toNat : Int) = x % 2 ^ 32 := by
  have h : (mldCastInt64ToUint32 x).toNat = (x % 2 ^ 32).toNat % 2 ^ 32 := UInt32.toNat_ofNat'
  omega

theorem cast_bmod (x : UInt32) : mldCastUint32ToInt32 x = (x.toNat : Int).bmod (2 ^ 32) :=
  BitVec.toInt_eq_toNat_bmod x.toBitVec

theorem cast_cast (x : Int) :
    mldCastUint32ToInt32 (mldCastInt64ToUint32 x) = x.bmod (2 ^ 32) := by
  rw [cast_bmod, cast_toNat]
  exact Int.emod_bmod x (2 ^ 32)

theorem cast_int32 {x : Int} (h : IsInt32 x) :
    mldCastUint32ToInt32 (mldCastInt64ToUint32 x) = x := by
  obtain ⟨hmin, hmax⟩ := h
  rw [cast_cast]
  exact Int.bmod_eq_of_le (by omega) (by omega)

theorem cmask_neg {x : Int} (h : IsInt32 x) :
    mldCtCmaskNegI32 x = if x < 0 then 0xffffffff else 0 := by
  obtain ⟨hmin, hmax⟩ := h
  have hshift : x.shiftRight 31 = if x < 0 then -1 else 0 := by
    rw [shiftRight_eq]
    split <;> omega
  rw [mldCtCmaskNegI32, hshift]
  split <;> rfl

theorem sel_mask {a b x : Int} (ha : IsInt32 a) (hb : IsInt32 b) (hx : IsInt32 x) :
    mldCtSelInt32 a b (mldCtCmaskNegI32 x) = if x < 0 then a else b := by
  simp only [mldCtSelInt32, cmask_neg hx]
  split
  · have h (u v : UInt32) : v ^^^ (0xffffffff &&& (u ^^^ v)) = u := by
      rw [show (0xffffffff : UInt32) = -1 from rfl, UInt32.neg_one_and, UInt32.xor_comm u v,
        ← UInt32.xor_assoc, UInt32.xor_self, UInt32.zero_xor]
    rw [h, mldCastInt32ToUint32, cast_int32 ha]
  · rw [UInt32.zero_and, UInt32.xor_zero, mldCastInt32ToUint32, cast_int32 hb]

theorem abs_eq {x : Int} (h : IsInt32 x) (h' : IsInt32 (-x)) : mldCtAbsI32 x = |x| := by
  rw [mldCtAbsI32, sel_mask h' h h]
  split <;> rename_i hx
  · exact (abs_of_neg hx).symm
  · exact (abs_of_nonneg (by omega)).symm

theorem cast_small {x : UInt32} (h : x.toNat < 2 ^ 31) : mldCastUint32ToInt32 x = x.toNat :=
  BitVec.toInt_eq_toNat_of_lt (x := x.toBitVec)
    (show 2 * x.toNat < 2 ^ 32 from by omega)

theorem mask_fifteen (x : Int) :
    mldCastUint32ToInt32 (mldCastInt32ToUint32 x &&& 15) = x % 16 := by
  have hand : (mldCastInt64ToUint32 x &&& 15).toNat = (mldCastInt64ToUint32 x).toNat % 16 := by
    rw [UInt32.toNat_and]
    exact Nat.and_two_pow_sub_one_eq_mod _ 4
  have hcast := cast_toNat x
  rw [mldCastInt32ToUint32, cast_small (by omega), hand]
  omega

theorem mldReduce32_dvd (a : Int) : mldsaQ ∣ mldReduce32 a - a := by
  simp only [mldReduce32]
  exact ⟨-(a + 2 ^ 22).shiftRight 23, by ring⟩

theorem mldReduce32_bound {a : Int} (h : IsInt32 a) (hmax : a < 2 ^ 31 - 2 ^ 22) :
    |mldReduce32 a| ≤ 6283009 := by
  obtain ⟨hmin, -⟩ := h
  simp only [mldReduce32, mldsaQ, shiftRight_eq]
  rw [abs_le]
  omega

theorem mldCaddq_eq {a : Int} (h : |a| < mldsaQ) :
    mldCaddq a = if a < 0 then a + mldsaQ else a := by
  unfold mldsaQ at *
  have hb := abs_lt.mp h
  exact sel_mask (by unfold IsInt32 mldsaQ; omega) (by unfold IsInt32; omega)
    (by unfold IsInt32; omega)

namespace ParameterSet

variable (p : ParameterSet)

def windowCount : ParameterSet → Int
  | mlDsa44 => 44
  | mlDsa65 => 16
  | mlDsa87 => 16

theorem gamma2_pos : 0 < p.gamma2 := by cases p <;> decide

theorem windowCount_pos : 0 < p.windowCount := by cases p <;> decide

def windows : Windows := ⟨p.gamma2, p.windowCount, p.gamma2_pos, p.windowCount_pos⟩

theorem windows_modulus : p.windows.modulus = mldsaQ := by cases p <;> decide

end ParameterSet

/-- The magic multiplications round `a / (2 * gamma2)`, halves down. -/
theorem magic_rounds {a factor half gamma2 count : Int} {shift : Nat}
    (h : (factor = 11275 ∧ half = 2 ^ 23 ∧ shift = 24 ∧ gamma2 = 95232 ∧ count = 44) ∨
      (factor = 1025 ∧ half = 2 ^ 21 ∧ shift = 22 ∧ gamma2 = 261888 ∧ count = 16))
    (h0 : 0 ≤ a) (hq : a < mldsaQ) :
    let g := ((a + 127).shiftRight 7 * factor + half).shiftRight shift
    0 ≤ g ∧ g ≤ count ∧ -gamma2 < a - 2 * gamma2 * g ∧ a - 2 * gamma2 * g ≤ gamma2 := by
  unfold mldsaQ at hq
  rcases h with ⟨rfl, rfl, rfl, rfl, rfl⟩ | ⟨rfl, rfl, rfl, rfl, rfl⟩ <;>
    simp only [shiftRight_eq] <;> omega

/-- The multiple of `2 * gamma2` that is nearest to `a`; the topmost one wraps to zero. -/
theorem decomposeHigh_spec (p : ParameterSet) {a : Int} (h0 : 0 ≤ a) (hq : a < mldsaQ) :
    ∃ g, 0 ≤ g ∧ g ≤ p.windowCount ∧ -p.gamma2 < a - 2 * p.gamma2 * g ∧
      a - 2 * p.gamma2 * g ≤ p.gamma2 ∧
      decomposeHigh p a = if g = p.windowCount then 0 else g := by
  cases p with
  | mlDsa44 =>
    have hround := magic_rounds (.inl ⟨rfl, rfl, rfl, rfl, rfl⟩) h0 hq
    simp only [decomposeHigh] at hround ⊢
    generalize ((a + 127).shiftRight 7 * 11275 + 2 ^ 23).shiftRight 24 = g at *
    obtain ⟨hg0, hg, hlo, hhi⟩ := hround
    refine ⟨g, hg0, hg, hlo, hhi, ?_⟩
    change _ = if g = 44 then 0 else g
    rw [sel_mask ⟨by omega, by omega⟩ ⟨by omega, by omega⟩ ⟨by omega, by omega⟩]
    exact if_congr ⟨fun _ => le_antisymm hg (by omega), fun _ => by omega⟩ rfl rfl
  | mlDsa65 | mlDsa87 =>
    have hround := magic_rounds (.inr ⟨rfl, rfl, rfl, rfl, rfl⟩) h0 hq
    simp only [decomposeHigh] at hround ⊢
    generalize ((a + 127).shiftRight 7 * 1025 + 2 ^ 21).shiftRight 22 = g at *
    obtain ⟨hg0, hg, hlo, hhi⟩ := hround
    refine ⟨g, hg0, hg, hlo, hhi, ?_⟩
    change _ = if g = 16 then 0 else g
    rw [mask_fifteen]
    split <;> omega

theorem mldDecompose_splits (p : ParameterSet) {a : Int} (h0 : 0 ≤ a) (hq : a < mldsaQ) :
    p.windows.Splits a (mldDecompose p a).2 (mldDecompose p a).1 := by
  obtain ⟨g, hg0, hg, hlo, hhi, hhigh⟩ := decomposeHigh_spec p h0 hq
  have hgamma := p.gamma2_pos
  have hcount := p.windowCount_pos
  have hsmall : p.gamma2 ≤ 261888 := by cases p <;> decide
  have hmodulus : 2 * p.gamma2 * p.windowCount + 1 = 8380417 := p.windows_modulus
  have hlow : (mldDecompose p a).1 = if g = p.windowCount then a - mldsaQ
      else a - 2 * p.gamma2 * g := by
    have ha0 : a - decomposeHigh p a * 2 * p.gamma2 =
        if g = p.windowCount then a else a - 2 * p.gamma2 * g := by
      rw [hhigh]
      split <;> ring
    simp only [mldDecompose, ha0]
    unfold mldsaQ at *
    split <;> rename_i hlast
    · rw [hlast] at hlo hhi
      rw [sel_mask ⟨by omega, by omega⟩ ⟨by omega, by omega⟩ ⟨by omega, by omega⟩,
        if_pos (by omega)]
    · rw [sel_mask ⟨by omega, by omega⟩ ⟨by omega, by omega⟩ ⟨by omega, by omega⟩,
        if_neg (by omega)]
  have hhigh' : (mldDecompose p a).2 = if g = p.windowCount then 0 else g := hhigh
  rw [hlow, hhigh']
  split <;> rename_i hlast
  · rw [hlast] at hlo hhi
    unfold mldsaQ at *
    refine ⟨le_rfl, hcount, ?_, ?_⟩
    · change -p.gamma2 < _ ∧ _ ≤ p.gamma2 ∨ _ ∧ _ = -p.gamma2
      omega
    · rw [p.windows_modulus, mul_zero, zero_add, sub_sub_cancel, mldsaQ]
  · refine ⟨hg0, lt_of_le_of_ne hg hlast, Or.inl ⟨hlo, hhi⟩, ?_⟩
    have heq : a - (2 * p.windows.gamma * g + (a - 2 * p.gamma2 * g)) = 0 := by
      change a - (2 * p.gamma2 * g + (a - 2 * p.gamma2 * g)) = 0
      ring
    rw [heq]
    exact dvd_zero _

theorem mldMakeHint_eq (p : ParameterSet) (a0 a1 : Int) :
    mldMakeHint p a0 a1 = (p.windows.hint a1 a0).toNat := by
  by_cases h : a0 > p.gamma2 ∨ a0 < -p.gamma2 ∨ a0 = -p.gamma2 ∧ a1 ≠ 0
  · have hset : p.windows.hint a1 a0 = true := decide_eq_true h
    rw [mldMakeHint, if_pos h, hset]
    rfl
  · have hset : p.windows.hint a1 a0 = false := decide_eq_false h
    rw [mldMakeHint, if_neg h, hset]
    rfl

theorem mldUseHint_eq (p : ParameterSet) {a : Int} (h0 : 0 ≤ a) (hq : a < mldsaQ) (h : Bool) :
    mldUseHint p a h.toNat =
      p.windows.corrected h (mldDecompose p a).2 (mldDecompose p a).1 := by
  have hs := mldDecompose_splits p h0 hq
  have hnonneg := hs.nonneg
  have hlt := hs.lt
  cases h with
  | false => rfl
  | true =>
    simp only [mldUseHint, Bool.toNat_true, Nat.cast_one, one_ne_zero, if_false]
    generalize (mldDecompose p a).2 = a1 at *
    generalize (mldDecompose p a).1 = a0 at *
    cases p with
    | mlDsa44 => rfl
    | mlDsa65 | mlDsa87 =>
      change a1 < 16 at hlt
      simp only [mask_fifteen]
      change _ = if 0 < a0 then if a1 = 15 then 0 else a1 + 1 else if a1 = 0 then 15 else a1 - 1
      split <;> split <;> omega

/-- The hint of a low part below a whole window width leads back to the high part, from
every representative of `2 * gamma2 * a1 + a0`. -/
theorem mldUseHint_mldMakeHint (p : ParameterSet) {a a0 a1 : Int} (h0 : 0 ≤ a) (hq : a < mldsaQ)
    (hdvd : mldsaQ ∣ a - (2 * p.gamma2 * a1 + a0)) (ha1 : 0 ≤ a1) (hcount : a1 < p.windowCount)
    (hbound : |a0| < 2 * p.gamma2) : mldUseHint p a (mldMakeHint p a0 a1) = a1 := by
  rw [mldMakeHint_eq, mldUseHint_eq p h0 hq]
  exact Windows.corrected_hint (mldDecompose_splits p h0 hq) (p.windows_modulus ▸ hdvd) ha1 hcount
    hbound

end LiberaCrypt.MlDsaRounding
