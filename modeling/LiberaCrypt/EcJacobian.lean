import LiberaCrypt.EcGroup
import LiberaCrypt.ShortJacobian

namespace LiberaCrypt.EcJacobian

open LiberaCrypt.CountedLoop LiberaCrypt.EcCurves LiberaCrypt.EcField LiberaCrypt.EcGroup
open LiberaCrypt.EcMontgomery LiberaCrypt.EcPoint LiberaCrypt.ShortJacobian
open LiberaCrypt.ShortWeierstrass

structure CryptoEcJacobianPoint where
  x : List UInt32
  y : List UInt32
  z : List UInt32

/-- The limbs of two words change places under a full mask. -/
def swapLimbs (swapMask : UInt32) (a b : List UInt32) : List UInt32 × List UInt32 :=
  (List.zipWith (fun x y => x ^^^ ((x ^^^ y) &&& swapMask)) a b,
    List.zipWith (fun x y => y ^^^ ((x ^^^ y) &&& swapMask)) a b)

section Operations

variable (curve : CryptoEcCurve)

def fieldMultiplySmall (value : List UInt32) (multiplier : Nat) : List UInt32 :=
  countUp multiplier (fun _ result => cryptoEcFieldAdd curve result value)
    (cryptoEcFieldZero curve)

def cryptoEcJacobianSetInfinity : CryptoEcJacobianPoint :=
  ⟨cryptoEcFieldZero curve, cryptoEcFieldOne curve, cryptoEcFieldZero curve⟩

def cryptoEcJacobianIsInfinity (point : CryptoEcJacobianPoint) : Bool :=
  cryptoEcFieldZeroMask curve point.z != 0

def cryptoEcAffineToJacobian (point : CryptoEcAffinePoint) : CryptoEcJacobianPoint :=
  if point.infinity ≠ 0 then cryptoEcJacobianSetInfinity curve
  else ⟨point.x, point.y, cryptoEcFieldOne curve⟩

def cryptoEcJacobianToAffine (point : CryptoEcJacobianPoint) : CryptoEcAffinePoint :=
  if cryptoEcJacobianIsInfinity curve point then cryptoEcAffineSetInfinity curve
  else
    let zInverse := cryptoEcFieldInvertFixed curve point.z
    let zInverseSquared := cryptoEcFieldSquare curve zInverse
    let zInverseCubed := cryptoEcFieldMultiply curve zInverseSquared zInverse
    ⟨cryptoEcFieldMultiply curve point.x zInverseSquared,
      cryptoEcFieldMultiply curve point.y zInverseCubed, 0⟩

def cryptoEcJacobianSelect (a b : CryptoEcJacobianPoint) (selectBMask : UInt32) :
    CryptoEcJacobianPoint :=
  ⟨cryptoEcFieldSelect a.x b.x selectBMask, cryptoEcFieldSelect a.y b.y selectBMask,
    cryptoEcFieldSelect a.z b.z selectBMask⟩

def jacobianTangent (point : CryptoEcJacobianPoint) : CryptoEcJacobianPoint :=
  let delta := cryptoEcFieldSquare curve point.z
  let gamma := cryptoEcFieldSquare curve point.y
  let beta := cryptoEcFieldMultiply curve point.x gamma
  let xMinusDelta := cryptoEcFieldSub curve point.x delta
  let xPlusDelta := cryptoEcFieldAdd curve point.x delta
  let alpha := fieldTriple curve (cryptoEcFieldMultiply curve xMinusDelta xPlusDelta)
  let alphaSquared := cryptoEcFieldSquare curve alpha
  let eightBeta := fieldMultiplySmall curve beta 8
  let x := cryptoEcFieldSub curve alphaSquared eightBeta
  let yPlusZ := cryptoEcFieldAdd curve point.y point.z
  let z := cryptoEcFieldSub curve
    (cryptoEcFieldSub curve (cryptoEcFieldSquare curve yPlusZ) gamma) delta
  let fourBeta := fieldMultiplySmall curve beta 4
  let product := cryptoEcFieldMultiply curve alpha (cryptoEcFieldSub curve fourBeta x)
  let gammaSquared := cryptoEcFieldSquare curve gamma
  let eightGammaSquared := fieldMultiplySmall curve gammaSquared 8
  ⟨x, cryptoEcFieldSub curve product eightGammaSquared, z⟩

def cryptoEcJacobianDouble (point : CryptoEcJacobianPoint) : CryptoEcJacobianPoint :=
  let infinityMask :=
    cryptoEcFieldZeroMask curve point.z ||| cryptoEcFieldZeroMask curve point.y
  cryptoEcJacobianSelect (jacobianTangent curve point) (cryptoEcJacobianSetInfinity curve)
    infinityMask

/-- The chord, with `h` and `r`. -/
def jacobianAddGeneric (a b : CryptoEcJacobianPoint) :
    CryptoEcJacobianPoint × List UInt32 × List UInt32 :=
  let z1Squared := cryptoEcFieldSquare curve a.z
  let z2Squared := cryptoEcFieldSquare curve b.z
  let u1 := cryptoEcFieldMultiply curve a.x z2Squared
  let u2 := cryptoEcFieldMultiply curve b.x z1Squared
  let z1Cubed := cryptoEcFieldMultiply curve z1Squared a.z
  let z2Cubed := cryptoEcFieldMultiply curve z2Squared b.z
  let s1 := cryptoEcFieldMultiply curve a.y z2Cubed
  let s2 := cryptoEcFieldMultiply curve b.y z1Cubed
  let h := cryptoEcFieldSub curve u2 u1
  let i := cryptoEcFieldSquare curve (fieldDouble curve h)
  let j := cryptoEcFieldMultiply curve h i
  let r := fieldDouble curve (cryptoEcFieldSub curve s2 s1)
  let v := cryptoEcFieldMultiply curve u1 i
  let x := cryptoEcFieldSub curve (cryptoEcFieldSub curve (cryptoEcFieldSquare curve r) j)
    (fieldDouble curve v)
  let y := cryptoEcFieldSub curve
    (cryptoEcFieldMultiply curve r (cryptoEcFieldSub curve v x))
    (fieldDouble curve (cryptoEcFieldMultiply curve s1 j))
  let zSum := cryptoEcFieldSquare curve (cryptoEcFieldAdd curve a.z b.z)
  let z := cryptoEcFieldMultiply curve
    (cryptoEcFieldSub curve (cryptoEcFieldSub curve zSum z1Squared) z2Squared) h
  (⟨x, y, z⟩, h, r)

def cryptoEcJacobianAddComplete (a b : CryptoEcJacobianPoint) : CryptoEcJacobianPoint :=
  let generic := jacobianAddGeneric curve a b
  let doubled := cryptoEcJacobianDouble curve a
  let infinity := cryptoEcJacobianSetInfinity curve
  let aInfinity := cryptoEcFieldZeroMask curve a.z
  let bInfinity := cryptoEcFieldZeroMask curve b.z
  let hZero := cryptoEcFieldZeroMask curve generic.2.1
  let rZero := cryptoEcFieldZeroMask curve generic.2.2
  let equalMask := hZero &&& rZero
  let oppositeMask := hZero &&& ~~~rZero
  let selected := cryptoEcJacobianSelect generic.1 doubled equalMask
  let selected := cryptoEcJacobianSelect selected infinity oppositeMask
  let selected := cryptoEcJacobianSelect selected b aInfinity
  cryptoEcJacobianSelect selected a bInfinity

def cryptoEcJacobianCswap (a b : CryptoEcJacobianPoint) (swapMask : UInt32) :
    CryptoEcJacobianPoint × CryptoEcJacobianPoint :=
  let x := swapLimbs swapMask a.x b.x
  let y := swapLimbs swapMask a.y b.y
  let z := swapLimbs swapMask a.z b.z
  (⟨x.1, y.1, z.1⟩, ⟨x.2, y.2, z.2⟩)

end Operations

structure JacobianHolds (id : CryptoEcCurveId) (a : CryptoEcJacobianPoint)
    (j : Jacobian (BaseField id)) : Prop where
  x : Holds id a.x j.x
  y : Holds id a.y j.y
  z : Holds id a.z j.z

variable {id : CryptoEcCurveId} {a b : CryptoEcJacobianPoint} {j k : Jacobian (BaseField id)}

theorem multiplySmall_holds {w : List UInt32} {x : BaseField id} (h : Holds id w x) (n : Nat) :
    Holds id (fieldMultiplySmall (cryptoEcCurveGet id) w n) (n * x) := by
  have hsound := fieldModulus_sound id
  induction n with
  | zero =>
    rw [Nat.cast_zero, zero_mul]
    exact zero_holds hsound
  | succ n ih =>
    have hsum := add_holds hsound ih h
    rw [Nat.cast_succ, add_mul, one_mul]
    exact hsum

theorem infinity_holds : JacobianHolds id (cryptoEcJacobianSetInfinity (cryptoEcCurveGet id))
    Jacobian.infinity :=
  ⟨zero_holds (fieldModulus_sound id), one_holds (fieldModulus_sound id),
    zero_holds (fieldModulus_sound id)⟩

theorem tangent_holds (h : JacobianHolds id a j) :
    JacobianHolds id (jacobianTangent (cryptoEcCurveGet id) a) j.tangent := by
  have hsound := fieldModulus_sound id
  have hdelta := square_holds hsound h.z
  have hgamma := square_holds hsound h.y
  have hbeta := multiply_holds hsound h.x hgamma
  have hproduct := multiply_holds hsound (sub_holds hsound h.x hdelta)
    (add_holds hsound h.x hdelta)
  have halpha := add_holds hsound (add_holds hsound hproduct hproduct) hproduct
  have hx := sub_holds hsound (square_holds hsound halpha) (multiplySmall_holds hbeta 8)
  have hz := sub_holds hsound (sub_holds hsound
    (square_holds hsound (add_holds hsound h.y h.z)) hgamma) hdelta
  have hy := sub_holds hsound (multiply_holds hsound halpha
    (sub_holds hsound (multiplySmall_holds hbeta 4) hx))
    (multiplySmall_holds (square_holds hsound hgamma) 8)
  have htriple : ∀ t : BaseField id, t + t + t = 3 * t := fun t => by ring
  rw [htriple, Nat.cast_ofNat] at hx hy
  rw [Nat.cast_ofNat] at hy
  exact ⟨hx, hy, hz⟩

theorem chord_holds (ha : JacobianHolds id a j) (hb : JacobianHolds id b k) :
    JacobianHolds id (jacobianAddGeneric (cryptoEcCurveGet id) a b).1 (Jacobian.chord j k) ∧
      Holds id (jacobianAddGeneric (cryptoEcCurveGet id) a b).2.1 (Jacobian.run j k) ∧
      Holds id (jacobianAddGeneric (cryptoEcCurveGet id) a b).2.2 (Jacobian.rise j k) := by
  have hsound := fieldModulus_sound id
  have hz1 := square_holds hsound ha.z
  have hz2 := square_holds hsound hb.z
  have hu1 := multiply_holds hsound ha.x hz2
  have hu2 := multiply_holds hsound hb.x hz1
  have hs1 := multiply_holds hsound ha.y (multiply_holds hsound hz2 hb.z)
  have hs2 := multiply_holds hsound hb.y (multiply_holds hsound hz1 ha.z)
  have hh := sub_holds hsound hu2 hu1
  have hi := square_holds hsound (add_holds hsound hh hh)
  have hj := multiply_holds hsound hh hi
  have hs := sub_holds hsound hs2 hs1
  have hr := add_holds hsound hs hs
  have hv := multiply_holds hsound hu1 hi
  have hx := sub_holds hsound (sub_holds hsound (square_holds hsound hr) hj)
    (add_holds hsound hv hv)
  have hsj := multiply_holds hsound hs1 hj
  have hy := sub_holds hsound (multiply_holds hsound hr (sub_holds hsound hv hx))
    (add_holds hsound hsj hsj)
  have hz := multiply_holds hsound (sub_holds hsound (sub_holds hsound
    (square_holds hsound (add_holds hsound ha.z hb.z)) hz1) hz2) hh
  simp only [← two_mul] at hx hy hr hz
  exact ⟨⟨hx, hy, hz⟩, hh, hr⟩

theorem jacobianSelect_holds (ha : JacobianHolds id a j) (hb : JacobianHolds id b k) (c : Prop)
    [Decidable c] : JacobianHolds id
      (cryptoEcJacobianSelect a b (if c then (0 : UInt32) - 1 else 0)) (if c then k else j) := by
  have hx := select_holds ha.x hb.x c
  have hy := select_holds ha.y hb.y c
  have hz := select_holds ha.z hb.z c
  unfold cryptoEcJacobianSelect
  split_ifs at hx hy hz ⊢
  · exact ⟨hx, hy, hz⟩
  · exact ⟨hx, hy, hz⟩

theorem orMask_eq (c d : Prop) [Decidable c] [Decidable d] :
    ((if c then (0 : UInt32) - 1 else 0) ||| (if d then (0 : UInt32) - 1 else 0)) =
      if c ∨ d then (0 : UInt32) - 1 else 0 := by
  by_cases hc : c <;> by_cases hd : d <;> simp [hc, hd]

theorem andMask_eq (c d : Prop) [Decidable c] [Decidable d] :
    ((if c then (0 : UInt32) - 1 else 0) &&& (if d then (0 : UInt32) - 1 else 0)) =
      if c ∧ d then (0 : UInt32) - 1 else 0 := by
  by_cases hc : c <;> by_cases hd : d <;> simp [hc, hd]

theorem notMask_eq (c : Prop) [Decidable c] :
    ~~~(if c then (0 : UInt32) - 1 else 0) = if ¬ c then (0 : UInt32) - 1 else 0 := by
  by_cases hc : c <;> simp [hc]

/-- The Jacobian coordinates stand for a point of the group. -/
def Represents (id : CryptoEcCurveId) (a : CryptoEcJacobianPoint) (P : (group id).Point) : Prop :=
  ∃ j, JacobianHolds id a j ∧ j.Stands P

theorem represents_infinity :
    Represents id (cryptoEcJacobianSetInfinity (cryptoEcCurveGet id)) (0 : (group id).Point) :=
  ⟨_, infinity_holds, Jacobian.stands_infinity⟩

section Prime

variable {P Q : (group id).Point} [Fact (fieldPrime (cryptoEcCurveGet id)).Prime]

theorem double_holds (h : JacobianHolds id a j) :
    JacobianHolds id (cryptoEcJacobianDouble (cryptoEcCurveGet id) a) j.double := by
  have hsound := fieldModulus_sound id
  have hselect := jacobianSelect_holds (tangent_holds h) infinity_holds (j.z = 0 ∨ j.y = 0)
  rw [← orMask_eq, ← zeroMask_eq hsound h.z, ← zeroMask_eq hsound h.y] at hselect
  exact hselect

theorem add_complete_holds (ha : JacobianHolds id a j) (hb : JacobianHolds id b k) :
    JacobianHolds id (cryptoEcJacobianAddComplete (cryptoEcCurveGet id) a b)
      (Jacobian.add j k) := by
  have hsound := fieldModulus_sound id
  obtain ⟨hchord, hrun, hrise⟩ := chord_holds ha hb
  have hequal := jacobianSelect_holds hchord (double_holds ha)
    (Jacobian.run j k = 0 ∧ Jacobian.rise j k = 0)
  have hopposite := jacobianSelect_holds hequal infinity_holds
    (Jacobian.run j k = 0 ∧ ¬ Jacobian.rise j k = 0)
  have hleft := jacobianSelect_holds hopposite hb (j.z = 0)
  have hright := jacobianSelect_holds hleft ha (k.z = 0)
  have hvalue : (if k.z = 0 then j else if j.z = 0 then k
      else if Jacobian.run j k = 0 ∧ ¬ Jacobian.rise j k = 0 then Jacobian.infinity
      else if Jacobian.run j k = 0 ∧ Jacobian.rise j k = 0 then j.double
      else Jacobian.chord j k) = Jacobian.add j k := by
    unfold Jacobian.add
    by_cases hzero : Jacobian.run j k = 0 <;> by_cases hflat : Jacobian.rise j k = 0 <;>
      simp [hzero, hflat]
  rw [hvalue, ← andMask_eq, ← andMask_eq, ← notMask_eq, ← zeroMask_eq hsound hrun,
    ← zeroMask_eq hsound hrise, ← zeroMask_eq hsound ha.z, ← zeroMask_eq hsound hb.z] at hright
  exact hright

theorem Represents.double (h : Represents id a P) :
    Represents id (cryptoEcJacobianDouble (cryptoEcCurveGet id) a) (P + P) := by
  obtain ⟨j, hj, hstands⟩ := h
  exact ⟨_, double_holds hj, hstands.double two_ne_zero⟩

theorem Represents.add (ha : Represents id a P) (hb : Represents id b Q) :
    Represents id (cryptoEcJacobianAddComplete (cryptoEcCurveGet id) a b) (P + Q) := by
  obtain ⟨j, hj, hP⟩ := ha
  obtain ⟨k, hk, hQ⟩ := hb
  exact ⟨_, add_complete_holds hj hk, hP.add two_ne_zero hQ⟩

theorem affineToJacobian_represents {point : CryptoEcAffinePoint} (h : AffineHolds id point P) :
    Represents id (cryptoEcAffineToJacobian (cryptoEcCurveGet id) point) P := by
  cases h with
  | infinity => exact represents_infinity
  | affine hP hx hy =>
    rename_i wx wy x y
    refine ⟨⟨x, y, 1⟩, ⟨hx, hy, one_holds (fieldModulus_sound id)⟩, one_ne_zero, ?_, ?_⟩
    · simp
    · simp

theorem jacobianToAffine_holds (h : Represents id a P) :
    AffineHolds id (cryptoEcJacobianToAffine (cryptoEcCurveGet id) a) P := by
  classical
  have hsound := fieldModulus_sound id
  obtain ⟨j, hj, hstands⟩ := h
  have hmask := zeroMask_eq hsound hj.z
  unfold cryptoEcJacobianToAffine cryptoEcJacobianIsInfinity
  rw [hmask]
  cases P with
  | zero =>
    have hz : j.z = 0 := hstands
    rw [if_pos hz, if_pos (by decide)]
    exact AffineHolds.infinity
  | some x y hP =>
    obtain ⟨hz, hx, hy⟩ := hstands
    have hinverse := invertFixed_holds (fieldSizes id) hsound hj.z
    have hsquare := square_holds hsound hinverse
    have hcube := multiply_holds hsound hsquare hinverse
    have hwx := multiply_holds hsound hj.x hsquare
    have hwy := multiply_holds hsound hj.y hcube
    have hxvalue : j.x * (j.z⁻¹ * j.z⁻¹) = x := by
      rw [hx]
      field_simp
    have hyvalue : j.y * (j.z⁻¹ * j.z⁻¹ * j.z⁻¹) = y := by
      rw [hy]
      field_simp
    rw [hxvalue] at hwx
    rw [hyvalue] at hwy
    rw [if_neg hz, if_neg (by decide)]
    exact AffineHolds.affine hP hwx hwy

end Prime

theorem zipWith_left {x y : List UInt32} (h : x.length = y.length) :
    List.zipWith (fun s _ => s) x y = x := by
  apply List.ext_getElem <;> simp [h]

theorem zipWith_right {x y : List UInt32} (h : x.length = y.length) :
    List.zipWith (fun _ t => t) x y = y := by
  apply List.ext_getElem <;> simp [h]

theorem swapLimbs_zero {x y : List UInt32} (h : x.length = y.length) :
    swapLimbs 0 x y = (x, y) := by
  have hkeep : ∀ s t : UInt32, s ^^^ ((s ^^^ t) &&& 0) = s := fun s t => by simp
  have hkeep' : ∀ s t : UInt32, t ^^^ ((s ^^^ t) &&& 0) = t := fun s t => by simp
  simp only [swapLimbs, hkeep, hkeep', zipWith_left h, zipWith_right h]

theorem swapLimbs_ones {x y : List UInt32} (h : x.length = y.length) :
    swapLimbs ((0 : UInt32) - 1) x y = (y, x) := by
  have hones : ∀ s : UInt32, s &&& ((0 : UInt32) - 1) = s := fun s => by simp
  have hother : ∀ s t : UInt32, s ^^^ ((s ^^^ t) &&& ((0 : UInt32) - 1)) = t := by
    intro s t
    rw [hones, ← UInt32.xor_assoc, UInt32.xor_self, UInt32.zero_xor]
  have hother' : ∀ s t : UInt32, t ^^^ ((s ^^^ t) &&& ((0 : UInt32) - 1)) = s := by
    intro s t
    rw [UInt32.xor_comm s t, hother]
  simp only [swapLimbs, hother, hother', zipWith_left h, zipWith_right h]

theorem cswap_eq (ha : JacobianHolds id a j) (hb : JacobianHolds id b k) {bit : UInt32}
    (hbit : bit = 0 ∨ bit = 1) :
    cryptoEcJacobianCswap a b ((0 : UInt32) - bit) = if bit = 1 then (b, a) else (a, b) := by
  have hx := ha.x.length.trans hb.x.length.symm
  have hy := ha.y.length.trans hb.y.length.symm
  have hz := ha.z.length.trans hb.z.length.symm
  unfold cryptoEcJacobianCswap
  rcases hbit with rfl | rfl
  · rw [UInt32.sub_zero, swapLimbs_zero hx, swapLimbs_zero hy, swapLimbs_zero hz]
    rfl
  · rw [swapLimbs_ones hx, swapLimbs_ones hy, swapLimbs_ones hz]
    rfl

variable {P Q : (group id).Point}

theorem Represents.cswap_zero (ha : Represents id a P) (hb : Represents id b Q) :
    cryptoEcJacobianCswap a b ((0 : UInt32) - UInt32.ofNat 0) = (a, b) := by
  obtain ⟨j, hj, -⟩ := ha
  obtain ⟨k, hk, -⟩ := hb
  exact cswap_eq hj hk (Or.inl rfl)

theorem Represents.cswap_one (ha : Represents id a P) (hb : Represents id b Q) :
    cryptoEcJacobianCswap a b ((0 : UInt32) - UInt32.ofNat 1) = (b, a) := by
  obtain ⟨j, hj, -⟩ := ha
  obtain ⟨k, hk, -⟩ := hb
  exact cswap_eq hj hk (Or.inr rfl)

end LiberaCrypt.EcJacobian
