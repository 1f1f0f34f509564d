import LiberaCrypt.EcJacobian
import LiberaCrypt.EcScalar

namespace LiberaCrypt.EcScalarMultiply

open LiberaCrypt.Outcome LiberaCrypt.BigEndian LiberaCrypt.CheckedWords LiberaCrypt.CountedLoop
open LiberaCrypt.Radix
open LiberaCrypt.EcCurves LiberaCrypt.EcField LiberaCrypt.EcGroup LiberaCrypt.EcJacobian
open LiberaCrypt.EcMontgomery LiberaCrypt.EcPoint LiberaCrypt.EcScalar
open LiberaCrypt.ShortWeierstrass

def scalarSecretBit (scalar : List UInt8) (curve : CryptoEcCurve) (bitIndex : Nat) : UInt32 :=
  let byteFromEnd := bitIndex / 8
  ((scalar.getD (curve.scalarBytes - 1 - byteFromEnd) 0).toUInt32 >>>
    UInt32.ofNat (bitIndex % 8)) &&& 1

def ladderStep (curve : CryptoEcCurve) (scalar : List UInt8) (bit : Nat)
    (r : CryptoEcJacobianPoint × CryptoEcJacobianPoint) :
    CryptoEcJacobianPoint × CryptoEcJacobianPoint :=
  let scalarBit := scalarSecretBit scalar curve bit
  let swapMask := (0 : UInt32) - scalarBit
  let r := cryptoEcJacobianCswap r.1 r.2 swapMask
  let sum := cryptoEcJacobianAddComplete curve r.1 r.2
  let doubled := cryptoEcJacobianDouble curve r.1
  cryptoEcJacobianCswap doubled sum swapMask

def cryptoEcScalarMultiplyCt (curve : CryptoEcCurve) (point : CryptoEcAffinePoint)
    (scalar : List UInt8) : Except LiberaCError CryptoEcAffinePoint :=
  if scalar.length ≠ curve.scalarBytes ∨ cryptoEcAffineIsOnCurve curve point = false ∨
      cryptoEcScalarIsValidCt curve scalar = 0 then .error .invalidArgument
  else
    let r := countDown curve.scalarBits (ladderStep curve scalar)
      (cryptoEcJacobianSetInfinity curve, cryptoEcAffineToJacobian curve point)
    .ok (cryptoEcJacobianToAffine curve r.1)

variable {id : CryptoEcCurveId} {scalar : List UInt8}

theorem scalarBit_eq {bit : Nat} (hbit : bit / 8 < scalar.length) :
    ((scalar.getD (scalar.length - 1 - bit / 8) 0).toUInt32 >>> UInt32.ofNat (bit % 8)) &&& 1 =
      UInt32.ofNat (beValue scalar / 2 ^ bit % 2) := by
  have hbyte : (scalar.getD (scalar.length - 1 - bit / 8) 0).toNat =
      beValue scalar / 256 ^ (bit / 8) % 256 := by
    rw [beValue, bytesValue_byte (by rwa [List.length_reverse]), List.getElem_reverse,
      List.getD_eq_getElem]
  have hr : bit % 8 < 8 := Nat.mod_lt _ (by decide)
  have hsplit : 256 = 2 ^ (bit % 8) * 2 ^ (8 - bit % 8) := by
    rw [← pow_add, Nat.add_sub_cancel' hr.le]
    rfl
  have heven : 2 ∣ 2 ^ (8 - bit % 8) := dvd_pow_self 2 (by omega)
  have hweight : 2 ^ bit = 256 ^ (bit / 8) * 2 ^ (bit % 8) := by
    rw [show 256 = 2 ^ 8 from rfl, ← pow_mul, ← pow_add, Nat.div_add_mod]
  apply UInt32.toNat_inj.mp
  rw [UInt32.toNat_and, UInt32.toNat_one, Nat.and_one_is_mod, toNat_shift32 _ _ (by omega),
    UInt8.toNat_toUInt32, hbyte, UInt32.toNat_ofNat', hweight, ← Nat.div_div_eq_div_mul]
  generalize beValue scalar / 256 ^ (bit / 8) = x
  have hlow : x % 256 / 2 ^ (bit % 8) % 2 = x / 2 ^ (bit % 8) % 2 := by
    rw [hsplit, Nat.mod_mul_right_div_self, Nat.mod_mod_of_dvd _ heven]
  rw [hlow, Nat.mod_eq_of_lt (show x / 2 ^ (bit % 8) % 2 < 2 ^ 32 by omega)]

theorem scalarSecretBit_eq (hlength : scalar.length = (cryptoEcCurveGet id).scalarBytes) {bit : Nat}
    (hbit : bit < (cryptoEcCurveGet id).scalarBits) :
    scalarSecretBit scalar (cryptoEcCurveGet id) bit =
      UInt32.ofNat (beValue scalar / 2 ^ bit % 2) := by
  have hbytes := (sizes id).bytes
  rw [scalarSecretBit, ← hlength]
  exact scalarBit_eq (by omega)

section Prime

variable [Fact (fieldPrime (cryptoEcCurveGet id)).Prime] {P : (group id).Point}

/-- The first point is the multiple by the bits so far, and the second one is one further. -/
def Ladder (id : CryptoEcCurveId) [Fact (fieldPrime (cryptoEcCurveGet id)).Prime]
    (P : (group id).Point) (k : Nat) (r : CryptoEcJacobianPoint × CryptoEcJacobianPoint) : Prop :=
  Represents id r.1 (k • P) ∧ Represents id r.2 ((k + 1) • P)

theorem ladderStep_ladder (hlength : scalar.length = (cryptoEcCurveGet id).scalarBytes) {bit : Nat}
    (hbit : bit < (cryptoEcCurveGet id).scalarBits)
    {r : CryptoEcJacobianPoint × CryptoEcJacobianPoint}
    (h : Ladder id P (beValue scalar / 2 ^ (bit + 1)) r) :
    Ladder id P (beValue scalar / 2 ^ bit) (ladderStep (cryptoEcCurveGet id) scalar bit r) := by
  obtain ⟨h0, h1⟩ := h
  have hhalf : beValue scalar / 2 ^ bit =
      beValue scalar / 2 ^ (bit + 1) + beValue scalar / 2 ^ (bit + 1) +
        beValue scalar / 2 ^ bit % 2 := by
    rw [pow_succ, ← Nat.div_div_eq_div_mul]
    omega
  unfold ladderStep
  rw [scalarSecretBit_eq hlength hbit]
  dsimp only
  generalize beValue scalar / 2 ^ (bit + 1) = q at *
  rcases Nat.mod_two_eq_zero_or_one (beValue scalar / 2 ^ bit) with hzero | hone
  · have hdouble := h0.double
    have hsum := h0.add h1
    rw [hzero, Represents.cswap_zero h0 h1]
    dsimp only
    rw [Represents.cswap_zero hdouble hsum, hhalf, hzero]
    rw [← add_nsmul] at hdouble hsum
    exact ⟨hdouble, hsum⟩
  · have hdouble := h1.double
    have hsum := h1.add h0
    rw [hone, Represents.cswap_one h0 h1]
    dsimp only
    rw [Represents.cswap_one hdouble hsum, hhalf, hone]
    rw [← add_nsmul] at hdouble hsum
    refine ⟨?_, ?_⟩
    · rwa [show q + q + 1 = q + 1 + q by omega]
    · rwa [show q + q + 1 + 1 = q + 1 + (q + 1) by omega]

theorem cryptoEcScalarMultiplyCt_spec {point : CryptoEcAffinePoint} (hP : AffineHolds id point P)
    (hlength : scalar.length = (cryptoEcCurveGet id).scalarBytes) (hpos : 1 ≤ beValue scalar)
    (hlt : beValue scalar < groupOrder (cryptoEcCurveGet id)) :
    ∃ out, cryptoEcScalarMultiplyCt (cryptoEcCurveGet id) point scalar = .ok out ∧
      AffineHolds id out (beValue scalar • P) := by
  have hsizes := sizes id
  have hvalid : cryptoEcScalarIsValidCt (cryptoEcCurveGet id) scalar ≠ 0 := by
    rw [cryptoEcScalarIsValidCt_eq hsizes hlength, if_pos ⟨hpos, hlt⟩]
    decide
  have hbits : beValue scalar < 2 ^ (cryptoEcCurveGet id).scalarBits := by
    rw [← hsizes.size]
    exact hlt.trans (Nat.lt_size_self _)
  have hloop := countDown_invariant (fun i r => Ladder id P (beValue scalar / 2 ^ i) r)
    (n := (cryptoEcCurveGet id).scalarBits)
    (f := ladderStep (cryptoEcCurveGet id) scalar)
    (s := (cryptoEcJacobianSetInfinity (cryptoEcCurveGet id),
      cryptoEcAffineToJacobian (cryptoEcCurveGet id) point)) ?_
    fun bit hbit r hr => ladderStep_ladder hlength hbit hr
  · rw [pow_zero, Nat.div_one] at hloop
    unfold cryptoEcScalarMultiplyCt
    rw [if_neg]
    · exact ⟨_, rfl, jacobianToAffine_holds hloop.1⟩
    · rintro (hlen | hoff | hzero)
      · exact hlen hlength
      · rw [hP.isOnCurve] at hoff
        cases hoff
      · exact hvalid hzero
  · rw [Nat.div_eq_of_lt hbits]
    constructor
    · rw [zero_nsmul]
      exact represents_infinity
    · rw [zero_add, one_nsmul]
      exact affineToJacobian_represents hP

end Prime

end LiberaCrypt.EcScalarMultiply
