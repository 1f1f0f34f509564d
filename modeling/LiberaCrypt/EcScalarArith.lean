import LiberaCrypt.EcField
import LiberaCrypt.EcPrimes
import LiberaCrypt.EcScalar

namespace LiberaCrypt.EcScalarArith

open LiberaCrypt.Outcome LiberaCrypt.BigEndian LiberaCrypt.CountedLoop LiberaCrypt.Limbs
open LiberaCrypt.LimbBytes LiberaCrypt.Montgomery LiberaCrypt.EcCurves LiberaCrypt.EcField
open LiberaCrypt.EcMontgomery LiberaCrypt.EcPrimes LiberaCrypt.EcScalar

section Operations

variable (curve : CryptoEcCurve)

def scalarSelect (a b : List UInt32) (selectBMask : UInt32) : List UInt32 :=
  selectWords selectBMask a b

def cryptoEcScalarMultiply (a b : List UInt32) : List UInt32 :=
  montgomeryMultiplyRaw (scalarModulus curve) a b

/-- The product is taken at every bit of the exponent and selected under a mask. -/
def scalarPowerFixed (base exponent : List UInt32) : List UInt32 :=
  countDown curve.scalarBits (fun current result =>
    let selectMask := (0 : UInt32) - exponentBit exponent current
    let result := cryptoEcScalarMultiply curve result result
    let multiplied := cryptoEcScalarMultiply curve result base
    scalarSelect result multiplied selectMask) curve.scalarMontgomeryOne

def cryptoEcScalarFromBytes (input : List UInt8) : Except LiberaCError (List UInt32) :=
  if input.length ≠ curve.scalarBytes then .error .invalidArgument
  else
    let raw := scalarParseBytes curve input
    let borrow := (subRow curve.limbs raw curve.order 0).2.toUInt32
    if borrow = 0 then .error .invalidArgument
    else .ok (montgomeryMultiplyRaw (scalarModulus curve) raw curve.scalarMontgomeryR2)

def cryptoEcScalarAdd (a b : List UInt32) : List UInt32 :=
  let sum := addRow curve.limbs a b 0
  let reduced := subRow curve.limbs sum.1 curve.order 0
  let subtractMask := ((0 : UInt32) - sum.2.toUInt32) ||| ((0 : UInt32) - (reduced.2.toUInt32 ^^^ 1))
  selectWords subtractMask sum.1 reduced.1

def cryptoEcScalarInvertFixed (a : List UInt32) : List UInt32 :=
  scalarPowerFixed curve a curve.scalarInverseExponent

def cryptoEcScalarEqualMask (a b : List UInt32) : UInt32 :=
  let difference := (List.zipWith (fun x y => x ^^^ y) a b).foldl (fun d x => d ||| x) 0
  ~~~(nonzeroMask difference)

def cryptoEcScalarZeroMask (a : List UInt32) : UInt32 :=
  cryptoEcScalarEqualMask a (List.replicate curve.limbs 0)

end Operations

structure InverseExponent (curve : CryptoEcCurve) : Prop where
  value : wordsValue curve.scalarInverseExponent = groupOrder curve - 2
  bits : groupOrder curve < 2 ^ curve.scalarBits
  two : 2 < groupOrder curve

theorem inverseExponent (id : CryptoEcCurveId) : InverseExponent (cryptoEcCurveGet id) := by
  cases id <;> constructor <;> decide

section Scalars

variable {curve : CryptoEcCurve} {n : Nat} {a b : List UInt32} {x y : ZMod n}

abbrev ScalarHolds (curve : CryptoEcCurve) (n : Nat) (w : List UInt32) (x : ZMod n) : Prop :=
  (scalarModulus curve).Holds n w x

theorem scalarAdd_holds (h : (scalarModulus curve).Sound n) (ha : ScalarHolds curve n a x)
    (hb : ScalarHolds curve n b y) : ScalarHolds curve n (cryptoEcScalarAdd curve a b) (x + y) :=
  addReduced_holds h ha hb

theorem scalarMultiply_holds (h : (scalarModulus curve).Sound n) (ha : ScalarHolds curve n a x)
    (hb : ScalarHolds curve n b y) :
    ScalarHolds curve n (cryptoEcScalarMultiply curve a b) (x * y) := multiply_holds h ha hb

theorem scalarEqualMask_eq (h : (scalarModulus curve).Sound n) (ha : ScalarHolds curve n a x)
    (hb : ScalarHolds curve n b y) [Decidable (x = y)] :
    cryptoEcScalarEqualMask a b = if x = y then (0 : UInt32) - 1 else 0 :=
  differenceMask_eq h ha hb

theorem scalarZeroMask_eq (h : (scalarModulus curve).Sound n) (ha : ScalarHolds curve n a x)
    [Decidable (x = 0)] :
    cryptoEcScalarZeroMask curve a = if x = 0 then (0 : UInt32) - 1 else 0 :=
  scalarEqualMask_eq h ha (zeros_holds h)

theorem scalarPower_holds (h : (scalarModulus curve).Sound n) (ha : ScalarHolds curve n a x)
    {exponent : List UInt32} (hbits : wordsValue exponent < 2 ^ curve.scalarBits) :
    ScalarHolds curve n (scalarPowerFixed curve a exponent) (x ^ wordsValue exponent) := by
  apply powerLoop_holds h hbits
  intro i result z hresult
  have hsquare := scalarMultiply_holds h hresult hresult
  have hproduct := scalarMultiply_holds h hsquare ha
  have hlen := hsquare.length.trans hproduct.length.symm
  have hmod := exponentBit_toNat exponent i
  dsimp only [scalarSelect]
  by_cases hz : exponentBit exponent i = 0
  · rw [if_pos hz, hz, UInt32.sub_zero, selectWords_zero hlen]
    exact hsquare
  · have hone : exponentBit exponent i = 1 := by
      apply UInt32.toNat_inj.mp
      have hne : (exponentBit exponent i).toNat ≠ 0 := fun h0 => hz (UInt32.toNat_inj.mp h0)
      rw [UInt32.toNat_one]
      omega
    rw [if_neg hz, hone, selectWords_ones hlen]
    exact hproduct

theorem rawBorrow_eq_zero (h : (scalarModulus curve).Sound n) (ha : a.length = curve.limbs) :
    (subRow curve.limbs a curve.order 0).2.toUInt32 = 0 ↔ n ≤ wordsValue a := by
  have hlength : curve.order.length = curve.limbs := h.length
  have hvalue := subRow_value (n := curve.limbs) ha.le hlength.le zero_carry
  have hborrow := subRow_borrow (n := curve.limbs) (a := a) (b := curve.order) zero_carry
  have hrow : (subRow curve.limbs a curve.order 0).1.length = curve.limbs := subRow_length
  have horder : wordsValue curve.order = n := h.value
  have hlt := wordsValue_lt (subRow curve.limbs a curve.order 0).1
  generalize subRow curve.limbs a curve.order 0 = difference at *
  rw [UInt64.toNat_zero, Nat.add_zero, horder] at hvalue
  rw [hrow] at hlt
  rcases Nat.le_one_iff_eq_zero_or_eq_one.mp hborrow with h0 | h1
  · have hzero : difference.2 = 0 := UInt64.toNat_inj.mp h0
    rw [h0, Nat.mul_zero, Nat.add_zero] at hvalue
    rw [hzero]
    exact ⟨fun _ => by omega, fun _ => rfl⟩
  · have hone : difference.2 = 1 := UInt64.toNat_inj.mp h1
    rw [h1, Nat.mul_one] at hvalue
    rw [hone]
    exact ⟨fun hfalse => absurd hfalse (by decide), fun hle => by omega⟩

theorem scalarFromBytes_ok (hs : Sizes curve) (h : (scalarModulus curve).Sound n)
    {input : List UInt8} (hlength : input.length = curve.scalarBytes) (hlt : beValue input < n) :
    ∃ w, cryptoEcScalarFromBytes curve input = .ok w ∧ ScalarHolds curve n w (beValue input) := by
  obtain ⟨hraw, hvalue⟩ := @limbsOfBytes_spec input curve.limbs (hlength.trans_le hs.room)
  have hborrow := (rawBorrow_eq_zero h hraw).not.mpr (by rw [hvalue]; omega)
  have hholds := enter_holds h hraw
  rw [hvalue] at hholds
  rw [cryptoEcScalarFromBytes, if_neg (not_not.mpr hlength)]
  exact ⟨_, if_neg hborrow, hholds⟩

theorem scalarFromBytes_error (hs : Sizes curve) (h : (scalarModulus curve).Sound n)
    {input : List UInt8} (hinput : ¬ (input.length = curve.scalarBytes ∧ beValue input < n)) :
    cryptoEcScalarFromBytes curve input = .error .invalidArgument := by
  rw [cryptoEcScalarFromBytes]
  by_cases hlength : input.length = curve.scalarBytes
  · obtain ⟨hraw, hvalue⟩ := @limbsOfBytes_spec input curve.limbs (hlength.trans_le hs.room)
    have hborrow := (rawBorrow_eq_zero h hraw).mpr (by
      rw [hvalue]
      exact not_lt.mp fun hlt => hinput ⟨hlength, hlt⟩)
    rw [if_neg (not_not.mpr hlength)]
    exact if_pos hborrow
  · exact if_pos hlength

end Scalars

theorem scalarInvert_holds (id : CryptoEcCurveId) {a : List UInt32}
    {x : ZMod (groupOrder (cryptoEcCurveGet id))}
    (ha : ScalarHolds (cryptoEcCurveGet id) _ a x) :
    ScalarHolds (cryptoEcCurveGet id) _ (cryptoEcScalarInvertFixed (cryptoEcCurveGet id) a)
      x⁻¹ := by
  have hprime := Fact.mk (groupOrder_prime id)
  obtain ⟨hvalue, hbits, htwo⟩ := inverseExponent id
  have hfits : wordsValue (cryptoEcCurveGet id).scalarInverseExponent <
      2 ^ (cryptoEcCurveGet id).scalarBits := by omega
  have hpower := scalarPower_holds (scalarModulus_sound id) ha hfits
  rw [hvalue, pow_sub_two htwo] at hpower
  exact hpower

end LiberaCrypt.EcScalarArith
