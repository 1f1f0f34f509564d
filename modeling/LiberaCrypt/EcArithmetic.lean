import LiberaCrypt.EcJacobian
import LiberaCrypt.EcScalarArith

namespace LiberaCrypt.EcArithmetic

open LiberaCrypt.Outcome LiberaCrypt.BigEndian LiberaCrypt.Endian LiberaCrypt.Limbs
open LiberaCrypt.LimbBytes LiberaCrypt.Montgomery LiberaCrypt.EcCurves LiberaCrypt.EcField
open LiberaCrypt.EcGroup LiberaCrypt.EcJacobian LiberaCrypt.EcMontgomery LiberaCrypt.EcPoint
open LiberaCrypt.EcPrimes LiberaCrypt.EcScalar LiberaCrypt.EcScalarArith
open LiberaCrypt.ShortWeierstrass

def Canonical (m : MontgomeryModulus) (M : Nat) (w : List UInt32) : Prop :=
  w.length = m.limbs ∧ wordsValue w < M

def element (m : MontgomeryModulus) (M : Nat) (w : List UInt32) : ZMod M :=
  wordsValue w * ((wordBase ^ m.limbs : Nat) : ZMod M)⁻¹

def Exactly (m : MontgomeryModulus) (M : Nat) (w : List UInt32) (x : ZMod M) : Prop :=
  Canonical m M w ∧ element m M w = x

section Elements

variable {m : MontgomeryModulus} {M : Nat} {w : List UInt32} {x : ZMod M}

theorem exactly_iff_holds (h : m.Sound M) : Exactly m M w x ↔ m.Holds M w x := by
  have hunit := ZMod.mul_inv_of_unit _ h.unit
  constructor
  · rintro ⟨⟨hlength, hlt⟩, rfl⟩
    refine ⟨hlength, hlt, ?_⟩
    rw [element, mul_assoc, mul_comm (Inv.inv _), hunit, mul_one]
  · intro hw
    refine ⟨⟨hw.length, hw.lt⟩, ?_⟩
    rw [element, hw.represents.cast, mul_assoc, hunit, mul_one]

theorem Canonical.holds (h : m.Sound M) (hw : Canonical m M w) :
    m.Holds M w (element m M w) := (exactly_iff_holds h).mp ⟨hw, rfl⟩

end Elements

/-- What is asked of the arithmetic on canonical limbs: each residue is that of one word, and the
operations give the word of the mathematical result. -/
structure ExactArithmetic (m : MontgomeryModulus) (M bytes : Nat)
    (add multiply : List UInt32 → List UInt32 → List UInt32)
    (invertFixed : List UInt32 → List UInt32)
    (fromBytes : List UInt8 → Except LiberaCError (List UInt32))
    (toBytes : List UInt32 → List UInt8) : Prop where
  word : ∀ x : ZMod M, ∃! w, Exactly m M w x
  add : ∀ a b, Canonical m M a → Canonical m M b →
    Exactly m M (add a b) (element m M a + element m M b)
  multiply : ∀ a b, Canonical m M a → Canonical m M b →
    Exactly m M (multiply a b) (element m M a * element m M b)
  invert : ∀ a, Canonical m M a → Exactly m M (invertFixed a) (element m M a)⁻¹
  enter : ∀ input, input.length = bytes → beValue input < M →
    ∃ w, fromBytes input = .ok w ∧ Exactly m M w (beValue input)
  refuse : ∀ input, ¬ (input.length = bytes ∧ beValue input < M) →
    fromBytes input = .error .invalidArgument
  leave : ∀ a, Canonical m M a → toBytes a = bigEndian bytes (element m M a).val

theorem exists_word {m : MontgomeryModulus} {M : Nat} (h : m.Sound M) (x : ZMod M) :
    ∃! w, Exactly m M w x := by
  have hne : NeZero M := ⟨h.modulus_pos.ne'⟩
  have hfits : x.val < 256 ^ (4 * m.limbs) := by
    rw [pow_mul]
    exact (ZMod.val_lt x).trans h.modulus_lt
  obtain ⟨hlength, hvalue⟩ := @limbsOfBytes_spec (bigEndian (4 * m.limbs) x.val) m.limbs
    (by rw [bigEndian_length])
  have hholds := enter_holds h hlength
  rw [hvalue, beValue_bigEndian, Nat.mod_eq_of_lt hfits, ZMod.natCast_zmod_val] at hholds
  refine ⟨_, (exactly_iff_holds h).mpr hholds, ?_⟩
  intro w hw
  exact ((exactly_iff_holds h).mp hw).unique hholds

theorem fieldArithmetic (id : CryptoEcCurveId) :
    ExactArithmetic (fieldModulus (cryptoEcCurveGet id)) (fieldPrime (cryptoEcCurveGet id))
      (cryptoEcCurveGet id).fieldBytes (cryptoEcFieldAdd (cryptoEcCurveGet id))
      (cryptoEcFieldMultiply (cryptoEcCurveGet id)) (cryptoEcFieldInvertFixed (cryptoEcCurveGet id))
      (cryptoEcFieldFromBytes (cryptoEcCurveGet id))
      (cryptoEcFieldToBytes (cryptoEcCurveGet id)) := by
  have h := fieldModulus_sound id
  have hs := fieldSizes id
  constructor
  case word => exact exists_word h
  case add =>
    intro a b ha hb
    exact (exactly_iff_holds h).mpr (add_holds h (ha.holds h) (hb.holds h))
  case multiply =>
    intro a b ha hb
    exact (exactly_iff_holds h).mpr (multiply_holds h (ha.holds h) (hb.holds h))
  case invert =>
    intro a ha
    exact (exactly_iff_holds h).mpr (invertFixed_holds hs h (ha.holds h))
  case enter =>
    intro input hlength hlt
    obtain ⟨w, hw, hholds⟩ := fromBytes_ok hs h hlength hlt
    exact ⟨w, hw, (exactly_iff_holds h).mpr hholds⟩
  case refuse => exact fun input hinput => fromBytes_error hs h hinput
  case leave => exact fun a ha => toBytes_eq h (ha.holds h)

theorem scalarArithmetic (id : CryptoEcCurveId) :
    ExactArithmetic (scalarModulus (cryptoEcCurveGet id)) (groupOrder (cryptoEcCurveGet id))
      (cryptoEcCurveGet id).scalarBytes (cryptoEcScalarAdd (cryptoEcCurveGet id))
      (cryptoEcScalarMultiply (cryptoEcCurveGet id))
      (cryptoEcScalarInvertFixed (cryptoEcCurveGet id))
      (cryptoEcScalarFromBytes (cryptoEcCurveGet id))
      (cryptoEcScalarToBytes (cryptoEcCurveGet id)) := by
  have h := scalarModulus_sound id
  have hs := sizes id
  constructor
  case word => exact exists_word h
  case add =>
    intro a b ha hb
    exact (exactly_iff_holds h).mpr (scalarAdd_holds h (ha.holds h) (hb.holds h))
  case multiply =>
    intro a b ha hb
    exact (exactly_iff_holds h).mpr (scalarMultiply_holds h (ha.holds h) (hb.holds h))
  case invert =>
    intro a ha
    exact (exactly_iff_holds h).mpr (scalarInvert_holds id (ha.holds h))
  case enter =>
    intro input hlength hlt
    obtain ⟨w, hw, hholds⟩ := scalarFromBytes_ok hs h hlength hlt
    exact ⟨w, hw, (exactly_iff_holds h).mpr hholds⟩
  case refuse => exact fun input hinput => scalarFromBytes_error hs h hinput
  case leave => exact fun a ha => scalarToBytes_eq h (ha.holds h)

/-- The subtraction, the square root and the reducing conversion are of one side only. -/
theorem ecArithmetic_exact (id : CryptoEcCurveId) :
    let curve := cryptoEcCurveGet id
    let p := fieldPrime curve
    let n := groupOrder curve
    ExactArithmetic (fieldModulus curve) p curve.fieldBytes (cryptoEcFieldAdd curve)
        (cryptoEcFieldMultiply curve) (cryptoEcFieldInvertFixed curve)
        (cryptoEcFieldFromBytes curve) (cryptoEcFieldToBytes curve) ∧
      (∀ a b, Canonical (fieldModulus curve) p a → Canonical (fieldModulus curve) p b →
        Exactly (fieldModulus curve) p (cryptoEcFieldSub curve a b)
          (element (fieldModulus curve) p a - element (fieldModulus curve) p b)) ∧
      (∀ a, Canonical (fieldModulus curve) p a →
        let root := cryptoEcFieldSquareRootFixed curve a
        (root.1 = true ↔ IsSquare (element (fieldModulus curve) p a)) ∧
          Canonical (fieldModulus curve) p root.2 ∧
          (root.1 = true → element (fieldModulus curve) p root.2 *
            element (fieldModulus curve) p root.2 = element (fieldModulus curve) p a)) ∧
      ExactArithmetic (scalarModulus curve) n curve.scalarBytes (cryptoEcScalarAdd curve)
        (cryptoEcScalarMultiply curve) (cryptoEcScalarInvertFixed curve)
        (cryptoEcScalarFromBytes curve) (cryptoEcScalarToBytes curve) ∧
      (∀ input, input.length = curve.scalarBytes → beValue input < 2 ^ curve.scalarBits →
        ∃ w, cryptoEcScalarFromBytesReduced curve input = .ok w ∧
          Exactly (scalarModulus curve) n w (beValue input)) ∧
      (∀ input, ¬ (input.length = curve.scalarBytes ∧ beValue input < 2 ^ curve.scalarBits) →
        cryptoEcScalarFromBytesReduced curve input = .error .invalidArgument) := by
  have hfield := fieldModulus_sound id
  have hscalar := scalarModulus_sound id
  refine ⟨fieldArithmetic id, ?_, ?_, scalarArithmetic id, ?_, ?_⟩
  · intro a b ha hb
    exact (exactly_iff_holds hfield).mpr (sub_holds hfield (ha.holds hfield) (hb.holds hfield))
  · intro a ha
    obtain ⟨hsquare, y, hy, hroot⟩ :=
      squareRootFixed_spec (fieldSizes id) hfield (ha.holds hfield)
    obtain ⟨hcanonical, helement⟩ := (exactly_iff_holds hfield).mpr hy
    refine ⟨hsquare, hcanonical, fun hflag => ?_⟩
    rw [helement]
    exact hroot (hsquare.mp hflag)
  · intro input hlength hlt
    obtain ⟨w, hw, hholds⟩ := fromBytesReduced_holds (sizes id) hscalar hlength hlt
    exact ⟨w, hw, (exactly_iff_holds hscalar).mpr hholds⟩
  · exact fun input hinput => fromBytesReduced_error (sizes id) hinput

/-- Whatever the points and the coordinates that stand for them, infinity, equal and opposite
points included, the formulas give coordinates of the sum and of the double. -/
theorem jacobianSum_represents {id : CryptoEcCurveId} {a b : CryptoEcJacobianPoint}
    {P Q : (group id).Point} (ha : Represents id a P) (hb : Represents id b Q) :
    Represents id (cryptoEcJacobianAddComplete (cryptoEcCurveGet id) a b) (P + Q) ∧
      Represents id (cryptoEcJacobianDouble (cryptoEcCurveGet id) a) (2 • P) := by
  refine ⟨ha.add hb, ?_⟩
  rw [two_nsmul]
  exact ha.double

theorem jacobianSum_represents_generator :
    let a := cryptoEcAffineToJacobian cryptoEcP256 (cryptoEcAffineGenerator cryptoEcP256)
    let b := cryptoEcJacobianDouble cryptoEcP256 a
    Represents .p256 (cryptoEcJacobianAddComplete cryptoEcP256 a b)
        (generator .p256 + (generator .p256 + generator .p256)) ∧
      Represents .p256 (cryptoEcJacobianDouble cryptoEcP256 a) (2 • generator .p256) := by
  have ha := affineToJacobian_represents (generator_holds .p256)
  exact jacobianSum_represents ha ha.double

end LiberaCrypt.EcArithmetic
