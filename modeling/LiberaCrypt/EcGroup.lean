import LiberaCrypt.CubicRoots
import LiberaCrypt.EcField
import LiberaCrypt.ShortJacobian
import Mathlib.NumberTheory.LucasLehmer

namespace LiberaCrypt.EcGroup

open LiberaCrypt.CubicRoots LiberaCrypt.Limbs LiberaCrypt.EcCurves LiberaCrypt.EcField
open LiberaCrypt.EcMontgomery LiberaCrypt.ShortWeierstrass WeierstrassCurve.Affine

/-- The published parameters of a curve `y² = x³ - 3x + b`: the field prime, the coefficient, the
generator and its order. -/
structure Domain where
  p : Nat
  b : Nat
  gx : Nat
  gy : Nat
  n : Nat

def domainP256 : Domain where
  p := 2 ^ 256 - 2 ^ 224 + 2 ^ 192 + 2 ^ 96 - 1
  b := 0x5ac635d8aa3a93e7b3ebbd55769886bc651d06b0cc53b0f63bce3c3e27d2604b
  gx := 0x6b17d1f2e12c4247f8bce6e563a440f277037d812deb33a0f4a13945d898c296
  gy := 0x4fe342e2fe1a7f9b8ee7eb4a7c0f9e162bce33576b315ececbb6406837bf51f5
  n := 0xffffffff00000000ffffffffffffffffbce6faada7179e84f3b9cac2fc632551

def domainP384 : Domain where
  p := 2 ^ 384 - 2 ^ 128 - 2 ^ 96 + 2 ^ 32 - 1
  b := 0xb3312fa7e23ee7e4988e056be3f82d19181d9c6efe814112 * 2 ^ 192 +
    0x0314088f5013875ac656398d8a2ed19d2a85c8edd3ec2aef
  gx := 0xaa87ca22be8b05378eb1c71ef320ad746e1d3b628ba79b98 * 2 ^ 192 +
    0x59f741e082542a385502f25dbf55296c3a545e3872760ab7
  gy := 0x3617de4a96262c6f5d9e98bf9292dc29f8f41dbd289a147c * 2 ^ 192 +
    0xe9da3113b5f0b8c00a60b1ce1d7e819d7a431d7c90ea0e5f
  n := 0xffffffffffffffffffffffffffffffffffffffffffffffff * 2 ^ 192 +
    0xc7634d81f4372ddf581a0db248b0a77aecec196accc52973

def domainP521 : Domain where
  p := 2 ^ 521 - 1
  b := 0x51953eb9618e1c9a1f929a21a0b68540eea2da725b99b315f3b8b489918ef109 * 2 ^ 264 +
    0xe156193951ec7e937b1652c0bd3bb1bf073573df883d2c34f1ef451fd46b503f00
  gx := 0xc6858e06b70404e9cd9e3ecb662395b4429c648139053fb521f828af606b4d3d * 2 ^ 264 +
    0xbaa14b5e77efe75928fe1dc127a2ffa8de3348b3c1856a429bf97e7e31c2e5bd66
  gy := 0x11839296a789a3bc0045c8a5fb42c7d1bd998f54449579b446817afbd17273e66 * 2 ^ 264 +
    0x2c97ee72995ef42640c550b9013fad0761353c7086a272c24088be94769fd16650
  n := 0x1ffffffffffffffffffffffffffffffffffffffffffffffffffffffffffffffff * 2 ^ 264 +
    0xfa51868783bf2f966b7fcc0148f709a5d03bb5c9b8899c47aebb6fb71e91386409

def domain : CryptoEcCurveId → Domain
  | .p256 => domainP256
  | .p384 => domainP384
  | .p521 => domainP521

/-- The tables of the code are the published parameters, the coordinates in Montgomery form. -/
structure Matches (curve : CryptoEcCurve) (d : Domain) : Prop where
  p : fieldPrime curve = d.p
  n : groupOrder curve = d.n
  b_length : curve.b.length = curve.limbs
  b : wordsValue curve.b = d.b * wordBase ^ curve.limbs % d.p
  x_length : curve.generatorX.length = curve.limbs
  x : wordsValue curve.generatorX = d.gx * wordBase ^ curve.limbs % d.p
  y_length : curve.generatorY.length = curve.limbs
  y : wordsValue curve.generatorY = d.gy * wordBase ^ curve.limbs % d.p

theorem matches_domain (id : CryptoEcCurveId) : Matches (cryptoEcCurveGet id) (domain id) := by
  cases id <;> constructor <;> decide

abbrev BaseField (id : CryptoEcCurveId) := ZMod (fieldPrime (cryptoEcCurveGet id))

abbrev group (id : CryptoEcCurveId) : WeierstrassCurve.Affine (BaseField id) :=
  curve ((domain id).b : BaseField id)

def cubicInverseP256 : Residue where
  c0 := 0xa969487079f1744798bf0de6fded091b66e9d328eb0645fe5d979d1339b7f47f
  c1 := 0xa4a08891884100c13323460107a8d28eede4387fa3e6e9bfebec9f6d72d0b5cc
  c2 := 0x4cde11cf86cb876cd59cf0115813c55af0ecd3cda667d98bb9a347a56aa74a6d

def cubicInverseP384 : Residue where
  c0 := 0x95adec811ebe8d4b9e2b41150d78f91a619189a415583b8f * 2 ^ 192 +
    0x5e01888da3353b61765cde8cd6c12846310c3f0c10aae682
  c1 := 0x3581b884702fb0931c541a5cacefbe3bea864db86e01e048 * 2 ^ 192 +
    0x170560418dca3aa8689f246d9d11ccd2e145532dd48491af
  c2 := 0x4efcebfdccd7cb25d1b864228f0c32d3a83ec026134ae475 * 2 ^ 192 +
    0x3bdff5d3f1fa20b278b31dc3487beb792024fe436f36b43a

def cubicInverseP521 : Residue where
  c0 := 0x19e72e5691af1c1f1d3f2591c5ad09ec28f1c524714ca75db089cdb9151ca2289 * 2 ^ 264 +
    0x840d94ce56793c78b66ef3540572cc405cdc465d82e1a6f69d82c27053ff163aa6
  c1 := 0xc15e4c9246ef30c73585fc1a490df170ef8e757f1f37e7a6cde9349746d8493e * 2 ^ 264 +
    0xbb31a91aea6f35b910d943c96ba37d442ea7bb6d45c60ec76150edba53d1fc8264
  c2 := 0x124521c5a63d25338751ea837916053183423f151d92bf4710ef90df9f8ccdf06 * 2 ^ 264 +
    0x3f99af3ab0f0bd1843a16afc69f16b49b9890c324999f97e8e4650532aea382f92

def cubicInverse : CryptoEcCurveId → Residue
  | .p256 => cubicInverseP256
  | .p384 => cubicInverseP384
  | .p521 => cubicInverseP521

theorem noRoot_cubic (id : CryptoEcCurveId) :
    noRoot (domain id).p 3 ((domain id).p - (domain id).b) 521 (cubicInverse id) = true := by
  cases id <;> decide +kernel

theorem domain_bounds (id : CryptoEcCurveId) :
    (domain id).b < (domain id).p ∧ (domain id).p < 2 ^ 521 := by
  cases id <;> decide +kernel

variable {id : CryptoEcCurveId}

theorem table_holds {w : List UInt32} {x : Nat} (hlength : w.length = (cryptoEcCurveGet id).limbs)
    (hvalue : wordsValue w = x * wordBase ^ (cryptoEcCurveGet id).limbs % (domain id).p) :
    FieldHolds (cryptoEcCurveGet id) (fieldPrime (cryptoEcCurveGet id)) w (x : BaseField id) := by
  have hsound := fieldModulus_sound id
  rw [← (matches_domain id).p] at hvalue
  refine ⟨hlength, ?_, ?_⟩
  · rw [hvalue]
    exact Nat.mod_lt _ hsound.modulus_pos
  · rw [hvalue, ZMod.natCast_mod, Nat.cast_mul]
    rfl

theorem b_holds : FieldHolds (cryptoEcCurveGet id) (fieldPrime (cryptoEcCurveGet id))
    (cryptoEcCurveGet id).b ((domain id).b : BaseField id) :=
  table_holds (matches_domain id).b_length (matches_domain id).b

theorem generator_check (id : CryptoEcCurveId) :
    ((domain id).gy * (domain id).gy + 3 * (domain id).gx) % (domain id).p =
        ((domain id).gx * (domain id).gx * (domain id).gx + (domain id).b) % (domain id).p ∧
      2 * (domain id).gy % (domain id).p ≠ 0 := by
  cases id <;> decide

theorem generator_nonsingular (id : CryptoEcCurveId) :
    (group id).Nonsingular (domain id).gx (domain id).gy := by
  obtain ⟨hequation, hdouble⟩ := generator_check id
  rw [← (matches_domain id).p] at hequation hdouble
  rw [nonsingular_iff]
  constructor
  · have hcast := congrArg (Nat.cast : Nat → BaseField id) hequation
    rw [ZMod.natCast_mod, ZMod.natCast_mod] at hcast
    push_cast at hcast
    rw [equation_iff_cubic]
    linear_combination hcast
  · refine Or.inr fun hneg => hdouble ?_
    simp only [curve] at hneg
    apply Nat.mod_eq_zero_of_dvd
    rw [← ZMod.natCast_eq_zero_iff]
    push_cast
    linear_combination hneg

def generator (id : CryptoEcCurveId) : (group id).Point := .some _ _ (generator_nonsingular id)

section Prime

variable (hp : (fieldPrime (cryptoEcCurveGet id)).Prime) {x y : BaseField id}

include hp in
/-- No point of a curve lies on the horizontal axis: the group has no element of order two. -/
theorem y_ne_zero (h : (group id).Equation x y) : y ≠ 0 := by
  have hfact := Fact.mk hp
  rintro rfl
  have hcheck := noRoot_cubic id
  obtain ⟨hb, hbits⟩ := domain_bounds id
  rw [← (matches_domain id).p] at hcheck hb hbits
  apply ne_of_noRoot hp hbits hcheck x
  rw [equation_iff_cubic] at h
  rw [Nat.cast_sub hb.le, ZMod.natCast_self]
  linear_combination -h

theorem two_ne_zero : (2 : BaseField id) ≠ 0 := by
  have hthree := (fieldSizes id).three
  intro h
  have hdvd : fieldPrime (cryptoEcCurveGet id) ∣ 2 :=
    (ZMod.natCast_eq_zero_iff 2 _).mp (by exact_mod_cast h)
  exact absurd (Nat.le_of_dvd Nat.two_pos hdvd) (by omega)

include hp in
theorem nonsingular_of_equation (h : (group id).Equation x y) : (group id).Nonsingular x y := by
  have hfact := Fact.mk hp
  exact nonsingular_of_ne_zero rfl rfl two_ne_zero (y_ne_zero hp h) h

end Prime

theorem fieldPrime_p521 : (fieldPrime (cryptoEcCurveGet .p521)).Prime := by
  have hmersenne : fieldPrime (cryptoEcCurveGet .p521) = mersenne 521 := by decide +kernel
  rw [hmersenne]
  exact lucas_lehmer_sufficiency _ (by simp) (by norm_num)

end LiberaCrypt.EcGroup

namespace LiberaCrypt.EcPoint

open LiberaCrypt.BigEndian LiberaCrypt.Endian LiberaCrypt.EcCurves LiberaCrypt.EcField
open LiberaCrypt.EcGroup LiberaCrypt.EcMontgomery LiberaCrypt.ShortWeierstrass

structure CryptoEcAffinePoint where
  x : List UInt32
  y : List UInt32
  infinity : UInt32
  deriving DecidableEq

section Operations

variable (curve : CryptoEcCurve)

def cryptoEcAffineSetInfinity : CryptoEcAffinePoint :=
  ⟨cryptoEcFieldZero curve, cryptoEcFieldZero curve, 1⟩

def cryptoEcAffineGenerator : CryptoEcAffinePoint := ⟨curve.generatorX, curve.generatorY, 0⟩

def fieldDouble (value : List UInt32) : List UInt32 := cryptoEcFieldAdd curve value value

def fieldTriple (value : List UInt32) : List UInt32 :=
  cryptoEcFieldAdd curve (fieldDouble curve value) value

/-- The right side of the equation, as the check and the decoder both compute it. -/
def curveRight (x : List UInt32) : List UInt32 :=
  let xSquared := cryptoEcFieldSquare curve x
  let xCubed := cryptoEcFieldMultiply curve xSquared x
  let threeX := fieldTriple curve x
  cryptoEcFieldAdd curve (cryptoEcFieldSub curve xCubed threeX) curve.b

def cryptoEcAffineIsOnCurve (point : CryptoEcAffinePoint) : Bool :=
  if point.infinity ≠ 0 then true
  else
    cryptoEcFieldEqualMask (cryptoEcFieldSquare curve point.y) (curveRight curve point.x) != 0

end Operations

variable {id : CryptoEcCurveId}

abbrev Holds (id : CryptoEcCurveId) (w : List UInt32) (x : BaseField id) : Prop :=
  FieldHolds (cryptoEcCurveGet id) (fieldPrime (cryptoEcCurveGet id)) w x

/-- An affine point of the code stands for a point of the group. -/
inductive AffineHolds (id : CryptoEcCurveId) : CryptoEcAffinePoint → (group id).Point → Prop
  | infinity : AffineHolds id (cryptoEcAffineSetInfinity (cryptoEcCurveGet id)) 0
  | affine {wx wy : List UInt32} {x y : BaseField id} (h : (group id).Nonsingular x y) :
      Holds id wx x → Holds id wy y → AffineHolds id ⟨wx, wy, 0⟩ (.some x y h)

variable {wx wy : List UInt32} {x y : BaseField id}

theorem curveRight_holds (hx : Holds id wx x) :
    Holds id (curveRight (cryptoEcCurveGet id) wx)
      (x * x * x - (x + x + x) + ((domain id).b : BaseField id)) := by
  have hsound := fieldModulus_sound id
  have hcubed := multiply_holds hsound (square_holds hsound hx) hx
  have htriple := add_holds hsound (add_holds hsound hx hx) hx
  exact add_holds hsound (sub_holds hsound hcubed htriple) b_holds

theorem isOnCurve_iff (hx : Holds id wx x) (hy : Holds id wy y) :
    cryptoEcAffineIsOnCurve (cryptoEcCurveGet id) ⟨wx, wy, 0⟩ = true ↔ (group id).Equation x y := by
  classical
  have hsound := fieldModulus_sound id
  have hmask := equalMask_eq hsound (square_holds hsound hy) (curveRight_holds hx)
  rw [equation_iff_cubic]
  unfold cryptoEcAffineIsOnCurve
  dsimp only
  rw [if_neg (not_not.mpr rfl), hmask]
  by_cases heq : y * y = x * x * x - (x + x + x) + ((domain id).b : BaseField id)
  · rw [if_pos heq]
    exact iff_of_true rfl heq
  · rw [if_neg heq]
    exact iff_of_false (by decide) heq

theorem AffineHolds.isOnCurve {point : CryptoEcAffinePoint} {P : (group id).Point}
    (h : AffineHolds id point P) :
    cryptoEcAffineIsOnCurve (cryptoEcCurveGet id) point = true := by
  cases h with
  | infinity => rfl
  | affine hP hx hy => exact (isOnCurve_iff hx hy).mpr hP.1

theorem generator_holds (id : CryptoEcCurveId) :
    AffineHolds id (cryptoEcAffineGenerator (cryptoEcCurveGet id)) (generator id) :=
  AffineHolds.affine (generator_nonsingular id)
    (table_holds (matches_domain id).x_length (matches_domain id).x)
    (table_holds (matches_domain id).y_length (matches_domain id).y)

theorem exists_holds (x : BaseField id) : ∃ w, Holds id w x := by
  have hsound := fieldModulus_sound id
  have hsizes := fieldSizes id
  have hne : NeZero (fieldPrime (cryptoEcCurveGet id)) := ⟨hsound.modulus_pos.ne'⟩
  have hlt := ZMod.val_lt x
  have hvalue : beValue (bigEndian (cryptoEcCurveGet id).fieldBytes x.val) = x.val := by
    rw [beValue_bigEndian, Nat.mod_eq_of_lt (hlt.trans hsizes.bytes)]
  obtain ⟨w, -, hw⟩ := fromBytes_ok hsizes hsound (bigEndian_length _ x.val)
    (hvalue.trans_lt hlt)
  rw [hvalue, ZMod.natCast_zmod_val] at hw
  exact ⟨w, hw⟩

theorem exists_affineHolds (P : (group id).Point) : ∃ point, AffineHolds id point P := by
  cases P with
  | zero => exact ⟨_, AffineHolds.infinity⟩
  | some x y h =>
    obtain ⟨wx, hx⟩ := exists_holds x
    obtain ⟨wy, hy⟩ := exists_holds y
    exact ⟨_, AffineHolds.affine h hx hy⟩

end LiberaCrypt.EcPoint
