import LiberaCrypt.EcMontgomery
import Mathlib.FieldTheory.Finite.Basic

namespace LiberaCrypt.EcField

open LiberaCrypt.Outcome LiberaCrypt.BigEndian LiberaCrypt.Bignum LiberaCrypt.CountedLoop
open LiberaCrypt.Endian LiberaCrypt.Limbs LiberaCrypt.LimbBytes LiberaCrypt.Montgomery
open LiberaCrypt.MontgomeryReduction LiberaCrypt.PowerLadder LiberaCrypt.EcCurves
open LiberaCrypt.EcMontgomery

section Operations

variable (curve : CryptoEcCurve)

def cryptoEcFieldZero : List UInt32 := List.replicate curve.limbs 0

def cryptoEcFieldOne : List UInt32 := curve.montgomeryOne

def cryptoEcFieldAdd (a b : List UInt32) : List UInt32 :=
  let sum := addRow curve.limbs a b 0
  let reduced := subRow curve.limbs sum.1 curve.p 0
  let subtractMask := ((0 : UInt32) - sum.2.toUInt32) ||| ((0 : UInt32) - (reduced.2.toUInt32 ^^^ 1))
  selectWords subtractMask sum.1 reduced.1

def cryptoEcFieldSub (a b : List UInt32) : List UInt32 :=
  let difference := subRow curve.limbs a b 0
  let corrected := addRow curve.limbs difference.1 curve.p 0
  let correctionMask := (0 : UInt32) - difference.2.toUInt32
  selectWords correctionMask difference.1 corrected.1

def cryptoEcFieldNegate (a : List UInt32) : List UInt32 :=
  cryptoEcFieldSub curve (cryptoEcFieldZero curve) a

def cryptoEcFieldMultiply (a b : List UInt32) : List UInt32 :=
  montgomeryMultiplyRaw (fieldModulus curve) a b

def cryptoEcFieldSquare (a : List UInt32) : List UInt32 := cryptoEcFieldMultiply curve a a

/-- The product is taken at every bit of the exponent and kept at the ones. -/
def fieldPowerFixed (base exponent : List UInt32) (exponentBits : Nat) : List UInt32 :=
  countDown exponentBits (fun current result =>
    let result := cryptoEcFieldSquare curve result
    let multiplied := cryptoEcFieldMultiply curve result base
    if (exponent.getD (current / 32) 0 >>> UInt32.ofNat (current % 32)) &&& 1 ≠ 0 then multiplied
    else result) (cryptoEcFieldOne curve)

def cryptoEcFieldInvertFixed (a : List UInt32) : List UInt32 :=
  fieldPowerFixed curve a curve.inverseExponent curve.fieldBits

def cryptoEcFieldEqualMask (a b : List UInt32) : UInt32 :=
  let difference := (List.zipWith (fun x y => x ^^^ y) a b).foldl (fun d x => d ||| x) 0
  ~~~(nonzeroMask difference)

def cryptoEcFieldZeroMask (a : List UInt32) : UInt32 :=
  cryptoEcFieldEqualMask a (cryptoEcFieldZero curve)

def cryptoEcFieldSelect (a b : List UInt32) (selectBMask : UInt32) : List UInt32 :=
  selectWords selectBMask a b

/-- A candidate root, or zero if its square is not `a`. -/
def cryptoEcFieldSquareRootFixed (a : List UInt32) : Bool × List UInt32 :=
  let candidate := fieldPowerFixed curve a curve.squareRootExponent curve.fieldBits
  let squared := cryptoEcFieldSquare curve candidate
  let validMask := cryptoEcFieldEqualMask squared a
  (validMask != 0, cryptoEcFieldSelect candidate (cryptoEcFieldZero curve) (~~~validMask))

def fieldRawCompare (a b : List UInt32) : Ordering := compareDown a b curve.limbs

def cryptoEcFieldFromBytes (input : List UInt8) : Except LiberaCError (List UInt32) :=
  if input.length ≠ curve.fieldBytes then .error .invalidArgument
  else
    let raw := limbsOfBytes curve.limbs input
    if fieldRawCompare curve raw curve.p ≠ .lt then .error .invalidArgument
    else .ok (montgomeryMultiplyRaw (fieldModulus curve) raw curve.montgomeryR2)

def cryptoEcFieldToBytes (x : List UInt32) : List UInt8 :=
  bytesOfLimbs curve.fieldBytes
    (montgomeryMultiplyRaw (fieldModulus curve) x (oneLimbs curve.limbs))

def cryptoEcFieldLsb (x : List UInt32) : UInt32 :=
  (montgomeryMultiplyRaw (fieldModulus curve) x (oneLimbs curve.limbs)).getD 0 0 &&& 1

end Operations

/-- How the sizes and the exponents of a curve fit its prime. -/
structure FieldSizes (curve : CryptoEcCurve) : Prop where
  room : curve.fieldBytes ≤ 4 * curve.limbs
  bytes : fieldPrime curve < 256 ^ curve.fieldBytes
  three : 3 < fieldPrime curve
  residue : fieldPrime curve % 4 = 3
  inverse : wordsValue curve.inverseExponent = fieldPrime curve - 2
  root : wordsValue curve.squareRootExponent = (fieldPrime curve + 1) / 4
  bits : fieldPrime curve < 2 ^ curve.fieldBits

theorem fieldSizes (id : CryptoEcCurveId) : FieldSizes (cryptoEcCurveGet id) := by
  cases id <;> constructor <;> decide

section Field

variable {curve : CryptoEcCurve} {p : Nat} {a b : List UInt32} {x y : ZMod p}

abbrev FieldHolds (curve : CryptoEcCurve) (p : Nat) (w : List UInt32) (x : ZMod p) : Prop :=
  (fieldModulus curve).Holds p w x

theorem zeros_holds {m : MontgomeryModulus} {M : Nat} (h : m.Sound M) :
    m.Holds M (List.replicate m.limbs 0) 0 := by
  refine ⟨List.length_replicate, ?_, ?_⟩
  · rw [wordsValue_zeros]
    exact h.modulus_pos
  · rw [wordsValue_zeros, Nat.cast_zero, zero_mul]

theorem zero_holds (h : (fieldModulus curve).Sound p) :
    FieldHolds curve p (cryptoEcFieldZero curve) 0 := zeros_holds h

theorem add_holds (h : (fieldModulus curve).Sound p) (ha : FieldHolds curve p a x)
    (hb : FieldHolds curve p b y) : FieldHolds curve p (cryptoEcFieldAdd curve a b) (x + y) :=
  addReduced_holds h ha hb

theorem sub_holds (h : (fieldModulus curve).Sound p) (ha : FieldHolds curve p a x)
    (hb : FieldHolds curve p b y) : FieldHolds curve p (cryptoEcFieldSub curve a b) (x - y) := by
  have hvalue := subRow_value (n := curve.limbs) ha.length.le hb.length.le zero_carry
  have hborrow := subRow_borrow (n := curve.limbs) (a := a) (b := b) zero_carry
  have hlength : (subRow curve.limbs a b 0).1.length = curve.limbs := subRow_length
  have halt := ha.lt
  have hblt := hb.lt
  have hplt := h.modulus_lt
  have hdifflt := wordsValue_lt (subRow curve.limbs a b 0).1
  unfold cryptoEcFieldSub
  dsimp only
  generalize subRow curve.limbs a b 0 = difference at *
  have hback := addRow_value (n := curve.limbs) (a := difference.1) (b := curve.p) hlength.le
    h.length.le zero_carry
  have hcorrected : (addRow curve.limbs difference.1 curve.p 0).1.length = curve.limbs :=
    addRow_length
  have hbacklt := wordsValue_lt (addRow curve.limbs difference.1 curve.p 0).1
  have hlen : difference.1.length = (addRow curve.limbs difference.1 curve.p 0).1.length :=
    hlength.trans hcorrected.symm
  generalize addRow curve.limbs difference.1 curve.p 0 = corrected at *
  rw [UInt64.toNat_zero, Nat.add_zero] at hvalue hback
  have hp : wordsValue curve.p = p := h.value
  rw [hlength] at hdifflt
  rw [hcorrected] at hbacklt
  rw [hp] at hback
  change p < wordBase ^ curve.limbs at hplt
  generalize wordBase ^ curve.limbs = radix at *
  rcases Nat.le_one_iff_eq_zero_or_eq_one.mp hborrow with h0 | h1
  · have hzero : difference.2 = 0 := UInt64.toNat_inj.mp h0
    rw [h0, Nat.mul_zero, Nat.add_zero] at hvalue
    have hmask : (0 : UInt32) - (0 : UInt64).toUInt32 = 0 := by decide
    rw [hzero, hmask, selectWords_zero hlen]
    refine ⟨hlength, by omega, ?_⟩
    have hcast := congrArg (Nat.cast : Nat → ZMod p) hvalue
    rw [Nat.cast_add, ha.represents.cast, hb.represents.cast] at hcast
    linear_combination hcast
  · have hone : difference.2 = 1 := UInt64.toNat_inj.mp h1
    rw [h1, Nat.mul_one] at hvalue
    have hmask : (0 : UInt32) - (1 : UInt64).toUInt32 = (0 : UInt32) - 1 := by decide
    have htotal : wordsValue corrected.1 + wordsValue b = wordsValue a + p := by
      have hcarry : corrected.2.toNat = 1 := by
        by_contra hne
        rcases Nat.lt_or_gt_of_ne hne with hlt | hgt
        · rw [Nat.lt_one_iff.mp hlt, Nat.mul_zero] at hback
          omega
        · have hmul := Nat.mul_le_mul_left radix hgt
          omega
      rw [hcarry, Nat.mul_one] at hback
      omega
    rw [hone, hmask, selectWords_ones hlen]
    refine ⟨hcorrected, by omega, ?_⟩
    have hcast := congrArg (Nat.cast : Nat → ZMod p) htotal
    rw [Nat.cast_add, Nat.cast_add, ha.represents.cast, hb.represents.cast, ZMod.natCast_self]
      at hcast
    linear_combination hcast

theorem negate_holds (h : (fieldModulus curve).Sound p) (ha : FieldHolds curve p a x) :
    FieldHolds curve p (cryptoEcFieldNegate curve a) (-x) := by
  have hsub := sub_holds h (zero_holds h) ha
  rwa [zero_sub] at hsub

theorem square_holds (h : (fieldModulus curve).Sound p) (ha : FieldHolds curve p a x) :
    FieldHolds curve p (cryptoEcFieldSquare curve a) (x * x) := multiply_holds h ha ha

theorem power_holds (h : (fieldModulus curve).Sound p) (ha : FieldHolds curve p a x)
    {exponent : List UInt32} {bits : Nat} (hbits : wordsValue exponent < 2 ^ bits) :
    FieldHolds curve p (fieldPowerFixed curve a exponent bits) (x ^ wordsValue exponent) := by
  apply powerLoop_holds h hbits
  intro i result z hresult
  have hsquare := square_holds h hresult
  by_cases hz : exponentBit exponent i = 0
  · rw [if_pos hz]
    exact (if_neg (not_not.mpr hz)).symm ▸ hsquare
  · rw [if_neg hz]
    exact (if_pos hz).symm ▸ multiply_holds h hsquare ha

theorem xorFold_eq_zero (hlength : a.length = b.length) (start : UInt32) :
    (List.zipWith (fun x y => x ^^^ y) a b).foldl (fun d x => d ||| x) start = 0 ↔
      start = 0 ∧ a = b := by
  induction a generalizing b start with
  | nil =>
    rw [List.length_eq_zero_iff.mp hlength.symm]
    simp
  | cons x a ih =>
    cases b with
    | nil => cases hlength
    | cons y b =>
      rw [List.zipWith_cons_cons, List.foldl_cons, ih (Nat.succ_injective hlength),
        UInt32.or_eq_zero_iff, UInt32.xor_eq_zero_iff, List.cons.injEq, and_assoc]

/-- The mask of a difference is full exactly if the words hold the same element. -/
theorem differenceMask_eq {m : MontgomeryModulus} {M : Nat} {u v : ZMod M} (h : m.Sound M)
    (ha : m.Holds M a u) (hb : m.Holds M b v) [Decidable (u = v)] :
    ~~~(nonzeroMask ((List.zipWith (fun x y => x ^^^ y) a b).foldl (fun d x => d ||| x) 0)) =
      if u = v then (0 : UInt32) - 1 else 0 := by
  have hzero := xorFold_eq_zero (ha.length.trans hb.length.symm) 0
  have hsame : a = b ↔ u = v := by
    constructor
    · rintro rfl
      exact ha.injective h hb
    · rintro rfl
      exact ha.unique hb
  rw [nonzeroMask_eq]
  by_cases heq : u = v
  · rw [if_pos heq, if_pos (hzero.mpr ⟨rfl, hsame.mpr heq⟩)]
    rfl
  · rw [if_neg heq, if_neg fun h0 => heq (hsame.mp (hzero.mp h0).2)]
    rfl

theorem equalMask_eq (h : (fieldModulus curve).Sound p) (ha : FieldHolds curve p a x)
    (hb : FieldHolds curve p b y) [Decidable (x = y)] :
    cryptoEcFieldEqualMask a b = if x = y then (0 : UInt32) - 1 else 0 :=
  differenceMask_eq h ha hb

theorem zeroMask_eq (h : (fieldModulus curve).Sound p) (ha : FieldHolds curve p a x)
    [Decidable (x = 0)] : cryptoEcFieldZeroMask curve a = if x = 0 then (0 : UInt32) - 1 else 0 :=
  equalMask_eq h ha (zero_holds h)

theorem select_holds (ha : FieldHolds curve p a x) (hb : FieldHolds curve p b y) (c : Prop)
    [Decidable c] : FieldHolds curve p
      (cryptoEcFieldSelect a b (if c then (0 : UInt32) - 1 else 0)) (if c then y else x) := by
  have hlen : a.length = b.length := ha.length.trans hb.length.symm
  unfold cryptoEcFieldSelect
  split_ifs
  · rwa [selectWords_ones hlen]
  · rwa [selectWords_zero hlen]

theorem leave_val (h : (fieldModulus curve).Sound p) (ha : FieldHolds curve p a x) :
    wordsValue (montgomeryMultiplyRaw (fieldModulus curve) a (oneLimbs curve.limbs)) = x.val := by
  obtain ⟨-, hlt, hcast⟩ := leave_value h ha
  have hval := congrArg ZMod.val hcast
  rwa [ZMod.val_natCast, Nat.mod_eq_of_lt hlt] at hval

theorem lsb_eq (h : (fieldModulus curve).Sound p) (ha : FieldHolds curve p a x) :
    (cryptoEcFieldLsb curve a).toNat = x.val % 2 := by
  have heven : 2 ∣ wordBase := by decide
  rw [cryptoEcFieldLsb, UInt32.toNat_and, UInt32.toNat_one, Nat.and_one_is_mod, limb_toNat,
    pow_zero, Nat.div_one, Nat.mod_mod_of_dvd _ heven, leave_val h ha]

theorem toBytes_eq (h : (fieldModulus curve).Sound p) (ha : FieldHolds curve p a x) :
    cryptoEcFieldToBytes curve a = bigEndian curve.fieldBytes x.val := by
  rw [cryptoEcFieldToBytes, bytesOfLimbs_eq, leave_val h ha]

theorem fieldRawCompare_eq (h : (fieldModulus curve).Sound p) (ha : a.length = curve.limbs) :
    fieldRawCompare curve a curve.p = compare (wordsValue a) p := by
  have hp : curve.p.length = curve.limbs := h.length
  have hvalue : wordsValue curve.p = p := h.value
  rw [fieldRawCompare, compareDown_eq, List.take_of_length_le ha.le, List.take_of_length_le hp.le,
    hvalue]

theorem fromBytes_ok (hs : FieldSizes curve) (h : (fieldModulus curve).Sound p)
    {input : List UInt8} (hlength : input.length = curve.fieldBytes) (hlt : beValue input < p) :
    ∃ w, cryptoEcFieldFromBytes curve input = .ok w ∧ FieldHolds curve p w (beValue input) := by
  obtain ⟨hraw, hvalue⟩ := limbsOfBytes_spec (n := curve.limbs) (hlength.trans_le hs.room)
  have hless : fieldRawCompare curve (limbsOfBytes curve.limbs input) curve.p = .lt := by
    rw [fieldRawCompare_eq h hraw, hvalue, Nat.compare_eq_lt]
    exact hlt
  have hholds := enter_holds h hraw
  rw [hvalue] at hholds
  rw [cryptoEcFieldFromBytes, if_neg (not_not.mpr hlength)]
  exact ⟨_, if_neg (not_not.mpr hless), hholds⟩

theorem fromBytes_error (hs : FieldSizes curve) (h : (fieldModulus curve).Sound p)
    {input : List UInt8} (hinput : ¬ (input.length = curve.fieldBytes ∧ beValue input < p)) :
    cryptoEcFieldFromBytes curve input = .error .invalidArgument := by
  rw [cryptoEcFieldFromBytes]
  by_cases hlength : input.length = curve.fieldBytes
  · obtain ⟨hraw, hvalue⟩ := limbsOfBytes_spec (n := curve.limbs) (hlength.trans_le hs.room)
    rw [if_neg (not_not.mpr hlength)]
    apply if_pos
    rw [fieldRawCompare_eq h hraw, hvalue, ne_eq, Nat.compare_eq_lt]
    exact fun hlt => hinput ⟨hlength, hlt⟩
  · exact if_pos hlength

end Field

section Root

variable {curve : CryptoEcCurve} {p : Nat} [Fact p.Prime] {a : List UInt32} {x : ZMod p}

theorem pow_sub_two (htwo : 2 < p) (x : ZMod p) : x ^ (p - 2) = x⁻¹ := by
  by_cases hx : x = 0
  · rw [hx, inv_zero, zero_pow (by omega)]
  · apply eq_inv_of_mul_eq_one_left
    rw [← pow_succ, show p - 2 + 1 = p - 1 by omega, ZMod.pow_card_sub_one_eq_one hx]

theorem root_of_square (hmod : p % 4 = 3) (hx : IsSquare x) :
    x ^ ((p + 1) / 4) * x ^ ((p + 1) / 4) = x := by
  obtain ⟨y, rfl⟩ := hx
  have hexponent : 2 * ((p + 1) / 4 + (p + 1) / 4) = p + 1 := by omega
  rw [← pow_add, ← pow_two, ← pow_mul, hexponent, pow_succ, ZMod.pow_card, pow_two]

theorem squareRootFixed_spec (hs : FieldSizes curve) (h : (fieldModulus curve).Sound p)
    (ha : FieldHolds curve p a x) :
    ((cryptoEcFieldSquareRootFixed curve a).1 = true ↔ IsSquare x) ∧
      ∃ y, FieldHolds curve p (cryptoEcFieldSquareRootFixed curve a).2 y ∧
        (IsSquare x → y * y = x) := by
  classical
  have hp : fieldPrime curve = p := h.value
  have hexponent : wordsValue curve.squareRootExponent < 2 ^ curve.fieldBits := by
    have hbits := hs.bits
    rw [hs.root]
    omega
  have hpower := power_holds h ha hexponent
  have hmask := equalMask_eq h (square_holds h hpower) ha
  rw [hs.root, hp] at hpower hmask
  have hmod : p % 4 = 3 := hp ▸ hs.residue
  unfold cryptoEcFieldSquareRootFixed
  dsimp only
  rw [hmask]
  by_cases hroot : x ^ ((p + 1) / 4) * x ^ ((p + 1) / 4) = x
  · have hselect := select_holds hpower (zero_holds h) False
    rw [if_neg not_false, if_neg not_false] at hselect
    rw [if_pos hroot]
    exact ⟨⟨fun _ => ⟨_, hroot.symm⟩, fun _ => rfl⟩, _, hselect, fun _ => hroot⟩
  · have hselect := select_holds hpower (zero_holds h) True
    rw [if_pos trivial, if_pos trivial] at hselect
    have hnot : ¬ IsSquare x := fun hx => hroot (root_of_square hmod hx)
    rw [if_neg hroot]
    exact ⟨⟨fun hfalse => absurd hfalse (by decide), fun hx => absurd hx hnot⟩, _, hselect,
      fun hx => absurd hx hnot⟩

theorem invertFixed_holds (hs : FieldSizes curve) (h : (fieldModulus curve).Sound p)
    (ha : FieldHolds curve p a x) :
    FieldHolds curve p (cryptoEcFieldInvertFixed curve a) x⁻¹ := by
  have hp : fieldPrime curve = p := h.value
  have hthree := hs.three
  have hexponent : wordsValue curve.inverseExponent < 2 ^ curve.fieldBits := by
    have hbits := hs.bits
    rw [hs.inverse]
    omega
  have hpower := power_holds h ha hexponent
  rw [hs.inverse, hp] at hpower
  rwa [pow_sub_two (by omega)] at hpower

end Root

end LiberaCrypt.EcField
