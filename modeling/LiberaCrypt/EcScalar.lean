import LiberaCrypt.EcMontgomery

namespace LiberaCrypt.EcScalar

open LiberaCrypt.Outcome LiberaCrypt.BigEndian LiberaCrypt.CountedLoop LiberaCrypt.Endian
open LiberaCrypt.Limbs LiberaCrypt.LimbBytes LiberaCrypt.Montgomery LiberaCrypt.Radix
open LiberaCrypt.EcCurves LiberaCrypt.EcMontgomery

def scalarParseBytes (curve : CryptoEcCurve) (input : List UInt8) : List UInt32 :=
  limbsOfBytes curve.limbs input

def cryptoEcScalarFromBytesReduced (curve : CryptoEcCurve) (input : List UInt8) :
    Except LiberaCError (List UInt32) :=
  if input.length ≠ curve.scalarBytes then .error .invalidArgument
  else
    let excessBits := input.length * 8 - curve.scalarBits
    if excessBits ≠ 0 ∧ input.getD 0 0 >>> UInt8.ofNat (8 - excessBits) ≠ 0 then
      .error .invalidArgument
    else
      let raw := scalarParseBytes curve input
      let reduced := subRow curve.limbs raw curve.order 0
      let subtractMask := (0 : UInt32) - (reduced.2.toUInt32 ^^^ 1)
      let standard := selectWords subtractMask raw reduced.1
      .ok (montgomeryMultiplyRaw (scalarModulus curve) standard curve.scalarMontgomeryR2)

def cryptoEcScalarToBytes (curve : CryptoEcCurve) (scalar : List UInt32) : List UInt8 :=
  bytesOfLimbs curve.scalarBytes
    (montgomeryMultiplyRaw (scalarModulus curve) scalar (oneLimbs curve.limbs))

def scalarEncodedByte (curve : CryptoEcCurve) (value : List UInt32) (byteIndex : Nat) : UInt32 :=
  let littleEndianIndex := curve.scalarBytes - 1 - byteIndex
  (value.getD (littleEndianIndex / 4) 0 >>> UInt32.ofNat (littleEndianIndex % 4 * 8)) &&& 0xff

/-- The borrow of `scalar - n`, from the lowest byte up. -/
def orderBorrow (curve : CryptoEcCurve) (scalar : List UInt8) : UInt32 :=
  countDown scalar.length (fun index borrow =>
    let scalarByte := (scalar.getD index 0).toUInt64
    let orderByte := (scalarEncodedByte curve curve.order index).toUInt64
    let difference := scalarByte - orderByte - borrow.toUInt64
    (difference >>> 63).toUInt32) 0

def cryptoEcScalarIsValidCt (curve : CryptoEcCurve) (scalar : List UInt8) : UInt32 :=
  if scalar.length ≠ curve.scalarBytes then 0
  else
    let nonzero := scalar.foldl (fun nonzero byte => nonzero ||| byte.toUInt32) 0
    (nonzeroMask nonzero &&& ((0 : UInt32) - orderBorrow curve scalar)) >>> 31

structure Sizes (curve : CryptoEcCurve) : Prop where
  size : (groupOrder curve).size = curve.scalarBits
  bytes : curve.scalarBytes = (curve.scalarBits + 7) / 8
  room : curve.scalarBytes ≤ 4 * curve.limbs
  double : 2 ^ curve.scalarBits ≤ 2 * groupOrder curve

theorem sizes (id : CryptoEcCurveId) : Sizes (cryptoEcCurveGet id) := by
  cases id <;> constructor <;> decide +kernel

variable {curve : CryptoEcCurve} {scalar input : List UInt8}

theorem scalarEncodedByte_toNat (curve : CryptoEcCurve) (value : List UInt32) (byteIndex : Nat) :
    (scalarEncodedByte curve value byteIndex).toNat =
      wordsValue value / 256 ^ (curve.scalarBytes - 1 - byteIndex) % 256 := by
  rw [← limbByte_toNat, limbByte, UInt32.toNat_toUInt8, scalarEncodedByte, UInt32.toNat_and,
    Nat.mul_comm]
  change _ &&& (2 ^ 8 - 1) = _
  rw [Nat.and_two_pow_sub_one_eq_mod]

/-- One byte of the comparison: the sign of the difference is its top bit. -/
theorem borrow_step {x y : UInt64} {b : UInt32} (hx : x.toNat < 256) (hy : y.toNat < 256)
    (hb : b.toNat ≤ 1) :
    ((x - y - b.toUInt64) >>> 63).toUInt32 = if x.toNat < y.toNat + b.toNat then 1 else 0 := by
  apply UInt32.toNat_inj.mp
  have hdiff : (x - y - b.toUInt64).toNat =
      (2 ^ 64 + x.toNat - y.toNat - b.toNat) % 2 ^ 64 := by
    rw [UInt64.toNat_sub, UInt64.toNat_sub, UInt32.toNat_toUInt64]
    omega
  have hshift : ((x - y - b.toUInt64) >>> 63).toNat =
      (2 ^ 64 + x.toNat - y.toNat - b.toNat) % 2 ^ 64 / 2 ^ 63 := by
    rw [UInt64.toNat_shiftRight, hdiff, Nat.shiftRight_eq_div_pow]
    rfl
  rw [UInt64.toNat_toUInt32, hshift]
  split_ifs with hlt
  · rw [UInt32.toNat_one]
    omega
  · rw [UInt32.toNat_zero]
    omega

theorem beValue_drop {index : Nat} (hi : index < scalar.length) :
    beValue (scalar.drop index) =
      256 ^ (scalar.length - 1 - index) * (scalar.getD index 0).toNat +
        beValue (scalar.drop (index + 1)) := by
  rw [List.drop_eq_getElem_cons hi, beValue, List.reverse_cons, bytesValue_append,
    bytesValue_singleton, List.length_reverse, List.length_drop, List.getD_eq_getElem _ _ hi,
    Nat.add_comm, beValue, show scalar.length - (index + 1) = scalar.length - 1 - index by omega]

theorem orderBorrow_eq (hlength : scalar.length = curve.scalarBytes)
    (hfits : groupOrder curve < 256 ^ curve.scalarBytes) :
    orderBorrow curve scalar = if beValue scalar < groupOrder curve then 1 else 0 := by
  have hloop : orderBorrow curve scalar =
      if beValue (scalar.drop 0) < groupOrder curve % 256 ^ (scalar.length - 0) then 1 else 0 := by
    refine countDown_invariant (fun i borrow => borrow =
      if beValue (scalar.drop i) < groupOrder curve % 256 ^ (scalar.length - i) then (1 : UInt32)
      else 0) ?_ ?_
    · rw [List.drop_length, beValue_nil, Nat.sub_self, pow_zero, Nat.mod_one]
      rfl
    rintro i hi borrow rfl
    have horder := scalarEncodedByte_toNat curve curve.order i
    have hweight : 256 ^ (scalar.length - i) = 256 ^ (scalar.length - 1 - i) * 256 := by
      rw [← pow_succ]
      congr 1
      omega
    have hA : beValue (scalar.drop (i + 1)) < 256 ^ (scalar.length - 1 - i) := by
      have hlt := beValue_lt (scalar.drop (i + 1))
      rwa [List.length_drop, show scalar.length - (i + 1) = scalar.length - 1 - i by omega] at hlt
    have hB := Nat.mod_lt (groupOrder curve) (Nat.pow_pos (n := scalar.length - 1 - i)
      (by decide : 0 < 256))
    rw [← hlength] at horder
    rw [borrow_step (by rw [UInt8.toNat_toUInt64]; exact UInt8.toNat_lt _)
      (by rw [UInt32.toNat_toUInt64, horder]; exact Nat.mod_lt _ (by decide))
      (by split <;> decide), UInt8.toNat_toUInt64, UInt32.toNat_toUInt64, horder,
      beValue_drop hi, hweight, Nat.mod_mul]
    have hdigit := digit_lt (s := (scalar.getD i 0).toNat)
      (o := wordsValue curve.order / 256 ^ (scalar.length - 1 - i) % 256) hA hB
    have hsub : scalar.length - (i + 1) = scalar.length - 1 - i := by omega
    rw [hsub]
    change _ ↔ _ at hdigit
    have hbit : (if beValue (scalar.drop (i + 1)) <
        groupOrder curve % 256 ^ (scalar.length - 1 - i) then (1 : UInt32) else 0).toNat =
        if beValue (scalar.drop (i + 1)) <
          groupOrder curve % 256 ^ (scalar.length - 1 - i) then 1 else 0 := by
      split <;> rfl
    rw [hbit]
    exact if_congr hdigit.symm rfl rfl
  rw [List.drop_zero, Nat.sub_zero, hlength, Nat.mod_eq_of_lt hfits] at hloop
  exact hloop

theorem foldl_or_eq_zero (bytes : List UInt8) (start : UInt32) :
    bytes.foldl (fun nonzero byte => nonzero ||| byte.toUInt32) start = 0 ↔
      start = 0 ∧ beValue bytes = 0 := by
  induction bytes generalizing start with
  | nil => simp
  | cons byte bytes ih =>
    have hbyte : byte.toUInt32 = 0 ↔ byte.toNat = 0 := by
      rw [← UInt32.toNat_inj, UInt8.toNat_toUInt32]
      rfl
    have hvalue : beValue (byte :: bytes) = beValue bytes + 256 ^ bytes.length * byte.toNat := by
      rw [beValue, List.reverse_cons, bytesValue_append, bytesValue_singleton,
        List.length_reverse, beValue]
    rw [List.foldl_cons, ih, UInt32.or_eq_zero_iff, hbyte, hvalue, Nat.add_eq_zero_iff,
      Nat.mul_eq_zero]
    simp only [pow_eq_zero_iff', OfNat.ofNat_ne_zero, false_and, false_or]
    tauto

theorem cryptoEcScalarIsValidCt_eq (h : Sizes curve) (hlength : scalar.length = curve.scalarBytes) :
    cryptoEcScalarIsValidCt curve scalar =
      if 1 ≤ beValue scalar ∧ beValue scalar < groupOrder curve then 1 else 0 := by
  have hfits : groupOrder curve < 256 ^ curve.scalarBytes := by
    have hlt := Nat.lt_size_self (groupOrder curve)
    apply hlt.trans_le
    rw [show 256 = 2 ^ 8 from rfl, ← pow_mul, h.size]
    have hbytes := h.bytes
    exact Nat.pow_le_pow_right Nat.two_pos (by omega)
  unfold cryptoEcScalarIsValidCt
  rw [if_neg (not_not.mpr hlength), orderBorrow_eq hlength hfits]
  dsimp only
  rw [nonzeroMask_eq]
  have hzero := foldl_or_eq_zero scalar 0
  by_cases hpos : 1 ≤ beValue scalar
  · rw [if_neg (by rw [hzero]; omega)]
    by_cases hlt : beValue scalar < groupOrder curve
    · rw [if_pos hlt, if_pos ⟨hpos, hlt⟩]
      decide
    · have hinvalid : ¬ (1 ≤ beValue scalar ∧ beValue scalar < groupOrder curve) :=
        fun hvalid => hlt hvalid.2
      rw [if_neg hlt, if_neg hinvalid]
      decide
  · have hinvalid : ¬ (1 ≤ beValue scalar ∧ beValue scalar < groupOrder curve) :=
      fun hvalid => hpos hvalid.1
    rw [if_pos (hzero.mpr ⟨rfl, by omega⟩), if_neg hinvalid]
    split <;> decide

theorem reduceOnce_spec {n : Nat} {raw modulus : List UInt32} (hraw : raw.length = n)
    (hmodulus : modulus.length = n) (hlt : wordsValue raw < 2 * wordsValue modulus) :
    (selectWords ((0 : UInt32) - ((subRow n raw modulus 0).2.toUInt32 ^^^ 1)) raw
        (subRow n raw modulus 0).1).length = n ∧
      wordsValue (selectWords ((0 : UInt32) - ((subRow n raw modulus 0).2.toUInt32 ^^^ 1)) raw
        (subRow n raw modulus 0).1) = wordsValue raw % wordsValue modulus := by
  have hwork : Work.value ⟨raw, 0⟩ = wordsValue raw := by
    rw [Work.value, UInt32.toNat_zero, Nat.mul_zero, Nat.add_zero]
  have hspec := @maskedSubtract_spec ⟨raw, 0⟩ _ _ hraw hmodulus (by rw [hwork]; exact hlt)
  rw [hwork] at hspec
  dsimp only at hspec
  rwa [show nonzeroMask 0 = 0 by decide, UInt32.zero_or] at hspec

theorem excess_iff (h : Sizes curve) (hlength : input.length = curve.scalarBytes) :
    (input.length * 8 - curve.scalarBits ≠ 0 ∧
      input.getD 0 0 >>> UInt8.ofNat (8 - (input.length * 8 - curve.scalarBits)) ≠ 0) ↔
      2 ^ curve.scalarBits ≤ beValue input := by
  have hbytes := h.bytes
  have hsize := beValue_lt input
  rw [show 256 = 2 ^ 8 from rfl, ← pow_mul] at hsize
  by_cases hexcess : input.length * 8 - curve.scalarBits = 0
  · have hle : 2 ^ (8 * input.length) ≤ 2 ^ curve.scalarBits :=
      Nat.pow_le_pow_right Nat.two_pos (by omega)
    simp only [hexcess, ne_eq, not_true_eq_false, false_and, false_iff]
    omega
  have hzero : 0 < input.length := by omega
  have hsplit := beValue_drop hzero
  rw [List.drop_zero, Nat.sub_zero] at hsplit
  have hpow : 2 ^ curve.scalarBits =
      256 ^ (input.length - 1) * 2 ^ (8 - (input.length * 8 - curve.scalarBits)) := by
    rw [show 256 = 2 ^ 8 from rfl, ← pow_mul, ← pow_add]
    congr 1
    omega
  have hrest : beValue (input.drop 1) < 256 ^ (input.length - 1) := by
    have hlt := beValue_lt (input.drop 1)
    rwa [List.length_drop] at hlt
  have hshift : (input.getD 0 0 >>> UInt8.ofNat
      (8 - (input.length * 8 - curve.scalarBits))).toNat =
      (input.getD 0 0).toNat / 2 ^ (8 - (input.length * 8 - curve.scalarBits)) := by
    rw [UInt8.toNat_shiftRight, UInt8.toNat_ofNat', Nat.mod_eq_of_lt (by omega),
      Nat.mod_eq_of_lt (by omega), Nat.shiftRight_eq_div_pow]
  have hpos : 0 < 256 ^ (input.length - 1) := Nat.pow_pos (by decide)
  have hdiv : beValue input / 2 ^ curve.scalarBits =
      (input.getD 0 0).toNat / 2 ^ (8 - (input.length * 8 - curve.scalarBits)) := by
    rw [hpow, ← Nat.div_div_eq_div_mul, hsplit, Nat.mul_add_div hpos, Nat.div_eq_of_lt hrest,
      Nat.add_zero]
  rw [← hdiv] at hshift
  rw [← UInt8.toNat_inj.ne, hshift]
  have hwidth : 0 < 2 ^ curve.scalarBits := Nat.pow_pos Nat.two_pos
  constructor
  · rintro ⟨-, htop⟩
    by_contra hlt
    exact htop (Nat.div_eq_of_lt (not_le.mp hlt))
  · intro hle
    exact ⟨hexcess, (Nat.div_pos hle hwidth).ne'⟩

theorem fromBytesReduced_holds (hsizes : Sizes curve)
    (hsound : (scalarModulus curve).Sound (groupOrder curve))
    (hlength : input.length = curve.scalarBytes) (hlt : beValue input < 2 ^ curve.scalarBits) :
    ∃ scalar, cryptoEcScalarFromBytesReduced curve input = .ok scalar ∧
      (scalarModulus curve).Holds (groupOrder curve) scalar (beValue input) := by
  have hexcess := (excess_iff hsizes hlength).not.mpr (not_le.mpr hlt)
  obtain ⟨hraw, hvalue⟩ := @limbsOfBytes_spec input curve.limbs
    (hlength.trans_le hsizes.room)
  have hdouble := hsizes.double
  obtain ⟨hstandard, hreduced⟩ := reduceOnce_spec hraw hsound.length
    (by rw [hvalue, hsound.value]; omega)
  have hholds := enter_holds hsound hstandard
  rw [hreduced, hsound.value, hvalue, ZMod.natCast_mod] at hholds
  unfold cryptoEcScalarFromBytesReduced scalarParseBytes
  rw [if_neg (not_not.mpr hlength)]
  dsimp only
  rw [if_neg hexcess]
  exact ⟨_, rfl, hholds⟩

theorem fromBytesReduced_error (hsizes : Sizes curve)
    (hinput : ¬ (input.length = curve.scalarBytes ∧ beValue input < 2 ^ curve.scalarBits)) :
    cryptoEcScalarFromBytesReduced curve input = .error .invalidArgument := by
  unfold cryptoEcScalarFromBytesReduced
  by_cases hlength : input.length = curve.scalarBytes
  · have hexcess := (excess_iff hsizes hlength).mpr
      (not_lt.mp fun hlt => hinput ⟨hlength, hlt⟩)
    rw [if_neg (not_not.mpr hlength)]
    exact if_pos hexcess
  · exact if_pos hlength

theorem scalarToBytes_eq {n : List UInt32} {x : ZMod (groupOrder curve)}
    (hsound : (scalarModulus curve).Sound (groupOrder curve))
    (hn : (scalarModulus curve).Holds (groupOrder curve) n x) :
    cryptoEcScalarToBytes curve n = bigEndian curve.scalarBytes x.val := by
  obtain ⟨-, hless, hcast⟩ := leave_value hsound hn
  have hval := congrArg ZMod.val hcast
  rw [ZMod.val_natCast, Nat.mod_eq_of_lt hless] at hval
  rw [cryptoEcScalarToBytes, bytesOfLimbs_eq, ← hval]
  rfl

end LiberaCrypt.EcScalar
