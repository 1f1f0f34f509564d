import LiberaCrypt.EcPrimes
import LiberaCrypt.EcScalarMultiply

namespace LiberaCrypt.EcScalarVartime

open LiberaCrypt.Outcome LiberaCrypt.BigEndian LiberaCrypt.CheckedWords LiberaCrypt.CountedLoop
open LiberaCrypt.Radix
open LiberaCrypt.EcCurves LiberaCrypt.EcField LiberaCrypt.EcGroup LiberaCrypt.EcJacobian
open LiberaCrypt.EcMontgomery LiberaCrypt.EcPoint LiberaCrypt.EcPrimes LiberaCrypt.EcScalar
open LiberaCrypt.EcScalarMultiply LiberaCrypt.ShortWeierstrass

/-- The loop `while (first < scalar_length && scalar[first] == 0u)`. -/
def leadingZeros : List UInt8 → Nat
  | [] => 0
  | byte :: rest => if byte = 0 then leadingZeros rest + 1 else 0

/-- The loop `while (bit > 0u && ((scalar[first] >> (bit - 1u)) & 1u) == 0u)`. -/
def topBit (byte : UInt8) : Nat → Nat
  | 0 => 0
  | bit + 1 => if (byte.toUInt32 >>> UInt32.ofNat bit) &&& 1 = 0 then topBit byte bit else bit + 1

def scalarPublicBitLength (scalar : List UInt8) : Nat :=
  let first := leadingZeros scalar
  if first = scalar.length then 0
  else (scalar.length - first - 1) * 8 + topBit (scalar.getD first 0) 8

def scalarPublicBit (scalar : List UInt8) (bitIndex : Nat) : UInt32 :=
  let byteFromEnd := bitIndex / 8
  if scalar.length ≤ byteFromEnd then 0
  else
    ((scalar.getD (scalar.length - 1 - byteFromEnd) 0).toUInt32 >>> UInt32.ofNat (bitIndex % 8)) &&& 1

def scalarWindowValue (scalar : List UInt8) (lowBit width : Nat) : UInt32 :=
  countUp width (fun index value =>
    value ||| scalarPublicBit scalar (lowBit + index) <<< UInt32.ofNat index) 0

def windowBits : Nat := 4

def windowSize : Nat := 2 ^ windowBits

def windowTable (curve : CryptoEcCurve) (point : CryptoEcAffinePoint) :
    List CryptoEcJacobianPoint :=
  let infinity := cryptoEcJacobianSetInfinity curve
  countUp (windowSize - 2) (fun i table =>
    table ++ [cryptoEcJacobianAddComplete curve (table.getD (i + 1) infinity)
      (table.getD 1 infinity)]) [infinity, cryptoEcAffineToJacobian curve point]

def windowStep (curve : CryptoEcCurve) (scalar : List UInt8) (table : List CryptoEcJacobianPoint)
    (currentWindow : Nat) (result : CryptoEcJacobianPoint) : CryptoEcJacobianPoint :=
  let value := scalarWindowValue scalar (currentWindow * windowBits) windowBits
  let result := countUp windowBits (fun _ result => cryptoEcJacobianDouble curve result) result
  if value ≠ 0 then
    cryptoEcJacobianAddComplete curve result
      (table.getD value.toNat (cryptoEcJacobianSetInfinity curve))
  else result

def cryptoEcScalarMultiplyVartime (curve : CryptoEcCurve) (point : CryptoEcAffinePoint)
    (scalar : List UInt8) : Except LiberaCError CryptoEcAffinePoint :=
  if curve.scalarBytes < scalar.length ∨ cryptoEcAffineIsOnCurve curve point = false then
    .error .invalidArgument
  else
    let bitLength := scalarPublicBitLength scalar
    if bitLength = 0 ∨ point.infinity ≠ 0 then .ok (cryptoEcAffineSetInfinity curve)
    else
      let table := windowTable curve point
      let windowCount := (bitLength + windowBits - 1) / windowBits
      let result := countDown windowCount (windowStep curve scalar table)
        (cryptoEcJacobianSetInfinity curve)
      .ok (cryptoEcJacobianToAffine curve result)

section Bits

variable {scalar : List UInt8}

theorem topBit_lt (byte : UInt8) {bits : Nat} (hbits : bits ≤ 8) (hlt : byte.toNat < 2 ^ bits) :
    byte.toNat < 2 ^ topBit byte bits := by
  induction bits with
  | zero => exact hlt
  | succ bit ih =>
    rw [topBit]
    split
    · next hzero =>
      -- the bit that was tested is the top one left
      have hbit := congrArg UInt32.toNat hzero
      rw [UInt32.toNat_and, UInt32.toNat_one, Nat.and_one_is_mod, toNat_shift32 _ _ (by omega),
        UInt8.toNat_toUInt32, UInt32.toNat_zero] at hbit
      have hquotient : byte.toNat / 2 ^ bit < 2 := by
        apply Nat.div_lt_of_lt_mul
        rwa [← pow_succ]
      have hhigh : byte.toNat / 2 ^ bit = 0 := (Nat.mod_eq_of_lt hquotient).symm.trans hbit
      exact ih (by omega) ((Nat.div_eq_zero_iff_lt (Nat.two_pow_pos bit)).mp hhigh)
    · exact hlt

theorem leadingZeros_le (scalar : List UInt8) : leadingZeros scalar ≤ scalar.length := by
  induction scalar with
  | nil => rfl
  | cons byte rest ih =>
    rw [leadingZeros, List.length_cons]
    split <;> omega

theorem beValue_leadingZeros (scalar : List UInt8) :
    beValue (scalar.drop (leadingZeros scalar)) = beValue scalar := by
  induction scalar with
  | nil => rfl
  | cons byte rest ih =>
    rw [leadingZeros]
    split
    · next hzero =>
      rw [List.drop_succ_cons, ih, beValue_cons, hzero, UInt8.toNat_zero, Nat.mul_zero,
        Nat.zero_add]
    · rfl

theorem scalarPublicBitLength_lt (scalar : List UInt8) :
    beValue scalar < 2 ^ scalarPublicBitLength scalar := by
  have hle := leadingZeros_le scalar
  have hvalue := beValue_leadingZeros scalar
  unfold scalarPublicBitLength
  dsimp only
  split
  · next hall =>
    rw [hall, List.drop_length, beValue_nil] at hvalue
    rw [← hvalue, pow_zero]
    exact one_pos
  · next hsome =>
    have hfirst : leadingZeros scalar < scalar.length := lt_of_le_of_ne hle hsome
    rw [beValue_drop hfirst] at hvalue
    have hrest := beValue_lt (scalar.drop (leadingZeros scalar + 1))
    have hbyte := topBit_lt (scalar.getD (leadingZeros scalar) 0) le_rfl (UInt8.toNat_lt _)
    rw [List.length_drop, show scalar.length - (leadingZeros scalar + 1) =
      scalar.length - 1 - leadingZeros scalar by omega] at hrest
    rw [show scalar.length - leadingZeros scalar - 1 =
      scalar.length - 1 - leadingZeros scalar by omega, pow_add, Nat.mul_comm _ 8, pow_mul,
      ← hvalue]
    generalize scalar.length - 1 - leadingZeros scalar = n at *
    change _ < 256 ^ n * _
    calc 256 ^ n * (scalar.getD (leadingZeros scalar) 0).toNat +
          beValue (scalar.drop (leadingZeros scalar + 1))
        < 256 ^ n * ((scalar.getD (leadingZeros scalar) 0).toNat + 1) := by
          rw [Nat.mul_succ]
          exact Nat.add_lt_add_left hrest _
      _ ≤ 256 ^ n * 2 ^ topBit (scalar.getD (leadingZeros scalar) 0) 8 :=
          Nat.mul_le_mul_left _ hbyte

theorem scalarPublicBit_eq (scalar : List UInt8) (bit : Nat) :
    scalarPublicBit scalar bit = UInt32.ofNat (beValue scalar / 2 ^ bit % 2) := by
  unfold scalarPublicBit
  dsimp only
  split
  · next hbeyond =>
    have hlt : beValue scalar < 2 ^ bit := by
      refine (beValue_lt scalar).trans_le ?_
      rw [show 256 = 2 ^ 8 from rfl, ← pow_mul]
      exact Nat.pow_le_pow_right two_pos (by omega)
    rw [Nat.div_eq_of_lt hlt]
    rfl
  · next hinside => exact scalarBit_eq (not_le.mp hinside)

theorem scalarWindowValue_toNat (scalar : List UInt8) (lowBit : Nat) {width : Nat}
    (hwidth : width ≤ 32) :
    (scalarWindowValue scalar lowBit width).toNat = beValue scalar / 2 ^ lowBit % 2 ^ width := by
  refine countUp_invariant (fun index (value : UInt32) =>
    value.toNat = beValue scalar / 2 ^ lowBit % 2 ^ index) ?_ ?_
  · rw [pow_zero, Nat.mod_one, UInt32.toNat_zero]
  · intro index hindex value hvalue
    have hlt : value.toNat < 2 ^ index := by
      rw [hvalue]
      exact Nat.mod_lt _ (Nat.two_pow_pos index)
    have hbit : (scalarPublicBit scalar (lowBit + index)).toNat =
        beValue scalar / 2 ^ lowBit / 2 ^ index % 2 := by
      rw [scalarPublicBit_eq, UInt32.toNat_ofNat', pow_add, ← Nat.div_div_eq_div_mul,
        Nat.mod_eq_of_lt (by omega)]
    have hplace : (UInt32.ofNat index).toNat % 32 = index := by
      rw [UInt32.toNat_ofNat']
      omega
    have hbelow : beValue scalar / 2 ^ lowBit / 2 ^ index % 2 * 2 ^ index < 2 ^ 32 := by
      have hle : beValue scalar / 2 ^ lowBit / 2 ^ index % 2 ≤ 1 := by omega
      have hpow : 2 ^ index < 2 ^ 32 := Nat.pow_lt_pow_right (by decide) (by omega)
      exact (Nat.mul_le_mul_right _ hle).trans_lt (by rwa [Nat.one_mul])
    have hshift : (scalarPublicBit scalar (lowBit + index) <<< UInt32.ofNat index).toNat =
        2 ^ index * (beValue scalar / 2 ^ lowBit / 2 ^ index % 2) := by
      rw [UInt32.toNat_shiftLeft, hbit, hplace, Nat.shiftLeft_eq, Nat.mod_eq_of_lt hbelow,
        Nat.mul_comm]
    rw [UInt32.toNat_or, hshift, Nat.or_comm, ← Nat.two_pow_add_eq_or_of_lt hlt, hvalue,
      Nat.mod_pow_succ, Nat.add_comm]

end Bits

section Multiples

variable {id : CryptoEcCurveId} {P : (group id).Point} {point : CryptoEcAffinePoint}
  {scalar : List UInt8} {table : List CryptoEcJacobianPoint}

def HoldsMultiples (id : CryptoEcCurveId) (P : (group id).Point)
    (table : List CryptoEcJacobianPoint) : Prop :=
  ∀ i < table.length, Represents id
    (table.getD i (cryptoEcJacobianSetInfinity (cryptoEcCurveGet id))) (i • P)

theorem windowTable_multiples (hP : AffineHolds id point P) :
    (windowTable (cryptoEcCurveGet id) point).length = windowSize ∧
      HoldsMultiples id P (windowTable (cryptoEcCurveGet id) point) := by
  have hloop := countUp_invariant (fun i (table : List CryptoEcJacobianPoint) =>
      table.length = i + 2 ∧ HoldsMultiples id P table) (n := windowSize - 2)
    (s := [cryptoEcJacobianSetInfinity (cryptoEcCurveGet id),
      cryptoEcAffineToJacobian (cryptoEcCurveGet id) point])
    (f := fun i table => table ++ [cryptoEcJacobianAddComplete (cryptoEcCurveGet id)
      (table.getD (i + 1) (cryptoEcJacobianSetInfinity (cryptoEcCurveGet id)))
      (table.getD 1 (cryptoEcJacobianSetInfinity (cryptoEcCurveGet id)))]) ?_ ?_
  · exact hloop
  · refine ⟨rfl, fun i hi => ?_⟩
    match i, hi with
    | 0, _ =>
      rw [zero_nsmul]
      exact represents_infinity
    | 1, _ =>
      rw [one_nsmul]
      exact affineToJacobian_represents hP
  · rintro i - table ⟨hlength, hmultiples⟩
    have hlast := hmultiples (i + 1) (by omega)
    have hfirst := hmultiples 1 (by omega)
    refine ⟨by rw [List.length_append, hlength]; rfl, fun j hj => ?_⟩
    rw [List.length_append, List.length_singleton, Nat.lt_succ_iff] at hj
    rcases hj.lt_or_eq with hbefore | rfl
    · rw [List.getD_append _ _ _ _ hbefore]
      exact hmultiples j hbefore
    · have hsum := hlast.add hfirst
      rw [← add_nsmul, show i + 1 + 1 = table.length from hlength.symm] at hsum
      rw [List.getD_append_right _ _ _ _ le_rfl, Nat.sub_self]
      exact hsum

theorem doubled_represents {result : CryptoEcJacobianPoint} {k : Nat}
    (h : Represents id result (k • P)) (n : Nat) :
    Represents id (countUp n (fun _ result =>
      cryptoEcJacobianDouble (cryptoEcCurveGet id) result) result) ((2 ^ n * k) • P) := by
  induction n with
  | zero => rwa [pow_zero, Nat.one_mul]
  | succ n ih =>
    have hdouble := ih.double
    rwa [← add_nsmul, ← Nat.two_mul, ← Nat.mul_assoc, ← pow_succ'] at hdouble

theorem windowStep_represents (hlength : table.length = windowSize)
    (htable : HoldsMultiples id P table) {currentWindow : Nat} {result : CryptoEcJacobianPoint}
    (h : Represents id result ((beValue scalar / 2 ^ ((currentWindow + 1) * windowBits)) • P)) :
    Represents id (windowStep (cryptoEcCurveGet id) scalar table currentWindow result)
      ((beValue scalar / 2 ^ (currentWindow * windowBits)) • P) := by
  have hvalue := scalarWindowValue_toNat scalar (currentWindow * windowBits)
    (show windowBits ≤ 32 by decide)
  have hdoubled := doubled_represents h windowBits
  have hsplit : beValue scalar / 2 ^ (currentWindow * windowBits) =
      2 ^ windowBits * (beValue scalar / 2 ^ ((currentWindow + 1) * windowBits)) +
        (scalarWindowValue scalar (currentWindow * windowBits) windowBits).toNat := by
    rw [hvalue, Nat.succ_mul, pow_add, ← Nat.div_div_eq_div_mul, Nat.div_add_mod]
  have hentry : (scalarWindowValue scalar (currentWindow * windowBits) windowBits).toNat <
      table.length := by
    rw [hvalue, hlength]
    exact Nat.mod_lt _ (Nat.two_pow_pos windowBits)
  unfold windowStep
  dsimp only
  rw [hsplit, add_nsmul]
  split
  · exact hdoubled.add (htable _ hentry)
  · next hzero =>
    rw [not_not.mp hzero, UInt32.toNat_zero, zero_nsmul, add_zero]
    exact hdoubled

theorem cryptoEcScalarMultiplyVartime_spec (hP : AffineHolds id point P)
    (hlength : scalar.length ≤ (cryptoEcCurveGet id).scalarBytes) :
    ∃ out, cryptoEcScalarMultiplyVartime (cryptoEcCurveGet id) point scalar = .ok out ∧
      AffineHolds id out (beValue scalar • P) := by
  have hbits := scalarPublicBitLength_lt scalar
  obtain ⟨hsize, htable⟩ := windowTable_multiples hP
  unfold cryptoEcScalarMultiplyVartime
  dsimp only
  rw [if_neg (by rw [hP.isOnCurve]; simpa using hlength)]
  split
  · next htrivial =>
    have hzero : beValue scalar • P = 0 := by
      rcases htrivial with hnone | hinfinite
      · rw [hnone, pow_zero, Nat.lt_one_iff] at hbits
        rw [hbits, zero_nsmul]
      · cases hP with
        | infinity => exact nsmul_zero _
        | affine => exact absurd rfl hinfinite
    rw [hzero]
    exact ⟨_, rfl, AffineHolds.infinity⟩
  · have hloop := countDown_invariant (fun i (result : CryptoEcJacobianPoint) =>
        Represents id result ((beValue scalar / 2 ^ (i * windowBits)) • P))
      (n := (scalarPublicBitLength scalar + windowBits - 1) / windowBits)
      (f := windowStep (cryptoEcCurveGet id) scalar (windowTable (cryptoEcCurveGet id) point))
      (s := cryptoEcJacobianSetInfinity (cryptoEcCurveGet id)) ?_
      fun i _ result hresult => windowStep_represents hsize htable hresult
    · rw [Nat.zero_mul, pow_zero, Nat.div_one] at hloop
      exact ⟨_, rfl, jacobianToAffine_holds hloop⟩
    · have hcovers : scalarPublicBitLength scalar ≤
          (scalarPublicBitLength scalar + windowBits - 1) / windowBits * windowBits := by
        unfold windowBits
        omega
      rw [Nat.div_eq_of_lt (hbits.trans_le (Nat.pow_le_pow_right two_pos hcovers)), zero_nsmul]
      exact represents_infinity

/-- What the code takes for a point: its coordinates, or anything under the mark of infinity. -/
def StandsFor (id : CryptoEcCurveId) (point : CryptoEcAffinePoint) (P : (group id).Point) : Prop :=
  AffineHolds id point P ∨ point.infinity ≠ 0 ∧ P = 0

theorem affineHolds_unique {a b : CryptoEcAffinePoint} (ha : AffineHolds id a P)
    (hb : AffineHolds id b P) : a = b := by
  cases ha with
  | infinity =>
    cases hb with
    | infinity => rfl
  | affine h hx hy =>
    cases hb with
    | affine h' hx' hy' => rw [hx.unique hx', hy.unique hy']

theorem multiply_marked {curve : CryptoEcCurve} {point : CryptoEcAffinePoint}
    (hpoint : point.infinity ≠ 0) (scalar : List UInt8) :
    cryptoEcScalarMultiplyCt curve point scalar =
        cryptoEcScalarMultiplyCt curve (cryptoEcAffineSetInfinity curve) scalar ∧
      cryptoEcScalarMultiplyVartime curve point scalar =
        cryptoEcScalarMultiplyVartime curve (cryptoEcAffineSetInfinity curve) scalar := by
  have hmark : (cryptoEcAffineSetInfinity curve).infinity ≠ 0 := by
    simp [cryptoEcAffineSetInfinity]
  have hon : cryptoEcAffineIsOnCurve curve point =
      cryptoEcAffineIsOnCurve curve (cryptoEcAffineSetInfinity curve) := by
    rw [cryptoEcAffineIsOnCurve, cryptoEcAffineIsOnCurve, if_pos hpoint, if_pos hmark]
  have hjacobian : cryptoEcAffineToJacobian curve point =
      cryptoEcAffineToJacobian curve (cryptoEcAffineSetInfinity curve) := by
    rw [cryptoEcAffineToJacobian, cryptoEcAffineToJacobian, if_pos hpoint, if_pos hmark]
  constructor
  · unfold cryptoEcScalarMultiplyCt
    rw [hon, hjacobian]
  · unfold cryptoEcScalarMultiplyVartime
    dsimp only
    rw [hon, if_pos (Or.inr hpoint), if_pos (Or.inr hmark)]

theorem StandsFor.canonical (h : StandsFor id point P) :
    ∃ canonical, AffineHolds id canonical P ∧ ∀ scalar,
      cryptoEcScalarMultiplyCt (cryptoEcCurveGet id) point scalar =
          cryptoEcScalarMultiplyCt (cryptoEcCurveGet id) canonical scalar ∧
        cryptoEcScalarMultiplyVartime (cryptoEcCurveGet id) point scalar =
          cryptoEcScalarMultiplyVartime (cryptoEcCurveGet id) canonical scalar := by
  rcases h with hpoint | ⟨hmarked, rfl⟩
  · exact ⟨point, hpoint, fun _ => ⟨rfl, rfl⟩⟩
  · exact ⟨_, AffineHolds.infinity, multiply_marked hmarked⟩

/-- Both schedules give the multiple of the group, in its one canonical form: the secret one for
the scalars from one to the order, and the public one for every string that is not too long. -/
theorem scalarMultiply_correct (id : CryptoEcCurveId) {point : CryptoEcAffinePoint}
    {P : (group id).Point} (hP : StandsFor id point P) :
    (∀ scalar : List UInt8, scalar.length = (cryptoEcCurveGet id).scalarBytes →
      1 ≤ beValue scalar → beValue scalar < groupOrder (cryptoEcCurveGet id) →
      ∃ out, AffineHolds id out (beValue scalar • P) ∧
        cryptoEcScalarMultiplyCt (cryptoEcCurveGet id) point scalar = .ok out ∧
        cryptoEcScalarMultiplyVartime (cryptoEcCurveGet id) point scalar = .ok out) ∧
    (∀ scalar : List UInt8, scalar.length ≤ (cryptoEcCurveGet id).scalarBytes →
      ∃ out, AffineHolds id out (beValue scalar • P) ∧
        cryptoEcScalarMultiplyVartime (cryptoEcCurveGet id) point scalar = .ok out) ∧
    ∀ a b : CryptoEcAffinePoint, ∀ Q : (group id).Point,
      AffineHolds id a Q → AffineHolds id b Q → a = b := by
  obtain ⟨canonical, hcanonical, hsame⟩ := hP.canonical
  refine ⟨?_, ?_, fun a b Q => affineHolds_unique⟩
  · intro scalar hlength hpos hlt
    obtain ⟨hct, hvartime⟩ := hsame scalar
    obtain ⟨out, hout, hholds⟩ := cryptoEcScalarMultiplyCt_spec hcanonical hlength hpos hlt
    obtain ⟨other, hother, hotherHolds⟩ :=
      cryptoEcScalarMultiplyVartime_spec hcanonical hlength.le
    obtain rfl : out = other := affineHolds_unique hholds hotherHolds
    exact ⟨out, hholds, hct.trans hout, hvartime.trans hother⟩
  · intro scalar hlength
    obtain ⟨out, hout, hholds⟩ := cryptoEcScalarMultiplyVartime_spec hcanonical hlength
    exact ⟨out, hholds, (hsame scalar).2.trans hout⟩

theorem scalarMultiply_correct_generator :
    (∀ scalar : List UInt8, scalar.length = cryptoEcP256.scalarBytes →
      1 ≤ beValue scalar → beValue scalar < groupOrder cryptoEcP256 →
      ∃ out, AffineHolds .p256 out (beValue scalar • generator .p256) ∧
        cryptoEcScalarMultiplyCt cryptoEcP256 (cryptoEcAffineGenerator cryptoEcP256) scalar =
          .ok out ∧
        cryptoEcScalarMultiplyVartime cryptoEcP256 (cryptoEcAffineGenerator cryptoEcP256) scalar =
          .ok out) ∧
    (∀ scalar : List UInt8, scalar.length ≤ cryptoEcP256.scalarBytes →
      ∃ out, AffineHolds .p256 out (beValue scalar • generator .p256) ∧
        cryptoEcScalarMultiplyVartime cryptoEcP256 (cryptoEcAffineGenerator cryptoEcP256) scalar =
          .ok out) ∧
    ∀ a b : CryptoEcAffinePoint, ∀ Q : (group .p256).Point,
      AffineHolds .p256 a Q → AffineHolds .p256 b Q → a = b :=
  scalarMultiply_correct .p256 (Or.inl (generator_holds .p256))

end Multiples

end LiberaCrypt.EcScalarVartime
