import LiberaCrypt.EcGroup

namespace LiberaCrypt.EcEncoding

open LiberaCrypt.Outcome LiberaCrypt.BigEndian LiberaCrypt.Endian LiberaCrypt.EcCurves
open LiberaCrypt.EcField LiberaCrypt.EcGroup LiberaCrypt.EcMontgomery LiberaCrypt.EcPoint
open LiberaCrypt.ShortWeierstrass WeierstrassCurve.Affine

section Operations

variable (curve : CryptoEcCurve)

def cryptoEcPointEncodingSize (point : CryptoEcAffinePoint) (compressed : Bool) : Nat :=
  if point.infinity ≠ 0 then 1 else 1 + curve.fieldBytes * (if compressed then 1 else 2)

/-- The status or the bytes, and what is left in `output_length`. -/
def cryptoEcPointEncode (point : CryptoEcAffinePoint) (compressed : Bool) (outputLength : Nat) :
    Except LiberaCError (List UInt8) × Nat :=
  if cryptoEcAffineIsOnCurve curve point = false then (.error .invalidArgument, outputLength)
  else
    let required := cryptoEcPointEncodingSize curve point compressed
    if outputLength < required then (.error .bufferTooSmall, required)
    else if point.infinity ≠ 0 then (.ok [0], required)
    else if compressed then
      (.ok ((2 ||| cryptoEcFieldLsb curve point.y).toUInt8 :: cryptoEcFieldToBytes curve point.x),
        required)
    else
      (.ok (4 :: (cryptoEcFieldToBytes curve point.x ++ cryptoEcFieldToBytes curve point.y)),
        required)

/-- The root of the right side whose parity is that of the first byte. -/
def decompress (x : List UInt32) (first : UInt8) : Except LiberaCError CryptoEcAffinePoint :=
  let root := cryptoEcFieldSquareRootFixed curve (curveRight curve x)
  if root.1 = false then .error .invalidArgument
  else
    let negatedY := cryptoEcFieldNegate curve root.2
    let parityMask := (0 : UInt32) - (cryptoEcFieldLsb curve root.2 ^^^ (first &&& 1).toUInt32)
    .ok ⟨x, cryptoEcFieldSelect root.2 negatedY parityMask, 0⟩

/-- The point that the bytes of a form give, before the check that it is on the curve. -/
def decodeCandidate (input : List UInt8) : Except LiberaCError CryptoEcAffinePoint :=
  let first := input.headD 0
  if first = 4 then
    if input.length ≠ 1 + 2 * curve.fieldBytes then .error .invalidArgument
    else do
      let x ← cryptoEcFieldFromBytes curve ((input.drop 1).take curve.fieldBytes)
      let y ← cryptoEcFieldFromBytes curve (input.drop (1 + curve.fieldBytes))
      pure ⟨x, y, 0⟩
  else if first = 2 ∨ first = 3 then
    if input.length ≠ 1 + curve.fieldBytes then .error .invalidArgument
    else do
      let x ← cryptoEcFieldFromBytes curve (input.drop 1)
      decompress curve x first
  else .error .invalidArgument

def cryptoEcPointDecode (input : List UInt8) (allowInfinity : Bool) :
    Except LiberaCError CryptoEcAffinePoint :=
  if input.length = 0 then .error .invalidArgument
  else if input.headD 0 = 0 then
    if allowInfinity = false ∨ input.length ≠ 1 then .error .invalidArgument
    else .ok (cryptoEcAffineSetInfinity curve)
  else do
    let candidate ← decodeCandidate curve input
    if cryptoEcAffineIsOnCurve curve candidate = false then .error .invalidArgument
    else pure candidate

end Operations

variable {id : CryptoEcCurveId}

def coordinate (id : CryptoEcCurveId) (x : BaseField id) : List UInt8 :=
  bigEndian (cryptoEcCurveGet id).fieldBytes x.val

def encoding (id : CryptoEcCurveId) (compressed : Bool) : (group id).Point → List UInt8
  | .zero => [0]
  | .some x y _ =>
    if compressed then UInt8.ofNat (2 + y.val % 2) :: coordinate id x
    else 4 :: (coordinate id x ++ coordinate id y)

theorem coordinate_length (x : BaseField id) :
    (coordinate id x).length = (cryptoEcCurveGet id).fieldBytes := bigEndian_length _ _

theorem encodingSize_eq {point : CryptoEcAffinePoint} {P : (group id).Point}
    (h : AffineHolds id point P) (compressed : Bool) :
    cryptoEcPointEncodingSize (cryptoEcCurveGet id) point compressed =
      (encoding id compressed P).length := by
  cases h with
  | infinity => rfl
  | affine hP hx hy =>
    unfold cryptoEcPointEncodingSize encoding
    cases compressed with
    | true => simp [coordinate_length, Nat.add_comm]
    | false => simp [coordinate_length]; omega

theorem lsb_word {w : List UInt32} {y : BaseField id} (h : Holds id w y) :
    cryptoEcFieldLsb (cryptoEcCurveGet id) w = UInt32.ofNat (y.val % 2) := by
  have hbit := Nat.mod_lt y.val Nat.two_pos
  apply UInt32.toNat_inj.mp
  rw [lsb_eq (fieldModulus_sound id) h, UInt32.toNat_ofNat',
    Nat.mod_eq_of_lt (show y.val % 2 < 2 ^ 32 by omega)]

theorem form_byte (bit : Nat) (h : bit < 2) :
    ((2 : UInt32) ||| UInt32.ofNat bit).toUInt8 = UInt8.ofNat (2 + bit) := by
  interval_cases bit <;> rfl

theorem cryptoEcPointEncode_eq {point : CryptoEcAffinePoint} {P : (group id).Point}
    (h : AffineHolds id point P) (compressed : Bool) {outputLength : Nat}
    (hroom : (encoding id compressed P).length ≤ outputLength) :
    cryptoEcPointEncode (cryptoEcCurveGet id) point compressed outputLength =
      (.ok (encoding id compressed P), (encoding id compressed P).length) := by
  have hsound := fieldModulus_sound id
  have hsize := encodingSize_eq h compressed
  have hon := h.isOnCurve
  unfold cryptoEcPointEncode
  rw [hon, if_neg (by decide)]
  dsimp only
  rw [hsize, if_neg (not_lt.mpr hroom)]
  cases h with
  | infinity => rfl
  | affine hP hx hy =>
    rename_i y
    have hbyte := form_byte (y.val % 2) (Nat.mod_lt _ Nat.two_pos)
    dsimp only
    rw [if_neg (not_not.mpr rfl), toBytes_eq hsound hx, toBytes_eq hsound hy, lsb_word hy, hbyte]
    cases compressed <;> rfl

theorem root_unique (hp : (fieldPrime (cryptoEcCurveGet id)).Prime) {y z : BaseField id}
    (hsquare : z * z = y * y) (hy : y ≠ 0) (hparity : z.val % 2 = y.val % 2) : z = y := by
  have hfact := Fact.mk hp
  rcases mul_self_eq_mul_self_iff.mp hsquare with heq | hneg
  · exact heq
  · have hodd := (fieldSizes id).residue
    have hval := ZMod.neg_val y
    have hlt := ZMod.val_lt y
    rw [if_neg hy] at hval
    rw [hneg, hval] at hparity
    omega

theorem neg_parity (hp : (fieldPrime (cryptoEcCurveGet id)).Prime) {y : BaseField id} (hy : y ≠ 0) :
    (-y).val % 2 = 1 - y.val % 2 := by
  have hfact := Fact.mk hp
  have hodd := (fieldSizes id).residue
  have hval := ZMod.neg_val y
  have hlt := ZMod.val_lt y
  rw [if_neg hy] at hval
  omega

theorem parityMask_eq {w : List UInt32} {r : BaseField id} (h : Holds id w r) {first : UInt8}
    (hfirst : first = 2 ∨ first = 3) :
    (0 : UInt32) - (cryptoEcFieldLsb (cryptoEcCurveGet id) w ^^^ (first &&& 1).toUInt32) =
      if r.val % 2 ≠ first.toNat % 2 then (0 : UInt32) - 1 else 0 := by
  rw [lsb_word h]
  rcases hfirst with rfl | rfl <;> rcases Nat.mod_two_eq_zero_or_one r.val with h0 | h0 <;>
    rw [h0] <;> rfl

/-- The root with the parity that is asked for, if there is any root. -/
theorem decompress_spec (hp : (fieldPrime (cryptoEcCurveGet id)).Prime) {w : List UInt32}
    {x : BaseField id} (hx : Holds id w x) {first : UInt8} (hfirst : first = 2 ∨ first = 3) :
    (∃ wy y, decompress (cryptoEcCurveGet id) w first = .ok ⟨w, wy, 0⟩ ∧ Holds id wy y ∧
      (group id).Equation x y ∧ y.val % 2 = first.toNat % 2) ∨
    (decompress (cryptoEcCurveGet id) w first = .error .invalidArgument ∧
      ∀ y, ¬ (group id).Equation x y) := by
  have hfact := Fact.mk hp
  have hsound := fieldModulus_sound id
  obtain ⟨hvalid, r, hr, hroot⟩ := squareRootFixed_spec (fieldSizes id) hsound (curveRight_holds hx)
  unfold decompress
  dsimp only
  generalize cryptoEcFieldSquareRootFixed (cryptoEcCurveGet id)
    (curveRight (cryptoEcCurveGet id) w) = root at *
  by_cases hsquare : IsSquare (x * x * x - (x + x + x) + ((domain id).b : BaseField id))
  · have hon : (group id).Equation x r := equation_iff_cubic.mpr (hroot hsquare)
    have hne := y_ne_zero hp hon
    have hselect := select_holds hr (negate_holds hsound hr) (r.val % 2 ≠ first.toNat % 2)
    rw [hvalid.mpr hsquare, if_neg (by decide), parityMask_eq hr hfirst]
    refine Or.inl ⟨_, _, rfl, hselect, ?_, ?_⟩
    · split_ifs
      · rw [equation_iff_cubic, neg_mul_neg]
        exact equation_iff_cubic.mp hon
      · exact hon
    · split_ifs with hparity
      · rw [neg_parity hp hne]
        omega
      · exact not_not.mp hparity
  · have hfalse : root.1 = false := by
      cases hcase : root.1 with
      | false => rfl
      | true => exact absurd (hvalid.mp hcase) hsquare
    rw [hfalse, if_pos rfl]
    exact Or.inr ⟨rfl, fun y hy => hsquare ⟨y, (equation_iff_cubic.mp hy).symm⟩⟩

theorem coordinate_read {w : List UInt32} {x : BaseField id} (hx : Holds id w x) :
    cryptoEcFieldFromBytes (cryptoEcCurveGet id) (coordinate id x) = .ok w := by
  have hsound := fieldModulus_sound id
  have hsizes := fieldSizes id
  have hne : NeZero (fieldPrime (cryptoEcCurveGet id)) := ⟨hsound.modulus_pos.ne'⟩
  have hlt := ZMod.val_lt x
  have hvalue : beValue (coordinate id x) = x.val := by
    rw [coordinate, beValue_bigEndian, Nat.mod_eq_of_lt (hlt.trans hsizes.bytes)]
  obtain ⟨v, hread, hv⟩ := fromBytes_ok hsizes hsound (coordinate_length x) (hvalue.trans_lt hlt)
  rw [hvalue, ZMod.natCast_zmod_val] at hv
  rw [hread, hv.unique hx]

theorem coordinate_of_read {input : List UInt8} {w : List UInt32}
    (h : cryptoEcFieldFromBytes (cryptoEcCurveGet id) input = .ok w) :
    ∃ x : BaseField id, Holds id w x ∧ input = coordinate id x := by
  have hsound := fieldModulus_sound id
  have hsizes := fieldSizes id
  by_cases hinput : input.length = (cryptoEcCurveGet id).fieldBytes ∧
      beValue input < fieldPrime (cryptoEcCurveGet id)
  · obtain ⟨hlength, hlt⟩ := hinput
    obtain ⟨v, hread, hv⟩ := fromBytes_ok hsizes hsound hlength hlt
    have hsame : v = w := Except.ok.inj (hread.symm.trans h)
    refine ⟨_, hsame ▸ hv, ?_⟩
    rw [coordinate, ZMod.val_natCast, Nat.mod_eq_of_lt hlt, ← hlength, bigEndian_beValue]
  · rw [fromBytes_error hsizes hsound hinput] at h
    cases h

theorem parity_byte (y : BaseField id) :
    (UInt8.ofNat (2 + y.val % 2) = 2 ∨ UInt8.ofNat (2 + y.val % 2) = 3) ∧
      (UInt8.ofNat (2 + y.val % 2)).toNat % 2 = y.val % 2 := by
  rcases Nat.mod_two_eq_zero_or_one y.val with h | h <;> rw [h] <;> decide

section Forms

variable {curve : CryptoEcCurve} {first : UInt8} {rest : List UInt8} {allowInfinity : Bool}

theorem decodeCandidate_four (hlength : rest.length = 2 * curve.fieldBytes) :
    decodeCandidate curve (4 :: rest) = (do
      let x ← cryptoEcFieldFromBytes curve (rest.take curve.fieldBytes)
      let y ← cryptoEcFieldFromBytes curve (rest.drop curve.fieldBytes)
      pure ⟨x, y, 0⟩) := by
  have htotal : (4 :: rest).length = 1 + 2 * curve.fieldBytes := by
    rw [List.length_cons, hlength, Nat.add_comm]
  unfold decodeCandidate
  dsimp only [List.headD_cons]
  rw [if_pos rfl, if_neg (not_not.mpr htotal), Nat.add_comm 1]
  rfl

theorem decodeCandidate_form (hfirst : first = 2 ∨ first = 3)
    (hlength : rest.length = curve.fieldBytes) :
    decodeCandidate curve (first :: rest) = (do
      let x ← cryptoEcFieldFromBytes curve rest
      decompress curve x first) := by
  have htotal : (first :: rest).length = 1 + curve.fieldBytes := by
    rw [List.length_cons, hlength, Nat.add_comm]
  have hfour : first ≠ 4 := by
    rcases hfirst with rfl | rfl <;> decide
  unfold decodeCandidate
  dsimp only [List.headD_cons]
  rw [if_neg hfour, if_pos hfirst, if_neg (not_not.mpr htotal)]
  rfl

/-- The forms that are not rejected by their first byte or their length. -/
theorem decodeCandidate_forms {point : CryptoEcAffinePoint}
    (h : decodeCandidate curve (first :: rest) = .ok point) :
    (first = 4 ∧ rest.length = 2 * curve.fieldBytes) ∨
      ((first = 2 ∨ first = 3) ∧ rest.length = curve.fieldBytes) := by
  unfold decodeCandidate at h
  dsimp only [List.headD_cons] at h
  rw [List.length_cons] at h
  by_cases hfour : first = 4
  · rw [if_pos hfour] at h
    by_cases hlength : rest.length + 1 = 1 + 2 * curve.fieldBytes
    · exact Or.inl ⟨hfour, by omega⟩
    · rw [if_pos hlength] at h
      cases h
  · rw [if_neg hfour] at h
    by_cases hfirst : first = 2 ∨ first = 3
    · rw [if_pos hfirst] at h
      by_cases hlength : rest.length + 1 = 1 + curve.fieldBytes
      · exact Or.inr ⟨hfirst, by omega⟩
      · rw [if_pos hlength] at h
        cases h
    · rw [if_neg hfirst] at h
      cases h

theorem cryptoEcPointDecode_cons (hfirst : first ≠ 0) :
    cryptoEcPointDecode curve (first :: rest) allowInfinity = (do
      let candidate ← decodeCandidate curve (first :: rest)
      if cryptoEcAffineIsOnCurve curve candidate = false then .error .invalidArgument
      else pure candidate) := by
  unfold cryptoEcPointDecode
  rw [if_neg (by simp), List.headD_cons, if_neg hfirst]

end Forms

theorem decode_of_candidate {first : UInt8} {rest : List UInt8} {allowInfinity : Bool}
    {point : CryptoEcAffinePoint} (hfirst : first ≠ 0)
    (hcandidate : decodeCandidate (cryptoEcCurveGet id) (first :: rest) = .ok point)
    (hon : cryptoEcAffineIsOnCurve (cryptoEcCurveGet id) point = true) :
    cryptoEcPointDecode (cryptoEcCurveGet id) (first :: rest) allowInfinity = .ok point := by
  rw [cryptoEcPointDecode_cons hfirst, hcandidate]
  simp only [bind, Except.bind, hon]
  rfl

theorem cryptoEcPointDecode_encoding (hp : (fieldPrime (cryptoEcCurveGet id)).Prime)
    {point : CryptoEcAffinePoint} {P : (group id).Point} (h : AffineHolds id point P)
    (compressed allowInfinity : Bool) (hallow : P = 0 → allowInfinity = true) :
    cryptoEcPointDecode (cryptoEcCurveGet id) (encoding id compressed P) allowInfinity =
      .ok point := by
  have hon := h.isOnCurve
  cases h with
  | infinity =>
    rw [hallow rfl]
    rfl
  | affine hP hx hy =>
    rename_i wx wy x y
    cases compressed with
    | false =>
      have hlength : (coordinate id x ++ coordinate id y).length =
          2 * (cryptoEcCurveGet id).fieldBytes := by
        rw [List.length_append, coordinate_length, coordinate_length, Nat.two_mul]
      refine decode_of_candidate (by decide) ?_ hon
      rw [decodeCandidate_four hlength, List.take_left' (coordinate_length x),
        List.drop_left' (coordinate_length x), coordinate_read hx, coordinate_read hy]
      rfl
    | true =>
      obtain ⟨hfirst, hparity⟩ := parity_byte y
      have hne : UInt8.ofNat (2 + y.val % 2) ≠ 0 := by
        rcases hfirst with h2 | h3
        · rw [h2]
          decide
        · rw [h3]
          decide
      refine decode_of_candidate hne ?_ hon
      rw [decodeCandidate_form hfirst (coordinate_length x), coordinate_read hx]
      change decompress _ wx _ = _
      obtain ⟨vy, z, hok, hz, hon', hsame⟩ | ⟨-, hnone⟩ := decompress_spec hp hx hfirst
      · have hroot : z = y := by
          refine root_unique hp ?_ (y_ne_zero hp hP.1) (hsame.trans hparity)
          exact (equation_iff_cubic.mp hon').trans (equation_iff_cubic.mp hP.1).symm
        subst hroot
        rw [hok, hz.unique hy]
      · exact absurd hP.1 (hnone y)

theorem cryptoEcPointDecode_accepts (hp : (fieldPrime (cryptoEcCurveGet id)).Prime)
    {input : List UInt8} {allowInfinity : Bool} {point : CryptoEcAffinePoint}
    (h : cryptoEcPointDecode (cryptoEcCurveGet id) input allowInfinity = .ok point) :
    ∃ P, AffineHolds id point P ∧ (P = 0 → allowInfinity = true) ∧
      input = encoding id (input.headD 0 = 2 ∨ input.headD 0 = 3) P := by
  cases input with
  | nil => cases h
  | cons first rest =>
    rw [List.headD_cons]
    by_cases hzero : first = 0
    · subst hzero
      unfold cryptoEcPointDecode at h
      rw [if_neg (by simp), List.headD_cons, if_pos rfl] at h
      split_ifs at h with hbad
      rw [not_or] at hbad
      cases h
      have hrest : rest = [] := by
        have hlength := not_not.mp hbad.2
        rw [List.length_cons] at hlength
        exact List.length_eq_zero_iff.mp (by omega)
      subst hrest
      refine ⟨0, AffineHolds.infinity, fun _ => ?_, rfl⟩
      simpa using hbad.1
    · rw [cryptoEcPointDecode_cons hzero] at h
      obtain ⟨candidate, hcandidate, hcheck⟩ := bind_eq_ok.mp h
      split_ifs at hcheck with hoff
      obtain rfl : candidate = point := Except.ok.inj hcheck
      have hon := Bool.eq_true_of_not_eq_false hoff
      obtain ⟨rfl, hlength⟩ | ⟨hfirst, hlength⟩ := decodeCandidate_forms hcandidate
      · rw [decodeCandidate_four hlength] at hcandidate
        obtain ⟨wx, hreadx, hrest⟩ := bind_eq_ok.mp hcandidate
        obtain ⟨wy, hready, hpoint⟩ := bind_eq_ok.mp hrest
        obtain rfl := Except.ok.inj hpoint
        obtain ⟨x, hx, hcx⟩ := coordinate_of_read hreadx
        obtain ⟨y, hy, hcy⟩ := coordinate_of_read hready
        have heq := (isOnCurve_iff hx hy).mp hon
        refine ⟨.some x y (nonsingular_of_equation hp heq), AffineHolds.affine _ hx hy,
          fun hinfinity => absurd hinfinity (Point.some_ne_zero _), ?_⟩
        rw [encoding, if_neg (by decide), ← hcx, ← hcy, List.take_append_drop]
      · rw [decodeCandidate_form hfirst hlength] at hcandidate
        obtain ⟨wx, hreadx, hrest⟩ := bind_eq_ok.mp hcandidate
        obtain ⟨x, hx, hcx⟩ := coordinate_of_read hreadx
        obtain ⟨wy, y, hok, hy, heq, hparity⟩ | ⟨herror, -⟩ := decompress_spec hp hx hfirst
        · rw [hok] at hrest
          obtain rfl := Except.ok.inj hrest
          refine ⟨.some x y (nonsingular_of_equation hp heq), AffineHolds.affine _ hx hy,
            fun hinfinity => absurd hinfinity (Point.some_ne_zero _), ?_⟩
          rw [encoding, if_pos (decide_eq_true hfirst), ← hcx, hparity]
          rcases hfirst with rfl | rfl <;> rfl
        · rw [herror] at hrest
          cases hrest

/-- Both forms are read back as they were written, and nothing else is read. -/
theorem point_codec (id : CryptoEcCurveId) (hp : (fieldPrime (cryptoEcCurveGet id)).Prime) :
    (∀ P : (group id).Point, ∃ point, AffineHolds id point P) ∧
    (∀ (P : (group id).Point) (point : CryptoEcAffinePoint), AffineHolds id point P →
      ∀ (compressed allowInfinity : Bool) (outputLength : Nat),
        cryptoEcPointEncodingSize (cryptoEcCurveGet id) point compressed ≤ outputLength →
        (P = 0 → allowInfinity = true) →
        ∃ bytes, cryptoEcPointEncode (cryptoEcCurveGet id) point compressed outputLength =
            (.ok bytes, bytes.length) ∧
          cryptoEcPointDecode (cryptoEcCurveGet id) bytes allowInfinity = .ok point) ∧
    (∀ (input : List UInt8) (allowInfinity : Bool) (point : CryptoEcAffinePoint),
      cryptoEcPointDecode (cryptoEcCurveGet id) input allowInfinity = .ok point →
      ∃ P : (group id).Point, AffineHolds id point P ∧
        (P = 0 → allowInfinity = true ∧ input = [0]) ∧
        ∀ outputLength, input.length ≤ outputLength →
          cryptoEcPointEncode (cryptoEcCurveGet id) point
            (input.headD 0 = 2 ∨ input.headD 0 = 3) outputLength = (.ok input, input.length)) := by
  refine ⟨exists_affineHolds, ?_, ?_⟩
  · intro P point h compressed allowInfinity outputLength hroom hallow
    rw [encodingSize_eq h] at hroom
    exact ⟨_, cryptoEcPointEncode_eq h compressed hroom,
      cryptoEcPointDecode_encoding hp h compressed allowInfinity hallow⟩
  · intro input allowInfinity point h
    obtain ⟨P, hP, hallow, hinput⟩ := cryptoEcPointDecode_accepts hp h
    refine ⟨P, hP, ?_, ?_⟩
    · rintro rfl
      exact ⟨hallow rfl, hinput⟩
    · intro outputLength hroom
      have hencode := @cryptoEcPointEncode_eq _ _ _ hP (input.headD 0 = 2 ∨ input.headD 0 = 3)
        outputLength (by rwa [← hinput])
      rwa [← hinput] at hencode

theorem point_codec_generator : ∃ bytes,
    cryptoEcPointEncode cryptoEcP521 (cryptoEcAffineGenerator cryptoEcP521) true 67 =
      (.ok bytes, bytes.length) ∧
    cryptoEcPointDecode cryptoEcP521 bytes false = .ok (cryptoEcAffineGenerator cryptoEcP521) :=
  (point_codec .p521 fieldPrime_p521).2.1 _ _ (generator_holds .p521) true false 67 (by decide)
    fun h => absurd h (Point.some_ne_zero _)

end LiberaCrypt.EcEncoding
