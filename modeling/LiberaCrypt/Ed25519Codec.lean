import LiberaCrypt.Ed25519Group

namespace LiberaCrypt.Ed25519Codec

open LiberaCrypt.Ed25519 LiberaCrypt.Ed25519Curve LiberaCrypt.Ed25519Group
open LiberaCrypt.ExtendedEdwards LiberaCrypt.Field25519 LiberaCrypt.Field25519Bytes
open LiberaCrypt.Field25519Product LiberaCrypt.Field25519Subtract LiberaCrypt.Field25519Values
open LiberaCrypt.Radix LiberaCrypt.TwistedEdwards LiberaCrypt.WordArithmetic

variable {m : Type → Type} [Monad m] [LawfulMonad m] {W : Words m}

section Roots

variable {a x : ZMod prime}

theorem pow_sub_two (x : ZMod prime) : x ^ (prime - 2) = x⁻¹ := by
  by_cases hx : x = 0
  · rw [hx, inv_zero]
    exact zero_pow (by decide)
  · have hone := ZMod.pow_card_sub_one_eq_one hx
    rw [show prime - 1 = prime - 2 + 1 by decide, pow_succ] at hone
    exact eq_inv_of_mul_eq_one_left hone

def root (a : ZMod prime) : ZMod prime :=
  if a ^ ((prime + 3) / 8) * a ^ ((prime + 3) / 8) = a then a ^ ((prime + 3) / 8)
  else a ^ ((prime + 3) / 8) * sqrtM1

/-- The candidate's square is the number times a fourth root of one, which is plus or minus one
where the number is a square. -/
theorem root_sq (h : IsSquare a) : root a * root a = a := by
  by_cases ha : a = 0
  · have hzero : (0 : ZMod prime) ^ ((prime + 3) / 8) = 0 := zero_pow (by decide)
    rw [ha, root, hzero, mul_zero, if_pos rfl, mul_zero]
  · have hsquare : a ^ ((prime + 3) / 8) * a ^ ((prime + 3) / 8) = a * a ^ (prime / 4) := by
      rw [← pow_add, ← pow_succ']
      congr 1
    have hquarter : a ^ (prime / 4) = 1 ∨ a ^ (prime / 4) = -1 := by
      rw [← mul_self_eq_one_iff, ← pow_add, show prime / 4 + prime / 4 = prime / 2 by decide]
      exact (ZMod.euler_criterion prime ha).mp h
    unfold root
    split_ifs with hfound
    · exact hfound
    · rcases hquarter with hone | hminus
      · rw [hone, mul_one] at hsquare
        exact absurd hsquare hfound
      · rw [hminus] at hsquare
        have hi := sqrtM1_sq
        linear_combination sqrtM1 ^ 2 * hsquare - a * hi

theorem decodeRoot_element (hW : Exact W) (a : ZMod prime) :
    decodeRoot W (element a) =
      pure (if root a * root a = a then some (element (root a)) else none) := by
  rw [decodeRoot, feSqrtCandidate_element hW, pure_bind, feSquare_element hW, pure_bind,
    feEqual_element hW, pure_bind, ed25519SqrtM1_eq, feMul_element hW, pure_bind,
    feSquare_element hW, pure_bind, feEqual_element hW, pure_bind]
  by_cases hfound : a ^ ((prime + 3) / 8) * a ^ ((prime + 3) / 8) = a
  · have hroot : root a = a ^ ((prime + 3) / 8) := if_pos hfound
    rw [hroot, if_pos (decide_eq_true hfound), if_pos hfound]
  · have hroot : root a = a ^ ((prime + 3) / 8) * sqrtM1 := if_neg hfound
    rw [hroot, if_neg (by simpa using hfound)]
    simp only [decide_eq_true_eq]

end Roots

section Signs

variable {x : ZMod prime}

theorem neg_parity (hx : x ≠ 0) : (-x).val % 2 = 1 - x.val % 2 := by
  have hlt := ZMod.val_lt x
  rw [ZMod.neg_val, if_neg hx]
  unfold prime at *
  omega

def signed (x : ZMod prime) (sign : Nat) : ZMod prime := if x.val % 2 ≠ sign then -x else x

theorem signed_parity {sign : Nat} (hsign : sign ≤ 1) (h : x = 0 → sign = 0) :
    (signed x sign).val % 2 = sign := by
  unfold signed
  split_ifs with hne
  · have hx : x ≠ 0 := by
      rintro rfl
      rw [h rfl] at hne
      exact hne (by rw [ZMod.val_zero])
    rw [neg_parity hx]
    omega
  · exact not_not.mp hne

theorem signed_mul_self (x : ZMod prime) (sign : Nat) : signed x sign * signed x sign = x * x := by
  unfold signed
  split_ifs
  · exact neg_mul_neg x x
  · rfl

theorem decodeSign_element (hW : Exact W) (x : ZMod prime) {sign : UInt32} :
    decodeSign W (element x) sign = pure (element (signed x sign.toNat)) := by
  have hsame : (UInt8.ofNat (x.val % 2)).toUInt32 ≠ sign ↔ x.val % 2 ≠ sign.toNat := by
    rw [ne_eq, ← UInt32.toNat_inj, UInt8.toNat_toUInt32, UInt8.toNat_ofNat',
      Nat.mod_eq_of_lt (a := x.val % 2) (by omega)]
  rw [decodeSign, feIsNegative_element hW, pure_bind, feNegate_element hW, signed]
  simp only [hsame]
  split_ifs <;> rfl

theorem eq_of_parity {x y : ZMod prime} (hsquare : x * x = y * y) (h : x.val % 2 = y.val % 2) :
    x = y := by
  rcases mul_self_eq_mul_self_iff.mp hsquare with heq | hneg
  · exact heq
  · by_cases hy : y = 0
    · rw [hneg, hy, neg_zero]
    · have hparity := neg_parity hy
      rw [← hneg] at hparity
      omega

end Signs

section Encode

/-- The encoding of a point: its `y`, and the sign of its `x` above. -/
def pointBytes (p : Point curveD) : List UInt8 :=
  (encoding p.y).set 31 ((encoding p.y).getD 31 0 |||
    ((UInt8.ofNat (p.x.val % 2)).toUInt32 <<< 7).toUInt8)

theorem pointBytes_length (p : Point curveD) : (pointBytes p).length = 32 := by
  rw [pointBytes, List.length_set, encoding_length]

theorem pointBytes_value (p : Point curveD) :
    bytesValue (pointBytes p) = p.y.val + 2 ^ 255 * (p.x.val % 2) := by
  have hlength := encoding_length p.y
  have hvalue := encoding_value p.y
  have hlt : p.y.val < 2 ^ 255 := (ZMod.val_lt p.y).trans (by decide)
  rw [pointBytes]
  rcases List.eq_nil_or_concat (encoding p.y) with hnil | ⟨low, top, heq⟩
  · rw [hnil] at hlength
    simp at hlength
  · rw [List.concat_eq_append] at heq
    rw [heq] at hlength hvalue ⊢
    have hlow : low.length = 31 := by simpa using hlength
    have hget : (low ++ [top]).getD 31 0 = top := by simp [hlow]
    have hset : ∀ b, (low ++ [top]).set 31 b = low ++ [b] := by simp [hlow]
    rw [bytesValue_append, bytesValue_singleton, hlow] at hvalue
    have htop : top.toNat < 2 ^ 7 := by omega
    have hor : ∀ b < 2, (top ||| ((UInt8.ofNat b).toUInt32 <<< 7).toUInt8).toNat =
        top.toNat + 128 * b := by
      intro b hb
      have hhigh : ((UInt8.ofNat b).toUInt32 <<< 7).toUInt8.toNat = 2 ^ 7 * b := by
        interval_cases b <;> rfl
      rw [UInt8.toNat_or, hhigh, Nat.or_comm, ← Nat.two_pow_add_eq_or_of_lt htop]
      ring
    rw [hget, hset, bytesValue_append, bytesValue_singleton, hlow,
      hor _ (Nat.mod_lt _ Nat.two_pos)]
    omega

theorem pointEncode_coordinates (hW : Exact W) {E : Extended (ZMod prime)} {p : Point curveD}
    (h : E.Represents p) : pointEncode W (coordinates E) = pure (pointBytes p) := by
  have hz := h.z_ne_zero
  have hx : E.x * E.z⁻¹ = p.x := by rw [h.x, mul_assoc, mul_inv_cancel₀ hz, mul_one]
  have hy : E.y * E.z⁻¹ = p.y := by rw [h.y, mul_assoc, mul_inv_cancel₀ hz, mul_one]
  simp only [pointEncode, coordinates, feInvert_element hW, pow_sub_two, feMul_element hW, hx, hy,
    feToBytes_element hW, feIsNegative_element hW, pure_bind]
  rfl

end Encode

section Decode

/-- The square that an `x` has on the curve. -/
def xSquared (y : ZMod prime) : ZMod prime := (y * y - 1) * (curveD * (y * y) + 1)⁻¹

/-- The divisor is never zero, since minus one is a square and `d` is not. -/
theorem divisor_ne_zero (y : ZMod prime) : curveD * (y * y) + 1 ≠ 0 := by
  intro hzero
  have hy : y ≠ 0 := by
    rintro rfl
    simp at hzero
  have hi := sqrtM1_sq
  refine curveD_nonsquare ⟨sqrtM1 / y, ?_⟩
  field_simp
  linear_combination hzero - hi

theorem onCurve_iff {x y : ZMod prime} : OnCurve curveD x y ↔ x * x = xSquared y := by
  rw [xSquared, eq_mul_inv_iff_mul_eq₀ (divisor_ne_zero y), OnCurve]
  constructor
  · intro h
    linear_combination -h
  · intro h
    linear_combination -h

/-- The `x` that belongs to a `y` and a sign, where there is one. -/
def decodedX (y : ZMod prime) (sign : Nat) : Option (ZMod prime) :=
  if root (xSquared y) * root (xSquared y) = xSquared y ∧ ¬ (root (xSquared y) = 0 ∧ sign ≠ 0)
  then some (signed (root (xSquared y)) sign) else none

theorem decodeX_element (hW : Exact W) (y : ZMod prime) (sign : UInt32) :
    decodeX W (element y) sign = pure ((decodedX y sign.toNat).map element) := by
  have hsign : sign ≠ 0 ↔ sign.toNat ≠ 0 := by
    rw [ne_eq, ← UInt32.toNat_inj, UInt32.toNat_zero]
  rw [decodeX, feSquare_element hW, pure_bind, feOne_eq, feSub_element hW, pure_bind, ed25519D_eq,
    feMul_element hW, pure_bind, feAdd_element hW, pure_bind, feInvert_element hW, pure_bind,
    pow_sub_two, feMul_element hW, pure_bind]
  change decodeRoot W (element (xSquared y)) >>= _ = _
  rw [decodeRoot_element hW, pure_bind, decodedX]
  by_cases hroot : root (xSquared y) * root (xSquared y) = xSquared y
  · rw [if_pos hroot]
    dsimp only
    rw [feIsZero_element hW, pure_bind, decodeSign_element hW]
    simp only [decide_eq_true_eq, hsign, hroot, true_and]
    by_cases hzero : root (xSquared y) = 0 ∧ sign.toNat ≠ 0
    · rw [if_pos hzero, if_neg (not_not.mpr hzero)]
      rfl
    · rw [if_neg hzero, if_pos hzero, map_pure]
      rfl
  · rw [if_neg hroot, if_neg fun h => hroot h.1]
    rfl

/-- An `x` is found exactly where a point with that `y` exists, and its sign can be had. -/
theorem decodedX_eq_some {x y : ZMod prime} {sign : Nat} (hsign : sign ≤ 1) :
    decodedX y sign = some x ↔ OnCurve curveD x y ∧ x.val % 2 = sign := by
  rw [onCurve_iff, decodedX]
  constructor
  · intro h
    split_ifs at h with hroot
    rw [Option.some.injEq] at h
    rw [← h, signed_mul_self]
    exact ⟨hroot.1, signed_parity hsign fun hzero => of_not_not fun hne => hroot.2 ⟨hzero, hne⟩⟩
  · rintro ⟨hsquare, hparity⟩
    have hroot := root_sq ⟨x, hsquare.symm⟩
    have hzero : root (xSquared y) = 0 → sign = 0 := by
      intro h
      rw [h, mul_zero, ← hsquare, eq_comm, mul_self_eq_zero] at hroot
      rw [← hparity, hroot, ZMod.val_zero]
    rw [if_pos ⟨hroot, fun h => h.2 (hzero h.1)⟩, Option.some.injEq]
    apply eq_of_parity
    · rw [signed_mul_self, hroot, hsquare]
    · rw [signed_parity hsign hzero, hparity]

theorem signBit_toNat {input : List UInt8} (hlength : input.length = 32) :
    (input.getD 31 0 >>> 7).toUInt32.toNat = bytesValue input / 2 ^ 255 := by
  have hlt := bytesValue_lt input
  have hbyte := getD_toNat input 31
  rw [hlength] at hlt
  rw [UInt8.toNat_toUInt32, UInt8.toNat_shiftRight, Nat.shiftRight_eq_div_pow, hbyte]
  change bytesValue input / 256 ^ 31 % 256 / 2 ^ 7 = _
  omega

def decodedPoint (x y : ZMod prime) : Extended (ZMod prime) := ⟨x, y, 1, x * y⟩

theorem decodedPoint_represents (p : Point curveD) : (decodedPoint p.x p.y).Represents p :=
  ⟨one_ne_zero, (mul_one _).symm, (mul_one _).symm, (mul_one _).symm⟩

theorem pointDecode_of_point (hW : Exact W) {input : List UInt8} (hlength : input.length = 32)
    {p : Point curveD} (hvalue : bytesValue input = p.y.val + 2 ^ 255 * (p.x.val % 2)) :
    pointDecode W input = pure (coordinates (decodedPoint p.x p.y), true) := by
  have hy : p.y.val < prime := ZMod.val_lt p.y
  have hlt : p.y.val < 2 ^ 255 := hy.trans (by decide)
  have hlow : bytesValue input % 2 ^ 255 = p.y.val := by omega
  have hhigh : bytesValue input / 2 ^ 255 = p.x.val % 2 := by omega
  have hx : decodedX p.y (bytesValue input / 2 ^ 255) = some p.x := by
    rw [hhigh]
    exact (decodedX_eq_some (by omega)).mpr ⟨p.onCurve, rfl⟩
  rw [pointDecode, feFromCanonicalBytes_eq hW hlength, pure_bind, hlow, if_pos hy,
    ZMod.natCast_zmod_val]
  dsimp only
  rw [if_pos rfl, decodeX_element hW, pure_bind, signBit_toNat hlength, hx]
  dsimp only [Option.map_some]
  rw [feMul_element hW, pure_bind, feOne_eq]
  rfl

/-- All other bytes are rejected, with the identity as the result. -/
theorem pointDecode_reject (hW : Exact W) {input : List UInt8} (hlength : input.length = 32)
    (h : ∀ p : Point curveD, bytesValue input ≠ p.y.val + 2 ^ 255 * (p.x.val % 2)) :
    pointDecode W input = pure (pointIdentity, false) := by
  have hlt := bytesValue_lt input
  rw [hlength] at hlt
  rw [pointDecode, feFromCanonicalBytes_eq hW hlength, pure_bind]
  by_cases hy : bytesValue input % 2 ^ 255 < prime
  · have hx : decodedX (bytesValue input % 2 ^ 255 : Nat) (bytesValue input / 2 ^ 255) = none := by
      rw [Option.eq_none_iff_forall_ne_some]
      intro x hx
      obtain ⟨hcurve, hparity⟩ := (decodedX_eq_some (by omega)).mp hx
      apply h ⟨x, _, hcurve⟩
      rw [hparity, ZMod.val_natCast, Nat.mod_eq_of_lt hy, Nat.mod_add_div]
    rw [if_pos hy]
    dsimp only
    rw [if_pos rfl, decodeX_element hW, pure_bind, signBit_toNat hlength, hx]
    rfl
  · rw [if_neg hy]
    rfl

end Decode

section Codec

theorem encode_curvePoint (hW : Exact W) (P : CurvePoint) :
    pointEncode W P.point = pure (pointBytes P.affine) := by
  rw [P.point_eq, pointEncode_coordinates hW P.valid.represents]
  rfl

theorem decode_curvePoint (hW : Exact W) {input : List UInt8} (hlength : input.length = 32)
    {p : Point curveD} (hvalue : bytesValue input = p.y.val + 2 ^ 255 * (p.x.val % 2)) :
    ∃ R : CurvePoint, pointDecode W input = pure (R.point, true) ∧ R.affine = p := by
  obtain ⟨R, hR, haffine⟩ := curvePoint_of_represents (decodedPoint_represents p)
  exact ⟨R, by rw [← hR, pointDecode_of_point hW hlength hvalue], haffine⟩

/-- The bytes are those of a point exactly if the `y` is below the prime, a point has it, and the
sign can be had. -/
theorem exists_point_iff {input : List UInt8} (hlength : input.length = 32) :
    (∃ p : Point curveD, bytesValue input = p.y.val + 2 ^ 255 * (p.x.val % 2)) ↔
      bytesValue input % 2 ^ 255 < prime ∧ ∃ p : Point curveD,
        p.y = (bytesValue input % 2 ^ 255 : Nat) ∧ ¬ (p.x = 0 ∧ input.getD 31 0 >>> 7 ≠ 0) := by
  have hbits := bytesValue_lt input
  have hsign := signBit_toNat hlength
  have hbit : input.getD 31 0 >>> 7 ≠ 0 ↔ bytesValue input / 2 ^ 255 ≠ 0 := by
    rw [← hsign, UInt8.toNat_toUInt32, ne_eq, ← UInt8.toNat_inj, UInt8.toNat_zero]
  rw [hlength] at hbits
  rw [hbit]
  constructor
  · rintro ⟨p, hvalue⟩
    have hy : p.y.val < prime := ZMod.val_lt p.y
    have hlt : p.y.val < 2 ^ 255 := hy.trans (by decide)
    have hlow : bytesValue input % 2 ^ 255 = p.y.val := by omega
    have hhigh : bytesValue input / 2 ^ 255 = p.x.val % 2 := by omega
    rw [hlow, hhigh]
    refine ⟨hy, p, (ZMod.natCast_zmod_val p.y).symm, ?_⟩
    rintro ⟨hzero, hodd⟩
    rw [hzero, ZMod.val_zero] at hodd
    exact hodd rfl
  · rintro ⟨hy, p, hpy, hallowed⟩
    have hyval : p.y.val = bytesValue input % 2 ^ 255 := by
      rw [hpy, ZMod.val_natCast, Nat.mod_eq_of_lt hy]
    by_cases hparity : p.x.val % 2 = bytesValue input / 2 ^ 255
    · refine ⟨p, ?_⟩
      rw [hyval, hparity, Nat.mod_add_div]
    · -- the other root has the other sign
      have hx : p.x ≠ 0 := by
        intro hzero
        apply hallowed
        refine ⟨hzero, fun h => hparity ?_⟩
        rw [hzero, ZMod.val_zero, h]
      have hneg := neg_parity hx
      refine ⟨-p, ?_⟩
      have hsame : (-p.x).val % 2 = bytesValue input / 2 ^ 255 := by omega
      rw [Point.neg_x, Point.neg_y, hyval, hsame, Nat.mod_add_div]

/-- Every point is what its encoding decodes to; a string is accepted exactly if its `y` is below
the prime, a point with that `y` exists, and the sign of an `x` that is zero is not set; and every
accepted string is the encoding of the point it decodes to. -/
theorem pointCodec :
    (∀ P : CurvePoint, ∃ bytes, pointEncode machine P.point = bytes ∧ bytes.length = 32 ∧
      ∃ R : CurvePoint, pointDecode machine bytes = (R.point, true) ∧ R.affine = P.affine) ∧
    ∀ input : List UInt8, input.length = 32 →
      ((pointDecode machine input).2 = true ↔ bytesValue input % 2 ^ 255 < prime ∧
        ∃ p : Point curveD, p.y = (bytesValue input % 2 ^ 255 : Nat) ∧
          ¬ (p.x = 0 ∧ input.getD 31 0 >>> 7 ≠ 0)) ∧
      ((pointDecode machine input).2 = true → ∃ R : CurvePoint,
        pointDecode machine input = (R.point, true) ∧ pointEncode machine R.point = input) ∧
      ((pointDecode machine input).2 = false →
        pointDecode machine input = (pointIdentity, false)) := by
  constructor
  · intro P
    refine ⟨pointBytes P.affine, encode_curvePoint machine_exact P, pointBytes_length _, ?_⟩
    exact decode_curvePoint machine_exact (pointBytes_length _) (pointBytes_value _)
  · intro input hlength
    rw [← exists_point_iff hlength]
    by_cases h : ∃ p : Point curveD, bytesValue input = p.y.val + 2 ^ 255 * (p.x.val % 2)
    · obtain ⟨p, hvalue⟩ := h
      obtain ⟨R, hdecode, haffine⟩ := decode_curvePoint machine_exact hlength hvalue
      have hencode : pointEncode machine R.point = input := by
        rw [encode_curvePoint machine_exact R, haffine]
        apply bytesValue_injective ((pointBytes_length p).trans hlength.symm)
        rw [pointBytes_value, hvalue]
      have hflag : (pointDecode machine input).2 = true := congrArg Prod.snd hdecode
      exact ⟨⟨fun _ => ⟨p, hvalue⟩, fun _ => hflag⟩, fun _ => ⟨R, hdecode, hencode⟩,
        fun hfalse => absurd (hflag.symm.trans hfalse) (by decide)⟩
    · have hreject := pointDecode_reject machine_exact hlength (not_exists.mp h)
      have hflag : (pointDecode machine input).2 = false := congrArg Prod.snd hreject
      have hnot : ¬ (pointDecode machine input).2 = true := by
        rw [hflag]
        exact Bool.false_ne_true
      exact ⟨⟨fun ht => absurd ht hnot, fun hp => absurd hp h⟩, fun ht => absurd ht hnot,
        fun _ => hreject⟩

end Codec

end LiberaCrypt.Ed25519Codec
