import LiberaCrypt.EcdsaNonce
import LiberaCrypt.Rfc6979

namespace LiberaCrypt.EcdsaNonceCorrect

open LiberaCrypt.Outcome LiberaCrypt.Def LiberaCrypt.BigEndian LiberaCrypt.CheckedWords
open LiberaCrypt.Endian LiberaCrypt.FillLoop LiberaCrypt.Radix LiberaCrypt.EcCurves
open LiberaCrypt.EcMontgomery LiberaCrypt.EcScalar LiberaCrypt.EcdsaNonce LiberaCrypt.Rfc6979

section Bytes

variable {bytes : List UInt8} {shift bits n : Nat}

theorem beValue_leading (k : Nat) : beValue (List.replicate k 0 ++ bytes) = beValue bytes := by
  induction k with
  | zero => rfl
  | succ k ih =>
    rw [List.replicate_succ, List.cons_append, beValue_cons, ih, UInt8.toNat_zero, Nat.mul_zero,
      Nat.zero_add]

theorem shiftBytes_spec (hpos : 0 < shift) (hlt : shift < 8) {carry : UInt8}
    (hcarry : carry.toNat < 2 ^ shift) :
    (shiftBytes shift carry bytes).length = bytes.length ∧
      beValue (shiftBytes shift carry bytes) =
        (256 ^ bytes.length * carry.toNat + beValue bytes) / 2 ^ shift := by
  have hpow : 2 ^ shift * 2 ^ (8 - shift) = 256 := by
    rw [← pow_add, Nat.add_sub_cancel' hlt.le]
    rfl
  have hsmall : 2 ^ shift < 256 := Nat.pow_lt_pow_right (by decide) hlt
  induction bytes generalizing carry with
  | nil =>
    rw [shiftBytes, beValue_nil, List.length_nil, pow_zero, Nat.one_mul, Nat.add_zero,
      Nat.div_eq_of_lt hcarry]
    exact ⟨rfl, rfl⟩
  | cons x bytes ih =>
    have hx := x.toNat_lt
    have hmask : (x &&& ((1 : UInt32) <<< UInt32.ofNat shift - 1).toUInt8).toNat =
        x.toNat % 2 ^ shift := by
      have hbits : ((1 : UInt32) <<< UInt32.ofNat shift - 1).toUInt8.toNat = 2 ^ shift - 1 := by
        interval_cases shift <;> rfl
      rw [UInt8.toNat_and, hbits, Nat.and_two_pow_sub_one_eq_mod]
    obtain ⟨hlength, hvalue⟩ := @ih (x &&& ((1 : UInt32) <<< UInt32.ofNat shift - 1).toUInt8)
      (by rw [hmask]; exact Nat.mod_lt _ (Nat.two_pow_pos shift))
    have hbyte : ((carry.toUInt32 <<< UInt32.ofNat (8 - shift)) |||
        (x.toUInt32 >>> UInt32.ofNat shift)).toUInt8.toNat =
        carry.toNat * 2 ^ (8 - shift) + x.toNat / 2 ^ shift := by
      have hlow : (x.toUInt32 >>> UInt32.ofNat shift).toNat = x.toNat / 2 ^ shift := by
        rw [toNat_shift32 _ _ (by omega), UInt8.toNat_toUInt32]
      have hlowlt : x.toNat / 2 ^ shift < 2 ^ (8 - shift) :=
        Nat.div_lt_of_lt_mul (hx.trans_eq hpow.symm)
      have hjoin := LittleEndian.toNat_join32 (x.toUInt32 >>> UInt32.ofNat shift) carry.toUInt32
        (k := 8 - shift) (by omega) (by rw [hlow]; exact hlowlt)
      have hmul : 2 ^ (8 - shift) * (carry.toNat + 1) ≤ 2 ^ (8 - shift) * 2 ^ shift :=
        Nat.mul_le_mul_left _ hcarry
      rw [Nat.mul_succ, Nat.mul_comm _ (2 ^ shift), hpow] at hmul
      rw [UInt32.toNat_toUInt8, UInt32.or_comm, hjoin, hlow, UInt8.toNat_toUInt32,
        Nat.mod_eq_of_lt (by omega), Nat.mod_eq_of_lt (by omega), Nat.add_comm, Nat.mul_comm]
    rw [shiftBytes]
    refine ⟨by rw [List.length_cons, List.length_cons, hlength], ?_⟩
    have hsplit := Nat.div_add_mod x.toNat (2 ^ shift)
    have hsum : 256 ^ (bytes.length + 1) * carry.toNat +
        (256 ^ bytes.length * x.toNat + beValue bytes) =
        2 ^ shift * (256 ^ bytes.length * (carry.toNat * 2 ^ (8 - shift) + x.toNat / 2 ^ shift)) +
          (256 ^ bytes.length * (x.toNat % 2 ^ shift) + beValue bytes) := by
      rw [pow_succ]
      linear_combination 256 ^ bytes.length * hsplit.symm +
        256 ^ bytes.length * carry.toNat * hpow.symm
    rw [beValue_cons, hbyte, hvalue, hmask, hlength, beValue_cons, List.length_cons, hsum,
      Nat.mul_add_div (Nat.two_pow_pos shift)]

theorem leftmost_take (hn : n ≤ bytes.length) (hbits : bits ≤ 8 * n) :
    beValue bytes / 2 ^ (8 * bytes.length - bits) =
      beValue (bytes.take n) / 2 ^ (8 * n - bits) := by
  have hsplit : beValue bytes =
      256 ^ (bytes.length - n) * beValue (bytes.take n) + beValue (bytes.drop n) := by
    conv_lhs => rw [← List.take_append_drop n bytes]
    rw [beValue, List.reverse_append, bytesValue_append, List.length_reverse, List.length_drop,
      Nat.add_comm]
    rfl
  have hlt := beValue_lt (bytes.drop n)
  have hpow : 2 ^ (8 * bytes.length - bits) = 256 ^ (bytes.length - n) * 2 ^ (8 * n - bits) := by
    rw [show 256 = 2 ^ 8 from rfl, ← pow_mul, ← pow_add]
    congr 1
    omega
  rw [List.length_drop] at hlt
  rw [hsplit, hpow, ← Nat.div_div_eq_div_mul, Nat.mul_add_div (Nat.pow_pos (by decide)),
    Nat.div_eq_of_lt hlt, Nat.add_zero]

theorem ecdsaShiftRight_spec (hlt : shift < 8) :
    (ecdsaShiftRightBigEndian bytes shift).length = bytes.length ∧
      beValue (ecdsaShiftRightBigEndian bytes shift) = beValue bytes / 2 ^ shift := by
  unfold ecdsaShiftRightBigEndian
  by_cases hzero : shift = 0
  · rw [if_pos hzero, hzero, pow_zero, Nat.div_one]
    exact ⟨rfl, rfl⟩
  · have hspec := @shiftBytes_spec bytes _ (Nat.pos_of_ne_zero hzero) hlt 0
      (Nat.two_pow_pos shift)
    rw [if_neg hzero]
    rwa [UInt8.toNat_zero, Nat.mul_zero, Nat.zero_add] at hspec

end Bytes

section Batch

variable {id : CryptoEcCurveId} {digestLength : Nat} {mac : List UInt8 → List UInt8 → List UInt8}
  {ecdsaHmac : List UInt8 → List UInt8 → Except LiberaCError (List UInt8)}

/-- The parameters of the standard for a curve and a keyed hash. -/
def parameters (mac : List UInt8 → List UInt8 → List UInt8) (digestLength : Nat)
    (id : CryptoEcCurveId) : Parameters :=
  ⟨mac, digestLength, groupOrder (cryptoEcCurveGet id)⟩

theorem parameters_rlen : rlen (parameters mac digestLength id) = (cryptoEcCurveGet id).scalarBytes := by
  rw [rlen, parameters, (sizes id).size, (sizes id).bytes]

theorem excess_lt : (cryptoEcCurveGet id).scalarBytes * 8 - (cryptoEcCurveGet id).scalarBits < 8 := by
  have hbytes := (sizes id).bytes
  omega

/-- Taking the leftmost bits of bytes that are long enough, as the code does. -/
theorem leftmost_spec {bytes : List UInt8}
    (hlength : (cryptoEcCurveGet id).scalarBytes ≤ bytes.length) :
    (ecdsaShiftRightBigEndian (bytes.take (cryptoEcCurveGet id).scalarBytes)
        ((cryptoEcCurveGet id).scalarBytes * 8 - (cryptoEcCurveGet id).scalarBits)).length =
        (cryptoEcCurveGet id).scalarBytes ∧
      beValue (ecdsaShiftRightBigEndian (bytes.take (cryptoEcCurveGet id).scalarBytes)
        ((cryptoEcCurveGet id).scalarBytes * 8 - (cryptoEcCurveGet id).scalarBits)) =
        bits2int (parameters mac digestLength id) bytes := by
  have hsizes := sizes id
  have hbytes := hsizes.bytes
  obtain ⟨hlen, hvalue⟩ := @ecdsaShiftRight_spec
    (bytes.take (cryptoEcCurveGet id).scalarBytes) _ (@excess_lt id)
  refine ⟨?_, ?_⟩
  · rw [hlen, List.length_take, Nat.min_eq_left hlength]
  · rw [hvalue, bits2int, parameters, hsizes.size, leftmost_take hlength (by omega),
      Nat.mul_comm 8]

theorem bits2int_lt (bytes : List UInt8) : bits2int (parameters mac digestLength id) bytes <
    2 ^ (cryptoEcCurveGet id).scalarBits := by
  have hlt := beValue_lt bytes
  rw [show 256 = 2 ^ 8 from rfl, ← pow_mul] at hlt
  rw [bits2int, parameters, (sizes id).size]
  apply Nat.div_lt_of_lt_mul
  rw [← pow_add]
  exact hlt.trans_le (Nat.pow_le_pow_right Nat.two_pos (by omega))

theorem encodedDigest_spec (digest : List UInt8) :
    let curve := cryptoEcCurveGet id
    let encoded :=
      if curve.scalarBits < digest.length * 8 then
        ecdsaShiftRightBigEndian (digest.take curve.scalarBytes)
          (curve.scalarBytes * 8 - curve.scalarBits)
      else List.replicate (curve.scalarBytes - digest.length) 0 ++ digest
    encoded.length = curve.scalarBytes ∧
      beValue encoded = bits2int (parameters mac digestLength id) digest := by
  have hsizes := sizes id
  have hbytes := hsizes.bytes
  dsimp only
  by_cases hlong : (cryptoEcCurveGet id).scalarBits < digest.length * 8
  · rw [if_pos hlong]
    exact leftmost_spec (by omega)
  · have hshort : 8 * digest.length - (cryptoEcCurveGet id).scalarBits = 0 := by omega
    rw [if_neg hlong]
    constructor
    · rw [List.length_append, List.length_replicate]
      omega
    · rw [beValue_leading, bits2int, parameters, hsizes.size, hshort, pow_zero, Nat.div_one]

theorem ecdsaDigestToScalar_holds (digest : List UInt8) :
    ∃ scalar, ecdsaDigestToScalar (cryptoEcCurveGet id) digest =
        .ok (scalar, bits2octets (parameters mac digestLength id) digest) ∧
      (scalarModulus (cryptoEcCurveGet id)).Holds (groupOrder (cryptoEcCurveGet id)) scalar
        (bits2int (parameters mac digestLength id) digest) := by
  obtain ⟨hlength, hvalue⟩ := @encodedDigest_spec id digestLength mac digest
  have hlt := @bits2int_lt id digestLength mac digest
  obtain ⟨scalar, hscalar, hholds⟩ := fromBytesReduced_holds (sizes id) (scalarModulus_sound id)
    hlength (hvalue.trans_lt hlt)
  have hoctets := scalarToBytes_eq (scalarModulus_sound id) hholds
  rw [ZMod.val_natCast, hvalue] at hoctets
  rw [hvalue] at hholds
  refine ⟨scalar, ?_, hholds⟩
  rw [ecdsaDigestToScalar, hscalar, bits2octets, int2octets, parameters_rlen]
  exact congrArg (fun octets => Except.ok (scalar, octets)) hoctets

theorem ecdsaDigestToScalar_eq (digest : List UInt8) :
    ∃ scalar, ecdsaDigestToScalar (cryptoEcCurveGet id) digest =
      .ok (scalar, bits2octets (parameters mac digestLength id) digest) := by
  obtain ⟨scalar, hscalar, -⟩ := @ecdsaDigestToScalar_holds id digestLength mac digest
  exact ⟨scalar, hscalar⟩

def stateOf (d : Drbg) : HmacState := ⟨d.key, d.value⟩

variable (hmac : ∀ key message, ecdsaHmac key message = .ok (mac key message))

include hmac in
theorem hmacUpdate_eq (d : Drbg) (octets : List UInt8) :
    hmacUpdate ecdsaHmac octets (stateOf d) =
      (.ok (), stateOf (update (parameters mac digestLength id) d octets)) := by
  rw [hmacUpdate]
  simp only [hmac, stateOf, update, parameters]

include hmac in
theorem ecdsaRfc6979Initialize_eq {privateKey digest : List UInt8} (s : HmacState)
    (hkey : privateKey.length = (cryptoEcCurveGet id).scalarBytes)
    (hdigest : digest.length = digestLength) :
    ecdsaRfc6979Initialize ecdsaHmac (cryptoEcCurveGet id) privateKey digest s =
      (.ok (), stateOf (start (parameters mac digestLength id) (beValue privateKey) digest)) := by
  obtain ⟨scalar, hscalar⟩ := @ecdsaDigestToScalar_eq id digestLength mac digest
  have hoctets : int2octets (parameters mac digestLength id) (beValue privateKey) = privateKey := by
    rw [int2octets, parameters_rlen, ← hkey, bigEndian_beValue]
  rw [ecdsaRfc6979Initialize, hscalar]
  dsimp only
  have hzero := @hmacUpdate_eq id digestLength _ _ hmac
    ⟨List.replicate digestLength 0, List.replicate digestLength 1⟩
    (0 :: (privateKey ++ bits2octets (parameters mac digestLength id) digest))
  rw [← hkey, List.take_length, hdigest]
  rw [start, hoctets]
  exact (bind_ok hzero).trans (hmacUpdate_eq hmac _ _)

theorem chain_key (r : Parameters) (d : Drbg) (i : Nat) : (chain r d i).key = d.key := by
  cases i <;> rfl

variable (hlen : ∀ key message, (mac key message).length = digestLength)

include hmac hlen in
/-- The bytes of a candidate are the first of the standard's bits. -/
theorem generated_eq (hpos : 0 < digestLength) (d : Drbg) :
    ∃ generated, fillLoop digestLength (nextValue ecdsaHmac) (cryptoEcCurveGet id).scalarBytes
        (stateOf d) = (.ok generated, stateOf (chain (parameters mac digestLength id) d
          (blocks (parameters mac digestLength id)))) ∧
      (ecdsaShiftRightBigEndian generated
        ((cryptoEcCurveGet id).scalarBytes * 8 - (cryptoEcCurveGet id).scalarBits)).length =
          (cryptoEcCurveGet id).scalarBytes ∧
      beValue (ecdsaShiftRightBigEndian generated
        ((cryptoEcCurveGet id).scalarBytes * 8 - (cryptoEcCurveGet id).scalarBits)) =
          candidate (parameters mac digestLength id) d := by
  have hnext : ∀ i, nextValue ecdsaHmac
      (stateOf (chain (parameters mac digestLength id) d i)) =
      (.ok (chain (parameters mac digestLength id) d (i + 1)).value,
        stateOf (chain (parameters mac digestLength id) d (i + 1))) := by
    intro i
    simp only [nextValue, stateOf, hmac, chain, chain_key, parameters]
  have hout : ∀ i, (chain (parameters mac digestLength id) d (i + 1)).value.length = digestLength :=
    fun i => hlen _ _
  have hcount : blockCount digestLength (cryptoEcCurveGet id).scalarBytes =
      blocks (parameters mac digestLength id) := by
    rw [blockCount, blocks, parameters, (sizes id).size, (sizes id).bytes,
      ← Nat.div_div_eq_div_mul]
    dsimp only
    congr 1
    omega
  have hfill := fillLoop_ok hpos hnext hout (cryptoEcCurveGet id).scalarBytes
  have hfilled := filled_length hout hpos (cryptoEcCurveGet id).scalarBytes
  rw [filled, hcount] at hfill hfilled
  rw [List.length_take, min_eq_left_iff] at hfilled
  refine ⟨_, hfill, leftmost_spec hfilled⟩

def Accepted (r : Parameters) (d : Drbg) : Prop := 1 ≤ candidate r d ∧ candidate r d < r.q

theorem selectBytes_zero {nonce fresh : List UInt8} (h : nonce.length = fresh.length) :
    selectBytes 0 nonce fresh = nonce := by
  induction nonce generalizing fresh with
  | nil => rfl
  | cons old nonce ih =>
    cases fresh with
    | nil => cases h
    | cons new fresh =>
      have hrest := ih (Nat.succ_injective h)
      have hmask : (~~~(0 : UInt32)).toUInt8 = -1 := rfl
      have hclear : (0 : UInt32).toUInt8 = 0 := rfl
      simpa [selectBytes, hmask, hclear] using hrest

theorem selectBytes_ones {nonce fresh : List UInt8} (h : nonce.length = fresh.length) :
    selectBytes ((0 : UInt32) - 1) nonce fresh = fresh := by
  have hmask : ((0 : UInt32) - 1).toUInt8 = -1 := rfl
  have hclear : (~~~((0 : UInt32) - 1)).toUInt8 = 0 := rfl
  induction nonce generalizing fresh with
  | nil => exact (List.length_eq_zero_iff.mp h.symm).symm
  | cons old nonce ih =>
    cases fresh with
    | nil => cases h
    | cons new fresh =>
      have hrest := ih (Nat.succ_injective h)
      rw [selectBytes, hmask, hclear] at hrest ⊢
      simpa using hrest

include hmac hlen in
theorem nonceAttempt_eq (hpos : 0 < digestLength) (d : Drbg) {nonce : List UInt8} {found : UInt32}
    (hnonce : nonce.length = (cryptoEcCurveGet id).scalarBytes) (hfound : found = 0 ∨ found = 1)
    [Decidable (Accepted (parameters mac digestLength id) d)] :
    nonceAttempt ecdsaHmac (cryptoEcCurveGet id) digestLength ⟨stateOf d, nonce, found⟩ =
      (.ok (), ⟨stateOf (retry (parameters mac digestLength id) d),
        if found = 0 ∧ Accepted (parameters mac digestLength id) d then
          int2octets (parameters mac digestLength id) (candidate (parameters mac digestLength id) d)
        else nonce,
        if Accepted (parameters mac digestLength id) d then 1 else found⟩) := by
  obtain ⟨generated, hfill, hlength, hvalue⟩ := @generated_eq id _ _ _ hmac hlen hpos d
  have hretry := @hmacUpdate_eq id digestLength _ _ hmac
    (chain (parameters mac digestLength id) d (blocks (parameters mac digestLength id))) [0]
  have hshift : (if (cryptoEcCurveGet id).scalarBytes * 8 ≠ (cryptoEcCurveGet id).scalarBits then
      ecdsaShiftRightBigEndian generated
        ((cryptoEcCurveGet id).scalarBytes * 8 - (cryptoEcCurveGet id).scalarBits)
      else generated) = ecdsaShiftRightBigEndian generated
        ((cryptoEcCurveGet id).scalarBytes * 8 - (cryptoEcCurveGet id).scalarBits) := by
    by_cases hexcess : (cryptoEcCurveGet id).scalarBytes * 8 = (cryptoEcCurveGet id).scalarBits
    · rw [if_neg (not_not.mpr hexcess), hexcess, Nat.sub_self, ecdsaShiftRightBigEndian, if_pos rfl]
    · rw [if_pos hexcess]
  have hvalid := cryptoEcScalarIsValidCt_eq (sizes id) hlength
  have hoctets : int2octets (parameters mac digestLength id)
      (candidate (parameters mac digestLength id) d) = ecdsaShiftRightBigEndian generated
        ((cryptoEcCurveGet id).scalarBytes * 8 - (cryptoEcCurveGet id).scalarBits) := by
    have hback := bigEndian_beValue (ecdsaShiftRightBigEndian generated
      ((cryptoEcCurveGet id).scalarBytes * 8 - (cryptoEcCurveGet id).scalarBits))
    rw [hlength, hvalue] at hback
    rwa [int2octets, parameters_rlen]
  rw [hvalue] at hvalid
  unfold nonceAttempt
  rw [hfill]
  dsimp only
  rw [ecdsaRfc6979RejectionUpdate, hretry, hshift, hoctets]
  dsimp only
  generalize ecdsaShiftRightBigEndian generated _ = fresh at *
  have hlen' : nonce.length = fresh.length := hnonce.trans hlength.symm
  have hzero := selectBytes_zero hlen'
  have hones := selectBytes_ones hlen'
  by_cases haccepted : Accepted (parameters mac digestLength id) d
  · rw [hvalid.trans (if_pos haccepted), if_pos haccepted]
    rcases hfound with rfl | rfl
    · rw [if_pos ⟨rfl, haccepted⟩]
      exact congrArg (fun n => (Except.ok (), (⟨stateOf (retry _ d), n, 1⟩ : NonceBatch))) hones
    · rw [if_neg fun h => absurd h.1 (by decide)]
      exact congrArg (fun n => (Except.ok (), (⟨stateOf (retry _ d), n, 1⟩ : NonceBatch))) hzero
  · have hnone : (0 : UInt32) - ((0 : UInt32) &&& (found ^^^ 1)) = 0 := by
      rw [UInt32.zero_and]
      rfl
    rw [hvalid.trans (if_neg haccepted), if_neg haccepted, if_neg fun h => haccepted h.2, hnone,
      hzero, UInt32.or_zero]
    rfl

theorem ecdsaHashParameters_pos {curve : CryptoEcCurve} {hashAlg : LiberaCAlgID}
    (h : ecdsaHashParameters curve hashAlg = .ok digestLength) : 0 < digestLength := by
  have hpair : ∀ {required length strength : Nat}, 0 < length →
      (if strength < required then .error .invalidAlgId
        else .ok length : Except LiberaCError Nat) = .ok digestLength → 0 < digestLength := by
    intro required length strength hpos heq
    split_ifs at heq
    cases heq
    exact hpos
  cases hashAlg <;> first | cases h | exact hpair (by decide) h

/-- The batch after so many candidates: nothing, or what the loop returns. -/
structure Drawn (r : Parameters) (d : Drbg) (n : Nat) (s : NonceBatch) : Prop where
  drbg : s.drbg = stateOf (after r d n)
  length : s.nonce.length = rlen r
  nonce : (s.found = 0 ∧ s.nonce = List.replicate (rlen r) 0 ∧ ∀ i < n, ¬ Accepted r (after r d i)) ∨
    (s.found = 1 ∧ ∃ i < n, ∃ k, Draws r d i k ∧ s.nonce = int2octets r k)

include hmac hlen in
theorem nonceAttempt_drawn (hpos : 0 < digestLength) {d : Drbg} {n : Nat} {s : NonceBatch}
    (h : Drawn (parameters mac digestLength id) d n s) :
    ∃ t, nonceAttempt ecdsaHmac (cryptoEcCurveGet id) digestLength s = (.ok (), t) ∧
      Drawn (parameters mac digestLength id) d (n + 1) t := by
  classical
  obtain ⟨drbg, nonce, found⟩ := s
  obtain ⟨rfl, hlength, hnonce⟩ := h
  dsimp only at hlength hnonce
  have hfound : found = 0 ∨ found = 1 := hnonce.imp And.left And.left
  refine ⟨_, nonceAttempt_eq hmac hlen hpos _ (hlength.trans parameters_rlen) hfound, ?_⟩
  refine ⟨congrArg stateOf (after_succ d n).symm, ?_, ?_⟩
  · dsimp only
    split_ifs
    · exact bigEndian_length _ _
    · exact hlength
  · dsimp only
    by_cases haccepted : Accepted (parameters mac digestLength id)
        (after (parameters mac digestLength id) d n)
    · rw [if_pos haccepted]
      refine Or.inr ⟨rfl, ?_⟩
      obtain ⟨rfl, -, hbefore⟩ | ⟨rfl, i, hi, k, hdraws, rfl⟩ := hnonce
      · rw [if_pos ⟨rfl, haccepted⟩]
        exact ⟨n, Nat.lt_succ_self n, _, draws_iff.mpr ⟨hbefore, haccepted, rfl⟩, rfl⟩
      · rw [if_neg fun h => absurd h.1 (by decide)]
        exact ⟨i, Nat.lt_succ_of_lt hi, k, hdraws, rfl⟩
    · rw [if_neg haccepted, if_neg fun h => haccepted h.2]
      refine hnonce.imp ?_ ?_
      · rintro ⟨hzero, hzeros, hbefore⟩
        exact ⟨hzero, hzeros, Nat.forall_lt_succ_right.mpr ⟨hbefore, haccepted⟩⟩
      · rintro ⟨hone, i, hi, hrest⟩
        exact ⟨hone, i, Nat.lt_succ_of_lt hi, hrest⟩

include hmac hlen in
theorem nonceAttempts_drawn (hpos : 0 < digestLength) (d : Drbg) (n : Nat) :
    ∃ t, nonceAttempts ecdsaHmac (cryptoEcCurveGet id) digestLength n
        ⟨stateOf d, List.replicate (cryptoEcCurveGet id).scalarBytes 0, 0⟩ = (.ok (), t) ∧
      Drawn (parameters mac digestLength id) d n t := by
  induction n with
  | zero =>
    refine ⟨_, rfl, rfl, ?_, Or.inl ⟨rfl, ?_, fun i hi => absurd hi (Nat.not_lt_zero i)⟩⟩
    · rw [parameters_rlen, List.length_replicate]
    · rw [parameters_rlen]
  | succ n ih =>
    obtain ⟨s, hrun, hdrawn⟩ := ih
    obtain ⟨t, hstep, hnext⟩ := nonceAttempt_drawn hmac hlen hpos hdrawn
    exact ⟨t, (bind_ok hrun).trans hstep, hnext⟩

/-- The batch returns what the loop of the standard returns if that is among the candidates, and
fails with a clear nonce otherwise. -/
theorem ecdsaNonce_eq_rfc6979 {hashAlg : LiberaCAlgID} {privateKey digest : List UInt8}
    (hhash : ecdsaHashParameters (cryptoEcCurveGet id) hashAlg = .ok digestLength)
    (hmac : ∀ key message, ecdsaHmac key message = .ok (mac key message))
    (hlen : ∀ key message, (mac key message).length = digestLength)
    (hkey : privateKey.length = (cryptoEcCurveGet id).scalarBytes)
    (hdigest : digest.length = digestLength) :
    (∀ rejected < ecdsaRfc6979Candidates, ∀ k,
      Draws (parameters mac digestLength id)
        (start (parameters mac digestLength id) (beValue privateKey) digest) rejected k →
      ecdsaNonce ecdsaHmac (cryptoEcCurveGet id) privateKey digest =
        (.ok (), bigEndian (cryptoEcCurveGet id).scalarBytes k)) ∧
    ((∀ rejected < ecdsaRfc6979Candidates, ∀ k,
      ¬ Draws (parameters mac digestLength id)
        (start (parameters mac digestLength id) (beValue privateKey) digest) rejected k) →
      ecdsaNonce ecdsaHmac (cryptoEcCurveGet id) privateKey digest =
        (.error .internal, List.replicate (cryptoEcCurveGet id).scalarBytes 0)) := by
  have hpos := ecdsaHashParameters_pos hhash
  obtain ⟨⟨drbg, nonce, found⟩, hrun, hdrawn⟩ := @nonceAttempts_drawn id _ _ _ hmac hlen hpos
    (start (parameters mac digestLength id) (beValue privateKey) digest) ecdsaRfc6979Candidates
  have hinit := @ecdsaRfc6979Initialize_eq _ _ mac _ hmac _ _ ⟨[], []⟩ hkey hdigest
  have hvalue : ecdsaNonce ecdsaHmac (cryptoEcCurveGet id) privateKey digest =
      (if found = 0 then .error .internal else .ok (), nonce) := by
    rw [ecdsaNonce, hinit]
    dsimp only
    rw [hdigest, ecdsaRfc6979Generate, hrun]
  have hnonce := hdrawn.nonce
  dsimp only at hnonce
  rw [parameters_rlen] at hnonce
  rw [hvalue]
  constructor
  · intro rejected hlt k hdraws
    obtain ⟨-, -, hnone⟩ | ⟨rfl, i, -, l, hfirst, rfl⟩ := hnonce
    · exact absurd (draws_iff.mp hdraws).2.1 (hnone rejected hlt)
    · obtain ⟨-, rfl⟩ := hdraws.unique hfirst
      rw [if_neg (by decide), int2octets, parameters_rlen]
  · intro hnever
    obtain ⟨rfl, rfl, -⟩ | ⟨-, i, hi, l, hfirst, -⟩ := hnonce
    · rw [if_pos rfl]
    · exact absurd hfirst (hnever i hi l)

end Batch

/-- A keyed hash under which the first candidate is zero and the second one is not. -/
def sampleMac (key message : List UInt8) : List UInt8 :=
  List.replicate 32 (if message.length = 33 then 1 else key.headD 0)

theorem ecdsaNonce_second_candidate :
    ecdsaNonce (fun key message => .ok (sampleMac key message)) (cryptoEcCurveGet .p256)
      (List.replicate 32 7) (List.replicate 32 9) = (.ok (), List.replicate 32 1) := by
  have hdraws : Draws (parameters sampleMac 32 .p256)
      (start (parameters sampleMac 32 .p256) (beValue (List.replicate 32 7))
        (List.replicate 32 9)) 1 _ :=
    Draws.reject (by decide +kernel) (Draws.accept (by decide +kernel) (by decide +kernel))
  have hnonce := (@ecdsaNonce_eq_rfc6979 .p256 _ _ _ .hashSha2_256 _ _ rfl
    (fun key message => rfl) (fun key message => List.length_replicate) rfl rfl).1 1
    (by decide) _ hdraws
  exact hnonce.trans (congrArg (Prod.mk _) (by decide +kernel))

end LiberaCrypt.EcdsaNonceCorrect
