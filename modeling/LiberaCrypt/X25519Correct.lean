import LiberaCrypt.Ed25519Codec
import LiberaCrypt.MontgomeryLadder
import LiberaCrypt.PowerLadder
import LiberaCrypt.ShortJacobian
import LiberaCrypt.X25519

namespace LiberaCrypt.X25519Correct

open LiberaCrypt.ByteMemory LiberaCrypt.CheckedWords LiberaCrypt.CountedLoop
open LiberaCrypt.Ed25519Codec LiberaCrypt.Ed25519Curve LiberaCrypt.Field25519
open LiberaCrypt.Field25519Bytes LiberaCrypt.Field25519Product LiberaCrypt.Field25519Reduce
open LiberaCrypt.Field25519Subtract LiberaCrypt.Field25519Values LiberaCrypt.MonadicLoop
open LiberaCrypt.MontgomeryCurve LiberaCrypt.MontgomeryLadder LiberaCrypt.Outcome
open LiberaCrypt.PowerLadder LiberaCrypt.Radix LiberaCrypt.WordArithmetic LiberaCrypt.X25519

variable {m : Type → Type} [Monad m] [LawfulMonad m] {W : Words m}

section Operations

variable {xs ys : List UInt32} {multiplier : UInt32}

theorem smallRow_value (hW : Exact W) (hmultiplier : multiplier.toNat < 2 ^ 32)
    (hx : Below 65536 xs) :
    ∃ r, smallRow W multiplier xs = pure r ∧ r.length = xs.length ∧ WideBelow (2 ^ 48) r ∧
      wideValue r = limbsValue xs * multiplier.toNat := by
  induction xs with
  | nil => exact ⟨[], by simp [smallRow], rfl, wideBelow_nil, by simp⟩
  | cons x xs ih =>
    rw [below_cons] at hx
    obtain ⟨rest, hrest, hlength, hbelow, hvalue⟩ := ih hx.2
    have hbound : x.toNat * multiplier.toNat < 2 ^ 48 := by
      have hmul := Nat.mul_le_mul (Nat.le_pred_of_lt hx.1) (Nat.le_pred_of_lt hmultiplier)
      exact hmul.trans_lt (by decide)
    have hroom : x.toUInt64.toNat * multiplier.toUInt64.toNat < 2 ^ 64 := by
      rw [UInt32.toNat_toUInt64, UInt32.toNat_toUInt64]
      omega
    have hproduct := toNat_mul64 hroom
    rw [UInt32.toNat_toUInt64, UInt32.toNat_toUInt64] at hproduct
    refine ⟨(x.toUInt64 * multiplier.toUInt64) :: rest, ?_, by simp [hlength], ?_, ?_⟩
    · rw [smallRow, hW.mul64 hroom, pure_bind, hrest, pure_bind]
    · rw [wideBelow_cons, hproduct]
      exact ⟨hbound, hbelow⟩
    · rw [wideValue_cons, hvalue, hproduct, limbsValue_cons]
      ring

theorem feMulSmall_element (hW : Exact W) (x : ZMod prime) (multiplier : UInt32) :
    feMulSmall W (element x) multiplier = pure (element (x * (multiplier.toNat : ZMod prime))) := by
  obtain ⟨r, hr, hlength, hbelow, hvalue⟩ :=
    smallRow_value hW multiplier.toNat_lt (element_below x)
  rw [feMulSmall, hr, pure_bind, reduce16_eq hW (hlength.trans (element_length x)) hbelow, hvalue,
    element_value, Nat.cast_mul, ZMod.natCast_zmod_val]

def bitWord (b : Bool) : UInt32 := if b then 1 else 0

theorem zipWith_left {f : UInt32 → UInt32 → UInt32} (hf : ∀ x y, f x y = x)
    (hlength : xs.length = ys.length) : List.zipWith f xs ys = xs := by
  apply List.ext_getElem
  · rw [List.length_zipWith, hlength, Nat.min_self]
  · intro i hi hi'
    rw [List.getElem_zipWith, hf]

theorem zipWith_right {f : UInt32 → UInt32 → UInt32} (hf : ∀ x y, f x y = y)
    (hlength : xs.length = ys.length) : List.zipWith f xs ys = ys := by
  apply List.ext_getElem
  · rw [List.length_zipWith, hlength, Nat.min_self]
  · intro i hi hi'
    rw [List.getElem_zipWith, hf]

theorem feCswap_element (x y : ZMod prime) (b : Bool) :
    feCswap (element x) (element y) (bitWord b) =
      if b then (element y, element x) else (element x, element y) := by
  have hlength := (element_length x).trans (element_length y).symm
  cases b with
  | false =>
    have hmask : (0 : UInt32) - (bitWord false &&& 1) = 0 := rfl
    simp only [feCswap, hmask, UInt32.and_zero, UInt32.xor_zero]
    rw [zipWith_left (fun _ _ => rfl) hlength, zipWith_right (fun _ _ => rfl) hlength]
    rfl
  | true =>
    have hmask : (0 : UInt32) - (bitWord true &&& 1) = -1 := rfl
    simp only [feCswap, hmask, UInt32.and_neg_one]
    rw [zipWith_right (fun x y => by rw [← UInt32.xor_assoc, UInt32.xor_self, UInt32.zero_xor])
      hlength, zipWith_left (fun x y => by rw [UInt32.xor_comm x, ← UInt32.xor_assoc,
        UInt32.xor_self, UInt32.zero_xor]) hlength]
    rfl

/-- The bytes are read below `2^255`, and what the prime is taken from is still the same residue. -/
theorem feFromBytes_eq (hW : Exact W) {input : List UInt8} (hlength : input.length = 32) :
    feFromBytes W input = pure (element (bytesValue input % 2 ^ 255 : Nat)) := by
  obtain ⟨hlen, hbelow, hvalue⟩ := bytesLimbs_value (n := 16) hlength
  rw [feFromBytes, ← hvalue]
  cases List.eq_nil_or_concat (bytesLimbs input) with
  | inl hnil =>
    rw [hnil] at hlen
    cases hlen
  | inr hconcat =>
    obtain ⟨low, top, heq⟩ := hconcat
    rw [List.concat_eq_append] at heq
    rw [heq] at hlen hbelow ⊢
    have hlow : low.length = 15 := by simpa using hlen
    have hbelowLow : Below 65536 low := fun x hx => hbelow x (List.mem_append_left _ hx)
    have hbound := limbsValue_lt hbelowLow
    have hget : (low ++ [top]).getD 15 0 = top := by simp [hlow]
    have hset : ∀ b, (low ++ [top]).set 15 b = low ++ [b] := by simp [hlow]
    have hvalues : ∀ b : UInt32, limbsValue (low ++ [b]) = limbsValue low + 65536 ^ 15 * b.toNat := by
      intro b
      rw [limbsValue, List.map_append, Nat.ofDigits_append, List.length_map, hlow, limbsValue]
      simp
    have hmask : (top &&& 0x7fff).toNat = top.toNat % 2 ^ 15 := by
      rw [UInt32.toNat_and]
      exact Nat.and_two_pow_sub_one_eq_mod _ 15
    have hmasked : limbsValue (low ++ [top &&& 0x7fff]) = limbsValue (low ++ [top]) % 2 ^ 255 := by
      rw [hvalues, hvalues, hmask]
      rw [hlow] at hbound
      omega
    rw [hget, hset, ← hmasked]
    apply feConditionalSubtractP_eq hW (by simp [hlow])
    · intro x hx
      cases List.mem_append.mp hx with
      | inl hx => exact hbelowLow x hx
      | inr hx =>
        rw [List.mem_singleton.mp hx, hmask]
        exact (Nat.mod_lt _ (by decide)).trans (by decide)
    · rw [hmasked]
      exact Nat.mod_lt _ (by decide)

theorem inverse_bits :
    ∀ i < 255, (8 ≤ i ∨ ((0xeb : UInt32) >>> UInt32.ofNat i) &&& 1 ≠ 0) ↔
      (prime - 2) / 2 ^ i % 2 = 1 := by
  decide +kernel

theorem x25519FeInvert_element (hW : Exact W) (x : ZMod prime) :
    x25519FeInvert W (element x) = pure (element x⁻¹) := by
  have hstep : ∀ i < 255, ∀ t, invertStep W (element x) i (element t) =
      pure (element (if (prime - 2) / 2 ^ i % 2 = 1 then t * t * x else t * t)) := by
    intro i hi t
    rw [invertStep, feSquare_element hW, pure_bind]
    by_cases hbit : (prime - 2) / 2 ^ i % 2 = 1
    · rw [if_pos ((inverse_bits i hi).mpr hbit), if_pos hbit, feMul_element hW]
    · rw [if_neg (mt (inverse_bits i hi).mp hbit), if_neg hbit]
  have hloop := countDown_invariant (n := 255) (s := 1)
    (f := fun i t => if (prime - 2) / 2 ^ i % 2 = 1 then t * t * x else t * t)
    (fun i t => t = x ^ ((prime - 2) / 2 ^ i)) (start x (by decide)).symm ?_
  · rw [x25519FeInvert, feOne_eq, countDownM_pure hstep, hloop, pow_zero, Nat.div_one, pow_sub_two]
  · rintro i hi t rfl
    split_ifs with hbit
    · exact step_set x hbit
    · exact step_clear x (by omega)

end Operations

section LadderRun

def a24 : ZMod prime := 121665

/-- The scalar that a private key stands for: the lowest three bits cleared, the highest set. -/
def decodeScalar (privateKey : List UInt8) : Nat :=
  2 ^ 254 + 8 * (bytesValue privateKey % 2 ^ 254 / 8)

def decodeU (publicKey : List UInt8) : ZMod prime := (bytesValue publicKey % 2 ^ 255 : Nat)

def x25519 (scalar : Nat) (u : ZMod prime) : ZMod prime :=
  (ladder a24 u 255 scalar).x * (ladder a24 u 255 scalar).z ^ (prime - 2)

def ladderWords (s : Ladder (ZMod prime)) : LadderState :=
  ⟨element s.first.x, element s.first.z, element s.second.x, element s.second.z, bitWord s.swapped⟩

theorem bitWord_xor (b c : Bool) : bitWord b ^^^ bitWord c = bitWord (b ^^ c) := by
  cases b <;> cases c <;> rfl

theorem byteBit_eq (bytes : List UInt8) (i : Nat) :
    byteBit bytes i = bitWord ((bytesValue bytes).testBit i) := by
  apply UInt32.toNat_inj.mp
  rw [byteBit_toNat, ← Nat.toNat_testBit]
  cases (bytesValue bytes).testBit i <;> rfl

theorem feCswap_exchange (b : Bool) (A B : Fraction (ZMod prime)) :
    feCswap (element A.x) (element B.x) (bitWord b) =
        (element (exchange b A B).1.x, element (exchange b A B).2.x) ∧
      feCswap (element A.z) (element B.z) (bitWord b) =
        (element (exchange b A B).1.z, element (exchange b A B).2.z) := by
  rw [feCswap_element, feCswap_element]
  cases b <;> exact ⟨rfl, rfl⟩

theorem ladderBit_words (hW : Exact W) (scalar : List UInt8) (u : ZMod prime) (bit : Nat)
    (s : Ladder (ZMod prime)) :
    ladderBit W scalar (element u) bit (ladderWords s) =
      pure (ladderWords (ladderStep a24 u (bytesValue scalar) bit s)) := by
  have hconstant : ((x25519A24.toNat : Nat) : ZMod prime) = a24 := rfl
  obtain ⟨hx, hz⟩ := feCswap_exchange (s.swapped ^^ (bytesValue scalar).testBit bit) s.first s.second
  simp only [ladderBit, ladderWords, byteBit_eq, bitWord_xor, hx, hz, feAdd_element hW,
    feSub_element hW, feMul_element hW, feSquare_element hW, feMulSmall_element hW, hconstant,
    pure_bind, ladderStep, Fraction.double, Fraction.add]

theorem clamp_low : ∀ n < 256, n &&& 248 = n / 8 * 8 := by decide +kernel

theorem clamp_high : ∀ n < 256, n &&& 127 ||| 64 = 64 + n % 64 := by decide +kernel

theorem clampScalar_value {scalarInput : List UInt8} (hlength : scalarInput.length = 32) :
    bytesValue (clampScalar scalarInput) = decodeScalar scalarInput := by
  match scalarInput, hlength with
  | first :: rest, hlength =>
    cases List.eq_nil_or_concat rest with
    | inl hnil =>
      rw [hnil] at hlength
      cases hlength
    | inr hconcat =>
      obtain ⟨middle, last, rfl⟩ := hconcat
      rw [List.concat_eq_append] at hlength ⊢
      have hmiddle : middle.length = 30 := by simpa using hlength
      have hclamp : clampScalar (first :: (middle ++ [last])) =
          (first &&& 248) :: (middle ++ [(last &&& 127) ||| 64]) := by
        simp [clampScalar, hmiddle]
      have hlow : (first &&& 248).toNat = first.toNat / 8 * 8 := by
        rw [UInt8.toNat_and]
        exact clamp_low _ first.toNat_lt
      have hhigh : ((last &&& 127) ||| 64).toNat = 64 + last.toNat % 64 := by
        rw [UInt8.toNat_or, UInt8.toNat_and]
        exact clamp_high _ last.toNat_lt
      have hbound := bytesValue_lt middle
      have hfirst := first.toNat_lt
      have hlast := last.toNat_lt
      rw [hmiddle] at hbound
      rw [hclamp, decodeScalar, bytesValue_cons, bytesValue_cons, bytesValue_append,
        bytesValue_append, bytesValue_singleton, bytesValue_singleton, hmiddle, hlow, hhigh]
      omega

theorem decodeScalar_lt (privateKey : List UInt8) : decodeScalar privateKey < 2 ^ 255 := by
  unfold decodeScalar
  omega

theorem x25519ScalarMultiply_eq (hW : Exact W) {scalarInput uInput : List UInt8}
    (hscalar : scalarInput.length = 32) (hu : uInput.length = 32) :
    x25519ScalarMultiply W scalarInput uInput =
      pure (encoding (x25519 (decodeScalar scalarInput) (decodeU uInput))) := by
  have hstart : (⟨feOne, feZero, element (decodeU uInput), feOne, 0⟩ : LadderState) =
      ladderWords ⟨⟨1, 0⟩, ⟨decodeU uInput, 1⟩, false⟩ := by
    rw [feOne_eq, feZero_eq]
    rfl
  have hloop := countDownM_pure (n := 255) (fun i _ s =>
    ladderBit_words hW (clampScalar scalarInput) (decodeU uInput) i s)
    ⟨⟨1, 0⟩, ⟨decodeU uInput, 1⟩, false⟩
  rw [x25519ScalarMultiply, feFromBytes_eq hW hu, pure_bind]
  change (countDownM 255 _ (⟨feOne, feZero, element (decodeU uInput), feOne, 0⟩ : LadderState) >>=
    _) = _
  rw [hstart]
  change (countDownM 255 (ladderBit W (clampScalar scalarInput) (element (decodeU uInput))) _ >>=
    _) = _
  rw [hloop, pure_bind, clampScalar_value hscalar]
  generalize hs : countDown 255 (ladderStep a24 (decodeU uInput) (decodeScalar scalarInput))
    ⟨⟨1, 0⟩, ⟨decodeU uInput, 1⟩, false⟩ = s
  obtain ⟨hx, hz⟩ := feCswap_exchange s.swapped s.first s.second
  have hladder : ladder a24 (decodeU uInput) 255 (decodeScalar scalarInput) =
      (exchange s.swapped s.first s.second).1 := by
    rw [ladder, hs]
  simp only [ladderWords, hx, hz, x25519FeInvert_element hW, feMul_element hW,
    feToBytes_element hW, pure_bind, x25519, hladder, pow_sub_two]

end LadderRun

section Agreement

open WeierstrassCurve.Affine

def coefficient : ZMod prime := 486662

def baseY : Nat :=
  14781619447589544791020593568409986887264606134616475288964881837755586237401

theorem a24_eq : 4 * a24 + 2 = coefficient := by
  rw [a24, coefficient]
  norm_num

theorem base_check :
    baseY * baseY % prime = (9 * 9 * 9 + 486662 * (9 * 9) + 9) % prime ∧ ¬ prime ∣ baseY := by
  decide

theorem base_nonsingular : (curve coefficient).Nonsingular 9 baseY := by
  obtain ⟨hcurve, hnonzero⟩ := base_check
  rw [← ZMod.natCast_eq_natCast_iff'] at hcurve
  push_cast at hcurve
  apply ShortWeierstrass.nonsingular_of_ne_zero rfl rfl Ed25519Curve.two_ne_zero
  · rwa [ne_eq, ZMod.natCast_eq_zero_iff]
  · rw [equation_iff_cubic, coefficient]
    exact hcurve

def basePoint : (curve coefficient).Point := .some 9 baseY base_nonsingular

theorem x25519_abscissa {scalar : Nat} (hscalar : scalar < 2 ^ 255)
    (D : (curve coefficient).Point) : x25519 scalar (abscissa D) = abscissa (scalar • D) := by
  rw [x25519, pow_sub_two]
  exact ladder_abscissa Ed25519Curve.two_ne_zero a24_eq D hscalar

theorem x25519_comm {a b : Nat} (ha : a < 2 ^ 255) (hb : b < 2 ^ 255) :
    x25519 a (x25519 b 9) = x25519 b (x25519 a 9) := by
  have hbase : (9 : ZMod prime) = abscissa basePoint := rfl
  rw [hbase, x25519_abscissa hb, x25519_abscissa ha, x25519_abscissa ha, x25519_abscissa hb,
    smul_comm]

end Agreement

section Calls

theorem decodeU_encoding (x : ZMod prime) : decodeU (encoding x) = x := by
  have hlt : x.val < 2 ^ 255 := (ZMod.val_lt x).trans (by decide)
  rw [decodeU, encoding_value, Nat.mod_eq_of_lt hlt, ZMod.natCast_zmod_val]

theorem decodeU_basepoint : decodeU basepoint = 9 := by
  have hvalue : bytesValue basepoint % 2 ^ 255 = 9 := by decide
  rw [decodeU, hvalue]
  rfl

theorem foldl_or_eq_zero (bytes : List UInt8) (start : UInt32) :
    bytes.foldl (fun accumulator byte => accumulator ||| byte.toUInt32) start = 0 ↔
      start = 0 ∧ ∀ byte ∈ bytes, byte = 0 := by
  induction bytes generalizing start with
  | nil => simp
  | cons byte bytes ih =>
    have hbyte : byte.toUInt32 = 0 ↔ byte = 0 := by
      rw [← UInt32.toNat_inj, ← UInt8.toNat_inj, UInt8.toNat_toUInt32]
      rfl
    rw [List.foldl_cons, ih, UInt32.or_eq_zero_iff, hbyte, List.forall_mem_cons, and_assoc]

theorem x25519IsAllZero_encoding (x : ZMod prime) :
    x25519IsAllZero (encoding x) = decide (x = 0) := by
  have hzero : encoding 0 = List.replicate 32 0 := by decide
  have hiff : (∀ byte ∈ encoding x, byte = 0) ↔ x = 0 := by
    constructor
    · intro h
      apply encoding_injective
      rw [hzero, List.eq_replicate_iff]
      exact ⟨encoding_length x, h⟩
    · rintro rfl byte hbyte
      rw [hzero] at hbyte
      exact List.eq_of_mem_replicate hbyte
  rw [x25519IsAllZero, Bool.eq_iff_iff, beq_iff_eq, foldl_or_eq_zero, decide_eq_true_eq, ← hiff]
  simp

def outcome (privateKey peer : List UInt8) : Except LiberaCError (List UInt8) :=
  if x25519 (decodeScalar privateKey) (decodeU peer) = 0 then .error .invalidKey
  else .ok (encoding (x25519 (decodeScalar privateKey) (decodeU peer)))

def finish (sharedSecret : Nat) (memory : Memory) :
    Except LiberaCError (List UInt8) → Except LiberaCError Unit × Memory
  | .ok secret => (.ok (), writeBytes memory sharedSecret secret)
  | .error e => (.error e, cryptoZeroize sharedSecret 32 memory)

theorem sharedSecret_eq (memory : Memory) (sharedSecret sharedSecretLength privateKey privateKeyLength
    peerPublicKey peerPublicKeyLength : Nat) :
    cryptoX25519SharedSecretInternal sharedSecret sharedSecretLength privateKey privateKeyLength
        peerPublicKey peerPublicKeyLength memory =
      match sharedSecretArguments sharedSecret sharedSecretLength privateKey privateKeyLength
        peerPublicKey peerPublicKeyLength with
      | .error e => (.error e, memory)
      | .ok () => finish sharedSecret memory
          (outcome (readBytes memory privateKey 32) (readBytes memory peerPublicKey 32)) := by
  rw [cryptoX25519SharedSecretInternal]
  cases hchecks : sharedSecretArguments sharedSecret sharedSecretLength privateKey privateKeyLength
      peerPublicKey peerPublicKeyLength with
  | error e => rfl
  | ok _ =>
    have hlengths : privateKeyLength = 32 ∧ peerPublicKeyLength = 32 := by
      rw [sharedSecretArguments] at hchecks
      split_ifs at hchecks with hpresent
      simp only [not_or, not_not] at hpresent
      exact ⟨hpresent.2.2.2.1, hpresent.2.2.2.2⟩
    obtain ⟨rfl, rfl⟩ := hlengths
    have hladder := x25519ScalarMultiply_eq machine_exact (readBytes_length memory privateKey 32)
      (readBytes_length memory peerPublicKey 32)
    simp only [pure] at hladder
    have hresult := x25519IsAllZero_encoding (x25519 (decodeScalar (readBytes memory privateKey 32))
      (decodeU (readBytes memory peerPublicKey 32)))
    rw [compute_ok_bind, load_bind, load_bind, hladder, hresult, outcome]
    by_cases hzero : x25519 (decodeScalar (readBytes memory privateKey 32))
        (decodeU (readBytes memory peerPublicKey 32)) = 0
    · rw [if_pos hzero, if_pos (decide_eq_true hzero)]
      rfl
    · rw [if_neg hzero, if_neg (by simpa using hzero)]
      rfl

/-- Wherever the private key and a large enough separate output are, the public key is written. -/
def Derives (privateBytes publicBytes : List UInt8) : Prop :=
  ∀ (memory : Memory) (publicKey publicKeyLength privateKey : Nat),
    publicKey ≠ 0 → privateKey ≠ 0 → 32 ≤ publicKeyLength →
    Disjoint publicKey 32 privateKey privateBytes.length →
    readBytes memory privateKey privateBytes.length = privateBytes →
    cryptoX25519PublicFromPrivateInternal publicKey publicKeyLength privateKey privateBytes.length
      memory = (.ok (), writeBytes memory publicKey publicBytes)

/-- Wherever the two keys and a large enough separate output are, the call ends like this. -/
def Shares (privateBytes peerBytes : List UInt8) (result : Except LiberaCError (List UInt8)) :
    Prop :=
  ∀ (memory : Memory) (sharedSecret sharedSecretLength privateKey peerPublicKey : Nat),
    sharedSecret ≠ 0 → privateKey ≠ 0 → peerPublicKey ≠ 0 → 32 ≤ sharedSecretLength →
    Disjoint sharedSecret 32 privateKey privateBytes.length →
    Disjoint sharedSecret 32 peerPublicKey peerBytes.length →
    readBytes memory privateKey privateBytes.length = privateBytes →
    readBytes memory peerPublicKey peerBytes.length = peerBytes →
    cryptoX25519SharedSecretInternal sharedSecret sharedSecretLength privateKey privateBytes.length
      peerPublicKey peerBytes.length memory = finish sharedSecret memory result

theorem derives {a : List UInt8} (ha : a.length = 32) :
    Derives a (encoding (x25519 (decodeScalar a) 9)) := by
  intro memory publicKey publicKeyLength privateKey hpublic hprivate hroom hdisjoint hread
  have hoverlap := (cryptoRangesOverlap_iff _ _ _ _).mpr hdisjoint
  have hladder := x25519ScalarMultiply_eq machine_exact ha (show basepoint.length = 32 from rfl)
  rw [decodeU_basepoint] at hladder
  rw [cryptoX25519PublicFromPrivateInternal, if_neg (by simp [hpublic, hprivate, ha]),
    if_neg (not_lt.mpr hroom), hoverlap, if_neg (by decide), compute_ok_bind, load_bind, hread,
    hladder]
  rfl

theorem shares {a peer : List UInt8} (ha : a.length = 32) (hpeer : peer.length = 32) :
    Shares a peer (outcome a peer) := by
  intro memory sharedSecret sharedSecretLength privateKey peerPublicKey hshared hprivate hpublic
    hroom hkey hpeerKey hread hreadPeer
  have hoverlapKey := (cryptoRangesOverlap_iff _ _ _ _).mpr hkey
  have hoverlapPeer := (cryptoRangesOverlap_iff _ _ _ _).mpr hpeerKey
  have hchecks : sharedSecretArguments sharedSecret sharedSecretLength privateKey a.length
      peerPublicKey peer.length = .ok () := by
    rw [sharedSecretArguments, if_neg (by simp [hshared, hprivate, hpublic, ha, hpeer]),
      if_neg (not_lt.mpr hroom), hoverlapKey, hoverlapPeer, if_neg (by decide)]
  rw [sharedSecret_eq, hchecks]
  rw [ha] at hread
  rw [hpeer] at hreadPeer
  dsimp only
  rw [hread, hreadPeer]

theorem outcome_comm (a b : List UInt8) :
    outcome a (encoding (x25519 (decodeScalar b) 9)) =
      outcome b (encoding (x25519 (decodeScalar a) 9)) := by
  rw [outcome, outcome, decodeU_encoding, decodeU_encoding,
    x25519_comm (decodeScalar_lt a) (decodeScalar_lt b)]

theorem sharedSecretArguments_invalidKey (sharedSecret sharedSecretLength privateKey privateKeyLength
    peerPublicKey peerPublicKeyLength : Nat) :
    sharedSecretArguments sharedSecret sharedSecretLength privateKey privateKeyLength peerPublicKey
      peerPublicKeyLength ≠ .error .invalidKey := by
  rw [sharedSecretArguments]
  split_ifs <;> simp

/-- The operations take canonical limbs to canonical limbs, and no word wraps in them. -/
theorem operations_exact {a b : FieldElement} (ha : Canonical a) (hb : Canonical b) :
    (∃ r, feAdd machine a b = r ∧ feAdd checked a b = some r ∧ Canonical r ∧
      residue r = residue a + residue b) ∧
    (∃ r, feSub machine a b = r ∧ feSub checked a b = some r ∧ Canonical r ∧
      residue r = residue a - residue b) ∧
    (∃ r, feMul machine a b = r ∧ feMul checked a b = some r ∧ Canonical r ∧
      residue r = residue a * residue b) ∧
    (∃ r, feMulSmall machine a x25519A24 = r ∧ feMulSmall checked a x25519A24 = some r ∧
      Canonical r ∧ residue r = residue a * a24) ∧
    (∃ r, x25519FeInvert machine a = r ∧ x25519FeInvert checked a = some r ∧ Canonical r ∧
      residue r = (residue a)⁻¹) ∧
    (feCswap a b 0 = (a, b) ∧ feCswap a b 1 = (b, a)) ∧
    ∀ input : List UInt8, input.length = 32 →
      ∃ r, feFromBytes machine input = r ∧ feFromBytes checked input = some r ∧ Canonical r ∧
        residue r = decodeU input := by
  obtain ⟨hadd, hsub, hmul⟩ := Ed25519Group.ringArithmetic_exact ha hb
  obtain ⟨x, rfl⟩ := canonical_iff.mp ha
  obtain ⟨y, rfl⟩ := canonical_iff.mp hb
  refine ⟨hadd, hsub, hmul, ?_⟩
  simp only [residue_element]
  exact ⟨⟨_, feMulSmall_element machine_exact x _, feMulSmall_element checked_exact x _,
      element_canonical _, residue_element _⟩,
    ⟨_, x25519FeInvert_element machine_exact x, x25519FeInvert_element checked_exact x,
      element_canonical _, residue_element _⟩,
    ⟨feCswap_element x y false, feCswap_element x y true⟩,
    fun input hlength => ⟨_, feFromBytes_eq machine_exact hlength, feFromBytes_eq checked_exact hlength,
      element_canonical _, residue_element _⟩⟩

/-- The code is the function of the standard: on every private key and every peer value, with the
result zero and nothing else as an invalid key, and two parties end alike. -/
theorem x25519_rfc7748 :
    (∀ privateKey peer : List UInt8, privateKey.length = 32 → peer.length = 32 →
      x25519ScalarMultiply machine privateKey peer =
        encoding (x25519 (decodeScalar privateKey) (decodeU peer)) ∧
      x25519ScalarMultiply checked privateKey peer =
        some (encoding (x25519 (decodeScalar privateKey) (decodeU peer)))) ∧
    (∀ (memory : Memory) (sharedSecret sharedSecretLength privateKey privateKeyLength peerPublicKey
        peerPublicKeyLength : Nat),
      ((cryptoX25519SharedSecretInternal sharedSecret sharedSecretLength privateKey privateKeyLength
          peerPublicKey peerPublicKeyLength memory).1 = .error .invalidKey ↔
        sharedSecretArguments sharedSecret sharedSecretLength privateKey privateKeyLength
            peerPublicKey peerPublicKeyLength = .ok () ∧
          encoding (x25519 (decodeScalar (readBytes memory privateKey 32))
            (decodeU (readBytes memory peerPublicKey 32))) = List.replicate 32 0) ∧
      (sharedSecretArguments sharedSecret sharedSecretLength privateKey privateKeyLength
          peerPublicKey peerPublicKeyLength = .ok () →
        cryptoX25519SharedSecretInternal sharedSecret sharedSecretLength privateKey privateKeyLength
            peerPublicKey peerPublicKeyLength memory = finish sharedSecret memory
          (outcome (readBytes memory privateKey 32) (readBytes memory peerPublicKey 32)))) ∧
    (∀ a b : List UInt8, a.length = 32 → b.length = 32 →
      ∃ publicA publicB result, Derives a publicA ∧ Derives b publicB ∧ Shares a publicB result ∧
        Shares b publicA result) ∧
    ∀ a b : FieldElement, Canonical a → Canonical b →
      (∃ r, feAdd machine a b = r ∧ feAdd checked a b = some r ∧ Canonical r ∧
        residue r = residue a + residue b) ∧
      (∃ r, feSub machine a b = r ∧ feSub checked a b = some r ∧ Canonical r ∧
        residue r = residue a - residue b) ∧
      (∃ r, feMul machine a b = r ∧ feMul checked a b = some r ∧ Canonical r ∧
        residue r = residue a * residue b) ∧
      (∃ r, feMulSmall machine a x25519A24 = r ∧ feMulSmall checked a x25519A24 = some r ∧
        Canonical r ∧ residue r = residue a * a24) ∧
      (∃ r, x25519FeInvert machine a = r ∧ x25519FeInvert checked a = some r ∧ Canonical r ∧
        residue r = (residue a)⁻¹) ∧
      (feCswap a b 0 = (a, b) ∧ feCswap a b 1 = (b, a)) ∧
      ∀ input : List UInt8, input.length = 32 →
        ∃ r, feFromBytes machine input = r ∧ feFromBytes checked input = some r ∧ Canonical r ∧
          residue r = decodeU input := by
  refine ⟨?_, ?_, ?_, fun a b ha hb => operations_exact ha hb⟩
  · intro privateKey peer hprivate hpeer
    exact ⟨x25519ScalarMultiply_eq machine_exact hprivate hpeer,
      x25519ScalarMultiply_eq checked_exact hprivate hpeer⟩
  · intro memory sharedSecret sharedSecretLength privateKey privateKeyLength peerPublicKey
      peerPublicKeyLength
    have hzero : encoding 0 = List.replicate 32 0 := by decide
    have hkey := sharedSecretArguments_invalidKey sharedSecret sharedSecretLength privateKey
      privateKeyLength peerPublicKey peerPublicKeyLength
    rw [sharedSecret_eq, ← hzero, encoding_injective.eq_iff]
    generalize sharedSecretArguments sharedSecret sharedSecretLength privateKey privateKeyLength
      peerPublicKey peerPublicKeyLength = checks at *
    cases checks with
    | error e => exact ⟨by simpa using hkey, fun h => nomatch h⟩
    | ok _ =>
      refine ⟨?_, fun _ => rfl⟩
      dsimp only [outcome]
      split_ifs with hresult
      · exact iff_of_true rfl ⟨rfl, hresult⟩
      · exact iff_of_false (fun h => nomatch h) fun h => hresult h.2
  · intro a b ha hb
    refine ⟨_, _, _, derives ha, derives hb, shares ha (encoding_length _), ?_⟩
    rw [outcome_comm]
    exact shares hb (encoding_length _)

theorem x25519_rfc7748_keys :
    ∃ publicA publicB result, Derives (List.replicate 32 5) publicA ∧
      Derives (List.replicate 32 7) publicB ∧ Shares (List.replicate 32 5) publicB result ∧
      Shares (List.replicate 32 7) publicA result :=
  x25519_rfc7748.2.2.1 _ _ List.length_replicate List.length_replicate

end Calls

end LiberaCrypt.X25519Correct
