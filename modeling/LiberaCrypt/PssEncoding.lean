import LiberaCrypt.ConstantTime
import LiberaCrypt.Endian
import LiberaCrypt.MemoryFill
import LiberaCrypt.Mgf1

namespace LiberaCrypt.PssEncoding

open LiberaCrypt.Outcome LiberaCrypt.BigEndian LiberaCrypt.ConstantTime LiberaCrypt.CountedLoop
open LiberaCrypt.KeystreamXor LiberaCrypt.MemoryFill LiberaCrypt.Mgf1

def rsaPssTrailer : UInt8 := 0xbc

def zeroPrefix : List UInt8 := List.replicate 8 0

def pssEncodedLength (encodedBits : Nat) : Nat :=
  encodedBits / 8 + if encodedBits % 8 ≠ 0 then 1 else 0

def allowedMask (encodedBits : Nat) : UInt8 :=
  0xff >>> UInt8.ofNat (8 * pssEncodedLength encodedBits - encodedBits)

section Operations

variable (hash : List UInt8 → Except LiberaCError (List UInt8))

/-- The steps of signing that fill `encoded`. -/
def pssEncode (hashLength encodedBits saltLength : Nat) (message : List UInt8)
    (random : Except LiberaCError (List UInt8)) : Except LiberaCError (List UInt8) := do
  let encodedLength := pssEncodedLength encodedBits
  let messageHash ← hash message
  let salt ← random
  let dataBlockLength := encodedLength - hashLength - 1
  let paddingLength := dataBlockLength - saltLength - 1
  let encoded := (List.replicate encodedLength 0).set paddingLength 1
  let encoded := copyInto encoded (paddingLength + 1) salt
  let encodedHash ← rsaHashThree hash zeroPrefix messageHash salt
  let encoded := copyInto encoded dataBlockLength encodedHash
  let masked ← rsaMgf1Xor hash (encoded.take dataBlockLength) encodedHash hashLength
  let encoded := copyInto encoded 0 masked
  let encoded := encoded.set 0 (encoded.getD 0 0 &&& allowedMask encodedBits)
  pure (encoded.set (encodedLength - 1) rsaPssTrailer)

def pssCheck (hashLength encodedBits saltLength : Nat) (message encoded : List UInt8) :
    Except LiberaCError Unit := do
  let encodedLength := pssEncodedLength encodedBits
  let dataBlockLength := encodedLength - hashLength - 1
  let encodedHash := (encoded.drop dataBlockLength).take hashLength
  let allowed := allowedMask encodedBits
  let bad := (encoded.getD 0 0 &&& ~~~allowed).toUInt32
  let bad := bad ||| (encoded.getD (encodedLength - 1) 0 ^^^ rsaPssTrailer).toUInt32
  let masked ← rsaMgf1Xor hash (encoded.take dataBlockLength) encodedHash hashLength
  let dataBlock := masked.set 0 (masked.getD 0 0 &&& allowed)
  let paddingLength := dataBlockLength - saltLength - 1
  let bad := countUp paddingLength (fun i bad => bad ||| (dataBlock.getD i 0).toUInt32) bad
  let bad := bad ||| (dataBlock.getD paddingLength 0 ^^^ 1).toUInt32
  let salt := (dataBlock.drop (paddingLength + 1)).take saltLength
  let messageHash ← hash message
  let comparisonHash ← rsaHashThree hash zeroPrefix messageHash salt
  let bad := if cryptoConstantTimeEqual encodedHash comparisonHash hashLength = false then bad ||| 1
    else bad
  if bad = 0 then pure () else .error .signatureInvalid

end Operations

section FirstByte

variable {mask : UInt8} {block stream : List UInt8}

def cutFirst (mask : UInt8) (block : List UInt8) : List UInt8 :=
  block.set 0 (block.getD 0 0 &&& mask)

@[simp] theorem cutFirst_cons (mask x : UInt8) (rest : List UInt8) :
    cutFirst mask (x :: rest) = (x &&& mask) :: rest := rfl

@[simp] theorem cutFirst_length (mask : UInt8) (block : List UInt8) :
    (cutFirst mask block).length = block.length := List.length_set ..

theorem cutFirst_cutFirst (mask : UInt8) (block : List UInt8) :
    cutFirst mask (cutFirst mask block) = cutFirst mask block := by
  cases block with
  | nil => rfl
  | cons x rest => rw [cutFirst_cons, cutFirst_cons, UInt8.and_assoc, UInt8.and_self]

theorem and_xor_and (x y mask : UInt8) :
    ((x &&& mask) ^^^ y) &&& mask = (x ^^^ y) &&& mask := by
  apply UInt8.toBitVec_inj.mp
  apply BitVec.eq_of_getLsbD_eq
  intro i hi
  simp only [UInt8.toBitVec_and, UInt8.toBitVec_xor, BitVec.getLsbD_and, BitVec.getLsbD_xor]
  cases mask.toBitVec.getLsbD i <;> simp

theorem cutFirst_twice (h : stream.length = block.length) :
    cutFirst mask (xorBytes (cutFirst mask (xorBytes block stream)) stream) =
      cutFirst mask block := by
  cases block with
  | nil => rfl
  | cons x block =>
    cases stream with
    | nil => cases h
    | cons y stream =>
      have htwice := xorBytes_twice (Nat.succ_injective h)
      change ((((x ^^^ y) &&& mask) ^^^ y) &&& mask) :: xorBytes (xorBytes block stream) stream = _
      rw [htwice, and_xor_and, UInt8.xor_assoc, UInt8.xor_self, UInt8.xor_zero]
      rfl

theorem and_not_eq_zero (x mask : UInt8) : x &&& ~~~mask = 0 ↔ x &&& mask = x := by
  rw [← UInt8.toBitVec_inj, ← UInt8.toBitVec_inj, BitVec.eq_of_getLsbD_eq_iff,
    BitVec.eq_of_getLsbD_eq_iff]
  refine forall₂_congr fun i hi => ?_
  simp only [UInt8.toBitVec_and, UInt8.toBitVec_not, BitVec.getLsbD_and, BitVec.getLsbD_not]
  cases x.toBitVec.getLsbD i <;> simp [hi]

theorem cutFirst_eq_self : cutFirst mask block = block ↔ block.getD 0 0 &&& ~~~mask = 0 := by
  cases block with
  | nil => simp [cutFirst]
  | cons x rest =>
    rw [cutFirst_cons, List.getD_cons_zero, and_not_eq_zero]
    simp

end FirstByte

section Mask

variable (encodedBits : Nat)

theorem pssEncodedLength_eq : pssEncodedLength encodedBits = (encodedBits + 7) / 8 := by
  rw [pssEncodedLength]
  split_ifs <;> omega

def unusedBits : Nat := 8 * ((encodedBits + 7) / 8) - encodedBits

theorem unusedBits_lt : unusedBits encodedBits < 8 := by
  rw [unusedBits]
  omega

theorem allowedMask_eq :
    allowedMask encodedBits = 0xff >>> UInt8.ofNat (unusedBits encodedBits) := by
  rw [allowedMask, pssEncodedLength_eq, unusedBits]

theorem allowedMask_toNat :
    (allowedMask encodedBits).toNat = 2 ^ (8 - unusedBits encodedBits) - 1 := by
  have hlt := unusedBits_lt encodedBits
  rw [allowedMask_eq]
  generalize unusedBits encodedBits = unused at hlt
  interval_cases unused <;> rfl

theorem one_allowed : 1 &&& allowedMask encodedBits = 1 := by
  have hlt := unusedBits_lt encodedBits
  rw [allowedMask_eq]
  generalize unusedBits encodedBits = unused at hlt
  interval_cases unused <;> rfl

theorem beValue_allowed {encoded : List UInt8} (hlength : encoded.length = (encodedBits + 7) / 8)
    (hfirst : encoded.getD 0 0 &&& ~~~ allowedMask encodedBits = 0) :
    beValue encoded < 2 ^ encodedBits := by
  cases encoded with
  | nil => exact Nat.two_pow_pos encodedBits
  | cons x rest =>
    have hle : x.toNat ≤ 2 ^ (8 - unusedBits encodedBits) - 1 := by
      rw [← allowedMask_toNat, ← (and_not_eq_zero x _).mp hfirst, UInt8.toNat_and]
      exact Nat.and_le_right
    have hpos := Nat.two_pow_pos (8 - unusedBits encodedBits)
    have hrest := beValue_lt rest
    have hunused := unusedBits_lt encodedBits
    have hbits : 8 - unusedBits encodedBits + 8 * rest.length = encodedBits := by
      rw [List.length_cons] at hlength
      rw [unusedBits] at hunused ⊢
      omega
    calc beValue (x :: rest) = 256 ^ rest.length * x.toNat + beValue rest := beValue_cons x rest
      _ < 256 ^ rest.length * (x.toNat + 1) := by
        rw [Nat.mul_succ]
        exact Nat.add_lt_add_left hrest _
      _ ≤ 256 ^ rest.length * 2 ^ (8 - unusedBits encodedBits) :=
        Nat.mul_le_mul_left _ (by omega)
      _ = 2 ^ encodedBits := by
        rw [show 256 = 2 ^ 8 from rfl, ← pow_mul, ← pow_add, Nat.add_comm, hbits]

end Mask

section Encoding

variable {hash : List UInt8 → Except LiberaCError (List UInt8)} {H : List UInt8 → List UInt8}
  {n encodedBits saltLength : Nat} {message messageHash salt encoded : List UInt8}

/-- Zeros, a one and the salt, in as many bytes as an encoding has before its digest. -/
def pssBlock (n encodedBits : Nat) (salt : List UInt8) : List UInt8 :=
  List.replicate ((encodedBits + 7) / 8 - salt.length - n - 2) 0 ++ 1 :: salt

def pssDigest (H : List UInt8 → List UInt8) (messageHash salt : List UInt8) : List UInt8 :=
  H (List.replicate 8 0 ++ messageHash ++ salt)

def pssEncoding (H : List UInt8 → List UInt8) (n encodedBits : Nat)
    (messageHash salt : List UInt8) : List UInt8 :=
  let digest := pssDigest H messageHash salt
  let dataBlock := pssBlock n encodedBits salt
  cutFirst (0xff >>> UInt8.ofNat (unusedBits encodedBits))
    (xorBytes dataBlock (mgf1 H n digest dataBlock.length)) ++ (digest ++ [0xbc])

/-- Some salt of the length gives the encoding. A block has a mask while the blocks of the mask can
be counted. -/
def PssEncodes (H : List UInt8 → List UInt8) (n encodedBits saltLength : Nat)
    (messageHash encoded : List UInt8) : Prop :=
  (encodedBits + 7) / 8 - n - 1 ≤ 2 ^ 32 * n ∧
    ∃ salt, salt.length = saltLength ∧ encoded = pssEncoding H n encodedBits messageHash salt

theorem pssBlock_length (h : n + salt.length + 2 ≤ (encodedBits + 7) / 8) :
    (pssBlock n encodedBits salt).length = (encodedBits + 7) / 8 - n - 1 := by
  rw [pssBlock, List.length_append, List.length_replicate, List.length_cons]
  omega

theorem copyInto_append {first old rest bytes : List UInt8} (h : bytes.length = old.length) :
    copyInto (first ++ (old ++ rest)) first.length bytes = first ++ (bytes ++ rest) := by
  rw [copyInto, List.take_left, h, ← List.length_append, ← List.append_assoc first old,
    List.drop_left, List.append_assoc]

theorem cutFirst_append {mask : UInt8} {block rest : List UInt8} (h : block ≠ []) :
    cutFirst mask (block ++ rest) = cutFirst mask block ++ rest := by
  cases block with
  | nil => exact absurd rfl h
  | cons x block => rfl

theorem pssEncode_eq (h : Hashes hash H n) (message : List UInt8)
    (hroom : n + salt.length + 2 ≤ (encodedBits + 7) / 8) :
    pssEncode hash n encodedBits salt.length message (.ok salt) =
      if 2 ^ 32 * n < (encodedBits + 7) / 8 - n - 1 then .error .messageTooLarge
      else .ok (pssEncoding H n encodedBits (H message) salt) := by
  have hblock := pssBlock_length hroom
  have hdigest : (pssDigest H (H message) salt).length = n := h.length _
  have hmgf := rsaMgf1Xor_eq h (pssBlock n encodedBits salt) (pssDigest H (H message) salt)
  have hmasked := @xorBytes_length (pssBlock n encodedBits salt) _
    (mgf1_length h (pssDigest H (H message) salt) (pssBlock n encodedBits salt).length)
  have hnonempty : xorBytes (pssBlock n encodedBits salt)
      (mgf1 H n (pssDigest H (H message) salt) (pssBlock n encodedBits salt).length) ≠ [] := by
    intro hnil
    rw [hnil, List.length_nil] at hmasked
    omega
  have hstart : copyInto ((List.replicate ((encodedBits + 7) / 8) (0 : UInt8)).set
      ((encodedBits + 7) / 8 - n - 1 - salt.length - 1) 1)
      ((encodedBits + 7) / 8 - n - 1 - salt.length - 1 + 1) salt =
      pssBlock n encodedBits salt ++ (List.replicate n 0 ++ [0]) := by
    obtain ⟨padding, hpadding⟩ := Nat.exists_eq_add_of_le hroom
    have hzeros : (encodedBits + 7) / 8 - n - 1 - salt.length - 1 = padding := by omega
    have hsplit : List.replicate ((encodedBits + 7) / 8) (0 : UInt8) =
        List.replicate padding 0 ++ 0 :: (List.replicate salt.length 0 ++
          (List.replicate n 0 ++ [0])) := by
      rw [← List.replicate_succ' (n := n), List.replicate_append_replicate, ← List.replicate_succ,
        List.replicate_append_replicate]
      congr 1
      omega
    have hmarked : (List.replicate padding (0 : UInt8) ++ 0 :: (List.replicate salt.length 0 ++
        (List.replicate n 0 ++ [0]))).set padding 1 = (List.replicate padding 0 ++ [1]) ++
          (List.replicate salt.length 0 ++ (List.replicate n 0 ++ [0])) := by
      rw [List.set_append_right _ _ (by simp)]
      simp
    have hcopy := @copyInto_append (List.replicate padding 0 ++ [1])
      (List.replicate salt.length 0) (List.replicate n 0 ++ [0]) salt List.length_replicate.symm
    rw [List.length_append, List.length_replicate, List.length_singleton] at hcopy
    rw [hzeros, hsplit, hmarked, hcopy, pssBlock,
      show (encodedBits + 7) / 8 - salt.length - n - 2 = padding by omega]
    simp
  have hhashed : hash (zeroPrefix ++ H message ++ salt) = .ok (pssDigest H (H message) salt) :=
    h.hashed _
  unfold pssEncode
  dsimp only [bind, Except.bind]
  rw [h.hashed, pssEncodedLength_eq]
  dsimp only
  rw [hstart, rsaHashThree, hhashed]
  dsimp only
  rw [← hblock, copyInto_append (hdigest.trans List.length_replicate.symm), List.take_left, hmgf]
  split_ifs with hlong
  · rfl
  · have hcopy := @copyInto_append [] _ (pssDigest H (H message) salt ++ [0]) _ hmasked
    have hcut := @cutFirst_append (allowedMask encodedBits) _ (pssDigest H (H message) salt ++ [0])
      hnonempty
    rw [List.nil_append, List.nil_append, List.length_nil] at hcopy
    dsimp only
    change Except.ok ((cutFirst (allowedMask encodedBits) (copyInto _ 0 _)).set _ _) = _
    rw [hcopy, hcut, pssEncoding, allowedMask_eq]
    generalize hrest : cutFirst (0xff >>> UInt8.ofNat (unusedBits encodedBits))
      (xorBytes (pssBlock n encodedBits salt)
        (mgf1 H n (pssDigest H (H message) salt) (pssBlock n encodedBits salt).length)) = cut
    have hlength : (cut ++ pssDigest H (H message) salt).length = (encodedBits + 7) / 8 - 1 := by
      rw [List.length_append, ← hrest, cutFirst_length, hmasked, hdigest]
      omega
    rw [← List.append_assoc, ← List.append_assoc, List.set_append_right _ _ hlength.le, hlength,
      Nat.sub_self]
    rfl

theorem pssEncoding_length (h : Hashes hash H n)
    (hroom : n + salt.length + 2 ≤ (encodedBits + 7) / 8) :
    (pssEncoding H n encodedBits messageHash salt).length = (encodedBits + 7) / 8 := by
  have hblock := pssBlock_length hroom
  have hdigest : (pssDigest H messageHash salt).length = n := h.length _
  rw [pssEncoding, List.length_append, List.length_append, cutFirst_length,
    xorBytes_length (mgf1_length h _ _), hdigest, List.length_singleton]
  omega

theorem PssEncodes.shape (h : Hashes hash H n)
    (hroom : n + saltLength + 2 ≤ (encodedBits + 7) / 8)
    (hencodes : PssEncodes H n encodedBits saltLength messageHash encoded) :
    encoded.length = (encodedBits + 7) / 8 ∧ beValue encoded < 2 ^ encodedBits := by
  obtain ⟨-, salt, rfl, rfl⟩ := hencodes
  have hlength := @pssEncoding_length hash H n encodedBits messageHash salt h hroom
  have hblock := pssBlock_length hroom
  have hmasked := @xorBytes_length (pssBlock n encodedBits salt) _
    (mgf1_length h (pssDigest H messageHash salt) (pssBlock n encodedBits salt).length)
  refine ⟨hlength, beValue_allowed encodedBits hlength ?_⟩
  rw [← cutFirst_eq_self, allowedMask_eq]
  have hnonempty : cutFirst (0xff >>> UInt8.ofNat (unusedBits encodedBits))
      (xorBytes (pssBlock n encodedBits salt) (mgf1 H n (pssDigest H messageHash salt)
        (pssBlock n encodedBits salt).length)) ≠ [] := by
    apply List.ne_nil_of_length_pos
    rw [cutFirst_length]
    omega
  rw [pssEncoding, cutFirst_append hnonempty, cutFirst_cutFirst]

/-- Bytes of the length of an encoding are a block, a digest and a last byte. -/
theorem split_encoded (hlength : encoded.length = (encodedBits + 7) / 8)
    (hroom : n + saltLength + 2 ≤ (encodedBits + 7) / 8) :
    ∃ block digest trailer, encoded = block ++ (digest ++ [trailer]) ∧
      block.length = (encodedBits + 7) / 8 - n - 1 ∧ digest.length = n := by
  have hrest : (encoded.drop ((encodedBits + 7) / 8 - n - 1)).length = n + 1 := by
    rw [List.length_drop]
    omega
  obtain ⟨trailer, htrailer⟩ : ∃ trailer,
      (encoded.drop ((encodedBits + 7) / 8 - n - 1)).drop n = [trailer] := by
    apply List.length_eq_one_iff.mp
    rw [List.length_drop, hrest]
    omega
  refine ⟨encoded.take ((encodedBits + 7) / 8 - n - 1),
    (encoded.drop ((encodedBits + 7) / 8 - n - 1)).take n, trailer, ?_, ?_, ?_⟩
  · rw [← htrailer, List.take_append_drop, List.take_append_drop]
  · rw [List.length_take]
    omega
  · rw [List.length_take, hrest]
    omega

theorem padding_zero (block : List UInt8) (bad : UInt32) (k : Nat) :
    countUp k (fun i bad => bad ||| (block.getD i 0).toUInt32) bad = 0 ↔
      bad = 0 ∧ ∀ i < k, block.getD i 0 = 0 := by
  induction k with
  | zero => simp [countUp]
  | succ k ih =>
    rw [countUp_succ, UInt32.or_eq_zero_iff, ih, byte_eq_zero, and_assoc]
    refine and_congr_right fun _ => ?_
    constructor
    · rintro ⟨hbefore, hlast⟩ i hi
      rcases Nat.lt_succ_iff_lt_or_eq.mp hi with hlt | rfl
      · exact hbefore i hlt
      · exact hlast
    · exact fun hall => ⟨fun i hi => hall i (Nat.lt_succ_of_lt hi), hall k (Nat.lt_succ_self k)⟩

/-- A block is zeros, a one and what follows where each of its first bytes is as it should be. -/
theorem block_eq_iff {block : List UInt8} {padding : Nat} (h : padding < block.length) :
    ((∀ i < padding, block.getD i 0 = 0) ∧ block.getD padding 0 = 1) ↔
      block = List.replicate padding 0 ++ 1 :: block.drop (padding + 1) := by
  constructor
  · rintro ⟨hzeros, hone⟩
    have htake : block.take padding = List.replicate padding 0 := by
      rw [List.eq_replicate_iff]
      refine ⟨by rw [List.length_take]; omega, fun byte hbyte => ?_⟩
      obtain ⟨i, hi, rfl⟩ := List.getElem_of_mem hbyte
      rw [List.length_take] at hi
      have hbyte := hzeros i (by omega)
      rw [List.getD_eq_getElem _ _ (by omega)] at hbyte
      rw [List.getElem_take, hbyte]
    rw [List.getD_eq_getElem _ _ h] at hone
    rw [← htake, ← hone, ← List.drop_eq_getElem_cons h, List.take_append_drop]
  · intro heq
    have hlength : (List.replicate padding (0 : UInt8)).length = padding := List.length_replicate
    constructor
    · intro i hi
      rw [heq, List.getD_append _ _ _ _ (by rwa [hlength]), List.getD_replicate _ hi]
    · rw [heq, List.getD_append_right _ _ _ _ hlength.le, hlength, Nat.sub_self,
        List.getD_cons_zero]

def pssFailure (n encodedBits : Nat) : LiberaCError :=
  if (encodedBits + 7) / 8 - n - 1 ≤ 2 ^ 32 * n then .signatureInvalid else .messageTooLarge

def openedBlock (H : List UInt8 → List UInt8) (n encodedBits : Nat) (block digest : List UInt8) :
    List UInt8 :=
  cutFirst (allowedMask encodedBits) (xorBytes block (mgf1 H n digest block.length))

theorem openedBlock_length (h : Hashes hash H n) (block digest : List UInt8) :
    (openedBlock H n encodedBits block digest).length = block.length := by
  rw [openedBlock, cutFirst_length, xorBytes_length (mgf1_length h _ _)]

theorem cutFirst_pssBlock (salt : List UInt8) :
    cutFirst (allowedMask encodedBits) (pssBlock n encodedBits salt) =
      pssBlock n encodedBits salt := by
  rw [pssBlock]
  cases (encodedBits + 7) / 8 - salt.length - n - 2 with
  | zero => exact congrArg (· :: salt) (one_allowed encodedBits)
  | succ zeros => exact congrArg (· :: _) UInt8.zero_and

theorem pssEncodes_iff (h : Hashes hash H n) {block digest : List UInt8} {trailer : UInt8}
    (hroom : n + saltLength + 2 ≤ (encodedBits + 7) / 8)
    (hblock : block.length = (encodedBits + 7) / 8 - n - 1) (hdigest : digest.length = n) :
    let dataBlock := openedBlock H n encodedBits block digest
    let padding := (encodedBits + 7) / 8 - n - 1 - saltLength - 1
    PssEncodes H n encodedBits saltLength messageHash (block ++ (digest ++ [trailer])) ↔
      (encodedBits + 7) / 8 - n - 1 ≤ 2 ^ 32 * n ∧
        block.getD 0 0 &&& ~~~ allowedMask encodedBits = 0 ∧ trailer = rsaPssTrailer ∧
        dataBlock = List.replicate padding 0 ++ 1 :: dataBlock.drop (padding + 1) ∧
        digest = pssDigest H messageHash (dataBlock.drop (padding + 1)) := by
  intro dataBlock padding
  have hopened : dataBlock.length = block.length := openedBlock_length h block digest
  refine and_congr_right fun _ => ?_
  constructor
  · rintro ⟨salt, hsalt, heq⟩
    rw [pssEncoding, ← allowedMask_eq] at heq
    have hpss := @pssBlock_length n encodedBits salt (hsalt ▸ hroom)
    have hmask := mgf1_length h (pssDigest H messageHash salt) (pssBlock n encodedBits salt).length
    obtain ⟨hmasked, hrest⟩ := List.append_inj heq (by
      rw [hblock, cutFirst_length, xorBytes_length hmask, hpss])
    obtain ⟨hsame, htrailer⟩ := List.append_inj hrest (hdigest.trans (h.length _).symm)
    have hdata : dataBlock = pssBlock n encodedBits salt := by
      change cutFirst _ (xorBytes block (mgf1 H n digest block.length)) = _
      rw [hblock, ← hpss, hmasked, hsame, cutFirst_twice hmask, cutFirst_pssBlock]
    have hzeros : (encodedBits + 7) / 8 - salt.length - n - 2 = padding := by
      change _ = (encodedBits + 7) / 8 - n - 1 - saltLength - 1
      omega
    have hdrop : dataBlock.drop (padding + 1) = salt := by
      rw [hdata, pssBlock, hzeros, List.drop_append, List.length_replicate,
        List.drop_eq_nil_of_le (by simp), Nat.add_sub_cancel_left]
      rfl
    refine ⟨?_, List.singleton_inj.mp htrailer, ?_, ?_⟩
    · rw [← cutFirst_eq_self, hmasked]
      exact cutFirst_cutFirst _ _
    · rw [hdrop, hdata, pssBlock, hzeros]
    · rw [hdrop, hsame]
  · rintro ⟨hfirst, rfl, hdata, hsame⟩
    have hlength : (dataBlock.drop (padding + 1)).length = saltLength := by
      rw [List.length_drop, hopened, hblock]
      change _ - ((encodedBits + 7) / 8 - n - 1 - saltLength - 1 + 1) = _
      omega
    refine ⟨dataBlock.drop (padding + 1), hlength, ?_⟩
    have hpss : pssBlock n encodedBits (dataBlock.drop (padding + 1)) = dataBlock := by
      rw [pssBlock, hlength]
      conv => rhs; rw [hdata]
      congr 2
      change _ = (encodedBits + 7) / 8 - n - 1 - saltLength - 1
      omega
    rw [pssEncoding, ← allowedMask_eq, hpss, ← hsame, hopened]
    change _ = cutFirst _ (xorBytes (cutFirst _ (xorBytes block _)) _) ++ _
    rw [cutFirst_twice (mgf1_length h _ _), cutFirst_eq_self.mpr hfirst]
    rfl

def pssBad (H : List UInt8 → List UInt8) (n encodedBits saltLength : Nat)
    (messageHash block digest : List UInt8) (trailer : UInt8) : UInt32 :=
  let dataBlock := openedBlock H n encodedBits block digest
  let padding := (encodedBits + 7) / 8 - n - 1 - saltLength - 1
  let bad := (block.getD 0 0 &&& ~~~allowedMask encodedBits).toUInt32 |||
    (trailer ^^^ rsaPssTrailer).toUInt32
  let bad := countUp padding (fun i bad => bad ||| (dataBlock.getD i 0).toUInt32) bad |||
    (dataBlock.getD padding 0 ^^^ 1).toUInt32
  let salt := (dataBlock.drop (padding + 1)).take saltLength
  if cryptoConstantTimeEqual digest (pssDigest H messageHash salt) n = false then bad ||| 1 else bad

theorem pssBad_eq_zero (h : Hashes hash H n) {block digest : List UInt8} {trailer : UInt8}
    (hroom : n + saltLength + 2 ≤ (encodedBits + 7) / 8)
    (hblock : block.length = (encodedBits + 7) / 8 - n - 1) (hdigest : digest.length = n) :
    let dataBlock := openedBlock H n encodedBits block digest
    let padding := (encodedBits + 7) / 8 - n - 1 - saltLength - 1
    pssBad H n encodedBits saltLength messageHash block digest trailer = 0 ↔
      block.getD 0 0 &&& ~~~ allowedMask encodedBits = 0 ∧ trailer = rsaPssTrailer ∧
        dataBlock = List.replicate padding 0 ++ 1 :: dataBlock.drop (padding + 1) ∧
        digest = pssDigest H messageHash (dataBlock.drop (padding + 1)) := by
  intro dataBlock padding
  have hopened : dataBlock.length = block.length := openedBlock_length h block digest
  have hpadding : padding < dataBlock.length := by
    rw [hopened, hblock]
    change (encodedBits + 7) / 8 - n - 1 - saltLength - 1 < _
    omega
  have hcomparison : (pssDigest H messageHash (dataBlock.drop (padding + 1))).length = n :=
    h.length _
  have hequal := cryptoConstantTimeEqual_take digest hcomparison hdigest.ge
  rw [List.take_of_length_le hdigest.le] at hequal
  have hparts : (countUp padding (fun i bad => bad ||| (dataBlock.getD i 0).toUInt32)
        ((block.getD 0 0 &&& ~~~allowedMask encodedBits).toUInt32 |||
          (trailer ^^^ rsaPssTrailer).toUInt32) |||
      (dataBlock.getD padding 0 ^^^ 1).toUInt32) = 0 ↔
        (block.getD 0 0 &&& ~~~ allowedMask encodedBits = 0 ∧ trailer = rsaPssTrailer) ∧
        dataBlock = List.replicate padding 0 ++ 1 :: dataBlock.drop (padding + 1) := by
    rw [UInt32.or_eq_zero_iff, padding_zero, UInt32.or_eq_zero_iff, byte_eq_zero, xor_eq_zero,
      xor_eq_zero, ← block_eq_iff hpadding]
    tauto
  have hsalt : (dataBlock.drop (padding + 1)).take saltLength = dataBlock.drop (padding + 1) := by
    apply List.take_of_length_le
    rw [List.length_drop, hopened, hblock]
    change _ - ((encodedBits + 7) / 8 - n - 1 - saltLength - 1 + 1) ≤ _
    omega
  have hbad : pssBad H n encodedBits saltLength messageHash block digest trailer =
      let bad := countUp padding (fun i bad => bad ||| (dataBlock.getD i 0).toUInt32)
        ((block.getD 0 0 &&& ~~~allowedMask encodedBits).toUInt32 |||
          (trailer ^^^ rsaPssTrailer).toUInt32) ||| (dataBlock.getD padding 0 ^^^ 1).toUInt32
      if cryptoConstantTimeEqual digest
        (pssDigest H messageHash ((dataBlock.drop (padding + 1)).take saltLength)) n = false then
        bad ||| 1
      else bad := rfl
  rw [← and_assoc, ← and_assoc, ← hparts, ← hequal, hbad, hsalt]
  dsimp only
  by_cases hcheck : cryptoConstantTimeEqual digest
    (pssDigest H messageHash (dataBlock.drop (padding + 1))) n = false
  · rw [if_pos hcheck]
    refine iff_of_false (fun hbad => ?_) fun hboth => ?_
    · exact absurd (UInt32.or_eq_zero_iff.mp hbad).2 (by decide)
    · exact Bool.false_ne_true (hcheck.symm.trans hboth.2)
  · rw [if_neg hcheck]
    exact (and_iff_left (Bool.eq_true_of_not_eq_false hcheck)).symm

theorem pssCheck_cases (h : Hashes hash H n) (message : List UInt8)
    (hlength : encoded.length = (encodedBits + 7) / 8)
    (hroom : n + saltLength + 2 ≤ (encodedBits + 7) / 8) :
    (PssEncodes H n encodedBits saltLength (H message) encoded ∧
      pssCheck hash n encodedBits saltLength message encoded = .ok ()) ∨
    (¬ PssEncodes H n encodedBits saltLength (H message) encoded ∧
      pssCheck hash n encodedBits saltLength message encoded =
        .error (pssFailure n encodedBits)) := by
  obtain ⟨block, digest, trailer, rfl, hblock, hdigest⟩ := split_encoded hlength hroom
  have hiff : PssEncodes H n encodedBits saltLength (H message) (block ++ (digest ++ [trailer])) ↔
      (encodedBits + 7) / 8 - n - 1 ≤ 2 ^ 32 * n ∧
        pssBad H n encodedBits saltLength (H message) block digest trailer = 0 :=
    (pssEncodes_iff h hroom hblock hdigest).trans
      (and_congr_right fun _ => (pssBad_eq_zero h hroom hblock hdigest).symm)
  have hopened := @openedBlock_length hash H n encodedBits h block digest
  have htake : (block ++ (digest ++ [trailer])).take ((encodedBits + 7) / 8 - n - 1) = block :=
    List.take_left' hblock
  have hhash : ((block ++ (digest ++ [trailer])).drop ((encodedBits + 7) / 8 - n - 1)).take n =
      digest := by
    rw [List.drop_left' hblock, List.take_left' hdigest]
  have hfirst : (block ++ (digest ++ [trailer])).getD 0 0 = block.getD 0 0 := by
    rw [List.getD_append _ _ _ _ (by omega)]
  have hlast : (block ++ (digest ++ [trailer])).getD ((encodedBits + 7) / 8 - 1) 0 = trailer := by
    have hbefore : (block ++ digest).length = (encodedBits + 7) / 8 - 1 := by
      rw [List.length_append]
      omega
    rw [← List.append_assoc, List.getD_append_right _ _ _ _ hbefore.le, hbefore, Nat.sub_self,
      List.getD_cons_zero]
  have hmgf := rsaMgf1Xor_eq h block digest
  rw [hblock] at hmgf
  rw [pssFailure]
  by_cases hmask : (encodedBits + 7) / 8 - n - 1 ≤ 2 ^ 32 * n
  case neg =>
    rw [if_pos (not_le.mp hmask)] at hmgf
    refine Or.inr ⟨fun hencodes => hmask hencodes.1, ?_⟩
    unfold pssCheck
    dsimp only [bind, Except.bind]
    rw [pssEncodedLength_eq, htake, hhash, hmgf, if_neg hmask]
  rw [if_neg (not_lt.mpr hmask), ← hblock] at hmgf
  rw [if_pos hmask, hiff]
  have hcheck : pssCheck hash n encodedBits saltLength message (block ++ (digest ++ [trailer])) =
      if pssBad H n encodedBits saltLength (H message) block digest trailer = 0 then .ok ()
      else .error .signatureInvalid := by
    unfold pssCheck
    dsimp only [bind, Except.bind]
    rw [pssEncodedLength_eq, htake, hhash, hmgf, hfirst, hlast]
    dsimp only
    rw [h.hashed]
    dsimp only
    rw [rsaHashThree, h.hashed]
    dsimp only
    rfl
  rw [hcheck]
  split_ifs with hbad
  · exact Or.inl ⟨⟨hmask, hbad⟩, rfl⟩
  · exact Or.inr ⟨fun hboth => hbad hboth.2, rfl⟩

end Encoding

end LiberaCrypt.PssEncoding
