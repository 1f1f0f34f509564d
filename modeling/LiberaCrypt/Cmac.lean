import LiberaCrypt.AesBlock
import LiberaCrypt.BlockXor
import LiberaCrypt.Hmac
import LiberaCrypt.TripleDes

namespace LiberaCrypt.Cmac

open LiberaCrypt.AesAead LiberaCrypt.AesBlock LiberaCrypt.BigEndian LiberaCrypt.BlockXor
open LiberaCrypt.ConstantTime LiberaCrypt.Def LiberaCrypt.Endian LiberaCrypt.Hmac
open LiberaCrypt.MemoryFill LiberaCrypt.Outcome LiberaCrypt.TripleDes

inductive CmacCipherFamily
  | aes
  | tdes
  deriving DecidableEq

structure CmacParameters where
  blockLength : Nat
  keyLength : Nat
  reductionConstant : UInt8
  family : CmacCipherFamily
  blockLength_pos : 0 < blockLength

def cmacParameters : LiberaCAlgID → Except LiberaCError CmacParameters
  | .aes128Ecb => .ok ⟨16, 16, 0x87, .aes, Nat.zero_lt_succ _⟩
  | .aes192Ecb => .ok ⟨16, 24, 0x87, .aes, Nat.zero_lt_succ _⟩
  | .aes256Ecb => .ok ⟨16, 32, 0x87, .aes, Nat.zero_lt_succ _⟩
  | .tdesEde3Ecb => .ok ⟨8, 24, 0x1b, .tdes, Nat.zero_lt_succ _⟩
  | _ => .error .invalidAlgId

/-- From the last byte to the first: the bytes written, and the carry out of them. -/
def shiftLeftOne : List UInt8 → List UInt8 × UInt8
  | [] => ([], 0)
  | value :: rest =>
    let (output, carry) := shiftLeftOne rest
    (((value <<< 1) ||| carry) :: output, value >>> 7)

def cmacDouble (input : List UInt8) (blockLength : Nat) (reductionConstant : UInt8) :
    List UInt8 :=
  let mostSignificantBit := input.getD 0 0 >>> 7
  let output := (shiftLeftOne (input.take blockLength)).1
  output.set (blockLength - 1)
    (output.getD (blockLength - 1) 0 ^^^ (reductionConstant &&& (0 - mostSignificantBit)))

def cmacXorBlock (left right : List UInt8) (blockLength : Nat) : List UInt8 :=
  (List.range blockLength).map fun index => left.getD index 0 ^^^ right.getD index 0

/-- What is set up under a key: the block functions of the two families. -/
abbrev CmacCipher := CmacCipherFamily → List UInt8 → Except LiberaCError BlockFunction

/-- The loop over the blocks before the last: the state, and what is left of the message. -/
def cmacChain (encryptBlock : BlockFunction) (parameters : CmacParameters)
    (state cursor : List UInt8) : Except LiberaCError (List UInt8 × List UInt8) :=
  if parameters.blockLength < cursor.length then do
    let state ← encryptBlock (cmacXorBlock state cursor parameters.blockLength)
    cmacChain encryptBlock parameters state (cursor.drop parameters.blockLength)
  else .ok (state, cursor)
termination_by cursor.length
decreasing_by
  have := parameters.blockLength_pos
  rw [List.length_drop]
  omega

def cmacLastBlock (parameters : CmacParameters) (subkey1 subkey2 cursor : List UInt8) :
    List UInt8 :=
  let lastBlock := copyInto (List.replicate parameters.blockLength 0) 0 cursor
  if cursor.length = parameters.blockLength then
    cmacXorBlock lastBlock subkey1 parameters.blockLength
  else cmacXorBlock (lastBlock.set cursor.length 0x80) subkey2 parameters.blockLength

def cmacState (encryptBlock : BlockFunction) (parameters : CmacParameters)
    (message : List UInt8) : Except LiberaCError (List UInt8) := do
  let zero := List.replicate parameters.blockLength 0
  let work ← encryptBlock zero
  let subkey1 := cmacDouble work parameters.blockLength parameters.reductionConstant
  let subkey2 := cmacDouble subkey1 parameters.blockLength parameters.reductionConstant
  let (state, cursor) ← cmacChain encryptBlock parameters zero message
  encryptBlock (cmacXorBlock state (cmacLastBlock parameters subkey1 subkey2 cursor)
    parameters.blockLength)

/-- The bytes that are written to `TAG`. `key` is `none` for NULL. -/
def liberacCmac (cipher : CmacCipher) (tagNull : Bool) (tagCapacity tagLength : Nat)
    (message : InputBytes) (key : Option (List UInt8)) (alg : LiberaCAlgID) :
    Except LiberaCError (List UInt8) := do
  let parameters ← cmacParameters alg
  match key with
  | none => .error .invalidArgument
  | some key =>
    if tagLength = 0 ∨ parameters.blockLength < tagLength ∨ tagNull ∨ message.missing then
      .error .invalidArgument
    else if tagCapacity < tagLength then .error .bufferTooSmall
    else if key.length ≠ parameters.keyLength then .error .invalidKey
    else do
      let encryptBlock ← cipher parameters.family key
      let state ← cmacState encryptBlock parameters message.data
      return state.take tagLength

/-- `tag` is `none` for NULL. -/
def liberacCmacVerify (cipher : CmacCipher) (tag : Option (List UInt8)) (message : InputBytes)
    (key : Option (List UInt8)) (alg : LiberaCAlgID) : Except LiberaCError Unit :=
  match tag with
  | none => .error .invalidArgument
  | some tag => do
    let written ← liberacCmac cipher false 16 tag.length message key alg
    let expected := copyInto (List.replicate 16 0) 0 written
    if cryptoConstantTimeEqual expected tag tag.length then .ok ()
    else .error .authenticationFailed

def cmacCipher : CmacCipher
  | .aes, key => (cryptoAesContextInit key).map cryptoAesEncryptBlock
  | .tdes, key => .ok fun input =>
    .ok (store64Be (tripleDesBlock (load64Be input) (scheduleKeys key) true))

/-- The constant that SP 800-38B gives for blocks of `b` bytes. -/
def constantRb (b : Nat) : Nat := if b = 16 then 0x87 else 0x1b

/-- The block shifted by one bit, and reduced when a bit has been shifted out. -/
def double (b x : Nat) : Nat :=
  if x < 2 ^ (8 * b - 1) then 2 * x else 2 * x % 2 ^ (8 * b) ^^^ constantRb b

def blockCount (b : Nat) (message : List UInt8) : Nat := max 1 ((message.length + b - 1) / b)

def messageBlock (b : Nat) (message : List UInt8) (i : Nat) : List UInt8 :=
  (message.drop (b * i)).take b

/-- CMAC of SP 800-38B under a block function on blocks of `b` bytes, before it is truncated. -/
def cmac (encrypt : List UInt8 → List UInt8) (b : Nat) (message : List UInt8) : List UInt8 :=
  let k1 := double b (beValue (encrypt (List.replicate b 0)))
  let k2 := double b k1
  let n := blockCount b message
  let last := messageBlock b message (n - 1)
  let mn := if last.length = b then xorBlocks last (bigEndian b k1)
    else xorBlocks (last ++ [0x80] ++ List.replicate (b - 1 - last.length) 0) (bigEndian b k2)
  let c := (List.range (n - 1)).foldl
    (fun c i => encrypt (xorBlocks c (messageBlock b message i))) (List.replicate b 0)
  encrypt (xorBlocks c mn)

theorem shiftLeftOne_length (input : List UInt8) : (shiftLeftOne input).1.length = input.length := by
  induction input with
  | nil => rfl
  | cons value rest ih => rw [shiftLeftOne, List.length_cons, ih, List.length_cons]

theorem shifted_toNat (value carry : UInt8) (hcarry : carry.toNat < 2) :
    ((value <<< 1) ||| carry).toNat + 256 * (value >>> 7).toNat = 2 * value.toNat + carry.toNat := by
  have hvalue := value.toNat_lt
  have hshifted : (value <<< 1).toNat = value.toNat % 2 ^ 7 * 2 ^ 1 := by
    rw [UInt8.toNat_shiftLeft, Nat.shiftLeft_eq]
    change value.toNat * 2 ^ 1 % 2 ^ 8 = _
    omega
  have hhigh : (value >>> 7).toNat = value.toNat / 2 ^ 7 := by
    rw [UInt8.toNat_shiftRight, Nat.shiftRight_eq_div_pow]
    rfl
  rw [UInt8.toNat_or, hshifted, Nat.mul_comm, ← Nat.two_pow_add_eq_or_of_lt hcarry, hhigh]
  omega

/-- What is written, and the bit that is carried out, are twice the number. -/
theorem shiftLeftOne_value (input : List UInt8) :
    beValue (shiftLeftOne input).1 + 256 ^ input.length * (shiftLeftOne input).2.toNat =
      2 * beValue input ∧ (shiftLeftOne input).2.toNat < 2 := by
  induction input with
  | nil => exact ⟨rfl, by decide⟩
  | cons value rest ih =>
    obtain ⟨hvalue, hcarry⟩ := ih
    have hbyte := shifted_toNat value (shiftLeftOne rest).2 hcarry
    constructor
    · change beValue (((value <<< 1) ||| (shiftLeftOne rest).2) :: (shiftLeftOne rest).1) +
        256 ^ (rest.length + 1) * (value >>> 7).toNat = _
      rw [beValue_cons, beValue_cons, shiftLeftOne_length]
      calc 256 ^ rest.length * ((value <<< 1) ||| (shiftLeftOne rest).2).toNat +
            beValue (shiftLeftOne rest).1 + 256 ^ (rest.length + 1) * (value >>> 7).toNat
          = 256 ^ rest.length * (((value <<< 1) ||| (shiftLeftOne rest).2).toNat +
              256 * (value >>> 7).toNat) + beValue (shiftLeftOne rest).1 := by ring
        _ = 2 * (256 ^ rest.length * value.toNat) + (beValue (shiftLeftOne rest).1 +
              256 ^ rest.length * (shiftLeftOne rest).2.toNat) := by rw [hbyte]; ring
        _ = 2 * (256 ^ rest.length * value.toNat + beValue rest) := by rw [hvalue]; ring
    · change (value >>> 7).toNat < 2
      have hlt := value.toNat_lt
      rw [UInt8.toNat_shiftRight, Nat.shiftRight_eq_div_pow]
      change value.toNat / 2 ^ 7 < 2
      omega

theorem beValue_set_last {output : List UInt8} {b : Nat} (houtput : output.length = b) (hb : 0 < b)
    (r : UInt8) :
    beValue (output.set (b - 1) (output.getD (b - 1) 0 ^^^ r)) = beValue output ^^^ r.toNat := by
  obtain ⟨front, last, rfl⟩ : ∃ front last, output = front ++ [last] :=
    ⟨_, _, (List.dropLast_concat_getLast (List.ne_nil_of_length_pos (by omega))).symm⟩
  have hfront : b - 1 = front.length := by
    rw [← houtput, List.length_append, List.length_singleton, Nat.add_sub_cancel]
  rw [hfront, List.getD_append_right _ _ _ _ (le_refl _), List.set_append_right _ _ (le_refl _),
    Nat.sub_self]
  exact beValue_append_xor front last r

theorem shiftLeftOne_carry {input : List UInt8} (h : 0 < input.length) :
    (shiftLeftOne input).2 = input.getD 0 0 >>> 7 := by
  cases input with
  | nil => exact absurd h (lt_irrefl 0)
  | cons value rest => rfl

@[simp] theorem cmacDouble_length {input : List UInt8} {b : Nat} (hinput : input.length = b)
    (constant : UInt8) : (cmacDouble input b constant).length = b := by
  rw [cmacDouble, List.length_set, shiftLeftOne_length, List.length_take, hinput, Nat.min_self]

theorem cmacDouble_value {input : List UInt8} {b : Nat} (hinput : input.length = b) (hb : 0 < b)
    {constant : UInt8} (hconstant : constant.toNat = constantRb b) :
    beValue (cmacDouble input b constant) = double b (beValue input) := by
  obtain ⟨hvalue, hcarry⟩ := shiftLeftOne_value input
  have hbit := shiftLeftOne_carry (hinput ▸ hb)
  have hlength : (shiftLeftOne input).1.length = b := (shiftLeftOne_length input).trans hinput
  have hlt := beValue_lt (shiftLeftOne input).1
  have hpow : 2 ^ (8 * b) = 256 ^ b := by
    rw [pow_mul]
    rfl
  have hhalf : 2 * 2 ^ (8 * b - 1) = 256 ^ b := by
    rw [← pow_succ', Nat.sub_add_cancel (by omega), hpow]
  rw [hlength] at hlt
  rw [hinput] at hvalue
  rw [cmacDouble, List.take_of_length_le hinput.le, beValue_set_last hlength hb, ← hbit, double, hpow]
  rcases bit_cases hcarry with hzero | hone
  · rw [hzero] at hvalue ⊢
    rw [if_pos (by simp at hvalue; omega)]
    simpa using hvalue
  · rw [hone] at hvalue ⊢
    have hvalue : beValue (shiftLeftOne input).1 + 256 ^ b = 2 * beValue input := by
      rw [← hvalue]
      exact congrArg _ (Nat.mul_one _).symm
    have hmask : constant &&& (0 - 1) = constant := UInt8.and_neg_one
    rw [if_neg (by omega), hmask, hconstant, ← hvalue, Nat.add_mod_right, Nat.mod_eq_of_lt hlt]

theorem cmacDouble_eq {input : List UInt8} {b : Nat} (hinput : input.length = b) (hb : 0 < b)
    {constant : UInt8} (hconstant : constant.toNat = constantRb b) :
    cmacDouble input b constant = bigEndian b (double b (beValue input)) := by
  have hbytes := bigEndian_beValue (cmacDouble input b constant)
  rw [cmacDouble_length hinput, cmacDouble_value hinput hb hconstant] at hbytes
  exact hbytes.symm

theorem cmacXorBlock_eq {left right : List UInt8} {b : Nat} (hleft : left.length = b)
    (hright : b ≤ right.length) : cmacXorBlock left right b = xorBlocks left (right.take b) := by
  apply List.ext_getElem
  · simp [cmacXorBlock, xorBlocks, hleft, hright]
  · intro i hi hi'
    have hib : i < b := by simpa [cmacXorBlock] using hi
    simp only [cmacXorBlock, xorBlocks, List.getElem_map, List.getElem_range, List.getElem_zipWith,
      List.getElem_take]
    rw [List.getD_eq_getElem _ _ (by omega), List.getD_eq_getElem _ _ (by omega)]

@[simp] theorem cmacXorBlock_length (left right : List UInt8) (b : Nat) :
    (cmacXorBlock left right b).length = b := by
  rw [cmacXorBlock, List.length_map, List.length_range]

section Blocks

variable {b : Nat} {message : List UInt8}

theorem blockCount_short (h : message.length ≤ b) : blockCount b message = 1 := by
  apply max_eq_left
  by_cases hb : b = 0
  · rw [hb, Nat.div_zero]
    exact Nat.zero_le 1
  · apply Nat.lt_succ_iff.mp
    rw [Nat.div_lt_iff_lt_mul (Nat.pos_of_ne_zero hb)]
    omega

theorem blockCount_long (hb : 0 < b) (h : b < message.length) :
    blockCount b message = blockCount b (message.drop b) + 1 := by
  have hcount : (message.length + b - 1) / b = ((message.drop b).length + b - 1) / b + 1 := by
    rw [List.length_drop, ← Nat.add_div_right _ hb]
    congr 1
    omega
  have hrest : 1 ≤ ((message.drop b).length + b - 1) / b := by
    rw [List.length_drop, Nat.one_le_div_iff hb]
    omega
  rw [blockCount, blockCount, hcount, max_eq_right hrest, max_eq_right (by omega)]

theorem messageBlock_succ (i : Nat) :
    messageBlock b message (i + 1) = messageBlock b (message.drop b) i := by
  rw [messageBlock, messageBlock, List.drop_drop, Nat.mul_succ, Nat.add_comm]

end Blocks

def Encrypts (encryptBlock : BlockFunction) (b : Nat) (encrypt : List UInt8 → List UInt8) : Prop :=
  ∀ block : List UInt8, block.length = b →
    encryptBlock block = .ok (encrypt block) ∧ (encrypt block).length = b

section Chain

variable {encryptBlock : BlockFunction} {p : CmacParameters} {encrypt : List UInt8 → List UInt8}

theorem cmacChain_eq (h : Encrypts encryptBlock p.blockLength encrypt) {state : List UInt8}
    (hstate : state.length = p.blockLength) (cursor : List UInt8) :
    ∃ c : List UInt8, c.length = p.blockLength ∧
      c = (List.range (blockCount p.blockLength cursor - 1)).foldl
        (fun c i => encrypt (xorBlocks c (messageBlock p.blockLength cursor i))) state ∧
      cmacChain encryptBlock p state cursor =
        .ok (c, messageBlock p.blockLength cursor (blockCount p.blockLength cursor - 1)) := by
  have hb := p.blockLength_pos
  induction hn : cursor.length using Nat.strong_induction_on generalizing state cursor with
  | _ n ih =>
    rw [cmacChain]
    by_cases hlong : p.blockLength < cursor.length
    · have hblock : (xorBlocks state (cursor.take p.blockLength)).length = p.blockLength := by
        simp [hstate, hlong.le]
      obtain ⟨hok, hlength⟩ := h _ hblock
      obtain ⟨c, hc, hfold, hchain⟩ := ih (cursor.drop p.blockLength).length
        (by rw [List.length_drop]; omega) hlength (cursor.drop p.blockLength) rfl
      obtain ⟨count, hcount⟩ : ∃ count, blockCount p.blockLength (cursor.drop p.blockLength) =
          count + 1 := ⟨_, (Nat.sub_add_cancel (le_max_left 1 _)).symm⟩
      rw [if_pos hlong, cmacXorBlock_eq hstate hlong.le, hok, blockCount_long hb hlong]
      refine ⟨c, hc, ?_, ?_⟩
      · rw [hfold, hcount, Nat.add_sub_cancel, Nat.add_sub_cancel, List.range_succ_eq_map,
          List.foldl_cons, List.foldl_map]
        simp only [Nat.succ_eq_add_one, messageBlock_succ]
        rfl
      · rw [hcount, Nat.add_sub_cancel] at hchain
        rw [hcount, Nat.add_sub_cancel, messageBlock_succ]
        exact hchain
    · rw [if_neg hlong, blockCount_short (not_lt.mp hlong)]
      refine ⟨state, hstate, rfl, ?_⟩
      rw [messageBlock, Nat.sub_self, Nat.mul_zero, List.drop_zero,
        List.take_of_length_le (not_lt.mp hlong)]

theorem cmacLastBlock_eq {cursor k1 k2 : List UInt8} (hcursor : cursor.length ≤ p.blockLength)
    (hk1 : k1.length = p.blockLength) (hk2 : k2.length = p.blockLength) :
    cmacLastBlock p k1 k2 cursor =
      if cursor.length = p.blockLength then xorBlocks cursor k1
      else xorBlocks (cursor ++ [0x80] ++ List.replicate (p.blockLength - 1 - cursor.length) 0) k2 := by
  have hcopy : copyInto (List.replicate p.blockLength 0) 0 cursor =
      cursor ++ List.replicate (p.blockLength - cursor.length) 0 := by
    rw [copyInto, List.take_zero, List.nil_append, List.drop_replicate, Nat.zero_add]
  rw [cmacLastBlock, hcopy]
  by_cases hwhole : cursor.length = p.blockLength
  · rw [if_pos hwhole, if_pos hwhole, hwhole, Nat.sub_self, List.replicate_zero, List.append_nil,
      cmacXorBlock_eq hwhole hk1.ge, List.take_of_length_le hk1.le]
  · obtain ⟨count, hcount⟩ : ∃ count, p.blockLength - cursor.length = count + 1 :=
      ⟨p.blockLength - cursor.length - 1, by omega⟩
    have hrest : p.blockLength - 1 - cursor.length = count := by omega
    rw [if_neg hwhole, if_neg hwhole, hcount, hrest, List.set_append_right _ _ (le_refl _),
      Nat.sub_self, List.replicate_succ, List.set_cons_zero, List.append_assoc,
      List.singleton_append, cmacXorBlock_eq (by simp; omega) hk2.ge,
      List.take_of_length_le hk2.le]

theorem cmacState_eq (h : Encrypts encryptBlock p.blockLength encrypt)
    (hconstant : p.reductionConstant.toNat = constantRb p.blockLength) (message : List UInt8) :
    cmacState encryptBlock p message = .ok (cmac encrypt p.blockLength message) ∧
      (cmac encrypt p.blockLength message).length = p.blockLength := by
  have hb := p.blockLength_pos
  have hzero : (List.replicate p.blockLength (0 : UInt8)).length = p.blockLength :=
    List.length_replicate
  obtain ⟨hwork, hworkLength⟩ := h _ hzero
  set work := encrypt (List.replicate p.blockLength 0) with hworkDef
  set k1 := cmacDouble work p.blockLength p.reductionConstant with hk1Def
  set k2 := cmacDouble k1 p.blockLength p.reductionConstant with hk2Def
  set last := messageBlock p.blockLength message (blockCount p.blockLength message - 1)
    with hlastDef
  have hk1 : k1 = bigEndian p.blockLength (double p.blockLength (beValue work)) :=
    cmacDouble_eq hworkLength hb hconstant
  have hk1Length : k1.length = p.blockLength := cmacDouble_length hworkLength p.reductionConstant
  have hk2 : k2 = bigEndian p.blockLength (double p.blockLength (double p.blockLength
      (beValue work))) := by
    rw [hk2Def, cmacDouble_eq hk1Length hb hconstant, hk1Def,
      cmacDouble_value hworkLength hb hconstant]
  have hk2Length : k2.length = p.blockLength := cmacDouble_length hk1Length p.reductionConstant
  have hlast : last.length ≤ p.blockLength := List.length_take_le _ _
  have hmn := cmacLastBlock_eq hlast hk1Length hk2Length
  have hmnLength : (cmacLastBlock p k1 k2 last).length = p.blockLength := by
    rw [cmacLastBlock]
    split <;> exact cmacXorBlock_length _ _ _
  obtain ⟨c, hc, hfold, hchain⟩ := cmacChain_eq h hzero message
  have hlastState := h _ (cmacXorBlock_length c (cmacLastBlock p k1 k2 last) p.blockLength)
  have hcmac : cmac encrypt p.blockLength message =
      encrypt (cmacXorBlock c (cmacLastBlock p k1 k2 last) p.blockLength) := by
    rw [cmacXorBlock_eq hc hmnLength.ge, List.take_of_length_le hmnLength.le, hmn, hk1, hk2, hfold]
    rfl
  rw [hcmac]
  refine ⟨?_, hlastState.2⟩
  rw [← hlastState.1]
  simp only [cmacState, hwork, hchain, bind, Except.bind]
  rfl

end Chain

section Calls

variable {cipher : CmacCipher} {alg : LiberaCAlgID} {p : CmacParameters}
  {encrypt : List UInt8 → List UInt8 → List UInt8}

theorem cmacParameters_constant (hp : cmacParameters alg = .ok p) :
    p.reductionConstant.toNat = constantRb p.blockLength ∧ p.blockLength ≤ 16 := by
  cases alg
  case aes128Ecb | aes192Ecb | aes256Ecb | tdesEde3Ecb =>
    cases hp
    exact ⟨rfl, by decide⟩
  all_goals cases hp

/-- Under a key of the right length the cipher is a block function that does not fail. -/
def Ciphers (cipher : CmacCipher) (p : CmacParameters)
    (encrypt : List UInt8 → List UInt8 → List UInt8) : Prop :=
  ∀ key : List UInt8, key.length = p.keyLength →
    ∃ encryptBlock, cipher p.family key = .ok encryptBlock ∧
      Encrypts encryptBlock p.blockLength (encrypt key)

theorem liberacCmac_iff (hp : cmacParameters alg = .ok p) (hcipher : Ciphers cipher p encrypt)
    (message : InputBytes) (key : Option (List UInt8)) (tagNull : Bool)
    (tagCapacity tagLength : Nat) (tag : List UInt8) :
    liberacCmac cipher tagNull tagCapacity tagLength message key alg = .ok tag ↔
      (0 < tagLength ∧ tagLength ≤ p.blockLength ∧ tagNull = false ∧ message.missing = false ∧
        tagLength ≤ tagCapacity) ∧
      ∃ k, key = some k ∧ k.length = p.keyLength ∧
        tag = (cmac (encrypt k) p.blockLength message.data).take tagLength := by
  rw [liberacCmac, hp]
  simp only [bind, Except.bind]
  cases key with
  | none =>
    constructor
    · intro h
      cases h
    · rintro ⟨-, k, h, -⟩
      cases h
  | some k =>
    dsimp only
    by_cases hargs : tagLength = 0 ∨ p.blockLength < tagLength ∨ tagNull ∨ message.missing
    · rw [if_pos hargs]
      constructor
      · intro h
        cases h
      · rintro ⟨⟨hpositive, hlength, hnull, hmessage, -⟩, -⟩
        rw [hnull, hmessage] at hargs
        rcases hargs with h | h | h | h
        · omega
        · omega
        all_goals cases h
    · rw [if_neg hargs]
      simp only [not_or, Bool.not_eq_true, not_lt] at hargs
      obtain ⟨hpositive, hlength, hnull, hmessage⟩ := hargs
      by_cases hcapacity : tagCapacity < tagLength
      · rw [if_pos hcapacity]
        constructor
        · intro h
          cases h
        · rintro ⟨⟨-, -, -, -, h⟩, -⟩
          omega
      · rw [if_neg hcapacity]
        by_cases hkey : k.length = p.keyLength
        · obtain ⟨encryptBlock, hblock, hencrypts⟩ := hcipher k hkey
          rw [if_neg (not_not.mpr hkey), hblock]
          dsimp only
          rw [(cmacState_eq hencrypts (cmacParameters_constant hp).1 message.data).1]
          constructor
          · intro h
            cases h
            exact ⟨⟨Nat.pos_of_ne_zero hpositive, hlength, hnull, hmessage, not_lt.mp hcapacity⟩,
              k, rfl, hkey, rfl⟩
          · rintro ⟨-, k', hk', -, rfl⟩
            cases hk'
            rfl
        · rw [if_pos hkey]
          constructor
          · intro h
            cases h
          · rintro ⟨-, k', hk', h, -⟩
            cases hk'
            exact absurd h hkey

theorem liberacCmacVerify_iff (hp : cmacParameters alg = .ok p)
    (hcipher : Ciphers cipher p encrypt) (message : InputBytes) (key : Option (List UInt8))
    (tag : List UInt8) :
    liberacCmacVerify cipher (some tag) message key alg = .ok () ↔
      (0 < tag.length ∧ tag.length ≤ p.blockLength ∧ message.missing = false) ∧
      ∃ k, key = some k ∧ k.length = p.keyLength ∧
        tag = (cmac (encrypt k) p.blockLength message.data).take tag.length := by
  have hiff := liberacCmac_iff hp hcipher message key false 16 tag.length
  obtain ⟨hconstant, hbound⟩ := cmacParameters_constant hp
  have hsize : ∀ written, liberacCmac cipher false 16 tag.length message key alg = .ok written →
      written.length = tag.length := by
    intro written hwritten
    obtain ⟨⟨-, hlength, -⟩, k, -, hk, heq⟩ := (hiff written).mp hwritten
    obtain ⟨encryptBlock, -, hencrypts⟩ := hcipher k hk
    rw [heq, List.length_take, (cmacState_eq hencrypts hconstant message.data).2,
      Nat.min_eq_left hlength]
  rw [liberacCmacVerify, compared_iff hsize, hiff]
  constructor
  · rintro ⟨⟨hpositive, hlength, -, hmessage, -⟩, hrest⟩
    exact ⟨⟨hpositive, hlength, hmessage⟩, hrest⟩
  · rintro ⟨⟨hpositive, hlength, hmessage⟩, hrest⟩
    exact ⟨⟨hpositive, hlength, rfl, hmessage, hlength.trans hbound⟩, hrest⟩

def libraryEncrypt (family : CmacCipherFamily) (key block : List UInt8) : List UInt8 :=
  match family with
  | .aes => match cryptoAesContextInit key with
    | .ok context => encryptState context block
    | .error _ => []
  | .tdes => store64Be (tripleDesBlock (load64Be block) (scheduleKeys key) true)

theorem cmacCipher_aes {key : List UInt8}
    (h : key.length = 16 ∨ key.length = 24 ∨ key.length = 32) :
    ∃ encryptBlock, cmacCipher .aes key = .ok encryptBlock ∧
      Encrypts encryptBlock 16 (libraryEncrypt .aes key) := by
  obtain ⟨context, hcontext, hvalid⟩ := cryptoAesContextInit_valid h
  refine ⟨cryptoAesEncryptBlock context, by rw [cmacCipher, hcontext]; rfl, fun block _ => ?_⟩
  rw [libraryEncrypt, hcontext]
  exact ⟨cryptoAesEncryptBlock_valid hvalid block, encryptState_length context block⟩

theorem cmacCipher_ciphers (hp : cmacParameters alg = .ok p) :
    Ciphers cmacCipher p (libraryEncrypt p.family) := by
  intro key hkey
  cases alg
  case aes128Ecb | aes192Ecb | aes256Ecb =>
    cases hp
    exact cmacCipher_aes (by simp_all)
  case tdesEde3Ecb =>
    cases hp
    exact ⟨_, rfl, fun block _ => ⟨rfl, rfl⟩⟩
  all_goals cases hp

/-- Whatever the block functions of the two families are, the tag is the truncated tag of
SP 800-38B. It is made exactly when the arguments are in order, and it is the only tag of its
length that is accepted. -/
theorem cmac_sp800_38b (hp : cmacParameters alg = .ok p) (hcipher : Ciphers cipher p encrypt)
    (message : InputBytes) (key : Option (List UInt8)) :
    (∀ tagNull tagCapacity tagLength tag,
      liberacCmac cipher tagNull tagCapacity tagLength message key alg = .ok tag ↔
        (0 < tagLength ∧ tagLength ≤ p.blockLength ∧ tagNull = false ∧ message.missing = false ∧
          tagLength ≤ tagCapacity) ∧
        ∃ k, key = some k ∧ k.length = p.keyLength ∧
          tag = (cmac (encrypt k) p.blockLength message.data).take tagLength) ∧
    ∀ tag, liberacCmacVerify cipher (some tag) message key alg = .ok () ↔
      (0 < tag.length ∧ tag.length ≤ p.blockLength ∧ message.missing = false) ∧
      ∃ k, key = some k ∧ k.length = p.keyLength ∧
        tag = (cmac (encrypt k) p.blockLength message.data).take tag.length :=
  ⟨liberacCmac_iff hp hcipher message key, liberacCmacVerify_iff hp hcipher message key⟩

/-- The ciphers of the library, on a message that is no whole number of blocks. -/
theorem cmac_sp800_38b_library :
    (∃ tag, liberacCmac cmacCipher false 8 4 (.bytes (List.replicate 20 1))
      (some (List.replicate 24 0)) .tdesEde3Ecb = .ok tag) ∧
    ∃ tag, liberacCmac cmacCipher false 16 16 (.bytes (List.replicate 20 1))
      (some (List.replicate 24 0)) .aes192Ecb = .ok tag :=
  ⟨⟨_, ((@cmac_sp800_38b _ .tdesEde3Ecb _ _ rfl
      (@cmacCipher_ciphers .tdesEde3Ecb _ rfl) _ _).1 _ _ _ _).mpr ⟨by decide, _, rfl, rfl, rfl⟩⟩,
    _, ((@cmac_sp800_38b _ .aes192Ecb _ _ rfl
      (@cmacCipher_ciphers .aes192Ecb _ rfl) _ _).1 _ _ _ _).mpr ⟨by decide, _, rfl, rfl, rfl⟩⟩

end Calls

end LiberaCrypt.Cmac
