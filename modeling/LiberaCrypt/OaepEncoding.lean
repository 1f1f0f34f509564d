import LiberaCrypt.ConstantTime
import LiberaCrypt.MemoryFill
import LiberaCrypt.Mgf1

namespace LiberaCrypt.OaepEncoding

open LiberaCrypt.Outcome LiberaCrypt.ConstantTime LiberaCrypt.CountedLoop LiberaCrypt.KeystreamXor
open LiberaCrypt.MemoryFill LiberaCrypt.Mgf1

section Operations

def rsaCtIsZeroU8 (value : UInt8) : UInt32 :=
  let x := value.toUInt32
  ((x ||| ((0 : UInt32) - x)) >>> 31) ^^^ 1

def rsaCtSelectSize (zeroChoice oneChoice : UInt64) (chooseOne : UInt32) : UInt64 :=
  let mask := (0 : UInt64) - (chooseOne &&& 1).toUInt64
  (zeroChoice &&& ~~~mask) ||| (oneChoice &&& mask)

structure DelimiterScan where
  messageIndex : UInt64
  bad : UInt32
  seeking : UInt32

def scanByte (byte : UInt8) (i : Nat) (s : DelimiterScan) : DelimiterScan :=
  let isZero := rsaCtIsZeroU8 byte
  let isOne := rsaCtIsZeroU8 (byte ^^^ 1)
  let take := s.seeking &&& isOne
  let acceptable := isZero ||| isOne
  ⟨rsaCtSelectSize s.messageIndex (UInt64.ofNat (i + 1)) take,
    s.bad ||| (s.seeking &&& (acceptable ^^^ 1)), s.seeking &&& (isOne ^^^ 1)⟩

def scanDelimiter (dataBlock : List UInt8) (hashLength : Nat) (bad : UInt32) : DelimiterScan :=
  countUp (dataBlock.length - hashLength)
    (fun i => scanByte (dataBlock.getD (hashLength + i) 0) (hashLength + i))
    ⟨UInt64.ofNat dataBlock.length, bad, 1⟩

variable (hash : List UInt8 → Except LiberaCError (List UInt8))

/-- The steps of encryption that fill `encoded`. The seed is drawn between them. -/
def oaepEncode (hashLength modulusBytes : Nat) (label message : List UInt8)
    (random : Except LiberaCError (List UInt8)) : Except LiberaCError (List UInt8) := do
  let dataBlockLength := modulusBytes - hashLength - 1
  let labelHash ← hash label
  let dataBlock := labelHash ++ List.replicate (dataBlockLength - hashLength) 0
  let delimiter := dataBlockLength - message.length - 1
  let dataBlock := dataBlock.set delimiter 1
  let dataBlock := copyInto dataBlock (delimiter + 1) message
  let seed ← random
  let dataBlock ← rsaMgf1Xor hash dataBlock seed hashLength
  let seed ← rsaMgf1Xor hash seed dataBlock hashLength
  pure (0 :: (seed ++ dataBlock))

/-- The steps of decryption from `encoded` to the message. -/
def oaepDecode (hashLength : Nat) (label encoded : List UInt8) :
    Except LiberaCError (List UInt8) := do
  let seed := (encoded.drop 1).take hashLength
  let dataBlock := encoded.drop (1 + hashLength)
  let bad := (encoded.getD 0 0).toUInt32
  let seed ← rsaMgf1Xor hash seed dataBlock hashLength
  let dataBlock ← rsaMgf1Xor hash dataBlock seed hashLength
  let labelHash ← hash label
  let bad := if cryptoConstantTimeEqual dataBlock labelHash hashLength = false then bad ||| 1
    else bad
  let s := scanDelimiter dataBlock hashLength bad
  if s.bad ||| s.seeking ≠ 0 then .error .authenticationFailed
  else pure (dataBlock.drop s.messageIndex.toNat)

end Operations

section Scan

variable {bytes : List UInt8} {bad : UInt32} {length first : Nat}

def Broken (bytes : List UInt8) : Prop :=
  ∃ zeros x rest, bytes = List.replicate zeros 0 ++ x :: rest ∧ x ≠ 0 ∧ x ≠ 1

/-- What the scan knows after some bytes, the first of them at the index `first`. -/
inductive Scanned (length first : Nat) (bad : UInt32) : List UInt8 → DelimiterScan → Prop
  | zeros (m : Nat) : Scanned length first bad (List.replicate m 0) ⟨UInt64.ofNat length, bad, 1⟩
  | found (m : Nat) (message : List UInt8) :
    Scanned length first bad (List.replicate m 0 ++ 1 :: message)
      ⟨UInt64.ofNat (first + m + 1), bad, 0⟩
  | broken {bytes : List UInt8} {s : DelimiterScan} :
    Broken bytes → s.bad ≠ 0 → Scanned length first bad bytes s

end Scan

section Encoding

variable {hash : List UInt8 → Except LiberaCError (List UInt8)} {H : List UInt8 → List UInt8}
  {n : Nat} {label encoded message : List UInt8}

/-- A zero byte, a masked seed and a masked block, and the block is the digest of the label, zeros,
a one and the message. A block has a mask while the blocks of the mask can be counted. -/
def OaepEncodes (H : List UInt8 → List UInt8) (n : Nat) (label encoded message : List UInt8) :
    Prop :=
  ∃ maskedSeed maskedBlock, encoded = 0 :: (maskedSeed ++ maskedBlock) ∧ maskedSeed.length = n ∧
    maskedBlock.length ≤ 2 ^ 32 * n ∧
      ∃ zeros, xorBytes maskedBlock (mgf1 H n (xorBytes maskedSeed (mgf1 H n maskedBlock n))
        maskedBlock.length) = H label ++ (List.replicate zeros 0 ++ 1 :: message)

def oaepFailure (n k : Nat) : LiberaCError :=
  if k - (1 + n) ≤ 2 ^ 32 * n then .authenticationFailed else .messageTooLarge

theorem dataBlock_eq {labelHash : List UInt8} {blockLength : Nat} (hlabel : labelHash.length = n)
    (hroom : n + message.length + 1 ≤ blockLength) :
    copyInto ((labelHash ++ List.replicate (blockLength - n) 0).set
        (blockLength - message.length - 1) (1 : UInt8)) (blockLength - message.length - 1 + 1)
        message =
      labelHash ++ (List.replicate (blockLength - message.length - 1 - n) 0 ++ 1 :: message) := by
  obtain ⟨zeros, rfl⟩ := Nat.exists_eq_add_of_le hroom
  have hdelimiter : n + message.length + 1 + zeros - message.length - 1 = n + zeros := by omega
  have hrest : n + message.length + 1 + zeros - n = zeros + (1 + message.length) := by omega
  have hfirst : (labelHash ++ List.replicate zeros (0 : UInt8)).length = n + zeros := by
    rw [List.length_append, List.length_replicate, hlabel]
  generalize hblock : (labelHash ++ List.replicate (n + message.length + 1 + zeros - n) 0).set
    (n + message.length + 1 + zeros - message.length - 1) (1 : UInt8) = block
  have hmarked : block = labelHash ++ List.replicate zeros 0 ++
      1 :: List.replicate message.length 0 := by
    rw [← hblock, hdelimiter, hrest, List.replicate_add, ← List.append_assoc,
      List.set_append_right _ _ hfirst.le, hfirst, Nat.sub_self, Nat.add_comm 1,
      List.replicate_succ, List.set_cons_zero]
  have htake : block.take (n + zeros + 1) = labelHash ++ List.replicate zeros 0 ++ [1] := by
    rw [hmarked, ← hfirst, List.take_length_add_append]
    rfl
  have hdrop : block.drop (n + zeros + 1 + message.length) = [] := by
    apply List.drop_eq_nil_of_le
    rw [hmarked, List.length_append, hfirst, List.length_cons, List.length_replicate]
    omega
  rw [hdelimiter, copyInto, Nat.add_sub_cancel_left, htake, hdrop]
  simp

theorem oaepEncode_cases {modulusBytes : Nat} {seed : List UInt8} (h : Hashes hash H n)
    (label : List UInt8) (hseed : seed.length = n)
    (hroom : message.length + 2 * n + 2 ≤ modulusBytes) :
    (modulusBytes - (1 + n) ≤ 2 ^ 32 * n ∧
      ∃ encoded, oaepEncode hash n modulusBytes label message (.ok seed) = .ok encoded ∧
        encoded.length = modulusBytes ∧ OaepEncodes H n label encoded message) ∨
    (2 ^ 32 * n < modulusBytes - (1 + n) ∧
      oaepEncode hash n modulusBytes label message (.ok seed) = .error .messageTooLarge) := by
  have hpos := h.pos
  have hblock := @dataBlock_eq n message (H label) (modulusBytes - n - 1) (h.length label)
    (by omega)
  generalize hB : H label ++ (List.replicate (modulusBytes - n - 1 - message.length - 1 - n) 0 ++
    1 :: message) = block at hblock
  have hlength : block.length = modulusBytes - n - 1 := by
    rw [← hB, List.length_append, List.length_append, List.length_replicate, List.length_cons,
      h.length]
    omega
  have hmasked := @xorBytes_length block _ (mgf1_length h seed block.length)
  have hmgfBlock := rsaMgf1Xor_eq h block seed
  by_cases hmask : modulusBytes - (1 + n) ≤ 2 ^ 32 * n
  case neg =>
    rw [if_pos (by omega)] at hmgfBlock
    right
    refine ⟨not_le.mp hmask, ?_⟩
    unfold oaepEncode
    dsimp only [bind, Except.bind]
    rw [h.hashed]
    dsimp only
    rw [hblock, hmgfBlock]
  rw [if_neg (by omega)] at hmgfBlock
  have hmgfSeed := rsaMgf1Xor_eq h seed (xorBytes block (mgf1 H n seed block.length))
  rw [hseed, if_neg (by omega)] at hmgfSeed
  have hmaskedSeed := @xorBytes_length seed _
    ((mgf1_length h (xorBytes block (mgf1 H n seed block.length)) n).trans hseed.symm)
  refine Or.inl ⟨hmask, 0 :: (xorBytes seed (mgf1 H n (xorBytes block (mgf1 H n seed block.length))
    n) ++ xorBytes block (mgf1 H n seed block.length)), ?_, ?_, _, _, rfl, ?_, ?_, ?_⟩
  · unfold oaepEncode
    dsimp only [bind, Except.bind]
    rw [h.hashed]
    dsimp only
    rw [hblock, hmgfBlock]
    dsimp only
    rw [hmgfSeed]
    rfl
  · rw [List.length_cons, List.length_append, hmaskedSeed, hmasked]
    omega
  · rw [hmaskedSeed, hseed]
  · rw [hmasked]
    omega
  · refine ⟨modulusBytes - n - 1 - message.length - 1 - n, ?_⟩
    rw [hmasked, xorBytes_twice ((mgf1_length h _ n).trans hseed.symm),
      xorBytes_twice (mgf1_length h seed block.length)]
    exact hB.symm

end Encoding

end LiberaCrypt.OaepEncoding
