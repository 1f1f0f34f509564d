import LiberaCrypt.Allocation
import LiberaCrypt.Def
import LiberaCrypt.Endian
import LiberaCrypt.Hmac
import LiberaCrypt.KeystreamXor
import LiberaCrypt.MemoryFill

namespace LiberaCrypt.KeyDerivation

open LiberaCrypt.Outcome LiberaCrypt.Allocation LiberaCrypt.ByteMemory LiberaCrypt.Def
open LiberaCrypt.Endian LiberaCrypt.FillLoop LiberaCrypt.KeystreamXor LiberaCrypt.MemoryFill
open LiberaCrypt.Hmac (hmacParameters)

def hmacTagSize (alg : LiberaCAlgID) : Nat :=
  match hmacParameters alg with
  | .ok parameters => parameters.digestLength
  | .error _ => 0

def hmacMaxTagBytes : Nat := 64

/-- A buffer that is passed on: the caller's, or a local one of the calling function. -/
inductive Buffer
  | caller (pointer : Nat)
  | stack (bytes : List UInt8)

def Buffer.null : Buffer → Bool
  | caller pointer => pointer = 0
  | stack _ => false

def Buffer.overlaps : Buffer → Nat → Nat → Nat → Bool
  | caller pointer, length, other, otherLength =>
    cryptoRangesOverlap pointer length other otherLength
  | stack _, _, _, _ => false

def Buffer.read : Buffer → Nat → OnMemory (List UInt8)
  | caller pointer, length => load pointer length
  | stack bytes, length => pure (bytes.take length)

def Buffer.write : Buffer → List UInt8 → OnMemory Buffer
  | caller pointer, bytes => do
    store pointer bytes
    pure (caller pointer)
  | stack old, bytes => pure (stack (copyInto old 0 bytes))

def kdfOptionalInputValid (input length : Nat) : Bool := input ≠ 0 || length = 0

section Functions

-- `hmac` is `LIBERAC_HMAC` for a whole tag, and `malloc` says which requests are granted
variable (hmac : LiberaCAlgID → List UInt8 → List UInt8 → Except LiberaCError (List UInt8))
  (malloc : Nat → Bool)

def liberacHkdfExtract (prk : Buffer) (prkCapacity ikm ikmLength salt saltLength : Nat)
    (alg : LiberaCAlgID) : OnMemory Buffer := do
  let digestLength := hmacTagSize alg
  compute (
    if digestLength = 0 then .error .invalidAlgId
    else if prk.null ∨ ¬ kdfOptionalInputValid ikm ikmLength ∨
        ¬ kdfOptionalInputValid salt saltLength then .error .invalidArgument
    else if prkCapacity < digestLength then .error .bufferTooSmall
    else if prk.overlaps digestLength ikm ikmLength ∨ prk.overlaps digestLength salt saltLength then
      .error .invalidArgument
    else .ok ())
  let message ← load ikm ikmLength
  let givenSalt ← load salt saltLength
  let effectiveSalt := if saltLength = 0 then List.replicate digestLength 0 else givenSalt
  let tag ← compute (hmac alg message effectiveSalt)
  prk.write tag

structure ExpandState where
  previous : List UInt8
  message : List UInt8
  previousLength : Nat
  blockIndex : UInt32

def expandBlock (prk : Buffer) (prkLength info infoLength : Nat) (alg : LiberaCAlgID)
    (s : ExpandState) : OnMemory (List UInt8 × ExpandState) := do
  let message := if s.previousLength ≠ 0 then
    copyInto s.message 0 (s.previous.take s.previousLength) else s.message
  let infoBytes ← load info infoLength
  let message := copyInto message s.previousLength infoBytes
  let messageLength := s.previousLength + infoLength
  let message := copyInto message messageLength [s.blockIndex.toUInt8]
  let messageLength := messageLength + 1
  let key ← prk.read prkLength
  let tag ← compute (hmac alg (message.take messageLength) key)
  let previous := copyInto s.previous 0 tag
  pure (previous, ⟨previous, message, hmacTagSize alg, s.blockIndex + 1⟩)

def liberacHkdfExpand (okm okmCapacity okmLength : Nat) (prk : Buffer)
    (prkLength info infoLength : Nat) (alg : LiberaCAlgID) : OnMemory Unit := do
  let digestLength := hmacTagSize alg
  compute (
    if digestLength = 0 then .error .invalidAlgId
    else if prk.null ∨ prkLength < digestLength ∨ ¬ kdfOptionalInputValid info infoLength ∨
        (okm = 0 ∧ okmLength ≠ 0) then .error .invalidArgument
    else if 255 * digestLength < okmLength then .error .messageTooLarge
    else if okmCapacity < okmLength then .error .bufferTooSmall
    else if prk.overlaps prkLength okm okmLength ∨
        cryptoRangesOverlap okm okmLength info infoLength then .error .invalidArgument
    else .ok ())
  if okmLength = 0 then pure ()
  else do
    let messageCapacity := digestLength + infoLength + 1
    compute (
      if sizeMax - digestLength - 1 < infoLength then .error .messageTooLarge
      else if ¬ malloc messageCapacity then .error .allocationFailed
      else .ok ())
    fillWhile digestLength (expandBlock hmac prk prkLength info infoLength alg) okm okmLength 0
      ⟨List.replicate hmacMaxTagBytes 0, List.replicate messageCapacity 0, 0, 1⟩

def liberacHkdf (okm okmCapacity okmLength ikm ikmLength salt saltLength info infoLength : Nat)
    (alg : LiberaCAlgID) : OnMemory Unit := do
  let digestLength := hmacTagSize alg
  compute (if digestLength = 0 then .error .invalidAlgId else .ok ())
  let prk ← liberacHkdfExtract hmac (.stack (List.replicate hmacMaxTagBytes 0)) hmacMaxTagBytes
    ikm ikmLength salt saltLength alg
  liberacHkdfExpand hmac malloc okm okmCapacity okmLength prk digestLength info infoLength alg

/-- The locals of `LIBERAC_PBKDF2_HMAC`; `swapped` says that `current` points to `u_b`. -/
structure Pbkdf2State where
  uA : List UInt8
  uB : List UInt8
  swapped : Bool
  accumulator : List UInt8
  saltBlock : List UInt8
  blockOffset : Nat

def Pbkdf2State.current (s : Pbkdf2State) : List UInt8 := if s.swapped then s.uB else s.uA

/-- A tag is written to the buffer that `current` does not point to, and the two change places. -/
def Pbkdf2State.advance (s : Pbkdf2State) (digestLength : Nat) (tag : List UInt8) : Pbkdf2State :=
  let next := copyInto (if s.swapped then s.uA else s.uB) 0 tag
  let accumulator := copyInto s.accumulator 0
    (xorBytes (s.accumulator.take digestLength) (next.take digestLength))
  if s.swapped then
    { s with uA := next, swapped := false, accumulator := accumulator }
  else { s with uB := next, swapped := true, accumulator := accumulator }

/-- `for (iteration = 1; iteration < ITERATION_COUNT; ++iteration)`. -/
def pbkdf2Iterations (password passwordLength : Nat) (alg : LiberaCAlgID) :
    Nat → Pbkdf2State → OnMemory Pbkdf2State
  | 0, s => pure s
  | count + 1, s => do
    let key ← load password passwordLength
    let tag ← compute (hmac alg (s.current.take (hmacTagSize alg)) key)
    pbkdf2Iterations password passwordLength alg count (s.advance (hmacTagSize alg) tag)

def pbkdf2Block (password passwordLength saltLength iterationCount : Nat) (alg : LiberaCAlgID)
    (s : Pbkdf2State) : OnMemory (List UInt8 × Pbkdf2State) := do
  let encodedBlockNumber := UInt32.ofNat (s.blockOffset + 1)
  let saltBlock := copyInto s.saltBlock saltLength [(encodedBlockNumber >>> 24).toUInt8,
    (encodedBlockNumber >>> 16).toUInt8, (encodedBlockNumber >>> 8).toUInt8,
    encodedBlockNumber.toUInt8]
  let key ← load password passwordLength
  let tag ← compute (hmac alg saltBlock key)
  let uA := copyInto s.uA 0 tag
  let accumulator := copyInto s.accumulator 0 (uA.take (hmacTagSize alg))
  let s ← pbkdf2Iterations hmac password passwordLength alg (iterationCount - 1)
    { s with uA := uA, swapped := false, accumulator := accumulator, saltBlock := saltBlock }
  pure (s.accumulator, { s with blockOffset := s.blockOffset + 1 })

def liberacPbkdf2Hmac (derivedKey derivedKeyCapacity derivedKeyLength password passwordLength
    salt saltLength iterationCount : Nat) (alg : LiberaCAlgID) : OnMemory Unit := do
  let digestLength := hmacTagSize alg
  let blockCount := (derivedKeyLength - 1) / digestLength + 1
  let saltBlockLength := saltLength + 4
  compute (
    if digestLength = 0 then .error .invalidAlgId
    else if derivedKey = 0 ∨ derivedKeyLength = 0 ∨
        ¬ kdfOptionalInputValid password passwordLength ∨
        ¬ kdfOptionalInputValid salt saltLength ∨ iterationCount = 0 then .error .invalidArgument
    else if derivedKeyCapacity < derivedKeyLength then .error .bufferTooSmall
    else if 2 ^ 32 - 1 < blockCount then .error .messageTooLarge
    else if sizeMax - 4 < saltLength then .error .messageTooLarge
    else if cryptoRangesOverlap derivedKey derivedKeyLength password passwordLength ∨
        cryptoRangesOverlap derivedKey derivedKeyLength salt saltLength then
      .error .invalidArgument
    else if ¬ malloc saltBlockLength then .error .allocationFailed
    else .ok ())
  let saltBytes ← load salt saltLength
  let saltBlock := copyInto (List.replicate saltBlockLength 0) 0 saltBytes
  let zeros := List.replicate hmacMaxTagBytes 0
  fillBlocks digestLength
    (pbkdf2Block hmac password passwordLength saltLength iterationCount alg)
    derivedKey derivedKeyLength blockCount 0 ⟨zeros, zeros, false, zeros, saltBlock, 0⟩

end Functions

end LiberaCrypt.KeyDerivation
