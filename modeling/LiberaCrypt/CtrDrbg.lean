import LiberaCrypt.Allocation
import LiberaCrypt.Def
import LiberaCrypt.Endian
import LiberaCrypt.FillLoop
import LiberaCrypt.KeystreamXor

namespace LiberaCrypt.CtrDrbg

open LiberaCrypt.Allocation LiberaCrypt.Def LiberaCrypt.Endian LiberaCrypt.FillLoop
open LiberaCrypt.KeystreamXor LiberaCrypt.Outcome

inductive CtrDrbgCipherFamily
  | aes
  | tdea
  deriving DecidableEq

structure CtrDrbgParameters where
  keyLength : Nat
  blockLength : Nat
  securityBytes : Nat
  maxRequestBytes : Nat
  reseedInterval : Nat
  useDf : Bool
  family : CtrDrbgCipherFamily

def CtrDrbgParameters.seedLength (p : CtrDrbgParameters) : Nat := p.keyLength + p.blockLength

def aesParameters (keyLength : Nat) (useDf : Bool) : CtrDrbgParameters :=
  ⟨keyLength, 16, keyLength, 65536, 2 ^ 48, useDf, .aes⟩

def tdeaParameters (useDf : Bool) : CtrDrbgParameters := ⟨21, 8, 14, 1024, 2 ^ 32, useDf, .tdea⟩

def ctrDrbgParameters : LiberaCAlgID → Except LiberaCError CtrDrbgParameters
  | .ctrDrbgAes128Df => .ok (aesParameters 16 true)
  | .ctrDrbgAes128NoDf => .ok (aesParameters 16 false)
  | .ctrDrbgAes192Df => .ok (aesParameters 24 true)
  | .ctrDrbgAes192NoDf => .ok (aesParameters 24 false)
  | .ctrDrbgAes256Df => .ok (aesParameters 32 true)
  | .ctrDrbgAes256NoDf => .ok (aesParameters 32 false)
  | .ctrDrbgTdeaDf => .ok (tdeaParameters true)
  | .ctrDrbgTdeaNoDf => .ok (tdeaParameters false)
  | _ => .error .invalidAlgId

/-- `KEY` and `V` are arrays for the longest key and the longest block. -/
structure LiberaCCtrDrbgContext where
  alg : LiberaCAlgID
  key : List UInt8
  v : List UInt8
  reseedCounter : Nat
  keyLength : Nat
  useDf : Bool
  instantiated : Bool
  key_size : key.length = 32
  v_size : v.length = 16

abbrev OnContext := OnState LiberaCCtrDrbgContext

def zeros (n : Nat) : List UInt8 := List.replicate n 0

def inArray (n : Nat) (bytes : List UInt8) : List UInt8 := (bytes ++ zeros n).take n

@[simp] theorem inArray_length (n : Nat) (bytes : List UInt8) : (inArray n bytes).length = n := by
  simp [inArray, zeros]

def clearedContext : LiberaCCtrDrbgContext :=
  ⟨.none, zeros 32, zeros 16, 0, 0, false, false, rfl, rfl⟩

def ctrDrbgContextParameters (context : LiberaCCtrDrbgContext) :
    Except LiberaCError CtrDrbgParameters :=
  match ctrDrbgParameters context.alg with
  | .error e => .error e
  | .ok selected =>
    if context.keyLength ≠ selected.keyLength ∨ context.useDf ≠ selected.useDf then
      .error .invalidArgument
    else .ok selected

section Cipher

def incrementFrom : Nat → UInt16 → List UInt8 → List UInt8
  | 0, _, v => v
  | index + 1, carry, v =>
    let sum := (v.getD index 0).toUInt16 + carry
    incrementFrom index (sum >>> 8) (v.set index sum.toUInt8)

def incrementV (v : List UInt8) (blockLength : Nat) : List UInt8 := incrementFrom blockLength 1 v

def setOddParity (value : UInt8) : UInt8 :=
  let parity := value
  let parity := parity ^^^ (parity >>> 4)
  let parity := parity ^^^ (parity >>> 2)
  let parity := parity ^^^ (parity >>> 1)
  (value &&& 0xfe) ||| ((parity ^^^ 1) &&& 1)

def packedGroup (key : List UInt8) (group : Nat) : UInt64 :=
  (List.range 7).foldl
    (fun packed index => (packed <<< 8) ||| (key.getD (7 * group + index) 0).toUInt64) 0

/-- The 168 key bits become the upper seven bits of 24 bytes with odd parity. -/
def expandTdeaKey (key : List UInt8) : List UInt8 :=
  (List.range 3).flatMap fun group =>
    (List.range 8).map fun index =>
      let sevenBits := ((packedGroup key group >>> UInt64.ofNat (49 - 7 * index)) &&& 0x7f).toUInt8
      setOddParity (sevenBits <<< 1)

/-- `crypto_aes_context_init`, `crypto_tdes_ede3_context_init` and the functions that encrypt. -/
structure BlockCipher (κ : Type) where
  contextInit : CtrDrbgCipherFamily → List UInt8 → Except LiberaCError κ
  encryptBlock : CtrDrbgCipherFamily → κ → List UInt8 → Except LiberaCError (List UInt8)

structure CtrDrbgBlockContext (κ : Type) where
  family : CtrDrbgCipherFamily
  engine : κ

def engineKey (p : CtrDrbgParameters) (key : List UInt8) : List UInt8 :=
  match p.family with
  | .aes => key.take p.keyLength
  | .tdea => expandTdeaKey key

variable {κ : Type} (cipher : BlockCipher κ)

def ctrBlockContextInit (p : CtrDrbgParameters) (key : List UInt8) :
    Except LiberaCError (CtrDrbgBlockContext κ) :=
  match cipher.contextInit p.family (engineKey p key) with
  | .error e => .error e
  | .ok engine => .ok ⟨p.family, engine⟩

def ctrBlockEncrypt (context : CtrDrbgBlockContext κ) (input : List UInt8) :
    Except LiberaCError (List UInt8) :=
  cipher.encryptBlock context.family context.engine input

end Cipher

variable {κ : Type} (cipher : BlockCipher κ)

section Derivation

def bccRounds (n : Nat) (context : CtrDrbgBlockContext κ) (chain string : List UInt8) :
    Except LiberaCError (List UInt8) :=
  if _h : 0 < n ∧ 0 < string.length then
    match ctrBlockEncrypt cipher context (xorBytes chain (string.take n)) with
    | .error e => .error e
    | .ok chain => bccRounds n context chain (string.drop n)
  else .ok chain
termination_by string.length
decreasing_by
  rw [List.length_drop]
  omega

def bcc (p : CtrDrbgParameters) (context : CtrDrbgBlockContext κ) (iv string : List UInt8) :
    Except LiberaCError (List UInt8) :=
  match ctrBlockEncrypt cipher context (xorBytes (zeros p.blockLength) (iv.take p.blockLength)) with
  | .error e => .error e
  | .ok chain => bccRounds cipher p.blockLength context chain string

def bccNext (p : CtrDrbgParameters) (context : CtrDrbgBlockContext κ) (string : List UInt8) :
    OnState UInt32 (List UInt8) := fun counter =>
  (bcc cipher p context (cryptoStore32Be counter ++ zeros 12) string, counter + 1)

def encryptAgain (context : CtrDrbgBlockContext κ) : OnState (List UInt8) (List UInt8) := fun x =>
  match ctrBlockEncrypt cipher context x with
  | .error e => (.error e, x)
  | .ok x => (.ok x, x)

/-- The string of `block_cipher_df`, in an array of zeros. -/
def dfString (input : List UInt8) (outputLength stringLength : Nat) : List UInt8 :=
  inArray stringLength (cryptoStore32Be (UInt32.ofNat input.length) ++
    cryptoStore32Be (UInt32.ofNat outputLength) ++ input ++ [0x80])

def dfOutput (p : CtrDrbgParameters) (string : List UInt8) (outputLength : Nat) :
    Except LiberaCError (List UInt8) := do
  let initialKey := (List.range p.keyLength).map UInt8.ofNat
  let context ← ctrBlockContextInit cipher p initialKey
  let temp ← (fillLoop p.blockLength (bccNext cipher p context string) p.seedLength 0).1
  let x := (temp.drop p.keyLength).take p.blockLength
  let context ← ctrBlockContextInit cipher p temp
  (fillLoop p.blockLength (encryptAgain cipher context) outputLength x).1

def uint32Max : Nat := 2 ^ 32 - 1

/-- The mask of the source rounds down to a multiple of the block, a power of two. `k` numbers the
request for the string. -/
def blockCipherDf (host : Host) (k : Nat) (p : CtrDrbgParameters) (input : InputBytes)
    (outputLength : Nat) : Except LiberaCError (List UInt8) :=
  if input.missing ∨ outputLength = 0 ∨ outputLength > 48 then .error .invalidArgument
  else if input.data.length > uint32Max ∨ outputLength > uint32Max then .error .messageTooLarge
  else if input.data.length > sizeMax - 9 then .error .messageTooLarge
  else
    let stringLength := 8 + input.data.length + 1
    if stringLength > sizeMax - (p.blockLength - 1) then .error .messageTooLarge
    else
      let stringLength := (stringLength + p.blockLength - 1) / p.blockLength * p.blockLength
      if host.grants k stringLength = false then .error .allocationFailed
      else dfOutput cipher p (dfString input.data outputLength stringLength) outputLength

def makeDfSeed (host : Host) (k : Nat) (context : LiberaCCtrDrbgContext) (a b c : List UInt8) :
    Except LiberaCError (List UInt8) :=
  if a.length > sizeMax - b.length ∨ a.length + b.length > sizeMax - c.length then
    .error .messageTooLarge
  else
    let total := a.length + b.length + c.length
    if total > uint32Max then .error .messageTooLarge
    else if total ≠ 0 ∧ host.grants k total = false then .error .allocationFailed
    else
      match ctrDrbgContextParameters context with
      | .error e => .error e
      | .ok p =>
        if total ≠ 0 then blockCipherDf cipher host (k + 1) p (.bytes (a ++ b ++ c)) p.seedLength
        else blockCipherDf cipher host k p (.null 0) p.seedLength

end Derivation

section Update

def LiberaCCtrDrbgContext.withV (context : LiberaCCtrDrbgContext) (v : List UInt8) :
    LiberaCCtrDrbgContext :=
  { context with v := inArray 16 v, v_size := inArray_length 16 v }

/-- The next block of the counter; `V` has moved also when the cipher fails. -/
def encryptNext (p : CtrDrbgParameters) (block : CtrDrbgBlockContext κ) : OnContext (List UInt8) :=
  fun context =>
    let v := incrementV context.v p.blockLength
    (ctrBlockEncrypt cipher block (v.take p.blockLength), context.withV v)

def LiberaCCtrDrbgContext.rekey (context : LiberaCCtrDrbgContext) (p : CtrDrbgParameters)
    (temp : List UInt8) : LiberaCCtrDrbgContext :=
  { context with
    key := inArray 32 (temp.take p.keyLength)
    v := inArray 16 ((temp.drop p.keyLength).take p.blockLength)
    key_size := inArray_length 32 _
    v_size := inArray_length 16 _ }

def ctrDrbgUpdate (providedData : Option (List UInt8)) : OnContext Unit := fun context =>
  match ctrDrbgContextParameters context with
  | .error e => (.error e, context)
  | .ok p =>
    match ctrBlockContextInit cipher p context.key with
    | .error e => (.error e, context)
    | .ok block =>
      match fillLoop p.blockLength (encryptNext cipher p block) p.seedLength context with
      | (.error e, context) => (.error e, context)
      | (.ok temp, context) =>
        match providedData with
        | none => (.ok (), context.rekey p temp)
        | some data => (.ok (), context.rekey p (xorBytes temp data))

/-- `seed[index] ^= data[index]` for every byte of the data. -/
def xorOver (seed data : List UInt8) : List UInt8 :=
  xorBytes (seed.take data.length) data ++ seed.drop data.length

def prepareAdditional (host : Host) (k : Nat) (context : LiberaCCtrDrbgContext)
    (additional : InputBytes) : Except LiberaCError (List UInt8) :=
  if additional.missing then .error .invalidArgument
  else
    match ctrDrbgContextParameters context with
    | .error e => .error e
    | .ok p =>
      if additional.data.length = 0 then .ok (zeros 48)
      else if p.useDf then makeDfSeed cipher host k context additional.data [] []
      else if additional.data.length > p.seedLength then .error .invalidArgument
      else .ok (inArray 48 additional.data)

end Update

section Calls

/-- What a call gets from outside: memory, after `requests` earlier requests, and random bytes from
the operating system for the entropy and for the nonce, or a failure. -/
structure Environment where
  host : Host
  requests : Nat
  entropy : Option (Nat → UInt8)
  nonce : Option (Nat → UInt8)

def isNull : InputBytes → Bool
  | .null _ => true
  | .bytes _ => false

def cryptoRandomBytesInternal (source : Option (Nat → UInt8)) (length : Nat) :
    Except LiberaCError (List UInt8) :=
  match source with
  | none => .error .randomFailed
  | some byte => .ok ((List.range length).map byte)

variable (environment : Environment)

def instantiateSeed (p : CtrDrbgParameters) (context : LiberaCCtrDrbgContext)
    (entropy nonce personalization : List UInt8) : Except LiberaCError (List UInt8) :=
  let requiredTotal := p.securityBytes + (p.securityBytes + 1) / 2
  if p.useDf then
    if entropy.length < p.securityBytes ∨
        (entropy.length < requiredTotal ∧ nonce.length < requiredTotal - entropy.length) then
      .error .invalidArgument
    else
      makeDfSeed cipher environment.host environment.requests context entropy nonce personalization
  else if entropy.length ≠ p.seedLength ∨ nonce.length ≠ 0 ∨
      personalization.length > p.seedLength then .error .invalidArgument
  else .ok (xorOver entropy personalization)

def freshContext (alg : LiberaCAlgID) (p : CtrDrbgParameters) : LiberaCCtrDrbgContext :=
  { clearedContext with alg := alg, keyLength := p.keyLength, useDf := p.useDf }

def cryptoCtrDrbgInstantiateInternal (alg : LiberaCAlgID)
    (entropy nonce personalization : InputBytes) : OnContext Unit := fun context =>
  if isNull entropy ∨ nonce.missing ∨ personalization.missing then (.error .invalidArgument, context)
  else
    match ctrDrbgParameters alg with
    | .error e => (.error e, context)
    | .ok p =>
      match instantiateSeed cipher environment p (freshContext alg p) entropy.data nonce.data
          personalization.data with
      | .error e => (.error e, clearedContext)
      | .ok seed =>
        match ctrDrbgUpdate cipher (some seed) (freshContext alg p) with
        | (.error e, _) => (.error e, clearedContext)
        | (.ok (), context) =>
          (.ok (), { context with reseedCounter := 1, instantiated := true })

def reseedSeed (p : CtrDrbgParameters) (context : LiberaCCtrDrbgContext)
    (entropy additional : List UInt8) : Except LiberaCError (List UInt8) :=
  if p.useDf then
    if entropy.length < p.securityBytes then .error .invalidArgument
    else makeDfSeed cipher environment.host environment.requests context entropy additional []
  else if entropy.length ≠ p.seedLength ∨ additional.length > p.seedLength then
    .error .invalidArgument
  else .ok (xorOver entropy additional)

def cryptoCtrDrbgReseedInternal (entropy additional : InputBytes) : OnContext Unit := fun context =>
  if context.instantiated = false ∨ isNull entropy ∨ additional.missing then
    (.error .invalidArgument, context)
  else
    match ctrDrbgContextParameters context with
    | .error e => (.error e, context)
    | .ok p =>
      match reseedSeed cipher environment p context entropy.data additional.data with
      | .error e => (.error e, context)
      | .ok seed =>
        match ctrDrbgUpdate cipher (some seed) context with
        | (.error e, context) => (.error e, context)
        | (.ok (), context) => (.ok (), { context with reseedCounter := 1 })

def entropyLength (p : CtrDrbgParameters) : Nat := if p.useDf then p.securityBytes else p.seedLength

def nonceLength (p : CtrDrbgParameters) : Nat :=
  if p.useDf then (p.securityBytes + 1) / 2 else 0

def cryptoCtrDrbgInstantiateOsInternal (alg : LiberaCAlgID) (personalization : InputBytes) :
    OnContext Unit := fun context =>
  if personalization.missing then (.error .invalidArgument, context)
  else
    match ctrDrbgParameters alg with
    | .error e => (.error e, context)
    | .ok p =>
      match cryptoRandomBytesInternal environment.entropy (entropyLength p) with
      | .error e => (.error e, context)
      | .ok entropy =>
        if nonceLength p ≠ 0 then
          match cryptoRandomBytesInternal environment.nonce (nonceLength p) with
          | .error e => (.error e, context)
          | .ok nonce =>
            cryptoCtrDrbgInstantiateInternal cipher environment alg (.bytes entropy) (.bytes nonce)
              personalization context
        else
          cryptoCtrDrbgInstantiateInternal cipher environment alg (.bytes entropy) (.null 0)
            personalization context

def cryptoCtrDrbgReseedOsInternal (additional : InputBytes) : OnContext Unit := fun context =>
  if context.instantiated = false ∨ additional.missing then (.error .invalidArgument, context)
  else
    match ctrDrbgContextParameters context with
    | .error e => (.error e, context)
    | .ok p =>
      match cryptoRandomBytesInternal environment.entropy (entropyLength p) with
      | .error e => (.error e, context)
      | .ok entropy =>
        cryptoCtrDrbgReseedInternal cipher environment (.bytes entropy) additional context

/-- From the additional input to the last update; an error means that the output is cleared. -/
def generateBytes (p : CtrDrbgParameters) (outputLength : Nat) (additional : InputBytes) :
    OnContext (List UInt8) := fun context =>
  match prepareAdditional cipher environment.host environment.requests context additional with
  | .error e => (.error e, context)
  | .ok provided =>
    match (if additional.data.length ≠ 0 then ctrDrbgUpdate cipher (some provided) context
      else (.ok (), context)) with
    | (.error e, context) => (.error e, context)
    | (.ok (), context) =>
      match ctrBlockContextInit cipher p context.key with
      | .error e => (.error e, context)
      | .ok block =>
        match fillLoop p.blockLength (encryptNext cipher p block) outputLength context with
        | (.error e, context) => (.error e, context)
        | (.ok bytes, context) =>
          match ctrDrbgUpdate cipher (some provided) context with
          | (.error e, context) => (.error e, context)
          | (.ok (), context) =>
            (.ok bytes, { context with reseedCounter := context.reseedCounter + 1 })

/-- The status of a call, and what the output buffer holds after it. -/
structure Generated where
  status : Except LiberaCError Unit
  output : List UInt8

def generateFrom (p : CtrDrbgParameters) (output additional : InputBytes)
    (context : LiberaCCtrDrbgContext) : Generated × LiberaCCtrDrbgContext :=
  if context.reseedCounter > p.reseedInterval then (⟨.error .reseedRequired, output.data⟩, context)
  else
    match generateBytes cipher environment p output.data.length additional context with
    | (.error e, context) => (⟨.error e, zeros output.data.length⟩, context)
    | (.ok bytes, context) => (⟨.ok (), bytes⟩, context)

def cryptoCtrDrbgGenerateInternal (output additional : InputBytes) (predictionResistance : Bool)
    (context : LiberaCCtrDrbgContext) : Generated × LiberaCCtrDrbgContext :=
  if context.instantiated = false ∨ output.missing ∨ additional.missing then
    (⟨.error .invalidArgument, output.data⟩, context)
  else
    match ctrDrbgContextParameters context with
    | .error e => (⟨.error e, output.data⟩, context)
    | .ok p =>
      if output.data.length > p.maxRequestBytes then
        (⟨.error .messageTooLarge, output.data⟩, context)
      else if predictionResistance then
        match cryptoCtrDrbgReseedOsInternal cipher environment additional context with
        | (.error e, context) => (⟨.error e, output.data⟩, context)
        | (.ok (), context) => generateFrom cipher environment p output (.null 0) context
      else generateFrom cipher environment p output additional context

def cryptoCtrDrbgClearInternal : OnContext Unit := fun _ => (.ok (), clearedContext)

end Calls

end LiberaCrypt.CtrDrbg
