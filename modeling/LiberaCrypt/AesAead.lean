import LiberaCrypt.AeadScheme
import LiberaCrypt.BlockBuffer

namespace LiberaCrypt.AesAead

open LiberaCrypt.AeadRequest LiberaCrypt.ConstantTime LiberaCrypt.CountedLoop LiberaCrypt.Endian
open LiberaCrypt.Outcome LiberaCrypt.ByteMemory LiberaCrypt.KeystreamXor

abbrev BlockFunction := List UInt8 → Except LiberaCError (List UInt8)

def zeroBlock : List UInt8 := List.replicate 16 0

def xorBlock (a b : List UInt8) : List UInt8 :=
  (List.range 16).map fun i => a.getD i 0 ^^^ b.getD i 0

@[simp] theorem xorBlock_length (a b : List UInt8) : (xorBlock a b).length = 16 := by
  rw [xorBlock, List.length_map, List.length_range]

/-- The last bytes of data, and zeros up to a whole block. -/
def zeroPadded (data : List UInt8) : List UInt8 := data ++ List.replicate (16 - data.length) 0

/-- An error of the block function is reported as an internal error. -/
def encryptInternal (encryptBlock : BlockFunction) : BlockFunction := fun block =>
  match encryptBlock block with
  | .ok result => .ok result
  | .error _ => .error .internal

theorem encryptInternal_total {encryptBlock : BlockFunction}
    (htotal : ∀ block, ∃ result, encryptBlock block = .ok result) (block : List UInt8) :
    ∃ result, encryptInternal encryptBlock block = .ok result := by
  obtain ⟨result, hresult⟩ := htotal block
  exact ⟨result, by rw [encryptInternal, hresult]⟩

section Gcm

def gcmShiftRightOne (carry : UInt8) : List UInt8 → List UInt8
  | [] => []
  | x :: v => ((x >>> 1) ||| (carry <<< 7)) :: gcmShiftRightOne (x &&& 1) v

def gcmMultiply (x h : List UInt8) : List UInt8 :=
  let step := fun (bit : Nat) (state : List UInt8 × List UInt8) =>
    let z := state.1
    let v := state.2
    let mask : UInt8 := 0 - ((x.getD (bit / 8) 0 >>> UInt8.ofNat (7 - bit % 8)) &&& 1)
    let lsb := v.getD 15 0 &&& 1
    let z := xorBlock z (v.map (· &&& mask))
    let v := gcmShiftRightOne 0 v
    (z, v.set 0 (v.getD 0 0 ^^^ (0xe1 &&& (0 - lsb))))
  (countUp 128 step (zeroBlock, h)).1

def ghashBlock (y h block : List UInt8) : List UInt8 := gcmMultiply (xorBlock y block) h

def ghashBytes (y h data : List UInt8) : List UInt8 :=
  if _h : 16 ≤ data.length then ghashBytes (ghashBlock y h (data.take 16)) h (data.drop 16)
  else if data.length ≠ 0 then ghashBlock y h (zeroPadded data)
  else y
termination_by data.length
decreasing_by
  rw [List.length_drop]
  omega

/-- `for (i = last; …; --i)` over `count` bytes, left when a byte has not come back to zero. -/
def incrementBytes : Nat → Nat → List UInt8 → List UInt8
  | 0, _, counter => counter
  | count + 1, i, counter =>
    let counter := counter.set i (counter.getD i 0 + 1)
    if counter.getD i 0 ≠ 0 then counter else incrementBytes count (i - 1) counter

def gcmInc32 (counter : List UInt8) : List UInt8 := incrementBytes 4 15 counter

def maxBitStringBytes : Nat := (2 ^ 64 - 1) / 8

def gcmMakeJ0 (h iv : List UInt8) : Except LiberaCError (List UInt8) :=
  if iv.length = 12 then .ok (iv ++ [0, 0, 0, 1])
  else if iv.length > maxBitStringBytes then .error .messageTooLarge
  else
    let lengths := List.replicate 8 0 ++ cryptoStore64Be (UInt64.ofNat (iv.length * 8))
    .ok (ghashBlock (ghashBytes zeroBlock h iv) h lengths)

def gcmTag (encryptBlock : BlockFunction) (h j0 aad ciphertext : List UInt8) :
    Except LiberaCError (List UInt8) :=
  if aad.length > maxBitStringBytes ∨ ciphertext.length > maxBitStringBytes then
    .error .messageTooLarge
  else
    let y := ghashBytes (ghashBytes zeroBlock h aad) h ciphertext
    let lengths := cryptoStore64Be (UInt64.ofNat (aad.length * 8)) ++
      cryptoStore64Be (UInt64.ofNat (ciphertext.length * 8))
    let y := ghashBlock y h lengths
    match encryptInternal encryptBlock j0 with
    | .error e => .error e
    | .ok s => .ok (xorBlock s y)

def gcmNext (encryptBlock : BlockFunction) (_more : Bool) (counter : List UInt8) :
    Except LiberaCError (List UInt8 × List UInt8) :=
  let counter := gcmInc32 counter
  match encryptInternal encryptBlock counter with
  | .error e => .error e
  | .ok stream => .ok (stream, counter)

def gcmCtr (encryptBlock : BlockFunction) (j0 : List UInt8) (input length output : Nat) :
    OnMemory Unit :=
  xorLoop 16 (fun _ => gcmNext encryptBlock) output input length 0 j0

def gcmTagLengthValid (tagLength : Nat) : Bool :=
  tagLength ∈ [4, 8, 12, 13, 14, 15, 16]

def gcmValidateLengths (ivLength aadLength messageLength tagLength : Nat) :
    Except LiberaCError Unit :=
  let maxGctrBytes := 0xfffffffe * 16
  if ¬ gcmTagLengthValid tagLength then .error .invalidArgument
  else if ivLength > maxBitStringBytes ∨ aadLength > maxBitStringBytes ∨
      messageLength > maxBitStringBytes ∨ messageLength > maxGctrBytes then
    .error .messageTooLarge
  else .ok ()

def gcmCheck (r : Request) : Except LiberaCError Unit :=
  if r.nonce = 0 ∨ r.missing then .error .invalidArgument
  else if r.nonceLength = 0 then .error .invalidArgument
  else gcmValidateLengths r.nonceLength r.aadLength r.inputLength r.tagLength

def cryptoAesGcmEncrypt (encryptBlock : BlockFunction) (r : Request) : OnMemory Unit := do
  compute (gcmCheck r)
  let h ← compute (encryptBlock zeroBlock)
  let iv ← load r.nonce r.nonceLength
  let j0 ← compute (gcmMakeJ0 h iv)
  gcmCtr encryptBlock j0 r.input r.inputLength r.output
  let aad ← load r.aad r.aadLength
  let ciphertext ← load r.output r.inputLength
  let fullTag ← compute (gcmTag encryptBlock h j0 aad ciphertext)
  store r.tag (fullTag.take r.tagLength)

def cryptoAesGcmDecrypt (encryptBlock : BlockFunction) (r : Request) : OnMemory Unit := do
  compute (gcmCheck r)
  wipeOnError r.output r.inputLength do
    let h ← compute (encryptBlock zeroBlock)
    let iv ← load r.nonce r.nonceLength
    let j0 ← compute (gcmMakeJ0 h iv)
    let aad ← load r.aad r.aadLength
    let ciphertext ← load r.input r.inputLength
    let fullTag ← compute (gcmTag encryptBlock h j0 aad ciphertext)
    let tag ← load r.tag r.tagLength
    if ¬ cryptoConstantTimeEqual fullTag tag r.tagLength then compute (.error .authenticationFailed)
    else gcmCtr encryptBlock j0 r.input r.inputLength r.output

end Gcm

section Ccm

def ccmEncodeLength (q value : Nat) : List UInt8 := bigEndian q value

def ccmLengthFits (q length : Nat) : Bool :=
  if q ≥ 8 then true else length ≤ 2 ^ (8 * q) - 1

def ccmMacBlock (encryptBlock : BlockFunction) (state block : List UInt8) :
    Except LiberaCError (List UInt8) :=
  encryptInternal encryptBlock (xorBlock state block)

def ccmMacBytes (encryptBlock : BlockFunction) (state data : List UInt8) :
    Except LiberaCError (List UInt8) :=
  if _h : 16 ≤ data.length then
    match ccmMacBlock encryptBlock state (data.take 16) with
    | .error e => .error e
    | .ok state => ccmMacBytes encryptBlock state (data.drop 16)
  else if data.length ≠ 0 then ccmMacBlock encryptBlock state (zeroPadded data)
  else .ok state
termination_by data.length
decreasing_by
  rw [List.length_drop]
  omega

def aadPrefix (aadLength : Nat) : List UInt8 :=
  if aadLength < 0xff00 then bigEndian 2 aadLength
  else if aadLength ≤ 2 ^ 32 - 1 then [0xff, 0xfe] ++ cryptoStore32Be (UInt32.ofNat aadLength)
  else [0xff, 0xff] ++ cryptoStore64Be (UInt64.ofNat aadLength)

def ccmMacAad (encryptBlock : BlockFunction) (state aad : List UInt8) :
    Except LiberaCError (List UInt8) :=
  if aad.length = 0 then .ok state
  else
    let header := aadPrefix aad.length
    let chunk := 16 - header.length
    let chunk := if chunk > aad.length then aad.length else chunk
    match ccmMacBlock encryptBlock state (zeroPadded (header ++ aad.take chunk)) with
    | .error e => .error e
    | .ok state => ccmMacBytes encryptBlock state (aad.drop chunk)

def ccmFirstBlock (nonce : List UInt8) (aadLength plaintextLength tagLength : Nat) : List UInt8 :=
  let q := 15 - nonce.length
  let flags := (if aadLength ≠ 0 then 0x40 else 0) ||| (((tagLength - 2) / 2) <<< 3) ||| (q - 1)
  UInt8.ofNat flags :: nonce ++ ccmEncodeLength q plaintextLength

def ccmComputeMac (encryptBlock : BlockFunction) (nonce aad plaintext : List UInt8)
    (tagLength : Nat) : Except LiberaCError (List UInt8) := do
  let b0 := ccmFirstBlock nonce aad.length plaintext.length tagLength
  let mac ← ccmMacBlock encryptBlock zeroBlock b0
  let mac ← ccmMacAad encryptBlock mac aad
  ccmMacBytes encryptBlock mac plaintext

def ccmCounterBlock (nonce : List UInt8) (value : Nat) : List UInt8 :=
  let q := 15 - nonce.length
  UInt8.ofNat (q - 1) :: nonce ++ ccmEncodeLength q value

def ccmNext (encryptBlock : BlockFunction) (nonce : List UInt8) (_more : Bool) (blockIndex : Nat) :
    Except LiberaCError (List UInt8 × Nat) :=
  match encryptInternal encryptBlock (ccmCounterBlock nonce blockIndex) with
  | .error e => .error e
  | .ok stream => .ok (stream, blockIndex + 1)

def ccmCtr (encryptBlock : BlockFunction) (nonce nonceLength input length output : Nat) :
    OnMemory Unit :=
  xorLoop 16 (fun memory => ccmNext encryptBlock (readBytes memory nonce nonceLength)) output input
    length 0 1

def ccmValidate (nonce nonceLength messageLength tagLength : Nat) : Except LiberaCError Unit :=
  if nonce = 0 ∨ nonceLength < 7 ∨ nonceLength > 13 then .error .invalidArgument
  else if tagLength < 4 ∨ tagLength > 16 ∨ tagLength % 2 = 1 then .error .invalidArgument
  else if ¬ ccmLengthFits (15 - nonceLength) messageLength then .error .messageTooLarge
  else .ok ()

def ccmCheck (r : Request) : Except LiberaCError Unit :=
  if r.missing then .error .invalidArgument
  else ccmValidate r.nonce r.nonceLength r.inputLength r.tagLength

def cryptoAesCcmEncrypt (encryptBlock : BlockFunction) (r : Request) : OnMemory Unit := do
  compute (ccmCheck r)
  let nonce ← load r.nonce r.nonceLength
  let aad ← load r.aad r.aadLength
  let plaintext ← load r.input r.inputLength
  let mac ← compute (ccmComputeMac encryptBlock nonce aad plaintext r.tagLength)
  ccmCtr encryptBlock r.nonce r.nonceLength r.input r.inputLength r.output
  let nonce ← load r.nonce r.nonceLength
  let s0 ← compute (encryptBlock (ccmCounterBlock nonce 0))
  store r.tag ((xorBlock mac s0).take r.tagLength)

def cryptoAesCcmDecrypt (encryptBlock : BlockFunction) (r : Request) : OnMemory Unit := do
  compute (ccmCheck r)
  wipeOnError r.output r.inputLength do
    ccmCtr encryptBlock r.nonce r.nonceLength r.input r.inputLength r.output
    let nonce ← load r.nonce r.nonceLength
    let aad ← load r.aad r.aadLength
    let plaintext ← load r.output r.inputLength
    let mac ← compute (ccmComputeMac encryptBlock nonce aad plaintext r.tagLength)
    let s0 ← compute (encryptBlock (ccmCounterBlock nonce 0))
    let expected := xorBlock mac s0
    let tag ← load r.tag r.tagLength
    if ¬ cryptoConstantTimeEqual expected tag r.tagLength then
      compute (.error .authenticationFailed)

end Ccm

end LiberaCrypt.AesAead
