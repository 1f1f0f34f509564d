import LiberaCrypt.AeadScheme
import LiberaCrypt.Endian
import LiberaCrypt.KeystreamXor
import LiberaCrypt.Poly1305

namespace LiberaCrypt.ChaCha20

open LiberaCrypt.CountedLoop LiberaCrypt.Endian LiberaCrypt.Outcome LiberaCrypt.ByteMemory
open LiberaCrypt.KeystreamXor

def rotateLeft32 (value : UInt32) (shift : UInt32) : UInt32 :=
  (value <<< shift) ||| (value >>> (32 - shift))

def chachaQuarterRound (a b c d : Fin 16) (x : Vector UInt32 16) : Vector UInt32 16 :=
  let xa := x[a] + x[b]
  let xd := rotateLeft32 (x[d] ^^^ xa) 16
  let xc := x[c] + xd
  let xb := rotateLeft32 (x[b] ^^^ xc) 12
  let xa := xa + xb
  let xd := rotateLeft32 (xd ^^^ xa) 8
  let xc := xc + xd
  let xb := rotateLeft32 (xb ^^^ xc) 7
  (((x.set a xa).set b xb).set c xc).set d xd

def chacha20InitialState (key nonce : List UInt8) : Vector UInt32 16 :=
  #v[0x61707865, 0x3320646e, 0x79622d32, 0x6b206574,
    cryptoLoad32Le key, cryptoLoad32Le (key.drop 4), cryptoLoad32Le (key.drop 8),
    cryptoLoad32Le (key.drop 12), cryptoLoad32Le (key.drop 16), cryptoLoad32Le (key.drop 20),
    cryptoLoad32Le (key.drop 24), cryptoLoad32Le (key.drop 28),
    0, cryptoLoad32Le nonce, cryptoLoad32Le (nonce.drop 4), cryptoLoad32Le (nonce.drop 8)]

def doubleRound (x : Vector UInt32 16) : Vector UInt32 16 :=
  let x := chachaQuarterRound 0 4 8 12 x
  let x := chachaQuarterRound 1 5 9 13 x
  let x := chachaQuarterRound 2 6 10 14 x
  let x := chachaQuarterRound 3 7 11 15 x
  let x := chachaQuarterRound 0 5 10 15 x
  let x := chachaQuarterRound 1 6 11 12 x
  let x := chachaQuarterRound 2 7 8 13 x
  chachaQuarterRound 3 4 9 14 x

def chacha20BlockFromState (initial : Vector UInt32 16) (counter : UInt32) : List UInt8 :=
  let x := countUp 10 (fun _ x => doubleRound x) (initial.set 12 counter)
  (List.finRange 16).flatMap fun i : Fin 16 =>
    let original := if i = 12 then counter else initial[i]
    cryptoStore32Le (x[i] + original)

def cryptoChacha20ValidateLength (inputLength : Nat) (initialCounter : UInt32) :
    Except LiberaCError Unit :=
  let blocks := inputLength / 64
  let availableBlocks := 2 ^ 32 - 1 - initialCounter.toNat + 1
  let blocks := if inputLength % 64 ≠ 0 then blocks + 1 else blocks
  if blocks > availableBlocks then .error .messageTooLarge else .ok ()

def cryptoChacha20BlockInternal (key nonce : List UInt8) (counter : UInt32) : List UInt8 :=
  chacha20BlockFromState (chacha20InitialState key nonce) counter

/-- The block of a piece, and the counter, which goes up only when another piece follows. -/
def chacha20Next (initial : Vector UInt32 16) (more : Bool) (counter : UInt32) :
    Except LiberaCError (List UInt8 × UInt32) :=
  .ok (chacha20BlockFromState initial counter, if more then counter + 1 else counter)

def cryptoChacha20XorInternal (output input inputLength key nonce : Nat) (initialCounter : UInt32) :
    OnMemory Unit := do
  compute (cryptoChacha20ValidateLength inputLength initialCounter)
  let keyBytes ← load key 32
  let nonceBytes ← load nonce 12
  let initial := chacha20InitialState keyBytes nonceBytes
  xorLoop 64 (fun _ => chacha20Next initial) output input inputLength 0 initialCounter

end LiberaCrypt.ChaCha20

namespace LiberaCrypt.ChaCha20Poly1305

open LiberaCrypt.AeadRequest LiberaCrypt.ConstantTime LiberaCrypt.Endian LiberaCrypt.Outcome
open LiberaCrypt.ByteMemory LiberaCrypt.ChaCha20 LiberaCrypt.Poly1305

def cryptoChacha20Poly1305ValidateLengths (messageLength aadLength : Nat) :
    Except LiberaCError Unit :=
  if messageLength > 2 ^ 64 - 1 ∨ aadLength > 2 ^ 64 - 1 then .error .messageTooLarge
  else cryptoChacha20ValidateLength messageLength 1

def poly1305Pad16 (context : CryptoPoly1305Context) (unpaddedLength : Nat) :
    CryptoPoly1305Context :=
  let remainder := unpaddedLength % 16
  if remainder ≠ 0 then cryptoPoly1305Update context (List.replicate (16 - remainder) 0)
  else context

def chacha20Poly1305Tag (key nonce aad ciphertext : List UInt8) : List UInt8 :=
  let blockZero := cryptoChacha20BlockInternal key nonce 0
  let context := cryptoPoly1305Init blockZero
  let context := cryptoPoly1305Update context aad
  let context := poly1305Pad16 context aad.length
  let context := cryptoPoly1305Update context ciphertext
  let context := poly1305Pad16 context ciphertext.length
  let lengths := cryptoStore64Le (UInt64.ofNat aad.length) ++
    cryptoStore64Le (UInt64.ofNat ciphertext.length)
  cryptoPoly1305Final (cryptoPoly1305Update context lengths)

def cryptoChacha20Poly1305EncryptInternal (r : Request) : OnMemory Unit := do
  compute (cryptoChacha20Poly1305ValidateLengths r.inputLength r.aadLength)
  wipeOnError r.output r.inputLength do
    cryptoChacha20XorInternal r.output r.input r.inputLength r.key r.nonce 1
    let key ← load r.key 32
    let nonce ← load r.nonce 12
    let aad ← load r.aad r.aadLength
    let ciphertext ← load r.output r.inputLength
    store r.tag (chacha20Poly1305Tag key nonce aad ciphertext)

def cryptoChacha20Poly1305DecryptInternal (r : Request) : OnMemory Unit := do
  compute (cryptoChacha20Poly1305ValidateLengths r.inputLength r.aadLength)
  let key ← load r.key 32
  let nonce ← load r.nonce 12
  let aad ← load r.aad r.aadLength
  let ciphertext ← load r.input r.inputLength
  let expected := chacha20Poly1305Tag key nonce aad ciphertext
  let tag ← load r.tag 16
  wipeOnError r.output r.inputLength
    (if ¬ cryptoConstantTimeEqual expected tag 16 then compute (.error .authenticationFailed)
    else cryptoChacha20XorInternal r.output r.input r.inputLength r.key r.nonce 1)

end LiberaCrypt.ChaCha20Poly1305
