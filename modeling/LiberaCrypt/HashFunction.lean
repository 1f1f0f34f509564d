import LiberaCrypt.Allocation
import LiberaCrypt.Lsh
import LiberaCrypt.Sha1
import LiberaCrypt.Sha2
import LiberaCrypt.Sha3

namespace LiberaCrypt.HashFunction

open LiberaCrypt.Outcome LiberaCrypt.Def LiberaCrypt.Sha1 LiberaCrypt.Sha2 LiberaCrypt.Sha3
open LiberaCrypt.Lsh

inductive CryptoHashFamily
  | none
  | sha1
  | sha2
  | sha3
  | lsh
  deriving DecidableEq

/-- `none` is the zero of cleared storage. -/
inductive CryptoHashPhase
  | none
  | absorbing
  | finalized
  | squeezing
  | consumed
  deriving DecidableEq

def hashFamily : LiberaCAlgID → CryptoHashFamily
  | .hashSha1 => .sha1
  | .hashSha2_224 => .sha2
  | .hashSha2_256 => .sha2
  | .hashSha2_384 => .sha2
  | .hashSha2_512 => .sha2
  | .hashSha2_512_224 => .sha2
  | .hashSha2_512_256 => .sha2
  | .hashSha3_224 => .sha3
  | .hashSha3_256 => .sha3
  | .hashSha3_384 => .sha3
  | .hashSha3_512 => .sha3
  | .hashShake128 => .sha3
  | .hashShake256 => .sha3
  | .hashLsh_256_224 => .lsh
  | .hashLsh_256_256 => .lsh
  | .hashLsh_512_224 => .lsh
  | .hashLsh_512_256 => .lsh
  | .hashLsh_512_384 => .lsh
  | .hashLsh_512_512 => .lsh
  | _ => .none

def isShake (alg : LiberaCAlgID) : Bool := alg = .hashShake128 || alg = .hashShake256

def fixedDigestLength : LiberaCAlgID → Nat
  | .hashSha1 => 20
  | .hashSha2_224 => 28
  | .hashSha2_512_224 => 28
  | .hashLsh_256_224 => 28
  | .hashLsh_512_224 => 28
  | .hashSha3_224 => 28
  | .hashSha2_256 => 32
  | .hashSha2_512_256 => 32
  | .hashLsh_256_256 => 32
  | .hashLsh_512_256 => 32
  | .hashSha3_256 => 32
  | .hashSha2_384 => 48
  | .hashLsh_512_384 => 48
  | .hashSha3_384 => 48
  | .hashSha2_512 => 64
  | .hashLsh_512_512 => 64
  | .hashSha3_512 => 64
  | _ => 0

/-- The member of the union that a family uses. -/
def CryptoHashAlgorithmState : CryptoHashFamily → Type
  | .none => Unit
  | .sha1 => CryptoSha1Context
  | .sha2 => CryptoSha2Context
  | .sha3 => CryptoSha3Context
  | .lsh => CryptoLshContext

def zeroState : (family : CryptoHashFamily) → CryptoHashAlgorithmState family
  | .none => ()
  | .sha1 => ⟨⟨Vector.replicate 5 0, List.replicate 64 0, 0⟩, 0⟩
  | .sha2 => ⟨⟨.words32 (Vector.replicate 8 0), List.replicate 128 0, 0⟩, 0, 0⟩
  | .sha3 => ⟨Vector.replicate 25 0, 0, 0, 0, false⟩
  | .lsh => ⟨⟨.lsh256 (Vector.replicate 16 0), List.replicate 256 0, 0⟩, 0⟩

def cryptoHashContextMagic : UInt32 := 0x43524853

/-- What the bytes of a context hold, as `crypto_hash_context_impl`. -/
structure LiberaCHashContext where
  magic : UInt32
  alg : LiberaCAlgID
  phase : CryptoHashPhase
  state : CryptoHashAlgorithmState (hashFamily alg)

def clearedContext : LiberaCHashContext := ⟨0, .none, .none, ()⟩

def LiberaCHashContext.Loads (context : LiberaCHashContext) : Prop :=
  context.magic = cryptoHashContextMagic ∧ hashFamily context.alg ≠ .none ∧ context.phase ≠ .none

instance (context : LiberaCHashContext) : Decidable context.Loads :=
  inferInstanceAs (Decidable (_ ∧ _ ∧ _))

/-- A function on a context: a value or a status, and the context that it leaves. -/
abbrev OnContext (α : Type) := ExceptT LiberaCError (StateM LiberaCHashContext) α

def initState (alg : LiberaCAlgID) :
    (family : CryptoHashFamily) → Except LiberaCError (CryptoHashAlgorithmState family)
  | .none => .error .invalidAlgId
  | .sha1 => .ok cryptoSha1Init
  | .sha2 => cryptoSha2Init alg
  | .sha3 => cryptoSha3Init alg
  | .lsh => cryptoLshInit alg

def liberacHashClear : OnContext Unit := fun _ => (.ok (), clearedContext)

def liberacHashInit (alg : LiberaCAlgID) : OnContext Unit := fun _ =>
  match initState alg (hashFamily alg) with
  | .ok state => (.ok (), ⟨cryptoHashContextMagic, alg, .absorbing, state⟩)
  | .error e => (.error e, clearedContext)

def updateState : (family : CryptoHashFamily) → CryptoHashAlgorithmState family → List UInt8 →
    Except LiberaCError (CryptoHashAlgorithmState family)
  | .none, _, _ => .error .invalidArgument
  | .sha1, state, input => cryptoSha1Update state input
  | .sha2, state, input => cryptoSha2Update state input
  | .sha3, state, input => .ok (cryptoSha3Update state input)
  | .lsh, state, input => cryptoLshUpdate state input

def liberacHashUpdate (input : InputBytes) : OnContext Unit := fun context =>
  if input.missing ∨ ¬ context.Loads ∨ context.phase ≠ .absorbing then
    (.error .invalidArgument, context)
  else match updateState _ context.state input.data with
  | .ok state => (.ok (), { context with state := state })
  | .error e => (.error e, context)

def finalizeState : (family : CryptoHashFamily) → CryptoHashAlgorithmState family →
    Except LiberaCError (CryptoHashAlgorithmState family)
  | .none, _ => .error .invalidArgument
  | .sha1, state => .ok (cryptoSha1Finalize state)
  | .sha2, state => .ok (cryptoSha2Finalize state)
  | .sha3, state => .ok (cryptoSha3Finalize state)
  | .lsh, state => .ok (cryptoLshFinalize state)

def liberacHashFinalize : OnContext Unit := fun context =>
  if ¬ context.Loads ∨ context.phase ≠ .absorbing then (.error .invalidArgument, context)
  else match finalizeState _ context.state with
  | .ok state => (.ok (), { context with phase := .finalized, state := state })
  | .error e => (.error e, context)

def squeezeXof (outputLength : Nat) : (family : CryptoHashFamily) →
    CryptoHashAlgorithmState family → List UInt8 × CryptoHashAlgorithmState family
  | .sha3, state => cryptoSha3Squeeze state outputLength
  | .none, state => ([], state)
  | .sha1, state => ([], state)
  | .sha2, state => ([], state)
  | .lsh, state => ([], state)

def squeezeFixed (alg : LiberaCAlgID) (digestLength : Nat) : (family : CryptoHashFamily) →
    CryptoHashAlgorithmState family → Except LiberaCError (List UInt8)
  | .none, _ => .error .invalidArgument
  | .sha1, state => .ok (cryptoSha1Squeeze state)
  | .sha2, state => .ok (cryptoSha2Squeeze state alg)
  | .sha3, state => .ok (cryptoSha3Squeeze state digestLength).1
  | .lsh, state => .ok (cryptoLshSqueeze state alg)

/-- The bytes written to `OUTPUT`, which is not there when `outputNull`. -/
def liberacHashSqueeze (outputNull : Bool) (outputLength : Nat) : OnContext (List UInt8) :=
  fun context =>
  if (outputNull ∧ outputLength ≠ 0) ∨ ¬ context.Loads then (.error .invalidArgument, context)
  else if isShake context.alg then
    if context.phase ≠ .finalized ∧ context.phase ≠ .squeezing then
      (.error .invalidArgument, context)
    else
      let squeezed := squeezeXof outputLength _ context.state
      (.ok squeezed.1, { context with phase := .squeezing, state := squeezed.2 })
  else if context.phase ≠ .finalized then (.error .invalidArgument, context)
  else
    let digestLength := fixedDigestLength context.alg
    if outputLength < digestLength then (.error .bufferTooSmall, context)
    else if outputNull then (.error .invalidArgument, context)
    else match squeezeFixed context.alg digestLength _ context.state with
    | .ok output => (.ok output, { context with phase := .consumed, state := zeroState _ })
    | .error e => (.error e, context)

/-- The calls that `LIBERAC_HASH` makes on a context of its own. -/
def hashCalls (outputNull : Bool) (outputLength : Nat) (input : InputBytes) (alg : LiberaCAlgID) :
    OnContext (List UInt8) := do
  liberacHashInit alg
  liberacHashUpdate input
  liberacHashFinalize
  liberacHashSqueeze outputNull outputLength

def liberacHash (outputNull : Bool) (outputLength : Nat) (input : InputBytes)
    (alg : LiberaCAlgID) : Except LiberaCError (List UInt8) :=
  if input.missing ∨ (outputNull ∧ outputLength ≠ 0) then .error .invalidArgument
  else if ¬ isShake alg ∧ fixedDigestLength alg = 0 then .error .invalidAlgId
  else if ¬ isShake alg ∧ outputLength < fixedDigestLength alg then .error .bufferTooSmall
  else (hashCalls outputNull outputLength input alg clearedContext).1

end LiberaCrypt.HashFunction
