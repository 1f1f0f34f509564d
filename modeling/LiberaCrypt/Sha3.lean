import LiberaCrypt.CountedLoop
import LiberaCrypt.Def
import LiberaCrypt.Endian

namespace LiberaCrypt.Sha3

open LiberaCrypt.Outcome LiberaCrypt.Def LiberaCrypt.CountedLoop LiberaCrypt.Endian

def roundConstants : Array UInt64 := #[
  0x0000000000000001, 0x0000000000008082, 0x800000000000808a, 0x8000000080008000,
  0x000000000000808b, 0x0000000080000001, 0x8000000080008081, 0x8000000000008009,
  0x000000000000008a, 0x0000000000000088, 0x0000000080008009, 0x000000008000000a,
  0x000000008000808b, 0x800000000000008b, 0x8000000000008089, 0x8000000000008003,
  0x8000000000008002, 0x8000000000000080, 0x000000000000800a, 0x800000008000000a,
  0x8000000080008081, 0x8000000000008080, 0x0000000080000001, 0x8000000080008008]

def rotationOffsets : Array Nat := #[
  0, 1, 62, 28, 27, 36, 44, 6, 55, 20, 3, 10, 43, 25, 39, 41, 45, 15, 21, 8, 18, 2, 61, 56, 14]

/-- The lanes of the state, lane `x + 5 * y` for the column `x` of the plane `y`. -/
abbrev State := Vector UInt64 25

scoped instance neZeroFive : NeZero 5 := ⟨by decide⟩

def columns (state : State) : Vector UInt64 5 :=
  Vector.ofFn fun x : Fin 5 =>
    state[x.val] ^^^ state[x.val + 5] ^^^ state[x.val + 10] ^^^ state[x.val + 15] ^^^
      state[x.val + 20]

def deltas (columns : Vector UInt64 5) : Vector UInt64 5 :=
  Vector.ofFn fun x : Fin 5 => columns[x + 4] ^^^ cryptoRotl64 columns[x + 1] 1

def addDeltas (deltas : Vector UInt64 5) (state : State) : State :=
  Vector.ofFn fun i : Fin 25 => state[i] ^^^ deltas.get ⟨i.val % 5, Nat.mod_lt _ (by decide)⟩

/-- Where lane `x + 5 * y` goes: `new_x + 5 * new_y`. -/
def permutedIndex (i : Fin 25) : Fin 25 :=
  let x := i.val % 5
  let y := i.val / 5
  let newX := y
  let newY := (2 * x + 3 * y) % 5
  ⟨newX + 5 * newY, by omega⟩

def permute (state : State) : State :=
  (List.finRange 25).foldl (fun permuted i =>
    permuted.set (permutedIndex i) (cryptoRotl64 state[i] (rotationOffsets.getD i 0)))
    (Vector.replicate 25 0)

def combineRows (permuted : State) : State :=
  Vector.ofFn fun i : Fin 25 =>
    let x := i.val % 5
    let y := i.val / 5
    permuted[x + 5 * y] ^^^ (~~~permuted[(x + 1) % 5 + 5 * y] &&& permuted[(x + 2) % 5 + 5 * y])

def keccakRound (round : Nat) (state : State) : State :=
  let state := addDeltas (deltas (columns state)) state
  let state := combineRows (permute state)
  state.set 0 (state[0] ^^^ roundConstants.getD round 0)

def keccakF1600 (state : State) : State := countUp 24 keccakRound state

structure CryptoSha3Context where
  state : State
  rate : Nat
  position : Nat
  domain : UInt8
  finalized : Bool

def sha3ContextInit (rate : Nat) (domain : UInt8) : CryptoSha3Context :=
  ⟨Vector.replicate 25 0, rate, 0, domain, false⟩

def xorByte (state : State) (position : Nat) (value : UInt8) : State :=
  let lane := position / 8
  let shift := 8 * (position % 8)
  state.setIfInBounds lane (state.getD lane 0 ^^^ (value.toUInt64 <<< UInt64.ofNat shift))

def getByte (state : State) (position : Nat) : UInt8 :=
  let lane := position / 8
  let shift := 8 * (position % 8)
  (state.getD lane 0 >>> UInt64.ofNat shift).toUInt8

def cryptoSha3Init : LiberaCAlgID → Except LiberaCError CryptoSha3Context
  | .hashSha3_224 => .ok (sha3ContextInit 144 0x06)
  | .hashSha3_256 => .ok (sha3ContextInit 136 0x06)
  | .hashSha3_384 => .ok (sha3ContextInit 104 0x06)
  | .hashSha3_512 => .ok (sha3ContextInit 72 0x06)
  | .hashShake128 => .ok (sha3ContextInit 168 0x1f)
  | .hashShake256 => .ok (sha3ContextInit 136 0x1f)
  | _ => .error .invalidAlgId

/-- One byte of input; the permutation is applied as soon as the rate is full. -/
def absorbByte (ctx : CryptoSha3Context) (value : UInt8) : CryptoSha3Context :=
  let state := xorByte ctx.state ctx.position value
  if ctx.position + 1 = ctx.rate then { ctx with state := keccakF1600 state, position := 0 }
  else { ctx with state := state, position := ctx.position + 1 }

def cryptoSha3Update (ctx : CryptoSha3Context) (input : List UInt8) : CryptoSha3Context :=
  if ctx.finalized then ctx else input.foldl absorbByte ctx

def cryptoSha3Finalize (ctx : CryptoSha3Context) : CryptoSha3Context :=
  if ctx.finalized then ctx
  else
    let state := xorByte ctx.state ctx.position ctx.domain
    let state := xorByte state (ctx.rate - 1) 0x80
    { ctx with state := keccakF1600 state, position := 0, finalized := true }

def squeezeByte (ctx : CryptoSha3Context) : UInt8 × CryptoSha3Context :=
  let ctx :=
    if ctx.position = ctx.rate then { ctx with state := keccakF1600 ctx.state, position := 0 }
    else ctx
  (getByte ctx.state ctx.position, { ctx with position := ctx.position + 1 })

def squeezeBytes : Nat → CryptoSha3Context → List UInt8 × CryptoSha3Context
  | 0, ctx => ([], ctx)
  | n + 1, ctx =>
    let first := squeezeByte ctx
    let rest := squeezeBytes n first.2
    (first.1 :: rest.1, rest.2)

def cryptoSha3Squeeze (ctx : CryptoSha3Context) (outputLength : Nat) :
    List UInt8 × CryptoSha3Context :=
  squeezeBytes outputLength (if ctx.finalized then ctx else cryptoSha3Finalize ctx)

end LiberaCrypt.Sha3
