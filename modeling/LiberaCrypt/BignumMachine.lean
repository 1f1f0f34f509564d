import LiberaCrypt.BignumCodec
import LiberaCrypt.BignumInPlace
import LiberaCrypt.BignumProduct
import LiberaCrypt.CallSequence
import LiberaCrypt.ModExpAgree

namespace LiberaCrypt.BignumMachine

open LiberaCrypt.Outcome LiberaCrypt.Allocation LiberaCrypt.Bignum LiberaCrypt.BignumAdd
open LiberaCrypt.BignumCodec LiberaCrypt.BignumInPlace LiberaCrypt.BignumMod
open LiberaCrypt.BignumMul LiberaCrypt.BignumObjects LiberaCrypt.BignumProduct
open LiberaCrypt.BignumSecret LiberaCrypt.BignumSquare LiberaCrypt.CallSequence
open LiberaCrypt.Limbs LiberaCrypt.ModExpAgree LiberaCrypt.ModExpSecure
open LiberaCrypt.ModExpVartime LiberaCrypt.Montgomery

/-- The number of requests so far and the bignums of the program. -/
abbrev Machine := Nat × Objects

/-- A call on bignums by their addresses; an error leaves what was written before it. -/
abbrev OnBignums := ReaderT Host (ExceptT LiberaCError (StateM Machine))

variable {α β : Type}

def computing (x : Fallible α) : OnBignums α := fun host s =>
  match x host s.1 with
  | (r, k) => (r, (k, s.2))

def load (a : Nat) : OnBignums LiberaCBignum := fun _ s => (.ok (s.2 a), s)

def changing (f : Objects → Objects) : OnBignums Unit := fun _ s => (.ok (), (s.1, f s.2))

def store (out : Nat) (a : LiberaCBignum) : OnBignums Unit :=
  changing fun objects => Function.update objects out a

/-- A call whose errors all come before it writes to `OUT`. -/
def writing (out : Nat) (x : Fallible LiberaCBignum) : OnBignums Unit := do
  store out (← computing x)

/-- A call that, where `spoiled` says so, leaves something in `OUT` when it fails. -/
def spoiling (leftover : LiberaCBignum) (spoiled : Bool) (out : Nat) (x : Fallible LiberaCBignum) :
    OnBignums Unit := fun host s =>
  match x host s.1 with
  | (.ok r, k) => (.ok (), (k, Function.update s.2 out r))
  | (.error e, k) => (.error e, (k, if spoiled then Function.update s.2 out leftover else s.2))

/-- `y` is run in the state in which `x` fails. -/
def orElse (x y : OnBignums Unit) : OnBignums Unit := fun host s =>
  match x host s with
  | (.ok a, s) => (.ok a, s)
  | (.error _, s) => y host s

def cryptoBignumAddAt (out a b : Nat) : OnBignums Unit := do
  let aLength := (← load a).length
  let bLength := (← load b).length
  let oldLength := (← load out).length
  let n := if bLength < aLength then aLength else bLength
  if n = sizeMax then throw .invalidArgument
  else do
    store out (← computing (bignumReserve (← load out) (n + 1)))
    changing (addGrown out a b aLength bLength oldLength)

def cryptoBignumSubAt (out a b : Nat) : OnBignums Unit := do
  let x ← load a
  let y ← load b
  if cryptoBignumCompare x y = .lt then throw .invalidArgument
  else do
    let oldLength := (← load out).length
    store out (← computing (bignumReserve (← load out) x.length))
    changing (subGrown out a b x.length y.length oldLength)

def cryptoBignumCopyAt (out a : Nat) : OnBignums Unit :=
  if out = a then pure ()
  else do
    let x ← load a
    writing out (cryptoBignumCopy (← load out) x)

def karatsubaSpoiled (a b : List UInt32) : Bool :=
  match karatsubaTerms a b with
  | none => false
  | some (z0, z1, z2) => (karatsubaSum a.length z0 z1 z2).isNone

def bignumMulAt (leftover : LiberaCBignum) (out a b : Nat) : OnBignums Unit := do
  let x ← load a
  let y ← load b
  let aliased := decide (out = a ∨ out = b)
  let schoolbook := do writing out (cryptoBignumMulSchoolbook (← load out) x y aliased)
  if x.length = y.length ∧ karatsubaThresholdLimbs ≤ x.length then do
    let old ← load out
    orElse (spoiling leftover (!aliased && karatsubaSpoiled x.words y.words) out
      (bignumMulKaratsubaNoalias (if aliased then cryptoBignumInit else old) x y)) schoolbook
  else schoolbook

def bignumSquareAt (leftover : LiberaCBignum) (out a : Nat) : OnBignums Unit := do
  let x ← load a
  let aliased := decide (out = a)
  let spoiled := (squareRows x.words 0 (List.replicate (2 * x.length) 0)).isNone
  spoiling leftover (!aliased && spoiled) out (cryptoBignumSquare (← load out) x aliased)

def modExpCtWords (bases : List LiberaCBignum) (exponent modulus : LiberaCBignum) (fixed : Bool) :
    Fallible (List (List UInt32)) :=
  let count := bases.length
  let n := modulus.length
  if n = 0 then throw .invalidArgument
  else if modulus.limbs.getD 0 0 &&& 1 = 0 then throw .invalidArgument
  else if fixed ∧ ∃ base ∈ bases, base.capacity < n then throw .invalidArgument
  else if ¬ fixed ∧ ∃ base ∈ bases, cryptoBignumCompare base modulus ≠ .lt then
    throw .invalidArgument
  else if exponent.capacity < n then throw .invalidArgument
  else if sizeMax / 32 < n ∨ sizeMax / (2 + 4 * count) < n then throw .messageTooLarge
  else do
    let ctx ← reported (bignumCtMontInit modulus) .allocationFailed
    allocate (4 * ((2 + 4 * count) * n)) .allocationFailed
    let oneM := bignumCtMontMul ctx (oneWords n) ctx.r2
    let states := scanExponent ctx exponent (bases.map (startState ctx fixed oneM))
    pure (states.map fun state => bignumCtMontMul ctx state.acc (oneWords n))

def cryptoBignumModExp2CtAt (out1 base1 out2 base2 exponent modulus : Nat) : OnBignums Unit :=
  if out1 = out2 then throw .invalidArgument
  else do
    let x1 ← load base1
    let x2 ← load base2
    let e ← load exponent
    let m ← load modulus
    let words ← computing (modExpCtWords [x1, x2] e m false)
    writing out1 (bignumCtStoreFixed (words.getD 0 []) m.length)
    writing out2 (bignumCtStoreFixed (words.getD 1 []) m.length)

inductive Command
  | free (out : Nat)
  | setU64 (out : Nat) (value : UInt64)
  | copy (out a : Nat)
  | fromBytes (big : Bool) (out : Nat) (bytes : List UInt8)
  | add (out a b : Nat)
  | sub (out a b : Nat)
  | mul (out a b : Nat)
  | square (out a : Nat)
  | mod (out a modulus : Nat)
  | modMul (out a b modulus : Nat)
  | modSquare (out a modulus : Nat)
  | modExp (engine : Engine) (out base exponent modulus : Nat)
  | modExp2Ct (out1 base1 out2 base2 exponent modulus : Nat)
  | copySecretFixed (out a fixedLimbs : Nat)
  | copySecretFixedCt (out a fixedLimbs : Nat)
  | fromBytesSecretFixedCt (big : Bool) (out : Nat) (bytes : List UInt8) (fixedLimbs : Nat)
  | subSecretFixed (out a b fixedLimbs : Nat)

/-- `leftover` is whatever an accumulation that fails on its way leaves in `OUT`. -/
def exec (leftover : LiberaCBignum) : Command → OnBignums Unit
  | .free out => store out cryptoBignumInit
  | .setU64 out value => do writing out (cryptoBignumSetU64 (← load out) value)
  | .copy out a => cryptoBignumCopyAt out a
  | .fromBytes big out bytes => do writing out (cryptoBignumFromBytes big (← load out) bytes)
  | .add out a b => cryptoBignumAddAt out a b
  | .sub out a b => cryptoBignumSubAt out a b
  | .mul out a b => bignumMulAt leftover out a b
  | .square out a => bignumSquareAt leftover out a
  | .mod out a modulus => do
    writing out (cryptoBignumMod (← load out) (← load a) (← load modulus))
  | .modMul out a b modulus => do
    writing out (cryptoBignumModMul (← load out) (← load a) (← load b) (← load modulus))
  | .modSquare out a modulus => do
    writing out (cryptoBignumModSquare (← load out) (← load a) (← load modulus))
  | .modExp engine out base exponent modulus => do
    writing out (engine.run (← load out) (← load base) (← load exponent) (← load modulus))
  | .modExp2Ct out1 base1 out2 base2 exponent modulus =>
    cryptoBignumModExp2CtAt out1 base1 out2 base2 exponent modulus
  | .copySecretFixed out a fixedLimbs => do
    writing out (cryptoBignumCopySecretFixed (← load a) fixedLimbs)
  | .copySecretFixedCt out a fixedLimbs => do
    writing out (cryptoBignumCopySecretFixedCt (← load a) fixedLimbs)
  | .fromBytesSecretFixedCt big out bytes fixedLimbs =>
    writing out (bignumFromBytesSecretFixedCt bytes fixedLimbs big)
  | .subSecretFixed out a b fixedLimbs => do
    writing out (cryptoBignumSubSecretFixed (← load a) (← load b) fixedLimbs)

def values (objects : Objects) : Nat → Nat := fun i => (objects i).value

/-- The number at `out` is replaced by one that is `good`. -/
def Writes (before after : Nat → Nat) (out : Nat) (good : Nat → Prop) : Prop :=
  ∃ r, good r ∧ after = Function.update before out r

def limbsOf (x : Nat) : Nat := (x.size + 31) / 32

/-- What an engine returns. Those that scan an exponent over the width of the modulus see that
much of it, and the one that trusts its caller's base promises nothing of a base that is too
large. -/
def power : Engine → (base exponent modulus r : Nat) → Prop
  | .ct, base, exponent, modulus, r => modulus % 2 = 1 ∧ base < modulus ∧
    r = base ^ (exponent % wordBase ^ limbsOf modulus) % modulus
  | .ctFixedBase, base, exponent, modulus, r => modulus % 2 = 1 ∧
    (base < modulus → r = base ^ (exponent % wordBase ^ limbsOf modulus) % modulus)
  | .publicFixedBase, base, exponent, modulus, r => modulus % 2 = 1 ∧ exponent ≠ 0 ∧
    base < modulus ∧ r = base ^ exponent % modulus
  | _, base, exponent, modulus, r => modulus ≠ 0 ∧ r = base ^ exponent % modulus

def Effect (before after : Nat → Nat) : Command → Prop
  | .free out => Writes before after out fun r => r = 0
  | .setU64 out value => Writes before after out fun r => r = value.toNat
  | .copy out a => Writes before after out fun r => r = before a
  | .fromBytes big out bytes => Writes before after out fun r => r = decode big bytes
  | .add out a b => Writes before after out fun r => r = before a + before b
  | .sub out a b => Writes before after out fun r => before b ≤ before a ∧ r = before a - before b
  | .mul out a b => Writes before after out fun r => r = before a * before b
  | .square out a => Writes before after out fun r => r = before a ^ 2
  | .mod out a m => Writes before after out fun r => before m ≠ 0 ∧ r = before a % before m
  | .modMul out a b m =>
    Writes before after out fun r => before m ≠ 0 ∧ r = before a * before b % before m
  | .modSquare out a m =>
    Writes before after out fun r => before m ≠ 0 ∧ r = before a ^ 2 % before m
  | .modExp engine out base e m =>
    Writes before after out (power engine (before base) (before e) (before m))
  | .modExp2Ct out1 base1 out2 base2 e m => out1 ≠ out2 ∧
    ∃ middle, Writes before middle out1 (power .ct (before base1) (before e) (before m)) ∧
      Writes middle after out2 (power .ct (before base2) (before e) (before m))
  | .copySecretFixed out a n =>
    Writes before after out fun r => before a < wordBase ^ n ∧ r = before a
  | .copySecretFixedCt out a n => Writes before after out fun r => r = before a % wordBase ^ n
  | .fromBytesSecretFixedCt big out bytes _ =>
    Writes before after out fun r => r = decode big bytes
  | .subSecretFixed out a b n =>
    Writes before after out fun r => before b % wordBase ^ n ≤ before a % wordBase ^ n ∧
      r = before a % wordBase ^ n - before b % wordBase ^ n

/-- A failure changes no number, but for the first of two results. -/
def Failure (before after : Nat → Nat) : Command → Prop
  | .modExp2Ct out1 base1 _ _ e m => after = before ∨
    Writes before after out1 (power .ct (before base1) (before e) (before m))
  | _ => after = before

end LiberaCrypt.BignumMachine
