import LiberaCrypt.SlhShake

namespace LiberaCrypt.SlhSha2

open LiberaCrypt.BlockBuffer LiberaCrypt.CountedLoop LiberaCrypt.Endian LiberaCrypt.MonadicLoop
open LiberaCrypt.SlhDsa LiberaCrypt.SlhShake LiberaCrypt.SlhTrees

/-- A compression function on the bytes of a state and of a block. -/
structure Compression (size : Nat) where
  run : List UInt8 → List UInt8 → List UInt8
  run_length : ∀ h block, (run h block).length = size

/-- What SHA-256 and SHA-512 differ in; `stack` is what a block holds before it is written. -/
structure Sha2 where
  size : Nat
  blockSz : Nat
  padAt : Nat
  h0 : List UInt8
  compress : Compression size
  stack : List UInt8

/-- `sha2_256_t` and `sha2_512_t`; the words are kept with the highest byte first. -/
structure Sha2Var where
  h : List UInt8
  mp : List UInt8
  i : Nat
  len : Nat

def sha2_256 (compress : Compression 32) (stack : List UInt8) : Sha2 where
  size := 32
  blockSz := 64
  padAt := 56
  h0 := [
    0x6A, 0x09, 0xE6, 0x67, 0xBB, 0x67, 0xAE, 0x85, 0x3C, 0x6E, 0xF3,
    0x72, 0xA5, 0x4F, 0xF5, 0x3A, 0x51, 0x0E, 0x52, 0x7F, 0x9B, 0x05,
    0x68, 0x8C, 0x1F, 0x83, 0xD9, 0xAB, 0x5B, 0xE0, 0xCD, 0x19]
  compress := compress
  stack := stack

def sha2_512 (compress : Compression 64) (stack : List UInt8) : Sha2 where
  size := 64
  blockSz := 128
  padAt := 112
  h0 := [
    0x6A, 0x09, 0xE6, 0x67, 0xF3, 0xBC, 0xC9, 0x08, 0xBB, 0x67, 0xAE,
    0x85, 0x84, 0xCA, 0xA7, 0x3B, 0x3C, 0x6E, 0xF3, 0x72, 0xFE, 0x94,
    0xF8, 0x2B, 0xA5, 0x4F, 0xF5, 0x3A, 0x5F, 0x1D, 0x36, 0xF1, 0x51,
    0x0E, 0x52, 0x7F, 0xAD, 0xE6, 0x82, 0xD1, 0x9B, 0x05, 0x68, 0x8C,
    0x2B, 0x3E, 0x6C, 0x1F, 0x1F, 0x83, 0xD9, 0xAB, 0xFB, 0x41, 0xBD,
    0x6B, 0x5B, 0xE0, 0xCD, 0x19, 0x13, 0x7E, 0x21, 0x79]
  compress := compress
  stack := stack

section Hash

variable (sha : Sha2)

def sha2Init : Sha2Var := ⟨sha.h0, sha.stack, 0, 0⟩

def sha2Copy (src : Sha2Var) : Sha2Var :=
  { src with mp := copyAt sha.stack 0 (src.mp.take src.i) }

def sha2Compress (v : Sha2Var) : Sha2Var := { v with h := sha.compress.run v.h v.mp }

def sha2Fill (v : Sha2Var) (m : List UInt8) : Sha2Var × List UInt8 :=
  let l := sha.blockSz - v.i
  if 0 < v.i then
    ({ sha2Compress sha { v with mp := copyAt v.mp v.i (m.take l) } with i := 0 }, m.drop l)
  else (v, m)

def sha2Update (v : Sha2Var) (m : List UInt8) : Sha2Var :=
  let v := { v with len := v.len + m.length }
  if m.length < sha.blockSz - v.i then { v with
    mp := copyAt v.mp v.i m
    i := v.i + m.length }
  else
    let (v, m) := sha2Fill sha v m
    let v := countUp (m.length / sha.blockSz) (fun j v =>
      sha2Compress sha { v with
        mp := copyAt v.mp 0 ((m.drop (sha.blockSz * j)).take sha.blockSz) }) v
    let rest := m.drop (sha.blockSz * (m.length / sha.blockSz))
    { v with
      mp := copyAt v.mp 0 rest
      i := rest.length }

/-- `while (x > 0)`, at most the eight bytes of `x`. -/
def lengthLoop : Nat → UInt64 → Nat → List UInt8 → List UInt8
  | 0, _, _, mp => mp
  | rounds + 1, x, i, mp =>
    if 0 < x then lengthLoop rounds (x >>> 8) (i - 1) (copyAt mp (i - 1) [x.toUInt8]) else mp

def sha2FinalPad (v : Sha2Var) : Sha2Var :=
  let v := { v with
    mp := copyAt v.mp v.i [0x80]
    i := v.i + 1 }
  let v :=
    if sha.padAt < v.i then
      { sha2Compress sha { v with mp := fillAt v.mp v.i sha.blockSz 0 } with i := 0 }
    else v
  let mp := fillAt v.mp v.i sha.blockSz 0
  { v with mp := lengthLoop 8 (UInt64.ofNat v.len <<< 3) sha.blockSz mp }

def sha2FinalLen (v : Sha2Var) (hSz : Nat) : List UInt8 :=
  (sha2Compress sha (sha2FinalPad sha v)).h.take hSz

end Hash

def adrsc22 (s : Adrs) : List UInt8 :=
  let u8 := adrsBytes s
  u8.getD 3 0 :: (u8.drop 8).take 8 ++ (u8.drop 19).take 13

section Functions

variable (sha : Sha2) (n : Nat) (var : SlhVar)

def updateContext (v : Sha2Var) (ctx : Option (List UInt8)) : Sha2Var :=
  match ctx with
  | some ctx => sha2Update sha (sha2Update sha v [0, UInt8.ofNat (ctx.length &&& 0xff)]) ctx
  | none => v

def sha2HMsg (m : Nat) (r msg : List UInt8) (ctx : Option (List UInt8)) : List UInt8 :=
  let v := sha2Update sha (sha2Init sha) r
  let v := sha2Update sha v var.pkSeed
  let v := sha2Update sha v var.pkRoot
  let v := updateContext sha v ctx
  let v := sha2Update sha v msg
  let buf := r ++ var.pkSeed ++ sha2FinalLen sha v sha.size
  countUp ((m + sha.size - 1) / sha.size) (fun c h =>
    let v := sha2Update sha (sha2Init sha) (buf ++ cryptoStore32Be (UInt32.ofNat c))
    h ++ (sha2FinalLen sha v sha.size).take (m - sha.size * c)) []

def sha2PrfMsg (optRand msg : List UInt8) (ctx : Option (List UInt8)) : List UInt8 :=
  let pad := var.skPrf.map (fun x => x ^^^ 0x36) ++ List.replicate (sha.blockSz - n) 0x36
  let v := sha2Update sha (sha2Init sha) pad
  let v := sha2Update sha v optRand
  let v := updateContext sha v ctx
  let v := sha2Update sha v msg
  let buf := sha2FinalLen sha v sha.size
  let pad := pad.map fun x => x ^^^ (0x36 ^^^ 0x5C)
  let v := sha2Update sha (sha2Init sha) pad
  let v := sha2Update sha v buf
  sha2FinalLen sha v n

/-- The hash of the public seed and the zeros behind it, a whole block. -/
def sha2PkSeed (pkSeed : List UInt8) : Sha2Var :=
  let v := sha2Update sha (sha2Init sha) pkSeed
  sha2Update sha v (List.replicate (sha.blockSz - n) 0)

def sha2Adrsc (v : Sha2Var) : OnAdrs Sha2Var := do
  let adrs ← get
  pure (sha2Update sha v (adrsc22 adrs))

def sha2Prf : OnAdrs (List UInt8) := do
  let v ← sha2Adrsc sha (sha2Copy sha (sha2PkSeed sha n var.pkSeed))
  let v := sha2Update sha v var.skSeed
  let v := sha2Compress sha (sha2FinalPad sha v)
  pure (v.h.take n)

def sha2Tl (m : List UInt8) : OnAdrs (List UInt8) := do
  let v ← sha2Adrsc sha (sha2Copy sha (sha2PkSeed sha n var.pkSeed))
  let v := sha2Update sha v m
  pure (sha2FinalLen sha v n)

def sha2F (m1 : List UInt8) : OnAdrs (List UInt8) := sha2Tl sha n var m1

def sha2H (m1 m2 : List UInt8) : OnAdrs (List UInt8) := do
  let v ← sha2Adrsc sha (sha2Copy sha (sha2PkSeed sha n var.pkSeed))
  let v := sha2Update sha v m1
  let v := sha2Update sha v m2
  pure (sha2FinalLen sha v n)

/-- One more hash in `sp`; the first block in `v` is complete but for its node and its address. -/
def sha2ChainRound (v : Sha2Var) (i j : Nat) (sp : Sha2Var) : Sha2Var :=
  let mp := copyAt sp.mp 22 (sp.h.take n)
  let mp := copyAt mp 18 (bigEndian 4 (i + j))
  let mp := copyAt mp 0 (v.mp.take 18)
  let mp := copyAt mp (22 + n) ((v.mp.drop (22 + n)).take (64 - 22 - n))
  sha2Compress sha { sp with
    h := v.h
    mp := mp }

def sha2Chain (x : List UInt8) (i s : Nat) : OnAdrs (List UInt8) :=
  if s = 0 then pure x
  else do
    adrsSetHashAddress i
    let v ← sha2Adrsc sha (sha2Copy sha (sha2PkSeed sha n var.pkSeed))
    let v := sha2Update sha v x
    if s = 1 then pure (sha2FinalLen sha v n)
    else
      let v := sha2FinalPad sha v
      let sp := countUp (s - 1) (fun j sp => sha2ChainRound sha n v i (j + 1) sp)
        (sha2Compress sha v)
      pure (sp.h.take n)

def sha2WotsChain (s : Nat) : OnAdrs (List UInt8) := do
  adrsSetType adrsWotsPrf
  adrsSetTreeIndex 0
  let tmp ← sha2Prf sha n var
  adrsSetType adrsWotsHash
  adrsSetTreeIndex 0
  sha2Chain sha n var tmp 0 s

def sha2ForsHash : Nat → OnAdrs (List UInt8) := forsHashOf (sha2Prf sha n var) (sha2F sha n var)

end Functions

/-- Secrets and chains take SHA-256; `wide` is SHA-512 from security category 3 on. -/
def sha2Functions (sha wide : Sha2) (prm : SlhParam) : SlhFunctions where
  chain := sha2Chain sha prm.n
  wotsChain := sha2WotsChain sha prm.n
  forsHash := sha2ForsHash sha prm.n
  hMsg var := sha2HMsg wide var prm.m
  prfMsg := sha2PrfMsg wide prm.n
  hF := sha2F sha prm.n
  hH := sha2H wide prm.n
  hT := sha2Tl wide prm.n

end LiberaCrypt.SlhSha2
