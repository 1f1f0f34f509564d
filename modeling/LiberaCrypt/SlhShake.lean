import LiberaCrypt.BlockBuffer
import LiberaCrypt.SlhTrees

namespace LiberaCrypt.SlhShake

open LiberaCrypt.BlockBuffer LiberaCrypt.CountedLoop LiberaCrypt.Endian LiberaCrypt.MonadicLoop
open LiberaCrypt.SlhDsa LiberaCrypt.SlhTrees

structure Permutation where
  run : List UInt8 → List UInt8
  run_length : ∀ st, (run st).length = 200

/-- `sha3_var_t`, of which the size of a digest is zero once the padding is done. -/
structure Sha3Var where
  st : List UInt8
  pt : Nat
  rSz : Nat
  mdSz : Nat

def sha3Init (mdSz : Nat) : Sha3Var := ⟨List.replicate 200 0, 0, 200 - 2 * mdSz, mdSz⟩

def xorByte (st : List UInt8) (j : Nat) (x : UInt8) : List UInt8 :=
  copyAt st j [st.getD j 0 ^^^ x]

section Sponge

variable (keccakF1600 : Permutation)

def sha3UpdateByte (c : Sha3Var) (x : UInt8) : Sha3Var :=
  let st := xorByte c.st c.pt x
  if c.rSz ≤ c.pt + 1 then { c with st := keccakF1600.run st, pt := 0 }
  else { c with st := st, pt := c.pt + 1 }

def sha3Update (c : Sha3Var) (data : List UInt8) : Sha3Var :=
  data.foldl (sha3UpdateByte keccakF1600) c

def shakePad (c : Sha3Var) : Sha3Var :=
  let st := xorByte (xorByte c.st c.pt 0x1F) (c.rSz - 1) 0x80
  { c with st := keccakF1600.run st, pt := 0, mdSz := 0 }

def shakeOutLoop : Nat → Sha3Var → List UInt8
  | 0, _ => []
  | n + 1, c =>
    let c := if c.rSz ≤ c.pt then { c with st := keccakF1600.run c.st, pt := 0 } else c
    c.st.getD c.pt 0 :: shakeOutLoop n { c with pt := c.pt + 1 }

def shakeOut (c : Sha3Var) (outSz : Nat) : List UInt8 :=
  shakeOutLoop keccakF1600 outSz (if c.mdSz ≠ 0 then shakePad keccakF1600 c else c)

def shake256 (data : List UInt8) (outSz : Nat) : List UInt8 :=
  shakeOut keccakF1600 (sha3Update keccakF1600 (sha3Init 32) data) outSz

end Sponge

def adrsBytes (s : Adrs) : List UInt8 :=
  cryptoStore32Be s.layer ++ cryptoStore32Be s.unused ++ cryptoStore32Be s.treeHigh ++
    cryptoStore32Be s.treeLow ++ cryptoStore32Be s.type ++ cryptoStore32Be s.keyPair ++
    cryptoStore32Be s.height ++ cryptoStore32Be s.index

section Functions

variable (keccakF1600 : Permutation) (n : Nat) (var : SlhVar)

def updateContext (c : Sha3Var) (ctx : Option (List UInt8)) : Sha3Var :=
  match ctx with
  | some ctx =>
    let c := sha3Update keccakF1600 c [0, UInt8.ofNat (ctx.length &&& 0xff)]
    sha3Update keccakF1600 c ctx
  | none => c

def shakeHMsg (m : Nat) (r msg : List UInt8) (ctx : Option (List UInt8)) : List UInt8 :=
  let sha3 := sha3Init 32
  let sha3 := sha3Update keccakF1600 sha3 r
  let sha3 := sha3Update keccakF1600 sha3 var.pkSeed
  let sha3 := sha3Update keccakF1600 sha3 var.pkRoot
  let sha3 := updateContext keccakF1600 sha3 ctx
  let sha3 := sha3Update keccakF1600 sha3 msg
  shakeOut keccakF1600 sha3 m

def shakePrfMsg (optRand msg : List UInt8) (ctx : Option (List UInt8)) : List UInt8 :=
  let sha3 := sha3Init 32
  let sha3 := sha3Update keccakF1600 sha3 var.skPrf
  let sha3 := sha3Update keccakF1600 sha3 optRand
  let sha3 := updateContext keccakF1600 sha3 ctx
  let sha3 := sha3Update keccakF1600 sha3 msg
  shakeOut keccakF1600 sha3 n

def shakeT (m : List UInt8) : OnAdrs (List UInt8) := do
  let adrs ← get
  let sha3 := sha3Init 32
  let sha3 := sha3Update keccakF1600 sha3 var.pkSeed
  let sha3 := sha3Update keccakF1600 sha3 (adrsBytes adrs)
  let sha3 := sha3Update keccakF1600 sha3 m
  pure (shakeOut keccakF1600 sha3 n)

def shakeF (m1 : List UInt8) : OnAdrs (List UInt8) := do
  let adrs ← get
  let sha3 := sha3Init 32
  let sha3 := sha3Update keccakF1600 sha3 var.pkSeed
  let sha3 := sha3Update keccakF1600 sha3 (adrsBytes adrs)
  let sha3 := sha3Update keccakF1600 sha3 m1
  pure (shakeOut keccakF1600 sha3 n)

def shakePrf : OnAdrs (List UInt8) := shakeF keccakF1600 n var var.skSeed

def shakeH (m1 m2 : List UInt8) : OnAdrs (List UInt8) := do
  let adrs ← get
  let sha3 := sha3Init 32
  let sha3 := sha3Update keccakF1600 sha3 var.pkSeed
  let sha3 := sha3Update keccakF1600 sha3 (adrsBytes adrs)
  let sha3 := sha3Update keccakF1600 sha3 m1
  let sha3 := sha3Update keccakF1600 sha3 m2
  pure (shakeOut keccakF1600 sha3 n)

/-- `ks[k] = x`, in the memory of a little-endian machine. -/
def storeWord (ks : List UInt8) (k : Nat) (x : UInt64) : List UInt8 :=
  copyAt ks (8 * k) (cryptoStore64Le x)

/-- One hash of the node behind the address; the seed, the address and the padding are written
around it. -/
def shakeChainBlock (adrs : Adrs) (ks : List UInt8) : List UInt8 :=
  let r := (1600 - 256 * 2) / 64
  let n8 := n / 8
  let h := n8 + 32 / 8
  let l := h + n8
  let ks := copyAt ks 0 var.pkSeed
  let ks := copyAt ks (8 * n8) (adrsBytes adrs)
  let ks := storeWord ks l 0x1F
  let ks := countUp (r - 1 - (l + 1)) (fun k ks => storeWord ks (l + 1 + k) 0) ks
  let ks := storeWord ks (r - 1) ((1 : UInt64) <<< 63)
  let ks := countUp (25 - r) (fun k ks => storeWord ks (r + k) 0) ks
  keccakF1600.run ks

/-- Round `j` of a chain; the result of the last one becomes the node of the next. -/
def shakeChainRound (i j : Nat) (ks : List UInt8) : OnAdrs (List UInt8) := do
  let h := n / 8 + 32 / 8
  let ks := if 0 < j then copyAt ks (8 * h) (ks.take n) else ks
  adrsSetHashAddress (i + j)
  let adrs ← get
  pure (shakeChainBlock keccakF1600 n var adrs ks)

/-- The array holds `stack` before anything is written to it. -/
def shakeChain (stack x : List UInt8) (i s : Nat) : OnAdrs (List UInt8) :=
  if s = 0 then pure x
  else do
    let h := n / 8 + 32 / 8
    let ks ← countUpM s (shakeChainRound keccakF1600 n var i) (copyAt stack (8 * h) x)
    pure (ks.take n)

def shakeWotsChain (stack : List UInt8) (s : Nat) : OnAdrs (List UInt8) := do
  adrsSetType adrsWotsPrf
  adrsSetTreeIndex 0
  let tmp ← shakePrf keccakF1600 n var
  adrsSetType adrsWotsHash
  shakeChain keccakF1600 n var stack tmp 0 s

def shakeForsHash : Nat → OnAdrs (List UInt8) :=
  forsHashOf (shakePrf keccakF1600 n var) (shakeF keccakF1600 n var)

end Functions

def shakeFunctions (keccakF1600 : Permutation) (stack : List UInt8) (prm : SlhParam) :
    SlhFunctions where
  chain var := shakeChain keccakF1600 prm.n var stack
  wotsChain var := shakeWotsChain keccakF1600 prm.n var stack
  forsHash := shakeForsHash keccakF1600 prm.n
  hMsg var := shakeHMsg keccakF1600 var prm.m
  prfMsg := shakePrfMsg keccakF1600 prm.n
  hF := shakeF keccakF1600 prm.n
  hH := shakeH keccakF1600 prm.n
  hT := shakeT keccakF1600 prm.n

end LiberaCrypt.SlhShake
