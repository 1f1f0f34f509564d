import LiberaCrypt.Endian
import LiberaCrypt.TreeHash

namespace LiberaCrypt.SlhDsa

open LiberaCrypt.CountedLoop LiberaCrypt.Endian LiberaCrypt.MonadicLoop LiberaCrypt.TreeHash

/-- `slh_param_t`, less the functions. -/
structure SlhParam where
  n : Nat
  h : Nat
  d : Nat
  hp : Nat
  a : Nat
  k : Nat
  lgW : Nat
  m : Nat
  deriving DecidableEq

/-- The eight words of `adrs_t`. Chain addresses are heights, and hash addresses are indices. -/
@[ext] structure Adrs where
  layer : UInt32
  unused : UInt32
  treeHigh : UInt32
  treeLow : UInt32
  type : UInt32
  keyPair : UInt32
  height : UInt32
  index : UInt32
  deriving DecidableEq

/-- Actions on the address of the context; no result stands for an access out of bounds. -/
abbrev OnAdrs := StateT Adrs Option

def adrsWotsHash : UInt32 := 0
def adrsWotsPk : UInt32 := 1
def adrsTree : UInt32 := 2
def adrsForsTree : UInt32 := 3
def adrsForsRoots : UInt32 := 4
def adrsWotsPrf : UInt32 := 5
def adrsForsPrf : UInt32 := 6

def Adrs.zero : Adrs := ⟨0, 0, 0, 0, 0, 0, 0, 0⟩

def adrsZero : OnAdrs Unit := modify fun _ => Adrs.zero

def adrsSetLayerAddress (x : Nat) : OnAdrs Unit :=
  modify fun s => { s with layer := UInt32.ofNat x }

def adrsSetTreeAddress (x : UInt64) : OnAdrs Unit :=
  modify fun s => { s with treeHigh := (x >>> 32).toUInt32, treeLow := (x &&& 0xffffffff).toUInt32 }

def adrsSetKeyPairAddress (x : Nat) : OnAdrs Unit :=
  modify fun s => { s with keyPair := UInt32.ofNat x }

def adrsSetTreeHeight (x : Nat) : OnAdrs Unit :=
  modify fun s => { s with height := UInt32.ofNat x }

def adrsSetChainAddress (x : Nat) : OnAdrs Unit :=
  modify fun s => { s with height := UInt32.ofNat x }

def adrsSetTreeIndex (x : Nat) : OnAdrs Unit :=
  modify fun s => { s with index := UInt32.ofNat x }

def adrsSetHashAddress (x : Nat) : OnAdrs Unit :=
  modify fun s => { s with index := UInt32.ofNat x }

def adrsSetType (y : UInt32) : OnAdrs Unit := modify fun s => { s with type := y }

def adrsSetTypeAndClear (y : UInt32) : OnAdrs Unit :=
  modify fun s => { s with type := y, keyPair := 0, height := 0, index := 0 }

def adrsSetTypeAndClearNotKp (y : UInt32) : OnAdrs Unit :=
  modify fun s => { s with type := y, height := 0, index := 0 }

/-- The `fors_hash` of both families: the secret of a leaf, hashed when `s` is one. -/
def forsHashOf (prf : OnAdrs (List UInt8)) (hF : List UInt8 → OnAdrs (List UInt8)) (s : Nat) :
    OnAdrs (List UInt8) := do
  adrsSetType adrsForsPrf
  adrsSetTreeHeight 0
  let tmp ← prf
  if s = 1 then do
    adrsSetType adrsForsTree
    hF tmp
  else pure tmp

/-- `slh_var_t`, less the address. -/
structure SlhVar where
  skSeed : List UInt8
  skPrf : List UInt8
  pkSeed : List UInt8
  pkRoot : List UInt8

/-- The function pointers of `slh_param_t`. A message comes with a context unless it is internal. -/
structure SlhFunctions where
  chain : SlhVar → List UInt8 → Nat → Nat → OnAdrs (List UInt8)
  wotsChain : SlhVar → Nat → OnAdrs (List UInt8)
  forsHash : SlhVar → Nat → OnAdrs (List UInt8)
  hMsg : SlhVar → List UInt8 → List UInt8 → Option (List UInt8) → List UInt8
  prfMsg : SlhVar → List UInt8 → List UInt8 → Option (List UInt8) → List UInt8
  hF : SlhVar → List UInt8 → OnAdrs (List UInt8)
  hH : SlhVar → List UInt8 → List UInt8 → OnAdrs (List UInt8)
  hT : SlhVar → List UInt8 → OnAdrs (List UInt8)

def mkVarSk (n : Nat) (sk : List UInt8) : SlhVar :=
  ⟨sk.take n, (sk.drop n).take n, (sk.drop (2 * n)).take n, (sk.drop (3 * n)).take n⟩

def mkVarPk (n : Nat) (pk : List UInt8) : SlhVar := ⟨[], [], pk.take n, (pk.drop n).take n⟩

def slhMaxHp : Nat := 9
def slhMaxA : Nat := 14

def getLen1 (prm : SlhParam) : Nat := (8 * prm.n + (prm.lgW - 1)) / prm.lgW

/-- `while (cap < maxs)`; the capacity grows with every round. -/
def len2Loop (lgW maxs : Nat) : Nat → Nat → Nat → Nat
  | 0, len2, _ => len2
  | rounds + 1, len2, cap =>
    if cap < maxs then len2Loop lgW maxs rounds (len2 + 1) (cap <<< lgW) else len2

def genLen2 (prm : SlhParam) : Nat :=
  if prm.lgW = 4 ∧ 9 ≤ prm.n ∧ prm.n ≤ 136 then 3
  else
    let maxs := getLen1 prm * ((1 <<< prm.lgW) - 1)
    len2Loop prm.lgW maxs maxs 1 (1 <<< prm.lgW)

def getLen (prm : SlhParam) : Nat := getLen1 prm + genLen2 prm

def slhSigSz (prm : SlhParam) : Nat :=
  (1 + prm.k * (1 + prm.a) + (prm.h + prm.d * getLen prm)) * prm.n

/-- `j`, `l` and `t` of `base_2b`. -/
structure Base2b where
  j : Nat
  l : Nat
  t : UInt32

/-- `while (l < b)`, a byte at a time. -/
def refill (x : List UInt8) (b : Nat) (s : Base2b) : Base2b :=
  countUp ((b - s.l + 7) / 8)
    (fun _ s => ⟨s.j + 1, s.l + 8, (s.t <<< 8) + (x.getD s.j 0).toUInt32⟩) s

def base2bStep (x : List UInt8) (b : Nat) (s : Base2b) : UInt32 × Base2b :=
  let s := refill x b s
  let l := s.l - b
  ((s.t >>> UInt32.ofNat l) &&& ((1 <<< UInt32.ofNat b) - 1), ⟨s.j, l, s.t⟩)

def base2bLoop (x : List UInt8) (b : Nat) : Nat → Base2b → List UInt32
  | 0, _ => []
  | n + 1, s => (base2bStep x b s).1 :: base2bLoop x b n (base2bStep x b s).2

def base2b (x : List UInt8) (b vLen : Nat) : List Nat :=
  (base2bLoop x b vLen ⟨0, 0, 0⟩).map UInt32.toNat

def wotsCsum (m : List UInt8) (prm : SlhParam) : List Nat :=
  let len2 := genLen2 prm
  let vm := base2b m prm.lgW (getLen1 prm)
  let t := (1 <<< prm.lgW) - 1
  let csum := vm.foldl (fun csum v => csum + (t - v)) 0
  let csum := csum <<< ((8 - ((len2 * prm.lgW) &&& 7)) &&& 7)
  let size := (len2 * prm.lgW + 7) / 8
  vm ++ base2b (bigEndian size csum) prm.lgW len2

section Functions

variable (fn : SlhFunctions) (prm : SlhParam) (var : SlhVar)

def wotsSign (m : List UInt8) : OnAdrs (List UInt8) :=
  let vm := wotsCsum m prm
  countUpM (getLen prm) (fun i sig => do
    adrsSetChainAddress i
    let node ← fn.wotsChain var (vm.getD i 0)
    pure (sig ++ node)) []

def wotsPkFromSig (sig m : List UInt8) : OnAdrs (List UInt8) := do
  let vm := wotsCsum m prm
  let t := (1 <<< prm.lgW) - 1
  let tmp ← countUpM (getLen prm) (fun i tmp => do
    adrsSetChainAddress i
    let node ← fn.chain var ((sig.drop (prm.n * i)).take prm.n) (vm.getD i 0) (t - vm.getD i 0)
    pure (tmp ++ node)) []
  adrsSetTypeAndClearNotKp adrsWotsPk
  fn.hT var tmp

/-- The one-time public key of key pair `i`. -/
def wotsPkGen (i : Nat) : OnAdrs (List UInt8) := do
  adrsSetKeyPairAddress i
  let tmp ← countUpM (getLen prm) (fun k tmp => do
    adrsSetChainAddress k
    let node ← fn.wotsChain var ((1 <<< prm.lgW) - 1)
    pure (tmp ++ node)) []
  adrsSetTypeAndClearNotKp adrsWotsPk
  fn.hT var tmp

def xmssJoin (k i : Nat) (left right : List UInt8) : OnAdrs (List UInt8) := do
  adrsSetTypeAndClear adrsTree
  adrsSetTreeHeight k
  adrsSetTreeIndex i
  fn.hH var left right

/-- The index is a natural number; every node that is asked for has leaves with 32-bit indices. -/
def xmssNode (i z : Nat) : OnAdrs (List UInt8) :=
  treeHash slhMaxHp (wotsPkGen fn prm var) (xmssJoin fn var) i z

def xmssSign (m : List UInt8) (idx : Nat) : OnAdrs (List UInt8) := do
  let auth ← countUpM prm.hp (fun j auth => do
    let node ← xmssNode fn prm var ((idx >>> j) ^^^ 1) j
    pure (auth ++ node)) []
  adrsSetTypeAndClearNotKp adrsWotsHash
  adrsSetKeyPairAddress idx
  let sig ← wotsSign fn prm var m
  pure (sig ++ auth)

def xmssPkFromSig (idx : Nat) (sig m : List UInt8) : OnAdrs (List UInt8) := do
  adrsSetTypeAndClearNotKp adrsWotsHash
  adrsSetKeyPairAddress idx
  let root ← wotsPkFromSig fn prm var sig m
  adrsSetTypeAndClear adrsTree
  let auth := sig.drop (getLen prm * prm.n)
  countUpM prm.hp (fun k root => do
    adrsSetTreeHeight (k + 1)
    adrsSetTreeIndex (idx >>> (k + 1))
    let sibling := (auth.drop (prm.n * k)).take prm.n
    if (idx >>> k) &&& 1 = 0 then fn.hH var root sibling else fn.hH var sibling root) root

/-- What the next layer signs and where: the root below, its tree and its leaf. -/
structure HtState where
  sig : List UInt8
  m : List UInt8
  iTree : UInt64
  iLeaf : Nat

def leafOf (iTree : UInt64) : Nat := (iTree &&& ((1 <<< UInt64.ofNat prm.hp) - 1)).toNat

def htSignRound (j : Nat) (s : HtState) : OnAdrs HtState := do
  let size := (getLen prm + prm.hp) * prm.n
  let m ← xmssPkFromSig fn prm var s.iLeaf (s.sig.drop (size * j)) s.m
  let iLeaf := leafOf prm s.iTree
  let iTree := s.iTree >>> UInt64.ofNat prm.hp
  adrsSetLayerAddress (j + 1)
  adrsSetTreeAddress iTree
  let next ← xmssSign fn prm var m iLeaf
  pure ⟨s.sig ++ next, m, iTree, iLeaf⟩

def htSign (m : List UInt8) (iTree : UInt64) (iLeaf : Nat) : OnAdrs (List UInt8) := do
  adrsZero
  adrsSetTreeAddress iTree
  let first ← xmssSign fn prm var m iLeaf
  let last ← countUpM (prm.d - 1) (htSignRound fn prm var) ⟨first, m, iTree, iLeaf⟩
  pure last.sig

def htVerifyRound (j : Nat) (s : HtState) : OnAdrs HtState := do
  let size := (prm.hp + getLen prm) * prm.n
  let iLeaf := leafOf prm s.iTree
  let iTree := s.iTree >>> UInt64.ofNat prm.hp
  adrsSetLayerAddress (j + 1)
  adrsSetTreeAddress iTree
  let sig := s.sig.drop size
  let node ← xmssPkFromSig fn prm var iLeaf sig s.m
  pure ⟨sig, node, iTree, iLeaf⟩

def htVerify (m sigHt : List UInt8) (iTree : UInt64) (iLeaf : Nat) : OnAdrs Bool := do
  adrsZero
  adrsSetTreeAddress iTree
  let node ← xmssPkFromSig fn prm var iLeaf sigHt m
  let last ← countUpM (prm.d - 1) (htVerifyRound fn prm var) ⟨sigHt, node, iTree, iLeaf⟩
  pure (decide (last.m = var.pkRoot))

def forsLeaf (i : Nat) : OnAdrs (List UInt8) := do
  adrsSetTreeIndex i
  fn.forsHash var 1

def forsJoin (k i : Nat) (left right : List UInt8) : OnAdrs (List UInt8) := do
  adrsSetTreeHeight k
  adrsSetTreeIndex i
  fn.hH var left right

def forsNode (i z : Nat) : OnAdrs (List UInt8) :=
  treeHash slhMaxA (forsLeaf fn var) (forsJoin fn var) i z

def forsSign (md : List UInt8) : OnAdrs (List UInt8) :=
  let vi := base2b md prm.a prm.k
  countUpM prm.k (fun i sf => do
    adrsSetTreeIndex ((i <<< prm.a) + vi.getD i 0)
    let sk ← fn.forsHash var 0
    countUpM prm.a (fun j sf => do
      let s := (vi.getD i 0 >>> j) ^^^ 1
      let node ← forsNode fn var ((i <<< (prm.a - j)) + s) j
      pure (sf ++ node)) (sf ++ sk)) []

/-- The nodes of a tree take one place for the secret and one for each sibling. -/
def forsPkFromSig (sf md : List UInt8) : OnAdrs (List UInt8) := do
  let vi := base2b md prm.a prm.k
  let root ← countUpM prm.k (fun i root => do
    let sf := sf.drop (i * (1 + prm.a) * prm.n)
    adrsSetTreeHeight 0
    let idx := (i <<< prm.a) + vi.getD i 0
    adrsSetTreeIndex idx
    let node ← fn.hF var (sf.take prm.n)
    let node ← countUpM prm.a (fun j node => do
      adrsSetTreeHeight (j + 1)
      adrsSetTreeIndex (idx >>> (j + 1))
      let sibling := (sf.drop ((j + 1) * prm.n)).take prm.n
      if (vi.getD i 0 >>> j) &&& 1 = 0 then fn.hH var node sibling
      else fn.hH var sibling node) node
    pure (root ++ node)) []
  adrsSetTypeAndClearNotKp adrsForsRoots
  fn.hT var root

def slhKeygenInternal (skSeed skPrf pkSeed : List UInt8) : Option (List UInt8 × List UInt8) := do
  let sk := skSeed.take prm.n ++ skPrf.take prm.n ++ pkSeed.take prm.n
  let var := mkVarSk prm.n (sk ++ List.replicate prm.n 0)
  let root ← (do
    adrsZero
    adrsSetLayerAddress (prm.d - 1)
    xmssNode fn prm var 0 prm.hp : OnAdrs (List UInt8)).run' Adrs.zero
  pure (pkSeed.take prm.n ++ root, sk ++ root)

def slhToint (x : List UInt8) : UInt64 := x.foldl (fun t x => (t <<< 8) + x.toUInt64) 0

def splitDigest (digest : List UInt8) : UInt64 × Nat :=
  let mdSz := (prm.k * prm.a + 7) / 8
  let iTreeSz := (prm.h - prm.hp + 7) / 8
  let iLeafSz := (prm.hp + 7) / 8
  let iTree := slhToint ((digest.drop mdSz).take iTreeSz)
  let iLeaf := (slhToint ((digest.drop (mdSz + iTreeSz)).take iLeafSz)).toUInt32
  (if prm.h - prm.hp ≠ 64 then iTree &&& ((1 <<< UInt64.ofNat (prm.h - prm.hp)) - 1) else iTree,
    (iLeaf &&& ((1 <<< UInt32.ofNat prm.hp) - 1)).toNat)

def adrsSetFors (iTree : UInt64) (iLeaf : Nat) : OnAdrs Unit := do
  adrsZero
  adrsSetTreeAddress iTree
  adrsSetTypeAndClearNotKp adrsForsTree
  adrsSetKeyPairAddress iLeaf

def slhSignDigest (digest : List UInt8) : OnAdrs (List UInt8) := do
  let (iTree, iLeaf) := splitDigest prm digest
  adrsSetFors iTree iLeaf
  let sigFors ← forsSign fn prm var digest
  let pkFors ← forsPkFromSig fn prm var sigFors digest
  let sigHt ← htSign fn prm var pkFors iTree iLeaf
  pure (sigFors ++ sigHt)

def signMessage (m : List UInt8) (ctx : Option (List UInt8)) (sk : List UInt8)
    (addrnd : Option (List UInt8)) : Option (List UInt8) := do
  let var := mkVarSk prm.n sk
  let optRand := addrnd.getD var.pkSeed
  let r := fn.prfMsg var optRand m ctx
  let sig ← (slhSignDigest fn prm var (fn.hMsg var r m ctx)).run' Adrs.zero
  pure (r ++ sig)

def slhSignInternal (m sk : List UInt8) (addrnd : Option (List UInt8)) : Option (List UInt8) :=
  signMessage fn prm m none sk addrnd

def slhSign (m ctx sk : List UInt8) (addrnd : Option (List UInt8)) : Option (List UInt8) :=
  if 255 < ctx.length then pure [] else signMessage fn prm m (some ctx) sk addrnd

def slhVerifyDigest (digest sig : List UInt8) : OnAdrs Bool := do
  if sig.length ≠ slhSigSz prm then pure false
  else do
    let (iTree, iLeaf) := splitDigest prm digest
    adrsSetFors iTree iLeaf
    let pkFors ← forsPkFromSig fn prm var (sig.drop prm.n) digest
    htVerify fn prm var pkFors (sig.drop ((1 + prm.k * (1 + prm.a)) * prm.n)) iTree iLeaf

def verifyMessage (m sig : List UInt8) (ctx : Option (List UInt8)) (pk : List UInt8) :
    Option Bool :=
  if sig.length ≠ slhSigSz prm then pure false
  else
    let var := mkVarPk prm.n pk
    (slhVerifyDigest fn prm var (fn.hMsg var (sig.take prm.n) m ctx) sig).run' Adrs.zero

def slhVerifyInternal (m sig pk : List UInt8) : Option Bool := verifyMessage fn prm m sig none pk

def slhVerify (m sig ctx pk : List UInt8) : Option Bool :=
  if 255 < ctx.length then pure false else verifyMessage fn prm m sig (some ctx) pk

end Functions

end LiberaCrypt.SlhDsa
