import LiberaCrypt.SlhDsa

namespace LiberaCrypt.SlhTrees

open LiberaCrypt.CountedLoop LiberaCrypt.MonadicLoop LiberaCrypt.SlhDsa LiberaCrypt.SteadyAction
open LiberaCrypt.TreeHash

structure Seeds where
  sk : List UInt8
  pk : List UInt8

def seedsOf (var : SlhVar) : Seeds := ⟨var.skSeed, var.pkSeed⟩

/-- The hash functions under an address, with results of `n` bytes. -/
structure SlhHash (n : Nat) where
  prf : Seeds → Adrs → List UInt8
  f : List UInt8 → Adrs → List UInt8 → List UInt8
  h : List UInt8 → Adrs → List UInt8 → List UInt8 → List UInt8
  t : List UInt8 → Adrs → List UInt8 → List UInt8
  msg : List UInt8 → List UInt8 → List UInt8 → List UInt8 → Option (List UInt8) → List UInt8
  prf_length : ∀ seeds s, (prf seeds s).length = n
  f_length : ∀ pk s x, (f pk s x).length = n
  h_length : ∀ pk s x y, (h pk s x y).length = n
  t_length : ∀ pk s x, (t pk s x).length = n

variable {n : Nat}

/-- A chain of `steps` hashes whose first has the hash address `i`. -/
def SlhHash.chain (hash : SlhHash n) (pk : List UInt8) (s : Adrs) (x : List UInt8) (i steps : Nat) :
    List UInt8 :=
  countUp steps (fun j x => hash.f pk { s with index := UInt32.ofNat (i + j) } x) x

/-- What the functions of a parameter set compute in a context. A chain may leave any hash
address. -/
structure Computes (fn : SlhFunctions) (hash : SlhHash n) (var : SlhVar) : Prop where
  hF : ∀ x s, fn.hF var x s = some (hash.f var.pkSeed s x, s)
  hH : ∀ x y s, fn.hH var x y s = some (hash.h var.pkSeed s x y, s)
  hT : ∀ x s, fn.hT var x s = some (hash.t var.pkSeed s x, s)
  chain : ∀ x i steps s, x.length = n → ∃ index, fn.chain var x i steps s =
    some (hash.chain var.pkSeed s x i steps, { s with index := index })
  wotsChain : ∀ steps s, ∃ index, fn.wotsChain var steps s =
    some (hash.chain var.pkSeed { s with type := adrsWotsHash }
        (hash.prf (seedsOf var) { s with type := adrsWotsPrf, index := 0 }) 0 steps,
      { s with type := adrsWotsHash, index := index })
  forsSecret : ∀ s, fn.forsHash var 0 s =
    some (hash.prf (seedsOf var) { s with type := adrsForsPrf, height := 0 },
      { s with type := adrsForsPrf, height := 0 })
  forsPublic : ∀ s, fn.forsHash var 1 s =
    some (hash.f var.pkSeed { s with type := adrsForsTree, height := 0 }
        (hash.prf (seedsOf var) { s with type := adrsForsPrf, height := 0 }),
      { s with type := adrsForsTree, height := 0 })
  hMsg : ∀ r m ctx, fn.hMsg var r m ctx = hash.msg var.pkSeed var.pkRoot r m ctx
  prfMsg_length : ∀ r m ctx, (fn.prfMsg var r m ctx).length = n

section ForsHash

variable {prf : OnAdrs (List UInt8)} {hF : List UInt8 → OnAdrs (List UInt8)}
  {secret : Adrs → List UInt8}

theorem forsHashOf_secret (hprf : ∀ s, prf s = some (secret s, s)) (s : Adrs) :
    forsHashOf prf hF 0 s = some (secret { s with type := adrsForsPrf, height := 0 },
      { s with type := adrsForsPrf, height := 0 }) := by
  change (prf { s with type := adrsForsPrf, height := 0 } >>= fun r => some (r.1, r.2)) = _
  rw [hprf]
  rfl

theorem forsHashOf_public (hprf : ∀ s, prf s = some (secret s, s)) {f : Adrs → List UInt8 → List UInt8}
    (hf : ∀ x s, hF x s = some (f s x, s)) (s : Adrs) :
    forsHashOf prf hF 1 s = some (f { s with type := adrsForsTree, height := 0 }
        (secret { s with type := adrsForsPrf, height := 0 }),
      { s with type := adrsForsTree, height := 0 }) := by
  change (prf { s with type := adrsForsPrf, height := 0 } >>= fun r =>
    hF r.1 { r.2 with type := adrsForsTree }) = _
  rw [hprf]
  exact hf _ _

end ForsHash

theorem SlhHash.chain_length (hash : SlhHash n) (pk : List UInt8) (s : Adrs) {x : List UInt8}
    (hx : x.length = n) (i steps : Nat) : (hash.chain pk s x i steps).length = n := by
  cases steps with
  | zero => exact hx
  | succ steps => exact hash.f_length _ _ _

theorem SlhHash.chain_append (hash : SlhHash n) (pk : List UInt8) (s : Adrs) (x : List UInt8)
    (i a b : Nat) : hash.chain pk s (hash.chain pk s x i a) (i + a) b =
      hash.chain pk s x i (a + b) := by
  induction b with
  | zero => rfl
  | succ b ih =>
    unfold SlhHash.chain at ih ⊢
    rw [← Nat.add_assoc, countUp_succ, countUp_succ, ih, Nat.add_assoc]

theorem toNat_mask32 {b : Nat} (hb : b < 32) :
    ((1 : UInt32) <<< UInt32.ofNat b - 1).toNat = 2 ^ b - 1 := by
  have hpow : 2 ^ b < 2 ^ 32 := Nat.pow_lt_pow_right (by decide) hb
  have hshift : (UInt32.ofNat b).toNat = b := by
    rw [UInt32.toNat_ofNat']
    omega
  have hone : ((1 : UInt32) <<< UInt32.ofNat b).toNat = 2 ^ b := by
    rw [UInt32.toNat_shiftLeft, hshift, Nat.mod_eq_of_lt hb, Nat.shiftLeft_eq]
    change 1 * 2 ^ b % 2 ^ 32 = _
    rw [Nat.one_mul, Nat.mod_eq_of_lt hpow]
  have hle : (1 : UInt32) ≤ 1 <<< UInt32.ofNat b := by
    rw [UInt32.le_iff_toNat_le, hone]
    exact Nat.one_le_two_pow
  rw [UInt32.toNat_sub_of_le _ _ hle, hone]
  rfl

theorem base2b_le {x : List UInt8} {b vLen : Nat} (hb : b < 32) (i : Nat) :
    (base2b x b vLen).getD i 0 ≤ 2 ^ b - 1 := by
  have hloop : ∀ vLen s, ∀ v ∈ base2bLoop x b vLen s, v.toNat ≤ 2 ^ b - 1 := by
    intro vLen
    induction vLen with
    | zero => exact fun _ v hv => absurd hv List.not_mem_nil
    | succ vLen ih =>
      intro s v hv
      rcases List.mem_cons.mp hv with rfl | hv
      · rw [base2bStep, UInt32.toNat_and, toNat_mask32 hb]
        exact Nat.and_le_right
      · exact ih _ v hv
  unfold base2b
  rw [List.getD_eq_getElem?_getD, List.getElem?_map]
  rcases hget : (base2bLoop x b vLen ⟨0, 0, 0⟩)[i]? with _ | v
  · exact Nat.zero_le _
  · exact hloop _ _ v (List.mem_of_getElem? hget)

theorem wotsCsum_le {prm : SlhParam} (hw : prm.lgW < 32) (m : List UInt8) (i : Nat) :
    (wotsCsum m prm).getD i 0 ≤ 2 ^ prm.lgW - 1 := by
  unfold wotsCsum
  dsimp only
  rcases Nat.lt_or_ge i (base2b m prm.lgW (getLen1 prm)).length with hlt | hge
  · rw [List.getD_append _ _ _ _ hlt]
    exact base2b_le hw i
  · rw [List.getD_append_right _ _ _ _ hge]
    exact base2b_le hw _

theorem flatMap_length {node : Nat → List UInt8} (hnode : ∀ i, (node i).length = n) (count : Nat) :
    ((List.range count).flatMap node).length = n * count := by
  simp [List.length_flatMap, hnode, Nat.mul_comm]

theorem drop_flatMap {node : Nat → List UInt8} (hnode : ∀ i, (node i).length = n) {i count : Nat}
    (hi : i < count) (rest : List UInt8) : ∃ later,
      ((List.range count).flatMap node ++ rest).drop (n * i) = node i ++ later := by
  obtain ⟨d, rfl⟩ := Nat.exists_eq_add_of_lt hi
  have hsplit : (List.range (i + d + 1)).flatMap node = (List.range i).flatMap node ++
      (node i ++ (List.range' (i + 1) d).flatMap node) := by
    rw [List.range_eq_range', Nat.add_assoc, ← List.range'_append_1, List.flatMap_append,
      ← List.range_eq_range', Nat.zero_add, Nat.add_comm d, ← List.range'_append_1,
      List.flatMap_append, List.range'_one, List.flatMap_singleton]
  refine ⟨(List.range' (i + 1) d).flatMap node ++ rest, ?_⟩
  rw [hsplit, List.append_assoc, List.drop_left' (flatMap_length hnode i), List.append_assoc]

theorem slice_flatMap {node : Nat → List UInt8} (hnode : ∀ i, (node i).length = n) {i count : Nat}
    (hi : i < count) (rest : List UInt8) :
    ((((List.range count).flatMap node ++ rest).drop (n * i)).take n) = node i := by
  obtain ⟨later, hlater⟩ := drop_flatMap hnode hi rest
  rw [hlater, List.take_left' (hnode i)]

section Xmss

variable {fn : SlhFunctions} {prm : SlhParam} {hash : SlhHash prm.n} {base : Adrs}

def Adrs.tree (s : Adrs) : Adrs := { s with type := 0, keyPair := 0, height := 0, index := 0 }

variable (hash) (prm) in
/-- Chain `c` of key pair `i` after `steps` hashes of its secret. -/
def wotsNode (seeds : Seeds) (base : Adrs) (i c steps : Nat) : List UInt8 :=
  let s := { base with keyPair := UInt32.ofNat i, height := UInt32.ofNat c }
  hash.chain seeds.pk { s with type := adrsWotsHash }
    (hash.prf seeds { s with type := adrsWotsPrf, index := 0 }) 0 steps

variable (hash) in
def wotsSignature (seeds : Seeds) (base : Adrs) (i : Nat) (m : List UInt8) : List UInt8 :=
  (List.range (getLen prm)).flatMap fun c =>
    wotsNode prm hash seeds base i c ((wotsCsum m prm).getD c 0)

variable (hash) in
def wotsPk (seeds : Seeds) (base : Adrs) (i : Nat) : List UInt8 :=
  hash.t seeds.pk { base with type := adrsWotsPk, keyPair := UInt32.ofNat i }
    ((List.range (getLen prm)).flatMap fun c => wotsNode prm hash seeds base i c (2 ^ prm.lgW - 1))

variable (hash) in
def treeJoin (pk : List UInt8) (base : Adrs) (k i : Nat) (left right : List UInt8) : List UInt8 :=
  hash.h pk { base with type := adrsTree, height := UInt32.ofNat k, index := UInt32.ofNat i }
    left right

variable (hash) in
def treeNode (seeds : Seeds) (base : Adrs) (z i : Nat) : List UInt8 :=
  node (wotsPk hash seeds base) (treeJoin hash seeds.pk base) z i

/-- The address is that of key pair `i` in the tree of `base`. -/
structure OnKeyPair (base : Adrs) (i : Nat) (s : Adrs) : Prop where
  tree : Adrs.tree s = base
  keyPair : s.keyPair = UInt32.ofNat i

theorem wotsNode_length (seeds : Seeds) (i c steps : Nat) :
    (wotsNode prm hash seeds base i c steps).length = prm.n :=
  hash.chain_length _ _ (hash.prf_length _ _) _ _

theorem treeNode_length (seeds : Seeds) (z i : Nat) :
    (treeNode hash seeds base z i).length = prm.n := by
  cases z with
  | zero => exact hash.t_length _ _ _
  | succ z => exact hash.h_length _ _ _ _

variable {var : SlhVar} {i : Nat}

/-- And that of its chain `c`. -/
structure OnChain (base : Adrs) (i c : Nat) (s : Adrs) : Prop extends OnKeyPair base i s where
  height : s.height = UInt32.ofNat c

theorem chainAddress_steady (c : Nat) :
    Steady (OnKeyPair base i) (OnChain base i c) (adrsSetChainAddress c) () :=
  Steady.modified fun _ hs => ⟨⟨hs.tree, hs.keyPair⟩, rfl⟩

theorem wotsChain_steady (hfn : Computes fn hash var) (c steps : Nat) :
    Steady (OnChain base i c) (OnKeyPair base i) (fn.wotsChain var steps)
      (wotsNode prm hash (seedsOf var) base i c steps) := by
  rintro s ⟨⟨rfl, hkey⟩, hheight⟩
  obtain ⟨index, hrun⟩ := hfn.wotsChain steps s
  refine ⟨{ s with type := adrsWotsHash, index := index }, hrun.trans ?_, rfl, hkey⟩
  unfold wotsNode
  rw [← hkey, ← hheight]
  rfl

theorem wotsChains_steady (hfn : Computes fn hash var) (steps : Nat → Nat) :
    Steady (OnKeyPair base i) (OnKeyPair base i) (countUpM (getLen prm) (fun c list => do
        adrsSetChainAddress c
        let node ← fn.wotsChain var (steps c)
        pure (list ++ node)) [])
      ((List.range (getLen prm)).flatMap fun c =>
        wotsNode prm hash (seedsOf var) base i c (steps c)) :=
  Steady.appending fun c _ _ =>
    (chainAddress_steady c).bind ((wotsChain_steady hfn c _).bind (Steady.returned _))

theorem wotsSign_steady (hfn : Computes fn hash var) (m : List UInt8) :
    Steady (OnKeyPair base i) (OnKeyPair base i) (wotsSign fn prm var m)
      (wotsSignature hash (seedsOf var) base i m) :=
  wotsChains_steady hfn _

/-- The hash of all the chains of a key pair, once they are there. -/
theorem wotsRoot_steady (hfn : Computes fn hash var) (tmp : List UInt8) :
    Steady (OnKeyPair base i) (fun s => Adrs.tree s = base) (do
      adrsSetTypeAndClearNotKp adrsWotsPk
      fn.hT var tmp)
      (hash.t var.pkSeed { base with type := adrsWotsPk, keyPair := UInt32.ofNat i } tmp) := by
  rintro s ⟨rfl, hkey⟩
  refine ⟨{ s with type := adrsWotsPk, height := 0, index := 0 }, (hfn.hT tmp _).trans ?_, rfl⟩
  rw [← hkey]
  rfl

theorem wotsPkGen_steady (hfn : Computes fn hash var) (i : Nat) :
    Steady (fun s => Adrs.tree s = base) (fun s => Adrs.tree s = base) (wotsPkGen fn prm var i)
      (wotsPk hash (seedsOf var) base i) := by
  have hstart : Steady (fun s => Adrs.tree s = base) (OnKeyPair base i) (adrsSetKeyPairAddress i)
      () := Steady.modified fun s hs => ⟨hs, rfl⟩
  refine hstart.bind ((wotsChains_steady hfn _).bind ?_)
  rw [Nat.one_shiftLeft]
  exact wotsRoot_steady hfn _

theorem xmssJoin_steady (hfn : Computes fn hash var) (k i : Nat) (left right : List UInt8) :
    Steady (fun s => Adrs.tree s = base) (fun s => Adrs.tree s = base)
      (xmssJoin fn var k i left right) (treeJoin hash var.pkSeed base k i left right) := by
  rintro s rfl
  refine ⟨{ s with
    type := adrsTree, keyPair := 0, height := UInt32.ofNat k, index := UInt32.ofNat i },
    hfn.hH left right _, rfl⟩

theorem xmssNode_steady (hfn : Computes fn hash var) {z : Nat} (hz : z ≤ slhMaxHp) (i : Nat) :
    Steady (fun s => Adrs.tree s = base) (fun s => Adrs.tree s = base) (xmssNode fn prm var i z)
      (treeNode hash (seedsOf var) base z i) :=
  treeHash_steady (fun _ hs => hs) (wotsPkGen_steady hfn) (xmssJoin_steady hfn) hz

variable (hash) in
def treeSignature (seeds : Seeds) (base : Adrs) (i : Nat) (m : List UInt8) : List UInt8 :=
  wotsSignature hash seeds base i m ++
    (List.range prm.hp).flatMap fun j => treeNode hash seeds base j ((i >>> j) ^^^ 1)

theorem xmssSign_steady (hfn : Computes fn hash var) (hhp : prm.hp ≤ slhMaxHp) (m : List UInt8)
    (i : Nat) : Steady (fun s => Adrs.tree s = base) (fun s => Adrs.tree s = base)
      (xmssSign fn prm var m i) (treeSignature hash (seedsOf var) base i m) := by
  have hauth : Steady (fun s => Adrs.tree s = base) (fun s => Adrs.tree s = base)
      (countUpM prm.hp (fun j auth => do
        let node ← xmssNode fn prm var ((i >>> j) ^^^ 1) j
        pure (auth ++ node)) [])
      ((List.range prm.hp).flatMap fun j => treeNode hash (seedsOf var) base j ((i >>> j) ^^^ 1)) :=
    Steady.appending fun j hj _ =>
      (xmssNode_steady hfn (by omega) _).bind (Steady.returned _)
  refine hauth.bind ?_
  have htype : Steady (fun s => Adrs.tree s = base) (fun s => Adrs.tree s = base)
      (adrsSetTypeAndClearNotKp adrsWotsHash) () := Steady.modified fun s hs => hs
  have hstart : Steady (fun s => Adrs.tree s = base) (OnKeyPair base i) (adrsSetKeyPairAddress i)
      () := Steady.modified fun s hs => ⟨hs, rfl⟩
  refine htype.bind (hstart.bind ?_)
  refine (wotsSign_steady hfn m).bind ?_
  exact (Steady.returned _).mono (fun _ hs => hs) fun _ hs => hs.tree

variable {seeds : Seeds}

/-- The address of key pair `i` while its chains are hashed. -/
structure OnHash (base : Adrs) (i : Nat) (s : Adrs) : Prop extends OnKeyPair base i s where
  type : s.type = adrsWotsHash

structure OnHashChain (base : Adrs) (i c : Nat) (s : Adrs) : Prop extends OnHash base i s where
  height : s.height = UInt32.ofNat c

theorem hashChainAddress_steady (c : Nat) :
    Steady (OnHash base i) (OnHashChain base i c) (adrsSetChainAddress c) () :=
  Steady.modified fun _ hs => ⟨⟨⟨hs.tree, hs.keyPair⟩, hs.type⟩, rfl⟩

theorem chain_steady (hfn : Computes fn hash var) (hpk : var.pkSeed = seeds.pk) (c v : Nat)
    (hv : v ≤ 2 ^ prm.lgW - 1) :
    Steady (OnHashChain base i c) (OnHash base i)
      (fn.chain var (wotsNode prm hash seeds base i c v) v ((1 <<< prm.lgW) - 1 - v))
      (wotsNode prm hash seeds base i c (2 ^ prm.lgW - 1)) := by
  rintro s ⟨⟨⟨rfl, hkey⟩, htype⟩, hheight⟩
  obtain ⟨index, hrun⟩ := hfn.chain (wotsNode prm hash seeds (Adrs.tree s) i c v) v
    ((1 <<< prm.lgW) - 1 - v) s (wotsNode_length _ _ _ _)
  refine ⟨{ s with index := index }, hrun.trans ?_, ⟨rfl, hkey⟩, htype⟩
  have hwhole := hash.chain_append seeds.pk s
    (hash.prf seeds { Adrs.tree s with
      type := adrsWotsPrf, keyPair := s.keyPair, height := s.height }) 0 v (2 ^ prm.lgW - 1 - v)
  rw [Nat.zero_add, Nat.add_sub_cancel' hv] at hwhole
  rw [Nat.one_shiftLeft]
  unfold wotsNode
  rw [hpk, ← hkey, ← htype, ← hheight]
  exact congrArg (fun x => some (x, { s with index := index })) hwhole

theorem wotsPkFromSig_steady (hfn : Computes fn hash var) (hpk : var.pkSeed = seeds.pk)
    (hw : prm.lgW < 32) (m rest : List UInt8) :
    Steady (OnHash base i) (fun s => Adrs.tree s = base)
      (wotsPkFromSig fn prm var (wotsSignature hash seeds base i m ++ rest) m)
      (wotsPk hash seeds base i) := by
  have hloop : Steady (OnHash base i) (OnHash base i) (countUpM (getLen prm) (fun c tmp => do
      adrsSetChainAddress c
      let node ← fn.chain var
        (((wotsSignature hash seeds base i m ++ rest).drop (prm.n * c)).take prm.n)
        ((wotsCsum m prm).getD c 0) ((1 <<< prm.lgW) - 1 - (wotsCsum m prm).getD c 0)
      pure (tmp ++ node)) [])
      ((List.range (getLen prm)).flatMap fun c =>
        wotsNode prm hash seeds base i c (2 ^ prm.lgW - 1)) := by
    refine Steady.appending fun c hc list => ?_
    rw [wotsSignature, slice_flatMap (fun c => wotsNode_length _ _ _ _) hc]
    refine (hashChainAddress_steady c).bind ?_
    exact (chain_steady hfn hpk c _ (wotsCsum_le hw m c)).bind (Steady.returned _)
  have hroot : Steady (OnHash base i) (fun s => Adrs.tree s = base) _ (wotsPk hash seeds base i) :=
    ((wotsRoot_steady hfn _).mono (fun _ hs => hs.toOnKeyPair) fun _ hs => hs).value
      (congrArg (fun pk => hash.t pk _ _) hpk)
  exact hloop.bind hroot

structure OnWayUp (base s : Adrs) : Prop where
  tree : Adrs.tree s = base
  type : s.type = adrsTree
  keyPair : s.keyPair = 0

structure OnNode (base : Adrs) (k i : Nat) (s : Adrs) : Prop extends OnWayUp base s where
  height : s.height = UInt32.ofNat k
  index : s.index = UInt32.ofNat i

theorem nodeAddress_steady (k i : Nat) {x : OnAdrs (List UInt8)} {v : List UInt8}
    (hx : Steady (OnNode base k i) (OnWayUp base) x v) :
    Steady (OnWayUp base) (OnWayUp base) (do
      adrsSetTreeHeight k
      adrsSetTreeIndex i
      x) v := by
  intro s hs
  exact hx { s with height := UInt32.ofNat k, index := UInt32.ofNat i }
    ⟨⟨hs.tree, hs.type, hs.keyPair⟩, rfl, rfl⟩

theorem hH_steady (hfn : Computes fn hash var) (hpk : var.pkSeed = seeds.pk) (k i : Nat)
    (left right : List UInt8) :
    Steady (OnNode base k i) (OnWayUp base) (fn.hH var left right)
      (treeJoin hash seeds.pk base k i left right) := by
  rintro s ⟨⟨rfl, htype, hkey⟩, hheight, hindex⟩
  refine ⟨s, (hfn.hH left right s).trans ?_, rfl, htype, hkey⟩
  have hs : s = { Adrs.tree s with
      type := adrsTree, height := UInt32.ofNat k, index := UInt32.ofNat i } := by
    ext <;> simp [Adrs.tree, htype, hkey, hheight, hindex]
  unfold treeJoin
  rw [hpk, ← hs]

theorem xmssPkFromSig_steady (hfn : Computes fn hash var) (hpk : var.pkSeed = seeds.pk)
    (hw : prm.lgW < 32) (m rest : List UInt8) (i : Nat) :
    Steady (fun s => Adrs.tree s = base) (fun s => Adrs.tree s = base)
      (xmssPkFromSig fn prm var i (treeSignature hash seeds base i m ++ rest) m)
      (treeNode hash seeds base prm.hp (i >>> prm.hp)) := by
  have htype : Steady (fun s => Adrs.tree s = base)
      (fun s => Adrs.tree s = base ∧ s.type = adrsWotsHash)
      (adrsSetTypeAndClearNotKp adrsWotsHash) () := Steady.modified fun s hs => ⟨hs, rfl⟩
  have hkey : Steady (fun s => Adrs.tree s = base ∧ s.type = adrsWotsHash) (OnHash base i)
      (adrsSetKeyPairAddress i) () := Steady.modified fun s hs => ⟨⟨hs.1, rfl⟩, hs.2⟩
  have hclear : Steady (fun s => Adrs.tree s = base) (OnWayUp base)
      (adrsSetTypeAndClear adrsTree) () := Steady.modified fun s hs => ⟨hs, rfl, rfl⟩
  have hlength : (wotsSignature hash seeds base i m).length = getLen prm * prm.n := by
    rw [wotsSignature, flatMap_length fun c => wotsNode_length _ _ _ _, Nat.mul_comm]
  have hauth : (treeSignature hash seeds base i m ++ rest).drop (getLen prm * prm.n) =
      (List.range prm.hp).flatMap (fun j => treeNode hash seeds base j ((i >>> j) ^^^ 1)) ++
        rest := by
    rw [treeSignature, List.append_assoc, List.drop_left' hlength]
  refine htype.bind (hkey.bind ?_)
  rw [treeSignature, List.append_assoc]
  refine (wotsPkFromSig_steady hfn hpk hw m _).bind (hclear.bind ?_)
  rw [← List.append_assoc, ← treeSignature, hauth]
  refine (Steady.rounds (P := fun _ => OnWayUp base)
    (w := fun k => treeNode hash seeds base k (i >>> k)) fun k hk => ?_).mono (fun _ hs => hs)
      fun _ hs => hs.tree
  refine nodeAddress_steady (k + 1) (i >>> (k + 1)) ?_
  rw [slice_flatMap (fun j => treeNode_length _ _ _) hk]
  have hstep := @node_step _ (wotsPk hash seeds base) (treeJoin hash seeds.pk base) i k
  split
  · next hbit =>
    rw [if_pos hbit] at hstep
    exact (hH_steady hfn hpk (k + 1) (i >>> (k + 1)) _ _).value hstep
  · next hbit =>
    rw [if_neg hbit] at hstep
    exact (hH_steady hfn hpk (k + 1) (i >>> (k + 1)) _ _).value hstep

end Xmss

end LiberaCrypt.SlhTrees
