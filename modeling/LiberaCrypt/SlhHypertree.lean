import LiberaCrypt.SlhForest

namespace LiberaCrypt.SlhHypertree

open LiberaCrypt.MonadicLoop LiberaCrypt.SlhDsa LiberaCrypt.SlhForest LiberaCrypt.SlhTrees
open LiberaCrypt.SteadyAction

def treeBase (j : Nat) (iTree : UInt64) : Adrs :=
  { Adrs.zero with
    layer := UInt32.ofNat j
    treeHigh := (iTree >>> 32).toUInt32
    treeLow := (iTree &&& 0xffffffff).toUInt32 }

section Layers

variable (prm : SlhParam) (hash : SlhHash prm.n) (seeds : Seeds) (m : List UInt8) (iTree : UInt64)
  (iLeaf : Nat)

/-- The tree, the leaf and the signed node of layer `j`. -/
def treeAt : Nat → UInt64
  | 0 => iTree
  | j + 1 => treeAt j >>> UInt64.ofNat prm.hp

def leafAt : Nat → Nat
  | 0 => iLeaf
  | j + 1 => leafOf prm (treeAt prm iTree j)

def rootAt : Nat → List UInt8
  | 0 => m
  | j + 1 => treeNode hash seeds (treeBase j (treeAt prm iTree j)) prm.hp 0

def layerSignature (j : Nat) : List UInt8 :=
  treeSignature hash seeds (treeBase j (treeAt prm iTree j)) (leafAt prm iTree iLeaf j)
    (rootAt prm hash seeds m iTree j)

def htSignature : List UInt8 :=
  (List.range prm.d).flatMap (layerSignature prm hash seeds m iTree iLeaf)

end Layers

section Sizes

variable {prm : SlhParam} {hash : SlhHash prm.n} {seeds : Seeds} {m : List UInt8} {iTree : UInt64}
  {iLeaf : Nat}

theorem treeSignature_length (base : Adrs) (i : Nat) (m : List UInt8) :
    (treeSignature hash seeds base i m).length = (getLen prm + prm.hp) * prm.n := by
  rw [treeSignature, List.length_append, wotsSignature,
    flatMap_length fun c => wotsNode_length _ _ _ _, flatMap_length fun j => treeNode_length _ _ _]
  ring

theorem layerSignature_length (j : Nat) :
    (layerSignature prm hash seeds m iTree iLeaf j).length = (getLen prm + prm.hp) * prm.n :=
  treeSignature_length _ _ _

theorem toNat_shift (x : UInt64) {k : Nat} (hk : k < 64) :
    (x >>> UInt64.ofNat k).toNat = x.toNat / 2 ^ k := by
  have hshift : (UInt64.ofNat k).toNat = k := by
    rw [UInt64.toNat_ofNat']
    omega
  rw [UInt64.toNat_shiftRight, hshift, Nat.mod_eq_of_lt hk, Nat.shiftRight_eq_div_pow]

theorem toNat_mask64 (x : UInt64) {k : Nat} (hk : k < 64) :
    (x &&& ((1 <<< UInt64.ofNat k) - 1)).toNat = x.toNat % 2 ^ k := by
  have hshift : (UInt64.ofNat k).toNat = k := by
    rw [UInt64.toNat_ofNat']
    omega
  have hpow : 2 ^ k < 2 ^ 64 := Nat.pow_lt_pow_right (by decide) hk
  have hone : ((1 : UInt64) <<< UInt64.ofNat k).toNat = 2 ^ k := by
    rw [UInt64.toNat_shiftLeft, hshift, Nat.mod_eq_of_lt hk, Nat.shiftLeft_eq]
    change 1 * 2 ^ k % 2 ^ 64 = _
    rw [Nat.one_mul, Nat.mod_eq_of_lt hpow]
  have hle : (1 : UInt64) ≤ 1 <<< UInt64.ofNat k := by
    rw [UInt64.le_iff_toNat_le, hone]
    exact Nat.one_le_two_pow
  rw [UInt64.toNat_and, UInt64.toNat_sub_of_le _ _ hle, hone]
  exact Nat.and_two_pow_sub_one_eq_mod _ _

theorem treeAt_toNat (hhp : prm.hp < 64) (j : Nat) :
    (treeAt prm iTree j).toNat = iTree.toNat / 2 ^ (prm.hp * j) := by
  induction j with
  | zero => simp [treeAt]
  | succ j ih =>
    rw [treeAt, toNat_shift _ hhp, ih, Nat.div_div_eq_div_mul, ← Nat.pow_add, Nat.mul_succ]

theorem leafAt_lt (hhp : prm.hp < 64) (hleaf : iLeaf < 2 ^ prm.hp) (j : Nat) :
    leafAt prm iTree iLeaf j < 2 ^ prm.hp := by
  cases j with
  | zero => exact hleaf
  | succ j =>
    rw [leafAt, leafOf, toNat_mask64 _ hhp]
    exact Nat.mod_lt _ (Nat.two_pow_pos _)

end Sizes

section Hypertree

variable {fn : SlhFunctions} {prm : SlhParam} {hash : SlhHash prm.n} {var : SlhVar} {seeds : Seeds}
  {m rest : List UInt8} {iTree : UInt64} {iLeaf : Nat}

theorem zeroAddress_steady :
    Steady (fun _ => True) (fun s => Adrs.tree s = Adrs.zero) adrsZero () :=
  Steady.modified fun _ _ => rfl

theorem treeAddress_steady {base : Adrs} (iTree : UInt64) :
    Steady (fun s => Adrs.tree s = base) (fun s => Adrs.tree s = { base with
        treeHigh := (iTree >>> 32).toUInt32
        treeLow := (iTree &&& 0xffffffff).toUInt32 })
      (adrsSetTreeAddress iTree) () :=
  Steady.modified fun _ hs => by
    rw [← hs]
    rfl

theorem layerAddress_steady {base : Adrs} (j : Nat) :
    Steady (fun s => Adrs.tree s = base)
      (fun s => Adrs.tree s = { base with layer := UInt32.ofNat j }) (adrsSetLayerAddress j) () :=
  Steady.modified fun _ hs => by
    rw [← hs]
    rfl

theorem nextTree_steady (j : Nat) (t next : UInt64) :
    Steady (fun s => Adrs.tree s = { treeBase j t with layer := UInt32.ofNat (j + 1) })
      (fun s => Adrs.tree s = treeBase (j + 1) next) (adrsSetTreeAddress next) () :=
  treeAddress_steady next

theorem rootOf_layer (hhp : prm.hp < 64) (hleaf : iLeaf < 2 ^ prm.hp) (j : Nat) :
    treeNode hash seeds (treeBase j (treeAt prm iTree j)) prm.hp
      (leafAt prm iTree iLeaf j >>> prm.hp) = rootAt prm hash seeds m iTree (j + 1) := by
  rw [rootAt, Nat.shiftRight_eq_div_pow, Nat.div_eq_of_lt (leafAt_lt hhp hleaf j)]

variable (prm) (hash) (seeds) (m) (iTree) (iLeaf) in
/-- The signature so far, and what layer `j` signed. -/
def signState (j : Nat) : HtState :=
  ⟨(List.range (j + 1)).flatMap (layerSignature prm hash seeds m iTree iLeaf),
    rootAt prm hash seeds m iTree j, treeAt prm iTree j, leafAt prm iTree iLeaf j⟩

theorem signRound_steady (hfn : Computes fn hash var) (hw : prm.lgW < 32) (hhp : prm.hp ≤ slhMaxHp)
    (hleaf : iLeaf < 2 ^ prm.hp) (j : Nat) :
    Steady (fun s => Adrs.tree s = treeBase j (treeAt prm iTree j))
      (fun s => Adrs.tree s = treeBase (j + 1) (treeAt prm iTree (j + 1)))
      (htSignRound fn prm var j (signState prm hash (seedsOf var) m iTree iLeaf j))
      (signState prm hash (seedsOf var) m iTree iLeaf (j + 1)) := by
  have hwidth : prm.hp < 64 := Nat.lt_of_le_of_lt hhp (by decide)
  have hdrop : (signState prm hash (seedsOf var) m iTree iLeaf j).sig.drop
      ((getLen prm + prm.hp) * prm.n * j) =
        layerSignature prm hash (seedsOf var) m iTree iLeaf j ++ [] := by
    rw [signState, List.append_nil, List.range_succ, List.flatMap_append, List.flatMap_singleton]
    exact List.drop_left' (flatMap_length (fun j => layerSignature_length j) j)
  have hroot : Steady (fun s => Adrs.tree s = treeBase j (treeAt prm iTree j))
      (fun s => Adrs.tree s = treeBase j (treeAt prm iTree j))
      (xmssPkFromSig fn prm var (leafAt prm iTree iLeaf j)
        (layerSignature prm hash (seedsOf var) m iTree iLeaf j ++ [])
        (rootAt prm hash (seedsOf var) m iTree j))
      (rootAt prm hash (seedsOf var) m iTree (j + 1)) :=
    (xmssPkFromSig_steady hfn rfl hw _ _ _).value (rootOf_layer hwidth hleaf j)
  unfold htSignRound
  dsimp only
  rw [hdrop]
  refine hroot.bind ((layerAddress_steady (j + 1)).bind ((nextTree_steady j _ _).bind ?_))
  refine (xmssSign_steady hfn hhp _ _).bind ((Steady.returned _).value ?_)
  rw [signState, signState, List.range_succ (n := j + 1), List.flatMap_append,
    List.flatMap_singleton]
  rfl

theorem htSign_steady (hfn : Computes fn hash var) (hw : prm.lgW < 32) (hhp : prm.hp ≤ slhMaxHp)
    (hd : 0 < prm.d) (hleaf : iLeaf < 2 ^ prm.hp) (m : List UInt8) :
    Steady (fun _ => True) (fun _ => True) (htSign fn prm var m iTree iLeaf)
      (htSignature prm hash (seedsOf var) m iTree iLeaf) := by
  have hstart : signState prm hash (seedsOf var) m iTree iLeaf 0 =
      ⟨treeSignature hash (seedsOf var) (treeBase 0 iTree) iLeaf m, m, iTree, iLeaf⟩ := by
    simp [signState, layerSignature, treeAt, leafAt, rootAt]
  have hrounds : Steady (fun s => Adrs.tree s = treeBase 0 iTree) _
      (countUpM (prm.d - 1) (htSignRound fn prm var)
        (signState prm hash (seedsOf var) m iTree iLeaf 0))
      (signState prm hash (seedsOf var) m iTree iLeaf (prm.d - 1)) :=
    Steady.rounds (P := fun j s => Adrs.tree s = treeBase j (treeAt prm iTree j))
      fun j _ => signRound_steady hfn hw hhp hleaf j
  rw [hstart] at hrounds
  refine zeroAddress_steady.bind ((treeAddress_steady iTree).bind ?_)
  refine (xmssSign_steady hfn hhp m iLeaf).bind (hrounds.bind ?_)
  refine ((Steady.returned _).mono (fun _ hs => hs) fun _ _ => trivial).value ?_
  rw [signState, Nat.sub_add_cancel hd, htSignature]

variable (prm) (hash) (seeds) (m) (iTree) (iLeaf) (rest) in
/-- The signatures from layer `j` on, and where that of layer `j` led to. -/
def verifyState (j : Nat) : HtState :=
  ⟨(htSignature prm hash seeds m iTree iLeaf ++ rest).drop ((prm.hp + getLen prm) * prm.n * j),
    rootAt prm hash seeds m iTree (j + 1), treeAt prm iTree j, leafAt prm iTree iLeaf j⟩

/-- The signature of a layer leads to the node that the next one signed. -/
theorem layer_steady (hfn : Computes fn hash var) (hpk : var.pkSeed = seeds.pk) (hw : prm.lgW < 32)
    (hhp : prm.hp < 64) (hleaf : iLeaf < 2 ^ prm.hp) {j : Nat} (hj : j < prm.d) :
    Steady (fun s => Adrs.tree s = treeBase j (treeAt prm iTree j))
      (fun s => Adrs.tree s = treeBase j (treeAt prm iTree j))
      (xmssPkFromSig fn prm var (leafAt prm iTree iLeaf j)
        (verifyState prm hash seeds m rest iTree iLeaf j).sig (rootAt prm hash seeds m iTree j))
      (rootAt prm hash seeds m iTree (j + 1)) := by
  obtain ⟨later, hlater⟩ := drop_flatMap
    (fun j => @layerSignature_length prm hash seeds m iTree iLeaf j) hj rest
  rw [verifyState, Nat.add_comm prm.hp, htSignature, hlater]
  exact (xmssPkFromSig_steady hfn hpk hw _ _ _).value (rootOf_layer hhp hleaf j)

theorem verifyRound_steady (hfn : Computes fn hash var) (hpk : var.pkSeed = seeds.pk)
    (hw : prm.lgW < 32) (hhp : prm.hp < 64) (hleaf : iLeaf < 2 ^ prm.hp) {j : Nat}
    (hj : j + 1 < prm.d) :
    Steady (fun s => Adrs.tree s = treeBase j (treeAt prm iTree j))
      (fun s => Adrs.tree s = treeBase (j + 1) (treeAt prm iTree (j + 1)))
      (htVerifyRound fn prm var j (verifyState prm hash seeds m rest iTree iLeaf j))
      (verifyState prm hash seeds m rest iTree iLeaf (j + 1)) := by
  have hdrop : (verifyState prm hash seeds m rest iTree iLeaf j).sig.drop
      ((prm.hp + getLen prm) * prm.n) =
        (verifyState prm hash seeds m rest iTree iLeaf (j + 1)).sig := by
    rw [verifyState, verifyState, List.drop_drop, Nat.mul_succ]
  unfold htVerifyRound
  dsimp only
  rw [hdrop]
  refine (layerAddress_steady (j + 1)).bind ((nextTree_steady j _ _).bind ?_)
  exact (layer_steady hfn hpk hw hhp hleaf hj).bind (Steady.returned _)

/-- Verification compares the root of the top layer with that of the public key. -/
theorem htVerify_steady (hfn : Computes fn hash var) (hpk : var.pkSeed = seeds.pk)
    (hw : prm.lgW < 32) (hhp : prm.hp < 64) (hd : 0 < prm.d) (hleaf : iLeaf < 2 ^ prm.hp) :
    Steady (fun _ => True) (fun _ => True)
      (htVerify fn prm var m (htSignature prm hash seeds m iTree iLeaf ++ rest) iTree iLeaf)
      (decide (rootAt prm hash seeds m iTree prm.d = var.pkRoot)) := by
  have hstart : verifyState prm hash seeds m rest iTree iLeaf 0 =
      ⟨htSignature prm hash seeds m iTree iLeaf ++ rest, rootAt prm hash seeds m iTree 1, iTree,
        iLeaf⟩ := by
    rw [verifyState, Nat.mul_zero, List.drop_zero]
    rfl
  have hfirst : Steady (fun s => Adrs.tree s = treeBase 0 iTree)
      (fun s => Adrs.tree s = treeBase 0 iTree) (xmssPkFromSig fn prm var iLeaf
        (verifyState prm hash seeds m rest iTree iLeaf 0).sig m)
      (rootAt prm hash seeds m iTree 1) := layer_steady hfn hpk hw hhp hleaf hd
  have hrounds : Steady (fun s => Adrs.tree s = treeBase 0 iTree) _
      (countUpM (prm.d - 1) (htVerifyRound fn prm var)
        (verifyState prm hash seeds m rest iTree iLeaf 0))
      (verifyState prm hash seeds m rest iTree iLeaf (prm.d - 1)) :=
    Steady.rounds (P := fun j s => Adrs.tree s = treeBase j (treeAt prm iTree j))
      fun j hj => verifyRound_steady hfn hpk hw hhp hleaf (by omega)
  rw [hstart] at hfirst hrounds
  refine zeroAddress_steady.bind ((treeAddress_steady iTree).bind (hfirst.bind (hrounds.bind ?_)))
  refine ((Steady.returned _).mono (fun _ hs => hs) fun _ _ => trivial).value ?_
  rw [verifyState, Nat.sub_add_cancel hd]

end Hypertree

end LiberaCrypt.SlhHypertree
