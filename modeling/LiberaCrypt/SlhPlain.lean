import LiberaCrypt.SlhDsaApi

namespace LiberaCrypt.SlhPlain

open LiberaCrypt.CountedLoop LiberaCrypt.MonadicLoop LiberaCrypt.SlhDsa LiberaCrypt.SlhDsaApi
open LiberaCrypt.SlhDsaCorrect LiberaCrypt.SlhForest LiberaCrypt.SlhTrees LiberaCrypt.SteadyAction
open LiberaCrypt.TreeHash

section Chain

variable {p : Primitives} {alg : SlhDsaAlgID} {prm : SlhParam} {fn : SlhFunctions} {var : SlhVar}

/-- A chain of calls of `F`, each under its own hash address. -/
def plainChain (fn : SlhFunctions) (var : SlhVar) (x : List UInt8) (i s : Nat) :
    OnAdrs (List UInt8) :=
  countUpM s (fun j node => do
    adrsSetHashAddress (i + j)
    fn.hF var node) x

theorem plainChain_apply {n : Nat} {hash : SlhHash n} (hfn : Computes fn hash var) (x : List UInt8)
    (i steps : Nat) (s : Adrs) : ∃ index, plainChain fn var x i steps s =
      some (hash.chain var.pkSeed s x i steps, { s with index := index }) := by
  induction steps with
  | zero => exact ⟨s.index, rfl⟩
  | succ steps ih =>
    obtain ⟨index, hrun⟩ := ih
    refine ⟨UInt32.ofNat (i + steps), ?_⟩
    change (plainChain fn var x i steps s >>= fun r =>
      fn.hF var r.1 { r.2 with index := UInt32.ofNat (i + steps) }) = _
    rw [hrun]
    exact hfn.hF _ _

/-- The chains of every parameter set, which keep a part of their first block, agree with the plain
ones. -/
theorem slh_chain_plain (halg : slhDsaParameters p alg = some (prm, fn))
    (hpk : var.pkSeed.length = prm.n) {x : List UInt8} (hx : x.length = prm.n) (i steps : Nat)
    (s : Adrs) : ∃ node, (fn.chain var x i steps).run' s = some node ∧
      (plainChain fn var x i steps).run' s = some node := by
  obtain ⟨-, hash, hfn⟩ := slhDsaParameters_sound halg
  obtain ⟨index, hchain⟩ := (hfn var hpk).chain x i steps s hx
  obtain ⟨last, hplain⟩ := plainChain_apply (hfn var hpk) x i steps s
  refine ⟨hash.chain var.pkSeed s x i steps, ?_, ?_⟩
  · change (fun r => r.1) <$> fn.chain var x i steps s = _
    rw [hchain]
    rfl
  · change (fun r => r.1) <$> plainChain fn var x i steps s = _
    rw [hplain]
    rfl

def sampleVar : SlhVar :=
  ⟨List.replicate 16 1, List.replicate 16 2, List.replicate 16 3, List.replicate 16 4⟩

theorem slh_chain_plain_sample : ∃ node,
    ((sha2Set constantPrimitives param128s).2.chain sampleVar (List.replicate 16 5) 2 9).run'
      Adrs.zero = some node ∧
    (plainChain (sha2Set constantPrimitives param128s).2 sampleVar (List.replicate 16 5) 2 9).run'
      Adrs.zero = some node :=
  @slh_chain_plain constantPrimitives .sha2_128s _ _ sampleVar rfl (List.length_replicate ..) _
    (List.length_replicate ..) 2 9 Adrs.zero

end Chain

section Trees

variable {p : Primitives} {alg : SlhDsaAlgID} {prm : SlhParam} {fn : SlhFunctions} {var : SlhVar}

def plainXmssNode (fn : SlhFunctions) (prm : SlhParam) (var : SlhVar) (i z : Nat) :
    OnAdrs (List UInt8) :=
  recursiveNode (wotsPkGen fn prm var) (xmssJoin fn var) z i

def plainForsNode (fn : SlhFunctions) (var : SlhVar) (i z : Nat) : OnAdrs (List UInt8) :=
  recursiveNode (forsLeaf fn var) (forsJoin fn var) z i

theorem steady_value {P Q : Adrs → Prop} {x : OnAdrs (List UInt8)} {v : List UInt8}
    (h : Steady P Q x v) {s : Adrs} (hs : P s) : x.run' s = some v := by
  obtain ⟨t, hrun, -⟩ := h s hs
  change (fun r => r.1) <$> x s = _
  rw [hrun]
  rfl

/-- The trees of every parameter set fit on their stacks, from any address, and the roots are those
of the recursion. The leaves of the node have indices of 32 bits. -/
theorem slh_node_plain (halg : slhDsaParameters p alg = some (prm, fn))
    (hpk : var.pkSeed.length = prm.n) (i : Nat) (s : Adrs) :
    (∀ z ≤ prm.hp, i < 2 ^ (32 - z) → ∃ root, (xmssNode fn prm var i z).run' s = some root ∧
      (plainXmssNode fn prm var i z).run' s = some root) ∧
    ∀ z ≤ prm.a, i < 2 ^ (32 - z) → ∃ root, (forsNode fn var i z).run' s = some root ∧
      (plainForsNode fn var i z).run' s = some root := by
  obtain ⟨hprm, hash, hfn⟩ := slhDsaParameters_sound halg
  have hcomputes := hfn var hpk
  refine ⟨fun z hz _ => ⟨treeNode hash (seedsOf var) (Adrs.tree s) z i, ?_, ?_⟩,
    fun z hz _ => ⟨forestNode hash (seedsOf var) (Adrs.forest s) z i, ?_, ?_⟩⟩
  · exact steady_value (xmssNode_steady hcomputes (hz.trans hprm.height) i) rfl
  · exact steady_value (recursiveNode_steady (fun _ hs => hs) (wotsPkGen_steady hcomputes)
      (xmssJoin_steady hcomputes) i z) rfl
  · exact steady_value (forsNode_steady hcomputes (hz.trans hprm.depth) i) rfl
  · exact steady_value (recursiveNode_steady (fun _ hs => InForest.forest hs)
      (forsLeaf_steady hcomputes) (forsJoin_steady hcomputes rfl) i z) rfl

theorem slh_node_plain_sample :
    (∃ root, (xmssNode (sha2Set constantPrimitives param128s).2 param128s sampleVar 0 9).run'
        Adrs.zero = some root ∧
      (plainXmssNode (sha2Set constantPrimitives param128s).2 param128s sampleVar 0 9).run'
        Adrs.zero = some root) ∧
    ∃ root, (forsNode (sha2Set constantPrimitives param128s).2 sampleVar 13 12).run'
        Adrs.zero = some root ∧
      (plainForsNode (sha2Set constantPrimitives param128s).2 sampleVar 13 12).run'
        Adrs.zero = some root := by
  have hsize : sampleVar.pkSeed.length = param128s.n := List.length_replicate
  constructor
  · exact (@slh_node_plain constantPrimitives .sha2_128s param128s _ sampleVar rfl hsize 0
      Adrs.zero).1 9 (by decide) (by decide)
  · exact (@slh_node_plain constantPrimitives .sha2_128s param128s _ sampleVar rfl hsize 13
      Adrs.zero).2 12 (by decide) (by decide)

end Trees

end LiberaCrypt.SlhPlain
