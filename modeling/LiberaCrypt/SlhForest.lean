import LiberaCrypt.SlhTrees

namespace LiberaCrypt.SlhForest

open LiberaCrypt.CountedLoop LiberaCrypt.MonadicLoop LiberaCrypt.SlhDsa LiberaCrypt.SlhTrees
open LiberaCrypt.SteadyAction LiberaCrypt.TreeHash

section Fors

variable {fn : SlhFunctions} {prm : SlhParam} {n : Nat} {base : Adrs}

def Adrs.forest (s : Adrs) : Adrs := { s with type := 0, height := 0, index := 0 }

section Values

variable (hash : SlhHash n) (seeds : Seeds) (base : Adrs)

def forsSecret (i : Nat) : List UInt8 :=
  hash.prf seeds { base with type := adrsForsPrf, index := UInt32.ofNat i }

def forsPublic (i : Nat) : List UInt8 :=
  hash.f seeds.pk { base with type := adrsForsTree, index := UInt32.ofNat i }
    (forsSecret hash seeds base i)

def forestJoin (k i : Nat) (left right : List UInt8) : List UInt8 :=
  hash.h seeds.pk
    { base with type := adrsForsTree, height := UInt32.ofNat k, index := UInt32.ofNat i } left right

def forestNode (z i : Nat) : List UInt8 :=
  node (forsPublic hash seeds base) (forestJoin hash seeds base) z i

/-- The secret that tree `i` reveals and the siblings on its way up. -/
def forestPart (a i v : Nat) : List UInt8 :=
  forsSecret hash seeds base ((i <<< a) + v) ++
    (List.range a).flatMap fun j => forestNode hash seeds base j ((((i <<< a) + v) >>> j) ^^^ 1)

def forestSignature (a k : Nat) (md : List UInt8) : List UInt8 :=
  (List.range k).flatMap fun i => forestPart hash seeds base a i ((base2b md a k).getD i 0)

def forestPk (a k : Nat) : List UInt8 :=
  hash.t seeds.pk { base with type := adrsForsRoots }
    ((List.range k).flatMap fun i => forestNode hash seeds base a i)

end Values

variable {hash : SlhHash n} {seeds : Seeds} {var : SlhVar}

/-- The address is one of the forest of `base`, outside its secrets. -/
structure InForest (base s : Adrs) : Prop where
  forest : Adrs.forest s = base
  type : s.type = adrsForsTree

theorem forestNode_length (z i : Nat) : (forestNode hash seeds base z i).length = n := by
  cases z with
  | zero => exact hash.f_length _ _ _
  | succ z => exact hash.h_length _ _ _ _

theorem forestPart_length (a i v : Nat) :
    (forestPart hash seeds base a i v).length = (1 + a) * n := by
  rw [forestPart, List.length_append, flatMap_length fun j => forestNode_length _ _, forsSecret,
    hash.prf_length]
  ring

theorem forsLeaf_steady (hfn : Computes fn hash var) (i : Nat) :
    Steady (fun s => Adrs.forest s = base) (InForest base) (forsLeaf fn var i)
      (forsPublic hash (seedsOf var) base i) := by
  rintro s rfl
  exact ⟨{ s with type := adrsForsTree, height := 0, index := UInt32.ofNat i },
    hfn.forsPublic { s with index := UInt32.ofNat i }, rfl, rfl⟩

theorem forsJoin_steady (hfn : Computes fn hash var) (hpk : var.pkSeed = seeds.pk) (k i : Nat)
    (left right : List UInt8) : Steady (InForest base) (InForest base)
      (forsJoin fn var k i left right) (forestJoin hash seeds base k i left right) := by
  rintro s ⟨rfl, htype⟩
  refine ⟨{ s with height := UInt32.ofNat k, index := UInt32.ofNat i },
    (hfn.hH left right _).trans ?_, rfl, htype⟩
  unfold forestJoin
  rw [hpk, ← htype]
  rfl

theorem forsNode_steady (hfn : Computes fn hash var) {z : Nat} (hz : z ≤ slhMaxA) (i : Nat) :
    Steady (fun s => Adrs.forest s = base) (InForest base) (forsNode fn var i z)
      (forestNode hash (seedsOf var) base z i) :=
  treeHash_steady (fun _ hs => hs.forest) (forsLeaf_steady hfn) (forsJoin_steady hfn rfl) hz

theorem forestIndex_shift {a i v j : Nat} (hj : j < a) :
    ((i <<< a) + v) >>> j = 2 * (i * 2 ^ (a - j - 1)) + (v >>> j) := by
  have hpow : 2 ^ a = 2 ^ j * (2 * 2 ^ (a - j - 1)) := by
    rw [← Nat.pow_succ', ← Nat.pow_add]
    congr 1
    omega
  rw [Nat.shiftLeft_eq, Nat.shiftRight_eq_div_pow, Nat.shiftRight_eq_div_pow, hpow,
    show i * (2 ^ j * (2 * 2 ^ (a - j - 1))) + v = v + 2 ^ j * (2 * (i * 2 ^ (a - j - 1))) by ring,
    Nat.add_mul_div_left _ _ (Nat.two_pow_pos j), Nat.add_comm]

theorem forestIndex_bit {a i v j : Nat} (hj : j < a) :
    (((i <<< a) + v) >>> j) &&& 1 = (v >>> j) &&& 1 := by
  rw [forestIndex_shift hj, Nat.and_one_is_mod, Nat.and_one_is_mod, Nat.mul_add_mod]

/-- Within tree `i` the siblings are counted from its first node of the level. -/
theorem sibling_index {a i v j : Nat} (hj : j < a) :
    (i <<< (a - j)) + ((v >>> j) ^^^ 1) = (((i <<< a) + v) >>> j) ^^^ 1 := by
  have hleft : i <<< (a - j) = 2 * (i * 2 ^ (a - j - 1)) := by
    rw [Nat.shiftLeft_eq, show a - j = a - j - 1 + 1 by omega, Nat.pow_succ, Nat.add_sub_cancel]
    ring
  rw [forestIndex_shift hj, hleft]
  generalize i * 2 ^ (a - j - 1) = q
  generalize v >>> j = m
  rcases Nat.even_or_odd m with heven | hodd
  · rw [Nat.xor_one_of_even heven, Nat.xor_one_of_even ((even_two_mul q).add heven), Nat.add_assoc]
  · have hpos := hodd.pos
    rw [Nat.xor_one_of_odd hodd, Nat.xor_one_of_odd ((even_two_mul q).add_odd hodd)]
    omega

theorem forestIndex_top {a i v : Nat} (hv : v < 2 ^ a) : ((i <<< a) + v) >>> a = i := by
  rw [Nat.shiftLeft_eq, Nat.shiftRight_eq_div_pow, Nat.add_comm,
    Nat.add_mul_div_right _ _ (Nat.two_pow_pos a), Nat.div_eq_of_lt hv, Nat.zero_add]

theorem forsPart_steady (hfn : Computes fn hash var) {a : Nat} (ha : 0 < a) (hmax : a ≤ slhMaxA)
    (i v : Nat) (sf : List UInt8) :
    Steady (fun s => Adrs.forest s = base) (InForest base) (do
      adrsSetTreeIndex ((i <<< a) + v)
      let sk ← fn.forsHash var 0
      countUpM a (fun j sf => do
        let node ← forsNode fn var ((i <<< (a - j)) + ((v >>> j) ^^^ 1)) j
        pure (sf ++ node)) (sf ++ sk)) (sf ++ forestPart hash (seedsOf var) base a i v) := by
  have hindex : Steady (fun s => Adrs.forest s = base)
      (fun s => Adrs.forest s = base ∧ s.index = UInt32.ofNat ((i <<< a) + v))
      (adrsSetTreeIndex ((i <<< a) + v)) () := Steady.modified fun s hs => ⟨hs, rfl⟩
  have hsecret : Steady (fun s => Adrs.forest s = base ∧ s.index = UInt32.ofNat ((i <<< a) + v))
      (fun s => Adrs.forest s = base) (fn.forsHash var 0)
      (forsSecret hash (seedsOf var) base ((i <<< a) + v)) := by
    rintro s ⟨rfl, hs⟩
    refine ⟨{ s with type := adrsForsPrf, height := 0 }, (hfn.forsSecret s).trans ?_, rfl⟩
    unfold forsSecret
    rw [← hs]
    rfl
  refine hindex.bind (hsecret.bind ?_)
  obtain ⟨b, rfl⟩ := Nat.exists_eq_succ_of_ne_zero ha.ne'
  let siblings := fun j =>
    forestNode hash (seedsOf var) base j ((((i <<< (b + 1)) + v) >>> j) ^^^ 1)
  have hround : ∀ j < b + 1, ∀ list, Steady (fun s => Adrs.forest s = base) (InForest base) (do
      let node ← forsNode fn var ((i <<< (b + 1 - j)) + ((v >>> j) ^^^ 1)) j
      pure (list ++ node)) (list ++ siblings j) := by
    intro j hj list
    rw [sibling_index hj]
    exact (forsNode_steady hfn (by omega) _).bind (Steady.returned _)
  let parts := fun j => sf ++ forsSecret hash (seedsOf var) base ((i <<< (b + 1)) + v) ++
    (List.range j).flatMap siblings
  have hparts : ∀ j, parts (j + 1) = parts j ++ siblings j := by
    intro j
    simp only [parts, List.range_succ, List.flatMap_append, List.flatMap_singleton,
      List.append_assoc]
  have hmost : Steady (fun s => Adrs.forest s = base) (fun s => Adrs.forest s = base)
      (countUpM b (fun j sf => do
        let node ← forsNode fn var ((i <<< (b + 1 - j)) + ((v >>> j) ^^^ 1)) j
        pure (sf ++ node)) (parts 0)) (parts b) := by
    refine Steady.rounds (P := fun _ s => Adrs.forest s = base) fun j hj => ?_
    rw [hparts]
    exact (hround j (by omega) _).mono (fun _ hs => hs) fun _ hs => hs.forest
  have hstart : parts 0 = sf ++ forsSecret hash (seedsOf var) base ((i <<< (b + 1)) + v) := by
    simp [parts]
  rw [hstart] at hmost
  rw [countUpM]
  refine (hmost.bind (hround b (Nat.lt_succ_self b) _)).value ?_
  rw [← hparts, forestPart, ← List.append_assoc]

theorem forsSign_steady (hfn : Computes fn hash var) (ha : 0 < prm.a) (hmax : prm.a ≤ slhMaxA)
    (md : List UInt8) : Steady (InForest base) (InForest base) (forsSign fn prm var md)
      (forestSignature hash (seedsOf var) base prm.a prm.k md) :=
  Steady.appending fun i _ sf =>
    (forsPart_steady hfn ha hmax i _ sf).mono (fun _ hs => hs.forest) fun _ hs => hs

/-- The address of node `i` of height `k` in the forest. -/
structure OnForestNode (base : Adrs) (k i : Nat) (s : Adrs) : Prop extends InForest base s where
  height : s.height = UInt32.ofNat k
  index : s.index = UInt32.ofNat i

theorem forestAddress_steady {k i : Nat} {x : OnAdrs (List UInt8)} {v : List UInt8}
    (hx : Steady (OnForestNode base k i) (InForest base) x v) :
    Steady (InForest base) (InForest base) (do
      adrsSetTreeHeight k
      adrsSetTreeIndex i
      x) v := by
  have hheight : Steady (InForest base) (fun s => InForest base s ∧ s.height = UInt32.ofNat k)
      (adrsSetTreeHeight k) () := Steady.modified fun _ hs => ⟨⟨hs.forest, hs.type⟩, rfl⟩
  have hindex : Steady (fun s => InForest base s ∧ s.height = UInt32.ofNat k)
      (OnForestNode base k i) (adrsSetTreeIndex i) () :=
    Steady.modified fun _ hs => ⟨⟨hs.1.forest, hs.1.type⟩, hs.2, rfl⟩
  exact hheight.bind (hindex.bind hx)

theorem forestHash_steady (hfn : Computes fn hash var) (hpk : var.pkSeed = seeds.pk) (k i : Nat)
    (left right : List UInt8) : Steady (OnForestNode base k i) (InForest base)
      (fn.hH var left right) (forestJoin hash seeds base k i left right) := by
  rintro s ⟨⟨rfl, htype⟩, hheight, hindex⟩
  refine ⟨s, (hfn.hH left right s).trans ?_, rfl, htype⟩
  unfold forestJoin
  rw [hpk, ← htype, ← hheight, ← hindex]
  rfl

theorem forestLeaf_steady (hfn : Computes fn hash var) (hpk : var.pkSeed = seeds.pk) (i : Nat) :
    Steady (OnForestNode base 0 i) (InForest base) (fn.hF var (forsSecret hash seeds base i))
      (forsPublic hash seeds base i) := by
  rintro s ⟨⟨rfl, htype⟩, hheight, hindex⟩
  refine ⟨s, (hfn.hF _ s).trans ?_, rfl, htype⟩
  have hs : s = { Adrs.forest s with type := adrsForsTree, index := UInt32.ofNat i } := by
    ext <;> simp [Adrs.forest, htype, hheight, hindex]
  unfold forsPublic
  rw [hpk, ← hs]

theorem forestRoot_steady (hfn : Computes fn hash var) (hpk : var.pkSeed = seeds.pk) {a i v : Nat}
    (hv : v < 2 ^ a) {sf rest : List UInt8} (hsf : sf = forestPart hash seeds base a i v ++ rest)
    (root : List UInt8) :
    Steady (InForest base) (InForest base) (do
      adrsSetTreeHeight 0
      let idx := (i <<< a) + v
      adrsSetTreeIndex idx
      let node ← fn.hF var (sf.take n)
      let node ← countUpM a (fun j node => do
        adrsSetTreeHeight (j + 1)
        adrsSetTreeIndex (idx >>> (j + 1))
        let sibling := (sf.drop ((j + 1) * n)).take n
        if (v >>> j) &&& 1 = 0 then fn.hH var node sibling else fn.hH var sibling node) node
      pure (root ++ node)) (root ++ forestNode hash seeds base a i) := by
  dsimp only
  have hlength : (forsSecret hash seeds base ((i <<< a) + v)).length = n := hash.prf_length _ _
  have hsecret : sf.take n = forsSecret hash seeds base ((i <<< a) + v) := by
    rw [hsf, forestPart, List.append_assoc, List.take_left' hlength]
  have hsibling : ∀ j < a, (sf.drop ((j + 1) * n)).take n =
      forestNode hash seeds base j ((((i <<< a) + v) >>> j) ^^^ 1) := by
    intro j hj
    rw [hsf, forestPart, List.append_assoc, Nat.succ_mul, Nat.add_comm (j * n) n,
      ← List.drop_drop, List.drop_left' hlength, Nat.mul_comm]
    exact slice_flatMap (fun j => forestNode_length _ _) hj rest
  have hleaf : Steady (OnForestNode base 0 ((i <<< a) + v)) (InForest base)
      (fn.hF var (sf.take n)) (forestNode hash seeds base 0 (((i <<< a) + v) >>> 0)) := by
    rw [hsecret]
    exact forestLeaf_steady hfn hpk _
  have hclimb : Steady (InForest base) (InForest base) (countUpM a (fun j node => do
      adrsSetTreeHeight (j + 1)
      adrsSetTreeIndex (((i <<< a) + v) >>> (j + 1))
      if (v >>> j) &&& 1 = 0 then fn.hH var node ((sf.drop ((j + 1) * n)).take n)
      else fn.hH var ((sf.drop ((j + 1) * n)).take n) node)
      (forestNode hash seeds base 0 (((i <<< a) + v) >>> 0)))
      (forestNode hash seeds base a (((i <<< a) + v) >>> a)) := by
    refine Steady.rounds (P := fun _ => InForest base)
      (w := fun j => forestNode hash seeds base j (((i <<< a) + v) >>> j)) fun j hj => ?_
    refine forestAddress_steady ?_
    rw [hsibling j hj, ← forestIndex_bit (i := i) hj]
    have hstep := @node_step _ (forsPublic hash seeds base) (forestJoin hash seeds base)
      ((i <<< a) + v) j
    split
    · next hbit =>
      rw [if_pos hbit] at hstep
      exact (forestHash_steady hfn hpk _ _ _ _).value hstep
    · next hbit =>
      rw [if_neg hbit] at hstep
      exact (forestHash_steady hfn hpk _ _ _ _).value hstep
  rw [forestIndex_top hv] at hclimb
  exact forestAddress_steady (hleaf.bind (hclimb.bind (Steady.returned _)))

theorem forsPkFromSig_steady {hash : SlhHash prm.n} (hfn : Computes fn hash var)
    (hpk : var.pkSeed = seeds.pk) (ha : prm.a < 32) (md rest : List UInt8) :
    Steady (InForest base) (fun _ => True)
      (forsPkFromSig fn prm var (forestSignature hash seeds base prm.a prm.k md ++ rest) md)
      (forestPk hash seeds base prm.a prm.k) := by
  have hloop : Steady (InForest base) (InForest base) (countUpM prm.k (fun i root => do
      let sf := (forestSignature hash seeds base prm.a prm.k md ++ rest).drop
        (i * (1 + prm.a) * prm.n)
      adrsSetTreeHeight 0
      let idx := (i <<< prm.a) + (base2b md prm.a prm.k).getD i 0
      adrsSetTreeIndex idx
      let node ← fn.hF var (sf.take prm.n)
      let node ← countUpM prm.a (fun j node => do
        adrsSetTreeHeight (j + 1)
        adrsSetTreeIndex (idx >>> (j + 1))
        let sibling := (sf.drop ((j + 1) * prm.n)).take prm.n
        if ((base2b md prm.a prm.k).getD i 0 >>> j) &&& 1 = 0 then fn.hH var node sibling
        else fn.hH var sibling node) node
      pure (root ++ node)) [])
      ((List.range prm.k).flatMap fun i => forestNode hash seeds base prm.a i) := by
    refine Steady.appending fun i hi root => ?_
    obtain ⟨later, hlater⟩ := @drop_flatMap _ (fun i =>
      forestPart hash seeds base prm.a i ((base2b md prm.a prm.k).getD i 0))
      (fun i => forestPart_length _ _ _) i _ hi rest
    have hv : (base2b md prm.a prm.k).getD i 0 < 2 ^ prm.a :=
      Nat.lt_of_le_pred (Nat.two_pow_pos _) (base2b_le ha i)
    rw [Nat.mul_comm, ← Nat.mul_assoc] at hlater
    exact forestRoot_steady hfn hpk hv hlater root
  refine hloop.bind ?_
  rintro s ⟨rfl, htype⟩
  refine ⟨{ s with type := adrsForsRoots, height := 0, index := 0 }, (hfn.hT _ _).trans ?_, trivial⟩
  unfold forestPk
  rw [hpk]
  rfl

end Fors

end LiberaCrypt.SlhForest
