import LiberaCrypt.SlhHypertree

namespace LiberaCrypt.SlhDsaCorrect

open LiberaCrypt.SlhDsa LiberaCrypt.SlhForest LiberaCrypt.SlhHypertree LiberaCrypt.SlhTrees
open LiberaCrypt.SteadyAction

structure Sound (prm : SlhParam) : Prop where
  digits : prm.lgW < 32
  layers : 0 < prm.d
  trees : prm.h = prm.d * prm.hp
  height : prm.hp ≤ slhMaxHp
  width : prm.h - prm.hp ≤ 64
  forest : 0 < prm.a
  depth : prm.a ≤ slhMaxA

instance soundDecidable (prm : SlhParam) : Decidable (Sound prm) :=
  decidable_of_iff (prm.lgW < 32 ∧ 0 < prm.d ∧ prm.h = prm.d * prm.hp ∧ prm.hp ≤ slhMaxHp ∧
    prm.h - prm.hp ≤ 64 ∧ 0 < prm.a ∧ prm.a ≤ slhMaxA)
    ⟨fun ⟨h1, h2, h3, h4, h5, h6, h7⟩ => ⟨h1, h2, h3, h4, h5, h6, h7⟩,
      fun ⟨h1, h2, h3, h4, h5, h6, h7⟩ => ⟨h1, h2, h3, h4, h5, h6, h7⟩⟩

section Digest

variable {fn : SlhFunctions} {prm : SlhParam} {hash : SlhHash prm.n} {var : SlhVar} {seeds : Seeds}
  {digest : List UInt8}

theorem splitDigest_leaf (hprm : Sound prm) : (splitDigest prm digest).2 < 2 ^ prm.hp := by
  have hhp : prm.hp < 32 := Nat.lt_of_le_of_lt hprm.height (by decide)
  unfold splitDigest
  dsimp only
  rw [UInt32.toNat_and, toNat_mask32 hhp]
  exact Nat.and_lt_two_pow _ (Nat.sub_lt (Nat.two_pow_pos _) Nat.one_pos)

theorem splitDigest_tree (hprm : Sound prm) :
    (splitDigest prm digest).1.toNat < 2 ^ (prm.h - prm.hp) := by
  have hwidth := hprm.width
  unfold splitDigest
  dsimp only
  split
  · next hne =>
    rw [toNat_mask64 _ (by omega)]
    exact Nat.mod_lt _ (Nat.two_pow_pos _)
  · next hall =>
    rw [not_not.mp hall]
    exact UInt64.toNat_lt _

theorem top_tree (hprm : Sound prm) : treeAt prm (splitDigest prm digest).1 (prm.d - 1) = 0 := by
  have hheight : prm.h - prm.hp = prm.hp * (prm.d - 1) := by
    rw [hprm.trees, Nat.mul_sub, Nat.mul_one, Nat.mul_comm]
  have htree := @splitDigest_tree prm digest hprm
  rw [hheight] at htree
  apply UInt64.toNat_inj.mp
  rw [treeAt_toNat (Nat.lt_of_le_of_lt hprm.height (by decide)), Nat.div_eq_of_lt htree]
  rfl

def forestBase (prm : SlhParam) (digest : List UInt8) : Adrs :=
  { treeBase 0 (splitDigest prm digest).1 with
    keyPair := UInt32.ofNat (splitDigest prm digest).2 }

theorem forsAddress_steady :
    Steady (fun _ => True) (InForest (forestBase prm digest))
      (adrsSetFors (splitDigest prm digest).1 (splitDigest prm digest).2) () :=
  fun _ _ => ⟨{ forestBase prm digest with type := adrsForsTree }, rfl, rfl, rfl⟩

variable (hash) (seeds) (digest) in
def forsRoot : List UInt8 := forestPk hash seeds (forestBase prm digest) prm.a prm.k

variable (hash) (seeds) (digest) in
def digestSignature : List UInt8 :=
  forestSignature hash seeds (forestBase prm digest) prm.a prm.k digest ++
    htSignature prm hash seeds (forsRoot hash seeds digest) (splitDigest prm digest).1
      (splitDigest prm digest).2

variable (hash) (seeds) in
def topRoot : List UInt8 := treeNode hash seeds (treeBase (prm.d - 1) 0) prm.hp 0

theorem slhSignDigest_steady (hfn : Computes fn hash var) (hprm : Sound prm) :
    Steady (fun _ => True) (fun _ => True) (slhSignDigest fn prm var digest)
      (digestSignature hash (seedsOf var) digest) := by
  have ha : prm.a < 32 := Nat.lt_of_le_of_lt hprm.depth (by decide)
  have hroot := @forsPkFromSig_steady fn prm (forestBase prm digest) (seedsOf var) var hash hfn rfl
    ha digest []
  rw [List.append_nil] at hroot
  unfold slhSignDigest
  dsimp only
  refine forsAddress_steady.bind ((forsSign_steady hfn hprm.forest hprm.depth digest).bind ?_)
  refine hroot.bind ?_
  exact (htSign_steady hfn hprm.digits hprm.height hprm.layers (splitDigest_leaf hprm) _).bind
    (Steady.returned _)

theorem forestSignature_length (base : Adrs) :
    (forestSignature hash seeds base prm.a prm.k digest).length = prm.k * (1 + prm.a) * prm.n := by
  rw [forestSignature, flatMap_length fun i => forestPart_length _ _ _]
  ring

theorem digestSignature_length (hprm : Sound prm) :
    prm.n + (digestSignature hash seeds digest).length = slhSigSz prm := by
  rw [digestSignature, List.length_append, forestSignature_length, htSignature,
    flatMap_length fun j => layerSignature_length j, slhSigSz, hprm.trees]
  ring

theorem slhVerifyDigest_steady (hfn : Computes fn hash var) (hprm : Sound prm)
    (hpk : var.pkSeed = seeds.pk) (hroot : var.pkRoot = topRoot hash seeds) {r : List UInt8}
    (hr : r.length = prm.n) :
    Steady (fun _ => True) (fun _ => True)
      (slhVerifyDigest fn prm var digest (r ++ digestSignature hash seeds digest)) true := by
  have ha : prm.a < 32 := Nat.lt_of_le_of_lt hprm.depth (by decide)
  have hhp : prm.hp < 64 := Nat.lt_of_le_of_lt hprm.height (by decide)
  have hlength : (r ++ digestSignature hash seeds digest).length = slhSigSz prm := by
    rw [List.length_append, hr, digestSignature_length hprm]
  have hforest : (r ++ digestSignature hash seeds digest).drop prm.n =
      digestSignature hash seeds digest := List.drop_left' hr
  have hhyper : (r ++ digestSignature hash seeds digest).drop
      ((1 + prm.k * (1 + prm.a)) * prm.n) = htSignature prm hash seeds
        (forsRoot hash seeds digest) (splitDigest prm digest).1 (splitDigest prm digest).2 ++
          [] := by
    rw [Nat.add_mul, Nat.one_mul, ← List.drop_drop, hforest, digestSignature, List.append_nil]
    exact List.drop_left' (forestSignature_length _)
  have htop : rootAt prm hash seeds (forsRoot hash seeds digest) (splitDigest prm digest).1 prm.d =
      var.pkRoot := by
    obtain ⟨d, hd⟩ := Nat.exists_eq_succ_of_ne_zero hprm.layers.ne'
    have hzero := @top_tree prm digest hprm
    rw [hd, Nat.succ_sub_one] at hzero
    rw [hroot, topRoot, hd, rootAt, hzero, Nat.succ_sub_one]
  unfold slhVerifyDigest
  rw [if_neg (not_not.mpr hlength), hforest, hhyper]
  refine forsAddress_steady.bind ((forsPkFromSig_steady hfn hpk ha digest _).bind ?_)
  refine (htVerify_steady hfn hpk hprm.digits hhp hprm.layers (splitDigest_leaf hprm)).value ?_
  exact decide_eq_true htop

end Digest

section Messages

/-- The functions compute the hashes for every public seed of the right size. -/
def Implements {n : Nat} (fn : SlhFunctions) (hash : SlhHash n) : Prop :=
  ∀ var : SlhVar, var.pkSeed.length = n → Computes fn hash var

variable {fn : SlhFunctions} {prm : SlhParam} {hash : SlhHash prm.n}
  {skSeed skPrf pkSeed : List UInt8}

theorem run_steady {α : Type} {x : OnAdrs α} {v : α}
    (h : Steady (fun _ => True) (fun _ => True) x v) : x.run' Adrs.zero = some v := by
  obtain ⟨t, hrun, -⟩ := h Adrs.zero trivial
  change (fun r => r.1) <$> x Adrs.zero = _
  rw [hrun]
  rfl

theorem slices {a b c d : List UInt8} {n : Nat} (ha : a.length = n) (hb : b.length = n)
    (hc : c.length = n) (hd : d.length = n) : mkVarSk n (a ++ b ++ c ++ d) = ⟨a, b, c, d⟩ := by
  have hfirst : (a ++ b ++ c ++ d).drop n = b ++ c ++ d := by
    rw [List.append_assoc, List.append_assoc, List.drop_left' ha, ← List.append_assoc]
  have hsecond : (a ++ b ++ c ++ d).drop (2 * n) = c ++ d := by
    rw [Nat.two_mul, ← List.drop_drop, hfirst, List.append_assoc, List.drop_left' hb]
  have hthird : (a ++ b ++ c ++ d).drop (3 * n) = d := by
    rw [show 3 * n = 2 * n + n by omega, ← List.drop_drop, hsecond, List.drop_left' hc]
  unfold mkVarSk
  rw [hfirst, hsecond, hthird, List.append_assoc, List.append_assoc, List.append_assoc,
    List.take_left' ha, List.take_left' hb, List.take_left' hc, List.take_of_length_le hd.le]

/-- The keys of the three seeds: the public root is the root of the top tree. -/
theorem slhKeygenInternal_eq (hfn : Implements fn hash) (hprm : Sound prm)
    (hsk : skSeed.length = prm.n) (hprf : skPrf.length = prm.n) (hpk : pkSeed.length = prm.n) :
    slhKeygenInternal fn prm skSeed skPrf pkSeed =
      some (pkSeed ++ topRoot hash ⟨skSeed, pkSeed⟩,
        skSeed ++ skPrf ++ pkSeed ++ topRoot hash ⟨skSeed, pkSeed⟩) := by
  have hroot : Steady (fun _ => True) (fun _ => True) (do
      adrsZero
      adrsSetLayerAddress (prm.d - 1)
      xmssNode fn prm ⟨skSeed, skPrf, pkSeed, List.replicate prm.n 0⟩ 0 prm.hp)
      (topRoot hash ⟨skSeed, pkSeed⟩) := by
    refine zeroAddress_steady.bind ((layerAddress_steady (prm.d - 1)).bind ?_)
    exact (xmssNode_steady (hfn _ hpk) hprm.height 0).mono (fun _ hs => hs) fun _ _ => trivial
  unfold slhKeygenInternal
  dsimp only
  rw [List.take_of_length_le hsk.le, List.take_of_length_le hprf.le,
    List.take_of_length_le hpk.le, slices hsk hprf hpk (List.length_replicate ..),
    run_steady hroot]
  rfl

theorem topRoot_length (seeds : Seeds) : (topRoot hash seeds).length = prm.n :=
  treeNode_length seeds prm.hp 0

theorem signMessage_accepted (hfn : Implements fn hash) (hprm : Sound prm)
    (hsk : skSeed.length = prm.n) (hprf : skPrf.length = prm.n) (hpk : pkSeed.length = prm.n)
    (m : List UInt8) (ctx addrnd : Option (List UInt8)) : ∃ sig,
      signMessage fn prm m ctx (skSeed ++ skPrf ++ pkSeed ++ topRoot hash ⟨skSeed, pkSeed⟩)
        addrnd = some sig ∧ sig.length = slhSigSz prm ∧
      verifyMessage fn prm m sig ctx (pkSeed ++ topRoot hash ⟨skSeed, pkSeed⟩) = some true := by
  have hvar := slices hsk hprf hpk (@topRoot_length prm hash ⟨skSeed, pkSeed⟩)
  have hpublic : mkVarPk prm.n (pkSeed ++ topRoot hash ⟨skSeed, pkSeed⟩) =
      ⟨[], [], pkSeed, topRoot hash ⟨skSeed, pkSeed⟩⟩ := by
    unfold mkVarPk
    rw [List.take_left' hpk, List.drop_left' hpk, List.take_of_length_le (topRoot_length _).le]
  let var : SlhVar := ⟨skSeed, skPrf, pkSeed, topRoot hash ⟨skSeed, pkSeed⟩⟩
  let r := fn.prfMsg var (addrnd.getD pkSeed) m ctx
  let digest := hash.msg pkSeed (topRoot hash ⟨skSeed, pkSeed⟩) r m ctx
  have hr : r.length = prm.n := (hfn var hpk).prfMsg_length _ _ _
  have hlength : (r ++ digestSignature hash (seedsOf var) digest).length = slhSigSz prm := by
    rw [List.length_append, hr, digestSignature_length hprm]
  have hsign := run_steady (@slhSignDigest_steady fn prm hash var digest (hfn var hpk) hprm)
  have hverify := run_steady (@slhVerifyDigest_steady fn prm hash ⟨[], [], pkSeed, var.pkRoot⟩
    (seedsOf var) digest (hfn _ hpk) hprm rfl rfl r hr)
  refine ⟨r ++ digestSignature hash (seedsOf var) digest, ?_, hlength, ?_⟩
  · unfold signMessage
    rw [hvar]
    dsimp only
    rw [(hfn var hpk).hMsg]
    exact congrArg (fun x => x.bind fun sig => some (r ++ sig)) hsign
  · unfold verifyMessage
    rw [if_neg (not_not.mpr hlength), hpublic, List.take_left' hr]
    dsimp only
    rw [(hfn _ hpk).hMsg]
    exact hverify

end Messages

end LiberaCrypt.SlhDsaCorrect
