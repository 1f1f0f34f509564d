import LiberaCrypt.KPke
import LiberaCrypt.MlKemNttRing

namespace LiberaCrypt.MlKemRing

open LiberaCrypt.CountedLoop LiberaCrypt.ButterflyTree LiberaCrypt.SmallInt LiberaCrypt.MlKemReduce
  LiberaCrypt.MlKemNtt LiberaCrypt.MlKemNttLayers LiberaCrypt.MlKemNttRefine
  LiberaCrypt.MlKemNttRing LiberaCrypt.MlKemAuxiliary LiberaCrypt.KPke
open Polynomial (C X C_add)
open scoped Polynomial

/-- A polynomial whose loop reduces a sum of small words represents the sum of the residues. -/
theorem reduced_sum {c : Int32} {n : Nat} (h : Holds c n) :
    Canonical (c % 3329) ∧ (word (c % 3329) : F) = n := by
  have hmod := (h.mod three_holds).toNat
  refine ⟨?_, ?_⟩
  · rw [Canonical, word, hmod]
    exact Nat.mod_lt _ (by norm_num)
  · rw [word, hmod, cast_mod]

theorem addPoly_coeff {f g : Poly Int32} (hf : AllCanonical f) (hg : AllCanonical g) {i : Nat}
    (hi : i < 256) : Canonical (coeff (addPoly f g) i) ∧
      (word (coeff (addPoly f g) i) : F) = word (coeff f i) + word (coeff g i) := by
  have h := pointwise_coeff (fun i x => (x + coeff g i) % 3329) f le_rfl i hi
  rw [if_pos hi] at h
  have h1 := hf i hi
  have h2 := hg i hi
  unfold Canonical at h1 h2
  obtain ⟨hc, hv⟩ := reduced_sum ((holds_canonical h1).add (holds_canonical h2) (by omega))
  rw [addPoly, h]
  exact ⟨hc, by rw [hv, Nat.cast_add]⟩

theorem addTwo_coeff {f g h : Poly Int32} (hf : AllCanonical f) (hg : AllCanonical g)
    (hh : AllCanonical h) {i : Nat} (hi : i < 256) : Canonical (coeff (addTwo f g h) i) ∧
      (word (coeff (addTwo f g h) i) : F) =
        word (coeff f i) + word (coeff g i) + word (coeff h i) := by
  have he := pointwise_coeff (fun i x => (x + coeff g i + coeff h i) % 3329) f le_rfl i hi
  rw [if_pos hi] at he
  have h1 := hf i hi
  have h2 := hg i hi
  have h3 := hh i hi
  unfold Canonical at h1 h2 h3
  obtain ⟨hc, hv⟩ := reduced_sum (((holds_canonical h1).add (holds_canonical h2) (by omega)).add
    (holds_canonical h3) (by omega))
  rw [addTwo, he]
  exact ⟨hc, by rw [hv, Nat.cast_add, Nat.cast_add]⟩

theorem subPoly_coeff {f g : Poly Int32} (hf : AllCanonical f) (hg : AllCanonical g) {i : Nat}
    (hi : i < 256) : Canonical (coeff (subPoly f g) i) ∧
      (word (coeff (subPoly f g) i) : F) = word (coeff f i) - word (coeff g i) := by
  have h := pointwise_coeff (fun i _ => (coeff f i - coeff g i + 3329) % 3329) zeroPoly le_rfl i hi
  rw [if_pos hi] at h
  have h1 := hf i hi
  have h2 := hg i hi
  have h1' := holds_canonical h1
  have h2' := holds_canonical h2
  unfold Canonical at h1 h2
  have hsum : Holds (coeff f i - coeff g i + 3329) (word (coeff f i) + 3329 - word (coeff g i)) := by
    unfold Holds at *
    rw [Int32.toInt_add, Int32.toInt_sub, h1', h2', show Int32.toInt 3329 = 3329 from rfl,
      Int.bmod_add_bmod, Int.bmod_eq_of_le (by omega) (by omega)]
    omega
  obtain ⟨hc, hv⟩ := reduced_sum hsum
  have hq : ((3329 : Nat) : F) = 0 := ZMod.natCast_self 3329
  rw [subPoly, h]
  exact ⟨hc, by rw [hv, Nat.cast_sub (by omega), Nat.cast_add, hq, add_zero]⟩

theorem zeroPoly_canonical : AllCanonical zeroPoly := allCanonical_replicate (by decide)

theorem toRq_of_coeff {f g h : Poly Int32} {c : F} (hc : ∀ i < 256,
    (word (coeff f i) : F) = word (coeff g i) + c * word (coeff h i)) :
    toRq f = toRq g + AdjoinRoot.mk (negacyclic 256) (C c) * toRq h := by
  simp only [toRq, ← map_mul, ← map_add, Finset.mul_sum, ← Finset.sum_add_distrib]
  refine congrArg _ (Finset.sum_congr rfl fun i hi => ?_)
  rw [hc i (Finset.mem_range.mp hi), C_add, Polynomial.C_mul]
  ring

theorem toRq_addPoly {f g : Poly Int32} (hf : AllCanonical f) (hg : AllCanonical g) :
    toRq (addPoly f g) = toRq f + toRq g := by
  have h := toRq_of_coeff (f := addPoly f g) (g := f) (h := g) (c := 1)
    fun i hi => by rw [(addPoly_coeff hf hg hi).2, one_mul]
  rwa [Polynomial.C_1, map_one, one_mul] at h

theorem toRq_subPoly {f g : Poly Int32} (hf : AllCanonical f) (hg : AllCanonical g) :
    toRq (subPoly f g) = toRq f - toRq g := by
  have h := toRq_of_coeff (f := subPoly f g) (g := f) (h := g) (c := -1)
    fun i hi => by rw [(subPoly_coeff hf hg hi).2, neg_one_mul, sub_eq_add_neg]
  rwa [Polynomial.C_neg, Polynomial.C_1, map_neg, map_one, neg_one_mul, ← sub_eq_add_neg] at h

theorem addPoly_canonical {f g : Poly Int32} (hf : AllCanonical f) (hg : AllCanonical g) :
    AllCanonical (addPoly f g) := fun _ hi => (addPoly_coeff hf hg hi).1

theorem subPoly_canonical {f g : Poly Int32} (hf : AllCanonical f) (hg : AllCanonical g) :
    AllCanonical (subPoly f g) := fun _ hi => (subPoly_coeff hf hg hi).1

theorem addTwo_canonical {f g h : Poly Int32} (hf : AllCanonical f) (hg : AllCanonical g)
    (hh : AllCanonical h) : AllCanonical (addTwo f g h) := fun _ hi => (addTwo_coeff hf hg hh hi).1

theorem toRq_addTwo {f g h : Poly Int32} (hf : AllCanonical f) (hg : AllCanonical g)
    (hh : AllCanonical h) : toRq (addTwo f g h) = toRq f + toRq g + toRq h := by
  have hsum := toRq_of_coeff (f := addTwo f g h) (g := addPoly f g) (h := h) (c := 1)
    fun i hi => by
      rw [(addTwo_coeff hf hg hh hi).2, (addPoly_coeff hf hg hi).2, one_mul]
  rwa [Polynomial.C_1, map_one, one_mul, toRq_addPoly hf hg] at hsum

/-- The ring element whose residues at the leaves are the coefficients of `f`. -/
noncomputable def transformed (f : Poly Int32) : Rq := toRq (nttInv f)

theorem transformed_ntt {f : Poly Int32} (hf : AllCanonical f) : transformed (ntt f) = toRq f := by
  rw [transformed, nttInv_ntt hf]

theorem transformed_multiply (h : Poly Int32) {f g : Poly Int32} (hf : AllCanonical f)
    (hg : AllCanonical g) :
    transformed (multiplyNtt h f g) = transformed f * transformed g := by
  have hprod := toRq_multiply h (nttInv_canonical hf) (nttInv_canonical hg)
  rwa [ntt_nttInv hf, ntt_nttInv hg] at hprod

theorem leaf_residue (w : Poly F) {b : Nat} (hb : b < 128) :
    X ^ 2 - C (codeTree.root 7 b) ∣
      residuePoly (nttInvWith residueOps w zetaTable) - blockPoly (coeff w) 2 b := by
  have h := ntt_residue (nttInvWith residueOps w zetaTable) hb
  rwa [ntt_nttInv_residue] at h

theorem transformed_residues {f : Poly Int32} (hf : AllCanonical f) :
    transformed f = AdjoinRoot.mk (negacyclic 256)
      (residuePoly (nttInvWith residueOps (residues f) zetaTable)) := by
  rw [transformed, toRq_residues, residues_nttInv hf]

theorem transformed_addPoly {f g : Poly Int32} (hf : AllCanonical f) (hg : AllCanonical g) :
    transformed (addPoly f g) = transformed f + transformed g := by
  rw [transformed_residues (addPoly_canonical hf hg), transformed_residues hf,
    transformed_residues hg, ← map_add, AdjoinRoot.mk_eq_mk, ← top_modulus]
  apply top_dvd codeTree two_ne_zero_residue
  intro b hb
  have hleaf : blockPoly (coeff (residues (addPoly f g))) 2 b =
      blockPoly (coeff (residues f)) 2 b + blockPoly (coeff (residues g)) 2 b := by
    have h0 := (addPoly_coeff hf hg (show 2 * b < 256 by omega)).2
    have h1 := (addPoly_coeff hf hg (show 2 * b + 1 < 256 by omega)).2
    simp only [blockPoly_pair, residues, coeff_map, h0, h1, C_add]
    ring
  have hsum := dvd_sub (leaf_residue (residues (addPoly f g)) hb)
    (dvd_add (leaf_residue (residues f) hb) (leaf_residue (residues g) hb))
  rw [hleaf] at hsum
  convert hsum using 1
  ring

theorem transformed_zeroPoly : transformed zeroPoly = 0 := by
  have h := transformed_addPoly zeroPoly_canonical zeroPoly_canonical
  have hsum : addPoly zeroPoly zeroPoly = zeroPoly := by
    refine residues_injective (addPoly_canonical zeroPoly_canonical zeroPoly_canonical)
      zeroPoly_canonical (poly_ext fun i hi => ?_)
    have hzero : (word (coeff zeroPoly i) : F) = 0 := by
      simp only [coeff, zeroPoly, Vector.getElem_replicate]
      rfl
    simp only [residues, coeff_map, (addPoly_coeff zeroPoly_canonical zeroPoly_canonical hi).2,
      hzero, add_zero]
  rw [hsum] at h
  exact (add_eq_left.mp h.symm)

theorem accumulateProducts_spec {k : Nat} {init : Poly Int32} (hinit : AllCanonical init)
    {a b : Fin k → Poly Int32} (ha : ∀ j, AllCanonical (a j)) (hb : ∀ j, AllCanonical (b j)) :
    AllCanonical (accumulateProducts init a b) ∧
      transformed (accumulateProducts init a b) =
        transformed init + ∑ j, transformed (a j) * transformed (b j) := by
  induction k with
  | zero =>
    simp only [accumulateProducts, Fin.foldl_zero, Finset.univ_eq_empty, Finset.sum_empty, add_zero]
    exact ⟨hinit, trivial⟩
  | succ k ih =>
    obtain ⟨hc, ht⟩ := ih (a := fun j => a j.castSucc) (b := fun j => b j.castSucc)
      (fun j => ha _) fun j => hb _
    have hm := multiplyNtt_canonical zeroPoly (ha (Fin.last k)) (hb (Fin.last k))
    have hlast : accumulateProducts init a b = addPoly
        (accumulateProducts init (fun j => a j.castSucc) fun j => b j.castSucc)
        (multiplyNtt zeroPoly (a (Fin.last k)) (b (Fin.last k))) := by
      simp only [accumulateProducts, Fin.foldl_succ_last]
    rw [hlast, Fin.sum_univ_castSucc, transformed_addPoly hc hm, ht,
      transformed_multiply zeroPoly (ha _) (hb _), add_assoc]
    exact ⟨addPoly_canonical hc hm, rfl⟩

theorem negacyclic_monic {n : Nat} (hn : n ≠ 0) : (negacyclic n).Monic := by
  rw [negacyclic, ← Polynomial.C_1]
  exact Polynomial.monic_X_pow_add_C 1 hn

noncomputable def rqCoeff (x : Rq) (i : Nat) : F :=
  (AdjoinRoot.modByMonicHom (negacyclic_monic (n := 256) (by norm_num)) x).coeff i

theorem rqCoeff_add (x y : Rq) (i : Nat) : rqCoeff (x + y) i = rqCoeff x i + rqCoeff y i := by
  simp only [rqCoeff, map_add, Polynomial.coeff_add]

theorem negacyclic_degree {n : Nat} (hn : 0 < n) : (negacyclic n).degree = n := by
  rw [negacyclic, ← Polynomial.C_1]
  exact Polynomial.degree_X_pow_add_C hn 1

theorem rqCoeff_toRq (f : Poly Int32) {i : Nat} (hi : i < 256) :
    rqCoeff (toRq f) i = word (coeff f i) := by
  have hdegree : (∑ k ∈ Finset.range 256, C (word (coeff f k) : F) * X ^ k).degree <
      (negacyclic 256).degree := by
    rw [negacyclic_degree (by norm_num)]
    refine (Polynomial.degree_sum_le _ _).trans_lt ((Finset.sup_lt_iff ?_).mpr fun k hk => ?_)
    · exact WithBot.bot_lt_coe _
    · exact (Polynomial.degree_C_mul_X_pow_le k _).trans_lt
        (by exact_mod_cast Finset.mem_range.mp hk)
  rw [rqCoeff, toRq, AdjoinRoot.modByMonicHom_mk,
    (Polynomial.modByMonic_eq_self_iff (negacyclic_monic (by norm_num))).mpr hdegree,
    Polynomial.finsetSum_coeff]
  simp only [Polynomial.coeff_C_mul_X_pow]
  rw [Finset.sum_ite_eq, if_pos (Finset.mem_range.mpr hi)]

end LiberaCrypt.MlKemRing
