import LiberaCrypt.ButterflyTree
import LiberaCrypt.MlKemNttRefine
import Mathlib.RingTheory.AdjoinRoot

namespace LiberaCrypt.MlKemNttRing

open LiberaCrypt.CountedLoop LiberaCrypt.ButterflyTree LiberaCrypt.MlKemReduce LiberaCrypt.MlKemNtt
  LiberaCrypt.MlKemNttLayers LiberaCrypt.MlKemNttRefine LiberaCrypt.MlKemNttRange
open Polynomial (C X C_1 C_add C_mul C_neg)
open scoped Polynomial

instance modulusPrime : Fact (Nat.Prime 3329) := ⟨by norm_num⟩

/-- The factor of block `b` in the forward layer with `2^i` blocks. -/
def layerZeta (i b : Nat) : Nat := word (zeta zetaTable (2 ^ i + b))

/-- The factor of block `b` in the inverse layer with `2^i` blocks. -/
def layerZetaInv (i b : Nat) : Nat := word (zeta zetaTable (2 ^ (i + 1) - 1 - b))

/-- The root of the modulus of block `b` after `i` layers; it starts from `X^256 + 1`. -/
def layerRoot : Nat → Nat → Nat
  | 0, _ => 3328
  | i + 1, b => if b % 2 = 0 then layerZeta i (b / 2) else 3329 - layerZeta i (b / 2)

set_option maxRecDepth 4000 in
theorem layerZeta_square :
    ∀ i < 7, ∀ b < 2 ^ i, layerZeta i b ^ 2 % 3329 = layerRoot i b := by
  decide +kernel

set_option maxRecDepth 4000 in
theorem layerZeta_cancel :
    ∀ i < 7, ∀ b < 2 ^ i, (layerZetaInv i b * layerZeta i b) % 3329 = 3328 := by
  decide +kernel

set_option maxRecDepth 4000 in
/-- The factors `multiply_NTT` loads are the roots at the leaves of the forward transform. -/
theorem leaf_root :
    ∀ i < 128, word (coeff zetaTable (2 * (mlkemBitReverse7 (UInt32.ofNat i)).toNat + 1)) =
      layerRoot 7 i := by
  decide +kernel

theorem cast_last : ((3328 : Nat) : F) = -1 := by decide

theorem layerZeta_lt (i b : Nat) : layerZeta i b < 3329 := zetaTable_canonical _

/-- The square roots of `-1` that the zeta table gives to the transforms. -/
def codeTree : FactorTree F 7 where
  factor i b := (layerZeta i b : F)
  root i b := (layerRoot i b : F)
  inverse i b := (layerZetaInv i b : F)
  square i hi b hb := by
    rw [← layerZeta_square i hi b hb, cast_mod, Nat.cast_pow]
  left i _ b _ := by
    rw [layerRoot, if_pos (Nat.mul_mod_right 2 b), Nat.mul_div_cancel_left b (by norm_num)]
  right i _ b _ := by
    rw [layerRoot, if_neg (by omega), show (2 * b + 1) / 2 = b by omega,
      Nat.cast_sub (layerZeta_lt i b).le]
    simp only [CharP.cast_eq_zero, zero_sub]
  cancel i hi b hb := by
    rw [← Nat.cast_mul, ← cast_mod, layerZeta_cancel i hi b hb, cast_last]

theorem iterate_up (s b : Nat) : (· + 1)^[b] s = s + b := by
  induction b with
  | zero => rfl
  | succ b ih => rw [Function.iterate_succ_apply', ih, Nat.add_assoc]

theorem iterate_down (s b : Nat) : (· - 1)^[b] s = s - b := by
  induction b with
  | zero => rfl
  | succ b ih => rw [Function.iterate_succ_apply', ih, Nat.sub_sub]

/-- The coefficients and the zeta counter after `i` layers of `NTT`. -/
def forwardState (f : Poly F) (i : Nat) : Poly F × Nat :=
  countUp i (fun layer =>
    butterflyLayer residueOps zetaTable (nttButterfly residueOps) (· + 1) (128 / 2 ^ layer)) (f, 1)

/-- The coefficients and the zeta counter after `i` layers of `NTT_inv`. -/
def backwardState (f : Poly F) (i : Nat) : Poly F × Nat :=
  countUp i (fun layer =>
    butterflyLayer residueOps zetaTable (nttInvButterfly residueOps) (· - 1) (2 * 2 ^ layer))
    (f, 127)

theorem forward_layer (s : Poly F × Nat) (len : Nat) (hlen : 0 < len) :
    Splits len (256 / (2 * len)) (fun b => (word (zeta zetaTable (s.2 + b)) : F)) (coeff s.1)
        (coeff (butterflyLayer residueOps zetaTable (nttButterfly residueOps) (· + 1) len s).1) ∧
      (butterflyLayer residueOps zetaTable (nttButterfly residueOps) (· + 1) len s).2 =
        s.2 + 256 / (2 * len) := by
  have h := layer_update residueOps zetaTable (· + 1)
    (fun z => nttButterfly_pair residueOps z hlen) s
  simp only [iterate_up] at h
  exact h

theorem backward_layer (s : Poly F × Nat) (len : Nat) (hlen : 0 < len) :
    Merges len (256 / (2 * len)) (fun b => (word (zeta zetaTable (s.2 - b)) : F)) (coeff s.1)
        (coeff (butterflyLayer residueOps zetaTable (nttInvButterfly residueOps) (· - 1) len s).1) ∧
      (butterflyLayer residueOps zetaTable (nttInvButterfly residueOps) (· - 1) len s).2 =
        s.2 - 256 / (2 * len) := by
  have h := layer_update residueOps zetaTable (· - 1)
    (fun z => nttInvButterfly_pair residueOps z hlen) s
  simp only [iterate_down] at h
  exact h

theorem layer_sizes : ∀ i < 7, 128 / 2 ^ i = 2 * 2 ^ (7 - 1 - i) ∧
    256 / (2 * (128 / 2 ^ i)) = 2 ^ i ∧ 256 / (2 * (2 * 2 ^ i)) = 2 ^ (7 - 1 - i) ∧
    2 ^ (7 - i) - 1 - 2 ^ (7 - 1 - i) = 2 ^ (7 - (i + 1)) - 1 := by decide

theorem forwardState_counter (f : Poly F) {i : Nat} (hi : i ≤ 7) :
    (forwardState f i).2 = 2 ^ i := by
  induction i with
  | zero => rfl
  | succ i ih =>
    obtain ⟨hlen, hcount, -, -⟩ := layer_sizes i hi
    have hstep := (forward_layer (forwardState f i) (128 / 2 ^ i)
      (by rw [hlen]; positivity)).2
    rw [ih (by omega), hcount, ← mul_two, ← pow_succ] at hstep
    exact hstep

theorem backwardState_counter (f : Poly F) {i : Nat} (hi : i ≤ 7) :
    (backwardState f i).2 = 2 ^ (7 - i) - 1 := by
  induction i with
  | zero => rfl
  | succ i ih =>
    obtain ⟨-, -, hcount, hnext⟩ := layer_sizes i hi
    have hstep := (backward_layer (backwardState f i) (2 * 2 ^ i) (by positivity)).2
    rw [ih (by omega), hcount, hnext] at hstep
    exact hstep

theorem forward_run (f : Poly F) : Forward codeTree 2 fun i => coeff (forwardState f i).1 := by
  intro i hi
  obtain ⟨hlen, hcount, -, -⟩ := layer_sizes i hi
  have h := (forward_layer (forwardState f i) (128 / 2 ^ i) (by rw [hlen]; positivity)).1
  rw [hcount, forwardState_counter f hi.le] at h
  rw [← hlen]
  exact h

theorem backward_run (f : Poly F) : Backward codeTree 2 fun i => coeff (backwardState f i).1 := by
  intro i hi
  obtain ⟨-, -, hcount, -⟩ := layer_sizes i hi
  have h := (backward_layer (backwardState f i) (2 * 2 ^ i) (by positivity)).1
  rw [hcount, backwardState_counter f hi.le] at h
  have hz : codeTree.inverse (7 - 1 - i) =
      fun b => (word (zeta zetaTable (2 ^ (7 - i) - 1 - b)) : F) := by
    funext b
    rw [show 7 - i = 7 - 1 - i + 1 by omega]
    rfl
  rw [hz]
  exact h

theorem scale_lit : residueOps.lit 3303 = (3303 : F) := by
  have hw : word 3303 = 3303 := by decide
  simp only [residueOps, hw, Nat.cast_ofNat]

theorem nttInv_scale (f : Poly F) :
    Scaled 256 3303 (coeff (nttInvWith residueOps f zetaTable)) (coeff (backwardState f 7).1) := by
  intro k hk
  rw [nttInvWith_coeff residueOps f zetaTable hk, scale_lit]
  exact mul_comm _ _

theorem scale_cancel : (3303 : F) * 2 ^ 7 = 1 := by
  have h : ((3303 * 2 ^ 7 : Nat) : F) = (1 : Nat) :=
    (ZMod.natCast_eq_natCast_iff' _ _ _).mpr (by norm_num)
  simpa only [Nat.cast_mul, Nat.cast_pow, Nat.cast_ofNat, Nat.cast_one] using h

theorem forwardState_zero (f : Poly F) : (forwardState f 0).1 = f := rfl

theorem forwardState_last (f : Poly F) : (forwardState f 7).1 = nttWith residueOps f zetaTable :=
  rfl

theorem backwardState_zero (f : Poly F) : (backwardState f 0).1 = f := rfl

theorem nttInv_ntt_residue (f : Poly F) :
    nttInvWith residueOps (nttWith residueOps f zetaTable) zetaTable = f := by
  have hstart : Scaled (2 * 2 ^ 7) 1 (coeff (backwardState (nttWith residueOps f zetaTable) 0).1)
      (coeff (forwardState f 7).1) := by
    intro k _
    rw [backwardState_zero, forwardState_last, one_mul]
  refine poly_ext fun k hk => ?_
  have hrun := backward_forward codeTree (by norm_num) (forward_run f)
    (backward_run (nttWith residueOps f zetaTable)) hstart k hk
  rw [nttInv_scale _ k hk, hrun, mul_one, ← mul_assoc, scale_cancel, one_mul, forwardState_zero]

theorem ntt_nttInv_residue (f : Poly F) :
    nttWith residueOps (nttInvWith residueOps f zetaTable) zetaTable = f := by
  refine poly_ext fun k hk => ?_
  have hrun := forward_backward codeTree (by norm_num)
    (forward_run (nttInvWith residueOps f zetaTable)) (backward_run f) (nttInv_scale f) k hk
  rwa [mul_comm (2 ^ 7 : F), scale_cancel, one_mul, forwardState_last, backwardState_zero] at hrun

noncomputable def negacyclic (n : Nat) : F[X] := X ^ n + 1

noncomputable abbrev Rq := AdjoinRoot (negacyclic 256)

noncomputable def residuePoly (f : Poly F) : F[X] := ∑ k ∈ Finset.range 256, C (coeff f k) * X ^ k

theorem residuePoly_block (f : Poly F) : residuePoly f = blockPoly (coeff f) (2 * 2 ^ 7) 0 := by
  simp only [residuePoly, blockPoly, Nat.zero_mul, Nat.zero_add]
  rfl

theorem blockPoly_pair (v : Nat → F) (b : Nat) :
    blockPoly v 2 b = C (v (2 * b)) + C (v (2 * b + 1)) * X := by
  simp only [blockPoly, Finset.sum_range_succ, Finset.sum_range_zero, mul_comm b 2, pow_zero,
    pow_one, mul_one, zero_add, add_zero]

/-- `multiply_NTT` multiplies the residues modulo `X^2 - root` of each leaf. -/
theorem leaf_multiply (h f g : Poly F) {b : Nat} (hb : b < 128) :
    X ^ 2 - C (codeTree.root 7 b) ∣
      blockPoly (coeff f) 2 b * blockPoly (coeff g) 2 b -
        blockPoly (coeff (multiplyNttWith residueOps h f g zetaTable)) 2 b := by
  obtain ⟨h0, h1⟩ := multiplyNttWith_coeff residueOps zetaTable h f g b hb
  have hroot : residueOps.lit (coeff zetaTable
      (2 * (mlkemBitReverse7 (UInt32.ofNat b)).toNat + 1)) = codeTree.root 7 b :=
    congrArg Nat.cast (leaf_root b hb)
  rw [pairProduct, hroot] at h0 h1
  refine ⟨C (coeff f (2 * b + 1)) * C (coeff g (2 * b + 1)), ?_⟩
  rw [blockPoly_pair, blockPoly_pair, blockPoly_pair, h0, h1]
  simp only [residueOps, C_add, C_mul]
  ring

theorem ntt_residue (f : Poly F) {b : Nat} (hb : b < 128) :
    X ^ 2 - C (codeTree.root 7 b) ∣
      residuePoly f - blockPoly (coeff (nttWith residueOps f zetaTable)) 2 b := by
  have h := forward_residue codeTree (forward_run f) (b := b) hb
  rwa [forwardState_zero, forwardState_last, ← residuePoly_block] at h

theorem two_ne_zero_residue : (2 : F) ≠ 0 := by decide

theorem top_root : codeTree.root 0 0 = -1 := by
  rw [← cast_last]
  rfl

theorem negacyclic_eq (n : Nat) : X ^ n - C (-1) = negacyclic n := by
  rw [C_neg, C_1, sub_neg_eq_add, negacyclic]

theorem top_modulus : X ^ (2 * 2 ^ 7) - C (codeTree.root 0 0) = negacyclic 256 := by
  rw [top_root, negacyclic_eq]
  norm_num

theorem multiply_residue (h f g : Poly F) :
    negacyclic 256 ∣ residuePoly f * residuePoly g -
      residuePoly (nttInvWith residueOps (multiplyNttWith residueOps h
        (nttWith residueOps f zetaTable) (nttWith residueOps g zetaTable) zetaTable) zetaTable) := by
  rw [← top_modulus]
  apply top_dvd codeTree two_ne_zero_residue
  intro b hb
  have hf := ntt_residue f hb
  have hg := ntt_residue g hb
  have hu := ntt_residue (nttInvWith residueOps (multiplyNttWith residueOps h
    (nttWith residueOps f zetaTable) (nttWith residueOps g zetaTable) zetaTable) zetaTable) hb
  rw [ntt_nttInv_residue] at hu
  have hm := leaf_multiply h (nttWith residueOps f zetaTable) (nttWith residueOps g zetaTable) hb
  have hsum := dvd_add (dvd_add (hf.mul_right (residuePoly g))
    (hg.mul_left (blockPoly (coeff (nttWith residueOps f zetaTable)) 2 b))) (dvd_sub hm hu)
  convert hsum using 1
  ring

def residues (f : Poly Int32) : Poly F := f.map fun c => (word c : F)

noncomputable def toRq (f : Poly Int32) : Rq :=
  AdjoinRoot.mk (negacyclic 256) (∑ k ∈ Finset.range 256, C (word (coeff f k) : F) * X ^ k)

theorem toRq_residues (f : Poly Int32) :
    toRq f = AdjoinRoot.mk (negacyclic 256) (residuePoly (residues f)) := by
  simp only [toRq, residuePoly, residues, coeff_map]

theorem represents_residues {f : Poly Int32} (hf : AllCanonical f) :
    PolyRel Represents f (residues f) :=
  polyRel_of_lt fun k hk => ⟨hf k hk, (coeff_map (fun c => (word c : F)) f k).symm⟩

theorem residues_of_represents {f : Poly Int32} {g : Poly F} (h : PolyRel Represents f g) :
    residues f = g :=
  poly_ext fun k _ => (coeff_map _ f k).trans (h k).2

theorem residues_injective {f g : Poly Int32} (hf : AllCanonical f) (hg : AllCanonical g)
    (h : residues f = residues g) : f = g := by
  refine poly_ext fun k hk => word_injective ?_
  have hc := congrArg (fun p => coeff p k) h
  simp only [residues, coeff_map] at hc
  have hw := (ZMod.natCast_eq_natCast_iff' _ _ _).mp hc
  rwa [Nat.mod_eq_of_lt (hf k hk), Nat.mod_eq_of_lt (hg k hk)] at hw

theorem residues_ntt {f : Poly Int32} (hf : AllCanonical f) :
    residues (ntt f) = nttWith residueOps (residues f) zetaTable :=
  residues_of_represents
    (nttWith_rel code_represents zetaTable_canonical (represents_residues hf))

theorem residues_nttInv {f : Poly Int32} (hf : AllCanonical f) :
    residues (nttInv f) = nttInvWith residueOps (residues f) zetaTable :=
  residues_of_represents
    (nttInvWith_rel code_represents zetaTable_canonical (represents_residues hf))

theorem residues_multiplyNtt (h : Poly Int32) {f g : Poly Int32} (hf : AllCanonical f)
    (hg : AllCanonical g) :
    residues (multiplyNtt h f g) =
      multiplyNttWith residueOps (residues h) (residues f) (residues g) zetaTable :=
  residues_of_represents (multiplyNttWith_rel code_represents zetaTable_canonical h _
    (represents_residues hf) (represents_residues hg))

theorem ntt_canonical {f : Poly Int32} (hf : AllCanonical f) : AllCanonical (ntt f) :=
  (ntt_delivers hf).2

theorem nttInv_canonical {f : Poly Int32} (hf : AllCanonical f) : AllCanonical (nttInv f) :=
  (nttInv_delivers hf).2

theorem multiplyNtt_canonical (h : Poly Int32) {f g : Poly Int32} (hf : AllCanonical f)
    (hg : AllCanonical g) : AllCanonical (multiplyNtt h f g) :=
  (multiplyNtt_delivers h hf hg).2

theorem nttInv_ntt {f : Poly Int32} (hf : AllCanonical f) : nttInv (ntt f) = f := by
  refine residues_injective (nttInv_canonical (ntt_canonical hf)) hf ?_
  rw [residues_nttInv (ntt_canonical hf), residues_ntt hf, nttInv_ntt_residue]

theorem ntt_nttInv {f : Poly Int32} (hf : AllCanonical f) : ntt (nttInv f) = f := by
  refine residues_injective (ntt_canonical (nttInv_canonical hf)) hf ?_
  rw [residues_ntt (nttInv_canonical hf), residues_nttInv hf, ntt_nttInv_residue]

theorem toRq_multiply (h : Poly Int32) {f g : Poly Int32} (hf : AllCanonical f)
    (hg : AllCanonical g) :
    toRq (nttInv (multiplyNtt h (ntt f) (ntt g))) = toRq f * toRq g := by
  have hf' := ntt_canonical hf
  have hg' := ntt_canonical hg
  rw [toRq_residues, toRq_residues, toRq_residues, ← map_mul,
    residues_nttInv (multiplyNtt_canonical h hf' hg'), residues_multiplyNtt h hf' hg',
    residues_ntt hf, residues_ntt hg]
  exact (AdjoinRoot.mk_eq_mk.mpr (multiply_residue _ _ _)).symm

/-- The two transforms are inverse to each other, the pointwise product between them is
the product in `Z_q[X]/(X^256 + 1)`, and no call leaves the range of its words. -/
theorem ntt_correct {f g : Poly Int32} (hf : AllCanonical f) (hg : AllCanonical g)
    (h : Poly Int32) :
    nttInv (ntt f) = f ∧ ntt (nttInv f) = f ∧
      toRq (nttInv (multiplyNtt h (ntt f) (ntt g))) = toRq f * toRq g ∧
      Delivers (nttWith checkedOps (f.map some) zetaTable) (ntt f) ∧
      Delivers (nttInvWith checkedOps ((ntt f).map some) zetaTable) (nttInv (ntt f)) ∧
      Delivers (nttInvWith checkedOps (f.map some) zetaTable) (nttInv f) ∧
      Delivers (nttWith checkedOps ((nttInv f).map some) zetaTable) (ntt (nttInv f)) ∧
      Delivers (nttWith checkedOps (g.map some) zetaTable) (ntt g) ∧
      Delivers (multiplyNttWith checkedOps (h.map some) ((ntt f).map some) ((ntt g).map some)
        zetaTable) (multiplyNtt h (ntt f) (ntt g)) ∧
      Delivers (nttInvWith checkedOps ((multiplyNtt h (ntt f) (ntt g)).map some) zetaTable)
        (nttInv (multiplyNtt h (ntt f) (ntt g))) := by
  have hf' := ntt_canonical hf
  have hg' := ntt_canonical hg
  exact ⟨nttInv_ntt hf, ntt_nttInv hf, toRq_multiply h hf hg, ntt_delivers hf,
    nttInv_delivers hf', nttInv_delivers hf, ntt_delivers (nttInv_canonical hf), ntt_delivers hg,
    multiplyNtt_delivers h hf' hg', nttInv_delivers (multiplyNtt_canonical h hf' hg')⟩

theorem allCanonical_replicate {c : Int32} (hc : Canonical c) :
    AllCanonical (Vector.replicate 256 c) := by
  intro k hk
  rwa [coeff, Vector.getElem_replicate]

theorem ntt_correct_last :
    nttInv (ntt (Vector.replicate 256 3328)) = Vector.replicate 256 3328 :=
  (ntt_correct (allCanonical_replicate (c := 3328) (by decide))
    (allCanonical_replicate (c := 1) (by decide)) (Vector.replicate 256 0)).1

end LiberaCrypt.MlKemNttRing
