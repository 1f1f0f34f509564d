import LiberaCrypt.SlhDsaApi

namespace LiberaCrypt.SlhWots

open LiberaCrypt.CountedLoop LiberaCrypt.Endian LiberaCrypt.SlhDsa LiberaCrypt.SlhDsaApi
open LiberaCrypt.SlhTrees

/-- The sum of what the digits lack grows when one of them shrinks and none grows. -/
theorem complement_sum_lt {w : Nat} {xs ys : List Nat} (h : List.Forall₂ (fun x y => y ≤ x) xs ys)
    (hbound : ∀ x ∈ xs, x ≤ w) (hne : xs ≠ ys) :
    (xs.map fun x => w - x).sum < (ys.map fun y => w - y).sum := by
  induction h with
  | nil => exact absurd rfl hne
  | @cons x y xs ys hxy htail ih =>
    have hx := hbound x List.mem_cons_self
    have hrest : ∀ x ∈ xs, x ≤ w := fun x hx => hbound x (List.mem_cons_of_mem _ hx)
    have hle : (xs.map fun x => w - x).sum ≤ (ys.map fun y => w - y).sum := by
      rcases eq_or_ne xs ys with rfl | hdiffer
      · exact le_refl _
      · exact (ih hrest hdiffer).le
    rw [List.map_cons, List.map_cons, List.sum_cons, List.sum_cons]
    rcases eq_or_ne x y with rfl | hdiffer
    · have htails : xs ≠ ys := fun heq => hne (by rw [heq])
      have hlt := ih hrest htails
      omega
    · omega

def nibbles (x : UInt8) : List Nat := [x.toNat / 16, x.toNat % 16]

theorem nibbles_injective {x y : UInt8} (h : nibbles x = nibbles y) : x = y := by
  simp only [nibbles, List.cons.injEq, and_true] at h
  apply UInt8.toNat_inj.mp
  omega

theorem flatMap_nibbles_injective {xs ys : List UInt8} (hlength : xs.length = ys.length)
    (h : xs.flatMap nibbles = ys.flatMap nibbles) : xs = ys := by
  induction xs generalizing ys with
  | nil => exact (List.length_eq_zero_iff.mp hlength.symm).symm
  | cons x xs ih =>
    cases ys with
    | nil => exact absurd hlength (Nat.succ_ne_zero _)
    | cons y ys =>
      rw [List.flatMap_cons, List.flatMap_cons] at h
      obtain ⟨hfirst, hrest⟩ := List.append_inj h rfl
      rw [nibbles_injective hfirst, ih (Nat.succ.inj hlength) hrest]

theorem mask_toNat (t : UInt32) : (t &&& ((1 <<< UInt32.ofNat 4) - 1)).toNat = t.toNat % 16 := by
  have hmask : ((1 : UInt32) <<< UInt32.ofNat 4 - 1).toNat = 2 ^ 4 - 1 := toNat_mask32 (by decide)
  rw [UInt32.toNat_and, hmask, Nat.and_two_pow_sub_one_eq_mod]

theorem refilled_toNat (t : UInt32) (x : UInt8) :
    ((t <<< 8) + x.toUInt32).toNat % 256 = x.toNat := by
  have hx := x.toNat_lt
  rw [UInt32.toNat_add, UInt8.toNat_toUInt32, UInt32.toNat_shiftLeft]
  change ((t.toNat <<< 8) % 2 ^ 32 + x.toNat) % 2 ^ 32 % 256 = _
  rw [Nat.shiftLeft_eq]
  omega

theorem base2bStep_high (x : List UInt8) (j : Nat) (t : UInt32) : base2bStep x 4 ⟨j, 0, t⟩ =
    ((((t <<< 8) + (x.getD j 0).toUInt32) >>> UInt32.ofNat 4) &&& ((1 <<< UInt32.ofNat 4) - 1),
      ⟨j + 1, 4, (t <<< 8) + (x.getD j 0).toUInt32⟩) := by
  simp [base2bStep, refill, countUp]

theorem base2bStep_low (x : List UInt8) (j : Nat) (t : UInt32) : base2bStep x 4 ⟨j, 4, t⟩ =
    ((t >>> UInt32.ofNat 0) &&& ((1 <<< UInt32.ofNat 4) - 1), ⟨j, 0, t⟩) := by
  simp [base2bStep, refill]

theorem base2bLoop_byte (x : List UInt8) (n j : Nat) (t : UInt32) :
    ∃ t', (base2bLoop x 4 (n + 2) ⟨j, 0, t⟩).map UInt32.toNat =
      nibbles (x.getD j 0) ++ (base2bLoop x 4 n ⟨j + 1, 0, t'⟩).map UInt32.toNat := by
  let t' := (t <<< 8) + (x.getD j 0).toUInt32
  have hbyte : t'.toNat % 256 = (x.getD j 0).toNat := refilled_toNat t _
  have hhigh : ((t' >>> UInt32.ofNat 4) &&& ((1 <<< UInt32.ofNat 4) - 1)).toNat =
      (x.getD j 0).toNat / 16 := by
    rw [mask_toNat, UInt32.toNat_shiftRight]
    change t'.toNat >>> 4 % 16 = _
    rw [Nat.shiftRight_eq_div_pow]
    omega
  have hlow : ((t' >>> UInt32.ofNat 0) &&& ((1 <<< UInt32.ofNat 4) - 1)).toNat =
      (x.getD j 0).toNat % 16 := by
    rw [mask_toNat, UInt32.toNat_shiftRight]
    change t'.toNat >>> 0 % 16 = _
    rw [Nat.shiftRight_zero]
    omega
  refine ⟨t', ?_⟩
  rw [base2bLoop, base2bLoop, base2bStep_high, base2bStep_low, List.map_cons, List.map_cons, hhigh,
    hlow]
  rfl

theorem base2b_nibbles (x : List UInt8) : base2b x 4 (2 * x.length) = x.flatMap nibbles := by
  have hloop : ∀ (before rest : List UInt8) (t : UInt32), (base2bLoop (before ++ rest) 4
      (2 * rest.length) ⟨before.length, 0, t⟩).map UInt32.toNat = rest.flatMap nibbles := by
    intro before rest
    induction rest generalizing before with
    | nil => exact fun _ => rfl
    | cons y rest ih =>
      intro t
      obtain ⟨t', hbyte⟩ := base2bLoop_byte (before ++ y :: rest) (2 * rest.length) before.length t
      have hfirst : (before ++ y :: rest).getD before.length 0 = y := by simp
      have hnext := ih (before ++ [y]) t'
      rw [List.append_assoc, List.length_append] at hnext
      rw [List.length_cons, Nat.mul_succ, hbyte, hfirst, List.flatMap_cons]
      exact congrArg _ hnext
  exact hloop [] x 0

theorem checksum_digits {csum : Nat} (h : csum < 4096) :
    base2b (bigEndian 2 (csum <<< 4)) 4 3 = [csum / 256, csum / 16 % 16, csum % 16] := by
  have hwidth4 : base2b (bigEndian 2 (csum <<< 4)) 4 3 =
      (base2b (bigEndian 2 (csum <<< 4)) 4 (2 * 2)).take 3 := rfl
  have hbytes := base2b_nibbles (bigEndian 2 (csum <<< 4))
  rw [bigEndian_length] at hbytes
  have hshift : csum <<< 4 = 16 * csum := by
    rw [Nat.shiftLeft_eq, Nat.mul_comm]
  have hvalue : (bigEndian 2 (csum <<< 4)).flatMap nibbles =
      [csum / 256, csum / 16 % 16, csum % 16, 0] := by
    simp only [bigEndian, List.nil_append, List.flatMap_cons,
      List.flatMap_nil, nibbles, UInt8.toNat_ofNat', List.append_nil, List.cons_append, hshift]
    simp only [List.cons.injEq, and_true]
    omega
  rw [hwidth4, hbytes, hvalue]
  rfl

section Wots

variable {p : Primitives} {alg : SlhDsaAlgID} {prm : SlhParam} {fn : SlhFunctions}
  {m m' : List UInt8}

theorem slhDsaParameters_digits (halg : slhDsaParameters p alg = some (prm, fn)) :
    prm.lgW = 4 ∧ 9 ≤ prm.n ∧ prm.n ≤ 136 := by
  cases alg with
  | other => cases halg
  | _ =>
    cases halg
    decide

def checksum (m : List UInt8) : Nat := ((m.flatMap nibbles).map fun v => 15 - v).sum

theorem nibbles_le (m : List UInt8) : ∀ v ∈ m.flatMap nibbles, v ≤ 15 := by
  intro v hv
  obtain ⟨x, -, hx⟩ := List.mem_flatMap.mp hv
  have hlt := x.toNat_lt
  simp only [nibbles, List.mem_cons, List.not_mem_nil, or_false] at hx
  omega

theorem nibbles_length (m : List UInt8) : (m.flatMap nibbles).length = 2 * m.length := by
  have hbyte : ∀ x ∈ m, (nibbles x).length = 2 := fun _ _ => rfl
  rw [List.length_flatMap, List.map_congr_left hbyte, List.map_const', List.sum_replicate,
    smul_eq_mul, Nat.mul_comm]

theorem checksum_le (m : List UInt8) : checksum m ≤ 30 * m.length := by
  have hsum : checksum m ≤ (m.flatMap nibbles).length * 15 := by
    unfold checksum
    rw [← List.length_map (fun v => 15 - v), ← smul_eq_mul]
    apply List.sum_le_card_nsmul
    intro v hv
    obtain ⟨w, -, rfl⟩ := List.mem_map.mp hv
    exact Nat.sub_le _ _
  rw [nibbles_length] at hsum
  omega

theorem wotsCsum_eq (hw : prm.lgW = 4) (hlow : 9 ≤ prm.n) (hhigh : prm.n ≤ 136)
    (hm : m.length = prm.n) : wotsCsum m prm = m.flatMap nibbles ++
      [checksum m / 256, checksum m / 16 % 16, checksum m % 16] := by
  have hlen1 : getLen1 prm = 2 * m.length := by
    unfold getLen1
    rw [hw, hm]
    omega
  have hlen2 : genLen2 prm = 3 := if_pos ⟨hw, hlow, hhigh⟩
  have hsum : (m.flatMap nibbles).foldl (fun csum v => csum + ((1 <<< 4) - 1 - v)) 0 =
      checksum m := by
    unfold checksum
    rw [List.sum_eq_foldl, List.foldl_map]
    rfl
  have hbound : checksum m < 4096 := by
    have hle := checksum_le m
    omega
  unfold wotsCsum
  dsimp only
  rw [hw, hlen1, hlen2, base2b_nibbles, hsum]
  exact congrArg _ (checksum_digits hbound)

/-- Of two messages neither has digits that are all at least those of the other, so that no
signature leads to one of the other message by hashing on. -/
theorem wots_digits_incomparable (halg : slhDsaParameters p alg = some (prm, fn))
    (hm : m.length = prm.n) (hm' : m'.length = prm.n) (hne : m ≠ m') :
    ∃ i < getLen prm, (wotsCsum m prm).getD i 0 < (wotsCsum m' prm).getD i 0 := by
  obtain ⟨hw, hlow, hhigh⟩ := slhDsaParameters_digits halg
  by_contra hnone
  push Not at hnone
  have hdigits := @wotsCsum_eq prm m hw hlow hhigh hm
  have hdigits' := @wotsCsum_eq prm m' hw hlow hhigh hm'
  have hlength : (m.flatMap nibbles).length = 2 * prm.n := by rw [nibbles_length, hm]
  have hlength' : (m'.flatMap nibbles).length = 2 * prm.n := by rw [nibbles_length, hm']
  have hcount : getLen prm = 2 * prm.n + 3 := by
    unfold getLen getLen1 genLen2
    rw [if_pos ⟨hw, hlow, hhigh⟩, hw]
    omega
  have hmessage : List.Forall₂ (fun x y => y ≤ x) (m.flatMap nibbles) (m'.flatMap nibbles) := by
    apply List.forall₂_iff_get.mpr
    refine ⟨hlength.trans hlength'.symm, fun i hi hi' => ?_⟩
    have hle := hnone i (by omega)
    rw [hdigits, hdigits', List.getD_append _ _ _ _ hi, List.getD_append _ _ _ _ hi',
      List.getD_eq_getElem _ _ hi, List.getD_eq_getElem _ _ hi'] at hle
    exact hle
  have hlt : checksum m < checksum m' := by
    refine complement_sum_lt hmessage (nibbles_le m) fun heq => hne ?_
    exact flatMap_nibbles_injective (hm.trans hm'.symm) heq
  -- the digits of the larger checksum are not all as small
  have hchecksum : ∀ k < 3, [checksum m' / 256, checksum m' / 16 % 16, checksum m' % 16].getD k 0 ≤
      [checksum m / 256, checksum m / 16 % 16, checksum m % 16].getD k 0 := by
    intro k hk
    have hle := hnone (2 * prm.n + k) (by omega)
    rw [hdigits, hdigits', List.getD_append_right _ _ _ _ (by omega),
      List.getD_append_right _ _ _ _ (by omega), hlength, hlength', Nat.add_sub_cancel_left] at hle
    exact hle
  have hhighest := hchecksum 0 (by decide)
  have hmiddle := hchecksum 1 (by decide)
  have hlowest := hchecksum 2 (by decide)
  simp only [List.getD_cons_zero, List.getD_cons_succ] at hhighest hmiddle hlowest
  omega

theorem wots_digits_incomparable_sample : ∃ i < getLen param128s,
    (wotsCsum (List.replicate 16 7) param128s).getD i 0 <
      (wotsCsum (List.replicate 16 6) param128s).getD i 0 :=
  @wots_digits_incomparable constantPrimitives .sha2_128s param128s _ _ _ rfl
    (List.length_replicate ..) (List.length_replicate ..) (by decide)

end Wots

end LiberaCrypt.SlhWots
