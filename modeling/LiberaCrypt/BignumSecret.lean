import LiberaCrypt.ModExpSecure
import LiberaCrypt.ModExp

namespace LiberaCrypt.BignumSecret

open LiberaCrypt.Outcome LiberaCrypt.Allocation LiberaCrypt.Limbs LiberaCrypt.Bignum
open LiberaCrypt.BignumAdd LiberaCrypt.BignumMul LiberaCrypt.BignumMod LiberaCrypt.ModExp
open LiberaCrypt.ModExpSecure

def cryptoBignumCopySecretFixed (a : LiberaCBignum) (fixedLimbs : Nat) : Fallible LiberaCBignum :=
  if fixedLimbs < a.length then throw .invalidArgument
  else do
    let tmp ← reported (bignumReserve cryptoBignumInit fixedLimbs) .allocationFailed
    let limbs := storeWords tmp.limbs (List.replicate fixedLimbs 0)
    pure ⟨storeWords limbs a.words, a.length⟩

def cryptoBignumCopySecretFixedCt (a : LiberaCBignum) (fixedLimbs : Nat) :
    Fallible LiberaCBignum :=
  if a.capacity < fixedLimbs then throw .invalidArgument
  else bignumCtStoreFixed (a.limbs.take fixedLimbs) fixedLimbs

def cryptoBignumSubSecretFixed (a b : LiberaCBignum) (fixedLimbs : Nat) :
    Fallible LiberaCBignum :=
  if a.capacity < fixedLimbs ∨ b.capacity < fixedLimbs then throw .invalidArgument
  else do
    let tmp ← reported (bignumReserve cryptoBignumInit fixedLimbs) .allocationFailed
    let row := subRow fixedLimbs (a.limbs.take fixedLimbs) (b.limbs.take fixedLimbs) 0
    if row.2 ≠ 0 then throw .arithmetic
    else pure ⟨storeWords tmp.limbs row.1, (fixedLength row.1 fixedLimbs).toNat⟩

def cryptoBignumModMul (out a b modulus : LiberaCBignum) : Fallible LiberaCBignum :=
  if modulus.length = 0 then throw .invalidArgument
  else do
    let product ← cryptoBignumMul cryptoBignumInit a b false
    cryptoBignumMod out product modulus

variable {a b out modulus : LiberaCBignum} {n room : Nat}

/-- A valid bignum whose storage a reader of `n` limbs may scan. -/
structure Fixed (n : Nat) (a : LiberaCBignum) (x : Nat) : Prop where
  valid : a.Valid
  value : a.value = x
  storage : n ≤ a.capacity

theorem bignumReserve_init (h : 4 * n ≤ room) :
    Ensures room (bignumReserve cryptoBignumInit n) fun tmp =>
      tmp.limbs = List.replicate n 0 ∧ n < 2 ^ 64 := by
  unfold bignumReserve
  by_cases hle : n ≤ cryptoBignumInit.capacity
  · have hzero : n = 0 := Nat.le_zero.mp hle
    rw [if_pos hle, hzero]
    exact Ensures.pure ⟨rfl, by decide⟩
  rw [if_neg hle]
  by_cases hbig : sizeMax / 4 < n
  · apply Ensures.guard
    · intro hroom
      omega
    · exact fun hsmall => absurd hbig hsmall
  rw [if_neg hbig]
  apply (Ensures.allocate h).bind
  intro _ _
  apply Ensures.pure
  refine ⟨rfl, ?_⟩
  simp only [sizeMax] at hbig
  omega

/-- Storage that a fixed-width result fills, with the length found by the masked scan. -/
theorem filled {w : List UInt32} (hw : w.length = n) (hn : n < 2 ^ 64) :
    Fixed n ⟨storeWords (List.replicate n 0) w, (fixedLength w n).toNat⟩ (wordsValue w) := by
  have hnormal := padded_normalize w 0
  have hstore : storeWords (List.replicate n (0 : UInt32)) w = w := by
    rw [storeWords, hw, List.drop_replicate, Nat.sub_self]
    exact List.append_nil w
  rw [List.replicate_zero, List.append_nil, bignumNormalize, hw] at hnormal
  rw [hstore, fixedLength_eq hn]
  exact ⟨hnormal.1, hnormal.2, hw.ge⟩

theorem cryptoBignumCopySecretFixed_ensures (ha : a.Valid) (hlength : a.length ≤ n)
    (h : 4 * n ≤ room) :
    Ensures room (cryptoBignumCopySecretFixed a n) fun r => Fixed n r a.value := by
  unfold cryptoBignumCopySecretFixed
  rw [if_neg (not_lt.mpr hlength)]
  apply (Ensures.reported (bignumReserve_init h)).bind
  rintro tmp ⟨hlimbs, -⟩
  apply Ensures.pure
  have hwords := ha.words_length
  have hclear : storeWords tmp.limbs (List.replicate n 0) = List.replicate n 0 := by
    rw [hlimbs, storeWords, List.length_replicate, List.drop_replicate, Nat.sub_self]
    exact List.append_nil _
  have hvalid := padded_valid (w := a.words) (n - a.length) ha.words_top
  have hvalue := padded_value (w := a.words) (n - a.length)
  rw [hwords] at hvalid hvalue
  rw [hclear, storeWords, List.drop_replicate, hwords]
  refine ⟨hvalid, hvalue, ?_⟩
  simp only [LiberaCBignum.capacity, List.length_append, List.length_replicate, hwords]
  omega

theorem taken (ha : a.Valid) (hlength : a.length ≤ n) (hcapacity : n ≤ a.capacity) :
    (a.limbs.take n).length = n ∧ wordsValue (a.limbs.take n) = a.value := by
  refine ⟨?_, ha.value_take hlength⟩
  rw [List.length_take]
  exact Nat.min_eq_left hcapacity

theorem cryptoBignumCopySecretFixedCt_ensures (ha : a.Valid) (hlength : a.length ≤ n)
    (hcapacity : n ≤ a.capacity) (h : 4 * n ≤ room) :
    Ensures room (cryptoBignumCopySecretFixedCt a n) fun r => Fixed n r a.value := by
  unfold cryptoBignumCopySecretFixedCt bignumCtStoreFixed
  rw [if_neg (not_lt.mpr hcapacity)]
  obtain ⟨hw, hvalue⟩ := taken ha hlength hcapacity
  apply (Ensures.reported (bignumReserve_init h)).bind
  rintro tmp ⟨hlimbs, hn⟩
  rw [hlimbs, ← hvalue]
  exact Ensures.pure (filled hw hn)

theorem cryptoBignumSubSecretFixed_ensures (ha : a.Valid) (hb : b.Valid)
    (hle : b.value ≤ a.value) (hlength : a.length ≤ n) (hca : n ≤ a.capacity)
    (hcb : n ≤ b.capacity) (h : 4 * n ≤ room) :
    Ensures room (cryptoBignumSubSecretFixed a b n) fun r => Fixed n r (a.value - b.value) := by
  unfold cryptoBignumSubSecretFixed
  rw [if_neg (by simp [hca, hcb])]
  obtain ⟨hwa, hva⟩ := taken ha hlength hca
  obtain ⟨hwb, hvb⟩ := taken hb ((hb.length_le_of_value hle).trans hlength) hcb
  have hvalue := subRow_value hwa.le hwb.le zero_carry
  have hborrow := subRow_borrow (n := n) (a := a.limbs.take n) (b := b.limbs.take n) zero_carry
  have hrow : (subRow n (a.limbs.take n) (b.limbs.take n) 0).1.length = n := subRow_length
  have hlt := wordsValue_lt (subRow n (a.limbs.take n) (b.limbs.take n) 0).1
  rw [hrow] at hlt
  rw [hva, hvb, UInt64.toNat_zero, Nat.add_zero] at hvalue
  generalize subRow n (a.limbs.take n) (b.limbs.take n) 0 = row at *
  -- the difference is not negative, so no borrow is left
  have hzero : row.2.toNat = 0 := by
    by_contra hne
    have hone : row.2.toNat = 1 := by omega
    rw [hone] at hvalue
    omega
  have hnone : row.2 = 0 := UInt64.toNat_inj.mp hzero
  rw [hzero, Nat.mul_zero] at hvalue
  have hdiff : wordsValue row.1 = a.value - b.value := by omega
  apply (Ensures.reported (bignumReserve_init h)).bind
  rintro tmp ⟨hlimbs, hn⟩
  dsimp only
  rw [if_neg (not_not.mpr hnone), hlimbs, ← hdiff]
  exact Ensures.pure (filled hrow hn)

theorem cryptoBignumModMul_ensures (hout : out.Valid) (ha : a.Valid)
    (hale : a.value ≤ modulus.value) (hb : b.Valid) (hble : b.value ≤ modulus.value)
    (hm : modulus.Valid) (hpos : modulus.value ≠ 0) (h : 4 * (3 * modulus.length + 1) ≤ room) :
    Ensures room (cryptoBignumModMul out a b modulus) fun r =>
      r.Valid ∧ r.value = a.value * b.value % modulus.value := by
  have hlength : modulus.length ≠ 0 := fun h0 => hpos (hm.length_eq_zero.mp h0)
  unfold cryptoBignumModMul
  rw [if_neg hlength]
  exact mulMod_ensures hm hpos ha hale hb hble hout h

end LiberaCrypt.BignumSecret
