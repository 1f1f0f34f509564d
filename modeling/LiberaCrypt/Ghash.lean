import LiberaCrypt.AesAead
import LiberaCrypt.BlockXor
import LiberaCrypt.GcmField

namespace LiberaCrypt.Ghash

open LiberaCrypt.AesAead LiberaCrypt.BigEndian LiberaCrypt.BlockXor LiberaCrypt.CountedLoop
open LiberaCrypt.GcmField LiberaCrypt.ReflectedBits

theorem xorBlock_eq {a b : List UInt8} (ha : a.length = 16) (hb : b.length = 16) :
    xorBlock a b = xorBlocks a b := by
  apply List.ext_getElem
  · simp [ha, hb]
  · intro i hi hi'
    have h16 : i < 16 := by rwa [xorBlock_length] at hi
    simp only [xorBlock, xorBlocks, List.getElem_map, List.getElem_range, List.getElem_zipWith]
    rw [List.getD_eq_getElem _ _ (by omega), List.getD_eq_getElem _ _ (by omega)]

theorem beValue_xorBlock {a b : List UInt8} (ha : a.length = 16) (hb : b.length = 16) :
    beValue (xorBlock a b) = beValue a ^^^ beValue b := by
  rw [xorBlock_eq ha hb, beValue_xorBlocks (ha.trans hb.symm)]

theorem beValue_block_lt {b : List UInt8} (hb : b.length = 16) : beValue b < 2 ^ 128 := by
  have hlt := beValue_lt b
  rwa [hb, ← two_pow_bytes] at hlt

@[simp] theorem gcmShiftRightOne_length (carry : UInt8) (v : List UInt8) :
    (gcmShiftRightOne carry v).length = v.length := by
  induction v generalizing carry with
  | nil => rfl
  | cons x v ih => rw [gcmShiftRightOne, List.length_cons, ih, List.length_cons]

theorem carried_toNat (x carry : UInt8) (hcarry : carry.toNat < 2) :
    ((x >>> 1) ||| (carry <<< 7)).toNat = (x.toNat + 256 * carry.toNat) / 2 := by
  have hx := x.toNat_lt
  have hlow : (x >>> 1).toNat = x.toNat / 2 := by
    rw [UInt8.toNat_shiftRight, Nat.shiftRight_eq_div_pow]
    rfl
  have hhigh : (carry <<< 7).toNat = 2 ^ 7 * carry.toNat := by
    rw [UInt8.toNat_shiftLeft, Nat.shiftLeft_eq]
    change carry.toNat * 2 ^ 7 % 2 ^ 8 = _
    omega
  rw [UInt8.toNat_or, hlow, hhigh, Nat.or_comm, ← Nat.two_pow_add_eq_or_of_lt (by omega)]
  omega

/-- A shift by one place, with the bit that comes in at the top. -/
theorem gcmShiftRightOne_value (carry : UInt8) (hcarry : carry.toNat < 2) (v : List UInt8) :
    beValue (gcmShiftRightOne carry v) = (beValue v + 256 ^ v.length * carry.toNat) / 2 := by
  induction v generalizing carry with
  | nil =>
    change 0 = (0 + 256 ^ 0 * carry.toNat) / 2
    omega
  | cons x v ih =>
    have hlow : (x &&& 1).toNat = x.toNat % 2 := by
      rw [UInt8.toNat_and]
      exact Nat.and_one_is_mod _
    have hbyte := carried_toNat x carry hcarry
    have hsum : x.toNat + 256 * carry.toNat =
        2 * ((x.toNat + 256 * carry.toNat) / 2) + x.toNat % 2 := by omega
    rw [gcmShiftRightOne, beValue_cons, gcmShiftRightOne_length,
      ih _ (by rw [hlow]; omega), hbyte, hlow, beValue_cons, List.length_cons]
    calc 256 ^ v.length * ((x.toNat + 256 * carry.toNat) / 2) +
          (beValue v + 256 ^ v.length * (x.toNat % 2)) / 2
        = (beValue v + 256 ^ v.length * (x.toNat % 2) +
            2 * (256 ^ v.length * ((x.toNat + 256 * carry.toNat) / 2))) / 2 := by
          rw [Nat.add_mul_div_left _ _ (by decide), Nat.add_comm]
      _ = (beValue v + 256 ^ v.length * (2 * ((x.toNat + 256 * carry.toNat) / 2) +
            x.toNat % 2)) / 2 := by
          congr 1
          ring
      _ = (256 ^ v.length * x.toNat + beValue v + 256 ^ (v.length + 1) * carry.toNat) / 2 := by
          rw [← hsum]
          congr 1
          ring

theorem bit_byte (bytes : List UInt8) {i j : Nat} (hi : i < bytes.length) (hj : j < 8) :
    ((bytes.getD i 0 >>> UInt8.ofNat j) &&& 1).toNat =
      ((beValue bytes).testBit (8 * (bytes.length - 1 - i) + j)).toNat := by
  have hshift : (UInt8.ofNat j).toNat % 8 = j := by
    rw [UInt8.toNat_ofNat_of_lt' (by rw [UInt8.size]; omega), Nat.mod_eq_of_lt hj]
  rw [beValue_testBit hi hj, Nat.toNat_testBit, UInt8.toNat_and, UInt8.toNat_shiftRight, hshift,
    Nat.shiftRight_eq_div_pow]
  exact Nat.and_one_is_mod _

theorem masked_value {c : UInt8} {b : Bool} (hc : c.toNat = b.toNat) :
    0 - c = if b then 0xff else 0 := by
  cases b with
  | false =>
    have hzero : c = 0 := UInt8.toNat_inj.mp hc
    rw [hzero]
    rfl
  | true =>
    have hone : c = 1 := UInt8.toNat_inj.mp hc
    rw [hone]
    rfl

theorem beValue_masked {c : UInt8} {b : Bool} (hc : c.toNat = b.toNat) (v : List UInt8) :
    beValue (v.map (· &&& (0 - c))) = if b then beValue v else 0 := by
  rw [masked_value hc]
  cases b with
  | false =>
    have hzeros : ∀ v : List UInt8, beValue (v.map (· &&& 0)) = 0 := by
      intro v
      induction v with
      | nil => rfl
      | cons x v ih => rw [List.map_cons, UInt8.and_zero, beValue_cons, ih]; rfl
    exact hzeros v
  | true =>
    have hsame : v.map (· &&& 0xff) = v := by
      conv_rhs => rw [← List.map_id v]
      exact List.map_congr_left fun x _ => UInt8.and_neg_one
    rw [if_pos rfl, if_pos rfl, hsame]

/-- One place down in the field: what is shifted out comes back at the top. -/
def reducedShift (v : List UInt8) : List UInt8 :=
  let shifted := gcmShiftRightOne 0 v
  shifted.set 0 (shifted.getD 0 0 ^^^ (0xe1 &&& (0 - (v.getD 15 0 &&& 1))))

theorem reducedShift_value {v : List UInt8} (hv : v.length = 16) :
    (reducedShift v).length = 16 ∧ beValue (reducedShift v) = timesAlpha reduction (beValue v) := by
  have hshifted := gcmShiftRightOne_value 0 (by decide) v
  have hlength := gcmShiftRightOne_length 0 v
  rw [hv] at hlength
  have hbit := bit_byte v (show 15 < v.length by omega) (show 0 < 8 by decide)
  rw [hv] at hbit
  have hmask : (0xe1 &&& (0 - (v.getD 15 0 &&& 1)) : UInt8) =
      if (beValue v).testBit 0 then 0xe1 else 0 := by
    have hlow : ((v.getD 15 0 &&& 1 : UInt8)).toNat = ((beValue v).testBit 0).toNat := by
      rw [← hbit]
      congr 2
    rw [masked_value hlow]
    cases (beValue v).testBit 0 <;> rfl
  constructor
  · rw [reducedShift, List.length_set, hlength]
  · rw [reducedShift, hmask]
    cases hcases : gcmShiftRightOne 0 v with
    | nil =>
      rw [hcases] at hlength
      cases hlength
    | cons x rest =>
      rw [hcases] at hshifted hlength
      have hrest : rest.length = 15 := Nat.succ.inj hlength
      rw [UInt8.toNat_zero, Nat.mul_zero, Nat.add_zero] at hshifted
      rw [List.getD_cons_zero, List.set_cons_zero, beValue_cons_xor, hshifted, hrest, timesAlpha]
      congr 1
      cases (beValue v).testBit 0 <;> decide

/-- The product of the blocks is the product that is built up bit by bit. -/
theorem gcmMultiply_value {x h : List UInt8} (hx : x.length = 16) (hh : h.length = 16) :
    (gcmMultiply x h).length = 16 ∧
      beValue (gcmMultiply x h) = multiply (beValue x) (beValue h) := by
  have hloop := countUp_invariant (n := 128) (s := (zeroBlock, h))
    (f := fun (bit : Nat) (state : List UInt8 × List UInt8) =>
      (xorBlock state.1 (state.2.map (· &&& (0 - ((x.getD (bit / 8) 0 >>>
        UInt8.ofNat (7 - bit % 8)) &&& 1)))), reducedShift state.2))
    (fun k state => state.1.length = 16 ∧ state.2.length = 16 ∧
      (beValue state.1, beValue state.2) =
        multiplied 128 reduction (beValue x) k (0, beValue h)) ?_ ?_
  · have hvalue := congrArg Prod.fst hloop.2.2
    exact ⟨hloop.1, hvalue⟩
  · exact ⟨rfl, hh, rfl⟩
  · rintro bit hbit ⟨z, v⟩ ⟨hz, hv, hstate⟩
    have hselected := bit_byte x (show bit / 8 < x.length by omega)
      (show 7 - bit % 8 < 8 by omega)
    have hindex : 8 * (x.length - 1 - bit / 8) + (7 - bit % 8) = 128 - 1 - bit := by omega
    rw [hindex] at hselected
    have hmasked := beValue_masked hselected v
    obtain ⟨hlength, hshift⟩ := reducedShift_value hv
    refine ⟨xorBlock_length _ _, hlength, ?_⟩
    rw [multiplied, ← hstate]
    dsimp only
    rw [beValue_xorBlock hz (by rw [List.length_map, hv]), hmasked, hshift]

/-- The element that a block stands for: its first bit is the coefficient of 1. -/
noncomputable def blockElement (b : List UInt8) : Gf128 := element (beValue b)

theorem blockElement_injective {x y : List UInt8} (hx : x.length = 16) (hy : y.length = 16)
    (h : blockElement x = blockElement y) : x = y := by
  have hvalue := element_injective (beValue_block_lt hx) (beValue_block_lt hy) h
  rw [← bigEndian_beValue x, ← bigEndian_beValue y, hx, hy, hvalue]

theorem gcmMultiply_element {x h : List UInt8} (hx : x.length = 16) (hh : h.length = 16) :
    (gcmMultiply x h).length = 16 ∧
      blockElement (gcmMultiply x h) = blockElement x * blockElement h := by
  obtain ⟨hlength, hvalue⟩ := gcmMultiply_value hx hh
  refine ⟨hlength, ?_⟩
  rw [blockElement, hvalue]
  exact (multiply_spec (beValue_block_lt hh) _).2

theorem ghashBlock_element {y h block : List UInt8} (hy : y.length = 16) (hh : h.length = 16)
    (hblock : block.length = 16) :
    (ghashBlock y h block).length = 16 ∧ blockElement (ghashBlock y h block) =
      (blockElement y + blockElement block) * blockElement h := by
  obtain ⟨hlength, hvalue⟩ := gcmMultiply_element (xorBlock_length y block) hh
  refine ⟨hlength, ?_⟩
  rw [ghashBlock, hvalue, blockElement, beValue_xorBlock hy hblock, element_xor]
  rfl

def blocks (s : List UInt8) : List (List UInt8) :=
  (List.range (s.length / 16)).map fun i => (s.drop (16 * i)).take 16

theorem blocks_cons {first : List UInt8} (hfirst : first.length = 16) (rest : List UInt8) :
    blocks (first ++ rest) = first :: blocks rest := by
  have hcount : (first ++ rest).length / 16 = rest.length / 16 + 1 := by
    rw [List.length_append, hfirst]
    omega
  rw [blocks, hcount, List.range_succ_eq_map, List.map_cons, List.map_map, Nat.mul_zero,
    List.drop_zero, List.take_left' hfirst]
  congr 1
  apply List.map_congr_left
  intro i _
  have hindex : 16 * (i + 1) = first.length + 16 * i := by omega
  change ((first ++ rest).drop (16 * (i + 1))).take 16 = _
  rw [hindex, List.drop_length_add_append]

theorem blocks_nil : blocks [] = [] := rfl

theorem blocks_append {s : List UInt8} (hs : s.length % 16 = 0) (t : List UInt8) :
    blocks (s ++ t) = blocks s ++ blocks t := by
  induction hn : s.length using Nat.strong_induction_on generalizing s with
  | _ n ih =>
    by_cases hempty : s.length = 0
    · rw [List.length_eq_zero_iff.mp hempty, blocks_nil]
      rfl
    · have hfirst : (s.take 16).length = 16 := by
        rw [List.length_take]
        omega
      have hrest := ih (s.drop 16).length (by rw [List.length_drop]; omega)
        (by rw [List.length_drop]; omega) rfl
      rw [← List.take_append_drop 16 s, List.append_assoc, blocks_cons hfirst, hrest,
        blocks_cons hfirst, List.cons_append]

def padded (data : List UInt8) : List UInt8 :=
  data ++ List.replicate ((16 - data.length % 16) % 16) 0

theorem padded_length (data : List UInt8) : (padded data).length % 16 = 0 := by
  rw [padded, List.length_append, List.length_replicate]
  omega

noncomputable def ghashFrom (h y : Gf128) (s : List UInt8) : Gf128 :=
  ((blocks s).map blockElement).foldl (fun y x => (y + x) * h) y

theorem ghashFrom_append {s : List UInt8} (hs : s.length % 16 = 0) (h y : Gf128)
    (t : List UInt8) : ghashFrom h y (s ++ t) = ghashFrom h (ghashFrom h y s) t := by
  rw [ghashFrom, blocks_append hs, List.map_append, List.foldl_append]
  rfl

theorem ghashFrom_block {block : List UInt8} (hblock : block.length = 16) (h y : Gf128) :
    ghashFrom h y block = (y + blockElement block) * h := by
  have hone := blocks_cons hblock []
  rw [List.append_nil] at hone
  rw [ghashFrom, hone]
  rfl

theorem ghashBytes_element {h : List UInt8} (hh : h.length = 16) (data : List UInt8)
    {y : List UInt8} (hy : y.length = 16) :
    (ghashBytes y h data).length = 16 ∧ blockElement (ghashBytes y h data) =
      ghashFrom (blockElement h) (blockElement y) (padded data) := by
  induction hn : data.length using Nat.strong_induction_on generalizing data y with
  | _ n ih =>
    rw [ghashBytes]
    by_cases hlong : 16 ≤ data.length
    · have hfirst : (data.take 16).length = 16 := by
        rw [List.length_take]
        omega
      have hmod : (data.drop 16).length % 16 = data.length % 16 := by
        rw [List.length_drop]
        omega
      have hsplit : padded data = data.take 16 ++ padded (data.drop 16) := by
        rw [padded, padded, hmod, ← List.append_assoc, List.take_append_drop]
      obtain ⟨hblock, hvalue⟩ := ghashBlock_element hy hh hfirst
      obtain ⟨hlength, hrest⟩ := ih (data.drop 16).length (by rw [List.length_drop]; omega)
        (data.drop 16) hblock rfl
      rw [dif_pos hlong, hsplit, ghashFrom_append (by rw [hfirst]), ghashFrom_block hfirst, ← hvalue]
      exact ⟨hlength, hrest⟩
    · rw [dif_neg hlong]
      by_cases hempty : data.length ≠ 0
      · have hcount : (16 - data.length % 16) % 16 = 16 - data.length := by omega
        have hpadded : padded data = zeroPadded data := by rw [padded, zeroPadded, hcount]
        have hblock : (zeroPadded data).length = 16 := by
          rw [zeroPadded, List.length_append, List.length_replicate]
          omega
        rw [if_pos hempty, hpadded, ghashFrom_block hblock]
        exact ghashBlock_element hy hh hblock
      · have hnil := List.length_eq_zero_iff.mp (not_not.mp hempty)
        rw [if_neg hempty, hnil]
        exact ⟨hy, rfl⟩

/-- GHASH of SP 800-38D: the polynomial in the hash key that has the blocks as coefficients. -/
noncomputable def ghash (h s : List UInt8) : Gf128 :=
  ∑ i ∈ Finset.range (s.length / 16),
    blockElement ((s.drop (16 * i)).take 16) * blockElement h ^ (s.length / 16 - i)

theorem ghash_eq (h s : List UInt8) : ghash h s = ghashFrom (blockElement h) 0 s := by
  rw [ghashFrom, horner_sum, zero_mul, zero_add, List.length_map, blocks, List.length_map,
    List.length_range, ghash]
  apply Finset.sum_congr rfl
  intro i hi
  have hlt := Finset.mem_range.mp hi
  rw [List.getD_eq_getElem _ _ (by simpa using hlt), List.getElem_map, List.getElem_map,
    List.getElem_range]

end LiberaCrypt.Ghash
