import LiberaCrypt.DesStandard
import LiberaCrypt.TripleDes

namespace LiberaCrypt.TripleDesRound

open LiberaCrypt.BitString LiberaCrypt.CountedLoop LiberaCrypt.DesStandard LiberaCrypt.TripleDes

theorem shifted_bit (x : UInt32) {s : Nat} (hs : s < 64) {i : Nat} (hi : i < 64) :
    (x.toUInt64 <<< UInt64.ofNat s).toNat.testBit i =
      (decide (s ≤ i) && x.toNat.testBit (i - s)) := by
  have hshift : (UInt64.ofNat s).toNat % 64 = s := by
    rw [UInt64.toNat_ofNat_of_lt' (by rw [UInt64.size]; omega), Nat.mod_eq_of_lt hs]
  rw [UInt64.toNat_shiftLeft, hshift, Nat.testBit_mod_two_pow, Nat.testBit_shiftLeft,
    UInt32.toNat_toUInt64, decide_eq_true hi, Bool.true_and]

/-- The six bits that wrap around at an end of the half block. -/
def wrapped (right : UInt32) (s : Nat) : UInt32 :=
  ((right &&& UInt32.ofNat (2 ^ s - 1)) <<< UInt32.ofNat (6 - s)) |||
    (right >>> UInt32.ofNat (26 + s))

def field (right : UInt32) : Nat → UInt32
  | 0 => wrapped right 5
  | 7 => wrapped right 1
  | m => (right >>> UInt32.ofNat (4 * m - 1)) &&& 63

theorem ofNat_toNat {k : Nat} (hk : k < 32) : (UInt32.ofNat k).toNat % 32 = k := by
  rw [UInt32.toNat_ofNat_of_lt' (by rw [UInt32.size]; omega), Nat.mod_eq_of_lt hk]

theorem wrapped_bit (right : UInt32) {s : Nat} (hpositive : 0 < s) (hs : s < 6) (i : Nat) :
    (wrapped right s).toNat.testBit i =
      (decide (i < 6) && right.toNat.testBit ((26 + s + i) % 32)) := by
  have hmask : (UInt32.ofNat (2 ^ s - 1)).toNat = 2 ^ s - 1 := by
    have hpow : 2 ^ s < 2 ^ 6 := Nat.pow_lt_pow_right (by decide) hs
    rw [UInt32.toNat_ofNat_of_lt' (by rw [UInt32.size]; omega)]
  have hlow : ((right &&& UInt32.ofNat (2 ^ s - 1)) <<< UInt32.ofNat (6 - s)).toNat.testBit i =
      (decide (6 - s ≤ i ∧ i < 6) && right.toNat.testBit (i - (6 - s))) := by
    rw [UInt32.toNat_shiftLeft, ofNat_toNat (by omega), Nat.testBit_mod_two_pow,
      Nat.testBit_shiftLeft, UInt32.toNat_and, hmask, Nat.and_two_pow_sub_one_eq_mod,
      Nat.testBit_mod_two_pow]
    by_cases hfirst : 6 - s ≤ i
    · by_cases hi : i < 6
      · have hi' : i < 32 := by omega
        have hkept : i - (6 - s) < s := by omega
        simp [hfirst, hi, hi', hkept]
      · have hkept : ¬ i - (6 - s) < s := by omega
        simp [hi, hkept]
    · simp [hfirst]
  have hhigh : (right >>> UInt32.ofNat (26 + s)).toNat.testBit i =
      right.toNat.testBit (26 + s + i) := by
    rw [UInt32.toNat_shiftRight, ofNat_toNat (by omega), Nat.testBit_shiftRight]
  rw [wrapped, UInt32.toNat_or, Nat.testBit_or, hlow, hhigh]
  by_cases hwraps : i < 6 - s
  · have hmod : (26 + s + i) % 32 = 26 + s + i := Nat.mod_eq_of_lt (by omega)
    have hi : i < 6 := by omega
    have hnot : ¬ (6 - s ≤ i ∧ i < 6) := by omega
    rw [hmod, decide_eq_true hi, decide_eq_false hnot, Bool.false_and, Bool.false_or, Bool.true_and]
  · have hzero : right.toNat.testBit (26 + s + i) = false := by
      apply Nat.testBit_lt_two_pow
      exact right.toNat_lt.trans_le (Nat.pow_le_pow_right (by decide) (by omega))
    rw [hzero, Bool.or_false]
    by_cases hi : i < 6
    · have hmod : (26 + s + i) % 32 = i - (6 - s) := by omega
      have hrange : 6 - s ≤ i ∧ i < 6 := by omega
      rw [hmod, decide_eq_true hi, decide_eq_true hrange]
    · have hnot : ¬ (6 - s ≤ i ∧ i < 6) := by omega
      rw [decide_eq_false hi, decide_eq_false hnot, Bool.false_and, Bool.false_and]

theorem middle_bit (right : UInt32) {s : Nat} (hs : s < 27) (i : Nat) :
    ((right >>> UInt32.ofNat s) &&& 63).toNat.testBit i =
      (decide (i < 6) && right.toNat.testBit ((s + i) % 32)) := by
  have hmask : (63 : UInt32).toNat = 2 ^ 6 - 1 := rfl
  rw [UInt32.toNat_and, hmask, Nat.and_two_pow_sub_one_eq_mod, Nat.testBit_mod_two_pow,
    UInt32.toNat_shiftRight, ofNat_toNat (by omega), Nat.testBit_shiftRight]
  by_cases hi : i < 6
  · rw [Nat.mod_eq_of_lt (by omega)]
  · rw [decide_eq_false hi, Bool.false_and, Bool.false_and]

/-- The fields are cut out of the half block as from a circle, each two bits over the next. -/
theorem field_bit (right : UInt32) {m : Nat} (hm : m < 8) (i : Nat) :
    (field right m).toNat.testBit i =
      (decide (i < 6) && right.toNat.testBit ((4 * m + 31 + i) % 32)) := by
  have hmiddle : 0 < m → m < 7 → ((right >>> UInt32.ofNat (4 * m - 1)) &&& 63).toNat.testBit i =
      (decide (i < 6) && right.toNat.testBit ((4 * m + 31 + i) % 32)) := by
    intro hpositive hlast
    rw [middle_bit right (by omega)]
    congr 2
    omega
  interval_cases m
  case «0» => exact wrapped_bit right (by decide) (by decide) i
  case «7» =>
    rw [field, wrapped_bit right (by decide) (by decide)]
    congr 2
    omega
  all_goals exact hmiddle (by decide) (by decide)

theorem expand_eq (right : UInt32) : expand right =
    ((field right 7).toUInt64 <<< UInt64.ofNat 42) ||| ((field right 6).toUInt64 <<< UInt64.ofNat 36) |||
      ((field right 5).toUInt64 <<< UInt64.ofNat 30) ||| ((field right 4).toUInt64 <<< UInt64.ofNat 24) |||
      ((field right 3).toUInt64 <<< UInt64.ofNat 18) ||| ((field right 2).toUInt64 <<< UInt64.ofNat 12) |||
      ((field right 1).toUInt64 <<< UInt64.ofNat 6) ||| (field right 0).toUInt64 := rfl

theorem expand_bit (right : UInt32) {m j : Nat} (hm : m < 8) (hj : j < 6) :
    (expand right).toNat.testBit (6 * m + j) = right.toNat.testBit ((4 * m + 31 + j) % 32) := by
  have hi : 6 * m + j < 64 := by omega
  rw [expand_eq]
  simp only [UInt64.toNat_or, Nat.testBit_or, UInt32.toNat_toUInt64]
  rw [shifted_bit _ (by decide) hi, shifted_bit _ (by decide) hi, shifted_bit _ (by decide) hi,
    shifted_bit _ (by decide) hi, shifted_bit _ (by decide) hi, shifted_bit _ (by decide) hi,
    shifted_bit _ (by decide) hi]
  simp only [field_bit right (show 7 < 8 by decide), field_bit right (show 6 < 8 by decide),
    field_bit right (show 5 < 8 by decide), field_bit right (show 4 < 8 by decide),
    field_bit right (show 3 < 8 by decide), field_bit right (show 2 < 8 by decide),
    field_bit right (show 1 < 8 by decide), field_bit right (show 0 < 8 by decide)]
  interval_cases m <;> interval_cases j <;> simp

theorem expand_places : ∀ i < 48, (4 * (i / 6) + 31 + i % 6) % 32 = 32 - eTable.getD (47 - i) 0 := by
  decide

theorem expand_select (right : UInt32) :
    bitString 48 (expand right).toNat = select eTable (bitString 32 right.toNat) := by
  refine bitString_eq_select (n := 48) rfl (by decide) fun i hi => ?_
  have hbit := expand_bit right (m := i / 6) (j := i % 6) (by omega) (Nat.mod_lt _ (by decide))
  rw [Nat.div_add_mod] at hbit
  rw [hbit, expand_places i hi]

theorem masked_bit {c : UInt32} {b : Bool} (hc : c.toNat = b.toNat) (word : UInt32) (j : Nat) :
    ((0 - c) &&& word).toNat.testBit j = (b && word.toNat.testBit j) := by
  cases b with
  | false =>
    have hzero : c = 0 := UInt32.toNat_inj.mp hc
    simp [hzero]
  | true =>
    have hone : c = 1 := UInt32.toNat_inj.mp hc
    have hall : (0 - 1 : UInt32) &&& word = word := UInt32.neg_one_and
    rw [hone, hall, Bool.true_and]

theorem input_bit (expanded : UInt64) {s bit : Nat} (hs : s < 64) (hbit : bit < 6) :
    (((((expanded >>> UInt64.ofNat s).toUInt32 &&& 63) >>> UInt32.ofNat bit) &&& 1)).toNat =
      (expanded.toNat.testBit (s + bit)).toNat := by
  have hshift : (UInt64.ofNat s).toNat % 64 = s := by
    rw [UInt64.toNat_ofNat_of_lt' (by rw [UInt64.size]; omega), Nat.mod_eq_of_lt hs]
  have hmask : (63 : UInt32).toNat = 2 ^ 6 - 1 := rfl
  have hone : (1 : UInt32).toNat = 1 := rfl
  have hpow : 2 ^ 32 = 2 ^ 6 * 2 ^ 26 := rfl
  rw [UInt32.toNat_and, UInt32.toNat_shiftRight, ofNat_toNat (by omega), UInt32.toNat_and, hmask,
    hone, Nat.and_two_pow_sub_one_eq_mod, UInt64.toNat_toUInt32, UInt64.toNat_shiftRight, hshift,
    hpow, Nat.mod_mul_right_mod, Nat.and_one_is_mod, Nat.shiftRight_eq_div_pow _ bit,
    ← Nat.toNat_testBit, Nat.testBit_mod_two_pow, decide_eq_true hbit, Bool.true_and,
    Nat.testBit_shiftRight]

theorem plane_bit (expanded : UInt64) {bit : Nat} (hbit : bit < 6) (j : Nat) :
    (plane expanded bit).toNat.testBit j = (List.range 8).any fun box =>
      expanded.toNat.testBit (42 - 6 * box + bit) &&
        (sboxOutputMasks.getD box 0).toNat.testBit j := by
  have hloop := countUp_invariant (n := 8) (s := (0 : UInt32))
    (f := fun box plane =>
      let input := (expanded >>> UInt64.ofNat (42 - 6 * box)).toUInt32 &&& 63
      let mask := 0 - ((input >>> UInt32.ofNat bit) &&& 1)
      plane ||| (mask &&& sboxOutputMasks.getD box 0))
    (fun n plane => plane.toNat.testBit j = (List.range n).any fun box =>
      expanded.toNat.testBit (42 - 6 * box + bit) &&
        (sboxOutputMasks.getD box 0).toNat.testBit j) (by simp) ?_
  · exact hloop
  · intro box hbox plane hplane
    have hmasked := masked_bit (input_bit expanded (s := 42 - 6 * box) (by omega) hbit)
      (sboxOutputMasks.getD box 0) j
    simp only [UInt32.toNat_or, Nat.testBit_or, hplane, hmasked, List.range_succ, List.any_append,
      List.any_cons, List.any_nil, Bool.or_false]

/-- The place in the output of the boxes that bit `j` of the round function comes from. -/
def sourcePlace (j : Nat) : Nat := pTable.getD (31 - j) 0 - 1

theorem outputMasks : ∀ j < 32, ∀ box < 8,
    (sboxOutputMasks.getD box 0).toNat.testBit j = decide (box = sourcePlace j / 4) := by
  decide

theorem sourcePlace_lt : ∀ j < 32, sourcePlace j < 32 := by
  decide

/-- Each lane of a plane holds a bit of the box that the lane belongs to. -/
theorem plane_lane (expanded : UInt64) {bit : Nat} (hbit : bit < 6) {j : Nat} (hj : j < 32) :
    (plane expanded bit).toNat.testBit j =
      expanded.toNat.testBit (42 - 6 * (sourcePlace j / 4) + bit) := by
  have hsource := sourcePlace_lt j hj
  rw [plane_bit expanded hbit, Bool.eq_iff_iff, List.any_eq_true]
  constructor
  · rintro ⟨box, hbox, h⟩
    rw [outputMasks j hj box (List.mem_range.mp hbox), Bool.and_eq_true, decide_eq_true_iff] at h
    rw [← h.2]
    exact h.1
  · intro h
    refine ⟨sourcePlace j / 4, List.mem_range.mpr (by omega), ?_⟩
    rw [outputMasks j hj _ (by omega), h, decide_eq_true rfl]
    rfl

theorem selectPairs_lane (plane : UInt32) {count index : Nat} (h : index < count)
    (nodes : List UInt32) (j : Nat) :
    ((selectPairs plane count nodes).getD index 0).toNat.testBit j =
      (nodes.getD (2 * index + (plane.toNat.testBit j).toNat) 0).toNat.testBit j := by
  have hnode : (selectPairs plane count nodes).getD index 0 = nodes.getD (2 * index) 0 ^^^
      (plane &&& (nodes.getD (2 * index) 0 ^^^ nodes.getD (2 * index + 1) 0)) := by
    rw [List.getD_eq_getElem _ _ (by simpa [selectPairs] using h)]
    simp [selectPairs]
  rw [hnode, UInt32.toNat_xor, UInt32.toNat_and, UInt32.toNat_xor, Nat.testBit_xor, Nat.testBit_and,
    Nat.testBit_xor]
  cases plane.toNat.testBit j with
  | false => rw [Bool.false_and, Bool.xor_false, Bool.toNat_false, Nat.add_zero]
  | true => rw [Bool.true_and, ← Bool.xor_assoc, Bool.xor_self, Bool.false_xor, Bool.toNat_true]

/-- After `n` levels the first `n` bits of an input have been used to select. -/
theorem tree_lane (planes : Nat → UInt32) {j x : Nat}
    (hplanes : ∀ bit < 6, (planes bit).toNat.testBit j = x.testBit bit) :
    ((countUp 6 (fun bit nodes => selectPairs (planes bit) (2 ^ (5 - bit)) nodes)
      truthTable).getD 0 0).toNat.testBit j = (truthTable.getD (x % 64) 0).toNat.testBit j := by
  have hloop := countUp_invariant (n := 6) (s := truthTable)
    (f := fun bit nodes => selectPairs (planes bit) (2 ^ (5 - bit)) nodes)
    (fun n nodes => ∀ index < 2 ^ (6 - n), (nodes.getD index 0).toNat.testBit j =
      (truthTable.getD (2 ^ n * index + x % 2 ^ n) 0).toNat.testBit j) ?_ ?_
  · have hroot := hloop 0 (by decide)
    rwa [Nat.mul_zero, Nat.zero_add] at hroot
  · intro index _
    rw [pow_zero, Nat.one_mul, Nat.mod_one, Nat.add_zero]
  · intro n hn nodes hnodes index hindex
    have hcount : 6 - (n + 1) = 5 - n := by omega
    have hdouble : 2 ^ (6 - n) = 2 * 2 ^ (5 - n) := by
      rw [← pow_succ']
      congr 1
      omega
    have hbit := (x.testBit n).toNat_le
    rw [hcount] at hindex
    rw [selectPairs_lane _ hindex, hplanes n hn, hnodes _ (by omega), Nat.mod_pow_succ,
      ← Nat.toNat_testBit]
    congr 3
    ring

/-- The packed table is the boxes of the standard, moved by the permutation after them. -/
theorem truthTable_sBox : ∀ j < 32, ∀ v < 64, (truthTable.getD v 0).toNat.testBit j =
    (sBox (sourcePlace j / 4) (bitString 6 v)).getD (sourcePlace j % 4) false := by
  decide

theorem sBox_length (box : Nat) (b : List Bool) : (sBox box b).length = 4 := bitString_length 4 _

theorem flatMap_getD {k : Nat} {f : Nat → List Bool} (hf : ∀ i, (f i).length = k) (n : Nat) {i : Nat}
    (hi : i < n * k) :
    ((List.range n).flatMap f).getD i false = (f (i / k)).getD (i % k) false := by
  have hk : 0 < k := Nat.pos_of_ne_zero fun h => by simp [h] at hi
  have hlength : ∀ n, ((List.range n).flatMap f).length = n * k := by
    intro n
    rw [List.length_flatMap]
    simp [hf]
  induction n with
  | zero => exact absurd hi (by simp)
  | succ n ih =>
    rw [List.range_succ, List.flatMap_append, List.flatMap_singleton]
    by_cases hlow : i < n * k
    · rw [List.getD_append _ _ _ _ (by rwa [hlength]), ih hlow]
    · have hhigh := not_lt.mp hlow
      have hquotient : i / k = n := by
        rw [Nat.div_eq_iff hk]
        constructor
        · exact hhigh
        · rw [Nat.succ_mul] at hi
          omega
      rw [List.getD_append_right _ _ _ _ (by rwa [hlength]), hlength, hquotient]
      congr 1
      have := Nat.div_add_mod i k
      rw [hquotient, Nat.mul_comm] at this
      omega

def boxInput (expanded : UInt64) (box : Nat) : Nat := expanded.toNat / 2 ^ (42 - 6 * box) % 64

theorem boxInput_bits (expanded : UInt64) {box : Nat} (h : box < 8) :
    ((bitString 48 expanded.toNat).drop (6 * box)).take 6 =
      bitString 6 (boxInput expanded box) := by
  have hshift : 48 - 6 * box - 6 = 42 - 6 * box := by omega
  rw [bitString_slice (by omega), hshift]
  exact (bitString_mod 6 _).symm

theorem desRoundFunction_lane (right : UInt32) (roundKey : UInt64) {j : Nat} (hj : j < 32) :
    (desRoundFunction right roundKey).toNat.testBit j =
      (sBox (sourcePlace j / 4) (bitString 6 (boxInput (expand right ^^^ roundKey)
        (sourcePlace j / 4)))).getD (sourcePlace j % 4) false := by
  rw [boxInput, ← truthTable_sBox j hj _ (Nat.mod_lt _ (by decide)), desRoundFunction]
  apply tree_lane (plane (expand right ^^^ roundKey))
  intro bit hbit
  rw [plane_lane _ hbit hj, Nat.testBit_div_two_pow]
  congr 1
  omega

theorem cipherFunction_getD (r k : List Bool) {i : Nat} (hi : i < 32) :
    (cipherFunction r k).getD i false =
      (sBox (sourcePlace (31 - i) / 4) (((xorBits (select eTable r) k).drop
        (6 * (sourcePlace (31 - i) / 4))).take 6)).getD (sourcePlace (31 - i) % 4) false := by
  have hsource := sourcePlace_lt (31 - i) (by omega)
  have hplace : pTable.getD i 0 - 1 = sourcePlace (31 - i) := by
    rw [sourcePlace]
    congr 2
    omega
  have hlength : i < pTable.length := hi
  rw [cipherFunction, select, List.getD_eq_getElem _ _ (by rwa [List.length_map]), List.getElem_map,
    ← List.getD_eq_getElem _ 0 hlength, hplace,
    flatMap_getD (fun _ => sBox_length _ _) 8 (by omega)]

/-- The masked evaluation over packed lanes is the cipher function of the standard. -/
theorem desRoundFunction_eq (right : UInt32) (roundKey : UInt64) :
    bitString 32 (desRoundFunction right roundKey).toNat =
      cipherFunction (bitString 32 right.toNat) (bitString 48 roundKey.toNat) := by
  have hexpanded : xorBits (select eTable (bitString 32 right.toNat))
      (bitString 48 roundKey.toNat) = bitString 48 (expand right ^^^ roundKey).toNat := by
    rw [← expand_select, ← bitString_xor, UInt64.toNat_xor]
  have hlength : (cipherFunction (bitString 32 right.toNat) (bitString 48 roundKey.toNat)).length =
      32 := select_length _ _
  apply List.ext_getElem
  · rw [bitString_length, hlength]
  · intro i hi hi'
    have hi32 : i < 32 := by rwa [bitString_length] at hi
    have hsource := sourcePlace_lt (31 - i) (by omega)
    rw [← List.getD_eq_getElem _ false hi, ← List.getD_eq_getElem _ false hi', bitString_getD hi32,
      cipherFunction_getD _ _ hi32, hexpanded, boxInput_bits _ (by omega)]
    exact desRoundFunction_lane right roundKey (by omega)

end LiberaCrypt.TripleDesRound
