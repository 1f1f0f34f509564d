import LiberaCrypt.TripleDesRound

namespace LiberaCrypt.TripleDesCorrect

open LiberaCrypt.BigEndian LiberaCrypt.BitString LiberaCrypt.CountedLoop LiberaCrypt.DesStandard
open LiberaCrypt.TripleDes LiberaCrypt.TripleDesRound

/-- The bits of `word` are the bits of `x` at the given places, the lowest first. -/
def Follows (x : Nat) (places : List Nat) (word : UInt32) : Prop :=
  ∀ i < 32, word.toNat.testBit i = x.testBit (places.getD i 0)

def exchangePlaces (shift mask : Nat) (p q : List Nat) : List Nat × List Nat :=
  ((List.range 32).map fun i =>
      if shift ≤ i ∧ mask.testBit (i - shift) then q.getD (i - shift) 0 else p.getD i 0,
    (List.range 32).map fun i => if mask.testBit i then p.getD (i + shift) 0 else q.getD i 0)

section Exchange

variable {x : Nat} {p q : List Nat} {a b : UInt32}

theorem exchange_follows (shift mask : UInt32) (hshift : shift.toNat < 32)
    (hmask : mask.toNat < 2 ^ (32 - shift.toNat)) (ha : Follows x p a) (hb : Follows x q b) :
    Follows x (exchangePlaces shift.toNat mask.toNat p q).1 (exchange shift mask a b).1 ∧
      Follows x (exchangePlaces shift.toNat mask.toNat p q).2 (exchange shift mask a b).2 := by
  have hplace : ∀ f : Nat → Nat, ∀ i < 32, ((List.range 32).map f).getD i 0 = f i := by
    intro f i hi
    rw [List.getD_eq_getElem _ _ (by simpa using hi), List.getElem_map, List.getElem_range]
  have htemporary : ∀ i, (((a >>> shift) ^^^ b) &&& mask).toNat.testBit i =
      ((a.toNat.testBit (shift.toNat + i) ^^ b.toNat.testBit i) && mask.toNat.testBit i) := by
    intro i
    rw [UInt32.toNat_and, Nat.testBit_and, UInt32.toNat_xor, Nat.testBit_xor,
      UInt32.toNat_shiftRight, Nat.mod_eq_of_lt hshift, Nat.testBit_shiftRight]
  have hsmall : ∀ i < 32, mask.toNat.testBit i = true → shift.toNat + i < 32 := by
    intro i _ hbit
    by_contra hge
    have hzero := Nat.testBit_lt_two_pow
      (hmask.trans_le (Nat.pow_le_pow_right (by decide) (by omega : 32 - shift.toNat ≤ i)))
    rw [hzero] at hbit
    cases hbit
  constructor
  · intro i hi
    rw [exchangePlaces, hplace _ i hi, exchange]
    dsimp only
    rw [UInt32.toNat_xor, Nat.testBit_xor, UInt32.toNat_shiftLeft, Nat.mod_eq_of_lt hshift,
      Nat.testBit_mod_two_pow, Nat.testBit_shiftLeft, htemporary, decide_eq_true hi, Bool.true_and,
      ha i hi]
    by_cases hmoved : shift.toNat ≤ i
    · have hback : shift.toNat + (i - shift.toNat) = i := by omega
      rw [hback, ha i hi, hb _ (by omega)]
      by_cases hbit : mask.toNat.testBit (i - shift.toNat) = true
      · rw [if_pos ⟨hmoved, hbit⟩, hbit, Bool.and_true, decide_eq_true hmoved, Bool.true_and,
          ← Bool.xor_assoc, Bool.xor_self, Bool.false_xor]
      · rw [if_neg fun h => hbit h.2, Bool.eq_false_of_not_eq_true hbit, Bool.and_false,
          Bool.and_false, Bool.xor_false]
    · rw [if_neg fun h => hmoved h.1, decide_eq_false hmoved, Bool.false_and, Bool.xor_false]
  · intro i hi
    rw [exchangePlaces, hplace _ i hi, exchange]
    dsimp only
    rw [UInt32.toNat_xor, Nat.testBit_xor, htemporary, hb i hi]
    by_cases hbit : mask.toNat.testBit i = true
    · rw [if_pos hbit, hbit, Bool.and_true, ha _ (hsmall i hi hbit), Nat.add_comm i,
        Bool.xor_comm, Bool.xor_assoc, Bool.xor_self, Bool.xor_false]
    · rw [if_neg hbit, Bool.eq_false_of_not_eq_true hbit, Bool.and_false, Bool.xor_false]

end Exchange

theorem high_follows (x : UInt64) : Follows x.toNat ((List.range 32).map (32 + ·)) (high x) := by
  intro i hi
  rw [high_toNat, Nat.testBit_div_two_pow, List.getD_eq_getElem _ _ (by simpa using hi),
    List.getElem_map, List.getElem_range, Nat.add_comm]

theorem low_follows (x : UInt64) : Follows x.toNat (List.range 32) (low x) := by
  intro i hi
  rw [low_toNat, Nat.testBit_mod_two_pow, decide_eq_true hi, Bool.true_and,
    List.getD_eq_getElem _ _ (by simpa using hi), List.getElem_range]

theorem join_bits (left right : UInt32) :
    bitString 64 (join left right).toNat = bitString 32 left.toNat ++ bitString 32 right.toNat := by
  rw [join_toNat]
  exact bitString_join 32 right.toNat_lt

theorem bits_high_low (x : UInt64) :
    bitString 64 x.toNat = bitString 32 (high x).toNat ++ bitString 32 (low x).toNat := by
  rw [← join_bits, join_high_low]

theorem follows_bits {x : UInt64} {places : List Nat} {word : UInt32}
    (h : Follows x.toNat places word) (table : List Nat) (hlength : table.length = 32)
    (hplaces : ∀ place ∈ table, 0 < place ∧ place ≤ 64)
    (htable : ∀ i < 32, places.getD i 0 = 64 - table.getD (31 - i) 0) :
    bitString 32 word.toNat = select table (bitString 64 x.toNat) := by
  refine bitString_eq_select hlength hplaces fun i hi => ?_
  rw [h i hi, htable i hi]

theorem initialPermutation_select (x : UInt64) :
    bitString 64 (initialPermutation x).toNat = select ip (bitString 64 x.toNat) := by
  rcases h1 : exchange 4 0x0f0f0f0f (high x) (low x) with ⟨l1, r1⟩
  rcases h2 : exchange 16 0x0000ffff l1 r1 with ⟨l2, r2⟩
  rcases h3 : exchange 2 0x33333333 r2 l2 with ⟨r3, l3⟩
  rcases h4 : exchange 8 0x00ff00ff r3 l3 with ⟨r4, l4⟩
  rcases h5 : exchange 1 0x55555555 l4 r4 with ⟨l5, r5⟩
  have f1 := exchange_follows 4 0x0f0f0f0f (by decide) (by decide)
    (high_follows x) (low_follows x)
  rw [h1] at f1
  have f2 := exchange_follows 16 0x0000ffff (by decide) (by decide) f1.1 f1.2
  rw [h2] at f2
  have f3 := exchange_follows 2 0x33333333 (by decide) (by decide) f2.2 f2.1
  rw [h3] at f3
  have f4 := exchange_follows 8 0x00ff00ff (by decide) (by decide) f3.1 f3.2
  rw [h4] at f4
  have f5 := exchange_follows 1 0x55555555 (by decide) (by decide) f4.2 f4.1
  rw [h5] at f5
  have hjoin : initialPermutation x = join l5 r5 := by
    simp only [initialPermutation, h1, h2, h3, h4, h5]
  rw [hjoin, join_bits, follows_bits f5.1 (ip.take 32) rfl (by decide) (by decide),
    follows_bits f5.2 (ip.drop 32) rfl (by decide) (by decide)]
  rfl

theorem finalPermutation_select (x : UInt64) :
    bitString 64 (finalPermutation x).toNat = select inverseIp (bitString 64 x.toNat) := by
  rcases h1 : exchange 1 0x55555555 (high x) (low x) with ⟨l1, r1⟩
  rcases h2 : exchange 8 0x00ff00ff r1 l1 with ⟨r2, l2⟩
  rcases h3 : exchange 2 0x33333333 r2 l2 with ⟨r3, l3⟩
  rcases h4 : exchange 16 0x0000ffff l3 r3 with ⟨l4, r4⟩
  rcases h5 : exchange 4 0x0f0f0f0f l4 r4 with ⟨l5, r5⟩
  have f1 := exchange_follows 1 0x55555555 (by decide) (by decide)
    (high_follows x) (low_follows x)
  rw [h1] at f1
  have f2 := exchange_follows 8 0x00ff00ff (by decide) (by decide) f1.2 f1.1
  rw [h2] at f2
  have f3 := exchange_follows 2 0x33333333 (by decide) (by decide) f2.1 f2.2
  rw [h3] at f3
  have f4 := exchange_follows 16 0x0000ffff (by decide) (by decide) f3.2 f3.1
  rw [h4] at f4
  have f5 := exchange_follows 4 0x0f0f0f0f (by decide) (by decide) f4.1 f4.2
  rw [h5] at f5
  have hjoin : finalPermutation x = join l5 r5 := by
    simp only [finalPermutation, h1, h2, h3, h4, h5]
  rw [hjoin, join_bits,
    follows_bits f5.1 (inverseIp.take 32) rfl (by decide) (by decide),
    follows_bits f5.2 (inverseIp.drop 32) rfl (by decide) (by decide)]
  rfl

theorem permuteBits_append (x : UInt64) {n place : Nat} (hn : n ≤ 64) (hpositive : 0 < place)
    (table : List Nat) :
    (permuteBits x n (table ++ [place])).toNat =
      2 * ((permuteBits x n table).toNat % 2 ^ 63) + (x.toNat.testBit (n - place)).toNat := by
  have hshift : (UInt64.ofNat (n - place)).toNat % 64 = n - place := by
    rw [UInt64.toNat_ofNat_of_lt' (by rw [UInt64.size]; omega), Nat.mod_eq_of_lt (by omega)]
  have hbit : ((x >>> UInt64.ofNat (n - place)) &&& 1).toNat =
      (x.toNat.testBit (n - place)).toNat := by
    rw [UInt64.toNat_and, UInt64.toNat_shiftRight, hshift, Nat.toNat_testBit,
      ← Nat.shiftRight_eq_div_pow]
    exact Nat.and_one_is_mod _
  have hlt := (x.toNat.testBit (n - place)).toNat_lt
  have hhigh : (permuteBits x n table).toNat * 2 ^ 1 % 2 ^ 64 =
      2 ^ 1 * ((permuteBits x n table).toNat % 2 ^ 63) := by omega
  rw [permuteBits, List.foldl_append, List.foldl_cons, List.foldl_nil, ← permuteBits,
    UInt64.toNat_or, hbit, UInt64.toNat_shiftLeft, Nat.shiftLeft_eq]
  change ((permuteBits x n table).toNat * 2 ^ 1 % 2 ^ 64 |||
    (x.toNat.testBit (n - place)).toNat) = _
  rw [hhigh, ← Nat.two_pow_add_eq_or_of_lt hlt, pow_one]

/-- The bits come out in the order of the table, and nothing above them. -/
theorem permuteBits_select (x : UInt64) {n : Nat} (hn : n ≤ 64) (table : List Nat)
    (hlength : table.length ≤ 64) (hplaces : ∀ place ∈ table, 0 < place ∧ place ≤ n) :
    (permuteBits x n table).toNat < 2 ^ table.length ∧
      bitString table.length (permuteBits x n table).toNat =
        select table (bitString n x.toNat) := by
  rw [select_bitString hplaces]
  induction table using List.reverseRecOn with
  | nil => exact ⟨Nat.one_pos, rfl⟩
  | append_singleton table place ih =>
    rw [List.length_append, List.length_singleton] at hlength
    obtain ⟨hpositive, hle⟩ := hplaces place (by simp)
    obtain ⟨hlt, hbefore⟩ := ih (by omega) fun place h => hplaces place (List.mem_append_left _ h)
    have hfits : 2 ^ table.length ≤ 2 ^ 63 := Nat.pow_le_pow_right (by decide) (by omega)
    have hbit := (x.toNat.testBit (n - place)).toNat_lt
    have hstep := permuteBits_append x hn hpositive table
    rw [Nat.mod_eq_of_lt (hlt.trans_le hfits)] at hstep
    have hhalf : (permuteBits x n (table ++ [place])).toNat / 2 =
        (permuteBits x n table).toNat := by omega
    have hlast : (permuteBits x n (table ++ [place])).toNat.testBit 0 =
        x.toNat.testBit (n - place) := by
      rw [hstep, Nat.testBit_zero]
      cases x.toNat.testBit (n - place) <;> simp
    rw [List.length_append, List.length_singleton]
    constructor
    · rw [pow_succ]
      omega
    · rw [bitString_succ, hhalf, hlast, hbefore, List.map_append, List.map_singleton]

section Rotate

variable {half count : UInt32}

theorem rotated_top (hhalf : half.toNat < 2 ^ 28) (hcount : count.toNat ≤ 28) :
    half.toNat / 2 ^ (28 - count.toNat) < 2 ^ count.toNat := by
  rwa [Nat.div_lt_iff_lt_mul (Nat.two_pow_pos _), ← pow_add, Nat.add_sub_of_le hcount]

theorem rotateHalf_toNat (hhalf : half.toNat < 2 ^ 28) (hcount : count.toNat ≤ 28) :
    (rotateHalf half count).toNat = half.toNat % 2 ^ (28 - count.toNat) * 2 ^ count.toNat +
      half.toNat / 2 ^ (28 - count.toNat) := by
  have hsub : (28 - count).toNat = 28 - count.toNat := UInt32.toNat_sub_of_le _ _ hcount
  have htop := rotated_top hhalf hcount
  have hsmall : half.toNat / 2 ^ (28 - count.toNat) < 2 ^ 28 :=
    (Nat.div_le_self _ _).trans_lt hhalf
  have hsum : 2 ^ 28 = 2 ^ (28 - count.toNat) * 2 ^ count.toNat := by
    rw [← pow_add, Nat.sub_add_cancel hcount]
  have hkept : half.toNat * 2 ^ count.toNat % 2 ^ 32 % 2 ^ 28 =
      half.toNat % 2 ^ (28 - count.toNat) * 2 ^ count.toNat := by
    rw [Nat.mod_mod_of_dvd _ (by decide), hsum, Nat.mul_mod_mul_right]
  have hmask : (0x0fffffff : UInt32).toNat = 2 ^ 28 - 1 := rfl
  rw [rotateHalf, UInt32.toNat_and, hmask, Nat.and_two_pow_sub_one_eq_mod, UInt32.toNat_or,
    Nat.or_mod_two_pow, UInt32.toNat_shiftLeft, UInt32.toNat_shiftRight, hsub,
    Nat.mod_eq_of_lt (by omega : count.toNat < 32),
    Nat.mod_eq_of_lt (by omega : 28 - count.toNat < 32), Nat.shiftLeft_eq,
    Nat.shiftRight_eq_div_pow, hkept, Nat.mod_eq_of_lt hsmall, Nat.mul_comm,
    ← Nat.two_pow_add_eq_or_of_lt htop]

theorem rotateHalf_bits (hhalf : half.toNat < 2 ^ 28) (hcount : count.toNat ≤ 28) :
    (rotateHalf half count).toNat < 2 ^ 28 ∧
      bitString 28 (rotateHalf half count).toNat =
        (bitString 28 half.toNat).rotate count.toNat := by
  have hsum : 2 ^ (28 - count.toNat) * 2 ^ count.toNat = 2 ^ 28 := by
    rw [← pow_add, Nat.sub_add_cancel hcount]
  have htop := rotated_top hhalf hcount
  have hlow := Nat.mod_lt half.toNat (Nat.two_pow_pos (28 - count.toNat))
  rw [rotateHalf_toNat hhalf hcount]
  constructor
  · calc half.toNat % 2 ^ (28 - count.toNat) * 2 ^ count.toNat +
          half.toNat / 2 ^ (28 - count.toNat)
        < (half.toNat % 2 ^ (28 - count.toNat) + 1) * 2 ^ count.toNat := by
          rw [Nat.succ_mul]
          omega
      _ ≤ 2 ^ (28 - count.toNat) * 2 ^ count.toNat := Nat.mul_le_mul_right _ hlow
      _ = 2 ^ 28 := hsum
  · have hparts := bitString_add count.toNat (28 - count.toNat) half.toNat
    rw [Nat.add_sub_of_le hcount] at hparts
    have hjoined := bitString_join (x := half.toNat % 2 ^ (28 - count.toNat))
      (28 - count.toNat) htop
    rw [Nat.sub_add_cancel hcount, bitString_mod] at hjoined
    rw [hjoined, List.rotate_eq_drop_append_take (by simpa using hcount), hparts,
      List.drop_left' (bitString_length _ _), List.take_left' (bitString_length _ _)]

end Rotate

def scheduleStart (key : List UInt8) : UInt32 × UInt32 × List UInt64 :=
  let permuted := permuteBits (load64Be key) 64 pc1
  ((permuted >>> 28).toUInt32, (permuted &&& 0x0fffffff).toUInt32, [])

def scheduleStep (index : Nat) (state : UInt32 × UInt32 × List UInt64) :
    UInt32 × UInt32 × List UInt64 :=
  let left := rotateHalf state.1 (rot.getD index 0)
  let right := rotateHalf state.2.1 (rot.getD index 0)
  (left, right, state.2.2 ++ [permuteBits ((left.toUInt64 <<< 28) ||| right.toUInt64) 56 pc2])

/-- The first `n` round keys of a key, from its halves after `n` rotations. -/
structure Scheduled (key : List Bool) (n : Nat) (state : UInt32 × UInt32 × List UInt64) : Prop where
  left_lt : state.1.toNat < 2 ^ 28
  right_lt : state.2.1.toNat < 2 ^ 28
  left : bitString 28 state.1.toNat = (keyHalves key n).1
  right : bitString 28 state.2.1.toNat = (keyHalves key n).2
  length : state.2.2.length = n
  keys : ∀ i < n, bitString 48 (state.2.2.getD i 0).toNat = keySchedule key (i + 1)

theorem halves_toNat {left right : UInt32} (hleft : left.toNat < 2 ^ 28)
    (hright : right.toNat < 2 ^ 28) :
    ((left.toUInt64 <<< 28) ||| right.toUInt64).toNat = left.toNat * 2 ^ 28 + right.toNat := by
  rw [UInt64.toNat_or, UInt64.toNat_shiftLeft, UInt32.toNat_toUInt64, UInt32.toNat_toUInt64,
    Nat.shiftLeft_eq]
  change left.toNat * 2 ^ 28 % 2 ^ 64 ||| right.toNat = _
  rw [Nat.mod_eq_of_lt (by omega), Nat.mul_comm, ← Nat.two_pow_add_eq_or_of_lt hright]

theorem scheduleStart_scheduled (key : List UInt8) :
    Scheduled (bitString 64 (load64Be key).toNat) 0 (scheduleStart key) := by
  obtain ⟨hlt, hbits⟩ := permuteBits_select (load64Be key) (le_refl 64) pc1
    (by decide) (by decide)
  have hhigh : ((permuteBits (load64Be key) 64 pc1) >>> 28).toUInt32.toNat =
      (permuteBits (load64Be key) 64 pc1).toNat / 2 ^ 28 := by
    rw [UInt64.toNat_toUInt32, UInt64.toNat_shiftRight, Nat.shiftRight_eq_div_pow]
    exact Nat.mod_eq_of_lt (by change _ / 2 ^ 28 < 2 ^ 32; change _ < 2 ^ 56 at hlt; omega)
  have hmask : (0x0fffffff : UInt64).toNat = 2 ^ 28 - 1 := rfl
  have hlow : ((permuteBits (load64Be key) 64 pc1) &&& 0x0fffffff).toUInt32.toNat =
      (permuteBits (load64Be key) 64 pc1).toNat % 2 ^ 28 := by
    rw [UInt64.toNat_toUInt32, UInt64.toNat_and, hmask, Nat.and_two_pow_sub_one_eq_mod]
    exact Nat.mod_eq_of_lt ((Nat.mod_lt _ (by decide)).trans (by decide))
  have hparts := bitString_add 28 28 (permuteBits (load64Be key) 64 pc1).toNat
  have hcut := hbits.symm.trans hparts
  refine ⟨?_, ?_, ?_, ?_, rfl, fun i hi => absurd hi (Nat.not_lt_zero i)⟩
  · rw [scheduleStart]
    dsimp only
    rw [hhigh]
    change _ < 2 ^ 56 at hlt
    omega
  · rw [scheduleStart]
    dsimp only
    rw [hlow]
    exact Nat.mod_lt _ (by decide)
  · rw [scheduleStart]
    dsimp only
    rw [hhigh, keyHalves]
    change _ = (select pc1 _).take 28
    rw [hcut, List.take_left' (bitString_length _ _)]
  · rw [scheduleStart]
    dsimp only
    rw [hlow, bitString_mod, keyHalves]
    change _ = (select pc1 _).drop 28
    rw [hcut, List.drop_left' (bitString_length _ _)]

theorem scheduleStep_scheduled {key : List Bool} {n : Nat} (hn : n < 16)
    {state : UInt32 × UInt32 × List UInt64} (h : Scheduled key n state) :
    Scheduled key (n + 1) (scheduleStep n state) := by
  have hshift : (rot.getD n 0).toNat = leftShifts.getD n 0 ∧ (rot.getD n 0).toNat ≤ 28 := by
    have hall : ∀ n < 16, (rot.getD n 0).toNat = leftShifts.getD n 0 ∧
        (rot.getD n 0).toNat ≤ 28 := by decide
    exact hall n hn
  obtain ⟨hleftlt, hleft⟩ := rotateHalf_bits h.left_lt hshift.2
  obtain ⟨hrightlt, hright⟩ := rotateHalf_bits h.right_lt hshift.2
  rw [h.left, hshift.1] at hleft
  rw [h.right, hshift.1] at hright
  obtain ⟨-, hkey⟩ := permuteBits_select (((rotateHalf state.1 (rot.getD n 0)).toUInt64 <<< 28) |||
    (rotateHalf state.2.1 (rot.getD n 0)).toUInt64) (show 56 ≤ 64 by decide) pc2 (by decide)
    (by decide)
  rw [halves_toNat hleftlt hrightlt, show 56 = 28 + 28 from rfl, bitString_join 28 hrightlt, hleft,
    hright] at hkey
  refine ⟨hleftlt, hrightlt, hleft, hright, ?_, ?_⟩
  · rw [scheduleStep, List.length_append, List.length_singleton, h.length]
  · intro i hi
    by_cases hlast : i < n
    · rw [scheduleStep, List.getD_append _ _ _ _ (by rwa [h.length])]
      exact h.keys i hlast
    · obtain rfl : i = n := by omega
      rw [scheduleStep, List.getD_append_right _ _ _ _ h.length.le, h.length, Nat.sub_self,
        keySchedule, keyHalves, List.getD_cons_zero]
      exact hkey

theorem desKeySchedule_eq (key : List UInt8) {i : Nat} (hi : i < 16) :
    bitString 48 ((desKeySchedule key).getD i 0).toNat =
      keySchedule (bitString 64 (load64Be key).toNat) (i + 1) :=
  (countUp_invariant (fun n state => Scheduled (bitString 64 (load64Be key).toNat) n state)
    (scheduleStart_scheduled key) fun _ hn _ h => scheduleStep_scheduled hn h).keys i hi

def desBlock (roundKeys : List UInt64) (encrypt : Bool) (x : UInt64) : UInt64 :=
  finalPermutation (desRounds (initialPermutation x) roundKeys encrypt)

section Rounds

variable {roundKeys : List UInt64} {encrypt : Bool} {keys : Nat → List Bool}

theorem desRounds_rounds (hkeys : ∀ i < 16,
      bitString 48 (roundKeys.getD (if encrypt then i else 15 - i) 0).toNat = keys (i + 1))
    (x : UInt64) :
    bitString 64 (desRounds x roundKeys encrypt).toNat =
      (rounds keys (bitString 32 (high x).toNat, bitString 32 (low x).toNat) 16).2 ++
        (rounds keys (bitString 32 (high x).toNat, bitString 32 (low x).toNat) 16).1 := by
  have hloop := countUp_invariant (n := 16) (s := (high x, low x)) (f := desRound roundKeys encrypt)
    (fun n state => rounds keys (bitString 32 (high x).toNat, bitString 32 (low x).toNat) n =
      (bitString 32 state.1.toNat, bitString 32 state.2.toNat)) ?_ ?_
  · rw [hloop, desRounds, join_bits]
  · rw [rounds]
  · intro i hi state hstate
    rw [rounds, hstate, desRound]
    dsimp only
    rw [UInt32.toNat_xor, bitString_xor, desRoundFunction_eq, hkeys i hi]

theorem desBlock_crypt (hkeys : ∀ i < 16,
      bitString 48 (roundKeys.getD (if encrypt then i else 15 - i) 0).toNat = keys (i + 1))
    (x : UInt64) :
    bitString 64 (desBlock roundKeys encrypt x).toNat = crypt keys (bitString 64 x.toNat) := by
  rw [desBlock, finalPermutation_select, desRounds_rounds hkeys, crypt, ← initialPermutation_select,
    bits_high_low (initialPermutation x), List.take_left' (bitString_length _ _),
    List.drop_left' (bitString_length _ _)]

end Rounds

theorem desBlock_encipher (key : List UInt8) (x : UInt64) :
    bitString 64 (desBlock (desKeySchedule key) true x).toNat =
      encipher (bitString 64 (load64Be key).toNat) (bitString 64 x.toNat) := by
  rw [encipher]
  apply desBlock_crypt
  intro i hi
  rw [if_pos rfl]
  exact desKeySchedule_eq key hi

theorem desBlock_decipher (key : List UInt8) (x : UInt64) :
    bitString 64 (desBlock (desKeySchedule key) false x).toNat =
      decipher (bitString 64 (load64Be key).toNat) (bitString 64 x.toNat) := by
  rw [decipher]
  apply desBlock_crypt
  intro i hi
  have hlast : 17 - (i + 1) = 15 - i + 1 := by omega
  rw [if_neg Bool.false_ne_true, hlast]
  exact desKeySchedule_eq key (by omega)

theorem desBlock_inverse (roundKeys : List UInt64) (encrypt : Bool) (x : UInt64) :
    desBlock roundKeys (!encrypt) (desBlock roundKeys encrypt x) = x := by
  rw [desBlock, desBlock, initialPermutation_finalPermutation, desRounds_inverse,
    finalPermutation_initialPermutation]

theorem tripleDesBlock_stages (x : UInt64) (k : RoundKeys) :
    tripleDesBlock x k true = desBlock k.third true (desBlock k.second false
      (desBlock k.first true x)) ∧
    tripleDesBlock x k false = desBlock k.first false (desBlock k.second true
      (desBlock k.third false x)) := by
  simp only [tripleDesBlock, desBlock, initialPermutation_finalPermutation, if_true,
    Bool.false_eq_true, if_false, and_self]

def keyBits (key : List UInt8) : List Bool := key.flatMap fun byte => bitString 8 byte.toNat

theorem bitString_beValue (bytes : List UInt8) :
    bitString (8 * bytes.length) (beValue bytes) = keyBits bytes := by
  induction bytes using List.reverseRecOn with
  | nil => rfl
  | append_singleton bytes byte ih =>
    have hjoin := bitString_join (x := beValue bytes) (8 * bytes.length) byte.toNat_lt
    rw [ih] at hjoin
    have hvalue : byte.toNat + 256 * beValue bytes = beValue bytes * 2 ^ 8 + byte.toNat := by ring
    rw [List.length_append, List.length_singleton, Nat.mul_add, Nat.mul_one, beValue_append_byte,
      hvalue, hjoin, keyBits, keyBits, List.flatMap_append, List.flatMap_singleton]

theorem load64Be_bits (key : List UInt8) (h : 8 ≤ key.length) :
    bitString 64 (load64Be key).toNat = keyBits (key.take 8) := by
  have hlength : (key.take 8).length = 8 := by rw [List.length_take]; omega
  have hload : load64Be key = load64Be (key.take 8) := by
    apply countUp_simulation (· = ·) rfl
    rintro index hindex value _ rfl
    rw [List.getD_eq_getElem _ _ (by omega), List.getD_eq_getElem _ _ (by omega), List.getElem_take]
  rw [hload, load64Be_toNat hlength, ← bitString_beValue, hlength]

theorem exists_word {bits : List Bool} (h : bits.length = 64) :
    ∃ x : UInt64, bitString 64 x.toNat = bits := by
  have hlt := ofBits_lt bits
  rw [h] at hlt
  refine ⟨UInt64.ofNat (ofBits bits), ?_⟩
  rw [UInt64.toNat_ofNat_of_lt' hlt, ← h, bitString_ofBits]

theorem decipher_encipher {key block : List Bool} (hkey : key.length = 64)
    (hblock : block.length = 64) :
    decipher key (encipher key block) = block ∧ encipher key (decipher key block) = block := by
  obtain ⟨k, rfl⟩ := exists_word hkey
  obtain ⟨x, rfl⟩ := exists_word hblock
  rw [← load64Be_store64Be k]
  constructor
  · rw [← desBlock_encipher, ← desBlock_decipher]
    exact congrArg (fun y => bitString 64 (UInt64.toNat y)) (desBlock_inverse _ true x)
  · rw [← desBlock_decipher, ← desBlock_encipher]
    exact congrArg (fun y => bitString 64 (UInt64.toNat y)) (desBlock_inverse _ false x)

/-- Triple DES is FIPS 46-3: each direction is the three operations of the standard under the
three keys, where deciphering is the inverse of enciphering. The round function is that of the
standard for every half block and round key, the networks are the tables, and the stages stand
between the permutations as if these had not been left out. -/
theorem tripleDes_fips46 {key : List UInt8} (hkey : key.length = 24) (x : UInt64) :
    bitString 64 (tripleDesBlock x (scheduleKeys key) true).toNat =
      encipher (keyBits (key.drop 16)) (decipher (keyBits ((key.drop 8).take 8))
        (encipher (keyBits (key.take 8)) (bitString 64 x.toNat))) ∧
    bitString 64 (tripleDesBlock x (scheduleKeys key) false).toNat =
      decipher (keyBits (key.take 8)) (encipher (keyBits ((key.drop 8).take 8))
        (decipher (keyBits (key.drop 16)) (bitString 64 x.toNat))) ∧
    (∀ k block : List Bool, k.length = 64 → block.length = 64 →
      decipher k (encipher k block) = block ∧ encipher k (decipher k block) = block) ∧
    (∀ right roundKey, bitString 32 (desRoundFunction right roundKey).toNat =
      cipherFunction (bitString 32 right.toNat) (bitString 48 roundKey.toNat)) ∧
    (∀ y, bitString 64 (initialPermutation y).toNat = select ip (bitString 64 y.toNat) ∧
      bitString 64 (finalPermutation y).toNat = select inverseIp (bitString 64 y.toNat)) ∧
    ∀ k : RoundKeys,
      tripleDesBlock x k true = desBlock k.third true (desBlock k.second false
        (desBlock k.first true x)) ∧
      tripleDesBlock x k false = desBlock k.first false (desBlock k.second true
        (desBlock k.third false x)) := by
  have hfirst := load64Be_bits key (by omega)
  have hsecond := load64Be_bits (key.drop 8) (by rw [List.length_drop]; omega)
  have hthird := load64Be_bits (key.drop 16) (by rw [List.length_drop]; omega)
  rw [List.take_of_length_le (by rw [List.length_drop]; omega)] at hthird
  obtain ⟨hencrypt, hdecrypt⟩ := tripleDesBlock_stages x (scheduleKeys key)
  refine ⟨?_, ?_, fun k block hk hblock => decipher_encipher hk hblock, desRoundFunction_eq,
    fun y => ⟨initialPermutation_select y, finalPermutation_select y⟩, tripleDesBlock_stages x⟩
  · rw [hencrypt, scheduleKeys]
    rw [desBlock_encipher, desBlock_decipher, desBlock_encipher, hfirst, hsecond, hthird]
  · rw [hdecrypt, scheduleKeys]
    rw [desBlock_decipher, desBlock_encipher, desBlock_decipher, hfirst, hsecond, hthird]

def sampleKey : List UInt8 :=
  [0x01, 0x23, 0x45, 0x67, 0x89, 0xab, 0xcd, 0xef, 0x23, 0x45, 0x67, 0x89, 0xab, 0xcd, 0xef, 0x01,
    0x45, 0x67, 0x89, 0xab, 0xcd, 0xef, 0x01, 0x23]

theorem tripleDes_fips46_sample :
    bitString 64 0x714772f339841d34 =
      encipher (keyBits (sampleKey.drop 16)) (decipher (keyBits ((sampleKey.drop 8).take 8))
        (encipher (keyBits (sampleKey.take 8)) (bitString 64 0x6bc1bee22e409f96))) ∧
    bitString 64 0x6bc1bee22e409f96 =
      decipher (keyBits (sampleKey.take 8)) (encipher (keyBits ((sampleKey.drop 8).take 8))
        (decipher (keyBits (sampleKey.drop 16)) (bitString 64 0x714772f339841d34))) := by
  have hlength : sampleKey.length = 24 := rfl
  have hencrypt : tripleDesBlock 0x6bc1bee22e409f96 (scheduleKeys sampleKey) true =
    0x714772f339841d34 := by decide +kernel
  have hdecrypt : tripleDesBlock 0x714772f339841d34 (scheduleKeys sampleKey) false =
    0x6bc1bee22e409f96 := by decide +kernel
  obtain ⟨hforward, -⟩ := tripleDes_fips46 hlength 0x6bc1bee22e409f96
  obtain ⟨-, hbackward, -⟩ := tripleDes_fips46 hlength 0x714772f339841d34
  rw [hencrypt] at hforward
  rw [hdecrypt] at hbackward
  exact ⟨hforward, hbackward⟩

end LiberaCrypt.TripleDesCorrect
