import LiberaCrypt.Def
import LiberaCrypt.DesStandard
import LiberaCrypt.Endian
import LiberaCrypt.Feistel
import Mathlib.Data.List.GetD

namespace LiberaCrypt.TripleDes

open LiberaCrypt.BigEndian LiberaCrypt.CountedLoop LiberaCrypt.Endian LiberaCrypt.Feistel
open LiberaCrypt.Outcome

def pc1 : List Nat :=
  [57, 49, 41, 33, 25, 17, 9, 1, 58, 50, 42, 34, 26, 18, 10, 2, 59, 51, 43, 35, 27, 19, 11, 3, 60,
    52, 44, 36, 63, 55, 47, 39, 31, 23, 15, 7, 62, 54, 46, 38, 30, 22, 14, 6, 61, 53, 45, 37, 29,
    21, 13, 5, 28, 20, 12, 4]

def pc2 : List Nat :=
  [14, 17, 11, 24, 1, 5, 3, 28, 15, 6, 21, 10, 23, 19, 12, 4, 26, 8, 16, 7, 27, 20, 13, 2, 41, 52,
    31, 37, 47, 55, 30, 40, 51, 45, 33, 48, 44, 49, 39, 56, 34, 53, 46, 42, 50, 36, 29, 32]

def rot : List UInt32 := [1, 1, 2, 2, 2, 2, 2, 2, 1, 2, 2, 2, 2, 2, 2, 1]

def sboxOutputMasks : List UInt32 :=
  [0x00808202, 0x40084010, 0x04010104, 0x80401040, 0x21040080, 0x10202008, 0x02100401, 0x08020820]

def truthTable : List UInt32 :=
  [0xd8d8dbbc, 0xd73559c1, 0x8306f441, 0x3dabeafe, 0x1cec9542, 0x8a408efb, 0xf079253f, 0xcf34d510,
    0x721726b5, 0x4cfef21c, 0x4deadaa6, 0xf2471ac9, 0xeda34bcf, 0x338fa826, 0x16d508d1, 0xe048253f,
    0x8f0a4602, 0x28bc163d, 0x7cd56b19, 0x8240bf20, 0x6223abc1, 0x37d7e0a8, 0xaf9fd4bc, 0x59bb1bcf,
    0xb77c897e, 0xe0810592, 0x00a1344b, 0x3f7ae567, 0x091474bc, 0x4d697b47, 0xf36abb62, 0x949644d0,
    0x1647a960, 0xa5dac69a, 0x587b189e, 0x83e8bd45, 0xf2a1e679, 0x4fbf0121, 0x67986989, 0x30465aa9,
    0x49b899c3, 0x7241e064, 0xbf458774, 0xcd9e619a, 0xbe5e56bc, 0x982035db, 0x81b27643, 0x7f358e66,
    0xa5e4f7df, 0xda2fe8e3, 0xa79a8421, 0x7fb513be, 0x89de041e, 0xc8017b16, 0x78659b73, 0xa7f8a65d,
    0x8c0f7aa2, 0x05b21fcd, 0x72d26b8c, 0x84455c30, 0x5221a967, 0x724e8634, 0x4d2d549c, 0x38dbf9cb]

def load64Be (input : List UInt8) : UInt64 :=
  countUp 8 (fun index value => (value <<< 8) ||| (input.getD index 0).toUInt64) 0

def store64Be (value : UInt64) : List UInt8 :=
  (List.range 8).map fun index => (value >>> UInt64.ofNat (8 * (7 - index))).toUInt8

def permuteBits (input : UInt64) (inputBits : Nat) (table : List Nat) : UInt64 :=
  table.foldl (fun output place =>
    (output <<< 1) ||| ((input >>> UInt64.ofNat (inputBits - place)) &&& 1)) 0

def high (block : UInt64) : UInt32 := (block >>> 32).toUInt32

def low (block : UInt64) : UInt32 := block.toUInt32

def join (left right : UInt32) : UInt64 := (left.toUInt64 <<< 32) ||| right.toUInt64

/-- Some bits of `a` change places with the bits of `b` that are `shift` below. -/
def exchange (shift mask : UInt32) (a b : UInt32) : UInt32 × UInt32 :=
  let temporary := ((a >>> shift) ^^^ b) &&& mask
  (a ^^^ (temporary <<< shift), b ^^^ temporary)

def initialPermutation (input : UInt64) : UInt64 :=
  let (left, right) := exchange 4 0x0f0f0f0f (high input) (low input)
  let (left, right) := exchange 16 0x0000ffff left right
  let (right, left) := exchange 2 0x33333333 right left
  let (right, left) := exchange 8 0x00ff00ff right left
  let (left, right) := exchange 1 0x55555555 left right
  join left right

def finalPermutation (input : UInt64) : UInt64 :=
  let (left, right) := exchange 1 0x55555555 (high input) (low input)
  let (right, left) := exchange 8 0x00ff00ff right left
  let (right, left) := exchange 2 0x33333333 right left
  let (left, right) := exchange 16 0x0000ffff left right
  let (left, right) := exchange 4 0x0f0f0f0f left right
  join left right

def expand (right : UInt32) : UInt64 :=
  ((((right &&& 1) <<< 5) ||| (right >>> 27)).toUInt64 <<< 42) |||
    (((right >>> 23) &&& 63).toUInt64 <<< 36) ||| (((right >>> 19) &&& 63).toUInt64 <<< 30) |||
    (((right >>> 15) &&& 63).toUInt64 <<< 24) ||| (((right >>> 11) &&& 63).toUInt64 <<< 18) |||
    (((right >>> 7) &&& 63).toUInt64 <<< 12) ||| (((right >>> 3) &&& 63).toUInt64 <<< 6) |||
    (((right &&& 31) <<< 1) ||| (right >>> 31)).toUInt64

/-- The bit of each box that an input bit selects with, where the outputs of the box are. -/
def plane (expanded : UInt64) (bit : Nat) : UInt32 :=
  countUp 8 (fun box plane =>
    let input := (expanded >>> UInt64.ofNat (42 - 6 * box)).toUInt32 &&& 63
    let mask := 0 - ((input >>> UInt32.ofNat bit) &&& 1)
    plane ||| (mask &&& sboxOutputMasks.getD box 0)) 0

/-- One level of the selection: each pair of functions becomes one. -/
def selectPairs (plane : UInt32) (count : Nat) (nodes : List UInt32) : List UInt32 :=
  (List.range count).map fun index =>
    let left := nodes.getD (2 * index) 0
    left ^^^ (plane &&& (left ^^^ nodes.getD (2 * index + 1) 0))

def desRoundFunction (right : UInt32) (roundKey : UInt64) : UInt32 :=
  let expanded := expand right ^^^ roundKey
  let nodes := countUp 6 (fun bit nodes =>
    selectPairs (plane expanded bit) (2 ^ (5 - bit)) nodes) truthTable
  nodes.getD 0 0

def rotateHalf (half count : UInt32) : UInt32 :=
  ((half <<< count) ||| (half >>> (28 - count))) &&& 0x0fffffff

def desKeySchedule (key : List UInt8) : List UInt64 :=
  let permuted := permuteBits (load64Be key) 64 pc1
  let step := fun (index : Nat) (state : UInt32 × UInt32 × List UInt64) =>
    let left := rotateHalf state.1 (rot.getD index 0)
    let right := rotateHalf state.2.1 (rot.getD index 0)
    (left, right, state.2.2 ++ [permuteBits ((left.toUInt64 <<< 28) ||| right.toUInt64) 56 pc2])
  (countUp 16 step ((permuted >>> 28).toUInt32, (permuted &&& 0x0fffffff).toUInt32, [])).2.2

def desRound (roundKeys : List UInt64) (encrypt : Bool) (round : Nat) (state : UInt32 × UInt32) :
    UInt32 × UInt32 :=
  let key := roundKeys.getD (if encrypt then round else 15 - round) 0
  (state.2, state.1 ^^^ desRoundFunction state.2 key)

def desRounds (input : UInt64) (roundKeys : List UInt64) (encrypt : Bool) : UInt64 :=
  let state := countUp 16 (desRound roundKeys encrypt) (high input, low input)
  join state.2 state.1

structure RoundKeys where
  first : List UInt64
  second : List UInt64
  third : List UInt64

def tripleDesBlock (block : UInt64) (roundKeys : RoundKeys) (encrypt : Bool) : UInt64 :=
  let state := initialPermutation block
  let state :=
    if encrypt then
      let state := desRounds state roundKeys.first true
      let state := desRounds state roundKeys.second false
      desRounds state roundKeys.third true
    else
      let state := desRounds state roundKeys.third false
      let state := desRounds state roundKeys.second true
      desRounds state roundKeys.first false
  finalPermutation state

def scheduleKeys (key : List UInt8) : RoundKeys :=
  ⟨desKeySchedule key, desKeySchedule (key.drop 8), desKeySchedule (key.drop 16)⟩

theorem join_toNat (left right : UInt32) :
    (join left right).toNat = left.toNat * 2 ^ 32 + right.toNat := by
  have hleft := left.toNat_lt
  have hright := right.toNat_lt
  rw [join, UInt64.toNat_or, UInt64.toNat_shiftLeft]
  simp only [UInt32.toNat_toUInt64]
  rw [show (32 : UInt64).toNat % 64 = 32 from rfl, Nat.shiftLeft_eq, Nat.mod_eq_of_lt (by omega),
    Nat.mul_comm, ← Nat.two_pow_add_eq_or_of_lt hright]

theorem high_toNat (x : UInt64) : (high x).toNat = x.toNat / 2 ^ 32 := by
  have hx := x.toNat_lt
  rw [high, UInt64.toNat_toUInt32, UInt64.toNat_shiftRight,
    show (32 : UInt64).toNat % 64 = 32 from rfl, Nat.shiftRight_eq_div_pow]
  omega

theorem low_toNat (x : UInt64) : (low x).toNat = x.toNat % 2 ^ 32 := UInt64.toNat_toUInt32 x

@[simp] theorem high_join (left right : UInt32) : high (join left right) = left := by
  have hright := right.toNat_lt
  apply UInt32.toNat_inj.mp
  rw [high_toNat, join_toNat]
  omega

@[simp] theorem low_join (left right : UInt32) : low (join left right) = right := by
  have hright := right.toNat_lt
  apply UInt32.toNat_inj.mp
  rw [low_toNat, join_toNat]
  omega

@[simp] theorem join_high_low (x : UInt64) : join (high x) (low x) = x := by
  apply UInt64.toNat_inj.mp
  rw [join_toNat, high_toNat, low_toNat]
  omega

theorem shift_back {x shift : UInt32} (hshift : shift.toNat < 32)
    (hx : x.toNat < 2 ^ (32 - shift.toNat)) : (x <<< shift) >>> shift = x := by
  apply UInt32.toNat_inj.mp
  have hfits : x.toNat * 2 ^ shift.toNat < 2 ^ 32 := by
    calc x.toNat * 2 ^ shift.toNat
        < 2 ^ (32 - shift.toNat) * 2 ^ shift.toNat := Nat.mul_lt_mul_of_pos_right hx (by positivity)
      _ = 2 ^ 32 := by rw [← pow_add, Nat.sub_add_cancel hshift.le]
  rw [UInt32.toNat_shiftRight, UInt32.toNat_shiftLeft, Nat.mod_eq_of_lt hshift, Nat.shiftLeft_eq,
    Nat.mod_eq_of_lt hfits, Nat.shiftRight_eq_div_pow, Nat.mul_div_cancel _ (by positivity)]

theorem exchange_twice {shift mask a b a' b' : UInt32} (hshift : shift.toNat < 32)
    (hmask : mask.toNat < 2 ^ (32 - shift.toNat)) (h : exchange shift mask a b = (a', b')) :
    exchange shift mask a' b' = (a, b) := by
  obtain ⟨rfl, rfl⟩ := Prod.mk.inj h
  generalize htemporary : ((a >>> shift) ^^^ b) &&& mask = t
  have hsmall : t.toNat < 2 ^ (32 - shift.toNat) := by
    rw [← htemporary, UInt32.toNat_and]
    exact Nat.and_le_right.trans_lt hmask
  have hshifted : (a ^^^ (t <<< shift)) >>> shift = (a >>> shift) ^^^ t := by
    have hdistrib : (a ^^^ (t <<< shift)) >>> shift = (a >>> shift) ^^^ ((t <<< shift) >>> shift) :=
      UInt32.toBitVec_inj.mp (BitVec.ushiftRight_xor_distrib _ _ _)
    rw [hdistrib, shift_back hshift hsmall]
  have hsame : (((a ^^^ (t <<< shift)) >>> shift) ^^^ (b ^^^ t)) &&& mask = t := by
    have hcancel : (a >>> shift) ^^^ t ^^^ (b ^^^ t) = (a >>> shift) ^^^ b := by
      rw [UInt32.xor_comm b t, ← UInt32.xor_assoc, UInt32.xor_assoc _ t t, UInt32.xor_self,
        UInt32.xor_zero]
    rw [hshifted, hcancel, htemporary]
  rw [exchange, hsame, UInt32.xor_assoc, UInt32.xor_self, UInt32.xor_zero, UInt32.xor_assoc, UInt32.xor_self,
    UInt32.xor_zero]

theorem finalPermutation_initialPermutation (x : UInt64) :
    finalPermutation (initialPermutation x) = x := by
  rcases h1 : exchange 4 0x0f0f0f0f (high x) (low x) with ⟨l1, r1⟩
  rcases h2 : exchange 16 0x0000ffff l1 r1 with ⟨l2, r2⟩
  rcases h3 : exchange 2 0x33333333 r2 l2 with ⟨r3, l3⟩
  rcases h4 : exchange 8 0x00ff00ff r3 l3 with ⟨r4, l4⟩
  rcases h5 : exchange 1 0x55555555 l4 r4 with ⟨l5, r5⟩
  have hinitial : initialPermutation x = join l5 r5 := by
    simp only [initialPermutation, h1, h2, h3, h4, h5]
  rw [hinitial]
  simp only [finalPermutation, high_join, low_join, exchange_twice (by decide) (by decide) h1,
    exchange_twice (by decide) (by decide) h2, exchange_twice (by decide) (by decide) h3,
    exchange_twice (by decide) (by decide) h4, exchange_twice (by decide) (by decide) h5,
    join_high_low]

theorem initialPermutation_finalPermutation (x : UInt64) :
    initialPermutation (finalPermutation x) = x := by
  rcases h1 : exchange 1 0x55555555 (high x) (low x) with ⟨l1, r1⟩
  rcases h2 : exchange 8 0x00ff00ff r1 l1 with ⟨r2, l2⟩
  rcases h3 : exchange 2 0x33333333 r2 l2 with ⟨r3, l3⟩
  rcases h4 : exchange 16 0x0000ffff l3 r3 with ⟨l4, r4⟩
  rcases h5 : exchange 4 0x0f0f0f0f l4 r4 with ⟨l5, r5⟩
  have hfinal : finalPermutation x = join l5 r5 := by
    simp only [finalPermutation, h1, h2, h3, h4, h5]
  rw [hfinal]
  simp only [initialPermutation, high_join, low_join, exchange_twice (by decide) (by decide) h1,
    exchange_twice (by decide) (by decide) h2, exchange_twice (by decide) (by decide) h3,
    exchange_twice (by decide) (by decide) h4, exchange_twice (by decide) (by decide) h5,
    join_high_low]

def keyedRound (roundKeys : List UInt64) : Nat → UInt32 × UInt32 → UInt32 × UInt32 :=
  round (· ^^^ ·) fun i half => desRoundFunction half (roundKeys.getD i 0)

theorem desRounds_true (x : UInt64) (roundKeys : List UInt64) :
    desRounds x roundKeys true =
      join (countUp 16 (keyedRound roundKeys) (high x, low x)).2
        (countUp 16 (keyedRound roundKeys) (high x, low x)).1 := rfl

theorem desRounds_false (x : UInt64) (roundKeys : List UInt64) :
    desRounds x roundKeys false =
      join (countDown 16 (keyedRound roundKeys) (high x, low x)).2
        (countDown 16 (keyedRound roundKeys) (high x, low x)).1 := by
  have hstep : desRound roundKeys false = fun i => keyedRound roundKeys (16 - 1 - i) := by
    funext i state
    rfl
  rw [desRounds, hstep, countUp_reversed]

theorem desRounds_inverse (x : UInt64) (roundKeys : List UInt64) (encrypt : Bool) :
    desRounds (desRounds x roundKeys encrypt) roundKeys (!encrypt) = x := by
  have hmix : ∀ x y : UInt32, x ^^^ y ^^^ y = x := by
    intro x y
    rw [UInt32.xor_assoc, UInt32.xor_self, UInt32.xor_zero]
  cases encrypt with
  | true =>
    have hback : countDown 16 (keyedRound roundKeys)
        ((countUp 16 (keyedRound roundKeys) (high x, low x)).2,
          (countUp 16 (keyedRound roundKeys) (high x, low x)).1) = (low x, high x) :=
      @down_up UInt32 (· ^^^ ·) _ hmix 16 (high x, low x)
    rw [desRounds_true, Bool.not_true, desRounds_false, high_join, low_join, hback, join_high_low]
  | false =>
    have hback : countUp 16 (keyedRound roundKeys)
        ((countDown 16 (keyedRound roundKeys) (high x, low x)).2,
          (countDown 16 (keyedRound roundKeys) (high x, low x)).1) = (low x, high x) :=
      @up_down UInt32 (· ^^^ ·) _ hmix 16 (high x, low x)
    rw [desRounds_false, Bool.not_false, desRounds_true, high_join, low_join, hback, join_high_low]

theorem tripleDesBlock_inverse (x : UInt64) (roundKeys : RoundKeys) (encrypt : Bool) :
    tripleDesBlock (tripleDesBlock x roundKeys encrypt) roundKeys (!encrypt) = x := by
  have hdecrypt := fun x keys => desRounds_inverse x keys true
  have hencrypt := fun x keys => desRounds_inverse x keys false
  rw [Bool.not_true] at hdecrypt
  rw [Bool.not_false] at hencrypt
  cases encrypt with
  | true =>
    simp only [tripleDesBlock, Bool.not_true, if_true, Bool.false_eq_true, if_false,
      initialPermutation_finalPermutation, hdecrypt, hencrypt, finalPermutation_initialPermutation]
  | false =>
    simp only [tripleDesBlock, Bool.not_false, if_true, Bool.false_eq_true, if_false,
      initialPermutation_finalPermutation, hdecrypt, hencrypt, finalPermutation_initialPermutation]

theorem load64Be_toNat {input : List UInt8} (h : input.length = 8) :
    (load64Be input).toNat = beValue input := by
  have hloop := countUp_invariant
    (fun i (value : UInt64) => value.toNat = beValue (input.take i)) (n := 8) (s := 0)
    (f := fun index value => (value <<< 8) ||| (input.getD index 0).toUInt64) (by simp) ?_
  · rwa [List.take_of_length_le h.le] at hloop
  · intro i hi value hvalue
    have hbyte := (input.getD i 0).toNat_lt
    have hbound := beValue_lt (input.take i)
    have htake : input.take (i + 1) = input.take i ++ [input.getD i 0] := by
      rw [List.take_succ_eq_append_getElem (by omega), List.getD_eq_getElem _ _ (by omega)]
    have hroom : value.toNat * 2 ^ 8 < 2 ^ 64 := by
      have hpow : 256 ^ (input.take i).length ≤ 256 ^ 7 :=
        Nat.pow_le_pow_right (by decide) (by rw [List.length_take]; omega)
      rw [hvalue]
      omega
    rw [htake, beValue_append_byte, UInt64.toNat_or, UInt64.toNat_shiftLeft, UInt8.toNat_toUInt64,
      show (8 : UInt64).toNat % 64 = 8 from rfl, Nat.shiftLeft_eq, Nat.mod_eq_of_lt hroom,
      Nat.mul_comm, ← Nat.two_pow_add_eq_or_of_lt hbyte, hvalue, Nat.add_comm]

theorem store64Be_eq (value : UInt64) : store64Be value = bigEndian 8 value.toNat := by
  have hbyte : ∀ k < 64, (value >>> UInt64.ofNat k).toUInt8 = UInt8.ofNat (value.toNat / 2 ^ k) := by
    intro k hk
    apply UInt8.toNat_inj.mp
    rw [UInt64.toNat_toUInt8, UInt64.toNat_shiftRight, UInt8.toNat_ofNat',
      UInt64.toNat_ofNat_of_lt' (by rw [UInt64.size]; omega), Nat.mod_eq_of_lt hk,
      Nat.shiftRight_eq_div_pow]
  have hbytes : store64Be value =
      (List.range 8).map fun index => UInt8.ofNat (value.toNat / 2 ^ (8 * (7 - index))) :=
    List.map_congr_left fun index _ => hbyte _ (by omega)
  rw [hbytes]
  simp only [bigEndian, List.nil_append, List.cons_append, Nat.div_div_eq_div_mul]
  simp [List.range_succ]

theorem load64Be_store64Be (value : UInt64) : load64Be (store64Be value) = value := by
  apply UInt64.toNat_inj.mp
  rw [load64Be_toNat (by simp [store64Be]), store64Be_eq, beValue_bigEndian]
  exact Nat.mod_eq_of_lt value.toNat_lt

theorem store64Be_load64Be {input : List UInt8} (h : input.length = 8) :
    store64Be (load64Be input) = input := by
  rw [store64Be_eq, load64Be_toNat h, ← h, bigEndian_beValue]

end LiberaCrypt.TripleDes
