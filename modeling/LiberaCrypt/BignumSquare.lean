import LiberaCrypt.BignumMul

namespace LiberaCrypt.BignumSquare

open LiberaCrypt.Outcome LiberaCrypt.Allocation LiberaCrypt.Limbs LiberaCrypt.Bignum
open LiberaCrypt.BignumMul

/-- `while (carry != 0 && offset < limb_count)`; the carry may take two limbs. -/
def squareCarry : List UInt32 → UInt64 → List UInt32 × UInt64
  | [], carry => ([], carry)
  | x :: xs, carry =>
    if carry = 0 then (x :: xs, 0)
    else
      let sum := x.toUInt64 + carry.toUInt32.toUInt64
      let rest := squareCarry xs ((carry >>> 32) + (sum >>> 32))
      (sum.toUInt32 :: rest.1, rest.2)

def bignumSquareAddProduct (limbs : List UInt32) (offset : Nat) (product : UInt64) :
    Option (List UInt32) :=
  match limbs.drop offset with
  | [] => none
  | x :: high =>
    let sum := x.toUInt64 + product.toUInt32.toUInt64
    let rest := squareCarry high ((product >>> 32) + (sum >>> 32))
    if rest.2 = 0 then some (limbs.take offset ++ sum.toUInt32 :: rest.1) else none

/-- Twice a product takes up to 65 bits and is added in pieces of 32. -/
def bignumSquareAddDoubleProduct (limbs : List UInt32) (offset : Nat) (product : UInt64) :
    Option (List UInt32) :=
  let lowTwice : UInt64 := product.toUInt32.toUInt64 <<< 1
  let highTwice : UInt64 := (product >>> 32) * (2 : UInt64) + (lowTwice >>> 32)
  match limbs.drop offset with
  | [] => none
  | [x] =>
    let sum := x.toUInt64 + lowTwice.toUInt32.toUInt64
    if highTwice ||| (sum >>> 32) = 0 then some (limbs.take offset ++ [sum.toUInt32]) else none
  | x :: y :: high =>
    let sum := x.toUInt64 + lowTwice.toUInt32.toUInt64
    let next := y.toUInt64 + highTwice.toUInt32.toUInt64 + (sum >>> 32)
    let rest := squareCarry high ((highTwice >>> 32) + (next >>> 32))
    if rest.2 = 0 then some (limbs.take offset ++ sum.toUInt32 :: next.toUInt32 :: rest.1) else none

def squareCross (x : UInt32) : List UInt32 → Nat → List UInt32 → Option (List UInt32)
  | [], _, limbs => some limbs
  | y :: ys, offset, limbs => do
    let limbs ← bignumSquareAddDoubleProduct limbs offset (x.toUInt64 * y.toUInt64)
    squareCross x ys (offset + 1) limbs

def squareRows : List UInt32 → Nat → List UInt32 → Option (List UInt32)
  | [], _, limbs => some limbs
  | x :: xs, i, limbs => do
    let limbs ← bignumSquareAddProduct limbs (2 * i) (x.toUInt64 * x.toUInt64)
    let limbs ← squareCross x xs (i + (i + 1)) limbs
    squareRows xs (i + 1) limbs

def bignumSquareNoalias (out a : LiberaCBignum) : Fallible LiberaCBignum :=
  let n := a.length
  if n = 0 then pure ⟨bignumClearStaleTail out.limbs out.length 0, 0⟩
  else if sizeMax / 2 < n then throw .messageTooLarge
  else do
    let limbs := 2 * n
    let grown ← reported (bignumReserve out limbs) .allocationFailed
    match squareRows a.words 0 (List.replicate limbs 0) with
    | none => throw .arithmetic
    | some square => pure (bignumNormalize
        ⟨bignumClearStaleTail (storeWords grown.limbs square) out.length limbs, limbs⟩)

/-- `aliased` says that `out` is `a`. -/
def cryptoBignumSquare (out a : LiberaCBignum) (aliased : Bool) : Fallible LiberaCBignum :=
  bignumSquareNoalias (if aliased then cryptoBignumInit else out) a

variable {a out : LiberaCBignum} {l x : List UInt32} {room : Nat}

@[simp] theorem squareCarry_length (c : UInt64) : (squareCarry l c).1.length = l.length := by
  induction l generalizing c with
  | nil => rfl
  | cons d l ih =>
    unfold squareCarry
    split
    · rfl
    · simp [ih]

/-- One limb takes the low half of a carry and passes on the rest. -/
theorem carry_step (d : UInt32) (c : UInt64) :
    (d.toUInt64 + c.toUInt32.toUInt64).toUInt32.toNat +
        wordBase * ((c >>> 32) + ((d.toUInt64 + c.toUInt32.toUInt64) >>> 32)).toNat =
      d.toNat + c.toNat := by
  have hsum := add_toNat (a := d) (b := c.toUInt32) (c := 0) wordBase_pos
  rw [UInt64.add_zero, UInt64.toNat_zero, Nat.add_zero] at hsum
  have hhigh := high_lt c
  have hhigh' := high_lt (d.toUInt64 + c.toUInt32.toUInt64)
  have hsplit := split_word c
  have hsplit' := split_word (d.toUInt64 + c.toUInt32.toUInt64)
  have hcarry : ((c >>> 32) + ((d.toUInt64 + c.toUInt32.toUInt64) >>> 32)).toNat =
      (c >>> 32).toNat + ((d.toUInt64 + c.toUInt32.toUInt64) >>> 32).toNat := by
    rw [UInt64.toNat_add]
    simp only [wordBase] at hhigh hhigh'
    omega
  rw [hsum] at hsplit'
  rw [hcarry, Nat.mul_add]
  omega

theorem squareCarry_value (c : UInt64) :
    wordsValue (squareCarry l c).1 + wordBase ^ l.length * (squareCarry l c).2.toNat =
      wordsValue l + c.toNat := by
  induction l generalizing c with
  | nil => simp [squareCarry]
  | cons d l ih =>
    unfold squareCarry
    by_cases h : c = 0
    · rw [if_pos h, h]
      simp
    · have hrest := ih ((c >>> 32) + ((d.toUInt64 + c.toUInt32.toUInt64) >>> 32))
      have hz := carry_step d c
      rw [if_neg h]
      simp only [wordsValue_cons, List.length_cons]
      linear_combination hz + wordBase * hrest

/-- What is added above `offset` stays below the top of the buffer. -/
theorem high_bound {o v : Nat} (hoffset : o ≤ l.length)
    (h : wordsValue l + wordBase ^ o * v < wordBase ^ l.length) :
    wordsValue (l.drop o) + v < wordBase ^ (l.drop o).length := by
  have hsplit := wordsValue_take_drop l o hoffset
  have hpow : wordBase ^ l.length = wordBase ^ o * wordBase ^ (l.drop o).length := by
    rw [← pow_add, List.length_drop, Nat.add_sub_cancel' hoffset]
  rw [hsplit, hpow] at h
  apply Nat.lt_of_mul_lt_mul_left (a := wordBase ^ o)
  rw [Nat.mul_add]
  omega

theorem replaced_value {o : Nat} (hoffset : o ≤ l.length) (h : List UInt32) :
    wordsValue (l.take o ++ h) + wordBase ^ o * wordsValue (l.drop o) =
      wordsValue l + wordBase ^ o * wordsValue h := by
  have hsplit := wordsValue_take_drop l o hoffset
  have htake : (l.take o).length = o := by
    rw [List.length_take, Nat.min_eq_left hoffset]
  rw [wordsValue_append, htake, hsplit]
  ring

theorem bignumSquareAddProduct_some {o : Nat} {p : UInt64} (hoffset : o < l.length)
    (h : wordsValue l + wordBase ^ o * p.toNat < wordBase ^ l.length) :
    ∃ r, bignumSquareAddProduct l o p = some r ∧ r.length = l.length ∧
      wordsValue r = wordsValue l + wordBase ^ o * p.toNat := by
  have hbound := high_bound hoffset.le h
  have hreplaced := replaced_value hoffset.le (l := l)
  have hlen : (l.drop o).length = l.length - o := List.length_drop
  unfold bignumSquareAddProduct
  cases hdrop : l.drop o with
  | nil =>
    rw [hdrop, List.length_nil] at hlen
    omega
  | cons d high =>
    rw [hdrop] at hbound hreplaced hlen
    have hcarry := squareCarry_value (l := high)
      ((p >>> 32) + ((d.toUInt64 + p.toUInt32.toUInt64) >>> 32))
    have hstep := carry_step d p
    dsimp only
    generalize hr : squareCarry high ((p >>> 32) + ((d.toUInt64 + p.toUInt32.toUInt64) >>> 32)) = r
      at *
    have hrlen : r.1.length = high.length := by rw [← hr, squareCarry_length]
    have htotal : wordsValue ((d.toUInt64 + p.toUInt32.toUInt64).toUInt32 :: r.1) +
        wordBase ^ (d :: high).length * r.2.toNat = wordsValue (d :: high) + p.toNat := by
      rw [wordsValue_cons, wordsValue_cons, List.length_cons]
      linear_combination hstep + wordBase * hcarry
    rw [← htotal] at hbound
    have hzero : r.2 = 0 := UInt64.toNat_inj.mp (high_eq_zero hbound)
    rw [if_pos hzero]
    refine ⟨_, rfl, ?_, ?_⟩
    · simp only [List.length_append, List.length_take, List.length_cons, hrlen] at hlen ⊢
      omega
    · have hsum := hreplaced ((d.toUInt64 + p.toUInt32.toUInt64).toUInt32 :: r.1)
      rw [hzero, UInt64.toNat_zero, Nat.mul_zero, Nat.add_zero] at htotal
      rw [htotal, Nat.mul_add] at hsum
      omega

/-- The two pieces of `2 * product` that the first limb separates. -/
theorem twice_split (p : UInt64) :
    (p.toUInt32.toUInt64 <<< 1).toUInt32.toNat +
        wordBase * ((p >>> 32) * (2 : UInt64) + ((p.toUInt32.toUInt64 <<< 1) >>> 32)).toNat =
      2 * p.toNat := by
  have hlow := word_lt p.toUInt32
  have hhigh := high_lt p
  have hsplit := split_word p
  have htwice : (p.toUInt32.toUInt64 <<< 1).toNat = 2 * p.toUInt32.toNat := by
    simp only [wordBase] at hlow
    rw [UInt64.toNat_shiftLeft, UInt32.toNat_toUInt64]
    change (p.toUInt32.toNat <<< 1) % 2 ^ 64 = _
    rw [Nat.shiftLeft_eq]
    omega
  have hsplit' := split_word (p.toUInt32.toUInt64 <<< 1)
  have hhigh' : ((p.toUInt32.toUInt64 <<< 1) >>> 32).toNat ≤ 1 := by
    rw [high_toNat, htwice]
    apply Nat.le_of_lt_succ
    apply Nat.div_lt_of_lt_mul
    omega
  have hsum : ((p >>> 32) * (2 : UInt64) + ((p.toUInt32.toUInt64 <<< 1) >>> 32)).toNat =
      (p >>> 32).toNat * 2 + ((p.toUInt32.toUInt64 <<< 1) >>> 32).toNat := by
    rw [UInt64.toNat_add, UInt64.toNat_mul]
    change ((p >>> 32).toNat * 2 % 2 ^ 64 + _) % 2 ^ 64 = _
    simp only [wordBase] at hhigh
    omega
  rw [htwice] at hsplit'
  rw [hsum]
  linear_combination hsplit' + 2 * hsplit

/-- The second limb takes the low half of what is left and the first carry. -/
theorem second_step (d : UInt32) {h c : UInt64} (hc : c.toNat ≤ 1) :
    (d.toUInt64 + h.toUInt32.toUInt64 + c).toUInt32.toNat +
        wordBase * ((h >>> 32) + ((d.toUInt64 + h.toUInt32.toUInt64 + c) >>> 32)).toNat =
      d.toNat + h.toNat + c.toNat := by
  have hsum := add_toNat (a := d) (b := h.toUInt32) (c := c) (hc.trans_lt (by decide))
  have hhigh := add_high_le (a := d) (b := h.toUInt32) hc
  have hsplit := split_word h
  have hsplit' := split_word (d.toUInt64 + h.toUInt32.toUInt64 + c)
  have hhigh' := high_lt h
  have hcarry : ((h >>> 32) + ((d.toUInt64 + h.toUInt32.toUInt64 + c) >>> 32)).toNat =
      (h >>> 32).toNat + ((d.toUInt64 + h.toUInt32.toUInt64 + c) >>> 32).toNat := by
    rw [UInt64.toNat_add]
    simp only [wordBase] at hhigh'
    omega
  rw [hsum] at hsplit'
  rw [hcarry, Nat.mul_add]
  omega

theorem bignumSquareAddDoubleProduct_some {o : Nat} {p : UInt64} (hoffset : o < l.length)
    (h : wordsValue l + wordBase ^ o * (2 * p.toNat) < wordBase ^ l.length) :
    ∃ r, bignumSquareAddDoubleProduct l o p = some r ∧ r.length = l.length ∧
      wordsValue r = wordsValue l + wordBase ^ o * (2 * p.toNat) := by
  have hbound := high_bound hoffset.le h
  have hreplaced := replaced_value hoffset.le (l := l)
  have hlen : (l.drop o).length = l.length - o := List.length_drop
  have htwice := twice_split p
  unfold bignumSquareAddDoubleProduct
  dsimp only
  generalize (p >>> 32) * (2 : UInt64) + ((p.toUInt32.toUInt64 <<< 1) >>> 32) = high at *
  generalize p.toUInt32.toUInt64 <<< 1 = low at *
  cases hdrop : l.drop o with
  | nil =>
    rw [hdrop, List.length_nil] at hlen
    omega
  | cons d rest =>
    have hsum := add_toNat (a := d) (b := low.toUInt32) (c := 0) wordBase_pos
    have hcarry := add_high_le (a := d) (b := low.toUInt32) zero_carry
    rw [UInt64.add_zero, UInt64.toNat_zero, Nat.add_zero] at hsum
    rw [UInt64.add_zero] at hcarry
    have hfirst := split_word (d.toUInt64 + low.toUInt32.toUInt64)
    rw [hsum] at hfirst
    rw [hdrop] at hbound hreplaced hlen
    cases rest with
    | nil =>
      dsimp only
      generalize d.toUInt64 + low.toUInt32.toUInt64 = sum at *
      rw [wordsValue_singleton, List.length_singleton, pow_one] at hbound
      have hzero : high.toNat + (sum >>> 32).toNat = 0 := by
        by_contra hne
        have hmul : wordBase * 1 ≤ wordBase * (high.toNat + (sum >>> 32).toNat) :=
          Nat.mul_le_mul_left _ (Nat.one_le_iff_ne_zero.mpr hne)
        rw [Nat.mul_add] at hmul
        omega
      have hhigh0 : high = 0 := UInt64.toNat_inj.mp (Nat.eq_zero_of_add_eq_zero_right hzero)
      have hsum0 : sum >>> 32 = 0 := UInt64.toNat_inj.mp (Nat.eq_zero_of_add_eq_zero_left hzero)
      rw [hhigh0, hsum0, if_pos (by decide)]
      refine ⟨_, rfl, ?_, ?_⟩
      · simp only [List.length_append, List.length_take, List.length_cons, List.length_nil] at hlen ⊢
        omega
      · have hout := hreplaced [sum.toUInt32]
        rw [wordsValue_singleton, wordsValue_singleton] at hout
        have hval : sum.toUInt32.toNat = d.toNat + 2 * p.toNat := by
          rw [hhigh0, UInt64.toNat_zero, Nat.mul_zero, Nat.add_zero] at htwice
          rw [hsum0, UInt64.toNat_zero, Nat.mul_zero, Nat.add_zero] at hfirst
          omega
        rw [hval, Nat.mul_add] at hout
        omega
    | cons e rest =>
      have hsecond := second_step e (h := high) hcarry
      dsimp only
      generalize d.toUInt64 + low.toUInt32.toUInt64 = sum at *
      generalize e.toUInt64 + high.toUInt32.toUInt64 + (sum >>> 32) = next at *
      have hrest := squareCarry_value (l := rest) ((high >>> 32) + (next >>> 32))
      generalize hr : squareCarry rest ((high >>> 32) + (next >>> 32)) = r at *
      have hrlen : r.1.length = rest.length := by rw [← hr, squareCarry_length]
      have htotal : wordsValue (sum.toUInt32 :: next.toUInt32 :: r.1) +
          wordBase ^ (d :: e :: rest).length * r.2.toNat =
          wordsValue (d :: e :: rest) + 2 * p.toNat := by
        rw [wordsValue_cons, wordsValue_cons, wordsValue_cons, wordsValue_cons, List.length_cons,
          List.length_cons]
        linear_combination hfirst + htwice + wordBase * hsecond + wordBase ^ 2 * hrest
      rw [← htotal] at hbound
      have hzero : r.2 = 0 := UInt64.toNat_inj.mp (high_eq_zero hbound)
      rw [if_pos hzero]
      refine ⟨_, rfl, ?_, ?_⟩
      · simp only [List.length_append, List.length_take, List.length_cons, hrlen] at hlen ⊢
        omega
      · have hout := hreplaced (sum.toUInt32 :: next.toUInt32 :: r.1)
        rw [hzero, UInt64.toNat_zero, Nat.mul_zero, Nat.add_zero] at htotal
        rw [htotal, Nat.mul_add] at hout
        omega

theorem product_toNat (d e : UInt32) : (d.toUInt64 * e.toUInt64).toNat = d.toNat * e.toNat := by
  have h := mulAdd_toNat (a := d) (b := e) (t := 0) (c := 0) wordBase_pos
  simpa using h

theorem squareCross_some {d : UInt32} {o : Nat} (hoffset : o + x.length ≤ l.length)
    (h : wordsValue l + wordBase ^ o * (2 * (d.toNat * wordsValue x)) < wordBase ^ l.length) :
    ∃ r, squareCross d x o l = some r ∧ r.length = l.length ∧
      wordsValue r = wordsValue l + wordBase ^ o * (2 * (d.toNat * wordsValue x)) := by
  induction x generalizing o l with
  | nil => exact ⟨l, rfl, rfl, by simp⟩
  | cons e x ih =>
    rw [List.length_cons] at hoffset
    have hsplit : wordBase ^ o * (2 * (d.toNat * wordsValue (e :: x))) =
        wordBase ^ o * (2 * (d.toNat * e.toNat)) +
          wordBase ^ (o + 1) * (2 * (d.toNat * wordsValue x)) := by
      rw [wordsValue_cons, pow_succ]
      ring
    rw [hsplit] at h ⊢
    obtain ⟨r, hr, hlen, hval⟩ := bignumSquareAddDoubleProduct_some (l := l) (o := o)
      (p := d.toUInt64 * e.toUInt64) (by omega) (by rw [product_toNat]; omega)
    rw [product_toNat] at hval
    obtain ⟨s, hs, hslen, hsval⟩ := ih (l := r) (o := o + 1) (by omega)
      (by rw [hval, hlen]; omega)
    refine ⟨s, ?_, hslen.trans hlen, by omega⟩
    simp only [squareCross, hr, Option.bind_eq_bind, Option.bind_some, hs]

theorem squareRows_some {i : Nat} (hi : 2 * (i + x.length) ≤ l.length)
    (h : wordsValue l + wordBase ^ (2 * i) * wordsValue x ^ 2 < wordBase ^ l.length) :
    ∃ r, squareRows x i l = some r ∧ r.length = l.length ∧
      wordsValue r = wordsValue l + wordBase ^ (2 * i) * wordsValue x ^ 2 := by
  induction x generalizing i l with
  | nil => exact ⟨l, rfl, rfl, by simp⟩
  | cons d x ih =>
    rw [List.length_cons] at hi
    -- (d + W x)² is the diagonal, the cross products and the square of the limbs above
    have hsplit : wordBase ^ (2 * i) * wordsValue (d :: x) ^ 2 =
        wordBase ^ (2 * i) * (d.toNat * d.toNat) +
          wordBase ^ (i + (i + 1)) * (2 * (d.toNat * wordsValue x)) +
          wordBase ^ (2 * (i + 1)) * wordsValue x ^ 2 := by
      rw [wordsValue_cons, show i + (i + 1) = 2 * i + 1 by omega,
        show 2 * (i + 1) = 2 * i + 2 by omega, pow_add, pow_add]
      ring
    rw [hsplit] at h ⊢
    obtain ⟨r, hr, hrlen, hrval⟩ := bignumSquareAddProduct_some (l := l) (o := 2 * i)
      (p := d.toUInt64 * d.toUInt64) (by omega) (by rw [product_toNat]; omega)
    rw [product_toNat] at hrval
    obtain ⟨s, hs, hslen, hsval⟩ := squareCross_some (l := r) (x := x) (d := d)
      (o := i + (i + 1)) (by omega) (by rw [hrval, hrlen]; omega)
    obtain ⟨u, hu, hulen, huval⟩ := ih (l := s) (i := i + 1) (by omega)
      (by rw [hsval, hslen, hrval, hrlen]; omega)
    refine ⟨u, ?_, by omega, by omega⟩
    simp only [squareRows, hr, hs, hu, Option.bind_eq_bind, Option.bind_some]

theorem squareRows_words (ha : a.Valid) :
    ∃ square, squareRows a.words 0 (List.replicate (2 * a.length) 0) = some square ∧
      square.length = 2 * a.length ∧ wordsValue square = a.value ^ 2 := by
  have hlt := a.value_lt
  have hbound : a.value ^ 2 < wordBase ^ (2 * a.length) := by
    rw [Nat.mul_comm, pow_mul]
    exact Nat.pow_lt_pow_left hlt (by decide)
  obtain ⟨square, hsquare, hlen, hvalue⟩ := squareRows_some
    (l := List.replicate (2 * a.length) 0) (x := a.words) (i := 0)
    (by rw [List.length_replicate, ha.words_length, Nat.zero_add])
    (by
      rw [wordsValue_zeros, List.length_replicate, Nat.mul_zero, pow_zero, Nat.one_mul, Nat.zero_add]
      exact hbound)
  rw [List.length_replicate] at hlen
  rw [wordsValue_zeros, Nat.mul_zero, pow_zero, Nat.one_mul, Nat.zero_add] at hvalue
  exact ⟨square, hsquare, hlen, hvalue⟩

theorem bignumSquareNoalias_ensures (hout : out.Valid) (ha : a.Valid) (h : 8 * a.length ≤ room) :
    Ensures room (bignumSquareNoalias out a) fun r => r.Valid ∧ r.value = a.value ^ 2 := by
  unfold bignumSquareNoalias
  by_cases hz : a.length = 0
  · rw [if_pos hz, ha.length_eq_zero.mp hz]
    have hclear := overwritten hout (w := []) (k := 0) (Nat.zero_le _) (fun h => absurd rfl h)
    exact Ensures.pure hclear
  dsimp only
  rw [if_neg hz]
  apply Ensures.guard
  · intro hroom
    omega
  intro _
  apply (Ensures.reported (bignumReserve_ensures hout (n := 2 * a.length) (by omega))).bind
  rintro grown ⟨hvalid, -, hlength, hcapacity, -⟩
  obtain ⟨square, hsquare, hlen, hvalue⟩ := squareRows_words ha
  have hstored := product_stored hvalid (hlen.trans_le hcapacity)
  rw [hlen, hlength, hvalue] at hstored
  rw [hsquare]
  exact Ensures.pure hstored

theorem cryptoBignumSquare_ensures (hout : out.Valid) (ha : a.Valid) (aliased : Bool)
    (h : 8 * a.length ≤ room) :
    Ensures room (cryptoBignumSquare out a aliased) fun r => r.Valid ∧ r.value = a.value ^ 2 := by
  apply bignumSquareNoalias_ensures _ ha h
  cases aliased with
  | false => exact hout
  | true => exact init_valid

end LiberaCrypt.BignumSquare
