import Mathlib.Data.List.GetD
import Mathlib.Tactic

namespace LiberaCrypt.Limbs

def wordBase : Nat := 2 ^ 32

theorem wordBase_pos : 0 < wordBase := Nat.two_pow_pos 32

theorem word_lt (x : UInt32) : x.toNat < wordBase := x.toNat_lt

def wordsValue : List UInt32 → Nat
  | [] => 0
  | x :: xs => x.toNat + wordBase * wordsValue xs

@[simp] theorem wordsValue_nil : wordsValue [] = 0 := rfl

theorem wordsValue_cons (x : UInt32) (xs : List UInt32) :
    wordsValue (x :: xs) = x.toNat + wordBase * wordsValue xs := rfl

@[simp] theorem wordsValue_singleton (x : UInt32) : wordsValue [x] = x.toNat := by
  rw [wordsValue_cons, wordsValue_nil, Nat.mul_zero, Nat.add_zero]

theorem wordsValue_append (xs ys : List UInt32) :
    wordsValue (xs ++ ys) = wordsValue xs + wordBase ^ xs.length * wordsValue ys := by
  induction xs with
  | nil => simp
  | cons x xs ih =>
    rw [List.cons_append, wordsValue_cons, wordsValue_cons, ih, List.length_cons, pow_succ]
    ring

@[simp] theorem wordsValue_zeros (n : Nat) : wordsValue (List.replicate n 0) = 0 := by
  induction n with
  | zero => rfl
  | succ n ih => rw [List.replicate_succ, wordsValue_cons, ih]; rfl

theorem wordsValue_lt (xs : List UInt32) : wordsValue xs < wordBase ^ xs.length := by
  induction xs with
  | nil => simp
  | cons x xs ih =>
    have hx := word_lt x
    have hmul : wordBase * (wordsValue xs + 1) ≤ wordBase * wordBase ^ xs.length :=
      Nat.mul_le_mul_left _ ih
    rw [wordsValue_cons, List.length_cons, pow_succ, Nat.mul_comm (wordBase ^ xs.length)]
    rw [Nat.mul_succ] at hmul
    omega

theorem wordsValue_head_tail (xs : List UInt32) :
    wordsValue xs = (xs.headD 0).toNat + wordBase * wordsValue xs.tail := by
  cases xs with
  | nil => simp
  | cons x xs => rfl

theorem wordsValue_take_drop (xs : List UInt32) (n : Nat) (h : n ≤ xs.length) :
    wordsValue xs = wordsValue (xs.take n) + wordBase ^ n * wordsValue (xs.drop n) := by
  rw [← List.take_append_drop n xs, wordsValue_append, List.length_take, Nat.min_eq_left h,
    List.take_append_drop]

theorem wordsValue_take_succ (xs : List UInt32) (n : Nat) :
    wordsValue (xs.take (n + 1)) =
      wordsValue (xs.take n) + wordBase ^ n * (xs.getD n 0).toNat := by
  by_cases h : n < xs.length
  · rw [List.take_succ_eq_append_getElem h, wordsValue_append, List.length_take,
      Nat.min_eq_left h.le, wordsValue_singleton]
    simp [h]
  · rw [not_lt] at h
    rw [List.take_of_length_le h, List.take_of_length_le (Nat.le_succ_of_le h)]
    simp [h]

theorem wordsValue_take_lt (xs : List UInt32) (n : Nat) :
    wordsValue (xs.take n) < wordBase ^ n :=
  (wordsValue_lt _).trans_le
    (Nat.pow_le_pow_right wordBase_pos (List.length_take_le n xs))

theorem low_eq {x y p c d : Nat} (hx : x < p) (hy : y < p) (h : x + p * c = y + p * d) :
    x = y := by
  have hmod := congrArg (· % p) h
  simpa only [Nat.add_mul_mod_self_left, Nat.mod_eq_of_lt hx, Nat.mod_eq_of_lt hy] using hmod

/-- Two lists of one length that hold the same number are the same limbs. -/
theorem wordsValue_injective {xs ys : List UInt32} (hlength : xs.length = ys.length)
    (h : wordsValue xs = wordsValue ys) : xs = ys := by
  induction xs generalizing ys with
  | nil => exact (List.length_eq_zero_iff.mp hlength.symm).symm
  | cons x xs ih =>
    cases ys with
    | nil => simp at hlength
    | cons y ys =>
      rw [wordsValue_cons, wordsValue_cons] at h
      have hlow := low_eq (word_lt x) (word_lt y) h
      have hhigh : wordsValue xs = wordsValue ys :=
        Nat.eq_of_mul_eq_mul_left wordBase_pos (by omega)
      rw [UInt32.toNat_inj.mp hlow, ih (Nat.succ.inj hlength) hhigh]

theorem high_eq_zero {x p c : Nat} (h : x + p * c < p) : c = 0 := by
  by_contra hne
  have hmul : p * 1 ≤ p * c := Nat.mul_le_mul_left _ (Nat.one_le_iff_ne_zero.mpr hne)
  omega

section Words

variable (a b t : UInt32) (c z : UInt64)

theorem toUInt32_toNat : z.toUInt32.toNat = z.toNat % wordBase := rfl

theorem high_toNat : (z >>> 32).toNat = z.toNat / wordBase := by
  rw [UInt64.toNat_shiftRight]
  exact Nat.shiftRight_eq_div_pow _ _

theorem high_lt : (z >>> 32).toNat < wordBase := by
  have hz := z.toNat_lt
  rw [high_toNat]
  exact Nat.div_lt_of_lt_mul (by unfold wordBase; omega)

theorem split_word : z.toUInt32.toNat + wordBase * (z >>> 32).toNat = z.toNat := by
  rw [toUInt32_toNat, high_toNat, Nat.mod_add_div]

variable {a b t c}

theorem mul_le : a.toNat * b.toNat ≤ (wordBase - 1) * (wordBase - 1) :=
  Nat.mul_le_mul (Nat.le_pred_of_lt (word_lt a)) (Nat.le_pred_of_lt (word_lt b))

theorem mulAdd_toNat (hc : c.toNat < wordBase) :
    (a.toUInt64 * b.toUInt64 + t.toUInt64 + c).toNat =
      a.toNat * b.toNat + t.toNat + c.toNat := by
  have hab := mul_le (a := a) (b := b)
  have ht := word_lt t
  simp only [wordBase] at hab ht hc
  simp only [UInt64.toNat_add, UInt64.toNat_mul, UInt32.toNat_toUInt64]
  rw [Nat.mod_eq_of_lt (by omega), Nat.mod_eq_of_lt (by omega), Nat.mod_eq_of_lt (by omega)]

theorem add_toNat (hc : c.toNat < wordBase) :
    (a.toUInt64 + b.toUInt64 + c).toNat = a.toNat + b.toNat + c.toNat := by
  have ha := word_lt a
  have hb := word_lt b
  simp only [wordBase] at ha hb hc
  simp only [UInt64.toNat_add, UInt32.toNat_toUInt64]
  omega

theorem add_high_le (hc : c.toNat ≤ 1) : ((a.toUInt64 + b.toUInt64 + c) >>> 32).toNat ≤ 1 := by
  have ha := word_lt a
  have hb := word_lt b
  have hbase : 1 < wordBase := by decide
  rw [high_toNat, add_toNat (hc.trans_lt hbase)]
  apply Nat.le_of_lt_succ
  apply Nat.div_lt_of_lt_mul
  omega

theorem join_toNat {r : UInt64} (hr : r.toNat < wordBase) (x : UInt32) :
    ((r <<< 32) ||| x.toUInt64).toNat = wordBase * r.toNat + x.toNat := by
  have hx := word_lt x
  simp only [wordBase] at hr hx ⊢
  rw [UInt64.toNat_or, UInt64.toNat_shiftLeft, UInt32.toNat_toUInt64]
  change (r.toNat <<< 32) % 2 ^ 64 ||| _ = _
  rw [Nat.shiftLeft_eq, Nat.mod_eq_of_lt (by omega), ← Nat.shiftLeft_eq,
    ← Nat.shiftLeft_add_eq_or_of_lt hx, Nat.shiftLeft_eq, Nat.mul_comm]

end Words

/-- `out[i] = a[i] + b[i] + carry` for `i < n`, both lists extended by zero limbs. -/
def addRow : Nat → List UInt32 → List UInt32 → UInt64 → List UInt32 × UInt64
  | 0, _, _, carry => ([], carry)
  | n + 1, a, b, carry =>
    let sum := (a.headD 0).toUInt64 + (b.headD 0).toUInt64 + carry
    let rest := addRow n a.tail b.tail (sum >>> 32)
    (sum.toUInt32 :: rest.1, rest.2)

/-- `out[i] = a[i] - (b[i] + borrow)` for `i < n`, both lists extended by zero limbs. -/
def subRow : Nat → List UInt32 → List UInt32 → UInt64 → List UInt32 × UInt64
  | 0, _, _, borrow => ([], borrow)
  | n + 1, a, b, borrow =>
    let subtrahend := (b.headD 0).toUInt64 + borrow
    let minuend := (a.headD 0).toUInt64
    let rest := subRow n a.tail b.tail (if minuend < subtrahend then 1 else 0)
    ((minuend - subtrahend).toUInt32 :: rest.1, rest.2)

/-- `t[j] = a[j] * b + t[j] + carry` for `j < n`, both lists extended by zero limbs. -/
def mulAddRow : Nat → List UInt32 → UInt32 → List UInt32 → UInt64 → List UInt32 × UInt64
  | 0, _, _, _, carry => ([], carry)
  | n + 1, a, b, t, carry =>
    let z := (a.headD 0).toUInt64 * b.toUInt64 + (t.headD 0).toUInt64 + carry
    let rest := mulAddRow n a.tail b t.tail (z >>> 32)
    (z.toUInt32 :: rest.1, rest.2)

section Rows

variable {a b t : List UInt32} {n : Nat} {c : UInt64}

@[simp] theorem addRow_length : (addRow n a b c).1.length = n := by
  induction n generalizing a b c with
  | zero => rfl
  | succ n ih => simp [addRow, ih]

@[simp] theorem subRow_length : (subRow n a b c).1.length = n := by
  induction n generalizing a b c with
  | zero => rfl
  | succ n ih => simp [subRow, ih]

@[simp] theorem mulAddRow_length {x : UInt32} : (mulAddRow n a x t c).1.length = n := by
  induction n generalizing a t c with
  | zero => rfl
  | succ n ih => simp [mulAddRow, ih]

theorem zero_carry : (0 : UInt64).toNat ≤ 1 := Nat.zero_le 1

theorem addRow_carry (hc : c.toNat ≤ 1) : (addRow n a b c).2.toNat ≤ 1 := by
  induction n generalizing a b c with
  | zero => exact hc
  | succ n ih => exact ih (add_high_le hc)

theorem addRow_value (ha : a.length ≤ n) (hb : b.length ≤ n) (hc : c.toNat ≤ 1) :
    wordsValue (addRow n a b c).1 + wordBase ^ n * (addRow n a b c).2.toNat =
      wordsValue a + wordsValue b + c.toNat := by
  induction n generalizing a b c with
  | zero =>
    rw [List.length_eq_zero_iff.mp (Nat.le_zero.mp ha),
      List.length_eq_zero_iff.mp (Nat.le_zero.mp hb)]
    simp [addRow]
  | succ n ih =>
    have hbase : 1 < wordBase := by decide
    have hrest := ih (a := a.tail) (b := b.tail) (by simpa using ha) (by simpa using hb)
      (add_high_le (a := a.headD 0) (b := b.headD 0) hc)
    have hsum := split_word ((a.headD 0).toUInt64 + (b.headD 0).toUInt64 + c)
    rw [add_toNat (hc.trans_lt hbase)] at hsum
    rw [wordsValue_head_tail a, wordsValue_head_tail b]
    simp only [addRow, wordsValue_cons]
    linear_combination hsum + wordBase * hrest

theorem mulAddRow_carry {x : UInt32} (hc : c.toNat < wordBase) :
    (mulAddRow n a x t c).2.toNat < wordBase := by
  induction n generalizing a t c with
  | zero => exact hc
  | succ n ih => exact ih (high_lt _)

theorem mulAddRow_value {x : UInt32} (ha : a.length ≤ n) (ht : t.length ≤ n)
    (hc : c.toNat < wordBase) :
    wordsValue (mulAddRow n a x t c).1 + wordBase ^ n * (mulAddRow n a x t c).2.toNat =
      wordsValue a * x.toNat + wordsValue t + c.toNat := by
  induction n generalizing a t c with
  | zero =>
    rw [List.length_eq_zero_iff.mp (Nat.le_zero.mp ha),
      List.length_eq_zero_iff.mp (Nat.le_zero.mp ht)]
    simp [mulAddRow]
  | succ n ih =>
    have hrest := ih (a := a.tail) (t := t.tail) (by simpa using ha) (by simpa using ht)
      (high_lt ((a.headD 0).toUInt64 * x.toUInt64 + (t.headD 0).toUInt64 + c))
    have hz := split_word ((a.headD 0).toUInt64 * x.toUInt64 + (t.headD 0).toUInt64 + c)
    rw [mulAdd_toNat hc] at hz
    rw [wordsValue_head_tail a, wordsValue_head_tail t]
    simp only [mulAddRow, wordsValue_cons]
    linear_combination hz + wordBase * hrest

theorem digit_lt {W A B s o : Nat} (hA : A < W) (hB : B < W) :
    W * s + A < B + W * o ↔ s < o + if A < B then 1 else 0 := by
  rcases lt_trichotomy s o with hlt | rfl | hgt
  · have hmul := Nat.mul_le_mul_left W hlt
    rw [Nat.mul_succ] at hmul
    refine ⟨fun _ => by omega, fun _ => by omega⟩
  · split_ifs <;> omega
  · have hmul := Nat.mul_le_mul_left W hgt
    rw [Nat.mul_succ] at hmul
    split_ifs <;> omega

theorem sub_step (x y : UInt32) {c : UInt64} (hb : c.toNat ≤ 1) :
    (x.toUInt64 - (y.toUInt64 + c)).toUInt32.toNat + (y.toNat + c.toNat) =
      x.toNat + wordBase *
        (if x.toUInt64 < y.toUInt64 + c then (1 : UInt64) else 0).toNat := by
  have hx := word_lt x
  have hy := word_lt y
  simp only [wordBase] at hx hy
  have hsum : (y.toUInt64 + c).toNat = y.toNat + c.toNat := by
    rw [UInt64.toNat_add, UInt32.toNat_toUInt64]
    omega
  rw [toUInt32_toNat, UInt64.toNat_sub, hsum, UInt32.toNat_toUInt64]
  simp only [wordBase]
  split
  case isTrue h =>
    rw [UInt64.lt_iff_toNat_lt, hsum, UInt32.toNat_toUInt64] at h
    simp only [UInt64.toNat_one]
    omega
  case isFalse h =>
    rw [UInt64.lt_iff_toNat_lt, hsum, UInt32.toNat_toUInt64] at h
    simp only [UInt64.toNat_zero]
    omega

theorem subRow_borrow (hc : c.toNat ≤ 1) : (subRow n a b c).2.toNat ≤ 1 := by
  induction n generalizing a b c with
  | zero => exact hc
  | succ n ih =>
    apply ih
    split
    · exact le_refl 1
    · exact Nat.zero_le 1

theorem subRow_value (ha : a.length ≤ n) (hb : b.length ≤ n) (hc : c.toNat ≤ 1) :
    wordsValue (subRow n a b c).1 + (wordsValue b + c.toNat) =
      wordsValue a + wordBase ^ n * (subRow n a b c).2.toNat := by
  induction n generalizing a b c with
  | zero =>
    rw [List.length_eq_zero_iff.mp (Nat.le_zero.mp ha),
      List.length_eq_zero_iff.mp (Nat.le_zero.mp hb)]
    simp [subRow]
  | succ n ih =>
    have hstep := sub_step (a.headD 0) (b.headD 0) hc
    have hnext : (if (a.headD 0).toUInt64 < (b.headD 0).toUInt64 + c
        then (1 : UInt64) else 0).toNat ≤ 1 := by
      split
      · exact le_refl 1
      · exact Nat.zero_le 1
    have hrest := ih (a := a.tail) (b := b.tail) (by simpa using ha) (by simpa using hb) hnext
    rw [wordsValue_head_tail a, wordsValue_head_tail b]
    simp only [subRow, wordsValue_cons]
    linear_combination hstep + wordBase * hrest

end Rows

end LiberaCrypt.Limbs
