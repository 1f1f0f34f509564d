import LiberaCrypt.BignumAdd
import LiberaCrypt.QuotientEstimate

namespace LiberaCrypt.BignumMod

open LiberaCrypt.Outcome LiberaCrypt.Allocation LiberaCrypt.Limbs LiberaCrypt.Bignum
open LiberaCrypt.BignumAdd LiberaCrypt.QuotientEstimate

/-- `while ((value & 0x80000000) == 0) { value <<= 1; ++count; }`, which a nonzero limb leaves after
at most 31 rounds. -/
def clzRounds : Nat → UInt32 → Nat
  | 0, _ => 0
  | rounds + 1, value =>
    if value &&& 0x80000000 = 0 then clzRounds rounds (value <<< 1) + 1 else 0

def bignumClz32 (value : UInt32) : Nat := clzRounds 31 value

def correctQuotient (v1 v2 u2 : UInt32) (qhat rhat : UInt64) : UInt64 :=
  if _h : 0x100000000 ≤ qhat ∨ (rhat <<< 32) + u2.toUInt64 < qhat * v2.toUInt64 then
    if 0x100000000 ≤ rhat + v1.toUInt64 then qhat - 1
    else correctQuotient v1 v2 u2 (qhat - 1) (rhat + v1.toUInt64)
  else qhat
termination_by qhat.toNat
decreasing_by
  have hne : qhat.toNat ≠ 0 := by
    intro h0
    have hzero : qhat = 0 := UInt64.toNat_inj.mp h0
    rw [hzero] at _h
    rcases _h with h | h
    · exact absurd h (by decide)
    · rw [UInt64.zero_mul] at h
      exact absurd (UInt64.lt_iff_toNat_lt.mp h) (Nat.not_lt_zero _)
  have hle : (1 : UInt64) ≤ qhat := UInt64.le_iff_toNat_le.mpr (Nat.one_le_iff_ne_zero.mpr hne)
  rw [UInt64.toNat_sub_of_le _ _ hle]
  exact Nat.sub_lt (Nat.pos_of_ne_zero hne) Nat.one_pos

/-- `un[i] -= qhat * vn[i]` for `i < n`, with the borrow into limb `n`. -/
def mulSubRow : Nat → List UInt32 → UInt64 → List UInt32 → UInt64 → List UInt32 × UInt64
  | 0, _, _, _, borrow => ([], borrow)
  | n + 1, v, qhat, u, borrow =>
    let product := qhat * (v.headD 0).toUInt64 + borrow
    let low := product.toUInt32
    let minuend := u.headD 0
    let rest := mulSubRow n v.tail qhat u.tail
      (if minuend < low then (product >>> 32) + 1 else product >>> 32)
    ((minuend - low) :: rest.1, rest.2)

/-- One step of the division on the window `un[offset .. offset + n]`. -/
def knuthStep (vn un : List UInt32) : List UInt32 :=
  let n := vn.length
  let numerator := ((un.getD n 0).toUInt64 <<< 32) ||| (un.getD (n - 1) 0).toUInt64
  let v1 := vn.getD (n - 1) 0
  let qhat := correctQuotient v1 (vn.getD (n - 2) 0) (un.getD (n - 2) 0)
    (numerator / v1.toUInt64) (numerator % v1.toUInt64)
  let row := mulSubRow n vn qhat un 0
  let high := (un.getD n 0).toUInt64
  let left := (high - row.2).toUInt32
  if high < row.2 then
    let back := addRow n row.1 vn 0
    back.1 ++ [(left.toUInt64 + back.2).toUInt32]
  else row.1 ++ [left]

/-- The steps at offsets `j - 1, ..., 0`. A step leaves the remainder in the `n` limbs from its
offset on; the limb above them is not read again. -/
def reduceDown (vn un : List UInt32) : Nat → List UInt32 → List UInt32
  | 0, remainder => remainder
  | j + 1, remainder =>
    reduceDown vn un j ((knuthStep vn (un.getD j 0 :: remainder)).take vn.length)

/-- `(word >> shift) | carry` from the highest limb down. -/
def shiftRightRow (shift : UInt32) : List UInt32 → List UInt32 × UInt32
  | [] => ([], 0)
  | x :: xs =>
    let rest := shiftRightRow shift xs
    (((x >>> shift) ||| rest.2) :: rest.1, x <<< (32 - shift))

/-- The limbs of the remainder, between the request for the workspace and the one for the result. -/
def remainderWords (a modulus : List UInt32) : List UInt32 :=
  let n := modulus.length
  let shift := bignumClz32 (modulus.getD (n - 1) 0)
  let vn := if shift = 0 then modulus else (shiftLeftRow (UInt64.ofNat shift) modulus 0).1
  let un :=
    if shift = 0 then a ++ [0]
    else
      let row := shiftLeftRow (UInt64.ofNat shift) a 0
      row.1 ++ [row.2.toUInt32]
  let m := a.length - n
  let remainder := reduceDown vn un (m + 1) (un.drop (m + 1))
  if shift = 0 then remainder else (shiftRightRow (UInt32.ofNat shift) remainder).1

def cryptoBignumMod (out a modulus : LiberaCBignum) : Fallible LiberaCBignum :=
  if modulus.length = 0 then throw .invalidArgument
  else if cryptoBignumCompare a modulus = .lt then cryptoBignumCopy out a
  else if modulus.length = 1 then
    cryptoBignumSetU64 out (bignumModU32 a (modulus.limbs.getD 0 0)).toUInt64
  else
    let n := modulus.length
    if sizeMax - 1 < n ∨ sizeMax - 1 - n < a.length then throw .invalidArgument
    else
      let words := n + a.length + 1
      if sizeMax / 4 < words then throw .invalidArgument
      else do
        allocate (4 * words) .invalidArgument
        let remainder ← bignumReserve cryptoBignumInit n
        pure (bignumNormalize
          ⟨storeWords remainder.limbs (remainderWords a.words modulus.words), n⟩)

variable {a modulus out : LiberaCBignum} {u v w : List UInt32} {n room : Nat}

theorem top_bit (x : UInt32) : x &&& 0x80000000 = 0 ↔ x.toNat < 2 ^ 31 := by
  have hx := x.toNat_lt
  rw [← UInt32.toNat_inj, UInt32.toNat_and]
  change x.toNat &&& 2 ^ 31 = 0 ↔ _
  constructor
  · intro h
    by_contra hge
    have htest := Nat.testBit_of_two_pow_le_and_two_pow_add_one_gt (not_lt.mp hge) hx
    have hbit := congrArg (Nat.testBit · 31) h
    rw [Nat.testBit_and, htest, Nat.testBit_two_pow_self] at hbit
    exact absurd hbit (by decide)
  · intro h
    apply Nat.eq_of_testBit_eq
    intro i
    rw [Nat.testBit_and, Nat.testBit_two_pow, Nat.zero_testBit]
    by_cases hi : 31 = i
    · rw [← hi, Nat.testBit_lt_two_pow h, Bool.false_and]
    · rw [decide_eq_false hi, Bool.and_false]

theorem clzRounds_spec {r : Nat} {x : UInt32} (h : 2 ^ 31 ≤ x.toNat * 2 ^ r) :
    clzRounds r x ≤ r ∧ x.toNat * 2 ^ clzRounds r x < wordBase := by
  induction r generalizing x with
  | zero =>
    rw [clzRounds, pow_zero, Nat.mul_one]
    exact ⟨le_refl 0, word_lt x⟩
  | succ r ih =>
    unfold clzRounds
    split_ifs with hbit
    · have hlt := (top_bit x).mp hbit
      have hdouble : (x <<< 1).toNat = x.toNat * 2 := by
        rw [UInt32.toNat_shiftLeft]
        change (x.toNat <<< 1) % 2 ^ 32 = _
        rw [Nat.shiftLeft_eq]
        omega
      obtain ⟨hle, hfit⟩ := ih (x := x <<< 1) (by rw [hdouble, Nat.mul_assoc, ← pow_succ']; exact h)
      rw [hdouble, Nat.mul_assoc, ← pow_succ'] at hfit
      exact ⟨Nat.succ_le_succ hle, hfit⟩
    · rw [pow_zero, Nat.mul_one]
      exact ⟨Nat.zero_le _, word_lt x⟩

theorem bignumClz32_spec {x : UInt32} (h : x ≠ 0) :
    bignumClz32 x < 32 ∧ x.toNat * 2 ^ bignumClz32 x < wordBase := by
  have hpos : 1 ≤ x.toNat := Nat.one_le_iff_ne_zero.mpr fun h0 => h (UInt32.toNat_inj.mp h0)
  have hspec := clzRounds_spec (r := 31) (x := x) (Nat.le_mul_of_pos_left _ hpos)
  exact ⟨Nat.lt_succ_of_le hspec.1, hspec.2⟩

theorem clzRounds_top {r : Nat} {x : UInt32} (h : 2 ^ 31 ≤ x.toNat * 2 ^ r) :
    2 ^ 31 ≤ x.toNat * 2 ^ clzRounds r x := by
  induction r generalizing x with
  | zero => exact h
  | succ r ih =>
    unfold clzRounds
    split_ifs with hbit
    · have hlt := (top_bit x).mp hbit
      have hdouble : (x <<< 1).toNat = x.toNat * 2 := by
        rw [UInt32.toNat_shiftLeft]
        change (x.toNat <<< 1) % 2 ^ 32 = _
        rw [Nat.shiftLeft_eq]
        omega
      have hnext := ih (x := x <<< 1) (by rw [hdouble, Nat.mul_assoc, ← pow_succ']; exact h)
      rw [hdouble, Nat.mul_assoc, ← pow_succ'] at hnext
      exact hnext
    · rw [pow_zero, Nat.mul_one]
      exact not_lt.mp (mt (top_bit x).mpr hbit)

theorem bignumClz32_top {x : UInt32} (h : x ≠ 0) : 2 ^ 31 ≤ x.toNat * 2 ^ bignumClz32 x := by
  have hpos : 1 ≤ x.toNat := Nat.one_le_iff_ne_zero.mpr fun h0 => h (UInt32.toNat_inj.mp h0)
  exact clzRounds_top (Nat.le_mul_of_pos_left _ hpos)

theorem test_iff {v2 u2 : UInt32} {q r : UInt64} (hq : q.toNat < wordBase)
    (hr : r.toNat < wordBase) :
    (r <<< 32) + u2.toUInt64 < q * v2.toUInt64 ↔
      r.toNat * wordBase + u2.toNat < q.toNat * v2.toNat := by
  have hu := word_lt u2
  have hmul : q.toNat * v2.toNat ≤ (wordBase - 1) * (wordBase - 1) :=
    Nat.mul_le_mul (Nat.le_pred_of_lt hq) (Nat.le_pred_of_lt (word_lt v2))
  have hshift : (r <<< 32).toNat = r.toNat * wordBase := by
    simp only [wordBase] at hr ⊢
    rw [UInt64.toNat_shiftLeft]
    change (r.toNat <<< 32) % 2 ^ 64 = _
    rw [Nat.shiftLeft_eq]
    omega
  simp only [wordBase] at hu hr hmul hshift ⊢
  rw [UInt64.lt_iff_toNat_lt, UInt64.toNat_add, UInt64.toNat_mul, UInt32.toNat_toUInt64,
    UInt32.toNat_toUInt64, hshift, Nat.mod_eq_of_lt (by omega), Nat.mod_eq_of_lt (by omega)]

theorem digit_le_iff {q : UInt64} : 0x100000000 ≤ q ↔ wordBase ≤ q.toNat :=
  UInt64.le_iff_toNat_le

section Estimate

variable {w : Window wordBase} {v1 v2 u2 : UInt32} {q r : UInt64}

theorem rejected (hv2 : v2.toNat = w.v2) (hu2 : u2.toNat = w.u2)
    (hlt : w.dividend < wordBase * w.divisor) (hr : r.toNat < wordBase)
    (hestimate : w.Estimates q.toNat r.toNat)
    (h : 0x100000000 ≤ q ∨ (r <<< 32) + u2.toUInt64 < q * v2.toUInt64) :
    w.dividend < q.toNat * w.divisor := by
  by_cases hq : q.toNat < wordBase
  · rcases h with h | h
    · exact absurd (digit_le_iff.mp h) (not_le.mpr hq)
    · rw [test_iff hq hr, hv2, hu2] at h
      exact hestimate.too_large h
  · exact hlt.trans_le (Nat.mul_le_mul_right _ (not_lt.mp hq))

theorem corrected_estimate (hv1 : v1.toNat = w.v1) (hr : r.toNat < wordBase)
    (hestimate : w.Estimates q.toNat r.toNat) (hq : 1 ≤ q.toNat) :
    (q - 1).toNat = q.toNat - 1 ∧ (r + v1.toUInt64).toNat = r.toNat + v1.toNat ∧
      w.Estimates (q - 1).toNat (r + v1.toUInt64).toNat := by
  have hv := word_lt v1
  have hdec : (q - 1).toNat = q.toNat - 1 :=
    UInt64.toNat_sub_of_le _ _ (UInt64.le_iff_toNat_le.mpr hq)
  have hinc : (r + v1.toUInt64).toNat = r.toNat + v1.toNat := by
    simp only [wordBase] at hr hv
    rw [UInt64.toNat_add, UInt32.toNat_toUInt64]
    omega
  refine ⟨hdec, hinc, ?_⟩
  have hsplit : q.toNat * w.v1 = (q.toNat - 1) * w.v1 + w.v1 := by
    rw [← Nat.succ_mul, Nat.succ_eq_add_one, Nat.sub_add_cancel hq]
  unfold Window.Estimates at hestimate ⊢
  rw [hdec, hinc, hv1]
  omega

/-- The loop returns an estimate that fits a limb and is at most one too large. -/
theorem correctQuotient_spec (hv1 : v1.toNat = w.v1) (hv2 : v2.toNat = w.v2)
    (hu2 : u2.toNat = w.u2) (htop : w.u0 ≤ w.v1) (hlt : w.dividend < wordBase * w.divisor)
    (hr : r.toNat < wordBase) (hestimate : w.Estimates q.toNat r.toNat)
    (hlow : w.dividend < (q.toNat + 1) * w.divisor) :
    (correctQuotient v1 v2 u2 q r).toNat < wordBase ∧
      w.dividend < ((correctQuotient v1 v2 u2 q r).toNat + 1) * w.divisor ∧
      (correctQuotient v1 v2 u2 q r).toNat * w.divisor ≤ w.dividend + w.divisor := by
  have hreject := fun q r hr hestimate h =>
    rejected (w := w) (q := q) (r := r) hv2 hu2 hlt hr hestimate h
  have hpositive : ∀ q : UInt64, w.dividend < q.toNat * w.divisor → 1 ≤ q.toNat := by
    intro q h
    by_contra hzero
    rw [Nat.lt_one_iff.mp (not_le.mp hzero), Nat.zero_mul] at h
    exact Nat.not_lt_zero _ h
  fun_induction correctQuotient v1 v2 u2 q r with
  | case1 q r h hbreak =>
    have hlarge := hreject q r hr hestimate h
    obtain ⟨hdec, hinc, hnext⟩ := corrected_estimate hv1 hr hestimate (hpositive q hlarge)
    have hpass := hnext.passes htop (digit_le_iff.mp hbreak)
    refine ⟨hpass.1, ?_, hnext.at_most_one hpass.1 hpass.2⟩
    rw [hdec, Nat.sub_add_cancel (hpositive q hlarge)]
    exact hlarge
  | case2 q r h hbreak ih =>
    have hlarge := hreject q r hr hestimate h
    obtain ⟨hdec, hinc, hnext⟩ := corrected_estimate hv1 hr hestimate (hpositive q hlarge)
    apply ih (not_le.mp fun hle => hbreak (digit_le_iff.mpr hle)) hnext
    rw [hdec, Nat.sub_add_cancel (hpositive q hlarge)]
    exact hlarge
  | case3 q r h =>
    rw [not_or, digit_le_iff, not_le] at h
    rw [test_iff h.1 hr, hv2, hu2, not_lt] at h
    exact ⟨h.1, hlow, hestimate.at_most_one h.1 h.2⟩

end Estimate

section Subtract

variable {d x : UInt32} {q b : UInt64}

theorem mulSub_product (hq : q.toNat < wordBase) (hb : b.toNat < wordBase) :
    (q * d.toUInt64 + b).toNat = q.toNat * d.toNat + b.toNat ∧
      q.toNat * d.toNat + b.toNat ≤ (wordBase - 1) * wordBase := by
  have hmul : q.toNat * d.toNat ≤ (wordBase - 1) * (wordBase - 1) :=
    Nat.mul_le_mul (Nat.le_pred_of_lt hq) (Nat.le_pred_of_lt (word_lt d))
  simp only [wordBase] at hb hmul ⊢
  constructor
  · rw [UInt64.toNat_add, UInt64.toNat_mul, UInt32.toNat_toUInt64, Nat.mod_eq_of_lt (by omega),
      Nat.mod_eq_of_lt (by omega)]
  · omega

/-- The borrow that one limb of `un -= qhat * vn` leaves. -/
def nextBorrow (d x : UInt32) (q b : UInt64) : UInt64 :=
  if x < (q * d.toUInt64 + b).toUInt32 then ((q * d.toUInt64 + b) >>> 32) + 1
  else (q * d.toUInt64 + b) >>> 32

theorem mulSub_step (hq : q.toNat < wordBase) (hb : b.toNat < wordBase) :
    (x - (q * d.toUInt64 + b).toUInt32).toNat + q.toNat * d.toNat + b.toNat =
        x.toNat + wordBase * (nextBorrow d x q b).toNat ∧
      (nextBorrow d x q b).toNat < wordBase := by
  obtain ⟨hproduct, hle⟩ := mulSub_product (d := d) hq hb
  have hsplit := split_word (q * d.toUInt64 + b)
  have hhigh := high_lt (q * d.toUInt64 + b)
  rw [hproduct] at hsplit
  unfold nextBorrow
  generalize q * d.toUInt64 + b = p at *
  have hx := word_lt x
  have hlow := word_lt p.toUInt32
  split_ifs with hlt
  · have hlt' := UInt32.lt_iff_toNat_lt.mp hlt
    -- a full high half leaves nothing in the low one
    have hhigh' : (p >>> 32).toNat < wordBase - 1 := by
      by_contra hge
      have heq : (p >>> 32).toNat = wordBase - 1 := by omega
      rw [heq, Nat.mul_comm] at hsplit
      omega
    have hinc : ((p >>> 32) + 1).toNat = (p >>> 32).toNat + 1 := by
      simp only [wordBase] at hhigh'
      rw [UInt64.toNat_add, UInt64.toNat_one]
      omega
    have hsub : (x - p.toUInt32).toNat = wordBase + x.toNat - p.toUInt32.toNat := by
      simp only [wordBase] at hx hlow ⊢
      rw [UInt32.toNat_sub]
      omega
    rw [hinc, hsub, Nat.mul_succ]
    omega
  · have hge := not_lt.mp (mt UInt32.lt_iff_toNat_lt.mpr hlt)
    have hsub : (x - p.toUInt32).toNat = x.toNat - p.toUInt32.toNat :=
      UInt32.toNat_sub_of_le _ _ (UInt32.le_iff_toNat_le.mpr hge)
    rw [hsub]
    omega

@[simp] theorem mulSubRow_length : (mulSubRow n v q u b).1.length = n := by
  induction n generalizing v u b with
  | zero => rfl
  | succ n ih => simp [mulSubRow, ih]

theorem mulSubRow_borrow (hq : q.toNat < wordBase) (hb : b.toNat < wordBase) :
    (mulSubRow n v q u b).2.toNat < wordBase := by
  induction n generalizing v u b with
  | zero => exact hb
  | succ n ih => exact ih (mulSub_step hq hb).2

theorem mulSubRow_value (hv : v.length ≤ n) (hq : q.toNat < wordBase) (hb : b.toNat < wordBase) :
    wordsValue (mulSubRow n v q u b).1 + q.toNat * wordsValue v + b.toNat =
      wordsValue (u.take n) + wordBase ^ n * (mulSubRow n v q u b).2.toNat := by
  induction n generalizing v u b with
  | zero =>
    rw [List.length_eq_zero_iff.mp (Nat.le_zero.mp hv)]
    simp [mulSubRow]
  | succ n ih =>
    obtain ⟨hstep, hnext⟩ := mulSub_step (d := v.headD 0) (x := u.headD 0) hq hb
    have hrest := ih (v := v.tail) (u := u.tail) (by simpa using hv) hnext
    have htake : wordsValue (u.take (n + 1)) =
        (u.headD 0).toNat + wordBase * wordsValue (u.tail.take n) := by
      cases u with
      | nil => simp
      | cons x u => rfl
    rw [wordsValue_head_tail v, htake]
    simp only [mulSubRow, wordsValue_cons]
    unfold nextBorrow at hstep hrest
    linear_combination hstep + wordBase * hrest

end Subtract

theorem high_eq {x y p c d : Nat} (hx : x < p) (hy : y < p) (h : x + p * c = y + p * d) :
    c = d := by
  have hlow := low_eq hx hy h
  rw [hlow] at h
  exact Nat.eq_of_mul_eq_mul_left (Nat.zero_lt_of_lt hx) (Nat.add_left_cancel h)

def windowOf (v u : List UInt32) (k : Nat) (h : v.getD (k + 1) 0 ≠ 0) : Window wordBase where
  B := wordBase ^ k
  v1 := (v.getD (k + 1) 0).toNat
  v2 := (v.getD k 0).toNat
  low := wordsValue (v.take k)
  u0 := (u.getD (k + 2) 0).toNat
  u1 := (u.getD (k + 1) 0).toNat
  u2 := (u.getD k 0).toNat
  rest := wordsValue (u.take k)
  v1_pos := Nat.pos_of_ne_zero fun h0 => h (UInt32.toNat_inj.mp h0)
  v2_lt := word_lt _
  u1_lt := word_lt _
  u2_lt := word_lt _
  low_lt := wordsValue_take_lt _ _
  rest_lt := wordsValue_take_lt _ _

theorem windowOf_divisor {k : Nat} (hv : v.length = k + 2) (h : v.getD (k + 1) 0 ≠ 0) :
    (windowOf v u k h).divisor = wordsValue v := by
  have hsplit := wordsValue_take_succ v (k + 1)
  rw [wordsValue_take_succ v k, List.take_of_length_le hv.le] at hsplit
  rw [hsplit, Window.divisor, windowOf]
  ring

theorem windowOf_dividend {k : Nat} (hu : u.length = k + 3) (h : v.getD (k + 1) 0 ≠ 0) :
    (windowOf v u k h).dividend = wordsValue u := by
  have hsplit := wordsValue_take_succ u (k + 2)
  rw [wordsValue_take_succ u (k + 1), wordsValue_take_succ u k, List.take_of_length_le hu.le]
    at hsplit
  rw [hsplit, Window.dividend, windowOf]
  ring

theorem estimate_spec {k : Nat} (hv : v.length = k + 2) (hu : u.length = k + 3)
    (htop : v.getD (k + 1) 0 ≠ 0) (hlt : wordsValue u < wordBase * wordsValue v) {q : UInt64}
    (hq : q = correctQuotient (v.getD (k + 1) 0) (v.getD k 0) (u.getD k 0)
      ((((u.getD (k + 2) 0).toUInt64 <<< 32) ||| (u.getD (k + 1) 0).toUInt64) /
        (v.getD (k + 1) 0).toUInt64)
      ((((u.getD (k + 2) 0).toUInt64 <<< 32) ||| (u.getD (k + 1) 0).toUInt64) %
        (v.getD (k + 1) 0).toUInt64)) :
    q.toNat < wordBase ∧ wordsValue u < (q.toNat + 1) * wordsValue v ∧
      q.toNat * wordsValue v ≤ wordsValue u + wordsValue v := by
  have hjoin := join_toNat (r := (u.getD (k + 2) 0).toUInt64)
    (by rw [UInt32.toNat_toUInt64]; exact word_lt _) (u.getD (k + 1) 0)
  rw [UInt32.toNat_toUInt64] at hjoin
  have hpos : 0 < (v.getD (k + 1) 0).toNat := (windowOf v u k htop).v1_pos
  have hdivisor := windowOf_divisor (u := u) hv htop
  have hdividend := windowOf_dividend hu htop
  have hv2 := word_lt (v.getD (k + 1) 0)
  rw [← hdivisor, ← hdividend] at hlt ⊢
  have htople := Window.top_le (hlt.trans_eq (Nat.mul_comm _ _))
  have hdivmod := Nat.div_add_mod
    (wordBase * (u.getD (k + 2) 0).toNat + (u.getD (k + 1) 0).toNat) (v.getD (k + 1) 0).toNat
  have hmod := Nat.mod_lt
    (wordBase * (u.getD (k + 2) 0).toNat + (u.getD (k + 1) 0).toNat) hpos
  rw [hq]
  apply correctQuotient_spec (w := windowOf v u k htop) rfl rfl rfl htople hlt
  · rw [UInt64.toNat_mod, hjoin, UInt32.toNat_toUInt64]
    exact hmod.trans hv2
  · rw [UInt64.toNat_mod, UInt64.toNat_div, hjoin, UInt32.toNat_toUInt64]
    unfold Window.Estimates
    change (u.getD (k + 2) 0).toNat * wordBase + (u.getD (k + 1) 0).toNat = _ *
      (v.getD (k + 1) 0).toNat + _
    linear_combination -hdivmod
  · rw [UInt64.toNat_div, hjoin, UInt32.toNat_toUInt64, Nat.mul_comm wordBase]
    exact (windowOf v u k htop).first_estimate

theorem knuthStep_length : (knuthStep v u).length = v.length + 1 := by
  unfold knuthStep
  dsimp only
  split <;> simp

/-- One step leaves the remainder of its window, and a zero limb above it. -/
theorem knuthStep_exact {k : Nat} (hv : v.length = k + 2) (hu : u.length = k + 3)
    (htop : v.getD (k + 1) 0 ≠ 0) (hlt : wordsValue u < wordBase * wordsValue v) :
    wordsValue (knuthStep v u) = wordsValue u % wordsValue v := by
  obtain ⟨hq, hlow, hhigh⟩ := estimate_spec hv hu htop hlt rfl
  have hstep := corrected hlow hhigh
  have hvpos : 0 < wordsValue v := by
    by_contra hzero
    rw [Nat.eq_zero_of_not_pos hzero] at hlt
    exact Nat.not_lt_zero _ hlt
  have hmodlt := (Nat.mod_lt (wordsValue u) hvpos).trans (wordsValue_lt v)
  rw [hv] at hmodlt
  unfold knuthStep
  simp only [hv, Nat.add_sub_cancel, show k + 2 - 1 = k + 1 from rfl]
  generalize correctQuotient (v.getD (k + 1) 0) (v.getD k 0) (u.getD k 0) _ _ = q at *
  have hrow := mulSubRow_value (n := k + 2) (u := u) (b := 0) hv.le hq wordBase_pos
  have hrowlen : (mulSubRow (k + 2) v q u 0).1.length = k + 2 := mulSubRow_length
  have hborrowlt := mulSubRow_borrow (n := k + 2) (v := v) (u := u) (b := 0) hq wordBase_pos
  generalize mulSubRow (k + 2) v q u 0 = row at *
  have hsplit := wordsValue_take_succ u (k + 2)
  rw [List.take_of_length_le hu.le] at hsplit
  rw [UInt64.toNat_zero, Nat.add_zero] at hrow
  have hhighlt := word_lt (u.getD (k + 2) 0)
  generalize u.getD (k + 2) 0 = high at *
  have hleft : (high.toUInt64 - row.2).toNat =
      (2 ^ 64 - row.2.toNat + high.toNat) % 2 ^ 64 := by
    rw [UInt64.toNat_sub, UInt32.toNat_toUInt64]
  simp only [wordBase] at hborrowlt hhighlt
  split_ifs with hborrow
  · -- the estimate was one too large, and the divisor is added back
    rw [UInt64.lt_iff_toNat_lt, UInt32.toNat_toUInt64] at hborrow
    have hback := addRow_value (a := row.1) (b := v) hrowlen.le hv.le zero_carry
    have hcarry := addRow_carry (n := k + 2) (a := row.1) (b := v) zero_carry
    have hbacklen : (addRow (k + 2) row.1 v 0).1.length = k + 2 := addRow_length
    have hbacklt := wordsValue_lt (addRow (k + 2) row.1 v 0).1
    rw [hbacklen] at hbacklt
    rw [UInt64.toNat_zero, Nat.add_zero] at hback
    generalize addRow (k + 2) row.1 v 0 = back at *
    obtain ⟨c, hc⟩ := Nat.exists_eq_add_of_lt hborrow
    have hmul : wordBase ^ (k + 2) * row.2.toNat =
        wordBase ^ (k + 2) * high.toNat + wordBase ^ (k + 2) * (c + 1) := by
      rw [hc, Nat.add_assoc, Nat.mul_add]
    rcases hstep with ⟨hle, -⟩ | ⟨-, hmod⟩
    · have hpos : wordBase ^ (k + 2) * 1 ≤ wordBase ^ (k + 2) * (c + 1) :=
        Nat.mul_le_mul_left _ (Nat.succ_le_succ (Nat.zero_le c))
      have hrowlt := wordsValue_lt row.1
      rw [hrowlen] at hrowlt
      omega
    · have hsum : wordsValue back.1 + wordBase ^ (k + 2) * back.2.toNat =
          wordsValue u % wordsValue v + wordBase ^ (k + 2) * (c + 1) := by omega
      have hone : back.2.toNat = c + 1 := high_eq hbacklt hmodlt hsum
      have htopzero : ((high.toUInt64 - row.2).toUInt32.toUInt64 + back.2).toUInt32.toNat = 0 := by
        rw [toUInt32_toNat, UInt64.toNat_add, UInt32.toNat_toUInt64, toUInt32_toNat, hleft,
          wordBase]
        omega
      rw [wordsValue_append, wordsValue_singleton, htopzero, Nat.mul_zero, Nat.add_zero]
      exact low_eq hbacklt hmodlt hsum
  · rw [UInt64.lt_iff_toNat_lt, UInt32.toNat_toUInt64, not_lt] at hborrow
    obtain ⟨c, hc⟩ := Nat.exists_eq_add_of_le hborrow
    have hmul : wordBase ^ (k + 2) * high.toNat =
        wordBase ^ (k + 2) * row.2.toNat + wordBase ^ (k + 2) * c := by
      rw [hc, Nat.mul_add]
    have hleftvalue : (high.toUInt64 - row.2).toUInt32.toNat = c := by
      rw [toUInt32_toNat, hleft, wordBase]
      omega
    rw [wordsValue_append, wordsValue_singleton, hrowlen, hleftvalue]
    rcases hstep with ⟨-, hmod⟩ | ⟨hgt, -⟩
    · omega
    · omega

theorem knuthStep_value {k : Nat} (hv : v.length = k + 2) (hu : u.length = k + 3)
    (htop : v.getD (k + 1) 0 ≠ 0) (hlt : wordsValue u < wordBase * wordsValue v) :
    wordsValue ((knuthStep v u).take v.length) = wordsValue u % wordsValue v := by
  have hvpos : 0 < wordsValue v := by
    by_contra hzero
    rw [Nat.eq_zero_of_not_pos hzero] at hlt
    exact Nat.not_lt_zero _ hlt
  have hmodlt := (Nat.mod_lt (wordsValue u) hvpos).trans (wordsValue_lt v)
  have hsplit := wordsValue_take_drop (knuthStep v u) v.length
    (by rw [knuthStep_length]; exact Nat.le_succ _)
  rw [knuthStep_exact hv hu htop hlt] at hsplit
  exact low_eq (d := 0) (wordsValue_take_lt _ _) hmodlt hsplit.symm

theorem window_lt {x : UInt32} {r : List UInt32} (hlt : wordsValue r < wordsValue v) :
    wordsValue (x :: r) < wordBase * wordsValue v := by
  have hx := word_lt x
  have hmul : wordBase * (wordsValue r + 1) ≤ wordBase * wordsValue v :=
    Nat.mul_le_mul_left _ hlt
  rw [Nat.mul_succ] at hmul
  rw [wordsValue_cons]
  omega

theorem reduceDown_spec {k j : Nat} {r : List UInt32} (hv : v.length = k + 2)
    (htop : v.getD (k + 1) 0 ≠ 0) (hr : r.length = k + 2) (hlt : wordsValue r < wordsValue v) :
    (reduceDown v u j r).length = k + 2 ∧
      wordsValue (reduceDown v u j r) =
        (wordsValue (u.take j) + wordBase ^ j * wordsValue r) % wordsValue v := by
  induction j generalizing r with
  | zero =>
    rw [reduceDown, List.take_zero, wordsValue_nil, pow_zero, Nat.one_mul, Nat.zero_add,
      Nat.mod_eq_of_lt hlt]
    exact ⟨hr, rfl⟩
  | succ j ih =>
    have hwindow : wordsValue (u.getD j 0 :: r) < wordBase * wordsValue v := window_lt hlt
    have hlen : (u.getD j 0 :: r).length = k + 3 := by rw [List.length_cons, hr]
    have hstep := knuthStep_value hv hlen htop hwindow
    have hnext : ((knuthStep v (u.getD j 0 :: r)).take v.length).length = k + 2 := by
      rw [List.length_take, knuthStep_length, hv]
      omega
    have hpos : 0 < wordsValue v := Nat.zero_lt_of_lt hlt
    obtain ⟨hlength, hvalue⟩ := ih hnext (by rw [hstep]; exact Nat.mod_lt _ hpos)
    refine ⟨hlength, ?_⟩
    rw [reduceDown, hvalue, hstep, wordsValue_cons, wordsValue_take_succ]
    rw [Nat.add_mod, Nat.mul_mod, Nat.mod_mod, ← Nat.mul_mod, ← Nat.add_mod]
    congr 1
    ring

theorem shiftRight_toNat {s : Nat} (hs : s < 32) (x : UInt32) :
    (x >>> UInt32.ofNat s).toNat = x.toNat / 2 ^ s := by
  rw [UInt32.toNat_shiftRight, UInt32.toNat_ofNat', Nat.shiftRight_eq_div_pow]
  congr 2
  omega

theorem shiftUp_toNat {s : Nat} (hpos : 0 < s) (hs : s < 32) (x : UInt32) :
    (x <<< (32 - UInt32.ofNat s)).toNat = x.toNat % 2 ^ s * 2 ^ (32 - s) := by
  have hx := x.toNat_lt
  have hof : (32 - UInt32.ofNat s).toNat = 32 - s := by
    rw [UInt32.toNat_sub, UInt32.toNat_ofNat']
    change (2 ^ 32 - s % 2 ^ 32 + 32) % 2 ^ 32 = _
    omega
  rw [UInt32.toNat_shiftLeft, hof, Nat.mod_eq_of_lt (by omega : 32 - s < 32), Nat.shiftLeft_eq,
    show 2 ^ 32 = 2 ^ s * 2 ^ (32 - s) by rw [← pow_add]; congr 1; omega, Nat.mul_mod_mul_right]

/-- Shifting a row right divides it, and what is shifted out is the carry. -/
theorem shiftRightRow_spec {s : Nat} (hpos : 0 < s) (hs : s < 32) :
    (shiftRightRow (UInt32.ofNat s) w).1.length = w.length ∧
      wordsValue (shiftRightRow (UInt32.ofNat s) w).1 = wordsValue w / 2 ^ s ∧
      (shiftRightRow (UInt32.ofNat s) w).2.toNat = wordsValue w % 2 ^ s * 2 ^ (32 - s) := by
  have hbase : wordBase = 2 ^ s * 2 ^ (32 - s) := by
    rw [wordBase, ← pow_add]
    congr 1
    omega
  have hdvd : 2 ^ s ∣ wordBase := Dvd.intro _ hbase.symm
  induction w with
  | nil => simp [shiftRightRow]
  | cons x w ih =>
    obtain ⟨hlen, hvalue, hcarry⟩ := ih
    have hx := word_lt x
    have hhigh : x.toNat / 2 ^ s < 2 ^ (32 - s) := by
      apply Nat.div_lt_of_lt_mul
      rwa [← hbase]
    have hword : ((x >>> UInt32.ofNat s) ||| (shiftRightRow (UInt32.ofNat s) w).2).toNat =
        x.toNat / 2 ^ s + wordsValue w % 2 ^ s * 2 ^ (32 - s) := by
      rw [UInt32.toNat_or, shiftRight_toNat hs, hcarry, ← Nat.shiftLeft_eq, Nat.or_comm,
        ← Nat.shiftLeft_add_eq_or_of_lt hhigh, Nat.add_comm]
    refine ⟨?_, ?_, ?_⟩
    · simp [shiftRightRow, hlen]
    · have hdivmod := Nat.div_add_mod (wordsValue w) (2 ^ s)
      simp only [shiftRightRow, wordsValue_cons, hword, hvalue]
      have hsplit : x.toNat + wordBase * wordsValue w = x.toNat + 2 ^ s *
          (wordsValue w % 2 ^ s * 2 ^ (32 - s) + wordBase * (wordsValue w / 2 ^ s)) := by
        conv_lhs => rw [← hdivmod]
        rw [hbase]
        ring
      rw [hsplit, Nat.add_mul_div_left _ _ (Nat.two_pow_pos s)]
      ring
    · simp only [shiftRightRow, wordsValue_cons]
      rw [shiftUp_toNat hpos hs, Nat.add_mod, Nat.mod_eq_zero_of_dvd (hdvd.mul_right _), Nat.add_zero,
        Nat.mod_mod]

/-- The limbs above the first offset are fewer than the divisor's, and below it. -/
theorem first_window {k s : Nat} {x m : Nat} (hvalue : wordsValue v = m * 2 ^ s)
    (hlarge : wordBase ^ (k + 1) ≤ m) (hu : u.length = n + 1) (hn : k + 2 ≤ n)
    (hx : x < wordBase ^ n) (huvalue : wordsValue u = x * 2 ^ s) :
    (u.drop (n - (k + 2) + 1)).length = k + 2 ∧
      wordsValue (u.drop (n - (k + 2) + 1)) < wordsValue v := by
  have hsplit := wordsValue_take_drop u (n - (k + 2) + 1) (by omega)
  have hpow : wordBase ^ n = wordBase ^ (n - (k + 2) + 1) * wordBase ^ (k + 1) := by
    rw [← pow_add]
    congr 1
    omega
  have hscaled : wordsValue u < wordBase ^ (n - (k + 2) + 1) * (wordBase ^ (k + 1) * 2 ^ s) := by
    rw [huvalue, ← Nat.mul_assoc, ← hpow]
    exact Nat.mul_lt_mul_of_pos_right hx (Nat.two_pow_pos s)
  have hdrop : wordsValue (u.drop (n - (k + 2) + 1)) < wordBase ^ (k + 1) * 2 ^ s := by
    apply Nat.lt_of_mul_lt_mul_left (a := wordBase ^ (n - (k + 2) + 1))
    omega
  constructor
  · rw [List.length_drop]
    omega
  · rw [hvalue]
    exact hdrop.trans_le (Nat.mul_le_mul_right _ hlarge)

/-- The division itself, once both numbers are shifted by `s` bits. -/
theorem reduce_shifted {k s : Nat} (hv : v.length = k + 2) (htop : v.getD (k + 1) 0 ≠ 0)
    {x m : Nat} (hvalue : wordsValue v = m * 2 ^ s) (hlarge : wordBase ^ (k + 1) ≤ m)
    (hu : u.length = n + 1) (hn : k + 2 ≤ n) (hx : x < wordBase ^ n)
    (huvalue : wordsValue u = x * 2 ^ s) :
    (reduceDown v u (n - (k + 2) + 1) (u.drop (n - (k + 2) + 1))).length = k + 2 ∧
      wordsValue (reduceDown v u (n - (k + 2) + 1) (u.drop (n - (k + 2) + 1))) =
        x % m * 2 ^ s := by
  have hsplit := wordsValue_take_drop u (n - (k + 2) + 1) (by omega)
  obtain ⟨hlen, hlt⟩ := first_window hvalue hlarge hu hn hx huvalue
  obtain ⟨hlength, hrest⟩ := reduceDown_spec (u := u) (j := n - (k + 2) + 1) hv htop hlen hlt
  refine ⟨hlength, ?_⟩
  rw [hrest, ← hsplit, huvalue, hvalue, Nat.mul_mod_mul_right]

/-- The divisor's highest limb has room for the shift, so no limb is added to it. -/
theorem top_room {m : List UInt32} {k s : Nat} (hm : m.length = k + 2) (hs : s < 32)
    (hfit : (m.getD (k + 1) 0).toNat * 2 ^ s < wordBase) :
    wordsValue m * 2 ^ s < wordBase ^ (k + 2) := by
  have hlow := wordsValue_take_lt m (k + 1)
  have hsplit := wordsValue_take_succ m (k + 1)
  rw [List.take_of_length_le hm.le] at hsplit
  have hbase : wordBase = 2 ^ (32 - s) * 2 ^ s := by
    rw [wordBase, ← pow_add]
    congr 1
    omega
  have hroom : ((m.getD (k + 1) 0).toNat + 1) * 2 ^ s ≤ wordBase := by
    rw [hbase] at hfit ⊢
    exact Nat.mul_le_mul_right _ (Nat.lt_of_mul_lt_mul_right hfit)
  have hlt : wordsValue m < wordBase ^ (k + 1) * ((m.getD (k + 1) 0).toNat + 1) := by
    rw [Nat.mul_succ]
    omega
  calc wordsValue m * 2 ^ s
      < wordBase ^ (k + 1) * ((m.getD (k + 1) 0).toNat + 1) * 2 ^ s :=
        Nat.mul_lt_mul_of_pos_right hlt (Nat.two_pow_pos s)
    _ = wordBase ^ (k + 1) * (((m.getD (k + 1) 0).toNat + 1) * 2 ^ s) := Nat.mul_assoc _ _ _
    _ ≤ wordBase ^ (k + 1) * wordBase := Nat.mul_le_mul_left _ hroom
    _ = wordBase ^ (k + 2) := (pow_succ _ _).symm

def divisorWords (modulus : List UInt32) : List UInt32 :=
  let shift := bignumClz32 (modulus.getD (modulus.length - 1) 0)
  if shift = 0 then modulus else (shiftLeftRow (UInt64.ofNat shift) modulus 0).1

def dividendWords (a modulus : List UInt32) : List UInt32 :=
  let shift := bignumClz32 (modulus.getD (modulus.length - 1) 0)
  if shift = 0 then a ++ [0]
  else
    let row := shiftLeftRow (UInt64.ofNat shift) a 0
    row.1 ++ [row.2.toUInt32]

section Shifted

variable {x m : List UInt32} {k : Nat}

theorem value_ge_top (hm : m.length = k + 2) :
    wordBase ^ (k + 1) * (m.getD (k + 1) 0).toNat ≤ wordsValue m := by
  have hsplit := wordsValue_take_succ m (k + 1)
  rw [List.take_of_length_le hm.le] at hsplit
  omega

theorem top_large (hm : m.length = k + 2) (htop : m.getD (k + 1) 0 ≠ 0) :
    wordBase ^ (k + 1) ≤ wordsValue m := by
  have hpos : 1 ≤ (m.getD (k + 1) 0).toNat :=
    Nat.one_le_iff_ne_zero.mpr fun h => htop (UInt32.toNat_inj.mp h)
  have hmul : wordBase ^ (k + 1) * 1 ≤ wordBase ^ (k + 1) * (m.getD (k + 1) 0).toNat :=
    Nat.mul_le_mul_left _ hpos
  have hge := value_ge_top hm
  omega

theorem divisorWords_spec (hm : m.length = k + 2) (htop : m.getD (k + 1) 0 ≠ 0) :
    (divisorWords m).length = k + 2 ∧ (divisorWords m).getD (k + 1) 0 ≠ 0 ∧
      wordsValue (divisorWords m) = wordsValue m * 2 ^ bignumClz32 (m.getD (k + 1) 0) := by
  obtain ⟨hshift, hfit⟩ := bignumClz32_spec htop
  unfold divisorWords
  simp only [hm, show k + 2 - 1 = k + 1 from rfl]
  generalize bignumClz32 (m.getD (k + 1) 0) = s at *
  by_cases hs : s = 0
  · simp only [if_pos hs]
    refine ⟨hm, htop, ?_⟩
    rw [hs, pow_zero, Nat.mul_one]
  · simp only [if_neg hs]
    have hmvalue := shiftLeftRow_value (w := m) (c := 0) hshift (Nat.two_pow_pos s)
    have hmlen : (shiftLeftRow (UInt64.ofNat s) m 0).1.length = k + 2 :=
      shiftLeftRow_length.trans hm
    have hmrow : wordsValue (shiftLeftRow (UInt64.ofNat s) m 0).1 = wordsValue m * 2 ^ s := by
      have hlt := top_room hm hshift hfit
      rw [hm] at hmvalue
      change _ = wordsValue m * 2 ^ s at hmvalue
      rw [← hmvalue] at hlt
      rw [high_eq_zero hlt, Nat.mul_zero, Nat.add_zero] at hmvalue
      exact hmvalue
    refine ⟨hmlen, ?_, hmrow⟩
    have hge : wordBase ^ (k + 1) ≤ wordsValue (shiftLeftRow (UInt64.ofNat s) m 0).1 := by
      rw [hmrow]
      exact (top_large hm htop).trans (Nat.le_mul_of_pos_right _ (Nat.two_pow_pos s))
    have hne := top_ne_zero (w := (shiftLeftRow (UInt64.ofNat s) m 0).1)
    rw [hmlen] at hne
    exact hne hge (Nat.succ_ne_zero _)

theorem divisorWords_top (hm : m.length = k + 2) (htop : m.getD (k + 1) 0 ≠ 0) :
    2 ^ 31 ≤ ((divisorWords m).getD (k + 1) 0).toNat := by
  obtain ⟨hlen, -, hvalue⟩ := divisorWords_spec hm htop
  have hsplit := wordsValue_take_succ (divisorWords m) (k + 1)
  rw [List.take_of_length_le hlen.le] at hsplit
  have hlow := wordsValue_take_lt (divisorWords m) (k + 1)
  have hge : wordBase ^ (k + 1) * 2 ^ 31 ≤ wordsValue (divisorWords m) := by
    rw [hvalue]
    calc wordBase ^ (k + 1) * 2 ^ 31
        ≤ wordBase ^ (k + 1) * ((m.getD (k + 1) 0).toNat *
            2 ^ bignumClz32 (m.getD (k + 1) 0)) := Nat.mul_le_mul_left _ (bignumClz32_top htop)
      _ = wordBase ^ (k + 1) * (m.getD (k + 1) 0).toNat * 2 ^ bignumClz32 (m.getD (k + 1) 0) :=
          (Nat.mul_assoc _ _ _).symm
      _ ≤ wordsValue m * 2 ^ bignumClz32 (m.getD (k + 1) 0) :=
          Nat.mul_le_mul_right _ (value_ge_top hm)
  have hlt : wordBase ^ (k + 1) * 2 ^ 31 <
      wordBase ^ (k + 1) * (((divisorWords m).getD (k + 1) 0).toNat + 1) := by
    rw [Nat.mul_succ]
    omega
  exact Nat.le_of_lt_succ (Nat.lt_of_mul_lt_mul_left hlt)

theorem dividendWords_spec (hm : m.length = k + 2) (htop : m.getD (k + 1) 0 ≠ 0) :
    (dividendWords x m).length = x.length + 1 ∧
      wordsValue (dividendWords x m) = wordsValue x * 2 ^ bignumClz32 (m.getD (k + 1) 0) := by
  obtain ⟨hshift, -⟩ := bignumClz32_spec htop
  unfold dividendWords
  simp only [hm, show k + 2 - 1 = k + 1 from rfl]
  generalize bignumClz32 (m.getD (k + 1) 0) = s at *
  by_cases hs : s = 0
  · simp only [if_pos hs]
    refine ⟨by simp, ?_⟩
    rw [wordsValue_append, wordsValue_singleton, hs]
    simp
  · simp only [if_neg hs]
    have hzero : (0 : UInt64).toNat < 2 ^ s := Nat.two_pow_pos s
    have hxvalue := shiftLeftRow_value (w := x) hshift hzero
    have hxcarry := shiftLeftRow_carry (w := x) hshift hzero
    have hxlen : (shiftLeftRow (UInt64.ofNat s) x 0).1.length = x.length := shiftLeftRow_length
    have hpow : 2 ^ s ≤ wordBase := Nat.pow_le_pow_right Nat.two_pos hshift.le
    refine ⟨by rw [List.length_append, hxlen, List.length_singleton], ?_⟩
    rw [wordsValue_append, wordsValue_singleton, hxlen, toUInt32_toNat,
      Nat.mod_eq_of_lt (hxcarry.trans_le hpow), hxvalue]
    rfl

theorem remainderWords_eq (x m : List UInt32) :
    remainderWords x m =
      let remainder := reduceDown (divisorWords m) (dividendWords x m) (x.length - m.length + 1)
        ((dividendWords x m).drop (x.length - m.length + 1))
      let shift := bignumClz32 (m.getD (m.length - 1) 0)
      if shift = 0 then remainder else (shiftRightRow (UInt32.ofNat shift) remainder).1 := rfl

theorem remainderWords_spec (hm : m.length = k + 2) (htop : m.getD (k + 1) 0 ≠ 0)
    (hx : k + 2 ≤ x.length) :
    (remainderWords x m).length = k + 2 ∧
      wordsValue (remainderWords x m) = wordsValue x % wordsValue m := by
  obtain ⟨hshift, -⟩ := bignumClz32_spec htop
  obtain ⟨hmlen, hmtop, hmvalue⟩ := divisorWords_spec hm htop
  obtain ⟨hxlen, hxvalue⟩ := dividendWords_spec (x := x) hm htop
  obtain ⟨hlen, hvalue⟩ := reduce_shifted hmlen hmtop hmvalue (top_large hm htop) hxlen hx
    (wordsValue_lt x) hxvalue
  rw [remainderWords_eq]
  simp only [hm, show k + 2 - 1 = k + 1 from rfl]
  generalize reduceDown (divisorWords m) (dividendWords x m) _ _ = remainder at *
  generalize bignumClz32 (m.getD (k + 1) 0) = s at *
  by_cases hs : s = 0
  · rw [if_pos hs]
    rw [hs, pow_zero, Nat.mul_one] at hvalue
    exact ⟨hlen, hvalue⟩
  · rw [if_neg hs]
    obtain ⟨hrlen, hrvalue, -⟩ := shiftRightRow_spec (Nat.pos_of_ne_zero hs) hshift (w := remainder)
    exact ⟨hrlen.trans hlen, by rw [hrvalue, hvalue, Nat.mul_div_cancel _ (Nat.two_pow_pos s)]⟩

end Shifted

theorem cryptoBignumMod_ensures (hout : out.Valid) (ha : a.Valid) (hm : modulus.Valid)
    (hpos : modulus.value ≠ 0) (h : 4 * (modulus.length + a.length + 1) ≤ room) :
    Ensures room (cryptoBignumMod out a modulus)
      fun r => r.Valid ∧ r.value = a.value % modulus.value := by
  have hlength : modulus.length ≠ 0 := fun h0 => hpos (hm.length_eq_zero.mp h0)
  unfold cryptoBignumMod
  rw [if_neg hlength, cryptoBignumCompare_eq ha hm]
  split_ifs with hlt hone
  · have hless := Nat.compare_eq_lt.mp hlt
    rw [Nat.mod_eq_of_lt hless]
    exact cryptoBignumCopy_ensures hout ha (by omega)
  · -- a single limb is reduced limb by limb
    have hlimb : (modulus.limbs.getD 0 0).toNat = modulus.value := by
      have htop := hm.value_top hlength
      rw [hone] at htop
      simpa using htop.symm
    have hne : modulus.limbs.getD 0 0 ≠ 0 := by
      intro h0
      rw [h0] at hlimb
      exact hpos hlimb.symm
    apply (cryptoBignumSetU64_ensures hout _ (by omega)).mono
    rintro r ⟨hvalid, hvalue⟩
    refine ⟨hvalid, hvalue.trans ?_⟩
    rw [UInt32.toNat_toUInt64, bignumModU32_toNat ha hne, hlimb]
  · have hge : modulus.value ≤ a.value := not_lt.mp fun h0 => hlt (Nat.compare_eq_lt.mpr h0)
    have hle := hm.length_le_of_value hge
    obtain ⟨k, hk⟩ : ∃ k, modulus.length = k + 2 := ⟨modulus.length - 2, by omega⟩
    have htop := hm.words_top (by rw [hm.words_length]; exact hlength)
    rw [hm.words_length, hk] at htop
    obtain ⟨hlen, hvalue⟩ := remainderWords_spec (x := a.words) (hm.words_length.trans hk) htop
      (by rw [ha.words_length]; omega)
    dsimp only
    apply Ensures.guard
    · intro hroom
      omega
    intro _
    apply Ensures.guard
    · intro hroom
      omega
    intro _
    apply (Ensures.allocate h).bind
    intro _ _
    apply (bignumReserve_ensures init_valid (n := modulus.length) (by omega)).bind
    rintro grown ⟨hvalid, -, hgrown, hcapacity, -⟩
    apply Ensures.pure
    have hlen' : (remainderWords a.words modulus.words).length = modulus.length := hlen.trans hk.symm
    have hcover : grown.length ≤ (remainderWords a.words modulus.words).length := by
      rw [hgrown]
      exact Nat.zero_le _
    have hstored := storeWords_covering hvalid hcover (hlen'.trans_le hcapacity)
    have hnormal := padded_normalize (remainderWords a.words modulus.words)
      (grown.capacity - (remainderWords a.words modulus.words).length)
    rw [← hstored, hlen', hvalue] at hnormal
    exact hnormal

end LiberaCrypt.BignumMod
