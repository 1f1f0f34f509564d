import LiberaCrypt.Bignum
import LiberaCrypt.BignumMod
import LiberaCrypt.WordArithmetic

namespace LiberaCrypt.BignumDivision

open LiberaCrypt.Outcome LiberaCrypt.Allocation LiberaCrypt.Limbs LiberaCrypt.Bignum
open LiberaCrypt.BignumAdd LiberaCrypt.QuotientEstimate LiberaCrypt.BignumMod
open LiberaCrypt.BignumObjects LiberaCrypt.CheckedWords

/-- The operands are read before `OUT` is written. -/
def cryptoBignumModAt (out a modulus : Nat) (objects : Objects) : Fallible Objects :=
  writeTo out objects (cryptoBignumMod (objects out) (objects a) (objects modulus))

section Steps

variable (vn un : List UInt32)

def numerator : UInt64 :=
  ((un.getD vn.length 0).toUInt64 <<< 32) ||| (un.getD (vn.length - 1) 0).toUInt64

def firstEstimate : UInt64 := numerator vn un / (vn.getD (vn.length - 1) 0).toUInt64

def quotientDigit : UInt64 :=
  correctQuotient (vn.getD (vn.length - 1) 0) (vn.getD (vn.length - 2) 0)
    (un.getD (vn.length - 2) 0) (firstEstimate vn un)
    (numerator vn un % (vn.getD (vn.length - 1) 0).toUInt64)

/-- The limbs of `un -= qhat * vn` and the borrow out of them. -/
def subtracted : List UInt32 × UInt64 := mulSubRow vn.length vn (quotientDigit vn un) un 0

def windowsDown : Nat → List UInt32 → List (List UInt32)
  | 0, _ => []
  | j + 1, remainder =>
    (un.getD j 0 :: remainder) ::
      windowsDown j ((knuthStep vn (un.getD j 0 :: remainder)).take vn.length)

end Steps

def divisionWindows (a modulus : List UInt32) : List (List UInt32) :=
  let un := dividendWords a modulus
  let m := a.length - modulus.length
  windowsDown (divisorWords modulus) un (m + 1) (un.drop (m + 1))

def nextBorrowChecked (minuend : UInt32) (product : UInt64) : Option UInt64 :=
  if minuend < product.toUInt32 then add64 (product >>> 32) 1 else some (product >>> 32)

/-- The row of products, with no result where a product or a borrow would wrap. -/
def mulSubRowChecked :
    Nat → List UInt32 → UInt64 → List UInt32 → UInt64 → Option (List UInt32 × UInt64)
  | 0, _, _, _, borrow => some ([], borrow)
  | n + 1, v, qhat, u, borrow => do
    let product ← mul64 qhat (v.headD 0).toUInt64
    let product ← add64 product borrow
    let borrow ← nextBorrowChecked (u.headD 0) product
    let rest ← mulSubRowChecked n v.tail qhat u.tail borrow
    some ((u.headD 0 - product.toUInt32) :: rest.1, rest.2)

/-- What one step of the division does on the window `un`. -/
structure StepExact (vn un : List UInt32) : Prop where
  /-- The estimate is corrected at most twice. -/
  corrections : (firstEstimate vn un).toNat ≤ (quotientDigit vn un).toNat + 2
  products : mulSubRowChecked vn.length vn (quotientDigit vn un) un 0 = some (subtracted vn un)
  /-- What the limbs lose modulo their width is in the borrow. -/
  difference : wordsValue (subtracted vn un).1 + (quotientDigit vn un).toNat * wordsValue vn =
    wordsValue (un.take vn.length) + wordBase ^ vn.length * (subtracted vn un).2.toNat
  noticed : (un.getD vn.length 0).toUInt64 < (subtracted vn un).2 ↔
    wordsValue un < (quotientDigit vn un).toNat * wordsValue vn
  /-- The divisor is added back exactly where the digit was one too large. -/
  addBack : wordsValue (knuthStep vn un) + (quotientDigit vn un).toNat * wordsValue vn =
    if wordsValue un < (quotientDigit vn un).toNat * wordsValue vn then
      wordsValue un + wordsValue vn
    else wordsValue un
  remainder : wordsValue (knuthStep vn un) = wordsValue un % wordsValue vn

variable {v u : List UInt32} {n k : Nat}

theorem mulSubRowChecked_some {q b : UInt64} (hq : q.toNat < wordBase) (hb : b.toNat < wordBase) :
    mulSubRowChecked n v q u b = some (mulSubRow n v q u b) := by
  induction n generalizing v u b with
  | zero => rfl
  | succ n ih =>
    obtain ⟨hproduct, hle⟩ := mulSub_product (d := v.headD 0) hq hb
    obtain ⟨hstep, hnext⟩ := mulSub_step (d := v.headD 0) (x := u.headD 0) hq hb
    have hmul : mul64 q (v.headD 0).toUInt64 = some (q * (v.headD 0).toUInt64) := by
      apply mul64_eq
      rw [UInt32.toNat_toUInt64]
      simp only [wordBase] at hle
      omega
    have hmulvalue : (q * (v.headD 0).toUInt64).toNat = q.toNat * (v.headD 0).toNat := by
      rw [UInt64.toNat_mul, UInt32.toNat_toUInt64, Nat.mod_eq_of_lt]
      simp only [wordBase] at hle
      omega
    have hadd : add64 (q * (v.headD 0).toUInt64) b = some (q * (v.headD 0).toUInt64 + b) := by
      apply add64_eq
      rw [hmulvalue]
      simp only [wordBase] at hle
      omega
    have hhigh := high_lt (q * (v.headD 0).toUInt64 + b)
    have hinc : add64 ((q * (v.headD 0).toUInt64 + b) >>> 32) 1 =
        some ((q * (v.headD 0).toUInt64 + b) >>> 32 + 1) := by
      apply add64_eq
      rw [UInt64.toNat_one]
      simp only [wordBase] at hhigh
      omega
    have hborrow : nextBorrowChecked (u.headD 0) (q * (v.headD 0).toUInt64 + b) =
        some (nextBorrow (v.headD 0) (u.headD 0) q b) := by
      unfold nextBorrowChecked nextBorrow
      rw [hinc]
      split_ifs <;> rfl
    have hrest := ih (v := v.tail) (u := u.tail) hnext
    simp only [mulSubRowChecked, hmul, hadd, hborrow, hrest, Option.bind_eq_bind, Option.bind_some]
    rfl

theorem stepExact (hv : v.length = k + 2) (hu : u.length = k + 3)
    (htop : 2 ^ 31 ≤ (v.getD (k + 1) 0).toNat) (hlt : wordsValue u < wordBase * wordsValue v) :
    StepExact v u := by
  have hne : v.getD (k + 1) 0 ≠ 0 := by
    intro h0
    rw [h0] at htop
    exact absurd htop (by decide)
  have hlow : v.length - 1 = k + 1 := by omega
  have hlow' : v.length - 2 = k := by omega
  have hdigit : quotientDigit v u = correctQuotient (v.getD (k + 1) 0) (v.getD k 0) (u.getD k 0)
      ((((u.getD (k + 2) 0).toUInt64 <<< 32) ||| (u.getD (k + 1) 0).toUInt64) /
        (v.getD (k + 1) 0).toUInt64)
      ((((u.getD (k + 2) 0).toUInt64 <<< 32) ||| (u.getD (k + 1) 0).toUInt64) %
        (v.getD (k + 1) 0).toUInt64) := by
    simp only [quotientDigit, firstEstimate, numerator, hlow, hlow']
    rw [hv]
  obtain ⟨hq, hbelow, hhigh⟩ := estimate_spec hv hu hne hlt hdigit
  have hexact := knuthStep_exact hv hu hne hlt
  have hdivisor := windowOf_divisor (u := u) hv hne
  have hdividend := windowOf_dividend hu hne
  have htople : (windowOf v u k hne).u0 ≤ (windowOf v u k hne).v1 := by
    apply Window.top_le
    rw [hdivisor, hdividend, Nat.mul_comm]
    exact hlt
  have hrow : wordsValue (subtracted v u).1 + (quotientDigit v u).toNat * wordsValue v =
      wordsValue (u.take v.length) + wordBase ^ v.length * (subtracted v u).2.toNat := by
    have hvalue := mulSubRow_value (n := v.length) (u := u) (b := 0) le_rfl hq wordBase_pos
    rwa [UInt64.toNat_zero, Nat.add_zero] at hvalue
  have hrowlt : wordsValue (subtracted v u).1 < wordBase ^ v.length := by
    have hvalue := wordsValue_lt (subtracted v u).1
    rwa [show (subtracted v u).1.length = v.length from mulSubRow_length] at hvalue
  have hsplit := wordsValue_take_succ u v.length
  rw [List.take_of_length_le (by omega)] at hsplit
  have hnoticed : (u.getD v.length 0).toUInt64 < (subtracted v u).2 ↔
      wordsValue u < (quotientDigit v u).toNat * wordsValue v := by
    rw [UInt64.lt_iff_toNat_lt, UInt32.toNat_toUInt64]
    constructor
    · intro hborrow
      have hmul : wordBase ^ v.length * ((u.getD v.length 0).toNat + 1) ≤
          wordBase ^ v.length * (subtracted v u).2.toNat := Nat.mul_le_mul_left _ hborrow
      rw [Nat.mul_succ] at hmul
      omega
    · intro hless
      by_contra hge
      have hmul : wordBase ^ v.length * (subtracted v u).2.toNat ≤
          wordBase ^ v.length * (u.getD v.length 0).toNat := Nat.mul_le_mul_left _ (not_lt.mp hge)
      omega
  refine ⟨?_, mulSubRowChecked_some hq wordBase_pos, hrow, hnoticed, ?_, hexact⟩
  · have hfirst : (firstEstimate v u).toNat =
        ((windowOf v u k hne).u0 * wordBase + (windowOf v u k hne).u1) /
          (windowOf v u k hne).v1 := by
      have hjoin := join_toNat (r := (u.getD (k + 2) 0).toUInt64)
        (by rw [UInt32.toNat_toUInt64]; exact word_lt _) (u.getD (k + 1) 0)
      rw [UInt32.toNat_toUInt64, Nat.mul_comm] at hjoin
      simp only [firstEstimate, numerator, hlow, UInt64.toNat_div, UInt32.toNat_toUInt64]
      rw [hv, hjoin]
      rfl
    have hle := Window.first_estimate_le (w := windowOf v u k hne)
      (by simp only [windowOf, wordBase]; omega) htople
    rw [← hfirst, hdivisor, hdividend] at hle
    by_contra hgt
    have hmul : ((quotientDigit v u).toNat + 1) * wordsValue v ≤
        ((firstEstimate v u).toNat - 2) * wordsValue v := Nat.mul_le_mul_right _ (by omega)
    omega
  · rw [hexact]
    rcases corrected hbelow hhigh with ⟨hle, hmod⟩ | ⟨hgt, hmod⟩
    · rw [if_neg (not_lt.mpr hle), ← hmod, Nat.sub_add_cancel hle]
    · rw [if_pos hgt, ← hmod, Nat.sub_add_cancel hhigh]

theorem windowsDown_exact {j : Nat} {r : List UInt32} (hv : v.length = k + 2)
    (htop : 2 ^ 31 ≤ (v.getD (k + 1) 0).toNat) (hr : r.length = k + 2)
    (hlt : wordsValue r < wordsValue v) : ∀ window ∈ windowsDown v u j r, StepExact v window := by
  induction j generalizing r with
  | zero => simp [windowsDown]
  | succ j ih =>
    have hwindow : wordsValue (u.getD j 0 :: r) < wordBase * wordsValue v := window_lt hlt
    have hlen : (u.getD j 0 :: r).length = k + 3 := by rw [List.length_cons, hr]
    have hstep := stepExact hv hlen htop hwindow
    intro window hmem
    rw [windowsDown, List.mem_cons] at hmem
    rcases hmem with rfl | hmem
    · exact hstep
    · apply ih _ _ window hmem
      · rw [List.length_take, knuthStep_length, hv]
        omega
      · have hne : v.getD (k + 1) 0 ≠ 0 := by
          intro h0
          rw [h0] at htop
          exact absurd htop (by decide)
        rw [knuthStep_value hv hlen hne hwindow]
        exact Nat.mod_lt _ (Nat.zero_lt_of_lt hlt)

theorem divisionWindows_exact {x m : List UInt32} (hm : m.length = k + 2)
    (htop : m.getD (k + 1) 0 ≠ 0) (hx : k + 2 ≤ x.length) :
    ∀ window ∈ divisionWindows x m, StepExact (divisorWords m) window := by
  obtain ⟨hmlen, -, hmvalue⟩ := divisorWords_spec hm htop
  obtain ⟨hxlen, hxvalue⟩ := dividendWords_spec (x := x) hm htop
  obtain ⟨hlen, hlt⟩ := first_window hmvalue (top_large hm htop) hxlen hx (wordsValue_lt x) hxvalue
  unfold divisionWindows
  dsimp only
  rw [hm]
  exact windowsDown_exact hmlen (divisorWords_top hm htop) hlen hlt

/-- The remainder is written to any of the three objects, and every step on the way to it is
exact. -/
theorem bignumMod_exact (objects : Objects) (out a modulus room : Nat)
    (hout : (objects out).Valid) (ha : (objects a).Valid) (hm : (objects modulus).Valid)
    (hpos : (objects modulus).value ≠ 0)
    (hroom : 4 * ((objects modulus).length + (objects a).length + 1) ≤ room) :
    Ensures room (cryptoBignumModAt out a modulus objects) (fun after =>
      ((after out).Valid ∧ (after out).value = (objects a).value % (objects modulus).value ∧
        (after out).value < (objects modulus).value) ∧
      ∀ other, other ≠ out → after other = objects other) ∧
    (2 ≤ (objects modulus).length → (objects modulus).value ≤ (objects a).value →
      ∀ window ∈ divisionWindows (objects a).words (objects modulus).words,
        StepExact (divisorWords (objects modulus).words) window) := by
  have hlt := Nat.mod_lt (objects a).value (Nat.pos_of_ne_zero hpos)
  have hmod : Ensures room (cryptoBignumMod (objects out) (objects a) (objects modulus)) fun r =>
      r.Valid ∧ r.value = (objects a).value % (objects modulus).value ∧
        r.value < (objects modulus).value := by
    apply (cryptoBignumMod_ensures hout ha hm hpos hroom).mono
    rintro r ⟨hvalid, hvalue⟩
    exact ⟨hvalid, hvalue, hvalue.trans_lt hlt⟩
  constructor
  · exact writeTo_ensures hmod
  · intro hlong hge
    obtain ⟨k, hk⟩ : ∃ k, (objects modulus).length = k + 2 :=
      ⟨(objects modulus).length - 2, by omega⟩
    have hle := hm.length_le_of_value hge
    have htop := hm.words_top (by rw [hm.words_length]; omega)
    rw [hm.words_length, hk] at htop
    apply divisionWindows_exact (hm.words_length.trans hk) htop
    rw [ha.words_length]
    omega

theorem bignumMod_exact_aliased :
    Ensures 1000 (cryptoBignumModAt 1 0 1 fun i =>
        if i = 0 then ⟨[3, 0, 0x80000000], 3⟩ else ⟨[1, 0, 0x20000000], 3⟩) (fun after =>
      ((after 1).Valid ∧ (after 1).value = (2 ^ 95 + 3) % (2 ^ 93 + 1) ∧
        (after 1).value < 2 ^ 93 + 1) ∧
      ∀ other, other ≠ 1 → after other =
        if other = 0 then ⟨[3, 0, 0x80000000], 3⟩ else ⟨[1, 0, 0x20000000], 3⟩) ∧
    (2 ≤ 3 → 2 ^ 93 + 1 ≤ 2 ^ 95 + 3 →
      ∀ window ∈ divisionWindows [3, 0, 0x80000000] [1, 0, 0x20000000],
        StepExact (divisorWords [1, 0, 0x20000000]) window) := by
  have hone : LiberaCBignum.Valid ⟨[1, 0, 0x20000000], 3⟩ :=
    ⟨by decide, fun i hi => List.getD_eq_default _ _ hi, by decide⟩
  have hzero : LiberaCBignum.Valid ⟨[3, 0, 0x80000000], 3⟩ :=
    ⟨by decide, fun i hi => List.getD_eq_default _ _ hi, by decide⟩
  exact bignumMod_exact
    (fun i => if i = 0 then ⟨[3, 0, 0x80000000], 3⟩ else ⟨[1, 0, 0x20000000], 3⟩) 1 0 1 1000
    hone hzero hone (by decide) (by decide)

end LiberaCrypt.BignumDivision
