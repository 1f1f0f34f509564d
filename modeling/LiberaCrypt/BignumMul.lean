import LiberaCrypt.Bignum

namespace LiberaCrypt.BignumMul

open LiberaCrypt.Outcome LiberaCrypt.Allocation LiberaCrypt.Limbs LiberaCrypt.Bignum

/-- The rows of the schoolbook product, one for each limb of the first factor. The window holds the
limbs `i .. i + b_length` of the product, so that its head is final after row `i`. -/
def schoolbookRows (b : List UInt32) : List UInt32 → List UInt32 → List UInt32
  | [], window => window
  | x :: xs, window =>
    let row := mulAddRow b.length b x window 0
    let next := row.1 ++ [row.2.toUInt32]
    next.headD 0 :: schoolbookRows b xs next.tail

def bignumSchoolbookWords (a b : List UInt32) : List UInt32 :=
  schoolbookRows b a (List.replicate b.length 0)

def bignumMulNoalias (out a b : LiberaCBignum) : Fallible LiberaCBignum :=
  if a.length = 0 ∨ b.length = 0 then
    pure ⟨bignumClearStaleTail out.limbs out.length 0, 0⟩
  else if sizeMax - b.length < a.length then throw .invalidArgument
  else do
    let productLength := a.length + b.length
    let grown ← bignumReserve out productLength
    let product := bignumSchoolbookWords a.words b.words
    pure (bignumNormalize
      ⟨bignumClearStaleTail (storeWords grown.limbs product) out.length productLength,
        productLength⟩)

/-- `aliased` says that `OUT` is one of the factors. -/
def cryptoBignumMulSchoolbook (out a b : LiberaCBignum) (aliased : Bool) : Fallible LiberaCBignum :=
  bignumMulNoalias (if aliased then cryptoBignumInit else out) a b

def bignumAddHalves (outLength : Nat) (low high : List UInt32) : Option (List UInt32) :=
  let length := if high.length < low.length then low.length else high.length
  if outLength < length + 1 then none
  else
    let row := addRow length low high 0
    some (row.1 ++ row.2.toUInt32 :: List.replicate (outLength - (length + 1)) 0)

def bignumSubtractWords (value subtrahend : List UInt32) : Option (List UInt32) :=
  if value.length < subtrahend.length then none
  else
    let row := subRow value.length value subtrahend 0
    if row.2 = 0 then some row.1 else none

/-- `while (carry != 0 && i < out_length)`. -/
def carryUp : List UInt32 → UInt64 → List UInt32 × UInt64
  | [], carry => ([], carry)
  | x :: xs, carry =>
    if carry = 0 then (x :: xs, 0)
    else
      let sum := x.toUInt64 + carry
      let rest := carryUp xs (sum >>> 32)
      (sum.toUInt32 :: rest.1, rest.2)

def bignumAddShifted (out value : List UInt32) (offset : Nat) : Option (List UInt32) :=
  if out.length < offset ∨ out.length - offset < value.length then none
  else
    let row := addRow value.length ((out.drop offset).take value.length) value 0
    let high := carryUp (out.drop (offset + value.length)) row.2
    if high.2 = 0 then some (out.take offset ++ row.1 ++ high.1) else none

def stripWords (z : List UInt32) : List UInt32 := z.take (bignumWordsLength z z.length)

/-- `z0`, `z1` and `z2` of one Karatsuba split, cut to their lengths. -/
def karatsubaTerms (a b : List UInt32) : Option (List UInt32 × List UInt32 × List UInt32) := do
  let lowLength := a.length / 2
  let sumLength := a.length - lowLength + 1
  let z0 := bignumSchoolbookWords (a.take lowLength) (b.take lowLength)
  let z2 := bignumSchoolbookWords (a.drop lowLength) (b.drop lowLength)
  let sumA ← bignumAddHalves sumLength (a.take lowLength) (a.drop lowLength)
  let sumB ← bignumAddHalves sumLength (b.take lowLength) (b.drop lowLength)
  let z1 ← bignumSubtractWords (bignumSchoolbookWords sumA sumB) (stripWords z0)
  let z1 ← bignumSubtractWords z1 (stripWords z2)
  some (stripWords z0, stripWords z1, stripWords z2)

/-- The product of `n + n` limbs put together from the three terms. -/
def karatsubaSum (n : Nat) (z0 z1 z2 : List UInt32) : Option (List UInt32) := do
  let lowLength := n / 2
  let out ← bignumAddShifted (List.replicate (2 * n) 0) z0 0
  let out ← bignumAddShifted out z1 lowLength
  bignumAddShifted out z2 (2 * lowLength)

def karatsubaThresholdLimbs : Nat := 96

def orFail {α : Type} (x : Option α) : Fallible α := x.elim (throw .invalidArgument) pure

def bignumMulKaratsubaNoalias (out a b : LiberaCBignum) : Fallible LiberaCBignum :=
  if a.length ≠ b.length ∨ a.length < karatsubaThresholdLimbs then throw .invalidArgument
  else
    let n := a.length
    if (sizeMax - 8) / 4 < n ∨ sizeMax / 2 < n then throw .invalidArgument
    else
      let lowLength := n / 2
      let highLength := n - lowLength
      let sumLength := highLength + 1
      let required := 2 * lowLength + 2 * highLength + 2 * sumLength + 2 * sumLength
      let workspaceWords := 4 * n + 8
      if workspaceWords < required ∨ sizeMax / 4 < workspaceWords then throw .invalidArgument
      else do
        allocate (4 * workspaceWords) .invalidArgument
        let (z0, z1, z2) ← orFail (karatsubaTerms a.words b.words)
        let productLength := 2 * n
        let grown ← bignumReserve out productLength
        let product ← orFail (karatsubaSum n z0 z1 z2)
        pure (bignumNormalize
          ⟨bignumClearStaleTail (storeWords grown.limbs product) out.length productLength,
            productLength⟩)

/-- Until its workspace is granted and `out` is grown the Karatsuba split has changed nothing that
the schoolbook fallback reads, and after that it does not fail. -/
def bignumMulKaratsuba (out a b : LiberaCBignum) (aliased : Bool) : Fallible LiberaCBignum :=
  recover (bignumMulKaratsubaNoalias (if aliased then cryptoBignumInit else out) a b)
    (cryptoBignumMulSchoolbook out a b aliased)

def cryptoBignumMul (out a b : LiberaCBignum) (aliased : Bool) : Fallible LiberaCBignum :=
  if a.length = b.length ∧ karatsubaThresholdLimbs ≤ a.length then bignumMulKaratsuba out a b aliased
  else cryptoBignumMulSchoolbook out a b aliased

theorem orFail_some {α : Type} (x : α) : orFail (some x) = pure x := rfl

variable {a b out : LiberaCBignum} {x y t : List UInt32} {room : Nat}

theorem schoolbookRows_length (hwindow : t.length = y.length) :
    (schoolbookRows y x t).length = x.length + y.length := by
  induction x generalizing t with
  | nil => simpa [schoolbookRows] using hwindow
  | cons d x ih =>
    have hnext : ((mulAddRow y.length y d t 0).1 ++
        [(mulAddRow y.length y d t 0).2.toUInt32]).tail.length = y.length := by simp
    simp only [schoolbookRows, List.length_cons, ih hnext]
    omega

theorem row_value (d : UInt32) (hwindow : t.length = y.length) :
    wordsValue ((mulAddRow y.length y d t 0).1 ++
        [(mulAddRow y.length y d t 0).2.toUInt32]) =
      wordsValue y * d.toNat + wordsValue t := by
  have hvalue := mulAddRow_value (a := y) (x := d) (t := t) (n := y.length) (c := 0)
    (le_refl _) hwindow.le wordBase_pos
  have hcarry := mulAddRow_carry (n := y.length) (a := y) (x := d) (t := t) (c := 0)
    wordBase_pos
  rw [wordsValue_append, wordsValue_singleton, mulAddRow_length, toUInt32_toNat,
    Nat.mod_eq_of_lt hcarry, hvalue]
  exact Nat.add_zero _

theorem schoolbookRows_value (hwindow : t.length = y.length) :
    wordsValue (schoolbookRows y x t) =
      wordsValue x * wordsValue y + wordsValue t := by
  induction x generalizing t with
  | nil => simp [schoolbookRows]
  | cons d x ih =>
    have hrow := row_value d hwindow
    have hnext : ((mulAddRow y.length y d t 0).1 ++
        [(mulAddRow y.length y d t 0).2.toUInt32]).tail.length = y.length := by simp
    rw [wordsValue_head_tail] at hrow
    simp only [schoolbookRows, wordsValue_cons, ih hnext]
    linear_combination hrow

@[simp] theorem bignumSchoolbookWords_length :
    (bignumSchoolbookWords x y).length = x.length + y.length :=
  schoolbookRows_length (List.length_replicate ..)

theorem bignumSchoolbookWords_value :
    wordsValue (bignumSchoolbookWords x y) = wordsValue x * wordsValue y := by
  rw [bignumSchoolbookWords, schoolbookRows_value (List.length_replicate ..), wordsValue_zeros,
    Nat.add_zero]

theorem product_stored (hout : out.Valid) {w : List UInt32} (h : w.length ≤ out.capacity) :
    (bignumNormalize ⟨bignumClearStaleTail (storeWords out.limbs w) out.length w.length,
        w.length⟩).Valid ∧
      (bignumNormalize ⟨bignumClearStaleTail (storeWords out.limbs w) out.length w.length,
        w.length⟩).value = wordsValue w := by
  have hstored := clearStaleTail_storeWords hout (w := w) (k := 0) h
  rw [List.replicate_zero, List.append_nil] at hstored
  rw [hstored]
  exact padded_normalize w _

theorem bignumMulNoalias_ensures (hout : out.Valid) (ha : a.Valid) (hb : b.Valid)
    (h : 4 * (a.length + b.length) ≤ room) :
    Ensures room (bignumMulNoalias out a b) fun r => r.Valid ∧ r.value = a.value * b.value := by
  unfold bignumMulNoalias
  by_cases hz : a.length = 0 ∨ b.length = 0
  · rw [if_pos hz]
    have hprod : a.value * b.value = 0 := by
      rcases hz with hz | hz
      · rw [ha.length_eq_zero.mp hz, Nat.zero_mul]
      · rw [hb.length_eq_zero.mp hz, Nat.mul_zero]
    have hclear := overwritten hout (w := []) (k := 0) (Nat.zero_le _) (fun h => absurd rfl h)
    rw [hprod]
    exact Ensures.pure hclear
  rw [if_neg hz]
  apply Ensures.guard
  · intro hroom
    omega
  intro _
  apply (bignumReserve_ensures hout h).bind
  rintro grown ⟨hvalid, -, hlength, hcapacity, -⟩
  have hlen : (bignumSchoolbookWords a.words b.words).length = a.length + b.length := by
    rw [bignumSchoolbookWords_length, ha.words_length, hb.words_length]
  have hstored := product_stored hvalid (hlen.trans_le hcapacity)
  rw [hlen, hlength, bignumSchoolbookWords_value] at hstored
  exact Ensures.pure hstored

theorem cryptoBignumMulSchoolbook_ensures (hout : out.Valid) (ha : a.Valid) (hb : b.Valid)
    (aliased : Bool) (h : 4 * (a.length + b.length) ≤ room) :
    Ensures room (cryptoBignumMulSchoolbook out a b aliased)
      fun r => r.Valid ∧ r.value = a.value * b.value := by
  apply bignumMulNoalias_ensures _ ha hb h
  cases aliased with
  | false => exact hout
  | true => exact init_valid

theorem bignumAddHalves_some {outLength : Nat} (hx : x.length < outLength)
    (hy : y.length < outLength) : ∃ sum, bignumAddHalves outLength x y = some sum ∧
      sum.length = outLength ∧ wordsValue sum = wordsValue x + wordsValue y := by
  unfold bignumAddHalves
  dsimp only
  generalize hn : (if y.length < x.length then x.length else y.length) = n
  have hxn : x.length ≤ n := by
    rw [← hn]
    split <;> omega
  have hyn : y.length ≤ n := by
    rw [← hn]
    split <;> omega
  have hlt : n + 1 ≤ outLength := by
    rw [← hn]
    split <;> omega
  have hvalue := addRow_value hxn hyn zero_carry
  have hcarry := addRow_carry (n := n) (a := x) (b := y) zero_carry
  have hword : (addRow n x y 0).2.toUInt32.toNat = (addRow n x y 0).2.toNat := by
    rw [toUInt32_toNat, Nat.mod_eq_of_lt (hcarry.trans_lt (by decide))]
  refine ⟨_, if_neg (not_lt.mpr hlt), ?_, ?_⟩
  · simp only [List.length_append, List.length_cons, List.length_replicate, addRow_length]
    omega
  · rw [wordsValue_append, wordsValue_cons, wordsValue_zeros, addRow_length, hword, Nat.mul_zero,
      Nat.add_zero, hvalue]
    rfl

theorem bignumSubtractWords_some (hlength : y.length ≤ x.length)
    (hle : wordsValue y ≤ wordsValue x) : ∃ difference,
      bignumSubtractWords x y = some difference ∧ difference.length = x.length ∧
        wordsValue difference = wordsValue x - wordsValue y := by
  have hvalue := subRow_value (le_refl x.length) hlength zero_carry
  have hlt := wordsValue_lt (subRow x.length x y 0).1
  have hborrow := subRow_borrow (n := x.length) (a := x) (b := y)
    zero_carry
  rw [subRow_length] at hlt
  change _ + (_ + 0) = _ at hvalue
  have hzero : (subRow x.length x y 0).2 = 0 := by
    apply UInt64.toNat_inj.mp
    by_contra hne
    have hone : (subRow x.length x y 0).2.toNat = 1 := Nat.le_antisymm hborrow
      (Nat.one_le_iff_ne_zero.mpr hne)
    rw [hone] at hvalue
    omega
  unfold bignumSubtractWords
  rw [if_neg (not_lt.mpr hlength)]
  dsimp only
  rw [if_pos hzero]
  rw [hzero, UInt64.toNat_zero, Nat.mul_zero] at hvalue
  refine ⟨_, rfl, subRow_length, ?_⟩
  omega

@[simp] theorem carryUp_length (c : UInt64) : (carryUp x c).1.length = x.length := by
  induction x generalizing c with
  | nil => rfl
  | cons d x ih =>
    unfold carryUp
    split
    · rfl
    · simp [ih]

theorem carryUp_value {c : UInt64} (hc : c.toNat ≤ 1) :
    wordsValue (carryUp x c).1 + wordBase ^ x.length * (carryUp x c).2.toNat =
      wordsValue x + c.toNat := by
  induction x generalizing c with
  | nil => simp [carryUp]
  | cons d x ih =>
    unfold carryUp
    by_cases h : c = 0
    · rw [if_pos h, h]
      simp
    · have hsum : (d.toUInt64 + c).toNat = d.toNat + c.toNat := by
        have hx := d.toNat_lt
        rw [UInt64.toNat_add, UInt32.toNat_toUInt64]
        omega
      have hhigh : ((d.toUInt64 + c) >>> 32).toNat ≤ 1 := by
        have hx := word_lt d
        rw [high_toNat, hsum]
        apply Nat.le_of_lt_succ
        apply Nat.div_lt_of_lt_mul
        have : 1 < wordBase := by decide
        omega
      have hrest := ih hhigh
      have hz := split_word (d.toUInt64 + c)
      rw [hsum] at hz
      rw [if_neg h]
      simp only [wordsValue_cons, List.length_cons]
      linear_combination hz + wordBase * hrest

theorem bignumAddShifted_some (offset : Nat) (hfit : offset + y.length ≤ x.length)
    (hlt : wordsValue x + wordBase ^ offset * wordsValue y < wordBase ^ x.length) :
    ∃ sum, bignumAddShifted x y offset = some sum ∧ sum.length = x.length ∧
      wordsValue sum = wordsValue x + wordBase ^ offset * wordsValue y := by
  have hwindow : ((x.drop offset).take y.length).length = y.length := by
    rw [List.length_take, List.length_drop]
    omega
  have hrow := addRow_value (a := (x.drop offset).take y.length) (b := y) hwindow.le (le_refl _)
    zero_carry
  have hcarry := addRow_carry (n := y.length) (a := (x.drop offset).take y.length) (b := y)
    zero_carry
  have hhigh := carryUp_value (x := x.drop (offset + y.length)) hcarry
  have hsplit := wordsValue_take_drop x offset (by omega)
  have hsplit' := wordsValue_take_drop (x.drop offset) y.length
    (by rw [List.length_drop]; omega)
  rw [List.drop_drop] at hsplit'
  have hfront : (x.take offset).length = offset := by
    rw [List.length_take]
    omega
  unfold bignumAddShifted
  rw [if_neg (by omega)]
  dsimp only
  generalize hr : addRow y.length ((x.drop offset).take y.length) y 0 = row at *
  have hrowlen : row.1.length = y.length := by rw [← hr, addRow_length]
  have htotal : wordsValue (x.take offset ++ row.1 ++
        (carryUp (x.drop (offset + y.length)) row.2).1) +
      wordBase ^ x.length * (carryUp (x.drop (offset + y.length)) row.2).2.toNat =
      wordsValue x + wordBase ^ offset * wordsValue y := by
    have hpow : wordBase ^ x.length = wordBase ^ offset *
        (wordBase ^ y.length * wordBase ^ (x.drop (offset + y.length)).length) := by
      rw [← pow_add, ← pow_add, List.length_drop]
      congr 1
      omega
    rw [wordsValue_append, wordsValue_append, List.length_append, hfront, hrowlen, pow_add, hpow]
    rw [UInt64.toNat_zero, Nat.add_zero] at hrow
    rw [hsplit, hsplit']
    linear_combination wordBase ^ offset * hrow +
      wordBase ^ offset * wordBase ^ y.length * hhigh
  have hzero : (carryUp (x.drop (offset + y.length)) row.2).2 = 0 := by
    apply UInt64.toNat_inj.mp
    apply high_eq_zero (p := wordBase ^ x.length)
    rw [htotal]
    exact hlt
  rw [if_pos hzero]
  refine ⟨_, rfl, ?_, ?_⟩
  · simp only [List.length_append, hfront, hrowlen, carryUp_length, List.length_drop]
    omega
  · rw [hzero, UInt64.toNat_zero, Nat.mul_zero, Nat.add_zero] at htotal
    exact htotal

theorem stripWords_value (z : List UInt32) : wordsValue (stripWords z) = wordsValue z := by
  conv_rhs => rw [stripped z, wordsValue_append, wordsValue_zeros]
  rw [Nat.mul_zero, Nat.add_zero, stripWords]

theorem stripWords_length (z : List UInt32) : (stripWords z).length ≤ z.length := by
  rw [stripWords, List.length_take]
  exact Nat.min_le_right _ _

theorem stripWords_length_le {z : List UInt32} {n : Nat} (h : wordsValue z < wordBase ^ n) :
    (stripWords z).length ≤ n := by
  have hvalid := bignumNormalize_valid (a := ⟨z, z.length⟩) (le_refl _)
    fun i hi => by simp [not_lt.mpr hi]
  have hle := hvalid.1.length_le_iff.mpr (hvalid.2.trans_lt h)
  rw [stripWords, List.length_take]
  exact (Nat.min_le_left _ _).trans hle

structure Split (x y sumA sumB d z1 : List UInt32) (n : Nat) : Prop where
  halvesA : bignumAddHalves (n - n / 2 + 1) (x.take (n / 2)) (x.drop (n / 2)) = some sumA
  halvesB : bignumAddHalves (n - n / 2 + 1) (y.take (n / 2)) (y.drop (n / 2)) = some sumB
  sumA_length : sumA.length = n - n / 2 + 1
  sumB_length : sumB.length = n - n / 2 + 1
  lessLow : bignumSubtractWords (bignumSchoolbookWords sumA sumB)
    (stripWords (bignumSchoolbookWords (x.take (n / 2)) (y.take (n / 2)))) = some d
  lessLow_length : d.length = n - n / 2 + 1 + (n - n / 2 + 1)
  lessHigh : bignumSubtractWords d
    (stripWords (bignumSchoolbookWords (x.drop (n / 2)) (y.drop (n / 2)))) = some z1
  lessHigh_length : z1.length = n - n / 2 + 1 + (n - n / 2 + 1)
  middle : wordsValue z1 = wordsValue (x.take (n / 2)) * wordsValue (y.drop (n / 2)) +
    wordsValue (x.drop (n / 2)) * wordsValue (y.take (n / 2))

theorem take_half_length {w : List UInt32} {n : Nat} (hw : w.length = n) :
    (w.take (n / 2)).length = n / 2 := by
  rw [List.length_take]
  omega

theorem drop_half_length {w : List UInt32} {n : Nat} (hw : w.length = n) :
    (w.drop (n / 2)).length = n - n / 2 := by
  rw [List.length_drop, hw]

theorem split_exists {n : Nat} (hx : x.length = n) (hy : y.length = n) :
    ∃ sumA sumB d z1, Split x y sumA sumB d z1 n := by
  have hsum : ∀ w : List UInt32, w.length = n → ∃ sum,
      bignumAddHalves (n - n / 2 + 1) (w.take (n / 2)) (w.drop (n / 2)) = some sum ∧
        sum.length = n - n / 2 + 1 ∧
        wordsValue sum = wordsValue (w.take (n / 2)) + wordsValue (w.drop (n / 2)) := by
    intro w hw
    apply bignumAddHalves_some
    · rw [take_half_length hw]
      omega
    · rw [drop_half_length hw]
      omega
  obtain ⟨sumA, hsumA, hlenA, hvalA⟩ := hsum x hx
  obtain ⟨sumB, hsumB, hlenB, hvalB⟩ := hsum y hy
  have hlen0 : (bignumSchoolbookWords (x.take (n / 2)) (y.take (n / 2))).length = n / 2 + n / 2 := by
    rw [bignumSchoolbookWords_length, take_half_length hx, take_half_length hy]
  have hlen2 : (bignumSchoolbookWords (x.drop (n / 2)) (y.drop (n / 2))).length =
      n - n / 2 + (n - n / 2) := by
    rw [bignumSchoolbookWords_length, drop_half_length hx, drop_half_length hy]
  have hval0 := bignumSchoolbookWords_value (x := x.take (n / 2)) (y := y.take (n / 2))
  have hval2 := bignumSchoolbookWords_value (x := x.drop (n / 2)) (y := y.drop (n / 2))
  -- the middle product holds both outer ones, so neither subtraction borrows
  have hmiddle : wordsValue (bignumSchoolbookWords sumA sumB) =
      wordsValue (x.take (n / 2)) * wordsValue (y.drop (n / 2)) +
        wordsValue (x.drop (n / 2)) * wordsValue (y.take (n / 2)) +
        wordsValue (bignumSchoolbookWords (x.drop (n / 2)) (y.drop (n / 2))) +
        wordsValue (bignumSchoolbookWords (x.take (n / 2)) (y.take (n / 2))) := by
    rw [bignumSchoolbookWords_value, hvalA, hvalB, hval0, hval2]
    ring
  have hlenm : (bignumSchoolbookWords sumA sumB).length = n - n / 2 + 1 + (n - n / 2 + 1) := by
    rw [bignumSchoolbookWords_length, hlenA, hlenB]
  generalize hz0 : bignumSchoolbookWords (x.take (n / 2)) (y.take (n / 2)) = z0 at *
  generalize hz2 : bignumSchoolbookWords (x.drop (n / 2)) (y.drop (n / 2)) = z2 at *
  obtain ⟨d, hd, hlend, hvald⟩ := bignumSubtractWords_some
    (x := bignumSchoolbookWords sumA sumB) (y := stripWords z0)
    ((stripWords_length z0).trans (by omega)) (by rw [stripWords_value]; omega)
  rw [stripWords_value] at hvald
  obtain ⟨z1, hz1, hlenz, hval1⟩ := bignumSubtractWords_some (x := d) (y := stripWords z2)
    ((stripWords_length z2).trans (by omega)) (by rw [stripWords_value]; omega)
  rw [stripWords_value] at hval1
  refine ⟨sumA, sumB, d, z1, hsumA, hsumB, hlenA, hlenB, ?_, by omega, ?_, by omega, by omega⟩
  · rw [hz0]
    exact hd
  · rw [hz2]
    exact hz1

theorem karatsubaTerms_some {n : Nat} (hx : x.length = n) (hy : y.length = n) : ∃ z0 z1 z2,
    karatsubaTerms x y = some (stripWords z0, stripWords z1, stripWords z2) ∧
      z0.length = n / 2 + n / 2 ∧ z2.length = n - n / 2 + (n - n / 2) ∧
      wordsValue z0 = wordsValue (x.take (n / 2)) * wordsValue (y.take (n / 2)) ∧
      wordsValue z1 = wordsValue (x.take (n / 2)) * wordsValue (y.drop (n / 2)) +
        wordsValue (x.drop (n / 2)) * wordsValue (y.take (n / 2)) ∧
      wordsValue z2 = wordsValue (x.drop (n / 2)) * wordsValue (y.drop (n / 2)) := by
  obtain ⟨sumA, sumB, d, z1, h⟩ := split_exists hx hy
  refine ⟨_, z1, _, ?_, ?_, ?_, bignumSchoolbookWords_value, h.middle, bignumSchoolbookWords_value⟩
  · simp only [karatsubaTerms, hx, h.halvesA, h.halvesB, h.lessLow, h.lessHigh, Option.bind_eq_bind,
      Option.bind_some]
  · rw [bignumSchoolbookWords_length, take_half_length hx, take_half_length hy]
  · rw [bignumSchoolbookWords_length, drop_half_length hx, drop_half_length hy]

theorem karatsuba_product {n : Nat} (hx : x.length = n) (hy : y.length = n) :
    ∃ z0 z1 z2 product, karatsubaTerms x y = some (z0, z1, z2) ∧
      karatsubaSum n z0 z1 z2 = some product ∧ product.length = 2 * n ∧
      wordsValue product = wordsValue x * wordsValue y := by
  obtain ⟨z0, z1, z2, hterms, hlen0, hlen2, hval0, hval1, hval2⟩ := karatsubaTerms_some hx hy
  have hsplit : wordsValue x * wordsValue y = wordsValue z0 + wordBase ^ (n / 2) * wordsValue z1 +
      wordBase ^ (2 * (n / 2)) * wordsValue z2 := by
    rw [wordsValue_take_drop x (n / 2) (by omega), wordsValue_take_drop y (n / 2) (by omega), hval0,
      hval1, hval2, Nat.two_mul, pow_add]
    ring
  have hlt : wordsValue x * wordsValue y < wordBase ^ (2 * n) := by
    rw [Nat.two_mul, pow_add]
    have hxlt := wordsValue_lt x
    have hylt := wordsValue_lt y
    rw [hx] at hxlt
    rw [hy] at hylt
    exact Nat.mul_lt_mul'' hxlt hylt
  have hmiddle : wordsValue z1 < wordBase ^ (2 * n - n / 2) := by
    have hpow : wordBase ^ (2 * n) = wordBase ^ (n / 2) * wordBase ^ (2 * n - n / 2) := by
      rw [← pow_add]
      congr 1
      omega
    rw [hpow] at hlt
    exact Nat.lt_of_mul_lt_mul_left (a := wordBase ^ (n / 2)) (by omega)
  have hstrip0 := stripWords_length z0
  have hstrip1 := stripWords_length_le hmiddle
  have hstrip2 := stripWords_length z2
  obtain ⟨s0, hs0, hlens0, hvals0⟩ := bignumAddShifted_some (x := List.replicate (2 * n) 0)
    (y := stripWords z0) 0 (by rw [List.length_replicate]; omega)
    (by rw [List.length_replicate, stripWords_value, wordsValue_zeros, pow_zero]; omega)
  rw [List.length_replicate] at hlens0
  rw [wordsValue_zeros, stripWords_value, pow_zero, Nat.one_mul, Nat.zero_add] at hvals0
  obtain ⟨s1, hs1, hlens1, hvals1⟩ := bignumAddShifted_some (x := s0) (y := stripWords z1)
    (n / 2) (by omega) (by rw [hlens0, stripWords_value, hvals0]; omega)
  rw [stripWords_value, hvals0] at hvals1
  obtain ⟨s2, hs2, hlens2, hvals2⟩ := bignumAddShifted_some (x := s1) (y := stripWords z2)
    (2 * (n / 2)) (by omega)
    (by rw [hlens1, hlens0, stripWords_value, hvals1]; omega)
  rw [stripWords_value, hvals1] at hvals2
  refine ⟨_, _, _, s2, hterms, ?_, by omega, by omega⟩
  simp only [karatsubaSum, hs0, hs1, hs2, Option.bind_eq_bind, Option.bind_some]

theorem bignumMulKaratsubaNoalias_ensures (hout : out.Valid) (ha : a.Valid) (hb : b.Valid)
    (hlength : a.length = b.length) (hlong : karatsubaThresholdLimbs ≤ a.length)
    (h : 4 * (4 * a.length + 8) ≤ room) :
    Ensures room (bignumMulKaratsubaNoalias out a b)
      fun r => r.Valid ∧ r.value = a.value * b.value := by
  obtain ⟨z0, z1, z2, product, hterms, hsum, hlen, hvalue⟩ :=
    karatsuba_product ha.words_length (hb.words_length.trans hlength.symm)
  unfold bignumMulKaratsubaNoalias
  rw [if_neg (by omega)]
  dsimp only
  apply Ensures.guard
  · intro hroom
    unfold sizeMax at *
    omega
  intro _
  apply Ensures.guard
  · intro hroom
    omega
  intro _
  apply (Ensures.allocate h).bind
  intro _ _
  rw [hterms, orFail_some, pure_bind]
  dsimp only
  rw [hsum, orFail_some]
  simp only [pure_bind]
  apply (bignumReserve_ensures hout (n := 2 * a.length) (by omega)).bind
  rintro grown ⟨hvalid, -, hgrown, hcapacity, -⟩
  have hstored := product_stored hvalid (hlen.trans_le hcapacity)
  rw [hlen, hgrown, hvalue] at hstored
  exact Ensures.pure hstored

theorem cryptoBignumMul_ensures (hout : out.Valid) (ha : a.Valid) (hb : b.Valid) (aliased : Bool)
    (h : 4 * (a.length + b.length) ≤ room) :
    Ensures room (cryptoBignumMul out a b aliased)
      fun r => r.Valid ∧ r.value = a.value * b.value := by
  have hschool := cryptoBignumMulSchoolbook_ensures hout ha hb aliased h
  unfold cryptoBignumMul
  split_ifs with hcase
  · have hdest : (if aliased then cryptoBignumInit else out).Valid := by
      cases aliased with
      | false => exact hout
      | true => exact init_valid
    exact Ensures.recover
      (bignumMulKaratsubaNoalias_ensures hdest ha hb hcase.1 hcase.2 (le_refl _)) hschool
  · exact hschool

end LiberaCrypt.BignumMul
