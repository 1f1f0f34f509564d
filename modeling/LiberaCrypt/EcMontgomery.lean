import LiberaCrypt.EcCurves
import LiberaCrypt.LimbBytes
import LiberaCrypt.ModExpSecure

namespace LiberaCrypt.EcMontgomery

open LiberaCrypt.Bignum LiberaCrypt.CountedLoop LiberaCrypt.Limbs LiberaCrypt.Montgomery
open LiberaCrypt.MontgomeryReduction LiberaCrypt.PowerLadder LiberaCrypt.EcCurves

def ecProductLimbs : Nat := 36

def nonzeroMask (value : UInt32) : UInt32 :=
  (0 : UInt32) - ((value ||| ((0 : UInt32) - value)) >>> 31)

/-- The carry is added to every limb that is left, and what leaves the array is dropped. -/
def carryOut : List UInt32 → UInt64 → List UInt32
  | [], _ => []
  | x :: xs, carry =>
    let value := x.toUInt64 + carry
    value.toUInt32 :: carryOut xs (value >>> 32)

/-- `product += x * ys` from the limb `outer` on. -/
def accumulateRow (limbs : Nat) (ys : List UInt32) (x : UInt32) (outer : Nat)
    (product : List UInt32) : List UInt32 :=
  let row := mulAddRow limbs ys x ((product.drop outer).take limbs) 0
  product.take outer ++ (row.1 ++ carryOut (product.drop (outer + limbs)) row.2)

/-- The numbers that the arithmetic modulo the field prime or the group order works with. -/
structure MontgomeryModulus where
  limbs : Nat
  factor : UInt32
  modulus : List UInt32
  one : List UInt32
  r2 : List UInt32

def montgomeryProduct (m : MontgomeryModulus) (a b : List UInt32) : List UInt32 :=
  let product := countUp m.limbs
    (fun outer product => accumulateRow m.limbs b (a.getD outer 0) outer product)
    (List.replicate ecProductLimbs 0)
  countUp m.limbs
    (fun outer product =>
      let multiplier := product.getD outer 0 * m.factor
      accumulateRow m.limbs m.modulus multiplier outer product) product

def montgomeryMultiplyRaw (m : MontgomeryModulus) (a b : List UInt32) : List UInt32 :=
  let product := montgomeryProduct m a b
  let reduced := (product.drop m.limbs).take m.limbs
  let subtracted := subRow m.limbs reduced m.modulus 0
  let extraMask := nonzeroMask (product.getD (2 * m.limbs) 0)
  let subtractMask := extraMask ||| ((0 : UInt32) - (subtracted.2.toUInt32 ^^^ 1))
  selectWords subtractMask reduced subtracted.1

def fieldModulus (curve : CryptoEcCurve) : MontgomeryModulus :=
  ⟨curve.limbs, curve.montgomeryFactor, curve.p, curve.montgomeryOne, curve.montgomeryR2⟩

def scalarModulus (curve : CryptoEcCurve) : MontgomeryModulus :=
  ⟨curve.limbs, curve.scalarMontgomeryFactor, curve.order, curve.scalarMontgomeryOne,
    curve.scalarMontgomeryR2⟩

section Rows

variable {w y product : List UInt32} {n N outer : Nat} {x : UInt32} {c : UInt64}

@[simp] theorem carryOut_length : (carryOut w c).length = w.length := by
  induction w generalizing c with
  | nil => rfl
  | cons x w ih => simp [carryOut, ih]

theorem carryOut_value (hc : c.toNat < wordBase) :
    wordsValue (carryOut w c) = (wordsValue w + c.toNat) % wordBase ^ w.length := by
  induction w generalizing c with
  | nil => simp [carryOut, Nat.mod_one]
  | cons x w ih =>
    obtain ⟨hsum, hhigh⟩ := word_add_toNat x hc
    have hrest := ih (c := (x.toUInt64 + c) >>> 32) (hhigh.trans_lt (by decide))
    have hsplit := split_word (x.toUInt64 + c)
    have hlow := word_lt (x.toUInt64 + c).toUInt32
    rw [hsum] at hsplit
    simp only [carryOut, wordsValue_cons, hrest, List.length_cons, pow_succ']
    rw [Nat.mod_mul, show x.toNat + wordBase * wordsValue w + c.toNat =
      (x.toUInt64 + c).toUInt32.toNat +
        wordBase * (wordsValue w + ((x.toUInt64 + c) >>> 32).toNat) by rw [Nat.mul_add]; omega,
      Nat.add_mul_mod_self_left, Nat.add_mul_div_left _ _ wordBase_pos, Nat.div_eq_of_lt hlow,
      Nat.mod_eq_of_lt hlow, Nat.zero_add]

@[simp] theorem accumulateRow_length (h : outer + n ≤ product.length) :
    (accumulateRow n y x outer product).length = product.length := by
  simp only [accumulateRow, List.length_append, List.length_take, carryOut_length,
    mulAddRow_length, List.length_drop]
  omega

theorem accumulateRow_value (hy : y.length ≤ n) (h : outer + n ≤ product.length)
    (hroom : wordsValue product + wordBase ^ outer * (wordsValue y * x.toNat) <
      wordBase ^ product.length) :
    wordsValue (accumulateRow n y x outer product) =
      wordsValue product + wordBase ^ outer * (wordsValue y * x.toNat) := by
  have hrow := mulAddRow_value (n := n) (a := y) (x := x) (t := (product.drop outer).take n)
    (c := 0) hy (List.length_take_le _ _) wordBase_pos
  have hcarry := mulAddRow_carry (n := n) (a := y) (x := x) (t := (product.drop outer).take n)
    (c := 0) wordBase_pos
  have hrowlen : (mulAddRow n y x ((product.drop outer).take n) 0).1.length = n :=
    mulAddRow_length
  have hlow := wordsValue_take_drop product outer (by omega)
  have hmid := wordsValue_take_drop (product.drop outer) n (by rw [List.length_drop]; omega)
  rw [List.drop_drop] at hmid
  rw [UInt64.toNat_zero, Nat.add_zero] at hrow
  simp only [accumulateRow, wordsValue_append, List.length_take, hrowlen,
    Nat.min_eq_left (show outer ≤ product.length by omega)]
  generalize mulAddRow n y x ((product.drop outer).take n) 0 = row at *
  rw [carryOut_value hcarry, List.length_drop]
  have hfits : wordsValue (product.drop (outer + n)) + row.2.toNat <
      wordBase ^ (product.length - (outer + n)) := by
    have hpow : wordBase ^ product.length =
        wordBase ^ outer * (wordBase ^ n * wordBase ^ (product.length - (outer + n))) := by
      rw [← pow_add, ← pow_add]
      congr 1
      omega
    rw [hlow, hmid, hpow] at hroom
    have hsum : wordBase ^ outer * (wordBase ^ n *
        (wordsValue (product.drop (outer + n)) + row.2.toNat)) ≤
        wordsValue (product.take outer) + wordBase ^ outer *
          (wordsValue ((product.drop outer).take n) + wordBase ^ n *
            wordsValue (product.drop (outer + n))) + wordBase ^ outer *
              (wordsValue y * x.toNat) := by
      have hmul := congrArg (wordBase ^ outer * ·) hrow
      simp only [Nat.mul_add] at hmul ⊢
      omega
    have hlt := hsum.trans_lt hroom
    exact Nat.lt_of_mul_lt_mul_left (Nat.lt_of_mul_lt_mul_left hlt)
  rw [Nat.mod_eq_of_lt hfits, hlow, hmid]
  linear_combination wordBase ^ outer * hrow

end Rows

/-- What the constants of a modulus `M` must satisfy. -/
structure MontgomeryModulus.Sound (m : MontgomeryModulus) (M : Nat) : Prop where
  pos : m.limbs ≠ 0
  fits : m.limbs ≤ 17
  length : m.modulus.length = m.limbs
  value : wordsValue m.modulus = M
  odd : Nat.Coprime wordBase M
  inverse : m.modulus.headD 0 * m.factor = (0 : UInt32) - 1
  one_length : m.one.length = m.limbs
  one_value : wordsValue m.one = wordBase ^ m.limbs % M
  r2_length : m.r2.length = m.limbs
  r2_value : wordsValue m.r2 = (wordBase ^ m.limbs) ^ 2 % M

section Multiply

variable {m : MontgomeryModulus} {M : Nat} {a b : List UInt32}

theorem MontgomeryModulus.Sound.modulus_pos (h : m.Sound M) : 0 < M := by
  by_contra hzero
  have hcoprime := h.odd
  rw [Nat.eq_zero_of_not_pos hzero, Nat.coprime_zero_right] at hcoprime
  exact absurd hcoprime (by decide)

theorem MontgomeryModulus.Sound.modulus_lt (h : m.Sound M) : M < wordBase ^ m.limbs := by
  rw [← h.value, ← h.length]
  exact wordsValue_lt _

theorem power_le {n : Nat} (hn : n ≤ 17) : 2 * wordBase ^ (2 * n) ≤ wordBase ^ ecProductLimbs := by
  have hpow : wordBase * wordBase ^ (2 * n) ≤ wordBase ^ ecProductLimbs := by
    rw [← pow_succ']
    exact Nat.pow_le_pow_right wordBase_pos (by simp only [ecProductLimbs]; omega)
  exact (Nat.mul_le_mul_right _ (by decide)).trans hpow

theorem productRows_spec {n : Nat} (hn : n ≤ 17) (ha : a.length = n) (hb : b.length = n) :
    let product := countUp n
      (fun outer product => accumulateRow n b (a.getD outer 0) outer product)
      (List.replicate ecProductLimbs 0)
    product.length = ecProductLimbs ∧ wordsValue product = wordsValue a * wordsValue b := by
  have hrows := countUp_invariant (n := n) (s := List.replicate ecProductLimbs (0 : UInt32))
    (f := fun outer product => accumulateRow n b (a.getD outer 0) outer product)
    (fun k product => product.length = ecProductLimbs ∧
      wordsValue product = wordsValue (a.take k) * wordsValue b)
    ⟨List.length_replicate, by simp⟩ ?_
  · have htake : a.take n = a := by rw [← ha, List.take_length]
    rw [htake] at hrows
    exact hrows
  rintro k hk product ⟨hlength, hvalue⟩
  have hfit : k + n ≤ product.length := by
    rw [hlength]
    simp only [ecProductLimbs]
    omega
  have hsum : wordsValue product + wordBase ^ k * (wordsValue b * (a.getD k 0).toNat) =
      wordsValue (a.take (k + 1)) * wordsValue b := by
    rw [hvalue, wordsValue_take_succ]
    ring
  have hroom : wordsValue product + wordBase ^ k * (wordsValue b * (a.getD k 0).toNat) <
      wordBase ^ product.length := by
    have hA := (wordsValue_take_lt a (k + 1)).trans_le
      (Nat.pow_le_pow_right wordBase_pos hk)
    have hB := wordsValue_lt b
    have hmul := Nat.mul_lt_mul'' hA hB
    have hpow := power_le hn
    rw [hb, ← pow_add, ← two_mul] at hmul
    rw [hsum, hlength]
    omega
  rw [accumulateRow_value hb.le hfit hroom, hsum, accumulateRow_length hfit]
  exact ⟨hlength, rfl⟩

theorem reduction_step (h : m.Sound M) {k S : Nat} (hk : k < m.limbs)
    (hS : S < M * wordBase ^ m.limbs) {product : List UInt32}
    (hlength : product.length = ecProductLimbs) {q : Nat} (hq : q < wordBase ^ k)
    (hvalue : wordsValue product = S + q * M) (hdvd : wordBase ^ k ∣ wordsValue product) :
    let next := accumulateRow m.limbs m.modulus (product.getD k 0 * m.factor) k product
    next.length = ecProductLimbs ∧ ∃ q < wordBase ^ (k + 1),
      wordsValue next = S + q * M ∧ wordBase ^ (k + 1) ∣ wordsValue next := by
  intro next
  have hfits := h.fits
  have hfit : k + m.limbs ≤ product.length := by
    rw [hlength]
    simp only [ecProductLimbs]
    omega
  have hx := word_lt (product.getD k 0 * m.factor)
  have hqnext : q + wordBase ^ k * (product.getD k 0 * m.factor).toNat < wordBase ^ (k + 1) := by
    have hmul : wordBase ^ k * ((product.getD k 0 * m.factor).toNat + 1) ≤ wordBase ^ k * wordBase :=
      Nat.mul_le_mul_left _ hx
    rw [Nat.mul_succ] at hmul
    rw [pow_succ]
    omega
  have hsum : wordsValue product + wordBase ^ k *
      (wordsValue m.modulus * (product.getD k 0 * m.factor).toNat) =
      S + (q + wordBase ^ k * (product.getD k 0 * m.factor).toNat) * M := by
    rw [hvalue, h.value]
    ring
  have hroom : wordsValue product + wordBase ^ k *
      (wordsValue m.modulus * (product.getD k 0 * m.factor).toNat) <
      wordBase ^ product.length := by
    have hMlt := h.modulus_lt
    have hle : wordBase ^ (k + 1) ≤ wordBase ^ m.limbs := Nat.pow_le_pow_right wordBase_pos hk
    have hmul : (q + wordBase ^ k * (product.getD k 0 * m.factor).toNat) * M ≤
        wordBase ^ m.limbs * M := Nat.mul_le_mul_right _ (hqnext.le.trans hle)
    have hsq : M * wordBase ^ m.limbs ≤ wordBase ^ m.limbs * wordBase ^ m.limbs :=
      Nat.mul_le_mul_right _ hMlt.le
    have hpow := power_le hfits
    rw [two_mul m.limbs, pow_add] at hpow
    have hcomm := Nat.mul_comm (wordBase ^ m.limbs) M
    rw [hsum, hlength]
    exact (Nat.add_lt_add_of_lt_of_le hS hmul).trans_le (by omega)
  have hnext := accumulateRow_value h.length.le hfit hroom
  refine ⟨(accumulateRow_length hfit).trans hlength, _, hqnext, hnext.trans hsum, ?_⟩
  rw [hnext]
  -- the limb at `k` and what is added there cancel modulo the word
  obtain ⟨u, hu⟩ := hdvd
  have hlimb := LimbBytes.limb_toNat product k
  rw [hu, Nat.mul_div_cancel_left _ (Nat.pow_pos wordBase_pos)] at hlimb
  have hclear := lowest_cleared (product.getD k 0) (m.modulus.headD 0) h.inverse
  have hsplit := Nat.div_add_mod u wordBase
  rw [← hlimb] at hsplit
  rw [hu, wordsValue_head_tail m.modulus, pow_succ]
  generalize ((product.getD k 0).toUInt64 +
    (product.getD k 0 * m.factor).toUInt64 * (m.modulus.headD 0).toUInt64) >>> 32 = high at hclear
  refine ⟨u / wordBase + high.toNat +
    wordsValue m.modulus.tail * (product.getD k 0 * m.factor).toNat, ?_⟩
  linear_combination wordBase ^ k * hsplit.symm + wordBase ^ k * hclear.symm

theorem montgomeryProduct_spec (h : m.Sound M) (ha : a.length = m.limbs) (hb : b.length = m.limbs)
    (hlt : wordsValue a * wordsValue b < M * wordBase ^ m.limbs) :
    (montgomeryProduct m a b).length = ecProductLimbs ∧ ∃ q < wordBase ^ m.limbs,
      wordsValue (montgomeryProduct m a b) = wordsValue a * wordsValue b + q * M ∧
      wordBase ^ m.limbs ∣ wordsValue (montgomeryProduct m a b) := by
  obtain ⟨hlength, hvalue⟩ := productRows_spec h.fits ha hb
  exact countUp_invariant (fun k product => product.length = ecProductLimbs ∧
    ∃ q < wordBase ^ k, wordsValue product = wordsValue a * wordsValue b + q * M ∧
      wordBase ^ k ∣ wordsValue product)
    ⟨hlength, 0, by simp, by rw [hvalue, Nat.zero_mul, Nat.add_zero], by simp⟩
    fun k hk product hproduct => by
      obtain ⟨hlen, q, hq, hval, hdvd⟩ := hproduct
      exact reduction_step h hk hlt hlen hq hval hdvd

theorem nonzeroMask_eq (x : UInt32) :
    nonzeroMask x = if x = 0 then 0 else (0 : UInt32) - 1 := by
  rw [nonzeroMask, ConstantTime.nonzero_mask]
  split_ifs <;> rfl

/-- The mask is full unless the top limb cannot lend what the others borrow. -/
theorem subtractMask_eq {top : UInt32} {borrow : UInt64} (hborrow : borrow.toNat ≤ 1) :
    nonzeroMask top ||| ((0 : UInt32) - (borrow.toUInt32 ^^^ 1)) =
      if top.toNat < borrow.toNat then 0 else (0 : UInt32) - 1 := by
  have hcases : borrow = 0 ∨ borrow = 1 := by
    rcases Nat.le_one_iff_eq_zero_or_eq_one.mp hborrow with h0 | h1
    · exact .inl (UInt64.toNat_inj.mp h0)
    · exact .inr (UInt64.toNat_inj.mp h1)
  have hones : ∀ x : UInt32, ((0 : UInt32) - 1) ||| x = (0 : UInt32) - 1 := by
    intro x
    change (-1 : UInt32) ||| x = -1
    exact UInt32.neg_one_or
  rw [nonzeroMask_eq]
  by_cases htop : top = 0
  · rw [htop]
    rcases hcases with rfl | rfl <;> decide
  · have hpos : top.toNat ≠ 0 := fun h0 => htop (UInt32.toNat_inj.mp h0)
    rw [if_neg htop, if_neg (by omega)]
    exact hones _

theorem maskedSubtract_spec {work : Work} {n : Nat} {modulus : List UInt32}
    (hlow : work.low.length = n) (hmodulus : modulus.length = n)
    (hlt : work.value < 2 * wordsValue modulus) :
    (selectWords (nonzeroMask work.top |||
        ((0 : UInt32) - ((subRow n work.low modulus 0).2.toUInt32 ^^^ 1))) work.low
        (subRow n work.low modulus 0).1).length = n ∧
      wordsValue (selectWords (nonzeroMask work.top |||
        ((0 : UInt32) - ((subRow n work.low modulus 0).2.toUInt32 ^^^ 1))) work.low
        (subRow n work.low modulus 0).1) = work.value % wordsValue modulus := by
  have hsub := candidate_sub hlow hmodulus hlt
  have hborrow := subRow_borrow (n := n) (a := work.low) (b := modulus) zero_carry
  have hrowlen : (subRow n work.low modulus 0).1.length = n := subRow_length
  have hvalue : work.value = wordsValue work.low + wordBase ^ n * work.top.toNat := by
    rw [← hlow]
    rfl
  have hmlt := wordsValue_lt modulus
  generalize subRow n work.low modulus 0 = row at *
  rw [subtractMask_eq hborrow, mod_of_lt_double hlt]
  have hlen : work.low.length = row.1.length := hlow.trans hrowlen.symm
  by_cases hless : work.value < wordsValue modulus
  · have htop : wordsValue work.low = work.value := by
      rw [hmodulus] at hmlt
      have hzero := high_eq_zero ((hvalue.symm.trans_lt hless).trans hmlt)
      rw [hvalue, hzero, Nat.mul_zero, Nat.add_zero]
    rw [if_pos (hsub.1.mpr hless), if_pos hless, selectWords_zero hlen]
    exact ⟨hlow, htop⟩
  · rw [if_neg fun h => hless (hsub.1.mp h), if_neg hless, selectWords_ones hlen]
    exact ⟨hrowlen, hsub.2 (not_lt.mp hless)⟩

theorem montgomeryMultiplyRaw_spec (h : m.Sound M) (ha : a.length = m.limbs)
    (hb : b.length = m.limbs) (hlt : wordsValue a * wordsValue b < M * wordBase ^ m.limbs) :
    (montgomeryMultiplyRaw m a b).length = m.limbs ∧
      wordsValue (montgomeryMultiplyRaw m a b) < M ∧
      (wordsValue (montgomeryMultiplyRaw m a b) : ZMod M) * (wordBase ^ m.limbs : Nat) =
        wordsValue a * wordsValue b := by
  obtain ⟨hlength, q, hq, hvalue, t, ht⟩ := montgomeryProduct_spec h ha hb hlt
  have hfits := h.fits
  have hMlt := h.modulus_lt
  have hradix : 0 < wordBase ^ m.limbs := Nat.pow_pos wordBase_pos
  have htlt : t < 2 * M := by
    have hq' : q * M < wordBase ^ m.limbs * M := Nat.mul_lt_mul_of_pos_right hq h.modulus_pos
    have hsum : wordBase ^ m.limbs * t < wordBase ^ m.limbs * (2 * M) := by
      rw [← ht, hvalue]
      calc wordsValue a * wordsValue b + q * M
          < M * wordBase ^ m.limbs + wordBase ^ m.limbs * M := Nat.add_lt_add hlt hq'
        _ = wordBase ^ m.limbs * (2 * M) := by ring
    exact Nat.lt_of_mul_lt_mul_left hsum
  have hcast : (t : ZMod M) * (wordBase ^ m.limbs : Nat) = wordsValue a * wordsValue b := by
    have hzmod := congrArg (Nat.cast : Nat → ZMod M) (ht.symm.trans hvalue)
    push_cast at hzmod ⊢
    rw [ZMod.natCast_self, mul_zero, add_zero] at hzmod
    rw [← hzmod, mul_comm]
  unfold montgomeryMultiplyRaw
  dsimp only
  generalize montgomeryProduct m a b = product at *
  -- the limbs above the radix hold the quotient
  have hfront : ((product.drop m.limbs).take m.limbs).length = m.limbs := by
    rw [List.length_take, List.length_drop, hlength]
    simp only [ecProductLimbs]
    omega
  have htop : (product.getD (2 * m.limbs) 0).toNat = t / wordBase ^ m.limbs := by
    rw [LimbBytes.limb_toNat, ht, two_mul, pow_add, ← Nat.div_div_eq_div_mul,
      Nat.mul_div_cancel_left _ hradix]
    have hsmall : t / wordBase ^ m.limbs < 2 := Nat.div_lt_of_lt_mul (by omega)
    exact Nat.mod_eq_of_lt (hsmall.trans_le (by decide))
  have hdrop : wordsValue (product.drop m.limbs) = t := by
    have hsplit := wordsValue_take_drop product m.limbs (by
      rw [hlength]
      simp only [ecProductLimbs]
      omega)
    have hlow := wordsValue_take_lt product m.limbs
    rw [ht] at hsplit
    have hdiv := congrArg (· / wordBase ^ m.limbs) hsplit
    rw [Nat.mul_div_cancel_left _ hradix, Nat.add_mul_div_left _ _ hradix, Nat.div_eq_of_lt hlow,
      Nat.zero_add] at hdiv
    exact hdiv.symm
  have hlow : wordsValue ((product.drop m.limbs).take m.limbs) = t % wordBase ^ m.limbs := by
    have hsplit := wordsValue_take_drop (product.drop m.limbs) m.limbs (by
      rw [List.length_drop, hlength]
      simp only [ecProductLimbs]
      omega)
    have hlt := wordsValue_take_lt (product.drop m.limbs) m.limbs
    rw [hdrop] at hsplit
    rw [hsplit, Nat.add_mul_mod_self_left, Nat.mod_eq_of_lt hlt]
  generalize (product.drop m.limbs).take m.limbs = reduced at *
  generalize product.getD (2 * m.limbs) 0 = top at *
  have hwork : Work.value ⟨reduced, top⟩ = t := by
    rw [Work.value, hfront, hlow, htop]
    exact Nat.mod_add_div t _
  obtain ⟨hfinal, hvalue⟩ := @maskedSubtract_spec ⟨reduced, top⟩ _ _ hfront h.length
    (by rw [hwork, h.value]; exact htlt)
  rw [hwork, h.value] at hvalue
  refine ⟨hfinal, ?_, ?_⟩
  · exact hvalue.trans_lt (Nat.mod_lt _ h.modulus_pos)
  · rw [hvalue, ZMod.natCast_mod]
    exact hcast

/-- The limbs hold the Montgomery form of `x`. -/
structure MontgomeryModulus.Holds (m : MontgomeryModulus) (M : Nat) (w : List UInt32)
    (x : ZMod M) : Prop where
  length : w.length = m.limbs
  represents : Represents M (wordBase ^ m.limbs) (wordsValue w) x

theorem MontgomeryModulus.Sound.unit (h : m.Sound M) :
    IsUnit ((wordBase ^ m.limbs : Nat) : ZMod M) := radix_isUnit h.odd m.limbs

variable {x y : ZMod M}

theorem MontgomeryModulus.Holds.lt (ha : m.Holds M a x) : wordsValue a < M := ha.represents.lt

theorem MontgomeryModulus.Holds.unique (ha : m.Holds M a x)
    (hb : m.Holds M b x) : a = b := by
  apply wordsValue_injective (ha.length.trans hb.length.symm)
  have hcast := ha.represents.cast.trans hb.represents.cast.symm
  rw [ZMod.natCast_eq_natCast_iff', Nat.mod_eq_of_lt ha.lt, Nat.mod_eq_of_lt hb.lt] at hcast
  exact hcast

theorem MontgomeryModulus.Holds.injective (h : m.Sound M) (ha : m.Holds M a x)
    (ha' : m.Holds M a y) : x = y := by
  apply h.unit.mul_right_cancel
  rw [← ha.represents.cast, ← ha'.represents.cast]

theorem multiply_holds (h : m.Sound M) (ha : m.Holds M a x) (hb : m.Holds M b y) :
    m.Holds M (montgomeryMultiplyRaw m a b) (x * y) := by
  have hlt : wordsValue a * wordsValue b < M * wordBase ^ m.limbs :=
    Nat.mul_lt_mul'' ha.lt (hb.lt.trans h.modulus_lt)
  obtain ⟨hlength, hless, hcast⟩ := montgomeryMultiplyRaw_spec h ha.length hb.length hlt
  exact ⟨hlength, ha.represents.mul h.unit hb.represents hless hcast⟩

theorem enter_holds (h : m.Sound M) (ha : a.length = m.limbs) :
    m.Holds M (montgomeryMultiplyRaw m a m.r2) (wordsValue a) := by
  have hr2 : wordsValue m.r2 < M := by
    rw [h.r2_value]
    exact Nat.mod_lt _ h.modulus_pos
  have hAlt := wordsValue_lt a
  rw [ha] at hAlt
  have hlt : wordsValue a * wordsValue m.r2 < M * wordBase ^ m.limbs := by
    rw [Nat.mul_comm M]
    exact Nat.mul_lt_mul'' hAlt hr2
  obtain ⟨hlength, hless, hcast⟩ := montgomeryMultiplyRaw_spec h ha h.r2_length hlt
  refine ⟨hlength, Represents.enter h.unit (s := wordsValue m.r2) ?_ hless hcast⟩
  rw [h.r2_value, ZMod.natCast_mod, Nat.cast_pow]

def oneLimbs (n : Nat) : List UInt32 := (List.replicate n 0).set 0 1

theorem oneLimbs_spec {n : Nat} (hn : n ≠ 0) :
    (oneLimbs n).length = n ∧ wordsValue (oneLimbs n) = 1 := by
  obtain ⟨k, rfl⟩ := Nat.exists_eq_succ_of_ne_zero hn
  rw [oneLimbs, List.replicate_succ, List.set_cons_zero, wordsValue_cons, wordsValue_zeros]
  exact ⟨by simp, rfl⟩

theorem leave_value (h : m.Sound M) (ha : m.Holds M a x) :
    (montgomeryMultiplyRaw m a (oneLimbs m.limbs)).length = m.limbs ∧
      wordsValue (montgomeryMultiplyRaw m a (oneLimbs m.limbs)) < M ∧
      (wordsValue (montgomeryMultiplyRaw m a (oneLimbs m.limbs)) : ZMod M) = x := by
  obtain ⟨hone, hvalue⟩ := oneLimbs_spec h.pos
  have hlt : wordsValue a * wordsValue (oneLimbs m.limbs) < M * wordBase ^ m.limbs := by
    rw [hvalue]
    exact Nat.mul_lt_mul_of_lt_of_le ha.lt (Nat.pow_pos wordBase_pos) (Nat.pow_pos wordBase_pos)
  obtain ⟨hlength, hless, hcast⟩ := montgomeryMultiplyRaw_spec h ha.length hone hlt
  rw [hvalue] at hcast
  exact ⟨hlength, hless, ha.represents.leave h.unit hcast⟩

theorem one_holds (h : m.Sound M) : m.Holds M m.one 1 := by
  refine ⟨h.one_length, ?_, ?_⟩
  · rw [h.one_value]
    exact Nat.mod_lt _ h.modulus_pos
  · rw [h.one_value, ZMod.natCast_mod, one_mul]

/-- A sum is reduced by one masked subtraction, the carry out of the limbs included. -/
theorem addReduced_holds (h : m.Sound M) (ha : m.Holds M a x) (hb : m.Holds M b y) :
    m.Holds M (selectWords (((0 : UInt32) - (addRow m.limbs a b 0).2.toUInt32) |||
        ((0 : UInt32) -
          ((subRow m.limbs (addRow m.limbs a b 0).1 m.modulus 0).2.toUInt32 ^^^ 1)))
      (addRow m.limbs a b 0).1 (subRow m.limbs (addRow m.limbs a b 0).1 m.modulus 0).1)
      (x + y) := by
  have hvalue := addRow_value (n := m.limbs) ha.length.le hb.length.le zero_carry
  have hcarry := addRow_carry (n := m.limbs) (a := a) (b := b) zero_carry
  have hlength : (addRow m.limbs a b 0).1.length = m.limbs := addRow_length
  have halt := ha.lt
  have hblt := hb.lt
  generalize addRow m.limbs a b 0 = sum at *
  rw [UInt64.toNat_zero, Nat.add_zero] at hvalue
  obtain ⟨htop, hmask⟩ : sum.2.toUInt32.toNat = sum.2.toNat ∧
      (0 : UInt32) - sum.2.toUInt32 = nonzeroMask sum.2.toUInt32 := by
    rcases Nat.le_one_iff_eq_zero_or_eq_one.mp hcarry with h0 | h1
    · have hzero : sum.2 = 0 := UInt64.toNat_inj.mp h0
      rw [hzero]
      exact ⟨rfl, rfl⟩
    · have hone : sum.2 = 1 := UInt64.toNat_inj.mp h1
      rw [hone]
      exact ⟨rfl, rfl⟩
  have hwork : Work.value ⟨sum.1, sum.2.toUInt32⟩ = wordsValue a + wordsValue b := by
    rw [Work.value, hlength, htop, hvalue]
  obtain ⟨hfinal, hresult⟩ := @maskedSubtract_spec ⟨sum.1, sum.2.toUInt32⟩ _ _ hlength
    h.length (by rw [hwork, h.value]; omega)
  rw [hwork, h.value] at hresult
  rw [hmask]
  refine ⟨hfinal, ?_, ?_⟩
  · exact hresult.trans_lt (Nat.mod_lt _ h.modulus_pos)
  · refine (congrArg Nat.cast hresult).trans ?_
    rw [ZMod.natCast_mod, Nat.cast_add, ha.represents.cast, hb.represents.cast, add_mul]

/-- Bit `i` of an exponent kept in limbs. -/
def exponentBit (exponent : List UInt32) (i : Nat) : UInt32 :=
  (exponent.getD (i / 32) 0 >>> UInt32.ofNat (i % 32)) &&& 1

theorem exponentBit_toNat (exponent : List UInt32) (i : Nat) :
    (exponentBit exponent i).toNat = wordsValue exponent / 2 ^ i % 2 := by
  rw [exponentBit, getBit_word _ (Nat.mod_lt i (by decide)),
    limb_bit exponent i (n := exponent.length + (i / 32 + 1)) (by omega),
    List.take_of_length_le (Nat.le_add_right _ _)]

/-- A loop over the bits of an exponent from the top, with one round as its argument. -/
theorem powerLoop_holds (h : m.Sound M) {exponent : List UInt32} {bits : Nat}
    (hbits : wordsValue exponent < 2 ^ bits) {round : Nat → List UInt32 → List UInt32}
    (hround : ∀ i result, ∀ y : ZMod M, m.Holds M result y →
      m.Holds M (round i result) (if exponentBit exponent i = 0 then y * y else y * y * x)) :
    m.Holds M (countDown bits round m.one) (x ^ wordsValue exponent) := by
  have hloop := countDown_invariant (n := bits) (s := m.one) (f := round)
    (fun i result => m.Holds M result (x ^ (wordsValue exponent / 2 ^ i))) ?_ ?_
  · rwa [pow_zero, Nat.div_one] at hloop
  · rw [Nat.div_eq_of_lt hbits, pow_zero]
    exact one_holds h
  · intro i hi result hresult
    have hbit := exponentBit_toNat exponent i
    have hnext := hround i result _ hresult
    by_cases hz : exponentBit exponent i = 0
    · rw [hz] at hbit
      rwa [if_pos hz, step_clear x hbit.symm] at hnext
    · have hone : wordsValue exponent / 2 ^ i % 2 = 1 := by
        have hne : wordsValue exponent / 2 ^ i % 2 ≠ 0 := fun h0 =>
          hz (UInt32.toNat_inj.mp (hbit.trans h0))
        have hlt := Nat.mod_lt (wordsValue exponent / 2 ^ i) Nat.two_pos
        omega
      rwa [if_neg hz, step_set x hone] at hnext

end Multiply

def fieldPrime (curve : CryptoEcCurve) : Nat := wordsValue curve.p

def groupOrder (curve : CryptoEcCurve) : Nat := wordsValue curve.order

theorem fieldModulus_sound (id : CryptoEcCurveId) :
    (fieldModulus (cryptoEcCurveGet id)).Sound (fieldPrime (cryptoEcCurveGet id)) := by
  cases id <;> constructor <;> decide

theorem scalarModulus_sound (id : CryptoEcCurveId) :
    (scalarModulus (cryptoEcCurveGet id)).Sound (groupOrder (cryptoEcCurveGet id)) := by
  cases id <;> constructor <;> decide

end LiberaCrypt.EcMontgomery
