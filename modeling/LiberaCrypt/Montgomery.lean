import LiberaCrypt.BignumMod
import LiberaCrypt.MontgomeryReduction
import Mathlib.Data.UInt

namespace LiberaCrypt.Montgomery

open LiberaCrypt.Outcome LiberaCrypt.Allocation LiberaCrypt.Limbs LiberaCrypt.Bignum
open LiberaCrypt.BignumMod LiberaCrypt.MontgomeryReduction
open scoped UInt32.CommRing

/-- `x` after `i` rounds of `x *= 2 - n0 * x` from one. -/
def newtonRounds (n0 : UInt32) : Nat → UInt32
  | 0 => 1
  | i + 1 => newtonRounds n0 i * (2 - n0 * newtonRounds n0 i)

def bignumMontN0inv (n0 : UInt32) : UInt32 := (0 : UInt32) - newtonRounds n0 5

/-- `work[0 .. n - 1]` and `work[n]` between two rows; `work[n + 1]` is zero there. -/
structure Work where
  low : List UInt32
  top : UInt32

/-- One row: `work += a * bi`, then the reduction, which writes limb `j` to `j - 1`. -/
def ciosRow (n : Nat) (a modulus : List UInt32) (n0inv : UInt32) (work : Work) (bi : UInt32) : Work :=
  let row := mulAddRow n a bi work.low 0
  let z := work.top.toUInt64 + row.2
  let high := (z >>> 32).toUInt32
  let m := row.1.headD 0 * n0inv
  let z0 := (row.1.headD 0).toUInt64 + m.toUInt64 * (modulus.headD 0).toUInt64
  let reduced := mulAddRow (n - 1) modulus.tail m row.1.tail (z0 >>> 32)
  let zn := z.toUInt32.toUInt64 + reduced.2
  ⟨reduced.1 ++ [zn.toUInt32], (high.toUInt64 + (zn >>> 32)).toUInt32⟩

/-- The rows for `k` limbs of `b`, which is extended by zero limbs. -/
def ciosRows (n : Nat) (a modulus : List UInt32) (n0inv : UInt32) : Nat → List UInt32 → Work → Work
  | 0, _, work => work
  | k + 1, b, work =>
    ciosRows n a modulus n0inv k b.tail (ciosRow n a modulus n0inv work (b.headD 0))

/-- The lengths are those of the context, so that the check on them always passes. -/
def bignumMontCiosCandidate (a b modulus : List UInt32) (n : Nat) (n0inv : UInt32) : Work :=
  ciosRows n a modulus n0inv n b ⟨List.replicate n 0, 0⟩

/-- `BignumVtMontCtx` and `BignumCtMontCtx`, less the scratch words. -/
structure BignumMontCtx where
  n : Nat
  n0inv : UInt32
  mod : List UInt32
  r2 : List UInt32

/-- `R²` modulo the modulus for `R = 2 ^ (32 n)`. -/
def bignumMontComputeR2Words (n : Nat) (modulus : LiberaCBignum) : Fallible (List UInt32) :=
  if n = 0 ∨ modulus.length ≠ n then throw .invalidArgument
  else if (sizeMax - 1) / 2 < n then throw .invalidArgument
  else do
    let grown ← bignumReserve cryptoBignumInit (2 * n + 1)
    let power : LiberaCBignum :=
      ⟨storeWords grown.limbs (List.replicate (2 * n) 0 ++ [1]), 2 * n + 1⟩
    let reduced ← cryptoBignumMod cryptoBignumInit power modulus
    if n < reduced.length then throw .invalidArgument
    else pure (reduced.words ++ List.replicate (n - reduced.length) 0)

def bignumMontInit (modulus : LiberaCBignum) : Fallible BignumMontCtx :=
  if modulus.length = 0 ∨ (modulus.limbs.getD 0 0) &&& 1 = 0 then throw .invalidArgument
  else if (sizeMax - 2) / 3 < modulus.length then throw .invalidArgument
  else do
    let n := modulus.length
    allocate (4 * (3 * n + 2)) .invalidArgument
    let r2 ← bignumMontComputeR2Words n modulus
    pure ⟨n, bignumMontN0inv (modulus.limbs.getD 0 0), modulus.words, r2⟩

def bignumVtMontInit (modulus : LiberaCBignum) : Fallible BignumMontCtx := bignumMontInit modulus

def bignumCtMontInit (modulus : LiberaCBignum) : Fallible BignumMontCtx := bignumMontInit modulus

def BignumMontCtx.candidate (ctx : BignumMontCtx) (a b : List UInt32) : Work :=
  bignumMontCiosCandidate a b ctx.mod ctx.n ctx.n0inv

def bignumVtGeMod (candidate : Work) (ctx : BignumMontCtx) : Bool :=
  candidate.top != 0 || compareDown candidate.low ctx.mod ctx.n != .lt

def bignumVtMontMul (ctx : BignumMontCtx) (a b : List UInt32) : List UInt32 :=
  let t := ctx.candidate a b
  if bignumVtGeMod t ctx then (subRow ctx.n t.low ctx.mod 0).1 else t.low

/-- Limb by limb, `zeroChoice` under a clear mask and `oneChoice` under a full one. -/
def selectWords (mask : UInt32) (zeroChoice oneChoice : List UInt32) : List UInt32 :=
  List.zipWith (fun z o => (z &&& ~~~mask) ||| (o &&& mask)) zeroChoice oneChoice

def bignumCtSelect (zeroChoice oneChoice : List UInt32) (bit : UInt32) : List UInt32 :=
  selectWords ((0 : UInt32) - (bit &&& 1)) zeroChoice oneChoice

def bignumCtMontMul (ctx : BignumMontCtx) (a b : List UInt32) : List UInt32 :=
  let t := ctx.candidate a b
  let difference := subRow ctx.n t.low ctx.mod 0
  let borrow : UInt32 := if t.top.toUInt64 < difference.2 then 1 else 0
  let useSubtracted := borrow ^^^ 1
  selectWords ((0 : UInt32) - useSubtracted) t.low difference.1

def Work.value (work : Work) : Nat := wordsValue work.low + wordBase ^ work.low.length * work.top.toNat

theorem newtonRounds_error (n0 : UInt32) (i : Nat) :
    1 - n0 * newtonRounds n0 i = (1 - n0) ^ 2 ^ i := by
  induction i with
  | zero => simp [newtonRounds]
  | succ i ih =>
    rw [pow_succ, pow_mul, ← ih, newtonRounds]
    ring

theorem bignumMontN0inv_spec {n0 : UInt32} (h : n0.toNat % 2 = 1) :
    n0 * bignumMontN0inv n0 = (0 : UInt32) - 1 := by
  have heven : 1 - n0 = 2 * (0 - UInt32.ofNat (n0.toNat / 2)) := by
    have hodd : n0 = 2 * UInt32.ofNat (n0.toNat / 2) + 1 := by
      apply UInt32.toNat_inj.mp
      have hn := n0.toNat_lt
      rw [UInt32.toNat_add, UInt32.toNat_mul, UInt32.toNat_ofNat']
      change _ = (2 * (n0.toNat / 2 % 2 ^ 32) % 2 ^ 32 + 1) % 2 ^ 32
      omega
    conv_lhs => rw [hodd]
    ring
  have hzero : (1 - n0) ^ 2 ^ 5 = 0 := by
    rw [heven, mul_pow]
    have h2 : (2 : UInt32) ^ 2 ^ 5 = 0 := by decide
    rw [h2, zero_mul]
  have herror := newtonRounds_error n0 5
  rw [hzero] at herror
  rw [bignumMontN0inv]
  linear_combination herror

section Row

variable {n k : Nat} {a b modulus : List UInt32} {n0inv : UInt32} {work : Work}

theorem lowest_cleared (t d : UInt32) (h : d * n0inv = (0 : UInt32) - 1) :
    wordBase * ((t.toUInt64 + (t * n0inv).toUInt64 * d.toUInt64) >>> 32).toNat =
      t.toNat + (t * n0inv).toNat * d.toNat := by
  have hvalue := mulAdd_toNat (a := t * n0inv) (b := d) (t := t) (c := 0) wordBase_pos
  rw [UInt64.add_zero, UInt64.toNat_zero, Nat.add_zero, UInt64.add_comm] at hvalue
  have hsplit := split_word (t.toUInt64 + (t * n0inv).toUInt64 * d.toUInt64)
  have hlow : (t.toUInt64 + (t * n0inv).toUInt64 * d.toUInt64).toUInt32 = 0 := by
    rw [UInt64.toUInt32_add, UInt64.toUInt32_mul, UInt32.toUInt32_toUInt64, UInt32.toUInt32_toUInt64,
      UInt32.toUInt32_toUInt64]
    linear_combination t * h
  rw [hlow, UInt32.toNat_zero, Nat.zero_add, hvalue] at hsplit
  rw [hsplit, Nat.add_comm]

theorem word_add_toNat (x : UInt32) {c : UInt64} (hc : c.toNat < wordBase) :
    (x.toUInt64 + c).toNat = x.toNat + c.toNat ∧ ((x.toUInt64 + c) >>> 32).toNat ≤ 1 := by
  have hx := word_lt x
  have hsum : (x.toUInt64 + c).toNat = x.toNat + c.toNat := by
    simp only [wordBase] at hx hc
    rw [UInt64.toNat_add, UInt32.toNat_toUInt64]
    omega
  refine ⟨hsum, ?_⟩
  rw [high_toNat, hsum]
  apply Nat.le_of_lt_succ
  apply Nat.div_lt_of_lt_mul
  omega

@[simp] theorem ciosRow_length (hn : n = k + 1) (bi : UInt32) :
    (ciosRow n a modulus n0inv work bi).low.length = n := by
  simp [ciosRow, hn]

/-- A row adds `a * bi` and a multiple of the modulus, and divides by the word. -/
theorem ciosRow_value (hn : n = k + 1) (ha : a.length ≤ n) (hm : modulus.length = n)
    (hinv : modulus.headD 0 * n0inv = (0 : UInt32) - 1) (hlow : work.low.length = n)
    (bi : UInt32) : ∃ m < wordBase, wordBase * (ciosRow n a modulus n0inv work bi).value =
      work.value + wordsValue a * bi.toNat + m * wordsValue modulus := by
  have hrow := mulAddRow_value (n := n) (a := a) (x := bi) (t := work.low) (c := 0) ha hlow.le
    wordBase_pos
  have hcarry := mulAddRow_carry (n := n) (a := a) (x := bi) (t := work.low) (c := 0) wordBase_pos
  have hrowlen : (mulAddRow n a bi work.low 0).1.length = n := mulAddRow_length
  rw [UInt64.toNat_zero, Nat.add_zero] at hrow
  unfold ciosRow
  dsimp only
  generalize mulAddRow n a bi work.low 0 = row at *
  obtain ⟨hz, hhigh⟩ := word_add_toNat work.top hcarry
  have hzsplit := split_word (work.top.toUInt64 + row.2)
  rw [hz] at hzsplit
  generalize work.top.toUInt64 + row.2 = z at *
  have hclear := lowest_cleared (row.1.headD 0) (modulus.headD 0) hinv
  have hz0 := high_lt ((row.1.headD 0).toUInt64 +
    (row.1.headD 0 * n0inv).toUInt64 * (modulus.headD 0).toUInt64)
  generalize ((row.1.headD 0).toUInt64 + (row.1.headD 0 * n0inv).toUInt64 *
    (modulus.headD 0).toUInt64) >>> 32 = c at *
  generalize row.1.headD 0 * n0inv = m at *
  have hreduced := mulAddRow_value (n := n - 1) (a := modulus.tail) (x := m) (t := row.1.tail)
    (c := c) (by rw [List.length_tail, hm]) (by rw [List.length_tail, hrowlen]) hz0
  have hcarry' := mulAddRow_carry (n := n - 1) (a := modulus.tail) (x := m) (t := row.1.tail) hz0
  have hredlen : (mulAddRow (n - 1) modulus.tail m row.1.tail c).1.length = n - 1 :=
    mulAddRow_length
  generalize mulAddRow (n - 1) modulus.tail m row.1.tail c = reduced at *
  obtain ⟨hzn, hhigh'⟩ := word_add_toNat z.toUInt32 hcarry'
  have hznsplit := split_word (z.toUInt32.toUInt64 + reduced.2)
  rw [hzn] at hznsplit
  generalize z.toUInt32.toUInt64 + reduced.2 = zn at *
  -- neither the carry kept in `work[n + 1]` nor the new top limb is cut off
  have htop : ((z >>> 32).toUInt32.toUInt64 + (zn >>> 32)).toUInt32.toNat =
      (z >>> 32).toNat + (zn >>> 32).toNat := by
    have hbase : 2 < wordBase := by decide
    have hword : (z >>> 32).toUInt32.toNat = (z >>> 32).toNat := by
      rw [toUInt32_toNat, Nat.mod_eq_of_lt (hhigh.trans_lt (by omega))]
    have hsum := (word_add_toNat (z >>> 32).toUInt32 (hhigh'.trans_lt (by omega))).1
    rw [toUInt32_toNat, hsum, hword, Nat.mod_eq_of_lt (by omega)]
  refine ⟨m.toNat, word_lt m, ?_⟩
  simp only [Work.value]
  rw [List.length_append, hredlen, List.length_singleton, wordsValue_append, wordsValue_singleton,
    hredlen, htop, hlow, wordsValue_head_tail modulus]
  have hhead := wordsValue_head_tail row.1
  rw [hn, Nat.add_sub_cancel] at *
  rw [pow_succ] at *
  linear_combination hrow - hhead + hclear + wordBase * hreduced +
    wordBase ^ k * wordBase * (hzsplit + hznsplit)

theorem ciosRows_spec (work : Work) {M j : Nat} (hn : n = k + 1) (ha : a.length ≤ n)
    (hm : modulus.length = n)
    (hM : wordsValue modulus = M) (haM : wordsValue a ≤ M)
    (hinv : modulus.headD 0 * n0inv = (0 : UInt32) - 1) (hlow : work.low.length = n)
    (hlt : work.value < 2 * M) (hb : b.length ≤ j) :
    (ciosRows n a modulus n0inv j b work).low.length = n ∧
      (ciosRows n a modulus n0inv j b work).value < 2 * M ∧
      ((ciosRows n a modulus n0inv j b work).value : ZMod M) * (wordBase ^ j : Nat) =
        work.value + wordsValue a * wordsValue b := by
  induction j generalizing b work with
  | zero =>
    rw [List.length_eq_zero_iff.mp (Nat.le_zero.mp hb)]
    exact ⟨hlow, hlt, by simp [ciosRows]⟩
  | succ j ih =>
    obtain ⟨m, hmlt, hrow⟩ := ciosRow_value hn ha hm hinv hlow (b.headD 0)
    rw [hM] at hrow
    have hnext := row_lt haM (word_lt (b.headD 0)) hmlt hlt hrow
    obtain ⟨hlen, hbound, hcast⟩ := ih _ (b := b.tail) (ciosRow_length hn (b.headD 0)) hnext
      (by simpa using hb)
    refine ⟨hlen, hbound, ?_⟩
    have hstep := row_cast hrow
    rw [ciosRows, wordsValue_head_tail b]
    push_cast [pow_succ] at hcast ⊢
    linear_combination (wordBase : ZMod M) * hcast + hstep

end Row

section Select

variable {x y : List UInt32} {n : Nat}

theorem selectWords_zero (h : x.length = y.length) : selectWords 0 x y = x := by
  induction x generalizing y with
  | nil => rfl
  | cons d x ih =>
    cases y with
    | nil => simp at h
    | cons e y =>
      have hrest := ih (y := y) (Nat.succ.inj h)
      simpa [selectWords] using hrest

theorem selectWords_ones (h : x.length = y.length) : selectWords ((0 : UInt32) - 1) x y = y := by
  have hmask : (0 : UInt32) - 1 = -1 := rfl
  rw [hmask]
  induction x generalizing y with
  | nil => exact (List.length_eq_zero_iff.mp h.symm).symm
  | cons d x ih =>
    cases y with
    | nil => simp at h
    | cons e y =>
      have hrest := ih (y := y) (Nat.succ.inj h)
      simpa [selectWords] using hrest

theorem selectWords_bit (h : x.length = y.length) {bit : UInt32} (hbit : bit.toNat ≤ 1) :
    selectWords ((0 : UInt32) - bit) x y = if bit = 0 then x else y := by
  split_ifs with hz
  · rw [hz]
    exact selectWords_zero h
  · have hone : bit = 1 := by
      have hne : bit.toNat ≠ 0 := fun h0 => hz (UInt32.toNat_inj.mp h0)
      apply UInt32.toNat_inj.mp
      rw [UInt32.toNat_one]
      omega
    rw [hone]
    exact selectWords_ones h

end Select

/-- What initialization establishes of a context for the modulus `M`. -/
structure BignumMontCtx.Sound (ctx : BignumMontCtx) (M : Nat) : Prop where
  pos : ctx.n ≠ 0
  length : ctx.mod.length = ctx.n
  value : wordsValue ctx.mod = M
  odd : Nat.Coprime wordBase M
  inverse : ctx.mod.headD 0 * ctx.n0inv = (0 : UInt32) - 1
  r2_length : ctx.r2.length = ctx.n
  r2_cast : (wordsValue ctx.r2 : ZMod M) = ((wordBase ^ ctx.n : Nat) : ZMod M) ^ 2

section Multiply

variable {ctx : BignumMontCtx} {M : Nat} {a b : List UInt32}

theorem BignumMontCtx.Sound.modulus_pos (h : ctx.Sound M) : 0 < M := by
  by_contra hzero
  have hcoprime := h.odd
  rw [Nat.eq_zero_of_not_pos hzero, Nat.coprime_zero_right] at hcoprime
  exact absurd hcoprime (by decide)

theorem BignumMontCtx.Sound.candidate (h : ctx.Sound M) (ha : a.length = ctx.n)
    (hb : b.length = ctx.n) (haM : wordsValue a ≤ M) :
    (ctx.candidate a b).low.length = ctx.n ∧ (ctx.candidate a b).value < 2 * M ∧
      ((ctx.candidate a b).value : ZMod M) * (wordBase ^ ctx.n : Nat) =
        wordsValue a * wordsValue b := by
  obtain ⟨k, hk⟩ := Nat.exists_eq_succ_of_ne_zero h.pos
  have hpos := h.modulus_pos
  have hstart : Work.value ⟨List.replicate ctx.n 0, 0⟩ = 0 := by simp [Work.value]
  have hrows := ciosRows_spec ⟨List.replicate ctx.n 0, 0⟩ (b := b) hk ha.le h.length
    h.value haM h.inverse (List.length_replicate ..) (by rw [hstart]; omega) hb.le
  rw [hstart, Nat.cast_zero, zero_add] at hrows
  exact hrows

theorem mod_of_lt_double {t m : Nat} (h : t < 2 * m) : t % m = if t < m then t else t - m := by
  split_ifs with hlt
  · exact Nat.mod_eq_of_lt hlt
  · rw [Nat.mod_eq_sub_mod (not_lt.mp hlt), Nat.mod_eq_of_lt (by omega)]

theorem low_value {work : Work} {n : Nat} (hlow : work.low.length = n)
    (h : work.value < wordBase ^ n) : work.value = wordsValue work.low := by
  unfold Work.value at h ⊢
  rw [hlow] at h ⊢
  rw [high_eq_zero h, Nat.mul_zero, Nat.add_zero]

theorem candidate_sub {work : Work} {n : Nat} {m : List UInt32} (hlow : work.low.length = n)
    (hm : m.length = n) (hlt : work.value < 2 * wordsValue m) :
    (work.top.toNat < (subRow n work.low m 0).2.toNat ↔ work.value < wordsValue m) ∧
      (wordsValue m ≤ work.value →
        wordsValue (subRow n work.low m 0).1 = work.value - wordsValue m) := by
  have hvalue := subRow_value (n := n) hlow.le hm.le zero_carry
  have hborrow := subRow_borrow (n := n) (a := work.low) (b := m) zero_carry
  have hrowlt := wordsValue_lt (subRow n work.low m 0).1
  have hmlt := wordsValue_lt m
  rw [subRow_length] at hrowlt
  rw [hm] at hmlt
  rw [UInt64.toNat_zero, Nat.add_zero] at hvalue
  unfold Work.value at *
  rw [hlow] at *
  generalize subRow n work.low m 0 = row at *
  generalize wordBase ^ n = p at *
  constructor
  · constructor
    · intro h
      have htop : work.top.toNat = 0 := by omega
      have hone : row.2.toNat = 1 := by omega
      rw [hone] at hvalue
      rw [htop]
      omega
    · intro h
      by_contra hge
      rw [not_lt] at hge
      have hmul := Nat.mul_le_mul_left p hge
      omega
  · intro h
    obtain ⟨c, hc⟩ := Nat.exists_eq_add_of_le (show row.2.toNat ≤ work.top.toNat by
      by_contra hgt
      have htop : work.top.toNat = 0 := by omega
      have hone : row.2.toNat = 1 := by omega
      rw [hone] at hvalue
      rw [htop] at h
      omega)
    rw [hc, Nat.mul_add] at hlt h ⊢
    exact low_eq (d := 0) hrowlt (by omega) (c := c) (by omega)

theorem bignumVtGeMod_iff {work : Work} (h : ctx.Sound M) (hlow : work.low.length = ctx.n) :
    bignumVtGeMod work ctx = true ↔ M ≤ work.value := by
  have hmlt := wordsValue_lt ctx.mod
  rw [h.value, h.length] at hmlt
  have hcompare := compareDown_eq work.low ctx.mod ctx.n
  rw [List.take_of_length_le hlow.le, List.take_of_length_le h.length.le, h.value] at hcompare
  rw [bignumVtGeMod, hcompare, Work.value, hlow, Bool.or_eq_true, bne_iff_ne, bne_iff_ne, ne_eq,
    ne_eq, Nat.compare_eq_lt, not_lt]
  by_cases htop : work.top = 0
  · simp [htop]
  · have hpos : 1 ≤ work.top.toNat :=
      Nat.one_le_iff_ne_zero.mpr fun h0 => htop (UInt32.toNat_inj.mp h0)
    have hmul := Nat.mul_le_mul_left (wordBase ^ ctx.n) hpos
    constructor
    · intro _
      omega
    · intro _
      exact Or.inl htop

/-- `mul` returns the Montgomery candidate reduced by the modulus. -/
def Reduces (mul : BignumMontCtx → List UInt32 → List UInt32 → List UInt32) : Prop :=
  ∀ {ctx M a b}, BignumMontCtx.Sound ctx M → a.length = ctx.n → b.length = ctx.n →
    wordsValue a ≤ M → (mul ctx a b).length = ctx.n ∧
      wordsValue (mul ctx a b) = (ctx.candidate a b).value % M

theorem bignumVtMontMul_reduces : Reduces bignumVtMontMul := by
  intro ctx M a b h ha hb haM
  obtain ⟨hlow, hlt, -⟩ := h.candidate ha hb haM
  have hsub := candidate_sub hlow h.length (by rw [h.value]; exact hlt)
  have hge := bignumVtGeMod_iff h hlow
  rw [h.value] at hsub
  rw [bignumVtMontMul, mod_of_lt_double hlt]
  by_cases hM : M ≤ (ctx.candidate a b).value
  · rw [if_pos (hge.mpr hM), if_neg (not_lt.mpr hM)]
    exact ⟨subRow_length, hsub.2 hM⟩
  · rw [if_neg (mt hge.mp hM), if_pos (not_le.mp hM)]
    have hmlt := wordsValue_lt ctx.mod
    rw [h.value, h.length] at hmlt
    exact ⟨hlow, (low_value hlow ((not_le.mp hM).trans hmlt)).symm⟩

theorem bignumCtMontMul_reduces : Reduces bignumCtMontMul := by
  intro ctx M a b h ha hb haM
  obtain ⟨hlow, hlt, -⟩ := h.candidate ha hb haM
  have hsub := candidate_sub hlow h.length (by rw [h.value]; exact hlt)
  have hlen : (ctx.candidate a b).low.length =
      (subRow ctx.n (ctx.candidate a b).low ctx.mod 0).1.length := by rw [hlow, subRow_length]
  have hborrow : ((ctx.candidate a b).top.toUInt64 <
      (subRow ctx.n (ctx.candidate a b).low ctx.mod 0).2) ↔ (ctx.candidate a b).value < M := by
    rw [UInt64.lt_iff_toNat_lt, UInt32.toNat_toUInt64, hsub.1, h.value]
  rw [h.value] at hsub
  rw [bignumCtMontMul, mod_of_lt_double hlt]
  by_cases hM : (ctx.candidate a b).value < M
  · rw [if_pos (hborrow.mpr hM), if_pos hM, selectWords_bit hlen (by decide), if_pos (by decide)]
    have hmlt := wordsValue_lt ctx.mod
    rw [h.value, h.length] at hmlt
    exact ⟨hlow, (low_value hlow (hM.trans hmlt)).symm⟩
  · rw [if_neg (mt hborrow.mp hM), if_neg hM, selectWords_bit hlen (by decide),
      if_neg (by decide)]
    exact ⟨subRow_length, hsub.2 (not_lt.mp hM)⟩

/-- `w` is held in `n` limbs in the Montgomery form of `x`. -/
structure BignumMontCtx.Holds (ctx : BignumMontCtx) (M : Nat) (w : List UInt32) (x : ZMod M) :
    Prop where
  length : w.length = ctx.n
  represents : Represents M (wordBase ^ ctx.n) (wordsValue w) x

variable {mul : BignumMontCtx → List UInt32 → List UInt32 → List UInt32} {x y : ZMod M}

theorem BignumMontCtx.Sound.unit (h : ctx.Sound M) :
    IsUnit ((wordBase ^ ctx.n : Nat) : ZMod M) := radix_isUnit h.odd ctx.n

theorem Reduces.cast (hmul : Reduces mul) (h : ctx.Sound M) (ha : a.length = ctx.n)
    (hb : b.length = ctx.n) (haM : wordsValue a ≤ M) :
    (mul ctx a b).length = ctx.n ∧ wordsValue (mul ctx a b) < M ∧
      (wordsValue (mul ctx a b) : ZMod M) * (wordBase ^ ctx.n : Nat) =
        wordsValue a * wordsValue b := by
  obtain ⟨hlen, hvalue⟩ := hmul h ha hb haM
  obtain ⟨-, -, hcast⟩ := h.candidate ha hb haM
  refine ⟨hlen, ?_, ?_⟩
  · rw [hvalue]
    exact Nat.mod_lt _ h.modulus_pos
  · rw [hvalue, ZMod.natCast_mod]
    exact hcast

theorem Reduces.mul_holds (hmul : Reduces mul) (h : ctx.Sound M) (ha : ctx.Holds M a x)
    (hb : ctx.Holds M b y) : ctx.Holds M (mul ctx a b) (x * y) := by
  obtain ⟨hlen, hlt, hcast⟩ := hmul.cast h ha.length hb.length ha.represents.lt.le
  exact ⟨hlen, ha.represents.mul h.unit hb.represents hlt hcast⟩

theorem Reduces.enter_holds (hmul : Reduces mul) (h : ctx.Sound M) (ha : a.length = ctx.n)
    (haM : wordsValue a ≤ M) : ctx.Holds M (mul ctx a ctx.r2) (wordsValue a) := by
  obtain ⟨hlen, hlt, hcast⟩ := hmul.cast h ha h.r2_length haM
  exact ⟨hlen, Represents.enter h.unit h.r2_cast hlt hcast⟩

theorem Reduces.leave (hmul : Reduces mul) (h : ctx.Sound M) (ha : ctx.Holds M a x)
    (hb : b.length = ctx.n) (hone : wordsValue b = 1) :
    (mul ctx a b).length = ctx.n ∧ wordsValue (mul ctx a b) < M ∧
      (wordsValue (mul ctx a b) : ZMod M) = x := by
  obtain ⟨hlen, hlt, hcast⟩ := hmul.cast h ha.length hb ha.represents.lt.le
  rw [hone] at hcast
  exact ⟨hlen, hlt, ha.represents.leave h.unit hcast⟩

end Multiply

section Init

variable {modulus : LiberaCBignum} {room : Nat}

theorem odd_iff (x : UInt32) : x &&& 1 = 0 ↔ x.toNat % 2 = 0 := by
  rw [← UInt32.toNat_inj, UInt32.toNat_and]
  change x.toNat &&& 1 = 0 ↔ _
  rw [Nat.and_one_is_mod]

theorem words_head (h : modulus.length ≠ 0) :
    modulus.words.headD 0 = modulus.limbs.getD 0 0 ∧
      (modulus.limbs.getD 0 0).toNat % 2 = modulus.value % 2 := by
  obtain ⟨k, hk⟩ := Nat.exists_eq_succ_of_ne_zero h
  have hhead : modulus.words.headD 0 = modulus.limbs.getD 0 0 := by
    rw [LiberaCBignum.words, hk]
    cases modulus.limbs with
    | nil => rfl
    | cons x xs => rfl
  have heven : wordBase = 2 * 2 ^ 31 := by rw [wordBase, ← pow_succ']
  refine ⟨hhead, ?_⟩
  rw [LiberaCBignum.value, wordsValue_head_tail, hhead, heven, Nat.mul_assoc,
    Nat.add_mul_mod_self_left]

theorem power_stored {grown : LiberaCBignum} {n : Nat} (hgrown : grown.Valid)
    (hlength : grown.length = 0) (hfit : 2 * n + 1 ≤ grown.capacity) :
    LiberaCBignum.Valid ⟨storeWords grown.limbs (List.replicate (2 * n) 0 ++ [1]), 2 * n + 1⟩ ∧
      LiberaCBignum.value ⟨storeWords grown.limbs (List.replicate (2 * n) 0 ++ [1]), 2 * n + 1⟩ =
        wordBase ^ (2 * n) := by
  have hlen : (List.replicate (2 * n) (0 : UInt32) ++ [1]).length = 2 * n + 1 := by simp
  have hvalue : wordsValue (List.replicate (2 * n) 0 ++ [1]) = wordBase ^ (2 * n) := by
    rw [wordsValue_append, wordsValue_zeros, List.length_replicate, wordsValue_singleton]
    simp
  have htop := top_ne_zero (w := List.replicate (2 * n) 0 ++ [1])
    (by rw [hlen, hvalue, Nat.add_sub_cancel])
  have hvalid := padded_valid (grown.capacity - (2 * n + 1)) htop
  have hpadded := padded_value (w := List.replicate (2 * n) 0 ++ [1]) (grown.capacity - (2 * n + 1))
  rw [storeWords_covering hgrown (by rw [hlength]; exact Nat.zero_le _) (hlen.trans_le hfit), hlen]
  rw [hlen] at hvalid hpadded
  exact ⟨hvalid, hpadded.trans hvalue⟩

theorem bignumMontComputeR2Words_ensures (hm : modulus.Valid) (hpos : modulus.value ≠ 0)
    (h : 4 * (3 * modulus.length + 2) ≤ room) :
    Ensures room (bignumMontComputeR2Words modulus.length modulus) fun r2 =>
      r2.length = modulus.length ∧
        wordsValue r2 = wordBase ^ (2 * modulus.length) % modulus.value := by
  have hlength : modulus.length ≠ 0 := fun h0 => hpos (hm.length_eq_zero.mp h0)
  unfold bignumMontComputeR2Words
  rw [if_neg (by simpa using hlength)]
  apply Ensures.guard
  · intro hroom
    omega
  intro _
  apply (bignumReserve_ensures init_valid (n := 2 * modulus.length + 1) (by omega)).bind
  rintro grown ⟨hgrown, -, hgrownlen, hcapacity, -⟩
  obtain ⟨hpower, hpowervalue⟩ := power_stored hgrown hgrownlen hcapacity
  apply (cryptoBignumMod_ensures init_valid hpower hm hpos (by dsimp only; omega)).bind
  rintro reduced ⟨hreduced, hvalue⟩
  rw [hpowervalue] at hvalue
  have hle : reduced.length ≤ modulus.length := by
    apply hreduced.length_le_of_value
    rw [hvalue]
    exact (Nat.mod_lt _ (Nat.pos_of_ne_zero hpos)).le
  rw [if_neg (not_lt.mpr hle)]
  apply Ensures.pure
  constructor
  · rw [List.length_append, List.length_replicate, hreduced.words_length]
    omega
  · rw [wordsValue_append, wordsValue_zeros, Nat.mul_zero, Nat.add_zero]
    exact hvalue

structure BignumMontCtx.SetUp (ctx : BignumMontCtx) (modulus : LiberaCBignum) : Prop where
  n : ctx.n = modulus.length
  mod : ctx.mod = modulus.words
  /-- `n0inv` is the negated inverse of the lowest limb. -/
  inverse : ((ctx.mod.headD 0).toNat * ctx.n0inv.toNat + 1) % 2 ^ 32 = 0
  r2_length : ctx.r2.length = ctx.n
  r2 : wordsValue ctx.r2 = 2 ^ (64 * ctx.n) % modulus.value

theorem length_ne_zero_of_odd (hm : modulus.Valid) (hodd : modulus.value % 2 = 1) :
    modulus.value ≠ 0 ∧ modulus.length ≠ 0 := by
  have hpos : modulus.value ≠ 0 := by
    intro h0
    rw [h0] at hodd
    exact absurd hodd (by decide)
  exact ⟨hpos, fun h0 => hpos (hm.length_eq_zero.mp h0)⟩

theorem bignumMontInit_setUp (hm : modulus.Valid) (hodd : modulus.value % 2 = 1)
    (h : 4 * (3 * modulus.length + 2) ≤ room) :
    Ensures room (bignumMontInit modulus) fun ctx => ctx.SetUp modulus := by
  obtain ⟨hpos, hlength⟩ := length_ne_zero_of_odd hm hodd
  obtain ⟨hhead, hparity⟩ := words_head hlength
  have hodd' : (modulus.limbs.getD 0 0).toNat % 2 = 1 := hparity.trans hodd
  have hcheck : ¬ (modulus.length = 0 ∨ modulus.limbs.getD 0 0 &&& 1 = 0) := by
    rw [not_or, odd_iff, hodd']
    exact ⟨hlength, by decide⟩
  unfold bignumMontInit
  rw [if_neg hcheck]
  apply Ensures.guard
  · intro hroom
    omega
  intro _
  apply (Ensures.allocate h).bind
  intro _ _
  apply (bignumMontComputeR2Words_ensures hm hpos h).bind
  rintro r2 ⟨hr2len, hr2⟩
  apply Ensures.pure
  refine ⟨rfl, rfl, ?_, hr2len, ?_⟩
  · have hinverse := congrArg UInt32.toNat (bignumMontN0inv_spec hodd')
    have hones : ((0 : UInt32) - 1).toNat = 2 ^ 32 - 1 := rfl
    rw [UInt32.toNat_mul, hones] at hinverse
    dsimp only
    rw [hhead]
    omega
  · dsimp only
    rw [hr2, wordBase_pow, ← Nat.mul_assoc]

theorem BignumMontCtx.SetUp.sound {ctx : BignumMontCtx} (h : ctx.SetUp modulus)
    (hm : modulus.Valid) (hodd : modulus.value % 2 = 1) : ctx.Sound modulus.value := by
  obtain ⟨-, hlength⟩ := length_ne_zero_of_odd hm hodd
  refine ⟨?_, ?_, ?_, ?_, ?_, h.r2_length, ?_⟩
  · rw [h.n]
    exact hlength
  · rw [h.mod, h.n]
    exact hm.words_length
  · rw [h.mod]
    rfl
  · exact Nat.Coprime.pow_left 32 (Nat.coprime_two_left.mpr (Nat.odd_iff.mpr hodd))
  · have hinverse := h.inverse
    apply UInt32.toNat_inj.mp
    have hones : ((0 : UInt32) - 1).toNat = 2 ^ 32 - 1 := rfl
    rw [UInt32.toNat_mul, hones]
    omega
  · rw [h.r2, ZMod.natCast_mod, wordBase_pow, ← Nat.cast_pow, ← pow_mul]
    congr 2
    omega

theorem bignumMontInit_ensures (hm : modulus.Valid) (hodd : modulus.value % 2 = 1)
    (h : 4 * (3 * modulus.length + 2) ≤ room) :
    Ensures room (bignumMontInit modulus) fun ctx =>
      ctx.n = modulus.length ∧ ctx.Sound modulus.value := by
  apply (bignumMontInit_setUp hm hodd h).mono
  intro ctx hctx
  exact ⟨hctx.n, hctx.sound hm hodd⟩

def montgomeryProduct (M n a b : Nat) : ZMod M := a * b * ((2 : ZMod M) ^ (32 * n))⁻¹

/-- A number is the product if it is after the factor is put back. -/
theorem eq_montgomeryProduct {ctx : BignumMontCtx} {M x a b : Nat} (h : ctx.Sound M)
    (hx : (x : ZMod M) * (wordBase ^ ctx.n : Nat) = a * b) :
    (x : ZMod M) = montgomeryProduct M ctx.n a b := by
  have hunit := h.unit
  have hpow : ((wordBase ^ ctx.n : Nat) : ZMod M) = (2 : ZMod M) ^ (32 * ctx.n) := by
    rw [wordBase_pow, Nat.cast_pow, Nat.cast_ofNat]
  rw [hpow] at hunit hx
  rw [montgomeryProduct, ← hx, mul_assoc, ZMod.mul_inv_of_unit _ hunit, mul_one]

/-- Both engines set up the same values, form the same candidate below twice the modulus, and
bring it to the one residue. -/
theorem montgomery_exact (modulus : LiberaCBignum) (room : Nat) (hm : modulus.Valid)
    (hodd : modulus.value % 2 = 1) (hroom : 4 * (3 * modulus.length + 2) ≤ room) :
    Ensures room (bignumCtMontInit modulus) (fun ctx => ctx.SetUp modulus) ∧
    Ensures room (bignumVtMontInit modulus) (fun ctx => ctx.SetUp modulus) ∧
    ∀ (ctx : BignumMontCtx) (a b : List UInt32), ctx.SetUp modulus → a.length = modulus.length →
      b.length = modulus.length → wordsValue a < modulus.value → wordsValue b < modulus.value →
      (ctx.candidate a b).low.length = modulus.length ∧
      (ctx.candidate a b).value < 2 * modulus.value ∧
      ((ctx.candidate a b).value : ZMod modulus.value) =
        montgomeryProduct modulus.value modulus.length (wordsValue a) (wordsValue b) ∧
      wordsValue (bignumCtMontMul ctx a b) =
        (montgomeryProduct modulus.value modulus.length (wordsValue a) (wordsValue b)).val ∧
      (bignumCtMontMul ctx a b).length = modulus.length ∧
      wordsValue (bignumCtMontMul ctx a b) < modulus.value ∧
      bignumVtMontMul ctx a b = bignumCtMontMul ctx a b := by
  refine ⟨bignumMontInit_setUp hm hodd hroom, bignumMontInit_setUp hm hodd hroom, ?_⟩
  intro ctx a b hctx ha hb haM hbM
  have hsound := hctx.sound hm hodd
  rw [← hctx.n] at ha hb ⊢
  obtain ⟨hlow, hlt, hcandidate⟩ := hsound.candidate ha hb haM.le
  obtain ⟨hctlen, hctlt, hct⟩ := bignumCtMontMul_reduces.cast hsound ha hb haM.le
  obtain ⟨-, hctvalue⟩ := bignumCtMontMul_reduces hsound ha hb haM.le
  obtain ⟨hvtlen, hvtvalue⟩ := bignumVtMontMul_reduces hsound ha hb haM.le
  refine ⟨hlow, hlt, eq_montgomeryProduct hsound hcandidate, ?_, hctlen, hctlt, ?_⟩
  · rw [← eq_montgomeryProduct hsound hct, ZMod.val_cast_of_lt hctlt]
  · apply wordsValue_injective (hvtlen.trans hctlen.symm)
    rw [hvtvalue, hctvalue]

theorem montgomery_exact_full :
    Ensures 100 (bignumCtMontInit ⟨[0xffffffff, 0xffffffff], 2⟩)
      (fun ctx => ctx.SetUp ⟨[0xffffffff, 0xffffffff], 2⟩) := by
  have hvalid : LiberaCBignum.Valid ⟨[0xffffffff, 0xffffffff], 2⟩ :=
    ⟨by decide, fun i hi => List.getD_eq_default _ _ hi, by decide⟩
  exact (montgomery_exact ⟨[0xffffffff, 0xffffffff], 2⟩ 100 hvalid (by decide) (by decide)).1

end Init

end LiberaCrypt.Montgomery
