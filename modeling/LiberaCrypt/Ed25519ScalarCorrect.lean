import LiberaCrypt.Endian
import LiberaCrypt.Field25519Bytes
import LiberaCrypt.Limbs

namespace LiberaCrypt.Ed25519Scalar

open LiberaCrypt.CheckedWords LiberaCrypt.CountedLoop LiberaCrypt.Endian LiberaCrypt.Field25519
open LiberaCrypt.Field25519Bytes LiberaCrypt.Field25519Subtract LiberaCrypt.Limbs
open LiberaCrypt.LittleEndian LiberaCrypt.MonadicLoop LiberaCrypt.Radix LiberaCrypt.WordArithmetic

def ed25519L : List UInt32 :=
  [0x5cf5d3ed, 0x5812631a, 0xa2f79cd6, 0x14def9de, 0x00000000, 0x00000000, 0x00000000, 0x10000000]

def scalarFromBytes (input : List UInt8) : List UInt32 :=
  (List.range 8).map fun i => cryptoLoad32Le (input.drop (4 * i))

def scalarToBytes (input : List UInt32) : List UInt8 := input.flatMap cryptoStore32Le

section Definitions

variable {m : Type → Type} [Monad m] (W : Words m)

def scalarBorrowRow : UInt32 → List UInt32 → List UInt32 → m (List UInt32 × UInt32)
  | borrow, x :: xs, y :: ys => do
    let d ← W.sub64 x.toUInt64 y.toUInt64 borrow.toUInt64
    let rest ← scalarBorrowRow (d >>> 63).toUInt32 xs ys
    return (d.toUInt32 :: rest.1, rest.2)
  | borrow, _, _ => return ([], borrow)

def scalarConditionalSubtractL (value : List UInt32) : m (List UInt32) := do
  let difference ← scalarBorrowRow W 0 value ed25519L
  return selectRow (0 - (difference.2 ^^^ 1)) value difference.1

/-- The limbs are doubled and a bit enters; the bit that leaves is dropped. -/
def shiftInRow : UInt32 → List UInt32 → List UInt32
  | carry, x :: xs => ((x <<< 1) ||| carry) :: shiftInRow (x >>> 31) xs
  | _, [] => []

def reduceStep (input : List UInt8) (bit : Nat) (remainder : List UInt32) : m (List UInt32) :=
  scalarConditionalSubtractL W (shiftInRow (byteBit input bit) remainder)

def scalarReduce (input : List UInt8) : m (List UInt8) := do
  let remainder ← countDownM (input.length * 8) (reduceStep W input) (List.replicate 8 0)
  return scalarToBytes remainder

/-- `product[i + j] += a[i] * b[j]` for one `i`; the carry goes into the next limb. -/
def scalarProductRow (x : UInt32) : UInt64 → List UInt32 → List UInt32 → m (List UInt32)
  | carry, y :: ys, z :: zs => do
    let term ← W.mul64 x.toUInt64 y.toUInt64
    let sum ← W.add64 z.toUInt64 term
    let value ← W.add64 sum carry
    let rest ← scalarProductRow x (value >>> 32) ys zs
    return value.toUInt32 :: rest
  | carry, [], _ :: zs => do
    let top ← W.narrow carry
    return top :: zs
  | _, _, [] => return []

def scalarProductRows (b : List UInt32) : List UInt32 → List UInt32 → m (List UInt32)
  | x :: xs, product => do
    let product ← scalarProductRow W x 0 b product
    let rest ← scalarProductRows b xs product.tail
    return product.head?.toList ++ rest
  | [], product => return product

/-- The addend is added to the product, and the carry goes up to its end. -/
def scalarAddRow : UInt64 → List UInt32 → List UInt32 → m (List UInt32)
  | carry, z :: zs, c :: cs => do
    let sum ← W.add64 z.toUInt64 c.toUInt64
    let value ← W.add64 sum carry
    let rest ← scalarAddRow (value >>> 32) zs cs
    return value.toUInt32 :: rest
  | carry, z :: zs, [] => do
    let value ← W.add64 z.toUInt64 carry
    let rest ← scalarAddRow (value >>> 32) zs []
    return value.toUInt32 :: rest
  | _, [], _ => return []

/-- The contents of `product` when it is encoded. -/
def scalarProduct (a b c : List UInt32) : m (List UInt32) := do
  let product ← scalarProductRows W b a (List.replicate 16 0)
  scalarAddRow W 0 product c

def scalarMulAdd (left right addend : List UInt8) : m (List UInt8) := do
  let product ← scalarProduct W (scalarFromBytes left) (scalarFromBytes right)
    (scalarFromBytes addend)
  scalarReduce W (product.flatMap cryptoStore32Le)

end Definitions

end LiberaCrypt.Ed25519Scalar

namespace LiberaCrypt.Ed25519ScalarCorrect

open LiberaCrypt.CheckedWords LiberaCrypt.Ed25519Scalar LiberaCrypt.Endian
open LiberaCrypt.Field25519 LiberaCrypt.Field25519Bytes LiberaCrypt.Field25519Subtract
open LiberaCrypt.Limbs LiberaCrypt.LittleEndian LiberaCrypt.MonadicLoop LiberaCrypt.Radix
open LiberaCrypt.WordArithmetic

def order : Nat := 2 ^ 252 + 27742317777372353535851937790883648493

theorem ed25519L_value : wordsValue ed25519L = order := by decide

section Bytes

theorem storedWords_length (words : List UInt32) :
    (words.flatMap cryptoStore32Le).length = 4 * words.length := by
  induction words with
  | nil => rfl
  | cons x xs ih =>
    rw [List.flatMap_cons, List.length_append, ih, cryptoStore32Le_length, List.length_cons]
    omega

theorem storedWords_value (words : List UInt32) :
    bytesValue (words.flatMap cryptoStore32Le) = wordsValue words := by
  induction words with
  | nil => rfl
  | cons x xs ih =>
    rw [List.flatMap_cons, bytesValue_append, bytesValue_cryptoStore32Le, ih, wordsValue_cons,
      cryptoStore32Le_length]
    rfl

theorem loadedWords_value (input : List UInt8) {n : Nat} (h : 4 * n ≤ input.length) :
    wordsValue ((List.range n).map fun i => cryptoLoad32Le (input.drop (4 * i))) =
      bytesValue (input.take (4 * n)) := by
  induction n with
  | zero => simp
  | succ n ih =>
    have hpower : wordBase ^ n = 256 ^ (4 * n) := by rw [pow_mul, wordBase]; rfl
    rw [List.range_succ, List.map_append, wordsValue_append, ih (by omega), Nat.mul_succ,
      List.take_add, bytesValue_append, List.length_take, Nat.min_eq_left (by omega)]
    simp [toNat_cryptoLoad32Le, hpower]

theorem scalarFromBytes_length (input : List UInt8) : (scalarFromBytes input).length = 8 := by
  simp [scalarFromBytes]

theorem scalarFromBytes_value {input : List UInt8} (h : input.length = 32) :
    wordsValue (scalarFromBytes input) = bytesValue input := by
  rw [scalarFromBytes, loadedWords_value input h.ge, List.take_of_length_le h.le]

end Bytes

variable {m : Type → Type} [Monad m] [LawfulMonad m] {W : Words m}

section Reduction

variable {borrow carry : UInt32} {xs ys value : List UInt32}

theorem scalarBorrowRow_value (hW : Exact W) (hlength : xs.length = ys.length)
    (hborrow : borrow.toNat ≤ 1) :
    ∃ r : List UInt32 × UInt32, scalarBorrowRow W borrow xs ys = pure r ∧
      r.1.length = xs.length ∧ r.2.toNat ≤ 1 ∧ wordsValue r.1 + wordsValue ys + borrow.toNat =
        wordsValue xs + wordBase ^ xs.length * r.2.toNat := by
  induction xs generalizing ys borrow with
  | nil =>
    cases ys with
    | nil => exact ⟨([], borrow), by simp [scalarBorrowRow], rfl, hborrow, by simp⟩
    | cons y ys => simp at hlength
  | cons x xs ih =>
    cases ys with
    | nil => simp at hlength
    | cons y ys =>
      obtain ⟨hbit, hstep⟩ := borrow_step x y hborrow
      obtain ⟨rest, hrest, hlen, hlast, hvalue⟩ := ih (Nat.succ.inj hlength) hbit
      refine ⟨((x.toUInt64 - y.toUInt64 - borrow.toUInt64).toUInt32 :: rest.1, rest.2), ?_, ?_,
        hlast, ?_⟩
      · rw [scalarBorrowRow, hW.sub64 (borrow_signed x y hborrow), pure_bind, hrest,
          pure_bind]
      · simp [hlen]
      · simp only [wordsValue_cons, List.length_cons, pow_succ]
        change _ = _ + wordBase * _ at hstep
        linear_combination wordBase * hvalue + hstep

theorem scalarConditionalSubtractL_value (hW : Exact W) (hlength : value.length = 8)
    (hlt : wordsValue value < 2 * order) :
    ∃ r, scalarConditionalSubtractL W value = pure r ∧ r.length = 8 ∧
      wordsValue r = wordsValue value % order := by
  have horder : value.length = ed25519L.length := hlength
  obtain ⟨difference, hrow, hlen, hlast, hvalue⟩ :=
    scalarBorrowRow_value hW horder zero_le_one
  have hbound := wordsValue_lt difference.1
  rw [ed25519L_value, hlength, UInt32.toNat_zero] at hvalue
  rw [hlen, hlength] at hbound
  rw [scalarConditionalSubtractL, hrow, pure_bind]
  refine ⟨_, rfl, ?_⟩
  rcases bit_cases hlast with h0 | h1
  · rw [h0, UInt32.toNat_zero] at hvalue
    rw [h0, show (0 : UInt32) - (0 ^^^ 1) = -1 from rfl, selectRow_ones hlen.symm,
      Nat.mod_eq_sub_mod (by omega), Nat.mod_eq_of_lt (by omega)]
    exact ⟨hlen.trans hlength, by omega⟩
  · have hborrowed : wordsValue value < order := by
      rw [h1, UInt32.toNat_one, wordBase] at hvalue
      unfold wordBase at hbound
      omega
    rw [h1, show (0 : UInt32) - (1 ^^^ 1) = 0 from rfl, selectRow_zeros hlen.symm,
      Nat.mod_eq_of_lt hborrowed]
    exact ⟨hlength, rfl⟩

theorem shiftInRow_length (carry : UInt32) (xs : List UInt32) :
    (shiftInRow carry xs).length = xs.length := by
  induction xs generalizing carry with
  | nil => rfl
  | cons x xs ih => rw [shiftInRow, List.length_cons, ih, List.length_cons]

theorem shiftIn_step (x : UInt32) (hcarry : carry.toNat ≤ 1) :
    (x >>> 31).toNat ≤ 1 ∧
      ((x <<< 1) ||| carry).toNat + wordBase * (x >>> 31).toNat = 2 * x.toNat + carry.toNat := by
  have hx := x.toNat_lt
  have hhigh : (x >>> 31).toNat = x.toNat / 2 ^ 31 := toNat_shift32 x 31 (by decide)
  have hjoin := toNat_join32 carry x (k := 1) (by decide) (by omega)
  rw [UInt32.or_comm] at hjoin
  change ((x <<< 1) ||| carry).toNat = _ at hjoin
  rw [wordBase]
  omega

theorem shiftInRow_value (xs : List UInt32) (hcarry : carry.toNat ≤ 1) :
    ∃ out, wordsValue (shiftInRow carry xs) + wordBase ^ xs.length * out =
      2 * wordsValue xs + carry.toNat := by
  induction xs generalizing carry with
  | nil => exact ⟨carry.toNat, by simp [shiftInRow]⟩
  | cons x xs ih =>
    obtain ⟨hbit, hstep⟩ := shiftIn_step x hcarry
    obtain ⟨out, hvalue⟩ := ih hbit
    refine ⟨out, ?_⟩
    simp only [shiftInRow, wordsValue_cons, List.length_cons, pow_succ]
    linear_combination wordBase * hvalue + hstep

theorem reduceStep_value (hW : Exact W) (input : List UInt8) (bit : Nat)
    (hlength : value.length = 8) (hlt : wordsValue value < order) :
    ∃ r, reduceStep W input bit value = pure r ∧ r.length = 8 ∧
      wordsValue r = (2 * wordsValue value + bytesValue input / 2 ^ bit % 2) % order := by
  have hbyte := byteBit_toNat input bit
  have hcarry : (byteBit input bit).toNat ≤ 1 := by omega
  obtain ⟨out, hshift⟩ := shiftInRow_value value hcarry
  have hroom : 2 * order < wordBase ^ 8 := by decide
  have hout : out = 0 := by
    have hsmall : 2 * wordsValue value + (byteBit input bit).toNat < 2 * order := by omega
    rw [hlength] at hshift
    by_contra hne
    have hle := Nat.mul_le_mul_left (wordBase ^ 8) (Nat.one_le_iff_ne_zero.mpr hne)
    omega
  rw [hout, Nat.mul_zero, Nat.add_zero, hbyte] at hshift
  rw [← hshift]
  exact scalarConditionalSubtractL_value hW ((shiftInRow_length _ _).trans hlength) (by omega)

/-- The remainder of the bits that have been taken in, from the highest one. -/
theorem scalarReduce_value (hW : Exact W) (input : List UInt8) :
    ∃ r, scalarReduce W input = pure r ∧ r.length = 32 ∧
      bytesValue r = bytesValue input % order := by
  have hinput := bytesValue_lt input
  have hpower : 2 ^ (input.length * 8) = 256 ^ input.length := by
    rw [Nat.mul_comm, pow_mul]
    rfl
  obtain ⟨remainder, hloop, hlength, hvalue⟩ := countDownM_invariant
    (fun i r => r.length = 8 ∧ wordsValue r = bytesValue input / 2 ^ i % order)
    (n := input.length * 8) (f := reduceStep W input) (s := List.replicate 8 0)
    ⟨rfl, by rw [hpower, Nat.div_eq_of_lt hinput]; rfl⟩
    (by
      rintro i - r ⟨hlength, hvalue⟩
      have hlt : wordsValue r < order := hvalue.trans_lt (Nat.mod_lt _ (by decide))
      obtain ⟨next, hnext, hlen, hsum⟩ := reduceStep_value hW input i hlength hlt
      have hbits : bytesValue input / 2 ^ i =
          2 * (bytesValue input / 2 ^ (i + 1)) + bytesValue input / 2 ^ i % 2 := by
        rw [pow_succ, ← Nat.div_div_eq_div_mul, Nat.div_add_mod]
      refine ⟨next, hnext, hlen, ?_⟩
      rw [hsum, hvalue]
      conv_rhs => rw [hbits]
      rw [Nat.add_mod, Nat.mul_mod, Nat.mod_mod, ← Nat.mul_mod, ← Nat.add_mod])
  rw [pow_zero, Nat.div_one] at hvalue
  refine ⟨scalarToBytes remainder, ?_, ?_, ?_⟩
  · rw [scalarReduce, hloop, pure_bind]
  · rw [scalarToBytes, storedWords_length, hlength]
  · rw [scalarToBytes, storedWords_value, hvalue]

end Reduction

section Products

variable {carry : UInt64} {ys low : List UInt32}

/-- A limb, a product of limbs and a carry of one limb fit in two limbs. -/
theorem scalarTerm_exact (hW : Exact W) (x y z : UInt32) (hcarry : carry.toNat < wordBase) :
    ∃ value, (do
        let term ← W.mul64 x.toUInt64 y.toUInt64
        let sum ← W.add64 z.toUInt64 term
        W.add64 sum carry) = (pure value : m UInt64) ∧
      value.toNat = z.toNat + x.toNat * y.toNat + carry.toNat := by
  have hz := z.toNat_lt
  have hterm : x.toNat * y.toNat ≤ (2 ^ 32 - 1) * (2 ^ 32 - 1) := mul_le
  have hmul : x.toUInt64.toNat * y.toUInt64.toNat < 2 ^ 64 := by
    rw [UInt32.toNat_toUInt64, UInt32.toNat_toUInt64]
    omega
  have hproduct := toNat_mul64 hmul
  rw [UInt32.toNat_toUInt64, UInt32.toNat_toUInt64] at hproduct
  have hz64 := UInt32.toNat_toUInt64 z
  rw [wordBase] at hcarry
  have hsum := toNat_add64 (x := z.toUInt64) (y := x.toUInt64 * y.toUInt64) (by omega)
  have hvalue := toNat_add64 (x := z.toUInt64 + x.toUInt64 * y.toUInt64) (y := carry) (by omega)
  refine ⟨_, ?_, by rw [hvalue, hsum, hproduct, hz64]⟩
  rw [hW.mul64 hmul, pure_bind, hW.add64 (by omega), pure_bind, hW.add64 (by omega)]

theorem zero_carry32 : (0 : UInt64).toNat < wordBase := by decide

/-- A row stores its carry over the limb above it, which must have been zero to lose nothing. -/
theorem scalarProductRow_value (hW : Exact W) (x : UInt32) (rest : List UInt32)
    (hlength : low.length = ys.length) (hcarry : carry.toNat < wordBase) :
    ∃ r, scalarProductRow W x carry ys (low ++ 0 :: rest) = pure (r ++ rest) ∧
      r.length = ys.length + 1 ∧
      wordsValue r = wordsValue low + x.toNat * wordsValue ys + carry.toNat := by
  induction ys generalizing low carry with
  | nil =>
    obtain rfl := List.length_eq_zero_iff.mp hlength
    refine ⟨[carry.toUInt32], ?_, rfl, ?_⟩
    · rw [List.nil_append, scalarProductRow, hW.narrow hcarry, pure_bind, List.singleton_append]
    · rw [wordsValue_singleton, toNat_narrow hcarry]
      simp
  | cons y ys ih =>
    cases low with
    | nil => simp at hlength
    | cons z low =>
      obtain ⟨value, hterm, hvalue⟩ := scalarTerm_exact hW x y z hcarry
      obtain ⟨r, hrow, hlen, hsum⟩ := ih (Nat.succ.inj hlength) (high_lt value)
      have hsplit := split_word value
      refine ⟨value.toUInt32 :: r, ?_, by rw [List.length_cons, hlen, List.length_cons], ?_⟩
      · rw [List.cons_append, scalarProductRow]
        simp only [← bind_assoc] at hterm ⊢
        rw [hterm, pure_bind, hrow, pure_bind, List.cons_append]
      · rw [hvalue] at hsplit
        simp only [wordsValue_cons]
        linear_combination wordBase * hsum + hsplit

theorem scalarProductRows_value (hW : Exact W) (xs : List UInt32)
    (hlength : low.length = ys.length) :
    ∃ r, scalarProductRows W ys xs (low ++ List.replicate xs.length 0) = pure r ∧
      r.length = ys.length + xs.length ∧
      wordsValue r = wordsValue low + wordsValue xs * wordsValue ys := by
  induction xs generalizing low with
  | nil => exact ⟨low, by simp [scalarProductRows], hlength, by simp⟩
  | cons x xs ih =>
    obtain ⟨row, hrow, hlen, hvalue⟩ := scalarProductRow_value hW x (List.replicate xs.length 0)
      hlength zero_carry32
    cases row with
    | nil => simp at hlen
    | cons head row =>
      obtain ⟨r, hrows, hlen', hsum⟩ := ih (Nat.succ.inj hlen)
      refine ⟨head :: r, ?_, by rw [List.length_cons, hlen', List.length_cons]; omega, ?_⟩
      · rw [List.length_cons, List.replicate_succ, scalarProductRows, hrow, pure_bind,
          List.cons_append, List.tail_cons, hrows, pure_bind]
        rfl
      · rw [wordsValue_cons, UInt64.toNat_zero] at hvalue
        rw [wordsValue_cons, hsum, wordsValue_cons]
        linear_combination hvalue

theorem scalarAdd_step (hW : Exact W) (z c : UInt32) (hcarry : carry.toNat < wordBase) :
    ∃ value, (W.add64 z.toUInt64 c.toUInt64 >>= fun sum => W.add64 sum carry) =
        (pure value : m UInt64) ∧ value.toNat = z.toNat + c.toNat + carry.toNat := by
  have hz := z.toNat_lt
  have hc := c.toNat_lt
  have hz64 := UInt32.toNat_toUInt64 z
  have hc64 := UInt32.toNat_toUInt64 c
  rw [wordBase] at hcarry
  have hsum := toNat_add64 (x := z.toUInt64) (y := c.toUInt64) (by omega)
  have hvalue := toNat_add64 (x := z.toUInt64 + c.toUInt64) (y := carry) (by omega)
  refine ⟨_, ?_, by rw [hvalue, hsum, hz64, hc64]⟩
  rw [hW.add64 (by omega), pure_bind, hW.add64 (by omega)]

theorem scalarAddRow_value (hW : Exact W) (zs cs : List UInt32) (hlength : cs.length ≤ zs.length)
    (hcarry : carry.toNat < wordBase) :
    ∃ r out, scalarAddRow W carry zs cs = pure r ∧ r.length = zs.length ∧
      wordsValue r + wordBase ^ zs.length * out =
        wordsValue zs + wordsValue cs + carry.toNat := by
  induction zs generalizing cs carry with
  | nil =>
    obtain rfl := List.length_eq_zero_iff.mp (Nat.le_zero.mp hlength)
    exact ⟨[], carry.toNat, by simp [scalarAddRow], rfl, by simp⟩
  | cons z zs ih =>
    cases cs with
    | nil =>
      have hz := z.toNat_lt
      have hz64 := UInt32.toNat_toUInt64 z
      have hroom : z.toUInt64.toNat + carry.toNat < 2 ^ 64 := by
        rw [wordBase] at hcarry
        omega
      have hvalue := toNat_add64 hroom
      have hsplit := split_word (z.toUInt64 + carry)
      obtain ⟨r, out, hrow, hlen, hsum⟩ := ih [] (Nat.zero_le _)
        (high_lt (z.toUInt64 + carry))
      refine ⟨(z.toUInt64 + carry).toUInt32 :: r, out, ?_, by simp [hlen], ?_⟩
      · rw [scalarAddRow, hW.add64 hroom, pure_bind, hrow, pure_bind]
      · rw [hvalue, hz64] at hsplit
        rw [wordsValue_nil] at hsum
        simp only [wordsValue_cons, wordsValue_nil, List.length_cons, pow_succ]
        linear_combination wordBase * hsum + hsplit
    | cons c cs =>
      obtain ⟨value, hterm, hvalue⟩ := scalarAdd_step hW z c hcarry
      have hsplit := split_word value
      obtain ⟨r, out, hrow, hlen, hsum⟩ := ih cs (Nat.le_of_succ_le_succ hlength) (high_lt value)
      refine ⟨value.toUInt32 :: r, out, ?_, by simp [hlen], ?_⟩
      · rw [scalarAddRow]
        simp only [← bind_assoc] at hterm ⊢
        rw [hterm, pure_bind, hrow, pure_bind]
      · rw [hvalue] at hsplit
        simp only [wordsValue_cons, List.length_cons, pow_succ]
        linear_combination wordBase * hsum + hsplit

theorem scalarProduct_value (hW : Exact W) {a b c : List UInt32} (ha : a.length = 8)
    (hb : b.length = 8) (hc : c.length = 8) :
    ∃ r, scalarProduct W a b c = pure r ∧ r.length = 16 ∧
      wordsValue r = wordsValue a * wordsValue b + wordsValue c := by
  obtain ⟨product, hproduct, hlength, hvalue⟩ := scalarProductRows_value hW a
    (show (List.replicate 8 0).length = b.length by rw [hb]; rfl)
  rw [ha, List.replicate_append_replicate] at hproduct
  have hsixteen : product.length = 16 := by rw [hlength, ha, hb]
  rw [wordsValue_zeros, Nat.zero_add] at hvalue
  obtain ⟨r, out, hsum, hlen, htotal⟩ := scalarAddRow_value hW product c
    (by rw [hc, hsixteen]; decide) zero_carry32
  rw [UInt64.toNat_zero, Nat.add_zero, hsixteen, hvalue] at htotal
  have hav := wordsValue_lt a
  have hbv := wordsValue_lt b
  have hcv := wordsValue_lt c
  rw [ha] at hav
  rw [hb] at hbv
  rw [hc] at hcv
  have hroom : wordsValue a * wordsValue b + wordsValue c < wordBase ^ 16 := by
    have hmul := Nat.mul_le_mul (Nat.le_pred_of_lt hav) (Nat.le_pred_of_lt hbv)
    have hsquare : (wordBase ^ 8 - 1) * (wordBase ^ 8 - 1) + wordBase ^ 8 ≤ wordBase ^ 16 := by
      decide
    exact (Nat.add_lt_add_of_le_of_lt hmul hcv).trans_le hsquare
  have hout : out = 0 := by
    by_contra hne
    have hle := Nat.mul_le_mul_left (wordBase ^ 16) (Nat.one_le_iff_ne_zero.mpr hne)
    omega
  rw [hout, Nat.mul_zero, Nat.add_zero] at htotal
  exact ⟨r, by rw [scalarProduct, hproduct, pure_bind, hsum], hlen.trans hsixteen, htotal⟩

theorem scalarMulAdd_value (hW : Exact W) {left right addend : List UInt8}
    (hleft : left.length = 32) (hright : right.length = 32) (haddend : addend.length = 32) :
    ∃ r, scalarMulAdd W left right addend = pure r ∧ r.length = 32 ∧
      bytesValue r = (bytesValue left * bytesValue right + bytesValue addend) % order := by
  obtain ⟨product, hproduct, -, hvalue⟩ := scalarProduct_value hW (scalarFromBytes_length left)
    (scalarFromBytes_length right) (scalarFromBytes_length addend)
  obtain ⟨r, hr, hlen, hreduced⟩ := scalarReduce_value hW (product.flatMap cryptoStore32Le)
  refine ⟨r, by rw [scalarMulAdd, hproduct, pure_bind, hr], hlen, ?_⟩
  rw [hreduced, storedWords_value, hvalue, scalarFromBytes_value hleft,
    scalarFromBytes_value hright, scalarFromBytes_value haddend]

end Products

/-- Every string of bytes is reduced to the canonical string of its residue, and the product of two
scalars with an addend is reduced from sixteen limbs that hold all of it. No word wraps. -/
theorem scalarArithmetic_exact (input : List UInt8) {left right addend : List UInt8}
    (hleft : left.length = 32) (hright : right.length = 32) (haddend : addend.length = 32) :
    (∃ r, scalarReduce machine input = r ∧ scalarReduce checked input = some r ∧ r.length = 32 ∧
      bytesValue r = bytesValue input % order) ∧
    (∃ product, scalarProduct machine (scalarFromBytes left) (scalarFromBytes right)
        (scalarFromBytes addend) = product ∧
      scalarProduct checked (scalarFromBytes left) (scalarFromBytes right)
        (scalarFromBytes addend) = some product ∧ product.length = 16 ∧
      wordsValue product = bytesValue left * bytesValue right + bytesValue addend) ∧
    ∃ r, scalarMulAdd machine left right addend = r ∧
      scalarMulAdd checked left right addend = some r ∧ r.length = 32 ∧
      bytesValue r = (bytesValue left * bytesValue right + bytesValue addend) % order := by
  refine ⟨?_, ?_, ?_⟩
  · obtain ⟨r, hr, hlen, hvalue⟩ := scalarReduce_value machine_exact input
    obtain ⟨r', hr', hlen', hvalue'⟩ := scalarReduce_value checked_exact input
    obtain rfl := bytesValue_injective (hlen'.trans hlen.symm) (hvalue'.trans hvalue.symm)
    exact ⟨r', hr, hr', hlen, hvalue⟩
  · obtain ⟨p, hp, hlen, hvalue⟩ := scalarProduct_value machine_exact (scalarFromBytes_length left)
      (scalarFromBytes_length right) (scalarFromBytes_length addend)
    obtain ⟨p', hp', hlen', hvalue'⟩ := scalarProduct_value checked_exact
      (scalarFromBytes_length left) (scalarFromBytes_length right) (scalarFromBytes_length addend)
    obtain rfl := wordsValue_injective (hlen'.trans hlen.symm) (hvalue'.trans hvalue.symm)
    rw [scalarFromBytes_value hleft, scalarFromBytes_value hright,
      scalarFromBytes_value haddend] at hvalue
    exact ⟨p', hp, hp', hlen, hvalue⟩
  · obtain ⟨r, hr, hlen, hvalue⟩ := scalarMulAdd_value machine_exact hleft hright haddend
    obtain ⟨r', hr', hlen', hvalue'⟩ := scalarMulAdd_value checked_exact hleft hright haddend
    obtain rfl := bytesValue_injective (hlen'.trans hlen.symm) (hvalue'.trans hvalue.symm)
    exact ⟨r', hr, hr', hlen, hvalue⟩

theorem scalarArithmetic_exact_largest :
    ∃ r, scalarMulAdd machine (List.replicate 32 0xff) (List.replicate 32 0xff)
        (List.replicate 32 0xff) = r ∧
      scalarMulAdd checked (List.replicate 32 0xff) (List.replicate 32 0xff)
        (List.replicate 32 0xff) = some r ∧ r.length = 32 ∧
      bytesValue r = (bytesValue (List.replicate 32 0xff) * bytesValue (List.replicate 32 0xff) +
        bytesValue (List.replicate 32 0xff)) % order :=
  (scalarArithmetic_exact [] (List.length_replicate ..) (List.length_replicate ..)
    (List.length_replicate ..)).2.2

end LiberaCrypt.Ed25519ScalarCorrect
