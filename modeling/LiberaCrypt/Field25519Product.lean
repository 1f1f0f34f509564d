import LiberaCrypt.Field25519Reduce

namespace LiberaCrypt.Field25519Product

open LiberaCrypt.CheckedWords LiberaCrypt.Field25519 LiberaCrypt.Field25519Reduce
open LiberaCrypt.Field25519Values LiberaCrypt.WordArithmetic

variable {m : Type → Type} [Monad m] [LawfulMonad m] {W : Words m} {xs ys : List UInt32}

theorem sumRow_value (hW : Exact W) (hlength : xs.length = ys.length) (hx : Below 65536 xs)
    (hy : Below 65536 ys) :
    ∃ r, sumRow W xs ys = pure r ∧ r.length = xs.length ∧ WideBelow (2 ^ 48) r ∧
      wideValue r = limbsValue xs + limbsValue ys := by
  induction xs generalizing ys with
  | nil =>
    cases ys with
    | nil => exact ⟨[], by simp [sumRow], rfl, wideBelow_nil, rfl⟩
    | cons y ys => simp at hlength
  | cons x xs ih =>
    cases ys with
    | nil => simp at hlength
    | cons y ys =>
      rw [below_cons] at hx hy
      obtain ⟨rest, hrest, hlen, hbelow, hvalue⟩ := ih (Nat.succ.inj hlength) hx.2 hy.2
      have hx64 := UInt32.toNat_toUInt64 x
      have hy64 := UInt32.toNat_toUInt64 y
      have hsum := toNat_add64 (x := x.toUInt64) (y := y.toUInt64) (by omega)
      refine ⟨(x.toUInt64 + y.toUInt64) :: rest, ?_, by simp [hlen], ?_, ?_⟩
      · rw [sumRow, hW.add64 (by omega), pure_bind, hrest, pure_bind]
      · rw [wideBelow_cons]
        exact ⟨by omega, hbelow⟩
      · rw [wideValue_cons, hvalue, hsum, hx64, hy64, limbsValue_cons, limbsValue_cons]
        ring

theorem feAdd_element (hW : Exact W) (x y : ZMod prime) :
    feAdd W (element x) (element y) = pure (element (x + y)) := by
  obtain ⟨r, hr, hlength, hbelow, hvalue⟩ := sumRow_value hW
    ((element_length x).trans (element_length y).symm) (element_below x) (element_below y)
  rw [feAdd, hr, pure_bind, reduce16_eq hW (hlength.trans (element_length x)) hbelow, hvalue,
    element_value, element_value, Nat.cast_add, ZMod.natCast_zmod_val, ZMod.natCast_zmod_val]

section Products

variable {x : UInt32} {zs : List UInt64} {bound : Nat}

/-- A row adds less than `2^32` to each limb of the product. -/
theorem productRow_value (hW : Exact W) (hx : x.toNat < 65536) (hy : Below 65536 ys)
    (hlength : ys.length ≤ zs.length) (hz : WideBelow bound zs) (hbound : bound + 2 ^ 32 ≤ 2 ^ 64) :
    ∃ r, productRow W x ys zs = pure r ∧ r.length = zs.length ∧
      WideBelow (bound + 2 ^ 32) r ∧ wideValue r = wideValue zs + x.toNat * limbsValue ys := by
  induction ys generalizing zs with
  | nil =>
    refine ⟨zs, by simp [productRow], rfl, hz.mono (Nat.le_add_right _ _), ?_⟩
    rw [limbsValue_nil, Nat.mul_zero, Nat.add_zero]
  | cons y ys ih =>
    cases zs with
    | nil => simp at hlength
    | cons z zs =>
      rw [below_cons] at hy
      rw [wideBelow_cons] at hz
      obtain ⟨rest, hrest, hlen, hbelow, hvalue⟩ := ih hy.2 (Nat.le_of_succ_le_succ hlength) hz.2
      have hterm : x.toNat * y.toNat ≤ 65535 * 65535 :=
        Nat.mul_le_mul (Nat.le_of_lt_succ hx) (Nat.le_of_lt_succ hy.1)
      have hmul : x.toUInt64.toNat * y.toUInt64.toNat < 2 ^ 64 := by
        rw [UInt32.toNat_toUInt64, UInt32.toNat_toUInt64]
        omega
      have hproduct := toNat_mul64 hmul
      rw [UInt32.toNat_toUInt64, UInt32.toNat_toUInt64] at hproduct
      have hsum := toNat_add64 (x := z) (y := x.toUInt64 * y.toUInt64) (by omega)
      refine ⟨(z + x.toUInt64 * y.toUInt64) :: rest, ?_, by simp [hlen], ?_, ?_⟩
      · rw [productRow, hW.mul64 hmul, pure_bind, hW.add64 (by omega), pure_bind, hrest, pure_bind]
      · rw [wideBelow_cons]
        exact ⟨by omega, hbelow⟩
      · rw [wideValue_cons, hvalue, hsum, hproduct, wideValue_cons, limbsValue_cons]
        ring

/-- All rows: the product of the values, with a bound that counts the rows. -/
theorem productRows_value (hW : Exact W) (hx : Below 65536 xs) (hy : Below 65536 ys)
    (hys : ys ≠ []) (hlength : xs.length + ys.length ≤ zs.length + 1) (hz : WideBelow bound zs)
    (hbound : bound + xs.length * 2 ^ 32 ≤ 2 ^ 64) :
    ∃ r, productRows W ys xs zs = pure r ∧ r.length = zs.length ∧
      WideBelow (bound + xs.length * 2 ^ 32) r ∧
      wideValue r = wideValue zs + limbsValue xs * limbsValue ys := by
  induction xs generalizing zs bound with
  | nil => exact ⟨zs, by rw [productRows], rfl, by simpa using hz, by simp⟩
  | cons x xs ih =>
    have hpos := List.length_pos_of_ne_nil hys
    rw [below_cons] at hx
    rw [List.length_cons] at hlength hbound
    obtain ⟨row, hrow, hlen, hbelow, hvalue⟩ :=
      productRow_value hW hx.1 hy (by omega) hz (by omega)
    cases row with
    | nil =>
      rw [List.length_nil] at hlen
      omega
    | cons z row =>
      rw [wideBelow_cons] at hbelow
      rw [List.length_cons] at hlen
      obtain ⟨rest, hrest, hlen', hbelow', hvalue'⟩ := ih hx.2 (by omega) hbelow.2 (by omega)
      refine ⟨z :: rest, ?_, by rw [List.length_cons]; omega, ?_, ?_⟩
      · rw [productRows, hrow, pure_bind, List.tail_cons, hrest, pure_bind]
        rfl
      · rw [wideBelow_cons, List.length_cons]
        exact ⟨by omega, hbelow'.mono (by omega)⟩
      · rw [wideValue_cons] at hvalue
        rw [wideValue_cons, hvalue', limbsValue_cons]
        linear_combination hvalue

/-- The limbs from the sixteenth on are folded in, since `2^256` is 38. -/
theorem foldRow_value (hW : Exact W) {xs ys : List UInt64} (hlength : ys.length ≤ xs.length)
    (hx : WideBelow (2 ^ 42) xs) (hy : WideBelow (2 ^ 42) ys) :
    ∃ r, foldRow W xs ys = pure r ∧ r.length = xs.length ∧ WideBelow (2 ^ 48) r ∧
      wideValue r = wideValue xs + 38 * wideValue ys := by
  induction xs generalizing ys with
  | nil =>
    cases ys with
    | nil => exact ⟨[], by simp [foldRow], rfl, wideBelow_nil, rfl⟩
    | cons y ys => simp at hlength
  | cons x xs ih =>
    cases ys with
    | nil => exact ⟨x :: xs, by simp [foldRow], rfl, hx.mono (by decide), by simp⟩
    | cons y ys =>
      rw [wideBelow_cons] at hx hy
      obtain ⟨rest, hrest, hlen, hbelow, hvalue⟩ := ih (Nat.le_of_succ_le_succ hlength) hx.2 hy.2
      have hthirtyEight : (38 : UInt64).toNat = 38 := rfl
      have hmul : y.toNat * (38 : UInt64).toNat < 2 ^ 64 := by
        rw [hthirtyEight]
        omega
      have hproduct := toNat_mul64 hmul
      rw [hthirtyEight] at hproduct
      have hsum := toNat_add64 (x := x) (y := y * 38) (by omega)
      refine ⟨(x + y * 38) :: rest, ?_, by simp [hlen], ?_, ?_⟩
      · rw [foldRow, hW.mul64 hmul, pure_bind, hW.add64 (by omega), pure_bind, hrest, pure_bind]
      · rw [wideBelow_cons]
        exact ⟨by omega, hbelow⟩
      · rw [wideValue_cons, hvalue, hsum, hproduct, wideValue_cons, wideValue_cons]
        ring

theorem power_cast : ((65536 ^ 16 : Nat) : ZMod prime) = 38 := by
  have hsplit : 65536 ^ 16 = 2 * prime + 38 := by decide
  rw [hsplit, Nat.cast_add, Nat.cast_mul, ZMod.natCast_self, mul_zero, zero_add]
  rfl

theorem feMul_element (hW : Exact W) (x y : ZMod prime) :
    feMul W (element x) (element y) = pure (element (x * y)) := by
  have hx := element_canonical x
  have hy := element_canonical y
  have hne : element y ≠ [] := List.ne_nil_of_length_eq_add_one hy.length
  have hzeros : WideBelow 1 (List.replicate 31 0) := by
    intro z hz
    rw [List.eq_of_mem_replicate hz]
    decide
  obtain ⟨product, hproduct, hlength, hbelow, hvalue⟩ := productRows_value hW hx.below hy.below
    hne (by rw [hx.length, hy.length]; decide) hzeros (by rw [hx.length]; decide)
  rw [hx.length] at hbelow
  rw [List.length_replicate] at hlength
  have hsmall := hbelow.mono (show _ ≤ 2 ^ 42 by decide)
  have hlow : (product.take 16).length = 16 := by simp [hlength]
  obtain ⟨reduced, hreduced, hlen, hbelow', hvalue'⟩ :=
    foldRow_value hW (show (product.drop 16).length ≤ (product.take 16).length by simp [hlength])
      (fun z hz => hsmall z (List.mem_of_mem_take hz))
      (fun z hz => hsmall z (List.mem_of_mem_drop hz))
  have hsplit := wideValue_append (product.take 16) (product.drop 16)
  rw [List.take_append_drop, hlow] at hsplit
  have hzero : wideValue (List.replicate 31 0) = 0 := by decide
  rw [hzero, Nat.zero_add, element_value, element_value] at hvalue
  rw [feMul, hproduct, pure_bind, hreduced, pure_bind, reduce16_eq hW (hlen.trans hlow) hbelow']
  congr 2
  calc (wideValue reduced : ZMod prime)
      = wideValue (product.take 16) + 38 * wideValue (product.drop 16) := by
        rw [hvalue', Nat.cast_add, Nat.cast_mul, Nat.cast_ofNat]
    _ = (wideValue product : ZMod prime) := by
        rw [hsplit, Nat.cast_add, Nat.cast_mul, power_cast]
    _ = x * y := by
        rw [hvalue, Nat.cast_mul, ZMod.natCast_zmod_val, ZMod.natCast_zmod_val]

theorem feSquare_element (hW : Exact W) (x : ZMod prime) :
    feSquare W (element x) = pure (element (x * x)) :=
  feMul_element hW x x

end Products

end LiberaCrypt.Field25519Product
