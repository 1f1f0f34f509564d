import LiberaCrypt.Field25519Values

namespace LiberaCrypt.Field25519Subtract

open LiberaCrypt.CheckedWords LiberaCrypt.Field25519 LiberaCrypt.Field25519Values
open LiberaCrypt.WordArithmetic

variable {m : Type → Type} [Monad m] [LawfulMonad m] {W : Words m}

theorem toNat_radixMask (x : UInt32) : (x &&& radixMask).toNat = x.toNat % 65536 :=
  toNat_mask32 x radixMask (k := 16) rfl

section Borrow

variable {x y borrow : UInt32} {xs ys : List UInt32}

theorem borrow_signed (x y : UInt32) (hborrow : borrow.toNat ≤ 1) :
    Signed x.toUInt64 y.toUInt64 borrow.toUInt64 := by
  have hx := x.toNat_lt
  have hy := y.toNat_lt
  simp only [Signed, UInt32.toNat_toUInt64]
  omega

theorem borrow_step (x y : UInt32) (hborrow : borrow.toNat ≤ 1) :
    let d := x.toUInt64 - y.toUInt64 - borrow.toUInt64
    (d >>> 63).toUInt32.toNat ≤ 1 ∧
      d.toUInt32.toNat + y.toNat + borrow.toNat =
        x.toNat + 2 ^ 32 * (d >>> 63).toUInt32.toNat := by
  intro d
  have hx := x.toNat_lt
  have hy := y.toNat_lt
  have hd : d.toNat = (2 ^ 64 - borrow.toNat + (2 ^ 64 - y.toNat + x.toNat) % 2 ^ 64) % 2 ^ 64 := by
    simp only [d, UInt64.toNat_sub, UInt32.toNat_toUInt64]
  have hlow : d.toUInt32.toNat = d.toNat % 2 ^ 32 := UInt64.toNat_toUInt32 d
  have hhigh : (d >>> 63).toUInt32.toNat = d.toNat / 2 ^ 63 % 2 ^ 32 := by
    rw [UInt64.toNat_toUInt32, show (63 : UInt64) = UInt64.ofNat 63 from rfl,
      toNat_shift64 d 63 (by decide)]
  omega

theorem borrow_limb (hx : x.toNat < 65536) (hy : y.toNat < 65536) (hborrow : borrow.toNat ≤ 1) :
    let d := x.toUInt64 - y.toUInt64 - borrow.toUInt64
    (d.toUInt32 &&& radixMask).toNat + y.toNat + borrow.toNat =
      x.toNat + 65536 * (d >>> 63).toUInt32.toNat := by
  intro d
  obtain ⟨hbit, hstep⟩ : (d >>> 63).toUInt32.toNat ≤ 1 ∧ d.toUInt32.toNat + y.toNat +
    borrow.toNat = x.toNat + 2 ^ 32 * (d >>> 63).toUInt32.toNat := borrow_step x y hborrow
  have hlt := d.toUInt32.toNat_lt
  rw [toNat_radixMask]
  omega

/-- The differences and the borrow are those of the values. No difference of three words leaves
the range of a signed one, so its top bit is its sign. -/
theorem borrowRow_value (hW : Exact W) (hlength : xs.length = ys.length) (hx : Below 65536 xs)
    (hy : Below 65536 ys) (hborrow : borrow.toNat ≤ 1) :
    ∃ r : List UInt32 × UInt32, borrowRow W borrow xs ys = pure r ∧ r.1.length = xs.length ∧
      Below 65536 r.1 ∧ r.2.toNat ≤ 1 ∧ limbsValue r.1 + limbsValue ys + borrow.toNat =
        limbsValue xs + 65536 ^ xs.length * r.2.toNat := by
  induction xs generalizing ys borrow with
  | nil =>
    cases ys with
    | nil => exact ⟨([], borrow), by simp [borrowRow], rfl, below_nil, hborrow, by simp⟩
    | cons y ys => simp at hlength
  | cons x xs ih =>
    cases ys with
    | nil => simp at hlength
    | cons y ys =>
      rw [below_cons] at hx hy
      have hbit := (borrow_step x y hborrow).1
      have hstep := borrow_limb hx.1 hy.1 hborrow
      obtain ⟨rest, hrest, hlen, hbelow, hlast, hvalue⟩ :=
        ih (Nat.succ.inj hlength) hx.2 hy.2 hbit
      refine ⟨((((x.toUInt64 - y.toUInt64 - borrow.toUInt64).toUInt32 &&& radixMask) :: rest.1),
        rest.2), ?_, ?_, ?_, hlast, ?_⟩
      · rw [borrowRow, hW.sub64 (borrow_signed x y hborrow), pure_bind, hrest, pure_bind]
      · simp [hlen]
      · rw [below_cons, toNat_radixMask]
        exact ⟨Nat.mod_lt _ (by decide), hbelow⟩
      · rw [limbsValue_cons, limbsValue_cons, limbsValue_cons, List.length_cons, pow_succ]
        linear_combination 65536 * hvalue + hstep

end Borrow

theorem zero_le_one : (0 : UInt32).toNat ≤ 1 := by decide

section Select

variable {b : UInt32} {xs ys : List UInt32}

theorem selectRow_zeros (hlength : xs.length = ys.length) : selectRow 0 xs ys = xs := by
  induction xs generalizing ys with
  | nil => rfl
  | cons x xs ih =>
    cases ys with
    | nil => simp at hlength
    | cons y ys =>
      have hrest := ih (Nat.succ.inj hlength)
      simp only [selectRow, List.zipWith_cons_cons] at hrest ⊢
      rw [hrest]
      simp

theorem selectRow_ones (hlength : xs.length = ys.length) : selectRow (-1) xs ys = ys := by
  induction xs generalizing ys with
  | nil =>
    cases ys with
    | nil => rfl
    | cons y ys => simp at hlength
  | cons x xs ih =>
    cases ys with
    | nil => simp at hlength
    | cons y ys =>
      have hrest := ih (Nat.succ.inj hlength)
      simp only [selectRow, List.zipWith_cons_cons] at hrest ⊢
      rw [hrest]
      simp

theorem bit_cases (h : b.toNat ≤ 1) : b = 0 ∨ b = 1 := by
  rcases Nat.le_one_iff_eq_zero_or_eq_one.mp h with h0 | h1
  · exact Or.inl (UInt32.toNat_inj.mp h0)
  · exact Or.inr (UInt32.toNat_inj.mp h1)

end Select

variable {a : FieldElement}

theorem feConditionalSubtractP_value (hW : Exact W) (hlength : a.length = 16)
    (ha : Below 65536 a) :
    ∃ r, feConditionalSubtractP W a = pure r ∧ r.length = 16 ∧ Below 65536 r ∧
      limbsValue r = if limbsValue a < prime then limbsValue a else limbsValue a - prime := by
  have hprime : a.length = primeLimbs.length := hlength
  obtain ⟨difference, hrow, hlen, hbelow, hlast, hvalue⟩ :=
    borrowRow_value hW hprime ha primeLimbs_below zero_le_one
  have hlt := limbsValue_lt hbelow
  rw [primeLimbs_value, hlength, UInt32.toNat_zero] at hvalue
  rw [hlen, hlength] at hlt
  rw [feConditionalSubtractP, hrow, pure_bind]
  refine ⟨_, rfl, ?_⟩
  rcases bit_cases hlast with h0 | h1
  · rw [h0, UInt32.toNat_zero] at hvalue
    rw [h0, show (0 : UInt32) - (0 ^^^ 1) = -1 from rfl, selectRow_ones hlen.symm,
      if_neg (by omega)]
    exact ⟨hlen.trans hlength, hbelow, by omega⟩
  · have hborrowed : limbsValue a < prime := by
      rw [h1, UInt32.toNat_one] at hvalue
      unfold prime at *
      omega
    rw [h1, show (0 : UInt32) - (1 ^^^ 1) = 0 from rfl, selectRow_zeros hlen.symm,
      if_pos hborrowed]
    exact ⟨hlength, ha, rfl⟩

theorem feConditionalSubtractP_eq (hW : Exact W) (hlength : a.length = 16)
    (ha : Below 65536 a) (hlt : limbsValue a < 2 ^ 255) :
    feConditionalSubtractP W a = pure (element (limbsValue a)) := by
  obtain ⟨r, hr, hlen, hbelow, hvalue⟩ := feConditionalSubtractP_value hW hlength ha
  have hmod : limbsValue r = limbsValue a % prime := by
    rw [hvalue]
    split
    case isTrue h => exact (Nat.mod_eq_of_lt h).symm
    case isFalse h =>
      unfold prime at *
      omega
  have hcanonical : Canonical r := ⟨hlen, hbelow, hmod.trans_lt (Nat.mod_lt _ (by decide))⟩
  rw [hr, hcanonical.eq_element (by rw [hmod, ZMod.natCast_mod])]

theorem feConditionalSubtractP_element (hW : Exact W) (x : ZMod prime) :
    feConditionalSubtractP W (element x) = pure (element x) := by
  have hlt : x.val < 2 ^ 255 := (ZMod.val_lt x).trans (by decide)
  rw [feConditionalSubtractP_eq hW (element_length x) (element_below x)
    (by rwa [element_value]), element_value, ZMod.natCast_zmod_val]

section Subtraction

variable {mask carry : UInt32} {xs ys : List UInt32}

theorem addMaskedRow_value (hW : Exact W) (hmask : mask = 0 ∨ mask = -1)
    (hlength : xs.length = ys.length) (hx : Below 65536 xs) (hy : Below 65536 ys)
    (hcarry : carry.toNat ≤ 1) :
    ∃ r, addMaskedRow W mask carry xs ys = pure r ∧ r.length = xs.length ∧ Below 65536 r ∧
      ∃ out, limbsValue r + 65536 ^ xs.length * out =
        limbsValue xs + (if mask = 0 then 0 else limbsValue ys) + carry.toNat := by
  induction xs generalizing ys carry with
  | nil =>
    cases ys with
    | nil => exact ⟨[], by simp [addMaskedRow], rfl, below_nil, carry.toNat, by simp⟩
    | cons y ys => simp at hlength
  | cons x xs ih =>
    cases ys with
    | nil => simp at hlength
    | cons y ys =>
      rw [below_cons] at hx hy
      have hmasked : (y &&& mask).toNat = if mask = 0 then 0 else y.toNat := by
        rcases hmask with rfl | rfl <;> simp
      have hle : (y &&& mask).toNat < 65536 := by
        rw [hmasked]
        split_ifs <;> omega
      have hpartial := toNat_add32 (a := x) (b := y &&& mask) (by omega)
      have hsum := toNat_add32 (a := x + (y &&& mask)) (b := carry) (by omega)
      have hhigh : ((x + (y &&& mask) + carry) >>> 16).toNat =
          (x + (y &&& mask) + carry).toNat / 2 ^ 16 := toNat_shift32 _ 16 (by decide)
      obtain ⟨rest, hrest, hlen, hbelow, out, hvalue⟩ := ih (Nat.succ.inj hlength) hx.2 hy.2
        (hhigh.trans_le (by omega))
      refine ⟨((x + (y &&& mask) + carry) &&& radixMask) :: rest, ?_, by simp [hlen], ?_, out, ?_⟩
      · rw [addMaskedRow, hW.add32 (by omega), pure_bind, hW.add32 (by omega), pure_bind, hrest,
          pure_bind]
      · rw [below_cons, toNat_radixMask]
        exact ⟨Nat.mod_lt _ (by decide), hbelow⟩
      · have hdiv := Nat.mod_add_div (x + (y &&& mask) + carry).toNat 65536
        rw [hhigh] at hvalue
        rw [limbsValue_cons, limbsValue_cons, limbsValue_cons, toNat_radixMask, List.length_cons,
          pow_succ]
        split_ifs at hmasked hvalue ⊢ <;>
          linear_combination 65536 * hvalue + hdiv + hsum + hpartial + hmasked

theorem feSub_element (hW : Exact W) (x y : ZMod prime) :
    feSub W (element x) (element y) = pure (element (x - y)) := by
  have hx := element_canonical x
  have hy := element_canonical y
  obtain ⟨difference, hrow, hlen, hbelow, hlast, hvalue⟩ := borrowRow_value hW
    (hx.length.trans hy.length.symm) hx.below hy.below zero_le_one
  have hwidth : difference.1.length = primeLimbs.length := hlen.trans hx.length
  have hmask : (0 : UInt32) - difference.2 = 0 ∨ (0 : UInt32) - difference.2 = -1 := by
    rcases bit_cases hlast with h | h <;> simp [h]
  obtain ⟨r, hr, hlength, hr16, out, hsum⟩ := addMaskedRow_value hW hmask
    hwidth hbelow primeLimbs_below zero_le_one
  have hdifference := limbsValue_lt hbelow
  have hlt := limbsValue_lt hr16
  rw [hlength, hlen, hx.length] at hlt
  rw [hlen, hx.length] at hdifference
  rw [hx.length, element_value, element_value, UInt32.toNat_zero] at hvalue
  rw [hlen, hx.length, primeLimbs_value, UInt32.toNat_zero] at hsum
  have hxlt := ZMod.val_lt x
  have hylt := ZMod.val_lt y
  -- without a borrow nothing is added, with one the prime
  have hfinal : limbsValue r < prime ∧
      (limbsValue r + y.val = x.val ∨ limbsValue r + y.val = x.val + prime) := by
    rcases bit_cases hlast with h | h
    · rw [h] at hvalue hsum
      rw [if_pos (by decide)] at hsum
      rw [UInt32.toNat_zero] at hvalue
      unfold prime at *
      omega
    · rw [h] at hvalue hsum
      rw [if_neg (by decide)] at hsum
      rw [UInt32.toNat_one] at hvalue
      unfold prime at *
      omega
  have hcanonical : Canonical r := ⟨hlength.trans (hlen.trans hx.length), hr16, hfinal.1⟩
  rw [feSub, hrow, pure_bind, hr, hcanonical.eq_element]
  have hcast : (limbsValue r : ZMod prime) + y = x := by
    have hsame : ((limbsValue r + y.val : Nat) : ZMod prime) = (x.val : ZMod prime) := by
      rcases hfinal.2 with h | h <;> rw [h]
      rw [Nat.cast_add, ZMod.natCast_self, add_zero]
    rwa [Nat.cast_add, ZMod.natCast_zmod_val, ZMod.natCast_zmod_val] at hsame
  exact eq_sub_of_add_eq hcast

theorem feNegate_element (hW : Exact W) (x : ZMod prime) :
    feNegate W (element x) = pure (element (-x)) := by
  rw [feNegate, feZero_eq, feSub_element hW, zero_sub]

end Subtraction

end LiberaCrypt.Field25519Subtract
