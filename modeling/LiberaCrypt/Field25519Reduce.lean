import LiberaCrypt.Field25519Subtract

namespace LiberaCrypt.Field25519Reduce

open LiberaCrypt.CheckedWords LiberaCrypt.Field25519 LiberaCrypt.Field25519Subtract
open LiberaCrypt.Field25519Values LiberaCrypt.MonadicLoop LiberaCrypt.WordArithmetic

variable {m : Type → Type} [Monad m] [LawfulMonad m] {W : Words m}

section Words

variable (x : UInt64)

theorem toNat_low16 : (x &&& 0xffff).toNat = x.toNat % 65536 := by
  rw [UInt64.toNat_and, show (0xffff : UInt64).toNat = 2 ^ 16 - 1 from rfl,
    Nat.and_two_pow_sub_one_eq_mod]

theorem toNat_low15 : (x &&& 0x7fff).toNat = x.toNat % 32768 := by
  rw [UInt64.toNat_and, show (0x7fff : UInt64).toNat = 2 ^ 15 - 1 from rfl,
    Nat.and_two_pow_sub_one_eq_mod]

theorem toNat_high16 : (x >>> 16).toNat = x.toNat / 65536 :=
  toNat_shift64 x 16 (by decide)

theorem toNat_high15 : (x >>> 15).toNat = x.toNat / 32768 :=
  toNat_shift64 x 15 (by decide)

end Words

/-- The limbs below the last are normal after the carries, and the value is the same. -/
theorem carryRow_value (hW : Exact W) {carry : UInt64} {xs : List UInt64} (hxs : xs ≠ [])
    (hbelow : WideBelow (2 ^ 48) xs) (hcarry : carry.toNat < 2 ^ 48) :
    ∃ low top, carryRow W carry xs = pure (low ++ [top]) ∧ low.length + 1 = xs.length ∧
      WideBelow 65536 low ∧ top.toNat < 2 ^ 49 ∧
      wideValue (low ++ [top]) = wideValue xs + carry.toNat := by
  induction xs generalizing carry with
  | nil => exact absurd rfl hxs
  | cons x xs ih =>
    rw [wideBelow_cons] at hbelow
    have hsum := toNat_add64 (x := x) (y := carry) (by omega)
    cases xs with
    | nil =>
      refine ⟨[], x + carry, ?_, rfl, wideBelow_nil, by omega, by simp [hsum]⟩
      rw [carryRow, hW.add64 (by omega), pure_bind, List.nil_append]
    | cons y ys =>
      have hhigh := toNat_high16 (x + carry)
      obtain ⟨low, top, hrest, hlength, hlow, htop, hvalue⟩ :=
        ih (List.cons_ne_nil y ys) hbelow.2 (hhigh.trans_lt (by omega))
      refine ⟨((x + carry) &&& 0xffff) :: low, top, ?_, by simp [← hlength], ?_, htop, ?_⟩
      · rw [carryRow, hW.add64 (by omega), pure_bind, hrest, pure_bind, List.cons_append]
      · rw [wideBelow_cons, toNat_low16]
        exact ⟨Nat.mod_lt _ (by decide), hlow⟩
      · have hdiv := Nat.mod_add_div (x + carry).toNat 65536
        rw [List.cons_append, wideValue_cons, hvalue, wideValue_cons x (y :: ys), toNat_low16,
          hhigh]
        linear_combination hdiv + hsum

theorem foldTop_value (hW : Exact W) {low : List UInt64} {top : UInt64} (hlength : low.length = 15)
    (hlow : WideBelow 65536 low) (htop : top.toNat < 2 ^ 49) :
    ∃ r, foldTop W (low ++ [top]) = pure r ∧ r.length = 16 ∧ WideBelow (2 ^ 48) r ∧
      wideValue r = wideValue (low ++ [top]) % 2 ^ 255 + 19 * (wideValue (low ++ [top]) / 2 ^ 255) ∧
      (wideValue (low ++ [top]) < 2 ^ 255 → WideBelow 65536 r) := by
  have hvalue := wideValue_append low [top]
  have hlt := wideValue_lt hlow
  obtain ⟨x, xs, rfl⟩ := List.exists_cons_of_length_eq_add_one hlength
  rw [hlength] at hvalue hlt
  rw [wideBelow_cons] at hlow
  have hxs : xs.length = 14 := Nat.succ.inj hlength
  have hhigh := toNat_high15 top
  have hmul : (top >>> 15).toNat * (19 : UInt64).toNat < 2 ^ 64 := by
    rw [hhigh, show (19 : UInt64).toNat = 19 from rfl]
    omega
  have hfold := toNat_mul64 hmul
  rw [hhigh, show (19 : UInt64).toNat = 19 from rfl] at hfold
  have hsum := toNat_add64 (x := x) (y := (top >>> 15) * 19) (by omega)
  have hget : (x :: xs ++ [top]).getD 15 0 = top := by simp [hxs]
  have hset : (x :: xs ++ [top]).set 15 (top &&& 0x7fff) = x :: xs ++ [top &&& 0x7fff] := by
    simp [hxs]
  have hresult := wideValue_append ((x + (top >>> 15) * 19) :: xs) [top &&& 0x7fff]
  rw [List.length_cons, hxs, wideValue_cons, wideValue_cons, wideValue_nil, toNat_low15, hsum,
    hfold] at hresult
  rw [wideValue_cons, wideValue_cons, wideValue_nil] at hvalue
  rw [wideValue_cons] at hlt
  refine ⟨(x + (top >>> 15) * 19) :: xs ++ [top &&& 0x7fff], ?_, by simp [hxs], ?_, ?_, ?_⟩
  · rw [foldTop, hget]
    dsimp only
    rw [hset, hW.mul64 hmul, pure_bind, List.cons_append, List.getD_cons_zero,
      hW.add64 (by omega), pure_bind, List.set_cons_zero, List.cons_append]
  · intro z hz
    have hmem : z = x + (top >>> 15) * 19 ∨ z ∈ xs ∨ z = top &&& 0x7fff := by simpa using hz
    rcases hmem with rfl | hmem | rfl
    · omega
    · exact (hlow.2 z hmem).trans (by decide)
    · exact (toNat_low15 top).trans_lt (by omega)
  · omega
  · intro hsmall z hz
    have hmem : z = x + (top >>> 15) * 19 ∨ z ∈ xs ∨ z = top &&& 0x7fff := by simpa using hz
    rcases hmem with rfl | hmem | rfl
    · omega
    · exact hlow.2 z hmem
    · exact (toNat_low15 top).trans_lt (by omega)

theorem reducePass_value (hW : Exact W) {value : List UInt64} (hlength : value.length = 16)
    (hbelow : WideBelow (2 ^ 48) value) :
    ∃ r, reducePass W value = pure r ∧ r.length = 16 ∧ WideBelow (2 ^ 48) r ∧
      wideValue r = wideValue value % 2 ^ 255 + 19 * (wideValue value / 2 ^ 255) ∧
      (wideValue value < 2 ^ 255 → WideBelow 65536 r) := by
  have hne : value ≠ [] := by
    rintro rfl
    simp at hlength
  obtain ⟨low, top, hrow, hlow, hnormal, htop, hvalue⟩ :=
    carryRow_value hW hne hbelow (show (0 : UInt64).toNat < 2 ^ 48 by decide)
  rw [UInt64.toNat_zero, Nat.add_zero] at hvalue
  rw [reducePass, hrow, pure_bind, ← hvalue]
  exact foldTop_value hW (by omega) hnormal htop

theorem fold_cast (v : Nat) :
    ((v % 2 ^ 255 + 19 * (v / 2 ^ 255) : Nat) : ZMod prime) = (v : ZMod prime) := by
  have hdiv := Nat.mod_add_div v (2 ^ 255)
  have hpow : ((2 ^ 255 : Nat) : ZMod prime) = 19 := by
    rw [show 2 ^ 255 = prime + 19 by decide, Nat.cast_add, ZMod.natCast_self, zero_add]
    rfl
  calc ((v % 2 ^ 255 + 19 * (v / 2 ^ 255) : Nat) : ZMod prime)
      = ((v % 2 ^ 255 : Nat) : ZMod prime) + 19 * ((v / 2 ^ 255 : Nat) : ZMod prime) := by
        rw [Nat.cast_add, Nat.cast_mul, Nat.cast_ofNat]
    _ = ((v % 2 ^ 255 + 2 ^ 255 * (v / 2 ^ 255) : Nat) : ZMod prime) := by
        rw [Nat.cast_add, Nat.cast_mul, hpow]
    _ = (v : ZMod prime) := by rw [hdiv]

/-- Two passes bring every value below `2^255`, the third makes its limbs normal, and the fourth
changes nothing. -/
theorem reduce16_eq (hW : Exact W) {value : List UInt64} (hlength : value.length = 16)
    (hbelow : WideBelow (2 ^ 48) value) :
    reduce16 W value = pure (element (wideValue value)) := by
  have hbound := wideValue_bound hbelow
  rw [hlength] at hbound
  obtain ⟨r1, h1, l1, b1, v1, -⟩ := reducePass_value hW hlength hbelow
  obtain ⟨r2, h2, l2, b2, v2, -⟩ := reducePass_value hW l1 b1
  obtain ⟨r3, h3, l3, b3, v3, -⟩ := reducePass_value hW l2 b2
  obtain ⟨r4, h4, l4, b4, v4, n4⟩ := reducePass_value hW l3 b3
  have hsmall : wideValue r2 < 2 ^ 255 := by omega
  have hsmall3 : wideValue r3 < 2 ^ 255 := by omega
  have hsmall4 : wideValue r4 < 2 ^ 255 := by omega
  have hnormal := n4 hsmall3
  have hloop : countUpM 4 (fun _ => reducePass W) value = pure r4 := by
    simp only [countUpM, pure_bind, h1, h2, h3, h4]
  have hnarrow : ∀ x ∈ r4, x.toNat < 2 ^ 32 := fun x hx => (hnormal x hx).trans (by decide)
  have hlimbs : (r4.map UInt64.toUInt32).map UInt32.toNat = r4.map UInt64.toNat := by
    rw [List.map_map]
    exact List.map_congr_left fun x hx => toNat_narrow (hnarrow x hx)
  have hsame : limbsValue (r4.map UInt64.toUInt32) = wideValue r4 := by
    rw [limbsValue, hlimbs, wideValue]
  have hlimbsBelow : Below 65536 (r4.map UInt64.toUInt32) := by
    intro x hx
    obtain ⟨z, hz, rfl⟩ := List.mem_map.mp hx
    exact (toNat_narrow (hnarrow z hz)).trans_lt (hnormal z hz)
  have hcast : (wideValue r4 : ZMod prime) = wideValue value := by
    rw [v4, fold_cast, v3, fold_cast, v2, fold_cast, v1, fold_cast]
  rw [reduce16, hloop, pure_bind, hW.mapM_narrow hnarrow, pure_bind,
    feConditionalSubtractP_eq hW (by rw [List.length_map, l4]) hlimbsBelow (by rwa [hsame]), hsame,
    hcast]

end LiberaCrypt.Field25519Reduce
