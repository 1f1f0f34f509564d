import LiberaCrypt.Bignum

namespace LiberaCrypt.BignumAdd

open LiberaCrypt.Outcome LiberaCrypt.Allocation LiberaCrypt.Limbs LiberaCrypt.Bignum

def cryptoBignumSub (out a b : LiberaCBignum) : Fallible LiberaCBignum :=
  if cryptoBignumCompare a b = .lt then throw .invalidArgument
  else do
    let grown ← bignumReserve out a.length
    let row := subRow a.length a.words b.words 0
    let stored := bignumNormalize ⟨storeWords grown.limbs row.1, a.length⟩
    pure { stored with limbs := bignumClearStaleTail stored.limbs out.length stored.length }

/-- `z = (x << shift) | carry` for every limb from the lowest; the last carry is returned. -/
def shiftLeftRow (shift : UInt64) : List UInt32 → UInt64 → List UInt32 × UInt64
  | [], carry => ([], carry)
  | x :: xs, carry =>
    let z := (x.toUInt64 <<< shift) ||| carry
    let rest := shiftLeftRow shift xs (z >>> 32)
    (z.toUInt32 :: rest.1, rest.2)

def bignumShiftLeftOne (a : LiberaCBignum) : Fallible LiberaCBignum :=
  if a.length = 0 then pure a
  else do
    let grown ← bignumReserve a (a.length + 1)
    let row := shiftLeftRow 1 a.words 0
    if row.2 ≠ 0 then
      pure ⟨storeWords grown.limbs (row.1 ++ [row.2.toUInt32]), a.length + 1⟩
    else pure ⟨storeWords grown.limbs row.1, a.length⟩

/-- `r = ((r << 32) | limb) % v`, from the highest limb of the first `i` down. -/
def modDown (limbs : List UInt32) (v : UInt64) : Nat → UInt64 → UInt64
  | 0, r => r
  | i + 1, r => modDown limbs v i (((r <<< 32) ||| (limbs.getD i 0).toUInt64) % v)

def bignumModU32 (a : LiberaCBignum) (v : UInt32) : UInt32 :=
  if v = 0 then 0 else (modDown a.limbs v.toUInt64 a.length 0).toUInt32

variable {a b out : LiberaCBignum} {w : List UInt32} {room : Nat}

theorem cryptoBignumSub_ensures (hout : out.Valid) (ha : a.Valid) (hb : b.Valid)
    (hle : b.value ≤ a.value) (h : 4 * a.length ≤ room) :
    Ensures room (cryptoBignumSub out a b) fun r => r.Valid ∧ r.value = a.value - b.value := by
  have hcompare : cryptoBignumCompare a b ≠ .lt := by
    rw [cryptoBignumCompare_eq ha hb]
    exact fun hlt => absurd (Nat.compare_eq_lt.mp hlt) (not_lt.mpr hle)
  unfold cryptoBignumSub
  rw [if_neg hcompare]
  apply (bignumReserve_ensures hout h).bind
  rintro grown ⟨hvalid, -, hlength, hcapacity, -⟩
  apply Ensures.pure
  have hvalue := subRow_value (a := a.words) (b := b.words) (n := a.length) (c := 0)
    ha.words_length.le (hb.words_length.le.trans (hb.length_le_of_value hle)) zero_carry
  have hborrow := subRow_borrow (a := a.words) (b := b.words) (n := a.length) (c := 0)
    zero_carry
  have hlt := wordsValue_lt (subRow a.length a.words b.words 0).1
  have hrowlen : (subRow a.length a.words b.words 0).1.length = a.length := subRow_length
  rw [hrowlen] at hlt
  change _ + (b.value + 0) = a.value + _ at hvalue
  -- the difference is not negative, so no borrow is left
  have hzero : (subRow a.length a.words b.words 0).2.toNat = 0 := by
    by_contra hne
    have hone : (subRow a.length a.words b.words 0).2.toNat = 1 := by omega
    rw [hone] at hvalue
    omega
  rw [hzero, Nat.mul_zero] at hvalue
  have hstored := overwritten_normalized hvalid (hrowlen.trans_le hcapacity)
  rw [hrowlen, hlength] at hstored
  refine ⟨hstored.1, hstored.2.trans ?_⟩
  omega

theorem clearStaleTail_length {limbs : List UInt32} {old new : Nat} (h : old ≤ limbs.length) :
    (bignumClearStaleTail limbs old new).length = limbs.length := by
  unfold bignumClearStaleTail
  split_ifs with hlt
  · simp only [List.length_append, List.length_take, List.length_replicate, List.length_drop]
    omega
  · rfl

theorem cryptoBignumSub_capacity (hout : out.Valid) (hcompare : cryptoBignumCompare a b ≠ .lt)
    (h : 4 * a.length ≤ room) :
    Ensures room (cryptoBignumSub out a b) fun r => a.length ≤ r.capacity := by
  unfold cryptoBignumSub
  rw [if_neg hcompare]
  apply (bignumReserve_ensures hout h).bind
  rintro grown ⟨hvalid, -, hlength, hcapacity, hmore⟩
  apply Ensures.pure
  have hrowlen : (subRow a.length a.words b.words 0).1.length = a.length := subRow_length
  have hstored : (storeWords grown.limbs (subRow a.length a.words b.words 0).1).length =
      grown.capacity := by
    rw [storeWords, List.length_append, List.length_drop, hrowlen]
    exact Nat.add_sub_cancel' hcapacity
  have hcleared := @clearStaleTail_length _ _ (bignumNormalize
    ⟨storeWords grown.limbs (subRow a.length a.words b.words 0).1, a.length⟩).length
    ((hout.fits.trans hmore).trans hstored.ge)
  exact hcapacity.trans (hcleared.trans hstored).ge

theorem shiftLeft_toNat {x : UInt32} {s : Nat} {c : UInt64} (hshift : s < 32)
    (hcarry : c.toNat < 2 ^ s) :
    ((x.toUInt64 <<< UInt64.ofNat s) ||| c).toNat = x.toNat * 2 ^ s + c.toNat := by
  have hx := x.toNat_lt
  have hpow : 2 ^ s ≤ 2 ^ 31 := Nat.pow_le_pow_right Nat.two_pos (Nat.le_of_lt_succ hshift)
  have hle : x.toNat * 2 ^ s ≤ 2 ^ 32 * 2 ^ 31 := Nat.mul_le_mul hx.le hpow
  have hof : (UInt64.ofNat s).toNat = s := by
    rw [UInt64.toNat_ofNat']
    omega
  rw [UInt64.toNat_or, UInt64.toNat_shiftLeft, hof, Nat.mod_eq_of_lt (by omega : s < 64),
    UInt32.toNat_toUInt64, Nat.shiftLeft_eq, Nat.mod_eq_of_lt (by omega), ← Nat.shiftLeft_eq,
    ← Nat.shiftLeft_add_eq_or_of_lt hcarry, Nat.shiftLeft_eq]

theorem shiftLeftRow_length {s : UInt64} {c : UInt64} :
    (shiftLeftRow s w c).1.length = w.length := by
  induction w generalizing c with
  | nil => rfl
  | cons x xs ih => simp [shiftLeftRow, ih]

theorem shiftLeftRow_carry {s : Nat} {c : UInt64} (hshift : s < 32)
    (hcarry : c.toNat < 2 ^ s) :
    (shiftLeftRow (UInt64.ofNat s) w c).2.toNat < 2 ^ s := by
  induction w generalizing c with
  | nil => exact hcarry
  | cons x xs ih =>
    apply ih
    have hx := word_lt x
    have hmul : (x.toNat + 1) * 2 ^ s ≤ wordBase * 2 ^ s := Nat.mul_le_mul_right _ hx
    rw [high_toNat, shiftLeft_toNat hshift hcarry]
    apply Nat.div_lt_of_lt_mul
    rw [Nat.succ_mul] at hmul
    omega

theorem shiftLeftRow_value {s : Nat} {c : UInt64} (hshift : s < 32)
    (hcarry : c.toNat < 2 ^ s) :
    wordsValue (shiftLeftRow (UInt64.ofNat s) w c).1 +
        wordBase ^ w.length * (shiftLeftRow (UInt64.ofNat s) w c).2.toNat =
      wordsValue w * 2 ^ s + c.toNat := by
  induction w generalizing c with
  | nil => simp [shiftLeftRow]
  | cons x xs ih =>
    have hnext := shiftLeftRow_carry (w := [x]) hshift hcarry
    have hrest := ih hnext
    have hz := split_word ((x.toUInt64 <<< UInt64.ofNat s) ||| c)
    rw [shiftLeft_toNat hshift hcarry] at hz
    simp only [shiftLeftRow] at hrest
    simp only [shiftLeftRow, wordsValue_cons, List.length_cons]
    linear_combination hz + wordBase * hrest

/-- A row of limbs stored over a bignum that is not longer, with a limb for the carry that is left. -/
def storeCarry (limbs : List UInt32) (row : List UInt32 × UInt64) : LiberaCBignum :=
  if row.2 ≠ 0 then ⟨storeWords limbs (row.1 ++ [row.2.toUInt32]), row.1.length + 1⟩
  else ⟨storeWords limbs row.1, row.1.length⟩

theorem storeWords_zeros {limbs : List UInt32}
    (hzeros : ∀ i, w.length ≤ i → limbs.getD i 0 = 0) :
    storeWords limbs w = w ++ List.replicate (limbs.length - w.length) 0 := by
  rw [storeWords]
  congr 1
  refine List.eq_replicate_iff.mpr ⟨List.length_drop, fun x hx => ?_⟩
  obtain ⟨i, hi, rfl⟩ := List.mem_iff_getElem.mp hx
  have hzero := hzeros (w.length + i) (Nat.le_add_right _ _)
  rw [← getD_drop, List.getD_eq_getElem _ _ hi] at hzero
  exact hzero

theorem storeCarry_spec {limbs : List UInt32} {row : List UInt32 × UInt64}
    (hzeros : ∀ i, row.1.length ≤ i → limbs.getD i 0 = 0)
    (hcarry : row.2.toNat < wordBase)
    (htop : row.2 = 0 → row.1.length ≠ 0 → row.1.getD (row.1.length - 1) 0 ≠ 0) :
    (storeCarry limbs row).Valid ∧ (storeCarry limbs row).value =
      wordsValue row.1 + wordBase ^ row.1.length * row.2.toNat := by
  unfold storeCarry
  by_cases hc : row.2 = 0
  · rw [if_neg (not_not.mpr hc), storeWords_zeros hzeros, hc,
      UInt64.toNat_zero, Nat.mul_zero, Nat.add_zero]
    exact ⟨padded_valid _ (htop hc), padded_value _⟩
  · have hword : row.2.toUInt32.toNat = row.2.toNat := by
      rw [toUInt32_toNat, Nat.mod_eq_of_lt hcarry]
    have hlen : (row.1 ++ [row.2.toUInt32]).length = row.1.length + 1 := by simp
    have hstored := storeWords_zeros (w := row.1 ++ [row.2.toUInt32])
      fun i hi => hzeros i (by omega)
    rw [if_pos hc, hstored, ← hlen]
    refine ⟨padded_valid _ fun _ => ?_, (padded_value _).trans ?_⟩
    · rw [hlen, Nat.add_sub_cancel, List.getD_append_right _ _ _ _ (le_refl _), Nat.sub_self]
      intro hzero
      have hne : row.2.toNat ≠ 0 := fun h0 => hc (UInt64.toNat_inj.mp h0)
      exact hne (hword.symm.trans (congrArg UInt32.toNat hzero))
    · rw [wordsValue_append, wordsValue_singleton, hword]

theorem bignumShiftLeftOne_ensures (ha : a.Valid) (h : 4 * (a.length + 1) ≤ room) :
    Ensures room (bignumShiftLeftOne a) fun r => r.Valid ∧ r.value = 2 * a.value := by
  unfold bignumShiftLeftOne
  by_cases hz : a.length = 0
  · rw [if_pos hz]
    exact Ensures.pure ⟨ha, by rw [ha.length_eq_zero.mp hz]⟩
  rw [if_neg hz]
  apply (bignumReserve_ensures ha h).bind
  rintro grown ⟨hvalid, hgrown, hlength, hcapacity, -⟩
  have hcarry := shiftLeftRow_carry (w := a.words) (s := 1) (c := 0) (by decide)
    (by decide)
  have hvalue := shiftLeftRow_value (w := a.words) (s := 1) (c := 0) (by decide)
    (by decide)
  have hrowlen : (shiftLeftRow 1 a.words 0).1.length = a.length :=
    shiftLeftRow_length.trans ha.words_length
  change (shiftLeftRow 1 a.words 0).2.toNat < 2 at hcarry
  change wordsValue (shiftLeftRow 1 a.words 0).1 +
    wordBase ^ _ * (shiftLeftRow 1 a.words 0).2.toNat = a.value * 2 + 0 at hvalue
  rw [ha.words_length] at hvalue
  generalize shiftLeftRow 1 a.words 0 = row at *
  have hge := ha.le_value hz
  have hbase : 2 ≤ wordBase := by decide
  have hstored := storeCarry_spec (fun i hi => hvalid.zeros i (by omega))
    (hcarry.trans_le hbase) fun hc => top_ne_zero (by
      rw [hc] at hvalue
      simp only [UInt64.toNat_zero, Nat.mul_zero, Nat.add_zero] at hvalue
      rw [hrowlen]
      omega)
  rw [hrowlen, hvalue, storeCarry, hrowlen] at hstored
  have hresult : ∀ r : LiberaCBignum, r.Valid ∧ r.value = a.value * 2 + 0 →
      r.Valid ∧ r.value = 2 * a.value := fun r hr => ⟨hr.1, hr.2.trans (by ring)⟩
  dsimp only
  split_ifs at hstored ⊢
  · exact Ensures.pure (hresult _ hstored)
  · exact Ensures.pure (hresult _ hstored)

theorem modDown_toNat {l : List UInt32} {v : UInt32} {n : Nat} {r : UInt64}
    (hr : r.toNat < v.toNat) :
    (modDown l v.toUInt64 n r).toNat =
      (wordBase ^ n * r.toNat + wordsValue (l.take n)) % v.toNat := by
  have hlt := word_lt v
  induction n generalizing r with
  | zero =>
    rw [modDown, pow_zero, Nat.one_mul, List.take_zero, wordsValue_nil, Nat.add_zero,
      Nat.mod_eq_of_lt hr]
  | succ n ih =>
    have hjoin := join_toNat (hr.trans hlt) (l.getD n 0)
    have hnext : (((r <<< 32) ||| (l.getD n 0).toUInt64) % v.toUInt64).toNat =
        (wordBase * r.toNat + (l.getD n 0).toNat) % v.toNat := by
      rw [UInt64.toNat_mod, hjoin, UInt32.toNat_toUInt64]
    have hpos : 0 < v.toNat := Nat.zero_lt_of_lt hr
    rw [modDown, ih (by rw [hnext]; exact Nat.mod_lt _ hpos), hnext, wordsValue_take_succ]
    rw [Nat.add_mod, Nat.mul_mod, Nat.mod_mod, ← Nat.mul_mod, ← Nat.add_mod]
    congr 1
    ring

theorem bignumModU32_toNat (ha : a.Valid) {v : UInt32} (hv : v ≠ 0) :
    (bignumModU32 a v).toNat = a.value % v.toNat := by
  have hpos : 0 < v.toNat := Nat.pos_of_ne_zero fun h => hv (UInt32.toNat_inj.mp h)
  have hmod := modDown_toNat (l := a.limbs) (n := a.length) (r := 0) hpos
  rw [UInt64.toNat_zero, Nat.mul_zero, Nat.zero_add, ha.value_take (le_refl _)] at hmod
  have hlt := Nat.mod_lt a.value hpos
  rw [bignumModU32, if_neg hv, toUInt32_toNat, hmod, Nat.mod_eq_of_lt (hlt.trans (word_lt v))]

end LiberaCrypt.BignumAdd
