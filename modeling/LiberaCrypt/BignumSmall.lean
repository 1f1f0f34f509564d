import LiberaCrypt.BignumAdd
import LiberaCrypt.BignumMul

namespace LiberaCrypt.BignumSmall

open LiberaCrypt.Outcome LiberaCrypt.Allocation LiberaCrypt.Limbs LiberaCrypt.Bignum
open LiberaCrypt.BignumAdd LiberaCrypt.BignumMul

def bignumAddU32 (a : LiberaCBignum) (v : UInt32) : Fallible LiberaCBignum :=
  if v = 0 then pure a
  else if a.length = 0 then do
    let grown ← bignumReserve a 1
    pure ⟨storeWords grown.limbs [v], 1⟩
  else
    let row := carryUp a.words v.toUInt64
    if row.2 ≠ 0 then do
      let grown ← bignumReserve ⟨storeWords a.limbs row.1, a.length⟩ (a.length + 1)
      pure ⟨storeWords grown.limbs (row.1 ++ [row.2.toUInt32]), a.length + 1⟩
    else pure ⟨storeWords a.limbs row.1, a.length⟩

def bignumSubU32 (out a : LiberaCBignum) (v : UInt32) : Fallible LiberaCBignum := do
  let b ← cryptoBignumSetU64 cryptoBignumInit v.toUInt64
  cryptoBignumSub out a b

def bignumMulU32 (a : LiberaCBignum) (v : UInt32) : Fallible LiberaCBignum :=
  if v = 0 ∨ a.length = 0 then pure cryptoBignumInit
  else do
    let t ← bignumReserve cryptoBignumInit (a.length + 1)
    pure (storeCarry t.limbs (mulAddRow a.length a.words v [] 0))

/-- `cur = (rem << 32) | limb; t = cur / v; rem = cur % v` from the highest limb down. -/
def divDown (v : UInt64) : List UInt32 → List UInt32 × UInt64
  | [] => ([], 0)
  | x :: xs =>
    let upper := divDown v xs
    let cur := (upper.2 <<< 32) ||| x.toUInt64
    ((cur / v).toUInt32 :: upper.1, cur % v)

def bignumDivU32 (a : LiberaCBignum) (v : UInt32) : Fallible (LiberaCBignum × UInt32) :=
  if v = 0 then throw .invalidArgument
  else do
    let t ← bignumReserve cryptoBignumInit a.length
    let row := divDown v.toUInt64 a.words
    pure (bignumNormalize ⟨storeWords t.limbs row.1, a.length⟩, row.2.toUInt32)

def bignumAddU32Copy (out a : LiberaCBignum) (v : UInt32) : Fallible LiberaCBignum := do
  let copied ← cryptoBignumCopy out a
  bignumAddU32 copied v

variable {a b out : LiberaCBignum} {w : List UInt32} {room : Nat}

theorem carryUp_word {c : UInt64} (hc : c.toNat < wordBase) (hw : w.length ≠ 0) :
    wordsValue (carryUp w c).1 + wordBase ^ w.length * (carryUp w c).2.toNat =
        wordsValue w + c.toNat ∧ (carryUp w c).2.toNat < wordBase := by
  have hbase : 1 < wordBase := by decide
  cases w with
  | nil => exact absurd rfl hw
  | cons x xs =>
    unfold carryUp
    by_cases h : c = 0
    · rw [if_pos h, h]
      exact ⟨by simp, (by decide : 0 < wordBase)⟩
    have hsum : (x.toUInt64 + c).toNat = x.toNat + c.toNat := by
      have hx := word_lt x
      simp only [wordBase] at hx hc
      rw [UInt64.toNat_add, UInt32.toNat_toUInt64]
      omega
    have hhigh : ((x.toUInt64 + c) >>> 32).toNat ≤ 1 := by
      have hx := word_lt x
      rw [high_toNat, hsum]
      apply Nat.le_of_lt_succ
      apply Nat.div_lt_of_lt_mul
      omega
    have hrest := carryUp_value (x := xs) hhigh
    have hsplit := split_word (x.toUInt64 + c)
    rw [hsum] at hsplit
    rw [if_neg h]
    constructor
    · simp only [wordsValue_cons, List.length_cons, pow_succ]
      linear_combination hsplit + wordBase * hrest
    · have hlt := wordsValue_lt xs
      have hle : (carryUp xs ((x.toUInt64 + c) >>> 32)).2.toNat ≤ 1 := by
        by_contra hgt
        have hmul : wordBase ^ xs.length * 2 ≤
            wordBase ^ xs.length * (carryUp xs ((x.toUInt64 + c) >>> 32)).2.toNat :=
          Nat.mul_le_mul_left _ (by omega)
        omega
      exact hle.trans_lt hbase

theorem bignumReserve_appends {n : Nat} (h : 4 * n ≤ room) :
    Ensures room (bignumReserve a n) fun grown =>
      n ≤ grown.capacity ∧ ∃ k, grown.limbs = a.limbs ++ List.replicate k 0 := by
  unfold bignumReserve
  by_cases hle : n ≤ a.capacity
  · rw [if_pos hle]
    exact Ensures.pure ⟨hle, 0, by simp⟩
  rw [if_neg hle]
  apply Ensures.guard
  · intro hroom
    omega
  intro _
  apply (Ensures.allocate h).bind
  intro _ _
  apply Ensures.pure
  refine ⟨?_, _, rfl⟩
  simp only [LiberaCBignum.capacity, List.length_append, List.length_replicate] at hle ⊢
  omega

theorem bignumAddU32_ensures (ha : a.Valid) (v : UInt32) (h : 4 * (a.length + 1) ≤ room) :
    Ensures room (bignumAddU32 a v) fun r => r.Valid ∧ r.value = a.value + v.toNat := by
  unfold bignumAddU32
  by_cases hv : v = 0
  · rw [if_pos hv, hv]
    exact Ensures.pure ⟨ha, rfl⟩
  rw [if_neg hv]
  by_cases hz : a.length = 0
  · rw [if_pos hz]
    apply (bignumReserve_ensures ha (show 4 * 1 ≤ room by omega)).bind
    rintro grown ⟨hvalid, -, hlength, hcapacity, -⟩
    have hstored := storeWords_covering hvalid (w := [v]) (by omega) hcapacity
    apply Ensures.pure
    rw [hstored, ha.length_eq_zero.mp hz, Nat.zero_add]
    exact ⟨padded_valid (w := [v]) _ fun _ => hv, (padded_value _).trans (wordsValue_singleton v)⟩
  rw [if_neg hz]
  have hwords := ha.words_length
  have hcarry : v.toUInt64.toNat < wordBase := by
    rw [UInt32.toNat_toUInt64]
    exact word_lt v
  obtain ⟨hvalue, hlt⟩ := carryUp_word hcarry (by rw [hwords]; exact hz)
  have hrowlen := (carryUp_length (x := a.words) v.toUInt64).trans hwords
  rw [hwords, UInt32.toNat_toUInt64] at hvalue
  change _ = a.value + v.toNat at hvalue
  have hge := ha.le_value hz
  have htop : (carryUp a.words v.toUInt64).2 = 0 → (carryUp a.words v.toUInt64).1.length ≠ 0 →
      (carryUp a.words v.toUInt64).1.getD ((carryUp a.words v.toUInt64).1.length - 1) 0 ≠ 0 := by
    intro hc
    apply top_ne_zero
    rw [hc, UInt64.toNat_zero, Nat.mul_zero, Nat.add_zero] at hvalue
    rw [hrowlen]
    omega
  generalize carryUp a.words v.toUInt64 = row at *
  dsimp only
  have hstored := storeWords_zeros (w := row.1) (fun i hi => ha.zeros i (by omega))
  by_cases hc : row.2 = 0
  · have hspec := @storeCarry_spec _ row (fun i hi => ha.zeros i (by omega)) hlt htop
    rw [storeCarry, if_neg (not_not.mpr hc), hrowlen, hvalue] at hspec
    rw [if_neg (not_not.mpr hc)]
    exact Ensures.pure hspec
  · rw [if_pos hc]
    apply (bignumReserve_appends (show 4 * (a.length + 1) ≤ room by omega)).bind
    rintro grown ⟨hcapacity, k, hgrown⟩
    have hzeros : ∀ i, row.1.length ≤ i → grown.limbs.getD i 0 = 0 := by
      intro i hi
      rw [hgrown, hstored, List.append_assoc, List.replicate_append_replicate]
      exact padded_zeros i hi _
    have hspec := storeCarry_spec hzeros hlt htop
    rw [storeCarry, if_pos hc, hrowlen, hvalue] at hspec
    exact Ensures.pure hspec

theorem bignumSubU32_ensures (hout : out.Valid) (ha : a.Valid) (v : UInt32)
    (hle : v.toNat ≤ a.value) (h : 4 * (a.length + 2) ≤ room) :
    Ensures room (bignumSubU32 out a v) fun r => r.Valid ∧ r.value = a.value - v.toNat := by
  apply (cryptoBignumSetU64_ensures init_valid v.toUInt64 (by omega)).bind
  rintro b ⟨hb, hvalue⟩
  rw [UInt32.toNat_toUInt64] at hvalue
  have hsub := cryptoBignumSub_ensures hout ha hb (by omega) (show 4 * a.length ≤ room by omega)
  rwa [hvalue] at hsub

theorem bignumSubU32_capacity (hout : out.Valid) (ha : a.Valid) (v : UInt32)
    (hle : v.toNat ≤ a.value) (h : 4 * (a.length + 2) ≤ room) :
    Ensures room (bignumSubU32 out a v) fun r => a.length ≤ r.capacity := by
  apply (cryptoBignumSetU64_ensures init_valid v.toUInt64 (by omega)).bind
  rintro b ⟨hb, hvalue⟩
  rw [UInt32.toNat_toUInt64] at hvalue
  have hcompare : cryptoBignumCompare a b ≠ .lt := by
    rw [cryptoBignumCompare_eq ha hb, hvalue]
    exact fun hlt => absurd (Nat.compare_eq_lt.mp hlt) (not_lt.mpr hle)
  exact cryptoBignumSub_capacity hout hcompare (by omega)

theorem bignumMulU32_ensures (ha : a.Valid) (v : UInt32) (h : 4 * (a.length + 1) ≤ room) :
    Ensures room (bignumMulU32 a v) fun r => r.Valid ∧ r.value = a.value * v.toNat := by
  unfold bignumMulU32
  by_cases hz : v = 0 ∨ a.length = 0
  · have hprod : a.value * v.toNat = 0 := by
      rcases hz with rfl | hz
      · exact Nat.mul_zero _
      · rw [ha.length_eq_zero.mp hz, Nat.zero_mul]
    rw [if_pos hz, hprod]
    exact Ensures.pure ⟨init_valid, rfl⟩
  rw [if_neg hz]
  push Not at hz
  apply (bignumReserve_ensures init_valid h).bind
  rintro t ⟨hvalid, -, hlength, hcapacity, -⟩
  have hwords := ha.words_length
  have hzero : (0 : UInt64).toNat < wordBase := by decide
  have hvalue := mulAddRow_value (n := a.length) (a := a.words) (t := []) (x := v) hwords.le
    (Nat.zero_le _) hzero
  have hcarry := mulAddRow_carry (n := a.length) (a := a.words) (t := []) (x := v) hzero
  have hrowlen : (mulAddRow a.length a.words v [] 0).1.length = a.length := mulAddRow_length
  have hge := ha.le_value hz.2
  have hone : 1 ≤ v.toNat :=
    Nat.one_le_iff_ne_zero.mpr fun h0 => hz.1 (UInt32.toNat_inj.mp h0)
  have hmul : a.value * 1 ≤ a.value * v.toNat := Nat.mul_le_mul_left _ hone
  rw [wordsValue_nil, UInt64.toNat_zero, Nat.add_zero] at hvalue
  change _ = a.value * v.toNat at hvalue
  generalize mulAddRow a.length a.words v [] 0 = row at *
  have hlength' : t.length = 0 := hlength
  have hspec := storeCarry_spec (fun i _ => hvalid.zeros i (by omega)) hcarry
    fun hc => top_ne_zero (by
      rw [hc, UInt64.toNat_zero, Nat.mul_zero, Nat.add_zero] at hvalue
      rw [hrowlen]
      omega)
  rw [hrowlen, hvalue] at hspec
  exact Ensures.pure hspec

@[simp] theorem divDown_length (v : UInt64) : (divDown v w).1.length = w.length := by
  induction w with
  | nil => rfl
  | cons x xs ih => simp [divDown, ih]

theorem divDown_value {v : UInt32} (hv : v ≠ 0) :
    v.toNat * wordsValue (divDown v.toUInt64 w).1 + (divDown v.toUInt64 w).2.toNat = wordsValue w ∧
      (divDown v.toUInt64 w).2.toNat < v.toNat := by
  have hpos : 0 < v.toNat := Nat.pos_of_ne_zero fun h => hv (UInt32.toNat_inj.mp h)
  have hlt := word_lt v
  induction w with
  | nil => exact ⟨rfl, hpos⟩
  | cons x xs ih =>
    obtain ⟨hvalue, hrem⟩ := ih
    have hx := word_lt x
    unfold divDown
    generalize divDown v.toUInt64 xs = upper at hvalue hrem ⊢
    have hcur := join_toNat (hrem.trans hlt) x
    have hquotient : (((upper.2 <<< 32) ||| x.toUInt64) / v.toUInt64).toUInt32.toNat =
        (wordBase * upper.2.toNat + x.toNat) / v.toNat := by
      rw [toUInt32_toNat, UInt64.toNat_div, hcur, UInt32.toNat_toUInt64]
      apply Nat.mod_eq_of_lt
      apply Nat.div_lt_of_lt_mul
      have hmul := Nat.mul_le_mul_left wordBase hrem
      rw [Nat.mul_succ, Nat.mul_comm wordBase v.toNat] at hmul
      omega
    have hremainder : (((upper.2 <<< 32) ||| x.toUInt64) % v.toUInt64).toNat =
        (wordBase * upper.2.toNat + x.toNat) % v.toNat := by
      rw [UInt64.toNat_mod, hcur, UInt32.toNat_toUInt64]
    have hsplit := Nat.div_add_mod (wordBase * upper.2.toNat + x.toNat) v.toNat
    dsimp only
    rw [wordsValue_cons, wordsValue_cons, hquotient, hremainder]
    refine ⟨?_, Nat.mod_lt _ hpos⟩
    calc _ = wordBase * (v.toNat * wordsValue upper.1) + (v.toNat *
          ((wordBase * upper.2.toNat + x.toNat) / v.toNat) +
            (wordBase * upper.2.toNat + x.toNat) % v.toNat) := by ring
      _ = x.toNat + wordBase * wordsValue xs := by
        rw [hsplit, ← hvalue]
        ring

theorem bignumDivU32_ensures (ha : a.Valid) {v : UInt32} (hv : v ≠ 0) (h : 4 * a.length ≤ room) :
    Ensures room (bignumDivU32 a v) fun r =>
      (r.1.Valid ∧ r.1.value = a.value / v.toNat) ∧ r.2.toNat = a.value % v.toNat := by
  have hpos : 0 < v.toNat := Nat.pos_of_ne_zero fun h => hv (UInt32.toNat_inj.mp h)
  obtain ⟨hvalue, hrem⟩ := @divDown_value a.words v hv
  have hlength : (divDown v.toUInt64 a.words).1.length = a.length :=
    (divDown_length _).trans ha.words_length
  change _ = a.value at hvalue
  unfold bignumDivU32
  rw [if_neg hv]
  apply (bignumReserve_ensures init_valid h).bind
  rintro t ⟨hvalid, -, hempty, hcapacity, -⟩
  generalize divDown v.toUInt64 a.words = row at hvalue hrem hlength ⊢
  apply Ensures.pure
  have hstored := @storeWords_zeros row.1 t.limbs
    fun i _ => hvalid.zeros i (hempty.trans_le (Nat.zero_le i))
  have hnormal := padded_normalize row.1 (t.limbs.length - row.1.length)
  rw [← hstored, hlength] at hnormal
  refine ⟨⟨hnormal.1, hnormal.2.trans ?_⟩, ?_⟩
  · rw [← hvalue, Nat.mul_add_div hpos, Nat.div_eq_of_lt hrem, Nat.add_zero]
  · rw [toUInt32_toNat, Nat.mod_eq_of_lt (hrem.trans (word_lt v)), ← hvalue, Nat.mul_add_mod,
      Nat.mod_eq_of_lt hrem]

theorem bignumAddU32Copy_ensures (hout : out.Valid) (ha : a.Valid) (v : UInt32)
    (h : 4 * (a.length + 1) ≤ room) :
    Ensures room (bignumAddU32Copy out a v) fun r => r.Valid ∧ r.value = a.value + v.toNat := by
  apply (cryptoBignumCopy_ensures hout ha (by omega)).bind
  rintro copied ⟨hcopied, hvalue⟩
  have hlength := hcopied.length_eq ha hvalue
  have hadd := bignumAddU32_ensures hcopied v (show 4 * (copied.length + 1) ≤ room by omega)
  rwa [hvalue] at hadd

end LiberaCrypt.BignumSmall
