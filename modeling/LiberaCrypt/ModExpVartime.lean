import LiberaCrypt.BignumSquare
import LiberaCrypt.CountedLoop
import LiberaCrypt.ModExp
import LiberaCrypt.ModExpSecure

namespace LiberaCrypt.ModExpVartime

open LiberaCrypt.Outcome LiberaCrypt.Allocation LiberaCrypt.CountedLoop LiberaCrypt.Limbs
open LiberaCrypt.Bignum LiberaCrypt.BignumSquare LiberaCrypt.BignumMod LiberaCrypt.Montgomery
open LiberaCrypt.PowerLadder LiberaCrypt.ModExp LiberaCrypt.ModExpSecure

def bignumVtWindowBits (exponentBits : Nat) : Nat :=
  if exponentBits < 24 then 1
  else if exponentBits < 80 then 2
  else if exponentBits < 240 then 3
  else if exponentBits < 672 then 4
  else 5

def bignumVtIsU32 (value : LiberaCBignum) (expected : UInt32) : Bool :=
  if expected = 0 then value.length == 0
  else value.length == 1 && value.limbs.getD 0 0 == expected

def bignumVtStore (w : List UInt32) (n : Nat) : Fallible LiberaCBignum :=
  let length := bignumWordsLength w n
  if length = 0 then pure cryptoBignumInit
  else do
    let tmp ← reported (bignumReserve cryptoBignumInit length) .allocationFailed
    pure ⟨storeWords tmp.limbs (w.take length), length⟩

def cryptoBignumModSquare (out a modulus : LiberaCBignum) : Fallible LiberaCBignum :=
  if modulus.length = 0 then throw .invalidArgument
  else do
    let square ← cryptoBignumSquare cryptoBignumInit a false
    cryptoBignumMod out square modulus

/-- `while (low < i - 1 && !bit(low)) ++low`, with `gap` the distance from `low` to `i - 1`. -/
def trimWindow (exponent : LiberaCBignum) : Nat → Nat → Nat
  | 0, low => low
  | gap + 1, low =>
    if bignumGetBit exponent low = 0 then trimWindow exponent gap (low + 1) else low

/-- The lowest bit of the window whose highest is `i - 1`. -/
def windowLow (exponent : LiberaCBignum) (windowBits i : Nat) : Nat :=
  let low := if windowBits < i then i - windowBits else 0
  trimWindow exponent (i - 1 - low) low

/-- The `k` bits from `low` on, read from the top. -/
def windowValue (exponent : LiberaCBignum) (low k : Nat) : UInt32 :=
  countDown k (fun j value => (value <<< 1) ||| bignumGetBit exponent (low + j)) 0

/-- The entries `first`, `first * base2`, … of the table. -/
def oddPowers (ctx : BignumMontCtx) (base2 : List UInt32) : Nat → List UInt32 → List (List UInt32)
  | 0, _ => []
  | k + 1, first => first :: oddPowers ctx base2 k (bignumVtMontMul ctx first base2)

def squareTimes (ctx : BignumMontCtx) (squarings : Nat) (acc : List UInt32) : List UInt32 :=
  countUp squarings (fun _ acc => bignumVtMontMul ctx acc acc) acc

theorem trimWindow_le (exponent : LiberaCBignum) (gap low : Nat) :
    trimWindow exponent gap low ≤ low + gap := by
  induction gap generalizing low with
  | zero => exact le_refl low
  | succ gap ih =>
    unfold trimWindow
    split_ifs with h
    · apply (ih (low + 1)).trans
      omega
    · omega

theorem windowLow_lt (exponent : LiberaCBignum) {windowBits i : Nat} (hw : 0 < windowBits)
    (hi : i ≠ 0) : windowLow exponent windowBits i < i := by
  have h := trimWindow_le exponent (i - 1 - if windowBits < i then i - windowBits else 0)
    (if windowBits < i then i - windowBits else 0)
  unfold windowLow
  dsimp only
  split_ifs at h ⊢ with hlow <;> omega

/-- The loop over the exponent; no accumulator is left when a table index is out of range. -/
def slideWindow (ctx : BignumMontCtx) (exponent : LiberaCBignum) (table : List (List UInt32))
    (windowBits : Nat) (hw : 0 < windowBits) (i : Nat) (acc : List UInt32) :
    Option (List UInt32) :=
  if hi : i = 0 then some acc
  else if bignumGetBit exponent (i - 1) = 0 then
    slideWindow ctx exponent table windowBits hw (i - 1) (bignumVtMontMul ctx acc acc)
  else
    let low := windowLow exponent windowBits i
    let value := windowValue exponent low (i - low)
    let acc := squareTimes ctx (i - low) acc
    let k := ((value.toUInt64 - 1) >>> 1).toNat
    if table.length ≤ k then none
    else
      have : windowLow exponent windowBits i < i := windowLow_lt exponent hw hi
      slideWindow ctx exponent table windowBits hw low (bignumVtMontMul ctx acc (table.getD k []))
termination_by i

theorem bignumVtWindowBits_pos (bits : Nat) : 0 < bignumVtWindowBits bits := by
  unfold bignumVtWindowBits
  split_ifs <;> decide

/-- The table, the loop and the last product, over the context and the reduced base. -/
def slidingExp (ctx : BignumMontCtx) (reduced exponent : LiberaCBignum) : Fallible LiberaCBignum :=
  let n := ctx.n
  let bits := cryptoBignumBitLength exponent
  let tableCount := 2 ^ (bignumVtWindowBits bits - 1)
  let oneM := bignumVtMontMul ctx (oneWords n) ctx.r2
  let baseM := bignumVtMontMul ctx (baseWords false n reduced) ctx.r2
  let table := oddPowers ctx (bignumVtMontMul ctx baseM baseM) tableCount baseM
  match slideWindow ctx exponent table (bignumVtWindowBits bits) (bignumVtWindowBits_pos bits)
      bits oneM with
  | none => throw .arithmetic
  | some acc => bignumVtStore (bignumVtMontMul ctx acc (oneWords n)) n

def windowedExp (reduced exponent modulus : LiberaCBignum) : Fallible LiberaCBignum :=
  let tableCount := 2 ^ (bignumVtWindowBits (cryptoBignumBitLength exponent) - 1)
  let n := modulus.length
  if sizeMax / (8 + tableCount) < n then throw .messageTooLarge
  else do
    let ctx ← reported (bignumVtMontInit modulus) .allocationFailed
    allocate (4 * ((8 + tableCount) * n)) .allocationFailed
    slidingExp ctx reduced exponent

def reduceBase (base modulus : LiberaCBignum) : Fallible LiberaCBignum :=
  if cryptoBignumCompare base modulus = .lt then
    reported (cryptoBignumCopy cryptoBignumInit base) .allocationFailed
  else reported (cryptoBignumMod cryptoBignumInit base modulus) .arithmetic

/-- An odd modulus; `reduced` is the base modulo it. -/
def oddModExp (out reduced exponent modulus : LiberaCBignum) : Fallible LiberaCBignum :=
  if reduced.length = 0 then pure reduced
  else if bignumVtIsU32 reduced 1 then cryptoBignumSetU64 out 1
  else windowedExp reduced exponent modulus

def cryptoBignumModExpVartime (out base exponent modulus : LiberaCBignum) :
    Fallible LiberaCBignum :=
  if modulus.length = 0 then throw .invalidArgument
  else if bignumVtIsU32 modulus 1 then pure cryptoBignumInit
  else if exponent.length = 0 then cryptoBignumSetU64 out 1
  else if bignumVtIsU32 exponent 1 then cryptoBignumMod out base modulus
  else if bignumVtIsU32 exponent 2 then cryptoBignumModSquare out base modulus
  else if modulus.limbs.getD 0 0 &&& 1 = 0 then cryptoBignumModExp base exponent modulus
  else do
    let reduced ← reduceBase base modulus
    oddModExp out reduced exponent modulus

section Window

variable {exponent : LiberaCBignum} {k i : Nat}

/-- The window keeps its bits, and its lowest is set when its highest is. -/
theorem trimWindow_spec (exponent : LiberaCBignum) (gap low : Nat)
    (htop : bignumGetBit exponent (low + gap) ≠ 0) :
    low ≤ trimWindow exponent gap low ∧
      bignumGetBit exponent (trimWindow exponent gap low) ≠ 0 := by
  induction gap generalizing low with
  | zero => exact ⟨le_refl low, htop⟩
  | succ gap ih =>
    unfold trimWindow
    split_ifs with h
    · obtain ⟨hle, hbit⟩ := ih (low + 1) (by rwa [Nat.add_right_comm, Nat.add_assoc])
      exact ⟨(Nat.le_succ low).trans hle, hbit⟩
    · exact ⟨le_refl low, h⟩

theorem windowLow_spec {windowBits : Nat} (hw : 0 < windowBits)
    (htop : bignumGetBit exponent (i - 1) ≠ 0) :
    i - windowLow exponent windowBits i ≤ windowBits ∧
      bignumGetBit exponent (windowLow exponent windowBits i) ≠ 0 := by
  unfold windowLow
  dsimp only
  generalize hlow : (if windowBits < i then i - windowBits else 0) = low
  have hle : low ≤ i - 1 ∧ i - low ≤ windowBits := by
    split_ifs at hlow <;> omega
  obtain ⟨hlowle, hbit⟩ := trimWindow_spec exponent (i - 1 - low) low
    (by rwa [Nat.add_sub_cancel' hle.1])
  exact ⟨by omega, hbit⟩

theorem shift_in {v b : UInt32} (hv : v.toNat < 2 ^ 31) (hb : b.toNat ≤ 1) :
    ((v <<< 1) ||| b).toNat = 2 * v.toNat + b.toNat := by
  rw [UInt32.toNat_or, UInt32.toNat_shiftLeft]
  change (v.toNat <<< 1 % 2 ^ 32) ||| b.toNat = _
  rw [Nat.shiftLeft_eq, Nat.mod_eq_of_lt (by omega), Nat.mul_comm, pow_one]
  have h := Nat.two_pow_add_eq_or_of_lt (i := 1) (b := b.toNat) (by omega) v.toNat
  rw [pow_one] at h
  exact h.symm

theorem windowValue_toNat (hexponent : exponent.Valid) (low : Nat) (hk : k ≤ 31) :
    (windowValue exponent low k).toNat = exponent.value / 2 ^ low % 2 ^ k := by
  have h := countDown_invariant (n := k) (s := (0 : UInt32))
    (f := fun j value => (value <<< 1) ||| bignumGetBit exponent (low + j))
    (fun j (value : UInt32) => value.toNat = exponent.value / 2 ^ (low + j) % 2 ^ (k - j)) ?_ ?_
  · rw [Nat.add_zero, Nat.sub_zero] at h
    exact h
  · rw [Nat.sub_self, pow_zero, Nat.mod_one]
    rfl
  · intro j hj value hvalue
    have hbit := bignumGetBit_toNat hexponent (low + j)
    have hpow : 2 ^ (k - (j + 1)) ≤ 2 ^ 30 := Nat.pow_le_pow_right (by decide) (by omega)
    have hlt := Nat.mod_lt (exponent.value / 2 ^ (low + (j + 1)))
      (Nat.two_pow_pos (k - (j + 1)))
    rw [shift_in (by omega) (by omega), hvalue, hbit, ← Nat.add_assoc, pow_succ,
      ← Nat.div_div_eq_div_mul]
    have hsplit : k - j = k - (j + 1) + 1 := by omega
    rw [hsplit, pow_succ, Nat.mul_comm _ 2, Nat.mod_mul]
    omega

end Window

section Engine

variable {ctx : BignumMontCtx} {M n k room : Nat} {exponent base modulus out : LiberaCBignum}
  {x : ZMod M} {acc w : List UInt32}

theorem oddPowers_length (base2 first : List UInt32) :
    (oddPowers ctx base2 k first).length = k := by
  induction k generalizing first with
  | zero => rfl
  | succ k ih => rw [oddPowers, List.length_cons, ih]

theorem oddPowers_holds (h : ctx.Sound M) {base2 first : List UInt32}
    (hbase2 : ctx.Holds M base2 (x * x)) {j : Nat} (hfirst : ctx.Holds M first (x ^ (2 * j + 1)))
    {i : Nat} (hi : i < k) :
    ctx.Holds M ((oddPowers ctx base2 k first).getD i []) (x ^ (2 * (j + i) + 1)) := by
  induction k generalizing first i j with
  | zero => exact absurd hi (Nat.not_lt_zero i)
  | succ k ih =>
    cases i with
    | zero => exact hfirst
    | succ i =>
      have hnext := bignumVtMontMul_reduces.mul_holds h hfirst hbase2
      rw [odd_power] at hnext
      have hrest := ih hnext (Nat.lt_of_succ_lt_succ hi)
      rw [Nat.add_assoc, Nat.add_comm 1 i] at hrest
      exact hrest

theorem squareTimes_holds (h : ctx.Sound M) (hacc : ctx.Holds M acc x) (squarings : Nat) :
    ctx.Holds M (squareTimes ctx squarings acc) (x ^ 2 ^ squarings) := by
  apply countUp_invariant (fun j acc => ctx.Holds M acc (x ^ 2 ^ j))
  · rw [pow_zero, pow_one]
    exact hacc
  · intro j _ acc hacc
    rw [← square_low]
    exact bignumVtMontMul_reduces.mul_holds h hacc hacc

theorem table_index {v : UInt32} (hodd : v.toNat % 2 = 1) :
    v.toNat = 2 * ((v.toUInt64 - 1) >>> 1).toNat + 1 := by
  have hv := v.toNat_lt
  have hle : (1 : UInt64) ≤ v.toUInt64 := by
    rw [UInt64.le_iff_toNat_le, UInt32.toNat_toUInt64, UInt64.toNat_one]
    omega
  rw [UInt64.toNat_shiftRight, UInt64.toNat_sub_of_le _ _ hle, UInt32.toNat_toUInt64,
    UInt64.toNat_one]
  change _ = 2 * ((v.toNat - 1) >>> 1) + 1
  rw [Nat.shiftRight_eq_div_pow]
  omega

theorem slideWindow_holds (h : ctx.Sound M) (hexponent : exponent.Valid)
    {table : List (List UInt32)} {windowBits : Nat} (hw : 0 < windowBits) (hsmall : windowBits ≤ 31)
    (htable : table.length = 2 ^ (windowBits - 1))
    (hentries : ∀ k < table.length, ctx.Holds M (table.getD k []) (x ^ (2 * k + 1)))
    (i : Nat) (hacc : ctx.Holds M acc (x ^ (exponent.value / 2 ^ i))) :
    ∃ r, slideWindow ctx exponent table windowBits hw i acc = some r ∧
      ctx.Holds M r (x ^ exponent.value) := by
  induction i using Nat.strong_induction_on generalizing acc with
  | _ i ih =>
  rw [slideWindow]
  by_cases hi : i = 0
  · rw [dif_pos hi]
    rw [hi, pow_zero, Nat.div_one] at hacc
    exact ⟨acc, rfl, hacc⟩
  rw [dif_neg hi]
  by_cases hbit : bignumGetBit exponent (i - 1) = 0
  · rw [if_pos hbit]
    have hclear := bignumGetBit_toNat hexponent (i - 1)
    rw [hbit] at hclear
    apply ih (i - 1) (by omega)
    rw [← step_clear x hclear.symm, Nat.sub_add_cancel (Nat.pos_of_ne_zero hi)]
    exact bignumVtMontMul_reduces.mul_holds h hacc hacc
  rw [if_neg hbit]
  obtain ⟨hwidth, hlowbit⟩ := windowLow_spec hw hbit
  have hlt := windowLow_lt exponent hw hi
  dsimp only
  generalize windowLow exponent windowBits i = low at *
  have hvalue := windowValue_toNat (k := i - low) hexponent low (by omega)
  generalize windowValue exponent low (i - low) = v at *
  have hodd : v.toNat % 2 = 1 := by
    have hset := bignumGetBit_toNat hexponent low
    have hne : (bignumGetBit exponent low).toNat ≠ 0 := fun h0 => hlowbit (UInt32.toNat_inj.mp h0)
    rw [hvalue, Nat.mod_mod_of_dvd _ (dvd_pow_self 2 (by omega))]
    omega
  have hindex := table_index hodd
  generalize ((v.toUInt64 - 1) >>> 1).toNat = k at *
  have hk : k < table.length := by
    have hvlt := Nat.mod_lt (exponent.value / 2 ^ low) (Nat.two_pow_pos (i - low))
    have hpow : 2 ^ (i - low) ≤ 2 ^ (windowBits - 1 + 1) :=
      Nat.pow_le_pow_right (by decide) (by omega)
    rw [htable]
    rw [pow_succ] at hpow
    omega
  rw [if_neg (not_le.mpr hk)]
  apply ih low hlt
  rw [← step_window x hlt.le, ← hvalue, hindex]
  exact bignumVtMontMul_reduces.mul_holds h (squareTimes_holds h hacc _) (hentries k hk)

theorem bignumVtWindowBits_le (bits : Nat) : bignumVtWindowBits bits ≤ 5 := by
  unfold bignumVtWindowBits
  split_ifs <;> decide

theorem bignumVtIsU32_iff {value : LiberaCBignum} (hvalue : value.Valid) {expected : UInt32}
    (hexpected : expected ≠ 0) :
    bignumVtIsU32 value expected = true ↔ value.value = expected.toNat := by
  have hone : value.length = 1 → value.value = (value.limbs.getD 0 0).toNat := by
    intro hlength
    have hhead := (words_head (show value.length ≠ 0 by omega)).1
    obtain ⟨d, hd⟩ := List.length_eq_one_iff.mp (hvalue.words_length.trans hlength)
    rw [hd] at hhead
    rw [← hhead, LiberaCBignum.value, hd, wordsValue_singleton]
    rfl
  rw [bignumVtIsU32, if_neg hexpected, Bool.and_eq_true, beq_iff_eq, beq_iff_eq]
  constructor
  · rintro ⟨hlength, hlimb⟩
    rw [hone hlength, hlimb]
  · intro heq
    have hne : expected.toNat ≠ 0 := fun h0 => hexpected (UInt32.toNat_inj.mp h0)
    have hle : value.length ≤ 1 := by
      apply hvalue.length_le_iff.mpr
      rw [heq, pow_one]
      exact word_lt expected
    have hpos : value.length ≠ 0 := fun h0 => hne (heq ▸ hvalue.length_eq_zero.mp h0)
    have hlength : value.length = 1 := by omega
    refine ⟨hlength, UInt32.toNat_inj.mp ?_⟩
    rw [← hone hlength, heq]

theorem bignumVtStore_ensures (hw : w.length = n) (h : 4 * n ≤ room) :
    Ensures room (bignumVtStore w n) fun r => r.Valid ∧ r.value = wordsValue w := by
  have hle : bignumWordsLength w n ≤ n := bignumWordsLength_le
  have hvalue : wordsValue (w.take (bignumWordsLength w n)) = wordsValue w := by
    conv_rhs => rw [stripped w, wordsValue_append, wordsValue_zeros, Nat.mul_zero, Nat.add_zero, hw]
  have hlen : (w.take (bignumWordsLength w n)).length = bignumWordsLength w n := by
    rw [List.length_take, hw]
    exact Nat.min_eq_left hle
  unfold bignumVtStore
  dsimp only
  split_ifs with hz
  · apply Ensures.pure
    rw [hz, List.take_zero] at hvalue
    exact ⟨init_valid, hvalue⟩
  · apply (Ensures.reported (bignumReserve_ensures init_valid (show _ ≤ room by omega))).bind
    rintro grown ⟨hvalid, -, hlength, hcapacity, -⟩
    apply Ensures.pure
    have htop : (w.take (bignumWordsLength w n)).getD (bignumWordsLength w n - 1) 0 ≠ 0 := by
      rw [List.getD_eq_getElem?_getD, List.getElem?_take_of_lt (by omega),
        ← List.getD_eq_getElem?_getD]
      exact bignumWordsLength_top hz
    generalize bignumWordsLength w n = k at *
    rw [← hvalue]
    generalize w.take k = v at *
    subst hlen
    rw [storeWords_covering hvalid (hlength.trans_le (Nat.zero_le _)) hcapacity]
    exact ⟨padded_valid _ fun _ => htop, padded_value _⟩

theorem slidingExp_ensures (h : ctx.Sound M) (hbase : base.Valid) (hlt : base.value < M)
    (hlength : base.length ≤ ctx.n) (hexponent : exponent.Valid) (hroom : 4 * ctx.n ≤ room) :
    Ensures room (slidingExp ctx base exponent) fun r => r.Valid ∧
      r.value = base.value ^ exponent.value % M := by
  obtain ⟨honelen, honevalue⟩ := oneWords_spec h.pos
  obtain ⟨hlen, hvalue⟩ := baseWords_spec false hbase hlength fun hf =>
    absurd hf Bool.false_ne_true
  have hone : ctx.Holds M (bignumVtMontMul ctx (oneWords ctx.n) ctx.r2)
      ((base.value : ZMod M) ^ (exponent.value / 2 ^ cryptoBignumBitLength exponent)) := by
    have henter := bignumVtMontMul_reduces.enter_holds h honelen
      (by rw [honevalue]; exact h.modulus_pos)
    rw [honevalue, Nat.cast_one] at henter
    rw [start _ (by rw [cryptoBignumBitLength_eq hexponent]; exact Nat.lt_size_self _)]
    exact henter
  have hbaseM : ctx.Holds M (bignumVtMontMul ctx (baseWords false ctx.n base) ctx.r2)
      (base.value : ZMod M) := by
    have henter := bignumVtMontMul_reduces.enter_holds h hlen (by rw [hvalue]; exact hlt.le)
    rw [hvalue] at henter
    exact henter
  unfold slidingExp
  dsimp only
  generalize bignumVtMontMul ctx (baseWords false ctx.n base) ctx.r2 = baseM at *
  have hentries : ∀ k < (oddPowers ctx (bignumVtMontMul ctx baseM baseM)
      (2 ^ (bignumVtWindowBits (cryptoBignumBitLength exponent) - 1)) baseM).length,
      ctx.Holds M ((oddPowers ctx (bignumVtMontMul ctx baseM baseM)
        (2 ^ (bignumVtWindowBits (cryptoBignumBitLength exponent) - 1)) baseM).getD k [])
        ((base.value : ZMod M) ^ (2 * k + 1)) := by
    intro k hk
    rw [oddPowers_length] at hk
    have hentry := oddPowers_holds (j := 0) h
      (bignumVtMontMul_reduces.mul_holds h hbaseM hbaseM) (by simpa using hbaseM) hk
    rwa [Nat.zero_add] at hentry
  obtain ⟨acc, hacc, hholds⟩ := slideWindow_holds h hexponent
    (bignumVtWindowBits_pos (cryptoBignumBitLength exponent))
    ((bignumVtWindowBits_le _).trans (by decide)) (oddPowers_length _ _) hentries
    (cryptoBignumBitLength exponent) hone
  rw [hacc]
  obtain ⟨hreslen, hreslt, hcast⟩ := bignumVtMontMul_reduces.leave h hholds honelen honevalue
  apply (bignumVtStore_ensures hreslen hroom).mono
  rintro r ⟨hvalid, hrvalue⟩
  exact ⟨hvalid, hrvalue.trans (MontgomeryReduction.eq_mod_of_cast hreslt hcast)⟩

theorem windowedExp_ensures (hbase : base.Valid) (hlt : base.value < modulus.value)
    (hexponent : exponent.Valid) (hm : modulus.Valid) (hodd : modulus.value % 2 = 1)
    (hroom : 96 * modulus.length ≤ room) :
    Ensures room (windowedExp base exponent modulus) fun r => r.Valid ∧
      r.value = base.value ^ exponent.value % modulus.value := by
  have hlength := odd_length hm hodd
  have hcount : 2 ^ (bignumVtWindowBits (cryptoBignumBitLength exponent) - 1) ≤ 2 ^ 4 :=
    Nat.pow_le_pow_right (by decide) (Nat.pred_le_pred (bignumVtWindowBits_le _))
  unfold windowedExp
  dsimp only
  generalize 2 ^ (bignumVtWindowBits (cryptoBignumBitLength exponent) - 1) = tableCount at *
  have hbuffer : (8 + tableCount) * modulus.length ≤ 24 * modulus.length :=
    Nat.mul_le_mul_right _ (by omega)
  apply Ensures.guard
  · intro hsize
    rw [not_lt, Nat.le_div_iff_mul_le (by omega), Nat.mul_comm]
    omega
  intro _
  apply (Ensures.reported (bignumMontInit_ensures hm hodd (by omega))).bind
  rintro ctx ⟨hn, hsound⟩
  apply (Ensures.allocate (by omega)).bind
  intro _ _
  apply slidingExp_ensures hsound hbase hlt _ hexponent (by omega)
  rw [hn]
  exact hbase.length_le_of_value hlt.le

theorem reduceBase_ensures (hbase : base.Valid) (hm : modulus.Valid) (hpos : modulus.value ≠ 0)
    (hroom : 4 * (modulus.length + base.length + 1) ≤ room) :
    Ensures room (reduceBase base modulus) fun r => r.Valid ∧
      r.value = base.value % modulus.value := by
  have hcompare := cryptoBignumCompare_lt hbase hm
  unfold reduceBase
  split_ifs with hlt
  · rw [Nat.mod_eq_of_lt (hcompare.mp hlt)]
    exact Ensures.reported (cryptoBignumCopy_ensures init_valid hbase (by omega))
  · exact Ensures.reported (cryptoBignumMod_ensures init_valid hbase hm hpos hroom)

theorem cryptoBignumModSquare_ensures (hout : out.Valid) (hbase : base.Valid) (hm : modulus.Valid)
    (hpos : modulus.value ≠ 0) (hroom : 4 * (modulus.length + 2 * base.length + 1) ≤ room) :
    Ensures room (cryptoBignumModSquare out base modulus) fun r => r.Valid ∧
      r.value = base.value ^ 2 % modulus.value := by
  have hlength : modulus.length ≠ 0 := fun h0 => hpos (hm.length_eq_zero.mp h0)
  unfold cryptoBignumModSquare
  rw [if_neg hlength]
  apply (cryptoBignumSquare_ensures init_valid hbase false (by omega)).bind
  rintro square ⟨hsquare, hvalue⟩
  have hlen : square.length ≤ 2 * base.length := by
    apply hsquare.length_le_iff.mpr
    rw [hvalue, Nat.mul_comm, pow_mul]
    exact Nat.pow_lt_pow_left base.value_lt (by decide)
  rw [← hvalue]
  exact cryptoBignumMod_ensures hout hsquare hm hpos (by omega)

theorem oddModExp_ensures (hout : out.Valid) (hbase : base.Valid) (hlt : base.value < modulus.value)
    (hexponent : exponent.Valid) (hnonzero : exponent.value ≠ 0) (hm : modulus.Valid)
    (hodd : modulus.value % 2 = 1) (hone : modulus.value ≠ 1)
    (hroom : 96 * modulus.length ≤ room) :
    Ensures room (oddModExp out base exponent modulus) fun r => r.Valid ∧
      r.value = base.value ^ exponent.value % modulus.value := by
  have hlength := odd_length hm hodd
  unfold oddModExp
  split_ifs with hz hunit
  · have hzero := hbase.length_eq_zero.mp hz
    refine Ensures.pure ⟨hbase, ?_⟩
    rw [hzero, Nat.zero_pow (Nat.pos_of_ne_zero hnonzero), Nat.zero_mod]
  · have hvalue := (bignumVtIsU32_iff hbase (by decide)).mp hunit
    rw [hvalue, UInt32.toNat_one, one_pow, Nat.mod_eq_of_lt (by omega)]
    exact cryptoBignumSetU64_ensures hout 1 (by omega)
  · exact windowedExp_ensures hbase hlt hexponent hm hodd hroom

theorem cryptoBignumModExpVartime_ensures (hout : out.Valid) (hbase : base.Valid)
    (hexponent : exponent.Valid) (hm : modulus.Valid) (hpos : modulus.value ≠ 0)
    (hroom : 96 * modulus.length + 8 * base.length + 4 ≤ room) :
    Ensures room (cryptoBignumModExpVartime out base exponent modulus) fun r => r.Valid ∧
      r.value = base.value ^ exponent.value % modulus.value := by
  have hlength : modulus.length ≠ 0 := fun h0 => hpos (hm.length_eq_zero.mp h0)
  have hone : bignumVtIsU32 modulus 1 = true ↔ modulus.value = 1 :=
    bignumVtIsU32_iff hm (by decide)
  have hexpone : bignumVtIsU32 exponent 1 = true ↔ exponent.value = 1 :=
    bignumVtIsU32_iff hexponent (by decide)
  have hexptwo : bignumVtIsU32 exponent 2 = true ↔ exponent.value = 2 :=
    bignumVtIsU32_iff hexponent (by decide)
  unfold cryptoBignumModExpVartime
  rw [if_neg hlength]
  split_ifs with h1 h2 h3 h4 h5
  · refine Ensures.pure ⟨init_valid, ?_⟩
    rw [hone.mp h1, Nat.mod_one]
    rfl
  · have hne : modulus.value ≠ 1 := fun h => h1 (hone.mpr h)
    rw [hexponent.length_eq_zero.mp h2, pow_zero, Nat.mod_eq_of_lt (by omega)]
    exact cryptoBignumSetU64_ensures hout 1 (by omega)
  · rw [hexpone.mp h3, pow_one]
    exact cryptoBignumMod_ensures hout hbase hm hpos (by omega)
  · rw [hexptwo.mp h4]
    exact cryptoBignumModSquare_ensures hout hbase hm hpos (by omega)
  · exact cryptoBignumModExp_ensures hbase hexponent hm hpos (by omega)
  · have hodd : modulus.value % 2 = 1 := by
      rw [odd_iff, (words_head hlength).2] at h5
      omega
    apply (reduceBase_ensures hbase hm hpos (by omega)).bind
    rintro reduced ⟨hreduced, hvalue⟩
    have hlt : reduced.value < modulus.value := by
      rw [hvalue]
      exact Nat.mod_lt _ (Nat.pos_of_ne_zero hpos)
    have hresult := oddModExp_ensures hout hreduced hlt hexponent
      (fun h0 => h2 (hexponent.length_eq_zero.mpr h0)) hm hodd (fun h => h1 (hone.mpr h))
      (show 96 * modulus.length ≤ room by omega)
    rw [hvalue, ← Nat.pow_mod] at hresult
    exact hresult

end Engine

end LiberaCrypt.ModExpVartime
