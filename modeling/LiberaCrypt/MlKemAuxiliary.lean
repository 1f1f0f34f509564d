import LiberaCrypt.MlKemEncode
import LiberaCrypt.SmallInt

namespace LiberaCrypt.MlKemAuxiliary

open LiberaCrypt.CountedLoop LiberaCrypt.SmallInt LiberaCrypt.MlKemReduce LiberaCrypt.MlKemNtt
  LiberaCrypt.MlKemNttLayers LiberaCrypt.MlKemNttRefine LiberaCrypt.MlKemEncode

/-- The rounding of one coefficient in `Comp`. -/
def compValue (power input : Int32) : Int32 := (power * input + 3329 / 2) / 3329 % power

def comp (input : Poly Int32) (bitWidth : Nat) (output : Poly Int32) (length : Nat) :
    Option (Poly Int32) :=
  if bitWidth < 1 ∨ 12 < bitWidth then none
  else some (countUp length (fun i output =>
    store output i (compValue (mlkemPowerOfTwo bitWidth) (coeff input i))) output)

/-- The rounding of one coefficient in `Decomp`. -/
def decompValue (power halfPower input : Int32) : Int32 := (3329 * input + halfPower) / power

def decomp (input : Poly Int32) (bitWidth : Nat) (output : Poly Int32) (length : Nat) :
    Option (Poly Int32) :=
  if bitWidth < 1 ∨ 12 < bitWidth then none
  else some (countUp length (fun i output =>
    store output i (decompValue (mlkemPowerOfTwo bitWidth) (mlkemPowerOfTwo (bitWidth - 1))
      (coeff input i))) output)

def mlkemBitAt (input : List UInt8) (bitIndex : Nat) : UInt32 :=
  ((input.getD (bitIndex / 8) 0).toUInt32 >>> UInt32.ofNat (bitIndex % 8)) &&& 1

def bitSums (input : List UInt8) (eta coefficient : Nat) : Int32 × Int32 :=
  countUp eta (fun bit s =>
    (s.1 + (mlkemBitAt input (2 * coefficient * eta + bit)).toInt32,
      s.2 + (mlkemBitAt input ((2 * coefficient + 1) * eta + bit)).toInt32)) (0, 0)

def samplePolyCbd (input : List UInt8) (output : Poly Int32) (inputLength : Nat) :
    Option (Poly Int32) :=
  if inputLength ≠ 128 ∧ inputLength ≠ 192 then none
  else
    let eta := inputLength / 64
    some (countUp 256 (fun coefficient output =>
      let s := bitSums input eta coefficient
      store output coefficient ((s.1 - s.2 + 3329) % 3329)) output)

def byteInt (x : UInt8) : Int32 := x.toUInt32.toInt32

/-- One group of three bytes: at most two coefficients below `q` are accepted. -/
def sampleGroup (bytes : Nat → UInt8) (group : Nat) (s : Poly Int32 × Nat) : Poly Int32 × Nat :=
  let offset := 3 * group
  let first := byteInt (bytes offset) + 256 * (byteInt (bytes (offset + 1)) % 16)
  let second := byteInt (bytes (offset + 1)) / 16 + 16 * byteInt (bytes (offset + 2))
  let s := if first < 3329 then (store s.1 s.2 first, s.2 + 1) else s
  if second < 3329 ∧ s.2 < 256 then (store s.1 s.2 second, s.2 + 1) else s

def sampleBlock (bytes : Nat → UInt8) (s : Poly Int32 × Nat) : Poly Int32 × Nat :=
  countUp 56 (fun group s => if s.2 < 256 then sampleGroup bytes group s else s) s

/-- The rejection loop over the blocks of `stream`; `none` when `fuel` runs out. -/
def sampleLoop (stream : Nat → UInt8) : Nat → Nat → Poly Int32 × Nat → Option (Poly Int32)
  | 0, _, _ => none
  | fuel + 1, block, s =>
    if s.2 < 256 then
      sampleLoop stream fuel (block + 1) (sampleBlock (fun offset => stream (168 * block + offset)) s)
    else some s.1

def sampleNtt (stream : Nat → UInt8) (fuel : Nat) (output : Poly Int32) : Option (Poly Int32) :=
  sampleLoop stream fuel 0 (output, 0)

theorem holds_canonical {c : Int32} (h : Canonical c) : Holds c (word c) :=
  holds_of_toNat (h.trans (by norm_num))

theorem power_holds {d : Nat} (hd : d ≤ 12) : Holds (mlkemPowerOfTwo d) (2 ^ d) := by
  unfold Holds
  interval_cases d <;> rfl

theorem pow_le_width {d : Nat} (hd : d ≤ 12) : 2 ^ d ≤ 4096 := Nat.pow_le_pow_right (by norm_num) hd

theorem three_holds : Holds 3329 3329 := rfl

theorem compValue_holds {d : Nat} (hd : d ≤ 12) {c : Int32} (hc : Canonical c) :
    Holds (compValue (mlkemPowerOfTwo d) c) ((2 ^ d * word c + 1664) / 3329 % 2 ^ d) := by
  have hp := power_holds hd
  have hle := pow_le_width hd
  have hmul : 2 ^ d * word c ≤ 4096 * 3329 := Nat.mul_le_mul hle hc.le
  have hprod := hp.mul (holds_canonical hc) (by omega)
  have hhalf : Holds (3329 / 2) 1664 := three_holds.div (d := 2) (n := 2) rfl
  have hround := (hprod.add hhalf (by omega)).div three_holds
  exact hround.mod hp

theorem comp_spec {f : Poly Int32} (hf : AllCanonical f) {d : Nat} (h1 : 1 ≤ d) (h12 : d ≤ 12)
    (output : Poly Int32) :
    ∃ g, comp f d output 256 = some g ∧
      ∀ i < 256, word (coeff g i) = (2 ^ d * word (coeff f i) + 1664) / 3329 % 2 ^ d := by
  refine ⟨_, if_neg (by omega), fun i hi => ?_⟩
  have h := pointwise_coeff (fun i _ => compValue (mlkemPowerOfTwo d) (coeff f i)) output le_rfl i hi
  rw [if_pos hi] at h
  rw [h]
  exact (compValue_holds h12 (hf i hi)).toNat

theorem decompValue_holds {d : Nat} (h1 : 1 ≤ d) (h12 : d ≤ 12) {c : Int32}
    (hc : word c < 2 ^ d) :
    Holds (decompValue (mlkemPowerOfTwo d) (mlkemPowerOfTwo (d - 1)) c)
      ((3329 * word c + 2 ^ (d - 1)) / 2 ^ d) := by
  have hle := pow_le_width h12
  have hle' := pow_le_width (show d - 1 ≤ 12 by omega)
  have hprod := three_holds.mul (holds_of_toNat (c := c) (lt_trans hc (by omega)))
    (show 3329 * word c < 2 ^ 31 by omega)
  exact (hprod.add (power_holds (by omega)) (show 3329 * word c + 2 ^ (d - 1) < 2 ^ 31 by omega)).div
    (power_holds h12)

theorem decomp_spec {f : Poly Int32} {d : Nat} (h1 : 1 ≤ d) (h12 : d ≤ 12)
    (hf : ∀ i < 256, word (coeff f i) < 2 ^ d) (output : Poly Int32) :
    ∃ g, decomp f d output 256 = some g ∧ AllCanonical g ∧
      ∀ i < 256, word (coeff g i) = (3329 * word (coeff f i) + 2 ^ (d - 1)) / 2 ^ d := by
  have hword : ∀ i < 256, word (coeff (countUp 256 (fun i output => store output i
      (decompValue (mlkemPowerOfTwo d) (mlkemPowerOfTwo (d - 1)) (coeff f i))) output) i) =
        (3329 * word (coeff f i) + 2 ^ (d - 1)) / 2 ^ d := by
    intro i hi
    have h := pointwise_coeff (fun i _ => decompValue (mlkemPowerOfTwo d)
      (mlkemPowerOfTwo (d - 1)) (coeff f i)) output le_rfl i hi
    rw [if_pos hi] at h
    rw [h]
    exact (decompValue_holds h1 h12 (hf i hi)).toNat
  refine ⟨_, if_neg (by omega), fun i hi => ?_, hword⟩
  have hle := pow_le_width (show d - 1 ≤ 12 by omega)
  have hpow : 2 ^ d = 2 * 2 ^ (d - 1) := by rw [← pow_succ', Nat.sub_add_cancel h1]
  have hi' := hf i hi
  rw [Canonical, hword i hi, Nat.div_lt_iff_lt_mul (by positivity)]
  -- 3329 * (2^d - 1) + 2^(d - 1) stays below 3329 * 2^d as 2^(d - 1) < 3329
  have hhalf : 2 ^ (d - 1) < 3329 := by
    calc 2 ^ (d - 1) ≤ 2 ^ 11 := Nat.pow_le_pow_right (by norm_num) (by omega)
      _ < 3329 := by norm_num
  omega

theorem bitAt_le (input : List UInt8) (i : Nat) : (mlkemBitAt input i).toNat ≤ 1 := by
  rw [mlkemBitAt, UInt32.toNat_and]
  exact Nat.and_le_right

theorem bitAt_holds (input : List UInt8) (i : Nat) :
    Holds (mlkemBitAt input i).toInt32 (mlkemBitAt input i).toNat :=
  holds_toInt32 ((bitAt_le input i).trans_lt (by norm_num))

theorem bitSums_holds (input : List UInt8) {eta : Nat} (heta : eta ≤ 3) (coefficient : Nat) :
    ∃ x ≤ eta, ∃ y ≤ eta, Holds (bitSums input eta coefficient).1 x ∧
      Holds (bitSums input eta coefficient).2 y := by
  refine countUp_invariant (fun n (s : Int32 × Int32) => ∃ x ≤ n, ∃ y ≤ n, Holds s.1 x ∧ Holds s.2 y)
    ⟨0, le_rfl, 0, le_rfl, rfl, rfl⟩ ?_
  rintro n hn s ⟨x, hx, y, hy, hs1, hs2⟩
  have h1 := bitAt_le input (2 * coefficient * eta + n)
  have h2 := bitAt_le input ((2 * coefficient + 1) * eta + n)
  exact ⟨_, by omega, _, by omega, hs1.add (bitAt_holds input _) (by omega),
    hs2.add (bitAt_holds input _) (by omega)⟩

theorem samplePolyCbd_spec (input : List UInt8) {eta : Nat} (heta : eta = 2 ∨ eta = 3)
    (output : Poly Int32) :
    ∃ f, samplePolyCbd input output (64 * eta) = some f ∧ AllCanonical f := by
  refine ⟨_, if_neg (by omega), fun i hi => ?_⟩
  have h := pointwise_coeff (fun i _ => ((bitSums input (64 * eta / 64) i).1 -
    (bitSums input (64 * eta / 64) i).2 + 3329) % 3329) output le_rfl i hi
  rw [if_pos hi] at h
  rw [h, Nat.mul_div_cancel_left eta (by norm_num)]
  obtain ⟨x, hx, y, hy, h1, h2⟩ := bitSums_holds input (show eta ≤ 3 by omega) i
  have hsum : Holds ((bitSums input eta i).1 - (bitSums input eta i).2 + 3329) (x + 3329 - y) := by
    unfold Holds at *
    rw [Int32.toInt_add, Int32.toInt_sub, h1, h2, show Int32.toInt 3329 = 3329 from rfl,
      Int.bmod_add_bmod, Int.bmod_eq_of_le (by omega) (by omega)]
    omega
  have hmod := (hsum.mod three_holds).toNat
  rw [Canonical, word, hmod]
  exact Nat.mod_lt _ (by norm_num)

theorem byteInt_holds (x : UInt8) : Holds (byteInt x) x.toNat := by
  have hx := x.toNat_lt
  have h := holds_toInt32 (u := x.toUInt32) (by rw [UInt8.toNat_toUInt32]; omega)
  rwa [UInt8.toNat_toUInt32] at h

def Accepted (s : Poly Int32 × Nat) : Prop :=
  s.2 ≤ 256 ∧ ∀ k < s.2, Canonical (coeff s.1 k)

theorem accept_step {s : Poly Int32 × Nat} (hs : Accepted s) (hroom : s.2 < 256) {c : Int32}
    {n : Nat} (hc : Holds c n) (hlt : c < 3329) : Accepted (store s.1 s.2 c, s.2 + 1) := by
  refine ⟨hroom, fun k hk => ?_⟩
  rw [coeff_store _ hroom (lt_of_lt_of_le hk hroom)]
  by_cases hks : k = s.2
  · rw [if_pos hks, Canonical, word, hc.toNat]
    exact (hc.lt_iff three_holds).mp hlt
  · rw [if_neg hks]
    exact hs.2 k (by simp only at hk; omega)

theorem sampleGroup_accepted (bytes : Nat → UInt8) (group : Nat) {s : Poly Int32 × Nat}
    (hs : Accepted s) (hroom : s.2 < 256) : Accepted (sampleGroup bytes group s) := by
  have hb0 := (bytes (3 * group)).toNat_lt
  have hb1 := (bytes (3 * group + 1)).toNat_lt
  have hb2 := (bytes (3 * group + 2)).toNat_lt
  have hm := Nat.mod_lt (bytes (3 * group + 1)).toNat (show 0 < 16 by norm_num)
  have hd := Nat.div_le_self (bytes (3 * group + 1)).toNat 16
  have hlow := (byteInt_holds (bytes (3 * group + 1))).mod (d := 16) (n := 16) rfl
  have hscaled := Holds.mul (c := 256) (m := 256) rfl hlow (by omega)
  have hfirst := (byteInt_holds (bytes (3 * group))).add hscaled (by omega)
  have hhigh := (byteInt_holds (bytes (3 * group + 1))).div (d := 16) (n := 16) rfl
  have hupper := Holds.mul (c := 16) (m := 16) rfl (byteInt_holds (bytes (3 * group + 2))) (by omega)
  have hsecond := hhigh.add hupper (by omega)
  unfold sampleGroup
  dsimp only
  split
  · next h1 =>
    have hs1 := accept_step hs hroom hfirst h1
    split
    · next h2 => exact accept_step hs1 h2.2 hsecond h2.1
    · exact hs1
  · split
    · next h2 => exact accept_step hs h2.2 hsecond h2.1
    · exact hs

theorem sampleBlock_accepted (bytes : Nat → UInt8) {s : Poly Int32 × Nat} (hs : Accepted s) :
    Accepted (sampleBlock bytes s) := by
  refine countUp_invariant (fun _ s => Accepted s) hs fun group _ s hs => ?_
  split
  · next h => exact sampleGroup_accepted bytes group hs h
  · exact hs

theorem sampleLoop_canonical (stream : Nat → UInt8) {fuel block : Nat} {s : Poly Int32 × Nat}
    (hs : Accepted s) {f : Poly Int32} (h : sampleLoop stream fuel block s = some f) :
    AllCanonical f := by
  induction fuel generalizing block s with
  | zero => exact absurd h (by simp [sampleLoop])
  | succ fuel ih =>
    rw [sampleLoop] at h
    split at h
    · exact ih (sampleBlock_accepted _ hs) h
    · next hfull =>
      obtain rfl := Option.some_inj.mp h
      exact fun k hk => hs.2 k (by omega)

theorem sampleNtt_canonical (stream : Nat → UInt8) {fuel : Nat} {output f : Poly Int32}
    (h : sampleNtt stream fuel output = some f) : AllCanonical f :=
  sampleLoop_canonical stream ⟨Nat.zero_le _, fun k hk => absurd hk (Nat.not_lt_zero k)⟩ h

theorem sampleLoop_mono (stream : Nat → UInt8) {fuel more block : Nat} {s : Poly Int32 × Nat}
    {f : Poly Int32} (h : sampleLoop stream fuel block s = some f) (hle : fuel ≤ more) :
    sampleLoop stream more block s = some f := by
  induction fuel generalizing more block s with
  | zero => exact absurd h (by simp [sampleLoop])
  | succ fuel ih =>
    obtain ⟨more, rfl⟩ := Nat.exists_eq_add_of_le' (show 1 ≤ more by omega)
    rw [sampleLoop] at h ⊢
    split at h
    · next hroom =>
      rw [if_pos hroom]
      exact ih h (by omega)
    · next hroom =>
      rw [if_neg hroom]
      exact h

end LiberaCrypt.MlKemAuxiliary
