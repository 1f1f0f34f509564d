import LiberaCrypt.Poly1305
import LiberaCrypt.WordArithmetic

namespace LiberaCrypt.Poly1305Limbs

open LiberaCrypt.CheckedWords LiberaCrypt.Endian LiberaCrypt.Poly1305

def prime : Nat := 2 ^ 130 - 5

def value32 (h : FiveLimbs UInt32) : Nat :=
  h.l0.toNat + 2 ^ 26 * h.l1.toNat + 2 ^ 52 * h.l2.toNat + 2 ^ 78 * h.l3.toNat + 2 ^ 104 * h.l4.toNat

def value64 (d : FiveLimbs UInt64) : Nat :=
  d.l0.toNat + 2 ^ 26 * d.l1.toNat + 2 ^ 52 * d.l2.toNat + 2 ^ 78 * d.l3.toNat + 2 ^ 104 * d.l4.toNat

structure Below (bound : Nat) (h : FiveLimbs UInt32) : Prop where
  l0 : h.l0.toNat < bound
  l1 : h.l1.toNat < bound
  l2 : h.l2.toNat < bound
  l3 : h.l3.toNat < bound
  l4 : h.l4.toNat < bound

/-- The accumulator between two blocks: only `h1` can have kept a carry. -/
structure Carried (h : FiveLimbs UInt32) : Prop where
  l0 : h.l0.toNat < 2 ^ 26
  l1 : h.l1.toNat < 2 ^ 26 + 2 ^ 6
  l2 : h.l2.toNat < 2 ^ 26
  l3 : h.l3.toNat < 2 ^ 26
  l4 : h.l4.toNat < 2 ^ 26

theorem modEq_of_add {a b k : Nat} (h : a + prime * k = b) : a ≡ b [MOD prime] := by
  rw [← h]
  exact (Nat.modEq_iff_dvd' (Nat.le_add_right _ _)).mpr ⟨k, Nat.add_sub_cancel_left _ _⟩

section Words

theorem toNat_limbMask (a : UInt32) : (a &&& limbMask).toNat = a.toNat % 2 ^ 26 :=
  toNat_mask32 a limbMask rfl

theorem toNat_carry32 (a : UInt32) : (a >>> 26).toNat = a.toNat / 2 ^ 26 :=
  toNat_shift32 a 26 (by decide)

theorem toNat_straddle (low high : UInt32) {k : Nat} (hk : 0 < k) (hk' : k < 32) :
    ((low >>> UInt32.ofNat k) ||| (high <<< UInt32.ofNat (32 - k))).toNat % 2 ^ 26 =
      (low.toNat + 2 ^ 32 * high.toNat) / 2 ^ k % 2 ^ 26 := by
  have hshift : (UInt32.ofNat (32 - k)).toNat % 32 = 32 - k := by
    rw [UInt32.toNat_ofNat', Nat.mod_eq_of_lt (a := 32 - k) (by omega),
      Nat.mod_eq_of_lt (by omega)]
  have hwidth : 2 ^ 32 = 2 ^ k * 2 ^ (32 - k) := by
    rw [← pow_add, Nat.add_sub_cancel' hk'.le]
  have hlow : low.toNat / 2 ^ k < 2 ^ (32 - k) := by
    apply Nat.div_lt_of_lt_mul
    rw [← hwidth]
    exact low.toNat_lt
  have hhigh : high.toNat * 2 ^ (32 - k) % 2 ^ 32 = 2 ^ (32 - k) * (high.toNat % 2 ^ k) := by
    rw [hwidth, Nat.mul_comm high.toNat, Nat.mul_comm (2 ^ k), Nat.mul_mod_mul_left]
  have hor : (low >>> UInt32.ofNat k ||| high <<< UInt32.ofNat (32 - k)).toNat =
      high.toNat * 2 ^ (32 - k) % 2 ^ 32 + low.toNat / 2 ^ k := by
    rw [UInt32.toNat_or, toNat_shift32 low k hk', UInt32.toNat_shiftLeft, hshift, Nat.shiftLeft_eq,
      hhigh, Nat.two_pow_add_eq_or_of_lt hlow, Nat.or_comm]
  have hdiv : (low.toNat + 2 ^ 32 * high.toNat) / 2 ^ k =
      high.toNat * 2 ^ (32 - k) + low.toNat / 2 ^ k := by
    rw [hwidth, Nat.mul_assoc, Nat.add_mul_div_left _ _ (by positivity), Nat.add_comm,
      Nat.mul_comm high.toNat]
  rw [hor, hdiv, Nat.add_mod, Nat.mod_mod_of_dvd _ (by norm_num), ← Nat.add_mod]

end Words

section AddMessage

def blockValue (message : List UInt8) : Nat :=
  (cryptoLoad32Le message).toNat + 2 ^ 32 * (cryptoLoad32Le (message.drop 4)).toNat +
    2 ^ 64 * (cryptoLoad32Le (message.drop 8)).toNat +
    2 ^ 96 * (cryptoLoad32Le (message.drop 12)).toNat

def addMessageChecked (highBit : UInt32) (h : FiveLimbs UInt32) (message : List UInt8) :
    Option (FiveLimbs UInt32) := do
  let t0 := cryptoLoad32Le message
  let t1 := cryptoLoad32Le (message.drop 4)
  let t2 := cryptoLoad32Le (message.drop 8)
  let t3 := cryptoLoad32Le (message.drop 12)
  let h0 ← add32 h.l0 (t0 &&& limbMask)
  let h1 ← add32 h.l1 (((t0 >>> 26) ||| (t1 <<< 6)) &&& limbMask)
  let h2 ← add32 h.l2 (((t1 >>> 20) ||| (t2 <<< 12)) &&& limbMask)
  let h3 ← add32 h.l3 (((t2 >>> 14) ||| (t3 <<< 18)) &&& limbMask)
  let h4 ← add32 h.l4 ((t3 >>> 8) ||| highBit)
  pure ⟨h0, h1, h2, h3, h4⟩

theorem blockValue_limbs (message : List UInt8) :
    let t0 := cryptoLoad32Le message
    let t1 := cryptoLoad32Le (message.drop 4)
    let t2 := cryptoLoad32Le (message.drop 8)
    let t3 := cryptoLoad32Le (message.drop 12)
    (t0 &&& limbMask).toNat + 2 ^ 26 * (((t0 >>> 26) ||| (t1 <<< 6)) &&& limbMask).toNat +
      2 ^ 52 * (((t1 >>> 20) ||| (t2 <<< 12)) &&& limbMask).toNat +
      2 ^ 78 * (((t2 >>> 14) ||| (t3 <<< 18)) &&& limbMask).toNat +
      2 ^ 104 * (t3 >>> 8).toNat = blockValue message := by
  intro t0 t1 t2 t3
  have hvalue : blockValue message =
      t0.toNat + 2 ^ 32 * t1.toNat + 2 ^ 64 * t2.toNat + 2 ^ 96 * t3.toNat := rfl
  have h0 := t0.toNat_lt
  have h1 := t1.toNat_lt
  have h2 := t2.toNat_lt
  have hlimb1 := toNat_straddle t0 t1 (k := 26) (by decide) (by decide)
  have hlimb2 := toNat_straddle t1 t2 (k := 20) (by decide) (by decide)
  have hlimb3 := toNat_straddle t2 t3 (k := 14) (by decide) (by decide)
  have hlimb4 : (t3 >>> 8).toNat = t3.toNat / 2 ^ 8 := toNat_shift32 t3 8 (by decide)
  rw [toNat_limbMask, toNat_limbMask, toNat_limbMask, toNat_limbMask, hlimb4, hvalue]
  have hlimb1' : (t0 >>> 26 ||| t1 <<< 6).toNat % 2 ^ 26 =
    (t0.toNat + 2 ^ 32 * t1.toNat) / 2 ^ 26 % 2 ^ 26 := hlimb1
  have hlimb2' : (t1 >>> 20 ||| t2 <<< 12).toNat % 2 ^ 26 =
    (t1.toNat + 2 ^ 32 * t2.toNat) / 2 ^ 20 % 2 ^ 26 := hlimb2
  have hlimb3' : (t2 >>> 14 ||| t3 <<< 18).toNat % 2 ^ 26 =
    (t2.toNat + 2 ^ 32 * t3.toNat) / 2 ^ 14 % 2 ^ 26 := hlimb3
  rw [hlimb1', hlimb2', hlimb3']
  generalize t0.toNat = a at *
  generalize t1.toNat = b at *
  generalize t2.toNat = c at *
  generalize t3.toNat = e at *
  clear hlimb1 hlimb2 hlimb3 hlimb1' hlimb2' hlimb3' hlimb4 hvalue
  omega

variable {highBit : UInt32} {h : FiveLimbs UInt32}

/-- The bit above the last limb is that of a full block, or there is none. -/
def EndBit (highBit : UInt32) : Prop := highBit = fullBlockBit ∨ highBit = 0

theorem toNat_endLimb (hbit : EndBit highBit) (t : UInt32) :
    ((t >>> 8) ||| highBit).toNat = (t >>> 8).toNat + highBit.toNat ∧
      (t >>> 8).toNat < 2 ^ 24 ∧ highBit.toNat ≤ 2 ^ 24 := by
  have hlimb : (t >>> 8).toNat = t.toNat / 2 ^ 8 := toNat_shift32 t 8 (by decide)
  have htop := t.toNat_lt
  have hlt : (t >>> 8).toNat < 2 ^ 24 := by omega
  refine ⟨?_, hlt, ?_⟩
  · cases hbit with
    | inl hfull =>
      have hor := Nat.two_pow_add_eq_or_of_lt hlt 1
      rw [hfull, UInt32.toNat_or, Nat.or_comm, Nat.add_comm]
      simpa [fullBlockBit] using hor.symm
    | inr hzero => rw [hzero, UInt32.or_zero, UInt32.toNat_zero, Nat.add_zero]
  · rcases hbit with rfl | rfl <;> decide

theorem addMessage_exact (hbit : EndBit highBit) (hh : Carried h) (message : List UInt8) :
    addMessageChecked highBit h message = some (addMessage highBit h message) ∧
      Below (2 ^ 27 + 2 ^ 6) (addMessage highBit h message) ∧
      value32 (addMessage highBit h message) =
        value32 h + blockValue message + 2 ^ 104 * highBit.toNat := by
  obtain ⟨hend, htop, hbound⟩ := toNat_endLimb hbit (cryptoLoad32Le (message.drop 12))
  have hlimbs := blockValue_limbs message
  have hmask : ∀ t : UInt32, (t &&& limbMask).toNat < 2 ^ 26 := by
    intro t
    rw [toNat_limbMask]
    exact Nat.mod_lt _ (by decide)
  have h0 := hh.l0
  have h1 := hh.l1
  have h2 := hh.l2
  have h3 := hh.l3
  have h4 := hh.l4
  have hm0 := hmask (cryptoLoad32Le message)
  have hm1 := hmask ((cryptoLoad32Le message >>> 26) ||| (cryptoLoad32Le (message.drop 4) <<< 6))
  have hm2 := hmask
    ((cryptoLoad32Le (message.drop 4) >>> 20) ||| (cryptoLoad32Le (message.drop 8) <<< 12))
  have hm3 := hmask
    ((cryptoLoad32Le (message.drop 8) >>> 14) ||| (cryptoLoad32Le (message.drop 12) <<< 18))
  unfold addMessageChecked addMessage
  dsimp only at hlimbs ⊢
  generalize cryptoLoad32Le message &&& limbMask = m0 at *
  generalize ((cryptoLoad32Le message >>> 26) ||| (cryptoLoad32Le (message.drop 4) <<< 6)) &&&
    limbMask = m1 at *
  generalize ((cryptoLoad32Le (message.drop 4) >>> 20) |||
    (cryptoLoad32Le (message.drop 8) <<< 12)) &&& limbMask = m2 at *
  generalize ((cryptoLoad32Le (message.drop 8) >>> 14) |||
    (cryptoLoad32Le (message.drop 12) <<< 18)) &&& limbMask = m3 at *
  generalize hm4 : (cryptoLoad32Le (message.drop 12) >>> 8) ||| highBit = m4 at *
  have e0 : (h.l0 + m0).toNat = h.l0.toNat + m0.toNat := toNat_add32 (by omega)
  have e1 : (h.l1 + m1).toNat = h.l1.toNat + m1.toNat := toNat_add32 (by omega)
  have e2 : (h.l2 + m2).toNat = h.l2.toNat + m2.toNat := toNat_add32 (by omega)
  have e3 : (h.l3 + m3).toNat = h.l3.toNat + m3.toNat := toNat_add32 (by omega)
  have e4 : (h.l4 + m4).toNat = h.l4.toNat + m4.toNat := toNat_add32 (by omega)
  refine ⟨?_, ⟨?_, ?_, ?_, ?_, ?_⟩, ?_⟩
  · rw [add32_eq (by omega), add32_eq (by omega), add32_eq (by omega), add32_eq (by omega),
      add32_eq (by omega)]
    rfl
  · rw [e0]
    omega
  · rw [e1]
    omega
  · rw [e2]
    omega
  · rw [e3]
    omega
  · rw [e4]
    omega
  · unfold value32
    dsimp only
    rw [e0, e1, e2, e3, e4, hend]
    linear_combination hlimbs

end AddMessage

section Multiply

def sumOfProductsChecked (h : FiveLimbs UInt32) (a0 a1 a2 a3 a4 : UInt32) : Option UInt64 := do
  let p0 ← mul64 h.l0.toUInt64 a0.toUInt64
  let p1 ← mul64 h.l1.toUInt64 a1.toUInt64
  let p2 ← mul64 h.l2.toUInt64 a2.toUInt64
  let p3 ← mul64 h.l3.toUInt64 a3.toUInt64
  let p4 ← mul64 h.l4.toUInt64 a4.toUInt64
  let sum ← add64 p0 p1
  let sum ← add64 sum p2
  let sum ← add64 sum p3
  add64 sum p4

def multiplyChecked (r h : FiveLimbs UInt32) : Option (FiveLimbs UInt64) := do
  let s1 ← mul32 r.l1 5
  let s2 ← mul32 r.l2 5
  let s3 ← mul32 r.l3 5
  let s4 ← mul32 r.l4 5
  let d0 ← sumOfProductsChecked h r.l0 s4 s3 s2 s1
  let d1 ← sumOfProductsChecked h r.l1 r.l0 s4 s3 s2
  let d2 ← sumOfProductsChecked h r.l2 r.l1 r.l0 s4 s3
  let d3 ← sumOfProductsChecked h r.l3 r.l2 r.l1 r.l0 s4
  let d4 ← sumOfProductsChecked h r.l4 r.l3 r.l2 r.l1 r.l0
  pure ⟨d0, d1, d2, d3, d4⟩

/-- The sums of products; the last one has no factor five in it. -/
structure Products (d : FiveLimbs UInt64) : Prop where
  l0 : d.l0.toNat < 7 * 2 ^ 55
  l1 : d.l1.toNat < 7 * 2 ^ 55
  l2 : d.l2.toNat < 7 * 2 ^ 55
  l3 : d.l3.toNat < 7 * 2 ^ 55
  l4 : d.l4.toNat < 3 * 2 ^ 54

theorem toNat_product {a b : UInt32} {H A : Nat} (ha : a.toNat < H) (hb : b.toNat ≤ A)
    (hbound : H * A < 2 ^ 64) :
    mul64 a.toUInt64 b.toUInt64 = some (a.toUInt64 * b.toUInt64) ∧
      (a.toUInt64 * b.toUInt64).toNat = a.toNat * b.toNat ∧ a.toNat * b.toNat ≤ H * A := by
  have hle : a.toNat * b.toNat ≤ H * A := Nat.mul_le_mul ha.le hb
  have hlt : a.toUInt64.toNat * b.toUInt64.toNat < 2 ^ 64 := by
    rw [UInt32.toNat_toUInt64, UInt32.toNat_toUInt64]
    exact hle.trans_lt hbound
  exact ⟨mul64_eq hlt, (toNat_mul64 hlt).trans (by simp), hle⟩

/-- Five products of which each is at most `H * A`. -/
theorem sumOfProducts_exact {h : FiveLimbs UInt32} {H : Nat} (hh : Below H h) (A : Nat)
    (a0 a1 a2 a3 a4 : UInt32) (h0 : a0.toNat ≤ A) (h1 : a1.toNat ≤ A) (h2 : a2.toNat ≤ A)
    (h3 : a3.toNat ≤ A) (h4 : a4.toNat ≤ A) (hbound : 5 * (H * A) < 2 ^ 64) :
    sumOfProductsChecked h a0 a1 a2 a3 a4 = some (sumOfProducts h a0 a1 a2 a3 a4) ∧
      (sumOfProducts h a0 a1 a2 a3 a4).toNat = h.l0.toNat * a0.toNat + h.l1.toNat * a1.toNat +
        h.l2.toNat * a2.toNat + h.l3.toNat * a3.toNat + h.l4.toNat * a4.toNat ∧
      (sumOfProducts h a0 a1 a2 a3 a4).toNat ≤ 5 * (H * A) := by
  have hone : H * A < 2 ^ 64 := by omega
  obtain ⟨c0, e0, b0⟩ := toNat_product hh.l0 h0 hone
  obtain ⟨c1, e1, b1⟩ := toNat_product hh.l1 h1 hone
  obtain ⟨c2, e2, b2⟩ := toNat_product hh.l2 h2 hone
  obtain ⟨c3, e3, b3⟩ := toNat_product hh.l3 h3 hone
  obtain ⟨c4, e4, b4⟩ := toNat_product hh.l4 h4 hone
  unfold sumOfProductsChecked sumOfProducts
  rw [c0, c1, c2, c3, c4]
  generalize h.l0.toUInt64 * a0.toUInt64 = p0 at *
  generalize h.l1.toUInt64 * a1.toUInt64 = p1 at *
  generalize h.l2.toUInt64 * a2.toUInt64 = p2 at *
  generalize h.l3.toUInt64 * a3.toUInt64 = p3 at *
  generalize h.l4.toUInt64 * a4.toUInt64 = p4 at *
  rw [← e0] at b0 ⊢
  rw [← e1] at b1 ⊢
  rw [← e2] at b2 ⊢
  rw [← e3] at b3 ⊢
  rw [← e4] at b4 ⊢
  generalize H * A = bound at *
  have s1 : (p0 + p1).toNat = p0.toNat + p1.toNat := toNat_add64 (by omega)
  have s2 : (p0 + p1 + p2).toNat = (p0 + p1).toNat + p2.toNat := toNat_add64 (by omega)
  have s3 : (p0 + p1 + p2 + p3).toNat = (p0 + p1 + p2).toNat + p3.toNat := toNat_add64 (by omega)
  have s4 : (p0 + p1 + p2 + p3 + p4).toNat = (p0 + p1 + p2 + p3).toNat + p4.toNat :=
    toNat_add64 (by omega)
  refine ⟨?_, ?_, ?_⟩
  · have k1 : add64 p0 p1 = some (p0 + p1) := add64_eq (by omega)
    have k2 : add64 (p0 + p1) p2 = some (p0 + p1 + p2) := add64_eq (by omega)
    have k3 : add64 (p0 + p1 + p2) p3 = some (p0 + p1 + p2 + p3) := add64_eq (by omega)
    have k4 : add64 (p0 + p1 + p2 + p3) p4 = some (p0 + p1 + p2 + p3 + p4) := add64_eq (by omega)
    simp only [Option.bind_eq_bind, Option.bind_some, k1, k2, k3, k4]
  · rw [s4, s3, s2, s1]
  · rw [s4, s3, s2, s1]
    omega

theorem multiply_exact {r h : FiveLimbs UInt32} (hr : Below (2 ^ 26) r)
    (hh : Below (2 ^ 27 + 2 ^ 6) h) :
    multiplyChecked r h = some (multiply r h) ∧
      Products (multiply r h) ∧
      ∃ wraps, value64 (multiply r h) + prime * wraps = value32 h * value32 r := by
  have r0 := hr.l0
  have r1 := hr.l1
  have r2 := hr.l2
  have r3 := hr.l3
  have r4 := hr.l4
  have hfive : ∀ {a : UInt32}, a.toNat < 2 ^ 26 →
      mul32 a 5 = some (a * 5) ∧ (a * 5).toNat = a.toNat * 5 := by
    intro a ha
    have hlt : a.toNat * (5 : UInt32).toNat < 2 ^ 32 := by
      change a.toNat * 5 < 2 ^ 32
      omega
    exact ⟨mul32_eq hlt, toNat_mul32 hlt⟩
  obtain ⟨c1, s1⟩ := hfive r1
  obtain ⟨c2, s2⟩ := hfive r2
  obtain ⟨c3, s3⟩ := hfive r3
  obtain ⟨c4, s4⟩ := hfive r4
  obtain ⟨k0, e0, b0⟩ := sumOfProducts_exact hh (5 * 2 ^ 26) r.l0 (r.l4 * 5) (r.l3 * 5) (r.l2 * 5)
    (r.l1 * 5) (by omega) (by omega) (by omega) (by omega) (by omega) (by norm_num)
  obtain ⟨k1, e1, b1⟩ := sumOfProducts_exact hh (5 * 2 ^ 26) r.l1 r.l0 (r.l4 * 5) (r.l3 * 5)
    (r.l2 * 5) (by omega) (by omega) (by omega) (by omega) (by omega) (by norm_num)
  obtain ⟨k2, e2, b2⟩ := sumOfProducts_exact hh (5 * 2 ^ 26) r.l2 r.l1 r.l0 (r.l4 * 5) (r.l3 * 5)
    (by omega) (by omega) (by omega) (by omega) (by omega) (by norm_num)
  obtain ⟨k3, e3, b3⟩ := sumOfProducts_exact hh (5 * 2 ^ 26) r.l3 r.l2 r.l1 r.l0 (r.l4 * 5)
    (by omega) (by omega) (by omega) (by omega) (by omega) (by norm_num)
  obtain ⟨k4, e4, b4⟩ := sumOfProducts_exact hh (2 ^ 26) r.l4 r.l3 r.l2 r.l1 r.l0
    (by omega) (by omega) (by omega) (by omega) (by omega) (by norm_num)
  refine ⟨?_, ⟨by unfold multiply; dsimp only; omega, by unfold multiply; dsimp only; omega,
    by unfold multiply; dsimp only; omega, by unfold multiply; dsimp only; omega,
    by unfold multiply; dsimp only; omega⟩, ?_⟩
  · simp only [multiplyChecked, c1, c2, c3, c4, k0, k1, k2, k3, k4, Option.bind_eq_bind,
      Option.bind_some]
    rfl
  -- the products whose weight is at least 2^130
  · refine ⟨h.l4.toNat * r.l1.toNat + h.l3.toNat * r.l2.toNat + h.l2.toNat * r.l3.toNat +
      h.l1.toNat * r.l4.toNat + 2 ^ 26 * (h.l4.toNat * r.l2.toNat + h.l3.toNat * r.l3.toNat +
      h.l2.toNat * r.l4.toNat) + 2 ^ 52 * (h.l4.toNat * r.l3.toNat + h.l3.toNat * r.l4.toNat) +
      2 ^ 78 * (h.l4.toNat * r.l4.toNat), ?_⟩
    have hprime : prime + 5 = 2 ^ 130 := by norm_num [prime]
    unfold value64 value32 multiply
    dsimp only
    rw [e0, e1, e2, e3, e4, s1, s2, s3, s4]
    linear_combination (h.l4.toNat * r.l1.toNat + h.l3.toNat * r.l2.toNat +
      h.l2.toNat * r.l3.toNat + h.l1.toNat * r.l4.toNat + 2 ^ 26 * (h.l4.toNat * r.l2.toNat +
      h.l3.toNat * r.l3.toNat + h.l2.toNat * r.l4.toNat) + 2 ^ 52 * (h.l4.toNat * r.l3.toNat +
      h.l3.toNat * r.l4.toNat) + 2 ^ 78 * (h.l4.toNat * r.l4.toNat)) * hprime

end Multiply

section Carry

def carryLimbsChecked (d : FiveLimbs UInt64) : Option (FiveLimbs UInt32) := do
  let carry ← narrow (d.l0 >>> 26)
  let h0 := d.l0.toUInt32 &&& limbMask
  let d1 ← add64 d.l1 carry.toUInt64
  let carry ← narrow (d1 >>> 26)
  let h1 := d1.toUInt32 &&& limbMask
  let d2 ← add64 d.l2 carry.toUInt64
  let carry ← narrow (d2 >>> 26)
  let h2 := d2.toUInt32 &&& limbMask
  let d3 ← add64 d.l3 carry.toUInt64
  let carry ← narrow (d3 >>> 26)
  let h3 := d3.toUInt32 &&& limbMask
  let d4 ← add64 d.l4 carry.toUInt64
  let carry ← narrow (d4 >>> 26)
  let h4 := d4.toUInt32 &&& limbMask
  let five ← mul32 carry 5
  let h0 ← add32 h0 five
  let carry := h0 >>> 26
  let h0 := h0 &&& limbMask
  let h1 ← add32 h1 carry
  pure ⟨h0, h1, h2, h3, h4⟩

theorem split_exact {d : UInt64} (h : d.toNat < 2 ^ 58) :
    narrow (d >>> 26) = some (d >>> 26).toUInt32 ∧
      (d >>> 26).toUInt32.toNat = d.toNat / 2 ^ 26 ∧
      (d.toUInt32 &&& limbMask).toNat = d.toNat % 2 ^ 26 := by
  have hshift : (d >>> 26).toNat = d.toNat / 2 ^ 26 := toNat_shift64 d 26 (by decide)
  have hlt : (d >>> 26).toNat < 2 ^ 32 := by omega
  refine ⟨narrow_eq hlt, (toNat_narrow hlt).trans hshift, ?_⟩
  rw [toNat_limbMask, UInt64.toNat_toUInt32]
  exact Nat.mod_mod_of_dvd _ (by norm_num)

theorem carryInto_exact {d : UInt64} {c : UInt32} (h : d.toNat + c.toNat < 2 ^ 64) :
    add64 d c.toUInt64 = some (d + c.toUInt64) ∧
      (d + c.toUInt64).toNat = d.toNat + c.toNat := by
  have hlt : d.toNat + c.toUInt64.toNat < 2 ^ 64 := by rwa [UInt32.toNat_toUInt64]
  exact ⟨add64_eq hlt, by rw [toNat_add64 hlt, UInt32.toNat_toUInt64]⟩

theorem carryLimbs_exact {d : FiveLimbs UInt64} (hd : Products d) :
    carryLimbsChecked d = some (carryLimbs d) ∧ Carried (carryLimbs d) ∧
      ∃ wraps, value32 (carryLimbs d) + prime * wraps = value64 d := by
  have h0 := hd.l0
  have h1 := hd.l1
  have h2 := hd.l2
  have h3 := hd.l3
  have h4 := hd.l4
  obtain ⟨k0, c0, m0⟩ := split_exact (d := d.l0) (by omega)
  unfold carryLimbsChecked carryLimbs value64
  dsimp only
  rw [k0]
  generalize (d.l0 >>> 26).toUInt32 = carry0 at *
  generalize hx0 : d.l0.toUInt32 &&& limbMask = x0 at *
  obtain ⟨a1, e1⟩ := carryInto_exact (d := d.l1) (c := carry0) (by omega)
  obtain ⟨k1, c1, m1⟩ := split_exact (d := d.l1 + carry0.toUInt64) (by omega)
  generalize d.l1 + carry0.toUInt64 = d1 at *
  generalize (d1 >>> 26).toUInt32 = carry1 at *
  generalize hx1 : d1.toUInt32 &&& limbMask = x1 at *
  obtain ⟨a2, e2⟩ := carryInto_exact (d := d.l2) (c := carry1) (by omega)
  obtain ⟨k2, c2, m2⟩ := split_exact (d := d.l2 + carry1.toUInt64) (by omega)
  generalize d.l2 + carry1.toUInt64 = d2 at *
  generalize (d2 >>> 26).toUInt32 = carry2 at *
  generalize hx2 : d2.toUInt32 &&& limbMask = x2 at *
  obtain ⟨a3, e3⟩ := carryInto_exact (d := d.l3) (c := carry2) (by omega)
  obtain ⟨k3, c3, m3⟩ := split_exact (d := d.l3 + carry2.toUInt64) (by omega)
  generalize d.l3 + carry2.toUInt64 = d3 at *
  generalize (d3 >>> 26).toUInt32 = carry3 at *
  generalize hx3 : d3.toUInt32 &&& limbMask = x3 at *
  obtain ⟨a4, e4⟩ := carryInto_exact (d := d.l4) (c := carry3) (by omega)
  obtain ⟨k4, c4, m4⟩ := split_exact (d := d.l4 + carry3.toUInt64) (by omega)
  generalize d.l4 + carry3.toUInt64 = d4 at *
  generalize (d4 >>> 26).toUInt32 = carry4 at *
  generalize hx4 : d4.toUInt32 &&& limbMask = x4 at *
  have hfive : carry4.toNat * (5 : UInt32).toNat < 2 ^ 32 := by
    change carry4.toNat * 5 < 2 ^ 32
    omega
  have efive : (carry4 * 5).toNat = carry4.toNat * 5 := toNat_mul32 hfive
  have hwrap : x0.toNat + (carry4 * 5).toNat < 2 ^ 32 := by omega
  have ewrap := toNat_add32 hwrap
  have emask := toNat_limbMask (x0 + carry4 * 5)
  have ecarry := toNat_carry32 (x0 + carry4 * 5)
  have hlast : x1.toNat + ((x0 + carry4 * 5) >>> 26).toNat < 2 ^ 32 := by omega
  have elast := toNat_add32 hlast
  have kfive := mul32_eq hfive
  have kwrap := add32_eq hwrap
  have klast := add32_eq hlast
  refine ⟨?_, ⟨?_, ?_, ?_, ?_, ?_⟩, carry4.toNat, ?_⟩
  · simp only [Option.bind_eq_bind, Option.bind_some, a1, k1, a2, k2, a3, k3, a4, k4, kfive, kwrap,
      hx1, hx2, hx3, hx4, klast]
    rfl
  · exact emask.trans_lt (Nat.mod_lt _ (by decide))
  · exact elast.trans_lt (by omega)
  · exact m2.trans_lt (by omega)
  · exact m3.trans_lt (by omega)
  · exact m4.trans_lt (by omega)
  · have hprime : prime + 5 = 2 ^ 130 := by norm_num [prime]
    have hbottom : (x0 + carry4 * 5 &&& limbMask).toNat +
        2 ^ 26 * ((x0 + carry4 * 5) >>> 26).toNat = x0.toNat + carry4.toNat * 5 := by omega
    have hs0 : x0.toNat + 2 ^ 26 * carry0.toNat = d.l0.toNat := by omega
    have hs1 : x1.toNat + 2 ^ 26 * carry1.toNat = d.l1.toNat + carry0.toNat := by omega
    have hs2 : x2.toNat + 2 ^ 26 * carry2.toNat = d.l2.toNat + carry1.toNat := by omega
    have hs3 : x3.toNat + 2 ^ 26 * carry3.toNat = d.l3.toNat + carry2.toNat := by omega
    have hs4 : x4.toNat + 2 ^ 26 * carry4.toNat = d.l4.toNat + carry3.toNat := by omega
    unfold value32
    dsimp only
    rw [elast]
    linear_combination hbottom + hs0 + 2 ^ 26 * hs1 + 2 ^ 52 * hs2 + 2 ^ 78 * hs3 + 2 ^ 104 * hs4 +
      carry4.toNat * hprime

end Carry

section Block

def poly1305BlockChecked (highBit : UInt32) (r h : FiveLimbs UInt32) (message : List UInt8) :
    Option (FiveLimbs UInt32) := do
  let sum ← addMessageChecked highBit h message
  let d ← multiplyChecked r sum
  carryLimbsChecked d

/-- A block is exact, keeps the bounds of the limbs, and is a step of the evaluation. -/
theorem poly1305Block_exact {highBit : UInt32} {r h : FiveLimbs UInt32} (hbit : EndBit highBit)
    (hr : Below (2 ^ 26) r) (hh : Carried h) (message : List UInt8) :
    poly1305BlockChecked highBit r h message = some (poly1305Block highBit r h message) ∧
      Carried (poly1305Block highBit r h message) ∧
      value32 (poly1305Block highBit r h message) ≡
        (value32 h + (blockValue message + 2 ^ 104 * highBit.toNat)) * value32 r [MOD prime] := by
  obtain ⟨hadd, hbelow, hsum⟩ := addMessage_exact hbit hh message
  obtain ⟨hmul, hproducts, w, hw⟩ := multiply_exact hr hbelow
  obtain ⟨hcarry, hcarried, v, hv⟩ := carryLimbs_exact hproducts
  refine ⟨?_, hcarried, ?_⟩
  · simp only [poly1305BlockChecked, hadd, hmul, hcarry, Option.bind_eq_bind, Option.bind_some]
    rfl
  · have htotal : value32 (poly1305Block highBit r h message) + prime * (v + w) =
        (value32 h + (blockValue message + 2 ^ 104 * highBit.toNat)) * value32 r := by
      rw [← Nat.add_assoc (value32 h), ← hsum, ← hw, ← hv]
      unfold poly1305Block
      ring
    exact modEq_of_add htotal

end Block

section Final

def finalCarryChecked (h : FiveLimbs UInt32) : Option (FiveLimbs UInt32) := do
  let carry := h.l1 >>> 26
  let h1 := h.l1 &&& limbMask
  let h2 ← add32 h.l2 carry
  let carry := h2 >>> 26
  let h2 := h2 &&& limbMask
  let h3 ← add32 h.l3 carry
  let carry := h3 >>> 26
  let h3 := h3 &&& limbMask
  let h4 ← add32 h.l4 carry
  let carry := h4 >>> 26
  let h4 := h4 &&& limbMask
  let five ← mul32 carry 5
  let h0 ← add32 h.l0 five
  let carry := h0 >>> 26
  let h0 := h0 &&& limbMask
  let h1 ← add32 h1 carry
  pure ⟨h0, h1, h2, h3, h4⟩

/-- One pass leaves no carry: the top limb gives one only if the kept carry of `h1` ran through. -/
theorem finalCarry_exact {h : FiveLimbs UInt32} (hh : Carried h) :
    finalCarryChecked h = some (finalCarry h) ∧ Below (2 ^ 26) (finalCarry h) ∧
      value32 (finalCarry h) ≡ value32 h [MOD prime] := by
  have h0 := hh.l0
  have h1 := hh.l1
  have h2 := hh.l2
  have h3 := hh.l3
  have h4 := hh.l4
  unfold finalCarryChecked finalCarry
  dsimp only
  have c1 := toNat_carry32 h.l1
  have m1 := toNat_limbMask h.l1
  generalize hk1 : h.l1 >>> 26 = carry1 at *
  generalize hx1 : h.l1 &&& limbMask = x1 at *
  have e2 : (h.l2 + carry1).toNat = h.l2.toNat + carry1.toNat := toNat_add32 (by omega)
  have a2 : add32 h.l2 carry1 = some (h.l2 + carry1) := add32_eq (by omega)
  have c2 := toNat_carry32 (h.l2 + carry1)
  have m2 := toNat_limbMask (h.l2 + carry1)
  generalize hk2 : (h.l2 + carry1) >>> 26 = carry2 at *
  generalize hx2 : (h.l2 + carry1) &&& limbMask = x2 at *
  have e3 : (h.l3 + carry2).toNat = h.l3.toNat + carry2.toNat := toNat_add32 (by omega)
  have a3 : add32 h.l3 carry2 = some (h.l3 + carry2) := add32_eq (by omega)
  have c3 := toNat_carry32 (h.l3 + carry2)
  have m3 := toNat_limbMask (h.l3 + carry2)
  generalize hk3 : (h.l3 + carry2) >>> 26 = carry3 at *
  generalize hx3 : (h.l3 + carry2) &&& limbMask = x3 at *
  have e4 : (h.l4 + carry3).toNat = h.l4.toNat + carry3.toNat := toNat_add32 (by omega)
  have a4 : add32 h.l4 carry3 = some (h.l4 + carry3) := add32_eq (by omega)
  have c4 := toNat_carry32 (h.l4 + carry3)
  have m4 := toNat_limbMask (h.l4 + carry3)
  generalize hk4 : (h.l4 + carry3) >>> 26 = carry4 at *
  generalize hx4 : (h.l4 + carry3) &&& limbMask = x4 at *
  have hfive : carry4.toNat * (5 : UInt32).toNat < 2 ^ 32 := by
    change carry4.toNat * 5 < 2 ^ 32
    omega
  have efive : (carry4 * 5).toNat = carry4.toNat * 5 := toNat_mul32 hfive
  have hwrap : h.l0.toNat + (carry4 * 5).toNat < 2 ^ 32 := by omega
  have ewrap := toNat_add32 hwrap
  have m0 := toNat_limbMask (h.l0 + carry4 * 5)
  have c0 := toNat_carry32 (h.l0 + carry4 * 5)
  have hlast : x1.toNat + ((h.l0 + carry4 * 5) >>> 26).toNat < 2 ^ 26 := by omega
  have elast := toNat_add32 (hlast.trans (by norm_num))
  have kfive := mul32_eq hfive
  have kwrap := add32_eq hwrap
  have klast := add32_eq (hlast.trans (show 2 ^ 26 < 2 ^ 32 by norm_num))
  refine ⟨?_, ⟨?_, ?_, ?_, ?_, ?_⟩, ?_⟩
  · simp only [Option.bind_eq_bind, Option.bind_some, a2, hk2, hx2, a3, hk3, hx3, a4, hk4, hx4,
      kfive, kwrap, klast]
    rfl
  · exact m0.trans_lt (Nat.mod_lt _ (by decide))
  · exact elast.trans_lt hlast
  · exact m2.trans_lt (Nat.mod_lt _ (by decide))
  · exact m3.trans_lt (Nat.mod_lt _ (by decide))
  · exact m4.trans_lt (Nat.mod_lt _ (by decide))
  · have hprime : prime + 5 = 2 ^ 130 := by norm_num [prime]
    have hs0 : (h.l0 + carry4 * 5 &&& limbMask).toNat +
        2 ^ 26 * ((h.l0 + carry4 * 5) >>> 26).toNat = h.l0.toNat + carry4.toNat * 5 := by omega
    have hs1 : x1.toNat + 2 ^ 26 * carry1.toNat = h.l1.toNat := by omega
    have hs2 : x2.toNat + 2 ^ 26 * carry2.toNat = h.l2.toNat + carry1.toNat := by omega
    have hs3 : x3.toNat + 2 ^ 26 * carry3.toNat = h.l3.toNat + carry2.toNat := by omega
    have hs4 : x4.toNat + 2 ^ 26 * carry4.toNat = h.l4.toNat + carry3.toNat := by omega
    have htotal : value32 ⟨h.l0 + carry4 * 5 &&& limbMask, x1 + (h.l0 + carry4 * 5) >>> 26, x2, x3,
        x4⟩ + prime * carry4.toNat = value32 h := by
      unfold value32
      dsimp only
      rw [elast]
      linear_combination hs0 + 2 ^ 26 * hs1 + 2 ^ 52 * hs2 + 2 ^ 78 * hs3 + 2 ^ 104 * hs4 +
        carry4.toNat * hprime
    exact modEq_of_add htotal

/-- The mask keeps all of `g` when its top bit is clear, and all of `h` when it is set. -/
theorem selectReduced_eq (h g : FiveLimbs UInt32) :
    selectReduced h g = if g.l4.toNat < 2 ^ 31 then g else h := by
  have hbit : (g.l4 >>> 31).toNat = g.l4.toNat / 2 ^ 31 := toNat_shift32 g.l4 31 (by decide)
  have htop := g.l4.toNat_lt
  have hones : ∀ x y : UInt32, (x &&& ~~~((0 : UInt32) - 1)) ||| (y &&& (0 - 1)) = y := by
    intro x y
    simp
  have hzeros : ∀ x y : UInt32, (x &&& ~~~((1 : UInt32) - 1)) ||| (y &&& (1 - 1)) = x := by
    intro x y
    simp
  unfold selectReduced
  dsimp only
  split
  case isTrue hclear =>
    have hzero : g.l4 >>> 31 = 0 := UInt32.toNat_inj.mp (by rw [hbit, UInt32.toNat_zero]; omega)
    simp only [hzero, hones]
  case isFalse hset =>
    have hone : g.l4 >>> 31 = 1 := UInt32.toNat_inj.mp (by rw [hbit, UInt32.toNat_one]; omega)
    simp only [hone, hzeros]

/-- The borrow of the last limb is meant: its sign is what the mask is made of. -/
def subtractPrimeChecked (h : FiveLimbs UInt32) : Option (FiveLimbs UInt32) := do
  let g0 ← add32 h.l0 5
  let carry := g0 >>> 26
  let g0 := g0 &&& limbMask
  let g1 ← add32 h.l1 carry
  let carry := g1 >>> 26
  let g1 := g1 &&& limbMask
  let g2 ← add32 h.l2 carry
  let carry := g2 >>> 26
  let g2 := g2 &&& limbMask
  let g3 ← add32 h.l3 carry
  let carry := g3 >>> 26
  let g3 := g3 &&& limbMask
  let g4 ← add32 h.l4 carry
  pure ⟨g0, g1, g2, g3, g4 - ((1 : UInt32) <<< 26)⟩

/-- The four low limbs are reduced, and the last one is the top of `h + 5` less `2^26`. -/
theorem subtractPrime_exact {h : FiveLimbs UInt32} (hh : Below (2 ^ 26) h) :
    subtractPrimeChecked h = some (subtractPrime h) ∧
      (subtractPrime h).l0.toNat < 2 ^ 26 ∧ (subtractPrime h).l1.toNat < 2 ^ 26 ∧
      (subtractPrime h).l2.toNat < 2 ^ 26 ∧ (subtractPrime h).l3.toNat < 2 ^ 26 ∧
      ∃ top ≤ 2 ^ 26, (subtractPrime h).l4.toNat = (2 ^ 32 - 2 ^ 26 + top) % 2 ^ 32 ∧
        (subtractPrime h).l0.toNat + 2 ^ 26 * (subtractPrime h).l1.toNat +
          2 ^ 52 * (subtractPrime h).l2.toNat + 2 ^ 78 * (subtractPrime h).l3.toNat +
          2 ^ 104 * top = value32 h + 5 := by
  have h0 := hh.l0
  have h1 := hh.l1
  have h2 := hh.l2
  have h3 := hh.l3
  have h4 := hh.l4
  unfold subtractPrimeChecked subtractPrime value32
  dsimp only
  have hfive : (5 : UInt32).toNat = 5 := rfl
  generalize (5 : UInt32) = five at *
  have e0 : (h.l0 + five).toNat = h.l0.toNat + five.toNat := toNat_add32 (by omega)
  have a0 : add32 h.l0 five = some (h.l0 + five) := add32_eq (by omega)
  have c0 := toNat_carry32 (h.l0 + five)
  have m0 := toNat_limbMask (h.l0 + five)
  generalize hk0 : (h.l0 + five) >>> 26 = carry0 at *
  generalize hx0 : (h.l0 + five) &&& limbMask = x0 at *
  have e1 : (h.l1 + carry0).toNat = h.l1.toNat + carry0.toNat := toNat_add32 (by omega)
  have a1 : add32 h.l1 carry0 = some (h.l1 + carry0) := add32_eq (by omega)
  have c1 := toNat_carry32 (h.l1 + carry0)
  have m1 := toNat_limbMask (h.l1 + carry0)
  generalize hk1 : (h.l1 + carry0) >>> 26 = carry1 at *
  generalize hx1 : (h.l1 + carry0) &&& limbMask = x1 at *
  have e2 : (h.l2 + carry1).toNat = h.l2.toNat + carry1.toNat := toNat_add32 (by omega)
  have a2 : add32 h.l2 carry1 = some (h.l2 + carry1) := add32_eq (by omega)
  have c2 := toNat_carry32 (h.l2 + carry1)
  have m2 := toNat_limbMask (h.l2 + carry1)
  generalize hk2 : (h.l2 + carry1) >>> 26 = carry2 at *
  generalize hx2 : (h.l2 + carry1) &&& limbMask = x2 at *
  have e3 : (h.l3 + carry2).toNat = h.l3.toNat + carry2.toNat := toNat_add32 (by omega)
  have a3 : add32 h.l3 carry2 = some (h.l3 + carry2) := add32_eq (by omega)
  have c3 := toNat_carry32 (h.l3 + carry2)
  have m3 := toNat_limbMask (h.l3 + carry2)
  generalize hk3 : (h.l3 + carry2) >>> 26 = carry3 at *
  generalize hx3 : (h.l3 + carry2) &&& limbMask = x3 at *
  have e4 : (h.l4 + carry3).toNat = h.l4.toNat + carry3.toNat := toNat_add32 (by omega)
  have a4 : add32 h.l4 carry3 = some (h.l4 + carry3) := add32_eq (by omega)
  have hborrow : (h.l4 + carry3 - ((1 : UInt32) <<< 26)).toNat =
      (2 ^ 32 - 2 ^ 26 + (h.l4.toNat + carry3.toNat)) % 2 ^ 32 := by
    rw [UInt32.toNat_sub, e4]
    rfl
  have hs0 : x0.toNat + 2 ^ 26 * carry0.toNat = h.l0.toNat + 5 := by omega
  have hs1 : x1.toNat + 2 ^ 26 * carry1.toNat = h.l1.toNat + carry0.toNat := by omega
  have hs2 : x2.toNat + 2 ^ 26 * carry2.toNat = h.l2.toNat + carry1.toNat := by omega
  have hs3 : x3.toNat + 2 ^ 26 * carry3.toNat = h.l3.toNat + carry2.toNat := by omega
  refine ⟨?_, by omega, by omega, by omega, by omega, h.l4.toNat + carry3.toNat, by omega, hborrow,
    ?_⟩
  · simp only [Option.bind_eq_bind, Option.bind_some, a0, hk0, hx0, a1, hk1, hx1, a2, hk2, hx2, a3,
      hk3, hx3, a4]
    rfl
  · linear_combination hs0 + 2 ^ 26 * hs1 + 2 ^ 52 * hs2 + 2 ^ 78 * hs3

theorem selectReduced_exact {h : FiveLimbs UInt32} (hh : Below (2 ^ 26) h) :
    Below (2 ^ 26) (selectReduced h (subtractPrime h)) ∧
      value32 (selectReduced h (subtractPrime h)) = value32 h % prime := by
  obtain ⟨-, g0, g1, g2, g3, top, htop, hborrow, htotal⟩ := subtractPrime_exact hh
  have h0 := hh.l0
  have h1 := hh.l1
  have h2 := hh.l2
  have h3 := hh.l3
  have h4 := hh.l4
  rw [selectReduced_eq]
  generalize subtractPrime h = g at *
  split
  case isTrue hclear =>
    have hg4 : g.l4.toNat + 2 ^ 26 = top := by omega
    have hvg : value32 g = g.l0.toNat + 2 ^ 26 * g.l1.toNat + 2 ^ 52 * g.l2.toNat +
      2 ^ 78 * g.l3.toNat + 2 ^ 104 * g.l4.toNat := rfl
    have hvalue : value32 g + prime = value32 h := by
      have hprime : prime + 5 = 2 ^ 130 := by norm_num [prime]
      linear_combination hvg + htotal + 2 ^ 104 * hg4 + hprime
    have hlarge : value32 h < 2 ^ 130 := by
      unfold value32
      omega
    have hg : value32 g < prime := by
      unfold prime at *
      omega
    refine ⟨⟨g0, g1, g2, g3, by omega⟩, ?_⟩
    rw [← hvalue, Nat.add_mod_right, Nat.mod_eq_of_lt hg]
  case isFalse hset =>
    have hlow : top < 2 ^ 26 := by omega
    refine ⟨hh, (Nat.mod_eq_of_lt ?_).symm⟩
    unfold prime
    omega

end Final

end LiberaCrypt.Poly1305Limbs
