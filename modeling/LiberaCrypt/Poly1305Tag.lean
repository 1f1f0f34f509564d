import LiberaCrypt.Endian
import LiberaCrypt.Poly1305Limbs

namespace LiberaCrypt.Poly1305Tag

open LiberaCrypt.BlockBuffer LiberaCrypt.CheckedWords LiberaCrypt.Endian LiberaCrypt.LittleEndian
open LiberaCrypt.Poly1305 LiberaCrypt.Poly1305Limbs LiberaCrypt.Radix

section Spec

def blocks (message : List UInt8) : List (List UInt8) :=
  if _h : message = [] then [] else message.take 16 :: blocks (message.drop 16)
termination_by message.length
decreasing_by
  have hpos := List.length_pos_iff.mpr _h
  rw [List.length_drop]
  omega

def extended (block : List UInt8) : Nat := bytesValue (block ++ [1])

/-- `c₁ x^q + c₂ x^(q-1) + ⋯ + c_q x`. -/
def evaluate (x : Nat) : List Nat → Nat
  | [] => 0
  | c :: cs => c * x ^ (cs.length + 1) + evaluate x cs

def clampMask : Nat := 0x0ffffffc0ffffffc0ffffffc0fffffff

/-- What a tag is for: the polynomial of the message at the clamped half of the key, hidden by
the other half. -/
def tagValue (message key : List UInt8) : Nat :=
  (evaluate (bytesValue (key.take 16) &&& clampMask) ((blocks message).map extended) % prime +
    bytesValue ((key.drop 16).take 16)) % 2 ^ 128

end Spec

section Numbers

theorem blockValue_eq (message : List UInt8) :
    blockValue message = bytesValue (message.take 16) := by
  have hsplit : bytesValue (message.take 16) = bytesValue (message.take 4) +
      2 ^ 32 * (bytesValue ((message.drop 4).take 4) +
      2 ^ 32 * (bytesValue ((message.drop 8).take 4) +
      2 ^ 32 * bytesValue ((message.drop 12).take 4))) := by
    simp only [bytesValue_take_succ, List.drop_drop, List.getD_eq_getElem?_getD,
      List.getElem?_drop, List.take_zero, bytesValue_nil]
    ring
  rw [hsplit, blockValue, toNat_cryptoLoad32Le, toNat_cryptoLoad32Le, toNat_cryptoLoad32Le,
    toNat_cryptoLoad32Le]
  ring

theorem limb_of_and (a mask k : Nat) :
    (a &&& mask) / 2 ^ k % 2 ^ 26 = (a / 2 ^ k % 2 ^ 26) &&& (mask / 2 ^ k % 2 ^ 26) := by
  rw [Nat.and_div_two_pow, Nat.and_mod_two_pow]

theorem toNat_maskedLimb (x mask : UInt32) (hmask : mask.toNat < 2 ^ 26) :
    (x &&& mask).toNat = (x.toNat % 2 ^ 26) &&& mask.toNat := by
  rw [UInt32.toNat_and, ← Nat.mod_eq_of_lt hmask, ← Nat.and_mod_two_pow, Nat.mod_eq_of_lt hmask,
    Nat.mod_eq_of_lt]
  exact Nat.and_le_right.trans_lt hmask

/-- The limbs of `r` hold the key's number without the clamped bits. -/
theorem clampedLimbs_exact (key : List UInt8) :
    Below (2 ^ 26) (clampedLimbs key) ∧
      value32 (clampedLimbs key) = bytesValue (key.take 16) &&& clampMask := by
  rw [← blockValue_eq]
  have hvalue : blockValue key = (cryptoLoad32Le key).toNat +
    2 ^ 32 * (cryptoLoad32Le (key.drop 4)).toNat + 2 ^ 64 * (cryptoLoad32Le (key.drop 8)).toNat +
    2 ^ 96 * (cryptoLoad32Le (key.drop 12)).toNat := rfl
  unfold clampedLimbs
  dsimp only
  generalize blockValue key = v at *
  generalize cryptoLoad32Le key = t0 at *
  generalize cryptoLoad32Le (key.drop 4) = t1 at *
  generalize cryptoLoad32Le (key.drop 8) = t2 at *
  generalize cryptoLoad32Le (key.drop 12) = t3 at *
  have h0 := t0.toNat_lt
  have h1 := t1.toNat_lt
  have h2 := t2.toNat_lt
  have h3 := t3.toNat_lt
  have s1 : (t0 >>> 26 ||| t1 <<< 6).toNat % 2 ^ 26 =
    (t0.toNat + 2 ^ 32 * t1.toNat) / 2 ^ 26 % 2 ^ 26 :=
    toNat_straddle t0 t1 (k := 26) (by decide) (by decide)
  have s2 : (t1 >>> 20 ||| t2 <<< 12).toNat % 2 ^ 26 =
    (t1.toNat + 2 ^ 32 * t2.toNat) / 2 ^ 20 % 2 ^ 26 :=
    toNat_straddle t1 t2 (k := 20) (by decide) (by decide)
  have s3 : (t2 >>> 14 ||| t3 <<< 18).toNat % 2 ^ 26 =
    (t2.toNat + 2 ^ 32 * t3.toNat) / 2 ^ 14 % 2 ^ 26 :=
    toNat_straddle t2 t3 (k := 14) (by decide) (by decide)
  have s4 : (t3 >>> 8).toNat = t3.toNat / 2 ^ 8 := toNat_shift32 t3 8 (by decide)
  have e0 : (t0 &&& 0x03ffffff).toNat = (v &&& clampMask) / 2 ^ 0 % 2 ^ 26 := by
    rw [limb_of_and, toNat_maskedLimb _ _ (by decide)]
    congr 1
    omega
  have e1 : ((t0 >>> 26 ||| t1 <<< 6) &&& 0x03ffff03).toNat =
      (v &&& clampMask) / 2 ^ 26 % 2 ^ 26 := by
    rw [limb_of_and, toNat_maskedLimb _ _ (by decide), s1]
    congr 1
    omega
  have e2 : ((t1 >>> 20 ||| t2 <<< 12) &&& 0x03ffc0ff).toNat =
      (v &&& clampMask) / 2 ^ 52 % 2 ^ 26 := by
    rw [limb_of_and, toNat_maskedLimb _ _ (by decide), s2]
    congr 1
    omega
  have e3 : ((t2 >>> 14 ||| t3 <<< 18) &&& 0x03f03fff).toNat =
      (v &&& clampMask) / 2 ^ 78 % 2 ^ 26 := by
    rw [limb_of_and, toNat_maskedLimb _ _ (by decide), s3]
    congr 1
    omega
  have e4 : (t3 >>> 8 &&& 0x000fffff).toNat = (v &&& clampMask) / 2 ^ 104 % 2 ^ 26 := by
    rw [limb_of_and, toNat_maskedLimb _ _ (by decide), s4]
    congr 1
    omega
  have hclamp : v &&& clampMask < 2 ^ 124 := Nat.and_le_right.trans_lt (by decide)
  generalize v &&& clampMask = w at *
  refine ⟨⟨?_, ?_, ?_, ?_, ?_⟩, ?_⟩
  · exact e0.trans_lt (Nat.mod_lt _ (by decide))
  · exact e1.trans_lt (Nat.mod_lt _ (by decide))
  · exact e2.trans_lt (Nat.mod_lt _ (by decide))
  · exact e3.trans_lt (Nat.mod_lt _ (by decide))
  · exact e4.trans_lt (Nat.mod_lt _ (by decide))
  · unfold value32
    dsimp only
    rw [e0, e1, e2, e3, e4]
    omega

end Numbers

section Pack

theorem bytesValue_words (w0 w1 w2 w3 : UInt32) :
    bytesValue (cryptoStore32Le w0 ++ cryptoStore32Le w1 ++ cryptoStore32Le w2 ++
      cryptoStore32Le w3) =
      w0.toNat + 2 ^ 32 * w1.toNat + 2 ^ 64 * w2.toNat + 2 ^ 96 * w3.toNat := by
  simp only [bytesValue_append, bytesValue_cryptoStore32Le, List.length_append,
    cryptoStore32Le_length]
  norm_num

theorem toNat_carry64 (x : UInt64) : (x >>> 32).toNat = x.toNat / 2 ^ 32 :=
  toNat_shift64 x 32 (by decide)

theorem words_of_limbs {l0 l1 l2 l3 : Nat} (l4 : Nat) (h0 : l0 < 2 ^ 26) (h1 : l1 < 2 ^ 26)
    (h2 : l2 < 2 ^ 26) (h3 : l3 < 2 ^ 26) :
    (l0 + 2 ^ 26 * l1) % 2 ^ 32 + 2 ^ 32 * ((l1 / 2 ^ 6 + 2 ^ 20 * l2) % 2 ^ 32) +
      2 ^ 64 * ((l2 / 2 ^ 12 + 2 ^ 14 * l3) % 2 ^ 32) +
      2 ^ 96 * ((l3 / 2 ^ 18 + 2 ^ 8 * l4) % 2 ^ 32) =
      (l0 + 2 ^ 26 * l1 + 2 ^ 52 * l2 + 2 ^ 78 * l3 + 2 ^ 104 * l4) % 2 ^ 128 := by
  have w0 : (l0 + 2 ^ 26 * l1) % 2 ^ 32 = l0 + 2 ^ 26 * (l1 % 2 ^ 6) := by omega
  have w1 : (l1 / 2 ^ 6 + 2 ^ 20 * l2) % 2 ^ 32 = l1 / 2 ^ 6 + 2 ^ 20 * (l2 % 2 ^ 12) := by omega
  have w2 : (l2 / 2 ^ 12 + 2 ^ 14 * l3) % 2 ^ 32 = l2 / 2 ^ 12 + 2 ^ 14 * (l3 % 2 ^ 18) := by omega
  have w3 : (l3 / 2 ^ 18 + 2 ^ 8 * l4) % 2 ^ 32 = l3 / 2 ^ 18 + 2 ^ 8 * (l4 % 2 ^ 24) := by omega
  rw [w0, w1, w2, w3]
  clear w0 w1 w2 w3
  omega

theorem sum_of_words {w0 w1 w2 w3 q0 q1 q2 q3 s0 s1 s2 s3 : Nat} (h0 : s0 = w0 + q0)
    (h1 : s1 = w1 + q1 + s0 / 2 ^ 32) (h2 : s2 = w2 + q2 + s1 / 2 ^ 32)
    (h3 : s3 = w3 + q3 + s2 / 2 ^ 32) :
    s0 % 2 ^ 32 + 2 ^ 32 * (s1 % 2 ^ 32) + 2 ^ 64 * (s2 % 2 ^ 32) + 2 ^ 96 * (s3 % 2 ^ 32) =
      (w0 + 2 ^ 32 * w1 + 2 ^ 64 * w2 + 2 ^ 96 * w3 +
        (q0 + 2 ^ 32 * q1 + 2 ^ 64 * q2 + 2 ^ 96 * q3)) % 2 ^ 128 := by
  omega

/-- The words of the reduced limbs lose only what is above `2^128`. -/
theorem packTag_exact {h : FiveLimbs UInt32} (hh : Below (2 ^ 26) h) (pad : Vector UInt32 4) :
    packTagChecked h pad = some (packTag h pad) ∧ (packTag h pad).length = 16 ∧
      bytesValue (packTag h pad) = (value32 h + padValue pad) % 2 ^ 128 := by
  have h0 := hh.l0
  have h1 := hh.l1
  have h2 := hh.l2
  have h3 := hh.l3
  have h4 := hh.l4
  have s1 : (h.l1 >>> 6).toNat = h.l1.toNat / 2 ^ 6 := toNat_shift32 h.l1 6 (by decide)
  have s2 : (h.l2 >>> 12).toNat = h.l2.toNat / 2 ^ 12 := toNat_shift32 h.l2 12 (by decide)
  have s3 : (h.l3 >>> 18).toNat = h.l3.toNat / 2 ^ 18 := toNat_shift32 h.l3 18 (by decide)
  have w0 : (h.l0 ||| (h.l1 <<< 26)).toNat = (h.l0.toNat + 2 ^ 26 * h.l1.toNat) % 2 ^ 32 :=
    toNat_join32 h.l0 h.l1 (k := 26) (by decide) h0
  have w1 : ((h.l1 >>> 6) ||| (h.l2 <<< 20)).toNat =
      ((h.l1 >>> 6).toNat + 2 ^ 20 * h.l2.toNat) % 2 ^ 32 :=
    toNat_join32 (h.l1 >>> 6) h.l2 (k := 20) (by decide) (by omega)
  have w2 : ((h.l2 >>> 12) ||| (h.l3 <<< 14)).toNat =
      ((h.l2 >>> 12).toNat + 2 ^ 14 * h.l3.toNat) % 2 ^ 32 :=
    toNat_join32 (h.l2 >>> 12) h.l3 (k := 14) (by decide) (by omega)
  have w3 : ((h.l3 >>> 18) ||| (h.l4 <<< 8)).toNat =
      ((h.l3 >>> 18).toNat + 2 ^ 8 * h.l4.toNat) % 2 ^ 32 :=
    toNat_join32 (h.l3 >>> 18) h.l4 (k := 8) (by decide) (by omega)
  have p0 := pad[0].toNat_lt
  have p1 := pad[1].toNat_lt
  have p2 := pad[2].toNat_lt
  have p3 := pad[3].toNat_lt
  unfold packTagChecked packTag value32 padValue
  dsimp only
  generalize h.l0 ||| (h.l1 <<< 26) = word0 at *
  generalize (h.l1 >>> 6) ||| (h.l2 <<< 20) = word1 at *
  generalize (h.l2 >>> 12) ||| (h.l3 <<< 14) = word2 at *
  generalize (h.l3 >>> 18) ||| (h.l4 <<< 8) = word3 at *
  generalize pad[0] = q0 at *
  generalize pad[1] = q1 at *
  generalize pad[2] = q2 at *
  generalize pad[3] = q3 at *
  have wide : ∀ x : UInt32, x.toUInt64.toNat = x.toNat := UInt32.toNat_toUInt64
  have b0 : word0.toUInt64.toNat + q0.toUInt64.toNat < 2 ^ 64 := by
    rw [wide, wide]
    omega
  have e0 := toNat_add64 b0
  have k0 := add64_eq b0
  have c0 := toNat_carry64 (word0.toUInt64 + q0.toUInt64)
  have b1 : word1.toUInt64.toNat + q1.toUInt64.toNat < 2 ^ 64 := by
    rw [wide, wide]
    omega
  have e1 := toNat_add64 b1
  have k1 := add64_eq b1
  rw [wide, wide] at e0 e1
  generalize word0.toUInt64 + q0.toUInt64 = sum0 at *
  generalize word1.toUInt64 + q1.toUInt64 = half1 at *
  have b1' : half1.toNat + (sum0 >>> 32).toNat < 2 ^ 64 := by omega
  have e1' := toNat_add64 b1'
  have k1' := add64_eq b1'
  have c1 := toNat_carry64 (half1 + sum0 >>> 32)
  have b2 : word2.toUInt64.toNat + q2.toUInt64.toNat < 2 ^ 64 := by
    rw [wide, wide]
    omega
  have e2 := toNat_add64 b2
  have k2 := add64_eq b2
  rw [wide, wide] at e2
  generalize half1 + sum0 >>> 32 = sum1 at *
  generalize word2.toUInt64 + q2.toUInt64 = half2 at *
  have b2' : half2.toNat + (sum1 >>> 32).toNat < 2 ^ 64 := by omega
  have e2' := toNat_add64 b2'
  have k2' := add64_eq b2'
  have c2 := toNat_carry64 (half2 + sum1 >>> 32)
  have b3 : word3.toUInt64.toNat + q3.toUInt64.toNat < 2 ^ 64 := by
    rw [wide, wide]
    omega
  have e3 := toNat_add64 b3
  have k3 := add64_eq b3
  rw [wide, wide] at e3
  generalize half2 + sum1 >>> 32 = sum2 at *
  generalize word3.toUInt64 + q3.toUInt64 = half3 at *
  have b3' : half3.toNat + (sum2 >>> 32).toNat < 2 ^ 64 := by omega
  have e3' := toNat_add64 b3'
  have k3' := add64_eq b3'
  refine ⟨?_, rfl, ?_⟩
  · simp only [Option.bind_eq_bind, Option.bind_some, k0, k1, k1', k2, k2', k3, k3']
    rfl
  · rw [bytesValue_words, UInt64.toNat_toUInt32, UInt64.toNat_toUInt32, UInt64.toNat_toUInt32,
      UInt64.toNat_toUInt32]
    have hwords := words_of_limbs h.l4.toNat h0 h1 h2 h3
    rw [← s1, ← s2, ← s3, ← w0, ← w1, ← w2, ← w3] at hwords
    rw [Nat.add_mod, ← hwords, Nat.add_mod_mod]
    exact sum_of_words e0 (by rw [e1', e1, c0]) (by rw [e2', e2, c1]) (by rw [e3', e3, c2])

end Pack

section Blocks

theorem blocks_append {full : List UInt8} (rest : List UInt8) {k : Nat}
    (hfull : full.length = 16 * k) : blocks (full ++ rest) = pieces 16 k full ++ blocks rest := by
  induction k generalizing full with
  | zero =>
    rw [List.length_eq_zero_iff.mp hfull]
    rfl
  | succ k ih =>
    have hne : full ++ rest ≠ [] := by
      intro hnil
      have hlen := congrArg List.length hnil
      rw [List.length_append, List.length_nil] at hlen
      omega
    rw [blocks, dif_neg hne, List.take_append_of_le_length (by omega),
      List.drop_append_of_le_length (by omega), ih (by rw [List.length_drop]; omega)]
    rfl

theorem blocks_short {rest : List UInt8} (hrest : rest.length < 16) :
    blocks rest = if rest = [] then [] else [rest] := by
  rw [blocks]
  split_ifs with hnil
  · rfl
  · rw [List.take_of_length_le hrest.le, List.drop_of_length_le hrest.le, blocks, dif_pos rfl]

theorem pieces_lengths {full : List UInt8} {k : Nat} (hfull : full.length = 16 * k) :
    ∀ block ∈ pieces 16 k full, block.length = 16 := by
  induction k generalizing full with
  | zero => simp [pieces]
  | succ k ih =>
    intro block hblock
    cases List.mem_cons.mp hblock with
    | inl hfirst => rw [hfirst, List.length_take, Nat.min_eq_left (by omega)]
    | inr hrest => exact ih (by rw [List.length_drop]; omega) block hrest

theorem extended_eq (block : List UInt8) :
    extended block = bytesValue block + 256 ^ block.length := by
  rw [extended, bytesValue_append, bytesValue_singleton]
  simp

theorem extended_full {block : List UInt8} (hblock : block.length = 16) :
    blockValue block + 2 ^ 104 * fullBlockBit.toNat = extended block := by
  have hbit : 2 ^ 104 * fullBlockBit.toNat = 256 ^ 16 := by decide
  rw [extended_eq, hblock, blockValue_eq, hbit, List.take_of_length_le hblock.le]

theorem bytesValue_zeros (xs : List UInt8) (n : Nat) :
    bytesValue (xs ++ List.replicate n 0) = bytesValue xs := by
  have hzero : bytesValue (List.replicate n 0) = 0 := by
    induction n with
    | zero => rfl
    | succ n ih => rw [List.replicate_succ, bytesValue_cons, ih]; rfl
  rw [bytesValue_append, hzero, Nat.mul_zero, Nat.add_zero]

/-- The short block in the buffer, its end mark and the zeros after it. -/
theorem extended_short {block pending : List UInt8} (hlength : pending.length < 16)
    (hcapacity : 16 ≤ block.length) (hpending : block.take pending.length = pending) :
    blockValue (fillAt (copyAt block pending.length [1]) (pending.length + 1) 16 0) =
      extended pending := by
  have hmarked : (copyAt block pending.length [1]).take (pending.length + 1) = pending ++ [1] := by
    have hroom : pending.length ≤ block.length := by omega
    have htake := copyAt_take block [1] hroom
    rw [hpending] at htake
    exact htake
  have hroom : pending.length + 1 ≤ (copyAt block pending.length [1]).length := by
    rw [copyAt_length (by rw [List.length_singleton]; omega)]
    omega
  have hfilled : (fillAt (copyAt block pending.length [1]) (pending.length + 1) 16 0).take 16 =
      pending ++ [1] ++ List.replicate (16 - (pending.length + 1)) 0 := by
    have htake := copyAt_take (copyAt block pending.length [1])
      (List.replicate (16 - (pending.length + 1)) 0) hroom
    rw [hmarked, List.length_replicate, Nat.add_sub_cancel' (by omega)] at htake
    exact htake
  rw [blockValue_eq, hfilled, bytesValue_zeros, extended]

end Blocks

section Evaluation

variable {r h : FiveLimbs UInt32}

theorem evaluate_append (x : Nat) (cs : List Nat) (c : Nat) :
    evaluate x (cs ++ [c]) = (evaluate x cs + c) * x := by
  induction cs with
  | nil => simp [evaluate]
  | cons d cs ih =>
    rw [List.cons_append, evaluate, evaluate, ih, List.length_append, List.length_singleton]
    ring

/-- The accumulator after some blocks: its limbs are bounded, and it is the value of the
polynomial of these blocks. -/
structure Evaluated (r : FiveLimbs UInt32) (blocks : List (List UInt8)) (h : FiveLimbs UInt32) :
    Prop where
  carried : Carried h
  value : value32 h ≡ evaluate (value32 r) (blocks.map extended) [MOD prime]

theorem evaluated_start (r : FiveLimbs UInt32) : Evaluated r [] ⟨0, 0, 0, 0, 0⟩ :=
  ⟨⟨by decide, by decide, by decide, by decide, by decide⟩, rfl⟩

theorem evaluated_next {prior : List (List UInt8)} (hr : Below (2 ^ 26) r)
    (hprior : Evaluated r prior h) {highBit : UInt32} (hbit : EndBit highBit)
    {message block : List UInt8}
    (hvalue : blockValue message + 2 ^ 104 * highBit.toNat = extended block) :
    Evaluated r (prior ++ [block]) (poly1305Block highBit r h message) := by
  obtain ⟨-, hcarried, hstep⟩ := poly1305Block_exact hbit hr hprior.carried message
  refine ⟨hcarried, ?_⟩
  rw [List.map_append, List.map_singleton, evaluate_append, ← hvalue]
  exact hstep.trans ((hprior.value.add_right _).mul_right _)

theorem evaluated_blocks {prior : List (List UInt8)} (hr : Below (2 ^ 26) r)
    (hprior : Evaluated r prior h) (next : List (List UInt8))
    (hnext : ∀ block ∈ next, block.length = 16) :
    Evaluated r (prior ++ next) (next.foldl (poly1305Block fullBlockBit r) h) := by
  induction next generalizing prior h with
  | nil => simpa using hprior
  | cons block next ih =>
    have hblock := evaluated_next hr hprior (.inl rfl)
      (extended_full (hnext block List.mem_cons_self))
    have hrest := ih hblock fun later hlater => hnext later (List.mem_cons_of_mem _ hlater)
    rwa [List.append_assoc, List.singleton_append] at hrest

end Evaluation

section Checked

/-- The checked arithmetic has not stopped, and the next block will not stop it. -/
structure Exact (h : FiveLimbs UInt32) (checked : Option (FiveLimbs UInt32)) : Prop where
  exact : checked = some h
  carried : Carried h

/-- A block of an update in arithmetic that stops where a word would wrap. -/
def blockStepChecked (highBit : UInt32) (r : FiveLimbs UInt32)
    (checked : Option (FiveLimbs UInt32)) (block : List UInt8) : Option (FiveLimbs UInt32) :=
  checked.bind fun h => poly1305BlockChecked highBit r h block

theorem exact_next {highBit : UInt32} {r h : FiveLimbs UInt32}
    {checked : Option (FiveLimbs UInt32)} (hr : Below (2 ^ 26) r) (hbit : EndBit highBit)
    (message : List UInt8) (hexact : Exact h checked) :
    Exact (poly1305Block highBit r h message) (blockStepChecked highBit r checked message) := by
  obtain ⟨hsome, hcarried, -⟩ := poly1305Block_exact hbit hr hexact.carried message
  exact ⟨by rw [hexact.exact]; exact hsome, hcarried⟩

end Checked

section Tag

def updated (key : List UInt8) (chunks : List (List UInt8)) : CryptoPoly1305Context :=
  chunks.foldl cryptoPoly1305Update (cryptoPoly1305Init key)

def updatedChecked (key : List UInt8) (chunks : List (List UInt8)) :
    Buffer (Option (FiveLimbs UInt32)) UInt8 :=
  chunks.foldl (update (blockStepChecked fullBlockBit (clampedLimbs key)) 16)
    ⟨some ⟨0, 0, 0, 0, 0⟩, List.replicate 16 0, 0⟩

def finishBlockChecked (r : FiveLimbs UInt32) (buffer : Buffer (Option (FiveLimbs UInt32)) UInt8) :
    Option (FiveLimbs UInt32) :=
  let leftover := buffer.bufferLength
  if leftover ≠ 0 then
    let marked := copyAt buffer.block leftover [1]
    blockStepChecked 0 r buffer.state (fillAt marked (leftover + 1) 16 0)
  else buffer.state

/-- The whole computation in arithmetic that stops where a word would wrap. -/
def tagChecked (key : List UInt8) (chunks : List (List UInt8)) : Option (List UInt8) := do
  let h ← finishBlockChecked (clampedLimbs key) (updatedChecked key chunks)
  let h ← finalCarryChecked h
  let g ← subtractPrimeChecked h
  packTagChecked (selectReduced h g) (cryptoPoly1305Init key).pad

theorem updated_eq (context : CryptoPoly1305Context) (chunks : List (List UInt8)) :
    chunks.foldl cryptoPoly1305Update context = { context with
      buffer := chunks.foldl (update (poly1305Block fullBlockBit context.r) 16) context.buffer } := by
  induction chunks generalizing context with
  | nil => rfl
  | cons chunk chunks ih => exact ih _

theorem updated_absorbed (key : List UInt8) (chunks : List (List UInt8)) :
    Absorbed (poly1305Block fullBlockBit (clampedLimbs key)) 16 ⟨0, 0, 0, 0, 0⟩ chunks.flatten
      (updated key chunks).buffer := by
  have hstart : Absorbed (poly1305Block fullBlockBit (clampedLimbs key)) 16
      (cryptoPoly1305Init key).buffer.state [] (cryptoPoly1305Init key).buffer :=
    absorbed_start (Nat.le_refl 16) rfl
  rw [updated, updated_eq]
  exact updates_absorbed (by decide) chunks hstart

theorem updated_related (key : List UInt8) (chunks : List (List UInt8)) :
    Related Exact (updated key chunks).buffer (updatedChecked key chunks) := by
  have hr := (clampedLimbs_exact key).1
  have hstart : Related Exact (cryptoPoly1305Init key).buffer
      ⟨some ⟨0, 0, 0, 0, 0⟩, List.replicate 16 0, 0⟩ :=
    ⟨⟨rfl, (evaluated_start (clampedLimbs key)).carried⟩, rfl, rfl⟩
  rw [updated, updated_eq]
  exact updates_related (by decide) (fun h checked block => exact_next hr (.inl rfl) block) chunks
    hstart

theorem updated_r (key : List UInt8) (chunks : List (List UInt8)) :
    (updated key chunks).r = clampedLimbs key ∧
      (updated key chunks).pad = (cryptoPoly1305Init key).pad := by
  rw [updated, updated_eq]
  exact ⟨rfl, rfl⟩

/-- The buffer's whole blocks are in the accumulator; the rest of the message waits. -/
theorem updated_split (key : List UInt8) (chunks : List (List UInt8)) :
    ∃ full pending, blocks chunks.flatten = full ++ (if pending = [] then [] else [pending]) ∧
      pending.length = (updated key chunks).buffer.bufferLength ∧ pending.length < 16 ∧
      (updated key chunks).buffer.block.take pending.length = pending ∧
      Evaluated (clampedLimbs key) full (updated key chunks).buffer.state := by
  have habsorbed := updated_absorbed key chunks
  obtain ⟨full, pending, k, hsplit, hfull, hpending, hstate, hblock⟩ := habsorbed.split
  have hlt : pending.length < 16 := by
    rw [hpending, habsorbed.waiting]
    exact Nat.mod_lt _ (by decide)
  refine ⟨pieces 16 k full, pending, ?_, hpending, hlt, by rw [hpending, hblock], ?_⟩
  · rw [hsplit, blocks_append pending hfull, blocks_short hlt]
  · have hcount : full.length / 16 = k := by omega
    have hrun := evaluated_blocks (clampedLimbs_exact key).1 (evaluated_start _) (pieces 16 k full)
      (pieces_lengths hfull)
    rw [hstate, foldBlocks, hcount]
    exact hrun

theorem finishBlock_evaluated (key : List UInt8) (chunks : List (List UInt8)) :
    Evaluated (clampedLimbs key) (blocks chunks.flatten) (finishBlock (updated key chunks)) := by
  obtain ⟨full, pending, hblocks, hlength, hlt, hpending, hvalue⟩ := updated_split key chunks
  have hcapacity := (updated_absorbed key chunks).capacity
  rw [hblocks, finishBlock, (updated_r key chunks).1, ← hlength]
  dsimp only
  by_cases hnil : pending = []
  · rw [if_pos hnil, if_neg (by simp [hnil]), List.append_nil]
    exact hvalue
  · rw [if_neg hnil, if_pos (by simp [hnil])]
    have hshort := extended_short hlt hcapacity hpending
    exact evaluated_next (clampedLimbs_exact key).1 hvalue (.inr rfl) (by simpa using hshort)

theorem finishBlock_exact (key : List UInt8) (chunks : List (List UInt8)) :
    Exact (finishBlock (updated key chunks))
      (finishBlockChecked (clampedLimbs key) (updatedChecked key chunks)) := by
  have hrelated := updated_related key chunks
  rw [finishBlock, finishBlockChecked, ← hrelated.bufferLength, ← hrelated.block,
    (updated_r key chunks).1]
  dsimp only
  split_ifs
  · exact exact_next (clampedLimbs_exact key).1 (.inr rfl) _ hrelated.state
  · exact hrelated.state

theorem padValue_init (key : List UInt8) :
    padValue (cryptoPoly1305Init key).pad = bytesValue ((key.drop 16).take 16) := by
  rw [← blockValue_eq, blockValue, List.drop_drop, List.drop_drop, List.drop_drop]
  rfl

/-- For a key and any division of a message into chunks, the tag is the number it is specified to
be, the limbs are bounded after every update, and no addition or product of words wraps. -/
theorem poly1305_tag (key : List UInt8) (chunks : List (List UInt8)) :
    (cryptoPoly1305Final (chunks.foldl cryptoPoly1305Update (cryptoPoly1305Init key))).length = 16 ∧
      bytesValue
        (cryptoPoly1305Final (chunks.foldl cryptoPoly1305Update (cryptoPoly1305Init key))) =
        tagValue chunks.flatten key ∧
      Carried (chunks.foldl cryptoPoly1305Update (cryptoPoly1305Init key)).buffer.state ∧
      tagChecked key chunks =
        some (cryptoPoly1305Final (chunks.foldl cryptoPoly1305Update (cryptoPoly1305Init key))) := by
  have hfinish := finishBlock_exact key chunks
  have hevaluated := finishBlock_evaluated key chunks
  obtain ⟨hcarry, hbelow, hcarryvalue⟩ := finalCarry_exact hfinish.carried
  obtain ⟨hselected, hresidue⟩ := selectReduced_exact hbelow
  obtain ⟨hpack, hlength, htag⟩ := packTag_exact hselected (updated key chunks).pad
  have hmod : value32 (finalCarry (finishBlock (updated key chunks))) % prime =
      evaluate (bytesValue (key.take 16) &&& clampMask)
        ((blocks chunks.flatten).map extended) % prime := by
    rw [← (clampedLimbs_exact key).2]
    exact hcarryvalue.trans hevaluated.value
  have hpad := (updated_r key chunks).2
  have hfinal : cryptoPoly1305Final (chunks.foldl cryptoPoly1305Update (cryptoPoly1305Init key)) =
      packTag (selectReduced (finalCarry (finishBlock (updated key chunks)))
        (subtractPrime (finalCarry (finishBlock (updated key chunks))))) (updated key chunks).pad :=
    rfl
  rw [hfinal]
  refine ⟨hlength, ?_, (updated_related key chunks).state.carried, ?_⟩
  · rw [htag, hresidue, hmod, hpad, padValue_init, tagValue]
  · rw [tagChecked, ← hpad, hfinish.exact, Option.bind_eq_bind, Option.bind_some, hcarry,
      Option.bind_some, (subtractPrime_exact hbelow).1, Option.bind_some, hpack]

end Tag

end LiberaCrypt.Poly1305Tag
