import LiberaCrypt.Endian
import LiberaCrypt.FillLoop
import LiberaCrypt.KeystreamXor
import LiberaCrypt.Sha1

namespace LiberaCrypt.Mgf1

open LiberaCrypt.Outcome LiberaCrypt.BigEndian LiberaCrypt.Endian LiberaCrypt.FillLoop
open LiberaCrypt.KeystreamXor LiberaCrypt.Sha1

section Operations

variable (hash : List UInt8 → Except LiberaCError (List UInt8))

def rsaHashThree (first second third : List UInt8) : Except LiberaCError (List UInt8) :=
  hash (first ++ second ++ third)

structure MaskState where
  output : List UInt8
  offset : Nat

def maskBlock (hashLength : Nat) (seed : List UInt8) (block : Nat) (s : MaskState) :
    Except LiberaCError MaskState := do
  let counter := UInt32.ofNat block
  let counterBytes := [(counter >>> 24).toUInt8, (counter >>> 16).toUInt8, (counter >>> 8).toUInt8,
    counter.toUInt8]
  let digest ← rsaHashThree hash seed counterBytes []
  let take := if s.output.length - s.offset > hashLength then hashLength
    else s.output.length - s.offset
  pure ⟨s.output.take s.offset ++ xorBytes ((s.output.drop s.offset).take take) digest ++
    s.output.drop (s.offset + take), s.offset + take⟩

def maskBlocks (hashLength : Nat) (seed : List UInt8) : Nat → MaskState →
    Except LiberaCError MaskState
  | 0, s => pure s
  | block + 1, s => do
    let s ← maskBlocks hashLength seed block s
    maskBlock hash hashLength seed block s

def rsaMgf1Xor (output seed : List UInt8) (hashLength : Nat) : Except LiberaCError (List UInt8) :=
  if hashLength = 0 then .error .invalidArgument
  else
    let blockCount := output.length / hashLength + if output.length % hashLength ≠ 0 then 1 else 0
    if 0x100000000 < blockCount then .error .messageTooLarge
    else do
      let s ← maskBlocks hash hashLength seed blockCount ⟨output, 0⟩
      pure s.output

end Operations

/-- A hash whose digests have `n` bytes. -/
structure Hashes (hash : List UInt8 → Except LiberaCError (List UInt8))
    (H : List UInt8 → List UInt8) (n : Nat) : Prop where
  hashed : ∀ xs, hash xs = .ok (H xs)
  length : ∀ xs, (H xs).length = n
  pos : 0 < n

def sha1Hash (xs : List UInt8) : Except LiberaCError (List UInt8) := .ok (sha1Digest xs)

theorem sha1_hashes : Hashes sha1Hash sha1Digest 20 :=
  ⟨fun _ => rfl, sha1Digest_length, by decide⟩

/-- The mask of a seed: the digests of the seed with a counter. -/
def mgf1 (H : List UInt8 → List UInt8) (n : Nat) (seed : List UInt8) (length : Nat) : List UInt8 :=
  filled (fun i => H (seed ++ bigEndian 4 i)) n length

variable {hash : List UInt8 → Except LiberaCError (List UInt8)} {H : List UInt8 → List UInt8}
  {n : Nat} {output seed : List UInt8}

theorem mgf1_length (h : Hashes hash H n) (seed : List UInt8) (length : Nat) :
    (mgf1 H n seed length).length = length :=
  filled_length (fun _ => h.length _) h.pos length

theorem counterBytes_eq (block : Nat) :
    [(UInt32.ofNat block >>> 24).toUInt8, (UInt32.ofNat block >>> 16).toUInt8,
      (UInt32.ofNat block >>> 8).toUInt8, (UInt32.ofNat block).toUInt8] = bigEndian 4 block := by
  change cryptoStore32Be (UInt32.ofNat block) = _
  rw [cryptoStore32Be_eq, UInt32.toNat_ofNat', ← bigEndian_mod 4 block]
  rfl

/-- After `k` blocks the bytes that they reach are masked. -/
def Masked (H : List UInt8 → List UInt8) (n : Nat) (output seed : List UInt8) (k : Nat)
    (s : MaskState) : Prop :=
  s.offset = min (k * n) output.length ∧
    s.output = xorBytes (output.take (k * n))
      ((List.range k).flatMap fun i => H (seed ++ bigEndian 4 i)) ++ output.drop (k * n)

theorem maskBlock_masked (h : Hashes hash H n) {k : Nat} (hk : k * n < output.length)
    {s : MaskState} (hs : Masked H n output seed k s) :
    ∃ next, maskBlock hash n seed k s = .ok next ∧ Masked H n output seed (k + 1) next := by
  obtain ⟨hoffset, houtput⟩ := hs
  rw [Nat.min_eq_left hk.le] at hoffset
  have hblocks := blocks_length (fun i => h.length (seed ++ bigEndian 4 i)) k
  have htaken : (output.take (k * n)).length = k * n := by
    rw [List.length_take, Nat.min_eq_left hk.le]
  have hfirst := xorBytes_length (hblocks.trans htaken.symm)
  rw [htaken] at hfirst
  have hlength : s.output.length = output.length := by
    rw [houtput, List.length_append, hfirst, List.length_drop]
    omega
  refine ⟨_, by rw [maskBlock, rsaHashThree, h.hashed]; rfl, ?_⟩
  have htake : (output.drop (k * n)).take (if output.length - k * n > n then n
      else output.length - k * n) = (output.drop (k * n)).take n := by
    split_ifs with hmore
    · rfl
    · rw [List.take_of_length_le (by simp), List.take_of_length_le (by simp; omega)]
  have hdrop : (output.drop (k * n)).drop (if output.length - k * n > n then n
      else output.length - k * n) = output.drop ((k + 1) * n) := by
    rw [List.drop_drop, Nat.succ_mul]
    split_ifs with hmore
    · rfl
    · rw [List.drop_eq_nil_of_le (by omega), List.drop_eq_nil_of_le (by omega)]
  rw [counterBytes_eq, List.append_nil, hlength, hoffset, houtput, List.take_left' hfirst,
    ← List.drop_drop, List.drop_left' hfirst, htake, hdrop]
  constructor
  · rw [Nat.succ_mul]
    dsimp only
    split_ifs <;> omega
  · rw [Nat.succ_mul, List.take_add, List.range_succ, List.flatMap_append, List.flatMap_singleton,
      xorBytes_append (htaken.trans hblocks.symm)]

theorem maskBlocks_masked (h : Hashes hash H n) (k : Nat) (hk : ∀ i < k, i * n < output.length) :
    ∃ s, maskBlocks hash n seed k ⟨output, 0⟩ = .ok s ∧ Masked H n output seed k s := by
  induction k with
  | zero => exact ⟨_, rfl, by simp [Masked, xorBytes]⟩
  | succ k ih =>
    obtain ⟨s, hs, hmasked⟩ := ih fun i hi => hk i (Nat.lt_succ_of_lt hi)
    obtain ⟨next, hnext, hmore⟩ := maskBlock_masked h (hk k (Nat.lt_succ_self k)) hmasked
    exact ⟨next, bind_eq_ok.mpr ⟨s, hs, hnext⟩, hmore⟩

theorem blockCount_eq (hn : 0 < n) (length : Nat) :
    (length / n + if length % n ≠ 0 then 1 else 0) = blockCount n length := by
  have hdiv := Nat.div_add_mod length n
  have hmod := Nat.mod_lt length hn
  rw [Nat.mul_comm] at hdiv
  rw [blockCount]
  symm
  split_ifs with hrest
  · apply Nat.div_eq_of_lt_le
    · rw [Nat.succ_mul]
      omega
    · rw [Nat.succ_mul, Nat.succ_mul]
      omega
  · rw [Nat.add_zero]
    apply Nat.div_eq_of_lt_le
    · omega
    · rw [Nat.succ_mul]
      omega

theorem blockCount_gt (hn : 0 < n) (k length : Nat) :
    k < blockCount n length ↔ k * n < length := by
  refine ⟨produced_lt hn, fun hlt => ?_⟩
  by_contra hle
  have hmul := Nat.mul_le_mul_right n (not_lt.mp hle)
  have hcover := length_le_blocks hn length
  omega

/-- Bytes are combined with the mask of the seed, unless it is too long for the counter. -/
theorem rsaMgf1Xor_eq (h : Hashes hash H n) (output seed : List UInt8) :
    rsaMgf1Xor hash output seed n =
      if 2 ^ 32 * n < output.length then .error .messageTooLarge
      else .ok (xorBytes output (mgf1 H n seed output.length)) := by
  obtain ⟨s, hs, -, houtput⟩ := @maskBlocks_masked hash H n output seed h
    (blockCount n output.length) fun i hi => produced_lt h.pos hi
  have hcover := length_le_blocks h.pos output.length
  have htaken := xorBytes_take output
    ((List.range (blockCount n output.length)).flatMap fun i => H (seed ++ bigEndian 4 i))
  rw [List.take_of_length_le hcover, List.drop_eq_nil_of_le hcover, List.append_nil, ← htaken]
    at houtput
  rw [rsaMgf1Xor, if_neg h.pos.ne', blockCount_eq h.pos]
  refine if_congr (blockCount_gt h.pos _ _) rfl ?_
  rw [hs]
  exact congrArg Except.ok houtput

end LiberaCrypt.Mgf1
