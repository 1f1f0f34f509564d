import LiberaCrypt.HashStreaming
import LiberaCrypt.Keccak

namespace LiberaCrypt.Sha3Streaming

open LiberaCrypt.Outcome LiberaCrypt.Def LiberaCrypt.Sha3 LiberaCrypt.Sponge LiberaCrypt.Keccak
open LiberaCrypt.HashFunction LiberaCrypt.HashStreaming

section Context

/-- The context that has absorbed `xs` and is not finalized. -/
structure Absorbing (rate : Nat) (domain : UInt8) (ctx : CryptoSha3Context) (xs : List UInt8) :
    Prop where
  rate_eq : ctx.rate = rate
  domain_eq : ctx.domain = domain
  finalized : ctx.finalized = false
  position : ctx.position = xs.length % rate
  state : lanesString ctx.state = absorbPart keccakString (8 * rate) (xs.flatMap byteBits)

variable {rate : Nat} {domain : UInt8} {ctx : CryptoSha3Context} {xs input : List UInt8}

theorem flatMap_byteBits_length (xs : List UInt8) : (xs.flatMap byteBits).length = 8 * xs.length := by
  induction xs with
  | nil => rfl
  | cons x xs ih =>
    rw [List.flatMap_cons, List.length_append, ih, byteBits_length, List.length_cons]
    omega

theorem lanesString_zero : lanesString (Vector.replicate 25 0) = fun _ => false := by
  funext i
  rw [lanesString_eq]
  have hlane : i.val / 64 < 25 := by omega
  simp [Vector.getD, hlane]

theorem absorbing_init (rate : Nat) (domain : UInt8) :
    Absorbing rate domain (sha3ContextInit rate domain) [] :=
  ⟨rfl, rfl, rfl, (Nat.zero_mod rate).symm, lanesString_zero.trans absorbPart_nil.symm⟩

/-- A byte goes into the block; the byte that fills it makes the permutation happen. -/
theorem absorbByte_absorbing (hrate : 0 < rate) (hcapacity : rate ≤ 200)
    (h : Absorbing rate domain ctx xs) (value : UInt8) :
    Absorbing rate domain (absorbByte ctx value) (xs ++ [value]) := by
  have hmod := Nat.mod_lt xs.length hrate
  have hposition : ctx.position < 200 := by
    rw [h.position]
    omega
  have hbits : ((xs.flatMap byteBits).length) % (8 * rate) = 8 * (xs.length % rate) := by
    rw [flatMap_byteBits_length, Nat.mul_mod_mul_left]
  have hxor : lanesString (xorByte ctx.state ctx.position value) =
      xorAt (absorbPart keccakString (8 * rate) (xs.flatMap byteBits))
        ((xs.flatMap byteBits).length % (8 * rate)) (byteBits value) := by
    rw [lanesString_xorByte ctx.state value hposition, h.state, h.position, hbits]
  have hmore : (xs ++ [value]).flatMap byteBits = xs.flatMap byteBits ++ byteBits value := by
    rw [List.flatMap_append, List.flatMap_singleton]
  have hr : 0 < 8 * rate := by omega
  unfold absorbByte
  dsimp only
  split
  case isTrue hfull =>
    rw [h.position, h.rate_eq] at hfull
    refine ⟨h.rate_eq, h.domain_eq, h.finalized, ?_, ?_⟩
    · have hdivision := Nat.div_add_mod xs.length rate
      have htotal : xs.length + 1 = rate * (xs.length / rate + 1) := by
        rw [Nat.mul_succ]
        omega
      rw [List.length_append, List.length_singleton, htotal, Nat.mul_mod_right]
    · rw [lanesString_keccakF1600, hxor, hmore, absorbPart_full hr]
      rw [hbits, byteBits_length]
      omega
  case isFalse hfull =>
    rw [h.position, h.rate_eq] at hfull
    refine ⟨h.rate_eq, h.domain_eq, h.finalized, ?_, ?_⟩
    · rw [h.position, List.length_append, List.length_singleton, ← Nat.mod_add_mod,
        Nat.mod_eq_of_lt (show xs.length % rate + 1 < rate by omega)]
    · rw [hxor, hmore, absorbPart_within hr]
      rw [hbits, byteBits_length]
      omega

theorem cryptoSha3Update_absorbing (hrate : 0 < rate) (hcapacity : rate ≤ 200)
    (h : Absorbing rate domain ctx xs) (input : List UInt8) :
    Absorbing rate domain (cryptoSha3Update ctx input) (xs ++ input) := by
  rw [cryptoSha3Update, if_neg (by rw [h.finalized]; exact Bool.false_ne_true)]
  induction input generalizing ctx xs with
  | nil => rwa [List.append_nil]
  | cons value input ih =>
    have hnext := ih (absorbByte_absorbing hrate hcapacity h value)
    rwa [List.append_assoc] at hnext

/-- The suffix of a variant and the first bit of the padding, as the bits of its domain byte. -/
def Encodes (domain : UInt8) (suffix : List Bool) : Prop :=
  suffix.length ≤ 4 ∧ ∀ k, (byteBits domain).getD k false = (suffix ++ [true]).getD k false

theorem padding_bits {suffix : List Bool} (hdomain : Encodes domain suffix) (s : BitString 1600)
    {used : Nat} (hused : used < rate) {bits : List Bool}
    (hbits : bits.length % (8 * rate) = 8 * used) :
    xorAt (xorAt s (8 * used) (byteBits domain)) (8 * (rate - 1)) (byteBits 0x80) =
      xorAt s (8 * used) (suffix ++ pad10star1 (8 * rate) (bits ++ suffix).length) := by
  have hsuffix := hdomain.1
  have hlast : ∀ k, (byteBits 0x80).getD k false = decide (k = 7) := by
    intro k
    rw [byteBits_getD]
    by_cases hk : k < 8
    · interval_cases k <;> rfl
    · rw [BitVec.getLsbD_of_ge _ _ (not_lt.mp hk)]
      simp
      omega
  funext i
  unfold xorAt
  rw [suffix_pad_getD (by omega), hbits, hdomain.2, hlast]
  by_cases hle : 8 * used ≤ i.val
  · have hend : (8 * (rate - 1) ≤ i.val ∧ i.val - 8 * (rate - 1) = 7) ↔
        i.val - 8 * used + 1 = 8 * rate - 8 * used := by omega
    simp only [hle, decide_true, Bool.true_and, ← Bool.decide_and, hend, Bool.xor_assoc]
  · have hend : ¬ 8 * (rate - 1) ≤ i.val := by omega
    simp [hle, hend]

/-- The context whose string `S` is squeezed and that has released `k` bytes. -/
structure Squeezing (rate : Nat) (S : BitString 1600) (k : Nat) (ctx : CryptoSha3Context) : Prop where
  rate_eq : ctx.rate = rate
  finalized : ctx.finalized = true
  position : ctx.position = k - rate * ((k - 1) / rate)
  state : lanesString ctx.state = keccakString^[(k - 1) / rate] S

theorem cryptoSha3Finalize_squeezing {suffix : List Bool} (hrate : 0 < rate) (hcapacity : rate ≤ 200)
    (hdomain : Encodes domain suffix) (h : Absorbing rate domain ctx xs) :
    Squeezing rate (absorb keccakString (8 * rate) (xs.flatMap byteBits ++ suffix ++
        pad10star1 (8 * rate) (xs.flatMap byteBits ++ suffix).length)) 0
      (cryptoSha3Finalize ctx) := by
  have hmod := Nat.mod_lt xs.length hrate
  have hsuffix := hdomain.1
  have hposition : ctx.position < 200 := by
    rw [h.position]
    omega
  have hbits : ((xs.flatMap byteBits).length) % (8 * rate) = 8 * (xs.length % rate) := by
    rw [flatMap_byteBits_length, Nat.mul_mod_mul_left]
  rw [cryptoSha3Finalize, if_neg (by rw [h.finalized]; exact Bool.false_ne_true)]
  refine ⟨h.rate_eq, rfl, ?_, ?_⟩
  · simp
  · rw [Nat.zero_sub, Nat.zero_div, Function.iterate_zero, id, lanesString_keccakF1600,
      lanesString_xorByte _ _ (by rw [h.rate_eq]; omega), lanesString_xorByte _ _ hposition,
      h.state, h.position, h.rate_eq, h.domain_eq, padding_bits hdomain _ hmod hbits,
      List.append_assoc, absorb_full (by omega), hbits]
    rw [suffix_pad_length (by omega)]
    omega

def outputByte (rate : Nat) (S : BitString 1600) (k : Nat) : List Bool :=
  (List.range 8).map fun j => bitAt (keccakString^[k / rate] S) (8 * (k % rate) + j)

theorem next_state {S : BitString 1600} {k : Nat} (hrate : 0 < rate) (h : Squeezing rate S k ctx) :
    let next := if ctx.position = ctx.rate then
        { ctx with state := keccakF1600 ctx.state, position := 0 } else ctx
    next.rate = rate ∧ next.finalized = true ∧ next.position = k % rate ∧
      lanesString next.state = keccakString^[k / rate] S := by
  have hdivision := Nat.div_add_mod (k - 1) rate
  have hmod := Nat.mod_lt (k - 1) hrate
  have hsplit := Nat.div_add_mod k rate
  have hposition := h.position
  generalize hq : (k - 1) / rate = q at *
  dsimp only
  split
  case isTrue hfull =>
    have hk : k = rate * (q + 1) := by
      rw [Nat.mul_succ]
      rw [hposition, h.rate_eq] at hfull
      omega
    refine ⟨h.rate_eq, h.finalized, ?_, ?_⟩
    · rw [hk, Nat.mul_mod_right]
    · rw [lanesString_keccakF1600, h.state, hq, hk, Nat.mul_div_cancel_left _ hrate,
        Function.iterate_succ_apply']
  case isFalse hfull =>
    have hquotient : k / rate = q := by
      rw [hposition, h.rate_eq] at hfull
      apply Nat.div_eq_of_lt_le
      · rw [Nat.mul_comm]
        omega
      · rw [Nat.succ_mul, Nat.mul_comm]
        omega
    rw [hquotient] at hsplit ⊢
    refine ⟨h.rate_eq, h.finalized, ?_, ?_⟩
    · rw [hposition]
      omega
    · rw [h.state, hq]

theorem squeezeByte_squeezing {S : BitString 1600} {k : Nat} (hrate : 0 < rate)
    (hcapacity : rate ≤ 200) (h : Squeezing rate S k ctx) :
    byteBits (squeezeByte ctx).1 = outputByte rate S k ∧
      Squeezing rate S (k + 1) (squeezeByte ctx).2 := by
  obtain ⟨hnext, hfinalized, hposition, hstate⟩ := next_state hrate h
  have hmod := Nat.mod_lt k hrate
  have hsplit := Nat.div_add_mod k rate
  unfold squeezeByte
  dsimp only
  generalize (if ctx.position = ctx.rate then
    { ctx with state := keccakF1600 ctx.state, position := 0 } else ctx) = next at *
  constructor
  · rw [byteBits_getByte _ (by omega), hstate, hposition, outputByte]
  · refine ⟨hnext, hfinalized, ?_, ?_⟩
    · change next.position + 1 = k + 1 - rate * ((k + 1 - 1) / rate)
      rw [hposition, Nat.add_sub_cancel]
      omega
    · rw [hstate, Nat.add_sub_cancel]

theorem squeezeBytes_squeezing {S : BitString 1600} {k : Nat} (hrate : 0 < rate)
    (hcapacity : rate ≤ 200) (h : Squeezing rate S k ctx) (n : Nat) :
    (squeezeBytes n ctx).1.flatMap byteBits =
        (List.range n).flatMap (fun i => outputByte rate S (k + i)) ∧
      Squeezing rate S (k + n) (squeezeBytes n ctx).2 := by
  induction n generalizing ctx k with
  | zero => exact ⟨rfl, h⟩
  | succ n ih =>
    obtain ⟨hfirst, hnext⟩ := squeezeByte_squeezing hrate hcapacity h
    obtain ⟨hrest, hlast⟩ := ih hnext
    unfold squeezeBytes
    dsimp only
    constructor
    · rw [List.flatMap_cons, hfirst, hrest, List.range_succ_eq_map, List.flatMap_cons,
        List.flatMap_map]
      simp only [Nat.add_assoc, Nat.add_comm 1, Nat.succ_eq_add_one]
      rfl
    · rwa [Nat.add_right_comm, Nat.add_assoc] at hlast

/-- The bytes of the output are the bits of the sponge, eight at a time. -/
theorem squeeze_eq (S : BitString 1600) (n : Nat) :
    squeeze keccakString (8 * rate) (8 * n) S = (List.range n).flatMap (outputByte rate S) := by
  induction n with
  | zero => rfl
  | succ n ih =>
    have hbyte : (List.range 8).map (fun j => bitAt (keccakString^[(8 * n + j) / (8 * rate)] S)
        ((8 * n + j) % (8 * rate))) = outputByte rate S n := by
      apply List.map_congr_left
      intro j hj
      have hj8 : j < 8 := List.mem_range.mp hj
      have hdiv : (8 * n + j) / (8 * rate) = n / rate := by
        rw [← Nat.div_div_eq_div_mul, Nat.mul_add_div (by decide), Nat.div_eq_of_lt hj8, Nat.add_zero]
      have hmod : (8 * n + j) % (8 * rate) = 8 * (n % rate) + j := by
        rw [Nat.mod_mul, Nat.mul_add_mod, Nat.mod_eq_of_lt hj8, Nat.mul_add_div (by decide),
          Nat.div_eq_of_lt hj8, Nat.add_zero, Nat.add_comm]
      rw [hdiv, hmod]
    rw [List.range_succ, List.flatMap_append, ← ih, List.flatMap_singleton, ← hbyte, squeeze,
      squeeze, Nat.mul_succ, List.range_add, List.map_append, List.map_map]
    rfl

end Context

section Variants

def capacityBits : LiberaCAlgID → Nat
  | .hashSha3_224 => 448
  | .hashSha3_256 => 512
  | .hashSha3_384 => 768
  | .hashSha3_512 => 1024
  | .hashShake128 => 256
  | .hashShake256 => 512
  | _ => 1600

/-- The bits that follow the message and tell the functions of the family apart. -/
def domainSuffix (alg : LiberaCAlgID) : List Bool :=
  if isShake alg then [true, true, true, true] else [false, true]

/-- The output of `n` bytes of a variant, as its bits. -/
def spongeOutput (alg : LiberaCAlgID) (message : List UInt8) (n : Nat) : List Bool :=
  sponge keccakString (1600 - capacityBits alg) (message.flatMap byteBits ++ domainSuffix alg) (8 * n)

def rateBytes (alg : LiberaCAlgID) : Nat := (1600 - capacityBits alg) / 8

def domainByte (alg : LiberaCAlgID) : UInt8 := if isShake alg then 0x1f else 0x06

def squeezedString (alg : LiberaCAlgID) (message : List UInt8) : BitString 1600 :=
  absorb keccakString (8 * rateBytes alg) (message.flatMap byteBits ++ domainSuffix alg ++
    pad10star1 (8 * rateBytes alg) (message.flatMap byteBits ++ domainSuffix alg).length)

def isSha3 (alg : LiberaCAlgID) : Bool := hashFamily alg = .sha3

def sha3State : (alg : LiberaCAlgID) → AlgorithmState alg → Option CryptoSha3Context
  | .hashSha3_224, state => some state
  | .hashSha3_256, state => some state
  | .hashSha3_384, state => some state
  | .hashSha3_512, state => some state
  | .hashShake128, state => some state
  | .hashShake256, state => some state
  | _, _ => none

def StateAbsorbed (alg : LiberaCAlgID) (state : AlgorithmState alg) (xs : List UInt8) : Prop :=
  ∃ ctx, sha3State alg state = some ctx ∧ Absorbing (rateBytes alg) (domainByte alg) ctx xs

/-- The state squeezes what belongs to a message, of which some bytes are out. -/
def StateSqueezing (alg : LiberaCAlgID) (state : AlgorithmState alg) (xs : List UInt8) (k : Nat) :
    Prop :=
  ∃ ctx, sha3State alg state = some ctx ∧ Squeezing (rateBytes alg) (squeezedString alg xs) k ctx

variable {alg : LiberaCAlgID}

theorem isSha3_facts (halg : isSha3 alg = true) : hashFamily alg ≠ .none ∧ 0 < rateBytes alg ∧
    rateBytes alg ≤ 200 ∧ 8 * rateBytes alg = 1600 - capacityBits alg := by
  revert halg
  cases alg <;> decide

theorem encodes_suffix (alg : LiberaCAlgID) : Encodes (domainByte alg) (domainSuffix alg) := by
  have hbits : ∀ (v : UInt8) (suffix : List Bool), suffix.length ≤ 4 →
      byteBits v = suffix ++ [true] ++ List.replicate (7 - suffix.length) false →
      Encodes v suffix := by
    intro v suffix hlength hv
    refine ⟨hlength, fun k => ?_⟩
    rw [hv, Sponge.getD_append]
    split
    case isTrue h => rfl
    case isFalse h =>
      rw [List.getD_eq_default (suffix ++ [true]) _ (not_lt.mp h)]
      simp
  unfold domainByte domainSuffix
  split
  · exact hbits _ _ (by decide) (by decide)
  · exact hbits _ _ (by decide) (by decide)

theorem init_sha3 (halg : isSha3 alg = true) :
    ∃ state, initState alg (hashFamily alg) = .ok state ∧ StateAbsorbed alg state [] := by
  cases alg
  case hashSha3_224 | hashSha3_256 | hashSha3_384 | hashSha3_512 | hashShake128 | hashShake256 =>
    exact ⟨_, rfl, _, rfl, absorbing_init _ _⟩
  all_goals cases halg

variable {state : AlgorithmState alg} {xs : List UInt8}

theorem update_sha3 (halg : isSha3 alg = true) (h : StateAbsorbed alg state xs)
    (input : List UInt8) :
    ∃ after, updateState _ state input = .ok after ∧ StateAbsorbed alg after (xs ++ input) := by
  obtain ⟨-, hrate, hcapacity, -⟩ := isSha3_facts halg
  obtain ⟨ctx, hctx, habsorbing⟩ := h
  have hafter := cryptoSha3Update_absorbing hrate hcapacity habsorbing input
  cases alg
  case hashSha3_224 | hashSha3_256 | hashSha3_384 | hashSha3_512 | hashShake128 | hashShake256 =>
    cases hctx
    exact ⟨_, rfl, _, rfl, hafter⟩
  all_goals cases halg

theorem finalize_sha3 (halg : isSha3 alg = true) (h : StateAbsorbed alg state xs) :
    ∃ after, finalizeState _ state = .ok after ∧ StateSqueezing alg after xs 0 := by
  obtain ⟨-, hrate, hcapacity, -⟩ := isSha3_facts halg
  obtain ⟨ctx, hctx, habsorbing⟩ := h
  have hafter := cryptoSha3Finalize_squeezing hrate hcapacity (encodes_suffix alg) habsorbing
  cases alg
  case hashSha3_224 | hashSha3_256 | hashSha3_384 | hashSha3_512 | hashShake128 | hashShake256 =>
    cases hctx
    exact ⟨_, rfl, _, rfl, hafter⟩
  all_goals cases halg

/-- Bytes `k` to `k + n` of the output of a variant, as their bits. -/
def outputBits (alg : LiberaCAlgID) (xs : List UInt8) (k n : Nat) : List Bool :=
  (List.range n).flatMap fun i => outputByte (rateBytes alg) (squeezedString alg xs) (k + i)

theorem outputBits_eq (halg : isSha3 alg = true) (xs : List UInt8) (n : Nat) :
    outputBits alg xs 0 n = spongeOutput alg xs n := by
  obtain ⟨-, -, -, hbits⟩ := isSha3_facts halg
  rw [spongeOutput, sponge, ← hbits, squeeze_eq, outputBits]
  simp only [Nat.zero_add]
  rfl

theorem outputBits_add (alg : LiberaCAlgID) (xs : List UInt8) (k m n : Nat) :
    outputBits alg xs k (m + n) = outputBits alg xs k m ++ outputBits alg xs (k + m) n := by
  unfold outputBits
  rw [List.range_add, List.flatMap_append, List.flatMap_map]
  simp only [Nat.add_assoc]

theorem squeezeBytes_length (n : Nat) (ctx : CryptoSha3Context) :
    (squeezeBytes n ctx).1.length = n := by
  induction n generalizing ctx with
  | zero => rfl
  | succ n ih => exact congrArg (· + 1) (ih _)

theorem cryptoSha3Squeeze_squeezing {S : BitString 1600} {ctx : CryptoSha3Context} {rate k : Nat}
    (hrate : 0 < rate) (hcapacity : rate ≤ 200) (h : Squeezing rate S k ctx) (n : Nat) :
    (cryptoSha3Squeeze ctx n).1.length = n ∧
      (cryptoSha3Squeeze ctx n).1.flatMap byteBits =
        (List.range n).flatMap (fun i => outputByte rate S (k + i)) ∧
      Squeezing rate S (k + n) (cryptoSha3Squeeze ctx n).2 := by
  rw [cryptoSha3Squeeze, if_pos h.finalized]
  exact ⟨squeezeBytes_length n ctx, squeezeBytes_squeezing hrate hcapacity h n⟩

theorem squeeze_sha3 (hshake : isShake alg = true) {k : Nat} (h : StateSqueezing alg state xs k)
    (n : Nat) :
    (squeezeXof n _ state).1.length = n ∧
      (squeezeXof n _ state).1.flatMap byteBits = outputBits alg xs k n ∧
      StateSqueezing alg (squeezeXof n _ state).2 xs (k + n) := by
  obtain ⟨ctx, hctx, hsqueezing⟩ := h
  cases alg
  case hashShake128 | hashShake256 =>
    cases hctx
    obtain ⟨hlength, hbits, hafter⟩ :=
      cryptoSha3Squeeze_squeezing (by decide) (by decide) hsqueezing n
    exact ⟨hlength, hbits, _, rfl, hafter⟩
  all_goals cases hshake

theorem digest_sha3 (halg : isSha3 alg = true) (h : StateSqueezing alg state xs 0) :
    ∃ digest, squeezeFixed alg (fixedDigestLength alg) _ state = .ok digest ∧
      digest.flatMap byteBits = spongeOutput alg xs (fixedDigestLength alg) := by
  rw [← outputBits_eq halg]
  obtain ⟨-, hrate, hcapacity, -⟩ := isSha3_facts halg
  obtain ⟨ctx, hctx, hsqueezing⟩ := h
  have hdigest := (cryptoSha3Squeeze_squeezing hrate hcapacity hsqueezing (fixedDigestLength alg)).2.1
  cases alg
  case hashSha3_224 | hashSha3_256 | hashSha3_384 | hashSha3_512 | hashShake128 | hashShake256 =>
    cases hctx
    exact ⟨_, rfl, hdigest⟩
  all_goals cases halg

end Variants

section Streaming

variable {alg : LiberaCAlgID} {xs : List UInt8}

/-- One `SQUEEZE` for each request: whether `OUTPUT` is NULL, and the length. -/
def squeezeAll (requests : List (Bool × Nat)) : OnContext (List (List UInt8)) :=
  match requests with
  | [] => pure []
  | request :: requests => do
    let output ← liberacHashSqueeze request.1 request.2
    let outputs ← squeezeAll requests
    pure (output :: outputs)

def releaseOutputs (requests : List (Bool × Nat)) : OnContext (List (List UInt8)) := do
  liberacHashFinalize
  squeezeAll requests

theorem sha3_streams (halg : isSha3 alg = true) :
    Streams alg (StateAbsorbed alg) fun _ => True where
  family := (isSha3_facts halg).1
  init := init_sha3 halg
  update h _ _ := update_sha3 halg h _
  mono _ _ := trivial

theorem liberacHashSqueeze_shake (hshake : isShake alg = true) {phase : CryptoHashPhase}
    (hphase : phase = .finalized ∨ phase = .squeezing) (request : Bool × Nat)
    (hrequest : request.1 = true → request.2 = 0) (state : AlgorithmState alg) :
    liberacHashSqueeze request.1 request.2 ⟨cryptoHashContextMagic, alg, phase, state⟩ =
      (.ok (squeezeXof request.2 _ state).1,
        ⟨cryptoHashContextMagic, alg, .squeezing, (squeezeXof request.2 _ state).2⟩) := by
  have halg : hashFamily alg ≠ .none := by
    revert hshake
    cases alg <;> decide
  have hloads : (⟨cryptoHashContextMagic, alg, phase, state⟩ : LiberaCHashContext).Loads := by
    refine ⟨rfl, halg, ?_⟩
    rcases hphase with rfl | rfl <;> simp
  unfold liberacHashSqueeze
  rw [if_neg, if_pos (by exact hshake), if_neg]
  · rintro ⟨hfinalized, hsqueezing⟩
    exact hphase.elim hfinalized hsqueezing
  · rintro (⟨hnull, hlength⟩ | hnot)
    · exact hlength (hrequest hnull)
    · exact hnot hloads

theorem squeezeAll_bits (hshake : isShake alg = true) (requests : List (Bool × Nat))
    (hrequests : ∀ request ∈ requests, request.1 = true → request.2 = 0)
    {phase : CryptoHashPhase} (hphase : phase = .finalized ∨ phase = .squeezing)
    {state : AlgorithmState alg} {k : Nat} (h : StateSqueezing alg state xs k) :
    ∃ outputs, (squeezeAll requests ⟨cryptoHashContextMagic, alg, phase, state⟩).1 = .ok outputs ∧
      outputs.map List.length = requests.map Prod.snd ∧
      outputs.flatten.flatMap byteBits = outputBits alg xs k (requests.map Prod.snd).sum := by
  induction requests generalizing phase state k with
  | nil => exact ⟨[], rfl, rfl, rfl⟩
  | cons request requests ih =>
    have hfirst := liberacHashSqueeze_shake hshake hphase request
      (hrequests request List.mem_cons_self) state
    obtain ⟨hlength, hbits, hafter⟩ := squeeze_sha3 hshake h request.2
    obtain ⟨outputs, hrest, hlengths, hrestbits⟩ :=
      ih (fun r hr => hrequests r (List.mem_cons_of_mem request hr)) (.inr rfl) hafter
    refine ⟨(squeezeXof request.2 _ state).1 :: outputs, ?_, ?_, ?_⟩
    · rw [squeezeAll, bind_ok hfirst, bind_ok (Prod.ext hrest rfl)]
      rfl
    · rw [List.map_cons, List.map_cons, hlength, hlengths]
    · rw [List.flatten_cons, List.flatMap_append, hbits, hrestbits, List.map_cons, List.sum_cons,
        outputBits_add]

theorem byteBits_injective {v w : UInt8} (h : byteBits v = byteBits w) : v = w := by
  apply UInt8.toBitVec_inj.mp
  apply BitVec.eq_of_getLsbD_eq
  intro k _
  rw [← byteBits_getD, ← byteBits_getD, h]

theorem bytes_ext {xs ys : List UInt8} (h : xs.flatMap byteBits = ys.flatMap byteBits) : xs = ys := by
  induction xs generalizing ys with
  | nil =>
    have hlength := congrArg List.length h
    rw [flatMap_byteBits_length, flatMap_byteBits_length] at hlength
    exact (List.length_eq_zero_iff.mp (by simpa using hlength.symm)).symm
  | cons x xs ih =>
    cases ys with
    | nil =>
      have hlength := congrArg List.length h
      rw [flatMap_byteBits_length, flatMap_byteBits_length] at hlength
      simp at hlength
    | cons y ys =>
      rw [List.flatMap_cons, List.flatMap_cons] at h
      obtain ⟨hfirst, hrest⟩ := List.append_inj h (by rw [byteBits_length, byteBits_length])
      rw [byteBits_injective hfirst, ih hrest]

theorem releaseDigest_bits (halg : isSha3 alg = true) (hfixed : isShake alg = false)
    {state : AlgorithmState alg} (h : StateAbsorbed alg state xs) {capacity : Nat}
    (hcapacity : fixedDigestLength alg ≤ capacity) :
    ∃ digest, (releaseDigest capacity ⟨cryptoHashContextMagic, alg, .absorbing, state⟩).1 =
        .ok digest ∧ digest.flatMap byteBits = spongeOutput alg xs (fixedDigestLength alg) := by
  have hfamily := (isSha3_facts halg).1
  obtain ⟨after, hfinalize, hsqueezing⟩ := finalize_sha3 halg h
  obtain ⟨digest, hdigest, hbits⟩ := digest_sha3 halg hsqueezing
  refine ⟨digest, ?_, hbits⟩
  rw [releaseDigest, bind_ok (liberacHashFinalize_ok hfamily hfinalize),
    liberacHashSqueeze_fixed hfamily hfixed hcapacity hdigest]

theorem releaseOutputs_bits (halg : isSha3 alg = true) (hshake : isShake alg = true)
    {state : AlgorithmState alg} (h : StateAbsorbed alg state xs) (requests : List (Bool × Nat))
    (hrequests : ∀ request ∈ requests, request.1 = true → request.2 = 0) :
    ∃ outputs, (releaseOutputs requests ⟨cryptoHashContextMagic, alg, .absorbing, state⟩).1 =
        .ok outputs ∧ outputs.map List.length = requests.map Prod.snd ∧
      outputs.flatten.flatMap byteBits = spongeOutput alg xs (requests.map Prod.snd).sum := by
  have hfamily := (isSha3_facts halg).1
  obtain ⟨after, hfinalize, hsqueezing⟩ := finalize_sha3 halg h
  obtain ⟨outputs, houtputs, hlengths, hbits⟩ :=
    squeezeAll_bits hshake requests hrequests (.inl rfl) hsqueezing
  refine ⟨outputs, ?_, hlengths, hbits.trans (outputBits_eq halg xs _)⟩
  rw [releaseOutputs, bind_ok (liberacHashFinalize_ok hfamily hfinalize), houtputs]

/-- The one call gives the output of the sponge of the length that is asked for, or of the length
of the digest. -/
theorem liberacHash_bits (halg : isSha3 alg = true) {whole : InputBytes} (length : Nat)
    (hthere : whole.missing = false)
    (hlength : isShake alg = false → fixedDigestLength alg ≤ length) :
    ∃ output, liberacHash false length whole alg = .ok output ∧
      output.flatMap byteBits = spongeOutput alg whole.data
        (if isShake alg then length else fixedDigestLength alg) := by
  have hfamily := (isSha3_facts halg).1
  obtain ⟨state, hinit, hstate⟩ := init_sha3 halg
  obtain ⟨after, hupdate, hafter⟩ := update_sha3 halg hstate whole.data
  rw [List.nil_append] at hafter
  have hcalls : ∀ output, (releaseDigest length
        ⟨cryptoHashContextMagic, alg, .absorbing, after⟩).1 = .ok output →
      liberacHash false length whole alg = .ok output := by
    intro output hrelease
    have hfixed : isShake alg = false → fixedDigestLength alg ≠ 0 := by
      revert halg
      cases alg <;> decide
    unfold liberacHash
    rw [if_neg (by simp [hthere]), if_neg, if_neg, hashCalls,
      bind_ok (liberacHashInit_ok hinit clearedContext),
      bind_ok (liberacHashUpdate_ok hfamily hthere hupdate)]
    · exact hrelease
    · rintro ⟨hshake, hshort⟩
      exact not_lt.mpr (hlength (Bool.eq_false_iff.mpr hshake)) hshort
    · rintro ⟨hshake, hzero⟩
      exact hfixed (Bool.eq_false_iff.mpr hshake) hzero
  cases hshake : isShake alg with
  | true =>
    obtain ⟨squeezed, hfinalize, hsqueezing⟩ := finalize_sha3 halg hafter
    have hsqueeze := liberacHashSqueeze_shake hshake (.inl rfl) (false, length)
      (fun h => absurd h Bool.false_ne_true) squeezed
    obtain ⟨-, hbits, -⟩ := squeeze_sha3 hshake hsqueezing length
    refine ⟨_, hcalls _ ?_, hbits.trans (outputBits_eq halg _ _)⟩
    rw [releaseDigest, bind_ok (liberacHashFinalize_ok hfamily hfinalize)]
    exact congrArg Prod.fst hsqueeze
  | false =>
    obtain ⟨digest, hrelease, hbits⟩ := releaseDigest_bits halg hshake hafter (hlength hshake)
    exact ⟨digest, hcalls digest hrelease, hbits⟩

/-- Any division of the input, and for the extendable functions of the output, gives the output of
the sponge, which is that of the one call. -/
theorem sponge_streaming (halg : isSha3 alg = true) (chunks : List InputBytes)
    (hthere : ∀ chunk ∈ chunks, chunk.missing = false ∧ chunk.data.length < 2 ^ 64)
    (start : LiberaCHashContext) :
    ∃ context, absorbChunks alg chunks start = (.ok (), context) ∧
      (isShake alg = false → ∀ capacity, fixedDigestLength alg ≤ capacity →
        ∃ digest, (releaseDigest capacity context).1 = .ok digest ∧
          digest.flatMap byteBits =
            spongeOutput alg (chunks.flatMap InputBytes.data) (fixedDigestLength alg) ∧
          ∀ whole : InputBytes, whole.missing = false →
            whole.data = chunks.flatMap InputBytes.data →
            liberacHash false capacity whole alg = .ok digest) ∧
      (isShake alg = true → ∀ requests : List (Bool × Nat),
        (∀ request ∈ requests, request.1 = true → request.2 = 0) →
        ∃ outputs, (releaseOutputs requests context).1 = .ok outputs ∧
          outputs.map List.length = requests.map Prod.snd ∧
          outputs.flatten.flatMap byteBits = spongeOutput alg (chunks.flatMap InputBytes.data)
            (requests.map Prod.snd).sum ∧
          ∀ whole : InputBytes, whole.missing = false →
            whole.data = chunks.flatMap InputBytes.data →
            liberacHash false (requests.map Prod.snd).sum whole alg = .ok outputs.flatten) := by
  obtain ⟨state, habsorb, hstate⟩ := (sha3_streams halg).absorbChunks chunks hthere trivial start
  refine ⟨_, habsorb, fun hfixed capacity hcapacity => ?_, fun hshake requests hrequests => ?_⟩
  · obtain ⟨digest, hrelease, hbits⟩ := releaseDigest_bits halg hfixed hstate hcapacity
    refine ⟨digest, hrelease, hbits, fun whole hwhole hdata => ?_⟩
    obtain ⟨output, hone, honebits⟩ := liberacHash_bits halg capacity hwhole fun _ => hcapacity
    rw [if_neg (by rw [hfixed]; exact Bool.false_ne_true), hdata, ← hbits] at honebits
    rw [hone, bytes_ext honebits]
  · obtain ⟨outputs, hrelease, hlengths, hbits⟩ :=
      releaseOutputs_bits halg hshake hstate requests hrequests
    refine ⟨outputs, hrelease, hlengths, hbits, fun whole hwhole hdata => ?_⟩
    obtain ⟨output, hone, honebits⟩ := liberacHash_bits halg (requests.map Prod.snd).sum hwhole
      fun hfixed => absurd (hshake.symm.trans hfixed) (by simp)
    rw [if_pos hshake, hdata, ← hbits] at honebits
    rw [hone, bytes_ext honebits]

/-- A message that ends one byte before the rate, and output in three requests. -/
theorem sponge_streaming_rate :
    ∃ context, absorbChunks .hashShake128 [.bytes (List.replicate 100 0), .null 0,
        .bytes (List.replicate 67 0)] clearedContext = (.ok (), context) ∧
      ∃ outputs, (releaseOutputs [(false, 168), (true, 0), (false, 1)] context).1 = .ok outputs ∧
        outputs.flatten.flatMap byteBits =
          spongeOutput .hashShake128 (List.replicate 167 0) 169 := by
  obtain ⟨context, habsorb, -, hshake⟩ := sponge_streaming (show isSha3 .hashShake128 = true by decide)
    [.bytes (List.replicate 100 0), .null 0, .bytes (List.replicate 67 0)] (by decide) clearedContext
  obtain ⟨outputs, hrelease, -, hbits, -⟩ :=
    hshake (by decide) [(false, 168), (true, 0), (false, 1)] (by decide)
  have hdata : [InputBytes.bytes (List.replicate 100 0), .null 0,
      .bytes (List.replicate 67 0)].flatMap InputBytes.data = List.replicate 167 0 := by
    simp [InputBytes.data]
  rw [hdata] at hbits
  exact ⟨context, habsorb, outputs, hrelease, hbits⟩

end Streaming

end LiberaCrypt.Sha3Streaming
