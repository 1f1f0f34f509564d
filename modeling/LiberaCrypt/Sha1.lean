import LiberaCrypt.CountedLoop
import LiberaCrypt.Def
import LiberaCrypt.Endian
import LiberaCrypt.MerkleDamgard

namespace LiberaCrypt.Sha1

open LiberaCrypt.Outcome LiberaCrypt.CountedLoop LiberaCrypt.Endian LiberaCrypt.BlockBuffer
open LiberaCrypt.MerkleDamgard

def rol32 (x n : UInt32) : UInt32 := (x <<< n) ||| (x >>> (32 - n))

structure Rounds where
  w : Array UInt32
  a : UInt32
  b : UInt32
  c : UInt32
  d : UInt32
  e : UInt32

/-- The word for round `i`, which takes the place of an older one from round 16 on. -/
def scheduleWord (w : Array UInt32) (i : Nat) : Array UInt32 :=
  if 16 ≤ i then
    w.setIfInBounds (i % 16) (rol32 (w.getD ((i - 3) % 16) 0 ^^^ w.getD ((i - 8) % 16) 0 ^^^
      w.getD ((i - 14) % 16) 0 ^^^ w.getD (i % 16) 0) 1)
  else w

def roundFunction (i : Nat) (b c d : UInt32) : UInt32 × UInt32 :=
  if i < 20 then ((b &&& c) ||| (~~~b &&& d), 0x5a827999)
  else if i < 40 then (b ^^^ c ^^^ d, 0x6ed9eba1)
  else if i < 60 then ((b &&& c) ||| (b &&& d) ||| (c &&& d), 0x8f1bbcdc)
  else (b ^^^ c ^^^ d, 0xca62c1d6)

def round (i : Nat) (r : Rounds) : Rounds :=
  let w := scheduleWord r.w i
  let fk := roundFunction i r.b r.c r.d
  let t := rol32 r.a 5 + fk.1 + r.e + fk.2 + w.getD (i % 16) 0
  ⟨w, t, r.a, rol32 r.b 30, r.c, r.d⟩

def sha1Compress (state : Vector UInt32 5) (block : List UInt8) : Vector UInt32 5 :=
  let w := Array.ofFn fun i : Fin 16 => cryptoLoad32Be (block.drop (4 * i))
  let r := countUp 80 round ⟨w, state[0], state[1], state[2], state[3], state[4]⟩
  #v[state[0] + r.a, state[1] + r.b, state[2] + r.c, state[3] + r.d, state[4] + r.e]

/-- `LENGTH` counts bits. -/
structure CryptoSha1Context where
  buffer : Buffer (Vector UInt32 5) UInt8
  length : UInt64

def cryptoSha1Init : CryptoSha1Context :=
  ⟨⟨#v[0x67452301, 0xefcdab89, 0x98badcfe, 0x10325476, 0xc3d2e1f0], List.replicate 64 0, 0⟩, 0⟩

def cryptoSha1Update (ctx : CryptoSha1Context) (input : List UInt8) :
    Except LiberaCError CryptoSha1Context :=
  let length := UInt64.ofNat input.length
  if (0xffffffffffffffff - ctx.length) / 8 < length then .error .messageTooLarge
  else .ok ⟨update sha1Compress 64 ctx.buffer input, ctx.length + length * 8⟩

def cryptoSha1Finalize (ctx : CryptoSha1Context) : CryptoSha1Context :=
  let encoded := cryptoStore64Be ctx.length
  { ctx with buffer := finish sha1Compress 64 56 56 0x80 0 encoded ctx.buffer }

def cryptoSha1Squeeze (ctx : CryptoSha1Context) : List UInt8 :=
  ctx.buffer.state.toList.flatMap cryptoStore32Be

/-- The digest of `xs`: the fold of the compression over the padded message. -/
def sha1Digest (xs : List UInt8) : List UInt8 :=
  (foldPadded sha1Compress 64 0x80 0 (bigEndian 8 (8 * xs.length)) cryptoSha1Init.buffer.state
    xs).toList.flatMap cryptoStore32Be

/-- The context that has absorbed `xs`. -/
structure CryptoSha1Context.Holds (ctx : CryptoSha1Context) (xs : List UInt8) : Prop where
  absorbed : Absorbed sha1Compress 64 cryptoSha1Init.buffer.state xs ctx.buffer
  length : ctx.length.toNat = 8 * xs.length

section Streaming

variable {ctx : CryptoSha1Context} {xs input : List UInt8}

theorem cryptoSha1Init_holds : cryptoSha1Init.Holds [] :=
  ⟨absorbed_start (by decide) rfl, rfl⟩

/-- The check on the length allows exactly the messages of fewer than `2 ^ 61` bytes. -/
theorem length_check (h : ctx.Holds xs) (hsize : input.length < 2 ^ 64) :
    (0xffffffffffffffff - ctx.length) / 8 < UInt64.ofNat input.length ↔
      2 ^ 61 ≤ xs.length + input.length := by
  have hlt := ctx.length.toNat_lt
  have hlength := h.length
  have hle : ctx.length ≤ 0xffffffffffffffff := by
    rw [UInt64.le_iff_toNat_le]
    change _ ≤ 2 ^ 64 - 1
    omega
  rw [UInt64.lt_iff_toNat_lt, UInt64.toNat_div, UInt64.toNat_sub_of_le _ _ hle,
    UInt64.toNat_ofNat_of_lt' hsize]
  change (2 ^ 64 - 1 - ctx.length.toNat) / 8 < _ ↔ _
  omega

theorem cryptoSha1Update_holds (h : ctx.Holds xs) (hlimit : xs.length + input.length < 2 ^ 61) :
    ∃ after, cryptoSha1Update ctx input = .ok after ∧ after.Holds (xs ++ input) := by
  have hsize : input.length < 2 ^ 64 := by omega
  refine ⟨_, if_neg (fun hc => ?_), update_absorbed (by decide) h.absorbed input, ?_⟩
  · have hover := (length_check h hsize).mp hc
    omega
  · have hlength := h.length
    rw [UInt64.toNat_add, UInt64.toNat_mul, UInt64.toNat_ofNat_of_lt' hsize, List.length_append]
    change (_ + _ * 8 % 2 ^ 64) % 2 ^ 64 = _
    omega

theorem cryptoSha1Update_tooLarge (h : ctx.Holds xs) (hsize : input.length < 2 ^ 64)
    (hlimit : 2 ^ 61 ≤ xs.length + input.length) :
    cryptoSha1Update ctx input = .error .messageTooLarge :=
  if_pos ((length_check h hsize).mpr hlimit)

theorem cryptoSha1Finalize_digest (h : ctx.Holds xs) :
    cryptoSha1Squeeze (cryptoSha1Finalize ctx) = sha1Digest xs := by
  have hstate := finish_state (0x80 : UInt8) 0 (cryptoStore64Be ctx.length) (by decide) h.absorbed
    (le_refl 56) (by decide) rfl
  rw [cryptoStore64Be_eq, h.length] at hstate
  rw [cryptoSha1Squeeze, cryptoSha1Finalize, sha1Digest, ← hstate, cryptoStore64Be_eq, h.length]

end Streaming

theorem stores_length {α : Type} (f : α → List UInt8) {k : Nat} (hf : ∀ x, (f x).length = k)
    (words : List α) : (words.flatMap f).length = k * words.length := by
  induction words with
  | nil => rfl
  | cons x words ih =>
    rw [List.flatMap_cons, List.length_append, hf, ih, List.length_cons, Nat.mul_succ, Nat.add_comm]

theorem sha1Digest_length (xs : List UInt8) : (sha1Digest xs).length = 20 := by
  rw [sha1Digest, stores_length (k := 4) cryptoStore32Be fun _ => rfl, Vector.length_toList]

end LiberaCrypt.Sha1
