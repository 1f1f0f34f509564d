import LiberaCrypt.CountedLoop
import LiberaCrypt.Def
import LiberaCrypt.Endian
import LiberaCrypt.MerkleDamgard

namespace LiberaCrypt.Sha2

open LiberaCrypt.Outcome LiberaCrypt.Def LiberaCrypt.CountedLoop LiberaCrypt.Endian
open LiberaCrypt.BlockBuffer LiberaCrypt.MerkleDamgard

def sha256RoundConstants : Array UInt32 := #[
  0x428a2f98, 0x71374491, 0xb5c0fbcf, 0xe9b5dba5, 0x3956c25b, 0x59f111f1, 0x923f82a4, 0xab1c5ed5,
  0xd807aa98, 0x12835b01, 0x243185be, 0x550c7dc3, 0x72be5d74, 0x80deb1fe, 0x9bdc06a7, 0xc19bf174,
  0xe49b69c1, 0xefbe4786, 0x0fc19dc6, 0x240ca1cc, 0x2de92c6f, 0x4a7484aa, 0x5cb0a9dc, 0x76f988da,
  0x983e5152, 0xa831c66d, 0xb00327c8, 0xbf597fc7, 0xc6e00bf3, 0xd5a79147, 0x06ca6351, 0x14292967,
  0x27b70a85, 0x2e1b2138, 0x4d2c6dfc, 0x53380d13, 0x650a7354, 0x766a0abb, 0x81c2c92e, 0x92722c85,
  0xa2bfe8a1, 0xa81a664b, 0xc24b8b70, 0xc76c51a3, 0xd192e819, 0xd6990624, 0xf40e3585, 0x106aa070,
  0x19a4c116, 0x1e376c08, 0x2748774c, 0x34b0bcb5, 0x391c0cb3, 0x4ed8aa4a, 0x5b9cca4f, 0x682e6ff3,
  0x748f82ee, 0x78a5636f, 0x84c87814, 0x8cc70208, 0x90befffa, 0xa4506ceb, 0xbef9a3f7, 0xc67178f2]

def sha512RoundConstants : Array UInt64 := #[
  0x428a2f98d728ae22, 0x7137449123ef65cd, 0xb5c0fbcfec4d3b2f, 0xe9b5dba58189dbbc,
  0x3956c25bf348b538, 0x59f111f1b605d019, 0x923f82a4af194f9b, 0xab1c5ed5da6d8118,
  0xd807aa98a3030242, 0x12835b0145706fbe, 0x243185be4ee4b28c, 0x550c7dc3d5ffb4e2,
  0x72be5d74f27b896f, 0x80deb1fe3b1696b1, 0x9bdc06a725c71235, 0xc19bf174cf692694,
  0xe49b69c19ef14ad2, 0xefbe4786384f25e3, 0x0fc19dc68b8cd5b5, 0x240ca1cc77ac9c65,
  0x2de92c6f592b0275, 0x4a7484aa6ea6e483, 0x5cb0a9dcbd41fbd4, 0x76f988da831153b5,
  0x983e5152ee66dfab, 0xa831c66d2db43210, 0xb00327c898fb213f, 0xbf597fc7beef0ee4,
  0xc6e00bf33da88fc2, 0xd5a79147930aa725, 0x06ca6351e003826f, 0x142929670a0e6e70,
  0x27b70a8546d22ffc, 0x2e1b21385c26c926, 0x4d2c6dfc5ac42aed, 0x53380d139d95b3df,
  0x650a73548baf63de, 0x766a0abb3c77b2a8, 0x81c2c92e47edaee6, 0x92722c851482353b,
  0xa2bfe8a14cf10364, 0xa81a664bbc423001, 0xc24b8b70d0f89791, 0xc76c51a30654be30,
  0xd192e819d6ef5218, 0xd69906245565a910, 0xf40e35855771202a, 0x106aa07032bbd1b8,
  0x19a4c116b8d2d0c8, 0x1e376c085141ab53, 0x2748774cdf8eeb99, 0x34b0bcb5e19b48a8,
  0x391c0cb3c5c95a63, 0x4ed8aa4ae3418acb, 0x5b9cca4f7763e373, 0x682e6ff3d6b2b8a3,
  0x748f82ee5defb2fc, 0x78a5636f43172f60, 0x84c87814a1f0ab72, 0x8cc702081a6439ec,
  0x90befffa23631e28, 0xa4506cebde82bde9, 0xbef9a3f7b2c67915, 0xc67178f2e372532b,
  0xca273eceea26619c, 0xd186b8c721c0c207, 0xeada7dd6cde0eb1e, 0xf57d4f7fee6ed178,
  0x06f067aa72176fba, 0x0a637dc5a2c898a6, 0x113f9804bef90dae, 0x1b710b35131c471b,
  0x28db77f523047d84, 0x32caab7b40c72493, 0x3c9ebe0a15c9bebc, 0x431d67c49c100d4c,
  0x4cc5d4becb3e42b6, 0x597f299cfc657e2a, 0x5fcb6fab3ad6faec, 0x6c44198c4a475817]

structure Rounds (ω : Type) where
  a : ω
  b : ω
  c : ω
  d : ω
  e : ω
  f : ω
  g : ω
  h : ω

def sha256Extend (schedule : Array UInt32) (round : Nat) : Array UInt32 :=
  let x := schedule.getD (round - 15) 0
  let y := schedule.getD (round - 2) 0
  let s0 := cryptoRotr32 x 7 ^^^ cryptoRotr32 x 18 ^^^ (x >>> 3)
  let s1 := cryptoRotr32 y 17 ^^^ cryptoRotr32 y 19 ^^^ (y >>> 10)
  schedule.push (schedule.getD (round - 16) 0 + s0 + schedule.getD (round - 7) 0 + s1)

/-- The words of the block and, from round 16 on, those computed from earlier ones. -/
def sha256Schedule (block : List UInt8) : Array UInt32 :=
  countUp 48 (fun i schedule => sha256Extend schedule (16 + i))
    (Array.ofFn fun i : Fin 16 => cryptoLoad32Be (block.drop (4 * i)))

def sha256Round (schedule : Array UInt32) (round : Nat) (r : Rounds UInt32) : Rounds UInt32 :=
  let sigma1 := cryptoRotr32 r.e 6 ^^^ cryptoRotr32 r.e 11 ^^^ cryptoRotr32 r.e 25
  let choice := (r.e &&& r.f) ^^^ (~~~r.e &&& r.g)
  let temporary1 :=
    r.h + sigma1 + choice + sha256RoundConstants.getD round 0 + schedule.getD round 0
  let sigma0 := cryptoRotr32 r.a 2 ^^^ cryptoRotr32 r.a 13 ^^^ cryptoRotr32 r.a 22
  let majority := (r.a &&& r.b) ^^^ (r.a &&& r.c) ^^^ (r.b &&& r.c)
  let temporary2 := sigma0 + majority
  ⟨temporary1 + temporary2, r.a, r.b, r.c, r.d + temporary1, r.e, r.f, r.g⟩

def sha256Compress (state : Vector UInt32 8) (block : List UInt8) : Vector UInt32 8 :=
  let schedule := sha256Schedule block
  let r := countUp 64 (sha256Round schedule)
    ⟨state[0], state[1], state[2], state[3], state[4], state[5], state[6], state[7]⟩
  #v[state[0] + r.a, state[1] + r.b, state[2] + r.c, state[3] + r.d,
    state[4] + r.e, state[5] + r.f, state[6] + r.g, state[7] + r.h]

def sha512Extend (schedule : Array UInt64) (round : Nat) : Array UInt64 :=
  let x := schedule.getD (round - 15) 0
  let y := schedule.getD (round - 2) 0
  let s0 := cryptoRotr64 x 1 ^^^ cryptoRotr64 x 8 ^^^ (x >>> 7)
  let s1 := cryptoRotr64 y 19 ^^^ cryptoRotr64 y 61 ^^^ (y >>> 6)
  schedule.push (schedule.getD (round - 16) 0 + s0 + schedule.getD (round - 7) 0 + s1)

def sha512Schedule (block : List UInt8) : Array UInt64 :=
  countUp 64 (fun i schedule => sha512Extend schedule (16 + i))
    (Array.ofFn fun i : Fin 16 => cryptoLoad64Be (block.drop (8 * i)))

def sha512Round (schedule : Array UInt64) (round : Nat) (r : Rounds UInt64) : Rounds UInt64 :=
  let sigma1 := cryptoRotr64 r.e 14 ^^^ cryptoRotr64 r.e 18 ^^^ cryptoRotr64 r.e 41
  let choice := (r.e &&& r.f) ^^^ (~~~r.e &&& r.g)
  let temporary1 :=
    r.h + sigma1 + choice + sha512RoundConstants.getD round 0 + schedule.getD round 0
  let sigma0 := cryptoRotr64 r.a 28 ^^^ cryptoRotr64 r.a 34 ^^^ cryptoRotr64 r.a 39
  let majority := (r.a &&& r.b) ^^^ (r.a &&& r.c) ^^^ (r.b &&& r.c)
  let temporary2 := sigma0 + majority
  ⟨temporary1 + temporary2, r.a, r.b, r.c, r.d + temporary1, r.e, r.f, r.g⟩

def sha512Compress (state : Vector UInt64 8) (block : List UInt8) : Vector UInt64 8 :=
  let schedule := sha512Schedule block
  let r := countUp 80 (sha512Round schedule)
    ⟨state[0], state[1], state[2], state[3], state[4], state[5], state[6], state[7]⟩
  #v[state[0] + r.a, state[1] + r.b, state[2] + r.c, state[3] + r.d,
    state[4] + r.e, state[5] + r.f, state[6] + r.g, state[7] + r.h]

/-- The union of the two state arrays; `USE_SHA512` is which of them is in use. -/
inductive CryptoSha2State
  | words32 (words : Vector UInt32 8)
  | words64 (words : Vector UInt64 8)

def CryptoSha2State.useSha512 : CryptoSha2State → Bool
  | words32 _ => false
  | words64 _ => true

def sha2Compress : CryptoSha2State → List UInt8 → CryptoSha2State
  | .words32 words, block => .words32 (sha256Compress words block)
  | .words64 words, block => .words64 (sha512Compress words block)

/-- `LENGTH_LOW` and `LENGTH_HIGH` count bytes. -/
structure CryptoSha2Context where
  buffer : Buffer CryptoSha2State UInt8
  lengthLow : UInt64
  lengthHigh : UInt64

def CryptoSha2Context.useSha512 (ctx : CryptoSha2Context) : Bool := ctx.buffer.state.useSha512

def iv224 : Vector UInt32 8 := #v[
  0xc1059ed8, 0x367cd507, 0x3070dd17, 0xf70e5939, 0xffc00b31, 0x68581511, 0x64f98fa7, 0xbefa4fa4]

def iv256 : Vector UInt32 8 := #v[
  0x6a09e667, 0xbb67ae85, 0x3c6ef372, 0xa54ff53a, 0x510e527f, 0x9b05688c, 0x1f83d9ab, 0x5be0cd19]

def iv384 : Vector UInt64 8 := #v[
  0xcbbb9d5dc1059ed8, 0x629a292a367cd507, 0x9159015a3070dd17, 0x152fecd8f70e5939,
  0x67332667ffc00b31, 0x8eb44a8768581511, 0xdb0c2e0d64f98fa7, 0x47b5481dbefa4fa4]

def iv512 : Vector UInt64 8 := #v[
  0x6a09e667f3bcc908, 0xbb67ae8584caa73b, 0x3c6ef372fe94f82b, 0xa54ff53a5f1d36f1,
  0x510e527fade682d1, 0x9b05688c2b3e6c1f, 0x1f83d9abfb41bd6b, 0x5be0cd19137e2179]

def iv512_224 : Vector UInt64 8 := #v[
  0x8c3d37c819544da2, 0x73e1996689dcd4d6, 0x1dfab7ae32ff9c82, 0x679dd514582f9fcf,
  0x0f6d2b697bd44da8, 0x77e36f7304c48942, 0x3f9d85a86a1d36c8, 0x1112e6ad91d692a1]

def iv512_256 : Vector UInt64 8 := #v[
  0x22312194fc2bf72c, 0x9f555fa3c84c64c2, 0x2393b86b6f53b151, 0x963877195940eabd,
  0x96283ee2a88effe3, 0xbe5e1e2553863992, 0x2b0199fc2c85b8aa, 0x0eb72ddc81c52ca2]

def cryptoSha2Start (state : CryptoSha2State) : CryptoSha2Context :=
  ⟨⟨state, List.replicate 128 0, 0⟩, 0, 0⟩

def cryptoSha2Init : LiberaCAlgID → Except LiberaCError CryptoSha2Context
  | .hashSha2_224 => .ok (cryptoSha2Start (.words32 iv224))
  | .hashSha2_256 => .ok (cryptoSha2Start (.words32 iv256))
  | .hashSha2_384 => .ok (cryptoSha2Start (.words64 iv384))
  | .hashSha2_512 => .ok (cryptoSha2Start (.words64 iv512))
  | .hashSha2_512_224 => .ok (cryptoSha2Start (.words64 iv512_224))
  | .hashSha2_512_256 => .ok (cryptoSha2Start (.words64 iv512_256))
  | _ => .error .invalidAlgId

def sha2AddLength (ctx : CryptoSha2Context) (inputLength : Nat) :
    Except LiberaCError CryptoSha2Context :=
  let maximum := (0xffffffffffffffff : UInt64) >>> 3
  let addition := UInt64.ofNat inputLength
  if ctx.useSha512 then
    let newLow := ctx.lengthLow + addition
    let newHigh := ctx.lengthHigh + if newLow < ctx.lengthLow then 1 else 0
    if newHigh < ctx.lengthHigh ∨ maximum < newHigh then .error .messageTooLarge
    else .ok { ctx with lengthLow := newLow, lengthHigh := newHigh }
  else if ctx.lengthHigh ≠ 0 ∨ maximum - ctx.lengthLow < addition then .error .messageTooLarge
  else .ok { ctx with lengthLow := ctx.lengthLow + addition }

def sha2BlockLength (state : CryptoSha2State) : Nat := if state.useSha512 then 128 else 64

def cryptoSha2Update (ctx : CryptoSha2Context) (input : List UInt8) :
    Except LiberaCError CryptoSha2Context := do
  let ctx ← sha2AddLength ctx input.length
  pure { ctx with
    buffer := update sha2Compress (sha2BlockLength ctx.buffer.state) ctx.buffer input }

/-- The block is filled with zeros to its end and then overwritten with the length. -/
def cryptoSha2Finalize (ctx : CryptoSha2Context) : CryptoSha2Context :=
  let buffer :=
    if ctx.useSha512 then
      finish sha2Compress 128 128 112 0x80 0
        (cryptoStore64Be ((ctx.lengthHigh <<< 3) ||| (ctx.lengthLow >>> 61)) ++
          cryptoStore64Be (ctx.lengthLow <<< 3)) ctx.buffer
    else finish sha2Compress 64 64 56 0x80 0 (cryptoStore64Be (ctx.lengthLow <<< 3)) ctx.buffer
  { ctx with buffer := { buffer with block := List.replicate 128 0 } }

def CryptoSha2State.digest : CryptoSha2State → List UInt8
  | words32 words => words.toList.flatMap cryptoStore32Be
  | words64 words => words.toList.flatMap cryptoStore64Be

def sha2DigestLength : LiberaCAlgID → Nat
  | .hashSha2_224 => 28
  | .hashSha2_512_224 => 28
  | .hashSha2_256 => 32
  | .hashSha2_512_256 => 32
  | .hashSha2_384 => 48
  | .hashSha2_512 => 64
  | _ => 0

def cryptoSha2Squeeze (ctx : CryptoSha2Context) (alg : LiberaCAlgID) : List UInt8 :=
  ctx.buffer.state.digest.take (sha2DigestLength alg)

def sha2Limit (state : CryptoSha2State) : Nat := if state.useSha512 then 2 ^ 125 else 2 ^ 61

def sha2LengthBytes (state : CryptoSha2State) : Nat := if state.useSha512 then 16 else 8

/-- The digest of `xs`, truncated: the fold of the compression over the padded message. -/
def sha2Digest (alg : LiberaCAlgID) (start : CryptoSha2State) (xs : List UInt8) : List UInt8 :=
  ((foldPadded sha2Compress (sha2BlockLength start) 0x80 0
    (bigEndian (sha2LengthBytes start) (8 * xs.length)) start xs).digest).take (sha2DigestLength alg)

@[simp] theorem sha2Compress_useSha512 (state : CryptoSha2State) (block : List UInt8) :
    (sha2Compress state block).useSha512 = state.useSha512 := by
  cases state <;> rfl

theorem foldBlocks_useSha512 (n : Nat) (state : CryptoSha2State) (xs : List UInt8) :
    (foldBlocks sha2Compress n state xs).useSha512 = state.useSha512 := by
  unfold foldBlocks
  induction pieces n (xs.length / n) xs generalizing state with
  | nil => rfl
  | cons block blocks ih => rw [List.foldl_cons, ih, sha2Compress_useSha512]

/-- The context that has absorbed `xs` from the initial state `start`. -/
structure CryptoSha2Context.Holds (ctx : CryptoSha2Context) (start : CryptoSha2State)
    (xs : List UInt8) : Prop where
  absorbed : Absorbed sha2Compress (sha2BlockLength start) start xs ctx.buffer
  length : ctx.lengthHigh.toNat * 2 ^ 64 + ctx.lengthLow.toNat = xs.length
  limit : xs.length < sha2Limit start

section Streaming

variable {ctx : CryptoSha2Context} {start : CryptoSha2State} {xs input : List UInt8}

theorem CryptoSha2Context.Holds.useSha512 (h : ctx.Holds start xs) :
    ctx.useSha512 = start.useSha512 := by
  rw [CryptoSha2Context.useSha512, h.absorbed.state, foldBlocks_useSha512]

theorem sha2BlockLength_pos (state : CryptoSha2State) : 0 < sha2BlockLength state := by
  unfold sha2BlockLength
  split <;> decide

theorem cryptoSha2Start_holds (start : CryptoSha2State) : (cryptoSha2Start start).Holds start [] := by
  have hblock : sha2BlockLength start ≤ 128 := by
    unfold sha2BlockLength
    split <;> decide
  have hcapacity : sha2BlockLength start ≤ (cryptoSha2Start start).buffer.block.length :=
    hblock.trans_eq List.length_replicate.symm
  refine ⟨absorbed_start hcapacity rfl, by simp [cryptoSha2Start], ?_⟩
  unfold sha2Limit
  split <;> norm_num

theorem word_carry (low addition : UInt64) :
    low.toNat + addition.toNat = (low + addition).toNat +
      2 ^ 64 * (if low + addition < low then (1 : UInt64) else 0).toNat := by
  have hlow := low.toNat_lt
  have hadd := addition.toNat_lt
  have hsum := UInt64.toNat_add low addition
  split
  case isTrue h =>
    rw [UInt64.lt_iff_toNat_lt] at h
    rw [UInt64.toNat_one]
    omega
  case isFalse h =>
    rw [UInt64.lt_iff_toNat_lt] at h
    rw [UInt64.toNat_zero]
    omega

/-- The length check passes exactly below the limit, and then the new length is kept. -/
theorem sha2AddLength_eq (h : ctx.Holds start xs) {k : Nat} (hk : k < 2 ^ 64) :
    (xs.length + k < sha2Limit start →
      ∃ low high : UInt64, sha2AddLength ctx k = .ok { ctx with lengthLow := low, lengthHigh := high } ∧
        high.toNat * 2 ^ 64 + low.toNat = xs.length + k) ∧
    (sha2Limit start ≤ xs.length + k → sha2AddLength ctx k = .error .messageTooLarge) := by
  have hlow := ctx.lengthLow.toNat_lt
  have hlength := h.length
  have hlimit := h.limit
  have hmaximum : ((0xffffffffffffffff : UInt64) >>> 3).toNat = 2 ^ 61 - 1 := by decide
  have haddition : (UInt64.ofNat k).toNat = k := UInt64.toNat_ofNat_of_lt' hk
  unfold sha2AddLength
  dsimp only
  rw [h.useSha512]
  unfold sha2Limit at *
  generalize (0xffffffffffffffff : UInt64) >>> 3 = maximum at *
  cases hwide : start.useSha512 with
  | true =>
    rw [hwide, if_pos rfl] at hlimit
    rw [if_pos rfl, if_pos rfl]
    have hcarry := word_carry ctx.lengthLow (UInt64.ofNat k)
    have hnew := (ctx.lengthLow + UInt64.ofNat k).toNat_lt
    rw [haddition] at hcarry
    generalize hc : (if ctx.lengthLow + UInt64.ofNat k < ctx.lengthLow then (1 : UInt64) else 0) = c
      at *
    have hcle : c.toNat ≤ 1 := by
      rw [← hc]
      split <;> decide
    have hhigh : (ctx.lengthHigh + c).toNat = ctx.lengthHigh.toNat + c.toNat := by
      rw [UInt64.toNat_add]
      omega
    have hcheck : (ctx.lengthHigh + c < ctx.lengthHigh ∨ maximum < ctx.lengthHigh + c) ↔
        2 ^ 125 ≤ xs.length + k := by
      rw [UInt64.lt_iff_toNat_lt, UInt64.lt_iff_toNat_lt, hhigh, hmaximum]
      omega
    constructor
    · intro hlt
      refine ⟨ctx.lengthLow + UInt64.ofNat k, ctx.lengthHigh + c,
        if_neg (mt hcheck.mp (not_le.mpr hlt)), ?_⟩
      rw [hhigh]
      linear_combination hlength - hcarry
    · exact fun hge => if_pos (hcheck.mpr hge)
  | false =>
    rw [hwide, if_neg Bool.false_ne_true] at hlimit
    rw [if_neg Bool.false_ne_true, if_neg Bool.false_ne_true]
    have hzero : ctx.lengthHigh.toNat = 0 := by omega
    have hle : ctx.lengthLow ≤ maximum := by
      rw [UInt64.le_iff_toNat_le, hmaximum]
      omega
    have hcheck : (ctx.lengthHigh ≠ 0 ∨ maximum - ctx.lengthLow < UInt64.ofNat k) ↔
        2 ^ 61 ≤ xs.length + k := by
      rw [ne_eq, ← UInt64.toNat_inj, UInt64.lt_iff_toNat_lt, UInt64.toNat_sub_of_le _ _ hle,
        hmaximum, haddition, hzero, UInt64.toNat_zero]
      omega
    constructor
    · intro hlt
      refine ⟨ctx.lengthLow + UInt64.ofNat k, ctx.lengthHigh,
        if_neg (mt hcheck.mp (not_le.mpr hlt)), ?_⟩
      rw [UInt64.toNat_add, haddition, hzero, Nat.zero_mul, Nat.zero_add]
      omega
    · exact fun hge => if_pos (hcheck.mpr hge)

theorem cryptoSha2Update_holds (h : ctx.Holds start xs)
    (hsize : input.length < 2 ^ 64) (hlimit : xs.length + input.length < sha2Limit start) :
    ∃ after, cryptoSha2Update ctx input = .ok after ∧ after.Holds start (xs ++ input) := by
  obtain ⟨low, high, hadd, hlength⟩ := (sha2AddLength_eq h hsize).1 hlimit
  have hblock : sha2BlockLength ctx.buffer.state = sha2BlockLength start := by
    have huse := h.useSha512
    unfold CryptoSha2Context.useSha512 at huse
    rw [sha2BlockLength, sha2BlockLength, huse]
  rw [← List.length_append] at hlength hlimit
  unfold cryptoSha2Update
  rw [hadd]
  refine ⟨_, rfl, ?_, hlength, hlimit⟩
  dsimp only
  rw [hblock]
  exact update_absorbed (sha2BlockLength_pos start) h.absorbed input

theorem cryptoSha2Update_tooLarge (h : ctx.Holds start xs)
    (hsize : input.length < 2 ^ 64) (hlimit : sha2Limit start ≤ xs.length + input.length) :
    cryptoSha2Update ctx input = .error .messageTooLarge := by
  unfold cryptoSha2Update
  rw [(sha2AddLength_eq h hsize).2 hlimit]
  rfl

theorem encoded_length (h : ctx.Holds start xs) (hwide : start.useSha512 = true) :
    cryptoStore64Be ((ctx.lengthHigh <<< 3) ||| (ctx.lengthLow >>> 61)) ++
      cryptoStore64Be (ctx.lengthLow <<< 3) = bigEndian 16 (8 * xs.length) := by
  have hlow := ctx.lengthLow.toNat_lt
  have hlength := h.length
  have hlimit := h.limit
  rw [sha2Limit, hwide, if_pos rfl] at hlimit
  have hhi : ((ctx.lengthHigh <<< 3) ||| (ctx.lengthLow >>> 61)).toNat =
      8 * xs.length / 256 ^ 8 := by
    have hshift : ctx.lengthLow.toNat / 2 ^ 61 < 2 ^ 3 := by omega
    rw [UInt64.toNat_or, UInt64.toNat_shiftLeft, UInt64.toNat_shiftRight]
    change (ctx.lengthHigh.toNat <<< 3 % 2 ^ 64) ||| (ctx.lengthLow.toNat >>> 61) = _
    rw [Nat.shiftLeft_eq, Nat.shiftRight_eq_div_pow, Nat.mod_eq_of_lt (by omega), Nat.mul_comm,
      ← Nat.two_pow_add_eq_or_of_lt hshift]
    omega
  have hlo : (ctx.lengthLow <<< 3).toNat = 8 * xs.length % 256 ^ 8 := by
    rw [UInt64.toNat_shiftLeft]
    change ctx.lengthLow.toNat <<< 3 % 2 ^ 64 = _
    rw [Nat.shiftLeft_eq]
    omega
  rw [cryptoStore64Be_eq, cryptoStore64Be_eq, hhi, hlo, bigEndian_mod, bigEndian_add 8 8]

theorem encoded_length_low (h : ctx.Holds start xs) (hnarrow : start.useSha512 = false) :
    cryptoStore64Be (ctx.lengthLow <<< 3) = bigEndian 8 (8 * xs.length) := by
  have hlength := h.length
  have hlimit := h.limit
  rw [sha2Limit, hnarrow, if_neg Bool.false_ne_true] at hlimit
  have hlo : (ctx.lengthLow <<< 3).toNat = 8 * xs.length := by
    rw [UInt64.toNat_shiftLeft]
    change ctx.lengthLow.toNat <<< 3 % 2 ^ 64 = _
    rw [Nat.shiftLeft_eq]
    omega
  rw [cryptoStore64Be_eq, hlo]

theorem cryptoSha2Finalize_digest (h : ctx.Holds start xs) (alg : LiberaCAlgID) :
    cryptoSha2Squeeze (cryptoSha2Finalize ctx) alg = sha2Digest alg start xs := by
  have habsorbed := h.absorbed
  unfold cryptoSha2Squeeze cryptoSha2Finalize sha2Digest
  dsimp only
  rw [h.useSha512]
  unfold sha2BlockLength sha2LengthBytes at *
  cases hwide : start.useSha512 with
  | true =>
    rw [hwide, if_pos rfl] at habsorbed
    have hstate := finish_state (0x80 : UInt8) 0 (bigEndian 16 (8 * xs.length)) (by decide)
      habsorbed (show 112 ≤ 128 by decide) (le_refl 128) (by rw [bigEndian_length])
    rw [if_pos rfl, if_pos rfl, if_pos rfl, encoded_length h hwide, hstate]
  | false =>
    rw [hwide, if_neg Bool.false_ne_true] at habsorbed
    have hstate := finish_state (0x80 : UInt8) 0 (bigEndian 8 (8 * xs.length)) (by decide)
      habsorbed (show 56 ≤ 64 by decide) (le_refl 64) (by rw [bigEndian_length])
    rw [if_neg Bool.false_ne_true, if_neg Bool.false_ne_true, if_neg Bool.false_ne_true,
      encoded_length_low h hwide, hstate]

end Streaming

end LiberaCrypt.Sha2
