import LiberaCrypt.BignumRandom
import LiberaCrypt.BignumSmall
import LiberaCrypt.ModExpVartime

namespace LiberaCrypt.Prime

open LiberaCrypt.Outcome LiberaCrypt.Allocation LiberaCrypt.Limbs LiberaCrypt.Bignum
open LiberaCrypt.BignumAdd LiberaCrypt.BignumMod LiberaCrypt.BignumRandom
open LiberaCrypt.BignumSmall LiberaCrypt.Montgomery LiberaCrypt.ModExpVartime

def smallPrimes : List UInt32 :=
  [3, 5, 7, 11, 13, 17, 19, 23, 29, 31, 37, 41, 43, 47, 53, 59, 61, 67, 71, 73, 79, 83, 89, 97,
   101, 103, 107, 109, 113, 127, 131, 137, 139, 149, 151, 157, 163, 167, 173, 179, 181, 191, 193,
   197, 199, 211, 223, 227, 229, 233, 239, 241, 251, 257, 263, 269, 271, 277, 281, 283, 293, 307,
   311, 313, 317, 331, 337, 347, 349, 353, 359, 367, 373, 379, 383, 389, 397, 401, 409, 419, 421,
   431, 433, 439, 443, 449, 457, 461, 463, 467, 479, 487, 491, 499, 503, 509, 521, 523, 541, 547,
   557, 563, 569, 571, 577, 587, 593, 599, 601, 607, 613, 617, 619, 631, 641, 643, 647, 653, 659,
   661, 673, 677, 683, 691, 701, 709, 719, 727, 733, 739, 743, 751, 757, 761, 769, 773, 787, 797,
   809, 811, 821, 823, 827, 829, 839, 853, 857, 859, 863, 877, 881, 883, 887, 907, 911, 919, 929,
   937, 941, 947, 953, 967, 971, 977, 983, 991, 997]

/-- `LENGTH == 1 && LIMBS[0] == word`. -/
def isWord (n : LiberaCBignum) (word : UInt32) : Bool :=
  n.length == 1 && n.limbs.getD 0 0 == word

def divideSmall (n : LiberaCBignum) : List UInt32 → Bool
  | [] => true
  | p :: ps => if isWord n p then true else if bignumModU32 n p = 0 then false else divideSmall n ps

def primeSmallDivision (n : LiberaCBignum) : Bool :=
  if n.length = 0 then false
  else if isWord n 2 then true
  else if n.limbs.getD 0 0 &&& 1 = 0 then false
  else divideSmall n smallPrimes

def halve (d : LiberaCBignum) : LiberaCBignum :=
  bignumNormalize ⟨storeWords d.limbs (shiftRightRow 1 d.words).1, d.length⟩

/-- `while (d.LENGTH && !(d.LIMBS[0] & 1u))`, which a nonzero `d` leaves before it has lost all
its bits. -/
def oddPart : Nat → LiberaCBignum → Nat → LiberaCBignum × Nat
  | 0, d, s => (d, s)
  | bits + 1, d, s =>
    if d.length ≠ 0 ∧ d.limbs.getD 0 0 &&& 1 = 0 then oddPart bits (halve d) (s + 1) else (d, s)

/-- The squarings of one round; the flag says that `n - 1` was met. -/
def squareRound (value nMinus1 : LiberaCBignum) :
    Nat → LiberaCBignum → Fallible (Bool × LiberaCBignum)
  | 0, x => pure (false, x)
  | j + 1, x => do
    let x ← reported (cryptoBignumModSquare cryptoBignumInit x value) .allocationFailed
    if cryptoBignumCompare x nMinus1 = .eq then pure (true, x)
    else if isWord x 1 then pure (false, x)
    else squareRound value nMinus1 j x

section Watched

-- a ghost that is shown each base before its power is taken; the function has none
variable (watch : LiberaCBignum → Randomized Unit)

/-- The rounds of the test; each writes its power over that of the round before. -/
def primeRoundsWatched (value nMinus1 nMinus3 d : LiberaCBignum) (s : Nat) :
    Nat → LiberaCBignum → Randomized Bool
  | 0, _ => pure true
  | rounds + 1, x => do
    let a ← cryptoBignumRandomRange nMinus3
    let a ← reported (bignumAddU32 a 2) .allocationFailed
    watch a
    let x ← reported (cryptoBignumModExpVartime x a d value) .allocationFailed
    if isWord x 1 ∨ cryptoBignumCompare x nMinus1 = .eq then
      primeRoundsWatched value nMinus1 nMinus3 d s rounds x
    else do
      let (passed, x) ← squareRound value nMinus1 (s - 1) x
      if passed then primeRoundsWatched value nMinus1 nMinus3 d s rounds x else pure false

def primeIsProbableWatched (value : LiberaCBignum) (rounds : Nat) : Randomized Bool :=
  if value.length = 0 then throw .invalidArgument
  else if isWord value 2 ∨ isWord value 3 then pure true
  else if value.length = 1 ∧ value.limbs.getD 0 0 < 2 then pure false
  else if ¬ primeSmallDivision value then pure false
  else do
    let rounds := if rounds = 0 then 32 else rounds
    let nMinus1 ← reported (bignumSubU32 cryptoBignumInit value 1) .allocationFailed
    let d ← reported (cryptoBignumCopy cryptoBignumInit nMinus1) .allocationFailed
    let nMinus3 ← reported (bignumSubU32 cryptoBignumInit value 3) .allocationFailed
    let (d, s) := oddPart (32 * d.length) d 0
    primeRoundsWatched watch value nMinus1 nMinus3 d s rounds cryptoBignumInit

end Watched

def primeIsProbableChecked : LiberaCBignum → Nat → Randomized Bool :=
  primeIsProbableWatched fun _ => pure ()

def primeCandidate (bits rounds : Nat) : Randomized (Option LiberaCBignum) := do
  let candidate ← cryptoBignumRandomBits cryptoBignumInit bits true true
  if ¬ primeSmallDivision candidate then pure none
  else do
    let isProbable ← primeIsProbableChecked candidate rounds
    pure (if isProbable then some candidate else none)

def cryptoPrimeGenerateInternal (bits rounds : Nat) : Randomized LiberaCBignum :=
  if bits < 2 then throw .invalidArgument
  else
    let rounds := if rounds = 0 then 32 else rounds
    retry .primeGenerationFailed (primeCandidate bits rounds) 1000000

def safeIsProbable (pv : LiberaCBignum) (pBits rounds : Nat) : Randomized Bool :=
  if cryptoBignumBitLength pv = pBits then primeIsProbableChecked pv rounds else pure false

/-- A candidate for a safe prime: `p = 2 * q + 1` is kept when it has the right length and passes. -/
def safeCandidate (pBits rounds : Nat) : Randomized (Option (LiberaCBignum × LiberaCBignum)) := do
  let qv ← cryptoPrimeGenerateInternal (pBits - 1) rounds
  let tmp ← reported (bignumMulU32 qv 2) .allocationFailed
  let pv ← reported (bignumAddU32Copy cryptoBignumInit tmp 1) .allocationFailed
  let isProbable ← safeIsProbable pv pBits rounds
  pure (if isProbable then some (pv, qv) else none)

def cryptoPrimeGenerateSafeInternal (pBits rounds : Nat) :
    Randomized (LiberaCBignum × LiberaCBignum) :=
  if pBits < 3 then throw .invalidArgument
  else
    let rounds := if rounds = 0 then 32 else rounds
    retry .primeGenerationFailed (safeCandidate pBits rounds) 1000000

variable {d : LiberaCBignum}

theorem isWord_iff {n : LiberaCBignum} (hn : n.Valid) {word : UInt32} (hword : word ≠ 0) :
    isWord n word = true ↔ n.value = word.toNat := by
  have hiff := bignumVtIsU32_iff hn hword
  rwa [bignumVtIsU32, if_neg hword] at hiff

theorem halve_spec (hd : d.Valid) : (halve d).Valid ∧ (halve d).value = d.value / 2 := by
  obtain ⟨hlength, hvalue, -⟩ := shiftRightRow_spec (w := d.words) (s := 1) (by decide) (by decide)
  change (shiftRightRow 1 d.words).1.length = _ at hlength
  have hwords := hlength.trans hd.words_length
  have hstored := @storeWords_zeros (shiftRightRow 1 d.words).1 d.limbs
    fun i hi => hd.zeros i (hwords.ge.trans hi)
  have hnormal := padded_normalize (shiftRightRow 1 d.words).1
    (d.limbs.length - (shiftRightRow 1 d.words).1.length)
  rw [← hstored, hwords] at hnormal
  exact ⟨hnormal.1, hnormal.2.trans hvalue⟩

theorem oddPart_spec {bits s : Nat} (hd : d.Valid) (hpos : d.value ≠ 0) (hlt : d.value < 2 ^ bits) :
    (oddPart bits d s).1.Valid ∧ (oddPart bits d s).1.value % 2 = 1 ∧
      (oddPart bits d s).1.value * 2 ^ (oddPart bits d s).2 = d.value * 2 ^ s := by
  induction bits generalizing d s with
  | zero => omega
  | succ bits ih =>
    have hlength : d.length ≠ 0 := fun h0 => hpos (hd.length_eq_zero.mp h0)
    have heven : d.length ≠ 0 ∧ d.limbs.getD 0 0 &&& 1 = 0 ↔ d.value % 2 = 0 := by
      rw [odd_iff, (words_head hlength).2]
      simp [hlength]
    unfold oddPart
    by_cases h : d.value % 2 = 0
    · obtain ⟨hvalid, hvalue⟩ := halve_spec hd
      obtain ⟨hv, hodd, hprod⟩ := ih (s := s + 1) hvalid (by omega)
        (by rw [pow_succ] at hlt; omega)
      rw [if_pos (heven.mpr h)]
      refine ⟨hv, hodd, hprod.trans ?_⟩
      rw [hvalue, pow_succ, Nat.mul_comm (2 ^ s), ← Nat.mul_assoc, Nat.div_mul_cancel]
      exact Nat.dvd_of_mod_eq_zero h
    · rw [if_neg fun hc => h (heven.mp hc)]
      exact ⟨hd, Nat.mod_two_ne_zero.mp h, rfl⟩

end LiberaCrypt.Prime
