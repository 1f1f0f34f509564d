import LiberaCrypt.Bignum
import LiberaCrypt.Prime

namespace LiberaCrypt.PrimeGeneration

open LiberaCrypt.Allocation LiberaCrypt.BigEndian LiberaCrypt.Bignum LiberaCrypt.BignumAdd
open LiberaCrypt.BignumObjects LiberaCrypt.BignumRandom LiberaCrypt.BignumSmall LiberaCrypt.Outcome
open LiberaCrypt.Prime

/-- A call that draws random bytes and writes objects of its caller; an error leaves in them what
was written before. -/
abbrev OnObjects :=
  ReaderT Entropy (StateT Nat (ReaderT Host (ExceptT LiberaCError (StateM (Nat × Objects)))))

section Objects

variable {α β : Type}

def onLocals (x : Randomized α) : OnObjects α := fun entropy draws host s =>
  let result := x entropy draws host s.1
  (result.1, (result.2, s.2))

def assign (out : Nat) (a : LiberaCBignum) : OnObjects Unit := fun _ draws _ s =>
  (.ok ((), draws), (s.1, Function.update s.2 out a))

/-- A success writes as `post` says; an error changes no object. -/
def Commits (entropy : Entropy) (host : Host) (x : OnObjects α)
    (post : Objects → Objects → Prop) : Prop :=
  ∀ draws s, match x entropy draws host s with
    | (.ok _, after) => post s.2 after.2
    | (.error _, after) => after.2 = s.2

variable {entropy : Entropy} {host : Host} {post : Objects → Objects → Prop}

theorem Commits.throw {status : LiberaCError} :
    Commits entropy host (throw status : OnObjects α) post := fun _ _ => rfl

theorem Commits.local_bind {x : Randomized α} {f : α → OnObjects β} {mid : α → Prop}
    (hx : ReturnsOn entropy host x mid) (hf : ∀ a, mid a → Commits entropy host (f a) post) :
    Commits entropy host (onLocals x >>= f) post := by
  intro draws s
  rcases hrun : x entropy draws host s.1 with ⟨e | ⟨a, next⟩, k⟩
  · have hbind : (onLocals x >>= f) entropy draws host s = (.error e, (k, s.2)) := by
      change ExceptT.bindCont (m := StateM (Nat × Objects))
        (fun r : α × Nat => f r.1 entropy r.2 host) (onLocals x entropy draws host s).1
        (onLocals x entropy draws host s).2 = _
      rw [onLocals, hrun]
      rfl
    rw [hbind]
  · have hbind : (onLocals x >>= f) entropy draws host s = f a entropy next host (k, s.2) := by
      change ExceptT.bindCont (m := StateM (Nat × Objects))
        (fun r : α × Nat => f r.1 entropy r.2 host) (onLocals x entropy draws host s).1
        (onLocals x entropy draws host s).2 = _
      rw [onLocals, hrun]
      rfl
    rw [hbind]
    exact hf a (hx draws s.1 a next (congrArg Prod.fst hrun)) next (k, s.2)

end Objects

/-- The function with the address of its output; the candidate it ends with is written there. -/
def cryptoPrimeGenerateTo (out bits rounds : Nat) : OnObjects Unit := do
  let candidate ← onLocals (cryptoPrimeGenerateInternal bits rounds)
  assign out candidate

def cryptoPrimeGenerateSafeTo (pOut qOut pBits rounds : Nat) : OnObjects Unit :=
  if pOut = qOut then throw .invalidArgument
  else do
    let key ← onLocals (cryptoPrimeGenerateSafeInternal pBits rounds)
    assign pOut key.1
    assign qOut key.2

section Generation

variable {entropy : Entropy} {host : Host} {bits rounds : Nat}

/-- The test was run on this number, on these random bytes, and passed. -/
def Passed (entropy : Entropy) (host : Host) (rounds : Nat) (a : LiberaCBignum) : Prop :=
  ∃ draws k draws',
    outcome (primeIsProbableChecked a rounds entropy draws) host k = .ok (true, draws')

structure Generated (entropy : Entropy) (host : Host) (bits rounds : Nat) (a : LiberaCBignum) :
    Prop where
  valid : a.Valid
  odd : a.value % 2 = 1
  size : a.value.size = bits
  passed : Passed entropy host rounds a

theorem isProbable_passed (a : LiberaCBignum) (rounds : Nat) :
    ReturnsOn entropy host (primeIsProbableChecked a rounds)
      fun isProbable => isProbable = true → Passed entropy host rounds a := by
  rintro draws k isProbable draws' hrun rfl
  exact ⟨draws, k, draws', hrun⟩

theorem primeCandidate_generated (hbits : 0 < bits) (rounds : Nat) :
    ReturnsOn entropy host (primeCandidate bits rounds)
      fun found => ∀ a, found = some a → Generated entropy host bits rounds a := by
  refine (cryptoBignumRandomBits_returns init_valid true true).on.bind ?_
  rintro candidate ⟨hvalid, hless, htop, hodd⟩
  by_cases hsmall : ¬ primeSmallDivision candidate = true
  · rw [if_pos hsmall]
    exact (Returns.pure fun a ha => absurd ha.symm (Option.some_ne_none a)).on
  rw [if_neg hsmall]
  refine (isProbable_passed candidate rounds).bind fun isProbable hpassed => (Returns.pure ?_).on
  intro a ha
  cases isProbable with
  | false => cases ha
  | true =>
    cases ha
    refine ⟨hvalid, hodd rfl, ?_, hpassed rfl⟩
    have hupper := Nat.size_le.mpr hless
    have hlower := Nat.lt_size.mpr (htop rfl)
    omega

theorem generateInternal_generated : ReturnsOn entropy host (cryptoPrimeGenerateInternal bits rounds)
    (Generated entropy host bits (if rounds = 0 then 32 else rounds)) := by
  unfold cryptoPrimeGenerateInternal
  by_cases hbits : bits < 2
  · rw [if_pos hbits]
    exact Returns.throw.on
  · rw [if_neg hbits]
    exact ReturnsOn.retry (primeCandidate_generated (by omega) _) _

theorem safeIsProbable_passed (p : LiberaCBignum) (pBits rounds : Nat) :
    ReturnsOn entropy host (safeIsProbable p pBits rounds) fun isProbable => isProbable = true →
      cryptoBignumBitLength p = pBits ∧ Passed entropy host rounds p := by
  unfold safeIsProbable
  by_cases hbits : cryptoBignumBitLength p = pBits
  · rw [if_pos hbits]
    exact (isProbable_passed p rounds).mono fun _ hpassed htrue => ⟨hbits, hpassed htrue⟩
  · rw [if_neg hbits]
    exact (Returns.pure fun h => absurd h Bool.false_ne_true).on

theorem safeCandidate_generated (hrounds : rounds ≠ 0) :
    ReturnsOn entropy host (safeCandidate bits rounds) fun found => ∀ key, found = some key →
      Generated entropy host bits rounds key.1 ∧ Generated entropy host (bits - 1) rounds key.2 ∧
        key.1.value = 2 * key.2.value + 1 := by
  unfold safeCandidate
  refine generateInternal_generated.bind fun q hq => ?_
  rw [if_neg hrounds] at hq
  refine (Returns.lift (Ensures.reported (bignumMulU32_ensures hq.valid 2 (le_refl _)))).on.bind ?_
  rintro tmp ⟨htmp, hdouble⟩
  refine (Returns.lift (Ensures.reported
    (bignumAddU32Copy_ensures init_valid htmp 1 (le_refl _)))).on.bind ?_
  rintro p ⟨hp, hvalue⟩
  refine (safeIsProbable_passed p bits rounds).bind fun isProbable hpassed =>
    (Returns.pure ?_).on
  intro key hkey
  cases isProbable with
  | false => cases hkey
  | true =>
    cases hkey
    obtain ⟨hbits, hprime⟩ := hpassed rfl
    have hsum : p.value = 2 * q.value + 1 := by
      rw [hvalue, hdouble, UInt32.toNat_one, Nat.mul_comm]
      rfl
    have hodd : p.value % 2 = 1 := by omega
    refine ⟨⟨hp, hodd, ?_, hprime⟩, hq, hsum⟩
    rw [← cryptoBignumBitLength_eq hp, hbits]

theorem generateSafeInternal_generated :
    ReturnsOn entropy host (cryptoPrimeGenerateSafeInternal bits rounds) fun key =>
      Generated entropy host bits (if rounds = 0 then 32 else rounds) key.1 ∧
        Generated entropy host (bits - 1) (if rounds = 0 then 32 else rounds) key.2 ∧
          key.1.value = 2 * key.2.value + 1 := by
  unfold cryptoPrimeGenerateSafeInternal
  by_cases hbits : bits < 3
  · rw [if_pos hbits]
    exact Returns.throw.on
  · rw [if_neg hbits]
    refine ReturnsOn.retry (safeCandidate_generated ?_) _
    split_ifs with hzero
    · decide
    · exact hzero

theorem generateSafeInternal_returns (bits rounds : Nat) :
    Returns (cryptoPrimeGenerateSafeInternal bits rounds) fun key => key.1.Valid ∧ key.2.Valid ∧
      key.1.value = 2 * key.2.value + 1 ∧ key.1.value.size = bits :=
  returns_iff.mpr fun _ _ => generateSafeInternal_generated.mono fun _ ⟨hp, hq, hsum⟩ =>
    ⟨hp.valid, hq.valid, hsum, hp.size⟩

end Generation

/-- A success writes odd numbers of the requested lengths that passed the test, and safe primes are
`p = 2 * q + 1`; an error writes nothing. This is so for all random bytes and grants of memory. -/
theorem primeGeneration (entropy : Entropy) (host : Host) (bits rounds : Nat) :
    let rounds' := if rounds = 0 then 32 else rounds
    (∀ out, Commits entropy host (cryptoPrimeGenerateTo out bits rounds) fun before after =>
        ∃ a, Generated entropy host bits rounds' a ∧ after = Function.update before out a) ∧
      ∀ pOut qOut, Commits entropy host (cryptoPrimeGenerateSafeTo pOut qOut bits rounds)
        fun before after => ∃ p q, Generated entropy host bits rounds' p ∧
          Generated entropy host (bits - 1) rounds' q ∧ p.value = 2 * q.value + 1 ∧ pOut ≠ qOut ∧
            after = Function.update (Function.update before pOut p) qOut q := by
  intro rounds'
  constructor
  · exact fun out => Commits.local_bind generateInternal_generated fun a ha _ _ => ⟨a, ha, rfl⟩
  · intro pOut qOut
    unfold cryptoPrimeGenerateSafeTo
    by_cases hsame : pOut = qOut
    · rw [if_pos hsame]
      exact Commits.throw
    · rw [if_neg hsame]
      apply Commits.local_bind generateSafeInternal_generated
      rintro ⟨p, q⟩ ⟨hp, hq, hsum⟩ draws s
      exact ⟨p, q, hp, hq, hsum, hsame, rfl⟩

end LiberaCrypt.PrimeGeneration
