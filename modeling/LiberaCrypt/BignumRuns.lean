import LiberaCrypt.BignumResults

namespace LiberaCrypt.BignumRuns

open LiberaCrypt.Outcome LiberaCrypt.Allocation LiberaCrypt.Bignum LiberaCrypt.BignumCodec
open LiberaCrypt.BignumInPlace LiberaCrypt.BignumMachine LiberaCrypt.BignumMul
open LiberaCrypt.BignumObjects LiberaCrypt.BignumProduct LiberaCrypt.BignumResults
open LiberaCrypt.BignumSecret LiberaCrypt.BignumSquare LiberaCrypt.CallSequence LiberaCrypt.Limbs
open LiberaCrypt.ModExpAgree LiberaCrypt.ModExpSecure

/-- `post` holds of the objects after a run that succeeds, and `fail` of those after one that
fails. -/
def Ends {α : Type} (x : OnBignums α) (objects : Objects) (post : α → Objects → Prop)
    (fail : Objects → Prop) : Prop :=
  ∀ host k, match x host (k, objects) with
    | (.ok a, s) => post a s.2
    | (.error _, s) => fail s.2

section Rules

variable {α β : Type} {objects : Objects} {fail : Objects → Prop} {out : Nat}

theorem Ends.pure {a : α} {post : α → Objects → Prop} (h : post a objects) :
    Ends (pure a) objects post fail := fun _ _ => h

theorem Ends.thrown {post : α → Objects → Prop} {status : LiberaCError} (h : fail objects) :
    Ends (throw status) objects post fail := fun _ _ => h

theorem Ends.mono {x : OnBignums α} {post weak : α → Objects → Prop} {frail : Objects → Prop}
    (h : Ends x objects post fail) (hpost : ∀ a next, post a next → weak a next)
    (hfail : ∀ next, fail next → frail next) : Ends x objects weak frail := by
  intro host k
  have hx := h host k
  rcases hrun : x host (k, objects) with ⟨e | a, next⟩
  · rw [hrun] at hx
    exact hfail _ hx
  · rw [hrun] at hx
    exact hpost _ _ hx

theorem Ends.bind {x : OnBignums α} {f : α → OnBignums β} {M : α → Objects → Prop}
    {post : β → Objects → Prop} (hx : Ends x objects M fail)
    (hf : ∀ a next, M a next → Ends (f a) next post fail) :
    Ends (x >>= f) objects post fail := by
  intro host k
  have h := hx host k
  change match (match x host (k, objects) with
    | (r, s) => (ExceptT.bindCont (fun a => f a host) r) s) with
    | (.ok b, s) => post b s.2
    | (.error _, s) => fail s.2
  rcases hrun : x host (k, objects) with ⟨e | a, s⟩
  · rw [hrun] at h
    exact h
  · rw [hrun] at h
    exact hf a s.2 h host s.1

theorem Ends.load {a : Nat} {f : LiberaCBignum → OnBignums β} {post : β → Objects → Prop}
    (h : Ends (f (objects a)) objects post fail) : Ends (load a >>= f) objects post fail := h

theorem Ends.changing {f : Objects → Objects} {post : Unit → Objects → Prop}
    (h : post () (f objects)) : Ends (changing f) objects post fail := fun _ _ => h

theorem Ends.computing {x : Fallible α} {good : α → Prop} {P : α → Objects → Prop}
    (hx : Yields x good) (hpost : ∀ a, good a → P a objects) (hfail : fail objects) :
    Ends (computing x) objects P fail := by
  intro host k
  unfold BignumMachine.computing
  rcases hrun : x host k with ⟨e | a, next⟩
  · exact hfail
  · exact hpost a (hx host k a next hrun)

theorem Ends.writing {x : Fallible LiberaCBignum} {good : LiberaCBignum → Prop}
    {post : Unit → Objects → Prop} (hx : Yields x good)
    (hpost : ∀ r, good r → post () (Function.update objects out r)) (hfail : fail objects) :
    Ends (writing out x) objects post fail :=
  (Ends.computing (P := fun r next => next = objects ∧ good r) hx (fun r hr => ⟨rfl, hr⟩)
    hfail).bind fun r next ⟨hnext, hr⟩ => Ends.changing (by subst hnext; exact hpost r hr)

theorem Ends.spoiling {x : Fallible LiberaCBignum} {good : LiberaCBignum → Prop}
    {post : Unit → Objects → Prop} {leftover : LiberaCBignum} (hx : Yields x good)
    (hpost : ∀ r, good r → post () (Function.update objects out r)) (hfail : fail objects) :
    Ends (spoiling leftover false out x) objects post fail := by
  intro host k
  unfold BignumMachine.spoiling
  rcases hrun : x host k with ⟨e | a, next⟩
  · exact hfail
  · exact hpost a (hx host k a next hrun)

theorem Ends.orElse {x y : OnBignums Unit} {post : Unit → Objects → Prop}
    (hx : Ends x objects post fun next => next = objects) (hy : Ends y objects post fail) :
    Ends (orElse x y) objects post fail := by
  intro host k
  have h := hx host k
  unfold BignumMachine.orElse
  rcases hrun : x host (k, objects) with ⟨e | a, next⟩
  · rw [hrun] at h
    cases h
    exact hy host next.1
  · rw [hrun] at h
    exact h

end Rules

def AllValid (objects : Objects) : Prop := ∀ i, (objects i).Valid

/-- `out` takes a valid bignum for a `good` number, and no other bignum changes. -/
def Stored (good : Nat → Prop) (before : Objects) (out : Nat) (after : Objects) : Prop :=
  ∃ r, Holding good r ∧ after = Function.update before out r

section Stored

variable {objects after : Objects} {out : Nat} {good : Nat → Prop}

theorem AllValid.update (h : AllValid objects) {r : LiberaCBignum} (hr : r.Valid) :
    AllValid (Function.update objects out r) := by
  intro i
  by_cases hi : i = out
  · rw [hi, Function.update_self]
    exact hr
  · rw [Function.update_of_ne hi]
    exact h i

theorem Stored.valid (hstored : Stored good objects out after) (h : AllValid objects) :
    AllValid after := by
  obtain ⟨r, hr, rfl⟩ := hstored
  exact h.update hr.valid

theorem values_update (r : LiberaCBignum) :
    values (Function.update objects out r) = Function.update (values objects) out r.value := by
  funext i
  by_cases hi : i = out
  · simp [values, hi]
  · simp [values, hi]

theorem Stored.writes (hstored : Stored good objects out after) :
    Writes (values objects) (values after) out good := by
  obtain ⟨r, hr, rfl⟩ := hstored
  exact ⟨r.value, hr.good, values_update r⟩

theorem Stored.of_yields {x : Fallible LiberaCBignum} (hx : Yields x (Holding good)) :
    Ends (writing out x) objects (fun _ after => Stored good objects out after)
      fun after => after = objects :=
  Ends.writing hx (fun r hr => ⟨r, hr, rfl⟩) rfl

end Stored

section Calls

variable {objects : Objects} {out a b : Nat}

/-- Growing the storage of `out` shows in none of the numbers. -/
structure Grown (objects : Objects) (out n : Nat) (next : Objects) : Prop where
  valid : AllValid next
  length : ∀ i, (next i).length = (objects i).length
  value : ∀ i, (next i).value = (objects i).value
  room : n ≤ (next out).capacity
  others : ∀ r, Function.update next out r = Function.update objects out r

theorem Grown.before {α : Type} {y : OnBignums α} {n : Nat} {post : α → Objects → Prop}
    {fail : Objects → Prop} (h : AllValid objects) (hfail : fail objects)
    (hy : ∀ next, Grown objects out n next → Ends y next post fail) :
    Ends (do
      store out (← computing (bignumReserve (objects out) n))
      y) objects post fail := by
  refine Ends.bind (M := fun grown next => next = objects ∧ grown.Valid ∧
    grown.value = (objects out).value ∧ grown.length = (objects out).length ∧ n ≤ grown.capacity)
    (Ends.computing (Yields.of_ensures (bignumReserve_ensures (h out) le_rfl))
      (fun grown hg => ⟨rfl, hg.1, hg.2.1, hg.2.2.1, hg.2.2.2.1⟩) hfail) ?_
  rintro grown _ ⟨rfl, hvalid, hvalue, hlength, hcapacity⟩
  refine Ends.bind (M := fun _ => Grown _ out n) (Ends.changing ?_)
    fun _ next hnext => hy next hnext
  refine ⟨h.update hvalid, fun i => ?_, fun i => ?_, ?_, fun r => Function.update_idem _ _ _⟩
  · by_cases hi : i = out
    · rw [hi, Function.update_self]
      exact hlength
    · rw [Function.update_of_ne hi]
  · by_cases hi : i = out
    · rw [hi, Function.update_self]
      exact hvalue
    · rw [Function.update_of_ne hi]
  · rw [Function.update_self]
    exact hcapacity

theorem addAt_ends (h : AllValid objects) :
    Ends (cryptoBignumAddAt out a b) objects
      (fun _ after => Stored (fun r => r = (objects a).value + (objects b).value) objects out after)
      fun after => after = objects := by
  unfold cryptoBignumAddAt
  refine Ends.load (Ends.load (Ends.load ?_))
  dsimp only
  generalize hn : (if (objects b).length < (objects a).length then (objects a).length
    else (objects b).length) = n
  split
  · exact Ends.thrown rfl
  · refine Ends.load (Grown.before h rfl fun next hgrown => Ends.changing ?_)
    rw [← hgrown.length a, ← hgrown.length b] at hn
    rw [← hgrown.length a, ← hgrown.length b, ← hgrown.length out]
    obtain ⟨r, hr, hvalid, hvalue⟩ := addGrown_spec hgrown.valid hn.symm hgrown.room
    rw [hr, hgrown.others]
    refine ⟨r, ⟨hvalid, ?_⟩, rfl⟩
    rw [hvalue, hgrown.value, hgrown.value]

theorem subAt_ends (h : AllValid objects) :
    Ends (cryptoBignumSubAt out a b) objects
      (fun _ after => Stored (fun r => (objects b).value ≤ (objects a).value ∧
        r = (objects a).value - (objects b).value) objects out after)
      fun after => after = objects := by
  unfold cryptoBignumSubAt
  refine Ends.load (Ends.load ?_)
  split
  · exact Ends.thrown rfl
  · next hcompare =>
    have hle : (objects b).value ≤ (objects a).value := by
      rw [cryptoBignumCompare_lt (h a) (h b), not_lt] at hcompare
      exact hcompare
    refine Ends.load (Ends.load (Grown.before h rfl fun next hgrown => Ends.changing ?_))
    rw [← hgrown.length a, ← hgrown.length b, ← hgrown.length out]
    have hroom := hgrown.room
    rw [← hgrown.length a] at hroom
    have hnext := hle
    rw [← hgrown.value a, ← hgrown.value b] at hnext
    obtain ⟨r, hr, hvalid, hvalue⟩ := subGrown_spec hgrown.valid hnext hroom
    rw [hr, hgrown.others]
    refine ⟨r, ⟨hvalid, hle, ?_⟩, rfl⟩
    rw [hvalue, hgrown.value, hgrown.value]

theorem copyAt_ends (h : AllValid objects) :
    Ends (cryptoBignumCopyAt out a) objects
      (fun _ after => Stored (fun r => r = (objects a).value) objects out after)
      fun after => after = objects := by
  unfold cryptoBignumCopyAt
  split
  · next hsame =>
    subst hsame
    exact Ends.pure ⟨objects out, ⟨h out, rfl⟩, (Function.update_eq_self _ _).symm⟩
  · refine Ends.load (Ends.load (Stored.of_yields ?_))
    exact (Yields.of_ensures (cryptoBignumCopy_ensures (h out) (h a) le_rfl)).mono
      fun r hr => ⟨hr.1, hr.2⟩

theorem karatsubaSpoiled_false {x y : List UInt32} (hlength : y.length = x.length) :
    karatsubaSpoiled x y = false := by
  unfold karatsubaSpoiled
  split
  · rfl
  · next hterms => rw [karatsubaSum_schoolbook rfl hlength hterms, Option.isNone_some]

theorem mulAt_ends (h : AllValid objects) (leftover : LiberaCBignum) :
    Ends (bignumMulAt leftover out a b) objects
      (fun _ after => Stored (fun r => r = (objects a).value * (objects b).value) objects out after)
      fun after => after = objects := by
  have hplain : ∀ aliased, Ends (do
      writing out (cryptoBignumMulSchoolbook (← load out) (objects a) (objects b) aliased)) objects
        (fun _ after =>
          Stored (fun r => r = (objects a).value * (objects b).value) objects out after)
        fun after => after = objects := by
    intro aliased
    refine Ends.load (Stored.of_yields ?_)
    exact (Yields.of_ensures (cryptoBignumMulSchoolbook_ensures (h out) (h a) (h b) aliased
      le_rfl)).mono fun r hr => ⟨hr.1, hr.2⟩
  unfold bignumMulAt
  refine Ends.load (Ends.load ?_)
  dsimp only
  split
  · next hlong =>
    refine Ends.load (Ends.orElse ?_ (hplain _))
    have hwords : (objects b).words.length = (objects a).words.length := by
      rw [(h a).words_length, (h b).words_length, hlong.1]
    rw [karatsubaSpoiled_false hwords, Bool.and_false]
    have hout : (if decide (out = a ∨ out = b) then cryptoBignumInit else objects out).Valid := by
      split
      · exact init_valid
      · exact h out
    exact Ends.spoiling (Yields.of_ensures (bignumMulKaratsubaNoalias_ensures hout (h a) (h b)
      hlong.1 hlong.2 le_rfl)) (fun r hr => ⟨r, ⟨hr.1, hr.2⟩, rfl⟩) rfl
  · exact hplain _

theorem squareAt_ends (h : AllValid objects) (leftover : LiberaCBignum) :
    Ends (bignumSquareAt leftover out a) objects
      (fun _ after => Stored (fun r => r = (objects a).value ^ 2) objects out after)
      fun after => after = objects := by
  unfold bignumSquareAt
  refine Ends.load ?_
  dsimp only
  obtain ⟨square, hsquare, -⟩ := squareRows_words (h a)
  rw [hsquare, Option.isNone_some, Bool.and_false]
  exact Ends.load (Ends.spoiling (Yields.of_ensures (cryptoBignumSquare_ensures (h out) (h a) _
    le_rfl)) (fun r hr => ⟨r, ⟨hr.1, hr.2⟩, rfl⟩) rfl)

theorem store_power {exponent modulus base : LiberaCBignum} {w : List UInt32}
    (hm : modulus.Valid) (hodd : modulus.value % 2 = 1) (hshort : modulus.length < 2 ^ 64)
    (hlt : base.value < modulus.value) (hw : PowerWords exponent modulus base w) :
    Yields (bignumCtStoreFixed w modulus.length)
      (Holding (power .ct base.value exponent.value modulus.value)) := by
  refine (bignumCtStoreFixed_yields hw.length hshort).mono fun r hr => ⟨hr.valid, hodd, hlt, ?_⟩
  rw [hr.good, hw.value hlt, limbsOf_value hm]

theorem modExp2CtAt_ends {out1 base1 out2 base2 exponent modulus : Nat} (h : AllValid objects) :
    Ends (cryptoBignumModExp2CtAt out1 base1 out2 base2 exponent modulus) objects
      (fun _ after => out1 ≠ out2 ∧ ∃ middle,
        Stored (power .ct (objects base1).value (objects exponent).value (objects modulus).value)
          objects out1 middle ∧
        Stored (power .ct (objects base2).value (objects exponent).value (objects modulus).value)
          middle out2 after)
      fun after => after = objects ∨
        Stored (power .ct (objects base1).value (objects exponent).value (objects modulus).value)
          objects out1 after := by
  unfold cryptoBignumModExp2CtAt
  split
  · exact Ends.thrown (.inl rfl)
  next hne =>
  refine Ends.load (Ends.load (Ends.load (Ends.load ?_)))
  have hbases : ∀ base ∈ [objects base1, objects base2], base.Valid := by
    simpa using ⟨h base1, h base2⟩
  refine Ends.bind (M := fun words next => objects = next ∧
    Powers false [objects base1, objects base2] (objects exponent) (objects modulus) words)
    (Ends.computing (modExpCtWords_yields false hbases (h exponent) (h modulus))
      (fun words hwords => ⟨rfl, hwords⟩) (.inl rfl)) ?_
  rintro words _ ⟨rfl, hodd, hshort, hreduced, hwords⟩
  obtain ⟨w1, rest, hw1, hrest, rfl⟩ := List.forall₂_cons_left_iff.mp hwords
  obtain ⟨w2, rest, hw2, -, rfl⟩ := List.forall₂_cons_left_iff.mp hrest
  have hlt1 := hreduced rfl _ List.mem_cons_self
  have hlt2 := hreduced rfl _ (List.mem_cons_of_mem _ List.mem_cons_self)
  refine Ends.bind (M := fun _ middle => Stored _ objects out1 middle)
    (Ends.writing (store_power (h modulus) hodd hshort hlt1 hw1) (fun r hr => ⟨r, hr, rfl⟩)
      (.inl rfl)) fun _ middle hmiddle => ?_
  exact Ends.writing (store_power (h modulus) hodd hshort hlt2 hw2)
    (fun r hr => ⟨hne, middle, hmiddle, r, hr, rfl⟩) (.inr hmiddle)

theorem Ends.kept {x : OnBignums Unit} {good : Nat → Prop} (h : AllValid objects)
    (hx : Ends x objects (fun _ after => Stored good objects out after)
      fun after => after = objects) :
    Ends x objects (fun _ after => AllValid after ∧ Writes (values objects) (values after) out good)
      fun after => AllValid after ∧ values after = values objects := by
  refine hx.mono (fun _ after hafter => ⟨hafter.valid h, hafter.writes⟩) ?_
  rintro after rfl
  exact ⟨h, rfl⟩

/-- Every command keeps every bignum valid and does to the numbers what it says. -/
theorem exec_ends (h : AllValid objects) (leftover : LiberaCBignum) (command : Command) :
    Ends (exec leftover command) objects
      (fun _ after => AllValid after ∧ Effect (values objects) (values after) command)
      fun after => AllValid after ∧ Failure (values objects) (values after) command := by
  cases command with
  | free out => exact Ends.kept h fun _ _ => ⟨cryptoBignumInit, ⟨init_valid, rfl⟩, rfl⟩
  | setU64 out value =>
    refine Ends.kept h (Ends.load (Stored.of_yields ?_))
    exact (Yields.of_ensures (cryptoBignumSetU64_ensures (h out) value le_rfl)).mono
      fun r hr => ⟨hr.1, hr.2⟩
  | copy out a => exact Ends.kept h (copyAt_ends h)
  | fromBytes big out bytes =>
    refine Ends.kept h (Ends.load (Stored.of_yields ?_))
    exact (Yields.of_ensures (fromBytes_ensures (h out) big le_rfl)).mono fun r hr => ⟨hr.1, hr.2⟩
  | add out a b => exact Ends.kept h (addAt_ends h)
  | sub out a b => exact Ends.kept h (subAt_ends h)
  | mul out a b => exact Ends.kept h (mulAt_ends h leftover)
  | square out a => exact Ends.kept h (squareAt_ends h leftover)
  | mod out a modulus =>
    exact Ends.kept h (Ends.load (Ends.load (Ends.load (Stored.of_yields
      (cryptoBignumMod_yields (h out) (h a) (h modulus))))))
  | modMul out a b modulus =>
    exact Ends.kept h (Ends.load (Ends.load (Ends.load (Ends.load (Stored.of_yields
      (cryptoBignumModMul_yields (h out) (h a) (h b) (h modulus)))))))
  | modSquare out a modulus =>
    exact Ends.kept h (Ends.load (Ends.load (Ends.load (Stored.of_yields
      (cryptoBignumModSquare_yields (h out) (h a) (h modulus))))))
  | modExp engine out base exponent modulus =>
    exact Ends.kept h (Ends.load (Ends.load (Ends.load (Ends.load (Stored.of_yields
      (engine_yields engine (h out) (h base) (h exponent) (h modulus)))))))
  | modExp2Ct out1 base1 out2 base2 exponent modulus =>
    refine (modExp2CtAt_ends h).mono ?_ ?_
    · rintro _ after ⟨hne, middle, hfirst, hsecond⟩
      exact ⟨hsecond.valid (hfirst.valid h), hne, values middle, hfirst.writes, hsecond.writes⟩
    · rintro after (rfl | hfirst)
      · exact ⟨h, .inl rfl⟩
      · exact ⟨hfirst.valid h, .inr hfirst.writes⟩
  | copySecretFixed out a fixedLimbs =>
    exact Ends.kept h (Ends.load (Stored.of_yields (cryptoBignumCopySecretFixed_yields (h a))))
  | copySecretFixedCt out a fixedLimbs =>
    exact Ends.kept h (Ends.load (Stored.of_yields (cryptoBignumCopySecretFixedCt_yields (h a))))
  | fromBytesSecretFixedCt big out bytes fixedLimbs =>
    exact Ends.kept h (Stored.of_yields (fromBytesSecretFixedCt_yields big bytes fixedLimbs))
  | subSecretFixed out a b fixedLimbs =>
    exact Ends.kept h (Ends.load (Ends.load (Stored.of_yields
      (cryptoBignumSubSecretFixed_yields (h a) (h b)))))

end Calls

/-- One call as a step; what a spoiled result holds may depend on everything. -/
def step (host : Host) (leftover : Command → Machine → LiberaCBignum) (command : Command)
    (s : Machine) : Except LiberaCError Unit × Machine :=
  exec (leftover command s) command host s

variable {host : Host} {leftover : Command → Machine → LiberaCBignum} {command : Command}
  {s : Machine}

theorem step_valid (h : AllValid s.2) : AllValid (step host leftover command s).2.2 := by
  have hends := exec_ends h (leftover command s) command host s.1
  unfold step
  rcases hrun : exec (leftover command s) command host s with ⟨e | a, next⟩
  · rw [hrun] at hends
    exact hends.1
  · rw [hrun] at hends
    exact hends.1

/-- In every state that any calls in any order reach from fresh bignums, whatever memory they got
and wherever their operands coincide, each bignum is in normalized form with clear limbs above its
length, so that a reader of any fixed width that covers it sees its number; and each call did to the
numbers what it says, or failed and changed none but the first of two results. -/
theorem bignum_runs (host : Host) (leftover : Command → Machine → LiberaCBignum)
    (commands : List Command) (requests : Nat) :
    ∀ event ∈ run (step host leftover) commands (requests, fun _ => cryptoBignumInit),
      (∀ i, (event.after.2 i).Valid ∧ ∀ n, (event.after.2 i).length ≤ n →
        wordsValue ((event.after.2 i).limbs.take n) = (event.after.2 i).value) ∧
      match event.result with
      | .ok _ => Effect (values event.before.2) (values event.after.2) event.call
      | .error _ => Failure (values event.before.2) (values event.after.2) event.call := by
  intro event hevent
  have hvalid := run_invariant (fun command (s : Machine) (hs : AllValid s.2) => step_valid hs)
    (fun _ => init_valid) hevent
  refine ⟨fun i => ⟨hvalid.2 i, fun n hn => (hvalid.2 i).value_take hn⟩, ?_⟩
  have hends := exec_ends hvalid.1 (leftover event.call event.before) event.call host event.before.1
  rw [mem_run hevent]
  unfold eventOf step
  rcases hrun : exec (leftover event.call event.before) event.call host event.before with
    ⟨e | a, next⟩
  · rw [hrun] at hends
    exact hends.2
  · rw [hrun] at hends
    exact hends.2

theorem bignum_runs_sample :
    ∃ event ∈ run (step generousHost fun _ _ => cryptoBignumInit)
        [.setU64 0 3, .setU64 1 5, .add 0 0 1] (0, fun _ => cryptoBignumInit),
      event.result = .ok () ∧ event.before.2 0 = oneLimb 3 ∧
        Effect (values event.before.2) (values event.after.2) (.add 0 0 1) := by
  have hmem : ∀ first second third : Event Command (Except LiberaCError Unit) Machine,
      third ∈ [first, second, third] := by simp
  have hrun := bignum_runs generousHost (fun _ _ => cryptoBignumInit)
    [.setU64 0 3, .setU64 1 5, .add 0 0 1] 0 _ (hmem _ _ _)
  exact ⟨_, hmem _ _ _, rfl, rfl, hrun.2⟩

end LiberaCrypt.BignumRuns
