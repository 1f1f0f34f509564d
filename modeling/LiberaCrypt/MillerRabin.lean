import LiberaCrypt.Prime
import Mathlib.FieldTheory.Finite.Basic

namespace LiberaCrypt.MillerRabin

open LiberaCrypt.Outcome LiberaCrypt.Allocation LiberaCrypt.Limbs LiberaCrypt.Bignum
open LiberaCrypt.BignumAdd LiberaCrypt.BignumRandom LiberaCrypt.BignumSmall
open LiberaCrypt.Montgomery LiberaCrypt.ModExpVartime LiberaCrypt.Prime

variable {value nMinus1 nMinus3 d x : LiberaCBignum} {n s : Nat}

section Division

/-- The small primes, a prime among them included, reject no prime. -/
theorem divideSmall_of_prime (hvalue : value.Valid) (hprime : value.value.Prime)
    {ps : List UInt32} (hps : ∀ p ∈ ps, 1 < p.toNat) : divideSmall value ps = true := by
  induction ps with
  | nil => rfl
  | cons p ps ih =>
    have hp := hps p (List.mem_cons_self)
    have hne : p ≠ 0 := by
      rintro rfl
      exact absurd hp (by decide)
    have hrest := ih fun q hq => hps q (List.mem_cons_of_mem p hq)
    rw [divideSmall]
    by_cases hword : isWord value p = true
    · rw [if_pos hword]
    · rw [if_neg hword, if_neg, hrest]
      intro hmod
      have hdvd : p.toNat ∣ value.value := by
        apply Nat.dvd_of_mod_eq_zero
        rw [← bignumModU32_toNat hvalue hne, hmod]
        rfl
      rcases hprime.eq_one_or_self_of_dvd _ hdvd with h1 | hself
      · omega
      · exact hword ((isWord_iff hvalue hne).mpr hself.symm)

theorem primeSmallDivision_of_prime (hvalue : value.Valid) (hprime : value.value.Prime) :
    primeSmallDivision value = true := by
  have hlength : value.length ≠ 0 := fun h0 =>
    hprime.ne_zero (hvalue.length_eq_zero.mp h0)
  rw [primeSmallDivision, if_neg hlength]
  by_cases htwo : isWord value 2 = true
  · rw [if_pos htwo]
  have hsmall : smallPrimes.all (fun p => 1 < p.toNat) = true := by decide
  rw [if_neg htwo, if_neg]
  · exact divideSmall_of_prime hvalue hprime fun p hp =>
      of_decide_eq_true (List.all_eq_true.mp hsmall p hp)
  · rw [odd_iff, (words_head hlength).2]
    intro heven
    rcases hprime.eq_two_or_odd with h2 | hodd
    · exact htwo ((isWord_iff hvalue (by decide)).mpr h2)
    · omega

end Division

section Rounds

variable [Fact n.Prime]

theorem root_of_one {m : Nat} (hm : m < n) (hsquare : (m : ZMod n) ^ 2 = 1) :
    m = 1 ∨ m = n - 1 := by
  have hn := (Fact.out : n.Prime).two_le
  rw [pow_two] at hsquare
  rcases mul_self_eq_one_iff.mp hsquare with h1 | hneg
  · left
    have hcast : ((m : Nat) : ZMod n) = ((1 : Nat) : ZMod n) := by rw [h1, Nat.cast_one]
    rwa [ZMod.natCast_eq_natCast_iff', Nat.mod_eq_of_lt hm, Nat.mod_eq_of_lt hn] at hcast
  · right
    have hcast : ((m + 1 : Nat) : ZMod n) = 0 := by
      rw [Nat.cast_add, Nat.cast_one, hneg, neg_add_cancel]
    have hle := Nat.le_of_dvd (Nat.succ_pos m) ((ZMod.natCast_eq_zero_iff _ _).mp hcast)
    omega

/-- No squaring of a prime's round leads to one before `n - 1` is met. -/
theorem squareRound_passes {room : Nat} (hvalue : value.Valid) (hn : value.value = n)
    (hminus : nMinus1.Valid) (hminusValue : nMinus1.value = n - 1)
    (hroom : 4 * (value.length + 2 * value.length + 1) ≤ room) {j : Nat} (hx : x.Valid)
    (hlt : x.value < n) (hone : x.value ≠ 1) (hneg : x.value ≠ n - 1)
    (hpower : (x.value : ZMod n) ^ 2 ^ (j + 1) = 1) :
    Ensures room (squareRound value nMinus1 j x) fun r => r.1 = true ∧ r.2.Valid := by
  have hpos := (Fact.out : n.Prime).pos
  have hnotRoot : (x.value : ZMod n) ^ 2 ≠ 1 := by
    intro hsquare
    rcases root_of_one hlt hsquare with h1 | h2
    · exact hone h1
    · exact hneg h2
  induction j generalizing x with
  | zero =>
    rw [Nat.zero_add, pow_one] at hpower
    exact absurd hpower hnotRoot
  | succ j ih =>
    have hlen : x.length ≤ value.length := hx.length_le_of_value (by omega)
    have hsquare := cryptoBignumModSquare_ensures init_valid hx hvalue
      (show value.value ≠ 0 by omega) (show 4 * (value.length + 2 * x.length + 1) ≤ room by omega)
    refine (Ensures.reported hsquare).bind ?_
    rintro y ⟨hy, hyvalue⟩
    rw [hn] at hyvalue
    have hcast : (y.value : ZMod n) = (x.value : ZMod n) ^ 2 := by
      rw [hyvalue, ZMod.natCast_mod, Nat.cast_pow]
    have hmeets : cryptoBignumCompare y nMinus1 = .eq ↔ y.value = n - 1 := by
      rw [cryptoBignumCompare_eq hy hminus, Nat.compare_eq_eq, hminusValue]
    by_cases hyneg : y.value = n - 1
    · rw [if_pos (hmeets.mpr hyneg)]
      exact Ensures.pure ⟨rfl, hy⟩
    have hword : isWord y 1 = true ↔ y.value = 1 := isWord_iff hy (by decide)
    have hyone : y.value ≠ 1 := by
      intro h1
      rw [h1, Nat.cast_one] at hcast
      exact hnotRoot hcast.symm
    rw [if_neg (hmeets.not.mpr hyneg), if_neg (hword.not.mpr hyone)]
    have hylt : y.value < n := by
      rw [hyvalue]
      exact Nat.mod_lt _ hpos
    apply ih hy hylt hyone hyneg
    · rw [hcast, ← pow_mul, ← pow_succ']
      exact hpower
    · intro hroot
      rcases root_of_one hylt hroot with h1 | h2
      · exact hyone h1
      · exact hyneg h2

structure Decomposition (value nMinus1 nMinus3 d : LiberaCBignum) (s : Nat) : Prop where
  valid : value.Valid
  five : 5 ≤ value.value
  minus1_valid : nMinus1.Valid
  minus1 : nMinus1.value = value.value - 1
  minus3_valid : nMinus3.Valid
  minus3 : nMinus3.value = value.value - 3
  odd_valid : d.Valid
  product : d.value * 2 ^ s = value.value - 1
  even : s ≠ 0

theorem witness_add {a : LiberaCBignum} (ha : a.Valid) (hlt : a.value + 3 < value.value) :
    Returns (liftM (reported (bignumAddU32 a 2) .allocationFailed) : Randomized LiberaCBignum)
      fun a => a.Valid ∧ 2 ≤ a.value ∧ a.value ≤ value.value - 2 := by
  refine (Returns.lift (Ensures.reported (bignumAddU32_ensures ha 2 (le_refl _)))).mono ?_
  rintro b ⟨hb, hbvalue⟩
  have htwo : (2 : UInt32).toNat = 2 := rfl
  rw [htwo] at hbvalue
  exact ⟨hb, by omega, by omega⟩

variable (h : Decomposition value nMinus1 nMinus3 d s)
include h

theorem witness_range : Returns (cryptoBignumRandomRange nMinus3) fun a => a.Valid ∧
    a.value + 3 < value.value := by
  have hfive := h.five
  refine (cryptoBignumRandomRange_returns h.minus3_valid).mono ?_
  rintro a ⟨ha, hlt⟩
  rw [h.minus3] at hlt
  exact ⟨ha, by omega⟩

theorem primeRounds_passes (hprime : value.value.Prime) {rounds : Nat} (hx : x.Valid) :
    Returns (primeRoundsWatched (fun _ => pure ()) value nMinus1 nMinus3 d s rounds x)
      (· = true) := by
  have hfact := Fact.mk hprime
  have hfive := h.five
  induction rounds generalizing x with
  | zero => exact Returns.pure rfl
  | succ rounds ih =>
    refine (witness_range h).bind ?_
    rintro a ⟨ha, hlt⟩
    refine (witness_add ha hlt).bind ?_
    rintro b ⟨hb, hlow, hhigh⟩
    rw [pure_bind]
    have hpower := cryptoBignumModExpVartime_ensures hx hb h.odd_valid h.valid
      (show value.value ≠ 0 by omega) (le_refl _)
    refine (Returns.lift (Ensures.reported hpower)).bind ?_
    rintro y ⟨hy, hyvalue⟩
    by_cases hends : isWord y 1 = true ∨ cryptoBignumCompare y nMinus1 = .eq
    · rw [if_pos hends]
      exact ih hy
    rw [if_neg hends]
    obtain ⟨hone, hneg⟩ := not_or.mp hends
    rw [isWord_iff hy (by decide)] at hone
    rw [cryptoBignumCompare_eq hy h.minus1_valid, Nat.compare_eq_eq, h.minus1] at hneg
    have hylt : y.value < value.value := by
      rw [hyvalue]
      exact Nat.mod_lt _ hprime.pos
    -- by Fermat the last of the squares is one
    have hbase : (b.value : ZMod value.value) ≠ 0 := by
      rw [Ne, ZMod.natCast_eq_zero_iff]
      exact Nat.not_dvd_of_pos_of_lt (by omega) (by omega)
    have hfermat : (y.value : ZMod value.value) ^ 2 ^ (s - 1 + 1) = 1 := by
      rw [Nat.sub_add_cancel (Nat.pos_of_ne_zero h.even), hyvalue, ZMod.natCast_mod, Nat.cast_pow,
        ← pow_mul, h.product, ZMod.pow_card_sub_one_eq_one hbase]
    have hround := squareRound_passes h.valid rfl h.minus1_valid h.minus1 (le_refl _) hy hylt hone
      hneg hfermat
    refine (Returns.lift hround).bind ?_
    rintro ⟨passed, z⟩ ⟨hpassed, hz⟩
    change Returns (if passed = true then _ else _) _
    rw [if_pos hpassed]
    exact ih hz

/-- An observer that does nothing on the numbers from 2 to `n - 2` is not noticed. -/
theorem primeRoundsWatched_eq {watch : LiberaCBignum → Randomized Unit}
    (hwatch : ∀ a : LiberaCBignum, 2 ≤ a.value → a.value ≤ value.value - 2 → watch a = pure ())
    (rounds : Nat) (x : LiberaCBignum) :
    primeRoundsWatched watch value nMinus1 nMinus3 d s rounds x =
      primeRoundsWatched (fun _ => pure ()) value nMinus1 nMinus3 d s rounds x := by
  induction rounds generalizing x with
  | zero => rfl
  | succ rounds ih =>
    refine (witness_range h).bind_congr ?_
    rintro a ⟨ha, hlt⟩
    refine (witness_add ha hlt).bind_congr ?_
    rintro b ⟨hb, hlow, hhigh⟩
    rw [hwatch b hlow hhigh]
    simp only [ih]

end Rounds

section Test

theorem odd_of_division (hdivision : primeSmallDivision value = true)
    (htwo : ¬ isWord value 2 = true) : value.value % 2 = 1 := by
  unfold primeSmallDivision at hdivision
  by_cases hlength : value.length = 0
  · rw [if_pos hlength] at hdivision
    cases hdivision
  by_cases heven : value.limbs.getD 0 0 &&& 1 = 0
  · rw [if_neg hlength, if_neg htwo, if_pos heven] at hdivision
    cases hdivision
  · rw [odd_iff, (words_head hlength).2] at heven
    omega

/-- `n - 1`, `n - 3` and the odd part of `n - 1`. -/
theorem decomposition {copy : LiberaCBignum} (hvalue : value.Valid) (hfive : 5 ≤ value.value)
    (hodd : value.value % 2 = 1) (hminus1 : nMinus1.Valid ∧ nMinus1.value = value.value - 1)
    (hcopy : copy.Valid ∧ copy.value = nMinus1.value)
    (hminus3 : nMinus3.Valid ∧ nMinus3.value = value.value - 3) :
    Decomposition value nMinus1 nMinus3 (oddPart (32 * copy.length) copy 0).1
      (oddPart (32 * copy.length) copy 0).2 := by
  have hlt : copy.value < 2 ^ (32 * copy.length) := by
    rw [pow_mul]
    exact copy.value_lt
  obtain ⟨hd, hdodd, hproduct⟩ := @oddPart_spec copy _ 0 hcopy.1 (by omega) hlt
  rw [pow_zero, mul_one, hcopy.2, hminus1.2] at hproduct
  refine ⟨hvalue, hfive, hminus1.1, hminus1.2, hminus3.1, hminus3.2, hd, hproduct, ?_⟩
  intro hzero
  rw [hzero, pow_zero, mul_one] at hproduct
  omega

theorem preparation (hvalue : value.Valid) (hfive : 5 ≤ value.value) :
    Returns (liftM (reported (bignumSubU32 cryptoBignumInit value 1) .allocationFailed) :
        Randomized LiberaCBignum) (fun r => r.Valid ∧ r.value = value.value - 1) ∧
      (∀ a : LiberaCBignum, a.Valid →
        Returns (liftM (reported (cryptoBignumCopy cryptoBignumInit a) .allocationFailed) :
          Randomized LiberaCBignum) fun r => r.Valid ∧ r.value = a.value) ∧
      Returns (liftM (reported (bignumSubU32 cryptoBignumInit value 3) .allocationFailed) :
        Randomized LiberaCBignum) (fun r => r.Valid ∧ r.value = value.value - 3) := by
  have hone : (1 : UInt32).toNat ≤ value.value := le_trans (by decide) hfive
  have hthree : (3 : UInt32).toNat ≤ value.value := le_trans (by decide) hfive
  refine ⟨?_, ?_, ?_⟩
  · exact Returns.lift (Ensures.reported
      (bignumSubU32_ensures init_valid hvalue 1 hone (le_refl _)))
  · exact fun a ha => Returns.lift (Ensures.reported
      (cryptoBignumCopy_ensures init_valid ha (le_refl _)))
  · exact Returns.lift (Ensures.reported
      (bignumSubU32_ensures init_valid hvalue 3 hthree (le_refl _)))

theorem five_le (hvalue : value.Valid)
    (hsmall : ¬ (isWord value 2 = true ∨ isWord value 3 = true))
    (hdivision : primeSmallDivision value = true)
    (hunit : ¬ (value.length = 1 ∧ value.limbs.getD 0 0 < 2)) :
    5 ≤ value.value ∧ value.value % 2 = 1 := by
  obtain ⟨htwo, hthree⟩ := not_or.mp hsmall
  have hodd := odd_of_division hdivision htwo
  have hne1 : value.value ≠ 1 := by
    intro h1
    have hword := (isWord_iff hvalue (by decide : (1 : UInt32) ≠ 0)).mpr h1
    rw [isWord, Bool.and_eq_true, beq_iff_eq, beq_iff_eq] at hword
    apply hunit
    rw [hword.2]
    exact ⟨hword.1, by decide⟩
  have hne3 : value.value ≠ 3 := fun h3 =>
    hthree ((isWord_iff hvalue (by decide)).mpr h3)
  omega

theorem primeIsProbableChecked_passes (hvalue : value.Valid) (hprime : value.value.Prime)
    (rounds : Nat) : Returns (primeIsProbableChecked value rounds) (· = true) := by
  have hdivision := primeSmallDivision_of_prime hvalue hprime
  have hzero : value.length ≠ 0 := fun h0 => hprime.ne_zero (hvalue.length_eq_zero.mp h0)
  have hunit : ¬ (value.length = 1 ∧ value.limbs.getD 0 0 < 2) := by
    rintro ⟨hlength, hlimb⟩
    have hvalueLimb := hvalue.value_top hzero
    rw [hlength, Nat.sub_self, List.take_zero, wordsValue_nil, pow_zero, Nat.one_mul,
      Nat.zero_add] at hvalueLimb
    have hlt : (value.limbs.getD 0 0).toNat < 2 := hlimb
    exact absurd hprime.two_le (by omega)
  unfold primeIsProbableChecked primeIsProbableWatched
  rw [if_neg hzero]
  by_cases hsmall : isWord value 2 = true ∨ isWord value 3 = true
  · rw [if_pos hsmall]
    exact Returns.pure rfl
  obtain ⟨hfive, hodd⟩ := five_le hvalue hsmall hdivision hunit
  obtain ⟨hminus1, hcopy, hminus3⟩ := preparation hvalue hfive
  rw [if_neg hsmall, if_neg hunit, if_neg (not_not.mpr hdivision)]
  refine hminus1.bind fun nMinus1 h1 => ?_
  refine (hcopy nMinus1 h1.1).bind fun copy h2 => ?_
  refine hminus3.bind fun nMinus3 h3 => ?_
  exact primeRounds_passes (decomposition hvalue hfive hodd h1 h2 h3) hprime init_valid

theorem primeIsProbableWatched_eq (hvalue : value.Valid) {watch : LiberaCBignum → Randomized Unit}
    (hwatch : ∀ a : LiberaCBignum, 2 ≤ a.value → a.value ≤ value.value - 2 → watch a = pure ())
    (rounds : Nat) : primeIsProbableWatched watch value rounds =
      primeIsProbableChecked value rounds := by
  unfold primeIsProbableChecked primeIsProbableWatched
  by_cases hzero : value.length = 0
  · rw [if_pos hzero, if_pos hzero]
  by_cases hsmall : isWord value 2 = true ∨ isWord value 3 = true
  · rw [if_neg hzero, if_neg hzero, if_pos hsmall, if_pos hsmall]
  by_cases hunit : value.length = 1 ∧ value.limbs.getD 0 0 < 2
  · rw [if_neg hzero, if_neg hzero, if_neg hsmall, if_neg hsmall, if_pos hunit, if_pos hunit]
  rw [if_neg hzero, if_neg hzero, if_neg hsmall, if_neg hsmall, if_neg hunit, if_neg hunit]
  by_cases hdivision : primeSmallDivision value = true
  · obtain ⟨hfive, hodd⟩ := five_le hvalue hsmall hdivision hunit
    obtain ⟨hminus1, hcopy, hminus3⟩ := preparation hvalue hfive
    rw [if_neg (not_not.mpr hdivision), if_neg (not_not.mpr hdivision)]
    refine hminus1.bind_congr fun nMinus1 h1 => ?_
    refine (hcopy nMinus1 h1.1).bind_congr fun copy h2 => ?_
    refine hminus3.bind_congr fun nMinus3 h3 => ?_
    exact primeRoundsWatched_eq (decomposition hvalue hfive hodd h1 h2 h3) hwatch _ _
  · rw [if_pos hdivision, if_pos hdivision]

/-- Only numbers that are no primes are rejected, whatever the random bytes and the memory; and an
observer of the bases that does nothing on the numbers from 2 to `n - 2` changes no run, not even
a failing one, so that no other base is used. -/
theorem primeIsProbableChecked_sound (hvalue : value.Valid) (rounds : Nat) :
    Returns (primeIsProbableChecked value rounds) (fun isProbable => isProbable = false →
        value.value < 2 ∨ ∃ m, m ∣ value.value ∧ 2 ≤ m ∧ m < value.value) ∧
      ∀ watch : LiberaCBignum → Randomized Unit,
        (∀ a : LiberaCBignum, 2 ≤ a.value → a.value ≤ value.value - 2 → watch a = pure ()) →
          primeIsProbableWatched watch value rounds = primeIsProbableChecked value rounds := by
  refine ⟨?_, fun watch hwatch => primeIsProbableWatched_eq hvalue hwatch rounds⟩
  by_cases hprime : value.value.Prime
  · refine (primeIsProbableChecked_passes hvalue hprime rounds).mono ?_
    rintro isProbable rfl
    nofun
  · refine Returns.any.mono fun isProbable _ _ => ?_
    by_cases hlt : value.value < 2
    · exact .inl hlt
    · exact .inr ((Nat.not_prime_iff_exists_dvd_lt (not_lt.mp hlt)).mp hprime)

/-- At `1009 * 1013`, with an observer that stops the run at any other base. -/
theorem primeIsProbableChecked_sound_semiprime :
    Returns (primeIsProbableChecked ⟨[1022117], 1⟩ 4) (fun isProbable => isProbable = false →
        1022117 < 2 ∨ ∃ m, m ∣ 1022117 ∧ 2 ≤ m ∧ m < 1022117) ∧
      primeIsProbableWatched
          (fun a => if 2 ≤ a.value ∧ a.value ≤ 1022115 then pure () else throw .invalidKey)
          ⟨[1022117], 1⟩ 4 =
        primeIsProbableChecked ⟨[1022117], 1⟩ 4 := by
  have hvalid : LiberaCBignum.Valid ⟨[1022117], 1⟩ :=
    ⟨by decide, fun i hi => List.getD_eq_default _ _ hi, by decide⟩
  obtain ⟨hsound, hwitnesses⟩ := primeIsProbableChecked_sound hvalid 4
  exact ⟨hsound, hwitnesses _ fun a hlow hhigh => if_pos ⟨hlow, hhigh⟩⟩

end Test

end LiberaCrypt.MillerRabin
