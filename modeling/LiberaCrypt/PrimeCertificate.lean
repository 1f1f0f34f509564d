import LiberaCrypt.CountedLoop
import Mathlib.Data.List.Prime
import Mathlib.NumberTheory.LucasPrimality

namespace LiberaCrypt.PrimeCertificate

open LiberaCrypt.CountedLoop

/-- `a ^ e` modulo `m`, for an exponent with so many bits, six of them at a time. -/
def powMod (m a e bits : Nat) : Nat :=
  countDown (bits / 6 + 1) (fun i acc =>
    Nat.pow acc 64 * Nat.pow a (e / Nat.pow 64 i % 64) % m) (1 % m)

theorem powMod_cast {m a e bits : Nat} (hbits : e < 2 ^ bits) :
    (powMod m a e bits : ZMod m) = (a : ZMod m) ^ e := by
  have hloop := countDown_invariant (fun i (acc : Nat) =>
    (acc : ZMod m) = (a : ZMod m) ^ (e / 64 ^ i)) (n := bits / 6 + 1) (s := 1 % m)
    (f := fun i acc => Nat.pow acc 64 * Nat.pow a (e / Nat.pow 64 i % 64) % m) ?_ ?_
  · rwa [pow_zero, Nat.div_one] at hloop
  · have hdigits : 2 ^ bits ≤ 64 ^ (bits / 6 + 1) := by
      rw [show 64 = 2 ^ 6 from rfl, ← pow_mul]
      exact Nat.pow_le_pow_right Nat.two_pos (by omega)
    rw [Nat.div_eq_of_lt (hbits.trans_le hdigits), pow_zero, ZMod.natCast_mod, Nat.cast_one]
  · intro i hi acc hacc
    have hdigit : 64 * (e / 64 ^ (i + 1)) + e / 64 ^ i % 64 = e / 64 ^ i := by
      rw [pow_succ, ← Nat.div_div_eq_div_mul, Nat.div_add_mod]
    change ((acc ^ 64 * a ^ (e / 64 ^ i % 64) % m : Nat) : ZMod m) = _
    rw [ZMod.natCast_mod, Nat.cast_mul, Nat.cast_pow, Nat.cast_pow, hacc, ← pow_mul, ← pow_add,
      Nat.mul_comm, hdigit]

theorem powMod_eq_one {m a e bits : Nat} (hm : 1 < m) (hbits : e < 2 ^ bits) :
    powMod m a e bits % m = 1 ↔ (a : ZMod m) ^ e = 1 := by
  have hcast := ZMod.natCast_eq_natCast_iff' (powMod m a e bits) 1 m
  rw [Nat.cast_one, Nat.mod_eq_of_lt hm, powMod_cast hbits] at hcast
  exact hcast.symm

/-- No divisor from `d` on, as far as the fuel and the square root reach. -/
def noDivisor (n : Nat) : Nat → Nat → Bool
  | 0, _ => true
  | fuel + 1, d => Nat.ble (n + 1) (d * d) || n % d != 0 && noDivisor n fuel (d + 1)

theorem noDivisor_mod {n fuel d k : Nat} (h : noDivisor n fuel d = true) (hd : d ≤ k)
    (hk : k < d + fuel) (hsquare : k * k ≤ n) : n % k ≠ 0 := by
  induction fuel generalizing d with
  | zero => omega
  | succ fuel ih =>
    simp only [noDivisor, Bool.or_eq_true, Nat.ble_eq, Bool.and_eq_true, bne_iff_ne] at h
    rcases h with hpast | ⟨hmod, hrest⟩
    · have hle := Nat.mul_le_mul hd hd
      omega
    · by_cases hsame : d = k
      · rwa [hsame] at hmod
      · exact ih hrest (by omega) (by omega)

def smallPrime (n : Nat) : Bool := 2 ≤ n && n < 65536 && noDivisor n 254 2

theorem smallPrime_prime {n : Nat} (h : smallPrime n = true) : n.Prime := by
  simp only [smallPrime, Bool.and_eq_true, decide_eq_true_eq] at h
  obtain ⟨⟨htwo, hlt⟩, htrial⟩ := h
  refine Nat.prime_def_le_sqrt.mpr ⟨htwo, fun d hd hsqrt hdvd => ?_⟩
  have hsquare : d * d ≤ n := Nat.le_sqrt.mp hsqrt
  have hbound : d < 256 := by nlinarith
  exact noDivisor_mod htrial hd hbound hsquare (Nat.mod_eq_zero_of_dvd hdvd)

/-- A number, a generator of its units, and the factors of the number before it, each with its
exponent. -/
structure Certificate where
  p : Nat
  generator : Nat
  factors : List (Nat × Nat)

def Certificate.power (c : Certificate) (e : Nat) : Nat :=
  powMod c.p c.generator e (Nat.log2 c.p + 1) % c.p

def Certificate.check (c : Certificate) : Bool :=
  1 < c.p && (c.factors.map fun f => f.1 ^ f.2).prod == c.p - 1 && c.power (c.p - 1) == 1 &&
    c.factors.all fun f => c.power ((c.p - 1) / f.1) != 1

def checkAll : List Certificate → Bool
  | [] => true
  | c :: rest => c.check &&
    (c.factors.all fun f => smallPrime f.1 || rest.any fun d => d.p == f.1) && checkAll rest

theorem Certificate.power_eq_one {c : Certificate} (hp : 1 < c.p) {e : Nat} (he : e ≤ c.p) :
    c.power e = 1 ↔ (c.generator : ZMod c.p) ^ e = 1 :=
  powMod_eq_one hp (he.trans_lt Nat.lt_log2_self)

theorem Certificate.check_prime {c : Certificate} (h : c.check = true)
    (hfactors : ∀ f ∈ c.factors, f.1.Prime) : c.p.Prime := by
  simp only [Certificate.check, Bool.and_eq_true, decide_eq_true_eq, beq_iff_eq, List.all_eq_true,
    bne_iff_ne] at h
  obtain ⟨⟨⟨hone, hproduct⟩, hpower⟩, horder⟩ := h
  apply lucas_primality c.p (c.generator : ZMod c.p)
  · exact (power_eq_one hone (Nat.sub_le _ _)).mp hpower
  · intro q hq hdvd hq1
    rw [← hproduct, Prime.dvd_prod_iff hq.prime] at hdvd
    obtain ⟨power, hmem, hdvd⟩ := hdvd
    obtain ⟨f, hf, rfl⟩ := List.mem_map.mp hmem
    have hsame : q = f.1 :=
      (Nat.prime_dvd_prime_iff_eq hq (hfactors f hf)).mp (hq.dvd_of_dvd_pow hdvd)
    subst hsame
    have hle := (Nat.div_le_self (c.p - 1) f.1).trans (Nat.sub_le _ _)
    exact horder f hf ((power_eq_one hone hle).mpr hq1)

theorem prime_of_checkAll {certificates : List Certificate} (h : checkAll certificates = true) :
    ∀ c ∈ certificates, c.p.Prime := by
  induction certificates with
  | nil => exact fun c hc => absurd hc List.not_mem_nil
  | cons c rest ih =>
    simp only [checkAll, Bool.and_eq_true, List.all_eq_true, Bool.or_eq_true, List.any_eq_true,
      beq_iff_eq] at h
    obtain ⟨⟨hcheck, hfactors⟩, hrest⟩ := h
    have hprimes := ih hrest
    refine List.forall_mem_cons.mpr ⟨Certificate.check_prime hcheck ?_, hprimes⟩
    intro f hf
    rcases hfactors f hf with hsmall | ⟨d, hd, hsame⟩
    · exact smallPrime_prime hsmall
    · exact hsame ▸ hprimes d hd

end LiberaCrypt.PrimeCertificate
