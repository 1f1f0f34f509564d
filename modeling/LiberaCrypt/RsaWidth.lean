import LiberaCrypt.Rsa

namespace LiberaCrypt.RsaWidth

open LiberaCrypt.Outcome LiberaCrypt.Allocation LiberaCrypt.Def LiberaCrypt.Limbs LiberaCrypt.Bignum
open LiberaCrypt.ModExpAgree LiberaCrypt.ModExpSecure LiberaCrypt.Montgomery LiberaCrypt.Rsa

variable {base exponent modulus : LiberaCBignum} {key : LiberaCRsaPrivateKey}

/-- The checks of `crypto_bignum_mod_exp_ct` on its arguments. -/
structure Checked (base exponent modulus : LiberaCBignum) : Prop where
  length_ne : modulus.length ≠ 0
  odd : modulus.limbs.getD 0 0 &&& 1 ≠ 0
  reduced : cryptoBignumCompare base modulus = .lt
  width : modulus.length ≤ exponent.capacity
  size : modulus.length ≤ sizeMax / 32

def SucceedsExactly (x : Fallible LiberaCBignum) (value : Nat) : Prop :=
  ∀ host k out, outcome x host k = .ok out → out.value = value

theorem checked_of_ok {host : Host} {k : Nat} {out : LiberaCBignum}
    (h : outcome (cryptoBignumModExpCt base exponent modulus) host k = .ok out) :
    Checked base exponent modulus := by
  have hcore : ∃ outs, outcome (bignumModExpCtCore [base] exponent modulus false) host k =
      .ok outs := by
    rw [cryptoBignumModExpCt, outcome_bind] at h
    unfold outcome
    rcases hrun : bignumModExpCtCore [base] exponent modulus false host k with ⟨e | outs, k'⟩
    · rw [hrun] at h
      cases h
    · exact ⟨outs, rfl⟩
  obtain ⟨outs, hcore⟩ := hcore
  unfold bignumModExpCtCore at hcore
  dsimp only at hcore
  split_ifs at hcore with hlength hodd hfixed hreduced hwidth hsize
  iterate 6 cases hcore
  refine ⟨hlength, hodd, ?_, not_lt.mp hwidth, not_lt.mp (not_or.mp hsize).1⟩
  by_contra hne
  exact hreduced ⟨not_false, base, List.mem_singleton_self base, hne⟩

theorem modExpCt_value (hbase : base.Valid) (hexponent : exponent.Valid) (hmodulus : modulus.Valid)
    (h : Checked base exponent modulus) :
    Ensures (32 * modulus.length) (cryptoBignumModExpCt base exponent modulus) fun out =>
      out.value = base.value ^ (exponent.value % wordBase ^ modulus.length) % modulus.value := by
  have hlt : base.value < modulus.value := by
    have hcompare := h.reduced
    rw [cryptoBignumCompare_eq hbase hmodulus] at hcompare
    exact Nat.compare_eq_lt.mp hcompare
  have hodd : modulus.value % 2 = 1 := by
    have hne := h.odd
    rw [Ne, odd_iff, (words_head h.length_ne).2] at hne
    omega
  exact (cryptoBignumModExpCt_ensures hbase hlt hexponent h.width hmodulus hodd le_rfl).mono
    fun out hout => hout.2.1

theorem succeedsExactly_iff (hbase : base.Valid) (hexponent : exponent.Valid)
    (hmodulus : modulus.Valid) :
    SucceedsExactly (cryptoBignumModExpCt base exponent modulus)
        (base.value ^ exponent.value % modulus.value) ↔
      (Checked base exponent modulus →
        base.value ^ (exponent.value % wordBase ^ modulus.length) % modulus.value =
          base.value ^ exponent.value % modulus.value) := by
  constructor
  · intro hexact hchecked
    have hsize : 32 * modulus.length ≤ sizeMax :=
      Nat.mul_comm modulus.length 32 ▸ (Nat.le_div_iff_mul_le (by decide)).mp hchecked.size
    have hrun := modExpCt_value hbase hexponent hmodulus hchecked generousHost 0
    cases hout : outcome (cryptoBignumModExpCt base exponent modulus) generousHost 0 with
    | error status =>
      rw [hout] at hrun
      exact absurd (generousHost_grants hsize) hrun
    | ok out =>
      rw [hout] at hrun
      exact hrun.symm.trans (hexact _ _ _ hout)
  · intro hsame host k out hout
    have hchecked := checked_of_ok hout
    have hrun := modExpCt_value hbase hexponent hmodulus hchecked host k
    rw [hout] at hrun
    exact hrun.trans (hsame hchecked)

theorem succeedsExactly_of_length (hbase : base.Valid) (hexponent : exponent.Valid)
    (hmodulus : modulus.Valid)
    (hlength : Checked base exponent modulus → exponent.length ≤ modulus.length) :
    SucceedsExactly (cryptoBignumModExpCt base exponent modulus)
      (base.value ^ exponent.value % modulus.value) := by
  refine (succeedsExactly_iff hbase hexponent hmodulus).mpr fun hchecked => ?_
  rw [Nat.mod_eq_of_lt (hexponent.length_le_iff.mp (hlength hchecked))]

theorem outcome_reported_ok {α : Type} {x : Fallible α} {status : LiberaCError} {host : Host}
    {k : Nat} {a : α} : outcome (reported x status) host k = .ok a ↔ outcome x host k = .ok a := by
  rw [reported, outcome_recover]
  unfold outcome
  rcases x host k with ⟨e | r, k'⟩
  · exact iff_of_false (fun h => by cases h) (fun h => by cases h)
  · rfl

theorem cryptoRsaDecryptInternal_ok {ciphertext : LiberaCBignum} {host : Host} {k : Nat}
    {out : LiberaCBignum} :
    outcome (cryptoRsaDecryptInternal .rsaRaw ciphertext key) host k = .ok out ↔
      outcome (cryptoBignumModExpCt ciphertext key.d key.n) host k = .ok out := by
  rw [cryptoRsaDecryptInternal, if_neg (not_not.mpr rfl)]
  split
  · next hlarge =>
    refine iff_of_false (fun h => by cases h) fun h => ?_
    exact hlarge (checked_of_ok h).reduced
  · exact outcome_reported_ok

/-- A whole exponent below the modulus is one of no more limbs, once the scan accepts it. -/
theorem accepted_iff (hd : key.d.Valid) (hvalid : rsaPrivateKeyValid key = true) :
    (0 < key.d.value ∧ key.d.value < key.n.value) ↔ key.d.length ≤ key.n.length := by
  obtain ⟨hstored, hpos, hlt⟩ := rsaPrivateKeyValid_iff.mp hvalid
  constructor
  · rintro ⟨-, hbelow⟩
    exact hd.length_le_iff.mpr (hbelow.trans key.n.value_lt)
  · intro hlength
    rw [hd.value_take hlength] at hpos hlt
    exact ⟨hpos, hlt⟩

theorem succeedsExactly_raw {ciphertext : LiberaCBignum} {value : Nat} :
    SucceedsExactly (cryptoRsaDecryptInternal .rsaRaw ciphertext key) value ↔
      SucceedsExactly (cryptoBignumModExpCt ciphertext key.d key.n) value :=
  forall₃_congr fun _ _ _ => imp_congr_left cryptoRsaDecryptInternal_ok

section Lengths

/-- The largest number of `n` limbs, which is odd. -/
def fullModulus (n : Nat) : LiberaCBignum := ⟨List.replicate n 0xffffffff, n⟩

/-- The least number of `l + 1` limbs. -/
def highPower (l : Nat) : LiberaCBignum := ⟨List.replicate l 0 ++ [1], l + 1⟩

theorem fullModulus_valid (n : Nat) : (fullModulus n).Valid := by
  refine ⟨List.length_replicate.ge, fun i hi => ?_, fun hn => ?_⟩
  · exact List.getD_eq_default _ _ (List.length_replicate.trans_le hi)
  · have hlast : n - 1 < n := Nat.sub_lt (Nat.pos_of_ne_zero hn) Nat.one_pos
    change (List.replicate n (0xffffffff : UInt32)).getD (n - 1) 0 ≠ 0
    rw [List.getD_replicate _ hlast]
    decide

theorem highPower_valid (l : Nat) : (highPower l).Valid := by
  have hlength : (highPower l).limbs.length = l + 1 := by simp [highPower]
  refine ⟨hlength.ge, fun i hi => List.getD_eq_default _ _ (hlength.trans_le hi), fun _ => ?_⟩
  change (List.replicate l (0 : UInt32) ++ [1]).getD (l + 1 - 1) 0 ≠ 0
  rw [List.getD_append_right _ _ _ _ (List.length_replicate.trans_le (by omega)),
    List.length_replicate, Nat.add_sub_cancel, Nat.sub_self]
  decide

theorem highPower_value (l : Nat) : (highPower l).value = wordBase ^ l := by
  have hwords : (highPower l).words = List.replicate l 0 ++ [1] :=
    List.take_of_length_le (by simp [highPower])
  rw [LiberaCBignum.value, hwords, wordsValue_append, wordsValue_zeros, List.length_replicate,
    wordsValue_singleton]
  simp

theorem one_lt_fullModulus {n : Nat} (h : 0 < n) : 1 < (fullModulus n).value := by
  obtain ⟨k, rfl⟩ := Nat.exists_eq_succ_of_ne_zero h.ne'
  have hwords : (fullModulus (k + 1)).words = 0xffffffff :: List.replicate k 0xffffffff :=
    List.take_of_length_le (by simp [fullModulus])
  have hfirst : (0xffffffff : UInt32).toNat = 4294967295 := rfl
  rw [LiberaCBignum.value, hwords, wordsValue_cons, hfirst]
  omega

theorem wide_checked {n l : Nat} (hn : 0 < n) (hsize : n ≤ sizeMax / 32) (hwide : n ≤ l) :
    Checked cryptoBignumInit (highPower l) (fullModulus n) := by
  have hcapacity : (highPower l).capacity = l + 1 := by simp [highPower, LiberaCBignum.capacity]
  refine ⟨hn.ne', ?_, ?_, hcapacity.ge.trans' (Nat.le_succ_of_le hwide), hsize⟩
  · obtain ⟨k, rfl⟩ := Nat.exists_eq_succ_of_ne_zero hn.ne'
    rw [fullModulus, List.replicate_succ, List.getD_cons_zero]
    decide
  · rw [cryptoBignumCompare_lt init_valid (fullModulus_valid n)]
    exact (one_lt_fullModulus hn).trans' Nat.one_pos

/-- Zero to the least power of more limbs than the modulus has is one, and not zero. -/
theorem wide_inexact {n l : Nat} (hn : 0 < n) (hsize : n ≤ sizeMax / 32) (hwide : n ≤ l) :
    ¬ SucceedsExactly (cryptoBignumModExpCt cryptoBignumInit (highPower l) (fullModulus n))
      (cryptoBignumInit.value ^ (highPower l).value % (fullModulus n).value) := by
  rw [succeedsExactly_iff init_valid (highPower_valid l) (fullModulus_valid n)]
  intro hsame
  have hpower := hsame (wide_checked hn hsize hwide)
  have hscanned : wordBase ^ l % wordBase ^ n = 0 :=
    Nat.mod_eq_zero_of_dvd (pow_dvd_pow _ hwide)
  have hzero : cryptoBignumInit.value = 0 := rfl
  rw [highPower_value, show (fullModulus n).length = n from rfl, hscanned, hzero, pow_zero,
    zero_pow (Nat.pow_pos wordBase_pos).ne', Nat.mod_eq_of_lt (one_lt_fullModulus hn),
    Nat.zero_mod] at hpower
  exact absurd hpower one_ne_zero

end Lengths

/-- Where an exponent is no longer than the modulus, a success is the power, and what the check of a
private key lets through is below its modulus. For any greater length there are arguments that pass
the checks and give another number. -/
theorem exponent_width {base exponent modulus ciphertext : LiberaCBignum}
    {key : LiberaCRsaPrivateKey} (hbase : base.Valid) (hexponent : exponent.Valid)
    (hmodulus : modulus.Valid) (hciphertext : ciphertext.Valid) (hd : key.d.Valid)
    (hn : key.n.Valid) :
    ((¬ Checked base exponent modulus ∨ exponent.length ≤ modulus.length) →
      SucceedsExactly (cryptoBignumModExpCt base exponent modulus)
        (base.value ^ exponent.value % modulus.value)) ∧
    ((¬ Checked ciphertext key.d key.n ∨ key.d.length ≤ key.n.length) →
      SucceedsExactly (cryptoRsaDecryptInternal .rsaRaw ciphertext key)
        (ciphertext.value ^ key.d.value % key.n.value)) ∧
    ((rsaPrivateKeyValid key = true → 0 < key.d.value ∧ key.d.value < key.n.value) ↔
      (rsaPrivateKeyValid key = false ∨ key.d.length ≤ key.n.length)) ∧
    ∀ n l, 0 < n → n ≤ sizeMax / 32 → n < l →
      ∃ b e m : LiberaCBignum, b.Valid ∧ e.Valid ∧ m.Valid ∧ m.length = n ∧ e.length = l ∧
        Checked b e m ∧ ¬ SucceedsExactly (cryptoBignumModExpCt b e m) (b.value ^ e.value % m.value)
          ∧ ∀ p q, ¬ SucceedsExactly (cryptoRsaDecryptInternal .rsaRaw b ⟨m, e, p, q⟩)
            (b.value ^ e.value % m.value) := by
  refine ⟨fun h => ?_, fun h => ?_, ?_, fun n l hpos hsize hlong => ?_⟩
  · exact succeedsExactly_of_length hbase hexponent hmodulus h.neg_resolve_left
  · exact succeedsExactly_raw.mpr (succeedsExactly_of_length hciphertext hd hn h.neg_resolve_left)
  · cases hvalid : rsaPrivateKeyValid key with
    | false => exact iff_of_true (fun h => nomatch h) (Or.inl rfl)
    | true =>
      rw [imp_iff_right rfl, accepted_iff hd hvalid]
      exact (or_iff_right Bool.noConfusion).symm
  · obtain ⟨k, rfl⟩ := Nat.exists_eq_add_of_lt hlong
    have hwide : n ≤ n + k := Nat.le_add_right n k
    have hinexact := wide_inexact hpos hsize hwide
    exact ⟨cryptoBignumInit, highPower (n + k), fullModulus n, init_valid, highPower_valid _,
      fullModulus_valid n, rfl, rfl, wide_checked hpos hsize hwide, hinexact,
      fun p q hexact => hinexact (succeedsExactly_raw.mp hexact)⟩

/-- A private key whose `D` has one limb more than its modulus. -/
def longKey : LiberaCRsaPrivateKey := ⟨oneLimb 35, ⟨[5, 1], 2⟩, oneLimb 5, oneLimb 7⟩

theorem longKey_d_valid : longKey.d.Valid := padded_valid (w := [5, 1]) 0 fun _ => by decide

theorem longKey_n_valid : longKey.n.Valid := oneLimb_valid (by decide)

theorem two_pow_mod (k : Nat) : 2 ^ (12 * k + 9) % 35 = 22 := by
  rw [pow_add, pow_mul, Nat.mul_mod, Nat.pow_mod, show 2 ^ 12 % 35 = 1 from rfl, one_pow]
  rfl

theorem longKey_power : (oneLimb 2).value ^ longKey.d.value % longKey.n.value = 22 := by
  have hexponent : longKey.d.value = 12 * 357913941 + 9 := by decide
  have hbase : (oneLimb 2).value = 2 := by decide
  have hmodulus : longKey.n.value = 35 := by decide
  rw [hbase, hmodulus, hexponent]
  exact two_pow_mod 357913941

theorem longKey_inexact :
    ¬ SucceedsExactly (cryptoBignumModExpCt (oneLimb 2) longKey.d longKey.n)
      ((oneLimb 2).value ^ longKey.d.value % longKey.n.value) := by
  have hchecked : Checked (oneLimb 2) longKey.d longKey.n := by
    constructor <;> decide
  rw [succeedsExactly_iff (oneLimb_valid (by decide)) longKey_d_valid longKey_n_valid]
  intro hsame
  have hscanned := hsame hchecked
  rw [longKey_power] at hscanned
  exact absurd hscanned (by decide)

/-- The key is accepted and its `D` is not below `N`: raw decryption of 2 gives 32, and not 22. -/
theorem exponent_width_long :
    (oneLimb 2).Valid ∧ longKey.d.Valid ∧ longKey.n.Valid ∧
      ¬ SucceedsExactly (cryptoBignumModExpCt (oneLimb 2) longKey.d longKey.n)
        ((oneLimb 2).value ^ longKey.d.value % longKey.n.value) ∧
      ¬ SucceedsExactly (cryptoRsaDecryptInternal .rsaRaw (oneLimb 2) longKey)
        ((oneLimb 2).value ^ longKey.d.value % longKey.n.value) ∧
      rsaPrivateKeyValid longKey = true ∧ ¬ longKey.d.value < longKey.n.value := by
  refine ⟨oneLimb_valid (by decide), longKey_d_valid, longKey_n_valid, longKey_inexact, ?_,
    by decide, by decide⟩
  exact fun hexact => longKey_inexact (succeedsExactly_raw.mp hexact)

theorem exponent_width_equal :
    SucceedsExactly (cryptoBignumModExpCt (oneLimb 2) (oneLimb 5) (oneLimb 35)) (2 ^ 5 % 35) ∧
      SucceedsExactly (cryptoRsaDecryptInternal .rsaRaw (oneLimb 2) ⟨oneLimb 35, oneLimb 5,
        oneLimb 5, oneLimb 7⟩) (2 ^ 5 % 35) := by
  have hwidth := @exponent_width (oneLimb 2) (oneLimb 5) (oneLimb 35) (oneLimb 2)
    ⟨oneLimb 35, oneLimb 5, oneLimb 5, oneLimb 7⟩ (oneLimb_valid (by decide))
    (oneLimb_valid (by decide)) (oneLimb_valid (by decide)) (oneLimb_valid (by decide))
    (oneLimb_valid (by decide)) (oneLimb_valid (by decide))
  exact ⟨hwidth.1 (Or.inr le_rfl), hwidth.2.1 (Or.inr le_rfl)⟩

end LiberaCrypt.RsaWidth
