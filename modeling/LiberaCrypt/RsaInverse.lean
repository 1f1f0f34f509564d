import LiberaCrypt.ExtendedEuclid
import LiberaCrypt.WordArithmetic

namespace LiberaCrypt.RsaInverse

open LiberaCrypt.ExtendedEuclid LiberaCrypt.SignedWords

/-- The variables of the loop of `rsa_inverse_u32`. -/
structure InverseState where
  t : Int64
  newT : Int64
  r : Int64
  newR : Int64

def inverseRound (s : InverseState) : Option InverseState := do
  let q ← div64 s.r s.newR
  let tt ← sub64 s.t (← mul64 q s.newT)
  let rr ← sub64 s.r (← mul64 q s.newR)
  some ⟨s.newT, tt, s.newR, rr⟩

variable {s next : InverseState} {a m : Int}

theorem inverseRound_eq_some : inverseRound s = some next ↔
    ∃ q, div64 s.r s.newR = some q ∧ ∃ qt, mul64 q s.newT = some qt ∧
      sub64 s.t qt = some next.newT ∧ ∃ qr, mul64 q s.newR = some qr ∧
        sub64 s.r qr = some next.newR ∧ next.t = s.newT ∧ next.r = s.newR := by
  simp only [inverseRound, bind, Option.bind_eq_some_iff, Option.some_inj]
  constructor
  · rintro ⟨q, hq, qt, hqt, tt, htt, qr, hqr, rr, hrr, rfl⟩
    exact ⟨q, hq, qt, hqt, htt, qr, hqr, hrr, rfl, rfl⟩
  · rintro ⟨q, hq, qt, hqt, htt, qr, hqr, hrr, ht, hr⟩
    refine ⟨q, hq, qt, hqt, next.newT, htt, qr, hqr, next.newR, hrr, ?_⟩
    rw [← ht, ← hr]

/-- From any state a round with a result brings the remainder nearer to zero. -/
theorem inverseRound_newR (hne : s.newR ≠ 0) (hnext : inverseRound s = some next) :
    next.newR.toInt.natAbs < s.newR.toInt.natAbs := by
  have hdivisor : s.newR.toInt ≠ 0 := fun h => hne (Int64.toInt_inj.mp h)
  obtain ⟨q, hq, -, -, -, qr, hqr, hrr, -, -⟩ := inverseRound_eq_some.mp hnext
  rw [sub64_eq_some, mul64_eq_some.mp hqr, (div64_eq_some hdivisor).mp hq, mul_comm,
    ← Int.tmod_def] at hrr
  rw [hrr, Int.natAbs_tmod]
  exact Nat.mod_lt _ (Int.natAbs_pos.mpr hdivisor)

def inverseLoop (s : InverseState) : Option InverseState :=
  if _ : s.newR = 0 then some s
  else
    match _ : inverseRound s with
    | none => none
    | some next => inverseLoop next
termination_by s.newR.toInt.natAbs
decreasing_by exact inverseRound_newR ‹_› ‹_›

def rsaInverseU32 (a m : UInt32) : Option UInt32 := do
  let s ← inverseLoop ⟨0, 1, m.toUInt64.toInt64, a.toUInt64.toInt64⟩
  if s.r ≠ 1 then some 0
  else if s.t < 0 then do
    let t ← add64 s.t m.toUInt64.toInt64
    some t.toUInt64.toUInt32
  else some s.t.toUInt64.toUInt32

def InverseState.rows (s : InverseState) : Rows :=
  ⟨s.t.toInt, s.newT.toInt, s.r.toInt, s.newR.toInt⟩

/-- While the rows keep the invariant for a modulus in range, a round has a result. -/
theorem inverseRound_rows (h : Keeps a m s.rows) (hm : m < 2 ^ 63) (hne : s.newR ≠ 0) :
    ∃ next, inverseRound s = some next ∧ next.rows = s.rows.next := by
  have hdivisor : s.rows.newR ≠ 0 := fun hzero => hne (Int64.toInt_inj.mp hzero)
  have hr := Int64.toInt_lt s.r
  have hnewR := Int64.toInt_lt s.newR
  have hpos : 0 < s.rows.r := h.r_pos
  have hnext := h.next hdivisor
  have hlt := h.next_lt hdivisor
  have hremainder : s.rows.next.newR = s.rows.r - s.rows.r / s.rows.newR * s.rows.newR := rfl
  obtain ⟨q, hq⟩ : ∃ q : Int64, q.toInt = s.rows.r / s.rows.newR := by
    apply exists_word
    rw [abs_of_nonneg h.quotient_nonneg]
    exact (Int.ediv_le_self _ hpos.le).trans_lt hr
  obtain ⟨qt, hqt⟩ := exists_word ((h.quotient_mul_newT hdivisor).trans_lt hm)
  obtain ⟨tt, htt⟩ := exists_word (hnext.newT_le.trans_lt hm)
  obtain ⟨qr, hqr⟩ : ∃ qr : Int64, qr.toInt = s.rows.r / s.rows.newR * s.rows.newR := by
    apply exists_word
    rw [abs_of_nonneg (mul_nonneg h.quotient_nonneg h.newR_nonneg)]
    exact (Int.ediv_mul_le _ hdivisor).trans_lt hr
  obtain ⟨rr, hrr⟩ : ∃ rr : Int64, rr.toInt = s.rows.next.newR := by
    apply exists_word
    rw [abs_of_nonneg hnext.newR_nonneg]
    exact hlt.trans hnewR
  refine ⟨⟨s.newT, tt, s.newR, rr⟩, inverseRound_eq_some.mpr ⟨q, ?_, qt, ?_, ?_, qr, ?_, ?_, rfl,
    rfl⟩, ?_⟩
  · rw [div64_eq_some hdivisor, hq]
    exact (Int.tdiv_eq_ediv_of_nonneg hpos.le).symm
  · rw [mul64_eq_some, hqt, hq]
    rfl
  · rw [sub64_eq_some, htt, hqt]
    rfl
  · rw [mul64_eq_some, hqr, hq]
    rfl
  · rw [sub64_eq_some, hrr, hqr]
    rfl
  · exact Rows.ext rfl htt rfl hrr

theorem inverseLoop_keeps (h : Keeps a m s.rows) (hm : m < 2 ^ 63) :
    ∃ last, inverseLoop s = some last ∧ Keeps a m last.rows ∧ last.rows.newR = 0 := by
  induction s using inverseLoop.induct with
  | case1 s hend =>
    rw [inverseLoop, dif_pos hend]
    exact ⟨s, rfl, h, congrArg Int64.toInt hend⟩
  | case2 s hne hround =>
    obtain ⟨next, hnext, -⟩ := inverseRound_rows h hm hne
    exact absurd (hround.symm.trans hnext) (Option.some_ne_none next).symm
  | case3 s hne next hround ih =>
    obtain ⟨found, hfound, hrows⟩ := inverseRound_rows h hm hne
    obtain rfl : next = found := Option.some_inj.mp (hround.symm.trans hfound)
    have hdivisor : s.rows.newR ≠ 0 := fun hzero => hne (Int64.toInt_inj.mp hzero)
    have hloop := ih (hrows ▸ h.next hdivisor)
    rw [inverseLoop, dif_neg hne]
    split
    · next hnone => exact absurd (hround.symm.trans hnone) (Option.some_ne_none next)
    · next other hother =>
      obtain rfl : next = other := Option.some_inj.mp (hround.symm.trans hother)
      exact hloop

/-- The last lines of `rsa_inverse_u32` find the residue of a coefficient below the modulus. -/
theorem coefficient_residue {m : UInt32} {t : Int64}
    (hlow : 0 ≤ residue m.toNat t.toInt) (hhigh : residue m.toNat t.toInt < m.toNat) :
    ∃ x : UInt32, (if t < 0 then do
        let t ← add64 t m.toUInt64.toInt64
        some t.toUInt64.toUInt32
      else some t.toUInt64.toUInt32) = some x ∧ (x.toNat : Int) = residue m.toNat t.toInt := by
  have hm := m.toNat_lt
  by_cases hneg : t < 0
  · have hresidue : residue m.toNat t.toInt = t.toInt + m.toNat :=
      if_pos (Int64.lt_iff_toInt_lt.mp hneg)
    rw [hresidue] at hlow hhigh ⊢
    obtain ⟨sum, hsum⟩ : ∃ sum : Int64, sum.toInt = t.toInt + m.toNat := by
      apply exists_word
      rw [abs_of_nonneg hlow]
      omega
    have hadd : add64 t m.toUInt64.toInt64 = some sum := by
      rw [add64_eq_some, toInt_ofUInt32, hsum]
    rw [if_pos hneg, hadd]
    refine ⟨_, rfl, ?_⟩
    rw [toNat_toUInt32 (hsum ▸ hlow) (by omega), hsum]
  · have hresidue : residue m.toNat t.toInt = t.toInt :=
      if_neg fun h => hneg (Int64.lt_iff_toInt_lt.mpr h)
    rw [hresidue] at hlow hhigh ⊢
    rw [if_neg hneg]
    exact ⟨_, rfl, toNat_toUInt32 hlow (by omega)⟩

theorem inverseLoop_start (a m : UInt32) (hm : 2 ≤ m.toNat) :
    ∃ last, inverseLoop ⟨0, 1, m.toUInt64.toInt64, a.toUInt64.toInt64⟩ = some last ∧
      Keeps a.toNat m.toNat last.rows ∧ last.rows.newR = 0 ∧
      (last.r = 1 ↔ Nat.Coprime a.toNat m.toNat) := by
  have hword := m.toNat_lt
  have hstart : Keeps a.toNat m.toNat
      (InverseState.rows ⟨0, 1, m.toUInt64.toInt64, a.toUInt64.toInt64⟩) := by
    rw [InverseState.rows, toInt_ofUInt32, toInt_ofUInt32]
    exact start_keeps (Int.natCast_nonneg _) (by omega)
  obtain ⟨last, hloop, hlast, hend⟩ := inverseLoop_keeps hstart (by omega)
  have hgcd : last.r.toInt = Nat.gcd m.toNat a.toNat := hlast.r_eq_gcd hend
  refine ⟨last, hloop, hlast, hend, ?_⟩
  rw [Nat.coprime_comm, Nat.Coprime, ← Nat.cast_inj (R := Int), ← hgcd, ← Int64.toInt_inj]
  rfl

theorem rsaInverseU32_coprime (a m : UInt32) (hm : 2 ≤ m.toNat)
    (hcoprime : Nat.Coprime a.toNat m.toNat) :
    ∃ x : UInt32, rsaInverseU32 a m = some x ∧
      1 ≤ x.toNat ∧ x.toNat < m.toNat ∧ x.toNat * a.toNat ≡ 1 [MOD m.toNat] := by
  obtain ⟨last, hloop, hlast, -, hone⟩ := inverseLoop_start a m hm
  have hr : last.rows.r = 1 := congrArg Int64.toInt (hone.mpr hcoprime)
  obtain ⟨hlow, hhigh, hinverse⟩ := hlast.inverse (by omega) hr
  obtain ⟨x, hx, hvalue⟩ := coefficient_residue hlow.le hhigh
  change (0 : Int) < residue m.toNat last.t.toInt at hlow
  change residue m.toNat last.t.toInt < m.toNat at hhigh
  change residue m.toNat last.t.toInt * a.toNat ≡ 1 [ZMOD m.toNat] at hinverse
  rw [← hvalue] at hlow hhigh hinverse
  refine ⟨x, ?_, Int.ofNat_lt.mp hlow, Int.ofNat_lt.mp hhigh, ?_⟩
  · rw [rsaInverseU32, hloop, Option.bind_eq_bind, Option.bind_some,
      if_neg (not_not.mpr (hone.mpr hcoprime))]
    exact hx
  · apply Int.natCast_modEq_iff.mp
    push_cast
    exact hinverse

/-- `rsa_inverse_u32` returns, without an intermediate out of range, the inverse modulo `m` where
there is one and zero elsewhere. -/
theorem rsaInverseU32_inverse (a m : UInt32) (hm : 2 ≤ m.toNat) :
    ∃ x : UInt32, rsaInverseU32 a m = some x ∧
      (Nat.Coprime a.toNat m.toNat →
        1 ≤ x.toNat ∧ x.toNat < m.toNat ∧ x.toNat * a.toNat ≡ 1 [MOD m.toNat]) ∧
      (¬ Nat.Coprime a.toNat m.toNat → x = 0) := by
  by_cases hcoprime : Nat.Coprime a.toNat m.toNat
  · obtain ⟨x, hx, hinverse⟩ := rsaInverseU32_coprime a m hm hcoprime
    exact ⟨x, hx, fun _ => hinverse, absurd hcoprime⟩
  · obtain ⟨last, hloop, -, -, hone⟩ := inverseLoop_start a m hm
    refine ⟨0, ?_, fun h => absurd h hcoprime, fun _ => rfl⟩
    rw [rsaInverseU32, hloop, Option.bind_eq_bind, Option.bind_some, if_pos (hcoprime ∘ hone.mp)]

theorem rsaInverseU32_inverse_three :
    ∃ x : UInt32, rsaInverseU32 3 65537 = some x ∧
      (Nat.Coprime 3 65537 → 1 ≤ x.toNat ∧ x.toNat < 65537 ∧ x.toNat * 3 ≡ 1 [MOD 65537]) ∧
      (¬ Nat.Coprime 3 65537 → x = 0) :=
  rsaInverseU32_inverse 3 65537 (by decide)

end LiberaCrypt.RsaInverse
