import Mathlib.Tactic

namespace LiberaCrypt.HighBits

/-- A modulus `2 * gamma * count + 1` cut into `count` windows of width `2 * gamma` around
the multiples of `2 * gamma`; the one residue that is left over belongs to window zero. -/
structure Windows where
  gamma : Int
  count : Int
  gamma_pos : 0 < gamma
  count_pos : 0 < count

namespace Windows

variable (w : Windows)

def modulus : Int := 2 * w.gamma * w.count + 1

def Inside (high low : Int) : Prop :=
  -w.gamma < low ∧ low ≤ w.gamma ∨ high = 0 ∧ low = -w.gamma

/-- `r` lies in window `high` at offset `low`. -/
structure Splits (r high low : Int) : Prop where
  nonneg : 0 ≤ high
  lt : high < w.count
  inside : w.Inside high low
  dvd : w.modulus ∣ r - (2 * w.gamma * high + low)

/-- Says that the offset `low` from window `high` leaves the window. -/
def hint (high low : Int) : Bool :=
  decide (w.gamma < low ∨ low < -w.gamma ∨ low = -w.gamma ∧ high ≠ 0)

/-- The window next to `high`, on the side where `low` lies, when the hint is set. -/
def corrected (h : Bool) (high low : Int) : Int :=
  if h = false then high
  else if 0 < low then if high = w.count - 1 then 0 else high + 1
  else if high = 0 then w.count - 1 else high - 1

variable {w} {r high low high' low' : Int}

theorem hint_false (h : w.hint high low = false) : w.Inside high low := by
  have hout := of_decide_eq_false h
  unfold Inside
  omega

theorem step_le {d : Int} (hd : 1 ≤ d) : 2 * w.gamma ≤ 2 * w.gamma * d :=
  le_mul_of_one_le_right (by linarith [w.gamma_pos]) hd

theorem splits_apart (h : w.Splits r high low) (h' : w.Splits r high' low') : high' ≤ high := by
  by_contra hlt
  have hstep := w.step_le (d := high' - high) (by omega)
  have hspan := mul_le_mul_of_nonneg_left (show high' - high ≤ w.count - 1 by
    linarith [h.nonneg, h'.lt, Int.add_one_le_of_lt h'.lt]) (show 0 ≤ 2 * w.gamma by
    linarith [w.gamma_pos])
  have hdvd := dvd_sub h.dvd h'.dvd
  have hgap : r - (2 * w.gamma * high + low) - (r - (2 * w.gamma * high' + low')) =
      2 * w.gamma * (high' - high) + (low' - low) := by ring
  have hmodulus : w.modulus = 2 * w.gamma * (w.count - 1) + 2 * w.gamma + 1 := by
    unfold modulus
    ring
  have hpos := w.gamma_pos
  have hin := h.inside
  have hin' := h'.inside
  have hnonneg := h.nonneg
  unfold Inside at hin hin'
  rw [hgap] at hdvd
  have hle := Int.le_of_dvd (by omega) hdvd
  omega

theorem splits_unique (h : w.Splits r high low) (h' : w.Splits r high' low') : high = high' :=
  le_antisymm (splits_apart h' h) (splits_apart h h')

theorem splits_low (h : w.Splits r high low) (h' : w.Splits r high' low') : low = low' := by
  have hsame := splits_unique h h'
  subst hsame
  have hdvd := dvd_sub h.dvd h'.dvd
  have hgap : r - (2 * w.gamma * high + low) - (r - (2 * w.gamma * high + low')) = low' - low := by
    ring
  have hpos := w.gamma_pos
  have hstep := w.step_le (d := w.count) w.count_pos
  have hin := h.inside
  have hin' := h'.inside
  unfold Inside at hin hin'
  rw [hgap] at hdvd
  have hzero := Int.eq_zero_of_abs_lt_dvd hdvd (abs_lt.mpr (by unfold modulus; omega))
  omega

theorem splits_up (hdvd : w.modulus ∣ r - (2 * w.gamma * high + low)) (hnonneg : 0 ≤ high)
    (hlt : high < w.count) (hlow : w.gamma < low) (hbound : low < 2 * w.gamma) :
    ∃ h l, w.Splits r h l ∧ l ≤ 0 ∧
      (high = w.count - 1 ∧ h = 0 ∨ high ≠ w.count - 1 ∧ h = high + 1) := by
  have hpos := w.gamma_pos
  by_cases hlast : high = w.count - 1
  · refine ⟨0, low - 2 * w.gamma - 1, ⟨le_rfl, w.count_pos, ?_, ?_⟩, by omega,
      Or.inl ⟨hlast, rfl⟩⟩
    · unfold Inside
      omega
    · have hsum := dvd_add hdvd (dvd_refl w.modulus)
      have heq : r - (2 * w.gamma * 0 + (low - 2 * w.gamma - 1)) =
          r - (2 * w.gamma * high + low) + w.modulus := by
        rw [hlast, modulus]
        ring
      rwa [heq]
  · refine ⟨high + 1, low - 2 * w.gamma, ⟨by omega, by omega, Or.inl (by omega), ?_⟩, by omega,
      Or.inr ⟨hlast, rfl⟩⟩
    convert hdvd using 1
    ring

theorem splits_down (hdvd : w.modulus ∣ r - (2 * w.gamma * high + low)) (hnonneg : 0 ≤ high)
    (hlt : high < w.count) (hlow : low < -w.gamma ∨ low = -w.gamma ∧ high ≠ 0)
    (hbound : -(2 * w.gamma) < low) :
    ∃ h l, w.Splits r h l ∧ 0 < l ∧
      (high = 0 ∧ h = w.count - 1 ∨ high ≠ 0 ∧ h = high - 1) := by
  have hpos := w.gamma_pos
  by_cases hfirst : high = 0
  · refine ⟨w.count - 1, low + 2 * w.gamma + 1, ⟨by omega, by omega, Or.inl (by omega), ?_⟩,
      by omega, Or.inl ⟨hfirst, rfl⟩⟩
    have hsum := dvd_sub hdvd (dvd_refl w.modulus)
    have heq : r - (2 * w.gamma * (w.count - 1) + (low + 2 * w.gamma + 1)) =
        r - (2 * w.gamma * high + low) - w.modulus := by
      rw [hfirst, modulus]
      ring
    rwa [heq]
  · refine ⟨high - 1, low + 2 * w.gamma, ⟨by omega, by omega, Or.inl (by omega), ?_⟩, by omega,
      Or.inr ⟨hfirst, rfl⟩⟩
    convert hdvd using 1
    ring

/-- The hint recovers the window `high` from a residue that an offset below a whole window
width moved away from it. -/
theorem corrected_hint (h : w.Splits r high low)
    (hdvd : w.modulus ∣ r - (2 * w.gamma * high' + low')) (hnonneg : 0 ≤ high')
    (hlt : high' < w.count) (hbound : |low'| < 2 * w.gamma) :
    w.corrected (w.hint high' low') high low = high' := by
  obtain ⟨hmin, hmax⟩ := abs_lt.mp hbound
  cases hh : w.hint high' low' with
  | false => exact splits_unique h ⟨hnonneg, hlt, hint_false hh, hdvd⟩
  | true =>
    have hout := of_decide_eq_true hh
    rcases hout with hup | hdown
    · obtain ⟨a, b, hs, hb, hnext⟩ := splits_up hdvd hnonneg hlt hup hmax
      rw [splits_unique h hs, splits_low h hs, corrected, if_neg (by simp), if_neg (by omega)]
      split <;> omega
    · obtain ⟨a, b, hs, hb, hnext⟩ := splits_down hdvd hnonneg hlt hdown hmin
      rw [splits_unique h hs, splits_low h hs, corrected, if_neg (by simp), if_pos hb]
      split <;> omega

end Windows

end LiberaCrypt.HighBits
