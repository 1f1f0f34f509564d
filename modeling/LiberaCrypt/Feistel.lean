import LiberaCrypt.CountedLoop

namespace LiberaCrypt.Feistel

open LiberaCrypt.CountedLoop

variable {α : Type*}

/-- One round: the halves change places, and one is mixed with a function of the other. -/
def round (mix : α → α → α) (f : Nat → α → α) (i : Nat) (s : α × α) : α × α :=
  (s.2, mix s.1 (f i s.2))

variable {mix : α → α → α} {f : Nat → α → α}

theorem round_swap_round (hmix : ∀ x y, mix (mix x y) y = x) (i : Nat) (s : α × α) :
    round mix f i (round mix f i s).swap = s.swap := by
  ext
  · simp [round]
  · simp [round, hmix]

theorem down_up (hmix : ∀ x y, mix (mix x y) y = x) (n : Nat) (s : α × α) :
    countDown n (round mix f) (countUp n (round mix f) s).swap = s.swap :=
  countDown_countUp (round_swap_round hmix) n s

theorem up_down (hmix : ∀ x y, mix (mix x y) y = x) (n : Nat) (s : α × α) :
    countUp n (round mix f) (countDown n (round mix f) s).swap = s.swap :=
  countUp_countDown (round_swap_round hmix) n s

end LiberaCrypt.Feistel
