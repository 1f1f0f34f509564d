import Mathlib.Tactic

namespace LiberaCrypt.CallSequence

variable {ι ρ σ : Type*}

/-- One call in a sequence: what it returned, and the state before and after it. -/
structure Event (ι ρ σ : Type*) where
  call : ι
  before : σ
  result : ρ
  after : σ

def eventOf (step : ι → σ → ρ × σ) (call : ι) (s : σ) : Event ι ρ σ :=
  ⟨call, s, (step call s).1, (step call s).2⟩

def run (step : ι → σ → ρ × σ) : List ι → σ → List (Event ι ρ σ)
  | [], _ => []
  | call :: calls, s => eventOf step call s :: run step calls (step call s).2

variable {step : ι → σ → ρ × σ} {calls : List ι} {s : σ} {Inv : σ → Prop} {Allowed : Event ι ρ σ → Prop}

theorem run_calls : (run step calls s).map Event.call = calls := by
  induction calls generalizing s with
  | nil => rfl
  | cons call calls ih => rw [run, List.map_cons, ih, eventOf]

theorem mem_run {event : Event ι ρ σ} (h : event ∈ run step calls s) :
    event = eventOf step event.call event.before := by
  induction calls generalizing s with
  | nil => cases h
  | cons call calls ih =>
    rcases List.mem_cons.mp h with rfl | hlater
    · rfl
    · exact ih hlater

/-- An invariant that every call keeps holds before and after each call of a sequence. -/
theorem run_invariant (hstep : ∀ call s, Inv s → Inv (step call s).2) (hs : Inv s)
    {event : Event ι ρ σ} (h : event ∈ run step calls s) : Inv event.before ∧ Inv event.after := by
  induction calls generalizing s with
  | nil => cases h
  | cons call calls ih =>
    rcases List.mem_cons.mp h with rfl | hlater
    · exact ⟨hs, hstep call s hs⟩
    · exact ih (hstep call s hs) hlater

theorem run_after {earlier later : List (Event ι ρ σ)} {event : Event ι ρ σ}
    (h : run step calls s = earlier ++ event :: later) :
    later = run step (later.map Event.call) event.after := by
  induction calls generalizing s earlier with
  | nil => exact absurd h (by simp [run])
  | cons call calls ih =>
    cases earlier with
    | nil =>
      obtain ⟨rfl, rfl⟩ := List.cons.inj h
      rw [run_calls, eventOf]
    | cons first earlier =>
      obtain ⟨rfl, hrest⟩ := List.cons.inj h
      exact ih hrest

/-- An invariant that some calls keep holds before the call that follows any number of them. -/
theorem run_between (hstep : ∀ call s, Allowed (eventOf step call s) → Inv s → Inv (step call s).2)
    {middle rest : List (Event ι ρ σ)} {last : Event ι ρ σ}
    (h : run step calls s = middle ++ last :: rest) (hs : Inv s)
    (hmiddle : ∀ event ∈ middle, Allowed event) : Inv last.before := by
  induction calls generalizing s middle with
  | nil => exact absurd h (by simp [run])
  | cons call calls ih =>
    cases middle with
    | nil =>
      obtain ⟨rfl, -⟩ := List.cons.inj h
      exact hs
    | cons first middle =>
      obtain ⟨rfl, hrest⟩ := List.cons.inj h
      have hfirst := hmiddle _ List.mem_cons_self
      exact ih hrest (hstep call s hfirst hs) fun event he =>
        hmiddle event (List.mem_cons_of_mem _ he)

theorem run_separated (hstep : ∀ call s, Allowed (eventOf step call s) → Inv s → Inv (step call s).2)
    {earlier middle rest : List (Event ι ρ σ)} {first last : Event ι ρ σ}
    (h : run step calls s = earlier ++ first :: (middle ++ last :: rest)) (hs : Inv first.after)
    (hmiddle : ∀ event ∈ middle, Allowed event) : Inv last.before :=
  run_between hstep (run_after h).symm hs hmiddle

end LiberaCrypt.CallSequence
