import Mathlib.Logic.Function.Basic
import Mathlib.Tactic

namespace LiberaCrypt.CountedLoop

variable {σ τ : Type*}

/-- The loop `for (i = 0; i < n; ++i) body(i)` over an explicit state. -/
def countUp : Nat → (Nat → σ → σ) → σ → σ
  | 0, _, s => s
  | n + 1, body, s => body n (countUp n body s)

/-- The loop `for (i = n; i > 0; --i) body(i - 1)` over an explicit state. -/
def countDown : Nat → (Nat → σ → σ) → σ → σ
  | 0, _, s => s
  | n + 1, body, s => countDown n body (body n s)

@[simp] theorem countUp_zero (body : Nat → σ → σ) (s : σ) : countUp 0 body s = s := rfl

theorem countUp_succ (n : Nat) (body : Nat → σ → σ) (s : σ) :
    countUp (n + 1) body s = body n (countUp n body s) := rfl

@[simp] theorem countDown_zero (body : Nat → σ → σ) (s : σ) : countDown 0 body s = s := rfl

theorem countDown_succ (n : Nat) (body : Nat → σ → σ) (s : σ) :
    countDown (n + 1) body s = countDown n body (body n s) := rfl

/-- An invariant indexed by the loop counter holds when the loop is left. -/
theorem countUp_invariant (I : Nat → σ → Prop) {n : Nat} {f : Nat → σ → σ} {s : σ}
    (h0 : I 0 s) (hstep : ∀ i < n, ∀ s, I i s → I (i + 1) (f i s)) :
    I n (countUp n f s) := by
  induction n with
  | zero => exact h0
  | succ n ih =>
    exact hstep n (Nat.lt_succ_self n) _ (ih fun i hi => hstep i (Nat.lt_succ_of_lt hi))

theorem countDown_invariant (I : Nat → σ → Prop) {n : Nat} {f : Nat → σ → σ} {s : σ}
    (hn : I n s) (hstep : ∀ i < n, ∀ s, I (i + 1) s → I i (f i s)) :
    I 0 (countDown n f s) := by
  induction n generalizing s with
  | zero => exact hn
  | succ n ih =>
    exact ih (hstep n (Nat.lt_succ_self n) s hn) fun i hi => hstep i (Nat.lt_succ_of_lt hi)

theorem countUp_simulation (R : σ → τ → Prop) {n : Nat}
    {f : Nat → σ → σ} {g : Nat → τ → τ} {s : σ} {t : τ}
    (h0 : R s t) (hstep : ∀ i < n, ∀ s t, R s t → R (f i s) (g i t)) :
    R (countUp n f s) (countUp n g t) := by
  induction n with
  | zero => exact h0
  | succ n ih =>
    exact hstep n (Nat.lt_succ_self n) _ _ (ih fun i hi => hstep i (Nat.lt_succ_of_lt hi))

theorem countUp_succ_left (n : Nat) (f : Nat → σ → σ) (s : σ) :
    countUp (n + 1) f s = countUp n (fun i => f (i + 1)) (f 0 s) := by
  induction n with
  | zero => rfl
  | succ n ih => rw [countUp_succ, ih, countUp_succ]

theorem countUp_reversed (n : Nat) (f : Nat → σ → σ) (s : σ) :
    countUp n (fun i => f (n - 1 - i)) s = countDown n f s := by
  induction n generalizing s with
  | zero => rfl
  | succ n ih =>
    have hshift : (fun i => f (n + 1 - 1 - (i + 1))) = fun i => f (n - 1 - i) := by
      funext i
      congr 1
      omega
    rw [countUp_succ_left, hshift, ih, countDown_succ, Nat.add_sub_cancel, Nat.sub_zero]

/-- A loop down whose bodies undo those of a loop up, seen through a map between the states. -/
theorem countDown_countUp {f : Nat → σ → σ} {g : Nat → τ → τ} {m : σ → τ}
    (h : ∀ i s, g i (m (f i s)) = m s) (n : Nat) (s : σ) :
    countDown n g (m (countUp n f s)) = m s := by
  induction n with
  | zero => rfl
  | succ n ih => rw [countUp_succ, countDown_succ, h n, ih]

theorem countUp_countDown {f : Nat → σ → σ} {g : Nat → τ → τ} {m : σ → τ}
    (h : ∀ i s, g i (m (f i s)) = m s) (n : Nat) (s : σ) :
    countUp n g (m (countDown n f s)) = m s := by
  induction n generalizing s with
  | zero => rfl
  | succ n ih => rw [countUp_succ, countDown_succ, ih, h n]

end LiberaCrypt.CountedLoop

namespace LiberaCrypt.MonadicLoop

open LiberaCrypt.CountedLoop

variable {σ τ : Type} {m : Type → Type} [Monad m]

/-- The loop `for (i = 0; i < n; ++i) body(i)` whose body may have no result. -/
def countUpM : Nat → (Nat → σ → m σ) → σ → m σ
  | 0, _, s => pure s
  | n + 1, body, s => countUpM n body s >>= body n

/-- The loop `for (i = n; i > 0; --i) body(i - 1)` whose body may have no result. -/
def countDownM : Nat → (Nat → σ → m σ) → σ → m σ
  | 0, _, s => pure s
  | n + 1, body, s => body n s >>= countDownM n body

variable [LawfulMonad m]

/-- A loop whose body always has a result is the loop over those results, seen through a map
between the states. -/
theorem countUpM_pure {n : Nat} {f : Nat → σ → m σ} {g : Nat → τ → τ} {e : τ → σ}
    (h : ∀ i < n, ∀ t, f i (e t) = pure (e (g i t))) (t : τ) :
    countUpM n f (e t) = pure (e (countUp n g t)) := by
  induction n with
  | zero => rfl
  | succ n ih =>
    rw [countUpM, ih fun i hi => h i (Nat.lt_succ_of_lt hi), pure_bind, h n (Nat.lt_succ_self n),
      countUp_succ]

theorem countDownM_pure {n : Nat} {f : Nat → σ → m σ} {g : Nat → τ → τ} {e : τ → σ}
    (h : ∀ i < n, ∀ t, f i (e t) = pure (e (g i t))) (t : τ) :
    countDownM n f (e t) = pure (e (countDown n g t)) := by
  induction n generalizing t with
  | zero => rfl
  | succ n ih =>
    rw [countDownM, h n (Nat.lt_succ_self n), pure_bind, ih fun i hi => h i (Nat.lt_succ_of_lt hi),
      countDown_succ]

/-- A loop whose body always has a result that keeps an invariant has one, too. -/
theorem countDownM_invariant (I : Nat → σ → Prop) {n : Nat} {f : Nat → σ → m σ} {s : σ}
    (hn : I n s) (hstep : ∀ i < n, ∀ s, I (i + 1) s → ∃ r, f i s = pure r ∧ I i r) :
    ∃ r, countDownM n f s = pure r ∧ I 0 r := by
  induction n generalizing s with
  | zero => exact ⟨s, rfl, hn⟩
  | succ n ih =>
    obtain ⟨next, hnext, hinvariant⟩ := hstep n (Nat.lt_succ_self n) s hn
    rw [countDownM, hnext, pure_bind]
    exact ih hinvariant fun i hi => hstep i (Nat.lt_succ_of_lt hi)

end LiberaCrypt.MonadicLoop

namespace LiberaCrypt.SteadyAction

open LiberaCrypt.MonadicLoop

variable {σ α β : Type}

/-- From every state in `P` the action has the result `v` and leaves a state in `Q`. -/
def Steady (P Q : σ → Prop) (x : StateT σ Option α) (v : α) : Prop :=
  ∀ s, P s → ∃ t, x s = some (v, t) ∧ Q t

section Steady

variable {P Q R : σ → Prop} {x : StateT σ Option α} {v : α}

theorem Steady.returned (v : α) : Steady P P (pure v) v := fun s hs => ⟨s, rfl, hs⟩

theorem Steady.mono {P' Q' : σ → Prop} (h : Steady P Q x v) (hP : ∀ s, P' s → P s)
    (hQ : ∀ s, Q s → Q' s) : Steady P' Q' x v := by
  intro s hs
  obtain ⟨t, hx, ht⟩ := h s (hP s hs)
  exact ⟨t, hx, hQ t ht⟩

theorem Steady.value {w : α} (h : Steady P Q x v) (hv : v = w) : Steady P Q x w := by
  rwa [← hv]

theorem Steady.bind {f : α → StateT σ Option β} {w : β} (hx : Steady P Q x v)
    (hf : Steady Q R (f v) w) : Steady P R (x >>= f) w := by
  intro s hs
  obtain ⟨t, hrun, ht⟩ := hx s hs
  obtain ⟨u, hnext, hu⟩ := hf t ht
  refine ⟨u, ?_, hu⟩
  change (x s >>= fun r => f r.1 r.2) = _
  rw [hrun]
  exact hnext

theorem Steady.modified {f : σ → σ} (h : ∀ s, P s → Q (f s)) : Steady P Q (modify f) () :=
  fun s hs => ⟨f s, rfl, h s hs⟩

theorem Steady.rounds {P : Nat → σ → Prop} {n : Nat} {body : Nat → α → StateT σ Option α}
    {w : Nat → α} (h : ∀ i < n, Steady (P i) (P (i + 1)) (body i (w i)) (w (i + 1))) :
    Steady (P 0) (P n) (countUpM n body (w 0)) (w n) := by
  induction n with
  | zero => exact Steady.returned _
  | succ n ih =>
    exact (ih fun i hi => h i (Nat.lt_succ_of_lt hi)).bind (h n (Nat.lt_succ_self n))

theorem Steady.appending {n : Nat} {body : Nat → List α → StateT σ Option (List α)}
    {part : Nat → List α} (h : ∀ i < n, ∀ list, Steady P P (body i list) (list ++ part i)) :
    Steady P P (countUpM n body []) ((List.range n).flatMap part) := by
  refine Steady.rounds (P := fun _ => P) (w := fun i => (List.range i).flatMap part)
    fun i hi => ?_
  rw [List.range_succ, List.flatMap_append, List.flatMap_singleton]
  exact h i hi _

end Steady

end LiberaCrypt.SteadyAction
