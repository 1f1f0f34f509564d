import LiberaCrypt.Def

namespace LiberaCrypt.Allocation

open LiberaCrypt.Outcome

def sizeMax : Nat := 2 ^ 64 - 1

/-- What the process asks of its environment: whether its `k`-th request is granted. -/
structure Host where
  grants : Nat → Nat → Bool
  /-- No object is larger than a `size_t` can say. -/
  representable : ∀ {k bytes}, grants k bytes = true → bytes ≤ sizeMax

/-- Every request for at most `room` bytes is granted. -/
def Grants (host : Host) (room : Nat) : Prop :=
  ∀ k bytes, bytes ≤ room → host.grants k bytes = true

theorem Grants.room_le {host : Host} {room : Nat} (h : Grants host room) : room ≤ sizeMax :=
  host.representable (h 0 room (le_refl room))

/-- A function that returns a status and may allocate; the state counts its requests. -/
abbrev Fallible := ReaderT Host (ExceptT LiberaCError (StateM Nat))

variable {α β σ : Type} {room : Nat}

/-- The status or value of a run that starts after `k` requests. -/
def outcome (x : Fallible α) (host : Host) (k : Nat) : Except LiberaCError α := (x host k).1

/-- A request for `bytes` bytes, reported as `status` when it is refused. -/
def allocate (bytes : Nat) (status : LiberaCError) : Fallible Unit :=
  fun host k => (if host.grants k bytes then .ok () else .error status, k + 1)

def recover (x y : Fallible α) : Fallible α := fun host k =>
  match x host k with
  | (.ok a, k') => (.ok a, k')
  | (.error _, k') => y host k'

/-- Any failure of `x` is reported as `status`. -/
def reported (x : Fallible α) (status : LiberaCError) : Fallible α :=
  recover x (throw status)

/-- The loop `for (i = 0; i < n; ++i)` over a body that may fail. -/
def forUp (body : Nat → σ → Fallible σ) : Nat → σ → Fallible σ
  | 0, s => pure s
  | n + 1, s => do body n (← forUp body n s)

/-- The loop `for (i = n; i > 0; --i)`, whose body sees `i - 1`. -/
def forDown (body : Nat → σ → Fallible σ) : Nat → σ → Fallible σ
  | 0, s => pure s
  | n + 1, s => do forDown body n (← body n s)

/-- A value that `x` returns satisfies `post`, and `x` fails only for want of `room` bytes. -/
def Ensures (room : Nat) (x : Fallible α) (post : α → Prop) : Prop :=
  ∀ host k, match outcome x host k with
    | .ok a => post a
    | .error _ => ¬ Grants host room

theorem Ensures.pure {post : α → Prop} {a : α} (h : post a) : Ensures room (pure a) post :=
  fun _ _ => h

theorem Ensures.mono {x : Fallible α} {post weak : α → Prop} (h : Ensures room x post)
    (hpost : ∀ a, post a → weak a) : Ensures room x weak := by
  intro host k
  have hx := h host k
  cases ho : outcome x host k with
  | ok a =>
    rw [ho] at hx
    exact hpost a hx
  | error e =>
    rw [ho] at hx
    exact hx

theorem Ensures.and {x : Fallible α} {post more : α → Prop} (h : Ensures room x post)
    (hmore : Ensures room x more) : Ensures room x fun a => post a ∧ more a := by
  intro host k
  have hx := h host k
  have hy := hmore host k
  cases ho : outcome x host k with
  | ok a =>
    rw [ho] at hx hy
    exact ⟨hx, hy⟩
  | error e =>
    rw [ho] at hx
    exact hx

theorem outcome_bind (x : Fallible α) (f : α → Fallible β) (host : Host) (k : Nat) :
    outcome (x >>= f) host k = match x host k with
      | (.ok a, k') => outcome (f a) host k'
      | (.error e, _) => .error e := by
  change (match x host k with | (r, k') => (ExceptT.bindCont (fun a => f a host) r) k').1 = _
  rcases x host k with ⟨r | r, k'⟩ <;> rfl

theorem Ensures.bind {x : Fallible α} {f : α → Fallible β} {mid : α → Prop} {post : β → Prop}
    (hx : Ensures room x mid) (hf : ∀ a, mid a → Ensures room (f a) post) :
    Ensures room (x >>= f) post := by
  intro host k
  have h := hx host k
  rw [outcome_bind]
  unfold outcome at h
  rcases hrun : x host k with ⟨r | r, k'⟩
  · rw [hrun] at h
    exact h
  · rw [hrun] at h
    exact hf r h host k'

theorem outcome_recover (x y : Fallible α) (host : Host) (k : Nat) :
    outcome (recover x y) host k = match x host k with
      | (.ok a, _) => .ok a
      | (.error _, k') => outcome y host k' := by
  unfold outcome recover
  rcases x host k with ⟨r | r, k'⟩ <;> rfl

theorem Ensures.recover {x y : Fallible α} {post : α → Prop} {need : Nat}
    (hx : Ensures need x post) (hy : Ensures room y post) : Ensures room (recover x y) post := by
  intro host k
  have h := hx host k
  rw [outcome_recover]
  unfold outcome at h
  rcases hrun : x host k with ⟨r | r, k'⟩
  · exact hy host k'
  · rw [hrun] at h
    exact h

theorem Ensures.reported {x : Fallible α} {status : LiberaCError} {post : α → Prop}
    (hx : Ensures room x post) : Ensures room (reported x status) post := by
  intro host k
  have h := hx host k
  unfold Allocation.reported
  rw [outcome_recover]
  unfold outcome at h
  rcases hrun : x host k with ⟨r | r, k'⟩
  all_goals
    rw [hrun] at h
    exact h

theorem Ensures.allocate {bytes : Nat} {status : LiberaCError} (h : bytes ≤ room) :
    Ensures room (allocate bytes status) fun _ => True := by
  intro host k
  by_cases hg : host.grants k bytes = true
  · simp [outcome, Allocation.allocate, hg]
  · simp only [outcome, Allocation.allocate, hg]
    exact fun hroom => hg (hroom k bytes h)

theorem Ensures.guard {c : Prop} [Decidable c] {status : LiberaCError} {x : Fallible α}
    {post : α → Prop} (hc : room ≤ sizeMax → ¬ c) (hx : ¬ c → Ensures room x post) :
    Ensures room (if c then throw status else x) post := by
  by_cases h : c
  · rw [if_pos h]
    exact fun host k hroom => hc hroom.room_le h
  · rw [if_neg h]
    exact hx h

theorem Ensures.forUp {f : Nat → σ → Fallible σ} {I : Nat → σ → Prop} {n : Nat} {s : σ}
    (hs : I 0 s) (hbody : ∀ i s, i < n → I i s → Ensures room (f i s) (I (i + 1))) :
    Ensures room (forUp f n s) (I n) := by
  induction n with
  | zero => exact Ensures.pure hs
  | succ n ih =>
    apply (ih fun i s hi => hbody i s (Nat.lt_succ_of_lt hi)).bind
    intro s' hs'
    exact hbody n s' (Nat.lt_succ_self n) hs'

theorem Ensures.forDown {f : Nat → σ → Fallible σ} {I : Nat → σ → Prop} {n : Nat} {s : σ}
    (hs : I n s) (hbody : ∀ i s, i < n → I (i + 1) s → Ensures room (f i s) (I i)) :
    Ensures room (forDown f n s) (I 0) := by
  induction n generalizing s with
  | zero => exact Ensures.pure hs
  | succ n ih =>
    apply (hbody n s (Nat.lt_succ_self n) hs).bind
    intro s' hs'
    exact ih hs' fun i s hi => hbody i s (Nat.lt_succ_of_lt hi)

theorem Ensures.mapM {γ : Type} {f : α → Fallible β} {P : γ → α → Prop} {Q : γ → β → Prop}
    {cs : List γ} {as : List α} (has : List.Forall₂ P cs as)
    (hf : ∀ c a, P c a → Ensures room (f a) (Q c)) :
    Ensures room (as.mapM f) (List.Forall₂ Q cs) := by
  induction has with
  | nil => exact Ensures.pure List.Forall₂.nil
  | cons hhead _ ih =>
    rw [List.mapM_cons]
    apply (hf _ _ hhead).bind
    intro b hb
    apply ih.bind
    intro bs hbs
    exact Ensures.pure (List.Forall₂.cons hb hbs)

end LiberaCrypt.Allocation
