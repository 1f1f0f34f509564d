import LiberaCrypt.Allocation
import LiberaCrypt.ByteMemory

namespace LiberaCrypt.HostMemory

open LiberaCrypt.Outcome LiberaCrypt.Allocation LiberaCrypt.ByteMemory

variable {α β : Type} {room : Nat} {host : Host}

def given (result : Except LiberaCError α) : Fallible α := fun _ k => (result, k)

/-- Failures of `x` are reported as `f` says. -/
def failingAs (f : LiberaCError → LiberaCError) (x : Fallible α) : Fallible α := fun host k =>
  match x host k with
  | (r, k) => (r.mapError f, k)

/-- A result is the one expected, or a failure for want of `room` bytes. -/
def EndsAs (host : Host) (room : Nat) (expected result : Except LiberaCError α) : Prop :=
  result = expected ∨ (∃ e, result = .error e) ∧ ¬ Grants host room

def Conforms (room : Nat) (x : Fallible α) (expected : Except LiberaCError α) : Prop :=
  ∀ host k, EndsAs host room expected (outcome x host k)

section Results

variable {expected result : Except LiberaCError α}

theorem EndsAs.granted (h : EndsAs host room expected result) (hroom : Grants host room) :
    result = expected :=
  h.resolve_right fun hfail => hfail.2 hroom

theorem EndsAs.of_ok {a : α} (h : EndsAs host room expected (.ok a)) : expected = .ok a := by
  rcases h with hok | ⟨⟨e, he⟩, -⟩
  · exact hok.symm
  · cases he

theorem EndsAs.refused {e : LiberaCError} (h : ¬ Grants host room) :
    EndsAs host room expected (.error e) :=
  Or.inr ⟨⟨e, rfl⟩, h⟩

end Results

theorem Conforms.given (result : Except LiberaCError α) : Conforms room (given result) result :=
  fun _ _ => Or.inl rfl

theorem Conforms.throw (e : LiberaCError) : Conforms room (throw e : Fallible α) (.error e) :=
  fun _ _ => Or.inl rfl

/-- After a step whose value is known as far as what follows depends on it. -/
theorem Conforms.after {x : Fallible α} {f : α → Fallible β} {post : α → Prop}
    {expected : Except LiberaCError β} (hx : Ensures room x post)
    (hf : ∀ a, post a → Conforms room (f a) expected) : Conforms room (x >>= f) expected := by
  intro host k
  have h := hx host k
  rw [outcome_bind]
  unfold outcome at h
  rcases hrun : x host k with ⟨e | a, k'⟩
  · rw [hrun] at h
    exact EndsAs.refused h
  · rw [hrun] at h
    exact hf a h host k'

theorem Conforms.bind {x : Fallible α} {f : α → Fallible β} {expected : Except LiberaCError α}
    {g : α → Except LiberaCError β} (hx : Conforms room x expected)
    (hf : ∀ a, expected = .ok a → Conforms room (f a) (g a)) :
    Conforms room (x >>= f) (expected >>= g) := by
  intro host k
  have h := hx host k
  rw [outcome_bind]
  unfold outcome at h
  rcases hrun : x host k with ⟨e | a, k'⟩
  · rw [hrun] at h
    rcases h with rfl | ⟨-, hroom⟩
    · exact Or.inl rfl
    · exact EndsAs.refused hroom
  · rw [hrun] at h
    obtain rfl := h.of_ok
    exact hf a rfl host k'

theorem Conforms.failingAs {x : Fallible α} {expected : Except LiberaCError α}
    (h : Conforms room x expected) (f : LiberaCError → LiberaCError) :
    Conforms room (failingAs f x) (expected.mapError f) := by
  intro host k
  rcases h host k with hrun | ⟨⟨e, he⟩, hroom⟩
  · exact Or.inl (congrArg (Except.mapError f) hrun)
  · exact Or.inr ⟨⟨f e, congrArg (Except.mapError f) he⟩, hroom⟩

/-- The memory, the number of requests, and the length that is reported through a pointer. -/
structure Process where
  memory : Memory
  requests : Nat
  reportedLength : Nat

abbrev OnHost := ReaderT Host (ExceptT LiberaCError (StateM Process))

def inMemory (x : OnMemory α) : OnHost α := fun _ s =>
  match x s.memory with
  | (r, memory) => (r, { s with memory })

def allocating (x : Fallible α) : OnHost α := fun host s =>
  match x host s.requests with
  | (r, requests) => (r, { s with requests })

def changing (f : Process → Process) : OnHost Unit := fun _ s => (.ok (), f s)

/-- A jump to the label `cleanup`, where `clean` runs unless all went well. -/
def cleanup (body : OnHost α) (clean : Process → Process) : OnHost α := fun host s =>
  match body host s with
  | (.ok a, s) => (.ok a, s)
  | (.error e, s) => (.error e, clean s)

section Statements

variable {s : Process}

@[simp] theorem changing_bind (f : Process → Process) (next : Unit → OnHost β) :
    (changing f >>= next) host s = next () host (f s) := rfl

@[simp] theorem inMemory_load_bind (pointer length : Nat) (next : List UInt8 → OnHost β) :
    (inMemory (load pointer length) >>= next) host s =
      next (readBytes s.memory pointer length) host s := rfl

theorem inMemory_compute_ok (next : Unit → OnHost β) :
    (inMemory (compute (.ok ())) >>= next) host s = next () host s := rfl

theorem inMemory_compute_error (e : LiberaCError) (next : Unit → OnHost β) :
    (inMemory (compute (.error e)) >>= next) host s = (.error e, s) := rfl

theorem allocating_bind (x : Fallible α) (next : α → OnHost β) :
    (allocating x >>= next) host s = match x host s.requests with
      | (.ok a, k) => next a host { s with requests := k }
      | (.error e, k) => (.error e, { s with requests := k }) := by
  change (match (allocating x host s) with
    | (r, s) => ExceptT.bindCont (fun a => next a host) r s) = _
  unfold allocating
  rcases x host s.requests with ⟨e | a, k⟩
  · rfl
  · rfl

/-- What follows a computation that conforms sees its result and a later number of requests. -/
theorem conforming_bind {x : Fallible α} {expected : Except LiberaCError α}
    (h : Conforms room x expected) (next : α → OnHost β) (host : Host) (s : Process) :
    ∃ k result, EndsAs host room expected result ∧
      (allocating x >>= next) host s = match result with
        | .ok a => next a host { s with requests := k }
        | .error e => (.error e, { s with requests := k }) := by
  refine ⟨(x host s.requests).2, (x host s.requests).1, h host s.requests, ?_⟩
  rw [allocating_bind]
  rcases x host s.requests with ⟨e | a, k⟩
  · rfl
  · rfl

theorem allocate_bind {bytes : Nat} (status : LiberaCError) (h : bytes ≤ room)
    (next : Unit → OnHost β) (host : Host) (s : Process) :
    ∃ k, (allocating (allocate bytes status) >>= next) host s =
        next () host { s with requests := k } ∨
      (allocating (allocate bytes status) >>= next) host s =
        (.error status, { s with requests := k }) ∧ ¬ Grants host room := by
  refine ⟨s.requests + 1, ?_⟩
  rw [allocating_bind]
  unfold allocate
  by_cases hgrants : host.grants s.requests bytes = true
  · rw [if_pos hgrants]
    exact Or.inl rfl
  · rw [if_neg hgrants]
    exact Or.inr ⟨rfl, fun hroom => hgrants (hroom s.requests bytes h)⟩

theorem cleanup_apply (body : OnHost α) (clean : Process → Process) :
    cleanup body clean host s = match body host s with
      | (.ok a, s) => (.ok a, s)
      | (.error e, s) => (.error e, clean s) := rfl

end Statements

end LiberaCrypt.HostMemory
