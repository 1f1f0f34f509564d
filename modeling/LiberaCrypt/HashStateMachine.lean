import LiberaCrypt.CallSequence
import LiberaCrypt.HashFunction

namespace LiberaCrypt.HashStateMachine

open LiberaCrypt.Outcome LiberaCrypt.Def LiberaCrypt.HashFunction LiberaCrypt.CallSequence

inductive Operation
  | init (alg : LiberaCAlgID)
  | update (input : InputBytes)
  | finalize
  | squeeze (outputNull : Bool) (outputLength : Nat)
  | clear

/-- `onNull` is a call in which `CONTEXT` is NULL. -/
inductive Call
  | on (operation : Operation)
  | onNull (operation : Operation)

def withoutOutput (call : OnContext Unit) : OnContext (List UInt8) := fun context =>
  ((call context).1.map fun _ => [], (call context).2)

def perform : Operation → OnContext (List UInt8)
  | .init alg => withoutOutput (liberacHashInit alg)
  | .update input => withoutOutput (liberacHashUpdate input)
  | .finalize => withoutOutput liberacHashFinalize
  | .squeeze outputNull outputLength => liberacHashSqueeze outputNull outputLength
  | .clear => withoutOutput liberacHashClear

def issue : Call → LiberaCHashContext → Except LiberaCError (List UInt8) × LiberaCHashContext
  | .on operation, context => perform operation context
  | .onNull .clear, context => (.ok [], context)
  | .onNull _, context => (.error .invalidArgument, context)

abbrev HashEvent := Event Call (Except LiberaCError (List UInt8)) LiberaCHashContext

def Accepted (event : HashEvent) : Prop := ∃ output, event.result = .ok output

def Rejected (event : HashEvent) : Prop := ∃ e, event.result = .error e

def Operation.NeedsContext : Operation → Prop
  | .init _ => False
  | .clear => False
  | _ => True

/-- The moves of a context: absorbing, then finalized, then squeezing for as long as is asked, or
consumed at once when the length of the digest is fixed. -/
inductive Moves : Operation → LiberaCHashContext → LiberaCHashContext → Prop
  | update {context : LiberaCHashContext} (input : InputBytes)
      (state : CryptoHashAlgorithmState (hashFamily context.alg)) (h : context.phase = .absorbing) :
      Moves (.update input) context { context with state := state }
  | finalize {context : LiberaCHashContext}
      (state : CryptoHashAlgorithmState (hashFamily context.alg)) (h : context.phase = .absorbing) :
      Moves .finalize context { context with phase := .finalized, state := state }
  | squeeze {context : LiberaCHashContext} (outputNull : Bool) (outputLength : Nat)
      (state : CryptoHashAlgorithmState (hashFamily context.alg)) (hshake : isShake context.alg = true)
      (h : context.phase = .finalized ∨ context.phase = .squeezing) :
      Moves (.squeeze outputNull outputLength) context
        { context with phase := .squeezing, state := state }
  | consume {context : LiberaCHashContext} (outputNull : Bool) (outputLength : Nat)
      (hfixed : isShake context.alg = false) (h : context.phase = .finalized) :
      Moves (.squeeze outputNull outputLength) context
        { context with phase := .consumed, state := zeroState _ }

section Operations

variable {context : LiberaCHashContext} {operation : Operation}

/-- A call is rejected and leaves the context as it was, or makes one of the moves. -/
theorem perform_cases (h : operation.NeedsContext) (context : LiberaCHashContext) :
    (∃ e, perform operation context = (.error e, context)) ∨
      ∃ output after, perform operation context = (.ok output, after) ∧ context.Loads ∧
        Moves operation context after := by
  cases operation with
  | init alg => exact h.elim
  | clear => exact h.elim
  | update input =>
    rw [perform, withoutOutput, liberacHashUpdate]
    split_ifs with hcheck
    · exact .inl ⟨_, rfl⟩
    push Not at hcheck
    cases updateState _ context.state input.data with
    | error e => exact .inl ⟨e, rfl⟩
    | ok state => exact .inr ⟨_, _, rfl, hcheck.2.1, .update input state hcheck.2.2⟩
  | finalize =>
    rw [perform, withoutOutput, liberacHashFinalize]
    split_ifs with hcheck
    · exact .inl ⟨_, rfl⟩
    push Not at hcheck
    cases finalizeState _ context.state with
    | error e => exact .inl ⟨e, rfl⟩
    | ok state => exact .inr ⟨_, _, rfl, hcheck.1, .finalize state hcheck.2⟩
  | squeeze outputNull outputLength =>
    rw [perform, liberacHashSqueeze]
    dsimp only
    split_ifs with hcheck hshake hphase hphase hshort hnull
    all_goals try exact .inl ⟨_, rfl⟩
    · have hloads := not_not.mp (not_or.mp hcheck).2
      refine .inr ⟨_, _, rfl, hloads, .squeeze outputNull outputLength _ hshake ?_⟩
      by_contra hnot
      exact hphase (not_or.mp hnot)
    · have hloads := not_not.mp (not_or.mp hcheck).2
      cases squeezeFixed context.alg (fixedDigestLength context.alg) _ context.state with
      | error e => exact .inl ⟨e, rfl⟩
      | ok output =>
        exact .inr ⟨_, _, rfl, hloads, .consume outputNull outputLength
          (Bool.eq_false_iff.mpr hshake) (not_not.mp hphase)⟩

theorem cleared_not_loads : ¬ clearedContext.Loads := fun h => h.2.1 rfl

theorem init_cases (alg : LiberaCAlgID) (context : LiberaCHashContext) :
    (∃ state, perform (.init alg) context =
      (.ok [], ⟨cryptoHashContextMagic, alg, .absorbing, state⟩)) ∨
    ∃ e, perform (.init alg) context = (.error e, clearedContext) := by
  rw [perform, withoutOutput, liberacHashInit]
  cases initState alg (hashFamily alg) with
  | ok state => exact .inl ⟨state, rfl⟩
  | error e => exact .inr ⟨e, rfl⟩

end Operations

section Sequences

/-- The operation is rejected and the context is as it was, or it makes a move. -/
def RejectedOrMoves (operation : Operation) (event : HashEvent) : Prop :=
  (Rejected event ∧ event.after = event.before) ∨
    (Accepted event ∧ event.before.Loads ∧ Moves operation event.before event.after)

def Lawful (event : HashEvent) : Prop :=
  match event.call with
  | .onNull _ => event.after = event.before
  | .on .clear => event.after = clearedContext
  | .on (.init alg) =>
    (Accepted event ∧ ∃ state, event.after = ⟨cryptoHashContextMagic, alg, .absorbing, state⟩) ∨
      (Rejected event ∧ event.after = clearedContext)
  | .on operation => RejectedOrMoves operation event

theorem rejectedOrMoves {operation : Operation} (h : operation.NeedsContext)
    (context : LiberaCHashContext) :
    RejectedOrMoves operation (eventOf issue (.on operation) context) := by
  rcases perform_cases h context with ⟨e, he⟩ | ⟨output, after, hok, hloads, hmoves⟩
  · exact .inl ⟨⟨e, congrArg Prod.fst he⟩, congrArg Prod.snd he⟩
  · have hafter : (eventOf issue (.on operation) context).after = after := congrArg Prod.snd hok
    exact .inr ⟨⟨output, congrArg Prod.fst hok⟩, hloads, hafter ▸ hmoves⟩

theorem eventOf_lawful (call : Call) (context : LiberaCHashContext) :
    Lawful (eventOf issue call context) := by
  cases call with
  | onNull operation => cases operation <;> rfl
  | on operation =>
    cases operation with
    | clear => rfl
    | init alg =>
      rcases init_cases alg context with ⟨state, hok⟩ | ⟨e, he⟩
      · exact .inl ⟨⟨[], congrArg Prod.fst hok⟩, state, congrArg Prod.snd hok⟩
      · exact .inr ⟨⟨e, congrArg Prod.fst he⟩, congrArg Prod.snd he⟩
    | update input => exact rejectedOrMoves (show (Operation.update input).NeedsContext from trivial) _
    | finalize => exact rejectedOrMoves (show Operation.finalize.NeedsContext from trivial) _
    | squeeze outputNull outputLength =>
      exact rejectedOrMoves
        (show (Operation.squeeze outputNull outputLength).NeedsContext from trivial) _

def Begins (event : HashEvent) : Prop := ∃ alg, event.call = .on (.init alg) ∧ Accepted event

/-- A property of contexts that cannot be lost before the next `INIT`. -/
structure Lasting (Inv : LiberaCHashContext → Prop) : Prop where
  unloaded : ∀ {context : LiberaCHashContext}, ¬ context.Loads → Inv context
  moves : ∀ {operation context after}, context.Loads → Moves operation context after →
    Inv context → Inv after

theorem Lasting.step {Inv : LiberaCHashContext → Prop} (h : Lasting Inv) (call : Call)
    (context : LiberaCHashContext) (hbegins : ¬ Begins (eventOf issue call context))
    (hcontext : Inv context) : Inv (issue call context).2 := by
  have hlawful := eventOf_lawful call context
  cases call with
  | onNull operation =>
    have hafter : (issue (.onNull operation) context).2 = context := hlawful
    rwa [hafter]
  | on operation =>
    have hcleared : Inv clearedContext := h.unloaded cleared_not_loads
    have hkept : RejectedOrMoves operation (eventOf issue (.on operation) context) →
        Inv (issue (.on operation) context).2 := by
      rintro (⟨-, hafter⟩ | ⟨-, hloads, hmoves⟩)
      · have hafter' : (issue (.on operation) context).2 = context := hafter
        rwa [hafter']
      · exact h.moves hloads hmoves hcontext
    cases operation with
    | clear => exact hcleared
    | init alg =>
      rcases hlawful with ⟨haccepted, -⟩ | ⟨-, hafter⟩
      · exact absurd ⟨alg, rfl, haccepted⟩ hbegins
      · have hafter' : (issue (.on (.init alg)) context).2 = clearedContext := hafter
        rwa [hafter']
    | update input => exact hkept hlawful
    | finalize => exact hkept hlawful
    | squeeze outputNull outputLength => exact hkept hlawful

def Sealed (context : LiberaCHashContext) : Prop := context.Loads → context.phase ≠ .absorbing

/-- Nothing but `INIT` and `CLEAR` is accepted any more. -/
def Spent (context : LiberaCHashContext) : Prop := context.Loads → context.phase = .consumed

theorem Moves.not_consumed {operation : Operation} {context after : LiberaCHashContext}
    (h : Moves operation context after) : context.phase ≠ .consumed := by
  cases h with
  | update input state hphase => simp [hphase]
  | finalize state hphase => simp [hphase]
  | squeeze _ _ _ _ hphase => rcases hphase with hphase | hphase <;> simp [hphase]
  | consume _ _ _ hphase => simp [hphase]

theorem Moves.update_absorbing {input : InputBytes} {context after : LiberaCHashContext}
    (h : Moves (.update input) context after) : context.phase = .absorbing := by
  cases h
  assumption

theorem Moves.finalize_phase {context after : LiberaCHashContext}
    (h : Moves .finalize context after) : after.phase = .finalized := by
  cases h
  rfl

theorem Moves.consume_phase {outputNull : Bool} {outputLength : Nat}
    {context after : LiberaCHashContext} (h : Moves (.squeeze outputNull outputLength) context after)
    (hfixed : isShake context.alg = false) : after.phase = .consumed := by
  cases h with
  | squeeze _ _ _ hshake => exact absurd (hfixed.symm.trans hshake) Bool.false_ne_true
  | consume => rfl

theorem lasting_sealed : Lasting Sealed where
  unloaded hloads h := absurd h hloads
  moves hloads hmoves h := by
    cases hmoves with
    | update input state hphase => exact absurd hphase (h hloads)
    | finalize state hphase => exact absurd hphase (h hloads)
    | squeeze => exact fun _ => by simp
    | consume => exact fun _ => by simp

theorem lasting_spent : Lasting Spent where
  unloaded hloads h := absurd h hloads
  moves hloads hmoves h := absurd (h hloads) hmoves.not_consumed

theorem lasting_unloaded : Lasting fun context => ¬ context.Loads where
  unloaded hloads := hloads
  moves hloads _ h := absurd hloads h

theorem RejectedOrMoves.rejected {operation : Operation} {event : HashEvent}
    (h : RejectedOrMoves operation event)
    (hmoves : event.before.Loads → ¬ Moves operation event.before event.after) :
    Rejected event := by
  rcases h with ⟨hrejected, -⟩ | ⟨-, hloads, hmove⟩
  · exact hrejected
  · exact absurd hmove (hmoves hloads)

theorem RejectedOrMoves.moved {operation : Operation} {event : HashEvent}
    (h : RejectedOrMoves operation event) (haccepted : Accepted event) :
    Moves operation event.before event.after := by
  obtain ⟨output, hok⟩ := haccepted
  rcases h with ⟨⟨e, he⟩, -⟩ | ⟨-, -, hmove⟩
  · exact absurd (he.symm.trans hok) (by simp)
  · exact hmove

variable {calls : List Call} {start : LiberaCHashContext}

theorem run_lawful {event : HashEvent} (h : event ∈ run issue calls start) : Lawful event := by
  rw [mem_run h]
  exact eventOf_lawful event.call event.before

theorem run_rejectedOrMoves {event : HashEvent} (h : event ∈ run issue calls start)
    {operation : Operation} (hcall : event.call = .on operation) (hneeds : operation.NeedsContext) :
    RejectedOrMoves operation event := by
  rw [mem_run h, hcall]
  exact rejectedOrMoves hneeds event.before

theorem run_cleared {event : HashEvent} (h : event ∈ run issue calls start)
    (hcall : event.call = .on .clear ∨ (∃ alg, event.call = .on (.init alg) ∧ Rejected event)) :
    event.after = clearedContext := by
  have hlawful := run_lawful h
  rcases hcall with hclear | ⟨alg, hinit, e, he⟩
  · rwa [Lawful, hclear] at hlawful
  · rw [Lawful, hinit] at hlawful
    rcases hlawful with ⟨⟨output, hok⟩, -⟩ | ⟨-, hafter⟩
    · exact absurd (he.symm.trans hok) (by simp)
    · exact hafter

/-- The state machine of a context, over every sequence of calls on it: each call obeys the law, and
between two successful `INIT`s no input follows `FINALIZE`, a digest of fixed length is released at
most once, and nothing is accepted after `CLEAR` or a failed `INIT`. -/
theorem hash_state_machine (calls : List Call) (start : LiberaCHashContext) :
    (∀ event ∈ run issue calls start, Lawful event) ∧
    ∀ (earlier middle rest : List HashEvent) (first last : HashEvent),
      run issue calls start = earlier ++ first :: (middle ++ last :: rest) →
      (∀ event ∈ middle, ¬ Begins event) →
      (first.call = .on .finalize → Accepted first →
        ∀ input, last.call = .on (.update input) → Rejected last) ∧
      (∀ outputNull outputLength, first.call = .on (.squeeze outputNull outputLength) →
        isShake first.before.alg = false → Accepted first →
        ∀ operation, last.call = .on operation → operation.NeedsContext → Rejected last) ∧
      (first.call = .on .clear ∨ (∃ alg, first.call = .on (.init alg) ∧ Rejected first) →
        ∀ operation, last.call = .on operation → operation.NeedsContext → Rejected last) := by
  refine ⟨fun event => run_lawful, fun earlier middle rest first last hrun hmiddle => ?_⟩
  have hfirst : first ∈ run issue calls start := by
    rw [hrun]
    simp
  have hlast : last ∈ run issue calls start := by
    rw [hrun]
    simp
  have hbetween : ∀ {Inv : LiberaCHashContext → Prop}, Lasting Inv → Inv first.after →
      Inv last.before := fun hlasting hafter =>
    run_separated (fun call context => hlasting.step call context) hrun hafter hmiddle
  refine ⟨fun hfinalize haccepted input hupdate => ?_,
    fun outputNull outputLength hsqueeze hfixed haccepted operation hcall hneeds => ?_,
    fun hcleared operation hcall hneeds => ?_⟩
  · have hphase := ((run_rejectedOrMoves hfirst hfinalize trivial).moved haccepted).finalize_phase
    have hsealed : Sealed last.before :=
      hbetween lasting_sealed fun _ => by rw [hphase]; simp
    exact (run_rejectedOrMoves hlast hupdate trivial).rejected fun hloads hmoves =>
      hsealed hloads hmoves.update_absorbing
  · have hphase := ((run_rejectedOrMoves hfirst hsqueeze trivial).moved haccepted).consume_phase hfixed
    have hspent : Spent last.before := hbetween lasting_spent fun _ => hphase
    exact (run_rejectedOrMoves hlast hcall hneeds).rejected fun hloads hmoves =>
      hmoves.not_consumed (hspent hloads)
  · have hafter := run_cleared hfirst hcleared
    have hunloaded : ¬ last.before.Loads := by
      apply hbetween lasting_unloaded
      rw [hafter]
      exact cleared_not_loads
    exact (run_rejectedOrMoves hlast hcall hneeds).rejected fun hloads => absurd hloads hunloaded

end Sequences

end LiberaCrypt.HashStateMachine
