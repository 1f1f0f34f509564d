import LiberaCrypt.CallSequence
import LiberaCrypt.CtrDrbgCorrect

namespace LiberaCrypt.CtrDrbgSequence

open LiberaCrypt.CallSequence LiberaCrypt.CtrDrbg LiberaCrypt.CtrDrbgCorrect
open LiberaCrypt.CtrDrbgRefine LiberaCrypt.Def LiberaCrypt.KeystreamXor LiberaCrypt.Outcome

inductive Operation
  | instantiate (alg : LiberaCAlgID) (entropy nonce personalization : InputBytes)
  | instantiateOs (alg : LiberaCAlgID) (personalization : InputBytes)
  | reseed (entropy additional : InputBytes)
  | reseedOs (additional : InputBytes)
  | generate (output additional : InputBytes) (predictionResistance : Bool)
  | clear

/-- An operation with what it gets from outside, on the context or on NULL. -/
structure Call where
  operation : Operation
  environment : Environment
  contextNull : Bool

abbrev DrbgEvent := Event Call Generated LiberaCCtrDrbgContext

variable {κ : Type} (cipher : BlockCipher κ)

def withoutOutput (call : OnContext Unit) (context : LiberaCCtrDrbgContext) :
    Generated × LiberaCCtrDrbgContext := (⟨(call context).1, []⟩, (call context).2)

def perform (environment : Environment) :
    Operation → LiberaCCtrDrbgContext → Generated × LiberaCCtrDrbgContext
  | .instantiate alg entropy nonce personalization => withoutOutput
      (cryptoCtrDrbgInstantiateInternal cipher environment alg entropy nonce personalization)
  | .instantiateOs alg personalization => withoutOutput
      (cryptoCtrDrbgInstantiateOsInternal cipher environment alg personalization)
  | .reseed entropy additional => withoutOutput
      (cryptoCtrDrbgReseedInternal cipher environment entropy additional)
  | .reseedOs additional => withoutOutput
      (cryptoCtrDrbgReseedOsInternal cipher environment additional)
  | .generate output additional predictionResistance =>
      cryptoCtrDrbgGenerateInternal cipher environment output additional predictionResistance
  | .clear => withoutOutput cryptoCtrDrbgClearInternal

def refuse : Operation → Generated
  | .generate output _ _ => ⟨.error .invalidArgument, output.data⟩
  | .clear => ⟨.ok (), []⟩
  | _ => ⟨.error .invalidArgument, []⟩

def issue (call : Call) (context : LiberaCCtrDrbgContext) : Generated × LiberaCCtrDrbgContext :=
  if call.contextNull then (refuse call.operation, context)
  else perform cipher call.environment call.operation context

def Succeeds : Prop :=
  ∀ family key, KeyFits family key.length → ∃ engine, cipher.contextInit family key = .ok engine ∧
    ∀ block, block.length = familyBlock family → ∃ output,
      cipher.encryptBlock family engine block = .ok output ∧ output.length = familyBlock family

variable {cipher}

open Classical in
theorem Succeeds.computes (h : Succeeds cipher) :
    ∃ E : CtrDrbgCipherFamily → List UInt8 → List UInt8 → List UInt8, Computes cipher E := by
  have hblock : ∀ family key block, ∃ output : List UInt8, output.length = familyBlock family ∧
      ∀ engine, KeyFits family key.length → cipher.contextInit family key = .ok engine →
        block.length = familyBlock family →
          cipher.encryptBlock family engine block = .ok output := by
    intro family key block
    by_cases hfits : KeyFits family key.length ∧ block.length = familyBlock family
    · obtain ⟨engine, hinit, hencrypt⟩ := h family key hfits.1
      obtain ⟨output, houtput, hlength⟩ := hencrypt block hfits.2
      refine ⟨output, hlength, fun engine' _ hinit' _ => ?_⟩
      rw [hinit] at hinit'
      cases hinit'
      exact houtput
    · refine ⟨List.replicate (familyBlock family) 0, List.length_replicate, ?_⟩
      exact fun _ hkey _ hlength => absurd ⟨hkey, hlength⟩ hfits
  choose E hlength hencrypt using hblock
  refine ⟨E, ⟨fun family key hkey => ?_, hlength⟩⟩
  obtain ⟨engine, hinit, -⟩ := h family key hkey
  exact ⟨engine, hinit, fun block hblock => hencrypt family key block engine hkey hinit hblock⟩

/-- An instantiated context has the parameters of its algorithm and counts its requests up to
one beyond the reseed interval. -/
def Live (context : LiberaCCtrDrbgContext) : Prop :=
  context.instantiated = true → ∃ p, ctrDrbgContextParameters context = .ok p ∧
    1 ≤ context.reseedCounter ∧ context.reseedCounter ≤ p.reseedInterval + 1

theorem live_of_not {context : LiberaCCtrDrbgContext} (h : context.instantiated = false) :
    Live context := fun htrue => absurd (h.symm.trans htrue) Bool.false_ne_true

def Failed (event : DrbgEvent) : Prop := ∃ e, event.result.status = .error e

def Succeeded (event : DrbgEvent) : Prop := event.result.status = .ok ()

def Unchanged (event : DrbgEvent) : Prop := event.after = event.before

/-- The pointers and the algorithm that an instantiation checks before it clears the context. -/
def ChecksPass (call : Call) (alg : LiberaCAlgID) (entropy nonce personalization : InputBytes) :
    Prop :=
  call.contextNull = false ∧ isNull entropy = false ∧ nonce.missing = false ∧
    personalization.missing = false ∧ ∃ p, ctrDrbgParameters alg = .ok p

def Draws (event : DrbgEvent) (predictionResistance : Bool) : Prop :=
  ∃ p counter, ctrDrbgContextParameters event.before = .ok p ∧
    counter = (if predictionResistance then 1 else event.before.reseedCounter) ∧
    counter ≤ p.reseedInterval ∧ event.after.reseedCounter = counter + 1

def Lawful (event : DrbgEvent) : Prop :=
  match event.call.operation with
  | .instantiate alg entropy nonce personalization => Failed event →
      (ChecksPass event.call alg entropy nonce personalization → event.after.instantiated = false) ∧
      (¬ ChecksPass event.call alg entropy nonce personalization → Unchanged event)
  | .instantiateOs _ _ => Failed event → Unchanged event ∨ event.after.instantiated = false
  | .reseed _ _ | .reseedOs _ => Failed event → Unchanged event
  | .generate output _ predictionResistance =>
      (Failed event → Unchanged event ∧ Untouched output event.result.output) ∧
      (Succeeded event → Draws event predictionResistance)
  | .clear => event.call.contextNull = false → event.after.instantiated = false

section Steps

variable (environment : Environment) (context : LiberaCCtrDrbgContext)
  {E : CtrDrbgCipherFamily → List UInt8 → List UInt8 → List UInt8} (hE : Computes cipher E)

variable {context}

theorem sameUse_live {after : LiberaCCtrDrbgContext} {p : CtrDrbgParameters} {counter : Nat}
    (hcontext : ctrDrbgContextParameters context = .ok p) (hcounter : counter ≤ p.reseedInterval)
    (hsame : SameUse after { context with reseedCounter := counter + 1 }) : Live after := by
  intro _
  have hvalid : ctrDrbgContextParameters after = .ok p := hsame.parameters.trans hcontext
  have hafter : after.reseedCounter = counter + 1 := hsame.reseedCounter
  exact ⟨p, hvalid, by omega, by omega⟩

variable (context)

include hE in
theorem instantiate_step (alg : LiberaCAlgID) (entropy nonce personalization : InputBytes) :
    (∃ e, cryptoCtrDrbgInstantiateInternal cipher environment alg entropy nonce personalization
        context = (.error e, context) ∧
        ¬ ChecksPass ⟨.instantiate alg entropy nonce personalization, environment, false⟩ alg entropy
          nonce personalization) ∨
      (∃ e, cryptoCtrDrbgInstantiateInternal cipher environment alg entropy nonce personalization
        context = (.error e, clearedContext) ∧
        ChecksPass ⟨.instantiate alg entropy nonce personalization, environment, false⟩ alg entropy
          nonce personalization) ∨
      ∃ after, cryptoCtrDrbgInstantiateInternal cipher environment alg entropy nonce
        personalization context = (.ok (), after) ∧ Live after := by
  by_cases hpointers : isNull entropy ∨ nonce.missing ∨ personalization.missing
  · refine .inl ⟨.invalidArgument, if_pos hpointers, ?_⟩
    rintro ⟨-, hentropy, hnonce, hpersonalization, -⟩
    simp [hentropy, hnonce, hpersonalization] at hpointers
  cases halg : ctrDrbgParameters alg with
  | error e =>
    refine .inl ⟨e, ?_, ?_⟩
    · rw [cryptoCtrDrbgInstantiateInternal, if_neg hpointers, halg]
    · rintro ⟨-, -, -, -, p, hp⟩
      rw [halg] at hp
      cases hp
  | ok p =>
    have h := ctrDrbgParameters_sound halg
    rcases instantiate_cases h hE environment halg hpointers with
      ⟨e, herror⟩ | ⟨after, hok, hparameters, -, hstate⟩
    · push Not at hpointers
      refine .inr (.inl ⟨e, herror, rfl, ?_, ?_, ?_, p, halg⟩)
      · exact Bool.eq_false_iff.mpr hpointers.1
      · exact Bool.eq_false_iff.mpr hpointers.2.1
      · exact Bool.eq_false_iff.mpr hpointers.2.2
    · have hone : after.reseedCounter = 1 := congrArg CtrDrbgSpec.State.reseedCounter hstate
      refine .inr (.inr ⟨after, hok, fun _ => ⟨p, hparameters, hone.ge, ?_⟩⟩)
      omega

include hE in
theorem instantiateOs_step (alg : LiberaCAlgID) (personalization : InputBytes) :
    (∃ e, cryptoCtrDrbgInstantiateOsInternal cipher environment alg personalization context =
        (.error e, context)) ∨
      (∃ e, cryptoCtrDrbgInstantiateOsInternal cipher environment alg personalization context =
        (.error e, clearedContext)) ∨
      ∃ after, cryptoCtrDrbgInstantiateOsInternal cipher environment alg personalization context =
        (.ok (), after) ∧ Live after := by
  have hinner : ∀ entropy nonce : InputBytes,
      (∃ e, cryptoCtrDrbgInstantiateInternal cipher environment alg entropy nonce personalization
        context = (.error e, context)) ∨
      (∃ e, cryptoCtrDrbgInstantiateInternal cipher environment alg entropy nonce personalization
        context = (.error e, clearedContext)) ∨
      ∃ after, cryptoCtrDrbgInstantiateInternal cipher environment alg entropy nonce
        personalization context = (.ok (), after) ∧ Live after := by
    intro entropy nonce
    rcases instantiate_step environment context hE alg entropy nonce personalization with
      ⟨e, herror, -⟩ | ⟨e, herror, -⟩ | hok
    · exact .inl ⟨e, herror⟩
    · exact .inr (.inl ⟨e, herror⟩)
    · exact .inr (.inr hok)
  unfold cryptoCtrDrbgInstantiateOsInternal
  split_ifs with hmissing
  · exact .inl ⟨_, rfl⟩
  cases halg : ctrDrbgParameters alg with
  | error e => exact .inl ⟨e, rfl⟩
  | ok p =>
    dsimp only
    cases cryptoRandomBytesInternal environment.entropy (entropyLength p) with
    | error e => exact .inl ⟨e, rfl⟩
    | ok entropy =>
      dsimp only
      split_ifs with hnonce
      · cases cryptoRandomBytesInternal environment.nonce (nonceLength p) with
        | error e => exact .inl ⟨e, rfl⟩
        | ok nonce => exact hinner _ _
      · exact hinner _ _

variable {context}

include hE in
theorem reseed_step (hlive : Live context) (entropy additional : InputBytes) :
    (∃ e, cryptoCtrDrbgReseedInternal cipher environment entropy additional context =
        (.error e, context)) ∨
      ∃ after, cryptoCtrDrbgReseedInternal cipher environment entropy additional context =
        (.ok (), after) ∧ Live after := by
  by_cases hinstantiated : context.instantiated = true
  · obtain ⟨p, hcontext, -⟩ := hlive hinstantiated
    have h := contextParameters_sound hcontext
    rcases reseed_cases h hE environment hcontext entropy additional with
      ⟨e, herror, -⟩ | ⟨after, hok, hsame, -⟩
    · exact .inl ⟨e, herror⟩
    · exact .inr ⟨after, hok, sameUse_live hcontext (Nat.zero_le _) hsame⟩
  · exact .inl ⟨.invalidArgument, if_pos (.inl (Bool.eq_false_iff.mpr hinstantiated))⟩

include hE in
theorem reseedOs_step (hlive : Live context) (additional : InputBytes) :
    (∃ e, cryptoCtrDrbgReseedOsInternal cipher environment additional context =
        (.error e, context)) ∨
      ∃ after, cryptoCtrDrbgReseedOsInternal cipher environment additional context =
        (.ok (), after) ∧ Live after := by
  by_cases hinstantiated : context.instantiated = true
  · obtain ⟨p, hcontext, -⟩ := hlive hinstantiated
    have h := contextParameters_sound hcontext
    rcases reseedOs_cases h hE environment hcontext additional with
      ⟨e, herror, -⟩ | ⟨byte, after, -, hok, hsame, -⟩
    · exact .inl ⟨e, herror⟩
    · exact .inr ⟨after, hok, sameUse_live hcontext (Nat.zero_le _) hsame⟩
  · exact .inl ⟨.invalidArgument, if_pos (.inl (Bool.eq_false_iff.mpr hinstantiated))⟩

include hE in
theorem generate_step (hlive : Live context) (output additional : InputBytes)
    (predictionResistance : Bool) :
    (∃ e buffer, cryptoCtrDrbgGenerateInternal cipher environment output additional
        predictionResistance context = (⟨.error e, buffer⟩, context) ∧ Untouched output buffer) ∨
      ∃ p counter bytes after, cryptoCtrDrbgGenerateInternal cipher environment output additional
          predictionResistance context = (⟨.ok (), bytes⟩, after) ∧ Live after ∧
        ctrDrbgContextParameters context = .ok p ∧
        counter = (if predictionResistance then 1 else context.reseedCounter) ∧
        counter ≤ p.reseedInterval ∧ after.reseedCounter = counter + 1 := by
  by_cases hinstantiated : context.instantiated = true
  · obtain ⟨p, hcontext, -⟩ := hlive hinstantiated
    have h := contextParameters_sound hcontext
    rcases generate_cases h hE environment hcontext output additional predictionResistance with
      ⟨e, buffer, herror, huntouched, -⟩ | ⟨s, given, after, hstart, hcounter, hok, hsame, -⟩
    · exact .inl ⟨e, buffer, herror, huntouched⟩
    · refine .inr ⟨p, s.reseedCounter, _, after, hok, sameUse_live hcontext hcounter hsame, hcontext,
        ?_, hcounter, hsame.reseedCounter⟩
      cases hstart <;> rfl
  · refine .inl ⟨.invalidArgument, output.data, ?_, .inl rfl⟩
    exact if_pos (.inl (Bool.eq_false_iff.mpr hinstantiated))

end Steps

theorem withoutOutput_eq {call : OnContext Unit} {context after : LiberaCCtrDrbgContext}
    {status : Except LiberaCError Unit} (h : call context = (status, after)) :
    withoutOutput call context = (⟨status, []⟩, after) := by
  rw [withoutOutput, h]

/-- The invariant and the law after a call, from what the call returns. -/
theorem step_of_eq {call : Call} {context after : LiberaCCtrDrbgContext} {result : Generated}
    (h : issue cipher call context = (result, after)) (hafter : Live after)
    (hlawful : Lawful ⟨call, context, result, after⟩) :
    Live (issue cipher call context).2 ∧ Lawful (eventOf (issue cipher) call context) := by
  have hevent : eventOf (issue cipher) call context = ⟨call, context, result, after⟩ := by
    rw [eventOf, h]
  rw [hevent, h]
  exact ⟨hafter, hlawful⟩

theorem cleared_live : Live clearedContext := live_of_not rfl

theorem null_step (operation : Operation) (environment : Environment)
    {context : LiberaCCtrDrbgContext} (hlive : Live context) :
    Live (issue cipher ⟨operation, environment, true⟩ context).2 ∧
      Lawful (eventOf (issue cipher) ⟨operation, environment, true⟩ context) := by
  refine step_of_eq rfl hlive ?_
  cases operation with
  | instantiate =>
    refine fun _ => ⟨?_, fun _ => rfl⟩
    rintro ⟨hnull, -⟩
    cases hnull
  | instantiateOs => exact fun _ => .inl rfl
  | reseed => exact fun _ => rfl
  | reseedOs => exact fun _ => rfl
  | generate => exact ⟨fun _ => ⟨rfl, .inl rfl⟩, nofun⟩
  | clear => nofun

variable (hcipher : Succeeds cipher)

include hcipher in
theorem issue_step (call : Call) {context : LiberaCCtrDrbgContext} (hlive : Live context) :
    Live (issue cipher call context).2 ∧ Lawful (eventOf (issue cipher) call context) := by
  obtain ⟨E, hE⟩ := hcipher.computes
  obtain ⟨operation, environment, contextNull⟩ := call
  cases contextNull with
  | true => exact null_step operation environment hlive
  | false =>
    cases operation with
    | instantiate alg entropy nonce personalization =>
      rcases instantiate_step environment context hE alg entropy nonce personalization with
        ⟨e, hrun, hchecks⟩ | ⟨e, hrun, hchecks⟩ | ⟨after, hrun, hafter⟩
      · exact step_of_eq (withoutOutput_eq hrun) hlive fun _ =>
          ⟨fun hpass => absurd hpass hchecks, fun _ => rfl⟩
      · exact step_of_eq (withoutOutput_eq hrun) cleared_live fun _ =>
          ⟨fun _ => rfl, fun hfail => absurd hchecks hfail⟩
      · exact step_of_eq (withoutOutput_eq hrun) hafter nofun
    | instantiateOs alg personalization =>
      rcases instantiateOs_step environment context hE alg personalization with
        ⟨e, hrun⟩ | ⟨e, hrun⟩ | ⟨after, hrun, hafter⟩
      · exact step_of_eq (withoutOutput_eq hrun) hlive fun _ => .inl rfl
      · exact step_of_eq (withoutOutput_eq hrun) cleared_live fun _ => .inr rfl
      · exact step_of_eq (withoutOutput_eq hrun) hafter nofun
    | reseed entropy additional =>
      rcases reseed_step environment hE hlive entropy additional with
        ⟨e, hrun⟩ | ⟨after, hrun, hafter⟩
      · exact step_of_eq (withoutOutput_eq hrun) hlive fun _ => rfl
      · exact step_of_eq (withoutOutput_eq hrun) hafter nofun
    | reseedOs additional =>
      rcases reseedOs_step environment hE hlive additional with ⟨e, hrun⟩ | ⟨after, hrun, hafter⟩
      · exact step_of_eq (withoutOutput_eq hrun) hlive fun _ => rfl
      · exact step_of_eq (withoutOutput_eq hrun) hafter nofun
    | generate output additional predictionResistance =>
      rcases generate_step environment hE hlive output additional predictionResistance with
        ⟨e, buffer, hrun, huntouched⟩ | ⟨p, counter, bytes, after, hrun, hafter, hdraws⟩
      · exact step_of_eq hrun hlive ⟨fun _ => ⟨rfl, huntouched⟩, nofun⟩
      · exact step_of_eq hrun hafter ⟨nofun, fun _ => ⟨p, counter, hdraws⟩⟩
    | clear => exact step_of_eq rfl cleared_live fun _ => rfl

/-- Over every sequence of calls on a context, a failure changes nothing or leaves the context
uninstantiated, and no request draws output beyond the reseed interval. -/
theorem ctr_drbg_call_sequence (hcipher : Succeeds cipher) (calls : List Call)
    {start : LiberaCCtrDrbgContext} (hstart : Live start) :
    ∀ event ∈ run (issue cipher) calls start,
      Live event.before ∧ Live event.after ∧ Lawful event := by
  intro event hevent
  have hstep : ∀ call context, Live context → Live (issue cipher call context).2 :=
    fun call context hlive => (issue_step hcipher call hlive).1
  obtain ⟨hbefore, hafter⟩ := run_invariant hstep hstart hevent
  refine ⟨hbefore, hafter, ?_⟩
  rw [mem_run hevent]
  exact (issue_step hcipher event.call hbefore).2

def maskingCipher : BlockCipher (List UInt8) where
  contextInit := fun _ key => .ok key
  encryptBlock := fun family key block => .ok (inArray (familyBlock family) (xorBytes key block))

theorem maskingCipher_succeeds : Succeeds maskingCipher :=
  fun _ key _ => ⟨key, rfl, fun _ _ => ⟨_, rfl, inArray_length _ _⟩⟩

def poorEnvironment : Environment := ⟨⟨fun _ _ => false, nofun⟩, 0, none, none⟩

def freshRun : List DrbgEvent := run (issue maskingCipher)
  [⟨.instantiate .ctrDrbgAes128NoDf (.bytes (zeros 32)) (.null 0) (.null 0), poorEnvironment, false⟩,
    ⟨.generate (.bytes (zeros 20)) (.null 0) false, poorEnvironment, false⟩,
    ⟨.clear, poorEnvironment, false⟩] clearedContext

def freshRequest : DrbgEvent := freshRun.get ⟨1, by decide⟩

theorem ctr_drbg_call_sequence_fresh :
    Live freshRequest.before ∧ Live freshRequest.after ∧ Lawful freshRequest :=
  ctr_drbg_call_sequence maskingCipher_succeeds _ cleared_live _ (List.get_mem freshRun _)

end LiberaCrypt.CtrDrbgSequence
