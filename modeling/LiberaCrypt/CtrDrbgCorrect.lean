import LiberaCrypt.Cmac
import LiberaCrypt.CtrDrbgRefine

namespace LiberaCrypt.CtrDrbgCorrect

open LiberaCrypt.AesAead LiberaCrypt.Allocation LiberaCrypt.BigEndian LiberaCrypt.Cmac
open LiberaCrypt.CtrDrbg LiberaCrypt.CtrDrbgRefine LiberaCrypt.CtrDrbgSpec LiberaCrypt.Def
open LiberaCrypt.Endian LiberaCrypt.FillLoop LiberaCrypt.KeystreamXor LiberaCrypt.Outcome

variable {κ : Type} {cipher : BlockCipher κ}
  {E : CtrDrbgCipherFamily → List UInt8 → List UInt8 → List UInt8} {p : CtrDrbgParameters}
  (h : Sound p) (hE : Computes cipher E)

section Seeds

theorem update_take (c : Cipher) (data : List UInt8) (s : State) :
    c.update (data.take c.seedLength) s = c.update data s := by
  have hread := xorBytes_take (c.output s.key s.v c.seedLength) data
  rw [Cipher.output_length] at hread
  rw [Cipher.update, hread, Cipher.update]

theorem xorOver_eq {seed data : List UInt8} (hdata : data.length ≤ seed.length) :
    xorOver seed data = xorBytes seed (data ++ List.replicate (seed.length - data.length) 0) := by
  have hfirst : (seed.take data.length).length = data.length := by simp [hdata]
  have hrest : seed.length - data.length = (seed.drop data.length).length := by simp
  nth_rewrite 2 [← List.take_append_drop data.length seed]
  rw [xorOver, xorBytes_append hfirst, hrest, xorBytes_zeros]

variable {context : LiberaCCtrDrbgContext} {environment : Environment}

theorem xorOver_seed {entropy other : List UInt8} (nonce : List UInt8)
    (hentropy : entropy.length = p.seedLength) (hother : other.length ≤ p.seedLength) :
    xorOver entropy other = (blockCipherOf h hE).seed false entropy nonce other := by
  rw [xorOver_eq (hother.trans hentropy.ge), hentropy]
  rfl

theorem instantiateSeed_right (hcontext : ctrDrbgContextParameters context = .ok p)
    {entropy nonce personalization seed : List UInt8}
    (hseed : instantiateSeed cipher environment p context entropy nonce personalization = .ok seed) :
    seed = (blockCipherOf h hE).seed p.useDf entropy nonce personalization ∧
      seed.length = p.seedLength := by
  unfold instantiateSeed at hseed
  dsimp only at hseed
  cases huse : p.useDf with
  | true =>
    rw [huse, if_pos rfl] at hseed
    split_ifs at hseed
    have hright := makeDfSeed_right h hE hcontext hseed
    exact ⟨hright, hright ▸ Cipher.df_length _ _⟩
  | false =>
    rw [huse, if_neg (by simp)] at hseed
    split_ifs at hseed with hlengths
    push Not at hlengths
    have hright := xorOver_seed h hE nonce hlengths.1 hlengths.2.2
    cases hseed
    exact ⟨hright, hright ▸ Cipher.seed_length nonce fun _ => ⟨hlengths.1, hlengths.2.2⟩⟩

theorem reseedSeed_right (hcontext : ctrDrbgContextParameters context = .ok p)
    {entropy additional seed : List UInt8}
    (hseed : reseedSeed cipher environment p context entropy additional = .ok seed) :
    seed = (blockCipherOf h hE).seed p.useDf entropy [] additional ∧ seed.length = p.seedLength := by
  unfold reseedSeed at hseed
  cases huse : p.useDf with
  | true =>
    rw [huse, if_pos rfl] at hseed
    split_ifs at hseed
    have hright := makeDfSeed_right h hE hcontext hseed
    refine ⟨?_, hright ▸ Cipher.df_length _ _⟩
    rw [hright, Cipher.seed, if_pos rfl, List.append_nil, List.append_nil]
    rfl
  | false =>
    rw [huse, if_neg (by simp)] at hseed
    split_ifs at hseed with hlengths
    push Not at hlengths
    have hright := xorOver_seed h hE [] hlengths.1 hlengths.2
    cases hseed
    exact ⟨hright, hright ▸ Cipher.seed_length [] fun _ => hlengths⟩

/-- The additional input as it is mixed in; the array is longer than the seed. -/
theorem prepareAdditional_right {host : Host} {k : Nat}
    (hcontext : ctrDrbgContextParameters context = .ok p) {additional : InputBytes}
    {provided : List UInt8}
    (hprovided : prepareAdditional cipher host k context additional = .ok provided) :
    p.seedLength ≤ provided.length ∧
      provided.take p.seedLength = (blockCipherOf h hE).providedData p.useDf additional.data := by
  have hlengths := h.lengths
  have hseed : p.seedLength = p.keyLength + p.blockLength := rfl
  have hseedOf : (blockCipherOf h hE).seedLength = p.seedLength := rfl
  unfold prepareAdditional at hprovided
  rw [hcontext] at hprovided
  dsimp only at hprovided
  rw [Cipher.providedData, hseedOf]
  split_ifs at hprovided with hmissing hempty huse hlong
  · cases hprovided
    rw [if_pos (List.length_eq_zero_iff.mp hempty), zeros, List.length_replicate,
      List.take_replicate]
    refine ⟨by omega, ?_⟩
    congr 1
    omega
  · have hright := makeDfSeed_right h hE hcontext hprovided
    rw [List.append_nil, List.append_nil] at hright
    have hlength : provided.length = p.seedLength := hright ▸ Cipher.df_length _ _
    refine ⟨hlength.ge, ?_⟩
    rw [List.take_of_length_le hlength.le, if_neg (mt List.length_eq_zero_iff.mpr hempty),
      Cipher.seedMaterial, if_pos huse]
    exact hright
  · cases hprovided
    have hcut : (zeros 48).take (p.seedLength - additional.data.length) =
        List.replicate (p.seedLength - additional.data.length) 0 := by
      rw [zeros, List.take_replicate]
      congr 1
      omega
    rw [inArray_length, inArray, List.take_take, List.take_append,
      List.take_of_length_le (by omega : additional.data.length ≤ min p.seedLength 48),
      if_neg (mt List.length_eq_zero_iff.mpr hempty), Cipher.seedMaterial, if_neg huse, hseedOf,
      Nat.min_eq_left (by omega), hcut]
    exact ⟨by omega, rfl⟩

end Seeds

section Calls

theorem stateOf_counted (context : LiberaCCtrDrbgContext) (i : Nat) :
    SameUse (counted context p.blockLength i) context ∧
      stateOf p (counted context p.blockLength i) = { stateOf p context with
        v := (blockCipherOf h hE).counterBlock (stateOf p context).v i } := by
  have hlengths := h.lengths
  refine ⟨⟨rfl, rfl, rfl, rfl, rfl⟩, ?_⟩
  rw [stateOf, counted_take (by omega)]
  rfl

variable {context : LiberaCCtrDrbgContext} (environment : Environment)

/-- A request fails where its additional input cannot be prepared, and nothing has changed then. Else
it is the request of the specification. -/
theorem generateBytes_cases (hcontext : ctrDrbgContextParameters context = .ok p) (length : Nat)
    (additional : InputBytes) :
    (∃ e, prepareAdditional cipher environment.host environment.requests context additional =
        .error e ∧
        generateBytes cipher environment p length additional context = (.error e, context)) ∨
      ∃ after, generateBytes cipher environment p length additional context =
          (.ok ((blockCipherOf h hE).generate p.useDf additional.data length
            (stateOf p context)).1, after) ∧
        SameUse after { context with reseedCounter := context.reseedCounter + 1 } ∧
        stateOf p after = ((blockCipherOf h hE).generate p.useDf additional.data length
          (stateOf p context)).2 := by
  have hlengths := h.lengths
  unfold generateBytes
  cases hprepared : prepareAdditional cipher environment.host environment.requests context
    additional with
  | error e => exact .inl ⟨e, rfl, rfl⟩
  | ok provided =>
    right
    obtain ⟨hlength, hprovided⟩ := prepareAdditional_right h hE hcontext hprepared
    have hupdate : ∀ s, (blockCipherOf h hE).update provided s =
        (blockCipherOf h hE).update ((blockCipherOf h hE).providedData p.useDf additional.data) s := by
      intro s
      rw [← hprovided]
      exact (update_take _ _ _).symm
    obtain ⟨mixed, hmixed, hsame, hstate⟩ : ∃ mixed,
        (if additional.data.length ≠ 0 then ctrDrbgUpdate cipher (some provided) context
          else (.ok (), context)) = (.ok (), mixed) ∧ SameUse mixed context ∧
        stateOf p mixed =
          (blockCipherOf h hE).mixed p.useDf additional.data (stateOf p context) := by
      by_cases hempty : additional.data.length = 0
      · rw [if_neg (not_not.mpr hempty), Cipher.mixed, if_pos (List.length_eq_zero_iff.mp hempty)]
        exact ⟨context, rfl, ⟨rfl, rfl, rfl, rfl, rfl⟩, rfl⟩
      · rw [if_pos hempty, Cipher.mixed, if_neg (mt List.length_eq_zero_iff.mpr hempty), ← hupdate]
        exact ctrDrbgUpdate_ok h hE hcontext hlength
    have hkey : p.keyLength ≤ mixed.key.length := by
      rw [mixed.key_size]
      omega
    obtain ⟨block, hblock, hencrypt⟩ := ctrBlockContextInit_ok h hE hkey
    have hdrawn := drawn h hE hencrypt mixed length
    have hcounted := stateOf_counted h hE mixed (blockCount p.blockLength length)
    generalize counted mixed p.blockLength (blockCount p.blockLength length) = later at hdrawn hcounted
    obtain ⟨hlater, hlaterstate⟩ := hcounted
    have hvalid : ctrDrbgContextParameters later = .ok p :=
      hlater.parameters.trans (hsame.parameters.trans hcontext)
    obtain ⟨after, hafter, hkept, hnext⟩ := ctrDrbgUpdate_ok h hE hvalid hlength
    dsimp only
    rw [hmixed]
    dsimp only
    rw [hblock]
    dsimp only
    rw [hdrawn]
    dsimp only
    rw [hafter]
    have hall := hkept.trans (hlater.trans hsame)
    refine ⟨{ after with reseedCounter := after.reseedCounter + 1 }, ?_, ?_, ?_⟩
    · rw [Cipher.generate, ← hstate]
      rfl
    · exact ⟨hall.alg, hall.keyLength, hall.useDf, hall.instantiated,
        congrArg (· + 1) hall.reseedCounter⟩
    · have hcounter : (stateOf p mixed).reseedCounter = after.reseedCounter :=
        (hkept.trans hlater).reseedCounter.symm
      rw [Cipher.generate, ← hstate]
      dsimp only
      rw [hcounter, ← hupdate]
      rw [hlaterstate] at hnext
      exact congrArg (fun s : State => { s with reseedCounter := after.reseedCounter + 1 }) hnext

/-- A reseeding fails and changes nothing, or it is the reseeding of the specification. -/
theorem reseed_cases (hcontext : ctrDrbgContextParameters context = .ok p)
    (entropy additional : InputBytes) :
    (∃ e, cryptoCtrDrbgReseedInternal cipher environment entropy additional context =
        (.error e, context) ∧ ¬ (context.instantiated = true ∧ isNull entropy = false ∧
          additional.missing = false ∧ ∃ seed,
            reseedSeed cipher environment p context entropy.data additional.data = .ok seed)) ∨
      ∃ after, cryptoCtrDrbgReseedInternal cipher environment entropy additional context =
          (.ok (), after) ∧
        SameUse after { context with reseedCounter := 1 } ∧
        stateOf p after = (blockCipherOf h hE).reseed p.useDf entropy.data additional.data
          (stateOf p context) := by
  unfold cryptoCtrDrbgReseedInternal
  rw [hcontext]
  dsimp only
  split_ifs with hargument
  · refine .inl ⟨_, rfl, ?_⟩
    rintro ⟨hinstantiated, hnull, hmissing, -⟩
    simp [hinstantiated, hnull, hmissing] at hargument
  cases hseed : reseedSeed cipher environment p context entropy.data additional.data with
  | error e =>
    refine .inl ⟨e, rfl, ?_⟩
    rintro ⟨-, -, -, seed, hok⟩
    cases hok
  | ok seed =>
    obtain ⟨hright, hlength⟩ := reseedSeed_right h hE hcontext hseed
    obtain ⟨after, hafter, hkept, hstate⟩ := ctrDrbgUpdate_ok h hE hcontext hlength.ge
    dsimp only
    rw [hafter]
    refine .inr ⟨_, rfl, ⟨hkept.alg, hkept.keyLength, hkept.useDf, hkept.instantiated, rfl⟩, ?_⟩
    rw [Cipher.reseed, ← hright, ← hstate]
    rfl

def osEntropy (p : CtrDrbgParameters) (byte : Nat → UInt8) : List UInt8 :=
  (List.range (entropyLength p)).map byte

theorem reseedOs_cases (hcontext : ctrDrbgContextParameters context = .ok p)
    (additional : InputBytes) :
    (∃ e, cryptoCtrDrbgReseedOsInternal cipher environment additional context =
        (.error e, context) ∧ ¬ (context.instantiated = true ∧ additional.missing = false ∧
          ∃ byte seed, environment.entropy = some byte ∧
            reseedSeed cipher environment p context (osEntropy p byte) additional.data =
              .ok seed)) ∨
      ∃ byte after, environment.entropy = some byte ∧
        cryptoCtrDrbgReseedOsInternal cipher environment additional context = (.ok (), after) ∧
        SameUse after { context with reseedCounter := 1 } ∧
        stateOf p after = (blockCipherOf h hE).reseed p.useDf (osEntropy p byte) additional.data
          (stateOf p context) := by
  unfold cryptoCtrDrbgReseedOsInternal
  rw [hcontext]
  dsimp only
  split_ifs with hargument
  · refine .inl ⟨_, rfl, ?_⟩
    rintro ⟨hinstantiated, hmissing, -⟩
    simp [hinstantiated, hmissing] at hargument
  cases hsource : environment.entropy with
  | none =>
    refine .inl ⟨_, rfl, ?_⟩
    rintro ⟨-, -, byte, seed, hsome, -⟩
    cases hsome
  | some byte =>
    have hreseed := reseed_cases h hE environment hcontext (.bytes (osEntropy p byte)) additional
    rcases hreseed with ⟨e, herror, hreason⟩ | ⟨after, hafter⟩
    · refine .inl ⟨e, herror, ?_⟩
      rintro ⟨hinstantiated, hmissing, byte', seed, hsome, hseed⟩
      cases hsome
      exact hreason ⟨hinstantiated, rfl, hmissing, seed, hseed⟩
    · exact .inr ⟨byte, after, rfl, hafter⟩

/-- The state and the additional input that a request starts from. With prediction resistance the
generator is reseeded first, and the additional input is used up. -/
inductive Starts (c : Cipher) (p : CtrDrbgParameters) (s : State) (additional : List UInt8) :
    Bool → State → List UInt8 → Prop
  | plain : Starts c p s additional false s additional
  | fresh (byte : Nat → UInt8) (hsource : environment.entropy = some byte) :
    Starts c p s additional true (c.reseed p.useDf (osEntropy p byte) additional s) []

def Untouched (output : InputBytes) (buffer : List UInt8) : Prop :=
  buffer = output.data ∨ buffer = zeros output.data.length

structure Accepted (p : CtrDrbgParameters) (environment : Environment)
    (context : LiberaCCtrDrbgContext) (output additional : InputBytes)
    (predictionResistance : Bool) : Prop where
  instantiated : context.instantiated = true
  outputGiven : output.missing = false
  additionalGiven : additional.missing = false
  request : output.data.length ≤ p.maxRequestBytes
  counter : predictionResistance = false → context.reseedCounter ≤ p.reseedInterval
  entropy : predictionResistance = true → ∃ byte, environment.entropy = some byte
  derived : p.useDf = true →
    (if predictionResistance then p.securityBytes else 0) + additional.data.length < 2 ^ 32
  padded : p.useDf = false → additional.data.length ≤ p.seedLength
  memory : Grants environment.host (2 ^ 32 + 32)

include h hE in
theorem prepareAdditional_succeeds {host : Host} {k : Nat}
    (hcontext : ctrDrbgContextParameters context = .ok p) {additional : InputBytes}
    (hmissing : additional.missing = false)
    (hderived : p.useDf = true → additional.data.length < 2 ^ 32)
    (hpadded : p.useDf = false → additional.data.length ≤ p.seedLength)
    (hgrants : Grants host (2 ^ 32 + 32)) :
    ∃ provided, prepareAdditional cipher host k context additional = .ok provided := by
  unfold prepareAdditional
  rw [hcontext, if_neg (by rw [hmissing]; simp)]
  dsimp only
  split_ifs with hempty huse hlong
  · exact ⟨_, rfl⟩
  · exact makeDfSeed_succeeds h hE hcontext (hderived huse) hgrants
  · exact absurd (hpadded (Bool.eq_false_iff.mpr huse)) (not_le.mpr hlong)
  · exact ⟨_, rfl⟩

include h hE in
theorem reseedSeed_succeeds (hcontext : ctrDrbgContextParameters context = .ok p)
    (byte : Nat → UInt8) {additional : List UInt8}
    (hderived : p.useDf = true → p.securityBytes + additional.length < 2 ^ 32)
    (hpadded : p.useDf = false → additional.length ≤ p.seedLength)
    (hgrants : Grants environment.host (2 ^ 32 + 32)) :
    ∃ seed, reseedSeed cipher environment p context (osEntropy p byte) additional = .ok seed := by
  have hlength : (osEntropy p byte).length = entropyLength p := by simp [osEntropy]
  unfold reseedSeed
  rw [hlength, entropyLength]
  cases huse : p.useDf with
  | true =>
    rw [if_pos rfl, if_pos rfl, if_neg (lt_irrefl _)]
    apply makeDfSeed_succeeds h hE hcontext _ hgrants
    rw [hlength, entropyLength, huse]
    exact hderived huse
  | false =>
    have hfits := hpadded huse
    simp only [Bool.false_eq_true, if_false]
    rw [if_neg (by omega)]
    exact ⟨_, rfl⟩

theorem generateFrom_cases (hcontext : ctrDrbgContextParameters context = .ok p)
    (output additional : InputBytes) :
    (∃ e buffer, generateFrom cipher environment p output additional context =
        (⟨.error e, buffer⟩, context) ∧ Untouched output buffer ∧
        ¬ (context.reseedCounter ≤ p.reseedInterval ∧ ∃ provided, prepareAdditional cipher
          environment.host environment.requests context additional = .ok provided)) ∨
      ∃ after, context.reseedCounter ≤ p.reseedInterval ∧
        generateFrom cipher environment p output additional context =
          (⟨.ok (), ((blockCipherOf h hE).generate p.useDf additional.data output.data.length
            (stateOf p context)).1⟩, after) ∧
        SameUse after { context with reseedCounter := context.reseedCounter + 1 } ∧
        stateOf p after = ((blockCipherOf h hE).generate p.useDf additional.data output.data.length
          (stateOf p context)).2 := by
  unfold generateFrom
  by_cases hcounter : context.reseedCounter > p.reseedInterval
  · rw [if_pos hcounter]
    refine .inl ⟨_, _, rfl, .inl rfl, ?_⟩
    rintro ⟨hle, -⟩
    omega
  rw [if_neg hcounter]
  rcases generateBytes_cases h hE environment hcontext output.data.length additional with
    ⟨e, hprepare, herror⟩ | ⟨after, hafter, hrest⟩
  · rw [herror]
    refine .inl ⟨_, _, rfl, .inr rfl, ?_⟩
    rintro ⟨-, provided, hok⟩
    rw [hok] at hprepare
    cases hprepare
  · rw [hafter]
    exact .inr ⟨after, not_lt.mp hcounter, rfl, hrest⟩

/-- A request fails, changes nothing and gives nothing out, or it is a request of the specification
that the reseed interval allows. -/
theorem generate_cases (hcontext : ctrDrbgContextParameters context = .ok p)
    (output additional : InputBytes) (predictionResistance : Bool) :
    (∃ e buffer, cryptoCtrDrbgGenerateInternal cipher environment output additional
        predictionResistance context = (⟨.error e, buffer⟩, context) ∧ Untouched output buffer ∧
        ¬ Accepted p environment context output additional predictionResistance) ∨
      ∃ s given after, Starts environment (blockCipherOf h hE) p (stateOf p context) additional.data
          predictionResistance s given ∧ s.reseedCounter ≤ p.reseedInterval ∧
        cryptoCtrDrbgGenerateInternal cipher environment output additional predictionResistance
          context = (⟨.ok (), ((blockCipherOf h hE).generate p.useDf given output.data.length s).1⟩,
            after) ∧
        SameUse after { context with reseedCounter := s.reseedCounter + 1 } ∧
        stateOf p after = ((blockCipherOf h hE).generate p.useDf given output.data.length s).2 := by
  unfold cryptoCtrDrbgGenerateInternal
  rw [hcontext]
  dsimp only
  split_ifs with hargument hlong hfresh
  · refine .inl ⟨_, _, rfl, .inl rfl, ?_⟩
    intro haccepted
    simp [haccepted.instantiated, haccepted.outputGiven, haccepted.additionalGiven] at hargument
  · refine .inl ⟨_, _, rfl, .inl rfl, ?_⟩
    intro haccepted
    have hrequest := haccepted.request
    omega
  · subst hfresh
    rcases reseedOs_cases h hE environment hcontext additional with
      ⟨e, herror, hreason⟩ | ⟨byte, reseeded, hsource, hreseed, hsame, hstate⟩
    · rw [herror]
      refine .inl ⟨_, _, rfl, .inl rfl, ?_⟩
      intro haccepted
      obtain ⟨byte, hsource⟩ := haccepted.entropy rfl
      obtain ⟨seed, hseed⟩ := reseedSeed_succeeds h hE environment hcontext byte haccepted.derived
        haccepted.padded haccepted.memory
      exact hreason ⟨haccepted.instantiated, haccepted.additionalGiven, byte, seed, hsource, hseed⟩
    · rw [hreseed]
      have hvalid : ctrDrbgContextParameters reseeded = .ok p := hsame.parameters.trans hcontext
      have hone : reseeded.reseedCounter = 1 := hsame.reseedCounter
      rcases generateFrom_cases h hE environment hvalid output (.null 0) with
        ⟨_, _, _, _, hreason⟩ | ⟨after, hcounter, hafter, hkept, hnext⟩
      · have hprepared : prepareAdditional cipher environment.host environment.requests reseeded
            (.null 0) = .ok (zeros 48) := by
          rw [prepareAdditional, hvalid]
          rfl
        have hinterval := h.interval
        exact absurd ⟨by omega, _, hprepared⟩ hreason
      · rw [hstate] at hafter hnext
        refine .inr ⟨_, _, after, .fresh byte hsource, h.interval, hafter, ?_, hnext⟩
        exact ⟨hkept.alg.trans hsame.alg, hkept.keyLength.trans hsame.keyLength,
          hkept.useDf.trans hsame.useDf, hkept.instantiated.trans hsame.instantiated,
          hkept.reseedCounter.trans (congrArg (· + 1) hone)⟩
  · have hplain : predictionResistance = false := Bool.eq_false_iff.mpr hfresh
    subst hplain
    rcases generateFrom_cases h hE environment hcontext output additional with
      ⟨e, buffer, herror, huntouched, hreason⟩ | ⟨after, hafter⟩
    · refine .inl ⟨e, buffer, herror, huntouched, ?_⟩
      intro haccepted
      have hderived : p.useDf = true → additional.data.length < 2 ^ 32 := by
        intro huse
        have hsum := haccepted.derived huse
        simpa using hsum
      exact hreason ⟨haccepted.counter rfl, prepareAdditional_succeeds h hE hcontext
        haccepted.additionalGiven hderived haccepted.padded haccepted.memory⟩
    · exact .inr ⟨_, _, after, .plain, hafter⟩

end Calls

section Instantiate

variable {alg : LiberaCAlgID} {context : LiberaCCtrDrbgContext} (environment : Environment)

theorem freshContext_parameters (halg : ctrDrbgParameters alg = .ok p) :
    ctrDrbgContextParameters (freshContext alg p) = .ok p := by
  have hselected : ctrDrbgParameters (freshContext alg p).alg = .ok p := halg
  rw [ctrDrbgContextParameters, hselected]
  dsimp only
  exact if_neg (by simp [freshContext])

/-- After the checks of the pointers and the algorithm, the context is cleared or instantiated. -/
theorem instantiate_cases (halg : ctrDrbgParameters alg = .ok p)
    {entropy nonce personalization : InputBytes}
    (hpointers : ¬ (isNull entropy ∨ nonce.missing ∨ personalization.missing)) :
    (∃ e, cryptoCtrDrbgInstantiateInternal cipher environment alg entropy nonce personalization
        context = (.error e, clearedContext)) ∨
      ∃ after, cryptoCtrDrbgInstantiateInternal cipher environment alg entropy nonce personalization
          context = (.ok (), after) ∧
        ctrDrbgContextParameters after = .ok p ∧ after.instantiated = true ∧
        stateOf p after = (blockCipherOf h hE).instantiate p.useDf entropy.data nonce.data
          personalization.data := by
  have hfresh := freshContext_parameters halg
  unfold cryptoCtrDrbgInstantiateInternal
  rw [if_neg hpointers, halg]
  dsimp only
  cases hseed : instantiateSeed cipher environment p (freshContext alg p) entropy.data nonce.data
    personalization.data with
  | error e => exact .inl ⟨e, rfl⟩
  | ok seed =>
    obtain ⟨hright, hlength⟩ := instantiateSeed_right h hE hfresh hseed
    obtain ⟨after, hafter, hkept, hstate⟩ := ctrDrbgUpdate_ok h hE hfresh hlength.ge
    dsimp only
    rw [hafter]
    refine .inr ⟨_, rfl, ?_, rfl, ?_⟩
    · exact hkept.parameters.trans hfresh
    · have hlengths := h.lengths
      have hzero : stateOf p (freshContext alg p) =
          ⟨List.replicate p.keyLength 0, (blockCipherOf h hE).zeroBlock, 0⟩ := by
        have hkey : (zeros 32).take p.keyLength = List.replicate p.keyLength 0 := by
          rw [zeros, List.take_replicate, Nat.min_eq_left (by omega)]
        have hv : (zeros 16).take p.blockLength = List.replicate p.blockLength 0 := by
          rw [zeros, List.take_replicate, Nat.min_eq_left (by omega)]
        change (⟨(zeros 32).take p.keyLength, (zeros 16).take p.blockLength, 0⟩ : State) = _
        rw [hkey, hv]
        rfl
      rw [hzero] at hstate
      rw [Cipher.instantiate, ← hright]
      exact congrArg (fun s : State => { s with reseedCounter := 1 }) hstate

end Instantiate

section Conforms

/-- The blocks that are encrypted under one key from `V` on: for an output, and for the update that
replaces the key. -/
def counterInputs (p : CtrDrbgParameters) (v : List UInt8) (length : Nat) : List (List UInt8) :=
  (List.range (blockCount p.blockLength length + blockCount p.blockLength p.seedLength)).map fun i =>
    ((incrementV · p.blockLength)^[i + 1] v).take p.blockLength

theorem counterInputs_eq {v : List UInt8} (hv : v.length = 16) (length : Nat) :
    counterInputs p v length =
      (List.range (blockCount p.blockLength length + blockCount p.blockLength p.seedLength)).map
        fun i => (blockCipherOf h hE).counterBlock (v.take p.blockLength) (i + 1) := by
  have hlengths := h.lengths
  apply List.map_congr_left
  intro i hi
  rw [incrementV_iterate (by omega), List.take_left' (bigEndian_length _ _)]
  rfl

include h hE in
theorem counterInputs_nodup {v : List UInt8} (hv : v.length = 16) {length : Nat}
    (hlength : length ≤ p.maxRequestBytes) : (counterInputs p v length).Nodup := by
  rw [counterInputs_eq h hE hv]
  apply Cipher.counterBlocks_nodup
  have hlengths := h.lengths
  have hrequest := h.request
  have houtput : blockCount p.blockLength length ≤ length + (p.blockLength - 1) := Nat.div_le_self _ _
  have hseed : blockCount p.blockLength p.seedLength ≤ p.seedLength + (p.blockLength - 1) :=
    Nat.div_le_self _ _
  have hsum : p.seedLength = p.keyLength + p.blockLength := rfl
  have hblocks : 256 ^ 8 ≤ 256 ^ p.blockLength := Nat.pow_le_pow_right (by decide) (by omega)
  exact le_trans (by omega) hblocks

/-- The code for a parameter set is the generator of the specification over a block cipher. -/
structure Conforms (cipher : BlockCipher κ) (c : Cipher) (p : CtrDrbgParameters) : Prop where
  derives : ∀ host k context, ctrDrbgContextParameters context = .ok p → ∀ first second third seed,
    makeDfSeed cipher host k context first second third = .ok seed →
      seed = c.df (first ++ second ++ third) p.seedLength
  derivable : ∀ host k context, ctrDrbgContextParameters context = .ok p →
    Grants host (2 ^ 32 + 32) → ∀ first second third : List UInt8,
      first.length + second.length + third.length < 2 ^ 32 →
        ∃ seed, makeDfSeed cipher host k context first second third = .ok seed
  instantiates : ∀ environment alg context entropy nonce personalization after,
    ctrDrbgParameters alg = .ok p →
    cryptoCtrDrbgInstantiateInternal cipher environment alg entropy nonce personalization context =
      (.ok (), after) →
    ctrDrbgContextParameters after = .ok p ∧ after.instantiated = true ∧
      stateOf p after = c.instantiate p.useDf entropy.data nonce.data personalization.data
  reseeds : ∀ environment context, ctrDrbgContextParameters context = .ok p →
    ∀ entropy additional after,
      cryptoCtrDrbgReseedInternal cipher environment entropy additional context = (.ok (), after) →
      stateOf p after = c.reseed p.useDf entropy.data additional.data (stateOf p context)
  generates : ∀ environment context, ctrDrbgContextParameters context = .ok p →
    ∀ output additional predictionResistance bytes after,
      cryptoCtrDrbgGenerateInternal cipher environment output additional predictionResistance
        context = (⟨.ok (), bytes⟩, after) →
      ∃ s given, Starts environment c p (stateOf p context) additional.data predictionResistance s
          given ∧
        (bytes, stateOf p after) = c.generate p.useDf given output.data.length s
  accepts : ∀ environment context, ctrDrbgContextParameters context = .ok p →
    ∀ output additional predictionResistance,
      Accepted p environment context output additional predictionResistance →
      ∃ bytes after, cryptoCtrDrbgGenerateInternal cipher environment output additional
        predictionResistance context = (⟨.ok (), bytes⟩, after)
  shorter : ∀ environment context, ctrDrbgContextParameters context = .ok p →
    ∀ short long additional predictionResistance bytes bytes' after after',
      short.data.length ≤ long.data.length →
      cryptoCtrDrbgGenerateInternal cipher environment short additional predictionResistance
        context = (⟨.ok (), bytes⟩, after) →
      cryptoCtrDrbgGenerateInternal cipher environment long additional predictionResistance
        context = (⟨.ok (), bytes'⟩, after') →
      bytes = bytes'.take short.data.length
  counts : ∀ v, v.length = 16 → ∀ length ≤ p.maxRequestBytes, (counterInputs p v length).Nodup ∧
    counterInputs p v length =
      (List.range (blockCount p.blockLength length + blockCount p.blockLength p.seedLength)).map
        fun i => c.counterBlock (v.take p.blockLength) (i + 1)

theorem Starts.unique {environment : Environment} {c : Cipher} {s : State} {additional : List UInt8}
    {predictionResistance : Bool} {start start' : State} {given given' : List UInt8}
    (hstart : Starts environment c p s additional predictionResistance start given)
    (hstart' : Starts environment c p s additional predictionResistance start' given') :
    start = start' ∧ given = given' := by
  cases hstart with
  | plain =>
    cases hstart'
    exact ⟨rfl, rfl⟩
  | fresh byte hsource =>
    cases hstart' with
    | fresh byte' hsource' =>
      rw [hsource] at hsource'
      cases hsource'
      exact ⟨rfl, rfl⟩

/-- Every parameter set with every block cipher is a CTR_DRBG. -/
theorem ctr_drbg_conforms {alg : LiberaCAlgID} (halg : ctrDrbgParameters alg = .ok p)
    (hE : Computes cipher E) :
    Conforms cipher (blockCipherOf (ctrDrbgParameters_sound halg) hE) p := by
  have h := ctrDrbgParameters_sound halg
  have hgenerates : ∀ environment context, ctrDrbgContextParameters context = .ok p →
      ∀ output additional predictionResistance bytes after,
        cryptoCtrDrbgGenerateInternal cipher environment output additional predictionResistance
          context = (⟨.ok (), bytes⟩, after) →
        ∃ s given, Starts environment (blockCipherOf h hE) p (stateOf p context) additional.data
            predictionResistance s given ∧
          (bytes, stateOf p after) =
            (blockCipherOf h hE).generate p.useDf given output.data.length s := by
    intro environment context hcontext output additional predictionResistance bytes after hrun
    rcases generate_cases h hE environment hcontext output additional predictionResistance with
      ⟨e, buffer, herror, -⟩ | ⟨s, given, later, hstart, -, hok, -, hstate⟩
    · rw [herror] at hrun
      cases hrun
    · rw [hok] at hrun
      cases hrun
      exact ⟨s, given, hstart, Prod.ext rfl hstate⟩
  refine ⟨?_, ?_, ?_, ?_, hgenerates, ?_, ?_, ?_⟩
  · intro host k context hcontext first second third seed hseed
    exact makeDfSeed_right h hE hcontext hseed
  · intro host k context hcontext hgrants first second third hlength
    exact makeDfSeed_succeeds h hE hcontext hlength hgrants
  · intro environment alg context entropy nonce personalization after halg hrun
    by_cases hpointers : isNull entropy ∨ nonce.missing ∨ personalization.missing
    · rw [cryptoCtrDrbgInstantiateInternal, if_pos hpointers] at hrun
      cases hrun
    · rcases instantiate_cases h hE environment halg hpointers with
        ⟨e, herror⟩ | ⟨later, hok, hstate⟩
      · rw [herror] at hrun
        cases hrun
      · rw [hok] at hrun
        cases hrun
        exact hstate
  · intro environment context hcontext entropy additional after hrun
    rcases reseed_cases h hE environment hcontext entropy additional with
      ⟨e, herror, -⟩ | ⟨later, hok, -, hstate⟩
    · rw [herror] at hrun
      cases hrun
    · rw [hok] at hrun
      cases hrun
      exact hstate
  · intro environment context hcontext output additional predictionResistance haccepted
    rcases generate_cases h hE environment hcontext output additional predictionResistance with
      ⟨_, _, _, _, hreason⟩ | ⟨_, _, after, _, _, hok, _⟩
    · exact absurd haccepted hreason
    · exact ⟨_, after, hok⟩
  · intro environment context hcontext short long additional predictionResistance bytes bytes' after
      after' hle hshort hlong
    obtain ⟨s, given, hstart, hspec⟩ := hgenerates environment context hcontext _ _ _ _ _ hshort
    obtain ⟨s', given', hstart', hspec'⟩ := hgenerates environment context hcontext _ _ _ _ _ hlong
    obtain ⟨rfl, rfl⟩ := hstart.unique hstart'
    have hbytes := congrArg Prod.fst hspec
    have hbytes' := congrArg Prod.fst hspec'
    dsimp only at hbytes hbytes'
    rw [hbytes, hbytes', Cipher.generate, Cipher.generate]
    exact Cipher.output_take _ _ hle
  · intro v hv length hlength
    exact ⟨counterInputs_nodup h hE hv hlength, counterInputs_eq h hE hv length⟩

def libraryFamily : CtrDrbgCipherFamily → CmacCipherFamily
  | .aes => .aes
  | .tdea => .tdes

def libraryCipher : BlockCipher BlockFunction where
  contextInit := fun family key => cmacCipher (libraryFamily family) key
  encryptBlock := fun _ encryptBlock block => encryptBlock block

def libraryBlock (family : CtrDrbgCipherFamily) (key block : List UInt8) : List UInt8 :=
  inArray (familyBlock family) (libraryEncrypt (libraryFamily family) key block)

theorem libraryCipher_computes : Computes libraryCipher libraryBlock := by
  refine ⟨fun family key hkey => ?_, fun _ _ _ => inArray_length _ _⟩
  cases family with
  | aes =>
    obtain ⟨encryptBlock, hinit, hencrypts⟩ := cmacCipher_aes hkey
    refine ⟨encryptBlock, hinit, fun block hblock => ?_⟩
    obtain ⟨hok, hlength⟩ := hencrypts block hblock
    exact hok.trans (congrArg Except.ok (inArray_of_length hlength).symm)
  | tdea => exact ⟨_, rfl, fun block _ => congrArg Except.ok (inArray_of_length rfl).symm⟩

theorem aes128_parameters : ctrDrbgParameters .ctrDrbgAes128Df = .ok (aesParameters 16 true) := rfl

theorem tdea_parameters : ctrDrbgParameters .ctrDrbgTdeaDf = .ok (tdeaParameters true) := rfl

theorem ctr_drbg_conforms_library :
    Conforms libraryCipher
        (blockCipherOf (ctrDrbgParameters_sound aes128_parameters) libraryCipher_computes)
        (aesParameters 16 true) ∧
      Conforms libraryCipher
        (blockCipherOf (ctrDrbgParameters_sound tdea_parameters) libraryCipher_computes)
        (tdeaParameters true) :=
  ⟨ctr_drbg_conforms aes128_parameters libraryCipher_computes,
    ctr_drbg_conforms tdea_parameters libraryCipher_computes⟩

end Conforms

end LiberaCrypt.CtrDrbgCorrect
