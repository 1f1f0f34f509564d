import LiberaCrypt.ModExpVartime

namespace LiberaCrypt.ModExpAgree

open LiberaCrypt.Outcome LiberaCrypt.Allocation LiberaCrypt.Limbs LiberaCrypt.Bignum
open LiberaCrypt.ModExp LiberaCrypt.ModExpSecure LiberaCrypt.ModExpVartime

inductive Engine
  | modExp
  | vartime
  | ct
  | ctFixedBase
  | publicFixedBase

/-- `out` is the old value of the result, whose storage some engines reuse. -/
def Engine.run : Engine → (out base exponent modulus : LiberaCBignum) → Fallible LiberaCBignum
  | modExp, _, base, exponent, modulus => cryptoBignumModExp base exponent modulus
  | vartime, out, base, exponent, modulus => cryptoBignumModExpVartime out base exponent modulus
  | ct, _, base, exponent, modulus => cryptoBignumModExpCt base exponent modulus
  | ctFixedBase, _, base, exponent, modulus => cryptoBignumModExpCtFixedBase base exponent modulus
  | publicFixedBase, _, base, exponent, modulus =>
    cryptoBignumModExpPublicFixedBase base exponent modulus

/-- What an engine asks of the storage of its arguments, for a modulus of `n` limbs. -/
def Engine.Admits (n : Nat) (base exponent : LiberaCBignum) : Engine → Prop
  | modExp => True
  | vartime => True
  | ct => n ≤ exponent.capacity
  | ctFixedBase => n ≤ base.capacity ∧ n ≤ exponent.capacity
  | publicFixedBase => n ≤ base.capacity ∧ exponent.value ≠ 0

instance (n : Nat) (base exponent : LiberaCBignum) :
    (engine : Engine) → Decidable (engine.Admits n base exponent)
  | .modExp => inferInstanceAs (Decidable True)
  | .vartime => inferInstanceAs (Decidable True)
  | .ct => inferInstanceAs (Decidable (_ ≤ _))
  | .ctFixedBase => inferInstanceAs (Decidable (_ ∧ _))
  | .publicFixedBase => inferInstanceAs (Decidable (_ ∧ _))

section Calls

variable {V : Type} [DecidableEq V]

def call (engine : Engine) (out base exponent modulus : V) (vars : V → LiberaCBignum) :
    Fallible (V → LiberaCBignum) := do
  let result ← engine.run (vars out) (vars base) (vars exponent) (vars modulus)
  pure (Function.update vars out result)

def call2 (out1 out2 base1 base2 exponent modulus : V) (vars : V → LiberaCBignum) :
    Fallible (V → LiberaCBignum) := do
  let result ← cryptoBignumModExp2Ct (vars base1) (vars base2) (vars exponent) (vars modulus)
    (decide (out1 = out2))
  pure (Function.update (Function.update vars out1 result.1) out2 result.2)

def need (base modulus : LiberaCBignum) : Nat := 96 * modulus.length + 8 * base.length + 4

/-- The number `x` in normalized form. -/
structure Normalized (r : LiberaCBignum) (x : Nat) : Prop where
  valid : r.Valid
  value : r.value = x

variable {room : Nat} {base exponent modulus out : LiberaCBignum}

theorem any_modulus {engine : Engine} (hengine : engine = .modExp ∨ engine = .vartime)
    (hout : out.Valid) (hbase : base.Valid) (hexponent : exponent.Valid) (hm : modulus.Valid)
    (hpos : modulus.value ≠ 0) (hroom : need base modulus ≤ room) :
    Ensures room (engine.run out base exponent modulus) fun r =>
      Normalized r (base.value ^ exponent.value % modulus.value) := by
  unfold need at hroom
  rcases hengine with rfl | rfl
  · exact (cryptoBignumModExp_ensures hbase hexponent hm hpos (by omega)).mono
      fun r hr => ⟨hr.1, hr.2⟩
  · exact (cryptoBignumModExpVartime_ensures hout hbase hexponent hm hpos hroom).mono
      fun r hr => ⟨hr.1, hr.2⟩

/-- An exponent of at most `n` limbs is read whole by the scan of `n` limbs. -/
theorem exponent_whole (hwidth : exponent.length ≤ modulus.length) :
    exponent.value % wordBase ^ modulus.length = exponent.value :=
  Nat.mod_eq_of_lt (exponent.value_lt.trans_le (Nat.pow_le_pow_right wordBase_pos hwidth))

theorem odd_modulus (engine : Engine) (hout : out.Valid) (hbase : base.Valid)
    (hexponent : exponent.Valid) (hm : modulus.Valid) (hodd : modulus.value % 2 = 1)
    (hlt : base.value < modulus.value) (hwidth : exponent.length ≤ modulus.length)
    (hstorage : engine.Admits modulus.length base exponent) (hroom : need base modulus ≤ room) :
    Ensures room (engine.run out base exponent modulus) fun r =>
      Normalized r (base.value ^ exponent.value % modulus.value) := by
  have hpos : modulus.value ≠ 0 := by omega
  have hneed := hroom
  unfold need at hneed
  cases engine with
  | modExp => exact any_modulus (.inl rfl) hout hbase hexponent hm hpos hroom
  | vartime => exact any_modulus (.inr rfl) hout hbase hexponent hm hpos hroom
  | ct =>
    have h := cryptoBignumModExpCt_ensures hbase hlt hexponent hstorage hm hodd
      (show 32 * modulus.length ≤ room by omega)
    rw [exponent_whole hwidth] at h
    exact h.mono fun r hr => ⟨hr.1, hr.2.1⟩
  | ctFixedBase =>
    have h := cryptoBignumModExpCtFixedBase_ensures hbase hlt hstorage.1 hexponent hstorage.2 hm
      hodd (show 32 * modulus.length ≤ room by omega)
    rw [exponent_whole hwidth] at h
    exact h.mono fun r hr => ⟨hr.1, hr.2.1⟩
  | publicFixedBase =>
    have h := cryptoBignumModExpPublicFixedBase_ensures hbase hlt hstorage.1 hexponent hstorage.2
      hm hodd (show 28 * modulus.length ≤ room by omega)
    exact h.mono fun r hr => ⟨hr.1, hr.2.1⟩

theorem succeeds {α : Type} {x : Fallible α} {post : α → Prop} (h : Ensures room x post)
    {host : Host} (hgrants : Grants host room) (k : Nat) :
    ∃ a, outcome x host k = .ok a ∧ post a := by
  have hx := h host k
  cases ho : outcome x host k with
  | ok a =>
    rw [ho] at hx
    exact ⟨a, rfl, hx⟩
  | error e =>
    rw [ho] at hx
    exact absurd hgrants hx

variable {vars : V → LiberaCBignum}

/-- A call that stores the number `x` in `out` and changes nothing else. -/
def Stores (host : Host) (k : Nat) (x : Fallible (V → LiberaCBignum)) (vars : V → LiberaCBignum)
    (out : V) (value : Nat) : Prop :=
  ∃ r, outcome x host k = .ok (Function.update vars out r) ∧ Normalized r value

theorem call_stores {engine : Engine} {out base exponent modulus : V} {value : Nat}
    (h : Ensures room (engine.run (vars out) (vars base) (vars exponent) (vars modulus))
      fun r => Normalized r value)
    {host : Host} (hgrants : Grants host room) (k : Nat) :
    Stores host k (call engine out base exponent modulus vars) vars out value := by
  have hcall : Ensures room (call engine out base exponent modulus vars) fun after =>
      ∃ r, after = Function.update vars out r ∧ Normalized r value :=
    h.bind fun r hr => Ensures.pure ⟨r, rfl, hr⟩
  obtain ⟨after, hafter, r, rfl, hr⟩ := succeeds hcall hgrants k
  exact ⟨r, hafter, hr⟩

/-- For an odd modulus and a reduced base every engine stores the power; the two engines of
unrestricted arguments do so for every modulus and base. -/
theorem modExp_agree (vars : V → LiberaCBignum) (base exponent modulus : V) (host : Host) (k : Nat)
    (hvalid : ∀ v, (vars v).Valid) (hpos : (vars modulus).value ≠ 0)
    (hgrants : Grants host (need (vars base) (vars modulus))) :
    (∀ out, ∀ engine ∈ [Engine.modExp, Engine.vartime],
      Stores host k (call engine out base exponent modulus vars) vars out
        ((vars base).value ^ (vars exponent).value % (vars modulus).value)) ∧
    ((vars modulus).value % 2 = 1 → (vars base).value < (vars modulus).value →
      (vars exponent).length ≤ (vars modulus).length →
      (∀ out, ∀ engine : Engine,
        engine.Admits (vars modulus).length (vars base) (vars exponent) →
        Stores host k (call engine out base exponent modulus vars) vars out
          ((vars base).value ^ (vars exponent).value % (vars modulus).value)) ∧
      (∀ out1 out2 base2, out1 ≠ out2 → (vars base2).value < (vars modulus).value →
        (vars modulus).length ≤ (vars exponent).capacity →
        ∃ r1 r2, outcome (call2 out1 out2 base base2 exponent modulus vars) host k =
            .ok (Function.update (Function.update vars out1 r1) out2 r2) ∧
          Normalized r1 ((vars base).value ^ (vars exponent).value % (vars modulus).value) ∧
          Normalized r2
            ((vars base2).value ^ (vars exponent).value % (vars modulus).value))) := by
  refine ⟨?_, fun hodd hlt hwidth => ⟨?_, ?_⟩⟩
  · intro out engine hengine
    apply call_stores _ hgrants k
    rw [List.mem_pair] at hengine
    exact any_modulus hengine (hvalid out) (hvalid base) (hvalid exponent) (hvalid modulus) hpos
      (le_refl _)
  · intro out engine hstorage
    apply call_stores _ hgrants k
    exact odd_modulus engine (hvalid out) (hvalid base) (hvalid exponent) (hvalid modulus) hodd hlt
      hwidth hstorage (le_refl _)
  · intro out1 out2 base2 hne hlt2 hcapacity
    have h := cryptoBignumModExp2Ct_ensures (hvalid base) hlt (hvalid base2) hlt2 (hvalid exponent)
      hcapacity (hvalid modulus) hodd
      (show 40 * (vars modulus).length ≤ need (vars base) (vars modulus) by unfold need; omega)
    rw [exponent_whole hwidth] at h
    have hcall : Ensures (need (vars base) (vars modulus))
        (call2 out1 out2 base base2 exponent modulus vars) fun after => ∃ r1 r2,
          after = Function.update (Function.update vars out1 r1) out2 r2 ∧
          Normalized r1 ((vars base).value ^ (vars exponent).value % (vars modulus).value) ∧
          Normalized r2
            ((vars base2).value ^ (vars exponent).value % (vars modulus).value) := by
      unfold call2
      rw [decide_eq_false hne]
      apply h.bind
      rintro ⟨r1, r2⟩ ⟨⟨hr1, hvalue1⟩, hr2, hvalue2⟩
      exact Ensures.pure ⟨r1, r2, rfl, ⟨hr1, hvalue1⟩, hr2, hvalue2⟩
    obtain ⟨after, hafter, r1, r2, rfl, hr1, hr2⟩ := succeeds hcall hgrants k
    exact ⟨r1, r2, hafter, hr1, hr2⟩

end Calls

section Sample

/-- A host that grants every request that a `size_t` can say. -/
def generousHost : Host := ⟨fun _ bytes => decide (bytes ≤ sizeMax), fun h => of_decide_eq_true h⟩

theorem generousHost_grants {room : Nat} (h : room ≤ sizeMax) : Grants generousHost room :=
  fun _ _ hbytes => decide_eq_true (hbytes.trans h)

def oneLimb (d : UInt32) : LiberaCBignum := ⟨[d], 1⟩

theorem oneLimb_valid {d : UInt32} (h : d ≠ 0) : (oneLimb d).Valid :=
  padded_valid (w := [d]) 0 fun _ => h

def sample : Fin 3 → LiberaCBignum := ![oneLimb 3, oneLimb 5, oneLimb 7]

theorem sample_valid (v : Fin 3) : (sample v).Valid := by
  fin_cases v <;> exact oneLimb_valid (by decide)

theorem modExp_agree_sample :
    Stores generousHost 0 (call .ctFixedBase 0 0 1 2 sample) sample 0 5 := by
  have h := (modExp_agree sample 0 1 2 generousHost 0 sample_valid (by decide)
    (generousHost_grants (by decide))).2 (by decide) (by decide) (by decide)
  exact h.1 0 .ctFixedBase (by decide)

end Sample

end LiberaCrypt.ModExpAgree
