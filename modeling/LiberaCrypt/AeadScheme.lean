import LiberaCrypt.ConstantTime
import LiberaCrypt.Endian
import LiberaCrypt.KeystreamXor

namespace LiberaCrypt.AeadRequest

open LiberaCrypt.Outcome LiberaCrypt.ByteMemory LiberaCrypt.KeystreamXor

/-- The pointers of a call and the lengths that go with them. -/
structure Request where
  output : Nat
  outputCapacity : Nat
  tag : Nat
  tagLength : Nat
  input : Nat
  inputLength : Nat
  key : Nat
  keyLength : Nat
  nonce : Nat
  nonceLength : Nat
  aad : Nat
  aadLength : Nat

def Request.missing (r : Request) : Bool :=
  r.tag = 0 || (r.aad = 0 && r.aadLength ≠ 0) || (r.input = 0 && r.inputLength ≠ 0) ||
    (r.output = 0 && r.inputLength ≠ 0)

structure Request.Separated (r : Request) : Prop where
  input : Apart r.output r.input r.inputLength
  key : Disjoint r.output r.inputLength r.key r.keyLength
  nonce : Disjoint r.output r.inputLength r.nonce r.nonceLength
  aad : Disjoint r.output r.inputLength r.aad r.aadLength
  tag : Disjoint r.output r.inputLength r.tag r.tagLength

end LiberaCrypt.AeadRequest

namespace LiberaCrypt.AeadScheme

open LiberaCrypt.AeadRequest LiberaCrypt.ByteMemory LiberaCrypt.ConstantTime
open LiberaCrypt.KeystreamXor LiberaCrypt.Outcome

section Scheme

/-- A keystream for a message of any length, and an authenticator of a message and its ciphertext. -/
structure Scheme (ε : Type) where
  keystream : Nat → Except ε (List UInt8)
  authenticate : List UInt8 → List UInt8 → Except ε (List UInt8)
  keystream_length : ∀ {n stream}, keystream n = .ok stream → stream.length = n

variable {ε : Type} (S : Scheme ε) {plaintext ciphertext tag : List UInt8}

def Scheme.Seals (plaintext ciphertext tag : List UInt8) : Prop :=
  ∃ stream, S.keystream plaintext.length = .ok stream ∧ ciphertext = xorBytes plaintext stream ∧
    S.authenticate plaintext ciphertext = .ok tag

def Scheme.Opens (ciphertext tag plaintext : List UInt8) : Prop :=
  ∃ stream, S.keystream ciphertext.length = .ok stream ∧ plaintext = xorBytes ciphertext stream ∧
    S.authenticate plaintext ciphertext = .ok tag

variable {S} in
theorem Scheme.Seals.length (h : S.Seals plaintext ciphertext tag) :
    ciphertext.length = plaintext.length := by
  obtain ⟨stream, hstream, rfl, -⟩ := h
  exact xorBytes_length (S.keystream_length hstream)

theorem Scheme.opens_iff_seals :
    S.Opens ciphertext tag plaintext ↔ S.Seals plaintext ciphertext tag := by
  constructor
  · rintro ⟨stream, hstream, rfl, htag⟩
    have hlength := S.keystream_length hstream
    refine ⟨stream, ?_, (xorBytes_twice hlength).symm, htag⟩
    rw [xorBytes_length hlength, hstream]
  · rintro ⟨stream, hstream, rfl, htag⟩
    have hlength := S.keystream_length hstream
    refine ⟨stream, ?_, (xorBytes_twice hlength).symm, htag⟩
    rw [xorBytes_length hlength, hstream]

end Scheme

section Calls

variable {α β : Type} {r : Request} {memory now : Memory}

def Wrote (r : Request) (memory now : Memory) : Prop :=
  ∃ bytes, bytes.length ≤ r.inputLength ∧ now = writeBytes memory r.output bytes

theorem wrote_nothing (r : Request) (memory : Memory) : Wrote r memory memory :=
  ⟨[], Nat.zero_le _, (writeBytes_nil memory r.output).symm⟩

/-- A call does what an outcome that is computed from bytes alone says: it leaves the memory that
goes with the result, or fails with the same status. -/
structure ActsAs (outcome : Except LiberaCError α) (final : α → Memory) (r : Request)
    (memory : Memory) (result : Except LiberaCError Unit × Memory) : Prop where
  status : result.1 = outcome.map fun _ => ()
  ok : ∀ a, outcome = .ok a → result.2 = final a
  error : ∀ e, outcome = .error e → Wrote r memory result.2

variable {x : Except LiberaCError α} {f : α → Except LiberaCError β} {final : β → Memory}
  {result : Except LiberaCError Unit × Memory}

theorem actsAs_ok {b : β} (h : result = (.ok (), final b)) : ActsAs (.ok b) final r memory result := by
  rw [h]
  exact ⟨rfl, fun _ hb => by cases hb; rfl, nofun⟩

theorem actsAs_error {e : LiberaCError} (hwrote : Wrote r memory now) (h : result = (.error e, now)) :
    ActsAs (.error e) final r memory result := by
  rw [h]
  exact ⟨rfl, nofun, fun _ _ => hwrote⟩

theorem actsAs_compute (hwrote : Wrote r memory now) {next : α → OnMemory Unit}
    (h : ∀ a, x = .ok a → ActsAs (f a) final r memory (next a now)) :
    ActsAs (x >>= f) final r memory ((compute x >>= next) now) := by
  cases hx : x with
  | error e => exact actsAs_error hwrote rfl
  | ok a => exact h a hx

theorem actsAs_loop {loop : OnMemory Unit} {next : Unit → OnMemory Unit}
    {stream : Except LiberaCError α} {bytes : List UInt8} (hbytes : bytes.length ≤ r.inputLength)
    (hloop : loop memory = (stream.map fun _ => (), writeBytes memory r.output bytes))
    (h : ∀ a, stream = .ok a →
      ActsAs (f a) final r memory (next () (writeBytes memory r.output bytes))) :
    ActsAs (stream >>= f) final r memory ((loop >>= next) memory) := by
  cases hstream : stream with
  | error e =>
    rw [hstream] at hloop
    rw [bind_error hloop]
    exact actsAs_error ⟨bytes, hbytes, rfl⟩ rfl
  | ok a =>
    rw [hstream] at hloop
    rw [bind_ok hloop]
    exact h a hstream

theorem read_after_loop {stream : List UInt8} (hseparated : r.Separated)
    (hstream : stream.length = r.inputLength) :
    let after := writeBytes memory r.output
      (xorBytes (readBytes memory r.input r.inputLength) stream)
    readBytes after r.output r.inputLength =
        xorBytes (readBytes memory r.input r.inputLength) stream ∧
      readBytes after r.nonce r.nonceLength = readBytes memory r.nonce r.nonceLength ∧
      readBytes after r.aad r.aadLength = readBytes memory r.aad r.aadLength ∧
      readBytes after r.key r.keyLength = readBytes memory r.key r.keyLength ∧
      readBytes after r.tag r.tagLength = readBytes memory r.tag r.tagLength := by
  intro after
  have hlength : (xorBytes (readBytes memory r.input r.inputLength) stream).length =
      r.inputLength := by
    rw [xorBytes_length (by rw [hstream, readBytes_length]), readBytes_length]
  have hread := read_write memory r.output
    (xorBytes (readBytes memory r.input r.inputLength) stream)
  rw [hlength] at hread
  refine ⟨hread, ?_, ?_, ?_, ?_⟩
  · exact read_write_disjoint memory (by rw [hlength]; exact hseparated.nonce)
  · exact read_write_disjoint memory (by rw [hlength]; exact hseparated.aad)
  · exact read_write_disjoint memory (by rw [hlength]; exact hseparated.key)
  · exact read_write_disjoint memory (by rw [hlength]; exact hseparated.tag)

theorem wrote_wiped (hwrote : Wrote r memory now) :
    cryptoZeroize r.output r.inputLength now =
      writeBytes memory r.output (List.replicate r.inputLength 0) := by
  obtain ⟨bytes, hbytes, rfl⟩ := hwrote
  rw [cryptoZeroize, write_write _ _ (by rwa [List.length_replicate])]

theorem wrote_zeros (r : Request) (memory : Memory) :
    Wrote r memory (writeBytes memory r.output (List.replicate r.inputLength 0)) :=
  ⟨_, by rw [List.length_replicate], rfl⟩

theorem actsAs_wipe {outcome : Except LiberaCError β} {body : OnMemory Unit}
    (h : ActsAs outcome final r memory (body now)) :
    ActsAs outcome final r memory (wipeOnError r.output r.inputLength body now) := by
  cases hbody : body now with
  | mk status later =>
    rw [hbody] at h
    cases status with
    | error e =>
      rw [wipeOnError_error hbody]
      cases outcome with
      | error e' =>
        rw [wrote_wiped (h.error e' rfl)]
        exact ⟨h.status, nofun, fun _ _ => wrote_zeros r memory⟩
      | ok b => exact absurd h.status nofun
    | ok u =>
      rw [wipeOnError_ok hbody]
      exact h

theorem wiped_zeros {outcome : Except LiberaCError β} {body : OnMemory Unit}
    (h : ActsAs outcome final r memory (body now)) {e : LiberaCError} (he : outcome = .error e) :
    wipeOnError r.output r.inputLength body now =
      (.error e, writeBytes memory r.output (List.replicate r.inputLength 0)) := by
  cases hbody : body now with
  | mk status later =>
    rw [hbody] at h
    have hstatus : status = .error e := h.status.trans (by rw [he]; rfl)
    rw [hstatus] at hbody
    rw [wipeOnError_error hbody, wrote_wiped (h.error e he)]

def SealsAs (sealed : Except LiberaCError (List UInt8 × List UInt8)) (r : Request)
    (memory : Memory) (result : Except LiberaCError Unit × Memory) : Prop :=
  ActsAs sealed (fun c => writeBytes (writeBytes memory r.output c.1) r.tag c.2) r memory result

def OpensAs (opened : Except LiberaCError (List UInt8)) (r : Request) (memory : Memory)
    (result : Except LiberaCError Unit × Memory) : Prop :=
  ActsAs opened (writeBytes memory r.output) r memory result

end Calls

end LiberaCrypt.AeadScheme
