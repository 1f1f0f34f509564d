import Mathlib.Tactic

namespace LiberaCrypt.Outcome

/-- The negative status values of `Def.h`; success is a returned value. -/
inductive LiberaCError
  | invalidArgument
  | invalidAlgId
  | unsupportedAlgorithm
  | bufferTooSmall
  | allocationFailed
  | randomFailed
  | invalidKey
  | messageTooLarge
  | primeGenerationFailed
  | arithmetic
  | internal
  | authenticationFailed
  | reseedRequired
  | signatureInvalid
  deriving DecidableEq, Repr

/-- A function that returns a status, or does not return within its fuel. -/
abbrev Run (α : Type) := ExceptT LiberaCError Option α

variable {α β : Type} {m : Type → Type} [Monad m]

/-- A status of -1 from an inner function is reported as an internal error. -/
def orInternal (x : Option α) : Run α := x.elim (throw .internal) pure

def orDiverge (x : Option α) : Run α := ExceptT.lift x

/-- The loop `for (i = 0; i < n; ++i) out[i] = f(i)`. -/
def collect : {n : Nat} → (Fin n → m α) → m (Fin n → α)
  | 0, _ => pure Fin.elim0
  | n + 1, f => do
    let xs ← collect fun i : Fin n => f i.castSucc
    let x ← f (Fin.last n)
    pure (@Fin.snoc n (fun _ => α) xs x)

theorem collect_pure [LawfulMonad m] {n : Nat} (g : Fin n → α) :
    collect (fun i => (pure (g i) : m α)) = pure g := by
  induction n with
  | zero => exact congrArg pure (funext fun i => i.elim0)
  | succ n ih =>
    simp only [collect, ih fun i => g i.castSucc, pure_bind]
    exact congrArg pure (Fin.snoc_init_self g)

theorem collect_of_pure [LawfulMonad m] {n : Nat} {f : Fin n → m α} {g : Fin n → α}
    (h : ∀ i, f i = pure (g i)) : collect f = pure g := by
  rw [funext h, collect_pure]

section Except

variable {ε : Type} {x : Except ε α} {f : α → Except ε β} {b : β}

theorem bind_eq_ok : (x >>= f) = .ok b ↔ ∃ a, x = .ok a ∧ f a = .ok b := by
  cases x with
  | error e => simp [bind, Except.bind]
  | ok a => simp [bind, Except.bind]

end Except

abbrev OnState (σ : Type) := ExceptT LiberaCError (StateM σ)

section OnState

variable {σ : Type} {a : α} {e : LiberaCError} {s t : σ} {first : OnState σ α}
  {next : α → OnState σ β}

theorem bind_ok (h : first s = (.ok a, t)) : (first >>= next) s = next a t := by
  change (ExceptT.bindCont next (first s).1) (first s).2 = _
  rw [h]
  rfl

theorem bind_error (h : first s = (.error e, t)) : (first >>= next) s = (.error e, t) := by
  change (ExceptT.bindCont next (first s).1) (first s).2 = _
  rw [h]
  rfl

end OnState

theorem orInternal_some (x : α) : orInternal (some x) = pure x := rfl

end LiberaCrypt.Outcome

namespace LiberaCrypt.Def

/-- The values of `LiberaCAlgID` that the modelled code tells apart; `other` is any other one. -/
inductive LiberaCAlgID
  | none
  | hashSha1
  | hashSha3_224
  | hashSha3_256
  | hashSha3_384
  | hashSha3_512
  | hashShake128
  | hashShake256
  | hashSha2_224
  | hashSha2_256
  | hashSha2_384
  | hashSha2_512
  | hashSha2_512_224
  | hashSha2_512_256
  | hashLsh_256_224
  | hashLsh_256_256
  | hashLsh_512_224
  | hashLsh_512_256
  | hashLsh_512_384
  | hashLsh_512_512
  | mlKem512
  | mlKem768
  | mlKem1024
  | rsaRaw
  | rsaOaep
  | rsaPss
  | elgamalSafePrime
  | ed25519
  | ecdsaP256
  | ecdsaP384
  | ecdsaP521
  | ecdhP256
  | ecdhP384
  | ecdhP521
  | x25519
  | aes128Ecb
  | aes192Ecb
  | aes256Ecb
  | aes128Cbc
  | aes192Cbc
  | aes256Cbc
  | aes128Ctr
  | aes192Ctr
  | aes256Ctr
  | tdesEde3Ecb
  | tdesEde3Cbc
  | chacha20
  | aes128Ccm
  | aes192Ccm
  | aes256Ccm
  | aes128Gcm
  | aes192Gcm
  | aes256Gcm
  | chacha20Poly1305
  | ctrDrbgAes128Df
  | ctrDrbgAes192Df
  | ctrDrbgAes256Df
  | ctrDrbgTdeaDf
  | ctrDrbgAes128NoDf
  | ctrDrbgAes192NoDf
  | ctrDrbgAes256NoDf
  | ctrDrbgTdeaNoDf
  | other
  deriving DecidableEq, Repr

/-- A pointer with a length: no buffer, or the bytes that are there. -/
inductive InputBytes
  | null (length : Nat)
  | bytes (data : List UInt8)
  deriving DecidableEq

def InputBytes.missing : InputBytes → Bool
  | null length => length != 0
  | bytes _ => false

def InputBytes.data : InputBytes → List UInt8
  | null _ => []
  | bytes data => data

end LiberaCrypt.Def
