import Mathlib.Tactic

namespace LiberaCrypt.CheckedWords

/-- Arithmetic on words that has no result where the machine would wrap. -/
def add32 (a b : UInt32) : Option UInt32 := if a.toNat + b.toNat < 2 ^ 32 then some (a + b) else none

def mul32 (a b : UInt32) : Option UInt32 := if a.toNat * b.toNat < 2 ^ 32 then some (a * b) else none

def add64 (a b : UInt64) : Option UInt64 := if a.toNat + b.toNat < 2 ^ 64 then some (a + b) else none

def mul64 (a b : UInt64) : Option UInt64 := if a.toNat * b.toNat < 2 ^ 64 then some (a * b) else none

def narrow (a : UInt64) : Option UInt32 := if a.toNat < 2 ^ 32 then some a.toUInt32 else none

variable {a b : UInt32} {x y : UInt64}

theorem toNat_add32 (h : a.toNat + b.toNat < 2 ^ 32) : (a + b).toNat = a.toNat + b.toNat := by
  rw [UInt32.toNat_add, Nat.mod_eq_of_lt h]

theorem toNat_mul32 (h : a.toNat * b.toNat < 2 ^ 32) : (a * b).toNat = a.toNat * b.toNat := by
  rw [UInt32.toNat_mul, Nat.mod_eq_of_lt h]

theorem toNat_add64 (h : x.toNat + y.toNat < 2 ^ 64) : (x + y).toNat = x.toNat + y.toNat := by
  rw [UInt64.toNat_add, Nat.mod_eq_of_lt h]

theorem toNat_mul64 (h : x.toNat * y.toNat < 2 ^ 64) : (x * y).toNat = x.toNat * y.toNat := by
  rw [UInt64.toNat_mul, Nat.mod_eq_of_lt h]

theorem toNat_narrow (h : x.toNat < 2 ^ 32) : x.toUInt32.toNat = x.toNat := by
  rw [UInt64.toNat_toUInt32, Nat.mod_eq_of_lt h]

theorem add32_eq (h : a.toNat + b.toNat < 2 ^ 32) : add32 a b = some (a + b) := if_pos h

theorem mul32_eq (h : a.toNat * b.toNat < 2 ^ 32) : mul32 a b = some (a * b) := if_pos h

theorem add64_eq (h : x.toNat + y.toNat < 2 ^ 64) : add64 x y = some (x + y) := if_pos h

theorem mul64_eq (h : x.toNat * y.toNat < 2 ^ 64) : mul64 x y = some (x * y) := if_pos h

theorem narrow_eq (h : x.toNat < 2 ^ 32) : narrow x = some x.toUInt32 := if_pos h

theorem toNat_shift32 (a : UInt32) (k : Nat) (hk : k < 32) :
    (a >>> UInt32.ofNat k).toNat = a.toNat / 2 ^ k := by
  rw [UInt32.toNat_shiftRight, UInt32.toNat_ofNat', Nat.mod_eq_of_lt (a := k) (by omega),
    Nat.mod_eq_of_lt hk, Nat.shiftRight_eq_div_pow]

theorem toNat_shift64 (x : UInt64) (k : Nat) (hk : k < 64) :
    (x >>> UInt64.ofNat k).toNat = x.toNat / 2 ^ k := by
  rw [UInt64.toNat_shiftRight, UInt64.toNat_ofNat', Nat.mod_eq_of_lt (a := k) (by omega),
    Nat.mod_eq_of_lt hk, Nat.shiftRight_eq_div_pow]

theorem toNat_mask32 (a m : UInt32) {k : Nat} (hm : m.toNat = 2 ^ k - 1) :
    (a &&& m).toNat = a.toNat % 2 ^ k := by
  rw [UInt32.toNat_and, hm, Nat.and_two_pow_sub_one_eq_mod]

end LiberaCrypt.CheckedWords

namespace LiberaCrypt.SignedWords

/-- Arithmetic on signed words that has no result where the machine's is undefined. -/
def checked (exact : Int) (result : Int64) : Option Int64 :=
  if -2 ^ 63 ≤ exact ∧ exact < 2 ^ 63 then some result else none

def add64 (a b : Int64) : Option Int64 := checked (a.toInt + b.toInt) (a + b)

def sub64 (a b : Int64) : Option Int64 := checked (a.toInt - b.toInt) (a - b)

def mul64 (a b : Int64) : Option Int64 := checked (a.toInt * b.toInt) (a * b)

/-- Division rounds toward zero; the quotient of the least word by minus one is out of range. -/
def div64 (a b : Int64) : Option Int64 :=
  if b = 0 then none else checked (a.toInt.tdiv b.toInt) (a / b)

variable {a b c result : Int64} {exact : Int}

theorem checked_eq_some (h : result.toInt = exact.bmod (2 ^ 64)) :
    checked exact result = some c ↔ c.toInt = exact := by
  have hlow := Int64.le_toInt c
  have hhigh := Int64.toInt_lt c
  unfold checked
  split
  · next hrange =>
    rw [Int.bmod_eq_of_le (by omega) (by omega)] at h
    rw [Option.some_inj, ← Int64.toInt_inj, h, eq_comm]
  · next hrange =>
    refine iff_of_false (Option.some_ne_none c).symm ?_
    rintro rfl
    exact hrange ⟨hlow, hhigh⟩

theorem add64_eq_some : add64 a b = some c ↔ c.toInt = a.toInt + b.toInt :=
  checked_eq_some (Int64.toInt_add a b)

theorem sub64_eq_some : sub64 a b = some c ↔ c.toInt = a.toInt - b.toInt :=
  checked_eq_some (Int64.toInt_sub a b)

theorem mul64_eq_some : mul64 a b = some c ↔ c.toInt = a.toInt * b.toInt :=
  checked_eq_some (Int64.toInt_mul a b)

theorem div64_eq_some (hb : b.toInt ≠ 0) :
    div64 a b = some c ↔ c.toInt = a.toInt.tdiv b.toInt := by
  have hne : b ≠ 0 := fun h => hb (by rw [h]; rfl)
  rw [div64, if_neg hne]
  exact checked_eq_some (Int64.toInt_div a b)

theorem exists_word (h : |exact| < 2 ^ 63) : ∃ word : Int64, word.toInt = exact := by
  obtain ⟨hlow, hhigh⟩ := abs_lt.mp h
  exact ⟨Int64.ofInt exact, Int64.toInt_ofInt_of_le hlow.le hhigh⟩

theorem toInt_ofUInt32 (a : UInt32) : a.toUInt64.toInt64.toInt = a.toNat := by
  have hword : a.toUInt64.toInt64.toBitVec.toNat = a.toNat := rfl
  have hlt := a.toNat_lt
  rw [Int64.toInt, BitVec.toInt_eq_toNat_cond, hword, if_pos (by omega)]

theorem toNat_toUInt32 (hlow : 0 ≤ a.toInt) (hhigh : a.toInt < 2 ^ 32) :
    (a.toUInt64.toUInt32.toNat : Int) = a.toInt := by
  have hword : a.toUInt64.toUInt32.toNat = a.toBitVec.toNat % 2 ^ 32 := UInt64.toNat_toUInt32 _
  have hlt := a.toBitVec.isLt
  rw [Int64.toInt, BitVec.toInt_eq_toNat_cond] at *
  split at hlow <;> omega

end LiberaCrypt.SignedWords

namespace LiberaCrypt.WordArithmetic

open LiberaCrypt.CheckedWords

/-- The operations on words that a program is run with. -/
structure Words (m : Type → Type) where
  add32 : UInt32 → UInt32 → m UInt32
  add64 : UInt64 → UInt64 → m UInt64
  mul64 : UInt64 → UInt64 → m UInt64
  /-- A difference with a borrow, whose top bit is read as its sign. -/
  sub64 : UInt64 → UInt64 → UInt64 → m UInt64
  narrow : UInt64 → m UInt32

def machine : Words Id where
  add32 a b := pure (a + b)
  add64 a b := pure (a + b)
  mul64 a b := pure (a * b)
  sub64 a b borrow := pure (a - b - borrow)
  narrow a := pure a.toUInt32

def Signed (a b borrow : UInt64) : Prop :=
  a.toNat < b.toNat + borrow.toNat + 2 ^ 63 ∧ b.toNat + borrow.toNat ≤ a.toNat + 2 ^ 63

instance (a b borrow : UInt64) : Decidable (Signed a b borrow) :=
  inferInstanceAs (Decidable (_ ∧ _))

/-- The same words, with no result where the machine would wrap. -/
def checked : Words Option where
  add32 := CheckedWords.add32
  add64 := CheckedWords.add64
  mul64 := CheckedWords.mul64
  sub64 a b borrow := if Signed a b borrow then some (a - b - borrow) else none
  narrow := CheckedWords.narrow

/-- An arithmetic that gives the machine's result wherever the machine does not wrap. -/
structure Exact {m : Type → Type} [Monad m] (W : Words m) : Prop where
  add32 {a b : UInt32} : a.toNat + b.toNat < 2 ^ 32 → W.add32 a b = pure (a + b)
  add64 {a b : UInt64} : a.toNat + b.toNat < 2 ^ 64 → W.add64 a b = pure (a + b)
  mul64 {a b : UInt64} : a.toNat * b.toNat < 2 ^ 64 → W.mul64 a b = pure (a * b)
  sub64 {a b borrow : UInt64} : Signed a b borrow → W.sub64 a b borrow = pure (a - b - borrow)
  narrow {a : UInt64} : a.toNat < 2 ^ 32 → W.narrow a = pure a.toUInt32

theorem machine_exact : Exact machine :=
  ⟨fun _ => rfl, fun _ => rfl, fun _ => rfl, fun _ => rfl, fun _ => rfl⟩

theorem checked_exact : Exact checked :=
  ⟨add32_eq, add64_eq, mul64_eq, fun h => if_pos h, narrow_eq⟩

theorem Exact.mapM_narrow {m : Type → Type} [Monad m] [LawfulMonad m] {W : Words m}
    (hW : Exact W) {words : List UInt64} (h : ∀ x ∈ words, x.toNat < 2 ^ 32) :
    words.mapM W.narrow = pure (words.map UInt64.toUInt32) := by
  induction words with
  | nil => rfl
  | cons x xs ih =>
    rw [List.forall_mem_cons] at h
    rw [List.mapM_cons, hW.narrow h.1, ih h.2, pure_bind, pure_bind, List.map_cons]

end LiberaCrypt.WordArithmetic
