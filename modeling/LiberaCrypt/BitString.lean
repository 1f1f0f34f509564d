import Mathlib.Data.List.GetD
import Mathlib.Tactic

namespace LiberaCrypt.BitString

/-- The lowest `n` bits of a number, highest first. -/
def bitString (n x : Nat) : List Bool := (List.range n).map fun i => x.testBit (n - 1 - i)

def ofBits (bits : List Bool) : Nat := bits.foldl (fun x b => 2 * x + b.toNat) 0

def select (table : List Nat) (bits : List Bool) : List Bool :=
  table.map fun place => bits.getD (place - 1) false

def xorBits (a b : List Bool) : List Bool := List.zipWith xor a b

variable {n : Nat} {x y : Nat}

@[simp] theorem bitString_length (n x : Nat) : (bitString n x).length = n := by
  rw [bitString, List.length_map, List.length_range]

@[simp] theorem select_length (table : List Nat) (bits : List Bool) :
    (select table bits).length = table.length := List.length_map _

theorem bitString_getD {i : Nat} (h : i < n) (x : Nat) :
    (bitString n x).getD i false = x.testBit (n - 1 - i) := by
  rw [List.getD_eq_getElem _ _ (by simpa using h)]
  simp [bitString]

theorem bitString_congr (h : ∀ i < n, x.testBit i = y.testBit i) :
    bitString n x = bitString n y := by
  apply List.map_congr_left
  intro i hi
  exact h _ (by have := List.mem_range.mp hi; omega)

theorem bitString_mod (n x : Nat) : bitString n (x % 2 ^ n) = bitString n x := by
  apply bitString_congr
  intro i hi
  rw [Nat.testBit_mod_two_pow, decide_eq_true hi, Bool.true_and]

theorem bitString_succ (n x : Nat) : bitString (n + 1) x = bitString n (x / 2) ++ [x.testBit 0] := by
  rw [bitString, List.range_succ, List.map_append, List.map_singleton, Nat.add_sub_cancel,
    Nat.sub_self]
  congr 1
  apply List.map_congr_left
  intro i hi
  have hlt := List.mem_range.mp hi
  rw [Nat.testBit_div_two]
  congr 1
  omega

theorem ofBits_append (bits : List Bool) (b : Bool) :
    ofBits (bits ++ [b]) = 2 * ofBits bits + b.toNat := by
  rw [ofBits, List.foldl_append]
  rfl

theorem bitString_ofBits (bits : List Bool) : bitString bits.length (ofBits bits) = bits := by
  induction bits using List.reverseRecOn with
  | nil => rfl
  | append_singleton bits b ih =>
    have hhalf : (2 * ofBits bits + b.toNat) / 2 = ofBits bits := by
      have hb := b.toNat_le
      omega
    have hlow : (2 * ofBits bits + b.toNat).testBit 0 = b := by
      cases b <;> simp [Nat.testBit_zero]
    rw [ofBits_append, List.length_append, List.length_singleton, bitString_succ, hhalf, hlow, ih]

theorem ofBits_lt (bits : List Bool) : ofBits bits < 2 ^ bits.length := by
  induction bits using List.reverseRecOn with
  | nil => exact Nat.one_pos
  | append_singleton bits b ih =>
    have hb := b.toNat_le
    rw [ofBits_append, List.length_append, List.length_singleton, pow_succ]
    omega

theorem bitString_add (m n x : Nat) :
    bitString (m + n) x = bitString m (x / 2 ^ n) ++ bitString n x := by
  induction n generalizing x with
  | zero => rw [pow_zero, Nat.div_one]; exact (List.append_nil _).symm
  | succ n ih =>
    rw [← Nat.add_assoc, bitString_succ, ih, bitString_succ n, ← List.append_assoc,
      Nat.div_div_eq_div_mul, pow_succ']

theorem bitString_join (m : Nat) (h : y < 2 ^ n) :
    bitString (m + n) (x * 2 ^ n + y) = bitString m x ++ bitString n y := by
  have hhigh : (x * 2 ^ n + y) / 2 ^ n = x := by
    rw [Nat.mul_comm, Nat.mul_add_div (Nat.two_pow_pos n), Nat.div_eq_of_lt h, Nat.add_zero]
  rw [bitString_add, hhigh, ← bitString_mod n, Nat.mul_comm, Nat.mul_add_mod, Nat.mod_eq_of_lt h]

theorem bitString_xor (n x y : Nat) :
    bitString n (x ^^^ y) = xorBits (bitString n x) (bitString n y) := by
  rw [xorBits, bitString, bitString, bitString, List.zipWith_map, List.zipWith_self]
  apply List.map_congr_left
  intro i _
  exact Nat.testBit_xor x y (n - 1 - i)

theorem bitString_slice {a w : Nat} (h : a + w ≤ n) (x : Nat) :
    ((bitString n x).drop a).take w = bitString w (x / 2 ^ (n - a - w)) := by
  obtain ⟨rest, rfl⟩ := Nat.exists_eq_add_of_le h
  have hrest : a + w + rest - a - w = rest := by omega
  rw [hrest, bitString_add (a + w) rest, bitString_add a w, List.append_assoc,
    List.drop_left' (bitString_length a _), List.take_left' (bitString_length w _)]

theorem select_bitString {table : List Nat} (h : ∀ place ∈ table, 0 < place ∧ place ≤ n) (x : Nat) :
    select table (bitString n x) = table.map fun place => x.testBit (n - place) := by
  apply List.map_congr_left
  intro place hplace
  obtain ⟨hpositive, hle⟩ := h place hplace
  rw [bitString_getD (by omega)]
  congr 1
  omega

theorem bitString_eq_select {table : List Nat} (hlength : table.length = n) {m : Nat}
    (h : ∀ place ∈ table, 0 < place ∧ place ≤ m)
    (hbits : ∀ i < n, y.testBit i = x.testBit (m - table.getD (n - 1 - i) 0)) :
    bitString n y = select table (bitString m x) := by
  rw [select_bitString h]
  apply List.ext_getElem
  · simp [hlength]
  · intro i hi hi'
    have hin : i < n := by simpa using hi
    have hplace := hbits (n - 1 - i) (by omega)
    have hindex : n - 1 - (n - 1 - i) = i := by omega
    rw [hindex, List.getD_eq_getElem _ _ (by omega)] at hplace
    simp only [bitString, List.getElem_map, List.getElem_range]
    exact hplace

end LiberaCrypt.BitString
