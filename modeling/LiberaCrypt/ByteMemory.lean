import LiberaCrypt.CountedLoop
import LiberaCrypt.Def
import Mathlib.Data.List.GetD

namespace LiberaCrypt.ByteMemory

open LiberaCrypt.Outcome

/-- The bytes at all addresses. A pointer is an address, and NULL is 0. -/
@[ext] structure Memory where
  byte : Nat → UInt8

def readBytes (memory : Memory) (pointer length : Nat) : List UInt8 :=
  (List.range length).map fun i => memory.byte (pointer + i)

def writeBytes (memory : Memory) (pointer : Nat) (bytes : List UInt8) : Memory where
  byte address :=
    if pointer ≤ address then bytes.getD (address - pointer) (memory.byte address)
    else memory.byte address

@[inline] def writeByte (memory : Memory) (pointer : Nat) (x : UInt8) : Memory where
  byte address := if address = pointer then x else memory.byte address

def cryptoZeroize (pointer length : Nat) (memory : Memory) : Memory :=
  writeBytes memory pointer (List.replicate length 0)

def cryptoRangesOverlap (first firstLength second secondLength : Nat) : Bool :=
  if firstLength = 0 ∨ secondLength = 0 then false
  else if first ≤ second then second - first < firstLength
  else first - second < secondLength

def Disjoint (first firstLength second secondLength : Nat) : Prop :=
  ∀ i < firstLength, ∀ j < secondLength, first + i ≠ second + j

theorem cryptoRangesOverlap_iff (first firstLength second secondLength : Nat) :
    cryptoRangesOverlap first firstLength second secondLength = false ↔
      Disjoint first firstLength second secondLength := by
  unfold cryptoRangesOverlap Disjoint
  split_ifs with hempty horder
  · simp only [true_iff]
    intro i hi j hj
    omega
  · simp only [decide_eq_false_iff_not]
    constructor
    · intro hfar i hi j hj
      omega
    · intro hdisjoint hnear
      exact hdisjoint (second - first) hnear 0 (by omega) (by omega)
  · simp only [decide_eq_false_iff_not]
    constructor
    · intro hfar i hi j hj
      omega
    · intro hdisjoint hnear
      exact hdisjoint 0 (by omega) (first - second) hnear (by omega)

section Bytes

variable (memory : Memory) {pointer other length : Nat} {bytes : List UInt8}

@[simp] theorem readBytes_length (pointer length : Nat) :
    (readBytes memory pointer length).length = length := by
  rw [readBytes, List.length_map, List.length_range]

theorem readBytes_getElem {i : Nat} (h : i < (readBytes memory pointer length).length) :
    (readBytes memory pointer length)[i] = memory.byte (pointer + i) := by
  simp [readBytes]

theorem readBytes_add (pointer m n : Nat) :
    readBytes memory pointer (m + n) =
      readBytes memory pointer m ++ readBytes memory (pointer + m) n := by
  simp only [readBytes, List.range_add, List.map_append, List.map_map]
  congr 1
  apply List.map_congr_left
  intro i hi
  rw [Function.comp_apply, Nat.add_assoc]

theorem writeBytes_inside {i : Nat} (h : i < bytes.length) :
    (writeBytes memory pointer bytes).byte (pointer + i) = bytes[i] := by
  simp only [writeBytes, if_pos (Nat.le_add_right _ _), Nat.add_sub_cancel_left,
    List.getD_eq_getElem _ _ h]

theorem writeBytes_outside {address : Nat} (h : ∀ i < bytes.length, pointer + i ≠ address) :
    (writeBytes memory pointer bytes).byte address = memory.byte address := by
  unfold writeBytes
  dsimp only
  split_ifs with horder
  · rw [List.getD_eq_default]
    by_contra hinside
    exact h (address - pointer) (by omega) (by omega)
  · rfl

@[simp] theorem writeBytes_nil (pointer : Nat) : writeBytes memory pointer [] = memory := by
  ext1
  funext address
  exact writeBytes_outside memory (by simp)

theorem writeByte_eq (pointer : Nat) (x : UInt8) :
    writeByte memory pointer x = writeBytes memory pointer [x] := by
  ext1
  funext address
  by_cases h : address = pointer
  · have hinside : (writeBytes memory pointer [x]).byte (pointer + 0) = [x][0] :=
      writeBytes_inside memory Nat.zero_lt_one
    rw [h]
    exact (if_pos rfl).trans hinside.symm
  · rw [writeBytes_outside]
    · exact if_neg h
    · intro i hi heq
      rw [List.length_singleton] at hi
      omega

theorem read_write (pointer : Nat) (bytes : List UInt8) :
    readBytes (writeBytes memory pointer bytes) pointer bytes.length = bytes := by
  apply List.ext_getElem (by rw [readBytes_length])
  intro i hi hi'
  rw [readBytes_getElem, writeBytes_inside memory hi']

theorem read_write_disjoint (h : Disjoint pointer bytes.length other length) :
    readBytes (writeBytes memory pointer bytes) other length = readBytes memory other length := by
  apply List.ext_getElem (by rw [readBytes_length, readBytes_length])
  intro i hi hi'
  rw [readBytes_length] at hi
  rw [readBytes_getElem, readBytes_getElem]
  exact writeBytes_outside memory fun j hj => h j hj i hi

theorem write_append (pointer : Nat) (first second : List UInt8) :
    writeBytes (writeBytes memory pointer first) (pointer + first.length) second =
      writeBytes memory pointer (first ++ second) := by
  ext1
  funext address
  by_cases hsecond : ∃ j < second.length, address = pointer + first.length + j
  · obtain ⟨j, hj, rfl⟩ := hsecond
    have hin : first.length + j < (first ++ second).length := by
      rw [List.length_append]
      omega
    rw [writeBytes_inside _ hj, Nat.add_assoc, writeBytes_inside _ hin,
      List.getElem_append_right (by omega)]
    simp
  · rw [writeBytes_outside _ fun j hj heq => hsecond ⟨j, hj, heq.symm⟩]
    by_cases hfirst : ∃ i < first.length, address = pointer + i
    · obtain ⟨i, hi, rfl⟩ := hfirst
      have hin : i < (first ++ second).length := by
        rw [List.length_append]
        omega
      rw [writeBytes_inside _ hi, writeBytes_inside _ hin, List.getElem_append_left hi]
    · rw [writeBytes_outside _ fun i hi heq => hfirst ⟨i, hi, heq.symm⟩, writeBytes_outside]
      intro k hk heq
      rw [List.length_append] at hk
      by_cases hk' : k < first.length
      · exact hfirst ⟨k, hk', heq.symm⟩
      · exact hsecond ⟨k - first.length, by omega, by omega⟩

theorem write_write (pointer : Nat) {first second : List UInt8}
    (h : first.length ≤ second.length) :
    writeBytes (writeBytes memory pointer first) pointer second =
      writeBytes memory pointer second := by
  ext1
  funext address
  by_cases hsecond : ∃ j < second.length, address = pointer + j
  · obtain ⟨j, hj, rfl⟩ := hsecond
    rw [writeBytes_inside _ hj, writeBytes_inside _ hj]
  · have hout : ∀ i < second.length, pointer + i ≠ address := fun i hi heq =>
      hsecond ⟨i, hi, heq.symm⟩
    rw [writeBytes_outside _ hout, writeBytes_outside _ hout,
      writeBytes_outside _ fun i hi => hout i (hi.trans_le h)]

theorem disjoint_shorter {m : Nat} (h : Disjoint pointer length other m) {k : Nat}
    (hk : k ≤ length) : Disjoint pointer k other m :=
  fun i hi j hj => h i (hi.trans_le hk) j hj

end Bytes

abbrev OnMemory := ExceptT LiberaCError (StateM Memory)

section Statements

variable {α β : Type} {e : LiberaCError} {a : α}

def load (pointer length : Nat) : OnMemory (List UInt8) := fun memory =>
  (.ok (readBytes memory pointer length), memory)

def store (pointer : Nat) (bytes : List UInt8) : OnMemory Unit := fun memory =>
  (.ok (), writeBytes memory pointer bytes)

def compute (result : Except LiberaCError α) : OnMemory α := fun memory => (result, memory)

/-- `if (err != LIBERAC_SUCCESS) crypto_zeroize(pointer, length)` after a function. -/
def wipeOnError (pointer length : Nat) (body : OnMemory α) : OnMemory α := fun memory =>
  match body memory with
  | (.ok a, memory) => (.ok a, memory)
  | (.error e, memory) => (.error e, cryptoZeroize pointer length memory)

variable {memory later : Memory}

@[simp] theorem load_bind (pointer length : Nat) (next : List UInt8 → OnMemory β) :
    (load pointer length >>= next) memory = next (readBytes memory pointer length) memory := rfl

@[simp] theorem store_bind (pointer : Nat) (bytes : List UInt8) (next : Unit → OnMemory β) :
    (store pointer bytes >>= next) memory = next () (writeBytes memory pointer bytes) := rfl

@[simp] theorem compute_ok_bind (a : α) (next : α → OnMemory β) :
    (compute (.ok a) >>= next) memory = next a memory := rfl

@[simp] theorem compute_error_bind (e : LiberaCError) (next : α → OnMemory β) :
    (compute (.error e) >>= next) memory = (.error e, memory) := rfl

@[simp] theorem compute_apply (result : Except LiberaCError α) :
    compute result memory = (result, memory) := rfl

theorem wipeOnError_ok {pointer length : Nat} {body : OnMemory α}
    (h : body memory = (.ok a, later)) : wipeOnError pointer length body memory = (.ok a, later) := by
  rw [wipeOnError, h]

theorem wipeOnError_error {pointer length : Nat} {body : OnMemory α}
    (h : body memory = (.error e, later)) :
    wipeOnError pointer length body memory = (.error e, cryptoZeroize pointer length later) := by
  rw [wipeOnError, h]

end Statements

end LiberaCrypt.ByteMemory
