import LiberaCrypt.KeystreamXor

namespace LiberaCrypt.BlockLoop

open LiberaCrypt.Outcome LiberaCrypt.ByteMemory LiberaCrypt.KeystreamXor

variable {σ : Type}

/-- `for (offset = 0; offset < length; offset += n)` over the memory and a value carried from block
to block, left at the first error. -/
def offsetLoop (n : Nat) (step : Nat → σ → OnMemory σ) (length offset : Nat) (s : σ) :
    OnMemory Unit := fun memory =>
  if _h : 0 < n ∧ offset < length then
    match step offset s memory with
    | (.error e, memory) => (.error e, memory)
    | (.ok s, memory) => offsetLoop n step length (offset + n) s memory
  else (.ok (), memory)
termination_by length - offset

abbrev Body (σ : Type) := σ → List UInt8 → List UInt8 × σ

def transform (n : Nat) (body : Body σ) : Nat → σ → List UInt8 → List UInt8
  | 0, _, _ => []
  | count + 1, s, data =>
    (body s (data.take n)).1 ++ transform n body count (body s (data.take n)).2 (data.drop n)

def Body.KeepsLength (n : Nat) (body : Body σ) : Prop :=
  ∀ s block, block.length = n → (body s block).1.length = n

theorem transform_length {n : Nat} {body : Body σ} (hbody : body.KeepsLength n) {count : Nat} {s : σ}
    {data : List UInt8} (hdata : data.length = n * count) :
    (transform n body count s data).length = n * count := by
  induction count generalizing s data with
  | zero => rfl
  | succ count ih =>
    have htake : (data.take n).length = n := by
      rw [List.length_take, hdata]
      exact Nat.min_eq_left (Nat.le_mul_of_pos_right _ (Nat.succ_pos _))
    have hdrop : (data.drop n).length = n * count := by
      rw [List.length_drop, hdata, Nat.mul_succ, Nat.add_sub_cancel]
    rw [transform, List.length_append, hbody _ _ htake, ih hdrop, Nat.mul_succ, Nat.add_comm]

def Undoes (n : Nat) (f g : Body σ) : Prop :=
  ∀ s block, block.length = n → g s (f s block).1 = (block, (f s block).2)

theorem transform_undo {n : Nat} {f g : Body σ} (hf : f.KeepsLength n) (h : Undoes n f g)
    {count : Nat} {s : σ} {data : List UInt8} (hdata : data.length = n * count) :
    transform n g count s (transform n f count s data) = data := by
  induction count generalizing s data with
  | zero => exact (List.eq_nil_of_length_eq_zero hdata).symm
  | succ count ih =>
    have htake : (data.take n).length = n := by
      rw [List.length_take, hdata]
      exact Nat.min_eq_left (Nat.le_mul_of_pos_right _ (Nat.succ_pos _))
    have hdrop : (data.drop n).length = n * count := by
      rw [List.length_drop, hdata, Nat.mul_succ, Nat.add_sub_cancel]
    have hfirst := hf s _ htake
    have hblock := h s _ htake
    rw [transform.eq_2 n f, transform, List.take_left' hfirst, List.drop_left' hfirst, hblock]
    dsimp only
    rw [ih hdrop, List.take_append_drop]

/-- The steps of a loop turn the block at an offset of the input into that of the output. -/
def Turns (n : Nat) (body : Body σ) (output input : Nat) (step : Nat → σ → OnMemory σ) : Prop :=
  ∀ offset s memory, step offset s memory =
    (.ok (body s (readBytes memory (input + offset) n)).2,
      writeBytes memory (output + offset) (body s (readBytes memory (input + offset) n)).1)

section Run

variable {n output input length : Nat} {body : Body σ} {step : Nat → σ → OnMemory σ}
  {memory : Memory}

/-- The loop from an offset. A block is read before it is written over, also in place. -/
theorem offsetLoop_spec (hn : 0 < n) (hapart : Apart output input length)
    (hbody : body.KeepsLength n) (hstep : Turns n body output input step) {count : Nat} {s : σ}
    {written : List UInt8} (hlength : written.length + n * count = length) :
    offsetLoop n step length written.length s (writeBytes memory output written) =
      (.ok (), writeBytes memory output (written ++ transform n body count s
        (readBytes memory (input + written.length) (n * count)))) := by
  induction count generalizing s written with
  | zero =>
    rw [offsetLoop, dif_neg (by omega), transform, List.append_nil]
  | succ count ih =>
    rw [Nat.mul_succ] at hlength
    have hread : readBytes (writeBytes memory output written) (input + written.length) n =
        readBytes memory (input + written.length) n := read_rest hapart (by omega)
    have hone := hbody s _ (readBytes_length memory (input + written.length) n)
    have hmore : input + (written.length + n) = input + written.length + n := by omega
    have hsplit := readBytes_add memory (input + written.length) n (n * count)
    rw [offsetLoop, dif_pos ⟨hn, by omega⟩, hstep, hread]
    dsimp only
    rw [write_append, show written.length + n = (written ++ (body s (readBytes memory
        (input + written.length) n)).1).length by rw [List.length_append, hone],
      ih (by rw [List.length_append, hone]; omega), Nat.mul_succ, Nat.add_comm (n * count) n,
      hsplit, transform, List.take_left' (readBytes_length _ _ _),
      List.drop_left' (readBytes_length _ _ _), List.append_assoc, List.length_append, hone, hmore]

theorem offsetLoop_run (hn : 0 < n) (hapart : Apart output input length)
    (hbody : body.KeepsLength n) (hstep : Turns n body output input step)
    (hlength : length % n = 0) (s : σ) (memory : Memory) :
    offsetLoop n step length 0 s memory =
      (.ok (), writeBytes memory output (transform n body (length / n) s
        (readBytes memory input length))) := by
  have hcount : n * (length / n) = length := Nat.mul_div_cancel' (Nat.dvd_of_mod_eq_zero hlength)
  have hempty : ([] : List UInt8).length + n * (length / n) = length := by
    rw [List.length_nil, Nat.zero_add, hcount]
  have hrun : offsetLoop n step length ([] : List UInt8).length s (writeBytes memory output []) = _ :=
    offsetLoop_spec hn hapart hbody hstep hempty
  simpa [hcount] using hrun

end Run

end LiberaCrypt.BlockLoop
