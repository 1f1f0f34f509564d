import LiberaCrypt.ByteMemory
import LiberaCrypt.FillLoop

namespace LiberaCrypt.MemoryFill

open LiberaCrypt.Outcome LiberaCrypt.ByteMemory LiberaCrypt.FillLoop

variable {σ : Type}

/-- `memcpy(buffer + offset, bytes, length)` inside a buffer of its own. -/
def copyInto (buffer : List UInt8) (offset : Nat) (bytes : List UInt8) : List UInt8 :=
  buffer.take offset ++ bytes ++ buffer.drop (offset + bytes.length)

/-- One block is made, and as much of it as is wanted is stored at `pointer + produced`. If none
can be made, what has been stored is wiped. -/
def fillStep (n : Nat) (next : σ → OnMemory (List UInt8 × σ)) (pointer length produced : Nat)
    (s : σ) (rest : Nat → σ → OnMemory Unit) : OnMemory Unit := fun memory =>
  match next s memory with
  | (.error e, memory) => (.error e, cryptoZeroize pointer produced memory)
  | (.ok (block, s), memory) =>
    let copyLength := length - produced
    let copyLength := if copyLength > n then n else copyLength
    rest (produced + copyLength) s
      (writeBytes memory (pointer + produced) (block.take copyLength))

def fillBlocks (n : Nat) (next : σ → OnMemory (List UInt8 × σ)) (pointer length : Nat) :
    Nat → Nat → σ → OnMemory Unit
  | 0, _, _ => pure ()
  | count + 1, produced, s =>
    fillStep n next pointer length produced s (fillBlocks n next pointer length count)

def fillWhile (n : Nat) (next : σ → OnMemory (List UInt8 × σ)) (pointer length : Nat)
    (produced : Nat) (s : σ) : OnMemory Unit := fun memory =>
  if _h : 0 < n ∧ produced < length then
    match next s memory with
    | (.error e, memory) => (.error e, cryptoZeroize pointer produced memory)
    | (.ok (block, s), memory) =>
      let copyLength := length - produced
      let copyLength := if copyLength > n then n else copyLength
      fillWhile n next pointer length (produced + copyLength) s
        (writeBytes memory (pointer + produced) (block.take copyLength))
  else (.ok (), memory)
termination_by length - produced
decreasing_by
  split <;> omega

section Buffers

variable {buffer bytes : List UInt8} {offset : Nat}

@[simp] theorem copyInto_length (h : offset + bytes.length ≤ buffer.length) :
    (copyInto buffer offset bytes).length = buffer.length := by
  simp only [copyInto, List.length_append, List.length_take, List.length_drop]
  omega

theorem copyInto_take (h : offset ≤ buffer.length) :
    (copyInto buffer offset bytes).take (offset + bytes.length) = buffer.take offset ++ bytes := by
  have hlength : (buffer.take offset ++ bytes).length = offset + bytes.length := by
    rw [List.length_append, List.length_take, Nat.min_eq_left h]
  rw [copyInto, ← hlength, List.take_left]

end Buffers

section Run

variable {n pointer length : Nat} {next : σ → OnMemory (List UInt8 × σ)}
  {out : Nat → List UInt8} {I : Nat → σ → Prop} {base memory : Memory}

def Outside (base : Memory) (pointer length : Nat) (memory : Memory) : Prop :=
  ∀ address, (∀ j < length, pointer + j ≠ address) → memory.byte address = base.byte address

theorem Outside.write (h : Outside base pointer length memory) {offset : Nat} {bytes : List UInt8}
    (hfits : offset + bytes.length ≤ length) :
    Outside base pointer length (writeBytes memory (pointer + offset) bytes) := by
  intro address hout
  rw [writeBytes_outside, h address hout]
  intro i hi
  rw [Nat.add_assoc]
  exact hout _ (by omega)

theorem Outside.read (h : Outside base pointer length memory) {other m : Nat}
    (hdisjoint : Disjoint pointer length other m) :
    readBytes memory other m = readBytes base other m := by
  apply List.ext_getElem (by rw [readBytes_length, readBytes_length])
  intro i hi _
  rw [readBytes_length] at hi
  rw [readBytes_getElem, readBytes_getElem]
  exact h _ fun j hj => hdisjoint j hj i hi

/-- What is asked of a block: it is the next of the sequence and keeps the invariant, or it fails;
in either case the memory stays. -/
def Makes (base : Memory) (pointer length n : Nat) (out : Nat → List UInt8) (I : Nat → σ → Prop)
    (next : σ → OnMemory (List UInt8 × σ)) (mayFail : Prop) : Prop :=
  ∀ i s memory, I i s → Outside base pointer length memory → i < blockCount n length →
    (∃ block s', next s memory = (.ok (block, s'), memory) ∧ block.take n = out i ∧ I (i + 1) s') ∨
      mayFail ∧ ∃ e, next s memory = (.error e, memory)

theorem take_block {block : List UInt8} {i m : Nat} (h : block.take n = out i) (hm : m ≤ n) :
    block.take m = (out i).take m := by
  rw [← h, List.take_take, Nat.min_eq_left hm]

/-- The loop stores the first bytes of the sequence, or it fails with a block. -/
theorem fillBlocks_run {mayFail : Prop} (hn : 0 < n)
    (hnext : Makes base pointer length n out I next mayFail) (hlength : ∀ i, (out i).length = n)
    {count i : Nat} (hcount : i + count = blockCount n length) {s : σ} (hs : I i s)
    (hmemory : Outside base pointer length memory) {produced : Nat}
    (hproduced : produced = min (i * n) length) :
    fillBlocks n next pointer length count produced s memory =
        (.ok (), writeBytes memory (pointer + produced)
          (filled (fun k => out (k + i)) n (length - i * n))) ∨
      mayFail ∧ ∃ e later, fillBlocks n next pointer length count produced s memory =
        (.error e, later) := by
  induction count generalizing i s memory produced with
  | zero =>
    have hend := length_le_blocks hn length
    have hdone : length - i * n = 0 := by
      rw [← hcount, Nat.add_zero] at hend
      omega
    left
    rw [hdone, filled, List.take_zero, writeBytes_nil]
    rfl
  | succ count ih =>
    have hlt := produced_lt hn (show i < blockCount n length by omega)
    have hstart : produced = i * n := hproduced.trans (Nat.min_eq_left hlt.le)
    have hstep := hnext i s memory hs hmemory (by omega)
    unfold fillBlocks fillStep
    rcases hstep with ⟨block, s', hrun, hblock, hs'⟩ | ⟨hfail, e, hrun⟩
    · rw [hrun]
      dsimp only
      rw [← hstart] at hlt ⊢
      generalize hcopy : (if length - produced > n then n else length - produced) = copyLength
      have hle : copyLength ≤ n ∧ produced + copyLength ≤ length := by
        rw [← hcopy]
        split_ifs <;> omega
      have htaken := take_block hblock hle.1
      have hsize : ((out i).take copyLength).length = copyLength := by
        rw [List.length_take, hlength, Nat.min_eq_left hle.1]
      have hnextProduced : produced + copyLength = min ((i + 1) * n) length := by
        rw [← hcopy, hstart, Nat.succ_mul]
        split_ifs <;> omega
      have hfilled := @filled_step n (fun k => out (k + i)) hn (hlength _) (length - produced)
        (by omega)
      have hrest : length - (i + 1) * n = length - produced - n := by
        rw [hstart, Nat.succ_mul, Nat.sub_sub]
      have hshift : (fun k => out (k + (i + 1))) = fun k => out (k + 1 + i) := by
        funext k
        congr 1
        omega
      rw [htaken]
      have hloop := ih (show i + 1 + count = _ by omega) hs'
        (hmemory.write (hsize ▸ hle.2)) hnextProduced
      rw [hrest, hshift] at hloop
      rw [Nat.zero_add, hcopy] at hfilled
      refine hloop.imp_left fun hok => ?_
      rw [hok, hfilled, ← write_append, hsize, Nat.add_assoc]
    · right
      rw [hrun]
      exact ⟨hfail, e, _, rfl⟩

theorem fillWhile_eq (hn : 0 < n) {i produced : Nat} (hproduced : produced = min (i * n) length)
    {count : Nat} (hcount : i + count = blockCount n length) (s : σ) :
    fillWhile n next pointer length produced s =
      fillBlocks n next pointer length count produced s := by
  induction count generalizing i produced s with
  | zero =>
    have hend := length_le_blocks hn length
    rw [← hcount, Nat.add_zero] at hend
    funext memory
    rw [fillWhile, dif_neg (by omega)]
    rfl
  | succ count ih =>
    have hlt := produced_lt hn (show i < blockCount n length by omega)
    have hstart : produced = i * n := hproduced.trans (Nat.min_eq_left hlt.le)
    funext memory
    rw [fillWhile, dif_pos ⟨hn, by omega⟩, fillBlocks, fillStep]
    rcases next s memory with ⟨e | ⟨block, s'⟩, later⟩
    · rfl
    · dsimp only
      rw [ih (i := i + 1) _ (by omega)]
      rw [hstart, Nat.succ_mul]
      split_ifs <;> omega

end Run

end LiberaCrypt.MemoryFill
