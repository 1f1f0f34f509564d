import Mathlib.Data.List.Basic
import Mathlib.Tactic

namespace LiberaCrypt.BlockBuffer

variable {σ α : Type*}

/-- The first `k` pieces of length `n` of a list. -/
def pieces (n : Nat) : Nat → List α → List (List α)
  | 0, _ => []
  | k + 1, xs => xs.take n :: pieces n k (xs.drop n)

/-- The fold of `compress` over the whole blocks of `xs`. -/
def foldBlocks (compress : σ → List α → σ) (n : Nat) (s : σ) (xs : List α) : σ :=
  (pieces n (xs.length / n) xs).foldl compress s

theorem pieces_append {n : Nat} (j k : Nat) {xs : List α} (ys : List α) (h : xs.length = n * j) :
    pieces n (j + k) (xs ++ ys) = pieces n j xs ++ pieces n k ys := by
  induction j generalizing xs with
  | zero =>
    rw [List.length_eq_zero_iff.mp (h.trans (Nat.mul_zero n)), Nat.zero_add]
    rfl
  | succ j ih =>
    rw [Nat.mul_succ] at h
    rw [Nat.add_right_comm, pieces, pieces, List.take_append_of_le_length (by omega),
      List.drop_append_of_le_length (by omega), ih (by rw [List.length_drop]; omega)]
    rfl

theorem foldBlocks_append {compress : σ → List α → σ} {n k : Nat} (hn : 0 < n) {xs : List α}
    (ys : List α) (s : σ) (h : xs.length = n * k) :
    foldBlocks compress n s (xs ++ ys) = foldBlocks compress n (foldBlocks compress n s xs) ys := by
  have hlen : (xs ++ ys).length / n = k + ys.length / n := by
    rw [List.length_append, h, Nat.mul_add_div hn]
  have hk : xs.length / n = k := by
    rw [h, Nat.mul_div_cancel_left k hn]
  unfold foldBlocks
  rw [hlen, hk, pieces_append k _ ys h, List.foldl_append]

theorem foldBlocks_short {compress : σ → List α → σ} {n : Nat} {xs : List α} (s : σ)
    (h : xs.length < n) : foldBlocks compress n s xs = s := by
  rw [foldBlocks, Nat.div_eq_of_lt h]
  rfl

theorem foldBlocks_one {compress : σ → List α → σ} {n : Nat} (hn : 0 < n) {xs : List α} (s : σ)
    (h : xs.length = n) : foldBlocks compress n s xs = compress s xs := by
  rw [foldBlocks, h, Nat.div_self hn, pieces, pieces, ← h, List.take_length]
  rfl

theorem foldBlocks_first {compress : σ → List α → σ} {n : Nat} (hn : 0 < n) {block : List α}
    (h : block.length = n) (ys : List α) (s : σ) :
    foldBlocks compress n s (block ++ ys) = foldBlocks compress n (compress s block) ys := by
  rw [foldBlocks_append hn ys s (h.trans (Nat.mul_one n).symm), foldBlocks_one hn s h]

/-- A chaining state, a block array and the number of its bytes in use. -/
structure Buffer (σ : Type*) (α : Type*) where
  state : σ
  block : List α
  bufferLength : Nat

def copyAt (block : List α) (offset : Nat) (input : List α) : List α :=
  block.take offset ++ input ++ block.drop (offset + input.length)

/-- `memset(block + first, x, last - first)`. -/
def fillAt (block : List α) (first last : Nat) (x : α) : List α :=
  copyAt block first (List.replicate (last - first) x)

section Update

variable (compress : σ → List α → σ) (n : Nat)

/-- What an update does first when bytes are waiting, and the input that is left. -/
def fill (buffer : Buffer σ α) (input : List α) : Buffer σ α × List α :=
  if buffer.bufferLength ≠ 0 then
    let available := n - buffer.bufferLength
    let copied := if input.length < available then input.length else available
    let block := copyAt buffer.block buffer.bufferLength (input.take copied)
    if buffer.bufferLength + copied = n then
      (⟨compress buffer.state (block.take n), block, 0⟩, input.drop copied)
    else (⟨buffer.state, block, buffer.bufferLength + copied⟩, input.drop copied)
  else (buffer, input)

/-- `while (length >= n)`: whole blocks are compressed from the input itself. -/
def bulk (s : σ) (input : List α) : σ × List α :=
  if _h : 0 < n ∧ n ≤ input.length then bulk (compress s (input.take n)) (input.drop n)
  else (s, input)
termination_by input.length
decreasing_by
  rw [List.length_drop]
  omega

def update (buffer : Buffer σ α) (input : List α) : Buffer σ α :=
  let filled := fill compress n buffer input
  let rest := bulk compress n filled.1.state filled.2
  if rest.2.length ≠ 0 then ⟨rest.1, copyAt filled.1.block 0 rest.2, rest.2.length⟩
  else ⟨rest.1, filled.1.block, filled.1.bufferLength⟩

end Update

variable {compress : σ → List α → σ} {n : Nat} {s : σ} {buffer : Buffer σ α} {xs ys : List α}

/-- The buffer after the bytes `xs`: their whole blocks are compressed, the others wait. -/
structure Absorbed (compress : σ → List α → σ) (n : Nat) (s : σ) (xs : List α)
    (buffer : Buffer σ α) : Prop where
  waiting : buffer.bufferLength = xs.length % n
  state : buffer.state = foldBlocks compress n s xs
  block : buffer.block.take buffer.bufferLength = xs.drop (n * (xs.length / n))
  capacity : n ≤ buffer.block.length

theorem absorbed_start (hblock : n ≤ buffer.block.length) (hlength : buffer.bufferLength = 0) :
    Absorbed compress n buffer.state [] buffer := by
  refine ⟨?_, ?_, ?_, hblock⟩
  · rw [hlength, List.length_nil, Nat.zero_mod]
  · rw [foldBlocks, List.length_nil, Nat.zero_div]
    rfl
  · rw [hlength, List.take_zero, List.drop_nil]

/-- The same, from a division of the bytes into whole blocks and fewer than `n` others. -/
theorem absorbed_split {k : Nat} {full pending : List α} (hn : 0 < n) (hfull : full.length = n * k)
    (hpending : pending.length < n) (hlength : buffer.bufferLength = pending.length)
    (hstate : buffer.state = foldBlocks compress n s full)
    (hblock : buffer.block.take pending.length = pending) (hcapacity : n ≤ buffer.block.length) :
    Absorbed compress n s (full ++ pending) buffer := by
  have hdiv : (full ++ pending).length / n = k := by
    rw [List.length_append, hfull, Nat.mul_add_div hn, Nat.div_eq_of_lt hpending, Nat.add_zero]
  refine ⟨?_, ?_, ?_, hcapacity⟩
  · rw [hlength, List.length_append, hfull, Nat.mul_add_mod, Nat.mod_eq_of_lt hpending]
  · rw [foldBlocks_append hn pending s hfull, foldBlocks_short _ hpending]
    exact hstate
  · rw [hdiv, ← hfull, List.drop_left, hlength, hblock]

theorem bulk_eq (hn : 0 < n) (input : List α) (s : σ) :
    bulk compress n s input =
      (foldBlocks compress n s input, input.drop (n * (input.length / n))) := by
  induction hlen : input.length using Nat.strong_induction_on generalizing input s with
  | _ len ih =>
  rw [bulk]
  by_cases h : n ≤ input.length
  · have hrest : (input.drop n).length = len - n := by rw [List.length_drop, hlen]
    have hdiv : len / n = (len - n) / n + 1 := by
      rw [← hlen, Nat.div_eq_sub_div hn h, hlen]
    have htake : (input.take n).length = n * 1 := by
      rw [List.length_take, Nat.min_eq_left h, Nat.mul_one]
    rw [dif_pos ⟨hn, h⟩, ih (len - n) (by omega) _ _ hrest, List.drop_drop, hdiv, Nat.mul_succ,
      Nat.add_comm n]
    conv_rhs => rw [← List.take_append_drop n input, foldBlocks_append hn _ s htake,
      foldBlocks_one hn s (htake.trans (Nat.mul_one n)), List.take_append_drop]
  · rw [dif_neg (fun hc => h hc.2), foldBlocks_short s (not_le.mp h),
      Nat.div_eq_of_lt (hlen ▸ not_le.mp h), Nat.mul_zero, List.drop_zero]

theorem copyAt_length {block input : List α} {offset : Nat}
    (h : offset + input.length ≤ block.length) : (copyAt block offset input).length = block.length := by
  simp only [copyAt, List.length_append, List.length_take, List.length_drop]
  omega

theorem copyAt_take (block input : List α) {offset : Nat} (h : offset ≤ block.length) :
    (copyAt block offset input).take (offset + input.length) = block.take offset ++ input := by
  have hlen : (block.take offset ++ input).length = offset + input.length := by
    rw [List.length_append, List.length_take, Nat.min_eq_left h]
  rw [copyAt, ← hlen, List.take_left]

theorem absorbed_rest (hn : 0 < n) {full block : List α} {k : Nat} (hfull : full.length = n * k)
    (hcapacity : n ≤ block.length) (input : List α) (s : σ) {buffer : Buffer σ α}
    (hstate : buffer.state = foldBlocks compress n (foldBlocks compress n s full) input)
    (hlength : buffer.bufferLength = (input.drop (n * (input.length / n))).length)
    (hblock : buffer.block = copyAt block 0 (input.drop (n * (input.length / n)))) :
    Absorbed compress n s (full ++ input) buffer := by
  have hmod : (input.drop (n * (input.length / n))).length = input.length % n := by
    rw [List.length_drop, Nat.mod_eq_sub]
  have hlt := Nat.mod_lt input.length hn
  have htake : (input.take (n * (input.length / n))).length = n * (input.length / n) := by
    rw [List.length_take, Nat.min_eq_left (Nat.mul_div_le _ _)]
  have hsplit : full ++ input = (full ++ input.take (n * (input.length / n))) ++
      input.drop (n * (input.length / n)) := by
    rw [List.append_assoc, List.take_append_drop]
  rw [hsplit]
  apply absorbed_split (k := k + input.length / n) hn
  · rw [List.length_append, hfull, htake, Nat.mul_add]
  · rw [hmod]
    exact hlt
  · exact hlength
  · rw [hstate, foldBlocks_append hn _ s hfull]
    conv_lhs => rw [← List.take_append_drop (n * (input.length / n)) input,
      foldBlocks_append hn _ _ htake, foldBlocks_short _ (hmod.trans_lt hlt)]
  · have h := copyAt_take block (input.drop (n * (input.length / n))) (Nat.zero_le _)
    rw [Nat.zero_add, List.take_zero, List.nil_append] at h
    rw [hblock, h]
  · rw [hblock, copyAt_length (by omega)]
    exact hcapacity

theorem copyAt_nil (block : List α) : copyAt block 0 [] = block := by
  simp [copyAt]

theorem update_of_fill (hn : 0 < n) {full : List α} {k : Nat} (hfull : full.length = n * k)
    {input rest : List α} {filled : Buffer σ α} (hfill : fill compress n buffer input = (filled, rest))
    (hstate : filled.state = foldBlocks compress n s full) (hlength : filled.bufferLength = 0)
    (hcapacity : n ≤ filled.block.length) :
    Absorbed compress n s (full ++ rest) (update compress n buffer input) := by
  unfold update
  dsimp only
  rw [hfill, bulk_eq hn]
  dsimp only
  split_ifs with hrest
  · apply absorbed_rest hn hfull hcapacity rest s (by rw [hstate]) rfl rfl
  · have hnil := List.length_eq_zero_iff.mp (not_not.mp hrest)
    apply absorbed_rest hn hfull hcapacity rest s (by rw [hstate])
    · rw [hnil]
      exact hlength
    · rw [hnil, copyAt_nil]

theorem Absorbed.split (h : Absorbed compress n s xs buffer) :
    ∃ full pending k, xs = full ++ pending ∧ full.length = n * k ∧
      pending.length = buffer.bufferLength ∧ buffer.state = foldBlocks compress n s full ∧
      buffer.block.take buffer.bufferLength = pending := by
  have htake : (xs.take (n * (xs.length / n))).length = n * (xs.length / n) := by
    rw [List.length_take, Nat.min_eq_left (Nat.mul_div_le _ _)]
  have hpending : (xs.drop (n * (xs.length / n))).length = xs.length % n := by
    rw [List.length_drop, Nat.mod_eq_sub]
  refine ⟨xs.take (n * (xs.length / n)), xs.drop (n * (xs.length / n)), xs.length / n,
    (List.take_append_drop _ xs).symm, htake, hpending.trans h.waiting.symm, ?_, h.block⟩
  rw [h.state]
  rcases Nat.eq_zero_or_pos n with rfl | hn
  · simp [foldBlocks, pieces]
  · conv_lhs => rw [← List.take_append_drop (n * (xs.length / n)) xs,
      foldBlocks_append hn _ s htake, foldBlocks_short _ (hpending.trans_lt (Nat.mod_lt _ hn))]

theorem update_absorbed (hn : 0 < n) (h : Absorbed compress n s xs buffer) (input : List α) :
    Absorbed compress n s (xs ++ input) (update compress n buffer input) := by
  obtain ⟨full, pending, k, rfl, hfull, hpending, hstate, hblock⟩ := h.split
  have hlt : buffer.bufferLength < n := by
    rw [h.waiting]
    exact Nat.mod_lt _ hn
  have hcapacity := h.capacity
  by_cases hzero : buffer.bufferLength = 0
  · have hnil : pending = [] := List.length_eq_zero_iff.mp (hpending.trans hzero)
    rw [hnil, List.append_nil]
    exact update_of_fill hn hfull (by rw [fill, if_neg (not_not.mpr hzero)]) hstate hzero hcapacity
  have hroom : buffer.bufferLength ≤ buffer.block.length := hlt.le.trans hcapacity
  by_cases hshort : input.length < n - buffer.bufferLength
  · have hfill : fill compress n buffer input =
        (⟨buffer.state, copyAt buffer.block buffer.bufferLength input,
          buffer.bufferLength + input.length⟩, []) := by
      unfold fill
      rw [if_pos hzero]
      dsimp only
      rw [if_pos hshort, if_neg (by omega), List.take_length, List.drop_length]
    unfold update
    dsimp only
    rw [hfill, bulk_eq hn]
    simp only [List.drop_nil, List.length_nil, ne_eq, not_true_eq_false, if_false]
    rw [List.append_assoc]
    apply absorbed_split hn hfull
    · rw [List.length_append, hpending]
      omega
    · rw [List.length_append, hpending]
    · rw [foldBlocks_short _ hn]
      exact hstate
    · rw [List.length_append, hpending, copyAt_take _ _ hroom, hblock]
    · rw [copyAt_length (by omega)]
      exact hcapacity
  · generalize hcopied : n - buffer.bufferLength = copied at hshort
    have htaken : (input.take copied).length = copied := by
      rw [List.length_take]
      omega
    have hnew : (copyAt buffer.block buffer.bufferLength (input.take copied)).take n =
        pending ++ input.take copied := by
      have htake := copyAt_take buffer.block (input.take copied) hroom
      rw [htaken, hblock] at htake
      rw [← htake]
      congr 1
      omega
    have hfill : fill compress n buffer input =
        (⟨compress buffer.state (pending ++ input.take copied),
          copyAt buffer.block buffer.bufferLength (input.take copied), 0⟩, input.drop copied) := by
      unfold fill
      rw [if_pos hzero]
      dsimp only
      rw [hcopied, if_neg hshort, if_pos (by omega), hnew]
    have hblocklen : (pending ++ input.take copied).length = n := by
      rw [List.length_append, hpending, htaken]
      omega
    have hsplit : full ++ pending ++ input =
        full ++ (pending ++ input.take copied) ++ input.drop copied := by
      rw [List.append_assoc, List.append_assoc, List.append_assoc, List.take_append_drop]
    rw [hsplit]
    apply update_of_fill (k := k + 1) hn _ hfill _ rfl
    · dsimp only
      rw [copyAt_length (by omega)]
      exact hcapacity
    · rw [List.length_append, hfull, hblocklen, Nat.mul_succ]
    · rw [foldBlocks_append hn _ s hfull, foldBlocks_one hn _ hblocklen, hstate]

theorem updates_absorbed (hn : 0 < n) (chunks : List (List α)) {buffer : Buffer σ α}
    (h : Absorbed compress n s xs buffer) :
    Absorbed compress n s (xs ++ chunks.flatten) (chunks.foldl (update compress n) buffer) := by
  induction chunks generalizing xs buffer with
  | nil =>
    rw [List.flatten_nil, List.append_nil]
    exact h
  | cons c chunks ih =>
    rw [List.flatten_cons, ← List.append_assoc]
    exact ih (update_absorbed hn h c)

section Related

variable {τ : Type*} {compress' : τ → List α → τ} {R : σ → τ → Prop} {buffer' : Buffer τ α}

structure Related (R : σ → τ → Prop) (buffer : Buffer σ α) (buffer' : Buffer τ α) : Prop where
  state : R buffer.state buffer'.state
  block : buffer.block = buffer'.block
  bufferLength : buffer.bufferLength = buffer'.bufferLength

theorem fill_related (hstep : ∀ s t x, R s t → R (compress s x) (compress' t x))
    (h : Related R buffer buffer') (input : List α) :
    Related R (fill compress n buffer input).1 (fill compress' n buffer' input).1 ∧
      (fill compress n buffer input).2 = (fill compress' n buffer' input).2 := by
  unfold fill
  dsimp only
  rw [← h.block, ← h.bufferLength]
  split_ifs
  · exact ⟨⟨hstep _ _ _ h.state, rfl, rfl⟩, rfl⟩
  · exact ⟨⟨h.state, rfl, rfl⟩, rfl⟩
  · exact ⟨⟨hstep _ _ _ h.state, rfl, rfl⟩, rfl⟩
  · exact ⟨⟨h.state, rfl, rfl⟩, rfl⟩
  · exact ⟨h, rfl⟩

theorem update_related (hn : 0 < n) (hstep : ∀ s t x, R s t → R (compress s x) (compress' t x))
    (h : Related R buffer buffer') (input : List α) :
    Related R (update compress n buffer input) (update compress' n buffer' input) := by
  obtain ⟨hfilled, hrest⟩ := fill_related (n := n) hstep h input
  unfold update
  dsimp only
  rw [bulk_eq hn, bulk_eq hn, ← hrest, ← hfilled.block, ← hfilled.bufferLength]
  have hstate : R (foldBlocks compress n (fill compress n buffer input).1.state
      (fill compress n buffer input).2) (foldBlocks compress' n
      (fill compress' n buffer' input).1.state (fill compress n buffer input).2) :=
    List.foldl_rel hfilled.state fun x _ s t => hstep s t x
  split_ifs
  · exact ⟨hstate, rfl, rfl⟩
  · exact ⟨hstate, rfl, rfl⟩

theorem updates_related (hn : 0 < n) (hstep : ∀ s t x, R s t → R (compress s x) (compress' t x))
    (chunks : List (List α)) {buffer : Buffer σ α} {buffer' : Buffer τ α}
    (h : Related R buffer buffer') :
    Related R (chunks.foldl (update compress n) buffer)
      (chunks.foldl (update compress' n) buffer') :=
  List.foldl_rel h fun input _ _ _ h => update_related hn hstep h input

end Related

end LiberaCrypt.BlockBuffer
