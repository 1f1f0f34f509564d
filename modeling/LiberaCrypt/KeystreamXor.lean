import LiberaCrypt.ByteMemory

namespace LiberaCrypt.KeystreamXor

open LiberaCrypt.CountedLoop LiberaCrypt.Outcome LiberaCrypt.ByteMemory

variable {σ : Type}

/-- `for (i = 0; i < chunk; ++i) output[i] = input[i] ^ stream[i]`. -/
def xorChunk (stream : List UInt8) (output input chunk : Nat) (memory : Memory) : Memory :=
  countUp chunk (fun i memory =>
    writeByte memory (output + i) (memory.byte (input + i) ^^^ stream.getD i 0)) memory

/-- The loop of the stream modes over pieces of at most `n` bytes. `next` makes the bytes for a
piece, and is told whether another piece follows. -/
def xorLoop (n : Nat) (next : Memory → Bool → σ → Except LiberaCError (List UInt8 × σ))
    (output input length offset : Nat) (s : σ) : OnMemory Unit := fun memory =>
  if _h : 0 < n ∧ offset < length then
    let chunk := if length - offset > n then n else length - offset
    match next memory (offset + chunk < length) s with
    | .error e => (.error e, memory)
    | .ok (stream, s) =>
      xorLoop n next output input length (offset + chunk) s
        (xorChunk stream (output + offset) (input + offset) chunk memory)
  else (.ok (), memory)
termination_by length - offset
decreasing_by
  split <;> omega

def firstBytes (stream : List UInt8) (chunk : Nat) : List UInt8 :=
  (List.range chunk).map fun i => stream.getD i 0

def keystream (n : Nat) (next : Bool → σ → Except LiberaCError (List UInt8 × σ)) (length : Nat)
    (s : σ) : Except LiberaCError (List UInt8) :=
  if _h : 0 < n ∧ 0 < length then
    let chunk := if length > n then n else length
    match next (n < length) s with
    | .error e => .error e
    | .ok (stream, s) => (keystream n next (length - chunk) s).map (firstBytes stream chunk ++ ·)
  else .ok []
termination_by length
decreasing_by
  split <;> omega

def xorBytes (data stream : List UInt8) : List UInt8 := List.zipWith (· ^^^ ·) data stream

def Apart (output input length : Nat) : Prop := output = input ∨ Disjoint output length input length

section Lists

variable {data stream : List UInt8}

@[simp] theorem firstBytes_length (stream : List UInt8) (chunk : Nat) :
    (firstBytes stream chunk).length = chunk := by
  rw [firstBytes, List.length_map, List.length_range]

theorem firstBytes_succ (stream : List UInt8) (chunk : Nat) :
    firstBytes stream (chunk + 1) = firstBytes stream chunk ++ [stream.getD chunk 0] := by
  rw [firstBytes, List.range_succ, List.map_append]
  rfl

theorem xorBytes_length (h : stream.length = data.length) :
    (xorBytes data stream).length = data.length := by
  rw [xorBytes, List.length_zipWith, h, Nat.min_self]

theorem xorBytes_append {data' stream' : List UInt8} (h : data.length = stream.length) :
    xorBytes (data ++ data') (stream ++ stream') = xorBytes data stream ++ xorBytes data' stream' :=
  List.zipWith_append h

theorem xorBytes_twice (h : stream.length = data.length) :
    xorBytes (xorBytes data stream) stream = data := by
  induction data generalizing stream with
  | nil => simp [xorBytes]
  | cons x data ih =>
    cases stream with
    | nil => simp at h
    | cons y stream =>
      have hlength : stream.length = data.length := by simpa using h
      have htail := ih hlength
      simp only [xorBytes, List.zipWith_cons_cons] at htail ⊢
      rw [htail, UInt8.xor_assoc, UInt8.xor_self, UInt8.xor_zero]

theorem xorBytes_take (stream data : List UInt8) :
    xorBytes stream (data.take stream.length) = xorBytes stream data := by
  induction stream generalizing data with
  | nil => rfl
  | cons x stream ih =>
    cases data with
    | nil => rfl
    | cons y data => exact congrArg ((x ^^^ y) :: ·) (ih data)

theorem xorBytes_zeros (data : List UInt8) :
    xorBytes data (List.replicate data.length 0) = data := by
  induction data with
  | nil => rfl
  | cons x data ih =>
    rw [List.length_cons, List.replicate_succ]
    simp only [xorBytes, List.zipWith_cons_cons, UInt8.xor_zero]
    exact congrArg (x :: ·) ih

end Lists

theorem keystream_length {n : Nat} (hn : 0 < n)
    {next : Bool → σ → Except LiberaCError (List UInt8 × σ)} {length : Nat} {s : σ}
    {stream : List UInt8} (h : keystream n next length s = .ok stream) : stream.length = length := by
  induction hlen : length using Nat.strong_induction_on generalizing length s stream with
  | _ len ih =>
  subst hlen
  rw [keystream] at h
  by_cases hpos : 0 < length
  · rw [dif_pos ⟨hn, hpos⟩] at h
    dsimp only at h
    generalize hchunk : (if length > n then n else length) = chunk at h
    have hbound : 0 < chunk ∧ chunk ≤ length := by
      split at hchunk <;> omega
    cases hnext : next (n < length) s with
    | error e =>
      rw [hnext] at h
      cases h
    | ok made =>
      rw [hnext] at h
      dsimp only at h
      cases hrest : keystream n next (length - chunk) made.2 with
      | error e =>
        rw [hrest] at h
        cases h
      | ok rest =>
        rw [hrest] at h
        cases h
        rw [List.length_append, firstBytes_length, ih (length - chunk) (by omega) hrest rfl]
        omega
  · rw [dif_neg fun hboth => hpos hboth.2] at h
    cases h
    rw [List.length_nil]
    omega

theorem keystream_total (n : Nat) (next : Bool → σ → Except LiberaCError (List UInt8 × σ))
    (hnext : ∀ more s, ∃ made, next more s = .ok made) (length : Nat) (s : σ) :
    ∃ stream, keystream n next length s = .ok stream := by
  induction hlen : length using Nat.strong_induction_on generalizing length s with
  | _ len ih =>
  subst hlen
  rw [keystream]
  by_cases hpos : 0 < n ∧ 0 < length
  · obtain ⟨made, hmade⟩ := hnext (n < length) s
    have hshorter : length - (if length > n then n else length) < length := by
      split <;> omega
    obtain ⟨rest, hrest⟩ := ih _ hshorter _ made.2 rfl
    rw [dif_pos hpos, hmade]
    dsimp only
    rw [hrest]
    exact ⟨_, rfl⟩
  · exact ⟨[], dif_neg hpos⟩

section Blocks

variable {ι : Type} {cipher : ι → Except LiberaCError (List UInt8)} {input : σ → ι}
  {advance : σ → σ} {next : Bool → σ → Except LiberaCError (List UInt8 × σ)}

/-- What the cipher makes of its inputs in turn, cut to a length. -/
def encipher (cipher : ι → Except LiberaCError (List UInt8)) (n length : Nat) (inputs : List ι) :
    Except LiberaCError (List UInt8) :=
  (inputs.mapM cipher).map fun streams => (streams.flatMap fun s => firstBytes s n).take length

def inputsFrom (input : σ → ι) (advance : σ → σ) (n length : Nat) (s : σ) : List ι :=
  (List.range ((length + (n - 1)) / n)).map fun i => input (advance^[i] s)

theorem inputsFrom_last {n length : Nat} (hpos : 0 < length) (hle : length ≤ n) (s : σ) :
    inputsFrom input advance n length s = [input s] := by
  have hcount : (length + (n - 1)) / n = 1 :=
    Nat.div_eq_of_lt_le (by omega) (by omega)
  rw [inputsFrom, hcount]
  rfl

theorem inputsFrom_more {n length : Nat} (hn : 0 < n) (hlt : n < length) (s : σ) :
    inputsFrom input advance n length s =
      input s :: inputsFrom input advance n (length - n) (advance s) := by
  have hcount : (length + (n - 1)) / n = (length - n + (n - 1)) / n + 1 := by
    rw [← Nat.add_div_right _ hn]
    congr 1
    omega
  rw [inputsFrom, hcount, List.range_succ_eq_map, List.map_cons, List.map_map, inputsFrom]
  rfl

theorem firstBytes_take (stream : List UInt8) {m n : Nat} (h : m ≤ n) :
    (firstBytes stream n).take m = firstBytes stream m := by
  rw [firstBytes, ← List.map_take, List.take_range, Nat.min_eq_left h, firstBytes]

theorem keystream_eq_encipher {n : Nat} (hn : 0 < n)
    (hmore : ∀ s, next true s = (cipher (input s)).map fun stream => (stream, advance s))
    (hlast : ∀ s, (next false s).map Prod.fst = cipher (input s)) (length : Nat) (s : σ) :
    keystream n next length s = encipher cipher n length (inputsFrom input advance n length s) := by
  induction hlen : length using Nat.strong_induction_on generalizing length s with
  | _ len ih =>
  subst hlen
  rw [keystream]
  by_cases hpos : 0 < length
  · rw [dif_pos ⟨hn, hpos⟩]
    dsimp only
    by_cases hlt : n < length
    · rw [decide_eq_true hlt, hmore, if_pos hlt, inputsFrom_more hn hlt, encipher, List.mapM_cons]
      cases cipher (input s) with
      | error e => rfl
      | ok stream =>
        have hrest := ih (length - n) (by omega) (length - n) (advance s) rfl
        simp only [Except.map]
        rw [hrest, encipher]
        cases (inputsFrom input advance n (length - n) (advance s)).mapM cipher with
        | error e => rfl
        | ok streams =>
          have htake : ((stream :: streams).flatMap fun s => firstBytes s n).take length =
              firstBytes stream n ++ (streams.flatMap fun s => firstBytes s n).take (length - n) := by
            rw [List.flatMap_cons, List.take_append, firstBytes_length,
              List.take_of_length_le (by rw [firstBytes_length]; omega)]
          exact congrArg Except.ok htake.symm
    · have hle : length ≤ n := not_lt.mp hlt
      rw [decide_eq_false hlt, if_neg hlt, inputsFrom_last hpos hle, encipher, List.mapM_cons,
        ← hlast s]
      cases next false s with
      | error e => rfl
      | ok made =>
        simp only [Except.map, Nat.sub_self]
        rw [keystream, dif_neg (by omega)]
        have htake : ([made.1].flatMap fun s => firstBytes s n).take length =
            firstBytes made.1 length ++ [] := by
          rw [List.flatMap_singleton, firstBytes_take _ hle, List.append_nil]
        exact congrArg Except.ok htake.symm
  · have hzero : length = 0 := by omega
    have hcount : (0 + (n - 1)) / n = 0 := Nat.div_eq_of_lt (by omega)
    rw [dif_neg (by omega), hzero, encipher, inputsFrom, hcount]
    rfl

end Blocks

theorem xorChunk_eq {output input chunk : Nat} (h : Apart output input chunk)
    (stream : List UInt8) (memory : Memory) :
    xorChunk stream output input chunk memory = writeBytes memory output
      (xorBytes (readBytes memory input chunk) (firstBytes stream chunk)) := by
  refine countUp_invariant (fun i after => after = writeBytes memory output
    (xorBytes (readBytes memory input i) (firstBytes stream i))) ?_ ?_
  · simp [xorBytes, readBytes]
  · rintro i hi - rfl
    have hlength : (xorBytes (readBytes memory input i) (firstBytes stream i)).length = i := by
      rw [xorBytes_length (by simp), readBytes_length]
    have hread : (writeBytes memory output
        (xorBytes (readBytes memory input i) (firstBytes stream i))).byte (input + i) =
        memory.byte (input + i) := by
      apply writeBytes_outside
      intro j hj heq
      rw [hlength] at hj
      cases h with
      | inl hsame => omega
      | inr hdisjoint => exact hdisjoint j (by omega) i hi heq
    have hone : readBytes memory (input + i) 1 = [memory.byte (input + i)] := rfl
    have happend := write_append memory output
      (xorBytes (readBytes memory input i) (firstBytes stream i))
      [memory.byte (input + i) ^^^ stream.getD i 0]
    rw [hlength] at happend
    rw [hread, writeByte_eq, happend, readBytes_add, hone, firstBytes_succ, xorBytes_append (by simp)]
    rfl

section Loop

variable {n : Nat} {next : Memory → Bool → σ → Except LiberaCError (List UInt8 × σ)}
  {output input length : Nat} {memory : Memory}

theorem apart_shift (h : Apart output input length) {offset chunk : Nat}
    (hbound : offset + chunk ≤ length) : Apart (output + offset) (input + offset) chunk := by
  cases h with
  | inl hsame => exact .inl (by rw [hsame])
  | inr hdisjoint =>
    right
    intro i hi j hj
    rw [Nat.add_assoc, Nat.add_assoc]
    exact hdisjoint (offset + i) (by omega) (offset + j) (by omega)

/-- What is not yet read of the input is not changed by what has been written. -/
theorem read_rest (h : Apart output input length) {written : List UInt8} {m : Nat}
    (hbound : written.length + m ≤ length) :
    readBytes (writeBytes memory output written) (input + written.length) m =
      readBytes memory (input + written.length) m := by
  apply read_write_disjoint
  intro i hi j hj
  cases h with
  | inl hsame => omega
  | inr hdisjoint =>
    rw [Nat.add_assoc]
    exact hdisjoint i (by omega) (written.length + j) (by omega)

/-- The loop from any offset: it writes over the output only, and when it succeeds the rest of the
input is there under the mask. -/
theorem xorLoop_spec (hn : 0 < n) (hapart : Apart output input length)
    (hstable : ∀ bytes, bytes.length ≤ length → next (writeBytes memory output bytes) = next memory)
    {written : List UInt8} (hwritten : written.length ≤ length) (s : σ) :
    ∃ bytes, bytes.length ≤ length ∧
      xorLoop n next output input length written.length s (writeBytes memory output written) =
        ((keystream n (next memory) (length - written.length) s).map fun _ => (),
          writeBytes memory output bytes) ∧
      ∀ stream, keystream n (next memory) (length - written.length) s = .ok stream →
        bytes = written ++
          xorBytes (readBytes memory (input + written.length) (length - written.length)) stream := by
  induction hlen : length - written.length using Nat.strong_induction_on
    generalizing written s with
  | _ len ih =>
  subst hlen
  rw [xorLoop, keystream]
  by_cases hpos : written.length < length
  · rw [dif_pos ⟨hn, hpos⟩, dif_pos ⟨hn, Nat.sub_pos_of_lt hpos⟩]
    dsimp only
    generalize hchunk :
      (if length - written.length > n then n else length - written.length) = chunk
    have hbound : 0 < chunk ∧ written.length + chunk ≤ length := by
      split at hchunk <;> omega
    have hmore : decide (written.length + chunk < length) = decide (n < length - written.length) := by
      apply decide_eq_decide.mpr
      split at hchunk <;> omega
    rw [hstable written hwritten, hmore]
    cases hnext : next memory (decide (n < length - written.length)) s with
    | error e => exact ⟨written, hwritten, rfl, fun stream hstream => by cases hstream⟩
    | ok made =>
      dsimp only
      have hchunkread : readBytes (writeBytes memory output written) (input + written.length) chunk =
        readBytes memory (input + written.length) chunk := read_rest hapart hbound.2
      generalize hpiece : xorBytes (readBytes memory (input + written.length) chunk)
        (firstBytes made.1 chunk) = piece
      have hpiecelen : piece.length = chunk := by
        rw [← hpiece, xorBytes_length (by simp), readBytes_length]
      have hstep : xorChunk made.1 (output + written.length) (input + written.length) chunk
          (writeBytes memory output written) = writeBytes memory output (written ++ piece) := by
        rw [xorChunk_eq (apart_shift hapart hbound.2), hchunkread, hpiece, write_append]
      have htotal : (written ++ piece).length = written.length + chunk := by
        rw [List.length_append, hpiecelen]
      obtain ⟨bytes, hbytes, hrun, hok⟩ :=
        ih (length - (written ++ piece).length) (by omega) (by omega) made.2 rfl
      rw [htotal] at hrun hok
      have hremain : length - (written.length + chunk) = length - written.length - chunk := by omega
      rw [hremain] at hrun hok
      refine ⟨bytes, hbytes, ?_, ?_⟩
      · rw [hstep, hrun]
        cases keystream n (next memory) (length - written.length - chunk) made.2 <;> rfl
      · intro stream hstream
        cases hrest : keystream n (next memory) (length - written.length - chunk) made.2 with
        | error e =>
          rw [hrest] at hstream
          cases hstream
        | ok rest =>
          rw [hrest] at hstream
          cases hstream
          have hsplit := readBytes_add memory (input + written.length) chunk
            (length - written.length - chunk)
          rw [show chunk + (length - written.length - chunk) = length - written.length by omega]
            at hsplit
          rw [hok rest hrest, hsplit, xorBytes_append (by simp), hpiece, List.append_assoc,
            Nat.add_assoc]
  · have hdone : length - written.length = 0 := by omega
    rw [dif_neg fun hboth => hpos hboth.2, dif_neg fun hboth => by omega]
    refine ⟨written, hwritten, rfl, ?_⟩
    intro stream hstream
    cases hstream
    rw [hdone]
    simp [xorBytes, readBytes]

theorem xorLoop_run (hn : 0 < n) (hapart : Apart output input length)
    (hstable : ∀ bytes, bytes.length ≤ length → next (writeBytes memory output bytes) = next memory)
    (s : σ) :
    ∃ bytes, bytes.length ≤ length ∧
      xorLoop n next output input length 0 s memory =
        ((keystream n (next memory) length s).map fun _ => (), writeBytes memory output bytes) ∧
      ∀ stream, keystream n (next memory) length s = .ok stream →
        bytes = xorBytes (readBytes memory input length) stream := by
  have hempty : ([] : List UInt8).length ≤ length := Nat.zero_le _
  have hrun := xorLoop_spec hn hapart hstable hempty s
  simpa using hrun

end Loop

end LiberaCrypt.KeystreamXor
