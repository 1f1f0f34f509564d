import LiberaCrypt.ChaCha20Poly1305
import LiberaCrypt.Def

namespace LiberaCrypt.StreamCipher

open LiberaCrypt.ByteMemory LiberaCrypt.ChaCha20 LiberaCrypt.CountedLoop LiberaCrypt.Def
open LiberaCrypt.Endian LiberaCrypt.KeystreamXor LiberaCrypt.Outcome

/-- The pointers of a call, the lengths that go with them and the initial counter. -/
structure StreamRequest where
  output : Nat
  outputCapacity : Nat
  input : Nat
  inputLength : Nat
  key : Nat
  keyLength : Nat
  nonce : Nat
  nonceLength : Nat
  initialCounter : UInt32

def streamCipherAlgorithmValid (alg : LiberaCAlgID) : Bool := alg = .chacha20

def streamCipherCheck (r : StreamRequest) (alg : LiberaCAlgID) : Except LiberaCError Unit :=
  if ¬ streamCipherAlgorithmValid alg then .error .invalidAlgId
  else if r.key = 0 ∨ r.nonce = 0 ∨ (r.input = 0 ∧ r.inputLength ≠ 0) ∨
      (r.output = 0 ∧ r.inputLength ≠ 0) then
    .error .invalidArgument
  else if r.keyLength ≠ 32 then .error .invalidKey
  else if r.nonceLength ≠ 12 then .error .invalidArgument
  else if r.outputCapacity < r.inputLength then .error .bufferTooSmall
  else if r.output ≠ r.input ∧ cryptoRangesOverlap r.output r.inputLength r.input r.inputLength then
    .error .invalidArgument
  else if cryptoRangesOverlap r.output r.inputLength r.key 32 ∨
      cryptoRangesOverlap r.output r.inputLength r.nonce 12 then
    .error .invalidArgument
  else .ok ()

def liberacStreamCipherXor (r : StreamRequest) (alg : LiberaCAlgID) : OnMemory Unit := do
  compute (streamCipherCheck r alg)
  compute (cryptoChacha20ValidateLength r.inputLength r.initialCounter)
  cryptoChacha20XorInternal r.output r.input r.inputLength r.key r.nonce r.initialCounter

section Stream

def blocksOf (length : Nat) : Nat := (length + 63) / 64

def chachaStream (key nonce : List UInt8) (counter length : Nat) : List UInt8 :=
  ((List.range (blocksOf length)).flatMap fun i =>
    cryptoChacha20BlockInternal key nonce (UInt32.ofNat (counter + i))).take length

def Fits (r : StreamRequest) : Prop :=
  r.initialCounter.toNat + blocksOf r.inputLength ≤ 2 ^ 32

variable (key nonce : List UInt8) {counter : Nat}

theorem block_length (initial : Vector UInt32 16) (counter : UInt32) :
    (chacha20BlockFromState initial counter).length = 64 := by
  simp [chacha20BlockFromState, cryptoStore32Le]

theorem firstBytes_all {stream : List UInt8} {n : Nat} (h : stream.length = n) :
    firstBytes stream n = stream := by
  apply List.ext_getElem (by rw [firstBytes_length, h])
  intro i hi hi'
  simp [firstBytes, hi']

theorem counter_iterate (c : UInt32) (i : Nat) :
    (fun c : UInt32 => c + 1)^[i] c = UInt32.ofNat (c.toNat + i) := by
  induction i with
  | zero => exact (UInt32.ofNat_toNat).symm
  | succ i ih =>
    rw [Function.iterate_succ_apply', ih, ← Nat.add_assoc, UInt32.ofNat_add (c.toNat + i)]
    rfl

theorem blocks_length (counter n : Nat) :
    ((List.range n).flatMap fun i =>
      cryptoChacha20BlockInternal key nonce (UInt32.ofNat (counter + i))).length = 64 * n := by
  induction n with
  | zero => rfl
  | succ n ih =>
    rw [List.range_succ, List.flatMap_append, List.length_append, ih, List.flatMap_singleton,
      cryptoChacha20BlockInternal, block_length]
    rfl

theorem chachaStream_length (counter length : Nat) :
    (chachaStream key nonce counter length).length = length := by
  rw [chachaStream, List.length_take, blocks_length, blocksOf]
  omega

theorem keystream_chacha (c : UInt32) (length : Nat) :
    keystream 64 (chacha20Next (chacha20InitialState key nonce)) length c =
      .ok (chachaStream key nonce c.toNat length) := by
  have hblocks : keystream 64 (chacha20Next (chacha20InitialState key nonce)) length c =
      encipher (fun counter => .ok (cryptoChacha20BlockInternal key nonce counter)) 64 length
        (inputsFrom id (· + 1) 64 length c) := by
    apply keystream_eq_encipher (by decide)
    · intro counter
      rfl
    · intro counter
      rfl
  have hpure : ∀ inputs : List UInt32,
      inputs.mapM (fun counter => (.ok (cryptoChacha20BlockInternal key nonce counter) :
        Except LiberaCError (List UInt8))) =
        .ok (inputs.map (cryptoChacha20BlockInternal key nonce)) :=
    fun inputs => List.mapM_pure
  have hwhole : ∀ counter, firstBytes (cryptoChacha20BlockInternal key nonce counter) 64 =
      cryptoChacha20BlockInternal key nonce counter :=
    fun counter => firstBytes_all (block_length _ _)
  rw [hblocks, encipher, hpure, inputsFrom, List.map_map]
  simp only [Except.map, List.flatMap_map, Function.comp_apply, id_eq, counter_iterate, hwhole]
  rfl

theorem chachaStream_append (counter k length : Nat) :
    chachaStream key nonce counter (64 * k + length) =
      chachaStream key nonce counter (64 * k) ++ chachaStream key nonce (counter + k) length := by
  have hwhole : blocksOf (64 * k) = k := by
    rw [blocksOf]
    omega
  have hblocks : blocksOf (64 * k + length) = k + blocksOf length := by
    rw [blocksOf, blocksOf]
    omega
  have hfirst := blocks_length key nonce counter k
  rw [chachaStream, chachaStream, chachaStream, hblocks, hwhole, List.range_add,
    List.flatMap_append, List.take_append, hfirst, List.take_of_length_le (by omega),
    List.take_of_length_le hfirst.le, Nat.add_sub_cancel_left, List.flatMap_map]
  simp only [Nat.add_assoc]

end Stream

section Calls

variable {r : StreamRequest} {alg : LiberaCAlgID} {k : Nat}

structure Checked (r : StreamRequest) : Prop where
  key : r.key ≠ 0
  nonce : r.nonce ≠ 0
  input : r.input = 0 → r.inputLength = 0
  output : r.output = 0 → r.inputLength = 0
  keyLength : r.keyLength = 32
  nonceLength : r.nonceLength = 12
  capacity : r.inputLength ≤ r.outputCapacity
  apart : Apart r.output r.input r.inputLength
  apartKey : Disjoint r.output r.inputLength r.key 32
  apartNonce : Disjoint r.output r.inputLength r.nonce 12

theorem streamCipherCheck_iff :
    streamCipherCheck r alg = .ok () ↔ alg = .chacha20 ∧ Checked r := by
  unfold streamCipherCheck streamCipherAlgorithmValid
  constructor
  · intro h
    split_ifs at h with halg hnull hkey hnonce hcapacity hinput hapart
    simp only [not_or, not_and, not_not, Bool.not_eq_true, cryptoRangesOverlap_iff,
      decide_eq_true_eq] at halg hnull hkey hnonce hcapacity hinput hapart
    refine ⟨halg, hnull.1, hnull.2.1, hnull.2.2.1, hnull.2.2.2, hkey, hnonce, not_lt.mp hcapacity,
      ?_, hapart.1, hapart.2⟩
    by_cases hsame : r.output = r.input
    · exact .inl hsame
    · exact .inr (hinput hsame)
  · rintro ⟨rfl, h⟩
    have hkey := (cryptoRangesOverlap_iff _ _ _ _).mpr h.apartKey
    have hnonce := (cryptoRangesOverlap_iff _ _ _ _).mpr h.apartNonce
    have hinput : ¬ (r.output ≠ r.input ∧
        cryptoRangesOverlap r.output r.inputLength r.input r.inputLength = true) := by
      rintro ⟨hne, hoverlap⟩
      rw [(cryptoRangesOverlap_iff _ _ _ _).mpr (h.apart.resolve_left hne)] at hoverlap
      cases hoverlap
    have hnull : ¬ (r.key = 0 ∨ r.nonce = 0 ∨ (r.input = 0 ∧ r.inputLength ≠ 0) ∨
        (r.output = 0 ∧ r.inputLength ≠ 0)) := by
      rintro (hnull | hnull | hnull | hnull)
      · exact h.key hnull
      · exact h.nonce hnull
      · exact hnull.2 (h.input hnull.1)
      · exact hnull.2 (h.output hnull.1)
    rw [if_neg (by decide), if_neg hnull, if_neg (not_not.mpr h.keyLength),
      if_neg (not_not.mpr h.nonceLength), if_neg (not_lt.mpr h.capacity), if_neg hinput, hkey,
      hnonce]
    simp

/-- A length passes exactly when no counter of its blocks wraps. -/
theorem validateLength_eq (length : Nat) (c : UInt32) :
    cryptoChacha20ValidateLength length c =
      if c.toNat + blocksOf length ≤ 2 ^ 32 then .ok () else .error .messageTooLarge := by
  have hc := c.toNat_lt
  have hblocks : (if length % 64 ≠ 0 then length / 64 + 1 else length / 64) = blocksOf length := by
    rw [blocksOf]
    split_ifs <;> omega
  unfold cryptoChacha20ValidateLength
  dsimp only
  rw [hblocks]
  by_cases hfits : c.toNat + blocksOf length ≤ 2 ^ 32
  · rw [if_pos hfits, if_neg (by omega)]
  · rw [if_neg hfits, if_pos (by omega)]

def streamOf (r : StreamRequest) (memory : Memory) : List UInt8 :=
  chachaStream (readBytes memory r.key 32) (readBytes memory r.nonce 12) r.initialCounter.toNat
    r.inputLength

def masked (r : StreamRequest) (memory : Memory) : Memory :=
  writeBytes memory r.output (xorBytes (readBytes memory r.input r.inputLength) (streamOf r memory))

theorem streamXor_run (h : Checked r) (hfits : Fits r) (memory : Memory) :
    liberacStreamCipherXor r .chacha20 memory = (.ok (), masked r memory) := by
  have hstream := keystream_chacha (readBytes memory r.key 32) (readBytes memory r.nonce 12)
    r.initialCounter r.inputLength
  obtain ⟨bytes, -, hrun, hbytes⟩ := @xorLoop_run _ 64
    (fun _ => chacha20Next (chacha20InitialState (readBytes memory r.key 32)
      (readBytes memory r.nonce 12))) _ _ _ memory (by decide) h.apart (fun _ _ => rfl)
    r.initialCounter
  rw [hstream, hbytes _ hstream] at hrun
  have hlength : cryptoChacha20ValidateLength r.inputLength r.initialCounter = .ok () :=
    (validateLength_eq _ _).trans (if_pos hfits)
  rw [liberacStreamCipherXor, streamCipherCheck_iff.mpr ⟨rfl, h⟩, compute_ok_bind, hlength,
    compute_ok_bind, cryptoChacha20XorInternal, hlength, compute_ok_bind, load_bind, load_bind]
  exact hrun

theorem streamXor_tooLong (h : Checked r) (hfits : ¬ Fits r) (memory : Memory) :
    liberacStreamCipherXor r .chacha20 memory = (.error .messageTooLarge, memory) := by
  have hlength : cryptoChacha20ValidateLength r.inputLength r.initialCounter =
      .error .messageTooLarge := (validateLength_eq _ _).trans (if_neg hfits)
  rw [liberacStreamCipherXor, streamCipherCheck_iff.mpr ⟨rfl, h⟩, compute_ok_bind, hlength,
    compute_error_bind]

theorem masked_length (r : StreamRequest) (memory : Memory) :
    (xorBytes (readBytes memory r.input r.inputLength) (streamOf r memory)).length =
      r.inputLength := by
  rw [xorBytes_length (by rw [streamOf, chachaStream_length, readBytes_length]), readBytes_length]

def StreamRequest.first (r : StreamRequest) (k : Nat) : StreamRequest :=
  { r with inputLength := 64 * k }

/-- The part of a call after a number of whole blocks, with the counter advanced by them. -/
def StreamRequest.rest (r : StreamRequest) (k : Nat) : StreamRequest :=
  { r with
    output := r.output + 64 * k
    outputCapacity := r.outputCapacity - 64 * k
    input := r.input + 64 * k
    inputLength := r.inputLength - 64 * k
    initialCounter := r.initialCounter + UInt32.ofNat k }

theorem Checked.first (h : Checked r) (hk : 64 * k ≤ r.inputLength) : Checked (r.first k) where
  key := h.key
  nonce := h.nonce
  input hnull := by
    have hzero := h.input hnull
    change 64 * k = 0
    omega
  output hnull := by
    have hzero := h.output hnull
    change 64 * k = 0
    omega
  keyLength := h.keyLength
  nonceLength := h.nonceLength
  capacity := hk.trans h.capacity
  apart := by
    have hapart := apart_shift h.apart (show 0 + 64 * k ≤ r.inputLength by omega)
    exact hapart
  apartKey := disjoint_shorter h.apartKey hk
  apartNonce := disjoint_shorter h.apartNonce hk

theorem disjoint_later {first firstLength second secondLength : Nat}
    (h : Disjoint first firstLength second secondLength) {offset : Nat}
    (hoffset : offset ≤ firstLength) :
    Disjoint (first + offset) (firstLength - offset) second secondLength := by
  intro i hi j hj
  rw [Nat.add_assoc]
  exact h (offset + i) (by omega) j hj

theorem Checked.rest (h : Checked r) (hk : 64 * k < r.inputLength) : Checked (r.rest k) where
  key := h.key
  nonce := h.nonce
  input hnull := by
    have hzero := h.input (Nat.eq_zero_of_add_eq_zero_right hnull)
    omega
  output hnull := by
    have hzero := h.output (Nat.eq_zero_of_add_eq_zero_right hnull)
    omega
  keyLength := h.keyLength
  nonceLength := h.nonceLength
  capacity := Nat.sub_le_sub_right h.capacity _
  apart := apart_shift h.apart (by simp only [StreamRequest.rest]; omega)
  apartKey := disjoint_later h.apartKey hk.le
  apartNonce := disjoint_later h.apartNonce hk.le

/-- A counter that still has a block to come does not wrap. -/
theorem rest_counter (hfits : Fits r) (hk : 64 * k < r.inputLength) :
    (r.rest k).initialCounter.toNat = r.initialCounter.toNat + k := by
  unfold Fits blocksOf at hfits
  have hsmall : (UInt32.ofNat k).toNat = k :=
    UInt32.toNat_ofNat_of_lt' (by change k < 2 ^ 32; omega)
  have hsum : (r.initialCounter + UInt32.ofNat k).toNat = r.initialCounter.toNat + k := by
    rw [UInt32.toNat_add, hsmall, Nat.mod_eq_of_lt (by omega)]
  exact hsum

theorem Fits.first (hfits : Fits r) (hk : 64 * k < r.inputLength) : Fits (r.first k) := by
  unfold Fits blocksOf at *
  simp only [StreamRequest.first]
  omega

theorem Fits.rest (hfits : Fits r) (hk : 64 * k < r.inputLength) : Fits (r.rest k) := by
  have hcounter := rest_counter hfits hk
  unfold Fits blocksOf at *
  rw [hcounter]
  simp only [StreamRequest.rest]
  omega

theorem masked_split (h : Checked r) (hfits : Fits r) (hk : 64 * k < r.inputLength)
    (memory : Memory) : masked (r.rest k) (masked (r.first k) memory) = masked r memory := by
  have hlength := masked_length (r.first k) memory
  have hwritten : (xorBytes (readBytes memory (r.first k).input (r.first k).inputLength)
      (streamOf (r.first k) memory)).length = 64 * k := hlength
  have hkey : readBytes (masked (r.first k) memory) r.key 32 = readBytes memory r.key 32 := by
    apply read_write_disjoint
    rw [hlength]
    exact (h.first hk.le).apartKey
  have hnonce : readBytes (masked (r.first k) memory) r.nonce 12 = readBytes memory r.nonce 12 := by
    apply read_write_disjoint
    rw [hlength]
    exact (h.first hk.le).apartNonce
  have hinput : readBytes (masked (r.first k) memory) (r.input + 64 * k) (r.inputLength - 64 * k) =
      readBytes memory (r.input + 64 * k) (r.inputLength - 64 * k) := by
    have hrest := @read_rest _ _ _ memory h.apart (xorBytes (readBytes memory (r.first k).input
      (r.first k).inputLength) (streamOf (r.first k) memory)) (r.inputLength - 64 * k) (by omega)
    rw [hwritten] at hrest
    exact hrest
  have hstream : streamOf r memory =
      streamOf (r.first k) memory ++ streamOf (r.rest k) (masked (r.first k) memory) := by
    have hcounter := rest_counter hfits hk
    have happend := chachaStream_append (readBytes memory r.key 32) (readBytes memory r.nonce 12)
      r.initialCounter.toNat k (r.inputLength - 64 * k)
    rw [Nat.add_sub_cancel' hk.le] at happend
    rw [streamOf, happend, streamOf, streamOf, hcounter]
    simp only [StreamRequest.first, StreamRequest.rest] at hkey hnonce ⊢
    rw [hkey, hnonce]
  have hread : readBytes memory r.input r.inputLength =
      readBytes memory r.input (64 * k) ++
        readBytes memory (r.input + 64 * k) (r.inputLength - 64 * k) := by
    rw [← readBytes_add, Nat.add_sub_cancel' hk.le]
  have hpart : (readBytes memory r.input (64 * k)).length = (streamOf (r.first k) memory).length := by
    rw [readBytes_length, streamOf, chachaStream_length]
    rfl
  have happend := write_append memory r.output
    (xorBytes (readBytes memory (r.first k).input (r.first k).inputLength)
      (streamOf (r.first k) memory))
    (xorBytes (readBytes memory (r.input + 64 * k) (r.inputLength - 64 * k))
      (streamOf (r.rest k) (masked (r.first k) memory)))
  rw [hwritten] at happend
  conv_rhs => rw [masked, hstream, hread, xorBytes_append hpart]
  rw [← hinput] at happend ⊢
  exact happend

/-- A second call masks the output of the first with the same stream. -/
structure Answers (back r : StreamRequest) (memory : Memory) : Prop where
  checked : Checked back
  input : back.input = r.output
  inputLength : back.inputLength = r.inputLength
  initialCounter : back.initialCounter = r.initialCounter
  key : readBytes (masked r memory) back.key 32 = readBytes memory r.key 32
  nonce : readBytes (masked r memory) back.nonce 12 = readBytes memory r.nonce 12

theorem masked_back {back : StreamRequest} {memory : Memory} (h : Answers back r memory) :
    masked back (masked r memory) =
      writeBytes (masked r memory) back.output (readBytes memory r.input r.inputLength) := by
  have hstream : streamOf back (masked r memory) = streamOf r memory := by
    rw [streamOf, streamOf, h.key, h.nonce, h.inputLength, h.initialCounter]
  have hread : readBytes (masked r memory) back.input back.inputLength =
      xorBytes (readBytes memory r.input r.inputLength) (streamOf r memory) := by
    have hwritten := read_write memory r.output (xorBytes (readBytes memory r.input r.inputLength)
      (streamOf r memory))
    rw [masked_length] at hwritten
    rw [h.input, h.inputLength]
    exact hwritten
  rw [masked, hread, hstream, xorBytes_twice]
  rw [streamOf, chachaStream_length, readBytes_length]

/-- The counters that the loop of a call hands to the block function. -/
def countersOf (r : StreamRequest) : List UInt32 :=
  inputsFrom id (· + 1) 64 r.inputLength r.initialCounter

theorem countersOf_toNat (hfits : Fits r) :
    (countersOf r).map UInt32.toNat =
      (List.range (blocksOf r.inputLength)).map (r.initialCounter.toNat + ·) := by
  rw [countersOf, inputsFrom, List.map_map]
  apply List.map_congr_left
  intro i hi
  have hi' : i < blocksOf r.inputLength := List.mem_range.mp hi
  unfold Fits at hfits
  change ((fun c : UInt32 => c + 1)^[i] r.initialCounter).toNat = _
  rw [counter_iterate]
  exact UInt32.toNat_ofNat_of_lt' (by change _ < 2 ^ 32; omega)

def both (first second : StreamRequest) (alg : LiberaCAlgID) : OnMemory Unit := do
  liberacStreamCipherXor first alg
  liberacStreamCipherXor second alg

theorem both_run {first second : StreamRequest} (hfirst : Checked first) (hfits : Fits first)
    (hsecond : Checked second) (hfits' : Fits second) (memory : Memory) :
    both first second .chacha20 memory = (.ok (), masked second (masked first memory)) := by
  have h := streamXor_run hfirst hfits memory
  have h' := streamXor_run hsecond hfits' (masked first memory)
  exact (bind_ok h).trans h'

theorem streamXor_accepts (memory : Memory) :
    (liberacStreamCipherXor r alg memory).1 = .ok () ↔
      streamCipherCheck r alg = .ok () ∧ Fits r := by
  by_cases hcheck : streamCipherCheck r alg = .ok ()
  · obtain ⟨rfl, h⟩ := streamCipherCheck_iff.mp hcheck
    by_cases hfits : Fits r
    · rw [streamXor_run h hfits]
      simp [hcheck, hfits]
    · rw [streamXor_tooLong h hfits]
      simp [hfits]
  · cases herror : streamCipherCheck r alg with
    | ok u => exact absurd herror hcheck
    | error e =>
      rw [liberacStreamCipherXor, herror, compute_error_bind]
      simp

end Calls

/-- Every accepted call uses counters that do not wrap and every one that fits is accepted; the
same call on the output gives the input back, and the calls on the two parts of an input, cut after
whole blocks, do what the call on the whole does. -/
theorem chacha20_stream_laws (r : StreamRequest) (alg : LiberaCAlgID) (memory : Memory) :
    ((liberacStreamCipherXor r alg memory).1 = .ok () ↔
        streamCipherCheck r alg = .ok () ∧
          r.initialCounter.toNat + (r.inputLength + 63) / 64 ≤ 2 ^ 32) ∧
      ((liberacStreamCipherXor r alg memory).1 = .ok () →
        liberacStreamCipherXor r alg memory = (.ok (), masked r memory) ∧
        (countersOf r).map UInt32.toNat =
          (List.range ((r.inputLength + 63) / 64)).map (r.initialCounter.toNat + ·) ∧
        (∀ back : StreamRequest, Answers back r memory →
          both r back alg memory = (.ok (), writeBytes (masked r memory) back.output
            (readBytes memory r.input r.inputLength))) ∧
        ∀ k, 64 * k < r.inputLength →
          (r.rest k).initialCounter.toNat = r.initialCounter.toNat + k ∧
          both (r.first k) (r.rest k) alg memory = liberacStreamCipherXor r alg memory) := by
  refine ⟨streamXor_accepts memory, fun haccepted => ?_⟩
  obtain ⟨hcheck, hfits⟩ := (streamXor_accepts memory).mp haccepted
  obtain ⟨rfl, h⟩ := streamCipherCheck_iff.mp hcheck
  have hrun := streamXor_run h hfits memory
  refine ⟨hrun, countersOf_toNat hfits, ?_, ?_⟩
  · intro back hback
    have hfits' : Fits back := by
      unfold Fits at *
      rwa [hback.initialCounter, hback.inputLength]
    rw [both_run h hfits hback.checked hfits', masked_back hback]
  · intro k hk
    refine ⟨rest_counter hfits hk, ?_⟩
    rw [hrun, both_run (h.first hk.le) (hfits.first hk) (h.rest hk) (hfits.rest hk),
      masked_split h hfits hk]

def lastCounters : StreamRequest := ⟨16, 128, 16, 128, 256, 32, 320, 12, 0xfffffffe⟩

theorem chacha20_stream_laws_last :
    (liberacStreamCipherXor lastCounters .chacha20 ⟨fun _ => 0⟩).1 = .ok () :=
  (chacha20_stream_laws lastCounters .chacha20 ⟨fun _ => 0⟩).1.mpr ⟨by decide, by decide⟩

end LiberaCrypt.StreamCipher
