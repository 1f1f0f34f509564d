import LiberaCrypt.MlKemAuxiliary
import LiberaCrypt.Sha3Streaming

namespace LiberaCrypt.MlKemSampleNtt

open LiberaCrypt.CountedLoop LiberaCrypt.SmallInt LiberaCrypt.MlKemReduce LiberaCrypt.MlKemNtt
  LiberaCrypt.MlKemAuxiliary LiberaCrypt.Sha3 LiberaCrypt.Keccak LiberaCrypt.Sha3Streaming

def xofInit : CryptoSha3Context := sha3ContextInit 168 0x1f

def xofAbsorb (context : CryptoSha3Context) (input : List UInt8) : CryptoSha3Context :=
  cryptoSha3Update context input

def xofSqueeze (context : CryptoSha3Context) (outputLength : Nat) :
    List UInt8 × CryptoSha3Context :=
  cryptoSha3Squeeze context outputLength

/-- The rejection loop over the blocks that are squeezed; `none` when `fuel` runs out. -/
def squeezeLoop : Nat → CryptoSha3Context → Poly Int32 × Nat → Option (Poly Int32)
  | 0, _, _ => none
  | fuel + 1, context, s =>
    if s.2 < 256 then
      let squeezed := xofSqueeze context 168
      squeezeLoop fuel squeezed.2 (sampleBlock (fun offset => squeezed.1.getD offset 0) s)
    else some s.1

def sampleNttOf (input : List UInt8) (fuel : Nat) (output : Poly Int32) : Option (Poly Int32) :=
  squeezeLoop fuel (xofAbsorb xofInit input) (output, 0)

def candidate (stream : Nat → UInt8) (k : Nat) : Nat :=
  let offset := 3 * (k / 2)
  if k % 2 = 0 then (stream offset).toNat + 256 * ((stream (offset + 1)).toNat % 16)
  else (stream (offset + 1)).toNat / 16 + 16 * (stream (offset + 2)).toNat

/-- Those of the first `n` candidates that are accepted. -/
def accepted (stream : Nat → UInt8) (n : Nat) : List Nat :=
  ((List.range n).map (candidate stream)).filter (· < 3329)

/-- One round of Algorithm 7 of the standard, on the three bytes with number `round`. -/
def sampleRound (stream : Nat → UInt8) (round : Nat) (a : List Nat) : List Nat :=
  let d1 := (stream (3 * round)).toNat + 256 * ((stream (3 * round + 1)).toNat % 16)
  let d2 := (stream (3 * round + 1)).toNat / 16 + 16 * (stream (3 * round + 2)).toNat
  let a := if d1 < 3329 then a ++ [d1] else a
  if d2 < 3329 ∧ a.length < 256 then a ++ [d2] else a

/-- Algorithm 7 from a round on: the coefficients, and the number of rounds made. -/
def sampleRounds (stream : Nat → UInt8) : Nat → Nat → List Nat → Option (List Nat × Nat)
  | 0, _, _ => none
  | fuel + 1, round, a =>
    if a.length < 256 then sampleRounds stream fuel (round + 1) (sampleRound stream round a)
    else some (a, round)

section Rounds

variable {stream : Nat → UInt8} {a : List Nat}

/-- A candidate is kept when it is below `q` and there is room. -/
def keep (a : List Nat) (d : Nat) : List Nat := if d < 3329 ∧ a.length < 256 then a ++ [d] else a

/-- What is kept of the candidates of `round` rounds. -/
def kept (stream : Nat → UInt8) (round : Nat) : List Nat := (accepted stream (2 * round)).take 256

theorem accepted_succ (stream : Nat → UInt8) (n : Nat) :
    accepted stream (n + 1) =
      accepted stream n ++ if candidate stream n < 3329 then [candidate stream n] else [] := by
  rw [accepted, List.range_succ, List.map_append, List.filter_append]
  congr 1
  by_cases h : candidate stream n < 3329 <;> simp [h]

theorem accepted_initial (stream : Nat → UInt8) {m n : Nat} (h : m ≤ n) :
    accepted stream m <+: accepted stream n := by
  induction n, h using Nat.le_induction with
  | base => exact List.prefix_rfl
  | succ n hle ih =>
    rw [accepted_succ]
    exact ih.trans (List.prefix_append _ _)

theorem keep_take (l : List Nat) (d : Nat) :
    keep (l.take 256) d = (l ++ if d < 3329 then [d] else []).take 256 := by
  have hlength := List.length_take (i := 256) (l := l)
  by_cases hd : d < 3329
  · by_cases hroom : l.length < 256
    · simp [keep, hd, hroom, List.take_of_length_le hroom.le, Nat.succ_le_of_lt hroom]
    · have hfull := not_lt.mp hroom
      simp [keep, hd, hroom, List.take_append, Nat.sub_eq_zero_of_le hfull]
  · simp [keep, hd]

theorem kept_succ (stream : Nat → UInt8) (round : Nat) :
    kept stream (round + 1) =
      keep (keep (kept stream round) (candidate stream (2 * round)))
        (candidate stream (2 * round + 1)) := by
  rw [kept, kept, keep_take, keep_take, ← accepted_succ, ← accepted_succ]
  rfl

theorem candidate_first (stream : Nat → UInt8) (round : Nat) :
    candidate stream (2 * round) =
      (stream (3 * round)).toNat + 256 * ((stream (3 * round + 1)).toNat % 16) := by
  simp [candidate]

theorem candidate_second (stream : Nat → UInt8) (round : Nat) :
    candidate stream (2 * round + 1) =
      (stream (3 * round + 1)).toNat / 16 + 16 * (stream (3 * round + 2)).toNat := by
  have hhalf : (2 * round + 1) / 2 = round := by omega
  simp [candidate, hhalf, Nat.add_mod]

theorem kept_full_iff (round : Nat) :
    ¬ (kept stream round).length < 256 ↔ 256 ≤ (accepted stream (2 * round)).length := by
  simp [kept]

/-- A round of the standard's algorithm, taken only while there is room. -/
theorem sampleRound_kept {round : Nat} (hroom : (kept stream round).length < 256) :
    sampleRound stream round (kept stream round) = kept stream (round + 1) := by
  rw [kept_succ, candidate_first, candidate_second]
  simp only [sampleRound, keep, hroom, and_true]

theorem accepted_take {m n : Nat} (hm : 256 ≤ (accepted stream m).length)
    (hn : 256 ≤ (accepted stream n).length) :
    (accepted stream m).take 256 = (accepted stream n).take 256 := by
  cases le_total m n with
  | inl hle =>
    obtain ⟨rest, hrest⟩ := accepted_initial stream hle
    rw [← hrest, List.take_append_of_le_length hm]
  | inr hle =>
    obtain ⟨rest, hrest⟩ := accepted_initial stream hle
    rw [← hrest, List.take_append_of_le_length hn]

theorem kept_of_full {round later : Nat} (hle : round ≤ later)
    (hfull : 256 ≤ (accepted stream (2 * round)).length) : kept stream later = kept stream round := by
  have hinitial := accepted_initial stream (show 2 * round ≤ 2 * later by omega)
  exact accepted_take (hfull.trans hinitial.length_le) hfull

theorem sampleRounds_ends {fuel round : Nat} {result : List Nat × Nat}
    (h : sampleRounds stream fuel round (kept stream round) = some result) :
    ∃ more < fuel, result = (kept stream (round + more), round + more) ∧
      256 ≤ (accepted stream (2 * (round + more))).length ∧
      ∀ earlier < more, (kept stream (round + earlier)).length < 256 := by
  induction fuel generalizing round with
  | zero => cases h
  | succ fuel ih =>
    rw [sampleRounds] at h
    by_cases hroom : (kept stream round).length < 256
    · rw [if_pos hroom, sampleRound_kept hroom] at h
      obtain ⟨more, hmore, hresult, hfull, hearlier⟩ := ih h
      have hround : round + (more + 1) = round + 1 + more := by omega
      refine ⟨more + 1, by omega, by rw [hround, hresult], by rw [hround]; exact hfull, ?_⟩
      intro earlier hlt
      cases earlier with
      | zero => exact hroom
      | succ earlier =>
        have hbefore := hearlier earlier (by omega)
        rwa [Nat.add_right_comm] at hbefore
    · rw [if_neg hroom] at h
      cases h
      exact ⟨0, by omega, rfl, (kept_full_iff round).mp hroom, fun _ hlt => absurd hlt (by omega)⟩

theorem sampleRounds_reaches {round more : Nat}
    (hfull : 256 ≤ (accepted stream (2 * (round + more))).length) :
    ∃ result, sampleRounds stream (more + 1) round (kept stream round) = some result := by
  induction more generalizing round with
  | zero =>
    rw [sampleRounds, if_neg ((kept_full_iff round).mpr hfull)]
    exact ⟨_, rfl⟩
  | succ more ih =>
    rw [sampleRounds]
    by_cases hroom : (kept stream round).length < 256
    · rw [if_pos hroom, sampleRound_kept hroom]
      apply ih
      rwa [Nat.add_right_comm]
    · rw [if_neg hroom]
      exact ⟨_, rfl⟩

end Rounds

section Blocks

variable {stream : Nat → UInt8} {s : Poly Int32 × Nat} {a : List Nat}

structure Collected (s : Poly Int32 × Nat) (a : List Nat) : Prop where
  count : s.2 = a.length
  room : a.length ≤ 256
  holds : ∀ k < a.length, Holds (coeff s.1 k) (a.getD k 0)

def words (f : Poly Int32) : List Nat := (List.range 256).map fun k => word (coeff f k)

theorem Collected.words_eq (h : Collected s a) (hfull : a.length = 256) : words s.1 = a := by
  apply List.ext_getElem
  · simp [words, hfull]
  · intro k hk hk'
    have hword := (h.holds k hk').toNat
    rw [List.getD_eq_getElem _ _ hk'] at hword
    simpa [words, word] using hword

theorem Collected.keep (h : Collected s a) {c : Int32} {d : Nat} (hc : Holds c d) :
    Collected (if c < 3329 ∧ s.2 < 256 then (store s.1 s.2 c, s.2 + 1) else s) (keep a d) := by
  have hlt := hc.lt_iff three_holds
  by_cases hkeep : d < 3329 ∧ a.length < 256
  · have hroom : s.2 < 256 := h.count ▸ hkeep.2
    rw [if_pos ⟨hlt.mpr hkeep.1, hroom⟩, MlKemSampleNtt.keep, if_pos hkeep]
    refine ⟨by simp [h.count], by simpa using hkeep.2, ?_⟩
    intro k hk
    have hk' : k ≤ a.length := by simpa [Nat.lt_succ_iff] using hk
    rw [coeff_store _ hroom (by omega), h.count]
    by_cases hlast : k = a.length
    · simpa [hlast] using hc
    · have hbefore : k < a.length := by omega
      rw [if_neg hlast, List.getD_append _ _ _ _ hbefore]
      exact h.holds k hbefore
  · have hskip : ¬ (c < 3329 ∧ s.2 < 256) := by
      rw [hlt, h.count]
      exact hkeep
    rw [if_neg hskip, MlKemSampleNtt.keep, if_neg hkeep]
    exact h

theorem sampleGroup_collects (bytes : Nat → UInt8) (group : Nat) (h : Collected s a)
    (hroom : s.2 < 256) :
    Collected (sampleGroup bytes group s)
      (keep (keep a (candidate bytes (2 * group))) (candidate bytes (2 * group + 1))) := by
  have hb0 := (bytes (3 * group)).toNat_lt
  have hb1 := (bytes (3 * group + 1)).toNat_lt
  have hb2 := (bytes (3 * group + 2)).toNat_lt
  have hlow := (byteInt_holds (bytes (3 * group + 1))).mod (d := 16) (n := 16) rfl
  have hscaled := Holds.mul (c := 256) (m := 256) rfl hlow (by omega)
  have hfirst := (byteInt_holds (bytes (3 * group))).add hscaled (by omega)
  have hhigh := (byteInt_holds (bytes (3 * group + 1))).div (d := 16) (n := 16) rfl
  have hupper := Holds.mul (c := 16) (m := 16) rfl (byteInt_holds (bytes (3 * group + 2))) (by omega)
  have hsecond := hhigh.add hupper (by omega)
  rw [candidate_first, candidate_second]
  have hkept := (h.keep hfirst).keep hsecond
  simp only [hroom, and_true] at hkept
  exact hkept

theorem sampleBlock_collects (stream : Nat → UInt8) (block : Nat)
    (h : Collected s (kept stream (56 * block))) :
    Collected (sampleBlock (fun offset => stream (168 * block + offset)) s)
      (kept stream (56 * (block + 1))) := by
  refine countUp_invariant (fun group s => Collected s (kept stream (56 * block + group))) h ?_
  intro group hgroup s hs
  have hsucc := kept_succ stream (56 * block + group)
  by_cases hroom : s.2 < 256
  · have hcollected := sampleGroup_collects (fun offset => stream (168 * block + offset)) group hs hroom
    have hoffset : 3 * (56 * block + group) = 168 * block + 3 * group := by omega
    rw [if_pos hroom, ← Nat.add_assoc, hsucc, candidate_first, candidate_second, hoffset]
    rw [candidate_first, candidate_second] at hcollected
    exact hcollected
  · have hfull : ¬ (kept stream (56 * block + group)).length < 256 := by
      rw [← hs.count]
      exact hroom
    have hsame := kept_of_full (Nat.le_succ (56 * block + group)) ((kept_full_iff _).mp hfull)
    rw [if_neg hroom, ← Nat.add_assoc, hsame]
    exact hs

theorem sampleLoop_ends {fuel block : Nat} {f : Poly Int32}
    (hs : Collected s (kept stream (56 * block))) (h : sampleLoop stream fuel block s = some f) :
    ∃ more < fuel, words f = kept stream (56 * (block + more)) ∧
      256 ≤ (accepted stream (2 * (56 * (block + more)))).length := by
  induction fuel generalizing block s with
  | zero => cases h
  | succ fuel ih =>
    rw [sampleLoop] at h
    by_cases hroom : s.2 < 256
    · rw [if_pos hroom] at h
      obtain ⟨more, hmore, hwords, hfull⟩ := ih (sampleBlock_collects stream block hs) h
      have hblock : block + (more + 1) = block + 1 + more := by omega
      refine ⟨more + 1, by omega, ?_, ?_⟩
      · rw [hblock, hwords]
      · rw [hblock]
        exact hfull
    · rw [if_neg hroom] at h
      cases h
      rw [hs.count] at hroom
      refine ⟨0, by omega, ?_, (kept_full_iff _).mp hroom⟩
      exact hs.words_eq (le_antisymm hs.room (not_lt.mp hroom))

theorem sampleLoop_reaches {block more : Nat} (hs : Collected s (kept stream (56 * block)))
    (hfull : 256 ≤ (accepted stream (2 * (56 * (block + more)))).length) :
    ∃ f, sampleLoop stream (more + 1) block s = some f := by
  induction more generalizing block s with
  | zero =>
    rw [sampleLoop, if_neg]
    · exact ⟨_, rfl⟩
    · rw [hs.count]
      exact (kept_full_iff _).mpr hfull
  | succ more ih =>
    rw [sampleLoop]
    by_cases hroom : s.2 < 256
    · rw [if_pos hroom]
      apply ih (sampleBlock_collects stream block hs)
      rwa [Nat.add_right_comm]
    · rw [if_neg hroom]
      exact ⟨_, rfl⟩

end Blocks

section Xof

variable {context : CryptoSha3Context}

def ready (context : CryptoSha3Context) : CryptoSha3Context :=
  if context.finalized then context else cryptoSha3Finalize context

def advance (context : CryptoSha3Context) : CryptoSha3Context := (squeezeByte context).2

def xofStream (input : List UInt8) (k : Nat) : UInt8 :=
  (squeezeByte (advance^[k] (ready (xofAbsorb xofInit input)))).1

theorem advance_finalized (h : context.finalized = true) (k : Nat) :
    (advance^[k] context).finalized = true := by
  induction k with
  | zero => exact h
  | succ k ih =>
    rw [Function.iterate_succ_apply', advance, squeezeByte]
    split_ifs
    · exact ih
    · exact ih

theorem ready_finalized (context : CryptoSha3Context) : (ready context).finalized = true := by
  by_cases h : context.finalized = true
  · rw [ready, if_pos h]
    exact h
  · rw [ready, if_neg h, cryptoSha3Finalize, if_neg h]

theorem ready_of_finalized (h : context.finalized = true) : ready context = context := if_pos h

theorem squeezeBytes_advance (n : Nat) (context : CryptoSha3Context) :
    squeezeBytes n context =
      ((List.range n).map fun i => (squeezeByte (advance^[i] context)).1, advance^[n] context) := by
  induction n generalizing context with
  | zero => rfl
  | succ n ih =>
    rw [squeezeBytes, ih, List.range_succ_eq_map, List.map_cons, List.map_map]
    rfl

/-- What is squeezed after `k` bytes are the next bytes of the stream. -/
theorem xofSqueeze_stream (input : List UInt8) {k : Nat}
    (h : ready context = advance^[k] (ready (xofAbsorb xofInit input))) (n : Nat) :
    (xofSqueeze context n).1 = (List.range n).map (fun i => xofStream input (k + i)) ∧
      ready (xofSqueeze context n).2 = advance^[k + n] (ready (xofAbsorb xofInit input)) := by
  have hsqueeze : xofSqueeze context n = squeezeBytes n (ready context) := rfl
  have hfinalized := advance_finalized (ready_finalized (xofAbsorb xofInit input)) (n + k)
  rw [hsqueeze, squeezeBytes_advance, h, ← Function.iterate_add_apply,
    ready_of_finalized hfinalized, Nat.add_comm n k]
  refine ⟨?_, rfl⟩
  apply List.map_congr_left
  intro i hi
  rw [xofStream, Nat.add_comm k i, Function.iterate_add_apply]

theorem sampleBlock_congr {bytes bytes' : Nat → UInt8} (h : ∀ i < 168, bytes i = bytes' i)
    (s : Poly Int32 × Nat) : sampleBlock bytes s = sampleBlock bytes' s := by
  refine countUp_simulation Eq rfl ?_
  rintro group hgroup s _ rfl
  rw [sampleGroup, sampleGroup, h _ (by omega), h _ (by omega), h _ (by omega)]

/-- The loop over the blocks that are squeezed is the one over the stream. -/
theorem squeezeLoop_eq (input : List UInt8) {block : Nat}
    (h : ready context = advance^[168 * block] (ready (xofAbsorb xofInit input))) (fuel : Nat)
    (s : Poly Int32 × Nat) :
    squeezeLoop fuel context s = sampleLoop (xofStream input) fuel block s := by
  induction fuel generalizing context block s with
  | zero => rfl
  | succ fuel ih =>
    obtain ⟨hbytes, hready⟩ := xofSqueeze_stream input h 168
    have hblock : sampleBlock (fun offset => (xofSqueeze context 168).1.getD offset 0) s =
        sampleBlock (fun offset => xofStream input (168 * block + offset)) s := by
      apply sampleBlock_congr
      intro i hi
      rw [hbytes]
      simp [hi]
    rw [← Nat.mul_succ] at hready
    simp only [squeezeLoop, sampleLoop, hblock]
    rw [ih hready]

theorem xofStream_bits (input : List UInt8) (n : Nat) :
    ((List.range n).map (xofStream input)).flatMap byteBits =
      spongeOutput .hashShake128 input n := by
  obtain ⟨-, hrate, hcapacity, -⟩ := @isSha3_facts .hashShake128 rfl
  have hinit : xofInit = sha3ContextInit (rateBytes .hashShake128) (domainByte .hashShake128) := rfl
  have habsorbed : Absorbing (rateBytes .hashShake128) (domainByte .hashShake128)
      (xofAbsorb xofInit input) input := by
    rw [hinit]
    exact cryptoSha3Update_absorbing hrate hcapacity (absorbing_init _ _) input
  have hready : ready (xofAbsorb xofInit input) = cryptoSha3Finalize (xofAbsorb xofInit input) := by
    rw [ready, if_neg (by rw [habsorbed.finalized]; exact Bool.false_ne_true)]
  have hsqueezing := cryptoSha3Finalize_squeezing hrate hcapacity (encodes_suffix .hashShake128)
    habsorbed
  have hbits := (squeezeBytes_squeezing hrate hcapacity hsqueezing n).1
  rw [← hready, squeezeBytes_advance] at hbits
  rw [← outputBits_eq rfl]
  exact hbits

end Xof

/-- The loop over squeezed blocks and Algorithm 7 deliver the first 256 candidates below `q` of
every stream. Each ends as soon as they are in the blocks, or the groups of three bytes, that it
has read. -/
theorem sampleNtt_refines (stream : Nat → UInt8) (output : Poly Int32) :
    (∀ blocks, (sampleNtt stream (blocks + 1) output).isSome ↔
        256 ≤ (accepted stream (112 * blocks)).length) ∧
      (∀ fuel f, sampleNtt stream fuel output = some f →
        ∀ n, 256 ≤ (accepted stream n).length → words f = (accepted stream n).take 256) ∧
      (∀ fuel a rounds, sampleRounds stream fuel 0 [] = some (a, rounds) →
        ∀ blocks, if rounds ≤ 56 * blocks
          then ∃ f, sampleNtt stream (blocks + 1) output = some f ∧ words f = a
          else sampleNtt stream (blocks + 1) output = none) ∧
      (∀ fuel f, sampleNtt stream fuel output = some f →
        ∃ fuel' rounds, sampleRounds stream fuel' 0 [] = some (words f, rounds)) ∧
      ∀ input fuel, sampleNttOf input fuel output = sampleNtt (xofStream input) fuel output ∧
        ∀ n, ((List.range n).map (xofStream input)).flatMap byteBits =
          spongeOutput .hashShake128 input n := by
  have hstart : Collected (output, 0) (kept stream (56 * 0)) :=
    ⟨rfl, Nat.zero_le _, fun k hk => absurd hk (Nat.not_lt_zero k)⟩
  have hreaches : ∀ blocks, 256 ≤ (accepted stream (112 * blocks)).length →
      ∃ f, sampleNtt stream (blocks + 1) output = some f := by
    intro blocks hfull
    apply sampleLoop_reaches hstart
    rwa [Nat.zero_add, ← Nat.mul_assoc]
  have hends : ∀ {fuel f}, sampleNtt stream fuel output = some f →
      ∃ blocks < fuel, words f = kept stream (56 * blocks) ∧
        256 ≤ (accepted stream (2 * (56 * blocks))).length := by
    intro fuel f h
    have hloop := sampleLoop_ends hstart h
    simpa only [Nat.zero_add] using hloop
  have hblocks : ∀ blocks, (sampleNtt stream (blocks + 1) output).isSome ↔
      256 ≤ (accepted stream (112 * blocks)).length := by
    intro blocks
    constructor
    · intro h
      obtain ⟨f, hf⟩ := Option.isSome_iff_exists.mp h
      obtain ⟨before, hbefore, -, hfull⟩ := hends hf
      exact hfull.trans (accepted_initial stream (by omega)).length_le
    · intro hfull
      exact Option.isSome_iff_exists.mpr (hreaches blocks hfull)
  have hwords : ∀ fuel f, sampleNtt stream fuel output = some f →
      ∀ n, 256 ≤ (accepted stream n).length → words f = (accepted stream n).take 256 := by
    intro fuel f h n hn
    obtain ⟨blocks, -, hwords, hfull⟩ := hends h
    rw [hwords, kept]
    exact accepted_take hfull hn
  refine ⟨hblocks, hwords, ?_, ?_, fun input fuel => ?_⟩
  · intro fuel a rounds h blocks
    obtain ⟨more, -, hresult, hfull, hearlier⟩ := sampleRounds_ends h
    rw [Nat.zero_add] at hresult hfull
    obtain ⟨rfl, rfl⟩ := Prod.mk.inj hresult
    by_cases hle : rounds ≤ 56 * blocks
    · have hlength := (accepted_initial stream (show 2 * rounds ≤ 112 * blocks by omega)).length_le
      obtain ⟨f, hf⟩ := hreaches blocks (hfull.trans hlength)
      rw [if_pos hle]
      exact ⟨f, hf, hwords _ f hf _ hfull⟩
    · have hroom := hearlier (56 * blocks) (not_le.mp hle)
      rw [if_neg hle, ← Option.not_isSome_iff_eq_none, hblocks]
      intro hreached
      rw [Nat.zero_add] at hroom
      apply (kept_full_iff _).mpr _ hroom
      rwa [← Nat.mul_assoc]
  · intro fuel f h
    obtain ⟨blocks, -, -, hfull⟩ := hends h
    obtain ⟨result, hrun⟩ := @sampleRounds_reaches stream 0 (56 * blocks)
      (by rwa [Nat.zero_add])
    obtain ⟨more, -, hresult, hfull', -⟩ := sampleRounds_ends hrun
    refine ⟨_, 0 + more, hrun.trans ?_⟩
    rw [hresult, hwords _ f h _ hfull']
    rfl
  · exact ⟨squeezeLoop_eq input rfl fuel _, xofStream_bits input⟩

end LiberaCrypt.MlKemSampleNtt
