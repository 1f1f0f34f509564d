import LiberaCrypt.HashFunction

namespace LiberaCrypt.HashStreaming

open LiberaCrypt.Outcome LiberaCrypt.Def LiberaCrypt.Sha1 LiberaCrypt.Sha2 LiberaCrypt.Lsh
open LiberaCrypt.HashFunction

abbrev AlgorithmState (alg : LiberaCAlgID) := CryptoHashAlgorithmState (hashFamily alg)

/-- `INIT` and one `UPDATE` for each chunk. -/
def absorbChunks (alg : LiberaCAlgID) (chunks : List InputBytes) : OnContext Unit := do
  liberacHashInit alg
  chunks.forM liberacHashUpdate

/-- `FINALIZE` and one `SQUEEZE` into a buffer of `capacity` bytes. -/
def releaseDigest (capacity : Nat) : OnContext (List UInt8) := do
  liberacHashFinalize
  liberacHashSqueeze false capacity

section Calls

variable {alg : LiberaCAlgID} {state after : AlgorithmState alg} {input : InputBytes}

theorem liberacHashInit_ok (h : initState alg (hashFamily alg) = .ok state)
    (context : LiberaCHashContext) :
    liberacHashInit alg context = (.ok (), ⟨cryptoHashContextMagic, alg, .absorbing, state⟩) := by
  unfold liberacHashInit
  rw [h]

theorem absorbing_accepts (halg : hashFamily alg ≠ .none) (hinput : input.missing = false) :
    ¬ (input.missing = true ∨
      ¬ (⟨cryptoHashContextMagic, alg, .absorbing, state⟩ : LiberaCHashContext).Loads ∨
      (⟨cryptoHashContextMagic, alg, .absorbing, state⟩ : LiberaCHashContext).phase ≠
        .absorbing) := by
  rintro (hmissing | hloads | hphase)
  · rw [hinput] at hmissing
    cases hmissing
  · exact hloads ⟨rfl, halg, by simp⟩
  · exact hphase rfl

theorem liberacHashUpdate_ok (halg : hashFamily alg ≠ .none) (hinput : input.missing = false)
    (h : updateState _ state input.data = .ok after) :
    liberacHashUpdate input ⟨cryptoHashContextMagic, alg, .absorbing, state⟩ =
      (.ok (), ⟨cryptoHashContextMagic, alg, .absorbing, after⟩) := by
  unfold liberacHashUpdate
  rw [if_neg (absorbing_accepts halg hinput), h]

theorem liberacHashUpdate_error (halg : hashFamily alg ≠ .none) (hinput : input.missing = false)
    {e : LiberaCError} (h : updateState _ state input.data = .error e) :
    liberacHashUpdate input ⟨cryptoHashContextMagic, alg, .absorbing, state⟩ =
      (.error e, ⟨cryptoHashContextMagic, alg, .absorbing, state⟩) := by
  unfold liberacHashUpdate
  rw [if_neg (absorbing_accepts halg hinput), h]

theorem liberacHashFinalize_ok (halg : hashFamily alg ≠ .none)
    (h : finalizeState _ state = .ok after) :
    liberacHashFinalize ⟨cryptoHashContextMagic, alg, .absorbing, state⟩ =
      (.ok (), ⟨cryptoHashContextMagic, alg, .finalized, after⟩) := by
  unfold liberacHashFinalize
  rw [if_neg, h]
  rintro (hloads | hphase)
  · exact hloads ⟨rfl, halg, by simp⟩
  · exact hphase rfl

theorem liberacHashSqueeze_fixed (halg : hashFamily alg ≠ .none) (hfixed : isShake alg = false)
    {capacity : Nat} (hcapacity : fixedDigestLength alg ≤ capacity) {digest : List UInt8}
    (h : squeezeFixed alg (fixedDigestLength alg) _ state = .ok digest) :
    liberacHashSqueeze false capacity ⟨cryptoHashContextMagic, alg, .finalized, state⟩ =
      (.ok digest, ⟨cryptoHashContextMagic, alg, .consumed, zeroState _⟩) := by
  unfold liberacHashSqueeze
  rw [if_neg, if_neg (by simp [hfixed]), if_neg (by simp)]
  · dsimp only
    rw [if_neg (not_lt.mpr hcapacity), if_neg Bool.false_ne_true, h]
  · rintro (hnull | hloads)
    · exact Bool.false_ne_true hnull.1
    · exact hloads ⟨rfl, halg, by simp⟩

end Calls

section Streaming

variable {alg : LiberaCAlgID}

/-- What the state of an algorithm represents: the bytes that it has absorbed, within a limit. -/
structure Streams (alg : LiberaCAlgID) (Holds : AlgorithmState alg → List UInt8 → Prop)
    (Within : Nat → Prop) : Prop where
  family : hashFamily alg ≠ .none
  init : ∃ state, initState alg (hashFamily alg) = .ok state ∧ Holds state []
  update : ∀ {state xs input}, Holds state xs → input.length < 2 ^ 64 →
    Within (xs.length + input.length) →
    ∃ after, updateState _ state input = .ok after ∧ Holds after (xs ++ input)
  mono : ∀ {m n}, m ≤ n → Within n → Within m

variable {Holds : AlgorithmState alg → List UInt8 → Prop} {Within : Nat → Prop}

theorem Streams.updates (h : Streams alg Holds Within) (chunks : List InputBytes)
    (hthere : ∀ chunk ∈ chunks, chunk.missing = false ∧ chunk.data.length < 2 ^ 64)
    {state : AlgorithmState alg} {xs : List UInt8} (hstate : Holds state xs)
    (hwithin : Within (xs ++ chunks.flatMap InputBytes.data).length) :
    ∃ after, chunks.forM liberacHashUpdate ⟨cryptoHashContextMagic, alg, .absorbing, state⟩ =
        (.ok (), ⟨cryptoHashContextMagic, alg, .absorbing, after⟩) ∧
      Holds after (xs ++ chunks.flatMap InputBytes.data) := by
  induction chunks generalizing state xs with
  | nil => exact ⟨state, rfl, by simpa using hstate⟩
  | cons chunk chunks ih =>
    obtain ⟨hmissing, hsize⟩ := hthere chunk List.mem_cons_self
    rw [List.flatMap_cons, ← List.append_assoc] at hwithin ⊢
    have hfirst : Within (xs.length + chunk.data.length) := by
      apply h.mono _ hwithin
      rw [List.length_append, List.length_append]
      omega
    obtain ⟨next, hupdate, hnext⟩ := h.update hstate hsize hfirst
    obtain ⟨after, hrest, hafter⟩ :=
      ih (fun c hc => hthere c (List.mem_cons_of_mem chunk hc)) hnext hwithin
    exact ⟨after, (bind_ok (liberacHashUpdate_ok h.family hmissing hupdate)).trans hrest, hafter⟩

theorem Streams.absorbChunks (h : Streams alg Holds Within) (chunks : List InputBytes)
    (hthere : ∀ chunk ∈ chunks, chunk.missing = false ∧ chunk.data.length < 2 ^ 64)
    (hwithin : Within (chunks.flatMap InputBytes.data).length) (context : LiberaCHashContext) :
    ∃ after, absorbChunks alg chunks context =
        (.ok (), ⟨cryptoHashContextMagic, alg, .absorbing, after⟩) ∧
      Holds after (chunks.flatMap InputBytes.data) := by
  obtain ⟨state, hinit, hstate⟩ := h.init
  obtain ⟨after, hupdates, hafter⟩ := h.updates chunks hthere hstate hwithin
  refine ⟨after, ?_, hafter⟩
  rw [HashStreaming.absorbChunks, bind_ok (liberacHashInit_ok hinit context), hupdates]

end Streaming

section MerkleDamgard

def isMerkleDamgard (alg : LiberaCAlgID) : Bool :=
  hashFamily alg = .sha1 || hashFamily alg = .sha2 || hashFamily alg = .lsh

def paddedDigest : LiberaCAlgID → List UInt8 → List UInt8
  | .hashSha1, xs => sha1Digest xs
  | .hashSha2_224, xs => sha2Digest .hashSha2_224 (.words32 iv224) xs
  | .hashSha2_256, xs => sha2Digest .hashSha2_256 (.words32 iv256) xs
  | .hashSha2_384, xs => sha2Digest .hashSha2_384 (.words64 iv384) xs
  | .hashSha2_512, xs => sha2Digest .hashSha2_512 (.words64 iv512) xs
  | .hashSha2_512_224, xs => sha2Digest .hashSha2_512_224 (.words64 iv512_224) xs
  | .hashSha2_512_256, xs => sha2Digest .hashSha2_512_256 (.words64 iv512_256) xs
  | .hashLsh_256_224, xs => lshDigest 28 (.lsh256 ivLsh_256_224) xs
  | .hashLsh_256_256, xs => lshDigest 32 (.lsh256 ivLsh_256_256) xs
  | .hashLsh_512_224, xs => lshDigest 28 (.lsh512 ivLsh_512_224) xs
  | .hashLsh_512_256, xs => lshDigest 32 (.lsh512 ivLsh_512_256) xs
  | .hashLsh_512_384, xs => lshDigest 48 (.lsh512 ivLsh_512_384) xs
  | .hashLsh_512_512, xs => lshDigest 64 (.lsh512 ivLsh_512_512) xs
  | _, _ => []

/-- The lengths, in bytes, that an algorithm accepts. LSH has no limit. -/
def WithinLimit : LiberaCAlgID → Nat → Prop
  | .hashSha1, n => n < 2 ^ 61
  | .hashSha2_224, n => n < 2 ^ 61
  | .hashSha2_256, n => n < 2 ^ 61
  | .hashSha2_384, n => n < 2 ^ 125
  | .hashSha2_512, n => n < 2 ^ 125
  | .hashSha2_512_224, n => n < 2 ^ 125
  | .hashSha2_512_256, n => n < 2 ^ 125
  | _, _ => True

def StateHolds : (alg : LiberaCAlgID) → AlgorithmState alg → List UInt8 → Prop
  | .hashSha1, state, xs => CryptoSha1Context.Holds state xs
  | .hashSha2_224, state, xs => CryptoSha2Context.Holds state (.words32 iv224) xs
  | .hashSha2_256, state, xs => CryptoSha2Context.Holds state (.words32 iv256) xs
  | .hashSha2_384, state, xs => CryptoSha2Context.Holds state (.words64 iv384) xs
  | .hashSha2_512, state, xs => CryptoSha2Context.Holds state (.words64 iv512) xs
  | .hashSha2_512_224, state, xs => CryptoSha2Context.Holds state (.words64 iv512_224) xs
  | .hashSha2_512_256, state, xs => CryptoSha2Context.Holds state (.words64 iv512_256) xs
  | .hashLsh_256_224, state, xs => CryptoLshContext.Holds state (.lsh256 ivLsh_256_224) xs
  | .hashLsh_256_256, state, xs => CryptoLshContext.Holds state (.lsh256 ivLsh_256_256) xs
  | .hashLsh_512_224, state, xs => CryptoLshContext.Holds state (.lsh512 ivLsh_512_224) xs
  | .hashLsh_512_256, state, xs => CryptoLshContext.Holds state (.lsh512 ivLsh_512_256) xs
  | .hashLsh_512_384, state, xs => CryptoLshContext.Holds state (.lsh512 ivLsh_512_384) xs
  | .hashLsh_512_512, state, xs => CryptoLshContext.Holds state (.lsh512 ivLsh_512_512) xs
  | _, _, _ => False

variable {alg : LiberaCAlgID}

theorem stateHolds_init (halg : isMerkleDamgard alg = true) :
    ∃ state, initState alg (hashFamily alg) = .ok state ∧ StateHolds alg state [] := by
  cases alg
  case hashSha1 => exact ⟨_, rfl, cryptoSha1Init_holds⟩
  case hashSha2_224 | hashSha2_256 | hashSha2_384 | hashSha2_512 | hashSha2_512_224 |
      hashSha2_512_256 =>
    exact ⟨_, rfl, cryptoSha2Start_holds _⟩
  case hashLsh_256_224 | hashLsh_256_256 | hashLsh_512_224 | hashLsh_512_256 | hashLsh_512_384 |
      hashLsh_512_512 =>
    exact ⟨_, rfl, cryptoLshStart_holds _⟩
  all_goals cases halg

variable {state : AlgorithmState alg} {xs input : List UInt8}

theorem stateHolds_update (halg : isMerkleDamgard alg = true) (h : StateHolds alg state xs)
    (hsize : input.length < 2 ^ 64) (hlimit : WithinLimit alg (xs.length + input.length)) :
    ∃ after, updateState _ state input = .ok after ∧ StateHolds alg after (xs ++ input) := by
  cases alg
  case hashSha1 => exact cryptoSha1Update_holds h hlimit
  case hashSha2_224 | hashSha2_256 | hashSha2_384 | hashSha2_512 | hashSha2_512_224 |
      hashSha2_512_256 =>
    exact cryptoSha2Update_holds h hsize hlimit
  case hashLsh_256_224 | hashLsh_256_256 | hashLsh_512_224 | hashLsh_512_256 | hashLsh_512_384 |
      hashLsh_512_512 =>
    exact cryptoLshUpdate_holds h input
  all_goals cases halg

theorem stateHolds_tooLarge (halg : isMerkleDamgard alg = true) (h : StateHolds alg state xs)
    (hsize : input.length < 2 ^ 64) (hlimit : ¬ WithinLimit alg (xs.length + input.length)) :
    updateState _ state input = .error .messageTooLarge := by
  cases alg
  case hashSha1 => exact cryptoSha1Update_tooLarge h hsize (not_lt.mp hlimit)
  case hashSha2_224 | hashSha2_256 | hashSha2_384 | hashSha2_512 | hashSha2_512_224 |
      hashSha2_512_256 =>
    exact cryptoSha2Update_tooLarge h hsize (not_lt.mp hlimit)
  case hashLsh_256_224 | hashLsh_256_256 | hashLsh_512_224 | hashLsh_512_256 | hashLsh_512_384 |
      hashLsh_512_512 =>
    exact absurd trivial hlimit
  all_goals cases halg

theorem WithinLimit.mono {m n : Nat} (h : m ≤ n) (hn : WithinLimit alg n) : WithinLimit alg m := by
  cases alg
  case hashSha1 | hashSha2_224 | hashSha2_256 | hashSha2_384 | hashSha2_512 | hashSha2_512_224 |
      hashSha2_512_256 =>
    exact lt_of_le_of_lt h hn
  all_goals trivial

theorem stateHolds_digest (halg : isMerkleDamgard alg = true) (h : StateHolds alg state xs) :
    ∃ after, finalizeState _ state = .ok after ∧
      squeezeFixed alg (fixedDigestLength alg) _ after = .ok (paddedDigest alg xs) := by
  cases alg
  case hashSha1 => exact ⟨_, rfl, congrArg _ (cryptoSha1Finalize_digest h)⟩
  case hashSha2_224 | hashSha2_256 | hashSha2_384 | hashSha2_512 | hashSha2_512_224 |
      hashSha2_512_256 =>
    exact ⟨_, rfl, congrArg _ (cryptoSha2Finalize_digest h _)⟩
  case hashLsh_256_224 => exact ⟨_, rfl, congrArg _ (cryptoLshFinalize_digest h (k := 7) (by decide))⟩
  case hashLsh_256_256 => exact ⟨_, rfl, congrArg _ (cryptoLshFinalize_digest h (k := 8) (by decide))⟩
  case hashLsh_512_224 => exact ⟨_, rfl, congrArg _ (cryptoLshFinalize_digest h (k := 7) (by decide))⟩
  case hashLsh_512_256 => exact ⟨_, rfl, congrArg _ (cryptoLshFinalize_digest h (k := 8) (by decide))⟩
  case hashLsh_512_384 => exact ⟨_, rfl, congrArg _ (cryptoLshFinalize_digest h (k := 12) (by decide))⟩
  case hashLsh_512_512 => exact ⟨_, rfl, congrArg _ (cryptoLshFinalize_digest h (k := 16) (by decide))⟩
  all_goals cases halg

theorem isMerkleDamgard_fixed (halg : isMerkleDamgard alg = true) :
    isShake alg = false ∧ fixedDigestLength alg ≠ 0 ∧ hashFamily alg ≠ .none := by
  revert halg
  cases alg <;> decide

theorem merkleDamgard_streams (halg : isMerkleDamgard alg = true) :
    Streams alg (StateHolds alg) (WithinLimit alg) where
  family := (isMerkleDamgard_fixed halg).2.2
  init := stateHolds_init halg
  update := stateHolds_update halg
  mono := WithinLimit.mono

theorem releaseDigest_eq (halg : isMerkleDamgard alg = true) (h : StateHolds alg state xs)
    {capacity : Nat} (hcapacity : fixedDigestLength alg ≤ capacity) :
    (releaseDigest capacity ⟨cryptoHashContextMagic, alg, .absorbing, state⟩).1 =
      .ok (paddedDigest alg xs) := by
  obtain ⟨hshake, -, hfamily⟩ := isMerkleDamgard_fixed halg
  obtain ⟨after, hfinalize, hsqueeze⟩ := stateHolds_digest halg h
  rw [releaseDigest, bind_ok (liberacHashFinalize_ok hfamily hfinalize),
    liberacHashSqueeze_fixed hfamily hshake hcapacity hsqueeze]

theorem liberacHash_eq (halg : isMerkleDamgard alg = true) {whole : InputBytes} {capacity : Nat}
    (hthere : whole.missing = false) (hsize : whole.data.length < 2 ^ 64)
    (hlimit : WithinLimit alg whole.data.length) (hcapacity : fixedDigestLength alg ≤ capacity) :
    liberacHash false capacity whole alg = .ok (paddedDigest alg whole.data) := by
  obtain ⟨hshake, hlength, hfamily⟩ := isMerkleDamgard_fixed halg
  obtain ⟨state, hinit, hstate⟩ := stateHolds_init halg
  have hlimit' : WithinLimit alg (([] : List UInt8).length + whole.data.length) := by
    rwa [List.length_nil, Nat.zero_add]
  obtain ⟨after, hupdate, hafter⟩ := stateHolds_update halg hstate hsize hlimit'
  have hrelease := releaseDigest_eq halg hafter hcapacity
  unfold liberacHash
  rw [if_neg (by simp [hthere]), if_neg (by simp [hlength]), if_neg (by simp [hcapacity]), hashCalls,
    bind_ok (liberacHashInit_ok hinit clearedContext),
    bind_ok (liberacHashUpdate_ok hfamily hthere hupdate)]
  exact hrelease

/-- Streaming gives the digest of the concatenated chunks, as the one call does. An update beyond
the limit is refused and the context is as it was. -/
theorem hash_streaming (halg : isMerkleDamgard alg = true) (chunks : List InputBytes)
    (hthere : ∀ chunk ∈ chunks, chunk.missing = false ∧ chunk.data.length < 2 ^ 64)
    (hlimit : WithinLimit alg (chunks.flatMap InputBytes.data).length)
    (start : LiberaCHashContext) :
    ∃ context, absorbChunks alg chunks start = (.ok (), context) ∧
      (∀ capacity, fixedDigestLength alg ≤ capacity →
        (releaseDigest capacity context).1 =
          .ok (paddedDigest alg (chunks.flatMap InputBytes.data)) ∧
        ∀ whole : InputBytes, whole.missing = false → whole.data.length < 2 ^ 64 →
          whole.data = chunks.flatMap InputBytes.data →
          (releaseDigest capacity context).1 = liberacHash false capacity whole alg) ∧
      ∀ input : InputBytes, input.missing = false → input.data.length < 2 ^ 64 →
        ¬ WithinLimit alg ((chunks.flatMap InputBytes.data).length + input.data.length) →
        liberacHashUpdate input context = (.error .messageTooLarge, context) := by
  obtain ⟨state, habsorb, hstate⟩ :=
    (merkleDamgard_streams halg).absorbChunks chunks hthere hlimit start
  refine ⟨_, habsorb, fun capacity hcapacity => ?_, fun input hinput hsize hover => ?_⟩
  · have hrelease := releaseDigest_eq halg hstate hcapacity
    refine ⟨hrelease, fun whole hwhole hsize hdata => ?_⟩
    rw [← hdata] at hrelease hlimit
    rw [hrelease, liberacHash_eq halg hwhole hsize hlimit hcapacity]
  · exact liberacHashUpdate_error (isMerkleDamgard_fixed halg).2.2 hinput
      (stateHolds_tooLarge halg hstate hsize hover)

/-- Three chunks of which one is empty, and a chunk that no message can be followed by. -/
theorem hash_streaming_abc :
    ∃ context, absorbChunks .hashSha2_256 [.bytes [97], .null 0, .bytes [98, 99]] clearedContext =
        (.ok (), context) ∧
      (releaseDigest 32 context).1 = liberacHash false 32 (.bytes [97, 98, 99]) .hashSha2_256 ∧
      liberacHashUpdate (.bytes (List.replicate (2 ^ 61) 0)) context =
        (.error .messageTooLarge, context) := by
  have hfamily : isMerkleDamgard .hashSha2_256 = true := by decide
  obtain ⟨context, habsorb, hdigest, hover⟩ := hash_streaming hfamily
    [.bytes [97], .null 0, .bytes [98, 99]] (by decide)
    (show (3 : Nat) < 2 ^ 61 by decide) clearedContext
  refine ⟨context, habsorb, (hdigest 32 (by decide)).2 (.bytes [97, 98, 99]) rfl (by decide) rfl, ?_⟩
  have hlong : (InputBytes.bytes (List.replicate (2 ^ 61) 0)).data.length = 2 ^ 61 :=
    List.length_replicate
  apply hover _ rfl
  · rw [hlong]
    decide
  · rw [hlong]
    exact not_lt.mpr (Nat.le_add_left _ _)

end MerkleDamgard

end LiberaCrypt.HashStreaming
