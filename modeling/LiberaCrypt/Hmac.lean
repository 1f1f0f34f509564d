import LiberaCrypt.ConstantTime
import LiberaCrypt.MemoryFill
import LiberaCrypt.Sha3Streaming

namespace LiberaCrypt.Hmac

open LiberaCrypt.ConstantTime LiberaCrypt.Def LiberaCrypt.HashFunction LiberaCrypt.HashStreaming
open LiberaCrypt.Endian LiberaCrypt.Keccak LiberaCrypt.MemoryFill LiberaCrypt.MerkleDamgard
open LiberaCrypt.Outcome LiberaCrypt.Sha1 LiberaCrypt.Sha2
open LiberaCrypt.Sha3 LiberaCrypt.Sha3Streaming

structure HmacParameters where
  digestLength : Nat
  blockLength : Nat
  deriving DecidableEq

def hmacParameters : LiberaCAlgID → Except LiberaCError HmacParameters
  | .hashSha1 => .ok ⟨20, 64⟩
  | .hashSha2_224 => .ok ⟨28, 64⟩
  | .hashSha2_256 => .ok ⟨32, 64⟩
  | .hashSha2_384 => .ok ⟨48, 128⟩
  | .hashSha2_512 => .ok ⟨64, 128⟩
  | .hashSha2_512_224 => .ok ⟨28, 128⟩
  | .hashSha2_512_256 => .ok ⟨32, 128⟩
  | .hashSha3_224 => .ok ⟨28, 144⟩
  | .hashSha3_256 => .ok ⟨32, 136⟩
  | .hashSha3_384 => .ok ⟨48, 104⟩
  | .hashSha3_512 => .ok ⟨64, 72⟩
  | _ => .error .invalidAlgId

/-- The calls on the context between `INIT` and `SQUEEZE`. -/
def hmacPass (alg : LiberaCAlgID) (digestLength : Nat) (pad message : InputBytes) :
    OnContext (List UInt8) := do
  liberacHashInit alg
  liberacHashUpdate pad
  liberacHashUpdate message
  liberacHashFinalize
  liberacHashSqueeze false digestLength

/-- The first `blockLength` bytes of the key block, each combined with `mask`. -/
def keyPad (keyBlock : List UInt8) (blockLength : Nat) (mask : UInt8) : InputBytes :=
  .bytes ((List.range blockLength).map fun index => keyBlock.getD index 0 ^^^ mask)

def hmacCalls (parameters : HmacParameters) (keyBlock : List UInt8) (message : InputBytes)
    (alg : LiberaCAlgID) : OnContext (List UInt8) := do
  let innerDigest ← hmacPass alg parameters.digestLength
    (keyPad keyBlock parameters.blockLength 0x36) message
  liberacHashClear
  hmacPass alg parameters.digestLength (keyPad keyBlock parameters.blockLength 0x5c)
    (.bytes innerDigest)

def hmacFullTag (parameters : HmacParameters) (message key : InputBytes) (alg : LiberaCAlgID) :
    Except LiberaCError (List UInt8) := do
  let normalizedKey ←
    if parameters.blockLength < key.data.length then
      liberacHash false parameters.digestLength key alg
    else .ok key.data
  let keyBlock := copyInto (List.replicate 144 0) 0 normalizedKey
  (hmacCalls parameters keyBlock message alg clearedContext).1

/-- The bytes that are written to `TAG`. -/
def liberacHmac (tagNull : Bool) (tagCapacity tagLength : Nat) (message key : InputBytes)
    (alg : LiberaCAlgID) : Except LiberaCError (List UInt8) := do
  let parameters ← hmacParameters alg
  if tagLength = 0 ∨ parameters.digestLength < tagLength ∨ tagNull ∨ message.missing ∨
      key.missing then .error .invalidArgument
  else if tagCapacity < tagLength then .error .bufferTooSmall
  else (hmacFullTag parameters message key alg).map fun fullTag => fullTag.take tagLength

/-- `tag` is `none` for NULL. -/
def liberacHmacVerify (tag : Option (List UInt8)) (message key : InputBytes) (alg : LiberaCAlgID) :
    Except LiberaCError Unit :=
  match tag with
  | none => .error .invalidArgument
  | some tag => do
    let written ← liberacHmac false 64 tag.length message key alg
    let expected := copyInto (List.replicate 64 0) 0 written
    if cryptoConstantTimeEqual expected tag tag.length then .ok ()
    else .error .authenticationFailed

def hmac (hash : List UInt8 → List UInt8) (blockLength : Nat) (key message : List UInt8) :
    List UInt8 :=
  let key := if blockLength < key.length then hash key else key
  let block := key ++ List.replicate (blockLength - key.length) 0
  hash (block.map (· ^^^ 0x5c) ++ hash (block.map (· ^^^ 0x36) ++ message))

/-- The digest of a whole message: the padded fold of the Merkle-Damgård hashes, and what the
sponge delivers. -/
def hashDigest (alg : LiberaCAlgID) (xs : List UInt8) : List UInt8 :=
  if isSha3 alg then
    (cryptoSha3Squeeze (cryptoSha3Update (sha3ContextInit (rateBytes alg) (domainByte alg)) xs)
      (fixedDigestLength alg)).1
  else paddedDigest alg xs

def hashBlockLength (alg : LiberaCAlgID) : Nat :=
  match hashFamily alg with
  | .sha1 => 64
  | .sha2 => match cryptoSha2Init alg with
    | .ok ctx => sha2BlockLength ctx.buffer.state
    | .error _ => 0
  | .sha3 => rateBytes alg
  | _ => 0

section Streaming

variable {alg : LiberaCAlgID} {hash : List UInt8 → List UInt8}
  {Holds : AlgorithmState alg → List UInt8 → Prop} {Within : Nat → Prop}

/-- What is asked of a hash: its contexts stream a function, and refuse what is too long. -/
structure StreamingHash (alg : LiberaCAlgID) (hash : List UInt8 → List UInt8)
    (Holds : AlgorithmState alg → List UInt8 → Prop) (Within : Nat → Prop) : Prop where
  streams : Streams alg Holds Within
  tooLarge : ∀ {state xs input}, Holds state xs → input.length < 2 ^ 64 →
    ¬ Within (xs.length + input.length) → updateState _ state input = .error .messageTooLarge
  release : ∀ {state xs}, Holds state xs →
    (releaseDigest (fixedDigestLength alg) ⟨cryptoHashContextMagic, alg, .absorbing, state⟩).1 =
      .ok (hash xs)
  length : ∀ xs, (hash xs).length = fixedDigestLength alg
  fixed : isShake alg = false ∧ fixedDigestLength alg ≠ 0

theorem StreamingHash.pass (h : StreamingHash alg hash Holds Within) {first second : InputBytes}
    (hfirst : first.missing = false) (hsecond : second.missing = false)
    (hfirstSize : first.data.length < 2 ^ 64) (hsecondSize : second.data.length < 2 ^ 64)
    (hwithin : Within (first.data.length + second.data.length)) (context : LiberaCHashContext) :
    (hmacPass alg (fixedDigestLength alg) first second context).1 =
      .ok (hash (first.data ++ second.data)) := by
  obtain ⟨state, hinit, hstate⟩ := h.streams.init
  have hless := h.streams.mono (Nat.le_add_right _ _) hwithin
  obtain ⟨middle, hupdate, hmiddle⟩ := h.streams.update hstate hfirstSize
    (by rwa [List.length_nil, Nat.zero_add])
  obtain ⟨after, hupdate', hafter⟩ := h.streams.update hmiddle hsecondSize
    (by rwa [List.nil_append])
  rw [hmacPass, bind_ok (liberacHashInit_ok hinit context),
    bind_ok (liberacHashUpdate_ok h.streams.family hfirst hupdate),
    bind_ok (liberacHashUpdate_ok h.streams.family hsecond hupdate')]
  exact h.release hafter

theorem StreamingHash.pass_error (h : StreamingHash alg hash Holds Within)
    {first second : InputBytes} (hfirst : first.missing = false)
    (hsecond : second.missing = false) (hfirstSize : first.data.length < 2 ^ 64)
    (hsecondSize : second.data.length < 2 ^ 64) (hless : Within first.data.length)
    (hwithin : ¬ Within (first.data.length + second.data.length)) (context : LiberaCHashContext) :
    ∃ after, hmacPass alg (fixedDigestLength alg) first second context =
      (.error .messageTooLarge, after) := by
  obtain ⟨state, hinit, hstate⟩ := h.streams.init
  obtain ⟨middle, hupdate, hmiddle⟩ := h.streams.update hstate hfirstSize
    (by rwa [List.length_nil, Nat.zero_add])
  have hrefused := h.tooLarge hmiddle hsecondSize (by rwa [List.nil_append])
  rw [hmacPass, bind_ok (liberacHashInit_ok hinit context),
    bind_ok (liberacHashUpdate_ok h.streams.family hfirst hupdate),
    bind_error (liberacHashUpdate_error h.streams.family hsecond hrefused)]
  exact ⟨_, rfl⟩

theorem StreamingHash.whole (h : StreamingHash alg hash Holds Within) {key : InputBytes}
    (hkey : key.missing = false) (hsize : key.data.length < 2 ^ 64) :
    (Within key.data.length →
      liberacHash false (fixedDigestLength alg) key alg = .ok (hash key.data)) ∧
    (¬ Within key.data.length →
      liberacHash false (fixedDigestLength alg) key alg = .error .messageTooLarge) := by
  obtain ⟨state, hinit, hstate⟩ := h.streams.init
  obtain ⟨hshake, hlength⟩ := h.fixed
  have hcalls : liberacHash false (fixedDigestLength alg) key alg =
      (hashCalls false (fixedDigestLength alg) key alg clearedContext).1 := by
    unfold liberacHash
    rw [if_neg (by simp [hkey]), if_neg (by simp [hlength]), if_neg (by simp)]
  rw [hcalls, hashCalls, bind_ok (liberacHashInit_ok hinit clearedContext)]
  constructor
  · intro hwithin
    obtain ⟨after, hupdate, hafter⟩ := h.streams.update hstate hsize
      (by rwa [List.length_nil, Nat.zero_add])
    rw [bind_ok (liberacHashUpdate_ok h.streams.family hkey hupdate)]
    exact h.release hafter
  · intro hwithin
    have hrefused := h.tooLarge hstate hsize (by rwa [List.length_nil, Nat.zero_add])
    rw [bind_error (liberacHashUpdate_error h.streams.family hkey hrefused)]

theorem keyPad_eq {key : List UInt8} {blockLength : Nat} (hkey : key.length ≤ blockLength)
    (capacity : Nat) (mask : UInt8) :
    keyPad (copyInto (List.replicate capacity 0) 0 key) blockLength mask =
      .bytes ((key ++ List.replicate (blockLength - key.length) 0).map (· ^^^ mask)) := by
  apply congrArg InputBytes.bytes
  apply List.ext_getElem
  · simp
    omega
  · intro i hi hi'
    have hbyte : (copyInto (List.replicate capacity 0) 0 key).getD i 0 =
        (key ++ List.replicate (blockLength - key.length) 0).getD i 0 := by
      rw [copyInto, List.take_zero, List.nil_append, List.drop_replicate]
      by_cases hlow : i < key.length
      · rw [List.getD_append _ _ _ _ hlow, List.getD_append _ _ _ _ hlow]
      · have hhigh := not_lt.mp hlow
        rw [List.getD_append_right _ _ _ _ hhigh, List.getD_append_right _ _ _ _ hhigh,
          List.getD_eq_getElem?_getD, List.getD_eq_getElem?_getD,
          List.getElem?_getD_replicate_default_eq, List.getElem?_getD_replicate_default_eq]
    rw [List.length_map] at hi'
    rw [List.getElem_map, List.getElem_map, List.getElem_range, hbyte,
      List.getD_eq_getElem _ _ hi']

/-- What RFC 2104 does with a key that is no longer than a block. -/
def padded (hash : List UInt8 → List UInt8) (blockLength : Nat) (key message : List UInt8) :
    List UInt8 :=
  let block := key ++ List.replicate (blockLength - key.length) 0
  hash (block.map (· ^^^ 0x5c) ++ hash (block.map (· ^^^ 0x36) ++ message))

theorem StreamingHash.calls (h : StreamingHash alg hash Holds Within) {p : HmacParameters}
    (hdigest : p.digestLength = fixedDigestLength alg) (hblock : p.digestLength ≤ p.blockLength)
    (hsize : p.blockLength < 2 ^ 64) (hsmall : Within (p.blockLength + p.digestLength))
    {message : InputBytes} (hmessage : message.missing = false)
    (hmessageSize : message.data.length < 2 ^ 64) {key : List UInt8}
    (hkey : key.length ≤ p.blockLength) (capacity : Nat) (context : LiberaCHashContext) :
    (Within (p.blockLength + message.data.length) →
      (hmacCalls p (copyInto (List.replicate capacity 0) 0 key) message alg context).1 =
        .ok (padded hash p.blockLength key message.data)) ∧
    (¬ Within (p.blockLength + message.data.length) →
      (hmacCalls p (copyInto (List.replicate capacity 0) 0 key) message alg context).1 =
        .error .messageTooLarge) := by
  let pad : UInt8 → InputBytes := fun mask =>
    .bytes ((key ++ List.replicate (p.blockLength - key.length) 0).map (· ^^^ mask))
  have hpad : ∀ mask, (pad mask).data.length = p.blockLength := by
    intro mask
    rw [InputBytes.data, List.length_map, List.length_append, List.length_replicate]
    omega
  have hpadSize : ∀ mask, (pad mask).data.length < 2 ^ 64 := fun mask => (hpad mask).trans_lt hsize
  have hthere : ∀ mask, (pad mask).missing = false := fun _ => rfl
  rw [hmacCalls, keyPad_eq hkey, keyPad_eq hkey, hdigest]
  rw [hdigest] at hsmall hblock
  constructor
  · intro hwithin
    have hinner := h.pass (hthere 0x36) hmessage (hpadSize 0x36) hmessageSize
      (by rwa [hpad]) context
    have hlength := h.length ((pad 0x36).data ++ message.data)
    rw [bind_ok (Prod.ext hinner rfl), bind_ok (show liberacHashClear _ = (.ok (), clearedContext)
      from rfl)]
    apply h.pass (hthere 0x5c) rfl (hpadSize 0x5c)
    · exact hlength.trans_lt (hblock.trans_lt hsize)
    · change Within ((pad 0x5c).data.length + (hash _).length)
      rwa [hpad, hlength]
  · intro hwithin
    obtain ⟨after, hinner⟩ := h.pass_error (hthere 0x36) hmessage (hpadSize 0x36) hmessageSize
      (by rw [hpad]; exact h.streams.mono (Nat.le_add_right _ _) hsmall) (by rwa [hpad]) context
    rw [bind_error hinner]

theorem StreamingHash.fullTag (h : StreamingHash alg hash Holds Within) {p : HmacParameters}
    (hdigest : p.digestLength = fixedDigestLength alg) (hblock : p.digestLength ≤ p.blockLength)
    (hsize : p.blockLength < 2 ^ 64) (hsmall : Within (p.blockLength + p.digestLength))
    {message key : InputBytes} (hmessage : message.missing = false) (hkey : key.missing = false)
    (hmessageSize : message.data.length < 2 ^ 64) (hkeySize : key.data.length < 2 ^ 64) :
    (Within (p.blockLength + message.data.length) →
        (p.blockLength < key.data.length → Within key.data.length) →
      hmacFullTag p message key alg = .ok (hmac hash p.blockLength key.data message.data)) ∧
    (¬ (Within (p.blockLength + message.data.length) ∧
        (p.blockLength < key.data.length → Within key.data.length)) →
      hmacFullTag p message key alg = .error .messageTooLarge) := by
  have hcalls : ∀ {k : List UInt8}, k.length ≤ p.blockLength → _ := fun {k} hk =>
    h.calls hdigest hblock hsize hsmall hmessage hmessageSize hk 144 clearedContext
  unfold hmacFullTag hmac
  by_cases hlong : p.blockLength < key.data.length
  · obtain ⟨hhash, hrefused⟩ := h.whole hkey hkeySize
    rw [if_pos hlong, if_pos hlong, hdigest]
    have hlength := h.length key.data
    constructor
    · intro hwithin hkeyWithin
      rw [hhash (hkeyWithin hlong)]
      exact (hcalls (by omega)).1 hwithin
    · intro hnot
      by_cases hkeyWithin : Within key.data.length
      · rw [hhash hkeyWithin]
        exact (hcalls (by omega)).2 fun hwithin => hnot ⟨hwithin, fun _ => hkeyWithin⟩
      · rw [hrefused hkeyWithin]
        rfl
  · rw [if_neg hlong, if_neg hlong]
    constructor
    · intro hwithin _
      exact (hcalls (not_lt.mp hlong)).1 hwithin
    · intro hnot
      exact (hcalls (not_lt.mp hlong)).2 fun hwithin => hnot ⟨hwithin, fun hlt => absurd hlt hlong⟩

end Streaming

section Supported

variable {alg : LiberaCAlgID} {p : HmacParameters}

theorem sha2Digest_length (alg : LiberaCAlgID) (start : CryptoSha2State) (xs : List UInt8) :
    (sha2Digest alg start xs).length =
      min (sha2DigestLength alg) (if start.useSha512 then 64 else 32) := by
  have hkind : (foldPadded sha2Compress (sha2BlockLength start) 0x80 0
      (bigEndian (sha2LengthBytes start) (8 * xs.length)) start xs).useSha512 =
        start.useSha512 := foldBlocks_useSha512 _ _ _
  rw [sha2Digest, List.length_take, ← hkind]
  cases foldPadded sha2Compress (sha2BlockLength start) 0x80 0
      (bigEndian (sha2LengthBytes start) (8 * xs.length)) start xs with
  | words32 words =>
    rw [CryptoSha2State.digest, stores_length (k := 4) cryptoStore32Be fun _ => rfl,
      Vector.length_toList]
    rfl
  | words64 words =>
    rw [CryptoSha2State.digest, stores_length (k := 8) cryptoStore64Be fun _ => rfl,
      Vector.length_toList]
    rfl

theorem hashDigest_length (hp : hmacParameters alg = .ok p) (xs : List UInt8) :
    (hashDigest alg xs).length = fixedDigestLength alg := by
  cases alg
  case hashSha1 => exact sha1Digest_length xs
  case hashSha2_224 | hashSha2_256 | hashSha2_384 | hashSha2_512 | hashSha2_512_224 |
      hashSha2_512_256 =>
    exact sha2Digest_length _ _ xs
  case hashSha3_224 | hashSha3_256 | hashSha3_384 | hashSha3_512 =>
    exact squeezeBytes_length _ _
  all_goals cases hp

theorem merkleDamgard_hash (halg : isMerkleDamgard alg = true)
    (hlength : ∀ xs, (paddedDigest alg xs).length = fixedDigestLength alg) :
    StreamingHash alg (paddedDigest alg) (StateHolds alg) (WithinLimit alg) where
  streams := merkleDamgard_streams halg
  tooLarge h hsize hover := stateHolds_tooLarge halg h hsize hover
  release h := releaseDigest_eq halg h (le_refl _)
  length := hlength
  fixed := ⟨(isMerkleDamgard_fixed halg).1, (isMerkleDamgard_fixed halg).2.1⟩

theorem hashDigest_bits (halg : isSha3 alg = true) (xs : List UInt8) :
    (hashDigest alg xs).flatMap byteBits = spongeOutput alg xs (fixedDigestLength alg) := by
  obtain ⟨-, hrate, hcapacity, -⟩ := isSha3_facts halg
  have habsorbed := cryptoSha3Update_absorbing hrate hcapacity
    (absorbing_init (rateBytes alg) (domainByte alg)) xs
  have hsqueezing := cryptoSha3Finalize_squeezing hrate hcapacity (encodes_suffix alg) habsorbed
  have hbits := (squeezeBytes_squeezing hrate hcapacity hsqueezing (fixedDigestLength alg)).1
  have hready : cryptoSha3Squeeze (cryptoSha3Update (sha3ContextInit (rateBytes alg)
      (domainByte alg)) xs) (fixedDigestLength alg) = squeezeBytes (fixedDigestLength alg)
        (cryptoSha3Finalize (cryptoSha3Update (sha3ContextInit (rateBytes alg)
          (domainByte alg)) xs)) := by
    rw [cryptoSha3Squeeze, if_neg (by rw [habsorbed.finalized]; exact Bool.false_ne_true)]
  rw [hashDigest, if_pos halg, hready, ← outputBits_eq halg]
  exact hbits

theorem sha3_hash (halg : isSha3 alg = true) (hfixed : isShake alg = false)
    (hlength : ∀ xs, (hashDigest alg xs).length = fixedDigestLength alg) :
    StreamingHash alg (hashDigest alg) (StateAbsorbed alg) fun _ => True where
  streams := sha3_streams halg
  tooLarge _ _ hover := absurd trivial hover
  release h := by
    obtain ⟨digest, hrelease, hbits⟩ := releaseDigest_bits halg hfixed h (le_refl _)
    rw [hrelease, bytes_ext (hbits.trans (hashDigest_bits halg _).symm)]
  length := hlength
  fixed := by
    refine ⟨hfixed, ?_⟩
    revert halg hfixed
    cases alg <;> decide

theorem streamingHash (hp : hmacParameters alg = .ok p) :
    ∃ Holds, StreamingHash alg (hashDigest alg) Holds (WithinLimit alg) := by
  have hlength := hashDigest_length hp
  cases alg
  case hashSha1 | hashSha2_224 | hashSha2_256 | hashSha2_384 | hashSha2_512 | hashSha2_512_224 |
      hashSha2_512_256 =>
    exact ⟨_, merkleDamgard_hash rfl hlength⟩
  case hashSha3_224 | hashSha3_256 | hashSha3_384 | hashSha3_512 =>
    exact ⟨_, sha3_hash rfl rfl hlength⟩
  all_goals cases hp

theorem hmacParameters_sizes (hp : hmacParameters alg = .ok p) :
    p.digestLength = fixedDigestLength alg ∧ p.blockLength = hashBlockLength alg ∧
      p.digestLength ≤ p.blockLength ∧ p.blockLength < 2 ^ 64 ∧ p.digestLength ≤ 64 ∧
      WithinLimit alg (p.blockLength + p.digestLength) := by
  cases alg
  case hashSha1 | hashSha2_224 | hashSha2_256 | hashSha2_384 | hashSha2_512 | hashSha2_512_224 |
      hashSha2_512_256 | hashSha3_224 | hashSha3_256 | hashSha3_384 | hashSha3_512 =>
    cases hp
    refine ⟨rfl, rfl, by decide, by decide, by decide, ?_⟩
    simp [WithinLimit]
  all_goals cases hp

theorem hmac_length (hp : hmacParameters alg = .ok p) (key message : List UInt8) :
    (hmac (hashDigest alg) p.blockLength key message).length = p.digestLength :=
  (hashDigest_length hp _).trans (hmacParameters_sizes hp).1.symm

/-- The limits of the hash on what the two passes and the hashing of a long key are given. -/
def KeyedWithin (alg : LiberaCAlgID) (blockLength : Nat) (key message : List UInt8) : Prop :=
  WithinLimit alg (blockLength + message.length) ∧
    (blockLength < key.length → WithinLimit alg key.length)

theorem hmacFullTag_eq (hp : hmacParameters alg = .ok p) {message key : InputBytes}
    (hmessage : message.missing = false) (hkey : key.missing = false)
    (hmessageSize : message.data.length < 2 ^ 64) (hkeySize : key.data.length < 2 ^ 64) :
    (KeyedWithin alg p.blockLength key.data message.data →
      hmacFullTag p message key alg =
        .ok (hmac (hashDigest alg) p.blockLength key.data message.data)) ∧
    (¬ KeyedWithin alg p.blockLength key.data message.data →
      hmacFullTag p message key alg = .error .messageTooLarge) := by
  obtain ⟨Holds, h⟩ := streamingHash hp
  obtain ⟨hdigest, -, hfits, hsize, -, hsmall⟩ := hmacParameters_sizes hp
  obtain ⟨hin, hout⟩ := h.fullTag hdigest hfits hsize hsmall hmessage hkey hmessageSize hkeySize
  exact ⟨fun hwithin => hin hwithin.1 hwithin.2, hout⟩

theorem liberacHmac_iff (hp : hmacParameters alg = .ok p) {message key : InputBytes}
    (hmessageSize : message.data.length < 2 ^ 64) (hkeySize : key.data.length < 2 ^ 64)
    (tagNull : Bool) (tagCapacity tagLength : Nat) (tag : List UInt8) :
    liberacHmac tagNull tagCapacity tagLength message key alg = .ok tag ↔
      (0 < tagLength ∧ tagLength ≤ p.digestLength ∧ tagNull = false ∧ message.missing = false ∧
        key.missing = false ∧ tagLength ≤ tagCapacity) ∧
      KeyedWithin alg p.blockLength key.data message.data ∧
      tag = (hmac (hashDigest alg) p.blockLength key.data message.data).take tagLength := by
  rw [liberacHmac, hp]
  simp only [bind, Except.bind]
  by_cases hargs : tagLength = 0 ∨ p.digestLength < tagLength ∨ tagNull ∨ message.missing ∨
      key.missing
  · rw [if_pos hargs]
    constructor
    · intro h
      cases h
    · rintro ⟨⟨hpositive, hlength, hnull, hmessage, hkey, -⟩, -⟩
      rw [hnull, hmessage, hkey] at hargs
      rcases hargs with h | h | h | h | h
      · omega
      · omega
      all_goals cases h
  · rw [if_neg hargs]
    simp only [not_or, Bool.not_eq_true, not_lt] at hargs
    obtain ⟨hpositive, hlength, hnull, hmessage, hkey⟩ := hargs
    by_cases hcapacity : tagCapacity < tagLength
    · rw [if_pos hcapacity]
      constructor
      · intro h
        cases h
      · rintro ⟨⟨-, -, -, -, -, h⟩, -⟩
        omega
    · rw [if_neg hcapacity]
      obtain ⟨hin, hout⟩ := hmacFullTag_eq hp hmessage hkey hmessageSize hkeySize
      by_cases hwithin : KeyedWithin alg p.blockLength key.data message.data
      · rw [hin hwithin]
        constructor
        · intro h
          cases h
          exact ⟨⟨Nat.pos_of_ne_zero hpositive, hlength, hnull, hmessage, hkey,
            not_lt.mp hcapacity⟩, hwithin, rfl⟩
        · rintro ⟨-, -, rfl⟩
          rfl
      · rw [hout hwithin]
        constructor
        · intro h
          cases h
        · rintro ⟨-, h, -⟩
          exact absurd h hwithin

/-- A tag is accepted exactly when it is the one that the call makes. -/
theorem compared_iff {made : Except LiberaCError (List UInt8)} {tag : List UInt8} {capacity : Nat}
    (hmade : ∀ written, made = .ok written → written.length = tag.length) :
    (do
      let written ← made
      let expected := copyInto (List.replicate capacity 0) 0 written
      if cryptoConstantTimeEqual expected tag tag.length then .ok ()
      else .error .authenticationFailed) = Except.ok () ↔ made = .ok tag := by
  cases made with
  | error e =>
    constructor <;> intro h <;> cases h
  | ok written =>
    have hsize := hmade written rfl
    have htake := @copyInto_take (List.replicate capacity 0) written 0 (Nat.zero_le _)
    have hcompare := cryptoConstantTimeEqual_take (copyInto (List.replicate capacity 0) 0 written)
      hsize.symm (by simp [copyInto])
    rw [Nat.zero_add, List.take_zero, List.nil_append] at htake
    rw [htake, hsize] at hcompare
    simp only [bind, Except.bind]
    by_cases hequal : cryptoConstantTimeEqual (copyInto (List.replicate capacity 0) 0 written) tag
        tag.length = true
    · rw [if_pos hequal, hcompare.mp hequal]
      exact ⟨fun _ => rfl, fun _ => rfl⟩
    · rw [if_neg hequal]
      constructor
      · intro h
        cases h
      · intro h
        cases h
        exact absurd (hcompare.mpr rfl) hequal

theorem liberacHmacVerify_iff (hp : hmacParameters alg = .ok p) {message key : InputBytes}
    (hmessageSize : message.data.length < 2 ^ 64) (hkeySize : key.data.length < 2 ^ 64)
    (tag : List UInt8) :
    liberacHmacVerify (some tag) message key alg = .ok () ↔
      (0 < tag.length ∧ tag.length ≤ p.digestLength ∧ message.missing = false ∧
        key.missing = false) ∧
      KeyedWithin alg p.blockLength key.data message.data ∧
      tag = (hmac (hashDigest alg) p.blockLength key.data message.data).take tag.length := by
  have hiff := liberacHmac_iff hp hmessageSize hkeySize false 64 tag.length
  have hbound := (hmacParameters_sizes hp).2.2.2.2.1
  have hsize : ∀ written, liberacHmac false 64 tag.length message key alg = .ok written →
      written.length = tag.length := by
    intro written hwritten
    obtain ⟨⟨-, hlength, -⟩, -, heq⟩ := (hiff written).mp hwritten
    rw [heq, List.length_take, hmac_length hp, Nat.min_eq_left hlength]
  rw [liberacHmacVerify, compared_iff hsize, hiff]
  constructor
  · rintro ⟨⟨hpositive, hlength, -, hmessage, hkey, -⟩, hrest⟩
    exact ⟨⟨hpositive, hlength, hmessage, hkey⟩, hrest⟩
  · rintro ⟨⟨hpositive, hlength, hmessage, hkey⟩, hrest⟩
    exact ⟨⟨hpositive, hlength, rfl, hmessage, hkey, hlength.trans hbound⟩, hrest⟩

/-- The tag of every supported hash is the truncated tag of RFC 2104, over the digest and the
block length of that hash. It is made exactly when the arguments are in order and the hash takes
what it is given, and it is the only tag of its length that is accepted. -/
theorem hmac_rfc2104 (hp : hmacParameters alg = .ok p) {message key : InputBytes}
    (hmessageSize : message.data.length < 2 ^ 64) (hkeySize : key.data.length < 2 ^ 64) :
    (p.digestLength = fixedDigestLength alg ∧ p.blockLength = hashBlockLength alg ∧
      (isSha3 alg = true → ∀ xs,
        (hashDigest alg xs).flatMap byteBits = spongeOutput alg xs p.digestLength)) ∧
    (∀ tagNull tagCapacity tagLength tag,
      liberacHmac tagNull tagCapacity tagLength message key alg = .ok tag ↔
        (0 < tagLength ∧ tagLength ≤ p.digestLength ∧ tagNull = false ∧
          message.missing = false ∧ key.missing = false ∧ tagLength ≤ tagCapacity) ∧
        KeyedWithin alg p.blockLength key.data message.data ∧
        tag = (hmac (hashDigest alg) p.blockLength key.data message.data).take tagLength) ∧
    ∀ tag, liberacHmacVerify (some tag) message key alg = .ok () ↔
      (0 < tag.length ∧ tag.length ≤ p.digestLength ∧ message.missing = false ∧
        key.missing = false) ∧
      KeyedWithin alg p.blockLength key.data message.data ∧
      tag = (hmac (hashDigest alg) p.blockLength key.data message.data).take tag.length := by
  obtain ⟨hdigest, hblock, -⟩ := hmacParameters_sizes hp
  refine ⟨⟨hdigest, hblock, fun halg xs => ?_⟩, liberacHmac_iff hp hmessageSize hkeySize,
    liberacHmacVerify_iff hp hmessageSize hkeySize⟩
  rw [hdigest]
  exact hashDigest_bits halg xs

theorem hmac_rfc2104_short :
    ∃ tag, liberacHmac false 64 16 (.bytes [1, 2, 3]) (.null 0) .hashSha3_256 = .ok tag :=
  ⟨_, ((@hmac_rfc2104 .hashSha3_256 _ rfl _ _ (by decide) (by decide)).2.1 _ _ _ _).mpr
    ⟨by decide, ⟨trivial, fun _ => trivial⟩, rfl⟩⟩

end Supported

end LiberaCrypt.Hmac
