import LiberaCrypt.BignumAdd
import LiberaCrypt.CtrDrbg
import LiberaCrypt.LimbBytes

namespace LiberaCrypt.BignumRandom

open LiberaCrypt.Outcome LiberaCrypt.Allocation LiberaCrypt.BigEndian LiberaCrypt.Limbs
open LiberaCrypt.LimbBytes LiberaCrypt.Bignum LiberaCrypt.BignumAdd

/-- What the operating system answers to the `k`-th request for random bytes. -/
abbrev Entropy := Nat → Option (Nat → UInt8)

/-- A function that may also draw random bytes; the state counts its draws. -/
abbrev Randomized := ReaderT Entropy (StateT Nat Fallible)

variable {α β : Type}

def randomBytes (length : Nat) : Randomized (List UInt8) := fun entropy draws =>
  match CtrDrbg.cryptoRandomBytesInternal (entropy draws) length with
  | .error e => throw e
  | .ok drawn => pure (drawn, draws + 1)

/-- The loop `for (tries = 0; tries < n; ++tries)` over a body that may find a result. -/
def retry (status : LiberaCError) (body : Randomized (Option α)) : Nat → Randomized α
  | 0 => throw status
  | tries + 1 => do
    match ← body with
    | some a => pure a
    | none => retry status body tries

/-- Every value that `x` returns satisfies `post`. -/
def Returns (x : Randomized α) (post : α → Prop) : Prop :=
  ∀ entropy draws host k a draws', outcome (x entropy draws) host k = .ok (a, draws') → post a

def ReturnsOn (entropy : Entropy) (host : Host) (x : Randomized α) (post : α → Prop) : Prop :=
  ∀ draws k a draws', outcome (x entropy draws) host k = .ok (a, draws') → post a

section Rules

variable {post mid : α → Prop} {x : Randomized α} {status : LiberaCError} {entropy : Entropy}
  {host : Host}

theorem returns_iff : Returns x post ↔ ∀ entropy host, ReturnsOn entropy host x post :=
  ⟨fun h entropy host draws => h entropy draws host, fun h entropy draws host => h entropy host draws⟩

theorem Returns.on (h : Returns x post) : ReturnsOn entropy host x post :=
  returns_iff.mp h entropy host

theorem ReturnsOn.mono {weak : α → Prop} (h : ReturnsOn entropy host x post)
    (hpost : ∀ a, post a → weak a) : ReturnsOn entropy host x weak :=
  fun draws k a draws' hrun => hpost a (h draws k a draws' hrun)

theorem ReturnsOn.bind {f : α → Randomized β} {post : β → Prop} (hx : ReturnsOn entropy host x mid)
    (hf : ∀ a, mid a → ReturnsOn entropy host (f a) post) :
    ReturnsOn entropy host (x >>= f) post := by
  intro draws k b draws' hrun
  change outcome (x entropy draws >>= fun r => f r.1 entropy r.2) host k = _ at hrun
  rw [outcome_bind] at hrun
  rcases hfirst : x entropy draws host k with ⟨e | ⟨a, next⟩, k'⟩
  · rw [hfirst] at hrun
    exact nomatch hrun
  · rw [hfirst] at hrun
    have ha := hx draws k a next (congrArg Prod.fst hfirst)
    exact hf a ha next k' b draws' hrun

theorem Returns.pure {a : α} (h : post a) : Returns (pure a) post := by
  intro entropy draws host k a' draws' hrun
  cases hrun
  exact h

theorem Returns.throw : Returns (throw status) post := nofun

theorem Returns.mono {weak : α → Prop} (h : Returns x post) (hpost : ∀ a, post a → weak a) :
    Returns x weak :=
  returns_iff.mpr fun _ _ => h.on.mono hpost

theorem Returns.bind {f : α → Randomized β} {post : β → Prop} (hx : Returns x mid)
    (hf : ∀ a, mid a → Returns (f a) post) : Returns (x >>= f) post :=
  returns_iff.mpr fun _ _ => hx.on.bind fun a ha => (hf a ha).on

theorem ReturnsOn.retry {body : Randomized (Option α)}
    (h : ReturnsOn entropy host body fun found => ∀ a, found = some a → post a) (tries : Nat) :
    ReturnsOn entropy host (retry status body tries) post := by
  induction tries with
  | zero => exact Returns.throw.on
  | succ tries ih =>
    rw [BignumRandom.retry]
    refine h.bind fun found hfound => ?_
    cases found with
    | none => exact ih
    | some a => exact (Returns.pure (hfound a rfl)).on

theorem Returns.retry {body : Randomized (Option α)}
    (h : Returns body fun found => ∀ a, found = some a → post a) (tries : Nat) :
    Returns (retry status body tries) post :=
  returns_iff.mpr fun _ _ => h.on.retry tries

theorem Returns.bind_congr {f g : α → Randomized β} (hx : Returns x mid)
    (hfg : ∀ a, mid a → f a = g a) : x >>= f = x >>= g := by
  have hbind : ∀ (h : α → Randomized β) entropy draws host k, (x >>= h) entropy draws host k =
      match x entropy draws host k with
        | (.ok (a, next), k') => h a entropy next host k'
        | (.error e, k') => (.error e, k') := by
    intro h entropy draws host k
    change (match x entropy draws host k with
      | (r, k') => (ExceptT.bindCont (fun r : α × Nat => h r.1 entropy r.2 host) r) k') = _
    rcases x entropy draws host k with ⟨r | r, k'⟩ <;> rfl
  funext entropy draws host k
  rw [hbind, hbind]
  rcases hrun : x entropy draws host k with ⟨e | ⟨a, next⟩, k'⟩
  · rfl
  · have ha := hx entropy draws host k a next (congrArg Prod.fst hrun)
    dsimp only
    rw [hfg a ha]

theorem Returns.any : Returns x fun _ => True := fun _ _ _ _ _ _ _ => trivial

theorem Returns.lift {y : Fallible α} {room : Nat} (h : Ensures room y post) :
    Returns (liftM y : Randomized α) post := by
  intro entropy draws host k a draws' hrun
  change outcome (y >>= fun a => Pure.pure (a, draws)) host k = _ at hrun
  rw [outcome_bind] at hrun
  have hy := h host k
  unfold outcome at hy
  rcases hrest : y host k with ⟨e | b, k'⟩
  · rw [hrest] at hrun
    exact nomatch hrun
  · rw [hrest] at hrun hy
    cases hrun
    exact hy

end Rules

def cryptoBignumFromBytesBe (out : LiberaCBignum) (bytes : List UInt8) :
    Fallible LiberaCBignum :=
  if sizeMax / 8 < bytes.length then throw .messageTooLarge
  else do
    let limbs := (bytes.length + 3) / 4
    let grown ← reported (bignumReserve out limbs) .allocationFailed
    pure (bignumNormalize
      ⟨limbsOfBytes grown.capacity bytes, limbs⟩)

def cryptoBignumRandomBits (out : LiberaCBignum) (bits : Nat) (setTopBit setOdd : Bool) :
    Randomized LiberaCBignum :=
  if bits = 0 then throw .invalidArgument
  else if sizeMax - 7 < bits then throw .messageTooLarge
  else do
    let bytes := (bits + 7) / 8
    allocate bytes .allocationFailed
    let buf ← randomBytes bytes
    let unused := bytes * 8 - bits
    let buf := if unused ≠ 0 then buf.modify 0 (· &&& (0xff >>> UInt8.ofNat unused)) else buf
    let buf := if setTopBit then buf.modify 0 (· ||| (1 <<< UInt8.ofNat (7 - unused))) else buf
    let buf := if setOdd then buf.modify (bytes - 1) (· ||| 1) else buf
    cryptoBignumFromBytesBe out buf

def cryptoBignumRandomRange (upperExclusive : LiberaCBignum) : Randomized LiberaCBignum :=
  if upperExclusive.length = 0 then throw .invalidArgument
  else
    let bits := cryptoBignumBitLength upperExclusive
    retry .internal (do
      let x ← cryptoBignumRandomBits cryptoBignumInit bits false false
      pure (if cryptoBignumCompare x upperExclusive = .lt then some x else none)) 128

variable {out upper : LiberaCBignum} {room : Nat}

theorem cryptoBignumFromBytesBe_ensures (hout : out.Valid) (data : List UInt8)
    (h : 8 * data.length ≤ room) :
    Ensures room (cryptoBignumFromBytesBe out data) fun r => r.Valid ∧ r.value = beValue data := by
  unfold cryptoBignumFromBytesBe
  apply Ensures.guard
  · intro hroom
    omega
  intro _
  apply (Ensures.reported (bignumReserve_ensures hout
    (show 4 * ((data.length + 3) / 4) ≤ room by omega))).bind
  rintro grown ⟨-, -, -, hcapacity, -⟩
  obtain ⟨hlength, hvalue⟩ := @limbsOfBytes_spec data grown.capacity (by omega)
  have hlt : wordsValue (limbsOfBytes grown.capacity data) <
      wordBase ^ ((data.length + 3) / 4) := by
    rw [hvalue]
    apply (beValue_lt data).trans_le
    rw [wordBase, ← pow_mul, show 256 = 2 ^ 8 from rfl, ← pow_mul]
    exact Nat.pow_le_pow_right Nat.two_pos (by omega)
  have hnormal := bignumNormalize_valid
    (a := ⟨limbsOfBytes grown.capacity data, (data.length + 3) / 4⟩)
    (hcapacity.trans hlength.ge) fun i hi => limb_eq_zero hlt hi
  rw [hvalue] at hnormal
  exact Ensures.pure hnormal

section Bits

variable {out : LiberaCBignum} {bytes : List UInt8} {x : UInt8} {u : Nat}

theorem or_one (n : Nat) : n ||| 1 = 2 * (n / 2) + 1 := by
  have hhalf : (n ||| 1) / 2 = n / 2 := by
    have hdiv := @Nat.or_div_two_pow n 1 1
    simpa using hdiv
  have hlow : (n ||| 1) % 2 = 1 := by simp
  omega

theorem modify_last (first : List UInt8) (last : UInt8) (f : UInt8 → UInt8) :
    (first ++ [last]).modify first.length f = first ++ [f last] := by
  induction first with
  | nil => rfl
  | cons y first ih => simp [ih]

theorem beValue_odd (hbytes : bytes ≠ []) :
    beValue (bytes.modify (bytes.length - 1) (· ||| 1)) = 2 * (beValue bytes / 2) + 1 := by
  obtain ⟨first, last, rfl⟩ := (List.eq_nil_or_concat bytes).resolve_left hbytes
  have hmodify : (first.concat last).modify ((first.concat last).length - 1) (· ||| 1) =
      first ++ [last ||| 1] := by
    rw [List.concat_eq_append, List.length_append, List.length_singleton, Nat.add_sub_cancel]
    exact modify_last first last _
  have hlast : (last ||| 1).toNat = 2 * (last.toNat / 2) + 1 := by
    rw [UInt8.toNat_or]
    exact or_one last.toNat
  rw [hmodify, List.concat_eq_append, beValue_append_byte, beValue_append_byte, hlast]
  omega

/-- The masks on the first byte leave it a number of the wanted length. -/
theorem firstByte_spec (hu : u < 8) (setTopBit : Bool) :
    let masked := if u ≠ 0 then x &&& (0xff >>> UInt8.ofNat u) else x
    let top := if setTopBit then masked ||| (1 <<< UInt8.ofNat (7 - u)) else masked
    top.toNat < 2 ^ (8 - u) ∧ (setTopBit = true → 2 ^ (7 - u) ≤ top.toNat) := by
  intro masked top
  have hmask : masked.toNat < 2 ^ (8 - u) := by
    by_cases hzero : u = 0
    · have hx := x.toNat_lt
      simpa [masked, hzero] using hx
    · have hshift : (0xff >>> UInt8.ofNat u : UInt8).toNat = 2 ^ (8 - u) - 1 := by
        interval_cases u <;> rfl
      have hpos := Nat.two_pow_pos (8 - u)
      rw [show masked = x &&& (0xff >>> UInt8.ofNat u) from if_pos hzero, UInt8.toNat_and, hshift,
        Nat.and_two_pow_sub_one_eq_mod]
      exact Nat.mod_lt _ hpos
  have hbit : (1 <<< UInt8.ofNat (7 - u) : UInt8).toNat = 2 ^ (7 - u) := by
    interval_cases u <;> rfl
  cases setTopBit with
  | false => exact ⟨hmask, fun hfalse => absurd hfalse Bool.false_ne_true⟩
  | true =>
    have htop : top.toNat = masked.toNat ||| 2 ^ (7 - u) := by
      rw [show top = masked ||| (1 <<< UInt8.ofNat (7 - u)) from rfl, UInt8.toNat_or, hbit]
    have hless : 2 ^ (7 - u) < 2 ^ (8 - u) := Nat.pow_lt_pow_right (by decide) (by omega)
    rw [htop]
    exact ⟨Nat.or_lt_two_pow hmask hless, fun _ => Nat.right_le_or⟩

theorem maskedBytes_spec {bits : Nat} (hbits : bits ≠ 0) (setTopBit setOdd : Bool)
    (hlength : bytes.length = (bits + 7) / 8) :
    let unused := (bits + 7) / 8 * 8 - bits
    let buf := if unused ≠ 0 then bytes.modify 0 (· &&& (0xff >>> UInt8.ofNat unused)) else bytes
    let buf := if setTopBit then buf.modify 0 (· ||| (1 <<< UInt8.ofNat (7 - unused))) else buf
    let buf := if setOdd then buf.modify ((bits + 7) / 8 - 1) (· ||| 1) else buf
    beValue buf < 2 ^ bits ∧ (setTopBit = true → 2 ^ (bits - 1) ≤ beValue buf) ∧
      (setOdd = true → beValue buf % 2 = 1) := by
  intro unused buf buf' buf''
  obtain ⟨m, hm⟩ := Nat.exists_eq_add_of_lt (show 0 < (bits + 7) / 8 by omega)
  have hu : unused < 8 := by omega
  have hsplit : bits = 8 * m + (8 - unused) := by omega
  cases bytes with
  | nil =>
    rw [List.length_nil] at hlength
    omega
  | cons x rest =>
    have hrest : rest.length = m := by
      rw [List.length_cons] at hlength
      omega
    obtain ⟨hless, htop⟩ := @firstByte_spec x unused hu setTopBit
    generalize hfirst : (if setTopBit then (if unused ≠ 0 then x &&& (0xff >>> UInt8.ofNat unused)
      else x) ||| (1 <<< UInt8.ofNat (7 - unused)) else
        if unused ≠ 0 then x &&& (0xff >>> UInt8.ofNat unused) else x) = first at hless htop
    have hbuf : buf' = first :: rest := by
      rw [← hfirst]
      simp only [buf', buf]
      split_ifs <;> rfl
    have hlow := beValue_lt rest
    have hvalue := beValue_cons first rest
    have hweight : 256 ^ rest.length = 2 ^ (8 * m) := by
      rw [hrest, show 256 = 2 ^ 8 from rfl, ← pow_mul]
    rw [← hbuf, hweight] at hvalue
    rw [hweight] at hlow
    have hbound : beValue buf' < 2 ^ bits := by
      rw [hvalue, hsplit, pow_add]
      have hmul := Nat.mul_le_mul_left (2 ^ (8 * m)) hless
      rw [Nat.mul_succ] at hmul
      omega
    have hleast : setTopBit = true → 2 ^ (bits - 1) ≤ beValue buf' := by
      intro hset
      rw [hvalue, hsplit, Nat.add_sub_assoc (by omega), pow_add,
        show 8 - unused - 1 = 7 - unused by omega]
      exact (Nat.mul_le_mul_left _ (htop hset)).trans (Nat.le_add_right _ _)
    cases setOdd with
    | false => exact ⟨hbound, hleast, fun hfalse => absurd hfalse Bool.false_ne_true⟩
    | true =>
      have hlast : (bits + 7) / 8 - 1 = buf'.length - 1 := by
        rw [hbuf, List.length_cons, hrest]
        omega
      have hne : buf' ≠ [] := by simp [hbuf]
      have hodd : beValue buf'' = 2 * (beValue buf' / 2) + 1 := by
        rw [← beValue_odd hne, ← hlast]
        rfl
      have heven : 2 ^ bits = 2 * 2 ^ (bits - 1) := by
        rw [← pow_succ']
        congr 1
        omega
      refine ⟨by omega, fun hset => ?_, fun _ => by omega⟩
      have hset' := hleast hset
      omega

theorem randomBytes_returns (length : Nat) :
    Returns (randomBytes length) fun drawn => drawn.length = length := by
  intro entropy draws host k drawn draws' hrun
  unfold randomBytes at hrun
  cases hsource : entropy draws with
  | none =>
    rw [hsource] at hrun
    cases hrun
  | some byte =>
    rw [hsource] at hrun
    cases hrun
    simp

theorem cryptoBignumRandomBits_returns (hout : out.Valid) {bits : Nat} (setTopBit setOdd : Bool) :
    Returns (cryptoBignumRandomBits out bits setTopBit setOdd) fun a => a.Valid ∧
      a.value < 2 ^ bits ∧ (setTopBit = true → 2 ^ (bits - 1) ≤ a.value) ∧
        (setOdd = true → a.value % 2 = 1) := by
  unfold cryptoBignumRandomBits
  by_cases hzero : bits = 0
  · rw [if_pos hzero]
    exact Returns.throw
  rw [if_neg hzero]
  by_cases hbig : sizeMax - 7 < bits
  · rw [if_pos hbig]
    exact Returns.throw
  rw [if_neg hbig]
  refine Returns.any.bind fun _ _ => (randomBytes_returns _).bind fun drawn hdrawn => ?_
  refine (Returns.lift (cryptoBignumFromBytesBe_ensures hout _ (le_refl _))).mono ?_
  rintro a ⟨hvalid, hvalue⟩
  have hmasked := maskedBytes_spec hzero setTopBit setOdd hdrawn
  rw [hvalue]
  exact ⟨hvalid, hmasked⟩

end Bits

theorem cryptoBignumRandomRange_returns (hupper : upper.Valid) :
    Returns (cryptoBignumRandomRange upper) fun x => x.Valid ∧ x.value < upper.value := by
  unfold cryptoBignumRandomRange
  split_ifs
  · exact Returns.throw
  refine Returns.retry ((cryptoBignumRandomBits_returns init_valid false false).bind
    fun x ⟨hx, _⟩ => Returns.pure fun a ha => ?_) 128
  rw [cryptoBignumCompare_eq hx hupper] at ha
  split_ifs at ha with hlt
  cases ha
  exact ⟨hx, Nat.compare_eq_lt.mp hlt⟩

end LiberaCrypt.BignumRandom
