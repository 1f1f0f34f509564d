import LiberaCrypt.KeyDerivation

namespace LiberaCrypt.KeyDerivationCorrect

open LiberaCrypt.Outcome LiberaCrypt.Allocation LiberaCrypt.ByteMemory LiberaCrypt.Def
open LiberaCrypt.Endian LiberaCrypt.FillLoop LiberaCrypt.KeystreamXor LiberaCrypt.MemoryFill
open LiberaCrypt.KeyDerivation

section Standard

-- the key comes first, then the message
variable (mac : List UInt8 → List UInt8 → List UInt8)

/-- `T(i)`; the last byte of what is hashed is `i`. -/
def hkdfT (prk info : List UInt8) : Nat → List UInt8
  | 0 => []
  | i + 1 => mac prk (hkdfT prk info i ++ info ++ [UInt8.ofNat (i + 1)])

def hkdfPrk (n : Nat) (salt ikm : List UInt8) : List UInt8 :=
  mac (if salt.length = 0 then List.replicate n 0 else salt) ikm

/-- The first bytes of `T(1) || T(2) || ...`. -/
def hkdfOkm (n : Nat) (salt ikm info : List UInt8) (length : Nat) : List UInt8 :=
  filled (fun i => hkdfT mac (hkdfPrk mac n salt ikm) info (i + 1)) n length

/-- `U_(j + 1)` of the block whose salt and index are given. -/
def pbkdf2U (password saltAndIndex : List UInt8) : Nat → List UInt8
  | 0 => mac password saltAndIndex
  | j + 1 => mac password (pbkdf2U password saltAndIndex j)

/-- `U_1 xor ... xor U_(k + 1)`. -/
def pbkdf2Sum (password saltAndIndex : List UInt8) : Nat → List UInt8
  | 0 => pbkdf2U mac password saltAndIndex 0
  | k + 1 => xorBytes (pbkdf2Sum password saltAndIndex k) (pbkdf2U mac password saltAndIndex (k + 1))

def pbkdf2Key (n : Nat) (password salt : List UInt8) (iterationCount length : Nat) : List UInt8 :=
  filled (fun i => pbkdf2Sum mac password (salt ++ bigEndian 4 (i + 1)) (iterationCount - 1)) n
    length

end Standard

/-- `LIBERAC_HMAC` has no other tag than that of `mac`, and all of it. -/
structure Computes (hmac : LiberaCAlgID → List UInt8 → List UInt8 → Except LiberaCError (List UInt8))
    (mac : List UInt8 → List UInt8 → List UInt8) (alg : LiberaCAlgID) : Prop where
  tag : ∀ message key tag, hmac alg message key = .ok tag → tag = mac key message
  length : ∀ key message, (mac key message).length = hmacTagSize alg

def Fails (hmac : LiberaCAlgID → List UInt8 → List UInt8 → Except LiberaCError (List UInt8))
    (alg : LiberaCAlgID) : Prop := ∃ message key e, hmac alg message key = .error e

/-- The call stores the bytes and nothing else, or it fails for a reason outside of it. -/
def Stores (mayFail : Prop) (run : OnMemory Unit) (memory : Memory) (pointer : Nat)
    (bytes : List UInt8) : Prop :=
  run memory = (.ok (), writeBytes memory pointer bytes) ∨
    mayFail ∧ ∃ e later, run memory = (.error e, later)

variable {hmac : LiberaCAlgID → List UInt8 → List UInt8 → Except LiberaCError (List UInt8)}
  {malloc : Nat → Bool} {mac : List UInt8 → List UInt8 → List UInt8} {alg : LiberaCAlgID}
  {base memory : Memory}

theorem tagSize_le (alg : LiberaCAlgID) : hmacTagSize alg ≤ hmacMaxTagBytes := by
  cases alg <;> decide

theorem Computes.cases (h : Computes hmac mac alg) (message key : List UInt8) :
    hmac alg message key = .ok (mac key message) ∨
      Fails hmac alg ∧ ∃ e, hmac alg message key = .error e := by
  cases hrun : hmac alg message key with
  | error e => exact .inr ⟨⟨message, key, e, hrun⟩, e, rfl⟩
  | ok tag => rw [h.tag message key tag hrun]; exact .inl rfl

section Expand

variable {okm okmLength info infoLength prkLength capacity : Nat} {prk : Buffer}
  {key infoBytes : List UInt8} {i : Nat} {s : ExpandState}

/-- The locals before block `i + 1`. -/
structure ExpandHolds (n capacity : Nat) (block : Nat → List UInt8) (i : Nat) (s : ExpandState) :
    Prop where
  previous : s.previous.length = hmacMaxTagBytes
  message : s.message.length = capacity
  previousLength : s.previousLength = (block i).length
  last : s.previous.take s.previousLength = block i
  index : s.blockIndex = UInt32.ofNat (i + 1)

theorem hkdfT_length (h : Computes hmac mac alg) (i : Nat) :
    (hkdfT mac key infoBytes (i + 1)).length = hmacTagSize alg := h.length _ _

theorem hkdfT_length_le (h : Computes hmac mac alg) (i : Nat) :
    (hkdfT mac key infoBytes i).length ≤ hmacTagSize alg := by
  cases i with
  | zero => exact Nat.zero_le _
  | succ i => exact (hkdfT_length h i).le

/-- The buffer of the message holds the last block, the info and the index, and what is behind them
is not hashed. -/
theorem expandMessage_take {message last : List UInt8} {byte : UInt8} {n : Nat}
    (hlast : last.length ≤ n) (hmessage : message.length = n + infoBytes.length + 1) :
    (copyInto (copyInto (if last.length ≠ 0 then copyInto message 0 last else message) last.length
      infoBytes) (last.length + infoBytes.length) [byte]).take
        (last.length + infoBytes.length + 1) = last ++ infoBytes ++ [byte] := by
  obtain ⟨hlength, htake⟩ : (if last.length ≠ 0 then copyInto message 0 last else message).length =
      message.length ∧
      (if last.length ≠ 0 then copyInto message 0 last else message).take last.length = last := by
    by_cases hzero : last.length = 0
    · rw [if_neg (not_not.mpr hzero), hzero, List.take_zero, List.length_eq_zero_iff.mp hzero]
      exact ⟨rfl, rfl⟩
    · have hcopy := @copyInto_take message last 0 (Nat.zero_le _)
      rw [Nat.zero_add, List.take_zero, List.nil_append] at hcopy
      rw [if_pos hzero]
      exact ⟨copyInto_length (by omega), hcopy⟩
  generalize (if last.length ≠ 0 then copyInto message 0 last else message) = first at *
  have hsecond := @copyInto_take first infoBytes last.length (by omega)
  rw [htake] at hsecond
  have hsecondLength : (copyInto first last.length infoBytes).length = first.length :=
    copyInto_length (by omega)
  have hthird := @copyInto_take (copyInto first last.length infoBytes) [byte]
    (last.length + infoBytes.length) (by omega)
  rw [hsecond] at hthird
  exact hthird

theorem expandMessage_length {message last : List UInt8} {byte : UInt8} {n : Nat}
    (hlast : last.length ≤ n) (hmessage : message.length = n + infoBytes.length + 1) :
    (copyInto (copyInto (if last.length ≠ 0 then copyInto message 0 last else message) last.length
      infoBytes) (last.length + infoBytes.length) [byte]).length =
        n + infoBytes.length + 1 := by
  have hfirst : (if last.length ≠ 0 then copyInto message 0 last else message).length =
      message.length := by
    split
    · exact copyInto_length (by omega)
    · rfl
  have hsecond : (copyInto (if last.length ≠ 0 then copyInto message 0 last else message)
      last.length infoBytes).length = message.length :=
    (copyInto_length (by omega)).trans hfirst
  rw [copyInto_length (by rw [hsecond, hmessage, List.length_singleton]; omega), hsecond, hmessage]

theorem index_byte (i : Nat) : (UInt32.ofNat (i + 1)).toUInt8 = UInt8.ofNat (i + 1) := by
  apply UInt8.toNat_inj.mp
  rw [UInt32.toNat_toUInt8, UInt32.toNat_ofNat', UInt8.toNat_ofNat']
  exact Nat.mod_mod_of_dvd _ (by decide)

theorem index_next (i : Nat) : UInt32.ofNat (i + 1) + 1 = UInt32.ofNat (i + 1 + 1) :=
  (UInt32.ofNat_add (i + 1) 1).symm

theorem expandBlock_makes (h : Computes hmac mac alg) (hinfo : readBytes base info infoLength = infoBytes)
    (hdisjoint : Disjoint okm okmLength info infoLength)
    (hkey : ∀ memory, Outside base okm okmLength memory → prk.read prkLength memory =
      (.ok key, memory)) :
    Makes base okm okmLength (hmacTagSize alg) (fun i => hkdfT mac key infoBytes (i + 1))
      (ExpandHolds (hmacTagSize alg) (hmacTagSize alg + infoLength + 1) (hkdfT mac key infoBytes))
      (expandBlock hmac prk prkLength info infoLength alg) (Fails hmac alg) := by
  intro i s memory hs hmemory _
  have hread := hmemory.read hdisjoint
  rw [hinfo] at hread
  have hlength : infoLength = infoBytes.length := by rw [← hinfo, readBytes_length]
  have hmessage := @expandMessage_take infoBytes s.message (hkdfT mac key infoBytes i)
    s.blockIndex.toUInt8 _ (hkdfT_length_le h i) (by rw [hs.message, hlength])
  unfold expandBlock
  rw [load_bind, hread, bind_ok (hkey memory hmemory), hs.last, hs.previousLength, hlength]
  rw [hmessage, hs.index, index_byte]
  rcases h.cases (hkdfT mac key infoBytes i ++ infoBytes ++ [UInt8.ofNat (i + 1)]) key with
    hok | ⟨hfail, e, herror⟩
  · rw [hok, compute_ok_bind]
    left
    have htag : mac key (hkdfT mac key infoBytes i ++ infoBytes ++ [UInt8.ofNat (i + 1)]) =
        hkdfT mac key infoBytes (i + 1) := rfl
    have hsize := @hkdfT_length hmac mac alg key infoBytes h i
    have hmax := tagSize_le alg
    rw [htag]
    have hpreviousLength : (copyInto s.previous 0 (hkdfT mac key infoBytes (i + 1))).length =
        s.previous.length := copyInto_length (by rw [hs.previous]; omega)
    have hprevious := @copyInto_take s.previous (hkdfT mac key infoBytes (i + 1)) 0 (Nat.zero_le _)
    rw [Nat.zero_add, hsize, List.take_zero, List.nil_append] at hprevious
    refine ⟨_, _, rfl, hprevious, hpreviousLength.trans hs.previous, ?_, hsize.symm, hprevious,
      index_next i⟩
    exact expandMessage_length (hkdfT_length_le h i) (hs.message.trans (by rw [hlength]))
  · rw [herror, compute_error_bind]
    exact .inr ⟨hfail, e, rfl⟩

/-- What `LIBERAC_HKDF_EXPAND` accepts, at any length up to 255 hashes. -/
structure ExpandAccepts (alg : LiberaCAlgID) (okm okmCapacity okmLength : Nat) (prk : Buffer)
    (prkLength info infoLength : Nat) : Prop where
  supported : hmacTagSize alg ≠ 0
  prkGiven : prk.null = false
  prkLong : hmacTagSize alg ≤ prkLength
  infoGiven : kdfOptionalInputValid info infoLength = true
  okmGiven : okm ≠ 0 ∨ okmLength = 0
  length : okmLength ≤ 255 * hmacTagSize alg
  capacity : okmLength ≤ okmCapacity
  apartPrk : prk.overlaps prkLength okm okmLength = false
  apartInfo : Disjoint okm okmLength info infoLength
  fits : infoLength ≤ sizeMax - hmacTagSize alg - 1

theorem liberacHkdfExpand_stores {okmCapacity : Nat} (h : Computes hmac mac alg)
    (ha : ExpandAccepts alg okm okmCapacity okmLength prk prkLength info infoLength)
    (hkey : ∀ memory, Outside base okm okmLength memory → prk.read prkLength memory =
      (.ok key, memory)) :
    Stores (Fails hmac alg ∨ malloc (hmacTagSize alg + infoLength + 1) = false)
      (liberacHkdfExpand hmac malloc okm okmCapacity okmLength prk prkLength info infoLength alg)
      base okm (filled (fun i => hkdfT mac key (readBytes base info infoLength) (i + 1))
        (hmacTagSize alg) okmLength) := by
  have hn := Nat.pos_of_ne_zero ha.supported
  have hmissing : ¬ (prk.null ∨ prkLength < hmacTagSize alg ∨
      ¬ kdfOptionalInputValid info infoLength ∨ (okm = 0 ∧ okmLength ≠ 0)) := by
    rintro (hnull | hshort | hinfo | ⟨hokm, hlength⟩)
    · rw [ha.prkGiven] at hnull
      cases hnull
    · exact absurd ha.prkLong (not_le.mpr hshort)
    · exact hinfo ha.infoGiven
    · exact ha.okmGiven.elim (fun hne => hne hokm) hlength
  have hoverlap : ¬ (prk.overlaps prkLength okm okmLength ∨
      cryptoRangesOverlap okm okmLength info infoLength) := by
    rw [ha.apartPrk, (cryptoRangesOverlap_iff _ _ _ _).mpr ha.apartInfo]
    simp
  unfold Stores liberacHkdfExpand
  dsimp only
  rw [if_neg ha.supported, if_neg hmissing, if_neg (not_lt.mpr ha.length),
    if_neg (not_lt.mpr ha.capacity),
    if_neg hoverlap, compute_ok_bind]
  by_cases hnone : okmLength = 0
  · rw [if_pos hnone, hnone, filled, List.take_zero, writeBytes_nil]
    exact .inl rfl
  rw [if_neg hnone, if_neg (not_lt.mpr ha.fits)]
  cases hmalloc : malloc (hmacTagSize alg + infoLength + 1) with
  | false => exact .inr ⟨.inr rfl, .allocationFailed, base, rfl⟩
  | true =>
    rw [if_neg (by simp), compute_ok_bind]
    have hstart : ExpandHolds (hmacTagSize alg) (hmacTagSize alg + infoLength + 1)
        (hkdfT mac key (readBytes base info infoLength)) 0
        ⟨List.replicate hmacMaxTagBytes 0,
          List.replicate (hmacTagSize alg + infoLength + 1) 0, 0, 1⟩ :=
      ⟨List.length_replicate, List.length_replicate, rfl, rfl, rfl⟩
    have hrun := fillBlocks_run hn (expandBlock_makes h rfl ha.apartInfo hkey)
      (fun i => hkdfT_length h i) (Nat.zero_add _) hstart (fun _ _ => rfl)
      (show 0 = min (0 * _) okmLength by rw [Nat.zero_mul, Nat.zero_min])
    rw [fillWhile_eq hn (show 0 = min (0 * _) okmLength by rw [Nat.zero_mul, Nat.zero_min])
      (Nat.zero_add _)]
    rw [Nat.zero_mul, Nat.sub_zero, Nat.add_zero] at hrun
    rcases hrun with hok | ⟨hfail, herror⟩
    · exact .inl hok
    · exact .inr ⟨.inl hfail, herror⟩

end Expand

section Extract

variable {ikm ikmLength salt saltLength : Nat}

theorem liberacHkdfExtract_stack (h : Computes hmac mac alg) (halg : hmacTagSize alg ≠ 0)
    (hikm : kdfOptionalInputValid ikm ikmLength = true)
    (hsalt : kdfOptionalInputValid salt saltLength = true) (old : List UInt8) (memory : Memory) :
    (∃ bytes, liberacHkdfExtract hmac (.stack old) hmacMaxTagBytes ikm ikmLength salt saltLength alg
        memory = (.ok (.stack bytes), memory) ∧
      bytes.take (hmacTagSize alg) = hkdfPrk mac (hmacTagSize alg) (readBytes memory salt saltLength)
        (readBytes memory ikm ikmLength)) ∨
      Fails hmac alg ∧ ∃ e, liberacHkdfExtract hmac (.stack old) hmacMaxTagBytes ikm ikmLength salt
        saltLength alg memory = (.error e, memory) := by
  have hmissing : ¬ ((Buffer.stack old).null ∨ ¬ kdfOptionalInputValid ikm ikmLength ∨
      ¬ kdfOptionalInputValid salt saltLength) := by
    rw [hikm, hsalt]
    simp [Buffer.null]
  have hoverlap : ¬ ((Buffer.stack old).overlaps (hmacTagSize alg) ikm ikmLength ∨
      (Buffer.stack old).overlaps (hmacTagSize alg) salt saltLength) := by
    simp [Buffer.overlaps]
  have hmax := tagSize_le alg
  have hsaltLength : (readBytes memory salt saltLength).length = saltLength := readBytes_length _ _ _
  unfold liberacHkdfExtract
  dsimp only
  rw [if_neg halg, if_neg hmissing, if_neg (not_lt.mpr hmax), if_neg hoverlap, compute_ok_bind,
    load_bind, load_bind]
  rw [hkdfPrk, hsaltLength]
  rcases h.cases (readBytes memory ikm ikmLength) (if saltLength = 0 then
    List.replicate (hmacTagSize alg) 0 else readBytes memory salt saltLength) with
    hok | ⟨hfail, e, herror⟩
  · rw [hok, compute_ok_bind]
    have hcopy := @copyInto_take old (mac (if saltLength = 0 then
      List.replicate (hmacTagSize alg) 0 else readBytes memory salt saltLength)
      (readBytes memory ikm ikmLength)) 0 (Nat.zero_le _)
    rw [Nat.zero_add, h.length, List.take_zero, List.nil_append] at hcopy
    exact .inl ⟨_, rfl, hcopy⟩
  · rw [herror, compute_error_bind]
    exact .inr ⟨hfail, e, rfl⟩

end Extract

section Hkdf

structure HkdfArguments where
  okm : Nat
  okmCapacity : Nat
  okmLength : Nat
  ikm : Nat
  ikmLength : Nat
  salt : Nat
  saltLength : Nat
  info : Nat
  infoLength : Nat

structure HkdfArguments.Accepted (a : HkdfArguments) (alg : LiberaCAlgID) : Prop where
  supported : hmacTagSize alg ≠ 0
  ikmGiven : kdfOptionalInputValid a.ikm a.ikmLength = true
  saltGiven : kdfOptionalInputValid a.salt a.saltLength = true
  infoGiven : kdfOptionalInputValid a.info a.infoLength = true
  okmGiven : a.okm ≠ 0 ∨ a.okmLength = 0
  length : a.okmLength ≤ 255 * hmacTagSize alg
  capacity : a.okmLength ≤ a.okmCapacity
  apart : Disjoint a.okm a.okmLength a.info a.infoLength
  fits : a.infoLength ≤ sizeMax - hmacTagSize alg - 1

def HkdfArguments.run (a : HkdfArguments)
    (hmac : LiberaCAlgID → List UInt8 → List UInt8 → Except LiberaCError (List UInt8))
    (malloc : Nat → Bool) (alg : LiberaCAlgID) : OnMemory Unit :=
  liberacHkdf hmac malloc a.okm a.okmCapacity a.okmLength a.ikm a.ikmLength a.salt a.saltLength
    a.info a.infoLength alg

def HkdfArguments.expected (a : HkdfArguments) (mac : List UInt8 → List UInt8 → List UInt8)
    (alg : LiberaCAlgID) (memory : Memory) : List UInt8 :=
  hkdfOkm mac (hmacTagSize alg) (readBytes memory a.salt a.saltLength)
    (readBytes memory a.ikm a.ikmLength) (readBytes memory a.info a.infoLength) a.okmLength

theorem liberacHkdf_stores (h : Computes hmac mac alg) {a : HkdfArguments} (ha : a.Accepted alg)
    (memory : Memory) :
    Stores (Fails hmac alg ∨ malloc (hmacTagSize alg + a.infoLength + 1) = false)
      (a.run hmac malloc alg) memory a.okm (a.expected mac alg memory) := by
  unfold Stores HkdfArguments.run liberacHkdf
  rw [if_neg ha.supported, compute_ok_bind]
  rcases liberacHkdfExtract_stack h ha.supported ha.ikmGiven ha.saltGiven _ memory with
    ⟨bytes, hrun, hbytes⟩ | ⟨hfail, e, hrun⟩
  · rw [bind_ok hrun]
    have haccepts : ExpandAccepts alg a.okm a.okmCapacity a.okmLength (.stack bytes)
        (hmacTagSize alg) a.info a.infoLength :=
      ⟨ha.supported, rfl, le_refl _, ha.infoGiven, ha.okmGiven, ha.length, ha.capacity, rfl,
        ha.apart, ha.fits⟩
    exact liberacHkdfExpand_stores h haccepts fun later _ => by rw [Buffer.read, hbytes]; rfl
  · rw [bind_error hrun]
    exact .inr ⟨.inl hfail, e, _, rfl⟩

end Hkdf

section Pbkdf2

variable {password passwordLength saltLength iterationCount : Nat}
  {passwordBytes saltBytes saltAndIndex : List UInt8} {s : Pbkdf2State}

theorem pbkdf2U_length (h : Computes hmac mac alg) (j : Nat) :
    (pbkdf2U mac passwordBytes saltAndIndex j).length = hmacTagSize alg := by
  cases j with
  | zero => exact h.length _ _
  | succ j => exact h.length _ _

theorem pbkdf2Sum_length (h : Computes hmac mac alg) (k : Nat) :
    (pbkdf2Sum mac passwordBytes saltAndIndex k).length = hmacTagSize alg := by
  induction k with
  | zero => exact pbkdf2U_length h 0
  | succ k ih =>
    rw [pbkdf2Sum, xorBytes_length, ih]
    rw [ih, pbkdf2U_length h]

/-- What the iterations leave alone, and what they have made after `k` rounds. -/
structure SumHolds (n : Nat) (u sum : Nat → List UInt8) (start : Pbkdf2State) (k : Nat)
    (s : Pbkdf2State) : Prop where
  current : s.current.take n = u k
  accumulator : s.accumulator.take n = sum k
  saltBlock : s.saltBlock = start.saltBlock
  blockOffset : s.blockOffset = start.blockOffset

theorem advance_holds (h : Computes hmac mac alg) {start : Pbkdf2State} {k : Nat}
    (hs : SumHolds (hmacTagSize alg) (pbkdf2U mac passwordBytes saltAndIndex)
      (pbkdf2Sum mac passwordBytes saltAndIndex) start k s) :
    SumHolds (hmacTagSize alg) (pbkdf2U mac passwordBytes saltAndIndex)
      (pbkdf2Sum mac passwordBytes saltAndIndex) start (k + 1)
      (s.advance (hmacTagSize alg) (pbkdf2U mac passwordBytes saltAndIndex (k + 1))) := by
  have hcopy : ∀ buffer, (copyInto buffer 0 (pbkdf2U mac passwordBytes saltAndIndex (k + 1))).take
      (hmacTagSize alg) = pbkdf2U mac passwordBytes saltAndIndex (k + 1) := by
    intro buffer
    have htake := @copyInto_take buffer (pbkdf2U mac passwordBytes saltAndIndex (k + 1)) 0
      (Nat.zero_le _)
    rwa [Nat.zero_add, pbkdf2U_length h, List.take_zero, List.nil_append] at htake
  have hsum : (copyInto s.accumulator 0 (xorBytes (pbkdf2Sum mac passwordBytes saltAndIndex k)
      (pbkdf2U mac passwordBytes saltAndIndex (k + 1)))).take (hmacTagSize alg) =
      pbkdf2Sum mac passwordBytes saltAndIndex (k + 1) := by
    have htake := @copyInto_take s.accumulator (pbkdf2Sum mac passwordBytes saltAndIndex (k + 1)) 0
      (Nat.zero_le _)
    rwa [Nat.zero_add, pbkdf2Sum_length h, List.take_zero, List.nil_append] at htake
  have haccumulator := hs.accumulator
  unfold Pbkdf2State.advance
  dsimp only
  rw [haccumulator, hcopy]
  cases hswapped : s.swapped with
  | false => exact ⟨hcopy _, hsum, hs.saltBlock, hs.blockOffset⟩
  | true => exact ⟨hcopy _, hsum, hs.saltBlock, hs.blockOffset⟩

theorem pbkdf2Iterations_run (h : Computes hmac mac alg)
    (hpassword : readBytes memory password passwordLength = passwordBytes) {start : Pbkdf2State}
    (count : Nat) {k : Nat}
    (hs : SumHolds (hmacTagSize alg) (pbkdf2U mac passwordBytes saltAndIndex)
      (pbkdf2Sum mac passwordBytes saltAndIndex) start k s) :
    (∃ s', pbkdf2Iterations hmac password passwordLength alg count s memory = (.ok s', memory) ∧
      SumHolds (hmacTagSize alg) (pbkdf2U mac passwordBytes saltAndIndex)
        (pbkdf2Sum mac passwordBytes saltAndIndex) start (k + count) s') ∨
      Fails hmac alg ∧ ∃ e, pbkdf2Iterations hmac password passwordLength alg count s memory =
        (.error e, memory) := by
  induction count generalizing s k with
  | zero => exact .inl ⟨s, rfl, hs⟩
  | succ count ih =>
    unfold pbkdf2Iterations
    rw [load_bind, hpassword, hs.current]
    rcases h.cases (pbkdf2U mac passwordBytes saltAndIndex k) passwordBytes with
      hok | ⟨hfail, e, herror⟩
    · rw [hok, compute_ok_bind, ← Nat.succ_add_eq_add_succ]
      exact ih (advance_holds h hs)
    · rw [herror, compute_error_bind]
      exact .inr ⟨hfail, e, rfl⟩

structure BlockHolds (saltBytes : List UInt8) (i : Nat) (s : Pbkdf2State) : Prop where
  length : s.saltBlock.length = saltBytes.length + 4
  salt : s.saltBlock.take saltBytes.length = saltBytes
  offset : s.blockOffset = i

theorem saltBlock_eq {i : Nat} (hs : BlockHolds saltBytes i s) :
    copyInto s.saltBlock saltBytes.length (cryptoStore32Be (UInt32.ofNat (s.blockOffset + 1))) =
      saltBytes ++ bigEndian 4 (i + 1) := by
  have hbytes : cryptoStore32Be (UInt32.ofNat (s.blockOffset + 1)) = bigEndian 4 (i + 1) := by
    rw [cryptoStore32Be_eq, UInt32.toNat_ofNat', hs.offset]
    exact bigEndian_mod 4 (i + 1)
  have hrest : s.saltBlock.drop (saltBytes.length + (bigEndian 4 (i + 1)).length) = [] := by
    rw [bigEndian_length, ← hs.length, List.drop_length]
  rw [hbytes, copyInto, hrest, hs.salt, List.append_nil]

theorem pbkdf2Block_makes {derivedKey derivedKeyLength : Nat} (h : Computes hmac mac alg)
    (hpassword : readBytes base password passwordLength = passwordBytes)
    (hdisjoint : Disjoint derivedKey derivedKeyLength password passwordLength)
    (iterationCount : Nat) :
    Makes base derivedKey derivedKeyLength (hmacTagSize alg)
      (fun i => pbkdf2Sum mac passwordBytes (saltBytes ++ bigEndian 4 (i + 1)) (iterationCount - 1))
      (BlockHolds saltBytes)
      (pbkdf2Block hmac password passwordLength saltBytes.length iterationCount alg)
      (Fails hmac alg) := by
  intro i s memory hs hmemory _
  have hread := hmemory.read hdisjoint
  rw [hpassword] at hread
  have hblock := saltBlock_eq hs
  unfold cryptoStore32Be at hblock
  unfold pbkdf2Block
  dsimp only
  rw [hblock, load_bind, hread]
  rcases h.cases (saltBytes ++ bigEndian 4 (i + 1)) passwordBytes with hok | ⟨hfail, e, herror⟩
  · rw [hok, compute_ok_bind]
    have hcopy : ∀ buffer, (copyInto buffer 0
        (mac passwordBytes (saltBytes ++ bigEndian 4 (i + 1)))).take (hmacTagSize alg) =
        mac passwordBytes (saltBytes ++ bigEndian 4 (i + 1)) := by
      intro buffer
      have htake := @copyInto_take buffer (mac passwordBytes (saltBytes ++ bigEndian 4 (i + 1))) 0
        (Nat.zero_le _)
      rwa [Nat.zero_add, h.length, List.take_zero, List.nil_append] at htake
    rw [hcopy]
    have hfirst : SumHolds (hmacTagSize alg)
        (pbkdf2U mac passwordBytes (saltBytes ++ bigEndian 4 (i + 1)))
        (pbkdf2Sum mac passwordBytes (saltBytes ++ bigEndian 4 (i + 1)))
        { s with saltBlock := saltBytes ++ bigEndian 4 (i + 1) } 0
        { s with
          uA := copyInto s.uA 0 (mac passwordBytes (saltBytes ++ bigEndian 4 (i + 1)))
          swapped := false
          accumulator :=
            copyInto s.accumulator 0 (mac passwordBytes (saltBytes ++ bigEndian 4 (i + 1)))
          saltBlock := saltBytes ++ bigEndian 4 (i + 1) } :=
      ⟨hcopy _, hcopy _, rfl, rfl⟩
    rcases pbkdf2Iterations_run h hread (iterationCount - 1) hfirst with
      ⟨s', hrun, hs'⟩ | ⟨hfail, e, hrun⟩
    · rw [bind_ok hrun]
      rw [Nat.zero_add] at hs'
      refine .inl ⟨_, _, rfl, hs'.accumulator, ?_, ?_, ?_⟩
      · change s'.saltBlock.length = _
        rw [hs'.saltBlock, List.length_append, bigEndian_length]
      · change s'.saltBlock.take _ = _
        rw [hs'.saltBlock, List.take_left]
      · change s'.blockOffset + 1 = _
        rw [hs'.blockOffset]
        exact congrArg (· + 1) hs.offset
    · rw [bind_error hrun]
      exact .inr ⟨hfail, e, rfl⟩
  · rw [herror, compute_error_bind]
    exact .inr ⟨hfail, e, rfl⟩

structure Pbkdf2Arguments where
  derivedKey : Nat
  derivedKeyCapacity : Nat
  derivedKeyLength : Nat
  password : Nat
  passwordLength : Nat
  salt : Nat
  saltLength : Nat
  iterationCount : Nat

structure Pbkdf2Arguments.Accepted (a : Pbkdf2Arguments) (alg : LiberaCAlgID) : Prop where
  supported : hmacTagSize alg ≠ 0
  keyGiven : a.derivedKey ≠ 0
  wanted : a.derivedKeyLength ≠ 0
  passwordGiven : kdfOptionalInputValid a.password a.passwordLength = true
  saltGiven : kdfOptionalInputValid a.salt a.saltLength = true
  iterates : 1 ≤ a.iterationCount
  capacity : a.derivedKeyLength ≤ a.derivedKeyCapacity
  blocks : blockCount (hmacTagSize alg) a.derivedKeyLength ≤ 2 ^ 32 - 1
  fits : a.saltLength ≤ sizeMax - 4
  apartPassword : Disjoint a.derivedKey a.derivedKeyLength a.password a.passwordLength
  apartSalt : Disjoint a.derivedKey a.derivedKeyLength a.salt a.saltLength

def Pbkdf2Arguments.run (a : Pbkdf2Arguments)
    (hmac : LiberaCAlgID → List UInt8 → List UInt8 → Except LiberaCError (List UInt8))
    (malloc : Nat → Bool) (alg : LiberaCAlgID) : OnMemory Unit :=
  liberacPbkdf2Hmac hmac malloc a.derivedKey a.derivedKeyCapacity a.derivedKeyLength a.password
    a.passwordLength a.salt a.saltLength a.iterationCount alg

def Pbkdf2Arguments.expected (a : Pbkdf2Arguments) (mac : List UInt8 → List UInt8 → List UInt8)
    (alg : LiberaCAlgID) (memory : Memory) : List UInt8 :=
  pbkdf2Key mac (hmacTagSize alg) (readBytes memory a.password a.passwordLength)
    (readBytes memory a.salt a.saltLength) a.iterationCount a.derivedKeyLength

theorem blockCount_eq {n length : Nat} (hn : 0 < n) (hpos : 0 < length) :
    (length - 1) / n + 1 = blockCount n length := by
  rw [blockCount, ← Nat.add_div_right _ hn]
  congr 1
  omega

theorem liberacPbkdf2Hmac_stores (h : Computes hmac mac alg) {a : Pbkdf2Arguments}
    (ha : a.Accepted alg) (memory : Memory) :
    Stores (Fails hmac alg ∨ malloc (a.saltLength + 4) = false) (a.run hmac malloc alg) memory
      a.derivedKey (a.expected mac alg memory) := by
  have hn := Nat.pos_of_ne_zero ha.supported
  have hcount := blockCount_eq hn (Nat.pos_of_ne_zero ha.wanted)
  have hmissing : ¬ (a.derivedKey = 0 ∨ a.derivedKeyLength = 0 ∨
      ¬ kdfOptionalInputValid a.password a.passwordLength ∨
      ¬ kdfOptionalInputValid a.salt a.saltLength ∨ a.iterationCount = 0) := by
    have hiterates := ha.iterates
    rw [ha.passwordGiven, ha.saltGiven]
    simp [ha.keyGiven, ha.wanted]
    omega
  have hoverlap : ¬ (cryptoRangesOverlap a.derivedKey a.derivedKeyLength a.password
      a.passwordLength ∨ cryptoRangesOverlap a.derivedKey a.derivedKeyLength a.salt
      a.saltLength) := by
    rw [(cryptoRangesOverlap_iff _ _ _ _).mpr ha.apartPassword,
      (cryptoRangesOverlap_iff _ _ _ _).mpr ha.apartSalt]
    simp
  have hsalt : (readBytes memory a.salt a.saltLength).length = a.saltLength := readBytes_length _ _ _
  unfold Stores Pbkdf2Arguments.run liberacPbkdf2Hmac
  dsimp only
  rw [if_neg ha.supported, if_neg hmissing, if_neg (not_lt.mpr ha.capacity), hcount,
    if_neg (not_lt.mpr ha.blocks), if_neg (not_lt.mpr ha.fits), if_neg hoverlap]
  cases hmalloc : malloc (a.saltLength + 4) with
  | false => exact .inr ⟨.inr rfl, .allocationFailed, memory, rfl⟩
  | true =>
    rw [if_neg (by simp), compute_ok_bind, load_bind]
    have hstart : BlockHolds (readBytes memory a.salt a.saltLength) 0
        ⟨List.replicate hmacMaxTagBytes 0, List.replicate hmacMaxTagBytes 0, false,
          List.replicate hmacMaxTagBytes 0, copyInto (List.replicate (a.saltLength + 4) 0) 0
            (readBytes memory a.salt a.saltLength), 0⟩ := by
      have hcopy := @copyInto_take (List.replicate (a.saltLength + 4) 0)
        (readBytes memory a.salt a.saltLength) 0 (Nat.zero_le _)
      rw [Nat.zero_add, List.take_zero, List.nil_append] at hcopy
      refine ⟨?_, hcopy, rfl⟩
      rw [hsalt]
      change (copyInto _ 0 _).length = _
      rw [copyInto_length, List.length_replicate]
      rw [hsalt, List.length_replicate]
      omega
    have hmakes := @pbkdf2Block_makes hmac mac alg memory a.password a.passwordLength _
      (readBytes memory a.salt a.saltLength) a.derivedKey a.derivedKeyLength h rfl ha.apartPassword
      a.iterationCount
    rw [hsalt] at hmakes
    have hrun := fillBlocks_run hn hmakes (fun i => pbkdf2Sum_length h _) (Nat.zero_add _) hstart
      (fun _ _ => rfl) (show 0 = min (0 * _) a.derivedKeyLength by rw [Nat.zero_mul, Nat.zero_min])
    rw [Nat.zero_mul, Nat.sub_zero, Nat.add_zero] at hrun
    exact hrun.imp id fun ⟨hfail, herror⟩ => ⟨.inl hfail, herror⟩

end Pbkdf2

theorem hkdf_index {a : HkdfArguments} (ha : a.Accepted alg) {i : Nat}
    (hi : i < blockCount (hmacTagSize alg) a.okmLength) : (UInt8.ofNat (i + 1)).toNat = i + 1 := by
  have hn := Nat.pos_of_ne_zero ha.supported
  have hlt := (produced_lt hn hi).trans_le ha.length
  have hfew : i < 255 := Nat.lt_of_mul_lt_mul_right hlt
  rw [UInt8.toNat_ofNat', Nat.mod_eq_of_lt (by omega)]

theorem Stores.read {mayFail : Prop} {run : OnMemory Unit} {pointer : Nat} {bytes : List UInt8}
    (h : Stores mayFail run memory pointer bytes) (hok : (run memory).1 = .ok ()) :
    readBytes (run memory).2 pointer bytes.length = bytes := by
  rcases h with hstored | ⟨-, e, later, herror⟩
  · rw [hstored]
    exact read_write memory pointer bytes
  · rw [herror] at hok
    cases hok

def HkdfArguments.SameInputs (a b : HkdfArguments) (first second : Memory) : Prop :=
  readBytes first a.ikm a.ikmLength = readBytes second b.ikm b.ikmLength ∧
    readBytes first a.salt a.saltLength = readBytes second b.salt b.saltLength ∧
    readBytes first a.info a.infoLength = readBytes second b.info b.infoLength

def Pbkdf2Arguments.SameInputs (a b : Pbkdf2Arguments) (first second : Memory) : Prop :=
  readBytes first a.password a.passwordLength = readBytes second b.password b.passwordLength ∧
    readBytes first a.salt a.saltLength = readBytes second b.salt b.saltLength ∧
    a.iterationCount = b.iterationCount

theorem hkdf_prefix (h : Computes hmac mac alg) {a b : HkdfArguments} (ha : a.Accepted alg)
    (hb : b.Accepted alg) {first second : Memory} (hsame : a.SameInputs b first second)
    (hle : a.okmLength ≤ b.okmLength) (hfirst : (a.run hmac malloc alg first).1 = .ok ())
    (hsecond : (b.run hmac malloc alg second).1 = .ok ()) :
    readBytes (a.run hmac malloc alg first).2 a.okm a.okmLength =
      (readBytes (b.run hmac malloc alg second).2 b.okm b.okmLength).take a.okmLength := by
  have hn := Nat.pos_of_ne_zero ha.supported
  have hshort := (liberacHkdf_stores h ha first).read hfirst
  have hlong := (liberacHkdf_stores h hb second).read hsecond
  have hsize : ∀ salt ikm info length,
      (hkdfOkm mac (hmacTagSize alg) salt ikm info length).length = length :=
    fun salt ikm info length => filled_length (fun i => hkdfT_length h i) hn length
  rw [HkdfArguments.expected, hsize] at hshort hlong
  rw [hshort, hlong, hsame.1, hsame.2.1, hsame.2.2]
  exact filled_take (fun i => hkdfT_length h i) hn hle

theorem pbkdf2_prefix (h : Computes hmac mac alg) {a b : Pbkdf2Arguments} (ha : a.Accepted alg)
    (hb : b.Accepted alg) {first second : Memory} (hsame : a.SameInputs b first second)
    (hle : a.derivedKeyLength ≤ b.derivedKeyLength)
    (hfirst : (a.run hmac malloc alg first).1 = .ok ())
    (hsecond : (b.run hmac malloc alg second).1 = .ok ()) :
    readBytes (a.run hmac malloc alg first).2 a.derivedKey a.derivedKeyLength =
      (readBytes (b.run hmac malloc alg second).2 b.derivedKey b.derivedKeyLength).take
        a.derivedKeyLength := by
  have hn := Nat.pos_of_ne_zero ha.supported
  have hshort := (liberacPbkdf2Hmac_stores h ha first).read hfirst
  have hlong := (liberacPbkdf2Hmac_stores h hb second).read hsecond
  have hsize : ∀ password salt iterationCount length,
      (pbkdf2Key mac (hmacTagSize alg) password salt iterationCount length).length = length :=
    fun password salt iterationCount length =>
      filled_length (fun i => pbkdf2Sum_length h _) hn length
  rw [Pbkdf2Arguments.expected, hsize] at hshort hlong
  rw [hshort, hlong, hsame.1, hsame.2.1, hsame.2.2]
  exact filled_take (fun i => pbkdf2Sum_length h _) hn hle

/-- Every accepted call stores the key of its standard over HMAC, with no block index cut off, and
a shorter key begins a longer one. -/
theorem keyDerivation_rfc (h : Computes hmac mac alg) (malloc : Nat → Bool) :
    (∀ (a : HkdfArguments) (memory : Memory), a.Accepted alg →
      Stores (Fails hmac alg ∨ malloc (hmacTagSize alg + a.infoLength + 1) = false)
          (a.run hmac malloc alg) memory a.okm (a.expected mac alg memory) ∧
        ∀ i < blockCount (hmacTagSize alg) a.okmLength, (UInt8.ofNat (i + 1)).toNat = i + 1) ∧
      (∀ (a : Pbkdf2Arguments) (memory : Memory), a.Accepted alg →
        Stores (Fails hmac alg ∨ malloc (a.saltLength + 4) = false) (a.run hmac malloc alg) memory
          a.derivedKey (a.expected mac alg memory)) ∧
      (∀ (a b : HkdfArguments) (first second : Memory), a.Accepted alg → b.Accepted alg →
        a.SameInputs b first second → a.okmLength ≤ b.okmLength →
        (a.run hmac malloc alg first).1 = .ok () → (b.run hmac malloc alg second).1 = .ok () →
        readBytes (a.run hmac malloc alg first).2 a.okm a.okmLength =
          (readBytes (b.run hmac malloc alg second).2 b.okm b.okmLength).take a.okmLength) ∧
      ∀ (a b : Pbkdf2Arguments) (first second : Memory), a.Accepted alg → b.Accepted alg →
        a.SameInputs b first second → a.derivedKeyLength ≤ b.derivedKeyLength →
        (a.run hmac malloc alg first).1 = .ok () → (b.run hmac malloc alg second).1 = .ok () →
        readBytes (a.run hmac malloc alg first).2 a.derivedKey a.derivedKeyLength =
          (readBytes (b.run hmac malloc alg second).2 b.derivedKey b.derivedKeyLength).take
            a.derivedKeyLength := by
  refine ⟨?_, ?_, ?_, ?_⟩
  · exact fun a memory ha => ⟨liberacHkdf_stores h ha memory, fun i hi => hkdf_index ha hi⟩
  · exact fun a memory ha => liberacPbkdf2Hmac_stores h ha memory
  · exact fun a b first second ha hb hsame hle hfirst hsecond =>
      hkdf_prefix h ha hb hsame hle hfirst hsecond
  · exact fun a b first second ha hb hsame hle hfirst hsecond =>
      pbkdf2_prefix h ha hb hsame hle hfirst hsecond

/-- `LIBERAC_HMAC` for the whole tag of SHA-256. On what no object is large enough for, the tag of
the standard. -/
def hmacSha256 (_ : LiberaCAlgID) (message key : List UInt8) : Except LiberaCError (List UInt8) :=
  if message.length < 2 ^ 60 ∧ key.length < 2 ^ 60 then
    Hmac.liberacHmac false 64 32 (.bytes message) (.bytes key) .hashSha2_256
  else .ok (Hmac.hmac (Hmac.hashDigest .hashSha2_256) 64 key message)

theorem hmacSha256_eq (alg : LiberaCAlgID) (message key : List UInt8) :
    hmacSha256 alg message key = .ok (Hmac.hmac (Hmac.hashDigest .hashSha2_256) 64 key message) := by
  have hp : Hmac.hmacParameters .hashSha2_256 = .ok ⟨32, 64⟩ := rfl
  rw [hmacSha256]
  split
  · next h =>
    refine (Hmac.liberacHmac_iff hp (h.1.trans (by norm_num)) (h.2.trans (by norm_num)) _ _ _ _).mpr
      ⟨⟨by decide, le_rfl, rfl, rfl, rfl, by decide⟩, ⟨?_, fun _ => ?_⟩, ?_⟩
    · have hmessage : message.length < 2 ^ 60 := h.1
      change 64 + message.length < 2 ^ 61
      omega
    · have hkey : key.length < 2 ^ 60 := h.2
      change key.length < 2 ^ 61
      omega
    · exact (List.take_of_length_le (Hmac.hmac_length hp _ _).le).symm
  · rfl

/-- The longest key of HKDF and the derived key of three iterations, over SHA-256. -/
theorem keyDerivation_rfc_sha256 :
    let mac := Hmac.hmac (Hmac.hashDigest .hashSha2_256) 64
    let memory : Memory := ⟨fun address => UInt8.ofNat address⟩
    let expand : HkdfArguments := ⟨4096, 8160, 8160, 1, 22, 0, 0, 64, 10⟩
    let derive : Pbkdf2Arguments := ⟨4096, 100, 70, 1, 8, 64, 16, 3⟩
    expand.run hmacSha256 (fun _ => true) .hashSha2_256 memory =
        (.ok (), writeBytes memory 4096 (expand.expected mac .hashSha2_256 memory)) ∧
      derive.run hmacSha256 (fun _ => true) .hashSha2_256 memory =
        (.ok (), writeBytes memory 4096 (derive.expected mac .hashSha2_256 memory)) := by
  intro mac memory expand derive
  have hcomputes : Computes hmacSha256 mac .hashSha2_256 := by
    refine ⟨fun message key tag htag => ?_, fun key message => ?_⟩
    · rw [hmacSha256_eq] at htag
      exact (Except.ok.inj htag).symm
    · have hp : Hmac.hmacParameters .hashSha2_256 = .ok ⟨32, 64⟩ := rfl
      exact Hmac.hmac_length hp key message
  have hexpand : expand.Accepted .hashSha2_256 :=
    ⟨by decide, by decide, by decide, by decide, by decide, by decide, by decide,
      (cryptoRangesOverlap_iff _ _ _ _).mp (by decide), by decide⟩
  have hderive : derive.Accepted .hashSha2_256 :=
    ⟨by decide, by decide, by decide, by decide, by decide, by decide, by decide, by decide,
      by decide, (cryptoRangesOverlap_iff _ _ _ _).mp (by decide),
      (cryptoRangesOverlap_iff _ _ _ _).mp (by decide)⟩
  obtain ⟨hhkdf, hpbkdf2, -, -⟩ := keyDerivation_rfc hcomputes fun _ => true
  have hnever : ¬ (Fails hmacSha256 .hashSha2_256 ∨ true = false) := by
    rintro (⟨message, key, e, herror⟩ | hfalse)
    · rw [hmacSha256_eq] at herror
      cases herror
    · cases hfalse
  exact ⟨(hhkdf expand memory hexpand).1.resolve_right fun hfail => hnever hfail.1,
    (hpbkdf2 derive memory hderive).resolve_right fun hfail => hnever hfail.1⟩

end LiberaCrypt.KeyDerivationCorrect
