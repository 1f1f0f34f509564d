import LiberaCrypt.AesAead
import LiberaCrypt.Def

namespace LiberaCrypt.AesBlock

open LiberaCrypt.AesAead LiberaCrypt.CountedLoop LiberaCrypt.Outcome

def aesXtime (x : UInt8) : UInt8 :=
  let hi := x >>> 7
  (x <<< 1) ^^^ (0x1b &&& (0 - hi))

def aesGmul (a b : UInt8) : UInt8 :=
  let step := fun (_ : Nat) (state : UInt8 × UInt8 × UInt8) =>
    let mask := 0 - (state.2.2 &&& 1)
    (state.1 ^^^ (state.2.1 &&& mask), aesXtime state.2.1, state.2.2 >>> 1)
  (countUp 8 step (0, a, b)).1

def aesRotl8 (x : UInt8) (n : UInt16) : UInt8 :=
  ((x.toUInt16 <<< n) ||| (x.toUInt16 >>> (8 - n))).toUInt8

def aesGfInv (x : UInt8) : UInt8 :=
  let x2 := aesGmul x x
  let x4 := aesGmul x2 x2
  let x8 := aesGmul x4 x4
  let x16 := aesGmul x8 x8
  let x32 := aesGmul x16 x16
  let x64 := aesGmul x32 x32
  let x128 := aesGmul x64 x64
  let result := aesGmul x2 x4
  let result := aesGmul result x8
  let result := aesGmul result x16
  let result := aesGmul result x32
  let result := aesGmul result x64
  aesGmul result x128

def aesSbox (x : UInt8) : UInt8 :=
  let y := aesGfInv x
  y ^^^ aesRotl8 y 1 ^^^ aesRotl8 y 2 ^^^ aesRotl8 y 3 ^^^ aesRotl8 y 4 ^^^ 0x63

def aesInvSbox (x : UInt8) : UInt8 :=
  aesGfInv (aesRotl8 x 1 ^^^ aesRotl8 x 3 ^^^ aesRotl8 x 6 ^^^ 0x05)

def addRoundKey (state roundKey : List UInt8) : List UInt8 := xorBlock state roundKey

def subBytes (state : List UInt8) : List UInt8 := state.map aesSbox

def invSubBytes (state : List UInt8) : List UInt8 := state.map aesInvSbox

def shiftRows (state : List UInt8) : List UInt8 :=
  [0, 5, 10, 15, 4, 9, 14, 3, 8, 13, 2, 7, 12, 1, 6, 11].map fun i => state.getD i 0

def invShiftRows (state : List UInt8) : List UInt8 :=
  [0, 13, 10, 7, 4, 1, 14, 11, 8, 5, 2, 15, 12, 9, 6, 3].map fun i => state.getD i 0

def mixColumn (column : List UInt8) : List UInt8 :=
  let a0 := column.getD 0 0
  let a1 := column.getD 1 0
  let a2 := column.getD 2 0
  let a3 := column.getD 3 0
  let x0 := aesXtime a0
  let x1 := aesXtime a1
  let x2 := aesXtime a2
  let x3 := aesXtime a3
  [x0 ^^^ (x1 ^^^ a1) ^^^ a2 ^^^ a3, a0 ^^^ x1 ^^^ (x2 ^^^ a2) ^^^ a3,
    a0 ^^^ a1 ^^^ x2 ^^^ (x3 ^^^ a3), (x0 ^^^ a0) ^^^ a1 ^^^ a2 ^^^ x3]

def invMixColumn (column : List UInt8) : List UInt8 :=
  let a0 := column.getD 0 0
  let a1 := column.getD 1 0
  let a2 := column.getD 2 0
  let a3 := column.getD 3 0
  [aesGmul a0 14 ^^^ aesGmul a1 11 ^^^ aesGmul a2 13 ^^^ aesGmul a3 9,
    aesGmul a0 9 ^^^ aesGmul a1 14 ^^^ aesGmul a2 11 ^^^ aesGmul a3 13,
    aesGmul a0 13 ^^^ aesGmul a1 9 ^^^ aesGmul a2 14 ^^^ aesGmul a3 11,
    aesGmul a0 11 ^^^ aesGmul a1 13 ^^^ aesGmul a2 9 ^^^ aesGmul a3 14]

def onColumns (step : List UInt8 → List UInt8) (state : List UInt8) : List UInt8 :=
  (List.range 4).flatMap fun column => step ((state.drop (4 * column)).take 4)

def mixColumns (state : List UInt8) : List UInt8 := onColumns mixColumn state

def invMixColumns (state : List UInt8) : List UInt8 := onColumns invMixColumn state

def aesKeyParameters : Nat → Except LiberaCError (Nat × Nat)
  | 16 => .ok (4, 10)
  | 24 => .ok (6, 12)
  | 32 => .ok (8, 14)
  | _ => .error .invalidKey

structure AesContext where
  roundKeys : List UInt8
  rounds : Nat
  keyWords : Nat

/-- The word that the next four bytes are made with, and the next round constant. -/
def scheduleWord (keyLength : Nat) (keys : List UInt8) (rcon : UInt8) : List UInt8 × UInt8 :=
  let temp := (List.range 4).map fun i => keys.getD (keys.length - 4 + i) 0
  if keys.length % keyLength = 0 then
    ([aesSbox (temp.getD 1 0) ^^^ rcon, aesSbox (temp.getD 2 0), aesSbox (temp.getD 3 0),
      aesSbox (temp.getD 0 0)], aesXtime rcon)
  else if keyLength = 32 ∧ keys.length % keyLength = 16 then (temp.map aesSbox, rcon)
  else (temp, rcon)

def scheduleBytes (keyLength totalBytes : Nat) (temp keys : List UInt8) : List UInt8 :=
  countUp 4 (fun i keys =>
    if keys.length < totalBytes then
      keys ++ [keys.getD (keys.length - keyLength) 0 ^^^ temp.getD i 0]
    else keys) keys

theorem scheduleBytes_longer {keyLength totalBytes : Nat} {temp keys : List UInt8}
    (h : keys.length < totalBytes) :
    keys.length < (scheduleBytes keyLength totalBytes temp keys).length := by
  have hstep := countUp_invariant
    (fun i (later : List UInt8) => keys.length ≤ later.length ∧ (1 ≤ i → keys.length < later.length))
    (n := 4) (f := fun i keys =>
      if keys.length < totalBytes then
        keys ++ [keys.getD (keys.length - keyLength) 0 ^^^ temp.getD i 0]
      else keys) (s := keys) ⟨le_rfl, by omega⟩ ?_
  · exact hstep.2 (by omega)
  · intro i hi later hlater
    split_ifs with hroom
    · rw [List.length_append, List.length_singleton]
      omega
    · omega

/-- `while (bytes_generated < total_bytes)`. -/
def schedule (keyLength totalBytes : Nat) (keys : List UInt8) (rcon : UInt8) : List UInt8 :=
  if _h : keys.length < totalBytes then
    let word := scheduleWord keyLength keys rcon
    schedule keyLength totalBytes (scheduleBytes keyLength totalBytes word.1 keys) word.2
  else keys
termination_by totalBytes - keys.length
decreasing_by
  have hlonger := @scheduleBytes_longer keyLength totalBytes (scheduleWord keyLength keys rcon).1
    keys _h
  omega

/-- The round keys that are not made stay zero. -/
def cryptoAesContextInit (key : List UInt8) : Except LiberaCError AesContext := do
  let parameters ← aesKeyParameters key.length
  let keys := schedule key.length (16 * (parameters.2 + 1)) key 1
  return ⟨keys ++ List.replicate (240 - keys.length) 0, parameters.2, parameters.1⟩

def aesContextValid (context : AesContext) : Bool :=
  (context.rounds = 10 && context.keyWords = 4) || (context.rounds = 12 && context.keyWords = 6) ||
    (context.rounds = 14 && context.keyWords = 8)

def AesContext.roundKey (context : AesContext) (round : Nat) : List UInt8 :=
  context.roundKeys.drop (16 * round)

def encryptRound (context : AesContext) (i : Nat) (state : List UInt8) : List UInt8 :=
  addRoundKey (mixColumns (shiftRows (subBytes state))) (context.roundKey (i + 1))

def encryptState (context : AesContext) (input : List UInt8) : List UInt8 :=
  let state := addRoundKey input (context.roundKey 0)
  let state := countUp (context.rounds - 1) (encryptRound context) state
  addRoundKey (shiftRows (subBytes state)) (context.roundKey context.rounds)

def cryptoAesEncryptBlock (context : AesContext) : BlockFunction := fun input =>
  if aesContextValid context = false then .error .invalidArgument
  else .ok (encryptState context input)

def decryptRound (context : AesContext) (i : Nat) (state : List UInt8) : List UInt8 :=
  invMixColumns (addRoundKey (invSubBytes (invShiftRows state)) (context.roundKey (i + 1)))

def decryptState (context : AesContext) (input : List UInt8) : List UInt8 :=
  let state := addRoundKey input (context.roundKey context.rounds)
  let state := countDown (context.rounds - 1) (decryptRound context) state
  addRoundKey (invSubBytes (invShiftRows state)) (context.roundKey 0)

def cryptoAesDecryptBlock (context : AesContext) : BlockFunction := fun input =>
  if aesContextValid context = false then .error .invalidArgument
  else .ok (decryptState context input)

theorem forall_byte {P : UInt8 → Prop} (h : ∀ n < 256, P (UInt8.ofNat n)) (x : UInt8) : P x := by
  have hx := h x.toNat (UInt8.toNat_lt x)
  rwa [UInt8.ofNat_toNat] at hx

theorem bit_cases {x : UInt8} (h : x.toNat < 2) : x = 0 ∨ x = 1 := by
  rw [← UInt8.toNat_inj, ← UInt8.toNat_inj, UInt8.toNat_zero, UInt8.toNat_one]
  omega

theorem top_bit (x : UInt8) : x >>> 7 = 0 ∨ x >>> 7 = 1 := by
  have hlt := x.toNat_lt
  apply bit_cases
  rw [UInt8.toNat_shiftRight, Nat.shiftRight_eq_div_pow]
  change x.toNat / 2 ^ 7 < 2
  omega

theorem low_bit (x : UInt8) : x &&& 1 = 0 ∨ x &&& 1 = 1 := by
  apply bit_cases
  rw [UInt8.toNat_and]
  exact (Nat.and_one_is_mod _).trans_lt (Nat.mod_lt _ Nat.two_pos)

section Tables

def xtimeNat (x : Nat) : Nat := (x <<< 1) % 256 ^^^ 27 * (x >>> 7)

def gmulNat : Nat → Nat → Nat → Nat
  | 0, _, _ => 0
  | k + 1, a, b => (b % 2) * a ^^^ gmulNat k (xtimeNat a) (b / 2)

def gfInvNat (x : Nat) : Nat :=
  let multiply := gmulNat 8
  let x2 := multiply x x
  let x4 := multiply x2 x2
  let x8 := multiply x4 x4
  let x16 := multiply x8 x8
  let x32 := multiply x16 x16
  let x64 := multiply x32 x32
  let x128 := multiply x64 x64
  multiply (multiply (multiply (multiply (multiply (multiply x2 x4) x8) x16) x32) x64) x128

theorem aesXtime_toNat : ∀ x, (aesXtime x).toNat = xtimeNat x.toNat :=
  forall_byte (by decide +kernel)

/-- One step of the product adds a multiple of the first factor. -/
def gmulStep (state : UInt8 × UInt8 × UInt8) : UInt8 × UInt8 × UInt8 :=
  (state.1 ^^^ (state.2.1 &&& (0 - (state.2.2 &&& 1))), aesXtime state.2.1, state.2.2 >>> 1)

theorem masked_toNat (a b : UInt8) :
    (a &&& (0 - (b &&& 1))).toNat = (b.toNat % 2) * a.toNat := by
  have hbit : (b &&& 1).toNat = b.toNat % 2 := by
    rw [UInt8.toNat_and]
    exact Nat.and_one_is_mod _
  rcases low_bit b with hb | hb <;> rw [hb] at hbit ⊢ <;> rw [← hbit]
  · simp
  · simp

theorem gmulStep_toNat (k : Nat) (state : UInt8 × UInt8 × UInt8) :
    ((gmulStep^[k] state).1).toNat =
      state.1.toNat ^^^ gmulNat k state.2.1.toNat state.2.2.toNat := by
  induction k generalizing state with
  | zero => simp [gmulNat]
  | succ k ih =>
    rw [Function.iterate_succ_apply, ih]
    simp only [gmulStep, gmulNat, UInt8.toNat_xor, masked_toNat, aesXtime_toNat,
      UInt8.toNat_shiftRight]
    rw [Nat.xor_assoc]
    rfl

theorem aesGmul_eq (a b : UInt8) : aesGmul a b = (gmulStep^[8] (0, a, b)).1 := rfl

theorem aesGmul_toNat (a b : UInt8) : (aesGmul a b).toNat = gmulNat 8 a.toNat b.toNat := by
  rw [aesGmul_eq, gmulStep_toNat]
  exact Nat.zero_xor _

theorem aesGfInv_toNat (x : UInt8) : (aesGfInv x).toNat = gfInvNat x.toNat := by
  simp only [aesGfInv, gfInvNat, aesGmul_toNat]

theorem gfInvNat_twice : ∀ n < 256, gfInvNat (gfInvNat n) = n := by decide +kernel

theorem aesGfInv_twice (x : UInt8) : aesGfInv (aesGfInv x) = x := by
  apply UInt8.toNat_inj.mp
  rw [aesGfInv_toNat, aesGfInv_toNat]
  exact gfInvNat_twice _ (UInt8.toNat_lt x)

end Tables

def affine (y : UInt8) : UInt8 :=
  y ^^^ aesRotl8 y 1 ^^^ aesRotl8 y 2 ^^^ aesRotl8 y 3 ^^^ aesRotl8 y 4 ^^^ 0x63

def invAffine (x : UInt8) : UInt8 := aesRotl8 x 1 ^^^ aesRotl8 x 3 ^^^ aesRotl8 x 6 ^^^ 0x05

theorem affine_inverse : ∀ x, invAffine (affine x) = x ∧ affine (invAffine x) = x :=
  forall_byte (by decide +kernel)

theorem aesInvSbox_sbox (x : UInt8) : aesInvSbox (aesSbox x) = x :=
  (congrArg aesGfInv (affine_inverse (aesGfInv x)).1).trans (aesGfInv_twice x)

theorem aesSbox_invSbox (x : UInt8) : aesSbox (aesInvSbox x) = x :=
  (congrArg affine (aesGfInv_twice (invAffine x))).trans (affine_inverse x).2

theorem invSubBytes_subBytes (state : List UInt8) : invSubBytes (subBytes state) = state := by
  rw [invSubBytes, subBytes, List.map_map]
  exact List.map_id'' aesInvSbox_sbox state

theorem subBytes_invSubBytes (state : List UInt8) : subBytes (invSubBytes state) = state := by
  rw [invSubBytes, subBytes, List.map_map]
  exact List.map_id'' aesSbox_invSbox state

theorem aesXtime_xor (x y : UInt8) : aesXtime (x ^^^ y) = aesXtime x ^^^ aesXtime y := by
  have hlow : ∀ m n c d : UInt8, m ^^^ c ^^^ (n ^^^ d) = m ^^^ n ^^^ (c ^^^ d) := by
    intro m n c d
    ac_rfl
  have hdouble : (x ^^^ y) <<< 1 = (x <<< 1) ^^^ (y <<< 1) :=
    UInt8.toBitVec_inj.mp (BitVec.shiftLeft_xor_distrib _ _ _)
  have htop : (x ^^^ y) >>> 7 = (x >>> 7) ^^^ (y >>> 7) :=
    UInt8.toBitVec_inj.mp (BitVec.ushiftRight_xor_distrib _ _ _)
  let reduce : UInt8 → UInt8 := fun hi => 0x1b &&& (0 - hi)
  have hreduce : reduce ((x >>> 7) ^^^ (y >>> 7)) = reduce (x >>> 7) ^^^ reduce (y >>> 7) := by
    rcases top_bit x with hx | hx <;> rcases top_bit y with hy | hy <;> rw [hx, hy] <;> decide
  change (x ^^^ y) <<< 1 ^^^ reduce ((x ^^^ y) >>> 7) =
    x <<< 1 ^^^ reduce (x >>> 7) ^^^ (y <<< 1 ^^^ reduce (y >>> 7))
  rw [hdouble, htop, hreduce, hlow]

theorem masked_xor (x y b : UInt8) :
    (x ^^^ y) &&& (0 - (b &&& 1)) = (x &&& (0 - (b &&& 1))) ^^^ (y &&& (0 - (b &&& 1))) := by
  rcases low_bit b with hb | hb <;> rw [hb]
  · simp
  · simp

theorem gmulStep_xor (k : Nat) (r s x y b : UInt8) :
    (gmulStep^[k] (r ^^^ s, x ^^^ y, b)).1 =
      (gmulStep^[k] (r, x, b)).1 ^^^ (gmulStep^[k] (s, y, b)).1 := by
  induction k generalizing r s x y b with
  | zero => rfl
  | succ k ih =>
    simp only [Function.iterate_succ_apply]
    have hpair : gmulStep (r ^^^ s, x ^^^ y, b) =
        ((gmulStep (r, x, b)).1 ^^^ (gmulStep (s, y, b)).1,
          (gmulStep (r, x, b)).2.1 ^^^ (gmulStep (s, y, b)).2.1, b >>> 1) := by
      simp only [gmulStep, masked_xor, aesXtime_xor]
      congr 1
      ac_rfl
    rw [hpair, ih]
    rfl

theorem aesGmul_xor (x y b : UInt8) : aesGmul (x ^^^ y) b = aesGmul x b ^^^ aesGmul y b := by
  have hzero : (0 : UInt8) = 0 ^^^ 0 := rfl
  rw [aesGmul_eq, hzero, gmulStep_xor]
  rfl

/-- The matrix whose rows are the turns of one row, on a column. -/
def circulant (m : Nat → UInt8 → UInt8) (column : List UInt8) : List UInt8 :=
  (List.range 4).map fun r =>
    m ((4 - r) % 4) (column.getD 0 0) ^^^ m ((5 - r) % 4) (column.getD 1 0) ^^^
      m ((6 - r) % 4) (column.getD 2 0) ^^^ m ((7 - r) % 4) (column.getD 3 0)

def mixFactor : Nat → UInt8 → UInt8
  | 0, a => aesXtime a
  | 1, a => aesXtime a ^^^ a
  | _, a => a

def invMixFactor : Nat → UInt8 → UInt8
  | 0, a => aesGmul a 14
  | 1, a => aesGmul a 11
  | 2, a => aesGmul a 13
  | _, a => aesGmul a 9

theorem mixColumn_eq (column : List UInt8) : mixColumn column = circulant mixFactor column := rfl

theorem invMixColumn_eq (column : List UInt8) :
    invMixColumn column = circulant invMixFactor column := rfl

/-- Two such matrices undo each other when the sixteen products add up as they should. -/
theorem circulant_inverse {m n : Nat → UInt8 → UInt8}
    (hadd : ∀ k x y, m k (x ^^^ y) = m k x ^^^ m k y)
    (h : ∀ a, ∀ r < 4, ∀ j < 4, m ((4 - r) % 4) (n ((4 + j) % 4) a) ^^^
      m ((5 - r) % 4) (n ((3 + j) % 4) a) ^^^ m ((6 - r) % 4) (n ((2 + j) % 4) a) ^^^
      m ((7 - r) % 4) (n ((1 + j) % 4) a) = if r = j then a else 0) (a0 a1 a2 a3 : UInt8) :
    circulant m (circulant n [a0, a1, a2, a3]) = [a0, a1, a2, a3] := by
  have hregroup : ∀ x0 x1 x2 x3 y0 y1 y2 y3 z0 z1 z2 z3 w0 w1 w2 w3 : UInt8,
      (x0 ^^^ x1 ^^^ x2 ^^^ x3) ^^^ (y0 ^^^ y1 ^^^ y2 ^^^ y3) ^^^ (z0 ^^^ z1 ^^^ z2 ^^^ z3) ^^^
        (w0 ^^^ w1 ^^^ w2 ^^^ w3) =
      (x0 ^^^ y0 ^^^ z0 ^^^ w0) ^^^ (x1 ^^^ y1 ^^^ z1 ^^^ w1) ^^^ (x2 ^^^ y2 ^^^ z2 ^^^ w2) ^^^
        (x3 ^^^ y3 ^^^ z3 ^^^ w3) := by
    intros
    ac_rfl
  have hrow : ∀ r < 4, m ((4 - r) % 4) (n 0 a0 ^^^ n 1 a1 ^^^ n 2 a2 ^^^ n 3 a3) ^^^
      m ((5 - r) % 4) (n 3 a0 ^^^ n 0 a1 ^^^ n 1 a2 ^^^ n 2 a3) ^^^
      m ((6 - r) % 4) (n 2 a0 ^^^ n 3 a1 ^^^ n 0 a2 ^^^ n 1 a3) ^^^
      m ((7 - r) % 4) (n 1 a0 ^^^ n 2 a1 ^^^ n 3 a2 ^^^ n 0 a3) =
      (if r = 0 then a0 else 0) ^^^ (if r = 1 then a1 else 0) ^^^ (if r = 2 then a2 else 0) ^^^
        (if r = 3 then a3 else 0) := by
    intro r hr
    simp only [hadd]
    rw [hregroup, ← h a0 r hr 0 (by decide), ← h a1 r hr 1 (by decide), ← h a2 r hr 2 (by decide),
      ← h a3 r hr 3 (by decide)]
  have h0 := hrow 0 (by decide)
  have h1 := hrow 1 (by decide)
  have h2 := hrow 2 (by decide)
  have h3 := hrow 3 (by decide)
  simp at h0 h1 h2 h3
  simp [circulant, List.range_succ, h0, h1, h2, h3]

theorem mixFactor_xor (k : Nat) (x y : UInt8) :
    mixFactor k (x ^^^ y) = mixFactor k x ^^^ mixFactor k y := by
  match k with
  | 0 => exact aesXtime_xor x y
  | 1 =>
    simp only [mixFactor, aesXtime_xor]
    ac_rfl
  | _ + 2 => rfl

theorem invMixFactor_xor (k : Nat) (x y : UInt8) :
    invMixFactor k (x ^^^ y) = invMixFactor k x ^^^ invMixFactor k y := by
  match k with
  | 0 | 1 | 2 | _ + 3 => exact aesGmul_xor x y _

/-- A factor that is known is taken bit by bit. -/
theorem gmulStep_bit (r a b : UInt8) :
    gmulStep (r, a, b) = (if b &&& 1 = 1 then r ^^^ a else r, aesXtime a, b >>> 1) := by
  rcases low_bit b with hb | hb
  · simp [gmulStep, hb]
  · simp [gmulStep, hb]

theorem aesGmul_iterate (a b : UInt8) :
    aesGmul a b = (gmulStep (gmulStep (gmulStep (gmulStep (gmulStep (gmulStep (gmulStep (gmulStep
      (0, a, b))))))))).1 := rfl

theorem aesGmul_nine (a : UInt8) : aesGmul a 9 = aesXtime (aesXtime (aesXtime a)) ^^^ a := by
  have hbits : aesGmul a 9 = 0 ^^^ a ^^^ aesXtime (aesXtime (aesXtime a)) := by
    simp only [aesGmul_iterate, gmulStep_bit]
    rfl
  rw [hbits, UInt8.zero_xor, UInt8.xor_comm]

theorem aesGmul_eleven (a : UInt8) :
    aesGmul a 11 = aesXtime (aesXtime (aesXtime a)) ^^^ aesXtime a ^^^ a := by
  have hbits : aesGmul a 11 = 0 ^^^ a ^^^ aesXtime a ^^^ aesXtime (aesXtime (aesXtime a)) := by
    simp only [aesGmul_iterate, gmulStep_bit]
    rfl
  rw [hbits, UInt8.zero_xor]
  ac_rfl

theorem aesGmul_thirteen (a : UInt8) :
    aesGmul a 13 = aesXtime (aesXtime (aesXtime a)) ^^^ aesXtime (aesXtime a) ^^^ a := by
  have hbits : aesGmul a 13 =
      0 ^^^ a ^^^ aesXtime (aesXtime a) ^^^ aesXtime (aesXtime (aesXtime a)) := by
    simp only [aesGmul_iterate, gmulStep_bit]
    rfl
  rw [hbits, UInt8.zero_xor]
  ac_rfl

theorem aesGmul_fourteen (a : UInt8) :
    aesGmul a 14 = aesXtime (aesXtime (aesXtime a)) ^^^ aesXtime (aesXtime a) ^^^ aesXtime a := by
  have hbits : aesGmul a 14 =
      0 ^^^ aesXtime a ^^^ aesXtime (aesXtime a) ^^^ aesXtime (aesXtime (aesXtime a)) := by
    simp only [aesGmul_iterate, gmulStep_bit]
    rfl
  rw [hbits, UInt8.zero_xor]
  ac_rfl

theorem xor_cancel (x y : UInt8) : x ^^^ (x ^^^ y) = y := by
  rw [← UInt8.xor_assoc, UInt8.xor_self, UInt8.zero_xor]

theorem xor_left_comm (x y z : UInt8) : x ^^^ (y ^^^ z) = y ^^^ (x ^^^ z) := by
  ac_rfl

theorem invMixColumn_mixColumn (a0 a1 a2 a3 : UInt8) :
    invMixColumn (mixColumn [a0, a1, a2, a3]) = [a0, a1, a2, a3] := by
  rw [mixColumn_eq, invMixColumn_eq]
  apply circulant_inverse invMixFactor_xor
  intro a r hr j hj
  interval_cases r <;> interval_cases j <;>
    simp only [invMixFactor, mixFactor, Nat.reduceAdd, Nat.reduceSub, Nat.reduceMod,
      Nat.reduceEqDiff, reduceIte, aesGmul_nine, aesGmul_eleven, aesGmul_thirteen,
      aesGmul_fourteen, aesXtime_xor, UInt8.xor_assoc, UInt8.xor_comm, xor_left_comm, xor_cancel,
      UInt8.xor_self, UInt8.zero_xor, UInt8.xor_zero]

theorem mixColumn_invMixColumn (a0 a1 a2 a3 : UInt8) :
    mixColumn (invMixColumn [a0, a1, a2, a3]) = [a0, a1, a2, a3] := by
  rw [mixColumn_eq, invMixColumn_eq]
  apply circulant_inverse mixFactor_xor
  intro a r hr j hj
  interval_cases r <;> interval_cases j <;>
    simp only [invMixFactor, mixFactor, Nat.reduceAdd, Nat.reduceSub, Nat.reduceMod,
      Nat.reduceEqDiff, reduceIte, aesGmul_nine, aesGmul_eleven, aesGmul_thirteen,
      aesGmul_fourteen, aesXtime_xor, UInt8.xor_assoc, UInt8.xor_comm, xor_left_comm, xor_cancel,
      UInt8.xor_self, UInt8.zero_xor, UInt8.xor_zero]

theorem eq_bytes {state : List UInt8} (h : state.length = 16) :
    (List.range 16).map (fun i => state.getD i 0) = state := by
  apply List.ext_getElem
  · simp [h]
  · intro i hi hi'
    rw [List.getElem_map, List.getElem_range, List.getD_eq_getElem _ _ hi']

theorem exists_sixteen {state : List UInt8} (h : state.length = 16) :
    ∃ a0 a1 a2 a3 a4 a5 a6 a7 a8 a9 a10 a11 a12 a13 a14 a15,
      state = [a0, a1, a2, a3, a4, a5, a6, a7, a8, a9, a10, a11, a12, a13, a14, a15] :=
  ⟨_, _, _, _, _, _, _, _, _, _, _, _, _, _, _, _, (eq_bytes h).symm⟩

theorem invShiftRows_shiftRows {state : List UInt8} (h : state.length = 16) :
    invShiftRows (shiftRows state) = state := by
  obtain ⟨_, _, _, _, _, _, _, _, _, _, _, _, _, _, _, _, rfl⟩ := exists_sixteen h
  rfl

theorem shiftRows_invShiftRows {state : List UInt8} (h : state.length = 16) :
    shiftRows (invShiftRows state) = state := by
  obtain ⟨_, _, _, _, _, _, _, _, _, _, _, _, _, _, _, _, rfl⟩ := exists_sixteen h
  rfl

/-- A step that the other undoes on each column is undone on the state. -/
theorem onColumns_inverse {f g : List UInt8 → List UInt8} (hlength : ∀ column, (g column).length = 4)
    (h : ∀ a0 a1 a2 a3, f (g [a0, a1, a2, a3]) = [a0, a1, a2, a3]) {state : List UInt8}
    (hstate : state.length = 16) : onColumns f (onColumns g state) = state := by
  have hcolumns : ∀ c0 c1 c2 c3 : List UInt8, c0.length = 4 → c1.length = 4 → c2.length = 4 →
      c3.length = 4 → onColumns f (c0 ++ (c1 ++ (c2 ++ (c3 ++ [])))) =
        f c0 ++ (f c1 ++ (f c2 ++ (f c3 ++ []))) := by
    intro c0 c1 c2 c3 h0 h1 h2 h3
    simp [onColumns, List.range_succ, List.drop_append, List.take_append, h0, h1, h2, h3,
      List.drop_eq_nil_of_le, List.take_of_length_le]
  obtain ⟨_, _, _, _, _, _, _, _, _, _, _, _, _, _, _, _, rfl⟩ := exists_sixteen hstate
  rw [onColumns.eq_1 g, List.range_eq_range']
  change onColumns f (g _ ++ (g _ ++ (g _ ++ (g _ ++ [])))) = _
  rw [hcolumns _ _ _ _ (hlength _) (hlength _) (hlength _) (hlength _)]
  simp only [List.take, List.drop, h]
  rfl

theorem invMixColumns_mixColumns {state : List UInt8} (h : state.length = 16) :
    invMixColumns (mixColumns state) = state :=
  onColumns_inverse (fun _ => rfl) invMixColumn_mixColumn h

theorem mixColumns_invMixColumns {state : List UInt8} (h : state.length = 16) :
    mixColumns (invMixColumns state) = state :=
  onColumns_inverse (fun _ => rfl) mixColumn_invMixColumn h

theorem addRoundKey_twice {state : List UInt8} (h : state.length = 16) (roundKey : List UInt8) :
    addRoundKey (addRoundKey state roundKey) roundKey = state := by
  rw [addRoundKey, addRoundKey, xorBlock]
  refine .trans (List.map_congr_left fun i hi => ?_) (eq_bytes h)
  have hbyte : (xorBlock state roundKey).getD i 0 = state.getD i 0 ^^^ roundKey.getD i 0 := by
    rw [xorBlock, List.getD_eq_getElem _ _ (by simpa using hi), List.getElem_map,
      List.getElem_range]
  rw [hbyte, UInt8.xor_assoc, UInt8.xor_self, UInt8.xor_zero]

section Lengths

variable {state : List UInt8}

@[simp] theorem addRoundKey_length (state roundKey : List UInt8) :
    (addRoundKey state roundKey).length = 16 := xorBlock_length _ _

@[simp] theorem subBytes_length : (subBytes state).length = state.length := List.length_map _

@[simp] theorem invSubBytes_length : (invSubBytes state).length = state.length := List.length_map _

@[simp] theorem shiftRows_length : (shiftRows state).length = 16 := rfl

@[simp] theorem invShiftRows_length : (invShiftRows state).length = 16 := rfl

@[simp] theorem mixColumns_length : (mixColumns state).length = 16 := rfl

@[simp] theorem invMixColumns_length : (invMixColumns state).length = 16 := rfl

end Lengths

variable {context : AesContext}

theorem decryptRound_encryptRound (i : Nat) (state : List UInt8) :
    decryptRound context i (shiftRows (subBytes (encryptRound context i state))) =
      shiftRows (subBytes state) := by
  unfold decryptRound
  rw [invShiftRows_shiftRows (by simp [encryptRound]), invSubBytes_subBytes, encryptRound,
    addRoundKey_twice (by simp), invMixColumns_mixColumns (by simp)]

theorem encryptRound_decryptRound (i : Nat) (state : List UInt8) :
    encryptRound context i (invSubBytes (invShiftRows (decryptRound context i state))) =
      invSubBytes (invShiftRows state) := by
  unfold encryptRound
  rw [subBytes_invSubBytes, shiftRows_invShiftRows (by simp [decryptRound]), decryptRound,
    mixColumns_invMixColumns (by simp), addRoundKey_twice (by simp)]

@[simp] theorem encryptState_length (context : AesContext) (input : List UInt8) :
    (encryptState context input).length = 16 := addRoundKey_length _ _

@[simp] theorem decryptState_length (context : AesContext) (input : List UInt8) :
    (decryptState context input).length = 16 := addRoundKey_length _ _

theorem decryptState_encryptState (context : AesContext) {input : List UInt8}
    (h : input.length = 16) : decryptState context (encryptState context input) = input := by
  have hloop := countDown_countUp (m := fun s => shiftRows (subBytes s))
    (@decryptRound_encryptRound context) (context.rounds - 1)
    (addRoundKey input (context.roundKey 0))
  unfold decryptState encryptState
  dsimp only
  rw [addRoundKey_twice (by simp), hloop, invShiftRows_shiftRows (by simp), invSubBytes_subBytes,
    addRoundKey_twice h]

theorem encryptState_decryptState (context : AesContext) {input : List UInt8}
    (h : input.length = 16) : encryptState context (decryptState context input) = input := by
  have hloop := countUp_countDown (m := fun s => invSubBytes (invShiftRows s))
    (@encryptRound_decryptRound context) (context.rounds - 1)
    (addRoundKey input (context.roundKey context.rounds))
  unfold decryptState encryptState
  dsimp only
  rw [addRoundKey_twice (by simp), hloop, subBytes_invSubBytes, shiftRows_invShiftRows (by simp),
    addRoundKey_twice h]

theorem cryptoAesEncryptBlock_valid (h : aesContextValid context = true) (input : List UInt8) :
    cryptoAesEncryptBlock context input = .ok (encryptState context input) :=
  if_neg (by simp [h])

theorem cryptoAesDecryptBlock_valid (h : aesContextValid context = true) (input : List UInt8) :
    cryptoAesDecryptBlock context input = .ok (decryptState context input) :=
  if_neg (by simp [h])

theorem cryptoAesContextInit_valid {key : List UInt8}
    (h : key.length = 16 ∨ key.length = 24 ∨ key.length = 32) :
    ∃ context, cryptoAesContextInit key = .ok context ∧ aesContextValid context = true := by
  unfold cryptoAesContextInit
  rcases h with h | h | h <;> rw [h] <;> exact ⟨_, rfl, rfl⟩

end LiberaCrypt.AesBlock
