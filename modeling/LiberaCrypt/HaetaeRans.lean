import LiberaCrypt.Endian
import LiberaCrypt.Rans

namespace LiberaCrypt.HaetaeRans

open LiberaCrypt.Endian LiberaCrypt.LittleEndian LiberaCrypt.Radix LiberaCrypt.Rans

def ransByteL : Nat := 1 <<< 23

structure RansEncSymbol where
  xMax : Nat
  rcpFreq : Nat
  bias : Nat
  cmplFreq : Nat
  rcpShift : Nat
deriving DecidableEq, Inhabited

structure RansDecSymbol where
  start : Nat
  freq : Nat
deriving DecidableEq, Inhabited

def ransEncInit : Nat := ransByteL

/-- The bytes from the write pointer on, and the loop that writes in front of them. A state
of 32 bits is 0 after four rounds. -/
def writeBytes (xMax : Nat) : Nat → Nat × List UInt8 → Nat × List UInt8
  | 0, state => state
  | rounds + 1, (x, out) =>
    if xMax ≤ x then writeBytes xMax rounds (x >>> 8, UInt8.ofNat (x &&& 0xff) :: out) else (x, out)

def ransEncRenorm (state : Nat × List UInt8) (freq scaleBits : Nat) : Nat × List UInt8 :=
  writeBytes (((ransByteL >>> scaleBits) <<< 8) * freq % 2 ^ 32) 4 state

def ransEncPut (state : Nat × List UInt8) (start freq scaleBits : Nat) : Nat × List UInt8 :=
  let renormed := ransEncRenorm state freq scaleBits
  let x := renormed.1
  ((((x / freq) <<< scaleBits) + x % freq + start) % 2 ^ 32, renormed.2)

def ransEncFlush (state : Nat × List UInt8) : List UInt8 :=
  cryptoStore32Le (UInt32.ofNat state.1) ++ state.2

def ransDecInit (bytes : List UInt8) : Option (Nat × List UInt8) :=
  if bytes.length < 4 then none
  else
    let x := (cryptoLoad32Le bytes).toNat
    if x < ransByteL ∨ ransByteL <<< 8 ≤ x then none else some (x, bytes.drop 4)

def ransDecGet (x scaleBits : Nat) : Nat := x &&& ((1 <<< scaleBits) - 1)

def readBytes (x : Nat) : List UInt8 → Nat × List UInt8
  | [] => (x, [])
  | byte :: bytes =>
    if x < ransByteL then readBytes ((x <<< 8 ||| byte.toNat) % 2 ^ 32) bytes
    else (x, byte :: bytes)

def ransDecAdvance (state : Nat × List UInt8) (start freq scaleBits : Nat) : Nat × List UInt8 :=
  let mask := (1 <<< scaleBits) - 1
  let x := state.1
  readBytes ((freq * (x >>> scaleBits) + (x &&& mask) + (2 ^ 32 - start)) % 2 ^ 32) state.2

def ransDecAdvanceSymbol (state : Nat × List UInt8) (sym : RansDecSymbol) (scaleBits : Nat) :
    Nat × List UInt8 :=
  ransDecAdvance state sym.start sym.freq scaleBits

/-- The least shift from `shift` on, of a frequency of 32 bits. -/
def coverShift (freq : Nat) : Nat → Nat → Nat
  | 0, shift => shift
  | rounds + 1, shift => if 1 <<< shift < freq then coverShift freq rounds (shift + 1) else shift

def ransEncSymbolInit (start freq scaleBits : Nat) : RansEncSymbol :=
  let xMax := ((ransByteL >>> scaleBits) <<< 8) * freq % 2 ^ 32
  let cmplFreq := ((1 <<< scaleBits) - freq) % 2 ^ 16
  if freq < 2 then
    -- the reciprocal of 1 does not fit: its symbol divides by 2 ^ 32 / (2 ^ 32 - 1)
    { xMax := xMax, rcpFreq := 2 ^ 32 - 1, bias := start + (1 <<< scaleBits) - 1,
      cmplFreq := cmplFreq, rcpShift := 0 }
  else
    let shift := coverShift freq 32 0
    { xMax := xMax, rcpFreq := ((1 <<< (shift + 31)) + freq - 1) / freq % 2 ^ 32, bias := start,
      cmplFreq := cmplFreq, rcpShift := shift - 1 }

def RansEncSymbol.quotient (sym : RansEncSymbol) (x : Nat) : Nat :=
  (((x * sym.rcpFreq) >>> 32) % 2 ^ 32) >>> sym.rcpShift

def ransEncPutSymbol (state : Nat × List UInt8) (sym : RansEncSymbol) : Nat × List UInt8 :=
  let renormed := writeBytes sym.xMax 4 state
  let x := renormed.1
  ((x + sym.bias + sym.quotient x * sym.cmplFreq) % 2 ^ 32, renormed.2)

def ransDecVerify (x : Nat) : Bool := x == ransByteL

/-- The states of 31 bits with bytes for digits, at a scale of at most 16 bits. -/
def byteCoder (scaleBits : Nat) : Coder UInt8 where
  radix := 256
  scale := 2 ^ scaleBits
  gain := 2 ^ (23 - scaleBits)
  value := UInt8.toNat
  digit := UInt8.ofNat
  one_lt_radix := by decide
  gain_pos := Nat.two_pow_pos _
  value_lt := fun a => a.toNat_lt
  value_digit := fun n => UInt8.toNat_ofNat'
  digit_congr := fun a n => by
    apply UInt8.toNat_inj.mp
    rw [UInt8.toNat_ofNat', Nat.add_comm]
    exact (Nat.add_mul_mod_self_right _ _ _).trans (Nat.mod_eq_of_lt a.toNat_lt)

variable {scaleBits start freq : Nat} {state : Nat × List UInt8}

theorem byteCoder_low (h : scaleBits ≤ 16) : (byteCoder scaleBits).low = ransByteL := by
  change 2 ^ (23 - scaleBits) * 2 ^ scaleBits = 1 <<< 23
  rw [← pow_add, Nat.sub_add_cancel (by omega), Nat.one_shiftLeft]

theorem xMax_eq (h : scaleBits ≤ 16) (freq : Nat) :
    ((ransByteL >>> scaleBits) <<< 8) * freq = 2 ^ (23 - scaleBits) * freq * 256 := by
  have hdiv : ransByteL >>> scaleBits = 2 ^ (23 - scaleBits) := by
    rw [ransByteL, Nat.one_shiftLeft, Nat.shiftRight_eq_div_pow, Nat.pow_div (by omega) (by decide)]
  rw [hdiv, Nat.shiftLeft_eq]
  ring

theorem writeBytes_eq {xMax : Nat} (hpos : 0 < xMax) (rounds : Nat)
    (h : state.1 < 256 ^ rounds) :
    writeBytes xMax rounds state = (byteCoder scaleBits).spill xMax state := by
  induction rounds generalizing state with
  | zero =>
    have hzero : state.1 < xMax := by
      rw [pow_zero] at h
      omega
    exact (Coder.spill_of_lt hzero state.2).symm
  | succ rounds ih =>
    cases state with
    | mk x out =>
      rw [writeBytes]
      split
      · next hle =>
        have hdiv : x / 256 < 256 ^ rounds := Nat.div_lt_of_lt_mul (by rwa [← pow_succ'])
        have hbyte : UInt8.ofNat (x &&& 0xff) = UInt8.ofNat x := by
          apply UInt8.toNat_inj.mp
          rw [UInt8.toNat_ofNat', UInt8.toNat_ofNat', Nat.and_two_pow_sub_one_eq_mod x 8,
            Nat.mod_mod]
        rw [Coder.spill_of_le hpos hle, hbyte, Nat.shiftRight_eq_div_pow]
        exact ih hdiv
      · next hlt => exact (Coder.spill_of_lt (by omega) out).symm

theorem putSlot_lt {s : Slot} (hb : scaleBits ≤ 16) (hs : s.Fits (2 ^ scaleBits)) {x : Nat}
    (h : x < 2 ^ (23 - scaleBits) * s.freq * 256) : s.put (2 ^ scaleBits) x < 2 ^ 31 := by
  have hlt := Slot.put_lt (2 ^ (23 - scaleBits) * 256) hs (lt_of_lt_of_eq h (by ring))
  have hpow : 2 ^ (23 - scaleBits) * 2 ^ scaleBits = 2 ^ 23 := by
    rw [← pow_add, Nat.sub_add_cancel (by omega)]
  calc s.put (2 ^ scaleBits) x < 2 ^ (23 - scaleBits) * 256 * 2 ^ scaleBits := hlt
    _ = 2 ^ (23 - scaleBits) * 2 ^ scaleBits * 256 := by ring
    _ = 2 ^ 31 := by rw [hpow]; norm_num

theorem xMax_word (hb : scaleBits ≤ 16) (hs : Slot.Fits ⟨start, freq⟩ (2 ^ scaleBits)) :
    ((ransByteL >>> scaleBits) <<< 8) * freq % 2 ^ 32 = 2 ^ (23 - scaleBits) * freq * 256 := by
  have hfreq : freq ≤ 2 ^ scaleBits := le_trans (Nat.le_add_left _ _) hs.le
  have hle : 2 ^ (23 - scaleBits) * freq ≤ 2 ^ 23 := by
    calc 2 ^ (23 - scaleBits) * freq ≤ 2 ^ (23 - scaleBits) * 2 ^ scaleBits :=
          Nat.mul_le_mul_left _ hfreq
      _ = 2 ^ 23 := by rw [← pow_add, Nat.sub_add_cancel (by omega)]
  rw [xMax_eq hb]
  apply Nat.mod_eq_of_lt
  omega

theorem ransEncPut_eq (hb : scaleBits ≤ 16) (hs : Slot.Fits ⟨start, freq⟩ (2 ^ scaleBits))
    (h : state.1 < 2 ^ 31) :
    ransEncPut state start freq scaleBits = (byteCoder scaleBits).push ⟨start, freq⟩ state := by
  have hpos : 0 < 2 ^ (23 - scaleBits) * freq * 256 :=
    Nat.mul_pos (Nat.mul_pos (Nat.two_pow_pos _) hs.pos) (by decide)
  have hrenorm : ransEncRenorm state freq scaleBits =
      (byteCoder scaleBits).spill (2 ^ (23 - scaleBits) * freq * 256) state := by
    rw [ransEncRenorm, xMax_word hb hs, writeBytes_eq hpos 4 (lt_trans h (by norm_num))]
  have hlt := putSlot_lt hb hs (Coder.spill_lt (c := byteCoder scaleBits) hpos state)
  rw [ransEncPut, hrenorm, Coder.push]
  apply Prod.ext
  · rw [Nat.shiftLeft_eq]
    exact Nat.mod_eq_of_lt (lt_trans hlt (by norm_num))
  · rfl

theorem coverShift_spec (rounds shift : Nat) (h : freq ≤ 2 ^ (shift + rounds))
    (hbelow : shift = 0 ∨ 2 ^ (shift - 1) < freq) :
    freq ≤ 2 ^ coverShift freq rounds shift ∧
      (coverShift freq rounds shift = 0 ∨ 2 ^ (coverShift freq rounds shift - 1) < freq) := by
  induction rounds generalizing shift with
  | zero => exact ⟨h, hbelow⟩
  | succ rounds ih =>
    rw [coverShift, Nat.one_shiftLeft]
    split
    · next hlt =>
      apply ih
      · rwa [Nat.add_assoc, Nat.add_comm 1]
      · right
        rwa [Nat.add_sub_cancel]
    · next hle => exact ⟨Nat.le_of_not_lt hle, hbelow⟩

theorem normal_iff (hb : scaleBits ≤ 16) :
    (byteCoder scaleBits).Normal state ↔ 2 ^ 23 ≤ state.1 ∧ state.1 < 2 ^ 31 := by
  have hradix : (byteCoder scaleBits).radix = 256 := rfl
  rw [Coder.Normal, byteCoder_low hb, hradix, ransByteL, Nat.one_shiftLeft]
  norm_num

theorem reciprocal_quotient {freq x : Nat} (hfreq : 2 ≤ freq) (hbound : freq ≤ 2 ^ 16)
    (hx : x < 2 ^ 31) :
    (((x * (((1 <<< (coverShift freq 32 0 + 31)) + freq - 1) / freq % 2 ^ 32)) >>> 32) %
      2 ^ 32) >>> (coverShift freq 32 0 - 1) = x / freq := by
  have hcover := @coverShift_spec freq 32 0
    (le_trans hbound (by rw [Nat.zero_add]; norm_num)) (Or.inl rfl)
  generalize coverShift freq 32 0 = shift at hcover ⊢
  cases shift with
  | zero =>
    have hone := hcover.1
    rw [pow_zero] at hone
    omega
  | succ shift =>
    have hbelow : 2 ^ shift < freq := by simpa using hcover.2
    have hpow : 1 <<< (shift + 1 + 31) = 2 ^ (shift + 1) * 2 ^ 31 := by
      rw [Nat.one_shiftLeft, ← pow_add]
    have hword : (2 ^ (shift + 1) * 2 ^ 31 + freq - 1) / freq < 2 ^ 32 := by
      apply (Nat.div_lt_iff_lt_mul (by omega)).mpr
      rw [pow_succ]
      omega
    have hdiv := mul_reciprocal_div (by omega) hcover.1 hx
    have hhigh : x * ((2 ^ (shift + 1) * 2 ^ 31 + freq - 1) / freq) / 2 ^ 32 < 2 ^ 32 := by
      apply Nat.div_lt_of_lt_mul
      exact Nat.mul_lt_mul'' (lt_trans hx (by norm_num)) hword
    have hsplit : 2 ^ (shift + 1) * 2 ^ 31 = 2 ^ 32 * 2 ^ shift := by ring
    rw [hpow, Nat.mod_eq_of_lt hword, Nat.shiftRight_eq_div_pow, Nat.shiftRight_eq_div_pow,
      Nat.mod_eq_of_lt hhigh, Nat.add_sub_cancel, Nat.div_div_eq_div_mul, ← hsplit, hdiv]

/-- A symbol made for the slot has the quotient of the division, or one less for frequency 1,
which its bias makes good. -/
theorem ransEncSymbolInit_step (hb : scaleBits ≤ 16)
    (hs : Slot.Fits ⟨start, freq⟩ (2 ^ scaleBits)) {x : Nat} (hpos : 0 < x) (hx : x < 2 ^ 31) :
    x + (ransEncSymbolInit start freq scaleBits).bias +
        (ransEncSymbolInit start freq scaleBits).quotient x *
          (ransEncSymbolInit start freq scaleBits).cmplFreq =
      x / freq * 2 ^ scaleBits + x % freq + start := by
  have hfreq : 0 < freq := hs.pos
  have hle : freq ≤ 2 ^ scaleBits := le_trans (Nat.le_add_left _ _) hs.le
  have hscale : 2 ^ scaleBits ≤ 2 ^ 16 := Nat.pow_le_pow_right (by decide) hb
  have hcmpl : ((1 <<< scaleBits) - freq) % 2 ^ 16 = 2 ^ scaleBits - freq := by
    rw [Nat.one_shiftLeft]
    exact Nat.mod_eq_of_lt (by omega)
  obtain ⟨rest, hrest⟩ := Nat.exists_eq_add_of_le hle
  have hsub : 2 ^ scaleBits - freq = rest := by omega
  by_cases hone : freq < 2
  · have hfreq1 : freq = 1 := by omega
    obtain ⟨y, rfl⟩ := Nat.exists_eq_add_of_lt hpos
    have hquotient : RansEncSymbol.quotient
        ⟨((ransByteL >>> scaleBits) <<< 8) * freq % 2 ^ 32, 2 ^ 32 - 1,
          start + (1 <<< scaleBits) - 1, rest, 0⟩ (0 + y + 1) = y := by
      have hhigh : (0 + y + 1) * (2 ^ 32 - 1) / 2 ^ 32 = y :=
        Nat.div_eq_of_lt_le (by omega) (by omega)
      rw [RansEncSymbol.quotient, Nat.shiftRight_zero, Nat.shiftRight_eq_div_pow, hhigh]
      exact Nat.mod_eq_of_lt (by omega)
    have hbias : start + (1 + rest) - 1 = start + rest := by omega
    rw [ransEncSymbolInit, if_pos hone, hcmpl, hsub, hquotient]
    simp only
    rw [Nat.one_shiftLeft, hrest, hfreq1, hbias, Nat.div_one, Nat.mod_one]
    ring
  · have hquotient := reciprocal_quotient (by omega) (le_trans hle hscale) hx
    rw [ransEncSymbolInit, if_neg hone, hcmpl, hsub]
    simp only [RansEncSymbol.quotient, hquotient]
    have hdiv := Nat.div_add_mod x freq
    calc x + start + x / freq * rest
        = freq * (x / freq) + x % freq + start + x / freq * rest := by rw [hdiv]
      _ = x / freq * (freq + rest) + x % freq + start := by ring
      _ = x / freq * 2 ^ scaleBits + x % freq + start := by rw [hrest]

theorem ransEncPutSymbol_init (hb : scaleBits ≤ 16)
    (hs : Slot.Fits ⟨start, freq⟩ (2 ^ scaleBits)) (h : (byteCoder scaleBits).Normal state) :
    ransEncPutSymbol state (ransEncSymbolInit start freq scaleBits) =
      ransEncPut state start freq scaleBits := by
  have hrange := (normal_iff hb).mp h
  have hfreq : freq ≤ 2 ^ scaleBits := le_trans (Nat.le_add_left _ _) hs.le
  have hpos : 0 < 2 ^ (23 - scaleBits) * freq * 256 :=
    Nat.mul_pos (Nat.mul_pos (Nat.two_pow_pos _) hs.pos) (by decide)
  have hlow : 2 ^ (23 - scaleBits) * freq ≤ state.1 :=
    le_trans (Nat.mul_le_mul_left _ hfreq) h.1
  have hbytes : writeBytes (((ransByteL >>> scaleBits) <<< 8) * freq % 2 ^ 32) 4 state =
      (byteCoder scaleBits).spill (2 ^ (23 - scaleBits) * freq * 256) state := by
    rw [xMax_word hb hs, writeBytes_eq hpos 4 (lt_trans hrange.2 (by norm_num))]
  have hx : 0 < ((byteCoder scaleBits).spill (2 ^ (23 - scaleBits) * freq * 256) state).1 :=
    lt_of_lt_of_le (Nat.mul_pos (Nat.two_pow_pos _) hs.pos)
      (Coder.le_spill (c := byteCoder scaleBits) state hlow)
  have hx31 : ((byteCoder scaleBits).spill (2 ^ (23 - scaleBits) * freq * 256) state).1 <
      2 ^ 31 :=
    lt_of_le_of_lt (Coder.spill_le (c := byteCoder scaleBits) _ state) hrange.2
  have hxMax : (ransEncSymbolInit start freq scaleBits).xMax =
      ((ransByteL >>> scaleBits) <<< 8) * freq % 2 ^ 32 := by
    rw [ransEncSymbolInit]
    split <;> rfl
  rw [ransEncPutSymbol, ransEncPut, ransEncRenorm, hxMax, hbytes,
    ransEncSymbolInit_step hb hs hx hx31, Nat.shiftLeft_eq]

theorem ransDecGet_eq (x scaleBits : Nat) : ransDecGet x scaleBits = x % 2 ^ scaleBits := by
  rw [ransDecGet, Nat.one_shiftLeft, Nat.and_two_pow_sub_one_eq_mod]

theorem readBytes_eq (hb : scaleBits ≤ 16) (x : Nat) (bytes : List UInt8) :
    readBytes x bytes = (byteCoder scaleBits).refill x bytes := by
  induction bytes generalizing x with
  | nil => rfl
  | cons byte bytes ih =>
    rw [readBytes, Coder.refill, byteCoder_low hb]
    split
    · next hlow =>
      have hlow' : x < 2 ^ 23 := hlow
      have hbyte := byte.toNat_lt
      rw [← Nat.shiftLeft_add_eq_or_of_lt hbyte, Nat.shiftLeft_eq,
        Nat.mod_eq_of_lt (by omega), ih]
      rfl
    · rfl

theorem ransDecAdvance_eq (hb : scaleBits ≤ 16) (hs : Slot.Fits ⟨start, freq⟩ (2 ^ scaleBits))
    (h : state.1 < 2 ^ 31) (hslot : Slot.Contains ⟨start, freq⟩ (state.1 % 2 ^ scaleBits)) :
    ransDecAdvance state start freq scaleBits =
      (byteCoder scaleBits).pop ⟨start, freq⟩ state := by
  have hle : freq * (state.1 / 2 ^ scaleBits) + state.1 % 2 ^ scaleBits ≤ state.1 := by
    have hfreq : freq ≤ 2 ^ scaleBits := le_trans (Nat.le_add_left _ _) hs.le
    calc freq * (state.1 / 2 ^ scaleBits) + state.1 % 2 ^ scaleBits
        ≤ 2 ^ scaleBits * (state.1 / 2 ^ scaleBits) + state.1 % 2 ^ scaleBits :=
          Nat.add_le_add_right (Nat.mul_le_mul_right _ hfreq) _
      _ = state.1 := Nat.div_add_mod _ _
  have hstart : start ≤ state.1 % 2 ^ scaleBits := hslot.1
  have hget := ransDecGet_eq state.1 scaleBits
  rw [ransDecGet] at hget
  rw [ransDecAdvance, Coder.pop, hget, Nat.shiftRight_eq_div_pow, readBytes_eq hb]
  congr 1
  change _ = freq * (state.1 / 2 ^ scaleBits) + state.1 % 2 ^ scaleBits - start
  omega

theorem store_load (bytes : List UInt8) (h : 4 ≤ bytes.length) :
    cryptoStore32Le (UInt32.ofNat (cryptoLoad32Le bytes).toNat) = bytes.take 4 := by
  apply bytesValue_injective
  · rw [cryptoStore32Le_length, List.length_take, Nat.min_eq_left h]
  · rw [UInt32.ofNat_toNat, bytesValue_cryptoStore32Le, toNat_cryptoLoad32Le]

theorem load_store (x : UInt32) (out : List UInt8) :
    (cryptoLoad32Le (cryptoStore32Le x ++ out)).toNat = x.toNat := by
  rw [toNat_cryptoLoad32Le, List.take_left' (cryptoStore32Le_length x),
    bytesValue_cryptoStore32Le]

theorem ransDecInit_iff (hb : scaleBits ≤ 16) (bytes : List UInt8) (state : Nat × List UInt8) :
    ransDecInit bytes = some state ↔
      (byteCoder scaleBits).Normal state ∧ ransEncFlush state = bytes := by
  have hlow : ransByteL = 2 ^ 23 := rfl
  have hhigh : ransByteL <<< 8 = 2 ^ 31 := rfl
  rw [normal_iff hb, ransDecInit, hhigh, hlow]
  constructor
  · intro h
    split at h
    · cases h
    · next hlength =>
      simp only at h
      split at h
      · cases h
      · next hrange =>
        simp only [Option.some.injEq] at h
        cases h
        refine ⟨by omega, ?_⟩
        rw [ransEncFlush, store_load bytes (by omega), List.take_append_drop]
  · rintro ⟨hrange, rfl⟩
    have hword : (UInt32.ofNat state.1).toNat = state.1 :=
      UInt32.toNat_ofNat_of_lt' (lt_trans hrange.2 (by decide))
    have hlength : ¬ (ransEncFlush state).length < 4 := by
      rw [ransEncFlush, List.length_append, cryptoStore32Le_length]
      omega
    rw [if_neg hlength]
    simp only [ransEncFlush, load_store, hword]
    rw [if_neg (by omega), List.drop_left' (cryptoStore32Le_length _)]

end LiberaCrypt.HaetaeRans
