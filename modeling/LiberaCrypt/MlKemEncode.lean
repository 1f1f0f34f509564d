import LiberaCrypt.Endian
import LiberaCrypt.MlKemNttRefine

namespace LiberaCrypt.MlKemEncode

open LiberaCrypt.CountedLoop LiberaCrypt.Radix LiberaCrypt.MlKemReduce LiberaCrypt.MlKemNtt
  LiberaCrypt.MlKemNttRefine

structure EncodeState where
  bitBuffer : UInt32
  bufferedBits : Nat
  output : List UInt8

def flushBytes (s : EncodeState) : EncodeState :=
  if 8 ≤ s.bufferedBits then
    flushBytes ⟨s.bitBuffer >>> 8, s.bufferedBits - 8, s.output ++ [s.bitBuffer.toUInt8]⟩
  else s
termination_by s.bufferedBits

def widthMask (bitWidth : Nat) : UInt32 := (1 <<< UInt32.ofNat bitWidth) - 1

def byteEncodeStep (input : Poly Int32) (bitWidth coefficient : Nat) (s : EncodeState) :
    EncodeState :=
  let value := (coeff input coefficient).toUInt32 &&& widthMask bitWidth
  flushBytes ⟨s.bitBuffer ||| (value <<< UInt32.ofNat s.bufferedBits),
    s.bufferedBits + bitWidth, s.output⟩

/-- `none` is the return value -1. -/
def byteEncode (input : Poly Int32) (bitWidth : Nat) : Option (List UInt8) :=
  if bitWidth < 1 ∨ 12 < bitWidth then none
  else some (countUp 256 (byteEncodeStep input bitWidth) ⟨0, 0, []⟩).output

structure DecodeState where
  bitBuffer : UInt32
  bufferedBits : Nat
  input : List UInt8
  output : Poly Int32

def fillBits (bitWidth : Nat) (s : DecodeState) : DecodeState :=
  if s.bufferedBits < bitWidth then
    fillBits bitWidth
      ⟨s.bitBuffer ||| ((s.input.headD 0).toUInt32 <<< UInt32.ofNat s.bufferedBits),
        s.bufferedBits + 8, s.input.tail, s.output⟩
  else s
termination_by bitWidth - s.bufferedBits

def mlkemPowerOfTwo (exponent : Nat) : Int32 := ((1 : UInt32) <<< UInt32.ofNat exponent).toInt32

def decodeModulus (bitWidth : Nat) : UInt32 :=
  if bitWidth = 12 then mlkemQ else (mlkemPowerOfTwo bitWidth).toUInt32

def byteDecodeStep (bitWidth coefficient : Nat) (s : DecodeState) : DecodeState :=
  let s := fillBits bitWidth s
  let value := s.bitBuffer &&& widthMask bitWidth
  ⟨s.bitBuffer >>> UInt32.ofNat bitWidth, s.bufferedBits - bitWidth, s.input,
    store s.output coefficient (value % decodeModulus bitWidth).toInt32⟩

def byteDecode (input : List UInt8) (bitWidth : Nat) (output : Poly Int32) :
    Option (Poly Int32) :=
  if bitWidth < 1 ∨ 12 < bitWidth then none
  else some (countUp 256 (byteDecodeStep bitWidth) ⟨0, 0, input, output⟩).output

theorem shiftRight_toNat (x : UInt32) {n : Nat} (hn : n < 32) :
    (x >>> UInt32.ofNat n).toNat = x.toNat / 2 ^ n := by
  rw [UInt32.toNat_shiftRight, UInt32.toNat_ofNat', Nat.mod_eq_of_lt (show n < 2 ^ 32 by omega),
    Nat.mod_eq_of_lt hn, Nat.shiftRight_eq_div_pow]

theorem shiftLeft_toNat (x : UInt32) {n : Nat} (hn : n < 32) (hx : x.toNat * 2 ^ n < 2 ^ 32) :
    (x <<< UInt32.ofNat n).toNat = x.toNat * 2 ^ n := by
  rw [UInt32.toNat_shiftLeft, UInt32.toNat_ofNat', Nat.mod_eq_of_lt (show n < 2 ^ 32 by omega),
    Nat.mod_eq_of_lt hn, Nat.shiftLeft_eq, Nat.mod_eq_of_lt hx]

theorem append_toNat {x y : UInt32} {n : Nat} (hn : n < 32) (hx : x.toNat < 2 ^ n)
    (hy : y.toNat * 2 ^ n < 2 ^ 32) :
    (x ||| (y <<< UInt32.ofNat n)).toNat = x.toNat + 2 ^ n * y.toNat := by
  rw [UInt32.toNat_or, shiftLeft_toNat y hn hy, Nat.or_comm, ← Nat.shiftLeft_eq,
    ← Nat.shiftLeft_add_eq_or_of_lt hx, Nat.shiftLeft_eq]
  ring

theorem widthMask_toNat {d : Nat} (hd : d ≤ 12) : (widthMask d).toNat = 2 ^ d - 1 := by
  interval_cases d <;> rfl

theorem masked_toNat (x : UInt32) {d : Nat} (hd : d ≤ 12) :
    (x &&& widthMask d).toNat = x.toNat % 2 ^ d := by
  rw [UInt32.toNat_and, widthMask_toNat hd, Nat.and_two_pow_sub_one_eq_mod]

def EncodeState.value (s : EncodeState) : Nat :=
  bytesValue s.output + 256 ^ s.output.length * s.bitBuffer.toNat

theorem flushBytes_spec (s : EncodeState) (hs : s.bitBuffer.toNat < 2 ^ s.bufferedBits) :
    (flushBytes s).value = s.value ∧
      (flushBytes s).bitBuffer.toNat < 2 ^ (flushBytes s).bufferedBits ∧
      (flushBytes s).bufferedBits < 8 ∧
      8 * (flushBytes s).output.length + (flushBytes s).bufferedBits =
        8 * s.output.length + s.bufferedBits := by
  fun_induction flushBytes s with
  | case1 s h ih =>
    have hshift : (s.bitBuffer >>> 8).toNat = s.bitBuffer.toNat / 256 :=
      shiftRight_toNat s.bitBuffer (n := 8) (by norm_num)
    have hbyte : s.bitBuffer.toUInt8.toNat = s.bitBuffer.toNat % 256 := UInt32.toNat_toUInt8 _
    obtain ⟨hv, hb, h8, hl⟩ := ih (by
      rw [hshift, Nat.div_lt_iff_lt_mul (by norm_num)]
      calc s.bitBuffer.toNat < 2 ^ s.bufferedBits := hs
        _ = 2 ^ (s.bufferedBits - 8) * 256 := by
          rw [show (256 : Nat) = 2 ^ 8 by norm_num, ← pow_add, Nat.sub_add_cancel h])
    refine ⟨?_, hb, h8, ?_⟩
    · have hdiv := Nat.mod_add_div s.bitBuffer.toNat 256
      rw [hv]
      simp only [EncodeState.value, bytesValue_append, bytesValue_singleton, List.length_append,
        List.length_singleton, pow_succ, hshift, hbyte]
      rw [Nat.add_assoc, Nat.mul_assoc, ← Nat.mul_add, hdiv]
    · simp only [hl, List.length_append, List.length_singleton]
      omega
  | case2 s h => exact ⟨rfl, hs, Nat.lt_of_not_le h, rfl⟩

/-- What the encoder has stored after `n` coefficients. -/
structure EncodeInv (d : Nat) (v : Nat → Nat) (n : Nat) (s : EncodeState) : Prop where
  value : s.value = radix (2 ^ d) n v
  buffer : s.bitBuffer.toNat < 2 ^ s.bufferedBits
  bits : s.bufferedBits < 8
  length : 8 * s.output.length + s.bufferedBits = d * n

/-- The low `d` bits of a coefficient. -/
def lowBits (d : Nat) (f : Poly Int32) (i : Nat) : Nat := word (coeff f i) % 2 ^ d

theorem pow_lt_word {n : Nat} (hn : n < 32) : 2 ^ n < 2 ^ 32 :=
  Nat.pow_lt_pow_right (by norm_num) hn

theorem byteEncodeStep_spec (f : Poly Int32) {d n : Nat} (hd : d ≤ 12) {s : EncodeState}
    (h : EncodeInv d (lowBits d f) n s) :
    EncodeInv d (lowBits d f) (n + 1) (byteEncodeStep f d n s) := by
  have hvalue := masked_toNat (coeff f n).toUInt32 hd
  have hlow : ((coeff f n).toUInt32 &&& widthMask d).toNat < 2 ^ d := by
    rw [hvalue]
    exact Nat.mod_lt _ (by positivity)
  have hbits := h.bits
  have hfit : ((coeff f n).toUInt32 &&& widthMask d).toNat * 2 ^ s.bufferedBits <
      2 ^ (d + s.bufferedBits) := by
    rw [pow_add]
    exact Nat.mul_lt_mul_of_pos_right hlow (by positivity)
  have happend := append_toNat (show s.bufferedBits < 32 by omega) h.buffer
    (hfit.trans (pow_lt_word (by omega)))
  have hbuffer : (s.bitBuffer ||| (((coeff f n).toUInt32 &&& widthMask d) <<<
      UInt32.ofNat s.bufferedBits)).toNat < 2 ^ (s.bufferedBits + d) := by
    have hle : 2 ^ s.bufferedBits * (((coeff f n).toUInt32 &&& widthMask d).toNat + 1) ≤
        2 ^ s.bufferedBits * 2 ^ d := Nat.mul_le_mul_left _ hlow
    have hb := h.buffer
    rw [happend, pow_add]
    rw [Nat.mul_succ] at hle
    omega
  obtain ⟨hv, hb, h8, hl⟩ := flushBytes_spec ⟨_, s.bufferedBits + d, s.output⟩ hbuffer
  refine ⟨?_, hb, h8, ?_⟩
  · have hpow : 256 ^ s.output.length * 2 ^ s.bufferedBits = (2 ^ d) ^ n := by
      rw [← pow_mul, ← h.length, pow_add, pow_mul]
      norm_num
    have hold := h.value
    simp only [EncodeState.value] at hold
    rw [byteEncodeStep, hv, radix_succ, ← hold, EncodeState.value, happend, hvalue, ← hpow]
    simp only [lowBits, word]
    ring
  · have hlen := h.length
    rw [byteEncodeStep, hl]
    simp only [Nat.mul_succ]
    omega

/-- `ByteEncode` stores the `32 * d` bytes of the number whose digits to base `2^d`
are the low bits of the coefficients. -/
theorem byteEncode_spec (f : Poly Int32) {d : Nat} (h1 : 1 ≤ d) (h12 : d ≤ 12) :
    ∃ bytes, byteEncode f d = some bytes ∧ bytes.length = 32 * d ∧
      bytesValue bytes = radix (2 ^ d) 256 (lowBits d f) := by
  have hrun := countUp_invariant (n := 256) (f := byteEncodeStep f d)
    (EncodeInv d (lowBits d f)) (s := ⟨0, 0, []⟩) ⟨rfl, by simp, by norm_num, by simp⟩
    fun n _ s hs => byteEncodeStep_spec f h12 hs
  have hlen := hrun.length
  have h8 := hrun.bits
  have hbuffer := hrun.buffer
  have hzero : (countUp 256 (byteEncodeStep f d) ⟨0, 0, []⟩).bufferedBits = 0 := by omega
  rw [hzero, pow_zero, Nat.lt_one_iff] at hbuffer
  refine ⟨_, if_neg (by omega), by omega, ?_⟩
  have hv := hrun.value
  rwa [EncodeState.value, hbuffer, Nat.mul_zero, Nat.add_zero] at hv

/-- The buffer holds the bits of `bytes` that follow the first `d * n` of them. -/
structure DecodeInv (d : Nat) (bytes : List UInt8) (n : Nat) (s : DecodeState) : Prop where
  position : ∃ c, s.input = bytes.drop c ∧ 8 * c = d * n + s.bufferedBits
  buffer : s.bitBuffer.toNat = bytesValue bytes / 2 ^ (d * n) % 2 ^ s.bufferedBits

theorem pow_byte (c : Nat) : 256 ^ c = 2 ^ (8 * c) := by
  rw [pow_mul]
  norm_num

theorem fillBits_spec {d n : Nat} (hd : d ≤ 12) (hn : n < 256) {bytes : List UInt8}
    (hlen : 32 * d ≤ bytes.length) (s : DecodeState) (hbits : s.bufferedBits < d + 8)
    (h : DecodeInv d bytes n s) :
    DecodeInv d bytes n (fillBits d s) ∧ d ≤ (fillBits d s).bufferedBits ∧
      (fillBits d s).bufferedBits < d + 8 ∧ (fillBits d s).output = s.output := by
  fun_induction fillBits d s with
  | case1 s hlt ih =>
    obtain ⟨c, hc, hpos⟩ := h.position
    have hdn : d * n + d ≤ d * 256 := by
      rw [← Nat.mul_succ]
      exact Nat.mul_le_mul_left d hn
    have hcl : c < bytes.length := by omega
    have hhead : s.input.headD 0 = bytes[c] := by
      rw [hc, List.drop_eq_getElem_cons hcl, List.headD_cons]
    have hbyte : (s.input.headD 0).toUInt32.toNat =
        bytesValue bytes / 2 ^ (d * n) / 2 ^ s.bufferedBits % 256 := by
      rw [hhead, UInt8.toNat_toUInt32, ← bytesValue_byte hcl, Nat.div_div_eq_div_mul, ← pow_add,
        pow_byte, hpos]
    have hsmall : s.bitBuffer.toNat < 2 ^ s.bufferedBits := by
      rw [h.buffer]
      exact Nat.mod_lt _ (by positivity)
    have hfit : (s.input.headD 0).toUInt32.toNat * 2 ^ s.bufferedBits < 2 ^ 32 := by
      calc (s.input.headD 0).toUInt32.toNat * 2 ^ s.bufferedBits
          < 2 ^ 8 * 2 ^ s.bufferedBits :=
            Nat.mul_lt_mul_of_pos_right (UInt8.toNat_lt _) (by positivity)
        _ = 2 ^ (8 + s.bufferedBits) := (pow_add 2 8 _).symm
        _ ≤ 2 ^ 32 := Nat.pow_le_pow_right (by norm_num) (by omega)
    obtain ⟨hinv, hge, hle, hout⟩ := ih (by simp only; omega) ⟨⟨c + 1, by
        simp only [hc, List.tail_drop], by simp only; omega⟩, by
      simp only
      rw [append_toNat (by omega) hsmall hfit, hbyte, h.buffer, pow_add, Nat.mod_mul]
      norm_num⟩
    exact ⟨hinv, hge, hle, hout⟩
  | case2 s hge => exact ⟨h, Nat.le_of_not_lt hge, hbits, rfl⟩

/-- The `d` bits at the position of coefficient `i`. -/
def rawBits (d : Nat) (bytes : List UInt8) (i : Nat) : Nat :=
  bytesValue bytes / (2 ^ d) ^ i % 2 ^ d

theorem rawBits_lt (d : Nat) (bytes : List UInt8) (i : Nat) : rawBits d bytes i < 2 ^ d :=
  Nat.mod_lt _ (by positivity)

theorem byteDecodeStep_spec {d n : Nat} (hd : d ≤ 12) (hn : n < 256) {bytes : List UInt8}
    (hlen : 32 * d ≤ bytes.length) (s : DecodeState) (hbits : s.bufferedBits < 8)
    (h : DecodeInv d bytes n s) :
    DecodeInv d bytes (n + 1) (byteDecodeStep d n s) ∧
      (byteDecodeStep d n s).bufferedBits < 8 ∧
      ∃ value : UInt32, value.toNat = rawBits d bytes n ∧
        (byteDecodeStep d n s).output =
          store s.output n (value % decodeModulus d).toInt32 := by
  obtain ⟨hinv, hge, hle, hout⟩ := fillBits_spec hd hn hlen s (by omega) h
  obtain ⟨c, hc, hpos⟩ := hinv.position
  refine ⟨⟨⟨c, hc, ?_⟩, ?_⟩, ?_, (fillBits d s).bitBuffer &&& widthMask d, ?_, ?_⟩
  · simp only [byteDecodeStep, Nat.mul_succ]
    omega
  · simp only [byteDecodeStep]
    obtain ⟨e, he⟩ := Nat.exists_eq_add_of_le hge
    rw [shiftRight_toNat _ (by omega), hinv.buffer, he, Nat.add_sub_cancel_left, pow_add,
      Nat.mod_mul_right_div_self, Nat.div_div_eq_div_mul, ← pow_add, Nat.mul_succ]
  · simp only [byteDecodeStep]
    omega
  · rw [masked_toNat _ hd, hinv.buffer, Nat.mod_mod_of_dvd _ (pow_dvd_pow 2 hge), rawBits, pow_mul]
  · simp only [byteDecodeStep, hout]

theorem decodeModulus_toNat {d : Nat} (hd : d ≤ 12) :
    (decodeModulus d).toNat = if d = 12 then 3329 else 2 ^ d := by
  interval_cases d <;> rfl

/-- `ByteDecode` reduces the digits to base `2^d` of the number its bytes encode. -/
theorem byteDecode_spec {d : Nat} (h1 : 1 ≤ d) (h12 : d ≤ 12) {bytes : List UInt8}
    (hlen : 32 * d ≤ bytes.length) (output : Poly Int32) :
    ∃ f, byteDecode bytes d output = some f ∧
      ∀ i < 256, word (coeff f i) = rawBits d bytes i % (decodeModulus d).toNat := by
  have hrun := countUp_invariant (n := 256) (f := byteDecodeStep d)
    (fun n s => n ≤ 256 → DecodeInv d bytes n s ∧ s.bufferedBits < 8 ∧
      ∀ i < n, word (coeff s.output i) = rawBits d bytes i % (decodeModulus d).toNat)
    (s := ⟨0, 0, bytes, output⟩)
    (fun _ => ⟨⟨⟨0, rfl, by simp⟩, by simp [Nat.mod_one]⟩, by simp, by simp⟩) ?_
  · exact ⟨_, if_neg (by omega), (hrun le_rfl).2.2⟩
  · intro n hn s hs _
    obtain ⟨hinv, hbits, hdone⟩ := hs (by omega)
    obtain ⟨hinv', hbits', value, hvalue, hout⟩ := byteDecodeStep_spec h12 hn hlen s hbits hinv
    refine ⟨hinv', hbits', fun i hi => ?_⟩
    rw [hout, coeff_store _ hn (by omega)]
    by_cases hin : i = n
    · rw [if_pos hin, word_toInt32, UInt32.toNat_mod, hvalue, hin]
    · rw [if_neg hin]
      exact hdone i (by omega)

/-- A coefficient that the width `d` can carry: a residue for `d = 12`, `d` bits else. -/
def Fits (d : Nat) (f : Poly Int32) : Prop := ∀ i < 256, word (coeff f i) < (decodeModulus d).toNat

theorem decodeModulus_le {d : Nat} (hd : d ≤ 12) : (decodeModulus d).toNat ≤ 2 ^ d := by
  rw [decodeModulus_toNat hd]
  split
  · next h =>
    subst h
    norm_num
  · exact le_rfl

theorem lowBits_of_fits {d : Nat} (hd : d ≤ 12) {f : Poly Int32} (hf : Fits d f) {i : Nat}
    (hi : i < 256) : lowBits d f i = word (coeff f i) :=
  Nat.mod_eq_of_lt ((hf i hi).trans_le (decodeModulus_le hd))

theorem lowBits_lt (d : Nat) (f : Poly Int32) (i : Nat) : lowBits d f i < 2 ^ d :=
  Nat.mod_lt _ (by positivity)

theorem rawBits_encode {d : Nat} {f : Poly Int32} {bytes : List UInt8}
    (h : bytesValue bytes = radix (2 ^ d) 256 (lowBits d f)) {i : Nat} (hi : i < 256) :
    rawBits d bytes i = lowBits d f i := by
  rw [rawBits, h]
  exact radix_digit (fun i _ => lowBits_lt d f i) hi

theorem byteDecode_byteEncode {d : Nat} (h1 : 1 ≤ d) (h12 : d ≤ 12) {f : Poly Int32}
    (hf : Fits d f) (output : Poly Int32) :
    ∃ bytes, byteEncode f d = some bytes ∧ bytes.length = 32 * d ∧
      byteDecode bytes d output = some f := by
  obtain ⟨bytes, hencode, hlen, hvalue⟩ := byteEncode_spec f h1 h12
  obtain ⟨g, hdecode, hg⟩ := byteDecode_spec h1 h12 hlen.ge output
  refine ⟨bytes, hencode, hlen, ?_⟩
  rw [hdecode, Option.some_inj]
  refine poly_ext fun i hi => word_injective ?_
  rw [hg i hi, rawBits_encode hvalue hi, lowBits_of_fits h12 hf hi, Nat.mod_eq_of_lt (hf i hi)]

theorem byteEncode_byteDecode {d : Nat} (h1 : 1 ≤ d) (h12 : d < 12) {bytes : List UInt8}
    (hlen : bytes.length = 32 * d) (output : Poly Int32) :
    ∃ f, byteDecode bytes d output = some f ∧ Fits d f ∧ byteEncode f d = some bytes := by
  obtain ⟨f, hdecode, hf⟩ := byteDecode_spec h1 h12.le hlen.ge output
  obtain ⟨out, hencode, hout, hvalue⟩ := byteEncode_spec f h1 h12.le
  have hm : (decodeModulus d).toNat = 2 ^ d := by
    rw [decodeModulus_toNat h12.le, if_neg h12.ne]
  refine ⟨f, hdecode, fun i hi => ?_, ?_⟩
  · rw [hf i hi]
    exact Nat.mod_lt _ (by rw [hm]; positivity)
  · rw [hencode, Option.some_inj]
    refine bytesValue_injective (hout.trans hlen.symm) ?_
    have hlt : bytesValue bytes < (2 ^ d) ^ 256 := by
      have h := bytesValue_lt bytes
      rwa [hlen, pow_byte, show 8 * (32 * d) = d * 256 by ring, pow_mul] at h
    rw [hvalue, ← Nat.mod_eq_of_lt hlt, ← radix_of_digits]
    refine radix_congr fun i hi => ?_
    rw [lowBits, hf i hi, hm, Nat.mod_mod, Nat.mod_eq_of_lt (rawBits_lt d bytes i), rawBits]

end LiberaCrypt.MlKemEncode
