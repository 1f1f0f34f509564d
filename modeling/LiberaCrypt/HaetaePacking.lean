import LiberaCrypt.HaetaeEncodingCorrect

namespace LiberaCrypt.HaetaePacking

open LiberaCrypt.HaetaeEncoding LiberaCrypt.HaetaeEncodingCorrect

def cryptoHaetaeSeedBytes : Nat := 32

/-- The parts of a signature; a vector of polynomials is the list of all its coefficients. -/
structure SignatureParts where
  c : List Int32
  lowbitsZ1 : List Int32
  highbitsZ1 : List Int32
  h : List Int32

def bitsByte (f : Nat → Int32) : UInt8 :=
  (List.range 8).foldl
    (fun byte r => byte ||| ((f r &&& 1).toUInt32.toUInt8 <<< UInt8.ofNat r)) 0

def byteBit (byte : UInt8) (r : Nat) : Int32 := ((byte >>> UInt8.ofNat r) &&& 1).toUInt32.toInt32

def packChallenge (c : List Int32) : List UInt8 :=
  (List.range (cryptoHaetaeN / 8)).map fun j => bitsByte fun r => c.getD (8 * j + r) 0

def unpackChallenge (sig : List UInt8) : List Int32 :=
  (List.range cryptoHaetaeN).map fun i => byteBit (sig.getD (i / 8) 0) (i % 8)

def decomposedByte (v : Int32) : UInt8 := v.toUInt32.toUInt8

def decomposedValue (byte : UInt8) : Int32 :=
  let encoded : UInt32 := byte.toUInt32
  encoded.toInt32 - ((encoded >>> 7) <<< 8).toInt32

def cryptoHaetaePolyDecomposedPack (a : List Int32) : List UInt8 := a.map decomposedByte

def cryptoHaetaePolyDecomposedUnpack (buf : List UInt8) : List Int32 := buf.map decomposedValue

/-- The bytes of the signature buffer; `none` is the return of 1. -/
def cryptoHaetaePackSig (parts : SignatureParts) (parameters : CryptoHaetaeParameters) :
    Option (List UInt8) :=
  let sigSize := parameters.signatureBytes
  let encodeHbZ1Size := cryptoHaetaeN * parameters.l
  let offset := cryptoHaetaeN / 8 + encodeHbZ1Size
  if sigSize < cryptoHaetaeN / 8 then none
  else if sigSize < offset then none
  else
    match cryptoHaetaeEncodeHbZ1 parts.highbitsZ1 parameters,
        cryptoHaetaeEncodeH parts.h parameters with
    | some encodedHbZ1, some encodedH =>
      let sizeEncHbZ1 := encodedHbZ1.length
      let sizeEncH := encodedH.length
      if sizeEncH < parameters.baseEncodingHint ∨
          sizeEncHbZ1 < parameters.baseEncodingHighBitsZ1 ∨
          parameters.baseEncodingHint + 255 < sizeEncH ∨
          parameters.baseEncodingHighBitsZ1 + 255 < sizeEncHbZ1 then none
      else if sigSize < offset + 2 + sizeEncHbZ1 + sizeEncH then none
      else
        some (packChallenge parts.c ++ cryptoHaetaePolyDecomposedPack parts.lowbitsZ1 ++
          [UInt8.ofNat (sizeEncHbZ1 - parameters.baseEncodingHighBitsZ1),
            UInt8.ofNat (sizeEncH - parameters.baseEncodingHint)] ++
          encodedHbZ1 ++ encodedH ++
          -- what `memset` left behind the encodings
          List.replicate (sigSize - (offset + 2 + sizeEncHbZ1 + sizeEncH)) 0)
    | _, _ => none

/-- The parts of a signature of `signature_bytes` bytes; the vectors are what the caller passes
for the decoders to fill. -/
def cryptoHaetaeUnpackSig (highbitsZ1 h : List Int32) (sig : List UInt8)
    (parameters : CryptoHaetaeParameters) : Option SignatureParts :=
  let sigSize := parameters.signatureBytes
  let c := unpackChallenge sig
  let sig := sig.drop (cryptoHaetaeN / 8)
  let lowbitsZ1 := cryptoHaetaePolyDecomposedUnpack (sig.take (parameters.l * cryptoHaetaeN))
  let sig := sig.drop (parameters.l * cryptoHaetaeN)
  let sizeEncHbZ1 := (sig.getD 0 0).toNat + parameters.baseEncodingHighBitsZ1
  let sizeEncH := (sig.getD 1 0).toNat + parameters.baseEncodingHint
  if 2 ^ 16 - 1 < sizeEncHbZ1 ∨ 2 ^ 16 - 1 < sizeEncH then none
  else
    let sig := sig.drop 2
    let used := 2 + parameters.l * cryptoHaetaeN + cryptoHaetaeSeedBytes + sizeEncH + sizeEncHbZ1
    if sigSize < used then none
    else do
      let highbitsZ1 ← cryptoHaetaeDecodeHbZ1 highbitsZ1 (sig.take sizeEncHbZ1) parameters
      let sig := sig.drop sizeEncHbZ1
      let h ← cryptoHaetaeDecodeH h (sig.take sizeEncH) parameters
      let sig := sig.drop sizeEncH
      if (sig.take (sigSize - used)).all (· == 0) then
        some { c := c, lowbitsZ1 := lowbitsZ1, highbitsZ1 := highbitsZ1, h := h }
      else none

end LiberaCrypt.HaetaePacking

namespace LiberaCrypt.HaetaePackingCorrect

open LiberaCrypt.HaetaeEncoding LiberaCrypt.HaetaeEncodingCorrect LiberaCrypt.HaetaePacking

theorem bitsByte_congr {f g : Nat → Int32} (h : ∀ r < 8, f r = g r) : bitsByte f = bitsByte g := by
  apply List.foldl_ext
  intro byte r hr
  rw [h r (List.mem_range.mp hr)]

theorem bitsByte_byteBit (byte : UInt8) : bitsByte (byteBit byte) = byte := by
  have hall : ∀ n < 256, bitsByte (byteBit (UInt8.ofNat n)) = UInt8.ofNat n := by decide +kernel
  simpa using hall byte.toNat byte.toNat_lt

theorem byteBit_bool (byte : UInt8) {r : Nat} (hr : r < 8) :
    byteBit byte r = 0 ∨ byteBit byte r = 1 := by
  have hall : ∀ n < 256, ∀ r < 8,
      byteBit (UInt8.ofNat n) r = 0 ∨ byteBit (UInt8.ofNat n) r = 1 := by decide +kernel
  simpa using hall byte.toNat byte.toNat_lt r hr

def boolBits (bits : List Bool) (r : Nat) : Int32 := if bits.getD r false then 1 else 0

theorem byteBit_boolBits : ∀ x0 x1 x2 x3 x4 x5 x6 x7 : Bool, ∀ r < 8,
    byteBit (bitsByte (boolBits [x0, x1, x2, x3, x4, x5, x6, x7])) r =
      boolBits [x0, x1, x2, x3, x4, x5, x6, x7] r := by
  decide +kernel

theorem exists_byte {f : Nat → Int32} (h : ∀ r < 8, f r = 0 ∨ f r = 1) :
    ∃ byte, ∀ r < 8, f r = byteBit byte r := by
  have hbits (r : Nat) (hr : r < 8) : f r = boolBits [f 0 == 1, f 1 == 1, f 2 == 1, f 3 == 1,
      f 4 == 1, f 5 == 1, f 6 == 1, f 7 == 1] r := by
    have hbool : f r = if f r == 1 then 1 else 0 := by
      cases h r hr with
      | inl hzero => simp [hzero]
      | inr hone => simp [hone]
    rw [hbool]
    interval_cases r <;> rfl
  refine ⟨bitsByte (boolBits [f 0 == 1, f 1 == 1, f 2 == 1, f 3 == 1, f 4 == 1, f 5 == 1,
    f 6 == 1, f 7 == 1]), ?_⟩
  intro r hr
  rw [hbits r hr, byteBit_boolBits _ _ _ _ _ _ _ _ r hr]

theorem byteBit_bitsByte {f : Nat → Int32} (h : ∀ r < 8, f r = 0 ∨ f r = 1) {r : Nat}
    (hr : r < 8) : byteBit (bitsByte f) r = f r := by
  obtain ⟨byte, hbyte⟩ := exists_byte h
  rw [bitsByte_congr hbyte, bitsByte_byteBit, hbyte r hr]

theorem decomposedByte_value (byte : UInt8) : decomposedByte (decomposedValue byte) = byte := by
  have hall : ∀ n < 256, decomposedByte (decomposedValue (UInt8.ofNat n)) = UInt8.ofNat n := by
    decide +kernel
  simpa using hall byte.toNat byte.toNat_lt

theorem decomposedValue_range (byte : UInt8) :
    -128 ≤ (decomposedValue byte).toInt ∧ (decomposedValue byte).toInt < 128 := by
  have hall : ∀ n < 256, -128 ≤ (decomposedValue (UInt8.ofNat n)).toInt ∧
      (decomposedValue (UInt8.ofNat n)).toInt < 128 := by decide +kernel
  simpa using hall byte.toNat byte.toNat_lt

theorem decomposedValue_byte {v : Int32} (hlow : -128 ≤ v.toInt) (hhigh : v.toInt < 128) :
    decomposedValue (decomposedByte v) = v := by
  have hall : ∀ n < 256, decomposedValue (decomposedByte (Int32.ofInt ((n : Nat) - 128))) =
      Int32.ofInt ((n : Nat) - 128) := by decide +kernel
  have hv := hall (v.toInt + 128).toNat (by omega)
  have hcast : (((v.toInt + 128).toNat : Nat) : Int) - 128 = v.toInt := by omega
  rwa [hcast, Int32.ofInt_toInt] at hv

theorem packChallenge_unpack {sig : List UInt8} (h : cryptoHaetaeN / 8 ≤ sig.length) :
    packChallenge (unpackChallenge sig) = sig.take (cryptoHaetaeN / 8) := by
  apply List.ext_getElem
  · rw [packChallenge, List.length_map, List.length_range, List.length_take, Nat.min_eq_left h]
  · intro j hj hj'
    have hj32 : j < 32 := by
      rw [packChallenge, List.length_map, List.length_range] at hj
      exact hj
    have hbit (r : Nat) (hr : r < 8) :
        (unpackChallenge sig).getD (8 * j + r) 0 = byteBit (sig.getD j 0) r := by
      have hindex : 8 * j + r < cryptoHaetaeN := by
        change 8 * j + r < 256
        omega
      have hdiv : (8 * j + r) / 8 = j := by omega
      have hmod : (8 * j + r) % 8 = r := by omega
      rw [unpackChallenge, List.getD_eq_getElem?_getD, List.getElem?_map,
        List.getElem?_range hindex, Option.map_some, Option.getD_some, hdiv, hmod]
    have hlength : j < sig.length := by
      rw [List.length_take] at hj'
      omega
    simp only [packChallenge, List.getElem_map, List.getElem_range, List.getElem_take]
    rw [bitsByte_congr hbit, bitsByte_byteBit, List.getD_eq_getElem?_getD,
      List.getElem?_eq_getElem hlength, Option.getD_some]

theorem unpackChallenge_pack {c : List Int32} (hlength : c.length = cryptoHaetaeN)
    (hc : ∀ v ∈ c, v = 0 ∨ v = 1) (rest : List UInt8) :
    unpackChallenge (packChallenge c ++ rest) = c := by
  apply List.ext_getElem
  · rw [unpackChallenge, List.length_map, List.length_range, hlength]
  · intro i hi hi'
    have hi256 : i < 256 := by
      rw [hlength] at hi'
      exact hi'
    have hbool (r : Nat) : c.getD r 0 = 0 ∨ c.getD r 0 = 1 := by
      by_cases hr : r < c.length
      · rw [List.getD_eq_getElem?_getD, List.getElem?_eq_getElem hr]
        exact hc _ (List.getElem_mem hr)
      · rw [List.getD_eq_getElem?_getD, List.getElem?_eq_none (by omega)]
        exact Or.inl rfl
    have hbyte : (packChallenge c ++ rest).getD (i / 8) 0 =
        bitsByte fun r => c.getD (8 * (i / 8) + r) 0 := by
      have hindex : i / 8 < cryptoHaetaeN / 8 := by
        change i / 8 < 32
        omega
      rw [List.getD_eq_getElem?_getD, List.getElem?_append_left, packChallenge,
        List.getElem?_map, List.getElem?_range hindex]
      · rfl
      · rwa [packChallenge, List.length_map, List.length_range]
    simp only [unpackChallenge, List.getElem_map, List.getElem_range]
    rw [hbyte, byteBit_bitsByte (fun r _ => hbool _) (Nat.mod_lt i (by decide)), Nat.div_add_mod,
      List.getD_eq_getElem?_getD, List.getElem?_eq_getElem hi', Option.getD_some]

theorem decomposedPack_unpack (buf : List UInt8) :
    cryptoHaetaePolyDecomposedPack (cryptoHaetaePolyDecomposedUnpack buf) = buf := by
  rw [cryptoHaetaePolyDecomposedPack, cryptoHaetaePolyDecomposedUnpack, List.map_map]
  exact List.map_id'' decomposedByte_value buf

theorem decomposedUnpack_pack {a : List Int32} (h : ∀ v ∈ a, -128 ≤ v.toInt ∧ v.toInt < 128) :
    cryptoHaetaePolyDecomposedUnpack (cryptoHaetaePolyDecomposedPack a) = a := by
  rw [cryptoHaetaePolyDecomposedPack, cryptoHaetaePolyDecomposedUnpack, List.map_map]
  apply (List.map_congr_left fun v hv => ?_).trans (List.map_id a)
  exact decomposedValue_byte (h v hv).1 (h v hv).2

theorem packChallenge_length (c : List Int32) : (packChallenge c).length = cryptoHaetaeN / 8 := by
  rw [packChallenge, List.length_map, List.length_range]

theorem unpackChallenge_length (sig : List UInt8) :
    (unpackChallenge sig).length = cryptoHaetaeN := by
  rw [unpackChallenge, List.length_map, List.length_range]

theorem unpackChallenge_bit (sig : List UInt8) : ∀ v ∈ unpackChallenge sig, v = 0 ∨ v = 1 := by
  intro v hv
  obtain ⟨i, -, rfl⟩ := List.mem_map.mp hv
  exact byteBit_bool _ (Nat.mod_lt i (by decide))

/-- The parts that a signature can carry: bits, centred bytes and reduced hints. -/
structure Packable (parameters : CryptoHaetaeParameters) (parts : SignatureParts) : Prop where
  c_length : parts.c.length = cryptoHaetaeN
  c_bit : ∀ v ∈ parts.c, v = 0 ∨ v = 1
  low_length : parts.lowbitsZ1.length = cryptoHaetaeN * parameters.l
  low_range : ∀ v ∈ parts.lowbitsZ1, -128 ≤ v.toInt ∧ v.toInt < 128
  high_length : parts.highbitsZ1.length = cryptoHaetaeN * parameters.l
  h_length : parts.h.length = cryptoHaetaeN * parameters.k
  h_range : ∀ v ∈ parts.h,
    v.toUInt32.toNat < (cryptoHaetaeDoubleQ - 2) / parameters.alphaHint

variable {parameters : CryptoHaetaeParameters} {parts : SignatureParts}
  {highbitsZ1 h : List Int32} {sig : List UInt8}

theorem parameters_sizes (hp : parameters ∈ cryptoHaetaeParameterTable) :
    34 + cryptoHaetaeN * parameters.l ≤ parameters.signatureBytes ∧
      parameters.baseEncodingHint + 255 ≤ cryptoHaetaeN * parameters.k ∧
      parameters.baseEncodingHighBitsZ1 + 255 ≤ cryptoHaetaeN * parameters.l ∧
      cryptoHaetaeN * parameters.k < 2 ^ 16 ∧ cryptoHaetaeN * parameters.l < 2 ^ 16 := by
  simp only [cryptoHaetaeParameterTable, List.mem_cons, List.not_mem_nil, or_false] at hp
  rcases hp with rfl | rfl | rfl <;> decide

theorem unpack_layout (hp : parameters ∈ cryptoHaetaeParameterTable)
    {a low high hint pad : List UInt8} {x y : UInt8} (ha : a.length = cryptoHaetaeN / 8)
    (hlow : low.length = parameters.l * cryptoHaetaeN)
    (hhigh : high.length = x.toNat + parameters.baseEncodingHighBitsZ1)
    (hhint : hint.length = y.toNat + parameters.baseEncodingHint)
    (hpad : parameters.signatureBytes = 2 + parameters.l * cryptoHaetaeN +
      cryptoHaetaeSeedBytes + hint.length + high.length + pad.length) :
    cryptoHaetaeUnpackSig highbitsZ1 h (a ++ (low ++ (x :: y :: (high ++ (hint ++ pad)))))
        parameters =
      (do
        let z ← cryptoHaetaeDecodeHbZ1 highbitsZ1 high parameters
        let w ← cryptoHaetaeDecodeH h hint parameters
        if pad.all (· == 0) then
          some ⟨unpackChallenge (a ++ (low ++ (x :: y :: (high ++ (hint ++ pad))))),
            cryptoHaetaePolyDecomposedUnpack low, z, w⟩
        else none) := by
  obtain ⟨-, hk, hl, hk16, hl16⟩ := parameters_sizes hp
  have hx := x.toNat_lt
  have hy := y.toNat_lt
  have hrest : parameters.signatureBytes - (2 + parameters.l * cryptoHaetaeN +
      cryptoHaetaeSeedBytes + hint.length + high.length) = pad.length := by omega
  generalize hsig : a ++ (low ++ (x :: y :: (high ++ (hint ++ pad)))) = sig
  have hdrop : sig.drop (cryptoHaetaeN / 8) = low ++ (x :: y :: (high ++ (hint ++ pad))) := by
    rw [← hsig, List.drop_left' ha]
  rw [cryptoHaetaeUnpackSig]
  simp only [hdrop, List.take_left' hlow, List.drop_left' hlow, List.getD_cons_zero,
    List.getD_cons_succ, ← hhigh, ← hhint, List.drop_succ_cons, List.drop_zero,
    List.take_left' (rfl : high.length = high.length),
    List.drop_left' (rfl : high.length = high.length),
    List.take_left' (rfl : hint.length = hint.length),
    List.drop_left' (rfl : hint.length = hint.length), hrest,
    List.take_of_length_le (le_refl pad.length)]
  rw [if_neg (by omega), if_neg (by omega)]

theorem exists_cut {α : Type} {n : Nat} {list : List α} (h : n ≤ list.length) :
    ∃ front rest, list = front ++ rest ∧ front.length = n :=
  ⟨list.take n, list.drop n, (List.take_append_drop n list).symm,
    by rw [List.length_take, Nat.min_eq_left h]⟩

/-- A string that unpacks is cut at the sizes that its two size bytes give. -/
theorem exists_layout (hp : parameters ∈ cryptoHaetaeParameterTable)
    (hlength : sig.length = parameters.signatureBytes)
    (hsome : cryptoHaetaeUnpackSig highbitsZ1 h sig parameters = some parts) :
    ∃ (a low high hint pad : List UInt8) (x y : UInt8),
      sig = a ++ (low ++ (x :: y :: (high ++ (hint ++ pad)))) ∧ a.length = cryptoHaetaeN / 8 ∧
      low.length = parameters.l * cryptoHaetaeN ∧
      high.length = x.toNat + parameters.baseEncodingHighBitsZ1 ∧
      hint.length = y.toNat + parameters.baseEncodingHint ∧
      parameters.signatureBytes = 2 + parameters.l * cryptoHaetaeN + cryptoHaetaeSeedBytes +
        hint.length + high.length + pad.length := by
  have hsizes := (parameters_sizes hp).1
  have hseed : cryptoHaetaeN / 8 = cryptoHaetaeSeedBytes := rfl
  have hseed32 : cryptoHaetaeSeedBytes = 32 := rfl
  rw [Nat.mul_comm] at hsizes
  obtain ⟨a, rest, rfl, ha⟩ := @exists_cut UInt8 (cryptoHaetaeN / 8) sig (by omega)
  rw [List.length_append] at hlength
  obtain ⟨low, tail, rfl, hlow⟩ := @exists_cut UInt8 (parameters.l * cryptoHaetaeN) rest (by omega)
  rw [List.length_append] at hlength
  obtain ⟨sizes, body, rfl, htwo⟩ := @exists_cut UInt8 2 tail (by omega)
  obtain ⟨x, y, rfl⟩ := List.length_eq_two.mp htwo
  simp only [List.length_append, List.length_cons, List.length_nil] at hlength
  rw [cryptoHaetaeUnpackSig] at hsome
  simp only [List.drop_left' ha, List.drop_left' hlow, List.cons_append, List.nil_append,
    List.getD_cons_zero, List.getD_cons_succ] at hsome
  split at hsome
  · cases hsome
  · split at hsome
    · cases hsome
    · obtain ⟨high, tail, rfl, hhigh⟩ := @exists_cut UInt8
        (x.toNat + parameters.baseEncodingHighBitsZ1) body (by omega)
      rw [List.length_append] at hlength
      obtain ⟨hint, pad, rfl, hhint⟩ := @exists_cut UInt8
        (y.toNat + parameters.baseEncodingHint) tail (by omega)
      rw [List.length_append] at hlength
      exact ⟨a, low, high, hint, pad, x, y, rfl, ha, hlow, hhigh, hhint, by omega⟩

theorem eq_replicate_zero {pad : List UInt8} (h : pad.all (· == 0) = true) :
    pad = List.replicate pad.length 0 := by
  apply List.eq_replicate_iff.mpr
  refine ⟨rfl, ?_⟩
  intro byte hbyte
  simpa using List.all_eq_true.mp h byte hbyte

theorem ofNat_size (x : UInt8) (base : Nat) : UInt8.ofNat (x.toNat + base - base) = x := by
  rw [Nat.add_sub_cancel, UInt8.ofNat_toNat]

theorem pack_of_unpack (hp : parameters ∈ cryptoHaetaeParameterTable)
    (hlength : sig.length = parameters.signatureBytes)
    (hsome : cryptoHaetaeUnpackSig highbitsZ1 h sig parameters = some parts) :
    Packable parameters parts ∧ cryptoHaetaePackSig parts parameters = some sig := by
  obtain ⟨a, low, high, hint, pad, x, y, rfl, ha, hlow, hhigh, hhint, hpad⟩ :=
    exists_layout hp hlength hsome
  obtain ⟨hsizes, hk, hl, -, -⟩ := parameters_sizes hp
  have hx := x.toNat_lt
  have hy := y.toNat_lt
  rw [unpack_layout hp ha hlow hhigh hhint hpad] at hsome
  cases hz : cryptoHaetaeDecodeHbZ1 highbitsZ1 high parameters with
  | none => simp [hz] at hsome
  | some z =>
    cases hw : cryptoHaetaeDecodeH h hint parameters with
    | none => simp [hz, hw] at hsome
    | some w =>
      simp only [hz, hw, Option.bind_eq_bind, Option.bind_some, Option.ite_none_right_eq_some,
        Option.some.injEq] at hsome
      obtain ⟨hzero, rfl⟩ := hsome
      obtain ⟨hzlength, hzencode⟩ :=
        (cryptoHaetaeDecodeHbZ1_iff hp highbitsZ1 z high).mp ⟨hz, by omega⟩
      obtain ⟨hwlength, hwrange, hwencode⟩ :=
        (cryptoHaetaeDecodeH_iff hp h w hint).mp ⟨hw, by omega⟩
      refine ⟨⟨unpackChallenge_length _, unpackChallenge_bit _, ?_, ?_, hzlength, hwlength,
        hwrange⟩, ?_⟩
      · rw [cryptoHaetaePolyDecomposedUnpack, List.length_map, hlow, Nat.mul_comm]
      · intro v hv
        obtain ⟨byte, -, rfl⟩ := List.mem_map.mp hv
        exact decomposedValue_range byte
      · have hseed : cryptoHaetaeN / 8 = cryptoHaetaeSeedBytes := rfl
        have hseed32 : cryptoHaetaeSeedBytes = 32 := rfl
        have hcomm := Nat.mul_comm cryptoHaetaeN parameters.l
        have hrest : parameters.signatureBytes - (cryptoHaetaeN / 8 +
            cryptoHaetaeN * parameters.l + 2 + high.length + hint.length) = pad.length := by
          omega
        have htake := @packChallenge_unpack (a ++ (low ++ (x :: y :: (high ++ (hint ++ pad)))))
          (by rw [List.length_append]; omega)
        rw [cryptoHaetaePackSig]
        simp only [hzencode, hwencode, htake, List.take_left' ha, decomposedPack_unpack, hrest]
        rw [if_neg (by omega), if_neg (by omega), if_neg (by omega), if_neg (by omega), hhigh, hhint,
          ofNat_size, ofNat_size, ← eq_replicate_zero hzero]
        simp only [List.append_assoc, List.cons_append, List.nil_append]

theorem unpack_of_pack (hp : parameters ∈ cryptoHaetaeParameterTable)
    (hparts : Packable parameters parts) (hsome : cryptoHaetaePackSig parts parameters = some sig) :
    sig.length = parameters.signatureBytes ∧
      cryptoHaetaeUnpackSig highbitsZ1 h sig parameters = some parts := by
  rw [cryptoHaetaePackSig] at hsome
  simp only at hsome
  split at hsome
  · cases hsome
  split at hsome
  · cases hsome
  split at hsome
  · next high hint hhigh hhint =>
    split at hsome
    · cases hsome
    split at hsome
    · cases hsome
    · next hsizes hfits =>
      simp only [Option.some.injEq, List.append_assoc, List.cons_append, List.nil_append] at hsome
      have hseed : cryptoHaetaeN / 8 = cryptoHaetaeSeedBytes := rfl
      have hcomm := Nat.mul_comm cryptoHaetaeN parameters.l
      have hlow : (cryptoHaetaePolyDecomposedPack parts.lowbitsZ1).length =
          parameters.l * cryptoHaetaeN := by
        rw [cryptoHaetaePolyDecomposedPack, List.length_map, hparts.low_length, hcomm]
      have hx : (UInt8.ofNat (high.length - parameters.baseEncodingHighBitsZ1)).toNat =
          high.length - parameters.baseEncodingHighBitsZ1 := by
        rw [UInt8.toNat_ofNat']
        omega
      have hy : (UInt8.ofNat (hint.length - parameters.baseEncodingHint)).toNat =
          hint.length - parameters.baseEncodingHint := by
        rw [UInt8.toNat_ofNat']
        omega
      have hz := (cryptoHaetaeDecodeHbZ1_iff hp highbitsZ1 parts.highbitsZ1 high).mpr
        ⟨hparts.high_length, hhigh⟩
      have hw := (cryptoHaetaeDecodeH_iff hp h parts.h hint).mpr
        ⟨hparts.h_length, hparts.h_range, hhint⟩
      have hc := packChallenge_length parts.c
      have hunpack := @unpack_layout parameters highbitsZ1 h hp _ _ high hint
        (List.replicate (parameters.signatureBytes - (cryptoHaetaeN / 8 +
          cryptoHaetaeN * parameters.l + 2 + high.length + hint.length)) 0) _ _ hc hlow
        (by rw [hx]; omega) (by rw [hy]; omega) (by rw [List.length_replicate]; omega)
      have hzero (n : Nat) : (List.replicate n (0 : UInt8)).all (· == 0) = true := by simp
      rw [hz.1, hw.1, unpackChallenge_pack hparts.c_length hparts.c_bit,
        decomposedUnpack_pack hparts.low_range] at hunpack
      simp only [Option.bind_eq_bind, Option.bind_some, hzero, if_true] at hunpack
      rw [← hsome]
      refine ⟨?_, hunpack⟩
      simp only [List.length_append, List.length_cons, List.length_replicate, hc, hlow]
      omega
  · cases hsome

/-- A string is unpacked to some parts exactly when it is what these pack to: no signature has
a second encoding. -/
theorem haetae_signature_encoding (hp : parameters ∈ cryptoHaetaeParameterTable)
    (highbitsZ1 h : List Int32) (sig : List UInt8) (parts : SignatureParts) :
    sig.length = parameters.signatureBytes ∧
        cryptoHaetaeUnpackSig highbitsZ1 h sig parameters = some parts ↔
      Packable parameters parts ∧ cryptoHaetaePackSig parts parameters = some sig := by
  constructor
  · rintro ⟨hlength, hsome⟩
    exact pack_of_unpack hp hlength hsome
  · rintro ⟨hparts, hsome⟩
    exact unpack_of_pack hp hparts hsome

theorem haetae_signature_encoding_sample :
    ∃ sig : List UInt8, sig.length = 1474 ∧
      cryptoHaetaeUnpackSig [] [] sig ⟨992, 1408, 1474, 2, 2, 4, 1, 132, 7, 512, 9, 480⟩ =
        some ⟨List.replicate 256 1, List.replicate 1024 (-128), List.replicate 1024 1,
          List.replicate 512 251⟩ := by
  have hpacks : (cryptoHaetaePackSig ⟨List.replicate 256 1, List.replicate 1024 (-128),
      List.replicate 1024 1, List.replicate 512 251⟩
      ⟨992, 1408, 1474, 2, 2, 4, 1, 132, 7, 512, 9, 480⟩).isSome = true := by decide +kernel
  obtain ⟨sig, hsig⟩ := Option.isSome_iff_exists.mp hpacks
  have hparts : Packable ⟨992, 1408, 1474, 2, 2, 4, 1, 132, 7, 512, 9, 480⟩
      ⟨List.replicate 256 1, List.replicate 1024 (-128), List.replicate 1024 1,
        List.replicate 512 251⟩ := by
    constructor
    · exact List.length_replicate
    · intro v hv
      exact Or.inr (List.eq_of_mem_replicate hv)
    · exact List.length_replicate
    · intro v hv
      rw [List.eq_of_mem_replicate hv]
      decide
    · exact List.length_replicate
    · exact List.length_replicate
    · intro v hv
      rw [List.eq_of_mem_replicate hv]
      decide
  exact ⟨sig, (haetae_signature_encoding List.mem_cons_self [] [] sig _).mpr ⟨hparts, hsig⟩⟩

end LiberaCrypt.HaetaePackingCorrect
