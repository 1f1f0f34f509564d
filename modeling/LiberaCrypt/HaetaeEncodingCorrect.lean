import LiberaCrypt.HaetaeEncoding

namespace LiberaCrypt.HaetaeEncodingCorrect

open LiberaCrypt.HaetaeEncoding LiberaCrypt.HaetaeRans LiberaCrypt.Rans

/-- Tables of the three kinds that come from one list of frequencies. -/
structure Tables (freqs : List Nat) (esyms : List RansEncSymbol) (dsyms : List RansDecSymbol)
    (symbols : List Nat) : Prop where
  pos : ∀ f ∈ freqs, 0 < f
  sum : freqs.sum = 2 ^ scaleBits
  dsyms_eq : dsyms = (slotsFrom 0 freqs).map fun s => ⟨s.start, s.freq⟩
  esyms_eq : esyms = dsyms.map fun d => ransEncSymbolInit d.start d.freq scaleBits
  symbols_eq : symbols = symbolsFrom 0 freqs

theorem scaleBits_le : scaleBits ≤ 16 := by decide

theorem init_normal : (byteCoder scaleBits).Normal (ransEncInit, []) :=
  (normal_iff scaleBits_le).mpr ⟨le_rfl, by decide⟩

variable {freqs : List Nat} {esyms : List RansEncSymbol} {dsyms : List RansDecSymbol}
  {symbols : List Nat}

namespace Tables

def alphabet (t : Tables freqs esyms dsyms symbols) :
    Alphabet Nat (byteCoder scaleBits).scale :=
  Alphabet.ofFreqs freqs (2 ^ scaleBits) t.pos t.sum

variable (t : Tables freqs esyms dsyms symbols)

theorem slot_eq {a : Nat} (ha : a < freqs.length) :
    (slotsFrom 0 freqs)[a]? = some (t.alphabet.slot a) := by
  have hlength : a < (slotsFrom 0 freqs).length := by rwa [slotsFrom_length]
  change _ = some ((slotsFrom 0 freqs).getD a ⟨0, 0⟩)
  rw [List.getD_eq_getElem?_getD, List.getElem?_eq_getElem hlength, Option.getD_some]

theorem dsym_eq {a : Nat} (ha : a < freqs.length) :
    dsyms.getD a default = ⟨(t.alphabet.slot a).start, (t.alphabet.slot a).freq⟩ := by
  have hslot := t.slot_eq ha
  generalize t.alphabet.slot a = s at hslot ⊢
  rw [t.dsyms_eq, List.getD_eq_getElem?_getD, List.getElem?_map, hslot]
  rfl

theorem esym_eq {a : Nat} (ha : a < freqs.length) :
    esyms.getD a default =
      ransEncSymbolInit (t.alphabet.slot a).start (t.alphabet.slot a).freq scaleBits := by
  have hslot := t.slot_eq ha
  generalize t.alphabet.slot a = s at hslot ⊢
  rw [t.esyms_eq, t.dsyms_eq, List.getD_eq_getElem?_getD, List.getElem?_map, List.getElem?_map,
    hslot]
  rfl

theorem find_eq (x : Nat) :
    symbols.getD (ransDecGet x scaleBits) 0 = t.alphabet.find (x % 2 ^ scaleBits) := by
  have hfind : t.alphabet.find (x % 2 ^ scaleBits) =
      (symbolsFrom 0 freqs).getD (x % 2 ^ scaleBits) 0 := rfl
  rw [ransDecGet_eq, hfind, t.symbols_eq]

include t in
theorem put_plain {a : Nat} (ha : a < freqs.length) {state : Nat × List UInt8}
    (h : (byteCoder scaleBits).Normal state) :
    ransEncPutSymbol state (esyms.getD a default) =
      ransEncPut state (dsyms.getD a default).start (dsyms.getD a default).freq scaleBits := by
  have hfits : (t.alphabet.slot a).Fits (2 ^ scaleBits) := t.alphabet.fits a ha
  rw [t.esym_eq ha, t.dsym_eq ha]
  generalize t.alphabet.slot a = s at hfits ⊢
  exact ransEncPutSymbol_init scaleBits_le hfits h

theorem put_eq {a : Nat} (ha : a < freqs.length) {state : Nat × List UInt8}
    (h : (byteCoder scaleBits).Normal state) :
    ransEncPutSymbol state (esyms.getD a default) =
      (byteCoder scaleBits).push (t.alphabet.slot a) state := by
  have hfits : (t.alphabet.slot a).Fits (2 ^ scaleBits) := t.alphabet.fits a ha
  rw [t.put_plain ha h, t.dsym_eq ha]
  generalize t.alphabet.slot a = s at hfits ⊢
  exact ransEncPut_eq scaleBits_le hfits ((normal_iff scaleBits_le).mp h).2

theorem advance_eq {state : Nat × List UInt8} (h : state.1 < 2 ^ 31) :
    ransDecAdvanceSymbol state
        (dsyms.getD (t.alphabet.find (state.1 % 2 ^ scaleBits)) default) scaleBits =
      (byteCoder scaleBits).pop (t.alphabet.slot (t.alphabet.find (state.1 % 2 ^ scaleBits)))
        state := by
  have hr : state.1 % 2 ^ scaleBits < 2 ^ scaleBits := Nat.mod_lt _ (Nat.two_pow_pos _)
  have hvalid := t.alphabet.valid_find _ hr
  rw [t.dsym_eq hvalid]
  exact ransDecAdvance_eq scaleBits_le (t.alphabet.fits _ hvalid) h
    (t.alphabet.contains_find _ hr)

end Tables

section Vectors

variable (t : Tables freqs esyms dsyms symbols) {symbol : Int32 → Option Nat}
  {value : Nat → Int32} {size : Nat}

theorem encode_length (m : Alphabet Nat (byteCoder scaleBits).scale) (a : Nat) (as : List Nat)
    (state : Nat × List UInt8) :
    (Coder.encode m as state).2.length ≤ (Coder.encode m (a :: as) state).2.length :=
  Coder.le_spill_length _ _

theorem encodeCoefficients_eq (hvalue : ∀ a < freqs.length, symbol (value a) = some a)
    {as : List Nat} (has : ∀ a ∈ as, a < freqs.length) :
    encodeCoefficients symbol esyms size (as.map value) =
      if as = [] ∨ (Coder.encode t.alphabet as (ransEncInit, [])).2.length + 4 ≤ size then
        some (Coder.encode t.alphabet as (ransEncInit, [])) else none := by
  induction as with
  | nil => rfl
  | cons a as ih =>
    have ha := has a List.mem_cons_self
    have hrest : ∀ b ∈ as, b < freqs.length := fun b hb => has b (List.mem_cons_of_mem a hb)
    have hnormal := Coder.encode_normal t.alphabet hrest init_normal
    have hlength := encode_length t.alphabet a as (ransEncInit, [])
    have hput : ransEncPutSymbol (Coder.encode t.alphabet as (ransEncInit, []))
        (esyms.getD a default) = Coder.encode t.alphabet (a :: as) (ransEncInit, []) :=
      t.put_eq ha hnormal
    rw [List.map_cons, encodeCoefficients, ih hrest, hvalue a ha]
    by_cases hfit : (Coder.encode t.alphabet (a :: as) (ransEncInit, [])).2.length + 4 ≤ size
    · rw [if_pos (Or.inr (by omega)), if_pos (Or.inr hfit)]
      simp only [Option.bind_eq_bind, Option.bind_some, hput]
      rw [if_neg (by omega)]
    · have hnone : ¬ (a :: as = [] ∨
          (Coder.encode t.alphabet (a :: as) (ransEncInit, [])).2.length + 4 ≤ size) := by
        simp [hfit]
      rw [if_neg hnone]
      split
      · simp only [Option.bind_eq_bind, Option.bind_some, hput]
        rw [if_pos (by omega)]
      · rfl

theorem encodeCoefficients_symbol {values : List Int32} {state : Nat × List UInt8}
    (h : encodeCoefficients symbol esyms size values = some state) :
    ∀ v ∈ values, ∃ s, symbol v = some s := by
  induction values generalizing state with
  | nil => simp
  | cons v values ih =>
    rw [encodeCoefficients] at h
    cases hrest : encodeCoefficients symbol esyms size values with
    | none => simp [hrest] at h
    | some rest =>
      cases hsymbol : symbol v with
      | none => simp [hrest, hsymbol] at h
      | some s =>
        intro u hu
        cases hu with
        | head => exact ⟨s, hsymbol⟩
        | tail _ hmem => exact ih hrest u hmem

theorem decodeCoefficients_eq (n : Nat) {state : Nat × List UInt8} (h : state.1 < 2 ^ 31) :
    decodeCoefficients value freqs.length dsyms symbols n state =
      some ((Coder.decode t.alphabet n state).1.map value,
        (Coder.decode t.alphabet n state).2) := by
  induction n generalizing state with
  | zero => rfl
  | succ n ih =>
    have hvalid : t.alphabet.find (state.1 % 2 ^ scaleBits) < freqs.length :=
      t.alphabet.valid_find _ (Nat.mod_lt state.1 (Nat.two_pow_pos scaleBits))
    have htop : (byteCoder scaleBits).radix * (byteCoder scaleBits).low = 2 ^ 31 := by decide
    have hnext := @Coder.pop_lt UInt8 (byteCoder scaleBits) _ (t.alphabet.fits _ hvalid) state
      (lt_of_lt_of_eq h htop.symm)
    rw [decodeCoefficients, t.find_eq, if_neg (Nat.not_le.mpr hvalid), t.advance_eq h,
      ih (lt_of_lt_of_eq hnext htop)]
    rfl

theorem exists_symbols {n : Nat} {values : List Int32}
    (h : ∀ v ∈ values, ∃ a < n, v = value a) :
    ∃ as : List Nat, values = as.map value ∧ ∀ a ∈ as, a < n := by
  induction values with
  | nil => exact ⟨[], rfl, by simp⟩
  | cons v values ih =>
    obtain ⟨a, ha, rfl⟩ := h v List.mem_cons_self
    obtain ⟨as, rfl, has⟩ := ih fun u hu => h u (List.mem_cons_of_mem _ hu)
    refine ⟨a :: as, rfl, ?_⟩
    intro b hb
    cases hb with
    | head => exact ha
    | tail _ hmem => exact has b hmem

theorem decodeVector_eq_some {buf : List UInt8} {values : List Int32}
    (h : decodeVector value freqs.length dsyms symbols size buf = some values) :
    ∃ as : List Nat, as.length = size ∧ (∀ a ∈ as, a < freqs.length) ∧ values = as.map value ∧
      ransEncFlush (Coder.encode t.alphabet as (ransEncInit, [])) = buf := by
  rw [decodeVector] at h
  cases hinit : ransDecInit buf with
  | none => simp [hinit] at h
  | some state =>
    obtain ⟨hnormal, hflush⟩ := (ransDecInit_iff scaleBits_le buf state).mp hinit
    have hrun := @decodeCoefficients_eq freqs esyms dsyms symbols t value size state
      ((normal_iff scaleBits_le).mp hnormal).2
    simp only [hinit, hrun, Option.bind_eq_bind, Option.bind_some, Bool.and_eq_true,
      ransDecVerify, beq_iff_eq, List.isEmpty_iff, Option.ite_none_right_eq_some,
      Option.some.injEq] at h
    obtain ⟨⟨hhead, hstream⟩, hvalues⟩ := h
    have hlast : (Coder.decode t.alphabet size state).2 = (ransEncInit, []) :=
      Prod.ext hhead hstream
    have hscale : 0 < (byteCoder scaleBits).scale := Nat.two_pow_pos _
    have hencode := Coder.encode_decode t.alphabet hscale size hnormal
      (by rw [hhead, byteCoder_low scaleBits_le])
    rw [hlast] at hencode
    exact ⟨_, Coder.decode_length t.alphabet size state,
      Coder.decode_valid t.alphabet hscale size state, hvalues.symm, by rw [hencode, hflush]⟩

theorem decodeVector_encode {as : List Nat} (has : ∀ a ∈ as, a < freqs.length) :
    decodeVector value freqs.length dsyms symbols as.length
        (ransEncFlush (Coder.encode t.alphabet as (ransEncInit, []))) =
      some (as.map value) := by
  have hnormal := Coder.encode_normal t.alphabet has init_normal
  have hinit := (ransDecInit_iff scaleBits_le _ _).mpr ⟨hnormal, rfl⟩
  have hrun := @decodeCoefficients_eq freqs esyms dsyms symbols t value as.length _
    ((normal_iff scaleBits_le).mp hnormal).2
  rw [Coder.decode_encode t.alphabet has init_normal] at hrun
  rw [decodeVector, hinit]
  simp only [hrun, Option.bind_eq_bind, Option.bind_some]
  rfl

include t in
/-- The decoder accepts the encodings of the vectors of its size, and no other strings. -/
theorem decodeVector_iff (hvalue : ∀ a < freqs.length, symbol (value a) = some a)
    (hsize : 0 < size) (buf : List UInt8) (values : List Int32) :
    decodeVector value freqs.length dsyms symbols size buf = some values ∧ buf.length ≤ size ↔
      values.length = size ∧ (∀ v ∈ values, ∃ a < freqs.length, v = value a) ∧
        encodeVector symbol esyms size values = some buf := by
  have hlength (state : Nat × List UInt8) :
      (ransEncFlush state).length = state.2.length + 4 := by
    rw [ransEncFlush, List.length_append, LittleEndian.cryptoStore32Le_length, Nat.add_comm]
  constructor
  · rintro ⟨hdecode, hfit⟩
    obtain ⟨as, rfl, has, rfl, rfl⟩ := decodeVector_eq_some t hdecode
    refine ⟨List.length_map value, ?_, ?_⟩
    · intro v hv
      obtain ⟨a, ha, rfl⟩ := List.mem_map.mp hv
      exact ⟨a, has a ha, rfl⟩
    · rw [hlength] at hfit
      rw [encodeVector, encodeCoefficients_eq t hvalue has, if_pos (Or.inr hfit)]
      rfl
  · rintro ⟨rfl, hrange, hencode⟩
    obtain ⟨as, rfl, has⟩ : ∃ as : List Nat, values = as.map value ∧
        ∀ a ∈ as, a < freqs.length := exists_symbols hrange
    have hne : as ≠ [] := by
      rintro rfl
      exact absurd hsize (Nat.lt_irrefl 0)
    rw [encodeVector, encodeCoefficients_eq t hvalue has] at hencode
    simp only [hne, false_or] at hencode
    split at hencode
    · next hfit =>
      cases hencode
      rw [hlength, List.length_map]
      rw [List.length_map] at hfit
      exact ⟨decodeVector_encode t has, hfit⟩
    · cases hencode

end Vectors

structure Sound (parameters : CryptoHaetaeParameters) (table : CryptoHaetaeRansTable) : Prop where
  hints : Tables (table.dsymsH.map RansDecSymbol.freq) table.esymsH table.dsymsH table.symbolH
  highBits : Tables (table.dsymsHbZ1.map RansDecSymbol.freq) table.esymsHbZ1 table.dsymsHbZ1
    table.symbolHbZ1
  mH_eq : (table.dsymsH.map RansDecSymbol.freq).length = table.mH
  mHbZ1_eq : (table.dsymsHbZ1.map RansDecSymbol.freq).length = table.mHbZ1
  hintRange : table.mH + table.offsetH = (cryptoHaetaeDoubleQ - 2) / parameters.alphaHint
  small : hCut table < table.mH ∧ table.mH ≤ 2 ^ 8 ∧ table.offsetH < 2 ^ 16 ∧
    table.mHbZ1 ≤ 2 ^ 8 ∧ table.offsetHbZ1 < 2 ^ 8

theorem setRansTables_sound {parameters : CryptoHaetaeParameters}
    (h : parameters ∈ cryptoHaetaeParameterTable) :
    ∃ table, setRansTables parameters = some table ∧ Sound parameters table := by
  simp only [cryptoHaetaeParameterTable, List.mem_cons, List.not_mem_nil, or_false] at h
  rcases h with rfl | rfl | rfl <;>
    refine ⟨_, rfl, ⟨?_, ?_, ?_, ?_, ?_⟩, ⟨?_, ?_, ?_, ?_, ?_⟩, ?_, ?_, ?_, ?_⟩ <;>
      decide +kernel

section Symbols

variable {parameters : CryptoHaetaeParameters} {table : CryptoHaetaeRansTable}

theorem toNat_int32 {x : Nat} (h : x < 2 ^ 32) : (UInt32.ofNat x).toInt32.toUInt32.toNat = x :=
  UInt32.toNat_ofNat_of_lt' h

theorem hintSymbol_value (hs : Sound parameters table) {a : Nat} (ha : a < table.mH) :
    hintSymbol table (hintValue table a) = some a := by
  obtain ⟨hcut, hm, hoffset, -, -⟩ := hs.small
  rw [hintSymbol, hintValue]
  by_cases hhigh : hCut table < a
  · rw [if_pos hhigh, toNat_int32 (by omega)]
    simp only
    rw [if_neg (by omega), if_pos (by omega), Nat.add_sub_cancel, Nat.mod_eq_of_lt (by omega)]
  · rw [if_neg hhigh, toNat_int32 (by omega)]
    simp only
    rw [if_neg (by omega), if_neg (by omega), Nat.mod_eq_of_lt (by omega)]

theorem hintValue_range (hs : Sound parameters table) {a : Nat} (ha : a < table.mH) :
    (hintValue table a).toUInt32.toNat < table.mH + table.offsetH := by
  obtain ⟨hcut, hm, hoffset, -, -⟩ := hs.small
  rw [hintValue]
  split
  · rw [toNat_int32 (by omega)]
    omega
  · rw [toNat_int32 (by omega)]
    omega

/-- A hint of the range that has a symbol is the value of one. -/
theorem hintSymbol_eq_some (hs : Sound parameters table) {h : Int32} {s : Nat}
    (hrange : h.toUInt32.toNat < table.mH + table.offsetH) (hsymbol : hintSymbol table h = some s) :
    ∃ a < table.mH, h = hintValue table a := by
  obtain ⟨hcut, hm, hoffset, -, -⟩ := hs.small
  have hback (x : Nat) (hx : h.toUInt32.toNat = x) : h = (UInt32.ofNat x).toInt32 := by
    rw [← hx, UInt32.ofNat_toNat]
    rfl
  rw [hintSymbol] at hsymbol
  simp only at hsymbol
  split at hsymbol
  · cases hsymbol
  · next hgap =>
    by_cases hhigh : hCut table + table.offsetH < h.toUInt32.toNat
    · refine ⟨h.toUInt32.toNat - table.offsetH, by omega, hback _ ?_⟩
      rw [if_pos (by omega)]
      omega
    · refine ⟨h.toUInt32.toNat, by omega, hback _ ?_⟩
      rw [if_neg (by omega)]

theorem not_neg_of_small {x : UInt32} (h : x.toNat < 2 ^ 31) : ¬ x.toInt32 < 0 := by
  have hpos : x.toInt32.toInt = x.toNat :=
    BitVec.toInt_eq_toNat_of_lt (by change 2 * x.toNat < 2 ^ 32; omega)
  rw [Int32.lt_iff_toInt_lt, hpos]
  simp

theorem highBitsSymbol_value (hs : Sound parameters table) {a : Nat} (ha : a < table.mHbZ1) :
    highBitsSymbol table (highBitsValue table a) = some a := by
  obtain ⟨-, -, -, hm, -⟩ := hs.small
  have ha32 : (UInt32.ofNat a).toNat = a := UInt32.toNat_ofNat_of_lt' (by rw [UInt32.size]; omega)
  rw [highBitsSymbol, highBitsValue, UInt32.toUInt32_toInt32, UInt32.sub_add_cancel]
  simp only [UInt32.toUInt32_toInt32, ha32]
  rw [if_neg, Nat.mod_eq_of_lt (by omega)]
  intro hbad
  cases hbad with
  | inl hneg => exact not_neg_of_small (by rw [ha32]; omega) hneg
  | inr hle => omega

theorem highBitsSymbol_eq_some {z : Int32} {s : Nat} (hsymbol : highBitsSymbol table z = some s) :
    ∃ a < table.mHbZ1, z = highBitsValue table a := by
  rw [highBitsSymbol] at hsymbol
  simp only [UInt32.toUInt32_toInt32] at hsymbol
  split at hsymbol
  · cases hsymbol
  · next hgood =>
    refine ⟨(z.toUInt32 + UInt32.ofNat table.offsetHbZ1).toNat, by omega, ?_⟩
    rw [highBitsValue, UInt32.ofNat_toNat, UInt32.add_sub_cancel]
    rfl

end Symbols

/-- A string is accepted as the encoding of a hint vector exactly when the encoder makes it of
that vector, coefficients reduced. -/
theorem cryptoHaetaeDecodeH_iff {parameters : CryptoHaetaeParameters}
    (hp : parameters ∈ cryptoHaetaeParameterTable) (old h : List Int32) (buf : List UInt8) :
    cryptoHaetaeDecodeH old buf parameters = some h ∧
        buf.length ≤ cryptoHaetaeN * parameters.k ↔
      h.length = cryptoHaetaeN * parameters.k ∧
        (∀ v ∈ h, v.toUInt32.toNat < (cryptoHaetaeDoubleQ - 2) / parameters.alphaHint) ∧
        cryptoHaetaeEncodeH h parameters = some buf := by
  obtain ⟨table, htable, hs⟩ := setRansTables_sound hp
  have hsize : 0 < cryptoHaetaeN * parameters.k := by
    simp only [cryptoHaetaeParameterTable, List.mem_cons, List.not_mem_nil, or_false] at hp
    rcases hp with rfl | rfl | rfl <;> decide
  have hiff := decodeVector_iff hs.hints (fun a ha => hintSymbol_value hs (hs.mH_eq ▸ ha)) hsize
    buf h
  rw [hs.mH_eq] at hiff
  rw [cryptoHaetaeDecodeH, cryptoHaetaeEncodeH, htable, ← hs.hintRange]
  simp only [Option.bind_eq_bind, Option.bind_some]
  rw [hiff]
  constructor
  · rintro ⟨hlength, hvalues, hencode⟩
    refine ⟨hlength, ?_, hencode⟩
    intro v hv
    obtain ⟨a, ha, rfl⟩ := hvalues v hv
    exact hintValue_range hs ha
  · rintro ⟨hlength, hrange, hencode⟩
    refine ⟨hlength, ?_, hencode⟩
    intro v hv
    obtain ⟨state, hstate, -⟩ := Option.map_eq_some_iff.mp hencode
    obtain ⟨s, hsymbol⟩ := encodeCoefficients_symbol hstate v hv
    exact hintSymbol_eq_some hs (hrange v hv) hsymbol

theorem cryptoHaetaeDecodeHbZ1_iff {parameters : CryptoHaetaeParameters}
    (hp : parameters ∈ cryptoHaetaeParameterTable) (old hbZ1 : List Int32) (buf : List UInt8) :
    cryptoHaetaeDecodeHbZ1 old buf parameters = some hbZ1 ∧
        buf.length ≤ cryptoHaetaeN * parameters.l ↔
      hbZ1.length = cryptoHaetaeN * parameters.l ∧
        cryptoHaetaeEncodeHbZ1 hbZ1 parameters = some buf := by
  obtain ⟨table, htable, hs⟩ := setRansTables_sound hp
  have hsize : 0 < cryptoHaetaeN * parameters.l := by
    simp only [cryptoHaetaeParameterTable, List.mem_cons, List.not_mem_nil, or_false] at hp
    rcases hp with rfl | rfl | rfl <;> decide
  have hiff := decodeVector_iff hs.highBits
    (fun a ha => highBitsSymbol_value hs (hs.mHbZ1_eq ▸ ha)) hsize buf hbZ1
  rw [hs.mHbZ1_eq] at hiff
  rw [cryptoHaetaeDecodeHbZ1, cryptoHaetaeEncodeHbZ1, htable]
  simp only [Option.bind_eq_bind, Option.bind_some]
  rw [hiff]
  constructor
  · rintro ⟨hlength, -, hencode⟩
    exact ⟨hlength, hencode⟩
  · rintro ⟨hlength, hencode⟩
    refine ⟨hlength, ?_, hencode⟩
    intro v hv
    obtain ⟨state, hstate, -⟩ := Option.map_eq_some_iff.mp hencode
    obtain ⟨s, hsymbol⟩ := encodeCoefficients_symbol hstate v hv
    exact highBitsSymbol_eq_some hsymbol

/-- Both decoders accept what their encoder writes for a vector of their size, hints reduced,
and no other string. -/
theorem haetae_vector_encodings {parameters : CryptoHaetaeParameters}
    (hp : parameters ∈ cryptoHaetaeParameterTable) (old : List Int32) (buf : List UInt8) :
    (∀ h : List Int32,
      cryptoHaetaeDecodeH old buf parameters = some h ∧
          buf.length ≤ cryptoHaetaeN * parameters.k ↔
        h.length = cryptoHaetaeN * parameters.k ∧
          (∀ v ∈ h, v.toUInt32.toNat < (cryptoHaetaeDoubleQ - 2) / parameters.alphaHint) ∧
          cryptoHaetaeEncodeH h parameters = some buf) ∧
    ∀ hbZ1 : List Int32,
      cryptoHaetaeDecodeHbZ1 old buf parameters = some hbZ1 ∧
          buf.length ≤ cryptoHaetaeN * parameters.l ↔
        hbZ1.length = cryptoHaetaeN * parameters.l ∧
          cryptoHaetaeEncodeHbZ1 hbZ1 parameters = some buf :=
  ⟨fun h => cryptoHaetaeDecodeH_iff hp old h buf,
    fun hbZ1 => cryptoHaetaeDecodeHbZ1_iff hp old hbZ1 buf⟩

theorem haetae_vector_encodings_sample :
    ∃ buf, cryptoHaetaeDecodeH [] buf ⟨992, 1408, 1474, 2, 2, 4, 1, 132, 7, 512, 9, 480⟩ =
      some (List.replicate 512 251) := by
  have hencodes : (cryptoHaetaeEncodeH (List.replicate 512 251)
      ⟨992, 1408, 1474, 2, 2, 4, 1, 132, 7, 512, 9, 480⟩).isSome = true := by decide +kernel
  obtain ⟨buf, hbuf⟩ := Option.isSome_iff_exists.mp hencodes
  have hrange : ∀ v ∈ List.replicate 512 (251 : Int32),
      v.toUInt32.toNat < (cryptoHaetaeDoubleQ - 2) / 512 := by
    intro v hv
    rw [List.eq_of_mem_replicate hv]
    decide
  exact ⟨buf, (((haetae_vector_encodings List.mem_cons_self [] buf).1 _).mpr
    ⟨List.length_replicate, hrange, hbuf⟩).1⟩

/-- The symbols of the encoder tables put what the division by the frequency of the decoder
tables puts, in every state of the coder. -/
theorem haetae_put_symbol_plain {parameters : CryptoHaetaeParameters}
    {table : CryptoHaetaeRansTable} (hp : parameters ∈ cryptoHaetaeParameterTable)
    (htable : setRansTables parameters = some table) {state : Nat × List UInt8}
    (hlow : 2 ^ 23 ≤ state.1) (hhigh : state.1 < 2 ^ 31) :
    (∀ s < table.mH, ransEncPutSymbol state (table.esymsH.getD s default) =
      ransEncPut state (table.dsymsH.getD s default).start (table.dsymsH.getD s default).freq
        scaleBits) ∧
    ∀ s < table.mHbZ1, ransEncPutSymbol state (table.esymsHbZ1.getD s default) =
      ransEncPut state (table.dsymsHbZ1.getD s default).start
        (table.dsymsHbZ1.getD s default).freq scaleBits := by
  obtain ⟨found, hfound, hs⟩ := setRansTables_sound hp
  cases htable.symm.trans hfound
  have hnormal := (normal_iff scaleBits_le).mpr ⟨hlow, hhigh⟩
  constructor
  · intro s hlt
    rw [← hs.mH_eq] at hlt
    exact hs.hints.put_plain hlt hnormal
  · intro s hlt
    rw [← hs.mHbZ1_eq] at hlt
    exact hs.highBits.put_plain hlt hnormal

theorem haetae_put_symbol_plain_sample :
    ransEncPutSymbol (2 ^ 31 - 1, []) (esymsHMode5.getD 32 default) =
      ransEncPut (2 ^ 31 - 1, []) (dsymsHMode5.getD 32 default).start
        (dsymsHMode5.getD 32 default).freq scaleBits :=
  (@haetae_put_symbol_plain ⟨2080, 2752, 2948, 5, 4, 7, 0, 501, 358, 256, 8, 512⟩
    kHAETAETablesMode5 (by decide) rfl (2 ^ 31 - 1, []) (by decide) (by decide)).1 32 (by decide)

end LiberaCrypt.HaetaeEncodingCorrect
