import LiberaCrypt.AesAead
import LiberaCrypt.Endian

namespace LiberaCrypt.CcmFormatting

open LiberaCrypt.AesAead LiberaCrypt.BigEndian LiberaCrypt.Endian

section Blocks

def paddedBlocks (data : List UInt8) : List (List UInt8) :=
  if _h : 16 ≤ data.length then data.take 16 :: paddedBlocks (data.drop 16)
  else if data.length ≠ 0 then [zeroPadded data]
  else []
termination_by data.length
decreasing_by
  rw [List.length_drop]
  omega

def padding (length : Nat) : List UInt8 := List.replicate ((16 - length % 16) % 16) 0

theorem paddedBlocks_nil : paddedBlocks [] = [] := by
  rw [paddedBlocks]
  rfl

theorem paddedBlocks_flatten (data : List UInt8) :
    (paddedBlocks data).flatten = data ++ padding data.length := by
  induction data using paddedBlocks.induct with
  | case1 data h ih =>
    have hpad : padding (data.length - 16) = padding data.length := by
      rw [padding, padding, ← Nat.mod_eq_sub_mod h]
    rw [paddedBlocks, dif_pos h, List.flatten_cons, ih, List.length_drop, hpad, ← List.append_assoc,
      List.take_append_drop]
  | case2 data h hne =>
    have hcount : (16 - data.length % 16) % 16 = 16 - data.length := by omega
    rw [paddedBlocks, dif_neg h, if_pos hne, List.flatten_singleton, zeroPadded, padding, hcount]
  | case3 data h hempty =>
    have hnil : data = [] := List.length_eq_zero_iff.mp (not_not.mp hempty)
    subst hnil
    rw [paddedBlocks_nil]
    rfl

variable (encryptBlock : BlockFunction)

theorem ccmMacBytes_eq (state data : List UInt8) :
    ccmMacBytes encryptBlock state data =
      (paddedBlocks data).foldlM (ccmMacBlock encryptBlock) state := by
  induction data using paddedBlocks.induct generalizing state with
  | case1 data h ih =>
    rw [ccmMacBytes, dif_pos h, paddedBlocks, dif_pos h, List.foldlM_cons]
    cases ccmMacBlock encryptBlock state (data.take 16) with
    | error e => rfl
    | ok state => exact ih state
  | case2 data h hne =>
    rw [ccmMacBytes, dif_neg h, if_pos hne, paddedBlocks, dif_neg h, if_pos hne, List.foldlM_cons]
    cases ccmMacBlock encryptBlock state (zeroPadded data) <;> rfl
  | case3 data h hempty =>
    rw [ccmMacBytes, dif_neg h, if_neg hempty, paddedBlocks, dif_neg h, if_neg hempty]
    rfl

theorem aadPrefix_length_le (n : Nat) : (aadPrefix n).length ≤ 10 := by
  unfold aadPrefix
  split_ifs
  · rw [bigEndian_length]
    decide
  · rw [cryptoStore32Be_eq, List.length_append, bigEndian_length]
    decide
  · rw [cryptoStore64Be_eq, List.length_append, bigEndian_length]
    decide

def aadBlocks (aad : List UInt8) : List (List UInt8) :=
  if aad.length = 0 then [] else paddedBlocks (aadPrefix aad.length ++ aad)

theorem ccmMacAad_eq (state aad : List UInt8) :
    ccmMacAad encryptBlock state aad =
      (aadBlocks aad).foldlM (ccmMacBlock encryptBlock) state := by
  unfold ccmMacAad aadBlocks
  by_cases hempty : aad.length = 0
  · rw [if_pos hempty, if_pos hempty]
    rfl
  rw [if_neg hempty, if_neg hempty]
  dsimp only
  have hheader := aadPrefix_length_le aad.length
  generalize aadPrefix aad.length = header at hheader ⊢
  by_cases hshort : 16 - header.length > aad.length
  · -- the header and all the data fit in one block
    have hsmall : ¬ 16 ≤ (header ++ aad).length := by
      rw [List.length_append]
      omega
    have hne : (header ++ aad).length ≠ 0 := by
      rw [List.length_append]
      omega
    rw [if_pos hshort, List.take_length, List.drop_length, paddedBlocks, dif_neg hsmall, if_pos hne,
      List.foldlM_cons]
    cases ccmMacBlock encryptBlock state (zeroPadded (header ++ aad)) with
    | error e => rfl
    | ok state =>
      dsimp only
      rw [ccmMacBytes_eq, paddedBlocks_nil]
      rfl
  · have hlarge : 16 ≤ (header ++ aad).length := by
      rw [List.length_append]
      omega
    have htake : zeroPadded (header ++ aad.take (16 - header.length)) = (header ++ aad).take 16 := by
      rw [List.take_append, List.take_of_length_le (by omega : header.length ≤ 16), zeroPadded,
        List.length_append, List.length_take]
      have hfull : 16 - (header.length + min (16 - header.length) aad.length) = 0 := by omega
      rw [hfull, List.replicate_zero, List.append_nil]
    have hdrop : aad.drop (16 - header.length) = (header ++ aad).drop 16 := by
      rw [List.drop_append, List.drop_eq_nil_of_le (by omega : header.length ≤ 16), List.nil_append]
    rw [if_neg hshort, htake, hdrop, paddedBlocks, dif_pos hlarge, List.foldlM_cons]
    cases ccmMacBlock encryptBlock state ((header ++ aad).take 16) with
    | error e => rfl
    | ok state => exact ccmMacBytes_eq encryptBlock state _

end Blocks

section Format

structure Message where
  nonce : List UInt8
  aad : List UInt8
  payload : List UInt8

def ccmBlocks (tagLength : Nat) (m : Message) : List (List UInt8) :=
  ccmFirstBlock m.nonce m.aad.length m.payload.length tagLength ::
    (aadBlocks m.aad ++ paddedBlocks m.payload)

theorem ccmComputeMac_eq (encryptBlock : BlockFunction) (tagLength : Nat) (m : Message) :
    ccmComputeMac encryptBlock m.nonce m.aad m.payload tagLength =
      (ccmBlocks tagLength m).foldlM (ccmMacBlock encryptBlock) zeroBlock := by
  rw [ccmBlocks, List.foldlM_cons, ccmComputeMac]
  congr 1
  funext mac
  rw [List.foldlM_append, ccmMacAad_eq]
  congr 1
  funext mac
  exact ccmMacBytes_eq encryptBlock mac m.payload

end Format

section Injective

/-- A length is below `256 ^ q` when the check accepts it, or when it is a `size_t` and `q` is 8. -/
theorem lt_of_ccmLengthFits {q length : Nat} (hfits : ccmLengthFits q length)
    (hsize : length < 2 ^ 64) : length < 256 ^ q := by
  have hpow : 2 ^ (8 * q) = 256 ^ q := by
    rw [pow_mul]
    norm_num
  have hpos : 0 < 256 ^ q := by positivity
  unfold ccmLengthFits at hfits
  by_cases hq : q ≥ 8
  · have hle : 256 ^ 8 ≤ 256 ^ q := Nat.pow_le_pow_right (by decide) hq
    omega
  · rw [if_neg hq, decide_eq_true_eq] at hfits
    omega

theorem append_prefix_append {a b s t : List UInt8} (hlength : a.length = b.length)
    (h : a ++ s <+: b ++ t) : a = b ∧ s <+: t := by
  obtain ⟨rest, hrest⟩ := h
  rw [List.append_assoc] at hrest
  obtain ⟨hhead, htail⟩ := List.append_inj hrest hlength
  exact ⟨hhead, rest, htail⟩

theorem flatten_begins {a b : List (List UInt8)} (h : a <+: b) : a.flatten <+: b.flatten := by
  obtain ⟨rest, rfl⟩ := h
  rw [List.flatten_append]
  exact List.prefix_append _ _

def aadForm (n : Nat) : Nat := if n < 0xff00 then n else if n ≤ 2 ^ 32 - 1 then 0xfffe else 0xffff

def aadLengthBytes (n : Nat) : List UInt8 :=
  if n < 0xff00 then [] else if n ≤ 2 ^ 32 - 1 then bigEndian 4 n else bigEndian 8 n

theorem aadPrefix_eq {n : Nat} (hn : n < 2 ^ 64) :
    aadPrefix n = bigEndian 2 (aadForm n) ++ aadLengthBytes n := by
  unfold aadPrefix aadForm aadLengthBytes
  split_ifs with hshort hmedium
  · exact (List.append_nil _).symm
  · rw [cryptoStore32Be_eq, UInt32.toNat_ofNat', Nat.mod_eq_of_lt (by omega)]
    rfl
  · rw [cryptoStore64Be_eq, UInt64.toNat_ofNat', Nat.mod_eq_of_lt hn]
    rfl

theorem aadForm_lt (n : Nat) : aadForm n < 256 ^ 2 := by
  unfold aadForm
  split_ifs <;> omega

theorem aadPrefix_prefix_free {m n : Nat} (hm : m < 2 ^ 64) (hn : n < 2 ^ 64) {s t : List UInt8}
    (h : aadPrefix m ++ s <+: aadPrefix n ++ t) : m = n := by
  rw [aadPrefix_eq hm, aadPrefix_eq hn, List.append_assoc, List.append_assoc] at h
  obtain ⟨hforms, hrest⟩ := append_prefix_append (by simp) h
  have hform := bigEndian_inj_of_lt (aadForm_lt m) (aadForm_lt n) hforms
  unfold aadForm at hform
  unfold aadLengthBytes at hrest
  by_cases hmshort : m < 0xff00
  · split_ifs at hform
    all_goals omega
  by_cases hmmedium : m ≤ 2 ^ 32 - 1
  · have hnmedium : ¬ n < 0xff00 ∧ n ≤ 2 ^ 32 - 1 := by
      split_ifs at hform
      all_goals omega
    rw [if_neg hmshort, if_pos hmmedium, if_neg hnmedium.1, if_pos hnmedium.2] at hrest
    obtain ⟨hbytes, hdata⟩ := append_prefix_append (by simp) hrest
    exact bigEndian_inj_of_lt (by omega) (by omega) hbytes
  · have hnlong : ¬ n < 0xff00 ∧ ¬ n ≤ 2 ^ 32 - 1 := by
      split_ifs at hform
      all_goals omega
    rw [if_neg hmshort, if_neg hmmedium, if_neg hnlong.1, if_neg hnlong.2] at hrest
    obtain ⟨hbytes, hdata⟩ := append_prefix_append (by simp) hrest
    exact bigEndian_inj_of_lt (by omega) (by omega) hbytes

theorem paddedBlocks_unique {a b : List UInt8} {s t : List (List UInt8)}
    (hlength : a.length = b.length) (h : paddedBlocks a ++ s <+: paddedBlocks b ++ t) :
    a = b ∧ s.flatten <+: t.flatten := by
  have hflat := flatten_begins h
  rw [List.flatten_append, List.flatten_append, paddedBlocks_flatten, paddedBlocks_flatten,
    hlength, List.append_assoc, List.append_assoc] at hflat
  obtain ⟨hdata, hrest⟩ := append_prefix_append hlength hflat
  exact ⟨hdata, (append_prefix_append rfl hrest).2⟩

theorem aadBlocks_unique {a b : List UInt8} {s t : List (List UInt8)} (ha : a.length < 2 ^ 64)
    (hb : b.length < 2 ^ 64) (hempty : a.length = 0 ↔ b.length = 0)
    (h : aadBlocks a ++ s <+: aadBlocks b ++ t) : a = b ∧ s.flatten <+: t.flatten := by
  unfold aadBlocks at h
  by_cases hzero : a.length = 0
  · rw [if_pos hzero, if_pos (hempty.mp hzero)] at h
    refine ⟨?_, flatten_begins h⟩
    rw [List.length_eq_zero_iff.mp hzero, List.length_eq_zero_iff.mp (hempty.mp hzero)]
  · rw [if_neg hzero, if_neg (mt hempty.mpr hzero)] at h
    have hlength : a.length = b.length := by
      have hflat := flatten_begins h
      rw [List.flatten_append, List.flatten_append, paddedBlocks_flatten, paddedBlocks_flatten] at hflat
      simp only [List.append_assoc] at hflat
      exact aadPrefix_prefix_free ha hb hflat
    obtain ⟨hdata, hrest⟩ := paddedBlocks_unique (by simp [hlength]) h
    rw [hlength] at hdata
    exact ⟨List.append_cancel_left hdata, hrest⟩

theorem flags_aad : ∀ s < 8, ∀ k < 8,
    UInt8.ofNat (0x40 ||| s <<< 3 ||| k) ≠ UInt8.ofNat (0 ||| s <<< 3 ||| k) := by
  decide

/-- A tag of four bytes or more sets a bit of the flags above the low three. -/
theorem flags_tag : ∀ a ∈ [0x40, 0], ∀ s < 8, 0 < s → ∀ k < 8, ∀ l < 8,
    UInt8.ofNat (a ||| s <<< 3 ||| k) ≠ UInt8.ofNat l := by
  decide

/-- What the code checks of a message and its tag, whose lengths are `size_t`. -/
structure Message.Accepted (tagLength : Nat) (m : Message) : Prop where
  valid : ∃ address, ccmValidate address m.nonce.length m.payload.length tagLength = .ok ()
  payload_size : m.payload.length < 2 ^ 64
  aad_size : m.aad.length < 2 ^ 64

variable {tagLength : Nat} {m m' : Message}

theorem Message.Accepted.bounds (h : m.Accepted tagLength) :
    7 ≤ m.nonce.length ∧ m.nonce.length ≤ 13 ∧ 4 ≤ tagLength ∧ tagLength ≤ 16 := by
  obtain ⟨address, hvalid⟩ := h.valid
  unfold ccmValidate at hvalid
  split_ifs at hvalid
  omega

theorem Message.Accepted.payload_lt (h : m.Accepted tagLength) :
    m.payload.length < 256 ^ (15 - m.nonce.length) := by
  obtain ⟨address, hvalid⟩ := h.valid
  unfold ccmValidate at hvalid
  split_ifs at hvalid with _ _ hfits
  exact lt_of_ccmLengthFits hfits h.payload_size

theorem ccmBlocks_unique (h : m.Accepted tagLength) (h' : m'.Accepted tagLength)
    (hnonce : m.nonce.length = m'.nonce.length)
    (hbegins : ccmBlocks tagLength m <+: ccmBlocks tagLength m') : m = m' := by
  obtain ⟨hfirst, hrest⟩ := List.cons_prefix_cons.mp hbegins
  have hbounds := h.bounds
  rw [ccmFirstBlock, ccmFirstBlock, hnonce] at hfirst
  obtain ⟨hflags, hbody⟩ := List.cons.inj hfirst
  obtain ⟨hsame, hcount⟩ := List.append_inj hbody hnonce
  have hlength : m.payload.length = m'.payload.length :=
    bigEndian_inj_of_lt (hnonce ▸ h.payload_lt) h'.payload_lt hcount
  have hempty : m.aad.length = 0 ↔ m'.aad.length = 0 := by
    have hneq := flags_aad ((tagLength - 2) / 2) (by omega) (15 - m'.nonce.length - 1) (by omega)
    by_cases hzero : m.aad.length = 0 <;> by_cases hzero' : m'.aad.length = 0
    · simp [hzero, hzero']
    · rw [if_neg (not_not.mpr hzero), if_pos hzero'] at hflags
      exact absurd hflags.symm hneq
    · rw [if_pos hzero, if_neg (not_not.mpr hzero')] at hflags
      exact absurd hflags hneq
    · simp [hzero, hzero']
  obtain ⟨haad, hpayload⟩ := aadBlocks_unique h.aad_size h'.aad_size hempty hrest
  rw [paddedBlocks_flatten, paddedBlocks_flatten] at hpayload
  obtain ⟨hdata, hpad⟩ := append_prefix_append hlength hpayload
  cases m
  cases m'
  exact congr (congr (congrArg Message.mk hsame) haad) hdata

theorem ccmFirstBlock_ne (h : m.Accepted tagLength) {nonce : List UInt8} (hnonce : 7 ≤ nonce.length)
    (i : Nat) :
    ccmFirstBlock m.nonce m.aad.length m.payload.length tagLength ≠ ccmCounterBlock nonce i := by
  intro hequal
  have hbounds := h.bounds
  have hflags := (List.cons.inj hequal).1
  have hne := flags_tag (if m.aad.length ≠ 0 then 0x40 else 0) (by split_ifs <;> decide)
    ((tagLength - 2) / 2) (by omega) (by omega) (15 - m.nonce.length - 1) (by omega)
    (15 - nonce.length - 1) (by omega)
  exact hne hflags

/-- The message authentication code is the chain over the blocks of the message. No blocks begin the
blocks of another message, and none start like a counter block. -/
theorem ccm_formatting :
    (∀ encryptBlock tagLength m, ccmComputeMac encryptBlock m.nonce m.aad m.payload tagLength =
      (ccmBlocks tagLength m).foldlM (ccmMacBlock encryptBlock) zeroBlock) ∧
      (∀ tagLength (m m' : Message), m.Accepted tagLength → m'.Accepted tagLength →
        m.nonce.length = m'.nonce.length → m ≠ m' →
        ccmBlocks tagLength m ≠ ccmBlocks tagLength m' ∧
          ¬ ccmBlocks tagLength m <+: ccmBlocks tagLength m' ∧
          ¬ ccmBlocks tagLength m' <+: ccmBlocks tagLength m) ∧
      ∀ tagLength tagLength' (m m' : Message), m.Accepted tagLength → m'.Accepted tagLength' →
        ∀ i, ccmFirstBlock m.nonce m.aad.length m.payload.length tagLength ≠
          ccmCounterBlock m'.nonce i := by
  refine ⟨ccmComputeMac_eq, ?_, ?_⟩
  · intro tagLength m m' h h' hnonce hne
    refine ⟨?_, ?_, ?_⟩
    · intro hequal
      exact hne (ccmBlocks_unique h h' hnonce (hequal ▸ List.prefix_refl _))
    · exact mt (ccmBlocks_unique h h' hnonce) hne
    · exact mt (ccmBlocks_unique h' h hnonce.symm) hne.symm
  · intro tagLength tagLength' m m' h h' i
    exact ccmFirstBlock_ne h h'.bounds.1 i

theorem ccm_formatting_zero :
    ¬ ccmBlocks 4 ⟨[1, 2, 3, 4, 5, 6, 7], [], [9]⟩ <+:
      ccmBlocks 4 ⟨[1, 2, 3, 4, 5, 6, 7], [], [9, 0]⟩ := by
  have h : ∀ payload : List UInt8, payload.length ≤ 2 →
      Message.Accepted 4 ⟨[1, 2, 3, 4, 5, 6, 7], [], payload⟩ := by
    intro payload hlength
    exact ⟨⟨1, rfl⟩, hlength.trans_lt (by decide), (by decide : 0 < 2 ^ 64)⟩
  exact (ccm_formatting.2.1 4 _ _ (h [9] (by decide)) (h [9, 0] (by decide)) rfl (by simp)).2.1

end Injective

end LiberaCrypt.CcmFormatting
