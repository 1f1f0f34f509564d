import LiberaCrypt.Allocation
import LiberaCrypt.Limbs
import Mathlib.Data.Nat.Size

namespace LiberaCrypt.Bignum

open LiberaCrypt.Outcome LiberaCrypt.Allocation LiberaCrypt.Limbs

/-- `LIMBS` is the whole allocation, so that its length is `CAPACITY`. -/
structure LiberaCBignum where
  limbs : List UInt32
  length : Nat
  deriving DecidableEq, Repr

def LiberaCBignum.capacity (a : LiberaCBignum) : Nat := a.limbs.length

def LiberaCBignum.words (a : LiberaCBignum) : List UInt32 := a.limbs.take a.length

def LiberaCBignum.value (a : LiberaCBignum) : Nat := wordsValue a.words

/-- The representation every function keeps: `LENGTH` ends at the highest nonzero limb, and the
rest of the allocation is zero. -/
structure LiberaCBignum.Valid (a : LiberaCBignum) : Prop where
  fits : a.length ≤ a.capacity
  zeros : ∀ i, a.length ≤ i → a.limbs.getD i 0 = 0
  top : a.length ≠ 0 → a.limbs.getD (a.length - 1) 0 ≠ 0

def cryptoBignumInit : LiberaCBignum := ⟨[], 0⟩

def bignumReserve (a : LiberaCBignum) (capacity : Nat) : Fallible LiberaCBignum :=
  if capacity ≤ a.capacity then pure a
  else if sizeMax / 4 < capacity then throw .invalidArgument
  else do
    allocate (4 * capacity) .invalidArgument
    pure { a with limbs := a.limbs ++ List.replicate (capacity - a.capacity) 0 }

/-- `while (length && words[length - 1] == 0) --length`. -/
def bignumWordsLength (words : List UInt32) : Nat → Nat
  | 0 => 0
  | length + 1 => if words.getD length 0 = 0 then bignumWordsLength words length else length + 1

def bignumNormalize (a : LiberaCBignum) : LiberaCBignum :=
  { a with length := bignumWordsLength a.limbs a.length }

def bignumClearStaleTail (limbs : List UInt32) (oldLength newLength : Nat) : List UInt32 :=
  if newLength < oldLength then
    limbs.take newLength ++ List.replicate (oldLength - newLength) 0 ++ limbs.drop oldLength
  else limbs

/-- `memcpy(limbs, words)`, or limb stores in increasing order. -/
def storeWords (limbs words : List UInt32) : List UInt32 := words ++ limbs.drop words.length

def cryptoBignumCopy (out a : LiberaCBignum) : Fallible LiberaCBignum := do
  let grown ← bignumReserve out a.length
  pure ⟨bignumClearStaleTail (storeWords grown.limbs a.words) out.length a.length, a.length⟩

def cryptoBignumSetU64 (out : LiberaCBignum) (value : UInt64) : Fallible LiberaCBignum :=
  if value = 0 then pure ⟨bignumClearStaleTail out.limbs out.length 0, 0⟩
  else do
    let newLength := if value >>> 32 ≠ 0 then 2 else 1
    let grown ← bignumReserve out newLength
    let words := if newLength = 2 then [value.toUInt32, (value >>> 32).toUInt32]
      else [value.toUInt32]
    pure ⟨bignumClearStaleTail (storeWords grown.limbs words) out.length newLength, newLength⟩

/-- `while (top) { ++bits; top >>= 1; }`, which a limb leaves after at most 32 rounds. -/
def topBits : Nat → UInt32 → Nat
  | 0, _ => 0
  | rounds + 1, top => if top = 0 then 0 else topBits rounds (top >>> 1) + 1

def cryptoBignumBitLength (a : LiberaCBignum) : Nat :=
  if a.length = 0 then 0
  else 32 * (a.length - 1) + topBits 32 (a.limbs.getD (a.length - 1) 0)

def bignumGetBit (a : LiberaCBignum) (bit : Nat) : UInt32 :=
  let limb := bit / 32
  if a.length ≤ limb then 0 else (a.limbs.getD limb 0 >>> UInt32.ofNat (bit % 32)) &&& 1

/-- The limbs below `i` are compared from the top. -/
def compareDown (a b : List UInt32) : Nat → Ordering
  | 0 => .eq
  | i + 1 =>
    if a.getD i 0 < b.getD i 0 then .lt
    else if b.getD i 0 < a.getD i 0 then .gt
    else compareDown a b i

def cryptoBignumCompare (a b : LiberaCBignum) : Ordering :=
  if a.length < b.length then .lt
  else if b.length < a.length then .gt
  else compareDown a.limbs b.limbs a.length

def cryptoBignumIsZero (a : LiberaCBignum) : Bool := a.length == 0

section Values

variable {a b out : LiberaCBignum} {w l : List UInt32} {n m : Nat} {room : Nat}

theorem value_of_zeros (h : ∀ i, n ≤ i → l.getD i 0 = 0) (hn : n ≤ m) :
    wordsValue (l.take m) = wordsValue (l.take n) := by
  induction m with
  | zero => rw [Nat.le_zero.mp hn]
  | succ m ih =>
    rcases Nat.le_or_eq_of_le_succ hn with hle | rfl
    · rw [wordsValue_take_succ, h m hle, ih hle]
      simp
    · rfl

theorem LiberaCBignum.Valid.value_take (ha : a.Valid) (h : a.length ≤ n) :
    wordsValue (a.limbs.take n) = a.value := value_of_zeros ha.zeros h

theorem LiberaCBignum.Valid.value_limbs (ha : a.Valid) : wordsValue a.limbs = a.value := by
  rw [← ha.value_take ha.fits, LiberaCBignum.capacity, List.take_length]

theorem LiberaCBignum.Valid.words_length (ha : a.Valid) : a.words.length = a.length := by
  rw [LiberaCBignum.words, List.length_take]
  exact Nat.min_eq_left ha.fits

theorem LiberaCBignum.value_lt : a.value < wordBase ^ a.length := wordsValue_take_lt _ _

theorem LiberaCBignum.Valid.le_value (ha : a.Valid) (h : a.length ≠ 0) :
    wordBase ^ (a.length - 1) ≤ a.value := by
  obtain ⟨n, hn⟩ := Nat.exists_eq_succ_of_ne_zero h
  have htop := ha.top h
  rw [LiberaCBignum.value, LiberaCBignum.words, hn, wordsValue_take_succ]
  rw [hn] at htop
  have hpos : 1 ≤ (a.limbs.getD n 0).toNat :=
    Nat.one_le_iff_ne_zero.mpr fun hz => htop (UInt32.toNat_inj.mp hz)
  have hmul : wordBase ^ n * 1 ≤ wordBase ^ n * (a.limbs.getD n 0).toNat :=
    Nat.mul_le_mul_left _ hpos
  change wordBase ^ n ≤ _
  omega

theorem LiberaCBignum.Valid.length_eq_zero (ha : a.Valid) : a.length = 0 ↔ a.value = 0 := by
  constructor
  · intro h
    simp [LiberaCBignum.value, LiberaCBignum.words, h]
  · intro h
    by_contra hne
    have hle := ha.le_value hne
    have hpos : 0 < wordBase ^ (a.length - 1) := Nat.pow_pos wordBase_pos
    omega

theorem LiberaCBignum.Valid.length_le_iff (ha : a.Valid) : a.length ≤ n ↔ a.value < wordBase ^ n := by
  constructor
  · intro h
    exact a.value_lt.trans_le (Nat.pow_le_pow_right wordBase_pos h)
  · intro h
    by_contra hlt
    rw [not_le] at hlt
    have hle := ha.le_value (Nat.ne_of_gt (Nat.zero_lt_of_lt hlt))
    have hpow : wordBase ^ n ≤ wordBase ^ (a.length - 1) :=
      Nat.pow_le_pow_right wordBase_pos (Nat.le_pred_of_lt hlt)
    omega

theorem LiberaCBignum.Valid.length_le_of_value (ha : a.Valid)
    (h : a.value ≤ b.value) : a.length ≤ b.length :=
  ha.length_le_iff.mpr (h.trans_lt b.value_lt)

theorem bignumWordsLength_le : bignumWordsLength w n ≤ n := by
  induction n with
  | zero => exact le_refl 0
  | succ n ih =>
    unfold bignumWordsLength
    split
    · exact ih.trans (Nat.le_succ n)
    · exact le_refl (n + 1)

theorem bignumWordsLength_zeros (i : Nat) (hlow : bignumWordsLength w n ≤ i) (hi : i < n) :
    w.getD i 0 = 0 := by
  induction n with
  | zero => exact absurd hi (Nat.not_lt_zero i)
  | succ n ih =>
    unfold bignumWordsLength at hlow
    split at hlow
    case isTrue h =>
      rcases Nat.lt_succ_iff_lt_or_eq.mp hi with hlt | rfl
      · exact ih hlow hlt
      · exact h
    case isFalse h => omega

theorem bignumWordsLength_top (h : bignumWordsLength w n ≠ 0) :
    w.getD (bignumWordsLength w n - 1) 0 ≠ 0 := by
  induction n with
  | zero => exact absurd rfl h
  | succ n ih =>
    unfold bignumWordsLength at h ⊢
    split at h
    case isTrue hz =>
      rw [if_pos hz]
      exact ih h
    case isFalse hz =>
      rw [if_neg hz]
      exact hz

/-- Normalizing establishes the invariant once the limbs above the old length are zero. -/
theorem bignumNormalize_valid (hfits : a.length ≤ a.capacity)
    (hzeros : ∀ i, a.length ≤ i → a.limbs.getD i 0 = 0) :
    (bignumNormalize a).Valid ∧ (bignumNormalize a).value = wordsValue a.limbs := by
  have hz : ∀ i, bignumWordsLength a.limbs a.length ≤ i → a.limbs.getD i 0 = 0 := by
    intro i hi
    by_cases h : i < a.length
    · exact bignumWordsLength_zeros i hi h
    · exact hzeros i (not_lt.mp h)
  have hle : bignumWordsLength a.limbs a.length ≤ a.capacity := bignumWordsLength_le.trans hfits
  refine ⟨⟨hle, hz, bignumWordsLength_top⟩, ?_⟩
  have h := value_of_zeros hz hle
  rw [LiberaCBignum.capacity, List.take_length] at h
  exact h.symm

theorem padded_zeros (i : Nat) (h : w.length ≤ i) (k : Nat) :
    (w ++ List.replicate k (0 : UInt32)).getD i 0 = 0 := by
  rw [List.getD_append_right _ _ _ _ h]
  exact List.getElem?_getD_replicate_default_eq 0 k _

theorem padded_normalize (w : List UInt32) (k : Nat) :
    (bignumNormalize ⟨w ++ List.replicate k 0, w.length⟩).Valid ∧
      (bignumNormalize ⟨w ++ List.replicate k 0, w.length⟩).value = wordsValue w := by
  have h := bignumNormalize_valid (a := ⟨w ++ List.replicate k 0, w.length⟩)
    (by simp [LiberaCBignum.capacity]) fun i hi => padded_zeros i hi k
  rw [wordsValue_append, wordsValue_zeros, Nat.mul_zero, Nat.add_zero] at h
  exact h

theorem padded_valid (k : Nat) (htop : w.length ≠ 0 → w.getD (w.length - 1) 0 ≠ 0) :
    LiberaCBignum.Valid ⟨w ++ List.replicate k 0, w.length⟩ := by
  refine ⟨by simp [LiberaCBignum.capacity], fun i hi => padded_zeros i hi k, ?_⟩
  intro h
  have hlt : w.length - 1 < w.length := Nat.sub_lt (Nat.pos_of_ne_zero h) Nat.one_pos
  rw [List.getD_append _ _ _ _ hlt]
  exact htop h

theorem padded_value (k : Nat) :
    LiberaCBignum.value ⟨w ++ List.replicate k 0, w.length⟩ = wordsValue w := by
  simp [LiberaCBignum.value, LiberaCBignum.words]

/-- Limbs that are zero from `n` on are their first `n` and padding. -/
theorem eq_padded (h : ∀ i, n ≤ i → l.getD i 0 = 0) (hn : n ≤ l.length) :
    l = l.take n ++ List.replicate (l.length - n) 0 := by
  conv_lhs => rw [← List.take_append_drop n l]
  congr 1
  apply List.ext_getElem
  · simp
  · intro i h1 h2
    have hz := h (n + i) (Nat.le_add_right n i)
    rw [List.length_drop] at h1
    have hi : n + i < l.length := by omega
    simpa [hi] using hz

theorem LiberaCBignum.Valid.limbs_eq (ha : a.Valid) :
    a.limbs = a.words ++ List.replicate (a.capacity - a.length) 0 := eq_padded ha.zeros ha.fits

theorem LiberaCBignum.Valid.words_top (ha : a.Valid) (h : a.words.length ≠ 0) :
    a.words.getD (a.words.length - 1) 0 ≠ 0 := by
  rw [ha.words_length] at h ⊢
  have hlt : a.length - 1 < a.words.length := by
    rw [ha.words_length]
    omega
  have htop := ha.top h
  rwa [ha.limbs_eq, List.getD_append _ _ _ _ hlt] at htop

theorem getD_drop (i : Nat) : (l.drop n).getD i 0 = l.getD (n + i) 0 := by
  simp [List.getD]

/-- Writing over the front of a valid bignum and clearing what was left leaves only padding. -/
theorem clearStaleTail_storeWords (hout : out.Valid) {k : Nat}
    (hfit : w.length + k ≤ out.capacity) :
    bignumClearStaleTail (storeWords out.limbs (w ++ List.replicate k 0)) out.length
        w.length = w ++ List.replicate (out.capacity - w.length) 0 := by
  have hstore : (storeWords out.limbs (w ++ List.replicate k 0)).length = out.capacity := by
    simp only [storeWords, List.length_append, List.length_replicate, List.length_drop]
    exact Nat.add_sub_cancel' hfit
  have hhigh : ∀ i, w.length ≤ i → out.length ≤ i →
      (storeWords out.limbs (w ++ List.replicate k 0)).getD i 0 = 0 := by
    intro i hi hlength
    unfold storeWords
    by_cases hpad : i < w.length + k
    · rw [List.getD_append _ _ _ _ (by simpa using hpad)]
      exact padded_zeros i hi k
    · rw [List.getD_append_right _ _ _ _ (by simpa using hpad), getD_drop]
      apply hout.zeros
      simp only [List.length_append, List.length_replicate]
      omega
  have htake : (storeWords out.limbs (w ++ List.replicate k 0)).take w.length = w := by
    rw [storeWords, List.append_assoc, List.take_left' rfl]
  unfold bignumClearStaleTail
  split
  case isTrue h =>
    have hfits := hout.fits
    have hdrop : (storeWords out.limbs (w ++ List.replicate k 0)).drop out.length =
        List.replicate (out.capacity - out.length) 0 := by
      have := eq_padded (l := (storeWords out.limbs (w ++ List.replicate k 0)).drop
        out.length) (n := 0) (fun i _ => by
          rw [getD_drop]
          exact hhigh _ (h.le.trans (Nat.le_add_right _ _)) (Nat.le_add_right _ _)) (Nat.zero_le _)
      rw [this, List.length_drop, hstore, List.take_zero, List.nil_append, Nat.sub_zero]
    rw [hdrop, htake, List.append_assoc, List.replicate_append_replicate]
    congr 2
    omega
  case isFalse h =>
    have hpadded := eq_padded (fun i hi => hhigh i hi ((not_lt.mp h).trans hi))
      (by rw [hstore]; omega)
    rw [hstore, htake] at hpadded
    exact hpadded

theorem storeWords_covering (hout : out.Valid) (hcover : out.length ≤ w.length)
    (hfit : w.length ≤ out.capacity) :
    storeWords out.limbs w = w ++ List.replicate (out.capacity - w.length) 0 := by
  have hstored := clearStaleTail_storeWords hout (w := w) (k := 0) hfit
  rwa [List.replicate_zero, List.append_nil, bignumClearStaleTail, if_neg (not_lt.mpr hcover)]
    at hstored

theorem stripped (w : List UInt32) :
    w = w.take (bignumWordsLength w w.length) ++
      List.replicate (w.length - bignumWordsLength w w.length) 0 := by
  apply eq_padded
  · intro i hi
    by_cases h : i < w.length
    · exact bignumWordsLength_zeros i hi h
    · simp [not_lt.mp h]
  · exact bignumWordsLength_le

theorem bignumReserve_ensures (ha : a.Valid) (h : 4 * n ≤ room) :
    Ensures room (bignumReserve a n) fun grown =>
      grown.Valid ∧ grown.value = a.value ∧ grown.length = a.length ∧
        n ≤ grown.capacity ∧ a.capacity ≤ grown.capacity := by
  unfold bignumReserve
  by_cases hle : n ≤ a.capacity
  · rw [if_pos hle]
    exact Ensures.pure ⟨ha, rfl, rfl, hle, le_refl _⟩
  · rw [if_neg hle]
    apply Ensures.guard
    · intro hroom
      omega
    intro _
    apply (Ensures.allocate h).bind
    intro _ _
    apply Ensures.pure
    have hfits := ha.fits
    have hlimbs : a.limbs ++ List.replicate (n - a.capacity) 0 =
        a.words ++ List.replicate (n - a.length) 0 := by
      rw [ha.limbs_eq, List.append_assoc, List.replicate_append_replicate]
      congr 2
      omega
    have hlength := ha.words_length
    rw [hlimbs]
    have hcapacity : (a.words ++ List.replicate (n - a.length) (0 : UInt32)).length = n := by
      rw [List.length_append, List.length_replicate, hlength]
      omega
    have hvalid := padded_valid (n - a.length) ha.words_top
    have hvalue := padded_value (w := a.words) (n - a.length)
    rw [hlength] at hvalid hvalue
    refine ⟨hvalid, hvalue, rfl, ?_, ?_⟩
    · exact hcapacity.ge
    · rw [LiberaCBignum.capacity, LiberaCBignum.capacity, hcapacity]
      exact (not_le.mp hle).le

theorem LiberaCBignum.Valid.length_eq (ha : a.Valid) (hb : b.Valid) (h : a.value = b.value) :
    a.length = b.length :=
  Nat.le_antisymm (ha.length_le_of_value h.le) (hb.length_le_of_value h.ge)

theorem LiberaCBignum.Valid.value_top (ha : a.Valid) (h : a.length ≠ 0) :
    a.value = wordsValue (a.limbs.take (a.length - 1)) +
      wordBase ^ (a.length - 1) * (a.limbs.getD (a.length - 1) 0).toNat := by
  rw [← wordsValue_take_succ, Nat.sub_add_cancel (Nat.pos_of_ne_zero h)]
  exact (ha.value_take (le_refl _)).symm

theorem init_valid : cryptoBignumInit.Valid :=
  ⟨le_refl 0, fun i _ => by simp [cryptoBignumInit], fun h => absurd rfl h⟩

@[simp] theorem init_value : cryptoBignumInit.value = 0 := rfl

theorem top_ne_zero (h : wordBase ^ (w.length - 1) ≤ wordsValue w)
    (hne : w.length ≠ 0) : w.getD (w.length - 1) 0 ≠ 0 := by
  obtain ⟨k, hk⟩ := Nat.exists_eq_succ_of_ne_zero hne
  intro hz
  have hsplit := wordsValue_take_succ w k
  have hlt := wordsValue_take_lt w k
  rw [hk, Nat.succ_sub_one] at h hz
  rw [List.take_of_length_le hk.le, hz] at hsplit
  simp only [UInt32.toNat_zero, Nat.mul_zero, Nat.add_zero] at hsplit
  omega

theorem overwritten (hout : out.Valid) {k : Nat} (hfit : w.length + k ≤ out.capacity)
    (htop : w.length ≠ 0 → w.getD (w.length - 1) 0 ≠ 0) :
    LiberaCBignum.Valid ⟨bignumClearStaleTail
        (storeWords out.limbs (w ++ List.replicate k 0)) out.length w.length,
        w.length⟩ ∧
      LiberaCBignum.value ⟨bignumClearStaleTail
        (storeWords out.limbs (w ++ List.replicate k 0)) out.length w.length,
        w.length⟩ = wordsValue w := by
  rw [clearStaleTail_storeWords hout hfit]
  exact ⟨padded_valid _ htop, padded_value _⟩

theorem cryptoBignumCopy_ensures (hout : out.Valid) (ha : a.Valid) (h : 4 * a.length ≤ room) :
    Ensures room (cryptoBignumCopy out a) fun r => r.Valid ∧ r.value = a.value := by
  apply (bignumReserve_ensures hout h).bind
  rintro grown ⟨hvalid, -, hlength, hcapacity, -⟩
  apply Ensures.pure
  have hwords := ha.words_length
  have hfit : a.words.length + 0 ≤ grown.capacity := by
    rw [hwords]
    exact hcapacity
  have hstored := overwritten hvalid hfit ha.words_top
  rw [List.replicate_zero, List.append_nil, hlength, hwords] at hstored
  exact hstored

theorem bignumWordsLength_append (tail : List UInt32) (h : n ≤ w.length) :
    bignumWordsLength (w ++ tail) n = bignumWordsLength w n := by
  induction n with
  | zero => rfl
  | succ n ih =>
    rw [bignumWordsLength, bignumWordsLength, ih (Nat.le_of_succ_le h), List.getD_append _ _ _ _ h]

theorem overwritten_normalized (hout : out.Valid) (hfit : w.length ≤ out.capacity) :
    LiberaCBignum.Valid ⟨bignumClearStaleTail (storeWords out.limbs w) out.length
        (bignumWordsLength (storeWords out.limbs w) w.length),
        bignumWordsLength (storeWords out.limbs w) w.length⟩ ∧
      LiberaCBignum.value ⟨bignumClearStaleTail (storeWords out.limbs w) out.length
        (bignumWordsLength (storeWords out.limbs w) w.length),
        bignumWordsLength (storeWords out.limbs w) w.length⟩ = wordsValue w := by
  have hlength : bignumWordsLength (storeWords out.limbs w) w.length =
      bignumWordsLength w w.length := bignumWordsLength_append _ (le_refl _)
  have hle : bignumWordsLength w w.length ≤ w.length := bignumWordsLength_le
  have hstrip := stripped w
  have htop := bignumWordsLength_top (w := w) (n := w.length)
  rw [hlength]
  generalize bignumWordsLength w w.length = n at hle hstrip htop
  have hfront : (w.take n).length = n := by
    rw [List.length_take]
    exact Nat.min_eq_left hle
  have hvalue : wordsValue w = wordsValue (w.take n) := by
    conv_lhs => rw [hstrip, wordsValue_append, wordsValue_zeros]
    rw [Nat.mul_zero, Nat.add_zero]
  have hfrontTop : (w.take n).length ≠ 0 →
      (w.take n).getD ((w.take n).length - 1) 0 ≠ 0 := by
    rw [hfront]
    intro hne
    have hlt : n - 1 < (w.take n).length := by
      rw [hfront]
      omega
    have := htop hne
    rwa [hstrip, List.getD_append _ _ _ _ hlt] at this
  have hstored := overwritten hout (w := w.take n) (k := w.length - n)
    (by rw [hfront]; omega) hfrontTop
  rw [← hstrip, hfront, ← hvalue] at hstored
  exact hstored

theorem cryptoBignumSetU64_ensures (hout : out.Valid) (value : UInt64) (h : 8 ≤ room) :
    Ensures room (cryptoBignumSetU64 out value) fun r => r.Valid ∧ r.value = value.toNat := by
  unfold cryptoBignumSetU64
  by_cases hz : value = 0
  · rw [if_pos hz, hz]
    have hclear := overwritten hout (w := []) (k := 0) (Nat.zero_le _) (fun h => absurd rfl h)
    exact Ensures.pure hclear
  · have hne : value.toNat ≠ 0 := fun h0 => hz (UInt64.toNat_inj.mp h0)
    have hsplit := split_word value
    rw [if_neg hz]
    dsimp only
    by_cases hhigh : value >>> 32 = 0
    · rw [if_neg (not_not.mpr hhigh), if_neg (by decide)]
      apply (bignumReserve_ensures hout (n := 1) (by omega)).bind
      rintro grown ⟨hvalid, -, hlength, hcapacity, -⟩
      rw [hhigh, UInt64.toNat_zero, Nat.mul_zero, Nat.add_zero] at hsplit
      have hout' := overwritten hvalid (w := [value.toUInt32]) (k := 0) hcapacity
        (fun _ h0 => hne (by rw [← hsplit]; exact UInt32.toNat_inj.mpr h0))
      rw [List.replicate_zero, List.append_nil, hlength, wordsValue_singleton, hsplit] at hout'
      exact Ensures.pure hout'
    · rw [if_pos hhigh, if_pos rfl]
      apply (bignumReserve_ensures hout (n := 2) (by omega)).bind
      rintro grown ⟨hvalid, -, hlength, hcapacity, -⟩
      have hword : (value >>> 32).toUInt32.toNat = (value >>> 32).toNat := by
        rw [toUInt32_toNat, Nat.mod_eq_of_lt (high_lt value)]
      have hout' := overwritten hvalid (w := [value.toUInt32, (value >>> 32).toUInt32]) (k := 0)
        hcapacity (fun _ h0 => hhigh (UInt64.toNat_inj.mp (hword.symm.trans (UInt32.toNat_inj.mpr h0))))
      rw [List.replicate_zero, List.append_nil, hlength, wordsValue_cons, wordsValue_singleton, hword,
        hsplit] at hout'
      exact Ensures.pure hout'

theorem compareDown_eq (x y : List UInt32) (n : Nat) :
    compareDown x y n = compare (wordsValue (x.take n)) (wordsValue (y.take n)) := by
  induction n with
  | zero => rfl
  | succ n ih =>
    have hx := wordsValue_take_lt x n
    have hy := wordsValue_take_lt y n
    have hpos : 0 < wordBase ^ n := Nat.pow_pos wordBase_pos
    rw [compareDown, ih, wordsValue_take_succ, wordsValue_take_succ]
    split_ifs with hlt hgt
    · have hmul := Nat.mul_le_mul_left (wordBase ^ n) (UInt32.lt_iff_toNat_lt.mp hlt)
      rw [Nat.mul_succ] at hmul
      exact (Nat.compare_eq_lt.mpr (by omega)).symm
    · have hmul := Nat.mul_le_mul_left (wordBase ^ n) (UInt32.lt_iff_toNat_lt.mp hgt)
      rw [Nat.mul_succ] at hmul
      exact (Nat.compare_eq_gt.mpr (by omega)).symm
    · have heq : x.getD n 0 = y.getD n 0 := by
        rw [UInt32.lt_iff_toNat_lt] at hlt hgt
        exact UInt32.toNat_inj.mp (by omega)
      rw [heq, Nat.compare_eq_ite_lt, Nat.compare_eq_ite_lt]
      simp only [Nat.add_lt_add_iff_right]

theorem cryptoBignumCompare_eq (ha : a.Valid) (hb : b.Valid) :
    cryptoBignumCompare a b = compare a.value b.value := by
  unfold cryptoBignumCompare
  split_ifs with hlt hgt
  · have h : ¬ b.value ≤ a.value := fun hle => absurd (hb.length_le_of_value hle) (not_le.mpr hlt)
    exact (Nat.compare_eq_lt.mpr (not_le.mp h)).symm
  · have h : ¬ a.value ≤ b.value := fun hle => absurd (ha.length_le_of_value hle) (not_le.mpr hgt)
    exact (Nat.compare_eq_gt.mpr (not_le.mp h)).symm
  · rw [compareDown_eq, ha.value_take (le_refl _), hb.value_take (not_lt.mp hlt)]

/-- Twice the logarithm's digits: the bit length is the length of the binary numeral. -/
theorem size_scaled {x top n : Nat} (hlow : x < 2 ^ n) (htop : top ≠ 0) :
    (x + 2 ^ n * top).size = n + top.size := by
  have hsize := Nat.lt_size_self top
  have hpos : 0 < top.size := Nat.size_pos.mpr (Nat.pos_of_ne_zero htop)
  have hge : 2 ^ (top.size - 1) ≤ top := Nat.lt_size.mp (Nat.sub_lt hpos Nat.one_pos)
  apply Nat.le_antisymm
  · have hmul : 2 ^ n * (top + 1) ≤ 2 ^ n * 2 ^ top.size := Nat.mul_le_mul_left _ hsize
    rw [Nat.size_le, pow_add]
    rw [Nat.mul_succ] at hmul
    omega
  · have hmul : 2 ^ n * 2 ^ (top.size - 1) ≤ 2 ^ n * top := Nat.mul_le_mul_left _ hge
    have hlt : 2 ^ (n + top.size - 1) ≤ x + 2 ^ n * top := by
      rw [Nat.add_sub_assoc hpos, pow_add]
      exact hmul.trans (Nat.le_add_left _ _)
    have := Nat.lt_size.mpr hlt
    omega

theorem wordBase_pow (n : Nat) : wordBase ^ n = 2 ^ (32 * n) := by
  rw [wordBase, pow_mul]

theorem cryptoBignumCompare_lt (ha : a.Valid) (hb : b.Valid) :
    cryptoBignumCompare a b = .lt ↔ a.value < b.value := by
  rw [cryptoBignumCompare_eq ha hb, Nat.compare_eq_lt]

theorem topBits_eq {r : Nat} {top : UInt32} (h : top.toNat < 2 ^ r) :
    topBits r top = top.toNat.size := by
  induction r generalizing top with
  | zero =>
    rw [Nat.lt_one_iff.mp h]
    rfl
  | succ r ih =>
    unfold topBits
    split_ifs with hz
    · rw [hz]
      rfl
    · have hhalf : (top >>> 1).toNat = top.toNat / 2 := by
        rw [UInt32.toNat_shiftRight]
        exact Nat.shiftRight_eq_div_pow _ 1
      have hne : top.toNat ≠ 0 := fun h0 => hz (UInt32.toNat_inj.mp h0)
      have hsize := Nat.size_bit (b := top.toNat.bodd) (n := top.toNat.div2)
        (by rwa [Nat.bit_bodd_div2])
      rw [Nat.bit_bodd_div2, Nat.div2_val] at hsize
      rw [ih (by rw [hhalf]; omega), hhalf, hsize]

theorem cryptoBignumBitLength_eq (ha : a.Valid) : cryptoBignumBitLength a = a.value.size := by
  unfold cryptoBignumBitLength
  split_ifs with h
  · rw [ha.length_eq_zero.mp h, Nat.size_zero]
  · have htop : (a.limbs.getD (a.length - 1) 0).toNat ≠ 0 :=
      fun hz => ha.top h (UInt32.toNat_inj.mp hz)
    have hlow := wordsValue_take_lt a.limbs (a.length - 1)
    rw [ha.value_top h]
    rw [wordBase_pow] at hlow ⊢
    rw [size_scaled hlow htop, topBits_eq (UInt32.toNat_lt _)]

theorem getBit_word (x : UInt32) {i : Nat} (hi : i < 32) :
    ((x >>> UInt32.ofNat i) &&& 1).toNat = x.toNat / 2 ^ i % 2 := by
  have hof : (UInt32.ofNat i).toNat = i := by
    rw [UInt32.toNat_ofNat']
    omega
  rw [UInt32.toNat_and, UInt32.toNat_shiftRight, hof, Nat.mod_eq_of_lt hi,
    Nat.shiftRight_eq_div_pow]
  exact Nat.and_one_is_mod _

theorem limb_bit (l : List UInt32) (bit : Nat) (h : bit / 32 < n) :
    (l.getD (bit / 32) 0).toNat / 2 ^ (bit % 32) % 2 =
      wordsValue (l.take n) / 2 ^ bit % 2 := by
  induction n with
  | zero => exact absurd h (Nat.not_lt_zero _)
  | succ n ih =>
    have hlow := wordsValue_take_lt l n
    have hbit : bit = 32 * (bit / 32) + bit % 32 := (Nat.div_add_mod bit 32).symm
    rw [wordsValue_take_succ]
    rw [wordBase_pow] at hlow ⊢
    rcases Nat.lt_succ_iff_lt_or_eq.mp h with hlt | heq
    · have hsplit : 2 ^ (32 * n) = 2 ^ bit * (2 * 2 ^ (32 * n - bit - 1)) := by
        rw [← pow_succ', ← pow_add]
        congr 1
        omega
      rw [ih hlt, hsplit, Nat.mul_assoc, Nat.add_mul_div_left _ _ (Nat.two_pow_pos bit),
        Nat.mul_assoc, Nat.add_mul_mod_self_left]
    · have hpow : 2 ^ bit = 2 ^ (32 * n) * 2 ^ (bit % 32) := by
        rw [← pow_add, ← heq, ← hbit]
      rw [hpow, ← Nat.div_div_eq_div_mul, Nat.add_mul_div_left _ _ (Nat.two_pow_pos _),
        Nat.div_eq_of_lt hlow, Nat.zero_add, heq]

theorem bignumGetBit_toNat (ha : a.Valid) (bit : Nat) :
    (bignumGetBit a bit).toNat = a.value / 2 ^ bit % 2 := by
  unfold bignumGetBit
  dsimp only
  split_ifs with h
  · have hlt := a.value_lt
    rw [wordBase_pow] at hlt
    have hpow : 2 ^ (32 * a.length) ≤ 2 ^ bit := Nat.pow_le_pow_right Nat.two_pos (by omega)
    rw [Nat.div_eq_of_lt (hlt.trans_le hpow)]
    rfl
  · rw [getBit_word _ (Nat.mod_lt _ (by decide)), limb_bit a.limbs bit (not_le.mp h),
      ha.value_take (le_refl _)]

end Values

end LiberaCrypt.Bignum

namespace LiberaCrypt.BignumObjects

open LiberaCrypt.Outcome LiberaCrypt.Allocation LiberaCrypt.Limbs LiberaCrypt.Bignum

/-- The bignums of a program by their addresses. Two operands of a call may have one address. -/
abbrev Objects := Nat → LiberaCBignum

/-- A call that writes the object at `out`. -/
def writeTo (out : Nat) (objects : Objects) (x : Fallible LiberaCBignum) : Fallible Objects := do
  let result ← x
  pure (Function.update objects out result)

variable {room : Nat} {objects : Objects} {out : Nat} {a : LiberaCBignum}

theorem writeTo_ensures {x : Fallible LiberaCBignum} {post : LiberaCBignum → Prop}
    (h : Ensures room x post) :
    Ensures room (writeTo out objects x)
      fun after => post (after out) ∧ ∀ other, other ≠ out → after other = objects other := by
  apply h.bind
  intro r hr
  apply Ensures.pure
  constructor
  · simpa using hr
  · intro other hother
    simp [hother]

end LiberaCrypt.BignumObjects
