import LiberaCrypt.ConstantTime
import LiberaCrypt.CountedLoop
import LiberaCrypt.Montgomery
import LiberaCrypt.PowerLadder

namespace LiberaCrypt.ModExpSecure

open LiberaCrypt.Outcome LiberaCrypt.Allocation LiberaCrypt.CountedLoop LiberaCrypt.Limbs
open LiberaCrypt.Bignum LiberaCrypt.Montgomery LiberaCrypt.PowerLadder

/-- The length of the limbs, by a scan of all of them with masks. -/
def fixedLength (words : List UInt32) (n : Nat) : UInt64 :=
  countUp n (fun i length =>
    let x := words.getD i 0
    let nonzero := (x ||| ((0 : UInt32) - x)) >>> 31
    let mask := (0 : UInt64) - nonzero.toUInt64
    (length &&& ~~~mask) ||| (UInt64.ofNat (i + 1) &&& mask)) 0

def bignumCtStoreFixed (words : List UInt32) (n : Nat) : Fallible LiberaCBignum := do
  let tmp ← reported (bignumReserve cryptoBignumInit n) .allocationFailed
  pure ⟨storeWords tmp.limbs words, (fixedLength words n).toNat⟩

structure BignumCtExpState where
  baseM : List UInt32
  acc : List UInt32

def oneWords (n : Nat) : List UInt32 := 1 :: List.replicate (n - 1) 0

/-- A base as `n` limbs: all of its storage, or its own limbs over zeros. -/
def baseWords (fixed : Bool) (n : Nat) (base : LiberaCBignum) : List UInt32 :=
  if fixed then base.limbs.take n else storeWords (List.replicate n 0) base.words

def startState (ctx : BignumMontCtx) (fixed : Bool) (oneM : List UInt32) (base : LiberaCBignum) :
    BignumCtExpState :=
  ⟨bignumCtMontMul ctx (baseWords fixed ctx.n base) ctx.r2, oneM⟩

def ladderStep (ctx : BignumMontCtx) (exponentBit : UInt32) (state : BignumCtExpState) :
    BignumCtExpState :=
  let square := bignumCtMontMul ctx state.acc state.acc
  let product := bignumCtMontMul ctx square state.baseM
  { state with acc := bignumCtSelect square product exponentBit }

/-- The scan covers the width of the modulus, whatever the length of the exponent. -/
def scanExponent (ctx : BignumMontCtx) (exponent : LiberaCBignum) (states : List BignumCtExpState) :
    List BignumCtExpState :=
  countDown (32 * ctx.n) (fun bit states =>
    let exponentBit := (exponent.limbs.getD (bit / 32) 0 >>> UInt32.ofNat (bit % 32)) &&& 1
    states.map (ladderStep ctx exponentBit)) states

def bignumModExpCtCore (bases : List LiberaCBignum) (exponent modulus : LiberaCBignum)
    (fixed : Bool) : Fallible (List LiberaCBignum) :=
  let count := bases.length
  let n := modulus.length
  if n = 0 then throw .invalidArgument
  else if modulus.limbs.getD 0 0 &&& 1 = 0 then throw .invalidArgument
  else if fixed ∧ ∃ base ∈ bases, base.capacity < n then throw .invalidArgument
  else if ¬ fixed ∧ ∃ base ∈ bases, cryptoBignumCompare base modulus ≠ .lt then
    throw .invalidArgument
  else if exponent.capacity < n then throw .invalidArgument
  else if sizeMax / 32 < n ∨ sizeMax / (2 + 4 * count) < n then throw .messageTooLarge
  else do
    let ctx ← reported (bignumCtMontInit modulus) .allocationFailed
    allocate (4 * ((2 + 4 * count) * n)) .allocationFailed
    let oneM := bignumCtMontMul ctx (oneWords n) ctx.r2
    let states := scanExponent ctx exponent (bases.map (startState ctx fixed oneM))
    states.mapM fun state => bignumCtStoreFixed (bignumCtMontMul ctx state.acc (oneWords n)) n

def cryptoBignumModExpCt (base exponent modulus : LiberaCBignum) : Fallible LiberaCBignum := do
  let out ← bignumModExpCtCore [base] exponent modulus false
  pure (out.headD cryptoBignumInit)

def cryptoBignumModExpCtFixedBase (base exponent modulus : LiberaCBignum) :
    Fallible LiberaCBignum := do
  let out ← bignumModExpCtCore [base] exponent modulus true
  pure (out.headD cryptoBignumInit)

/-- `sameOut` says that both results would go to one place. -/
def cryptoBignumModExp2Ct (base1 base2 exponent modulus : LiberaCBignum) (sameOut : Bool) :
    Fallible (LiberaCBignum × LiberaCBignum) :=
  if sameOut then throw .invalidArgument
  else do
    let out ← bignumModExpCtCore [base1, base2] exponent modulus false
    pure (out.getD 0 cryptoBignumInit, out.getD 1 cryptoBignumInit)

def cryptoBignumModExpPublicFixedBase (base exponent modulus : LiberaCBignum) :
    Fallible LiberaCBignum :=
  let n := modulus.length
  if n = 0 ∨ exponent.length = 0 ∨ modulus.limbs.getD 0 0 &&& 1 = 0 then throw .invalidArgument
  else if base.capacity < n ∨ n < base.length ∨ sizeMax / 7 < n then throw .invalidArgument
  else if (subRow n (base.limbs.take n) modulus.words 0).2 = 0 then throw .invalidArgument
  else do
    let ctx ← reported (bignumCtMontInit modulus) .allocationFailed
    allocate (4 * (7 * n)) .allocationFailed
    let oneM := bignumCtMontMul ctx (oneWords n) ctx.r2
    let baseM := bignumCtMontMul ctx (base.limbs.take n) ctx.r2
    let acc := countDown (cryptoBignumBitLength exponent) (fun bit acc =>
      let square := bignumCtMontMul ctx acc acc
      if bignumGetBit exponent bit ≠ 0 then bignumCtMontMul ctx square baseM else square) oneM
    bignumCtStoreFixed (bignumCtMontMul ctx acc (oneWords n)) n

section Store

variable {w : List UInt32} {n room : Nat}

theorem fixedLength_eq (hn : n < 2 ^ 64) : (fixedLength w n).toNat = bignumWordsLength w n := by
  induction n with
  | zero => rfl
  | succ n ih =>
    have hrest := ih (Nat.lt_of_succ_lt hn)
    rw [fixedLength, countUp_succ, bignumWordsLength]
    change ((fixedLength w n &&& _) ||| _).toNat = _
    rw [ConstantTime.nonzero_mask]
    split_ifs with h
    · rw [← hrest]
      simp
    · have hof : (UInt64.ofNat (n + 1)).toNat = n + 1 := by
        rw [UInt64.toNat_ofNat']
        exact Nat.mod_eq_of_lt hn
      rw [← hof]
      simp

end Store

section Core

variable {ctx : BignumMontCtx} {M n room : Nat} {base exponent modulus : LiberaCBignum}
  {fixed : Bool}

theorem bignumCtStoreFixed_ensures {w : List UInt32} (hw : w.length = n) (h : 4 * n ≤ room)
    (hn : n < 2 ^ 64) :
    Ensures room (bignumCtStoreFixed w n) fun r =>
      r.Valid ∧ r.value = wordsValue w ∧ n ≤ r.capacity := by
  apply (Ensures.reported (bignumReserve_ensures init_valid h)).bind
  rintro grown ⟨hvalid, -, hlength, hcapacity, -⟩
  apply Ensures.pure
  have hcover : grown.length ≤ w.length := by
    rw [hlength]
    exact Nat.zero_le _
  have hstored := storeWords_covering hvalid hcover (hw.trans_le hcapacity)
  have hnormal := padded_normalize w (grown.capacity - w.length)
  rw [← hstored, bignumNormalize, storeWords, bignumWordsLength_append _ (le_refl _)] at hnormal
  rw [fixedLength_eq hn, ← hw]
  refine ⟨hnormal.1, hnormal.2, ?_⟩
  rw [LiberaCBignum.capacity, storeWords, List.length_append]
  exact Nat.le_add_right _ _

theorem oneWords_spec (hn : n ≠ 0) : (oneWords n).length = n ∧ wordsValue (oneWords n) = 1 := by
  constructor
  · rw [oneWords, List.length_cons, List.length_replicate]
    omega
  · rw [oneWords, wordsValue_cons, wordsValue_zeros]
    rfl

theorem baseWords_spec (fixed : Bool) (hbase : base.Valid) (hlength : base.length ≤ n)
    (hcapacity : fixed = true → n ≤ base.capacity) :
    (baseWords fixed n base).length = n ∧ wordsValue (baseWords fixed n base) = base.value := by
  unfold baseWords
  cases fixed with
  | true =>
    rw [if_pos rfl]
    refine ⟨?_, hbase.value_take hlength⟩
    rw [List.length_take]
    exact Nat.min_eq_left (hcapacity rfl)
  | false =>
    rw [if_neg Bool.false_ne_true, storeWords, List.drop_replicate]
    constructor
    · rw [List.length_append, List.length_replicate, hbase.words_length]
      omega
    · rw [wordsValue_append, wordsValue_zeros, Nat.mul_zero, Nat.add_zero]
      rfl

/-- The state of one base after the exponent bits from `i` on. -/
structure Reached (ctx : BignumMontCtx) (M e i : Nat) (base : LiberaCBignum)
    (state : BignumCtExpState) : Prop where
  baseM : ctx.Holds M state.baseM base.value
  acc : ctx.Holds M state.acc ((base.value : ZMod M) ^ (e / 2 ^ i))

theorem startState_reached (h : ctx.Sound M) (hbase : base.Valid) (hlt : base.value < M)
    (hlength : base.length ≤ ctx.n) (hcapacity : fixed = true → ctx.n ≤ base.capacity)
    {oneM : List UInt32} (hone : ctx.Holds M oneM 1) {e i : Nat} (he : e < 2 ^ i) :
    Reached ctx M e i base (startState ctx fixed oneM base) := by
  obtain ⟨hlen, hvalue⟩ := baseWords_spec fixed hbase hlength hcapacity
  constructor
  · have henter := bignumCtMontMul_reduces.enter_holds h hlen (by rw [hvalue]; exact hlt.le)
    rw [hvalue] at henter
    exact henter
  · rw [start _ he]
    exact hone

theorem ladderStep_reached (h : ctx.Sound M) {e i : Nat} {state : BignumCtExpState}
    (hstate : Reached ctx M e (i + 1) base state) {bit : UInt32} (hbit : bit.toNat = e / 2 ^ i % 2) :
    Reached ctx M e i base (ladderStep ctx bit state) := by
  have hsquare := bignumCtMontMul_reduces.mul_holds h hstate.acc hstate.acc
  have hproduct := bignumCtMontMul_reduces.mul_holds h hsquare hstate.baseM
  have hle : bit.toNat ≤ 1 := by omega
  have hand : bit &&& 1 = bit := by
    apply UInt32.toNat_inj.mp
    rw [UInt32.toNat_and]
    change bit.toNat &&& 1 = bit.toNat
    rw [Nat.and_one_is_mod]
    omega
  refine ⟨hstate.baseM, ?_⟩
  rw [ladderStep, bignumCtSelect, hand,
    selectWords_bit (hsquare.length.trans hproduct.length.symm) hle]
  split_ifs with hz
  · rw [hz] at hbit
    rw [← step_clear _ hbit.symm]
    exact hsquare
  · have hone : bit.toNat = 1 := by
      have hne : bit.toNat ≠ 0 := fun h0 => hz (UInt32.toNat_inj.mp h0)
      omega
    rw [hone] at hbit
    rw [← step_set _ hbit.symm]
    exact hproduct

theorem scanned_value (hexponent : exponent.Valid) (hcapacity : n ≤ exponent.capacity) :
    wordsValue (exponent.limbs.take n) = exponent.value % wordBase ^ n := by
  have hsplit := wordsValue_take_drop exponent.limbs n hcapacity
  rw [hexponent.value_limbs] at hsplit
  rw [hsplit, Nat.add_mul_mod_self_left, Nat.mod_eq_of_lt (wordsValue_take_lt _ _)]

theorem scanExponent_reached (guard : LiberaCBignum → Prop) (h : ctx.Sound M)
    {bases : List LiberaCBignum} {states : List BignumCtExpState} {e : Nat}
    (he : wordsValue (exponent.limbs.take ctx.n) = e)
    (hstates : List.Forall₂ (fun base state => guard base → Reached ctx M e (32 * ctx.n) base state)
      bases states) :
    List.Forall₂ (fun base state => guard base → Reached ctx M e 0 base state) bases
      (scanExponent ctx exponent states) := by
  apply countDown_invariant (fun i states => List.Forall₂
    (fun base state => guard base → Reached ctx M e i base state) bases states) hstates
  intro i hi states hreached
  have hbit : ((exponent.limbs.getD (i / 32) 0 >>> UInt32.ofNat (i % 32)) &&& 1).toNat =
      e / 2 ^ i % 2 := by
    rw [getBit_word _ (Nat.mod_lt _ (by decide)), limb_bit exponent.limbs i (n := ctx.n) (by omega), he]
  rw [List.forall₂_map_right_iff]
  exact hreached.imp fun base state hstate hguard => ladderStep_reached h (hstate hguard) hbit

theorem bignumModExpCtCore_ensures (bases : List LiberaCBignum) (fixed : Bool)
    (hbases : ∀ base ∈ bases, base.Valid ∧ base.value < modulus.value ∧
      (fixed = true → modulus.length ≤ base.capacity))
    (hexponent : exponent.Valid) (hcapacity : modulus.length ≤ exponent.capacity)
    (hm : modulus.Valid) (hodd : modulus.value % 2 = 1)
    (hcontext : 4 * (3 * modulus.length + 2) ≤ room) (hwidth : 32 * modulus.length ≤ room)
    (hbuffer : 4 * ((2 + 4 * bases.length) * modulus.length) ≤ room) :
    Ensures room (bignumModExpCtCore bases exponent modulus fixed)
      (List.Forall₂ (fun base out => out.Valid ∧ out.value =
        base.value ^ (exponent.value % wordBase ^ modulus.length) % modulus.value ∧
          modulus.length ≤ out.capacity) bases) := by
  have hpos : modulus.value ≠ 0 := by
    intro h0
    rw [h0] at hodd
    exact absurd hodd (by decide)
  have hlength : modulus.length ≠ 0 := fun h0 => hpos (hm.length_eq_zero.mp h0)
  have hparity : ¬ modulus.limbs.getD 0 0 &&& 1 = 0 := by
    rw [odd_iff, (words_head hlength).2, hodd]
    decide
  have hfixed : ¬ (fixed = true ∧ ∃ base ∈ bases, base.capacity < modulus.length) := by
    rintro ⟨hf, base, hmem, hlt⟩
    exact absurd ((hbases base hmem).2.2 hf) (not_le.mpr hlt)
  have hcompared : ¬ (¬ fixed = true ∧ ∃ base ∈ bases, cryptoBignumCompare base modulus ≠ .lt) := by
    rintro ⟨-, base, hmem, hne⟩
    rw [cryptoBignumCompare_eq (hbases base hmem).1 hm] at hne
    exact hne (Nat.compare_eq_lt.mpr (hbases base hmem).2.1)
  unfold bignumModExpCtCore
  dsimp only
  rw [if_neg hlength, if_neg hparity, if_neg hfixed, if_neg hcompared,
    if_neg (not_lt.mpr hcapacity)]
  apply Ensures.guard
  · intro hroom
    rw [not_or, not_lt, not_lt, Nat.le_div_iff_mul_le (by decide),
      Nat.le_div_iff_mul_le (by omega), Nat.mul_comm _ (2 + 4 * bases.length)]
    omega
  intro hguard
  have hsmall : modulus.length < 2 ^ 64 := by
    have hle := not_lt.mp (not_or.mp hguard).1
    unfold sizeMax at hle
    omega
  apply (Ensures.reported (bignumMontInit_ensures hm hodd hcontext)).bind
  rintro ctx ⟨hn, hsound⟩
  apply (Ensures.allocate hbuffer).bind
  intro _ _
  rw [← hn] at hlength hsmall ⊢
  obtain ⟨honelen, honevalue⟩ := oneWords_spec hlength
  have hone : ctx.Holds modulus.value (bignumCtMontMul ctx (oneWords ctx.n) ctx.r2) 1 := by
    have henter := bignumCtMontMul_reduces.enter_holds hsound honelen
      (by rw [honevalue]; exact hsound.modulus_pos)
    rw [honevalue, Nat.cast_one] at henter
    exact henter
  have hscanned := scanned_value (n := ctx.n) hexponent (hn.trans_le hcapacity)
  have hwide : exponent.value % wordBase ^ ctx.n < 2 ^ (32 * ctx.n) := by
    rw [← wordBase_pow]
    exact Nat.mod_lt _ (Nat.pow_pos wordBase_pos)
  have hstart : List.Forall₂
      (Reached ctx modulus.value (exponent.value % wordBase ^ ctx.n) (32 * ctx.n)) bases
      (bases.map (startState ctx fixed (bignumCtMontMul ctx (oneWords ctx.n) ctx.r2))) := by
    rw [List.forall₂_map_right_iff, List.forall₂_same]
    intro base hmem
    obtain ⟨hvalid, hlt, hstorage⟩ := hbases base hmem
    apply startState_reached hsound hvalid hlt _ _ hone hwide
    · rw [hn]
      exact hvalid.length_le_of_value hlt.le
    · rw [hn]
      exact hstorage
  apply Ensures.mapM (scanExponent_reached (fun _ => True) hsound hscanned
    (hstart.imp fun _ _ hstate _ => hstate))
  intro base state hstate
  obtain ⟨hlen, hlt, hcast⟩ :=
    bignumCtMontMul_reduces.leave hsound (hstate trivial).acc honelen honevalue
  apply (bignumCtStoreFixed_ensures hlen (by omega) hsmall).mono
  rintro r ⟨hvalid, hvalue, hcapacity⟩
  rw [pow_zero, Nat.div_one] at hcast
  exact ⟨hvalid, hvalue.trans (MontgomeryReduction.eq_mod_of_cast hlt hcast), hcapacity⟩

theorem single {P : LiberaCBignum → LiberaCBignum → Prop} {outs : List LiberaCBignum}
    (h : List.Forall₂ P [base] outs) : P base (outs.headD cryptoBignumInit) := by
  obtain ⟨out, rest, hhead, -, rfl⟩ := List.forall₂_cons_left_iff.mp h
  exact hhead

theorem odd_length (hm : modulus.Valid) (hodd : modulus.value % 2 = 1) : modulus.length ≠ 0 := by
  intro h0
  rw [hm.length_eq_zero.mp h0] at hodd
  exact absurd hodd (by decide)

theorem cryptoBignumModExpCt_ensures (hbase : base.Valid) (hlt : base.value < modulus.value)
    (hexponent : exponent.Valid) (hcapacity : modulus.length ≤ exponent.capacity)
    (hm : modulus.Valid) (hodd : modulus.value % 2 = 1) (h : 32 * modulus.length ≤ room) :
    Ensures room (cryptoBignumModExpCt base exponent modulus) fun out => out.Valid ∧
      out.value = base.value ^ (exponent.value % wordBase ^ modulus.length) % modulus.value ∧
        modulus.length ≤ out.capacity := by
  have hpos := odd_length hm hodd
  have hcore := bignumModExpCtCore_ensures [base] false
    (by simpa using ⟨hbase, hlt⟩) hexponent hcapacity hm hodd (by omega) h
    (by simp only [List.length_singleton]; omega)
  exact hcore.bind fun outs houts => Ensures.pure (single houts)

theorem cryptoBignumModExpCtFixedBase_ensures (hbase : base.Valid)
    (hlt : base.value < modulus.value) (hstorage : modulus.length ≤ base.capacity)
    (hexponent : exponent.Valid) (hcapacity : modulus.length ≤ exponent.capacity)
    (hm : modulus.Valid) (hodd : modulus.value % 2 = 1) (h : 32 * modulus.length ≤ room) :
    Ensures room (cryptoBignumModExpCtFixedBase base exponent modulus) fun out => out.Valid ∧
      out.value = base.value ^ (exponent.value % wordBase ^ modulus.length) % modulus.value ∧
        modulus.length ≤ out.capacity := by
  have hpos := odd_length hm hodd
  have hcore := bignumModExpCtCore_ensures [base] true
    (by simpa using ⟨hbase, hlt, hstorage⟩) hexponent hcapacity hm hodd (by omega) h
    (by simp only [List.length_singleton]; omega)
  exact hcore.bind fun outs houts => Ensures.pure (single houts)

theorem cryptoBignumModExp2Ct_ensures {base2 : LiberaCBignum} (hbase : base.Valid)
    (hlt : base.value < modulus.value) (hbase2 : base2.Valid) (hlt2 : base2.value < modulus.value)
    (hexponent : exponent.Valid) (hcapacity : modulus.length ≤ exponent.capacity)
    (hm : modulus.Valid) (hodd : modulus.value % 2 = 1) (h : 40 * modulus.length ≤ room) :
    Ensures room (cryptoBignumModExp2Ct base base2 exponent modulus false) fun out =>
      (out.1.Valid ∧ out.1.value =
        base.value ^ (exponent.value % wordBase ^ modulus.length) % modulus.value) ∧
      (out.2.Valid ∧ out.2.value =
        base2.value ^ (exponent.value % wordBase ^ modulus.length) % modulus.value) := by
  have hpos := odd_length hm hodd
  have hcore := bignumModExpCtCore_ensures [base, base2] false
    (by simpa using ⟨⟨hbase, hlt⟩, ⟨hbase2, hlt2⟩⟩) hexponent hcapacity hm hodd (by omega)
    (show 32 * modulus.length ≤ room by omega) (by simp only [List.length_cons, List.length_nil]; omega)
  unfold cryptoBignumModExp2Ct
  rw [if_neg Bool.false_ne_true]
  apply hcore.bind
  intro outs houts
  obtain ⟨out1, rest, hfirst, hrest, rfl⟩ := List.forall₂_cons_left_iff.mp houts
  obtain ⟨out2, rest, hsecond, -, rfl⟩ := List.forall₂_cons_left_iff.mp hrest
  exact Ensures.pure ⟨⟨hfirst.1, hfirst.2.1⟩, hsecond.1, hsecond.2.1⟩

theorem base_borrow (hbase : base.Valid) (hm : modulus.Valid) (hlt : base.value < modulus.value)
    (hlength : base.length ≤ modulus.length) :
    (subRow modulus.length (base.limbs.take modulus.length) modulus.words 0).2 ≠ 0 := by
  intro hzero
  have hvalue := subRow_value (n := modulus.length) (a := base.limbs.take modulus.length)
    (b := modulus.words) (List.length_take_le _ _) hm.words_length.le zero_carry
  rw [hzero, hbase.value_take hlength] at hvalue
  simp only [UInt64.toNat_zero, Nat.add_zero, Nat.mul_zero] at hvalue
  change _ + modulus.value = _ at hvalue
  omega

/-- A square and, under the exponent's bit, a multiplication: every bit by bit engine's step. -/
theorem publicStep_holds {mul : BignumMontCtx → List UInt32 → List UInt32 → List UInt32}
    (hmul : Reduces mul) (h : ctx.Sound M) (hexponent : exponent.Valid) {x : ZMod M} {i : Nat}
    {baseM acc : List UInt32} (hbase : ctx.Holds M baseM x)
    (hacc : ctx.Holds M acc (x ^ (exponent.value / 2 ^ (i + 1)))) :
    ctx.Holds M (if bignumGetBit exponent i ≠ 0 then mul ctx (mul ctx acc acc) baseM
      else mul ctx acc acc) (x ^ (exponent.value / 2 ^ i)) := by
  have hbit := bignumGetBit_toNat hexponent i
  have hsquare := hmul.mul_holds h hacc hacc
  split_ifs with hz
  · have hone : exponent.value / 2 ^ i % 2 = 1 := by
      have hne : (bignumGetBit exponent i).toNat ≠ 0 := fun h0 => hz (UInt32.toNat_inj.mp h0)
      omega
    rw [← step_set _ hone]
    exact hmul.mul_holds h hsquare hbase
  · rw [not_not.mp hz] at hbit
    rw [← step_clear _ hbit.symm]
    exact hsquare

theorem cryptoBignumModExpPublicFixedBase_ensures (hbase : base.Valid)
    (hlt : base.value < modulus.value) (hstorage : modulus.length ≤ base.capacity)
    (hexponent : exponent.Valid) (hnonzero : exponent.value ≠ 0)
    (hm : modulus.Valid) (hodd : modulus.value % 2 = 1) (h : 28 * modulus.length ≤ room) :
    Ensures room (cryptoBignumModExpPublicFixedBase base exponent modulus) fun out => out.Valid ∧
      out.value = base.value ^ exponent.value % modulus.value ∧ modulus.length ≤ out.capacity := by
  have hlength := odd_length hm hodd
  have hbaselen := hbase.length_le_of_value hlt.le
  have hparity : ¬ modulus.limbs.getD 0 0 &&& 1 = 0 := by
    rw [odd_iff, (words_head hlength).2, hodd]
    decide
  have hexplen : exponent.length ≠ 0 := fun h0 => hnonzero (hexponent.length_eq_zero.mp h0)
  unfold cryptoBignumModExpPublicFixedBase
  dsimp only
  rw [if_neg (by simp only [not_or]; exact ⟨hlength, hexplen, hparity⟩)]
  apply Ensures.guard
  · intro hroom
    rw [not_or, not_or, not_lt, not_lt, not_lt, Nat.le_div_iff_mul_le (by decide)]
    exact ⟨hstorage, hbaselen, by omega⟩
  intro hguard
  have hsmall : modulus.length < 2 ^ 64 := by
    have hle := not_lt.mp (not_or.mp (not_or.mp hguard).2).2
    unfold sizeMax at hle
    omega
  rw [if_neg (base_borrow hbase hm hlt hbaselen)]
  apply (Ensures.reported (bignumMontInit_ensures hm hodd (by omega))).bind
  rintro ctx ⟨hn, hsound⟩
  apply (Ensures.allocate (by omega)).bind
  intro _ _
  rw [← hn] at hlength hsmall hbaselen hstorage ⊢
  obtain ⟨honelen, honevalue⟩ := oneWords_spec hlength
  obtain ⟨hwordslen, hwordsvalue⟩ := baseWords_spec true hbase hbaselen fun _ => hstorage
  have hone : ctx.Holds modulus.value (bignumCtMontMul ctx (oneWords ctx.n) ctx.r2)
      ((base.value : ZMod modulus.value) ^
        (exponent.value / 2 ^ cryptoBignumBitLength exponent)) := by
    have henter := bignumCtMontMul_reduces.enter_holds hsound honelen
      (by rw [honevalue]; exact hsound.modulus_pos)
    rw [honevalue, Nat.cast_one] at henter
    rw [start _ (by rw [cryptoBignumBitLength_eq hexponent]; exact Nat.lt_size_self _)]
    exact henter
  have hbaseM : ctx.Holds modulus.value
      (bignumCtMontMul ctx (base.limbs.take ctx.n) ctx.r2) base.value := by
    have henter := bignumCtMontMul_reduces.enter_holds hsound hwordslen
      (by rw [hwordsvalue]; exact hlt.le)
    rw [hwordsvalue] at henter
    exact henter
  have hacc := countDown_invariant (fun i acc => ctx.Holds modulus.value acc
      ((base.value : ZMod modulus.value) ^ (exponent.value / 2 ^ i))) hone
    fun i _ acc hacc => publicStep_holds bignumCtMontMul_reduces hsound hexponent hbaseM hacc
  rw [pow_zero, Nat.div_one] at hacc
  obtain ⟨hlen, hreslt, hcast⟩ := bignumCtMontMul_reduces.leave hsound hacc honelen honevalue
  apply (bignumCtStoreFixed_ensures hlen (by omega) hsmall).mono
  rintro r ⟨hvalid, hvalue, hcapacity⟩
  exact ⟨hvalid, hvalue.trans (MontgomeryReduction.eq_mod_of_cast hreslt hcast), hcapacity⟩

end Core

end LiberaCrypt.ModExpSecure
