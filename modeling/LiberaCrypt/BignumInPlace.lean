import LiberaCrypt.Bignum
import LiberaCrypt.BignumAdd
import LiberaCrypt.CountedLoop

namespace LiberaCrypt.BignumInPlace

open LiberaCrypt.Outcome LiberaCrypt.Allocation LiberaCrypt.CountedLoop LiberaCrypt.Limbs
open LiberaCrypt.Bignum LiberaCrypt.BignumAdd LiberaCrypt.BignumObjects

/-- A limb of the result and the next carry, from two limbs and a carry. -/
abbrev LimbStep := UInt64 → UInt64 → UInt64 → UInt32 × UInt64

def addStep : LimbStep := fun av bv carry => ((av + bv + carry).toUInt32, (av + bv + carry) >>> 32)

def subStep : LimbStep := fun av bv borrow =>
  ((av - (bv + borrow)).toUInt32, if av < bv + borrow then 1 else 0)

/-- The limbs of a result from the lowest up, both operands extended by zero limbs. -/
def carryRow (step : LimbStep) : Nat → List UInt32 → List UInt32 → UInt64 →
    List UInt32 × UInt64
  | 0, _, _, carry => ([], carry)
  | n + 1, a, b, carry =>
    let first := step (a.headD 0).toUInt64 (b.headD 0).toUInt64 carry
    let rest := carryRow step n a.tail b.tail first.2
    (first.1 :: rest.1, rest.2)

section Rows

variable {step : LimbStep} {n : Nat} {a b : List UInt32} {c : UInt64}

theorem carryRow_add : carryRow addStep n a b c = addRow n a b c := by
  induction n generalizing a b c with
  | zero => rfl
  | succ n ih => simp only [carryRow, addRow, addStep, ih]

theorem carryRow_sub : carryRow subStep n a b c = subRow n a b c := by
  induction n generalizing a b c with
  | zero => rfl
  | succ n ih => simp only [carryRow, subRow, subStep, ih]

@[simp] theorem carryRow_length : (carryRow step n a b c).1.length = n := by
  induction n generalizing a b c with
  | zero => rfl
  | succ n ih => simp [carryRow, ih]

theorem tail_getD (l : List UInt32) (i : Nat) : l.tail.getD i 0 = l.getD (i + 1) 0 := by
  cases l with
  | nil => rfl
  | cons x xs => rfl

theorem headD_getD (l : List UInt32) : l.headD 0 = l.getD 0 0 := by
  cases l with
  | nil => rfl
  | cons x xs => rfl

theorem carryRow_succ : carryRow step (n + 1) a b c =
    ((carryRow step n a b c).1 ++
        [(step (a.getD n 0).toUInt64 (b.getD n 0).toUInt64 (carryRow step n a b c).2).1],
      (step (a.getD n 0).toUInt64 (b.getD n 0).toUInt64 (carryRow step n a b c).2).2) := by
  induction n generalizing a b c with
  | zero => simp only [carryRow, headD_getD, List.nil_append]
  | succ n ih =>
    rw [carryRow, ih]
    simp only [tail_getD, carryRow, List.cons_append]

end Rows

def setLimb (objects : Objects) (out i : Nat) (x : UInt32) : Objects :=
  Function.update objects out { objects out with limbs := (objects out).limbs.set i x }

/-- `i < length ? a->LIMBS[i] : 0`. -/
def limbBelow (length : Nat) (a : LiberaCBignum) (i : Nat) : UInt64 :=
  if i < length then (a.limbs.getD i 0).toUInt64 else 0

/-- One round of the loop: both limbs are read before the limb of `OUT` is written. -/
def limbRound (step : LimbStep) (out a b aLength bLength : Nat) (i : Nat)
    (s : Objects × UInt64) : Objects × UInt64 :=
  let next := step (limbBelow aLength (s.1 a) i) (limbBelow bLength (s.1 b) i) s.2
  (setLimb s.1 out i next.1, next.2)

section InPlace

variable {step : LimbStep} {objects : Objects} {out a b aLength bLength n : Nat}

theorem limbBelow_eq (x : LiberaCBignum) (length i : Nat) :
    limbBelow length x i = ((x.limbs.take length).getD i 0).toUInt64 := by
  unfold limbBelow
  split
  · next h =>
    rw [List.getD_eq_getElem?_getD, List.getD_eq_getElem?_getD, List.getElem?_take_of_lt h]
  · next h =>
    rw [List.getD_eq_default _ _ ((List.length_take_le _ _).trans (not_lt.mp h))]
    rfl

theorem storeWords_getD (limbs : List UInt32) {w : List UInt32} {i : Nat} (h : w.length = i) :
    (storeWords limbs w).getD i 0 = limbs.getD i 0 := by
  subst h
  rw [storeWords, List.getD_append_right _ _ _ _ le_rfl, Nat.sub_self,
    List.getD_eq_getElem?_getD, List.getD_eq_getElem?_getD, List.getElem?_drop, Nat.add_zero]

theorem storeWords_set {limbs w : List UInt32} {i : Nat} (h : w.length = i)
    (hi : i < limbs.length) (x : UInt32) :
    (storeWords limbs w).set i x = storeWords limbs (w ++ [x]) := by
  subst h
  have hdrop : limbs.drop w.length = limbs.getD w.length 0 :: limbs.drop (w.length + 1) := by
    rw [List.getD_eq_getElem _ _ hi]
    exact List.drop_eq_getElem_cons hi
  rw [storeWords, List.set_append_right _ _ le_rfl, Nat.sub_self, hdrop, List.set_cons_zero,
    storeWords, List.length_append, List.length_singleton, List.append_assoc]
  rfl

/-- Writing over an operand, or over both, gives the row of the operands as they were. -/
theorem limbRound_inPlace (hn : n ≤ (objects out).limbs.length) :
    countUp n (limbRound step out a b aLength bLength) (objects, 0) =
      (Function.update objects out { objects out with
          limbs := storeWords (objects out).limbs (carryRow step n
            ((objects a).limbs.take aLength) ((objects b).limbs.take bLength) 0).1 },
        (carryRow step n ((objects a).limbs.take aLength) ((objects b).limbs.take bLength)
          0).2) := by
  induction n with
  | zero => simp [carryRow, storeWords]
  | succ n ih =>
    rw [countUp_succ, ih (Nat.le_of_succ_le hn), carryRow_succ]
    have hread : ∀ x length, limbBelow length (Function.update objects out { objects out with
        limbs := storeWords (objects out).limbs (carryRow step n
          ((objects a).limbs.take aLength) ((objects b).limbs.take bLength) 0).1 } x) n =
        (((objects x).limbs.take length).getD n 0).toUInt64 := by
      intro x length
      rw [← limbBelow_eq]
      by_cases hx : x = out
      · subst hx
        rw [Function.update_self, limbBelow, limbBelow, storeWords_getD _ carryRow_length]
      · rw [Function.update_of_ne hx]
    have hlength : (carryRow step n ((objects a).limbs.take aLength)
        ((objects b).limbs.take bLength) 0).1.length = n := carryRow_length
    generalize carryRow step n ((objects a).limbs.take aLength)
      ((objects b).limbs.take bLength) 0 = row at hread hlength ⊢
    simp only [limbRound, setLimb, hread, Function.update_self, Function.update_idem,
      storeWords_set hlength hn]

end InPlace

def addGrown (out a b aLength bLength oldLength : Nat) (objects : Objects) : Objects :=
  let n := if bLength < aLength then aLength else bLength
  let s := countUp n (limbRound addStep out a b aLength bLength) (objects, 0)
  let objects := setLimb s.1 out n (if s.2 ≠ 0 then s.2.toUInt32 else 0)
  let n := if s.2 ≠ 0 then n + 1 else n
  Function.update objects out ⟨bignumClearStaleTail (objects out).limbs oldLength n, n⟩

def subGrown (out a b aLength bLength oldLength : Nat) (objects : Objects) : Objects :=
  let objects := (countUp aLength (limbRound subStep out a b aLength bLength) (objects, 0)).1
  let stored := bignumNormalize { objects out with length := aLength }
  Function.update objects out
    { stored with limbs := bignumClearStaleTail stored.limbs oldLength stored.length }

section Results

variable {objects : Objects} {out a b n : Nat}

theorem addGrown_spec (hvalid : ∀ i, (objects i).Valid)
    (hn : n = if (objects b).length < (objects a).length then (objects a).length
      else (objects b).length) (hfits : n + 1 ≤ (objects out).capacity) :
    ∃ r : LiberaCBignum, addGrown out a b (objects a).length (objects b).length
        (objects out).length objects = Function.update objects out r ∧
      r.Valid ∧ r.value = (objects a).value + (objects b).value := by
  have ha := hvalid a
  have hb := hvalid b
  have hale : (objects a).length ≤ n := by
    rw [hn]
    split_ifs <;> omega
  have hble : (objects b).length ≤ n := by
    rw [hn]
    split_ifs <;> omega
  have hvalue := addRow_value (a := (objects a).words) (b := (objects b).words) (n := n)
    (ha.words_length.trans_le hale) (hb.words_length.trans_le hble) zero_carry
  have hcarry : (addRow n (objects a).words (objects b).words 0).2.toNat ≤ 1 :=
    addRow_carry zero_carry
  have hlength : (addRow n (objects a).words (objects b).words 0).1.length = n := addRow_length
  change _ = (objects a).value + (objects b).value + 0 at hvalue
  have hloop := @limbRound_inPlace addStep objects out a b (objects a).length (objects b).length n
    (Nat.le_of_succ_le hfits)
  rw [carryRow_add] at hloop
  change _ = (Function.update objects out { objects out with
      limbs := storeWords (objects out).limbs (addRow n (objects a).words (objects b).words 0).1 },
    (addRow n (objects a).words (objects b).words 0).2) at hloop
  generalize addRow n (objects a).words (objects b).words 0 = row at hvalue hcarry hlength hloop
  have hset (x : UInt32) := storeWords_set hlength (Nat.lt_of_succ_le hfits) x
  unfold addGrown
  dsimp only
  rw [← hn, hloop]
  simp only [setLimb, Function.update_self, Function.update_idem, hset]
  refine ⟨_, rfl, ?_⟩
  by_cases hzero : row.2 = 0
  · have htop : row.1.length ≠ 0 → row.1.getD (row.1.length - 1) 0 ≠ 0 := by
      intro hne
      apply top_ne_zero _ hne
      rw [hzero, UInt64.toNat_zero, Nat.mul_zero, Nat.add_zero, Nat.add_zero] at hvalue
      rw [hvalue, hlength]
      rw [hlength] at hne
      rcases Nat.lt_or_ge (objects b).length (objects a).length with hlt | hge
      · rw [if_pos hlt] at hn
        rw [hn] at hne ⊢
        exact (ha.le_value hne).trans (Nat.le_add_right _ _)
      · rw [if_neg (not_lt.mpr hge)] at hn
        rw [hn] at hne ⊢
        exact (hb.le_value hne).trans (Nat.le_add_left _ _)
    have hstored := overwritten (hvalid out) (w := row.1) (k := 1) (hlength ▸ hfits) htop
    rw [hlength] at hstored
    rw [if_neg (not_not.mpr hzero), if_neg (not_not.mpr hzero)]
    refine ⟨hstored.1, hstored.2.trans ?_⟩
    rw [hzero] at hvalue
    simpa using hvalue
  · have hword : row.2.toUInt32.toNat = row.2.toNat := by
      rw [toUInt32_toNat]
      exact Nat.mod_eq_of_lt (hcarry.trans_lt (by decide))
    have hlong : (row.1 ++ [row.2.toUInt32]).length = n + 1 := by
      rw [List.length_append, hlength, List.length_singleton]
    have htop : (row.1 ++ [row.2.toUInt32]).length ≠ 0 →
        (row.1 ++ [row.2.toUInt32]).getD ((row.1 ++ [row.2.toUInt32]).length - 1) 0 ≠ 0 := by
      intro _ htop
      rw [hlong, Nat.add_sub_cancel, ← hlength, List.getD_append_right _ _ _ _ le_rfl, Nat.sub_self,
        List.getD_cons_zero] at htop
      rw [htop] at hword
      exact hzero (UInt64.toNat_inj.mp hword.symm)
    have hstored := overwritten (hvalid out) (w := row.1 ++ [row.2.toUInt32]) (k := 0)
      (hlong.trans_le hfits) htop
    rw [hlong, List.replicate_zero, List.append_nil, wordsValue_append, wordsValue_singleton, hword,
      hlength, hvalue] at hstored
    rw [if_pos hzero, if_pos hzero]
    exact hstored

theorem subGrown_spec (hvalid : ∀ i, (objects i).Valid)
    (hle : (objects b).value ≤ (objects a).value)
    (hfits : (objects a).length ≤ (objects out).capacity) :
    ∃ r : LiberaCBignum, subGrown out a b (objects a).length (objects b).length
        (objects out).length objects = Function.update objects out r ∧
      r.Valid ∧ r.value = (objects a).value - (objects b).value := by
  have hloop := @limbRound_inPlace subStep objects out a b (objects a).length (objects b).length
    (objects a).length hfits
  rw [carryRow_sub] at hloop
  have hspec := cryptoBignumSub_ensures (hvalid out) (hvalid a) (hvalid b) hle le_rfl
  have hcompare : cryptoBignumCompare (objects a) (objects b) ≠ .lt := fun hlt =>
    absurd ((cryptoBignumCompare_lt (hvalid a) (hvalid b)).mp hlt) (not_lt.mpr hle)
  rw [cryptoBignumSub, if_neg hcompare, bignumReserve, if_pos hfits, pure_bind] at hspec
  unfold subGrown
  rw [hloop]
  simp only [Function.update_self, Function.update_idem]
  exact ⟨_, rfl, hspec ⟨fun _ _ => false, fun h => absurd h Bool.false_ne_true⟩ 0⟩

end Results

end LiberaCrypt.BignumInPlace
