import LiberaCrypt.Def
import LiberaCrypt.MlDsaRounding
import Mathlib.Data.List.GetD

namespace LiberaCrypt.MlDsaHint

open LiberaCrypt.Outcome LiberaCrypt.MlDsaRounding

abbrev Poly := Fin 256 → Int

def mldPolyCaddq (a : Poly) : Poly := fun i => mldCaddq (a i)

def mldPolyReduce (a : Poly) : Poly := fun i => mldReduce32 (a i)

def mldPolyAdd (r b : Poly) : Poly := fun i => r i + b i

def mldPolySub (r b : Poly) : Poly := fun i => r i - b i

/-- Zero when every coefficient is below `b` in absolute value. -/
def mldPolyChknorm (a : Poly) (b : Int) : UInt32 :=
  (List.finRange 256).foldl (fun t i => t ||| mldCtCmaskNegI32 (b - 1 - mldCtAbsI32 (a i))) 0

def mldPolyDecompose (p : ParameterSet) (a : Poly) : Poly × Poly :=
  (fun i => (mldDecompose p (a i)).2, fun i => (mldDecompose p (a i)).1)

def mldPolyUseHint (p : ParameterSet) (a h : Poly) : Poly := fun i => mldUseHint p (a i) (h i)

/-- One coefficient of the loops of `mld_pack_sig_h`; `indices` is what is recorded so far. -/
def packCoefficient (omega : Nat) (bit : Fin 256 → Nat) (indices : List UInt8) (j : Fin 256) :
    Option (List UInt8) :=
  if bit j = 0 then some indices
  else if indices.length = omega then none
  else some (indices ++ [UInt8.ofNat j])

def packRows (omega : Nat) : List (Fin 256 → Nat) → List UInt8 → Option (List UInt8 × List UInt8)
  | [], indices => some (indices, [])
  | bit :: rows, indices => do
    let indices ← (List.finRange 256).foldlM (packCoefficient omega bit) indices
    let (all, tallies) ← packRows omega rows indices
    some (all, UInt8.ofNat indices.length :: tallies)

/-- The `MLDSA_POLYVECH_PACKEDBYTES` bytes; the index slots that are not used stay zero. -/
def hintSection (p : ParameterSet) (indices tallies : List UInt8) : List UInt8 :=
  indices ++ List.replicate (p.omega - indices.length) 0 ++ tallies

def mldPackSigH (p : ParameterSet) (w0 w1 : Fin p.k → Poly) : Option (List UInt8) := do
  let bits := List.ofFn fun k : Fin p.k => fun j => mldMakeHint p (w0 k j) (w1 k j)
  let (indices, tallies) ← packRows p.omega bits []
  some (hintSection p indices tallies)

def byteIndex (x : UInt8) : Fin 256 := ⟨x.toNat, x.toNat_lt⟩

/-- The polynomial after the first rounds of the loop of `mld_sig_unpack_hints`. -/
def markHints (packedHints : List UInt8) (oldHintCount : Nat) : Nat → Option Poly
  | 0 => some fun _ => 0
  | n + 1 => do
    let h ← markHints packedHints oldHintCount n
    let j := oldHintCount + n
    if j > oldHintCount ∧ packedHints.getD j 0 ≤ packedHints.getD (j - 1) 0 then none
    else some (Function.update h (byteIndex (packedHints.getD j 0)) 1)

def mldSigUnpackHints (p : ParameterSet) (packedHints : List UInt8) (i : Nat) : Option Poly := do
  let oldHintCount := if i = 0 then 0 else (packedHints.getD (p.omega + i - 1) 0).toNat
  let newHintCount := (packedHints.getD (p.omega + i) 0).toNat
  if newHintCount < oldHintCount ∨ newHintCount > p.omega then none
  else
    let h ← markHints packedHints oldHintCount (newHintCount - oldHintCount)
    if i = p.k - 1 ∧ ∃ j < p.omega, newHintCount ≤ j ∧ packedHints.getD j 0 ≠ 0 then none
    else some h

/-- The loop over `k` of `mld_attempt_signature_generation`, from the products `c * s2` and
`c * t0` of its row; nothing is returned for `MLD_ERR_FAIL`. -/
def attemptRow (p : ParameterSet) (w0 cs2 ct0 : Poly) : Option Poly :=
  let w0 := mldPolyReduce (mldPolySub w0 cs2)
  if mldPolyChknorm w0 (p.gamma2 - p.beta) ≠ 0 then none
  else
    let z := mldPolyReduce ct0
    if mldPolyChknorm z p.gamma2 ≠ 0 then none
    else some (mldPolyAdd w0 z)

def signerHigh (p : ParameterSet) (w : Fin p.k → Poly) (k : Fin p.k) : Poly :=
  (mldPolyDecompose p (mldPolyCaddq (w k))).1

def signerHints (p : ParameterSet) (w cs2 ct0 : Fin p.k → Poly) : Option (List UInt8) := do
  let w0 ← collect fun k => attemptRow p (mldPolyDecompose p (mldPolyCaddq (w k))).2 (cs2 k) (ct0 k)
  mldPackSigH p w0 (signerHigh p w)

/-- Row `i` of the verifier's high parts, from the polynomial that `mld_poly_invntt_tomont`
leaves. -/
def verifierHigh (p : ParameterSet) (packedHints : List UInt8) (w1 : Poly) (i : Fin p.k) :
    Option Poly := do
  let h ← mldSigUnpackHints p packedHints i
  some (mldPolyUseHint p (mldPolyCaddq w1) h)

section Row

variable {p : ParameterSet} {a : Poly} {b : Int}

theorem foldl_or_eq_zero (f : Fin 256 → UInt32) (is : List (Fin 256)) (start : UInt32) :
    is.foldl (fun t i => t ||| f i) start = 0 ↔ start = 0 ∧ ∀ i ∈ is, f i = 0 := by
  induction is generalizing start with
  | nil => simp
  | cons i is ih =>
    rw [List.foldl_cons, ih, UInt32.or_eq_zero_iff, List.forall_mem_cons, and_assoc]

theorem mldPolyChknorm_eq_zero (ha : ∀ i, |a i| ≤ 6283009) (hb : 0 ≤ b) (hmax : b ≤ 2 ^ 20) :
    mldPolyChknorm a b = 0 ↔ ∀ i, |a i| < b := by
  have hmask (i : Fin 256) : mldCtCmaskNegI32 (b - 1 - mldCtAbsI32 (a i)) = 0 ↔ |a i| < b := by
    have hi := ha i
    have hpos := abs_nonneg (a i)
    have hbounds := abs_le.mp hi
    rw [abs_eq ⟨by omega, by omega⟩ ⟨by omega, by omega⟩, cmask_neg ⟨by omega, by omega⟩]
    split
    · exact ⟨fun h => absurd h (by decide), fun h => by omega⟩
    · exact ⟨fun _ => by omega, fun _ => rfl⟩
  rw [mldPolyChknorm, foldl_or_eq_zero]
  simp [hmask]

theorem mldPolyReduce_bound {a : Poly} (h : ∀ i, |a i| < 2 ^ 30) (i : Fin 256) :
    |mldPolyReduce a i| ≤ 6283009 := by
  have hi := abs_lt.mp (h i)
  exact mldReduce32_bound ⟨by omega, by omega⟩ (by omega)

theorem mldCaddq_spec {x : Int} (h : |x| < mldsaQ) :
    0 ≤ mldCaddq x ∧ mldCaddq x < mldsaQ ∧ mldsaQ ∣ mldCaddq x - x := by
  have hb := abs_lt.mp h
  rw [mldCaddq_eq h]
  split
  · exact ⟨by omega, by omega, ⟨1, by ring⟩⟩
  · exact ⟨by omega, by omega, ⟨0, by ring⟩⟩

theorem attemptRow_eq_some {w0 cs2 ct0 r : Poly} (hw : ∀ i, |w0 i| ≤ p.gamma2)
    (hs : ∀ i, |cs2 i| < mldsaQ) (ht : ∀ i, |ct0 i| < mldsaQ) :
    attemptRow p w0 cs2 ct0 = some r ↔
      (∀ i, |mldPolyReduce (mldPolySub w0 cs2) i| < p.gamma2 - p.beta) ∧
        (∀ i, |mldPolyReduce ct0 i| < p.gamma2) ∧
          r = mldPolyAdd (mldPolyReduce (mldPolySub w0 cs2)) (mldPolyReduce ct0) := by
  have hgamma : 0 ≤ p.gamma2 - p.beta ∧ 0 ≤ p.beta ∧ p.gamma2 ≤ 2 ^ 20 := by
    cases p <;> decide
  unfold mldsaQ at hs ht
  have hdifference (i : Fin 256) : |mldPolySub w0 cs2 i| < 2 ^ 30 := by
    have hi := abs_le.mp (hw i)
    have hj := abs_lt.mp (hs i)
    change |w0 i - cs2 i| < 2 ^ 30
    exact abs_lt.mpr ⟨by omega, by omega⟩
  have hproduct (i : Fin 256) : |ct0 i| < 2 ^ 30 := (ht i).trans (by norm_num)
  have hlow := mldPolyChknorm_eq_zero (mldPolyReduce_bound hdifference)
    (b := p.gamma2 - p.beta) (by omega) (by omega)
  have hhint := mldPolyChknorm_eq_zero (mldPolyReduce_bound hproduct) (b := p.gamma2) (by omega)
    (by omega)
  rw [← hlow, ← hhint]
  simp only [attemptRow]
  split_ifs with hw0 hh
  · exact iff_of_false (by simp) fun h => hw0 h.1
  · exact iff_of_false (by simp) fun h => hh h.2.1
  · rw [not_ne_iff] at hw0 hh
    simp only [hw0, hh, true_and, Option.some.injEq]
    exact eq_comm

/-- An accepted row is short and congruent to `w0 - cs2 + ct0`. -/
theorem attemptRow_spec {w0 cs2 ct0 r : Poly} (hw : ∀ i, |w0 i| ≤ p.gamma2)
    (hs : ∀ i, |cs2 i| < mldsaQ) (ht : ∀ i, |ct0 i| < mldsaQ)
    (h : attemptRow p w0 cs2 ct0 = some r) (i : Fin 256) :
    mldsaQ ∣ r i - (w0 i - cs2 i + ct0 i) ∧ |r i| < 2 * p.gamma2 := by
  obtain ⟨hlow, hhint, rfl⟩ := (attemptRow_eq_some hw hs ht).mp h
  have hbeta : 0 ≤ p.beta := by cases p <;> decide
  constructor
  · have hsum := dvd_add (mldReduce32_dvd (w0 i - cs2 i)) (mldReduce32_dvd (ct0 i))
    have heq : mldPolyAdd (mldPolyReduce (mldPolySub w0 cs2)) (mldPolyReduce ct0) i -
        (w0 i - cs2 i + ct0 i) = mldReduce32 (w0 i - cs2 i) - (w0 i - cs2 i) +
          (mldReduce32 (ct0 i) - ct0 i) := by
      change mldReduce32 (w0 i - cs2 i) + mldReduce32 (ct0 i) - _ = _
      ring
    rwa [heq]
  · have hleft := abs_lt.mp (hlow i)
    have hright := abs_lt.mp (hhint i)
    change |_ + _| < _
    exact abs_lt.mpr ⟨by omega, by omega⟩

end Row

section Encoding

variable {omega : Nat} {bit : Fin 256 → Nat} {rows : List (Fin 256 → Nat)}
  {indices all tallies : List UInt8}

def positions (bit : Fin 256 → Nat) : List (Fin 256) :=
  (List.finRange 256).filter fun j => bit j ≠ 0

theorem positions_sorted : (positions bit).Pairwise (· < ·) :=
  (List.pairwise_lt_finRange 256).filter _

theorem mem_positions {j : Fin 256} : j ∈ positions bit ↔ bit j ≠ 0 := by
  simp [positions]

def indexByte (j : Fin 256) : UInt8 := UInt8.ofNat j

theorem indexByte_toNat (j : Fin 256) : (indexByte j).toNat = j :=
  UInt8.toNat_ofNat_of_lt' j.isLt

theorem byteIndex_indexByte (j : Fin 256) : byteIndex (indexByte j) = j :=
  Fin.ext (indexByte_toNat j)

theorem packCoefficients_spec {js : List (Fin 256)} (hindices : indices.length ≤ omega)
    (h : js.foldlM (packCoefficient omega bit) indices = some all) :
    all = indices ++ (js.filter fun j => bit j ≠ 0).map indexByte ∧ all.length ≤ omega := by
  induction js generalizing indices with
  | nil =>
    obtain rfl := Option.some.inj h
    exact ⟨by simp, hindices⟩
  | cons j js ih =>
    rw [List.foldlM_cons] at h
    by_cases hbit : bit j = 0
    · rw [packCoefficient, if_pos hbit] at h
      obtain ⟨hall, hlength⟩ := ih hindices h
      exact ⟨by simpa [hbit] using hall, hlength⟩
    · rw [packCoefficient, if_neg hbit] at h
      by_cases hfull : indices.length = omega
      · rw [if_pos hfull] at h
        cases h
      · rw [if_neg hfull] at h
        obtain ⟨hall, hlength⟩ := @ih (indices ++ [UInt8.ofNat j])
          (by rw [List.length_append, List.length_singleton]; omega) h
        exact ⟨by simpa [hbit, indexByte] using hall, hlength⟩

/-- A row of recorded indices between the tally before it and its own; nothing follows the
last row. -/
def RowAt (all row : List UInt8) (oldCount newCount : Nat) (last : Prop) : Prop :=
  ∃ before after, all = before ++ row ++ after ∧ before.length = oldCount ∧
    newCount = oldCount + row.length ∧ (last → after = [])

structure Packed (omega : Nat) (rows : List (Fin 256 → Nat)) (indices all tallies : List UInt8) :
    Prop where
  starts : ∃ added, all = indices ++ added ∧ (rows = [] → added = [])
  length_le : all.length ≤ omega
  tallies_length : tallies.length = rows.length
  row (i : Nat) (hi : i < rows.length) : RowAt all ((positions rows[i]).map indexByte)
    (if i = 0 then indices.length else (tallies.getD (i - 1) 0).toNat) (tallies.getD i 0).toNat
    (i + 1 = rows.length)

theorem packRows_packed (homega : omega < 256) (hindices : indices.length ≤ omega)
    (h : packRows omega rows indices = some (all, tallies)) :
    Packed omega rows indices all tallies := by
  induction rows generalizing indices tallies with
  | nil =>
    obtain ⟨rfl, rfl⟩ := Prod.mk.inj (Option.some.inj h)
    exact ⟨⟨[], by simp, fun _ => rfl⟩, hindices, rfl, fun i hi => absurd hi (by simp)⟩
  | cons bit rows ih =>
    rw [packRows] at h
    obtain ⟨next, hnext, h⟩ := Option.bind_eq_some_iff.mp h
    obtain ⟨⟨rest, restTallies⟩, hrest, h⟩ := Option.bind_eq_some_iff.mp h
    obtain ⟨rfl, rfl⟩ := Prod.mk.inj (Option.some.inj h)
    obtain ⟨hnextEq, hnextLength⟩ := packCoefficients_spec hindices hnext
    have hpacked := ih hnextLength hrest
    have htally : (UInt8.ofNat next.length).toNat = next.length :=
      UInt8.toNat_ofNat_of_lt' (hnextLength.trans_lt homega)
    obtain ⟨added, hadded, hnone⟩ := hpacked.starts
    refine ⟨⟨(positions bit).map indexByte ++ added, ?_, fun h => absurd h (by simp)⟩,
      hpacked.length_le, by rw [List.length_cons, List.length_cons, hpacked.tallies_length], ?_⟩
    · rw [hadded, hnextEq, List.append_assoc]
      rfl
    · rintro (_ | i) hi
      · refine ⟨indices, added, by rw [hadded, hnextEq]; rfl, rfl, ?_, ?_⟩
        · rw [List.getD_cons_zero, htally, hnextEq, List.length_append]
          rfl
        · intro hlast
          exact hnone (List.length_eq_zero_iff.mp (by simpa using hlast.symm))
      · obtain ⟨before, after, hall, hbefore, hnew, hafter⟩ :=
          hpacked.row i (by simpa using hi)
        refine ⟨before, after, hall, ?_, ?_, fun hlast => hafter (by simpa using hlast)⟩
        · rw [hbefore]
          cases i with
          | zero => simp [htally]
          | succ i => simp
        · rw [List.getD_cons_succ, hnew]
          cases i with
          | zero => simp [htally]
          | succ i => simp

variable {row : List (Fin 256)} {packedHints : List UInt8} {oldCount n : Nat}

theorem markHints_eq (hsorted : row.Pairwise (· < ·))
    (hbytes : ∀ t (ht : t < row.length), packedHints.getD (oldCount + t) 0 = indexByte row[t])
    (hn : n ≤ row.length) :
    markHints packedHints oldCount n = some fun j => if j ∈ row.take n then 1 else 0 := by
  induction n with
  | zero => simp [markHints]
  | succ n ih =>
    have hrow := hbytes n hn
    have hascending : ¬ (oldCount + n > oldCount ∧
        packedHints.getD (oldCount + n) 0 ≤ packedHints.getD (oldCount + n - 1) 0) := by
      rintro ⟨hpos, hle⟩
      have hbefore := hbytes (n - 1) (by omega)
      rw [show oldCount + (n - 1) = oldCount + n - 1 by omega] at hbefore
      rw [hrow, hbefore, UInt8.le_iff_toNat_le, indexByte_toNat, indexByte_toNat] at hle
      have hlt : row[n - 1] < row[n] := List.pairwise_iff_getElem.mp hsorted _ _ _ _ (by omega)
      exact absurd hle (by simpa using hlt)
    rw [markHints, ih (by omega)]
    change (if _ then none else some _) = _
    have hmem (j : Fin 256) : j ∈ row.take (n + 1) ↔ j ∈ row.take n ∨ j = row[n] := by
      rw [List.take_succ_eq_append_getElem hn, List.mem_append, List.mem_singleton]
    rw [if_neg hascending, hrow, byteIndex_indexByte]
    congr 1
    funext j
    by_cases hj : j = row[n]
    · rw [hj, Function.update_self, if_pos ((hmem _).mpr (.inr rfl))]
    · rw [Function.update_of_ne hj]
      exact if_congr ⟨fun h => (hmem j).mpr (.inl h), fun h => ((hmem j).mp h).resolve_right hj⟩
        rfl rfl

end Encoding

section Recovery

variable {p : ParameterSet} {bits : Fin p.k → Fin 256 → Nat} {all tallies : List UInt8}

theorem slots_length (hall : all.length ≤ p.omega) :
    (all ++ List.replicate (p.omega - all.length) (0 : UInt8)).length = p.omega := by
  rw [List.length_append, List.length_replicate, Nat.add_sub_cancel' hall]

theorem hintSection_length (hall : all.length ≤ p.omega) :
    (hintSection p all tallies).length = p.omega + tallies.length := by
  rw [hintSection, List.length_append, slots_length hall]

theorem hintSection_index {j : Nat} (hall : all.length ≤ p.omega) (hj : j < p.omega) :
    (hintSection p all tallies).getD j 0 = all.getD j 0 := by
  rw [hintSection, List.getD_append _ _ _ _ (by rwa [slots_length hall])]
  by_cases h : j < all.length
  · rw [List.getD_append _ _ _ _ h]
  · rw [List.getD_append_right _ _ _ _ (by omega), List.getD_replicate _ (by omega),
      List.getD_eq_default _ _ (by omega)]

theorem hintSection_tally (hall : all.length ≤ p.omega) (j : Nat) :
    (hintSection p all tallies).getD (p.omega + j) 0 = tallies.getD j 0 := by
  have hslots := slots_length hall
  rw [hintSection, List.getD_append_right _ _ _ _ (by omega), hslots, Nat.add_sub_cancel_left]

theorem hintSection_row {before row after : List UInt8} {t : Nat} (hall : all.length ≤ p.omega)
    (hrow : all = before ++ row ++ after) (ht : t < row.length) :
    (hintSection p all tallies).getD (before.length + t) 0 = row[t] := by
  have hlength : all.length = before.length + row.length + after.length := by
    rw [hrow, List.length_append, List.length_append]
  rw [hintSection_index hall (by omega), hrow, List.append_assoc,
    List.getD_append_right _ _ _ _ (by omega), Nat.add_sub_cancel_left,
    List.getD_append _ _ _ _ ht, List.getD_eq_getElem _ _ ht]

theorem mldSigUnpackHints_eq (h : Packed p.omega (List.ofFn bits) [] all tallies) (i : Fin p.k) :
    mldSigUnpackHints p (hintSection p all tallies) i =
      some fun j => if bits i j ≠ 0 then 1 else 0 := by
  obtain ⟨before, after, hall, hbefore, hnew, hafter⟩ := h.row i (by simp)
  have hlength := h.length_le
  have hsum : all.length = before.length + (positions (bits i)).length + after.length := by
    rw [hall]
    simp [Nat.add_assoc]
  have hold : (if (i : Nat) = 0 then 0 else
      ((hintSection p all tallies).getD (p.omega + i - 1) 0).toNat) = before.length := by
    rw [hbefore]
    split_ifs with hi
    · rfl
    · rw [show p.omega + (i : Nat) - 1 = p.omega + (i - 1) by omega, hintSection_tally hlength]
  have hcount : ((hintSection p all tallies).getD (p.omega + i) 0).toNat =
      before.length + (positions (bits i)).length := by
    rw [hintSection_tally hlength, hnew, ← hbefore]
    simp
  have hbytes (t : Nat) (ht : t < (positions (bits i)).length) :
      (hintSection p all tallies).getD (before.length + t) 0 =
        indexByte (positions (bits i))[t] := by
    rw [hintSection_row hlength hall (by simpa using ht)]
    simp
  have hmarks := markHints_eq positions_sorted hbytes le_rfl
  rw [mldSigUnpackHints]
  simp only [hold, hcount]
  rw [if_neg (by omega), Nat.add_sub_cancel_left, hmarks, List.take_length]
  have htrailing : ¬ ((i : Nat) = p.k - 1 ∧ ∃ j < p.omega,
      before.length + (positions (bits i)).length ≤ j ∧
        (hintSection p all tallies).getD j 0 ≠ 0) := by
    rintro ⟨hi, j, hj, hle, hne⟩
    rw [hafter (by rw [List.length_ofFn]; omega), List.length_nil] at hsum
    exact hne (by rw [hintSection_index hlength hj, List.getD_eq_default _ _ (by omega)])
  change (if _ then none else some _) = _
  rw [if_neg htrailing]
  simp only [mem_positions]

theorem collect_eq_some {α : Type} {n : Nat} {f : Fin n → Option α} {g : Fin n → α}
    (h : collect f = some g) (i : Fin n) : f i = some (g i) := by
  induction n with
  | zero => exact i.elim0
  | succ n ih =>
    obtain ⟨xs, hxs, h⟩ := Option.bind_eq_some_iff.mp h
    obtain ⟨x, hx, h⟩ := Option.bind_eq_some_iff.mp h
    obtain rfl := Option.some.inj h
    cases i using Fin.lastCases with
    | last => rw [hx, Fin.snoc_last]
    | cast i => rw [ih hxs i, Fin.snoc_castSucc]

theorem mldDecompose_bound (p : ParameterSet) {a : Int} (h0 : 0 ≤ a) (hq : a < mldsaQ) :
    |(mldDecompose p a).1| ≤ p.gamma2 := by
  have hin := (mldDecompose_splits p h0 hq).inside
  have hpos := p.gamma2_pos
  change -p.gamma2 < _ ∧ _ ≤ p.gamma2 ∨ _ ∧ _ = -p.gamma2 at hin
  exact abs_le.mpr ⟨by omega, by omega⟩

theorem mldMakeHint_bit (p : ParameterSet) (a0 a1 : Int) :
    (if mldMakeHint p a0 a1 ≠ 0 then 1 else 0 : Int) = mldMakeHint p a0 a1 := by
  unfold mldMakeHint
  split <;> rfl

variable {w cs2 ct0 v : Fin p.k → Poly} {packedHints : List UInt8}

/-- Hints of an accepted attempt: the verifier decodes each row, and gets from every
representative of `w - cs2 + ct0` the high part of `w`. -/
theorem verifierHigh_signerHints (hw : ∀ k i, |w k i| < mldsaQ) (hs : ∀ k i, |cs2 k i| < mldsaQ)
    (ht : ∀ k i, |ct0 k i| < mldsaQ) (hv : ∀ k i, |v k i| < mldsaQ)
    (hdvd : ∀ k i, mldsaQ ∣ v k i - (w k i - cs2 k i + ct0 k i))
    (h : signerHints p w cs2 ct0 = some packedHints) :
    packedHints.length = p.omega + p.k ∧
      ∀ k, verifierHigh p packedHints (v k) k = some (signerHigh p w k) := by
  obtain ⟨w0, hw0, h⟩ := Option.bind_eq_some_iff.mp h
  obtain ⟨⟨all, tallies⟩, hrows, h⟩ := Option.bind_eq_some_iff.mp h
  obtain rfl := Option.some.inj h
  have hpacked := packRows_packed (by cases p <;> decide) (Nat.zero_le _) hrows
  have hlength := hpacked.length_le
  refine ⟨?_, fun k => ?_⟩
  · rw [hintSection_length hlength, hpacked.tallies_length, List.length_ofFn]
  · have hcanonical (i : Fin 256) := mldCaddq_spec (hw k i)
    have hrow := attemptRow_spec
      (fun i => mldDecompose_bound p (hcanonical i).1 (hcanonical i).2.1) (hs k) (ht k)
      (collect_eq_some hw0 k)
    have hhints := mldSigUnpackHints_eq hpacked k
    rw [verifierHigh]
    rw [hhints]
    refine congrArg some (funext fun i => ?_)
    obtain ⟨hv0, hvq, hvdvd⟩ := mldCaddq_spec (hv k i)
    have hsplits := mldDecompose_splits p (hcanonical i).1 (hcanonical i).2.1
    have hwindow := hsplits.dvd
    rw [p.windows_modulus] at hwindow
    change mldUseHint p (mldCaddq (v k i)) (if mldMakeHint p _ _ ≠ 0 then 1 else 0) = _
    rw [mldMakeHint_bit]
    apply mldUseHint_mldMakeHint p hv0 hvq _ hsplits.nonneg hsplits.lt (hrow i).2
    -- both sides stand for `w - cs2 + ct0`, up to the representatives that the reductions chose
    have hsum := dvd_sub (dvd_add (dvd_sub (dvd_add hvdvd (hdvd k i)) (hcanonical i).2.2) hwindow)
      (hrow i).1
    have heq : mldCaddq (v k i) -
        (2 * p.gamma2 * (mldDecompose p (mldCaddq (w k i))).2 + w0 k i) =
        mldCaddq (v k i) - v k i + (v k i - (w k i - cs2 k i + ct0 k i)) -
          (mldCaddq (w k i) - w k i) + (mldCaddq (w k i) - (2 * p.windows.gamma *
            (mldDecompose p (mldCaddq (w k i))).2 + (mldDecompose p (mldCaddq (w k i))).1)) -
          (w0 k i - ((mldDecompose p (mldCaddq (w k i))).1 - cs2 k i + ct0 k i)) := by
      change _ = _ - _ + (_ - (2 * p.gamma2 * _ + _)) - _
      ring
    exact heq ▸ hsum

def spike (x y : Int) (k : Fin p.k) (i : Fin 256) : Int :=
  if k.val = 0 ∧ i.val = 7 then x else y

theorem spike_lt {x y : Int} (hx : |x| < mldsaQ) (hy : |y| < mldsaQ) (k : Fin p.k) (i : Fin 256) :
    |spike x y k i| < mldsaQ := by
  unfold spike
  split
  · exact hx
  · exact hy

/-- A coefficient that the sum carries out of its window: `95153 + 200` is above `95232`. -/
theorem verifierHigh_signerHints_spike : ∃ packedHints : List UInt8,
    packedHints.getD 0 0 = 7 ∧ packedHints.getD 80 0 = 1 ∧
      ∀ k : Fin (ParameterSet.mlDsa44).k,
        verifierHigh .mlDsa44 packedHints (spike 95353 5 k) k =
          some (signerHigh .mlDsa44 (spike 95153 5) k) := by
  have hrow (k : Fin (ParameterSet.mlDsa44).k) :
      attemptRow .mlDsa44 (spike 95153 5 k) (spike 0 0 k) (spike 200 0 k) =
        some (spike 95353 5 k) := by
    rw [attemptRow_eq_some (fun i => by unfold spike; split <;> decide)
      (spike_lt (by decide) (by decide) k) (spike_lt (by decide) (by decide) k)]
    refine ⟨fun i => ?_, fun i => ?_, funext fun i => ?_⟩ <;>
      simp only [mldPolyAdd, mldPolyReduce, mldPolySub, spike] <;> split <;> decide
  have hlow (k : Fin (ParameterSet.mlDsa44).k) :
      (mldPolyDecompose .mlDsa44 (mldPolyCaddq (spike 95153 5 k))).2 = spike 95153 5 k := by
    funext i
    simp only [mldPolyDecompose, mldPolyCaddq, spike]
    split <;> decide
  have hpack : mldPackSigH .mlDsa44 (spike 95353 5) (signerHigh .mlDsa44 (spike 95153 5)) =
      some (7 :: (List.replicate 79 0 ++ [1, 1, 1, 1])) := by
    decide +kernel
  have hsigner : signerHints .mlDsa44 (spike 95153 5) (spike 0 0) (spike 200 0) =
      some (7 :: (List.replicate 79 0 ++ [1, 1, 1, 1])) := by
    simp only [signerHints, hlow]
    rw [collect_of_pure hrow, pure_bind, hpack]
  have hrecovers := verifierHigh_signerHints (v := spike 95353 5)
    (spike_lt (by decide) (by decide)) (spike_lt (by decide) (by decide))
    (spike_lt (by decide) (by decide)) (spike_lt (by decide) (by decide))
    (fun k i => by unfold spike; split <;> decide) hsigner
  exact ⟨_, rfl, rfl, hrecovers.2⟩

end Recovery

section Uniqueness

variable {p : ParameterSet} {packed packed' : List UInt8} {oldCount n n' i : Nat} {h : Poly}

/-- The places that the loop of `mld_sig_unpack_hints` visits. -/
def visited (packed : List UInt8) (oldCount n : Nat) : List (Fin 256) :=
  (List.range n).map fun t => byteIndex (packed.getD (oldCount + t) 0)

theorem visited_succ : visited packed oldCount (n + 1) =
    visited packed oldCount n ++ [byteIndex (packed.getD (oldCount + n) 0)] := by
  rw [visited, List.range_succ, List.map_append]
  rfl

theorem ascending_visited (hn : (visited packed oldCount n).Pairwise (· < ·))
    (hnext : ¬ (oldCount + n > oldCount ∧
      packed.getD (oldCount + n) 0 ≤ packed.getD (oldCount + n - 1) 0)) :
    (visited packed oldCount (n + 1)).Pairwise (· < ·) := by
  rw [visited_succ, List.pairwise_append]
  refine ⟨hn, List.pairwise_singleton _ _, fun a ha b hb => ?_⟩
  rw [List.mem_singleton] at hb
  obtain ⟨m, rfl⟩ : ∃ m, n = m + 1 := by
    cases n with
    | zero => simp [visited] at ha
    | succ m => exact ⟨m, rfl⟩
  rw [visited_succ, List.pairwise_append] at hn
  have hstep : byteIndex (packed.getD (oldCount + m) 0) < b := by
    have hlt : ¬ packed.getD (oldCount + (m + 1)) 0 ≤ packed.getD (oldCount + m) 0 :=
      fun hle => hnext ⟨by omega, hle⟩
    rw [UInt8.le_iff_toNat_le, not_le] at hlt
    rwa [hb, Fin.lt_def]
  rw [visited_succ, List.mem_append, List.mem_singleton] at ha
  rcases ha with ha | rfl
  · exact (hn.2.2 a ha _ (List.mem_singleton_self _)).trans hstep
  · exact hstep

theorem markHints_some (hmark : markHints packed oldCount n = some h) :
    (visited packed oldCount n).Pairwise (· < ·) ∧
      ∀ j, h j = if j ∈ visited packed oldCount n then 1 else 0 := by
  induction n generalizing h with
  | zero =>
    obtain rfl := Option.some.inj hmark
    exact ⟨List.Pairwise.nil, fun j => rfl⟩
  | succ n ih =>
    obtain ⟨before, hbefore, hmark⟩ := Option.bind_eq_some_iff.mp hmark
    obtain ⟨hascending, hmarked⟩ := ih hbefore
    by_cases hnext : oldCount + n > oldCount ∧
        packed.getD (oldCount + n) 0 ≤ packed.getD (oldCount + n - 1) 0
    · rw [if_pos hnext] at hmark
      cases hmark
    · rw [if_neg hnext] at hmark
      obtain rfl := Option.some.inj hmark
      refine ⟨ascending_visited hascending hnext, fun j => ?_⟩
      rw [visited_succ]
      by_cases hj : j = byteIndex (packed.getD (oldCount + n) 0)
      · rw [hj, Function.update_self, if_pos (by simp)]
      · rw [Function.update_of_ne hj, hmarked]
        exact if_congr (by rw [List.mem_append, List.mem_singleton, or_iff_left hj]) rfl rfl

theorem visited_unique (hmark : markHints packed oldCount n = some h)
    (hmark' : markHints packed' oldCount n' = some h) :
    visited packed oldCount n = visited packed' oldCount n' := by
  obtain ⟨hascending, hmarked⟩ := markHints_some hmark
  obtain ⟨hascending', hmarked'⟩ := markHints_some hmark'
  have hmem (j : Fin 256) : j ∈ visited packed oldCount n ↔ j ∈ visited packed' oldCount n' := by
    have hsame := (hmarked j).symm.trans (hmarked' j)
    split_ifs at hsame with hin hin' hin'
    · exact iff_of_true hin hin'
    · exact absurd hsame one_ne_zero
    · exact absurd hsame zero_ne_one
    · exact iff_of_false hin hin'
  have hperm := (List.perm_ext_iff_of_nodup (hascending.imp fun hlt => hlt.ne)
    (hascending'.imp fun hlt => hlt.ne)).mpr hmem
  exact List.Perm.eq_of_pairwise (fun a b _ _ hab hba => absurd hab hba.asymm) hascending
    hascending' hperm

theorem visited_bytes (h : visited packed oldCount n = visited packed' oldCount n') :
    n = n' ∧ ∀ t < n, packed.getD (oldCount + t) 0 = packed'.getD (oldCount + t) 0 := by
  have hn : n = n' := by simpa [visited] using congrArg List.length h
  refine ⟨hn, fun t ht => ?_⟩
  rw [visited, visited, ← hn] at h
  have hbyte := List.map_inj_left.mp h t (List.mem_range.mpr ht)
  exact UInt8.toNat_inj.mp (congrArg Fin.val hbyte)

def tallyBefore (p : ParameterSet) (packed : List UInt8) (i : Nat) : Nat :=
  if i = 0 then 0 else (packed.getD (p.omega + i - 1) 0).toNat

theorem mldSigUnpackHints_def (p : ParameterSet) (packed : List UInt8) (i : Nat) :
    mldSigUnpackHints p packed i =
      if tallyBefore p packed (i + 1) < tallyBefore p packed i ∨
          tallyBefore p packed (i + 1) > p.omega then none
      else (markHints packed (tallyBefore p packed i)
          (tallyBefore p packed (i + 1) - tallyBefore p packed i)).bind fun h =>
        if i = p.k - 1 ∧ ∃ j < p.omega, tallyBefore p packed (i + 1) ≤ j ∧ packed.getD j 0 ≠ 0
        then none
        else some h := rfl

theorem mldSigUnpackHints_some (hunpack : mldSigUnpackHints p packed i = some h) :
    tallyBefore p packed i ≤ tallyBefore p packed (i + 1) ∧
      tallyBefore p packed (i + 1) ≤ p.omega ∧
      markHints packed (tallyBefore p packed i)
        (tallyBefore p packed (i + 1) - tallyBefore p packed i) = some h ∧
      (i = p.k - 1 → ∀ j < p.omega, tallyBefore p packed (i + 1) ≤ j → packed.getD j 0 = 0) := by
  rw [mldSigUnpackHints_def] at hunpack
  by_cases hcounts : tallyBefore p packed (i + 1) < tallyBefore p packed i ∨
      tallyBefore p packed (i + 1) > p.omega
  · rw [if_pos hcounts] at hunpack
    cases hunpack
  · rw [if_neg hcounts] at hunpack
    obtain ⟨marked, hmarked, hunpack⟩ := Option.bind_eq_some_iff.mp hunpack
    by_cases htrailing : i = p.k - 1 ∧
        ∃ j < p.omega, tallyBefore p packed (i + 1) ≤ j ∧ packed.getD j 0 ≠ 0
    · rw [if_pos htrailing] at hunpack
      cases hunpack
    · rw [if_neg htrailing] at hunpack
      obtain rfl := Option.some.inj hunpack
      rw [not_or, not_lt, not_lt] at hcounts
      refine ⟨hcounts.1, hcounts.2, hmarked, fun hi j hj hle => ?_⟩
      by_contra hne
      exact htrailing ⟨hi, j, hj, hle, hne⟩

theorem rows_unique {h : Nat → Poly} {m : Nat}
    (hunpack : ∀ i < m, mldSigUnpackHints p packed i = some (h i))
    (hunpack' : ∀ i < m, mldSigUnpackHints p packed' i = some (h i)) (i : Nat) (hi : i ≤ m) :
    tallyBefore p packed i = tallyBefore p packed' i ∧
      ∀ j < tallyBefore p packed i, packed.getD j 0 = packed'.getD j 0 := by
  induction i with
  | zero => exact ⟨rfl, fun j hj => absurd hj (Nat.not_lt_zero j)⟩
  | succ i ih =>
    obtain ⟨hsame, hbelow⟩ := ih (by omega)
    obtain ⟨hle, -, hmark, -⟩ := mldSigUnpackHints_some (hunpack i hi)
    obtain ⟨hle', -, hmark', -⟩ := mldSigUnpackHints_some (hunpack' i hi)
    rw [← hsame] at hmark' hle'
    obtain ⟨hcount, hbytes⟩ := visited_bytes (visited_unique hmark hmark')
    refine ⟨by omega, fun j hj => ?_⟩
    by_cases hold : j < tallyBefore p packed i
    · exact hbelow j hold
    · have hbyte := hbytes (j - tallyBefore p packed i) (by omega)
      rwa [Nat.add_sub_cancel' (not_lt.mp hold)] at hbyte

/-- A hint section that decodes is the only one of its length that decodes to its hints. -/
theorem mldSigUnpackHints_unique (hlength : packed.length = p.omega + p.k)
    (hlength' : packed'.length = p.omega + p.k)
    (hvalid : ∀ i < p.k, (mldSigUnpackHints p packed i).isSome)
    (hsame : ∀ i < p.k, mldSigUnpackHints p packed' i = mldSigUnpackHints p packed i) :
    packed' = packed := by
  have hk : 0 < p.k := by cases p <;> decide
  have hunpack (i : Nat) (hi : i < p.k) :
      mldSigUnpackHints p packed i = some ((mldSigUnpackHints p packed i).getD fun _ => 0) := by
    obtain ⟨h, hh⟩ := Option.isSome_iff_exists.mp (hvalid i hi)
    rw [hh, Option.getD_some]
  have hunpack' (i : Nat) (hi : i < p.k) := (hsame i hi).trans (hunpack i hi)
  have hrows := rows_unique hunpack' hunpack
  obtain ⟨-, -, -, hzero⟩ := mldSigUnpackHints_some (hunpack (p.k - 1) (by omega))
  obtain ⟨-, -, -, hzero'⟩ := mldSigUnpackHints_some (hunpack' (p.k - 1) (by omega))
  rw [Nat.sub_add_cancel hk] at hzero hzero'
  have hbyte (j : Nat) (hj : j < p.omega + p.k) : packed'.getD j 0 = packed.getD j 0 := by
    by_cases hindex : j < p.omega
    · obtain ⟨htally, hbelow⟩ := hrows p.k le_rfl
      by_cases hrecorded : j < tallyBefore p packed' p.k
      · exact hbelow j hrecorded
      · rw [hzero rfl j hindex (by omega), hzero' rfl j hindex (by omega)]
    · obtain ⟨htally, -⟩ := hrows (j - p.omega + 1) (by omega)
      rw [tallyBefore, tallyBefore, if_neg (by omega), if_neg (by omega),
        show p.omega + (j - p.omega + 1) - 1 = j by omega] at htally
      exact UInt8.toNat_inj.mp htally
  apply List.ext_getElem (hlength'.trans hlength.symm)
  intro j hj' hj
  have hsame := hbyte j (hlength ▸ hj)
  rwa [List.getD_eq_getElem _ _ hj', List.getD_eq_getElem _ _ hj] at hsame

def sampleSection : List UInt8 := [7, 200, 3] ++ List.replicate 77 0 ++ [2, 2, 3, 3]

def sampleRow : Nat → Poly
  | 0 => Function.update (Function.update (fun _ => 0) 7 1) 200 1
  | 2 => Function.update (fun _ => 0) 3 1
  | _ => fun _ => 0

theorem sampleSection_rows :
    ∀ i < 4, mldSigUnpackHints .mlDsa44 sampleSection i = some (sampleRow i) := by
  decide +kernel

theorem mldSigUnpackHints_unique_sample :
    (∀ i < 4, mldSigUnpackHints .mlDsa44 sampleSection i = some (sampleRow i)) ∧
      ∀ packed : List UInt8, packed.length = 84 →
        (∀ i < 4, mldSigUnpackHints .mlDsa44 packed i = some (sampleRow i)) →
        packed = sampleSection := by
  refine ⟨sampleSection_rows, fun packed hlength hrows => ?_⟩
  refine mldSigUnpackHints_unique (p := .mlDsa44) (by decide) hlength (fun i hi => ?_)
    fun i hi => (hrows i hi).trans (sampleSection_rows i hi).symm
  rw [sampleSection_rows i hi]
  rfl

end Uniqueness

end LiberaCrypt.MlDsaHint
