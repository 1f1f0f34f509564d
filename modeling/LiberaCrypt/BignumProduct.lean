import LiberaCrypt.Bignum
import LiberaCrypt.BignumSquare

namespace LiberaCrypt.BignumProduct

open LiberaCrypt.Outcome LiberaCrypt.Allocation LiberaCrypt.Limbs LiberaCrypt.Bignum
open LiberaCrypt.BignumMul LiberaCrypt.BignumSquare LiberaCrypt.BignumObjects

/-- A product whose output is one of the factors is formed in a temporary. -/
def cryptoBignumMulAt (out a b : Nat) (objects : Objects) : Fallible Objects :=
  writeTo out objects
    (cryptoBignumMul (objects out) (objects a) (objects b) (decide (out = a ∨ out = b)))

def cryptoBignumSquareAt (out a : Nat) (objects : Objects) : Fallible Objects :=
  writeTo out objects (cryptoBignumSquare (objects out) (objects a) (decide (out = a)))

section Workspace

def readWords (workspace : List UInt32) (offset length : Nat) : Option (List UInt32) :=
  if offset + length ≤ workspace.length then some ((workspace.drop offset).take length) else none

def writeWords (workspace : List UInt32) (offset : Nat) (words : List UInt32) :
    Option (List UInt32) :=
  if offset + words.length ≤ workspace.length then
    some (workspace.take offset ++ words ++ workspace.drop (offset + words.length))
  else none

theorem take_drop_below (l : List UInt32) {o n m : Nat} (h : o + n ≤ m) :
    ((l.take m).drop o).take n = (l.drop o).take n := by
  rw [List.drop_take, List.take_take, Nat.min_eq_left (by omega)]

/-- A sub-buffer keeps what is written to it, and the words beside it are left alone. -/
theorem writeWords_some (workspace words : List UInt32) (offset : Nat)
    (h : offset + words.length ≤ workspace.length) :
    ∃ after, writeWords workspace offset words = some after ∧
      after.length = workspace.length ∧ readWords after offset words.length = some words ∧
      ∀ o n, o + n ≤ offset ∨ offset + words.length ≤ o →
        readWords after o n = readWords workspace o n := by
  have htake : (workspace.take offset).length = offset := by
    rw [List.length_take]
    omega
  have hlength : (workspace.take offset ++ words ++
      workspace.drop (offset + words.length)).length = workspace.length := by
    rw [List.length_append, List.length_append, htake, List.length_drop]
    omega
  refine ⟨_, if_pos h, hlength, ?_, ?_⟩
  · unfold readWords
    rw [if_pos (by rw [hlength]; exact h), List.append_assoc, List.drop_left' htake,
      List.take_left' rfl]
  · intro o n hbeside
    unfold readWords
    rw [hlength]
    rcases hbeside with hbelow | habove
    · have hprefix : (workspace.take offset ++ words ++
          workspace.drop (offset + words.length)).take offset = workspace.take offset := by
        rw [List.append_assoc, List.take_left' htake]
      rw [← take_drop_below _ hbelow, hprefix, take_drop_below _ hbelow]
    · obtain ⟨d, rfl⟩ := Nat.exists_eq_add_of_le habove
      have hsuffix : (workspace.take offset ++ words ++
          workspace.drop (offset + words.length)).drop (offset + words.length) =
            workspace.drop (offset + words.length) := by
        apply List.drop_left'
        rw [List.length_append, htake]
      rw [← List.drop_drop, hsuffix, List.drop_drop]

end Workspace

/-- The sub-buffers of a split of `n` limbs and their lengths, one after the other. -/
structure Layout where
  z0 : Nat
  z0Capacity : Nat
  z2 : Nat
  z2Capacity : Nat
  sumA : Nat
  sumB : Nat
  sumLength : Nat
  z1 : Nat
  z1Capacity : Nat

def layout (n : Nat) : Layout :=
  let lowLength := n / 2
  let highLength := n - lowLength
  let sumLength := highLength + 1
  { z0 := 0
    z0Capacity := 2 * lowLength
    z2 := 2 * lowLength
    z2Capacity := 2 * highLength
    sumA := 2 * lowLength + 2 * highLength
    sumB := 2 * lowLength + 2 * highLength + sumLength
    sumLength := sumLength
    z1 := 2 * lowLength + 2 * highLength + sumLength + sumLength
    z1Capacity := 2 * sumLength }

/-- The lengths of the three terms, with the workspace that holds them. -/
structure Terms where
  workspace : List UInt32
  z0Length : Nat
  z1Length : Nat
  z2Length : Nat

/-- The split on its workspace: every read and write lies inside it, or there is no result. -/
def karatsubaInWorkspace (workspace a b : List UInt32) : Option Terms := do
  let lowLength := a.length / 2
  let at_ := layout a.length
  let w ← writeWords workspace at_.z0 (bignumSchoolbookWords (a.take lowLength) (b.take lowLength))
  let w ← writeWords w at_.z2 (bignumSchoolbookWords (a.drop lowLength) (b.drop lowLength))
  let w ← writeWords w at_.sumA
    (← bignumAddHalves at_.sumLength (a.take lowLength) (a.drop lowLength))
  let w ← writeWords w at_.sumB
    (← bignumAddHalves at_.sumLength (b.take lowLength) (b.drop lowLength))
  let sumA ← readWords w at_.sumA at_.sumLength
  let sumB ← readWords w at_.sumB at_.sumLength
  let w ← writeWords w at_.z1 (bignumSchoolbookWords sumA sumB)
  let z0 ← readWords w at_.z0 at_.z0Capacity
  let z2 ← readWords w at_.z2 at_.z2Capacity
  let z0Length := bignumWordsLength z0 at_.z0Capacity
  let z2Length := bignumWordsLength z2 at_.z2Capacity
  let z1 ← readWords w at_.z1 at_.z1Capacity
  let w ← writeWords w at_.z1 (← bignumSubtractWords z1 (← readWords w at_.z0 z0Length))
  let z1 ← readWords w at_.z1 at_.z1Capacity
  let w ← writeWords w at_.z1 (← bignumSubtractWords z1 (← readWords w at_.z2 z2Length))
  let z1 ← readWords w at_.z1 at_.z1Capacity
  some ⟨w, z0Length, bignumWordsLength z1 at_.z1Capacity, z2Length⟩

theorem readWords_take {w words : List UInt32} {o n m : Nat} (h : readWords w o n = some words)
    (hm : m ≤ n) : readWords w o m = some (words.take m) := by
  unfold readWords at h ⊢
  split at h
  case isTrue hfit =>
    rw [if_pos (by omega), ← Option.some.inj h, List.take_take, Nat.min_eq_left hm]
  case isFalse => exact absurd h (by simp)

theorem some_bind {α β : Type} (a : α) (f : α → Option β) : (some a >>= f) = f a := rfl

theorem stripWords_read {w words : List UInt32} {o n : Nat} (hlength : words.length = n)
    (h : readWords w o n = some words) :
    readWords w o (bignumWordsLength words n) = some (stripWords words) := by
  rw [readWords_take h bignumWordsLength_le, stripWords, hlength]

/-- On a workspace of `4n + 8` words, whatever they hold, the split goes through and leaves the
terms in their sub-buffers. -/
theorem karatsubaInWorkspace_some {x y workspace : List UInt32} {n : Nat} (hx : x.length = n)
    (hy : y.length = n) (hw : workspace.length = 4 * n + 8) :
    ∃ terms z0 z1 z2, karatsubaInWorkspace workspace x y = some terms ∧
      karatsubaTerms x y = some (z0, z1, z2) ∧
      readWords terms.workspace (layout n).z0 terms.z0Length = some z0 ∧
      readWords terms.workspace (layout n).z1 terms.z1Length = some z1 ∧
      readWords terms.workspace (layout n).z2 terms.z2Length = some z2 := by
  obtain ⟨sumA, sumB, d, z1, h⟩ := split_exists hx hy
  have hterms : karatsubaTerms x y =
      some (stripWords (bignumSchoolbookWords (x.take (n / 2)) (y.take (n / 2))), stripWords z1,
        stripWords (bignumSchoolbookWords (x.drop (n / 2)) (y.drop (n / 2)))) := by
    simp only [karatsubaTerms, hx, h.halvesA, h.halvesB, h.lessLow, h.lessHigh,
      Option.bind_eq_bind, Option.bind_some]
  have hlen0 : (bignumSchoolbookWords (x.take (n / 2)) (y.take (n / 2))).length = 2 * (n / 2) := by
    rw [bignumSchoolbookWords_length, take_half_length hx, take_half_length hy, Nat.two_mul]
  have hlen2 : (bignumSchoolbookWords (x.drop (n / 2)) (y.drop (n / 2))).length =
      2 * (n - n / 2) := by
    rw [bignumSchoolbookWords_length, drop_half_length hx, drop_half_length hy, Nat.two_mul]
  have hlenm : (bignumSchoolbookWords sumA sumB).length = 2 * (n - n / 2 + 1) := by
    rw [bignumSchoolbookWords_length, h.sumA_length, h.sumB_length, Nat.two_mul]
  have hlend : d.length = 2 * (n - n / 2 + 1) := by rw [h.lessLow_length, Nat.two_mul]
  have hlen1 : z1.length = 2 * (n - n / 2 + 1) := by rw [h.lessHigh_length, Nat.two_mul]
  have hlenA := h.sumA_length
  have hlenB := h.sumB_length
  have hA := h.halvesA
  have hB := h.halvesB
  generalize hz0 : bignumSchoolbookWords (x.take (n / 2)) (y.take (n / 2)) = z0 at *
  generalize hz2 : bignumSchoolbookWords (x.drop (n / 2)) (y.drop (n / 2)) = z2 at *
  have hless := h.lessLow
  have hless' := h.lessHigh
  rw [hz0] at hless
  rw [hz2] at hless'
  generalize hlow : n / 2 = low at *
  generalize hhigh : n - low = high at *
  have hsum : low + high = n := by omega
  -- the sub-buffers lie side by side, each as long as what is written to it
  obtain ⟨w1, hw1, l1, r1, f1⟩ := writeWords_some workspace z0 0 (by omega)
  obtain ⟨w2, hw2, l2, r2, f2⟩ := writeWords_some w1 z2
    (2 * low) (by omega)
  obtain ⟨w3, hw3, l3, r3, f3⟩ := writeWords_some w2 sumA
    (2 * low + 2 * high) (by omega)
  obtain ⟨w4, hw4, l4, r4, f4⟩ := writeWords_some w3 sumB
    (2 * low + 2 * high + (high + 1)) (by omega)
  obtain ⟨w5, hw5, l5, r5, f5⟩ := writeWords_some w4 (bignumSchoolbookWords sumA sumB)
    (2 * low + 2 * high + (high + 1) + (high + 1)) (by omega)
  obtain ⟨w6, hw6, l6, r6, f6⟩ := writeWords_some w5 d
    (2 * low + 2 * high + (high + 1) + (high + 1)) (by omega)
  obtain ⟨w7, hw7, l7, r7, f7⟩ := writeWords_some w6 z1
    (2 * low + 2 * high + (high + 1) + (high + 1)) (by omega)
  rw [hlen0] at r1
  rw [hlen2] at r2
  rw [hlenA] at r3
  rw [hlenB] at r4
  rw [hlenm] at r5
  rw [hlend] at r6
  rw [hlen1] at r7
  have hsumA : readWords w4 (2 * low + 2 * high) (high + 1) = some sumA :=
    (f4 _ _ (by omega)).trans r3
  have hz0' : readWords w5 0 (2 * low) = some z0 := by
    rw [f5 _ _ (by omega), f4 _ _ (by omega), f3 _ _ (by omega), f2 _ _ (by omega), r1]
  have hz2' : readWords w5 (2 * low) (2 * high) = some z2 := by
    rw [f5 _ _ (by omega), f4 _ _ (by omega), f3 _ _ (by omega), r2]
  have hstrip0 := stripWords_read hlen0 hz0'
  have hstrip2 : readWords w6 (2 * low) (bignumWordsLength z2 (2 * high)) =
      some (stripWords z2) := by
    have hle := bignumWordsLength_le (w := z2) (n := 2 * high)
    rw [f6 _ _ (by omega)]
    exact stripWords_read hlen2 hz2'
  refine ⟨⟨w7, bignumWordsLength z0 (2 * low), bignumWordsLength z1 (2 * (high + 1)),
    bignumWordsLength z2 (2 * high)⟩, _, _, _, ?_, hterms, ?_, ?_, ?_⟩
  · unfold karatsubaInWorkspace
    simp only [layout, hx, hlow, hhigh]
    rw [hz0, hw1, some_bind, hz2, hw2, some_bind, hA, some_bind, hw3, some_bind, hB, some_bind,
      hw4, some_bind, hsumA, some_bind, r4, some_bind, hw5, some_bind, hz0', some_bind, hz2',
      some_bind, r5, some_bind, hstrip0, some_bind, hless, some_bind, hw6, some_bind, r6,
      some_bind, hstrip2, some_bind, hless', some_bind, hw7, some_bind, r7, some_bind]
  · have hle := bignumWordsLength_le (w := z0) (n := 2 * low)
    simp only [layout]
    rw [f7 _ _ (by omega), f6 _ _ (by omega)]
    exact hstrip0
  · simp only [layout, hlow, hhigh]
    exact stripWords_read hlen1 r7
  · have hle := bignumWordsLength_le (w := z2) (n := 2 * high)
    simp only [layout, hlow]
    rw [f7 _ _ (by omega)]
    exact hstrip2

/-- The terms of a split add up to the limbs of the schoolbook product. -/
theorem karatsubaSum_schoolbook {x y z0 z1 z2 : List UInt32} {n : Nat} (hx : x.length = n)
    (hy : y.length = n) (hterms : karatsubaTerms x y = some (z0, z1, z2)) :
    karatsubaSum n z0 z1 z2 = some (bignumSchoolbookWords x y) := by
  obtain ⟨z0', z1', z2', product, hterms', hsum, hlength, hvalue⟩ := karatsuba_product hx hy
  rw [hterms] at hterms'
  obtain ⟨rfl, rfl, rfl⟩ : z0 = z0' ∧ z1 = z1' ∧ z2 = z2' := by simpa using hterms'
  rw [hsum]
  apply congrArg some
  apply wordsValue_injective
  · rw [hlength, bignumSchoolbookWords_length, hx, hy, Nat.two_mul]
  · rw [hvalue, bignumSchoolbookWords_value]

/-- The product is written to any of the three objects. The split of two factors of one length
loses nothing on its way, stays inside its workspace and ends with the schoolbook limbs. -/
theorem bignumMul_exact (objects : Objects) (out a b room : Nat) (hout : (objects out).Valid)
    (ha : (objects a).Valid) (hb : (objects b).Valid)
    (hroom : 4 * ((objects a).length + (objects b).length) ≤ room) :
    Ensures room (cryptoBignumMulAt out a b objects) (fun after =>
      ((after out).Valid ∧ (after out).value = (objects a).value * (objects b).value) ∧
      ∀ other, other ≠ out → after other = objects other) ∧
    ∀ x y workspace : List UInt32, y.length = x.length →
      workspace.length = 4 * x.length + 8 →
      ∃ terms z0 z1 z2, karatsubaInWorkspace workspace x y = some terms ∧
        readWords terms.workspace (layout x.length).z0 terms.z0Length = some z0 ∧
        readWords terms.workspace (layout x.length).z1 terms.z1Length = some z1 ∧
        readWords terms.workspace (layout x.length).z2 terms.z2Length = some z2 ∧
        karatsubaTerms x y = some (z0, z1, z2) ∧
        karatsubaSum x.length z0 z1 z2 = some (bignumSchoolbookWords x y) ∧
        (bignumSchoolbookWords x y).length = 2 * x.length := by
  constructor
  · exact writeTo_ensures (cryptoBignumMul_ensures hout ha hb _ hroom)
  · intro x y workspace hlength hworkspace
    obtain ⟨terms, z0, z1, z2, hrun, hterms, h0, h1, h2⟩ :=
      karatsubaInWorkspace_some rfl hlength hworkspace
    refine ⟨terms, z0, z1, z2, hrun, h0, h1, h2, hterms, karatsubaSum_schoolbook rfl hlength hterms,
      ?_⟩
    rw [bignumSchoolbookWords_length, hlength, Nat.two_mul]

theorem bignumMul_exact_aliased :
    Ensures 1000 (cryptoBignumMulAt 0 0 0 fun _ => ⟨List.replicate 97 7, 97⟩) (fun after =>
      ((after 0).Valid ∧ (after 0).value =
        LiberaCBignum.value ⟨List.replicate 97 7, 97⟩ *
          LiberaCBignum.value ⟨List.replicate 97 7, 97⟩) ∧
      ∀ other, other ≠ 0 → after other = ⟨List.replicate 97 7, 97⟩) := by
  have hvalid : LiberaCBignum.Valid ⟨List.replicate 97 7, 97⟩ :=
    ⟨by decide, fun i hi => List.getD_eq_default _ _ hi, by decide⟩
  exact (bignumMul_exact (fun _ => ⟨List.replicate 97 7, 97⟩) 0 0 0 1000 hvalid hvalid hvalid
    (by decide)).1

section Never

variable {α β : Type} {x : Fallible α} {f : α → Fallible β} {status e : LiberaCError}

def Never (x : Fallible α) (status : LiberaCError) : Prop :=
  ∀ host k, outcome x host k ≠ .error status

theorem Never.pure (a : α) : Never (pure a : Fallible α) status := by
  intro host k h
  change Except.ok a = Except.error status at h
  cases h

theorem Never.throw (h : e ≠ status) : Never (throw e : Fallible α) status := by
  intro host k hthrow
  exact h (Except.error.inj hthrow)

theorem Never.bind (hx : Never x status) (hf : ∀ a, Never (f a) status) :
    Never (x >>= f) status := by
  intro host k
  have h := hx host k
  rw [outcome_bind]
  unfold outcome at h
  rcases hrun : x host k with ⟨r | r, k'⟩
  · rw [hrun] at h
    intro heq
    exact h (congrArg Except.error (Except.error.inj heq))
  · exact hf r host k'

theorem Never.reported (h : e ≠ status) : Never (reported x e) status := by
  intro host k
  unfold Allocation.reported
  rw [outcome_recover]
  rcases x host k with ⟨r | r, k'⟩
  · exact Never.throw h host k'
  · simp

end Never

theorem bignumSquareNoalias_never {out a : LiberaCBignum} (ha : a.Valid) :
    Never (bignumSquareNoalias out a) .arithmetic := by
  obtain ⟨square, hsquare, -, -⟩ := squareRows_words ha
  unfold bignumSquareNoalias
  dsimp only
  split_ifs with hz hlong
  · exact Never.pure _
  · exact Never.throw (by decide)
  · apply (Never.reported (by decide)).bind
    intro grown
    rw [hsquare]
    exact Never.pure _

theorem words_eq_of_value {a b : LiberaCBignum} (ha : a.Valid) (hb : b.Valid)
    (h : a.value = b.value) : a.words = b.words := by
  apply wordsValue_injective _ h
  rw [ha.words_length, hb.words_length]
  exact Nat.le_antisymm (ha.length_le_of_value h.le) (hb.length_le_of_value h.ge)

/-- The square is that of the multiplication, over its input or not, and every doubled cross
product is accumulated whole. -/
theorem bignumSquare_exact (objects : Objects) (out a other room : Nat)
    (hout : (objects out).Valid) (ha : (objects a).Valid) (hother : (objects other).Valid)
    (hroom : 8 * (objects a).length ≤ room) :
    Ensures room (cryptoBignumSquareAt out a objects) (fun after =>
      ((after out).Valid ∧ (after out).value = (objects a).value * (objects a).value) ∧
      ∀ another, another ≠ out → after another = objects another) ∧
    Ensures room (do
        let square ← cryptoBignumSquareAt out a objects
        let product ← cryptoBignumMulAt other a a objects
        pure (square out, product other)) (fun r => r.1.words = r.2.words) ∧
    Never (cryptoBignumSquareAt out a objects) .arithmetic ∧
    (∃ square, squareRows (objects a).words 0 (List.replicate (2 * (objects a).length) 0) =
        some square ∧ square.length = 2 * (objects a).length ∧
        wordsValue square = (objects a).value * (objects a).value) ∧
    ∀ (limbs : List UInt32) (offset : Nat) (product : UInt64), offset < limbs.length →
      wordsValue limbs + wordBase ^ offset * (2 * product.toNat) < wordBase ^ limbs.length →
      ∃ sum, bignumSquareAddDoubleProduct limbs offset product = some sum ∧
        sum.length = limbs.length ∧
        wordsValue sum = wordsValue limbs + wordBase ^ offset * (2 * product.toNat) := by
  have hsquare := cryptoBignumSquare_ensures hout ha (decide (out = a)) hroom
  simp only [pow_two] at hsquare
  have hmul := @cryptoBignumMul_ensures _ _ _ room hother ha ha (decide (other = a ∨ other = a))
    (by omega)
  refine ⟨writeTo_ensures hsquare, ?_, ?_, ?_, ?_⟩
  · apply (@writeTo_ensures room objects out _ _ hsquare).bind
    rintro square ⟨⟨hvalid, hvalue⟩, -⟩
    apply (@writeTo_ensures room objects other _ _ hmul).bind
    rintro product ⟨⟨hvalid', hvalue'⟩, -⟩
    exact Ensures.pure (words_eq_of_value hvalid hvalid' (hvalue.trans hvalue'.symm))
  · apply Never.bind (bignumSquareNoalias_never ha)
    intro r
    exact Never.pure _
  · obtain ⟨square, hrows, hlength, hvalue⟩ := squareRows_words ha
    exact ⟨square, hrows, hlength, hvalue.trans (pow_two _)⟩
  · intro limbs offset product hoffset hfits
    exact bignumSquareAddDoubleProduct_some hoffset hfits

theorem bignumSquare_exact_aliased :
    Ensures 100 (cryptoBignumSquareAt 0 0 fun _ => ⟨List.replicate 3 0xffffffff, 3⟩) (fun after =>
      ((after 0).Valid ∧ (after 0).value = (2 ^ 96 - 1) * (2 ^ 96 - 1)) ∧
      ∀ another, another ≠ 0 → after another = ⟨List.replicate 3 0xffffffff, 3⟩) := by
  have hvalid : LiberaCBignum.Valid ⟨List.replicate 3 0xffffffff, 3⟩ :=
    ⟨by decide, fun i hi => List.getD_eq_default _ _ hi, by decide⟩
  exact (bignumSquare_exact (fun _ => ⟨List.replicate 3 0xffffffff, 3⟩) 0 0 0 100 hvalid hvalid
    hvalid (by decide)).1

end LiberaCrypt.BignumProduct
