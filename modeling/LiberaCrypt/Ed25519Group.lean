import LiberaCrypt.Ed25519Curve
import LiberaCrypt.Field25519Bytes
import LiberaCrypt.ModExpSecure

namespace LiberaCrypt.Ed25519Group

open LiberaCrypt.CheckedWords LiberaCrypt.CountedLoop LiberaCrypt.Ed25519 LiberaCrypt.Ed25519Curve
open LiberaCrypt.ExtendedEdwards LiberaCrypt.Field25519 LiberaCrypt.Field25519Bytes
open LiberaCrypt.Field25519Product LiberaCrypt.Field25519Subtract LiberaCrypt.Field25519Values
open LiberaCrypt.MonadicLoop LiberaCrypt.Radix LiberaCrypt.TwistedEdwards
open LiberaCrypt.WordArithmetic

variable {m : Type → Type} [Monad m] [LawfulMonad m] {W : Words m}

def coordinates (E : Extended (ZMod prime)) : Ed25519Point :=
  ⟨element E.x, element E.y, element E.z, element E.t⟩

theorem identity_eq : pointIdentity = coordinates Extended.zero := by
  rw [pointIdentity, coordinates, Extended.zero, feZero_eq, feOne_eq]

section Formulas

theorem pointAdd_coordinates (hW : Exact W) (E E' : Extended (ZMod prime)) :
    pointAdd W (coordinates E) (coordinates E') = pure (coordinates (Extended.add curveD E E')) := by
  simp only [pointAdd, coordinates, Extended.add, ed25519D2_eq, feSub_element hW, feAdd_element hW,
    feMul_element hW, pure_bind]

theorem pointDouble_coordinates (hW : Exact W) (E : Extended (ZMod prime)) :
    pointDouble W (coordinates E) = pure (coordinates E.double) := by
  simp only [pointDouble, coordinates, Extended.double, feSquare_element hW, feSub_element hW,
    feNegate_element hW, feAdd_element hW, feMul_element hW, pure_bind]

end Formulas

section Windows

def multiplesAfter (E : Extended (ZMod prime)) : Nat → Extended (ZMod prime) →
    List (Extended (ZMod prime))
  | 0, _ => []
  | n + 1, last =>
    Extended.add curveD last E :: multiplesAfter E n (Extended.add curveD last E)

def multiples (E : Extended (ZMod prime)) : List (Extended (ZMod prime)) :=
  Extended.zero :: E :: multiplesAfter E 14 E

def window (table : List (Extended (ZMod prime))) (E : Extended (ZMod prime)) (index : Nat) :
    Extended (ZMod prime) :=
  Extended.add curveD (countUp 4 (fun _ => Extended.double) E) (table.getD index Extended.zero)

def windows (table : List (Extended (ZMod prime))) (scalar : List UInt8) (i : Nat)
    (E : Extended (ZMod prime)) : Extended (ZMod prime) :=
  window table (window table E ((scalar.getD i 0).toNat / 16)) ((scalar.getD i 0).toNat % 16)

def scalarMultiple (E : Extended (ZMod prime)) (scalar : List UInt8) : Extended (ZMod prime) :=
  countDown 32 (windows (multiples E) scalar) Extended.zero

variable {E L : Extended (ZMod prime)} {table : List (Extended (ZMod prime))}
  {P : Point curveD}

theorem tableAfter_coordinates (hW : Exact W) (n : Nat) (L : Extended (ZMod prime)) :
    tableAfter W (coordinates E) n (coordinates L) =
      pure ((multiplesAfter E n L).map coordinates) := by
  induction n generalizing L with
  | zero => rfl
  | succ n ih =>
    rw [tableAfter, pointAdd_coordinates hW, pure_bind, ih, pure_bind, multiplesAfter,
      List.map_cons]

theorem windowTable_coordinates (hW : Exact W) (E : Extended (ZMod prime)) :
    windowTable W (coordinates E) = pure ((multiples E).map coordinates) := by
  rw [windowTable, tableAfter_coordinates hW, pure_bind, identity_eq, multiples, List.map_cons,
    List.map_cons]

theorem equalMaskU32_eq (left right : UInt32) :
    equalMaskU32 left right = if left = right then -1 else 0 := by
  rw [equalMaskU32, ConstantTime.nonzero_mask]
  by_cases h : left = right
  · rw [if_pos h, if_pos (by rw [h, UInt32.xor_self])]
    rfl
  · rw [if_neg h, if_neg (by rwa [UInt32.xor_eq_zero_iff])]
    rfl

theorem selectEntry_eq (c : Prop) [Decidable c] (E L : Extended (ZMod prime)) :
    selectEntry (if c then -1 else 0) (coordinates E) (coordinates L) =
      coordinates (if c then L else E) := by
  have hlength : ∀ x y : ZMod prime, (element x).length = (element y).length := fun x y =>
    (element_length x).trans (element_length y).symm
  split_ifs <;> simp only [selectEntry, coordinates, selectRow_ones (hlength _ _),
    selectRow_zeros (hlength _ _)]

theorem pointSelect_coordinates {index : UInt32}
    (hindex : index.toNat < 16) :
    pointSelect (table.map coordinates) index =
      coordinates (table.getD index.toNat Extended.zero) := by
  have hloop := countUp_invariant (fun i (out : Ed25519Point) => out = coordinates
      (if index.toNat < i then table.getD index.toNat Extended.zero else Extended.zero))
    (n := 16) (s := pointIdentity) (f := fun tableIndex out =>
      selectEntry (equalMaskU32 (UInt32.ofNat tableIndex) index) out
        ((table.map coordinates).getD tableIndex pointIdentity)) identity_eq ?_
  · rw [if_pos hindex] at hloop
    exact hloop
  · rintro i hi out rfl
    have hentry : (table.map coordinates).getD i pointIdentity =
        coordinates (table.getD i Extended.zero) := by
      rw [identity_eq, List.getD_map]
    have hofNat : (UInt32.ofNat i).toNat = i := UInt32.toNat_ofNat_of_lt' (hi.trans (by decide))
    have hsame : UInt32.ofNat i = index ↔ index.toNat = i := by
      rw [← UInt32.toNat_inj, hofNat, eq_comm]
    rw [hentry, equalMaskU32_eq, selectEntry_eq]
    congr 1
    by_cases h : index.toNat = i
    · rw [if_pos (hsame.mpr h), if_pos (by omega), h]
    · rw [if_neg (mt hsame.mp h)]
      exact if_congr (by omega) rfl rfl

theorem pointProcessWindow_coordinates (hW : Exact W)
    (E : Extended (ZMod prime)) {index : UInt32} (hindex : index.toNat < 16) :
    pointProcessWindow W (table.map coordinates) (coordinates E) index =
      pure (coordinates (window table E index.toNat)) := by
  rw [pointProcessWindow, countUpM_pure fun i _ E => pointDouble_coordinates hW E, pure_bind,
    pointSelect_coordinates hindex, pointAdd_coordinates hW, window]

theorem processByte_coordinates (hW : Exact W) (scalar : List UInt8) (i : Nat)
    (E : Extended (ZMod prime)) :
    processByte W (table.map coordinates) scalar i (coordinates E) =
      pure (coordinates (windows table scalar i E)) := by
  have hbyte := (scalar.getD i 0).toNat_lt
  have hhigh : ((scalar.getD i 0).toUInt32 >>> 4).toNat = (scalar.getD i 0).toNat / 16 :=
    toNat_shift32 _ 4 (by decide)
  have hlow : ((scalar.getD i 0).toUInt32 &&& 0x0f).toNat = (scalar.getD i 0).toNat % 16 :=
    toNat_mask32 _ 0x0f (k := 4) rfl
  rw [processByte, pointProcessWindow_coordinates hW E (by omega), pure_bind,
    pointProcessWindow_coordinates hW _ (by omega), hhigh, hlow, windows]

theorem pointScalarMultiply_coordinates (hW : Exact W) (E : Extended (ZMod prime))
    (scalar : List UInt8) :
    pointScalarMultiply W (coordinates E) scalar = pure (coordinates (scalarMultiple E scalar)) := by
  rw [pointScalarMultiply, windowTable_coordinates hW, pure_bind, identity_eq,
    countDownM_pure fun i _ E => processByte_coordinates hW scalar i E, scalarMultiple]

theorem multiplesAfter_represents (hE : E.Represents P) {n k : Nat} (hL : L.Represents (k • P))
    {i : Nat} (hi : i < n) :
    ((multiplesAfter E n L).getD i Extended.zero).Represents ((k + 1 + i) • P) := by
  induction n generalizing k L i with
  | zero => exact absurd hi (Nat.not_lt_zero i)
  | succ n ih =>
    have hnext : (Extended.add curveD L E).Represents ((k + 1) • P) := by
      rw [succ_nsmul]
      exact hL.add hE
    cases i with
    | zero => exact hnext
    | succ i =>
      have hrest := ih hnext (Nat.lt_of_succ_lt_succ hi)
      rwa [show k + 1 + 1 + i = k + 1 + (i + 1) by ring] at hrest

theorem multiples_represents (hE : E.Represents P) {i : Nat} (hi : i < 16) :
    ((multiples E).getD i Extended.zero).Represents (i • P) := by
  match i with
  | 0 =>
    rw [zero_nsmul]
    exact zero_represents
  | 1 =>
    rw [one_nsmul]
    exact hE
  | i + 2 =>
    have hentry := multiplesAfter_represents hE (k := 1) (n := 14) (i := i)
      (by rwa [one_nsmul]) (by omega)
    rwa [show 1 + 1 + i = i + 2 by ring] at hentry

theorem window_represents (hE : E.Represents P) {k : Nat} (hL : L.Represents (k • P)) {i : Nat}
    (hi : i < 16) : (window (multiples E) L i).Represents ((16 * k + i) • P) := by
  have hdouble : ∀ {A : Extended (ZMod prime)} {j : Nat}, A.Represents (j • P) →
      A.double.Represents ((2 * j) • P) := by
    intro A j hA
    rw [two_mul, add_nsmul]
    exact hA.double
  have hfour := hdouble (hdouble (hdouble (hdouble hL)))
  have hsum := hfour.add (multiples_represents hE hi)
  rwa [← add_nsmul, show 2 * (2 * (2 * (2 * k))) + i = 16 * k + i by ring] at hsum

/-- After the bytes from the top down to `i` the accumulator stands for what they spell. -/
theorem scalarMultiple_represents (hE : E.Represents P) {scalar : List UInt8}
    (hlength : scalar.length = 32) :
    (scalarMultiple E scalar).Represents (bytesValue scalar • P) := by
  have hlt := bytesValue_lt scalar
  have hloop := countDown_invariant (fun i (A : Extended (ZMod prime)) =>
      A.Represents ((bytesValue scalar / 256 ^ i) • P)) (n := 32) (s := Extended.zero)
    (f := windows (multiples E) scalar) ?_ ?_
  · rwa [pow_zero, Nat.div_one] at hloop
  · rw [hlength] at hlt
    rw [Nat.div_eq_of_lt hlt, zero_nsmul]
    exact zero_represents
  · intro i hi A hA
    have hbyte := (scalar.getD i 0).toNat_lt
    have hhigh := window_represents hE hA (i := (scalar.getD i 0).toNat / 16) (by omega)
    have hlow := window_represents hE hhigh (i := (scalar.getD i 0).toNat % 16) (by omega)
    have hdigit := getD_toNat scalar i
    have hsplit : bytesValue scalar / 256 ^ (i + 1) = bytesValue scalar / 256 ^ i / 256 := by
      rw [pow_succ, Nat.div_div_eq_div_mul]
    have hvalue : 16 * (16 * (bytesValue scalar / 256 ^ (i + 1)) + (scalar.getD i 0).toNat / 16) +
        (scalar.getD i 0).toNat % 16 = bytesValue scalar / 256 ^ i := by
      rw [hsplit]
      omega
    rwa [hvalue] at hlow

end Windows

section Points

def values (P : Ed25519Point) : Extended (ZMod prime) :=
  ⟨residue P.x, residue P.y, residue P.z, residue P.t⟩

/-- Extended coordinates on the curve: canonical limbs, and a `t` that belongs to the others. -/
structure CurvePoint where
  point : Ed25519Point
  x : Canonical point.x
  y : Canonical point.y
  z : Canonical point.z
  t : Canonical point.t
  valid : (values point).Valid curveD

def CurvePoint.affine (P : CurvePoint) : Point curveD := P.valid.affine

theorem CurvePoint.point_eq (P : CurvePoint) : P.point = coordinates (values P.point) := by
  apply Ed25519Point.ext
  · exact P.x.eq_element rfl
  · exact P.y.eq_element rfl
  · exact P.z.eq_element rfl
  · exact P.t.eq_element rfl

theorem values_coordinates (E : Extended (ZMod prime)) : values (coordinates E) = E := by
  simp only [values, coordinates, residue_element]

theorem curvePoint_of_represents {E : Extended (ZMod prime)} {p : Point curveD}
    (h : E.Represents p) : ∃ R : CurvePoint, coordinates E = R.point ∧ R.affine = p := by
  have hstands : (values (coordinates E)).Represents p := by
    rw [values_coordinates]
    exact h
  exact ⟨⟨coordinates E, element_canonical _, element_canonical _, element_canonical _,
    element_canonical _, hstands.valid⟩, rfl, hstands.valid.represents.unique hstands⟩

def basePoint : CurvePoint where
  point := pointBase
  x := constants_canonical (by simp [pointBase])
  y := constants_canonical (by simp [pointBase])
  z := canonical_iff.mpr ⟨1, feOne_eq⟩
  t := constants_canonical (by simp [pointBase])
  valid := by
    have hone : residue feOne = 1 := by rw [feOne_eq, residue_element]
    obtain ⟨-, -, -, -, hcurve, hproduct, -⟩ := constants_check
    rw [← ZMod.natCast_eq_natCast_iff'] at hcurve hproduct
    push_cast at hcurve hproduct
    refine ⟨?_, ?_, ?_⟩
    · exact hone.trans_ne one_ne_zero
    · simp only [values, pointBase, hone]
      simp only [curveD, residue]
      linear_combination hcurve
    · simp only [values, pointBase, hone]
      simp only [residue]
      linear_combination hproduct

/-- The results of the ring's operations, which are canonical and do not wrap. -/
theorem ringArithmetic_exact {a b : FieldElement} (ha : Canonical a) (hb : Canonical b) :
    (∃ r, feAdd machine a b = r ∧ feAdd checked a b = some r ∧ Canonical r ∧
      residue r = residue a + residue b) ∧
    (∃ r, feSub machine a b = r ∧ feSub checked a b = some r ∧ Canonical r ∧
      residue r = residue a - residue b) ∧
    ∃ r, feMul machine a b = r ∧ feMul checked a b = some r ∧ Canonical r ∧
      residue r = residue a * residue b := by
  obtain ⟨x, rfl⟩ := canonical_iff.mp ha
  obtain ⟨y, rfl⟩ := canonical_iff.mp hb
  simp only [residue_element]
  exact ⟨⟨_, feAdd_element machine_exact x y, feAdd_element checked_exact x y,
      element_canonical _, residue_element _⟩,
    ⟨_, feSub_element machine_exact x y, feSub_element checked_exact x y,
      element_canonical _, residue_element _⟩,
    ⟨_, feMul_element machine_exact x y, feMul_element checked_exact x y,
      element_canonical _, residue_element _⟩⟩

theorem feInvert_exact {a : FieldElement} (ha : Canonical a) :
    ∃ r, feInvert machine a = r ∧ feInvert checked a = some r ∧ Canonical r ∧
      residue r = residue a ^ (prime - 2) := by
  obtain ⟨x, rfl⟩ := canonical_iff.mp ha
  rw [residue_element]
  exact ⟨_, feInvert_element machine_exact x, feInvert_element checked_exact x,
    element_canonical _, residue_element _⟩

/-- The sum, the double and every multiple of points in extended coordinates, again in canonical
extended coordinates, with no word that wraps on the way. -/
theorem groupArithmetic_exact (P Q : CurvePoint) {scalar : List UInt8}
    (hscalar : scalar.length = 32) :
    (∃ R : CurvePoint, pointAdd machine P.point Q.point = R.point ∧
      pointAdd checked P.point Q.point = some R.point ∧ R.affine = P.affine + Q.affine) ∧
    (∃ R : CurvePoint, pointDouble machine P.point = R.point ∧
      pointDouble checked P.point = some R.point ∧ R.affine = P.affine + P.affine) ∧
    (∃ R : CurvePoint, pointScalarMultiply machine P.point scalar = R.point ∧
      pointScalarMultiply checked P.point scalar = some R.point ∧
      R.affine = bytesValue scalar • P.affine) ∧
    ∀ a b : FieldElement, Canonical a → Canonical b →
      (∃ r, feAdd machine a b = r ∧ feAdd checked a b = some r ∧ Canonical r ∧
        residue r = residue a + residue b) ∧
      (∃ r, feSub machine a b = r ∧ feSub checked a b = some r ∧ Canonical r ∧
        residue r = residue a - residue b) ∧
      (∃ r, feMul machine a b = r ∧ feMul checked a b = some r ∧ Canonical r ∧
        residue r = residue a * residue b) ∧
      ∃ r, feInvert machine a = r ∧ feInvert checked a = some r ∧ Canonical r ∧
        residue r = residue a ^ (prime - 2) := by
  have hP := P.valid.represents
  have hQ := Q.valid.represents
  refine ⟨?_, ?_, ?_, fun a b ha hb => ?_⟩
  · obtain ⟨R, hR, hsum⟩ := curvePoint_of_represents (hP.add hQ)
    rw [P.point_eq, Q.point_eq, pointAdd_coordinates machine_exact,
      pointAdd_coordinates checked_exact]
    exact ⟨R, hR, congrArg some hR, hsum⟩
  · obtain ⟨R, hR, hdouble⟩ := curvePoint_of_represents hP.double
    rw [P.point_eq, pointDouble_coordinates machine_exact, pointDouble_coordinates checked_exact]
    exact ⟨R, hR, congrArg some hR, hdouble⟩
  · obtain ⟨R, hR, hmultiple⟩ :=
      curvePoint_of_represents (scalarMultiple_represents hP hscalar)
    rw [P.point_eq, pointScalarMultiply_coordinates machine_exact,
      pointScalarMultiply_coordinates checked_exact]
    exact ⟨R, hR, congrArg some hR, hmultiple⟩
  · obtain ⟨hadd, hsub, hmul⟩ := ringArithmetic_exact ha hb
    exact ⟨hadd, hsub, hmul, feInvert_exact ha⟩

theorem groupArithmetic_exact_base :
    ∃ R : CurvePoint, pointScalarMultiply machine pointBase (List.replicate 32 0xff) = R.point ∧
      pointScalarMultiply checked pointBase (List.replicate 32 0xff) = some R.point ∧
      R.affine = bytesValue (List.replicate 32 0xff) • basePoint.affine :=
  (groupArithmetic_exact basePoint basePoint (List.length_replicate ..)).2.2.1

end Points

end LiberaCrypt.Ed25519Group
