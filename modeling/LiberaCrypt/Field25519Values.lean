import LiberaCrypt.Field25519
import Mathlib.Data.ZMod.Basic

namespace LiberaCrypt.Field25519Values

open LiberaCrypt.CheckedWords LiberaCrypt.Field25519 LiberaCrypt.Radix

def prime : Nat := 2 ^ 255 - 19

instance : NeZero prime := ⟨by decide⟩

def limbsValue (limbs : List UInt32) : Nat := Nat.ofDigits 65536 (limbs.map UInt32.toNat)

def wideValue (limbs : List UInt64) : Nat := Nat.ofDigits 65536 (limbs.map UInt64.toNat)

def Below (bound : Nat) (limbs : List UInt32) : Prop := ∀ x ∈ limbs, x.toNat < bound

def WideBelow (bound : Nat) (limbs : List UInt64) : Prop := ∀ x ∈ limbs, x.toNat < bound

/-- Sixteen limbs of sixteen bits, below the prime. -/
structure Canonical (a : FieldElement) : Prop where
  length : a.length = 16
  below : Below 65536 a
  lt : limbsValue a < prime

def element (x : ZMod prime) : FieldElement :=
  (List.range 16).map fun i => UInt32.ofNat (x.val / 65536 ^ i % 65536)

variable {x y : UInt32} {xs ys : List UInt32} {bound : Nat}

@[simp] theorem limbsValue_nil : limbsValue [] = 0 := rfl

@[simp] theorem wideValue_nil : wideValue [] = 0 := rfl

@[simp] theorem limbsValue_cons (x : UInt32) (xs : List UInt32) :
    limbsValue (x :: xs) = x.toNat + 65536 * limbsValue xs := by
  simp [limbsValue, Nat.ofDigits_cons]

@[simp] theorem wideValue_cons (x : UInt64) (xs : List UInt64) :
    wideValue (x :: xs) = x.toNat + 65536 * wideValue xs := by
  simp [wideValue, Nat.ofDigits_cons]

theorem wideValue_append (xs ys : List UInt64) :
    wideValue (xs ++ ys) = wideValue xs + 65536 ^ xs.length * wideValue ys := by
  simp [wideValue, Nat.ofDigits_append]

@[simp] theorem below_nil : Below bound [] := nofun

@[simp] theorem wideBelow_nil : WideBelow bound [] := nofun

@[simp] theorem below_cons : Below bound (x :: xs) ↔ x.toNat < bound ∧ Below bound xs := by
  simp [Below]

@[simp] theorem wideBelow_cons {x : UInt64} {xs : List UInt64} :
    WideBelow bound (x :: xs) ↔ x.toNat < bound ∧ WideBelow bound xs := by
  simp [WideBelow]

theorem WideBelow.mono {limbs : List UInt64} {small : Nat} (h : WideBelow small limbs)
    (hle : small ≤ bound) : WideBelow bound limbs :=
  fun x hx => (h x hx).trans_le hle

theorem limbsValue_lt {limbs : List UInt32} (h : Below 65536 limbs) :
    limbsValue limbs < 65536 ^ limbs.length := by
  have hlt := Nat.ofDigits_lt_base_pow_length (b := 65536) (l := limbs.map UInt32.toNat)
    (by decide) (by simpa [Below] using h)
  rwa [List.length_map] at hlt

theorem wideValue_lt {limbs : List UInt64} (h : WideBelow 65536 limbs) :
    wideValue limbs < 65536 ^ limbs.length := by
  have hlt := Nat.ofDigits_lt_base_pow_length (b := 65536) (l := limbs.map UInt64.toNat)
    (by decide) (by simpa [WideBelow] using h)
  rwa [List.length_map] at hlt

/-- A bound on the limbs is one on the value, whatever the limbs carry above their place. -/
theorem wideValue_bound {limbs : List UInt64} (h : WideBelow bound limbs) :
    wideValue limbs * 65535 + bound ≤ bound * 65536 ^ limbs.length := by
  induction limbs with
  | nil => simp
  | cons x xs ih =>
    rw [wideBelow_cons] at h
    have hrest := ih h.2
    have hx : x.toNat + 1 ≤ bound := h.1
    rw [wideValue_cons, List.length_cons, pow_succ]
    nlinarith

theorem limbsValue_injective (hx : Below 65536 xs) (hy : Below 65536 ys)
    (hlength : xs.length = ys.length) (h : limbsValue xs = limbsValue ys) : xs = ys := by
  have hmap := Nat.ofDigits_inj_of_len_eq (b := 65536) (by norm_num)
    (by rw [List.length_map, List.length_map, hlength]) (by simpa [Below] using hx)
    (by simpa [Below] using hy) h
  exact List.map_injective_iff.mpr (fun a b => UInt32.toNat_inj.mp) hmap

theorem primeLimbs_value : limbsValue primeLimbs = prime := by decide

theorem below_of_all (h : xs.all (fun x => x.toNat < bound) = true) : Below bound xs :=
  fun x hx => of_decide_eq_true (List.all_eq_true.mp h x hx)

theorem primeLimbs_below : Below 65536 primeLimbs := below_of_all (by decide)

theorem element_toNat (x : ZMod prime) :
    (element x).map UInt32.toNat = (List.range 16).map fun i => x.val / 65536 ^ i % 65536 := by
  rw [element, List.map_map]
  apply List.map_congr_left
  intro i _
  have hlt : x.val / 65536 ^ i % 65536 < 65536 := Nat.mod_lt _ (by decide)
  exact UInt32.toNat_ofNat_of_lt' (hlt.trans (by decide))

theorem element_value (x : ZMod prime) : limbsValue (element x) = x.val := by
  have hradix := radix_of_digits 65536 16 x.val
  have hlt : x.val < 65536 ^ 16 := (ZMod.val_lt x).trans (by decide)
  rw [limbsValue, element_toNat]
  rwa [Nat.mod_eq_of_lt hlt] at hradix

@[simp] theorem element_length (x : ZMod prime) : (element x).length = 16 := by
  simp [element]

theorem element_below (x : ZMod prime) : Below 65536 (element x) := by
  intro limb hlimb
  have hmem := List.mem_map_of_mem (f := UInt32.toNat) hlimb
  rw [element_toNat] at hmem
  obtain ⟨i, -, hi⟩ := List.mem_map.mp hmem
  rw [← hi]
  exact Nat.mod_lt _ (by decide)

theorem element_canonical (x : ZMod prime) : Canonical (element x) where
  length := element_length x
  below := element_below x
  lt := (element_value x).trans_lt (ZMod.val_lt x)

theorem Canonical.eq_element {a : FieldElement} (h : Canonical a) {x : ZMod prime}
    (hvalue : (limbsValue a : ZMod prime) = x) : a = element x := by
  have hcanonical := element_canonical x
  apply limbsValue_injective h.below hcanonical.below (h.length.trans hcanonical.length.symm)
  rw [element_value, ← hvalue, ZMod.val_natCast, Nat.mod_eq_of_lt h.lt]

theorem canonical_iff {a : FieldElement} : Canonical a ↔ ∃ x, a = element x := by
  constructor
  · intro h
    exact ⟨_, h.eq_element rfl⟩
  · rintro ⟨x, rfl⟩
    exact element_canonical x

theorem feZero_eq : feZero = element 0 := by
  have hvalue : limbsValue feZero = 0 := by decide
  refine Canonical.eq_element ⟨rfl, below_of_all (by decide), hvalue.trans_lt (by decide)⟩ ?_
  rw [hvalue, Nat.cast_zero]

theorem feOne_eq : feOne = element 1 := by
  have hvalue : limbsValue feOne = 1 := by decide
  refine Canonical.eq_element ⟨rfl, below_of_all (by decide), hvalue.trans_lt (by decide)⟩ ?_
  rw [hvalue, Nat.cast_one]

end LiberaCrypt.Field25519Values
