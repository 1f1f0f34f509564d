import LiberaCrypt.MlKemNtt
import Mathlib.Data.ZMod.Basic

namespace LiberaCrypt.MlKemNttRefine

open LiberaCrypt.CountedLoop LiberaCrypt.MlKemReduce LiberaCrypt.MlKemNtt
  LiberaCrypt.MlKemNttLayers

variable {α β : Type}

structure Simulates (R : α → β → Prop) (ops : CoeffOps α) (ops' : CoeffOps β) : Prop where
  lit : ∀ c, Canonical c → R (ops.lit c) (ops'.lit c)
  addModQ : ∀ {x y x' y'}, R x x' → R y y' → R (ops.addModQ x y) (ops'.addModQ x' y')
  subModQ : ∀ {x y x' y'}, R x x' → R y y' → R (ops.subModQ x y) (ops'.subModQ x' y')
  mulModQ : ∀ {x y x' y'}, R x x' → R y y' → R (ops.mulModQ x y) (ops'.mulModQ x' y')
  multiplyBasic : ∀ {a b c d r a' b' c' d' r'}, R a a' → R b b' → R c c' → R d d' → R r r' →
    R (ops.multiplyBasic a b c d r).1 (ops'.multiplyBasic a' b' c' d' r').1 ∧
      R (ops.multiplyBasic a b c d r).2 (ops'.multiplyBasic a' b' c' d' r').2

def PolyRel (R : α → β → Prop) (f : Poly α) (g : Poly β) : Prop := ∀ k, R (coeff f k) (coeff g k)

theorem polyRel_of_lt {R : α → β → Prop} {f : Poly α} {g : Poly β}
    (h : ∀ k < 256, R (coeff f k) (coeff g k)) : PolyRel R f g := by
  intro k
  have hk := h (k % 256) (Nat.mod_lt _ (by norm_num))
  simpa only [coeff, Nat.mod_mod] using hk

def StateRel (R : α → β → Prop) (s : Poly α × Nat) (t : Poly β × Nat) : Prop :=
  PolyRel R s.1 t.1 ∧ s.2 = t.2

theorem store_rel {R : α → β → Prop} {f : Poly α} {g : Poly β} (h : PolyRel R f g)
    {x : α} {y : β} (hxy : R x y) (j : Nat) : PolyRel R (store f j x) (store g j y) := by
  intro k
  simp only [coeff, store, Vector.getElem_set]
  split
  · exact hxy
  · exact h k

variable {R : α → β → Prop} {ops : CoeffOps α} {ops' : CoeffOps β}
  {zetas : Poly Int32}

theorem nttButterfly_rel (hops : Simulates R ops ops') {z : α} {z' : β} (hz : R z z')
    (len j : Nat) {f : Poly α} {g : Poly β} (h : PolyRel R f g) :
    PolyRel R (nttButterfly ops z len j f) (nttButterfly ops' z' len j g) := by
  have hp := hops.mulModQ hz (h (j + len))
  exact store_rel (store_rel h (hops.subModQ (h j) hp) _) (hops.addModQ (h j) hp) _

theorem nttInvButterfly_rel (hops : Simulates R ops ops') {z : α} {z' : β} (hz : R z z')
    (len j : Nat) {f : Poly α} {g : Poly β} (h : PolyRel R f g) :
    PolyRel R (nttInvButterfly ops z len j f) (nttInvButterfly ops' z' len j g) := by
  have hd := hops.subModQ (h (j + len)) (h j)
  exact store_rel (store_rel h (hops.addModQ (h j) (h (j + len))) _) (hops.mulModQ hz hd) _

theorem layer_rel (hops : Simulates R ops ops') (hz : ∀ k, Canonical (coeff zetas k))
    {bf : α → Nat → Nat → Poly α → Poly α} {bf' : β → Nat → Nat → Poly β → Poly β}
    (hbf : ∀ {z z'}, R z z' → ∀ len j {f g}, PolyRel R f g →
      PolyRel R (bf z len j f) (bf' z' len j g))
    (next : Nat → Nat) (len : Nat) {s : Poly α × Nat} {t : Poly β × Nat} (h : StateRel R s t) :
    StateRel R (butterflyLayer ops zetas bf next len s)
      (butterflyLayer ops' zetas bf' next len t) := by
  refine countUp_simulation (StateRel R) h ?_
  rintro b _ ⟨f, i⟩ ⟨g, _⟩ ⟨hfg, rfl⟩
  exact ⟨countUp_simulation (PolyRel R) hfg fun k _ f g hfg =>
    hbf (hops.lit _ (hz _)) len _ hfg, rfl⟩

theorem nttWith_rel (hops : Simulates R ops ops') (hz : ∀ k, Canonical (coeff zetas k))
    {f : Poly α} {g : Poly β} (h : PolyRel R f g) :
    PolyRel R (nttWith ops f zetas) (nttWith ops' g zetas) := by
  refine (countUp_simulation (StateRel R) (n := 7) ⟨h, rfl⟩ fun layer _ s t hst => ?_).1
  exact layer_rel hops hz (fun hzz len j _ _ hfg => nttButterfly_rel hops hzz len j hfg) _ _ hst

theorem nttInvWith_rel (hops : Simulates R ops ops') (hz : ∀ k, Canonical (coeff zetas k))
    {f : Poly α} {g : Poly β} (h : PolyRel R f g) :
    PolyRel R (nttInvWith ops f zetas) (nttInvWith ops' g zetas) := by
  refine countUp_simulation (PolyRel R) (n := 256) ?_ fun i _ f g hfg => ?_
  · refine (countUp_simulation (StateRel R) (n := 7) ⟨h, rfl⟩ fun layer _ s t hst => ?_).1
    exact layer_rel hops hz
      (fun hzz len j _ _ hfg => nttInvButterfly_rel hops hzz len j hfg) _ _ hst
  · exact store_rel hfg (hops.mulModQ (hfg i) (hops.lit 3303 (by decide))) i

theorem multiplyNttWith_rel (hops : Simulates R ops ops') (hz : ∀ k, Canonical (coeff zetas k))
    (h : Poly α) (h' : Poly β) {f g : Poly α} {f' g' : Poly β} (hf : PolyRel R f f')
    (hg : PolyRel R g g') :
    PolyRel R (multiplyNttWith ops h f g zetas) (multiplyNttWith ops' h' f' g' zetas) := by
  refine polyRel_of_lt (poly_pairs (P := fun k x =>
    R x (coeff (multiplyNttWith ops' h' f' g' zetas) k)) fun i hi => ?_)
  have hc := hops.multiplyBasic (hf (2 * i)) (hf (2 * i + 1)) (hg (2 * i)) (hg (2 * i + 1))
    (hops.lit _ (hz (2 * (mlkemBitReverse7 (UInt32.ofNat i)).toNat + 1)))
  obtain ⟨h0, h1⟩ := multiplyNttWith_coeff ops zetas h f g i hi
  obtain ⟨h0', h1'⟩ := multiplyNttWith_coeff ops' zetas h' f' g' i hi
  rw [h0, h1, h0', h1']
  exact hc

set_option maxRecDepth 4000 in
theorem zetaTable_canonical (k : Nat) : Canonical (coeff zetaTable k) := by
  have h : ∀ k < 256, Canonical (coeff zetaTable k) := by decide +kernel
  have hk := h (k % 256) (Nat.mod_lt _ (by norm_num))
  simpa only [coeff, Nat.mod_mod] using hk

def AllCanonical (f : Poly Int32) : Prop := ∀ k < 256, Canonical (coeff f k)

abbrev F := ZMod 3329

def residueOps : CoeffOps F where
  lit c := (word c : F)
  addModQ x y := x + y
  subModQ x y := x - y
  mulModQ x y := x * y
  multiplyBasic a0 a1 b0 b1 r := (a0 * b0 + a1 * b1 * r, a0 * b1 + a1 * b0)

def Represents (c : Int32) (x : F) : Prop := Canonical c ∧ (word c : F) = x

theorem cast_mod (n : Nat) : ((n % 3329 : Nat) : F) = n := ZMod.natCast_mod n 3329

theorem basic_fst_toNat {a0 a1 b0 b1 r : Int32} (h0 : Canonical a0) (h1 : Canonical a1)
    (k0 : Canonical b0) (k1 : Canonical b1) (hr : Canonical r) :
    (a0.toUInt32 * b0.toUInt32 + (mlkemMulModQ a1 b1).toUInt32 * r.toUInt32).toNat =
      word a0 * word b0 + word a1 * word b1 % 3329 * word r := by
  have hm := mul_canonical a1 b1
  have hx := mul_lt h0 k0
  have hy := mul_lt hm hr
  rw [UInt32.toNat_add, mul_toNat h0 k0, mul_toNat hm hr, ← mul_word h1 k1]
  exact Nat.mod_eq_of_lt (lt_of_le_of_lt (Nat.add_le_add hx hy) (by norm_num))

theorem basic_snd_toNat {a0 a1 b0 b1 : Int32} (h0 : Canonical a0) (h1 : Canonical a1)
    (k0 : Canonical b0) (k1 : Canonical b1) :
    (a0.toUInt32 * b1.toUInt32 + a1.toUInt32 * b0.toUInt32).toNat =
      word a0 * word b1 + word a1 * word b0 := by
  have hx := mul_lt h0 k1
  have hy := mul_lt h1 k0
  rw [UInt32.toNat_add, mul_toNat h0 k1, mul_toNat h1 k0]
  exact Nat.mod_eq_of_lt (lt_of_le_of_lt (Nat.add_le_add hx hy) (by norm_num))

theorem code_represents : Simulates Represents codeOps residueOps where
  lit c hc := ⟨hc, rfl⟩
  addModQ := by
    rintro x y _ _ ⟨hx, rfl⟩ ⟨hy, rfl⟩
    refine ⟨add_canonical hx hy, ?_⟩
    rw [show codeOps.addModQ x y = mlkemAddModQ x y from rfl, add_word hx hy, cast_mod,
      Nat.cast_add]
    rfl
  subModQ := by
    rintro x y _ _ ⟨hx, rfl⟩ ⟨hy, rfl⟩
    refine ⟨sub_canonical hx hy, ?_⟩
    have hle : word y ≤ word x + 3329 := (Nat.le_of_lt hy).trans (Nat.le_add_left _ _)
    have hq : ((3329 : Nat) : F) = 0 := ZMod.natCast_self 3329
    rw [show codeOps.subModQ x y = mlkemSubModQ x y from rfl, sub_word hx hy, cast_mod,
      Nat.cast_sub hle, Nat.cast_add, hq, add_zero]
    rfl
  mulModQ := by
    rintro x y _ _ ⟨hx, rfl⟩ ⟨hy, rfl⟩
    refine ⟨mul_canonical x y, ?_⟩
    rw [show codeOps.mulModQ x y = mlkemMulModQ x y from rfl, mul_word hx hy, cast_mod,
      Nat.cast_mul]
    rfl
  multiplyBasic := by
    rintro a b c d r _ _ _ _ _ ⟨ha, rfl⟩ ⟨hb, rfl⟩ ⟨hc, rfl⟩ ⟨hd, rfl⟩ ⟨hr, rfl⟩
    refine ⟨⟨barrett_canonical _, ?_⟩, ⟨barrett_canonical _, ?_⟩⟩
    · rw [show codeOps.multiplyBasic a b c d r = mlkemMultiplyBasic a b c d r from rfl,
        mlkemMultiplyBasic, word_toInt32, barrett_toNat, basic_fst_toNat ha hb hc hd hr, cast_mod]
      push_cast [cast_mod]
      rfl
    · rw [show codeOps.multiplyBasic a b c d r = mlkemMultiplyBasic a b c d r from rfl,
        mlkemMultiplyBasic, word_toInt32, barrett_toNat, basic_snd_toNat ha hb hc hd, cast_mod]
      push_cast
      rfl

end LiberaCrypt.MlKemNttRefine

namespace LiberaCrypt.MlKemNttRange

open LiberaCrypt.MlKemReduce LiberaCrypt.MlKemNtt LiberaCrypt.MlKemNttRefine

/-- Pass a result on when its operands met their ranges and it is in `[0, q)` itself. -/
def checked (inRange : Bool) (c : Int32) : Option Int32 :=
  if inRange && decide (Canonical c) then some c else none

def canonicalAll (cs : List Int32) : Bool := cs.all fun c => decide (Canonical c)

/-- The exact integers a call of `mlkem_multiply_basic` hands to the Barrett
reduction: the product of the upper coefficients and the two sums. -/
def basicWords (a0 a1 b0 b1 r : Int32) : List Nat :=
  [word a1 * word b1, word a0 * word b0 + word (mlkemMulModQ a1 b1) * word r,
    word a0 * word b1 + word a1 * word b0]

/-- The code's helpers, stopping at the first coefficient outside `[0, q)` and at
the first exact product, or sum of products, that its 32-bit word cannot hold. -/
def checkedOps : CoeffOps (Option Int32) where
  lit c := checked true c
  addModQ x y := do
    let a ← x
    let b ← y
    checked (canonicalAll [a, b]) (mlkemAddModQ a b)
  subModQ x y := do
    let a ← x
    let b ← y
    checked (canonicalAll [a, b]) (mlkemSubModQ a b)
  mulModQ x y := do
    let a ← x
    let b ← y
    checked (canonicalAll [a, b] && decide (word a * word b < 2 ^ 32)) (mlkemMulModQ a b)
  multiplyBasic x0 x1 y0 y1 z :=
    let part (result : Int32 × Int32 → Int32) : Option Int32 := do
      let a0 ← x0
      let a1 ← x1
      let b0 ← y0
      let b1 ← y1
      let r ← z
      checked (canonicalAll [a0, a1, b0, b1, r] &&
        (basicWords a0 a1 b0 b1 r).all fun n => decide (n < 2 ^ 32))
        (result (mlkemMultiplyBasic a0 a1 b0 b1 r))
    (part Prod.fst, part Prod.snd)

def Passes (c : Int32) (x : Option Int32) : Prop := Canonical c ∧ x = some c

theorem checked_passes {b : Bool} {c : Int32} (hb : b = true) (hc : Canonical c) :
    Passes c (checked b c) := by
  refine ⟨hc, ?_⟩
  simp [checked, hb, hc]

theorem canonicalAll_pair {a b : Int32} (ha : Canonical a) (hb : Canonical b) :
    canonicalAll [a, b] = true := by
  simp [canonicalAll, ha, hb]

theorem basicWords_fit {a0 a1 b0 b1 r : Int32} (h0 : Canonical a0) (h1 : Canonical a1)
    (k0 : Canonical b0) (k1 : Canonical b1) (hr : Canonical r) :
    ∀ n ∈ basicWords a0 a1 b0 b1 r, n < 2 ^ 32 := by
  have hx := mul_lt h1 k1
  have hy := mul_lt h0 k0
  have hz := mul_lt (mul_canonical a1 b1) hr
  have hu := mul_lt h0 k1
  have hv := mul_lt h1 k0
  intro n hn
  simp only [basicWords, List.mem_cons, List.not_mem_nil, or_false] at hn
  rcases hn with rfl | rfl | rfl
  · exact lt_of_le_of_lt hx (by norm_num)
  · exact lt_of_le_of_lt (Nat.add_le_add hy hz) (by norm_num)
  · exact lt_of_le_of_lt (Nat.add_le_add hu hv) (by norm_num)

theorem code_passes : Simulates Passes codeOps checkedOps where
  lit c hc := checked_passes rfl hc
  addModQ := by
    rintro a b _ _ ⟨ha, rfl⟩ ⟨hb, rfl⟩
    exact checked_passes (canonicalAll_pair ha hb) (add_canonical ha hb)
  subModQ := by
    rintro a b _ _ ⟨ha, rfl⟩ ⟨hb, rfl⟩
    exact checked_passes (canonicalAll_pair ha hb) (sub_canonical ha hb)
  mulModQ := by
    rintro a b _ _ ⟨ha, rfl⟩ ⟨hb, rfl⟩
    have hw : word a * word b < 2 ^ 32 := lt_of_le_of_lt (mul_lt ha hb) (by norm_num)
    refine checked_passes ?_ (mul_canonical a b)
    rw [canonicalAll_pair ha hb, decide_eq_true hw, Bool.and_self]
  multiplyBasic := by
    rintro a0 a1 b0 b1 r _ _ _ _ _ ⟨h0, rfl⟩ ⟨h1, rfl⟩ ⟨k0, rfl⟩ ⟨k1, rfl⟩ ⟨hr, rfl⟩
    have hall : canonicalAll [a0, a1, b0, b1, r] = true := by
      simp [canonicalAll, h0, h1, k0, k1, hr]
    have hwords : ((basicWords a0 a1 b0 b1 r).all fun n => decide (n < 2 ^ 32)) = true := by
      simpa only [List.all_eq_true, decide_eq_true_eq] using basicWords_fit h0 h1 k0 k1 hr
    have hboth : (canonicalAll [a0, a1, b0, b1, r] &&
        (basicWords a0 a1 b0 b1 r).all fun n => decide (n < 2 ^ 32)) = true := by
      rw [hall, hwords, Bool.and_self]
    exact ⟨checked_passes hboth (barrett_canonical _), checked_passes hboth (barrett_canonical _)⟩

theorem passes_map {f : Poly Int32} (hf : AllCanonical f) : PolyRel Passes f (f.map some) :=
  polyRel_of_lt fun k hk => ⟨hf k hk, coeff_map some f k⟩

/-- The checked run of a transform delivers `f`, and `f` is canonical. -/
def Delivers (r : Poly (Option Int32)) (f : Poly Int32) : Prop := r = f.map some ∧ AllCanonical f

theorem delivers_of_passes {f : Poly Int32} {r : Poly (Option Int32)} (h : PolyRel Passes f r) :
    Delivers r f :=
  ⟨poly_ext fun k _ => by rw [coeff_map, (h k).2], fun k _ => (h k).1⟩

/-- On canonical coefficients no check of a transform ever stops it: every intermediate
and final coefficient is canonical and no word handed to the Barrett reduction wraps. -/
theorem ntt_delivers {f : Poly Int32} (hf : AllCanonical f) :
    Delivers (nttWith checkedOps (f.map some) zetaTable) (ntt f) :=
  delivers_of_passes (nttWith_rel code_passes zetaTable_canonical (passes_map hf))

theorem nttInv_delivers {f : Poly Int32} (hf : AllCanonical f) :
    Delivers (nttInvWith checkedOps (f.map some) zetaTable) (nttInv f) :=
  delivers_of_passes (nttInvWith_rel code_passes zetaTable_canonical (passes_map hf))

theorem multiplyNtt_delivers (h : Poly Int32) {f g : Poly Int32} (hf : AllCanonical f)
    (hg : AllCanonical g) :
    Delivers (multiplyNttWith checkedOps (h.map some) (f.map some) (g.map some) zetaTable)
      (multiplyNtt h f g) :=
  delivers_of_passes
    (multiplyNttWith_rel code_passes zetaTable_canonical h _ (passes_map hf) (passes_map hg))

end LiberaCrypt.MlKemNttRange
