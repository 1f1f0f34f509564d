import LiberaCrypt.CountedLoop
import Mathlib.Tactic

namespace LiberaCrypt.MlKemReduce

def mlkemQ : UInt32 := 3329

def mlkemBarrettMu : UInt64 := 1290167

def mlkemReduceOnceU32 (value : UInt32) : UInt32 :=
  let reduced := value - mlkemQ
  let restoreMask := (0 : UInt32) - (reduced >>> 31)
  reduced + (mlkemQ &&& restoreMask)

def mlkemBarrettReduceU32 (value : UInt32) : UInt32 :=
  let quotient := ((value.toUInt64 * mlkemBarrettMu) >>> 32).toUInt32
  let remainder := value - quotient * mlkemQ
  mlkemReduceOnceU32 remainder

def mlkemAddModQ (first second : Int32) : Int32 :=
  (mlkemReduceOnceU32 (first.toUInt32 + second.toUInt32)).toInt32

def mlkemSubModQ (first second : Int32) : Int32 :=
  (mlkemReduceOnceU32 (first.toUInt32 + mlkemQ - second.toUInt32)).toInt32

def mlkemMulModQ (first second : Int32) : Int32 :=
  (mlkemBarrettReduceU32 (first.toUInt32 * second.toUInt32)).toInt32

/-- The value of a coefficient as its casts to `uint32_t` read it. -/
def word (c : Int32) : Nat := c.toUInt32.toNat

def Canonical (c : Int32) : Prop := word c < 3329

instance (c : Int32) : Decidable (Canonical c) := inferInstanceAs (Decidable (_ < _))

theorem word_toInt32 (x : UInt32) : word x.toInt32 = x.toNat := rfl

theorem word_injective {a b : Int32} (h : word a = word b) : a = b := by
  cases a
  cases b
  exact congrArg Int32.ofUInt32 (UInt32.toNat_inj.mp h)

theorem mlkemQ_toNat : mlkemQ.toNat = 3329 := rfl

/-- The conditional subtraction brings every value below `2q` into `[0, q)`. -/
theorem reduceOnce_toNat (v : UInt32) (hv : v.toNat < 2 * 3329) :
    (mlkemReduceOnceU32 v).toNat = v.toNat % 3329 := by
  by_cases h : v.toNat < 3329
  · have hs : (v - mlkemQ) >>> 31 = 1 := by
      apply UInt32.toNat_inj.mp
      rw [UInt32.toNat_shiftRight, UInt32.toNat_sub, mlkemQ_toNat]
      simp [Nat.shiftRight_eq_div_pow]
      omega
    have hm : mlkemQ &&& (0 - 1) = mlkemQ := by decide
    have he : mlkemReduceOnceU32 v = v := by
      simp only [mlkemReduceOnceU32, hs, hm, UInt32.sub_add_cancel]
    rw [he, Nat.mod_eq_of_lt h]
  · have hs : (v - mlkemQ) >>> 31 = 0 := by
      apply UInt32.toNat_inj.mp
      rw [UInt32.toNat_shiftRight, UInt32.toNat_sub, mlkemQ_toNat]
      simp [Nat.shiftRight_eq_div_pow]
      omega
    have hm : mlkemQ &&& (0 - 0) = 0 := by decide
    have he : mlkemReduceOnceU32 v = v - mlkemQ := by
      simp only [mlkemReduceOnceU32, hs, hm, UInt32.add_zero]
    rw [he, UInt32.toNat_sub, mlkemQ_toNat]
    omega

theorem quotient_toNat (v : UInt32) :
    ((v.toUInt64 * mlkemBarrettMu) >>> 32).toUInt32.toNat = v.toNat * 1290167 / 2 ^ 32 := by
  have hv := v.toNat_lt
  have hb : v.toNat * 1290167 < 2 ^ 64 := by omega
  have hc : mlkemBarrettMu.toNat = 1290167 := rfl
  have hd : (32 : UInt64).toNat % 64 = 32 := rfl
  rw [UInt64.toNat_toUInt32, UInt64.toNat_shiftRight, UInt64.toNat_mul, UInt32.toNat_toUInt64,
    hc, hd, Nat.mod_eq_of_lt hb, Nat.shiftRight_eq_div_pow]
  omega

/-- Barrett reduction is exact on every 32-bit word: the quotient estimate is
at most one too small. -/
theorem barrett_toNat (v : UInt32) : (mlkemBarrettReduceU32 v).toNat = v.toNat % 3329 := by
  have hv := v.toNat_lt
  have hr : (v - ((v.toUInt64 * mlkemBarrettMu) >>> 32).toUInt32 * mlkemQ).toNat =
      v.toNat - v.toNat * 1290167 / 2 ^ 32 * 3329 := by
    rw [UInt32.toNat_sub, UInt32.toNat_mul, quotient_toNat, mlkemQ_toNat]
    omega
  unfold mlkemBarrettReduceU32
  rw [reduceOnce_toNat _ (by rw [hr]; omega), hr]
  omega

theorem add_word {a b : Int32} (ha : Canonical a) (hb : Canonical b) :
    word (mlkemAddModQ a b) = (word a + word b) % 3329 := by
  unfold Canonical word at ha hb
  have hs : (a.toUInt32 + b.toUInt32).toNat = a.toUInt32.toNat + b.toUInt32.toNat := by
    rw [UInt32.toNat_add]
    omega
  rw [mlkemAddModQ, word_toInt32, reduceOnce_toNat _ (by omega), hs, word, word]

theorem sub_word {a b : Int32} (ha : Canonical a) (hb : Canonical b) :
    word (mlkemSubModQ a b) = (word a + 3329 - word b) % 3329 := by
  unfold Canonical word at ha hb
  have hs : (a.toUInt32 + mlkemQ - b.toUInt32).toNat =
      a.toUInt32.toNat + 3329 - b.toUInt32.toNat := by
    rw [UInt32.toNat_sub, UInt32.toNat_add, mlkemQ_toNat]
    omega
  rw [mlkemSubModQ, word_toInt32, reduceOnce_toNat _ (by omega), hs, word, word]

theorem mul_lt {a b : Int32} (ha : Canonical a) (hb : Canonical b) :
    word a * word b ≤ 3328 * 3328 :=
  Nat.mul_le_mul (Nat.le_of_lt_succ ha) (Nat.le_of_lt_succ hb)

theorem mul_toNat {a b : Int32} (ha : Canonical a) (hb : Canonical b) :
    (a.toUInt32 * b.toUInt32).toNat = word a * word b := by
  have h := mul_lt ha hb
  rw [UInt32.toNat_mul]
  exact Nat.mod_eq_of_lt (lt_of_le_of_lt h (by norm_num))

theorem mul_word {a b : Int32} (ha : Canonical a) (hb : Canonical b) :
    word (mlkemMulModQ a b) = word a * word b % 3329 := by
  rw [mlkemMulModQ, word_toInt32, barrett_toNat, mul_toNat ha hb]

theorem add_canonical {a b : Int32} (ha : Canonical a) (hb : Canonical b) :
    Canonical (mlkemAddModQ a b) := by
  rw [Canonical, add_word ha hb]
  exact Nat.mod_lt _ (by norm_num)

theorem sub_canonical {a b : Int32} (ha : Canonical a) (hb : Canonical b) :
    Canonical (mlkemSubModQ a b) := by
  rw [Canonical, sub_word ha hb]
  exact Nat.mod_lt _ (by norm_num)

theorem barrett_canonical (v : UInt32) : Canonical (mlkemBarrettReduceU32 v).toInt32 := by
  rw [Canonical, word_toInt32, barrett_toNat]
  exact Nat.mod_lt _ (by norm_num)

theorem mul_canonical (a b : Int32) : Canonical (mlkemMulModQ a b) := barrett_canonical _

end LiberaCrypt.MlKemReduce

namespace LiberaCrypt.MlKemNtt

open LiberaCrypt.CountedLoop LiberaCrypt.MlKemReduce

variable {α β : Type}

abbrev Poly (α : Type) := Vector α 256

def coeff (g : Poly α) (j : Nat) : α := g[j % 256]

def store (g : Poly α) (j : Nat) (x : α) : Poly α := g.set (j % 256) x (Nat.mod_lt _ (by norm_num))

theorem coeff_store (g : Poly α) {j k : Nat} (hj : j < 256) (hk : k < 256) (x : α) :
    coeff (store g j x) k = if k = j then x else coeff g k := by
  simp only [coeff, store, Nat.mod_eq_of_lt hj, Nat.mod_eq_of_lt hk, Vector.getElem_set]
  exact if_congr eq_comm rfl rfl

theorem coeff_map (f : α → β) (g : Poly α) (k : Nat) : coeff (g.map f) k = f (coeff g k) := by
  simp [coeff]

theorem poly_ext {f g : Poly α} (h : ∀ k < 256, coeff f k = coeff g k) : f = g := by
  refine Vector.ext fun k hk => ?_
  have hc := h k hk
  simpa only [coeff, Nat.mod_eq_of_lt hk] using hc

set_option maxRecDepth 4000 in
def zetaTable : Poly Int32 := #v[
    1, 17, 289, 1584, 296, 1703, 2319, 2804, 1062, 1409, 650, 1063, 1426, 939, 2647, 1722, 2642,
    1637, 1197, 375, 3046, 1847, 1438, 1143, 2786, 756, 2865, 2099, 2393, 733, 2474, 2110, 2580,
    583, 3253, 2037, 1339, 2789, 807, 403, 193, 3281, 2513, 2773, 535, 2437, 1481, 1874, 1897,
    2288, 2277, 2090, 2240, 1461, 1534, 2775, 569, 3015, 1320, 2466, 1974, 268, 1227, 885, 1729,
    2761, 331, 2298, 2447, 1651, 1435, 1092, 1919, 2662, 1977, 319, 2094, 2308, 2617, 1212, 630,
    723, 2304, 2549, 56, 952, 2868, 2150, 3260, 2156, 33, 561, 2879, 2337, 3110, 2935, 3289, 2649,
    1756, 3220, 1476, 1789, 452, 1026, 797, 233, 632, 757, 2882, 2388, 648, 1029, 848, 1100, 2055,
    1645, 1333, 2687, 2402, 886, 1746, 3050, 1915, 2594, 821, 641, 910, 2154, 3328, 3312, 3040,
    1745, 3033, 1626, 1010, 525, 2267, 1920, 2679, 2266, 1903, 2390, 682, 1607, 687, 1692, 2132,
    2954, 283, 1482, 1891, 2186, 543, 2573, 464, 1230, 936, 2596, 855, 1219, 749, 2746, 76, 1292,
    1990, 540, 2522, 2926, 3136, 48, 816, 556, 2794, 892, 1848, 1455, 1432, 1041, 1052, 1239,
    1089, 1868, 1795, 554, 2760, 314, 2009, 863, 1355, 3061, 2102, 2444, 1600, 568, 2998, 1031,
    882, 1678, 1894, 2237, 1410, 667, 1352, 3010, 1235, 1021, 712, 2117, 2699, 2606, 1025, 780,
    3273, 2377, 461, 1179, 69, 1173, 3296, 2768, 450, 992, 219, 394, 40, 680, 1573, 109, 1853,
    1540, 2877, 2303, 2532, 3096, 2697, 2572, 447, 941, 2681, 2300, 2481, 2229, 1274, 1684, 1996,
    642, 927, 2443, 1583, 279, 1414, 735, 2508, 2688, 2419, 1175]

def mlkemBitReverse7 (value : UInt32) : UInt32 :=
  let value := value &&& 0x7f
  let value := ((value &&& 0x55) <<< 1) ||| ((value >>> 1) &&& 0x55)
  let value := ((value &&& 0x33) <<< 2) ||| ((value >>> 2) &&& 0x33)
  let value := ((value &&& 0x0f) <<< 4) ||| ((value >>> 4) &&& 0x0f)
  value >>> 1

/-- The factor a transform loads for the value `i` of its counter. -/
def zeta (zetas : Poly Int32) (i : Nat) : Int32 :=
  coeff zetas (mlkemBitReverse7 (UInt32.ofNat i)).toNat

def mlkemMultiplyBasic (a0 a1 b0 b1 r : Int32) : Int32 × Int32 :=
  let firstProduct := a0.toUInt32 * b0.toUInt32
  let secondProduct := (mlkemMulModQ a1 b1).toUInt32 * r.toUInt32
  let crossProducts := a0.toUInt32 * b1.toUInt32 + a1.toUInt32 * b0.toUInt32
  ((mlkemBarrettReduceU32 (firstProduct + secondProduct)).toInt32,
    (mlkemBarrettReduceU32 crossProducts).toInt32)

/-- The helpers the transforms are built from. The loops below are the code's
for `codeOps`; other instances compute the residues or check the ranges. -/
structure CoeffOps (α : Type) where
  lit : Int32 → α
  addModQ : α → α → α
  subModQ : α → α → α
  mulModQ : α → α → α
  multiplyBasic : α → α → α → α → α → α × α

def codeOps : CoeffOps Int32 :=
  ⟨id, mlkemAddModQ, mlkemSubModQ, mlkemMulModQ, mlkemMultiplyBasic⟩

def nttButterfly (ops : CoeffOps α) (z : α) (len j : Nat) (g : Poly α) : Poly α :=
  let first := coeff g j
  let product := ops.mulModQ z (coeff g (j + len))
  let g := store g (j + len) (ops.subModQ first product)
  store g j (ops.addModQ first product)

def nttInvButterfly (ops : CoeffOps α) (z : α) (len j : Nat) (g : Poly α) : Poly α :=
  let first := coeff g j
  let second := coeff g (j + len)
  let difference := ops.subModQ second first
  let g := store g j (ops.addModQ first second)
  store g (j + len) (ops.mulModQ z difference)

/-- The loop over `j` in `[start, start + len)`. -/
def butterflyBlock (butterfly : Nat → Poly α → Poly α) (start len : Nat) (g : Poly α) : Poly α :=
  countUp len (fun t => butterfly (start + t)) g

/-- The loop over `start` of one layer; `next` moves the zeta counter. -/
def butterflyLayer (ops : CoeffOps α) (zetas : Poly Int32)
    (butterfly : α → Nat → Nat → Poly α → Poly α) (next : Nat → Nat) (len : Nat)
    (s : Poly α × Nat) : Poly α × Nat :=
  countUp (256 / (2 * len)) (fun block s =>
    let z := ops.lit (zeta zetas s.2)
    (butterflyBlock (butterfly z len) (block * (2 * len)) len s.1, next s.2)) s

/-- `len` runs through 128, 64, ..., 2 and the zeta counter counts up from 1. -/
def nttWith (ops : CoeffOps α) (f : Poly α) (zetas : Poly Int32) : Poly α :=
  (countUp 7 (fun layer =>
    butterflyLayer ops zetas (nttButterfly ops) (· + 1) (128 / 2 ^ layer)) (f, 1)).1

/-- `len` runs through 2, 4, ..., 128 and the zeta counter counts down from 127. -/
def nttInvLayers (ops : CoeffOps α) (f : Poly α) (zetas : Poly Int32) : Poly α :=
  (countUp 7 (fun layer =>
    butterflyLayer ops zetas (nttInvButterfly ops) (· - 1) (2 * 2 ^ layer)) (f, 127)).1

def nttInvWith (ops : CoeffOps α) (f : Poly α) (zetas : Poly Int32) : Poly α :=
  countUp 256 (fun index g => store g index (ops.mulModQ (coeff g index) (ops.lit 3303)))
    (nttInvLayers ops f zetas)

def multiplyNttWith (ops : CoeffOps α) (h f g : Poly α) (zetas : Poly Int32) : Poly α :=
  countUp 128 (fun i h =>
    let reversed := (mlkemBitReverse7 (UInt32.ofNat i)).toNat
    let c := ops.multiplyBasic (coeff f (2 * i)) (coeff f (2 * i + 1))
      (coeff g (2 * i)) (coeff g (2 * i + 1)) (ops.lit (coeff zetas (2 * reversed + 1)))
    store (store h (2 * i) c.1) (2 * i + 1) c.2) h

def ntt (f : Poly Int32) : Poly Int32 := nttWith codeOps f zetaTable

def nttInv (f : Poly Int32) : Poly Int32 := nttInvWith codeOps f zetaTable

/-- The output array `h` is overwritten entirely. -/
def multiplyNtt (h f g : Poly Int32) : Poly Int32 := multiplyNttWith codeOps h f g zetaTable

end LiberaCrypt.MlKemNtt

namespace LiberaCrypt

export MlKemNtt (Poly)

end LiberaCrypt

namespace LiberaCrypt.MlKemNttLayers

open LiberaCrypt.CountedLoop LiberaCrypt.MlKemReduce LiberaCrypt.MlKemNtt

variable {α β : Type}

/-- A butterfly at distance `len`: it replaces the pair at `j` and `j + len`
by `p` and `q` of the pair and leaves every other coefficient alone. -/
def PairUpdate (butterfly : Nat → Poly α → Poly α) (len : Nat) (p q : α → α → α) : Prop :=
  ∀ j g, j + len < 256 → ∀ k < 256,
    coeff (butterfly j g) k =
      if k = j then p (coeff g j) (coeff g (j + len))
      else if k = j + len then q (coeff g j) (coeff g (j + len))
      else coeff g k

theorem nttButterfly_pair (ops : CoeffOps α) (z : α) {len : Nat} (hlen : 0 < len) :
    PairUpdate (nttButterfly ops z len) len
      (fun x y => ops.addModQ x (ops.mulModQ z y)) (fun x y => ops.subModQ x (ops.mulModQ z y)) := by
  intro j g hj k hk
  simp only [nttButterfly]
  rw [coeff_store _ (by omega) hk, coeff_store _ hj hk]

theorem nttInvButterfly_pair (ops : CoeffOps α) (z : α) {len : Nat} (hlen : 0 < len) :
    PairUpdate (nttInvButterfly ops z len) len
      ops.addModQ (fun x y => ops.mulModQ z (ops.subModQ y x)) := by
  intro j g hj k hk
  simp only [nttInvButterfly]
  rw [coeff_store _ hj hk, coeff_store _ (by omega) hk]
  by_cases h : k = j + len
  · subst h
    rw [if_pos rfl, if_neg (by omega), if_pos rfl]
  · rw [if_neg h, if_neg h]

/-- A block's loop updates each of its `len` pairs once and nothing else. -/
theorem block_coeff {butterfly : Nat → Poly α → Poly α} {len : Nat} {p q : α → α → α}
    (hb : PairUpdate butterfly len p q) (start : Nat) (hs : start + 2 * len ≤ 256) (g : Poly α) :
    (∀ t < len, coeff (butterflyBlock butterfly start len g) (start + t) =
        p (coeff g (start + t)) (coeff g (start + t + len)) ∧
      coeff (butterflyBlock butterfly start len g) (start + t + len) =
        q (coeff g (start + t)) (coeff g (start + t + len))) ∧
    (∀ k < 256, k < start ∨ start + 2 * len ≤ k →
      coeff (butterflyBlock butterfly start len g) k = coeff g k) := by
  have hinv := countUp_invariant (n := len) (f := fun t => butterfly (start + t)) (s := g)
    (fun n h => (∀ t < n, coeff h (start + t) = p (coeff g (start + t)) (coeff g (start + t + len)) ∧
        coeff h (start + t + len) = q (coeff g (start + t)) (coeff g (start + t + len))) ∧
      (∀ k < 256, (k < start ∨ start + n ≤ k ∧ k < start + len ∨ start + len + n ≤ k) →
        coeff h k = coeff g k))
    ⟨fun t ht => absurd ht (Nat.not_lt_zero t), fun _ _ _ => rfl⟩ ?_
  · refine ⟨hinv.1, fun k hk ho => hinv.2 k hk ?_⟩
    omega
  · intro n hn h ⟨hdone, hrest⟩
    have hlo : coeff h (start + n) = coeff g (start + n) := hrest _ (by omega) (by omega)
    have hhi : coeff h (start + n + len) = coeff g (start + n + len) :=
      hrest _ (by omega) (by omega)
    have hup := hb (start + n) h (by omega)
    refine ⟨fun t ht => ?_, fun k hk ho => ?_⟩
    · by_cases htn : t = n
      · subst htn
        rw [hup _ (by omega), hup _ (by omega), if_pos rfl, if_neg (by omega), if_pos rfl, hlo, hhi]
        exact ⟨rfl, rfl⟩
      · rw [hup _ (by omega), hup _ (by omega), if_neg (by omega), if_neg (by omega),
          if_neg (by omega), if_neg (by omega)]
        exact hdone t (by omega)
    · rw [hup k hk, if_neg (by omega), if_neg (by omega)]
      exact hrest k hk (by omega)

/-- What one layer does to the coefficients: in block `b` every pair at distance
`len` goes through `p b` and `q b`. -/
def LayerUpdate (len : Nat) (p q : Nat → α → α → α) (g h : Poly α) : Prop :=
  ∀ b < 256 / (2 * len), ∀ t < len,
    coeff h (b * (2 * len) + t) =
        p b (coeff g (b * (2 * len) + t)) (coeff g (b * (2 * len) + t + len)) ∧
      coeff h (b * (2 * len) + t + len) =
        q b (coeff g (b * (2 * len) + t)) (coeff g (b * (2 * len) + t + len))

theorem layer_update (ops : CoeffOps α) (zetas : Poly Int32) (next : Nat → Nat)
    {butterfly : α → Nat → Nat → Poly α → Poly α} {len : Nat}
    {p q : α → α → α → α} (hb : ∀ z, PairUpdate (butterfly z len) len (p z) (q z))
    (s : Poly α × Nat) :
    LayerUpdate len (fun b => p (ops.lit (zeta zetas (next^[b] s.2))))
        (fun b => q (ops.lit (zeta zetas (next^[b] s.2)))) s.1
        (butterflyLayer ops zetas butterfly next len s).1 ∧
      (butterflyLayer ops zetas butterfly next len s).2 = next^[256 / (2 * len)] s.2 := by
  have hinv := countUp_invariant (n := 256 / (2 * len))
    (f := fun block (s : Poly α × Nat) =>
      (butterflyBlock (butterfly (ops.lit (zeta zetas s.2)) len) (block * (2 * len)) len s.1,
        next s.2)) (s := s)
    (fun n r => r.2 = next^[n] s.2 ∧
      (∀ b < n, ∀ t < len,
        coeff r.1 (b * (2 * len) + t) = p (ops.lit (zeta zetas (next^[b] s.2)))
            (coeff s.1 (b * (2 * len) + t)) (coeff s.1 (b * (2 * len) + t + len)) ∧
          coeff r.1 (b * (2 * len) + t + len) = q (ops.lit (zeta zetas (next^[b] s.2)))
            (coeff s.1 (b * (2 * len) + t)) (coeff s.1 (b * (2 * len) + t + len))) ∧
      (∀ k < 256, n * (2 * len) ≤ k → coeff r.1 k = coeff s.1 k))
    ⟨rfl, fun b hb => absurd hb (Nat.not_lt_zero b), fun _ _ _ => rfl⟩ ?_
  · exact ⟨hinv.2.1, hinv.1⟩
  · intro n hn r ⟨hcount, hdone, hrest⟩
    have hfit : (n + 1) * (2 * len) ≤ 256 :=
      (Nat.mul_le_mul_right _ hn).trans (Nat.div_mul_le_self _ _)
    rw [Nat.succ_mul] at hfit
    obtain ⟨hpair, hout⟩ := block_coeff (hb (ops.lit (zeta zetas r.2)))
      (n * (2 * len)) (by omega) r.1
    refine ⟨?_, fun b hbn t ht => ?_, fun k hk hnk => ?_⟩
    · simp only [hcount, Function.iterate_succ_apply']
    · rcases Nat.lt_succ_iff_lt_or_eq.mp hbn with hlt | rfl
      · have hle : (b + 1) * (2 * len) ≤ n * (2 * len) := Nat.mul_le_mul_right _ hlt
        rw [Nat.succ_mul] at hle
        rw [hout _ (by omega) (by omega), hout _ (by omega) (by omega)]
        exact hdone b hlt t ht
      · have hlo := hrest (b * (2 * len) + t) (by omega) (by omega)
        have hhi := hrest (b * (2 * len) + t + len) (by omega) (by omega)
        obtain ⟨hp, hq⟩ := hpair t ht
        rw [hp, hq, hlo, hhi, hcount]
        exact ⟨rfl, rfl⟩
    · rw [Nat.succ_mul] at hnk
      rw [hout k hk (by omega)]
      exact hrest k hk (by omega)

/-- A loop that updates coefficient `i` in its step `i` updates each of them once. -/
theorem pointwise_coeff (F : Nat → α → α) (g : Poly α) {n : Nat} (hn : n ≤ 256) :
    ∀ k < 256, coeff (countUp n (fun i g => store g i (F i (coeff g i))) g) k =
      if k < n then F k (coeff g k) else coeff g k := by
  refine countUp_invariant (fun n h => ∀ k < 256, coeff h k =
    if k < n then F k (coeff g k) else coeff g k) (fun k _ => rfl) fun i hi h hh k hk => ?_
  rw [coeff_store _ (by omega) hk, hh k hk, hh i (by omega), if_neg (lt_irrefl i)]
  by_cases hki : k = i
  · subst hki
    rw [if_pos rfl, if_pos (Nat.lt_succ_self k)]
  · rw [if_neg hki]
    exact if_congr (by omega) rfl rfl

theorem nttInvWith_coeff (ops : CoeffOps α) (f : Poly α) (zetas : Poly Int32) {k : Nat}
    (hk : k < 256) : coeff (nttInvWith ops f zetas) k =
      ops.mulModQ (coeff (nttInvLayers ops f zetas) k) (ops.lit 3303) := by
  have h := pointwise_coeff (fun _ x => ops.mulModQ x (ops.lit 3303))
    (nttInvLayers ops f zetas) le_rfl k hk
  rwa [if_pos hk] at h

/-- The product of the two pairs at `2 * i`, as `multiply_NTT` forms it. -/
def pairProduct (ops : CoeffOps α) (zetas : Poly Int32) (f g : Poly α) (i : Nat) : α × α :=
  ops.multiplyBasic (coeff f (2 * i)) (coeff f (2 * i + 1)) (coeff g (2 * i)) (coeff g (2 * i + 1))
    (ops.lit (coeff zetas (2 * (mlkemBitReverse7 (UInt32.ofNat i)).toNat + 1)))

theorem multiplyNttWith_coeff (ops : CoeffOps α) (zetas : Poly Int32) (h f g : Poly α) :
    ∀ i < 128, coeff (multiplyNttWith ops h f g zetas) (2 * i) = (pairProduct ops zetas f g i).1 ∧
      coeff (multiplyNttWith ops h f g zetas) (2 * i + 1) = (pairProduct ops zetas f g i).2 := by
  refine countUp_invariant (fun n h => ∀ i < n,
      coeff h (2 * i) = (pairProduct ops zetas f g i).1 ∧
        coeff h (2 * i + 1) = (pairProduct ops zetas f g i).2)
    (fun i hi => absurd hi (Nat.not_lt_zero i)) fun n hn h hh i hi => ?_
  rw [coeff_store _ (by omega) (by omega), coeff_store _ (by omega) (by omega),
    coeff_store _ (by omega) (by omega), coeff_store _ (by omega) (by omega)]
  by_cases hin : i = n
  · subst hin
    rw [if_neg (by omega), if_pos rfl, if_pos rfl]
    exact ⟨rfl, rfl⟩
  · rw [if_neg (by omega), if_neg (by omega), if_neg (by omega), if_neg (by omega)]
    exact hh i (by omega)

theorem poly_pairs {P : Nat → α → Prop} {g : Poly α}
    (h : ∀ i < 128, P (2 * i) (coeff g (2 * i)) ∧ P (2 * i + 1) (coeff g (2 * i + 1))) :
    ∀ k < 256, P k (coeff g k) := by
  intro k hk
  rcases Nat.even_or_odd' k with ⟨i, rfl | rfl⟩
  · exact (h i (by omega)).1
  · exact (h i (by omega)).2

end LiberaCrypt.MlKemNttLayers
