import LiberaCrypt.Sha3
import LiberaCrypt.Sponge

namespace LiberaCrypt.Keccak

open LiberaCrypt.CountedLoop LiberaCrypt.Endian LiberaCrypt.Sha3 LiberaCrypt.Sponge

/-- The bit at column `x`, plane `y` and depth `z`. -/
abbrev StateArray := Fin 5 → Fin 5 → Fin 64 → Bool

section StepMappings

def theta (A : StateArray) : StateArray :=
  let C := fun (x : Fin 5) (z : Fin 64) => A x 0 z ^^ A x 1 z ^^ A x 2 z ^^ A x 3 z ^^ A x 4 z
  let D := fun (x : Fin 5) (z : Fin 64) => C (x - 1) z ^^ C (x + 1) (z - 1)
  fun x y z => A x y z ^^ D x z

/-- The lanes in the order in which `rho` comes to them. -/
def rhoWalk : Nat → Fin 5 × Fin 5
  | 0 => (1, 0)
  | t + 1 => ((rhoWalk t).2, 2 * (rhoWalk t).1 + 3 * (rhoWalk t).2)

/-- The lane that is met at step `t` is rotated by the triangular number of `t + 1`. -/
def rhoOffset (x y : Fin 5) : Nat :=
  match (List.range 24).find? fun t => rhoWalk t = (x, y) with
  | some t => (t + 1) * (t + 2) / 2
  | none => 0

def rho (A : StateArray) : StateArray := fun x y z => A x y (z - Fin.ofNat 64 (rhoOffset x y))

def piStep (A : StateArray) : StateArray := fun x y z => A (x + 3 * y) x z

def chi (A : StateArray) : StateArray := fun x y z =>
  A x y z ^^ ((A (x + 1) y z ^^ true) && A (x + 2) y z)

def rcStep (R : BitVec 8) : BitVec 8 := (R <<< 1) ^^^ if R.getLsbD 7 then 0x71 else 0

def rc (t : Nat) : Bool := (rcStep^[t % 255] 1).getLsbD 0

def roundConstant (round : Nat) (z : Fin 64) : Bool :=
  (List.range 7).any fun j => z.val = 2 ^ j - 1 && rc (j + 7 * round)

def iota (round : Nat) (A : StateArray) : StateArray := fun x y z =>
  if x = 0 ∧ y = 0 then A x y z ^^ roundConstant round z else A x y z

def keccakRnd (round : Nat) (A : StateArray) : StateArray :=
  iota round (chi (piStep (rho (theta A))))

def keccakP (A : StateArray) : StateArray := countUp 24 keccakRnd A

end StepMappings

section Lanes

variable {state : State}

def laneIndex (x y : Fin 5) : Fin 25 := ⟨x.val + 5 * y.val, by omega⟩

theorem laneIndex_mod (x y : Fin 5) : (laneIndex x y).val % 5 = x.val := by
  change (x.val + 5 * y.val) % 5 = x.val
  omega

theorem laneIndex_div (x y : Fin 5) : (laneIndex x y).val / 5 = y.val := by
  change (x.val + 5 * y.val) / 5 = y.val
  omega

def arrayOf (state : State) : StateArray := fun x y z =>
  (state.get (laneIndex x y)).toBitVec.getLsbD z

theorem rotl_bit (v : UInt64) (k : Nat) (z : Fin 64) :
    (cryptoRotl64 v k).toBitVec.getLsbD z = v.toBitVec.getLsbD (z - Fin.ofNat 64 k).val := by
  have hk : k % 64 < 64 := Nat.mod_lt _ (by decide)
  have hleft : (UInt64.ofNat (k % 64)).toNat = k % 64 :=
    UInt64.toNat_ofNat_of_lt' (by change _ < 2 ^ 64; omega)
  have hright : (UInt64.ofNat ((64 - k % 64) % 64)).toNat = (64 - k % 64) % 64 :=
    UInt64.toNat_ofNat_of_lt' (by change _ < 2 ^ 64; omega)
  have hindex : (z - Fin.ofNat 64 k).val = (64 - k % 64 + z) % 64 := rfl
  have hmodulus : BitVec.toNat (64 : BitVec 64) = 64 := rfl
  rw [hindex]
  unfold cryptoRotl64
  simp only [UInt64.toBitVec_or, UInt64.toBitVec_shiftLeft, UInt64.toBitVec_shiftRight,
    BitVec.getLsbD_or, BitVec.shiftLeft_eq', BitVec.ushiftRight_eq', BitVec.getLsbD_shiftLeft,
    BitVec.getLsbD_ushiftRight, BitVec.toNat_umod, UInt64.toNat_toBitVec, hleft, hright,
    hmodulus, Nat.mod_mod, z.isLt, decide_true, Bool.true_and]
  rcases Nat.eq_zero_or_pos (k % 64) with hzero | hpos
  · simp [hzero, Nat.mod_eq_of_lt z.isLt]
  · rw [Nat.mod_eq_of_lt (show 64 - k % 64 < 64 by omega)]
    by_cases hz : z.val < k % 64
    · rw [Nat.mod_eq_of_lt (show 64 - k % 64 + z.val < 64 by omega)]
      simp [hz]
    · have hwrap : (64 - k % 64 + z.val) % 64 = z.val - k % 64 := by omega
      rw [hwrap, BitVec.getLsbD_of_ge v.toBitVec (64 - k % 64 + z.val) (by omega)]
      simp [hz]

theorem columns_get (x : Fin 5) : (columns state).get x =
    state.get (laneIndex x 0) ^^^ state.get (laneIndex x 1) ^^^ state.get (laneIndex x 2) ^^^
      state.get (laneIndex x 3) ^^^ state.get (laneIndex x 4) := by
  exact Vector.getElem_ofFn x.isLt

theorem deltas_get (columns : Vector UInt64 5) (x : Fin 5) :
    (deltas columns).get x = columns.get (x - 1) ^^^ cryptoRotl64 (columns.get (x + 1)) 1 := by
  fin_cases x <;> rfl

theorem addDeltas_get (deltas : Vector UInt64 5) (x y : Fin 5) :
    (addDeltas deltas state).get (laneIndex x y) = state.get (laneIndex x y) ^^^ deltas.get x := by
  have hx : (⟨(laneIndex x y).val % 5, Nat.mod_lt _ (by decide)⟩ : Fin 5) = x :=
    Fin.ext (laneIndex_mod x y)
  exact (Vector.getElem_ofFn (laneIndex x y).isLt).trans
    (congrArg (fun i => state.get (laneIndex x y) ^^^ deltas.get i) hx)

theorem arrayOf_theta : arrayOf (addDeltas (deltas (columns state)) state) = theta (arrayOf state) := by
  funext x y z
  unfold arrayOf theta
  simp only [addDeltas_get, deltas_get, columns_get, UInt64.toBitVec_xor, BitVec.getLsbD_xor,
    rotl_bit]
  rfl

theorem scatter_get {α : Type} {n : Nat} {place : Fin n → Fin n} (hplace : Function.Injective place)
    (value : Fin n → α) (l : List (Fin n)) (start : Vector α n) (i : Fin n) :
    (l.foldl (fun v j => v.set (place j) (value j)) start).get (place i) =
      if i ∈ l then value i else start.get (place i) := by
  induction l generalizing start with
  | nil => simp
  | cons j l ih =>
    rw [List.foldl_cons, ih]
    by_cases hmem : i ∈ l
    · rw [if_pos hmem, if_pos (List.mem_cons_of_mem j hmem)]
    rw [if_neg hmem]
    by_cases hij : i = j
    · rw [if_pos (List.mem_cons.mpr (.inl hij)), hij]
      exact Vector.getElem_set_self (place j).isLt
    · rw [if_neg (fun h => (List.mem_cons.mp h).elim hij hmem)]
      apply Vector.getElem_set_ne
      exact fun h => hij (hplace (Fin.ext h.symm))

theorem permutedIndex_injective : Function.Injective permutedIndex := by
  intro i j
  revert i j
  decide

theorem permute_get (i : Fin 25) : (permute state).get (permutedIndex i) =
    cryptoRotl64 (state.get i) (rotationOffsets.getD i 0) := by
  have hget := scatter_get permutedIndex_injective
    (fun j : Fin 25 => cryptoRotl64 state[j] (rotationOffsets.getD j 0)) (List.finRange 25)
    (Vector.replicate 25 0) i
  rw [if_pos (List.mem_finRange i)] at hget
  exact hget

theorem permutedIndex_lane : ∀ x y : Fin 5, permutedIndex (laneIndex (x + 3 * y) x) = laneIndex x y := by
  decide

theorem rotationOffsets_eq : ∀ x y : Fin 5,
    Fin.ofNat 64 (rotationOffsets.getD (laneIndex x y) 0) = Fin.ofNat 64 (rhoOffset x y) := by
  decide +kernel

theorem arrayOf_permute : arrayOf (permute state) = piStep (rho (arrayOf state)) := by
  funext x y z
  unfold arrayOf piStep rho
  rw [← permutedIndex_lane x y, permute_get, rotl_bit, rotationOffsets_eq]

theorem combineRows_get (x y : Fin 5) : (combineRows state).get (laneIndex x y) =
    state.get (laneIndex x y) ^^^
      (~~~state.get (laneIndex (x + 1) y) &&& state.get (laneIndex (x + 2) y)) := by
  refine (Vector.getElem_ofFn (laneIndex x y).isLt).trans ?_
  simp only [laneIndex_mod, laneIndex_div]
  rfl

theorem arrayOf_chi : arrayOf (combineRows state) = chi (arrayOf state) := by
  funext x y z
  unfold arrayOf chi
  rw [combineRows_get]
  simp

theorem roundConstants_eq : ∀ round : Fin 24, ∀ z : Fin 64,
    (roundConstants.getD round 0).toBitVec.getLsbD z = roundConstant round z := by
  decide

theorem arrayOf_iota {round : Nat} (hround : round < 24) :
    arrayOf (state.set 0 (state[0] ^^^ roundConstants.getD round 0)) =
      iota round (arrayOf state) := by
  funext x y z
  unfold arrayOf iota
  by_cases hxy : x = 0 ∧ y = 0
  · obtain ⟨rfl, rfl⟩ := hxy
    have hfirst : (state.set 0 (state[0] ^^^ roundConstants.getD round 0)).get (laneIndex 0 0) =
        state.get (laneIndex 0 0) ^^^ roundConstants.getD round 0 :=
      Vector.getElem_set_self (by decide)
    rw [hfirst, if_pos ⟨rfl, rfl⟩, UInt64.toBitVec_xor, BitVec.getLsbD_xor,
      roundConstants_eq ⟨round, hround⟩ z]
  · have hother : (state.set 0 (state[0] ^^^ roundConstants.getD round 0)).get (laneIndex x y) =
        state.get (laneIndex x y) := by
      apply Vector.getElem_set_ne
      omega
    rw [hother, if_neg hxy]

theorem arrayOf_round {round : Nat} (hround : round < 24) :
    arrayOf (keccakRound round state) = keccakRnd round (arrayOf state) := by
  unfold keccakRound keccakRnd
  dsimp only
  rw [arrayOf_iota hround, arrayOf_chi, arrayOf_permute, arrayOf_theta]

theorem arrayOf_keccakF1600 (state : State) :
    arrayOf (keccakF1600 state) = keccakP (arrayOf state) := by
  apply countUp_simulation (fun lanes bits => arrayOf lanes = bits) rfl
  rintro round hround lanes bits rfl
  exact arrayOf_round hround

end Lanes

section Strings

def stringOf (A : StateArray) : BitString 1600 := fun i =>
  A (Fin.ofNat 5 (i.val / 64)) (Fin.ofNat 5 (i.val / 320)) (Fin.ofNat 64 i.val)

def arrayOfString (S : BitString 1600) : StateArray := fun x y z =>
  S ⟨64 * (5 * y.val + x.val) + z.val, by omega⟩

def keccakString (S : BitString 1600) : BitString 1600 := stringOf (keccakP (arrayOfString S))

def lanesString (state : State) : BitString 1600 := stringOf (arrayOf state)

theorem arrayOfString_stringOf (A : StateArray) : arrayOfString (stringOf A) = A := by
  funext x y z
  have hx : Fin.ofNat 5 ((64 * (5 * y.val + x.val) + z.val) / 64) = x := by
    apply Fin.ext
    change (64 * (5 * y.val + x.val) + z.val) / 64 % 5 = x.val
    omega
  have hy : Fin.ofNat 5 ((64 * (5 * y.val + x.val) + z.val) / 320) = y := by
    apply Fin.ext
    change (64 * (5 * y.val + x.val) + z.val) / 320 % 5 = y.val
    omega
  have hz : Fin.ofNat 64 (64 * (5 * y.val + x.val) + z.val) = z := by
    apply Fin.ext
    change (64 * (5 * y.val + x.val) + z.val) % 64 = z.val
    omega
  unfold arrayOfString stringOf
  dsimp only
  rw [hx, hy, hz]

theorem lanesString_keccakF1600 (state : State) :
    lanesString (keccakF1600 state) = keccakString (lanesString state) := by
  rw [lanesString, arrayOf_keccakF1600, keccakString, lanesString, arrayOfString_stringOf]

/-- Bit `i` of the string is bit `i % 64` of lane `i / 64`. -/
theorem lanesString_eq (state : State) (i : Fin 1600) :
    lanesString state i = (state.getD (i.val / 64) 0).toBitVec.getLsbD (i.val % 64) := by
  have hlane : i.val / 64 < 25 := by omega
  have hindex : laneIndex (Fin.ofNat 5 (i.val / 64)) (Fin.ofNat 5 (i.val / 320)) =
      ⟨i.val / 64, hlane⟩ := by
    apply Fin.ext
    change i.val / 64 % 5 + 5 * (i.val / 320 % 5) = i.val / 64
    omega
  unfold lanesString stringOf arrayOf
  have hget : state.getD (i.val / 64) 0 = state.get ⟨i.val / 64, hlane⟩ := by
    simp [Vector.getD, hlane, Vector.get]
  rw [hindex, hget]
  rfl

def byteBits (v : UInt8) : List Bool := (List.range 8).map v.toBitVec.getLsbD

@[simp] theorem byteBits_length (v : UInt8) : (byteBits v).length = 8 := by
  rw [byteBits, List.length_map, List.length_range]

theorem byteBits_getD (v : UInt8) (k : Nat) : (byteBits v).getD k false = v.toBitVec.getLsbD k := by
  by_cases hk : k < 8
  · rw [List.getD_eq_getElem _ _ (by simpa using hk)]
    simp [byteBits]
  · rw [List.getD_eq_default _ _ (by simpa using hk), BitVec.getLsbD_of_ge _ _ (not_lt.mp hk)]

theorem byte_shift (position : Nat) :
    (UInt64.ofNat (8 * (position % 8))).toNat % 64 = 8 * (position % 8) := by
  rw [UInt64.toNat_ofNat_of_lt' (by change _ < 2 ^ 64; omega)]
  omega

theorem lanesString_xorByte (state : State) (value : UInt8) {position : Nat} (h : position < 200) :
    lanesString (xorByte state position value) =
      xorAt (lanesString state) (8 * position) (byteBits value) := by
  funext i
  have hlane : position / 8 < 25 := by omega
  have hmodulus : BitVec.toNat (64 : BitVec 64) = 64 := rfl
  rw [lanesString_eq, xorAt, lanesString_eq, byteBits_getD]
  unfold xorByte
  dsimp only
  by_cases hsame : i.val / 64 = position / 8
  · have hget : (state.setIfInBounds (position / 8) (state.getD (position / 8) 0 ^^^
        value.toUInt64 <<< UInt64.ofNat (8 * (position % 8)))).getD (position / 8) 0 =
        state.getD (position / 8) 0 ^^^ value.toUInt64 <<< UInt64.ofNat (8 * (position % 8)) := by
      simp [Vector.getD, hlane]
    have hdifference : i.val % 64 - 8 * (position % 8) = i.val - 8 * position := by omega
    rw [hsame, hget]
    simp only [UInt64.toBitVec_xor, UInt64.toBitVec_shiftLeft, BitVec.getLsbD_xor,
      BitVec.shiftLeft_eq', BitVec.getLsbD_shiftLeft, BitVec.toNat_umod, UInt64.toNat_toBitVec,
      hmodulus, byte_shift, UInt8.toBitVec_toUInt64, BitVec.getLsbD_setWidth, hdifference]
    have hbit : i.val % 64 < 64 := Nat.mod_lt _ (by decide)
    have hwidth : i.val - 8 * position < 64 := by omega
    by_cases hle : 8 * position ≤ i.val
    · have hbelow : ¬ i.val % 64 < 8 * (position % 8) := by omega
      simp [hbit, hwidth, hle, hbelow]
    · have hbelow : i.val % 64 < 8 * (position % 8) := by omega
      simp [hle, hbelow]
  · have hget : (state.setIfInBounds (position / 8) (state.getD (position / 8) 0 ^^^
        value.toUInt64 <<< UInt64.ofNat (8 * (position % 8)))).getD (i.val / 64) 0 =
        state.getD (i.val / 64) 0 := by
      simp [Vector.getD, Ne.symm hsame]
    rw [hget]
    by_cases hle : 8 * position ≤ i.val
    · rw [BitVec.getLsbD_of_ge value.toBitVec _ (by omega)]
      simp
    · simp [hle]

theorem byteBits_getByte (state : State) {position : Nat} (h : position < 200) :
    byteBits (getByte state position) =
      (List.range 8).map fun k => bitAt (lanesString state) (8 * position + k) := by
  apply List.map_congr_left
  intro k hk
  have hk8 : k < 8 := List.mem_range.mp hk
  have hlane : (8 * position + k) / 64 = position / 8 := by omega
  have hbit : (8 * position + k) % 64 = 8 * (position % 8) + k := by omega
  rw [bitAt, dif_pos (show 8 * position + k < 1600 by omega), lanesString_eq]
  dsimp only
  rw [hlane, hbit, getByte]
  have hshift : 8 * (position % 8) % 64 = 8 * (position % 8) := Nat.mod_eq_of_lt (by omega)
  simp [UInt64.toBitVec_shiftRight, hk8, hshift]

end Strings

end LiberaCrypt.Keccak
