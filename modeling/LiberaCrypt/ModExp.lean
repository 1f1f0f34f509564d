import LiberaCrypt.BignumMul
import LiberaCrypt.Montgomery
import LiberaCrypt.PowerLadder

namespace LiberaCrypt.ModExp

open LiberaCrypt.Outcome LiberaCrypt.Allocation LiberaCrypt.Limbs LiberaCrypt.Bignum
open LiberaCrypt.BignumAdd LiberaCrypt.BignumMul LiberaCrypt.BignumMod LiberaCrypt.Montgomery
open LiberaCrypt.MontgomeryReduction LiberaCrypt.PowerLadder

/-- `MONT_CTX`, less the scratch words. -/
structure MontCtx where
  n : Nat
  n0inv : UInt32
  mod : LiberaCBignum
  r2 : LiberaCBignum

def montDouble (modulus x : LiberaCBignum) : Fallible LiberaCBignum := do
  let x ← bignumShiftLeftOne x
  if cryptoBignumCompare x modulus ≠ .lt then cryptoBignumSub cryptoBignumInit x modulus
  else pure x

def montInit (modulus : LiberaCBignum) : Fallible MontCtx :=
  if modulus.length = 0 ∨ modulus.limbs.getD 0 0 &&& 1 = 0 then throw .invalidArgument
  else do
    let n := modulus.length
    allocate (4 * (n + 2)) .invalidArgument
    let mod ← cryptoBignumCopy cryptoBignumInit modulus
    let x ← cryptoBignumSetU64 cryptoBignumInit 1
    let r2 ← forUp (fun _ x => montDouble modulus x) (64 * n) x
    pure ⟨n, bignumMontN0inv (modulus.limbs.getD 0 0), mod, r2⟩

/-- One row, with the division by the word done by moving the limbs down. -/
def montRow (n : Nat) (a modulus : List UInt32) (n0inv : UInt32) (work : Work) (bi : UInt32) : Work :=
  let row := mulAddRow n a bi work.low 0
  let z := work.top.toUInt64 + row.2
  let high := (0 : UInt32) + (z >>> 32).toUInt32
  let m := row.1.headD 0 * n0inv
  let reduced := mulAddRow n modulus m row.1 0
  let zn := z.toUInt32.toUInt64 + reduced.2
  ⟨reduced.1.tail ++ [zn.toUInt32], high + (zn >>> 32).toUInt32⟩

def montRows (n : Nat) (a modulus : List UInt32) (n0inv : UInt32) : Nat → List UInt32 → Work → Work
  | 0, _, work => work
  | k + 1, b, work =>
    montRows n a modulus n0inv k b.tail (montRow n a modulus n0inv work (b.headD 0))

def montMul (ctx : MontCtx) (a b : LiberaCBignum) : Fallible LiberaCBignum := do
  let t := montRows ctx.n a.words ctx.mod.words ctx.n0inv ctx.n b.words ⟨List.replicate ctx.n 0, 0⟩
  let r ← bignumReserve cryptoBignumInit (ctx.n + 1)
  let r := bignumNormalize ⟨storeWords r.limbs (t.low ++ [t.top]), ctx.n + 1⟩
  if cryptoBignumCompare r ctx.mod ≠ .lt then cryptoBignumSub cryptoBignumInit r ctx.mod
  else pure r

def montStep (ctx : MontCtx) (exponent baseM : LiberaCBignum) (bit : Nat) (acc : LiberaCBignum) :
    Fallible LiberaCBignum := do
  let acc ← montMul ctx acc acc
  if bignumGetBit exponent bit ≠ 0 then montMul ctx acc baseM else pure acc

/-- A product reduced through the division, into the bignum `out`. -/
def mulMod (out a b modulus : LiberaCBignum) : Fallible LiberaCBignum := do
  let prod ← cryptoBignumMul cryptoBignumInit a b false
  cryptoBignumMod out prod modulus

def evenMultiply (exponent modulus : LiberaCBignum) (i : Nat) (result b : LiberaCBignum) :
    Fallible LiberaCBignum :=
  if bignumGetBit exponent i ≠ 0 then mulMod result result b modulus else pure result

def evenSquare (modulus : LiberaCBignum) (bits i : Nat) (b : LiberaCBignum) :
    Fallible LiberaCBignum :=
  if i + 1 < bits then mulMod b b b modulus else pure b

def evenStep (exponent modulus : LiberaCBignum) (bits i : Nat)
    (state : LiberaCBignum × LiberaCBignum) : Fallible (LiberaCBignum × LiberaCBignum) := do
  let result ← evenMultiply exponent modulus i state.1 state.2
  let b ← evenSquare modulus bits i state.2
  pure (result, b)

def evenModExp (base exponent modulus : LiberaCBignum) : Fallible LiberaCBignum := do
  let result ← cryptoBignumSetU64 cryptoBignumInit 1
  let b ← cryptoBignumMod cryptoBignumInit base modulus
  let bits := cryptoBignumBitLength exponent
  let last ← forUp (evenStep exponent modulus bits) bits (result, b)
  cryptoBignumMod last.1 last.1 modulus

def cryptoBignumModExp (base exponent modulus : LiberaCBignum) : Fallible LiberaCBignum :=
  if modulus.length = 0 then throw .invalidArgument
  else if modulus.limbs.getD 0 0 &&& 1 = 0 then evenModExp base exponent modulus
  else do
    let ctx ← montInit modulus
    let reduced ← cryptoBignumMod cryptoBignumInit base modulus
    let one ← cryptoBignumSetU64 cryptoBignumInit 1
    let baseM ← montMul ctx reduced ctx.r2
    let acc ← montMul ctx one ctx.r2
    let bits := cryptoBignumBitLength exponent
    let acc ← forDown (montStep ctx exponent baseM) bits acc
    montMul ctx acc one

section Rows

variable {n k : Nat} {a b modulus : List UInt32} {n0inv : UInt32} {work : Work}

theorem montRow_eq (hn : n = k + 1) (bi : UInt32) :
    montRow n a modulus n0inv work bi = ciosRow n a modulus n0inv work bi := by
  unfold montRow ciosRow
  dsimp only
  rw [hn, Nat.add_sub_cancel]
  generalize mulAddRow (k + 1) a bi work.low 0 = row
  have hfirst : (modulus.headD 0).toUInt64 * (row.1.headD 0 * n0inv).toUInt64 +
      (row.1.headD 0).toUInt64 + 0 = (row.1.headD 0).toUInt64 +
        (row.1.headD 0 * n0inv).toUInt64 * (modulus.headD 0).toUInt64 := by
    rw [UInt64.add_zero, UInt64.add_comm, UInt64.mul_comm]
  simp only [mulAddRow, hfirst, List.tail_cons, UInt32.zero_add, UInt64.toUInt32_add,
    UInt32.toUInt32_toUInt64]

theorem montRows_eq {j : Nat} (hn : n = k + 1) :
    montRows n a modulus n0inv j b work = ciosRows n a modulus n0inv j b work := by
  induction j generalizing b work with
  | zero => rfl
  | succ j ih => rw [montRows, ciosRows, montRow_eq hn, ih]

end Rows

/-- What initialization establishes of a context for the modulus `M`. -/
structure MontCtx.Sound (ctx : MontCtx) (M : Nat) : Prop where
  pos : ctx.n ≠ 0
  valid : ctx.mod.Valid
  length : ctx.mod.length = ctx.n
  value : ctx.mod.value = M
  odd : Nat.Coprime wordBase M
  inverse : ctx.mod.words.headD 0 * ctx.n0inv = (0 : UInt32) - 1
  r2_valid : ctx.r2.Valid
  r2_le : ctx.r2.value ≤ M
  r2_cast : (ctx.r2.value : ZMod M) = ((wordBase ^ ctx.n : Nat) : ZMod M) ^ 2

/-- A valid bignum in the Montgomery form of `x`. -/
structure MontCtx.Holds (ctx : MontCtx) (M : Nat) (a : LiberaCBignum) (x : ZMod M) : Prop where
  valid : a.Valid
  represents : Represents M (wordBase ^ ctx.n) a.value x

section Multiply

variable {ctx : MontCtx} {M room : Nat} {a b modulus : LiberaCBignum} {x y : ZMod M}

theorem MontCtx.Sound.modulus_pos (h : ctx.Sound M) : 0 < M := by
  by_contra hzero
  have hcoprime := h.odd
  rw [Nat.eq_zero_of_not_pos hzero, Nat.coprime_zero_right] at hcoprime
  exact absurd hcoprime (by decide)

theorem MontCtx.Sound.length_le (h : ctx.Sound M) (ha : a.Valid) (haM : a.value ≤ M) :
    a.length ≤ ctx.n := by
  rw [← h.length]
  apply ha.length_le_of_value
  rw [h.value]
  exact haM

theorem MontCtx.Sound.unit (h : ctx.Sound M) : IsUnit ((wordBase ^ ctx.n : Nat) : ZMod M) :=
  radix_isUnit h.odd ctx.n

theorem finish_ensures (h : ctx.Sound M) {t : Work} (hlow : t.low.length = ctx.n)
    (hlt : t.value < 2 * M) (hroom : 4 * (ctx.n + 1) ≤ room) :
    Ensures room (do
      let r ← bignumReserve cryptoBignumInit (ctx.n + 1)
      let r := bignumNormalize ⟨storeWords r.limbs (t.low ++ [t.top]), ctx.n + 1⟩
      if cryptoBignumCompare r ctx.mod ≠ .lt then cryptoBignumSub cryptoBignumInit r ctx.mod
      else pure r) fun r => r.Valid ∧ r.value = t.value % M := by
  apply (bignumReserve_ensures init_valid hroom).bind
  rintro grown ⟨hgrown, -, hgrownlen, hcapacity, -⟩
  have hlen : (t.low ++ [t.top]).length = ctx.n + 1 := by simp [hlow]
  have hcover : grown.length ≤ (t.low ++ [t.top]).length := by
    rw [hgrownlen]
    exact Nat.zero_le _
  have hvalue : wordsValue (t.low ++ [t.top]) = t.value := by
    rw [wordsValue_append, wordsValue_singleton, Work.value]
  have hnormal := padded_normalize (t.low ++ [t.top]) (grown.capacity - (t.low ++ [t.top]).length)
  rw [← storeWords_covering hgrown hcover (hlen.trans_le hcapacity), hlen, hvalue] at hnormal
  dsimp only
  generalize bignumNormalize ⟨storeWords grown.limbs (t.low ++ [t.top]), ctx.n + 1⟩ = r at *
  obtain ⟨hr, hrvalue⟩ := hnormal
  rw [mod_of_lt_double hlt]
  have hrlen : r.length ≤ ctx.n + 1 := by
    apply hr.length_le_iff.mpr
    rw [hrvalue, ← hvalue, ← hlen]
    exact wordsValue_lt _
  have hcompare := cryptoBignumCompare_lt hr h.valid
  rw [h.value, hrvalue] at hcompare
  by_cases hM : t.value < M
  · rw [if_neg (not_not.mpr (hcompare.mpr hM)), if_pos hM]
    exact Ensures.pure ⟨hr, hrvalue⟩
  · rw [if_pos (mt hcompare.mp hM), if_neg hM]
    have hsub := cryptoBignumSub_ensures init_valid hr h.valid
      (by rw [h.value, hrvalue]; exact not_lt.mp hM) (show 4 * r.length ≤ room by omega)
    rw [hrvalue, h.value] at hsub
    exact hsub

theorem montMul_ensures (h : ctx.Sound M) (ha : a.Valid) (haM : a.value ≤ M) (hb : b.Valid)
    (hbM : b.value ≤ M) (hroom : 4 * (ctx.n + 1) ≤ room) :
    Ensures room (montMul ctx a b) fun r => r.Valid ∧ r.value < M ∧
      (r.value : ZMod M) * (wordBase ^ ctx.n : Nat) = a.value * b.value := by
  obtain ⟨k, hk⟩ := Nat.exists_eq_succ_of_ne_zero h.pos
  have hpos := h.modulus_pos
  have hstart : Work.value ⟨List.replicate ctx.n 0, 0⟩ = 0 := by simp [Work.value]
  obtain ⟨hlow, hlt, hcast⟩ := ciosRows_spec ⟨List.replicate ctx.n 0, 0⟩ (b := b.words)
    (n := ctx.n) (j := ctx.n) (M := M) (a := a.words) hk
    (ha.words_length.trans_le (h.length_le ha haM)) (h.valid.words_length.trans h.length) h.value haM
    h.inverse (List.length_replicate ..) (by rw [hstart]; omega)
    (hb.words_length.trans_le (h.length_le hb hbM))
  rw [hstart, Nat.cast_zero, zero_add] at hcast
  unfold montMul
  rw [montRows_eq hk]
  apply (finish_ensures h hlow hlt hroom).mono
  rintro r ⟨hvalid, hvalue⟩
  refine ⟨hvalid, ?_, ?_⟩
  · rw [hvalue]
    exact Nat.mod_lt _ hpos
  · rw [hvalue, ZMod.natCast_mod]
    exact hcast

theorem montMul_holds (h : ctx.Sound M) (ha : ctx.Holds M a x) (hb : ctx.Holds M b y)
    (hroom : 4 * (ctx.n + 1) ≤ room) :
    Ensures room (montMul ctx a b) fun r => ctx.Holds M r (x * y) := by
  apply (montMul_ensures h ha.valid ha.represents.lt.le hb.valid hb.represents.lt.le hroom).mono
  rintro r ⟨hvalid, hlt, hcast⟩
  exact ⟨hvalid, ha.represents.mul h.unit hb.represents hlt hcast⟩

theorem montMul_enter (h : ctx.Sound M) (ha : a.Valid) (haM : a.value ≤ M)
    (hroom : 4 * (ctx.n + 1) ≤ room) :
    Ensures room (montMul ctx a ctx.r2) fun r => ctx.Holds M r a.value := by
  apply (montMul_ensures h ha haM h.r2_valid h.r2_le hroom).mono
  rintro r ⟨hvalid, hlt, hcast⟩
  exact ⟨hvalid, Represents.enter h.unit h.r2_cast hlt hcast⟩

theorem montMul_leave (h : ctx.Sound M) (ha : ctx.Holds M a x) (hb : b.Valid) (hone : b.value = 1)
    (hroom : 4 * (ctx.n + 1) ≤ room) :
    Ensures room (montMul ctx a b) fun r => r.Valid ∧ r.value < M ∧ (r.value : ZMod M) = x := by
  have hpos := h.modulus_pos
  apply (montMul_ensures h ha.valid ha.represents.lt.le hb (by rw [hone]; exact hpos) hroom).mono
  rintro r ⟨hvalid, hlt, hcast⟩
  rw [hone] at hcast
  exact ⟨hvalid, hlt, ha.represents.leave h.unit hcast⟩

theorem montDouble_ensures {r : LiberaCBignum} (hm : modulus.Valid) (hr : r.Valid)
    (hle : r.value ≤ modulus.value) (hroom : 4 * (modulus.length + 1) ≤ room) :
    Ensures room (montDouble modulus r) fun d => d.Valid ∧ d.value ≤ modulus.value ∧
      (d.value : ZMod modulus.value) = 2 * r.value := by
  have hlen := hr.length_le_of_value hle
  apply (bignumShiftLeftOne_ensures hr (by omega)).bind
  rintro d ⟨hd, hdvalue⟩
  have hcompare := cryptoBignumCompare_lt hd hm
  rw [hdvalue] at hcompare
  by_cases hlt : 2 * r.value < modulus.value
  · rw [if_neg (not_not.mpr (hcompare.mpr hlt))]
    refine Ensures.pure ⟨hd, by rw [hdvalue]; exact hlt.le, ?_⟩
    rw [hdvalue]
    push_cast
    rfl
  · rw [if_pos (mt hcompare.mp hlt)]
    have hge := not_lt.mp hlt
    have hdlen : d.length ≤ modulus.length + 1 := by
      apply hd.length_le_iff.mpr
      have hmlt := modulus.value_lt
      have htwo : 2 ≤ wordBase := by decide
      have hmul := Nat.mul_le_mul_right (wordBase ^ modulus.length) htwo
      rw [hdvalue, pow_succ, Nat.mul_comm _ wordBase]
      omega
    apply (cryptoBignumSub_ensures init_valid hd hm (by rw [hdvalue]; exact hge) (by omega)).mono
    rintro s ⟨hs, hsvalue⟩
    rw [hdvalue] at hsvalue
    refine ⟨hs, by omega, ?_⟩
    rw [hsvalue, Nat.cast_sub hge, ZMod.natCast_self, sub_zero]
    push_cast
    rfl

theorem montInit_ensures (hm : modulus.Valid) (hodd : modulus.value % 2 = 1)
    (hroom : 4 * (modulus.length + 2) ≤ room) :
    Ensures room (montInit modulus) fun ctx =>
      ctx.n = modulus.length ∧ ctx.Sound modulus.value := by
  have hpos : modulus.value ≠ 0 := by
    intro h0
    rw [h0] at hodd
    exact absurd hodd (by decide)
  have hlength : modulus.length ≠ 0 := fun h0 => hpos (hm.length_eq_zero.mp h0)
  obtain ⟨hhead, hparity⟩ := words_head hlength
  have hodd' : (modulus.limbs.getD 0 0).toNat % 2 = 1 := hparity.trans hodd
  have hcheck : ¬ (modulus.length = 0 ∨ modulus.limbs.getD 0 0 &&& 1 = 0) := by
    rw [not_or, odd_iff, hodd']
    exact ⟨hlength, by decide⟩
  unfold montInit
  rw [if_neg hcheck]
  apply (Ensures.allocate hroom).bind
  intro _ _
  apply (cryptoBignumCopy_ensures init_valid hm (by omega)).bind
  rintro mod ⟨hmod, hmodvalue⟩
  apply (cryptoBignumSetU64_ensures init_valid 1 (by omega)).bind
  rintro x ⟨hx, hxvalue⟩
  refine (Ensures.forUp (n := 64 * modulus.length) (s := x) (f := fun _ x => montDouble modulus x)
    (I := fun i x => x.Valid ∧ x.value ≤ modulus.value ∧
      (x.value : ZMod modulus.value) = ((2 ^ i : Nat) : ZMod modulus.value)) ?_ ?_).bind ?_
  · refine ⟨hx, ?_, ?_⟩
    · rw [hxvalue]
      exact Nat.one_le_iff_ne_zero.mpr hpos
    · rw [hxvalue]
      simp
  · rintro i x - ⟨hx, hle, hcast⟩
    apply (montDouble_ensures hm hx hle (by omega)).mono
    rintro d ⟨hd, hdle, hdcast⟩
    refine ⟨hd, hdle, ?_⟩
    rw [hdcast, hcast, pow_succ]
    push_cast
    ring
  rintro r2 ⟨hr2, hr2le, hr2cast⟩
  have hmodlen : mod.length = modulus.length := hmod.length_eq hm hmodvalue
  have hmodhead : mod.words.headD 0 = modulus.words.headD 0 := by
    have hwords : mod.words = modulus.words := by
      apply wordsValue_injective
      · rw [hmod.words_length, hm.words_length, hmodlen]
      · exact hmodvalue
    rw [hwords]
  apply Ensures.pure
  refine ⟨rfl, hlength, hmod, hmodlen, hmodvalue, ?_, ?_, hr2, hr2le, ?_⟩
  · exact Nat.Coprime.pow_left 32 (Nat.coprime_two_left.mpr (Nat.odd_iff.mpr hodd))
  · dsimp only
    rw [hmodhead, hhead]
    exact bignumMontN0inv_spec hodd'
  · dsimp only
    rw [hr2cast, wordBase_pow, ← Nat.cast_pow, ← pow_mul]
    congr 2
    ring

theorem montStep_holds (h : ctx.Sound M) {exponent baseM acc : LiberaCBignum}
    (hexponent : exponent.Valid) {i : Nat} (hbase : ctx.Holds M baseM x)
    (hacc : ctx.Holds M acc (x ^ (exponent.value / 2 ^ (i + 1))))
    (hroom : 4 * (ctx.n + 1) ≤ room) :
    Ensures room (montStep ctx exponent baseM i acc) fun r =>
      ctx.Holds M r (x ^ (exponent.value / 2 ^ i)) := by
  have hbit := bignumGetBit_toNat hexponent i
  apply (montMul_holds h hacc hacc hroom).bind
  intro square hsquare
  split_ifs with hz
  · have hone : exponent.value / 2 ^ i % 2 = 1 := by
      have hne : (bignumGetBit exponent i).toNat ≠ 0 := fun h0 => hz (UInt32.toNat_inj.mp h0)
      omega
    rw [← step_set x hone]
    exact montMul_holds h hsquare hbase hroom
  · rw [not_not.mp hz] at hbit
    rw [← step_clear x hbit.symm]
    exact Ensures.pure hsquare

end Multiply

section Even

variable {room : Nat} {base exponent modulus : LiberaCBignum}

theorem mulMod_ensures {a b out : LiberaCBignum} (hm : modulus.Valid) (hpos : modulus.value ≠ 0)
    (ha : a.Valid) (hale : a.value ≤ modulus.value) (hb : b.Valid) (hble : b.value ≤ modulus.value)
    (hout : out.Valid) (hroom : 4 * (3 * modulus.length + 1) ≤ room) :
    Ensures room (mulMod out a b modulus) fun r =>
      r.Valid ∧ r.value = a.value * b.value % modulus.value := by
  have halen := ha.length_le_of_value hale
  have hblen := hb.length_le_of_value hble
  apply (cryptoBignumMul_ensures init_valid ha hb false (by omega)).bind
  rintro prod ⟨hprod, hvalue⟩
  have hlen : prod.length ≤ 2 * modulus.length := by
    apply hprod.length_le_iff.mpr
    rw [hvalue, Nat.two_mul, pow_add]
    exact Nat.mul_lt_mul'' (hale.trans_lt modulus.value_lt) (hble.trans_lt modulus.value_lt)
  rw [← hvalue]
  exact cryptoBignumMod_ensures hout hprod hm hpos (by omega)

/-- The result holds the power of the bits below `i`, and `b` the next repeated square. -/
structure EvenReached (base exponent modulus : LiberaCBignum) (i : Nat)
    (state : LiberaCBignum × LiberaCBignum) : Prop where
  result_valid : state.1.Valid
  result_le : state.1.value ≤ modulus.value
  result_cast : (state.1.value : ZMod modulus.value) =
    (base.value : ZMod modulus.value) ^ (exponent.value % 2 ^ i)
  b_valid : state.2.Valid
  b_le : state.2.value ≤ modulus.value
  b_cast : i < cryptoBignumBitLength exponent →
    (state.2.value : ZMod modulus.value) = (base.value : ZMod modulus.value) ^ 2 ^ i

theorem evenStep_reached (hm : modulus.Valid) (hpos : modulus.value ≠ 0)
    (hexponent : exponent.Valid) {i : Nat} (hi : i < cryptoBignumBitLength exponent)
    {state : LiberaCBignum × LiberaCBignum} (h : EvenReached base exponent modulus i state)
    (hroom : 4 * (3 * modulus.length + 1) ≤ room) :
    Ensures room (evenStep exponent modulus (cryptoBignumBitLength exponent) i state)
      (EvenReached base exponent modulus (i + 1)) := by
  have hbit := bignumGetBit_toNat hexponent i
  have hmodlt : ∀ v, v % modulus.value ≤ modulus.value :=
    fun v => (Nat.mod_lt v (Nat.pos_of_ne_zero hpos)).le
  have hresult : Ensures room (evenMultiply exponent modulus i state.1 state.2) fun r =>
      r.Valid ∧ r.value ≤ modulus.value ∧ (r.value : ZMod modulus.value) =
        (base.value : ZMod modulus.value) ^ (exponent.value % 2 ^ (i + 1)) := by
    have hstep := step_low (base.value : ZMod modulus.value) exponent.value i
    rw [← hbit] at hstep
    unfold evenMultiply
    split_ifs with hz
    · have hone : (bignumGetBit exponent i).toNat = 1 := by
        have hne : (bignumGetBit exponent i).toNat ≠ 0 := fun h0 => hz (UInt32.toNat_inj.mp h0)
        omega
      rw [hone, pow_one, ← h.result_cast, ← h.b_cast hi] at hstep
      apply (mulMod_ensures hm hpos h.result_valid h.result_le h.b_valid h.b_le h.result_valid
        hroom).mono
      rintro r ⟨hr, hvalue⟩
      refine ⟨hr, by rw [hvalue]; exact hmodlt _, ?_⟩
      rw [hvalue, ZMod.natCast_mod, Nat.cast_mul, hstep]
    · rw [not_not.mp hz, UInt32.toNat_zero, pow_zero, mul_one, ← h.result_cast] at hstep
      exact Ensures.pure ⟨h.result_valid, h.result_le, hstep⟩
  have hsquare : Ensures room
      (evenSquare modulus (cryptoBignumBitLength exponent) i state.2) fun r =>
      r.Valid ∧ r.value ≤ modulus.value ∧ (i + 1 < cryptoBignumBitLength exponent →
        (r.value : ZMod modulus.value) = (base.value : ZMod modulus.value) ^ 2 ^ (i + 1)) := by
    unfold evenSquare
    split_ifs with hnext
    · apply (mulMod_ensures hm hpos h.b_valid h.b_le h.b_valid h.b_le h.b_valid hroom).mono
      rintro r ⟨hr, hvalue⟩
      refine ⟨hr, by rw [hvalue]; exact hmodlt _, fun _ => ?_⟩
      rw [hvalue, ZMod.natCast_mod, Nat.cast_mul, h.b_cast hi, square_low]
    · exact Ensures.pure ⟨h.b_valid, h.b_le, fun hlt => absurd hlt hnext⟩
  apply hresult.bind
  rintro result ⟨hr, hrle, hrcast⟩
  apply hsquare.bind
  rintro b ⟨hb, hble, hbcast⟩
  exact Ensures.pure ⟨hr, hrle, hrcast, hb, hble, hbcast⟩

theorem evenModExp_ensures (hbase : base.Valid) (hexponent : exponent.Valid) (hm : modulus.Valid)
    (hpos : modulus.value ≠ 0)
    (hroom : 4 * (3 * modulus.length + base.length + 1) ≤ room) :
    Ensures room (evenModExp base exponent modulus) fun out => out.Valid ∧
      out.value = base.value ^ exponent.value % modulus.value := by
  have hlength : modulus.length ≠ 0 := fun h0 => hpos (hm.length_eq_zero.mp h0)
  have hmodlt := Nat.mod_lt base.value (Nat.pos_of_ne_zero hpos)
  apply (cryptoBignumSetU64_ensures init_valid 1 (by omega)).bind
  rintro result ⟨hr, hrvalue⟩
  apply (cryptoBignumMod_ensures init_valid hbase hm hpos (by omega)).bind
  rintro b ⟨hb, hbvalue⟩
  refine (Ensures.forUp (n := cryptoBignumBitLength exponent)
    (I := EvenReached base exponent modulus) ?_ ?_).bind ?_
  · refine ⟨hr, ?_, ?_, hb, by rw [hbvalue]; exact hmodlt.le, fun _ => ?_⟩
    · rw [hrvalue]
      exact Nat.one_le_iff_ne_zero.mpr hpos
    · rw [hrvalue, pow_zero, Nat.mod_one, pow_zero]
      exact Nat.cast_one
    · rw [hbvalue, ZMod.natCast_mod, pow_zero, pow_one]
  · intro i state hi h
    exact evenStep_reached hm hpos hexponent hi h (by omega)
  · rintro ⟨result, b⟩ h
    have hlen := h.result_valid.length_le_of_value h.result_le
    apply (cryptoBignumMod_ensures h.result_valid h.result_valid hm hpos (by omega)).mono
    rintro r ⟨hr, hvalue⟩
    refine ⟨hr, ?_⟩
    have hcast := h.result_cast
    rw [Nat.mod_eq_of_lt (by rw [cryptoBignumBitLength_eq hexponent]; exact Nat.lt_size_self _),
      ← Nat.cast_pow, ZMod.natCast_eq_natCast_iff'] at hcast
    exact hvalue.trans hcast

theorem cryptoBignumModExp_ensures (hbase : base.Valid) (hexponent : exponent.Valid)
    (hm : modulus.Valid) (hpos : modulus.value ≠ 0)
    (hroom : 4 * (3 * modulus.length + base.length + 1) ≤ room) :
    Ensures room (cryptoBignumModExp base exponent modulus) fun out => out.Valid ∧
      out.value = base.value ^ exponent.value % modulus.value := by
  have hlength : modulus.length ≠ 0 := fun h0 => hpos (hm.length_eq_zero.mp h0)
  have hmodlt := Nat.mod_lt base.value (Nat.pos_of_ne_zero hpos)
  have hparity := (words_head hlength).2
  unfold cryptoBignumModExp
  rw [if_neg hlength]
  split_ifs with heven
  · exact evenModExp_ensures hbase hexponent hm hpos hroom
  have hodd : modulus.value % 2 = 1 := by
    rw [odd_iff, hparity] at heven
    omega
  apply (montInit_ensures hm hodd (by omega)).bind
  rintro ctx ⟨hn, hsound⟩
  have hproduct : 4 * (ctx.n + 1) ≤ room := by omega
  apply (cryptoBignumMod_ensures init_valid hbase hm hpos (by omega)).bind
  rintro reduced ⟨hreduced, hredvalue⟩
  apply (cryptoBignumSetU64_ensures init_valid 1 (by omega)).bind
  rintro one ⟨hone, honevalue⟩
  have honevalue' : one.value = 1 := honevalue
  apply (montMul_enter hsound hreduced (by rw [hredvalue]; exact hmodlt.le) hproduct).bind
  intro baseM hbaseM
  rw [hredvalue, ZMod.natCast_mod] at hbaseM
  apply (montMul_enter hsound hone (by rw [honevalue']; exact hsound.modulus_pos) hproduct).bind
  intro acc hacc
  rw [honevalue', Nat.cast_one] at hacc
  refine (Ensures.forDown (n := cryptoBignumBitLength exponent)
    (I := fun i acc => ctx.Holds modulus.value acc
      ((base.value : ZMod modulus.value) ^ (exponent.value / 2 ^ i))) ?_ ?_).bind ?_
  · rw [start _ (by rw [cryptoBignumBitLength_eq hexponent]; exact Nat.lt_size_self _)]
    exact hacc
  · intro i acc _ hacc
    exact montStep_holds hsound hexponent hbaseM hacc hproduct
  · intro acc hacc
    rw [pow_zero, Nat.div_one] at hacc
    apply (montMul_leave hsound hacc hone honevalue' hproduct).mono
    rintro r ⟨hr, hlt, hcast⟩
    exact ⟨hr, eq_mod_of_cast hlt hcast⟩

end Even

end LiberaCrypt.ModExp
