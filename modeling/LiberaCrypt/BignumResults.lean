import LiberaCrypt.BignumMachine

namespace LiberaCrypt.BignumResults

open LiberaCrypt.Outcome LiberaCrypt.Allocation LiberaCrypt.Bignum LiberaCrypt.BignumAdd
open LiberaCrypt.BignumCodec LiberaCrypt.BignumMachine LiberaCrypt.BignumMod
open LiberaCrypt.BignumMul LiberaCrypt.BignumSecret LiberaCrypt.BignumSquare
open LiberaCrypt.CountedLoop LiberaCrypt.Limbs LiberaCrypt.ModExp LiberaCrypt.ModExpAgree
open LiberaCrypt.ModExpSecure
open LiberaCrypt.ModExpVartime LiberaCrypt.Montgomery

variable {α β : Type}

/-- What holds of every result of `x`. -/
def Yields (x : Fallible α) (post : α → Prop) : Prop :=
  ∀ host k a k', x host k = (.ok a, k') → post a

section Yields

variable {x : Fallible α} {post mid : α → Prop} {status : LiberaCError}

theorem Yields.of_ensures {room : Nat} (h : Ensures room x post) : Yields x post := by
  intro host k a k' hrun
  have hx := h host k
  rw [outcome, hrun] at hx
  exact hx

theorem Yields.pure {a : α} (h : post a) : Yields (pure a) post := by
  intro host k a' k' hrun
  cases hrun
  exact h

theorem Yields.thrown : Yields (throw status : Fallible α) post := nofun

theorem Yields.mono {weak : α → Prop} (h : Yields x post) (hpost : ∀ a, post a → weak a) :
    Yields x weak := fun host k a k' hrun => hpost a (h host k a k' hrun)

theorem Yields.any : Yields x fun _ => True := fun _ _ _ _ _ => trivial

theorem Yields.bind {f : α → Fallible β} {post : β → Prop} (hx : Yields x mid)
    (hf : ∀ a, mid a → Yields (f a) post) : Yields (x >>= f) post := by
  intro host k b k' hrun
  change ExceptT.bindCont (fun a => f a host) (x host k).1 (x host k).2 = _ at hrun
  rcases hfirst : x host k with ⟨e | a, next⟩
  · rw [hfirst] at hrun
    cases hrun
  · rw [hfirst] at hrun
    exact hf a (hx host k a next hfirst) host next b k' hrun

theorem Yields.guard {c : Prop} [Decidable c] (h : ¬ c → Yields x post) :
    Yields (if c then throw status else x) post := by
  split
  · exact Yields.thrown
  · next hc => exact h hc

theorem Yields.guarded {c : Prop} [Decidable c]
    (h : ¬ c → Yields (if c then throw status else x) post) :
    Yields (if c then throw status else x) post := by
  by_cases hc : c
  · rw [if_pos hc]
    exact Yields.thrown
  · exact h hc

theorem Yields.mapM {γ : Type} {f : α → Fallible β} {P : γ → α → Prop} {Q : γ → β → Prop}
    {cs : List γ} {as : List α} (has : List.Forall₂ P cs as)
    (hf : ∀ c a, P c a → Yields (f a) (Q c)) : Yields (as.mapM f) (List.Forall₂ Q cs) := by
  induction has with
  | nil => exact Yields.pure List.Forall₂.nil
  | cons hhead _ ih =>
    rw [List.mapM_cons]
    refine (hf _ _ hhead).bind fun b hb => ?_
    refine ih.bind fun bs hbs => ?_
    exact Yields.pure (List.Forall₂.cons hb hbs)

end Yields

/-- A valid bignum for a number that is `good`. -/
structure Holding (good : Nat → Prop) (r : LiberaCBignum) : Prop where
  valid : r.Valid
  good : good r.value

variable {out a b base exponent modulus : LiberaCBignum} {n : Nat}

theorem limbsOf_value (ha : a.Valid) : limbsOf a.value = a.length := by
  have hle : ∀ n, a.length ≤ n ↔ a.value.size ≤ 32 * n := by
    intro n
    rw [ha.length_le_iff, wordBase_pow, Nat.size_le]
  have hsize := (hle a.length).mp le_rfl
  have hleast := (hle (limbsOf a.value)).mpr (by unfold limbsOf; omega)
  unfold limbsOf at hleast ⊢
  omega

theorem value_ne_zero (ha : a.Valid) (h : a.length ≠ 0) : a.value ≠ 0 :=
  fun hzero => h (ha.length_eq_zero.mpr hzero)

theorem cryptoBignumMod_yields (hout : out.Valid) (ha : a.Valid) (hm : modulus.Valid) :
    Yields (cryptoBignumMod out a modulus)
      (Holding fun r => modulus.value ≠ 0 ∧ r = a.value % modulus.value) := by
  refine Yields.guarded fun hzero => ?_
  have hpos := value_ne_zero hm hzero
  exact (Yields.of_ensures (cryptoBignumMod_ensures hout ha hm hpos le_rfl)).mono
    fun r hr => ⟨hr.1, hpos, hr.2⟩

theorem cryptoBignumMul_yields (hout : out.Valid) (ha : a.Valid) (hb : b.Valid) (aliased : Bool) :
    Yields (cryptoBignumMul out a b aliased) (Holding fun r => r = a.value * b.value) :=
  (Yields.of_ensures (cryptoBignumMul_ensures hout ha hb aliased le_rfl)).mono
    fun _ hr => ⟨hr.1, hr.2⟩

theorem cryptoBignumModMul_yields (hout : out.Valid) (ha : a.Valid) (hb : b.Valid)
    (hm : modulus.Valid) :
    Yields (cryptoBignumModMul out a b modulus)
      (Holding fun r => modulus.value ≠ 0 ∧ r = a.value * b.value % modulus.value) := by
  refine Yields.guard fun _ => ?_
  refine (cryptoBignumMul_yields init_valid ha hb false).bind fun product hproduct => ?_
  rw [← hproduct.good]
  exact cryptoBignumMod_yields hout hproduct.valid hm

theorem cryptoBignumModSquare_yields (hout : out.Valid) (ha : a.Valid) (hm : modulus.Valid) :
    Yields (cryptoBignumModSquare out a modulus)
      (Holding fun r => modulus.value ≠ 0 ∧ r = a.value ^ 2 % modulus.value) := by
  refine Yields.guarded fun hzero => ?_
  have hpos := value_ne_zero hm hzero
  exact (Yields.of_ensures (cryptoBignumModSquare_ensures hout ha hm hpos le_rfl)).mono
    fun r hr => ⟨hr.1, hpos, hr.2⟩

theorem odd_value (hpos : modulus.length ≠ 0)
    (hparity : ¬ modulus.limbs.getD 0 0 &&& 1 = 0) : modulus.value % 2 = 1 := by
  rw [odd_iff, (words_head hpos).2] at hparity
  omega

theorem bignumCtMontMul_length {ctx : BignumMontCtx} (hn : ctx.n ≠ 0) (x y : List UInt32) :
    (bignumCtMontMul ctx x y).length = ctx.n := by
  obtain ⟨k, hk⟩ := Nat.exists_eq_succ_of_ne_zero hn
  have hrows : ∀ rows y (work : Work), work.low.length = ctx.n →
      (ciosRows ctx.n x ctx.mod ctx.n0inv rows y work).low.length = ctx.n := by
    intro rows
    induction rows with
    | zero => exact fun _ _ hwork => hwork
    | succ rows ih => exact fun y work _ => ih y.tail _ (ciosRow_length hk (y.headD 0))
  have hlow : (ctx.candidate x y).low.length = ctx.n :=
    hrows ctx.n y ⟨List.replicate ctx.n 0, 0⟩ List.length_replicate
  simp only [bignumCtMontMul, selectWords, List.length_zipWith, hlow, subRow_length, Nat.min_self]

theorem bignumModExpCtCore_words (bases : List LiberaCBignum) (fixed : Bool) :
    bignumModExpCtCore bases exponent modulus fixed =
      (modExpCtWords bases exponent modulus fixed >>= fun words =>
        words.mapM fun w => bignumCtStoreFixed w modulus.length) := by
  unfold bignumModExpCtCore modExpCtWords
  dsimp only
  split_ifs
  case neg => simp only [bind_assoc, pure_bind, List.mapM_map, Function.comp_def]
  all_goals rfl

structure PowerWords (exponent modulus base : LiberaCBignum) (w : List UInt32) : Prop where
  length : w.length = modulus.length
  value : base.value < modulus.value →
    wordsValue w = base.value ^ (exponent.value % wordBase ^ modulus.length) % modulus.value

structure Powers (fixed : Bool) (bases : List LiberaCBignum) (exponent modulus : LiberaCBignum)
    (words : List (List UInt32)) : Prop where
  odd : modulus.value % 2 = 1
  short : modulus.length < 2 ^ 64
  reduced : fixed = false → ∀ base ∈ bases, base.value < modulus.value
  words : List.Forall₂ (PowerWords exponent modulus) bases words

theorem modExpCtWords_yields {bases : List LiberaCBignum} (fixed : Bool)
    (hbases : ∀ base ∈ bases, base.Valid) (hexponent : exponent.Valid) (hm : modulus.Valid) :
    Yields (modExpCtWords bases exponent modulus fixed) (Powers fixed bases exponent modulus) := by
  unfold modExpCtWords
  dsimp only
  refine Yields.guard fun hlength => ?_
  refine Yields.guard fun hparity => ?_
  refine Yields.guard fun hfixed => ?_
  refine Yields.guard fun hcompared => ?_
  refine Yields.guard fun hcapacity => ?_
  refine Yields.guard fun hguard => ?_
  have hodd := odd_value hlength hparity
  have hshort : modulus.length < 2 ^ 64 := by
    have hle := not_lt.mp (not_or.mp hguard).1
    unfold sizeMax at hle
    omega
  have hreduced : fixed = false → ∀ base ∈ bases, base.value < modulus.value := by
    intro hclear base hmem
    by_contra hge
    apply hcompared
    refine ⟨by simp [hclear], base, hmem, ?_⟩
    rw [Ne, cryptoBignumCompare_lt (hbases base hmem) hm]
    exact hge
  refine (Yields.of_ensures (Ensures.reported (bignumMontInit_ensures hm hodd le_rfl))).bind ?_
  rintro ctx ⟨hn, hsound⟩
  refine Yields.any.bind fun _ _ => Yields.pure ⟨hodd, hshort, hreduced, ?_⟩
  obtain ⟨honelen, honevalue⟩ := oneWords_spec hsound.pos
  have hone : ctx.Holds modulus.value (bignumCtMontMul ctx (oneWords ctx.n) ctx.r2) 1 := by
    have henter := bignumCtMontMul_reduces.enter_holds hsound honelen
      (by rw [honevalue]; exact hsound.modulus_pos)
    rw [honevalue, Nat.cast_one] at henter
    exact henter
  have hscanned := scanned_value (n := ctx.n) hexponent (by omega)
  have hwide : exponent.value % wordBase ^ ctx.n < 2 ^ (32 * ctx.n) := by
    rw [← wordBase_pow]
    exact Nat.mod_lt _ (Nat.pow_pos wordBase_pos)
  have hstart : List.Forall₂ (fun (base : LiberaCBignum) state => base.value < modulus.value →
      Reached ctx modulus.value (exponent.value % wordBase ^ ctx.n) (32 * ctx.n) base state) bases
      (bases.map (startState ctx fixed (bignumCtMontMul ctx (oneWords ctx.n) ctx.r2))) := by
    rw [List.forall₂_map_right_iff, List.forall₂_same]
    intro base hmem hlt
    apply startState_reached hsound (hbases base hmem) hlt _ _ hone hwide
    · rw [hn]
      exact (hbases base hmem).length_le_of_value hlt.le
    · intro hset
      by_contra hshorter
      exact hfixed ⟨hset, base, hmem, by omega⟩
  rw [← hn, List.forall₂_map_right_iff]
  apply (scanExponent_reached (fun base => base.value < modulus.value) hsound hscanned hstart).imp
  intro base state hstate
  refine ⟨(bignumCtMontMul_length hsound.pos _ _).trans hn, fun hlt => ?_⟩
  obtain ⟨hlen, hreslt, hcast⟩ :=
    bignumCtMontMul_reduces.leave hsound (hstate hlt).acc honelen honevalue
  rw [pow_zero, Nat.div_one] at hcast
  rw [← hn]
  exact MontgomeryReduction.eq_mod_of_cast hreslt hcast

theorem bignumCtStoreFixed_yields {w : List UInt32} (hw : w.length = n) (hn : n < 2 ^ 64) :
    Yields (bignumCtStoreFixed w n) (Holding fun r => r = wordsValue w) :=
  (Yields.of_ensures (bignumCtStoreFixed_ensures hw le_rfl hn)).mono fun _ hr => ⟨hr.1, hr.2.1⟩

theorem bignumModExpCtCore_yields {bases : List LiberaCBignum} (fixed : Bool)
    (hbases : ∀ base ∈ bases, base.Valid) (hexponent : exponent.Valid) (hm : modulus.Valid) :
    Yields (bignumModExpCtCore bases exponent modulus fixed)
      (List.Forall₂ (fun base => Holding fun r => modulus.value % 2 = 1 ∧
        (fixed = false → base.value < modulus.value) ∧ (base.value < modulus.value →
          r = base.value ^ (exponent.value % wordBase ^ limbsOf modulus.value) % modulus.value))
        bases) := by
  rw [bignumModExpCtCore_words, limbsOf_value hm]
  refine (modExpCtWords_yields fixed hbases hexponent hm).bind fun words hpowers => ?_
  have hmembers : List.Forall₂ (fun base w => base ∈ bases ∧ PowerWords exponent modulus base w)
      bases words := by
    rw [List.forall₂_iff_zip]
    obtain ⟨hlength, hzip⟩ := List.forall₂_iff_zip.mp hpowers.words
    exact ⟨hlength, fun hmem => ⟨(List.of_mem_zip hmem).1, hzip hmem⟩⟩
  refine Yields.mapM hmembers fun base w hw => ?_
  refine (bignumCtStoreFixed_yields hw.2.length hpowers.short).mono fun r hr => ?_
  refine ⟨hr.valid, hpowers.odd, fun hclear => hpowers.reduced hclear base hw.1, fun hlt => ?_⟩
  rw [hr.good]
  exact hw.2.value hlt

theorem cryptoBignumModExpPublicFixedBase_yields (hbase : base.Valid) (hexponent : exponent.Valid)
    (hm : modulus.Valid) :
    Yields (cryptoBignumModExpPublicFixedBase base exponent modulus)
      (Holding (power .publicFixedBase base.value exponent.value modulus.value)) := by
  unfold cryptoBignumModExpPublicFixedBase
  dsimp only
  refine Yields.guard fun hstart => ?_
  refine Yields.guard fun hstorage => ?_
  refine Yields.guard fun hborrow => ?_
  have hif := hstart
  have hif' := hstorage
  simp only [not_or, not_lt] at hstart hstorage
  have hodd := odd_value hstart.1 hstart.2.2
  have hnonzero := value_ne_zero hexponent hstart.2.1
  have hlt : base.value < modulus.value := by
    have hvalue := subRow_value (n := modulus.length) (a := base.limbs.take modulus.length)
      (b := modulus.words) (List.length_take_le _ _) hm.words_length.le zero_carry
    have hrow := wordsValue_lt
      (subRow modulus.length (base.limbs.take modulus.length) modulus.words 0).1
    have hne : (subRow modulus.length (base.limbs.take modulus.length) modulus.words 0).2.toNat ≠
        0 := fun hzero => hborrow (UInt64.toNat_inj.mp hzero)
    rw [subRow_length] at hrow
    rw [hbase.value_take hstorage.2.1, UInt64.toNat_zero, Nat.add_zero] at hvalue
    change _ + modulus.value = _ at hvalue
    have hpositive : wordBase ^ modulus.length ≤ wordBase ^ modulus.length *
        (subRow modulus.length (base.limbs.take modulus.length) modulus.words 0).2.toNat :=
      Nat.le_mul_of_pos_right _ (Nat.pos_of_ne_zero hne)
    omega
  have hspec := cryptoBignumModExpPublicFixedBase_ensures hbase hlt hstorage.1 hexponent hnonzero hm
    hodd le_rfl
  unfold cryptoBignumModExpPublicFixedBase at hspec
  dsimp only at hspec
  rw [if_neg hif, if_neg hif', if_neg hborrow] at hspec
  exact (Yields.of_ensures hspec).mono fun r hr => ⟨hr.1, hodd, hnonzero, hlt, hr.2.1⟩

theorem engine_yields (engine : Engine) (hout : out.Valid) (hbase : base.Valid)
    (hexponent : exponent.Valid) (hm : modulus.Valid) :
    Yields (engine.run out base exponent modulus)
      (Holding (power engine base.value exponent.value modulus.value)) := by
  have hbases : ∀ b ∈ [base], b.Valid := by simpa using hbase
  cases engine with
  | modExp =>
    refine Yields.guarded fun hzero => ?_
    have hpos := value_ne_zero hm hzero
    exact (Yields.of_ensures (any_modulus (.inl rfl) hout hbase hexponent hm hpos le_rfl)).mono
      fun r hr => ⟨hr.valid, hpos, hr.value⟩
  | vartime =>
    refine Yields.guarded fun hzero => ?_
    have hpos := value_ne_zero hm hzero
    exact (Yields.of_ensures (any_modulus (.inr rfl) hout hbase hexponent hm hpos le_rfl)).mono
      fun r hr => ⟨hr.valid, hpos, hr.value⟩
  | ct =>
    refine (bignumModExpCtCore_yields false hbases hexponent hm).bind fun outs houts => ?_
    have hone := single houts
    exact Yields.pure
      ⟨hone.valid, hone.good.1, hone.good.2.1 rfl, hone.good.2.2 (hone.good.2.1 rfl)⟩
  | ctFixedBase =>
    refine (bignumModExpCtCore_yields true hbases hexponent hm).bind fun outs houts => ?_
    have hone := single houts
    exact Yields.pure ⟨hone.valid, hone.good.1, hone.good.2.2⟩
  | publicFixedBase => exact cryptoBignumModExpPublicFixedBase_yields hbase hexponent hm

theorem fromBytesSecretFixedCt_yields (big : Bool) (bytes : List UInt8) (n : Nat) :
    Yields (bignumFromBytesSecretFixedCt bytes n big) (Holding fun r => r = decode big bytes) := by
  refine Yields.guarded fun hguard => ?_
  simp only [not_or, not_lt] at hguard
  exact (Yields.of_ensures (fromBytesSecret_ensures big (by omega) le_rfl)).mono
    fun r hr => ⟨hr.1.valid, hr.1.value⟩

theorem cryptoBignumCopySecretFixed_yields (ha : a.Valid) :
    Yields (cryptoBignumCopySecretFixed a n)
      (Holding fun r => a.value < wordBase ^ n ∧ r = a.value) := by
  refine Yields.guarded fun hguard => ?_
  have hlength := not_lt.mp hguard
  exact (Yields.of_ensures (cryptoBignumCopySecretFixed_ensures ha hlength le_rfl)).mono
    fun r hr => ⟨hr.valid, ha.length_le_iff.mp hlength, hr.value⟩

theorem cryptoBignumCopySecretFixedCt_yields (ha : a.Valid) :
    Yields (cryptoBignumCopySecretFixedCt a n)
      (Holding fun r => r = a.value % wordBase ^ n) := by
  refine Yields.guard fun hguard => ?_
  have hcapacity := not_lt.mp hguard
  refine (Yields.of_ensures (Ensures.reported (bignumReserve_init le_rfl))).bind ?_
  rintro tmp ⟨hlimbs, hn⟩
  have hfixed := filled (List.length_take_of_le hcapacity) hn
  rw [scanned_value ha hcapacity, ← hlimbs] at hfixed
  exact Yields.pure ⟨hfixed.valid, hfixed.value⟩

theorem cryptoBignumSubSecretFixed_yields (ha : a.Valid) (hb : b.Valid) :
    Yields (cryptoBignumSubSecretFixed a b n)
      (Holding fun r => b.value % wordBase ^ n ≤ a.value % wordBase ^ n ∧
        r = a.value % wordBase ^ n - b.value % wordBase ^ n) := by
  refine Yields.guard fun hguard => ?_
  simp only [not_or, not_lt] at hguard
  refine (Yields.of_ensures (Ensures.reported (bignumReserve_init le_rfl))).bind ?_
  rintro tmp ⟨hlimbs, hn⟩
  refine Yields.guard fun hborrow => ?_
  have hvalue := subRow_value (n := n) (a := a.limbs.take n) (b := b.limbs.take n)
    (List.length_take_le _ _) (List.length_take_le _ _) zero_carry
  have hrow : (subRow n (a.limbs.take n) (b.limbs.take n) 0).1.length = n := subRow_length
  rw [not_not.mp hborrow, scanned_value ha hguard.1, scanned_value hb hguard.2,
    UInt64.toNat_zero, Nat.mul_zero, Nat.add_zero] at hvalue
  have hfixed := filled hrow hn
  rw [← hlimbs] at hfixed
  refine Yields.pure ⟨hfixed.valid, ?_⟩
  rw [hfixed.value]
  omega

end LiberaCrypt.BignumResults
