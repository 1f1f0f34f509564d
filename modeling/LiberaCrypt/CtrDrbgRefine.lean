import LiberaCrypt.BlockBuffer
import LiberaCrypt.CtrDrbg
import LiberaCrypt.Endian
import LiberaCrypt.FillLoop
import LiberaCrypt.KeystreamXor

namespace LiberaCrypt.CtrDrbgSpec

open LiberaCrypt.BigEndian LiberaCrypt.BlockBuffer LiberaCrypt.Endian LiberaCrypt.FillLoop
open LiberaCrypt.KeystreamXor

/-- A block cipher and the lengths of its keys and blocks in bytes. -/
structure Cipher where
  keyLength : Nat
  blockLength : Nat
  encrypt : List UInt8 → List UInt8 → List UInt8
  block_pos : 0 < blockLength
  encrypt_length : ∀ key block, (encrypt key block).length = blockLength

def parityByte (bits : Nat) : UInt8 :=
  UInt8.ofNat (2 * bits + (((List.range 7).map fun i => bits / 2 ^ i % 2).sum + 1) % 2)

/-- The three keys of TDEA, from the 168 bits of a key that has no parity bits. -/
def parityKey (key : List UInt8) : List UInt8 :=
  (List.range 24).map fun i => parityByte (beValue key / 2 ^ (7 * (23 - i)) % 128)

structure State where
  key : List UInt8
  v : List UInt8
  reseedCounter : Nat

namespace Cipher

variable (c : Cipher)

def seedLength : Nat := c.keyLength + c.blockLength

def zeroBlock : List UInt8 := List.replicate c.blockLength 0

/-- `V + i`, modulo the number of blocks. -/
def counterBlock (v : List UInt8) (i : Nat) : List UInt8 := bigEndian c.blockLength (beValue v + i)

/-- The first `n` bytes of `E(K, V+1) || E(K, V+2) || ...`. -/
def output (key v : List UInt8) (n : Nat) : List UInt8 :=
  filled (fun i => c.encrypt key (c.counterBlock v (i + 1))) c.blockLength n

def update (provided : List UInt8) (s : State) : State :=
  let temp := xorBytes (c.output s.key s.v c.seedLength) provided
  { s with key := temp.take c.keyLength, v := temp.drop c.keyLength }

def bcc (key data : List UInt8) : List UInt8 :=
  foldBlocks (fun chain block => c.encrypt key (xorBytes chain block)) c.blockLength c.zeroBlock data

def padded (data : List UInt8) : List UInt8 :=
  data ++ List.replicate ((c.blockLength - data.length % c.blockLength) % c.blockLength) 0

/-- `Block_Cipher_df`, with lengths in bytes. -/
def df (input : List UInt8) (n : Nat) : List UInt8 :=
  let s := c.padded (bigEndian 4 input.length ++ bigEndian 4 n ++ input ++ [0x80])
  let iv := fun i => bigEndian 4 i ++ List.replicate (c.blockLength - 4) 0
  let initialKey := (List.range c.keyLength).map UInt8.ofNat
  let temp := filled (fun i => c.bcc initialKey (iv i ++ s)) c.blockLength c.seedLength
  let key := temp.take c.keyLength
  let x := temp.drop c.keyLength
  filled (fun i => (c.encrypt key)^[i + 1] x) c.blockLength n

def seedMaterial (useDf : Bool) (input : List UInt8) : List UInt8 :=
  if useDf then c.df input c.seedLength
  else input ++ List.replicate (c.seedLength - input.length) 0

/-- The seed from entropy, a nonce and other input, which without derivation is masked. -/
def seed (useDf : Bool) (entropy nonce other : List UInt8) : List UInt8 :=
  if useDf then c.df (entropy ++ nonce ++ other) c.seedLength
  else xorBytes entropy (c.seedMaterial false other)

def instantiate (useDf : Bool) (entropy nonce personalization : List UInt8) : State :=
  c.update (c.seed useDf entropy nonce personalization)
    ⟨List.replicate c.keyLength 0, c.zeroBlock, 1⟩

def reseed (useDf : Bool) (entropy additional : List UInt8) (s : State) : State :=
  { c.update (c.seed useDf entropy [] additional) s with reseedCounter := 1 }

def providedData (useDf : Bool) (additional : List UInt8) : List UInt8 :=
  if additional = [] then List.replicate c.seedLength 0 else c.seedMaterial useDf additional

def mixed (useDf : Bool) (additional : List UInt8) (s : State) : State :=
  if additional = [] then s else c.update (c.providedData useDf additional) s

def generate (useDf : Bool) (additional : List UInt8) (n : Nat) (s : State) : List UInt8 × State :=
  let s := c.mixed useDf additional s
  let drawn := { s with v := c.counterBlock s.v (blockCount c.blockLength n) }
  let next := c.update (c.providedData useDf additional) drawn
  (c.output s.key s.v n, { next with reseedCounter := s.reseedCounter + 1 })

section Facts

variable {c}

@[simp] theorem output_length (key v : List UInt8) (n : Nat) : (c.output key v n).length = n :=
  filled_length (fun _ => c.encrypt_length _ _) c.block_pos n

@[simp] theorem df_length (input : List UInt8) (n : Nat) : (c.df input n).length = n := by
  apply filled_length _ c.block_pos
  intro i
  rw [Function.iterate_succ_apply']
  exact c.encrypt_length _ _

theorem seed_length {useDf : Bool} {entropy other : List UInt8} (nonce : List UInt8)
    (h : useDf = false → entropy.length = c.seedLength ∧ other.length ≤ c.seedLength) :
    (c.seed useDf entropy nonce other).length = c.seedLength := by
  rw [seed]
  cases useDf with
  | true => exact df_length _ _
  | false =>
    obtain ⟨hentropy, hother⟩ := h rfl
    have hmaterial : (c.seedMaterial false other).length = c.seedLength := by
      simp only [seedMaterial, List.length_append, List.length_replicate, Bool.false_eq_true,
        if_false]
      omega
    rw [if_neg (by simp), xorBytes, List.length_zipWith, hentropy, hmaterial, Nat.min_self]

theorem output_take (key v : List UInt8) {short long : Nat} (h : short ≤ long) :
    c.output key v short = (c.output key v long).take short :=
  filled_take (fun _ => c.encrypt_length _ _) c.block_pos h

theorem counterBlocks_nodup (v : List UInt8) {count : Nat} (h : count ≤ 256 ^ c.blockLength) :
    ((List.range count).map fun i => c.counterBlock v (i + 1)).Nodup := by
  apply List.Nodup.map_on _ List.nodup_range
  intro i hi j hj hequal
  rw [List.mem_range] at hi hj
  have hmod : beValue v + (i + 1) ≡ beValue v + (j + 1) [MOD 256 ^ c.blockLength] :=
    bigEndian_inj hequal
  have hsame : i ≡ j [MOD 256 ^ c.blockLength] :=
    Nat.ModEq.add_right_cancel' 1 (Nat.ModEq.add_left_cancel' (beValue v) hmod)
  exact hsame.eq_of_lt_of_lt (by omega) (by omega)

end Facts

end Cipher

end LiberaCrypt.CtrDrbgSpec

namespace LiberaCrypt.CtrDrbgRefine

open LiberaCrypt.Allocation LiberaCrypt.BigEndian LiberaCrypt.BlockBuffer LiberaCrypt.CtrDrbg
open LiberaCrypt.CtrDrbgSpec LiberaCrypt.Def LiberaCrypt.Endian LiberaCrypt.FillLoop
open LiberaCrypt.KeystreamXor LiberaCrypt.Outcome

section Parameters

structure Sound (p : CtrDrbgParameters) : Prop where
  aes : p.family = .aes →
    p.blockLength = 16 ∧ (p.keyLength = 16 ∨ p.keyLength = 24 ∨ p.keyLength = 32)
  tdea : p.family = .tdea → p.blockLength = 8 ∧ p.keyLength = 21
  request : p.maxRequestBytes ≤ 65536
  interval : 0 < p.reseedInterval

variable {p : CtrDrbgParameters} {alg : LiberaCAlgID}

theorem aesParameters_sound {keyLength : Nat}
    (h : keyLength = 16 ∨ keyLength = 24 ∨ keyLength = 32) (useDf : Bool) :
    Sound (aesParameters keyLength useDf) :=
  ⟨fun _ => ⟨rfl, h⟩, nofun, le_refl _, (by decide : 0 < 2 ^ 48)⟩

theorem tdeaParameters_sound (useDf : Bool) : Sound (tdeaParameters useDf) :=
  ⟨nofun, fun _ => ⟨rfl, rfl⟩, (by decide : 1024 ≤ 65536), (by decide : 0 < 2 ^ 32)⟩

theorem ctrDrbgParameters_sound (h : ctrDrbgParameters alg = .ok p) : Sound p := by
  unfold ctrDrbgParameters at h
  split at h <;> cases h
  all_goals first
    | exact tdeaParameters_sound _
    | exact aesParameters_sound (by decide) _

theorem Sound.lengths (h : Sound p) :
    (p.blockLength = 8 ∨ p.blockLength = 16) ∧ 16 ≤ p.keyLength ∧ p.keyLength ≤ 32 ∧
      p.keyLength ≤ 4 * p.blockLength := by
  cases hfamily : p.family with
  | aes =>
    have hp := h.aes hfamily
    omega
  | tdea =>
    have hp := h.tdea hfamily
    omega

theorem contextParameters_sound {context : LiberaCCtrDrbgContext}
    (h : ctrDrbgContextParameters context = .ok p) : Sound p := by
  unfold ctrDrbgContextParameters at h
  cases hselected : ctrDrbgParameters context.alg with
  | error e =>
    rw [hselected] at h
    cases h
  | ok selected =>
    rw [hselected] at h
    dsimp only at h
    split_ifs at h
    cases h
    exact ctrDrbgParameters_sound hselected

end Parameters

section Parity

def OddParity (x : UInt8) : Prop := ((List.range 8).map fun i => x.toNat / 2 ^ i % 2).sum % 2 = 1

instance (x : UInt8) : Decidable (OddParity x) := inferInstanceAs (Decidable (_ = _))

theorem setOddParity_spec : ∀ s < 128, (setOddParity (UInt8.ofNat s <<< 1)).toNat / 2 = s ∧
    OddParity (setOddParity (UInt8.ofNat s <<< 1)) := by
  decide

theorem packedBytes_toNat {bytes : List UInt8} (hlength : bytes.length ≤ 8) :
    (bytes.foldl (fun (packed : UInt64) x => (packed <<< 8) ||| x.toUInt64) 0).toNat =
      beValue bytes := by
  induction bytes using List.reverseRecOn with
  | nil => rfl
  | append_singleton bytes x ih =>
    rw [List.length_append, List.length_singleton] at hlength
    have hbytes := ih (by omega)
    have hvalue := beValue_lt bytes
    have hbound : 256 ^ bytes.length ≤ 256 ^ 7 := Nat.pow_le_pow_right (by decide) (by omega)
    rw [List.foldl_append, List.foldl_cons, List.foldl_nil, beValue_append_byte, UInt64.toNat_or,
      UInt64.toNat_shiftLeft, hbytes, UInt8.toNat_toUInt64]
    change (beValue bytes <<< 8 % 2 ^ 64) ||| x.toNat = _
    rw [Nat.mod_eq_of_lt (by rw [Nat.shiftLeft_eq]; omega), ← Nat.shiftLeft_add_eq_or_of_lt x.toNat_lt,
      Nat.shiftLeft_eq]
    omega

def groupBytes (key : List UInt8) (group : Nat) : List UInt8 :=
  (List.range 7).map fun index => key.getD (7 * group + index) 0

theorem packedGroup_toNat (key : List UInt8) (group : Nat) :
    (packedGroup key group).toNat = beValue (groupBytes key group) := by
  have hlength : (groupBytes key group).length ≤ 8 := by simp [groupBytes]
  have hpacked := packedBytes_toNat hlength
  rw [groupBytes, List.foldl_map] at hpacked
  exact hpacked

theorem beValue_append (bytes rest : List UInt8) :
    beValue (bytes ++ rest) = beValue bytes * 256 ^ rest.length + beValue rest := by
  induction rest using List.reverseRecOn with
  | nil => simp
  | append_singleton rest x ih =>
    rw [← List.append_assoc, beValue_append_byte, ih, beValue_append_byte, List.length_append,
      List.length_singleton]
    ring

theorem groupBytes_all {key : List UInt8} (hlength : key.length = 21) :
    groupBytes key 0 ++ groupBytes key 1 ++ groupBytes key 2 = key := by
  have hread : (List.range 21).map (fun i => key.getD i 0) = key := by
    apply List.ext_getElem (by simp [hlength])
    intro i hi hi'
    rw [List.getElem_map, List.getElem_range, List.getD_eq_getElem _ _ hi']
  exact hread

theorem groupBytes_value (key : List UInt8) (group : Nat) : beValue (groupBytes key group) < 2 ^ 56 := by
  have hvalue := beValue_lt (groupBytes key group)
  have hlength : (groupBytes key group).length = 7 := by simp [groupBytes]
  rw [hlength] at hvalue
  norm_num at hvalue ⊢
  exact hvalue

theorem sevenBits_eq (key : List UInt8) (group : Nat) {shift : Nat} (hshift : shift < 64) :
    ((packedGroup key group >>> UInt64.ofNat shift) &&& 0x7f).toUInt8 =
      UInt8.ofNat (beValue (groupBytes key group) / 2 ^ shift % 128) := by
  have hmask : (0x7f : UInt64).toNat = 2 ^ 7 - 1 := rfl
  apply UInt8.toNat_inj.mp
  rw [UInt64.toNat_toUInt8, UInt64.toNat_and, UInt64.toNat_shiftRight, hmask,
    Nat.and_two_pow_sub_one_eq_mod, packedGroup_toNat, UInt8.toNat_ofNat',
    UInt64.toNat_ofNat_of_lt' (hshift.trans (by decide)), Nat.mod_eq_of_lt hshift,
    Nat.shiftRight_eq_div_pow]

theorem digit_of_mod (x : Nat) {n shift : Nat} (hshift : shift + 7 ≤ n) :
    x % 2 ^ n / 2 ^ shift % 128 = x / 2 ^ shift % 128 := by
  obtain ⟨k, rfl⟩ : ∃ k, n = shift + (7 + k) := ⟨n - shift - 7, by omega⟩
  rw [pow_add, Nat.mod_mul_right_div_self]
  exact Nat.mod_mod_of_dvd _ (pow_add 2 7 k ▸ Nat.dvd_mul_right _ _)

theorem group_value (key : List UInt8) {group : Nat} (hgroup : group < 3) :
    beValue (groupBytes key group) = (beValue (groupBytes key 0) * 2 ^ 112 +
      beValue (groupBytes key 1) * 2 ^ 56 + beValue (groupBytes key 2)) / 2 ^ (56 * (2 - group)) %
        2 ^ 56 := by
  have hfirst := groupBytes_value key 0
  have hsecond := groupBytes_value key 1
  have hthird := groupBytes_value key 2
  have hcases : group = 0 ∨ group = 1 ∨ group = 2 := by omega
  rcases hcases with rfl | rfl | rfl
  · change _ = _ / 2 ^ 112 % 2 ^ 56
    omega
  · change _ = _ / 2 ^ 56 % 2 ^ 56
    omega
  · change _ = _ / 2 ^ 0 % 2 ^ 56
    omega

/-- A digit of one of the groups, as a digit of all of them. -/
theorem group_digit (key : List UInt8) {group index : Nat} (hgroup : group < 3) (hindex : index < 8) :
    beValue (groupBytes key group) / 2 ^ (49 - 7 * index) % 128 =
      (beValue (groupBytes key 0) * 2 ^ 112 + beValue (groupBytes key 1) * 2 ^ 56 +
        beValue (groupBytes key 2)) / 2 ^ (7 * (23 - (8 * group + index))) % 128 := by
  have hposition : 56 * (2 - group) + (49 - 7 * index) = 7 * (23 - (8 * group + index)) := by omega
  rw [group_value key hgroup, digit_of_mod _ (by omega), Nat.div_div_eq_div_mul, ← pow_add,
    hposition]

theorem range_groups (f : Nat → Nat) : (List.range 24).map f =
    (List.range 3).flatMap fun group => (List.range 8).map fun index => f (8 * group + index) := rfl

/-- The engine's key has the bits of the key in order, seven in a byte, above a parity bit. -/
theorem expandTdeaKey_bits {key : List UInt8} (hlength : key.length = 21) :
    (expandTdeaKey key).map (fun x => x.toNat / 2) =
        (List.range 24).map (fun i => beValue key / 2 ^ (7 * (23 - i)) % 128) ∧
      ∀ x ∈ expandTdeaKey key, OddParity x := by
  have hbyte : ∀ group, ∀ index < 8, ∃ s < 128,
      s = beValue (groupBytes key group) / 2 ^ (49 - 7 * index) % 128 ∧
        ((packedGroup key group >>> UInt64.ofNat (49 - 7 * index)) &&& 0x7f).toUInt8 =
          UInt8.ofNat s := by
    intro group index hindex
    exact ⟨_, Nat.mod_lt _ (by decide), rfl, sevenBits_eq key group (by omega)⟩
  constructor
  · have hbytes : (expandTdeaKey key).map (fun x => x.toNat / 2) =
        (List.range 3).flatMap fun group => (List.range 8).map fun index =>
          beValue (groupBytes key group) / 2 ^ (49 - 7 * index) % 128 := by
      rw [expandTdeaKey, List.map_flatMap]
      congr 1
      funext group
      rw [List.map_map]
      apply List.map_congr_left
      intro index hindex
      obtain ⟨s, hs, hvalue, hbits⟩ := hbyte group index (List.mem_range.mp hindex)
      rw [← hvalue, Function.comp_apply, hbits]
      exact (setOddParity_spec s hs).1
    have hkey : beValue key = beValue (groupBytes key 0) * 2 ^ 112 +
        beValue (groupBytes key 1) * 2 ^ 56 + beValue (groupBytes key 2) := by
      have hlengths : ∀ group, (groupBytes key group).length = 7 := by simp [groupBytes]
      nth_rewrite 1 [← groupBytes_all hlength]
      rw [beValue_append, beValue_append, hlengths, hlengths]
      ring
    rw [hbytes, hkey, range_groups, List.flatMap_def, List.flatMap_def]
    refine congrArg List.flatten (List.map_congr_left ?_)
    intro group hgroup
    refine List.map_congr_left ?_
    intro index hindex
    exact group_digit key (List.mem_range.mp hgroup) (List.mem_range.mp hindex)
  · intro x hx
    obtain ⟨group, -, hgroup⟩ := List.mem_flatMap.mp hx
    obtain ⟨index, hindex, rfl⟩ := List.mem_map.mp hgroup
    obtain ⟨s, hs, -, hbits⟩ := hbyte group index (List.mem_range.mp hindex)
    dsimp only
    rw [hbits]
    exact (setOddParity_spec s hs).2

theorem parityByte_ofNat : ∀ n < 256, OddParity (UInt8.ofNat n) →
    parityByte (n / 2) = UInt8.ofNat n := by
  decide +kernel

theorem parityByte_eq {x : UInt8} (h : OddParity x) : parityByte (x.toNat / 2) = x := by
  have hbyte := parityByte_ofNat x.toNat x.toNat_lt
  rw [UInt8.ofNat_toNat] at hbyte
  exact hbyte h

theorem expandTdeaKey_eq {key : List UInt8} (hlength : key.length = 21) :
    expandTdeaKey key = parityKey key := by
  obtain ⟨hbits, hparity⟩ := expandTdeaKey_bits hlength
  have hbytes : ((expandTdeaKey key).map fun x => x.toNat / 2).map parityByte =
      expandTdeaKey key := by
    rw [List.map_map]
    exact (List.map_congr_left fun x hx => parityByte_eq (hparity x hx)).trans (List.map_id _)
  rw [← hbytes, hbits, List.map_map]
  unfold parityKey
  exact List.map_congr_left fun i _ => Function.comp_apply

end Parity

section Cipher

def familyBlock : CtrDrbgCipherFamily → Nat
  | .aes => 16
  | .tdea => 8

def KeyFits : CtrDrbgCipherFamily → Nat → Prop
  | .aes, length => length = 16 ∨ length = 24 ∨ length = 32
  | .tdea, length => length = 24

variable {κ : Type} {cipher : BlockCipher κ}
  {E : CtrDrbgCipherFamily → List UInt8 → List UInt8 → List UInt8}

/-- The cipher works for every key and block of the right length, and computes the functions `E`. -/
structure Computes (cipher : BlockCipher κ)
    (E : CtrDrbgCipherFamily → List UInt8 → List UInt8 → List UInt8) : Prop where
  works : ∀ family key, KeyFits family key.length → ∃ engine,
    cipher.contextInit family key = .ok engine ∧ ∀ block, block.length = familyBlock family →
      cipher.encryptBlock family engine block = .ok (E family key block)
  block : ∀ family key block, (E family key block).length = familyBlock family

variable {p : CtrDrbgParameters}

theorem familyBlock_eq (h : Sound p) : familyBlock p.family = p.blockLength := by
  cases hfamily : p.family with
  | aes => exact (h.aes hfamily).1.symm
  | tdea => exact (h.tdea hfamily).1.symm

/-- AES takes the key as it is, TDEA with its parity bits. -/
def cipherKey : CtrDrbgCipherFamily → List UInt8 → List UInt8
  | .aes, key => key
  | .tdea, key => parityKey key

def blockCipherOf (h : Sound p) (hE : Computes cipher E) : Cipher where
  keyLength := p.keyLength
  blockLength := p.blockLength
  encrypt := fun key => E p.family (cipherKey p.family key)
  block_pos := by
    have hlengths := h.lengths
    omega
  encrypt_length := fun key block => (hE.block _ _ _).trans (familyBlock_eq h)

theorem expandTdeaKey_length (key : List UInt8) : (expandTdeaKey key).length = 24 := by
  simp [expandTdeaKey]

theorem engineKey_fits (h : Sound p) {key : List UInt8} (hkey : p.keyLength ≤ key.length) :
    KeyFits p.family (engineKey p key).length := by
  unfold engineKey
  cases hfamily : p.family with
  | aes =>
    have hlength : (key.take p.keyLength).length = p.keyLength := by simp [hkey]
    exact hlength.symm ▸ (h.aes hfamily).2
  | tdea => exact expandTdeaKey_length key

theorem engineKey_take (h : Sound p) (key : List UInt8) :
    engineKey p (key.take p.keyLength) = engineKey p key := by
  unfold engineKey
  cases hfamily : p.family with
  | aes =>
    dsimp only
    rw [List.take_take, Nat.min_self]
  | tdea =>
    have hgroup : ∀ group < 3, packedGroup (key.take p.keyLength) group = packedGroup key group := by
      intro group hlt
      unfold packedGroup
      apply List.foldl_ext
      intro packed index hindex
      rw [List.mem_range] at hindex
      have hread : (key.take p.keyLength).getD (7 * group + index) 0 =
          key.getD (7 * group + index) 0 := by
        rw [(h.tdea hfamily).2, List.getD_eq_getElem?_getD, List.getElem?_take_of_lt (by omega),
          List.getD_eq_getElem?_getD]
      rw [hread]
    dsimp only
    unfold expandTdeaKey
    rw [List.flatMap_def, List.flatMap_def]
    congr 1
    apply List.map_congr_left
    intro group hlt
    rw [hgroup group (List.mem_range.mp hlt)]

theorem engineKey_eq (h : Sound p) {key : List UInt8} (hkey : key.length = p.keyLength) :
    engineKey p key = cipherKey p.family key := by
  unfold engineKey
  cases hfamily : p.family with
  | aes => exact List.take_of_length_le hkey.le
  | tdea => exact expandTdeaKey_eq (hkey.trans (h.tdea hfamily).2)

theorem ctrBlockContextInit_ok (h : Sound p) (hE : Computes cipher E) {key : List UInt8}
    (hkey : p.keyLength ≤ key.length) : ∃ block, ctrBlockContextInit cipher p key = .ok block ∧
      ∀ x, x.length = p.blockLength → ctrBlockEncrypt cipher block x =
        .ok ((blockCipherOf h hE).encrypt (key.take p.keyLength) x) := by
  obtain ⟨engine, hinit, hencrypt⟩ := hE.works p.family (engineKey p key) (engineKey_fits h hkey)
  refine ⟨⟨p.family, engine⟩, ?_, ?_⟩
  · rw [ctrBlockContextInit, hinit]
  · intro x hx
    have htake : (key.take p.keyLength).length = p.keyLength := List.length_take_of_le hkey
    have hread : (blockCipherOf h hE).encrypt (key.take p.keyLength) x =
        E p.family (engineKey p key) x :=
      congrArg (E p.family · x) ((engineKey_eq h htake).symm.trans (engineKey_take h key))
    rw [hread]
    exact hencrypt x (hx.trans (familyBlock_eq h).symm)

end Cipher

section Counter

theorem incrementFrom_eq (count : Nat) {carry : UInt16} (hcarry : carry.toNat ≤ 1)
    {v : List UInt8} (hv : count ≤ v.length) :
    incrementFrom count carry v =
      bigEndian count (beValue (v.take count) + carry.toNat) ++ v.drop count := by
  induction count generalizing carry v with
  | zero => rfl
  | succ count ih =>
    have hx : count < v.length := by omega
    have hget : v.getD count 0 = v[count] := List.getD_eq_getElem v 0 hx
    have hbyte := v[count].toNat_lt
    have hsum : ((v.getD count 0).toUInt16 + carry).toNat = v[count].toNat + carry.toNat := by
      rw [UInt16.toNat_add, hget, UInt8.toNat_toUInt16, Nat.mod_eq_of_lt (by omega)]
    have hshift : (((v.getD count 0).toUInt16 + carry) >>> 8).toNat =
        (v[count].toNat + carry.toNat) / 256 := by
      rw [UInt16.toNat_shiftRight, hsum]
      change (_ : Nat) >>> 8 = _
      rw [Nat.shiftRight_eq_div_pow]
    have hlow : ((v.getD count 0).toUInt16 + carry).toUInt8 =
        UInt8.ofNat (v[count].toNat + 256 * beValue (v.take count) + carry.toNat) := by
      apply UInt8.toNat_inj.mp
      rw [UInt16.toNat_toUInt8, hsum, UInt8.toNat_ofNat']
      omega
    have hhigh : (v[count].toNat + 256 * beValue (v.take count) + carry.toNat) / 256 =
        beValue (v.take count) + (v[count].toNat + carry.toNat) / 256 := by omega
    have htake : v.take (count + 1) = v.take count ++ [v[count]] := by
      rw [List.take_append_getElem]
    have hdrop : v.drop count = v[count] :: v.drop (count + 1) := List.drop_eq_getElem_cons hx
    rw [incrementFrom, ih (by omega) (by rw [List.length_set]; omega), List.take_set_of_le (le_refl _),
      List.drop_set, if_neg (by omega), Nat.sub_self, hshift, htake, beValue_append_byte, bigEndian,
      hhigh, hlow, hdrop, List.set_cons_zero]
    simp

theorem incrementV_eq {v : List UInt8} {n : Nat} (hv : n ≤ v.length) :
    incrementV v n = bigEndian n (beValue (v.take n) + 1) ++ v.drop n :=
  incrementFrom_eq n (by decide) hv

theorem incrementV_iterate {v : List UInt8} {n : Nat} (hv : n ≤ v.length) (i : Nat) :
    (incrementV · n)^[i] v = bigEndian n (beValue (v.take n) + i) ++ v.drop n := by
  induction i with
  | zero =>
    have hsame := bigEndian_beValue (v.take n)
    rw [List.length_take, Nat.min_eq_left hv] at hsame
    rw [Function.iterate_zero, id, Nat.add_zero, hsame, List.take_append_drop]
  | succ i ih =>
    have hread : n ≤ (bigEndian n (beValue (v.take n) + i) ++ v.drop n).length := by simp
    rw [Function.iterate_succ_apply', ih, incrementV_eq hread,
      List.take_left' (bigEndian_length _ _), List.drop_left' (bigEndian_length _ _),
      beValue_bigEndian, ← bigEndian_mod, Nat.mod_add_mod, bigEndian_mod, Nat.add_assoc]

end Counter

section Update

variable {κ : Type} {cipher : BlockCipher κ}
  {E : CtrDrbgCipherFamily → List UInt8 → List UInt8 → List UInt8} {p : CtrDrbgParameters}
  (h : Sound p) (hE : Computes cipher E)

def stateOf (p : CtrDrbgParameters) (context : LiberaCCtrDrbgContext) : State :=
  ⟨context.key.take p.keyLength, context.v.take p.blockLength, context.reseedCounter⟩

/-- The context after `i` increments of `V`. -/
def counted (context : LiberaCCtrDrbgContext) (n i : Nat) : LiberaCCtrDrbgContext :=
  context.withV (bigEndian n (beValue (context.v.take n) + i) ++ context.v.drop n)

theorem inArray_take {n k : Nat} {bytes : List UInt8} (hlength : bytes.length = k) (hk : k ≤ n) :
    (inArray n bytes).take k = bytes := by
  rw [inArray, List.take_take, Nat.min_eq_left hk, List.take_left' hlength]

theorem inArray_of_length {n : Nat} {bytes : List UInt8} (hlength : bytes.length = n) :
    inArray n bytes = bytes := by
  have htake := inArray_take hlength (le_refl n)
  rwa [List.take_of_length_le (inArray_length n bytes).le] at htake

theorem counted_v {context : LiberaCCtrDrbgContext} {n : Nat} (hn : n ≤ 16) (i : Nat) :
    (counted context n i).v =
      bigEndian n (beValue (context.v.take n) + i) ++ context.v.drop n := by
  apply inArray_of_length
  rw [List.length_append, bigEndian_length, List.length_drop, context.v_size]
  omega

theorem counted_take {context : LiberaCCtrDrbgContext} {n : Nat} (hn : n ≤ 16) (i : Nat) :
    (counted context n i).v.take n = bigEndian n (beValue (context.v.take n) + i) := by
  rw [counted_v hn, List.take_left' (bigEndian_length _ _)]

theorem withV_self (context : LiberaCCtrDrbgContext) : context.withV context.v = context := by
  have hv : inArray 16 context.v = context.v := inArray_of_length context.v_size
  obtain ⟨_, _, _, _, _, _, _, _, _⟩ := context
  simpa [LiberaCCtrDrbgContext.withV] using hv

theorem counted_zero {context : LiberaCCtrDrbgContext} {n : Nat} (hn : n ≤ 16) :
    counted context n 0 = context := by
  have hlength : (context.v.take n).length = n := by
    rw [List.length_take, context.v_size]
    omega
  have hsame := bigEndian_beValue (context.v.take n)
  rw [hlength] at hsame
  rw [counted, Nat.add_zero, hsame, List.take_append_drop, withV_self]

theorem encryptNext_counted {block : CtrDrbgBlockContext κ} {key : List UInt8}
    (hencrypt : ∀ x, x.length = p.blockLength →
      ctrBlockEncrypt cipher block x = .ok ((blockCipherOf h hE).encrypt key x))
    (context : LiberaCCtrDrbgContext) (i : Nat) :
    encryptNext cipher p block (counted context p.blockLength i) =
      (.ok ((blockCipherOf h hE).encrypt key
        ((blockCipherOf h hE).counterBlock (context.v.take p.blockLength) (i + 1))),
        counted context p.blockLength (i + 1)) := by
  have hlengths := h.lengths
  have hn : p.blockLength ≤ 16 := by omega
  have hdrop : (counted context p.blockLength i).v.drop p.blockLength =
      context.v.drop p.blockLength := by
    rw [counted_v hn, List.drop_left' (bigEndian_length _ _)]
  have hv : incrementV (counted context p.blockLength i).v p.blockLength =
      bigEndian p.blockLength (beValue (context.v.take p.blockLength) + (i + 1)) ++
        context.v.drop p.blockLength := by
    rw [incrementV_eq (by rw [LiberaCCtrDrbgContext.v_size]; omega), counted_take hn,
      beValue_bigEndian, ← bigEndian_mod, Nat.mod_add_mod, bigEndian_mod, hdrop, Nat.add_assoc]
  unfold encryptNext
  dsimp only
  rw [hv, List.take_left' (bigEndian_length _ _), hencrypt _ (bigEndian_length _ _)]
  rfl

theorem drawn {block : CtrDrbgBlockContext κ} {key : List UInt8}
    (hencrypt : ∀ x, x.length = p.blockLength →
      ctrBlockEncrypt cipher block x = .ok ((blockCipherOf h hE).encrypt key x))
    (context : LiberaCCtrDrbgContext) (length : Nat) :
    fillLoop p.blockLength (encryptNext cipher p block) length context =
      (.ok ((blockCipherOf h hE).output key (context.v.take p.blockLength) length),
        counted context p.blockLength (blockCount p.blockLength length)) := by
  have hlengths := h.lengths
  have hpos : 0 < p.blockLength := by omega
  have hloop := fillLoop_ok hpos (encryptNext_counted h hE hencrypt context)
    (fun _ => (blockCipherOf h hE).encrypt_length _ _) length
  rwa [counted_zero (by omega)] at hloop

theorem rekey_state (context : LiberaCCtrDrbgContext) {temp : List UInt8}
    (hp : Sound p) (htemp : temp.length = p.seedLength) :
    stateOf p (context.rekey p temp) =
      ⟨temp.take p.keyLength, temp.drop p.keyLength, context.reseedCounter⟩ := by
  have hlengths := hp.lengths
  have hkey : (temp.take p.keyLength).length = p.keyLength := by
    rw [List.length_take, htemp, CtrDrbgParameters.seedLength]
    omega
  have hv : (temp.drop p.keyLength).length = p.blockLength := by
    rw [List.length_drop, htemp, CtrDrbgParameters.seedLength]
    omega
  have hkeyread : (inArray 32 (temp.take p.keyLength)).take p.keyLength = temp.take p.keyLength :=
    inArray_take hkey (by omega)
  have hvread : (inArray 16 ((temp.drop p.keyLength).take p.blockLength)).take p.blockLength =
      temp.drop p.keyLength := by
    rw [List.take_of_length_le hv.le, inArray_take hv (by omega)]
  rw [stateOf, LiberaCCtrDrbgContext.rekey]
  dsimp only
  rw [hkeyread, hvread]

structure SameUse (a b : LiberaCCtrDrbgContext) : Prop where
  alg : a.alg = b.alg
  keyLength : a.keyLength = b.keyLength
  useDf : a.useDf = b.useDf
  instantiated : a.instantiated = b.instantiated
  reseedCounter : a.reseedCounter = b.reseedCounter

theorem SameUse.parameters {a b : LiberaCCtrDrbgContext} (hsame : SameUse a b) :
    ctrDrbgContextParameters a = ctrDrbgContextParameters b := by
  rw [ctrDrbgContextParameters, ctrDrbgContextParameters, hsame.alg, hsame.keyLength, hsame.useDf]

theorem SameUse.trans {a b c : LiberaCCtrDrbgContext} (hab : SameUse a b) (hbc : SameUse b c) :
    SameUse a c :=
  ⟨hab.alg.trans hbc.alg, hab.keyLength.trans hbc.keyLength, hab.useDf.trans hbc.useDf,
    hab.instantiated.trans hbc.instantiated, hab.reseedCounter.trans hbc.reseedCounter⟩

theorem ctrDrbgUpdate_ok {context : LiberaCCtrDrbgContext}
    (hcontext : ctrDrbgContextParameters context = .ok p) {data : List UInt8}
    (hdata : p.seedLength ≤ data.length) :
    ∃ after, ctrDrbgUpdate cipher (some data) context = (.ok (), after) ∧ SameUse after context ∧
      stateOf p after = (blockCipherOf h hE).update data (stateOf p context) := by
  have hlengths := h.lengths
  have hkey : p.keyLength ≤ context.key.length := by
    rw [context.key_size]
    omega
  obtain ⟨block, hblock, hencrypt⟩ := ctrBlockContextInit_ok h hE hkey
  let drawnContext := counted context p.blockLength (blockCount p.blockLength p.seedLength)
  let temp := xorBytes ((blockCipherOf h hE).output (context.key.take p.keyLength)
    (context.v.take p.blockLength) p.seedLength) data
  have htemp : temp.length = p.seedLength := by
    change (List.zipWith _ _ data).length = _
    rw [List.length_zipWith, Cipher.output_length, Nat.min_eq_left hdata]
  refine ⟨drawnContext.rekey p temp, ?_, ⟨rfl, rfl, rfl, rfl, rfl⟩, ?_⟩
  · rw [ctrDrbgUpdate, hcontext]
    dsimp only
    rw [hblock]
    dsimp only
    rw [drawn h hE hencrypt]
  · rw [rekey_state _ h htemp]
    rfl

end Update

section Derivation

variable {κ : Type} {cipher : BlockCipher κ}
  {E : CtrDrbgCipherFamily → List UInt8 → List UInt8 → List UInt8} {p : CtrDrbgParameters}
  (h : Sound p) (hE : Computes cipher E)

theorem foldBlocks_length {c : Cipher} {key : List UInt8} {chain : List UInt8}
    (hchain : chain.length = c.blockLength) (data : List UInt8) :
    (foldBlocks (fun chain block => c.encrypt key (xorBytes chain block)) c.blockLength chain
      data).length = c.blockLength := by
  rw [foldBlocks]
  generalize pieces c.blockLength (data.length / c.blockLength) data = blocks
  induction blocks generalizing chain with
  | nil => exact hchain
  | cons block blocks ih => exact ih (c.encrypt_length _ _)

theorem bccRounds_ok {block : CtrDrbgBlockContext κ} {key : List UInt8}
    (hencrypt : ∀ x, x.length = p.blockLength →
      ctrBlockEncrypt cipher block x = .ok ((blockCipherOf h hE).encrypt key x))
    {chain string : List UInt8} {k : Nat} (hchain : chain.length = p.blockLength)
    (hstring : string.length = p.blockLength * k) :
    bccRounds cipher p.blockLength block chain string =
      .ok (foldBlocks (fun chain block => (blockCipherOf h hE).encrypt key (xorBytes chain block))
        p.blockLength chain string) := by
  have hlengths := h.lengths
  have hpos : 0 < p.blockLength := by omega
  induction k generalizing chain string with
  | zero =>
    have hnil : string = [] := List.length_eq_zero_iff.mp hstring
    rw [bccRounds, dif_neg (by simp [hnil]), hnil, foldBlocks_short _ hpos]
  | succ k ih =>
    rw [Nat.mul_succ] at hstring
    have hfirst : (string.take p.blockLength).length = p.blockLength := by
      rw [List.length_take]
      omega
    have hblock : (xorBytes chain (string.take p.blockLength)).length = p.blockLength := by
      rw [xorBytes_length (hfirst.trans hchain.symm), hchain]
    have hrest : (string.drop p.blockLength).length = p.blockLength * k := by
      rw [List.length_drop]
      omega
    rw [bccRounds, dif_pos ⟨hpos, by omega⟩, hencrypt _ hblock]
    dsimp only
    rw [ih ((blockCipherOf h hE).encrypt_length _ _) hrest]
    nth_rewrite 3 [← List.take_append_drop p.blockLength string]
    rw [foldBlocks_first hpos hfirst]

theorem bcc_ok {block : CtrDrbgBlockContext κ} {key : List UInt8}
    (hencrypt : ∀ x, x.length = p.blockLength →
      ctrBlockEncrypt cipher block x = .ok ((blockCipherOf h hE).encrypt key x))
    {iv string : List UInt8} {k : Nat} (hiv : p.blockLength ≤ iv.length)
    (hstring : string.length = p.blockLength * k) :
    bcc cipher p block iv string =
      .ok ((blockCipherOf h hE).bcc key (iv.take p.blockLength ++ string)) := by
  have hlengths := h.lengths
  have hpos : 0 < p.blockLength := by omega
  have hfirst : (iv.take p.blockLength).length = p.blockLength := by
    rw [List.length_take]
    omega
  have hzeros : (zeros p.blockLength).length = p.blockLength := List.length_replicate
  have hblock : (xorBytes (zeros p.blockLength) (iv.take p.blockLength)).length = p.blockLength := by
    rw [xorBytes_length (hfirst.trans hzeros.symm), hzeros]
  rw [bcc, hencrypt _ hblock]
  dsimp only
  rw [bccRounds_ok h hE hencrypt ((blockCipherOf h hE).encrypt_length _ _) hstring, Cipher.bcc]
  exact congrArg Except.ok (foldBlocks_first hpos hfirst string _).symm

theorem bcc_length (c : Cipher) (key data : List UInt8) : (c.bcc key data).length = c.blockLength :=
  foldBlocks_length List.length_replicate data

theorem bccNext_ok {block : CtrDrbgBlockContext κ} {key : List UInt8}
    (hencrypt : ∀ x, x.length = p.blockLength →
      ctrBlockEncrypt cipher block x = .ok ((blockCipherOf h hE).encrypt key x))
    {string : List UInt8} {k : Nat} (hstring : string.length = p.blockLength * k) (i : Nat) :
    bccNext cipher p block string (UInt32.ofNat i) =
      (.ok ((blockCipherOf h hE).bcc key (bigEndian 4 i ++
        List.replicate ((blockCipherOf h hE).blockLength - 4) 0 ++ string)),
        UInt32.ofNat (i + 1)) := by
  have hlengths := h.lengths
  have hiv : (cryptoStore32Be (UInt32.ofNat i) ++ zeros 12).take p.blockLength =
      bigEndian 4 i ++ List.replicate ((blockCipherOf h hE).blockLength - 4) 0 := by
    have hstored : cryptoStore32Be (UInt32.ofNat i) = bigEndian 4 i := by
      rw [cryptoStore32Be_eq, UInt32.toNat_ofNat', ← bigEndian_mod 4 i]
      norm_num
    rw [hstored, List.take_append, List.take_of_length_le (by rw [bigEndian_length]; omega),
      bigEndian_length, zeros, List.take_replicate, Nat.min_eq_left (by omega)]
    rfl
  have hlength : p.blockLength ≤ (cryptoStore32Be (UInt32.ofNat i) ++ zeros 12).length := by
    change p.blockLength ≤ 16
    omega
  rw [bccNext, bcc_ok h hE hencrypt hlength hstring, hiv, UInt32.ofNat_add]
  rfl

theorem encryptAgain_ok {block : CtrDrbgBlockContext κ} {key : List UInt8}
    (hencrypt : ∀ x, x.length = p.blockLength →
      ctrBlockEncrypt cipher block x = .ok ((blockCipherOf h hE).encrypt key x))
    {x : List UInt8} (hx : x.length = p.blockLength) (i : Nat) :
    encryptAgain cipher block (((blockCipherOf h hE).encrypt key)^[i] x) =
      (.ok (((blockCipherOf h hE).encrypt key)^[i + 1] x),
        ((blockCipherOf h hE).encrypt key)^[i + 1] x) := by
  have hlength : (((blockCipherOf h hE).encrypt key)^[i] x).length = p.blockLength := by
    cases i with
    | zero => exact hx
    | succ i =>
      rw [Function.iterate_succ_apply']
      exact (blockCipherOf h hE).encrypt_length _ _
  rw [encryptAgain, hencrypt _ hlength, Function.iterate_succ_apply']

theorem dfString_eq (input : List UInt8) {outputLength : Nat} (hinput : input.length < 2 ^ 32)
    (houtput : outputLength < 2 ^ 32) :
    dfString input outputLength
        ((8 + input.length + 1 + p.blockLength - 1) / p.blockLength * p.blockLength) =
      (blockCipherOf h hE).padded
        (bigEndian 4 input.length ++ bigEndian 4 outputLength ++ input ++ [0x80]) := by
  have hlengths := h.lengths
  have hlength : (bigEndian 4 input.length ++ bigEndian 4 outputLength ++ input ++
      [(0x80 : UInt8)]).length = input.length + 9 := by
    simp only [List.length_append, bigEndian_length, List.length_singleton]
    omega
  have hcount : (8 + input.length + 1 + p.blockLength - 1) / p.blockLength * p.blockLength =
      input.length + 9 + (p.blockLength - (input.length + 9) % p.blockLength) % p.blockLength := by
    rcases hlengths.1 with hblock | hblock <;> rw [hblock] <;> omega
  have hpadding : (p.blockLength - (input.length + 9) % p.blockLength) % p.blockLength ≤
      input.length + 9 + (p.blockLength - (input.length + 9) % p.blockLength) % p.blockLength :=
    Nat.le_add_left _ _
  rw [dfString, cryptoStore32Be_eq, cryptoStore32Be_eq, UInt32.toNat_ofNat_of_lt' hinput,
    UInt32.toNat_ofNat_of_lt' houtput, inArray, hcount, List.take_append,
    List.take_of_length_le (by rw [hlength]; omega), hlength, zeros, List.take_replicate,
    Cipher.padded, hlength, Nat.add_sub_cancel_left, Nat.min_eq_left hpadding]
  rfl

theorem dfString_length (input : List UInt8) (outputLength k : Nat) :
    (dfString input outputLength (k * p.blockLength)).length = p.blockLength * k := by
  rw [dfString, inArray_length, Nat.mul_comm]

theorem dfOutput_ok {input : List UInt8} {outputLength : Nat} {string : List UInt8} {k : Nat}
    (hlength : string.length = p.blockLength * k)
    (hstring : string = (blockCipherOf h hE).padded
      (bigEndian 4 input.length ++ bigEndian 4 outputLength ++ input ++ [0x80])) :
    dfOutput cipher p string outputLength = .ok ((blockCipherOf h hE).df input outputLength) := by
  have hlengths := h.lengths
  have hpos : 0 < p.blockLength := by omega
  let initialKey := (List.range p.keyLength).map UInt8.ofNat
  have hkey : initialKey.length = p.keyLength := by simp [initialKey]
  obtain ⟨first, hfirst, hencrypt⟩ := ctrBlockContextInit_ok h hE hkey.ge
  rw [List.take_of_length_le hkey.le] at hencrypt
  let temp := filled (fun i => (blockCipherOf h hE).bcc initialKey (bigEndian 4 i ++
    List.replicate ((blockCipherOf h hE).blockLength - 4) 0 ++ string)) p.blockLength p.seedLength
  have hchains : fillLoop p.blockLength (bccNext cipher p first string) p.seedLength 0 =
      (.ok temp, UInt32.ofNat (blockCount p.blockLength p.seedLength)) :=
    fillLoop_ok hpos (bccNext_ok h hE hencrypt hlength) (fun _ => bcc_length _ _ _) p.seedLength
  have htemp : temp.length = p.seedLength := filled_length (fun _ => bcc_length _ _ _) hpos _
  have hread : p.keyLength ≤ temp.length := htemp ▸ Nat.le_add_right _ _
  obtain ⟨second, hsecond, hagain⟩ := ctrBlockContextInit_ok h hE hread
  have hx : (temp.drop p.keyLength).length = p.blockLength := by
    rw [List.length_drop, htemp, CtrDrbgParameters.seedLength, Nat.add_sub_cancel_left]
  have houtput := fillLoop_ok hpos (encryptAgain_ok h hE hagain hx) (fun i => by
    rw [Function.iterate_succ_apply']
    exact (blockCipherOf h hE).encrypt_length _ _) outputLength
  simp only [dfOutput, bind, Except.bind]
  rw [hfirst]
  dsimp only
  rw [hchains]
  dsimp only
  rw [hsecond]
  dsimp only
  rw [List.take_of_length_le hx.le, Cipher.df, ← hstring]
  exact congrArg Prod.fst houtput

theorem blockCipherDf_right {host : Host} {k : Nat} {input : InputBytes} {outputLength : Nat}
    {seed : List UInt8} (hseed : blockCipherDf cipher host k p input outputLength = .ok seed) :
    seed = (blockCipherOf h hE).df input.data outputLength := by
  have hword : uint32Max = 2 ^ 32 - 1 := rfl
  unfold blockCipherDf at hseed
  dsimp only at hseed
  split_ifs at hseed with _ hlong
  have hstring := dfString_eq h hE input.data (by omega) (by omega : outputLength < 2 ^ 32)
  rw [dfOutput_ok h hE (dfString_length _ _ _) hstring] at hseed
  exact (Except.ok.inj hseed).symm

include h hE in
theorem blockCipherDf_succeeds {host : Host} {k : Nat} {input : InputBytes}
    (hmissing : input.missing = false) (hinput : input.data.length < 2 ^ 32)
    (hgrants : Grants host (2 ^ 32 + 32)) :
    ∃ seed, blockCipherDf cipher host k p input p.seedLength = .ok seed := by
  have hlengths := h.lengths
  have hseed : p.seedLength = p.keyLength + p.blockLength := rfl
  have hmax : sizeMax = 2 ^ 64 - 1 := rfl
  have hword : uint32Max = 2 ^ 32 - 1 := rfl
  have hround := Nat.div_mul_le_self (8 + input.data.length + 1 + p.blockLength - 1) p.blockLength
  have hrequest := hgrants k ((8 + input.data.length + 1 + p.blockLength - 1) / p.blockLength *
    p.blockLength) (by omega)
  have hstring := dfString_eq h hE input.data hinput (by omega : p.seedLength < 2 ^ 32)
  unfold blockCipherDf
  rw [if_neg (by rw [hmissing]; simp; omega), if_neg (by omega), if_neg (by omega)]
  dsimp only
  rw [if_neg (by omega), hrequest, if_neg (by simp)]
  exact ⟨_, dfOutput_ok h hE (dfString_length _ _ _) hstring⟩

section Seed

variable {host : Host} {k : Nat} {context : LiberaCCtrDrbgContext} {a b c : List UInt8}

theorem makeDfSeed_right (hcontext : ctrDrbgContextParameters context = .ok p) {seed : List UInt8}
    (hseed : makeDfSeed cipher host k context a b c = .ok seed) :
    seed = (blockCipherOf h hE).df (a ++ b ++ c) p.seedLength := by
  unfold makeDfSeed at hseed
  rw [hcontext] at hseed
  dsimp only at hseed
  split_ifs at hseed with _ _ _ htotal
  · have hright := blockCipherDf_right h hE hseed
    rw [InputBytes.data] at hright
    exact hright
  · have hempty : a ++ b ++ c = [] := by
      apply List.length_eq_zero_iff.mp
      rw [List.length_append, List.length_append]
      omega
    have hright := blockCipherDf_right h hE hseed
    rw [InputBytes.data, ← hempty] at hright
    exact hright

include h hE in
theorem makeDfSeed_succeeds (hcontext : ctrDrbgContextParameters context = .ok p)
    (hlength : a.length + b.length + c.length < 2 ^ 32) (hgrants : Grants host (2 ^ 32 + 32)) :
    ∃ seed, makeDfSeed cipher host k context a b c = .ok seed := by
  have hmax : sizeMax = 2 ^ 64 - 1 := rfl
  have hword : uint32Max = 2 ^ 32 - 1 := rfl
  have hrequest := hgrants k (a.length + b.length + c.length) (by omega)
  have hjoined : (a ++ b ++ c).length < 2 ^ 32 := by
    rwa [List.length_append, List.length_append]
  unfold makeDfSeed
  rw [if_neg (by omega)]
  dsimp only
  rw [if_neg (by omega), hrequest, if_neg (by simp), hcontext]
  dsimp only
  split_ifs with htotal
  · exact blockCipherDf_succeeds h hE rfl hjoined hgrants
  · exact blockCipherDf_succeeds h hE rfl (by decide) hgrants

end Seed

end Derivation

end LiberaCrypt.CtrDrbgRefine
