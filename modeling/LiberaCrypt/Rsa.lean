import LiberaCrypt.BignumSecret
import LiberaCrypt.Def
import LiberaCrypt.ModExpAgree

namespace LiberaCrypt.Rsa

open LiberaCrypt.Outcome LiberaCrypt.Allocation LiberaCrypt.CountedLoop LiberaCrypt.Def
open LiberaCrypt.Limbs LiberaCrypt.Bignum LiberaCrypt.ModExpAgree LiberaCrypt.ModExpSecure
open LiberaCrypt.ModExpVartime

structure LiberaCRsaPublicKey where
  n : LiberaCBignum
  e : LiberaCBignum

structure LiberaCRsaPrivateKey where
  n : LiberaCBignum
  d : LiberaCBignum
  p : LiberaCBignum
  q : LiberaCBignum

def rsaBignumWellFormed (value : LiberaCBignum) : Bool :=
  if value.capacity < value.length then false
  else if value.length = 0 then true
  else value.limbs.getD (value.length - 1) 0 != 0

def rsaPublicKeyValid (key : LiberaCRsaPublicKey) : Bool :=
  if rsaBignumWellFormed key.n = false ∨ rsaBignumWellFormed key.e = false ∨ key.n.length = 0 ∨
      key.e.length = 0 ∨ sizeMax / 32 < key.n.length ∨ key.n.limbs.getD 0 0 &&& 1 = 0 ∨
      key.e.limbs.getD 0 0 &&& 1 = 0 ∨ cryptoBignumCompare key.e key.n ≠ .lt then false
  else if key.e.length = 1 ∧ key.e.limbs.getD 0 0 < 3 then false
  else true

/-- One round of the scan of `D` beside `N`. -/
def privateScanStep (n d : List UInt32) (i : Nat) (s : UInt32 × UInt32) : UInt32 × UInt32 :=
  let subtrahend := (n.getD i 0).toUInt64 + s.2.toUInt64
  let minuend := (d.getD i 0).toUInt64
  (s.1 ||| d.getD i 0, if minuend < subtrahend then 1 else 0)

def rsaPrivateKeyValid (key : LiberaCRsaPrivateKey) : Bool :=
  if rsaBignumWellFormed key.n = false ∨ key.n.length = 0 ∨ sizeMax / 32 < key.n.length ∨
      key.n.limbs.getD 0 0 &&& 1 = 0 ∨ key.d.capacity < key.d.length ∨ key.d.limbs = [] ∨
      key.d.capacity < key.n.length then false
  else
    let scanned := countUp key.n.length (privateScanStep key.n.limbs key.d.limbs) (0, 0)
    scanned.1 != 0 && scanned.2 != 0

def cryptoRsaEncryptInternal (alg : LiberaCAlgID) (ciphertext message : LiberaCBignum)
    (publicKey : LiberaCRsaPublicKey) : Fallible LiberaCBignum :=
  if alg ≠ .rsaRaw then throw .invalidAlgId
  else if cryptoBignumCompare message publicKey.n ≠ .lt then throw .messageTooLarge
  else
    reported (cryptoBignumModExpVartime ciphertext message publicKey.e publicKey.n) .arithmetic

def cryptoRsaDecryptInternal (alg : LiberaCAlgID) (ciphertext : LiberaCBignum)
    (privateKey : LiberaCRsaPrivateKey) : Fallible LiberaCBignum :=
  if alg ≠ .rsaRaw then throw .invalidAlgId
  else if cryptoBignumCompare ciphertext privateKey.n ≠ .lt then throw .invalidArgument
  else reported (cryptoBignumModExpCt ciphertext privateKey.d privateKey.n) .arithmetic

variable {n d : List UInt32} {key : LiberaCRsaPrivateKey}

/-- After `i` limbs the scan has compared that many limbs as numbers. -/
def Scanned (n d : List UInt32) (i : Nat) (s : UInt32 × UInt32) : Prop :=
  (s.1 = 0 ↔ wordsValue (d.take i) = 0) ∧
    s.2 = if wordsValue (d.take i) < wordsValue (n.take i) then 1 else 0

theorem privateScanStep_scanned {i : Nat} {s : UInt32 × UInt32} (h : Scanned n d i s) :
    Scanned n d (i + 1) (privateScanStep n d i s) := by
  obtain ⟨hnonzero, hborrow⟩ := h
  have hd := wordsValue_take_lt d i
  have hn := wordsValue_take_lt n i
  have hweight := Nat.pow_pos (n := i) wordBase_pos
  have hborrowNat : s.2.toNat = if wordsValue (d.take i) < wordsValue (n.take i) then 1 else 0 := by
    rw [hborrow]
    split <;> rfl
  have hcompare : (d.getD i 0).toUInt64 < (n.getD i 0).toUInt64 + s.2.toUInt64 ↔
      (d.getD i 0).toNat < (n.getD i 0).toNat + s.2.toNat := by
    have hle : s.2.toNat ≤ 1 := by
      rw [hborrowNat]
      split <;> omega
    have hword := word_lt (n.getD i 0)
    unfold wordBase at hword
    rw [UInt64.lt_iff_toNat_lt, UInt64.toNat_add, UInt32.toNat_toUInt64, UInt32.toNat_toUInt64,
      UInt32.toNat_toUInt64, Nat.mod_eq_of_lt (by omega)]
  unfold Scanned privateScanStep
  dsimp only
  rw [wordsValue_take_succ, wordsValue_take_succ, UInt32.or_eq_zero_iff, hnonzero,
    Nat.add_eq_zero_iff, Nat.mul_eq_zero, ← UInt32.toNat_inj, UInt32.toNat_zero]
  refine ⟨⟨fun h => ⟨h.1, Or.inr h.2⟩, fun h => ⟨h.1, h.2.resolve_left hweight.ne'⟩⟩, ?_⟩
  refine if_congr (hcompare.trans ?_) rfl rfl
  rw [Nat.add_comm (wordsValue (d.take i)), digit_lt hd hn, hborrowNat]

/-- The conditions of `rsa_private_key_valid` before its scan. -/
structure Stored (key : LiberaCRsaPrivateKey) : Prop where
  wellFormed : rsaBignumWellFormed key.n = true
  n_length : key.n.length ≠ 0
  n_size : key.n.length ≤ sizeMax / 32
  odd : key.n.limbs.getD 0 0 &&& 1 ≠ 0
  d_length : key.d.length ≤ key.d.capacity
  d_width : key.n.length ≤ key.d.capacity

/-- The scan accepts what it reads of `D` between zero and `N`. -/
theorem rsaPrivateKeyValid_iff : rsaPrivateKeyValid key = true ↔ Stored key ∧
    0 < wordsValue (key.d.limbs.take key.n.length) ∧
      wordsValue (key.d.limbs.take key.n.length) < key.n.value := by
  obtain ⟨hnonzero, hborrow⟩ := countUp_invariant (Scanned key.n.limbs key.d.limbs)
    (n := key.n.length) (f := privateScanStep key.n.limbs key.d.limbs) (s := (0, 0))
    ⟨by simp, by simp⟩ fun i _ s hs => privateScanStep_scanned hs
  unfold rsaPrivateKeyValid
  split
  · next hrejected =>
    refine iff_of_false Bool.false_ne_true ?_
    rintro ⟨hstored, -⟩
    rcases hrejected with h | h | h | h | h | h | h
    · exact absurd (h.symm.trans hstored.wellFormed) Bool.false_ne_true
    · exact hstored.n_length h
    · exact absurd hstored.n_size (not_le.mpr h)
    · exact hstored.odd h
    · exact absurd hstored.d_length (not_le.mpr h)
    · have hwidth := hstored.d_width
      rw [LiberaCBignum.capacity, h, List.length_nil, Nat.le_zero] at hwidth
      exact hstored.n_length hwidth
    · exact absurd hstored.d_width (not_le.mpr h)
  · next haccepted =>
    simp only [not_or, not_lt, Bool.not_eq_false] at haccepted
    obtain ⟨hwellFormed, hlength, hsize, hodd, hdLength, -, hwidth⟩ := haccepted
    dsimp only
    rw [Bool.and_eq_true, bne_iff_ne, bne_iff_ne, Ne, hnonzero, hborrow,
      Nat.pos_iff_ne_zero]
    constructor
    · rintro ⟨hpos, hlt⟩
      refine ⟨⟨hwellFormed, hlength, hsize, hodd, hdLength, hwidth⟩, hpos, ?_⟩
      by_contra hge
      exact hlt (if_neg hge)
    · rintro ⟨-, hpos, hlt⟩
      change _ < wordsValue (key.n.limbs.take key.n.length) at hlt
      refine ⟨hpos, ?_⟩
      rw [if_pos hlt]
      decide

end LiberaCrypt.Rsa
