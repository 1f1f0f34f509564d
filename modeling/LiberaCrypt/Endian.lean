import LiberaCrypt.Radix
import LiberaCrypt.WordArithmetic

namespace LiberaCrypt.Endian

def cryptoRotl32 (value : UInt32) (count : Nat) : UInt32 :=
  let count := count % 32
  (value <<< UInt32.ofNat count) ||| (value >>> UInt32.ofNat ((32 - count) % 32))

def cryptoRotl64 (value : UInt64) (count : Nat) : UInt64 :=
  let count := count % 64
  (value <<< UInt64.ofNat count) ||| (value >>> UInt64.ofNat ((64 - count) % 64))

def cryptoRotr32 (value : UInt32) (count : Nat) : UInt32 :=
  let count := count % 32
  (value >>> UInt32.ofNat count) ||| (value <<< UInt32.ofNat ((32 - count) % 32))

def cryptoRotr64 (value : UInt64) (count : Nat) : UInt64 :=
  let count := count % 64
  (value >>> UInt64.ofNat count) ||| (value <<< UInt64.ofNat ((64 - count) % 64))

def cryptoLoad32Be (p : List UInt8) : UInt32 :=
  ((p.getD 0 0).toUInt32 <<< 24) ||| ((p.getD 1 0).toUInt32 <<< 16) |||
    ((p.getD 2 0).toUInt32 <<< 8) ||| (p.getD 3 0).toUInt32

def cryptoLoad32Le (p : List UInt8) : UInt32 :=
  (p.getD 0 0).toUInt32 ||| ((p.getD 1 0).toUInt32 <<< 8) |||
    ((p.getD 2 0).toUInt32 <<< 16) ||| ((p.getD 3 0).toUInt32 <<< 24)

def cryptoLoad64Be (p : List UInt8) : UInt64 :=
  ((cryptoLoad32Be p).toUInt64 <<< 32) ||| (cryptoLoad32Be (p.drop 4)).toUInt64

def cryptoLoad64Le (p : List UInt8) : UInt64 :=
  (cryptoLoad32Le p).toUInt64 ||| ((cryptoLoad32Le (p.drop 4)).toUInt64 <<< 32)

def cryptoStore32Be (x : UInt32) : List UInt8 :=
  [(x >>> 24).toUInt8, (x >>> 16).toUInt8, (x >>> 8).toUInt8, x.toUInt8]

def cryptoStore32Le (x : UInt32) : List UInt8 :=
  [x.toUInt8, (x >>> 8).toUInt8, (x >>> 16).toUInt8, (x >>> 24).toUInt8]

def cryptoStore64Be (x : UInt64) : List UInt8 :=
  cryptoStore32Be (x >>> 32).toUInt32 ++ cryptoStore32Be x.toUInt32

def cryptoStore64Le (x : UInt64) : List UInt8 :=
  cryptoStore32Le x.toUInt32 ++ cryptoStore32Le (x >>> 32).toUInt32

/-- `n` bytes of a number, the highest first. -/
def bigEndian : Nat → Nat → List UInt8
  | 0, _ => []
  | n + 1, x => bigEndian n (x / 256) ++ [UInt8.ofNat x]

@[simp] theorem bigEndian_length (n x : Nat) : (bigEndian n x).length = n := by
  induction n generalizing x with
  | zero => rfl
  | succ n ih => rw [bigEndian, List.length_append, ih, List.length_singleton]

theorem bigEndian_add (m n x : Nat) :
    bigEndian (m + n) x = bigEndian m (x / 256 ^ n) ++ bigEndian n x := by
  induction n generalizing x with
  | zero => simp [bigEndian]
  | succ n ih =>
    rw [← Nat.add_assoc, bigEndian, bigEndian, ih, Nat.div_div_eq_div_mul, ← pow_succ',
      List.append_assoc]

theorem bigEndian_mod (n x : Nat) : bigEndian n (x % 256 ^ n) = bigEndian n x := by
  induction n generalizing x with
  | zero => rfl
  | succ n ih =>
    have hdiv : x % 256 ^ (n + 1) / 256 = x / 256 % 256 ^ n := by
      rw [pow_succ', Nat.mod_mul_right_div_self]
    have hbyte : UInt8.ofNat (x % 256 ^ (n + 1)) = UInt8.ofNat x := by
      apply UInt8.toNat_inj.mp
      rw [UInt8.toNat_ofNat', UInt8.toNat_ofNat', pow_succ']
      exact Nat.mod_mod_of_dvd _ (Nat.dvd_mul_right 256 _)
    rw [bigEndian, bigEndian, hdiv, ih, hbyte]

theorem cryptoStore32Be_eq (x : UInt32) : cryptoStore32Be x = bigEndian 4 x.toNat := by
  have hbyte : ∀ k < 32, (x >>> UInt32.ofNat k).toUInt8 = UInt8.ofNat (x.toNat / 2 ^ k) := by
    intro k hk
    apply UInt8.toNat_inj.mp
    rw [UInt32.toNat_toUInt8, UInt32.toNat_shiftRight, UInt8.toNat_ofNat',
      UInt32.toNat_ofNat_of_lt' (by rw [UInt32.size]; omega), Nat.mod_eq_of_lt hk,
      Nat.shiftRight_eq_div_pow]
  have h24 := hbyte 24 (by decide)
  have h16 := hbyte 16 (by decide)
  have h8 := hbyte 8 (by decide)
  have h0 : x.toUInt8 = UInt8.ofNat x.toNat := by
    apply UInt8.toNat_inj.mp
    rw [UInt32.toNat_toUInt8, UInt8.toNat_ofNat']
  simp only [bigEndian, List.nil_append, List.cons_append, Nat.div_div_eq_div_mul]
  change [(x >>> UInt32.ofNat 24).toUInt8, (x >>> UInt32.ofNat 16).toUInt8,
    (x >>> UInt32.ofNat 8).toUInt8, x.toUInt8] = _
  rw [h24, h16, h8, h0]
  rfl

theorem cryptoStore64Be_eq (x : UInt64) : cryptoStore64Be x = bigEndian 8 x.toNat := by
  have hlow : x.toUInt32.toNat = x.toNat % 256 ^ 4 := UInt64.toNat_toUInt32 x
  have hhigh : (x >>> 32).toUInt32.toNat = x.toNat / 256 ^ 4 := by
    have hx := x.toNat_lt
    rw [UInt64.toNat_toUInt32, UInt64.toNat_shiftRight]
    change (x.toNat >>> 32) % 2 ^ 32 = _
    rw [Nat.shiftRight_eq_div_pow]
    omega
  rw [cryptoStore64Be, cryptoStore32Be_eq, cryptoStore32Be_eq, hlow, hhigh, bigEndian_mod,
    bigEndian_add 4 4]

end LiberaCrypt.Endian

namespace LiberaCrypt.BigEndian

open LiberaCrypt.Endian LiberaCrypt.Radix

def beValue (bytes : List UInt8) : Nat := bytesValue bytes.reverse

@[simp] theorem beValue_nil : beValue [] = 0 := rfl

theorem beValue_append_byte (bytes : List UInt8) (x : UInt8) :
    beValue (bytes ++ [x]) = x.toNat + 256 * beValue bytes := by
  rw [beValue, List.reverse_append, List.reverse_singleton, List.singleton_append, bytesValue_cons,
    beValue]

theorem beValue_cons (x : UInt8) (bytes : List UInt8) :
    beValue (x :: bytes) = 256 ^ bytes.length * x.toNat + beValue bytes := by
  rw [beValue, List.reverse_cons, bytesValue_append, bytesValue_singleton, List.length_reverse,
    Nat.add_comm, beValue]

theorem beValue_lt (bytes : List UInt8) : beValue bytes < 256 ^ bytes.length := by
  have hlt := bytesValue_lt bytes.reverse
  rwa [List.length_reverse] at hlt

theorem beValue_bigEndian (n x : Nat) : beValue (bigEndian n x) = x % 256 ^ n := by
  induction n generalizing x with
  | zero => rw [pow_zero, Nat.mod_one]; rfl
  | succ n ih =>
    have hbyte : (UInt8.ofNat x).toNat = x % 256 := UInt8.toNat_ofNat'
    rw [bigEndian, beValue_append_byte, ih, hbyte, Nat.pow_succ', Nat.mod_mul]

theorem bigEndian_beValue (bytes : List UInt8) : bigEndian bytes.length (beValue bytes) = bytes := by
  apply List.reverse_injective
  apply bytesValue_injective (by simp)
  have hvalue : beValue (bigEndian bytes.length (beValue bytes)) = beValue bytes := by
    rw [beValue_bigEndian, Nat.mod_eq_of_lt (beValue_lt bytes)]
  exact hvalue

theorem bigEndian_inj {n x y : Nat} (h : bigEndian n x = bigEndian n y) :
    x % 256 ^ n = y % 256 ^ n := by
  rw [← beValue_bigEndian, h, beValue_bigEndian]

theorem bigEndian_inj_of_lt {n x y : Nat} (hx : x < 256 ^ n) (hy : y < 256 ^ n)
    (h : bigEndian n x = bigEndian n y) : x = y := by
  rw [← Nat.mod_eq_of_lt hx, bigEndian_inj h, Nat.mod_eq_of_lt hy]

end LiberaCrypt.BigEndian

namespace LiberaCrypt.LittleEndian

open LiberaCrypt.CheckedWords LiberaCrypt.Endian LiberaCrypt.Radix

/-- A word put above the `k` bits of another one. -/
theorem toNat_join32 (low high : UInt32) {k : Nat} (hk : k < 32) (hlow : low.toNat < 2 ^ k) :
    (low ||| (high <<< UInt32.ofNat k)).toNat = (low.toNat + 2 ^ k * high.toNat) % 2 ^ 32 := by
  have hwidth : 2 ^ 32 = 2 ^ k * 2 ^ (32 - k) := by
    rw [← pow_add, Nat.add_sub_cancel' hk.le]
  have hhigh : high.toNat * 2 ^ k % 2 ^ 32 = 2 ^ k * (high.toNat % 2 ^ (32 - k)) := by
    rw [hwidth, Nat.mul_comm high.toNat, Nat.mul_mod_mul_left]
  have hsum : (low.toNat + 2 ^ k * high.toNat) % 2 ^ 32 =
      2 ^ k * (high.toNat % 2 ^ (32 - k)) + low.toNat := by
    rw [hwidth, Nat.add_comm, Nat.mod_mul, Nat.mul_add_mod, Nat.mod_eq_of_lt hlow,
      Nat.mul_add_div (by positivity), Nat.div_eq_of_lt hlow, Nat.add_zero, Nat.add_comm]
  rw [UInt32.toNat_or, UInt32.toNat_shiftLeft, UInt32.toNat_ofNat',
    Nat.mod_eq_of_lt (a := k) (by omega), Nat.mod_eq_of_lt hk, Nat.shiftLeft_eq, hhigh, hsum,
    Nat.two_pow_add_eq_or_of_lt hlow, Nat.or_comm]

theorem bytesValue_take_succ (p : List UInt8) (n : Nat) :
    bytesValue (p.take (n + 1)) = (p.getD 0 0).toNat + 256 * bytesValue ((p.drop 1).take n) := by
  cases p with
  | nil => simp
  | cons x p => simp [bytesValue_cons]

theorem toNat_cryptoLoad32Le (p : List UInt8) :
    (cryptoLoad32Le p).toNat = bytesValue (p.take 4) := by
  have hvalue : bytesValue (p.take 4) = (p.getD 0 0).toNat + 256 * ((p.getD 1 0).toNat +
      256 * ((p.getD 2 0).toNat + 256 * (p.getD 3 0).toNat)) := by
    rw [bytesValue_take_succ, bytesValue_take_succ, bytesValue_take_succ, bytesValue_take_succ]
    simp
  have h0 := (p.getD 0 0).toNat_lt
  have h1 := (p.getD 1 0).toNat_lt
  have h2 := (p.getD 2 0).toNat_lt
  have h3 := (p.getD 3 0).toNat_lt
  have e1 : ((p.getD 0 0).toUInt32 ||| ((p.getD 1 0).toUInt32 <<< 8)).toNat =
      (p.getD 0 0).toNat + 2 ^ 8 * (p.getD 1 0).toNat := by
    have hjoin := toNat_join32 (p.getD 0 0).toUInt32 (p.getD 1 0).toUInt32 (k := 8) (by decide)
      (by rw [UInt8.toNat_toUInt32]; exact h0)
    rw [UInt8.toNat_toUInt32, UInt8.toNat_toUInt32, Nat.mod_eq_of_lt (by omega)] at hjoin
    exact hjoin
  have e2 : ((p.getD 0 0).toUInt32 ||| ((p.getD 1 0).toUInt32 <<< 8) |||
      ((p.getD 2 0).toUInt32 <<< 16)).toNat =
      (p.getD 0 0).toNat + 2 ^ 8 * (p.getD 1 0).toNat + 2 ^ 16 * (p.getD 2 0).toNat := by
    have hjoin := toNat_join32 ((p.getD 0 0).toUInt32 ||| ((p.getD 1 0).toUInt32 <<< 8))
      (p.getD 2 0).toUInt32 (k := 16) (by decide) (by rw [e1]; omega)
    rw [e1, UInt8.toNat_toUInt32, Nat.mod_eq_of_lt (by omega)] at hjoin
    exact hjoin
  have hjoin := toNat_join32 ((p.getD 0 0).toUInt32 ||| ((p.getD 1 0).toUInt32 <<< 8) |||
    ((p.getD 2 0).toUInt32 <<< 16)) (p.getD 3 0).toUInt32 (k := 24) (by decide)
    (by rw [e2]; omega)
  rw [e2, UInt8.toNat_toUInt32, Nat.mod_eq_of_lt (by omega)] at hjoin
  exact hjoin.trans (by rw [hvalue]; ring)

@[simp] theorem cryptoStore32Le_length (x : UInt32) : (cryptoStore32Le x).length = 4 := rfl

theorem bytesValue_cryptoStore32Le (x : UInt32) : bytesValue (cryptoStore32Le x) = x.toNat := by
  have h8 : (x >>> 8).toNat = x.toNat / 2 ^ 8 := toNat_shift32 x 8 (by decide)
  have h16 : (x >>> 16).toNat = x.toNat / 2 ^ 16 := toNat_shift32 x 16 (by decide)
  have h24 : (x >>> 24).toNat = x.toNat / 2 ^ 24 := toNat_shift32 x 24 (by decide)
  have hx := x.toNat_lt
  simp only [cryptoStore32Le, bytesValue_cons, bytesValue_nil, UInt32.toNat_toUInt8, h8, h16, h24]
  omega

end LiberaCrypt.LittleEndian
