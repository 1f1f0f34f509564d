import LiberaCrypt.Endian

namespace LiberaCrypt.Rfc6979

open LiberaCrypt.BigEndian LiberaCrypt.Endian

/-- A keyed hash with `hlen` bytes of output and the order of a group. -/
structure Parameters where
  mac : List UInt8 → List UInt8 → List UInt8
  hlen : Nat
  q : Nat

structure Drbg where
  key : List UInt8
  value : List UInt8

variable (r : Parameters)

def rlen : Nat := (r.q.size + 7) / 8

def bits2int (bits : List UInt8) : Nat := beValue bits / 2 ^ (8 * bits.length - r.q.size)

def int2octets (x : Nat) : List UInt8 := bigEndian (rlen r) x

def bits2octets (bits : List UInt8) : List UInt8 := int2octets r (bits2int r bits % r.q)

def update (d : Drbg) (data : List UInt8) : Drbg :=
  let key := r.mac d.key (d.value ++ data)
  ⟨key, r.mac key d.value⟩

/-- The generator for the private key `x` and the hash `h1` of a message. -/
def start (x : Nat) (h1 : List UInt8) : Drbg :=
  let data := int2octets r x ++ bits2octets r h1
  let zero : Drbg := ⟨List.replicate r.hlen 0, List.replicate r.hlen 1⟩
  update r (update r zero (0 :: data)) (1 :: data)

def chain (d : Drbg) : Nat → Drbg
  | 0 => d
  | i + 1 => { d with value := r.mac d.key (chain d i).value }

def blocks : Nat := (r.q.size + (8 * r.hlen - 1)) / (8 * r.hlen)

def candidate (d : Drbg) : Nat :=
  bits2int r ((List.range (blocks r)).flatMap fun i => (chain r d (i + 1)).value)

def retry (d : Drbg) : Drbg := update r (chain r d (blocks r)) [0]

/-- The loop rejects so many candidates and returns the next one. -/
inductive Draws : Drbg → Nat → Nat → Prop
  | accept {d : Drbg} : 1 ≤ candidate r d → candidate r d < r.q → Draws d 0 (candidate r d)
  | reject {d : Drbg} {n k : Nat} : ¬ (1 ≤ candidate r d ∧ candidate r d < r.q) →
      Draws (retry r d) n k → Draws d (n + 1) k

def after (d : Drbg) : Nat → Drbg
  | 0 => d
  | n + 1 => after (retry r d) n

variable {r}

theorem after_succ (d : Drbg) (n : Nat) : after r d (n + 1) = retry r (after r d n) := by
  induction n generalizing d with
  | zero => rfl
  | succ n ih => exact ih (retry r d)

theorem draws_iff {d : Drbg} {n k : Nat} : Draws r d n k ↔
    (∀ i < n, ¬ (1 ≤ candidate r (after r d i) ∧ candidate r (after r d i) < r.q)) ∧
      (1 ≤ candidate r (after r d n) ∧ candidate r (after r d n) < r.q) ∧
      k = candidate r (after r d n) := by
  induction n generalizing d with
  | zero =>
    constructor
    · intro h
      cases h with
      | accept hpos hlt => exact ⟨fun i hi => absurd hi (Nat.not_lt_zero i), ⟨hpos, hlt⟩, rfl⟩
    · rintro ⟨-, ⟨hpos, hlt⟩, rfl⟩
      exact Draws.accept hpos hlt
  | succ n ih =>
    constructor
    · intro h
      cases h with
      | reject hout hrest =>
        obtain ⟨hbefore, hlast⟩ := ih.mp hrest
        refine ⟨fun i hi => ?_, hlast⟩
        cases i with
        | zero => exact hout
        | succ i => exact hbefore i (Nat.lt_of_succ_lt_succ hi)
    · rintro ⟨hbefore, hlast⟩
      exact Draws.reject (hbefore 0 (Nat.succ_pos n))
        (ih.mpr ⟨fun i hi => hbefore (i + 1) (Nat.succ_lt_succ hi), hlast⟩)

theorem Draws.unique {d : Drbg} {n m k l : Nat} (h : Draws r d n k) (h' : Draws r d m l) :
    n = m ∧ k = l := by
  induction h generalizing m with
  | accept hpos hlt =>
    cases h' with
    | accept => exact ⟨rfl, rfl⟩
    | reject hout => exact absurd ⟨hpos, hlt⟩ hout
  | reject hout _ ih =>
    cases h' with
    | accept hpos hlt => exact absurd ⟨hpos, hlt⟩ hout
    | reject _ hrest =>
      obtain ⟨hn, hk⟩ := ih hrest
      exact ⟨congrArg Nat.succ hn, hk⟩

end LiberaCrypt.Rfc6979
