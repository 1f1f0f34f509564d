import LiberaCrypt.Def

namespace LiberaCrypt.FillLoop

open LiberaCrypt.Outcome

variable {σ : Type}

/-- `while (used < length)`: a block is made and as much of it as is wanted is copied. -/
def fillLoop (n : Nat) (next : OnState σ (List UInt8)) (length : Nat) : OnState σ (List UInt8) :=
  fun s =>
    if _h : 0 < n ∧ 0 < length then
      match next s with
      | (.error e, s) => (.error e, s)
      | (.ok block, s) =>
        let copyLength := if length > n then n else length
        match fillLoop n next (length - copyLength) s with
        | (.error e, s) => (.error e, s)
        | (.ok rest, s) => (.ok (block.take copyLength ++ rest), s)
    else (.ok [], s)
termination_by length
decreasing_by
  split <;> omega

def blockCount (n length : Nat) : Nat := (length + (n - 1)) / n

def filled (out : Nat → List UInt8) (n length : Nat) : List UInt8 :=
  ((List.range (blockCount n length)).flatMap out).take length

variable {n : Nat} {out : Nat → List UInt8}

theorem blockCount_zero (hn : 0 < n) : blockCount n 0 = 0 := Nat.div_eq_of_lt (by omega)

theorem blockCount_last {length : Nat} (hpos : 0 < length) (hle : length ≤ n) :
    blockCount n length = 1 :=
  Nat.div_eq_of_lt_le (by omega) (by omega)

theorem blockCount_more {length : Nat} (hn : 0 < n) (hlt : n < length) :
    blockCount n length = blockCount n (length - n) + 1 := by
  rw [blockCount, blockCount, ← Nat.add_div_right _ hn]
  congr 1
  omega

theorem filled_last {length : Nat} (hpos : 0 < length) (hle : length ≤ n) :
    filled out n length = (out 0).take length := by
  rw [filled, blockCount_last hpos hle]
  simp

theorem filled_more {length : Nat} (hn : 0 < n) (hlt : n < length) (hlength : (out 0).length = n) :
    filled out n length = out 0 ++ filled (fun i => out (i + 1)) n (length - n) := by
  have hle : (out 0).length ≤ length := hlength.trans_le hlt.le
  rw [filled, blockCount_more hn hlt, List.range_succ_eq_map, List.flatMap_cons, List.flatMap_map,
    List.take_append, List.take_of_length_le hle, hlength]
  rfl

/-- A filling is its first block, as much of it as is wanted, and a filling of the rest. -/
theorem filled_step (hn : 0 < n) (hlength : (out 0).length = n) {wanted : Nat} (hpos : 0 < wanted) :
    filled out n wanted = (out 0).take (if wanted > n then n else wanted) ++
      filled (fun k => out (k + 1)) n (wanted - n) := by
  by_cases hmore : n < wanted
  · rw [if_pos hmore, filled_more hn hmore hlength, List.take_of_length_le hlength.le]
  · have hnone : wanted - n = 0 := by omega
    rw [if_neg hmore, filled_last hpos (not_lt.mp hmore), hnone, filled, List.take_zero,
      List.append_nil]

theorem produced_lt {length : Nat} (hn : 0 < n) {i : Nat} (hi : i < blockCount n length) :
    i * n < length := by
  by_contra hle
  have hmul : blockCount n length * n ≤ length + (n - 1) := Nat.div_mul_le_self _ _
  have hsucc := Nat.mul_le_mul_right n hi
  rw [Nat.succ_mul] at hsucc
  omega

theorem length_le_blocks (hn : 0 < n) (length : Nat) : length ≤ blockCount n length * n := by
  have hdiv := Nat.div_add_mod (length + (n - 1)) n
  have hmod := Nat.mod_lt (length + (n - 1)) hn
  rw [blockCount, Nat.mul_comm]
  omega

theorem fillLoop_ok {next : OnState σ (List UInt8)} {state : Nat → σ} (hn : 0 < n)
    (hnext : ∀ i, next (state i) = (.ok (out i), state (i + 1)))
    (hlength : ∀ i, (out i).length = n) (length : Nat) :
    fillLoop n next length (state 0) = (.ok (filled out n length), state (blockCount n length)) := by
  induction hlen : length using Nat.strong_induction_on generalizing length state out with
  | _ len ih =>
  subst hlen
  rw [fillLoop]
  by_cases hpos : 0 < length
  · rw [dif_pos ⟨hn, hpos⟩, hnext 0]
    dsimp only
    by_cases hlt : n < length
    · have hrest := ih (length - n) (by omega) (fun i => hnext (i + 1)) (fun i => hlength (i + 1))
        (length - n) rfl
      rw [if_pos hlt, hrest, blockCount_more hn hlt, filled_more hn hlt (hlength 0),
        List.take_of_length_le (hlength 0).le]
    · have hle : length ≤ n := not_lt.mp hlt
      rw [if_neg hlt, Nat.sub_self, fillLoop, dif_neg (by omega), blockCount_last hpos hle,
        filled_last hpos hle]
      dsimp only
      rw [List.append_nil]
  · have hzero : length = 0 := by omega
    rw [dif_neg (by omega), hzero, blockCount_zero hn, filled, List.take_zero]

theorem blocks_length (hlength : ∀ i, (out i).length = n) (k : Nat) :
    ((List.range k).flatMap out).length = k * n := by
  induction k with
  | zero => simp
  | succ k ih => simp [List.range_succ, ih, hlength, Nat.succ_mul]

theorem filled_length (hlength : ∀ i, (out i).length = n) (hn : 0 < n) (length : Nat) :
    (filled out n length).length = length := by
  rw [filled, List.length_take, blocks_length hlength]
  exact Nat.min_eq_left (length_le_blocks hn length)

theorem filled_take (hlength : ∀ i, (out i).length = n) (hn : 0 < n) {short long : Nat}
    (h : short ≤ long) : filled out n short = (filled out n long).take short := by
  obtain ⟨k, hk⟩ : ∃ k, blockCount n long = blockCount n short + k :=
    Nat.exists_eq_add_of_le (Nat.div_le_div_right (by omega))
  have hshort := filled_length hlength hn short
  rw [filled, List.length_take, min_eq_left_iff] at hshort
  rw [filled, filled, List.take_take, Nat.min_eq_left h, hk, List.range_add, List.flatMap_append,
    List.take_append_of_le_length hshort]

end LiberaCrypt.FillLoop
