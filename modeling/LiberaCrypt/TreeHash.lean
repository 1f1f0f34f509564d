import LiberaCrypt.CountedLoop
import Mathlib.Data.Nat.Bitwise

namespace LiberaCrypt.TreeHash

open LiberaCrypt.MonadicLoop LiberaCrypt.SteadyAction

variable {σ α : Type}

def node (leaf : Nat → α) (join : Nat → Nat → α → α → α) : Nat → Nat → α
  | 0, i => leaf i
  | z + 1, i => join (z + 1) i (node leaf join z (2 * i)) (node leaf join z (2 * i + 1))

section Tree

variable {leaf : Nat → α} {join : Nat → Nat → α → α → α}

theorem node_step (i k : Nat) :
    (if (i >>> k) &&& 1 = 0
      then join (k + 1) (i >>> (k + 1)) (node leaf join k (i >>> k))
        (node leaf join k ((i >>> k) ^^^ 1))
      else join (k + 1) (i >>> (k + 1)) (node leaf join k ((i >>> k) ^^^ 1))
        (node leaf join k (i >>> k))) = node leaf join (k + 1) (i >>> (k + 1)) := by
  have hhalf : i >>> (k + 1) = (i >>> k) / 2 := Nat.shiftRight_succ i k
  rw [Nat.and_one_is_mod, hhalf, node]
  generalize i >>> k = m
  split
  · next heven =>
    have hxor : m ^^^ 1 = m + 1 := Nat.xor_one_of_even (Nat.even_iff.mpr heven)
    rw [hxor, show 2 * (m / 2) = m by omega]
  · next hodd =>
    have hone : m % 2 = 1 := by omega
    have hxor : m ^^^ 1 = m - 1 := Nat.xor_one_of_odd (Nat.odd_iff.mpr hone)
    rw [hxor, show 2 * (m / 2) = m - 1 by omega, show m - 1 + 1 = m by omega]

end Tree

/-- `for (k = 0; (j >> k) & 1; k++)`: the topmost two nodes are joined, and node `i` of the leaves
is the one that the topmost ends with. Without a second node there is no result. -/
def mergeUp (join : Nat → Nat → α → α → StateT σ Option α) (i j : Nat) :
    Nat → α → List α → StateT σ Option (List α)
  | k, top, [] => if (j >>> k) &&& 1 = 0 then pure [top] else failure
  | k, top, left :: rest =>
    if (j >>> k) &&& 1 = 0 then pure (top :: left :: rest)
    else do
      let parent ← join (k + 1) (i >>> (k + 1)) left top
      mergeUp join i j (k + 1) parent rest

def pushLeaf (slots : Nat) (leaf : Nat → StateT σ Option α)
    (join : Nat → Nat → α → α → StateT σ Option α) (first j : Nat) (stack : List α) :
    StateT σ Option (List α) :=
  if slots < stack.length then failure
  else do
    let top ← leaf (first + j)
    mergeUp join (first + j) j 0 top stack

def treeHash (slots : Nat) (leaf : Nat → StateT σ Option α)
    (join : Nat → Nat → α → α → StateT σ Option α) (i z : Nat) : StateT σ Option α := do
  let stack ← countUpM (2 ^ z) (pushLeaf slots leaf join (i <<< z)) []
  match stack.getLast? with
  | some root => pure root
  | none => failure

/-- The node `i` of height `z`, its left subtree first and then its right one. -/
def recursiveNode (leaf : Nat → StateT σ Option α)
    (join : Nat → Nat → α → α → StateT σ Option α) : Nat → Nat → StateT σ Option α
  | 0, i => leaf i
  | z + 1, i => do
    let left ← recursiveNode leaf join z (2 * i)
    let right ← recursiveNode leaf join z (2 * i + 1)
    join (z + 1) i left right

/-- The nodes that `j` leaves leave on the stack, for `bits` bits of `j` and all of level `k`. -/
def pile (leaf : Nat → α) (join : Nat → Nat → α → α → α) : Nat → Nat → Nat → Nat → List α
  | 0, k, first, j => if j = 0 then [] else [node leaf join k first]
  | bits + 1, k, first, j =>
    if j % 2 = 0 then pile leaf join bits (k + 1) (first / 2) (j / 2)
    else node leaf join k (first + j - 1) :: pile leaf join bits (k + 1) (first / 2) (j / 2)

section Stack

variable {leaf : Nat → α} {join : Nat → Nat → α → α → α} {bits k first j : Nat}

theorem pile_zero : pile leaf join bits k first 0 = [] := by
  induction bits generalizing k first with
  | zero => rfl
  | succ bits ih => exact ih

theorem pile_full : pile leaf join bits k first (2 ^ bits) =
    [node leaf join (k + bits) (first / 2 ^ bits)] := by
  induction bits generalizing k first with
  | zero => simp [pile]
  | succ bits ih =>
    have heven : 2 ^ (bits + 1) % 2 = 0 := by omega
    have hhalf : 2 ^ (bits + 1) / 2 = 2 ^ bits := by omega
    rw [pile, if_pos heven, hhalf, ih, Nat.div_div_eq_div_mul, Nat.pow_succ', Nat.add_right_comm,
      Nat.add_assoc]

theorem pile_length (h : j < 2 ^ bits) : (pile leaf join bits k first j).length ≤ bits := by
  induction bits generalizing k first j with
  | zero =>
    have hzero : j = 0 := by omega
    rw [hzero, pile_zero, List.length_nil]
  | succ bits ih =>
    have hhalf : j / 2 < 2 ^ bits := by omega
    have hrest := @ih (k + 1) (first / 2) (j / 2) hhalf
    unfold pile
    split
    · exact Nat.le_succ_of_le hrest
    · exact Nat.succ_le_succ hrest

variable {P : σ → Prop} {joinM : Nat → Nat → α → α → StateT σ Option α}

/-- The merges that follow leaf `j` make the nodes of `j` leaves those of `j + 1`. The numbers at
level `k` are the shifted ones, of which `first` is even as long as bits remain. -/
theorem mergeUp_pile {i n : Nat} (hjoin : ∀ k i l r, Steady P P (joinM k i l r) (join k i l r))
    (hfirst : first % 2 ^ bits = 0) (hj : j < 2 ^ bits) (hn : n >>> k = j)
    (hi : i >>> k = first + j) :
    Steady P P (mergeUp joinM i n k (node leaf join k (first + j)) (pile leaf join bits k first j))
      (pile leaf join bits k first (j + 1)) := by
  induction bits generalizing k first j with
  | zero =>
    have hzero : j = 0 := by omega
    subst hzero
    have hstop : (n >>> k) &&& 1 = 0 := by rw [hn]; rfl
    rw [pile_zero, mergeUp, if_pos hstop]
    exact Steady.returned _
  | succ bits ih =>
    have hnextn : n >>> (k + 1) = j / 2 := by rw [Nat.shiftRight_succ, hn]
    have hnexti : i >>> (k + 1) = (first + j) / 2 := by rw [Nat.shiftRight_succ, hi]
    have hpow : 2 ^ (bits + 1) = 2 * 2 ^ bits := Nat.pow_succ'
    have heven : first % 2 = 0 :=
      (Nat.mod_mod_of_dvd first (Dvd.intro _ hpow.symm)).symm.trans (by rw [hfirst])
    have hhalf : first / 2 % 2 ^ bits = 0 := by
      rw [hpow, Nat.mod_mul] at hfirst
      omega
    rcases Nat.mod_two_eq_zero_or_one j with hstop | hmerge
    · have hclear : (n >>> k) &&& 1 = 0 := by rw [hn, Nat.and_one_is_mod, hstop]
      have hodd : ¬ (j + 1) % 2 = 0 := by omega
      have hsame : (j + 1) / 2 = j / 2 := by omega
      have hresult : pile leaf join (bits + 1) k first (j + 1) =
          node leaf join k (first + j) :: pile leaf join (bits + 1) k first j := by
        rw [pile, if_neg hodd, hsame, pile, if_pos hstop]
        rfl
      rw [hresult]
      cases hpile : pile leaf join (bits + 1) k first j with
      | nil =>
        rw [mergeUp, if_pos hclear]
        exact Steady.returned _
      | cons left rest =>
        rw [mergeUp, if_pos hclear]
        exact Steady.returned _
    · have hset : ¬ (n >>> k) &&& 1 = 0 := by rw [hn, Nat.and_one_is_mod, hmerge]; decide
      have hodd : ¬ j % 2 = 0 := by omega
      have hclear : (j + 1) % 2 = 0 := by omega
      have hcarry : (j + 1) / 2 = j / 2 + 1 := by omega
      have hsum : (first + j) / 2 = first / 2 + j / 2 := by omega
      have hparent : join (k + 1) ((first + j) / 2) (node leaf join k (first + j - 1))
          (node leaf join k (first + j)) = node leaf join (k + 1) (first / 2 + j / 2) := by
        rw [node, ← hsum, show 2 * ((first + j) / 2) = first + j - 1 by omega,
          show first + j - 1 + 1 = first + j by omega]
      have hrest := ih hhalf (by omega) hnextn (hnexti.trans hsum)
      rw [pile, if_neg hodd, mergeUp, if_neg hset, pile, if_pos hclear, hcarry, hnexti]
      refine (hjoin _ _ _ _).bind ?_
      rw [hparent]
      exact hrest

end Stack

theorem treeHash_steady {P Q : σ → Prop} {leaf : Nat → α} {join : Nat → Nat → α → α → α}
    {leafM : Nat → StateT σ Option α} {joinM : Nat → Nat → α → α → StateT σ Option α}
    {slots i z : Nat} (hQ : ∀ s, Q s → P s) (hleaf : ∀ i, Steady P Q (leafM i) (leaf i))
    (hjoin : ∀ k i l r, Steady Q Q (joinM k i l r) (join k i l r)) (hslots : z ≤ slots) :
    Steady P Q (treeHash slots leafM joinM i z) (node leaf join z i) := by
  have hround : ∀ j < 2 ^ z, Steady P Q
      (pushLeaf slots leafM joinM (i <<< z) j (pile leaf join z 0 (i <<< z) j))
      (pile leaf join z 0 (i <<< z) (j + 1)) := by
    intro j hj
    have hroom : ¬ slots < (pile leaf join z 0 (i <<< z) j).length :=
      not_lt.mpr ((pile_length hj).trans hslots)
    unfold pushLeaf
    rw [if_neg hroom]
    refine (hleaf _).bind ?_
    exact mergeUp_pile hjoin (by rw [Nat.shiftLeft_eq, Nat.mul_mod_left]) hj rfl rfl
  have hloop : Steady P Q (countUpM (2 ^ z) (pushLeaf slots leafM joinM (i <<< z)) [])
      (pile leaf join z 0 (i <<< z) (2 ^ z)) := by
    obtain ⟨n, hn⟩ := Nat.exists_eq_succ_of_ne_zero (Nat.two_pow_pos z).ne'
    have hmost : Steady P P (countUpM n (pushLeaf slots leafM joinM (i <<< z)) [])
        (pile leaf join z 0 (i <<< z) n) := by
      have h := Steady.rounds (P := fun _ => P) (n := n)
        (w := fun j => pile leaf join z 0 (i <<< z) j)
        fun j hj => (hround j (by omega)).mono (fun _ hs => hs) hQ
      rwa [pile_zero] at h
    rw [hn, countUpM]
    exact hmost.bind (hround n (by omega))
  unfold treeHash
  refine hloop.bind ?_
  have hroot : (i <<< z) / 2 ^ z = i := by
    rw [Nat.shiftLeft_eq, Nat.mul_div_cancel _ (Nat.two_pow_pos z)]
  rw [pile_full, hroot, Nat.zero_add]
  exact Steady.returned _

theorem recursiveNode_steady {P Q : σ → Prop} {leaf : Nat → α} {join : Nat → Nat → α → α → α}
    {leafM : Nat → StateT σ Option α} {joinM : Nat → Nat → α → α → StateT σ Option α}
    (hQ : ∀ s, Q s → P s) (hleaf : ∀ i, Steady P Q (leafM i) (leaf i))
    (hjoin : ∀ k i l r, Steady Q Q (joinM k i l r) (join k i l r)) (i z : Nat) :
    Steady P Q (recursiveNode leafM joinM z i) (node leaf join z i) := by
  induction z generalizing i with
  | zero => exact hleaf i
  | succ z ih =>
    refine (ih (2 * i)).bind ?_
    refine ((ih (2 * i + 1)).mono hQ fun _ hs => hs).bind ?_
    exact hjoin _ _ _ _

end LiberaCrypt.TreeHash
