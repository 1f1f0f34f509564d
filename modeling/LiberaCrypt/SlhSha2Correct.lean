import LiberaCrypt.SlhSha2
import LiberaCrypt.SlhShakeCorrect

namespace LiberaCrypt.SlhSha2Correct

open LiberaCrypt.BlockBuffer LiberaCrypt.CountedLoop LiberaCrypt.Endian LiberaCrypt.SlhDsa
open LiberaCrypt.SlhSha2 LiberaCrypt.SlhShake LiberaCrypt.SlhShakeCorrect LiberaCrypt.SlhTrees

section Block

variable {compress : Compression 32} {stack data : List UInt8} {v : Sha2Var}

theorem copyAt_append_right {α : Type} (front back xs : List α) (k : Nat) :
    copyAt (front ++ back) (front.length + k) xs = front ++ copyAt back k xs := by
  rw [copyAt, copyAt, List.take_length_add_append, Nat.add_assoc, List.drop_length_add_append,
    List.append_assoc, List.append_assoc, List.append_assoc]

theorem lengthLoop_append (front : List UInt8) {rounds i : Nat} (h : rounds ≤ i) (x : UInt64)
    (back : List UInt8) : lengthLoop rounds x (front.length + i) (front ++ back) =
      front ++ lengthLoop rounds x i back := by
  induction rounds generalizing x i back with
  | zero => rfl
  | succ rounds ih =>
    unfold lengthLoop
    split
    · have hlast : front.length + i - 1 = front.length + (i - 1) := by omega
      rw [hlast, copyAt_append_right, ih (by omega)]
    · rfl

theorem lengthLoop_length {rounds i : Nat} (h : rounds ≤ i) (x : UInt64) {mp : List UInt8}
    (hi : i ≤ mp.length) : (lengthLoop rounds x i mp).length = mp.length := by
  induction rounds generalizing x i mp with
  | zero => rfl
  | succ rounds ih =>
    have hcopy : (copyAt mp (i - 1) [x.toUInt8]).length = mp.length := by
      apply copyAt_length
      rw [List.length_singleton]
      omega
    unfold lengthLoop
    split
    · rw [ih (by omega) _ (by omega), hcopy]
    · rfl

theorem sha2Update_fills (sha : Sha2) (v : Sha2Var) (m : List UInt8) (hpos : 0 < v.i)
    (h : v.i + m.length = sha.blockSz) :
    (sha2Update sha v m).i = 0 ∧ (sha2Update sha v m).len = v.len + m.length := by
  have hmore : ¬ m.length < sha.blockSz - v.i := by omega
  have hnone : m.drop (sha.blockSz - v.i) = [] := List.drop_eq_nil_of_le (by omega)
  unfold sha2Update sha2Fill
  dsimp only
  rw [if_neg hmore, if_pos hpos]
  dsimp only
  rw [hnone, List.length_nil, Nat.zero_div]
  exact ⟨rfl, rfl⟩

def blockTail (size len : Nat) : List UInt8 :=
  lengthLoop 8 (UInt64.ofNat len <<< 3) (64 - size) (0x80 :: List.replicate (63 - size) 0)

theorem blockTail_length {size : Nat} (h : size ≤ 55) (len : Nat) :
    (blockTail size len).length = 64 - size := by
  have hlength : (0x80 :: List.replicate (63 - size) (0 : UInt8)).length = 64 - size := by
    rw [List.length_cons, List.length_replicate]
    omega
  rw [blockTail, lengthLoop_length (by omega) _ hlength.ge, hlength]

theorem sha2Update_short (sha : Sha2) (v : Sha2Var) (m : List UInt8)
    (h : v.i + m.length < sha.blockSz) :
    sha2Update sha v m = ⟨v.h, copyAt v.mp v.i m, v.i + m.length, v.len + m.length⟩ :=
  if_pos (show m.length < sha.blockSz - v.i by omega)

theorem sha2FinalPad_short (hstack : stack.length = 64) (h : data.length ≤ 55) (len : Nat)
    (state : List UInt8) :
    (sha2FinalPad (sha2_256 compress stack) ⟨state, copyAt stack 0 data, data.length, len⟩).mp =
        data ++ blockTail data.length len ∧
      (sha2FinalPad (sha2_256 compress stack) ⟨state, copyAt stack 0 data, data.length, len⟩).h =
        state := by
  have hspill : ¬ (sha2_256 compress stack).padAt < data.length + 1 := by
    change ¬ 56 < _
    omega
  have hmark : copyAt (copyAt stack 0 data) data.length [0x80] =
      copyAt stack 0 (data ++ [0x80]) := by
    have hnext := @copyAt_copyAt _ stack 0 (Nat.zero_le _) data [0x80]
    rwa [Nat.zero_add] at hnext
  have hfill : fillAt (copyAt stack 0 (data ++ [0x80])) (data.length + 1) 64 0 =
      data ++ 0x80 :: List.replicate (63 - data.length) 0 := by
    have hnext := @copyAt_copyAt _ stack 0 (Nat.zero_le _) (data ++ [0x80])
      (List.replicate (64 - (data.length + 1)) 0)
    rw [Nat.zero_add, List.length_append, List.length_singleton] at hnext
    have hall : stack.drop (0 + (data ++ [0x80] ++
        List.replicate (64 - (data.length + 1)) (0 : UInt8)).length) = [] := by
      apply List.drop_eq_nil_of_le
      simp only [List.length_append, List.length_singleton, List.length_replicate]
      omega
    rw [fillAt, hnext, copyAt, hall, List.take_zero, List.nil_append, List.append_nil,
      List.append_assoc, show 63 - data.length = 64 - (data.length + 1) by omega]
    rfl
  have hlength := lengthLoop_append data (show 8 ≤ 64 - data.length by omega)
    (UInt64.ofNat len <<< 3) (0x80 :: List.replicate (63 - data.length) 0)
  rw [Nat.add_sub_cancel' (show data.length ≤ 64 by omega)] at hlength
  unfold sha2FinalPad
  dsimp only
  rw [hmark, if_neg hspill]
  refine ⟨?_, rfl⟩
  exact (congrArg _ hfill).trans hlength

end Block

section Chain

variable {compress : Compression 32} {stack pk : List UInt8} {n : Nat} {var : SlhVar}

def midstate (compress : Compression 32) (stack : List UInt8) (n : Nat) (pk : List UInt8) :
    List UInt8 := (sha2PkSeed (sha2_256 compress stack) n pk).h

theorem sha2PkSeed_copy (hpos : 0 < n) (hn : n ≤ 32) (hpk : pk.length = n) :
    sha2Copy (sha2_256 compress stack) (sha2PkSeed (sha2_256 compress stack) n pk) =
      ⟨midstate compress stack n pk, copyAt stack 0 [], 0, 64⟩ := by
  have hfirst : sha2Update (sha2_256 compress stack) (sha2Init (sha2_256 compress stack)) pk =
      ⟨(sha2_256 compress stack).h0, copyAt stack 0 pk, n, n⟩ := by
    have hshort := sha2Update_short (sha2_256 compress stack)
      (sha2Init (sha2_256 compress stack)) pk (by change 0 + _ < 64; omega)
    rw [hshort]
    simp [sha2Init, hpk]
    rfl
  have hzeros : (List.replicate ((sha2_256 compress stack).blockSz - n) (0 : UInt8)).length =
      64 - n := List.length_replicate ..
  obtain ⟨hwaiting, hlen⟩ := sha2Update_fills (sha2_256 compress stack)
    ⟨(sha2_256 compress stack).h0, copyAt stack 0 pk, n, n⟩
    (List.replicate ((sha2_256 compress stack).blockSz - n) 0) hpos
    (by rw [hzeros]; change n + (64 - n) = 64; omega)
  have hblock : n + (64 - n) = 64 := by omega
  rw [hzeros] at hlen
  unfold midstate sha2PkSeed sha2Copy
  rw [hfirst, hwaiting, hlen, hblock, List.take_zero]
  rfl

/-- The seed, the compressed address and a node leave one block to be compressed. -/
theorem sha2Node_eq (hpos : 0 < n) (hn : n ≤ 32) (hpk : pk.length = n) (s : Adrs)
    {node : List UInt8} (hnode : node.length = n) :
    sha2Update (sha2_256 compress stack) (sha2Update (sha2_256 compress stack)
      (sha2Copy (sha2_256 compress stack) (sha2PkSeed (sha2_256 compress stack) n pk)) (adrsc22 s))
        node = ⟨midstate compress stack n pk, copyAt stack 0 (adrsc22 s ++ node),
          (adrsc22 s ++ node).length, 86 + n⟩ := by
  have hadrs : (adrsc22 s).length = 22 := rfl
  have hfirst := @copyAt_copyAt _ stack 0 (Nat.zero_le _) [] (adrsc22 s)
  have hboth := @copyAt_copyAt _ stack 0 (Nat.zero_le _) (adrsc22 s) node
  rw [List.length_nil, Nat.add_zero, List.nil_append] at hfirst
  rw [hadrs, Nat.zero_add] at hboth
  have haddress := sha2Update_short (sha2_256 compress stack)
    ⟨midstate compress stack n pk, copyAt stack 0 [], 0, 64⟩ (adrsc22 s)
    (by change 0 + 22 < 64; decide)
  rw [sha2PkSeed_copy hpos hn hpk, haddress,
    sha2Update_short _ _ _ (by change 0 + 22 + _ < 64; omega)]
  dsimp only
  rw [hfirst, hadrs, Nat.zero_add, hboth, List.length_append, hadrs, hnode]

def nodeBlock (n : Nat) (s : Adrs) (node : List UInt8) : List UInt8 :=
  adrsc22 s ++ node ++ blockTail (22 + n) (86 + n)

theorem sha2F_value (hpos : 0 < n) (hn : n ≤ 32) (hstack : stack.length = 64) (hpk : pk.length = n)
    (s : Adrs) {node : List UInt8} (hnode : node.length = n) :
    sha2FinalLen (sha2_256 compress stack) (sha2Update (sha2_256 compress stack)
      (sha2Update (sha2_256 compress stack) (sha2Copy (sha2_256 compress stack)
        (sha2PkSeed (sha2_256 compress stack) n pk)) (adrsc22 s)) node) n =
      (compress.run (midstate compress stack n pk) (nodeBlock n s node)).take n := by
  have hsize : (adrsc22 s ++ node).length = 22 + n := by
    rw [List.length_append, hnode]
    rfl
  obtain ⟨hmp, hh⟩ := @sha2FinalPad_short compress stack (adrsc22 s ++ node) hstack
    (by omega) (86 + n) (midstate compress stack n pk)
  rw [sha2Node_eq hpos hn hpk s hnode, sha2FinalLen, sha2Compress, hmp, hh, hsize]
  rfl

theorem adrsc22_index (s : Adrs) (k : Nat) : adrsc22 { s with index := UInt32.ofNat k } =
    (adrsc22 s).take 18 ++ bigEndian 4 k := by
  have hstore : cryptoStore32Be (UInt32.ofNat k) = bigEndian 4 k := by
    rw [cryptoStore32Be_eq, UInt32.toNat_ofNat', ← bigEndian_mod 4 k]
    rfl
  rw [← hstore]
  rfl

/-- The parts of a block that a round writes: the address but for its index, the index, the node
and the padding. -/
theorem round_block {mp node : List UInt8} {s : Adrs} {k : Nat} (hn : n ≤ 32) (hmp : mp.length = 64)
    (hnode : node.length = n) {tail : List UInt8} (htail : tail.length = 42 - n) :
    copyAt (copyAt (copyAt (copyAt mp 22 node) 18 (bigEndian 4 k)) 0 ((adrsc22 s).take 18)) (22 + n)
      tail = adrsc22 { s with index := UInt32.ofNat k } ++ node ++ tail := by
  have hsplit : mp = mp.take 18 ++ ((mp.drop 18).take 4 ++ mp.drop 22) := by
    rw [← List.drop_drop (i := 4) (j := 18), List.take_append_drop, List.take_append_drop]
  have hfirst : (mp.take 18).length = 18 := by
    rw [List.length_take, hmp]
    rfl
  have hsecond : ((mp.drop 18).take 4).length = 4 := by
    rw [List.length_take, List.length_drop, hmp]
    rfl
  have hnodeAt : copyAt mp 22 node =
      mp.take 18 ++ ((mp.drop 18).take 4 ++ (node ++ mp.drop (22 + n))) := by
    have hcopy := copyAt_append (mp.take 18 ++ (mp.drop 18).take 4) (mp.drop 22) node
    rw [List.length_append, hfirst, hsecond, List.append_assoc, ← hsplit, hnode, List.drop_drop,
      List.append_assoc, List.append_assoc] at hcopy
    exact hcopy
  have hindexAt : copyAt (copyAt mp 22 node) 18 (bigEndian 4 k) =
      mp.take 18 ++ (bigEndian 4 k ++ (node ++ mp.drop (22 + n))) := by
    have hcopy := copyAt_append (mp.take 18) ((mp.drop 18).take 4 ++ (node ++ mp.drop (22 + n)))
      (bigEndian 4 k)
    rwa [hfirst, bigEndian_length, List.drop_left' hsecond, ← hnodeAt, List.append_assoc] at hcopy
  have haddress : copyAt (copyAt (copyAt mp 22 node) 18 (bigEndian 4 k)) 0 ((adrsc22 s).take 18) =
      (adrsc22 { s with index := UInt32.ofNat k } ++ node) ++ mp.drop (22 + n) := by
    have hcopy := copyAt_append [] (mp.take 18 ++ (bigEndian 4 k ++ (node ++ mp.drop (22 + n))))
      ((adrsc22 s).take 18)
    have hsize : ((adrsc22 s).take 18).length = 18 := rfl
    rw [List.nil_append, List.nil_append, hsize, List.drop_left' hfirst, ← hindexAt] at hcopy
    rw [adrsc22_index, List.append_assoc, List.append_assoc]
    exact hcopy
  have hfront : (adrsc22 { s with index := UInt32.ofNat k } ++ node).length = 22 + n := by
    rw [List.length_append, hnode]
    rfl
  have hnone : (mp.drop (22 + n)).drop tail.length = [] := by
    apply List.drop_eq_nil_of_le
    rw [List.length_drop]
    omega
  have hlast := copyAt_append (adrsc22 { s with index := UInt32.ofNat k } ++ node)
    (mp.drop (22 + n)) tail
  rw [hfront, hnone, List.append_nil] at hlast
  rw [haddress, hlast]

theorem sha2ChainRound_eq {v sp : Sha2Var} {s : Adrs} {x : List UInt8} {i j : Nat} (hn : n ≤ 32)
    (hx : x.length = n) (hv : v.mp = nodeBlock n s x) (hsp : sp.mp.length = 64)
    (hnode : (sp.h.take n).length = n) :
    (sha2ChainRound (sha2_256 compress stack) n v i j sp).h = compress.run v.h
        (nodeBlock n { s with index := UInt32.ofNat (i + j) } (sp.h.take n)) ∧
      (sha2ChainRound (sha2_256 compress stack) n v i j sp).mp.length = 64 := by
  have htail := @blockTail_length (22 + n) (by omega) (86 + n)
  rw [show 64 - (22 + n) = 42 - n by omega] at htail
  have haddress : v.mp.take 18 = (adrsc22 s).take 18 := by
    rw [hv, nodeBlock, List.append_assoc]
    exact List.take_append_of_le_length (by change 18 ≤ 22; decide)
  have hpadding : (v.mp.drop (22 + n)).take (64 - 22 - n) = blockTail (22 + n) (86 + n) := by
    have hfront : (adrsc22 s ++ x).length = 22 + n := by
      rw [List.length_append, hx]
      rfl
    rw [hv, nodeBlock, List.drop_left' hfront, List.take_of_length_le (by omega)]
  have hblock := @round_block n sp.mp (sp.h.take n) s (i + j) hn hsp hnode _ htail
  have hround : copyAt (copyAt (copyAt (copyAt sp.mp 22 (sp.h.take n)) 18 (bigEndian 4 (i + j))) 0
      (v.mp.take 18)) (22 + n) ((v.mp.drop (22 + n)).take (64 - 22 - n)) =
        nodeBlock n { s with index := UInt32.ofNat (i + j) } (sp.h.take n) := by
    rw [haddress, hpadding, hblock, nodeBlock]
  refine ⟨congrArg (compress.run v.h) hround, ?_⟩
  refine (congrArg List.length hround).trans ?_
  rw [nodeBlock, List.length_append, List.length_append, hnode, htail]
  change 22 + n + (42 - n) = 64
  omega

/-- The hashes of a chain, on the state and the block in `sp`. -/
theorem chainRounds_eq (hpos : 0 < n) (hn : n ≤ 32) {v : Sha2Var} {s : Adrs} {x : List UInt8}
    {i : Nat} (hx : x.length = n) (hv : v.mp = nodeBlock n { s with index := UInt32.ofNat i } x)
    (count : Nat) :
    let sp := countUp count (fun j sp => sha2ChainRound (sha2_256 compress stack) n v i (j + 1) sp)
      (sha2Compress (sha2_256 compress stack) v)
    sp.h.take n = countUp (count + 1) (fun j node => (compress.run v.h
      (nodeBlock n { s with index := UInt32.ofNat (i + j) } node)).take n) x ∧
        sp.mp.length = 64 ∧ sp.h.length = 32 := by
  induction count with
  | zero =>
    refine ⟨congrArg (fun block => (compress.run v.h block).take n) hv, ?_, compress.run_length _ _⟩
    have htail := @blockTail_length (22 + n) (by omega) (86 + n)
    refine (congrArg List.length hv).trans ?_
    rw [nodeBlock, List.length_append, List.length_append, hx, htail]
    change 22 + n + (64 - (22 + n)) = 64
    omega
  | succ count ih =>
    obtain ⟨hnode, hmp, hh⟩ := ih
    have hlength : ((countUp count
        (fun j sp => sha2ChainRound (sha2_256 compress stack) n v i (j + 1) sp)
        (sha2Compress (sha2_256 compress stack) v)).h.take n).length = n := by
      rw [List.length_take, hh]
      omega
    obtain ⟨hround, hblock⟩ := @sha2ChainRound_eq compress stack n v _
      { s with index := UInt32.ofNat i } x i (count + 1) hn hx hv hmp hlength
    rw [hnode] at hround
    refine ⟨(congrArg (List.take n) hround).trans rfl, hblock, ?_⟩
    exact (congrArg List.length hround).trans (compress.run_length _ _)

end Chain

section Functions

variable {prm : SlhParam} {var : SlhVar} {compress : Compression 32} {stack : List UInt8}
  {wide : Sha2} {hn : prm.n ≤ 32} {hwide : prm.n ≤ wide.size}

/-- The hash of a seed, a compressed address and some input, cut to `n` bytes. -/
def addressedHash (sha : Sha2) (n : Nat) (pk : List UInt8) (s : Adrs) (input : List (List UInt8)) :
    List UInt8 :=
  let v := sha2Update sha (sha2Copy sha (sha2PkSeed sha n pk)) (adrsc22 s)
  sha2FinalLen sha (input.foldl (sha2Update sha) v) n

theorem addressedHash_length {sha : Sha2} {n : Nat} (h : n ≤ sha.size) (pk : List UInt8) (s : Adrs)
    (input : List (List UInt8)) : (addressedHash sha n pk s input).length = n := by
  unfold addressedHash sha2FinalLen sha2Compress
  rw [List.length_take, sha.compress.run_length, Nat.min_eq_left h]

def sha2Hash (compress : Compression 32) (stack : List UInt8) (wide : Sha2) (prm : SlhParam)
    (hn : prm.n ≤ 32) (hwide : prm.n ≤ wide.size) : SlhHash prm.n where
  prf seeds s := addressedHash (sha2_256 compress stack) prm.n seeds.pk s [seeds.sk]
  f pk s x := addressedHash (sha2_256 compress stack) prm.n pk s [x]
  h pk s x y := addressedHash wide prm.n pk s [x, y]
  t pk s x := addressedHash wide prm.n pk s [x]
  msg pk root r m ctx := sha2HMsg wide ⟨[], [], pk, root⟩ prm.m r m ctx
  prf_length _ _ := addressedHash_length hn _ _ _
  f_length _ _ _ := addressedHash_length hn _ _ _
  h_length _ _ _ _ := addressedHash_length hwide _ _ _
  t_length _ _ _ := addressedHash_length hwide _ _ _

theorem sha2Hash_f (hpos : 0 < prm.n) (hstack : stack.length = 64) {pk : List UInt8}
    (hpk : pk.length = prm.n) (s : Adrs) {node : List UInt8} (hnode : node.length = prm.n) :
    (sha2Hash compress stack wide prm hn hwide).f pk s node =
      (compress.run (midstate compress stack prm.n pk) (nodeBlock prm.n s node)).take prm.n :=
  sha2F_value hpos hn hstack hpk s hnode

theorem chain_blocks (hpos : 0 < prm.n) (hstack : stack.length = 64) {pk : List UInt8}
    (hpk : pk.length = prm.n) {x : List UInt8} (hx : x.length = prm.n) (s : Adrs) (i steps : Nat) :
    (sha2Hash compress stack wide prm hn hwide).chain pk s x i steps = countUp steps
      (fun j node => (compress.run (midstate compress stack prm.n pk)
        (nodeBlock prm.n { s with index := UInt32.ofNat (i + j) } node)).take prm.n) x := by
  induction steps with
  | zero => rw [SlhHash.chain, countUp_zero, countUp_zero]
  | succ steps ih =>
    have hlength := (sha2Hash compress stack wide prm hn hwide).chain_length pk s hx i steps
    rw [countUp_succ, ← ih, ← sha2Hash_f hpos hstack hpk _ hlength]
    rfl

/-- The hash of the seed, the address and a node, before it is finished. -/
def nodeHashed (sha : Sha2) (n : Nat) (pk : List UInt8) (s : Adrs) (x : List UInt8) : Sha2Var :=
  sha2Update sha (sha2Update sha (sha2Copy sha (sha2PkSeed sha n pk)) (adrsc22 s)) x

theorem sha2Chain_one (sha : Sha2) (n : Nat) (x : List UInt8) (i : Nat) (s : Adrs) :
    sha2Chain sha n var x i 1 s = some (addressedHash sha n var.pkSeed
      { s with index := UInt32.ofNat (i + 0) } [x], { s with index := UInt32.ofNat i }) := rfl

theorem sha2Chain_rounds (sha : Sha2) (n : Nat) (x : List UInt8) (i count : Nat) (s : Adrs) :
    sha2Chain sha n var x i (count + 2) s =
      let adrs : Adrs := { s with index := UInt32.ofNat i }
      let v := sha2FinalPad sha (nodeHashed sha n var.pkSeed adrs x)
      some ((countUp (count + 1) (fun j sp => sha2ChainRound sha n v i (j + 1) sp)
        (sha2Compress sha v)).h.take n, adrs) := by
  unfold sha2Chain
  rw [if_neg (by omega)]
  have hmore : ¬ count + 2 = 1 := by omega
  simp only [if_neg hmore]
  rfl

/-- The rounds of a chain, which keep the first block, are the hashes one after the other. -/
theorem sha2Chain_apply (hpos : 0 < prm.n) (hstack : stack.length = 64)
    (hpk : var.pkSeed.length = prm.n) {x : List UInt8} (hx : x.length = prm.n) (i steps : Nat)
    (s : Adrs) : ∃ index, sha2Chain (sha2_256 compress stack) prm.n var x i steps s =
      some ((sha2Hash compress stack wide prm hn hwide).chain var.pkSeed s x i steps,
        { s with index := index }) := by
  match steps with
  | 0 => exact ⟨s.index, rfl⟩
  | 1 => exact ⟨UInt32.ofNat i, sha2Chain_one (sha2_256 compress stack) prm.n x i s⟩
  | count + 2 =>
    refine ⟨UInt32.ofNat i, ?_⟩
    let adrs : Adrs := { s with index := UInt32.ofNat i }
    have hsize : (adrsc22 adrs ++ x).length = 22 + prm.n := by
      rw [List.length_append, hx]
      rfl
    have hnode := @sha2Node_eq compress stack var.pkSeed prm.n hpos hn hpk adrs x hx
    obtain ⟨hmp, hh⟩ := @sha2FinalPad_short compress stack (adrsc22 adrs ++ x) hstack (by omega)
      (86 + prm.n) (midstate compress stack prm.n var.pkSeed)
    rw [← hnode] at hmp hh
    rw [hsize] at hmp
    have hrounds := (@chainRounds_eq compress stack prm.n hpos hn _ s x i hx hmp (count + 1)).1
    rw [hh, ← @chain_blocks prm compress stack wide hn hwide hpos hstack _ hpk _ hx s i] at hrounds
    rw [sha2Chain_rounds]
    exact congrArg (fun node => some (node, adrs)) hrounds

theorem sha2Tl_apply (sha : Sha2) (n : Nat) (x : List UInt8) (s : Adrs) :
    sha2Tl sha n var x s = some (addressedHash sha n var.pkSeed s [x], s) := rfl

theorem sha2H_apply (sha : Sha2) (n : Nat) (x y : List UInt8) (s : Adrs) :
    sha2H sha n var x y s = some (addressedHash sha n var.pkSeed s [x, y], s) := by
  simp only [addressedHash, List.foldl_cons, List.foldl_nil]
  rfl

theorem sha2Prf_apply (sha : Sha2) (n : Nat) (s : Adrs) :
    sha2Prf sha n var s = some (addressedHash sha n var.pkSeed s [var.skSeed], s) := rfl

theorem sha2WotsChain_apply (hpos : 0 < prm.n) (hstack : stack.length = 64)
    (hpk : var.pkSeed.length = prm.n) (steps : Nat) (s : Adrs) :
    ∃ index, sha2WotsChain (sha2_256 compress stack) prm.n var steps s =
      some ((sha2Hash compress stack wide prm hn hwide).chain var.pkSeed
          { s with type := adrsWotsHash }
          ((sha2Hash compress stack wide prm hn hwide).prf (seedsOf var)
            { s with type := adrsWotsPrf, index := 0 }) 0 steps,
        { s with type := adrsWotsHash, index := index }) := by
  obtain ⟨index, hrun⟩ := @sha2Chain_apply prm var compress stack wide hn hwide hpos hstack hpk _
    ((sha2Hash compress stack wide prm hn hwide).prf_length (seedsOf var)
      { s with type := adrsWotsPrf, index := 0 }) 0 steps
    { s with type := adrsWotsHash, index := 0 }
  refine ⟨index, ?_⟩
  change (sha2Prf (sha2_256 compress stack) prm.n var { s with type := adrsWotsPrf, index := 0 } >>=
    fun r => sha2Chain (sha2_256 compress stack) prm.n var r.1 0 steps
      { r.2 with type := adrsWotsHash, index := 0 }) = _
  rw [sha2Prf_apply]
  exact hrun

theorem sha2Functions_computes (hpos : 0 < prm.n) (hstack : stack.length = 64)
    (hpk : var.pkSeed.length = prm.n) : Computes (sha2Functions (sha2_256 compress stack) wide prm)
      (sha2Hash compress stack wide prm hn hwide) var where
  hF := sha2Tl_apply (sha2_256 compress stack) prm.n
  hH := sha2H_apply wide prm.n
  hT := sha2Tl_apply wide prm.n
  chain _ i steps s hx := sha2Chain_apply hpos hstack hpk hx i steps s
  wotsChain := sha2WotsChain_apply hpos hstack hpk
  forsSecret := forsHashOf_secret (sha2Prf_apply (sha2_256 compress stack) prm.n)
  forsPublic := forsHashOf_public (sha2Prf_apply (sha2_256 compress stack) prm.n)
    (sha2Tl_apply (sha2_256 compress stack) prm.n)
  hMsg _ _ _ := rfl
  prfMsg_length _ _ _ := by
    change (sha2FinalLen wide _ prm.n).length = _
    rw [sha2FinalLen, sha2Compress, List.length_take, wide.compress.run_length,
      Nat.min_eq_left hwide]

end Functions

end LiberaCrypt.SlhSha2Correct
