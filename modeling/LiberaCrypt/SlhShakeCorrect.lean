import LiberaCrypt.SlhShake

namespace LiberaCrypt.SlhShakeCorrect

open LiberaCrypt.BlockBuffer LiberaCrypt.CountedLoop LiberaCrypt.Endian LiberaCrypt.MonadicLoop
open LiberaCrypt.SlhDsa LiberaCrypt.SlhShake LiberaCrypt.SlhTrees

section Copies

variable {α : Type} {block front back xs ys : List α}

theorem copyAt_append (front back xs : List α) :
    copyAt (front ++ back) front.length xs = front ++ xs ++ back.drop xs.length := by
  rw [copyAt, List.take_left, List.drop_append]
  simp

theorem copyAt_copyAt {offset : Nat} (h : offset ≤ block.length) (xs ys : List α) :
    copyAt (copyAt block offset xs) (offset + xs.length) ys = copyAt block offset (xs ++ ys) := by
  have hfront : (block.take offset ++ xs).length = offset + xs.length := by
    rw [List.length_append, List.length_take, Nat.min_eq_left h]
  rw [copyAt, copyAt, copyAt, ← hfront, List.take_left, List.drop_append, List.drop_drop]
  simp [Nat.add_assoc, Nat.min_eq_left h]

end Copies

section Sponge

variable {f : Permutation} {data : List UInt8}

theorem sha3Update_append (c : Sha3Var) (xs ys : List UInt8) :
    sha3Update f (sha3Update f c xs) ys = sha3Update f c (xs ++ ys) := by
  rw [sha3Update, sha3Update, sha3Update, List.foldl_append]

theorem sha3Update_short (h : data.length < 136) : sha3Update f (sha3Init 32) data =
    ⟨data ++ List.replicate (200 - data.length) 0, data.length, 136, 32⟩ := by
  induction data using List.reverseRecOn with
  | nil => rfl
  | append_singleton xs x ih =>
    rw [List.length_append, List.length_singleton] at h
    have hzeros : 200 - xs.length = 200 - (xs.length + 1) + 1 := by omega
    have hroom : ¬ 136 ≤ xs.length + 1 := by omega
    have hbyte : xorByte (xs ++ List.replicate (200 - xs.length) 0) xs.length x =
        xs ++ [x] ++ List.replicate (200 - (xs.length + 1)) 0 := by
      rw [xorByte, copyAt_append, List.getD_append_right _ _ _ _ (Nat.le_refl _), Nat.sub_self,
        hzeros, List.replicate_succ]
      simp
    rw [← sha3Update_append, ih (by omega), sha3Update, List.foldl_cons, List.foldl_nil,
      sha3UpdateByte, hbyte, List.length_append, List.length_singleton]
    exact if_neg hroom

/-- A block of the sponge that is the last one, and the part that is never written. -/
def lastBlock (data : List UInt8) : List UInt8 :=
  data ++ 0x1F :: List.replicate (134 - data.length) 0 ++ 0x80 :: List.replicate 64 0

theorem shakePad_short (h : data.length < 135) :
    shakePad f ⟨data ++ List.replicate (200 - data.length) 0, data.length, 136, 32⟩ =
      ⟨f.run (lastBlock data), 0, 136, 0⟩ := by
  have hzeros : 200 - data.length = 134 - data.length + 65 + 1 := by omega
  have hfirst : xorByte (data ++ List.replicate (200 - data.length) 0) data.length 0x1F =
      (data ++ 0x1F :: List.replicate (134 - data.length) 0) ++ 0 :: List.replicate 64 0 := by
    rw [xorByte, copyAt_append, List.getD_append_right _ _ _ _ (Nat.le_refl _), Nat.sub_self,
      hzeros, List.replicate_succ, List.length_singleton, List.drop_succ_cons, List.drop_zero,
      List.replicate_add]
    simp [List.replicate_succ]
  have hlength : (data ++ 0x1F :: List.replicate (134 - data.length) 0).length = 136 - 1 := by
    simp only [List.length_append, List.length_cons, List.length_replicate]
    omega
  have hlast : xorByte ((data ++ 0x1F :: List.replicate (134 - data.length) 0) ++
      0 :: List.replicate 64 0) (136 - 1) 0x80 = lastBlock data := by
    rw [xorByte, ← hlength, copyAt_append, List.getD_append_right _ _ _ _ (Nat.le_refl _),
      Nat.sub_self]
    simp [lastBlock]
  unfold shakePad
  dsimp only
  rw [hfirst, hlast]

theorem shakeOutLoop_short (st : List UInt8) (hst : st.length = 200) {mdSz n pt : Nat}
    (h : pt + n ≤ 136) : shakeOutLoop f n ⟨st, pt, 136, mdSz⟩ = (st.drop pt).take n := by
  induction n generalizing pt with
  | zero => rfl
  | succ n ih =>
    have hroom : ¬ 136 ≤ pt := by omega
    have hlt : pt < st.length := by omega
    have hbyte : st.getD pt 0 = st[pt] := List.getD_eq_getElem _ _ hlt
    have hrest := @ih (pt + 1) (by omega)
    rw [List.drop_eq_getElem_cons hlt, List.take_succ_cons, ← hrest, ← hbyte, shakeOutLoop]
    simp [hroom]

theorem shakeOut_length (c : Sha3Var) (n : Nat) : (shakeOut f c n).length = n := by
  have hloop : ∀ n c, (shakeOutLoop f n c).length = n := by
    intro n
    induction n with
    | zero => exact fun _ => rfl
    | succ n ih => exact fun c => congrArg Nat.succ (ih _)
  exact hloop n _

theorem shake256_short (hdata : data.length < 135) {n : Nat} (hn : n ≤ 136) :
    shake256 f data n = (f.run (lastBlock data)).take n := by
  rw [shake256, sha3Update_short (by omega), shakeOut, if_pos (show (32 : Nat) ≠ 0 by decide),
    shakePad_short hdata, shakeOutLoop_short _ (f.run_length _) (by omega), List.drop_zero]

end Sponge

section Block

variable {f : Permutation} {n : Nat} {var : SlhVar} {adrs : Adrs} {ks node : List UInt8}

theorem adrsBytes_length (s : Adrs) : (adrsBytes s).length = 32 := rfl

theorem storeWord_zeros {p : Nat} (hp : 8 * p ≤ ks.length) (m : Nat) :
    countUp m (fun k ks => storeWord ks (p + k) 0) ks =
      copyAt ks (8 * p) (List.replicate (8 * m) 0) := by
  induction m with
  | zero => simp [copyAt]
  | succ m ih =>
    have hnext : 8 * (p + m) = 8 * p + (List.replicate (8 * m) (0 : UInt8)).length := by
      rw [List.length_replicate, Nat.mul_add]
    have hword : cryptoStore64Le 0 = List.replicate 8 0 := by decide
    rw [countUp_succ, ih, storeWord, hnext, copyAt_copyAt hp, hword, ← List.replicate_add]
    rfl

theorem padding_written {front back : List UInt8} {l : Nat} (hfront : front.length = 8 * l)
    (hl : l ≤ 15) (hlength : (front ++ back).length = 200) :
    countUp (25 - 17) (fun k ks => storeWord ks (17 + k) 0)
      (storeWord (countUp (17 - 1 - (l + 1)) (fun k ks => storeWord ks (l + 1 + k) 0)
        (storeWord (front ++ back) l 0x1F)) (17 - 1) ((1 : UInt64) <<< 63)) = lastBlock front := by
  generalize hblock : front ++ back = block at hlength
  let first := cryptoStore64Le 0x1F
  let zeros : List UInt8 := List.replicate (8 * (17 - 1 - (l + 1))) 0
  let last := cryptoStore64Le ((1 : UInt64) <<< 63)
  let rest : List UInt8 := List.replicate (8 * (25 - 17)) 0
  have hfirstlen : first.length = 8 := rfl
  have hlastlen : last.length = 8 := rfl
  have hzeroslen : zeros.length = 8 * (17 - 1 - (l + 1)) := List.length_replicate ..
  have hrestlen : rest.length = 64 := rfl
  have hmark : storeWord block l 0x1F = copyAt block front.length first := by
    rw [storeWord, hfront]
  have hzeros : countUp (17 - 1 - (l + 1)) (fun k ks => storeWord ks (l + 1 + k) 0)
      (copyAt block front.length first) = copyAt block front.length (first ++ zeros) := by
    have hoffset : 8 * (l + 1) = front.length + first.length := by omega
    rw [storeWord_zeros (by rw [copyAt_length (by omega)]; omega), hoffset,
      copyAt_copyAt (by omega)]
  have hend : storeWord (copyAt block front.length (first ++ zeros)) (17 - 1)
      ((1 : UInt64) <<< 63) = copyAt block front.length (first ++ zeros ++ last) := by
    have hoffset : 8 * (17 - 1) = front.length + (first ++ zeros).length := by
      rw [List.length_append]
      omega
    rw [storeWord, hoffset, copyAt_copyAt (by omega)]
  have hcapacity : countUp (25 - 17) (fun k ks => storeWord ks (17 + k) 0)
      (copyAt block front.length (first ++ zeros ++ last)) =
        copyAt block front.length (first ++ zeros ++ last ++ rest) := by
    have hall : (first ++ zeros ++ last).length = 8 + zeros.length + 8 := by
      rw [List.length_append, List.length_append, hfirstlen, hlastlen]
    have hoffset : 8 * 17 = front.length + (first ++ zeros ++ last).length := by omega
    rw [storeWord_zeros (by rw [copyAt_length (by omega)]; omega), hoffset,
      copyAt_copyAt (by omega)]
  have hpadding : front ++ (first ++ zeros ++ last ++ rest) = lastBlock front := by
    have hfirst : first = 0x1F :: List.replicate 7 0 := by decide
    have hlast : last = List.replicate 7 0 ++ [0x80] := by decide
    have hcount : 134 - front.length = 7 + 8 * (17 - 1 - (l + 1)) + 7 := by omega
    rw [lastBlock, hcount, hfirst, hlast, List.replicate_add, List.replicate_add]
    simp [zeros, rest]
  have hnone : back.drop (first ++ zeros ++ last ++ rest).length = [] := by
    apply List.drop_eq_nil_of_le
    have hback := congrArg List.length hblock
    simp only [List.length_append] at hback ⊢
    omega
  rw [hmark, hzeros, hend, hcapacity, ← hblock, copyAt_append, hnone, List.append_nil, hpadding]

theorem shakeChainBlock_eq (hn : n % 8 = 0) (hmax : n ≤ 32) (hpk : var.pkSeed.length = n)
    (hks : ks.length = 200) (hnode : (ks.drop (8 * (n / 8 + 4))).take n = node) :
    shakeChainBlock f n var adrs ks = f.run (lastBlock (var.pkSeed ++ adrsBytes adrs ++ node)) := by
  obtain ⟨w, rfl⟩ : ∃ w, n = 8 * w := ⟨n / 8, by omega⟩
  have hstart : 8 * (w + 4) = 8 * w + 32 := by omega
  rw [Nat.mul_div_cancel_left w (by decide), hstart] at hnode
  have hnodelen : node.length = 8 * w := by
    rw [← hnode, List.length_take, List.length_drop, hks]
    omega
  have hrest : ks.drop (8 * w + 32) = node ++ ks.drop (8 * w + 32 + 8 * w) := by
    rw [← hnode, ← List.drop_drop (i := 8 * w), List.take_append_drop]
  have hwritten : copyAt (copyAt ks 0 var.pkSeed) (8 * w) (adrsBytes adrs) =
      (var.pkSeed ++ adrsBytes adrs ++ node) ++ ks.drop (8 * w + 32 + 8 * w) := by
    have hseed : copyAt ks 0 var.pkSeed = var.pkSeed ++ ks.drop (8 * w) := by
      rw [copyAt, List.take_zero, List.nil_append, hpk, Nat.zero_add]
    rw [hseed, ← hpk, copyAt_append, adrsBytes_length, List.drop_drop, hpk, hrest,
      List.append_assoc _ node]
  have hfront : (var.pkSeed ++ adrsBytes adrs ++ node).length = 8 * (w + 4 + w) := by
    rw [List.length_append, List.length_append, hpk, adrsBytes_length, hnodelen]
    omega
  have hlength : (var.pkSeed ++ adrsBytes adrs ++ node ++ ks.drop (8 * w + 32 + 8 * w)).length =
      200 := by
    rw [List.length_append, hfront, List.length_drop, hks]
    omega
  unfold shakeChainBlock
  rw [Nat.mul_div_cancel_left w (by decide)]
  dsimp only
  rw [hwritten]
  exact congrArg f.run (padding_written hfront (by omega) hlength)

end Block

section Functions

variable {f : Permutation} {prm : SlhParam} {var : SlhVar} {stack : List UInt8}

def contextBytes : Option (List UInt8) → List UInt8
  | some ctx => [0, UInt8.ofNat (ctx.length &&& 0xff)] ++ ctx
  | none => []

def shakeHash (f : Permutation) (prm : SlhParam) : SlhHash prm.n where
  prf seeds s := shake256 f (seeds.pk ++ adrsBytes s ++ seeds.sk) prm.n
  f pk s x := shake256 f (pk ++ adrsBytes s ++ x) prm.n
  h pk s x y := shake256 f (pk ++ adrsBytes s ++ x ++ y) prm.n
  t pk s x := shake256 f (pk ++ adrsBytes s ++ x) prm.n
  msg pk root r m ctx := shake256 f (r ++ pk ++ root ++ contextBytes ctx ++ m) prm.m
  prf_length _ _ := shakeOut_length _ _
  f_length _ _ _ := shakeOut_length _ _
  h_length _ _ _ _ := shakeOut_length _ _
  t_length _ _ _ := shakeOut_length _ _

theorem updateContext_eq (c : Sha3Var) (ctx : Option (List UInt8)) :
    updateContext f c ctx = sha3Update f c (contextBytes ctx) := by
  cases ctx with
  | none => rfl
  | some ctx => exact sha3Update_append c _ _

theorem shakeF_apply (x : List UInt8) (s : Adrs) :
    shakeF f prm.n var x s = some ((shakeHash f prm).f var.pkSeed s x, s) := by
  simp only [shakeHash, shake256, ← sha3Update_append]
  rfl

theorem shakePrf_apply (s : Adrs) :
    shakePrf f prm.n var s = some ((shakeHash f prm).prf (seedsOf var) s, s) :=
  shakeF_apply var.skSeed s

theorem shakeH_apply (x y : List UInt8) (s : Adrs) :
    shakeH f prm.n var x y s = some ((shakeHash f prm).h var.pkSeed s x y, s) := by
  simp only [shakeHash, shake256, ← sha3Update_append]
  rfl

theorem shakeHMsg_eq (r m : List UInt8) (ctx : Option (List UInt8)) :
    shakeHMsg f var prm.m r m ctx = (shakeHash f prm).msg var.pkSeed var.pkRoot r m ctx := by
  simp only [shakeHash, shake256, ← sha3Update_append, ← updateContext_eq]
  rfl

/-- A block on the stack gives the same node as a call of SHAKE256. -/
theorem lastBlock_hash (hmax : prm.n ≤ 32) (hpk : var.pkSeed.length = prm.n) (s : Adrs)
    {node : List UInt8} (hnode : node.length = prm.n) :
    (f.run (lastBlock (var.pkSeed ++ adrsBytes s ++ node))).take prm.n =
      (shakeHash f prm).f var.pkSeed s node := by
  refine (shake256_short ?_ (by omega)).symm
  rw [List.length_append, List.length_append, hpk, adrsBytes_length, hnode]
  omega

theorem node_copied {ks node : List UInt8} {n : Nat} (hmax : n ≤ 32) (hks : ks.length = 200)
    (hnode : node.length = n) :
    ((copyAt ks (8 * (n / 8 + 4)) node).drop (8 * (n / 8 + 4))).take n = node := by
  have hfront : (ks.take (8 * (n / 8 + 4))).length = 8 * (n / 8 + 4) := by
    rw [List.length_take]
    omega
  rw [copyAt, List.append_assoc, List.drop_left' hfront, List.take_left' hnode]

/-- The node that a round finds is hashed in place, under an address of its own. -/
theorem shakeChainRound_apply (hn : prm.n % 8 = 0) (hmax : prm.n ≤ 32)
    (hpk : var.pkSeed.length = prm.n) {i j : Nat} {ks node : List UInt8} (hks : ks.length = 200)
    (hlength : node.length = prm.n) (s : Adrs)
    (hnode : if 0 < j then ks.take prm.n = node
      else (ks.drop (8 * (prm.n / 8 + 4))).take prm.n = node) :
    ∃ next, shakeChainRound f prm.n var i j ks s =
        some (next, { s with index := UInt32.ofNat (i + j) }) ∧ next.length = 200 ∧
      next.take prm.n = (shakeHash f prm).f var.pkSeed { s with index := UInt32.ofNat (i + j) }
        node := by
  let adrs : Adrs := { s with index := UInt32.ofNat (i + j) }
  refine ⟨_, rfl, f.run_length _, ?_⟩
  rw [← lastBlock_hash hmax hpk adrs hlength]
  refine congrArg _ (shakeChainBlock_eq hn hmax hpk ?_ ?_)
  · split
    · rw [copyAt_length, hks]
      rw [List.length_take]
      omega
    · exact hks
  · split
    · next hpos =>
      rw [if_pos hpos] at hnode
      rw [hnode]
      exact node_copied hmax hks hlength
    · next hfirst =>
      rwa [if_neg hfirst] at hnode

/-- The rounds of a chain hash its node in place, each with its own address. -/
theorem shakeChain_apply (hn : prm.n % 8 = 0) (hmax : prm.n ≤ 32) (hpk : var.pkSeed.length = prm.n)
    (hstack : stack.length = 200) {x : List UInt8} (hx : x.length = prm.n) (i steps : Nat)
    (s : Adrs) : ∃ index, shakeChain f prm.n var stack x i steps s =
      some ((shakeHash f prm).chain var.pkSeed s x i steps, { s with index := index }) := by
  cases steps with
  | zero => exact ⟨s.index, rfl⟩
  | succ steps =>
    have hstart : (copyAt stack (8 * (prm.n / 8 + 4)) x).length = 200 := by
      rw [copyAt_length (by omega), hstack]
    have hloop : ∀ count, ∃ ks, countUpM (count + 1) (shakeChainRound f prm.n var i)
        (copyAt stack (8 * (prm.n / 8 + 4)) x) s =
          some (ks, { s with index := UInt32.ofNat (i + count) }) ∧ ks.length = 200 ∧
        ks.take prm.n = (shakeHash f prm).chain var.pkSeed s x i (count + 1) := by
      intro count
      induction count with
      | zero => exact shakeChainRound_apply hn hmax hpk hstart hx s (node_copied hmax hstack hx)
      | succ count ih =>
        obtain ⟨ks, hrun, hks, hnode⟩ := ih
        obtain ⟨next, hnext, hlength, hhash⟩ := shakeChainRound_apply (j := count + 1) hn hmax hpk
          hks (SlhHash.chain_length _ _ _ hx i (count + 1))
          { s with index := UInt32.ofNat (i + count) }
          hnode
        refine ⟨next, ?_, hlength, hhash⟩
        rw [countUpM]
        change (countUpM (count + 1) (shakeChainRound f prm.n var i) _ s >>= fun r =>
          shakeChainRound f prm.n var i (count + 1) r.1 r.2) = _
        rw [hrun]
        exact hnext
    obtain ⟨ks, hrun, -, hnode⟩ := hloop steps
    refine ⟨UInt32.ofNat (i + steps), ?_⟩
    rw [shakeChain, if_neg (Nat.succ_ne_zero steps), ← hnode]
    change (countUpM (steps + 1) (shakeChainRound f prm.n var i) _ s >>= fun r =>
      some (r.1.take prm.n, r.2)) = _
    rw [hrun]
    rfl

theorem shakeWotsChain_apply (hn : prm.n % 8 = 0) (hmax : prm.n ≤ 32)
    (hpk : var.pkSeed.length = prm.n) (hstack : stack.length = 200) (steps : Nat) (s : Adrs) :
    ∃ index, shakeWotsChain f prm.n var stack steps s =
      some ((shakeHash f prm).chain var.pkSeed { s with type := adrsWotsHash }
          ((shakeHash f prm).prf (seedsOf var) { s with type := adrsWotsPrf, index := 0 }) 0 steps,
        { s with type := adrsWotsHash, index := index }) := by
  obtain ⟨index, hrun⟩ := shakeChain_apply (f := f) hn hmax hpk hstack
    ((shakeHash f prm).prf_length (seedsOf var) { s with type := adrsWotsPrf, index := 0 }) 0 steps
    { s with type := adrsWotsHash, index := 0 }
  refine ⟨index, ?_⟩
  change (shakePrf f prm.n var { s with type := adrsWotsPrf, index := 0 } >>= fun r =>
    shakeChain f prm.n var stack r.1 0 steps { r.2 with type := adrsWotsHash }) = _
  rw [shakePrf_apply]
  exact hrun

theorem shakeFunctions_computes (hn : prm.n % 8 = 0) (hmax : prm.n ≤ 32)
    (hstack : stack.length = 200) (hpk : var.pkSeed.length = prm.n) :
    Computes (shakeFunctions f stack prm) (shakeHash f prm) var where
  hF := shakeF_apply
  hH := shakeH_apply
  hT := shakeF_apply
  chain _ i steps s hx := shakeChain_apply hn hmax hpk hstack hx i steps s
  wotsChain := shakeWotsChain_apply hn hmax hpk hstack
  forsSecret := forsHashOf_secret shakePrf_apply
  forsPublic := forsHashOf_public shakePrf_apply shakeF_apply
  hMsg := shakeHMsg_eq
  prfMsg_length _ _ _ := shakeOut_length _ _

end Functions

end LiberaCrypt.SlhShakeCorrect
