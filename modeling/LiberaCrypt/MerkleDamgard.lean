import LiberaCrypt.BlockBuffer

namespace LiberaCrypt.MerkleDamgard

open LiberaCrypt.BlockBuffer

variable {σ α : Type*}

/-- A mark, the fewest zeros that fill the last block, and the encoded length. -/
def pad (n : Nat) (mark zero : α) (encoded xs : List α) : List α :=
  xs ++ mark :: List.replicate ((n - (xs.length + 1 + encoded.length) % n) % n) zero ++ encoded

def foldPadded (compress : σ → List α → σ) (n : Nat) (mark zero : α) (encoded : List α) (s : σ)
    (xs : List α) : σ :=
  foldBlocks compress n s (pad n mark zero encoded xs)

theorem zeros_eq {n a z m : Nat} (hz : z < n) (h : a + z = n * m) : (n - a % n) % n = z := by
  rcases Nat.eq_zero_or_pos z with rfl | hpos
  · rw [Nat.add_zero] at h
    rw [h, Nat.mul_mod_right, Nat.sub_zero, Nat.mod_self]
  · obtain ⟨j, rfl⟩ := Nat.exists_eq_succ_of_ne_zero (fun hm : m = 0 => by
      rw [hm, Nat.mul_zero] at h
      omega)
    rw [Nat.mul_succ] at h
    have ha : a = n * j + (n - z) := by omega
    rw [ha, Nat.mul_add_mod, Nat.mod_eq_of_lt (show n - z < n by omega), Nat.sub_sub_self hz.le,
      Nat.mod_eq_of_lt hz]

theorem fillAt_take (block : List α) (x : α) {first k last : Nat} (hfirst : first ≤ k)
    (hlast : k ≤ last) (hlength : last ≤ block.length) :
    (fillAt block first last x).take k = block.take first ++ List.replicate (k - first) x := by
  have htake := copyAt_take block (List.replicate (last - first) x)
    (show first ≤ block.length by omega)
  rw [List.length_replicate, Nat.add_sub_cancel' (hfirst.trans hlast)] at htake
  have hmin : min k last = k := Nat.min_eq_left hlast
  rw [fillAt, ← hmin, ← List.take_take, htake, List.take_append, List.length_take,
    Nat.min_eq_left (by omega), List.take_replicate, List.take_take,
    Nat.min_eq_right (by omega), hmin]
  congr 2
  omega

theorem fillAt_length (block : List α) (x : α) {first last : Nat} (hlast : last ≤ block.length)
    (hfirst : first ≤ last) : (fillAt block first last x).length = block.length := by
  apply copyAt_length
  rw [List.length_replicate]
  omega

section Finish

/-- The mark goes behind the waiting bytes. If the length does not fit behind it, the block is
compressed and another one is begun. -/
def finish (compress : σ → List α → σ) (n fillEnd lengthAt : Nat) (mark zero : α)
    (encoded : List α) (buffer : Buffer σ α) : Buffer σ α :=
  let used := buffer.bufferLength + 1
  let block := copyAt buffer.block buffer.bufferLength [mark]
  let spilled : Buffer σ α :=
    if lengthAt < used then
      let full := fillAt block used n zero
      ⟨compress buffer.state (full.take n), full, 0⟩
    else ⟨buffer.state, block, used⟩
  let last := copyAt (fillAt spilled.block spilled.bufferLength fillEnd zero) lengthAt encoded
  ⟨compress spilled.state (last.take n), last, 0⟩

variable {compress : σ → List α → σ} {n fillEnd lengthAt : Nat} {mark zero : α}
  {encoded xs : List α} {s : σ} {buffer : Buffer σ α}

/-- The last block of a buffer with `used` bytes that leaves room for the length. -/
theorem last_block (block : List α) (zero : α) {used : Nat} (hused : used ≤ lengthAt)
    (hfill : lengthAt ≤ fillEnd) (hend : fillEnd ≤ n) (hencoded : lengthAt + encoded.length = n)
    (hcapacity : n ≤ block.length) :
    (copyAt (fillAt block used fillEnd zero) lengthAt encoded).take n =
      block.take used ++ List.replicate (lengthAt - used) zero ++ encoded := by
  have hlen := fillAt_length block zero (hend.trans hcapacity) (hused.trans hfill)
  rw [← hencoded, copyAt_take _ _ (by omega), fillAt_take _ _ hused hfill (hend.trans hcapacity)]

theorem finish_state (mark zero : α) (encoded : List α) (hn : 0 < n)
    (h : Absorbed compress n s xs buffer) (hfill : lengthAt ≤ fillEnd) (hend : fillEnd ≤ n)
    (hencoded : lengthAt + encoded.length = n) :
    (finish compress n fillEnd lengthAt mark zero encoded buffer).state =
      foldPadded compress n mark zero encoded s xs := by
  obtain ⟨full, pending, k, rfl, hfull, hpending, hstate, hblock⟩ := h.split
  have hlt : buffer.bufferLength < n := by
    rw [h.waiting]
    exact Nat.mod_lt _ hn
  have hcapacity := h.capacity
  have hxs : (full ++ pending).length = n * k + buffer.bufferLength := by
    rw [List.length_append, hfull, hpending]
  have hmarked := copyAt_take buffer.block [mark] (hlt.le.trans hcapacity)
  rw [hblock, List.length_singleton] at hmarked
  have hmarklen : (copyAt buffer.block buffer.bufferLength [mark]).length = buffer.block.length := by
    apply copyAt_length
    rw [List.length_singleton]
    omega
  rw [foldPadded, pad, hxs]
  unfold finish
  dsimp only
  split_ifs with hspill
  · -- the mark fits but the length does not: two blocks
    have hzeros : (n - (n * k + buffer.bufferLength + 1 + encoded.length) % n) % n =
        (n - (buffer.bufferLength + 1)) + lengthAt := by
      apply zeros_eq (m := k + 2) (by omega)
      rw [Nat.mul_add]
      omega
    have hfirst := fillAt_take (copyAt buffer.block buffer.bufferLength [mark]) zero
      (show buffer.bufferLength + 1 ≤ n by omega) (le_refl n) (by omega)
    have hfirstlen : (pending ++ [mark] ++
        List.replicate (n - (buffer.bufferLength + 1)) zero).length = n := by
      rw [List.length_append, List.length_append, List.length_replicate, List.length_singleton,
        hpending]
      omega
    have hlast := last_block (fillAt (copyAt buffer.block buffer.bufferLength [mark])
      (buffer.bufferLength + 1) n zero) zero (Nat.zero_le lengthAt) hfill hend hencoded
      (by rw [fillAt_length _ _ (by omega) (by omega)]; omega)
    have hlastlen : (List.replicate lengthAt zero ++ encoded).length = n := by
      rw [List.length_append, List.length_replicate]
      exact hencoded
    have hsplit : full ++ pending ++ mark :: List.replicate
          ((n - (buffer.bufferLength + 1)) + lengthAt) zero ++ encoded =
        full ++ (pending ++ [mark] ++ List.replicate (n - (buffer.bufferLength + 1)) zero ++
          (List.replicate lengthAt zero ++ encoded)) := by
      rw [List.replicate_add]
      simp only [List.append_assoc, List.cons_append, List.nil_append]
    rw [hmarked] at hfirst
    rw [List.take_zero, List.nil_append, Nat.sub_zero] at hlast
    rw [hzeros, hsplit, foldBlocks_append hn _ s hfull,
      foldBlocks_append (k := 1) hn _ _ (hfirstlen.trans (Nat.mul_one n).symm),
      foldBlocks_one hn _ hfirstlen, foldBlocks_one hn _ hlastlen, hfirst, hlast, hstate]
  · have hzeros : (n - (n * k + buffer.bufferLength + 1 + encoded.length) % n) % n =
        lengthAt - (buffer.bufferLength + 1) := by
      apply zeros_eq (m := k + 1) (by omega)
      rw [Nat.mul_add]
      omega
    have hlast := last_block (copyAt buffer.block buffer.bufferLength [mark]) zero
      (not_lt.mp hspill) hfill hend hencoded (hcapacity.trans hmarklen.ge)
    rw [hmarked] at hlast
    have hlastlen : (pending ++ [mark] ++
        List.replicate (lengthAt - (buffer.bufferLength + 1)) zero ++ encoded).length = n := by
      simp only [List.length_append, List.length_replicate, List.length_singleton, hpending]
      omega
    have hsplit : full ++ pending ++ mark :: List.replicate
          (lengthAt - (buffer.bufferLength + 1)) zero ++ encoded =
        full ++ (pending ++ [mark] ++
          List.replicate (lengthAt - (buffer.bufferLength + 1)) zero ++ encoded) := by
      simp only [List.append_assoc, List.cons_append, List.nil_append]
    rw [hzeros, hsplit, foldBlocks_append hn _ s hfull, foldBlocks_one hn _ hlastlen, hlast, hstate]

end Finish

end LiberaCrypt.MerkleDamgard
