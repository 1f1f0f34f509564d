import Mathlib.Tactic

namespace LiberaCrypt.Rans

/-- The residues of one symbol, `freq` of them from `start` on. -/
structure Slot where
  start : Nat
  freq : Nat

namespace Slot

variable {s : Slot} {scale r x : Nat}

def Contains (s : Slot) (r : Nat) : Prop := s.start ≤ r ∧ r < s.start + s.freq

structure Fits (s : Slot) (scale : Nat) : Prop where
  pos : 0 < s.freq
  le : s.start + s.freq ≤ scale

def put (s : Slot) (scale x : Nat) : Nat := x / s.freq * scale + x % s.freq + s.start

def take (s : Slot) (scale x : Nat) : Nat := s.freq * (x / scale) + x % scale - s.start

theorem Fits.scale_pos (h : s.Fits scale) : 0 < scale := by
  have hpos := h.pos
  have hle := h.le
  omega

theorem Fits.residue_lt (h : s.Fits scale) (x : Nat) : x % s.freq + s.start < scale := by
  have hmod := Nat.mod_lt x h.pos
  have hle := h.le
  omega

theorem put_eq (s : Slot) (scale x : Nat) :
    s.put scale x = scale * (x / s.freq) + (x % s.freq + s.start) := by
  rw [put, Nat.mul_comm, Nat.add_assoc]

theorem put_mod (h : s.Fits scale) (x : Nat) : s.put scale x % scale = x % s.freq + s.start := by
  rw [put_eq, Nat.mul_add_mod, Nat.mod_eq_of_lt (h.residue_lt x)]

theorem put_div (h : s.Fits scale) (x : Nat) : s.put scale x / scale = x / s.freq := by
  rw [put_eq, Nat.mul_add_div h.scale_pos, Nat.div_eq_of_lt (h.residue_lt x), Nat.add_zero]

theorem put_contains (h : s.Fits scale) (x : Nat) : s.Contains (s.put scale x % scale) := by
  have hmod := Nat.mod_lt x h.pos
  rw [put_mod h]
  constructor <;> omega

theorem take_put (h : s.Fits scale) (x : Nat) : s.take scale (s.put scale x) = x := by
  rw [take, put_mod h, put_div h, ← Nat.add_assoc, Nat.add_sub_cancel, Nat.div_add_mod]

theorem take_eq (h : s.Contains (x % scale)) :
    s.take scale x = s.freq * (x / scale) + (x % scale - s.start) :=
  Nat.add_sub_assoc h.1 _

theorem put_take (hs : s.Fits scale) (h : s.Contains (x % scale)) :
    s.put scale (s.take scale x) = x := by
  have hlt : x % scale - s.start < s.freq := by
    have hbounds := h
    have hpos := hs.pos
    simp only [Contains] at hbounds
    omega
  have hsub : x % scale - s.start + s.start = x % scale := Nat.sub_add_cancel h.1
  rw [put_eq, take_eq h, Nat.mul_add_div hs.pos, Nat.mul_add_mod, Nat.div_eq_of_lt hlt,
    Nat.mod_eq_of_lt hlt, hsub, Nat.add_zero, Nat.div_add_mod]

theorem take_le (hs : s.Fits scale) (x : Nat) : s.take scale x ≤ x := by
  have hfreq : s.freq ≤ scale := le_trans (Nat.le_add_left _ _) hs.le
  calc s.take scale x ≤ s.freq * (x / scale) + x % scale := Nat.sub_le _ _
    _ ≤ scale * (x / scale) + x % scale := Nat.add_le_add_right (Nat.mul_le_mul_right _ hfreq) _
    _ = x := Nat.div_add_mod x scale

theorem le_take {gain : Nat} (h : s.Contains (x % scale)) (hscale : 0 < scale)
    (hx : gain * scale ≤ x) : gain * s.freq ≤ s.take scale x := by
  have hgain : gain ≤ x / scale := (Nat.le_div_iff_mul_le hscale).mpr hx
  calc gain * s.freq = s.freq * gain := Nat.mul_comm _ _
    _ ≤ s.freq * (x / scale) := Nat.mul_le_mul_left _ hgain
    _ ≤ s.take scale x := by rw [take_eq h]; exact Nat.le_add_right _ _

theorem take_lt (top : Nat) (hs : s.Fits scale) (h : s.Contains (x % scale))
    (hx : x < top * scale) : s.take scale x < top * s.freq := by
  have hdiv : x / scale + 1 ≤ top := (Nat.div_lt_iff_lt_mul hs.scale_pos).mpr hx
  have hlt : x % scale - s.start < s.freq := by
    have hbounds := h
    have hpos := hs.pos
    simp only [Contains] at hbounds
    omega
  calc s.take scale x = s.freq * (x / scale) + (x % scale - s.start) := take_eq h
    _ < s.freq * (x / scale) + s.freq := Nat.add_lt_add_left hlt _
    _ = (x / scale + 1) * s.freq := by ring
    _ ≤ top * s.freq := Nat.mul_le_mul_right _ hdiv

theorem le_put {gain : Nat} (hs : s.Fits scale) (hx : gain * s.freq ≤ x) :
    gain * scale ≤ s.put scale x := by
  have hdiv : gain ≤ x / s.freq := (Nat.le_div_iff_mul_le hs.pos).mpr hx
  rw [put, Nat.add_assoc]
  exact le_trans (Nat.mul_le_mul_right _ hdiv) (Nat.le_add_right _ _)

theorem put_lt (top : Nat) (hs : s.Fits scale) (hx : x < top * s.freq) :
    s.put scale x < top * scale := by
  have hdiv : x / s.freq + 1 ≤ top := (Nat.div_lt_iff_lt_mul hs.pos).mpr hx
  calc s.put scale x = scale * (x / s.freq) + (x % s.freq + s.start) := put_eq s scale x
    _ < scale * (x / s.freq) + scale := Nat.add_lt_add_left (hs.residue_lt x) _
    _ = (x / s.freq + 1) * scale := by ring
    _ ≤ top * scale := Nat.mul_le_mul_right _ hdiv

end Slot

theorem mul_reciprocal_div {f p q x : Nat} (hf : 0 < f) (hp : f ≤ p) (hx : x < q) :
    x * ((p * q + f - 1) / f) / (p * q) = x / f := by
  set rcp := (p * q + f - 1) / f with hrcp
  have hlow : p * q ≤ rcp * f := by
    have hdiv := Nat.lt_div_mul_add (a := p * q + f - 1) hf
    rw [← hrcp] at hdiv
    omega
  have hhigh : rcp * f ≤ p * q + f - 1 := Nat.div_mul_le_self _ _
  have hbelow : x / f * f ≤ x := Nat.div_mul_le_self x f
  have habove : x + 1 ≤ (x / f + 1) * f := by
    have hdiv := Nat.lt_div_mul_add (a := x) hf
    rw [Nat.add_mul, Nat.one_mul]
    omega
  apply Nat.div_eq_of_lt_le
  · calc x / f * (p * q) ≤ x / f * (rcp * f) := Nat.mul_le_mul_left _ hlow
      _ = x / f * f * rcp := by ring
      _ ≤ x * rcp := Nat.mul_le_mul_right _ hbelow
  · -- the error of the reciprocal stays below one unit of the quotient
    have herror : x * (f - 1) < p * q := by
      calc x * (f - 1) ≤ x * p := Nat.mul_le_mul_left _ (by omega)
        _ < q * p := Nat.mul_lt_mul_of_pos_right hx (by omega)
        _ = p * q := Nat.mul_comm q p
    have hmul : x * rcp * f < (x / f + 1) * (p * q) * f := by
      calc x * rcp * f = x * (rcp * f) := by ring
        _ ≤ x * (p * q + (f - 1)) := Nat.mul_le_mul_left _ (by omega)
        _ = x * (p * q) + x * (f - 1) := by ring
        _ < x * (p * q) + p * q := Nat.add_lt_add_left herror _
        _ = (x + 1) * (p * q) := by ring
        _ ≤ (x / f + 1) * f * (p * q) := Nat.mul_le_mul_right _ habove
        _ = (x / f + 1) * (p * q) * f := by ring
    exact Nat.lt_of_mul_lt_mul_right hmul

/-- A coder with heads from `gain * scale` to `radix * gain * scale` and a stream of digits
of the radix. -/
structure Coder (α : Type) where
  radix : Nat
  scale : Nat
  gain : Nat
  value : α → Nat
  digit : Nat → α
  one_lt_radix : 1 < radix
  gain_pos : 0 < gain
  value_lt : ∀ a, value a < radix
  value_digit : ∀ n, value (digit n) = n % radix
  digit_congr : ∀ a n, digit (n * radix + value a) = a

namespace Coder

variable {α : Type} (c : Coder α)

def low : Nat := c.gain * c.scale

def Normal (st : Nat × List α) : Prop := c.low ≤ st.1 ∧ st.1 < c.radix * c.low

/-- Low digits leave a head that is not below `bound`; the last one comes to lie in front. -/
def spill (bound : Nat) (st : Nat × List α) : Nat × List α :=
  if _h : 0 < bound ∧ bound ≤ st.1 then
    spill bound (st.1 / c.radix, c.digit st.1 :: st.2)
  else st
termination_by st.1
decreasing_by exact Nat.div_lt_self (by omega) c.one_lt_radix

/-- Digits enter a head below `low` while there are any. -/
def refill (x : Nat) : List α → Nat × List α
  | [] => (x, [])
  | a :: stream => if x < c.low then refill (x * c.radix + c.value a) stream else (x, a :: stream)

def push (s : Slot) (st : Nat × List α) : Nat × List α :=
  let spilt := c.spill (c.gain * s.freq * c.radix) st
  (s.put c.scale spilt.1, spilt.2)

def pop (s : Slot) (st : Nat × List α) : Nat × List α := c.refill (s.take c.scale st.1) st.2

variable {c}

theorem spill_of_lt {bound x : Nat} (h : x < bound) (stream : List α) :
    c.spill bound (x, stream) = (x, stream) := by
  rw [spill, dif_neg (by simp only; omega)]

theorem spill_of_le {bound x : Nat} (hbound : 0 < bound) (h : bound ≤ x) (stream : List α) :
    c.spill bound (x, stream) = c.spill bound (x / c.radix, c.digit x :: stream) := by
  rw [spill, dif_pos ⟨hbound, h⟩]

theorem spill_lt {bound : Nat} (hbound : 0 < bound) (st : Nat × List α) :
    (c.spill bound st).1 < bound := by
  induction st using @spill.induct α c bound with
  | case1 st h ih => rwa [spill_of_le hbound h.2]
  | case2 st h =>
    rw [spill, dif_neg h]
    omega

theorem spill_le (bound : Nat) (st : Nat × List α) : (c.spill bound st).1 ≤ st.1 := by
  induction st using @spill.induct α c bound with
  | case1 st h ih =>
    rw [spill_of_le h.1 h.2]
    exact le_trans ih (Nat.div_le_self _ _)
  | case2 st h => rw [spill, dif_neg h]

theorem le_spill {k : Nat} (st : Nat × List α) (h : k ≤ st.1) :
    k ≤ (c.spill (k * c.radix) st).1 := by
  induction st using @spill.induct α c (k * c.radix) with
  | case1 st hle ih =>
    rw [spill_of_le hle.1 hle.2]
    exact ih ((Nat.le_div_iff_mul_le (Nat.zero_lt_of_lt c.one_lt_radix)).mpr hle.2)
  | case2 st hlt => rwa [spill, dif_neg hlt]

theorem le_spill_length (bound : Nat) (st : Nat × List α) :
    st.2.length ≤ (c.spill bound st).2.length := by
  induction st using @spill.induct α c bound with
  | case1 st h ih =>
    rw [spill_of_le h.1 h.2]
    exact le_trans (Nat.le_succ _) ih
  | case2 st h => rw [spill, dif_neg h]

theorem refill_of_low_le {x : Nat} (h : c.low ≤ x) (stream : List α) :
    c.refill x stream = (x, stream) := by
  cases stream with
  | nil => rfl
  | cons a stream => rw [refill, if_neg (Nat.not_lt.mpr h)]

theorem refill_stuck {x : Nat} {stream : List α} (h : (c.refill x stream).1 < c.low) :
    (c.refill x stream).2 = [] := by
  induction stream generalizing x with
  | nil => rfl
  | cons a stream ih =>
    rw [refill] at h ⊢
    split at h
    · next hlow => rw [if_pos hlow]; exact ih h
    · next hlow => exact absurd h hlow

theorem refill_lt {x : Nat} (hx : x < c.radix * c.low) (stream : List α) :
    (c.refill x stream).1 < c.radix * c.low := by
  induction stream generalizing x with
  | nil => exact hx
  | cons a stream ih =>
    rw [refill]
    split
    · next hlow =>
      apply ih
      have hvalue := c.value_lt a
      calc x * c.radix + c.value a < (x + 1) * c.radix := by rw [Nat.add_mul]; omega
        _ ≤ c.low * c.radix := Nat.mul_le_mul_right _ hlow
        _ = c.radix * c.low := Nat.mul_comm _ _
    · exact hx

theorem refill_spill {bound : Nat} (st : Nat × List α) (h : st.1 < c.radix * c.low) :
    c.refill (c.spill bound st).1 (c.spill bound st).2 = c.refill st.1 st.2 := by
  induction st using @spill.induct α c bound with
  | case1 st hle ih =>
    have hdiv : st.1 / c.radix < c.low := Nat.div_lt_of_lt_mul h
    have hradix := c.one_lt_radix
    rw [spill_of_le hle.1 hle.2, ih (by nlinarith), refill, if_pos hdiv, c.value_digit,
      Nat.div_add_mod']
  | case2 st hlt => rw [spill, dif_neg hlt]

theorem spill_refill {k x : Nat} (hk : 0 < k) (hx : k ≤ x) (stream : List α) :
    c.spill (k * c.radix) (c.refill x stream) = c.spill (k * c.radix) (x, stream) := by
  have hradix := c.one_lt_radix
  induction stream generalizing x with
  | nil => rfl
  | cons a stream ih =>
    rw [refill]
    split
    · have hle : k * c.radix ≤ x * c.radix + c.value a :=
        le_trans (Nat.mul_le_mul_right _ hx) (Nat.le_add_right _ _)
      have hdiv : (x * c.radix + c.value a) / c.radix = x := by
        rw [Nat.mul_comm, Nat.mul_add_div (by omega), Nat.div_eq_of_lt (c.value_lt a),
          Nat.add_zero]
      rw [ih (by nlinarith), spill_of_le (by positivity) hle, hdiv, c.digit_congr]
    · rfl

theorem push_normal {s : Slot} (hs : s.Fits c.scale) {st : Nat × List α} (h : c.Normal st) :
    c.Normal (c.push s st) := by
  have hpos : 0 < c.gain * s.freq * c.radix :=
    Nat.mul_pos (Nat.mul_pos c.gain_pos hs.pos) (Nat.zero_lt_of_lt c.one_lt_radix)
  have hfreq : s.freq ≤ c.scale := le_trans (Nat.le_add_left _ _) hs.le
  have hlow : c.gain * s.freq ≤ st.1 := le_trans (Nat.mul_le_mul_left _ hfreq) h.1
  refine ⟨Slot.le_put hs (le_spill st hlow), ?_⟩
  have hlt : (c.spill (c.gain * s.freq * c.radix) st).1 < c.radix * c.gain * s.freq :=
    lt_of_lt_of_eq (spill_lt hpos st) (by ring)
  exact lt_of_lt_of_eq (Slot.put_lt _ hs hlt) (by rw [low]; ring)

theorem pop_push {s : Slot} (hs : s.Fits c.scale) {st : Nat × List α} (h : c.Normal st) :
    c.pop s (c.push s st) = st := by
  rw [push, pop, Slot.take_put hs, refill_spill st h.2, refill_of_low_le h.1]

/-- What a pop did, the push of the same symbol undoes, also where the stream ran out. -/
theorem push_pop {s : Slot} (hs : s.Fits c.scale) {st : Nat × List α} (h : c.Normal st)
    (hst : s.Contains (st.1 % c.scale)) : c.push s (c.pop s st) = st := by
  have hk : c.gain * s.freq ≤ s.take c.scale st.1 := Slot.le_take hst hs.scale_pos h.1
  have hlt : s.take c.scale st.1 < c.gain * s.freq * c.radix :=
    lt_of_lt_of_eq (Slot.take_lt (c.radix * c.gain) hs hst
      (lt_of_lt_of_eq h.2 (by rw [low]; ring))) (by ring)
  rw [push, pop, spill_refill (Nat.mul_pos c.gain_pos hs.pos) hk, spill_of_lt hlt,
    Slot.put_take hs hst]

theorem pop_lt {s : Slot} (hs : s.Fits c.scale) {st : Nat × List α}
    (h : st.1 < c.radix * c.low) : (c.pop s st).1 < c.radix * c.low :=
  refill_lt (lt_of_le_of_lt (Slot.take_le hs st.1) h) st.2

theorem pop_stuck {s : Slot} (hs : s.Fits c.scale) {st : Nat × List α}
    (h : st.1 < c.low ∧ st.2 = []) : (c.pop s st).1 < c.low ∧ (c.pop s st).2 = [] := by
  rw [pop, h.2, refill]
  exact ⟨lt_of_le_of_lt (Slot.take_le hs st.1) h.1, rfl⟩

end Coder

/-- Symbols with slots that cover the residues of the scale, each residue in one of them. -/
structure Alphabet (σ : Type) (scale : Nat) where
  Valid : σ → Prop
  slot : σ → Slot
  find : Nat → σ
  fits : ∀ a, Valid a → (slot a).Fits scale
  valid_find : ∀ r < scale, Valid (find r)
  contains_find : ∀ r < scale, (slot (find r)).Contains r
  find_eq : ∀ a r, Valid a → (slot a).Contains r → find r = a

namespace Coder

variable {α σ : Type} {c : Coder α} (m : Alphabet σ c.scale)

def encode (as : List σ) (st : Nat × List α) : Nat × List α :=
  as.foldr (fun a st => c.push (m.slot a) st) st

def decode : Nat → Nat × List α → List σ × (Nat × List α)
  | 0, st => ([], st)
  | n + 1, st =>
    let a := m.find (st.1 % c.scale)
    let rest := decode n (c.pop (m.slot a) st)
    (a :: rest.1, rest.2)

theorem decode_length (n : Nat) (st : Nat × List α) : (decode m n st).1.length = n := by
  induction n generalizing st with
  | zero => rfl
  | succ n ih => simp [decode, ih]

theorem decode_valid (hscale : 0 < c.scale) (n : Nat) (st : Nat × List α) :
    ∀ a ∈ (decode m n st).1, m.Valid a := by
  induction n generalizing st with
  | zero => simp [decode]
  | succ n ih =>
    intro a ha
    cases ha with
    | head => exact m.valid_find _ (Nat.mod_lt _ hscale)
    | tail _ hrest => exact ih _ a hrest

theorem encode_normal {as : List σ} (has : ∀ a ∈ as, m.Valid a) {st : Nat × List α}
    (h : c.Normal st) : c.Normal (encode m as st) := by
  induction as with
  | nil => exact h
  | cons a as ih =>
    exact push_normal (m.fits a (has a List.mem_cons_self))
      (ih fun b hb => has b (List.mem_cons_of_mem a hb))

theorem find_push {a : σ} (ha : m.Valid a) (st : Nat × List α) :
    m.find ((c.push (m.slot a) st).1 % c.scale) = a :=
  m.find_eq a _ ha (Slot.put_contains (m.fits a ha) _)

theorem decode_encode {as : List σ} (has : ∀ a ∈ as, m.Valid a) {st : Nat × List α}
    (h : c.Normal st) : decode m as.length (encode m as st) = (as, st) := by
  induction as with
  | nil => rfl
  | cons a as ih =>
    have ha := has a List.mem_cons_self
    have hrest : ∀ b ∈ as, m.Valid b := fun b hb => has b (List.mem_cons_of_mem a hb)
    have hnormal := encode_normal m hrest h
    change decode m (as.length + 1) (c.push (m.slot a) (encode m as st)) = _
    simp only [decode, find_push m ha, pop_push (m.fits a ha) hnormal, ih hrest]

theorem decode_stuck (hscale : 0 < c.scale) (n : Nat) {st : Nat × List α}
    (h : st.1 < c.low ∧ st.2 = []) : (decode m n st).2.1 < c.low := by
  induction n generalizing st with
  | zero => exact h.1
  | succ n ih => exact ih (pop_stuck (m.fits _ (m.valid_find _ (Nat.mod_lt _ hscale))) h)

/-- A pop after which the run still ends in range has left a normal state. -/
theorem pop_find_normal (hscale : 0 < c.scale) (n : Nat) {st : Nat × List α} (h : c.Normal st)
    (hlast : c.low ≤ (decode m (n + 1) st).2.1) :
    c.Normal (c.pop (m.slot (m.find (st.1 % c.scale))) st) := by
  have hfits := m.fits _ (m.valid_find _ (Nat.mod_lt st.1 hscale))
  refine ⟨?_, pop_lt hfits h.2⟩
  by_contra hlow
  have hstuck : (c.pop (m.slot (m.find (st.1 % c.scale))) st).1 < c.low := Nat.lt_of_not_le hlow
  have hend := decode_stuck m hscale n ⟨hstuck, refill_stuck hstuck⟩
  exact absurd hlast (Nat.not_le.mpr hend)

/-- A run of the decoder that ends in range was the encoding of what it read. -/
theorem encode_decode (hscale : 0 < c.scale) (n : Nat) {st : Nat × List α} (h : c.Normal st)
    (hlast : c.low ≤ (decode m n st).2.1) :
    encode m (decode m n st).1 (decode m n st).2 = st := by
  induction n generalizing st with
  | zero => rfl
  | succ n ih =>
    have hr : st.1 % c.scale < c.scale := Nat.mod_lt st.1 hscale
    have hrest := ih (pop_find_normal m hscale n h hlast) hlast
    change c.push _ (encode m (decode m n _).1 (decode m n _).2) = st
    rw [hrest]
    exact push_pop (m.fits _ (m.valid_find _ hr)) h (m.contains_find _ hr)

end Coder

def slotsFrom : Nat → List Nat → List Slot
  | _, [] => []
  | start, f :: freqs => ⟨start, f⟩ :: slotsFrom (start + f) freqs

def symbolsFrom : Nat → List Nat → List Nat
  | _, [] => []
  | a, f :: freqs => List.replicate f a ++ symbolsFrom (a + 1) freqs

theorem slotsFrom_range {freqs : List Nat} {start : Nat} {s : Slot}
    (h : s ∈ slotsFrom start freqs) :
    s.freq ∈ freqs ∧ start ≤ s.start ∧ s.start + s.freq ≤ start + freqs.sum := by
  induction freqs generalizing start with
  | nil => cases h
  | cons f freqs ih =>
    rw [slotsFrom] at h
    rw [List.sum_cons]
    cases h with
    | head => exact ⟨List.mem_cons_self, le_rfl, by simp only; omega⟩
    | tail _ hrest =>
      obtain ⟨hmem, hle, hsum⟩ := ih hrest
      exact ⟨List.mem_cons_of_mem f hmem, by omega, by omega⟩

theorem symbolsFrom_iff (freqs : List Nat) (a start r n : Nat) :
    (symbolsFrom a freqs)[r]? = some n ↔
      ∃ i s, n = a + i ∧ (slotsFrom start freqs)[i]? = some s ∧ s.Contains (start + r) := by
  induction freqs generalizing a start r with
  | nil => simp [symbolsFrom, slotsFrom]
  | cons f freqs ih =>
    rw [symbolsFrom, slotsFrom]
    by_cases hr : r < f
    · rw [List.getElem?_append_left (by rwa [List.length_replicate]),
        List.getElem?_replicate, if_pos hr]
      constructor
      · rintro ⟨⟩
        exact ⟨0, ⟨start, f⟩, rfl, rfl, Nat.le_add_right _ _, Nat.add_lt_add_left hr _⟩
      · rintro ⟨i, s, rfl, hslot, hmem⟩
        cases i with
        | zero => rfl
        | succ i =>
          have hrange := slotsFrom_range (List.mem_of_getElem? hslot)
          have hstart := hmem.1
          omega
    · rw [List.getElem?_append_right (by rw [List.length_replicate]; omega),
        List.length_replicate, ih (a + 1) (start + f)]
      have hr' : start + f + (r - f) = start + r := by omega
      rw [hr']
      constructor
      · rintro ⟨i, s, rfl, hslot, hmem⟩
        exact ⟨i + 1, s, by omega, hslot, hmem⟩
      · rintro ⟨i, s, rfl, hslot, hmem⟩
        cases i with
        | zero =>
          cases hslot
          have hend := hmem.2
          simp only at hend
          omega
        | succ i => exact ⟨i, s, by omega, hslot, hmem⟩

@[simp] theorem slotsFrom_length (start : Nat) (freqs : List Nat) :
    (slotsFrom start freqs).length = freqs.length := by
  induction freqs generalizing start with
  | nil => rfl
  | cons f freqs ih => simp [slotsFrom, ih]

@[simp] theorem symbolsFrom_length (a : Nat) (freqs : List Nat) :
    (symbolsFrom a freqs).length = freqs.sum := by
  induction freqs generalizing a with
  | nil => rfl
  | cons f freqs ih => simp [symbolsFrom, ih]

/-- The alphabet of a list of frequencies, with the symbols numbered in their order. -/
def Alphabet.ofFreqs (freqs : List Nat) (scale : Nat) (hpos : ∀ f ∈ freqs, 0 < f)
    (hsum : freqs.sum = scale) : Alphabet Nat scale where
  Valid a := a < freqs.length
  slot a := (slotsFrom 0 freqs).getD a ⟨0, 0⟩
  find r := (symbolsFrom 0 freqs).getD r 0
  fits a ha := by
    have hlength : a < (slotsFrom 0 freqs).length := by rwa [slotsFrom_length]
    rw [List.getD_eq_getElem?_getD, List.getElem?_eq_getElem hlength, Option.getD_some]
    have hrange := slotsFrom_range (List.getElem_mem hlength)
    exact ⟨hpos _ hrange.1, by omega⟩
  valid_find r hr := by
    have hlength : r < (symbolsFrom 0 freqs).length := by rwa [symbolsFrom_length, hsum]
    obtain ⟨i, s, hi, hslot, -⟩ := (symbolsFrom_iff freqs 0 0 r _).mp
      (List.getElem?_eq_getElem hlength)
    rw [List.getD_eq_getElem?_getD, List.getElem?_eq_getElem hlength, Option.getD_some, hi,
      Nat.zero_add, ← slotsFrom_length 0 freqs]
    exact (List.getElem?_eq_some_iff.mp hslot).1
  contains_find r hr := by
    have hlength : r < (symbolsFrom 0 freqs).length := by rwa [symbolsFrom_length, hsum]
    obtain ⟨i, s, hi, hslot, hmem⟩ := (symbolsFrom_iff freqs 0 0 r _).mp
      (List.getElem?_eq_getElem hlength)
    rw [Nat.zero_add] at hi hmem
    simpa only [List.getD_eq_getElem?_getD, List.getElem?_eq_getElem hlength, Option.getD_some,
      hi, hslot] using hmem
  find_eq a r ha hmem := by
    have hlength : a < (slotsFrom 0 freqs).length := by rwa [slotsFrom_length]
    rw [List.getD_eq_getElem?_getD, List.getElem?_eq_getElem hlength, Option.getD_some] at hmem
    have hfind := (symbolsFrom_iff freqs 0 0 r a).mpr
      ⟨a, _, (Nat.zero_add a).symm, List.getElem?_eq_getElem hlength, by rwa [Nat.zero_add]⟩
    rw [List.getD_eq_getElem?_getD, hfind, Option.getD_some]

end LiberaCrypt.Rans
