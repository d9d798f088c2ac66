import Udpcast.Queue.Calls

/-!
# The overflow check of `pc_produce`

What `pc_produce` does for any counters below twice the size and any amount: which
overflows it reports, and which it takes for something else.
-/

namespace Udpcast.Queue

/-- `pc_produce(q, amount)`: the queue afterwards, and whether `udpc_fatal` has been called. -/
def pcProduceCall (q : Produconsum) (amount : UInt32) : Produconsum × Bool :=
  match produce q.size q.produced q.consumed amount with
  | some produced => ({ q with produced := produced }, false)
  | none => (q, true)

/-- How many elements wait according to the counters, modulo twice the size. -/
def Produconsum.waiting (q : Produconsum) : ℕ :=
  (q.produced.toNat + 2 * q.size.toNat - q.consumed.toNat) % (2 * q.size.toNat)

/-- A queue whose counters are in range and which holds no more than its size. -/
structure Produconsum.InRange (q : Produconsum) : Prop where
  size_pos : 1 ≤ q.size.toNat
  size_lt : 2 * q.size.toNat < 2 ^ 32
  produced_lt : q.produced.toNat < 2 * q.size.toNat
  consumed_lt : q.consumed.toNat < 2 * q.size.toNat
  waiting_le : q.waiting ≤ q.size.toNat

/-- `pc_produce` calls `udpc_fatal`, and changes nothing, if and only if the amount does not
fit; otherwise so much more waits afterwards. -/
def OverflowCheckExact (q : Produconsum) (amount : UInt32) : Prop :=
  ((pcProduceCall q amount).2 = true ↔ q.size.toNat < q.waiting + amount.toNat) ∧
    ((pcProduceCall q amount).2 = true → (pcProduceCall q amount).1 = q) ∧
    ((pcProduceCall q amount).2 = false →
      (pcProduceCall q amount).1.waiting = q.waiting + amount.toNat)

/-- The overflow check does its work for a queue of `size` with counters `produced` and
`consumed` in which `waiting` elements wait. -/
def ChecksOverflow (size produced consumed waiting amount : ℕ) : Prop :=
  size < amount ∨
  -- neither sum wraps around
  produced + amount < 2 ^ 32 ∧ consumed + size < 2 ^ 32 ∧
    (waiting + amount ≤ size ∨
      if consumed < size then consumed + waiting + amount < 2 * size
      else waiting + amount < 2 * size) ∨
  produced + amount < 2 ^ 32 ∧ 2 ^ 32 ≤ consumed + size ∧
    (size < waiting + amount ∨
      2 * size ≤ consumed + waiting + amount ∧ waiting + amount + 2 ^ 32 ≤ 3 * size) ∨
  2 ^ 32 ≤ produced + amount ∧ size < waiting + amount ∧
    (size ≤ consumed ∧ 2 ^ 32 + consumed < produced + amount + size ∨
      2 ^ 32 ≤ consumed + size ∧ consumed ≤ produced)

variable {q : Produconsum} {size produced consumed amount : UInt32}

/-- The counter that `pc_produce` computes before its check. -/
def advanced (size produced amount : UInt32) : UInt32 :=
  if 2 * size ≤ produced + amount then produced + amount - 2 * size else produced + amount

/-- The producer's counter after an advance, in which the sum may wrap around. -/
theorem advanced_toNat (size produced amount : UInt32) (hsize : 2 * size.toNat < 2 ^ 32) :
    (advanced size produced amount).toNat =
      let sum := (produced.toNat + amount.toNat) % 2 ^ 32
      if 2 * size.toNat ≤ sum then sum - 2 * size.toNat else sum := by
  have htwo := toNat_two_mul_of_lt hsize
  unfold advanced
  simp only [UInt32.le_iff_toNat_le, htwo, UInt32.toNat_add]
  split
  · rename_i hle
    rw [toNat_sub_of_le (by rw [htwo, UInt32.toNat_add]; exact hle), htwo, UInt32.toNat_add]
  · rw [UInt32.toNat_add]

/-- `produce` without its names for the steps between. -/
theorem produce_def : produce size produced consumed amount =
    if size < amount then none
    else if consumed + size < advanced size produced amount ∨
        advanced size produced amount < consumed ∧ consumed - size < advanced size produced amount
      then none
    else some (advanced size produced amount) := rfl

/-- The test whether the new counter passes `consumed + size`, on numbers. -/
def PassesLimit (size consumed next : ℕ) : Prop :=
  (consumed + size) % 2 ^ 32 < next ∨ next < consumed ∧ (2 ^ 32 - size + consumed) % 2 ^ 32 < next

/-- The overflow is reported exactly if the amount is larger than the ring, or the new counter
passes the limit as the code compares them. -/
theorem produce_eq_none (size produced consumed amount : UInt32) : produce size produced consumed amount = none ↔
    size.toNat < amount.toNat ∨
      PassesLimit size.toNat consumed.toNat (advanced size produced amount).toNat := by
  unfold PassesLimit
  rw [produce_def]
  simp only [UInt32.lt_iff_toNat_lt, UInt32.toNat_add, UInt32.toNat_sub]
  split
  · rename_i hlt
    simp only [hlt, true_or]
  · rename_i hle
    simp only [hle, false_or]
    split
    · rename_i htests
      simpa only [true_iff] using htests
    · rename_i htests
      simpa only [reduceCtorEq, false_iff] using htests

/-- Otherwise the new counter is stored. -/
theorem produce_eq_some {produced' : UInt32}
    (h : produce size produced consumed amount = some produced') :
    produced' = advanced size produced amount := by
  rw [produce_def] at h
  obtain ⟨-, h⟩ := Option.ite_none_left_eq_some.mp h
  obtain ⟨-, h⟩ := Option.ite_none_left_eq_some.mp h
  exact (Option.some.inj h).symm

/-- The process is stopped exactly when the overflow is reported. -/
theorem pcProduceCall_fatal : (pcProduceCall q amount).2 = true ↔
    produce q.size q.produced q.consumed amount = none := by
  unfold pcProduceCall
  cases produce q.size q.produced q.consumed amount <;> simp

/-- Outside `udpc_fatal` the new counter is stored. -/
theorem pcProduceCall_stored (h : (pcProduceCall q amount).2 = false) :
    (pcProduceCall q amount).1 = { q with produced := advanced q.size q.produced amount } := by
  unfold pcProduceCall at h ⊢
  cases hp : produce q.size q.produced q.consumed amount with
  | none =>
    rw [hp] at h
    cases h
  | some produced => rw [produce_eq_some hp]

/-- A distance modulo `2 * s` without a division. -/
theorem sub_mod_two_mul {s x y : ℕ} (hx : x < 2 * s) (hy : y < 2 * s) :
    (x + 2 * s - y) % (2 * s) = if x < y then x + 2 * s - y else x - y := by
  split
  · exact Nat.mod_eq_of_lt (by omega)
  · rw [show x + 2 * s - y = x - y + 2 * s by omega, Nat.add_mod_right, Nat.mod_eq_of_lt (by omega)]

section Check

variable {s p c w a next : ℕ} (hlt : 2 * s < 2 ^ 32) (hp : p < 2 * s) (hc : c < 2 * s)
  (hw : w = if p < c then p + 2 * s - c else p - c) (hws : w ≤ s) (has : a ≤ s)
include hlt hp hc hw hws has

/-- The check when `produced + amount` does not wrap around. -/
theorem check_of_produced_lt (hsum : p + a < 2 ^ 32)
    (hnext : next = if 2 * s ≤ p + a then p + a - 2 * s else p + a) :
    ((PassesLimit s c next ↔ s < w + a) ∧ (¬PassesLimit s c next →
      (if next < c then next + 2 * s - c else next - c) = w + a)) ↔ ChecksOverflow s p c w a := by
  unfold PassesLimit ChecksOverflow
  rcases Nat.lt_or_ge (c + s) (2 ^ 32) with hcs | hcs
  · rw [Nat.mod_eq_of_lt hcs]
    rcases Nat.lt_or_ge c s with hlow | hhigh
    · rw [Nat.mod_eq_of_lt (show 2 ^ 32 - s + c < 2 ^ 32 by omega)]
      split_ifs at hw hnext ⊢ <;> omega
    · split_ifs at hw hnext ⊢ <;> omega
  · split_ifs at hw hnext ⊢ <;> omega

/-- The check when it does: the new counter is too small. -/
theorem check_of_le_produced (hsum : 2 ^ 32 ≤ p + a) (hnext : next = p + a - 2 ^ 32) :
    ((PassesLimit s c next ↔ s < w + a) ∧ (¬PassesLimit s c next →
      (if next < c then next + 2 * s - c else next - c) = w + a)) ↔ ChecksOverflow s p c w a := by
  unfold PassesLimit ChecksOverflow
  split_ifs at hw ⊢ <;> omega

/-- The comparisons of the code are right exactly for these counters and amounts, in plain
numbers. -/
theorem check_iff (hnext : next = if 2 * s ≤ (p + a) % 2 ^ 32 then (p + a) % 2 ^ 32 - 2 * s
      else (p + a) % 2 ^ 32) :
    ((PassesLimit s c next ↔ s < w + a) ∧ (¬PassesLimit s c next →
      (if next < c then next + 2 * s - c else next - c) = w + a)) ↔ ChecksOverflow s p c w a := by
  rcases Nat.lt_or_ge (p + a) (2 ^ 32) with hsum | hsum
  · rw [Nat.mod_eq_of_lt hsum] at hnext
    exact check_of_produced_lt hlt hp hc hw hws has hsum hnext
  · refine check_of_le_produced hlt hp hc hw hws has hsum (hnext.trans ?_)
    split_ifs <;> omega

end Check

/-- A call of `udpc_fatal` changes nothing. -/
theorem pcProduceCall_unchanged (h : (pcProduceCall q amount).2 = true) :
    (pcProduceCall q amount).1 = q := by
  unfold pcProduceCall
  rw [pcProduceCall_fatal.mp h]

/-- The overflow check is exact if and only if `ChecksOverflow` says so. -/
theorem overflowCheckExact_iff (h : q.InRange) : OverflowCheckExact q amount ↔
    ChecksOverflow q.size.toNat q.produced.toNat q.consumed.toNat q.waiting amount.toNat := by
  have hp := h.produced_lt
  have hc := h.consumed_lt
  have hlt := h.size_lt
  have hw : q.waiting = if q.produced.toNat < q.consumed.toNat
      then q.produced.toNat + 2 * q.size.toNat - q.consumed.toNat
      else q.produced.toNat - q.consumed.toNat := sub_mod_two_mul hp hc
  rcases Nat.lt_or_ge q.size.toNat amount.toNat with has | has
  · have hfatal : (pcProduceCall q amount).2 = true :=
      pcProduceCall_fatal.mpr ((produce_eq_none ..).mpr (.inl has))
    refine ⟨fun _ => .inl has, fun _ => ⟨⟨fun _ => by omega, fun _ => hfatal⟩,
      pcProduceCall_unchanged, fun hstored => ?_⟩⟩
    rw [hfatal] at hstored
    cases hstored
  · set next := (advanced q.size q.produced amount).toNat with hdef
    have hnext := advanced_toNat q.size q.produced amount hlt
    rw [← hdef] at hnext
    dsimp only at hnext
    have hnext_lt : next < 2 * q.size.toNat := by
      rw [hnext]
      split_ifs <;> omega
    have hstored : (pcProduceCall q amount).2 = false →
        (pcProduceCall q amount).1.waiting =
          if next < q.consumed.toNat then next + 2 * q.size.toNat - q.consumed.toNat
          else next - q.consumed.toNat := by
      intro hfalse
      rw [pcProduceCall_stored hfalse]
      exact sub_mod_two_mul hnext_lt hc
    have hfatal : (pcProduceCall q amount).2 = true ↔
        PassesLimit q.size.toNat q.consumed.toNat next := by
      rw [pcProduceCall_fatal, produce_eq_none, or_iff_right (by omega)]
    rw [← check_iff hlt hp hc hw h.waiting_le has hnext, ← hfatal]
    unfold OverflowCheckExact
    constructor
    · rintro ⟨hexact, -, hcounts⟩
      refine ⟨hexact, fun hno => ?_⟩
      rw [← hstored (Bool.not_eq_true _ ▸ hno)]
      exact hcounts (Bool.not_eq_true _ ▸ hno)
    · rintro ⟨hexact, hcounts⟩
      refine ⟨hexact, pcProduceCall_unchanged, fun hfalse => ?_⟩
      rw [hstored hfalse]
      exact hcounts (by rw [hfalse]; exact Bool.false_ne_true)

/-- Seven of ten elements wait; four more are refused, which the check gets right. -/
theorem overflowCheckExact_four_more : OverflowCheckExact ⟨10, 12, 5, false⟩ 4 := by
  apply (overflowCheckExact_iff ⟨by decide, by decide, by decide, by decide, by decide⟩).mpr
  exact .inr (.inl ⟨by decide, by decide, .inr (by decide)⟩)

/-- Ten of ten elements wait, and the first counter is below the size. Eight more run around
the ring and past the consumer unnoticed. -/
theorem not_overflowCheckExact : ¬∀ q amount, q.InRange → OverflowCheckExact q amount := by
  intro hexact
  have hrange : Produconsum.InRange ⟨10, 15, 5, false⟩ :=
    ⟨by decide, by decide, by decide, by decide, by decide⟩
  have hfatal := (hexact _ 8 hrange).1.mpr (by decide)
  exact absurd hfatal (by decide)

end Udpcast.Queue
