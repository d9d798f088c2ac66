import Udpcast.Lib.ModCounter

/-!
# The counters of a producer-consumer queue

The arithmetic of `produconsum.c` on `unsigned int`: the two counters run modulo
twice the size of the queue. While the calls are legal, they are the true totals
modulo `2 * size`.
-/

namespace Udpcast.Queue

/-- `getProducedAmount` for the values read from the two counters. -/
def getProducedAmount (size produced consumed : UInt32) : UInt32 :=
  if produced < consumed then produced + 2 * size - consumed else produced - consumed

/-- The new value of `pc->produced` that `pc_produce` computes from the two counters;
`none` is a reported overflow. -/
def produce (size produced consumed amount : UInt32) : Option UInt32 :=
  if size < amount then none
  else
    let produced := produced + amount
    let produced := if 2 * size ≤ produced then produced - 2 * size else produced
    if consumed + size < produced ∨ produced < consumed ∧ consumed - size < produced then none
    else some produced

/-- The new value of `pc->consumed` that `pc_consumed` computes. -/
def consume (size consumed amount : UInt32) : UInt32 :=
  if 2 * size - amount ≤ consumed then consumed + (amount - 2 * size) else consumed + amount

/-- The sizes for which no intermediate value of the counters wraps around. -/
structure ValidSize (size : UInt32) : Prop where
  pos : 0 < size.toNat
  lt : 3 * size.toNat < 2 ^ 32

/-- The counters of a queue of which `P` elements have been produced and `C` consumed. -/
structure Counts (size produced consumed : UInt32) (P C : ℕ) : Prop where
  consumed_le : C ≤ P
  le_size : P - C ≤ size.toNat
  produced_eq : produced.toNat = P % (2 * size.toNat)
  consumed_eq : consumed.toNat = C % (2 * size.toNat)

variable {size produced consumed n : UInt32} {P C : ℕ}

/-- A sum that fits into 32 bits is exact. -/
theorem toNat_add_of_lt {a b : UInt32} (h : a.toNat + b.toNat < 2 ^ 32) :
    (a + b).toNat = a.toNat + b.toNat := by
  rw [UInt32.toNat_add, Nat.mod_eq_of_lt h]

/-- So is a difference that is not negative. -/
theorem toNat_sub_of_le {a b : UInt32} (h : b.toNat ≤ a.toNat) :
    (a - b).toNat = a.toNat - b.toNat :=
  UInt32.toNat_sub_of_le a b (UInt32.le_iff_toNat_le.mpr h)

/-- So is twice a size that fits. -/
theorem toNat_two_mul_of_lt (h : 2 * size.toNat < 2 ^ 32) :
    (2 * size).toNat = 2 * size.toNat := by
  have htwo : (2 : UInt32).toNat = 2 := rfl
  rw [UInt32.toNat_mul, htwo, Nat.mod_eq_of_lt h]

/-- Twice a valid size fits into 32 bits. -/
theorem ValidSize.two_mul_lt (hs : ValidSize size) : 2 * size.toNat < 2 ^ 32 := by
  have hlt := hs.lt
  omega

/-- And it is what the code computes it to be. -/
theorem ValidSize.toNat_two_mul (hs : ValidSize size) : (2 * size).toNat = 2 * size.toNat :=
  toNat_two_mul_of_lt hs.two_mul_lt

/-- The intermediate sum may wrap around, the difference is right all the same. -/
theorem getProducedAmount_toNat (hsize : 2 * size.toNat < 2 ^ 32)
    (hp : produced.toNat < 2 * size.toNat) (hc : consumed.toNat < 2 * size.toNat) :
    (getProducedAmount size produced consumed).toNat =
      if produced.toNat < consumed.toNat then produced.toNat + 2 * size.toNat - consumed.toNat
      else produced.toNat - consumed.toNat := by
  have htwo := toNat_two_mul_of_lt hsize
  unfold getProducedAmount
  simp only [UInt32.lt_iff_toNat_lt]
  split
  · rename_i hless
    rw [UInt32.toNat_sub, UInt32.toNat_add, htwo]
    omega
  · exact toNat_sub_of_le (by omega)

/-- The consumer's counter advances and is brought back below twice the size. -/
theorem consume_toNat (hsize : 2 * size.toNat < 2 ^ 32) (hc : consumed.toNat < 2 * size.toNat)
    (hn : n.toNat ≤ 2 * size.toNat) :
    (consume size consumed n).toNat =
      if 2 * size.toNat ≤ consumed.toNat + n.toNat then consumed.toNat + n.toNat - 2 * size.toNat
      else consumed.toNat + n.toNat := by
  have htwo := toNat_two_mul_of_lt hsize
  have hsub : (2 * size - n).toNat = 2 * size.toNat - n.toNat := by
    rw [toNat_sub_of_le (by omega), htwo]
  unfold consume
  simp only [UInt32.le_iff_toNat_le, hsub]
  split
  · rw [if_pos (by omega), UInt32.toNat_add, UInt32.toNat_sub, htwo]
    omega
  · rw [if_neg (by omega), toNat_add_of_lt (by omega)]

section Counts

variable (hs : ValidSize size) (h : Counts size produced consumed P C)
include hs h

/-- The counter of the producer is a remainder. -/
theorem Counts.produced_lt : produced.toNat < 2 * size.toNat := by
  have hpos := hs.pos
  rw [h.produced_eq]
  exact Nat.mod_lt _ (by omega)

/-- So is that of the consumer. -/
theorem Counts.consumed_lt : consumed.toNat < 2 * size.toNat := by
  have hpos := hs.pos
  rw [h.consumed_eq]
  exact Nat.mod_lt _ (by omega)

/-- The distance of the counters around the double ring is what has been produced and not
consumed. -/
theorem Counts.distance :
    (if produced.toNat < consumed.toNat then produced.toNat + 2 * size.toNat - consumed.toNat
      else produced.toNat - consumed.toNat) = P - C := by
  have hpos := hs.pos
  have hle := h.le_size
  rw [h.produced_eq, h.consumed_eq]
  exact mod_distance h.consumed_le (by omega)

/-- The n waiting in the queue. -/
theorem Counts.getProducedAmount_eq : (getProducedAmount size produced consumed).toNat = P - C := by
  rw [getProducedAmount_toNat hs.two_mul_lt (h.produced_lt hs) (h.consumed_lt hs)]
  exact h.distance hs

/-- `pc_produce` accepts every n that fits. -/
theorem Counts.produce_eq (hfit : P + n.toNat - C ≤ size.toNat) :
    ∃ produced', produce size produced consumed n = some produced' ∧
      Counts size produced' consumed (P + n.toNat) C := by
  have hp := h.produced_lt hs
  have hc := h.consumed_lt hs
  have hle := h.consumed_le
  have hlt := hs.lt
  have h2 := hs.toNat_two_mul
  have hsum : (produced + n).toNat = produced.toNat + n.toNat :=
    toNat_add_of_lt (by omega)
  have hbound : (consumed + size).toNat = consumed.toNat + size.toNat :=
    toNat_add_of_lt (by omega)
  have hadvance := add_mod_wrap (m := 2 * size.toNat) (x := P) (a := n.toNat) (by omega)
    (by omega)
  rw [← h.produced_eq] at hadvance
  set produced' := if 2 * size ≤ produced + n then produced + n - 2 * size
    else produced + n with hdef
  have hproduced' : produced'.toNat = (P + n.toNat) % (2 * size.toNat) := by
    rw [← hadvance, hdef]
    simp only [UInt32.le_iff_toNat_le, h2, hsum]
    split
    · rw [toNat_sub_of_le (by omega), hsum, h2]
    · exact hsum
  have hcounts : Counts size produced' consumed (P + n.toNat) C :=
    ⟨by omega, hfit, hproduced', h.consumed_eq⟩
  refine ⟨produced', ?_, hcounts⟩
  have hd := hcounts.distance hs
  have hpos := hs.pos
  rw [produce, if_neg (by rw [UInt32.lt_iff_toNat_lt]; omega)]
  apply if_neg
  rw [← hdef]
  simp only [UInt32.lt_iff_toNat_lt, hbound, not_or, not_and]
  refine ⟨?_, fun hless => ?_⟩
  · split at hd <;> omega
  · rw [if_pos hless] at hd
    rcases Nat.lt_or_ge consumed.toNat size.toNat with hcs | hcs
    · omega
    · rw [toNat_sub_of_le hcs]
      omega

/-- `pc_consumed` for an n that is waiting. -/
theorem Counts.consume_eq (hfit : C + n.toNat ≤ P) :
    Counts size produced (consume size consumed n) P (C + n.toNat) := by
  have hle := h.le_size
  have hpos := hs.pos
  have hadvance := add_mod_wrap (m := 2 * size.toNat) (x := C) (a := n.toNat) (by omega)
    (by omega)
  refine ⟨hfit, by omega, h.produced_eq, ?_⟩
  rw [consume_toNat hs.two_mul_lt (h.consumed_lt hs) (by omega), h.consumed_eq, hadvance]

end Counts

end Udpcast.Queue
