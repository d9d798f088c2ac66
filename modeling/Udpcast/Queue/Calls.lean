import Udpcast.Queue.Produconsum

/-!
# Whole calls of the queue functions

The functions of `produconsum.c` with each call taken as one step, for the threads
that use several queues. A blocking call that cannot return yet is `none`, as is a
`pc_produce` that reports an overflow.
-/

namespace Udpcast.Queue

/-- The counters and the end mark of a `struct produconsum`. -/
structure Produconsum where
  /-- `size`. -/
  size : UInt32
  /-- `produced`. -/
  produced : UInt32
  /-- `consumed`. -/
  consumed : UInt32
  /-- `atEnd`. -/
  atEnd : Bool
  deriving DecidableEq

/-- `pc_makeProduconsum(size)`. -/
def pcMakeProduconsum (size : ℕ) : Produconsum := ⟨.ofNat size, 0, 0, false⟩

/-- `pc_produce(q, amount)`. -/
def pcProduce (q : Produconsum) (amount : ℕ) : Option Produconsum :=
  (produce q.size q.produced q.consumed (.ofNat amount)).map fun produced =>
    { q with produced := produced }

/-- `pc_produceEnd(q)`. -/
def pcProduceEnd (q : Produconsum) : Produconsum := { q with atEnd := true }

/-- `pc_getWaiting(q)`. -/
def pcGetWaiting (q : Produconsum) : ℕ := (getProducedAmount q.size q.produced q.consumed).toNat

/-- `pc_consume(q, min)`, once it returns. -/
def pcConsume (q : Produconsum) (min : ℕ) : Option ℕ :=
  if min ≤ pcGetWaiting q ∨ q.atEnd then some (pcGetWaiting q) else none

/-- `pc_consumed(q, amount)`. -/
def pcConsumed (q : Produconsum) (amount : ℕ) : Produconsum :=
  { q with consumed := consume q.size q.consumed (.ofNat amount) }

/-- `pc_getConsumerPosition(q)`. -/
def pcGetConsumerPosition (q : Produconsum) : ℕ := (q.consumed % q.size).toNat

/-- `pc_getProducerPosition(q)`. -/
def pcGetProducerPosition (q : Produconsum) : ℕ := (q.produced % q.size).toNat

/-- `pc_consumeContiguousMinAmount(q, min)`, once it returns. -/
def pcConsumeContiguousMinAmount (q : Produconsum) (min : ℕ) : Option ℕ :=
  (pcConsume q min).map fun n =>
    let l := (q.size - q.consumed % q.size).toNat
    if l < n then l else n

/-- `P` elements have been produced in a queue for `size` elements, `C` consumed. -/
structure Produconsum.Holds (q : Produconsum) (size P C : ℕ) : Prop where
  size_eq : q.size.toNat = size
  valid : ValidSize q.size
  counts : Counts q.size q.produced q.consumed P C

variable {q : Produconsum} {size P C n : ℕ}

/-- A number below 2^32 is stored as it is. -/
theorem toNat_ofNat_of_lt {n : ℕ} (h : n < 2 ^ 32) : (UInt32.ofNat n).toNat = n :=
  UInt32.toNat_ofNat_of_lt' h

/-- A new queue is empty. -/
theorem holds_make (hpos : 0 < size) (hlt : 3 * size < 2 ^ 32) :
    (pcMakeProduconsum size).Holds size 0 0 := by
  have hsize : (UInt32.ofNat size).toNat = size := toNat_ofNat_of_lt (by omega)
  exact ⟨hsize, ⟨by rw [pcMakeProduconsum, hsize]; exact hpos, by rw [pcMakeProduconsum, hsize]; exact hlt⟩,
    ⟨le_rfl, Nat.zero_le _, by simp [pcMakeProduconsum], by simp [pcMakeProduconsum]⟩⟩

section Holds

variable (h : q.Holds size P C)
include h

/-- A queue has room for something. -/
theorem Produconsum.Holds.size_pos : 0 < size := h.size_eq ▸ h.valid.pos

/-- No more is consumed than has been produced. -/
theorem Produconsum.Holds.consumed_le : C ≤ P := h.counts.consumed_le

/-- No more is waiting than fits. -/
theorem Produconsum.Holds.le_size : P - C ≤ size := h.size_eq ▸ h.counts.le_size

/-- The size is small enough for the counters. -/
theorem Produconsum.Holds.size_lt : 3 * size < 2 ^ 32 := h.size_eq ▸ h.valid.lt

/-- A legal `pc_produce` reports no overflow. -/
theorem Produconsum.Holds.pcProduce (hfit : P + n - C ≤ size) :
    ∃ q', pcProduce q n = some q' ∧ q'.Holds size (P + n) C ∧ q'.atEnd = q.atEnd := by
  have hlt := h.size_lt
  have hle := h.consumed_le
  have hamount : (UInt32.ofNat n).toNat = n := toNat_ofNat_of_lt (by omega)
  obtain ⟨produced, heq, hcounts⟩ := h.counts.produce_eq h.valid (n := .ofNat n)
    (by rw [hamount, h.size_eq]; exact hfit)
  rw [hamount] at hcounts
  exact ⟨{ q with produced := produced }, by rw [Queue.pcProduce, heq, Option.map_some],
    ⟨h.size_eq, h.valid, hcounts⟩, rfl⟩

/-- Marking the end does not change what is waiting. -/
theorem Produconsum.Holds.pcProduceEnd : (pcProduceEnd q).Holds size P C :=
  ⟨h.size_eq, h.valid, h.counts⟩

/-- What is waiting can be consumed, all of it or a part. -/
theorem Produconsum.Holds.pcConsumed (hfit : C + n ≤ P) :
    (pcConsumed q n).Holds size P (C + n) := by
  have hlt := h.size_lt
  have hle := h.le_size
  have hamount : (UInt32.ofNat n).toNat = n := toNat_ofNat_of_lt (by omega)
  have hcounts := h.counts.consume_eq h.valid (n := .ofNat n) (by rw [hamount]; exact hfit)
  rw [hamount] at hcounts
  exact ⟨h.size_eq, h.valid, hcounts⟩

/-- `pc_getWaiting` is what has been produced and not consumed. -/
theorem Produconsum.Holds.pcGetWaiting_eq : pcGetWaiting q = P - C :=
  h.counts.getProducedAmount_eq h.valid

/-- `pc_consume` returns all that is waiting, once it is enough or the end is marked. -/
theorem Produconsum.Holds.pcConsume_eq (min : ℕ) :
    pcConsume q min = if min ≤ P - C ∨ q.atEnd then some (P - C) else none := by
  rw [pcConsume, h.pcGetWaiting_eq]

/-- The place in the ring that is consumed next. -/
theorem Produconsum.Holds.consumerPosition_eq : pcGetConsumerPosition q = C % size := by
  rw [pcGetConsumerPosition, UInt32.toNat_mod, h.counts.consumed_eq, h.size_eq, mod_two_mul_mod]

/-- The place in the ring that is produced next. -/
theorem Produconsum.Holds.producerPosition_eq : pcGetProducerPosition q = P % size := by
  rw [pcGetProducerPosition, UInt32.toNat_mod, h.counts.produced_eq, h.size_eq, mod_two_mul_mod]

/-- `pc_consumeContiguousMinAmount` stops at the end of the ring. -/
theorem Produconsum.Holds.consumeContiguous_eq (min : ℕ) :
    pcConsumeContiguousMinAmount q min =
      if min ≤ P - C ∨ q.atEnd then some (if size - C % size < P - C then size - C % size else P - C)
      else none := by
  have hpos := h.consumerPosition_eq
  have hlt := Nat.mod_lt C h.size_pos
  have hsub : (q.size - q.consumed % q.size).toNat = size - C % size := by
    rw [pcGetConsumerPosition] at hpos
    rw [toNat_sub_of_le (by rw [hpos, h.size_eq]; exact hlt.le), hpos, h.size_eq]
  rw [pcConsumeContiguousMinAmount, h.pcConsume_eq]
  split
  · rw [Option.map_some, hsub]
  · rfl

end Holds

end Udpcast.Queue
