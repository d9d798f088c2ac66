import Udpcast.Sender.Steps
import Udpcast.Lib.Ring
import Mathlib.Algebra.Order.BigOperators.Group.List

/-!
# The ring of the sender

Every byte of the ring is free, read but not cut, in a slice that is not acknowledged,
or in the hands of the reader. The accounting is done on a view of the state that leaves
out the protocol: what each step of a thread does to the view keeps `RingInv`.
-/

namespace Udpcast.Sender

open Fec (Gf)
open Queue

/-- Slice `j` starts here in the stream. -/
def startOf (cuts : List ℕ) (j : ℕ) : ℕ := (cuts.take j).sum

section StartOf

variable {cuts : List ℕ} {i j bytes : ℕ}

/-- The last slice ends where all cuts together do. -/
theorem startOf_length : startOf cuts cuts.length = cuts.sum := by
  rw [startOf, List.take_length]

/-- A slice starts where the one before it ends. -/
theorem startOf_succ (hj : j < cuts.length) :
    startOf cuts (j + 1) = startOf cuts j + cuts.getD j 0 := by
  rw [startOf, startOf, List.sum_take_succ cuts j hj, List.getD_eq_getElem _ _ hj]

/-- A new cut leaves where the earlier slices start. -/
theorem startOf_append (hj : j ≤ cuts.length) : startOf (cuts ++ [bytes]) j = startOf cuts j := by
  rw [startOf, startOf, List.take_append_of_le_length hj]

/-- Later slices start later. -/
theorem startOf_mono (hij : i ≤ j) : startOf cuts i ≤ startOf cuts j :=
  (List.take_sublist_take_left hij).sum_le_sum fun _ _ => Nat.zero_le _

/-- No slice starts behind the last cut. -/
theorem startOf_le_sum (j : ℕ) : startOf cuts j ≤ cuts.sum :=
  (List.take_sublist j cuts).sum_le_sum fun _ _ => Nat.zero_le _

end StartOf

/-- The number of the last block of a slice, and where it starts. -/
theorem lastBlock_eq {bs bytes a m : ℕ} (hbs : 0 < bs) (hleft : bytes % bs ≠ 0) :
    (bs * a % (bs * m) + ((bytes + bs - 1) / bs - 1) * bs) % (bs * m) =
      bs * ((a + bytes / bs) % m) := by
  have hdivmod := Nat.div_add_mod bytes bs
  have hlt := Nat.mod_lt bytes hbs
  have hblocks : (bytes + bs - 1) / bs = bytes / bs + 1 := by
    have hsucc : bytes + bs - 1 = bs * (bytes / bs + 1) + (bytes % bs - 1) := by
      rw [Nat.mul_add, Nat.mul_one]
      omega
    rw [hsucc, Nat.mul_add_div hbs, Nat.div_eq_of_lt (show bytes % bs - 1 < bs by omega)]
  rw [hblocks, Nat.add_sub_cancel, Nat.mod_add_mod, Nat.mul_comm (bytes / bs), ← Nat.mul_add,
    Nat.mul_mod_mul_left]

/-- The parts of a slice that tell which bytes of the ring it holds. -/
structure SliceCore where
  base : ℕ
  sliceNo : ℕ
  bytes : ℕ
  state : SliceState

def Slice.core (slice : Slice) : SliceCore := ⟨slice.base, slice.sliceNo, slice.bytes, slice.state⟩

/-- The ring with everything that claims or returns some of its bytes. -/
structure RingView where
  blockSize : ℕ
  fec : Bool
  dataBufSize : ℕ
  dataBuffer : ℕ → Gf
  freeMemQueue : Produconsum
  data : Produconsum
  slices : ℕ → SliceCore
  freeSlicesPc : Produconsum
  fecDataPc : Produconsum
  cutter : CutterPc
  sliceNo : ℕ
  reader : ReaderPc
  input : ℕ → Gf
  inputSize : ℕ
  inputPos : ℕ
  readTotal : ℕ
  freeTaken : ℕ
  cuts : List ℕ
  allocated : ℕ
  encoded : ℕ
  taken : ℕ
  acked : ℕ
  freed : ℕ

def State.ring (s : State) : RingView :=
  ⟨s.config.blockSize, s.config.fec, s.dataBufSize, s.dataBuffer, s.freeMemQueue, s.data,
    fun i => (s.slices i).core, s.freeSlicesPc, s.fecDataPc, s.cutter, s.sliceNo, s.reader,
    s.input, s.inputSize, s.inputPos, s.readTotal, s.freeTaken, s.cuts, s.allocated, s.encoded,
    s.taken, s.acked, s.freed⟩

/-- A slot has been taken for a slice that is not cut yet. -/
def CutterPc.making : CutterPc → ℕ
  | .consumeData _ | .consumedData _ => 1
  | _ => 0

/-- A slice is cut but not yet in the queue of encoded slices. -/
def CutterPc.encoding : CutterPc → ℕ
  | .encode _ | .produceFec => 1
  | _ => 0

/-- A slice has its number but is not cut yet. -/
def CutterPc.numbered : CutterPc → ℕ
  | .consumedData _ => 1
  | _ => 0

section Equations

-- Modules that do not import one another unfold these definitions. The mark, which ends with
-- the section, has Lean state their equations here, so that all of them use the same ones.
attribute [local simp] Slice.core State.ring

end Equations

/-- What the slot of slice `j` holds. -/
structure SlotHolds (cuts : List ℕ) (size acked taken : ℕ) (slot : SliceCore) (j : ℕ) : Prop where
  state_free : cuts.length ≤ j → slot.state = .free
  sliceNo_eq : j < cuts.length → slot.sliceNo = j
  bytes_eq : j < cuts.length → slot.bytes = cuts.getD j 0
  base_eq : j < cuts.length → slot.base = startOf cuts j % size
  state_acked : j < acked → slot.state = .acked ∨ slot.state = .preFree
  state_taken : acked ≤ j → j < taken → slot.state = .new ∨ slot.state = .xmitted
  state_new : taken ≤ j → j < cuts.length → slot.state = .new

namespace RingView

variable (g : RingView)

/-- The stream up to here has been acknowledged. -/
def ackedBytes : ℕ := startOf g.cuts g.acked

/-- What the reader knows at each point. -/
def ReaderInv : Prop :=
  match g.reader with
  | .wait | .exited => g.freeTaken = g.readTotal ∧ g.inputPos = g.readTotal
  | .read pos bytes => g.freeTaken = g.readTotal ∧ g.inputPos = g.readTotal ∧ 0 < bytes ∧
    pos = g.inputPos % g.dataBufSize ∧ pos + bytes ≤ g.dataBufSize ∧
    g.inputPos + bytes ≤ g.dataBufSize + g.ackedBytes
  | .commit n => g.freeTaken = g.readTotal ∧ g.inputPos = g.readTotal + n ∧
    g.inputPos ≤ g.dataBufSize + g.ackedBytes ∧ (n = 0 → g.inputPos = g.inputSize)
  | .produce n => g.freeTaken = g.readTotal + n ∧ g.inputPos = g.readTotal + n ∧ 0 < n

/-- What the cutter knows at each point. -/
def CutterInv : Prop :=
  match g.cutter with
  | .consumedSlot => g.cuts.length ≤ g.freed + 1
  | .consumeData i => i = g.cuts.length % 2
  | .consumedData i => i = g.cuts.length % 2 ∧ (g.slices i).sliceNo = g.cuts.length ∧
    (g.slices i).base = g.cuts.sum % g.dataBufSize ∧
    g.cuts.sum + (g.slices i).bytes ≤ g.readTotal ∧
    (g.blockSize ∣ (g.slices i).bytes ∨
      g.cuts.sum + (g.slices i).bytes = g.readTotal ∧ g.data.atEnd = true)
  | .encode i => g.fec = true ∧ i = (g.cuts.length - 1) % 2
  | .produceFec => g.fec = true
  | _ => True

end RingView

/-- The accounting of the ring. -/
structure RingInv (g : RingView) : Prop where
  blockSize_pos : 0 < g.blockSize
  size_eq : g.dataBufSize = g.blockSize * 4096
  freed_le : g.freed ≤ g.acked
  acked_le : g.acked ≤ g.taken
  taken_le : g.taken + g.cutter.encoding ≤ g.cuts.length
  allocated_eq : g.allocated = g.cuts.length + g.cutter.making
  encoded_eq : g.fec = true → g.encoded + g.cutter.encoding = g.cuts.length
  freeMem : g.freeMemQueue.Holds g.dataBufSize (g.dataBufSize + g.ackedBytes) g.freeTaken
  data : g.data.Holds g.dataBufSize g.readTotal g.cuts.sum
  freeSlices : g.freeSlicesPc.Holds 2 (2 + g.freed) g.allocated
  freeSlices_open : g.freeSlicesPc.atEnd = false
  fecData : g.fec = true → g.fecDataPc.Holds 2 g.encoded g.taken
  fecData_open : g.fecDataPc.atEnd = false
  notFec : g.fec = false → g.taken = g.cuts.length
  sliceNo : g.sliceNo = g.cuts.length + g.cutter.numbered
  slots : ∀ j, g.freed ≤ j → j < g.freed + 2 →
    SlotHolds g.cuts g.dataBufSize g.acked g.taken (g.slices (j % 2)) j
  aligned : ∀ j, startOf g.cuts j < g.cuts.sum → g.blockSize ∣ startOf g.cuts j
  aligned_cut : g.blockSize ∣ g.cuts.sum ∨ g.cuts.sum = g.readTotal ∧ g.data.atEnd = true
  inputPos_le : g.inputPos ≤ g.inputSize
  ended : g.data.atEnd = true → g.reader = .exited ∧ g.inputPos = g.inputSize
  content : ∀ p, g.ackedBytes ≤ p → p < g.inputPos → g.dataBuffer (p % g.dataBufSize) = g.input p
  reader : g.ReaderInv
  cutter : g.CutterInv

/-- No more is acknowledged than has been cut. -/
theorem RingView.ackedBytes_le (g : RingView) : g.ackedBytes ≤ g.cuts.sum := startOf_le_sum _

namespace RingInv

variable {g : RingView} (h : RingInv g)
include h

/-- The ring is not empty. -/
theorem size_pos : 0 < g.dataBufSize := h.freeMem.size_pos

/-- No more is cut than has been read. -/
theorem cut_le_read : g.cuts.sum ≤ g.readTotal := h.data.consumed_le

/-- No more than two slices are cut and not freed. -/
theorem length_le : g.cuts.length ≤ g.freed + 2 := by
  have hallocated := h.allocated_eq
  have hle := h.freeSlices.consumed_le
  omega

/-- The queue of the data is open as long as the reader runs. -/
theorem atEnd_of_reader (hpc : g.reader ≠ .exited) : g.data.atEnd = false := by
  cases hend : g.data.atEnd with
  | false => rfl
  | true => exact absurd (h.ended hend).1 hpc

/-- The reader announces what it has taken from the free memory. -/
theorem read_le_taken : g.readTotal ≤ g.freeTaken := by
  have hreader := h.reader
  unfold RingView.ReaderInv at hreader
  split at hreader <;> omega

/-- It takes free memory for what it has read. -/
theorem taken_le_input : g.freeTaken ≤ g.inputPos := by
  have hreader := h.reader
  unfold RingView.ReaderInv at hreader
  split at hreader <;> omega

/-- All that has been read fits into the ring behind the acknowledged part. -/
theorem inputPos_le_size : g.inputPos ≤ g.dataBufSize + g.ackedBytes := by
  have hfree := h.freeMem.consumed_le
  have hreader := h.reader
  unfold RingView.ReaderInv at hreader
  split at hreader <;> omega

section Reader

variable {pos bytes n : ℕ}

/-- Before data may be marked as ended no reader is left. -/
theorem not_ended (hpc : g.reader ≠ .exited) {P : Prop} (hend : g.data.atEnd = true) : P := by
  rw [h.atEnd_of_reader hpc] at hend
  contradiction

/-- What the cutter knows stays true when the reader goes on. -/
theorem cutterInv_data {q : Produconsum} {total : ℕ} (hle : g.readTotal ≤ total)
    (hend : g.data.atEnd = true → total = g.readTotal ∧ q.atEnd = true) :
    RingView.CutterInv { g with data := q, readTotal := total } := by
  have hcutter := h.cutter
  unfold RingView.CutterInv at hcutter ⊢
  cases hc : g.cutter with
  | consumedData i =>
    simp only [hc] at hcutter ⊢
    obtain ⟨hi, hno, hbase, hcut, haligned⟩ := hcutter
    refine ⟨hi, hno, hbase, by omega, haligned.imp_right fun hlast => ?_⟩
    obtain ⟨htotal, hatEnd⟩ := hend hlast.2
    exact ⟨by omega, hatEnd⟩
  | consumeSlot | idle => trivial
  | _ => simpa only [hc] using hcutter

/-- The reader can return. -/
theorem readerExit (hpc : g.reader = .wait) : RingInv { g with reader := .exited } := by
  obtain ⟨htaken, hread⟩ : g.freeTaken = g.readTotal ∧ g.inputPos = g.readTotal := by
    simpa only [RingView.ReaderInv, hpc] using h.reader
  exact { h with reader := ⟨htaken, hread⟩, ended := h.not_ended (by simp [hpc]) }

/-- The contiguous free memory that the reader finds. -/
theorem consumeContiguous (hpc : g.reader = .wait)
    (hn : pcConsumeContiguousMinAmount g.freeMemQueue 4096 = some n) :
    pcGetConsumerPosition g.freeMemQueue = g.inputPos % g.dataBufSize ∧
      g.inputPos % g.dataBufSize + n ≤ g.dataBufSize ∧
      g.inputPos + n ≤ g.dataBufSize + g.ackedBytes := by
  obtain ⟨htaken, hread⟩ : g.freeTaken = g.readTotal ∧ g.inputPos = g.readTotal := by
    simpa only [RingView.ReaderInv, hpc] using h.reader
  have hroom := h.inputPos_le_size
  have hlt := Nat.mod_lt g.inputPos h.size_pos
  rw [h.freeMem.consumeContiguous_eq, htaken, ← hread] at hn
  obtain ⟨-, hn⟩ := Option.ite_none_right_eq_some.mp hn
  refine ⟨by rw [h.freeMem.consumerPosition_eq, htaken, ← hread], ?_⟩
  rw [← Option.some.inj hn]
  split <;> omega

/-- The reader reads into free memory that is contiguous. -/
theorem readerRead (hpc : g.reader = .wait) (hpos : 0 < bytes)
    (hfit : g.inputPos % g.dataBufSize + bytes ≤ g.dataBufSize)
    (hroom : g.inputPos + bytes ≤ g.dataBufSize + g.ackedBytes) :
    RingInv { g with reader := .read (g.inputPos % g.dataBufSize) bytes } := by
  obtain ⟨htaken, hread⟩ : g.freeTaken = g.readTotal ∧ g.inputPos = g.readTotal := by
    simpa only [RingView.ReaderInv, hpc] using h.reader
  exact { h with
    reader := ⟨htaken, hread, hpos, rfl, hfit, hroom⟩
    ended := h.not_ended (by simp [hpc]) }

/-- `read` writes only cells behind what has been read before. -/
theorem read (hpc : g.reader = .read pos bytes) (hn : n ≤ bytes)
    (hinput : g.inputPos + n ≤ g.inputSize) (hzero : n = 0 → g.inputPos = g.inputSize) :
    RingInv { g with
      dataBuffer := fun a =>
        if pos ≤ a ∧ a < pos + n then g.input (g.inputPos + (a - pos)) else g.dataBuffer a
      inputPos := g.inputPos + n
      reader := .commit n } := by
  obtain ⟨htaken, hread, hbytes, hpos, hfit, hroom⟩ : g.freeTaken = g.readTotal ∧
      g.inputPos = g.readTotal ∧ 0 < bytes ∧ pos = g.inputPos % g.dataBufSize ∧
      pos + bytes ≤ g.dataBufSize ∧ g.inputPos + bytes ≤ g.dataBufSize + g.ackedBytes := by
    simpa only [RingView.ReaderInv, hpc] using h.reader
  have hcell : ∀ k < n, (g.inputPos + k) % g.dataBufSize = pos + k := by
    intro k hk
    rw [← Nat.mod_add_mod, ← hpos, Nat.mod_eq_of_lt (by omega)]
  exact { h with
    inputPos_le := hinput
    reader := ⟨htaken, by dsimp only; omega, by dsimp only [RingView.ackedBytes] at *; omega,
      fun hn0 => by dsimp only; omega⟩
    ended := h.not_ended (by simp [hpc])
    content := by
      intro p hp hlt
      dsimp only at hlt ⊢
      rcases Nat.lt_or_ge p g.inputPos with hold | hnew
      · rw [if_neg, h.content p hp hold]
        rintro ⟨hge, hlt'⟩
        have hne : p % g.dataBufSize ≠ (g.inputPos + (p % g.dataBufSize - pos)) % g.dataBufSize :=
          mod_ne_of_lt (by omega) (by dsimp only [RingView.ackedBytes] at *; omega)
        rw [hcell _ (by omega)] at hne
        omega
      · have hmod := hcell (p - g.inputPos) (by omega)
        rw [Nat.add_sub_cancel' hnew] at hmod
        rw [hmod, if_pos (by omega)]
        congr 1
        omega }

/-- At the end of the input the reader ends the queue. -/
theorem readerEnd (hpc : g.reader = .commit 0) :
    RingInv { g with data := pcProduceEnd g.data, reader := .exited } := by
  obtain ⟨htaken, hread, hroom, hzero⟩ : g.freeTaken = g.readTotal ∧
      g.inputPos = g.readTotal + 0 ∧ g.inputPos ≤ g.dataBufSize + g.ackedBytes ∧
      (0 = 0 → g.inputPos = g.inputSize) := by
    simpa only [RingView.ReaderInv, hpc] using h.reader
  have hopen := h.atEnd_of_reader (by simp [hpc])
  exact { h with
    data := h.data.pcProduceEnd
    reader := ⟨htaken, hread⟩
    ended := fun _ => ⟨rfl, hzero rfl⟩
    aligned_cut := h.aligned_cut.imp_right fun hcut => ⟨hcut.1, rfl⟩
    cutter := h.cutterInv_data le_rfl fun _ => ⟨rfl, rfl⟩ }

/-- The reader takes the memory that it has filled from the free memory. -/
theorem readerCommit (hpc : g.reader = .commit n) (hn : n ≠ 0) :
    RingInv { g with
      freeMemQueue := pcConsumed g.freeMemQueue n
      freeTaken := g.freeTaken + n
      reader := .produce n } := by
  obtain ⟨htaken, hread, hroom, hzero⟩ : g.freeTaken = g.readTotal ∧
      g.inputPos = g.readTotal + n ∧ g.inputPos ≤ g.dataBufSize + g.ackedBytes ∧
      (n = 0 → g.inputPos = g.inputSize) := by
    simpa only [RingView.ReaderInv, hpc] using h.reader
  exact { h with
    freeMem := h.freeMem.pcConsumed (by omega)
    reader := ⟨by dsimp only; omega, hread, by omega⟩
    ended := h.not_ended (by simp [hpc]) }

/-- The reader announces the bytes that it has read, and there is room for them. -/
theorem readerProduce (hpc : g.reader = .produce n) :
    ∃ q, pcProduce g.data n = some q ∧
      RingInv { g with data := q, readTotal := g.readTotal + n, reader := .wait } := by
  obtain ⟨htaken, hread, hn⟩ : g.freeTaken = g.readTotal + n ∧ g.inputPos = g.readTotal + n ∧
      0 < n := by
    simpa only [RingView.ReaderInv, hpc] using h.reader
  have hopen := h.atEnd_of_reader (by simp [hpc])
  have hroom := h.inputPos_le_size
  have hacked := g.ackedBytes_le
  obtain ⟨q, hq, hholds, hend⟩ := h.data.pcProduce (n := n) (by omega)
  rw [hopen] at hend
  refine ⟨q, hq, { h with
    data := hholds
    reader := ⟨htaken, hread⟩
    ended := fun hend' => by rw [hend] at hend'; contradiction
    aligned_cut := h.aligned_cut.imp_right fun hcut => by simp [hopen] at hcut
    cutter := h.cutterInv_data (Nat.le_add_right _ _) (h.not_ended (by simp [hpc])) }⟩

end Reader

section Cutter

variable {i n bytes : ℕ}

/-- `makeSlice` is called. -/
theorem startCutter (hpc : g.cutter = .idle) : RingInv { g with cutter := .consumeSlot } := by
  have hallocated := h.allocated_eq
  have htaken := h.taken_le
  have hencoded := h.encoded_eq
  have hno := h.sliceNo
  simp only [hpc] at hallocated htaken hencoded hno
  exact { h with
    allocated_eq := hallocated
    taken_le := htaken
    encoded_eq := hencoded
    sliceNo := hno
    cutter := trivial }

/-- `makeSlice` finds a free slot. -/
theorem consumeSlot (hpc : g.cutter = .consumeSlot)
    (hn : pcConsume g.freeSlicesPc 1 = some n) : RingInv { g with cutter := .consumedSlot } := by
  have hallocated := h.allocated_eq
  have htaken := h.taken_le
  have hencoded := h.encoded_eq
  have hno := h.sliceNo
  simp only [hpc, CutterPc.making, CutterPc.encoding, CutterPc.numbered] at *
  rw [h.freeSlices.pcConsume_eq, h.freeSlices_open] at hn
  obtain ⟨hwaiting, -⟩ := Option.ite_none_right_eq_some.mp hn
  exact { h with
    allocated_eq := hallocated
    taken_le := htaken
    encoded_eq := hencoded
    sliceNo := hno
    cutter := by
      change g.cuts.length ≤ g.freed + 1
      simp at hwaiting
      omega }

/-- The slot that is taken next is that of the next slice. -/
theorem slot_eq (hpc : g.cutter = .consumedSlot) :
    pcGetConsumerPosition g.freeSlicesPc = g.cuts.length % 2 := by
  have hallocated := h.allocated_eq
  rw [hpc] at hallocated
  rw [h.freeSlices.consumerPosition_eq, hallocated]
  rfl

/-- The assertion of `makeSlice`. -/
theorem slot_free (hpc : g.cutter = .consumedSlot) : (g.slices (g.cuts.length % 2)).state = .free := by
  have hlength : g.cuts.length ≤ g.freed + 1 := by
    simpa only [RingView.CutterInv, hpc] using h.cutter
  have hfreed := h.freed_le
  have hacked := h.acked_le
  have htaken := h.taken_le
  exact (h.slots g.cuts.length (by omega) (by omega)).state_free le_rfl

/-- The slot that is being filled. -/
theorem slot_making (hmaking : g.cutter.making = 1) :
    (g.slices (g.cuts.length % 2)).state = .free := by
  have hallocated := h.allocated_eq
  have hle := h.freeSlices.consumed_le
  have hfreed := h.freed_le
  have hacked := h.acked_le
  have htaken := h.taken_le
  exact (h.slots g.cuts.length (by omega) (by omega)).state_free le_rfl

/-- `makeSlice` takes the free slot. -/
theorem consumedSlot (hpc : g.cutter = .consumedSlot) :
    RingInv { g with
      freeSlicesPc := pcConsumed g.freeSlicesPc 1
      allocated := g.allocated + 1
      cutter := .consumeData (g.cuts.length % 2)
      slices := Function.update g.slices (g.cuts.length % 2) ⟨0, 0, 0, .free⟩ } := by
  have hlength : g.cuts.length ≤ g.freed + 1 := by
    simpa only [RingView.CutterInv, hpc] using h.cutter
  have hallocated := h.allocated_eq
  have htaken := h.taken_le
  have hencoded := h.encoded_eq
  have hno := h.sliceNo
  have hfreed := h.freed_le
  have hacked := h.acked_le
  simp only [hpc, CutterPc.making, CutterPc.encoding, CutterPc.numbered] at *
  exact { h with
    allocated_eq := by dsimp only [CutterPc.making]; omega
    taken_le := htaken
    encoded_eq := hencoded
    sliceNo := hno
    freeSlices := h.freeSlices.pcConsumed (by omega)
    slots := by
      intro j hj hj'
      dsimp only at hj hj' ⊢
      rcases eq_or_ne j g.cuts.length with rfl | hne
      · rw [Function.update_self]
        exact ⟨fun _ => rfl, by omega, by omega, by omega, by omega, by omega, by omega⟩
      · rw [Function.update_of_ne (by omega)]
        exact h.slots j hj hj'
    cutter := rfl }

/-- Choosing the size of a slice: it is made up of whole blocks unless it takes all that is left. -/
theorem consumeData (hpc : g.cutter = .consumeData i) (hbytes : bytes ≤ pcGetWaiting g.data)
    (haligned : g.blockSize ∣ bytes ∨ bytes = pcGetWaiting g.data ∧ g.data.atEnd = true) :
    RingInv { g with
      sliceNo := g.sliceNo + 1
      cutter := .consumedData i
      slices := Function.update g.slices i
        ⟨pcGetConsumerPosition g.data, g.sliceNo, bytes, (g.slices i).state⟩ } := by
  obtain rfl : i = g.cuts.length % 2 := by simpa only [RingView.CutterInv, hpc] using h.cutter
  have hallocated := h.allocated_eq
  have htaken := h.taken_le
  have hencoded := h.encoded_eq
  have hno := h.sliceNo
  have hfreed := h.freed_le
  have hacked := h.acked_le
  have hcut := h.cut_le_read
  have hlength := h.freeSlices.consumed_le
  rw [h.data.pcGetWaiting_eq] at hbytes haligned
  simp only [hpc, CutterPc.making, CutterPc.encoding, CutterPc.numbered] at *
  exact { h with
    allocated_eq := hallocated
    taken_le := htaken
    encoded_eq := hencoded
    sliceNo := by dsimp only [CutterPc.numbered]; omega
    slots := by
      intro j hj hj'
      dsimp only at hj hj' ⊢
      rcases eq_or_ne j g.cuts.length with rfl | hne
      · rw [Function.update_self]
        have hfree := (h.slots _ hj hj').state_free le_rfl
        exact ⟨fun _ => hfree, by omega, by omega, by omega, by omega, by omega, by omega⟩
      · rw [Function.update_of_ne (by omega)]
        exact h.slots j hj hj'
    cutter := by
      unfold RingView.CutterInv
      dsimp only
      rw [Function.update_self]
      refine ⟨rfl, hno, h.data.consumerPosition_eq, by dsimp only; omega,
        haligned.imp_right fun hall => ⟨by dsimp only; omega, hall.2⟩⟩ }

/-- Cutting a slice, and what the thread does next inside and outside FEC mode. -/
theorem consumedData {pc : CutterPc} {taken : ℕ} (hpc : g.cutter = .consumedData i)
    (hnext : g.fec = true ∧ pc = .encode i ∧ taken = g.taken ∨
      g.fec = false ∧ pc = .idle ∧ taken = g.taken + 1) :
    RingInv { g with
      data := pcConsumed g.data (g.slices i).bytes
      cuts := g.cuts ++ [(g.slices i).bytes]
      cutter := pc
      taken := taken
      slices := Function.update g.slices i { g.slices i with state := .new } } := by
  obtain ⟨hi, hslot, hbase, hle, halign⟩ : i = g.cuts.length % 2 ∧
      (g.slices i).sliceNo = g.cuts.length ∧ (g.slices i).base = g.cuts.sum % g.dataBufSize ∧
      g.cuts.sum + (g.slices i).bytes ≤ g.readTotal ∧ (g.blockSize ∣ (g.slices i).bytes ∨
        g.cuts.sum + (g.slices i).bytes = g.readTotal ∧ g.data.atEnd = true) := by
    simpa only [RingView.CutterInv, hpc] using h.cutter
  generalize hbytes : (g.slices i).bytes = bytes at *
  have hallocated := h.allocated_eq
  have htaken := h.taken_le
  have hencoded := h.encoded_eq
  have hno := h.sliceNo
  have hfreed := h.freed_le
  have hacked := h.acked_le
  have hfec := h.fecData
  have hnotFec := h.notFec
  have hlength := h.freeSlices.consumed_le
  have hsum : (g.cuts ++ [bytes]).sum = g.cuts.sum + bytes := by simp
  have hlen : (g.cuts ++ [bytes]).length = g.cuts.length + 1 := by simp
  have hstart : ∀ j ≤ g.cuts.length, startOf (g.cuts ++ [bytes]) j = startOf g.cuts j :=
    fun j hj => startOf_append hj
  simp only [hpc, CutterPc.making, CutterPc.encoding, CutterPc.numbered] at *
  have hackedBytes : startOf (g.cuts ++ [bytes]) g.acked = startOf g.cuts g.acked :=
    hstart _ (by omega)
  have hstep : pc.making = 0 ∧ pc.numbered = 0 ∧ taken + pc.encoding ≤ g.cuts.length + 1 ∧
      g.taken ≤ taken ∧ (g.fec = true → taken = g.taken ∧ pc.encoding = 1) ∧
      (g.fec = false → taken = g.taken + 1) := by
    rcases hnext with ⟨hf, rfl, rfl⟩ | ⟨hf, rfl, rfl⟩
    · exact ⟨rfl, rfl, by dsimp only [CutterPc.encoding]; omega, le_rfl, fun _ => ⟨rfl, rfl⟩,
        by simp [hf]⟩
    · exact ⟨rfl, rfl, by dsimp only [CutterPc.encoding]; omega, by omega, by simp [hf],
        fun _ => rfl⟩
  obtain ⟨hmaking, hnumbered, htaken', hle', hfecNext, hnotFecNext⟩ := hstep
  exact { h with
    acked_le := by dsimp only; omega
    taken_le := by dsimp only; omega
    allocated_eq := by dsimp only; omega
    encoded_eq := fun hf => by
      have := hencoded hf
      have := hfecNext hf
      dsimp only
      omega
    freeMem := by
      dsimp only [RingView.ackedBytes]
      rw [hackedBytes]
      exact h.freeMem
    data := by
      dsimp only
      rw [hsum]
      exact h.data.pcConsumed hle
    fecData := fun hf => by
      rw [(hfecNext hf).1]
      exact hfec hf
    notFec := fun hf => by
      have := hnotFec hf
      have := hnotFecNext hf
      dsimp only
      omega
    sliceNo := by dsimp only; omega
    slots := by
      intro j hj hj'
      dsimp only at hj hj' ⊢
      rcases eq_or_ne j g.cuts.length with rfl | hne
      · rw [hi, Function.update_self, ← hi]
        exact ⟨by omega, fun _ => hslot, fun _ => by simp [hbytes],
          fun _ => by rw [hstart _ le_rfl, startOf_length]; exact hbase, by omega,
          fun _ _ => .inl rfl, fun _ _ => rfl⟩
      · rw [Function.update_of_ne (by omega)]
        have hold := h.slots j hj hj'
        refine ⟨fun hle => hold.state_free (by omega), fun hlt => hold.sliceNo_eq (by omega),
          fun hlt => ?_, fun hlt => ?_, hold.state_acked,
          fun hge hlt => ?_, fun hge hlt => hold.state_new (by omega) (by omega)⟩
        · rw [List.getD_append _ _ _ _ (by omega)]
          exact hold.bytes_eq (by omega)
        · rw [hstart j (by omega)]
          exact hold.base_eq (by omega)
        · apply hold.state_taken hge
          cases hf : g.fec with
          | true =>
            have := hfecNext hf
            omega
          | false =>
            have := hnotFec hf
            have := hnotFecNext hf
            omega
    aligned := by
      intro j hj
      dsimp only at hj ⊢
      rcases Nat.lt_or_ge g.cuts.length j with hgt | hle
      · rw [startOf, List.take_of_length_le (by omega)] at hj
        omega
      · rw [hsum] at hj
        rw [hstart j hle] at hj ⊢
        rcases Nat.lt_or_ge (startOf g.cuts j) g.cuts.sum with hlt | hge
        · exact h.aligned j hlt
        · rw [le_antisymm (startOf_le_sum j) hge]
          exact h.aligned_cut.resolve_right fun hcut => by omega
    aligned_cut := by
      dsimp only
      rw [hsum]
      rcases h.aligned_cut with hdvd | ⟨heq, hend⟩
      · exact halign.imp_left (Nat.dvd_add hdvd)
      · exact .inr ⟨by omega, hend⟩
    content := by
      dsimp only [RingView.ackedBytes]
      rw [hackedBytes]
      exact h.content
    reader := by
      have hreader := h.reader
      unfold RingView.ReaderInv RingView.ackedBytes at hreader ⊢
      dsimp only
      rw [hackedBytes]
      exact hreader
    cutter := by
      rcases hnext with ⟨hf, rfl, -⟩ | ⟨-, rfl, -⟩
      · exact ⟨hf, by dsimp only; rw [hlen, Nat.add_sub_cancel]; exact hi⟩
      · trivial }

/-- The padding of the last block goes into cells that hold nothing. -/
theorem padding_free (hpc : g.cutter = .encode i) {p lastBlock : ℕ}
    (hlast : lastBlock = ((g.slices i).base +
      (((g.slices i).bytes + g.blockSize - 1) / g.blockSize - 1) * g.blockSize) % g.dataBufSize)
    (hleft : (g.slices i).bytes % g.blockSize ≠ 0) (hp : g.ackedBytes ≤ p) (hlt : p < g.inputPos) :
    ¬(lastBlock + (g.slices i).bytes % g.blockSize ≤ p % g.dataBufSize ∧
      p % g.dataBufSize < lastBlock + g.blockSize) := by
  rintro ⟨hge, hle⟩
  obtain ⟨-, rfl⟩ : g.fec = true ∧ i = (g.cuts.length - 1) % 2 := by
    simpa only [RingView.CutterInv, hpc] using h.cutter
  have hfreed := h.freed_le
  have hacked := h.acked_le
  have htaken := h.taken_le
  have hlength := h.length_le
  have hbs := h.blockSize_pos
  simp only [hpc, CutterPc.encoding] at htaken
  obtain ⟨N, hN⟩ : ∃ N, g.cuts.length = N + 1 := ⟨g.cuts.length - 1, by omega⟩
  simp only [hN, Nat.add_sub_cancel] at hlast hleft hge
  have hslot := h.slots N (by omega) (by omega)
  have hbytes := hslot.bytes_eq (by omega)
  have hbase := hslot.base_eq (by omega)
  have hcut : startOf g.cuts N + g.cuts.getD N 0 = g.cuts.sum := by
    rw [← startOf_succ (by omega), ← hN, startOf_length]
  rw [← hbytes] at hcut
  generalize (g.slices (N % 2)).bytes = bytes at *
  have hdivmod := Nat.div_add_mod bytes g.blockSize
  have hr := Nat.mod_lt bytes hbs
  -- the slice starts at a multiple of the block size and is the last one
  obtain ⟨a, ha⟩ := h.aligned N (by omega)
  obtain ⟨hread, hend⟩ : g.cuts.sum = g.readTotal ∧ g.data.atEnd = true := by
    refine h.aligned_cut.resolve_left fun hdvd => hleft ?_
    rw [← hcut, ha] at hdvd
    exact Nat.mod_eq_zero_of_dvd ((Nat.dvd_add_right (Nat.dvd_mul_right ..)).mp hdvd)
  have hinput : g.inputPos = g.readTotal := by
    have hreader := h.reader
    simp only [RingView.ReaderInv, (h.ended hend).1] at hreader
    exact hreader.2
  -- so its last block is a whole block between the end of the input and the acknowledged part
  obtain ⟨c, hc⟩ : g.blockSize ∣ g.ackedBytes :=
    h.aligned _ ((startOf_mono (show g.acked ≤ N by omega)).trans_lt (by omega))
  have hroom := h.inputPos_le_size
  rw [hbase, ha, h.size_eq, lastBlock_eq hbs hleft] at hlast
  have hstart : g.blockSize * a + g.blockSize * (bytes / g.blockSize) =
      g.blockSize * (a + bytes / g.blockSize) := by
    rw [Nat.mul_add]
  have hblock : g.blockSize * (a + bytes / g.blockSize) + g.blockSize ≤
      g.blockSize * (4096 + c) := by
    rw [← Nat.mul_succ]
    refine Nat.mul_le_mul_left _ (Nat.lt_of_mul_lt_mul_left (a := g.blockSize) ?_)
    rw [← hstart, Nat.mul_add, ← hc, ← h.size_eq]
    omega
  rw [Nat.mul_add g.blockSize 4096, ← hc, ← h.size_eq] at hblock
  have hcell : (g.blockSize * (a + bytes / g.blockSize) + (p % g.dataBufSize - lastBlock)) %
      g.dataBufSize = p % g.dataBufSize := by
    have hmod : g.blockSize * (a + bytes / g.blockSize) % g.dataBufSize = lastBlock := by
      rw [h.size_eq, Nat.mul_mod_mul_left, hlast]
    rw [← Nat.mod_add_mod, hmod, Nat.add_sub_cancel' (by omega), Nat.mod_mod]
  have hne : p % g.dataBufSize ≠ (g.blockSize * (a + bytes / g.blockSize) +
      (p % g.dataBufSize - lastBlock)) % g.dataBufSize := mod_ne_of_lt (by omega) (by omega)
  exact hne hcell.symm

/-- FEC encoding may change bytes of the ring that hold no input. -/
theorem encode (hpc : g.cutter = .encode i) {mem : ℕ → Gf}
    (hmem : ∀ p, g.ackedBytes ≤ p → p < g.inputPos →
      mem (p % g.dataBufSize) = g.dataBuffer (p % g.dataBufSize)) :
    RingInv { g with dataBuffer := mem, cutter := .produceFec } := by
  obtain ⟨hfec, -⟩ : g.fec = true ∧ i = (g.cuts.length - 1) % 2 := by
    simpa only [RingView.CutterInv, hpc] using h.cutter
  have hallocated := h.allocated_eq
  have htaken := h.taken_le
  have hencoded := h.encoded_eq
  have hno := h.sliceNo
  simp only [hpc, CutterPc.making, CutterPc.encoding, CutterPc.numbered] at *
  exact { h with
    allocated_eq := hallocated
    taken_le := htaken
    encoded_eq := hencoded
    sliceNo := hno
    content := fun p hp hlt => (hmem p hp hlt).trans (h.content p hp hlt)
    cutter := hfec }

/-- The FEC thread announces an encoded slice, and there is room for it. -/
theorem produceFec (hpc : g.cutter = .produceFec) :
    ∃ q, pcProduce g.fecDataPc 1 = some q ∧
      RingInv { g with fecDataPc := q, encoded := g.encoded + 1, cutter := .consumeSlot } := by
  have hfec : g.fec = true := by simpa only [RingView.CutterInv, hpc] using h.cutter
  have hallocated := h.allocated_eq
  have htaken := h.taken_le
  have hencoded := h.encoded_eq hfec
  have hno := h.sliceNo
  have hfreed := h.freed_le
  have hacked := h.acked_le
  have hlength := h.length_le
  simp only [hpc, CutterPc.making, CutterPc.encoding, CutterPc.numbered] at *
  obtain ⟨q, hq, hholds, hend⟩ := (h.fecData hfec).pcProduce (n := 1) (by omega)
  exact ⟨q, hq, { h with
    allocated_eq := hallocated
    taken_le := by dsimp only [CutterPc.encoding]; omega
    encoded_eq := fun _ => by dsimp only [CutterPc.encoding]; omega
    sliceNo := hno
    fecData := fun _ => hholds
    fecData_open := by dsimp only; rw [hend, h.fecData_open]
    notFec := by simp [hfec]
    cutter := trivial }⟩

end Cutter

section Net

variable {j n : ℕ}

/-- What the cutter knows stays true when slots change their state or are freed. -/
theorem cutterInv_setState {q q' : Produconsum} {acked freed i : ℕ} {state : SliceState}
    (hle : g.freed ≤ freed) :
    RingView.CutterInv { g with
      freeMemQueue := q, freeSlicesPc := q', acked := acked, freed := freed
      slices := Function.update g.slices i { g.slices i with state := state } } := by
  have hcutter := h.cutter
  unfold RingView.CutterInv at hcutter ⊢
  cases hc : g.cutter with
  | consumedSlot =>
    simp only [hc] at hcutter ⊢
    omega
  | consumedData k =>
    simp only [hc] at hcutter ⊢
    rcases eq_or_ne k i with rfl | hne
    · rw [Function.update_self]
      exact hcutter
    · rw [Function.update_of_ne hne]
      exact hcutter
  | consumeSlot | idle => trivial
  | _ => simpa only [hc] using hcutter

/-- Giving back the bytes of the slice that is acknowledged next. -/
theorem ack (hlt : g.acked < g.taken) :
    ∃ q, pcProduce g.freeMemQueue (g.slices (g.acked % 2)).bytes = some q ∧
      RingInv { g with
        acked := g.acked + 1
        freeMemQueue := q
        slices := Function.update g.slices (g.acked % 2)
          { g.slices (g.acked % 2) with state := .acked } } := by
  have hfreed := h.freed_le
  have htaken := h.taken_le
  have hlength := h.length_le
  have hslot := h.slots g.acked hfreed (by omega)
  have hbytes := hslot.bytes_eq (by omega)
  have hsucc : startOf g.cuts (g.acked + 1) = startOf g.cuts g.acked + g.cuts.getD g.acked 0 :=
    startOf_succ (by omega)
  rw [← hbytes] at hsucc
  have hcut : startOf g.cuts (g.acked + 1) ≤ g.cuts.sum := startOf_le_sum _
  have hle := h.cut_le_read
  have hread := h.read_le_taken
  obtain ⟨q, hq, hholds, -⟩ := h.freeMem.pcProduce (n := (g.slices (g.acked % 2)).bytes)
    (by rw [RingView.ackedBytes]; omega)
  refine ⟨q, hq, { h with
    freed_le := Nat.le_succ_of_le hfreed
    acked_le := hlt
    freeMem := by
      dsimp only [RingView.ackedBytes] at hholds ⊢
      rw [hsucc, ← Nat.add_assoc]
      exact hholds
    slots := ?_
    content := fun p hp => h.content p ((startOf_mono (Nat.le_succ _)).trans hp)
    reader := ?_
    cutter := ?_ }⟩
  · intro j hj hj'
    dsimp only at hj hj' ⊢
    rcases eq_or_ne j g.acked with rfl | hne
    · rw [Function.update_self]
      exact ⟨by omega, hslot.sliceNo_eq, hslot.bytes_eq, hslot.base_eq, fun _ => .inl rfl, by omega,
        by omega⟩
    · rw [Function.update_of_ne (by omega)]
      have hold := h.slots j hj hj'
      exact { hold with
        state_acked := fun hlt' => hold.state_acked (by omega)
        state_taken := fun hge => hold.state_taken (by omega) }
  · have hmono : startOf g.cuts g.acked ≤ startOf g.cuts (g.acked + 1) :=
      startOf_mono (Nat.le_succ _)
    have hreader := h.reader
    unfold RingView.ReaderInv RingView.ackedBytes at hreader ⊢
    cases hpc : g.reader with
    | read pos bytes =>
      simp only [hpc] at hreader ⊢
      exact ⟨hreader.1, hreader.2.1, hreader.2.2.1, hreader.2.2.2.1, hreader.2.2.2.2.1, by omega⟩
    | commit n =>
      simp only [hpc] at hreader ⊢
      exact ⟨hreader.1, hreader.2.1, by omega, hreader.2.2.2⟩
    | _ => simpa only [hpc] using hreader
  · exact h.cutterInv_setState le_rfl

/-- The oldest slice that is acknowledged is about to be freed. -/
theorem preFree (hlt : g.freed < g.acked) :
    RingInv { g with
      slices := Function.update g.slices (g.freed % 2)
        { g.slices (g.freed % 2) with state := .preFree } } := by
  have hacked := h.acked_le
  have htaken := h.taken_le
  exact { h with
    slots := by
      intro j hj hj'
      dsimp only at hj hj' ⊢
      rcases eq_or_ne j g.freed with rfl | hne
      · rw [Function.update_self]
        have hold := h.slots g.freed le_rfl (by omega)
        exact ⟨by omega, hold.sliceNo_eq, hold.bytes_eq, hold.base_eq, fun _ => .inr rfl, by omega,
          by omega⟩
      · rw [Function.update_of_ne (by omega)]
        exact h.slots j hj hj'
    cutter := h.cutterInv_setState le_rfl }

/-- Giving back the slot of an acknowledged slice. -/
theorem free (hlt : g.freed < g.acked) :
    ∃ q, pcProduce g.freeSlicesPc 1 = some q ∧
      RingInv { g with
        freeSlicesPc := q
        freed := g.freed + 1
        slices := Function.update g.slices (g.freed % 2)
          { g.slices (g.freed % 2) with state := .free } } := by
  have hacked := h.acked_le
  have htaken := h.taken_le
  have hallocated := h.allocated_eq
  have hlength := h.length_le
  obtain ⟨q, hq, hholds, hend⟩ := h.freeSlices.pcProduce (n := 1) (by omega)
  exact ⟨q, hq, { h with
    freed_le := hlt
    freeSlices := hholds
    freeSlices_open := by dsimp only; rw [hend, h.freeSlices_open]
    slots := by
      intro j hj hj'
      dsimp only at hj hj' ⊢
      rcases eq_or_ne j (g.freed + 2) with rfl | hne
      · rw [Nat.add_mod_right, Function.update_self]
        exact ⟨fun _ => rfl, by omega, by omega, by omega, by omega, by omega, by omega⟩
      · rw [Function.update_of_ne (by omega)]
        exact h.slots j (by omega) (by omega)
    cutter := h.cutterInv_setState (Nat.le_succ _) }⟩

/-- A slice that has been sent is still not acknowledged. -/
theorem xmitted (hacked : g.acked ≤ j) (hlt : j < g.taken) :
    RingInv { g with
      slices := Function.update g.slices (j % 2) { g.slices (j % 2) with state := .xmitted } } := by
  have hfreed := h.freed_le
  have htaken := h.taken_le
  have hlength := h.length_le
  exact { h with
    slots := by
      intro k hk hk'
      dsimp only at hk hk' ⊢
      rcases eq_or_ne k j with rfl | hne
      · rw [Function.update_self]
        have hold := h.slots k hk hk'
        exact ⟨by omega, hold.sliceNo_eq, hold.bytes_eq, hold.base_eq, by omega,
          fun _ _ => .inr rfl, by omega⟩
      · rw [Function.update_of_ne (by omega)]
        exact h.slots k hk hk'
    cutter := h.cutterInv_setState le_rfl }

/-- An encoded slice is waiting. -/
theorem taken_lt (hfec : g.fec = true) (hn : pcConsume g.fecDataPc 1 = some n) :
    g.taken < g.encoded := by
  rw [(h.fecData hfec).pcConsume_eq, h.fecData_open] at hn
  obtain ⟨hwaiting, -⟩ := Option.ite_none_right_eq_some.mp hn
  simp only [Bool.false_eq_true, or_false] at hwaiting
  omega

/-- Only encoded slices are taken for transmission. -/
theorem takeFec (hfec : g.fec = true) (hn : pcConsume g.fecDataPc 1 = some n) :
    RingInv { g with fecDataPc := pcConsumed g.fecDataPc 1, taken := g.taken + 1 } := by
  have htaken := h.taken_le
  have hencoded := h.encoded_eq hfec
  have hacked := h.acked_le
  have hlt := h.taken_lt hfec hn
  exact { h with
    acked_le := Nat.le_succ_of_le hacked
    taken_le := by dsimp only; omega
    fecData := fun _ => (h.fecData hfec).pcConsumed hlt
    notFec := by simp [hfec]
    slots := by
      intro j hj hj'
      have hold := h.slots j hj hj'
      refine { hold with
        state_taken := fun hge hlt' => ?_
        state_new := fun hge => hold.state_new (Nat.le_of_succ_le hge) }
      rcases Nat.lt_or_ge j g.taken with hold' | hnew
      · exact hold.state_taken hge hold'
      · exact .inl (hold.state_new hnew (by dsimp only at hlt'; omega)) }

/-- The queue of free memory is ended. -/
theorem produceEnd : RingInv { g with freeMemQueue := pcProduceEnd g.freeMemQueue } :=
  { h with freeMem := h.freeMem.pcProduceEnd }

end Net

end RingInv

end Udpcast.Sender
