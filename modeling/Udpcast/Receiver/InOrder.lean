import Udpcast.Receiver.Memory
import Udpcast.Receiver.Passed
import Udpcast.Receiver.ReadySet

/-!
# Receiving block by block

A receiver that gets the slices one after the other, and the blocks of each one in order, completes
them one by one, as long as there is memory for the next one. So a stream can be received up to its
end, whatever its length.
-/

namespace Udpcast.Receiver

open Fec (Gf Block)
open Queue
open Protocol

variable {st : Stream} {s s' : State} {t : Task} {rest : List Task} {i k b w : ℕ}

/-- What stays the same while blocks arrive: `w` bytes have come back from the writer. -/
structure Quiet (st : Stream) (w : ℕ) (s : State) : Prop where
  reachable : (system st defaultMode).Reachable s
  running : s.failure = none
  noFec : s.useFec = false
  goesOn : s.endReached = 0
  newgen : s.config.senderIsNewgen = true
  client : s.config.clientNumber = 0
  waits : s.writer = .wait
  returned : s.memReturned = w

/-- The part of the state that `Quiet` is about. -/
def State.calm (s : State) : Option Failure × Bool × ℕ × Config × WriterPc × ℕ :=
  (s.failure, s.useFec, s.endReached, s.config, s.writer, s.memReturned)

/-- A step that leaves this part of the state alone. -/
theorem Quiet.step {a : Action} (h : Quiet st w s) (hact : act s a = some s')
    (hconforms : a.Conforms st) (hcalm : s'.calm = s.calm) : Quiet st w s' := by
  simp only [State.calm, Prod.mk.injEq] at hcalm
  obtain ⟨hfailure, huse, hend, hconfig, hwriter, hmem⟩ := hcalm
  refine ⟨h.reachable.step ⟨a, hconforms, hact⟩, hfailure.trans h.running, huse.trans h.noFec,
    hend.trans h.goesOn, ?_, ?_, hwriter.trans h.waits, hmem.trans h.returned⟩
  · rw [hconfig, h.newgen]
  · rw [hconfig, h.client]

/-- A step of the network thread at its current task. -/
theorem Quiet.net {u : State} (h : Quiet st w s) (ht : s.tasks = t :: rest)
    (hrun : runTask (s.popped rest) t = some u) (hcalm : u.calm = s.calm) : Quiet st w u := by
  refine h.step (a := .net) ?_ trivial hcalm
  rw [act, if_pos h.running]
  simp only [netStep, ht]
  exact hrun

/-- The slots before `k` have been given back, and the slice in slot `k` is next. -/
structure Between (st : Stream) (k w : ℕ) (s : State) : Prop extends Quiet st w s where
  started : s.started = k
  freed : s.freed = k
  received : s.receivedSliceNo + 1 = k

/-- The first `b` blocks of slice `k` have arrived. -/
structure Filling (st : Stream) (k b w : ℕ) (s : State) : Prop extends Quiet st w s where
  started : s.started = k + 1
  freed : s.freed = k
  received : s.receivedSliceNo + 1 = k
  receiving : (s.slices (k % nrSlices)).state = .receiving
  map : (s.slices (k % nrSlices)).map = Finset.range b
  fecStripes : (s.slices (k % nrSlices)).fecStripes = 0

/-- Slice `k` is complete. -/
structure Filled (st : Stream) (k w : ℕ) (s : State) : Prop extends Quiet st w s where
  started : s.started = k + 1
  freed : s.freed = k
  done : (s.slices (k % nrSlices)).state = .done
  size : (s.slices (k % nrSlices)).bytes = st.size k

/-! ## One block -/

/-- The size of a slice is noted, unless it is known. -/
theorem setSliceBytes_agrees {bytes : ℕ} (hpos : bytes ≠ 0) (hoff : s.streaming = false)
    (hknown : (s.slices i).bytesKnown = true → (s.slices i).bytes = bytes) :
    ∃ q taken, setSliceBytes s i bytes = .ok { s with
      slices := Function.update s.slices i { s.slices i with bytesKnown := true, bytes := bytes }
      freeMemQueue := q, memTaken := taken } := by
  unfold setSliceBytes
  cases hbytes : (s.slices i).bytesKnown with
  | true =>
    have hsame : { s.slices i with bytesKnown := true, bytes := bytes } = s.slices i := by
      rw [← hbytes, ← hknown hbytes]
    refine ⟨s.freeMemQueue, s.memTaken, ?_⟩
    simp only [hbytes, if_true, hknown hbytes, hsame, Function.update_eq_self]
  | false =>
    refine ⟨pcConsumed s.freeMemQueue bytes, s.memTaken + bytes, ?_⟩
    simp only [hbytes, Bool.false_eq_true, if_false, hpos, State.setSlice, hoff]

/-- A new block is counted, and the slice may be complete. -/
theorem processDataBlock_new {n bytes : ℕ} (hreceiving : (s.slices i).state = .receiving)
    (hno : (n : ℤ) ≤ s.currentSliceNo + 2) (hb : b ∉ (s.slices i).map)
    (hbase : (s.slices i).base % s.config.blockSize = 0) (hnewgen : s.config.senderIsNewgen = true)
    (hpos : bytes ≠ 0) (hstripes : (s.slices i).fecStripes = 0) (hoff : s.streaming = false)
    (hknown : (s.slices i).bytesKnown = true → (s.slices i).bytes = bytes) :
    ∃ mem blocks q taken pos,
      processDataBlock s i n b bytes = checkSliceComplete { s with
        dataBuffer := mem, blockData := blocks, freeMemQueue := q, memTaken := taken
        slices := Function.update s.slices i { s.slices i with
          bytesKnown := true, bytes := bytes, map := insert b (s.slices i).map
          dataBlocksTransferred := (s.slices i).dataBlocksTransferred + 1
          blocksTransferred := (s.slices i).blocksTransferred + 1, freePos := pos } } i := by
  obtain ⟨mem, blocks, hcopy⟩ := copyBlock_eq (s := s) (.ring (adr s (s.slices i) b))
  obtain ⟨q, taken, hset⟩ := setSliceBytes_agrees (s := { s with
    dataBuffer := mem, blockData := blocks }) hpos hoff hknown
  refine ⟨mem, blocks, q, taken, skipReceived (insert b (s.slices i).map)
    (maxSliceSize - (s.slices i).freePos) (s.slices i).freePos, ?_⟩
  unfold processDataBlock
  simp only
  rw [if_neg (by simp [hreceiving]), if_neg (by omega), if_neg hb, if_neg (by simp [hbase]), hcopy,
    noteBytes]
  simp only [hnewgen, hpos, if_true, ne_eq, not_false_eq_true]
  rw [hset]
  simp only [Except.bind, countData, countArrival, Function.update_self, hstripes, if_true,
    State.setSlice, Function.update_idem]

/-- The facts about running receivers are at hand. -/
theorem Quiet.settled (h : Quiet st w s) : Settled st s := settled_of_reachable h.reachable h.running

/-- So is the account of the memory. -/
theorem Quiet.memory (h : Quiet st w s) (hst : st.Valid) : Memory st s :=
  memory_of_reachable hst h.reachable h.running

/-- Nothing is being released. -/
theorem Quiet.released (h : Quiet st w s) (hnet : ∀ pos bytes rest, s.tasks ≠ .freeSlot pos bytes :: rest) :
    s.released = st.start s.freed := by
  apply (released_of_reachable h.reachable h.running).idle
  rintro (⟨pos, bytes, rest, hcontra⟩ | ⟨pos, bytes, hcontra⟩)
  · exact hnet pos bytes rest hcontra
  · rw [h.settled.window.slots.fecAbsent.mp h.noFec] at hcontra
    cases hcontra

/-- The writer holds nothing back. -/
theorem Quiet.written (h : Quiet st w s) (hst : st.Valid) : s.written = w := by
  have hreturned := (h.memory hst).returned
  have howed : s.writer.owed = 0 := by
    rw [h.waits]
    rfl
  rw [← hreturned, howed, h.returned, Nat.add_zero]

/-- The slice being received is the current one. -/
theorem Filling.current (h : Filling st k b w s) :
    s.currentSlice = some (k % nrSlices) ∧ s.currentSliceNo = k ∧
      (s.slices (k % nrSlices)).sliceNo = k := by
  have hs := h.settled
  have hnumbered := hs.plain.numbered
  have hstarted := h.started
  have hcurrent := hs.window.slots.current
  rw [h.started, if_neg (by omega), Nat.add_sub_cancel] at hcurrent
  refine ⟨hcurrent, by omega, hs.sliceNo_eq (by omega) (by simp [nrSlices]; omega)⟩

/-- A message about the slice that is being received is given to its slot. -/
theorem Filling.deliver {msg : ServerMsg} (h : Filling st k b w s) (hidle : s.tasks = [])
    (hsends : st.Sends msg) (hmsg : dispatch msg = [.findSlice k, .process msg]) :
    ∃ s', Filling st k b w s' ∧ s'.tasks = [.process msg] ∧ s'.found = some (k % nrSlices) := by
  obtain ⟨hcurrent, hcurrentNo, hno⟩ := h.current
  obtain ⟨mem, blocks, hstore⟩ := storePayload_eq s msg
  have hreceived : Quiet st w { s with
      isAddress := landing s, dataBuffer := mem, blockData := blocks
      tasks := [.findSlice k, .process msg] } := by
    refine h.toQuiet.step (a := .receive msg) ?_ hsends rfl
    rw [act, if_pos h.running]
    simp only [receiveStep, hidle, h.goesOn, hstore, hmsg, State.enter]
    rfl
  have hscan := hreceived.net (u := { s with
      isAddress := landing s, dataBuffer := mem, blockData := blocks
      tasks := [.scan k (k % nrSlices), .process msg] }) rfl ?_ rfl
  · have hfound := hscan.net (u := { s with
        isAddress := landing s, dataBuffer := mem, blockData := blocks
        found := some (k % nrSlices), tasks := [.process msg] }) rfl ?_ rfl
    · exact ⟨_, ⟨hfound, h.started, h.freed, h.received, h.receiving, h.map, h.fecStripes⟩, rfl, rfl⟩
    · simp only [runTask, scanSlot, State.popped, hno, if_true]
  · simp only [runTask, findSlice, State.popped, hcurrent, hcurrentNo, le_refl, if_true,
      State.enter, List.cons_append, List.nil_append]

/-- The slices of the input are not empty. -/
theorem Filling.size_ne_zero (hst : st.Valid) (hk : k < st.cuts.length) : st.size k ≠ 0 := by
  have hmem : st.cuts.getD k 0 ∈ st.cuts := by
    rw [List.getD_eq_getElem _ _ hk]
    exact List.getElem_mem hk
  exact (hst.cut_pos _ hmem).ne'

/-- The next block is counted. -/
theorem Filling.count (h : Filling st k b w s) (hst : st.Valid) (hk : k < st.cuts.length) :
    ∃ mem blocks q taken slice,
      slice.state = .receiving ∧ slice.bytes = st.size k ∧ slice.map = Finset.range (b + 1) ∧
      slice.dataBlocksTransferred = ((b + 1 : ℕ) : ℤ) ∧
      slice.blocksTransferred = ((b + 1 : ℕ) : ℤ) ∧
      slice.fecStripes = 0 ∧
      processDataBlock (s.popped []) (k % nrSlices) k b (st.size k) = checkSliceComplete { s with
        tasks := [], dataBuffer := mem, blockData := blocks, freeMemQueue := q, memTaken := taken
        slices := Function.update s.slices (k % nrSlices) slice } (k % nrSlices) := by
  have hs := h.settled
  have hm := h.memory hst
  have hstarted := h.started
  have hfreed := h.freed
  obtain ⟨-, hcurrentNo, hno⟩ := h.current
  have hcounted := (hs.tracked (k := k) (by omega) (by simp [nrSlices]; omega)).counted
  have hbase := hm.base k (.inl (by omega)) (by omega)
  have hdata := hcounted.data
  have htransferred := hcounted.blocks
  rw [h.fecStripes, Finset.sum_range_zero, h.map, Finset.card_range, add_zero] at htransferred
  rw [h.map, Finset.card_range] at hdata
  have hdvd : (s.slices (k % nrSlices)).base % s.config.blockSize = 0 := by
    rw [hbase, hs.accounts.bufSize, hs.accounts.blockSize,
      Nat.mod_mod_of_dvd _ (Nat.dvd_mul_right ..)]
    exact Nat.mod_eq_zero_of_dvd (hst.dvd_start hk)
  have hnew : b ∉ (s.slices (k % nrSlices)).map := by
    rw [h.map]
    exact Finset.notMem_range_self
  have hsize : (s.slices (k % nrSlices)).bytesKnown = true →
      (s.slices (k % nrSlices)).bytes = st.size k := by
    intro hknown
    rw [hcounted.size hknown, hno, Int.toNat_natCast]
  have hahead : (k : ℤ) ≤ s.currentSliceNo + 2 := by omega
  obtain ⟨mem, blocks, q, taken, pos, hprocess⟩ :=
    processDataBlock_new (s := s.popped []) h.receiving hahead hnew hdvd h.newgen
      (Filling.size_ne_zero hst hk) h.fecStripes hs.plain.notStreaming hsize
  refine ⟨mem, blocks, q, taken, _, ?_, ?_, ?_, ?_, ?_, ?_, hprocess⟩
  · exact h.receiving
  · rfl
  · rw [State.popped, h.map]
    exact Finset.range_add_one.symm
  · rw [State.popped, hdata, Nat.cast_add, Nat.cast_one]
  · rw [State.popped, htransferred, Nat.cast_add, Nat.cast_one]
  · exact h.fecStripes

/-- A block that does not complete the slice. -/
theorem Filling.next (h : Filling st k b w s) (hidle : s.tasks = []) (hst : st.Valid)
    (hk : k < st.cuts.length) (hb : b + 1 < st.blocks k) :
    ∃ s', Filling st k (b + 1) w s' ∧ s'.tasks = [] := by
  obtain ⟨u, hu, htasks, hfound⟩ := h.deliver hidle (.data k b hk (by omega)) rfl
  obtain ⟨mem, blocks, q, taken, slice, hstate, hbytes, hmap, hdata, htransferred, hstripes, hprocess⟩ :=
    hu.count hst hk
  have hblocks : getSliceBlocks slice u.config = st.blocks k := by
    rw [getSliceBlocks, hbytes, hu.settled.accounts.blockSize]
    rfl
  have hrun := hu.net (u := { u with
    tasks := [], dataBuffer := mem, blockData := blocks, freeMemQueue := q, memTaken := taken
    slices := Function.update u.slices (k % nrSlices) slice }) htasks ?_ rfl
  · refine ⟨_, ⟨hrun, hu.started, hu.freed, hu.received, ?_, ?_, ?_⟩, rfl⟩
    · dsimp only
      rw [Function.update_self, hstate]
    · dsimp only
      rw [Function.update_self, hmap]
    · dsimp only
      rw [Function.update_self, hstripes]
  · have hincomplete : (getSliceBlocks slice u.config : ℤ) ≠ slice.blocksTransferred := by
      rw [hblocks, htransferred]
      omega
    have hfound' : (u.popped []).found = some (k % nrSlices) := hfound
    rw [runTask, process]
    simp only [hfound', hprocess, checkSliceComplete, Function.update_self, hincomplete, or_true,
      ne_eq, not_false_eq_true, if_true]
    rfl

/-- The last block completes the slice. -/
theorem Filling.last (h : Filling st k b w s) (hidle : s.tasks = []) (hst : st.Valid)
    (hk : k < st.cuts.length) (hb : b + 1 = st.blocks k) :
    ∃ s', Filled st k w s' ∧ s'.receivedPtr = k % nrSlices ∧
      s'.tasks = [.advanceReceivedPointer, .handOver (k % nrSlices)] := by
  obtain ⟨u, hu, htasks, hfound⟩ := h.deliver hidle (.data k b hk (by omega)) rfl
  obtain ⟨mem, blocks, q, taken, slice, hstate, hbytes, hmap, hdata, htransferred, hstripes, hprocess⟩ :=
    hu.count hst hk
  have hblocks : getSliceBlocks slice u.config = st.blocks k := by
    rw [getSliceBlocks, hbytes, hu.settled.accounts.blockSize]
    rfl
  have hlinked : Linked u u.receivedPtr := by
    apply hu.settled.pointer.linked hu.settled.plain.notStreaming
    rintro t rest ht
    obtain ⟨rfl, -⟩ := List.cons.inj (htasks.symm.trans ht)
    rfl
  obtain ⟨k', -, hptr, hrsn⟩ := hu.settled.linked_iff.mp hlinked
  obtain rfl : k = k' := by
    have := hu.received
    omega
  have hrun := hu.net (u := { u with
    tasks := [.advanceReceivedPointer, .handOver (k % nrSlices)], dataBuffer := mem
    blockData := blocks, freeMemQueue := q, memTaken := taken
    slices := Function.update u.slices (k % nrSlices) { slice with state := .done } }) htasks ?_ rfl
  · refine ⟨_, ⟨hrun, hu.started, hu.freed, ?_, ?_⟩, hptr, rfl⟩
    · dsimp only
      rw [Function.update_self]
    · dsimp only
      rw [Function.update_self, hbytes]
  · have hcomplete : (getSliceBlocks slice u.config : ℤ) = slice.blocksTransferred := by
      rw [hblocks, htransferred, hb]
    have hdone : (getSliceBlocks slice u.config : ℤ) = slice.dataBlocksTransferred := by
      rw [hblocks, hdata, hb]
    have hfound' : (u.popped []).found = some (k % nrSlices) := hfound
    rw [runTask, process]
    simp only [hfound', hprocess, checkSliceComplete, Function.update_self, hcomplete, hstate,
      ne_eq, not_true_eq_false, or_self, if_false, hu.settled.plain.notStreaming,
      Bool.false_eq_true, hcomplete ▸ hdone, if_true, State.setSlice, State.enter,
      Function.update_idem, State.continue, List.append_nil]

/-! ## The end of a slice -/

/-- The slot of the next slice is free. -/
theorem Filled.next_free (h : Filled st k w s) :
    (s.slices ((k + 1) % nrSlices)).state = .free := by
  have hstarted := h.started
  have hfreed := h.freed
  exact h.settled.window.slots.free (k + 1) (by omega) (by simp [nrSlices]; omega)

/-- The slice counts as received. -/
theorem Filled.advance (h : Filled st k w s) (hptr : s.receivedPtr = k % nrSlices)
    (htasks : s.tasks = [.advanceReceivedPointer, t]) :
    ∃ s', Filled st k w s' ∧ s'.receivedSliceNo = k ∧ s'.tasks = [t] := by
  have hstarted := h.started
  have hno := h.settled.sliceNo_eq (k := k) (by omega) (by simp [nrSlices]; omega)
  have hnext := nextSlot_mod k
  unfold nextSlot at hnext
  have hturn := h.toQuiet.net (u := { s with
    receivedSliceNo := k, tasks := [.advance ((k + 1) % nrSlices), t] }) htasks ?_ rfl
  · have hstop := hturn.net (u := { s with
      receivedSliceNo := k, tasks := [t], receivedPtr := (k + 1) % nrSlices }) rfl ?_ rfl
    · exact ⟨_, ⟨hstop, h.started, h.freed, h.done, h.size⟩, rfl, rfl⟩
    · simp only [runTask, Receiver.advance, State.popped, h.next_free, SliceState.complete,
        Bool.false_eq_true, if_false]
  · simp only [runTask, Receiver.advance, State.popped, hptr, h.done, SliceState.complete, if_true,
      hno, hnext, State.enter, List.cons_append, List.nil_append]

/-- The slice is handed over to the writer. -/
theorem Filled.handOver (h : Filled st k w s) (hst : st.Valid) (hk : k < st.cuts.length)
    (hrsn : s.receivedSliceNo = k) (htasks : s.tasks = [.handOver (k % nrSlices)]) :
    ∃ s', Between st (k + 1) w s' ∧ s'.tasks = [] := by
  have hs := h.settled
  have hm := h.memory hst
  have hclean := h.toQuiet.net (u := { s with tasks := [.cleanup] }) htasks ?_ rfl
  · have hpos : pcGetProducerPosition s.freeSlicesPc = k % nrSlices := by
      rw [h.settled.window.slots.producerPosition, h.freed]
    have hsize : st.size k ≠ 0 := Filling.size_ne_zero hst hk
    -- There is room for the slice, because its memory has been taken.
    obtain ⟨data, hdata, -⟩ := hm.data.pcProduce (n := st.size k) (by
      have hreleased := h.released (by simp [htasks])
      have hroom := hm.room k h.started.symm
      have hwritten := h.written hst
      have hreturned := h.returned
      have hle := hst.size_le k
      rw [hreleased, h.freed]
      omega)
    have hrelease := hclean.net (u := { s with
      data := data, released := s.released + st.size k
      tasks := [.freeSlot (k % nrSlices) (st.size k)] }) rfl ?_ rfl
    · obtain ⟨free, hfree, -⟩ := h.settled.window.slots.queue.pcProduce (n := 1) (by
        have hle := h.settled.window.slots.started_le
        have hstarted := h.started
        have hfreed := h.freed
        omega)
      have hfreed := hrelease.net (u := { s with
        data := data, released := s.released + st.size k, freeSlicesPc := free
        freed := s.freed + 1, tasks := [.cleanup]
        slices := Function.update s.slices (k % nrSlices)
          { s.slices (k % nrSlices) with state := .free } }) rfl ?_ rfl
      · have hpos' : pcGetProducerPosition free = (k + 1) % nrSlices := by
          have := hfreed.settled.window.slots.producerPosition
          rwa [h.freed] at this
        have hend := hfreed.net (u := { s with
          data := data, released := s.released + st.size k, freeSlicesPc := free
          freed := s.freed + 1, tasks := []
          slices := Function.update s.slices (k % nrSlices)
            { s.slices (k % nrSlices) with state := .free } }) rfl ?_ rfl
        · exact ⟨_, ⟨hend, h.started, congrArg (· + 1) h.freed, by simp [hrsn]⟩, rfl⟩
        · have hne : (k + 1) % nrSlices ≠ k % nrSlices :=
            (mod_slots_ne (Nat.lt_succ_self k) (by simp [nrSlices])).symm
          simp only [runTask, cleanupSlices, State.popped, hpos', Function.update_of_ne hne,
            h.next_free, ne_eq, reduceCtorEq, not_false_eq_true, if_true]
      · simp only [runTask, freeSlot, State.popped, hfree, hsize, if_false, Except.map,
          State.continue, State.enter, State.setSlice, List.append_nil]
    · simp only [runTask, cleanupSlices, State.popped, hpos, h.done, h.size, hsize, hdata, ne_eq,
        not_true_eq_false, if_false, State.enter, List.append_nil]
  · simp only [runTask, Receiver.handOver, State.popped, h.noFec, Bool.false_eq_true, if_false,
      State.enter, List.append_nil]

/-! ## Slice after slice -/

/-- All blocks of a slice arrive. -/
theorem Filling.slice (h : Filling st k 0 w s) (hidle : s.tasks = []) (hst : st.Valid)
    (hk : k < st.cuts.length) : ∃ s', Between st (k + 1) w s' ∧ s'.tasks = [] := by
  have hpos : 0 < st.blocks k := by
    have hsize := Filling.size_ne_zero hst hk
    have hle := hst.size_le_blocks k
    by_contra hzero
    rw [Nat.eq_zero_of_not_pos hzero, Nat.zero_mul] at hle
    omega
  have hblocks : ∀ n, n + 1 ≤ st.blocks k → ∃ s', Filling st k n w s' ∧ s'.tasks = [] := by
    intro n
    induction n with
    | zero => exact fun _ => ⟨s, h, hidle⟩
    | succ n ih =>
      intro hn
      obtain ⟨u, hu, htasks⟩ := ih (by omega)
      exact hu.next htasks hst hk hn
  obtain ⟨u, hu, hidle⟩ := hblocks (st.blocks k - 1) (by omega)
  obtain ⟨u, hu, hptr, htasks⟩ := hu.last hidle hst hk (by omega)
  obtain ⟨u, hu, hrsn, htasks⟩ := hu.advance hptr htasks
  exact hu.handOver hst hk hrsn htasks

/-- The opening of the next slice, up to the point where a slot is taken. -/
theorem Between.find {msg : ServerMsg} (h : Between st k w s) (hpos : 0 < k)
    (htasks : s.tasks = [.findSlice k, .process msg]) (hready : s.isReady = true) :
    ∃ s', Between st k w s' ∧ s'.tasks = [.takeSlot k, .process msg] ∧ s'.isReady = true := by
  have hs := h.settled
  have hstarted := h.started
  have hfreed := h.freed
  have hreceived := h.received
  have hnumbered := hs.plain.numbered
  have hcurrent := hs.window.slots.current
  rw [h.started, if_neg hpos.ne'] at hcurrent
  have hallocated := hs.window.stack.settled (by rw [htasks]; rfl)
  have hahead := h.toQuiet.net (u := { s with tasks := [.catchUp k, .process msg] }) htasks ?_ rfl
  · have hnew := hahead.net (u := { s with tasks := [.newSlice k, .process msg] }) rfl ?_ rfl
    · have htake := hnew.net (u := { s with tasks := [.takeSlot k, .process msg] }) rfl ?_ rfl
      · exact ⟨_, ⟨htake, h.started, h.freed, h.received⟩, rfl, hready⟩
      · have hwaiting : 1 ≤ nrSlices + s.freed - s.allocated := by
          simp only [nrSlices]
          omega
        simp only [runTask, State.popped, hs.window.slots.queue.pcConsume_eq, hwaiting, true_or,
          if_true, Option.map_some, State.enter, List.cons_append, List.nil_append]
    · have hnext : ¬ (s.receivedSliceNo + 2 < k ∨ (k : ℤ) ≠ s.currentSliceNo + 1) := by omega
      simp only [runTask, catchUp, State.popped, hnext, if_false, State.enter, List.cons_append,
        List.nil_append]
  · have hlt : ¬ (k : ℤ) ≤ s.currentSliceNo := by omega
    simp only [runTask, findSlice, State.popped, hcurrent, hlt, hs.plain.notStreaming, if_false,
      Bool.false_eq_true, State.enter, List.cons_append, List.nil_append]

/-- The size of the last slice is known. -/
theorem Between.known (h : Between st k w s) (hpos : 0 < k) :
    (s.slices ((k - 1) % nrSlices)).bytesKnown = true := by
  have hstarted := h.started
  have hfreed := h.freed
  have hmod : (k - 1) % nrSlices = (k + 3) % nrSlices := by
    simp only [nrSlices]
    omega
  have hfree := h.settled.window.slots.free (k + 3) (by omega) (by simp [nrSlices]; omega)
  have htracked := h.settled.tracked (k := k - 1) (by omega) (by simp only [nrSlices]; omega)
  refine (htracked.complete ?_).1
  rw [hmod, hfree]
  decide

/-- The memory of all slices so far has been taken. -/
theorem Between.taken (h : Between st k w s) (hst : st.Valid) (hpos : 0 < k) :
    s.memTaken = st.start k := by
  have hs := h.settled
  have hm := h.memory hst
  have hstarted := h.started
  rw [← h.started]
  refine hm.taken fun j hj => ?_
  obtain rfl : j = k - 1 := by omega
  exact h.known hpos

/-- A slot is taken and set up for the next slice. -/
theorem Between.init {msg : ServerMsg} (h : Between st k w s) (hst : st.Valid) (hpos : 0 < k)
    (hroom : st.start k + st.blockSize * maxSliceSize ≤ w + st.blockSize * 4096)
    (htasks : s.tasks = [.takeSlot k, .process msg]) (hready : s.isReady = true) :
    ∃ s', Filling st k 0 w s' ∧ (s'.slices (k % nrSlices)).freePos = 0 ∧
      s'.tasks = [.process msg] ∧ s'.isReady = true := by
  have hs := h.settled
  have hm := h.memory hst
  have hstarted := h.started
  have hfreed := h.freed
  have hnumbered := hs.plain.numbered
  have hcurrent := hs.window.slots.current
  rw [h.started, if_neg hpos.ne'] at hcurrent
  have hallocated := hs.window.stack.settled (by rw [htasks]; rfl)
  have hpos' : pcGetConsumerPosition s.freeSlicesPc = k % nrSlices := by
    rw [hs.window.slots.consumerPosition, hallocated, h.started]
  have hfree := hs.window.slots.free k (by omega) (by simp [nrSlices]; omega)
  have htaken := h.taken hst hpos
  have hne : (k - 1) % nrSlices ≠ k % nrSlices := mod_slots_ne (by omega) (by simp [nrSlices]; omega)
  have hreserve := h.toQuiet.net (u := { s with
      freeSlicesPc := pcConsumed s.freeSlicesPc 1, allocated := s.allocated + 1
      tasks := [.reserve (k % nrSlices) k, .process msg]
      slices := Function.update s.slices (k % nrSlices) { s.slices (k % nrSlices) with
        base := pcGetConsumerPosition s.freeMemQueue } }) htasks ?_ rfl
  · have hinit := hreserve.net (u := { s with
        freeSlicesPc := pcConsumed s.freeSlicesPc 1, allocated := s.allocated + 1
        tasks := [.process msg], found := some (k % nrSlices)
        currentSlice := some (k % nrSlices), currentSliceNo := k, started := s.started + 1
        slices := Function.update s.slices (k % nrSlices) (({ s.slices (k % nrSlices) with
          base := pcGetConsumerPosition s.freeMemQueue } : Slice).start k 0) }) rfl ?_ rfl
    · refine ⟨_, ⟨hinit, congrArg (· + 1) h.started, h.freed, h.received, ?_, ?_, ?_⟩, ?_, rfl,
        hready⟩
      all_goals simp [Slice.start, Slice.clear]
    · have hwaiting : s.config.blockSize * maxSliceSize ≤
          s.dataBufSize + s.memReturned - s.memTaken := by
        rw [htaken, hs.accounts.blockSize, hs.accounts.bufSize, h.returned]
        omega
      have hknown : ∀ x, ¬ ∃ c ∈ s.currentSlice,
          (Function.update s.slices (k % nrSlices) x c).bytesKnown = false := by
        rintro x ⟨c, hc, hunknown⟩
        obtain rfl := Option.some.inj (hcurrent.symm.trans hc)
        rw [Function.update_of_ne hne, h.known hpos] at hunknown
        cases hunknown
      have hnext : ¬ (s.streaming = false ∧ s.currentSliceNo ≠ k - 1) := by
        rintro ⟨-, hcontra⟩
        omega
      have hguess : ∀ u : State, u.config = s.config → u.assumedBytes = 0 := by
        intro u hconfig
        unfold State.assumedBytes
        rw [hconfig, hs.plain.keepsData]
        cases u.currentSlice <;> rfl
      have hinit : initSlice ({ s with
          freeSlicesPc := pcConsumed s.freeSlicesPc 1, allocated := s.allocated + 1
          tasks := [.process msg]
          slices := Function.update s.slices (k % nrSlices) { s.slices (k % nrSlices) with
            base := pcGetConsumerPosition s.freeMemQueue } }) (k % nrSlices) k = .ok { s with
          freeSlicesPc := pcConsumed s.freeSlicesPc 1, allocated := s.allocated + 1
          tasks := [.process msg]
          currentSlice := some (k % nrSlices), currentSliceNo := k
          slices := Function.update s.slices (k % nrSlices) (({ s.slices (k % nrSlices) with
            base := pcGetConsumerPosition s.freeMemQueue } : Slice).start k 0) } := by
        unfold initSlice
        simp only [Function.update_self, hfree, ne_eq, not_true_eq_false, false_and, if_false,
          State.setSlice, Function.update_idem, hknown, hnext, hguess]
      rw [runTask]
      simp only [State.popped, hm.free.pcConsume_eq, hwaiting, true_or, if_true,
        Option.map_some, hinit]
      rfl
  · simp only [runTask, takeSlot, State.popped, hpos', hfree, if_true, State.enter, State.setSlice,
      List.cons_append, List.nil_append]

/-- A REQACK for a client that is ready opens the next slice, and does nothing else. -/
theorem Between.open (h : Between st k w s) (hidle : s.tasks = []) (hst : st.Valid) (hpos : 0 < k)
    (hk : k ≤ st.cuts.length)
    (hroom : st.start k + st.blockSize * maxSliceSize ≤ w + st.blockSize * 4096) :
    ∃ s', Filling st k 0 w s' ∧ (s'.slices (k % nrSlices)).freePos = 0 ∧ s'.tasks = [] := by
  have hblock := h.settled.accounts.blockSize
  have hblockPos := hst.blockSize_pos
  let msg : ServerMsg := .reqack k (st.size k) 0 {0}
  obtain ⟨mem, blocks, hstore⟩ := storePayload_eq s msg
  have hready : (storePayload s msg).isReady = true := by
    refine (isReady_of_lt _ ?_ ?_).mpr ?_
    · rw [h.client]
      decide
    · rw [h.client, hblock]
      omega
    · rw [h.client]
      exact Finset.mem_singleton_self 0
  rw [hstore] at hready
  have hreceived : Quiet st w { s with
      isAddress := landing s, dataBuffer := mem, blockData := blocks
      tasks := [.findSlice k, .process msg] } := by
    refine h.toQuiet.step (a := .receive msg) ?_ (.reqack k 0 {0} hk) rfl
    rw [act, if_pos h.running]
    simp only [receiveStep, hidle, h.goesOn, hstore, dispatch, State.enter, msg]
    rfl
  have hbetween : Between st k w { s with
      isAddress := landing s, dataBuffer := mem, blockData := blocks
      tasks := [.findSlice k, .process msg] } := ⟨hreceived, h.started, h.freed, h.received⟩
  obtain ⟨u, hu, htasks, hready⟩ := hbetween.find hpos rfl hready
  obtain ⟨u, hu, hfirst, htasks, hready⟩ := hu.init hst hpos hroom htasks hready
  have hend := hu.toQuiet.net (u := u.popped []) htasks ?_ rfl
  · exact ⟨_, ⟨hend, hu.started, hu.freed, hu.received, hu.receiving, hu.map, hu.fecStripes⟩,
      hfirst, rfl⟩
  · have hignored : processReqAck (u.popped []) k (st.size k) 0 = .ok (u.popped []) := if_pos hready
    rw [runTask, process, hignored]
    rfl

/-- What the writer finds in the queue. -/
theorem Between.waiting (h : Between st k 0 s) (hidle : s.tasks = []) (hst : st.Valid) :
    s.data.Holds (st.blockSize * 4096) (st.start k) 0 := by
  have hs := h.settled
  have hm := h.memory hst
  have hdata := hm.data
  rwa [hs.accounts.bufSize, h.released (by simp [hidle]), h.freed, h.written hst] at hdata

/-- The writer writes what it can in one go. -/
theorem Between.write (h : Between st k 0 s) (hidle : s.tasks = []) (hst : st.Valid)
    (hfull : 4096 ≤ st.start k) (hwrap : st.start k < st.blockSize * 4096)
    (hcap : st.blockSize * 4096 ≤ 128 * 1024) :
    ∃ s', Between st k (st.start k - st.start k % 4096) s' ∧ s'.tasks = [] := by
  have hs := h.settled
  have hm := h.memory hst
  have hdata := h.waiting hidle hst
  generalize hn : st.start k - st.start k % 4096 = n
  have hpos : pcGetConsumerPosition s.data = 0 := by
    rw [hdata.consumerPosition_eq, Nat.zero_mod]
  have hbytes : pcConsumeContiguousMinAmount s.data 4096 = some (st.start k) := by
    rw [hdata.consumeContiguous_eq, Nat.sub_zero, if_pos (.inl hfull), Nat.zero_mod, Nat.sub_zero,
      if_neg (by omega)]
  have hsome : st.start k ≠ 0 := by omega
  have hpart : st.start k ≠ s.dataBufSize ∧ st.start k % 4096 < st.start k := by
    rw [hs.accounts.bufSize]
    have hmod := Nat.mod_lt (st.start k) (y := 4096) (by decide)
    exact ⟨hwrap.ne, by omega⟩
  have hless : ¬ 128 * 1024 < n := by omega
  have hwait : act s (.writer 0) = some { s with writer := .write 0 n } := by
    rw [act, if_pos h.running]
    simp only [writerStep, h.waits, hpos, hbytes, Option.map_some, hsome, if_false, Nat.zero_add,
      hpart, ne_eq, not_false_eq_true, and_self, if_true, hn, hless]
  have hwrite : act { s with writer := .write 0 n } (.writer n) = some { s with
      output := s.output ++ (List.range n).map fun x => s.dataBuffer (0 + x)
      writer := .consumed n } := by
    rw [act, if_pos h.running]
    simp only [writerStep, le_refl, if_true]
  have hconsumed : act { s with
      output := s.output ++ (List.range n).map fun x => s.dataBuffer (0 + x)
      writer := .consumed n } (.writer 0) = some { s with
      output := s.output ++ (List.range n).map fun x => s.dataBuffer (0 + x)
      writer := .produce n, data := pcConsumed s.data n, written := s.written + n } := by
    rw [act, if_pos h.running]
    simp only [writerStep]
  have hpositive : 0 < k := by
    by_contra hzero
    rw [Nat.eq_zero_of_not_pos hzero] at hfull
    simp [Stream.start, Sender.startOf] at hfull
  have htaken := h.taken hst hpositive
  obtain ⟨q, hq, -⟩ := hm.free.pcProduce (n := n) (by rw [h.returned, htaken]; omega)
  have hproduce : act { s with
      output := s.output ++ (List.range n).map fun x => s.dataBuffer (0 + x)
      writer := .produce n, data := pcConsumed s.data n, written := s.written + n } (.writer 0) =
      some { s with
        output := s.output ++ (List.range n).map fun x => s.dataBuffer (0 + x)
        writer := .wait, data := pcConsumed s.data n, written := s.written + n
        freeMemQueue := q, memReturned := s.memReturned + n } := by
    rw [act, if_pos h.running]
    simp only [writerStep, hq]
  have hreach := (((h.reachable.step ⟨.writer 0, trivial, hwait⟩).step
    ⟨.writer n, trivial, hwrite⟩).step ⟨.writer 0, trivial, hconsumed⟩).step
    ⟨.writer 0, trivial, hproduce⟩
  have hreturned : s.memReturned + n = n := by rw [h.returned, Nat.zero_add]
  exact ⟨_, ⟨⟨hreach, h.running, h.noFec, h.goesOn, h.newgen, h.client, rfl, hreturned⟩,
    h.started, h.freed, h.received⟩, hidle⟩

end Udpcast.Receiver
