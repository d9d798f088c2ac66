import Udpcast.Receiver.Work

/-!
# The moves of the threads

Everything a step of each thread can do as long as the process goes on, one constructor for
each way through the code between two points where other threads may step in.
-/

namespace Udpcast.Receiver

open Fec (Gf Block)
open Queue
open Protocol

/-- The state while the first task runs. -/
def State.popped (s : State) (rest : List Task) : State := { s with tasks := rest }

/-- The slot before `pos` in the ring of slots. -/
def previousSlot (pos : ℕ) : ℕ := if pos = 0 then nrSlices - 1 else pos - 1

/-- The slot after `pos` in the ring of slots. -/
def nextSlot (pos : ℕ) : ℕ := if nrSlices ≤ pos + 1 then pos + 1 - nrSlices else pos + 1

/-- The moves of the network thread, with the task it goes on with and those that wait. -/
inductive NetMoves (s : State) : Task → List Task → State → Prop
  | join {n rest} (hcurrent : s.currentSlice = none) :
    NetMoves s (.findSlice n) rest { s with currentSliceNo := n - 1, tasks := .newSlice n :: rest }
  | lookBack {n c rest} (hcurrent : s.currentSlice = some c) (hle : n ≤ s.currentSliceNo) :
    NetMoves s (.findSlice n) rest { s with tasks := .scan n c :: rest }
  | restart {n rest s'} (hcurrent : s.currentSlice = some 0) (hlt : s.currentSliceNo < n)
    (hstreaming : s.streaming = true) (hinit : initSlice (s.popped rest) 0 n = .ok s') :
    NetMoves s (.findSlice n) rest { s' with found := some 0 }
  | lookAhead {n c rest} (hcurrent : s.currentSlice = some c) (hlt : s.currentSliceNo < n)
    (hstreaming : s.streaming = false) :
    NetMoves s (.findSlice n) rest { s with tasks := .catchUp n :: rest }
  | scanFound {n pos rest} (hno : (s.slices pos).sliceNo = n) :
    NetMoves s (.scan n pos) rest { s with found := some pos, tasks := rest }
  | scanFree {n pos rest} (hno : (s.slices pos).sliceNo ≠ n) (hfree : (s.slices pos).state = .free) :
    NetMoves s (.scan n pos) rest { s with found := none, tasks := rest }
  | scanOn {n pos rest} (hno : (s.slices pos).sliceNo ≠ n)
    (hfree : (s.slices pos).state ≠ .free) :
    NetMoves s (.scan n pos) rest { s with tasks := .scan n (previousSlot pos) :: rest }
  | behind {n rest} (hbehind : s.receivedSliceNo + 2 < n ∨ n ≠ s.currentSliceNo + 1)
    (hignore : s.config.ignoreLostData = true) :
    NetMoves s (.catchUp n) rest { s with
      tasks := .findSlice (s.receivedSliceNo + 1) :: .fakeSliceComplete :: .catchUp n :: rest }
  | lost {n rest} (hbehind : s.receivedSliceNo + 2 < n ∨ n ≠ s.currentSliceNo + 1)
    (hignore : s.config.ignoreLostData = false) :
    NetMoves s (.catchUp n) rest { s with
      tasks := .findSlice (s.receivedSliceNo + 1) :: .dropped :: .catchUp n :: rest }
  | caughtUp {n rest} (hle : n ≤ s.receivedSliceNo + 2) (hnext : n = s.currentSliceNo + 1) :
    NetMoves s (.catchUp n) rest { s with tasks := .newSlice n :: rest }
  | fake {rest} :
    NetMoves s .fakeSliceComplete rest { s with
      tasks := .findSlice (s.receivedSliceNo + 1) :: .fakeFound :: rest }
  | force {i rest s'} (hfound : s.found = some i)
    (hforce : completeByForce (s.popped rest) i = .ok s') : NetMoves s .fakeFound rest s'
  | newSlice {n m rest} (hfree : pcConsume s.freeSlicesPc 1 = some m) :
    NetMoves s (.newSlice n) rest { s with tasks := .takeSlot n :: rest }
  | takeSlot {n i rest} (hi : i = pcGetConsumerPosition s.freeSlicesPc)
    (hfree : (s.slices i).state = .free) :
    NetMoves s (.takeSlot n) rest { s with
      freeSlicesPc := pcConsumed s.freeSlicesPc 1
      allocated := s.allocated + 1
      tasks := .reserve i n :: rest
      slices := Function.update s.slices i
        { s.slices i with base := pcGetConsumerPosition s.freeMemQueue } }
  | reserve {n i m rest s'}
    (hmem : pcConsume s.freeMemQueue (s.config.blockSize * maxSliceSize) = some m)
    (hinit : initSlice (s.popped rest) i n = .ok s') :
    NetMoves s (.reserve i n) rest { s' with found := some i, started := s'.started + 1 }
  | process {msg rest s'} (hprocess : process (s.popped rest) msg = .ok s') :
    NetMoves s (.process msg) rest s'
  | reuse {i b blocks rest s'} (hlocal : s.localBlocks = b :: blocks)
    (hfinish : finishFecBlock { s.popped rest with nextBlock := b, localBlocks := blocks } i =
      .ok s') : NetMoves s (.setNextBlock i) rest s'
  | waitForBlock {i m rest} (hlocal : s.localBlocks = [])
    (hfree : pcConsume s.freeBlocksPc 1 = some m) :
    NetMoves s (.setNextBlock i) rest { s with tasks := .takeBlock i :: rest }
  | takeBlock {i rest s'}
    (hfinish : finishFecBlock { s.popped rest with
      nextBlock := s.blockAddresses (pcGetConsumerPosition s.freeBlocksPc)
      freeBlocksPc := pcConsumed s.freeBlocksPc 1
      blocksTaken := s.blocksTaken + 1 } i = .ok s') : NetMoves s (.takeBlock i) rest s'
  | advanceFirst {rest s'} (hadvance : s' = advance (s.popped rest) s.receivedPtr) :
    NetMoves s .advanceReceivedPointer rest s'
  | advance {pos rest s'} (hadvance : s' = advance (s.popped rest) pos) :
    NetMoves s (.advance pos) rest s'
  | enqueue {i q rest} (huse : s.useFec = true) (hq : pcProduce s.fecDataPc 1 = some q)
    (hstate : (s.slices i).state = .done ∨ (s.slices i).state = .fec) :
    NetMoves s (.handOver i) rest { s with
      fecSlices := Function.update s.fecSlices (pcGetProducerPosition s.fecDataPc) i
      fecDataPc := q
      queued := s.queued + 1
      tasks := rest }
  | toCleanup {i rest} (huse : s.useFec = false) :
    NetMoves s (.handOver i) rest { s with tasks := .cleanup :: rest }
  | cleaned {rest} (hstate : (s.slices (pcGetProducerPosition s.freeSlicesPc)).state ≠ .done) :
    NetMoves s .cleanup rest { s with tasks := rest }
  | release {pos bytes rest s'} (hpos : pos = pcGetProducerPosition s.freeSlicesPc)
    (hstate : (s.slices pos).state = .done)
    (hclean : cleanupSlices (s.popped rest) .done = .ok (s', some (pos, bytes))) :
    NetMoves s .cleanup rest { s' with tasks := .freeSlot pos bytes :: rest }
  | freeSlot {pos bytes rest s'} (hfree : freeSlot (s.popped rest) pos bytes = .ok s') :
    NetMoves s (.freeSlot pos bytes) rest { s' with tasks := .cleanup :: rest }

/-- The moves of the FEC thread. -/
inductive FecMoves (s : State) : State → Prop
  | loop (hpc : s.fecThread = .loopTest) :
    FecMoves s { s with fecThread := if s.endReached < 2 then .consume else .exited }
  | consume {m} (hpc : s.fecThread = .consume) (hfull : pcConsume s.fecDataPc 1 = some m) :
    FecMoves s { s with fecThread := .consumed }
  | takeFec {i} (hpc : s.fecThread = .consumed)
    (hi : i = s.fecSlices (pcGetConsumerPosition s.fecDataPc)) (hstate : (s.slices i).state = .fec) :
    FecMoves s { s with
      fecDataPc := pcConsumed s.fecDataPc 1, dequeued := s.dequeued + 1, fecThread := .decode i }
  | takeDone {i} (hpc : s.fecThread = .consumed)
    (hi : i = s.fecSlices (pcGetConsumerPosition s.fecDataPc)) (hstate : (s.slices i).state = .done) :
    FecMoves s { s with
      fecDataPc := pcConsumed s.fecDataPc 1, dequeued := s.dequeued + 1, fecThread := .cleanup
      slices := Function.update s.slices i { s.slices i with state := .fecDone } }
  | takeOther {i} (hpc : s.fecThread = .consumed)
    (hi : i = s.fecSlices (pcGetConsumerPosition s.fecDataPc))
    (hfec : (s.slices i).state ≠ .fec) (hdone : (s.slices i).state ≠ .done) :
    FecMoves s { s with
      fecDataPc := pcConsumed s.fecDataPc 1, dequeued := s.dequeued + 1, fecThread := .loopTest }
  | decode {i mem blocks} (hpc : s.fecThread = .decode i)
    (hdecode : decodeSlice s i = .ok { s with dataBuffer := mem, blockData := blocks }) :
    FecMoves s { s with
      dataBuffer := mem, blockData := blocks, fecThread := .release i 0 0
      slices := Function.update s.slices i { s.slices i with state := .fecDone } }
  | released {i stripe k} (hpc : s.fecThread = .release i stripe k)
    (hend : (s.slices i).fecStripes ≤ stripe) : FecMoves s { s with fecThread := .cleanup }
  | nextStripe {i stripe k} (hpc : s.fecThread = .release i stripe k)
    (hstripe : stripe < (s.slices i).fecStripes)
    (hle : (s.slices i).fecBlocks stripe ≤ (s.slices i).missingDataBlocks stripe)
    (hend : (s.slices i).fecBlocks stripe ≤ k) :
    FecMoves s { s with fecThread := .release i (stripe + 1) 0 }
  | freeBlock {i stripe k d b q} (hpc : s.fecThread = .release i stripe k)
    (hstripe : stripe < (s.slices i).fecStripes)
    (hle : (s.slices i).fecBlocks stripe ≤ (s.slices i).missingDataBlocks stripe)
    (hk : k < (s.slices i).fecBlocks stripe) (hd : d = stripe + k * (s.slices i).fecStripes)
    (hb : ((s.slices i).fecDescs d).adr = some b) (hq : pcProduce s.freeBlocksPc 1 = some q) :
    FecMoves s { s with
      blockAddresses :=
        Function.update s.blockAddresses (pcGetProducerPosition s.freeBlocksPc) b
      freeBlocksPc := q
      blocksReturned := s.blocksReturned + 1
      fecThread := .release i stripe (k + 1)
      slices := Function.update s.slices i
        { s.slices i with
          fecDescs := Function.update (s.slices i).fecDescs d
            { (s.slices i).fecDescs d with adr := none } } }
  | cleaned (hpc : s.fecThread = .cleanup)
    (hstate : (s.slices (pcGetProducerPosition s.freeSlicesPc)).state ≠ .fecDone) :
    FecMoves s { s with fecThread := .loopTest }
  | releaseSlice {pos bytes s'} (hpc : s.fecThread = .cleanup)
    (hpos : pos = pcGetProducerPosition s.freeSlicesPc)
    (hstate : (s.slices pos).state = .fecDone)
    (hclean : cleanupSlices s .fecDone = .ok (s', some (pos, bytes))) :
    FecMoves s { s' with fecThread := .freeSlot pos bytes }
  | freeSlot {pos bytes s'} (hpc : s.fecThread = .freeSlot pos bytes)
    (hfree : freeSlot s pos bytes = .ok s') : FecMoves s { s' with fecThread := .cleanup }

/-- The moves of the writer. -/
inductive WriterMoves (s : State) : State → Prop
  | finish (hpc : s.writer = .wait) : WriterMoves s { s with writer := .exited }
  | take {n bytes} (hpc : s.writer = .wait)
    (hfull : pcConsumeContiguousMinAmount s.data 4096 = some n) (hpos : 0 < n) (hle : bytes ≤ n) :
    WriterMoves s { s with writer := .write (pcGetConsumerPosition s.data) bytes }
  | write {pos bytes n} (hpc : s.writer = .write pos bytes) (hle : n ≤ bytes) :
    WriterMoves s { s with
      output := s.output ++ (List.range n).map fun x => s.dataBuffer (pos + x)
      writer := .consumed n }
  | consume {n} (hpc : s.writer = .consumed n) :
    WriterMoves s { s with
      data := pcConsumed s.data n, written := s.written + n, writer := .produce n }
  | giveBack {n q} (hpc : s.writer = .produce n) (hq : pcProduce s.freeMemQueue n = some q) :
    WriterMoves s { s with freeMemQueue := q, memReturned := s.memReturned + n, writer := .wait }

/-- What can happen to a receiver that goes on. -/
inductive Moves (s : State) : Action → State → Prop
  | receive {msg mem blocks} (hidle : s.tasks = []) (hend : s.endReached < 3) :
    Moves s (.receive msg) { s with
      isAddress := landing s, dataBuffer := mem, blockData := blocks, tasks := dispatch msg }
  | exitWait (hidle : s.tasks = []) (hend : s.endReached = 2) :
    Moves s .exitWait { s with endReached := 3 }
  | net {t rest s'} (ht : s.tasks = t :: rest) (hmoves : NetMoves s t rest s') : Moves s .net s'
  | fec {s'} (hmoves : FecMoves s s') : Moves s .fec s'
  | writer {n s'} (hmoves : WriterMoves s s') : Moves s (.writer n) s'

variable {s s' : State}

/-! ## The network thread, task by task -/

variable {n : ℤ} {rest : List Task}

/-- `findSlice` either begins to look for the slice, or re-initialises the only slot of a
streaming receiver. -/
theorem findSlice_moves (hrunning : (findSlice (s.popped rest) n).failure = none) :
    NetMoves s (.findSlice n) rest (findSlice (s.popped rest) n) := by
  unfold findSlice at hrunning ⊢
  split at hrunning
  · rename_i hcurrent
    exact .join (s := s) hcurrent
  · rename_i c hcurrent
    split at hrunning
    · rename_i hle
      rw [if_pos hle]
      exact .lookBack (s := s) hcurrent hle
    · rename_i hlt
      rw [if_neg hlt]
      split at hrunning
      · rename_i hstreaming
        rw [if_pos hstreaming]
        split at hrunning
        · rename_i hzero
          subst hzero
          rw [if_pos rfl]
          obtain ⟨s₁, hinit, heq⟩ := map_ok (continue_ok hrunning)
          rw [heq]
          exact .restart (s := s) hcurrent (not_le.mp hlt) hstreaming hinit
        · cases hrunning
      · rename_i hstreaming
        rw [if_neg hstreaming]
        exact .lookAhead (s := s) hcurrent (not_le.mp hlt) (Bool.not_eq_true _ ▸ hstreaming)

/-- A turn of the backward scan finds the slice, meets a free slot, or goes on to the slot
before. -/
theorem scanSlot_moves (pos : ℕ) :
    NetMoves s (.scan n pos) rest (scanSlot (s.popped rest) n pos) := by
  unfold scanSlot
  split
  · rename_i hno
    exact .scanFound (s := s) hno
  · rename_i hno
    split
    · rename_i hfree
      exact .scanFree (s := s) hno hfree
    · rename_i hfree
      exact .scanOn (s := s) hno hfree

/-- The loop at the end of `findSlice` has caught up, or deals with the oldest slice that is
missing: the receiver fakes it or drops out. -/
theorem catchUp_moves : NetMoves s (.catchUp n) rest (catchUp (s.popped rest) n) := by
  unfold catchUp
  split
  · rename_i hbehind
    cases hignore : s.config.ignoreLostData with
    | true =>
      simp only [State.popped, hignore, if_true]
      exact .behind (s := s) hbehind hignore
    | false =>
      simp only [State.popped, hignore, Bool.false_eq_true, if_false]
      exact .lost (s := s) hbehind hignore
  · rename_i hbehind
    push Not at hbehind
    exact .caughtUp (s := s) hbehind.1 hbehind.2

/-- `newSlice` takes the slot at the consumer position of the free slots, which is free. -/
theorem takeSlot_moves (hrunning : (takeSlot (s.popped rest) n).failure = none) :
    NetMoves s (.takeSlot n) rest (takeSlot (s.popped rest) n) := by
  unfold takeSlot at hrunning ⊢
  dsimp only at hrunning ⊢
  split at hrunning
  · rename_i hfree
    rw [if_pos hfree]
    exact .takeSlot (s := s) rfl hfree
  · cases hrunning

/-- `setNextBlock` takes a block that the thread has kept, or waits for a free one. -/
theorem setNextBlock_moves {i : ℕ} (hstep : runTask (s.popped rest) (.setNextBlock i) = some s')
    (hrunning : s'.failure = none) : NetMoves s (.setNextBlock i) rest s' := by
  unfold runTask at hstep
  dsimp only at hstep
  split at hstep
  · rename_i b blocks hlocal
    obtain rfl := Option.some.inj hstep
    exact .reuse (s := s) hlocal (continue_ok hrunning)
  · rename_i hlocal
    obtain ⟨m, hfree, rfl⟩ := Option.map_eq_some_iff.mp hstep
    exact .waitForBlock (s := s) hlocal hfree

/-- `checkSliceComplete` hands a slot over to `fecMain`, after its assertion about the state of
the slot, or goes on to the cleanup when FEC is not in use. -/
theorem handOver_moves {i : ℕ} (hrunning : (handOver (s.popped rest) i).failure = none) :
    NetMoves s (.handOver i) rest (handOver (s.popped rest) i) := by
  unfold handOver at hrunning ⊢
  dsimp only at hrunning ⊢
  split at hrunning
  · rename_i huse
    rw [if_pos huse]
    split at hrunning
    · rename_i hstate
      rw [if_pos hstate]
      split at hrunning
      · rename_i q hq
        exact .enqueue (s := s) huse hq hstate
      · cases hrunning
    · cases hrunning
  · rename_i huse
    rw [if_neg huse]
    exact .toCleanup (s := s) (Bool.not_eq_true _ ▸ huse)

/-- A turn of `cleanupSlices(SLICE_DONE)` stops at a slot that is not done, or gives its bytes
to the writer. -/
theorem cleanup_moves (hstep : runTask (s.popped rest) .cleanup = some s')
    (hrunning : s'.failure = none) : NetMoves s .cleanup rest s' := by
  obtain rfl := Option.some.inj hstep
  split at hrunning
  · rename_i s₁ pos bytes hok
    rcases cleanupSlices_ok hok with ⟨-, hslot, -⟩ | ⟨p, b, hp, hdone, -, hslot, -⟩
    · cases hslot
    · obtain ⟨rfl, rfl⟩ := Prod.mk.inj (Option.some.inj hslot)
      have htasks : s₁.tasks = rest := by
        rcases cleanupSlices_ok hok with ⟨-, h, -⟩ | ⟨_, _, _, _, _, _, ⟨_, rfl⟩ | ⟨_, _, _, rfl⟩⟩
        · cases h
        · rfl
        · rfl
      have henter : s₁.enter [.freeSlot pos bytes] =
          { s₁ with tasks := .freeSlot pos bytes :: rest } := by
        rw [State.enter, htasks]
        rfl
      rw [henter]
      exact .release (s := s) hp hdone hok
  · rename_i s₁ hok
    rcases cleanupSlices_ok hok with ⟨hstate, -, rfl⟩ | ⟨_, _, _, _, _, hslot, _⟩
    · exact .cleaned (s := s) hstate
    · cases hslot
  · cases hrunning

/-- The rest of that turn frees the slot, and the loop goes on. -/
theorem freeSlot_moves {pos bytes : ℕ}
    (hstep : runTask (s.popped rest) (.freeSlot pos bytes) = some s')
    (hrunning : s'.failure = none) : NetMoves s (.freeSlot pos bytes) rest s' := by
  obtain rfl := Option.some.inj hstep
  obtain ⟨s₁, hfree, heq⟩ := map_ok (continue_ok hrunning)
  rw [heq]
  have htasks : s₁.tasks = rest := by
    obtain ⟨_, _, rfl⟩ := freeSlot_ok hfree
    rfl
  have henter : s₁.enter [.cleanup] = { s₁ with tasks := .cleanup :: rest } := by
    rw [State.enter, htasks]
    rfl
  rw [henter]
  exact .freeSlot (s := s) hfree

/-- A step of the network thread that does not stop the process is one of its moves. -/
theorem netStep_moves (hstep : netStep s = some s') (hrunning : s'.failure = none) :
    ∃ t rest, s.tasks = t :: rest ∧ NetMoves s t rest s' := by
  unfold netStep at hstep
  split at hstep
  · cases hstep
  · rename_i t rest ht
    refine ⟨t, rest, ht, ?_⟩
    cases t with
    | findSlice n =>
      obtain rfl := Option.some.inj hstep
      exact findSlice_moves hrunning
    | scan n pos =>
      obtain rfl := Option.some.inj hstep
      exact scanSlot_moves pos
    | catchUp n =>
      obtain rfl := Option.some.inj hstep
      exact catchUp_moves
    | dropped =>
      obtain rfl := Option.some.inj hstep
      cases hrunning
    | fakeSliceComplete =>
      obtain rfl := Option.some.inj hstep
      exact .fake (s := s)
    | fakeFound =>
      obtain rfl := Option.some.inj hstep
      dsimp only at hrunning ⊢
      split at hrunning
      · rename_i i hfound
        exact .force (s := s) hfound (continue_ok hrunning)
      · cases hrunning
    | newSlice n =>
      obtain ⟨m, hfree, rfl⟩ := Option.map_eq_some_iff.mp hstep
      exact .newSlice (s := s) hfree
    | takeSlot n =>
      obtain rfl := Option.some.inj hstep
      exact takeSlot_moves hrunning
    | reserve i n =>
      obtain ⟨m, hmem, rfl⟩ := Option.map_eq_some_iff.mp hstep
      obtain ⟨s₁, hinit, heq⟩ := map_ok (continue_ok hrunning)
      rw [heq]
      exact .reserve (s := s) hmem hinit
    | process msg =>
      obtain rfl := Option.some.inj hstep
      exact .process (s := s) (continue_ok hrunning)
    | setNextBlock i => exact setNextBlock_moves hstep hrunning
    | takeBlock i =>
      obtain rfl := Option.some.inj hstep
      exact .takeBlock (s := s) (continue_ok hrunning)
    | advanceReceivedPointer =>
      obtain rfl := Option.some.inj hstep
      exact .advanceFirst (s := s) rfl
    | advance pos =>
      obtain rfl := Option.some.inj hstep
      exact .advance (s := s) rfl
    | handOver i =>
      obtain rfl := Option.some.inj hstep
      exact handOver_moves hrunning
    | cleanup => exact cleanup_moves hstep hrunning
    | freeSlot pos bytes => exact freeSlot_moves hstep hrunning

/-- A step of the FEC thread that does not stop the process is one of its moves. -/
theorem fecStep_moves (hstep : fecStep s = some s') (hrunning : s'.failure = none) :
    FecMoves s s' := by
  unfold fecStep at hstep
  split at hstep
  · cases hstep
  · rename_i hpc
    obtain rfl := Option.some.inj hstep
    exact .loop hpc
  · rename_i hpc
    obtain ⟨m, hfull, rfl⟩ := Option.map_eq_some_iff.mp hstep
    exact .consume hpc hfull
  · rename_i hpc
    obtain rfl := Option.some.inj hstep
    dsimp only at hrunning ⊢
    split
    · rename_i hstate
      exact .takeFec hpc rfl hstate
    · rename_i hstate
      exact .takeDone hpc rfl hstate
    · rename_i hfec hdone
      exact .takeOther hpc rfl hfec hdone
  · rename_i i hpc
    obtain rfl := Option.some.inj hstep
    obtain ⟨s₁, hdecode, heq⟩ := map_ok (continue_ok hrunning)
    rw [heq]
    obtain ⟨mem, blocks, rfl⟩ := decodeSlice_ok hdecode
    exact .decode hpc hdecode
  · rename_i i stripe k hpc
    obtain rfl := Option.some.inj hstep
    unfold releaseStep at hrunning ⊢
    dsimp only at hrunning ⊢
    split at hrunning
    · rename_i hend
      rw [if_pos hend]
      exact .released hpc hend
    · rename_i hstripe
      rw [if_neg hstripe]
      split at hrunning
      · cases hrunning
      · rename_i hle
        rw [if_neg hle]
        split at hrunning
        · rename_i hend
          rw [if_pos hend]
          exact .nextStripe hpc (not_le.mp hstripe) (not_lt.mp hle) hend
        · rename_i hk
          rw [if_neg hk]
          obtain ⟨s₁, hfree, heq⟩ := map_ok (continue_ok hrunning)
          rw [heq]
          obtain ⟨b, q, hb, hq, rfl⟩ := freeBlockSpace_ok hfree
          exact .freeBlock hpc (not_le.mp hstripe) (not_lt.mp hle) (not_le.mp hk) rfl hb hq
  · rename_i hpc
    obtain rfl := Option.some.inj hstep
    split at hrunning
    · rename_i s₁ pos bytes hok
      rcases cleanupSlices_ok hok with ⟨-, hslot, -⟩ | ⟨p, b, hp, hdone, -, hslot, -⟩
      · cases hslot
      · obtain ⟨rfl, rfl⟩ := Prod.mk.inj (Option.some.inj hslot)
        exact .releaseSlice hpc hp hdone hok
    · rename_i s₁ hok
      rcases cleanupSlices_ok hok with ⟨hstate, -, rfl⟩ | ⟨_, _, _, _, _, hslot, _⟩
      · exact .cleaned hpc hstate
      · cases hslot
    · cases hrunning
  · rename_i pos bytes hpc
    obtain rfl := Option.some.inj hstep
    obtain ⟨s₁, hfree, heq⟩ := map_ok (continue_ok hrunning)
    rw [heq]
    exact .freeSlot hpc hfree
  · cases hstep

/-- Storing a payload changes the memory and the place of the payload. -/
theorem storePayload_eq (s : State) (msg : ServerMsg) : ∃ mem blocks,
    storePayload s msg =
      { s with isAddress := landing s, dataBuffer := mem, blockData := blocks } := by
  unfold storePayload State.store
  dsimp only
  split
  · split
    · exact ⟨_, s.blockData, rfl⟩
    · exact ⟨s.dataBuffer, _, rfl⟩
  · split
    · exact ⟨_, s.blockData, rfl⟩
    · exact ⟨s.dataBuffer, _, rfl⟩
  · split
    · exact ⟨_, s.blockData, rfl⟩
    · exact ⟨s.dataBuffer, _, rfl⟩
  · exact ⟨s.dataBuffer, s.blockData, rfl⟩

/-- A message is received when the network thread has nothing else to do. -/
theorem receiveStep_ok {msg : ServerMsg} (hstep : receiveStep s msg = some s') :
    s.tasks = [] ∧ s.endReached < 3 ∧ ∃ mem blocks, s' =
      { s with
        isAddress := landing s, dataBuffer := mem, blockData := blocks, tasks := dispatch msg } := by
  unfold receiveStep at hstep
  split at hstep
  · rename_i hidle
    have htasks := List.isEmpty_iff.mp hidle.1
    obtain ⟨mem, blocks, heq⟩ := storePayload_eq s msg
    obtain rfl := Option.some.inj hstep
    refine ⟨htasks, hidle.2, mem, blocks, ?_⟩
    rw [heq, State.enter]
    dsimp only
    rw [htasks, List.append_nil]
  · cases hstep

/-- `dispatchMessage` stops waiting for messages only when the end has been reached and nothing is
left to do. -/
theorem exitWaitStep_ok (hstep : exitWaitStep s = some s') :
    s.tasks = [] ∧ s.endReached = 2 ∧ s' = { s with endReached := 3 } := by
  unfold exitWaitStep at hstep
  split at hstep
  · rename_i hidle
    exact ⟨List.isEmpty_iff.mp hidle.1, hidle.2, (Option.some.inj hstep).symm⟩
  · cases hstep

/-- A step of the writer that does not stop the process is one of its moves. -/
theorem writerStep_moves {n : ℕ} (hstep : writerStep s n = some s')
    (hrunning : s'.failure = none) : WriterMoves s s' := by
  unfold writerStep at hstep
  split at hstep
  · rename_i hpc
    obtain ⟨m, hfull, rfl⟩ := Option.map_eq_some_iff.mp hstep
    split
    · exact .finish hpc
    · rename_i hzero
      refine .take hpc hfull (Nat.pos_of_ne_zero hzero) ?_
      split <;> split <;> omega
  · rename_i pos bytes hpc
    split at hstep
    · rename_i hle
      obtain rfl := Option.some.inj hstep
      exact .write hpc hle
    · cases hstep
  · rename_i bytes hpc
    obtain rfl := Option.some.inj hstep
    exact .consume hpc
  · rename_i bytes hpc
    obtain rfl := Option.some.inj hstep
    split at hrunning
    · rename_i q hq
      exact .giveBack hpc hq
    · cases hrunning
  · cases hstep

/-- A step of the receiver that does not stop the process is a move, from a state in which it was
running. -/
theorem act_moves {a : Action} (hstep : act s a = some s') (hrunning : s'.failure = none) :
    s.failure = none ∧ Moves s a s' := by
  unfold act at hstep
  split at hstep
  · rename_i hbefore
    refine ⟨hbefore, ?_⟩
    cases a with
    | receive msg =>
      obtain ⟨htasks, hend, mem, blocks, rfl⟩ := receiveStep_ok hstep
      exact .receive htasks hend
    | exitWait =>
      obtain ⟨htasks, hend, rfl⟩ := exitWaitStep_ok hstep
      exact .exitWait htasks hend
    | net =>
      obtain ⟨t, rest, ht, hmoves⟩ := netStep_moves hstep hrunning
      exact .net ht hmoves
    | fec => exact .fec (fecStep_moves hstep hrunning)
    | writer n => exact .writer (writerStep_moves hstep hrunning)
  · cases hstep

end Udpcast.Receiver
