import Udpcast.Receiver.Window

/-!
# How the process stops

One constructor for each way in which a step of one of the threads can stop the process.
Such a step leaves nearly everything else as it is.
-/

namespace Udpcast.Receiver

open Queue
open Protocol

/-- The failures of the network thread at its current task. -/
inductive NetFails (s : State) : Task → List Task → Failure → Prop
  | restart {n rest f} (hcurrent : s.currentSlice = some 0) (hlt : s.currentSliceNo < n)
    (hstreaming : s.streaming = true) (hinit : initSlice (s.popped rest) 0 n = .error f) :
    NetFails s (.findSlice n) rest f
  | notFirst {n c rest} (hcurrent : s.currentSlice = some c) (hstreaming : s.streaming = true)
    (hne : c ≠ 0) : NetFails s (.findSlice n) rest .notFirstSlot
  | dropped {rest} : NetFails s .dropped rest .droppedByServer
  | notFound {rest} (hfound : s.found = none) : NetFails s .fakeFound rest .nothingToFake
  | force {i rest f} (hfound : s.found = some i)
    (hforce : completeByForce (s.popped rest) i = .error f) : NetFails s .fakeFound rest f
  | takeSlot {n rest}
    (hstate : (s.slices (pcGetConsumerPosition s.freeSlicesPc)).state ≠ .free) :
    NetFails s (.takeSlot n) rest .slotNotFree
  | reserve {n i rest f} (hinit : initSlice (s.popped rest) i n = .error f) :
    NetFails s (.reserve i n) rest f
  | process {msg rest f} (hprocess : process (s.popped rest) msg = .error f) :
    NetFails s (.process msg) rest f
  | reuse {i b blocks rest f} (hlocal : s.localBlocks = b :: blocks)
    (hfinish : finishFecBlock { s.popped rest with nextBlock := b, localBlocks := blocks } i =
      .error f) : NetFails s (.setNextBlock i) rest f
  | takeBlock {i rest f}
    (hfinish : finishFecBlock { s.popped rest with
      nextBlock := s.blockAddresses (pcGetConsumerPosition s.freeBlocksPc)
      freeBlocksPc := pcConsumed s.freeBlocksPc 1
      blocksTaken := s.blocksTaken + 1 } i = .error f) : NetFails s (.takeBlock i) rest f
  | enqueue {i rest} (huse : s.useFec = true) (hq : pcProduce s.fecDataPc 1 = none) :
    NetFails s (.handOver i) rest .overflow
  | incomplete {i rest} (huse : s.useFec = true)
    (hstate : ¬((s.slices i).state = .done ∨ (s.slices i).state = .fec)) :
    NetFails s (.handOver i) rest .notComplete
  | release {rest f} (hclean : cleanupSlices (s.popped rest) .done = .error f) :
    NetFails s .cleanup rest f
  | freeSlot {pos bytes rest f} (hfree : freeSlot (s.popped rest) pos bytes = .error f) :
    NetFails s (.freeSlot pos bytes) rest f

/-- The failures of the FEC thread. -/
inductive FecFails (s : State) : Failure → Prop
  | decode {i f} (hpc : s.fecThread = .decode i) (hdecode : decodeSlice s i = .error f) :
    FecFails s f
  | tooMany {i stripe k} (hpc : s.fecThread = .release i stripe k)
    (hstripe : stripe < (s.slices i).fecStripes)
    (hlt : (s.slices i).missingDataBlocks stripe < (s.slices i).fecBlocks stripe) :
    FecFails s .tooManyFecBlocks
  | freeBlock {i stripe k f} (hpc : s.fecThread = .release i stripe k)
    (hstripe : stripe < (s.slices i).fecStripes) (hk : k < (s.slices i).fecBlocks stripe)
    (hfree : freeBlockSpace s ((s.slices i).fecDescs (stripe + k * (s.slices i).fecStripes)).adr =
      .error f) : FecFails s f
  | release {f} (hpc : s.fecThread = .cleanup) (hclean : cleanupSlices s .fecDone = .error f) :
    FecFails s f
  | freeSlot {pos bytes f} (hpc : s.fecThread = .freeSlot pos bytes)
    (hfree : freeSlot s pos bytes = .error f) : FecFails s f

/-- What can stop a receiver. -/
inductive Fails (s : State) : Action → Failure → Prop
  | net {t rest f} (ht : s.tasks = t :: rest) (hfails : NetFails s t rest f) : Fails s .net f
  | fec {f} (hfails : FecFails s f) : Fails s .fec f
  | writer {n bytes} (hpc : s.writer = .produce bytes)
    (hq : pcProduce s.freeMemQueue bytes = none) : Fails s (.writer n) .overflow

/-- The state in which the process has stopped. -/
def Stopped (s s' : State) (f : Failure) : Prop :=
  ∃ tasks q n, s' =
    { s with tasks := tasks, freeSlicesPc := q, allocated := n, failure := some f }

variable {s s' : State} {f : Failure}

/-- The error of a computation with a last touch is its own. -/
theorem map_error {x : Except Failure State} {g : State → State} (h : x.map g = .error f) :
    x = .error f := by
  cases x with
  | ok s₁ => cases h
  | error e => exact congrArg _ (Except.error.inj h)

/-- A step that stops the process does so because of an error. -/
theorem continue_error {x : Except Failure State} (hfails : (s.continue x).failure = some f)
    (hok : ∀ s₁, x = .ok s₁ → s₁.failure = none) :
    x = .error f ∧ s.continue x = s.fail f := by
  cases x with
  | ok s₁ =>
    rw [State.continue, hok s₁ rfl] at hfails
    cases hfails
  | error e =>
    obtain rfl := Option.some.inj hfails
    exact ⟨rfl, rfl⟩

/-- The treatment of a message reports its failure, and does not hide one. -/
theorem process_failure {msg : ServerMsg} (h : process s msg = .ok s') : s'.failure = s.failure := by
  obtain ⟨i, -, hw, -⟩ := process_works_found h
  exact congrArg Rest.failure hw.rest_eq

/-- So does the end of `processFecBlock`. -/
theorem finishFecBlock_failure {i : ℕ} (h : finishFecBlock s i = .ok s') :
    s'.failure = s.failure :=
  congrArg Rest.failure (finishFecBlock_works h).1.rest_eq

/-- So does completing a slice by force. -/
theorem completeByForce_failure {i : ℕ} (h : completeByForce s i = .ok s') :
    s'.failure = s.failure :=
  congrArg Rest.failure (completeByForce_works h).1.rest_eq

/-- So does setting up a slot. -/
theorem initSlice_failure {i : ℕ} {n : ℤ} (h : initSlice s i n = .ok s') :
    s'.failure = s.failure := by
  obtain ⟨-, -, -, guess, -, rfl⟩ := initSlice_ok h
  rfl

/-- A last touch that leaves the failure alone does not stop the process. -/
theorem map_failure {x : Except Failure State} {g : State → State}
    (hx : ∀ s₁, x = .ok s₁ → s₁.failure = none) (hg : ∀ s₁, (g s₁).failure = s₁.failure) :
    ∀ s₁, x.map g = .ok s₁ → s₁.failure = none := by
  intro s₁ h
  obtain ⟨s₂, hok, rfl⟩ := map_ok h
  rw [hg, hx s₂ hok]

/-- Freeing a slot reports its failure as well. -/
theorem freeSlot_failure {pos bytes : ℕ} (h : freeSlot s pos bytes = .ok s') :
    s'.failure = s.failure := by
  obtain ⟨q, -, rfl⟩ := freeSlot_ok h
  rfl

/-- So does giving its bytes to the writer. -/
theorem cleanupSlices_failure {doneState : SliceState} {slot : Option (ℕ × ℕ)}
    (h : cleanupSlices s doneState = .ok (s', slot)) : s'.failure = s.failure := by
  rcases cleanupSlices_ok h with ⟨-, -, rfl⟩ | ⟨_, _, -, -, -, -, ⟨-, rfl⟩ | ⟨-, q, -, rfl⟩⟩ <;> rfl

section Errors

variable {i b n bytes : ℕ}

/-- A computation in two parts fails in the first part, or in the second after the first has
succeeded. -/
theorem bind_error {α β : Type} {x : Except Failure α} {g : α → Except Failure β}
    (h : x.bind g = .error f) : x = .error f ∨ ∃ a, x = .ok a ∧ g a = .error f := by
  cases x with
  | error e => exact .inl (congrArg _ (Except.error.inj h))
  | ok a => exact .inr ⟨a, rfl, h⟩

/-- A slot cannot be set up in use, after a slice of unknown size, or out of turn. -/
theorem initSlice_error {n : ℤ} (h : initSlice s i n = .error f) :
    (f = .sliceInUse ∧ (s.slices i).state ≠ .free ∧ (s.slices i).state ≠ .receiving) ∨
    (f = .previousSizeUnknown ∧
      ∃ c, s.currentSlice = some c ∧ (s.slices c).bytesKnown = false) ∨
    (f = .sliceNoMismatch ∧ s.streaming = false ∧ s.currentSliceNo ≠ n - 1) := by
  unfold initSlice at h
  dsimp only at h
  split at h
  · rename_i hstate
    exact .inl ⟨(Except.error.inj h).symm, hstate⟩
  · split at h
    · rename_i hknown
      obtain ⟨c, hc, hunknown⟩ := hknown
      refine .inr (.inl ⟨(Except.error.inj h).symm, c, hc, ?_⟩)
      rcases eq_or_ne c i with rfl | hne
      · rwa [setSlice_self] at hunknown
      · rwa [setSlice_of_ne _ hne] at hunknown
    · split at h
      · rename_i hno
        exact .inr (.inr ⟨(Except.error.inj h).symm, hno.1, hno.2⟩)
      · cases h

/-- A message contradicts the size of the slice that is known already. -/
theorem setSliceBytes_error (h : setSliceBytes s i bytes = .error f) :
    f = .byteNumberMismatch ∧ (s.slices i).bytesKnown = true ∧ (s.slices i).bytes ≠ bytes := by
  unfold setSliceBytes at h
  dsimp only at h
  split at h
  · rename_i hknown
    split at h
    · cases h
    · rename_i hne
      exact ⟨(Except.error.inj h).symm, hknown, hne⟩
  · cases h

/-- A slice is complete without all of its data blocks, though no FEC is in use. -/
theorem checkSliceComplete_error (h : checkSliceComplete s i = .error f) :
    f = .fecNotUsed ∧ s.useFec = false ∧
      (getSliceBlocks (s.slices i) s.config : ℤ) = (s.slices i).blocksTransferred ∧
      (s.slices i).blocksTransferred ≠ (s.slices i).dataBlocksTransferred := by
  unfold checkSliceComplete at h
  dsimp only at h
  split at h
  · cases h
  · rename_i hnot
    push Not at hnot
    by_cases hdata : (getSliceBlocks (s.slices i) s.config : ℤ) =
        (s.slices i).dataBlocksTransferred
    · rw [if_pos hdata] at h
      cases h
    · rw [if_neg hdata] at h
      cases huse : s.useFec with
      | true => cases hstreaming : s.streaming <;> simp [State.enter, huse, hstreaming] at h
      | false =>
        refine ⟨?_, rfl, hnot.2, hnot.2 ▸ hdata⟩
        cases hstreaming : s.streaming <;> simpa [State.enter, huse, hstreaming, eq_comm] using h

/-- A data block may contradict the size of the slice. -/
theorem noteBytes_error (h : noteBytes s i bytes = .error f) :
    setSliceBytes s i bytes = .error f := by
  unfold noteBytes at h
  split at h
  · split at h
    · exact h
    · cases h
  · cases h

/-- A data block cannot be counted, or completes the slice without FEC being in use. -/
theorem countData_error (h : countData s i b = .error f) :
    countArrival { s.slices i with map := insert b (s.slices i).map } s.localBlocks b =
      .error f ∨ f = .fecNotUsed := by
  rcases bind_error h with hcount | ⟨p, -, hcheck⟩
  · exact .inl hcount
  · exact .inr (checkSliceComplete_error hcheck).1

/-- A data block fails because the slice is too far ahead of the current one, because the base of
the slot is not aligned, or because of its size or its counters. -/
theorem processDataBlock_error (h : processDataBlock s i n b bytes = .error f) :
    (s.slices i).state = .receiving ∧
    (f = .droppedBySender ∨ b ∉ (s.slices i).map ∧ (f = .badBase ∨
      noteBytes (s.copyBlock (.ring (adr s (s.slices i) b))) i bytes = .error f ∨
      ∃ s₁, noteBytes (s.copyBlock (.ring (adr s (s.slices i) b))) i bytes = .ok s₁ ∧
        countData s₁ i b = .error f)) := by
  unfold processDataBlock at h
  dsimp only at h
  split at h
  · cases h
  · rename_i hstate
    refine ⟨not_not.mp hstate, ?_⟩
    split at h
    · exact .inl (Except.error.inj h).symm
    · split at h
      · cases h
      · rename_i hmap
        refine .inr ⟨hmap, ?_⟩
        split at h
        · exact .inl (Except.error.inj h).symm
        · exact .inr (bind_error h)

/-- A FEC block fails only where it completes a slice, which needs FEC to be in use. -/
theorem countFec_error {stripes : ℕ} (h : countFec s i stripes b = .error f) :
    f = .fecNotUsed := by
  unfold countFec at h
  dsimp only at h
  split at h
  · exact (checkSliceComplete_error h).1
  · split at h <;> cases h

/-- Otherwise it fails only because of its size. -/
theorem processFecBlock_error {stripes : ℕ} (h : processFecBlock s i stripes b bytes = .error f) :
    f = .fecNotUsed ∨ ((s.slices i).state = .receiving ∨ (s.slices i).state = .fecDone) ∧
      setSliceBytes s i bytes = .error f := by
  unfold processFecBlock at h
  dsimp only at h
  split at h
  · cases h
  · rename_i hstate
    rcases bind_error h with hset | ⟨s₁, -, h⟩
    · refine .inr ⟨?_, hset⟩
      cases hcase : (s.slices i).state <;> simp [hcase] at hstate ⊢
    · refine .inl ?_
      split at h
      · exact countFec_error h
      · split at h
        · cases h
        · exact countFec_error h

/-- A REQACK that is for this client fails because of its size, or where it completes a slice. -/
theorem processReqAck_error {rxmit : ℕ} (h : processReqAck s n bytes rxmit = .error f) :
    s.isReady = false ∧ ∃ i, s.found = some i ∧
      (f = .fecNotUsed ∨ setSliceBytes s i bytes = .error f) := by
  unfold processReqAck at h
  split at h
  · cases h
  · rename_i hready
    refine ⟨Bool.not_eq_true _ ▸ hready, ?_⟩
    split at h
    · cases h
    · rename_i i hfound
      refine ⟨i, hfound, ?_⟩
      rcases bind_error h with hset | ⟨s₁, -, hcheck⟩
      · exact .inr hset
      · exact .inl (checkSliceComplete_error hcheck).1

/-- To complete a slice by force fails if it is complete already, or if FEC would be needed. -/
theorem completeByForce_error (h : completeByForce s i = .error f) :
    f = .nothingToFake ∧ (s.slices i).state = .done ∨ f = .fecNotUsed := by
  unfold completeByForce at h
  dsimp only at h
  split at h
  · rename_i hdone
    exact .inl ⟨(Except.error.inj h).symm, hdone⟩
  · refine .inr ?_
    rcases bind_error h with hset | ⟨s₁, -, hcheck⟩
    · split at hset
      · cases hset
      · rename_i hunknown
        exact absurd (setSliceBytes_error hset).2.1 hunknown
    · exact (checkSliceComplete_error hcheck).1

/-- The end of `processFecBlock` fails only where it completes a slice. -/
theorem finishFecBlock_error (h : finishFecBlock s i = .error f) : f = .fecNotUsed :=
  (checkSliceComplete_error h).1

/-- The writer has no room for the bytes. -/
theorem cleanupSlices_error {doneState : SliceState} (h : cleanupSlices s doneState = .error f) :
    f = .overflow := by
  unfold cleanupSlices at h
  dsimp only at h
  split at h
  · cases h
  · split at h
    · cases h
    · split at h
      · cases h
      · exact (Except.error.inj h).symm

/-- There is no room for the slot among the free ones. -/
theorem freeSlot_error {pos : ℕ} (h : freeSlot s pos bytes = .error f) : f = .overflow := by
  unfold freeSlot at h
  split at h
  · cases h
  · exact (Except.error.inj h).symm

/-- The block has no address, or there is no room for it among the free ones. -/
theorem freeBlockSpace_error {block : Option ℕ} (h : freeBlockSpace s block = .error f) :
    f = .noAddress ∧ block = none ∨ f = .overflow := by
  unfold freeBlockSpace at h
  split at h
  · exact .inl ⟨(Except.error.inj h).symm, rfl⟩
  · split at h
    · cases h
    · exact .inr (Except.error.inj h).symm

end Errors

/-- The process stops at a task that has been begun. -/
theorem Stopped.popped (rest : List Task) : Stopped s ((s.popped rest).fail f) f :=
  ⟨rest, s.freeSlicesPc, s.allocated, rfl⟩

/-! ## The network thread, task by task -/

section Tasks

variable {n : ℤ} {rest : List Task}

/-- `findSlice` stops the process only in streaming mode: when it cannot set up the slot of the
streaming receiver again, or when that slot is not the first one. -/
theorem findSlice_fails (hrunning : s.failure = none)
    (hfails : (findSlice (s.popped rest) n).failure = some f) :
    NetFails s (.findSlice n) rest f ∧ Stopped s (findSlice (s.popped rest) n) f := by
  unfold findSlice at hfails ⊢
  split at hfails
  · exact absurd (hrunning.symm.trans hfails) (by simp)
  · rename_i c hcurrent
    split at hfails
    · exact absurd (hrunning.symm.trans hfails) (by simp)
    · rename_i hlt
      rw [if_neg hlt]
      split at hfails
      · rename_i hstreaming
        rw [if_pos hstreaming]
        split at hfails
        · rename_i hzero
          subst hzero
          rw [if_pos rfl]
          obtain ⟨herror, heq⟩ := continue_error (s := s.popped rest) hfails
            (map_failure (fun s₁ h => (initSlice_failure h).trans hrunning) fun _ => rfl)
          refine ⟨.restart hcurrent (not_le.mp hlt) hstreaming (map_error herror), ?_⟩
          exact (heq :) ▸ .popped rest
        · rename_i hne
          rw [if_neg hne]
          obtain rfl := Option.some.inj hfails
          exact ⟨.notFirst hcurrent hstreaming hne, .popped rest⟩
      · exact absurd (hrunning.symm.trans hfails) (by simp)

/-- The backward scan of `findSlice` goes on or ends; it never stops the process. -/
theorem scanSlot_running (hrunning : s.failure = none) (pos : ℕ) :
    (scanSlot (s.popped rest) n pos).failure = none := by
  unfold scanSlot
  split
  · exact hrunning
  · split <;> exact hrunning

/-- Nor does the condition of the loop at the end: what stops the process comes after it. -/
theorem catchUp_running (hrunning : s.failure = none) :
    (catchUp (s.popped rest) n).failure = none := by
  unfold catchUp
  split <;> exact hrunning

/-- A turn of the loop of `advanceReceivedPointer` moves the pointer or ends. -/
theorem advance_running (hrunning : s.failure = none) (pos : ℕ) :
    (advance (s.popped rest) pos).failure = none := by
  unfold advance
  split <;> exact hrunning

/-- `newSlice` insists on a free slot. -/
theorem takeSlot_fails (hrunning : s.failure = none)
    (hfails : (takeSlot (s.popped rest) n).failure = some f) :
    NetFails s (.takeSlot n) rest f ∧ Stopped s (takeSlot (s.popped rest) n) f := by
  unfold takeSlot at hfails ⊢
  dsimp only at hfails ⊢
  split at hfails
  · exact absurd (hrunning.symm.trans hfails) (by simp)
  · rename_i hstate
    rw [if_neg hstate]
    obtain rfl := Option.some.inj hfails
    exact ⟨.takeSlot hstate, rest, _, _, rfl⟩

/-- `setNextBlock` only chooses a block; what fails is the end of `processFecBlock`, which
follows it. -/
theorem setNextBlock_fails {i : ℕ} (hrunning : s.failure = none)
    (hstep : runTask (s.popped rest) (.setNextBlock i) = some s') (hfails : s'.failure = some f) :
    NetFails s (.setNextBlock i) rest f ∧ Stopped s s' f := by
  unfold runTask at hstep
  dsimp only at hstep
  split at hstep
  · rename_i b blocks hlocal
    obtain rfl := Option.some.inj hstep
    obtain ⟨herror, heq⟩ := continue_error (s := s.popped rest) hfails
      fun s₁ h => (finishFecBlock_failure h).trans hrunning
    exact ⟨.reuse hlocal herror, (heq :) ▸ .popped rest⟩
  · obtain ⟨m, -, rfl⟩ := Option.map_eq_some_iff.mp hstep
    exact absurd (hrunning.symm.trans hfails) (by simp)

/-- A slot is handed over to `fecMain` only if it is done or can be decoded, and if there is room
in the queue. -/
theorem handOver_fails {i : ℕ} (hrunning : s.failure = none)
    (hfails : (handOver (s.popped rest) i).failure = some f) :
    NetFails s (.handOver i) rest f ∧ Stopped s (handOver (s.popped rest) i) f := by
  unfold handOver at hfails ⊢
  dsimp only at hfails ⊢
  split at hfails
  · rename_i huse
    rw [if_pos huse]
    split at hfails
    · rename_i hstate
      rw [if_pos hstate]
      split at hfails
      · exact absurd (hrunning.symm.trans hfails) (by simp)
      · rename_i hq
        obtain rfl := Option.some.inj hfails
        exact ⟨.enqueue huse hq, .popped rest⟩
    · rename_i hstate
      rw [if_neg hstate]
      obtain rfl := Option.some.inj hfails
      exact ⟨.incomplete huse hstate, .popped rest⟩
  · exact absurd (hrunning.symm.trans hfails) (by simp)

/-- `cleanupSlices` gives bytes to the writer, who may have no room for them. -/
theorem cleanup_fails (hrunning : s.failure = none)
    (hstep : runTask (s.popped rest) .cleanup = some s') (hfails : s'.failure = some f) :
    NetFails s .cleanup rest f ∧ Stopped s s' f := by
  obtain rfl := Option.some.inj hstep
  split at hfails
  · rename_i s₁ pos bytes hok
    exact absurd (hrunning.symm.trans ((cleanupSlices_failure hok).symm.trans hfails)) (by simp)
  · rename_i s₁ hok
    exact absurd (hrunning.symm.trans ((cleanupSlices_failure hok).symm.trans hfails)) (by simp)
  · rename_i e herror
    obtain rfl := Option.some.inj hfails
    exact ⟨.release herror, .popped rest⟩

/-- A step of the network thread that stops the process does so at its current task. -/
theorem netStep_fails (hrunning : s.failure = none) (hstep : netStep s = some s')
    (hfails : s'.failure = some f) :
    ∃ t rest, s.tasks = t :: rest ∧ NetFails s t rest f ∧ Stopped s s' f := by
  unfold netStep at hstep
  split at hstep
  · cases hstep
  · rename_i t rest ht
    refine ⟨t, rest, ht, ?_⟩
    have hnever : ∀ {P : Prop}, s.failure = some f → P := fun hcontra => by
      rw [hrunning] at hcontra
      cases hcontra
    cases t with
    | findSlice n =>
      obtain rfl := Option.some.inj hstep
      exact findSlice_fails hrunning hfails
    | scan n pos =>
      obtain rfl := Option.some.inj hstep
      exact hnever (hrunning.trans ((scanSlot_running hrunning pos).symm.trans hfails))
    | catchUp n =>
      obtain rfl := Option.some.inj hstep
      exact hnever (hrunning.trans ((catchUp_running hrunning).symm.trans hfails))
    | dropped =>
      obtain rfl := Option.some.inj hstep
      obtain rfl := Option.some.inj hfails
      exact ⟨.dropped, .popped rest⟩
    | fakeSliceComplete =>
      obtain rfl := Option.some.inj hstep
      exact hnever hfails
    | fakeFound =>
      obtain rfl := Option.some.inj hstep
      dsimp only at hfails ⊢
      split at hfails
      · rename_i i hfound
        obtain ⟨herror, heq⟩ := continue_error (s := s.popped rest) hfails
          fun s₁ h => (completeByForce_failure h).trans hrunning
        exact ⟨.force hfound herror, (heq :) ▸ .popped rest⟩
      · rename_i hfound
        obtain rfl := Option.some.inj hfails
        exact ⟨.notFound hfound, .popped rest⟩
    | newSlice n =>
      obtain ⟨m, -, rfl⟩ := Option.map_eq_some_iff.mp hstep
      exact hnever hfails
    | takeSlot n =>
      obtain rfl := Option.some.inj hstep
      exact takeSlot_fails hrunning hfails
    | reserve i n =>
      obtain ⟨m, -, rfl⟩ := Option.map_eq_some_iff.mp hstep
      obtain ⟨herror, heq⟩ := continue_error (s := s.popped rest) hfails
        (map_failure (fun s₁ h => (initSlice_failure h).trans hrunning) fun _ => rfl)
      exact ⟨.reserve (map_error herror), (heq :) ▸ .popped rest⟩
    | process msg =>
      obtain rfl := Option.some.inj hstep
      obtain ⟨herror, heq⟩ := continue_error (s := s.popped rest) hfails
        fun s₁ h => (process_failure h).trans hrunning
      exact ⟨.process herror, (heq :) ▸ .popped rest⟩
    | setNextBlock i => exact setNextBlock_fails hrunning hstep hfails
    | takeBlock i =>
      obtain rfl := Option.some.inj hstep
      obtain ⟨herror, heq⟩ := continue_error (s := s.popped rest) hfails
        fun s₁ h => (finishFecBlock_failure h).trans hrunning
      exact ⟨.takeBlock herror, (heq :) ▸ .popped rest⟩
    | advanceReceivedPointer =>
      obtain rfl := Option.some.inj hstep
      exact hnever (hrunning.trans ((advance_running hrunning s.receivedPtr).symm.trans hfails))
    | advance pos =>
      obtain rfl := Option.some.inj hstep
      exact hnever (hrunning.trans ((advance_running hrunning pos).symm.trans hfails))
    | handOver i =>
      obtain rfl := Option.some.inj hstep
      exact handOver_fails hrunning hfails
    | cleanup => exact cleanup_fails hrunning hstep hfails
    | freeSlot pos bytes =>
      obtain rfl := Option.some.inj hstep
      obtain ⟨herror, heq⟩ := continue_error (s := s.popped rest) hfails
        (map_failure (fun s₁ h => (freeSlot_failure h).trans hrunning) fun _ => rfl)
      exact ⟨.freeSlot (map_error herror), (heq :) ▸ .popped rest⟩

end Tasks

/-! ## The FEC thread and the writer -/

/-- The process stops where it is. -/
theorem Stopped.fail : Stopped s (s.fail f) f := ⟨s.tasks, s.freeSlicesPc, s.allocated, rfl⟩

/-- A step of the FEC thread that stops the process is one of its failures. -/
theorem fecStep_fails (hrunning : s.failure = none) (hstep : fecStep s = some s')
    (hfails : s'.failure = some f) : FecFails s f ∧ Stopped s s' f := by
  have hnever : ∀ {P : Prop}, s.failure = some f → P := fun hcontra => by
    rw [hrunning] at hcontra
    cases hcontra
  unfold fecStep at hstep
  split at hstep
  · cases hstep
  · obtain rfl := Option.some.inj hstep
    exact hnever hfails
  · obtain ⟨m, -, rfl⟩ := Option.map_eq_some_iff.mp hstep
    exact hnever hfails
  · obtain rfl := Option.some.inj hstep
    dsimp only at hfails
    split at hfails <;> exact hnever hfails
  · rename_i i hpc
    obtain rfl := Option.some.inj hstep
    obtain ⟨herror, heq⟩ := continue_error hfails (map_failure (fun s₁ h => by
      obtain ⟨mem, blocks, rfl⟩ := decodeSlice_ok h
      exact hrunning) fun _ => rfl)
    exact ⟨.decode hpc (map_error herror), (heq :) ▸ .fail⟩
  · rename_i i stripe k hpc
    obtain rfl := Option.some.inj hstep
    unfold releaseStep at hfails ⊢
    dsimp only at hfails ⊢
    split at hfails
    · exact hnever hfails
    · rename_i hstripe
      rw [if_neg hstripe]
      split at hfails
      · rename_i hlt
        rw [if_pos hlt]
        obtain rfl := Option.some.inj hfails
        exact ⟨.tooMany hpc (not_le.mp hstripe) hlt, .fail⟩
      · rename_i hle
        rw [if_neg hle]
        split at hfails
        · exact hnever hfails
        · rename_i hk
          rw [if_neg hk]
          obtain ⟨herror, heq⟩ := continue_error hfails (map_failure (fun s₁ h => by
            obtain ⟨b, q, -, -, rfl⟩ := freeBlockSpace_ok h
            exact hrunning) fun _ => rfl)
          exact ⟨.freeBlock hpc (not_le.mp hstripe) (not_le.mp hk) (map_error herror),
            (heq :) ▸ .fail⟩
  · rename_i hpc
    obtain rfl := Option.some.inj hstep
    split at hfails
    · rename_i s₁ pos bytes hok
      exact hnever ((cleanupSlices_failure hok).symm.trans hfails)
    · rename_i s₁ hok
      exact hnever ((cleanupSlices_failure hok).symm.trans hfails)
    · rename_i e herror
      obtain rfl := Option.some.inj hfails
      exact ⟨.release hpc herror, .fail⟩
  · rename_i pos bytes hpc
    obtain rfl := Option.some.inj hstep
    obtain ⟨herror, heq⟩ := continue_error hfails
      (map_failure (fun s₁ h => (freeSlot_failure h).trans hrunning) fun _ => rfl)
    exact ⟨.freeSlot hpc (map_error herror), (heq :) ▸ .fail⟩
  · cases hstep

/-- So is any step that stops the process, and it leaves nearly everything as it was. -/
theorem act_fails {a : Action} (hstep : act s a = some s') (hfails : s'.failure = some f) :
    s.failure = none ∧ Fails s a f ∧ Stopped s s' f := by
  unfold act at hstep
  split at hstep
  · rename_i hrunning
    refine ⟨hrunning, ?_⟩
    have hnever : ∀ {P : Prop}, s.failure = some f → P := fun hcontra => by
      rw [hrunning] at hcontra
      cases hcontra
    cases a with
    | receive msg =>
      obtain ⟨-, -, mem, blocks, rfl⟩ := receiveStep_ok hstep
      exact hnever hfails
    | exitWait =>
      obtain ⟨-, -, rfl⟩ := exitWaitStep_ok hstep
      exact hnever hfails
    | net =>
      obtain ⟨t, rest, ht, hnet, hstopped⟩ := netStep_fails hrunning hstep hfails
      exact ⟨.net ht hnet, hstopped⟩
    | fec =>
      obtain ⟨hfec, hstopped⟩ := fecStep_fails hrunning hstep hfails
      exact ⟨.fec hfec, hstopped⟩
    | writer n =>
      unfold writerStep at hstep
      dsimp only at hstep
      split at hstep
      · obtain ⟨m, -, rfl⟩ := Option.map_eq_some_iff.mp hstep
        split at hfails <;> exact hnever hfails
      · split at hstep
        · obtain rfl := Option.some.inj hstep
          exact hnever hfails
        · cases hstep
      · obtain rfl := Option.some.inj hstep
        exact hnever hfails
      · rename_i bytes hpc
        obtain rfl := Option.some.inj hstep
        split at hfails
        · exact hnever hfails
        · rename_i hq
          obtain rfl := Option.some.inj hfails
          exact ⟨.writer hpc hq, .fail⟩
      · cases hstep
  · cases hstep

/-- The step with which a receiver has stopped. -/
theorem fails_of_reachable {st : Stream} {mode : Mode} {C : State → State → Prop}
    (h : ((system st mode).restrict C).Reachable s) (hfails : s.failure = some f) :
    ∃ s₀ a, ((system st mode).restrict C).Reachable s₀ ∧ s₀.failure = none ∧ a.Conforms st ∧
      C s₀ s ∧ Fails s₀ a f ∧ Stopped s₀ s f := by
  obtain ⟨s₁, hinit, hrun⟩ := h
  rcases Relation.ReflTransGen.cases_tail hrun with rfl | ⟨s₀, hbefore, ⟨a, ha, hstep⟩, hC⟩
  · obtain ⟨config, streaming, mem, blockData, -, -, -, hstart⟩ := hinit
    obtain ⟨_, _, _, -, -, -, rfl⟩ := start_eq hstart
    cases hfails
  · obtain ⟨hrunning, hcase, hstopped⟩ := act_fails hstep hfails
    exact ⟨s₀, a, ⟨s₁, hinit, hbefore⟩, hrunning, ha, hC, hcase, hstopped⟩

end Udpcast.Receiver
