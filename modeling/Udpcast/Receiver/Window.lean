import Udpcast.Receiver.Moves

/-!
# The window of slices in use

Slots are taken and given back in turn. The slices in use are consecutive, each in the slot
that follows the one of its predecessor, and only they are not free. This holds in every
mode of the receiver.
-/

namespace Udpcast.Receiver

open Queue
open Protocol

/-- The number of the slice that a message is about. -/
def sliceNoOf : ServerMsg → ℤ
  | .data n _ _ _ | .fec _ n _ _ _ | .reqack n _ _ _ => n
  | .hello => 0

/-- The slice that a task looks for. -/
def Task.finds : Task → Option ℤ
  | .findSlice n | .scan n _ | .catchUp n | .newSlice n | .takeSlot n | .reserve _ n => some n
  | _ => none

/-- `t'` can wait for the end of `t`. -/
def Follows (t : Task) : Task → Prop
  | .process msg => t.finds = some (sliceNoOf msg)
  | .fakeSliceComplete | .fakeFound | .dropped => t.finds ≠ none
  | .catchUp _ | .advanceReceivedPointer | .handOver _ | .cleanup => ∀ msg, t ≠ .process msg
  | _ => False

/-- The slot that is taken but not set up yet. -/
def reservedSlot : List Task → Option ℕ
  | .reserve i _ :: _ => some i
  | _ => none

/-- A slot is about to be taken. -/
def takesSlot : List Task → Prop
  | .newSlice _ :: _ | .takeSlot _ :: _ => True
  | _ => False

/-- The slots and the slices in them. -/
structure Slots (s : State) : Prop where
  queue : s.freeSlicesPc.Holds nrSlices (nrSlices + s.freed) s.allocated
  freed_le : s.freed ≤ s.started
  started_le : s.started ≤ s.allocated
  current : s.currentSlice = if s.started = 0 then none else some ((s.started - 1) % nrSlices)
  sliceNo : ∀ k, k < s.started → s.started ≤ k + nrSlices →
    (s.slices (k % nrSlices)).sliceNo = s.currentSliceNo - (s.started - 1 - k : ℕ)
  unused : ∀ i, s.started ≤ i → i < nrSlices → (s.slices i).sliceNo = -1
  taken : ∀ k, s.freed ≤ k → k < s.started → (s.slices (k % nrSlices)).state ≠ .free
  free : ∀ k, s.started ≤ k → k < s.freed + nrSlices → (s.slices (k % nrSlices)).state = .free
  fecAbsent : s.useFec = false ↔ s.fecThread = .absent
  fecFrees : ∀ pos b, s.fecThread = .freeSlot pos b →
    pos = s.freed % nrSlices ∧ s.freed < s.started ∧ (s.slices pos).state = .fecDone
  decoding : ∀ i, s.fecThread = .decode i → (s.slices i).state = .fec
  releasing : ∀ i k j, s.fecThread = .release i k j → (s.slices i).state = .fecDone
  streaming : s.streaming = true → s.allocated ≤ 1 ∧ s.freed = 0 ∧
    ∀ j, (s.slices j).state = .free ∨ (s.slices j).state = .receiving

/-- The tasks of the network thread. -/
structure Stack (s : State) : Prop where
  chain : s.tasks.IsChain Follows
  reserved : ∀ i, reservedSlot s.tasks = some i →
    s.allocated = s.started + 1 ∧ i = s.started % nrSlices
  settled : reservedSlot s.tasks = none → s.allocated = s.started
  found : ∀ msg rest i, s.tasks = .process msg :: rest → s.found = some i →
    (s.slices i).sliceNo = sliceNoOf msg
  netFrees : ∀ pos b rest, s.tasks = .freeSlot pos b :: rest →
    pos = s.freed % nrSlices ∧ s.freed < s.started ∧ (s.slices pos).state = .done
  cleanup : ∀ t ∈ s.tasks, (t = .cleanup ∨ ∃ pos b, t = .freeSlot pos b) → s.useFec = false
  catchUp : s.streaming = true → ∀ n, .catchUp n ∉ s.tasks
  allocates : s.streaming = true → takesSlot s.tasks → s.allocated = 0

/-- The window of slices, as long as the process runs. -/
structure Window (s : State) : Prop where
  slots : Slots s
  stack : Stack s

variable {s s' : State} {i : ℕ}

/-- Slices that are less than a turn of the slots apart are in different slots. -/
theorem mod_slots_ne {k k' : ℕ} (hlt : k < k') (hle : k' < k + nrSlices) :
    k % nrSlices ≠ k' % nrSlices :=
  mod_ne_of_lt hlt hle

section Slots

variable (h : Slots s)
include h

/-- No more slots are taken than there are. -/
theorem Slots.allocated_le : s.allocated ≤ s.freed + nrSlices := by
  have := h.queue.consumed_le
  omega

/-- The next slot to be given back. -/
theorem Slots.producerPosition : pcGetProducerPosition s.freeSlicesPc = s.freed % nrSlices := by
  rw [h.queue.producerPosition_eq, Nat.add_mod_left]

/-- The next slot to be taken. -/
theorem Slots.consumerPosition : pcGetConsumerPosition s.freeSlicesPc = s.allocated % nrSlices :=
  h.queue.consumerPosition_eq

/-- If the next slot to be given back is not free, there is a slice in it. -/
theorem Slots.freed_lt_of_state {x : SliceState} (hstate : x ≠ .free)
    (hpos : (s.slices (s.freed % nrSlices)).state = x) : s.freed < s.started := by
  by_contra hge
  have hfree := h.free s.freed (not_lt.mp hge) (by simp [nrSlices])
  exact hstate (hpos ▸ hfree)

/-- Work on a slice does not touch the window. -/
theorem Slots.works (hw : Works i s s') : Slots s' := by
  have hrest := hw.rest_eq
  have hfreed : s'.freed = s.freed := congrArg Rest.freed hrest
  have hstarted : s'.started = s.started := congrArg Rest.started hrest
  have hallocated : s'.allocated = s.allocated := congrArg Rest.allocated hrest
  have hqueue : s'.freeSlicesPc = s.freeSlicesPc := congrArg Rest.freeSlicesPc hrest
  have hcurrent : s'.currentSlice = s.currentSlice := congrArg Rest.currentSlice hrest
  have hno : s'.currentSliceNo = s.currentSliceNo := congrArg Rest.currentSliceNo hrest
  have hsliceNo : ∀ j, (s'.slices j).sliceNo = (s.slices j).sliceNo := by
    intro j
    rcases eq_or_ne j i with rfl | hj
    · exact hw.sliceNo_eq
    · rw [hw.others j hj]
  have hfree : ∀ j, (s'.slices j).state = .free ↔ (s.slices j).state = .free := by
    intro j
    rcases eq_or_ne j i with rfl | hj
    · rcases hw.state with heq | ⟨hreceiving, -, hdone | ⟨hfec, -⟩⟩
      · rw [heq]
      · simp [hreceiving, hdone]
      · simp [hreceiving, hfec]
    · rw [hw.others j hj]
  have hkept : ∀ j state, state = .fecDone ∨ state = .fec → (s.slices j).state = state →
      (s'.slices j).state = state := by
    intro j state hcase hj
    rcases eq_or_ne j i with rfl | hne
    · rcases hw.state with heq | ⟨hreceiving, -⟩
      · rw [heq, hj]
      · rw [hreceiving] at hj
        rcases hcase with rfl | rfl <;> cases hj
    · rw [hw.others j hne, hj]
  constructor
  · rw [hqueue, hfreed, hallocated]
    exact h.queue
  · rw [hfreed, hstarted]
    exact h.freed_le
  · rw [hstarted, hallocated]
    exact h.started_le
  · rw [hcurrent, hstarted]
    exact h.current
  · intro k hk hle
    rw [hstarted] at hk hle ⊢
    rw [hsliceNo, hno]
    exact h.sliceNo k hk hle
  · intro j hj hlt
    rw [hsliceNo]
    exact h.unused j (hstarted ▸ hj) hlt
  · intro k hk hlt
    rw [ne_eq, hfree]
    exact h.taken k (hfreed ▸ hk) (hstarted ▸ hlt)
  · intro k hk hlt
    rw [hfree]
    exact h.free k (hstarted ▸ hk) (hfreed ▸ hlt)
  · rcases hw.fecThread with ⟨huse, hthread⟩ | ⟨-, huse, hthread⟩
    · rw [huse, hthread]
      exact h.fecAbsent
    · simp [huse, hthread]
  · intro pos b hpc
    rcases hw.fecThread with ⟨-, hthread⟩ | ⟨-, -, hthread⟩
    · obtain ⟨hpos, hlt, hstate⟩ := h.fecFrees pos b (hthread ▸ hpc)
      exact ⟨hfreed ▸ hpos, by omega, hkept pos _ (.inl rfl) hstate⟩
    · rw [hthread] at hpc
      cases hpc
  · intro j hpc
    rcases hw.fecThread with ⟨-, hthread⟩ | ⟨-, -, hthread⟩
    · exact hkept j _ (.inr rfl) (h.decoding j (hthread ▸ hpc))
    · rw [hthread] at hpc
      cases hpc
  · intro j k l hpc
    rcases hw.fecThread with ⟨-, hthread⟩ | ⟨-, -, hthread⟩
    · exact hkept j _ (.inl rfl) (h.releasing j k l (hthread ▸ hpc))
    · rw [hthread] at hpc
      cases hpc
  · intro hstreaming
    obtain ⟨hle, hzero, hfresh⟩ := h.streaming (hw.streaming hstreaming)
    refine ⟨hallocated ▸ hle, hfreed ▸ hzero, fun j => ?_⟩
    rcases eq_or_ne j i with rfl | hj
    · rcases hw.state with heq | ⟨-, hoff, -⟩
      · rw [heq]
        exact hfresh j
      · rw [hoff] at hstreaming
        cases hstreaming
    · rw [hw.others j hj]
      exact hfresh j

/-- The slot at the producer position is given back. -/
theorem Slots.freeSlot {pos b : ℕ} (hthread : s.fecThread = .cleanup ∨ s.fecThread = .absent)
    (hpos : pos = s.freed % nrSlices) (hlt : s.freed < s.started)
    (hstate : (s.slices pos).state = .done ∨ (s.slices pos).state = .fecDone)
    (hok : Receiver.freeSlot s pos b = .ok s') : Slots s' := by
  obtain ⟨q, hq, rfl⟩ := freeSlot_ok hok
  have hle := h.allocated_le
  have hstarted := h.started_le
  obtain ⟨q', hq', hholds, -⟩ := h.queue.pcProduce (n := 1) (by omega)
  rw [hq] at hq'
  obtain rfl := Option.some.inj hq'
  have hother : ∀ k, s.freed < k → k < s.freed + nrSlices → k % nrSlices ≠ pos := by
    intro k hk hklt
    rw [hpos]
    exact (mod_slots_ne hk hklt).symm
  have hslices : ∀ j, (Function.update s.slices pos { s.slices pos with state := .free } j).sliceNo =
      (s.slices j).sliceNo := by
    intro j
    rcases eq_or_ne j pos with rfl | hj
    · rw [Function.update_self]
    · rw [Function.update_of_ne hj]
  refine { h with
    queue := ?_, freed_le := ?_, sliceNo := ?_, unused := ?_, taken := ?_, free := ?_
    fecFrees := ?_, decoding := ?_, releasing := ?_, streaming := ?_ }
  · simpa only [Nat.add_assoc] using hholds
  · exact hlt
  · intro k hk hkle
    rw [hslices]
    exact h.sliceNo k hk hkle
  · intro j hj hjlt
    rw [hslices]
    exact h.unused j hj hjlt
  · intro k hk hklt
    dsimp only at hk hklt ⊢
    rw [Function.update_of_ne (hother k (by omega) (by omega))]
    exact h.taken k (by omega) hklt
  · intro k hk hklt
    dsimp only at hk hklt ⊢
    rcases eq_or_ne (k % nrSlices) pos with heq | hne
    · rw [heq, Function.update_self]
    · rw [Function.update_of_ne hne]
      apply h.free k hk
      by_contra hge
      have hk' : k = s.freed + nrSlices := by omega
      exact hne (by rw [hk', Nat.add_mod_right, hpos])
  · intro pos' b' hpc
    rcases hthread with hthread | hthread <;> rw [hthread] at hpc <;> cases hpc
  · intro j hpc
    rcases hthread with hthread | hthread <;> rw [hthread] at hpc <;> cases hpc
  · intro j k l hpc
    rcases hthread with hthread | hthread <;> rw [hthread] at hpc <;> cases hpc
  · intro hstreaming
    rcases (h.streaming hstreaming).2.2 pos with hfree | hreceiving
    · rw [hfree] at hstate
      rcases hstate with hstate | hstate <;> cases hstate
    · rw [hreceiving] at hstate
      rcases hstate with hstate | hstate <;> cases hstate

/-- A free slot is taken. -/
theorem Slots.takeSlot {n : ℤ} (hsettled : s.allocated = s.started)
    (hstreaming : s.streaming = true → s.allocated = 0)
    (hrunning : (Receiver.takeSlot s n).failure = none) :
    Slots (Receiver.takeSlot s n) ∧ ∃ q base, Receiver.takeSlot s n =
      { s with
        freeSlicesPc := q
        allocated := s.allocated + 1
        tasks := .reserve (s.started % nrSlices) n :: s.tasks
        slices := Function.update s.slices (s.started % nrSlices)
          { s.slices (s.started % nrSlices) with base := base } } := by
  have hposition := h.consumerPosition
  unfold Receiver.takeSlot at hrunning ⊢
  simp only [hposition, hsettled] at hrunning ⊢
  split at hrunning
  · rename_i hfree
    rw [if_pos hfree]
    refine ⟨?_, _, _, rfl⟩
    have hlt : s.started < s.freed + nrSlices := by
      by_contra hge
      have hle := h.allocated_le
      have hfreed : s.started = s.freed + nrSlices := by omega
      apply h.taken s.freed le_rfl (by rw [hfreed]; simp [nrSlices])
      rw [hfreed, Nat.add_mod_right] at hfree
      exact hfree
    have hslice : ∀ j, (Function.update s.slices (s.started % nrSlices)
          { s.slices (s.started % nrSlices) with
            base := pcGetConsumerPosition s.freeMemQueue } j).sliceNo = (s.slices j).sliceNo ∧
        (Function.update s.slices (s.started % nrSlices)
          { s.slices (s.started % nrSlices) with
            base := pcGetConsumerPosition s.freeMemQueue } j).state = (s.slices j).state := by
      intro j
      rcases eq_or_ne j (s.started % nrSlices) with rfl | hj
      · rw [Function.update_self]
        exact ⟨rfl, rfl⟩
      · rw [Function.update_of_ne hj]
        exact ⟨rfl, rfl⟩
    refine { h with
      queue := ?_, started_le := ?_, sliceNo := ?_, unused := ?_, taken := ?_, free := ?_
      fecFrees := ?_, decoding := ?_, releasing := ?_, streaming := ?_ }
    · have hqueue := h.queue.pcConsumed (n := 1) (by omega)
      rw [hsettled] at hqueue
      exact hqueue
    · exact Nat.le_succ _
    · intro k hk hle
      exact (hslice _).1.trans (h.sliceNo k hk hle)
    · intro j hj hjlt
      exact (hslice _).1.trans (h.unused j hj hjlt)
    · intro k hk hklt
      exact ne_of_eq_of_ne (hslice _).2 (h.taken k hk hklt)
    · intro k hk hklt
      exact (hslice _).2.trans (h.free k hk hklt)
    · intro pos b hpc
      obtain ⟨hpos, hltp, hstate⟩ := h.fecFrees pos b hpc
      exact ⟨hpos, hltp, (hslice _).2.trans hstate⟩
    · intro j hpc
      exact (hslice _).2.trans (h.decoding j hpc)
    · intro j k l hpc
      exact (hslice _).2.trans (h.releasing j k l hpc)
    · intro hlast
      have hzero := hstreaming hlast
      obtain ⟨-, hfreed, hfresh⟩ := h.streaming hlast
      refine ⟨?_, hfreed, fun j => (hslice j).2 ▸ hfresh j⟩
      show s.started + 1 ≤ 1
      omega
  · cases hrunning

/-- The slot that was taken is set up for the next slice. -/
theorem Slots.initSlice {n : ℤ} (hi : i = s.started % nrSlices)
    (hallocated : s.allocated = s.started + 1) (hok : Receiver.initSlice s i n = .ok s') :
    Slots { s' with found := some i, started := s'.started + 1 } := by
  obtain ⟨hstate, -, hmode, guess, -, rfl⟩ := initSlice_ok hok
  have hle := h.allocated_le
  have hfree : (s.slices i).state = .free := by
    rw [hi]
    exact h.free s.started le_rfl (by omega)
  have hself : Function.update s.slices i ((s.slices i).start n guess) i =
      (s.slices i).start n guess := Function.update_self ..
  have hother : ∀ k, k < s.started → s.started < k + nrSlices → k % nrSlices ≠ i := by
    intro k hk hklt
    rw [hi]
    exact mod_slots_ne hk hklt
  refine { h with
    freed_le := ?_, started_le := ?_, current := ?_, sliceNo := ?_, unused := ?_, taken := ?_
    free := ?_, fecFrees := ?_, decoding := ?_, releasing := ?_, streaming := ?_ }
  · have := h.freed_le
    show s.freed ≤ s.started + 1
    omega
  · exact hallocated.ge
  · show some i = if s.started + 1 = 0 then none else some ((s.started + 1 - 1) % nrSlices)
    rw [if_neg (Nat.succ_ne_zero _), Nat.add_sub_cancel, hi]
  · intro k hk hkle
    dsimp only at hk hkle ⊢
    rcases Nat.lt_succ_iff_lt_or_eq.mp hk with hlt | rfl
    · rw [Function.update_of_ne (hother k hlt (by omega)), h.sliceNo k hlt (by omega)]
      have hstreaming : s.streaming = false := by
        by_contra hon
        have := (h.streaming (Bool.not_eq_false _ ▸ hon)).1
        omega
      have := hmode hstreaming
      omega
    · rw [← hi, hself]
      simp [Slice.start]
  · intro j hj hjlt
    dsimp only at hj ⊢
    have hne : j ≠ i := by
      rw [hi, Nat.mod_eq_of_lt (by omega)]
      omega
    rw [Function.update_of_ne hne]
    exact h.unused j (by omega) hjlt
  · intro k hk hklt
    dsimp only at hk hklt ⊢
    rcases Nat.lt_succ_iff_lt_or_eq.mp hklt with hlt | rfl
    · rw [Function.update_of_ne (hother k hlt (by omega))]
      exact h.taken k hk hlt
    · rw [← hi, hself]
      exact SliceState.noConfusion
  · intro k hk hklt
    dsimp only at hk hklt ⊢
    have hne : k % nrSlices ≠ i := by
      rw [hi]
      exact (mod_slots_ne (by omega) (by have := h.freed_le; omega)).symm
    rw [Function.update_of_ne hne]
    exact h.free k (by omega) hklt
  · intro pos b hpc
    obtain ⟨hpos, hlt, hdone⟩ := h.fecFrees pos b hpc
    have hne : pos ≠ i := fun heq => by
      rw [heq, hfree] at hdone
      cases hdone
    refine ⟨hpos, Nat.lt_succ_of_lt hlt, ?_⟩
    dsimp only
    rw [Function.update_of_ne hne]
    exact hdone
  · intro j hpc
    have hfec := h.decoding j hpc
    have hne : j ≠ i := fun heq => by
      rw [heq, hfree] at hfec
      cases hfec
    dsimp only
    rw [Function.update_of_ne hne]
    exact hfec
  · intro j k l hpc
    have hdone := h.releasing j k l hpc
    have hne : j ≠ i := fun heq => by
      rw [heq, hfree] at hdone
      cases hdone
    dsimp only
    rw [Function.update_of_ne hne]
    exact hdone
  · intro hon
    obtain ⟨hallocated, hfreed, hfresh⟩ := h.streaming hon
    refine ⟨hallocated, hfreed, fun j => ?_⟩
    rcases eq_or_ne j i with rfl | hj
    · dsimp only
      rw [hself]
      exact .inr rfl
    · dsimp only
      rw [Function.update_of_ne hj]
      exact hfresh j

/-- In streaming mode the first slot is set up again for a later slice. -/
theorem Slots.restart {n : ℤ} (hcurrent : s.currentSlice = some 0)
    (hstreaming : s.streaming = true) (hok : Receiver.initSlice s 0 n = .ok s') :
    Slots { s' with found := some 0 } ∧ s.started = 1 := by
  obtain ⟨hallocated, hfreed, hfresh⟩ := h.streaming hstreaming
  have hstarted : s.started = 1 := by
    have hle := h.started_le
    have hcur := h.current
    rw [hcurrent] at hcur
    by_contra hne
    rw [if_pos (by omega)] at hcur
    cases hcur
  obtain ⟨hstate, -, -, guess, -, rfl⟩ := initSlice_ok hok
  refine ⟨?_, hstarted⟩
  have hself : Function.update s.slices 0 ((s.slices 0).start n guess) 0 =
      (s.slices 0).start n guess := Function.update_self ..
  have hkeep : ∀ j state, state = .fecDone ∨ state = .fec → (s.slices j).state ≠ state := by
    intro j state hcase hj
    rcases hfresh j with hfree | hreceiving
    · rw [hfree] at hj
      rcases hcase with rfl | rfl <;> cases hj
    · rw [hreceiving] at hj
      rcases hcase with rfl | rfl <;> cases hj
  refine { h with
    current := ?_, sliceNo := ?_, unused := ?_, taken := ?_
    free := ?_, fecFrees := ?_, decoding := ?_, releasing := ?_, streaming := ?_ }
  · show some 0 = if s.started = 0 then none else some ((s.started - 1) % nrSlices)
    rw [hstarted]
    rfl
  · intro k hk hkle
    obtain rfl : k = 0 := by
      dsimp only at hk
      omega
    rw [Nat.zero_mod]
    show (Function.update s.slices 0 ((s.slices 0).start n guess) 0).sliceNo = _
    rw [hself]
    simp [Slice.start, hstarted]
  · intro j hj hjlt
    dsimp only at hj ⊢
    rw [Function.update_of_ne (by omega)]
    exact h.unused j hj hjlt
  · intro k hk hklt
    obtain rfl : k = 0 := by
      dsimp only at hklt
      omega
    rw [Nat.zero_mod]
    show (Function.update s.slices 0 ((s.slices 0).start n guess) 0).state ≠ _
    rw [hself]
    exact SliceState.noConfusion
  · intro k hk hklt
    dsimp only at hk hklt ⊢
    have hne : k % nrSlices ≠ 0 := by
      rw [Nat.mod_eq_of_lt (by omega)]
      omega
    rw [Function.update_of_ne hne]
    exact h.free k hk hklt
  · intro pos b hpc
    exact absurd (h.fecFrees pos b hpc).2.2 (hkeep _ _ (.inl rfl))
  · intro j hpc
    exact absurd (h.decoding j hpc) (hkeep _ _ (.inr rfl))
  · intro j k l hpc
    exact absurd (h.releasing j k l hpc) (hkeep _ _ (.inl rfl))
  · intro hon
    refine ⟨hallocated, hfreed, fun j => ?_⟩
    rcases eq_or_ne j 0 with rfl | hj
    · dsimp only
      rw [hself]
      exact .inr rfl
    · dsimp only
      rw [Function.update_of_ne hj]
      exact hfresh j

end Slots

section Stack

variable {t t' : Task} {l rest : List Task}

/-- The current task may be replaced by one that looks for the same slice. -/
theorem isChain_replace (hchain : (t :: rest).IsChain Follows) (hfinds : t'.finds = t.finds)
    (hprocess : ∀ msg, t' ≠ .process msg) : (t' :: rest).IsChain Follows := by
  cases rest with
  | nil => exact .singleton _
  | cons y rest =>
    obtain ⟨hy, hrest⟩ := List.isChain_cons_cons.mp hchain
    refine List.isChain_cons_cons.mpr ⟨?_, hrest⟩
    cases y <;> simp only [Follows, hfinds] at hy ⊢ <;> first | exact hy | exact hprocess

/-- What waits for a task that finds no slice can wait for any other such task. -/
theorem isChain_of_finds_none (hchain : (t :: rest).IsChain Follows) (hfinds : t.finds = none)
    (hprocess : ∀ msg, t' ≠ .process msg) : (t' :: rest).IsChain Follows := by
  cases rest with
  | nil => exact .singleton _
  | cons y rest =>
    obtain ⟨hy, hrest⟩ := List.isChain_cons_cons.mp hchain
    refine List.isChain_cons_cons.mpr ⟨?_, hrest⟩
    cases y <;> simp only [Follows, hfinds] at hy ⊢ <;>
      first | exact hprocess | exact absurd rfl hy | cases hy

/-- Nothing waits below a message. -/
theorem rest_of_process {msg : ServerMsg} (hchain : (.process msg :: rest).IsChain Follows) :
    rest = [] := by
  cases rest with
  | nil => rfl
  | cons y rest =>
    obtain ⟨hy, -⟩ := List.isChain_cons_cons.mp hchain
    cases y <;> simp [Follows, Task.finds] at hy

/-- What waits is neither in the middle of taking a slot nor of giving one back. -/
theorem rest_outer (hchain : (t :: rest).IsChain Follows) :
    reservedSlot rest = none ∧ ¬takesSlot rest ∧ ∀ pos b tl, rest ≠ .freeSlot pos b :: tl := by
  cases rest with
  | nil => exact ⟨rfl, id, fun _ _ _ => by simp⟩
  | cons y rest =>
    obtain ⟨hy, -⟩ := List.isChain_cons_cons.mp hchain
    cases y <;> simp [Follows, reservedSlot, takesSlot] at hy ⊢

/-- If a message waits next, the current task looks for its slice. -/
theorem finds_of_process {msg : ServerMsg} {tl : List Task}
    (hchain : (t :: rest).IsChain Follows) (hrest : rest = .process msg :: tl) :
    t.finds = some (sliceNoOf msg) := by
  rw [hrest] at hchain
  exact (List.isChain_cons_cons.mp hchain).1

/-- Work on a slice leaves no other message to be processed. -/
theorem Task.Left.ne_process {useFec : Bool} (h : t.Left useFec) (msg : ServerMsg) :
    t ≠ .process msg := by
  rintro rfl
  exact h

/-- What it leaves may wait for the end of any task but a message. -/
theorem Task.Left.follows {useFec : Bool} (h : t'.Left useFec) (hprocess : ∀ msg, t ≠ .process msg) :
    Follows t t' := by
  cases t' <;> first | exact hprocess | exact h.elim

/-- What it leaves may be put before the tasks that wait, when the current task was no search. -/
theorem isChain_left {useFec : Bool} (hl : ∀ x ∈ l, x.Left useFec)
    (hchain : (t :: rest).IsChain Follows) (hfinds : t.finds = none ∨ rest = []) :
    (l ++ rest).IsChain Follows := by
  induction l with
  | nil => exact hchain.tail
  | cons x l ih =>
    have hx := (hl x List.mem_cons_self).ne_process
    have hrest := ih fun y hy => hl y (List.mem_cons_of_mem _ hy)
    cases l with
    | nil =>
      rcases hfinds with hfinds | rfl
      · exact isChain_of_finds_none hchain hfinds hx
      · exact .singleton _
    | cons y l =>
      have hy : y.Left useFec := hl y (List.mem_cons_of_mem _ List.mem_cons_self)
      exact List.isChain_cons_cons.mpr ⟨hy.follows hx, hrest⟩

variable (h : Stack s) (ht : s.tasks = t :: rest)
include h ht

/-- The first task has ended. -/
theorem Stack.pop (htasks : s'.tasks = rest) (hsettled : s'.allocated = s'.started)
    (huse : s'.useFec = s.useFec) (hstreaming : s'.streaming = true → s.streaming = true)
    (hfound : ∀ n j, t.finds = some n → s'.found = some j → (s'.slices j).sliceNo = n) :
    Stack s' := by
  have hchain := h.chain
  rw [ht] at hchain
  obtain ⟨hreserved, hallocates, hfrees⟩ := rest_outer hchain
  constructor
  · rw [htasks]
    exact hchain.tail
  · intro j hj
    rw [htasks, hreserved] at hj
    cases hj
  · intro _
    exact hsettled
  · intro msg tl j hmsg hj
    rw [htasks] at hmsg
    exact hfound _ _ (finds_of_process hchain hmsg) hj
  · intro pos b tl hpos
    rw [htasks] at hpos
    exact absurd hpos (hfrees pos b tl)
  · intro x hx hcase
    rw [htasks] at hx
    rw [huse]
    exact h.cleanup x (ht ▸ List.mem_cons_of_mem _ hx) hcase
  · intro hon n hn
    rw [htasks] at hn
    exact h.catchUp (hstreaming hon) n (ht ▸ List.mem_cons_of_mem _ hn)
  · intro _ hlast
    rw [htasks] at hlast
    exact absurd hlast hallocates

/-- The first task has entered others. -/
theorem Stack.push {x : Task} (htasks : s'.tasks = x :: l ++ rest)
    (hchain : (x :: l ++ rest).IsChain Follows) (hprocess : ∀ msg, x ≠ .process msg)
    (hreserve : ∀ j n, x = .reserve j n →
      s'.allocated = s'.started + 1 ∧ j = s'.started % nrSlices)
    (hsettled : (∀ j n, x ≠ .reserve j n) → s'.allocated = s'.started)
    (hfrees : ∀ pos b, x = .freeSlot pos b →
      pos = s'.freed % nrSlices ∧ s'.freed < s'.started ∧ (s'.slices pos).state = .done)
    (huse : s'.useFec = s.useFec)
    (hcleanup : ∀ y ∈ x :: l, (y = .cleanup ∨ ∃ pos b, y = .freeSlot pos b) → s'.useFec = false)
    (hstreaming : s'.streaming = true → s.streaming = true)
    (hcatchUp : s'.streaming = true → ∀ n, .catchUp n ∉ x :: l)
    (hallocates : s'.streaming = true → takesSlot (x :: l) → s'.allocated = 0) : Stack s' := by
  constructor
  · rw [htasks]
    exact hchain
  · intro j hj
    rw [htasks] at hj
    cases x <;> simp only [List.cons_append, reservedSlot, reduceCtorEq, Option.some.injEq] at hj
    exact hj ▸ hreserve _ _ rfl
  · intro hnone
    refine hsettled fun j n hx => ?_
    rw [htasks, hx] at hnone
    cases hnone
  · intro msg tl j hmsg
    rw [htasks, List.cons_append] at hmsg
    exact absurd (List.cons.inj hmsg).1 (hprocess msg)
  · intro pos b tl hpos
    rw [htasks, List.cons_append] at hpos
    exact hfrees pos b (List.cons.inj hpos).1
  · intro y hy hcase
    rw [htasks] at hy
    rcases List.mem_append.mp hy with hy | hy
    · exact hcleanup y hy hcase
    · rw [huse]
      exact h.cleanup y (ht ▸ List.mem_cons_of_mem _ hy) hcase
  · intro hon n hn
    rw [htasks] at hn
    rcases List.mem_append.mp hn with hn | hn
    · exact hcatchUp hon n hn
    · exact h.catchUp (hstreaming hon) n (ht ▸ List.mem_cons_of_mem _ hn)
  · intro hon hlast
    rw [htasks] at hlast
    apply hallocates hon
    cases x <;> exact hlast

/-- The first task has worked on a slice. -/
theorem Stack.left (hleft : ∃ l, s'.tasks = l ++ rest ∧
      (l = [.setNextBlock i] ∨ ∀ x ∈ l, x.Left s'.useFec)) (hfinds : t.finds = none ∨ rest = [])
    (hsettled : s'.allocated = s'.started) (huse : s'.useFec = s.useFec ∨ rest = [])
    (hstreaming : s'.streaming = true → s.streaming = true) : Stack s' := by
  have hchain := h.chain
  rw [ht] at hchain
  obtain ⟨l, htasks, hl⟩ := hleft
  have huse' : ∀ y ∈ rest, (y = .cleanup ∨ ∃ pos b, y = .freeSlot pos b) → s'.useFec = false := by
    intro y hy hcase
    rcases huse with huse | rfl
    · rw [huse]
      exact h.cleanup y (ht ▸ List.mem_cons_of_mem _ hy) hcase
    · cases hy
  obtain ⟨hreserved, hallocates, hfrees⟩ := rest_outer hchain
  rcases hl with rfl | hl
  · have htasks' : s'.tasks = .setNextBlock i :: rest := htasks
    constructor
    · rw [htasks']
      rcases hfinds with hfinds | rfl
      · exact isChain_of_finds_none hchain hfinds (by simp)
      · exact .singleton _
    · intro j hj
      rw [htasks'] at hj
      cases hj
    · exact fun _ => hsettled
    · intro msg tl j hmsg
      rw [htasks'] at hmsg
      exact absurd (List.cons.inj hmsg).1 (by simp)
    · intro pos b tl hpos
      rw [htasks'] at hpos
      exact absurd (List.cons.inj hpos).1 (by simp)
    · intro y hy hcase
      rw [htasks'] at hy
      rcases List.mem_cons.mp hy with rfl | hy
      · simp at hcase
      · exact huse' y hy hcase
    · intro hon n hn
      rw [htasks'] at hn
      rcases List.mem_cons.mp hn with hn | hn
      · cases hn
      · exact h.catchUp (hstreaming hon) n (ht ▸ List.mem_cons_of_mem _ hn)
    · intro _ hlast
      rw [htasks'] at hlast
      exact hlast.elim
  · have htasks' : s'.tasks = l ++ rest := htasks
    have hhead : ∀ x tl, s'.tasks = x :: tl → x.Left s'.useFec ∨ x :: tl = rest := by
      intro x tl hx
      rw [htasks'] at hx
      cases l with
      | nil => exact .inr hx.symm
      | cons y l =>
        obtain ⟨rfl, -⟩ := List.cons.inj hx
        exact .inl (hl _ List.mem_cons_self)
    constructor
    · rw [htasks']
      exact isChain_left hl hchain hfinds
    · intro j hj
      cases hcase : s'.tasks with
      | nil =>
        rw [hcase] at hj
        cases hj
      | cons x tl =>
        rw [hcase] at hj
        rcases hhead x tl hcase with hx | hx
        · cases x <;> first | exact hx.elim | cases hj
        · rw [hx, hreserved] at hj
          cases hj
    · exact fun _ => hsettled
    · intro msg tl j hmsg
      rcases hhead _ _ hmsg with hx | hx
      · exact hx.elim
      · have hfind := finds_of_process hchain hx.symm
        rcases hfinds with hfinds | rfl
        · rw [hfinds] at hfind
          cases hfind
        · cases hx
    · intro pos b tl hpos
      rcases hhead _ _ hpos with hx | hx
      · exact hx.elim
      · exact absurd hx.symm (hfrees pos b tl)
    · intro y hy hcase
      rw [htasks'] at hy
      rcases List.mem_append.mp hy with hy | hy
      · have hleft := hl y hy
        rcases hcase with rfl | ⟨pos, b, rfl⟩
        · exact hleft
        · exact hleft.elim
      · exact huse' y hy hcase
    · intro hon n hn
      rw [htasks'] at hn
      rcases List.mem_append.mp hn with hn | hn
      · exact (hl _ hn).elim
      · exact h.catchUp (hstreaming hon) n (ht ▸ List.mem_cons_of_mem _ hn)
    · intro _ hlast
      cases hcase : s'.tasks with
      | nil =>
        rw [hcase] at hlast
        exact hlast.elim
      | cons x tl =>
        rw [hcase] at hlast
        rcases hhead x tl hcase with hx | hx
        · cases x <;> first | exact hlast.elim | exact hx.elim
        · rw [hx] at hlast
          exact absurd hlast hallocates

end Stack

section Net

variable {t : Task} {rest : List Task} {n : ℤ}

/-- The slots do not depend on the tasks. -/
theorem Slots.popped (h : Slots s) (rest : List Task) : Slots (s.popped rest) := { h with }

/-- A turn of the backward scan of `findSlice` leaves the slots alone. -/
theorem Slots.scanned (h : Slots s) (pos : ℕ) : Slots (scanSlot s n pos) := by
  unfold scanSlot
  split
  · exact { h with }
  · split <;> exact { h with }

/-- So does a turn of the loop of `advanceReceivedPointer`. -/
theorem Slots.advanced (h : Slots s) (pos : ℕ) : Slots (advance s pos) := by
  unfold advance
  split <;> exact { h with }

/-- So does the loop at the end of `findSlice`. -/
theorem Slots.caughtUp (h : Slots s) : Slots (catchUp s n) := by
  unfold catchUp
  split <;> exact { h with }

/-- So does handing a slot over, which is a matter of the queue. -/
theorem Slots.handedOver (h : Slots s) : Slots (handOver s i) := by
  unfold handOver
  dsimp only
  split
  · split
    · split <;> exact { h with }
    · exact { h with }
  · exact { h with }

variable (h : Window s) (ht : s.tasks = t :: rest)
include h ht

/-- A task that only looks for a slice, or leaves the slots alone, and enters no task of taking
or freeing a slot. -/
theorem Window.settled (hnot : ∀ j m, t ≠ .reserve j m) : s.allocated = s.started := by
  apply h.stack.settled
  rw [ht]
  cases t <;> first | rfl | exact absurd rfl (hnot _ _)

/-- `findSlice` looks back, looks ahead, begins with the first slice, or re-initialises the slot
of a streaming receiver. -/
theorem Window.findSlice (htask : t = .findSlice n)
    (hrunning : (Receiver.findSlice (s.popped rest) n).failure = none) :
    Window (Receiver.findSlice (s.popped rest) n) := by
  have hsettled := h.settled ht (fun _ _ => by simp [htask])
  have hchain := h.stack.chain
  rw [ht] at hchain
  unfold Receiver.findSlice at hrunning ⊢
  split at hrunning
  · rename_i hnone
    have hcurrent := h.slots.current
    have hzero : s.started = 0 := by
      by_contra hne
      rw [if_neg hne] at hcurrent
      exact absurd (hnone.symm.trans hcurrent) (by simp)
    refine ⟨{ h.slots with sliceNo := ?_ }, ?_⟩
    · intro k hk
      dsimp only [State.enter, State.popped] at hk
      omega
    · refine h.stack.push ht (l := []) rfl ?_ (by simp) (by simp) (fun _ => hsettled) (by simp) rfl
        (by simp) id (by simp) fun _ _ => hsettled.trans hzero
      exact isChain_replace hchain (by simp [Task.finds, htask]) (by simp)
  · rename_i c hc
    split at hrunning
    · rename_i hle
      rw [if_pos hle]
      refine ⟨{ h.slots with }, ?_⟩
      refine h.stack.push ht (l := []) rfl ?_ (by simp) (by simp) (fun _ => hsettled) (by simp) rfl
        (by simp) id (by simp) (by simp [takesSlot])
      exact isChain_replace hchain (by simp [Task.finds, htask]) (by simp)
    · rename_i hlt
      rw [if_neg hlt]
      split at hrunning
      · rename_i hstreaming
        rw [if_pos hstreaming]
        split at hrunning
        · rename_i hzero
          rw [if_pos hzero]
          obtain ⟨s₁, hinit, heq⟩ := map_ok (continue_ok hrunning)
          subst hzero
          obtain ⟨hslots, hone⟩ := (h.slots.popped rest).restart hc hstreaming hinit
          rw [heq]
          refine ⟨hslots, ?_⟩
          obtain ⟨-, -, -, guess, -, rfl⟩ := initSlice_ok hinit
          refine h.stack.pop ht rfl hsettled rfl id ?_
          intro m j hm hj
          obtain rfl : 0 = j := Option.some.inj hj
          obtain rfl : n = m := by simpa [htask, Task.finds] using hm
          simp [Slice.start]
        · cases hrunning
      · rename_i hstreaming
        rw [if_neg hstreaming]
        refine ⟨{ h.slots with }, ?_⟩
        refine h.stack.push ht (l := []) rfl ?_ (by simp) (by simp) (fun _ => hsettled) (by simp) rfl
          (by simp) id ?_ (by simp [takesSlot])
        · exact isChain_replace hchain (by simp [Task.finds, htask]) (by simp)
        · intro hon
          exact absurd hon hstreaming

/-- If the backward scan ends with a slot, it has found the slice it was looking for. -/
theorem Window.scan {pos : ℕ} (htask : t = .scan n pos) :
    Window (scanSlot (s.popped rest) n pos) := by
  refine ⟨(h.slots.popped rest).scanned pos, ?_⟩
  have hsettled := h.settled ht (fun _ _ => by simp [htask])
  have hchain := h.stack.chain
  rw [ht] at hchain
  unfold scanSlot
  split
  · rename_i hno
    refine h.stack.pop ht rfl hsettled rfl id ?_
    intro m j hm hj
    obtain rfl : pos = j := Option.some.inj hj
    obtain rfl : n = m := by simpa [htask, Task.finds] using hm
    exact hno
  · split
    · exact h.stack.pop ht rfl hsettled rfl id fun _ _ _ hj => by cases hj
    · refine h.stack.push ht (l := []) rfl ?_ (by simp) (by simp) (fun _ => hsettled) (by simp) rfl
        (by simp) id (by simp) (by simp [takesSlot])
      exact isChain_replace hchain (by simp [Task.finds, htask]) (by simp)

/-- The loop at the end of `findSlice` enters tasks that look for a slice. -/
theorem Window.catchUp (htask : t = .catchUp n) : Window (Receiver.catchUp (s.popped rest) n) := by
  refine ⟨(h.slots.popped rest).caughtUp, ?_⟩
  have hsettled := h.settled ht (fun _ _ => by simp [htask])
  have hoff : s.streaming ≠ true := fun hon =>
    h.stack.catchUp hon n (by rw [ht, htask]; exact List.mem_cons_self)
  have hchain := h.stack.chain
  rw [ht, htask] at hchain
  unfold Receiver.catchUp
  split
  · refine h.stack.push ht (x := .findSlice _) (l := [_, _]) rfl ?_ (by simp) (by simp)
      (fun _ => hsettled) (by simp) rfl ?_ id (fun hon => absurd hon hoff) (by simp [takesSlot])
    · refine List.isChain_cons_cons.mpr ⟨?_, List.isChain_cons_cons.mpr ⟨?_, hchain⟩⟩
      · split <;> simp [Follows, Task.finds]
      · split <;> simp [Follows]
    · intro y hy
      simp only [List.mem_cons, List.not_mem_nil, or_false] at hy
      rcases hy with rfl | rfl | rfl
      · simp
      · split <;> simp
      · simp
  · refine h.stack.push ht (l := []) rfl ?_ (by simp) (by simp) (fun _ => hsettled) (by simp) rfl
      (by simp) id (by simp) (fun hon => absurd hon hoff)
    exact isChain_replace hchain rfl (by simp)

/-- `initSlice` makes the slot that was taken the one of the next slice. -/
theorem Window.reserve {j : ℕ} (htask : t = .reserve j n)
    (hok : initSlice (s.popped rest) j n = .ok s') :
    Window { s' with found := some j, started := s'.started + 1 } := by
  obtain ⟨hallocated, hj⟩ := h.stack.reserved j (by rw [ht, htask]; rfl)
  refine ⟨(h.slots.popped rest).initSlice hj hallocated hok, ?_⟩
  obtain ⟨-, -, -, guess, -, rfl⟩ := initSlice_ok hok
  refine h.stack.pop ht rfl hallocated rfl id ?_
  intro m k hm hk
  obtain rfl : j = k := Option.some.inj hk
  obtain rfl : n = m := by simpa [htask, Task.finds] using hm
  simp [Slice.start]

/-- `newSlice` takes the slot behind that of the current slice. -/
theorem Window.takeSlot (htask : t = .takeSlot n)
    (hrunning : (Receiver.takeSlot (s.popped rest) n).failure = none) :
    Window (Receiver.takeSlot (s.popped rest) n) := by
  have hsettled := h.settled ht (fun _ _ => by simp [htask])
  have hfresh : s.streaming = true → s.allocated = 0 := fun hon =>
    h.stack.allocates hon (by rw [ht, htask]; trivial)
  have hchain := h.stack.chain
  rw [ht, htask] at hchain
  obtain ⟨hslots, q, base, heq⟩ := (h.slots.popped rest).takeSlot hsettled hfresh hrunning
  refine ⟨hslots, ?_⟩
  rw [heq]
  refine h.stack.push ht (l := []) rfl ?_ (by simp) ?_ (by simp) (by simp) rfl (by simp) id (by simp)
    (by simp [takesSlot])
  · exact isChain_replace hchain rfl (by simp)
  · intro j m hx
    obtain ⟨rfl, -⟩ := Task.reserve.inj hx
    exact ⟨congrArg (· + 1) hsettled, rfl⟩

/-- A task that has found no slice for another works on a slice. -/
theorem Window.worked {s₀ : State} (hfinds : t.finds = none) (hslots : Slots s₀)
    (hbefore : s₀.allocated = s.allocated ∧ s₀.started = s.started ∧ s₀.useFec = s.useFec ∧
      s₀.streaming = s.streaming ∧ s₀.tasks = rest)
    (hworks : Works i s₀ s') (hleaves : Leaves i s₀ s')
    (huse : s'.useFec = s₀.useFec ∨ rest = []) : Window s' := by
  obtain ⟨hallocated, hstarted, huse₀, hstreaming, htasks⟩ := hbefore
  have hsettled := h.settled ht (fun _ _ hx => by simp [hx, Task.finds] at hfinds)
  refine ⟨hslots.works hworks, h.stack.left ht (i := i) ?_ (.inl hfinds) ?_ ?_ ?_⟩
  · rw [← htasks]
    exact hleaves.left
  · have h₁ : s'.allocated = s₀.allocated := congrArg Rest.allocated hworks.rest_eq
    have h₂ : s'.started = s₀.started := congrArg Rest.started hworks.rest_eq
    omega
  · rw [← huse₀]
    exact huse
  · intro hon
    rw [← hstreaming]
    exact hworks.streaming hon

/-- A message is work on the slice that has been found. -/
theorem Window.process {msg : ServerMsg} (htask : t = .process msg)
    (hok : Receiver.process (s.popped rest) msg = .ok s') : Window s' := by
  have hchain := h.stack.chain
  rw [ht, htask] at hchain
  have hrest := rest_of_process hchain
  obtain ⟨i, -, hworks, hleaves⟩ := process_works_found hok
  exact h.worked ht (by rw [htask]; rfl) (h.slots.popped rest) ⟨rfl, rfl, rfl, rfl, rfl⟩ hworks
    hleaves (.inr hrest)

/-- The pointer moves within the window. -/
theorem Window.advance {pos : ℕ} (hfinds : t.finds = none) :
    Window (Receiver.advance (s.popped rest) pos) := by
  refine ⟨(h.slots.popped rest).advanced pos, ?_⟩
  have hsettled := h.settled ht (fun _ _ hx => by simp [hx, Task.finds] at hfinds)
  have hchain := h.stack.chain
  rw [ht] at hchain
  unfold Receiver.advance
  split
  · refine h.stack.push ht (l := []) rfl ?_ (by simp) (by simp) (fun _ => hsettled) (by simp) rfl
      (by simp) id (by simp) (by simp [takesSlot])
    exact isChain_of_finds_none hchain hfinds (by simp)
  · exact h.stack.pop ht rfl hsettled rfl id fun m _ hm => by
      rw [hfinds] at hm
      cases hm

/-- `fakeSliceComplete` looks for the oldest slice that is missing. -/
theorem Window.fakeSliceComplete (htask : t = .fakeSliceComplete) :
    Window ((s.popped rest).enter [.findSlice n, .fakeFound]) := by
  have hsettled := h.settled ht (fun _ _ => by simp [htask])
  have hchain := h.stack.chain
  rw [ht, htask] at hchain
  refine ⟨{ h.slots with }, h.stack.push ht (x := .findSlice n) (l := [.fakeFound]) rfl ?_ (by simp)
    (by simp) (fun _ => hsettled) (by simp) rfl (by simp) id (by simp) (by simp [takesSlot])⟩
  refine List.isChain_cons_cons.mpr ⟨by simp [Follows, Task.finds], ?_⟩
  exact isChain_of_finds_none hchain rfl (by simp)

/-- It completes that slice by force, which is work on it. -/
theorem Window.fakeFound (htask : t = .fakeFound)
    (hok : completeByForce (s.popped rest) i = .ok s') : Window s' := by
  obtain ⟨hworks, htasks⟩ := completeByForce_works hok
  exact h.worked ht (by rw [htask]; rfl) (h.slots.popped rest) ⟨rfl, rfl, rfl, rfl, rfl⟩ hworks
    (leaves_of_complete htasks) (.inl (completeByForce_useFec hok))

/-- The end of `processFecBlock` is work on the slice of the block. -/
theorem Window.finishFecBlock {s₀ : State} (hfinds : t.finds = none) (hslots : Slots s₀)
    (hbefore : s₀.allocated = s.allocated ∧ s₀.started = s.started ∧ s₀.useFec = s.useFec ∧
      s₀.streaming = s.streaming ∧ s₀.tasks = rest)
    (hok : Receiver.finishFecBlock s₀ i = .ok s') : Window s' := by
  obtain ⟨hworks, hleaves⟩ := finishFecBlock_works hok
  exact h.worked ht hfinds hslots hbefore hworks hleaves (.inl (finishFecBlock_useFec hok))

/-- A task that only waits enters the task that goes on. -/
theorem Window.waited (hfinds : t'.finds = t.finds) (hwaits : (∃ j, t' = .takeBlock j) ∨
      ∃ m, t' = .takeSlot m) (htake : takesSlot [t'] → takesSlot [t])
    (hnot : ∀ j m, t ≠ .reserve j m) : Window ((s.popped rest).enter [t']) := by
  have hsettled := h.settled ht hnot
  have hchain := h.stack.chain
  rw [ht] at hchain
  refine ⟨{ h.slots with }, h.stack.push ht (l := []) rfl ?_ ?_ ?_ (fun _ => hsettled) ?_ rfl ?_ id
    ?_ ?_⟩
  · apply isChain_replace hchain hfinds
    rcases hwaits with ⟨j, rfl⟩ | ⟨m, rfl⟩ <;> simp
  · rcases hwaits with ⟨j, rfl⟩ | ⟨m, rfl⟩ <;> simp
  · rcases hwaits with ⟨j, rfl⟩ | ⟨m, rfl⟩ <;> simp
  · rcases hwaits with ⟨j, rfl⟩ | ⟨m, rfl⟩ <;> simp
  · rcases hwaits with ⟨j, rfl⟩ | ⟨m, rfl⟩ <;> simp
  · rcases hwaits with ⟨j, rfl⟩ | ⟨m, rfl⟩ <;> simp
  · intro hon htakes
    apply h.stack.allocates hon
    rw [ht]
    have := htake htakes
    cases t <;> exact this

/-- Handing a slot over leaves the window alone. -/
theorem Window.handOver (htask : t = .handOver i)
    (hrunning : (Receiver.handOver (s.popped rest) i).failure = none) :
    Window (Receiver.handOver (s.popped rest) i) := by
  refine ⟨(h.slots.popped rest).handedOver, ?_⟩
  have hsettled := h.settled ht (fun _ _ => by simp [htask])
  have hchain := h.stack.chain
  rw [ht, htask] at hchain
  unfold Receiver.handOver at hrunning ⊢
  dsimp only at hrunning ⊢
  split at hrunning
  · rename_i hfec
    rw [if_pos hfec]
    split at hrunning
    · rename_i hstate
      rw [if_pos hstate]
      split at hrunning
      · exact h.stack.pop ht rfl hsettled rfl id fun m _ hm => by simp [htask, Task.finds] at hm
      · cases hrunning
    · cases hrunning
  · rename_i hfec
    rw [if_neg hfec]
    refine h.stack.push ht (l := []) rfl ?_ (by simp) (by simp) (fun _ => hsettled) (by simp) rfl
      ?_ id (by simp) (by simp [takesSlot])
    · exact isChain_of_finds_none hchain rfl (by simp)
    · intro _ _ _
      exact Bool.not_eq_true _ ▸ hfec

/-- A turn of `cleanupSlices` gives the bytes of the oldest slice to the writer, before the slot
is free. -/
theorem Window.cleanup {slot : Option (ℕ × ℕ)} (htask : t = .cleanup)
    (hok : cleanupSlices (s.popped rest) .done = .ok (s', slot)) :
    Window (match slot with
      | some (pos, bytes) => s'.enter [.freeSlot pos bytes]
      | none => s') := by
  have hsettled := h.settled ht (fun _ _ => by simp [htask])
  have hchain := h.stack.chain
  rw [ht, htask] at hchain
  have huse : s.useFec = false := h.stack.cleanup t (ht ▸ List.mem_cons_self) (.inl htask)
  rcases cleanupSlices_ok hok with ⟨-, rfl, rfl⟩ | ⟨pos, bytes, hpos, hdone, -, rfl, hdata⟩
  · exact ⟨{ h.slots with }, h.stack.pop ht rfl hsettled rfl id fun m _ hm => by
      simp [htask, Task.finds] at hm⟩
  · rw [(h.slots.popped rest).producerPosition] at hpos
    have hlt : s.freed < s.started :=
      h.slots.freed_lt_of_state (x := .done) (by simp) (hpos ▸ hdone)
    have hfrees : ∀ q b, Task.freeSlot pos bytes = .freeSlot q b →
        q = s.freed % nrSlices ∧ s.freed < s.started ∧ (s.slices q).state = .done := by
      intro q b hq
      obtain ⟨rfl, -⟩ := Task.freeSlot.inj hq
      exact ⟨hpos, hlt, hdone⟩
    have hchain' : (Task.freeSlot pos bytes :: [] ++ rest).IsChain Follows :=
      isChain_of_finds_none hchain rfl (by simp)
    rcases hdata with ⟨-, rfl⟩ | ⟨-, q, -, rfl⟩
    · exact ⟨{ h.slots with }, h.stack.push ht (l := []) rfl hchain' (by simp) (by simp)
        (fun _ => hsettled) hfrees rfl (fun _ _ _ => huse) id (by simp)
        (by simp [takesSlot])⟩
    · exact ⟨{ h.slots with }, h.stack.push ht (l := []) rfl hchain' (by simp) (by simp)
        (fun _ => hsettled) hfrees rfl (fun _ _ _ => huse) id (by simp)
        (by simp [takesSlot])⟩

/-- The rest of the turn frees the slot, so that the window begins one slice later. -/
theorem Window.freeSlot {pos bytes : ℕ} (htask : t = .freeSlot pos bytes)
    (hok : Receiver.freeSlot (s.popped rest) pos bytes = .ok s') :
    Window (s'.enter [.cleanup]) := by
  have hsettled := h.settled ht (fun _ _ => by simp [htask])
  have hchain := h.stack.chain
  rw [ht, htask] at hchain
  have huse : s.useFec = false :=
    h.stack.cleanup t (ht ▸ List.mem_cons_self) (.inr ⟨pos, bytes, htask⟩)
  obtain ⟨hpos, hlt, hdone⟩ := h.stack.netFrees pos bytes rest (by rw [ht, htask])
  have hslots := (h.slots.popped rest).freeSlot (.inr (h.slots.fecAbsent.mp huse)) hpos hlt
    (.inl hdone) hok
  obtain ⟨q, -, rfl⟩ := freeSlot_ok hok
  refine ⟨{ hslots with }, h.stack.push ht (l := []) rfl ?_ (by simp) (by simp) (fun _ => hsettled)
    (by simp) rfl (fun _ _ _ => huse) id (by simp) (by simp [takesSlot])⟩
  exact isChain_of_finds_none hchain rfl (by simp)

end Net

/-- A step of the network thread keeps the window. -/
theorem Window.netStep (h : Window s) (hstep : Receiver.netStep s = some s')
    (hrunning : s'.failure = none) : Window s' := by
  unfold Receiver.netStep at hstep
  split at hstep
  · cases hstep
  · rename_i t rest ht
    cases hcase : t with
    | findSlice n =>
      subst hcase
      obtain rfl := Option.some.inj hstep
      exact h.findSlice ht rfl hrunning
    | scan n pos =>
      subst hcase
      obtain rfl := Option.some.inj hstep
      exact h.scan ht rfl
    | catchUp n =>
      subst hcase
      obtain rfl := Option.some.inj hstep
      exact h.catchUp ht rfl
    | dropped =>
      subst hcase
      obtain rfl := Option.some.inj hstep
      cases hrunning
    | fakeSliceComplete =>
      subst hcase
      obtain rfl := Option.some.inj hstep
      exact h.fakeSliceComplete ht rfl
    | fakeFound =>
      subst hcase
      obtain rfl := Option.some.inj hstep
      dsimp only at hrunning ⊢
      split at hrunning
      · exact h.fakeFound ht rfl (continue_ok hrunning)
      · cases hrunning
    | newSlice n =>
      subst hcase
      obtain ⟨-, -, rfl⟩ := Option.map_eq_some_iff.mp hstep
      exact h.waited ht rfl (.inr ⟨n, rfl⟩) id (by simp)
    | takeSlot n =>
      subst hcase
      obtain rfl := Option.some.inj hstep
      exact h.takeSlot ht rfl hrunning
    | reserve j n =>
      subst hcase
      obtain ⟨-, -, rfl⟩ := Option.map_eq_some_iff.mp hstep
      obtain ⟨s₁, hinit, heq⟩ := map_ok (continue_ok hrunning)
      rw [heq]
      exact h.reserve ht rfl hinit
    | process msg =>
      subst hcase
      obtain rfl := Option.some.inj hstep
      exact h.process ht rfl (continue_ok hrunning)
    | setNextBlock i =>
      subst hcase
      unfold runTask at hstep
      dsimp only at hstep
      split at hstep
      · obtain rfl := Option.some.inj hstep
        have hok := continue_ok hrunning
        refine h.finishFecBlock ht rfl ?_ ?_ hok
        · exact { h.slots with }
        · exact ⟨rfl, rfl, rfl, rfl, rfl⟩
      · obtain ⟨-, -, rfl⟩ := Option.map_eq_some_iff.mp hstep
        exact h.waited ht rfl (.inl ⟨i, rfl⟩) id (by simp)
    | takeBlock i =>
      subst hcase
      obtain rfl := Option.some.inj hstep
      have hok := continue_ok hrunning
      refine h.finishFecBlock ht rfl ?_ ?_ hok
      · exact { h.slots with }
      · exact ⟨rfl, rfl, rfl, rfl, rfl⟩
    | advanceReceivedPointer | advance pos =>
      subst hcase
      obtain rfl := Option.some.inj hstep
      exact h.advance ht rfl
    | handOver i =>
      subst hcase
      obtain rfl := Option.some.inj hstep
      exact h.handOver ht rfl hrunning
    | cleanup =>
      subst hcase
      obtain rfl := Option.some.inj hstep
      split at hrunning
      · rename_i hok
        exact h.cleanup ht rfl hok
      · rename_i hok
        exact h.cleanup ht rfl hok
      · cases hrunning
    | freeSlot pos bytes =>
      subst hcase
      obtain rfl := Option.some.inj hstep
      obtain ⟨s₁, hfree, heq⟩ := map_ok (continue_ok hrunning)
      rw [heq]
      exact h.freeSlot ht rfl hfree

section Others

/-- A step of another thread leaves the tasks of the network thread alone. -/
theorem Stack.other (h : Stack s) (htasks : s'.tasks = s.tasks)
    (hallocated : s'.allocated = s.allocated) (hstarted : s'.started = s.started)
    (huse : s'.useFec = s.useFec) (hstreaming : s'.streaming = s.streaming)
    (hfound : s'.found = s.found) (hsliceNo : ∀ j, (s'.slices j).sliceNo = (s.slices j).sliceNo)
    (hfrees : s.useFec = false → s'.freed = s.freed ∧ s'.slices = s.slices) : Stack s' := by
  constructor
  · rw [htasks]
    exact h.chain
  · intro j hj
    rw [hallocated, hstarted]
    exact h.reserved j (htasks ▸ hj)
  · intro hnone
    rw [hallocated, hstarted]
    exact h.settled (htasks ▸ hnone)
  · intro msg rest j hmsg hj
    rw [hsliceNo]
    exact h.found msg rest j (htasks ▸ hmsg) (hfound ▸ hj)
  · intro pos b rest hpos
    rw [htasks] at hpos
    have huse' : s.useFec = false := h.cleanup _ (hpos ▸ List.mem_cons_self) (.inr ⟨pos, b, rfl⟩)
    obtain ⟨hfreed, hslices⟩ := hfrees huse'
    rw [hfreed, hstarted, hslices]
    exact h.netFrees pos b rest hpos
  · intro t ht hcase
    rw [huse]
    exact h.cleanup t (htasks ▸ ht) hcase
  · intro hon
    rw [htasks]
    exact h.catchUp (hstreaming ▸ hon)
  · intro hon hlast
    rw [hallocated]
    exact h.allocates (hstreaming ▸ hon) (htasks ▸ hlast)

/-- A slot changes within a state that is not free. -/
theorem Slots.setState (h : Slots s) {x : Slice} {p : FecPc}
    (hsliceNo : x.sliceNo = (s.slices i).sliceNo) (hbefore : (s.slices i).state ≠ .free)
    (hreceiving : (s.slices i).state ≠ .receiving) (hstate : x.state = .fecDone)
    (huse : s.useFec = true) (hpc : p ≠ .absent) (hfrees : ∀ pos b, p ≠ .freeSlot pos b)
    (hdecode : ∀ j, p ≠ .decode j) (hrelease : ∀ j k l, p = .release j k l → j = i) :
    Slots { s with fecThread := p, slices := Function.update s.slices i x } := by
  have hno : ∀ j, (Function.update s.slices i x j).sliceNo = (s.slices j).sliceNo := by
    intro j
    rcases eq_or_ne j i with rfl | hj
    · rw [Function.update_self, hsliceNo]
    · rw [Function.update_of_ne hj]
  have hfree : ∀ j, (Function.update s.slices i x j).state = .free ↔
      (s.slices j).state = .free := by
    intro j
    rcases eq_or_ne j i with rfl | hj
    · rw [Function.update_self, hstate]
      simp [hbefore]
    · rw [Function.update_of_ne hj]
  refine { h with
    sliceNo := fun k hk hle => (hno _).trans (h.sliceNo k hk hle)
    unused := fun j hj hlt => (hno _).trans (h.unused j hj hlt)
    taken := fun k hk hlt hcontra => h.taken k hk hlt ((hfree _).mp hcontra)
    free := fun k hk hlt => (hfree _).mpr (h.free k hk hlt)
    fecAbsent := by simp [huse, hpc]
    fecFrees := fun pos b hcase => absurd hcase (hfrees pos b)
    decoding := fun j hcase => absurd hcase (hdecode j)
    releasing := fun j k l hcase => ?_
    streaming := fun hon => ?_ }
  · obtain rfl := hrelease j k l hcase
    dsimp only
    rw [Function.update_self, hstate]
  · rcases (h.streaming hon).2.2 i with hcase | hcase
    · exact absurd hcase hbefore
    · exact absurd hcase hreceiving

/-- The FEC thread moves on without touching a slot. -/
theorem Slots.setPc (h : Slots s) {p : FecPc} (huse : s.useFec = true) (hpc : p ≠ .absent)
    (hfrees : ∀ pos b, p ≠ .freeSlot pos b) (hdecode : ∀ j, p ≠ .decode j)
    (hrelease : ∀ j k l, p = .release j k l → (s.slices j).state = .fecDone) :
    Slots { s with fecThread := p } :=
  { h with
    fecAbsent := by simp [huse, hpc]
    fecFrees := fun pos b hcase => absurd hcase (hfrees pos b)
    decoding := fun j hcase => absurd hcase (hdecode j)
    releasing := hrelease }

/-- The FEC thread runs when FEC is in use. -/
theorem Slots.present (h : Slots s) (hne : s.fecThread ≠ .absent) : s.useFec = true := by
  by_contra hoff
  exact hne (h.fecAbsent.mp (Bool.not_eq_true _ ▸ hoff))

/-- A step of the FEC thread keeps the window. -/
theorem Window.fecStep (h : Window s) (hstep : Receiver.fecStep s = some s')
    (hrunning : s'.failure = none) : Window s' := by
  have hpresent := h.slots.present
  have hkept : s.useFec = true →
      s.useFec = false → s'.freed = s.freed ∧ s'.slices = s.slices := fun hon hoff => by
    rw [hon] at hoff
    cases hoff
  cases fecStep_moves hstep hrunning with
  | loop hpc =>
    have huse := hpresent (by rw [hpc]; simp)
    refine ⟨h.slots.setPc huse ?_ ?_ ?_ ?_,
      h.stack.other rfl rfl rfl rfl rfl rfl (fun _ => rfl) (hkept huse)⟩ <;> split <;> simp
  | consume hpc hfull | released hpc hend | cleaned hpc hstate =>
    have huse := hpresent (by rw [hpc]; simp)
    exact ⟨h.slots.setPc huse (by simp) (by simp) (by simp) (by simp),
      h.stack.other rfl rfl rfl rfl rfl rfl (fun _ => rfl) (hkept huse)⟩
  | takeFec hpc hi hstate =>
    have huse := hpresent (by rw [hpc]; simp)
    refine ⟨?_, h.stack.other rfl rfl rfl rfl rfl rfl (fun _ => rfl) (hkept huse)⟩
    exact { h.slots with
      fecAbsent := by simp [huse]
      fecFrees := by simp
      decoding := fun j hj => FecPc.decode.inj hj ▸ hstate
      releasing := by simp }
  | @takeDone i hpc hi hstate =>
    have huse := hpresent (by rw [hpc]; simp)
    have hslots := h.slots.setState (i := i) (x := { s.slices i with state := .fecDone })
      (p := .cleanup) rfl (by rw [hstate]; simp) (by rw [hstate]; simp) rfl huse (by simp)
      (by simp) (by simp) (by simp)
    refine ⟨{ hslots with }, h.stack.other rfl rfl rfl rfl rfl rfl (fun j => ?_) (hkept huse)⟩
    rcases eq_or_ne j i with rfl | hj
    · simp
    · simp [Function.update_of_ne hj]
  | takeOther hpc hi hfec hdone =>
    have huse := hpresent (by rw [hpc]; simp)
    have hslots := h.slots.setPc (p := .loopTest) huse (by simp) (by simp) (by simp) (by simp)
    exact ⟨{ hslots with }, h.stack.other rfl rfl rfl rfl rfl rfl (fun _ => rfl) (hkept huse)⟩
  | @decode i mem blocks hpc hdecode =>
    have huse := hpresent (by rw [hpc]; simp)
    have hfec := h.slots.decoding i hpc
    have hslots := h.slots.setState (i := i) (x := { s.slices i with state := .fecDone })
      (p := .release i 0 0) rfl (by rw [hfec]; simp) (by rw [hfec]; simp) rfl huse (by simp)
      (by simp) (by simp) (fun j k l hj => (FecPc.release.inj hj).1.symm)
    refine ⟨{ hslots with }, h.stack.other rfl rfl rfl rfl rfl rfl (fun j => ?_) (hkept huse)⟩
    rcases eq_or_ne j i with rfl | hj
    · simp
    · simp [Function.update_of_ne hj]
  | @nextStripe i stripe k hpc hstripe hle hend =>
    have huse := hpresent (by rw [hpc]; simp)
    have hdone := h.slots.releasing i stripe k hpc
    exact ⟨h.slots.setPc huse (by simp) (by simp) (by simp)
      (fun j k l hj => (FecPc.release.inj hj).1 ▸ hdone),
      h.stack.other rfl rfl rfl rfl rfl rfl (fun _ => rfl) (hkept huse)⟩
  | @freeBlock i stripe k d b q hpc hstripe hle hk hd hb hq =>
    have huse := hpresent (by rw [hpc]; simp)
    have hdone := h.slots.releasing i stripe k hpc
    have hslots := h.slots.setState (i := i) (p := .release i stripe (k + 1))
      (x := { s.slices i with
        fecDescs := Function.update (s.slices i).fecDescs d
          { (s.slices i).fecDescs d with adr := none } })
      rfl (by rw [hdone]; simp) (by rw [hdone]; simp) hdone huse (by simp) (by simp) (by simp)
      (fun j k l hj => (FecPc.release.inj hj).1.symm)
    refine ⟨{ hslots with }, h.stack.other rfl rfl rfl rfl rfl rfl (fun j => ?_) (hkept huse)⟩
    rcases eq_or_ne j i with rfl | hj
    · simp
    · simp [Function.update_of_ne hj]
  | @releaseSlice pos bytes s₁ hpc hpos hstate hclean =>
    have huse := hpresent (by rw [hpc]; simp)
    rw [h.slots.producerPosition] at hpos
    have hlt := h.slots.freed_lt_of_state (x := .fecDone) (by simp) (hpos ▸ hstate)
    have hslots : Slots { s with fecThread := .freeSlot pos bytes } := { h.slots with
      fecAbsent := by simp [huse]
      fecFrees := fun p b hp => by
        obtain ⟨rfl, -⟩ := FecPc.freeSlot.inj hp
        exact ⟨hpos, hlt, hstate⟩
      decoding := by simp
      releasing := by simp }
    rcases cleanupSlices_ok hclean with
      ⟨-, hslot, -⟩ | ⟨-, -, -, -, -, -, ⟨-, rfl⟩ | ⟨-, q, -, rfl⟩⟩
    · cases hslot
    · exact ⟨{ hslots with }, h.stack.other rfl rfl rfl rfl rfl rfl (fun _ => rfl) fun _ =>
        ⟨rfl, rfl⟩⟩
    · exact ⟨{ hslots with }, h.stack.other rfl rfl rfl rfl rfl rfl (fun _ => rfl) fun _ =>
        ⟨rfl, rfl⟩⟩
  | @freeSlot pos bytes s₁ hpc hfree =>
    have huse := hpresent (by rw [hpc]; simp)
    obtain ⟨hpos, hlt, hstate⟩ := h.slots.fecFrees pos bytes hpc
    have hbefore : Slots { s with fecThread := .cleanup } :=
      h.slots.setPc huse (by simp) (by simp) (by simp) (by simp)
    obtain ⟨q, hq, rfl⟩ := freeSlot_ok hfree
    have hok : Receiver.freeSlot { s with fecThread := .cleanup } pos bytes = .ok { s with
        freeSlicesPc := q, freed := s.freed + 1
        endReached := if bytes = 0 then 2 else s.endReached
        slices := Function.update s.slices pos { s.slices pos with state := .free }
        fecThread := .cleanup } := by
      unfold Receiver.freeSlot
      dsimp only
      rw [hq]
      rfl
    have hslots := hbefore.freeSlot (.inl rfl) hpos hlt (.inr hstate) hok
    refine ⟨hslots, h.stack.other rfl rfl rfl rfl rfl rfl (fun j => ?_) fun hoff => by
      rw [huse] at hoff
      cases hoff⟩
    rcases eq_or_ne j pos with rfl | hj
    · simp
    · simp [Function.update_of_ne hj]

/-- A step of the writer leaves the window alone. -/
theorem Window.writerStep {n : ℕ} (h : Window s) (hstep : Receiver.writerStep s n = some s')
    (hrunning : s'.failure = none) : Window s' := by
  unfold Receiver.writerStep at hstep
  split at hstep
  · obtain ⟨m, -, rfl⟩ := Option.map_eq_some_iff.mp hstep
    split <;> exact ⟨{ h.slots with }, { h.stack with }⟩
  · split at hstep
    · obtain rfl := Option.some.inj hstep
      exact ⟨{ h.slots with }, { h.stack with }⟩
    · cases hstep
  · obtain rfl := Option.some.inj hstep
    exact ⟨{ h.slots with }, { h.stack with }⟩
  · obtain rfl := Option.some.inj hstep
    split at hrunning
    · exact ⟨{ h.slots with }, { h.stack with }⟩
    · cases hrunning
  · cases hstep

/-- A message enters the task of finding its slice. -/
theorem Window.receiveStep {msg : ServerMsg} (h : Window s)
    (hstep : Receiver.receiveStep s msg = some s') : Window s' := by
  obtain ⟨htasks, -, mem, blocks, rfl⟩ := receiveStep_ok hstep
  have hsettled := h.stack.settled (by rw [htasks]; rfl)
  refine ⟨{ h.slots with }, ?_⟩
  have hdispatch : (∃ n, dispatch msg = [.findSlice n, .process msg] ∧ n = sliceNoOf msg) ∨
      dispatch msg = [] := by
    cases msg <;> first | exact .inl ⟨_, rfl, rfl⟩ | exact .inr rfl
  rcases hdispatch with ⟨n, heq, hn⟩ | heq
  · rw [heq]
    refine { h.stack with
      chain := ?_, reserved := by simp [reservedSlot], settled := fun _ => hsettled
      found := by simp, netFrees := by simp, cleanup := by simp, catchUp := by simp
      allocates := by simp [takesSlot] }
    exact List.isChain_cons_cons.mpr ⟨congrArg some hn, .singleton _⟩
  · rw [heq]
    exact { h.stack with
      chain := .nil, reserved := by simp [reservedSlot], settled := fun _ => hsettled
      found := by simp, netFrees := by simp, cleanup := by simp, catchUp := by simp
      allocates := by simp [takesSlot] }

/-- Every step of a running receiver keeps the window. -/
theorem Window.act {a : Action} (h : Window s) (hstep : Receiver.act s a = some s')
    (hrunning : s'.failure = none) : Window s' := by
  unfold Receiver.act at hstep
  split at hstep
  · cases a with
    | receive msg => exact h.receiveStep hstep
    | exitWait =>
      obtain ⟨-, -, rfl⟩ := exitWaitStep_ok hstep
      exact ⟨{ h.slots with }, { h.stack with }⟩
    | net => exact h.netStep hstep hrunning
    | fec => exact h.fecStep hstep hrunning
    | writer n => exact h.writerStep hstep hrunning
  · cases hstep

end Others

section Runs

variable {st : Stream} {mode : Mode}

/-- The receiver at its start, with its queues. -/
theorem start_eq {config : Config} {streaming : Bool} {mem : ℕ → Fec.Gf}
    {blockData : ℕ → Fec.Block} (hstart : start config streaming mem blockData = some s) :
    ∃ freeMemQueue freeSlicesPc freeBlocksPc,
      pcProduce (pcMakeProduconsum (config.blockSize * 4096)) (config.blockSize * 4096) =
        some freeMemQueue ∧
      pcProduce (pcMakeProduconsum nrSlices) nrSlices = some freeSlicesPc ∧
      pcProduce (pcMakeProduconsum nrBlocks) nrBlocks = some freeBlocksPc ∧
      s = {
        config := config, streaming := streaming, dataBufSize := config.blockSize * 4096
        dataBuffer := mem, freeMemQueue := freeMemQueue
        data := pcMakeProduconsum (config.blockSize * 4096)
        slices := fun _ => .unused, freeSlicesPc := freeSlicesPc
        fecDataPc := pcMakeProduconsum nrSlices, fecSlices := fun _ => 0
        freeBlocksPc := pcConsumed freeBlocksPc 1, blockAddresses := id
        localBlocks := [], nextBlock := 0, blockData := blockData
        currentSlice := none, currentSliceNo := if streaming then 0 else -1
        receivedPtr := 0, receivedSliceNo := -1, useFec := false
        endReached := 0, netEndReached := false, isAddress := .pool 0, found := none
        tasks := if streaming then [] else [.newSlice 0]
        fecThread := .absent, writer := .wait, failure := none, output := [], replies := []
        allocated := 0, started := 0, freed := 0, queued := 0, dequeued := 0
        memTaken := 0, memReturned := 0, released := 0, written := 0
        blocksTaken := 1, blocksReturned := 0 } := by
  obtain ⟨freeMemQueue, hmem, hstart⟩ := Option.bind_eq_some_iff.mp hstart
  obtain ⟨freeSlicesPc, hslices, hstart⟩ := Option.bind_eq_some_iff.mp hstart
  obtain ⟨freeBlocksPc, hblocks, rfl⟩ := Option.map_eq_some_iff.mp hstart
  exact ⟨freeMemQueue, freeSlicesPc, freeBlocksPc, hmem, hslices, hblocks, rfl⟩

/-- A queue that has been filled completely. -/
theorem holds_full {size : ℕ} {q : Produconsum} (hpos : 0 < size) (hlt : 3 * size < 2 ^ 32)
    (hq : pcProduce (pcMakeProduconsum size) size = some q) : q.Holds size size 0 := by
  obtain ⟨q', hq', hholds, -⟩ := (holds_make hpos hlt).pcProduce (n := size) (by omega)
  rw [hq] at hq'
  obtain rfl := Option.some.inj hq'
  simpa using hholds

/-- At the start the window is empty. -/
theorem window_start (h : Starts st mode s) : Window s := by
  obtain ⟨config, streaming, mem, blockData, -, -, -, hstart⟩ := h
  obtain ⟨_, freeSlicesPc, _, -, hslices, -, rfl⟩ := start_eq hstart
  have hqueue := holds_full (by decide) (by decide) hslices
  refine ⟨⟨hqueue, le_rfl, le_rfl, rfl, ?_, ?_, ?_, ?_, by simp, by simp, by simp, by simp, ?_⟩, ?_⟩
  · intro k hk
    exact absurd hk (Nat.not_lt_zero _)
  · intro j _ _
    rfl
  · intro k _ hk
    exact absurd hk (Nat.not_lt_zero _)
  · intro k _ _
    rfl
  · intro _
    exact ⟨Nat.zero_le _, rfl, fun _ => .inl rfl⟩
  · cases streaming with
    | true =>
      exact ⟨.nil, by simp [reservedSlot], fun _ => rfl, by simp, by simp, by simp, by simp,
        fun _ _ => rfl⟩
    | false =>
      exact ⟨.singleton _, by simp [reservedSlot], fun _ => rfl, by simp, by simp, by simp,
        by simp, fun _ _ => rfl⟩

variable {C : State → State → Prop} {P Q : State → Prop}

/-- The rule for invariants of a receiver that has not stopped, in the runs all of whose steps
meet the condition `C`. -/
theorem running_of_restricted
    (hQ : ∀ s, ((system st mode).restrict C).Reachable s → s.failure = none → Q s)
    (hinit : ∀ s, Starts st mode s → P s)
    (hstep : ∀ s s' a, Q s → P s → Action.Conforms st a → C s s' → Moves s a s' → P s')
    (h : ((system st mode).restrict C).Reachable s) (hrunning : s.failure = none) : P s := by
  have hinv : s.failure = none → P s := by
    refine h.invariant_of (P := fun s => s.failure = none → P s)
      (Q := fun s => s.failure = none → Q s) hQ (fun s hs _ => hinit s hs) ?_
    rintro s s' hs hP ⟨⟨a, ha, hlast⟩, hC⟩ hrunning
    obtain ⟨hbefore, hmoves⟩ := act_moves hlast hrunning
    exact hstep s s' a (hs hbefore) (hP hbefore) ha hC hmoves
  exact hinv hrunning

/-- The rule for invariants of a receiver that has not stopped. -/
theorem running_of_reachable
    (hQ : ∀ s, (system st mode).Reachable s → s.failure = none → Q s)
    (hinit : ∀ s, Starts st mode s → P s)
    (hstep : ∀ s s' a, Q s → P s → Action.Conforms st a → Moves s a s' → P s')
    (h : (system st mode).Reachable s) (hrunning : s.failure = none) : P s :=
  running_of_restricted (C := fun _ _ => True)
    (fun s hs hrun => hQ s (System.restrict_reachable hs) hrun) hinit
    (fun s s' a hQ hP ha _ hmoves => hstep s s' a hQ hP ha hmoves)
    (h.restrict fun _ _ => trivial) hrunning

/-- In every mode, for any messages in any order: as long as the receiver runs, its slices
are consecutive and only the slots in use are not free. -/
theorem window_of_reachable (h : (system st mode).Reachable s) (hrunning : s.failure = none) :
    Window s := by
  have hinv : s.failure = none → Window s := by
    refine h.invariant (P := fun s => s.failure = none → Window s) ?_ ?_
    · intro s hs _
      exact window_start hs
    · rintro s s' hs ⟨a, -, hstep⟩ hrunning
      exact (hs (act_moves hstep hrunning).1).act hstep hrunning
  exact hinv hrunning

end Runs

end Udpcast.Receiver
