import Udpcast.Lib.RingQueue
import Udpcast.Receiver.Window

/-!
# The way of a finished slice to the FEC thread

Once FEC is in use, a slice that is complete goes to the FEC thread through a queue. Every
slot on this way holds a finished slice, no slot is on it twice, and the only slots with
a finished slice that are not on it are those that were finished before FEC came into use.
-/

namespace Udpcast.Receiver

open Queue
open Protocol

/-- The slice is complete, and the FEC thread has not dealt with it. -/
def SliceState.waits : SliceState → Bool
  | .done | .fec => true
  | .free | .receiving | .fecDone => false

/-- The slot that `fecMain` has taken out of its queue and is decoding. -/
def FecPc.current : FecPc → List ℕ
  | .decode i => [i]
  | _ => []

/-- The slots in the FEC queue, first one first. -/
def State.fecEntries (s : State) : List ℕ :=
  (List.range' s.dequeued (s.queued - s.dequeued)).map fun k => s.fecSlices (k % nrSlices)

/-- The slot that `checkSliceComplete` is about to hand over. -/
def Task.handed : Task → Option ℕ
  | .handOver i => some i
  | _ => none

/-- The slots on the way from `checkSliceComplete` through the FEC queue to `fecMain`. -/
def State.pipeline (s : State) : List ℕ :=
  s.fecThread.current ++ s.fecEntries ++ s.tasks.filterMap Task.handed

/-- The FEC queue and the slots on their way through it. -/
structure FecQueue (s : State) : Prop where
  beyond : ∀ i, nrSlices ≤ i → (s.slices i).state = .free
  holds : s.fecDataPc.Holds nrSlices s.queued s.dequeued
  notEnded : s.fecDataPc.atEnd = false
  off : s.useFec = false → s.queued = 0
  taking : s.fecThread = .consumed → s.dequeued < s.queued
  pipeline : s.useFec = true → ∀ i, s.pipeline.count i ≤ (s.slices i).state.waits.toNat
  plain : s.useFec = false → ∀ i, (s.slices i).state ≠ .fec ∧ (s.slices i).state ≠ .fecDone
  swept : (s.slices (s.freed % nrSlices)).state = .fecDone →
    (∃ i k j, s.fecThread = .release i k j) ∨ s.fecThread = .cleanup ∨
      ∃ pos b, s.fecThread = .freeSlot pos b

/-- A step that changes the slots on the way to the FEC thread exactly as it changes the
slots with a finished slice. -/
def Balanced (s s' : State) : Prop :=
  ∀ i, s'.pipeline.count i + (s.slices i).state.waits.toNat =
    s.pipeline.count i + (s'.slices i).state.waits.toNat

variable {s s' : State} {i : ℕ} {t : Task} {l rest : List Task}

/-- What ends the treatment of a message hands no slot over. -/
theorem Task.Trails.handed {useFec : Bool} (h : t.Trails useFec) : t.handed = none := by
  cases t <;> first | exact h.elim | rfl

/-- Nor does a list of such tasks. -/
theorem handed_trails {useFec : Bool} (hl : ∀ x ∈ l, x.Trails useFec) :
    l.filterMap Task.handed = [] := by
  rw [List.filterMap_eq_nil_iff]
  exact fun x hx => (hl x hx).handed

/-- The entries of the queue depend on the queue only. -/
theorem fecEntries_congr (hslices : s'.fecSlices = s.fecSlices) (hqueued : s'.queued = s.queued)
    (hdequeued : s'.dequeued = s.dequeued) : s'.fecEntries = s.fecEntries := by
  unfold State.fecEntries
  rw [hslices, hqueued, hdequeued]

/-- The slots in the FEC queue are entries of a ring. -/
theorem fecEntries_eq (s : State) :
    s.fecEntries = ringEntries s.fecSlices nrSlices s.dequeued s.queued := rfl

/-- The first entry of the FEC queue is taken out. -/
theorem fecEntries_cons (h : s.dequeued < s.queued) (hslices : s'.fecSlices = s.fecSlices)
    (hqueued : s'.queued = s.queued) (hdequeued : s'.dequeued = s.dequeued + 1) :
    s.fecEntries = s.fecSlices (s.dequeued % nrSlices) :: s'.fecEntries := by
  rw [fecEntries_eq, fecEntries_eq, hslices, hqueued, hdequeued]
  exact ringEntries_cons h

/-- A slot is put at the end of the FEC queue. -/
theorem fecEntries_concat (hle : s.dequeued ≤ s.queued) (hfit : s.queued + 1 - s.dequeued ≤ nrSlices)
    (hslices : s'.fecSlices = Function.update s.fecSlices (s.queued % nrSlices) i)
    (hqueued : s'.queued = s.queued + 1) (hdequeued : s'.dequeued = s.dequeued) :
    s'.fecEntries = s.fecEntries ++ [i] := by
  rw [fecEntries_eq, fecEntries_eq, hslices, hqueued, hdequeued]
  exact ringEntries_concat hle hfit

/-- The slots on the way stay the same if the queue does, and what is handed over. -/
theorem pipeline_of_tasks (hthread : s'.fecThread.current = s.fecThread.current)
    (hentries : s'.fecEntries = s.fecEntries)
    (htasks : s'.tasks.filterMap Task.handed = s.tasks.filterMap Task.handed) :
    s'.pipeline = s.pipeline := by
  unfold State.pipeline
  rw [hthread, hentries, htasks]

/-- A step that changes neither side is balanced. -/
theorem Balanced.of_eq (hpipeline : s'.pipeline = s.pipeline)
    (hwaits : ∀ i, (s'.slices i).state.waits = (s.slices i).state.waits) : Balanced s s' := by
  intro i
  rw [hpipeline, hwaits]

/-- Two balanced steps are balanced. -/
theorem Balanced.trans {s'' : State} (h : Balanced s s') (h' : Balanced s' s'') :
    Balanced s s'' := by
  intro i
  have := h i
  have := h' i
  omega

/-- What balanced steps keep. -/
theorem Balanced.le (h : Balanced s s')
    (hle : ∀ i, s.pipeline.count i ≤ (s.slices i).state.waits.toNat) (i : ℕ) :
    s'.pipeline.count i ≤ (s'.slices i).state.waits.toNat := by
  have := h i
  have := hle i
  omega

/-- A balanced step keeps the slots on the way and those with a finished slice the same. -/
theorem Balanced.eq (h : Balanced s s')
    (heq : ∀ i, s.pipeline.count i = (s.slices i).state.waits.toNat) (i : ℕ) :
    s'.pipeline.count i = (s'.slices i).state.waits.toNat := by
  have := h i
  have := heq i
  omega

section Net

/-- A complete slice that is not decoded waits for the FEC thread. -/
theorem SliceState.waits_of_complete {state : SliceState} (h : state.complete = true)
    (hdone : state ≠ .fecDone) : state.waits = true := by
  cases state <;> simp_all [SliceState.complete, SliceState.waits]

/-- Work on a slice changes the thread of FEC only by starting it. -/
theorem Works.thread (hw : Works i s s') (huse : s.useFec = true) :
    s'.fecThread = s.fecThread := by
  rcases hw.fecThread with ⟨-, heq⟩ | ⟨hoff, -⟩
  · exact heq
  · rw [huse] at hoff
    cases hoff

/-- Work on a slice does not touch the FEC queue. -/
theorem Works.fecEntries (hw : Works i s s') : s'.fecEntries = s.fecEntries :=
  fecEntries_congr (congrArg Rest.fecSlices hw.rest_eq) (congrArg Rest.queued hw.rest_eq)
    (congrArg Rest.dequeued hw.rest_eq)

/-- It does not touch the other slots. -/
theorem Works.waits_others (hw : Works i s s') {j : ℕ} (hj : j ≠ i) :
    (s'.slices j).state.waits = (s.slices j).state.waits := by
  rw [hw.others j hj]

/-- A slice that is completed comes to wait for the FEC thread. -/
theorem Works.waits_completed (hw : Works i s s') (hstate : (s.slices i).state = .receiving)
    (hdone : (s'.slices i).state.complete = true) : (s'.slices i).state.waits = true := by
  rcases hw.state with heq | ⟨-, -, heq | ⟨heq, -⟩⟩
  · rw [heq, hstate] at hdone
    cases hdone
  · rw [heq]
    rfl
  · rw [heq]
    rfl

/-- Work on a slice puts the slot on its way if it completes the slice. -/
theorem Works.pipeline (hw : Works i s s') (hleaves : Leaves i s s')
    (hthread : s'.fecThread.current = s.fecThread.current) : Balanced s s' := by
  have hsame : s'.tasks.filterMap Task.handed = s.tasks.filterMap Task.handed →
      (s'.slices i).state = (s.slices i).state → Balanced s s' := by
    intro htasks hstate
    refine .of_eq (pipeline_of_tasks hthread hw.fecEntries htasks) fun j => ?_
    rcases eq_or_ne j i with rfl | hj
    · rw [hstate]
    · exact hw.waits_others hj
  cases hleaves with
  | waits htasks hstate =>
    refine hsame ?_ hstate
    rw [htasks]
    rfl
  | unchanged htasks hl hstate =>
    refine hsame ?_ hstate
    rw [htasks, List.filterMap_append, handed_trails hl, List.nil_append]
  | completed htasks hl hstate hdone =>
    have hhanded : s'.tasks.filterMap Task.handed = i :: s.tasks.filterMap Task.handed := by
      rw [htasks, List.filterMap_cons_none rfl]
      show i :: (_ ++ s.tasks).filterMap Task.handed = _
      rw [List.filterMap_append, handed_trails hl, List.nil_append]
    intro j
    unfold State.pipeline
    rw [hthread, hw.fecEntries, hhanded]
    simp only [List.count_append, List.count_cons]
    rcases eq_or_ne j i with rfl | hj
    · rw [hw.waits_completed hstate hdone, hstate]
      simp [SliceState.waits]
      omega
    · rw [hw.waits_others hj]
      simp [hj.symm]

/-- Setting up a slot does not concern finished slices. -/
theorem initSlice_waits {n : ℤ} (hok : Receiver.initSlice s i n = .ok s') (j : ℕ) :
    (s'.slices j).state.waits = (s.slices j).state.waits := by
  obtain ⟨hstate, -, -, guess, -, rfl⟩ := initSlice_ok hok
  dsimp only
  rcases eq_or_ne j i with rfl | hj
  · rw [Function.update_self]
    rcases hstate with hstate | hstate <;> rw [hstate] <;> rfl
  · rw [Function.update_of_ne hj]

/-- A slot that is set to a slice that waits as before changes nothing. -/
theorem slot_waits {slices : ℕ → Slice} {slice : Slice}
    (h : slice.state.waits = (slices i).state.waits) (j : ℕ) :
    (Function.update slices i slice j).state.waits = (slices j).state.waits := by
  rcases eq_or_ne j i with rfl | hj
  · rw [Function.update_self, h]
  · rw [Function.update_of_ne hj]

/-- The pipeline when the first task goes. -/
theorem pipeline_popped (ht : s.tasks = t :: rest) (hhanded : t.handed = none) :
    (s.popped rest).pipeline = s.pipeline := by
  refine pipeline_of_tasks rfl rfl ?_
  rw [ht, List.filterMap_cons_none hhanded]
  rfl

/-- A task works on a slice, from a state in which it is popped. -/
theorem Works.balanced {s₀ : State} (ht : s.tasks = t :: rest) (hhanded : t.handed = none)
    (huse : s.useFec = true) (hw : Works i s₀ s') (hleaves : Leaves i s₀ s')
    (hslices : s₀.slices = s.slices) (huse₀ : s₀.useFec = s.useFec)
    (hpipeline : s₀.pipeline = (s.popped rest).pipeline) : Balanced s s' := by
  have hpopped : Balanced s s₀ :=
    .of_eq (hpipeline.trans (pipeline_popped ht hhanded)) fun j => by rw [hslices]
  refine hpopped.trans (hw.pipeline hleaves ?_)
  rw [hw.thread (huse₀.trans huse)]

/-- A slot that is handed over finds room in the FEC queue. -/
theorem FecQueue.room (hq : FecQueue s) (huse : s.useFec = true)
    (ht : s.tasks = .handOver i :: rest) : s.queued + 1 - s.dequeued ≤ nrSlices := by
  have hcount : ∀ j, (i :: s.fecEntries).count j ≤ (s.slices j).state.waits.toNat := by
    intro j
    have hle := hq.pipeline huse j
    unfold State.pipeline at hle
    rw [ht] at hle
    have hhanded : (Task.handOver i :: rest).filterMap Task.handed =
      i :: rest.filterMap Task.handed := rfl
    rw [hhanded] at hle
    simp only [List.count_append, List.count_cons] at hle ⊢
    omega
  have hlen := length_le_of_count (fun j => (hcount j).trans (Bool.toNat_le _)) (n := nrSlices) (by
    intro j hj
    by_contra hge
    have hfree := hq.beyond j (not_lt.mp hge)
    have hpos := List.count_pos_iff.mpr hj
    have hle := hcount j
    rw [hfree] at hle
    simp only [SliceState.waits, Bool.toNat_false] at hle
    omega)
  rw [List.length_cons, fecEntries_eq, ringEntries_length] at hlen
  have := hq.holds.consumed_le
  omega

variable (h : Window s) (hq : FecQueue s) (ht : s.tasks = t :: rest)
include h hq ht

/-- With FEC in use, every step of the network thread is balanced. -/
theorem NetMoves.balanced (hm : NetMoves s t rest s') (huse : s.useFec = true) :
    Balanced s s' := by
  have hpop : t.handed = none → (s.popped rest).pipeline = s.pipeline := pipeline_popped ht
  have hcleanup : (t = .cleanup ∨ ∃ pos b, t = .freeSlot pos b) → Balanced s s' := fun hcase => by
    have hoff := h.stack.cleanup t (ht ▸ List.mem_cons_self) hcase
    rw [huse] at hoff
    cases hoff
  cases hm with
  | join => exact .of_eq (hpop rfl) fun _ => rfl
  | lookBack => exact .of_eq (hpop rfl) fun _ => rfl
  | restart hcurrent hlt hstreaming hinit | reserve hmem hinit =>
    have hwaits := initSlice_waits hinit
    obtain ⟨-, -, -, guess, -, rfl⟩ := initSlice_ok hinit
    exact .of_eq (hpop rfl) hwaits
  | lookAhead => exact .of_eq (hpop rfl) fun _ => rfl
  | scanFound => exact .of_eq (hpop rfl) fun _ => rfl
  | scanFree => exact .of_eq (hpop rfl) fun _ => rfl
  | scanOn => exact .of_eq (hpop rfl) fun _ => rfl
  | behind => exact .of_eq (hpop rfl) fun _ => rfl
  | lost => exact .of_eq (hpop rfl) fun _ => rfl
  | caughtUp => exact .of_eq (hpop rfl) fun _ => rfl
  | fake => exact .of_eq (hpop rfl) fun _ => rfl
  | force hfound hforce =>
    obtain ⟨hworks, hcompletes⟩ := completeByForce_works hforce
    exact hworks.balanced ht rfl huse (leaves_of_complete hcompletes) rfl rfl rfl
  | newSlice => exact .of_eq (hpop rfl) fun _ => rfl
  | takeSlot hi hfree =>
    exact .of_eq (hpop rfl) (slot_waits rfl)
  | process hprocess =>
    obtain ⟨j, -, hworks, hleaves⟩ := process_works_found hprocess
    exact hworks.balanced ht rfl huse hleaves rfl rfl rfl
  | reuse hlocal hfinish | takeBlock hfinish =>
    obtain ⟨hworks, hleaves⟩ := finishFecBlock_works hfinish
    exact hworks.balanced ht rfl huse hleaves rfl rfl rfl
  | waitForBlock => exact .of_eq (hpop rfl) fun _ => rfl
  | advanceFirst hadvance | advance hadvance =>
    subst hadvance
    unfold Receiver.advance
    split <;> exact .of_eq (hpop rfl) fun _ => rfl
  | @enqueue i =>
    have hentries : State.fecEntries { s with
        fecSlices := Function.update s.fecSlices (pcGetProducerPosition s.fecDataPc) i
        queued := s.queued + 1 } = s.fecEntries ++ [i] := by
      rw [hq.holds.producerPosition_eq]
      exact fecEntries_concat hq.holds.consumed_le (hq.room huse ht) rfl rfl rfl
    intro j
    have hbefore : s.pipeline =
        s.fecThread.current ++ s.fecEntries ++ i :: rest.filterMap Task.handed := by
      rw [State.pipeline, ht]
      rfl
    have hafter : State.pipeline { s with
        fecSlices := Function.update s.fecSlices (pcGetProducerPosition s.fecDataPc) i
        queued := s.queued + 1, tasks := rest } =
        s.fecThread.current ++ (s.fecEntries ++ [i]) ++ rest.filterMap Task.handed := by
      rw [← hentries]
      rfl
    rw [hbefore]
    refine congrArg (· + _) ((congrArg (List.count j) (hafter :)).trans ?_)
    simp
  | toCleanup hoff =>
    rw [huse] at hoff
    cases hoff
  | cleaned => exact hcleanup (.inl rfl)
  | release => exact hcleanup (.inl rfl)
  | freeSlot => exact hcleanup (.inr ⟨_, _, rfl⟩)

omit h hq ht in
/-- What only certain tasks of the network thread touch. -/
theorem NetMoves.frame (hm : NetMoves s t rest s') :
    (s'.fecDataPc = s.fecDataPc ∧ s'.queued = s.queued ∧ s'.dequeued = s.dequeued ∨
      ∃ i, t = .handOver i) ∧
    (s'.freed = s.freed ∨ ∃ pos b, t = .freeSlot pos b) ∧
    (s'.useFec = s.useFec ∧ s'.fecThread = s.fecThread ∨
      s.useFec = false ∧ s'.useFec = true ∧ s'.fecThread = .loopTest ∧ ∃ msg, t = .process msg) := by
  have hworks : ∀ {s₀ i}, Works i s₀ s' → s₀.fecDataPc = s.fecDataPc → s₀.queued = s.queued →
      s₀.dequeued = s.dequeued → s₀.freed = s.freed → (s'.fecDataPc = s.fecDataPc ∧
        s'.queued = s.queued ∧ s'.dequeued = s.dequeued) ∧ s'.freed = s.freed := by
    intro s₀ i hw hpc hqueued hdequeued hfreed
    exact ⟨⟨(congrArg Rest.fecDataPc hw.rest_eq).trans hpc,
      (congrArg Rest.queued hw.rest_eq).trans hqueued,
      (congrArg Rest.dequeued hw.rest_eq).trans hdequeued⟩,
      (congrArg Rest.freed hw.rest_eq).trans hfreed⟩
  have hthread : ∀ {s₀ i}, Works i s₀ s' → s'.useFec = s₀.useFec →
      s'.useFec = s₀.useFec ∧ s'.fecThread = s₀.fecThread := by
    intro s₀ i hw huse
    rcases hw.fecThread with hsame | ⟨hoff, hon, -⟩
    · exact hsame
    · rw [hoff, hon] at huse
      cases huse
  cases hm with
  | restart hcurrent hlt hstreaming hok | reserve hmem hok =>
    obtain ⟨-, -, -, guess, -, rfl⟩ := initSlice_ok hok
    exact ⟨.inl ⟨rfl, rfl, rfl⟩, .inl rfl, .inl ⟨rfl, rfl⟩⟩
  | force hfound hforce =>
    obtain ⟨hw, -⟩ := completeByForce_works hforce
    obtain ⟨hqueue, hfreed⟩ := hworks hw rfl rfl rfl rfl
    have hsame := hthread hw (completeByForce_useFec hforce)
    exact ⟨.inl hqueue, .inl hfreed, .inl hsame⟩
  | process hprocess =>
    obtain ⟨i, -, hw, -⟩ := process_works_found hprocess
    obtain ⟨hqueue, hfreed⟩ := hworks hw rfl rfl rfl rfl
    refine ⟨.inl hqueue, .inl hfreed, ?_⟩
    rcases hw.fecThread with hsame | ⟨hoff, hon, hloop⟩
    · exact .inl hsame
    · exact .inr ⟨hoff, hon, hloop, _, rfl⟩
  | reuse hlocal hfinish | takeBlock hfinish =>
    obtain ⟨hw, -⟩ := finishFecBlock_works hfinish
    obtain ⟨hqueue, hfreed⟩ := hworks hw rfl rfl rfl rfl
    have hsame := hthread hw (finishFecBlock_useFec hfinish)
    exact ⟨.inl hqueue, .inl hfreed, .inl hsame⟩
  | advanceFirst hadvance | advance hadvance =>
    subst hadvance
    unfold Receiver.advance
    split <;> exact ⟨.inl ⟨rfl, rfl, rfl⟩, .inl rfl, .inl ⟨rfl, rfl⟩⟩
  | enqueue => exact ⟨.inr ⟨_, rfl⟩, .inl rfl, .inl ⟨rfl, rfl⟩⟩
  | release hpos hstate hclean =>
    rcases cleanupSlices_ok hclean with ⟨-, hslot, -⟩ | ⟨_, _, -, -, -, -, hdata⟩
    · cases hslot
    · rcases hdata with ⟨-, rfl⟩ | ⟨-, q, -, rfl⟩ <;>
        exact ⟨.inl ⟨rfl, rfl, rfl⟩, .inl rfl, .inl ⟨rfl, rfl⟩⟩
  | freeSlot hfree =>
    obtain ⟨q, -, rfl⟩ := freeSlot_ok hfree
    exact ⟨.inl ⟨rfl, rfl, rfl⟩, .inr ⟨_, _, rfl⟩, .inl ⟨rfl, rfl⟩⟩
  | _ => exact ⟨.inl ⟨rfl, rfl, rfl⟩, .inl rfl, .inl ⟨rfl, rfl⟩⟩

omit hq in
/-- What a step of the network thread can do to the state of a slot. -/
theorem NetMoves.state_cases (hm : NetMoves s t rest s') (j : ℕ) :
    (s'.slices j).state = (s.slices j).state ∨
    ((s'.slices j).state = .receiving ∧ j < nrSlices ∧
      ((s.slices j).state = .free ∨ (s.slices j).state = .receiving)) ∨
    ((s.slices j).state = .receiving ∧ s'.streaming = false ∧
      ((s'.slices j).state = .done ∨ (s'.slices j).state = .fec ∧ s'.useFec = true)) ∨
    ((s.slices j).state = .done ∧ (s'.slices j).state = .free ∧ s.useFec = false) := by
  have hworks : ∀ {s₀ i}, Works i s₀ s' → s₀.slices = s.slices →
      (s'.slices j).state = (s.slices j).state ∨ ((s.slices j).state = .receiving ∧
        s'.streaming = false ∧
        ((s'.slices j).state = .done ∨ (s'.slices j).state = .fec ∧ s'.useFec = true)) := by
    intro s₀ i hw hslices
    rcases eq_or_ne j i with rfl | hj
    · rcases hw.state with heq | hdone
      · exact .inl (by rw [heq, hslices])
      · exact .inr (hslices ▸ hdone)
    · exact .inl (by rw [hw.others j hj, hslices])
  have hinit : ∀ {i n s₁}, i < nrSlices → Receiver.initSlice (s.popped rest) i n = .ok s₁ →
      (s₁.slices j).state = (s.slices j).state ∨ ((s₁.slices j).state = .receiving ∧
        j < nrSlices ∧ ((s.slices j).state = .free ∨ (s.slices j).state = .receiving)) := by
    intro i n s₁ hi hok
    obtain ⟨hstate, -, -, guess, -, rfl⟩ := initSlice_ok hok
    dsimp only
    rcases eq_or_ne j i with rfl | hj
    · exact .inr ⟨by rw [Function.update_self]; rfl, hi, hstate⟩
    · exact .inl (by rw [Function.update_of_ne hj]; rfl)
  cases hm with
  | restart hcurrent hlt hstreaming hok =>
    rcases hinit (by decide) hok with hsame | hset
    · exact .inl hsame
    · exact .inr (.inl hset)
  | reserve hmem hok =>
    obtain ⟨-, hi⟩ := h.stack.reserved _ (by rw [ht]; rfl)
    rcases hinit (hi ▸ Nat.mod_lt _ (by decide)) hok with hsame | hset
    · exact .inl hsame
    · exact .inr (.inl hset)
  | @takeSlot n i _ hi hfree =>
    refine .inl ?_
    dsimp only
    rcases eq_or_ne j i with rfl | hj
    · rw [Function.update_self]
    · rw [Function.update_of_ne hj]
  | force hfound hforce =>
    rcases hworks (completeByForce_works hforce).1 rfl with hsame | hdone
    · exact .inl hsame
    · exact .inr (.inr (.inl hdone))
  | process hprocess =>
    obtain ⟨i, -, hw, -⟩ := process_works_found hprocess
    rcases hworks hw rfl with hsame | hdone
    · exact .inl hsame
    · exact .inr (.inr (.inl hdone))
  | reuse hlocal hfinish | takeBlock hfinish =>
    rcases hworks (finishFecBlock_works hfinish).1 rfl with hsame | hdone
    · exact .inl hsame
    · exact .inr (.inr (.inl hdone))
  | advanceFirst hadvance | advance hadvance =>
    subst hadvance
    unfold Receiver.advance
    split <;> exact .inl rfl
  | release hpos hstate hclean =>
    rcases cleanupSlices_ok hclean with ⟨-, hslot, -⟩ | ⟨_, _, -, -, -, -, hdata⟩
    · cases hslot
    · rcases hdata with ⟨-, rfl⟩ | ⟨-, q, -, rfl⟩ <;> exact .inl rfl
  | @freeSlot pos bytes rest s₁ hfree =>
    obtain ⟨-, -, hdone⟩ := h.stack.netFrees pos bytes rest ht
    have hoff := h.stack.cleanup _ (ht ▸ List.mem_cons_self) (.inr ⟨pos, bytes, rfl⟩)
    obtain ⟨q, -, rfl⟩ := freeSlot_ok hfree
    dsimp only
    rcases eq_or_ne j pos with rfl | hj
    · exact .inr (.inr (.inr ⟨hdone, by rw [Function.update_self], hoff⟩))
    · exact .inl (by rw [Function.update_of_ne hj]; rfl)
  | _ => exact .inl rfl

/-- The step with which FEC comes into use: no slot was on its way, and slots with a finished
slice stay behind. -/
theorem NetMoves.flip (hm : NetMoves s t rest s') (hoff : s.useFec = false)
    (hon : s'.useFec = true) (i : ℕ) :
    s'.pipeline.count i + (s.slices i).state.waits.toNat = (s'.slices i).state.waits.toNat := by
  rcases hm.frame.2.2 with ⟨hsame, -⟩ | ⟨-, -, hthread, msg, rfl⟩
  · rw [hsame, hoff] at hon
    cases hon
  · have hchain := h.stack.chain
    rw [ht] at hchain
    obtain rfl := rest_of_process hchain
    have habsent : s.fecThread = .absent := h.slots.fecAbsent.mp hoff
    have hempty : (s.popped []).pipeline = [] := by
      have hle := hq.holds.consumed_le
      have hzero := hq.off hoff
      have hlen : s.queued - s.dequeued = 0 := by omega
      show s.fecThread.current ++ s.fecEntries ++ [] = []
      unfold State.fecEntries
      rw [habsent, hlen]
      rfl
    cases hm with
    | process hprocess =>
      obtain ⟨j, -, hw, hleaves⟩ := process_works_found hprocess
      have hbalanced := hw.pipeline hleaves (by
        rw [hthread]
        show _ = s.fecThread.current
        rw [habsent]
        rfl) i
      rw [hempty, List.count_nil, Nat.zero_add] at hbalanced
      exact hbalanced

/-- A step of the network thread keeps the FEC queue. -/
theorem FecQueue.netMoves (hm : NetMoves s t rest s') : FecQueue s' := by
  have hstates := hm.state_cases h ht
  obtain ⟨hqueue, hfreed, hthread⟩ := hm.frame
  have hholds : s'.fecDataPc.Holds nrSlices s'.queued s'.dequeued ∧ s'.fecDataPc.atEnd = false ∧
      (s'.useFec = false → s'.queued = 0) ∧ (s'.fecThread = .consumed → s'.dequeued < s'.queued) := by
    rcases hqueue with ⟨hpc, hqueued, hdequeued⟩ | ⟨i, rfl⟩
    · rw [hpc, hqueued, hdequeued]
      refine ⟨hq.holds, hq.notEnded, fun hoff => ?_, fun hconsumed => ?_⟩
      · rcases hthread with ⟨huse, -⟩ | ⟨hbefore, -⟩
        · exact hq.off (huse ▸ hoff)
        · exact hq.off hbefore
      · rcases hthread with ⟨-, heq⟩ | ⟨-, -, hloop, -⟩
        · exact hq.taking (heq ▸ hconsumed)
        · rw [hloop] at hconsumed
          cases hconsumed
    · cases hm with
      | enqueue huse hproduce =>
        obtain ⟨q', hq', hholds, hend⟩ := hq.holds.pcProduce (n := 1) (hq.room huse ht)
        rw [hproduce] at hq'
        obtain rfl := Option.some.inj hq'
        refine ⟨hholds, hend.trans hq.notEnded, fun hoff => ?_, fun hconsumed => ?_⟩
        · exact absurd (huse.symm.trans hoff) (by simp)
        · exact Nat.lt_succ_of_lt (hq.taking hconsumed)
      | toCleanup => exact ⟨hq.holds, hq.notEnded, hq.off, hq.taking⟩
  obtain ⟨hholds, hnotEnded, hoff, htaking⟩ := hholds
  refine ⟨fun i hi => ?_, hholds, hnotEnded, hoff, htaking, fun hon i => ?_, fun hoff' i => ?_, ?_⟩
  · have hfree := hq.beyond i hi
    rcases hstates i with heq | ⟨-, hlt, -⟩ | ⟨hbefore, -⟩ | ⟨hbefore, -⟩
    · rw [heq, hfree]
    · omega
    · rw [hfree] at hbefore
      cases hbefore
    · rw [hfree] at hbefore
      cases hbefore
  · cases huse : s.useFec with
    | true => exact (hm.balanced h hq ht huse).le (hq.pipeline huse) i
    | false =>
      have := hm.flip h hq ht huse hon i
      omega
  · have hplain : s.useFec = false := by
      rcases hthread with ⟨huse, -⟩ | ⟨hbefore, -⟩
      · exact huse ▸ hoff'
      · exact hbefore
    have hbefore := hq.plain hplain i
    rcases hstates i with heq | ⟨heq, -⟩ | ⟨-, -, heq | ⟨-, hon⟩⟩ | ⟨-, heq, -⟩
    · rw [heq]
      exact hbefore
    · simp [heq]
    · simp [heq]
    · rw [hoff'] at hon
      cases hon
    · simp [heq]
  · intro hdone
    have hbefore : (s.slices (s'.freed % nrSlices)).state = .fecDone := by
      rcases hstates (s'.freed % nrSlices) with heq | ⟨heq, -⟩ | ⟨-, -, heq | ⟨heq, -⟩⟩ | ⟨-, heq, -⟩
      · rw [← heq, hdone]
      all_goals rw [heq] at hdone; cases hdone
    have huse : s.useFec = true := by
      by_contra hoff
      exact (hq.plain (Bool.not_eq_true _ ▸ hoff) _).2 hbefore
    have hsame : s'.fecThread = s.fecThread := by
      rcases hthread with ⟨-, heq⟩ | ⟨hoff, -⟩
      · exact heq
      · rw [huse] at hoff
        cases hoff
    rcases hfreed with hfreed | ⟨pos, b, rfl⟩
    · rw [hfreed] at hbefore
      rw [hsame]
      exact hq.swept hbefore
    · have hoff := h.stack.cleanup _ (ht ▸ List.mem_cons_self) (.inr ⟨pos, b, rfl⟩)
      rw [huse] at hoff
      cases hoff

end Net

section Fec

/-- The two states in which a slice waits for the FEC thread. -/
theorem SliceState.waits_iff {state : SliceState} :
    state.waits = true ↔ state = .done ∨ state = .fec := by
  cases state <;> simp [SliceState.waits]

/-- The FEC thread deals with the first slot of the pipeline. -/
theorem balanced_dealt {s₁ : State} {slice : Slice} (hbefore : s.pipeline = i :: s₁.pipeline)
    (hafter : s'.pipeline = s₁.pipeline) (hwaits : (s.slices i).state.waits = true)
    (hslices : s'.slices = Function.update s.slices i slice)
    (hdealt : slice.state.waits = false) : Balanced s s' := by
  intro j
  rw [hbefore, hafter, hslices, List.count_cons]
  rcases eq_or_ne j i with rfl | hj
  · rw [hwaits, Function.update_self, hdealt]
    simp
  · rw [Function.update_of_ne hj]
    simp [hj.symm]

variable (h : Window s) (hq : FecQueue s)
include h hq

/-- What `fecMain` takes out of its queue is a finished slice. -/
theorem FecQueue.taken (hpc : s.fecThread = .consumed)
    (hi : i = s.fecSlices (pcGetConsumerPosition s.fecDataPc)) :
    (s.slices i).state.waits = true ∧ s.fecEntries = i :: State.fecEntries
      { s with fecDataPc := pcConsumed s.fecDataPc 1, dequeued := s.dequeued + 1 } := by
  have huse := h.slots.present (by rw [hpc]; simp)
  rw [hq.holds.consumerPosition_eq] at hi
  have hentries : s.fecEntries = s.fecSlices (s.dequeued % nrSlices) :: State.fecEntries
      { s with fecDataPc := pcConsumed s.fecDataPc 1, dequeued := s.dequeued + 1 } :=
    fecEntries_cons (hq.taking hpc) rfl rfl rfl
  rw [← hi] at hentries
  refine ⟨?_, hentries⟩
  have hle := hq.pipeline huse i
  have hpos : 0 < s.pipeline.count i := by
    apply List.count_pos_iff.mpr
    unfold State.pipeline
    rw [hentries]
    simp
  by_contra hnot
  rw [Bool.not_eq_true] at hnot
  rw [hnot, Bool.toNat_false] at hle
  omega

/-- With FEC in use, every step of the FEC thread is balanced. -/
theorem FecMoves.balanced (hm : FecMoves s s') : Balanced s s' := by
  cases hm with
  | loop hpc =>
    refine .of_eq (pipeline_of_tasks ?_ rfl rfl) fun _ => rfl
    rw [hpc]
    dsimp only
    split <;> rfl
  | consume hpc | released hpc | nextStripe hpc | cleaned hpc =>
    refine .of_eq (pipeline_of_tasks ?_ rfl rfl) fun _ => rfl
    rw [hpc]
    rfl
  | @takeFec i hpc hi hstate =>
    obtain ⟨-, hentries⟩ := hq.taken h hpc hi
    refine .of_eq ?_ fun _ => rfl
    unfold State.pipeline
    rw [hentries, hpc]
    rfl
  | @takeDone i hpc hi hstate =>
    obtain ⟨-, hentries⟩ := hq.taken h hpc hi
    have hbefore : s.pipeline = i :: State.pipeline { s with
        fecDataPc := pcConsumed s.fecDataPc 1, dequeued := s.dequeued + 1
        fecThread := .cleanup } := by
      unfold State.pipeline
      rw [hentries, hpc]
      rfl
    exact balanced_dealt hbefore rfl (by rw [hstate]; rfl) rfl rfl
  | takeOther hpc hi hfec hdone =>
    obtain ⟨hwaits, -⟩ := hq.taken h hpc hi
    exact absurd hwaits (by simp [SliceState.waits_iff, hfec, hdone])
  | @decode i mem blocks hpc hdecode =>
    have hbefore : s.pipeline = i :: State.pipeline { s with fecThread := .release i 0 0 } := by
      unfold State.pipeline
      rw [hpc]
      rfl
    exact balanced_dealt hbefore rfl (by rw [h.slots.decoding i hpc]; rfl) rfl rfl
  | freeBlock hpc =>
    refine .of_eq (pipeline_of_tasks ?_ rfl rfl) (slot_waits rfl)
    rw [hpc]
    rfl
  | releaseSlice hpc hpos hstate hclean =>
    rcases cleanupSlices_ok hclean with ⟨-, hslot, -⟩ | ⟨_, _, -, -, -, -, hdata⟩
    · cases hslot
    · rcases hdata with ⟨-, rfl⟩ | ⟨-, q, -, rfl⟩ <;>
        exact .of_eq (pipeline_of_tasks (by rw [hpc]; rfl) rfl rfl) fun _ => rfl
  | @freeSlot pos bytes s₁ hpc hfree =>
    obtain ⟨-, -, hstate⟩ := h.slots.fecFrees pos bytes hpc
    obtain ⟨q, -, rfl⟩ := freeSlot_ok hfree
    refine .of_eq (pipeline_of_tasks ?_ rfl rfl) (slot_waits ?_)
    · rw [hpc]
      rfl
    · rw [hstate]
      rfl

omit hq in
/-- What a step of the FEC thread can do to the state of a slot. -/
theorem FecMoves.state_cases (hm : FecMoves s s') (j : ℕ) :
    (s'.slices j).state = (s.slices j).state ∨
    (s.slices j).state.waits = true ∧ (s'.slices j).state = .fecDone ∨
    (s.slices j).state = .fecDone ∧ (s'.slices j).state = .free := by
  cases hm with
  | @takeDone i hpc hi hstate =>
    dsimp only
    rcases eq_or_ne j i with rfl | hj
    · exact .inr (.inl ⟨by rw [hstate]; rfl, by rw [Function.update_self]⟩)
    · exact .inl (by rw [Function.update_of_ne hj])
  | @decode i mem blocks hpc hdecode =>
    dsimp only
    rcases eq_or_ne j i with rfl | hj
    · exact .inr (.inl ⟨by rw [h.slots.decoding j hpc]; rfl, by rw [Function.update_self]⟩)
    · exact .inl (by rw [Function.update_of_ne hj])
  | @freeBlock i stripe k d b q hpc =>
    dsimp only
    rcases eq_or_ne j i with rfl | hj
    · exact .inl (by rw [Function.update_self])
    · exact .inl (by rw [Function.update_of_ne hj])
  | releaseSlice hpc hpos hstate hclean =>
    rcases cleanupSlices_ok hclean with ⟨-, hslot, -⟩ | ⟨_, _, -, -, -, -, hdata⟩
    · cases hslot
    · rcases hdata with ⟨-, rfl⟩ | ⟨-, q, -, rfl⟩ <;> exact .inl rfl
  | @freeSlot pos bytes s₁ hpc hfree =>
    obtain ⟨-, -, hstate⟩ := h.slots.fecFrees pos bytes hpc
    obtain ⟨q, -, rfl⟩ := freeSlot_ok hfree
    dsimp only
    rcases eq_or_ne j pos with rfl | hj
    · exact .inr (.inr ⟨hstate, by rw [Function.update_self]⟩)
    · exact .inl (by rw [Function.update_of_ne hj])
  | _ => exact .inl rfl

omit h hq in
/-- The FEC thread moves only if it has been started. -/
theorem FecMoves.thread_ne (hm : FecMoves s s') : s.fecThread ≠ .absent := by
  intro habsent
  cases hm <;> simp_all only [reduceCtorEq]

/-- A step of the FEC thread keeps the FEC queue. -/
theorem FecQueue.fecMoves (hm : FecMoves s s') : FecQueue s' := by
  have hstates := hm.state_cases h
  have hbalanced := hm.balanced h hq
  have huse := h.slots.present hm.thread_ne
  have hpipeline := hbalanced.le (hq.pipeline huse)
  have hbeyond : ∀ i, nrSlices ≤ i → (s'.slices i).state = .free := by
    intro i hi
    have hfree := hq.beyond i hi
    rcases hstates i with heq | ⟨hwaits, -⟩ | ⟨hdone, -⟩
    · rw [heq, hfree]
    · rw [hfree] at hwaits
      cases hwaits
    · rw [hfree] at hdone
      cases hdone
  have htaken : s.fecThread = .consumed →
      (pcConsumed s.fecDataPc 1).Holds nrSlices s.queued (s.dequeued + 1) := fun hpc =>
    hq.holds.pcConsumed (hq.taking hpc)
  have hstays : ∀ pc : FecPc, s.fecThread = pc → (∀ i k j, pc ≠ .release i k j) → pc ≠ .cleanup →
      (∀ pos b, pc ≠ .freeSlot pos b) → (s.slices (s.freed % nrSlices)).state ≠ .fecDone := by
    intro pc hpc hrelease hcleanup hfree hdone
    rcases hq.swept hdone with ⟨i, k, j, hcase⟩ | hcase | ⟨pos, b, hcase⟩
    · exact hrelease i k j (hpc ▸ hcase)
    · exact hcleanup (hpc ▸ hcase)
    · exact hfree pos b (hpc ▸ hcase)
  have hnever : ∀ {P : Prop}, s.useFec = false → P := fun hoff => by
    rw [huse] at hoff
    cases hoff
  cases hm with
  | loop hpc =>
    refine ⟨hbeyond, hq.holds, hq.notEnded, hq.off, ?_, fun _ => hpipeline, hnever, fun hdone =>
      absurd hdone (hstays _ hpc (by simp) (by simp) (by simp))⟩
    dsimp only
    split <;> simp
  | consume hpc hfull =>
    refine ⟨hbeyond, hq.holds, hq.notEnded, hq.off, fun _ => ?_, fun _ => hpipeline, hnever,
      fun hdone => absurd hdone (hstays _ hpc (by simp) (by simp) (by simp))⟩
    rw [hq.holds.pcConsume_eq, hq.notEnded] at hfull
    split at hfull
    · rename_i hone
      simp only [Bool.false_eq_true, or_false] at hone
      show s.dequeued < s.queued
      omega
    · cases hfull
  | takeFec hpc hi hstate | takeOther hpc hi hfec hdone =>
    exact ⟨hbeyond, htaken hpc, hq.notEnded, hq.off, by simp, fun _ => hpipeline, hnever,
      fun hdone => absurd hdone (hstays _ hpc (by simp) (by simp) (by simp))⟩
  | takeDone hpc hi hstate =>
    exact ⟨hbeyond, htaken hpc, hq.notEnded, hq.off, by simp, fun _ => hpipeline, hnever,
      fun _ => .inr (.inl rfl)⟩
  | decode hpc hdecode | nextStripe hpc | freeBlock hpc =>
    exact ⟨hbeyond, hq.holds, hq.notEnded, hq.off, by simp, fun _ => hpipeline, hnever,
      fun _ => .inl ⟨_, _, _, rfl⟩⟩
  | released hpc =>
    exact ⟨hbeyond, hq.holds, hq.notEnded, hq.off, by simp, fun _ => hpipeline, hnever,
      fun _ => .inr (.inl rfl)⟩
  | cleaned hpc hstate =>
    refine ⟨hbeyond, hq.holds, hq.notEnded, hq.off, by simp, fun _ => hpipeline, hnever,
      fun hdone => absurd hdone ?_⟩
    rw [← h.slots.producerPosition]
    exact hstate
  | releaseSlice hpc hpos hstate hclean =>
    rcases cleanupSlices_ok hclean with ⟨-, hslot, -⟩ | ⟨_, _, -, -, -, -, hdata⟩
    · cases hslot
    · rcases hdata with ⟨-, rfl⟩ | ⟨-, q, -, rfl⟩ <;>
        exact ⟨hbeyond, hq.holds, hq.notEnded, hq.off, by simp, fun _ => hpipeline, hnever,
          fun _ => .inr (.inr ⟨_, _, rfl⟩)⟩
  | freeSlot hpc hfree =>
    obtain ⟨q, -, rfl⟩ := freeSlot_ok hfree
    exact ⟨hbeyond, hq.holds, hq.notEnded, hq.off, by simp, fun _ => hpipeline, hnever,
      fun _ => .inr (.inl rfl)⟩

end Fec

section Runs

variable {st : Stream} {mode : Mode}

/-- Every move of the receiver keeps the facts about the FEC queue. -/
theorem FecQueue.moves {a : Action} (h : Window s) (hq : FecQueue s) (hm : Moves s a s') :
    FecQueue s' := by
  cases hm with
  | @receive msg mem blocks hidle hend =>
    have hpipeline : State.pipeline { s with tasks := dispatch msg } = s.pipeline := by
      refine pipeline_of_tasks rfl rfl ?_
      rw [hidle]
      cases msg <;> rfl
    refine { hq with pipeline := fun huse i => ?_ }
    exact (congrArg (List.count i) hpipeline).trans_le (hq.pipeline huse i)
  | exitWait hidle hend => exact { hq with }
  | net ht hm => exact hq.netMoves h ht hm
  | fec hm => exact hq.fecMoves h hm
  | writer hm => cases hm <;> exact { hq with }

/-- At the start the queue is empty. -/
theorem fecQueue_start (h : Starts st mode s) : FecQueue s := by
  obtain ⟨config, streaming, mem, blockData, -, -, -, hstart⟩ := h
  obtain ⟨_, _, _, -, -, -, rfl⟩ := start_eq hstart
  exact ⟨fun _ _ => rfl, holds_make (by decide) (by decide), rfl, fun _ => rfl, by simp, by simp,
    fun _ _ => by simp [Slice.unused], by simp [Slice.unused]⟩

/-- So they hold as long as the receiver runs. -/
theorem fecQueue_of_reachable (h : (system st mode).Reachable s) (hrunning : s.failure = none) :
    FecQueue s :=
  running_of_reachable (fun _ hs hrun => window_of_reachable hs hrun) (fun _ => fecQueue_start)
    (fun _ _ _ hw hq _ hm => hq.moves hw hm) h hrunning

/-- Slot `i` is between the consumer and the producer position of `fec_data_pc`. -/
def InFecQueue (s : State) (i : ℕ) : Prop :=
  ∃ k < pcGetWaiting s.fecDataPc,
    s.fecSlices ((pcGetConsumerPosition s.fecDataPc + k) % nrSlices) = i

/-- No finished slice is stranded: it is on its way to `fecMain`, and if `fecMain` has nothing
to do, the next slot to give back does not hold one. -/
structure NotStranded (s : State) : Prop where
  onItsWay : s.useFec = true → ∀ i, (s.slices i).state = .done ∨ (s.slices i).state = .fec →
    InFecQueue s i ∨ s.fecThread = .decode i ∨ .handOver i ∈ s.tasks
  idle : s.useFec = true → pcGetWaiting s.fecDataPc = 0 →
    s.fecThread = .loopTest ∨ s.fecThread = .consume ∨ s.fecThread = .exited →
    (∀ i, .handOver i ∉ s.tasks) →
    (s.slices (pcGetProducerPosition s.freeSlicesPc)).state.complete = false

/-- When a step brings FEC into use, no slot is in state `SLICE_DONE`. -/
def SwitchesOnClean (s s' : State) : Prop :=
  s.useFec = false → s'.useFec = true → ∀ i < nrSlices, (s.slices i).state ≠ .done

/-- A slot is in the queue if it lies between its positions. -/
theorem FecQueue.mem_fecEntries (hq : FecQueue s) : i ∈ s.fecEntries ↔ InFecQueue s i := by
  have hle := hq.holds.consumed_le
  have hmod : ∀ k, (pcGetConsumerPosition s.fecDataPc + k) % nrSlices =
      (s.dequeued + k) % nrSlices := fun k => by
    rw [hq.holds.consumerPosition_eq, Nat.mod_add_mod]
  unfold State.fecEntries InFecQueue
  rw [hq.holds.pcGetWaiting_eq, List.mem_map]
  constructor
  · rintro ⟨k, hk, rfl⟩
    obtain ⟨hk, hklt⟩ := List.mem_range'_1.mp hk
    refine ⟨k - s.dequeued, by omega, ?_⟩
    rw [hmod, Nat.add_sub_cancel' hk]
  · rintro ⟨k, hk, rfl⟩
    exact ⟨s.dequeued + k, List.mem_range'_1.mpr ⟨by omega, by omega⟩, by rw [hmod]⟩

/-- A slot is on its way if it is in the queue, is being decoded, or is about to be handed over.
-/
theorem FecQueue.mem_pipeline (hq : FecQueue s) :
    i ∈ s.pipeline ↔ InFecQueue s i ∨ s.fecThread = .decode i ∨ .handOver i ∈ s.tasks := by
  have hcurrent : i ∈ s.fecThread.current ↔ s.fecThread = .decode i := by
    cases s.fecThread <;> simp [FecPc.current, eq_comm]
  have hhanded : i ∈ s.tasks.filterMap Task.handed ↔ .handOver i ∈ s.tasks := by
    rw [List.mem_filterMap]
    constructor
    · rintro ⟨t, ht, hi⟩
      cases t <;> simp only [Task.handed, reduceCtorEq, Option.some.injEq] at hi
      exact hi ▸ ht
    · exact fun ht => ⟨_, ht, rfl⟩
  unfold State.pipeline
  rw [List.mem_append, List.mem_append, hcurrent, hhanded, hq.mem_fecEntries]
  tauto

/-- If the slots on their way are those with a finished slice, none is stranded. -/
theorem notStranded_of_pipeline (h : Window s) (hq : FecQueue s)
    (hall : s.useFec = true → ∀ i, s.pipeline.count i = (s.slices i).state.waits.toNat) :
    NotStranded s := by
  have hway : s.useFec = true → ∀ i, (s.slices i).state = .done ∨ (s.slices i).state = .fec →
      InFecQueue s i ∨ s.fecThread = .decode i ∨ .handOver i ∈ s.tasks := by
    intro huse i hi
    refine hq.mem_pipeline.mp (List.count_pos_iff.mp ?_)
    rw [hall huse i, SliceState.waits_iff.mpr hi]
    exact Nat.one_pos
  refine ⟨hway, fun huse hempty hidle hhanded => ?_⟩
  by_contra hcomplete
  rw [Bool.not_eq_false] at hcomplete
  have hdone : (s.slices (pcGetProducerPosition s.freeSlicesPc)).state ≠ .fecDone := by
    rw [h.slots.producerPosition]
    intro hdone
    rcases hq.swept hdone with ⟨i, k, j, hpc⟩ | hpc | ⟨pos, b, hpc⟩ <;>
      rw [hpc] at hidle <;> rcases hidle with hidle | hidle | hidle <;> cases hidle
  have hwaits := SliceState.waits_of_complete hcomplete hdone
  rcases hway huse _ (SliceState.waits_iff.mp hwaits) with ⟨k, hk, -⟩ | hpc | hmem
  · omega
  · rw [hpc] at hidle
    rcases hidle with hidle | hidle | hidle <;> cases hidle
  · exact hhanded _ hmem

/-- Finished slices are never stranded in the runs in which no slot is in state `SLICE_DONE`
when FEC comes into use. -/
theorem notStranded_of_switchesOnClean
    (h : ((system st mode).restrict SwitchesOnClean).Reachable s) (hrunning : s.failure = none) :
    NotStranded s := by
  have hknown : ∀ s, ((system st mode).restrict SwitchesOnClean).Reachable s → s.failure = none →
      Window s ∧ FecQueue s := fun s hs hrun =>
    ⟨window_of_reachable (System.restrict_reachable hs) hrun,
      fecQueue_of_reachable (System.restrict_reachable hs) hrun⟩
  have hall : s.useFec = true → ∀ i, s.pipeline.count i = (s.slices i).state.waits.toNat := by
    refine running_of_restricted
      (P := fun s => s.useFec = true → ∀ i, s.pipeline.count i = (s.slices i).state.waits.toNat)
      hknown ?_ ?_ h hrunning
    · rintro s ⟨config, streaming, mem, blockData, -, -, -, hstart⟩ huse
      obtain ⟨_, _, _, -, -, -, rfl⟩ := start_eq hstart
      cases huse
    · rintro s s' a ⟨hw, hq⟩ hP - hC hm huse i
      cases hm with
      | @receive msg mem blocks hidle hend =>
        have hpipeline : State.pipeline { s with tasks := dispatch msg } = s.pipeline := by
          refine pipeline_of_tasks rfl rfl ?_
          rw [hidle]
          cases msg <;> rfl
        exact (congrArg (List.count i) hpipeline).trans (hP huse i)
      | exitWait => exact hP huse i
      | net ht hm =>
        cases hbefore : s.useFec with
        | true => exact (hm.balanced hw hq ht hbefore).eq (hP hbefore) i
        | false =>
          have hflip := hm.flip hw hq ht hbefore huse i
          have hnone : (s.slices i).state.waits = false := by
            by_contra hwaits
            rw [Bool.not_eq_false, SliceState.waits_iff] at hwaits
            rcases hwaits with hdone | hfec
            · rcases Nat.lt_or_ge i nrSlices with hlt | hge
              · exact hC hbefore huse i hlt hdone
              · rw [hq.beyond i hge] at hdone
                cases hdone
            · exact (hq.plain hbefore i).1 hfec
          rw [hnone] at hflip
          exact hflip
      | fec hm =>
        have hbefore := hw.slots.present hm.thread_ne
        exact (hm.balanced hw hq).eq (hP hbefore) i
      | writer hm => cases hm <;> exact hP huse i
  exact notStranded_of_pipeline (hknown s h hrunning).1 (hknown s h hrunning).2 hall

/-- Two slices of two blocks and of one block. -/
def twoAndOne : Stream := .zeros [2, 1] 1 1 1

/-- A receiver of this stream. -/
def startTwoAndOne : Option State :=
  start ⟨1, false, true, 0⟩ false (fun _ => .ofNat 0) fun _ _ => .ofNat 0

/-- The first block of the first slice arrives, then the second slice and a FEC block of the
first one, in this order or the other way round. -/
def arrivals (secondFirst : Bool) : List Action :=
  let second := (.data 1 0 1 (twoAndOne.dataPayload 1 0), 9)
  let fec := (.fec 1 0 0 2 [.ofNat 0], if secondFirst then 11 else 9)
  List.replicate 3 .net ++ schedule ((.data 0 0 2 (twoAndOne.dataPayload 0 0), 3) ::
    if secondFirst then [second, fec] else [fec, second])

/-- The stream of two slices is one that a sender may send. -/
theorem twoAndOne_valid : twoAndOne.Valid where
  blockSize_pos := by decide
  cut_pos := by decide
  cut_le := by decide
  dvd _ _ := one_dvd _
  dvd_or_lt _ _ := .inl (one_dvd _)
  stripes_pos _ := by decide
  stripes_le := by decide
  redundancy_le := by decide
  stripe_le _ := by decide

/-- Its messages conform to it. -/
theorem arrivals_conform (secondFirst : Bool) :
    ∀ a ∈ arrivals secondFirst, a.Conforms twoAndOne := by
  have hfirst : twoAndOne.Sends (.data 0 0 2 (twoAndOne.dataPayload 0 0)) :=
    .data 0 0 (by decide) (by decide)
  have hsecond : twoAndOne.Sends (.data 1 0 1 (twoAndOne.dataPayload 1 0)) :=
    .data 1 0 (by decide) (by decide)
  have hfec : twoAndOne.Sends (.fec 1 0 0 2 [.ofNat 0]) :=
    .fec 0 0 [.ofNat 0] (by decide) (by decide) fun _ =>
      Stream.zeros_isFecPayload (by decide) (by decide) (by decide) (by decide)
  intro a ha
  rcases List.mem_append.mp ha with ha | ha
  · obtain ⟨-, rfl⟩ := List.mem_replicate.mp ha
    trivial
  · refine conforms_schedule ?_ a ha
    cases secondFirst <;> simp [hfirst, hsecond, hfec]

/-- The receiver of the example starts in default mode. -/
theorem twoAndOne_init (hstart : startTwoAndOne = some s) :
    (system twoAndOne defaultMode).Init s :=
  ⟨_, _, _, _, ⟨by decide, by decide⟩, rfl, ⟨rfl, rfl⟩, hstart⟩

instance (s s' : State) : Decidable (SwitchesOnClean s s') :=
  inferInstanceAs (Decidable (_ → _ → _))

/-- A run that meets the condition: one slice waits for decoding and the next is done, both in the
queue. -/
theorem notStranded_of_switchesOnClean_two_slices : ∃ s,
    ((system twoAndOne defaultMode).restrict SwitchesOnClean).Reachable s ∧ s.useFec = true ∧
      (s.slices 0).state = .fec ∧ (s.slices 1).state = .done ∧ NotStranded s := by
  have hrun : (startTwoAndOne.bind fun s => System.perform
      (System.guarded act SwitchesOnClean) s (arrivals false)).any fun s =>
        s.failure = none ∧ s.useFec = true ∧ (s.slices 0).state = .fec ∧
          (s.slices 1).state = .done := by
    decide +kernel
  obtain ⟨s, hs, hlast⟩ := (Option.any_eq_true _ _).mp hrun
  obtain ⟨s₀, hstart, hperform⟩ := Option.bind_eq_some_iff.mp hs
  obtain ⟨hrunning, huse, hfec, hdone⟩ := of_decide_eq_true hlast
  have hreach : ((system twoAndOne defaultMode).restrict SwitchesOnClean).Reachable s :=
    ⟨s₀, twoAndOne_init hstart, System.restrict_run_of_perform_in (arrivals_conform false) hperform⟩
  exact ⟨s, hreach, huse, hfec, hdone, notStranded_of_switchesOnClean hreach hrunning⟩

/-- The second slice is complete when the first FEC block arrives: nobody frees its slot. -/
theorem not_notStranded : ¬ ∀ st : Stream, st.Valid → ∀ s, (system st defaultMode).Reachable s →
    s.failure = none → NotStranded s := by
  intro hclaim
  have hrun : (startTwoAndOne.bind fun s => System.perform act s (arrivals true)).any fun s =>
      s.failure = none ∧ s.useFec = true ∧ (s.slices 1).state = .done ∧
        pcGetWaiting s.fecDataPc = 1 ∧
        s.fecSlices (pcGetConsumerPosition s.fecDataPc % nrSlices) = 0 ∧
        s.fecThread = .loopTest ∧ s.tasks.length = 0 := by
    decide +kernel
  obtain ⟨s, hs, hlast⟩ := (Option.any_eq_true _ _).mp hrun
  obtain ⟨s₀, hstart, hperform⟩ := Option.bind_eq_some_iff.mp hs
  obtain ⟨hrunning, huse, hdone, hwaiting, hentry, hthread, htasks⟩ := of_decide_eq_true hlast
  have hreach : (system twoAndOne defaultMode).Reachable s :=
    ⟨s₀, twoAndOne_init hstart, System.run_of_perform_in (arrivals_conform true) hperform⟩
  rcases (hclaim _ twoAndOne_valid s hreach hrunning).onItsWay huse 1 (.inl hdone) with
    ⟨k, hk, hi⟩ | hpc | hmem
  · obtain rfl : k = 0 := by omega
    rw [Nat.add_zero, hentry] at hi
    cases hi
  · rw [hthread] at hpc
    cases hpc
  · rw [List.eq_nil_of_length_eq_zero htasks] at hmem
    cases hmem

end Runs

end Udpcast.Receiver
