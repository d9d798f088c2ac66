import Udpcast.Receiver.Effects

/-!
# Work on one slice

What the network thread does to a slice it has found never touches the other slots, the
queues of slots and blocks, or the place of the slice; and it leaves a list of tasks of
a few kinds.
-/

namespace Udpcast.Receiver

open Queue
open Protocol

/-- Work on the slice in slot `i`. -/
structure Works (i : ℕ) (s s' : State) : Prop where
  rest_eq : s'.rest = s.rest
  others : ∀ j, j ≠ i → s'.slices j = s.slices j
  sliceNo_eq : (s'.slices i).sliceNo = (s.slices i).sliceNo
  base_eq : (s'.slices i).base = (s.slices i).base
  state : (s'.slices i).state = (s.slices i).state ∨
    (s.slices i).state = .receiving ∧ s'.streaming = false ∧
      ((s'.slices i).state = .done ∨ (s'.slices i).state = .fec ∧ s'.useFec = true)
  fecThread : s'.useFec = s.useFec ∧ s'.fecThread = s.fecThread ∨
    s.useFec = false ∧ s'.useFec = true ∧ s'.fecThread = .loopTest
  streaming_eq : s'.streaming = s.streaming ∨
    (s.slices i).state = .receiving ∧ (s'.slices i).state.complete = true ∧ s'.streaming = false

/-- The tasks that work on a slice leaves behind. -/
def Task.Left (useFec : Bool) : Task → Prop
  | .advanceReceivedPointer | .handOver _ => True
  | .cleanup => useFec = false
  | _ => False

/-- Those among them that end the treatment of a message. -/
def Task.Trails (useFec : Bool) : Task → Prop
  | .advanceReceivedPointer => True
  | .cleanup => useFec = false
  | _ => False

/-- What `checkSliceComplete` does about the slice in slot `i`: nothing, or it completes it. -/
def Completes (i : ℕ) (s s' : State) : Prop :=
  s'.tasks = s.tasks ∧ (s'.slices i).state = (s.slices i).state ∨
    s'.tasks = .advanceReceivedPointer :: .handOver i :: s.tasks ∧
      (s.slices i).state = .receiving ∧ (s'.slices i).state.complete = true

/-- The tasks that the treatment of a message for slot `i` leaves behind, and whether it has
completed the slice. -/
inductive Leaves (i : ℕ) (s s' : State) : Prop
  | waits (htasks : s'.tasks = .setNextBlock i :: s.tasks)
    (hstate : (s'.slices i).state = (s.slices i).state)
  | unchanged {l} (htasks : s'.tasks = l ++ s.tasks) (hl : ∀ t ∈ l, t.Trails s'.useFec)
    (hstate : (s'.slices i).state = (s.slices i).state)
  | completed {l} (htasks : s'.tasks = .advanceReceivedPointer :: .handOver i :: (l ++ s.tasks))
    (hl : ∀ t ∈ l, t.Trails s'.useFec) (hstate : (s.slices i).state = .receiving)
    (hdone : (s'.slices i).state.complete = true)

variable {s s' s'' : State} {i b n bytes stripes rxmit : ℕ}

/-- To do nothing is work on any slice. -/
theorem Works.refl (i : ℕ) (s : State) : Works i s s :=
  ⟨rfl, fun _ _ => rfl, rfl, rfl, .inl rfl, .inl ⟨rfl, rfl⟩, .inl rfl⟩

/-- FEC that is in use stays in use. -/
theorem Works.useFec (h : Works i s s') (hfec : s.useFec = true) : s'.useFec = true := by
  rcases h.fecThread with ⟨heq, -⟩ | ⟨-, htrue, -⟩
  · rw [heq, hfec]
  · exact htrue

/-- Streaming is switched off, but never on. -/
theorem Works.streaming (h : Works i s s') (hon : s'.streaming = true) : s.streaming = true := by
  rcases h.streaming_eq with heq | ⟨-, -, hoff⟩
  · rw [← heq, hon]
  · rw [hoff] at hon
    cases hon

/-- A slice that is not completed leaves the mode alone. -/
theorem Works.streaming_same (h : Works i s s')
    (hstate : (s'.slices i).state = (s.slices i).state) : s'.streaming = s.streaming := by
  rcases h.streaming_eq with heq | ⟨hreceiving, hdone, -⟩
  · exact heq
  · rw [hstate, hreceiving] at hdone
    cases hdone

/-- A complete slice stays complete. -/
theorem Works.complete (h : Works i s s') (hdone : (s.slices i).state.complete = true) :
    (s'.slices i).state.complete = true := by
  rcases h.state with heq | ⟨hreceiving, -⟩
  · rw [heq, hdone]
  · rw [hreceiving] at hdone
    cases hdone

/-- Two pieces of work on the same slice. -/
theorem Works.trans (h : Works i s s') (h' : Works i s' s'') : Works i s s'' where
  rest_eq := h'.rest_eq.trans h.rest_eq
  others j hj := (h'.others j hj).trans (h.others j hj)
  sliceNo_eq := h'.sliceNo_eq.trans h.sliceNo_eq
  base_eq := h'.base_eq.trans h.base_eq
  state := by
    have hoff : s'.streaming = false → s''.streaming = false := fun hoff => by
      by_contra hon
      rw [h'.streaming (Bool.not_eq_false _ ▸ hon)] at hoff
      cases hoff
    rcases h.state with heq | ⟨hreceiving, hstreaming, hdone | ⟨hfec, huse⟩⟩
    · rcases h'.state with heq' | ⟨hreceiving, hlast⟩
      · exact .inl (heq'.trans heq)
      · exact .inr ⟨heq ▸ hreceiving, hlast⟩
    · rcases h'.state with heq' | ⟨hcontra, -⟩
      · exact .inr ⟨hreceiving, hoff hstreaming, .inl (heq'.trans hdone)⟩
      · rw [hdone] at hcontra
        cases hcontra
    · rcases h'.state with heq' | ⟨hcontra, -⟩
      · exact .inr ⟨hreceiving, hoff hstreaming, .inr ⟨heq'.trans hfec, h'.useFec huse⟩⟩
      · rw [hfec] at hcontra
        cases hcontra
  fecThread := by
    rcases h.fecThread with ⟨huse, hthread⟩ | ⟨hoff, hon, hthread⟩
    · rcases h'.fecThread with ⟨huse', hthread'⟩ | ⟨hoff', hon', hthread'⟩
      · exact .inl ⟨huse'.trans huse, hthread'.trans hthread⟩
      · exact .inr ⟨huse ▸ hoff', hon', hthread'⟩
    · rcases h'.fecThread with ⟨huse', hthread'⟩ | ⟨hoff', -, -⟩
      · exact .inr ⟨hoff, huse'.trans hon, hthread'.trans hthread⟩
      · rw [hon] at hoff'
        cases hoff'
  streaming_eq := by
    rcases h.streaming_eq with heq | ⟨hreceiving, hdone, hoff⟩
    · rcases h'.streaming_eq with heq' | ⟨hreceiving', hdone', hoff'⟩
      · exact .inl (heq'.trans heq)
      · rcases h.state with hsame | ⟨hreceiving, -⟩
        · exact .inr ⟨hsame ▸ hreceiving', hdone', hoff'⟩
        · exact .inr ⟨hreceiving, hdone', hoff'⟩
    · refine .inr ⟨hreceiving, h'.complete hdone, ?_⟩
      by_contra hon
      rw [h'.streaming (Bool.not_eq_false _ ▸ hon)] at hoff
      cases hoff

/-- The same, read from the last piece backwards. -/
theorem Works.after (h' : Works i s' s'') (h : Works i s s') : Works i s s'' := h.trans h'

/-- Work that changes one slot, and neither its place nor its state. -/
theorem Works.update {x : Slice} (hrest : s'.rest = s.rest)
    (hslices : s'.slices = Function.update s.slices i x)
    (hsliceNo : x.sliceNo = (s.slices i).sliceNo) (hbase : x.base = (s.slices i).base)
    (hstate : x.state = (s.slices i).state) (huse : s'.useFec = s.useFec)
    (hthread : s'.fecThread = s.fecThread) (hstreaming : s'.streaming = s.streaming) :
    Works i s s' where
  rest_eq := hrest
  others j hj := by rw [hslices, Function.update_of_ne hj]
  sliceNo_eq := by rw [hslices, Function.update_self, hsliceNo]
  base_eq := by rw [hslices, Function.update_self, hbase]
  state := .inl (by rw [hslices, Function.update_self, hstate])
  fecThread := .inl ⟨huse, hthread⟩
  streaming_eq := .inl hstreaming

/-- A step that leaves the slots, FEC and the rest of the state alone is work on any slice. -/
theorem Works.frame (hrest : s'.rest = s.rest) (hslices : s'.slices = s.slices)
    (huse : s'.useFec = s.useFec) (hthread : s'.fecThread = s.fecThread)
    (hstreaming : s'.streaming = s.streaming) : Works i s s' :=
  .update (x := s.slices i) hrest (by rw [Function.update_eq_self, hslices]) rfl rfl rfl
    huse hthread hstreaming

/-- The state of the slot that has just been set. -/
theorem state_update {slices : ℕ → Slice} {slice : Slice} {state : SliceState}
    (h : slice.state = state) : (Function.update slices i slice i).state = state := by
  rw [Function.update_self, h]

/-- What has been done before does not count, as long as it leaves the tasks and the state of the
slot alone. -/
theorem Completes.after (h : Completes i s' s'') (htasks : s'.tasks = s.tasks)
    (hstate : (s'.slices i).state = (s.slices i).state) : Completes i s s'' := by
  unfold Completes at h ⊢
  rwa [htasks, hstate] at h

/-- `setSliceBytes` notes the size of the slice, and does not complete it. -/
theorem setSliceBytes_works (h : setSliceBytes s i bytes = .ok s') :
    Works i s s' ∧ s'.tasks = s.tasks ∧ (s'.slices i).state = (s.slices i).state := by
  rcases setSliceBytes_ok h with ⟨-, -, rfl⟩ | ⟨-, rfl⟩
  · exact ⟨.refl _ _, rfl, rfl⟩
  · refine ⟨.update rfl rfl rfl rfl rfl rfl rfl rfl, rfl, ?_⟩
    exact state_update rfl

/-- `checkSliceComplete` completes the slice or does nothing. -/
theorem checkSliceComplete_works (h : checkSliceComplete s i = .ok s') :
    Works i s s' ∧ Completes i s s' := by
  rcases checkSliceComplete_ok h with ⟨-, rfl⟩ | ⟨hreceiving, -, state, hstate, rfl⟩
  · exact ⟨.refl _ _, .inl ⟨rfl, rfl⟩⟩
  · refine ⟨⟨rfl, fun j hj => Function.update_of_ne hj .., ?_, ?_,
      .inr ⟨hreceiving, rfl, ?_⟩, .inl ⟨rfl, rfl⟩, .inr ⟨hreceiving, ?_, rfl⟩⟩,
      .inr ⟨rfl, hreceiving, ?_⟩⟩
    · simp
    · simp
    · rcases hstate with ⟨rfl, -⟩ | ⟨rfl, huse, -⟩
      · simp
      · simp [huse]
    · rcases hstate with ⟨rfl, -⟩ | ⟨rfl, -, -⟩ <;> simp [SliceState.complete]
    · rcases hstate with ⟨rfl, -⟩ | ⟨rfl, -, -⟩ <;> simp [SliceState.complete]

/-- It does not bring FEC into use. -/
theorem checkSliceComplete_useFec (h : checkSliceComplete s i = .ok s') : s'.useFec = s.useFec := by
  rcases checkSliceComplete_ok h with ⟨-, rfl⟩ | ⟨-, -, -, -, rfl⟩ <;> rfl

/-- Copying a payload to its place changes the memory only. -/
theorem copyBlock_works (p : Place) :
    Works i s (s.copyBlock p) ∧ (s.copyBlock p).tasks = s.tasks ∧
      ((s.copyBlock p).slices i).state = (s.slices i).state := by
  obtain ⟨mem, blocks, heq⟩ := copyBlock_eq (s := s) p
  rw [heq]
  exact ⟨.frame rfl rfl rfl rfl rfl, rfl, rfl⟩

/-- The size that a data block of a new sender carries is noted, and nothing else is. -/
theorem noteBytes_works (h : noteBytes s i bytes = .ok s') :
    Works i s s' ∧ s'.tasks = s.tasks ∧ (s'.slices i).state = (s.slices i).state := by
  rcases noteBytes_ok h with hset | ⟨-, e, rfl⟩
  · exact setSliceBytes_works hset
  · exact ⟨.frame rfl rfl rfl rfl rfl, rfl, rfl⟩

/-- Counting an arrival leaves the number, the base and the state of the slice alone. -/
theorem countArrival_place {slice slice' : Slice} {l l' : List ℕ}
    (h : countArrival slice l b = .ok (slice', l')) :
    slice'.sliceNo = slice.sliceNo ∧ slice'.base = slice.base ∧ slice'.state = slice.state := by
  rcases countArrival_ok h with
    ⟨-, rfl, -⟩ | ⟨-, -, -, -, -, ⟨-, -, rfl⟩ | ⟨-, -, -, -, -, -, rfl⟩⟩ <;> exact ⟨rfl, rfl, rfl⟩

/-- Counting a data block may complete the slice. -/
theorem countData_works (h : countData s i b = .ok s') :
    Works i s s' ∧ Completes i s s' := by
  obtain ⟨slice, localBlocks, hcount, hcheck⟩ := countData_ok h
  obtain ⟨hsliceNo, hbase, hstate⟩ := countArrival_place hcount
  obtain ⟨hworks, hcompletes⟩ := checkSliceComplete_works hcheck
  exact ⟨hworks.after (.update rfl rfl hsliceNo hbase hstate rfl rfl rfl),
    hcompletes.after rfl (state_update hstate)⟩

/-- A data block is work on its slice, and may complete it. -/
theorem processDataBlock_works (h : processDataBlock s i n b bytes = .ok s') :
    Works i s s' ∧ Completes i s s' := by
  rcases processDataBlock_ok h with rfl | ⟨-, -, -, s₁, hnote, hcount⟩
  · exact ⟨.refl _ _, .inl ⟨rfl, rfl⟩⟩
  · obtain ⟨hcopy, hcopyTasks, hcopyState⟩ :=
      copyBlock_works (i := i) (s := s) (.ring (adr s (s.slices i) b))
    obtain ⟨hnote, hnoteTasks, hnoteState⟩ := noteBytes_works hnote
    obtain ⟨hcount, hcompletes⟩ := countData_works hcount
    exact ⟨(hcopy.trans hnote).trans hcount, hcompletes.after (hnoteTasks.trans hcopyTasks)
      (hnoteState.trans hcopyState)⟩

/-- The first FEC block of a slice brings FEC into use, and leaves the tasks and the state of the
slot alone. -/
theorem initSliceForFec_works (s : State) (i stripes : ℕ) :
    Works i s (initSliceForFec s i stripes) ∧ (initSliceForFec s i stripes).useFec = true ∧
      (initSliceForFec s i stripes).tasks = s.tasks ∧
      ((initSliceForFec s i stripes).slices i).state = (s.slices i).state := by
  unfold initSliceForFec
  cases huse : s.useFec with
  | true =>
    simp only [if_true]
    refine ⟨.update rfl rfl rfl rfl rfl rfl rfl rfl, huse, rfl, ?_⟩
    exact state_update rfl
  | false =>
    simp only [Bool.false_eq_true, if_false]
    refine ⟨⟨rfl, fun j hj => Function.update_of_ne hj .., ?_, ?_, .inl ?_,
      .inr ⟨huse, rfl, rfl⟩, .inl rfl⟩, rfl, rfl, ?_⟩ <;> simp [State.setSlice]

/-- The tasks at the end of the treatment of a message are among those that work leaves behind. -/
theorem Task.Trails.left {useFec : Bool} {t : Task} (h : t.Trails useFec) : t.Left useFec := by
  cases t <;> first | exact h | trivial

/-- What is left behind, whether the slice has been completed or not. -/
theorem Leaves.left (h : Leaves i s s') :
    ∃ l, s'.tasks = l ++ s.tasks ∧ (l = [.setNextBlock i] ∨ ∀ t ∈ l, t.Left s'.useFec) := by
  cases h with
  | waits htasks => exact ⟨[.setNextBlock i], htasks, .inl rfl⟩
  | unchanged htasks hl => exact ⟨_, htasks, .inr fun t ht => (hl t ht).left⟩
  | completed htasks hl =>
    refine ⟨_ :: _ :: _, htasks, .inr fun t ht => ?_⟩
    rcases List.mem_cons.mp ht with rfl | ht
    · trivial
    · rcases List.mem_cons.mp ht with rfl | ht
      · trivial
      · exact (hl t ht).left

/-- To do nothing leaves nothing behind. -/
theorem Leaves.refl (i : ℕ) (s : State) : Leaves i s s :=
  .unchanged (l := []) rfl (fun _ h => by cases h) rfl

/-- What has been done before does not count, as long as it leaves the tasks and the state of the
slot alone. -/
theorem Leaves.after (h : Leaves i s' s'') (htasks : s'.tasks = s.tasks)
    (hstate : (s'.slices i).state = (s.slices i).state) : Leaves i s s'' := by
  cases h with
  | waits h hsame => exact .waits (htasks ▸ h) (hsame.trans hstate)
  | unchanged h hl hsame => exact .unchanged (htasks ▸ h) hl (hsame.trans hstate)
  | completed h hl hreceiving hdone =>
    exact .completed (htasks ▸ h) hl (hstate ▸ hreceiving) hdone

/-- If the slice is checked after tasks have been entered, those tasks are left behind as well. -/
theorem leaves_of_check {t : State} {l : List Task} (hbefore : t.tasks = l ++ s.tasks)
    (hstate : (t.slices i).state = (s.slices i).state) (hl : ∀ x ∈ l, x.Trails s'.useFec)
    (h : Completes i t s') : Leaves i s s' := by
  rcases h with ⟨htasks, hsame⟩ | ⟨htasks, hreceiving, hdone⟩
  · exact .unchanged (htasks.trans hbefore) hl (hsame.trans hstate)
  · refine .completed (l := l) ?_ hl (hstate ▸ hreceiving) hdone
    rw [htasks, hbefore]

/-- A check alone leaves its own tasks behind, if it completes the slice. -/
theorem leaves_of_complete (h : Completes i s s') : Leaves i s s' :=
  leaves_of_check (l := []) rfl rfl (fun _ h => by cases h) h

/-- To advance the pointer and clean up is what ends the treatment of a message. -/
theorem trails_advanceAndCleanup {useFec : Bool} (h : s.useFec = useFec) :
    ∀ x ∈ Task.advanceReceivedPointer :: cleanupWithoutFec s, x.Trails useFec := by
  intro x hx
  rcases List.mem_cons.mp hx with rfl | hx
  · trivial
  · unfold cleanupWithoutFec at hx
    split at hx
    · cases hx
    · rename_i huse
      obtain rfl := List.mem_singleton.mp hx
      rw [Bool.not_eq_true, h] at huse
      exact huse

/-- Counting a FEC block may complete the slice, or leaves the task of finding the next block
behind. -/
theorem countFec_works (h : countFec s i stripes b = .ok s') : Works i s s' ∧ Leaves i s s' := by
  rcases countFec_ok h with (⟨-, hcheck⟩ | rfl) | ⟨stripe, -, -, -, mem, blocks, -, rfl⟩
  · obtain ⟨hworks, hcompletes⟩ := checkSliceComplete_works hcheck
    have hall : Works i s s' := hworks.after (.frame rfl rfl rfl rfl rfl)
    refine ⟨hall, leaves_of_check rfl ?_ ?_ hcompletes⟩
    · rfl
    · intro x hx
      exact trails_advanceAndCleanup (checkSliceComplete_useFec hcheck).symm x hx
  · exact ⟨.refl _ _, .refl _ _⟩
  · refine ⟨.update rfl rfl rfl rfl rfl rfl rfl rfl, .waits rfl ?_⟩
    exact state_update rfl

/-- A FEC block is work on its slice. -/
theorem processFecBlock_works (h : processFecBlock s i stripes b bytes = .ok s') :
    Works i s s' ∧ Leaves i s s' := by
  rcases processFecBlock_ok h with
    rfl | ⟨-, s₁, hset, ⟨-, hcount⟩ | ⟨-, -, rfl⟩ | ⟨-, -, hcount⟩⟩
  · exact ⟨.refl _ _, .refl _ _⟩
  · obtain ⟨hset, hsetTasks, hsetState⟩ := setSliceBytes_works hset
    obtain ⟨hinit, -, hinitTasks, hinitState⟩ := initSliceForFec_works s₁ i stripes
    obtain ⟨hcount, hleaves⟩ := countFec_works hcount
    exact ⟨(hset.trans hinit).trans hcount,
      hleaves.after (hinitTasks.trans hsetTasks) (hinitState.trans hsetState)⟩
  · obtain ⟨hset, hsetTasks, hsetState⟩ := setSliceBytes_works hset
    exact ⟨hset, .unchanged (l := []) hsetTasks (fun _ h => by cases h) hsetState⟩
  · obtain ⟨hset, hsetTasks, hsetState⟩ := setSliceBytes_works hset
    obtain ⟨hcount, hleaves⟩ := countFec_works hcount
    exact ⟨hset.trans hcount, hleaves.after hsetTasks hsetState⟩

/-- So is a REQACK, if the slice has been found. -/
theorem processReqAck_works (h : processReqAck s n bytes rxmit = .ok s') (i : ℕ)
    (hfound : ∀ j, s.found = some j → j = i) : Works i s s' ∧ Leaves i s s' := by
  rcases processReqAck_ok h with ⟨-, rfl⟩ | ⟨-, -, rfl⟩ | ⟨-, j, s₁, hj, hset, hcheck⟩
  · exact ⟨.refl _ _, .refl _ _⟩
  · exact ⟨.frame rfl rfl rfl rfl rfl, .unchanged (l := []) rfl (fun _ h => by cases h) rfl⟩
  · obtain rfl := hfound j hj
    obtain ⟨hset, hsetTasks, hsetState⟩ := setSliceBytes_works hset
    obtain ⟨hworks, hcompletes⟩ := checkSliceComplete_works hcheck
    obtain ⟨msg, hanswer⟩ := answer_eq (s := s₁) (i := j) rxmit
    rw [hanswer] at hworks hcompletes hcheck
    have huse : s'.useFec = s₁.useFec := (checkSliceComplete_useFec hcheck :)
    have hleaves : Leaves j s₁ s' :=
      leaves_of_check (t := (s₁.send msg).enter (.advanceReceivedPointer :: cleanupWithoutFec s₁))
        rfl rfl (trails_advanceAndCleanup huse.symm) hcompletes
    exact ⟨hset.trans (hworks.after (.frame rfl rfl rfl rfl rfl)),
      hleaves.after hsetTasks hsetState⟩

/-- `fakeSliceComplete` completes the slice by force. -/
theorem completeByForce_works (h : completeByForce s i = .ok s') :
    Works i s s' ∧ Completes i s s' := by
  obtain ⟨-, s₁, hbytes, hcheck⟩ := completeByForce_ok h
  have hbefore : Works i s s₁ ∧ s₁.tasks = s.tasks ∧
      (s₁.slices i).state = (s.slices i).state := by
    rcases hbytes with ⟨-, rfl⟩ | ⟨-, hset⟩
    · exact ⟨.refl _ _, rfl, rfl⟩
    · exact setSliceBytes_works hset
  obtain ⟨hbefore, hbeforeTasks, hbeforeState⟩ := hbefore
  obtain ⟨hworks, hcompletes⟩ := checkSliceComplete_works hcheck
  refine ⟨hbefore.trans (hworks.after (.update rfl rfl rfl rfl rfl rfl rfl rfl)),
    hcompletes.after hbeforeTasks ?_⟩
  exact state_update hbeforeState

/-- Noting the size does not bring FEC into use. -/
theorem setSliceBytes_useFec (h : setSliceBytes s i bytes = .ok s') : s'.useFec = s.useFec := by
  rcases setSliceBytes_ok h with ⟨-, -, rfl⟩ | ⟨-, rfl⟩ <;> rfl

/-- Nor does completing a slice by force. -/
theorem completeByForce_useFec (h : completeByForce s i = .ok s') : s'.useFec = s.useFec := by
  obtain ⟨-, s₁, hbytes, hcheck⟩ := completeByForce_ok h
  have hlast : s'.useFec = s₁.useFec := (checkSliceComplete_useFec hcheck :)
  rcases hbytes with ⟨-, rfl⟩ | ⟨-, hset⟩
  · exact hlast
  · exact hlast.trans (setSliceBytes_useFec hset)

/-- Nor does the end of `processFecBlock`. -/
theorem finishFecBlock_useFec (h : finishFecBlock s i = .ok s') : s'.useFec = s.useFec :=
  (checkSliceComplete_useFec h :)

/-- The end of `processFecBlock` is work on the slice of the block. -/
theorem finishFecBlock_works (h : finishFecBlock s i = .ok s') :
    Works i s s' ∧ Leaves i s s' := by
  obtain ⟨hworks, hcompletes⟩ := checkSliceComplete_works h
  refine ⟨hworks.after (.update rfl rfl rfl rfl rfl rfl rfl rfl),
    leaves_of_check (l := [.advanceReceivedPointer]) rfl ?_ ?_ hcompletes⟩
  · exact state_update rfl
  · intro x hx
    obtain rfl := List.mem_singleton.mp hx
    trivial

/-- The treatment of a message, once `findSlice` has found its slice. -/
theorem process_works {msg : ServerMsg} (h : process s msg = .ok s') (i : ℕ)
    (hfound : ∀ j, s.found = some j → j = i) : Works i s s' ∧ Leaves i s s' := by
  unfold process at h
  split at h
  · split at h
    · rename_i j hj
      obtain rfl := hfound j hj
      obtain ⟨hworks, hcompletes⟩ := processDataBlock_works h
      exact ⟨hworks, leaves_of_complete hcompletes⟩
    · obtain rfl := Except.ok.inj h
      exact ⟨.refl _ _, .refl _ _⟩
  · split at h
    · rename_i j hj
      obtain rfl := hfound j hj
      exact processFecBlock_works h
    · obtain rfl := Except.ok.inj h
      exact ⟨.refl _ _, .refl _ _⟩
  · exact processReqAck_works h i hfound
  · obtain rfl := Except.ok.inj h
    exact ⟨.refl _ _, .refl _ _⟩

/-- The same for whatever slice `findSlice` has found. -/
theorem process_works_found {msg : ServerMsg} (h : process s msg = .ok s') :
    ∃ i, (∀ j, s.found = some j → j = i) ∧ Works i s s' ∧ Leaves i s s' := by
  obtain ⟨i, hi⟩ : ∃ i, ∀ j, s.found = some j → j = i := by
    cases hfound : s.found with
    | none => exact ⟨0, fun _ hj => by cases hj⟩
    | some i => exact ⟨i, fun _ hj => (Option.some.inj hj).symm⟩
  exact ⟨i, hi, process_works h i hi⟩

end Udpcast.Receiver
