import Udpcast.Receiver.Handover

/-!
# The pointer of received slices

`receivedPtr` is the slot of the slice that follows `receivedSliceNo`, unless a slice has
been completed since `advanceReceivedPointer` was last called. Slices are faked only
when nothing is left to be done about finished ones.
-/

namespace Udpcast.Receiver

open Queue
open Protocol

/-- The task belongs to the end of the treatment of a message. -/
def Task.closes : Task → Bool
  | .setNextBlock _ | .takeBlock _ | .advanceReceivedPointer | .advance _ | .handOver _ | .cleanup
  | .freeSlot _ _ => true
  | _ => false

/-- The task belongs to `advanceReceivedPointer`. -/
def Task.advances : Task → Bool
  | .advanceReceivedPointer | .advance _ => true
  | _ => false

/-- The task can occur before the first slice of a streaming receiver is complete. -/
def Task.joins : Task → Bool
  | .handOver _ | .advance _ | .fakeSliceComplete | .fakeFound => false
  | _ => true

/-- Slot `p` is the one of the slice after `receivedSliceNo`. -/
def Linked (s : State) (p : ℕ) : Prop :=
  ∃ k ≤ s.started, p = k % nrSlices ∧
    s.receivedSliceNo + 1 = s.currentSliceNo + 1 - s.started + k

/-- What waits below the current task. -/
structure Stacked (s : State) : Prop where
  order : s.tasks.Pairwise fun t t' => t'.closes = true → t.closes = true
  numbers : ∀ t ∈ s.tasks, ∀ n, t.finds = some n → 0 ≤ n
  depth : .fakeFound ∉ s.tasks.tail.tail
  finder : ∀ t rest, s.tasks = t :: .fakeFound :: rest →
    t.finds = some (s.receivedSliceNo + 1) ∧ ∀ n, t = .catchUp n → n = s.currentSliceNo + 1
  faked : ∀ rest, s.tasks = .fakeFound :: rest → ∀ i, s.found = some i →
    (s.slices i).sliceNo = s.receivedSliceNo + 1

/-- Where the pointer of received slices is. -/
structure Pointer (s : State) : Prop where
  first : 0 < s.started → (s.started : ℤ) ≤ s.currentSliceNo + 1
  opening : s.streaming = false → s.started = 0 → s.currentSliceNo = -1 ∧ ∃ t, s.tasks = [t] ∧
    (t = .newSlice 0 ∨ t = .takeSlot 0 ∨ ∃ i, t = .reserve i 0)
  joining : s.streaming = true → s.receivedSliceNo = -1 ∧ s.receivedPtr = 0 ∧
    ∀ t ∈ s.tasks, t.joins = true
  linked : s.streaming = false → (∀ t rest, s.tasks = t :: rest → t.advances = false) →
    Linked s s.receivedPtr
  entering : s.streaming = false → ∀ rest, s.tasks = .advanceReceivedPointer :: rest →
    Linked s s.receivedPtr ∨
      s.receivedPtr = 0 ∧ (s.slices 0).state.waits = true ∧ .handOver 0 ∈ rest
  advancing : ∀ pos rest, s.tasks = .advance pos :: rest → s.streaming = false ∧ Linked s pos
  settled : (∀ t ∈ s.tasks, t.advances = false) →
    (s.slices s.receivedPtr).state.complete = false

variable {s s' : State} {t x : Task} {l rest : List Task} {i p : ℕ} {n : ℤ}

/-- A task at the end of the treatment of a message looks for no slice. -/
theorem finds_of_closes (h : t.closes = true) : t.finds = none := by
  cases t <;> simp_all [Task.closes, Task.finds]

/-- A slice that waits for the FEC thread is complete. -/
theorem SliceState.complete_of_waits {state : SliceState} (h : state.waits = true) :
    state.complete = true := by
  cases state <;> first | exact h | rfl

/-- The place of the next slice stays the same while slices are started. -/
theorem Linked.mono (h : Linked s p) (hrsn : s'.receivedSliceNo = s.receivedSliceNo)
    (hstarted : s.started ≤ s'.started)
    (hcsn : s'.currentSliceNo - s'.started = s.currentSliceNo - s.started) : Linked s' p := by
  obtain ⟨k, hk, hp, hno⟩ := h
  exact ⟨k, hk.trans hstarted, hp, by omega⟩

/-- The slice of a slot that is not free. -/
theorem Slots.inUse (h : Slots s) (hbeyond : ∀ i, nrSlices ≤ i → (s.slices i).state = .free)
    (hstate : (s.slices i).state ≠ .free) : ∃ k, s.freed ≤ k ∧ k < s.started ∧ i = k % nrSlices ∧
      (s.slices i).sliceNo = s.currentSliceNo - (s.started - 1 - k : ℕ) := by
  have hlt : i < nrSlices := by
    by_contra hge
    exact hstate (hbeyond i (not_lt.mp hge))
  have hfreed := h.freed_le
  have hallocated := h.allocated_le
  have hstarted := h.started_le
  obtain ⟨k, hk, hklt, hi⟩ : ∃ k, s.freed ≤ k ∧ k < s.freed + nrSlices ∧ i = k % nrSlices := by
    refine ⟨s.freed + (i + nrSlices - s.freed % nrSlices) % nrSlices, Nat.le_add_right .., ?_, ?_⟩
    · exact Nat.add_lt_add_left (Nat.mod_lt _ (by decide)) _
    · simp only [nrSlices] at hlt ⊢
      omega
  have hk' : k < s.started := by
    by_contra hge
    apply hstate
    rw [hi]
    exact h.free k (not_lt.mp hge) hklt
  refine ⟨k, hk, hk', hi, ?_⟩
  rw [hi]
  exact h.sliceNo k hk' (by omega)

/-- The slots are passed in the order of the slices. -/
theorem nextSlot_mod (k : ℕ) : nextSlot (k % nrSlices) = (k + 1) % nrSlices := by
  exact add_mod_wrap (by decide) (by decide)

/-- Tasks of which none closes the treatment of a message may come in any order. -/
theorem order_of_open (h : ∀ y ∈ l, y.closes = false) :
    l.Pairwise fun t t' => t'.closes = true → t.closes = true :=
  List.pairwise_of_forall_mem_list fun _ _ z hz hcloses => by
    rw [h z hz] at hcloses
    cases hcloses

section Stacked

variable (h : Stacked s) (ht : s.tasks = t :: rest)
include h ht

/-- Behind a task that looks for nothing, no slice waits to be completed by force. -/
theorem Stacked.noFake (hfinds : t.finds = none) : .fakeFound ∉ rest := by
  intro hmem
  cases rest with
  | nil => cases hmem
  | cons y rest =>
    rcases List.mem_cons.mp hmem with rfl | hmem
    · have hfinder := (h.finder t rest ht).1
      rw [hfinds] at hfinder
      cases hfinder
    · have hdepth := h.depth
      rw [ht] at hdepth
      exact hdepth hmem

/-- The order of the tasks that wait. -/
theorem Stacked.rest_order : rest.Pairwise fun t t' => t'.closes = true → t.closes = true := by
  have horder := h.order
  rw [ht] at horder
  exact (List.pairwise_cons.mp horder).2

/-- Below a task that looks for a slice nothing is left to be done about finished slices. -/
theorem Stacked.rest_open (hopen : t.closes = false) : ∀ y ∈ rest, y.closes = false := by
  intro y hy
  have horder := h.order
  rw [ht] at horder
  have himp := (List.pairwise_cons.mp horder).1 y hy
  rw [hopen] at himp
  by_contra hcloses
  exact absurd (himp (Bool.not_eq_false _ ▸ hcloses)) (by simp)

/-- The current task ends with what there is to do about finished slices. -/
theorem Stacked.close (htasks : s'.tasks = l ++ rest) (hl : ∀ y ∈ l, y.closes = true)
    (hfinds : t.finds = none) : Stacked s' := by
  have hfake : .fakeFound ∉ l ++ rest := by
    intro hmem
    rcases List.mem_append.mp hmem with hmem | hmem
    · cases hl _ hmem
    · exact h.noFake ht hfinds hmem
  refine ⟨?_, ?_, ?_, ?_, ?_⟩
  · rw [htasks]
    refine List.pairwise_append.mpr ⟨?_, h.rest_order ht, fun y hy _ _ _ => hl y hy⟩
    exact List.pairwise_of_forall_mem_list fun y hy _ _ _ => hl y hy
  · intro y hy m hm
    rw [htasks] at hy
    rcases List.mem_append.mp hy with hy | hy
    · rw [finds_of_closes (hl y hy)] at hm
      cases hm
    · exact h.numbers y (ht ▸ List.mem_cons_of_mem _ hy) m hm
  · rw [htasks]
    exact fun hmem => hfake (List.mem_of_mem_tail (List.mem_of_mem_tail hmem))
  · intro y tl hy
    rw [htasks] at hy
    exact absurd (hy ▸ List.mem_cons_of_mem _ List.mem_cons_self) hfake
  · intro tl hy
    rw [htasks] at hy
    exact absurd (hy ▸ List.mem_cons_self) hfake

/-- The current task goes on as another one that looks for the same slice. -/
theorem Stacked.replace (htasks : s'.tasks = x :: rest) (hfinds : x.finds = t.finds)
    (hx : x.finds ≠ none) (hopen : t.closes = false) (hcatchUp : ∀ m, x = .catchUp m →
      m = s.receivedSliceNo + 1 → m = s'.currentSliceNo + 1)
    (hrsn : s'.receivedSliceNo = s.receivedSliceNo) : Stacked s' := by
  refine ⟨?_, ?_, ?_, ?_, ?_⟩
  · rw [htasks]
    refine List.pairwise_cons.mpr ⟨fun y hy hcloses => ?_, h.rest_order ht⟩
    rw [h.rest_open ht hopen y hy] at hcloses
    cases hcloses
  · intro y hy m hm
    rw [htasks] at hy
    rcases List.mem_cons.mp hy with rfl | hy
    · exact h.numbers t (ht ▸ List.mem_cons_self) m (hfinds ▸ hm)
    · exact h.numbers y (ht ▸ List.mem_cons_of_mem _ hy) m hm
  · have hdepth := h.depth
    rw [ht] at hdepth
    rw [htasks]
    exact hdepth
  · intro y tl hy
    rw [htasks] at hy
    obtain ⟨rfl, rfl⟩ := List.cons.inj hy
    obtain ⟨hfinder, -⟩ := h.finder t tl ht
    rw [hrsn]
    refine ⟨hfinds.trans hfinder, fun m hm => hcatchUp m hm ?_⟩
    rw [hm] at hfinds
    exact Option.some.inj (hfinds.trans hfinder)
  · intro tl hy
    rw [htasks] at hy
    rw [(List.cons.inj hy).1] at hx
    exact absurd rfl hx

/-- The current task has found its slice. -/
theorem Stacked.found (htasks : s'.tasks = rest) (hrsn : s'.receivedSliceNo = s.receivedSliceNo)
    (hfound : ∀ m i, t.finds = some m → s'.found = some i → (s'.slices i).sliceNo = m) :
    Stacked s' := by
  have hdepth := h.depth
  rw [ht] at hdepth
  refine ⟨htasks ▸ h.rest_order ht, ?_, ?_, ?_, ?_⟩
  · intro y hy m hm
    rw [htasks] at hy
    exact h.numbers y (ht ▸ List.mem_cons_of_mem _ hy) m hm
  · rw [htasks]
    exact fun hmem => hdepth (List.mem_of_mem_tail hmem)
  · intro y tl hy
    rw [htasks] at hy
    rw [hy] at hdepth
    exact absurd List.mem_cons_self hdepth
  · intro tl hy j hj
    rw [htasks] at hy
    rw [hy] at ht
    rw [hrsn]
    exact hfound _ j (h.finder t tl ht).1 hj

end Stacked

/-- Work on a slice leaves tasks at the end of the treatment of a message. -/
theorem Leaves.closes {s₀ : State} (h : Leaves i s₀ s') (htasks : s₀.tasks = rest) :
    ∃ l, s'.tasks = l ++ rest ∧ ∀ y ∈ l, y.closes = true := by
  obtain ⟨l, heq, hcase⟩ := h.left
  refine ⟨l, htasks ▸ heq, fun y hy => ?_⟩
  rcases hcase with rfl | hl
  · obtain rfl := List.mem_singleton.mp hy
    rfl
  · have hleft := hl y hy
    cases y <;> first | exact hleft.elim | rfl

section Net

/-- The number of the last slice received is not behind the start and not ahead of the slices. -/
theorem Pointer.bounds (h : Pointer s) (hoff : s.streaming = false)
    (hadvances : ∀ t rest, s.tasks = t :: rest → t.advances = false) :
    -1 ≤ s.receivedSliceNo ∧ s.receivedSliceNo ≤ s.currentSliceNo := by
  obtain ⟨k, hk, -, hno⟩ := h.linked hoff hadvances
  have hfirst : (s.started : ℤ) ≤ s.currentSliceNo + 1 := by
    rcases Nat.eq_zero_or_pos s.started with hzero | hpos
    · obtain ⟨hcsn, -⟩ := h.opening hoff hzero
      omega
    · exact h.first hpos
  omega

variable (h : Window s) (hs : Stacked s) (hp : Pointer s) (ht : s.tasks = t :: rest)
include h hs hp ht

omit hs hp in
/-- Slices are faked and given up in the normal mode only. -/
theorem Window.notStreaming_of_catchUp (htask : t = .catchUp n) : s.streaming = false := by
  by_contra hon
  exact h.stack.catchUp (Bool.not_eq_false _ ▸ hon) n (ht ▸ htask ▸ List.mem_cons_self)

/-- The loop of `findSlice` looks for the slice after the last one received. -/
theorem Stacked.behind {y : Task} (htask : t = .catchUp n)
    (hbehind : s.receivedSliceNo + 2 < n ∨ n ≠ s.currentSliceNo + 1)
    (hy : y = .fakeSliceComplete ∨ y = .dropped)
    (htasks : s'.tasks = .findSlice (s.receivedSliceNo + 1) :: y :: .catchUp n :: rest) :
    Stacked s' := by
  have hoff := h.notStreaming_of_catchUp ht htask
  have hbounds := hp.bounds hoff fun t' rest' ht' => by
    rw [ht, htask] at ht'
    obtain ⟨rfl, -⟩ := List.cons.inj ht'
    rfl
  have hdepth := hs.depth
  rw [ht] at hdepth
  have hfake : .fakeFound ∉ rest := by
    intro hmem
    cases rest with
    | nil => cases hmem
    | cons z tl =>
      rcases List.mem_cons.mp hmem with rfl | hmem
      · obtain ⟨hfinds, hnext⟩ := hs.finder t tl ht
        have hn := hnext n htask
        rw [htask] at hfinds
        have := Option.some.inj hfinds
        omega
      · exact hdepth hmem
  have hopen := hs.rest_open ht (htask ▸ rfl)
  have hyopen : y.closes = false ∧ y.finds = none ∧ y ≠ .fakeFound := by
    rcases hy with rfl | rfl <;> exact ⟨rfl, rfl, by simp⟩
  refine ⟨?_, ?_, ?_, ?_, ?_⟩
  · rw [htasks]
    refine order_of_open fun z hz => ?_
    simp only [List.mem_cons] at hz
    rcases hz with rfl | rfl | rfl | hz
    · rfl
    · exact hyopen.1
    · rfl
    · exact hopen z hz
  · intro z hz m hm
    rw [htasks] at hz
    rcases List.mem_cons.mp hz with rfl | hz
    · obtain rfl := Option.some.inj hm
      omega
    · rcases List.mem_cons.mp hz with rfl | hz
      · rw [hyopen.2.1] at hm
        cases hm
      · refine hs.numbers z ?_ m hm
        rw [ht, htask]
        exact hz
  · rw [htasks]
    intro hmem
    rcases List.mem_cons.mp hmem with hmem | hmem
    · cases hmem
    · exact hfake hmem
  · intro z tl hz
    rw [htasks] at hz
    obtain ⟨-, hz⟩ := List.cons.inj hz
    exact absurd (List.cons.inj hz).1 hyopen.2.2
  · intro tl hz
    rw [htasks] at hz
    cases (List.cons.inj hz).1

omit h in
/-- A slice is to be faked. -/
theorem Stacked.fake (htask : t = .fakeSliceComplete) (hoff : s.streaming = false)
    (hrsn : s'.receivedSliceNo = s.receivedSliceNo)
    (htasks : s'.tasks = .findSlice (s.receivedSliceNo + 1) :: .fakeFound :: rest) :
    Stacked s' := by
  have hbounds := hp.bounds hoff fun t' rest' ht' => by
    rw [ht, htask] at ht'
    obtain ⟨rfl, -⟩ := List.cons.inj ht'
    rfl
  have hfake := hs.noFake ht (htask ▸ rfl)
  have hopen := hs.rest_open ht (htask ▸ rfl)
  refine ⟨?_, ?_, ?_, ?_, ?_⟩
  · rw [htasks]
    refine order_of_open fun z hz => ?_
    simp only [List.mem_cons] at hz
    rcases hz with rfl | rfl | hz
    · rfl
    · rfl
    · exact hopen z hz
  · intro z hz m hm
    rw [htasks] at hz
    rcases List.mem_cons.mp hz with rfl | hz
    · obtain rfl := Option.some.inj hm
      omega
    · rcases List.mem_cons.mp hz with rfl | hz
      · cases hm
      · exact hs.numbers z (ht ▸ List.mem_cons_of_mem _ hz) m hm
  · rw [htasks]
    exact hfake
  · intro z tl hz
    rw [htasks] at hz
    obtain ⟨rfl, -⟩ := List.cons.inj hz
    rw [hrsn]
    exact ⟨rfl, fun m hm => by cases hm⟩
  · intro tl hz
    rw [htasks] at hz
    cases (List.cons.inj hz).1

/-- A step of the network thread keeps the order of its tasks. -/
theorem Stacked.netMoves (hm : NetMoves s t rest s') : Stacked s' := by
  have hworks : ∀ {s₀ i}, t.finds = none → Leaves i s₀ s' → s₀.tasks = rest → Stacked s' := by
    intro s₀ i hfinds hleaves htasks
    obtain ⟨l, heq, hl⟩ := hleaves.closes htasks
    exact hs.close ht heq hl hfinds
  cases hm with
  | join | lookBack | scanOn | caughtUp | newSlice | takeSlot =>
    exact hs.replace ht rfl rfl (by simp [Task.finds]) rfl (by simp) rfl
  | restart hcurrent hlt hstreaming hinit | reserve hmem hinit =>
    obtain ⟨-, -, -, guess, -, rfl⟩ := initSlice_ok hinit
    refine hs.found ht rfl rfl fun m j hm hj => ?_
    obtain rfl := Option.some.inj hm
    obtain rfl := Option.some.inj hj
    simp [Slice.start]
  | @lookAhead n c rest hcurrent hlt hstreaming =>
    refine hs.replace ht rfl rfl (by simp [Task.finds]) rfl (fun m hm hnext => ?_) rfl
    obtain rfl := Task.catchUp.inj hm
    have hbounds := hp.bounds hstreaming fun t' rest' ht' => by
      rw [ht] at ht'
      obtain ⟨rfl, -⟩ := List.cons.inj ht'
      rfl
    dsimp only
    omega
  | scanFound hno =>
    refine hs.found ht rfl rfl fun m j hm hj => ?_
    obtain rfl := Option.some.inj hm
    obtain rfl := Option.some.inj hj
    exact hno
  | scanFree => exact hs.found ht rfl rfl fun m j _ hj => by cases hj
  | behind hbehind => exact hs.behind h hp ht rfl hbehind (.inl rfl) rfl
  | lost hbehind => exact hs.behind h hp ht rfl hbehind (.inr rfl) rfl
  | fake =>
    refine hs.fake hp ht rfl ?_ rfl rfl
    by_contra hon
    have hjoins := (hp.joining (Bool.not_eq_false _ ▸ hon)).2.2 _ (ht ▸ List.mem_cons_self)
    cases hjoins
  | force hfound hforce =>
    obtain ⟨-, hcompletes⟩ := completeByForce_works hforce
    exact hworks rfl (leaves_of_complete hcompletes) rfl
  | process hprocess =>
    obtain ⟨j, -, -, hleaves⟩ := process_works_found hprocess
    exact hworks rfl hleaves rfl
  | reuse hlocal hfinish => exact hworks rfl (finishFecBlock_works hfinish).2 rfl
  | waitForBlock => exact hs.close ht (l := [.takeBlock _]) rfl (by simp [Task.closes]) rfl
  | takeBlock hfinish => exact hworks rfl (finishFecBlock_works hfinish).2 rfl
  | advanceFirst hadvance | advance hadvance =>
    subst hadvance
    unfold Receiver.advance
    split
    · exact hs.close ht (l := [.advance _]) rfl (by simp [Task.closes]) rfl
    · exact hs.close ht (l := []) rfl (by simp) rfl
  | enqueue => exact hs.close ht (l := []) rfl (by simp) rfl
  | toCleanup | freeSlot =>
    exact hs.close ht (l := [.cleanup]) rfl (by simp [Task.closes]) rfl
  | cleaned => exact hs.close ht (l := []) rfl (by simp) rfl
  | release => exact hs.close ht (l := [.freeSlot _ _]) rfl (by simp [Task.closes]) rfl

omit hs in
/-- The pointer stays where it is when the current task does not move it. -/
theorem Pointer.goOn (hadvances : t.advances = false) (htasks : s'.tasks = l ++ rest)
    (hl : ∀ y ∈ l, ∀ pos, y ≠ .advance pos)
    (hjoins : s'.streaming = true → ∀ y ∈ l, y.joins = true)
    (hsame : s'.streaming = s.streaming ∧ s'.receivedPtr = s.receivedPtr ∧
      s'.receivedSliceNo = s.receivedSliceNo)
    (hstarted : s.started ≤ s'.started)
    (hcsn : s.streaming = false →
      s'.currentSliceNo - s'.started = s.currentSliceNo - s.started)
    (hfirst : 0 < s'.started → (s'.started : ℤ) ≤ s'.currentSliceNo + 1)
    (hopening : s'.streaming = false → s'.started = 0 → s'.currentSliceNo = -1 ∧
      ∃ t, s'.tasks = [t] ∧ (t = .newSlice 0 ∨ t = .takeSlot 0 ∨ ∃ i, t = .reserve i 0))
    (hcomplete : (s'.slices s.receivedPtr).state.complete = true →
      (s.slices s.receivedPtr).state.complete = true) : Pointer s' := by
  obtain ⟨hstreaming, hptr, hrsn⟩ := hsame
  have hhead : ∀ t' rest', s.tasks = t' :: rest' → t'.advances = false := by
    intro t' rest' ht'
    rw [ht] at ht'
    exact (List.cons.inj ht').1 ▸ hadvances
  have hlinked : s.streaming = false → Linked s' s.receivedPtr := fun hoff =>
    (hp.linked hoff hhead).mono hrsn hstarted (hcsn hoff)
  refine ⟨hfirst, hopening, fun hon => ?_, fun hoff _ => ?_, fun hoff tl _ => ?_, ?_, fun hall => ?_⟩
  · obtain ⟨hrsn', hptr', hall⟩ := hp.joining (hstreaming ▸ hon)
    refine ⟨hrsn.trans hrsn', hptr.trans hptr', fun y hy => ?_⟩
    rw [htasks] at hy
    rcases List.mem_append.mp hy with hy | hy
    · exact hjoins hon y hy
    · exact hall y (ht ▸ List.mem_cons_of_mem _ hy)
  · rw [hptr]
    exact hlinked (hstreaming ▸ hoff)
  · rw [hptr]
    exact .inl (hlinked (hstreaming ▸ hoff))
  · intro pos tl hy
    rw [htasks] at hy
    cases l with
    | nil =>
      have hchain := h.stack.chain
      rw [ht, show rest = .advance pos :: tl from hy] at hchain
      exact (List.isChain_cons_cons.mp hchain).1.elim
    | cons y l =>
      exact absurd (List.cons.inj hy).1 (hl y List.mem_cons_self pos)
  · rw [hptr]
    by_contra hdone
    have hbefore := hcomplete (Bool.not_eq_false _ ▸ hdone)
    rw [hp.settled] at hbefore
    · cases hbefore
    · intro y hy
      rw [ht] at hy
      rcases List.mem_cons.mp hy with rfl | hy
      · exact hadvances
      · exact hall y (htasks ▸ List.mem_append_right _ hy)

omit h hs in
/-- Slices have been set up unless the first one is being set up. -/
theorem Pointer.started_pos (hoff : s.streaming = false)
    (hclosed : t ≠ .newSlice 0 ∧ t ≠ .takeSlot 0 ∧ ∀ j, t ≠ .reserve j 0) : 0 < s.started := by
  by_contra hzero
  obtain ⟨-, y, hy, hcase⟩ := hp.opening hoff (Nat.eq_zero_of_not_pos hzero)
  rw [ht] at hy
  obtain ⟨rfl, -⟩ := List.cons.inj hy
  rcases hcase with hcase | hcase | ⟨j, hcase⟩
  · exact hclosed.1 hcase
  · exact hclosed.2.1 hcase
  · exact hclosed.2.2 j hcase

omit hs in
/-- The current task works on a slice. -/
theorem Pointer.worked {s₀ : State} (hq : FecQueue s) (hadvances : t.advances = false)
    (hw : Works i s₀ s')
    (hleaves : Leaves i s₀ s') (hrest : s₀.receivedPtr = s.receivedPtr ∧
      s₀.receivedSliceNo = s.receivedSliceNo ∧ s₀.currentSliceNo = s.currentSliceNo ∧
      s₀.started = s.started)
    (hslices : s₀.slices = s.slices) (hstreaming : s₀.streaming = s.streaming)
    (htasks : s₀.tasks = rest) (hclosed : t ≠ .newSlice 0 ∧ t ≠ .takeSlot 0 ∧ ∀ j, t ≠ .reserve j 0) :
    Pointer s' := by
  obtain ⟨hptr₀, hrsn₀, hcsn₀, hstarted₀⟩ := hrest
  have hptr : s'.receivedPtr = s.receivedPtr := (congrArg Rest.receivedPtr hw.rest_eq).trans hptr₀
  have hrsn : s'.receivedSliceNo = s.receivedSliceNo :=
    (congrArg Rest.receivedSliceNo hw.rest_eq).trans hrsn₀
  have hcsn : s'.currentSliceNo = s.currentSliceNo :=
    (congrArg Rest.currentSliceNo hw.rest_eq).trans hcsn₀
  have hstarted : s'.started = s.started := (congrArg Rest.started hw.rest_eq).trans hstarted₀
  have hhead : ∀ t' rest', s.tasks = t' :: rest' → t'.advances = false := by
    intro t' rest' ht'
    rw [ht] at ht'
    exact (List.cons.inj ht').1 ▸ hadvances
  have hfirst : 0 < s'.started → (s'.started : ℤ) ≤ s'.currentSliceNo + 1 := by
    rw [hstarted, hcsn]
    exact hp.first
  have hnotOpening : s.streaming = false → s.started = 0 → False := fun hoff hzero =>
    (hp.started_pos ht hoff hclosed).ne' hzero
  have hkept : ∀ l, s'.tasks = l ++ rest → (∀ y ∈ l, (∀ pos, y ≠ .advance pos) ∧ y.joins = true) →
      (s'.slices i).state = (s₀.slices i).state → Pointer s' := by
    intro l heq hl hstate
    have hmode : s'.streaming = s.streaming := (hw.streaming_same hstate).trans hstreaming
    refine hp.goOn h ht hadvances heq (fun y hy => (hl y hy).1) (fun _ y hy => (hl y hy).2)
      ⟨hmode, hptr, hrsn⟩ hstarted.ge (fun _ => by rw [hcsn, hstarted]) hfirst
      (fun hoff hzero => (hnotOpening (hmode ▸ hoff) (hstarted ▸ hzero)).elim) fun hdone => ?_
    rcases eq_or_ne s.receivedPtr i with heq | hne
    · rw [heq] at hdone ⊢
      rwa [hstate, hslices] at hdone
    · rwa [hw.others _ hne, hslices] at hdone
  cases hleaves with
  | waits heq hstate =>
    rw [htasks] at heq
    exact hkept [.setNextBlock i] heq (by simp [Task.joins]) hstate
  | @unchanged l heq hl hstate =>
    rw [htasks] at heq
    refine hkept l heq (fun y hy => ?_) hstate
    have htrails := hl y hy
    cases y <;> first | exact htrails.elim | exact ⟨by simp, rfl⟩
  | @completed l heq hl hreceiving hdone =>
    have hoff : s'.streaming = false := by
      rcases hw.state with hsame | ⟨-, hoff, -⟩
      · rw [hsame, hreceiving] at hdone
        cases hdone
      · exact hoff
    have hpos : 0 < s.started ∧ (s.streaming = true → i = 0) := by
      obtain ⟨k, -, hk, hik, -⟩ := h.slots.inUse (i := i) hq.beyond (by rw [← hslices, hreceiving]; simp)
      refine ⟨by omega, fun hon => ?_⟩
      have hone := (h.slots.streaming hon).1
      have hle := h.slots.started_le
      obtain rfl : k = 0 := by omega
      exact hik
    refine ⟨hfirst, fun _ hzero => by omega, fun hon => ?_, fun _ hall => ?_, fun _ tl htl => ?_, ?_,
      fun hall => ?_⟩
    · rw [hoff] at hon
      cases hon
    · cases hall _ _ heq
    · rw [heq] at htl
      obtain ⟨-, rfl⟩ := List.cons.inj htl
      rw [hptr]
      cases hmode : s.streaming with
      | false => exact .inl ((hp.linked hmode hhead).mono hrsn hstarted.ge (by rw [hcsn, hstarted]))
      | true =>
        obtain rfl := hpos.2 hmode
        exact .inr ⟨(hp.joining hmode).2.1, hw.waits_completed hreceiving hdone,
          List.mem_cons_self⟩
    · intro pos tl htl
      rw [heq] at htl
      cases (List.cons.inj htl).1
    · have := hall .advanceReceivedPointer (heq ▸ List.mem_cons_self)
      cases this

omit hs in
/-- Only the tasks change. -/
theorem Pointer.retask (hadvances : t.advances = false) (htasks : s'.tasks = l ++ rest)
    (hl : ∀ y ∈ l, ∀ pos, y ≠ .advance pos)
    (hjoins : s.streaming = true → ∀ y ∈ l, y.joins = true)
    (hsame : s'.streaming = s.streaming ∧ s'.receivedPtr = s.receivedPtr ∧
      s'.receivedSliceNo = s.receivedSliceNo)
    (hslots : s'.started = s.started ∧ s'.currentSliceNo = s.currentSliceNo ∧
      (s'.slices s.receivedPtr).state = (s.slices s.receivedPtr).state)
    (hopening : s.streaming = false → s.started = 0 →
      ∃ t, s'.tasks = [t] ∧ (t = .newSlice 0 ∨ t = .takeSlot 0 ∨ ∃ i, t = .reserve i 0)) :
    Pointer s' := by
  obtain ⟨hstarted, hcsn, hstate⟩ := hslots
  refine hp.goOn h ht hadvances htasks hl (fun hon => hjoins (hsame.1 ▸ hon)) hsame hstarted.ge
    (fun _ => by rw [hstarted, hcsn]) (by rw [hstarted, hcsn]; exact hp.first) ?_ (by rw [hstate]; exact id)
  intro hoff hzero
  rw [hsame.1] at hoff
  rw [hstarted] at hzero
  exact ⟨hcsn.trans (hp.opening hoff hzero).1, hopening hoff hzero⟩

omit hs in
/-- A turn of the loop of `advanceReceivedPointer`. -/
theorem Pointer.turn (hbeyond : ∀ i, nrSlices ≤ i → (s.slices i).state = .free)
    (hclosed : t ≠ .newSlice 0 ∧ t ≠ .takeSlot 0 ∧ ∀ j, t ≠ .reserve j 0)
    (hlinked : s.streaming = false → Linked s p ∨ (s.slices p).state.complete = true)
    (hptr : s.streaming = true → p = s.receivedPtr)
    (hs' : s' = Receiver.advance (s.popped rest) p) : Pointer s' := by
  have hstarted : s.streaming = false → 0 < s.started := fun hoff => hp.started_pos ht hoff hclosed
  subst hs'
  unfold Receiver.advance
  split
  · rename_i hdone
    have hdone : (s.slices p).state.complete = true := hdone
    have hoff : s.streaming = false := by
      by_contra hon
      rcases (h.slots.streaming (Bool.not_eq_false _ ▸ hon)).2.2 p with hstate | hstate <;>
        rw [hstate] at hdone <;> cases hdone
    obtain ⟨k, -, hk, rfl, hno⟩ := h.slots.inUse hbeyond fun hfree => by
      rw [hfree] at hdone
      cases hdone
    refine ⟨hp.first, fun _ hzero => ((hstarted hoff).ne' hzero).elim, fun hon => ?_, fun _ hall => ?_,
      fun _ tl htl => ?_, fun pos tl htl => ⟨hoff, k + 1, hk, ?_, ?_⟩, fun hall => ?_⟩
    · exact absurd (hoff.symm.trans hon) (by simp)
    · cases hall _ _ rfl
    · cases (List.cons.inj htl).1
    · rw [← nextSlot_mod]
      exact (Task.advance.inj (List.cons.inj htl).1).symm
    · have hno : (s.slices (k % nrSlices)).sliceNo = s.currentSliceNo - (s.started - 1 - k : ℕ) := hno
      show (s.slices (k % nrSlices)).sliceNo + 1 = s.currentSliceNo + 1 - s.started + (k + 1 : ℕ)
      omega
    · cases hall _ List.mem_cons_self
  · rename_i hdone
    have hdone : (s.slices p).state.complete = false := Bool.not_eq_true _ ▸ hdone
    have hlinked : s.streaming = false → Linked s p := fun hoff =>
      (hlinked hoff).resolve_right (by rw [hdone]; simp)
    refine ⟨hp.first, fun hoff hzero => ((hstarted hoff).ne' hzero).elim, fun hon => ?_,
      fun hoff _ => hlinked hoff, fun hoff tl _ => .inl (hlinked hoff), fun pos tl htl => ?_,
      fun _ => hdone⟩
    · obtain ⟨hrsn, hzero, hall⟩ := hp.joining hon
      exact ⟨hrsn, (hptr hon).trans hzero, fun y hy => hall y (ht ▸ List.mem_cons_of_mem _ hy)⟩
    · have hchain := h.stack.chain
      rw [ht, show rest = .advance pos :: tl from htl] at hchain
      exact (List.isChain_cons_cons.mp hchain).1.elim

omit hs in
/-- A receiver that joins a stream is going to set up its first slice. -/
theorem Pointer.netJoin (htask : t = .findSlice n) (hcurrent : s.currentSlice = none) :
    Pointer { s with currentSliceNo := n - 1, tasks := .newSlice n :: rest } := by
  subst htask
  have hzero : s.started = 0 := by
    have hcur := h.slots.current
    rw [hcurrent] at hcur
    by_contra hne
    rw [if_neg hne] at hcur
    cases hcur
  have hon : s.streaming = true := by
    by_contra hoff
    exact (hp.started_pos ht (Bool.not_eq_true _ ▸ hoff) (by simp)).ne' hzero
  refine hp.goOn h ht rfl (l := [.newSlice n]) rfl (by simp) (by simp [Task.joins]) ⟨rfl, rfl, rfl⟩
    le_rfl (fun hoff => ?_) (fun hpos => ?_) (fun hoff => ?_) id
  · rw [hon] at hoff
    cases hoff
  · dsimp only at hpos
    omega
  · exact absurd (hon.symm.trans hoff) (by simp)

/-- A receiver that has joined sets its first slice up again, where the pointer is. -/
theorem Pointer.netRestart {s₁ : State} (htask : t = .findSlice n)
    (hcurrent : s.currentSlice = some 0) (hstreaming : s.streaming = true)
    (hinit : initSlice (s.popped rest) 0 n = .ok s₁) : Pointer { s₁ with found := some 0 } := by
  subst htask
  have hnumber : 0 ≤ n := hs.numbers (.findSlice n) (ht ▸ List.mem_cons_self) n rfl
  obtain ⟨-, hone⟩ := (h.slots.popped rest).restart hcurrent hstreaming hinit
  have hone : s.started = 1 := hone
  have hptr := (hp.joining hstreaming).2.1
  obtain ⟨-, -, -, guess, -, rfl⟩ := initSlice_ok hinit
  refine hp.goOn h ht rfl (l := []) rfl (by simp) (by simp) ⟨rfl, rfl, rfl⟩ le_rfl (fun hoff => ?_)
    (fun _ => ?_) (fun hoff => ?_) fun hdone => ?_
  · rw [hstreaming] at hoff
    cases hoff
  · show (s.started : ℤ) ≤ n + 1
    omega
  · exact absurd (hstreaming.symm.trans hoff) (by simp)
  · dsimp only at hdone
    rw [hptr, Function.update_self] at hdone
    cases hdone

omit h hs in
/-- Before the first slice there is no other task than to open it. -/
theorem Pointer.opens (hoff : s.streaming = false) (hzero : s.started = 0)
    (hopens : t = .newSlice n ∨ t = .takeSlot n) : rest = [] ∧ n = 0 := by
  obtain ⟨-, y, hy, hcase⟩ := hp.opening hoff hzero
  rw [ht] at hy
  obtain ⟨rfl, hrest⟩ := List.cons.inj hy
  refine ⟨hrest, ?_⟩
  rcases hopens with rfl | rfl
  · simpa using hcase
  · simpa using hcase

omit hs in
/-- A slot is taken for a new slice. -/
theorem Pointer.netTakeSlot {base : ℕ} {q : Produconsum} (htask : t = .takeSlot n) :
    Pointer { s with
      freeSlicesPc := q
      allocated := s.allocated + 1
      tasks := .reserve i n :: rest
      slices := Function.update s.slices i { s.slices i with base := base } } := by
  subst htask
  refine hp.retask h ht rfl (l := [.reserve i n]) rfl (by simp) (by simp [Task.joins])
    ⟨rfl, rfl, rfl⟩ ⟨rfl, rfl, ?_⟩ fun hoff hzero => ?_
  · dsimp only
    rcases eq_or_ne s.receivedPtr i with heq | hne
    · rw [heq, Function.update_self]
    · rw [Function.update_of_ne hne]
  · obtain ⟨rfl, rfl⟩ := hp.opens ht hoff hzero (.inr rfl)
    exact ⟨_, rfl, .inr (.inr ⟨i, rfl⟩)⟩

/-- A new slice is set up, in a slot that has not been complete. -/
theorem Pointer.netReserve {s₁ : State} (htask : t = .reserve i n)
    (hinit : initSlice (s.popped rest) i n = .ok s₁) :
    Pointer { s₁ with found := some i, started := s₁.started + 1 } := by
  subst htask
  have hnumber : 0 ≤ n := hs.numbers (.reserve i n) (ht ▸ List.mem_cons_self) n rfl
  obtain ⟨hallocated, -⟩ := h.stack.reserved i (by rw [ht]; rfl)
  obtain ⟨-, -, hnext, guess, -, rfl⟩ := initSlice_ok hinit
  refine hp.goOn h ht rfl (l := []) rfl (by simp) (by simp) ⟨rfl, rfl, rfl⟩ (Nat.le_succ _)
    (fun hoff => ?_) (fun _ => ?_) (fun _ hzero => ?_) fun hdone => ?_
  · have hcsn : s.currentSliceNo = n - 1 := hnext hoff
    show n - ((s.started + 1 : ℕ) : ℤ) = s.currentSliceNo - s.started
    omega
  · show ((s.started + 1 : ℕ) : ℤ) ≤ n + 1
    rcases Nat.eq_zero_or_pos s.started with hzero | hpos
    · omega
    · have hoff : s.streaming = false := by
        by_contra hon
        have := (h.slots.streaming (Bool.not_eq_false _ ▸ hon)).1
        omega
      have hcsn : s.currentSliceNo = n - 1 := hnext hoff
      have := hp.first hpos
      omega
  · exact absurd hzero (Nat.succ_ne_zero _)
  · dsimp only at hdone
    rcases eq_or_ne s.receivedPtr i with heq | hne
    · rw [heq, Function.update_self] at hdone
      cases hdone
    · rwa [Function.update_of_ne hne] at hdone

omit hs in
/-- A slot is given back. -/
theorem Pointer.netFreeSlot {bytes : ℕ} {s₁ : State} (htask : t = .freeSlot p bytes)
    (hfree : freeSlot (s.popped rest) p bytes = .ok s₁) :
    Pointer { s₁ with tasks := .cleanup :: rest } := by
  subst htask
  obtain ⟨q, -, rfl⟩ := freeSlot_ok hfree
  have hstarted := fun hoff => hp.started_pos ht hoff (by simp)
  refine hp.goOn h ht rfl (l := [.cleanup]) rfl (by simp) (by simp [Task.joins]) ⟨rfl, rfl, rfl⟩
    le_rfl (fun _ => rfl) hp.first (fun hoff hzero => ?_) fun hdone => ?_
  · exact ((hstarted hoff).ne' hzero).elim
  · dsimp only at hdone
    rcases eq_or_ne s.receivedPtr p with heq | hne
    · rw [heq, Function.update_self] at hdone
      cases hdone
    · rwa [Function.update_of_ne hne] at hdone

/-- A step of the network thread keeps the pointer in its place. -/
theorem Pointer.netMoves (hq : FecQueue s) (hm : NetMoves s t rest s') : Pointer s' := by
  have hopened : (t ≠ .newSlice 0 ∧ t ≠ .takeSlot 0 ∧ ∀ j, t ≠ .reserve j 0) →
      s.streaming = false → s.started = 0 →
      ∃ t, s'.tasks = [t] ∧ (t = .newSlice 0 ∨ t = .takeSlot 0 ∨ ∃ i, t = .reserve i 0) :=
    fun hclosed hoff hzero => ((hp.started_pos ht hoff hclosed).ne' hzero).elim
  cases hm with
  | join hcurrent => exact hp.netJoin h ht rfl hcurrent
  | @lookBack n c _ =>
    exact hp.retask h ht rfl (l := [.scan n c]) rfl (by simp) (by simp [Task.joins]) ⟨rfl, rfl, rfl⟩
      ⟨rfl, rfl, rfl⟩ (hopened (by simp))
  | restart hcurrent _ hstreaming hinit => exact hp.netRestart h hs ht rfl hcurrent hstreaming hinit
  | @lookAhead n c _ =>
    exact hp.retask h ht rfl (l := [.catchUp n]) rfl (by simp) (by simp [Task.joins])
      ⟨rfl, rfl, rfl⟩ ⟨rfl, rfl, rfl⟩ (hopened (by simp))
  | scanFound | scanFree | enqueue | cleaned =>
    exact hp.retask h ht rfl (l := []) rfl (by simp) (by simp) ⟨rfl, rfl, rfl⟩ ⟨rfl, rfl, rfl⟩
      (hopened (by simp))
  | @scanOn n pos _ =>
    exact hp.retask h ht rfl (l := [.scan n (previousSlot pos)]) rfl (by simp) (by simp [Task.joins])
      ⟨rfl, rfl, rfl⟩ ⟨rfl, rfl, rfl⟩ (hopened (by simp))
  | @behind n _ hbehind =>
    refine hp.retask h ht rfl (l := [.findSlice _, .fakeSliceComplete, .catchUp n]) rfl (by simp)
      (fun hon => ?_) ⟨rfl, rfl, rfl⟩ ⟨rfl, rfl, rfl⟩ (hopened (by simp))
    rw [h.notStreaming_of_catchUp ht rfl] at hon
    cases hon
  | @lost n _ hbehind =>
    refine hp.retask h ht rfl (l := [.findSlice _, .dropped, .catchUp n]) rfl (by simp)
      (fun hon => ?_) ⟨rfl, rfl, rfl⟩ ⟨rfl, rfl, rfl⟩ (hopened (by simp))
    rw [h.notStreaming_of_catchUp ht rfl] at hon
    cases hon
  | @caughtUp n _ =>
    exact hp.retask h ht rfl (l := [.newSlice n]) rfl (by simp) (by simp [Task.joins])
      ⟨rfl, rfl, rfl⟩ ⟨rfl, rfl, rfl⟩ (hopened (by simp))
  | fake =>
    refine hp.retask h ht rfl (l := [.findSlice _, .fakeFound]) rfl (by simp) (fun hon => ?_)
      ⟨rfl, rfl, rfl⟩ ⟨rfl, rfl, rfl⟩ (hopened (by simp))
    cases (hp.joining hon).2.2 _ (ht ▸ List.mem_cons_self)
  | force hfound hforce =>
    obtain ⟨hworks, hcompletes⟩ := completeByForce_works hforce
    exact hp.worked h ht hq rfl hworks (leaves_of_complete hcompletes) ⟨rfl, rfl, rfl, rfl⟩ rfl rfl
      rfl (by simp)
  | @newSlice n _ _ hfree =>
    refine hp.retask h ht rfl (l := [.takeSlot n]) rfl (by simp) (by simp [Task.joins])
      ⟨rfl, rfl, rfl⟩ ⟨rfl, rfl, rfl⟩ fun hoff hzero => ?_
    obtain ⟨rfl, rfl⟩ := hp.opens ht hoff hzero (.inl rfl)
    exact ⟨_, rfl, .inr (.inl rfl)⟩
  | takeSlot => exact hp.netTakeSlot h ht rfl
  | reserve _ hinit => exact hp.netReserve h hs ht rfl hinit
  | process hprocess =>
    obtain ⟨j, -, hworks, hleaves⟩ := process_works_found hprocess
    exact hp.worked h ht hq rfl hworks hleaves ⟨rfl, rfl, rfl, rfl⟩ rfl rfl rfl (by simp)
  | reuse hlocal hfinish | takeBlock hfinish =>
    obtain ⟨hworks, hleaves⟩ := finishFecBlock_works hfinish
    exact hp.worked h ht hq rfl hworks hleaves ⟨rfl, rfl, rfl, rfl⟩ rfl rfl rfl (by simp)
  | @waitForBlock i _ _ =>
    exact hp.retask h ht rfl (l := [.takeBlock i]) rfl (by simp) (by simp [Task.joins])
      ⟨rfl, rfl, rfl⟩ ⟨rfl, rfl, rfl⟩ (hopened (by simp))
  | advanceFirst hadvance =>
    refine hp.turn h ht hq.beyond (by simp) (fun hoff => ?_) (fun _ => rfl) hadvance
    rcases hp.entering hoff rest ht with hlinked | ⟨hzero, hwaits, -⟩
    · exact .inl hlinked
    · exact .inr (hzero ▸ SliceState.complete_of_waits hwaits)
  | @advance pos _ _ hadvance =>
    obtain ⟨hoff, hlinked⟩ := hp.advancing pos rest ht
    refine hp.turn h ht hq.beyond (by simp) (fun _ => .inl hlinked) (fun hon => ?_) hadvance
    rw [hoff] at hon
    cases hon
  | toCleanup =>
    exact hp.retask h ht rfl (l := [.cleanup]) rfl (by simp) (by simp [Task.joins]) ⟨rfl, rfl, rfl⟩
      ⟨rfl, rfl, rfl⟩ (hopened (by simp))
  | @release pos bytes _ s₁ hpos hstate hclean =>
    have hframe : s₁.streaming = s.streaming ∧ s₁.receivedPtr = s.receivedPtr ∧
        s₁.receivedSliceNo = s.receivedSliceNo ∧ s₁.started = s.started ∧
        s₁.currentSliceNo = s.currentSliceNo ∧ s₁.slices = s.slices := by
      rcases cleanupSlices_ok hclean with ⟨-, hslot, -⟩ | ⟨_, _, -, -, -, -, hdata⟩
      · cases hslot
      · rcases hdata with ⟨-, rfl⟩ | ⟨-, q, -, rfl⟩ <;> exact ⟨rfl, rfl, rfl, rfl, rfl, rfl⟩
    obtain ⟨hstreaming, hptr, hrsn, hstarted, hcsn, hslices⟩ := hframe
    exact hp.retask h ht rfl (l := [.freeSlot pos bytes]) rfl (by simp) (by simp [Task.joins])
      ⟨hstreaming, hptr, hrsn⟩ ⟨hstarted, hcsn, by rw [← hslices]⟩ (hopened (by simp))
  | freeSlot hfree => exact hp.netFreeSlot h ht rfl hfree

end Net

section Runs

variable {st : Stream} {mode : Mode}

/-- What the FEC thread leaves to the network thread. -/
theorem FecMoves.frame (hm : FecMoves s s') : s'.tasks = s.tasks ∧ s'.found = s.found ∧
    s'.streaming = s.streaming ∧ s'.receivedPtr = s.receivedPtr ∧
    s'.receivedSliceNo = s.receivedSliceNo ∧ s'.started = s.started ∧
    s'.currentSliceNo = s.currentSliceNo ∧ s'.useFec = s.useFec ∧
    ∀ j, (s'.slices j).sliceNo = (s.slices j).sliceNo := by
  have hupdate : ∀ {i x}, x.sliceNo = (s.slices i).sliceNo →
      ∀ j, (Function.update s.slices i x j).sliceNo = (s.slices j).sliceNo := by
    intro i x hx j
    rcases eq_or_ne j i with rfl | hj
    · rw [Function.update_self, hx]
    · rw [Function.update_of_ne hj]
  cases hm with
  | takeDone | decode | freeBlock =>
    exact ⟨rfl, rfl, rfl, rfl, rfl, rfl, rfl, rfl, hupdate rfl⟩
  | releaseSlice hpc hpos hstate hclean =>
    rcases cleanupSlices_ok hclean with ⟨-, hslot, -⟩ | ⟨_, _, -, -, -, -, hdata⟩
    · cases hslot
    · rcases hdata with ⟨-, rfl⟩ | ⟨-, q, -, rfl⟩ <;>
        exact ⟨rfl, rfl, rfl, rfl, rfl, rfl, rfl, rfl, fun _ => rfl⟩
  | freeSlot hpc hfree =>
    obtain ⟨q, -, rfl⟩ := freeSlot_ok hfree
    exact ⟨rfl, rfl, rfl, rfl, rfl, rfl, rfl, rfl, hupdate rfl⟩
  | _ => exact ⟨rfl, rfl, rfl, rfl, rfl, rfl, rfl, rfl, fun _ => rfl⟩

/-- What waits depends on the tasks, the slot that was found and the numbers of the slices only.
-/
theorem Stacked.congr (h : Stacked s) (htasks : s'.tasks = s.tasks) (hfound : s'.found = s.found)
    (hrsn : s'.receivedSliceNo = s.receivedSliceNo) (hcsn : s'.currentSliceNo = s.currentSliceNo)
    (hsliceNo : ∀ j, (s'.slices j).sliceNo = (s.slices j).sliceNo) : Stacked s' := by
  refine ⟨htasks ▸ h.order, htasks ▸ h.numbers, htasks ▸ h.depth, ?_, ?_⟩
  · rw [htasks, hrsn, hcsn]
    exact h.finder
  · intro tl htl j hj
    rw [hsliceNo, hrsn]
    exact h.faked tl (htasks ▸ htl) j (hfound ▸ hj)

/-- The FEC thread leaves the pointer where it is, and the slot it frees is behind it. -/
theorem Pointer.fecMoves (hp : Pointer s) (h : Window s) (hq : FecQueue s) (hm : FecMoves s s') :
    Pointer s' := by
  obtain ⟨htasks, -, hstreaming, hptr, hrsn, hstarted, hcsn, huse, -⟩ := hm.frame
  have hon := h.slots.present hm.thread_ne
  have hlinked : ∀ {p}, Linked s p → Linked s' p := fun hlinked =>
    hlinked.mono hrsn hstarted.ge (by rw [hcsn, hstarted])
  refine ⟨?_, ?_, ?_, ?_, ?_, ?_, fun hall => ?_⟩
  · rw [hstarted, hcsn]
    exact hp.first
  · rw [hstreaming, hstarted, hcsn, htasks]
    exact hp.opening
  · rw [hstreaming, hrsn, hptr, htasks]
    exact hp.joining
  · rw [hstreaming, htasks, hptr]
    exact fun hoff hall => hlinked (hp.linked hoff hall)
  · rw [hstreaming, htasks, hptr]
    intro hoff rest ht
    rcases hp.entering hoff rest ht with hbefore | ⟨hzero, -, hmem⟩
    · exact .inl (hlinked hbefore)
    · refine .inr ⟨hzero, ?_, hmem⟩
      have hq' := hq.fecMoves h hm
      have hle := hq'.pipeline (huse.trans hon) 0
      have hpos := List.count_pos_iff.mpr (hq'.mem_pipeline.mpr (.inr (.inr (by
        rw [htasks, ht]
        exact List.mem_cons_of_mem _ hmem))))
      by_contra hnot
      rw [Bool.not_eq_true] at hnot
      rw [hnot, Bool.toNat_false] at hle
      omega
  · rw [htasks, hstreaming]
    exact fun pos rest ht => ⟨(hp.advancing pos rest ht).1, hlinked (hp.advancing pos rest ht).2⟩
  · rw [hptr]
    have hbefore := hp.settled (htasks ▸ hall)
    rcases hm.state_cases h s.receivedPtr with heq | ⟨hwaits, -⟩ | ⟨-, hfree⟩
    · rw [heq, hbefore]
    · rw [SliceState.complete_of_waits hwaits] at hbefore
      cases hbefore
    · rw [hfree]
      rfl

/-- A message is dispatched. -/
theorem Stacked.dispatched {msg : ServerMsg} (htasks : s'.tasks = dispatch msg) : Stacked s' := by
  have hdispatch : (∃ n : ℤ, 0 ≤ n ∧ dispatch msg = [.findSlice n, .process msg]) ∨
      dispatch msg = [] := by
    cases msg <;> first | exact .inl ⟨_, Int.natCast_nonneg _, rfl⟩ | exact .inr rfl
  rcases hdispatch with ⟨n, hn, heq⟩ | heq
  · rw [heq] at htasks
    refine ⟨?_, ?_, ?_, ?_, ?_⟩ <;> rw [htasks]
    · exact order_of_open (by simp [Task.closes])
    · simp [Task.finds, hn]
    · simp
    · simp
    · simp
  · rw [heq] at htasks
    refine ⟨?_, ?_, ?_, ?_, ?_⟩ <;> rw [htasks] <;> simp

/-- A message arrives when nothing is left to be done. -/
theorem Pointer.dispatched (hp : Pointer s) {msg : ServerMsg} {place : Place} {mem : ℕ → Fec.Gf}
    {blocks : ℕ → Fec.Block} (hidle : s.tasks = []) :
    Pointer { s with
      isAddress := place, dataBuffer := mem, blockData := blocks, tasks := dispatch msg } := by
  have hhead : ∀ t rest, s.tasks = t :: rest → t.advances = false := by
    intro t rest ht
    rw [hidle] at ht
    cases ht
  have hdispatch : ∀ t ∈ dispatch msg, t.joins = true ∧ t.advances = false := by
    cases msg <;> simp [dispatch, Task.joins, Task.advances]
  have hnot : ∀ {t rest}, dispatch msg = t :: rest → t.advances = false := fun heq =>
    (hdispatch _ (heq ▸ List.mem_cons_self)).2
  refine { hp with
    opening := fun hoff hzero => ?_, joining := fun hon => ?_, linked := fun hoff _ => ?_
    entering := fun hoff rest hrest => ?_, advancing := fun pos rest hrest => ?_
    settled := fun _ => ?_ }
  · obtain ⟨-, t, ht, -⟩ := hp.opening hoff hzero
    rw [hidle] at ht
    cases ht
  · obtain ⟨hrsn, hptr, -⟩ := hp.joining hon
    exact ⟨hrsn, hptr, fun t ht => (hdispatch t ht).1⟩
  · exact hp.linked hoff hhead
  · cases hnot hrest
  · cases hnot hrest
  · exact hp.settled (by rw [hidle]; simp)

/-- Every move of the receiver keeps both. -/
theorem stacked_pointer_moves {a : Action} (h : Window s) (hq : FecQueue s)
    (hsp : Stacked s ∧ Pointer s) (hm : Moves s a s') : Stacked s' ∧ Pointer s' := by
  obtain ⟨hs, hp⟩ := hsp
  cases hm with
  | receive hidle hend => exact ⟨Stacked.dispatched rfl, hp.dispatched hidle⟩
  | exitWait => exact ⟨{ hs with }, { hp with }⟩
  | net ht hm => exact ⟨hs.netMoves h hp ht hm, hp.netMoves h hs ht hq hm⟩
  | fec hm =>
    obtain ⟨htasks, hfound, -, -, hrsn, -, hcsn, -, hsliceNo⟩ := hm.frame
    exact ⟨hs.congr htasks hfound hrsn hcsn hsliceNo, hp.fecMoves h hq hm⟩
  | writer hm => cases hm <;> exact ⟨{ hs with }, { hp with }⟩

/-- At the start nothing waits, and the pointer is at the first slot. -/
theorem stacked_pointer_start (h : Starts st mode s) : Stacked s ∧ Pointer s := by
  obtain ⟨config, streaming, mem, blockData, -, -, -, hstart⟩ := h
  obtain ⟨_, _, _, -, -, -, rfl⟩ := start_eq hstart
  cases streaming with
  | true =>
    refine ⟨⟨?_, ?_, ?_, ?_, ?_⟩, ⟨?_, ?_, ?_, ?_, ?_, ?_, ?_⟩⟩ <;>
      simp [Slice.unused, SliceState.complete]
  | false =>
    refine ⟨⟨?_, ?_, ?_, ?_, ?_⟩, ⟨?_, ?_, ?_, fun _ _ => ⟨0, le_rfl, rfl, ?_⟩, ?_, ?_, ?_⟩⟩ <;>
      simp [Slice.unused, SliceState.complete, Task.finds]

/-- The tasks are stacked, and the pointer is in its place, in every state of a running
receiver. -/
theorem stacked_pointer_of_reachable (h : (system st mode).Reachable s)
    (hrunning : s.failure = none) : Stacked s ∧ Pointer s :=
  running_of_reachable
    (fun _ hs hrun => (⟨window_of_reachable hs hrun, fecQueue_of_reachable hs hrun⟩ :
      Window _ ∧ FecQueue _))
    (fun _ => stacked_pointer_start)
    (fun _ _ _ hwq hsp _ hm => stacked_pointer_moves hwq.1 hwq.2 hsp hm) h hrunning

/-- A slice that is to be completed by force is not complete. -/
theorem Pointer.fake_incomplete (hp : Pointer s) (h : Window s) (hq : FecQueue s) (hs : Stacked s)
    (ht : s.tasks = .fakeFound :: rest) (hfound : s.found = some i) :
    (s.slices i).state.complete = false := by
  by_contra hdone
  rw [Bool.not_eq_false] at hdone
  have hoff : s.streaming = false := by
    by_contra hon
    cases (hp.joining (Bool.not_eq_false _ ▸ hon)).2.2 _ (ht ▸ List.mem_cons_self)
  have hopen := hs.rest_open ht rfl
  have hsettled : (s.slices s.receivedPtr).state.complete = false := by
    refine hp.settled fun t htask => ?_
    rw [ht] at htask
    rcases List.mem_cons.mp htask with rfl | htask
    · rfl
    · have := hopen t htask
      cases t <;> first | rfl | cases this
  have hlinked : Linked s s.receivedPtr := by
    refine hp.linked hoff fun t rest' ht' => ?_
    rw [ht] at ht'
    exact (List.cons.inj ht').1 ▸ rfl
  obtain ⟨k, hk, hptr, hno⟩ := hlinked
  obtain ⟨k', -, hk', hi, hno'⟩ := h.slots.inUse hq.beyond fun hfree => by
    rw [hfree] at hdone
    cases hdone
  have hnumber := hs.faked rest ht i hfound
  have hkk : k = k' := by omega
  rw [hptr, hkk, ← hi, hdone] at hsettled
  cases hsettled

end Runs

end Udpcast.Receiver
