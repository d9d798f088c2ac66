import Udpcast.Receiver.Aborts

/-!
# Messages that come in time

A message comes in time if its slice has begun, or is the next one, the slices up to the one before
the current one have been received, and the size of the current slice is known. A receiver to which
all messages come in time never stops with a failure; a message that does not come in time is never
dealt with.
-/

namespace Udpcast.Receiver

open Fec (Gf Block)
open Queue
open Protocol

variable {st : Stream} {s s' : State} {t : Task} {rest : List Task} {msg : ServerMsg} {n : ℤ}
  {f : Failure} {a : Action}

/-- The size of the current slice is known. -/
def State.SizeKnown (s : State) : Prop := ∀ c ∈ s.currentSlice, (s.slices c).bytesKnown = true

/-- A message about slice `n` comes in time. -/
def State.InTime (s : State) (n : ℤ) : Prop :=
  n ≤ s.currentSliceNo ∨ n = s.currentSliceNo + 1 ∧ n ≤ s.receivedSliceNo + 2 ∧ s.SizeKnown

instance (s : State) : Decidable s.SizeKnown := inferInstanceAs (Decidable (∀ _ ∈ _, _))

instance (s : State) (n : ℤ) : Decidable (s.InTime n) := inferInstanceAs (Decidable (_ ∨ _))

/-- When `dispatchMessage` receives a message, it comes in time. -/
def ReceivesInTime (s s' : State) : Prop :=
  s.tasks.isEmpty = true → ∀ t ∈ s'.tasks, ∀ n ∈ t.finds, s'.InTime n

instance (s s' : State) : Decidable (ReceivesInTime s s') :=
  inferInstanceAs (Decidable (_ → ∀ _ ∈ _, ∀ _ ∈ _, _))

/-! ## What the next task needs -/

/-- The task belongs to the part of `findSlice` that opens slices. -/
def Task.reaches : Task → Bool
  | .findSlice _ | .catchUp _ | .dropped | .newSlice _ | .takeSlot _ | .reserve .. => true
  | _ => false

/-- What a task needs so that `findSlice` goes on without a failure. -/
def Task.Meets (s : State) : Task → Prop
  | .findSlice n => s.currentSlice = none ∨ s.InTime n
  | .catchUp n => n = s.currentSliceNo + 1 ∧ n ≤ s.receivedSliceNo + 2 ∧ s.SizeKnown
  | .newSlice _ | .takeSlot _ | .reserve .. => s.SizeKnown
  | .dropped => False
  | _ => True

/-- The other tasks need nothing. -/
theorem Task.meets_of_not_reaches (h : t.reaches = false) : t.Meets s := by
  cases t <;> trivial

/-- Only the next task can belong to `findSlice`, and it has what it needs. -/
structure Punctual (s : State) : Prop where
  next : ∀ t tl, s.tasks = t :: tl → t.Meets s
  later : ∀ t ∈ s.tasks.tail, t.reaches = false

/-- Nothing is needed while no task belongs to `findSlice`. -/
theorem Punctual.of_tasks (h : ∀ t ∈ s.tasks, t.reaches = false) : Punctual s where
  next t _ ht := Task.meets_of_not_reaches (h t (ht ▸ List.mem_cons_self))
  later t ht := h t (List.mem_of_mem_tail ht)

/-- It is enough that the first task has what it needs. -/
theorem Punctual.cons (htasks : s'.tasks = t :: rest) (hmeets : t.Meets s')
    (hrest : ∀ y ∈ rest, y.reaches = false) : Punctual s' where
  next t' rest' ht := by
    obtain ⟨rfl, rfl⟩ := List.cons.inj (htasks.symm.trans ht)
    exact hmeets
  later y hy := by
    rw [htasks] at hy
    exact hrest y hy

/-- What a message leaves behind does not belong to `findSlice`. -/
theorem Task.Left.not_reaches {useFec : Bool} (h : t.Left useFec) : t.reaches = false := by
  cases t <;> first | exact h.elim | rfl

/-- Nor do the tasks after the treatment of a message. -/
theorem Leaves.not_reaches {i : ℕ} (h : Leaves i s s') (hrest : ∀ y ∈ s.tasks, y.reaches = false) :
    ∀ y ∈ s'.tasks, y.reaches = false := by
  obtain ⟨l, hl, hleft⟩ := h.left
  intro y hy
  rw [hl] at hy
  rcases List.mem_append.mp hy with hy | hy
  · rcases hleft with rfl | hleft
    · obtain rfl := List.mem_singleton.mp hy
      rfl
    · exact (hleft y hy).not_reaches
  · exact hrest y hy

/-- `findSlice` goes on from task to task with what it needs. -/
theorem Punctual.netMoves (h : Punctual s) (hs : Settled st s) (hm : NetMoves s t rest s')
    (ht : s.tasks = t :: rest) : Punctual s' := by
  have hmeets := h.next t rest ht
  have hrest : ∀ y ∈ rest, y.reaches = false := by
    have hlater := h.later
    rwa [ht] at hlater
  have hquiet : s'.tasks = rest → Punctual s' := fun htasks => .of_tasks (htasks ▸ hrest)
  have hone : ∀ {x : Task}, s'.tasks = x :: rest → x.reaches = false → Punctual s' :=
    fun htasks hx => .cons htasks (Task.meets_of_not_reaches hx) hrest
  cases hm with
  | join hcurrent =>
    refine .cons rfl (fun c hc => ?_) hrest
    rw [hcurrent] at hc
    cases hc
  | lookBack => exact hone rfl rfl
  | restart hcurrent hlt hstreaming hinit =>
    rw [hs.plain.notStreaming] at hstreaming
    cases hstreaming
  | lookAhead hcurrent hlt hstreaming =>
    refine .cons rfl ?_ hrest
    obtain hnone | hle | hnext := hmeets
    · rw [hcurrent] at hnone
      cases hnone
    · omega
    · exact hnext
  | behind hbehind hignore =>
    rw [hs.plain.keepsData] at hignore
    cases hignore
  | lost hbehind hignore =>
    obtain ⟨hnext, hle, -⟩ := hmeets
    omega
  | caughtUp => exact .cons rfl hmeets.2.2 hrest
  | fake => cases hs.plain.noFake _ (ht ▸ List.mem_cons_self)
  | force => cases hs.plain.noFake _ (ht ▸ List.mem_cons_self)
  | newSlice => exact .cons rfl hmeets hrest
  | @takeSlot n i _ hi hfree =>
    refine .cons rfl (fun c hc => ?_) hrest
    have hknown := hmeets c hc
    dsimp only
    rcases eq_or_ne c i with rfl | hne
    · rwa [Function.update_self]
    · rwa [Function.update_of_ne hne]
  | reserve hmem hinit =>
    obtain ⟨-, -, -, guess, -, rfl⟩ := initSlice_ok hinit
    exact hquiet rfl
  | process hok =>
    obtain ⟨i, -, -, hleaves⟩ := process_works_found hok
    exact .of_tasks (hleaves.not_reaches hrest)
  | reuse hlocal hok | takeBlock hok =>
    exact .of_tasks ((finishFecBlock_works hok).2.not_reaches hrest)
  | advanceFirst hadvance | advance hadvance =>
    subst hadvance
    unfold Receiver.advance at hquiet hone ⊢
    split
    · exact .cons rfl trivial hrest
    · exact .of_tasks hrest
  | release hpos hstate hclean => exact .cons rfl trivial hrest
  | freeSlot hok => exact .cons rfl trivial hrest
  | waitForBlock => exact hone rfl rfl
  | scanFound => exact hquiet rfl
  | scanFree => exact hquiet rfl
  | scanOn => exact hone rfl rfl
  | enqueue => exact hquiet rfl
  | toCleanup => exact hone rfl rfl
  | cleaned => exact hquiet rfl

/-- The steps of the other threads change nothing that the next task needs. -/
structure SameNext (s s' : State) : Prop where
  tasks : s'.tasks = s.tasks
  currentSlice : s'.currentSlice = s.currentSlice
  currentSliceNo : s'.currentSliceNo = s.currentSliceNo
  receivedSliceNo : s'.receivedSliceNo = s.receivedSliceNo
  known : ∀ i, (s'.slices i).bytesKnown = (s.slices i).bytesKnown

/-- So a task has what it needs in both states or in neither. -/
theorem SameNext.meets (h : SameNext s s') : t.Meets s' ↔ t.Meets s := by
  have hknown : s'.SizeKnown ↔ s.SizeKnown := by
    unfold State.SizeKnown
    rw [h.currentSlice]
    simp only [h.known]
  unfold Task.Meets State.InTime
  cases t <;> simp only [h.currentSlice, h.currentSliceNo, h.receivedSliceNo, hknown]

/-- A slot can be updated without changing which sizes are known. -/
theorem known_update {i : ℕ} {x : Slice} (hslices : s'.slices = Function.update s.slices i x)
    (hx : x.bytesKnown = (s.slices i).bytesKnown) (j : ℕ) :
    (s'.slices j).bytesKnown = (s.slices j).bytesKnown := by
  rw [hslices]
  rcases eq_or_ne j i with rfl | hne
  · rwa [Function.update_self]
  · rw [Function.update_of_ne hne]

/-- The FEC thread changes nothing that the next task needs. -/
theorem FecMoves.sameNext (hm : FecMoves s s') : SameNext s s' := by
  cases hm with
  | takeDone => exact ⟨rfl, rfl, rfl, rfl, known_update rfl rfl⟩
  | decode => exact ⟨rfl, rfl, rfl, rfl, known_update rfl rfl⟩
  | freeBlock => exact ⟨rfl, rfl, rfl, rfl, known_update rfl rfl⟩
  | releaseSlice hpc hpos hstate hclean =>
    obtain ⟨-, hslot, -⟩ | ⟨_, _, -, -, -, -, ⟨-, rfl⟩ | ⟨-, q, -, rfl⟩⟩ := cleanupSlices_ok hclean
    · cases hslot
    · exact ⟨rfl, rfl, rfl, rfl, fun _ => rfl⟩
    · exact ⟨rfl, rfl, rfl, rfl, fun _ => rfl⟩
  | freeSlot hpc hok =>
    obtain ⟨q, -, rfl⟩ := freeSlot_ok hok
    exact ⟨rfl, rfl, rfl, rfl, known_update rfl rfl⟩
  | _ => exact ⟨rfl, rfl, rfl, rfl, fun _ => rfl⟩

/-- Neither does the writer. -/
theorem WriterMoves.sameNext (hm : WriterMoves s s') : SameNext s s' := by
  cases hm <;> exact ⟨rfl, rfl, rfl, rfl, fun _ => rfl⟩

/-- So these threads leave `findSlice` with what it needs. -/
theorem Punctual.sameNext (h : Punctual s) (hsame : SameNext s s') : Punctual s' where
  next t rest ht := hsame.meets.mpr (h.next t rest (hsame.tasks ▸ ht))
  later := hsame.tasks ▸ h.later

/-- Every step does, when messages come in time. -/
theorem Punctual.moves (h : Punctual s) (hs : Settled st s) (hm : Moves s a s')
    (hin : ReceivesInTime s s') : Punctual s' := by
  cases hm with
  | @receive msg mem blocks hidle hend =>
    have hin := hin (List.isEmpty_iff.mpr hidle)
    cases msg with
    | hello => exact .of_tasks fun t ht => by cases ht
    | _ =>
      refine .cons rfl (.inr ?_) fun y hy => ?_
      · exact hin _ List.mem_cons_self _ rfl
      · obtain rfl := List.mem_singleton.mp hy
        rfl
  | exitWait => exact h.sameNext ⟨rfl, rfl, rfl, rfl, fun _ => rfl⟩
  | net ht hm => exact h.netMoves hs hm ht
  | fec hm => exact h.sameNext hm.sameNext
  | writer hm => exact h.sameNext hm.sameNext

/-- In the beginning there is no task. -/
theorem punctual_start (h : Starts st defaultMode s) : Punctual s := by
  obtain ⟨config, streaming, mem, blockData, -, -, ⟨-, rfl⟩, hstart⟩ := h
  obtain ⟨_, q, _, -, -, -, rfl⟩ := start_eq hstart
  refine .cons (t := .newSlice 0) rfl (fun c hc => ?_) fun y hy => by cases hy
  cases hc

/-- A receiver whose messages come in time always has what `findSlice` needs. -/
theorem punctual_of_reachable (h : ((system st defaultMode).restrict ReceivesInTime).Reachable s)
    (hrunning : s.failure = none) : Punctual s :=
  running_of_restricted
    (fun _ hs hrun => settled_of_reachable (System.restrict_reachable hs) hrun)
    (fun _ => punctual_start) (fun _ _ _ hs hpunctual _ hin hm => hpunctual.moves hs hm hin)
    h hrunning

/-- A receiver in default mode to which all messages come in time never stops with a failure. -/
theorem running_of_inTime (hst : st.Valid)
    (h : ((system st defaultMode).restrict ReceivesInTime).Reachable s) : s.failure = none := by
  cases hfailure : s.failure with
  | none => rfl
  | some f =>
    obtain ⟨s₀, hs₀, hrunning, hdrops⟩ := drops_of_reachable hst h hfailure
    have hpunctual := punctual_of_reachable hs₀ hrunning
    cases hdrops with
    | lost ht => exact (hpunctual.next _ _ ht).elim
    | unknown ht hcurrent hunknown =>
      have hknown := hpunctual.next _ _ ht _ hcurrent
      rw [hunknown] at hknown
      cases hknown

/-- A run whose messages come in time: three bytes, all of them written. -/
theorem running_of_inTime_three_bytes :
    ∃ s, ((system threeBytes defaultMode).restrict ReceivesInTime).Reachable s ∧
      s.writer = .exited ∧ s.failure = none := by
  have hrun : ((start ⟨1, false, true, 0⟩ false (fun _ => .ofNat 0) fun _ _ => .ofNat 0).bind
      fun s => System.perform (System.guarded act ReceivesInTime) s wholeStream).any fun s =>
        s.writer = .exited := by
    decide +kernel
  obtain ⟨s, hs, hlast⟩ := (Option.any_eq_true _ _).mp hrun
  obtain ⟨s₀, hstart, hperform⟩ := Option.bind_eq_some_iff.mp hs
  have hinit : (system threeBytes defaultMode).Init s₀ :=
    ⟨_, _, _, _, ⟨by decide, by decide⟩, rfl, ⟨rfl, rfl⟩, hstart⟩
  have hreach : ((system threeBytes defaultMode).restrict ReceivesInTime).Reachable s :=
    ⟨s₀, hinit, System.restrict_run_of_perform_in wholeStream_conforms hperform⟩
  exact ⟨s, hreach, of_decide_eq_true hlast, running_of_inTime threeBytes_valid hreach⟩

/-! ## Messages that come too early -/

/-- The message waits, and will not be reached. -/
structure Late (msg : ServerMsg) (s : State) : Prop where
  waits : .process msg ∈ s.tasks
  stuck : .dropped ∈ s.tasks ∨ ∃ t rest, s.tasks = t :: rest ∧ ¬ t.Meets s

/-- The network thread does not get past the task that lacks what it needs. -/
theorem Late.netMoves (h : Late msg s) (hs : Settled st s) (hseeking : Seeking s)
    (hm : NetMoves s t rest s') (ht : s.tasks = t :: rest) : Late msg s' := by
  obtain ⟨l, hl, hseeks⟩ := hseeking msg h.waits
  -- The next task looks for the slice of the message.
  obtain ⟨l, rfl⟩ : ∃ l', l = t :: l' := by
    cases l with
    | nil =>
      obtain ⟨rfl, rfl⟩ := List.cons.inj (ht.symm.trans hl)
      rcases h.stuck with hdropped | ⟨t, rest, ht', hnot⟩
      · rw [ht] at hdropped
        cases List.mem_singleton.mp hdropped
      · obtain ⟨rfl, rfl⟩ := List.cons.inj (ht.symm.trans ht')
        exact absurd trivial hnot
    | cons x l =>
      obtain ⟨rfl, rfl⟩ := List.cons.inj (ht.symm.trans hl)
      exact ⟨l, rfl⟩
  obtain ⟨-, rfl⟩ := List.cons.inj (ht.symm.trans hl)
  have hfinds : t.finds ≠ none := by
    rcases hseeks t List.mem_cons_self with hfinds | rfl
    · exact hfinds
    · cases hm
  obtain ⟨l', hl', -⟩ := hm.seeks hs hfinds
  refine ⟨by rw [hl']; simp, ?_⟩
  rcases h.stuck with hdropped | ⟨t', rest', ht', hnot⟩
  · left
    rw [ht] at hdropped
    rcases List.mem_cons.mp hdropped with rfl | hdropped
    · exact absurd rfl hfinds
    · rw [hl']
      exact List.mem_append_right _ hdropped
  · obtain ⟨rfl, rfl⟩ := List.cons.inj (ht.symm.trans ht')
    cases hm with
    | join hcurrent => exact absurd (.inl hcurrent) hnot
    | lookBack hcurrent hle => exact absurd (.inr (.inl hle)) hnot
    | restart hcurrent hlt hstreaming hinit =>
      rw [hs.plain.notStreaming] at hstreaming
      cases hstreaming
    | lookAhead hcurrent hlt hstreaming =>
      exact .inr ⟨_, _, rfl, fun hmeets => hnot (.inr (.inr hmeets))⟩
    | scanFound => exact absurd trivial hnot
    | scanFree => exact absurd trivial hnot
    | scanOn => exact absurd trivial hnot
    | behind hbehind hignore =>
      rw [hs.plain.keepsData] at hignore
      cases hignore
    | lost => exact .inl (List.mem_cons_of_mem _ List.mem_cons_self)
    | caughtUp hle hnext =>
      exact .inr ⟨_, _, rfl, fun hmeets => hnot ⟨hnext, hle, hmeets⟩⟩
    | newSlice => exact .inr ⟨_, _, rfl, hnot⟩
    | @takeSlot n i _ hi hfree =>
      refine .inr ⟨_, _, rfl, fun hmeets => hnot fun c hc => ?_⟩
      have hknown := hmeets c hc
      dsimp only at hknown
      rcases eq_or_ne c i with rfl | hne
      · rwa [Function.update_self] at hknown
      · rwa [Function.update_of_ne hne] at hknown
    | reserve hmem hinit =>
      obtain ⟨-, hknown, -⟩ := initSlice_ok hinit
      exact absurd hknown hnot
    | _ => exact absurd rfl hfinds

/-- The other threads do not give it what it needs. -/
theorem Late.sameNext (h : Late msg s) (hsame : SameNext s s') : Late msg s' where
  waits := hsame.tasks ▸ h.waits
  stuck := by
    rw [hsame.tasks]
    exact h.stuck.imp_right fun ⟨t, rest, ht, hnot⟩ =>
      ⟨t, rest, ht, fun hmeets => hnot (hsame.meets.mp hmeets)⟩

/-- So a message that comes too early waits after every step. -/
theorem Late.moves (h : Late msg s) (hs : Settled st s) (hseeking : Seeking s)
    (hm : Moves s a s') : Late msg s' := by
  cases hm with
  | receive hidle hend =>
    have hwaits := h.waits
    rw [hidle] at hwaits
    cases hwaits
  | exitWait => exact h.sameNext ⟨rfl, rfl, rfl, rfl, fun _ => rfl⟩
  | net ht hm => exact h.netMoves hs hseeking hm ht
  | fec hm => exact h.sameNext hm.sameNext
  | writer hm => exact h.sameNext hm.sameNext

/-- A message that comes too early waits as soon as it has been received. -/
theorem Late.receive {mem : ℕ → Gf} {blocks : ℕ → Block} {p : Place} (hs : Settled st s)
    (hidle : s.tasks = []) (hhello : msg ≠ .hello) (hlate : ¬ s.InTime (sliceNoOf msg)) :
    Late msg { s with
      isAddress := p, dataBuffer := mem, blockData := blocks, tasks := dispatch msg } := by
  have hcurrent : s.currentSlice ≠ none := by
    have hpos : s.started ≠ 0 := by
      intro hzero
      obtain ⟨-, t, ht, -⟩ := hs.pointer.opening hs.plain.notStreaming hzero
      rw [hidle] at ht
      cases ht
    rw [hs.window.slots.current, if_neg hpos]
    exact Option.some_ne_none _
  have hnot : ¬ (s.currentSlice = none ∨ s.InTime (sliceNoOf msg)) := by
    rintro (hnone | hin)
    · exact hcurrent hnone
    · exact hlate hin
  cases msg with
  | hello => exact absurd rfl hhello
  | _ => exact ⟨List.mem_cons_of_mem _ List.mem_cons_self, .inr ⟨_, _, rfl, hnot⟩⟩

/-- A receiver in default mode neither deals with a message that does not come in time nor receives
another one: it waits or stops with a failure. -/
theorem waits_of_late {s₁ : State} (h : (system st defaultMode).Reachable s) (hmsg : st.Sends msg)
    (hhello : msg ≠ .hello) (hlate : ¬ s.InTime (sliceNoOf msg))
    (hreceive : act s (.receive msg) = some s₁) (hrun : (system st defaultMode).Run s₁ s')
    (hrunning : s'.failure = none) :
    .process msg ∈ s'.tasks ∧ ∀ msg', act s' (.receive msg') = none := by
  have hbefore : s.failure = none := by
    by_contra hne
    rw [act, if_neg hne] at hreceive
    cases hreceive
  have hfirst : (system st defaultMode).Reachable s₁ := h.step ⟨.receive msg, hmsg, hreceive⟩
  have hlate₁ : Late msg s₁ := by
    rw [act, if_pos hbefore] at hreceive
    obtain ⟨hidle, -, mem, blocks, rfl⟩ := receiveStep_ok hreceive
    exact .receive (settled_of_reachable h hbefore) hidle hhello hlate
  have hinv : (system st defaultMode).Reachable s' ∧ (s'.failure = none → Late msg s') := by
    refine hrun.preserve (P := fun s => (system st defaultMode).Reachable s ∧
      (s.failure = none → Late msg s)) ?_ ⟨hfirst, fun _ => hlate₁⟩
    rintro s s' ⟨hs, hlate⟩ hstep
    refine ⟨hs.step hstep, fun hrunning => ?_⟩
    obtain ⟨a, -, hact⟩ := hstep
    obtain ⟨hbefore, hm⟩ := act_moves hact hrunning
    exact (hlate hbefore).moves (settled_of_reachable hs hbefore)
      (seeking_of_reachable hs hbefore) hm
  have hwaits := (hinv.2 hrunning).waits
  refine ⟨hwaits, fun msg' => ?_⟩
  rw [act, if_pos hrunning, receiveStep, if_neg]
  rintro ⟨hempty, -⟩
  rw [List.isEmpty_iff.mp hempty] at hwaits
  cases hwaits

/-- The empty slice is announced before the first slice has been received. -/
theorem waits_of_late_three_bytes : ∃ s s₁ s', (system threeBytes defaultMode).Reachable s ∧
    act s (.receive (.reqack 2 0 0 ∅)) = some s₁ ∧ (system threeBytes defaultMode).Run s₁ s' ∧
    s'.tasks.length = 4 ∧ .process (.reqack 2 0 0 ∅) ∈ s'.tasks ∧
      ∀ msg, act s' (.receive msg) = none := by
  have hrun : ((start ⟨1, false, true, 0⟩ false (fun _ => .ofNat 0) fun _ _ => .ofNat 0).bind
      fun s => (System.perform act s (List.replicate 3 .net)).bind fun s =>
        (act s (.receive (.reqack 2 0 0 ∅))).bind fun s₁ =>
          (System.perform act s₁ (List.replicate 2 .net)).map fun s' => (s, s₁, s')).any fun x =>
            ¬ x.1.InTime 2 ∧ x.2.2.failure = none ∧ x.2.2.tasks.length = 4 := by
    decide +kernel
  obtain ⟨⟨s, s₁, s'⟩, hall, hlast⟩ := (Option.any_eq_true _ _).mp hrun
  obtain ⟨s₀, hstart, hall⟩ := Option.bind_eq_some_iff.mp hall
  obtain ⟨s, hopen, hall⟩ := Option.bind_eq_some_iff.mp hall
  obtain ⟨s₁, hreceive, hall⟩ := Option.bind_eq_some_iff.mp hall
  obtain ⟨s', hperform, heq⟩ := Option.map_eq_some_iff.mp hall
  obtain ⟨rfl, rfl, rfl⟩ : s = _ ∧ s₁ = _ ∧ s' = _ := by simpa using heq
  obtain ⟨hlate, hrunning, hlength⟩ := of_decide_eq_true hlast
  have hnet : ∀ n, ∀ a ∈ List.replicate n Action.net, a.Conforms threeBytes := by
    intro n a ha
    obtain ⟨-, rfl⟩ := List.mem_replicate.mp ha
    trivial
  have hinit : (system threeBytes defaultMode).Init s₀ :=
    ⟨_, _, _, _, ⟨by decide, by decide⟩, rfl, ⟨rfl, rfl⟩, hstart⟩
  have hreach : (system threeBytes defaultMode).Reachable s :=
    ⟨s₀, hinit, System.run_of_perform_in (hnet 3) hopen⟩
  have hlast : (system threeBytes defaultMode).Run s₁ s' :=
    System.run_of_perform_in (hnet 2) hperform
  exact ⟨s, s₁, s', hreach, hreceive, hlast, hlength, waits_of_late hreach
    (.reqack 2 0 ∅ (by decide)) (by simp) hlate hreceive hlast hrunning⟩

end Udpcast.Receiver
