import Udpcast.Receiver.Delivery

/-!
# Slices that are acknowledged

In default mode the receiver says OK only about slices that it has. So the sender may forget a slice
that all receivers have acknowledged: nothing of it is missing anywhere, and none of its blocks has
to be sent again.
-/

namespace Udpcast.Receiver

open Fec (Gf Block)
open Queue
open Protocol

variable {st : Stream} {s s' : State} {t : Task} {rest : List Task} {msg : ServerMsg}
  {i n b k stripes bytes rxmit : ℕ}

/-! ## Answers -/

/-- Noting the size of a slice sends nothing. -/
theorem replies_of_noteBytes (h : noteBytes s i bytes = .ok s') : s'.replies = s.replies := by
  obtain hset | ⟨-, e, rfl⟩ := noteBytes_ok h
  · exact replies_of_setSliceBytes hset
  · rfl

/-- A data block is not answered. -/
theorem replies_of_processDataBlock (h : processDataBlock s i n b bytes = .ok s') :
    s'.replies = s.replies := by
  obtain rfl | ⟨-, -, -, s₁, hnote, hcount⟩ := processDataBlock_ok h
  · rfl
  · obtain ⟨slice, localBlocks, -, hcheck⟩ := countData_ok hcount
    obtain ⟨mem, blocks, hcopy⟩ := copyBlock_eq (s := s) (.ring (adr s (s.slices i) b))
    rw [hcopy] at hnote
    have hcounted := replies_of_checkSliceComplete hcheck
    have hnoted := replies_of_noteBytes hnote
    exact hcounted.trans hnoted

/-- Counting a FEC block sends nothing. -/
theorem replies_of_countFec (h : countFec s i stripes b = .ok s') : s'.replies = s.replies := by
  obtain (⟨-, hcheck⟩ | rfl) | ⟨stripe, -, -, -, mem, blocks, -, rfl⟩ := countFec_ok h
  · have hchecked := replies_of_checkSliceComplete hcheck
    exact hchecked
  · rfl
  · rfl

/-- A FEC block is not answered. -/
theorem replies_of_processFecBlock (h : processFecBlock s i stripes b bytes = .ok s') :
    s'.replies = s.replies := by
  obtain rfl | ⟨-, s₁, hset, ⟨-, hcount⟩ | ⟨-, -, rfl⟩ | ⟨-, -, hcount⟩⟩ := processFecBlock_ok h
  · rfl
  · have hinit : (initSliceForFec s₁ i stripes).replies = s₁.replies := by
      unfold initSliceForFec
      split <;> rfl
    exact (replies_of_countFec hcount).trans (hinit.trans (replies_of_setSliceBytes hset))
  · exact replies_of_setSliceBytes hset
  · exact (replies_of_countFec hcount).trans (replies_of_setSliceBytes hset)

/-- The end of the treatment of a FEC block sends nothing. -/
theorem replies_of_finishFecBlock (h : finishFecBlock s i = .ok s') : s'.replies = s.replies := by
  have hchecked := replies_of_checkSliceComplete h
  exact hchecked

/-- Completing a faked slice sends nothing. -/
theorem replies_of_completeByForce (h : completeByForce s i = .ok s') :
    s'.replies = s.replies := by
  obtain ⟨-, s₁, ⟨-, rfl⟩ | ⟨-, hset⟩, hcheck⟩ := completeByForce_ok h
  · have hchecked := replies_of_checkSliceComplete hcheck
    exact hchecked
  · have hchecked := replies_of_checkSliceComplete hcheck
    have hnoted := replies_of_setSliceBytes hset
    exact hchecked.trans hnoted

/-- The message asks for an answer. -/
def IsReqack : ServerMsg → Prop
  | .reqack .. => True
  | _ => False

/-- So only REQACKs are answered. -/
theorem replies_of_process (h : process s msg = .ok s') (hmsg : ¬ IsReqack msg) :
    s'.replies = s.replies := by
  unfold process at h
  cases msg with
  | data n b bytes payload =>
    dsimp only at h
    split at h
    · exact replies_of_processDataBlock h
    · obtain rfl := Except.ok.inj h
      rfl
  | fec stripes n b bytes payload =>
    dsimp only at h
    split at h
    · exact replies_of_processFecBlock h
    · obtain rfl := Except.ok.inj h
      rfl
  | reqack => exact absurd trivial hmsg
  | hello =>
    obtain rfl := Except.ok.inj h
    rfl

/-- Only `processReqAck` answers. -/
theorem NetMoves.replies (hm : NetMoves s t rest s') (ht : ∀ msg, t = .process msg → ¬ IsReqack msg) :
    s'.replies = s.replies := by
  cases hm with
  | restart hcurrent hlt hstreaming hinit | reserve hmem hinit =>
    obtain ⟨-, -, -, guess, -, rfl⟩ := initSlice_ok hinit
    rfl
  | force hfound hforce =>
    have hafter := replies_of_completeByForce hforce
    exact hafter
  | process hprocess =>
    have hafter := replies_of_process hprocess (ht _ rfl)
    exact hafter
  | reuse hlocal hfinish | takeBlock hfinish =>
    have hafter := replies_of_finishFecBlock hfinish
    exact hafter
  | advanceFirst hadvance =>
    obtain ⟨tasks, ptr, n, heq⟩ := advance_eq (s.popped rest) s.receivedPtr
    rw [hadvance, heq]
    rfl
  | @advance pos _ _ hadvance =>
    obtain ⟨tasks, ptr, n, heq⟩ := advance_eq (s.popped rest) pos
    rw [hadvance, heq]
    rfl
  | release hpos hstate hclean =>
    obtain ⟨-, hslot, -⟩ | ⟨_, _, -, -, -, -, ⟨-, rfl⟩ | ⟨-, q, -, rfl⟩⟩ := cleanupSlices_ok hclean
    · cases hslot
    · rfl
    · rfl
  | freeSlot hfree =>
    obtain ⟨q, -, rfl⟩ := freeSlot_ok hfree
    rfl
  | _ => rfl

/-- A step that answers treats a REQACK. -/
theorem NetMoves.replies_or (hm : NetMoves s t rest s') :
    (∃ n bytes rxmit readySet, t = .process (.reqack n bytes rxmit readySet)) ∨
      s'.replies = s.replies := by
  by_cases hreqack : ∃ n bytes rxmit readySet, t = .process (.reqack n bytes rxmit readySet)
  · exact .inl hreqack
  · refine .inr (hm.replies fun msg hmsg => ?_)
    cases msg with
    | reqack n bytes rxmit readySet => exact absurd ⟨n, bytes, rxmit, readySet, hmsg⟩ hreqack
    | _ => exact id

/-- The answer to a REQACK is added to what has been sent. -/
theorem processReqAck_replies (h : processReqAck s n bytes rxmit = .ok s') :
    ∀ m ∈ s.replies, m ∈ s'.replies := by
  intro m hm
  obtain ⟨-, rfl⟩ | ⟨-, -, rfl⟩ | ⟨-, i, s₁, -, hset, hcheck⟩ := processReqAck_ok h
  · exact hm
  · exact List.mem_cons_of_mem _ hm
  · have hanswered := replies_of_checkSliceComplete hcheck
    rw [hanswered]
    show m ∈ (answer s₁ i rxmit).replies
    rw [← replies_of_setSliceBytes hset] at hm
    unfold answer sendRetransmit
    dsimp only
    split <;> exact List.mem_cons_of_mem _ hm

/-- The network thread does not forget that a slice has been opened. -/
theorem NetMoves.started_le (hm : NetMoves s t rest s') : s.started ≤ s'.started := by
  have hworks : ∀ {s₀ i}, Works i s₀ s' → s₀.started = s.started → s.started ≤ s'.started :=
    fun hw hsame => (hsame.symm.trans (congrArg Rest.started hw.rest_eq).symm).le
  cases hm with
  | restart hcurrent hlt hstreaming hinit =>
    obtain ⟨-, -, -, guess, -, rfl⟩ := initSlice_ok hinit
    exact le_rfl
  | reserve hmem hinit =>
    obtain ⟨-, -, -, guess, -, rfl⟩ := initSlice_ok hinit
    exact Nat.le_succ _
  | force hfound hforce => exact hworks (completeByForce_works hforce).1 rfl
  | process hprocess =>
    obtain ⟨i, -, hw, -⟩ := process_works_found hprocess
    exact hworks hw rfl
  | reuse hlocal hfinish => exact hworks (finishFecBlock_works hfinish).1 rfl
  | takeBlock hfinish => exact hworks (finishFecBlock_works hfinish).1 rfl
  | advanceFirst hadvance =>
    obtain ⟨tasks, ptr, n, heq⟩ := advance_eq (s.popped rest) s.receivedPtr
    rw [hadvance, heq]
    exact le_rfl
  | @advance pos _ _ hadvance =>
    obtain ⟨tasks, ptr, n, heq⟩ := advance_eq (s.popped rest) pos
    rw [hadvance, heq]
    exact le_rfl
  | release hpos hstate hclean =>
    obtain ⟨-, hslot, -⟩ | ⟨_, _, -, -, -, -, ⟨-, rfl⟩ | ⟨-, q, -, rfl⟩⟩ := cleanupSlices_ok hclean
    · cases hslot
    · exact le_rfl
    · exact le_rfl
  | freeSlot hfree =>
    obtain ⟨q, -, rfl⟩ := freeSlot_ok hfree
    exact le_rfl
  | _ => exact le_rfl

/-- The FEC thread sends nothing, and gives slots back only. -/
theorem FecMoves.replies (hm : FecMoves s s') : s'.replies = s.replies ∧ s.freed ≤ s'.freed := by
  cases hm with
  | releaseSlice hpc hpos hstate hclean =>
    obtain ⟨-, hslot, -⟩ | ⟨_, _, -, -, -, -, ⟨-, rfl⟩ | ⟨-, q, -, rfl⟩⟩ := cleanupSlices_ok hclean
    · cases hslot
    · exact ⟨rfl, le_rfl⟩
    · exact ⟨rfl, le_rfl⟩
  | freeSlot hpc hfree =>
    obtain ⟨q, -, rfl⟩ := freeSlot_ok hfree
    exact ⟨rfl, Nat.le_succ _⟩
  | _ => exact ⟨rfl, le_rfl⟩

/-- No answer is taken back. -/
theorem Moves.replies_subset {a : Action} (hm : Moves s a s') : ∀ m ∈ s.replies, m ∈ s'.replies := by
  intro m hmem
  cases hm with
  | net ht hm =>
    obtain ⟨n, bytes, rxmit, readySet, rfl⟩ | hsame := hm.replies_or
    · cases hm with
      | process hprocess => exact processReqAck_replies hprocess m hmem
    · rw [hsame]
      exact hmem
  | fec hm =>
    rw [hm.replies.1]
    exact hmem
  | writer hm => cases hm <;> exact hmem
  | _ => exact hmem

/-! ## What `findSlice` has found -/

/-- The slice has been given back, or is in the slot that has been found. -/
def State.Located (s : State) (n : ℤ) : Prop :=
  n < s.freed ∨ ∃ k : ℕ, n = k ∧ k < s.started ∧ s.found = some (k % nrSlices)

/-- The network thread is not at the treatment of a message. -/
def ProcessesNothing (tasks : List Task) : Prop := ∀ msg tl, tasks ≠ .process msg :: tl

/-- `findSlice` has ended for the message that is dealt with next. -/
def Locating (s : State) : Prop :=
  ∀ msg tl, s.tasks = .process msg :: tl → s.Located (sliceNoOf msg)

/-- There is nothing to find when no message is dealt with. -/
theorem ProcessesNothing.locating (h : ProcessesNothing s.tasks) : Locating s :=
  fun msg tl heq => absurd heq (h msg tl)

/-- No message is dealt with while the next task is another one. -/
theorem processesNothing_cons (h : ∀ msg, t ≠ .process msg) : ProcessesNothing (t :: rest) := by
  intro msg tl heq
  exact h msg (List.cons.inj heq).1

/-- Tasks that look for no slice are followed by no message. -/
theorem processesNothing_rest (hchain : (t :: rest).IsChain Follows) (ht : t.finds = none) :
    ProcessesNothing rest := by
  intro msg tl heq
  rw [finds_of_process hchain heq] at ht
  cases ht

/-- The treatment of a message leaves no other one behind. -/
theorem Leaves.processesNothing {s₀ : State} (h : Leaves i s₀ s')
    (hrest : ProcessesNothing s₀.tasks) : ProcessesNothing s'.tasks := by
  obtain ⟨l, heq, hl⟩ := h.left
  rw [heq]
  cases l with
  | nil => exact hrest
  | cons x l =>
    refine processesNothing_cons fun msg => ?_
    rcases hl with hl | hl
    · obtain ⟨rfl, -⟩ := List.cons.inj hl
      simp
    · exact (hl x List.mem_cons_self).ne_process msg

/-- A scan that ends has found the slice, or passed all slices in use. -/
theorem Scanned.located {n : ℤ} {pos d : ℕ} (h : Scanned s n pos d) (hs : Settled st s)
    (hn : 0 ≤ n) (hno : (s.slices pos).sliceNo = n) :
    n < s.freed ∨ ∃ k : ℕ, n = k ∧ k < s.started ∧ some pos = some (k % nrSlices) := by
  have hstarted := hs.started_le
  by_cases hnear : n + nrSlices < s.started
  · exact .inl (by omega)
  · obtain ⟨hlt, rfl, -, heq⟩ := h.sliceNo hs hn hnear
    exact .inr ⟨s.started - 1 - d, by rw [← hno, heq], by omega, rfl⟩

/-- The network thread comes to a message only after `findSlice` has ended. -/
theorem NetMoves.locating (hm : NetMoves s t rest s') (hs : Settled st s) (hs' : Settled st s')
    (hscanning : Scanning s) (ht : s.tasks = t :: rest) : Locating s' := by
  have hchain : (t :: rest).IsChain Follows := ht ▸ hs.window.stack.chain
  cases hm with
  | @scanFound n pos _ hno =>
    intro msg tl heq
    obtain rfl := Option.some.inj (finds_of_process hchain heq)
    obtain ⟨d, hscanned⟩ := hscanning _ pos rest ht
    have hn := hs.stacked.numbers _ (ht ▸ List.mem_cons_self) _ rfl
    exact hscanned.located hs hn hno
  | @scanFree n pos _ hno hfree =>
    intro msg tl heq
    obtain rfl := Option.some.inj (finds_of_process hchain heq)
    obtain ⟨d, hscanned⟩ := hscanning _ pos rest ht
    have hn := hs.stacked.numbers _ (ht ▸ List.mem_cons_self) _ rfl
    exact .inl (hscanned.free hs hn hfree)
  | restart hcurrent hlt hstreaming hinit =>
    rw [hs.plain.notStreaming] at hstreaming
    cases hstreaming
  | @reserve n i m _ s₁ hmem hinit =>
    intro msg tl heq
    obtain ⟨-, rfl⟩ := hs.window.stack.reserved i (by rw [ht]; rfl)
    obtain ⟨-, -, -, guess, -, rfl⟩ := initSlice_ok hinit
    obtain rfl := Option.some.inj (finds_of_process hchain heq)
    have hnumbered : sliceNoOf msg + 1 = (s.started + 1 : ℕ) := hs'.plain.numbered
    exact .inr ⟨s.started, by omega, Nat.lt_succ_self _, rfl⟩
  | force hfound hforce =>
    obtain ⟨-, hcompletes⟩ := completeByForce_works hforce
    exact ((leaves_of_complete hcompletes).processesNothing
      (processesNothing_rest hchain rfl)).locating
  | process hprocess =>
    obtain ⟨i, -, -, hleaves⟩ := process_works_found hprocess
    exact (hleaves.processesNothing (processesNothing_rest hchain rfl)).locating
  | reuse hlocal hfinish | takeBlock hfinish =>
    exact ((finishFecBlock_works hfinish).2.processesNothing
      (processesNothing_rest hchain rfl)).locating
  | advanceFirst hadvance | advance hadvance =>
    subst hadvance
    unfold Receiver.advance
    split
    · exact (processesNothing_cons (by simp)).locating
    · exact (processesNothing_rest hchain rfl).locating
  | enqueue | cleaned => exact (processesNothing_rest hchain rfl).locating
  | freeSlot hfree => exact (processesNothing_cons (by simp)).locating
  | _ =>
    intro msg tl heq
    cases heq

/-- The result of `findSlice` stays good while slots are only given back. -/
theorem Locating.congr (h : Locating s) (htasks : s'.tasks = s.tasks) (hfound : s'.found = s.found)
    (hfreed : s.freed ≤ s'.freed) (hstarted : s'.started = s.started) : Locating s' := by
  intro msg tl heq
  obtain hold | ⟨k, hk, hlt, hslot⟩ := h msg tl (htasks ▸ heq)
  · exact .inl (by omega)
  · exact .inr ⟨k, hk, by omega, hfound ▸ hslot⟩

/-- It is so as long as the receiver runs. -/
theorem locating_of_reachable (h : (system st defaultMode).Reachable s)
    (hrunning : s.failure = none) : Locating s := by
  refine running_of_act (Q := fun s => s.failure = none ∧ Settled st s ∧ Scanning s)
    (fun _ hs hrun => ⟨hrun, settled_of_reachable hs hrun, scanning_of_reachable hs hrun⟩) ?_ ?_
    h hrunning
  · rintro s ⟨config, streaming, mem, blockData, -, -, ⟨-, rfl⟩, hstart⟩
    obtain ⟨_, _, _, -, -, -, rfl⟩ := start_eq hstart
    exact ProcessesNothing.locating (processesNothing_cons (by simp))
  · rintro s s' a ⟨-, hs, hscanning⟩ ⟨hrunning', hs', -⟩ hlocating ha hact
    obtain ⟨-, hm⟩ := act_moves hact hrunning'
    cases hm with
    | @receive msg mem blocks hidle hend =>
      intro msg' tl heq
      cases msg <;> cases heq
    | exitWait => exact hlocating.congr rfl rfl le_rfl rfl
    | net ht hm => exact hm.locating hs hs' hscanning ht
    | fec hm =>
      obtain ⟨htasks, hfound, -, -, -, hstarted, -⟩ := hm.frame
      exact hlocating.congr htasks hfound hm.replies.2 hstarted
    | writer hm => cases hm <;> exact hlocating.congr rfl rfl le_rfl rfl

/-! ## What is acknowledged -/

/-- The receiver says OK about slices only that it has, or has had. -/
def Acknowledges (s : State) : Prop :=
  ∀ k : ℕ, .ok k ∈ s.replies → k < s.started ∧ s.Past k

/-- The answer to a REQACK is OK if all blocks of the slice have arrived. -/
theorem answer_ok (h : .ok k ∈ (answer s i rxmit).replies) :
    .ok k ∈ s.replies ∨ k = (s.slices i).sliceNo.toNat ∧
      (getSliceBlocks (s.slices i) s.config : ℤ) = (s.slices i).blocksTransferred := by
  unfold answer sendRetransmit at h
  dsimp only at h
  split at h
  · rename_i hall
    rcases List.mem_cons.mp h with heq | hold
    · exact .inr ⟨ClientMsg.ok.inj heq, hall⟩
    · exact .inl hold
  · rcases List.mem_cons.mp h with heq | hold
    · cases heq
    · exact .inl hold

/-- A slice all blocks of which have arrived is complete after `checkSliceComplete`. -/
theorem complete_of_checkSliceComplete (h : checkSliceComplete s i = .ok s')
    (hall : (getSliceBlocks (s.slices i) s.config : ℤ) = (s.slices i).blocksTransferred)
    (hfree : (s.slices i).state ≠ .free) : (s'.slices i).state.complete = true := by
  obtain ⟨hnot | hnot, rfl⟩ | ⟨-, -, state, hstate, rfl⟩ := checkSliceComplete_ok h
  · cases hcase : (s'.slices i).state <;> simp_all [SliceState.complete]
  · exact absurd hall hnot
  · dsimp only
    rw [Function.update_self]
    rcases hstate with ⟨rfl, -⟩ | ⟨rfl, -⟩ <;> rfl

/-- `processReqAck` says OK about slice `n` only if the receiver has it. -/
theorem processReqAck_acknowledges (hs : Slots s) (hlocated : s.Located n)
    (hno : ∀ i, s.found = some i → (s.slices i).sliceNo = n)
    (h : processReqAck s n bytes rxmit = .ok s') (hk : .ok k ∈ s'.replies) :
    .ok k ∈ s.replies ∨ k = n ∧ n < s.started ∧ s'.Past n := by
  have hfreed_le := hs.freed_le
  obtain ⟨-, rfl⟩ | ⟨-, hnone, rfl⟩ | ⟨-, i, s₁, hi, hset, hcheck⟩ := processReqAck_ok h
  · exact .inl hk
  · obtain hold | ⟨m, -, -, hslot⟩ := hlocated
    · rcases List.mem_cons.mp hk with heq | hk
      · refine .inr ⟨ClientMsg.ok.inj heq, by omega, fun hle => ?_⟩
        have hle : s.freed ≤ n := hle
        omega
      · exact .inl hk
    · rw [hnone] at hslot
      cases hslot
  · have hw := (processReqAck_works h i fun j hj => Option.some.inj (hj.symm.trans hi)).1
    have hfreed : s'.freed = s.freed := congrArg Rest.freed hw.rest_eq
    obtain ⟨hset_works, -, hstate⟩ := setSliceBytes_works hset
    have hno₁ : (s₁.slices i).sliceNo = n := hset_works.sliceNo_eq.trans (hno i hi)
    have hanswered := replies_of_checkSliceComplete hcheck
    rw [hanswered] at hk
    obtain hk | ⟨rfl, hall⟩ := answer_ok hk
    · rw [replies_of_setSliceBytes hset] at hk
      exact .inl hk
    · rw [hno₁, Int.toNat_natCast]
      obtain hold | ⟨m, hm, hlt, hslot⟩ := hlocated
      · refine .inr ⟨rfl, by omega, fun hle => ?_⟩
        rw [hfreed] at hle
        omega
      · obtain rfl : n = m := by omega
        obtain rfl : i = n % nrSlices := Option.some.inj (hi.symm.trans hslot)
        refine .inr ⟨rfl, hlt, fun hle => ?_⟩
        rw [hfreed] at hle
        have hused := hs.taken n hle hlt
        obtain ⟨reply, hanswer⟩ := answer_eq (s := s₁) (i := n % nrSlices) rxmit
        rw [hanswer] at hcheck
        exact complete_of_checkSliceComplete hcheck hall fun hfree => hused (hstate.symm.trans hfree)

/-- What is past stays past, so no answer becomes wrong. -/
theorem Acknowledges.congr (h : Acknowledges s) (hreplies : s'.replies = s.replies)
    (hstarted : s.started ≤ s'.started) (hpast : ∀ k < s.started, s.Past k → s'.Past k) :
    Acknowledges s' := by
  intro k hk
  rw [hreplies] at hk
  obtain ⟨hlt, hgone⟩ := h k hk
  exact ⟨by omega, hpast k hlt hgone⟩

/-- The network thread says OK only about slices that are complete. -/
theorem Acknowledges.netMoves (h : Acknowledges s) (hs : Settled st s) (hlocating : Locating s)
    (hm : NetMoves s t rest s') (ht : s.tasks = t :: rest) : Acknowledges s' := by
  have hstarted := hm.started_le
  have hpast : ∀ k < s.started, s.Past k → s'.Past k := fun k hlt hgone => hm.past hs ht hlt hgone
  obtain ⟨n, bytes, rxmit, readySet, rfl⟩ | hsame := hm.replies_or
  · cases hm with
    | process hprocess =>
      intro k hk
      obtain hold | ⟨rfl, hlt, hgone⟩ := processReqAck_acknowledges (s := s.popped rest)
        (hs.window.slots.popped rest) (hlocating _ rest ht) (fun i hi => hs.window.stack.found _ rest i ht hi)
        hprocess hk
      · obtain ⟨hlt, hgone⟩ := h k hold
        exact ⟨by omega, hpast k hlt hgone⟩
      · exact ⟨hlt.trans_le hstarted, hgone⟩
  · exact h.congr hsame hstarted hpast

/-- It is so as long as the receiver runs. -/
theorem acknowledges_of_reachable (h : (system st defaultMode).Reachable s)
    (hrunning : s.failure = none) : Acknowledges s := by
  refine running_of_reachable (Q := fun s => Settled st s ∧ Locating s)
    (fun _ hs hrun => ⟨settled_of_reachable hs hrun, locating_of_reachable hs hrun⟩) ?_ ?_ h hrunning
  · rintro s ⟨config, streaming, mem, blockData, -, -, ⟨-, rfl⟩, hstart⟩
    obtain ⟨_, _, _, -, -, -, rfl⟩ := start_eq hstart
    intro k hk
    cases hk
  · rintro s s' a ⟨hs, hlocating⟩ hacked - hm
    cases hm with
    | receive hidle hend => exact hacked.congr rfl le_rfl fun _ _ => id
    | exitWait => exact hacked.congr rfl le_rfl fun _ _ => id
    | net ht hm => exact hacked.netMoves hs hlocating hm ht
    | fec hm =>
      obtain ⟨-, -, -, -, -, hstarted, -⟩ := hm.frame
      exact hacked.congr hm.replies.1 hstarted.ge fun k hlt hgone => hm.past hs hlt hgone
    | writer hm => cases hm <;> exact hacked.congr rfl le_rfl fun _ _ => id

/-! ## No byte of an acknowledged slice is lost -/

/-- The bytes of slice `k` that are not written yet are in the ring. -/
def State.Keeps (st : Stream) (s : State) (mem : ℕ → Gf) (k : ℕ) : Prop :=
  ∀ p, st.start k ≤ p → p < st.start (k + 1) → s.written ≤ p →
    mem (p % s.dataBufSize) = st.input p

/-- A byte of a slice is in one of its blocks. -/
theorem exists_block {p : ℕ} (hst : st.Valid) (hle : st.start k ≤ p) (hlt : p < st.start (k + 1)) :
    ∃ b x, b < st.blocks k ∧ x < st.blockSize ∧ b * st.blockSize + x < st.size k ∧
      p = st.start k + b * st.blockSize + x := by
  rw [st.start_succ] at hlt
  have hsplit := Nat.div_add_mod' (p - st.start k) st.blockSize
  have hsize := hst.size_le_blocks k
  refine ⟨(p - st.start k) / st.blockSize, (p - st.start k) % st.blockSize, ?_,
    Nat.mod_lt _ hst.blockSize_pos, by omega, by omega⟩
  rw [Nat.div_lt_iff_lt_mul hst.blockSize_pos]
  omega

/-- The bytes of a slice that the receiver has, or has had, are written, or in the ring, or the
slice is still to be decoded and then they are there. -/
theorem keeps_of_past (hst : st.Valid) (h : (system st defaultMode).Reachable s)
    (hrunning : s.failure = none) (hlt : k < s.started) (hgone : s.Past k) :
    s.Keeps st s.dataBuffer k ∨ (s.slices (k % nrSlices)).state = .fec ∧ ∃ mem blocks,
      decodeSlice s (k % nrSlices) = .ok { s with dataBuffer := mem, blockData := blocks } ∧
        s.Keeps st mem k := by
  have hg := grounded_of_reachable hst h hrunning
  have hstored := (intact_of_reachable hst h hrunning).stored
  by_cases hfreed : s.freed ≤ k
  · have hnear : s.started ≤ k + nrSlices := hg.started_le.trans (by omega)
    have hcomplete := hgone hfreed
    by_cases hfec : (s.slices (k % nrSlices)).state = .fec
    · have hdecodable := hstored.decodable hg hfreed hlt hfec
      obtain ⟨mem, blocks, hok, hrestored, -, -⟩ := hdecodable.restores
      refine .inr ⟨hfec, mem, blocks, hok, fun p hle hend _ => ?_⟩
      obtain ⟨b, x, hb, hx, hsize, rfl⟩ := exists_block hst hle hend
      rw [← hdecodable.cell hx, hrestored b hb x hx hsize, Stream.block, if_pos hsize]
    · refine .inl fun p hle hend hwritten => hstored.ring p ⟨hwritten, .inr ?_⟩
      obtain ⟨b, x, hb, hx, hsize, rfl⟩ := exists_block hst hle hend
      refine ⟨k, b, x, ⟨hfreed, hlt, ?_⟩, hx, hsize, rfl⟩
      cases hstate : (s.slices (k % nrSlices)).state with
      | done => exact .inl ((hg.tracked hlt hnear).received hstate (hg.sliceNo_eq hlt hnear) b hb)
      | fecDone => exact .inr ⟨rfl, hb⟩
      | fec => exact absurd hstate hfec
      | free => simp [hstate, SliceState.complete] at hcomplete
      | receiving => simp [hstate, SliceState.complete] at hcomplete
  · have hreleased := hg.released.le (not_le.mp hfreed)
    rw [← st.start_succ] at hreleased
    exact .inl fun p hle hend hwritten =>
      hstored.ring p ⟨hwritten, .inl (hend.trans_le hreleased)⟩

/-- Without FEC no slice is ever to be decoded: the bytes are written or in the ring. -/
theorem keeps_of_noFec (hst : st.Valid) (hredundancy : st.redundancy = 0)
    (h : (system st defaultMode).Reachable s) (hrunning : s.failure = none) (hlt : k < s.started)
    (hgone : s.Past k) : s.Keeps st s.dataBuffer k := by
  obtain hkeeps | ⟨hfec, -⟩ := keeps_of_past hst h hrunning hlt hgone
  · exact hkeeps
  · have hg := grounded_of_reachable hst h hrunning
    have hstored := (intact_of_reachable hst h hrunning).stored
    obtain ⟨m, hm, hmlt, hslot, -⟩ := hg.slot (i := k % nrSlices) (by simp [hfec])
    rw [hslot] at hfec
    have hdecodable := hstored.decodable hg hm hmlt hfec
    exact absurd hdecodable.redundant (by omega)

/-- What a receiver in default mode has acknowledged, it has written, or has in the ring, or the
slice is still to be decoded, which succeeds and puts the missing bytes there. -/
theorem acknowledged_of_reachable (hst : st.Valid) (h : (system st defaultMode).Reachable s)
    (hrunning : s.failure = none) (hk : .ok k ∈ s.replies) :
    s.Keeps st s.dataBuffer k ∨ (s.slices (k % nrSlices)).state = .fec ∧ ∃ mem blocks,
      decodeSlice s (k % nrSlices) = .ok { s with dataBuffer := mem, blockData := blocks } ∧
        s.Keeps st mem k := by
  obtain ⟨hlt, hgone⟩ := acknowledges_of_reachable h hrunning k hk
  exact keeps_of_past hst h hrunning hlt hgone

/-- The slices that have been acknowledged, the last one first. -/
def State.acknowledged (s : State) : List ℕ :=
  s.replies.filterMap fun msg =>
    match msg with
    | .ok k => some k
    | _ => none

/-- A slice is acknowledged when OK has been sent for it. -/
theorem mem_acknowledged : k ∈ s.acknowledged ↔ .ok k ∈ s.replies := by
  unfold State.acknowledged
  rw [List.mem_filterMap]
  constructor
  · rintro ⟨msg, hmem, heq⟩
    cases msg <;> cases heq
    exact hmem
  · intro hmem
    exact ⟨_, hmem, rfl⟩

/-- The two blocks of the first slice arrive, and then the question about it. -/
def askedFirst : List Action :=
  List.replicate 3 .net ++ schedule [(.data 0 1 2 (threeBytes.dataPayload 0 1), 3),
    (.data 0 0 2 (threeBytes.dataPayload 0 0), 9), (.reqack 0 2 0 ∅, 4)]

/-- The messages are messages of the stream of three bytes. -/
theorem askedFirst_conforms : ∀ a ∈ askedFirst, a.Conforms threeBytes := by
  have hblock : ∀ n b : ℕ, n < threeBytes.cuts.length → b < threeBytes.blocks n →
      threeBytes.Sends (.data n b (threeBytes.size n) (threeBytes.dataPayload n b)) := .data
  intro a ha
  rcases List.mem_append.mp ha with ha | ha
  · obtain ⟨-, rfl⟩ := List.mem_replicate.mp ha
    trivial
  · refine conforms_schedule ?_ a ha
    simp only [List.mem_cons, List.not_mem_nil, or_false, forall_eq_or_imp, forall_eq]
    exact ⟨hblock 0 1 (by decide) (by decide), hblock 0 0 (by decide) (by decide),
      .reqack 0 0 ∅ (by decide)⟩

/-- A slice that is acknowledged before anything is written. -/
theorem acknowledged_of_reachable_three_bytes : ∃ s,
    (system threeBytes defaultMode).Reachable s ∧ s.acknowledged = [0] ∧ s.written = 0 ∧
    (s.Keeps threeBytes s.dataBuffer 0 ∨ (s.slices 0).state = .fec ∧ ∃ mem blocks,
      decodeSlice s 0 = .ok { s with dataBuffer := mem, blockData := blocks } ∧
        s.Keeps threeBytes mem 0) := by
  have hrun : ((start ⟨1, false, true, 0⟩ false (fun _ => .ofNat 0) fun _ _ => .ofNat 0).bind
      fun s => System.perform act s askedFirst).any fun s =>
        s.failure = none ∧ s.acknowledged = [0] ∧ s.written = 0 := by
    decide +kernel
  obtain ⟨s, hs, hlast⟩ := (Option.any_eq_true _ _).mp hrun
  obtain ⟨s₀, hstart, hperform⟩ := Option.bind_eq_some_iff.mp hs
  obtain ⟨hrunning, hacked, hwritten⟩ := of_decide_eq_true hlast
  have hinit : (system threeBytes defaultMode).Init s₀ :=
    ⟨_, _, _, _, ⟨by decide, by decide⟩, rfl, ⟨rfl, rfl⟩, hstart⟩
  have hreach : (system threeBytes defaultMode).Reachable s :=
    ⟨s₀, hinit, System.run_of_perform_in askedFirst_conforms hperform⟩
  have hk : .ok 0 ∈ s.replies := mem_acknowledged.mp (hacked ▸ List.mem_cons_self)
  exact ⟨s, hreach, hacked, hwritten,
    acknowledged_of_reachable threeBytes_valid hreach hrunning hk⟩

end Udpcast.Receiver
