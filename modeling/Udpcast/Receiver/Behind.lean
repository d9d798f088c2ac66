import Udpcast.Receiver.Passed

/-!
# Slices behind the newest ones

In default mode, `findSlice` opens a slice only when all slices up to the one before its predecessor
have been received. So all slices but the last two are complete, however the threads are scheduled.
-/

namespace Udpcast.Receiver

open Queue
open Protocol

/-- The slice that a task is about to open. -/
def Task.opens : Task → Option ℤ
  | .newSlice n | .takeSlot n | .reserve _ n => some n
  | _ => none

/-- Slice `k` has been given back or is complete. -/
def State.Past (s : State) (k : ℕ) : Prop :=
  s.freed ≤ k → (s.slices (k % nrSlices)).state.complete = true

/-- Slice `n` may be opened. -/
def State.Opens (s : State) (n : ℤ) : Prop :=
  n ≤ s.started ∧ n ≤ s.receivedSliceNo + 2 ∧ ∀ k : ℕ, (k : ℤ) + 2 ≤ n → s.Past k

/-- The slices that are known to be complete. -/
structure Behind (s : State) : Prop where
  linked : (∀ pos rest, s.tasks ≠ .advance pos :: rest) → Linked s s.receivedPtr
  received : ∀ k : ℕ, (k : ℤ) ≤ s.receivedSliceNo → s.Past k
  recent : ∀ k, k + 3 ≤ s.started → s.Past k
  window : s.started ≤ s.receivedSliceNo + 5
  opening : ∀ t ∈ s.tasks, ∀ n, t.opens = some n → s.Opens n

variable {st : Stream} {s s' : State} {t : Task} {l rest : List Task} {n : ℤ} {k p pos : ℕ}

/-- What is past stays past if slots that are complete stay complete until they are given back. -/
theorem State.Past.congr (h : s.Past k) (hfreed : s.freed ≤ s'.freed)
    (hcomplete : s'.freed ≤ k → (s.slices (k % nrSlices)).state.complete = true →
      (s'.slices (k % nrSlices)).state.complete = true) : s'.Past k :=
  fun hk => hcomplete hk (h (hfreed.trans hk))

/-- One slot changes, and a complete slice in it stays complete or is given back. -/
theorem State.Past.update {i : ℕ} {x : Slice} (h : s.Past k) (hfreed : s.freed ≤ s'.freed)
    (hslices : s'.slices = Function.update s.slices i x)
    (hcomplete : s'.freed ≤ k → k % nrSlices = i → (s.slices i).state.complete = true →
      x.state.complete = true) : s'.Past k := by
  refine h.congr hfreed fun hk hdone => ?_
  rw [hslices]
  rcases eq_or_ne (k % nrSlices) i with rfl | hne
  · rw [Function.update_self]
    exact hcomplete hk rfl hdone
  · rwa [Function.update_of_ne hne]

/-- Work on a slice does not undo the completion of any slice. -/
theorem State.Past.works {s₀ : State} {i : ℕ} (h : s.Past k) (hw : Works i s₀ s')
    (hslices : s₀.slices = s.slices) (hfreed : s₀.freed = s.freed) : s'.Past k := by
  have hfreed' : s'.freed = s.freed := (congrArg Rest.freed hw.rest_eq).trans hfreed
  refine h.congr hfreed'.ge fun _ hdone => ?_
  rw [← hslices] at hdone
  rcases eq_or_ne (k % nrSlices) i with rfl | hne
  · exact hw.complete hdone
  · rwa [hw.others _ hne]

/-- A slot that is freed is that of the oldest slice. -/
theorem State.Past.free {x : Slice} (h : s.Past k) (hs : Settled st s) (hk : k < s.started)
    (hfreed : s'.freed = s.freed + 1)
    (hslices : s'.slices = Function.update s.slices (s.freed % nrSlices) x) : s'.Past k := by
  have hstarted := hs.started_le
  refine h.update (by omega) hslices fun hle hslot _ => ?_
  exact absurd hslot.symm (mod_slots_ne (by omega) (by omega))

/-- A step of the network thread gives no complete slice up before it gives the slot back. -/
theorem NetMoves.past (hm : NetMoves s t rest s') (hs : Settled st s) (ht : s.tasks = t :: rest)
    (hk : k < s.started) (h : s.Past k) : s'.Past k := by
  cases hm with
  | restart hcurrent hlt hstreaming hinit =>
    rw [hs.plain.notStreaming] at hstreaming
    cases hstreaming
  | @reserve n i m _ s₁ hmem hinit =>
    obtain ⟨hallocated, rfl⟩ := hs.window.stack.reserved i (by rw [ht]; rfl)
    obtain ⟨-, -, -, guess, -, rfl⟩ := initSlice_ok hinit
    have hroom := hs.window.slots.allocated_le
    refine h.update le_rfl rfl fun hfreed hslot _ => ?_
    have hfreed : s.freed ≤ k := hfreed
    exact absurd hslot (mod_slots_ne (by omega) (by omega))
  | takeSlot => exact h.update le_rfl rfl fun _ _ hdone => hdone
  | force hfound hforce => exact h.works (completeByForce_works hforce).1 rfl rfl
  | process hprocess =>
    obtain ⟨i, -, hw, -⟩ := process_works_found hprocess
    exact h.works hw rfl rfl
  | reuse hlocal hfinish => exact h.works (finishFecBlock_works hfinish).1 rfl rfl
  | takeBlock hfinish => exact h.works (finishFecBlock_works hfinish).1 rfl rfl
  | release hpos hstate hclean =>
    obtain ⟨-, hslot, -⟩ | ⟨_, _, -, -, -, -, ⟨-, rfl⟩ | ⟨-, q, -, rfl⟩⟩ := cleanupSlices_ok hclean
    · cases hslot
    · exact h
    · exact h
  | @freeSlot pos bytes _ s₁ hfree =>
    obtain ⟨rfl, -, -⟩ := hs.window.stack.netFrees pos bytes rest ht
    obtain ⟨q, -, rfl⟩ := freeSlot_ok hfree
    exact h.free hs hk rfl rfl
  | advanceFirst hadvance | advance hadvance =>
    subst hadvance
    unfold Receiver.advance
    split <;> exact h
  | _ => exact h

/-- The FEC thread completes decoding, and gives back slots. -/
theorem FecMoves.past (hm : FecMoves s s') (hs : Settled st s) (hk : k < s.started)
    (h : s.Past k) : s'.Past k := by
  cases hm with
  | takeDone hpc hi hstate => exact h.update le_rfl rfl fun _ _ _ => rfl
  | decode hpc hdecode => exact h.update le_rfl rfl fun _ _ _ => rfl
  | freeBlock => exact h.update le_rfl rfl fun _ _ hdone => hdone
  | releaseSlice hpc hpos hstate hclean =>
    obtain ⟨-, hslot, -⟩ | ⟨_, _, -, -, -, -, ⟨-, rfl⟩ | ⟨-, q, -, rfl⟩⟩ := cleanupSlices_ok hclean
    · cases hslot
    · exact h
    · exact h
  | @freeSlot pos bytes s₁ hpc hfree =>
    obtain ⟨rfl, -, -⟩ := hs.window.slots.fecFrees pos bytes hpc
    obtain ⟨q, -, rfl⟩ := freeSlot_ok hfree
    exact h.free hs hk rfl rfl
  | _ => exact h

/-- The pointer is behind the newest slice. -/
theorem Behind.received_lt (h : Behind s) (hs : Settled st s) : s.receivedSliceNo < s.started := by
  obtain ⟨p, hlinked⟩ : ∃ p, Linked s p := by
    by_cases hadvance : ∃ pos tl, s.tasks = .advance pos :: tl
    · obtain ⟨pos, tl, htl⟩ := hadvance
      exact ⟨pos, (hs.pointer.advancing pos tl htl).2⟩
    · exact ⟨_, h.linked fun pos tl htl => hadvance ⟨pos, tl, htl⟩⟩
  obtain ⟨k, hk, -, hrsn⟩ := hs.linked_iff.mp hlinked
  omega

/-- A step that does not move the pointer and starts no slice. -/
theorem Behind.goOn (h : Behind s) (hs : Settled st s) (htasks : s'.tasks = l ++ rest)
    (hrest : ∀ y ∈ rest, y ∈ s.tasks)
    (hl : ∀ y ∈ l, ∀ n, y.opens = some n → s.Opens n)
    (hlinked : (∀ pos rest, s'.tasks ≠ .advance pos :: rest) → Linked s' s'.receivedPtr)
    (hrsn : s'.receivedSliceNo = s.receivedSliceNo) (hstarted : s'.started = s.started)
    (hpast : ∀ k < s.started, s.Past k → s'.Past k) : Behind s' := by
  have hlt := h.received_lt hs
  refine ⟨hlinked, ?_, ?_, ?_, ?_⟩
  · intro k hk
    rw [hrsn] at hk
    exact hpast k (by omega) (h.received k hk)
  · intro k hk
    rw [hstarted] at hk
    exact hpast k (by omega) (h.recent k hk)
  · rw [hstarted, hrsn]
    exact h.window
  · intro y hy n hn
    rw [htasks] at hy
    obtain ⟨hle, hnext, hall⟩ : s.Opens n := by
      rcases List.mem_append.mp hy with hy | hy
      · exact hl y hy n hn
      · exact h.opening y (hrest y hy) n hn
    refine ⟨hstarted ▸ hle, hrsn ▸ hnext, fun k hk => hpast k (by omega) (hall k hk)⟩

/-- The same for a step of the network thread whose task does not belong to the loop. -/
theorem Behind.quiet (h : Behind s) (hs : Settled st s) (hm : NetMoves s t rest s')
    (ht : s.tasks = t :: rest) (hadvances : t.advances = false) (htasks : s'.tasks = l ++ rest)
    (hl : ∀ y ∈ l, ∀ n, y.opens = some n → s.Opens n)
    (hptr : s'.receivedPtr = s.receivedPtr) (hstarted : s'.started = s.started)
    (hcsn : s'.currentSliceNo = s.currentSliceNo) : Behind s' := by
  have hrsn := hm.receivedSliceNo hadvances
  refine h.goOn hs htasks ?_ hl ?_ hrsn hstarted fun k hk hpast => hm.past hs ht hk hpast
  · intro y hy
    rw [ht]
    exact List.mem_cons_of_mem _ hy
  · intro _
    rw [hptr]
    refine (h.linked ?_).mono hrsn hstarted.ge (by rw [hstarted, hcsn])
    intro pos tl heq
    obtain rfl := (List.cons.inj (ht.symm.trans heq)).1
    cases hadvances

/-- No task waits for the opening of a slice to begin. -/
theorem opens_rest (hchain : (t :: rest).IsChain Follows) : ∀ y ∈ rest, y.opens = none := by
  induction rest generalizing t with
  | nil =>
    intro y hy
    cases hy
  | cons x rest ih =>
    obtain ⟨hfollows, hchain⟩ := List.isChain_cons_cons.mp hchain
    intro y hy
    rcases List.mem_cons.mp hy with rfl | hy
    · cases y <;> first | rfl | exact hfollows.elim
    · exact ih hchain y hy

/-- A turn of the loop of `advanceReceivedPointer`. -/
theorem Behind.turn (h : Behind s) (hs : Settled st s) (ht : s.tasks = t :: rest)
    (hlinked : Linked s p) (hs' : s' = Receiver.advance (s.popped rest) p) : Behind s' := by
  obtain ⟨k, hk, rfl, hrsn⟩ := hs.linked_iff.mp hlinked
  have hclosed := opens_rest (ht ▸ hs.window.stack.chain)
  have hwindow := h.window
  have hstarted := hs.started_le
  subst hs'
  unfold Receiver.advance
  split
  · rename_i hdone
    have hdone : (s.slices (k % nrSlices)).state.complete = true := hdone
    -- When all slots are complete, the loop meets the oldest slice once more.
    obtain ⟨j, hj, hjlt, hslot, -⟩ := hs.window.slots.inUse hs.queue.beyond (i := k % nrSlices) (by
      intro hfree
      rw [hfree] at hdone
      cases hdone)
    have hno : (s.slices (k % nrSlices)).sliceNo = j := by
      rw [hslot]
      exact hs.sliceNo_eq hjlt (by omega)
    have hle : j ≤ k ∧ k ≤ j + nrSlices := by
      simp only [nrSlices] at hslot hstarted ⊢
      omega
    refine ⟨fun hall => absurd rfl (hall _ _), ?_, h.recent, ?_, ?_⟩
    · intro m hm
      have hm : (m : ℤ) ≤ (s.slices (k % nrSlices)).sliceNo := hm
      rcases eq_or_ne m j with rfl | hne
      · intro _
        exact hslot ▸ hdone
      · exact h.received m (by omega)
    · show (s.started : ℤ) ≤ (s.slices (k % nrSlices)).sliceNo + 5
      simp only [nrSlices] at hstarted hslot hle
      omega
    · intro y hy n hn
      rcases List.mem_cons.mp hy with rfl | hy
      · cases hn
      · rw [hclosed y hy] at hn
        cases hn
  · refine ⟨fun _ => hlinked, h.received, h.recent, h.window, ?_⟩
    intro y hy n hn
    rw [hclosed y hy] at hn
    cases hn

/-- Work on a slice opens none. -/
theorem Leaves.opens {s₀ : State} {i : ℕ} (h : Leaves i s₀ s') :
    ∃ l, s'.tasks = l ++ s₀.tasks ∧ ∀ y ∈ l, y.opens = none := by
  obtain ⟨l, htasks, hl⟩ := h.left
  refine ⟨l, htasks, fun y hy => ?_⟩
  rcases hl with rfl | hl
  · obtain rfl := List.mem_singleton.mp hy
    rfl
  · have hleft := hl y hy
    cases y <;> first | rfl | exact hleft.elim

/-- Work on a slice may leave `advanceReceivedPointer` behind, which then moves the pointer. -/
theorem Behind.worked {s₀ : State} {i : ℕ} (h : Behind s) (hs : Settled st s)
    (hm : NetMoves s t rest s') (ht : s.tasks = t :: rest) (hadvances : t.advances = false)
    (hw : Works i s₀ s') (hleaves : Leaves i s₀ s') (htasks : s₀.tasks = rest)
    (hptr : s₀.receivedPtr = s.receivedPtr) (hstarted : s₀.started = s.started)
    (hcsn : s₀.currentSliceNo = s.currentSliceNo) : Behind s' := by
  obtain ⟨l, hl, hnone⟩ := hleaves.opens
  refine h.quiet hs hm ht hadvances (htasks ▸ hl) ?_
    ((congrArg Rest.receivedPtr hw.rest_eq).trans hptr)
    ((congrArg Rest.started hw.rest_eq).trans hstarted)
    ((congrArg Rest.currentSliceNo hw.rest_eq).trans hcsn)
  intro y hy n hn
  rw [hnone y hy] at hn
  cases hn

/-- The network thread opens a slice only after all but the last two before it are complete. -/
theorem Behind.netMoves (h : Behind s) (hs : Settled st s) (hm : NetMoves s t rest s')
    (ht : s.tasks = t :: rest) : Behind s' := by
  have hnone : ∀ {y : Task} {n : ℤ}, y.opens = none → y.opens = some n → s.Opens n := by
    intro y n hy hn
    rw [hy] at hn
    cases hn
  have hstay : ∀ {l : List Task}, t.advances = false → (∀ y ∈ l, y.opens = none) →
      s'.tasks = l ++ rest → s'.receivedPtr = s.receivedPtr → s'.started = s.started →
      s'.currentSliceNo = s.currentSliceNo → Behind s' := by
    intro l hadvances hl htasks hptr hstarted hcsn
    exact h.quiet hs hm ht hadvances htasks (fun y hy n hn => hnone (hl y hy) hn) hptr hstarted hcsn
  have hgo : ∀ {x : Task}, t.advances = false → (∀ n, x.opens = some n → s.Opens n) →
      s'.tasks = x :: rest → s'.receivedPtr = s.receivedPtr → s'.started = s.started →
      s'.currentSliceNo = s.currentSliceNo → Behind s' := by
    intro x hadvances hx htasks hptr hstarted hcsn
    refine h.quiet hs hm ht hadvances (l := [x]) htasks (fun y hy n hn => ?_) hptr hstarted hcsn
    obtain rfl := List.mem_singleton.mp hy
    exact hx n hn
  have hopening : ∀ n, t.opens = some n → s.Opens n := h.opening t (ht ▸ List.mem_cons_self)
  cases hm with
  | join hcurrent =>
    exfalso
    have hzero : s.started = 0 := by
      by_contra hne
      rw [hs.window.slots.current, if_neg hne] at hcurrent
      cases hcurrent
    obtain ⟨-, x, htasks, hx⟩ := hs.pointer.opening hs.plain.notStreaming hzero
    obtain rfl := (List.cons.inj (ht.symm.trans htasks)).1
    rcases hx with hx | hx | ⟨j, hx⟩ <;> cases hx
  | restart hcurrent hlt hstreaming hinit =>
    rw [hs.plain.notStreaming] at hstreaming
    cases hstreaming
  | lookBack | lookAhead | scanOn | waitForBlock | toCleanup =>
    exact hgo rfl (fun n hn => hnone rfl hn) rfl rfl rfl rfl
  | scanFound => exact hstay (l := []) rfl (by simp) rfl rfl rfl rfl
  | scanFree => exact hstay (l := []) rfl (by simp) rfl rfl rfl rfl
  | behind hbehind hignore =>
    rw [hs.plain.keepsData] at hignore
    cases hignore
  | @lost n _ hbehind hignore =>
    exact hstay (l := [.findSlice (s.receivedSliceNo + 1), .dropped, .catchUp n]) rfl
      (by simp [Task.opens]) rfl rfl rfl rfl
  | @caughtUp n _ hle hnext =>
    refine hgo rfl (fun m hm => ?_) rfl rfl rfl rfl
    obtain rfl := Option.some.inj hm
    have hnumbered := hs.plain.numbered
    exact ⟨by omega, hle, fun k hk => h.received k (by omega)⟩
  | fake => cases hs.plain.noFake _ (ht ▸ List.mem_cons_self)
  | force => cases hs.plain.noFake _ (ht ▸ List.mem_cons_self)
  | @newSlice n => exact hgo (x := .takeSlot n) rfl hopening rfl rfl rfl rfl
  | @takeSlot n i => exact hgo (x := .reserve i n) rfl hopening rfl rfl rfl rfl
  | @reserve n i m _ s₁ hmem hinit =>
    obtain ⟨hstarted, hnext, hall⟩ := hopening n rfl
    have hpast := fun k hk hpast => NetMoves.past (.reserve hmem hinit) hs ht (k := k) hk hpast
    have hclosed := opens_rest (ht ▸ hs.window.stack.chain)
    have hlinked := h.linked (by rw [ht]; simp)
    have hlt := h.received_lt hs
    obtain ⟨-, -, hcsn, guess, -, rfl⟩ := initSlice_ok hinit
    have hcsn : s.currentSliceNo = n - 1 := hcsn hs.plain.notStreaming
    have hnumbered := hs.plain.numbered
    refine ⟨fun _ => ?_, ?_, ?_, ?_, ?_⟩
    · refine hlinked.mono rfl (Nat.le_succ _) ?_
      show n - ((s.started + 1 : ℕ) : ℤ) = s.currentSliceNo - s.started
      omega
    · intro k hk
      have hk : (k : ℤ) ≤ s.receivedSliceNo := hk
      exact hpast k (by omega) (h.received k hk)
    · intro k hk
      have hk : k + 3 ≤ s.started + 1 := hk
      exact hpast k (by omega) (hall k (by omega))
    · show ((s.started + 1 : ℕ) : ℤ) ≤ s.receivedSliceNo + 5
      omega
    · intro y hy m hm
      rw [hclosed y hy] at hm
      cases hm
  | process hprocess =>
    obtain ⟨i, -, hw, hleaves⟩ := process_works_found hprocess
    exact h.worked hs (.process hprocess) ht rfl hw hleaves rfl rfl rfl rfl
  | reuse hlocal hfinish =>
    obtain ⟨hw, hleaves⟩ := finishFecBlock_works hfinish
    exact h.worked hs (.reuse hlocal hfinish) ht rfl hw hleaves rfl rfl rfl rfl
  | takeBlock hfinish =>
    obtain ⟨hw, hleaves⟩ := finishFecBlock_works hfinish
    exact h.worked hs (.takeBlock hfinish) ht rfl hw hleaves rfl rfl rfl rfl
  | advanceFirst hadvance => exact h.turn hs ht (h.linked (by rw [ht]; simp)) hadvance
  | @advance pos _ _ hadvance => exact h.turn hs ht (hs.pointer.advancing pos rest ht).2 hadvance
  | enqueue => exact hstay (l := []) rfl (by simp) rfl rfl rfl rfl
  | cleaned => exact hstay (l := []) rfl (by simp) rfl rfl rfl rfl
  | @release pos bytes _ s₁ hpos hstate hclean =>
    have hrelease := hclean
    obtain ⟨-, hslot, -⟩ | ⟨_, _, -, -, -, -, ⟨-, rfl⟩ | ⟨-, q, -, rfl⟩⟩ := cleanupSlices_ok hclean
    · cases hslot
    · exact hgo rfl (fun n hn => hnone rfl hn) rfl rfl rfl rfl
    · exact hgo rfl (fun n hn => hnone rfl hn) rfl rfl rfl rfl
  | freeSlot hfree =>
    obtain ⟨q, -, rfl⟩ := freeSlot_ok hfree
    exact hgo rfl (fun n hn => hnone rfl hn) rfl rfl rfl rfl

/-- The FEC thread opens no slice. -/
theorem Behind.fecMoves (h : Behind s) (hs : Settled st s) (hm : FecMoves s s') : Behind s' := by
  obtain ⟨htasks, -, -, hptr, hrsn, hstarted, hcsn, -, -⟩ := hm.frame
  refine h.goOn hs (l := []) htasks (fun y hy => hy) (by simp) (fun hall => ?_) hrsn hstarted
    fun k hk hpast => hm.past hs hk hpast
  rw [hptr]
  exact (h.linked (htasks ▸ hall)).mono hrsn hstarted.ge (by rw [hstarted, hcsn])

/-- So every move keeps the slices behind complete. -/
theorem Behind.moves {a : Action} (h : Behind s) (hs : Settled st s) (hm : Moves s a s') :
    Behind s' := by
  cases hm with
  | @receive msg mem blocks hidle hend =>
    refine h.goOn hs (l := dispatch msg) (List.append_nil _).symm (by simp) ?_
      (fun _ => h.linked (by simp [hidle])) rfl rfl fun k _ hpast => hpast
    intro y hy n hn
    cases msg <;> simp [dispatch] at hy <;> rcases hy with rfl | rfl <;> cases hn
  | exitWait => exact ⟨h.linked, h.received, h.recent, h.window, h.opening⟩
  | net ht hm => exact h.netMoves hs hm ht
  | fec hm => exact h.fecMoves hs hm
  | writer hm => cases hm <;> exact ⟨h.linked, h.received, h.recent, h.window, h.opening⟩

/-- This holds as long as the receiver runs. -/
theorem behind_of_reachable (h : (system st defaultMode).Reachable s)
    (hrunning : s.failure = none) : Behind s := by
  refine running_of_reachable (fun _ hs hrun => settled_of_reachable hs hrun) ?_
    (fun _ _ _ hs hbehind _ hm => hbehind.moves hs hm) h hrunning
  rintro s ⟨config, streaming, mem, blockData, -, -, ⟨-, rfl⟩, hstart⟩
  obtain ⟨_, _, _, -, -, -, rfl⟩ := start_eq hstart
  refine ⟨fun _ => ⟨0, le_rfl, rfl, rfl⟩, ?_, ?_, ?_, ?_⟩
  · intro k hk
    dsimp only at hk
    omega
  · intro k hk
    cases hk
  · show ((0 : ℕ) : ℤ) ≤ -1 + 5
    decide
  · intro y hy n hn
    obtain rfl := List.mem_singleton.mp hy
    obtain rfl := Option.some.inj hn
    refine ⟨le_rfl, ?_, fun k hk => ?_⟩
    · show (0 : ℤ) ≤ -1 + 2
      decide
    · omega

end Udpcast.Receiver
