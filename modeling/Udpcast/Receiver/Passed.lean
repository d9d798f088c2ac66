import Udpcast.Receiver.OldSlices

/-!
# The pointer of received slices

In default mode, as long as `advanceReceivedPointer` finds a slot that is not complete whenever it
is entered: the slices behind the pointer are complete, no slice in front of it has been given
back, and the slice at the pointer is incomplete unless the pointer is about to pass it.
-/

namespace Udpcast.Receiver

open Queue
open Protocol

/-- A slot in which `advanceReceivedPointer` stops. -/
def Spare (s : State) : Prop := ∃ i < nrSlices, (s.slices i).state.complete = false

/-- `advanceReceivedPointer` is entered only when there is such a slot. -/
def EntersSpare (s _ : State) : Prop :=
  ∀ rest, s.tasks = .advanceReceivedPointer :: rest → Spare s

/-- What is behind the pointer, and what is at it. -/
structure Passed (s : State) : Prop where
  linked : (∀ pos rest, s.tasks ≠ .advance pos :: rest) → Linked s s.receivedPtr
  freed_le : (s.freed : ℤ) ≤ s.receivedSliceNo + 1
  complete : ∀ k : ℕ, s.freed ≤ k → (k : ℤ) ≤ s.receivedSliceNo →
    (s.slices (k % nrSlices)).state.complete = true
  idle : (∀ t rest, s.tasks = t :: rest → t.advances = false) →
    (s.slices s.receivedPtr).state.complete = false
  entering : ∀ rest, s.tasks = .advanceReceivedPointer :: rest →
    (s.slices s.receivedPtr).state.complete = false ∨ ∃ tl, rest = .handOver s.receivedPtr :: tl
  advancing : ∀ pos rest, s.tasks = .advance pos :: rest → Spare s ∧
    ∃ k tl, rest = .handOver (k % nrSlices) :: tl ∧ s.freed ≤ k ∧ (k : ℤ) ≤ s.receivedSliceNo

variable {st : Stream} {s s' : State} {t : Task} {rest : List Task} {n : ℤ} {k p pos : ℕ}

/-- In default mode, the pointer is at the slice after `receivedSliceNo`. -/
theorem Settled.linked_iff (hs : Settled st s) :
    Linked s p ↔ ∃ k ≤ s.started, p = k % nrSlices ∧ s.receivedSliceNo + 1 = k := by
  have hnumbered := hs.plain.numbered
  unfold Linked
  refine exists_congr fun k => and_congr_right fun _ => and_congr_right fun _ => ?_
  omega

/-- The two tasks of `advanceReceivedPointer`. -/
theorem advances_iff : t.advances = true ↔ t = .advanceReceivedPointer ∨ ∃ pos, t = .advance pos := by
  cases t <;> simp [Task.advances]

/-- No task waits above a turn of the loop. -/
theorem noAdvance_rest (hchain : (t :: rest).IsChain Follows) (pos : ℕ) (tl : List Task) :
    rest ≠ .advance pos :: tl := by
  rintro rfl
  exact (List.isChain_cons_cons.mp hchain).1

/-- A step that does not move the pointer, by a task that does not belong to the loop. -/
theorem Passed.calm (h : Passed s) (ht : s.tasks = t :: rest) (hadvances : t.advances = false)
    (hlinked : Linked s s.receivedPtr → Linked s' s'.receivedPtr)
    (hrsn : s'.receivedSliceNo = s.receivedSliceNo) (hptr : s'.receivedPtr = s.receivedPtr)
    (hfreed : s'.freed = s.freed)
    (hcomplete : ∀ k : ℕ, s.freed ≤ k → (k : ℤ) ≤ s.receivedSliceNo →
      (s.slices (k % nrSlices)).state.complete = true →
        (s'.slices (k % nrSlices)).state.complete = true)
    (hidle : (s.slices s.receivedPtr).state.complete = false →
      (s'.slices s.receivedPtr).state.complete = false)
    (htasks : ∀ pos tl, s'.tasks ≠ .advance pos :: tl) : Passed s' := by
  have hbefore : (s.slices s.receivedPtr).state.complete = false := by
    apply h.idle
    intro x tl hx
    obtain rfl := (List.cons.inj (ht.symm.trans hx)).1
    exact hadvances
  have hafter : (s'.slices s'.receivedPtr).state.complete = false := hptr ▸ hidle hbefore
  have hplace : Linked s s.receivedPtr := by
    apply h.linked
    intro pos tl heq
    obtain rfl := (List.cons.inj (ht.symm.trans heq)).1
    cases hadvances
  refine ⟨fun _ => hlinked hplace, ?_, ?_, fun _ => hafter, fun _ _ => .inl hafter, ?_⟩
  · rw [hfreed, hrsn]
    exact h.freed_le
  · intro k hk hle
    rw [hfreed] at hk
    rw [hrsn] at hle
    exact hcomplete k hk hle (h.complete k hk hle)
  · intro pos tl heq
    exact absurd heq (htasks pos tl)

/-- The same for a step that leaves the states of all slots alone. -/
theorem Passed.quiet (h : Passed s) (ht : s.tasks = t :: rest) (hadvances : t.advances = false)
    (hplaces : s'.receivedSliceNo = s.receivedSliceNo ∧ s'.receivedPtr = s.receivedPtr ∧
      s'.freed = s.freed ∧ s'.started = s.started ∧ s'.currentSliceNo = s.currentSliceNo)
    (hstates : ∀ j, (s'.slices j).state = (s.slices j).state)
    (htasks : ∀ pos tl, s'.tasks ≠ .advance pos :: tl) : Passed s' := by
  obtain ⟨hrsn, hptr, hfreed, hstarted, hcsn⟩ := hplaces
  refine h.calm ht hadvances (fun hlinked => ?_) hrsn hptr hfreed ?_ ?_ htasks
  · rw [hptr]
    exact hlinked.mono hrsn hstarted.ge (by rw [hstarted, hcsn])
  · intro k _ _ hk
    rwa [hstates]
  · intro hptr
    rwa [hstates]

/-- Work on a slice: if it completes the slice, the loop follows. -/
theorem Passed.worked {s₀ : State} {i : ℕ} (h : Passed s) (hs : Settled st s)
    (ht : s.tasks = t :: rest) (hadvances : t.advances = false) (hw : Works i s₀ s')
    (hleaves : Leaves i s₀ s')
    (hbefore : s₀.receivedSliceNo = s.receivedSliceNo ∧ s₀.receivedPtr = s.receivedPtr ∧
      s₀.freed = s.freed ∧ s₀.started = s.started ∧ s₀.currentSliceNo = s.currentSliceNo)
    (hslices : s₀.slices = s.slices) (htasks : s₀.tasks = rest) : Passed s' := by
  obtain ⟨hrsn, hptr, hfreed, hstarted, hcsn⟩ := hbefore
  have hrsn' : s'.receivedSliceNo = s.receivedSliceNo :=
    (congrArg Rest.receivedSliceNo hw.rest_eq).trans hrsn
  have hptr' : s'.receivedPtr = s.receivedPtr := (congrArg Rest.receivedPtr hw.rest_eq).trans hptr
  have hfreed' : s'.freed = s.freed := (congrArg Rest.freed hw.rest_eq).trans hfreed
  have hstarted' : s'.started = s.started := (congrArg Rest.started hw.rest_eq).trans hstarted
  have hcsn' : s'.currentSliceNo = s.currentSliceNo :=
    (congrArg Rest.currentSliceNo hw.rest_eq).trans hcsn
  have hothers : ∀ j, j ≠ i → (s'.slices j).state = (s.slices j).state := by
    intro j hj
    rw [hw.others j hj, hslices]
  have hchain : (t :: rest).IsChain Follows := ht ▸ hs.window.stack.chain
  have hrest := noAdvance_rest hchain
  have hunchanged : (s'.slices i).state = (s₀.slices i).state →
      ∀ j, (s'.slices j).state = (s.slices j).state := by
    intro hstate j
    rcases eq_or_ne j i with rfl | hj
    · rw [hstate, hslices]
    · exact hothers j hj
  cases hleaves with
  | waits heq hstate =>
    apply h.quiet ht hadvances ⟨hrsn', hptr', hfreed', hstarted', hcsn'⟩ (hunchanged hstate)
    rw [heq]
    simp
  | @unchanged l heq hl hstate =>
    apply h.quiet ht hadvances ⟨hrsn', hptr', hfreed', hstarted', hcsn'⟩ (hunchanged hstate)
    rw [heq, htasks]
    intro pos tl hcontra
    cases l with
    | nil => exact hrest pos tl hcontra
    | cons x l =>
      obtain rfl := (List.cons.inj hcontra).1
      exact hl _ List.mem_cons_self
  | @completed l heq hl hreceiving hdone =>
    have hplace : Linked s s.receivedPtr := by
      apply h.linked
      intro pos tl hcontra
      obtain rfl := (List.cons.inj (ht.symm.trans hcontra)).1
      cases hadvances
    have hidle : (s.slices s.receivedPtr).state.complete = false := by
      apply h.idle
      intro x tl hx
      obtain rfl := (List.cons.inj (ht.symm.trans hx)).1
      exact hadvances
    refine ⟨fun _ => ?_, ?_, ?_, fun hall => ?_, fun tl htl => ?_, fun pos tl htl => ?_⟩
    · rw [hptr']
      exact hplace.mono hrsn' hstarted'.ge (by rw [hstarted', hcsn'])
    · rw [hfreed', hrsn']
      exact h.freed_le
    · intro k hk hle
      rw [hfreed'] at hk
      rw [hrsn'] at hle
      rcases eq_or_ne (k % nrSlices) i with rfl | hne
      · exact hdone
      · rw [hothers _ hne]
        exact h.complete k hk hle
    · cases hall _ _ heq
    · rw [heq] at htl
      rcases eq_or_ne i s.receivedPtr with rfl | hne
      · exact .inr ⟨_, hptr' ▸ (List.cons.inj htl).2.symm⟩
      · rw [hptr', hothers _ hne.symm]
        exact .inl hidle
    · rw [heq] at htl
      cases htl

/-- While some slot is not complete, the loop meets no slot of a slice behind the pointer. -/
theorem Passed.ahead (h : Passed s) (hs : Settled st s) (hspare : Spare s) (hk : k ≤ s.started)
    (hrsn : s.receivedSliceNo + 1 = k)
    (hdone : (s.slices (k % nrSlices)).state.complete = true) : k < s.started := by
  by_contra hge
  have hlast : k = s.started := le_antisymm hk (not_lt.mp hge)
  have hstarted := hs.started_le
  have hfull : s.started = s.freed + nrSlices := by
    by_contra hroom
    have hfree := hs.window.slots.free k hlast.ge (by omega)
    rw [hfree] at hdone
    cases hdone
  obtain ⟨i, hi, hstate⟩ := hspare
  have hslot : (s.freed + (i + nrSlices - s.freed % nrSlices) % nrSlices) % nrSlices = i := by
    simp only [nrSlices] at hi ⊢
    omega
  have hlt : (i + nrSlices - s.freed % nrSlices) % nrSlices < nrSlices := Nat.mod_lt _ (by decide)
  have hcomplete := h.complete (s.freed + (i + nrSlices - s.freed % nrSlices) % nrSlices)
    (Nat.le_add_right ..) (by push_cast; omega)
  rw [hslot, hstate] at hcomplete
  cases hcomplete

/-- A turn of the loop. -/
theorem Passed.turn (h : Passed s) (hs : Settled st s) (ht : s.tasks = t :: rest)
    (hlinked : Linked s p) (hspare : Spare s)
    (hhand : (s.slices p).state.complete = true → ∃ k tl,
      rest = .handOver (k % nrSlices) :: tl ∧ s.freed ≤ k ∧ (k : ℤ) ≤ s.receivedSliceNo + 1)
    (hs' : s' = Receiver.advance (s.popped rest) p) :
    Passed s' ∧ s.receivedSliceNo ≤ s'.receivedSliceNo := by
  have hchain : (t :: rest).IsChain Follows := ht ▸ hs.window.stack.chain
  obtain ⟨k, hk, rfl, hrsn⟩ := hs.linked_iff.mp hlinked
  have hfreed := h.freed_le
  subst hs'
  unfold Receiver.advance
  split
  · rename_i hdone
    have hdone : (s.slices (k % nrSlices)).state.complete = true := hdone
    have hlt := h.ahead hs hspare hk hrsn hdone
    have hstarted := hs.started_le
    have hno : (s.slices (k % nrSlices)).sliceNo = k := hs.sliceNo_eq hlt (by omega)
    refine ⟨⟨fun hall => ?_, ?_, ?_, fun hall => ?_, fun tl htl => ?_, fun pos tl htl => ?_⟩, ?_⟩
    · exact absurd rfl (hall _ _)
    · show (s.freed : ℤ) ≤ (s.slices (k % nrSlices)).sliceNo + 1
      omega
    · intro j hj hle
      have hle : (j : ℤ) ≤ (s.slices (k % nrSlices)).sliceNo := hle
      rcases eq_or_ne j k with rfl | hne
      · exact hdone
      · exact h.complete j hj (by omega)
    · cases hall _ _ rfl
    · cases (List.cons.inj htl).1
    · obtain ⟨j, tl', hrest, hj, hle⟩ := hhand hdone
      refine ⟨hspare, j, tl', (List.cons.inj htl).2.symm.trans hrest, hj, ?_⟩
      show (j : ℤ) ≤ (s.slices (k % nrSlices)).sliceNo
      omega
    · show s.receivedSliceNo ≤ (s.slices (k % nrSlices)).sliceNo
      omega
  · rename_i hdone
    have hdone : (s.slices (k % nrSlices)).state.complete = false := Bool.not_eq_true _ ▸ hdone
    refine ⟨⟨fun _ => hlinked, hfreed, h.complete, fun _ => hdone, fun _ _ => .inl hdone, ?_⟩, le_rfl⟩
    intro pos tl htl
    exact absurd htl (noAdvance_rest hchain pos tl)

/-- The network thread frees a slot: one behind the pointer. -/
theorem Passed.freeSlot {bytes : ℕ} (h : Passed s) (hs : Settled st s)
    (ht : s.tasks = .freeSlot pos bytes :: rest)
    (hok : Receiver.freeSlot (s.popped rest) pos bytes = .ok s') :
    Passed { s' with tasks := .cleanup :: rest } := by
  obtain ⟨hpos, hlt, hdone⟩ := hs.window.stack.netFrees pos bytes rest ht
  obtain ⟨q, -, rfl⟩ := freeSlot_ok hok
  have hidle : (s.slices s.receivedPtr).state.complete = false := by
    apply h.idle
    intro x tl hx
    obtain rfl := (List.cons.inj (ht.symm.trans hx)).1
    rfl
  have hplace : Linked s s.receivedPtr := by
    apply h.linked
    intro p tl hx
    cases (List.cons.inj (ht.symm.trans hx)).1
  obtain ⟨k, hk, hptr, hrsn⟩ := hs.linked_iff.mp hplace
  have hfreed := h.freed_le
  have hne : s.freed ≠ k := by
    rintro rfl
    rw [hptr, ← hpos, hdone] at hidle
    cases hidle
  have hstill : (Function.update s.slices pos { s.slices pos with state := .free }
      s.receivedPtr).state.complete = false := by
    rcases eq_or_ne s.receivedPtr pos with heq | hnot
    · rw [heq, Function.update_self]
      rfl
    · rw [Function.update_of_ne hnot]
      exact hidle
  refine ⟨fun _ => hplace, ?_, ?_, fun _ => hstill, fun _ _ => .inl hstill, fun p tl htl => ?_⟩
  · show ((s.freed + 1 : ℕ) : ℤ) ≤ s.receivedSliceNo + 1
    omega
  · intro j hj hle
    have hj : s.freed + 1 ≤ j := hj
    have hle : (j : ℤ) ≤ s.receivedSliceNo := hle
    have hstarted := hs.started_le
    have hother : j % nrSlices ≠ pos := by
      rw [hpos]
      exact (mod_slots_ne (by omega) (by omega)).symm
    show (Function.update s.slices pos _ (j % nrSlices)).state.complete = true
    rw [Function.update_of_ne hother]
    exact h.complete j (by omega) hle
  · cases (List.cons.inj htl).1

/-- A step of the network thread keeps `receivedSliceNo` unless it is a turn of the loop. -/
theorem NetMoves.receivedSliceNo (hm : NetMoves s t rest s') (hadvances : t.advances = false) :
    s'.receivedSliceNo = s.receivedSliceNo := by
  have hworks : ∀ {s₀ i}, Works i s₀ s' → s₀.receivedSliceNo = s.receivedSliceNo →
      s'.receivedSliceNo = s.receivedSliceNo := fun hw hrsn =>
    (congrArg Rest.receivedSliceNo hw.rest_eq).trans hrsn
  cases hm with
  | restart hcurrent hlt hstreaming hinit | reserve hmem hinit =>
    obtain ⟨-, -, -, guess, -, rfl⟩ := initSlice_ok hinit
    rfl
  | force hfound hforce => exact hworks (completeByForce_works hforce).1 rfl
  | process hprocess =>
    obtain ⟨i, -, hw, -⟩ := process_works_found hprocess
    exact hworks hw rfl
  | reuse hlocal hfinish => exact hworks (finishFecBlock_works hfinish).1 rfl
  | takeBlock hfinish => exact hworks (finishFecBlock_works hfinish).1 rfl
  | release hpos hstate hclean =>
    obtain ⟨-, hslot, -⟩ | ⟨_, _, -, -, -, -, ⟨-, rfl⟩ | ⟨-, q, -, rfl⟩⟩ := cleanupSlices_ok hclean
    · cases hslot
    · rfl
    · rfl
  | freeSlot hfree =>
    obtain ⟨q, -, rfl⟩ := freeSlot_ok hfree
    rfl
  | advanceFirst => cases hadvances
  | advance => cases hadvances
  | _ => rfl

/-- The network thread moves the pointer forward only, over slices that are complete. -/
theorem Passed.netMoves (h : Passed s) (hs : Settled st s) (hm : NetMoves s t rest s')
    (ht : s.tasks = t :: rest) (hspare : EntersSpare s s') :
    Passed s' ∧ s.receivedSliceNo ≤ s'.receivedSliceNo := by
  have hchain : (t :: rest).IsChain Follows := ht ▸ hs.window.stack.chain
  have hrest := noAdvance_rest hchain
  have hkeeps : t.advances = false → Passed s' →
      Passed s' ∧ s.receivedSliceNo ≤ s'.receivedSliceNo := fun hadvances hp =>
    ⟨hp, (hm.receivedSliceNo hadvances).ge⟩
  have hstay : ∀ {s₁ : State}, t.advances = false → (s₁.receivedSliceNo = s.receivedSliceNo ∧
      s₁.receivedPtr = s.receivedPtr ∧ s₁.freed = s.freed ∧ s₁.started = s.started ∧
      s₁.currentSliceNo = s.currentSliceNo) → s₁.slices = s.slices → s₁.tasks = rest →
      Passed s₁ := by
    intro s₁ hadvances hplaces hslices htasks
    exact h.quiet ht hadvances hplaces (fun j => by rw [hslices]) (htasks ▸ hrest)
  have hgo : ∀ {s₁ : State} {x : Task} {l : List Task}, t.advances = false →
      (s₁.receivedSliceNo = s.receivedSliceNo ∧ s₁.receivedPtr = s.receivedPtr ∧
        s₁.freed = s.freed ∧ s₁.started = s.started ∧ s₁.currentSliceNo = s.currentSliceNo) →
      s₁.slices = s.slices → s₁.tasks = x :: l → (∀ pos, x ≠ .advance pos) → Passed s₁ := by
    intro s₁ x l hadvances hplaces hslices htasks hx
    refine h.quiet ht hadvances hplaces (fun j => by rw [hslices]) fun pos tl heq => ?_
    exact hx pos (List.cons.inj (htasks.symm.trans heq)).1
  cases hm with
  | join hcurrent =>
    exfalso
    have hzero : s.started = 0 := by
      by_contra hne
      rw [hs.window.slots.current, if_neg hne] at hcurrent
      cases hcurrent
    obtain ⟨-, x, htasks, hx⟩ := hs.pointer.opening hs.plain.notStreaming hzero
    obtain rfl := (List.cons.inj (ht.symm.trans htasks)).1
    rcases hx with hx | hx | ⟨j, hx⟩ <;> cases hx
  | restart hcurrent hlt hstreaming hinit =>
    rw [hs.plain.notStreaming] at hstreaming
    cases hstreaming
  | lookBack | lookAhead | scanOn | behind | lost | caughtUp | fake | newSlice | waitForBlock
  | toCleanup =>
    exact hkeeps rfl (hgo rfl ⟨rfl, rfl, rfl, rfl, rfl⟩ rfl rfl (by simp))
  | scanFound | scanFree | enqueue | cleaned =>
    exact hkeeps rfl (hstay rfl ⟨rfl, rfl, rfl, rfl, rfl⟩ rfl rfl)
  | @takeSlot n i _ hi hfree =>
    refine hkeeps rfl (h.quiet ht rfl ⟨rfl, rfl, rfl, rfl, rfl⟩ (fun j => ?_) (by simp))
    dsimp only
    rcases eq_or_ne j i with rfl | hne
    · rw [Function.update_self]
    · rw [Function.update_of_ne hne]
  | @reserve n i m _ s₁ hmem hinit =>
    obtain ⟨hallocated, rfl⟩ := hs.window.stack.reserved i (by rw [ht]; rfl)
    obtain ⟨-, -, hnext, guess, -, rfl⟩ := initSlice_ok hinit
    have hcsn : s.currentSliceNo = n - 1 := hnext hs.plain.notStreaming
    have hroom := hs.window.slots.allocated_le
    refine hkeeps rfl (h.calm ht rfl (fun hlinked => ?_) rfl rfl rfl ?_ ?_ hrest)
    · refine hlinked.mono rfl (Nat.le_succ _) ?_
      show n - ((s.started + 1 : ℕ) : ℤ) = s.currentSliceNo - s.started
      omega
    · intro k hk hle hdone
      obtain ⟨j, hj, -, hrsn⟩ := hs.linked_iff.mp (h.linked (by rw [ht]; simp))
      dsimp only
      rw [Function.update_of_ne (mod_slots_ne (by omega) (by omega))]
      exact hdone
    · intro hidle
      dsimp only
      rcases eq_or_ne s.receivedPtr (s.started % nrSlices) with heq | hne
      · rw [heq, Function.update_self]
        rfl
      · rw [Function.update_of_ne hne]
        exact hidle
  | force hfound hforce =>
    obtain ⟨hw, hcompletes⟩ := completeByForce_works hforce
    exact hkeeps rfl (h.worked hs ht rfl hw (leaves_of_complete hcompletes)
      ⟨rfl, rfl, rfl, rfl, rfl⟩ rfl rfl)
  | process hprocess =>
    obtain ⟨i, -, hw, hleaves⟩ := process_works_found hprocess
    exact hkeeps rfl (h.worked hs ht rfl hw hleaves ⟨rfl, rfl, rfl, rfl, rfl⟩ rfl rfl)
  | reuse hlocal hfinish | takeBlock hfinish =>
    obtain ⟨hw, hleaves⟩ := finishFecBlock_works hfinish
    exact hkeeps rfl (h.worked hs ht rfl hw hleaves ⟨rfl, rfl, rfl, rfl, rfl⟩ rfl rfl)
  | advanceFirst hadvance =>
    have hplace : Linked s s.receivedPtr := h.linked (by rw [ht]; simp)
    refine h.turn hs ht hplace (hspare rest ht) (fun hdone => ?_) hadvance
    rcases h.entering rest ht with hidle | ⟨tl, hrest'⟩
    · rw [hidle] at hdone
      cases hdone
    · obtain ⟨k, -, hptr, hrsn⟩ := hs.linked_iff.mp hplace
      have hfreed := h.freed_le
      exact ⟨k, tl, hptr ▸ hrest', by omega, hrsn.ge⟩
  | @advance pos _ _ hadvance =>
    obtain ⟨hspare, k, tl, hrest', hk, hle⟩ := h.advancing pos rest ht
    refine h.turn hs ht (hs.pointer.advancing pos rest ht).2 hspare (fun _ => ?_) hadvance
    exact ⟨k, tl, hrest', hk, by omega⟩
  | @release pos bytes _ s₁ hpos hstate hclean =>
    obtain ⟨-, hslot, -⟩ | ⟨_, _, -, -, -, -, ⟨-, rfl⟩ | ⟨-, q, -, rfl⟩⟩ := cleanupSlices_ok hclean
    · cases hslot
    · exact hkeeps rfl (hgo rfl ⟨rfl, rfl, rfl, rfl, rfl⟩ rfl rfl (by simp))
    · exact hkeeps rfl (hgo rfl ⟨rfl, rfl, rfl, rfl, rfl⟩ rfl rfl (by simp))
  | freeSlot hfree => exact hkeeps rfl (h.freeSlot hs ht hfree)

/-- A step of another thread after which the same slots are complete. -/
theorem Passed.other (h : Passed s) (htasks : s'.tasks = s.tasks)
    (hrsn : s'.receivedSliceNo = s.receivedSliceNo) (hptr : s'.receivedPtr = s.receivedPtr)
    (hfreed : s'.freed = s.freed) (hstarted : s'.started = s.started)
    (hcsn : s'.currentSliceNo = s.currentSliceNo)
    (hcomplete : ∀ j, (s'.slices j).state.complete = (s.slices j).state.complete) :
    Passed s' where
  linked hall := by
    rw [hptr]
    exact (h.linked (htasks ▸ hall)).mono hrsn hstarted.ge (by rw [hstarted, hcsn])
  freed_le := by
    rw [hfreed, hrsn]
    exact h.freed_le
  complete k hk hle := by
    rw [hcomplete]
    exact h.complete k (hfreed ▸ hk) (hrsn ▸ hle)
  idle hall := by
    rw [hcomplete, hptr]
    exact h.idle (htasks ▸ hall)
  entering tl htl := by
    rw [hcomplete, hptr]
    exact h.entering tl (htasks ▸ htl)
  advancing pos tl htl := by
    obtain ⟨⟨i, hi, hidle⟩, k, tl', hrest, hk, hle⟩ := h.advancing pos tl (htasks ▸ htl)
    exact ⟨⟨i, hi, (hcomplete i).trans hidle⟩, k, tl', hrest, hfreed ▸ hk, hrsn ▸ hle⟩

/-- A slot that is being handed over waits for the FEC thread. -/
theorem Settled.waits_of_handOver {i : ℕ} (hs : Settled st s) (huse : s.useFec = true)
    (hmem : .handOver i ∈ s.tasks) : (s.slices i).state.waits = true := by
  have hcount := hs.queue.pipeline huse i
  have hpos : 0 < s.pipeline.count i :=
    List.count_pos_iff.mpr ((hs.queue.mem_pipeline).mpr (.inr (.inr hmem)))
  cases hwaits : (s.slices i).state.waits with
  | true => rfl
  | false =>
    rw [hwaits] at hcount
    exact absurd (hpos.trans_le hcount) (Nat.lt_irrefl 0)

/-- The FEC thread frees only slots behind the pointer. -/
theorem Passed.freed_lt (h : Passed s) (hs : Settled st s) (huse : s.useFec = true)
    (hdone : (s.slices (s.freed % nrSlices)).state = .fecDone) :
    (s.freed : ℤ) ≤ s.receivedSliceNo := by
  have hfreed := h.freed_le
  by_cases hadvance : ∃ pos tl, s.tasks = .advance pos :: tl
  · obtain ⟨pos, tl, htl⟩ := hadvance
    obtain ⟨-, k, -, -, hk, hle⟩ := h.advancing pos tl htl
    omega
  · have hplace : Linked s s.receivedPtr :=
      h.linked fun pos tl htl => hadvance ⟨pos, tl, htl⟩
    obtain ⟨k, -, hptr, hrsn⟩ := hs.linked_iff.mp hplace
    have hidle : (s.slices s.receivedPtr).state ≠ .fecDone := by
      intro hcontra
      by_cases hentering : ∃ tl, s.tasks = .advanceReceivedPointer :: tl
      · obtain ⟨tl, htl⟩ := hentering
        rcases h.entering tl htl with hidle | ⟨tl', rfl⟩
        · rw [hcontra] at hidle
          cases hidle
        · have hmem : .handOver s.receivedPtr ∈ s.tasks := by simp [htl]
          have hwaits := hs.waits_of_handOver huse hmem
          rw [hcontra] at hwaits
          cases hwaits
      · have hidle := h.idle fun t tl htl => by
          by_contra hadvances
          rcases advances_iff.mp (Bool.not_eq_false _ ▸ hadvances) with rfl | ⟨pos, rfl⟩
          · exact hentering ⟨tl, htl⟩
          · exact hadvance ⟨pos, tl, htl⟩
        rw [hcontra] at hidle
        cases hidle
    have hne : s.freed ≠ k := by
      rintro rfl
      exact hidle (hptr ▸ hdone)
    omega

/-- The FEC thread frees only slots behind the pointer, which stays where it is. -/
theorem Passed.fecMoves (h : Passed s) (hs : Settled st s) (hm : FecMoves s s') :
    Passed s' ∧ s'.receivedSliceNo = s.receivedSliceNo := by
  have huse : s.useFec = true := hs.window.slots.present hm.thread_ne
  have hupdate : ∀ {i x}, x.state.complete = (s.slices i).state.complete →
      ∀ j, (Function.update s.slices i x j).state.complete = (s.slices j).state.complete := by
    intro i x hx j
    rcases eq_or_ne j i with rfl | hne
    · rw [Function.update_self, hx]
    · rw [Function.update_of_ne hne]
  cases hm with
  | takeDone hpc hi hstate =>
    exact ⟨h.other rfl rfl rfl rfl rfl rfl (hupdate (by rw [hstate]; rfl)), rfl⟩
  | @decode i mem blocks hpc hdecode =>
    have hstate := hs.window.slots.decoding i hpc
    exact ⟨h.other rfl rfl rfl rfl rfl rfl (hupdate (by rw [hstate]; rfl)), rfl⟩
  | freeBlock => exact ⟨h.other rfl rfl rfl rfl rfl rfl (hupdate rfl), rfl⟩
  | releaseSlice hpc hpos hstate hclean =>
    obtain ⟨-, hslot, -⟩ | ⟨_, _, -, -, -, -, ⟨-, rfl⟩ | ⟨-, q, -, rfl⟩⟩ := cleanupSlices_ok hclean
    · cases hslot
    · exact ⟨h.other rfl rfl rfl rfl rfl rfl fun _ => rfl, rfl⟩
    · exact ⟨h.other rfl rfl rfl rfl rfl rfl fun _ => rfl, rfl⟩
  | @freeSlot pos bytes s₁ hpc hfree =>
    obtain ⟨rfl, hlt, hstate⟩ := hs.window.slots.fecFrees pos bytes hpc
    obtain ⟨q, -, rfl⟩ := freeSlot_ok hfree
    have hpassed := h.freed_lt hs huse hstate
    have hstarted := hs.started_le
    have hstill : ∀ i, (s.slices i).state.complete = false →
        (Function.update s.slices (s.freed % nrSlices)
          { s.slices (s.freed % nrSlices) with state := .free } i).state.complete = false := by
      intro i hidle
      rcases eq_or_ne i (s.freed % nrSlices) with rfl | hne
      · rw [Function.update_self]
        rfl
      · rw [Function.update_of_ne hne]
        exact hidle
    refine ⟨⟨fun hall => h.linked hall, ?_, ?_, fun hall => hstill _ (h.idle hall), fun tl htl => ?_,
      fun p tl htl => ?_⟩, rfl⟩
    · show ((s.freed + 1 : ℕ) : ℤ) ≤ s.receivedSliceNo + 1
      omega
    · intro k hk hle
      have hk : s.freed + 1 ≤ k := hk
      have hle : (k : ℤ) ≤ s.receivedSliceNo := hle
      obtain ⟨j, hj, -, hrsn⟩ : ∃ j ≤ s.started, True ∧ s.receivedSliceNo + 1 = j := by
        by_cases hadvance : ∃ pos tl, s.tasks = .advance pos :: tl
        · obtain ⟨p, tl, htl⟩ := hadvance
          obtain ⟨j, hj, -, hrsn⟩ := hs.linked_iff.mp (hs.pointer.advancing p tl htl).2
          exact ⟨j, hj, trivial, hrsn⟩
        · obtain ⟨j, hj, -, hrsn⟩ :=
            hs.linked_iff.mp (h.linked fun p tl htl => hadvance ⟨p, tl, htl⟩)
          exact ⟨j, hj, trivial, hrsn⟩
      have hother : k % nrSlices ≠ s.freed % nrSlices :=
        (mod_slots_ne (by omega) (by omega)).symm
      dsimp only
      rw [Function.update_of_ne hother]
      exact h.complete k (by omega) hle
    · exact (h.entering tl htl).imp_left (hstill _)
    · obtain ⟨⟨i, hi, hidle⟩, k, tl', hrest, hk, hle⟩ := h.advancing p tl htl
      have htl : s.tasks = .advance p :: tl := htl
      have hwaits := hs.waits_of_handOver huse (i := k % nrSlices) (by simp [htl, hrest])
      have hne : s.freed ≠ k := by
        rintro rfl
        rw [hstate] at hwaits
        cases hwaits
      refine ⟨⟨i, hi, hstill i hidle⟩, k, tl', hrest, ?_, hle⟩
      show s.freed + 1 ≤ k
      omega
  | _ => exact ⟨h.other rfl rfl rfl rfl rfl rfl fun _ => rfl, rfl⟩

/-- So the pointer never moves back, and what is behind it is complete. -/
theorem Passed.moves {a : Action} (h : Passed s) (hs : Settled st s) (hm : Moves s a s')
    (hspare : EntersSpare s s') : Passed s' ∧ s.receivedSliceNo ≤ s'.receivedSliceNo := by
  cases hm with
  | @receive msg mem blocks hidle hend =>
    have hplace : Linked s s.receivedPtr := h.linked (by simp [hidle])
    have hincomplete := h.idle (by simp [hidle])
    refine ⟨⟨fun _ => hplace, h.freed_le, h.complete, fun _ => hincomplete, fun _ _ => .inl hincomplete,
      fun pos tl htl => ?_⟩, le_rfl⟩
    cases msg <;> cases htl
  | exitWait => exact ⟨h.other rfl rfl rfl rfl rfl rfl fun _ => rfl, le_rfl⟩
  | net ht hm => exact h.netMoves hs hm ht hspare
  | fec hm =>
    obtain ⟨hpassed, hrsn⟩ := h.fecMoves hs hm
    exact ⟨hpassed, hrsn.ge⟩
  | writer hm =>
    cases hm <;> exact ⟨h.other rfl rfl rfl rfl rfl rfl fun _ => rfl, le_rfl⟩

/-- At the start nothing is behind it. -/
theorem passed_start (h : Starts st defaultMode s) : Passed s := by
  obtain ⟨config, streaming, mem, blockData, -, -, ⟨-, rfl⟩, hstart⟩ := h
  obtain ⟨_, _, _, -, -, -, rfl⟩ := start_eq hstart
  refine ⟨fun _ => ⟨0, le_rfl, rfl, rfl⟩, le_rfl, fun k _ hle => ?_, fun _ => rfl, fun _ _ => .inl rfl,
    fun pos tl htl => ?_⟩
  · dsimp only at hle
    omega
  · cases htl

/-- The runs in which `advanceReceivedPointer` always finds a slot that is not complete. -/
theorem passed_of_reachable (h : ((system st defaultMode).restrict EntersSpare).Reachable s)
    (hrunning : s.failure = none) : Passed s :=
  running_of_restricted
    (fun _ hs hrun => settled_of_reachable (System.restrict_reachable hs) hrun)
    (fun _ => passed_start) (fun _ _ _ hs hpassed _ hspare hm => (hpassed.moves hs hm hspare).1)
    h hrunning

end Udpcast.Receiver
