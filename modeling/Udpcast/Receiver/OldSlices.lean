import Udpcast.Receiver.Tracking

/-!
# The backward scan of `findSlice`

The slices in use are an arc of the ring that ends at the current slice. A scan that meets a free
slot has passed every slice in use, so the slice it looks for has been given back: all its blocks
were there, and its bytes have been released to the writer.
-/

namespace Udpcast.Receiver

open Queue
open Protocol

variable {st : Stream} {s s' : State} {n : ℤ} {k pos : ℕ} {t : Task} {rest : List Task}

/-! ## The numbers of the slices -/

/-- The slots hold the slices that were started last. -/
theorem Settled.sliceNo_eq (h : Settled st s) (hk : k < s.started)
    (hle : s.started ≤ k + nrSlices) : (s.slices (k % nrSlices)).sliceNo = k := by
  have hnumber := h.window.slots.sliceNo k hk hle
  have hnumbered := h.plain.numbered
  omega

/-- The last slices that were started are still in their slots, free or not. -/
theorem Settled.tracked (h : Settled st s) (hk : k < s.started)
    (hle : s.started ≤ k + nrSlices) : (s.slices (k % nrSlices)).Tracked st := by
  apply h.plain.tracked
  rw [h.sliceNo_eq hk hle]
  omega

/-- No more slices are started than there are slots for them. -/
theorem Settled.started_le (h : Settled st s) : s.started ≤ s.freed + nrSlices :=
  h.window.slots.started_le.trans h.window.slots.allocated_le

/-! ## What has been released -/

/-- A slice has been released whose slot is not free yet. -/
def State.Frees (s : State) : Prop :=
  (∃ pos bytes rest, s.tasks = .freeSlot pos bytes :: rest) ∨
    ∃ pos bytes, s.fecThread = .freeSlot pos bytes

/-- The slices are released one after the other. -/
structure Released (st : Stream) (s : State) : Prop where
  idle : ¬ s.Frees → s.released = st.start s.freed
  frees : s.Frees → s.released = st.start (s.freed + 1)

/-- What has been released depends on the counts, and on whether a slot is being freed. -/
theorem Released.congr (h : Released st s) (hreleased : s'.released = s.released)
    (hfreed : s'.freed = s.freed) (hfrees : s'.Frees ↔ s.Frees) : Released st s' where
  idle hnot := by
    rw [hreleased, hfreed]
    exact h.idle fun hyes => hnot (hfrees.mpr hyes)
  frees hyes := by
    rw [hreleased, hfreed]
    exact h.frees (hfrees.mp hyes)

/-- Once the slot is free, the next slice may be released. -/
theorem Released.free (h : Released st s) (hfrees : s.Frees) (hreleased : s'.released = s.released)
    (hfreed : s'.freed = s.freed + 1) (hnot : ¬ s'.Frees) : Released st s' where
  idle _ := by
    rw [hreleased, hfreed]
    exact h.frees hfrees
  frees hyes := absurd hyes hnot

/-- The slice in the slot that is to be freed next is released. -/
theorem Released.release (h : Released st s) (hs : Settled st s) {bytes : ℕ}
    (hpos : pos = pcGetProducerPosition s.freeSlicesPc)
    (hstate : (s.slices pos).state = .done ∨ (s.slices pos).state = .fecDone)
    (hbytes : (s.slices pos).bytes = bytes) (hidle : ¬ s.Frees)
    (hreleased : s'.released = s.released + bytes) (hfreed : s'.freed = s.freed)
    (hyes : s'.Frees) : Released st s' where
  idle hnot := absurd hyes hnot
  frees _ := by
    have hslot : pos = s.freed % nrSlices := hpos.trans hs.window.slots.producerPosition
    have hlt : s.freed < s.started := by
      refine hs.window.slots.freed_lt_of_state (x := (s.slices pos).state) ?_ (by rw [hslot])
      rcases hstate with hstate | hstate <;> simp [hstate]
    have htracked := hs.tracked hlt hs.started_le
    have hno := hs.sliceNo_eq hlt hs.started_le
    rw [← hslot] at htracked hno
    have hcomplete := htracked.complete (by rcases hstate with hstate | hstate <;> simp [hstate])
    have hsize := htracked.counted.size hcomplete.1
    rw [hno, Int.toNat_natCast, hbytes] at hsize
    rw [hreleased, hfreed, st.start_succ, h.idle hidle, hsize]

/-- The network thread is not about to free a slot. -/
def FreesNothing (tasks : List Task) : Prop := ∀ pos bytes tl, tasks ≠ .freeSlot pos bytes :: tl

/-- Tasks that free no slot may be put before others. -/
theorem freesNothing_append {l : List Task} (hl : ∀ x ∈ l, ∀ pos bytes, x ≠ .freeSlot pos bytes)
    (hrest : FreesNothing rest) : FreesNothing (l ++ rest) := by
  intro pos bytes tl heq
  cases l with
  | nil => exact hrest pos bytes tl heq
  | cons x l => exact hl x List.mem_cons_self pos bytes (List.cons.inj heq).1

/-- Work on a slice does not free a slot. -/
theorem Leaves.freesNothing {s₀ : State} {i : ℕ} (h : Leaves i s₀ s')
    (hrest : FreesNothing s₀.tasks) : FreesNothing s'.tasks := by
  obtain ⟨l, heq, hl⟩ := h.left
  rw [heq]
  apply freesNothing_append ?_ hrest
  intro x hx pos bytes hfree
  rcases hl with rfl | hl
  · cases (List.mem_singleton.mp hx).symm.trans hfree
  · subst hfree
    exact hl _ hx

/-- A step of the network thread releases a slice, or frees its slot, or does neither. -/
theorem NetMoves.release_cases (hm : NetMoves s t rest s') (hchain : (t :: rest).IsChain Follows) :
    (s'.released = s.released ∧ s'.freed = s.freed ∧ (∀ pos bytes, t ≠ .freeSlot pos bytes) ∧
      FreesNothing s'.tasks) ∨
    (t = .cleanup ∧ s'.freed = s.freed ∧ ∃ pos bytes, pos = pcGetProducerPosition s.freeSlicesPc ∧
      (s.slices pos).state = .done ∧ (s.slices pos).bytes = bytes ∧
      s'.released = s.released + bytes ∧ s'.tasks = .freeSlot pos bytes :: rest) ∨
    ∃ pos bytes, t = .freeSlot pos bytes ∧ s'.released = s.released ∧ s'.freed = s.freed + 1 ∧
      s'.tasks = .cleanup :: rest := by
  have hrest : FreesNothing rest := (rest_outer hchain).2.2
  have hworks : ∀ {s₀ i}, Works i s₀ s' → Leaves i s₀ s' → s₀.released = s.released →
      s₀.freed = s.freed → s₀.tasks = rest →
        s'.released = s.released ∧ s'.freed = s.freed ∧ FreesNothing s'.tasks := by
    intro s₀ i hw hleaves hreleased hfreed htasks
    exact ⟨(congrArg Rest.released hw.rest_eq).trans hreleased,
      (congrArg Rest.freed hw.rest_eq).trans hfreed, hleaves.freesNothing (htasks ▸ hrest)⟩
  cases hm with
  | release hpos hstate hclean =>
    obtain ⟨-, hslot, -⟩ | ⟨_, _, -, -, hbytes, hslot, hdata⟩ := cleanupSlices_ok hclean
    · cases hslot
    · obtain ⟨rfl, rfl⟩ := Prod.mk.inj (Option.some.inj hslot)
      obtain ⟨hzero, rfl⟩ | ⟨-, q, -, rfl⟩ := hdata
      · exact .inr (.inl ⟨rfl, rfl, _, _, hpos, hstate, hbytes, by simp [hzero, State.popped], rfl⟩)
      · exact .inr (.inl ⟨rfl, rfl, _, _, hpos, hstate, hbytes, rfl, rfl⟩)
  | freeSlot hfree =>
    obtain ⟨q, -, rfl⟩ := freeSlot_ok hfree
    exact .inr (.inr ⟨_, _, rfl, rfl, rfl, rfl⟩)
  | restart hcurrent hlt hstreaming hinit | reserve hmem hinit =>
    obtain ⟨-, -, -, guess, -, rfl⟩ := initSlice_ok hinit
    exact .inl ⟨rfl, rfl, by simp, hrest⟩
  | force hfound hforce =>
    obtain ⟨hw, hcompletes⟩ := completeByForce_works hforce
    obtain ⟨hreleased, hfreed, htasks⟩ := hworks hw (leaves_of_complete hcompletes) rfl rfl rfl
    exact .inl ⟨hreleased, hfreed, by simp, htasks⟩
  | process hprocess =>
    obtain ⟨i, -, hw, hleaves⟩ := process_works_found hprocess
    obtain ⟨hreleased, hfreed, htasks⟩ := hworks hw hleaves rfl rfl rfl
    exact .inl ⟨hreleased, hfreed, by simp, htasks⟩
  | reuse hlocal hfinish | takeBlock hfinish =>
    obtain ⟨hw, hleaves⟩ := finishFecBlock_works hfinish
    obtain ⟨hreleased, hfreed, htasks⟩ := hworks hw hleaves rfl rfl rfl
    exact .inl ⟨hreleased, hfreed, by simp, htasks⟩
  | advanceFirst hadvance | advance hadvance =>
    subst hadvance
    unfold Receiver.advance
    split
    · exact .inl ⟨rfl, rfl, by simp, by simp [FreesNothing, State.enter]⟩
    · exact .inl ⟨rfl, rfl, by simp, hrest⟩
  | scanFound | scanFree | enqueue | cleaned => exact .inl ⟨rfl, rfl, by simp, hrest⟩
  | _ => exact .inl ⟨rfl, rfl, by simp, by simp [FreesNothing]⟩

/-- The network thread releases the slices one after the other. -/
theorem Released.netMoves (h : Released st s) (hs : Settled st s) (hm : NetMoves s t rest s')
    (ht : s.tasks = t :: rest) : Released st s' := by
  have hframe := hm.frame.2.2
  have hfec : (∃ pos bytes, s'.fecThread = .freeSlot pos bytes) ↔
      ∃ pos bytes, s.fecThread = .freeSlot pos bytes := by
    obtain ⟨-, hthread⟩ | ⟨hoff, -, hthread, -⟩ := hframe
    · rw [hthread]
    · rw [hthread, hs.window.slots.fecAbsent.mp hoff]
      simp
  have habsent : (t = .cleanup ∨ ∃ pos bytes, t = .freeSlot pos bytes) →
      ¬ ∃ pos bytes, s.fecThread = .freeSlot pos bytes := by
    intro htask
    have huse := hs.window.stack.cleanup t (ht ▸ List.mem_cons_self) htask
    rw [hs.window.slots.fecAbsent.mp huse]
    simp
  obtain ⟨hreleased, hfreed, hnot, htasks⟩ | ⟨rfl, hfreed, pos, bytes, hpos, hstate, hbytes,
    hreleased, htasks⟩ | ⟨pos, bytes, rfl, hreleased, hfreed, htasks⟩ :=
      hm.release_cases (ht ▸ hs.window.stack.chain)
  · apply h.congr hreleased hfreed
    unfold State.Frees
    rw [hfec, ht]
    have hnow : ¬ ∃ pos bytes tl, s'.tasks = .freeSlot pos bytes :: tl := by
      rintro ⟨pos, bytes, tl, htl⟩
      exact htasks pos bytes tl htl
    have hbefore : ¬ ∃ pos bytes tl, t :: rest = .freeSlot pos bytes :: tl := by
      rintro ⟨pos, bytes, tl, htl⟩
      exact hnot pos bytes (List.cons.inj htl).1
    rw [iff_false_intro hnow, iff_false_intro hbefore]
  · have hidle : ¬ s.Frees := by
      rintro (⟨_, _, _, htask⟩ | hthread)
      · cases (List.cons.inj (ht.symm.trans htask)).1
      · exact habsent (.inl rfl) hthread
    exact h.release hs hpos (.inl hstate) hbytes hidle hreleased hfreed (.inl ⟨_, _, _, htasks⟩)
  · apply h.free (.inl ⟨_, _, _, ht⟩) hreleased hfreed
    rintro (⟨_, _, _, htask⟩ | hthread)
    · cases (List.cons.inj (htasks.symm.trans htask)).1
    · exact habsent (.inr ⟨pos, bytes, rfl⟩) (hfec.mp hthread)

/-- So does the FEC thread, once FEC is in use. -/
theorem Released.fecMoves (h : Released st s) (hs : Settled st s) (hm : FecMoves s s') :
    Released st s' := by
  have htasks := hm.frame.1
  have huse : s.useFec = true := hs.window.slots.present hm.thread_ne
  have hnet : ¬ ∃ pos bytes rest, s.tasks = .freeSlot pos bytes :: rest := by
    rintro ⟨pos, bytes, rest, htask⟩
    have hoff := hs.window.stack.cleanup _ (htask ▸ List.mem_cons_self) (.inr ⟨pos, bytes, rfl⟩)
    rw [huse] at hoff
    cases hoff
  have hidle : (∀ pos bytes, s.fecThread ≠ .freeSlot pos bytes) → ¬ s.Frees := by
    rintro hthread (htask | ⟨pos, bytes, hpc⟩)
    · exact hnet htask
    · exact hthread pos bytes hpc
  have hidle' : (∀ pos bytes, s'.fecThread ≠ .freeSlot pos bytes) → ¬ s'.Frees := by
    rintro hthread (htask | ⟨pos, bytes, hpc⟩)
    · exact hnet (htasks ▸ htask)
    · exact hthread pos bytes hpc
  have hsame : s'.released = s.released → s'.freed = s.freed →
      (∀ pos bytes, s.fecThread ≠ .freeSlot pos bytes) →
      (∀ pos bytes, s'.fecThread ≠ .freeSlot pos bytes) → Released st s' := by
    intro hreleased hfreed hthread hthread'
    exact h.congr hreleased hfreed (iff_of_false (hidle' hthread') (hidle hthread))
  cases hm with
  | @releaseSlice pos bytes s₁ hpc hpos hstate hclean =>
    have hbefore : ¬ s.Frees := hidle (by simp [hpc])
    obtain ⟨-, hslot, -⟩ | ⟨_, _, -, -, hbytes, hslot, hdata⟩ := cleanupSlices_ok hclean
    · cases hslot
    · obtain ⟨rfl, rfl⟩ := Prod.mk.inj (Option.some.inj hslot)
      obtain ⟨hzero, rfl⟩ | ⟨-, q, -, rfl⟩ := hdata
      · exact h.release hs hpos (.inr hstate) hbytes hbefore (by simp [hzero]) rfl
          (.inr ⟨_, _, rfl⟩)
      · exact h.release hs hpos (.inr hstate) hbytes hbefore rfl rfl (.inr ⟨_, _, rfl⟩)
  | @freeSlot pos bytes s₁ hpc hfree =>
    obtain ⟨q, -, rfl⟩ := freeSlot_ok hfree
    exact h.free (.inr ⟨_, _, hpc⟩) rfl rfl (hidle' (by simp))
  | loop hpc =>
    apply hsame rfl rfl (by simp [hpc])
    dsimp only
    split <;> simp
  | consume hpc => exact hsame rfl rfl (by simp [hpc]) (by simp)
  | takeFec hpc => exact hsame rfl rfl (by simp [hpc]) (by simp)
  | takeDone hpc => exact hsame rfl rfl (by simp [hpc]) (by simp)
  | takeOther hpc => exact hsame rfl rfl (by simp [hpc]) (by simp)
  | decode hpc => exact hsame rfl rfl (by simp [hpc]) (by simp)
  | released hpc => exact hsame rfl rfl (by simp [hpc]) (by simp)
  | nextStripe hpc => exact hsame rfl rfl (by simp [hpc]) (by simp)
  | freeBlock hpc => exact hsame rfl rfl (by simp [hpc]) (by simp)
  | cleaned hpc => exact hsame rfl rfl (by simp [hpc]) (by simp)

/-- A message begins with the search for its slice. -/
theorem freesNothing_dispatch (msg : ServerMsg) : FreesNothing (dispatch msg) := by
  intro pos bytes tl heq
  cases msg <;> cases heq

/-- So every move releases the next slice or none. -/
theorem Released.moves {a : Action} (h : Released st s) (hs : Settled st s) (hm : Moves s a s') :
    Released st s' := by
  cases hm with
  | @receive msg mem blocks hidle hend =>
    refine h.congr rfl rfl (or_congr (iff_of_false ?_ ?_) Iff.rfl)
    · rintro ⟨pos, bytes, tl, htl⟩
      exact freesNothing_dispatch msg pos bytes tl htl
    · rintro ⟨pos, bytes, tl, htl⟩
      rw [hidle] at htl
      cases htl
  | exitWait => exact h.congr rfl rfl Iff.rfl
  | net ht hm => exact h.netMoves hs hm ht
  | fec hm => exact h.fecMoves hs hm
  | writer hm => cases hm <;> exact h.congr rfl rfl Iff.rfl

/-- At the start nothing has been released. -/
theorem released_start (h : Starts st defaultMode s) : Released st s := by
  obtain ⟨config, streaming, mem, blockData, -, -, ⟨-, rfl⟩, hstart⟩ := h
  obtain ⟨_, _, _, -, -, -, rfl⟩ := start_eq hstart
  refine ⟨fun _ => rfl, ?_⟩
  rintro (⟨pos, bytes, tl, htl⟩ | ⟨pos, bytes, hpc⟩)
  · cases htl
  · cases hpc

/-- So this holds as long as the receiver runs. -/
theorem released_of_reachable (h : (system st defaultMode).Reachable s)
    (hrunning : s.failure = none) : Released st s :=
  running_of_reachable (fun _ hs hrun => settled_of_reachable hs hrun) (fun _ => released_start)
    (fun _ _ _ hs hreleased _ hm => hreleased.moves hs hm) h hrunning

/-- Every slice that was given back has been released. -/
theorem Released.le {n : ℕ} (h : Released st s) (hn : n < s.freed) :
    st.start n + st.size n ≤ s.released := by
  have hle := st.start_mono (Nat.succ_le_of_lt hn)
  rw [← st.start_succ]
  by_cases hfrees : s.Frees
  · rw [h.frees hfrees]
    exact hle.trans (st.start_mono (Nat.le_succ _))
  · rwa [h.idle hfrees]

/-! ## The scan -/

/-- The backward scan has looked at the last `d` slices, and not met slice `n` among them. -/
def Scanned (s : State) (n : ℤ) (pos d : ℕ) : Prop :=
  0 < s.started ∧ pos < nrSlices ∧ (pos + d) % nrSlices = (s.started - 1) % nrSlices ∧
    (n + d < s.started ∨ n + nrSlices < s.started)

/-- Where the scan is. -/
def Scanning (s : State) : Prop :=
  ∀ n pos rest, s.tasks = .scan n pos :: rest → ∃ d, Scanned s n pos d

/-- The slot that a scan looks at next belongs to slice `started - 1 - d`. -/
theorem Scanned.sliceNo {d : ℕ} (h : Scanned s n pos d) (hs : Settled st s) (hn : 0 ≤ n)
    (hnear : ¬ n + nrSlices < s.started) : d < s.started ∧ pos = (s.started - 1 - d) % nrSlices ∧
      n ≤ (s.started - 1 - d : ℕ) ∧ (s.slices pos).sliceNo = (s.started - 1 - d : ℕ) := by
  obtain ⟨hstarted, hpos, hmod, hfar | hfar⟩ := h
  · have hslot : pos = (s.started - 1 - d) % nrSlices := by
      simp only [nrSlices] at hpos hmod ⊢
      omega
    refine ⟨by omega, hslot, by omega, ?_⟩
    rw [hslot]
    exact hs.sliceNo_eq (by omega) (by simp only [nrSlices] at hnear ⊢; omega)
  · exact absurd hfar hnear

/-- A turn of the scan. -/
theorem Scanned.previous {d : ℕ} (h : Scanned s n pos d) (hs : Settled st s) (hn : 0 ≤ n)
    (hno : (s.slices pos).sliceNo ≠ n) : Scanned s n (previousSlot pos) (d + 1) := by
  have hfar : n + (d + 1 : ℕ) < s.started ∨ n + nrSlices < s.started := by
    by_cases hnear : n + nrSlices < s.started
    · exact .inr hnear
    · obtain ⟨-, -, hle, heq⟩ := h.sliceNo hs hn hnear
      rw [heq] at hno
      exact .inl (by omega)
  obtain ⟨hstarted, hpos, hmod, -⟩ := h
  refine ⟨hstarted, ?_, ?_, hfar⟩
  · unfold previousSlot
    simp only [nrSlices] at hpos ⊢
    split <;> omega
  · unfold previousSlot
    simp only [nrSlices] at hpos hmod ⊢
    split <;> omega

/-- A scan that meets a free slot has passed all slices in use. -/
theorem Scanned.free {d : ℕ} (h : Scanned s n pos d) (hs : Settled st s) (hn : 0 ≤ n)
    (hfree : (s.slices pos).state = .free) : n < s.freed := by
  have hstarted := hs.started_le
  by_cases hnear : n + nrSlices < s.started
  · omega
  · obtain ⟨hlt, hslot, hle, -⟩ := h.sliceNo hs hn hnear
    have hfreed : s.started - 1 - d < s.freed := by
      by_contra hge
      rw [hslot] at hfree
      exact hs.window.slots.taken _ (not_lt.mp hge) (by omega) hfree
    omega

/-- The scan starts at the current slice. -/
theorem scanned_current (hs : Settled st s) (hcurrent : s.currentSlice = some pos)
    (hle : n ≤ s.currentSliceNo) : Scanned s n pos 0 := by
  have hnumbered := hs.plain.numbered
  have hcur := hs.window.slots.current
  rw [hcurrent] at hcur
  split at hcur
  · cases hcur
  · obtain rfl := Option.some.inj hcur
    refine ⟨by omega, Nat.mod_lt _ (by decide), ?_, .inl (by push_cast; omega)⟩
    rw [Nat.add_zero, Nat.mod_mod]

/-- The network thread is not at a scan. -/
def ScansNothing (tasks : List Task) : Prop := ∀ n pos tl, tasks ≠ .scan n pos :: tl

/-- Nothing scans behind another task. -/
theorem scansNothing_rest (hchain : (t :: rest).IsChain Follows) : ScansNothing rest := by
  intro n pos tl heq
  subst heq
  exact (List.isChain_cons_cons.mp hchain).1

/-- A thread that is not at a scan has nothing to say about it. -/
theorem ScansNothing.scanning (h : ScansNothing s.tasks) : Scanning s :=
  fun n pos tl heq => absurd heq (h n pos tl)

/-- Work on a slice does not begin a scan. -/
theorem Leaves.scansNothing {s₀ : State} {i : ℕ} (h : Leaves i s₀ s')
    (hrest : ScansNothing s₀.tasks) : ScansNothing s'.tasks := by
  obtain ⟨l, heq, hl⟩ := h.left
  rw [heq]
  intro n pos tl hscan
  cases l with
  | nil => exact hrest n pos tl hscan
  | cons x l =>
    obtain rfl := (List.cons.inj hscan).1
    rcases hl with hl | hl
    · cases hl
    · exact hl _ List.mem_cons_self

/-- A turn of the scan passes one slot more, which does not have the slice. -/
theorem Scanning.netMoves (h : Scanning s) (hs : Settled st s) (hm : NetMoves s t rest s')
    (ht : s.tasks = t :: rest) : Scanning s' := by
  have hrest : ScansNothing rest := scansNothing_rest (ht ▸ hs.window.stack.chain)
  have hnext : ∀ {x : Task}, (∀ n pos, x ≠ .scan n pos) → ScansNothing (x :: rest) := by
    intro x hx n pos tl heq
    exact hx n pos (List.cons.inj heq).1
  cases hm with
  | lookBack hcurrent hle =>
    intro m pos tl heq
    obtain ⟨rfl, rfl⟩ := Task.scan.inj (List.cons.inj heq).1
    have hscanned := scanned_current hs hcurrent hle
    exact ⟨0, hscanned⟩
  | @scanOn n pos _ hno hfree =>
    intro m pos' tl heq
    obtain ⟨rfl, rfl⟩ := Task.scan.inj (List.cons.inj heq).1
    obtain ⟨d, hscanned⟩ := h n pos rest ht
    have hn : 0 ≤ n := hs.stacked.numbers _ (ht ▸ List.mem_cons_self) n rfl
    exact ⟨d + 1, hscanned.previous hs hn hno⟩
  | restart hcurrent hlt hstreaming hinit | reserve hmem hinit =>
    obtain ⟨-, -, -, guess, -, rfl⟩ := initSlice_ok hinit
    exact hrest.scanning
  | force hfound hforce =>
    obtain ⟨-, hcompletes⟩ := completeByForce_works hforce
    exact ((leaves_of_complete hcompletes).scansNothing hrest).scanning
  | process hprocess =>
    obtain ⟨i, -, -, hleaves⟩ := process_works_found hprocess
    exact (hleaves.scansNothing hrest).scanning
  | reuse hlocal hfinish | takeBlock hfinish =>
    exact ((finishFecBlock_works hfinish).2.scansNothing hrest).scanning
  | advanceFirst hadvance | advance hadvance =>
    subst hadvance
    unfold Receiver.advance
    split
    · exact (hnext (by simp)).scanning
    · exact hrest.scanning
  | freeSlot hfree => exact (hnext (by simp)).scanning
  | scanFound | scanFree | enqueue | cleaned => exact hrest.scanning
  | _ =>
    intro m pos tl heq
    cases heq

/-- Where the scan is depends on the tasks and on the last slice started. -/
theorem Scanning.congr (h : Scanning s) (htasks : s'.tasks = s.tasks)
    (hstarted : s'.started = s.started) : Scanning s' := by
  intro n pos tl heq
  unfold Scanned
  rw [hstarted]
  exact h n pos tl (htasks ▸ heq)

/-- The other threads do not change it, as they do not change the numbers in the slots. -/
theorem Scanning.moves {a : Action} (h : Scanning s) (hs : Settled st s) (hm : Moves s a s') :
    Scanning s' := by
  cases hm with
  | @receive msg mem blocks hidle hend =>
    intro n pos tl heq
    cases msg <;> cases heq
  | exitWait => exact h.congr rfl rfl
  | net ht hm => exact h.netMoves hs hm ht
  | fec hm =>
    obtain ⟨htasks, -, -, -, -, hstarted, -⟩ := hm.frame
    exact h.congr htasks hstarted
  | writer hm => cases hm <;> exact h.congr rfl rfl

/-- So the scan is always where it says it is. -/
theorem scanning_of_reachable (h : (system st defaultMode).Reachable s)
    (hrunning : s.failure = none) : Scanning s := by
  refine running_of_reachable (fun _ hs hrun => settled_of_reachable hs hrun) ?_
    (fun _ _ _ hs hscanning _ hm => hscanning.moves hs hm) h hrunning
  rintro s ⟨config, streaming, mem, blockData, -, -, ⟨-, rfl⟩, hstart⟩
  obtain ⟨_, _, _, -, -, -, rfl⟩ := start_eq hstart
  intro n pos tl heq
  cases heq

/-! ## What became of a slice -/

/-- At some point of the run, all data blocks of slice `n` had arrived in slot `i`. -/
def WasReceived (st : Stream) (s : State) (n i : ℕ) : Prop :=
  ∃ v, (system st defaultMode).Reachable v ∧ (system st defaultMode).Run v s ∧
    (v.slices i).sliceNo = n ∧ ∀ b < st.blocks n, b ∈ (v.slices i).map

/-- At some point of the run, the FEC thread has decoded slice `n` in slot `i`. -/
def WasRepaired (st : Stream) (s : State) (n i : ℕ) : Prop :=
  ∃ v w, (system st defaultMode).Reachable v ∧ act v .fec = some w ∧
    (system st defaultMode).Run w s ∧ v.fecThread = .decode i ∧ (v.slices i).sliceNo = n ∧
    (w.slices i).state = .fecDone ∧ ∃ u, decodeSlice v i = .ok u

/-- Slice `n` in slot `i` was complete. -/
def WasCompleted (st : Stream) (s : State) (n i : ℕ) : Prop :=
  WasReceived st s n i ∨ WasRepaired st s n i

/-- What was completed once stays so in what follows. -/
theorem WasCompleted.step {m i : ℕ} (h : WasCompleted st s m i)
    (hstep : (system st defaultMode).Step s s') : WasCompleted st s' m i := by
  rcases h with ⟨v, hv, hrun, hevent⟩ | ⟨v, w, hv, hact, hrun, hevent⟩
  · exact .inl ⟨v, hv, hrun.tail hstep, hevent⟩
  · exact .inr ⟨v, w, hv, hact, hrun.tail hstep, hevent⟩

/-- Nothing is missing in a slice that is done. -/
theorem Slice.Tracked.received {slice : Slice} {m : ℕ} (h : slice.Tracked st)
    (hstate : slice.state = .done) (hno : slice.sliceNo = m) :
    ∀ b < st.blocks m, b ∈ slice.map := by
  have hblocks := (h.complete (by simp [hstate])).2
  rw [hno, Int.toNat_natCast, h.done hstate, h.counted.data] at hblocks
  have hinside := h.counted.inside
  rw [hno, Int.toNat_natCast] at hinside
  have hsub : slice.map ⊆ Finset.range (st.blocks m) := fun b hb =>
    Finset.mem_range.mpr (hinside b hb)
  have hall : slice.map = Finset.range (st.blocks m) := by
    apply Finset.eq_of_subset_of_card_le hsub
    rw [Finset.card_range]
    omega
  intro b hb
  rw [hall]
  exact Finset.mem_range.mpr hb

/-- A slot keeps the number of its slice until it is set up again. -/
theorem NetMoves.sliceNo_cases (hm : NetMoves s t rest s') (j : ℕ) :
    (s'.slices j).sliceNo = (s.slices j).sliceNo ∨ (s'.slices j).state = .receiving := by
  have hworks : ∀ {s₀ i}, Works i s₀ s' → s₀.slices = s.slices →
      (s'.slices j).sliceNo = (s.slices j).sliceNo := by
    intro s₀ i hw hslices
    rcases eq_or_ne j i with rfl | hj
    · rw [hw.sliceNo_eq, hslices]
    · rw [hw.others j hj, hslices]
  have hinit : ∀ {i n guess},
      (Function.update s.slices i ((s.slices i).start n guess) j).sliceNo = (s.slices j).sliceNo ∨
        (Function.update s.slices i ((s.slices i).start n guess) j).state = .receiving := by
    intro i n guess
    rcases eq_or_ne j i with rfl | hj
    · exact .inr (by rw [Function.update_self]; rfl)
    · exact .inl (by rw [Function.update_of_ne hj])
  have hkept : ∀ {i x}, x.sliceNo = (s.slices i).sliceNo →
      (Function.update s.slices i x j).sliceNo = (s.slices j).sliceNo := by
    intro i x hx
    rcases eq_or_ne j i with rfl | hj
    · rw [Function.update_self, hx]
    · rw [Function.update_of_ne hj]
  cases hm with
  | restart hcurrent hlt hstreaming hok | reserve hmem hok =>
    obtain ⟨-, -, -, guess, -, rfl⟩ := initSlice_ok hok
    exact hinit
  | force hfound hforce => exact .inl (hworks (completeByForce_works hforce).1 rfl)
  | process hprocess =>
    obtain ⟨i, -, hw, -⟩ := process_works_found hprocess
    exact .inl (hworks hw rfl)
  | reuse hlocal hfinish | takeBlock hfinish =>
    exact .inl (hworks (finishFecBlock_works hfinish).1 rfl)
  | takeSlot => exact .inl (hkept rfl)
  | release hpos hstate hclean =>
    obtain ⟨-, hslot, -⟩ | ⟨_, _, -, -, -, -, ⟨-, rfl⟩ | ⟨-, q, -, rfl⟩⟩ := cleanupSlices_ok hclean
    · cases hslot
    · exact .inl rfl
    · exact .inl rfl
  | freeSlot hfree =>
    obtain ⟨q, -, rfl⟩ := freeSlot_ok hfree
    exact .inl (hkept rfl)
  | advanceFirst hadvance | advance hadvance =>
    subst hadvance
    unfold Receiver.advance
    split <;> exact .inl rfl
  | _ => exact .inl rfl

/-- What became of the slices that were complete. -/
structure History (st : Stream) (s : State) : Prop where
  decoded : ∀ i n : ℕ, (s.slices i).state = .fecDone → (s.slices i).sliceNo = n →
    WasCompleted st s n i
  freed : ∀ n < s.freed, WasCompleted st s n (n % nrSlices)

/-- A step that decodes no slice and frees no slot. -/
theorem History.keep (h : History st s) (hstep : (system st defaultMode).Step s s')
    (hfreed : s'.freed = s.freed) (hdecoded : ∀ i, (s'.slices i).state = .fecDone →
      (s.slices i).state = .fecDone ∧ (s'.slices i).sliceNo = (s.slices i).sliceNo) :
    History st s' where
  decoded i n hstate hno := by
    obtain ⟨hbefore, hsame⟩ := hdecoded i hstate
    exact (h.decoded i n hbefore (hsame ▸ hno)).step hstep
  freed n hn := (h.freed n (hfreed ▸ hn)).step hstep

/-- A slot is freed. -/
theorem History.free (h : History st s) (hstep : (system st defaultMode).Step s s')
    (hfreed : s'.freed = s.freed + 1) (hlast : WasCompleted st s s.freed (s.freed % nrSlices))
    (hdecoded : ∀ i, (s'.slices i).state = .fecDone →
      (s.slices i).state = .fecDone ∧ (s'.slices i).sliceNo = (s.slices i).sliceNo) :
    History st s' where
  decoded i n hstate hno := by
    obtain ⟨hbefore, hsame⟩ := hdecoded i hstate
    exact (h.decoded i n hbefore (hsame ▸ hno)).step hstep
  freed n hn := by
    rw [hfreed] at hn
    rcases Nat.lt_succ_iff_lt_or_eq.mp hn with hlt | rfl
    · exact (h.freed n hlt).step hstep
    · exact hlast.step hstep

/-- The FEC thread is through with a slice. -/
theorem History.decode {i : ℕ} {x : Slice} (h : History st s)
    (hstep : (system st defaultMode).Step s s') (hfreed : s'.freed = s.freed)
    (hslices : s'.slices = Function.update s.slices i x)
    (hno : x.sliceNo = (s.slices i).sliceNo)
    (hlast : ∀ n : ℕ, (s.slices i).sliceNo = n → WasCompleted st s' n i) : History st s' where
  decoded j n hstate hj := by
    rw [hslices] at hstate hj
    rcases eq_or_ne j i with rfl | hne
    · rw [Function.update_self, hno] at hj
      exact hlast n hj
    · rw [Function.update_of_ne hne] at hstate hj
      exact (h.decoded j n hstate hj).step hstep
  freed n hn := (h.freed n (hfreed ▸ hn)).step hstep

/-- The network thread completes a slice by data blocks that have arrived, or leaves it to the FEC
thread. -/
theorem History.net (h : History st s) (hs : Settled st s)
    (hreach : (system st defaultMode).Reachable s) (hstep : (system st defaultMode).Step s s')
    (hm : NetMoves s t rest s') (ht : s.tasks = t :: rest) : History st s' := by
  have hdecoded : ∀ i, (s'.slices i).state = .fecDone →
      (s.slices i).state = .fecDone ∧ (s'.slices i).sliceNo = (s.slices i).sliceNo := by
    intro i hstate
    have hbefore : (s.slices i).state = .fecDone := by
      rcases hm.state_cases hs.window ht i with heq | ⟨hcontra, -⟩ | ⟨-, -, hcontra | ⟨hcontra, -⟩⟩ |
        ⟨-, hcontra, -⟩
      · rw [← heq, hstate]
      all_goals
        rw [hstate] at hcontra
        cases hcontra
    refine ⟨hbefore, ?_⟩
    rcases hm.sliceNo_cases i with heq | hcontra
    · exact heq
    · rw [hstate] at hcontra
      cases hcontra
  rcases hm.release_cases (ht ▸ hs.window.stack.chain) with ⟨-, hfreed, -⟩ | ⟨-, hfreed, -⟩ |
    ⟨pos, bytes, rfl, -, hfreed, -⟩
  · exact h.keep hstep hfreed hdecoded
  · exact h.keep hstep hfreed hdecoded
  · refine h.free hstep hfreed (.inl ⟨s, hreach, .refl s, ?_⟩) hdecoded
    obtain ⟨hpos, hlt, hdone⟩ := hs.window.stack.netFrees pos bytes rest ht
    have hno := hs.sliceNo_eq hlt hs.started_le
    have htracked := hs.tracked hlt hs.started_le
    exact ⟨hno, htracked.received (hpos ▸ hdone) hno⟩

/-- The FEC thread marks a slice as decoded after it has decoded it. -/
theorem History.fec (h : History st s) (hs : Settled st s)
    (hreach : (system st defaultMode).Reachable s) (hact : act s .fec = some s')
    (hm : FecMoves s s') : History st s' := by
  have hstep : (system st defaultMode).Step s s' := ⟨.fec, trivial, hact⟩
  have hsame : s'.freed = s.freed → s'.slices = s.slices → History st s' := by
    intro hfreed hslices
    refine h.keep hstep hfreed fun i hstate => ?_
    rw [hslices] at hstate ⊢
    exact ⟨hstate, rfl⟩
  cases hm with
  | @takeDone i hpc hi hstate =>
    refine h.decode hstep rfl rfl rfl fun n hno => .inl ⟨s, hreach, .single hstep, hno, ?_⟩
    have htracked : (s.slices i).Tracked st := hs.plain.tracked i (by omega)
    exact htracked.received hstate hno
  | @decode i mem blocks hpc hdecode =>
    refine h.decode hstep rfl rfl rfl fun n hno =>
      .inr ⟨s, _, hreach, hact, .refl _, hpc, hno, ?_, _, hdecode⟩
    dsimp only
    rw [Function.update_self]
  | @freeBlock i stripe k d b q hpc hstripe hle hk hd hb hq =>
    refine h.decode hstep rfl rfl rfl fun n hno => ?_
    exact (h.decoded i n (hs.window.slots.releasing i stripe k hpc) hno).step hstep
  | releaseSlice hpc hpos hstate hclean =>
    obtain ⟨-, hslot, -⟩ | ⟨_, _, -, -, -, -, ⟨-, rfl⟩ | ⟨-, q, -, rfl⟩⟩ := cleanupSlices_ok hclean
    · cases hslot
    · exact hsame rfl rfl
    · exact hsame rfl rfl
  | @freeSlot pos bytes s₁ hpc hfree =>
    obtain ⟨rfl, hlt, hstate⟩ := hs.window.slots.fecFrees pos bytes hpc
    obtain ⟨q, -, rfl⟩ := freeSlot_ok hfree
    have hno := hs.sliceNo_eq hlt hs.started_le
    refine h.free hstep rfl (h.decoded _ _ hstate hno) fun i hi => ?_
    rcases eq_or_ne i (s.freed % nrSlices) with rfl | hne
    · dsimp only at hi
      rw [Function.update_self] at hi
      cases hi
    · dsimp only at hi ⊢
      rw [Function.update_of_ne hne] at hi ⊢
      exact ⟨hi, rfl⟩
  | _ => exact hsame rfl rfl

/-- So every complete slice has its history. -/
theorem history_of_reachable (h : (system st defaultMode).Reachable s)
    (hrunning : s.failure = none) : History st s := by
  have hinv : s.failure = none → History st s := by
    refine h.invariant_of (P := fun s => s.failure = none → History st s)
      (Q := fun s => (system st defaultMode).Reachable s) (fun s hs => hs) ?_ ?_
    · rintro s ⟨config, streaming, mem, blockData, -, -, -, hstart⟩ -
      obtain ⟨_, _, _, -, -, -, rfl⟩ := start_eq hstart
      refine ⟨fun i n hstate _ => ?_, fun n hn => absurd hn (Nat.not_lt_zero n)⟩
      cases hstate
    · rintro s s' hreach hP ⟨a, ha, hact⟩ hrunning
      obtain ⟨hbefore, hmoves⟩ := act_moves hact hrunning
      have hs := settled_of_reachable hreach hbefore
      have hstep : (system st defaultMode).Step s s' := ⟨a, ha, hact⟩
      have hhistory := hP hbefore
      cases hmoves with
      | receive => exact hhistory.keep hstep rfl fun i hi => ⟨hi, rfl⟩
      | exitWait => exact hhistory.keep hstep rfl fun i hi => ⟨hi, rfl⟩
      | net ht hm => exact hhistory.net hs hreach hstep hm ht
      | fec hm => exact hhistory.fec hs hreach hact hm
      | writer hm => cases hm <;> exact hhistory.keep hstep rfl fun i hi => ⟨hi, rfl⟩
  exact hinv hrunning

/-! ## The answer of `findSlice` -/

/-- What `findSlice(n)` may return: the slot in which slice `n` is, or nothing if the slice was
completed and released. -/
structure Answers (st : Stream) (s : State) (n : ℤ) (found : Option ℕ) : Prop where
  current : ∀ i, found = some i → (s.slices i).sliceNo = n ∧ (s.slices i).Tracked st
  old : found = none → ∃ m : ℕ, n = m ∧ WasCompleted st s m (m % nrSlices) ∧
    st.start m + st.size m ≤ s.released

/-- The network thread goes on alone until it has nothing left to do: what `findSlice` has
returned then. -/
def runAlone : ℕ → State → Option (Option ℕ)
  | 0, _ => none
  | k + 1, s => if s.tasks.isEmpty then some s.found else (netStep s).bind (runAlone k)

/-- The slots in use follow each other up to the current slice. -/
structure Arc (s : State) : Prop where
  freed_le : s.freed ≤ s.started
  started_le : s.started ≤ s.freed + nrSlices
  inUse : ∀ i < nrSlices, (s.slices i).state ≠ .free ↔
    ∃ k, s.freed ≤ k ∧ k < s.started ∧ i = k % nrSlices
  sliceNo : ∀ k, s.freed ≤ k → k < s.started → (s.slices (k % nrSlices)).sliceNo = k
  current : s.currentSlice = if s.started = 0 then none else some ((s.started - 1) % nrSlices)
  currentSliceNo : s.currentSliceNo = s.started - 1

/-- `findSlice` calls no unfinished slice old: neither while other threads go on, nor if it is
called now. -/
structure FindsSlices (st : Stream) (s : State) : Prop where
  scan : s.failure = none → ∀ n pos rest s', s.tasks = .scan n pos :: rest →
    netStep s = some s' → s'.tasks = rest → Answers st s n s'.found
  alone : s.failure = none → ∀ n k found, 0 ≤ n → n ≤ s.currentSliceNo →
    runAlone k (findSlice (s.popped []) n) = some found → Answers st s n found
  arc : Arc s

/-- If the scan ends in a slot with the number, `findSlice` returns the slice itself. -/
theorem answers_found (hs : Settled st s) (hn : 0 ≤ n) (hno : (s.slices pos).sliceNo = n) :
    Answers st s n (some pos) where
  current i hi := by
    obtain rfl := Option.some.inj hi
    exact ⟨hno, hs.plain.tracked pos (by omega)⟩
  old hi := by cases hi

/-- If the slice has been released, it may return nothing. -/
theorem answers_old (hreleased : Released st s) (hhistory : History st s) (hn : 0 ≤ n)
    (hfreed : n < s.freed) : Answers st s n none where
  current i hi := by cases hi
  old _ := by
    have hlt : n.toNat < s.freed := by omega
    exact ⟨n.toNat, by omega, hhistory.freed _ hlt, hreleased.le hlt⟩

/-- The scan while the other threads stand still. -/
theorem answers_alone (hs : Settled st s) (hreleased : Released st s) (hhistory : History st s)
    (hn : 0 ≤ n) {found : Option ℕ} : ∀ k pos d, Scanned s n pos d →
      runAlone k { s with tasks := [.scan n pos] } = some found → Answers st s n found := by
  intro k
  induction k with
  | zero =>
    intro pos d _ hrun
    cases hrun
  | succ k ih =>
    intro pos d hscanned hrun
    have hturn : (scanSlot (s.popped []) n pos |> runAlone k) = some found := hrun
    have hend : ∀ r, runAlone k { s with tasks := [], found := r } = some found → found = r := by
      intro r hr
      cases k with
      | zero => cases hr
      | succ k => exact (Option.some.inj hr).symm
    unfold scanSlot at hturn
    split at hturn
    · rename_i hno
      rw [hend _ hturn]
      exact answers_found hs hn hno
    · rename_i hno
      split at hturn
      · rename_i hfree
        rw [hend _ hturn]
        exact answers_old hreleased hhistory hn (hscanned.free hs hn hfree)
      · exact ih _ _ (hscanned.previous hs hn hno) hturn

/-- The slots in use follow each other around the ring of slots. -/
theorem Settled.arc (hs : Settled st s) : Arc s where
  freed_le := hs.window.slots.freed_le
  started_le := hs.started_le
  inUse i hi := by
    constructor
    · intro hstate
      obtain ⟨k, hk, hlt, heq, -⟩ := hs.window.slots.inUse hs.queue.beyond hstate
      exact ⟨k, hk, hlt, heq⟩
    · rintro ⟨k, hk, hlt, rfl⟩
      exact hs.window.slots.taken k hk hlt
  sliceNo k hk hlt := by
    have hle := hs.started_le
    exact hs.sliceNo_eq hlt (by omega)
  current := hs.window.slots.current
  currentSliceNo := by
    have hnumbered := hs.plain.numbered
    omega

/-- All of this together, for a receiver that runs. -/
theorem findsSlices_of_running (h : (system st defaultMode).Reachable s)
    (hrunning : s.failure = none) : FindsSlices st s := by
  have hs := settled_of_reachable h hrunning
  have hreleased := released_of_reachable h hrunning
  have hhistory := history_of_reachable h hrunning
  refine ⟨fun _ => ?_, fun _ => ?_, hs.arc⟩
  · intro n pos rest s' ht hstep htasks
    have hn : 0 ≤ n := hs.stacked.numbers _ (ht ▸ List.mem_cons_self) n rfl
    obtain ⟨d, hscanned⟩ := scanning_of_reachable h hrunning n pos rest ht
    unfold netStep at hstep
    rw [ht] at hstep
    obtain rfl := Option.some.inj hstep
    unfold scanSlot at htasks ⊢
    split
    · rename_i hno
      exact answers_found hs hn hno
    · rename_i hno
      rw [if_neg hno] at htasks
      split
      · rename_i hfree
        exact answers_old hreleased hhistory hn (hscanned.free hs hn hfree)
      · rename_i hfree
        rw [if_neg hfree] at htasks
        exact absurd htasks (List.cons_ne_self _ _)
  · intro n k found hn hle hrun
    have hnumbered := hs.plain.numbered
    have hcurrent : s.currentSlice = some ((s.started - 1) % nrSlices) := by
      rw [hs.window.slots.current, if_neg (by omega)]
    have hscanned := scanned_current hs hcurrent hle
    unfold findSlice at hrun
    rw [show (s.popped []).currentSlice = _ from hcurrent] at hrun
    dsimp only at hrun
    rw [if_pos (show n ≤ (s.popped []).currentSliceNo from hle)] at hrun
    exact answers_alone hs hreleased hhistory hn k _ 0 hscanned hrun

/-- For any messages in any order, `findSlice` never calls an unfinished slice old. -/
theorem findsSlices_of_reachable (h : (system st defaultMode).Reachable s) : FindsSlices st s := by
  cases hfailure : s.failure with
  | none => exact findsSlices_of_running h hfailure
  | some f =>
    obtain ⟨s₀, a, hs₀, hrunning, -, -, -, tasks, q, n, rfl⟩ :=
      fails_of_reachable (h.restrict (C := fun _ _ => True) fun _ _ => trivial) hfailure
    have hs := settled_of_reachable (System.restrict_reachable hs₀) hrunning
    refine ⟨fun hcontra => ?_, fun hcontra => ?_, { hs.arc with }⟩
    · cases hcontra
    · cases hcontra

/-- All blocks of two slices arrive in turn. -/
def allBlocks : List Action :=
  List.replicate 3 .net ++ schedule [(.data 0 0 2 (twoAndOne.dataPayload 0 0), 3),
    (.data 0 1 2 (twoAndOne.dataPayload 0 1), 9), (.data 1 0 1 (twoAndOne.dataPayload 1 0), 12)]

/-- The messages of the example conform to its stream. -/
theorem allBlocks_conform : ∀ a ∈ allBlocks, a.Conforms twoAndOne := by
  have hblock : ∀ n b : ℕ, n < twoAndOne.cuts.length → b < twoAndOne.blocks n →
      twoAndOne.Sends (.data n b (twoAndOne.size n) (twoAndOne.dataPayload n b)) := .data
  intro a ha
  rcases List.mem_append.mp ha with ha | ha
  · obtain ⟨-, rfl⟩ := List.mem_replicate.mp ha
    trivial
  · refine conforms_schedule ?_ a ha
    simp only [List.mem_cons, List.not_mem_nil, or_false, forall_eq_or_imp, forall_eq]
    exact ⟨hblock 0 0 (by decide) (by decide), hblock 0 1 (by decide) (by decide),
      hblock 1 0 (by decide) (by decide)⟩

/-- Both slices have been written, and the first one is looked for again. -/
theorem findsSlices_of_reachable_two_slices : ∃ s, (system twoAndOne defaultMode).Reachable s ∧
    s.freed = 2 ∧ runAlone 3 (findSlice (s.popped []) 0) = some none ∧ FindsSlices twoAndOne s := by
  have hrun : (startTwoAndOne.bind fun s => System.perform act s allBlocks).any fun s =>
      s.freed = 2 ∧ runAlone 3 (findSlice (s.popped []) 0) = some none := by
    decide +kernel
  obtain ⟨s, hs, hlast⟩ := (Option.any_eq_true _ _).mp hrun
  obtain ⟨s₀, hstart, hperform⟩ := Option.bind_eq_some_iff.mp hs
  obtain ⟨hfreed, hold⟩ := of_decide_eq_true hlast
  have hreach : (system twoAndOne defaultMode).Reachable s :=
    ⟨s₀, twoAndOne_init hstart, System.run_of_perform_in allBlocks_conform hperform⟩
  exact ⟨s, hreach, hfreed, hold, findsSlices_of_reachable hreach⟩

end Udpcast.Receiver
