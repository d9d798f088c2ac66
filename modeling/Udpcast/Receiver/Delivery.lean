import Udpcast.Receiver.Arrival

/-!
# What is written

The writer takes the bytes of the stream out of the ring one after the other, and stops only when
the empty slice at the end has been released and all bytes are written.
-/

namespace Udpcast.Receiver

open Fec (Gf Block)
open Queue
open Protocol

variable {st : Stream} {s s' : State} {t : Task} {rest : List Task} {k n : ℕ}

/-- The bytes that have been written but not yet taken out of the data queue. -/
def WriterPc.pending : WriterPc → ℕ
  | .consumed n => n
  | _ => 0

/-- Slice `k` has been released. -/
def State.Gone (s : State) (k : ℕ) : Prop := k < s.freed ∨ k = s.freed ∧ s.Frees

/-- The output is the stream up to here, and the writer stops only at its end. -/
structure Delivered (st : Stream) (s : State) : Prop where
  output : s.output = (List.range (s.written + s.writer.pending)).map st.input
  ended : s.data.atEnd = true → s.Gone st.cuts.length
  exited : s.writer = .exited → s.data.atEnd = true ∧ s.written = st.start st.cuts.length

/-- Once the empty slice at the end has been released, everything has. -/
theorem Grounded.released_of_gone (h : Grounded st s) (hgone : s.Gone st.cuts.length) :
    s.released = st.start st.cuts.length := by
  by_cases hfrees : s.Frees
  · rw [h.released.frees hfrees]
    apply st.start_of_ge
    obtain hlt | ⟨heq, -⟩ := hgone <;> omega
  · rw [h.released.idle hfrees]
    apply st.start_of_ge
    exact (hgone.resolve_right fun hnow => hfrees hnow.2).le

/-! ## Releasing the slices -/

/-- What a step of the other threads does to the queue of the writer. -/
structure Feeds (st : Stream) (s s' : State) : Prop where
  output : s'.output = s.output
  writer : s'.writer = s.writer
  written : s'.written = s.written
  gone : ∀ k, s.Gone k → s'.Gone k
  stays : s.data.atEnd = true → s'.data.atEnd = true
  ended : s'.data.atEnd = true → s.data.atEnd = true ∨ ∃ k, st.cuts.length ≤ k ∧ s'.Gone k

/-- Steps of the other threads do not change what has been delivered. -/
theorem Delivered.feeds (h : Delivered st s) (hm : Feeds st s s') : Delivered st s' where
  output := by rw [hm.output, hm.written, hm.writer, h.output]
  ended hend := by
    rcases hm.ended hend with hbefore | ⟨k, hk, hgone⟩
    · exact hm.gone _ (h.ended hbefore)
    · rcases Nat.lt_or_ge st.cuts.length k with hlt | hge
      · obtain hfreed | ⟨rfl, -⟩ := hgone
        · exact .inl (hlt.trans hfreed)
        · exact .inl hlt
      · rwa [← Nat.le_antisymm hge hk]
  exited hexit := by
    rw [hm.writer] at hexit
    obtain ⟨hend, hall⟩ := h.exited hexit
    exact ⟨hm.stays hend, hm.written.trans hall⟩

/-- `pc_produce` does not end the queue. -/
theorem pcProduce_atEnd {q q' : Produconsum} (h : pcProduce q n = some q') :
    q'.atEnd = q.atEnd := by
  obtain ⟨_, -, rfl⟩ := Option.map_eq_some_iff.mp h
  rfl

/-- A step of the network thread takes no slice back that has been released. -/
theorem NetMoves.gone (hm : NetMoves s t rest s') (hs : Settled st s) (ht : s.tasks = t :: rest)
    (hgone : s.Gone k) : s'.Gone k := by
  have hcases := hm.release_cases (ht ▸ hs.window.stack.chain)
  obtain hlt | ⟨rfl, ⟨pos, bytes, tl, htask⟩ | ⟨pos, bytes, hpc⟩⟩ := hgone
  · refine .inl (hlt.trans_le ?_)
    obtain ⟨-, hfreed, -⟩ | ⟨-, hfreed, -⟩ | ⟨_, _, -, -, hfreed, -⟩ := hcases <;> omega
  · obtain ⟨rfl, rfl⟩ := List.cons.inj (ht.symm.trans htask)
    obtain ⟨-, -, hnot, -⟩ | ⟨hbad, -⟩ | ⟨_, _, -, -, hfreed, -⟩ := hcases
    · exact absurd rfl (hnot pos bytes)
    · cases hbad
    · exact .inl (by omega)
  · have hthread : s'.fecThread = .freeSlot pos bytes := by
      obtain ⟨-, hthread⟩ | ⟨hoff, -⟩ := hm.frame.2.2
      · exact hthread.trans hpc
      · rw [hs.window.slots.fecAbsent.mp hoff] at hpc
        cases hpc
    obtain ⟨-, hfreed, -⟩ | ⟨-, hfreed, -⟩ | ⟨_, _, -, -, hfreed, -⟩ := hcases
    · exact .inr ⟨hfreed.symm, .inr ⟨_, _, hthread⟩⟩
    · exact .inr ⟨hfreed.symm, .inr ⟨_, _, hthread⟩⟩
    · exact .inl (by omega)

/-- A slice that is released with no bytes is the one at the end. -/
theorem Grounded.end_of_empty {pos : ℕ} (h : Grounded st s)
    (hpos : pos = pcGetProducerPosition s.freeSlicesPc)
    (hstate : (s.slices pos).state = .done ∨ (s.slices pos).state = .fecDone)
    (hbytes : (s.slices pos).bytes = 0) : st.cuts.length ≤ s.freed := by
  have hslot : pos = s.freed % nrSlices := hpos.trans h.window.slots.producerPosition
  have hlt : s.freed < s.started := by
    refine h.window.slots.freed_lt_of_state (x := (s.slices pos).state) ?_ (by rw [hslot])
    rcases hstate with hstate | hstate <;> simp [hstate]
  have htracked := h.tracked hlt h.started_le
  have hno := h.sliceNo_eq hlt h.started_le
  rw [← hslot] at htracked hno
  have hcomplete := htracked.complete (by rcases hstate with hstate | hstate <;> simp [hstate])
  have hsize := htracked.counted.size hcomplete.1
  rw [hno, Int.toNat_natCast, hbytes] at hsize
  by_contra hless
  have hpositive := h.valid.cut_pos _ (List.getElem_mem (not_le.mp hless))
  rw [Stream.size, List.getD_eq_getElem _ _ (not_le.mp hless)] at hsize
  omega

/-- `advanceReceivedPointer` moves the pointer and sets the tasks. -/
theorem advance_eq (s : State) (pos : ℕ) : ∃ tasks ptr n,
    advance s pos = { s with tasks := tasks, receivedPtr := ptr, receivedSliceNo := n } := by
  unfold advance
  split
  · exact ⟨_, s.receivedPtr, _, rfl⟩
  · exact ⟨s.tasks, _, s.receivedSliceNo, rfl⟩

/-- A step of the network thread feeds the writer. -/
theorem NetMoves.feeds (hm : NetMoves s t rest s') (hg : Grounded st s)
    (ht : s.tasks = t :: rest) : Feeds st s s' := by
  have hgone : ∀ k, s.Gone k → s'.Gone k := fun k => hm.gone hg.toSettled ht
  have hsame : s'.output = s.output → s'.writer = s.writer → s'.written = s.written →
      s'.data = s.data → Feeds st s s' := by
    intro houtput hwriter hwritten hdata
    exact ⟨houtput, hwriter, hwritten, hgone, fun hend => hdata ▸ hend,
      fun hend => .inl (hdata ▸ hend)⟩
  have hworks : ∀ {s₀ i}, Works i s₀ s' → s₀.output = s.output → s₀.writer = s.writer →
      s₀.written = s.written → s₀.data = s.data → Feeds st s s' := by
    intro s₀ i hw houtput hwriter hwritten hdata
    exact hsame ((congrArg Rest.output hw.rest_eq).trans houtput)
      ((congrArg Rest.writer hw.rest_eq).trans hwriter)
      ((congrArg Rest.written hw.rest_eq).trans hwritten)
      ((congrArg Rest.data hw.rest_eq).trans hdata)
  cases hm with
  | restart hcurrent hlt hstreaming hinit =>
    rw [hg.plain.notStreaming] at hstreaming
    cases hstreaming
  | reserve hmem hinit =>
    obtain ⟨-, -, -, guess, -, rfl⟩ := initSlice_ok hinit
    exact hsame rfl rfl rfl rfl
  | force hfound hforce => exact hworks (completeByForce_works hforce).1 rfl rfl rfl rfl
  | process hok =>
    obtain ⟨i, -, hw, -⟩ := process_works_found hok
    exact hworks hw rfl rfl rfl rfl
  | reuse hlocal hok | takeBlock hok =>
    exact hworks (finishFecBlock_works hok).1 rfl rfl rfl rfl
  | advanceFirst hadvance | advance hadvance =>
    obtain ⟨_, _, _, heq⟩ := advance_eq (s.popped rest) _
    obtain rfl := hadvance.trans heq
    exact hsame rfl rfl rfl rfl
  | @release pos bytes _ s₁ hpos hstate hclean =>
    obtain ⟨-, hslot, -⟩ | ⟨_, _, -, -, hbytes, hslot, hdata⟩ := cleanupSlices_ok hclean
    · cases hslot
    · obtain ⟨rfl, rfl⟩ := Prod.mk.inj (Option.some.inj hslot)
      obtain ⟨hzero, rfl⟩ | ⟨-, q, hq, rfl⟩ := hdata
      · refine ⟨rfl, rfl, rfl, hgone, fun _ => rfl, fun _ => .inr ⟨s.freed, ?_, ?_⟩⟩
        · exact hg.end_of_empty hpos (.inl hstate) (hbytes.trans hzero)
        · exact .inr ⟨rfl, .inl ⟨_, _, _, rfl⟩⟩
      · have hkept := pcProduce_atEnd hq
        exact ⟨rfl, rfl, rfl, hgone, fun hend => hkept.trans hend, fun hend => .inl (hkept ▸ hend)⟩
  | freeSlot hok =>
    obtain ⟨q, -, rfl⟩ := freeSlot_ok hok
    exact hsame rfl rfl rfl rfl
  | _ => exact hsame rfl rfl rfl rfl

/-- A step of the FEC thread takes no slice back that has been released. -/
theorem FecMoves.gone (hm : FecMoves s s') (hgone : s.Gone k) : s'.Gone k := by
  have htasks := hm.frame.1
  have hsame : s'.freed = s.freed → (∀ pos bytes, s.fecThread ≠ .freeSlot pos bytes) →
      s'.Gone k := by
    intro hfreed hthread
    obtain hlt | ⟨rfl, ⟨pos, bytes, tl, htask⟩ | ⟨pos, bytes, hpc⟩⟩ := hgone
    · exact .inl (hfreed ▸ hlt)
    · exact .inr ⟨hfreed.symm, .inl ⟨_, _, _, htasks.trans htask⟩⟩
    · exact absurd hpc (hthread pos bytes)
  cases hm with
  | freeSlot hpc hok =>
    obtain ⟨q, -, rfl⟩ := freeSlot_ok hok
    refine .inl (Nat.lt_succ_of_le ?_)
    obtain hlt | ⟨rfl, -⟩ := hgone
    · exact hlt.le
    · exact le_rfl
  | releaseSlice hpc hpos hstate hclean =>
    refine hsame ?_ (by simp [hpc])
    obtain ⟨-, hslot, -⟩ | ⟨_, _, -, -, -, -, ⟨-, rfl⟩ | ⟨-, q, -, rfl⟩⟩ := cleanupSlices_ok hclean
    · cases hslot
    · rfl
    · rfl
  | loop hpc | consume hpc | takeFec hpc | takeDone hpc | takeOther hpc | decode hpc | released hpc
  | nextStripe hpc | freeBlock hpc | cleaned hpc => exact hsame rfl (by simp [hpc])

/-- A step of the FEC thread feeds the writer. -/
theorem FecMoves.feeds (hm : FecMoves s s') (hg : Grounded st s) : Feeds st s s' := by
  have hgone : ∀ k, s.Gone k → s'.Gone k := fun k => hm.gone
  cases hm with
  | @releaseSlice pos bytes s₁ hpc hpos hstate hclean =>
    obtain ⟨-, hslot, -⟩ | ⟨_, _, -, -, hbytes, hslot, hdata⟩ := cleanupSlices_ok hclean
    · cases hslot
    · obtain ⟨rfl, rfl⟩ := Prod.mk.inj (Option.some.inj hslot)
      obtain ⟨hzero, rfl⟩ | ⟨-, q, hq, rfl⟩ := hdata
      · refine ⟨rfl, rfl, rfl, hgone, fun _ => rfl, fun _ => .inr ⟨s.freed, ?_, ?_⟩⟩
        · exact hg.end_of_empty hpos (.inr hstate) (hbytes.trans hzero)
        · exact .inr ⟨rfl, .inr ⟨_, _, rfl⟩⟩
      · have hkept := pcProduce_atEnd hq
        exact ⟨rfl, rfl, rfl, hgone, fun hend => hkept.trans hend, fun hend => .inl (hkept ▸ hend)⟩
  | freeSlot hpc hok =>
    obtain ⟨q, -, rfl⟩ := freeSlot_ok hok
    exact ⟨rfl, rfl, rfl, hgone, id, .inl⟩
  | _ => exact ⟨rfl, rfl, rfl, hgone, id, .inl⟩

/-! ## The writer -/

/-- The writer stops when there is nothing left and there will be no more. -/
theorem Grounded.writer_finishes (hg : Grounded st s)
    (hfull : pcConsumeContiguousMinAmount s.data 4096 = some 0) :
    s.data.atEnd = true ∧ s.written = s.released := by
  rw [hg.memory.data.consumeContiguous_eq] at hfull
  have hpos := hg.memory.data.size_pos
  have hmod := Nat.mod_lt s.written hpos
  have hle := hg.written_le
  split at hfull
  · rename_i hcase
    have hzero := Option.some.inj hfull
    have hnothing : s.released - s.written = 0 := by
      split at hzero <;> omega
    exact ⟨hcase.resolve_left (by omega), by omega⟩
  · cases hfull

/-- The writer returns when `pc_consumeContiguousMinAmount` has returned 0. -/
theorem act_writer_finishes (hact : act s (.writer n) = some s') (hpc : s.writer = .wait)
    (hexit : s'.writer = .exited) : pcConsumeContiguousMinAmount s.data 4096 = some 0 := by
  unfold act at hact
  split at hact
  · have hact : writerStep s n = some s' := hact
    unfold writerStep at hact
    rw [hpc] at hact
    obtain ⟨bytes, hbytes, rfl⟩ := Option.map_eq_some_iff.mp hact
    dsimp only at hexit
    split at hexit
    · rename_i hzero
      rw [hbytes, hzero]
    · cases hexit
  · cases hact

/-- The bytes that the writer writes are the next ones of the stream. -/
theorem Intact.next_bytes {pos bytes : ℕ} (h : Intact st s) (hg : Grounded st s)
    (hpc : s.writer = .write pos bytes) (hn : n ≤ bytes) :
    (List.range n).map (fun x => s.dataBuffer (pos + x)) =
      (List.range n).map fun x => st.input (s.written + x) := by
  obtain ⟨rfl, hreleased, hfit⟩ := hg.memory.writing _ _ hpc
  apply List.map_congr_left
  intro x hx
  have hx := List.mem_range.mp hx
  rcases Nat.lt_or_ge (s.written % s.dataBufSize + x) s.dataBufSize with hlt | hge
  · rw [← mod_add_of_lt hlt]
    exact h.stored.ring _ ⟨Nat.le_add_right _ _, .inl (by omega)⟩
  · omega

/-- A step of the writer writes the next bytes of the stream. -/
theorem Delivered.writerMoves (h : Delivered st s) (hintact : Intact st s) (hg : Grounded st s)
    (hact : act s (.writer n) = some s') (hm : WriterMoves s s') : Delivered st s' := by
  obtain ⟨houtput, hended, hexited⟩ := h
  cases hm with
  | finish hpc =>
    obtain ⟨hend, hall⟩ := hg.writer_finishes (act_writer_finishes hact hpc rfl)
    rw [hpc] at houtput
    refine ⟨houtput, hended, fun _ => ⟨hend, ?_⟩⟩
    exact hall.trans (hg.released_of_gone (hended hend))
  | take hpc | consume hpc | giveBack hpc =>
    rw [hpc] at houtput
    exact ⟨houtput, hended, fun hexit => by cases hexit⟩
  | @write pos bytes n hpc hle =>
    have houtput : s.output = (List.range s.written).map st.input := by
      rw [houtput, hpc]
      rfl
    refine ⟨?_, hended, fun hexit => by cases hexit⟩
    dsimp only [WriterPc.pending]
    rw [houtput, hintact.next_bytes hg hpc hle, List.range_add, List.map_append, List.map_map]
    rfl

/-- Every step keeps what has been delivered. -/
theorem Delivered.act {a : Action} (h : Delivered st s) (hintact : Intact st s)
    (hg : Grounded st s) (hg' : Grounded st s') (hact : act s a = some s') : Delivered st s' := by
  obtain ⟨-, hm⟩ := act_moves hact hg'.running
  cases hm with
  | receive hidle =>
    refine h.feeds ⟨rfl, rfl, rfl, fun k hgone => ?_, id, .inl⟩
    obtain hlt | ⟨rfl, ⟨pos, bytes, tl, htask⟩ | hthread⟩ := hgone
    · exact .inl hlt
    · rw [hidle] at htask
      cases htask
    · exact .inr ⟨rfl, .inr hthread⟩
  | exitWait => exact h.feeds ⟨rfl, rfl, rfl, fun _ => id, id, .inl⟩
  | net ht hm => exact h.feeds (hm.feeds hg ht)
  | fec hm => exact h.feeds (hm.feeds hg)
  | writer hm => exact h.writerMoves hintact hg hact hm

/-- In the beginning nothing has been delivered. -/
theorem delivered_start (h : Starts st defaultMode s) : Delivered st s := by
  obtain ⟨config, streaming, mem, blockData, -, -, ⟨-, rfl⟩, hstart⟩ := h
  obtain ⟨_, _, _, -, -, -, rfl⟩ := start_eq hstart
  refine ⟨rfl, fun hend => ?_, fun hexit => ?_⟩
  · cases hend
  · cases hexit

/-- It holds as long as the receiver runs. -/
theorem delivered_of_reachable (hst : st.Valid) (h : (system st defaultMode).Reachable s)
    (hrunning : s.failure = none) : Delivered st s := by
  refine running_of_act (Q := fun s => Grounded st s ∧ Intact st s)
    (fun s hs hrun => ⟨grounded_of_reachable hst hs hrun, intact_of_reachable hst hs hrun⟩)
    (fun _ => delivered_start) ?_ h hrunning
  intro s s' a hs hs' hdelivered _ hact
  exact hdelivered.act hs.2 hs.1 hs'.1 hact

/-- What is written is a beginning of the stream, and all of it once the writer has returned. -/
theorem Delivered.written (h : Delivered st s) (hg : Grounded st s) :
    ∃ m ≤ st.start st.cuts.length, s.output = (List.range m).map st.input ∧
      (s.writer = .exited → m = st.start st.cuts.length ∧ s.data.atEnd = true) := by
  have hend := hg.released_le_end
  refine ⟨_, ?_, h.output, fun hexit => ?_⟩
  · cases hpc : s.writer with
    | consumed n => exact (hg.memory.consumed n hpc).trans hend
    | _ => exact hg.written_le.trans hend
  · obtain ⟨hatEnd, hall⟩ := h.exited hexit
    rw [hexit]
    exact ⟨hall, hatEnd⟩

/-- The step that stops the receiver writes nothing. -/
theorem written_of_reachable (hst : st.Valid) (h : (system st defaultMode).Reachable s) :
    ∃ m ≤ st.start st.cuts.length, s.output = (List.range m).map st.input ∧
      (s.writer = .exited → m = st.start st.cuts.length ∧ s.data.atEnd = true) := by
  cases hfailure : s.failure with
  | none =>
    have hg := grounded_of_reachable hst h hfailure
    exact (delivered_of_reachable hst h hfailure).written hg
  | some f =>
    obtain ⟨s₀, a, hs₀, hbefore, -, -, -, tasks, q, n, rfl⟩ :=
      fails_of_reachable (h.restrict (C := fun _ _ => True) fun _ _ => trivial) hfailure
    have hs₀ := System.restrict_reachable hs₀
    have hg := grounded_of_reachable hst hs₀ hbefore
    exact (delivered_of_reachable hst hs₀ hbefore).written hg

/-- The output is always the beginning of the stream, also if the receiver stops with a failure, and
the writer returns only when it has written the whole stream and the empty slice at the end has been
released. -/
theorem output_of_reachable (hst : st.Valid) (h : (system st defaultMode).Reachable s) :
    (∃ m ≤ st.start st.cuts.length, s.output = (List.range m).map st.input) ∧
      (s.writer = .exited → s.output = (List.range (st.start st.cuts.length)).map st.input ∧
        s.data.atEnd = true ∧ (s.failure = none → s.Gone st.cuts.length)) := by
  obtain ⟨m, hle, houtput, hexited⟩ := written_of_reachable hst h
  refine ⟨⟨m, hle, houtput⟩, fun hexit => ?_⟩
  obtain ⟨rfl, hend⟩ := hexited hexit
  exact ⟨houtput, hend, fun hrunning => (delivered_of_reachable hst h hrunning).ended hend⟩

/-- A stream of three bytes in two slices. -/
def threeBytes : Stream := ⟨fun p => .ofNat (p + 1), [2, 1], 1, 1, 0⟩

/-- The stream of three bytes is one that a sender may send. -/
theorem threeBytes_valid : threeBytes.Valid where
  blockSize_pos := by decide
  cut_pos := by decide
  cut_le := by decide
  dvd _ _ := one_dvd _
  dvd_or_lt _ _ := .inl (one_dvd _)
  stripes_pos _ := by decide
  stripes_le := by decide
  redundancy_le := by decide
  stripe_le := by decide

/-- The second block arrives first, then the rest, and the writer gets rid of two bytes at first. -/
def wholeStream : List Action :=
  List.replicate 3 .net ++ schedule [(.data 0 1 2 (threeBytes.dataPayload 0 1), 3),
    (.data 0 0 2 (threeBytes.dataPayload 0 0), 9), (.data 1 0 1 (threeBytes.dataPayload 1 0), 12),
    (.reqack 2 0 0 ∅, 14)] ++ List.replicate 4 (.writer 2) ++ List.replicate 5 (.writer 1)

/-- Its messages are messages of this stream. -/
theorem wholeStream_conforms : ∀ a ∈ wholeStream, a.Conforms threeBytes := by
  have hblock : ∀ n b : ℕ, n < threeBytes.cuts.length → b < threeBytes.blocks n →
      threeBytes.Sends (.data n b (threeBytes.size n) (threeBytes.dataPayload n b)) := .data
  intro a ha
  simp only [wholeStream, List.mem_append, List.mem_replicate] at ha
  rcases ha with ((⟨-, rfl⟩ | ha) | ⟨-, rfl⟩) | ⟨-, rfl⟩
  · trivial
  · refine conforms_schedule ?_ a ha
    simp only [List.mem_cons, List.not_mem_nil, or_false, forall_eq_or_imp, forall_eq]
    exact ⟨hblock 0 1 (by decide) (by decide), hblock 0 0 (by decide) (by decide),
      hblock 1 0 (by decide) (by decide), .reqack 2 0 ∅ (by decide)⟩
  · trivial
  · trivial

/-- A run that receives three bytes and writes all of them. -/
theorem output_of_reachable_three_bytes : ∃ s, (system threeBytes defaultMode).Reachable s ∧
    s.writer = .exited ∧ s.output = [.ofNat 1, .ofNat 2, .ofNat 3] ∧
    s.output = (List.range 3).map threeBytes.input := by
  have hrun : ((start ⟨1, false, true, 0⟩ false (fun _ => .ofNat 0) fun _ _ => .ofNat 0).bind
      fun s => System.perform act s wholeStream).any fun s =>
        s.writer = .exited ∧ s.output = [.ofNat 1, .ofNat 2, .ofNat 3] := by
    decide +kernel
  obtain ⟨s, hs, hlast⟩ := (Option.any_eq_true _ _).mp hrun
  obtain ⟨s₀, hstart, hperform⟩ := Option.bind_eq_some_iff.mp hs
  obtain ⟨hexit, houtput⟩ := of_decide_eq_true hlast
  have hinit : (system threeBytes defaultMode).Init s₀ :=
    ⟨_, _, _, _, ⟨by decide, by decide⟩, rfl, ⟨rfl, rfl⟩, hstart⟩
  have hreach : (system threeBytes defaultMode).Reachable s :=
    ⟨s₀, hinit, System.run_of_perform_in wholeStream_conforms hperform⟩
  exact ⟨s, hreach, hexit, houtput, ((output_of_reachable threeBytes_valid hreach).2 hexit).1⟩

end Udpcast.Receiver
