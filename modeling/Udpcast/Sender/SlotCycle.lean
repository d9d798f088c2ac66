import Udpcast.Sender.Accounting

/-!
# Life cycle of the slots

A slot goes from `free_slices_pc` through `makeSlice`, in FEC mode through `fec_data_pc`, and
through the two slices of `netSenderMain` back to `free_slices_pc`. What each queue was given
and what was taken from it is kept beside the sender.
-/

namespace Udpcast.Sender

open Fec (Gf)
open Queue
open Protocol

/-- The sender with the histories of its slots. -/
structure SlotHistory where
  sender : State
  /-- The slots that `makeSlice` has got. -/
  made : List ℕ
  /-- The slots that `freeSlice` has put into `free_slices_pc`. -/
  returned : List ℕ
  /-- The slots that `fecMain` has encoded, with the numbers of their slices. -/
  filled : List (ℕ × ℕ)
  /-- The slots that `netSenderMain` has taken from `fec_data_pc`, with the numbers of the
  slices that it found there. -/
  fetched : List (ℕ × ℕ)
  /-- The turns of the loop in the latest call of `freeSlice`. -/
  turns : ℕ

/-- The histories after a step of the cutter. -/
def SlotHistory.noteCutter (t : SlotHistory) (s : State) : SlotHistory :=
  match t.sender.cutter with
  | .consumedSlot =>
    { t with sender := s, made := t.made ++ [pcGetConsumerPosition t.sender.freeSlicesPc] }
  | .encode i => { t with sender := s, filled := t.filled ++ [(i, (t.sender.slices i).sliceNo)] }
  | _ => { t with sender := s }

/-- The histories after a step of `netSenderMain`. -/
def SlotHistory.noteNet (t : SlotHistory) (s : State) : SlotHistory :=
  match t.sender.net with
  | .cleanupFree => { t with sender := s, turns := 0 }
  | .freeLoop =>
    let pos := pcGetProducerPosition t.sender.freeSlicesPc
    if (t.sender.slices pos).state = .preFree then
      { t with sender := s, returned := t.returned ++ [pos], turns := t.turns + 1 }
    else { t with sender := s }
  | .takeFec =>
    let pos := pcGetConsumerPosition t.sender.fecDataPc
    { t with sender := s, fetched := t.fetched ++ [(pos, (t.sender.slices pos).sliceNo)] }
  | _ => { t with sender := s }

def slotAct (t : SlotHistory) (a : Action) : Option SlotHistory :=
  (act t.sender a).map fun s =>
    match a with
    | .cutter => t.noteCutter s
    | .net => t.noteNet s
    | _ => { t with sender := s }

/-- The sender with empty histories at the start. -/
def slotSystem : System SlotHistory :=
  .ofActions (fun t => system.Init t.sender ∧ t.made = [] ∧ t.returned = [] ∧ t.filled = [] ∧
    t.fetched = []) slotAct

/-- The slot that the cutter works on. -/
def CutterPc.slot : CutterPc → Option ℕ
  | .consumeData i | .consumedData i | .encode i => some i
  | _ => none

/-- The slots of the two slices, in the order of their numbers. During `freeSlice` the
pointer outlives the slot. -/
def SlotHistory.held (t : SlotHistory) : List ℕ :=
  (if t.sender.net = .freeLoop ∧ t.turns ≠ 0 then [] else t.sender.rexmitSlice.toList) ++
    t.sender.xmitSlice.toList

/-- What the slots go through. -/
structure SlotCycle (t : SlotHistory) : Prop where
  /-- `makeSlice` gets a free slot. -/
  free : t.sender.cutter = .consumedSlot →
    (t.sender.slices (pcGetConsumerPosition t.sender.freeSlicesPc)).state = .free
  /-- It is not the slot of a slice, but a pointer may be left to it during `freeSlice`. -/
  unheld : t.sender.cutter = .consumedSlot →
    t.sender.xmitSlice ≠ some (pcGetConsumerPosition t.sender.freeSlicesPc) ∧
      (t.sender.rexmitSlice = some (pcGetConsumerPosition t.sender.freeSlicesPc) →
        t.sender.net = .freeLoop)
  /-- Each use of a slot is over and returned once, or it is at one point of the way. -/
  made_eq : t.made = t.returned ++ t.held ++ (t.filled.drop t.fetched.length).map Prod.fst ++
    t.sender.cutter.slot.toList
  /-- The slots are used in turn. -/
  made_turn : t.made = (List.range t.made.length).map (· % 2)
  /-- `fecMain` fills the slots in the order of the slice numbers. -/
  filled_eq : t.filled = (List.range t.filled.length).map fun j => (j % 2, j)
  /-- What `netSenderMain` takes is what `fecMain` has filled next. -/
  fetched_prefix : t.fetched <+: t.filled
  noOverflow : t.sender.failure ≠ some .overflow
  /-- The loop of `freeSlice` ends in its second turn at the latest. -/
  turns_le : t.sender.net = .freeLoop → t.turns ≤ 1
  freeSlice_ends : t.sender.net = .freeLoop → t.turns = 1 →
    netStep t.sender = some { t.sender with rexmitSlice := none, net := .shift }
  freeSlice_goes : t.sender.net = .freeLoop → (netStep t.sender).isSome
  /-- The slice for which the wait times out. -/
  waiting : t.sender.net = .wait ∨ t.sender.net = .timeout → t.sender.rexmitSlice ≠ none
  noNullSlice : t.sender.failure ≠ some .nullSlice

variable {s s' : State} {t : SlotHistory} {i x : ℕ}

section Pipe

/-- What `netSenderMain` knows about its two slices at each point. -/
def State.PipeInv (s : State) : Prop :=
  match s.net with
  | .messages | .retransmit | .reqack | .newSlice =>
    s.rexmitSlice = none → ∀ x ∈ s.xmitSlice, (s.slices x).state = .new
  | .checkEnd => ∃ x ∈ s.xmitSlice, (s.slices x).state = .new
  | .send => s.rexmitSlice = none →
    (∀ x ∈ s.xmitSlice, (s.slices x).state = .new) ∧ (s.xmitSlice = none → s.atEnd = true)
  | .sending _ => s.xmitSlice ≠ none
  | .exitTest => s.rexmitSlice = none → s.xmitSlice = none ∧ s.atEnd = true
  | .wait | .timeout => s.rexmitSlice ≠ none
  | _ => True

/-- The notes on the two slices do not matter. -/
theorem pipe_frame (h : s.PipeInv) (hnet : s'.net = s.net) (hx : s'.xmitSlice = s.xmitSlice)
    (hr : s'.rexmitSlice = s.rexmitSlice) (hend : s'.atEnd = s.atEnd)
    (hstate : s.net ≠ .freeLoop → ∀ x ∈ s.xmitSlice, (s'.slices x).state = (s.slices x).state) :
    s'.PipeInv := by
  unfold State.PipeInv at h ⊢
  rw [hnet, hx, hr, hend]
  cases hpc : s.net with
  | messages | retransmit | reqack | newSlice =>
    simp only [hpc] at h hstate ⊢
    intro hnone x hmem
    rw [hstate nofun x hmem]
    exact h hnone x hmem
  | checkEnd =>
    simp only [hpc] at h hstate ⊢
    obtain ⟨x, hmem, hnew⟩ := h
    exact ⟨x, hmem, (hstate nofun x hmem).trans hnew⟩
  | send =>
    simp only [hpc] at h hstate ⊢
    intro hnone
    refine ⟨fun x hmem => ?_, (h hnone).2⟩
    rw [hstate nofun x hmem]
    exact (h hnone).1 x hmem
  | init | cleanupAck | cleanupFree | freeLoop | shift | messageDone | messageFree | making
  | takeFec | loopTest | exited => trivial
  | sending _ | exitTest | wait | timeout => simpa only [hpc] using h

/-- The step neither takes nor frees a slot. -/
structure SameCounts (s s' : State) : Prop where
  cutter : s'.cutter = s.cutter
  cuts : s'.cuts = s.cuts
  fec : s'.config.fec = s.config.fec
  allocated : s'.allocated = s.allocated
  taken : s'.taken = s.taken
  freed : s'.freed = s.freed

/-- The slices of `netSenderMain` stay where they are, too. -/
structure SameSlots (s s' : State) : Prop extends SameCounts s s' where
  xmitSlice : s'.xmitSlice = s.xmitSlice
  rexmitSlice : s'.rexmitSlice = s.rexmitSlice
  atEnd : s'.atEnd = s.atEnd
  failure : s'.failure = some .nullSlice → s.failure = some .nullSlice

/-- Doing nothing keeps the counts. -/
theorem SameCounts.rfl : SameCounts s s :=
  ⟨Eq.refl _, Eq.refl _, Eq.refl _, Eq.refl _, Eq.refl _, Eq.refl _⟩

/-- Doing nothing keeps the slots. -/
theorem SameSlots.rfl : SameSlots s s := ⟨.rfl, Eq.refl _, Eq.refl _, Eq.refl _, id⟩

/-- An acknowledgement keeps which slices are in the two slots. -/
theorem sameSlots_ackSlice (r : ℕ) : SameSlots s (ackSlice s r) ∧ (ackSlice s r).net = s.net := by
  have hfec := (sameMode_growSliceSize s.config).fec
  unfold ackSlice
  dsimp only
  split
  · exact ⟨.rfl, rfl⟩
  · split
    · exact ⟨{ SameSlots.rfl (s := s) with fec := hfec }, rfl⟩
    · exact ⟨{ SameSlots.rfl (s := s) with fec := hfec, failure := nofun }, rfl⟩

/-- A REQACK keeps them. -/
theorem sameSlots_sendReqack (r : ℕ) :
    SameSlots s (sendReqack s r) ∧ (sendReqack s r).net = s.net := by
  have hfec := (sameMode_shrinkSliceSize s.config (s.slices r)).fec
  unfold sendReqack
  dsimp only
  split
  · exact sameSlots_ackSlice r
  · split
    · exact ⟨.rfl, rfl⟩
    · exact ⟨{ SameSlots.rfl (s := s) with fec := hfec }, rfl⟩

/-- A round of retransmissions keeps them. -/
theorem sameSlots_doRetransmissions (r : ℕ) :
    SameSlots s (doRetransmissions s r) ∧ (doRetransmissions s r).net = s.net := by
  unfold doRetransmissions
  dsimp only
  split
  · exact ⟨.rfl, rfl⟩
  · split
    · exact ⟨{ SameSlots.rfl (s := s) with }, rfl⟩
    · exact ⟨{ SameSlots.rfl (s := s) with failure := nofun }, rfl⟩

/-- A block that is sent keeps them. -/
theorem sameSlots_sendingStep : SameSlots s (sendingStep s x i) ∧
    ((sendingStep s x i).net = .loopTest ∨ (sendingStep s x i).net = .sending (i + 1) ∨
      (sendingStep s x i).net = s.net) := by
  unfold sendingStep finishSending
  dsimp only
  split
  · split
    · split
      · exact ⟨{ SameSlots.rfl (s := s) with }, .inr (.inl rfl)⟩
      · exact ⟨{ SameSlots.rfl (s := s) with }, .inl rfl⟩
    · exact ⟨{ SameSlots.rfl (s := s) with failure := nofun }, .inr (.inr rfl)⟩
  · exact ⟨{ SameSlots.rfl (s := s) with }, .inl rfl⟩

/-- Points that nothing is claimed for. -/
def NetPc.Unclaimed : NetPc → Prop
  | .cleanupAck | .cleanupFree | .freeLoop | .shift | .messageDone | .messageFree | .making
  | .takeFec | .loopTest | .exited => True
  | _ => False

/-- Where no slot is claimed nothing has to hold. -/
theorem pipe_unclaimed (h : s.net.Unclaimed) : s.PipeInv := by
  unfold State.PipeInv
  cases hpc : s.net <;> simp only [hpc, NetPc.Unclaimed] at h ⊢

/-- A new slice in the transmission slot is in state `SLICE_NEW` or `SLICE_XMITTED`. -/
theorem Inv.new_of_xmit (h : Inv s) (hx : s.xmitSlice = some x)
    (hstate : (s.slices x).state ≠ .xmitted) : (s.slices x).state = .new := by
  obtain ⟨j, hj, hacked, hholds⟩ := h.xmit_holds hx
  exact (hholds.state_taken hacked (by omega)).resolve_right hstate

/-- The slot that `netSenderMain` finds in `fec_data_pc`. -/
theorem Inv.fecSlot (h : Inv s) {n : ℕ} (hpc : s.net = .takeFec)
    (hn : pcConsume s.fecDataPc 1 = some n) :
    pcGetConsumerPosition s.fecDataPc = s.taken % 2 ∧ s.taken < s.cuts.length ∧
      SlotHolds s.cuts s.dataBufSize s.acked s.taken (s.slices (s.taken % 2)).core s.taken := by
  have hfec : s.ring.fec = true := h.net.takeFec hpc
  have hlt : s.taken < s.encoded := h.ring.taken_lt hfec hn
  have hencoded : s.encoded + s.cutter.encoding = s.cuts.length := h.ring.encoded_eq hfec
  have hlength : s.cuts.length ≤ s.freed + 2 := h.ring.length_le
  have hfreed : s.freed ≤ s.taken := h.ring.freed_le.trans h.ring.acked_le
  exact ⟨(h.ring.fecData hfec).consumerPosition_eq, by omega,
    h.ring.slots s.taken hfreed (show s.taken < s.freed + 2 by omega)⟩

/-- Shifting the transmitted slice. -/
theorem pipe_shift (hinv : Inv s) (hfail : s.failure = none) (hpc : s.net = .shift)
    (hstep : netStep s = some s') : s'.PipeInv ∧ s'.failure ≠ some .nullSlice := by
  simp only [netStep, hpc, Option.some.injEq] at hstep
  subst hstep
  split
  · rename_i x hr hx
    split
    · obtain ⟨hsame, hnet⟩ := sameSlots_sendReqack
        (s := { s with net := .messages, rexmitSlice := some x, xmitSlice := none }) x
      refine ⟨?_, fun hnull => absurd (hfail.symm.trans (hsame.failure hnull)) nofun⟩
      have hrexmit := hsame.rexmitSlice
      dsimp only at hnet hrexmit
      simp only [State.PipeInv, hnet, hrexmit]
      exact nofun
    · rename_i hstate
      refine ⟨fun _ y hy => ?_, by simp [hfail]⟩
      obtain rfl : x = y := Option.some.inj (hx.symm.trans hy)
      exact hinv.new_of_xmit hx hstate
  · rename_i hother
    refine ⟨fun hnone x hx => absurd hx (hother x hnone), by simp [hfail]⟩

/-- The points after which nothing is claimed. -/
def NetPc.Resets : NetPc → Prop
  | .init | .cleanupAck | .cleanupFree | .freeLoop | .messageDone | .messageFree | .wait | .timeout
  | .loopTest => True
  | _ => False

/-- A step that fails for no null pointer when the one before did not. -/
theorem failure_ne_nullSlice (hfail : s.failure = none)
    (hsame : s'.failure = some .nullSlice → s.failure = some .nullSlice) :
    s'.failure ≠ some .nullSlice := fun hnull =>
  absurd (hfail.symm.trans (hsame hnull)) (by simp)

/-- After these points nothing is claimed, and no slot has been missed. -/
theorem netStep_resets (hfail : s.failure = none) (hnet : s.net.Resets)
    (hstep : netStep s = some s') : s'.net.Unclaimed ∧ s'.failure ≠ some .nullSlice := by
  cases hpc : s.net with
  | shift | messages | retransmit | reqack | newSlice | making | takeFec | checkEnd | send
  | sending _ | exitTest | exited => simp only [hpc, NetPc.Resets] at hnet
  | init =>
    obtain ⟨failure, rfl, hfailure⟩ := netStep_init hpc hstep
    refine ⟨trivial, ?_⟩
    obtain ⟨rfl, -⟩ | rfl | rfl := hfailure
    · simp [hfail]
    · simp
    · simp
  | cleanupAck =>
    simp only [netStep, hpc, Option.some.injEq] at hstep
    subst hstep
    split
    · split
      · rename_i r hr _
        obtain ⟨hsame, hnet⟩ := sameSlots_ackSlice (s := { s with net := .cleanupFree }) r
        exact ⟨by rw [hnet]; trivial, failure_ne_nullSlice hfail hsame.failure⟩
      · exact ⟨trivial, by simp [hfail]⟩
    · exact ⟨trivial, by simp [hfail]⟩
  | cleanupFree =>
    simp only [netStep, hpc, Option.some.injEq] at hstep
    subst hstep
    split
    · split <;> exact ⟨trivial, by simp [State.setSlice, hfail]⟩
    · exact ⟨trivial, by simp [hfail]⟩
  | freeLoop =>
    simp only [netStep, hpc, Option.some.injEq] at hstep
    subst hstep
    split
    · split
      · exact ⟨by simp only [State.setSlice, hpc]; trivial, by simp [State.setSlice, hfail]⟩
      · exact ⟨by simp only [State.fail, State.setSlice, hpc]; trivial, by simp [State.fail]⟩
    · exact ⟨trivial, by simp [hfail]⟩
  | messageDone =>
    simp only [netStep, hpc, Option.some.injEq] at hstep
    subst hstep
    exact ⟨trivial, by simp [hfail]⟩
  | messageFree =>
    simp only [netStep, hpc, Option.some.injEq] at hstep
    subst hstep
    split
    · exact ⟨trivial, by simp [hfail]⟩
    · exact ⟨by simp only [State.fail, hpc]; trivial, by simp [State.fail]⟩
  | wait =>
    simp only [netStep, hpc, Option.ite_none_left_eq_some, Option.some.injEq] at hstep
    obtain ⟨-, rfl⟩ := hstep
    exact ⟨trivial, by simp [hfail]⟩
  | timeout =>
    simp only [netStep, hpc, Option.some.injEq] at hstep
    subst hstep
    split
    · rename_i r hr
      split
      · split <;> exact ⟨trivial, by simp [exitMainLoop, hfail]⟩
      · obtain ⟨hsame, hnet⟩ := sameSlots_sendReqack (s := { s with net := .loopTest }.setSlice r
          { s.slices r with rxmitId := (s.slices r).rxmitId + 1 }) r
        exact ⟨by rw [hnet]; trivial, failure_ne_nullSlice hfail hsame.failure⟩
    · exact ⟨trivial, by simp [exitMainLoop, hfail]⟩
  | loopTest =>
    simp only [netStep, hpc, Option.some.injEq] at hstep
    subst hstep
    split <;> exact ⟨trivial, by simp [exitMainLoop, hfail]⟩

/-- A REQACK is sent about a slice in the slot for retransmissions, which stays there. -/
theorem pipe_reqack (h : s.PipeInv) (hfail : s.failure = none) (hpc : s.net = .reqack)
    (hstep : netStep s = some s') : s'.PipeInv ∧ s'.failure ≠ some .nullSlice := by
  simp only [State.PipeInv, hpc] at h
  simp only [netStep, hpc, Option.some.injEq] at hstep
  subst hstep
  split
  · rename_i r hr
    split
    · obtain ⟨hsame, hnet⟩ := sameSlots_sendReqack (s := { s with net := .newSlice }.setSlice r
        { s.slices r with rxmitId := (s.slices r).rxmitId + 1 }) r
      have hrexmit := hsame.rexmitSlice.trans hr
      refine ⟨?_, failure_ne_nullSlice hfail hsame.failure⟩
      dsimp only [State.setSlice] at hnet hrexmit
      simp only [State.PipeInv, State.setSlice, hnet, hrexmit]
      simp
    · exact ⟨h, by simp [hfail]⟩
  · exact ⟨h, by simp [hfail]⟩

/-- A slice is taken unless there is one, or the input has come to its end. -/
theorem pipe_newSlice (h : s.PipeInv) (hfail : s.failure = none) (hpc : s.net = .newSlice)
    (hstep : netStep s = some s') : s'.PipeInv ∧ s'.failure ≠ some .nullSlice := by
  simp only [State.PipeInv, hpc] at h
  simp only [netStep, hpc, Option.some.injEq] at hstep
  subst hstep
  split
  · split <;> exact ⟨pipe_unclaimed trivial, by simp [hfail]⟩
  · rename_i hold
    refine ⟨fun hr => ⟨h hr, fun hx => ?_⟩, by simp [hfail]⟩
    by_contra hend
    exact hold ⟨hx, Bool.eq_false_iff.mpr hend, .inr hr⟩

/-- A slice in the slot for transmission is sent if it is new. -/
theorem pipe_send (h : s.PipeInv) (hfail : s.failure = none) (hpc : s.net = .send)
    (hstep : netStep s = some s') : s'.PipeInv ∧ s'.failure ≠ some .nullSlice := by
  simp only [State.PipeInv, hpc] at h
  simp only [netStep, hpc, Option.some.injEq] at hstep
  subst hstep
  split
  · rename_i x hx
    split
    · exact ⟨by simp [State.PipeInv, hx], by simp [hfail]⟩
    · rename_i hstate
      exact ⟨fun hr => absurd ((h hr).1 x hx) hstate, by simp [hfail]⟩
  · rename_i hx
    exact ⟨fun hr => ⟨hx, (h hr).2 hx⟩, by simp [hfail]⟩

/-- `sendSlice` finds its slice in the slot for transmission. -/
theorem pipe_sending (h : s.PipeInv) (hfail : s.failure = none) (hpc : s.net = .sending i)
    (hstep : netStep s = some s') : s'.PipeInv ∧ s'.failure ≠ some .nullSlice := by
  simp only [State.PipeInv, hpc] at h
  obtain ⟨x, hx⟩ := Option.ne_none_iff_exists'.mp h
  simp only [netStep, hpc, hx, Option.some.injEq] at hstep
  subst hstep
  obtain ⟨hsame, hnet⟩ := sameSlots_sendingStep (s := s) (x := x) (i := i)
  refine ⟨?_, failure_ne_nullSlice hfail hsame.failure⟩
  rw [hpc] at hnet
  rcases hnet with hnet | hnet | hnet
  · exact pipe_unclaimed (by rw [hnet]; trivial)
  · simp [State.PipeInv, hnet, hsame.xmitSlice, hx]
  · simp [State.PipeInv, hnet, hsame.xmitSlice, hx]

/-- The wait is for the answers about a slice in the slot for retransmissions. -/
theorem pipe_exitTest (h : s.PipeInv) (hfail : s.failure = none) (hpc : s.net = .exitTest)
    (hstep : netStep s = some s') : s'.PipeInv ∧ s'.failure ≠ some .nullSlice := by
  simp only [State.PipeInv, hpc] at h
  simp only [netStep, hpc, Option.some.injEq] at hstep
  subst hstep
  split
  · exact ⟨pipe_unclaimed trivial, by simp [exitMainLoop, hfail]⟩
  · rename_i hgoes
    split
    · exact ⟨pipe_unclaimed trivial, by simp [exitMainLoop, hfail]⟩
    · have hr : s.rexmitSlice ≠ none := fun hr => hgoes ⟨(h hr).2, hr, (h hr).1⟩
      rw [if_neg hr]
      exact ⟨hr, by simp [hfail]⟩

/-- `netSenderMain` never finds a slot empty that it expects to hold a slice. -/
theorem pipe_netStep (hinv : Inv s) (h : s.PipeInv) (hfail : s.failure = none)
    (hstep : netStep s = some s') : s'.PipeInv ∧ s'.failure ≠ some .nullSlice := by
  cases hpc : s.net with
  | init | cleanupAck | cleanupFree | freeLoop | messageDone | messageFree | wait | timeout
  | loopTest =>
    obtain ⟨hnet, hnull⟩ := netStep_resets hfail (by rw [hpc]; trivial) hstep
    exact ⟨pipe_unclaimed hnet, hnull⟩
  | shift => exact pipe_shift hinv hfail hpc hstep
  | messages =>
    simp only [State.PipeInv, hpc] at h
    simp only [netStep, hpc, Option.some.injEq] at hstep
    subst hstep
    split
    · exact ⟨h, by simp [hfail]⟩
    · rename_i clNo msg rest hincoming
      obtain ⟨slices, db, heq, -⟩ :=
        handleMessage_frame (s := { s with net := .messageDone }) clNo msg
      rw [heq]
      exact ⟨pipe_unclaimed trivial, by simp [hfail]⟩
  | retransmit =>
    simp only [State.PipeInv, hpc] at h
    simp only [netStep, hpc, Option.some.injEq] at hstep
    subst hstep
    split
    · rename_i r hr
      split
      · obtain ⟨hsame, hnet⟩ := sameSlots_doRetransmissions (s := { s with net := .loopTest }) r
        exact ⟨pipe_unclaimed (by rw [hnet]; trivial), failure_ne_nullSlice hfail hsame.failure⟩
      · exact ⟨h, by simp [hfail]⟩
    · exact ⟨h, by simp [hfail]⟩
  | reqack => exact pipe_reqack h hfail hpc hstep
  | newSlice => exact pipe_newSlice h hfail hpc hstep
  | takeFec =>
    simp only [netStep, hpc, Option.map_eq_some_iff] at hstep
    obtain ⟨n, hn, rfl⟩ := hstep
    obtain ⟨hpos, hlt, hholds⟩ := hinv.fecSlot hpc hn
    refine ⟨⟨_, rfl, ?_⟩, by simp [hfail]⟩
    rw [hpos]
    exact hholds.state_new le_rfl hlt
  | checkEnd =>
    simp only [State.PipeInv, hpc] at h
    obtain ⟨x, hx, hnew⟩ := h
    have hx : s.xmitSlice = some x := hx
    simp only [netStep, hpc, hx, Option.some.injEq] at hstep
    subst hstep
    refine ⟨fun _ => ⟨fun y hy => ?_, by simp⟩, by simp [hfail]⟩
    obtain rfl : x = y := Option.some.inj hy
    exact hnew
  | send => exact pipe_send h hfail hpc hstep
  | sending i => exact pipe_sending h hfail hpc hstep
  | exitTest => exact pipe_exitTest h hfail hpc hstep
  | making | exited => simp [netStep, hpc] at hstep

/-- No slice of `netSenderMain` is in the slot that is being filled. -/
theorem Inv.length_le_of_making (h : Inv s) (hmaking : s.cutter.making = 1) :
    s.cuts.length ≤ s.freed + 1 := by
  have hallocated : s.allocated = s.cuts.length + s.cutter.making := h.ring.allocated_eq
  have hle : s.allocated ≤ 2 + s.freed := h.ring.freeSlices.consumed_le
  omega

/-- The slot that the cutter works on. -/
theorem Inv.slot_eq (h : Inv s) (hmaking : s.cutter = .consumeData i ∨ s.cutter = .consumedData i) :
    i = s.cuts.length % 2 ∧ s.cutter.making = 1 := by
  have hcutter := h.ring.cutter
  rcases hmaking with hpc | hpc
  · simp only [RingView.CutterInv, State.ring, hpc] at hcutter
    exact ⟨hcutter, by rw [hpc]; rfl⟩
  · simp only [RingView.CutterInv, State.ring, hpc] at hcutter
    exact ⟨hcutter.1, by rw [hpc]; rfl⟩

/-- Another slot is filled. -/
theorem pipe_fill (hinv : Inv s) (h : s.PipeInv) (hlength : s.cuts.length ≤ s.freed + 1)
    (hi : i = s.cuts.length % 2) (slice : Slice) (hnet : s'.net = s.net)
    (hx : s'.xmitSlice = s.xmitSlice) (hr : s'.rexmitSlice = s.rexmitSlice)
    (hend : s'.atEnd = s.atEnd) (hslices : s'.slices = Function.update s.slices i slice) :
    s'.PipeInv := by
  refine pipe_frame h hnet hx hr hend fun hloop x hx => ?_
  have hne := hinv.held_ne hloop hlength (.inl hx)
  rw [hslices, Function.update_of_ne (by omega)]

/-- The other threads do not empty a slot. -/
theorem pipe_cutterStep (hinv : Inv s) (h : s.PipeInv) (hfail : s.failure = none)
    (hstep : cutterStep s = some s') : s'.PipeInv ∧ s'.failure ≠ some .nullSlice := by
  cases hpc : s.cutter with
  | idle => simp [cutterStep, hpc] at hstep
  | consumeSlot =>
    simp only [cutterStep, hpc, Option.map_eq_some_iff] at hstep
    obtain ⟨n, -, rfl⟩ := hstep
    exact ⟨pipe_frame h rfl rfl rfl rfl fun _ _ _ => rfl, by simp [hfail]⟩
  | consumedSlot =>
    have hpos : pcGetConsumerPosition s.freeSlicesPc = s.cuts.length % 2 := hinv.ring.slot_eq hpc
    have hlength : s.cuts.length ≤ s.freed + 1 := by
      simpa only [RingView.CutterInv, State.ring, hpc] using hinv.ring.cutter
    simp only [cutterStep, hpc] at hstep
    split at hstep
    · obtain rfl := Option.some.inj hstep
      exact ⟨pipe_fill hinv h hlength hpos _ rfl rfl rfl rfl rfl, by simp [State.setSlice, hfail]⟩
    · obtain rfl := Option.some.inj hstep
      exact ⟨pipe_frame h rfl rfl rfl rfl fun _ _ _ => rfl, by simp [State.fail]⟩
  | consumeData i =>
    obtain ⟨hi, hmaking⟩ := hinv.slot_eq (.inl hpc)
    simp only [cutterStep, hpc, Option.map_eq_some_iff] at hstep
    obtain ⟨n, -, rfl⟩ := hstep
    exact ⟨pipe_fill hinv h (hinv.length_le_of_making hmaking) hi _ rfl rfl rfl rfl rfl,
      by simp [State.setSlice, hfail]⟩
  | consumedData i =>
    obtain ⟨hi, hmaking⟩ := hinv.slot_eq (.inr hpc)
    simp only [cutterStep, hpc, Option.some.injEq] at hstep
    subst hstep
    split
    · exact ⟨pipe_fill hinv h (hinv.length_le_of_making hmaking) hi _ rfl rfl rfl rfl rfl,
        by simp [State.setSlice, hfail]⟩
    · exact ⟨⟨i, rfl, by simp [State.setSlice]⟩, by simp [State.setSlice, hfail]⟩
  | encode i =>
    simp only [cutterStep, hpc, Option.some.injEq] at hstep
    subst hstep
    split
    · refine ⟨pipe_frame h rfl rfl rfl rfl fun _ x _ => ?_, by simp [State.setSlice, hfail]⟩
      simp only [State.setSlice, Function.update_apply]
      split
      · rename_i hx
        rw [hx]
      · rfl
    · exact ⟨pipe_frame h rfl rfl rfl rfl fun _ _ _ => rfl, by simp [State.fail]⟩
  | produceFec =>
    simp only [cutterStep, hpc, Option.some.injEq] at hstep
    subst hstep
    split <;> exact ⟨pipe_frame h rfl rfl rfl rfl fun _ _ _ => rfl, by simp [State.fail, hfail]⟩

/-- So no step finds one empty. -/
theorem pipe_act {a : Action} (hinv : Inv s) (h : s.PipeInv) (hact : act s a = some s') :
    s'.PipeInv ∧ s'.failure ≠ some .nullSlice := by
  simp only [act, Option.ite_none_right_eq_some] at hact
  obtain ⟨hfail, hact⟩ := hact
  cases a with
  | reader n =>
    obtain ⟨-, hfail'⟩ := ringInv_readerStep hinv.ring hfail hact
    refine ⟨?_, by simp [hfail']⟩
    rw [readerStep_frame hact]
    exact pipe_frame h rfl rfl rfl rfl fun _ _ _ => rfl
  | cutter => exact pipe_cutterStep hinv h hfail hact
  | net => exact pipe_netStep hinv h hfail hact
  | timeout =>
    obtain ⟨⟨hwait, -⟩, hs⟩ := Option.ite_none_right_eq_some.mp hact
    obtain rfl := Option.some.inj hs
    simp only [State.PipeInv, hwait] at h
    exact ⟨h, by simp [hfail]⟩
  | receive clNo msg =>
    rw [receiveStep_frame hact]
    exact ⟨pipe_frame h rfl rfl rfl rfl fun _ _ _ => rfl, by simp [hfail]⟩
  | announce =>
    obtain ⟨hframe, hfail'⟩ := announceStep_frame hact
    constructor
    · rw [hframe]
      exact pipe_frame h rfl rfl rfl rfl fun _ _ _ => rfl
    · rcases hfail' with hfail' | hfail' <;> simp [hfail', hfail]

end Pipe

section Histories

/-- `netSenderMain` takes and frees slots at three points only. -/
theorem netStep_sameCounts (hloop : s.net ≠ .freeLoop) (htake : s.net ≠ .takeFec)
    (hnew : s.net ≠ .newSlice) (hstep : netStep s = some s') :
    SameCounts s s' ∧ (s'.net = .freeLoop → s.net = .cleanupFree) := by
  have hmove : ∀ net, SameCounts s { s with net := net } :=
    fun net => { SameCounts.rfl (s := s) with }
  cases hpc : s.net with
  | freeLoop => contradiction
  | takeFec => contradiction
  | newSlice => contradiction
  | making => simp [netStep, hpc] at hstep
  | exited => simp [netStep, hpc] at hstep
  | init =>
    obtain ⟨failure, rfl, -⟩ := netStep_init hpc hstep
    exact ⟨{ SameCounts.rfl (s := s) with fec := (sameMode_initSliceSize s.config).fec }, nofun⟩
  | cleanupAck =>
    simp only [netStep, hpc, Option.some.injEq] at hstep
    subst hstep
    split
    · split
      · rename_i r hr _
        obtain ⟨hsame, hnet⟩ := sameSlots_ackSlice (s := { s with net := .cleanupFree }) r
        exact ⟨{ hsame.toSameCounts with }, fun h => absurd (hnet.symm.trans h) nofun⟩
      · exact ⟨hmove _, nofun⟩
    · exact ⟨hmove _, nofun⟩
  | cleanupFree =>
    simp only [netStep, hpc, Option.some.injEq] at hstep
    subst hstep
    split
    · split <;> exact ⟨{ SameCounts.rfl (s := s) with }, fun _ => rfl⟩
    · exact ⟨{ SameCounts.rfl (s := s) with }, fun _ => rfl⟩
  | shift =>
    simp only [netStep, hpc, Option.some.injEq] at hstep
    subst hstep
    split
    · split
      · rename_i x _ _ _
        obtain ⟨hsame, hnet⟩ := sameSlots_sendReqack
          (s := { s with net := .messages, rexmitSlice := some x, xmitSlice := none }) x
        exact ⟨{ hsame.toSameCounts with }, fun h => absurd (hnet.symm.trans h) nofun⟩
      · exact ⟨hmove _, nofun⟩
    · exact ⟨hmove _, nofun⟩
  | messages =>
    simp only [netStep, hpc, Option.some.injEq] at hstep
    subst hstep
    split
    · exact ⟨hmove _, nofun⟩
    · rename_i clNo msg rest hincoming
      obtain ⟨slices, db, heq, -⟩ :=
        handleMessage_frame (s := { s with net := .messageDone }) clNo msg
      rw [heq]
      exact ⟨{ SameCounts.rfl (s := s) with }, nofun⟩
  | messageDone =>
    simp only [netStep, hpc, Option.some.injEq] at hstep
    subst hstep
    exact ⟨{ SameCounts.rfl (s := s) with }, nofun⟩
  | messageFree | checkEnd =>
    simp only [netStep, hpc, Option.some.injEq] at hstep
    subst hstep
    split
    · exact ⟨{ SameCounts.rfl (s := s) with }, nofun⟩
    · exact ⟨{ SameCounts.rfl (s := s) with }, fun h => absurd (hpc.symm.trans h) nofun⟩
  | retransmit =>
    simp only [netStep, hpc, Option.some.injEq] at hstep
    subst hstep
    split
    · rename_i r hr
      split
      · obtain ⟨hsame, hnet⟩ := sameSlots_doRetransmissions (s := { s with net := .loopTest }) r
        exact ⟨{ hsame.toSameCounts with }, fun h => absurd (hnet.symm.trans h) nofun⟩
      · exact ⟨hmove _, nofun⟩
    · exact ⟨hmove _, nofun⟩
  | reqack =>
    simp only [netStep, hpc, Option.some.injEq] at hstep
    subst hstep
    split
    · rename_i r hr
      split
      · obtain ⟨hsame, hnet⟩ := sameSlots_sendReqack (s := { s with net := .newSlice }.setSlice r
          { s.slices r with rxmitId := (s.slices r).rxmitId + 1 }) r
        exact ⟨{ hsame.toSameCounts with }, fun h => absurd (hnet.symm.trans h) nofun⟩
      · exact ⟨hmove _, nofun⟩
    · exact ⟨hmove _, nofun⟩
  | send =>
    simp only [netStep, hpc, Option.some.injEq] at hstep
    subst hstep
    split
    · split <;> exact ⟨hmove _, nofun⟩
    · exact ⟨hmove _, nofun⟩
  | sending i =>
    simp only [netStep, hpc, Option.some.injEq] at hstep
    subst hstep
    split
    · rename_i x hx
      obtain ⟨hsame, hnet⟩ := sameSlots_sendingStep (s := s) (x := x) (i := i)
      rw [hpc] at hnet
      refine ⟨hsame.toSameCounts, fun h => ?_⟩
      rcases hnet with hnet | hnet | hnet <;> exact absurd (hnet.symm.trans h) nofun
    · exact ⟨{ SameCounts.rfl (s := s) with }, fun h => absurd (hpc.symm.trans h) nofun⟩
  | exitTest =>
    simp only [netStep, hpc, Option.some.injEq] at hstep
    subst hstep
    split
    · exact ⟨{ SameCounts.rfl (s := s) with }, nofun⟩
    · split
      · exact ⟨{ SameCounts.rfl (s := s) with }, nofun⟩
      · split
        · exact ⟨{ SameCounts.rfl (s := s) with }, fun h => absurd (hpc.symm.trans h) nofun⟩
        · exact ⟨hmove _, nofun⟩
  | wait =>
    simp only [netStep, hpc, Option.ite_none_left_eq_some, Option.some.injEq] at hstep
    obtain ⟨-, rfl⟩ := hstep
    exact ⟨hmove _, nofun⟩
  | timeout =>
    simp only [netStep, hpc, Option.some.injEq] at hstep
    subst hstep
    split
    · rename_i r hr
      split
      · obtain ⟨db, exit⟩ := dropClients s.db (s.slices r)
        dsimp only
        split <;> exact ⟨{ SameCounts.rfl (s := s) with }, nofun⟩
      · obtain ⟨hsame, hnet⟩ := sameSlots_sendReqack (s := { s with net := .loopTest }.setSlice r
          { s.slices r with rxmitId := (s.slices r).rxmitId + 1 }) r
        exact ⟨{ hsame.toSameCounts with }, fun h => absurd (hnet.symm.trans h) nofun⟩
    · exact ⟨{ SameCounts.rfl (s := s) with }, nofun⟩
  | loopTest =>
    simp only [netStep, hpc, Option.some.injEq] at hstep
    subst hstep
    split
    · exact ⟨hmove _, nofun⟩
    · exact ⟨{ SameCounts.rfl (s := s) with }, nofun⟩

/-- The slot is not yet encoded. -/
def CutterPc.unfilled : CutterPc → ℕ
  | .encode _ => 1
  | _ => 0

/-- A slot that is not yet encoded belongs to a slice that is cut but not in the queue. -/
theorem CutterPc.unfilled_le (pc : CutterPc) : pc.unfilled ≤ pc.encoding := by
  cases pc <;> simp [unfilled, encoding]

/-- The slots of the slices from `a` on, as many as `n`. -/
def slotsFrom (a n : ℕ) : List ℕ := (List.range' a n).map (· % 2)

/-- The slots of the first `n` slices with the slice numbers. -/
def numbered (n : ℕ) : List (ℕ × ℕ) := (List.range n).map fun j => (j % 2, j)

/-- One slot more. -/
theorem slotsFrom_succ (a n : ℕ) : slotsFrom a (n + 1) = slotsFrom a n ++ [(a + n) % 2] := by
  rw [slotsFrom, List.range'_concat, List.map_append]
  simp [slotsFrom]

/-- Two stretches of slots that follow one another are one. -/
theorem slotsFrom_append (a n m : ℕ) :
    slotsFrom a n ++ slotsFrom (a + n) m = slotsFrom a (n + m) := by
  rw [slotsFrom, slotsFrom, slotsFrom, ← List.map_append, List.range'_append_1]

/-- One slice more. -/
theorem numbered_succ (n : ℕ) : numbered (n + 1) = numbered n ++ [(n % 2, n)] := by
  rw [numbered, List.range_succ, List.map_append]
  rfl

/-- The slices are numbered in order. -/
theorem numbered_prefix {n m : ℕ} (h : n ≤ m) : numbered n <+: numbered m := by
  obtain ⟨k, rfl⟩ := Nat.exists_eq_add_of_le h
  rw [numbered, numbered, List.range_add, List.map_append]
  exact List.prefix_append ..

/-- There is one entry for each number. -/
theorem length_numbered (n : ℕ) : (numbered n).length = n := by simp [numbered]

/-- The slots after the first `n` slices go on in turn. -/
theorem drop_numbered (n m : ℕ) : ((numbered m).drop n).map Prod.fst = slotsFrom n (m - n) := by
  rw [numbered, slotsFrom, List.range_eq_range', ← List.map_drop, List.drop_range', List.map_map]
  simp

/-- The histories against the counts of the slots. -/
structure Histories (t : SlotHistory) : Prop where
  made : t.made = slotsFrom 0 t.sender.allocated
  returned : t.returned = slotsFrom 0 t.sender.freed
  filled : t.filled = numbered
    (if t.sender.config.fec then t.sender.cuts.length - t.sender.cutter.unfilled else 0)
  fetched : t.fetched = numbered (if t.sender.config.fec then t.sender.taken else 0)
  turns : t.sender.net = .freeLoop → t.turns + t.sender.acked = t.sender.freed + 1
  rexmitSlice : t.sender.net = .freeLoop → t.turns = 0 →
    t.sender.rexmitSlice = some (t.sender.freed % 2)

/-- The step of another thread. -/
theorem histories_frame (h : Histories t) (hsame : SameCounts t.sender s')
    (hnet : s'.net = t.sender.net) (hacked : s'.acked = t.sender.acked)
    (hr : s'.rexmitSlice = t.sender.rexmitSlice) : Histories { t with sender := s' } where
  made := by rw [hsame.allocated]; exact h.made
  returned := by rw [hsame.freed]; exact h.returned
  filled := by rw [hsame.fec, hsame.cuts, hsame.cutter]; exact h.filled
  fetched := by rw [hsame.fec, hsame.taken]; exact h.fetched
  turns := by rw [hnet, hacked, hsame.freed]; exact h.turns
  rexmitSlice := by rw [hnet, hr, hsame.freed]; exact h.rexmitSlice

/-- The slice that `fecMain` has just cut. -/
theorem Inv.encoding_slot (h : Inv s) (hpc : s.cutter = .encode i) : s.config.fec = true ∧
    ∃ j, s.cuts.length = j + 1 ∧ i = j % 2 ∧ (s.slices i).sliceNo = j := by
  have hcutter := h.ring.cutter
  simp only [RingView.CutterInv, State.ring, hpc] at hcutter
  obtain ⟨hfec, hi⟩ := hcutter
  have htaken : s.taken + s.cutter.encoding ≤ s.cuts.length := h.ring.taken_le
  rw [hpc] at htaken
  have hone : (CutterPc.encode i).encoding = 1 := rfl
  have hfreed : s.freed ≤ s.taken := h.ring.freed_le.trans h.ring.acked_le
  have hlength : s.cuts.length ≤ s.freed + 2 := h.ring.length_le
  obtain ⟨j, hj⟩ : ∃ j, s.cuts.length = j + 1 := ⟨s.cuts.length - 1, by omega⟩
  have hij : i = j % 2 := by omega
  have hslot := h.ring.slots j (show s.freed ≤ j by omega) (show j < s.freed + 2 by omega)
  rw [← hij] at hslot
  exact ⟨hfec, j, hj, hij, hslot.sliceNo_eq (show j < s.cuts.length by omega)⟩

/-- `makeSlice` fills the slots in turn. -/
theorem histories_cutterStep (hinv : Inv t.sender) (h : Histories t)
    (hstep : cutterStep t.sender = some s') : Histories (t.noteCutter s') := by
  have hfree : t.sender.cutter = .consumedSlot → (t.sender.slices
      (pcGetConsumerPosition t.sender.freeSlicesPc)).state = .free := fun hpc => by
    have hpos : pcGetConsumerPosition t.sender.freeSlicesPc = t.sender.cuts.length % 2 :=
      hinv.ring.slot_eq hpc
    rw [hpos]
    exact hinv.ring.slot_free hpc
  have hallocated : t.sender.allocated = t.sender.cuts.length + t.sender.cutter.making :=
    hinv.ring.allocated_eq
  obtain ⟨s, made, returned, filled, fetched, turns⟩ := t
  have hfilled : filled = numbered
    (if s.config.fec then s.cuts.length - s.cutter.unfilled else 0) := h.filled
  dsimp only at hallocated hfree hinv hstep ⊢
  unfold SlotHistory.noteCutter
  dsimp only
  cases hpc : s.cutter with
  | idle => simp [cutterStep, hpc] at hstep
  | consumeSlot | consumeData i =>
    simp only [cutterStep, hpc, Option.map_eq_some_iff] at hstep
    obtain ⟨n, -, rfl⟩ := hstep
    rw [hpc] at hfilled
    exact { h with filled := hfilled }
  | consumedSlot =>
    have hpos : pcGetConsumerPosition s.freeSlicesPc = s.cuts.length % 2 := hinv.ring.slot_eq hpc
    simp only [cutterStep, hpc, if_pos (hfree hpc), Option.some.injEq] at hstep
    subst hstep
    rw [hpc] at hallocated hfilled
    exact { h with
      made := by
        have hmade : made = slotsFrom 0 s.allocated := h.made
        dsimp only [State.setSlice]
        rw [slotsFrom_succ, ← hmade, hpos, Nat.zero_add, hallocated]
        rfl
      filled := hfilled }
  | consumedData i =>
    have hfetched : fetched = numbered (if s.config.fec then s.taken else 0) := h.fetched
    simp only [cutterStep, hpc, Option.some.injEq] at hstep
    subst hstep
    cases hfec : s.config.fec with
    | true =>
      rw [hpc, if_pos hfec] at hfilled
      rw [if_pos (by exact hfec)]
      exact { h with
        filled := by simpa [State.setSlice, hfec, CutterPc.unfilled] using hfilled }
    | false =>
      rw [if_neg (by simp [hfec])] at hfilled hfetched
      rw [if_neg (by simp [State.setSlice, hfec])]
      exact { h with
        filled := by simpa [State.setSlice, hfec] using hfilled
        fetched := by simpa [State.setSlice, hfec] using hfetched
        turns := by simp
        rexmitSlice := by simp }
  | encode i =>
    obtain ⟨hfec, j, hj, rfl, hno⟩ := hinv.encoding_slot hpc
    simp only [hpc, hfec, if_true, CutterPc.unfilled, hj, Nat.add_sub_cancel] at hfilled
    have hnew : filled ++ [(j % 2, (s.slices (j % 2)).sliceNo)] = numbered s.cuts.length := by
      rw [hj, numbered_succ, hfilled, hno]
    simp only [cutterStep, hpc, Option.some.injEq] at hstep
    subst hstep
    dsimp only
    split
    · exact { h with filled := by simpa [State.setSlice, hfec, CutterPc.unfilled] using hnew }
    · exact { h with filled := by simpa [State.fail, hfec, CutterPc.unfilled] using hnew }
  | produceFec =>
    simp only [cutterStep, hpc, Option.some.injEq] at hstep
    subst hstep
    dsimp only
    split
    · rw [hpc] at hfilled
      exact { h with filled := hfilled }
    · exact { h with }

/-- `freeSlice` is called. -/
theorem histories_cleanupFree (hinv : Inv s) (h : Histories { t with sender := s })
    (hpc : s.net = .cleanupFree) (hstep : netStep s = some s') :
    Histories { t with sender := s', turns := 0 } := by
  have hinv' := inv_netStep hinv hstep
  have hloop : s'.net = .freeLoop → s'.acked = s'.freed + 1 ∧
      s'.rexmitSlice = some (s'.freed % 2) := by
    intro hnet
    simp only [netStep, hpc, Option.some.injEq] at hstep
    subst hstep
    split at hnet
    · rename_i r hr
      split at hnet
      · rename_i hacked
        have hrexmit : r = s.freed % 2 := hinv.net.rexmit_eq (by simp [hpc]) r hr
        simp only [hr, if_pos hacked] at hinv' ⊢
        obtain ⟨-, hfreed, hslot⟩ := hinv'.net.preFree r (by omega)
          (by simp [State.ring, State.setSlice, Slice.core])
        exact ⟨hfreed, congrArg some hslot⟩
      · contradiction
    · contradiction
  obtain ⟨hsame, -⟩ := netStep_sameCounts (by simp [hpc]) (by simp [hpc]) (by simp [hpc]) hstep
  exact {
    made := by dsimp only; rw [hsame.allocated]; exact h.made
    returned := by dsimp only; rw [hsame.freed]; exact h.returned
    filled := by dsimp only; rw [hsame.fec, hsame.cuts, hsame.cutter]; exact h.filled
    fetched := by dsimp only; rw [hsame.fec, hsame.taken]; exact h.fetched
    turns := fun hnet => by
      have := (hloop hnet).1
      dsimp only
      omega
    rexmitSlice := fun hnet _ => (hloop hnet).2 }

/-- A turn of the loop in `freeSlice`. -/
theorem histories_freeLoop (hinv : Inv t.sender) (h : Histories t) (hpc : t.sender.net = .freeLoop)
    (hstep : netStep t.sender = some s') : Histories (t.noteNet s') := by
  have hinv' := inv_netStep hinv hstep
  have hpos : pcGetProducerPosition t.sender.freeSlicesPc = t.sender.freed % 2 :=
    hinv.ring.freeSlices.producerPosition_eq.trans (Nat.add_mod_left 2 t.sender.freed)
  have hturns := h.turns hpc
  simp only [netStep, hpc, hpos, Option.some.injEq] at hstep
  simp only [SlotHistory.noteNet, hpc, hpos]
  split at hstep
  · rename_i hpre
    obtain ⟨-, hacked, -⟩ := hinv.net.preFree (t.sender.freed % 2) (Nat.mod_lt _ (by omega)) hpre
    have hacked : t.sender.acked = t.sender.freed + 1 := hacked
    have hreturned : t.returned ++ [t.sender.freed % 2] = slotsFrom 0 (t.sender.freed + 1) := by
      rw [slotsFrom_succ, ← h.returned, Nat.zero_add]
    rw [if_pos hpre]
    split at hstep
    · subst hstep
      exact { h with
        returned := hreturned
        turns := fun _ => by
          dsimp only [State.setSlice]
          omega
        rexmitSlice := nofun }
    · subst hstep
      exact absurd rfl hinv'.noOverflow
  · rename_i hpre
    subst hstep
    rw [if_neg hpre]
    exact { h with
      turns := nofun
      rexmitSlice := nofun }

/-- `netSenderMain` fetches the slots in the order in which they were filled. -/
theorem histories_takeFec (hinv : Inv t.sender) (h : Histories t) (hpc : t.sender.net = .takeFec)
    (hstep : netStep t.sender = some s') : Histories (t.noteNet s') := by
  have hfec : t.sender.config.fec = true := hinv.net.takeFec hpc
  simp only [netStep, hpc, Option.map_eq_some_iff] at hstep
  obtain ⟨n, hn, rfl⟩ := hstep
  obtain ⟨hpos, hlt, hholds⟩ := hinv.fecSlot hpc hn
  have hno : (t.sender.slices (t.sender.taken % 2)).sliceNo = t.sender.taken :=
    hholds.sliceNo_eq hlt
  have hfetched := h.fetched
  rw [if_pos hfec] at hfetched
  simp only [SlotHistory.noteNet, hpc, hpos, hno]
  exact { h with
    fetched := by
      dsimp only
      rw [if_pos hfec, numbered_succ, hfetched]
    turns := nofun
    rexmitSlice := nofun }

/-- A new slice does not change the histories. -/
theorem histories_newSlice (h : Histories t) (hpc : t.sender.net = .newSlice)
    (hstep : netStep t.sender = some s') : Histories { t with sender := s' } := by
  simp only [netStep, hpc, Option.some.injEq] at hstep
  subst hstep
  split
  · split
    · exact { h with turns := nofun, rexmitSlice := nofun }
    · rename_i hfec
      have hfilled := h.filled
      rw [if_neg hfec] at hfilled
      exact { h with
        filled := by
          dsimp only
          rw [if_neg hfec]
          exact hfilled
        turns := nofun
        rexmitSlice := nofun }
  · exact { h with turns := nofun, rexmitSlice := nofun }

/-- Every step keeps the histories. -/
theorem histories_slotAct {a : Action} {t' : SlotHistory} (hinv : Inv t.sender) (h : Histories t)
    (hact : slotAct t a = some t') : Histories t' := by
  obtain ⟨s, hs, rfl⟩ := Option.map_eq_some_iff.mp hact
  simp only [act, Option.ite_none_right_eq_some] at hs
  obtain ⟨-, hs⟩ := hs
  cases a with
  | reader n =>
    refine histories_frame h ?_ ?_ ?_ ?_ <;> rw [readerStep_frame hs]
    exact { SameCounts.rfl (s := t.sender) with }
  | cutter => exact histories_cutterStep hinv h hs
  | timeout =>
    obtain ⟨-, hs⟩ := Option.ite_none_right_eq_some.mp hs
    obtain rfl := Option.some.inj hs
    exact { h with turns := by simp, rexmitSlice := by simp }
  | receive clNo msg =>
    refine histories_frame h ?_ ?_ ?_ ?_ <;> rw [receiveStep_frame hs]
    exact { SameCounts.rfl (s := t.sender) with }
  | announce =>
    refine histories_frame h ?_ ?_ ?_ ?_ <;> rw [(announceStep_frame hs).1]
    exact { SameCounts.rfl (s := t.sender) with }
  | net =>
    have hstep : netStep t.sender = some s := hs
    cases hpc : t.sender.net with
    | freeLoop => exact histories_freeLoop hinv h hpc hstep
    | takeFec => exact histories_takeFec hinv h hpc hstep
    | newSlice =>
      simp only [SlotHistory.noteNet, hpc]
      exact histories_newSlice h hpc hstep
    | cleanupFree =>
      simp only [SlotHistory.noteNet, hpc]
      exact histories_cleanupFree hinv h hpc hstep
    | _ =>
      obtain ⟨hsame, hloop⟩ :=
        netStep_sameCounts (by simp [hpc]) (by simp [hpc]) (by simp [hpc]) hstep
      have hnet : s.net ≠ .freeLoop := fun hnet => by simp [hpc] at hloop; exact hloop hnet
      simp only [SlotHistory.noteNet, hpc]
      exact {
        made := by rw [hsame.allocated]; exact h.made
        returned := by rw [hsame.freed]; exact h.returned
        filled := by rw [hsame.fec, hsame.cuts, hsame.cutter]; exact h.filled
        fetched := by rw [hsame.fec, hsame.taken]; exact h.fetched
        turns := fun hn => absurd hn hnet
        rexmitSlice := fun hn => absurd hn hnet }

end Histories

section Cycle

/-- A pointer to a slot is a stretch of at most one. -/
theorem toList_slot {slot : Option ℕ} {a : ℕ} (h : ∀ x, slot = some x → x = a % 2) :
    slot.toList = slotsFrom a (slotCount slot) := by
  cases slot with
  | none => rfl
  | some x =>
    rw [h x rfl]
    rfl

/-- The slots of the two slices are those of the oldest slices that are not freed. -/
theorem held_eq (hinv : Inv t.sender) (h : Histories t) :
    t.held = slotsFrom t.sender.freed (t.sender.taken - t.sender.freed) := by
  have hxmit : ∀ x, t.sender.xmitSlice = some x → x = (t.sender.taken + 1) % 2 := hinv.net.xmit_eq
  obtain ⟨r, hheld, hr, htaken⟩ : ∃ r : Option ℕ, t.held = r.toList ++ t.sender.xmitSlice.toList ∧
      (∀ x, r = some x → x = t.sender.freed % 2) ∧
      t.sender.taken = t.sender.freed + slotCount r + slotCount t.sender.xmitSlice := by
    unfold SlotHistory.held
    rcases eq_or_ne t.sender.net .freeLoop with hloop | hloop
    · have hturns := h.turns hloop
      have htaken : t.sender.taken = t.sender.acked + slotCount t.sender.xmitSlice :=
        (hinv.net.freeing hloop).1
      have hfreed : t.sender.freed ≤ t.sender.acked := hinv.ring.freed_le
      rcases Nat.eq_zero_or_pos t.turns with hzero | hpos
      · have hr := h.rexmitSlice hloop hzero
        have hcount : slotCount t.sender.rexmitSlice = 1 := by rw [hr]; rfl
        refine ⟨t.sender.rexmitSlice, by rw [if_neg (by simp [hzero])], fun x hx => ?_, by omega⟩
        exact (Option.some.inj (hr.symm.trans hx)).symm
      · exact ⟨none, by rw [if_pos ⟨hloop, hpos.ne'⟩]; rfl, nofun, by
          rw [show slotCount none = 0 from rfl]
          omega⟩
    · exact ⟨t.sender.rexmitSlice, by rw [if_neg (by simp [hloop])], hinv.net.rexmit_eq hloop,
        hinv.net.taken_eq hloop⟩
  rw [hheld, toList_slot hr, toList_slot (a := t.sender.freed + slotCount r), slotsFrom_append]
  · congr 1
    omega
  · intro x hx
    have hone : slotCount t.sender.xmitSlice = 1 := by rw [hx]; rfl
    have := hxmit x hx
    omega

/-- The slices that are encoded and not taken. -/
theorem queued_eq (hinv : Inv t.sender) (h : Histories t) :
    (t.filled.drop t.fetched.length).map Prod.fst =
      slotsFrom t.sender.taken
        (t.sender.cuts.length - t.sender.cutter.unfilled - t.sender.taken) := by
  rw [h.filled, h.fetched, length_numbered, drop_numbered]
  cases hfec : t.sender.config.fec with
  | true => simp
  | false =>
    have htaken : t.sender.taken = t.sender.cuts.length := hinv.ring.notFec hfec
    have hnone : t.sender.cuts.length - t.sender.cutter.unfilled - t.sender.taken = 0 := by omega
    rw [hnone]
    simp [slotsFrom]

/-- The slot that is being filled is that of the next slice. -/
theorem making_eq (hinv : Inv s) : s.cutter.slot.toList =
    slotsFrom (s.cuts.length - s.cutter.unfilled) (s.cutter.making + s.cutter.unfilled) := by
  cases hpc : s.cutter with
  | consumeData i =>
    rw [(hinv.slot_eq (.inl hpc)).1]
    rfl
  | consumedData i =>
    rw [(hinv.slot_eq (.inr hpc)).1]
    rfl
  | encode i =>
    obtain ⟨-, j, hj, rfl, -⟩ := hinv.encoding_slot hpc
    rw [hj]
    rfl
  | _ => rfl

/-- Every slot that was made has been returned, is held, waits or is being filled. -/
theorem slots_made (hinv : Inv t.sender) (h : Histories t) :
    t.made = t.returned ++ t.held ++ (t.filled.drop t.fetched.length).map Prod.fst ++
      t.sender.cutter.slot.toList := by
  have hallocated : t.sender.allocated = t.sender.cuts.length + t.sender.cutter.making :=
    hinv.ring.allocated_eq
  have htaken : t.sender.taken + t.sender.cutter.encoding ≤ t.sender.cuts.length :=
    hinv.ring.taken_le
  have hfreed : t.sender.freed ≤ t.sender.taken := hinv.ring.freed_le.trans hinv.ring.acked_le
  have hunfilled := t.sender.cutter.unfilled_le
  have hstart : ∀ n m k : ℕ, 0 + n = m → slotsFrom 0 n ++ slotsFrom m k = slotsFrom 0 (n + k) := by
    rintro n m k rfl
    exact slotsFrom_append ..
  rw [h.made, h.returned, held_eq hinv h, queued_eq hinv h, making_eq hinv, hstart _ _ _ (by omega),
    hstart _ _ _ (by omega), hstart _ _ _ (by omega)]
  congr 1
  omega

/-- The loop in `freeSlice` does not block, and its second turn is the last. -/
theorem freeSlice_step (hinv : Inv t.sender) (h : Histories t) (hpc : t.sender.net = .freeLoop) :
    (netStep t.sender).isSome ∧ (t.turns = 1 →
      netStep t.sender = some { t.sender with rexmitSlice := none, net := .shift }) := by
  have hpos : pcGetProducerPosition t.sender.freeSlicesPc = t.sender.freed % 2 :=
    hinv.ring.freeSlices.producerPosition_eq.trans (Nat.add_mod_left 2 t.sender.freed)
  refine ⟨by simp [netStep, hpc], fun hone => ?_⟩
  have hturns := h.turns hpc
  have hpre : (t.sender.slices (t.sender.freed % 2)).state ≠ .preFree := fun hpre => by
    obtain ⟨-, hacked, -⟩ := hinv.net.preFree _ (Nat.mod_lt _ (by omega)) hpre
    have hacked : t.sender.acked = t.sender.freed + 1 := hacked
    omega
  simp only [netStep, hpc, hpos, if_neg hpre]

/-- The slot for a new slice. -/
theorem makeSlice_slot (hinv : Inv s) (hpc : s.cutter = .consumedSlot) :
    (s.slices (pcGetConsumerPosition s.freeSlicesPc)).state = .free ∧
      s.xmitSlice ≠ some (pcGetConsumerPosition s.freeSlicesPc) ∧
      (s.rexmitSlice = some (pcGetConsumerPosition s.freeSlicesPc) → s.net = .freeLoop) := by
  have hpos : pcGetConsumerPosition s.freeSlicesPc = s.cuts.length % 2 := hinv.ring.slot_eq hpc
  have hlength : s.cuts.length ≤ s.freed + 1 := by
    simpa only [RingView.CutterInv, State.ring, hpc] using hinv.ring.cutter
  rw [hpos]
  refine ⟨hinv.ring.slot_free hpc, fun hx => ?_, fun hr => ?_⟩
  · obtain ⟨j, hj, hacked, -⟩ := hinv.xmit_holds hx
    have hxmit : s.cuts.length % 2 = (s.taken + 1) % 2 := hinv.net.xmit_eq _ hx
    have hfreed : s.freed ≤ s.acked := hinv.ring.freed_le
    have htaken : s.taken ≤ s.cuts.length := le_of_add_le_left hinv.ring.taken_le
    omega
  · by_contra hloop
    exact hinv.held_ne hloop hlength (.inr hr) rfl

/-- All invariants of the slots. -/
theorem slots_reachable (h : slotSystem.Reachable t) : Inv t.sender ∧ t.sender.PipeInv ∧
    t.sender.failure ≠ some .nullSlice ∧ Histories t := by
  refine h.invariant (P := fun t => Inv t.sender ∧ t.sender.PipeInv ∧
    t.sender.failure ≠ some .nullSlice ∧ Histories t) ?_ ?_
  · rintro ⟨s, made, returned, filled, fetched, turns⟩
      ⟨⟨config, db, input, inputSize, mem, fecData, hconfig, -, hstart⟩, hempty⟩
    have hinv := inv_start hconfig hstart
    obtain ⟨rfl, rfl, rfl, rfl⟩ := hempty
    obtain ⟨freeMemQueue, -, hstart⟩ := Option.bind_eq_some_iff.mp hstart
    obtain ⟨freeSlicesPc, -, hstart⟩ := Option.bind_eq_some_iff.mp hstart
    obtain ⟨freeSpace, -, rfl⟩ := Option.map_eq_some_iff.mp hstart
    refine ⟨hinv, trivial, nofun, rfl, rfl, ?_, ?_, nofun, nofun⟩
    · simp [numbered]
    · simp [numbered]
  · rintro t t' ⟨hinv, hpipe, -, hhist⟩ ⟨a, hact⟩
    have hhist' := histories_slotAct hinv hhist hact
    obtain ⟨s, hs, rfl⟩ := Option.map_eq_some_iff.mp hact
    obtain ⟨hpipe', hnull⟩ := pipe_act hinv hpipe hs
    have hsender : ∀ u : SlotHistory, u.sender = s → Histories u → Inv u.sender ∧
        u.sender.PipeInv ∧ u.sender.failure ≠ some .nullSlice ∧ Histories u := by
      rintro u rfl hu
      exact ⟨inv_act hinv hs, hpipe', hnull, hu⟩
    refine hsender _ ?_ hhist'
    cases a with
    | cutter => simp only [SlotHistory.noteCutter]; split <;> rfl
    | net =>
      simp only [SlotHistory.noteNet]
      split
      · rfl
      · split <;> rfl
      · rfl
      · rfl
    | _ => rfl

/-- The life cycle of the slots, in every mode and for every interleaving of the threads. -/
theorem slotCycle_of_reachable (h : slotSystem.Reachable t) : SlotCycle t := by
  obtain ⟨hinv, hpipe, hnull, hhist⟩ := slots_reachable h
  have hmade : t.made.length = t.sender.allocated := by rw [hhist.made]; simp [slotsFrom]
  have htaken : t.sender.taken + t.sender.cutter.encoding ≤ t.sender.cuts.length :=
    hinv.ring.taken_le
  have hunfilled := t.sender.cutter.unfilled_le
  exact {
    free := fun hpc => (makeSlice_slot hinv hpc).1
    unheld := fun hpc => (makeSlice_slot hinv hpc).2
    made_eq := slots_made hinv hhist
    made_turn := by
      rw [hmade, hhist.made, slotsFrom, List.range_eq_range']
    filled_eq := by
      conv_rhs => rw [hhist.filled, length_numbered]
      exact hhist.filled
    fetched_prefix := by
      rw [hhist.filled, hhist.fetched]
      split
      · exact numbered_prefix (by omega)
      · exact List.prefix_refl _
    noOverflow := hinv.noOverflow
    turns_le := fun hpc => by
      have hturns := hhist.turns hpc
      have hfreed : t.sender.freed ≤ t.sender.acked := hinv.ring.freed_le
      omega
    freeSlice_ends := fun hpc => (freeSlice_step hinv hhist hpc).2
    freeSlice_goes := fun hpc => (freeSlice_step hinv hhist hpc).1
    waiting := fun hpc => by
      unfold State.PipeInv at hpipe
      rcases hpc with hpc | hpc <;> simpa only [hpc] using hpipe
    noNullSlice := hnull }

/-- FEC mode with one stripe of one block. -/
def fecConfig : NetConfig :=
  { plainConfig with
    fec := true, blockSize := 4, fecStripes := 1, fecRedundancy := 1, fecStripesize := 1 }

/-- The configuration with FEC is valid. -/
theorem validConfig_fecConfig : ValidConfig fecConfig := ⟨by decide, by decide⟩

/-- An empty slice goes through `netSenderMain` while `fecMain` waits for its slot. -/
def emptySliceActions : List Action :=
  List.replicate 3 (.reader 0) ++ List.replicate 12 .cutter ++ List.replicate 15 .net ++
    [.receive 0 (.ok 0), .announce] ++ List.replicate 9 .net ++ [.cutter]

/-- The first slot is returned while the pointer to it is left. -/
theorem slotCycle_second_use : ∃ t, slotSystem.Reachable t ∧ t.made = [0, 1] ∧
    t.returned = [0] ∧ t.fetched = [(0, 0)] ∧ t.sender.cutter = .consumedSlot ∧ SlotCycle t := by
  have hrun : ((start fecConfig ⟨1, {0}⟩ (fun _ => .ofNat 7) 0 (fun _ => .ofNat 0)
      fun _ _ _ => .ofNat 0).bind fun s =>
        System.perform slotAct ⟨s, [], [], [], [], 0⟩ emptySliceActions).any fun t =>
          t.made = [0, 1] ∧ t.returned = [0] ∧ t.fetched = [(0, 0)] ∧
            t.sender.cutter = .consumedSlot := by
    decide +kernel
  obtain ⟨t, ht, hlast⟩ := (Option.any_eq_true _ _).mp hrun
  obtain ⟨s₀, hstart, hperform⟩ := Option.bind_eq_some_iff.mp ht
  obtain ⟨hmade, hreturned, hfetched, hpc⟩ := of_decide_eq_true hlast
  have hreach : slotSystem.Reachable t :=
    ⟨_, ⟨⟨_, _, _, _, _, _, validConfig_fecConfig, ⟨rfl, by decide⟩, hstart⟩, rfl, rfl, rfl, rfl⟩,
      System.run_of_perform hperform⟩
  exact ⟨t, hreach, hmade, hreturned, hfetched, hpc, slotCycle_of_reachable hreach⟩

/-- In the last state of that run `fecMain` has the slot to which the pointer is left. -/
theorem not_unheld : ¬ ∀ s, system.Reachable s → s.cutter = .consumedSlot →
    s.xmitSlice ≠ some (pcGetConsumerPosition s.freeSlicesPc) ∧
      s.rexmitSlice ≠ some (pcGetConsumerPosition s.freeSlicesPc) := by
  intro hall
  have hrun : ((start fecConfig ⟨1, {0}⟩ (fun _ => .ofNat 7) 0 (fun _ => .ofNat 0)
      fun _ _ _ => .ofNat 0).bind fun s => System.perform act s emptySliceActions).any fun s =>
        s.cutter = .consumedSlot ∧
          s.rexmitSlice = some (pcGetConsumerPosition s.freeSlicesPc) := by
    decide +kernel
  obtain ⟨s, hs, hlast⟩ := (Option.any_eq_true _ _).mp hrun
  obtain ⟨s₀, hstart, hperform⟩ := Option.bind_eq_some_iff.mp hs
  obtain ⟨hpc, hr⟩ := of_decide_eq_true hlast
  have hreach : system.Reachable s := ⟨s₀, ⟨_, _, _, _, _, _, validConfig_fecConfig,
    ⟨rfl, by decide⟩, hstart⟩, System.run_of_perform hperform⟩
  exact (hall s hreach hpc).2 hr

end Cycle

end Udpcast.Sender
