import Udpcast.Sender.Ready
import Udpcast.Sender.SlotCycle

/-!
# Who has acknowledged a slice

A client is noted as ready for a slice only if it has said OK about this very slice, also where
timeouts drop clients. So the sender forgets a slice only on the word of those whom it counts.
-/

namespace Udpcast.Sender

open Fec (Gf)
open Queue
open Protocol

/-- Everybody who is ready for the slice has sent an OK about it. -/
def Voted (received : List (ℕ × ClientMsg)) (slice : Slice) : Prop :=
  ∀ clNo ∈ slice.readySet, (clNo, ClientMsg.ok slice.sliceNo) ∈ received

/-- All notes on who is ready rest on messages that have arrived. -/
structure Votes (received : List (ℕ × ClientMsg)) (s : State) : Prop where
  voted : ∀ k, Voted received (s.slices k)
  /-- A slot that is being filled has lost the notes on its last slice. -/
  making : ∀ i, s.cutter = .consumeData i → (s.slices i).readySet = ∅
  ackedBy : ∀ j, ∀ clNo ∈ s.ackedBy j, (clNo, ClientMsg.ok j) ∈ received
  incoming : ∀ m ∈ s.incoming, m ∈ received
  pending : ∀ clNo msg, s.returnChannel = .produce clNo msg → (clNo, msg) ∈ received

variable {received : List (ℕ × ClientMsg)} {s s' : State} {slice : Slice} {i r x clNo : ℕ}

/-- New notes are right if those who are ready have sent an OK. -/
theorem votes_setSlice (h : Votes received s) (hvoted : Voted received slice)
    (hmaking : s.cutter = .consumeData i → slice.readySet = ∅) : Votes received (s.setSlice i slice) :=
  { h with
    voted := fun k => by
      change Voted received (Function.update s.slices i slice k)
      rcases eq_or_ne k i with rfl | hne
      · rw [Function.update_self]
        exact hvoted
      · rw [Function.update_of_ne hne]
        exact h.voted k
    making := fun k hk => by
      change (Function.update s.slices i slice k).readySet = ∅
      rcases eq_or_ne k i with rfl | hne
      · rw [Function.update_self]
        exact hmaking hk
      · rw [Function.update_of_ne hne]
        exact h.making k hk }

/-- A slice that is changed in other notes. -/
theorem votes_keep (h : Votes received s) (hready : slice.readySet = (s.slices i).readySet)
    (hno : slice.sliceNo = (s.slices i).sliceNo) : Votes received (s.setSlice i slice) := by
  refine votes_setSlice h ?_ fun hk => hready.trans (h.making i hk)
  unfold Voted
  rw [hready, hno]
  exact h.voted i

/-- An acknowledgement names those who were ready. -/
theorem votes_ackSlice (h : Votes received s) : Votes received (ackSlice s r) := by
  unfold ackSlice
  dsimp only
  split
  · exact h
  · have hacked : Votes received { s with
        config := growSliceSize s.config
        acked := s.acked + 1
        ackedBy := Function.update s.ackedBy (s.slices r).sliceNo (s.slices r).readySet } :=
      { h with
        ackedBy := fun j c hc => by
          dsimp only at hc
          rcases eq_or_ne j (s.slices r).sliceNo with rfl | hne
          · rw [Function.update_self] at hc
            exact h.voted r c hc
          · rw [Function.update_of_ne hne] at hc
            exact h.ackedBy j c hc }
    have hslot : Votes received (State.setSlice { s with
        config := growSliceSize s.config
        acked := s.acked + 1
        ackedBy := Function.update s.ackedBy (s.slices r).sliceNo (s.slices r).readySet } r
          { s.slices r with state := .acked }) := votes_keep hacked rfl rfl
    split <;> exact { hslot with }

/-- A REQACK leaves the notes. -/
theorem votes_sendReqack (h : Votes received s) : Votes received (sendReqack s r) := by
  unfold sendReqack
  dsimp only
  split
  · exact votes_ackSlice h
  · split
    · exact h
    · exact votes_keep (s := { s with
        config := shrinkSliceSize s.config (s.slices r)
        network := .reqack (s.slices r).sliceNo (s.slices r).bytes (s.slices r).rxmitId
          (s.slices r).readySet :: s.network }) { h with } rfl rfl

/-- So does a new round. -/
theorem votes_round (h : Votes received s) {rxmitId : ℕ} :
    Votes received (sendReqack (s.setSlice r { s.slices r with rxmitId := rxmitId }) r) :=
  votes_sendReqack (votes_keep h rfl rfl)

/-- So does a round of retransmissions. -/
theorem votes_doRetransmissions (h : Votes received s) : Votes received (doRetransmissions s r) := by
  unfold doRetransmissions
  dsimp only
  split
  · exact h
  · split
    · rename_i slice ms hsend
      have hframe := sendSliceAgain_frame hsend
      exact votes_keep (s := { s with network := ms ++ s.network }) { h with } (by rw [hframe])
        (by rw [hframe])
    · exact { h with }

/-- So does the end of a slice. -/
theorem votes_finishSending (h : Votes received s) : Votes received (finishSending s x i) := by
  unfold finishSending
  dsimp only
  refine votes_keep (s := { s with net := .loopTest }) { h with } ?_ ?_
  all_goals split <;> rfl

/-- So does a block that is sent. -/
theorem votes_sendingStep (h : Votes received s) : Votes received (sendingStep s x i) := by
  unfold sendingStep
  dsimp only
  split
  · split
    · split
      · exact { h with }
      · exact votes_finishSending { h with }
    · exact { h with }
  · exact votes_finishSending h

/-! ## Messages -/

/-- A slice that `netSenderMain` holds gets another note. -/
theorem votes_modifySlice {slot : Option ℕ} {f : Slice → Slice} (h : Votes received s)
    (hvoted : ∀ k, slot = some k → Voted received (f (s.slices k)))
    (hheld : ∀ k, slot = some k → s.cutter ≠ .consumeData k) :
    Votes received (s.modifySlice slot f) := by
  cases slot with
  | none => exact h
  | some k => exact votes_setSlice h (hvoted k rfl) fun hk => absurd hk (hheld k rfl)

/-- An OK that has arrived may be noted. -/
theorem markOk_voted (h : Voted received slice) (hmsg : (clNo, ClientMsg.ok slice.sliceNo) ∈ received) :
    Voted received (markOk slice clNo) := by
  have hno : (markOk slice clNo).sliceNo = slice.sliceNo := congrArg SliceCore.sliceNo markOk_core
  intro c hc
  rw [hno]
  rw [markOk_readySet] at hc
  rcases Finset.mem_insert.mp hc with rfl | hold
  · exact hmsg
  · exact h c hold

/-- A RETRANSMIT makes nobody ready. -/
theorem markRetransmit_voted {map : ℕ → Bool} {rxmit : ℤ} (h : Voted received slice) :
    Voted received (markRetransmit slice clNo map rxmit) := by
  have hno : (markRetransmit slice clNo map rxmit).sliceNo = slice.sliceNo :=
    congrArg SliceCore.sliceNo markRetransmit_core
  unfold Voted
  rw [hno, markRetransmit_readySet]
  exact h

/-- A participant that leaves makes nobody ready. -/
theorem forgetClient_voted (h : Voted received slice) : Voted received (forgetClient slice clNo) := by
  have hno : (forgetClient slice clNo).sliceNo = slice.sliceNo :=
    congrArg SliceCore.sliceNo forgetClient_core
  have hsubset : (forgetClient slice clNo).readySet ⊆ slice.readySet := by
    unfold forgetClient
    dsimp only
    split <;> split <;> first | exact Finset.erase_subset _ _ | exact Finset.Subset.refl _
  intro c hc
  rw [hno]
  exact h c (hsubset hc)

/-- `findSlice` finds slices in the pipe only. -/
theorem held_of_findSlice {sliceNo : ℕ} (hfind : findSlice s sliceNo = some i) : s.Held i := by
  unfold findSlice at hfind
  rcases (Option.orElse_eq_some _ _ _).mp hfind with hx | ⟨-, hr⟩
  · exact .inl (Option.filter_eq_some_iff.mp hx).1
  · exact .inr (Option.filter_eq_some_iff.mp hr).1

/-- `modifySlice` leaves the thread that cuts. -/
theorem modifySlice_cutter (slot : Option ℕ) (f : Slice → Slice) :
    (s.modifySlice slot f).cutter = s.cutter := by
  cases slot <;> rfl

/-- It leaves the slot for retransmissions. -/
theorem modifySlice_rexmitSlice (slot : Option ℕ) (f : Slice → Slice) :
    (s.modifySlice slot f).rexmitSlice = s.rexmitSlice := by
  cases slot <;> rfl

/-- A message that has arrived may be handled. -/
theorem votes_handleMessage {msg : ClientMsg} (h : Votes received s)
    (hheld : ∀ k, s.Held k → s.cutter ≠ .consumeData k) (hmsg : (clNo, msg) ∈ received) :
    Votes received (handleMessage s clNo msg) := by
  cases msg with
  | ok sliceNo =>
    simp only [handleMessage]
    split
    · refine votes_modifySlice h (fun k hk => markOk_voted (h.voted k) ?_)
        fun k hk => hheld k (held_of_findSlice hk)
      rw [findSlice_sliceNo hk]
      exact hmsg
    · exact h
  | retransmit sliceNo rxmit map =>
    simp only [handleMessage]
    split
    · exact votes_modifySlice h (fun k _ => markRetransmit_voted (h.voted k))
        fun k hk => hheld k (held_of_findSlice hk)
    · exact h
  | disconnect =>
    have hfirst : Votes received (s.modifySlice s.xmitSlice (forgetClient · clNo)) :=
      votes_modifySlice h (fun k _ => forgetClient_voted (h.voted k)) fun k hk => hheld k (.inl hk)
    have hcutter : (s.modifySlice s.xmitSlice (forgetClient · clNo)).cutter = s.cutter :=
      modifySlice_cutter _ _
    simp only [handleMessage, modifySlice_rexmitSlice]
    generalize s.modifySlice s.xmitSlice (forgetClient · clNo) = first at hfirst hcutter ⊢
    have hboth : Votes received (first.modifySlice s.rexmitSlice (forgetClient · clNo)) :=
      votes_modifySlice hfirst (fun k _ => forgetClient_voted (hfirst.voted k)) fun k hk => by
        rw [hcutter]
        exact hheld k (.inr hk)
    generalize first.modifySlice s.rexmitSlice (forgetClient · clNo) = both at hboth ⊢
    exact { hboth with }
  | other => exact h

/-! ## Steps -/

/-- The cutter fills none of the slots that `netSenderMain` holds. -/
theorem Inv.held_ne_making (h : Inv s) (hnet : s.net ≠ .freeLoop) (hheld : s.Held i) :
    s.cutter ≠ .consumeData i := by
  intro hpc
  obtain ⟨hslot, hmaking⟩ := h.slot_eq (.inl hpc)
  exact h.held_ne hnet (h.length_le_of_making hmaking) hheld hslot

/-- A step of `netSenderMain` rests on messages that have arrived. -/
theorem votes_netStep (hinv : Inv s) (h : Votes received s) (hstep : netStep s = some s') :
    Votes received s' := by
  cases hpc : s.net with
  | making | exited => simp [netStep, hpc] at hstep
  | takeFec =>
    simp only [netStep, hpc, Option.map_eq_some_iff] at hstep
    obtain ⟨n, -, rfl⟩ := hstep
    exact { h with }
  | wait =>
    simp only [netStep, hpc, Option.ite_none_left_eq_some, Option.some.injEq] at hstep
    obtain ⟨-, rfl⟩ := hstep
    exact { h with }
  | newSlice =>
    simp only [netStep, hpc, Option.some.injEq] at hstep
    subst hstep
    split
    · split
      · exact { h with }
      · exact { h with making := by simp }
    · exact { h with }
  | init | messageFree | loopTest | exitTest | send | checkEnd =>
    simp only [netStep, hpc, Option.some.injEq] at hstep
    subst hstep
    repeat' split
    all_goals exact { h with }
  | cleanupAck =>
    simp only [netStep, hpc, Option.some.injEq] at hstep
    subst hstep
    split
    · split
      · exact votes_ackSlice { h with }
      · exact { h with }
    · exact { h with }
  | cleanupFree =>
    simp only [netStep, hpc, Option.some.injEq] at hstep
    subst hstep
    split
    · split
      · exact votes_keep (s := { s with net := .freeLoop }) { h with } rfl rfl
      · exact { h with }
    · exact { h with }
  | freeLoop =>
    simp only [netStep, hpc, Option.some.injEq] at hstep
    subst hstep
    split
    · have hslot : Votes received (s.setSlice (pcGetProducerPosition s.freeSlicesPc)
          { s.slices (pcGetProducerPosition s.freeSlicesPc) with state := .free }) :=
        votes_keep h rfl rfl
      split <;> exact { hslot with }
    · exact { h with }
  | shift =>
    simp only [netStep, hpc, Option.some.injEq] at hstep
    subst hstep
    split
    · split
      · exact votes_sendReqack { h with }
      · exact { h with }
    · exact { h with }
  | messages =>
    simp only [netStep, hpc, Option.some.injEq] at hstep
    subst hstep
    split
    · exact { h with }
    · rename_i clNo msg rest hincoming
      have hmsg := h.incoming (clNo, msg) (by rw [hincoming]; exact List.mem_cons_self)
      exact votes_handleMessage (s := { s with net := .messageDone }) { h with }
        (fun k hk => hinv.held_ne_making (by simp [hpc]) hk) hmsg
  | messageDone =>
    simp only [netStep, hpc, Option.some.injEq] at hstep
    subst hstep
    exact { h with incoming := fun m hm => h.incoming m (List.mem_of_mem_tail hm) }
  | retransmit =>
    simp only [netStep, hpc, Option.some.injEq] at hstep
    subst hstep
    split
    · split
      · exact votes_doRetransmissions { h with }
      · exact { h with }
    · exact { h with }
  | reqack =>
    simp only [netStep, hpc, Option.some.injEq] at hstep
    subst hstep
    split
    · split
      · exact votes_round (s := { s with net := .newSlice }) { h with }
      · exact { h with }
    · exact { h with }
  | sending i =>
    simp only [netStep, hpc, Option.some.injEq] at hstep
    subst hstep
    split
    · exact votes_sendingStep h
    · exact { h with }
  | timeout =>
    simp only [netStep, hpc, Option.some.injEq] at hstep
    subst hstep
    split
    · rename_i r _
      split
      · obtain ⟨db, exit⟩ := dropClients s.db (s.slices r)
        dsimp only
        split <;> exact { h with }
      · exact votes_round (s := { s with net := .loopTest }) { h with }
    · exact { h with }

/-- A step of `makeSlice` begins with nobody ready. -/
theorem votes_cutterStep (h : Votes received s) (hstep : cutterStep s = some s') :
    Votes received s' := by
  cases hpc : s.cutter with
  | idle => simp [cutterStep, hpc] at hstep
  | consumeSlot =>
    simp only [cutterStep, hpc, Option.map_eq_some_iff] at hstep
    obtain ⟨n, -, rfl⟩ := hstep
    exact { h with making := by simp }
  | consumedSlot =>
    simp only [cutterStep, hpc] at hstep
    split at hstep <;> obtain rfl := Option.some.inj hstep
    · have hslot : Votes received (s.setSlice (pcGetConsumerPosition s.freeSlicesPc)
          (.zero (s.slices (pcGetConsumerPosition s.freeSlicesPc)).fecData)) :=
        votes_setSlice h (by simp [Voted, Slice.zero]) (by simp [hpc])
      exact { hslot with
        making := fun k hk => by
          obtain rfl := CutterPc.consumeData.inj hk
          simp [State.setSlice, Slice.zero] }
    · exact { h with }
  | consumeData i =>
    simp only [cutterStep, hpc, Option.map_eq_some_iff] at hstep
    obtain ⟨n, -, rfl⟩ := hstep
    have hempty := h.making i hpc
    refine votes_setSlice (s := { s with
      sliceNo := s.sliceNo + 1, cutter := .consumedData i }) { h with making := by simp } ?_ (by simp)
    unfold Voted
    dsimp only
    rw [hempty]
    simp
  | consumedData i =>
    have hslot : Votes received ({ s with
        data := pcConsumed s.data (s.slices i).bytes
        cuts := s.cuts ++ [(s.slices i).bytes] }.setSlice i { s.slices i with state := .new }) :=
      votes_keep { h with } rfl rfl
    simp only [cutterStep, hpc, Option.some.injEq] at hstep
    subst hstep
    split
    · exact { hslot with making := by simp }
    · exact { hslot with making := by simp }
  | encode i =>
    simp only [cutterStep, hpc, Option.some.injEq] at hstep
    subst hstep
    split
    · exact votes_keep (s := { s with
        dataBuffer := padLastBlock s (s.slices i), cutter := .produceFec })
        { h with making := by simp } rfl rfl
    · exact { h with making := by simp [State.fail] }
  | produceFec =>
    simp only [cutterStep, hpc, Option.some.injEq] at hstep
    subst hstep
    split
    · exact { h with making := by simp }
    · exact { h with }

/-- Every step does, with the message that it may receive. -/
theorem votes_act {a : Action} (hinv : Inv s) (h : Votes received s) (hact : act s a = some s') :
    Votes (record received a) s' := by
  simp only [act, Option.ite_none_right_eq_some] at hact
  obtain ⟨-, hact⟩ := hact
  cases a with
  | reader n =>
    rw [readerStep_frame hact]
    exact { h with }
  | cutter => exact votes_cutterStep h hact
  | net => exact votes_netStep hinv h hact
  | timeout =>
    obtain ⟨-, hs⟩ := Option.ite_none_right_eq_some.mp hact
    obtain rfl := Option.some.inj hs
    exact { h with }
  | receive clNo msg =>
    cases hpc : s.returnChannel with
    | produce _ _ => simp [receiveStep, hpc] at hact
    | receive =>
      simp only [receiveStep, hpc, Option.ite_none_right_eq_some, Option.map_eq_some_iff] at hact
      obtain ⟨-, n, -, rfl⟩ := hact
      exact {
        voted := fun k c hc => List.mem_cons_of_mem _ (h.voted k c hc)
        making := h.making
        ackedBy := fun j c hc => List.mem_cons_of_mem _ (h.ackedBy j c hc)
        incoming := fun m hm => List.mem_cons_of_mem _ (h.incoming m hm)
        pending := fun c m hcm => by
          obtain ⟨rfl, rfl⟩ := ReturnPc.produce.inj hcm
          exact List.mem_cons_self }
  | announce =>
    cases hpc : s.returnChannel with
    | receive => simp [announceStep, hpc] at hact
    | produce clNo msg =>
      simp only [announceStep, hpc, Option.some.injEq] at hact
      subst hact
      split
      · exact { h with
          incoming := fun m hm => by
            rcases List.mem_append.mp hm with hold | hlast
            · exact h.incoming m hold
            · obtain rfl := List.mem_singleton.mp hlast
              exact h.pending clNo msg hpc
          pending := by simp }
      · exact { h with }

/-- So at any time those who are ready have sent an OK. -/
theorem votes_of_reachable {l : Logged} (h : loggedSystem.Reachable l) :
    Inv l.sender ∧ Votes l.received l.sender := by
  refine h.invariant (P := fun l => Inv l.sender ∧ Votes l.received l.sender) ?_ ?_
  · rintro l ⟨⟨config, db, input, inputSize, mem, fecData, hconfig, -, hstart⟩, -⟩
    refine ⟨inv_start hconfig hstart, ?_⟩
    simp only [start, Option.bind_eq_some_iff, Option.map_eq_some_iff] at hstart
    obtain ⟨_, -, _, -, _, -, heq⟩ := hstart
    rw [← heq]
    exact ⟨fun _ => by simp [Voted, Slice.zero], by cases config.fec <;> simp, by simp, by simp,
      by simp⟩
  · rintro l l' ⟨hinv, hvotes⟩ ⟨a, hstep⟩
    obtain ⟨s, hact, rfl⟩ := Option.map_eq_some_iff.mp hstep
    exact ⟨inv_act hinv hact, votes_act hinv hvotes hact⟩

end Udpcast.Sender
