import Udpcast.Sender.Progress

/-!
# Readiness bookkeeping

The ready and answered sets of the two slices against their counters, the table of
participants, and the messages that have arrived. The messages are kept in a log beside
the sender.
-/

namespace Udpcast.Sender

open Fec (Gf)
open Queue
open Protocol

/-- The sender with the messages that `returnChannelMain` has received so far. -/
structure Logged where
  sender : State
  received : List (ℕ × ClientMsg)

/-- The log after an action. -/
def record (received : List (ℕ × ClientMsg)) : Action → List (ℕ × ClientMsg)
  | .receive clNo msg => (clNo, msg) :: received
  | _ => received

def logAct (l : Logged) (a : Action) : Option Logged :=
  (act l.sender a).map fun s => ⟨s, record l.received a⟩

/-- The sender with an empty log at the start. -/
def loggedSystem : System Logged :=
  .ofActions (fun l => system.Init l.sender ∧ l.received = []) logAct

/-- The slice in slot `i` is in the pipe. -/
def State.Held (s : State) (i : ℕ) : Prop := s.xmitSlice = some i ∨ s.rexmitSlice = some i

/-- The notes on a slice in the pipe are right: the counters count the sets, and everybody
who is ready is a participant that has sent an OK. -/
def Bookkept (l : Logged) (slice : Slice) : Prop :=
  slice.nrReady = slice.readySet.card ∧ slice.nrAnswered = slice.answeredSet.card ∧
    slice.readySet ⊆ slice.answeredSet ∧ slice.readySet ⊆ l.sender.db.used ∧
    (slice.nrReady = l.sender.db.nrParticipants →
      ∀ clNo ∈ l.sender.db.used, (clNo, ClientMsg.ok slice.sliceNo) ∈ l.received)

/-- The notes on a slice, in the pipe or not. -/
structure Noted (received : List (ℕ × ClientMsg)) (slice : Slice) : Prop where
  nrReady_eq : slice.nrReady = slice.readySet.card
  nrAnswered_eq : slice.nrAnswered = slice.answeredSet.card
  ready_subset : slice.readySet ⊆ slice.answeredSet
  ok_received : ∀ clNo ∈ slice.readySet, (clNo, ClientMsg.ok slice.sliceNo) ∈ received

/-- The notes on all slices, and where the messages come from. -/
structure Notes (received : List (ℕ × ClientMsg)) (s : State) : Prop where
  noted : ∀ i, Noted received (s.slices i)
  held : ∀ i, s.Held i → (s.slices i).readySet ⊆ s.db.used
  incoming : ∀ m ∈ s.incoming, m ∈ received
  pending : ∀ clNo msg, s.returnChannel = .produce clNo msg → (clNo, msg) ∈ received

section Slice

variable {received : List (ℕ × ClientMsg)} {slice slice' : Slice} {clNo : ℕ}

/-- Nothing is noted on a fresh slice. -/
theorem Noted.zero (fecData : ℕ → Fec.Block) : Noted received (.zero fecData) :=
  ⟨rfl, rfl, Finset.Subset.refl _, by simp [Slice.zero]⟩

/-- Who answers is counted once. -/
theorem Noted.markParticipantAnswered (hready : slice.nrReady = slice.readySet.card)
    (hanswered : slice.nrAnswered = slice.answeredSet.card)
    (hsubset : slice.readySet ⊆ insert clNo slice.answeredSet)
    (hok : ∀ c ∈ slice.readySet, (c, ClientMsg.ok slice.sliceNo) ∈ received) :
    Noted received (markParticipantAnswered slice clNo) := by
  unfold Sender.markParticipantAnswered
  split
  · rename_i hmem
    rw [Finset.insert_eq_of_mem hmem] at hsubset
    exact ⟨hready, hanswered, hsubset, hok⟩
  · rename_i hmem
    refine ⟨hready, ?_, hsubset, hok⟩
    dsimp only
    rw [Finset.card_insert_of_notMem hmem, hanswered]
    push_cast
    rfl

/-- An OK that has arrived may be noted. -/
theorem Noted.markOk (h : Noted received slice) (hmsg : (clNo, ClientMsg.ok slice.sliceNo) ∈ received) :
    Noted received (markOk slice clNo) := by
  unfold Sender.markOk
  split
  · exact h
  · rename_i hready
    refine Noted.markParticipantAnswered ?_ h.nrAnswered_eq
      (Finset.insert_subset_insert _ h.ready_subset) ?_
    · dsimp only
      rw [Finset.card_insert_of_notMem hready, h.nrReady_eq]
      push_cast
      rfl
    · intro c hc
      rcases Finset.mem_insert.mp hc with rfl | hold
      · exact hmsg
      · exact h.ok_received c hold

/-- A RETRANSMIT makes nobody ready. -/
theorem Noted.markRetransmit {map : ℕ → Bool} {rxmit : ℤ} (h : Noted received slice) :
    Noted received (markRetransmit slice clNo map rxmit) := by
  unfold Sender.markRetransmit
  split
  · exact h
  · exact Noted.markParticipantAnswered h.nrReady_eq h.nrAnswered_eq
      (h.ready_subset.trans (Finset.subset_insert _ _)) h.ok_received

/-- One is taken from the count when one is taken from the set. -/
theorem card_erase_eq {set : Finset ℕ} {n : ℤ} (hn : n = set.card) (hmem : clNo ∈ set) :
    n - 1 = (set.erase clNo).card := by
  have hpos := Finset.card_pos.mpr ⟨clNo, hmem⟩
  rw [Finset.card_erase_of_mem hmem, hn]
  omega

/-- A participant that leaves is taken from the sets and from the counts. -/
theorem Noted.forgetClient (h : Noted received slice) (clNo : ℕ) :
    Noted received (forgetClient slice clNo) ∧
      (forgetClient slice clNo).readySet = slice.readySet.erase clNo := by
  have herase : slice.readySet.erase clNo ⊆ slice.answeredSet.erase clNo :=
    Finset.erase_subset_erase _ h.ready_subset
  have hok : ∀ c ∈ slice.readySet.erase clNo, (c, ClientMsg.ok slice.sliceNo) ∈ received :=
    fun c hc => h.ok_received c (Finset.mem_of_mem_erase hc)
  unfold Sender.forgetClient
  dsimp only
  split
  · rename_i hready
    rw [if_pos (h.ready_subset hready)]
    exact ⟨⟨card_erase_eq h.nrReady_eq hready, card_erase_eq h.nrAnswered_eq (h.ready_subset hready),
      herase, hok⟩, rfl⟩
  · rename_i hready
    rw [Finset.erase_eq_of_notMem hready] at herase ⊢
    split
    · rename_i hanswered
      exact ⟨⟨h.nrReady_eq, card_erase_eq h.nrAnswered_eq hanswered, herase, h.ok_received⟩, rfl⟩
    · exact ⟨h, rfl⟩

/-- A new round forgets who has answered. -/
theorem Noted.startRound (h : Noted received slice) : Noted received (startRound slice) :=
  ⟨h.nrReady_eq, h.nrReady_eq, Finset.Subset.refl _, h.ok_received⟩

end Slice

section Steps

variable {received : List (ℕ × ClientMsg)} {s s' : State} {i r x : ℕ} {slice : Slice}

/-- New notes are right if those who are ready participate. -/
theorem notes_setSlice (h : Notes received s) (hnoted : Noted received slice)
    (hheld : s.Held i → slice.readySet ⊆ s.db.used) : Notes received (s.setSlice i slice) :=
  { h with
    noted := fun k => by
      change Noted received (Function.update s.slices i slice k)
      rcases eq_or_ne k i with rfl | hne
      · rw [Function.update_self]
        exact hnoted
      · rw [Function.update_of_ne hne]
        exact h.noted k
    held := fun k hk => by
      change (Function.update s.slices i slice k).readySet ⊆ s.db.used
      rcases eq_or_ne k i with rfl | hne
      · rw [Function.update_self]
        exact hheld hk
      · rw [Function.update_of_ne hne]
        exact h.held k hk }

/-- A slice that is changed in what the notes leave out. -/
theorem notes_keep (h : Notes received s) (hready : slice.readySet = (s.slices i).readySet)
    (hanswered : slice.answeredSet = (s.slices i).answeredSet)
    (hnrReady : slice.nrReady = (s.slices i).nrReady)
    (hnrAnswered : slice.nrAnswered = (s.slices i).nrAnswered)
    (hno : slice.sliceNo = (s.slices i).sliceNo ∨ (s.slices i).readySet = ∅) :
    Notes received (s.setSlice i slice) := by
  have hnoted := h.noted i
  refine notes_setSlice h ⟨?_, ?_, ?_, ?_⟩ fun hi => ?_
  · rw [hready, hnrReady, hnoted.nrReady_eq]
  · rw [hanswered, hnrAnswered, hnoted.nrAnswered_eq]
  · rw [hready, hanswered]
    exact hnoted.ready_subset
  · rcases hno with hsame | hnone
    · rw [hready, hsame]
      exact hnoted.ok_received
    · rw [hready, hnone]
      simp
  · rw [hready]
    exact h.held i hi

/-- The reader notes nothing. -/
theorem notes_readerStep {n : ℕ} (h : Notes received s) (hstep : readerStep s n = some s') :
    Notes received s' := by
  rw [readerStep_frame hstep]
  exact { h with }

/-- The slot of a slice that nobody has begun to transmit. -/
theorem Progress.fresh_slot (hprog : Progress s) {j : ℕ} (hj : s.freed ≤ j) (hlt : j < s.allocated)
    (htaken : s.taken ≤ j) : (s.slices (j % 2)).readySet = ∅ :=
  ((hprog.slots j hj hlt).fresh htaken).1

/-- `makeSlice` begins with no notes. -/
theorem notes_cutterStep (hinv : Inv s) (hprog : Progress s) (h : Notes received s)
    (hstep : cutterStep s = some s') : Notes received s' := by
  have hring := hinv.ring
  have htaken : s.taken ≤ s.cuts.length := le_of_add_le_left hring.taken_le
  have hfreed : s.freed ≤ s.taken := hring.freed_le.trans hring.acked_le
  have hallocated : s.allocated = s.cuts.length + s.cutter.making := hring.allocated_eq
  have hfresh : s.cutter.making = 1 → (s.slices (s.cuts.length % 2)).readySet = ∅ := fun hmaking =>
    hprog.fresh_slot (by omega) (by omega) htaken
  cases hpc : s.cutter with
  | idle => simp [cutterStep, hpc] at hstep
  | consumeSlot =>
    simp only [cutterStep, hpc, Option.map_eq_some_iff] at hstep
    obtain ⟨n, -, rfl⟩ := hstep
    exact { h with }
  | consumedSlot =>
    simp only [cutterStep, hpc] at hstep
    split at hstep
    · obtain rfl := Option.some.inj hstep
      exact notes_setSlice (s := { s with
        freeSlicesPc := pcConsumed s.freeSlicesPc 1, allocated := s.allocated + 1
        cutter := .consumeData (pcGetConsumerPosition s.freeSlicesPc) })
        { h with } (Noted.zero _) fun _ => Finset.empty_subset _
    · obtain rfl := Option.some.inj hstep
      exact { h with }
  | consumeData i =>
    obtain rfl : i = s.cuts.length % 2 := by
      simpa only [RingView.CutterInv, State.ring, hpc] using hring.cutter
    simp only [cutterStep, hpc, Option.map_eq_some_iff] at hstep
    obtain ⟨n, -, rfl⟩ := hstep
    exact notes_keep (s := { s with
        sliceNo := s.sliceNo + 1, cutter := .consumedData (s.cuts.length % 2) })
      { h with } rfl rfl rfl rfl (.inr (hfresh (by rw [hpc]; rfl)))
  | consumedData i =>
    have hi : i = s.cuts.length % 2 := by
      have hcutter := hring.cutter
      simp only [RingView.CutterInv, State.ring, hpc] at hcutter
      exact hcutter.1
    have hempty := hfresh (by rw [hpc]; rfl)
    rw [← hi] at hempty
    have hslot : Notes received ({ s with
        data := pcConsumed s.data (s.slices i).bytes
        cuts := s.cuts ++ [(s.slices i).bytes] }.setSlice i { s.slices i with state := .new }) :=
      notes_keep { h with } rfl rfl rfl rfl (.inl rfl)
    simp only [cutterStep, hpc, Option.some.injEq] at hstep
    split at hstep
    · subst hstep
      exact { hslot with }
    · subst hstep
      exact { hslot with
        held := fun k hk => by
          rcases hk with hx | hr
          · obtain rfl := Option.some.inj hx
            simp [State.setSlice, hempty]
          · exact hslot.held k (.inr hr) }
  | encode i =>
    simp only [cutterStep, hpc, Option.some.injEq] at hstep
    subst hstep
    split
    · exact notes_keep (s := { s with
        dataBuffer := padLastBlock s (s.slices i), cutter := .produceFec }) { h with } rfl rfl rfl rfl
        (.inl rfl)
    · exact { h with }
  | produceFec =>
    simp only [cutterStep, hpc, Option.some.injEq] at hstep
    subst hstep
    split <;> exact { h with }

/-- An acknowledgement notes nothing. -/
theorem notes_ackSlice (h : Notes received s) : Notes received (ackSlice s r) := by
  unfold ackSlice
  dsimp only
  split
  · exact h
  · have hslot : Notes received ({ s with
        config := growSliceSize s.config
        acked := s.acked + 1
        ackedBy := Function.update s.ackedBy (s.slices r).sliceNo (s.slices r).readySet }.setSlice r
          { s.slices r with state := .acked }) := notes_keep { h with } rfl rfl rfl rfl (.inl rfl)
    split <;> exact { hslot with }

/-- A REQACK begins the next round. -/
theorem notes_sendReqack (h : Notes received s) (hr : s.Held r) :
    Notes received (sendReqack s r) := by
  unfold sendReqack
  dsimp only
  split
  · exact notes_ackSlice h
  · split
    · exact h
    · exact notes_setSlice (s := { s with
        config := shrinkSliceSize s.config (s.slices r)
        network := .reqack (s.slices r).sliceNo (s.slices r).bytes (s.slices r).rxmitId
          (s.slices r).readySet :: s.network })
        { h with } (h.noted r).startRound fun _ => h.held r hr

/-- Right notes on a slice keep the notes. -/
theorem notes_modifySlice {slot : Option ℕ} {f : Slice → Slice} (h : Notes received s)
    (hf : ∀ i, slot = some i → Noted received (f (s.slices i)) ∧
      (s.Held i → (f (s.slices i)).readySet ⊆ s.db.used)) :
    Notes received (s.modifySlice slot f) := by
  cases slot with
  | none => exact h
  | some i => exact notes_setSlice h (hf i rfl).1 (hf i rfl).2

/-- `findSlice` finds the slice with the number. -/
theorem findSlice_sliceNo {sliceNo : ℕ} (hfind : findSlice s sliceNo = some i) :
    (s.slices i).sliceNo = sliceNo := by
  unfold findSlice at hfind
  rcases (Option.orElse_eq_some _ _ _).mp hfind with hx | ⟨-, hr⟩
  · simpa using (Option.filter_eq_some_iff.mp hx).2
  · simpa using (Option.filter_eq_some_iff.mp hr).2

/-- An OK makes a client ready. -/
theorem markOk_readySet {clNo : ℕ} :
    (markOk slice clNo).readySet = insert clNo slice.readySet := by
  unfold markOk markParticipantAnswered
  split
  · rename_i hmem
    exact (Finset.insert_eq_of_mem hmem).symm
  · split <;> rfl

/-- A RETRANSMIT makes nobody ready. -/
theorem markRetransmit_readySet {clNo : ℕ} {map : ℕ → Bool} {rxmit : ℤ} :
    (markRetransmit slice clNo map rxmit).readySet = slice.readySet := by
  unfold markRetransmit markParticipantAnswered
  split
  · rfl
  · split <;> rfl

/-- A message that has arrived is noted right. -/
theorem notes_handleMessage {clNo : ℕ} {msg : ClientMsg} (h : Notes received s)
    (hmsg : (clNo, msg) ∈ received) : Notes received (handleMessage s clNo msg) := by
  cases msg with
  | ok sliceNo =>
    simp only [handleMessage]
    split
    · rename_i hcl
      refine notes_modifySlice h fun i hi => ⟨(h.noted i).markOk ?_, fun hheld => ?_⟩
      · rw [findSlice_sliceNo hi]
        exact hmsg
      · rw [markOk_readySet]
        exact Finset.insert_subset hcl (h.held i hheld)
    · exact h
  | retransmit sliceNo rxmit map =>
    simp only [handleMessage]
    split
    · refine notes_modifySlice h fun i _ => ⟨(h.noted i).markRetransmit, fun hheld => ?_⟩
      rw [markRetransmit_readySet]
      exact h.held i hheld
    · exact h
  | disconnect =>
    have hslices : ∀ k, (handleMessage s clNo .disconnect).slices k =
        if s.rexmitSlice = some k then
          forgetClient (if s.xmitSlice = some k then forgetClient (s.slices k) clNo
            else s.slices k) clNo
        else if s.xmitSlice = some k then forgetClient (s.slices k) clNo else s.slices k := by
      intro k
      simp only [handleMessage, modifySlice_slices]
    obtain ⟨slices, db, heq, -⟩ := handleMessage_frame (s := s) clNo .disconnect
    have hdb : db = s.db.remove clNo := by
      have hdb := congrArg State.db heq
      simpa only [handleMessage, modifySlice_db] using hdb.symm
    rw [heq] at hslices ⊢
    subst hdb
    have hspec : ∀ k, Noted received (slices k) ∧
        (s.Held k → (slices k).readySet = (s.slices k).readySet.erase clNo) := by
      intro k
      rw [show slices k = _ from hslices k]
      have hnoted := h.noted k
      obtain ⟨honce, hset⟩ := hnoted.forgetClient clNo
      split
      · split
        · obtain ⟨htwice, hset'⟩ := honce.forgetClient clNo
          exact ⟨htwice, fun _ => by rw [hset', hset, Finset.erase_idem]⟩
        · exact ⟨honce, fun _ => hset⟩
      · rename_i hr
        split
        · exact ⟨honce, fun _ => hset⟩
        · rename_i hx
          exact ⟨hnoted, fun hheld => absurd hheld (by simp [State.Held, hr, hx])⟩
    exact { h with
      noted := fun k => (hspec k).1
      held := fun k hk => by
        change (slices k).readySet ⊆ (s.db.remove clNo).used
        rw [(hspec k).2 hk, remove_used]
        exact Finset.erase_subset_erase _ (h.held k hk) }
  | other => exact h

/-- A round of retransmissions notes nothing. -/
theorem notes_doRetransmissions (h : Notes received s) : Notes received (doRetransmissions s r) := by
  unfold doRetransmissions
  dsimp only
  split
  · exact h
  · split
    · rename_i slice ms hsend
      have hframe := sendSliceAgain_frame hsend
      exact notes_keep (s := { s with network := ms ++ s.network }) { h with } (by rw [hframe])
        (by rw [hframe]) (by rw [hframe]) (by rw [hframe]) (.inl (by rw [hframe]))
    · exact { h with }

/-- The end of a slice notes nothing. -/
theorem notes_finishSending (h : Notes received s) : Notes received (finishSending s x i) := by
  unfold finishSending
  dsimp only
  refine notes_keep (s := { s with net := .loopTest }) { h with } ?_ ?_ ?_ ?_ (.inl ?_)
  all_goals split <;> rfl

/-- A timeout that drops clients. -/
theorem notes_timeout (hprog : Progress s) (h : Notes received s) (hdrop : DropsNobodyAhead s)
    (hpc : s.net = .timeout) (hstep : netStep s = some s') : Notes received s' := by
  simp only [netStep, hpc, Option.some.injEq] at hstep
  subst hstep
  split
  · rename_i r hr
    split
    · rename_i hlate
      have hspec := dropClients_spec hprog.db (s.slices r)
      generalize dropClients s.db (s.slices r) = st at hspec ⊢
      obtain ⟨db, exit⟩ := st
      obtain ⟨-, -, hkept, -⟩ := hspec
      have hdropped : Notes received { s with db := db } :=
        { h with
          held := fun i hi c hc => by
            have hused := h.held i hi hc
            apply hkept c hused
            rcases hi with hx | hr'
            · exact hdrop hpc r i hr hx hlate hc
            · obtain rfl := Option.some.inj (hr.symm.trans hr')
              exact hc }
      dsimp only
      split
      · exact { hdropped with }
      · exact { hdropped with }
    · have hround : Notes received ({ s with net := .loopTest }.setSlice r
          { s.slices r with rxmitId := (s.slices r).rxmitId + 1 }) :=
        notes_keep { h with } rfl rfl rfl rfl (.inl rfl)
      exact notes_sendReqack hround (.inr hr)
  · exact { h with }

/-- `netSenderMain` keeps the notes when it drops nobody who is ready for the slice being sent. -/
theorem notes_netStep (hinv : Inv s) (hprog : Progress s) (h : Notes received s)
    (hdrop : DropsNobodyAhead s) (hstep : netStep s = some s') : Notes received s' := by
  cases hpc : s.net with
  | making | exited => simp [netStep, hpc] at hstep
  | timeout => exact notes_timeout hprog h hdrop hpc hstep
  | init | messageFree | loopTest | exitTest | newSlice | send =>
    simp only [netStep, hpc, Option.some.injEq] at hstep
    subst hstep
    repeat' split
    all_goals exact { h with }
  | cleanupAck =>
    simp only [netStep, hpc, Option.some.injEq] at hstep
    subst hstep
    split
    · split
      · exact notes_ackSlice { h with }
      · exact { h with }
    · exact { h with }
  | cleanupFree =>
    simp only [netStep, hpc, Option.some.injEq] at hstep
    subst hstep
    split
    · split
      · exact notes_keep (s := { s with net := .freeLoop }) { h with } rfl rfl rfl rfl (.inl rfl)
      · exact { h with }
    · exact { h with }
  | freeLoop =>
    simp only [netStep, hpc, Option.some.injEq] at hstep
    subst hstep
    split
    · have hslot : Notes received (s.setSlice (pcGetProducerPosition s.freeSlicesPc)
          { s.slices (pcGetProducerPosition s.freeSlicesPc) with state := .free }) :=
        notes_keep h rfl rfl rfl rfl (.inl rfl)
      split <;> exact { hslot with }
    · exact { h with held := fun i hi => h.held i (.inl (hi.resolve_right (by simp))) }
  | shift =>
    simp only [netStep, hpc, Option.some.injEq] at hstep
    subst hstep
    split
    · rename_i x hr hx
      split
      · refine notes_sendReqack ?_ (.inr rfl)
        exact { h with
          held := fun i hi => by
            obtain rfl := Option.some.inj (hi.resolve_left (by simp))
            exact h.held x (.inl hx) }
      · exact { h with }
    · exact { h with }
  | messages =>
    simp only [netStep, hpc, Option.some.injEq] at hstep
    subst hstep
    split
    · exact { h with }
    · rename_i clNo msg rest hincoming
      have hmsg := h.incoming (clNo, msg) (by rw [hincoming]; exact List.mem_cons_self)
      exact notes_handleMessage (s := { s with net := .messageDone }) { h with } hmsg
  | messageDone =>
    simp only [netStep, hpc, Option.some.injEq] at hstep
    subst hstep
    exact { h with incoming := fun m hm => h.incoming m (List.mem_of_mem_tail hm) }
  | retransmit =>
    simp only [netStep, hpc, Option.some.injEq] at hstep
    subst hstep
    split
    · split
      · exact notes_doRetransmissions { h with }
      · exact { h with }
    · exact { h with }
  | reqack =>
    simp only [netStep, hpc, Option.some.injEq] at hstep
    subst hstep
    split
    · rename_i r hr
      split
      · have hround : Notes received ({ s with net := .newSlice }.setSlice r
            { s.slices r with rxmitId := (s.slices r).rxmitId + 1 }) :=
          notes_keep { h with } rfl rfl rfl rfl (.inl rfl)
        exact notes_sendReqack hround (.inr hr)
      · exact { h with }
    · exact { h with }
  | takeFec =>
    simp only [netStep, hpc, Option.map_eq_some_iff] at hstep
    obtain ⟨n, hn, rfl⟩ := hstep
    have hpos : pcGetConsumerPosition s.fecDataPc = s.taken % 2 :=
      (hinv.ring.fecData (hinv.net.takeFec hpc)).consumerPosition_eq
    have htake := hinv.ring.takeFec (hinv.net.takeFec hpc) hn
    have hlength : s.taken + 1 ≤ s.cuts.length := le_of_add_le_left htake.taken_le
    have hallocated : s.allocated = s.cuts.length + s.cutter.making := hinv.ring.allocated_eq
    have hfreed : s.freed ≤ s.taken := hinv.ring.freed_le.trans hinv.ring.acked_le
    have hempty := hprog.fresh_slot hfreed (show s.taken < s.allocated by omega) le_rfl
    exact { h with
      held := fun i hi => by
        rcases hi with hx | hr
        · obtain rfl := Option.some.inj hx
          dsimp only
          rw [hpos, hempty]
          exact Finset.empty_subset _
        · exact h.held i (.inr hr) }
  | checkEnd =>
    simp only [netStep, hpc, Option.some.injEq] at hstep
    subst hstep
    split <;> exact { h with }
  | sending i =>
    simp only [netStep, hpc, Option.some.injEq] at hstep
    subst hstep
    split
    · unfold sendingStep
      dsimp only
      split
      · split
        · split
          · exact { h with }
          · exact notes_finishSending { h with }
        · exact { h with }
      · exact notes_finishSending h
    · exact { h with }
  | wait =>
    simp only [netStep, hpc, Option.ite_none_left_eq_some, Option.some.injEq] at hstep
    obtain ⟨-, rfl⟩ := hstep
    exact { h with }

/-- So does every step. -/
theorem notes_act {a : Action} (hinv : Inv s) (hprog : Progress s) (h : Notes received s)
    (hdrop : DropsNobodyAhead s) (hact : act s a = some s') : Notes (record received a) s' := by
  simp only [act, Option.ite_none_right_eq_some] at hact
  obtain ⟨-, hact⟩ := hact
  cases a with
  | reader n => exact notes_readerStep h hact
  | cutter => exact notes_cutterStep hinv hprog h hact
  | net => exact notes_netStep hinv hprog h hdrop hact
  | timeout =>
    obtain ⟨-, hs⟩ := Option.ite_none_right_eq_some.mp hact
    obtain rfl := Option.some.inj hs
    exact { h with }
  | receive clNo msg =>
    cases hpc : s.returnChannel with
    | produce _ _ => simp [receiveStep, hpc] at hact
    | receive =>
      simp only [receiveStep, hpc, Option.ite_none_right_eq_some, Option.map_eq_some_iff] at hact
      obtain ⟨-, n, -, rfl⟩ := hact
      exact {
        noted := fun i => { h.noted i with
          ok_received := fun c hc => List.mem_cons_of_mem _ ((h.noted i).ok_received c hc) }
        held := h.held
        incoming := fun m hm => List.mem_cons_of_mem _ (h.incoming m hm)
        pending := fun c m hcm => by
          obtain ⟨rfl, rfl⟩ := ReturnPc.produce.inj hcm
          exact List.mem_cons_self }
  | announce =>
    cases hpc : s.returnChannel with
    | receive => simp [announceStep, hpc] at hact
    | produce clNo msg =>
      simp only [announceStep, hpc, Option.some.injEq] at hact
      subst hact
      split
      · exact { h with
          incoming := fun m hm => by
            rcases List.mem_append.mp hm with hold | hlast
            · exact h.incoming m hold
            · obtain rfl := List.mem_singleton.mp hlast
              exact h.pending clNo msg hpc
          pending := by simp }
      · exact { h with }

/-- In the beginning nothing is noted. -/
theorem notes_start {config : NetConfig} {db : ParticipantsDb} {input : ℕ → Gf} {inputSize : ℕ}
    {mem : ℕ → Gf} {fecData : ℕ → ℕ → Fec.Block}
    (hstart : start config db input inputSize mem fecData = some s) : Notes received s := by
  simp only [start, Option.bind_eq_some_iff, Option.map_eq_some_iff] at hstart
  obtain ⟨_, -, _, -, _, -, rfl⟩ := hstart
  exact ⟨fun _ => Noted.zero _, by simp [State.Held], by simp, by simp⟩

end Steps

section Runs

variable {l : Logged} {s₀ : State}

/-- In every run in which timeouts drop nobody who is ahead, the notes on the slices in the
pipe are right. -/
theorem bookkept_of_dropsNobodyAhead
    (h : (loggedSystem.restrict fun l _ => DropsNobodyAhead l.sender).Reachable l) :
    ∀ i, l.sender.Held i → Bookkept l (l.sender.slices i) := by
  have hnotes : Inv l.sender ∧ Progress l.sender ∧ Notes l.received l.sender := by
    refine h.invariant (P := fun l => Inv l.sender ∧ Progress l.sender ∧ Notes l.received l.sender)
      ?_ ?_
    · rintro l ⟨⟨config, db, input, inputSize, mem, fecData, hconfig, hdb, hstart⟩, -⟩
      exact ⟨inv_start hconfig hstart, progress_start hdb hstart, notes_start hstart⟩
    · rintro l l' ⟨hinv, hprog, hnotes⟩ ⟨⟨a, hstep⟩, hdrop⟩
      obtain ⟨s, hact, rfl⟩ := Option.map_eq_some_iff.mp hstep
      exact ⟨inv_act hinv hact, progress_act hinv hprog hdrop hact,
        notes_act hinv hprog hnotes hdrop hact⟩
  obtain ⟨-, hprog, hnotes⟩ := hnotes
  intro i hi
  have hnoted := hnotes.noted i
  have hsubset := hnotes.held i hi
  refine ⟨hnoted.nrReady_eq, hnoted.nrAnswered_eq, hnoted.ready_subset, hsubset, fun hall c hc => ?_⟩
  apply hnoted.ok_received c
  have hcard := hprog.db.card_eq
  have hready := hnoted.nrReady_eq
  rw [Finset.eq_of_subset_of_card_le hsubset (by omega)]
  exact hc

/-- The start of a full-duplex transfer of five bytes to the clients 0 and 1, with
`--retries-until-drop 0`. -/
def twoClients : Option State :=
  start { plainConfig with sn := true, blockSize := 4, retriesUntilDrop := 0 } ⟨2, {0, 1}⟩
    (fun _ => .ofNat 7) 5 (fun _ => .ofNat 0) fun _ _ _ => .ofNat 0

/-- Both slices are sent; client 1 answers for the first, client 0 for the second. -/
def answersAhead : List Action :=
  [0, 5, 0, 0, 0, 0, 0].map .reader ++ List.replicate 8 .net ++ List.replicate 4 .cutter ++
    List.replicate 12 .net ++ List.replicate 4 .cutter ++ List.replicate 14 .net ++
    [.receive 1 (.ok 0), .announce, .receive 0 (.ok 1), .announce] ++ List.replicate 25 .net

/-- The sender with two clients is one to begin with. -/
theorem twoClients_init (hstart : twoClients = some s₀) : loggedSystem.Init ⟨s₀, []⟩ := by
  have hconfig : ValidConfig
      { plainConfig with sn := true, blockSize := 4, retriesUntilDrop := 0 } :=
    ⟨by decide, by decide⟩
  exact ⟨⟨_, _, _, _, _, _, hconfig, ⟨rfl, by decide⟩, hstart⟩, rfl⟩

/-- A run with two clients, one of which is ready. -/
theorem bookkept_of_dropsNobodyAhead_two_clients : ∃ l,
    (loggedSystem.restrict fun l _ => DropsNobodyAhead l.sender).Reachable l ∧
    l.sender.xmitSlice = some 1 ∧ (l.sender.slices 1).readySet = {0} ∧
    Bookkept l (l.sender.slices 1) := by
  have hrun : (twoClients.bind fun s => (System.perform
      (System.guarded logAct fun l _ => DropsNobodyAhead l.sender) ⟨s, []⟩ answersAhead).map
        fun l => (l.sender.xmitSlice, (l.sender.slices 1).readySet)) = some (some 1, {0}) := by
    decide +kernel
  obtain ⟨s₀, hstart, hs⟩ := Option.bind_eq_some_iff.mp hrun
  obtain ⟨l, hperform, hlast⟩ := Option.map_eq_some_iff.mp hs
  obtain ⟨hxmit, hready⟩ := Prod.mk.inj hlast
  have hreach : (loggedSystem.restrict fun l _ => DropsNobodyAhead l.sender).Reachable l :=
    ⟨⟨s₀, []⟩, twoClients_init hstart, System.restrict_run_of_perform hperform⟩
  exact ⟨l, hreach, hxmit, hready, bookkept_of_dropsNobodyAhead hreach 1 (.inl hxmit)⟩

/-- After two timeouts client 0 is dropped, but stays noted as ready in the second slice. -/
theorem not_bookkept : ¬ ∀ l, loggedSystem.Reachable l → ∀ i, l.sender.Held i →
    Bookkept l (l.sender.slices i) := by
  intro hclaim
  have hrun : (twoClients.bind fun s => (System.perform logAct ⟨s, []⟩ (answersAhead ++
      [.timeout] ++ List.replicate 11 .net ++ [.timeout, .net])).map
        fun l => (l.sender.xmitSlice, (l.sender.slices 1).readySet, l.sender.db.used)) =
      some (some 1, {0}, {1}) := by
    decide +kernel
  obtain ⟨s₀, hstart, hs⟩ := Option.bind_eq_some_iff.mp hrun
  obtain ⟨l, hperform, hlast⟩ := Option.map_eq_some_iff.mp hs
  obtain ⟨hxmit, hlast⟩ := Prod.mk.inj hlast
  obtain ⟨hready, hused⟩ := Prod.mk.inj hlast
  have hreach : loggedSystem.Reachable l :=
    ⟨⟨s₀, []⟩, twoClients_init hstart, System.run_of_perform hperform⟩
  obtain ⟨-, -, -, hsubset, -⟩ := hclaim l hreach 1 (.inl hxmit)
  rw [hready, hused] at hsubset
  simp at hsubset

end Runs

end Udpcast.Sender
