import Udpcast.Sender.Invariant

/-!
# Accounting of the sender's memory

The regions of the ring, as the queues and the slices tell them, and what a step may do
to the bytes in them.
-/

namespace Udpcast.Sender

open Queue
open Protocol

/-- A slice is cut and not acknowledged. -/
def SliceState.Unacked (state : SliceState) : Prop := state = .new ∨ state = .xmitted

instance : DecidablePred SliceState.Unacked := fun _ => inferInstanceAs (Decidable (_ ∨ _))

/-- The slices that are not acknowledged, in the order of the stream. -/
def State.unacked (s : State) : List Slice :=
  (if (s.slices 0).sliceNo ≤ (s.slices 1).sliceNo then [s.slices 0, s.slices 1]
    else [s.slices 1, s.slices 0]).filter fun slice => slice.state.Unacked

/-- What the reader has taken from the free memory and not yet announced as data. -/
def ReaderPc.chunk : ReaderPc → ℕ
  | .produce n => n
  | _ => 0

/-- The arcs of the ring that hold data: unacknowledged slices, data that is not cut, and
the chunk of the reader. -/
def State.occupied (s : State) : List (ℕ × ℕ) :=
  s.unacked.map (fun slice => (slice.base, slice.bytes)) ++
    [(pcGetConsumerPosition s.data, pcGetWaiting s.data),
      (pcGetProducerPosition s.data, s.reader.chunk)]

/-- The free memory. -/
def State.freeArc (s : State) : ℕ × ℕ :=
  (pcGetConsumerPosition s.freeMemQueue, pcGetWaiting s.freeMemQueue)

variable {s s' : State}

/-- A slot is not acknowledged exactly when its slice is cut and not acknowledged. -/
theorem SlotHolds.unacked_iff {cuts : List ℕ} {size acked taken j : ℕ} {slot : SliceCore}
    (h : SlotHolds cuts size acked taken slot j) :
    slot.state.Unacked ↔ acked ≤ j ∧ j < cuts.length := by
  constructor
  · intro hstate
    constructor
    · by_contra hlt
      rcases hstate with hnew | hxmitted <;> rcases h.state_acked (by omega) with hs | hs <;>
        simp_all
    · by_contra hge
      have hs := h.state_free (by omega)
      rcases hstate with hnew | hxmitted <;> simp_all
  · rintro ⟨hacked, hlt⟩
    rcases Nat.lt_or_ge j taken with htaken | htaken
    · exact h.state_taken hacked htaken
    · exact .inl (h.state_new htaken hlt)

/-- The order of the two slots does not matter if only one of them counts. -/
theorem filter_unacked_swap {a b : Slice} (h : ¬(a.state.Unacked ∧ b.state.Unacked)) :
    [b, a].filter (fun slice => slice.state.Unacked) =
      [a, b].filter fun slice => slice.state.Unacked := by
  by_cases ha : a.state.Unacked <;> by_cases hb : b.state.Unacked <;> simp_all

/-- The slots in the order of their slices. -/
theorem unacked_eq (h : Inv s) :
    s.unacked = [s.slices (s.freed % 2), s.slices ((s.freed + 1) % 2)].filter
      fun slice => slice.state.Unacked := by
  have hfst := h.ring.slots s.freed le_rfl (Nat.lt_add_of_pos_right (by omega))
  have hsnd := h.ring.slots (s.freed + 1) (Nat.le_succ _) (Nat.lt_succ_self _)
  have horder : (s.slices (s.freed % 2)).state.Unacked → (s.slices ((s.freed + 1) % 2)).state.Unacked →
      (s.slices (s.freed % 2)).sliceNo < (s.slices ((s.freed + 1) % 2)).sliceNo := by
    intro ha hb
    have hno : (s.slices (s.freed % 2)).sliceNo = s.freed :=
      hfst.sliceNo_eq (hfst.unacked_iff.mp ha).2
    have hno' : (s.slices ((s.freed + 1) % 2)).sliceNo = s.freed + 1 :=
      hsnd.sliceNo_eq (hsnd.unacked_iff.mp hb).2
    omega
  unfold State.unacked
  rcases Nat.mod_two_eq_zero_or_one s.freed with hzero | hone
  · have hsucc : (s.freed + 1) % 2 = 1 := by omega
    rw [hzero, hsucc] at horder ⊢
    split
    · rfl
    · exact filter_unacked_swap fun hboth => by
        have := horder hboth.1 hboth.2
        omega
  · have hsucc : (s.freed + 1) % 2 = 0 := by omega
    rw [hone, hsucc] at horder ⊢
    split
    · exact filter_unacked_swap fun hboth => by
        have := horder hboth.1 hboth.2
        omega
    · rfl

/-- The unacknowledged slices lie one behind the other. -/
theorem consecutive_unacked (h : Inv s) :
    Consecutive s.dataBufSize s.ring.ackedBytes
      (s.unacked.map fun slice => (slice.base, slice.bytes)) ∧
    s.ring.ackedBytes + ((s.unacked.map fun slice => (slice.base, slice.bytes)).map Prod.snd).sum =
      s.cuts.sum := by
  have hfst := h.ring.slots s.freed le_rfl (Nat.lt_add_of_pos_right (by omega))
  have hsnd := h.ring.slots (s.freed + 1) (Nat.le_succ _) (Nat.lt_succ_self _)
  have hfreed : s.freed ≤ s.acked := h.ring.freed_le
  have hacked : s.acked ≤ s.taken := h.ring.acked_le
  have htaken : s.taken ≤ s.cuts.length := le_of_add_le_left h.ring.taken_le
  have hlength : s.cuts.length ≤ s.freed + 2 := h.ring.length_le
  have hhead : (s.slices (s.freed % 2)).state.Unacked ↔ s.acked ≤ s.freed ∧ s.freed < s.cuts.length :=
    hfst.unacked_iff
  have hnext : (s.slices ((s.freed + 1) % 2)).state.Unacked ↔
      s.acked ≤ s.freed + 1 ∧ s.freed + 1 < s.cuts.length := hsnd.unacked_iff
  rw [unacked_eq h]
  have harc : ∀ j, SlotHolds s.cuts s.dataBufSize s.acked s.taken (s.slices (j % 2)).core j →
      j < s.cuts.length → (s.slices (j % 2)).base = startOf s.cuts j % s.dataBufSize ∧
        startOf s.cuts j + (s.slices (j % 2)).bytes = startOf s.cuts (j + 1) := by
    intro j hslot hlt
    refine ⟨hslot.base_eq hlt, ?_⟩
    have hbytes : (s.slices (j % 2)).bytes = s.cuts.getD j 0 := hslot.bytes_eq hlt
    rw [startOf_succ hlt, hbytes]
  have hend : startOf s.cuts s.cuts.length = s.cuts.sum := startOf_length
  change Consecutive _ (startOf s.cuts s.acked) _ ∧ startOf s.cuts s.acked + _ = _
  by_cases ha : (s.slices (s.freed % 2)).state.Unacked <;>
    by_cases hb : (s.slices ((s.freed + 1) % 2)).state.Unacked
  · have hlen : s.cuts.length = s.freed + 1 + 1 := by
      have := (hnext.mp hb).2
      omega
    have heq : s.acked = s.freed := by
      have := (hhead.mp ha).1
      omega
    obtain ⟨hbase, hsucc⟩ := harc s.freed hfst (by omega)
    obtain ⟨hbase', hsucc'⟩ := harc (s.freed + 1) hsnd (by omega)
    rw [hlen] at hend
    have hfilter : [s.slices (s.freed % 2), s.slices ((s.freed + 1) % 2)].filter
        (fun slice => slice.state.Unacked) =
        [s.slices (s.freed % 2), s.slices ((s.freed + 1) % 2)] := by
      simp [ha, hb]
    rw [hfilter, heq]
    refine ⟨⟨hbase, ?_, trivial⟩, ?_⟩
    · rw [hsucc]
      exact hbase'
    · simp only [List.map_cons, List.map_nil, List.sum_cons, List.sum_nil]
      omega
  · have heq : s.acked = s.freed := by
      have := (hhead.mp ha).1
      omega
    have hlen : s.cuts.length = s.freed + 1 := by
      have := (hhead.mp ha).2
      have := mt hnext.mpr hb
      omega
    obtain ⟨hbase, hsucc⟩ := harc s.freed hfst (by omega)
    rw [hlen] at hend
    have hfilter : [s.slices (s.freed % 2), s.slices ((s.freed + 1) % 2)].filter
        (fun slice => slice.state.Unacked) = [s.slices (s.freed % 2)] := by
      simp [ha, hb]
    rw [hfilter, heq]
    refine ⟨⟨hbase, trivial⟩, ?_⟩
    simp only [List.map_cons, List.map_nil, List.sum_cons, List.sum_nil]
    omega
  · have hlen : s.cuts.length = s.freed + 1 + 1 := by
      have := (hnext.mp hb).2
      omega
    have heq : s.acked = s.freed + 1 := by
      have := (hnext.mp hb).1
      have := mt hhead.mpr ha
      omega
    obtain ⟨hbase, hsucc⟩ := harc (s.freed + 1) hsnd (by omega)
    rw [hlen] at hend
    have hfilter : [s.slices (s.freed % 2), s.slices ((s.freed + 1) % 2)].filter
        (fun slice => slice.state.Unacked) = [s.slices ((s.freed + 1) % 2)] := by
      simp [ha, hb]
    rw [hfilter, heq]
    refine ⟨⟨hbase, trivial⟩, ?_⟩
    simp only [List.map_cons, List.map_nil, List.sum_cons, List.sum_nil]
    omega
  · have heq : s.acked = s.cuts.length := by
      have := mt hhead.mpr ha
      have := mt hnext.mpr hb
      omega
    have hfilter : [s.slices (s.freed % 2), s.slices ((s.freed + 1) % 2)].filter
        (fun slice => slice.state.Unacked) = [] := by
      simp [ha, hb]
    rw [hfilter, heq]
    exact ⟨trivial, hend⟩

/-- The occupied regions lie one behind the other, up to the free memory. -/
theorem consecutive_occupied (h : Inv s) :
    Consecutive s.dataBufSize s.ring.ackedBytes s.occupied ∧
      s.ring.ackedBytes + (s.occupied.map Prod.snd).sum = s.freeTaken := by
  obtain ⟨hslices, hsum⟩ := consecutive_unacked h
  have hdata : pcGetWaiting s.data = s.readTotal - s.cuts.sum := h.ring.data.pcGetWaiting_eq
  have hcut : pcGetConsumerPosition s.data = s.cuts.sum % s.dataBufSize :=
    h.ring.data.consumerPosition_eq
  have hread : pcGetProducerPosition s.data = s.readTotal % s.dataBufSize :=
    h.ring.data.producerPosition_eq
  have hle : s.cuts.sum ≤ s.readTotal := h.ring.cut_le_read
  have hchunk : s.freeTaken = s.readTotal + s.reader.chunk := by
    have hreader := h.ring.reader
    unfold RingView.ReaderInv at hreader
    cases hpc : s.reader with
    | _ =>
      simp only [State.ring, hpc] at hreader
      exact hreader.1
  constructor
  · rw [State.occupied, consecutive_append, hsum]
    refine ⟨hslices, hcut, ?_, trivial⟩
    rw [hread, hdata, Nat.add_sub_cancel' hle]
  · rw [State.occupied]
    simp only [List.map_append, List.sum_append, List.map_cons, List.map_nil, List.sum_cons,
      List.sum_nil, hdata] at hsum ⊢
    omega

/-- The regions of the ring lie one behind the other and fill the ring. -/
theorem tilesRing_occupied (h : Inv s) : TilesRing s.dataBufSize (s.occupied ++ [s.freeArc]) := by
  obtain ⟨hoccupied, hsum⟩ := consecutive_occupied h
  have hfree : pcGetWaiting s.freeMemQueue = s.dataBufSize + s.ring.ackedBytes - s.freeTaken :=
    h.ring.freeMem.pcGetWaiting_eq
  have htaken : pcGetConsumerPosition s.freeMemQueue = s.freeTaken % s.dataBufSize :=
    h.ring.freeMem.consumerPosition_eq
  have hroom : s.freeTaken ≤ s.dataBufSize + s.ring.ackedBytes := h.ring.freeMem.consumed_le
  refine ⟨⟨s.ring.ackedBytes, ?_⟩, ?_⟩
  · rw [consecutive_append, hsum]
    exact ⟨hoccupied, htaken, trivial⟩
  · rw [List.map_append, List.sum_append, State.freeArc]
    simp only [List.map_cons, List.map_nil, List.sum_cons, List.sum_nil, hfree]
    omega

section Memory

/-- What belongs to the other threads. -/
def State.environment (s : State) :=
  (s.dataBufSize, s.dataBuffer, s.data, s.input, s.inputSize, s.inputPos, s.reader, s.readTotal,
    s.freeTaken, s.cuts)

/-- An acknowledgement leaves alone what belongs to the other threads. -/
theorem ackSlice_environment (i : ℕ) : (ackSlice s i).environment = s.environment := by
  unfold ackSlice
  dsimp only
  split
  · rfl
  · split <;> rfl

/-- So does a REQACK. -/
theorem sendReqack_environment (i : ℕ) : (sendReqack s i).environment = s.environment := by
  unfold sendReqack
  dsimp only
  split
  · exact ackSlice_environment i
  · split <;> rfl

/-- So does a block that is sent. -/
theorem sendingStep_environment (x i : ℕ) : (sendingStep s x i).environment = s.environment := by
  unfold sendingStep
  dsimp only
  split
  · split
    · split <;> rfl
    · rfl
  · rfl

/-- So does a round of retransmissions. -/
theorem doRetransmissions_environment (r : ℕ) :
    (doRetransmissions s r).environment = s.environment := by
  unfold doRetransmissions
  dsimp only
  split
  · rfl
  · split <;> rfl

/-- So does a message. -/
theorem handleMessage_environment (clNo : ℕ) (msg : ClientMsg) :
    (handleMessage s clNo msg).environment = s.environment := by
  obtain ⟨slices, db, heq, -⟩ := handleMessage_frame (s := s) clNo msg
  rw [heq]
  rfl

/-- `netSenderMain` neither writes into the ring nor reads the input. -/
theorem netStep_environment (hstep : netStep s = some s') : s'.environment = s.environment := by
  cases hpc : s.net with
  | making | exited => simp [netStep, hpc] at hstep
  | takeFec =>
    simp only [netStep, hpc, Option.map_eq_some_iff] at hstep
    obtain ⟨n, -, rfl⟩ := hstep
    rfl
  | wait =>
    simp only [netStep, hpc, Option.ite_none_left_eq_some, Option.some.injEq] at hstep
    obtain ⟨-, rfl⟩ := hstep
    rfl
  | init =>
    obtain ⟨failure, rfl, -⟩ := netStep_init hpc hstep
    rfl
  | messageDone | messageFree | checkEnd | loopTest =>
    simp only [netStep, hpc, Option.some.injEq] at hstep
    subst hstep
    first | rfl | (split <;> rfl)
  | cleanupFree | freeLoop | newSlice | send =>
    simp only [netStep, hpc, Option.some.injEq] at hstep
    subst hstep
    split
    · split <;> rfl
    · rfl
  | cleanupAck =>
    simp only [netStep, hpc, Option.some.injEq] at hstep
    subst hstep
    split
    · split
      · exact ackSlice_environment _
      · rfl
    · rfl
  | shift | reqack =>
    simp only [netStep, hpc, Option.some.injEq] at hstep
    subst hstep
    split
    · split
      · exact sendReqack_environment _
      · rfl
    · rfl
  | messages =>
    simp only [netStep, hpc, Option.some.injEq] at hstep
    subst hstep
    split
    · rfl
    · exact handleMessage_environment ..
  | retransmit =>
    simp only [netStep, hpc, Option.some.injEq] at hstep
    subst hstep
    split
    · split
      · exact doRetransmissions_environment _
      · rfl
    · rfl
  | sending i =>
    simp only [netStep, hpc, Option.some.injEq] at hstep
    subst hstep
    split
    · exact sendingStep_environment ..
    · rfl
  | exitTest =>
    simp only [netStep, hpc, Option.some.injEq] at hstep
    subst hstep
    split
    · rfl
    · split
      · rfl
      · split <;> rfl
  | timeout =>
    simp only [netStep, hpc, Option.some.injEq] at hstep
    subst hstep
    split
    · rename_i r hr
      split
      · obtain ⟨db, exit⟩ := dropClients s.db (s.slices r)
        dsimp only
        split <;> rfl
      · exact sendReqack_environment _
    · rfl

/-- The reader goes on in the input. -/
theorem readerStep_inputPos {n : ℕ} (hstep : readerStep s n = some s') :
    s.inputPos ≤ s'.inputPos := by
  cases hpc : s.reader with
  | wait =>
    simp only [readerStep, hpc, Option.map_eq_some_iff] at hstep
    obtain ⟨m, -, hs⟩ := hstep
    generalize (if (pcGetConsumerPosition s.freeMemQueue + m) % 4096 < m then
      m - (pcGetConsumerPosition s.freeMemQueue + m) % 4096 else m) = bytes at hs
    split at hs <;> subst hs <;> exact le_rfl
  | read pos bytes =>
    simp only [readerStep, hpc, Option.ite_none_right_eq_some, Option.some.injEq] at hstep
    obtain ⟨-, rfl⟩ := hstep
    exact Nat.le_add_right _ _
  | commit bytes | produce bytes =>
    simp only [readerStep, hpc, Option.some.injEq] at hstep
    split at hstep <;> subst hstep <;> exact le_rfl
  | exited => simp [readerStep, hpc] at hstep

/-- Only `read` and the padding write into the ring, and then nothing is given back. -/
theorem act_dataBuffer {a : Action} (hact : act s a = some s') :
    s'.dataBufSize = s.dataBufSize ∧ (s'.dataBuffer = s.dataBuffer ∨
      s'.input = s.input ∧ s'.acked = s.acked ∧ s'.cuts = s.cuts ∧ s.inputPos ≤ s'.inputPos) := by
  simp only [act, Option.ite_none_right_eq_some] at hact
  obtain ⟨-, hact⟩ := hact
  cases a with
  | reader n =>
    have hframe := readerStep_frame hact
    exact ⟨by rw [hframe], .inr ⟨by rw [hframe], by rw [hframe], by rw [hframe],
      readerStep_inputPos hact⟩⟩
  | cutter =>
    have hact : cutterStep s = some s' := hact
    cases hpc : s.cutter with
    | idle => simp [cutterStep, hpc] at hact
    | consumeSlot | consumeData _ =>
      simp only [cutterStep, hpc, Option.map_eq_some_iff] at hact
      obtain ⟨n, -, rfl⟩ := hact
      exact ⟨rfl, .inl rfl⟩
    | consumedSlot | consumedData _ | produceFec =>
      simp only [cutterStep, hpc] at hact
      split at hact
      all_goals
        obtain rfl := Option.some.inj hact
        exact ⟨rfl, .inl rfl⟩
    | encode i =>
      simp only [cutterStep, hpc, Option.some.injEq] at hact
      subst hact
      split <;> exact ⟨rfl, .inr ⟨rfl, rfl, rfl, le_rfl⟩⟩
  | net =>
    have henvironment := netStep_environment hact
    simp only [State.environment, Prod.mk.injEq] at henvironment
    exact ⟨henvironment.1, .inl henvironment.2.1⟩
  | timeout =>
    obtain ⟨-, hs⟩ := Option.ite_none_right_eq_some.mp hact
    obtain rfl := Option.some.inj hs
    exact ⟨rfl, .inl rfl⟩
  | receive clNo msg =>
    cases hpc : s.returnChannel with
    | produce _ _ => simp [receiveStep, hpc] at hact
    | receive =>
      simp only [receiveStep, hpc, Option.ite_none_right_eq_some, Option.map_eq_some_iff] at hact
      obtain ⟨-, n, -, rfl⟩ := hact
      exact ⟨rfl, .inl rfl⟩
  | announce =>
    cases hpc : s.returnChannel with
    | receive => simp [announceStep, hpc] at hact
    | produce clNo msg =>
      simp only [announceStep, hpc, Option.some.injEq] at hact
      subst hact
      split <;> exact ⟨rfl, .inl rfl⟩

end Memory

/-- The cells of the occupied regions hold what has been read and not acknowledged. -/
theorem occupied_offset (h : Inv s) {arc : ℕ × ℕ} (harc : arc ∈ s.occupied) {x : ℕ}
    (hx : x < arc.2) :
    ∃ p, s.ring.ackedBytes ≤ p ∧ p < s.inputPos ∧ (arc.1 + x) % s.dataBufSize = p % s.dataBufSize := by
  obtain ⟨hoccupied, hsum⟩ := consecutive_occupied h
  obtain ⟨p, hp, hlt, hcell⟩ := hoccupied.exists_offset harc hx
  have hinput : s.freeTaken ≤ s.inputPos := h.ring.taken_le_input
  exact ⟨p, hp, by omega, hcell⟩

/-- A half-duplex transfer without FEC. -/
def plainConfig : NetConfig where
  async := false
  sn := false
  fec := false
  streaming := false
  blockSize := 1456
  sliceSize := 0
  maxSliceSize := 1024
  defaultSliceSize := 0
  discovery := .doubling
  fecStripes := 0
  fecRedundancy := 0
  fecStripesize := 0
  rehelloOffset := 50
  retriesUntilDrop := 200
  bigEndian := false

/-- The plain configuration is valid. -/
theorem validConfig_plainConfig : ValidConfig plainConfig := ⟨by decide, by decide⟩

end Udpcast.Sender
