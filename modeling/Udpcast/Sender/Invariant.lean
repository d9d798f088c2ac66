import Udpcast.Sender.Ring

/-!
# The invariant of the sender

The ring, the two slices of `netSenderMain` and the queue of messages. Every step keeps
the invariant.
-/

namespace Udpcast.Sender

open Fec (Gf)
open Queue
open Protocol

/-- `netSenderMain` is not about to change the hold of the two slices. -/
def NetPc.Steady : NetPc → Prop
  | .freeLoop | .making | .takeFec => False
  | _ => True

/-- No message is being put away either. -/
def NetPc.Plain : NetPc → Prop
  | .messageDone | .messageFree => False
  | net => net.Steady

/-- The thread is at none of the three places that change the hold of the slices. -/
theorem NetPc.Steady.ne {net : NetPc} (h : net.Steady) : net ≠ .freeLoop ∧ net ≠ .making ∧
    net ≠ .takeFec := by
  refine ⟨?_, ?_, ?_⟩ <;> rintro rfl <;> exact h

/-- The hold of the slices does not change either. -/
theorem NetPc.Plain.steady {net : NetPc} (h : net.Plain) : net.Steady := by
  cases net <;> trivial

/-- The thread is at none of these three places, nor at the two that put a message away. -/
theorem NetPc.Plain.ne {net : NetPc} (h : net.Plain) : net ≠ .freeLoop ∧ net ≠ .making ∧
    net ≠ .takeFec ∧ net ≠ .messageDone ∧ net ≠ .messageFree := by
  refine ⟨?_, ?_, ?_, ?_, ?_⟩ <;> rintro rfl <;> exact h

/-- How many slices a pointer stands for. -/
def slotCount (slot : Option ℕ) : ℕ := slot.elim 0 fun _ => 1

/-- The two slices of `netSenderMain` against the counts of the ring. -/
structure NetInv (g : RingView) (net : NetPc) (xmit rexmit : Option ℕ) : Prop where
  xmit_eq : ∀ x, xmit = some x → x = (g.taken + 1) % 2
  rexmit_eq : net ≠ .freeLoop → ∀ r, rexmit = some r → r = g.freed % 2
  taken_eq : net ≠ .freeLoop → g.taken = g.freed + slotCount rexmit + slotCount xmit
  acked_le : net ≠ .freeLoop → g.acked ≤ g.freed + slotCount rexmit
  freeing : net = .freeLoop → g.taken = g.acked + slotCount xmit ∧
    (g.acked = g.freed ∨ g.acked = g.freed + 1 ∧ (g.slices (g.freed % 2)).state = .preFree)
  preFree : ∀ i < 2, (g.slices i).state = .preFree → net = .freeLoop ∧ g.acked = g.freed + 1 ∧
    i = g.freed % 2
  making : net = .making ∨ net = .takeFec → xmit = none
  takeFec : net = .takeFec → g.fec = true
  cutter_notFec : g.fec = false → (g.cutter = .idle ↔ net ≠ .making)
  cutter_fec : g.fec = true → g.cutter ≠ .idle ∧ net ≠ .making

/-- A message that is received but not yet in the queue. -/
def ReturnPc.pending : ReturnPc → ℕ
  | .receive => 0
  | .produce .. => 1

/-- The queue of messages against its counters. -/
structure ReturnInv (s : State) : Prop where
  counts : ∃ C F, s.incomingPc.Holds 256 (C + s.incoming.length) C ∧
    s.freeSpace.Holds 256 (256 + F) (C + s.incoming.length + s.returnChannel.pending) ∧
    C = F + if s.net = .messageFree then 1 else 0
  freeSpace_open : s.freeSpace.atEnd = false
  message : s.net = .messageDone → s.incoming ≠ []

/-- The invariant of the sender. -/
structure Inv (s : State) : Prop where
  ring : RingInv s.ring
  net : NetInv s.ring s.net s.xmitSlice s.rexmitSlice
  ret : ReturnInv s
  noOverflow : s.failure ≠ some .overflow

variable {s s' : State}

section Frame

/-- `s'` has the same ring, slots and messages. -/
structure SameRing (s s' : State) : Prop where
  ring : s'.ring = s.ring
  xmitSlice : s'.xmitSlice = s.xmitSlice
  rexmitSlice : s'.rexmitSlice = s.rexmitSlice
  incoming : s'.incoming = s.incoming
  incomingPc : s'.incomingPc = s.incomingPc
  freeSpace : s'.freeSpace = s.freeSpace
  returnChannel : s'.returnChannel = s.returnChannel
  failure : s'.failure ≠ some .overflow

/-- Between two such places the hold of the slices stays as it is. -/
theorem NetInv.move {g : RingView} {net n : NetPc} {xmit rexmit : Option ℕ}
    (h : NetInv g net xmit rexmit) (hnet : net.Steady) (hnet' : n.Steady) :
    NetInv g n xmit rexmit where
  xmit_eq := h.xmit_eq
  rexmit_eq := fun _ => h.rexmit_eq hnet.ne.1
  taken_eq := fun _ => h.taken_eq hnet.ne.1
  acked_le := fun _ => h.acked_le hnet.ne.1
  freeing := fun hn => absurd hn hnet'.ne.1
  preFree := fun i hi hstate => absurd (h.preFree i hi hstate).1 hnet.ne.1
  making := fun hn => by rcases hn with rfl | rfl <;> exact hnet'.elim
  takeFec := fun hn => absurd hn hnet'.ne.2.2
  cutter_notFec := fun hf => ⟨fun _ => hnet'.ne.2.1, fun _ =>
    (h.cutter_notFec hf).mpr hnet.ne.2.1⟩
  cutter_fec := fun hf => ⟨(h.cutter_fec hf).1, hnet'.ne.2.1⟩

/-- The return channel stays as it is while no message is put away. -/
theorem ReturnInv.move (h : ReturnInv s) (hnet : s.net ≠ .messageFree)
    (hdone : s'.net ≠ .messageDone) (hfree : s'.net ≠ .messageFree)
    (hincoming : s'.incoming = s.incoming) (hpc : s'.incomingPc = s.incomingPc)
    (hspace : s'.freeSpace = s.freeSpace) (hret : s'.returnChannel = s.returnChannel) :
    ReturnInv s' := by
  obtain ⟨C, F, hin, hfreeSpace, hC⟩ := h.counts
  rw [if_neg hnet] at hC
  exact {
    counts := ⟨C, F, by rw [hpc, hincoming]; exact hin,
      by rw [hspace, hincoming, hret]; exact hfreeSpace, by rw [if_neg hfree]; exact hC⟩
    freeSpace_open := by rw [hspace]; exact h.freeSpace_open
    message := fun hn => absurd hn hdone }

/-- Steps of `netSenderMain` that only concern the protocol. -/
theorem Inv.move (h : Inv s) (hsame : SameRing s s') (hnet : s.net.Plain) (hnet' : s'.net.Plain) :
    Inv s' := by
  refine ⟨?_, ?_, h.ret.move hnet.ne.2.2.2.2 hnet'.ne.2.2.2.1 hnet'.ne.2.2.2.2 hsame.incoming
    hsame.incomingPc hsame.freeSpace hsame.returnChannel, hsame.failure⟩
  · rw [hsame.ring]
    exact h.ring
  · rw [hsame.ring, hsame.xmitSlice, hsame.rexmitSlice]
    exact h.net.move hnet.steady hnet'.steady

/-- The core of a slot that is updated is that of its new contents. -/
theorem core_update (slices : ℕ → Slice) (i : ℕ) (slice : Slice) :
    (fun j => (Function.update slices i slice j).core) =
      Function.update (fun j => (slices j).core) i slice.core := by
  funext j
  rcases eq_or_ne j i with rfl | hne
  · simp
  · simp [hne]

/-- Setting a slice sets its core in the view of the ring. -/
theorem ring_setSlice (i : ℕ) (slice : Slice) :
    (s.setSlice i slice).ring =
      { s.ring with slices := Function.update s.ring.slices i slice.core } := by
  simp only [State.ring, State.setSlice, core_update]

/-- The view of the ring does not change if the core does not. -/
theorem ring_setSlice_of_core {i : ℕ} {slice : Slice} (hcore : slice.core = (s.slices i).core) :
    (s.setSlice i slice).ring = s.ring := by
  rw [ring_setSlice, hcore]
  have hsame : Function.update s.ring.slices i (s.slices i).core = s.ring.slices :=
    Function.update_eq_self i s.ring.slices
  rw [hsame]

end Frame

section Reader

/-- The chunk for `read` ends at a boundary of 4096 bytes or is all there is. -/
theorem chunk_le (pos n : ℕ) :
    (if (pos + n) % 4096 < n then n - (pos + n) % 4096 else n) ≤ n := by
  split <;> omega

/-- A step of the reader keeps the invariant of the ring and does not fail. -/
theorem ringInv_readerStep {n : ℕ} (h : RingInv s.ring) (hfail : s.failure = none)
    (hstep : readerStep s n = some s') : RingInv s'.ring ∧ s'.failure = none := by
  cases hpc : s.reader with
  | wait =>
    simp only [readerStep, hpc, Option.map_eq_some_iff] at hstep
    obtain ⟨m, hm, hs⟩ := hstep
    obtain ⟨hpos, hfit, hroom⟩ := h.consumeContiguous hpc hm
    have hpos' : pcGetConsumerPosition s.freeMemQueue = s.inputPos % s.dataBufSize := hpos
    rw [hpos'] at hs
    have hchunk := chunk_le (s.inputPos % s.dataBufSize) m
    generalize (if (s.inputPos % s.dataBufSize + m) % 4096 < m then
      m - (s.inputPos % s.dataBufSize + m) % 4096 else m) = bytes at hs hchunk
    split at hs
    · subst hs
      exact ⟨h.readerExit hpc, hfail⟩
    · subst hs
      exact ⟨h.readerRead hpc (by omega) (by omega) (by omega), hfail⟩
  | read pos bytes =>
    simp only [readerStep, hpc, Option.ite_none_right_eq_some, Option.some.injEq] at hstep
    obtain ⟨⟨hn, hinput, hzero⟩, rfl⟩ := hstep
    exact ⟨h.read hpc hn hinput hzero, hfail⟩
  | commit bytes =>
    simp only [readerStep, hpc, Option.some.injEq] at hstep
    split at hstep
    · rename_i hzero
      subst hstep hzero
      exact ⟨h.readerEnd hpc, hfail⟩
    · rename_i hbytes
      subst hstep
      exact ⟨h.readerCommit hpc hbytes, hfail⟩
  | produce bytes =>
    obtain ⟨q, hq, hring⟩ := h.readerProduce hpc
    have hq' : pcProduce s.data bytes = some q := hq
    simp only [readerStep, hpc, hq', Option.some.injEq] at hstep
    subst hstep
    exact ⟨hring, hfail⟩
  | exited => simp [readerStep, hpc] at hstep

/-- What the reader may change. -/
theorem readerStep_frame {n : ℕ} (hstep : readerStep s n = some s') :
    s' = { s with
      dataBuffer := s'.dataBuffer, freeMemQueue := s'.freeMemQueue, data := s'.data
      reader := s'.reader, inputPos := s'.inputPos, failure := s'.failure
      readTotal := s'.readTotal, freeTaken := s'.freeTaken } := by
  cases hpc : s.reader with
  | wait =>
    simp only [readerStep, hpc, Option.map_eq_some_iff] at hstep
    obtain ⟨m, -, hs⟩ := hstep
    generalize (if (pcGetConsumerPosition s.freeMemQueue + m) % 4096 < m then
      m - (pcGetConsumerPosition s.freeMemQueue + m) % 4096 else m) = bytes at hs
    split at hs <;> subst hs <;> rfl
  | read pos bytes =>
    simp only [readerStep, hpc, Option.ite_none_right_eq_some, Option.some.injEq] at hstep
    obtain ⟨-, rfl⟩ := hstep
    rfl
  | commit bytes | produce bytes =>
    simp only [readerStep, hpc, Option.some.injEq] at hstep
    split at hstep <;> subst hstep <;> rfl
  | exited => simp [readerStep, hpc] at hstep

/-- A step of the reader keeps the invariant. -/
theorem inv_readerStep {n : ℕ} (h : Inv s) (hfail : s.failure = none)
    (hstep : readerStep s n = some s') : Inv s' := by
  obtain ⟨hring, hfail'⟩ := ringInv_readerStep h.ring hfail hstep
  have hnet := h.net
  have hret := h.ret
  have hframe := readerStep_frame hstep
  refine ⟨hring, ?_, ?_, by simp [hfail']⟩
  · rw [hframe]
    exact { hnet with }
  · rw [hframe]
    exact { hret with }

end Reader

section Cutter

/-- The cutter works on slots that `netSenderMain` does not hold. -/
theorem NetInv.cutter {g g' : RingView} {net : NetPc} {xmit rexmit : Option ℕ}
    (h : NetInv g net xmit rexmit) (hfec : g'.fec = g.fec) (htaken : g'.taken = g.taken)
    (hacked : g'.acked = g.acked) (hfreed : g'.freed = g.freed)
    (hstate : ∀ i < 2, (g'.slices i).state = .preFree ↔ (g.slices i).state = .preFree)
    (hcutter : g'.cutter = .idle ↔ g.cutter = .idle) : NetInv g' net xmit rexmit where
  xmit_eq := by rw [htaken]; exact h.xmit_eq
  rexmit_eq := by rw [hfreed]; exact h.rexmit_eq
  taken_eq := by rw [htaken, hfreed]; exact h.taken_eq
  acked_le := by rw [hacked, hfreed]; exact h.acked_le
  freeing := by
    rw [htaken, hacked, hfreed, hstate _ (Nat.mod_lt _ (by omega))]
    exact h.freeing
  preFree := fun i hi => by
    rw [hstate i hi, hacked, hfreed]
    exact h.preFree i hi
  making := h.making
  takeFec := by rw [hfec]; exact h.takeFec
  cutter_notFec := by rw [hfec, hcutter]; exact h.cutter_notFec
  cutter_fec := by rw [hfec, Ne, hcutter]; exact h.cutter_fec

/-- `makeSlice` takes no more than what is waiting, and whole blocks unless it is the end. -/
theorem sliceBytes_spec {config : NetConfig} {n : ℕ} :
    sliceBytes config n ≤ n ∧
      (config.blockSize ∣ sliceBytes config n ∨ sliceBytes config n = n ∧ n ≤ config.blockSize) := by
  unfold sliceBytes
  have hmod : ∀ m, config.blockSize ∣ m - m % config.blockSize :=
    fun m => Nat.dvd_sub_mod m
  dsimp only
  split
  · split
    · exact ⟨by omega, .inl (hmod _)⟩
    · exact ⟨by omega, .inl (Nat.dvd_mul_right ..)⟩
  · split
    · exact ⟨by omega, .inl (hmod _)⟩
    · exact ⟨le_rfl, .inr ⟨rfl, by omega⟩⟩

/-- An update from and to other states changes nothing about which slot is about to be freed. -/
theorem update_preFree {slices : ℕ → SliceCore} {k i : ℕ} {core : SliceCore}
    (hcore : core.state ≠ .preFree) (hk : (slices k).state ≠ .preFree) :
    (Function.update slices k core i).state = .preFree ↔ (slices i).state = .preFree := by
  rcases eq_or_ne i k with rfl | hne
  · simp [hcore, hk]
  · rw [Function.update_of_ne hne]

/-- A slot that is about to be freed after an update to another state has been so before. -/
theorem preFree_of_update {slices : ℕ → SliceCore} {k i : ℕ} {core : SliceCore}
    (hcore : core.state ≠ .preFree) (hpre : (Function.update slices k core i).state = .preFree) :
    (slices i).state = .preFree := by
  rcases eq_or_ne i k with rfl | hne
  · rw [Function.update_self] at hpre
    contradiction
  · rwa [Function.update_of_ne hne] at hpre

/-- `makeSlice` goes on after `pc_consume(fifo->data, ..)` has returned `n`. -/
def State.takeData (s : State) (i n : ℕ) : State :=
  { s with sliceNo := s.sliceNo + 1, cutter := .consumedData i }.setSlice i
    { s.slices i with
      base := pcGetConsumerPosition s.data
      sliceNo := s.sliceNo
      bytes := sliceBytes s.config n }

/-- `n` bytes can be taken without leaving a part of a block behind. -/
def State.CanTake (s : State) (n : ℕ) : Prop :=
  n ≤ pcGetWaiting s.data ∧
    (s.config.blockSize ≤ n ∨ n = pcGetWaiting s.data ∧ s.data.atEnd = true)

/-- What `pc_consume` has waited for can be taken. -/
theorem canTake_of_pcConsume {n : ℕ} (hn : pcConsume s.data (10 * s.config.blockSize) = some n) :
    s.CanTake n := by
  obtain ⟨hwait, hn⟩ := Option.ite_none_right_eq_some.mp hn
  obtain rfl := Option.some.inj hn
  refine ⟨le_rfl, ?_⟩
  rcases hwait with hmin | hend
  · exact .inl (by omega)
  · exact .inr ⟨rfl, hend⟩

/-- Taking the data of a slice keeps the invariant. -/
theorem inv_takeData {i n : ℕ} (h : Inv s) (hfail : s.failure = none)
    (hpc : s.cutter = .consumeData i) (hn : s.CanTake n) : Inv (s.takeData i n) := by
  have hring := h.ring
  obtain rfl : i = s.cuts.length % 2 := by
    simpa only [RingView.CutterInv, State.ring, hpc] using hring.cutter
  have hfree := hring.slot_making (by simp [State.ring, hpc, CutterPc.making])
  obtain ⟨hle, hwhole⟩ := hn
  have hspec : sliceBytes s.config n ≤ n ∧
      (s.config.blockSize ∣ sliceBytes s.config n ∨
        sliceBytes s.config n = n ∧ n ≤ s.config.blockSize) := sliceBytes_spec
  obtain ⟨hbytes, haligned⟩ := hspec
  have haligned' : s.config.blockSize ∣ sliceBytes s.config n ∨
      sliceBytes s.config n = pcGetWaiting s.data ∧ s.data.atEnd = true := by
    rcases haligned with hdvd | ⟨hall, hsmall⟩
    · exact .inl hdvd
    · rcases hwhole with hblock | ⟨hrest, hend⟩
      · exact .inl (by rw [hall, Nat.le_antisymm hsmall hblock])
      · exact .inr ⟨hall.trans hrest, hend⟩
  refine ⟨?_, ?_, { h.ret with }, by simp [State.takeData, State.setSlice, hfail]⟩
  · rw [State.takeData, ring_setSlice]
    exact hring.consumeData hpc (hbytes.trans hle) haligned'
  · rw [State.takeData, ring_setSlice]
    have hstate : (s.slices (s.cuts.length % 2)).state ≠ .preFree := by
      rw [show (s.slices (s.cuts.length % 2)).state = .free from hfree]
      simp
    exact h.net.cutter rfl rfl rfl rfl (fun i _ => update_preFree hstate hstate)
      (by simp [State.ring, hpc])

/-- A step of `makeSlice` and of the FEC thread keeps the invariant. -/
theorem inv_cutterStep (h : Inv s) (hfail : s.failure = none) (hstep : cutterStep s = some s') :
    Inv s' := by
  have hring := h.ring
  have hnet := h.net
  have hret := h.ret
  cases hpc : s.cutter with
  | idle => simp [cutterStep, hpc] at hstep
  | consumeSlot =>
    simp only [cutterStep, hpc, Option.map_eq_some_iff] at hstep
    obtain ⟨n, hn, rfl⟩ := hstep
    exact ⟨hring.consumeSlot hpc hn,
      hnet.cutter rfl rfl rfl rfl (fun _ _ => Iff.rfl) (by simp [State.ring, hpc]),
      { hret with }, by simp [hfail]⟩
  | consumedSlot =>
    have hpos : pcGetConsumerPosition s.freeSlicesPc = s.cuts.length % 2 := hring.slot_eq hpc
    have hfree : (s.slices (s.cuts.length % 2)).state = .free := hring.slot_free hpc
    simp only [cutterStep, hpc, hpos, hfree, if_true, Option.some.injEq] at hstep
    subst hstep
    refine ⟨?_, ?_, { hret with }, by simp [State.setSlice, hfail]⟩
    · rw [ring_setSlice]
      exact hring.consumedSlot hpc
    · rw [ring_setSlice]
      refine hnet.cutter rfl rfl rfl rfl (fun i _ => update_preFree (by simp [Slice.core, Slice.zero]) ?_)
        (by simp [State.ring, hpc])
      simp [State.ring, Slice.core, hfree]
  | consumeData i =>
    simp only [cutterStep, hpc, Option.map_eq_some_iff] at hstep
    obtain ⟨n, hn, rfl⟩ := hstep
    exact inv_takeData h hfail hpc (canTake_of_pcConsume hn)
  | consumedData i =>
    have hi : i = s.cuts.length % 2 := by
      have hcutter := hring.cutter
      simp only [RingView.CutterInv, State.ring, hpc] at hcutter
      exact hcutter.1
    have hfree : (s.slices i).state = .free := by
      rw [hi]
      exact hring.slot_making (by simp [State.ring, hpc, CutterPc.making])
    have hstate : ∀ k, (Function.update s.ring.slices i { s.ring.slices i with state := .new } k).state =
        .preFree ↔ (s.ring.slices k).state = .preFree := fun k =>
      update_preFree (by simp) (by simp [State.ring, Slice.core, hfree])
    simp only [cutterStep, hpc, Option.some.injEq] at hstep
    cases hfec : s.config.fec with
    | true =>
      rw [if_pos (by exact hfec)] at hstep
      subst hstep
      have hring' := hring.consumedData hpc (.inl ⟨hfec, rfl, rfl⟩)
      refine ⟨?_, ?_, { hret with }, by simp [State.setSlice, hfail]⟩
      · simp only [State.ring, State.setSlice, core_update]
        exact hring'
      · simp only [State.ring, State.setSlice, core_update]
        exact hnet.cutter rfl rfl rfl rfl (fun k _ => hstate k) (by simp [State.ring, hpc])
    | false =>
      rw [if_neg (by simp [State.setSlice, hfec])] at hstep
      have hmaking : s.net = .making := by
        by_contra hne
        exact absurd ((hnet.cutter_notFec hfec).mpr hne) (by simp [State.ring, hpc])
      have hxmit := hnet.making (.inl hmaking)
      have hlength : s.ring.taken = s.ring.cuts.length := hring.notFec hfec
      have htaken := hnet.taken_eq (by simp [hmaking])
      have hring' := hring.consumedData hpc (.inr ⟨hfec, rfl, rfl⟩)
      subst hstep
      refine ⟨?_, ?_, ?_, by simp [State.setSlice, hfail]⟩
      · simp only [State.ring, State.setSlice, core_update]
        exact hring'
      · simp only [State.ring, State.setSlice, core_update]
        exact {
          xmit_eq := fun x hx => by
            have hlength' : s.taken = s.cuts.length := hlength
            obtain rfl := Option.some.inj hx
            dsimp only
            omega
          rexmit_eq := fun _ => hnet.rexmit_eq (by simp [hmaking])
          taken_eq := fun _ => by
            rw [hxmit] at htaken
            exact congrArg (· + 1) htaken
          acked_le := fun _ => hnet.acked_le (by simp [hmaking])
          freeing := by simp
          preFree := fun k hk hpre =>
            absurd (hnet.preFree k hk ((hstate k).mp hpre)).1 (by simp [hmaking])
          making := by simp
          takeFec := by simp
          cutter_notFec := by simp
          cutter_fec := fun hf => absurd hf (by simp [hfec]) }
      · exact hret.move (by simp [hmaking]) (by simp) (by simp) rfl rfl rfl rfl
  | encode i =>
    simp only [cutterStep, hpc, Option.some.injEq] at hstep
    have hmem : ∀ p, s.ring.ackedBytes ≤ p → p < s.inputPos →
        padLastBlock s (s.slices i) (p % s.dataBufSize) = s.dataBuffer (p % s.dataBufSize) := by
      intro p hp hlt
      unfold padLastBlock
      dsimp only
      split
      · rename_i hleft
        exact if_neg (hring.padding_free hpc rfl hleft hp hlt)
      · rfl
    have hring' := hring.encode hpc hmem
    have hnet' : NetInv { s.ring with dataBuffer := padLastBlock s (s.slices i), cutter := .produceFec }
        s.net s.xmitSlice s.rexmitSlice :=
      hnet.cutter rfl rfl rfl rfl (fun _ _ => Iff.rfl) (by simp [State.ring, hpc])
    split at hstep
    · subst hstep
      refine ⟨?_, ?_, { hret with }, by simp [State.setSlice, hfail]⟩
      · rw [ring_setSlice_of_core (by rfl)]
        exact hring'
      · rw [ring_setSlice_of_core (by rfl)]
        exact hnet'
    · subst hstep
      exact ⟨hring', hnet', { hret with }, by simp [State.fail]⟩
  | produceFec =>
    obtain ⟨q, hq, hring'⟩ := hring.produceFec hpc
    have hq' : pcProduce s.fecDataPc 1 = some q := hq
    simp only [cutterStep, hpc, hq', Option.some.injEq] at hstep
    subst hstep
    exact ⟨hring', hnet.cutter rfl rfl rfl rfl (fun _ _ => Iff.rfl) (by simp [State.ring, hpc]),
      { hret with }, by simp [hfail]⟩

end Cutter

section Frames

variable {i clNo : ℕ} {slice slice' : Slice}

/-- `config'` differs from `config` in what the search for a good slice size changes only. -/
def SameMode (config config' : NetConfig) : Prop :=
  config' = { config with
    sliceSize := config'.sliceSize
    maxSliceSize := config'.maxSliceSize
    discovery := config'.discovery }

/-- FEC stays on or off. -/
theorem SameMode.fec {c c' : NetConfig} (h : SameMode c c') : c'.fec = c.fec := by
  unfold SameMode at h
  rw [h]

/-- Two such changes are one. -/
theorem SameMode.trans {c c' c'' : NetConfig} (h : SameMode c c') (h' : SameMode c' c'') :
    SameMode c c'' := by
  unfold SameMode at *
  rw [h', h]

/-- Growing changes the slice size and what belongs to its search only. -/
theorem sameMode_growSliceSize (config : NetConfig) : SameMode config (growSliceSize config) := by
  unfold SameMode growSliceSize
  dsimp only
  split
  · split <;> rfl
  · rfl

/-- Shrinking changes the slice size and what belongs to its search only. -/
theorem sameMode_shrinkSliceSize (config : NetConfig) (slice : Slice) :
    SameMode config (shrinkSliceSize config slice) := by
  unfold SameMode shrinkSliceSize
  dsimp only
  split <;> rfl

/-- Choosing the first slice size changes the slice sizes only. -/
theorem sameMode_initSliceSize (config : NetConfig) : SameMode config (initSliceSize config) := rfl

/-- Before its loop `netSenderMain` sets the slice size and its maximum, and goes on unless the
size is negative or too large. -/
theorem netStep_init (hpc : s.net = .init) (hstep : netStep s = some s') : ∃ failure,
    s' = { s with
      config := initSliceSize s.config, net := .cleanupAck, failure := failure } ∧
    (failure = s.failure ∧ 0 ≤ limitedSliceSize s.config ∧
        (initSliceSize s.config).sliceSize ≤ Protocol.maxSliceSize ∨
      failure = some .negativeSize ∨ failure = some .assertion) := by
  simp only [netStep, hpc, Option.some.injEq] at hstep
  subst hstep
  split
  · exact ⟨_, rfl, .inr (.inl rfl)⟩
  · rename_i hsign
    split
    · rename_i hsize
      exact ⟨_, rfl, .inl ⟨rfl, not_lt.mp hsign, hsize⟩⟩
    · exact ⟨_, rfl, .inr (.inr rfl)⟩

/-- An answer does not touch the bytes of the slice. -/
theorem markParticipantAnswered_core : (markParticipantAnswered slice clNo).core = slice.core := by
  unfold markParticipantAnswered
  split <;> rfl

/-- An OK does not touch the bytes of the slice. -/
theorem markOk_core : (markOk slice clNo).core = slice.core := by
  unfold markOk
  split
  · rfl
  · exact markParticipantAnswered_core

/-- A RETRANSMIT does not touch the bytes of the slice. -/
theorem markRetransmit_core {map : ℕ → Bool} {rxmit : ℤ} :
    (markRetransmit slice clNo map rxmit).core = slice.core := by
  unfold markRetransmit
  split
  · rfl
  · exact markParticipantAnswered_core

/-- A participant that leaves does not touch the bytes of the slice. -/
theorem forgetClient_core : (forgetClient slice clNo).core = slice.core := by
  unfold forgetClient
  dsimp only
  split <;> split <;> rfl

/-- What retransmissions change in a slice. -/
theorem sendSliceAgain_frame {ms : List ServerMsg}
    (hsend : sendSliceAgain s slice = some (slice', ms)) :
    slice' = { slice with
      nextBlock := slice'.nextBlock, isXmittedMap := slice'.isXmittedMap
      needRxmit := slice'.needRxmit, lastGoodBlock := slice'.lastGoodBlock } := by
  have hloop : ∀ (l : List ℕ) (st st' : Slice × List ServerMsg),
      l.foldlM (fun st k => retransmitBlock s k st) st = some st' → st'.1 = { st.1 with
        isXmittedMap := st'.1.isXmittedMap, lastGoodBlock := st'.1.lastGoodBlock } := by
    intro l
    induction l with
    | nil =>
      intro st st' hst
      obtain rfl : st = st' := Option.some.inj hst
      rfl
    | cons k l ih =>
      rintro ⟨slice, sent⟩ st' hst
      rw [List.foldlM_cons] at hst
      obtain ⟨mid, hmid, hrest⟩ := Option.bind_eq_some_iff.mp hst
      rw [ih mid st' hrest]
      simp only [retransmitBlock] at hmid
      split at hmid
      · obtain rfl := Option.some.inj hmid
        rfl
      · obtain ⟨ms, -, rfl⟩ := Option.map_eq_some_iff.mp hmid
        rfl
  unfold sendSliceAgain at hsend
  split at hsend
  · obtain ⟨rfl, -⟩ := Prod.mk.inj (Option.some.inj hsend)
    rfl
  · obtain ⟨⟨mid, sent⟩, hmid, hst⟩ := Option.map_eq_some_iff.mp hsend
    obtain ⟨rfl, -⟩ := Prod.mk.inj hst
    have hframe := hloop _ _ _ hmid
    dsimp only at hframe ⊢
    rw [hframe]

/-- The view of the ring does not depend on the slice size. -/
theorem ring_config {config : NetConfig} (h : SameMode s.config config) :
    { s with config := config }.ring = s.ring := by
  rw [h]
  rfl

/-- It does not depend on the notes on a slice. -/
theorem ring_modifySlice {slot : Option ℕ} {f : Slice → Slice}
    (hf : ∀ slice, (f slice).core = slice.core) : (s.modifySlice slot f).ring = s.ring := by
  cases slot with
  | none => rfl
  | some i => exact ring_setSlice_of_core (hf _)

/-- `modifySlice` changes the slots and nothing else. -/
theorem modifySlice_frame (slot : Option ℕ) (f : Slice → Slice) :
    ∃ slices, s.modifySlice slot f = { s with slices := slices } := by
  cases slot with
  | none => exact ⟨s.slices, rfl⟩
  | some i => exact ⟨_, rfl⟩

/-- Messages change the notes on slices and the table of participants only. -/
theorem handleMessage_frame (clNo : ℕ) (msg : ClientMsg) :
    ∃ slices db, handleMessage s clNo msg = { s with slices := slices, db := db } ∧
      (handleMessage s clNo msg).ring = s.ring := by
  cases msg with
  | ok sliceNo =>
    simp only [handleMessage]
    split
    · obtain ⟨slices, heq⟩ := modifySlice_frame (s := s) (findSlice s sliceNo) (markOk · clNo)
      exact ⟨slices, s.db, heq, ring_modifySlice fun _ => markOk_core⟩
    · exact ⟨s.slices, s.db, rfl, rfl⟩
  | retransmit sliceNo rxmit map =>
    simp only [handleMessage]
    split
    · obtain ⟨slices, heq⟩ := modifySlice_frame (s := s) (findSlice s sliceNo)
        (markRetransmit · clNo map (rawField s.config.bigEndian rxmit).toInt)
      exact ⟨slices, s.db, heq, ring_modifySlice fun _ => markRetransmit_core⟩
    · exact ⟨s.slices, s.db, rfl, rfl⟩
  | disconnect =>
    have hring : ((s.modifySlice s.xmitSlice (forgetClient · clNo)).modifySlice
        s.rexmitSlice (forgetClient · clNo)).ring = s.ring := by
      rw [ring_modifySlice fun _ => forgetClient_core, ring_modifySlice fun _ => forgetClient_core]
    obtain ⟨slices, heq⟩ := modifySlice_frame (s := s) s.xmitSlice (forgetClient · clNo)
    obtain ⟨slices', heq'⟩ := modifySlice_frame (s := { s with slices := slices }) s.rexmitSlice
      (forgetClient · clNo)
    have hboth : handleMessage s clNo .disconnect =
        { s with slices := slices', db := s.db.remove clNo } := by
      simp only [handleMessage, heq, heq']
    exact ⟨slices', s.db.remove clNo, hboth, by simp only [handleMessage]; exact hring⟩
  | other => exact ⟨s.slices, s.db, rfl, rfl⟩

end Frames

section Net

variable {i r x : ℕ}

/-- A slice in the retransmission slot that is not acknowledged is the next one to be. -/
theorem Inv.rexmit (h : Inv s) (hnet : s.net.Plain) (hr : s.rexmitSlice = some r)
    (hstate : (s.slices r).state ≠ .acked) :
    r = s.acked % 2 ∧ s.acked < s.taken ∧ s.acked = s.freed := by
  have hrexmit := h.net.rexmit_eq hnet.ne.1 r hr
  have htaken := h.net.taken_eq hnet.ne.1
  have hfreed := h.ring.freed_le
  rw [hr] at htaken
  have hacked : s.ring.acked = s.ring.freed := by
    by_contra hne
    have hslot := (h.ring.slots s.ring.freed le_rfl (by omega)).state_acked (by omega)
    rw [← hrexmit] at hslot
    rcases hslot with hacked | hpre
    · exact hstate hacked
    · have hlt := Nat.mod_lt s.ring.freed (show 0 < 2 by omega)
      rw [← hrexmit] at hlt
      exact hnet.ne.1 (h.net.preFree r hlt hpre).1
  have hcount : slotCount (some r) = 1 := rfl
  refine ⟨?_, ?_, hacked⟩
  · change r = s.ring.acked % 2
    rw [hacked, hrexmit]
  · change s.ring.acked < s.ring.taken
    omega

/-- The slice in the transmission slot is the one that was taken last. -/
theorem Inv.xmit_holds (h : Inv s) (hx : s.xmitSlice = some x) :
    ∃ j, s.taken = j + 1 ∧ s.acked ≤ j ∧
      SlotHolds s.cuts s.dataBufSize s.acked s.taken (s.slices x).core j := by
  have hxmit : x = (s.taken + 1) % 2 := h.net.xmit_eq x hx
  have hcount : slotCount s.xmitSlice = 1 := by rw [hx]; rfl
  have hfreed : s.freed ≤ s.acked := h.ring.freed_le
  have hlength : s.taken ≤ s.cuts.length := le_of_add_le_left h.ring.taken_le
  have hle : s.cuts.length ≤ s.freed + 2 := h.ring.length_le
  have htaken : s.freed < s.taken ∧ s.acked < s.taken := by
    rcases eq_or_ne s.net .freeLoop with hloop | hloop
    · have hfreeing : s.taken = s.acked + slotCount s.xmitSlice := (h.net.freeing hloop).1
      omega
    · have htaken : s.taken = s.freed + slotCount s.rexmitSlice + slotCount s.xmitSlice :=
        h.net.taken_eq hloop
      have hacked : s.acked ≤ s.freed + slotCount s.rexmitSlice := h.net.acked_le hloop
      omega
  obtain ⟨j, hj⟩ : ∃ j, s.taken = j + 1 := ⟨s.taken - 1, by omega⟩
  have hholds := h.ring.slots j (show s.freed ≤ j by omega) (show j < s.freed + 2 by omega)
  rw [show j % 2 = x by omega] at hholds
  exact ⟨j, hj, by omega, hholds⟩

/-- The cutter works on a slot that `netSenderMain` does not hold. -/
theorem Inv.held_ne {i : ℕ} (h : Inv s) (hnet : s.net ≠ .freeLoop)
    (hlength : s.cuts.length ≤ s.freed + 1)
    (hheld : s.xmitSlice = some i ∨ s.rexmitSlice = some i) : i ≠ s.cuts.length % 2 := by
  have htaken : s.taken = s.freed + slotCount s.rexmitSlice + slotCount s.xmitSlice :=
    h.net.taken_eq hnet
  have hle : s.taken ≤ s.cuts.length := le_of_add_le_left h.ring.taken_le
  rcases hheld with hx | hr
  · have hxmit : i = (s.taken + 1) % 2 := h.net.xmit_eq i hx
    have hcount : slotCount s.xmitSlice = 1 := by rw [hx]; rfl
    omega
  · have hrexmit : i = s.freed % 2 := h.net.rexmit_eq hnet i hr
    have hcount : slotCount s.rexmitSlice = 1 := by rw [hr]; rfl
    omega

/-- `ackSlice` on the slice that is being retransmitted. -/
theorem inv_ackSlice (h : Inv s) (hnet : s.net.Plain) (hr : s.rexmitSlice = some r) :
    Inv (ackSlice s r) := by
  unfold ackSlice
  dsimp only
  split
  · exact h
  · rename_i hstate
    obtain ⟨rfl, hlt, hfreed⟩ := h.rexmit hnet hr hstate
    obtain ⟨q, hq, hring⟩ := h.ring.ack hlt
    have hq' : pcProduce s.freeMemQueue (s.slices (s.acked % 2)).bytes = some q := hq
    have htaken := h.net.taken_eq hnet.ne.1
    rw [hq']
    have hsame := sameMode_growSliceSize s.config
    have hring' : RingInv { s.ring with
        blockSize := (growSliceSize s.config).blockSize, fec := (growSliceSize s.config).fec
        acked := s.acked + 1, freeMemQueue := q
        slices := Function.update s.ring.slices (s.acked % 2)
          { s.ring.slices (s.acked % 2) with state := .acked } } := by
      rw [hsame]
      exact hring
    refine ⟨?_, ?_, { h.ret with }, h.noOverflow⟩
    · simp only [State.ring, State.setSlice, core_update]
      exact hring'
    · simp only [State.ring, State.setSlice, core_update]
      have hcount : slotCount s.rexmitSlice = 1 := by rw [hr]; rfl
      exact { h.net with
        acked_le := fun _ => by
          change s.acked + 1 ≤ s.freed + slotCount s.rexmitSlice
          omega
        freeing := fun hn => absurd hn hnet.ne.1
        preFree := fun k hk hpre =>
          absurd (h.net.preFree k hk (preFree_of_update (by simp [Slice.core]) hpre)).1 hnet.ne.1
        takeFec := fun hn => absurd hn hnet.ne.2.2.1
        cutter_notFec := by dsimp only; rw [hsame.fec]; exact h.net.cutter_notFec
        cutter_fec := by dsimp only; rw [hsame.fec]; exact h.net.cutter_fec }

/-- `sendReqack` on the slice that is being retransmitted. -/
theorem inv_sendReqack (h : Inv s) (hnet : s.net.Plain) (hr : s.rexmitSlice = some r) :
    Inv (sendReqack s r) := by
  unfold sendReqack
  dsimp only
  split
  · exact inv_ackSlice h hnet hr
  · split
    · exact h
    · refine h.move ⟨?_, rfl, rfl, rfl, rfl, rfl, rfl, h.noOverflow⟩ hnet hnet
      rw [ring_setSlice_of_core (by rfl)]
      exact ring_config (sameMode_shrinkSliceSize ..)

/-- Leaving the main loop keeps the invariant. -/
theorem inv_exitMainLoop (h : Inv s) (hnet : s.net.Plain) : Inv (exitMainLoop s) := by
  have hmove := h.net.move hnet.steady (n := .exited) trivial
  exact ⟨h.ring.produceEnd, { hmove with }, h.ret.move hnet.ne.2.2.2.2 (by simp [exitMainLoop])
    (by simp [exitMainLoop]) rfl rfl rfl rfl, h.noOverflow⟩

/-- Everything is transmitted, or a message interrupts the transmission. -/
theorem inv_finishSending (h : Inv s) (hnet : s.net.Plain) (hx : s.xmitSlice = some x) :
    Inv (finishSending s x i) := by
  have hmove : Inv { s with net := .loopTest } :=
    h.move ⟨rfl, rfl, rfl, rfl, rfl, rfl, rfl, h.noOverflow⟩ hnet trivial
  unfold finishSending
  dsimp only
  split
  · have hxmit := h.net.xmit_eq x hx
    have htaken := h.net.taken_eq hnet.ne.1
    have hacked := h.net.acked_le hnet.ne.1
    have hcount : slotCount s.xmitSlice = 1 := by rw [hx]; rfl
    obtain ⟨j, hj⟩ : ∃ j, s.ring.taken = j + 1 := ⟨s.ring.taken - 1, by omega⟩
    have hxj : x = j % 2 := by omega
    have hring := h.ring.xmitted (j := j) (by omega) (by omega)
    rw [← hxj] at hring
    refine ⟨?_, ?_, { hmove.ret with }, h.noOverflow⟩
    · simp only [State.ring, State.setSlice, core_update]
      exact hring
    · simp only [State.ring, State.setSlice, core_update]
      exact { hmove.net with
        freeing := by simp
        preFree := fun k hk hpre =>
          absurd (h.net.preFree k hk (preFree_of_update (by simp [Slice.core]) hpre)).1 hnet.ne.1 }
  · refine hmove.move ⟨?_, rfl, rfl, rfl, rfl, rfl, rfl, h.noOverflow⟩ trivial trivial
    exact ring_setSlice_of_core (s := { s with net := .loopTest }) (by rfl)

section Slots

variable {g : RingView} {net net' : NetPc} {xmit rexmit : Option ℕ} {q : Produconsum}

/-- `freeSlice` is called. -/
theorem NetInv.startFreeing (h : NetInv g net xmit rexmit) (hnet : net.Plain)
    (hacked : g.acked = g.freed + 1) (hr : slotCount rexmit = 1) :
    NetInv { g with
        slices := Function.update g.slices (g.freed % 2)
          { g.slices (g.freed % 2) with state := .preFree } } .freeLoop xmit rexmit := by
  have htaken := h.taken_eq hnet.ne.1
  exact { h with
    rexmit_eq := by simp
    taken_eq := by simp
    acked_le := by simp
    freeing := fun _ => ⟨by dsimp only; omega, .inr ⟨hacked, by simp⟩⟩
    preFree := fun k hk hpre => by
      refine ⟨rfl, hacked, ?_⟩
      dsimp only at hpre ⊢
      by_contra hne
      rw [Function.update_of_ne hne] at hpre
      exact hnet.ne.1 (h.preFree k hk hpre).1
    making := by simp
    takeFec := by simp
    cutter_notFec := fun hf => by
      have := (h.cutter_notFec hf).mpr hnet.ne.2.1
      simp [this]
    cutter_fec := fun hf => ⟨(h.cutter_fec hf).1, by simp⟩ }

/-- A turn of the loop in `freeSlice`. -/
theorem NetInv.free (h : NetInv g .freeLoop xmit rexmit) (hacked : g.acked = g.freed + 1) :
    NetInv { g with
        freeSlicesPc := q
        freed := g.freed + 1
        slices := Function.update g.slices (g.freed % 2)
          { g.slices (g.freed % 2) with state := .free } } .freeLoop xmit rexmit :=
  { h with
    rexmit_eq := by simp
    taken_eq := by simp
    acked_le := by simp
    freeing := fun _ => ⟨(h.freeing rfl).1, .inl hacked⟩
    preFree := fun k hk hpre => by
      dsimp only at hpre
      have hne : k ≠ g.freed % 2 := by
        rintro rfl
        rw [Function.update_self] at hpre
        contradiction
      rw [Function.update_of_ne hne] at hpre
      exact absurd (h.preFree k hk hpre).2.2 hne }

/-- The end of `freeSlice`. -/
theorem NetInv.endFreeing (h : NetInv g .freeLoop xmit rexmit) (hacked : g.acked = g.freed) :
    NetInv g .shift xmit none := by
  have htaken := (h.freeing rfl).1
  have hcount : slotCount none = 0 := rfl
  exact { h with
    rexmit_eq := by simp
    taken_eq := fun _ => by omega
    acked_le := fun _ => by omega
    freeing := by simp
    preFree := fun k hk hpre => by
      have := (h.preFree k hk hpre).2.1
      omega
    making := by simp
    takeFec := by simp
    cutter_notFec := fun hf => by
      have := h.cutter_notFec hf
      simp [this]
    cutter_fec := fun hf => ⟨(h.cutter_fec hf).1, by simp⟩ }

/-- The transmitted slice moves to the retransmission slot. -/
theorem NetInv.shift {x : ℕ} (h : NetInv g net (some x) none) (hnet : net.Plain) :
    NetInv g net none (some x) := by
  have htaken := h.taken_eq hnet.ne.1
  have hacked := h.acked_le hnet.ne.1
  have hx := h.xmit_eq x rfl
  have hcount : slotCount none = 0 ∧ slotCount (some x) = 1 := ⟨rfl, rfl⟩
  exact { h with
    xmit_eq := by simp
    rexmit_eq := fun _ r hr => by
      obtain rfl := Option.some.inj hr
      omega
    taken_eq := fun _ => by omega
    acked_le := fun _ => by omega
    freeing := fun hn => absurd hn hnet.ne.1
    making := fun _ => rfl }

/-- `makeSlice` is called. -/
theorem NetInv.startMaking (h : NetInv g net none rexmit) (hnet : net.Plain) (hfec : g.fec = false) :
    NetInv { g with cutter := .consumeSlot } .making none rexmit :=
  { h with
    rexmit_eq := fun _ => h.rexmit_eq hnet.ne.1
    taken_eq := fun _ => h.taken_eq hnet.ne.1
    acked_le := fun _ => h.acked_le hnet.ne.1
    freeing := by simp
    preFree := fun k hk hpre => absurd (h.preFree k hk hpre).1 hnet.ne.1
    making := fun _ => rfl
    takeFec := by simp
    cutter_notFec := by simp
    cutter_fec := fun hf => absurd hf (by simp [hfec]) }

/-- An encoded slice is wanted. -/
theorem NetInv.startTaking (h : NetInv g net none rexmit) (hnet : net.Plain) (hfec : g.fec = true) :
    NetInv g .takeFec none rexmit :=
  { h with
    rexmit_eq := fun _ => h.rexmit_eq hnet.ne.1
    taken_eq := fun _ => h.taken_eq hnet.ne.1
    acked_le := fun _ => h.acked_le hnet.ne.1
    freeing := by simp
    preFree := fun k hk hpre => absurd (h.preFree k hk hpre).1 hnet.ne.1
    making := fun _ => rfl
    takeFec := fun _ => hfec
    cutter_notFec := fun hf => absurd hf (by simp [hfec])
    cutter_fec := fun hf => ⟨(h.cutter_fec hf).1, by simp⟩ }

/-- An encoded slice is taken. -/
theorem NetInv.take {x : ℕ} (h : NetInv g .takeFec xmit rexmit) (hx : x = g.taken % 2) :
    NetInv { g with fecDataPc := q, taken := g.taken + 1 } .checkEnd (some x) rexmit := by
  have htaken := h.taken_eq (by simp)
  rw [h.making (.inr rfl)] at htaken
  exact { h with
    xmit_eq := fun y hy => by
      obtain rfl := Option.some.inj hy
      dsimp only
      omega
    rexmit_eq := fun _ => h.rexmit_eq (by simp)
    taken_eq := fun _ => congrArg (· + 1) htaken
    acked_le := fun _ => h.acked_le (by simp)
    freeing := by simp
    preFree := fun k hk hpre => absurd (h.preFree k hk hpre).1 (by simp)
    making := by simp
    takeFec := by simp
    cutter_notFec := fun hf => absurd hf (by simp [h.takeFec rfl])
    cutter_fec := fun hf => ⟨(h.cutter_fec hf).1, by simp⟩ }

end Slots

/-- Freeing an acknowledged slice. -/
theorem inv_freeLoop (h : Inv s) (hpc : s.net = .freeLoop) (hstep : netStep s = some s') :
    Inv s' := by
  have hnet := h.net
  rw [hpc] at hnet
  have hpos : pcGetProducerPosition s.freeSlicesPc = s.freed % 2 :=
    h.ring.freeSlices.producerPosition_eq.trans (Nat.add_mod_left 2 s.freed)
  have hret := h.ret
  simp only [netStep, hpc, hpos, Option.some.injEq] at hstep
  split at hstep
  · rename_i hpre
    obtain ⟨-, hfreed, -⟩ := hnet.preFree (s.freed % 2) (Nat.mod_lt _ (by omega)) hpre
    obtain ⟨q, hq, hring⟩ := h.ring.free (show s.ring.freed < s.ring.acked by omega)
    have hq' : pcProduce s.freeSlicesPc 1 = some q := hq
    simp only [State.setSlice, hq'] at hstep
    subst hstep
    refine ⟨?_, ?_, { hret with }, h.noOverflow⟩
    · simp only [State.ring, core_update]
      exact hring
    · simp only [State.ring, core_update, hpc]
      exact hnet.free hfreed
  · rename_i hpre
    subst hstep
    have hfreed := (hnet.freeing rfl).2.resolve_right fun hf => hpre hf.2
    exact ⟨h.ring, hnet.endFreeing hfreed,
      hret.move (by simp [hpc]) (by simp) (by simp) rfl rfl rfl rfl, h.noOverflow⟩

/-- The call of `freeSlice`. -/
theorem inv_cleanupFree (h : Inv s) (hpc : s.net = .cleanupFree) (hstep : netStep s = some s') :
    Inv s' := by
  have hplain : s.net.Plain := by rw [hpc]; trivial
  have hmove : Inv { s with net := .shift } :=
    h.move ⟨rfl, rfl, rfl, rfl, rfl, rfl, rfl, h.noOverflow⟩ hplain trivial
  simp only [netStep, hpc, Option.some.injEq] at hstep
  subst hstep
  split
  · rename_i r hr
    split
    · rename_i hstate
      obtain rfl := h.net.rexmit_eq hplain.ne.1 r hr
      have hcount : slotCount s.rexmitSlice = 1 := by rw [hr]; rfl
      have hle := h.net.acked_le hplain.ne.1
      have htaken := h.net.taken_eq hplain.ne.1
      have hlt : s.ring.freed < s.ring.acked := by
        by_contra hge
        have hslot := (h.ring.slots s.ring.freed le_rfl (by omega)).state_taken (by omega) (by omega)
        rw [show (s.ring.slices (s.ring.freed % 2)).state = .acked from hstate] at hslot
        rcases hslot with hnew | hxmitted <;> contradiction
      have hring := h.ring.preFree hlt
      have hnet := h.net.startFreeing hplain (by omega) hcount
      refine ⟨?_, ?_, h.ret.move (by simp [hpc]) (by simp [State.setSlice]) (by simp [State.setSlice])
        rfl rfl rfl rfl, h.noOverflow⟩
      · simp only [State.ring, State.setSlice, core_update]
        exact hring
      · simp only [State.ring, State.setSlice, core_update]
        exact hnet
    · exact hmove
  · exact hmove

/-- Moving the slice that has been sent to the other slot keeps the invariant. -/
theorem inv_shift (h : Inv s) (hpc : s.net = .shift) (hstep : netStep s = some s') : Inv s' := by
  have hplain : s.net.Plain := by rw [hpc]; trivial
  have hmove : Inv { s with net := .messages } :=
    h.move ⟨rfl, rfl, rfl, rfl, rfl, rfl, rfl, h.noOverflow⟩ hplain trivial
  simp only [netStep, hpc, Option.some.injEq] at hstep
  subst hstep
  split
  · rename_i x hr hx
    split
    · have hnet := hmove.net
      simp only [hr, hx] at hnet
      have hshift : Inv { s with net := .messages, rexmitSlice := some x, xmitSlice := none } :=
        ⟨h.ring, hnet.shift trivial, { hmove.ret with }, h.noOverflow⟩
      exact inv_sendReqack hshift trivial rfl
    · exact hmove
  · exact hmove

/-- A message is about to be handled. -/
theorem inv_messageArrived (h : Inv s) (hnet : s.net.Plain) (hincoming : s.incoming ≠ []) :
    Inv { s with net := .messageDone } := by
  obtain ⟨C, F, hin, hfree, hC⟩ := h.ret.counts
  rw [if_neg hnet.ne.2.2.2.2] at hC
  exact ⟨h.ring, h.net.move hnet.steady (n := .messageDone) trivial,
    ⟨⟨C, F, hin, hfree, by simpa using hC⟩, h.ret.freeSpace_open, fun _ => hincoming⟩, h.noOverflow⟩

/-- `handleNextMessage`. -/
theorem inv_messages (h : Inv s) (hpc : s.net = .messages) (hstep : netStep s = some s') :
    Inv s' := by
  have hplain : s.net.Plain := by rw [hpc]; trivial
  simp only [netStep, hpc, Option.some.injEq] at hstep
  subst hstep
  split
  · exact h.move ⟨rfl, rfl, rfl, rfl, rfl, rfl, rfl, h.noOverflow⟩ hplain trivial
  · rename_i clNo msg rest hincoming
    have hnext := inv_messageArrived h hplain (by simp [hincoming])
    obtain ⟨slices, db, heq, hring⟩ :=
      handleMessage_frame (s := { s with net := .messageDone }) clNo msg
    refine ⟨by rw [hring]; exact hnext.ring, ?_, ?_, ?_⟩
    · rw [hring, heq]
      exact hnext.net
    · rw [heq]
      exact { hnext.ret with }
    · rw [heq]
      exact h.noOverflow

/-- Taking a message that has been handled off its queue keeps the invariant. -/
theorem inv_messageDone (h : Inv s) (hpc : s.net = .messageDone) (hstep : netStep s = some s') :
    Inv s' := by
  simp only [netStep, hpc, Option.some.injEq] at hstep
  subst hstep
  obtain ⟨C, F, hin, hfree, hC⟩ := h.ret.counts
  have hne := List.length_pos_iff.mpr (h.ret.message hpc)
  have htail : s.incoming.tail.length = s.incoming.length - 1 := List.length_tail
  have hnet := h.net
  rw [hpc] at hnet hC
  refine ⟨h.ring, hnet.move (by trivial) (by trivial), ⟨⟨C + 1, F, ?_, ?_, ?_⟩,
    h.ret.freeSpace_open, by simp⟩, h.noOverflow⟩
  · dsimp only
    rw [htail, show C + 1 + (s.incoming.length - 1) = C + s.incoming.length by omega]
    exact hin.pcConsumed (by omega)
  · dsimp only
    rw [htail, show C + 1 + (s.incoming.length - 1) = C + s.incoming.length by omega]
    exact hfree
  · simpa using hC

/-- Giving its place back keeps the invariant. -/
theorem inv_messageFree (h : Inv s) (hpc : s.net = .messageFree) (hstep : netStep s = some s') :
    Inv s' := by
  obtain ⟨C, F, hin, hfree, hC⟩ := h.ret.counts
  have hnet := h.net
  rw [hpc] at hnet
  rw [hpc, if_pos rfl] at hC
  obtain ⟨q, hq, hholds, hend⟩ := hfree.pcProduce (n := 1) (by omega)
  simp only [netStep, hpc, hq, Option.some.injEq] at hstep
  subst hstep
  refine ⟨h.ring, hnet.move (by trivial) (by trivial), ⟨⟨C, F + 1, hin, ?_, by simpa using hC⟩,
    by simpa [hend] using h.ret.freeSpace_open, by simp⟩, h.noOverflow⟩
  rw [Nat.add_assoc] at hholds
  exact hholds

/-- Taking an encoded slice. -/
theorem inv_takeFec (h : Inv s) (hpc : s.net = .takeFec) (hstep : netStep s = some s') :
    Inv s' := by
  simp only [netStep, hpc, Option.map_eq_some_iff] at hstep
  obtain ⟨n, hn, rfl⟩ := hstep
  have hnet := h.net
  rw [hpc] at hnet
  have hfec := hnet.takeFec rfl
  have hpos : pcGetConsumerPosition s.fecDataPc = s.taken % 2 :=
    (h.ring.fecData hfec).consumerPosition_eq
  exact ⟨h.ring.takeFec hfec hn, hnet.take hpos, h.ret.move (by simp [hpc]) (by simp) (by simp) rfl rfl
    rfl rfl, h.noOverflow⟩

/-- Getting a new slice. -/
theorem inv_newSlice (h : Inv s) (hpc : s.net = .newSlice) (hstep : netStep s = some s') :
    Inv s' := by
  have hplain : s.net.Plain := by rw [hpc]; trivial
  simp only [netStep, hpc, Option.some.injEq] at hstep
  subst hstep
  split
  · rename_i hnew
    have hnet := h.net
    simp only [hnew.1] at hnet
    split
    · rename_i hfec
      refine ⟨h.ring, ?_, h.ret.move (by simp [hpc]) (by simp) (by simp) rfl rfl rfl rfl, h.noOverflow⟩
      have htaking := hnet.startTaking hplain hfec
      rw [← hnew.1] at htaking
      exact htaking
    · rename_i hfec
      have hfec' : s.ring.fec = false := Bool.eq_false_iff.mpr hfec
      have hidle := (h.net.cutter_notFec hfec').mpr hplain.ne.2.1
      have hmaking := hnet.startMaking hplain hfec'
      rw [← hnew.1] at hmaking
      exact ⟨h.ring.startCutter hidle, hmaking,
        h.ret.move (by simp [hpc]) (by simp) (by simp) rfl rfl rfl rfl, h.noOverflow⟩
  · exact h.move ⟨rfl, rfl, rfl, rfl, rfl, rfl, rfl, h.noOverflow⟩ hplain trivial

/-- A failure that is not an overflow keeps the invariant. -/
theorem inv_fail {f : Failure} (h : Inv s) (hnet : s.net.Plain) (hf : f ≠ .overflow) :
    Inv (s.fail f) :=
  h.move ⟨rfl, rfl, rfl, rfl, rfl, rfl, rfl, by simpa [State.fail] using hf⟩ hnet hnet

/-- New notes on a slice keep the invariant. -/
theorem inv_setSlice {slice : Slice} (h : Inv s) (hnet : s.net.Plain)
    (hcore : slice.core = (s.slices r).core) : Inv (s.setSlice r slice) :=
  h.move ⟨ring_setSlice_of_core hcore, rfl, rfl, rfl, rfl, rfl, rfl, h.noOverflow⟩ hnet hnet

/-- Sending blocks again keeps the invariant. -/
theorem inv_doRetransmissions (h : Inv s) (hnet : s.net.Plain) : Inv (doRetransmissions s r) := by
  unfold doRetransmissions
  dsimp only
  split
  · exact h
  · split
    · rename_i slice ms hsend
      have hsent : Inv { s with network := ms ++ s.network } :=
        h.move ⟨rfl, rfl, rfl, rfl, rfl, rfl, rfl, h.noOverflow⟩ hnet hnet
      exact inv_setSlice hsent hnet (by rw [sendSliceAgain_frame hsend]; rfl)
    · exact inv_fail h hnet (by simp)

/-- Sending the next block keeps the invariant. -/
theorem inv_sendingStep (h : Inv s) (hnet : s.net.Plain) (hx : s.xmitSlice = some x) :
    Inv (sendingStep s x i) := by
  unfold sendingStep
  dsimp only
  split
  · split
    · rename_i ms hsend
      have hsent : Inv { s with network := ms ++ s.network } :=
        h.move ⟨rfl, rfl, rfl, rfl, rfl, rfl, rfl, h.noOverflow⟩ hnet hnet
      split
      · exact h.move ⟨rfl, rfl, rfl, rfl, rfl, rfl, rfl, h.noOverflow⟩ hnet trivial
      · exact inv_finishSending hsent hnet hx
    · exact inv_fail h hnet (by simp)
  · exact inv_finishSending h hnet hx

/-- After a timeout: clients are dropped or a new round starts. -/
theorem inv_timeout (h : Inv s) (hpc : s.net = .timeout) (hstep : netStep s = some s') :
    Inv s' := by
  have hplain : s.net.Plain := by rw [hpc]; trivial
  simp only [netStep, hpc, Option.some.injEq] at hstep
  subst hstep
  split
  · rename_i r hr
    split
    · obtain ⟨db, exit⟩ := dropClients s.db (s.slices r)
      dsimp only
      split
      · exact inv_exitMainLoop (h.move ⟨rfl, rfl, rfl, rfl, rfl, rfl, rfl, h.noOverflow⟩ hplain trivial)
          trivial
      · exact h.move ⟨rfl, rfl, rfl, rfl, rfl, rfl, rfl, h.noOverflow⟩ hplain trivial
    · have hmove : Inv { s with net := .loopTest } :=
        h.move ⟨rfl, rfl, rfl, rfl, rfl, rfl, rfl, h.noOverflow⟩ hplain trivial
      exact inv_sendReqack (inv_setSlice hmove trivial rfl) trivial hr
  · exact inv_exitMainLoop h hplain

/-- A step of `netSenderMain` keeps the invariant. -/
theorem inv_netStep (h : Inv s) (hstep : netStep s = some s') :
    Inv s' := by
  have hsame : ∀ net, SameRing s { s with net := net } :=
    fun net => ⟨rfl, rfl, rfl, rfl, rfl, rfl, rfl, h.noOverflow⟩
  cases hpc : s.net with
  | freeLoop => exact inv_freeLoop h hpc hstep
  | cleanupFree => exact inv_cleanupFree h hpc hstep
  | shift => exact inv_shift h hpc hstep
  | messages => exact inv_messages h hpc hstep
  | making => simp [netStep, hpc] at hstep
  | exited => simp [netStep, hpc] at hstep
  | init =>
    have hplain : s.net.Plain := by rw [hpc]; trivial
    have hring := ring_config (s := s) (sameMode_initSliceSize s.config)
    obtain ⟨failure, rfl, hfailure⟩ := netStep_init hpc hstep
    refine h.move ⟨hring, rfl, rfl, rfl, rfl, rfl, rfl, ?_⟩ hplain trivial
    obtain ⟨hsame, -⟩ | hneg | hassert := hfailure
    · exact hsame ▸ h.noOverflow
    · simp [hneg]
    · simp [hassert]
  | cleanupAck =>
    have hplain : s.net.Plain := by rw [hpc]; trivial
    have hmove := h.move (hsame .cleanupFree) hplain trivial
    simp only [netStep, hpc, Option.some.injEq] at hstep
    subst hstep
    split
    · rename_i r hr
      split
      · exact inv_ackSlice hmove trivial hr
      · exact hmove
    · exact hmove
  | messageDone => exact inv_messageDone h hpc hstep
  | messageFree => exact inv_messageFree h hpc hstep
  | retransmit =>
    have hplain : s.net.Plain := by rw [hpc]; trivial
    simp only [netStep, hpc, Option.some.injEq] at hstep
    subst hstep
    split
    · split
      · exact inv_doRetransmissions (h.move (hsame .loopTest) hplain trivial) trivial
      · exact h.move (hsame _) hplain trivial
    · exact h.move (hsame _) hplain trivial
  | reqack =>
    have hplain : s.net.Plain := by rw [hpc]; trivial
    have hmove := h.move (hsame .newSlice) hplain trivial
    simp only [netStep, hpc, Option.some.injEq] at hstep
    subst hstep
    split
    · rename_i r hr
      split
      · exact inv_sendReqack (inv_setSlice hmove trivial rfl) trivial hr
      · exact hmove
    · exact hmove
  | newSlice => exact inv_newSlice h hpc hstep
  | takeFec => exact inv_takeFec h hpc hstep
  | checkEnd =>
    have hplain : s.net.Plain := by rw [hpc]; trivial
    simp only [netStep, hpc, Option.some.injEq] at hstep
    subst hstep
    split
    · exact h.move ⟨rfl, rfl, rfl, rfl, rfl, rfl, rfl, h.noOverflow⟩ hplain trivial
    · exact inv_fail h hplain (by simp)
  | send =>
    have hplain : s.net.Plain := by rw [hpc]; trivial
    simp only [netStep, hpc, Option.some.injEq] at hstep
    subst hstep
    split
    · split
      · exact h.move (hsame _) hplain trivial
      · exact h.move (hsame _) hplain trivial
    · exact h.move (hsame _) hplain trivial
  | sending i =>
    have hplain : s.net.Plain := by rw [hpc]; trivial
    simp only [netStep, hpc, Option.some.injEq] at hstep
    subst hstep
    split
    · rename_i x hx
      exact inv_sendingStep h hplain hx
    · exact inv_fail h hplain (by simp)
  | exitTest =>
    have hplain : s.net.Plain := by rw [hpc]; trivial
    simp only [netStep, hpc, Option.some.injEq] at hstep
    subst hstep
    split
    · exact inv_exitMainLoop h hplain
    · split
      · exact inv_exitMainLoop h hplain
      · split
        · exact inv_fail h hplain (by simp)
        · exact h.move (hsame _) hplain trivial
  | wait =>
    have hplain : s.net.Plain := by rw [hpc]; trivial
    simp only [netStep, hpc, Option.ite_none_left_eq_some, Option.some.injEq] at hstep
    obtain ⟨-, rfl⟩ := hstep
    exact h.move (hsame _) hplain trivial
  | timeout => exact inv_timeout h hpc hstep
  | loopTest =>
    have hplain : s.net.Plain := by rw [hpc]; trivial
    simp only [netStep, hpc, Option.some.injEq] at hstep
    subst hstep
    split
    · exact h.move (hsame _) hplain trivial
    · exact inv_exitMainLoop h hplain

end Net

section System

/-- What an arriving message changes. -/
theorem receiveStep_frame {clNo : ℕ} {msg : ClientMsg} (hstep : receiveStep s clNo msg = some s') :
    s' = { s with freeSpace := s'.freeSpace, returnChannel := s'.returnChannel } := by
  cases hpc : s.returnChannel with
  | produce _ _ => simp [receiveStep, hpc] at hstep
  | receive =>
    simp only [receiveStep, hpc, Option.ite_none_right_eq_some, Option.map_eq_some_iff] at hstep
    obtain ⟨-, n, -, rfl⟩ := hstep
    rfl

/-- What making a message available changes. -/
theorem announceStep_frame (hstep : announceStep s = some s') :
    s' = { s with
      incoming := s'.incoming, incomingPc := s'.incomingPc, returnChannel := s'.returnChannel
      failure := s'.failure } ∧ (s'.failure = s.failure ∨ s'.failure = some .overflow) := by
  cases hpc : s.returnChannel with
  | receive => simp [announceStep, hpc] at hstep
  | produce clNo msg =>
    simp only [announceStep, hpc, Option.some.injEq] at hstep
    split at hstep
    · subst hstep
      exact ⟨rfl, .inl rfl⟩
    · subst hstep
      exact ⟨rfl, .inr rfl⟩

/-- The arrival of a message keeps the invariant. -/
theorem inv_receiveStep {clNo : ℕ} {msg : ClientMsg} (h : Inv s)
    (hstep : receiveStep s clNo msg = some s') : Inv s' := by
  have hring := h.ring
  have hnet := h.net
  obtain ⟨C, F, hin, hfree, hC⟩ := h.ret.counts
  cases hpc : s.returnChannel with
  | produce _ _ => simp [receiveStep, hpc] at hstep
  | receive =>
    simp only [receiveStep, hpc, Option.ite_none_right_eq_some, Option.map_eq_some_iff] at hstep
    obtain ⟨-, n, hn, rfl⟩ := hstep
    rw [hpc] at hfree
    rw [hfree.pcConsume_eq, h.ret.freeSpace_open] at hn
    obtain ⟨hwaiting, -⟩ := Option.ite_none_right_eq_some.mp hn
    simp only [Bool.false_eq_true, or_false, ReturnPc.pending] at hwaiting
    exact ⟨hring, { hnet with },
      ⟨⟨C, F, hin, hfree.pcConsumed (by simp only [ReturnPc.pending]; omega), hC⟩,
        h.ret.freeSpace_open, h.ret.message⟩, h.noOverflow⟩

/-- The return channel keeps the invariant when it announces a message. -/
theorem inv_announceStep (h : Inv s) (hstep : announceStep s = some s') : Inv s' := by
  have hring := h.ring
  have hnet := h.net
  obtain ⟨C, F, hin, hfree, hC⟩ := h.ret.counts
  cases hpc : s.returnChannel with
  | receive => simp [announceStep, hpc] at hstep
  | produce clNo msg =>
    rw [hpc] at hfree
    have hroom := hfree.consumed_le
    simp only [ReturnPc.pending] at hroom hfree
    obtain ⟨q, hq, hholds, -⟩ := hin.pcProduce (n := 1) (by omega)
    simp only [announceStep, hpc, hq, Option.some.injEq] at hstep
    subst hstep
    refine ⟨hring, { hnet with }, ⟨⟨C, F, ?_, ?_, hC⟩, h.ret.freeSpace_open,
      fun hdone => by simp⟩, h.noOverflow⟩
    · simpa only [List.length_append, List.length_singleton, ← Nat.add_assoc] using hholds
    · simpa only [List.length_append, List.length_singleton, ← Nat.add_assoc, ReturnPc.pending,
        Nat.add_zero] using hfree

/-- Every step keeps the invariant. -/
theorem inv_act {a : Action} (h : Inv s) (hact : act s a = some s') : Inv s' := by
  simp only [act, Option.ite_none_right_eq_some] at hact
  obtain ⟨hfail, hact⟩ := hact
  cases a with
  | reader n => exact inv_readerStep h hfail hact
  | cutter => exact inv_cutterStep h hfail hact
  | net => exact inv_netStep h hact
  | timeout =>
    obtain ⟨⟨hwait, -⟩, hs⟩ := Option.ite_none_right_eq_some.mp hact
    obtain rfl := Option.some.inj hs
    exact h.move ⟨rfl, rfl, rfl, rfl, rfl, rfl, rfl, h.noOverflow⟩ (by rw [hwait]; trivial) trivial
  | receive clNo msg => exact inv_receiveStep h hact
  | announce => exact inv_announceStep h hact

/-- The invariant holds in the beginning. -/
theorem inv_start {config : NetConfig} {db : ParticipantsDb} {input : ℕ → Gf} {inputSize : ℕ}
    {mem : ℕ → Gf} {fecData : ℕ → ℕ → Fec.Block} (hconfig : ValidConfig config)
    (hstart : start config db input inputSize mem fecData = some s) : Inv s := by
  have hpos := hconfig.blockSize_pos
  have hlt := hconfig.blockSize_lt
  have hempty : (pcMakeProduconsum (config.blockSize * 4096)).Holds (config.blockSize * 4096) 0 0 :=
    holds_make (by omega) hlt
  have hslots : (pcMakeProduconsum 2).Holds 2 0 0 := holds_make (by omega) (by omega)
  have hqueue : (pcMakeProduconsum 256).Holds 256 0 0 := holds_make (by omega) (by omega)
  obtain ⟨mem, hmem, hfull, -⟩ := hempty.pcProduce (n := config.blockSize * 4096) (by omega)
  obtain ⟨free, hfree, htwo, hopen⟩ := hslots.pcProduce (n := 2) (by omega)
  obtain ⟨space, hspace, hroom, hopen'⟩ := hqueue.pcProduce (n := 256) (by omega)
  simp only [start, hmem, hfree, hspace, Option.bind_some, Option.map_some, Option.some.injEq]
    at hstart
  subst hstart
  have hpc : ∀ pc : CutterPc, (if config.fec then CutterPc.consumeSlot else .idle) = pc →
      pc.making = 0 ∧ pc.encoding = 0 ∧ pc.numbered = 0 := by
    rintro pc rfl
    split <;> exact ⟨rfl, rfl, rfl⟩
  obtain ⟨hmaking, hencoding, hnumbered⟩ := hpc _ rfl
  refine ⟨?_, ?_, ⟨⟨0, 0, hqueue, hroom, rfl⟩, hopen', by simp⟩, by simp⟩
  · exact {
      blockSize_pos := hpos
      size_eq := rfl
      freed_le := le_rfl
      acked_le := le_rfl
      taken_le := by simp only [State.ring, hencoding]; omega
      allocated_eq := by simp only [State.ring, hmaking, List.length_nil]
      encoded_eq := fun _ => by simp only [State.ring, hencoding, List.length_nil]
      freeMem := by simpa [State.ring, RingView.ackedBytes, startOf] using hfull
      data := hempty
      freeSlices := htwo
      freeSlices_open := hopen
      fecData := fun _ => hslots
      fecData_open := rfl
      notFec := fun _ => rfl
      sliceNo := by simp only [State.ring, hnumbered, List.length_nil]
      slots := fun j _ _ => ⟨fun _ => rfl, fun hj => absurd hj (by simp [State.ring]),
        fun hj => absurd hj (by simp [State.ring]), fun hj => absurd hj (by simp [State.ring]),
        fun hj => absurd hj (by simp [State.ring]), fun _ hj => absurd hj (by simp [State.ring]),
        fun _ hj => absurd hj (by simp [State.ring])⟩
      aligned := fun j hj => absurd hj (by simp [State.ring])
      aligned_cut := .inl (by simp [State.ring])
      inputPos_le := Nat.zero_le _
      ended := fun hend => by simp [State.ring, pcMakeProduconsum] at hend
      content := fun p _ hp => absurd hp (by simp [State.ring])
      reader := ⟨rfl, rfl⟩
      cutter := by
        unfold RingView.CutterInv
        cases hfec : config.fec <;> simp [State.ring, hfec] }
  · exact {
      xmit_eq := by simp
      rexmit_eq := by simp
      taken_eq := fun _ => rfl
      acked_le := fun _ => Nat.zero_le _
      freeing := by simp
      preFree := fun k _ hpre => by simp [State.ring, Slice.core, Slice.zero] at hpre
      making := by simp
      takeFec := by simp
      cutter_notFec := fun hf => by simp only [State.ring] at hf ⊢; simp [hf]
      cutter_fec := fun hf => by simp only [State.ring] at hf ⊢; simp [hf] }

/-- The invariant holds in every reachable state. -/
theorem inv_reachable (h : system.Reachable s) : Inv s := by
  refine h.invariant ?_ ?_
  · rintro s ⟨config, db, input, inputSize, mem, fecData, hconfig, -, hstart⟩
    exact inv_start hconfig hstart
  · rintro s s' hs ⟨a, hact⟩
    exact inv_act hs hact

end System

end Udpcast.Sender
