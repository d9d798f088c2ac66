import Udpcast.Sender.SliceSize
import Udpcast.Sender.Retransmission

/-!
# What the sender says

Without FEC, every message that the sender has ever sent is right about its input, in every
interleaving of its threads: it names a slice that has been cut and gives its size, and a data block
carries the bytes of the input that belong there. The slices are cut as a receiver needs them, and
only the last one is empty.
-/

namespace Udpcast.Sender

open Fec (Gf)
open Queue
open Protocol

/-- The message is right about a slice that has been cut, and is not a FEC block. -/
def State.Says (s : State) : ServerMsg → Prop
  | .data sliceNo blockNo bytes payload =>
    sliceNo < s.cuts.length ∧ bytes = s.cuts.getD sliceNo 0 ∧ blockNo * s.config.blockSize < bytes ∧
      payload = (List.range (min s.config.blockSize (bytes - blockNo * s.config.blockSize))).map
        fun x => s.input (startOf s.cuts sliceNo + blockNo * s.config.blockSize + x)
  | .fec .. => False
  | .reqack sliceNo bytes _ _ => sliceNo < s.cuts.length ∧ bytes = s.cuts.getD sliceNo 0
  | .hello => True

variable {s s' : State} {msg : ServerMsg} {ms : List ServerMsg} {slice slice' : Slice}
  {config : NetConfig} {i j r x : ℕ}

/-- The slices that are cut later change nothing about a message. -/
theorem State.Says.mono (h : s.Says msg) (hcuts : s.cuts <+: s'.cuts) (hinput : s'.input = s.input)
    (hblockSize : s'.config.blockSize = s.config.blockSize) : s'.Says msg := by
  obtain ⟨later, hlater⟩ := hcuts
  have hget : ∀ n < s.cuts.length, s'.cuts.getD n 0 = s.cuts.getD n 0 := by
    intro n hn
    rw [← hlater, List.getD_append _ _ _ _ hn]
  have hlength : s.cuts.length ≤ s'.cuts.length := by
    rw [← hlater, List.length_append]
    exact Nat.le_add_right _ _
  cases msg with
  | data n b bytes payload =>
    obtain ⟨hn, hbytes, hb, hpayload⟩ := h
    have hstart : startOf s'.cuts n = startOf s.cuts n := by
      rw [← hlater, startOf, startOf, List.take_append_of_le_length hn.le]
    refine ⟨hn.trans_le hlength, hbytes.trans (hget n hn).symm, by rw [hblockSize]; exact hb, ?_⟩
    rw [hblockSize, hinput, hstart]
    exact hpayload
  | fec => exact h
  | reqack n bytes rxmitId readySet =>
    obtain ⟨hn, hbytes⟩ := h
    exact ⟨hn.trans_le hlength, hbytes.trans (hget n hn).symm⟩
  | hello => trivial

/-! ## Blocks -/

/-- Slice `j`, which has not been acknowledged. -/
structure Current (s : State) (slice : Slice) (j : ℕ) : Prop where
  acked_le : s.acked ≤ j
  cut : j < s.cuts.length
  sliceNo : slice.sliceNo = j
  bytes : slice.bytes = s.cuts.getD j 0
  base : slice.base = startOf s.cuts j % s.dataBufSize

/-- A data block of a slice that is not acknowledged says what the input has there. -/
theorem says_transmitBlock (h : Inv s) (hslice : Current s slice j)
    (hi : i < blockCount s.config (s.cuts.getD j 0)) (hsend : transmitBlock s slice i = some ms) :
    ∀ m ∈ ms, s.Says m := by
  have hcount : getSliceBlocks slice s.config = blockCount s.config (s.cuts.getD j 0) := by
    rw [getSliceBlocks, hslice.bytes]
    rfl
  have hpos : 0 < s.config.blockSize := h.ring.blockSize_pos
  have hinside : i * s.config.blockSize < s.cuts.getD j 0 := by
    have hle := (Nat.le_div_iff_mul_le hpos).mp (Nat.succ_le_of_lt hi)
    rw [Nat.succ_mul] at hle
    omega
  simp only [transmitBlock, hcount, if_pos hi] at hsend
  obtain ⟨data, hdata, rfl⟩ := Option.map_eq_some_iff.mp hsend
  obtain ⟨-, hdata⟩ := Option.ite_none_right_eq_some.mp hdata
  obtain rfl := Option.some.inj hdata
  intro m hm
  rcases List.mem_cons.mp hm with rfl | hm
  · have hpayload := payloadAt_eq (i := i) h hslice.acked_le hslice.cut hslice.base rfl
    dsimp only [State.Says]
    rw [hslice.sliceNo, hslice.bytes]
    exact ⟨hslice.cut, rfl, hinside, hpayload⟩
  · split at hm
    · rw [List.mem_singleton.mp hm]
      trivial
    · cases hm

/-- So does a block that is sent again. -/
theorem says_sendSliceAgain (h : Inv s) (hslice : slice.state = .xmitted → Current s slice j)
    (hsend : sendSliceAgain s slice = some (slice', ms)) : ∀ m ∈ ms, s.Says m := by
  have hloop : ∀ (l : List ℕ) (st st' : Slice × List ServerMsg),
      (∀ k ∈ l, k < blockCount s.config (s.cuts.getD j 0)) → Current s st.1 j →
      (∀ m ∈ st.2, s.Says m) → l.foldlM (fun st k => retransmitBlock s k st) st = some st' →
        ∀ m ∈ st'.2, s.Says m := by
    intro l
    induction l with
    | nil =>
      intro st st' _ _ hsent hst
      obtain rfl : st = st' := Option.some.inj hst
      exact hsent
    | cons k l ih =>
      rintro ⟨current, sent⟩ st' hl hcurrent hsent hst
      rw [List.foldlM_cons] at hst
      obtain ⟨mid, hmid, hrest⟩ := Option.bind_eq_some_iff.mp hst
      have hl' : ∀ k ∈ l, k < blockCount s.config (s.cuts.getD j 0) :=
        fun k hk => hl k (List.mem_cons_of_mem _ hk)
      simp only [retransmitBlock] at hmid
      split at hmid
      · obtain rfl := Option.some.inj hmid
        refine ih _ _ hl' ?_ ?_ hrest
        · exact { hcurrent with }
        · exact hsent
      · obtain ⟨block, hblock, rfl⟩ := Option.map_eq_some_iff.mp hmid
        refine ih _ _ hl' ?_ ?_ hrest
        · exact { hcurrent with }
        · intro m hm
          rcases List.mem_append.mp hm with hm | hm
          · exact says_transmitBlock h { hcurrent with } (hl k List.mem_cons_self) hblock m hm
          · exact hsent m hm
  unfold sendSliceAgain at hsend
  split at hsend
  · obtain ⟨-, rfl⟩ := Prod.mk.inj (Option.some.inj hsend)
    simp
  · rename_i hstate
    have hslice := hslice (of_not_not hstate)
    obtain ⟨st, hst, heq⟩ := Option.map_eq_some_iff.mp hsend
    obtain ⟨-, rfl⟩ := Prod.mk.inj heq
    refine hloop _ _ st (fun k hk => ?_) hslice (by simp) hst
    have hk : k < getSliceBlocks slice s.config := List.mem_range.mp hk
    rw [getSliceBlocks, hslice.bytes] at hk
    exact hk

/-! ## Steps of `netSenderMain` -/

/-- The step says nothing wrong and leaves the end of the input to `checkEnd`. -/
structure GoesOn (s s' : State) : Prop where
  network : ∃ ms, s'.network = ms ++ s.network ∧ ∀ m ∈ ms, s.Says m
  atEnd : s'.atEnd = s.atEnd
  net : s'.net ≠ .checkEnd
  making : s'.net = .making → s.atEnd = false

/-- The step says nothing at all. -/
theorem goesOn_silent (hnetwork : s'.network = s.network) (hend : s'.atEnd = s.atEnd)
    (hnet : s'.net ≠ .checkEnd) (hmaking : s'.net ≠ .making) : GoesOn s s' :=
  ⟨⟨[], hnetwork, by simp⟩, hend, hnet, fun hm => absurd hm hmaking⟩

/-- An acknowledgement sends nothing. -/
theorem ackSlice_silent (r : ℕ) : (ackSlice s r).network = s.network ∧
    (ackSlice s r).atEnd = s.atEnd ∧ (ackSlice s r).net = s.net := by
  unfold ackSlice
  dsimp only
  split
  · exact ⟨rfl, rfl, rfl⟩
  · split <;> exact ⟨rfl, rfl, rfl⟩

/-- After an acknowledgement the sender goes on. -/
theorem goesOn_ackSlice (hnetwork : s'.network = s.network) (hend : s'.atEnd = s.atEnd)
    (hnet : s'.net ≠ .checkEnd) (hmaking : s'.net ≠ .making) : GoesOn s (ackSlice s' r) := by
  obtain ⟨hnetwork', hend', hnet'⟩ := ackSlice_silent (s := s') r
  exact goesOn_silent (hnetwork'.trans hnetwork) (hend'.trans hend) (by rw [hnet']; exact hnet)
    (by rw [hnet']; exact hmaking)

/-- A REQACK names a slice that has been cut, with its size. -/
theorem goesOn_sendReqack (hnetwork : s'.network = s.network) (hend : s'.atEnd = s.atEnd)
    (hnet : s'.net ≠ .checkEnd) (hmaking : s'.net ≠ .making)
    (hcut : (s'.slices r).sliceNo < s.cuts.length)
    (hbytes : (s'.slices r).bytes = s.cuts.getD (s'.slices r).sliceNo 0) :
    GoesOn s (sendReqack s' r) := by
  unfold sendReqack
  dsimp only
  split
  · exact goesOn_ackSlice hnetwork hend hnet hmaking
  · split
    · exact goesOn_silent hnetwork hend hnet hmaking
    · refine ⟨⟨[_], congrArg _ hnetwork, fun m hm => ?_⟩, hend, hnet,
        fun hm => absurd hm hmaking⟩
      rw [List.mem_singleton.mp hm]
      exact ⟨hcut, hbytes⟩

/-- The slice in the slot for retransmissions has been cut. -/
theorem Inv.rexmit_cut (h : Inv s) (hnet : s.net ≠ .freeLoop) (hr : s.rexmitSlice = some r) :
    (s.slices r).sliceNo < s.cuts.length ∧
      (s.slices r).bytes = s.cuts.getD (s.slices r).sliceNo 0 := by
  have hrexmit : r = s.freed % 2 := h.net.rexmit_eq hnet r hr
  have htaken : s.taken = s.freed + slotCount s.rexmitSlice + slotCount s.xmitSlice :=
    h.net.taken_eq hnet
  have hcount : slotCount s.rexmitSlice = 1 := by rw [hr]; rfl
  have hlength : s.taken ≤ s.cuts.length := le_of_add_le_left h.ring.taken_le
  have hcut : s.freed < s.cuts.length := by omega
  have hholds := h.ring.slots s.freed le_rfl (show s.freed < s.freed + 2 by omega)
  rw [← hrexmit] at hholds
  have hno : (s.slices r).sliceNo = s.freed := hholds.sliceNo_eq hcut
  have hbytes : (s.slices r).bytes = s.cuts.getD s.freed 0 := hholds.bytes_eq hcut
  rw [hno]
  exact ⟨hcut, hbytes⟩

/-- The slice that is being sent is the last one taken. -/
theorem Inv.xmit_current (h : Inv s) (hx : s.xmitSlice = some x) :
    Current s (s.slices x) (s.taken - 1) := by
  have hlength : s.taken ≤ s.cuts.length := le_of_add_le_left h.ring.taken_le
  obtain ⟨j, hj, hacked, hholds⟩ := h.xmit_holds hx
  have hcut : j < s.cuts.length := by omega
  rw [hj, Nat.add_sub_cancel]
  exact ⟨hacked, hcut, hholds.sliceNo_eq hcut, hholds.bytes_eq hcut, hholds.base_eq hcut⟩

/-- Sending the next block says nothing wrong. -/
theorem goesOn_sendingStep (hinv : Inv s) (hfec : s.config.fec = false) (hpc : s.net = .sending i)
    (hx : s.xmitSlice = some x) : GoesOn s (sendingStep s x i) := by
  have hcurrent := hinv.xmit_current hx
  unfold sendingStep
  dsimp only
  split
  · rename_i hi
    have hi : i < blockCount s.config (s.cuts.getD (s.taken - 1) 0) := by
      rw [fecBlocks, if_neg (by simp [hfec]), getSliceBlocks, hcurrent.bytes, add_zero] at hi
      exact Nat.cast_lt.mp hi
    split
    · rename_i block hsend
      have hright := says_transmitBlock hinv hcurrent hi hsend
      split
      · exact ⟨⟨block, rfl, hright⟩, rfl, by simp, by simp⟩
      · exact ⟨⟨block, rfl, hright⟩, rfl, by simp [finishSending, State.setSlice],
          by simp [finishSending, State.setSlice]⟩
    · exact goesOn_silent rfl rfl (by simp [State.fail, hpc]) (by simp [State.fail, hpc])
  · exact goesOn_silent rfl rfl (by simp [finishSending, State.setSlice])
      (by simp [finishSending, State.setSlice])

/-- A round of retransmissions says nothing wrong. -/
theorem goesOn_doRetransmissions (hinv : Inv s) (hnet : s.net ≠ .freeLoop)
    (hr : s.rexmitSlice = some r) : GoesOn s (doRetransmissions { s with net := .loopTest } r) := by
  unfold doRetransmissions
  dsimp only
  split
  · exact goesOn_silent rfl rfl (by simp) (by simp)
  · split
    · rename_i slice ms hsend
      have hsend : sendSliceAgain s (s.slices r) = some (slice, ms) := hsend
      have hright := says_sendSliceAgain (j := s.freed) hinv (fun hstate => by
        obtain ⟨hno, -, hacked, hholds⟩ := hinv.rexmit_holds hnet hr hstate
        obtain ⟨hcut, -⟩ := hinv.rexmit_cut hnet hr
        rw [hno] at hcut
        exact ⟨hacked, hcut, hno, hholds.bytes_eq hcut, hholds.base_eq hcut⟩) hsend
      exact ⟨⟨ms, rfl, hright⟩, rfl, by simp [State.setSlice], by simp [State.setSlice]⟩
    · exact goesOn_silent rfl rfl (by simp [State.fail]) (by simp [State.fail])

/-- So no step but the test for the end does more than go on. -/
theorem netStep_goesOn (hinv : Inv s) (hfec : s.config.fec = false) (hcheck : s.net ≠ .checkEnd)
    (hstep : netStep s = some s') : GoesOn s s' := by
  cases hpc : s.net with
  | making | exited => simp [netStep, hpc] at hstep
  | checkEnd => exact absurd hpc hcheck
  | takeFec =>
    have hset : s.config.fec = true := hinv.net.takeFec hpc
    rw [hfec] at hset
    cases hset
  | wait =>
    simp only [netStep, hpc, Option.ite_none_left_eq_some, Option.some.injEq] at hstep
    obtain ⟨-, rfl⟩ := hstep
    exact goesOn_silent rfl rfl (by simp) (by simp)
  | init =>
    obtain ⟨failure, rfl, -⟩ := netStep_init hpc hstep
    exact goesOn_silent rfl rfl (by simp) (by simp)
  | cleanupFree | freeLoop | messageDone | messageFree | send | exitTest | loopTest =>
    simp only [netStep, hpc, Option.some.injEq] at hstep
    subst hstep
    repeat' split
    all_goals
      exact goesOn_silent rfl rfl (by simp [State.setSlice, State.fail, exitMainLoop, hpc])
        (by simp [State.setSlice, State.fail, exitMainLoop, hpc])
  | newSlice =>
    simp only [netStep, hpc, Option.some.injEq] at hstep
    subst hstep
    split
    · rename_i hnew
      split
      · exact goesOn_silent rfl rfl (by simp) (by simp)
      · exact ⟨⟨[], rfl, by simp⟩, rfl, by simp, fun _ => hnew.2.1⟩
    · exact goesOn_silent rfl rfl (by simp) (by simp)
  | cleanupAck =>
    simp only [netStep, hpc, Option.some.injEq] at hstep
    subst hstep
    split
    · split
      · exact goesOn_ackSlice rfl rfl (by simp) (by simp)
      · exact goesOn_silent rfl rfl (by simp) (by simp)
    · exact goesOn_silent rfl rfl (by simp) (by simp)
  | messages =>
    simp only [netStep, hpc, Option.some.injEq] at hstep
    subst hstep
    split
    · exact goesOn_silent rfl rfl (by simp) (by simp)
    · rename_i clNo msg _ _
      obtain ⟨slices, db, heq, -⟩ :=
        handleMessage_frame (s := { s with net := .messageDone }) clNo msg
      rw [heq]
      exact goesOn_silent rfl rfl (by simp) (by simp)
  | retransmit =>
    simp only [netStep, hpc, Option.some.injEq] at hstep
    subst hstep
    split
    · rename_i r hr
      split
      · exact goesOn_doRetransmissions hinv (by simp [hpc]) hr
      · exact goesOn_silent rfl rfl (by simp) (by simp)
    · exact goesOn_silent rfl rfl (by simp) (by simp)
  | sending i =>
    simp only [netStep, hpc, Option.some.injEq] at hstep
    subst hstep
    split
    · rename_i x hx
      exact goesOn_sendingStep hinv hfec hpc hx
    · exact goesOn_silent rfl rfl (by simp [State.fail, hpc]) (by simp [State.fail, hpc])
  | shift =>
    simp only [netStep, hpc, Option.some.injEq] at hstep
    subst hstep
    split
    · rename_i x hr hx
      have hcurrent := hinv.xmit_current hx
      split
      · refine goesOn_sendReqack rfl rfl (by simp) (by simp) ?_ ?_
        · exact hcurrent.sliceNo ▸ hcurrent.cut
        · exact hcurrent.bytes.trans (by rw [hcurrent.sliceNo])
      · exact goesOn_silent rfl rfl (by simp) (by simp)
    · exact goesOn_silent rfl rfl (by simp) (by simp)
  | reqack =>
    simp only [netStep, hpc, Option.some.injEq] at hstep
    subst hstep
    split
    · rename_i r hr
      obtain ⟨hcut, hbytes⟩ := hinv.rexmit_cut (by simp [hpc]) hr
      split
      · refine goesOn_sendReqack rfl rfl (by simp [State.setSlice]) (by simp [State.setSlice]) ?_ ?_
        · simpa [State.setSlice] using hcut
        · simpa [State.setSlice] using hbytes
      · exact goesOn_silent rfl rfl (by simp) (by simp)
    · exact goesOn_silent rfl rfl (by simp) (by simp)
  | timeout =>
    simp only [netStep, hpc, Option.some.injEq] at hstep
    subst hstep
    split
    · rename_i r hr
      obtain ⟨hcut, hbytes⟩ := hinv.rexmit_cut (by simp [hpc]) hr
      split
      · obtain ⟨db, exit⟩ := dropClients s.db (s.slices r)
        dsimp only
        split <;> exact goesOn_silent rfl rfl (by simp [exitMainLoop]) (by simp [exitMainLoop])
      · refine goesOn_sendReqack rfl rfl (by simp [State.setSlice]) (by simp [State.setSlice]) ?_ ?_
        · simpa [State.setSlice] using hcut
        · simpa [State.setSlice] using hbytes
    · exact goesOn_silent rfl rfl (by simp [exitMainLoop]) (by simp [exitMainLoop])

/-! ## Cuts -/

/-- Settings without FEC, with a greatest slice size that the command line accepts. -/
def Unencoded (config : NetConfig) : Prop :=
  config.fec = false ∧ 0 < config.maxSliceSize ∧ config.maxSliceSize ≤ Protocol.maxSliceSize

/-- Without FEC only the maximum matters. -/
theorem unencoded_sizesFrom (h : Unencoded config) : SizesFrom 1 config where
  maxSliceSize := by exact_mod_cast h.2.1
  stripes := by simp [h.1]
  default := by simp [h.1]
  product := by simp [h.1]

/-- Every command line without FEC leads to such settings. -/
theorem CommandSettings.unencoded {c : Settings} {discovery : Discovery} {bigEndian : Bool}
    (hc : CommandSettings c) (hfec : c.fec = false) : Unencoded (c.netConfig discovery bigEndian) := by
  have hbounds := hc.bounds
  have hmin := hbounds.min_pos
  have hmax := hbounds.min_le
  have hle := hbounds.max_le
  refine ⟨hfec, ?_, ?_⟩
  · show 0 < c.maxSliceSize.toNat
    omega
  · show c.maxSliceSize.toNat ≤ 1024
    omega

/-- The sender has cut its input as a receiver needs it, and what it has said is right. -/
structure Conforming (s : State) : Prop where
  sliceSize : s.net ≠ .init → 0 < s.config.sliceSize ∧ s.config.sliceSize ≤ Protocol.maxSliceSize
  bytes : ∀ k, CutFits s.config.blockSize (s.slices k).bytes Protocol.maxSliceSize
  cuts : ∀ bytes ∈ s.cuts, CutFits s.config.blockSize bytes Protocol.maxSliceSize
  /-- Only the last slice can be empty, -/
  going : ∀ k, k + 1 < s.cuts.length → s.cuts.getD k 0 ≠ 0
  /-- and is found to be so at once. -/
  last : s.atEnd = false → s.net ≠ .checkEnd → ∀ k < s.cuts.length, s.cuts.getD k 0 ≠ 0
  making : s.net = .making → s.atEnd = false
  pending : ∀ i, s.cutter = .consumedData i → (s.slices i).bytes = 0 → s.cuts.sum = s.inputSize
  /-- An empty slice is at the end of the input. -/
  ended : 0 ∈ s.cuts → s.cuts.sum = s.inputSize
  network : ∀ m ∈ s.network, s.Says m

/-- A step leaves a slice size that is neither 0 nor too large. -/
theorem ConfigStep.sliceSize (hinv : Inv s) (h : Conforming s) (hnet : s.net ≠ .init)
    (hconfig : Unencoded s.config) (hstep : ConfigStep s config) :
    0 < config.sliceSize ∧ config.sliceSize ≤ Protocol.maxSliceSize := by
  obtain ⟨hpos, hsize⟩ := h.sliceSize hnet
  obtain ⟨hfec, hmaxpos, hmax⟩ := hconfig
  cases hstep with
  | keep => exact ⟨hpos, hsize⟩
  | init hpc => exact absurd hpc hnet
  | grow =>
    refine ⟨(growSliceSize_pos hpos hmaxpos).1, ?_⟩
    unfold growSliceSize
    dsimp only
    split
    · split
      · exact hmax
      · dsimp only
        omega
    · exact hsize
  | @shrink r rxmitId hcall hsent =>
    have hblocks : getSliceBlocks { s.slices r with rxmitId := rxmitId } s.config ≤
        Protocol.maxSliceSize := getSliceBlocks_le hinv.ring.blockSize_pos (h.bytes r).2
    have hmost : 32 ≤ Protocol.maxSliceSize := by decide
    refine ⟨(shrinkSliceSize_pos hpos hmaxpos).1, ?_⟩
    dsimp only at hblocks
    unfold shrinkSliceSize
    dsimp only
    split
    · dsimp only
      split_ifs <;> omega
    · exact hsize

/-- So does a step of `netSenderMain`. -/
theorem netStep_sliceSize (hinv : Inv s) (h : Conforming s) (hconfig : Unencoded s.config)
    (hstep : netStep s = some s') :
    0 < s'.config.sliceSize ∧ s'.config.sliceSize ≤ Protocol.maxSliceSize := by
  have hchange := netStep_config hstep
  by_cases hnet : s.net = .init
  · have hmax := hchange.maxSliceSize hconfig.1
    have hchosen : s'.config = initSliceSize s.config := by
      obtain ⟨failure, rfl, -⟩ := netStep_init hnet hstep
      rfl
    have hle := initSliceSize_le s.config
    have hpos := (initSliceSize_pos (unencoded_sizesFrom hconfig)).1
    have hmost := hconfig.2.2
    rw [hchosen] at hmax ⊢
    omega
  · exact hchange.sliceSize hinv h hnet hconfig

/-- In `checkEnd` the last slice is looked at. -/
theorem conforming_checkEnd (hinv : Inv s) (h : Conforming s) (hfec : s.config.fec = false)
    (hpc : s.net = .checkEnd) (hstep : netStep s = some s') : Conforming s' := by
  have htaken : s.taken = s.cuts.length := hinv.ring.notFec hfec
  simp only [netStep, hpc, Option.some.injEq] at hstep
  subst hstep
  split
  · rename_i x hx
    have hcurrent := hinv.xmit_current hx
    exact { h with
      sliceSize := fun _ => h.sliceSize (by simp [hpc])
      last := fun hend _ k hk => by
        dsimp only at hend hk
        have hfull : s.cuts.getD (s.taken - 1) 0 ≠ 0 := by
          rw [← hcurrent.bytes]
          intro hzero
          rw [if_pos hzero] at hend
          cases hend
        by_cases hlast : k + 1 < s.cuts.length
        · exact h.going k hlast
        · have hk : k = s.taken - 1 := by omega
          exact hk ▸ hfull
      making := by simp }
  · exact { h with }

/-- A step of `netSenderMain` keeps to this. -/
theorem conforming_netStep (hinv : Inv s) (h : Conforming s) (hconfig : Unencoded s.config)
    (hstep : netStep s = some s') : Conforming s' := by
  by_cases hpc : s.net = .checkEnd
  · exact conforming_checkEnd hinv h hconfig.1 hpc hstep
  have hgoes := netStep_goesOn hinv hconfig.1 hpc hstep
  have hmode := (netStep_config hstep).sameMode
  have hblockSize : s'.config.blockSize = s.config.blockSize := by rw [hmode]
  have henvironment := netStep_environment hstep
  simp only [State.environment, Prod.mk.injEq] at henvironment
  obtain ⟨-, -, -, hinput, hsize, -, -, -, -, hcuts⟩ := henvironment
  have hbytes : ∀ k, (s'.slices k).bytes = (s.slices k).bytes := by
    obtain hkeeps | ⟨-, -, rfl⟩ := netStep_keepsSizes hstep
    · exact hkeeps.bytes
    · exact fun _ => rfl
  obtain ⟨ms, hnetwork, hright⟩ := hgoes.network
  exact {
    sliceSize := fun _ => netStep_sliceSize hinv h hconfig hstep
    bytes := fun k => by
      rw [hblockSize, hbytes]
      exact h.bytes k
    cuts := by
      rw [hblockSize, hcuts]
      exact h.cuts
    going := by
      rw [hcuts]
      exact h.going
    last := by
      rw [hcuts, hgoes.atEnd]
      exact fun hend _ => h.last hend hpc
    making := fun hmaking => by
      rw [hgoes.atEnd]
      exact hgoes.making hmaking
    pending := fun i hi => by
      rw [hbytes, hcuts, hsize]
      obtain hkeeps | ⟨-, -, rfl⟩ := netStep_keepsSizes hstep
      · exact h.pending i (hkeeps.cutter.symm.trans hi)
      · cases hi
    ended := by
      rw [hcuts, hsize]
      exact h.ended
    network := fun m hm => by
      rw [hnetwork] at hm
      refine State.Says.mono ?_ (hcuts ▸ List.prefix_refl _) hinput hblockSize
      rcases List.mem_append.mp hm with hm | hm
      · exact hright m hm
      · exact h.network m hm }

/-- A step of the cutter that cuts nothing. -/
theorem Conforming.fill (h : Conforming s) (hconfig : s'.config = s.config) (hnet : s'.net = s.net)
    (hcuts : s'.cuts = s.cuts) (hend : s'.atEnd = s.atEnd) (hnetwork : s'.network = s.network)
    (hinput : s'.input = s.input) (hsize : s'.inputSize = s.inputSize)
    (hbytes : ∀ k, CutFits s.config.blockSize (s'.slices k).bytes Protocol.maxSliceSize)
    (hpending : ∀ i, s'.cutter = .consumedData i → (s'.slices i).bytes = 0 →
      s.cuts.sum = s.inputSize) : Conforming s' where
  sliceSize := by
    rw [hconfig, hnet]
    exact h.sliceSize
  bytes := by
    rw [hconfig]
    exact hbytes
  cuts := by
    rw [hconfig, hcuts]
    exact h.cuts
  going := by
    rw [hcuts]
    exact h.going
  last := by
    rw [hcuts, hend, hnet]
    exact h.last
  making := by
    rw [hend, hnet]
    exact h.making
  pending := by
    rw [hcuts, hsize]
    exact hpending
  ended := by
    rw [hcuts, hsize]
    exact h.ended
  network := fun m hm => by
    rw [hnetwork] at hm
    exact (h.network m hm).mono (hcuts ▸ List.prefix_refl _) hinput (by rw [hconfig])

/-- A step of `makeSlice` cuts as a receiver needs it. -/
theorem conforming_cutterStep (hinv : Inv s) (h : Conforming s) (hfec : s.config.fec = false)
    (hstep : cutterStep s = some s') : Conforming s' := by
  have hmaking : s.cutter ≠ .idle → s.net = .making := by
    intro hidle
    by_contra hne
    exact hidle ((hinv.net.cutter_notFec hfec).mpr hne)
  have hset : ∀ (i bytes : ℕ) (slice : Slice), slice.bytes = bytes →
      CutFits s.config.blockSize bytes Protocol.maxSliceSize → ∀ k,
      CutFits s.config.blockSize (Function.update s.slices i slice k).bytes
        Protocol.maxSliceSize := by
    intro i bytes slice hslice hfits k
    rcases eq_or_ne k i with rfl | hne
    · rw [Function.update_self, hslice]
      exact hfits
    · rw [Function.update_of_ne hne]
      exact h.bytes k
  cases hpc : s.cutter with
  | idle => simp [cutterStep, hpc] at hstep
  | encode i =>
    have hcutter := hinv.ring.cutter
    simp only [RingView.CutterInv, State.ring, hpc] at hcutter
    rw [hfec] at hcutter
    cases hcutter.1
  | produceFec =>
    have hcutter := hinv.ring.cutter
    simp only [RingView.CutterInv, State.ring, hpc] at hcutter
    rw [hfec] at hcutter
    cases hcutter
  | consumeSlot =>
    simp only [cutterStep, hpc, Option.map_eq_some_iff] at hstep
    obtain ⟨n, -, rfl⟩ := hstep
    exact { h with pending := by simp }
  | consumedSlot =>
    simp only [cutterStep, hpc] at hstep
    split at hstep <;> obtain rfl := Option.some.inj hstep
    · exact h.fill rfl rfl rfl rfl rfl rfl rfl
        (hset _ 0 _ rfl ⟨.inl (dvd_zero _), Nat.zero_le _⟩) (by simp [State.setSlice])
    · exact { h with }
  | consumeData i =>
    obtain ⟨hpos, hsize⟩ := h.sliceSize (by rw [hmaking (by simp [hpc])]; simp)
    simp only [cutterStep, hpc, Option.map_eq_some_iff] at hstep
    obtain ⟨n, hn, rfl⟩ := hstep
    have hfits : CutFits s.config.blockSize (sliceBytes s.config n) s.config.sliceSize :=
      sliceBytes_fits
    obtain ⟨hwhole, hle⟩ := hfits
    refine h.fill rfl rfl rfl rfl rfl rfl rfl
      (hset _ _ _ rfl ⟨hwhole, hle.trans (Nat.mul_le_mul_left _ hsize)⟩) fun k hk hempty => ?_
    obtain rfl := CutterPc.consumedData.inj hk
    simp only [State.setSlice, Function.update_self] at hempty
    exact sum_eq_of_sliceBytes hinv (fun _ => hpos) (canTake_of_pcConsume hn) hempty
  | consumedData i =>
    have hnet := hmaking (by simp [hpc])
    have hfull := h.last (h.making hnet) (by simp [hnet])
    simp only [cutterStep, hpc, Option.some.injEq] at hstep
    rw [if_neg (by simp [State.setSlice, hfec])] at hstep
    subst hstep
    exact {
      sliceSize := fun _ => h.sliceSize (by simp [hnet])
      bytes := hset _ _ _ rfl (h.bytes i)
      cuts := fun bytes hmem => by
        rcases List.mem_append.mp hmem with hmem | hmem
        · exact h.cuts bytes hmem
        · rw [List.mem_singleton.mp hmem]
          exact h.bytes i
      going := fun k hk => by
        have hk : k + 1 < (s.cuts ++ [(s.slices i).bytes]).length := hk
        rw [List.length_append, List.length_singleton] at hk
        have hlt : k < s.cuts.length := by omega
        show (s.cuts ++ [(s.slices i).bytes]).getD k 0 ≠ 0
        rw [List.getD_append _ _ _ _ hlt]
        exact hfull k hlt
      last := fun _ hcheck => absurd rfl hcheck
      making := by simp [State.setSlice]
      pending := by simp [State.setSlice]
      ended := fun hmem => by
        show (s.cuts ++ [(s.slices i).bytes]).sum = s.inputSize
        rw [List.sum_append, List.sum_singleton]
        rcases List.mem_append.mp hmem with hmem | hmem
        · obtain ⟨k, hk, hzero⟩ := List.getElem_of_mem hmem
          exact absurd ((List.getD_eq_getElem _ _ hk).trans hzero) (hfull k hk)
        · have hzero := (List.mem_singleton.mp hmem).symm
          rw [h.pending i hpc hzero, hzero, Nat.add_zero]
      network := fun m hm => (h.network m hm).mono (List.prefix_append _ _) rfl rfl }

/-- Every step keeps to this. -/
theorem conforming_act {a : Action} (hinv : Inv s) (h : Conforming s) (hconfig : Unencoded s.config)
    (hact : act s a = some s') : Conforming s' := by
  simp only [act, Option.ite_none_right_eq_some] at hact
  obtain ⟨-, hact⟩ := hact
  cases a with
  | reader n =>
    rw [readerStep_frame hact]
    exact { h with }
  | cutter => exact conforming_cutterStep hinv h hconfig.1 hact
  | net => exact conforming_netStep hinv h hconfig hact
  | timeout =>
    obtain ⟨⟨hpc, -⟩, hs⟩ := Option.ite_none_right_eq_some.mp hact
    obtain rfl := Option.some.inj hs
    exact { h with
      sliceSize := fun _ => h.sliceSize (by simp [hpc])
      last := fun hend _ => h.last hend (by simp [hpc])
      making := by simp }
  | receive clNo msg =>
    rw [receiveStep_frame hact]
    exact { h with }
  | announce =>
    rw [(announceStep_frame hact).1]
    exact { h with }

/-- The settings have been without FEC from the beginning. -/
theorem ConfigStep.unencoded (hstep : ConfigStep s config) (h : Unencoded config) :
    Unencoded s.config := by
  have hfec : s.config.fec = false := hstep.sameMode.fec.symm.trans h.1
  rw [Unencoded, hstep.maxSliceSize hfec] at h
  exact ⟨hfec, h.2⟩

/-- Whatever the threads do, all that a sender without FEC has said is right. -/
theorem conforming_of_reachable (h : system.Reachable s) (hconfig : Unencoded s.config) :
    Conforming s := by
  have hwhole : Unencoded s.config → Conforming s := by
    refine h.invariant_of (P := fun s => Unencoded s.config → Conforming s)
      (fun s hs => inv_reachable hs) ?_ ?_
    · rintro s ⟨config, db, input, inputSize, mem, fecData, -, -, hstart⟩ -
      simp only [start, Option.bind_eq_some_iff, Option.map_eq_some_iff] at hstart
      obtain ⟨_, -, _, -, _, -, rfl⟩ := hstart
      exact {
        sliceSize := fun hnet => absurd rfl hnet
        bytes := fun _ => ⟨.inl (dvd_zero _), Nat.zero_le _⟩
        cuts := by simp
        going := by simp
        last := by simp
        making := by simp
        pending := by cases config.fec <;> simp
        ended := by simp
        network := by simp }
    · rintro s s' hinv h ⟨a, hact⟩ hconfig'
      have hconfig := (act_config hact).unencoded hconfig'
      exact conforming_act hinv (h hconfig) hconfig hact
  exact hwhole hconfig

end Udpcast.Sender
