import Udpcast.Sender.Accounting

/-!
# What has been sent and who is ready

For each slice that is not freed: how much of it has been sent, and which participants
are noted as ready. A participant that is noted as ready is in the table and counted
once, as long as clients are dropped for lateness only when they are not ahead.
-/

namespace Udpcast.Sender

open Fec (Gf)
open Queue
open Protocol

/-- Block `k` of the transmission of slice `j` has been sent: the data blocks come first,
then the FEC blocks, with the numbers that fit into their packets. An empty slice has FEC
blocks in async mode only. -/
def BlockSent (config : NetConfig) (network : List ServerMsg) (j bytes k : ℕ) : Prop :=
  let nrBlocks := (bytes + config.blockSize - 1) / config.blockSize
  if k < nrBlocks then ∃ payload, ServerMsg.data j k bytes payload ∈ network
  else bytes = 0 ∧ config.async = false ∨
    ∃ payload, ServerMsg.fec (htons config.fecStripes) j (htons (k - nrBlocks : ℕ)) bytes payload ∈
      network

/-- All blocks of slice `j` have been sent. -/
def Transmitted (config : NetConfig) (network : List ServerMsg) (j bytes : ℕ) : Prop :=
  ∀ k : ℕ, (k : ℤ) < ((bytes + config.blockSize - 1) / config.blockSize : ℕ) + fecBlocks config →
    BlockSent config network j bytes k

/-- The notes on slice `j`: `bytes` is its size, `current` the number of slices whose first
transmission is over, `taken` the number of those for which it has begun. -/
structure SlotProgress (config : NetConfig) (network : List ServerMsg) (used : Finset ℕ)
    (bytes current taken : ℕ) (slice : Slice) (j : ℕ) : Prop where
  ready_subset : slice.readySet ⊆ used
  nrReady_eq : slice.nrReady = slice.readySet.card
  fresh : taken ≤ j → slice.readySet = ∅ ∧ slice.nextBlock = 0
  sent : slice.state = .new → ∀ k < slice.nextBlock, BlockSent config network j bytes k
  done : j < current → slice.state ≠ .new
  transmitted : j < taken → slice.state ≠ .new → Transmitted config network j bytes

/-- The number of slices whose first transmission is over. -/
def State.current (s : State) : ℕ := s.taken - slotCount s.xmitSlice

structure Progress (s : State) : Prop where
  slots : ∀ j, s.freed ≤ j → j < s.allocated →
    SlotProgress s.config s.network s.db.used (s.cuts.getD j 0) s.current s.taken
      (s.slices (j % 2)) j
  freed : ∀ j < s.freed, Transmitted s.config s.network j (s.cuts.getD j 0)
  sending : ∀ i, s.net = .sending i → 0 < s.taken ∧ ∀ k < i,
    BlockSent s.config s.network (s.taken - 1) (s.cuts.getD (s.taken - 1) 0) k
  db : s.db.Valid
  acked : s.config.async = false → ∀ j < s.acked, s.db.used ⊆ s.ackedBy j

/-- The clients that a timeout is about to drop are not ahead with the slice that is being
transmitted. -/
def DropsNobodyAhead (s : State) : Prop :=
  s.net = .timeout → ∀ r x, s.rexmitSlice = some r → s.xmitSlice = some x →
    s.config.retriesUntilDrop < (s.slices r).rxmitId →
    (s.slices x).readySet ⊆ (s.slices r).readySet

variable {s s' : State}

instance : Decidable (DropsNobodyAhead s) :=
  decidable_of_iff (s.net = .timeout → ∀ r ∈ s.rexmitSlice, ∀ x ∈ s.xmitSlice,
    s.config.retriesUntilDrop < (s.slices r).rxmitId →
    (s.slices x).readySet ⊆ (s.slices r).readySet)
    ⟨fun h hn r x hr hx => h hn r hr x hx, fun h hn r hr x hx => h hn r x hr hx⟩

section Sent

variable {config config' : NetConfig} {network : List ServerMsg} {j bytes k : ℕ}

/-- A block that has been sent remains so. -/
theorem BlockSent.append (h : BlockSent config network j bytes k) (ms : List ServerMsg) :
    BlockSent config (ms ++ network) j bytes k := by
  unfold BlockSent at *
  dsimp only at *
  split
  · rename_i hk
    rw [if_pos hk] at h
    obtain ⟨payload, hmem⟩ := h
    exact ⟨payload, List.mem_append_right _ hmem⟩
  · rename_i hk
    rw [if_neg hk] at h
    rcases h with hempty | ⟨payload, hmem⟩
    · exact .inl hempty
    · exact .inr ⟨payload, List.mem_append_right _ hmem⟩

/-- A slice that has been transmitted remains so. -/
theorem Transmitted.append (h : Transmitted config network j bytes) (ms : List ServerMsg) :
    Transmitted config (ms ++ network) j bytes :=
  fun k hk => (h k hk).append ms

/-- Which blocks have been sent does not depend on the slice size. -/
theorem blockSent_of_sameMode (hsame : SameMode config config') :
    BlockSent config' network j bytes k ↔ BlockSent config network j bytes k := by
  rw [hsame]
  rfl

/-- Nor does which slices have been transmitted. -/
theorem transmitted_of_sameMode (hsame : SameMode config config') :
    Transmitted config' network j bytes ↔ Transmitted config network j bytes := by
  rw [hsame]
  rfl

/-- More messages keep the progress of a slice. -/
theorem SlotProgress.append {used : Finset ℕ} {current taken : ℕ} {slice : Slice}
    (h : SlotProgress config network used bytes current taken slice j) (ms : List ServerMsg) :
    SlotProgress config (ms ++ network) used bytes current taken slice j :=
  { h with
    sent := fun hnew k hk => (h.sent hnew k hk).append ms
    transmitted := fun hlt hnew => (h.transmitted hlt hnew).append ms }

/-- What one turn of the loop in `sendSlice` sends. -/
theorem blockSent_transmitBlock {slice : Slice} {ms : List ServerMsg}
    (hsend : transmitBlock s slice k = some ms) :
    BlockSent s.config (ms ++ network) slice.sliceNo slice.bytes k := by
  unfold transmitBlock at hsend
  unfold BlockSent
  dsimp only at hsend ⊢
  change (if k < getSliceBlocks slice s.config then _ else _) = _ at hsend
  change if k < getSliceBlocks slice s.config then _ else _
  split at hsend
  · rename_i hk
    rw [if_pos hk]
    obtain ⟨m, hm, rfl⟩ := Option.map_eq_some_iff.mp hsend
    unfold transmitDataBlock at hm
    dsimp only at hm
    obtain ⟨-, hm⟩ := Option.ite_none_right_eq_some.mp hm
    obtain rfl := Option.some.inj hm
    exact ⟨_, List.mem_append_left _ List.mem_cons_self⟩
  · rename_i hk
    rw [if_neg hk]
    obtain ⟨m, hm, rfl⟩ := Option.map_eq_some_iff.mp hsend
    unfold transmitFecBlock at hm
    split at hm
    · rename_i hempty
      exact .inl hempty
    · obtain ⟨-, hm⟩ := Option.ite_none_right_eq_some.mp hm
      obtain rfl := Option.some.inj hm
      exact .inr ⟨_, List.mem_append_left _ (List.mem_append_left _ (List.mem_singleton.mpr rfl))⟩

end Sent

section Frames

/-- Only what is known about the slots matters for a change of one slot. -/
theorem progress_setSlice {i : ℕ} {x : Slice} (h : Progress s)
    (hslot : ∀ j, s.freed ≤ j → j < s.allocated → j % 2 = i →
      SlotProgress s.config s.network s.db.used (s.cuts.getD j 0) s.current s.taken (s.slices i) j →
      SlotProgress s.config s.network s.db.used (s.cuts.getD j 0) s.current s.taken x j) :
    Progress (s.setSlice i x) :=
  { h with
    slots := by
      intro j hj hlt
      have hold := h.slots j hj hlt
      change SlotProgress _ _ _ _ _ _ (Function.update s.slices i x (j % 2)) j
      rcases eq_or_ne (j % 2) i with heq | hne
      · rw [heq, Function.update_self]
        rw [heq] at hold
        exact hslot j hj hlt heq hold
      · rw [Function.update_of_ne hne]
        exact hold }

/-- Another slice size keeps the progress. -/
theorem progress_config {config : NetConfig} (h : Progress s) (hsame : SameMode s.config config) :
    Progress { s with config := config } where
  slots := fun j hj hlt => by
    have hold := h.slots j hj hlt
    exact { hold with
      sent := fun hnew k hk => (blockSent_of_sameMode hsame).mpr (hold.sent hnew k hk)
      transmitted := fun hlt hnew =>
        (transmitted_of_sameMode hsame).mpr (hold.transmitted hlt hnew) }
  freed := fun j hj => (transmitted_of_sameMode hsame).mpr (h.freed j hj)
  sending := fun i hi => ⟨(h.sending i hi).1,
    fun k hk => (blockSent_of_sameMode hsame).mpr ((h.sending i hi).2 k hk)⟩
  db := h.db
  acked := fun ha => h.acked (by rw [hsame] at ha; exact ha)

/-- More messages keep it. -/
theorem progress_network (h : Progress s) (ms : List ServerMsg) :
    Progress { s with network := ms ++ s.network } where
  slots := fun j hj hlt => (h.slots j hj hlt).append ms
  freed := fun j hj => (h.freed j hj).append ms
  sending := fun i hi => ⟨(h.sending i hi).1, fun k hk => ((h.sending i hi).2 k hk).append ms⟩
  db := h.db
  acked := h.acked

/-- It does not depend on where the thread is, except within a slice. -/
theorem progress_net {net : NetPc} (h : Progress s) (hnet : ∀ i, net ≠ .sending i) :
    Progress { s with net := net } :=
  { h with sending := fun i hi => absurd hi (hnet i) }

/-- The reader keeps the progress. -/
theorem progress_readerStep {n : ℕ} (h : Progress s) (hstep : readerStep s n = some s') :
    Progress s' := by
  rw [readerStep_frame hstep]
  exact { h with }

end Frames

section Cutter

/-- A slice gets its size before it is filled. -/
theorem progress_takeData (h : Progress s) (i n : ℕ) : Progress (s.takeData i n) :=
  progress_setSlice (s := { s with sliceNo := s.sliceNo + 1, cutter := .consumedData i })
    { h with } fun _ _ _ _ hold => { hold with }

/-- `makeSlice` and the FEC thread keep it. -/
theorem progress_cutterStep (hinv : Inv s) (h : Progress s) (hstep : cutterStep s = some s') :
    Progress s' := by
  have hring := hinv.ring
  have htaken : s.taken ≤ s.cuts.length := le_of_add_le_left hring.taken_le
  have hfreed : s.freed ≤ s.taken := hring.freed_le.trans hring.acked_le
  cases hpc : s.cutter with
  | idle => simp [cutterStep, hpc] at hstep
  | consumeSlot =>
    simp only [cutterStep, hpc, Option.map_eq_some_iff] at hstep
    obtain ⟨n, -, rfl⟩ := hstep
    exact { h with }
  | consumedSlot =>
    have hpos : pcGetConsumerPosition s.freeSlicesPc = s.cuts.length % 2 := hring.slot_eq hpc
    have hfree : (s.slices (s.cuts.length % 2)).state = .free := hring.slot_free hpc
    have hallocated : s.allocated = s.cuts.length + s.cutter.making := hring.allocated_eq
    rw [hpc] at hallocated
    have hlength : s.cuts.length ≤ s.freed + 1 := by
      simpa only [RingView.CutterInv, State.ring, hpc] using hring.cutter
    simp only [cutterStep, hpc, hpos, hfree, if_true, Option.some.injEq] at hstep
    subst hstep
    exact { h with
      slots := by
        intro j hj hlt
        change s.freed ≤ j at hj
        change j < s.allocated + 1 at hlt
        change SlotProgress _ _ _ _ _ _ (Function.update s.slices (s.cuts.length % 2) _ (j % 2)) j
        have hmaking : CutterPc.consumedSlot.making = 0 := rfl
        rcases eq_or_ne j s.cuts.length with rfl | hne
        · rw [Function.update_self]
          exact ⟨Finset.empty_subset _, rfl, fun _ => ⟨rfl, rfl⟩, by simp [Slice.zero],
            by simp [Slice.zero], fun hlt' => absurd htaken (by simpa [State.setSlice] using hlt')⟩
        · rw [Function.update_of_ne (by omega)]
          exact h.slots j hj (by omega) }
  | consumeData i =>
    simp only [cutterStep, hpc, Option.map_eq_some_iff] at hstep
    obtain ⟨n, -, rfl⟩ := hstep
    exact progress_takeData h i n
  | consumedData i =>
    have hallocated : s.allocated = s.cuts.length + s.cutter.making := hring.allocated_eq
    rw [hpc] at hallocated
    have hmaking : (CutterPc.consumedData i).making = 1 := rfl
    have hle : s.allocated ≤ s.freed + 2 := by
      have hle : s.allocated ≤ 2 + s.freed := hring.freeSlices.consumed_le
      omega
    have hi : i = s.cuts.length % 2 := by
      have hcutter := hring.cutter
      simp only [RingView.CutterInv, State.ring, hpc] at hcutter
      exact hcutter.1
    have hgetD : ∀ j < s.cuts.length,
        (s.cuts ++ [(s.slices i).bytes]).getD j 0 = s.cuts.getD j 0 :=
      fun j hj => List.getD_append _ _ _ _ hj
    have hcurrent : s.current ≤ s.cuts.length := (Nat.sub_le _ _).trans htaken
    have hslots : ∀ taken, s.taken ≤ taken → (∀ j < s.cuts.length, j < taken → j < s.taken) →
        ∀ j, s.freed ≤ j → j < s.allocated → SlotProgress s.config s.network s.db.used
          ((s.cuts ++ [(s.slices i).bytes]).getD j 0) s.current taken
          (Function.update s.slices i { s.slices i with state := .new } (j % 2)) j := by
      intro taken hle' hlast j hj hlt
      have hold := h.slots j hj hlt
      rcases eq_or_ne j s.cuts.length with rfl | hne
      · rw [← hi] at hold ⊢
        rw [Function.update_self]
        have hfresh := hold.fresh htaken
        exact { hold with
          fresh := fun _ => hfresh
          sent := fun _ k hk => by
            rw [hfresh.2] at hk
            omega
          done := by omega
          transmitted := by simp }
      · rw [Function.update_of_ne (by omega), hgetD j (by omega)]
        exact { hold with
          fresh := fun hge => hold.fresh (by omega)
          transmitted := fun hlt' => hold.transmitted (hlast j (by omega) hlt') }
    have hfreed' : ∀ j < s.freed, Transmitted s.config s.network j
        ((s.cuts ++ [(s.slices i).bytes]).getD j 0) := fun j hj => by
      rw [hgetD j (by omega)]
      exact h.freed j hj
    simp only [cutterStep, hpc, Option.some.injEq] at hstep
    cases hfec : s.config.fec with
    | true =>
      rw [if_pos (by exact hfec)] at hstep
      subst hstep
      exact { h with
        slots := hslots s.taken le_rfl fun _ _ hlt => hlt
        freed := hfreed'
        sending := fun k hk => by
          obtain ⟨hpos, hsent⟩ := h.sending k hk
          refine ⟨hpos, ?_⟩
          change ∀ m < k, BlockSent _ _ (s.taken - 1) ((s.cuts ++ _).getD (s.taken - 1) 0) m
          rw [hgetD _ (by omega)]
          exact hsent }
    | false =>
      rw [if_neg (by simp [State.setSlice, hfec])] at hstep
      have hmaking : s.net = .making := by
        by_contra hne
        exact absurd ((hinv.net.cutter_notFec hfec).mpr hne) (by simp [State.ring, hpc])
      have hxmit := hinv.net.making (.inl hmaking)
      have hlength : s.taken = s.cuts.length := hring.notFec hfec
      have hsame : s.current = s.taken + 1 - slotCount (some i) := by
        rw [State.current, hxmit]
        rfl
      have hslots' := hslots (s.taken + 1) (Nat.le_succ _) fun j hj _ => by omega
      rw [hsame] at hslots'
      subst hstep
      exact { h with slots := hslots', freed := hfreed', sending := by simp }
  | encode i =>
    simp only [cutterStep, hpc, Option.some.injEq] at hstep
    subst hstep
    split
    · exact progress_setSlice
        (s := { s with dataBuffer := padLastBlock s (s.slices i), cutter := .produceFec })
        { h with } fun _ _ _ _ hold => { hold with }
    · exact { h with }
  | produceFec =>
    simp only [cutterStep, hpc, Option.some.injEq] at hstep
    subst hstep
    split
    · exact { h with }
    · exact { h with }

end Cutter

section Held

variable {i j r : ℕ}

/-- The slots that `netSenderMain` holds belong to slices that it has taken. -/
theorem Inv.held_lt (h : Inv s) (hnet : s.net.Steady)
    (hheld : s.xmitSlice = some i ∨ s.rexmitSlice = some i) (hj : s.freed ≤ j)
    (hlt : j < s.allocated) (hi : j % 2 = i) : j < s.taken := by
  have htaken : s.taken = s.freed + slotCount s.rexmitSlice + slotCount s.xmitSlice :=
    h.net.taken_eq hnet.ne.1
  have hle : s.allocated ≤ 2 + s.freed := h.ring.freeSlices.consumed_le
  rcases hheld with hx | hr
  · have hxmit : i = (s.taken + 1) % 2 := h.net.xmit_eq i hx
    have hcount : slotCount s.xmitSlice = 1 := by rw [hx]; rfl
    omega
  · have hrexmit : i = s.freed % 2 := h.net.rexmit_eq hnet.ne.1 i hr
    have hcount : slotCount s.rexmitSlice = 1 := by rw [hr]; rfl
    omega

/-- A slice that is taken and not freed is in one of the two slots. -/
theorem Inv.held_of_lt (h : Inv s) (hnet : s.net.Steady) (hj : s.freed ≤ j) (hlt : j < s.taken) :
    s.xmitSlice = some (j % 2) ∨ s.rexmitSlice = some (j % 2) := by
  have htaken : s.taken = s.freed + slotCount s.rexmitSlice + slotCount s.xmitSlice :=
    h.net.taken_eq hnet.ne.1
  cases hx : s.xmitSlice with
  | none =>
    have hxcount : slotCount s.xmitSlice = 0 := by rw [hx]; rfl
    cases hr : s.rexmitSlice with
    | none =>
      have hrcount : slotCount s.rexmitSlice = 0 := by rw [hr]; rfl
      omega
    | some r =>
      have hrexmit : r = s.freed % 2 := h.net.rexmit_eq hnet.ne.1 r hr
      have hrcount : slotCount s.rexmitSlice = 1 := by rw [hr]; rfl
      refine .inr (congrArg some ?_)
      omega
  | some x =>
    have hxmit : x = (s.taken + 1) % 2 := h.net.xmit_eq x hx
    have hxcount : slotCount s.xmitSlice = 1 := by rw [hx]; rfl
    cases hr : s.rexmitSlice with
    | none =>
      have hrcount : slotCount s.rexmitSlice = 0 := by rw [hr]; rfl
      refine .inl (congrArg some ?_)
      omega
    | some r =>
      have hrexmit : r = s.freed % 2 := h.net.rexmit_eq hnet.ne.1 r hr
      have hrcount : slotCount s.rexmitSlice = 1 := by rw [hr]; rfl
      rcases eq_or_ne j s.freed with rfl | hne
      · exact .inr (congrArg some (by omega))
      · exact .inl (congrArg some (by omega))

end Held

section Notes

variable {config : NetConfig} {network : List ServerMsg} {used : Finset ℕ}
variable {bytes current taken clNo j : ℕ} {slice : Slice}

/-- An OK of a participant keeps the progress of a slice that has been sent. -/
theorem SlotProgress.markOk
    (h : SlotProgress config network used bytes current taken slice j) (hcl : clNo ∈ used)
    (hj : j < taken) :
    SlotProgress config network used bytes current taken (markOk slice clNo) j := by
  unfold Sender.markOk
  split
  · exact h
  · rename_i hready
    have hcount : slice.nrReady + 1 = (insert clNo slice.readySet).card := by
      rw [Finset.card_insert_of_notMem hready, h.nrReady_eq]
      push_cast
      rfl
    unfold markParticipantAnswered
    split
    all_goals exact { h with
      ready_subset := Finset.insert_subset hcl h.ready_subset
      nrReady_eq := hcount
      fresh := by omega }

/-- A RETRANSMIT keeps it. -/
theorem SlotProgress.markRetransmit {map : ℕ → Bool} {rxmit : ℤ}
    (h : SlotProgress config network used bytes current taken slice j) :
    SlotProgress config network used bytes current taken (markRetransmit slice clNo map rxmit) j := by
  unfold Sender.markRetransmit markParticipantAnswered
  split
  · exact h
  · split <;> exact { h with }

/-- A participant that leaves keeps it. -/
theorem SlotProgress.forgetClient
    (h : SlotProgress config network used bytes current taken slice j) :
    SlotProgress config network (used.erase clNo) bytes current taken (forgetClient slice clNo) j := by
  have herase : slice.readySet.erase clNo ⊆ used.erase clNo := Finset.erase_subset_erase _ h.ready_subset
  unfold Sender.forgetClient
  dsimp only
  split
  · rename_i hready
    have hcount : slice.nrReady - 1 = (slice.readySet.erase clNo).card := by
      have hpos := Finset.card_pos.mpr ⟨clNo, hready⟩
      rw [Finset.card_erase_of_mem hready, h.nrReady_eq]
      omega
    split
    all_goals exact { h with
      ready_subset := herase
      nrReady_eq := hcount
      fresh := fun hge => ⟨by simp [(h.fresh hge).1], (h.fresh hge).2⟩ }
  · rename_i hready
    rw [Finset.erase_eq_of_notMem hready] at herase
    split
    all_goals exact { h with ready_subset := herase }

end Notes

section Participants

variable {db : ParticipantsDb} {slice : Slice} {clNo i : ℕ}

/-- Only clients that are not ready are dropped. -/
theorem dropClients_spec (h : db.Valid) (slice : Slice) :
    (dropClients db slice).1.Valid ∧ (dropClients db slice).1.used ⊆ db.used ∧
      (∀ i ∈ db.used, i ∈ slice.readySet → i ∈ (dropClients db slice).1.used) ∧
      ((dropClients db slice).2 = true → (dropClients db slice).1.nrParticipants = 0) := by
  unfold dropClients
  refine forLoop_induction (fun _ (st : ParticipantsDb × Bool) => st.1.Valid ∧ st.1.used ⊆ db.used ∧
      (∀ i ∈ db.used, i ∈ slice.readySet → i ∈ st.1.used) ∧
      (st.2 = true → st.1.nrParticipants = 0)) ⟨h, subset_rfl, fun i hi _ => hi, by simp⟩ ?_
  rintro i ⟨db', exit⟩ - ⟨hvalid, hsub, hready, hexit⟩
  unfold dropClient
  dsimp only at hexit ⊢
  split
  · rename_i hdrop
    refine ⟨hvalid.remove i, ?_, fun k hk hkready => ?_, by simp⟩
    · rw [remove_used]
      exact (Finset.erase_subset _ _).trans hsub
    · rw [remove_used]
      exact Finset.mem_erase.mpr ⟨by rintro rfl; exact hdrop.2.2 hkready, hready k hk hkready⟩
  · exact ⟨hvalid, hsub, hready, hexit⟩

end Participants

section Net

variable {r x i : ℕ}

/-- Changes of the table that leave the clients noted as ready in it. -/
theorem progress_db {db : ParticipantsDb} (h : Progress s) (hvalid : db.Valid)
    (hsub : db.used ⊆ s.db.used)
    (hready : ∀ j, s.freed ≤ j → j < s.allocated → (s.slices (j % 2)).readySet ⊆ db.used) :
    Progress { s with db := db } :=
  { h with
    slots := fun j hj hlt => { h.slots j hj hlt with ready_subset := hready j hj hlt }
    db := hvalid
    acked := fun ha j hj => hsub.trans (h.acked ha j hj) }

/-- `modifySlice` changes the slot that is named. -/
theorem modifySlice_slices (slot : Option ℕ) (f : Slice → Slice) (k : ℕ) :
    (s.modifySlice slot f).slices k = if slot = some k then f (s.slices k) else s.slices k := by
  cases slot with
  | none => rfl
  | some i =>
    simp only [State.modifySlice, State.setSlice, Option.some.injEq]
    rcases eq_or_ne i k with rfl | hne
    · rw [Function.update_self, if_pos rfl]
    · rw [Function.update_of_ne hne.symm, if_neg hne]

/-- It does not change the participants. -/
theorem modifySlice_db (slot : Option ℕ) (f : Slice → Slice) : (s.modifySlice slot f).db = s.db := by
  cases slot <;> rfl

/-- Notes that keep the progress of a slice in the pipe keep the progress. -/
theorem progress_modifySlice {slot : Option ℕ} {f : Slice → Slice} (hinv : Inv s) (h : Progress s)
    (hnet : s.net.Steady) (hheld : ∀ i, slot = some i → s.xmitSlice = some i ∨ s.rexmitSlice = some i)
    (hf : ∀ j, j < s.taken →
      SlotProgress s.config s.network s.db.used (s.cuts.getD j 0) s.current s.taken
        (s.slices (j % 2)) j →
      SlotProgress s.config s.network s.db.used (s.cuts.getD j 0) s.current s.taken
        (f (s.slices (j % 2))) j) :
    Progress (s.modifySlice slot f) := by
  cases hslot : slot with
  | none => exact h
  | some i =>
    refine progress_setSlice h fun j hj hlt hi hold => ?_
    have htaken := hinv.held_lt hnet (hheld i hslot) hj hlt hi
    rw [← hi] at hold ⊢
    exact hf j htaken hold

/-- `findSlice` finds slices in the pipe only. -/
theorem findSlice_held {sliceNo : ℕ} (hfind : findSlice s sliceNo = some i) :
    s.xmitSlice = some i ∨ s.rexmitSlice = some i := by
  unfold findSlice at hfind
  rcases (Option.orElse_eq_some _ _ _).mp hfind with hx | ⟨-, hr⟩
  · exact .inl (Option.filter_eq_some_iff.mp hx).1
  · exact .inr (Option.filter_eq_some_iff.mp hr).1

/-- A message keeps the progress. -/
theorem progress_handleMessage {clNo : ℕ} {msg : ClientMsg} (hinv : Inv s) (h : Progress s)
    (hnet : s.net.Steady) : Progress (handleMessage s clNo msg) := by
  cases msg with
  | ok sliceNo =>
    simp only [handleMessage]
    split
    · rename_i hcl
      exact progress_modifySlice hinv h hnet (fun i hi => findSlice_held hi)
        fun j hj hold => hold.markOk hcl hj
    · exact h
  | retransmit sliceNo rxmit map =>
    simp only [handleMessage]
    split
    · exact progress_modifySlice hinv h hnet (fun i hi => findSlice_held hi)
        fun j _ hold => hold.markRetransmit
    · exact h
  | disconnect =>
    have hslices : ∀ k, (handleMessage s clNo .disconnect).slices k =
        if s.rexmitSlice = some k then
          forgetClient (if s.xmitSlice = some k then forgetClient (s.slices k) clNo
            else s.slices k) clNo
        else if s.xmitSlice = some k then forgetClient (s.slices k) clNo else s.slices k := by
      intro k
      simp only [handleMessage, modifySlice_slices]
    obtain ⟨slices, db, heq, -⟩ := handleMessage_frame (s := s) clNo .disconnect
    have hdb : db = s.db.remove clNo := by
      have hdb := congrArg State.db heq
      simpa only [handleMessage, modifySlice_db] using hdb.symm
    rw [heq] at hslices ⊢
    subst hdb
    exact { h with
      slots := fun j hj hlt => by
        have hold := h.slots j hj hlt
        change SlotProgress _ _ (s.db.remove clNo).used _ s.current _ (slices (j % 2)) j
        rw [show slices (j % 2) = _ from hslices (j % 2), remove_used]
        split
        · split
          · rw [← Finset.erase_idem]
            exact hold.forgetClient.forgetClient
          · exact hold.forgetClient
        · split
          · exact hold.forgetClient
          · have hfresh := hold.fresh (by
              by_contra hge
              rcases hinv.held_of_lt hnet hj (by omega) with hx | hr <;> contradiction)
            exact { hold with ready_subset := by simp [hfresh.1] }
      db := h.db.remove clNo
      acked := fun ha j hj => by
        change (s.db.remove clNo).used ⊆ _
        rw [remove_used]
        exact (Finset.erase_subset _ _).trans (h.acked ha j hj) }
  | other => exact h

/-- The slice that is being retransmitted has been sent. -/
theorem Progress.rexmit_sent (hinv : Inv s) (h : Progress s) (hnet : s.net.Steady)
    (hr : s.rexmitSlice = some r) :
    r = s.freed % 2 ∧ SlotProgress s.config s.network s.db.used (s.cuts.getD s.freed 0) s.current
      s.taken (s.slices r) s.freed ∧ (s.slices r).state ≠ .new ∧ s.freed < s.taken := by
  have hrexmit : r = s.freed % 2 := hinv.net.rexmit_eq hnet.ne.1 r hr
  have htaken : s.taken = s.freed + slotCount s.rexmitSlice + slotCount s.xmitSlice :=
    hinv.net.taken_eq hnet.ne.1
  have hcount : slotCount s.rexmitSlice = 1 := by rw [hr]; rfl
  have hlength : s.taken ≤ s.cuts.length := le_of_add_le_left hinv.ring.taken_le
  have hallocated : s.allocated = s.cuts.length + s.cutter.making := hinv.ring.allocated_eq
  have hslot := h.slots s.freed le_rfl (by omega)
  rw [← hrexmit] at hslot
  exact ⟨hrexmit, hslot, hslot.done (by rw [State.current]; omega), by omega⟩

/-- A slice for which everybody is ready may be acknowledged. -/
theorem progress_ackSlice (hinv : Inv s) (h : Progress s) (hnet : s.net.Plain)
    (hr : s.rexmitSlice = some r)
    (hready : s.config.async = false → s.db.used ⊆ (s.slices r).readySet) :
    Progress (ackSlice s r) := by
  unfold ackSlice
  dsimp only
  split
  · exact h
  · rename_i hstate
    obtain ⟨hacked, hlt, hfreed⟩ := hinv.rexmit hnet hr hstate
    obtain ⟨hrexmit, -, hsent, -⟩ := h.rexmit_sent hinv hnet.steady hr
    have hsame := sameMode_growSliceSize s.config
    have hlength : s.taken ≤ s.cuts.length := le_of_add_le_left hinv.ring.taken_le
    have hno : (s.slices r).sliceNo = s.acked := by
      have hslot := (hinv.ring.slots s.acked hfreed.ge (by
        change s.acked < s.freed + 2
        omega)).sliceNo_eq (by change s.acked < s.cuts.length; omega)
      rw [hacked]
      exact hslot
    have hbase : Progress { s with
        config := growSliceSize s.config
        acked := s.acked + 1
        ackedBy := Function.update s.ackedBy (s.slices r).sliceNo (s.slices r).readySet } :=
      { progress_config h hsame with
        acked := fun ha j hj => by
          rw [hsame] at ha
          dsimp only at hj ⊢
          rw [hno]
          rcases eq_or_ne j s.acked with rfl | hne
          · rw [Function.update_self]
            exact hready ha
          · rw [Function.update_of_ne hne]
            exact h.acked ha j (by omega) }
    have hslot := progress_setSlice hbase (i := r) (x := { s.slices r with state := .acked })
      fun j _ _ _ hold => { hold with
        sent := by simp
        done := by simp
        transmitted := fun hlt _ => hold.transmitted hlt hsent }
    split
    · exact { hslot with }
    · exact { hslot with }

/-- A REQACK keeps the progress. -/
theorem progress_sendReqack (hinv : Inv s) (h : Progress s) (hnet : s.net.Plain)
    (hr : s.rexmitSlice = some r) : Progress (sendReqack s r) := by
  unfold sendReqack
  dsimp only
  split
  · rename_i hasync
    exact progress_ackSlice hinv h hnet hr fun hsync => by simp [hasync.1] at hsync
  · split
    · exact h
    · have hsent := progress_network (progress_config h (sameMode_shrinkSliceSize s.config (s.slices r)))
        [.reqack (s.slices r).sliceNo (s.slices r).bytes (s.slices r).rxmitId (s.slices r).readySet]
      exact progress_setSlice hsent fun j _ _ _ hold => { hold with }

/-- A round of retransmissions keeps it. -/
theorem progress_doRetransmissions (hinv : Inv s) (h : Progress s) (hnet : s.net.Plain)
    (hr : s.rexmitSlice = some r) : Progress (doRetransmissions s r) := by
  obtain ⟨hrexmit, -, hstate, hlt⟩ := h.rexmit_sent hinv hnet.steady hr
  unfold doRetransmissions
  dsimp only
  split
  · exact h
  · split
    · rename_i slice ms hsend
      refine progress_setSlice (progress_network h ms) fun j hj hlt' hi hold => ?_
      have htaken := hinv.held_lt hnet.steady (.inr hr) hj hlt' hi
      rw [sendSliceAgain_frame hsend]
      exact { hold with
        fresh := fun hge => absurd htaken (Nat.not_lt.mpr hge)
        sent := fun hnew => absurd hnew hstate }
    · exact { h with }

/-- The slice in the transmission slot is the one that was taken last. -/
theorem Progress.xmit_last (hinv : Inv s) (h : Progress s) (hnet : s.net.Steady)
    (hx : s.xmitSlice = some x) :
    ∃ j, s.taken = j + 1 ∧ x = j % 2 ∧ s.freed ≤ j ∧ s.current = j ∧ s.acked ≤ j ∧
      SlotProgress s.config s.network s.db.used (s.cuts.getD j 0) j s.taken (s.slices x) j ∧
      SlotHolds s.cuts s.dataBufSize s.acked s.taken (s.slices x).core j := by
  have hxmit : x = (s.taken + 1) % 2 := hinv.net.xmit_eq x hx
  have htaken : s.taken = s.freed + slotCount s.rexmitSlice + slotCount s.xmitSlice :=
    hinv.net.taken_eq hnet.ne.1
  have hacked : s.acked ≤ s.freed + slotCount s.rexmitSlice := hinv.net.acked_le hnet.ne.1
  have hcount : slotCount s.xmitSlice = 1 := by rw [hx]; rfl
  have hlength : s.taken ≤ s.cuts.length := le_of_add_le_left hinv.ring.taken_le
  have hallocated : s.allocated = s.cuts.length + s.cutter.making := hinv.ring.allocated_eq
  have hle : s.allocated ≤ 2 + s.freed := hinv.ring.freeSlices.consumed_le
  obtain ⟨j, hj⟩ : ∃ j, s.taken = j + 1 := ⟨s.taken - 1, by omega⟩
  have hcurrent : s.current = j := by rw [State.current]; omega
  have hxj : x = j % 2 := by omega
  have hslot := h.slots j (by omega) (by omega)
  have hholds := hinv.ring.slots j (show s.freed ≤ j by omega) (show j < s.freed + 2 by omega)
  rw [← hxj, hcurrent] at hslot
  rw [← hxj] at hholds
  exact ⟨j, hj, hxj, by omega, hcurrent, by omega, hslot, hholds⟩

/-- A slice whose blocks have all been sent is transmitted. -/
theorem progress_finishSending (hinv : Inv s) (h : Progress s) (hnet : s.net.Plain)
    (hx : s.xmitSlice = some x)
    (hsent : ∀ k < i, BlockSent s.config s.network (s.taken - 1) (s.cuts.getD (s.taken - 1) 0) k) :
    Progress (finishSending s x i) := by
  obtain ⟨j, hj, hxj, hfreed, hcurrent, -, -, hholds⟩ := h.xmit_last hinv hnet.steady hx
  have hlength : s.taken ≤ s.cuts.length := le_of_add_le_left hinv.ring.taken_le
  have hallocated : s.allocated = s.cuts.length + s.cutter.making := hinv.ring.allocated_eq
  have hle : s.allocated ≤ 2 + s.freed := hinv.ring.freeSlices.consumed_le
  have hbytes : (s.slices x).bytes = s.cuts.getD j 0 := hholds.bytes_eq (by omega)
  simp only [hj, Nat.add_sub_cancel] at hsent
  have hnet' : Progress { s with net := .loopTest } := { h with sending := by simp }
  unfold finishSending
  dsimp only
  refine progress_setSlice hnet' fun k hk hlt hkx hold => ?_
  have hkj : k = j := by
    have hk' : s.freed ≤ k := hk
    have hlt' : k < s.allocated := hlt
    omega
  subst hkj
  have hfresh : ¬ s.taken ≤ k := by omega
  split
  · rename_i hend
    exact { hold with
      fresh := fun hge => absurd hge hfresh
      sent := by simp
      done := by simp
      transmitted := fun _ _ => by
        unfold Transmitted
        rw [← hbytes]
        change ∀ m : ℕ, (m : ℤ) < getSliceBlocks (s.slices x) s.config + fecBlocks s.config → _
        have hend' : (i : ℤ) = getSliceBlocks (s.slices x) s.config + fecBlocks s.config := hend
        rw [← hend', hbytes]
        exact fun m hm => hsent m (by omega) }
  · exact { hold with
      fresh := fun hge => absurd hge hfresh
      sent := fun _ => hsent }

/-- A block that is sent is one more. -/
theorem progress_sendingStep (hinv : Inv s) (h : Progress s) (hpc : s.net = .sending i)
    (hx : s.xmitSlice = some x) : Progress (sendingStep s x i) := by
  have hplain : s.net.Plain := by rw [hpc]; trivial
  obtain ⟨j, hj, hxj, hfreed, hcurrent, -, -, hholds⟩ := h.xmit_last hinv hplain.steady hx
  have hlength : s.taken ≤ s.cuts.length := le_of_add_le_left hinv.ring.taken_le
  obtain ⟨hpos, hsent⟩ := h.sending i hpc
  unfold sendingStep
  dsimp only
  split
  · split
    · rename_i ms hsend
      have hblock : BlockSent s.config (ms ++ s.network) _ _ i := blockSent_transmitBlock hsend
      have hno : (s.slices x).sliceNo = s.taken - 1 :=
        (hholds.sliceNo_eq (by omega)).trans (by omega)
      have hbytes : (s.slices x).bytes = s.cuts.getD (s.taken - 1) 0 := by
        rw [hj, Nat.add_sub_cancel]
        exact hholds.bytes_eq (by omega)
      rw [hno, hbytes] at hblock
      have hsent' : ∀ k < i + 1, BlockSent s.config (ms ++ s.network) (s.taken - 1)
          (s.cuts.getD (s.taken - 1) 0) k := by
        intro k hk
        rcases Nat.lt_succ_iff_lt_or_eq.mp hk with hlt | rfl
        · exact (hsent k hlt).append ms
        · exact hblock
      have hnetwork := progress_network h ms
      split
      · exact { hnetwork with
          sending := fun k hk => by
            obtain rfl := NetPc.sending.inj hk
            exact ⟨hpos, hsent'⟩ }
      · exact progress_finishSending (hinv.move ⟨rfl, rfl, rfl, rfl, rfl, rfl, rfl, hinv.noOverflow⟩
          hplain hplain) hnetwork hplain hx hsent'
    · exact { h with }
  · exact progress_finishSending hinv h hplain hx hsent

/-- Everybody in the table is noted as ready. -/
theorem Progress.used_subset (hinv : Inv s) (h : Progress s) (hnet : s.net.Steady)
    (hr : s.rexmitSlice = some r) (hready : (s.slices r).nrReady = s.db.nrParticipants) :
    s.db.used ⊆ (s.slices r).readySet := by
  obtain ⟨-, hslot, -, -⟩ := h.rexmit_sent hinv hnet hr
  have hcard := h.db.card_eq
  have hcount := hslot.nrReady_eq
  refine (Finset.eq_of_subset_of_card_le hslot.ready_subset ?_).ge
  omega

/-- Giving memory back keeps the progress. -/
theorem progress_cleanupFree (hinv : Inv s) (h : Progress s) (hpc : s.net = .cleanupFree)
    (hstep : netStep s = some s') : Progress s' := by
  have hplain : s.net.Plain := by rw [hpc]; trivial
  simp only [netStep, hpc, Option.some.injEq] at hstep
  subst hstep
  split
  · rename_i r hr
    obtain ⟨-, -, hstate, -⟩ := h.rexmit_sent hinv hplain.steady hr
    split
    · exact progress_setSlice (progress_net h (by simp)) fun j _ _ _ hold => { hold with
        sent := by simp
        done := by simp
        transmitted := fun hlt _ => hold.transmitted hlt hstate }
    · exact progress_net h (by simp)
  · exact progress_net h (by simp)

/-- Freeing a slice keeps it. -/
theorem progress_freeLoop (hinv : Inv s) (h : Progress s) (hpc : s.net = .freeLoop)
    (hstep : netStep s = some s') : Progress s' := by
  have hpos : pcGetProducerPosition s.freeSlicesPc = s.freed % 2 :=
    hinv.ring.freeSlices.producerPosition_eq.trans (Nat.add_mod_left 2 s.freed)
  have hlength : s.taken ≤ s.cuts.length := le_of_add_le_left hinv.ring.taken_le
  have hallocated : s.allocated = s.cuts.length + s.cutter.making := hinv.ring.allocated_eq
  have hle : s.allocated ≤ 2 + s.freed := hinv.ring.freeSlices.consumed_le
  have hacked : s.acked ≤ s.taken := hinv.ring.acked_le
  simp only [netStep, hpc, hpos, Option.some.injEq] at hstep
  split at hstep
  · rename_i hpre
    obtain ⟨-, hfreed, -⟩ := hinv.net.preFree (s.freed % 2) (Nat.mod_lt _ (by omega)) hpre
    have hlt : s.freed < s.acked := by
      have hfreed' : s.acked = s.freed + 1 := hfreed
      omega
    obtain ⟨q, hq, -⟩ := hinv.ring.free hlt
    have hq' : pcProduce s.freeSlicesPc 1 = some q := hq
    simp only [State.setSlice, hq'] at hstep
    subst hstep
    exact { h with
      slots := fun j hj hlt' => by
        dsimp only at hj hlt' ⊢
        rw [Function.update_of_ne (by omega)]
        exact h.slots j (by omega) hlt'
      freed := fun j hj => by
        rcases Nat.lt_succ_iff_lt_or_eq.mp hj with hold | rfl
        · exact h.freed j hold
        · exact (h.slots s.freed le_rfl (by omega)).transmitted (by omega) (by simp [hpre]) }
  · subst hstep
    exact { h with sending := by simp }

/-- Moving a slice to the other slot keeps it. -/
theorem progress_shift (hinv : Inv s) (h : Progress s) (hpc : s.net = .shift)
    (hstep : netStep s = some s') : Progress s' := by
  have hplain : s.net.Plain := by rw [hpc]; trivial
  have hmove : Progress { s with net := .messages } := progress_net h (by simp)
  have hinvMove : Inv { s with net := .messages } :=
    hinv.move ⟨rfl, rfl, rfl, rfl, rfl, rfl, rfl, hinv.noOverflow⟩ hplain trivial
  simp only [netStep, hpc, Option.some.injEq] at hstep
  subst hstep
  split
  · rename_i x hr hx
    split
    · rename_i hstate
      obtain ⟨j, hj, hxj, -, hcurrent, -, -, -⟩ := h.xmit_last hinv hplain.steady hx
      have hnet := hinvMove.net
      simp only [hr, hx] at hnet
      have hshift : Inv { s with net := .messages, rexmitSlice := some x, xmitSlice := none } :=
        ⟨hinv.ring, hnet.shift trivial, { hinvMove.ret with }, hinv.noOverflow⟩
      refine progress_sendReqack hshift { hmove with slots := fun k hk hlt => ?_ } trivial rfl
      have hold := h.slots k hk hlt
      exact { hold with
        done := fun hlt' => by
          change k < s.taken - 0 at hlt'
          rcases Nat.lt_or_ge k s.current with hdone | hlast
          · exact hold.done hdone
          · obtain rfl : k = j := by omega
            rw [← hxj]
            simp [hstate] }
    · exact hmove
  · exact hmove

/-- A slice that is taken has nothing sent yet. -/
theorem progress_takeFec (hinv : Inv s) (h : Progress s) (hpc : s.net = .takeFec)
    (hstep : netStep s = some s') : Progress s' := by
  simp only [netStep, hpc, Option.map_eq_some_iff] at hstep
  obtain ⟨n, hn, rfl⟩ := hstep
  have hxmit := hinv.net.making (.inr hpc)
  have hcurrent : s.current = s.taken := by
    rw [State.current, hxmit]
    rfl
  have htake := hinv.ring.takeFec (hinv.net.takeFec hpc) hn
  have hlength : s.taken + 1 ≤ s.cuts.length := le_of_add_le_left htake.taken_le
  exact { h with
    slots := fun j hj hlt => by
      have hold := h.slots j hj hlt
      rw [hcurrent] at hold
      exact { hold with
        fresh := fun hge => hold.fresh (Nat.le_of_succ_le hge)
        done := hold.done
        transmitted := fun hlt' hstate => by
          rcases Nat.lt_succ_iff_lt_or_eq.mp hlt' with hold' | rfl
          · exact hold.transmitted hold' hstate
          · have hslot := hinv.ring.slots s.taken (show s.freed ≤ s.taken from hj)
              (show s.taken < s.freed + 2 from hinv.ring.length_le.trans_lt' hlength)
            exact absurd (hslot.state_new le_rfl hlength) hstate }
    sending := by simp }

/-- A timeout keeps the progress when it drops nobody who is ready for the slice being sent. -/
theorem progress_timeout (hinv : Inv s) (h : Progress s) (hdrop : DropsNobodyAhead s)
    (hpc : s.net = .timeout) (hstep : netStep s = some s') : Progress s' := by
  have hplain : s.net.Plain := by rw [hpc]; trivial
  simp only [netStep, hpc, Option.some.injEq] at hstep
  subst hstep
  split
  · rename_i r hr
    split
    · rename_i hlate
      have hspec := dropClients_spec h.db (s.slices r)
      generalize dropClients s.db (s.slices r) = st at hspec ⊢
      obtain ⟨db, exit⟩ := st
      obtain ⟨hvalid, hsub, hkept, -⟩ := hspec
      have hready : ∀ j, s.freed ≤ j → j < s.allocated → (s.slices (j % 2)).readySet ⊆ db.used := by
        intro j hj hlt i hi
        have hold := h.slots j hj hlt
        apply hkept i (hold.ready_subset hi)
        rcases Nat.lt_or_ge j s.taken with htaken | hfresh
        · rcases hinv.held_of_lt hplain.steady hj htaken with hx | hr'
          · exact hdrop hpc r _ hr hx hlate hi
          · obtain rfl := Option.some.inj (hr.symm.trans hr')
            exact hi
        · rw [(hold.fresh hfresh).1] at hi
          exact absurd hi (Finset.notMem_empty i)
      have hdb := progress_db h hvalid hsub hready
      dsimp only
      split
      · exact { hdb with sending := by simp [exitMainLoop] }
      · exact { hdb with sending := by simp }
    · have hmove : Inv { s with net := .loopTest } :=
        hinv.move ⟨rfl, rfl, rfl, rfl, rfl, rfl, rfl, hinv.noOverflow⟩ hplain trivial
      exact progress_sendReqack (inv_setSlice hmove trivial rfl)
        (progress_setSlice (progress_net h (by simp)) fun j _ _ _ hold => { hold with }) trivial hr
  · exact { h with sending := by simp [exitMainLoop] }

/-- So does every step of `netSenderMain`. -/
theorem progress_netStep (hinv : Inv s) (h : Progress s) (hdrop : DropsNobodyAhead s)
    (hstep : netStep s = some s') : Progress s' := by
  have hmoved : ∀ net, (∀ i, net ≠ .sending i) → Progress { s with net := net } :=
    fun net hnet => progress_net h hnet
  have hinvMove : ∀ net, s.net.Plain → net.Plain → Inv { s with net := net } := fun net hnet hnet' =>
    hinv.move ⟨rfl, rfl, rfl, rfl, rfl, rfl, rfl, hinv.noOverflow⟩ hnet hnet'
  cases hpc : s.net with
  | cleanupFree => exact progress_cleanupFree hinv h hpc hstep
  | freeLoop => exact progress_freeLoop hinv h hpc hstep
  | shift => exact progress_shift hinv h hpc hstep
  | takeFec => exact progress_takeFec hinv h hpc hstep
  | timeout => exact progress_timeout hinv h hdrop hpc hstep
  | making | exited => simp [netStep, hpc] at hstep
  | init =>
    obtain ⟨failure, rfl, -⟩ := netStep_init hpc hstep
    exact { progress_config h (sameMode_initSliceSize s.config) with sending := by simp }
  | cleanupAck =>
    have hplain : s.net.Plain := by rw [hpc]; trivial
    simp only [netStep, hpc, Option.some.injEq] at hstep
    subst hstep
    split
    · rename_i r hr
      split
      · rename_i hready
        have hused := h.used_subset hinv hplain.steady hr hready
        exact progress_ackSlice (hinvMove _ hplain trivial) (hmoved _ (by simp)) trivial hr
          fun _ => hused
      · exact hmoved _ (by simp)
    · exact hmoved _ (by simp)
  | messages =>
    have hplain : s.net.Plain := by rw [hpc]; trivial
    simp only [netStep, hpc, Option.some.injEq] at hstep
    subst hstep
    split
    · exact hmoved _ (by simp)
    · rename_i hincoming
      have hnext : Inv { s with net := .messageDone } :=
        inv_messageArrived hinv hplain (by simp [hincoming])
      exact progress_handleMessage hnext (hmoved _ (by simp)) trivial
  | messageDone =>
    simp only [netStep, hpc, Option.some.injEq] at hstep
    subst hstep
    exact { h with sending := by simp }
  | messageFree | checkEnd =>
    simp only [netStep, hpc, Option.some.injEq] at hstep
    subst hstep
    split
    · exact { h with sending := by simp }
    · exact { h with }
  | retransmit =>
    have hplain : s.net.Plain := by rw [hpc]; trivial
    simp only [netStep, hpc, Option.some.injEq] at hstep
    subst hstep
    split
    · rename_i r hr
      split
      · exact progress_doRetransmissions (hinvMove _ hplain trivial) (hmoved _ (by simp)) trivial hr
      · exact hmoved _ (by simp)
    · exact hmoved _ (by simp)
  | reqack =>
    have hplain : s.net.Plain := by rw [hpc]; trivial
    simp only [netStep, hpc, Option.some.injEq] at hstep
    subst hstep
    split
    · rename_i r hr
      split
      · exact progress_sendReqack (inv_setSlice (hinvMove _ hplain trivial) trivial rfl)
          (progress_setSlice (hmoved _ (by simp)) fun j _ _ _ hold => { hold with }) trivial hr
      · exact hmoved _ (by simp)
    · exact hmoved _ (by simp)
  | newSlice =>
    simp only [netStep, hpc, Option.some.injEq] at hstep
    subst hstep
    split
    · split
      · exact hmoved _ (by simp)
      · exact { h with sending := by simp }
    · exact hmoved _ (by simp)
  | send =>
    have hplain : s.net.Plain := by rw [hpc]; trivial
    simp only [netStep, hpc, Option.some.injEq] at hstep
    subst hstep
    split
    · rename_i x hx
      obtain ⟨j, hj, -, -, -, -, hslot, -⟩ := h.xmit_last hinv hplain.steady hx
      split
      · rename_i hnew
        exact { h with
          sending := fun i hi => by
            obtain rfl := NetPc.sending.inj hi
            refine ⟨show 0 < s.taken by omega, ?_⟩
            dsimp only
            rw [hj, Nat.add_sub_cancel]
            exact hslot.sent hnew }
      · exact hmoved _ (by simp)
    · exact hmoved _ (by simp)
  | sending i =>
    simp only [netStep, hpc, Option.some.injEq] at hstep
    subst hstep
    split
    · rename_i x hx
      exact progress_sendingStep hinv h hpc hx
    · exact { h with }
  | exitTest =>
    simp only [netStep, hpc, Option.some.injEq] at hstep
    subst hstep
    split
    · exact { h with sending := by simp [exitMainLoop] }
    · split
      · exact { h with sending := by simp [exitMainLoop] }
      · split
        · exact { h with }
        · exact hmoved _ (by simp)
  | wait =>
    simp only [netStep, hpc, Option.ite_none_left_eq_some, Option.some.injEq] at hstep
    obtain ⟨-, rfl⟩ := hstep
    exact hmoved _ (by simp)
  | loopTest =>
    simp only [netStep, hpc, Option.some.injEq] at hstep
    subst hstep
    split
    · exact hmoved _ (by simp)
    · exact { h with sending := by simp [exitMainLoop] }

/-- So does every step. -/
theorem progress_act {a : Action} (hinv : Inv s) (h : Progress s) (hdrop : DropsNobodyAhead s)
    (hact : act s a = some s') : Progress s' := by
  simp only [act, Option.ite_none_right_eq_some] at hact
  obtain ⟨-, hact⟩ := hact
  cases a with
  | reader n => exact progress_readerStep h hact
  | cutter => exact progress_cutterStep hinv h hact
  | net => exact progress_netStep hinv h hdrop hact
  | timeout =>
    obtain ⟨-, hs⟩ := Option.ite_none_right_eq_some.mp hact
    obtain rfl := Option.some.inj hs
    exact progress_net h (by simp)
  | receive clNo msg =>
    cases hpc : s.returnChannel with
    | produce _ _ => simp [receiveStep, hpc] at hact
    | receive =>
      simp only [receiveStep, hpc, Option.ite_none_right_eq_some, Option.map_eq_some_iff] at hact
      obtain ⟨-, n, -, rfl⟩ := hact
      exact { h with }
  | announce =>
    cases hpc : s.returnChannel with
    | receive => simp [announceStep, hpc] at hact
    | produce clNo msg =>
      simp only [announceStep, hpc, Option.some.injEq] at hact
      subst hact
      split <;> exact { h with }

/-- In the beginning nothing is to be sent. -/
theorem progress_start {config : NetConfig} {db : ParticipantsDb} {input : ℕ → Gf} {inputSize : ℕ}
    {mem : ℕ → Gf} {fecData : ℕ → ℕ → Fec.Block} (hdb : db.Valid)
    (hstart : start config db input inputSize mem fecData = some s) : Progress s := by
  simp only [start, Option.bind_eq_some_iff, Option.map_eq_some_iff] at hstart
  obtain ⟨_, -, _, -, _, -, rfl⟩ := hstart
  exact ⟨by simp, by simp, by simp, hdb, by simp⟩

end Net

end Udpcast.Sender
