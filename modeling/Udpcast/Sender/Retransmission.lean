import Udpcast.Sender.Transmission

/-!
# Retransmission rounds

A round starts with a REQACK for the slice in the retransmission slot. Requests are merged
into `rxmitMap` while retransmissions go on, and `isXmittedMap` holds what has been sent
again. The requests that the round has accepted are kept beside the sender.
-/

namespace Udpcast.Sender

open Fec (Gf)
open Queue
open Protocol

/-- The slice number in a REQACK. -/
def reqackNo : ServerMsg → Option ℕ
  | .reqack sliceNo .. => some sliceNo
  | _ => none

/-- The slice that the latest REQACK was for. -/
def State.round (s : State) : Option ℕ := s.network.findSome? reqackNo

def Packet.sliceNo : Packet → ℕ
  | .data sliceNo .. => sliceNo
  | .fec _ sliceNo .. => sliceNo

/-- The packets of slice `j` since the latest REQACK, in the order of sending. -/
def State.resent (s : State) (j : ℕ) : List Packet :=
  (packets (s.network.takeWhile fun m => (reqackNo m).isNone)).filter fun p => p.sliceNo = j

/-- The map of the request that `handleNextMessage` is about to accept for the slice in the
retransmission slot. -/
def State.request (s : State) : Option (ℕ → Bool) :=
  match s.incoming, s.rexmitSlice with
  | (clNo, .retransmit sliceNo rxmit map) :: _, some r =>
    if clNo ∈ s.db.used ∧ findSlice s sliceNo = some r ∧
        ¬ (rawField s.config.bigEndian rxmit).toInt < (s.slices r).rxmitId then some map
    else none
  | _, _ => none

/-- The sender with the maps that have been accepted since the latest REQACK. -/
structure Retransmission where
  sender : State
  accepted : List (ℕ → Bool)
  /-- A request has been accepted and no pass has followed it. -/
  unserved : Bool

/-- The notes after a step of `netSenderMain`. -/
def Retransmission.note (t : Retransmission) (s : State) : Retransmission :=
  if (newMessages t.sender s).any fun m => (reqackNo m).isSome then ⟨s, [], false⟩
  else
    match t.sender.net with
    | .messages =>
      match t.sender.request with
      | some map => ⟨s, map :: t.accepted, true⟩
      | none => { t with sender := s }
    | .retransmit =>
      if s.net = .loopTest ∧ s.failure = none then { t with sender := s, unserved := false }
      else { t with sender := s }
    | _ => { t with sender := s }

def retransmitAct (t : Retransmission) (a : Action) : Option Retransmission :=
  (act t.sender a).map fun s =>
    match a with
    | .net => t.note s
    | _ => { t with sender := s }

/-- The sender with empty notes at the start. -/
def retransmissionSystem : System Retransmission :=
  .ofActions (fun t => system.Init t.sender ∧ t.accepted = [] ∧ t.unserved = false) retransmitAct

/-- The round of slice `j` in slot `r` has sent exactly what was asked for. -/
structure RoundExact (t : Retransmission) (r j : ℕ) : Prop where
  /-- The packets are the data blocks that some accepted map lacks. -/
  mem_iff : ∀ p, p ∈ t.sender.resent j ↔
    ∃ i < blockCount t.sender.config (t.sender.cuts.getD j 0),
      (∃ map ∈ t.accepted, map i = false) ∧ p = t.sender.dataPacket j i
  /-- Each of them is sent once. -/
  nodup : (t.sender.resent j).Nodup
  needRxmit : (t.sender.slices r).needRxmit = false

variable {s s' : State} {t : Retransmission} {i j k r : ℕ}

section Pass

/-- Different blocks are different packets. -/
theorem dataPacket_injective : Function.Injective (s.dataPacket j) := by
  intro i k h
  simp only [State.dataPacket, Packet.data.injEq] at h
  exact h.2.1

/-- Packet `k` of a slice is data block `k`. -/
theorem numbered_getElem (hk : k < blockCount s.config (s.cuts.getD j 0)) :
    (s.numbered j)[k]? = some (s.dataPacket j k) := by
  rw [State.numbered, List.getElem?_append_left (by simpa using hk), List.getElem?_map,
    List.getElem?_range hk]
  rfl

/-- What `isXmittedMap` does not change. -/
structure SameCut (slice slice' : Slice) : Prop where
  sliceNo : slice'.sliceNo = slice.sliceNo
  bytes : slice'.bytes = slice.bytes
  base : slice'.base = slice.base
  state : slice'.state = slice.state
  rxmitMap : slice'.rxmitMap = slice.rxmitMap

/-- The blocks below `n` that are asked for and not yet sent again. -/
def Slice.wanted (slice : Slice) (n : ℕ) : List ℕ :=
  (List.range n).filter fun i => slice.rxmitMap i && !slice.isXmittedMap i

/-- Blocks are no REQACKs. -/
theorem reqackNo_transmitBlock {slice : Slice} {ms : List ServerMsg}
    (hsend : transmitBlock s slice k = some ms) : ∀ m ∈ ms, reqackNo m = none := by
  have hhello : ∀ p : Prop, ∀ [Decidable p], ∀ m ∈ (if p then [ServerMsg.hello] else []),
      reqackNo m = none := by
    intro p _ m hm
    split at hm
    · obtain rfl := List.mem_singleton.mp hm
      rfl
    · exact absurd hm List.not_mem_nil
  simp only [transmitBlock] at hsend
  split at hsend
  · obtain ⟨m, hm, rfl⟩ := Option.map_eq_some_iff.mp hsend
    obtain ⟨-, hm⟩ := Option.ite_none_right_eq_some.mp hm
    obtain rfl := Option.some.inj hm
    exact List.forall_mem_cons.mpr ⟨rfl, hhello _⟩
  · obtain ⟨m, hm, rfl⟩ := Option.map_eq_some_iff.mp hsend
    refine List.forall_mem_append.mpr ⟨?_, hhello _⟩
    unfold transmitFecBlock at hm
    split at hm
    · obtain rfl := Option.some.inj hm
      exact List.forall_mem_nil _
    · obtain ⟨-, hm⟩ := Option.ite_none_right_eq_some.mp hm
      obtain rfl := Option.some.inj hm
      exact List.forall_mem_singleton.mpr rfl

/-- A pass of retransmissions, up to block `n`. -/
theorem retransmitBlocks_spec (h : Inv s) {slice : Slice} (hacked : s.acked ≤ j)
    (hj : j < s.cuts.length) (hno : slice.sliceNo = j) (hbytes : slice.bytes = s.cuts.getD j 0)
    (hbase : slice.base = startOf s.cuts j % s.dataBufSize) {n : ℕ}
    (hn : n ≤ blockCount s.config (s.cuts.getD j 0)) {slice' : Slice} {sent : List ServerMsg}
    (hloop : (List.range n).foldlM (fun st i => retransmitBlock s i st) (slice, []) =
      some (slice', sent)) :
    SameCut slice slice' ∧
      (∀ i, slice'.isXmittedMap i = (slice.isXmittedMap i || (decide (i < n) && slice.rxmitMap i))) ∧
      packets sent = (slice.wanted n).map (s.dataPacket j) ∧ ∀ m ∈ sent, reqackNo m = none := by
  induction n generalizing slice' sent with
  | zero =>
    obtain ⟨rfl, rfl⟩ := Prod.mk.inj (Option.some.inj hloop)
    exact ⟨⟨rfl, rfl, rfl, rfl, rfl⟩, by simp, rfl, by simp⟩
  | succ n ih =>
    rw [List.range_succ, List.foldlM_append] at hloop
    obtain ⟨⟨mid, ms⟩, hmid, hlast⟩ := Option.bind_eq_some_iff.mp hloop
    obtain ⟨hcut, hmap, hpackets, hnone⟩ := ih (by omega) hmid
    have hnot : mid.isXmittedMap n = slice.isXmittedMap n := by simp [hmap]
    have hwanted : slice.wanted (n + 1) = slice.wanted n ++
        if slice.rxmitMap n && !slice.isXmittedMap n then [n] else [] := by
      rw [Slice.wanted, List.range_succ, List.filter_append, List.filter_singleton,
        Bool.cond_eq_ite]
      rfl
    have hasked : mid.rxmitMap n = slice.rxmitMap n := congrFun hcut.rxmitMap n
    have hlast : retransmitBlock s n (mid, ms) = some (slice', sent) := by simpa using hlast
    simp only [retransmitBlock, hnot, hasked] at hlast
    split at hlast
    · rename_i hskip
      obtain ⟨rfl, rfl⟩ := Prod.mk.inj (Option.some.inj hlast)
      refine ⟨{ hcut with }, fun i => ?_, ?_, hnone⟩
      · rw [hmap]
        rcases Nat.lt_trichotomy i n with hi | rfl | hi
        · simp [hi, Nat.lt_succ_of_lt hi]
        · rcases hskip with hr | hx <;> simp [*]
        · simp [show ¬ i < n by omega, show ¬ i < n + 1 by omega]
      · rw [hpackets, hwanted, if_neg (by rcases hskip with hr | hx <;> simp [*]), List.append_nil]
    · rename_i hsend
      obtain ⟨hr, hx⟩ := not_or.mp hsend
      obtain ⟨ms', hms, heq⟩ := Option.map_eq_some_iff.mp hlast
      obtain ⟨rfl, rfl⟩ := Prod.mk.inj heq
      have hpackets' := packets_transmitBlock h hacked hj (hcut.sliceNo.trans hno)
        (hcut.bytes.trans hbytes) (hcut.base.trans hbase) (by rw [State.turns]; omega) hms
      rw [numbered_getElem (by omega)] at hpackets'
      refine ⟨{ hcut with }, fun i => ?_, ?_, List.forall_mem_append.mpr
        ⟨reqackNo_transmitBlock hms, hnone⟩⟩
      · dsimp only
        rcases eq_or_ne i n with rfl | hne
        · simp [hr]
        · have hlt : i < n + 1 ↔ i < n := by omega
          rw [Function.update_of_ne hne, hmap]
          simp only [hlt]
      · rw [packets_append, hpackets, hpackets', hwanted, if_pos (by simp [hr, hx]),
          List.map_append]
        rfl

end Pass

section Frame

/-- The notes on what to send again are the same. -/
structure SameNotes (slice slice' : Slice) : Prop where
  sliceNo : slice'.sliceNo = slice.sliceNo
  rxmitMap : slice'.rxmitMap = slice.rxmitMap
  isXmittedMap : slice'.isXmittedMap = slice.isXmittedMap
  needRxmit : slice'.needRxmit = slice.needRxmit

/-- Every slice has its own notes. -/
theorem SameNotes.refl (slice : Slice) : SameNotes slice slice := ⟨rfl, rfl, rfl, rfl⟩

/-- The step leaves the round alone. -/
structure KeepsRound (s s' : State) : Prop where
  rexmitSlice : ∀ r ∈ s'.rexmitSlice, r ∈ s.rexmitSlice
  current : s'.current = s.current
  cuts : s.cuts <+: s'.cuts
  input : s'.input = s.input
  config : SameMode s.config s'.config
  net : s'.net = .freeLoop → s.net = .freeLoop ∨
    ∀ r ∈ s'.rexmitSlice, (s'.slices r).state ≠ .xmitted
  /-- Only blocks of other slices are sent. -/
  network : ∃ ms, s'.network = ms ++ s.network ∧ (∀ m ∈ ms, reqackNo m = none) ∧
    ∀ r ∈ s'.rexmitSlice, ∀ p ∈ packets ms, p.sliceNo ≠ (s.slices r).sliceNo
  slices : ∀ r ∈ s'.rexmitSlice, (s'.slices r).state = .xmitted →
    (s.slices r).state = .xmitted ∧ SameNotes (s.slices r) (s'.slices r)

/-- Doing nothing keeps the round. -/
theorem KeepsRound.rfl : KeepsRound s s where
  rexmitSlice := fun _ => id
  current := Eq.refl _
  cuts := List.prefix_refl _
  input := Eq.refl _
  config := Eq.refl _
  net := .inl
  network := ⟨[], Eq.refl _, by simp, by simp [packets]⟩
  slices := fun r _ hr => ⟨hr, .refl _⟩

/-- Other places in the loop keep it. -/
theorem keepsRound_net (net : NetPc) (hnet : net ≠ .freeLoop) :
    KeepsRound s { s with net := net } :=
  { KeepsRound.rfl (s := s) with net := fun h => absurd h hnet }

/-- Another slice size keeps it. -/
theorem keepsRound_config {config : NetConfig} (h : KeepsRound s s')
    (hsame : SameMode s'.config config) : KeepsRound s { s' with config := config } :=
  { h with config := h.config.trans hsame }

/-- Another slot changes, or the slice is not in a round any more. -/
theorem keepsRound_setSlice (slice : Slice) (h : KeepsRound s s')
    (hslice : ∀ r ∈ s'.rexmitSlice, r = i → slice.state = .xmitted →
      (s'.slices r).state = .xmitted ∧ SameNotes (s'.slices r) slice) :
    KeepsRound s (s'.setSlice i slice) :=
  have hslices : ∀ r ∈ s'.rexmitSlice, ((s'.setSlice i slice).slices r).state = .xmitted →
      (s'.slices r).state = .xmitted ∧ SameNotes (s'.slices r) ((s'.setSlice i slice).slices r) := by
    intro r hr hstate
    simp only [State.setSlice] at hstate ⊢
    rcases eq_or_ne r i with rfl | hri
    · rw [Function.update_self] at hstate ⊢
      exact hslice r hr rfl hstate
    · rw [Function.update_of_ne hri] at hstate ⊢
      exact ⟨hstate, .refl _⟩
  { h with
    net := fun hnet => (h.net hnet).imp_right fun hno r hr hstate =>
      hno r hr (hslices r hr hstate).1
    slices := fun r hr hstate => by
      obtain ⟨hstate', hnotes'⟩ := hslices r hr hstate
      obtain ⟨hold, hnotes⟩ := h.slices r hr hstate'
      exact ⟨hold, hnotes'.sliceNo.trans hnotes.sliceNo, hnotes'.rxmitMap.trans hnotes.rxmitMap,
        hnotes'.isXmittedMap.trans hnotes.isXmittedMap, hnotes'.needRxmit.trans hnotes.needRxmit⟩ }

/-- An acknowledgement keeps it. -/
theorem keepsRound_ackSlice (h : KeepsRound s s') (r : ℕ) : KeepsRound s (ackSlice s' r) := by
  unfold ackSlice
  dsimp only
  split
  · exact h
  · have hslot := keepsRound_setSlice (i := r) ({ s'.slices r with state := .acked })
      (keepsRound_config h (sameMode_growSliceSize s'.config)) nofun
    split <;> exact { hslot with }

/-- Such a step keeps the packets of the slices. -/
theorem KeepsRound.samePackets (h : KeepsRound s s') (hj : j < s.cuts.length) :
    SamePackets s s' j := by
  obtain ⟨l, hl⟩ := h.cuts
  refine Sender.samePackets ?_ ?_ h.input h.config
  · rw [← hl, List.getD_append _ _ _ _ hj]
  · rw [startOf, startOf, ← hl, List.take_append_of_le_length hj.le]

/-- The packets of a slice carry its number. -/
theorem numbered_sliceNo {p : Packet} (hp : p ∈ s.numbered j) : p.sliceNo = j := by
  rcases List.mem_append.mp hp with hdata | hfec
  · obtain ⟨i, -, rfl⟩ := List.mem_map.mp hdata
    rfl
  · obtain ⟨i, -, rfl⟩ := List.mem_map.mp hfec
    rfl

/-- The slice that is being retransmitted. -/
theorem Inv.rexmit_holds (h : Inv s) (hnet : s.net ≠ .freeLoop) (hr : s.rexmitSlice = some r)
    (hstate : (s.slices r).state = .xmitted) :
    (s.slices r).sliceNo = s.freed ∧ s.freed < s.current ∧ s.acked ≤ s.freed ∧
      SlotHolds s.cuts s.dataBufSize s.acked s.taken (s.slices r).core s.freed := by
  have hrexmit : r = s.freed % 2 := h.net.rexmit_eq hnet r hr
  have htaken : s.taken = s.freed + slotCount s.rexmitSlice + slotCount s.xmitSlice :=
    h.net.taken_eq hnet
  have hcount : slotCount s.rexmitSlice = 1 := by rw [hr]; rfl
  have hlength : s.taken ≤ s.cuts.length := le_of_add_le_left h.ring.taken_le
  have hholds := h.ring.slots s.freed le_rfl (show s.freed < s.freed + 2 by omega)
  rw [← hrexmit] at hholds
  refine ⟨hholds.sliceNo_eq (show s.freed < s.cuts.length by omega), ?_, ?_, hholds⟩
  · rw [State.current]
    omega
  · by_contra hlt
    rcases hholds.state_acked (show s.freed < s.acked by omega) with hacked | hpre
    · rw [show (s.slices r).state = .acked from hacked] at hstate
      cases hstate
    · rw [show (s.slices r).state = .preFree from hpre] at hstate
      cases hstate

/-- The first transmission goes on beside the round. -/
theorem keepsRound_sendingStep {x : ℕ} (hinv : Inv s) (hpc : s.net = .sending i)
    (hx : s.xmitSlice = some x) : KeepsRound s (sendingStep s x i) := by
  have hplain : s.net.Plain := by rw [hpc]; trivial
  have hlength : s.taken ≤ s.cuts.length := le_of_add_le_left hinv.ring.taken_le
  obtain ⟨j, hj, hacked, hholds⟩ := hinv.xmit_holds hx
  have hno : (s.slices x).sliceNo = j := hholds.sliceNo_eq (by omega)
  have hbytes : (s.slices x).bytes = s.cuts.getD j 0 := hholds.bytes_eq (by omega)
  have hne : ∀ r ∈ s.rexmitSlice, r ≠ x := fun r hr => hinv.slots_ne hplain.steady hx hr
  have hother : ∀ r ∈ s.rexmitSlice, (s.slices r).sliceNo ≠ j := by
    intro r hr
    have hrexmit : r = s.freed % 2 := hinv.net.rexmit_eq hplain.ne.1 r hr
    have htaken : s.taken = s.freed + slotCount s.rexmitSlice + slotCount s.xmitSlice :=
      hinv.net.taken_eq hplain.ne.1
    have hcount : slotCount s.rexmitSlice = 1 ∧ slotCount s.xmitSlice = 1 := by
      rw [show s.rexmitSlice = some r from hr, hx]
      exact ⟨rfl, rfl⟩
    have hslot := hinv.ring.slots s.freed le_rfl (show s.freed < s.freed + 2 by omega)
    have hno' : (s.slices r).sliceNo = s.freed := by
      rw [hrexmit]
      exact hslot.sliceNo_eq (show s.freed < s.cuts.length by omega)
    omega
  have hfinish : ∀ s' : State, KeepsRound s s' → s'.rexmitSlice = s.rexmitSlice → ∀ k,
      KeepsRound s (finishSending s' x k) := fun s' h hsame k => by
    have hmove : KeepsRound s { s' with net := .loopTest } := { h with net := by simp }
    exact keepsRound_setSlice _ hmove fun r hr heq => absurd heq (hne r (hsame ▸ hr))
  unfold sendingStep
  dsimp only
  split
  · rename_i hi
    have hturn : i < s.turns j := by
      have hcount : getSliceBlocks (s.slices x) s.config = blockCount s.config (s.slices x).bytes := rfl
      rw [State.turns, ← hbytes]
      omega
    split
    · rename_i ms hsend
      have hpackets := packets_transmitBlock hinv hacked (by omega) hno hbytes
        (hholds.base_eq (by omega)) hturn hsend
      have hsent : KeepsRound s { s with network := ms ++ s.network } :=
        { KeepsRound.rfl with
          network := ⟨ms, rfl, reqackNo_transmitBlock hsend, fun r hr p hp heq => by
            rw [hpackets, Option.mem_toList] at hp
            exact hother r hr (heq.symm.trans (numbered_sliceNo (List.mem_of_getElem? hp)))⟩ }
      split
      · exact { hsent with net := by simp }
      · exact hfinish _ hsent rfl _
    · exact { KeepsRound.rfl (s := s) with }
  · exact hfinish s .rfl rfl _

/-- The steps of `netSenderMain` outside the round. -/
theorem netStep_keepsRound (hinv : Inv s) (hstep : netStep s = some s')
    (hother : s.net ≠ .shift ∧ s.net ≠ .messages ∧ s.net ≠ .retransmit ∧ s.net ≠ .reqack ∧
      s.net ≠ .timeout) : KeepsRound s s' := by
  obtain ⟨hshift, hmessages, hretransmit, hreqack, htimeout⟩ := hother
  cases hpc : s.net with
  | shift => exact absurd hpc hshift
  | messages => exact absurd hpc hmessages
  | retransmit => exact absurd hpc hretransmit
  | reqack => exact absurd hpc hreqack
  | timeout => exact absurd hpc htimeout
  | making | exited => simp [netStep, hpc] at hstep
  | wait =>
    simp only [netStep, hpc, Option.ite_none_left_eq_some, Option.some.injEq] at hstep
    obtain ⟨-, rfl⟩ := hstep
    exact keepsRound_net _ (by simp)
  | takeFec =>
    have hnone : s.xmitSlice = none := hinv.net.making (.inr hpc)
    simp only [netStep, hpc, Option.map_eq_some_iff] at hstep
    obtain ⟨n, -, rfl⟩ := hstep
    exact { keepsRound_net (s := s) .checkEnd (by simp) with
      current := by rw [State.current, State.current, hnone]; rfl }
  | init =>
    obtain ⟨failure, rfl, -⟩ := netStep_init hpc hstep
    exact { keepsRound_config (keepsRound_net (s := s) .cleanupAck (by simp))
      (sameMode_initSliceSize s.config) with }
  | messageDone =>
    simp only [netStep, hpc, Option.some.injEq] at hstep
    subst hstep
    exact { keepsRound_net (s := s) .messageFree (by simp) with }
  | messageFree =>
    simp only [netStep, hpc, Option.some.injEq] at hstep
    subst hstep
    split
    · exact { keepsRound_net (s := s) .loopTest (by simp) with }
    · exact { KeepsRound.rfl (s := s) with }
  | newSlice =>
    simp only [netStep, hpc, Option.some.injEq] at hstep
    subst hstep
    split
    · split
      · exact keepsRound_net _ (by simp)
      · exact { keepsRound_net (s := s) .making (by simp) with }
    · exact keepsRound_net _ (by simp)
  | checkEnd =>
    simp only [netStep, hpc, Option.some.injEq] at hstep
    subst hstep
    split
    · exact { keepsRound_net (s := s) .send (by simp) with }
    · exact { KeepsRound.rfl (s := s) with }
  | send =>
    simp only [netStep, hpc, Option.some.injEq] at hstep
    subst hstep
    split
    · split <;> exact keepsRound_net _ (by simp)
    · exact keepsRound_net _ (by simp)
  | sending i =>
    simp only [netStep, hpc, Option.some.injEq] at hstep
    subst hstep
    split
    · rename_i x hx
      exact keepsRound_sendingStep hinv hpc hx
    · exact { KeepsRound.rfl (s := s) with }
  | exitTest =>
    have hexit : KeepsRound s (exitMainLoop s) :=
      { keepsRound_net (s := s) .exited (by simp) with }
    simp only [netStep, hpc, Option.some.injEq] at hstep
    subst hstep
    split
    · exact hexit
    · split
      · exact hexit
      · split
        · exact { KeepsRound.rfl (s := s) with }
        · exact keepsRound_net _ (by simp)
  | loopTest =>
    simp only [netStep, hpc, Option.some.injEq] at hstep
    subst hstep
    split
    · exact keepsRound_net _ (by simp)
    · exact { keepsRound_net (s := s) .exited (by simp) with }
  | cleanupAck =>
    simp only [netStep, hpc, Option.some.injEq] at hstep
    subst hstep
    split
    · split
      · exact keepsRound_ackSlice (keepsRound_net .cleanupFree (by simp)) _
      · exact keepsRound_net _ (by simp)
    · exact keepsRound_net _ (by simp)
  | cleanupFree =>
    simp only [netStep, hpc, Option.some.injEq] at hstep
    subst hstep
    split
    · rename_i r hr
      split
      · have hslot := keepsRound_setSlice (i := r) ({ s.slices r with state := .preFree })
          (KeepsRound.rfl (s := s)) (by simp)
        exact { hslot with
          net := fun _ => .inr fun k hk => by
            obtain rfl : r = k := Option.some.inj (hr.symm.trans hk)
            simp [State.setSlice] }
      · exact keepsRound_net _ (by simp)
    · exact keepsRound_net _ (by simp)
  | freeLoop =>
    simp only [netStep, hpc, Option.some.injEq] at hstep
    subst hstep
    split
    · have hslot := keepsRound_setSlice (i := pcGetProducerPosition s.freeSlicesPc)
        ({ s.slices (pcGetProducerPosition s.freeSlicesPc) with state := .free })
        (KeepsRound.rfl (s := s)) (by simp)
      split <;> exact { hslot with }
    · exact { keepsRound_net (s := s) .shift (by simp) with
        rexmitSlice := by simp
        net := by simp
        network := ⟨[], rfl, by simp, by simp⟩
        slices := by simp }

/-- `makeSlice` and the FEC thread keep the round. -/
theorem cutterStep_keepsRound (hinv : Inv s) (hstep : cutterStep s = some s') : KeepsRound s s' := by
  cases hpc : s.cutter with
  | idle => simp [cutterStep, hpc] at hstep
  | consumeSlot =>
    simp only [cutterStep, hpc, Option.map_eq_some_iff] at hstep
    obtain ⟨n, -, rfl⟩ := hstep
    exact { KeepsRound.rfl (s := s) with }
  | consumedSlot =>
    have hslot := keepsRound_setSlice (i := pcGetConsumerPosition s.freeSlicesPc)
        (.zero (s.slices (pcGetConsumerPosition s.freeSlicesPc)).fecData)
      (KeepsRound.rfl (s := s)) (by simp [Slice.zero])
    simp only [cutterStep, hpc] at hstep
    split at hstep
    · obtain rfl := Option.some.inj hstep
      exact { hslot with }
    · obtain rfl := Option.some.inj hstep
      exact { KeepsRound.rfl (s := s) with }
  | consumeData i =>
    obtain ⟨hfree, -⟩ := hinv.making_free (.inl hpc)
    simp only [cutterStep, hpc, Option.map_eq_some_iff] at hstep
    obtain ⟨n, -, rfl⟩ := hstep
    have hslot := keepsRound_setSlice (i := i) ({ s.slices i with
        base := pcGetConsumerPosition s.data, sliceNo := s.sliceNo
        bytes := sliceBytes s.config n }) (KeepsRound.rfl (s := s))
      fun r _ _ hstate => by rw [hfree] at hstate; cases hstate
    exact { hslot with }
  | consumedData i =>
    have hslot := keepsRound_setSlice (i := i) ({ s.slices i with state := .new })
      (KeepsRound.rfl (s := s)) (by simp)
    have hcuts : s.cuts <+: s.cuts ++ [(s.slices i).bytes] := List.prefix_append _ _
    simp only [cutterStep, hpc, Option.some.injEq] at hstep
    cases hfec : s.config.fec with
    | true =>
      rw [if_pos (by exact hfec)] at hstep
      subst hstep
      exact { hslot with cuts := hcuts }
    | false =>
      rw [if_neg (by simp [State.setSlice, hfec])] at hstep
      have hmaking : s.net = .making := by
        by_contra hne
        exact absurd ((hinv.net.cutter_notFec hfec).mpr hne) (by simp [State.ring, hpc])
      have hnone : s.xmitSlice = none := hinv.net.making (.inl hmaking)
      subst hstep
      exact { hslot with
        cuts := hcuts
        current := by rw [State.current, State.current, hnone]; rfl
        net := by simp }
  | encode i =>
    simp only [cutterStep, hpc, Option.some.injEq] at hstep
    subst hstep
    split
    · rename_i fecData _
      have hslot := keepsRound_setSlice (i := i) ({ s.slices i with fecData := fecData })
        (KeepsRound.rfl (s := s)) fun r _ heq hstate => ⟨heq ▸ hstate, heq ▸ ⟨rfl, rfl, rfl, rfl⟩⟩
      exact { hslot with }
    · exact { KeepsRound.rfl (s := s) with }
  | produceFec =>
    simp only [cutterStep, hpc, Option.some.injEq] at hstep
    subst hstep
    split <;> exact { KeepsRound.rfl (s := s) with }

end Frame

section Invariant

/-- The round of slice `j` in slot `r`. -/
structure Round (t : Retransmission) (r j : ℕ) : Prop where
  asked : ∀ i, (t.sender.slices r).rxmitMap i = true ↔ ∃ map ∈ t.accepted, map i = false
  again : ∀ i, (t.sender.slices r).isXmittedMap i = true → (t.sender.slices r).rxmitMap i = true
  /-- The blocks in `isXmittedMap` have been sent, each once. -/
  resent : ∃ blocks : List ℕ, t.sender.resent j = blocks.map (t.sender.dataPacket j) ∧
    blocks.Nodup ∧ ∀ i, i ∈ blocks ↔ i < blockCount t.sender.config (t.sender.cuts.getD j 0) ∧
      (t.sender.slices r).isXmittedMap i = true
  served : (t.sender.slices r).needRxmit = false →
    ∀ i < blockCount t.sender.config (t.sender.cuts.getD j 0),
      (t.sender.slices r).rxmitMap i = true → (t.sender.slices r).isXmittedMap i = true
  unserved : t.unserved = false → (t.sender.slices r).needRxmit = false

/-- The rounds against the notes. -/
structure Rounds (t : Retransmission) : Prop where
  freeing : t.sender.net = .freeLoop →
    ∀ r ∈ t.sender.rexmitSlice, (t.sender.slices r).state ≠ .xmitted
  /-- A REQACK is sent only for slices whose first transmission is over. -/
  reqacks : ∀ m ∈ t.sender.network, ∀ j, reqackNo m = some j → j < t.sender.current
  round : ∀ r ∈ t.sender.rexmitSlice, (t.sender.slices r).state = .xmitted → ∀ j,
    (t.sender.slices r).sliceNo = j → t.sender.round = some j → Round t r j

/-- Messages that are not REQACKs start no round. -/
theorem findSome_append_none {ms l : List ServerMsg} (hnone : ∀ m ∈ ms, reqackNo m = none) :
    (ms ++ l).findSome? reqackNo = l.findSome? reqackNo := by
  rw [List.findSome?_append, List.findSome?_eq_none_iff.mpr hnone, Option.none_or]

/-- They are what is sent again in the round. -/
theorem resent_append {ms : List ServerMsg} (hnone : ∀ m ∈ ms, reqackNo m = none)
    (hnetwork : s'.network = ms ++ s.network) :
    s'.resent j = s.resent j ++ (packets ms).filter fun p => p.sliceNo = j := by
  rw [State.resent, State.resent, hnetwork, List.takeWhile_append_of_pos fun m hm => by
    rw [hnone m hm]; rfl, packets_append, List.filter_append]

/-- A step that keeps the round keeps what is said about it. -/
theorem rounds_keeps (hinv : Inv t.sender) (h : Rounds t) (hkeeps : KeepsRound t.sender s') :
    Rounds { t with sender := s' } := by
  obtain ⟨ms, hnetwork, hnone, hother⟩ := hkeeps.network
  refine ⟨fun hnet r hr hstate => ?_, fun m hm k hk => ?_, fun r hr hstate j hno hround => ?_⟩
  · rcases hkeeps.net hnet with hold | hnot
    · exact h.freeing hold r (hkeeps.rexmitSlice r hr) (hkeeps.slices r hr hstate).1
    · exact hnot r hr hstate
  · dsimp only at hm ⊢
    rw [hnetwork] at hm
    rw [hkeeps.current]
    rcases List.mem_append.mp hm with hnew | hold
    · rw [hnone m hnew] at hk
      cases hk
    · exact h.reqacks m hold k hk
  · dsimp only at hr hstate hno hround
    have hr' := hkeeps.rexmitSlice r hr
    obtain ⟨hstate', hnotes⟩ := hkeeps.slices r hr hstate
    have hno' : (t.sender.slices r).sliceNo = j := hnotes.sliceNo.symm.trans hno
    rw [State.round, hnetwork, findSome_append_none hnone] at hround
    have hold := h.round r hr' hstate' j hno' hround
    have hnet : t.sender.net ≠ .freeLoop := fun hnet => h.freeing hnet r hr' hstate'
    obtain ⟨hfreed, hlt, -, -⟩ := hinv.rexmit_holds hnet hr' hstate'
    have hlength : t.sender.taken ≤ t.sender.cuts.length := le_of_add_le_left hinv.ring.taken_le
    have hsame := hkeeps.samePackets (j := j) (by rw [State.current] at hlt; omega)
    have hresent : s'.resent j = t.sender.resent j := by
      rw [resent_append hnone hnetwork, List.filter_eq_nil_iff.mpr fun p hp => by
        simpa [hno'] using hother r hr p hp, List.append_nil]
    have hblocks : blockCount s'.config (s'.cuts.getD j 0) =
        blockCount t.sender.config (t.sender.cuts.getD j 0) := hsame.blockCount
    refine ⟨?_, ?_, ?_, ?_, ?_⟩
    · dsimp only
      rw [hnotes.rxmitMap]
      exact hold.asked
    · dsimp only
      rw [hnotes.rxmitMap, hnotes.isXmittedMap]
      exact hold.again
    · dsimp only
      rw [hresent, hblocks, hsame.dataPacket, hnotes.isXmittedMap]
      exact hold.resent
    · dsimp only
      rw [hblocks, hnotes.rxmitMap, hnotes.isXmittedMap, hnotes.needRxmit]
      exact hold.served
    · dsimp only
      rw [hnotes.needRxmit]
      exact hold.unserved

/-- Steps that send no REQACK, accept no request and are no pass change no note. -/
theorem note_eq {ms : List ServerMsg} (hnetwork : s'.network = ms ++ t.sender.network)
    (hnone : ∀ m ∈ ms, reqackNo m = none) (hnet : t.sender.net ≠ .messages)
    (hnet' : t.sender.net ≠ .retransmit) : t.note s' = { t with sender := s' } := by
  have hnew : newMessages t.sender s' = ms := by simp [newMessages, hnetwork]
  unfold Retransmission.note
  rw [hnew, if_neg (by simpa using hnone)]
  cases hpc : t.sender.net <;> first | rfl | exact absurd hpc hnet | exact absurd hpc hnet'

/-- So does a step that is noted but neither handles a message nor sends again. -/
theorem rounds_note (hinv : Inv t.sender) (h : Rounds t) (hkeeps : KeepsRound t.sender s')
    (hnet : t.sender.net ≠ .messages) (hnet' : t.sender.net ≠ .retransmit) :
    Rounds (t.note s') := by
  obtain ⟨ms, hnetwork, hnone, -⟩ := hkeeps.network
  rw [note_eq hnetwork hnone hnet hnet']
  exact rounds_keeps hinv h hkeeps

/-- A new round starts, or in async mode none. -/
theorem rounds_sendReqack (hinv : Inv s) (h : Rounds { t with sender := s })
    (hnetwork : s.network = t.sender.network) (hnet : t.sender.net ≠ .messages)
    (hnet' : t.sender.net ≠ .retransmit) (hloop : s.net ≠ .freeLoop) (hr : s.rexmitSlice = some r)
    (hlt : (s.slices r).sliceNo < s.current) : Rounds (t.note (sendReqack s r)) := by
  unfold sendReqack
  dsimp only
  split
  · have hkeeps := keepsRound_ackSlice (KeepsRound.rfl (s := s)) r
    have hsame : (ackSlice s r).network = s.network := by
      unfold ackSlice
      dsimp only
      split
      · rfl
      · split <;> rfl
    rw [note_eq (show (ackSlice s r).network = [] ++ t.sender.network from hsame.trans hnetwork)
      (by simp) hnet hnet']
    exact rounds_keeps (t := { t with sender := s }) hinv h hkeeps
  · split
    · rw [note_eq (show s.network = [] ++ t.sender.network from hnetwork) (by simp) hnet hnet']
      exact h
    · have hreset : ∀ s' : State, (∃ m, reqackNo m = some (s.slices r).sliceNo ∧
          s'.network = m :: s.network) → t.note s' = ⟨s', [], false⟩ := by
        rintro s' ⟨m, hm, hs'⟩
        unfold Retransmission.note
        rw [if_pos (by simp [newMessages, hs', hnetwork, hm])]
      rw [hreset _ ⟨_, rfl, rfl⟩]
      refine ⟨fun hn => absurd hn hloop, fun m hm k hk => ?_, fun k hk _ j hno hround => ?_⟩
      · rcases List.mem_cons.mp hm with rfl | hold
        · obtain rfl := Option.some.inj hk
          exact hlt
        · exact h.reqacks m hold k hk
      · obtain rfl : r = k := Option.some.inj (hr.symm.trans hk)
        have hresent : (State.resent (State.setSlice { s with
            config := shrinkSliceSize s.config (s.slices r)
            network := .reqack (s.slices r).sliceNo (s.slices r).bytes (s.slices r).rxmitId
              (s.slices r).readySet :: s.network } r (startRound (s.slices r))) j) = [] := by
          simp [State.resent, State.setSlice, reqackNo, packets]
        refine ⟨?_, ?_, ⟨[], hresent, List.nodup_nil, ?_⟩, ?_, fun _ => ?_⟩ <;>
          simp [State.setSlice, startRound]

/-- A slice enters the slot for retransmissions with its first round. -/
theorem rounds_shift (hinv : Inv t.sender) (h : Rounds t) (hpc : t.sender.net = .shift)
    (hstep : netStep t.sender = some s') : Rounds (t.note s') := by
  obtain ⟨s, accepted, unserved⟩ := t
  dsimp only at hinv hpc hstep
  have hplain : s.net.Plain := by rw [hpc]; trivial
  have hstay : Rounds (Retransmission.note ⟨s, accepted, unserved⟩ { s with net := .messages }) :=
    rounds_note hinv h (keepsRound_net _ (by simp)) (by simp [hpc]) (by simp [hpc])
  simp only [netStep, hpc, Option.some.injEq] at hstep
  subst hstep
  split
  · rename_i x hr hx
    split
    · have hinvMove : Inv { s with net := .messages } :=
        hinv.move ⟨rfl, rfl, rfl, rfl, rfl, rfl, rfl, hinv.noOverflow⟩ hplain trivial
      have hnet := hinvMove.net
      simp only [hr, hx] at hnet
      have hshift : Inv { s with net := .messages, rexmitSlice := some x, xmitSlice := none } :=
        ⟨hinv.ring, hnet.shift trivial, { hinvMove.ret with }, hinv.noOverflow⟩
      have hlength : s.taken ≤ s.cuts.length := le_of_add_le_left hinv.ring.taken_le
      obtain ⟨j, hj, -, hholds⟩ := hinv.xmit_holds hx
      have hno : (s.slices x).sliceNo = j := hholds.sliceNo_eq (by omega)
      have hcurrent : s.current = j := by
        rw [State.current, hx, hj]
        rfl
      refine rounds_sendReqack hshift
        ⟨by simp, fun m hm k hk => ?_, fun r hr' hstate k hk hround => ?_⟩
        rfl (by simp [hpc]) (by simp [hpc]) (by simp) rfl ?_
      · have hlt : k < s.current := h.reqacks m hm k hk
        change k < s.taken - 0
        omega
      · obtain rfl : x = r := Option.some.inj hr'
        obtain ⟨m, hm, hm'⟩ := List.exists_of_findSome?_eq_some hround
        have hlt : k < s.current := h.reqacks m hm k hm'
        have hk' : (s.slices x).sliceNo = k := hk
        omega
      · change (s.slices x).sliceNo < s.taken - 0
        omega
    · exact hstay
  · exact hstay

/-- The REQACK of the next round, after all answers or a timeout. -/
theorem rounds_nextRound (hinv : Inv t.sender) (h : Rounds t) {net : NetPc}
    (hnet : net.Plain) (hpc : t.sender.net = .reqack ∨ t.sender.net = .timeout)
    (hr : t.sender.rexmitSlice = some r) :
    Rounds (t.note (sendReqack ({ t.sender with net := net }.setSlice r
      { t.sender.slices r with rxmitId := (t.sender.slices r).rxmitId + 1 }) r)) := by
  have hplain : t.sender.net.Plain := by rcases hpc with hpc | hpc <;> rw [hpc] <;> trivial
  have hslot : KeepsRound t.sender ({ t.sender with net := net }.setSlice r
      { t.sender.slices r with rxmitId := (t.sender.slices r).rxmitId + 1 }) :=
    keepsRound_setSlice _ (keepsRound_net _ hnet.ne.1) fun k _ heq hstate =>
      ⟨heq ▸ hstate, heq ▸ ⟨rfl, rfl, rfl, rfl⟩⟩
  have hmove : Inv { t.sender with net := net } :=
    hinv.move ⟨rfl, rfl, rfl, rfl, rfl, rfl, rfl, hinv.noOverflow⟩ hplain hnet
  refine rounds_sendReqack (inv_setSlice hmove hnet rfl) (rounds_keeps hinv h hslot) rfl
    (by rcases hpc with hpc | hpc <;> simp [hpc]) (by rcases hpc with hpc | hpc <;> simp [hpc])
    hnet.ne.1 hr ?_
  have hrexmit : r = t.sender.freed % 2 := hinv.net.rexmit_eq hplain.ne.1 r hr
  have htaken : t.sender.taken = t.sender.freed + slotCount t.sender.rexmitSlice +
      slotCount t.sender.xmitSlice := hinv.net.taken_eq hplain.ne.1
  have hcount : slotCount t.sender.rexmitSlice = 1 := by rw [hr]; rfl
  have hlength : t.sender.taken ≤ t.sender.cuts.length := le_of_add_le_left hinv.ring.taken_le
  have hholds := hinv.ring.slots t.sender.freed le_rfl
    (show t.sender.freed < t.sender.freed + 2 by omega)
  have hno : (t.sender.slices (t.sender.freed % 2)).sliceNo = t.sender.freed :=
    hholds.sliceNo_eq (show t.sender.freed < t.sender.cuts.length by omega)
  simp only [State.setSlice, Function.update_self, State.current]
  rw [hrexmit, hno]
  omega

/-- Notes that leave map and round of the slice keep the round. -/
theorem keepsRound_modifySlice (slot : Option ℕ) (h : KeepsRound s s') {f : Slice → Slice}
    (hstate : ∀ slice, (f slice).state = slice.state)
    (hf : ∀ r ∈ s'.rexmitSlice, r ∈ slot → SameNotes (s'.slices r) (f (s'.slices r))) :
    KeepsRound s (s'.modifySlice slot f) := by
  cases slot with
  | none => exact h
  | some i =>
    exact keepsRound_setSlice _ h fun r hr heq hxmitted => by
      subst heq
      exact ⟨(hstate _).symm.trans hxmitted, hf r hr rfl⟩

section Answers

variable {slice : Slice} {clNo : ℕ}

/-- An answer leaves map and round. -/
theorem sameNotes_markParticipantAnswered (slice : Slice) (clNo : ℕ) :
    SameNotes slice (markParticipantAnswered slice clNo) := by
  unfold markParticipantAnswered
  split <;> exact ⟨rfl, rfl, rfl, rfl⟩

/-- An OK leaves them. -/
theorem sameNotes_markOk : SameNotes slice (markOk slice clNo) := by
  unfold markOk
  split
  · exact .refl _
  · have hanswered := sameNotes_markParticipantAnswered { slice with
      readySet := insert clNo slice.readySet, nrReady := slice.nrReady + 1 } clNo
    exact { hanswered with }

/-- A participant that leaves does so too. -/
theorem sameNotes_forgetClient : SameNotes slice (forgetClient slice clNo) := by
  unfold forgetClient
  dsimp only
  split <;> split <;> exact ⟨rfl, rfl, rfl, rfl⟩

end Answers

/-- Messages other than requests for the slice leave the round alone. -/
theorem handleMessage_keepsRound (h : KeepsRound s s') {clNo : ℕ} {msg : ClientMsg}
    (hrequest : ∀ sliceNo rxmit map, msg = .retransmit sliceNo rxmit map → clNo ∈ s'.db.used →
      ∀ r ∈ s'.rexmitSlice, r ∈ findSlice s' sliceNo →
        (rawField s'.config.bigEndian rxmit).toInt < (s'.slices r).rxmitId) :
    KeepsRound s (handleMessage s' clNo msg) := by
  have hcore : ∀ {slice slice' : Slice}, slice'.core = slice.core → slice'.state = slice.state :=
    congrArg SliceCore.state
  cases msg with
  | ok sliceNo =>
    simp only [handleMessage]
    split
    · exact keepsRound_modifySlice _ h (fun _ => hcore markOk_core) fun _ _ _ => sameNotes_markOk
    · exact h
  | retransmit sliceNo rxmit map =>
    simp only [handleMessage]
    split
    · rename_i hused
      refine keepsRound_modifySlice _ h (fun _ => hcore markRetransmit_core) fun r hr hslot => ?_
      unfold markRetransmit
      rw [if_pos (hrequest sliceNo rxmit map rfl hused r hr hslot)]
      exact .refl _
    · exact h
  | disconnect =>
    have hforget : ∀ s'' : State, KeepsRound s s'' → ∀ slot,
        KeepsRound s (s''.modifySlice slot (forgetClient · clNo)) := fun s'' h' slot =>
      keepsRound_modifySlice slot h' (fun _ => hcore forgetClient_core) fun _ _ _ =>
        sameNotes_forgetClient
    have hboth := hforget _ (hforget _ h s'.xmitSlice) s'.rexmitSlice
    exact { hboth with }
  | other => exact h

/-- A message is noted when it asks for blocks. -/
theorem note_messages (hpc : t.sender.net = .messages) (hnetwork : s'.network = t.sender.network) :
    t.note s' = match t.sender.request with
      | some map => ⟨s', map :: t.accepted, true⟩
      | none => { t with sender := s' } := by
  have hnew : newMessages t.sender s' = [] := by simp [newMessages, hnetwork]
  unfold Retransmission.note
  rw [hnew, if_neg (by simp), hpc]

/-- What an accepted request is. -/
theorem request_eq_some {map : ℕ → Bool} (h : s.request = some map) :
    ∃ clNo sliceNo rxmit rest r, s.incoming = (clNo, .retransmit sliceNo rxmit map) :: rest ∧
      s.rexmitSlice = some r ∧ clNo ∈ s.db.used ∧ findSlice s sliceNo = some r ∧
      ¬ (rawField s.config.bigEndian rxmit).toInt < (s.slices r).rxmitId := by
  unfold State.request at h
  split at h
  · rename_i clNo sliceNo rxmit map' rest r hincoming hr
    obtain ⟨⟨hused, hfind, hid⟩, hmap⟩ := Option.ite_none_right_eq_some.mp h
    obtain rfl := Option.some.inj hmap
    exact ⟨clNo, sliceNo, rxmit, rest, r, hincoming, hr, hused, hfind, hid⟩
  · cases h

/-- A RETRANSMIT adds what it lacks to the map of the round. -/
theorem rounds_messages (hinv : Inv t.sender) (h : Rounds t) (hpc : t.sender.net = .messages)
    (hstep : netStep t.sender = some s') : Rounds (t.note s') := by
  obtain ⟨s, accepted, unserved⟩ := t
  dsimp only at hinv hpc hstep
  have hplain : s.net.Plain := by rw [hpc]; trivial
  have hmove : KeepsRound s { s with net := .messageDone } := keepsRound_net _ (by simp)
  simp only [netStep, hpc, Option.some.injEq] at hstep
  cases hrequest : s.request with
  | none =>
    have hkeeps : KeepsRound s s' ∧ s'.network = s.network := by
      subst hstep
      split
      · exact ⟨keepsRound_net _ (by simp), rfl⟩
      · rename_i clNo msg rest hincoming
        obtain ⟨slices, db, heq, -⟩ :=
          handleMessage_frame (s := { s with net := .messageDone }) clNo msg
        refine ⟨handleMessage_keepsRound hmove ?_, by rw [heq]⟩
        rintro sliceNo rxmit map rfl hused r hr hfind
        have hr : s.rexmitSlice = some r := hr
        by_contra hid
        have hsome : s.request = some map := by
          rw [State.request, hincoming, hr]
          exact if_pos ⟨hused, hfind, hid⟩
        rw [hrequest] at hsome
        cases hsome
    rw [note_messages hpc hkeeps.2]
    simp only [hrequest]
    exact rounds_keeps hinv h hkeeps.1
  | some map =>
    obtain ⟨clNo, sliceNo, rxmit, rest, r, hincoming, hr, hused, hfind, hid⟩ :=
      request_eq_some hrequest
    have hstep : handleMessage { s with net := .messageDone } clNo (.retransmit sliceNo rxmit map) =
        s' := by
      split at hstep
      · rename_i hnil
        rw [hincoming] at hnil
        cases hnil
      · rename_i hcons
        rw [hincoming] at hcons
        cases hcons
        exact hstep
    have hfind' : findSlice { s with net := .messageDone } sliceNo = some r := hfind
    simp only [handleMessage, if_pos hused, hfind', State.modifySlice, markRetransmit,
      if_neg hid] at hstep
    have hnetwork : s'.network = s.network := by
      rw [← hstep]
      rfl
    rw [note_messages hpc hnetwork]
    simp only [hrequest]
    subst hstep
    refine ⟨fun hloop => (by cases hloop), h.reqacks, fun k hk hstate j hno hround => ?_⟩
    obtain rfl : r = k := Option.some.inj (hr.symm.trans hk)
    have hnotes := sameNotes_markParticipantAnswered { s.slices r with
      rxmitMap := fun i => (s.slices r).rxmitMap i || !map i, needRxmit := true } clNo
    have hcore : (markParticipantAnswered { s.slices r with
        rxmitMap := fun i => (s.slices r).rxmitMap i || !map i, needRxmit := true } clNo).core =
        (s.slices r).core := markParticipantAnswered_core
    simp only [State.setSlice, Function.update_self] at hstate hno
    have hold := h.round r hr ((congrArg SliceCore.state hcore).symm.trans hstate) j
      (hnotes.sliceNo.symm.trans hno) hround
    refine ⟨fun i => ?_, fun i hi => ?_, ?_, fun hneed => ?_, by simp⟩
    · simp only [State.setSlice, Function.update_self, hnotes.rxmitMap, Bool.or_eq_true,
        Bool.not_eq_true', List.exists_mem_cons_iff, or_comm (a := map i = false)]
      exact or_congr_left (hold.asked i)
    · simp only [State.setSlice, Function.update_self, hnotes.rxmitMap, hnotes.isXmittedMap] at hi ⊢
      rw [show (s.slices r).rxmitMap i = true from hold.again i hi, Bool.true_or]
    · simp only [State.setSlice, Function.update_self, hnotes.isXmittedMap]
      exact hold.resent
    · simp only [State.setSlice, Function.update_self, hnotes.needRxmit] at hneed
      cases hneed

/-- The round is served when the retransmission comes to its end. -/
theorem note_retransmit (hpc : t.sender.net = .retransmit) {ms : List ServerMsg}
    (hnetwork : s'.network = ms ++ t.sender.network) (hnone : ∀ m ∈ ms, reqackNo m = none) :
    t.note s' = if s'.net = .loopTest ∧ s'.failure = none then
      { t with sender := s', unserved := false } else { t with sender := s' } := by
  have hnew : newMessages t.sender s' = ms := by simp [newMessages, hnetwork]
  unfold Retransmission.note
  rw [hnew, if_neg (by simpa using hnone), hpc]

/-- Nothing is said about a slice that is not `SLICE_XMITTED`. -/
theorem rounds_of_ne {accepted : List (ℕ → Bool)} {unserved : Bool} (h : Rounds t)
    (hnetwork : s'.network = t.sender.network) (hcurrent : s'.current = t.sender.current)
    (hstate : ∀ r ∈ s'.rexmitSlice, (s'.slices r).state ≠ .xmitted) :
    Rounds ⟨s', accepted, unserved⟩ where
  freeing := fun _ => hstate
  reqacks := by
    dsimp only
    rw [hnetwork, hcurrent]
    exact h.reqacks
  round := fun r hr hxmitted => absurd hxmitted (hstate r hr)

/-- A pass sends what is asked for and not yet sent again. -/
theorem rounds_pass (hinv : Inv t.sender) (h : Rounds t) (hnet : t.sender.net ≠ .freeLoop)
    (hr : t.sender.rexmitSlice = some r) (hstate : (t.sender.slices r).state = .xmitted)
    {slice : Slice} {ms : List ServerMsg} (net : NetPc) (hnet' : net ≠ .freeLoop)
    (hsend : sendSliceAgain t.sender (t.sender.slices r) = some (slice, ms)) (unserved : Bool) :
    (∀ m ∈ ms, reqackNo m = none) ∧ Rounds
      ⟨{ t.sender with net := net, network := ms ++ t.sender.network }.setSlice r slice,
        t.accepted, unserved⟩ := by
  obtain ⟨s, accepted, old⟩ := t
  dsimp only at hinv hnet hr hstate hsend ⊢
  have hlength : s.taken ≤ s.cuts.length := le_of_add_le_left hinv.ring.taken_le
  obtain ⟨hno, hlt, hacked, hholds⟩ := hinv.rexmit_holds hnet hr hstate
  have hfreed : s.freed < s.cuts.length := by rw [State.current] at hlt; omega
  have hbytes : (s.slices r).bytes = s.cuts.getD s.freed 0 := hholds.bytes_eq hfreed
  have hcount : getSliceBlocks (s.slices r) s.config =
      blockCount s.config (s.cuts.getD s.freed 0) := by
    rw [← hbytes]
    rfl
  simp only [sendSliceAgain, hstate, ne_eq, not_true_eq_false, if_false, hcount] at hsend
  obtain ⟨⟨mid, sent⟩, hloop, hlast⟩ := Option.map_eq_some_iff.mp hsend
  obtain ⟨rfl, rfl⟩ := Prod.mk.inj hlast
  obtain ⟨hcut, hmap, hpackets, hnone⟩ := retransmitBlocks_spec hinv hacked hfreed hno hbytes
    (hholds.base_eq hfreed) le_rfl hloop
  refine ⟨hnone, fun hn => absurd hn hnet', fun m hm k hk => ?_, fun k hk _ j hj hround => ?_⟩
  · rcases List.mem_append.mp hm with hnew | hold
    · rw [hnone m hnew] at hk
      cases hk
    · exact h.reqacks m hold k hk
  · obtain rfl : r = k := Option.some.inj (hr.symm.trans hk)
    simp only [State.setSlice, Function.update_self] at hj
    obtain rfl : s.freed = j := hno.symm.trans (hcut.sliceNo.symm.trans hj)
    rw [State.round, State.setSlice, findSome_append_none hnone] at hround
    have hold := h.round r hr hstate _ hno hround
    obtain ⟨blocks, hresent, hnodup, hmem⟩ := hold.resent
    dsimp only at hresent hmem
    have hwanted : ∀ i, i ∈ (s.slices r).wanted (blockCount s.config (s.cuts.getD s.freed 0)) ↔
        i < blockCount s.config (s.cuts.getD s.freed 0) ∧ (s.slices r).rxmitMap i = true ∧
          (s.slices r).isXmittedMap i = false := by simp [Slice.wanted]
    refine ⟨?_, fun i hi => ?_, ⟨blocks ++ (s.slices r).wanted
        (blockCount s.config (s.cuts.getD s.freed 0)), ?_, ?_, fun i => ?_⟩,
      fun _ i hi hasked => ?_, fun _ => ?_⟩
    · simp only [State.setSlice, Function.update_self, hcut.rxmitMap]
      exact hold.asked
    · simp only [State.setSlice, Function.update_self, hcut.rxmitMap, hmap, Bool.or_eq_true,
        Bool.and_eq_true] at hi ⊢
      rcases hi with hold' | ⟨-, hasked⟩
      · exact hold.again i hold'
      · exact hasked
    · rw [resent_append hnone rfl, hpackets, List.map_append,
        List.filter_eq_self.mpr fun p hp => by
          obtain ⟨i, -, rfl⟩ := List.mem_map.mp hp
          simp [State.dataPacket, Packet.sliceNo]]
      exact congrArg (· ++ _) hresent
    · refine List.Nodup.append hnodup ((List.nodup_range).filter _) fun i hi hi' => ?_
      have hsent := ((hmem i).mp hi).2
      rw [((hwanted i).mp hi').2.2] at hsent
      cases hsent
    · simp only [State.setSlice, Function.update_self, hmap, List.mem_append, hmem, hwanted,
        Bool.or_eq_true, Bool.and_eq_true, decide_eq_true_eq]
      by_cases hsent : (s.slices r).isXmittedMap i = true
      · simp [hsent]
      · simp only [hsent, Bool.not_eq_true] at hsent ⊢
        simp
    · have hi : i < blockCount s.config (s.cuts.getD s.freed 0) := hi
      simp only [State.setSlice, Function.update_self, hcut.rxmitMap, hmap] at hasked ⊢
      rw [hasked, decide_eq_true hi, Bool.true_and, Bool.or_true]
    · simp [State.setSlice]

/-- A retransmission sends the next block that the map asks for. -/
theorem rounds_retransmit (hinv : Inv t.sender) (h : Rounds t) (hpc : t.sender.net = .retransmit)
    (hstep : netStep t.sender = some s') : Rounds (t.note s') := by
  have hloop : t.sender.net ≠ .freeLoop := by simp [hpc]
  have hskip : Rounds (t.note { t.sender with net := .reqack }) := by
    rw [note_retransmit hpc (show ({ t.sender with net := .reqack } : State).network =
      [] ++ t.sender.network from rfl) (by simp), if_neg (by simp)]
    exact rounds_keeps hinv h (keepsRound_net _ (by simp))
  have hquiet : ∀ s' : State, s'.network = t.sender.network → s'.current = t.sender.current →
      (∀ r ∈ s'.rexmitSlice, (s'.slices r).state ≠ .xmitted) → Rounds (t.note s') := by
    intro s' hnetwork hcurrent hstate
    rw [note_retransmit hpc (show s'.network = [] ++ t.sender.network from hnetwork) (by simp)]
    split <;> exact rounds_of_ne h hnetwork hcurrent hstate
  simp only [netStep, hpc, Option.some.injEq] at hstep
  subst hstep
  split
  · rename_i r hr
    split
    · have hother : (t.sender.slices r).state ≠ .xmitted → ∀ k ∈ t.sender.rexmitSlice,
          (t.sender.slices k).state ≠ .xmitted := fun hne k hk => by
        obtain rfl : r = k := Option.some.inj (hr.symm.trans hk)
        exact hne
      unfold doRetransmissions
      dsimp only
      split
      · rename_i hacked
        exact hquiet _ rfl rfl (hother (by simp [hacked]))
      · split
        · rename_i slice ms hsend
          have hsend : sendSliceAgain t.sender (t.sender.slices r) = some (slice, ms) := hsend
          by_cases hstate : (t.sender.slices r).state = .xmitted
          · have hpass := rounds_pass hinv h hloop hr hstate .loopTest (by simp) hsend
            have hnote := note_retransmit hpc (show (State.setSlice { t.sender with
              net := .loopTest, network := ms ++ t.sender.network } r slice).network =
                ms ++ t.sender.network from rfl) (hpass false).1
            rw [hnote]
            split
            · exact (hpass false).2
            · exact (hpass t.unserved).2
          · rw [sendSliceAgain, if_pos hstate] at hsend
            obtain ⟨rfl, rfl⟩ := Prod.mk.inj (Option.some.inj hsend)
            refine hquiet _ rfl rfl fun k hk => ?_
            obtain rfl : r = k := Option.some.inj (hr.symm.trans hk)
            simpa [State.setSlice] using hstate
        · rw [note_retransmit hpc (show (State.fail { t.sender with net := .loopTest }
            .assertion).network = [] ++ t.sender.network from rfl) (by simp),
            if_neg (by simp [State.fail])]
          exact rounds_keeps hinv h { keepsRound_net (s := t.sender) .loopTest (by simp) with }
    · exact hskip
  · exact hskip

/-- Every step keeps what is said about the round. -/
theorem rounds_retransmitAct {a : Action} {t' : Retransmission} (hinv : Inv t.sender) (h : Rounds t)
    (hact : retransmitAct t a = some t') : Rounds t' := by
  obtain ⟨s, hs, rfl⟩ := Option.map_eq_some_iff.mp hact
  simp only [act, Option.ite_none_right_eq_some] at hs
  obtain ⟨-, hs⟩ := hs
  cases a with
  | reader n =>
    apply rounds_keeps hinv h
    rw [readerStep_frame hs]
    exact { KeepsRound.rfl (s := t.sender) with }
  | cutter => exact rounds_keeps hinv h (cutterStep_keepsRound hinv hs)
  | timeout =>
    obtain ⟨-, hs⟩ := Option.ite_none_right_eq_some.mp hs
    obtain rfl := Option.some.inj hs
    exact rounds_keeps hinv h (keepsRound_net _ (by simp))
  | receive clNo msg =>
    cases hpc : t.sender.returnChannel with
    | produce _ _ => simp [receiveStep, hpc] at hs
    | receive =>
      simp only [receiveStep, hpc, Option.ite_none_right_eq_some, Option.map_eq_some_iff] at hs
      obtain ⟨-, n, -, rfl⟩ := hs
      exact rounds_keeps hinv h { KeepsRound.rfl (s := t.sender) with }
  | announce =>
    cases hpc : t.sender.returnChannel with
    | receive => simp [announceStep, hpc] at hs
    | produce clNo msg =>
      simp only [announceStep, hpc, Option.some.injEq] at hs
      have hkeeps : KeepsRound t.sender s := by
        subst hs
        split <;> exact { KeepsRound.rfl (s := t.sender) with }
      exact rounds_keeps hinv h hkeeps
  | net =>
    have hstep : netStep t.sender = some s := hs
    dsimp only
    by_cases hother : t.sender.net ≠ .shift ∧ t.sender.net ≠ .messages ∧
        t.sender.net ≠ .retransmit ∧ t.sender.net ≠ .reqack ∧ t.sender.net ≠ .timeout
    · exact rounds_note hinv h (netStep_keepsRound hinv hstep hother) hother.2.1 hother.2.2.1
    · cases hpc : t.sender.net with
      | shift => exact rounds_shift hinv h hpc hstep
      | messages => exact rounds_messages hinv h hpc hstep
      | retransmit => exact rounds_retransmit hinv h hpc hstep
      | reqack =>
        have hmove : Rounds (t.note { t.sender with net := .newSlice }) :=
          rounds_note hinv h (keepsRound_net _ (by simp)) (by simp [hpc]) (by simp [hpc])
        simp only [netStep, hpc, Option.some.injEq] at hstep
        subst hstep
        split
        · rename_i r hr
          split
          · exact rounds_nextRound hinv h trivial (.inl hpc) hr
          · exact hmove
        · exact hmove
      | timeout =>
        simp only [netStep, hpc, Option.some.injEq] at hstep
        subst hstep
        have hkeeps : ∀ s' : State, KeepsRound t.sender s' → Rounds (t.note s') := fun s' hkeeps =>
          rounds_note hinv h hkeeps (by simp [hpc]) (by simp [hpc])
        split
        · rename_i r hr
          split
          · obtain ⟨db, exit⟩ := dropClients t.sender.db (t.sender.slices r)
            dsimp only
            split
            · exact hkeeps _ { keepsRound_net (s := t.sender) .exited (by simp) with }
            · exact hkeeps _ { keepsRound_net (s := t.sender) .loopTest (by simp) with }
          · exact rounds_nextRound hinv h trivial (.inr hpc) hr
        · exact hkeeps _ { keepsRound_net (s := t.sender) .exited (by simp) with }
      | _ => simp [hpc] at hother

/-- So it holds at any time. -/
theorem rounds_reachable (h : retransmissionSystem.Reachable t) : Inv t.sender ∧ Rounds t := by
  refine h.invariant (P := fun t => Inv t.sender ∧ Rounds t) ?_ ?_
  · rintro ⟨s, accepted, unserved⟩
      ⟨⟨config, db, input, inputSize, mem, fecData, hconfig, -, hstart⟩, -, -⟩
    refine ⟨inv_start hconfig hstart, ?_⟩
    dsimp only at hstart
    simp only [start, Option.bind_eq_some_iff, Option.map_eq_some_iff] at hstart
    obtain ⟨_, -, _, -, _, -, rfl⟩ := hstart
    exact ⟨by simp, by simp, by simp⟩
  · rintro t t' ⟨hinv, hrounds⟩ ⟨a, hact⟩
    obtain ⟨s, hs, hlast⟩ := Option.map_eq_some_iff.mp hact
    refine ⟨?_, rounds_retransmitAct hinv hrounds hact⟩
    have hnote : (t.note s).sender = s := by
      unfold Retransmission.note
      repeat' split
      all_goals rfl
    have hsender : t'.sender = s := by
      rw [← hlast]
      cases a <;> first | exact hnote | rfl
    rw [hsender]
    exact inv_act hinv hs

end Invariant

end Udpcast.Sender
