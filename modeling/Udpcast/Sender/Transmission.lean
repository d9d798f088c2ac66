import Udpcast.Sender.SliceSize

/-!
# First transmission

What `sendSlice(xmitSlice, 0)` sends over its successive calls. A call goes on with the
block at which the last one was interrupted. The messages are kept beside the sender, for
each slice on their own, and compared with the packets that the slice should give.
-/

namespace Udpcast.Sender

open Fec (Gf)
open Queue
open Protocol

/-- A packet of a slice. The contents of a FEC packet are left out. -/
inductive Packet
  | data (sliceNo blockNo bytes : ℕ) (payload : List Gf)
  | fec (stripes sliceNo blockNo bytes : ℕ)
  deriving DecidableEq

/-- The packet in a message, if it carries a block. -/
def packet : ServerMsg → Option Packet
  | .data sliceNo blockNo bytes payload => some (.data sliceNo blockNo bytes payload)
  | .fec stripes sliceNo blockNo bytes _ => some (.fec stripes sliceNo blockNo bytes)
  | _ => none

/-- The packets among `sent`, which lists the latest message first, in the order of sending. -/
def packets (sent : List ServerMsg) : List Packet := sent.reverse.filterMap packet

/-- The number of blocks of `bytes` bytes. -/
def blockCount (config : NetConfig) (bytes : ℕ) : ℕ :=
  (bytes + config.blockSize - 1) / config.blockSize

/-- Data block `i` of slice `j` carries the bytes of the slice from `i * blockSize` to
`(i + 1) * blockSize` or the end of the slice. -/
def State.dataPacket (s : State) (j i : ℕ) : Packet :=
  let bytes := s.cuts.getD j 0
  let size := min s.config.blockSize (bytes - i * s.config.blockSize)
  .data j i bytes
    ((List.range size).map fun x => s.input (startOf s.cuts j + i * s.config.blockSize + x))

/-- The FEC packets of an empty slice are skipped outside async mode. -/
def State.SkipsFec (s : State) (j : ℕ) : Prop := s.cuts.getD j 0 = 0 ∧ s.config.async = false

instance (s : State) (j : ℕ) : Decidable (s.SkipsFec j) := inferInstanceAs (Decidable (_ ∧ _))

/-- The packets of slice `j`: the data blocks, then the FEC blocks. -/
def State.expected (s : State) (j : ℕ) : List Packet :=
  (List.range (blockCount s.config (s.cuts.getD j 0))).map (s.dataPacket j) ++
    (List.range (if s.SkipsFec j then 0 else fecCount s.config)).map fun i =>
      .fec (htons s.config.fecStripes) j i (s.cuts.getD j 0)

/-- The same with the numbers that `sendSlice` computes: the number of FEC blocks is an `int`,
and each of them is sent with the part of its own number that fits into the packet. -/
def State.numbered (s : State) (j : ℕ) : List Packet :=
  (List.range (blockCount s.config (s.cuts.getD j 0))).map (s.dataPacket j) ++
    (List.range (if s.SkipsFec j then 0 else (fecBlocks s.config).toNat)).map fun i =>
      .fec (htons s.config.fecStripes) j (htons i) (s.cuts.getD j 0)

/-- The numbers of the FEC blocks of slice `j` fit into its packets, if it has any. -/
def State.NumbersFit (s : State) (j : ℕ) : Prop :=
  s.config.fec = true →
    0 ≤ s.config.fecStripes * s.config.fecRedundancy ∧
        s.config.fecStripes * s.config.fecRedundancy ≤ 2 ^ 16 ∨
      s.SkipsFec j ∧ 0 ≤ toInt (s.config.fecRedundancy * s.config.fecStripes)

/-- The number of turns of the loop in `sendSlice` for slice `j`. -/
def State.turns (s : State) (j : ℕ) : ℕ :=
  blockCount s.config (s.cuts.getD j 0) + (fecBlocks s.config).toNat

/-- Slice `j` is in the transmission slot and `SLICE_NEW`. -/
def State.Unsent (s : State) (j : ℕ) : Prop :=
  s.taken = j + 1 ∧ ∃ x ∈ s.xmitSlice, (s.slices x).state = .new

/-- `netSenderMain` is in `sendSlice(xmitSlice, 0)`. -/
def NetPc.InCall : NetPc → Prop
  | .sending _ => True
  | _ => False

/-- The sender with what first transmissions have sent for each slice, latest message
first, and how many calls of `sendSlice(xmitSlice, 0)` have returned. -/
structure Transmission where
  sender : State
  sent : ℕ → List ServerMsg
  calls : ℕ → ℕ

/-- The messages that are new in `s'`. -/
def newMessages (s s' : State) : List ServerMsg :=
  s'.network.take (s'.network.length - s.network.length)

/-- The notes after a step of `netSenderMain` in `sendSlice(xmitSlice, 0)`. -/
def Transmission.note (t : Transmission) (s : State) : Transmission :=
  let j := t.sender.taken - 1
  { sender := s
    sent := Function.update t.sent j (newMessages t.sender s ++ t.sent j)
    calls := match s.net with
      | .sending _ => t.calls
      | _ => Function.update t.calls j (t.calls j + 1) }

def transmitAct (t : Transmission) (a : Action) : Option Transmission :=
  (act t.sender a).map fun s =>
    match a, t.sender.net with
    | .net, .sending _ => t.note s
    | _, _ => { t with sender := s }

/-- The sender with empty notes at the start. -/
def transmissionSystem : System Transmission :=
  .ofActions (fun t => system.Init t.sender ∧ (∀ j, t.sent j = []) ∧ ∀ j, t.calls j = 0) transmitAct

/-- The first transmission of slice `j`, which has been taken for it. -/
structure SentOnce (t : Transmission) (j : ℕ) : Prop where
  /-- The packets come in order, each of them once. -/
  inOrder : packets (t.sent j) <+: t.sender.expected j
  /-- The slice is no longer `SLICE_NEW`: all packets have been sent. -/
  complete : ¬ t.sender.Unsent j → packets (t.sent j) = t.sender.expected j
  /-- A call that leaves the slice `SLICE_NEW` leaves a packet to send, or a FEC block to skip. -/
  pending : t.sender.Unsent j → ¬ t.sender.net.InCall → 0 < t.calls j →
    packets (t.sent j) ≠ t.sender.expected j ∨
      t.sender.SkipsFec j ∧ (t.calls j : ℤ) < fecBlocks t.sender.config
  /-- No call has returned: nothing has been sent. -/
  begin : t.calls j = 0 → ¬ t.sender.net.InCall → t.sender.Unsent j ∧ t.sent j = []
  /-- In the transmission slot a slice is either `SLICE_NEW` or `SLICE_XMITTED`. -/
  state : t.sender.taken = j + 1 → ∀ x ∈ t.sender.xmitSlice,
    (t.sender.slices x).state = .new ∨ (t.sender.slices x).state = .xmitted
  /-- Only a slice that is `SLICE_NEW` is sent. -/
  called : t.sender.net.InCall → t.sender.Unsent (t.sender.taken - 1)

variable {s s' : State} {t : Transmission}

section Packets

variable {x i j k : ℕ}

/-- A slice has as many packets as turns. -/
theorem numbered_length (hskip : ¬ s.SkipsFec j) : (s.numbered j).length = s.turns j := by
  simp [State.numbered, State.turns, hskip]

/-- It never has more. -/
theorem numbered_length_le : (s.numbered j).length ≤ s.turns j := by
  rw [State.numbered, State.turns, List.length_append, List.length_map, List.length_map,
    List.length_range, List.length_range]
  split <;> omega

/-- The ring holds the bytes of a slice block by block. -/
theorem payloadAt_eq (h : Inv s) {slice : Slice} (hacked : s.acked ≤ j) (hj : j < s.cuts.length)
    (hbase : slice.base = startOf s.cuts j % s.dataBufSize) {size : ℕ}
    (hsize : size = min s.config.blockSize (s.cuts.getD j 0 - i * s.config.blockSize)) :
    payloadAt s.dataBuffer (adr s slice i) size =
      (List.range size).map fun x => s.input (startOf s.cuts j + i * s.config.blockSize + x) := by
  have hring := h.ring
  have hdvd : s.config.blockSize ∣ s.dataBufSize := ⟨4096, hring.size_eq⟩
  have hpos : 0 < s.dataBufSize := hring.size_pos
  have hcut : s.cuts.sum ≤ s.readTotal := hring.cut_le_read
  have hread : s.readTotal ≤ s.freeTaken := hring.read_le_taken
  have htaken : s.freeTaken ≤ s.inputPos := hring.taken_le_input
  have hsucc := startOf_succ hj
  have hle : startOf s.cuts (j + 1) ≤ s.cuts.sum := startOf_le_sum _
  have hack : startOf s.cuts s.acked ≤ startOf s.cuts j := startOf_mono hacked
  refine List.map_congr_left fun x hx => ?_
  have hx : x < size := List.mem_range.mp hx
  have haligned : s.config.blockSize ∣ startOf s.cuts j :=
    hring.aligned j (show startOf s.cuts j < s.cuts.sum by omega)
  have hblock := block_le_size (k := i) hdvd haligned hpos
  have hadr : adr s slice i = (startOf s.cuts j + i * s.config.blockSize) % s.dataBufSize := by
    rw [adr, hbase, Nat.mod_add_mod]
  have hwrap : adr s slice i + x =
      (startOf s.cuts j + i * s.config.blockSize + x) % s.dataBufSize := by
    rw [← Nat.mod_add_mod, ← hadr, Nat.mod_eq_of_lt (by omega)]
  rw [hwrap]
  exact hring.content _ (show startOf s.cuts s.acked ≤ _ by omega) (show _ < s.inputPos by omega)

/-- The packets are listed in the order in which they are sent. -/
theorem packets_append (ms sent : List ServerMsg) :
    packets (ms ++ sent) = packets sent ++ packets ms := by
  rw [packets, List.reverse_append, List.filterMap_append]
  rfl

/-- A HELLO is no packet of a slice. -/
theorem packets_hello {p : Prop} [Decidable p] :
    packets (if p then [ServerMsg.hello] else []) = [] := by
  split <;> rfl

/-- One turn of the loop sends the packet whose turn it is, besides a hello. -/
theorem packets_transmitBlock (h : Inv s) {slice : Slice} {ms : List ServerMsg}
    (hacked : s.acked ≤ j) (hj : j < s.cuts.length) (hno : slice.sliceNo = j)
    (hbytes : slice.bytes = s.cuts.getD j 0) (hbase : slice.base = startOf s.cuts j % s.dataBufSize)
    (hk : k < s.turns j) (hsend : transmitBlock s slice k = some ms) :
    packets ms = (s.numbered j)[k]?.toList := by
  have hcount : getSliceBlocks slice s.config = blockCount s.config (s.cuts.getD j 0) := by
    rw [getSliceBlocks, hbytes]
    rfl
  simp only [transmitBlock, hcount] at hsend
  split at hsend
  · rename_i hdata
    obtain ⟨m, hm, rfl⟩ := Option.map_eq_some_iff.mp hsend
    obtain ⟨-, hm⟩ := Option.ite_none_right_eq_some.mp hm
    obtain rfl := Option.some.inj hm
    rw [← List.singleton_append, packets_append, packets_hello, hno, hbytes,
      payloadAt_eq h hacked hj hbase rfl, State.numbered,
      List.getElem?_append_left (by simpa using hdata), List.getElem?_map,
      List.getElem?_range hdata]
    rfl
  · rename_i hdata
    obtain ⟨m, hm, rfl⟩ := Option.map_eq_some_iff.mp hsend
    rw [packets_append, packets_hello, State.numbered,
      List.getElem?_append_right (by simpa using hdata), List.length_map, List.length_range,
      List.getElem?_map]
    have hturn : k - blockCount s.config (s.cuts.getD j 0) < (fecBlocks s.config).toNat := by
      rw [State.turns] at hk
      omega
    simp only [transmitFecBlock, hbytes] at hm
    split at hm
    · rename_i hskip
      obtain rfl := Option.some.inj hm
      rw [if_pos (show s.SkipsFec j from hskip)]
      rfl
    · rename_i hskip
      obtain ⟨-, hm⟩ := Option.ite_none_right_eq_some.mp hm
      obtain rfl := Option.some.inj hm
      rw [if_neg (show ¬ s.SkipsFec j from hskip), List.getElem?_range hturn, hno]
      rfl

end Packets

section Frame

variable {i r : ℕ}

/-- The step leaves the first transmission alone. -/
structure KeepsSending (s s' : State) : Prop where
  xmitSlice : s'.xmitSlice = s.xmitSlice
  taken : s'.taken = s.taken
  cuts : s'.cuts = s.cuts
  input : s'.input = s.input
  config : SameMode s.config s'.config
  net : s'.net = s.net ∨ ¬ s.net.InCall ∧ ¬ s'.net.InCall
  /-- No slice becomes `SLICE_NEW`. -/
  back : ∀ k, (s'.slices k).state = .new → (s.slices k).state = .new
  /-- The slice that is being transmitted stays as it is. -/
  forth : ∀ x ∈ s.xmitSlice, (s.slices x).state = .new →
    (s'.slices x).state = .new ∧ (s'.slices x).nextBlock = (s.slices x).nextBlock
  nextBlock : ∀ k, (s'.slices k).nextBlock = (s.slices k).nextBlock ∨
    (s'.slices k).nextBlock = 0 ∨ (s.slices k).state = .xmitted

/-- Doing nothing leaves the first transmission alone. -/
theorem KeepsSending.rfl : KeepsSending s s where
  xmitSlice := Eq.refl _
  taken := Eq.refl _
  cuts := Eq.refl _
  input := Eq.refl _
  config := Eq.refl _
  net := .inl (Eq.refl _)
  back := fun _ => id
  forth := fun _ _ hnew => ⟨hnew, Eq.refl _⟩
  nextBlock := fun _ => .inl (Eq.refl _)

/-- Another place in the main loop leaves the first transmission alone. -/
theorem keepsSending_net (net : NetPc) (hnet : ¬ s.net.InCall) (hnet' : ¬ net.InCall) :
    KeepsSending s { s with net := net } where
  xmitSlice := rfl
  taken := rfl
  cuts := rfl
  input := rfl
  config := rfl
  net := .inr ⟨hnet, hnet'⟩
  back := fun _ => id
  forth := fun _ _ hnew => ⟨hnew, rfl⟩
  nextBlock := fun _ => .inl rfl

/-- A slot that is not being transmitted changes, but does not become `SLICE_NEW`. -/
theorem keepsSending_setSlice (slice : Slice) (h : KeepsSending s s')
    (hne : ∀ x ∈ s.xmitSlice, (s.slices x).state = .new → x ≠ i)
    (hstate : slice.state = .new → (s'.slices i).state = .new)
    (hnext : slice.nextBlock = (s'.slices i).nextBlock ∨ slice.nextBlock = 0 ∨
      (s.slices i).state = .xmitted) :
    KeepsSending s (s'.setSlice i slice) :=
  { h with
    back := fun k hk => by
      simp only [State.setSlice] at hk
      rcases eq_or_ne k i with rfl | hki
      · rw [Function.update_self] at hk
        exact h.back k (hstate hk)
      · rw [Function.update_of_ne hki] at hk
        exact h.back k hk
    forth := fun x hx hnew => by
      simp only [State.setSlice, Function.update_of_ne (hne x hx hnew)]
      exact h.forth x hx hnew
    nextBlock := fun k => by
      simp only [State.setSlice]
      rcases eq_or_ne k i with rfl | hki
      · rw [Function.update_self]
        rcases hnext with hsame | hother
        · rw [hsame]
          exact h.nextBlock k
        · exact .inr hother
      · rw [Function.update_of_ne hki]
        exact h.nextBlock k }

/-- A slot changes, but not in what matters here. -/
theorem keepsSending_sameSlot (slice : Slice) (h : KeepsSending s s')
    (hstate : slice.state = (s'.slices i).state)
    (hnext : slice.nextBlock = (s'.slices i).nextBlock) :
    KeepsSending s (s'.setSlice i slice) := by
  have hsame : ∀ k, ((s'.setSlice i slice).slices k).state = (s'.slices k).state ∧
      ((s'.setSlice i slice).slices k).nextBlock = (s'.slices k).nextBlock := fun k => by
    simp only [State.setSlice]
    rcases eq_or_ne k i with rfl | hki
    · rw [Function.update_self]
      exact ⟨hstate, hnext⟩
    · rw [Function.update_of_ne hki]
      exact ⟨rfl, rfl⟩
  exact { h with
    back := fun k hk => h.back k ((hsame k).1.symm.trans hk)
    forth := fun x hx hnew => by
      rw [(hsame x).1, (hsame x).2]
      exact h.forth x hx hnew
    nextBlock := fun k => by
      rw [(hsame k).2]
      exact h.nextBlock k }

/-- So does another slice size. -/
theorem keepsSending_config {config : NetConfig} (h : KeepsSending s s')
    (hsame : SameMode s'.config config) : KeepsSending s { s' with config := config } :=
  { h with config := h.config.trans hsame }

/-- So does acknowledging the other slice. -/
theorem keepsSending_ackSlice (h : KeepsSending s s')
    (hne : ∀ x ∈ s.xmitSlice, (s.slices x).state = .new → x ≠ r) :
    KeepsSending s (ackSlice s' r) := by
  unfold ackSlice
  dsimp only
  split
  · exact h
  · have hslot := keepsSending_setSlice ({ s'.slices r with state := .acked })
      (keepsSending_config h (sameMode_growSliceSize s'.config)) hne nofun (.inl rfl)
    split <;> exact { hslot with }

/-- So does a REQACK about the other slice. -/
theorem keepsSending_sendReqack (h : KeepsSending s s')
    (hne : ∀ x ∈ s.xmitSlice, (s.slices x).state = .new → x ≠ r) :
    KeepsSending s (sendReqack s' r) := by
  unfold sendReqack
  dsimp only
  split
  · exact keepsSending_ackSlice h hne
  · split
    · exact h
    · have hslot := keepsSending_setSlice (startRound (s'.slices r))
        (keepsSending_config h (sameMode_shrinkSliceSize s'.config (s'.slices r))) hne id (.inl rfl)
      exact { hslot with }

/-- Blocks are sent again of slices that have been sent. -/
theorem sendSliceAgain_nextBlock {slice slice' : Slice} {ms : List ServerMsg}
    (hsend : sendSliceAgain s slice = some (slice', ms)) :
    slice'.nextBlock = 0 ∨ slice.state = .xmitted := by
  unfold sendSliceAgain at hsend
  split at hsend
  · obtain ⟨rfl, -⟩ := Prod.mk.inj (Option.some.inj hsend)
    exact .inl rfl
  · rename_i hstate
    exact .inr (of_not_not hstate)

/-- A round of retransmissions of the other slice leaves the first transmission alone. -/
theorem keepsSending_doRetransmissions (hnet : ¬ s.net.InCall)
    (hne : ∀ x ∈ s.xmitSlice, (s.slices x).state = .new → x ≠ r) :
    KeepsSending s (doRetransmissions { s with net := .loopTest } r) := by
  have hmove : KeepsSending s { s with net := .loopTest } :=
    keepsSending_net _ hnet id
  unfold doRetransmissions
  dsimp only
  split
  · exact hmove
  · split
    · rename_i slice ms hsend
      have hframe := sendSliceAgain_frame hsend
      have hstate : slice.state = (s.slices r).state := by rw [hframe]
      have hslot := keepsSending_setSlice slice hmove hne (fun hnew => hstate ▸ hnew)
        (.inr (sendSliceAgain_nextBlock hsend))
      exact { hslot with }
    · exact { hmove with }

/-- Answers change the notes on a slice, but neither its state nor the next block. -/
theorem modifySlice_nextBlock {f : Slice → Slice} (slot : Option ℕ) (k : ℕ)
    (hf : ∀ slice, (f slice).nextBlock = slice.nextBlock) :
    ((s.modifySlice slot f).slices k).nextBlock = (s.slices k).nextBlock := by
  rw [modifySlice_slices]
  split
  · exact hf _
  · rfl

/-- A message does not change what is sent next. -/
theorem handleMessage_nextBlock (clNo : ℕ) (msg : ClientMsg) (k : ℕ) :
    ((handleMessage s clNo msg).slices k).nextBlock = (s.slices k).nextBlock := by
  have hanswered : ∀ slice : Slice,
      (markParticipantAnswered slice clNo).nextBlock = slice.nextBlock := fun slice => by
    unfold markParticipantAnswered
    split <;> rfl
  have hforget : ∀ slice : Slice, (forgetClient slice clNo).nextBlock = slice.nextBlock :=
    fun slice => by
      unfold forgetClient
      dsimp only
      split <;> split <;> rfl
  cases msg with
  | ok sliceNo =>
    simp only [handleMessage]
    split
    · refine modifySlice_nextBlock _ k fun slice => ?_
      unfold markOk
      split
      · rfl
      · exact hanswered _
    · rfl
  | retransmit sliceNo rxmit map =>
    simp only [handleMessage]
    split
    · refine modifySlice_nextBlock _ k fun slice => ?_
      unfold markRetransmit
      split
      · rfl
      · exact hanswered _
    · rfl
  | disconnect =>
    simp only [handleMessage]
    rw [modifySlice_nextBlock _ k hforget, modifySlice_nextBlock _ k hforget]
  | other => rfl

/-- A message leaves the first transmission alone. -/
theorem keepsSending_handleMessage (hnet : ¬ s.net.InCall) (clNo : ℕ) (msg : ClientMsg) :
    KeepsSending s (handleMessage { s with net := .messageDone } clNo msg) := by
  have hnext := handleMessage_nextBlock (s := { s with net := .messageDone }) clNo msg
  obtain ⟨slices, db, heq, hring⟩ := handleMessage_frame (s := { s with net := .messageDone }) clNo msg
  rw [heq] at hring hnext ⊢
  have hstate : ∀ k, (slices k).state = (s.slices k).state := fun k =>
    congrArg SliceCore.state (congrFun (congrArg RingView.slices hring) k)
  exact { keepsSending_net .messageDone hnet id with
    back := fun k hk => (hstate k).symm.trans hk
    forth := fun x _ hnew => ⟨(hstate x).trans hnew, hnext x⟩
    nextBlock := fun k => .inl (hnext k) }

/-- The steps of `netSenderMain` outside the first transmission. -/
theorem netStep_keepsSending (hinv : Inv s) (hstep : netStep s = some s')
    (hother : s.net ≠ .takeFec ∧ s.net ≠ .shift ∧ s.net ≠ .send ∧ ¬ s.net.InCall) :
    KeepsSending s s' := by
  obtain ⟨htake, hshift, hsend, hcall⟩ := hother
  have hmoved : ∀ net, ¬ NetPc.InCall net → KeepsSending s { s with net := net } := fun net hnet =>
    keepsSending_net _ hcall hnet
  have hrexmit : ∀ r, s.net.Plain → s.rexmitSlice = some r →
      ∀ x ∈ s.xmitSlice, (s.slices x).state = .new → x ≠ r := fun r hplain hr x hx _ =>
    (hinv.slots_ne hplain.steady hx hr).symm
  cases hpc : s.net with
  | takeFec => exact absurd hpc htake
  | shift => exact absurd hpc hshift
  | send => exact absurd hpc hsend
  | sending i => exact absurd (by rw [hpc]; trivial) hcall
  | making | exited => simp [netStep, hpc] at hstep
  | wait =>
    simp only [netStep, hpc, Option.ite_none_left_eq_some, Option.some.injEq] at hstep
    obtain ⟨-, rfl⟩ := hstep
    exact hmoved _ id
  | init =>
    obtain ⟨failure, rfl, -⟩ := netStep_init hpc hstep
    exact { keepsSending_config (hmoved .cleanupAck id) (sameMode_initSliceSize s.config) with }
  | messageDone | messageFree | loopTest | checkEnd | exitTest =>
    simp only [netStep, hpc, Option.some.injEq] at hstep
    subst hstep
    repeat' split
    all_goals
      first
      | exact { hmoved _ id with }
      | exact { hmoved s.net hcall with }
  | newSlice =>
    simp only [netStep, hpc, Option.some.injEq] at hstep
    subst hstep
    split
    · split
      · exact hmoved _ id
      · exact { hmoved .making id with }
    · exact hmoved _ id
  | cleanupAck =>
    have hplain : s.net.Plain := by rw [hpc]; trivial
    simp only [netStep, hpc, Option.some.injEq] at hstep
    subst hstep
    split
    · rename_i r hr
      split
      · exact keepsSending_ackSlice (hmoved _ id) (hrexmit r hplain hr)
      · exact hmoved _ id
    · exact hmoved _ id
  | cleanupFree =>
    have hplain : s.net.Plain := by rw [hpc]; trivial
    simp only [netStep, hpc, Option.some.injEq] at hstep
    subst hstep
    split
    · rename_i r hr
      split
      · exact keepsSending_setSlice _ (hmoved .freeLoop id) (hrexmit r hplain hr)
          nofun (.inl rfl)
      · exact hmoved _ id
    · exact hmoved _ id
  | freeLoop =>
    simp only [netStep, hpc, Option.some.injEq] at hstep
    subst hstep
    split
    · rename_i hpre
      have hslot := keepsSending_setSlice (i := pcGetProducerPosition s.freeSlicesPc)
        ({ s.slices (pcGetProducerPosition s.freeSlicesPc) with state := .free })
        (hmoved s.net hcall) (fun x _ hnew hx => by rw [hx, hpre] at hnew; cases hnew) nofun (.inl rfl)
      split <;> exact { hslot with }
    · exact { hmoved .shift id with }
  | messages =>
    simp only [netStep, hpc, Option.some.injEq] at hstep
    subst hstep
    split
    · exact hmoved _ id
    · exact keepsSending_handleMessage hcall ..
  | retransmit =>
    have hplain : s.net.Plain := by rw [hpc]; trivial
    simp only [netStep, hpc, Option.some.injEq] at hstep
    subst hstep
    split
    · rename_i r hr
      split
      · exact keepsSending_doRetransmissions hcall (hrexmit r hplain hr)
      · exact hmoved _ id
    · exact hmoved _ id
  | reqack =>
    have hplain : s.net.Plain := by rw [hpc]; trivial
    simp only [netStep, hpc, Option.some.injEq] at hstep
    subst hstep
    split
    · rename_i r hr
      split
      · exact keepsSending_sendReqack (keepsSending_setSlice _ (hmoved .newSlice id)
          (hrexmit r hplain hr) id (.inl rfl)) (hrexmit r hplain hr)
      · exact hmoved _ id
    · exact hmoved _ id
  | timeout =>
    have hplain : s.net.Plain := by rw [hpc]; trivial
    simp only [netStep, hpc, Option.some.injEq] at hstep
    subst hstep
    split
    · rename_i r hr
      split
      · obtain ⟨db, exit⟩ := dropClients s.db (s.slices r)
        dsimp only
        split
        · exact { hmoved .exited id with }
        · exact { hmoved .loopTest id with }
      · exact keepsSending_sendReqack (keepsSending_setSlice _ (hmoved .loopTest id)
          (hrexmit r hplain hr) id (.inl rfl)) (hrexmit r hplain hr)
    · exact { hmoved .exited id with }

end Frame

section Slice

variable {j : ℕ}

/-- Slice `j` gives the same packets in `s` and in `s'`. -/
structure SamePackets (s s' : State) (j : ℕ) : Prop where
  blockCount : blockCount s'.config (s'.cuts.getD j 0) = blockCount s.config (s.cuts.getD j 0)
  dataPacket : s'.dataPacket j = s.dataPacket j
  numbered : s'.numbered j = s.numbered j
  turns : s'.turns j = s.turns j

/-- The packets of a slice depend on its bytes and on the options. -/
theorem samePackets (hbytes : s'.cuts.getD j 0 = s.cuts.getD j 0)
    (hstart : startOf s'.cuts j = startOf s.cuts j) (hinput : s'.input = s.input)
    (hconfig : SameMode s.config s'.config) : SamePackets s s' j := by
  have hblock : s'.config.blockSize = s.config.blockSize := by rw [hconfig]
  have hasync : s'.config.async = s.config.async := by rw [hconfig]
  have hstripes : s'.config.fecStripes = s.config.fecStripes := by rw [hconfig]
  have hfec : fecBlocks s'.config = fecBlocks s.config := by rw [hconfig]; rfl
  have hcount : ∀ n, blockCount s'.config n = blockCount s.config n := fun n => by
    rw [blockCount, hblock]
    rfl
  have hdata : s'.dataPacket j = s.dataPacket j := by
    funext i
    simp only [State.dataPacket, hbytes, hstart, hinput, hblock]
  have hskip : s'.SkipsFec j ↔ s.SkipsFec j := by
    rw [State.SkipsFec, hbytes, hasync]
    rfl
  refine ⟨by rw [hbytes, hcount], hdata, ?_, ?_⟩
  · simp only [State.numbered, hbytes, hcount, hdata, hskip, hfec, hstripes]
  · simp only [State.turns, hbytes, hcount, hfec]

/-- A step that leaves the first transmission alone keeps the packets. -/
theorem KeepsSending.samePackets (h : KeepsSending s s') (j : ℕ) : SamePackets s s' j :=
  Sender.samePackets (by rw [h.cuts]) (by rw [h.cuts]) h.input h.config

/-- Another cut keeps the packets of the earlier slices. -/
theorem samePackets_append {bytes : ℕ} (hj : j < s.cuts.length)
    (hcuts : s'.cuts = s.cuts ++ [bytes]) (hinput : s'.input = s.input)
    (hconfig : s'.config = s.config) : SamePackets s s' j :=
  Sender.samePackets (by rw [hcuts, List.getD_append _ _ _ _ hj]) (by rw [hcuts, startOf_append hj.le])
    hinput (by rw [hconfig]; rfl)

end Slice

section Invariant

/-- Slice `j` stands before block `k` of its first transmission. -/
structure Turn (t : Transmission) (j k : ℕ) : Prop where
  sent : packets (t.sent j) = (t.sender.numbered j).take k
  le : k ≤ t.sender.turns j
  calls_le : t.calls j ≤ k

/-- The first transmissions against the notes. -/
structure Transmitting (t : Transmission) : Prop where
  complete : ∀ j < t.sender.taken, ¬ t.sender.Unsent j →
    packets (t.sent j) = t.sender.numbered j ∧ 0 < t.calls j
  later : ∀ j, t.sender.taken ≤ j → t.sent j = [] ∧ t.calls j = 0
  pending : ¬ t.sender.net.InCall → ∀ j, t.sender.taken = j + 1 → ∀ x ∈ t.sender.xmitSlice,
    (t.sender.slices x).state = .new → Turn t j (t.sender.slices x).nextBlock ∧
      (t.calls j = 0 → t.sent j = []) ∧
      (0 < t.calls j → (t.sender.slices x).nextBlock < t.sender.turns j)
  sending : ∀ i, t.sender.net = .sending i → ∃ j, t.sender.Unsent j ∧ Turn t j i
  fresh : ∀ k, (t.sender.slices k).state = .new → t.sender.xmitSlice ≠ some k →
    (t.sender.slices k).nextBlock = 0
  making : ∀ k, t.sender.cutter = .consumeData k ∨ t.sender.cutter = .consumedData k →
    (t.sender.slices k).nextBlock = 0

/-- Such a step keeps which slices are unsent. -/
theorem KeepsSending.unsent (h : KeepsSending s s') (j : ℕ) : s'.Unsent j ↔ s.Unsent j := by
  unfold State.Unsent
  rw [h.xmitSlice, h.taken]
  constructor
  · rintro ⟨hj, x, hx, hnew⟩
    exact ⟨hj, x, hx, h.back x hnew⟩
  · rintro ⟨hj, x, hx, hnew⟩
    exact ⟨hj, x, hx, (h.forth x hx hnew).1⟩

/-- A turn that is due stays due while the packets of its slice stay. -/
theorem Turn.keep {j k : ℕ} (h : Turn t j k) (hsame : SamePackets t.sender s' j) :
    Turn { t with sender := s' } j k :=
  ⟨h.sent.trans (by rw [hsame.numbered]), h.le.trans hsame.turns.ge, h.calls_le⟩

/-- The slot that the cutter fills is free. -/
theorem Inv.making_free (h : Inv s) {k : ℕ}
    (hpc : s.cutter = .consumeData k ∨ s.cutter = .consumedData k) :
    (s.slices k).state = .free ∧ k = s.cuts.length % 2 := by
  have hcutter := h.ring.cutter
  have hk : k = s.cuts.length % 2 := by
    rcases hpc with hpc | hpc
    · simpa only [RingView.CutterInv, State.ring, hpc] using hcutter
    · simp only [RingView.CutterInv, State.ring, hpc] at hcutter
      exact hcutter.1
  refine ⟨?_, hk⟩
  rw [hk]
  exact h.ring.slot_making (by rcases hpc with hpc | hpc <;> simp [State.ring, hpc, CutterPc.making])

/-- A step that leaves the first transmission alone keeps what is known about it. -/
theorem transmitting_keeps (hinv : Inv t.sender) (h : Transmitting t)
    (hkeeps : KeepsSending t.sender s')
    (hmaking : ∀ k, s'.cutter = .consumeData k ∨ s'.cutter = .consumedData k →
      (t.sender.cutter = .consumeData k ∨ t.sender.cutter = .consumedData k) ∨
        (s'.slices k).nextBlock = 0) :
    Transmitting { t with sender := s' } where
  complete := fun j hj hunsent => by
    dsimp only at hj hunsent ⊢
    rw [hkeeps.taken] at hj
    rw [hkeeps.unsent] at hunsent
    rw [(hkeeps.samePackets j).numbered]
    exact h.complete j hj hunsent
  later := fun j hj => h.later j (by rw [← hkeeps.taken]; exact hj)
  pending := fun hnet j hj x hx hnew => by
    dsimp only at hnet hj hx hnew ⊢
    rw [hkeeps.taken] at hj
    rw [hkeeps.xmitSlice] at hx
    have hold := hkeeps.back x hnew
    have hcall : ¬ t.sender.net.InCall := by
      rcases hkeeps.net with hsame | hboth
      · rwa [hsame] at hnet
      · exact hboth.1
    obtain ⟨hturn, hbegin, hlt⟩ := h.pending hcall j hj x hx hold
    rw [(hkeeps.forth x hx hold).2, (hkeeps.samePackets j).turns]
    exact ⟨hturn.keep (hkeeps.samePackets j), hbegin, hlt⟩
  sending := fun i hi => by
    dsimp only at hi ⊢
    have hsame : s'.net = t.sender.net := by
      rcases hkeeps.net with hsame | hboth
      · exact hsame
      · exact absurd (by rw [hi]; trivial) hboth.2
    obtain ⟨j, hunsent, hturn⟩ := h.sending i (hsame ▸ hi)
    exact ⟨j, (hkeeps.unsent j).mpr hunsent, hturn.keep (hkeeps.samePackets j)⟩
  fresh := fun k hk hx => by
    dsimp only at hk hx ⊢
    rw [hkeeps.xmitSlice] at hx
    have hold := hkeeps.back k hk
    rcases hkeeps.nextBlock k with hsame | hzero | hstate
    · rw [hsame]
      exact h.fresh k hold hx
    · exact hzero
    · rw [hold] at hstate
      cases hstate
  making := fun k hk => by
    dsimp only at hk ⊢
    rcases hmaking k hk with hold | hzero
    · rcases hkeeps.nextBlock k with hsame | hzero | hstate
      · rw [hsame]
        exact h.making k hold
      · exact hzero
      · rw [(hinv.making_free hold).1] at hstate
        cases hstate
    · exact hzero

/-- The cutter outside the statement that makes a slice `SLICE_NEW`. -/
theorem transmitting_cutterStep_of_ne (hinv : Inv t.sender) (h : Transmitting t)
    (hpc : ∀ i, t.sender.cutter ≠ .consumedData i) (hstep : cutterStep t.sender = some s') :
    Transmitting { t with sender := s' } := by
  obtain ⟨s, sent, calls⟩ := t
  dsimp only at hinv hpc hstep
  have hring := hinv.ring
  cases hcutter : s.cutter with
  | idle => simp [cutterStep, hcutter] at hstep
  | consumedData i => exact absurd hcutter (hpc i)
  | consumeSlot =>
    simp only [cutterStep, hcutter, Option.map_eq_some_iff] at hstep
    obtain ⟨n, -, rfl⟩ := hstep
    exact transmitting_keeps hinv h { KeepsSending.rfl with } (by simp)
  | consumedSlot =>
    have hfree : (s.slices (s.cuts.length % 2)).state = .free := hring.slot_free hcutter
    have hpos : pcGetConsumerPosition s.freeSlicesPc = s.cuts.length % 2 := hring.slot_eq hcutter
    simp only [cutterStep, hcutter, hpos, hfree, if_true, Option.some.injEq] at hstep
    subst hstep
    have hslot : KeepsSending s (s.setSlice (s.cuts.length % 2)
        (.zero (s.slices (s.cuts.length % 2)).fecData)) :=
      keepsSending_setSlice _ .rfl (fun x _ hnew hx => by rw [hx, hfree] at hnew; cases hnew) nofun
        (.inr (.inl rfl))
    refine transmitting_keeps hinv h { hslot with } fun k hk => .inr ?_
    obtain rfl : s.cuts.length % 2 = k := by simpa [State.setSlice] using hk
    simp [State.setSlice, Slice.zero]
  | consumeData i =>
    obtain ⟨hfree, -⟩ := hinv.making_free (.inl hcutter)
    simp only [cutterStep, hcutter, Option.map_eq_some_iff] at hstep
    obtain ⟨n, -, rfl⟩ := hstep
    have hslot : KeepsSending s (s.setSlice i { s.slices i with
        base := pcGetConsumerPosition s.data, sliceNo := s.sliceNo
        bytes := sliceBytes s.config n }) :=
      keepsSending_setSlice _ .rfl (fun x _ hnew hx => by rw [hx, hfree] at hnew; cases hnew) id
        (.inl rfl)
    refine transmitting_keeps hinv h { hslot with } fun k hk => .inl (.inl ?_)
    obtain rfl : i = k := by simpa [State.setSlice] using hk
    exact hcutter
  | encode i =>
    simp only [cutterStep, hcutter, Option.some.injEq] at hstep
    subst hstep
    split
    · rename_i fecData _
      have hslot : KeepsSending s (s.setSlice i { s.slices i with fecData := fecData }) :=
        keepsSending_sameSlot _ .rfl rfl rfl
      exact transmitting_keeps hinv h { hslot with } (by simp [State.setSlice])
    · exact transmitting_keeps hinv h { KeepsSending.rfl with } (by simp [State.fail])
  | produceFec =>
    simp only [cutterStep, hcutter, Option.some.injEq] at hstep
    subst hstep
    split
    · exact transmitting_keeps hinv h { KeepsSending.rfl with } (by simp)
    · exact transmitting_keeps hinv h { KeepsSending.rfl with } (by simp [State.fail, hcutter])

/-- The slice in the transmission slot is not the one that is being made. -/
theorem Inv.xmit_ne (h : Inv s) (hlength : s.cuts.length ≤ s.freed + 1) {x : ℕ}
    (hx : s.xmitSlice = some x) : x ≠ s.cuts.length % 2 := by
  have hxmit : x = (s.taken + 1) % 2 := h.net.xmit_eq x hx
  have hle : s.taken ≤ s.cuts.length := le_of_add_le_left h.ring.taken_le
  have hfreed : s.freed ≤ s.acked := h.ring.freed_le
  obtain ⟨j, hj, hacked, -⟩ := h.xmit_holds hx
  omega

/-- A slice becomes `SLICE_NEW`. -/
theorem transmitting_consumedData {i : ℕ} (hinv : Inv t.sender) (h : Transmitting t)
    (hpc : t.sender.cutter = .consumedData i) (hstep : cutterStep t.sender = some s') :
    Transmitting { t with sender := s' } := by
  obtain ⟨s, sent, calls⟩ := t
  dsimp only at hinv hpc hstep
  have hring := hinv.ring
  obtain ⟨hfree, hi⟩ := hinv.making_free (.inr hpc)
  have hallocated : s.allocated = s.cuts.length + s.cutter.making := hring.allocated_eq
  rw [hpc] at hallocated
  have hmaking : (CutterPc.consumedData i).making = 1 := rfl
  have hle : s.allocated ≤ 2 + s.freed := hring.freeSlices.consumed_le
  have htaken : s.taken ≤ s.cuts.length := le_of_add_le_left hring.taken_le
  have hzero : (s.slices i).nextBlock = 0 := h.making i (.inr hpc)
  have hxmit : ∀ x ∈ s.xmitSlice, x ≠ i := fun x hx => hi ▸ hinv.xmit_ne (by omega) hx
  have hslices : ∀ k, k ≠ i → Function.update s.slices i { s.slices i with state := .new } k =
      s.slices k := fun k hk => Function.update_of_ne hk ..
  simp only [cutterStep, hpc, Option.some.injEq] at hstep
  cases hfec : s.config.fec with
  | true =>
    rw [if_pos (by exact hfec)] at hstep
    have hunsent : ∀ j, s'.Unsent j ↔ s.Unsent j := fun j => by
      subst hstep
      refine and_congr_right fun _ => exists_congr fun x => and_congr_right fun hx => ?_
      simp only [State.setSlice, hslices x (hxmit x hx)]
    have hsame : ∀ j < s.taken, SamePackets s s' j := fun j hj => by
      subst hstep
      exact samePackets_append (hj.trans_le htaken) rfl rfl rfl
    subst hstep
    exact {
      complete := fun j hj hnot => by
        obtain ⟨hsent, hpos⟩ := h.complete j hj fun hold => hnot ((hunsent j).mpr hold)
        exact ⟨hsent.trans (hsame j hj).numbered.symm, hpos⟩
      later := h.later
      pending := fun hcall j hj x hx hnew => by
        have hj' : j < s.taken := Nat.lt_of_lt_of_eq (Nat.lt_succ_self j) hj.symm
        simp only [State.setSlice, hslices x (hxmit x hx)] at hnew ⊢
        obtain ⟨hturn, hbegin, hlt⟩ := h.pending hcall j hj x hx hnew
        exact ⟨hturn.keep (hsame j hj'), hbegin,
          fun hpos => (hlt hpos).trans_eq (hsame j hj').turns.symm⟩
      sending := fun k hk => by
        obtain ⟨j, hold, hturn⟩ := h.sending k hk
        have hj' : j < s.taken := Nat.lt_of_lt_of_eq (Nat.lt_succ_self j) hold.1.symm
        exact ⟨j, (hunsent j).mpr hold, hturn.keep (hsame j hj')⟩
      fresh := fun k hk hx => by
        simp only [State.setSlice] at hk ⊢
        rcases eq_or_ne k i with rfl | hki
        · rw [Function.update_self]
          exact hzero
        · rw [hslices k hki] at hk ⊢
          exact h.fresh k hk hx
      making := by simp [State.setSlice] }
  | false =>
    rw [if_neg (by simp [State.setSlice, hfec])] at hstep
    have hmaking : s.net = .making := by
      by_contra hne
      exact absurd ((hinv.net.cutter_notFec hfec).mpr hne) (by simp [State.ring, hpc])
    have hnone : s.xmitSlice = none := hinv.net.making (.inl hmaking)
    have hlength : s.taken = s.cuts.length := hring.notFec hfec
    have hold : ∀ j, ¬ s.Unsent j := by
      rintro j ⟨-, x, hx, -⟩
      rw [hnone] at hx
      cases hx
    have hsame : ∀ j < s.taken, SamePackets s s' j := fun j hj => by
      subst hstep
      exact samePackets_append (hj.trans_le htaken) rfl rfl rfl
    obtain ⟨hsent, hcalls⟩ := h.later s.taken le_rfl
    dsimp only at hsent hcalls
    subst hstep
    exact {
      complete := fun j hj hnot => by
        rcases Nat.lt_succ_iff_lt_or_eq.mp hj with hlt | rfl
        · obtain ⟨hsent', hpos⟩ := h.complete j hlt (hold j)
          exact ⟨hsent'.trans (hsame j hlt).numbered.symm, hpos⟩
        · refine absurd ⟨rfl, i, rfl, ?_⟩ hnot
          simp [State.setSlice]
      later := fun j hj => h.later j (Nat.le_of_succ_le hj)
      pending := fun _ j hj x hx hnew => by
        obtain rfl : s.taken = j := Nat.succ.inj hj
        obtain rfl : i = x := Option.some.inj hx
        simp only [State.setSlice, Function.update_self, hzero]
        refine ⟨⟨?_, Nat.zero_le _, ?_⟩, fun _ => hsent, fun hpos => ?_⟩
        · simp [hsent, packets]
        · exact hcalls.le
        · exact absurd hcalls (Nat.pos_iff_ne_zero.mp hpos)
      sending := by simp [State.setSlice]
      fresh := fun k hk hx => by
        simp only [State.setSlice] at hk ⊢
        have hki : k ≠ i := fun hki => hx (congrArg some hki.symm)
        rw [hslices k hki] at hk ⊢
        exact h.fresh k hk (by simp [hnone])
      making := by simp [State.setSlice] }

variable {sent : ℕ → List ServerMsg} {calls : ℕ → ℕ} {i j x : ℕ}

/-- A block is sent. -/
theorem transmitting_block (hinv : Inv s) (h : Transmitting ⟨s, sent, calls⟩)
    (hpc : s.net = .sending i) (hx : s.xmitSlice = some x) (hj : s.taken = j + 1)
    (hi : i < s.turns j) {ms : List ServerMsg} (hsend : transmitBlock s (s.slices x) i = some ms) :
    Transmitting ⟨{ s with network := ms ++ s.network, net := .sending (i + 1) },
      Function.update sent j (ms ++ sent j), calls⟩ := by
  have hlength : s.taken ≤ s.cuts.length := le_of_add_le_left hinv.ring.taken_le
  obtain ⟨k, hk, hacked, hholds⟩ := hinv.xmit_holds hx
  obtain rfl : j = k := by omega
  obtain ⟨k, hunsent, hturn⟩ := h.sending i hpc
  obtain rfl : j = k := by
    have hk : s.taken = k + 1 := hunsent.1
    omega
  have hpackets : packets ms = (s.numbered j)[i]?.toList :=
    packets_transmitBlock hinv hacked (by omega) (hholds.sliceNo_eq (by omega))
      (hholds.bytes_eq (by omega)) (hholds.base_eq (by omega)) hi hsend
  exact {
    complete := fun k hk hnot => by
      have hkj : k ≠ j := by
        rintro rfl
        exact hnot hunsent
      dsimp only at hk ⊢
      rw [Function.update_of_ne hkj]
      exact h.complete k hk hnot
    later := fun k hk => by
      dsimp only at hk ⊢
      rw [Function.update_of_ne (by omega)]
      exact h.later k hk
    pending := fun hcall => absurd trivial hcall
    sending := fun k hk => by
      obtain rfl := NetPc.sending.inj hk
      refine ⟨j, hunsent, ?_, hi, hturn.calls_le.trans (Nat.le_succ i)⟩
      dsimp only
      rw [Function.update_self, packets_append, hpackets, hturn.sent]
      exact List.take_add_one.symm
    fresh := h.fresh
    making := h.making }

/-- A call returns after block `i - 1`. -/
theorem transmitting_finishSending (hinv : Inv s) (h : Transmitting ⟨s, sent, calls⟩)
    (hcount : 0 ≤ fecBlocks s.config)
    (hpc : s.net = .sending i) (hx : s.xmitSlice = some x) (hj : s.taken = j + 1)
    (hcalls : calls j < i ∨ i = s.turns j) :
    Transmitting ⟨finishSending s x i, sent, Function.update calls j (calls j + 1)⟩ := by
  have hlength : s.taken ≤ s.cuts.length := le_of_add_le_left hinv.ring.taken_le
  obtain ⟨k, hk, -, hholds⟩ := hinv.xmit_holds hx
  obtain rfl : j = k := by omega
  obtain ⟨k, hunsent, hturn⟩ := h.sending i hpc
  obtain rfl : j = k := by
    have hk : s.taken = k + 1 := hunsent.1
    omega
  have hbytes : (s.slices x).bytes = s.cuts.getD j 0 := hholds.bytes_eq (by omega)
  have hturns : (getSliceBlocks { s.slices x with nextBlock := i } s.config : ℤ) +
      fecBlocks s.config = s.turns j := by
    rw [State.turns, ← hbytes, Nat.cast_add, Int.toNat_of_nonneg hcount]
    rfl
  have hnew : (s.slices x).state = .new := by
    obtain ⟨-, y, hy, hnew⟩ := hunsent
    obtain rfl : x = y := Option.some.inj (hx.symm.trans hy)
    exact hnew
  have hcalled : ∀ k, k ≠ j → Function.update calls j (calls j + 1) k = calls k :=
    fun k hk => Function.update_of_ne hk ..
  have hmaking : ∀ k, s.cutter = .consumeData k ∨ s.cutter = .consumedData k → k ≠ x := by
    rintro k hk rfl
    rw [(hinv.making_free hk).1] at hnew
    cases hnew
  have hother : ∀ slice : Slice, ∀ k, k ≠ x → Function.update s.slices x slice k = s.slices k :=
    fun slice k hk => Function.update_of_ne hk ..
  unfold finishSending
  dsimp only
  rw [hturns]
  simp only [Nat.cast_inj]
  split
  · rename_i hend
    exact {
      complete := fun k hk _ => by
        dsimp only
        rcases eq_or_ne k j with rfl | hkj
        · rw [Function.update_self]
          refine ⟨hturn.sent.trans (List.take_of_length_le ?_), Nat.succ_pos _⟩
          rw [hend]
          exact numbered_length_le
        · rw [hcalled k hkj]
          refine h.complete k hk fun hunsent' => hkj ?_
          have hk' : s.taken = k + 1 := hunsent'.1
          omega
      later := fun k hk => by
        have hk' : s.taken ≤ k := hk
        dsimp only
        rw [hcalled k (by omega)]
        exact h.later k hk
      pending := fun _ k _ y hy hnew' => by
        obtain rfl : x = y := Option.some.inj (hx.symm.trans hy)
        simp [State.setSlice] at hnew'
      sending := by simp [State.setSlice]
      fresh := fun k hk hkx => by
        have hne : k ≠ x := fun heq => hkx (heq ▸ hx)
        simp only [State.setSlice, hother _ k hne] at hk ⊢
        exact h.fresh k hk hkx
      making := fun k hk => by
        simp only [State.setSlice, hother _ k (hmaking k hk)]
        exact h.making k hk }
  · rename_i hend
    have hlt : i < s.turns j := Nat.lt_of_le_of_ne hturn.le hend
    have hcalls := hcalls.resolve_right hend
    exact {
      complete := fun k hk hnot => by
        have hkj : k ≠ j := by
          rintro rfl
          exact hnot ⟨hj, x, hx, by simpa [State.setSlice] using hnew⟩
        dsimp only
        rw [hcalled k hkj]
        refine h.complete k hk fun hunsent' => hkj ?_
        have hk' : s.taken = k + 1 := hunsent'.1
        omega
      later := fun k hk => by
        have hk' : s.taken ≤ k := hk
        dsimp only
        rw [hcalled k (by omega)]
        exact h.later k hk
      pending := fun _ k hk y hy _ => by
        obtain rfl : x = y := Option.some.inj (hx.symm.trans hy)
        have hk' : s.taken = k + 1 := hk
        obtain rfl : j = k := by omega
        simp only [State.setSlice, Function.update_self]
        refine ⟨⟨hturn.sent, hturn.le, ?_⟩, fun hzero => absurd hzero (Nat.succ_ne_zero _),
          fun _ => hlt⟩
        dsimp only
        rw [Function.update_self]
        exact hcalls
      sending := by simp [State.setSlice]
      fresh := fun k hk hkx => by
        have hne : k ≠ x := fun heq => hkx (heq ▸ hx)
        simp only [State.setSlice, hother _ k hne] at hk ⊢
        exact h.fresh k hk hkx
      making := fun k hk => by
        simp only [State.setSlice, hother _ k (hmaking k hk)]
        exact h.making k hk }

/-- `sendSlice` sends the packet whose turn it is. -/
theorem transmitting_sendingStep (hinv : Inv t.sender) (h : Transmitting t)
    (hcount : 0 ≤ fecBlocks t.sender.config)
    (hpc : t.sender.net = .sending i) (hx : t.sender.xmitSlice = some x) :
    Transmitting (t.note (sendingStep t.sender x i)) := by
  obtain ⟨s, sent, calls⟩ := t
  dsimp only at hinv hcount hpc hx
  have hplain : s.net.Plain := by rw [hpc]; trivial
  have hlength : s.taken ≤ s.cuts.length := le_of_add_le_left hinv.ring.taken_le
  obtain ⟨j, hj, -, hholds⟩ := hinv.xmit_holds hx
  have hbytes : (s.slices x).bytes = s.cuts.getD j 0 := hholds.bytes_eq (by omega)
  have hturns : (getSliceBlocks (s.slices x) s.config : ℤ) + fecBlocks s.config = s.turns j := by
    rw [State.turns, ← hbytes, Nat.cast_add, Int.toNat_of_nonneg hcount]
    rfl
  obtain ⟨k, hunsent, hturn⟩ := h.sending i hpc
  obtain rfl : j = k := by
    have hk : s.taken = k + 1 := hunsent.1
    omega
  have hcalls : calls j ≤ i := hturn.calls_le
  have hle : i ≤ s.turns j := hturn.le
  have hnone : Function.update sent j ([] ++ sent j) = sent := by
    rw [List.nil_append, Function.update_eq_self]
  simp only [Transmission.note, hj, Nat.add_sub_cancel]
  unfold sendingStep
  simp only [hturns, Nat.cast_lt]
  split
  · rename_i hi
    split
    · rename_i ms hsend
      have hblock := transmitting_block hinv h hpc hx hj hi hsend
      have hnew : newMessages s { s with network := ms ++ s.network, net := .sending (i + 1) } = ms := by
        simp [newMessages]
      split
      · rw [hnew]
        exact hblock
      · have hmove : Inv { s with network := ms ++ s.network, net := .sending (i + 1) } :=
          hinv.move ⟨rfl, rfl, rfl, rfl, rfl, rfl, rfl, hinv.noOverflow⟩ hplain trivial
        have hfinish := transmitting_finishSending hmove hblock hcount rfl hx hj
          (.inl (Nat.lt_succ_of_le hcalls))
        change Transmitting ⟨finishSending { s with network := ms ++ s.network } x (i + 1), _, _⟩ at hfinish
        have hsame : newMessages s (finishSending { s with network := ms ++ s.network } x (i + 1)) =
          ms := hnew
        rw [hsame]
        exact hfinish
    · have hsame : newMessages s (s.fail .assertion) = [] := by simp [newMessages, State.fail]
      have hnet : (s.fail .assertion).net = .sending i := hpc
      rw [hsame, hnone, hnet]
      exact transmitting_keeps hinv h { KeepsSending.rfl with } fun k hk =>
        .inr (h.making k hk)
  · have hfinish := transmitting_finishSending hinv h hcount hpc hx hj (.inr (by omega))
    have hsame : newMessages s (finishSending s x i) = [] := by
      simp [newMessages, finishSending, State.setSlice]
    rw [hsame, hnone]
    exact hfinish

/-- A slice that is taken begins with its first packet. -/
theorem transmitting_takeFec (hinv : Inv t.sender) (h : Transmitting t)
    (hpc : t.sender.net = .takeFec) (hstep : netStep t.sender = some s') :
    Transmitting { t with sender := s' } := by
  obtain ⟨s, sent, calls⟩ := t
  dsimp only at hinv hpc hstep
  have hfec := hinv.net.takeFec hpc
  have hnone : s.xmitSlice = none := hinv.net.making (.inr hpc)
  have hold : ∀ j, ¬ s.Unsent j := by
    rintro j ⟨-, x, hx, -⟩
    rw [hnone] at hx
    cases hx
  obtain ⟨hsent, hcalls⟩ := h.later s.taken le_rfl
  simp only [netStep, hpc, Option.map_eq_some_iff] at hstep
  obtain ⟨n, hn, rfl⟩ := hstep
  have htake := hinv.ring.takeFec hfec hn
  have hlength : s.taken + 1 ≤ s.cuts.length := le_of_add_le_left htake.taken_le
  have hle : s.cuts.length ≤ s.freed + 2 := hinv.ring.length_le
  have hfreed : s.freed ≤ s.acked := hinv.ring.freed_le
  have hacked : s.acked ≤ s.taken := hinv.ring.acked_le
  have hpos : pcGetConsumerPosition s.fecDataPc = s.taken % 2 :=
    (hinv.ring.fecData hfec).consumerPosition_eq
  have hnew : (s.slices (s.taken % 2)).state = .new :=
    (hinv.ring.slots s.taken (show s.freed ≤ s.taken by omega)
      (show s.taken < s.freed + 2 by omega)).state_new le_rfl hlength
  have hzero : (s.slices (s.taken % 2)).nextBlock = 0 := h.fresh _ hnew (by simp [hnone])
  rw [hpos]
  exact {
    complete := fun j hj hnot => by
      rcases Nat.lt_succ_iff_lt_or_eq.mp hj with hlt | rfl
      · exact h.complete j hlt (hold j)
      · exact absurd ⟨rfl, _, rfl, hnew⟩ hnot
    later := fun j hj => h.later j (Nat.le_of_succ_le hj)
    pending := fun _ j hj x hx _ => by
      obtain rfl : s.taken = j := Nat.succ.inj hj
      obtain rfl : s.taken % 2 = x := Option.some.inj hx
      dsimp only at hsent hcalls ⊢
      rw [hzero]
      refine ⟨⟨?_, Nat.zero_le _, hcalls.le⟩, fun _ => hsent, fun hpos => ?_⟩
      · simp [hsent, packets]
      · exact absurd hcalls (Nat.pos_iff_ne_zero.mp hpos)
    sending := by simp
    fresh := fun k hk _ => h.fresh k hk (by simp [hnone])
    making := h.making }

/-- A slice moves on when all its packets are sent. -/
theorem transmitting_shift (hinv : Inv t.sender) (h : Transmitting t)
    (hpc : t.sender.net = .shift) (hstep : netStep t.sender = some s') :
    Transmitting { t with sender := s' } := by
  obtain ⟨s, sent, calls⟩ := t
  dsimp only at hinv hpc hstep
  have hplain : s.net.Plain := by rw [hpc]; trivial
  have hcall : ¬ s.net.InCall := by rw [hpc]; exact id
  have hmove : Transmitting ⟨{ s with net := .messages }, sent, calls⟩ :=
    transmitting_keeps hinv h (keepsSending_net _ hcall id) fun k hk => .inl hk
  have hinvMove : Inv { s with net := .messages } :=
    hinv.move ⟨rfl, rfl, rfl, rfl, rfl, rfl, rfl, hinv.noOverflow⟩ hplain trivial
  simp only [netStep, hpc, Option.some.injEq] at hstep
  subst hstep
  split
  · rename_i x hr hx
    split
    · rename_i hstate
      have hnet := hinvMove.net
      simp only [hr, hx] at hnet
      have hshift : Inv { s with net := .messages, rexmitSlice := some x, xmitSlice := none } :=
        ⟨hinv.ring, hnet.shift trivial, { hinvMove.ret with }, hinv.noOverflow⟩
      have hgone : Transmitting
          ⟨{ s with net := .messages, rexmitSlice := some x, xmitSlice := none }, sent, calls⟩ :=
        { hmove with
          complete := fun j hj _ => h.complete j hj fun ⟨_, y, hy, hnew⟩ => by
            obtain rfl : x = y := Option.some.inj (hx.symm.trans hy)
            rw [hstate] at hnew
            cases hnew
          pending := fun _ _ _ _ hy => by cases hy
          sending := by simp
          fresh := fun k hk _ => h.fresh k hk fun hk' => by
            obtain rfl : x = k := Option.some.inj (hx.symm.trans hk')
            rw [show (s.slices x).state = .new from hk] at hstate
            cases hstate }
      have hkept := transmitting_keeps (t := ⟨_, sent, calls⟩) hshift hgone
        (keepsSending_sendReqack .rfl (by simp)) fun k hk =>
          .inl (by rwa [(keepsSizes_sendReqack x).cutter] at hk)
      exact hkept
    · exact hmove
  · exact hmove

/-- The next turn is that of the slice being sent. -/
theorem transmitting_send (hinv : Inv t.sender) (h : Transmitting t)
    (hpc : t.sender.net = .send) (hstep : netStep t.sender = some s') :
    Transmitting { t with sender := s' } := by
  obtain ⟨s, sent, calls⟩ := t
  dsimp only at hinv hpc hstep
  have hplain : s.net.Plain := by rw [hpc]; trivial
  have hcall : ¬ s.net.InCall := by rw [hpc]; exact id
  have hexit : Transmitting ⟨{ s with net := .exitTest }, sent, calls⟩ :=
    transmitting_keeps hinv h (keepsSending_net _ hcall id) fun k hk => .inl hk
  simp only [netStep, hpc, Option.some.injEq] at hstep
  subst hstep
  split
  · rename_i x hx
    split
    · rename_i hnew
      obtain ⟨j, hj, -⟩ := hinv.xmit_holds hx
      obtain ⟨hturn, -, -⟩ := h.pending hcall j hj x hx hnew
      exact { h with
        pending := fun hcall' => absurd trivial hcall'
        sending := fun k hk => by
          obtain rfl := NetPc.sending.inj hk
          exact ⟨j, ⟨hj, x, hx, hnew⟩, { hturn with }⟩ }
    · exact hexit
  · exact hexit

/-- Every action keeps the notes right. -/
theorem transmitting_transmitAct {a : Action} {t' : Transmission} (hinv : Inv t.sender)
    (h : Transmitting t) (hcount : 0 ≤ fecBlocks t.sender.config) (hact : transmitAct t a = some t') : Transmitting t' := by
  obtain ⟨s, hs, rfl⟩ := Option.map_eq_some_iff.mp hact
  simp only [act, Option.ite_none_right_eq_some] at hs
  obtain ⟨-, hs⟩ := hs
  cases a with
  | reader n =>
    have hframe := readerStep_frame hs
    have hkeeps : KeepsSending t.sender s := by
      rw [hframe]
      exact { KeepsSending.rfl with }
    exact transmitting_keeps hinv h hkeeps fun k hk => .inl (by rwa [hframe] at hk)
  | cutter =>
    by_cases hpc : ∃ i, t.sender.cutter = .consumedData i
    · obtain ⟨i, hpc⟩ := hpc
      exact transmitting_consumedData hinv h hpc hs
    · exact transmitting_cutterStep_of_ne hinv h (not_exists.mp hpc) hs
  | net =>
    have hstep : netStep t.sender = some s := hs
    have hmaking : ∀ k, s.cutter = .consumeData k ∨ s.cutter = .consumedData k →
        t.sender.cutter = .consumeData k ∨ t.sender.cutter = .consumedData k := fun k hk => by
      rcases netStep_keepsSizes hstep with hsizes | ⟨-, -, rfl⟩
      · rwa [hsizes.cutter] at hk
      · simp at hk
    cases hpc : t.sender.net with
    | takeFec => exact transmitting_takeFec hinv h hpc hstep
    | shift => exact transmitting_shift hinv h hpc hstep
    | send => exact transmitting_send hinv h hpc hstep
    | sending i =>
      obtain ⟨j, ⟨hj, x, hx, -⟩, -⟩ := h.sending i hpc
      have hx : t.sender.xmitSlice = some x := hx
      simp only [netStep, hpc, hx, Option.some.injEq] at hstep
      subst hstep
      exact transmitting_sendingStep hinv h hcount hpc hx
    | _ =>
      exact transmitting_keeps hinv h
        (netStep_keepsSending hinv hstep (by simp [hpc, NetPc.InCall])) fun k hk => .inl (hmaking k hk)
  | timeout =>
    obtain ⟨hwait, hs⟩ := Option.ite_none_right_eq_some.mp hs
    obtain rfl := Option.some.inj hs
    have hcall : ¬ t.sender.net.InCall := by rw [hwait.1]; exact id
    exact transmitting_keeps hinv h (keepsSending_net _ hcall id) fun k hk => .inl hk
  | receive clNo msg =>
    cases hpc : t.sender.returnChannel with
    | produce _ _ => simp [receiveStep, hpc] at hs
    | receive =>
      simp only [receiveStep, hpc, Option.ite_none_right_eq_some, Option.map_eq_some_iff] at hs
      obtain ⟨-, n, -, rfl⟩ := hs
      exact transmitting_keeps hinv h { KeepsSending.rfl with } fun k hk => .inl hk
  | announce =>
    cases hpc : t.sender.returnChannel with
    | receive => simp [announceStep, hpc] at hs
    | produce clNo msg =>
      simp only [announceStep, hpc, Option.some.injEq] at hs
      have hkeeps : KeepsSending t.sender s ∧ s.cutter = t.sender.cutter := by
        subst hs
        split <;> exact ⟨{ KeepsSending.rfl with }, rfl⟩
      exact transmitting_keeps hinv h hkeeps.1 fun k hk => .inl (by rwa [hkeeps.2] at hk)

/-- Every step of the noted sender is one of the sender. -/
theorem transmitAct_sender {a : Action} {t' : Transmission} (hact : transmitAct t a = some t') :
    act t.sender a = some t'.sender := by
  obtain ⟨s, hs, hlast⟩ := Option.map_eq_some_iff.mp hact
  have hsender : t'.sender = s := by
    rw [← hlast]
    split <;> rfl
  rw [hsender]
  exact hs

/-- The notes are right in every run if the number of FEC blocks is not negative. -/
theorem transmitting_reachable (h : transmissionSystem.Reachable t)
    (hcount : 0 ≤ fecBlocks t.sender.config) : Inv t.sender ∧ Transmitting t := by
  have hnotes : Inv t.sender ∧ (0 ≤ fecBlocks t.sender.config → Transmitting t) := by
    refine h.invariant
      (P := fun t => Inv t.sender ∧ (0 ≤ fecBlocks t.sender.config → Transmitting t)) ?_ ?_
    · rintro ⟨s, sent, calls⟩
        ⟨⟨config, db, input, inputSize, mem, fecData, hconfig, -, hstart⟩, hsent, hcalls⟩
      refine ⟨inv_start hconfig hstart, fun _ => ?_⟩
      dsimp only at hsent hcalls hstart ⊢
      simp only [start, Option.bind_eq_some_iff, Option.map_eq_some_iff] at hstart
      obtain ⟨_, -, _, -, _, -, rfl⟩ := hstart
      exact {
        complete := by simp
        later := fun j _ => ⟨hsent j, hcalls j⟩
        pending := fun _ _ _ _ hx => by cases hx
        sending := by simp
        fresh := fun _ _ _ => rfl
        making := fun _ _ => rfl }
    · rintro t t' ⟨hinv, hnotes⟩ ⟨a, hact⟩
      have hs := transmitAct_sender hact
      have hsame : fecBlocks t'.sender.config = fecBlocks t.sender.config := by
        rw [(act_config hs).sameMode]
        rfl
      refine ⟨inv_act hinv hs, fun hcount => ?_⟩
      rw [hsame] at hcount
      exact transmitting_transmitAct hinv (hnotes hcount) hcount hact
  exact ⟨hnotes.1, hnotes.2 hcount⟩

/-- Then the number of FEC blocks is not negative, -/
theorem fecBlocks_nonneg (h : s.NumbersFit j) : 0 ≤ fecBlocks s.config := by
  unfold fecBlocks
  split
  · rename_i hfec
    rcases h hfec with ⟨hnonneg, hle⟩ | ⟨-, hnonneg⟩
    · rw [mul_comm, toInt_of_mem (by omega) (by omega)]
      exact hnonneg
    · exact hnonneg
  · exact le_rfl

/-- and the packets carry the numbers of their blocks. -/
theorem numbered_eq_expected (h : s.NumbersFit j) : s.numbered j = s.expected j := by
  unfold State.numbered State.expected fecBlocks fecCount
  cases hfec : s.config.fec with
  | false => simp
  | true =>
    simp only [if_true]
    rcases h hfec with ⟨hnonneg, hle⟩ | ⟨hskip, -⟩
    · rw [mul_comm s.config.fecRedundancy, toInt_of_mem (by omega) (by omega)]
      congr 1
      refine List.map_congr_left fun i hi => ?_
      have hlt : i < 2 ^ 16 := by
        have hmem := List.mem_range.mp hi
        split at hmem <;> omega
      rw [htons_of_lt hlt]
    · rw [if_pos hskip, if_pos hskip]
      rfl

/-- The configuration of a half-duplex network with the options `options`. -/
def optionConfig (options : List SenderOption) : NetConfig :=
  (doTransfer (startSender ((readOptions options).getD .default) false) true).netConfig .doubling
    false

/-- The start of a transfer with these options to the participants `db`. -/
def transmissionStart (options : List SenderOption) (db : ParticipantsDb) (inputSize : ℕ) :
    Option Transmission :=
  (start (optionConfig options) db (fun _ => .ofNat 7) inputSize (fun _ => .ofNat 0)
    fun _ _ _ => .ofNat 0).map fun s => ⟨s, fun _ => [], fun _ => 0⟩

/-- The run starts with the configuration of a command line. -/
theorem transmissionStart_spec {options : List SenderOption} {db : ParticipantsDb} {inputSize : ℕ}
    (hstart : transmissionStart options db inputSize = some t) (hdb : db.Valid)
    (hoptions : (readOptions options).isSome) (hconfig : ValidConfig (optionConfig options)) :
    transmissionSystem.Init t ∧ CommandLine t.sender.config := by
  obtain ⟨s, hs, rfl⟩ := Option.map_eq_some_iff.mp hstart
  refine ⟨⟨⟨_, _, _, _, _, _, hconfig, hdb, hs⟩, fun _ => rfl, fun _ => rfl⟩, ?_⟩
  obtain ⟨c, hread⟩ := Option.isSome_iff_exists.mp hoptions
  simp only [start, Option.bind_eq_some_iff, Option.map_eq_some_iff] at hs
  obtain ⟨_, -, _, -, _, -, rfl⟩ := hs
  exact ⟨options, false, true, .doubling, false, by rw [optionConfig, hread]; rfl⟩

end Invariant

section Wrapped

variable {i j x : ℕ}

/-- One turn of the loop for a FEC block, if nothing is waiting on the return channel. -/
theorem transmitAct_fec (hfail : t.sender.failure = none) (hpc : t.sender.net = .sending i)
    (hx : t.sender.xmitSlice = some x) (hincoming : t.sender.incoming = [])
    (hasync : t.sender.config.async = true) (hfec : t.sender.config.fec = true)
    (hdata : getSliceBlocks (t.sender.slices x) t.sender.config ≤ i)
    (hi : (i : ℤ) < getSliceBlocks (t.sender.slices x) t.sender.config +
      fecBlocks t.sender.config) :
    ∃ network sent, transmitAct t .net = some { t with
      sender := { t.sender with net := .sending (i + 1), network := network }
      sent := sent } := by
  obtain ⟨ms, hsend⟩ : ∃ ms, transmitBlock t.sender (t.sender.slices x) i = some ms := by
    apply Option.isSome_iff_exists.mp
    rw [fecBlocks, if_pos hfec] at hi
    simp only [transmitBlock, if_neg (not_lt.mpr hdata), Option.isSome_map, transmitFecBlock]
    rw [if_neg (by simp [hasync]), if_pos (by omega)]
    rfl
  have hact : act t.sender .net = some { t.sender with
      net := .sending (i + 1), network := ms ++ t.sender.network } := by
    simp only [act, if_pos hfail, netStep, hpc, hx, sendingStep, hi, if_true, hsend, hincoming]
  refine ⟨ms ++ t.sender.network, (t.note { t.sender with
    net := .sending (i + 1), network := ms ++ t.sender.network }).sent, ?_⟩
  rw [transmitAct, hact, Option.map_some]
  simp only [hpc]
  rfl

/-- Undisturbed, the loop goes on through the FEC blocks. -/
theorem run_fec (hfail : t.sender.failure = none) (hpc : t.sender.net = .sending i)
    (hx : t.sender.xmitSlice = some x) (hincoming : t.sender.incoming = [])
    (hasync : t.sender.config.async = true) (hfec : t.sender.config.fec = true)
    (hdata : getSliceBlocks (t.sender.slices x) t.sender.config ≤ i) (m : ℕ)
    (hm : ((i + m : ℕ) : ℤ) ≤ getSliceBlocks (t.sender.slices x) t.sender.config +
      fecBlocks t.sender.config) :
    ∃ network sent, transmissionSystem.Run t { t with
      sender := { t.sender with net := .sending (i + m), network := network }
      sent := sent } := by
  induction m with
  | zero => exact ⟨t.sender.network, t.sent, by rw [Nat.add_zero, ← hpc]; exact .refl _⟩
  | succ m ih =>
    obtain ⟨network, sent, hrun⟩ := ih (by push_cast at hm ⊢; omega)
    obtain ⟨network', sent', hact⟩ := transmitAct_fec (t := { t with
        sender := { t.sender with net := .sending (i + m), network := network }, sent := sent })
      hfail rfl hx hincoming hasync hfec (hdata.trans (Nat.le_add_right i m))
      (by dsimp only; push_cast at hm ⊢; omega)
    exact ⟨network', sent', hrun.trans (.single ⟨.net, hact⟩)⟩

/-- The FEC packets among those of a slice. -/
theorem numbered_fec (hskip : ¬ s.SkipsFec j) (hi : i < (fecBlocks s.config).toNat) :
    (s.numbered j)[blockCount s.config (s.cuts.getD j 0) + i]? =
      some (.fec (htons s.config.fecStripes) j (htons i) (s.cuts.getD j 0)) := by
  rw [State.numbered, if_neg hskip, List.getElem?_append_right (by simp)]
  simp [List.getElem?_range hi]

/-- FEC block `i` is expected after the data blocks. -/
theorem expected_fec (hskip : ¬ s.SkipsFec j) (hi : i < fecCount s.config) :
    (s.expected j)[blockCount s.config (s.cuts.getD j 0) + i]? =
      some (.fec (htons s.config.fecStripes) j i (s.cuts.getD j 0)) := by
  rw [State.expected, if_neg hskip, List.getElem?_append_right (by simp)]
  simp [List.getElem?_range hi]

/-- The packet behind number 65535 carries number 0 again. -/
theorem not_sentOnce_of_turn (hnotes : Transmitting t) (hskip : ¬ t.sender.SkipsFec j)
    (hcount : 2 ^ 16 < (fecBlocks t.sender.config).toNat ∧ 2 ^ 16 < fecCount t.sender.config)
    (hpc : t.sender.net = .sending i) (hj : t.sender.taken = j + 1)
    (hi : blockCount t.sender.config (t.sender.cuts.getD j 0) + 2 ^ 16 < i) : ¬ SentOnce t j := by
  intro hsent
  obtain ⟨k, ⟨hk, -⟩, hturn⟩ := hnotes.sending i hpc
  obtain rfl : j = k := by omega
  have hpacket : (packets (t.sent j))[blockCount t.sender.config (t.sender.cuts.getD j 0) + 2 ^ 16]? =
      some (.fec (htons t.sender.config.fecStripes) j 0 (t.sender.cuts.getD j 0)) := by
    rw [hturn.sent, List.getElem?_take_of_lt hi, numbered_fec hskip hcount.1]
    rfl
  obtain ⟨rest, hrest⟩ := hsent.inOrder
  have hexpected := expected_fec hskip hcount.2
  rw [← hrest, List.getElem?_append_left (List.getElem?_eq_some_iff.mp hpacket).1, hpacket] at hexpected
  simp at hexpected

end Wrapped

end Udpcast.Sender
