import Udpcast.Sender.Slices
import Udpcast.Lib.System

/-!
# Steps of the sender

`netSenderMain`, `makeSlice` in whichever thread it runs, and `localReader` as step
functions. Each call of a queue function is a step, with the statements before it.
-/

namespace Udpcast.Sender

open Fec (Gf Block)
open Queue
open Protocol

/-- 128 blocks for each stripe. -/
def stripeLimit (config : NetConfig) : ℤ := toInt (128 * config.fecStripes)

/-- The slice size that `netSenderMain` writes first. -/
def firstSliceSize (config : NetConfig) : ℤ :=
  if config.defaultSliceSize = 0 then
    if config.fec then toInt (config.fecStripesize * config.fecStripes)
    else if config.async then 1024
    else if config.sn then 112
    else 130
  else config.defaultSliceSize

/-- The slice size after it has been limited by the number of stripes, unless it was computed
from that. -/
def chosenSliceSize (config : NetConfig) : ℤ :=
  if config.defaultSliceSize ≠ 0 ∧ config.fec = true ∧ stripeLimit config < firstSliceSize config then
    stripeLimit config
  else firstSliceSize config

/-- `max_slice_size` after it has been limited by the number of stripes. -/
def limitedMaxSliceSize (config : NetConfig) : ℤ :=
  if config.fec = true ∧ stripeLimit config < config.maxSliceSize then stripeLimit config
  else config.maxSliceSize

/-- The slice size with which `netSenderMain` enters its loop. -/
def limitedSliceSize (config : NetConfig) : ℤ :=
  if limitedMaxSliceSize config < chosenSliceSize config then limitedMaxSliceSize config
  else chosenSliceSize config

/-- The configuration with these sizes, if they are not negative. -/
def initSliceSize (config : NetConfig) : NetConfig :=
  { config with
    discovery := if config.defaultSliceSize = 0 then .doubling else config.discovery
    sliceSize := (limitedSliceSize config).toNat
    maxSliceSize := (limitedMaxSliceSize config).toNat }

/-- A step of the thread that cuts slices. Outside FEC mode it is `netSenderMain`, which
goes on with the slice once it is made. -/
def cutterStep (s : State) : Option State :=
  match s.cutter with
  | .idle => none
  | .consumeSlot =>
    (pcConsume s.freeSlicesPc 1).map fun _ => { s with cutter := .consumedSlot }
  | .consumedSlot =>
    let i := pcGetConsumerPosition s.freeSlicesPc
    if (s.slices i).state = .free then
      some ({ s with
        freeSlicesPc := pcConsumed s.freeSlicesPc 1
        allocated := s.allocated + 1
        cutter := .consumeData i }.setSlice i (.zero (s.slices i).fecData))
    else some (s.fail .assertion)
  | .consumeData i =>
    (pcConsume s.data (10 * s.config.blockSize)).map fun n =>
      { s with sliceNo := s.sliceNo + 1, cutter := .consumedData i }.setSlice i
        { s.slices i with
          base := pcGetConsumerPosition s.data
          sliceNo := s.sliceNo
          bytes := sliceBytes s.config n }
  | .consumedData i =>
    let slice := s.slices i
    let s := { s with
      data := pcConsumed s.data slice.bytes
      cuts := s.cuts ++ [slice.bytes] }.setSlice i { slice with state := .new }
    some (if s.config.fec then { s with cutter := .encode i }
      else { s with cutter := .idle, xmitSlice := some i, taken := s.taken + 1, net := .checkEnd })
  | .encode i =>
    let slice := s.slices i
    let s := { s with dataBuffer := padLastBlock s slice, cutter := .produceFec }
    some (match encodeAllStripes s slice with
      | some fecData => s.setSlice i { slice with fecData := fecData }
      | none => s.fail .assertion)
  | .produceFec =>
    some (match pcProduce s.fecDataPc 1 with
      | some q => { s with fecDataPc := q, encoded := s.encoded + 1, cutter := .consumeSlot }
      | none => s.fail .overflow)

/-- A step of `localReader`; `n` is what `read` returns: nothing at the end of the input
only. -/
def readerStep (s : State) (n : ℕ) : Option State :=
  match s.reader with
  | .wait =>
    (pcConsumeContiguousMinAmount s.freeMemQueue 4096).map fun bytes =>
      let pos := pcGetConsumerPosition s.freeMemQueue
      let bytes := if (pos + bytes) % 4096 < bytes then bytes - (pos + bytes) % 4096 else bytes
      if bytes = 0 then { s with reader := .exited } else { s with reader := .read pos bytes }
  | .read pos bytes =>
    if n ≤ bytes ∧ s.inputPos + n ≤ s.inputSize ∧ (n = 0 → s.inputPos = s.inputSize) then
      some { s with
        dataBuffer := fun a =>
          if pos ≤ a ∧ a < pos + n then s.input (s.inputPos + (a - pos)) else s.dataBuffer a
        inputPos := s.inputPos + n
        reader := .commit n }
    else none
  | .commit bytes =>
    some (if bytes = 0 then { s with data := pcProduceEnd s.data, reader := .exited }
      else
        { s with
          freeMemQueue := pcConsumed s.freeMemQueue bytes
          freeTaken := s.freeTaken + bytes
          reader := .produce bytes })
  | .produce bytes =>
    some (match pcProduce s.data bytes with
      | some q => { s with data := q, readTotal := s.readTotal + bytes, reader := .wait }
      | none => s.fail .overflow)
  | .exited => none

/-- The end of the loop in `sendSlice` at block `i`. -/
def finishSending (s : State) (x i : ℕ) : State :=
  let slice := s.slices x
  let slice := { slice with nextBlock := i }
  let slice :=
    if (i : ℤ) = getSliceBlocks slice s.config + fecBlocks s.config then
      { slice with needRxmit := false, state := .xmitted }
    else slice
  { s with net := .loopTest }.setSlice x slice

/-- A turn of the loop in `sendSlice(xmitSlice, 0)`, before block `i`. -/
def sendingStep (s : State) (x i : ℕ) : State :=
  let slice := s.slices x
  if (i : ℤ) < getSliceBlocks slice s.config + fecBlocks s.config then
    match transmitBlock s slice i with
    | some ms =>
      let s := { s with network := ms ++ s.network }
      if s.incoming = [] then { s with net := .sending (i + 1) } else finishSending s x (i + 1)
    | none => s.fail .assertion
  else finishSending s x i

/-- `doRetransmissions`. -/
def doRetransmissions (s : State) (r : ℕ) : State :=
  let slice := s.slices r
  if slice.state = .acked then s
  else
    match sendSliceAgain s slice with
    | some (slice, ms) => { s with network := ms ++ s.network }.setSlice r slice
    | none => s.fail .assertion

/-- What `netSenderMain` does after its loop. -/
def exitMainLoop (s : State) : State :=
  { s with net := .exited, freeMemQueue := pcProduceEnd s.freeMemQueue }

/-- A step of `netSenderMain`. -/
def netStep (s : State) : Option State :=
  match s.net with
  | .init =>
    let s' := { s with config := initSliceSize s.config, net := .cleanupAck }
    some (
      if limitedSliceSize s.config < 0 then s'.fail .negativeSize
      else if s'.config.sliceSize ≤ Protocol.maxSliceSize then s'
      else s'.fail .assertion)
  | .cleanupAck =>
    let s' := { s with net := .cleanupFree }
    some (match s.rexmitSlice with
      | some r => if (s.slices r).nrReady = s.db.nrParticipants then ackSlice s' r else s'
      | none => s')
  | .cleanupFree =>
    some (match s.rexmitSlice with
      | some r =>
        if (s.slices r).state = .acked then
          { s with net := .freeLoop }.setSlice r { s.slices r with state := .preFree }
        else { s with net := .shift }
      | none => { s with net := .shift })
  | .freeLoop =>
    let pos := pcGetProducerPosition s.freeSlicesPc
    some (
      if (s.slices pos).state = .preFree then
        let s := s.setSlice pos { s.slices pos with state := .free }
        match pcProduce s.freeSlicesPc 1 with
        | some q => { s with freeSlicesPc := q, freed := s.freed + 1 }
        | none => s.fail .overflow
      else { s with rexmitSlice := none, net := .shift })
  | .shift =>
    let s' := { s with net := .messages }
    some (match s.rexmitSlice, s.xmitSlice with
      | none, some x =>
        if (s.slices x).state = .xmitted then
          sendReqack { s' with rexmitSlice := some x, xmitSlice := none } x
        else s'
      | _, _ => s')
  | .messages =>
    some (match s.incoming with
      | [] => { s with net := .retransmit }
      | (clNo, msg) :: _ => handleMessage { s with net := .messageDone } clNo msg)
  | .messageDone =>
    some { s with
      incoming := s.incoming.tail
      incomingPc := pcConsumed s.incomingPc 1
      net := .messageFree }
  | .messageFree =>
    some (match pcProduce s.freeSpace 1 with
      | some q => { s with freeSpace := q, net := .loopTest }
      | none => s.fail .overflow)
  | .retransmit =>
    some (match s.rexmitSlice with
      | some r =>
        if (s.slices r).needRxmit then doRetransmissions { s with net := .loopTest } r
        else { s with net := .reqack }
      | none => { s with net := .reqack })
  | .reqack =>
    let s' := { s with net := .newSlice }
    some (match s.rexmitSlice with
      | some r =>
        if (s.slices r).nrAnswered = s.db.nrParticipants then
          sendReqack (s'.setSlice r { s.slices r with rxmitId := (s.slices r).rxmitId + 1 }) r
        else s'
      | none => s')
  | .newSlice =>
    some (
      if s.xmitSlice = none ∧ s.atEnd = false ∧ (s.config.sn = true ∨ s.rexmitSlice = none) then
        if s.config.fec then { s with net := .takeFec }
        else { s with net := .making, cutter := .consumeSlot }
      else { s with net := .send })
  | .making => none
  | .takeFec =>
    (pcConsume s.fecDataPc 1).map fun _ =>
      { s with
        xmitSlice := some (pcGetConsumerPosition s.fecDataPc)
        fecDataPc := pcConsumed s.fecDataPc 1
        taken := s.taken + 1
        net := .checkEnd }
  | .checkEnd =>
    some (match s.xmitSlice with
      | some x =>
        { s with net := .send, atEnd := if (s.slices x).bytes = 0 then true else s.atEnd }
      | none => s.fail .nullSlice)
  | .send =>
    some (match s.xmitSlice with
      | some x =>
        if (s.slices x).state = .new then { s with net := .sending (s.slices x).nextBlock }
        else { s with net := .exitTest }
      | none => { s with net := .exitTest })
  | .sending i =>
    some (match s.xmitSlice with
      | some x => sendingStep s x i
      | none => s.fail .nullSlice)
  | .exitTest =>
    some (
      if s.atEnd = true ∧ s.rexmitSlice = none ∧ s.xmitSlice = none then exitMainLoop s
      else if s.config.async then exitMainLoop s
      -- `rexmitSlice->rxmitId` is read before the wait
      else if s.rexmitSlice = none then s.fail .nullSlice
      else { s with net := .wait })
  | .wait => if s.incoming = [] then none else some { s with net := .loopTest }
  | .timeout =>
    some (match s.rexmitSlice with
      | some r =>
        if s.config.retriesUntilDrop < (s.slices r).rxmitId then
          let (db, exit) := dropClients s.db (s.slices r)
          if exit then exitMainLoop { s with db := db } else { s with db := db, net := .loopTest }
        else
          sendReqack ({ s with net := .loopTest }.setSlice r
            { s.slices r with rxmitId := (s.slices r).rxmitId + 1 }) r
      | none => exitMainLoop s)
  | .loopTest =>
    some (
      if s.db.nrParticipants ≠ 0 ∨ s.config.async = true then { s with net := .cleanupAck }
      else exitMainLoop s)
  | .exited => none

/-- `returnChannelMain` has received a message from client `clNo`. -/
def receiveStep (s : State) (clNo : ℕ) (msg : ClientMsg) : Option State :=
  match s.returnChannel with
  | .receive =>
    if clNo ∈ s.db.used then
      (pcConsume s.freeSpace 1).map fun _ =>
        { s with freeSpace := pcConsumed s.freeSpace 1, returnChannel := .produce clNo msg }
    else none
  | .produce .. => none

/-- `returnChannelMain` makes the message available. -/
def announceStep (s : State) : Option State :=
  match s.returnChannel with
  | .receive => none
  | .produce clNo msg =>
    some (match pcProduce s.incomingPc 1 with
      | some q =>
        { s with incoming := s.incoming ++ [(clNo, msg)], incomingPc := q, returnChannel := .receive }
      | none => s.fail .overflow)

/-- What can happen: a thread goes on, the wait for messages times out, or a message of a
known client arrives. -/
inductive Action
  | reader (n : ℕ)
  | cutter
  | net
  | timeout
  | receive (clNo : ℕ) (msg : ClientMsg)
  | announce

/-- The effect of an action, unless the process has stopped or the thread is blocked. -/
def act (s : State) (a : Action) : Option State :=
  if s.failure = none then
    match a with
    | .reader n => readerStep s n
    | .cutter => cutterStep s
    | .net => netStep s
    | .timeout => if s.net = .wait ∧ s.incoming = [] then some { s with net := .timeout } else none
    | .receive clNo msg => receiveStep s clNo msg
    | .announce => announceStep s
  else none

/-- `spawnNetSender` and `localReader` at their start: an empty ring of 4096 blocks, two
free slices and room for 256 messages. -/
def start (config : NetConfig) (db : ParticipantsDb) (input : ℕ → Gf) (inputSize : ℕ)
    (mem : ℕ → Gf) (fecData : ℕ → ℕ → Block) : Option State :=
  let size := config.blockSize * 4096
  (pcProduce (pcMakeProduconsum size) size).bind fun freeMemQueue =>
    (pcProduce (pcMakeProduconsum 2) 2).bind fun freeSlicesPc =>
    (pcProduce (pcMakeProduconsum 256) 256).map fun freeSpace => {
      config := config, dataBufSize := size, dataBuffer := mem
      freeMemQueue := freeMemQueue, data := pcMakeProduconsum size
      slices := fun i => .zero (fecData i), freeSlicesPc := freeSlicesPc
      fecDataPc := pcMakeProduconsum 2, incoming := []
      incomingPc := pcMakeProduconsum 256, freeSpace := freeSpace, returnChannel := .receive, db := db
      net := .init, atEnd := false, xmitSlice := none, rexmitSlice := none
      cutter := if config.fec then .consumeSlot else .idle, sliceNo := 0
      reader := .wait, input := input, inputSize := inputSize, inputPos := 0
      failure := none, network := [], readTotal := 0, freeTaken := 0, cuts := []
      allocated := 0, encoded := 0, taken := 0, acked := 0, freed := 0
      ackedBy := fun _ => ∅ }

section Equations

-- Modules that do not import one another unfold these definitions. The mark, which ends with
-- the section, has Lean state their equations here, so that all of them use the same ones.
attribute [local simp] cutterStep readerStep finishSending sendingStep doRetransmissions
  exitMainLoop netStep receiveStep announceStep start

end Equations

/-- Block sizes for which the counters of the ring cannot wrap around; a block has to fit
into a datagram. -/
structure ValidConfig (config : NetConfig) : Prop where
  blockSize_pos : 0 < config.blockSize
  blockSize_lt : 3 * (config.blockSize * 4096) < 2 ^ 32

/-- A table of participants as `addParticipant` builds it. -/
structure ParticipantsDb.Valid (db : ParticipantsDb) : Prop where
  card_eq : db.nrParticipants = db.used.card
  lt : ∀ i ∈ db.used, i < maxClients

/-- Removing a participant leaves the others. -/
theorem remove_used (db : ParticipantsDb) (i : ℕ) : (db.remove i).used = db.used.erase i := by
  unfold ParticipantsDb.remove
  split
  · rfl
  · rename_i hi
    exact (Finset.erase_eq_of_notMem hi).symm

/-- The count of the participants stays right. -/
theorem ParticipantsDb.Valid.remove {db : ParticipantsDb} (h : db.Valid) (i : ℕ) : (db.remove i).Valid := by
  refine ⟨?_, fun k hk => h.lt k ?_⟩
  · rw [remove_used]
    unfold ParticipantsDb.remove
    split
    · rename_i hi
      have hpos := Finset.card_pos.mpr ⟨i, hi⟩
      rw [Finset.card_erase_of_mem hi, h.card_eq]
      dsimp only
      omega
    · rename_i hi
      rw [Finset.erase_eq_of_notMem hi, h.card_eq]
  · rw [remove_used] at hk
    exact Finset.mem_of_mem_erase hk

/-- Every sender that can be started. -/
def system : System State :=
  .ofActions (fun s => ∃ config db input inputSize mem fecData, ValidConfig config ∧ db.Valid ∧
    start config db input inputSize mem fecData = some s) act

end Udpcast.Sender
