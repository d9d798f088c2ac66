import Udpcast.Sender.State

/-!
# Operations on slices

The functions of `senddata.c` that work on one slice: cutting, encoding, sending,
acknowledging, and the treatment of answers. `none` is a failed `assert`.
-/

namespace Udpcast.Sender

open Fec (Gf Block)
open Queue
open Protocol

/-- How much of `n` waiting bytes `makeSlice` puts into a slice. The `int` product does not
overflow for a slice size of at most 1024, which `netSenderMain` asserts; for a larger one,
which `fecMain` may read before, see `sizeStep`. -/
def sliceBytes (config : NetConfig) (n : ℕ) : ℕ :=
  let bytes := if config.blockSize * config.sliceSize < n then config.blockSize * config.sliceSize
    else n
  if config.blockSize < bytes then bytes - bytes % config.blockSize else bytes

/-- `ADR(x, bs)`: offset of block `x` in the ring. -/
def adr (s : State) (slice : Slice) (x : ℕ) : ℕ :=
  (slice.base + x * s.config.blockSize) % s.dataBufSize

/-- The number of blocks `i`, `i + stripes`, ... below `nrBlocks`, as the loop over `j` in
`fec_encode_all_stripes` counts them. -/
def stripeBlocks (nrBlocks stripes i : ℕ) : ℕ :=
  if i < nrBlocks ∧ 0 < stripes then stripeBlocks nrBlocks stripes (i + stripes) + 1 else 0
termination_by nrBlocks - i

/-- The tables after `fec_init`. -/
def fecTables : Fec.GfTables := Fec.fecInit .zero

/-- The ring after `fec_encode_all_stripes` has padded the last block with zeros. -/
def padLastBlock (s : State) (slice : Slice) : ℕ → Gf :=
  let nrBlocks := getSliceBlocks slice s.config
  let leftOver := slice.bytes % s.config.blockSize
  if leftOver ≠ 0 then
    let lastBlock := adr s slice (nrBlocks - 1)
    fun a =>
      if lastBlock + leftOver ≤ a ∧ a < lastBlock + s.config.blockSize then .ofNat 0
      else s.dataBuffer a
  else s.dataBuffer

/-- One stripe of `fec_encode_all_stripes`. The redundancy is unsigned in `fec_encode`. -/
def encodeStripe (s : State) (slice : Slice) (stripe : ℕ) (fecData : ℕ → Block) :
    Option (ℕ → Block) :=
  let stripes := s.config.fecStripes.toNat
  let redundancy := (s.config.fecRedundancy % 2 ^ 32).toNat
  (Fec.fecEncode fecTables s.config.blockSize
      (fun j x => s.dataBuffer (adr s slice (stripe + j * stripes) + x))
      (stripeBlocks (getSliceBlocks slice s.config) stripes stripe)
      (fun i => fecData (stripe + i * stripes)) redundancy).map fun fecBlocks b =>
    if b % stripes = stripe ∧ b / stripes < redundancy then fecBlocks (b / stripes)
    else fecData b

/-- `fec_encode_all_stripes`. -/
def encodeAllStripes (s : State) (slice : Slice) : Option (ℕ → Block) :=
  (List.range s.config.fecStripes.toNat).foldlM
    (fun fecData stripe => encodeStripe s slice stripe fecData) slice.fecData

/-- The payload at offset `a` of the ring. -/
def payloadAt (mem : ℕ → Gf) (a size : ℕ) : List Gf := (List.range size).map fun x => mem (a + x)

/-- The message of `transmitDataBlock`. -/
def transmitDataBlock (s : State) (slice : Slice) (i : ℕ) : Option ServerMsg :=
  if i < maxSliceSize then
    let size := min s.config.blockSize (slice.bytes - i * s.config.blockSize)
    some (.data slice.sliceNo i slice.bytes (payloadAt s.dataBuffer (adr s slice i) size))
  else none

/-- The messages of `transmitFecBlock`: none for an empty slice outside async mode. -/
def transmitFecBlock (s : State) (slice : Slice) (i : ℕ) : Option (List ServerMsg) :=
  if slice.bytes = 0 ∧ s.config.async = false then some []
  else if i < toInt (s.config.fecRedundancy * s.config.fecStripes) then
    some [.fec (htons s.config.fecStripes) slice.sliceNo (htons i) slice.bytes
      (payloadAt (slice.fecData i) 0 s.config.blockSize)]
  else none

/-- `fecBlocks` in the first transmission of a slice. -/
def fecBlocks (config : NetConfig) : ℤ :=
  if config.fec then toInt (config.fecRedundancy * config.fecStripes) else 0

/-- The number of FEC blocks that the options ask for. -/
def fecCount (config : NetConfig) : ℕ :=
  if config.fec then (config.fecStripes * config.fecRedundancy).toNat else 0

/-- `rehello`: the block before which a hello is sent in streaming mode. -/
def rehello (config : NetConfig) (nrBlocks : ℕ) : ℤ :=
  if config.streaming then max 0 (nrBlocks - config.rehelloOffset) else -1

/-- What `sendSlice` sends for block `i`, latest message first. -/
def transmitBlock (s : State) (slice : Slice) (i : ℕ) : Option (List ServerMsg) :=
  let nrBlocks := getSliceBlocks slice s.config
  let hello := if (i : ℤ) = rehello s.config nrBlocks then [ServerMsg.hello] else []
  if i < nrBlocks then (transmitDataBlock s slice i).map fun m => m :: hello
  else (transmitFecBlock s slice (i - nrBlocks)).map fun ms => ms ++ hello

/-- One turn of the loop of `sendSlice` while retransmitting. -/
def retransmitBlock (s : State) (i : ℕ) (st : Slice × List ServerMsg) :
    Option (Slice × List ServerMsg) :=
  let (slice, sent) := st
  if slice.rxmitMap i = false ∨ slice.isXmittedMap i = true then
    some ({ slice with lastGoodBlock := max i slice.lastGoodBlock }, sent)
  else
    let slice := { slice with isXmittedMap := Function.update slice.isXmittedMap i true }
    (transmitBlock s slice i).map fun ms => (slice, ms ++ sent)

/-- `sendSlice(slice, 1)`: all blocks that were asked for and not yet sent again in this round. -/
def sendSliceAgain (s : State) (slice : Slice) : Option (Slice × List ServerMsg) :=
  if slice.state ≠ .xmitted then some ({ slice with nextBlock := 0 }, [])
  else
    let nrBlocks := getSliceBlocks slice s.config
    ((List.range nrBlocks).foldlM (fun st i => retransmitBlock s i st) (slice, [])).map
      fun (slice, sent) => ({ slice with nextBlock := nrBlocks, needRxmit := false }, sent)

/-- How `ackSlice` adapts the slice size. -/
def growSliceSize (config : NetConfig) : NetConfig :=
  if config.sn = false ∧ config.discovery = .doubling then
    let sliceSize := config.sliceSize + config.sliceSize / 4
    if config.maxSliceSize ≤ sliceSize then
      { config with sliceSize := config.maxSliceSize, discovery := .reducing }
    else { config with sliceSize := sliceSize }
  else config

/-- `ackSlice`. -/
def ackSlice (s : State) (i : ℕ) : State :=
  let slice := s.slices i
  if slice.state = .acked then s
  else
    let s' := { s with
      config := growSliceSize s.config
      acked := s.acked + 1
      ackedBy := Function.update s.ackedBy slice.sliceNo slice.readySet }.setSlice i
        { slice with state := .acked }
    match pcProduce s.freeMemQueue slice.bytes with
    | some q => { s' with freeMemQueue := q }
    | none => s'.fail .overflow

/-- How `sendReqack` adapts the slice size after a retransmission. -/
def shrinkSliceSize (config : NetConfig) (slice : Slice) : NetConfig :=
  if config.sn = false ∧ slice.rxmitId ≠ 0 ∧ slice.lastGoodBlock ≠ 0 ∧
      slice.lastGoodBlock < getSliceBlocks slice config then
    let sliceSize := if slice.lastGoodBlock < config.sliceSize / 2 then config.sliceSize / 2
      else slice.lastGoodBlock
    { config with discovery := .reducing, sliceSize := if sliceSize < 32 then 32 else sliceSize }
  else config

/-- The slice when a round of answers starts. -/
def startRound (slice : Slice) : Slice :=
  { slice with
    lastGoodBlock := 0, answeredSet := slice.readySet, nrAnswered := slice.nrReady
    needRxmit := false, rxmitMap := fun _ => false, isXmittedMap := fun _ => false }

/-- `sendReqack`. -/
def sendReqack (s : State) (i : ℕ) : State :=
  let slice := s.slices i
  if s.config.async = true ∧ slice.bytes ≠ 0 then ackSlice s i
  else if s.config.async = true ∧ s.config.fec = true then s
  else
    { s with
      config := shrinkSliceSize s.config slice
      network := .reqack slice.sliceNo slice.bytes slice.rxmitId slice.readySet :: s.network
      }.setSlice i (startRound slice)

/-- `markParticipantAnswered`. -/
def markParticipantAnswered (slice : Slice) (clNo : ℕ) : Slice :=
  if clNo ∈ slice.answeredSet then slice
  else
    { slice with nrAnswered := slice.nrAnswered + 1, answeredSet := insert clNo slice.answeredSet }

/-- `handleOk` for a valid participant and a slice. -/
def markOk (slice : Slice) (clNo : ℕ) : Slice :=
  if clNo ∈ slice.readySet then slice
  else
    markParticipantAnswered
      { slice with readySet := insert clNo slice.readySet, nrReady := slice.nrReady + 1 } clNo

/-- `handleRetransmit` for a valid participant and a slice. -/
def markRetransmit (slice : Slice) (clNo : ℕ) (map : ℕ → Bool) (rxmit : ℤ) : Slice :=
  if rxmit < slice.rxmitId then slice
  else
    markParticipantAnswered
      { slice with rxmitMap := fun i => slice.rxmitMap i || !map i, needRxmit := true } clNo

/-- `handleDisconnect1`. -/
def forgetClient (slice : Slice) (clNo : ℕ) : Slice :=
  let slice :=
    if clNo ∈ slice.readySet then
      { slice with readySet := slice.readySet.erase clNo, nrReady := slice.nrReady - 1 }
    else slice
  if clNo ∈ slice.answeredSet then
    { slice with nrAnswered := slice.nrAnswered - 1, answeredSet := slice.answeredSet.erase clNo }
  else slice

/-- `findSlice(xmitSlice, rexmitSlice, sliceNo)`. -/
def findSlice (s : State) (sliceNo : ℕ) : Option ℕ :=
  (s.xmitSlice.filter fun i => (s.slices i).sliceNo = sliceNo) <|>
    s.rexmitSlice.filter fun i => (s.slices i).sliceNo = sliceNo

/-- Change the slice in a slot, if the slot is not empty. -/
def State.modifySlice (s : State) (slot : Option ℕ) (f : Slice → Slice) : State :=
  match slot with
  | some i => s.setSlice i (f (s.slices i))
  | none => s

/-- `handleNextMessage` for a message from client `clNo`. -/
def handleMessage (s : State) (clNo : ℕ) : ClientMsg → State
  | .ok sliceNo =>
    if clNo ∈ s.db.used then s.modifySlice (findSlice s sliceNo) (markOk · clNo) else s
  | .retransmit sliceNo rxmit map =>
    if clNo ∈ s.db.used then
      s.modifySlice (findSlice s sliceNo)
        (markRetransmit · clNo map (rawField s.config.bigEndian rxmit).toInt)
    else s
  | .disconnect =>
    let s := (s.modifySlice s.xmitSlice (forgetClient · clNo)).modifySlice s.rexmitSlice
      (forgetClient · clNo)
    { s with db := s.db.remove clNo }
  | .other => s

/-- One turn of the loop that drops the clients that are not ready. The flag is
`goto exit_main_loop`. -/
def dropClient (slice : Slice) (i : ℕ) (st : ParticipantsDb × Bool) : ParticipantsDb × Bool :=
  let (db, exit) := st
  if exit = false ∧ i ∈ db.used ∧ i ∉ slice.readySet then
    let db := db.remove i
    (db, db.nrParticipants = 0)
  else (db, exit)

/-- The loop over all client numbers after too many rounds. -/
def dropClients (db : ParticipantsDb) (slice : Slice) : ParticipantsDb × Bool :=
  forLoop (dropClient slice) maxClients (db, false)

section Equations

-- Modules that do not import one another unfold these definitions. The mark, which ends with
-- the section, has Lean state their equations here, so that all of them use the same ones.
attribute [local simp] sliceBytes adr encodeStripe transmitFecBlock transmitBlock sendSliceAgain
  shrinkSliceSize startRound markParticipantAnswered markRetransmit

end Equations

end Udpcast.Sender
