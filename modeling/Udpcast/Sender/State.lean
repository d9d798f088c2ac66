import Udpcast.Protocol.Messages
import Udpcast.Queue.Calls

/-!
# State of the sender

The data of `senddata.c`, `participants.c` and `sender-diskio.c` during a transfer: the
configuration, the ring buffer with its queues, the two slices, the return channel,
and where the three threads stand.
-/

namespace Udpcast.Sender

open Fec (Gf Block)
open Queue (Produconsum)
open Protocol

/-- `discovery`: the phase of the search for a good slice size. -/
inductive Discovery
  | doubling
  | reducing
  deriving DecidableEq

/-- The part of `struct net_config` that the transfer uses. The numbers are of type `int`; those
that the command line keeps from being negative are natural numbers here. -/
structure NetConfig where
  /-- `FLAG_ASYNC`. -/
  async : Bool
  /-- `FLAG_SN`: full-duplex. -/
  sn : Bool
  /-- `FLAG_FEC`. -/
  fec : Bool
  /-- `FLAG_STREAMING`. -/
  streaming : Bool
  blockSize : ℕ
  sliceSize : ℕ
  maxSliceSize : ℕ
  defaultSliceSize : ℕ
  discovery : Discovery
  fecStripes : ℤ
  fecRedundancy : ℤ
  fecStripesize : ℤ
  rehelloOffset : ℤ
  retriesUntilDrop : ℤ
  /-- Byte order of the host. -/
  bigEndian : Bool

/-- `state` of a slice. -/
inductive SliceState
  | free
  | new
  | xmitted
  | acked
  | preFree
  deriving DecidableEq

/-- `struct slice`. -/
structure Slice where
  base : ℕ
  sliceNo : ℕ
  bytes : ℕ
  nextBlock : ℕ
  state : SliceState
  rxmitMap : ℕ → Bool
  isXmittedMap : ℕ → Bool
  rxmitId : ℕ
  /-- `sl_reqack.readySet`. -/
  readySet : Finset ℕ
  answeredSet : Finset ℕ
  nrReady : ℤ
  nrAnswered : ℤ
  needRxmit : Bool
  lastGoodBlock : ℕ
  /-- The memory at `fec_data`, a region of its own for each slot. -/
  fecData : ℕ → Block

/-- `BZERO(*slice)`; the memory at `fec_data` is not part of the structure. -/
def Slice.zero (fecData : ℕ → Block) : Slice :=
  ⟨0, 0, 0, 0, .free, fun _ => false, fun _ => false, 0, ∅, ∅, 0, 0, false, 0, fecData⟩

/-- `struct participantsDb`. -/
structure ParticipantsDb where
  nrParticipants : ℤ
  /-- The numbers with `clientTable[i].used`. -/
  used : Finset ℕ

/-- `removeParticipant`. -/
def ParticipantsDb.remove (db : ParticipantsDb) (i : ℕ) : ParticipantsDb :=
  if i ∈ db.used then ⟨db.nrParticipants - 1, db.used.erase i⟩ else db

/-- Where `netSenderMain` stands. -/
inductive NetPc
  /-- Choice of the first slice size. -/
  | init
  /-- Top of the loop: `ackSlice` if everybody is ready. -/
  | cleanupAck
  /-- `isSliceAcked(rexmitSlice)`. -/
  | cleanupFree
  /-- In the loop of `freeSlice`. -/
  | freeLoop
  /-- Shift the transmitted slice to the retransmission slot. -/
  | shift
  /-- Handle a message. -/
  | messages
  /-- Before `pc_consumed(rc.incoming, 1)`. -/
  | messageDone
  /-- Before `pc_produce(rc.freeSpace, 1)`. -/
  | messageFree
  /-- Do needed retransmissions. -/
  | retransmit
  /-- Send a REQACK if all participants answered. -/
  | reqack
  /-- Get a new slice, if one may be transmitted. -/
  | newSlice
  /-- In `makeSlice`. -/
  | making
  /-- Before `pc_consume(fec_data_pc, 1)`. -/
  | takeFec
  /-- `if(xmitSlice->bytes == 0) atEnd = 1`. -/
  | checkEnd
  /-- Transmit the new slice, if there is one. -/
  | send
  /-- In the loop of `sendSlice`, before block `i`. -/
  | sending (i : ℕ)
  /-- The two tests that leave the loop. -/
  | exitTest
  /-- In `pc_consumeAnyWithTimeout`. -/
  | wait
  /-- After a timeout. -/
  | timeout
  /-- The condition of the loop. -/
  | loopTest
  /-- After the loop. -/
  | exited
  deriving DecidableEq

/-- Where the thread stands that cuts slices: `fecMain`, or `netSenderMain` while it is in
`makeSlice`. -/
inductive CutterPc
  | idle
  /-- Before `pc_consume(free_slices_pc, 1)`. -/
  | consumeSlot
  /-- Before `pc_consumed(free_slices_pc, 1)`. -/
  | consumedSlot
  /-- Before `pc_consume(fifo->data, ..)`. -/
  | consumeData (i : ℕ)
  /-- Before `pc_consumed(fifo->data, slice->bytes)`. -/
  | consumedData (i : ℕ)
  /-- Before `fec_encode_all_stripes`. -/
  | encode (i : ℕ)
  /-- Before `pc_produce(fec_data_pc, 1)`. -/
  | produceFec
  deriving DecidableEq

/-- Where `returnChannelMain` stands. -/
inductive ReturnPc
  /-- Before `pc_consumed(freeSpace, 1)`. -/
  | receive
  /-- Before `pc_produce(incoming, 1)`. -/
  | produce (clNo : ℕ) (msg : ClientMsg)

/-- Where `localReader` stands. -/
inductive ReaderPc
  /-- Before `pc_consumeContiguousMinAmount`. -/
  | wait
  /-- Before `read`. -/
  | read (pos bytes : ℕ)
  /-- After `read` has returned `bytes`. -/
  | commit (bytes : ℕ)
  /-- Before `pc_produce(fifo->data, bytes)`. -/
  | produce (bytes : ℕ)
  | exited
  deriving DecidableEq

/-- Why the process has stopped. -/
inductive Failure
  /-- `pc_produce` has reported an overflow. -/
  | overflow
  /-- A failed `assert`. -/
  | assertion
  /-- A null slice pointer is used. -/
  | nullSlice
  /-- The first slice size is negative, by the options or by an overflow: slices of negative
  length would follow, and the model stops here. -/
  | negativeSize
  deriving DecidableEq

/-- The sender during a transfer. -/
structure State where
  config : NetConfig
  dataBufSize : ℕ
  dataBuffer : ℕ → Gf
  freeMemQueue : Produconsum
  /-- `fifo->data`. -/
  data : Produconsum
  slices : ℕ → Slice
  freeSlicesPc : Produconsum
  fecDataPc : Produconsum
  /-- The messages that wait in `rc.q`, with their client numbers. -/
  incoming : List (ℕ × ClientMsg)
  /-- `rc.incoming`. -/
  incomingPc : Produconsum
  /-- `rc.freeSpace`. -/
  freeSpace : Produconsum
  returnChannel : ReturnPc
  db : ParticipantsDb
  net : NetPc
  /-- Local variable of `netSenderMain`. -/
  atEnd : Bool
  /-- Slice being transmitted a first time. -/
  xmitSlice : Option ℕ
  /-- Slice being retransmitted. -/
  rexmitSlice : Option ℕ
  cutter : CutterPc
  /-- Number of the next slice that the cutter makes. -/
  sliceNo : ℕ
  reader : ReaderPc
  /-- The input and its length. -/
  input : ℕ → Gf
  inputSize : ℕ
  /-- How much of the input has been read. -/
  inputPos : ℕ
  failure : Option Failure
  /-- History: the messages sent to the receivers, latest first. -/
  network : List ServerMsg
  /-- History: bytes put into the data queue and bytes taken out of the free memory. -/
  readTotal : ℕ
  freeTaken : ℕ
  /-- History: the sizes of the slices cut so far. -/
  cuts : List ℕ
  /-- History: slots taken from the free slices and slices put into the encoded ones. -/
  allocated : ℕ
  encoded : ℕ
  /-- History: how many slices `netSenderMain` has started to transmit. -/
  taken : ℕ
  /-- History: how many slices have been acknowledged. -/
  acked : ℕ
  /-- History: how many slices have been freed. -/
  freed : ℕ
  /-- History: the ready set of each slice when it was acknowledged. -/
  ackedBy : ℕ → Finset ℕ

/-- Update one slice. -/
def State.setSlice (s : State) (i : ℕ) (slice : Slice) : State :=
  { s with slices := Function.update s.slices i slice }

/-- Stop with a failure. -/
def State.fail (s : State) (f : Failure) : State := { s with failure := some f }

/-- `getSliceBlocks`. -/
def getSliceBlocks (slice : Slice) (config : NetConfig) : ℕ :=
  (slice.bytes + config.blockSize - 1) / config.blockSize

section Equations

-- Modules that do not import one another unfold these definitions. The mark, which ends with
-- the section, has Lean state their equations here, so that all of them use the same ones.
attribute [local simp] Slice.zero State.setSlice State.fail getSliceBlocks

end Equations

end Udpcast.Sender
