import Udpcast.Protocol.Messages
import Udpcast.Queue.Calls

/-!
# State of the receiver

The data of `receivedata.c` and `receiver-diskio.c` during a transfer: the configuration,
the ring buffer with its queues, the slice slots, the pool of FEC blocks, and where the
three threads stand. The network thread calls functions that call each other, so it
has a stack of what is left to do.
-/

namespace Udpcast.Receiver

open Fec (Gf Block)
open Queue (Produconsum)
open Protocol

/-- `NR_SLICES`. -/
def nrSlices : ℕ := 4

/-- `NR_BLOCKS`. -/
def nrBlocks : ℕ := 4096

/-- The part of `struct net_config` and `struct client_config` that does not change. -/
structure Config where
  blockSize : ℕ
  /-- `FLAG_IGNORE_LOST_DATA`. -/
  ignoreLostData : Bool
  /-- `sender_is_newgen`. -/
  senderIsNewgen : Bool
  clientNumber : ℕ

/-- `slice_state_t`. -/
inductive SliceState
  | free
  | receiving
  | done
  | fec
  | fecDone
  deriving DecidableEq

/-- `struct fec_desc`; an address is the number of a block of the pool. -/
structure FecDesc where
  adr : Option ℕ
  fecBlockNo : ℕ
  deriving DecidableEq

/-- `struct slice`. -/
structure Slice where
  state : SliceState
  base : ℕ
  sliceNo : ℤ
  blocksTransferred : ℤ
  dataBlocksTransferred : ℤ
  bytes : ℕ
  bytesKnown : Bool
  freePos : ℕ
  /-- `retransmit.map`: the data blocks received. -/
  map : Finset ℕ
  missingDataBlocks : ℕ → ℕ
  fecStripes : ℕ
  fecBlocks : ℕ → ℕ
  fecDescs : ℕ → FecDesc

/-- Where a payload is stored. -/
inductive Place
  /-- An offset in the ring. -/
  | ring (a : ℕ)
  /-- A block of the pool. -/
  | pool (b : ℕ)
  deriving DecidableEq

/-- What the network thread has to do, one item for each point at which other threads may
step in. A slice found by `findSlice` is handed over in `found`. -/
inductive Task
  /-- `findSlice(sliceNo)`. -/
  | findSlice (sliceNo : ℤ)
  /-- The backward scan of `findSlice` at slot `pos`. -/
  | scan (sliceNo : ℤ) (pos : ℕ)
  /-- The loop at the end of `findSlice`. -/
  | catchUp (sliceNo : ℤ)
  /-- The exit in that loop. -/
  | dropped
  /-- `fakeSliceComplete()`. -/
  | fakeSliceComplete
  /-- `fakeSliceComplete()` after its call of `findSlice`. -/
  | fakeFound
  /-- `newSlice(sliceNo)`, before `pc_consume(free_slices_pc, 1)`. -/
  | newSlice (sliceNo : ℤ)
  /-- Before `pc_consumed(free_slices_pc, 1)`. -/
  | takeSlot (sliceNo : ℤ)
  /-- Before `pc_consume(freeMemQueue, ..)`. -/
  | reserve (i : ℕ) (sliceNo : ℤ)
  /-- The rest of `processDataBlock`, `processFecBlock` or `processReqAck`. -/
  | process (msg : ServerMsg)
  /-- `setNextBlock()` in `processFecBlock` for slot `i`, before `pc_consume(freeBlocks_pc, 1)`. -/
  | setNextBlock (i : ℕ)
  /-- Before `pc_consumed(freeBlocks_pc, 1)`. -/
  | takeBlock (i : ℕ)
  /-- `advanceReceivedPointer()`. -/
  | advanceReceivedPointer
  /-- The loop of `advanceReceivedPointer` at slot `pos`. -/
  | advance (pos : ℕ)
  /-- The end of `checkSliceComplete`: hand slot `i` over. -/
  | handOver (i : ℕ)
  /-- `cleanupSlices(SLICE_DONE)`. -/
  | cleanup
  /-- In `cleanupSlices`, before `state = SLICE_FREE`. -/
  | freeSlot (pos bytes : ℕ)

/-- Where `fecMain` stands. -/
inductive FecPc
  /-- The thread has not been started. -/
  | absent
  /-- The condition of the loop. -/
  | loopTest
  /-- Before `pc_consume(fec_data_pc, 1)`. -/
  | consume
  /-- Before `pc_consumed(fec_data_pc, 1)`. -/
  | consumed
  /-- Slot `i` is to be decoded. -/
  | decode (i : ℕ)
  /-- Before FEC block `k` of a stripe of slot `i` is given back. -/
  | release (i stripe k : ℕ)
  /-- `cleanupSlices(SLICE_FEC_DONE)`. -/
  | cleanup
  /-- In `cleanupSlices`, before `state = SLICE_FREE`. -/
  | freeSlot (pos bytes : ℕ)
  | exited
  deriving DecidableEq

/-- Where `writer` stands. -/
inductive WriterPc
  /-- Before `pc_consumeContiguousMinAmount`. -/
  | wait
  /-- Before `write`. -/
  | write (pos bytes : ℕ)
  /-- Before `pc_consumed(fifo->data, bytes)`. -/
  | consumed (bytes : ℕ)
  /-- Before `pc_produce(fifo->freeMemQueue, bytes)`. -/
  | produce (bytes : ℕ)
  | exited
  deriving DecidableEq

/-- Why the process has stopped. -/
inductive Failure
  /-- `pc_produce` has reported an overflow. -/
  | overflow
  /-- "Previous slice size not known". -/
  | previousSizeUnknown
  /-- "Slice no mismatch". -/
  | sliceNoMismatch
  /-- "Byte number mismatch". -/
  | byteNumberMismatch
  /-- "Dropped by server". -/
  | droppedByServer
  /-- "We have been dropped by sender". -/
  | droppedBySender
  /-- "Bad base". -/
  | badBase
  /-- `initSlice`: the slice is free or being received. -/
  | sliceInUse
  /-- `newSlice`: the slot is free. -/
  | slotNotFree
  /-- `findSlice`: streaming uses the first slot. -/
  | notFirstSlot
  /-- `fakeSliceComplete`: there is a slice, and it is not done. -/
  | nothingToFake
  /-- `checkSliceComplete`: `use_fec == 1`. -/
  | fecNotUsed
  /-- `checkSliceComplete`: the slice that is handed over is done, or can be decoded. -/
  | notComplete
  /-- `processDataBlock`: `missing_data_blocks[stripe] >= 0`. -/
  | missingNegative
  /-- `processDataBlock` and `freeBlockSpace`: the address is not 0. `fec_decode_one_stripe` has
  no assertion about it, but reads the block at the address. -/
  | noAddress
  /-- `fec_decode_one_stripe`: as many blocks are missing as FEC blocks are there. -/
  | erasedMismatch
  /-- `fecMain`: `missing_data_blocks[stripe] >= fec_blocks[stripe]`. -/
  | tooManyFecBlocks
  /-- An `assert` of the codec. -/
  | codec
  deriving DecidableEq

/-- The receiver during a transfer. -/
structure State where
  config : Config
  /-- `FLAG_STREAMING`, which is cleared in the course of the transfer. -/
  streaming : Bool
  dataBufSize : ℕ
  dataBuffer : ℕ → Gf
  freeMemQueue : Produconsum
  /-- `fifo->data`. -/
  data : Produconsum
  slices : ℕ → Slice
  freeSlicesPc : Produconsum
  fecDataPc : Produconsum
  /-- `fec_slices`. -/
  fecSlices : ℕ → ℕ
  freeBlocksPc : Produconsum
  blockAddresses : ℕ → ℕ
  /-- `localBlockAddresses` below `localPos`, last one first. -/
  localBlocks : List ℕ
  nextBlock : ℕ
  /-- The memory at `blockData`. -/
  blockData : ℕ → Block
  currentSlice : Option ℕ
  currentSliceNo : ℤ
  receivedPtr : ℕ
  receivedSliceNo : ℤ
  /-- `use_fec`. -/
  useFec : Bool
  endReached : ℕ
  netEndReached : Bool
  /-- `data_hdr.msg_iov[1].iov_base`. -/
  isAddress : Place
  found : Option ℕ
  tasks : List Task
  fecThread : FecPc
  writer : WriterPc
  failure : Option Failure
  /-- The bytes written to the output. -/
  output : List Gf
  /-- History: the messages sent to the sender, latest first. -/
  replies : List ClientMsg
  /-- History: slots taken from the free slices, set up for a slice, and given back. -/
  allocated : ℕ
  started : ℕ
  freed : ℕ
  /-- History: slots put into the FEC queue and taken out of it. -/
  queued : ℕ
  dequeued : ℕ
  /-- History: bytes taken out of the free memory and given back. -/
  memTaken : ℕ
  memReturned : ℕ
  /-- History: bytes put into the data queue and taken out of it. -/
  released : ℕ
  written : ℕ
  /-- History: blocks taken out of the free blocks and given back. -/
  blocksTaken : ℕ
  blocksReturned : ℕ

/-- Update one slice. -/
def State.setSlice (s : State) (i : ℕ) (slice : Slice) : State :=
  { s with slices := Function.update s.slices i slice }

/-- Stop with a failure. -/
def State.fail (s : State) (f : Failure) : State := { s with failure := some f }

/-- Enter functions: their tasks come first. -/
def State.enter (s : State) (tasks : List Task) : State := { s with tasks := tasks ++ s.tasks }

/-- Send a message to the sender. -/
def State.send (s : State) (msg : ClientMsg) : State := { s with replies := msg :: s.replies }

/-- The number of blocks in a slice. -/
def getSliceBlocks (slice : Slice) (config : Config) : ℕ :=
  (slice.bytes + config.blockSize - 1) / config.blockSize

/-- `ADR(x, bs)`: offset of block `x` in the ring. -/
def adr (s : State) (slice : Slice) (x : ℕ) : ℕ :=
  (slice.base + x * s.config.blockSize) % s.dataBufSize

end Udpcast.Receiver
