import Udpcast.Receiver.Slices
import Udpcast.Lib.System

/-!
# Steps of the receiver

`netReceiverMain`, `fecMain` and `writer` as step functions. Each call of a queue
function is a step, with the statements before it, and so is each turn of the loops over
the slice slots.
-/

namespace Udpcast.Receiver

open Fec (Gf Block)
open Queue
open Protocol

/-- Go on after a function that may stop the process. -/
def State.continue (s : State) : Except Failure State → State
  | .ok s' => s'
  | .error f => s.fail f

/-- `findSlice(sliceNo)`, up to its loops. -/
def findSlice (s : State) (sliceNo : ℤ) : State :=
  match s.currentSlice with
  | none => { s with currentSliceNo := sliceNo - 1 }.enter [.newSlice sliceNo]
  | some c =>
    if sliceNo ≤ s.currentSliceNo then s.enter [.scan sliceNo c]
    else if s.streaming then
      if c = 0 then s.continue ((initSlice s c sliceNo).map fun s => { s with found := some c })
      else s.fail .notFirstSlot
    else s.enter [.catchUp sliceNo]

/-- A turn of the backward scan of `findSlice`. -/
def scanSlot (s : State) (sliceNo : ℤ) (pos : ℕ) : State :=
  if (s.slices pos).sliceNo = sliceNo then { s with found := some pos }
  else if (s.slices pos).state = .free then { s with found := none }
  else s.enter [.scan sliceNo (if pos = 0 then nrSlices - 1 else pos - 1)]

/-- The condition of the loop at the end of `findSlice`, and what it decides. -/
def catchUp (s : State) (sliceNo : ℤ) : State :=
  if s.receivedSliceNo + 2 < sliceNo ∨ sliceNo ≠ s.currentSliceNo + 1 then
    s.enter [.findSlice (s.receivedSliceNo + 1),
      if s.config.ignoreLostData then .fakeSliceComplete else .dropped, .catchUp sliceNo]
  else s.enter [.newSlice sliceNo]

/-- `newSlice(sliceNo)` takes a slot. -/
def takeSlot (s : State) (sliceNo : ℤ) : State :=
  let i := pcGetConsumerPosition s.freeSlicesPc
  let s := { s with
    freeSlicesPc := pcConsumed s.freeSlicesPc 1
    allocated := s.allocated + 1 }
  if (s.slices i).state = .free then
    (s.enter [.reserve i sliceNo]).setSlice i
      { s.slices i with base := pcGetConsumerPosition s.freeMemQueue }
  else s.fail .slotNotFree

/-- What follows `findSlice` in the function that has received the message. -/
def process (s : State) : ServerMsg → Except Failure State
  | .data sliceNo blockNo bytes _ =>
    match s.found with
    | some i => processDataBlock s i sliceNo blockNo bytes
    | none => .ok s
  | .fec stripes _ blockNo bytes _ =>
    match s.found with
    | some i => processFecBlock s i stripes blockNo bytes
    | none => .ok s
  | .reqack sliceNo bytes rxmit _ => processReqAck s sliceNo bytes rxmit
  | .hello => .ok s

/-- A state in which a slot counts as received. -/
def SliceState.complete : SliceState → Bool
  | .done | .fec | .fecDone => true
  | .free | .receiving => false

/-- A turn of the loop of `advanceReceivedPointer`. -/
def advance (s : State) (pos : ℕ) : State :=
  if (s.slices pos).state.complete then
    { s with receivedSliceNo := (s.slices pos).sliceNo }.enter
      [.advance (if nrSlices ≤ pos + 1 then pos + 1 - nrSlices else pos + 1)]
  else { s with receivedPtr := pos }

/-- The end of `checkSliceComplete` for slot `i`. -/
def handOver (s : State) (i : ℕ) : State :=
  if s.useFec then
    let n := pcGetProducerPosition s.fecDataPc
    if (s.slices i).state = .done ∨ (s.slices i).state = .fec then
      match pcProduce s.fecDataPc 1 with
      | some q =>
        { s with
          fecSlices := Function.update s.fecSlices n i, fecDataPc := q, queued := s.queued + 1 }
      | none => s.fail .overflow
    else s.fail .notComplete
  else s.enter [.cleanup]

/-- A turn of the loop of `cleanupSlices(doneState)`, up to `state = SLICE_FREE`: the
slot that is given to the writer and its size, unless the loop ends. -/
def cleanupSlices (s : State) (doneState : SliceState) : Except Failure (State × Option (ℕ × ℕ)) :=
  let pos := pcGetProducerPosition s.freeSlicesPc
  let bytes := (s.slices pos).bytes
  if (s.slices pos).state ≠ doneState then .ok (s, none)
  else if bytes = 0 then .ok ({ s with data := pcProduceEnd s.data }, some (pos, bytes))
  else
    match pcProduce s.data bytes with
    | some q => .ok ({ s with data := q, released := s.released + bytes }, some (pos, bytes))
    | none => .error .overflow

/-- The rest of a turn of that loop. -/
def freeSlot (s : State) (pos bytes : ℕ) : Except Failure State :=
  match pcProduce s.freeSlicesPc 1 with
  | some q =>
    .ok ({ s with
      freeSlicesPc := q
      freed := s.freed + 1
      endReached := if bytes = 0 then 2 else s.endReached }.setSlice pos
        { s.slices pos with state := .free })
  | none => .error .overflow

/-- A step of `netReceiverMain` in the course of `dispatchMessage`. -/
def runTask (s : State) : Task → Option State
  | .findSlice n => some (findSlice s n)
  | .scan n pos => some (scanSlot s n pos)
  | .catchUp n => some (catchUp s n)
  | .dropped => some (s.fail .droppedByServer)
  | .fakeSliceComplete => some (s.enter [.findSlice (s.receivedSliceNo + 1), .fakeFound])
  | .fakeFound =>
    some (match s.found with
      | some i => s.continue (completeByForce s i)
      | none => s.fail .nothingToFake)
  | .newSlice n => (pcConsume s.freeSlicesPc 1).map fun _ => s.enter [.takeSlot n]
  | .takeSlot n => some (takeSlot s n)
  | .reserve i n =>
    (pcConsume s.freeMemQueue (s.config.blockSize * maxSliceSize)).map fun _ =>
      s.continue ((initSlice s i n).map fun s =>
        { s with found := some i, started := s.started + 1 })
  | .process msg => some (s.continue (process s msg))
  | .setNextBlock i =>
    match s.localBlocks with
    | b :: rest =>
      some (s.continue (finishFecBlock { s with nextBlock := b, localBlocks := rest } i))
    | [] => (pcConsume s.freeBlocksPc 1).map fun _ => s.enter [.takeBlock i]
  | .takeBlock i =>
    some (s.continue (finishFecBlock { s with
      nextBlock := s.blockAddresses (pcGetConsumerPosition s.freeBlocksPc)
      freeBlocksPc := pcConsumed s.freeBlocksPc 1
      blocksTaken := s.blocksTaken + 1 } i))
  | .advanceReceivedPointer => some (advance s s.receivedPtr)
  | .advance pos => some (advance s pos)
  | .handOver i => some (handOver s i)
  | .cleanup =>
    some (match cleanupSlices s .done with
      | .ok (s, some (pos, bytes)) => s.enter [.freeSlot pos bytes]
      | .ok (s, none) => s
      | .error f => s.fail f)
  | .freeSlot pos bytes =>
    some (s.continue ((freeSlot s pos bytes).map fun s => s.enter [.cleanup]))

/-- A step of `netReceiverMain`. -/
def netStep (s : State) : Option State :=
  match s.tasks with
  | [] => none
  | t :: rest => runTask { s with tasks := rest } t

/-- `freeBlockSpace`. -/
def freeBlockSpace (s : State) (block : Option ℕ) : Except Failure State :=
  match block with
  | none => .error .noAddress
  | some b =>
    match pcProduce s.freeBlocksPc 1 with
    | some q =>
      .ok { s with
        blockAddresses :=
          Function.update s.blockAddresses (pcGetProducerPosition s.freeBlocksPc) b
        freeBlocksPc := q
        blocksReturned := s.blocksReturned + 1 }
    | none => .error .overflow

/-- `fecMain` gives back FEC block `k` of a stripe of slot `i`, if there is one. -/
def releaseStep (s : State) (i stripe k : ℕ) : State :=
  let slice := s.slices i
  if slice.fecStripes ≤ stripe then { s with fecThread := .cleanup }
  else if slice.missingDataBlocks stripe < slice.fecBlocks stripe then s.fail .tooManyFecBlocks
  else if slice.fecBlocks stripe ≤ k then { s with fecThread := .release i (stripe + 1) 0 }
  else
    let d := stripe + k * slice.fecStripes
    s.continue ((freeBlockSpace s (slice.fecDescs d).adr).map fun s =>
      { s with fecThread := .release i stripe (k + 1) }.setSlice i
        { slice with
          fecDescs := Function.update slice.fecDescs d { slice.fecDescs d with adr := none } })

/-- A step of `fecMain`. -/
def fecStep (s : State) : Option State :=
  match s.fecThread with
  | .absent => none
  | .loopTest => some { s with fecThread := if s.endReached < 2 then .consume else .exited }
  | .consume => (pcConsume s.fecDataPc 1).map fun _ => { s with fecThread := .consumed }
  | .consumed =>
    let i := s.fecSlices (pcGetConsumerPosition s.fecDataPc)
    let s := { s with fecDataPc := pcConsumed s.fecDataPc 1, dequeued := s.dequeued + 1 }
    some (match (s.slices i).state with
      | .fec => { s with fecThread := .decode i }
      | .done =>
        { s with fecThread := .cleanup }.setSlice i { s.slices i with state := .fecDone }
      | _ => { s with fecThread := .loopTest })
  | .decode i =>
    some (s.continue ((decodeSlice s i).map fun s =>
      { s with fecThread := .release i 0 0 }.setSlice i { s.slices i with state := .fecDone }))
  | .release i stripe k => some (releaseStep s i stripe k)
  | .cleanup =>
    some (match cleanupSlices s .fecDone with
      | .ok (s, some (pos, bytes)) => { s with fecThread := .freeSlot pos bytes }
      | .ok (s, none) => { s with fecThread := .loopTest }
      | .error f => s.fail f)
  | .freeSlot pos bytes =>
    some (s.continue ((freeSlot s pos bytes).map fun s => { s with fecThread := .cleanup }))
  | .exited => none

/-- A step of `writer`; `n` is what `write` returns. -/
def writerStep (s : State) (n : ℕ) : Option State :=
  match s.writer with
  | .wait =>
    let pos := pcGetConsumerPosition s.data
    (pcConsumeContiguousMinAmount s.data 4096).map fun bytes =>
      if bytes = 0 then { s with writer := .exited }
      else
        let bytes :=
          if pos + bytes ≠ s.dataBufSize ∧ (pos + bytes) % 4096 < bytes then
            bytes - (pos + bytes) % 4096
          else bytes
        let bytes := if 128 * 1024 < bytes then 64 * 1024 else bytes
        { s with writer := .write pos bytes }
  | .write pos bytes =>
    if n ≤ bytes then
      some { s with
        output := s.output ++ (List.range n).map fun x => s.dataBuffer (pos + x)
        writer := .consumed n }
    else none
  | .consumed bytes =>
    some { s with
      data := pcConsumed s.data bytes
      written := s.written + bytes
      writer := .produce bytes }
  | .produce bytes =>
    some (match pcProduce s.freeMemQueue bytes with
      | some q =>
        { s with freeMemQueue := q, memReturned := s.memReturned + bytes, writer := .wait }
      | none => s.fail .overflow)
  | .exited => none

/-- The payload of a message as it is stored: what fits into a block. -/
def storePayload (s : State) (msg : ServerMsg) : State :=
  let s := { s with isAddress := landing s }
  match msg with
  | .data _ _ _ payload | .fec _ _ _ _ payload =>
    s.store s.isAddress (min payload.length s.config.blockSize) (payload.getD · (.ofNat 0))
  | .reqack _ _ _ readySet =>
    s.store s.isAddress (min (maxClients / 8) s.config.blockSize) (mapByte readySet)
  | .hello => s

/-- What `dispatchMessage` calls for a message. -/
def dispatch (msg : ServerMsg) : List Task :=
  match msg with
  | .data sliceNo _ _ _ | .fec _ sliceNo _ _ _ | .reqack sliceNo _ _ _ =>
    [.findSlice sliceNo, .process msg]
  | .hello => []

/-- `dispatchMessage` receives a message. -/
def receiveStep (s : State) (msg : ServerMsg) : Option State :=
  if s.tasks.isEmpty ∧ s.endReached < 3 then some ((storePayload s msg).enter (dispatch msg))
  else none

/-- `dispatchMessage` has waited long enough after the end. -/
def exitWaitStep (s : State) : Option State :=
  if s.tasks.isEmpty ∧ s.endReached = 2 then some { s with endReached := 3 } else none

/-- What can happen: a message arrives, the wait at the end is over, or a thread goes on. -/
inductive Action
  | receive (msg : ServerMsg)
  | exitWait
  | net
  | fec
  | writer (n : ℕ)

/-- The effect of an action, unless the process has stopped or the thread is blocked. -/
def act (s : State) (a : Action) : Option State :=
  if s.failure = none then
    match a with
    | .receive msg => receiveStep s msg
    | .exitWait => exitWaitStep s
    | .net => netStep s
    | .fec => fecStep s
    | .writer n => writerStep s n
  else none

/-- A slot before its first use. -/
def Slice.unused : Slice :=
  ⟨.free, 0, -1, 0, 0, 0, false, 0, ∅, fun _ => 0, 0, fun _ => 0, fun _ => ⟨none, 0⟩⟩

/-- `spawnNetReceiver`, `netReceiverMain` and `writer` at their start. -/
def start (config : Config) (streaming : Bool) (mem : ℕ → Gf) (blockData : ℕ → Block) :
    Option State :=
  let size := config.blockSize * 4096
  (pcProduce (pcMakeProduconsum size) size).bind fun freeMemQueue =>
    (pcProduce (pcMakeProduconsum nrSlices) nrSlices).bind fun freeSlicesPc =>
    (pcProduce (pcMakeProduconsum nrBlocks) nrBlocks).map fun freeBlocksPc => {
      config := config, streaming := streaming, dataBufSize := size, dataBuffer := mem
      freeMemQueue := freeMemQueue, data := pcMakeProduconsum size
      slices := fun _ => .unused, freeSlicesPc := freeSlicesPc
      fecDataPc := pcMakeProduconsum nrSlices, fecSlices := fun _ => 0
      -- `setNextBlock` has taken the first block
      freeBlocksPc := pcConsumed freeBlocksPc 1, blockAddresses := id
      localBlocks := [], nextBlock := 0, blockData := blockData
      currentSlice := none, currentSliceNo := if streaming then 0 else -1
      receivedPtr := 0, receivedSliceNo := -1, useFec := false
      endReached := 0, netEndReached := false, isAddress := .pool 0, found := none
      tasks := if streaming then [] else [.newSlice 0]
      fecThread := .absent, writer := .wait, failure := none, output := [], replies := []
      allocated := 0, started := 0, freed := 0, queued := 0, dequeued := 0
      memTaken := 0, memReturned := 0, released := 0, written := 0
      blocksTaken := 1, blocksReturned := 0 }

/-- Block sizes for which the counters of the ring cannot wrap around; a block has to fit
into a datagram. -/
structure ValidConfig (config : Config) : Prop where
  blockSize_pos : 0 < config.blockSize
  blockSize_lt : 3 * (config.blockSize * 4096) < 2 ^ 32

end Udpcast.Receiver
