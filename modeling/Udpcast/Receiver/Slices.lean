import Udpcast.Receiver.State

/-!
# Operations on slices

The functions of `receivedata.c` that work on one slice: its initialisation, its size, the
arrival of a data or FEC block, the answer to a REQACK, completion, and decoding.
-/

namespace Udpcast.Receiver

open Fec (Gf Block)
open Queue
open Protocol

/-- The byte at offset `x` of a place. The blocks of the pool lie one after the other. -/
def State.byteAt (s : State) (p : Place) (x : ℕ) : Gf :=
  match p with
  | .ring a => s.dataBuffer (a + x)
  | .pool b => s.blockData (b + x / s.config.blockSize) (x % s.config.blockSize)

/-- Write `n` bytes to a place. -/
def State.store (s : State) (p : Place) (n : ℕ) (bytes : ℕ → Gf) : State :=
  match p with
  | .ring a =>
    { s with
      dataBuffer := fun c => if a ≤ c ∧ c < a + n then bytes (c - a) else s.dataBuffer c }
  | .pool b =>
    { s with
      blockData := Function.update s.blockData b fun x =>
        if x < n then bytes x else s.blockData b x }

/-- `memcpy(p, isAddress, blockSize)`, unless the block is there already. -/
def State.copyBlock (s : State) (p : Place) : State :=
  if p = s.isAddress then s else s.store p s.config.blockSize (s.byteAt s.isAddress)

/-- Where `dispatchMessage` lets the next payload be stored. -/
def landing (s : State) : Place :=
  match s.currentSlice with
  | some c =>
    if (s.slices c).freePos < maxSliceSize then .ring (adr s (s.slices c) (s.slices c).freePos)
    else .pool s.nextBlock
  | none => .pool s.nextBlock

/-- The slice after the first statements of `initSlice`. -/
def Slice.clear (slice : Slice) : Slice :=
  { slice with
    state := .receiving, blocksTransferred := 0, dataBlocksTransferred := 0, map := ∅
    freePos := 0, bytes := 0 }

/-- The size that `initSlice` assumes: with `FLAG_IGNORE_LOST_DATA` that of the current slice. -/
def State.assumedBytes (s : State) : ℕ :=
  match s.currentSlice with
  | some c => if s.config.ignoreLostData then (s.slices c).bytes else 0
  | none => 0

/-- The slice as `initSlice` leaves it. -/
def Slice.start (slice : Slice) (sliceNo : ℤ) (bytes : ℕ) : Slice :=
  { slice.clear with
    bytes := bytes, bytesKnown := false, sliceNo := sliceNo
    missingDataBlocks := fun _ => 0, fecStripes := 0, fecBlocks := fun _ => 0
    fecDescs := fun _ => ⟨none, 0⟩ }

/-- `initSlice`. -/
def initSlice (s : State) (i : ℕ) (sliceNo : ℤ) : Except Failure State :=
  let slice := s.slices i
  if slice.state ≠ .free ∧ slice.state ≠ .receiving then .error .sliceInUse
  else
    let s := s.setSlice i slice.clear
    if ∃ c ∈ s.currentSlice, (s.slices c).bytesKnown = false then .error .previousSizeUnknown
    else if s.streaming = false ∧ s.currentSliceNo ≠ sliceNo - 1 then .error .sliceNoMismatch
    else
      .ok ({ s with currentSlice := some i, currentSliceNo := sliceNo }.setSlice i
        (slice.start sliceNo s.assumedBytes))

/-- `setSliceBytes`. -/
def setSliceBytes (s : State) (i bytes : ℕ) : Except Failure State :=
  let slice := s.slices i
  if slice.bytesKnown then
    if slice.bytes = bytes then .ok s else .error .byteNumberMismatch
  else
    let s := s.setSlice i { slice with bytesKnown := true, bytes := bytes }
    let s := if bytes = 0 then { s with netEndReached := true } else s
    .ok (if s.streaming then s
      else { s with
        freeMemQueue := pcConsumed s.freeMemQueue bytes
        memTaken := s.memTaken + bytes })

/-- `checkSliceComplete`, up to the call of `advanceReceivedPointer`. -/
def checkSliceComplete (s : State) (i : ℕ) : Except Failure State :=
  let slice := s.slices i
  let blocksInSlice : ℤ := getSliceBlocks slice s.config
  if slice.state ≠ .receiving ∨ blocksInSlice ≠ slice.blocksTransferred then .ok s
  else
    let s :=
      if s.streaming then
        { s with
          freeMemQueue := pcConsumed s.freeMemQueue slice.bytes
          memTaken := s.memTaken + slice.bytes
          streaming := false }
      else s
    let s := s.enter [.advanceReceivedPointer, .handOver i]
    if blocksInSlice = slice.dataBlocksTransferred then
      .ok (s.setSlice i { slice with state := .done })
    else if s.useFec = false then .error .fecNotUsed
    else .ok (s.setSlice i { slice with state := .fec })

/-- `fakeSliceComplete` for the slice in slot `i`. -/
def completeByForce (s : State) (i : ℕ) : Except Failure State :=
  let slice := s.slices i
  if slice.state = .done then .error .nothingToFake
  else
    (if slice.bytesKnown then .ok s else setSliceBytes s i slice.bytes).bind fun s =>
      let blocks : ℤ := getSliceBlocks (s.slices i) s.config
      checkSliceComplete (s.setSlice i
        { s.slices i with blocksTransferred := blocks, dataBlocksTransferred := blocks }) i

/-- The loop of `processDataBlock` that moves `freePos`, `n` positions below the limit. -/
def skipReceived (map : Finset ℕ) : ℕ → ℕ → ℕ
  | 0, pos => pos
  | n + 1, pos => if pos ∈ map then skipReceived map n (pos + 1) else pos

/-- The FEC part of `processDataBlock`: one block less is missing in its stripe. A FEC
block that becomes superfluous goes to the local list. -/
def countArrival (slice : Slice) (localBlocks : List ℕ) (blockNo : ℕ) :
    Except Failure (Slice × List ℕ) :=
  if slice.fecStripes = 0 then .ok (slice, localBlocks)
  else
    let stripe := blockNo % slice.fecStripes
    let missing := slice.missingDataBlocks stripe
    if missing = 0 then .error .missingNegative
    else
      let slice := { slice with
        missingDataBlocks := Function.update slice.missingDataBlocks stripe (missing - 1) }
      if missing - 1 < slice.fecBlocks stripe then
        let blockIdx := stripe + (slice.fecBlocks stripe - 1) * slice.fecStripes
        match (slice.fecDescs blockIdx).adr with
        | none => .error .noAddress
        | some adr =>
          .ok ({ slice with
            fecBlocks := Function.update slice.fecBlocks stripe (slice.fecBlocks stripe - 1)
            fecDescs := Function.update slice.fecDescs blockIdx
              { slice.fecDescs blockIdx with adr := none }
            blocksTransferred := slice.blocksTransferred - 1 }, adr :: localBlocks)
      else .ok (slice, localBlocks)

/-- What `processDataBlock` does with the size in the message. -/
def noteBytes (s : State) (i bytes : ℕ) : Except Failure State :=
  if s.config.senderIsNewgen then
    if bytes ≠ 0 then setSliceBytes s i bytes else .ok { s with netEndReached := false }
  else .ok s

/-- `processDataBlock`, from `SET_BIT` on. -/
def countData (s : State) (i blockNo : ℕ) : Except Failure State :=
  let slice := s.slices i
  let map := insert blockNo slice.map
  (countArrival { slice with map := map } s.localBlocks blockNo).bind fun (slice, localBlocks) =>
    checkSliceComplete ({ s with localBlocks := localBlocks }.setSlice i
      { slice with
        dataBlocksTransferred := slice.dataBlocksTransferred + 1
        blocksTransferred := slice.blocksTransferred + 1
        freePos := skipReceived map (maxSliceSize - slice.freePos) slice.freePos }) i

/-- `processDataBlock` for the slice in slot `i`. -/
def processDataBlock (s : State) (i sliceNo blockNo bytes : ℕ) : Except Failure State :=
  let slice := s.slices i
  if slice.state ≠ .receiving then .ok s
  else if s.currentSliceNo + 2 < sliceNo then .error .droppedBySender
  else if blockNo ∈ slice.map then .ok s
  else if slice.base % s.config.blockSize ≠ 0 then .error .badBase
  else
    (noteBytes (s.copyBlock (.ring (adr s slice blockNo))) i bytes).bind fun s =>
      countData s i blockNo

/-- A turn of the loop of `initSliceForFec` over the bytes of the map; a byte 0xff is skipped. -/
def scanByte (map : Finset ℕ) (blocksInSlice stripes : ℕ) (missing : ℕ → ℕ) (i : ℕ) : ℕ → ℕ :=
  if ∀ j < 8, 8 * i + j ∈ map then missing
  else
    (List.range' (8 * i) (min (8 * i + 8) blocksInSlice - 8 * i)).foldl
      (fun missing j =>
        if j ∈ map then missing
        else Function.update missing (j % stripes) (missing (j % stripes) + 1)) missing

/-- The loop of `initSliceForFec` over the map, once the counters are cleared. -/
def scanMap (map : Finset ℕ) (blocksInSlice stripes : ℕ) : ℕ → ℕ :=
  (List.range ((blocksInSlice + 7) / 8)).foldl (scanByte map blocksInSlice stripes) fun _ => 0

/-- `initSliceForFec`, with the assignment before it. -/
def initSliceForFec (s : State) (i stripes : ℕ) : State :=
  let slice := s.slices i
  let blocksInSlice := getSliceBlocks slice s.config
  let s :=
    if s.useFec then s else { s with useFec := true, fecThread := .loopTest }
  s.setSlice i
    { slice with
      fecStripes := stripes
      missingDataBlocks := fun k =>
        if k < stripes then scanMap slice.map blocksInSlice stripes k
        else slice.missingDataBlocks k
      fecBlocks := fun k => if k < stripes then 0 else slice.fecBlocks k }

/-- `cleanupSlices(SLICE_DONE)`, if FEC is not in use. -/
def cleanupWithoutFec (s : State) : List Task := if s.useFec then [] else [.cleanup]

/-- `processFecBlock`, once the size and the number of stripes are noted, up to
`setNextBlock`. -/
def countFec (s : State) (i stripes blockNo : ℕ) : Except Failure State :=
  let slice := s.slices i
  let stripe := blockNo % slice.fecStripes
  if slice.missingDataBlocks stripe ≤ slice.fecBlocks stripe then
    checkSliceComplete (s.enter (.advanceReceivedPointer :: cleanupWithoutFec s)) i
  else if ∃ k < slice.fecBlocks stripe,
      (slice.fecDescs (stripe + k * stripes)).fecBlockNo = blockNo then .ok s
  else
    let s := (s.copyBlock (.pool s.nextBlock)).enter [.setNextBlock i]
    let adr := slice.fecBlocks stripe * stripes + stripe
    .ok (s.setSlice i
      { slice with
        fecDescs := Function.update slice.fecDescs adr ⟨some s.nextBlock, blockNo⟩
        fecBlocks := Function.update slice.fecBlocks stripe (slice.fecBlocks stripe + 1)
        blocksTransferred := slice.blocksTransferred + 1 })

/-- `processFecBlock` for the slice in slot `i`, up to `setNextBlock`. -/
def processFecBlock (s : State) (i stripes blockNo bytes : ℕ) : Except Failure State :=
  let slice := s.slices i
  if slice.state = .free ∨ slice.state = .done ∨ slice.state = .fec then .ok s
  else
    (setSliceBytes s i bytes).bind fun s =>
      if (s.slices i).fecStripes = 0 then countFec (initSliceForFec s i stripes) i stripes blockNo
      else if (s.slices i).fecStripes ≠ stripes then .ok s
      else countFec s i stripes blockNo

/-- The end of `processFecBlock`, after `setNextBlock`. -/
def finishFecBlock (s : State) (i : ℕ) : Except Failure State :=
  checkSliceComplete
    ((s.enter [.advanceReceivedPointer]).setSlice i { s.slices i with freePos := maxSliceSize }) i

/-- Byte `x` of a bit map as it is sent. -/
def mapByte (map : Finset ℕ) (x : ℕ) : Gf :=
  .ofNat (((List.range 8).filter fun j => 8 * x + j ∈ map).map (2 ^ ·)).sum

/-- `BIT_ISSET(clientNumber, readySet)`. -/
def State.isReady (s : State) : Bool :=
  (s.byteAt s.isAddress (s.config.clientNumber / 8)).toNat.testBit (s.config.clientNumber % 8)

/-- `sendRetransmit`. -/
def sendRetransmit (s : State) (slice : Slice) (rxmit : ℕ) : State :=
  s.send (.retransmit slice.sliceNo.toNat (.ofNat rxmit) fun b => b ∈ slice.map)

/-- The answer to a REQACK about the slice in slot `i`. -/
def answer (s : State) (i rxmit : ℕ) : State :=
  let slice := s.slices i
  if (getSliceBlocks slice s.config : ℤ) = slice.blocksTransferred then
    s.send (.ok slice.sliceNo.toNat)
  else sendRetransmit s slice rxmit

/-- `processReqAck`, with the slice that `findSlice` has found. -/
def processReqAck (s : State) (sliceNo bytes rxmit : ℕ) : Except Failure State :=
  if s.isReady then .ok s
  else
    match s.found with
    | none => .ok (s.send (.ok sliceNo))
    | some i =>
      (setSliceBytes s i bytes).bind fun s =>
        checkSliceComplete
          ((answer s i rxmit).enter (.advanceReceivedPointer :: cleanupWithoutFec s)) i

/-- The number of blocks `stripe`, `stripe + stripes`, ... below `nrBlocks`. -/
def stripeBlocks (nrBlocks stripes stripe : ℕ) : ℕ := (nrBlocks - stripe + stripes - 1) / stripes

/-- The blocks of a stripe that have not arrived, as numbers within the stripe. -/
def erasedBlocks (slice : Slice) (nrBlocks stripes stripe : ℕ) : List ℕ :=
  (List.range (stripeBlocks nrBlocks stripes stripe)).filter fun j =>
    stripe + j * stripes ∉ slice.map

/-- The ring after `fec_decode_one_stripe` has padded the last block with zeros. -/
def padLastBlock (s : State) (slice : Slice) : ℕ → Gf :=
  let leftOver := slice.bytes % s.config.blockSize
  if leftOver ≠ 0 then
    let lastBlock := adr s slice (getSliceBlocks slice s.config - 1)
    fun a =>
      if lastBlock + leftOver ≤ a ∧ a < lastBlock + s.config.blockSize then .ofNat 0
      else s.dataBuffer a
  else s.dataBuffer

/-- The tables after `fec_init`. -/
def fecTables : Fec.GfTables := Fec.fecInit .zero

/-- `fec_decode_one_stripe` for the slice in slot `i`. -/
def fecDecodeOneStripe (s : State) (i stripe : ℕ) : Except Failure State :=
  let slice := s.slices i
  let stripes := slice.fecStripes
  let nrBlocks := getSliceBlocks slice s.config
  let erased := erasedBlocks slice nrBlocks stripes stripe
  let nrFecBlocks := slice.fecBlocks stripe
  let desc := fun j => slice.fecDescs (stripe + j * stripes)
  if erased.length ≠ nrFecBlocks then .error .erasedMismatch
  else if ∃ j < nrFecBlocks, (desc j).adr = none then .error .noAddress
  else
    let address := fun j => (desc j).adr.getD 0
    let s := { s with dataBuffer := padLastBlock s slice }
    let blocks := stripeBlocks nrBlocks stripes stripe
    let start := fun j => adr s slice (stripe + j * stripes)
    match Fec.fecDecode fecTables s.config.blockSize (fun j x => s.dataBuffer (start j + x)) blocks
        (fun j => s.blockData (address j)) (fun j => (desc j).fecBlockNo / stripes)
        (erased.getD · 0) nrFecBlocks with
    | none => .error .codec
    | some (out, reduced) =>
      .ok { s with
        dataBuffer := fun a =>
          match (List.range blocks).find? fun j =>
              start j ≤ a ∧ a < start j + s.config.blockSize with
          | some j => out j (a - start j)
          | none => s.dataBuffer a
        blockData := fun b =>
          match (List.range nrFecBlocks).find? fun j => (desc j).adr = some b with
          | some j => reduced j
          | none => s.blockData b }

/-- The decoding of all stripes in `fecMain`. -/
def decodeSlice (s : State) (i : ℕ) : Except Failure State :=
  (List.range (s.slices i).fecStripes).foldlM (fun s stripe => fecDecodeOneStripe s i stripe) s

end Udpcast.Receiver
