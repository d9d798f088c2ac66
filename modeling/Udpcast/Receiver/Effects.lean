import Udpcast.Receiver.Stream

/-!
# What the functions on slices do

One lemma for each function says everything its success can do. The rest of the state,
which no function on a slice touches, is one record.
-/

namespace Udpcast.Receiver

open Fec (Gf Block)
open Queue
open Protocol

/-- The part of the state that the functions on slices leave alone. -/
structure Rest where
  config : Config
  dataBufSize : ℕ
  data : Produconsum
  freeSlicesPc : Produconsum
  fecDataPc : Produconsum
  fecSlices : ℕ → ℕ
  freeBlocksPc : Produconsum
  blockAddresses : ℕ → ℕ
  nextBlock : ℕ
  currentSlice : Option ℕ
  currentSliceNo : ℤ
  receivedPtr : ℕ
  receivedSliceNo : ℤ
  endReached : ℕ
  isAddress : Place
  found : Option ℕ
  writer : WriterPc
  failure : Option Failure
  output : List Gf
  allocated : ℕ
  started : ℕ
  freed : ℕ
  queued : ℕ
  dequeued : ℕ
  memReturned : ℕ
  released : ℕ
  written : ℕ
  blocksTaken : ℕ
  blocksReturned : ℕ

def State.rest (s : State) : Rest :=
  ⟨s.config, s.dataBufSize, s.data, s.freeSlicesPc, s.fecDataPc, s.fecSlices, s.freeBlocksPc,
    s.blockAddresses, s.nextBlock, s.currentSlice, s.currentSliceNo, s.receivedPtr,
    s.receivedSliceNo, s.endReached, s.isAddress, s.found, s.writer, s.failure, s.output,
    s.allocated, s.started, s.freed, s.queued, s.dequeued, s.memReturned, s.released,
    s.written, s.blocksTaken, s.blocksReturned⟩

variable {s s' : State} {i j b n bytes stripes : ℕ}

/-- Setting a slot does not touch the rest of the state. -/
@[simp] theorem setSlice_rest (slice : Slice) : (s.setSlice i slice).rest = s.rest := rfl

/-- Entering tasks does not touch it either. -/
@[simp] theorem enter_rest (tasks : List Task) : (s.enter tasks).rest = s.rest := rfl

/-- Nor does an answer. -/
@[simp] theorem send_rest (msg : ClientMsg) : (s.send msg).rest = s.rest := rfl

/-- The slot that is set. -/
@[simp] theorem setSlice_self (slice : Slice) : (s.setSlice i slice).slices i = slice :=
  Function.update_self ..

/-- The other slots stay as they are. -/
theorem setSlice_of_ne (slice : Slice) (h : j ≠ i) : (s.setSlice i slice).slices j = s.slices j :=
  Function.update_of_ne h ..

/-! ## The scan of the map -/

section Scan

variable {map : Finset ℕ} {slice : Slice} {blocksInSlice k : ℕ}

/-- The missing blocks of a stripe among the first `n` blocks. -/
def missingBelow (map : Finset ℕ) (stripes n k : ℕ) : ℕ :=
  ((Finset.range n).filter fun j => j ∉ map ∧ j % stripes = k).card

/-- How many blocks of a stripe of a slice are missing. -/
def countMissing (slice : Slice) (blocksInSlice stripes stripe : ℕ) : ℕ :=
  ((Finset.range blocksInSlice).filter fun j => j ∉ slice.map ∧ j % stripes = stripe).card

/-- One more block changes the count of its own stripe, and only if it is missing. -/
theorem missingBelow_succ : missingBelow map stripes (n + 1) k =
    missingBelow map stripes n k + if n ∉ map ∧ n % stripes = k then 1 else 0 := by
  unfold missingBelow
  rw [Finset.range_add_one, Finset.filter_insert]
  split
  · rw [Finset.card_insert_of_notMem (by simp)]
  · rfl

/-- The inner loop of `initSliceForFec` counts the bits from `n` on, on top of those that are
counted already. -/
theorem foldl_missing (len : ℕ) :
    (List.range' n len).foldl (fun missing j =>
      if j ∈ map then missing
      else Function.update missing (j % stripes) (missing (j % stripes) + 1))
      (missingBelow map stripes n) = missingBelow map stripes (n + len) := by
  induction len with
  | zero => rfl
  | succ len ih =>
    rw [List.range'_1_concat, List.foldl_append, ih]
    funext k
    rw [← Nat.add_assoc, missingBelow_succ]
    by_cases hmem : n + len ∈ map
    · simp [hmem]
    · by_cases hk : (n + len) % stripes = k
      · subst hk
        simp [hmem]
      · simp [hmem, hk, Function.update_of_ne (Ne.symm hk)]

/-- Nothing is missing among the blocks of a byte whose bits are all set. -/
theorem missingBelow_of_full (hfull : ∀ j < 8, 8 * n + j ∈ map) (hb : b ≤ 8) :
    missingBelow map stripes (8 * n + b) = missingBelow map stripes (8 * n) := by
  induction b with
  | zero => rfl
  | succ b ih =>
    funext k
    rw [← Nat.add_assoc, missingBelow_succ, ih (by omega)]
    simp [hfull b (by omega)]

/-- A byte of the map is counted up to the end of the slice, whether the loop looks at its bits
or skips it. -/
theorem scanByte_eq (hn : 8 * n < blocksInSlice) :
    scanByte map blocksInSlice stripes (missingBelow map stripes (8 * n)) n =
      missingBelow map stripes (min (8 * n + 8) blocksInSlice) := by
  have hmin : min (8 * n + 8) blocksInSlice = 8 * n + min 8 (blocksInSlice - 8 * n) := by omega
  unfold scanByte
  split
  · rename_i hfull
    rw [hmin, missingBelow_of_full hfull (Nat.min_le_left ..)]
  · rw [foldl_missing, hmin]
    congr 1
    omega

/-- The scan that skips full bytes counts what is missing in each stripe of the slice. -/
theorem scanMap_eq : scanMap slice.map blocksInSlice stripes k =
    countMissing slice blocksInSlice stripes k := by
  have hloop : ∀ n ≤ (blocksInSlice + 7) / 8,
      (List.range n).foldl (scanByte slice.map blocksInSlice stripes) (fun _ => 0) =
        missingBelow slice.map stripes (min (8 * n) blocksInSlice) := by
    intro n
    induction n with
    | zero =>
      intro _
      funext k
      simp [missingBelow]
    | succ n ih =>
      intro hn
      rw [List.range_succ, List.foldl_append, ih (by omega), List.foldl_cons, List.foldl_nil,
        Nat.min_eq_left (by omega), scanByte_eq (by omega)]
      rfl
  unfold scanMap
  rw [hloop _ le_rfl, Nat.min_eq_right (by omega)]
  rfl

/-- `initSliceForFec` notes how many blocks of each stripe are missing, and that there are no
FEC blocks yet. -/
theorem initSliceForFec_slice (s : State) (i stripes : ℕ) :
    (initSliceForFec s i stripes).slices i = { s.slices i with
      fecStripes := stripes
      missingDataBlocks := fun k =>
        if k < stripes then
          countMissing (s.slices i) (getSliceBlocks (s.slices i) s.config) stripes k
        else (s.slices i).missingDataBlocks k
      fecBlocks := fun k => if k < stripes then 0 else (s.slices i).fecBlocks k } := by
  unfold initSliceForFec
  rw [setSlice_self]
  simp only [scanMap_eq]

end Scan

/-- A computation in two parts has succeeded if both parts have. -/
theorem bind_ok {α β : Type} {x : Except Failure α} {f : α → Except Failure β} {r : β}
    (h : x.bind f = .ok r) : ∃ a, x = .ok a ∧ f a = .ok r := by
  cases x with
  | error e => cases h
  | ok a => exact ⟨a, rfl, h⟩

/-- `setSliceBytes` checks the size, or notes it and takes the memory. -/
theorem setSliceBytes_ok (h : setSliceBytes s i bytes = .ok s') :
    ((s.slices i).bytesKnown = true ∧ (s.slices i).bytes = bytes ∧ s' = s) ∨
    ((s.slices i).bytesKnown = false ∧
      s' = { s with
        slices := Function.update s.slices i
          { s.slices i with bytesKnown := true, bytes := bytes }
        netEndReached := if bytes = 0 then true else s.netEndReached
        freeMemQueue := if s.streaming then s.freeMemQueue else pcConsumed s.freeMemQueue bytes
        memTaken := if s.streaming then s.memTaken else s.memTaken + bytes }) := by
  unfold setSliceBytes at h
  cases hknown : (s.slices i).bytesKnown with
  | true =>
    simp only [hknown, if_true] at h
    split at h
    · rename_i heq
      exact .inl ⟨rfl, heq, (Except.ok.inj h).symm⟩
    · cases h
  | false =>
    simp only [hknown, Bool.false_eq_true, if_false, Except.ok.injEq] at h
    refine .inr ⟨rfl, ?_⟩
    rw [← h]
    cases hstreaming : s.streaming <;> by_cases hbytes : bytes = 0 <;>
      simp [hbytes, State.setSlice, hstreaming]

/-- `checkSliceComplete` does nothing, or marks the slice and hands it over. -/
theorem checkSliceComplete_ok (h : checkSliceComplete s i = .ok s') :
    (((s.slices i).state ≠ .receiving ∨
        (getSliceBlocks (s.slices i) s.config : ℤ) ≠ (s.slices i).blocksTransferred) ∧ s' = s) ∨
    ((s.slices i).state = .receiving ∧
      (getSliceBlocks (s.slices i) s.config : ℤ) = (s.slices i).blocksTransferred ∧
      ∃ state : SliceState,
        (state = .done ∧ (s.slices i).blocksTransferred = (s.slices i).dataBlocksTransferred ∨
          state = .fec ∧ s.useFec = true ∧
            (s.slices i).blocksTransferred ≠ (s.slices i).dataBlocksTransferred) ∧
        s' = { s with
          slices := Function.update s.slices i { s.slices i with state := state }
          tasks := .advanceReceivedPointer :: .handOver i :: s.tasks
          streaming := false
          freeMemQueue := if s.streaming then pcConsumed s.freeMemQueue (s.slices i).bytes
            else s.freeMemQueue
          memTaken := if s.streaming then s.memTaken + (s.slices i).bytes else s.memTaken }) := by
  unfold checkSliceComplete at h
  simp only at h
  split at h
  · rename_i hnot
    exact .inl ⟨hnot, (Except.ok.inj h).symm⟩
  · rename_i hcomplete
    push Not at hcomplete
    obtain ⟨hstate, hblocks⟩ := hcomplete
    refine .inr ⟨hstate, hblocks, ?_⟩
    by_cases hdata : (getSliceBlocks (s.slices i) s.config : ℤ) =
        (s.slices i).dataBlocksTransferred
    · rw [if_pos hdata] at h
      refine ⟨.done, .inl ⟨rfl, by rw [← hblocks, hdata]⟩, ?_⟩
      rw [← Except.ok.inj h]
      cases hstreaming : s.streaming <;> simp [State.enter, State.setSlice, hstreaming]
    · rw [if_neg hdata] at h
      cases hfec : s.useFec with
      | false =>
        cases hstreaming : s.streaming <;> simp [State.enter, hfec, hstreaming] at h
      | true =>
        refine ⟨.fec, .inr ⟨rfl, rfl, by rw [← hblocks]; exact hdata⟩, ?_⟩
        cases hstreaming : s.streaming <;>
          simp [State.enter, State.setSlice, hfec, hstreaming] at h ⊢ <;> exact h.symm

/-- `initSlice` makes the slot the current one and sets it up. -/
theorem initSlice_ok {sliceNo : ℤ} (h : initSlice s i sliceNo = .ok s') :
    ((s.slices i).state = .free ∨ (s.slices i).state = .receiving) ∧
    (∀ c, s.currentSlice = some c → (s.slices c).bytesKnown = true) ∧
    (s.streaming = false → s.currentSliceNo = sliceNo - 1) ∧
    ∃ guess, (s.config.ignoreLostData = false → guess = 0) ∧
      s' = { s with
        slices := Function.update s.slices i ((s.slices i).start sliceNo guess)
        currentSlice := some i
        currentSliceNo := sliceNo } := by
  unfold initSlice at h
  simp only at h
  split at h
  · cases h
  · rename_i hstate
    split at h
    · cases h
    · rename_i hknown
      split at h
      · cases h
      · rename_i hno
        refine ⟨by tauto, ?_, ?_, (s.setSlice i (s.slices i).clear).assumedBytes, ?_, ?_⟩
        · rintro c hc
          by_contra hunknown
          rw [Bool.not_eq_true] at hunknown
          refine hknown ⟨c, hc, ?_⟩
          by_cases hci : c = i
          · subst hci
            rw [setSlice_self]
            exact hunknown
          · rw [setSlice_of_ne _ hci]
            exact hunknown
        · intro hstreaming
          by_contra hne
          exact hno ⟨hstreaming, hne⟩
        · intro hignore
          unfold State.assumedBytes
          split
          · rw [show (s.setSlice i (s.slices i).clear).config = s.config from rfl, hignore]
            rfl
          · rfl
        · rw [← Except.ok.inj h]
          simp [State.setSlice, Function.update_idem]

/-- Copying a block changes the memory only. -/
theorem copyBlock_eq (p : Place) :
    ∃ mem blocks, s.copyBlock p = { s with dataBuffer := mem, blockData := blocks } := by
  unfold State.copyBlock State.store
  split
  · exact ⟨s.dataBuffer, s.blockData, rfl⟩
  · cases p with
    | ring a => exact ⟨_, s.blockData, rfl⟩
    | pool b => exact ⟨s.dataBuffer, _, rfl⟩

/-- `countArrival` lowers the count of missing blocks, and may give up a FEC block. -/
theorem countArrival_ok {slice slice' : Slice} {l l' : List ℕ}
    (h : countArrival slice l b = .ok (slice', l')) :
    (slice.fecStripes = 0 ∧ slice' = slice ∧ l' = l) ∨
    (slice.fecStripes ≠ 0 ∧ ∃ stripe missing, stripe = b % slice.fecStripes ∧
      slice.missingDataBlocks stripe = missing + 1 ∧
      ((slice.fecBlocks stripe ≤ missing ∧ l' = l ∧
          slice' = { slice with
            missingDataBlocks := Function.update slice.missingDataBlocks stripe missing }) ∨
        ∃ k adr, slice.fecBlocks stripe = k + 1 ∧ missing ≤ k ∧
          (slice.fecDescs (stripe + k * slice.fecStripes)).adr = some adr ∧ l' = adr :: l ∧
          slice' = { slice with
            missingDataBlocks := Function.update slice.missingDataBlocks stripe missing
            fecBlocks := Function.update slice.fecBlocks stripe k
            fecDescs := Function.update slice.fecDescs (stripe + k * slice.fecStripes)
              { slice.fecDescs (stripe + k * slice.fecStripes) with adr := none }
            blocksTransferred := slice.blocksTransferred - 1 })) := by
  unfold countArrival at h
  split at h
  · rename_i hstripes
    obtain ⟨rfl, rfl⟩ := Prod.mk.inj (Except.ok.inj h)
    exact .inl ⟨hstripes, rfl, rfl⟩
  · rename_i hstripes
    refine .inr ⟨hstripes, b % slice.fecStripes,
      slice.missingDataBlocks (b % slice.fecStripes) - 1, rfl, ?_⟩
    simp only at h
    split at h
    · cases h
    · rename_i hmissing
      refine ⟨by omega, ?_⟩
      split at h
      · rename_i hsuperfluous
        split at h
        · cases h
        · rename_i adr hadr
          obtain ⟨rfl, rfl⟩ := Prod.mk.inj (Except.ok.inj h)
          exact .inr ⟨_, adr, by omega, by omega, hadr, rfl, rfl⟩
      · obtain ⟨rfl, rfl⟩ := Prod.mk.inj (Except.ok.inj h)
        exact .inl ⟨by omega, rfl, rfl⟩

/-- `noteBytes` leaves the size alone only if the message does not tell it. -/
theorem noteBytes_ok (h : noteBytes s i bytes = .ok s') :
    setSliceBytes s i bytes = .ok s' ∨
      (s.config.senderIsNewgen = false ∨ bytes = 0) ∧ ∃ e, s' = { s with netEndReached := e } := by
  unfold noteBytes at h
  cases hnewgen : s.config.senderIsNewgen with
  | false =>
    rw [hnewgen, if_neg Bool.false_ne_true] at h
    exact .inr ⟨.inl rfl, s.netEndReached, (Except.ok.inj h).symm⟩
  | true =>
    rw [hnewgen, if_pos rfl] at h
    split at h
    · exact .inl h
    · rename_i hzero
      exact .inr ⟨.inr (not_not.mp hzero), false, (Except.ok.inj h).symm⟩

/-- `processDataBlock` ignores the block, or stores and counts it. -/
theorem processDataBlock_ok (h : processDataBlock s i n b bytes = .ok s') :
    s' = s ∨
    ((s.slices i).state = .receiving ∧ b ∉ (s.slices i).map ∧
      (s.slices i).base % s.config.blockSize = 0 ∧
      ∃ s₁, noteBytes (s.copyBlock (.ring (adr s (s.slices i) b))) i bytes = .ok s₁ ∧
        countData s₁ i b = .ok s') := by
  unfold processDataBlock at h
  simp only at h
  split at h
  · exact .inl (Except.ok.inj h).symm
  · rename_i hstate
    split at h
    · cases h
    · split at h
      · exact .inl (Except.ok.inj h).symm
      · rename_i hmap
        split at h
        · cases h
        · rename_i hbase
          exact .inr ⟨not_not.mp hstate, hmap, not_not.mp hbase, bind_ok h⟩

/-- `countFec` finds the block useless, or a duplicate, or stores it. -/
theorem countFec_ok (h : countFec s i stripes b = .ok s') :
    (((s.slices i).missingDataBlocks (b % (s.slices i).fecStripes) ≤
          (s.slices i).fecBlocks (b % (s.slices i).fecStripes) ∧
        checkSliceComplete (s.enter (.advanceReceivedPointer :: cleanupWithoutFec s)) i = .ok s') ∨
      s' = s) ∨
    ∃ stripe, stripe = b % (s.slices i).fecStripes ∧
      (s.slices i).fecBlocks stripe < (s.slices i).missingDataBlocks stripe ∧
      (∀ k < (s.slices i).fecBlocks stripe,
        ((s.slices i).fecDescs (stripe + k * stripes)).fecBlockNo ≠ b) ∧
      ∃ mem blocks, s.copyBlock (.pool s.nextBlock) =
          { s with dataBuffer := mem, blockData := blocks } ∧
        s' = { s with
          dataBuffer := mem
          blockData := blocks
          tasks := .setNextBlock i :: s.tasks
          slices := Function.update s.slices i
            { s.slices i with
              fecDescs := Function.update (s.slices i).fecDescs
                ((s.slices i).fecBlocks stripe * stripes + stripe) ⟨some s.nextBlock, b⟩
              fecBlocks := Function.update (s.slices i).fecBlocks stripe
                ((s.slices i).fecBlocks stripe + 1)
              blocksTransferred := (s.slices i).blocksTransferred + 1 } } := by
  unfold countFec at h
  simp only at h
  split at h
  · rename_i huseless
    exact .inl (.inl ⟨huseless, h⟩)
  · rename_i huseful
    split at h
    · exact .inl (.inr (Except.ok.inj h).symm)
    · rename_i hnew
      push Not at huseful hnew
      obtain ⟨mem, blocks, hcopy⟩ := copyBlock_eq (s := s) (.pool s.nextBlock)
      refine .inr ⟨_, rfl, huseful, hnew, mem, blocks, hcopy, ?_⟩
      rw [hcopy] at h
      exact (Except.ok.inj h).symm

/-- `processFecBlock` ignores the block, or notes the size and counts the block. -/
theorem processFecBlock_ok (h : processFecBlock s i stripes b bytes = .ok s') :
    s' = s ∨
    (((s.slices i).state = .receiving ∨ (s.slices i).state = .fecDone) ∧
      ∃ s₁, setSliceBytes s i bytes = .ok s₁ ∧
        (((s₁.slices i).fecStripes = 0 ∧
            countFec (initSliceForFec s₁ i stripes) i stripes b = .ok s') ∨
          ((s₁.slices i).fecStripes ≠ 0 ∧ (s₁.slices i).fecStripes ≠ stripes ∧ s' = s₁) ∨
          ((s₁.slices i).fecStripes ≠ 0 ∧ (s₁.slices i).fecStripes = stripes ∧
            countFec s₁ i stripes b = .ok s'))) := by
  unfold processFecBlock at h
  simp only at h
  split at h
  · exact .inl (Except.ok.inj h).symm
  · rename_i hstate
    obtain ⟨s₁, hset, h⟩ := bind_ok h
    have hstate' : (s.slices i).state = .receiving ∨ (s.slices i).state = .fecDone := by
      cases hcase : (s.slices i).state <;> simp [hcase] at hstate ⊢
    refine .inr ⟨hstate', s₁, hset, ?_⟩
    split at h
    · rename_i hzero
      exact .inl ⟨hzero, h⟩
    · rename_i hzero
      split at h
      · rename_i hne
        exact .inr (.inl ⟨hzero, hne, (Except.ok.inj h).symm⟩)
      · rename_i heq
        exact .inr (.inr ⟨hzero, not_not.mp heq, h⟩)

/-- `processReqAck` answers, unless the sender knows already. -/
theorem processReqAck_ok {rxmit : ℕ} (h : processReqAck s n bytes rxmit = .ok s') :
    (s.isReady = true ∧ s' = s) ∨
    (s.isReady = false ∧ s.found = none ∧ s' = s.send (.ok n)) ∨
    (s.isReady = false ∧ ∃ i s₁, s.found = some i ∧ setSliceBytes s i bytes = .ok s₁ ∧
      checkSliceComplete
        ((answer s₁ i rxmit).enter (.advanceReceivedPointer :: cleanupWithoutFec s₁)) i =
          .ok s') := by
  unfold processReqAck at h
  cases hready : s.isReady with
  | true =>
    rw [hready, if_pos rfl] at h
    exact .inl ⟨rfl, (Except.ok.inj h).symm⟩
  | false =>
    rw [hready, if_neg Bool.false_ne_true] at h
    cases hfound : s.found with
    | none =>
      rw [hfound] at h
      exact .inr (.inl ⟨rfl, rfl, (Except.ok.inj h).symm⟩)
    | some i =>
      rw [hfound] at h
      obtain ⟨s₁, hset, h⟩ := bind_ok h
      exact .inr (.inr ⟨rfl, i, s₁, rfl, hset, h⟩)

/-- An answer is one message. -/
theorem answer_eq (rxmit : ℕ) : ∃ msg, answer s i rxmit = s.send msg := by
  unfold answer sendRetransmit
  simp only
  split
  · exact ⟨_, rfl⟩
  · exact ⟨_, rfl⟩

/-- Forced completion needs a slice that is not done; it completes nothing but that slice. -/
theorem completeByForce_ok (h : completeByForce s i = .ok s') :
    (s.slices i).state ≠ .done ∧ ∃ s₁,
      ((s.slices i).bytesKnown = true ∧ s₁ = s ∨ (s.slices i).bytesKnown = false ∧
        setSliceBytes s i (s.slices i).bytes = .ok s₁) ∧
      checkSliceComplete (s₁.setSlice i
        { s₁.slices i with
          blocksTransferred := getSliceBlocks (s₁.slices i) s₁.config
          dataBlocksTransferred := getSliceBlocks (s₁.slices i) s₁.config }) i = .ok s' := by
  unfold completeByForce at h
  simp only at h
  split at h
  · cases h
  · rename_i hdone
    refine ⟨hdone, ?_⟩
    obtain ⟨s₁, hbytes, h⟩ := bind_ok h
    refine ⟨s₁, ?_, h⟩
    cases hknown : (s.slices i).bytesKnown with
    | true =>
      rw [hknown, if_pos rfl] at hbytes
      exact .inl ⟨rfl, (Except.ok.inj hbytes).symm⟩
    | false =>
      rw [hknown, if_neg Bool.false_ne_true] at hbytes
      exact .inr ⟨rfl, hbytes⟩

/-- `countData` counts the block and looks whether the slice is complete. -/
theorem countData_ok (h : countData s i b = .ok s') : ∃ slice localBlocks,
    countArrival { s.slices i with map := insert b (s.slices i).map } s.localBlocks b =
      .ok (slice, localBlocks) ∧
    checkSliceComplete ({ s with localBlocks := localBlocks }.setSlice i
      { slice with
        dataBlocksTransferred := slice.dataBlocksTransferred + 1
        blocksTransferred := slice.blocksTransferred + 1
        freePos := skipReceived (insert b (s.slices i).map) (maxSliceSize - slice.freePos)
          slice.freePos }) i = .ok s' := by
  obtain ⟨⟨slice, localBlocks⟩, hcount, h⟩ := bind_ok h
  exact ⟨slice, localBlocks, hcount, h⟩

/-- A turn of `cleanupSlices` ends the loop, or gives the slice in the next slot to the writer. -/
theorem cleanupSlices_ok {doneState : SliceState} {slot : Option (ℕ × ℕ)}
    (h : cleanupSlices s doneState = .ok (s', slot)) :
    ((s.slices (pcGetProducerPosition s.freeSlicesPc)).state ≠ doneState ∧ slot = none ∧ s' = s) ∨
    ∃ pos bytes, pos = pcGetProducerPosition s.freeSlicesPc ∧
      (s.slices pos).state = doneState ∧ (s.slices pos).bytes = bytes ∧ slot = some (pos, bytes) ∧
      ((bytes = 0 ∧ s' = { s with data := pcProduceEnd s.data }) ∨
        bytes ≠ 0 ∧ ∃ q, pcProduce s.data bytes = some q ∧
          s' = { s with data := q, released := s.released + bytes }) := by
  unfold cleanupSlices at h
  simp only at h
  split at h
  · rename_i hstate
    obtain ⟨rfl, rfl⟩ := Prod.mk.inj (Except.ok.inj h)
    exact .inl ⟨hstate, rfl, rfl⟩
  · rename_i hstate
    refine .inr ⟨_, _, rfl, not_not.mp hstate, rfl, ?_⟩
    split at h
    · rename_i hzero
      obtain ⟨rfl, rfl⟩ := Prod.mk.inj (Except.ok.inj h)
      exact ⟨rfl, .inl ⟨hzero, rfl⟩⟩
    · rename_i hbytes
      split at h
      · rename_i q hq
        obtain ⟨rfl, rfl⟩ := Prod.mk.inj (Except.ok.inj h)
        exact ⟨rfl, .inr ⟨hbytes, q, hq, rfl⟩⟩
      · cases h

/-- The end of a turn of `cleanupSlices` frees the slot and gives it back. -/
theorem freeSlot_ok {pos : ℕ} (h : freeSlot s pos bytes = .ok s') : ∃ q,
    pcProduce s.freeSlicesPc 1 = some q ∧
    s' = { s with
      freeSlicesPc := q
      freed := s.freed + 1
      endReached := if bytes = 0 then 2 else s.endReached
      slices := Function.update s.slices pos { s.slices pos with state := .free } } := by
  unfold freeSlot at h
  split at h
  · rename_i q hq
    exact ⟨q, hq, (Except.ok.inj h).symm⟩
  · cases h

/-- `freeBlockSpace` puts the block among the free ones. -/
theorem freeBlockSpace_ok {block : Option ℕ} (h : freeBlockSpace s block = .ok s') : ∃ a q,
    block = some a ∧ pcProduce s.freeBlocksPc 1 = some q ∧
    s' = { s with
      blockAddresses :=
        Function.update s.blockAddresses (pcGetProducerPosition s.freeBlocksPc) a
      freeBlocksPc := q
      blocksReturned := s.blocksReturned + 1 } := by
  unfold freeBlockSpace at h
  split at h
  · cases h
  · rename_i a
    split at h
    · rename_i q hq
      exact ⟨a, q, rfl, hq, (Except.ok.inj h).symm⟩
    · cases h

/-- Decoding a stripe changes the memory only. -/
theorem fecDecodeOneStripe_ok {stripe : ℕ} (h : fecDecodeOneStripe s i stripe = .ok s') :
    ∃ mem blocks, s' = { s with dataBuffer := mem, blockData := blocks } := by
  unfold fecDecodeOneStripe at h
  simp only at h
  split at h
  · cases h
  · split at h
    · cases h
    · split at h
      · cases h
      · exact ⟨_, _, (Except.ok.inj h).symm⟩

/-- Decoding changes the memory only. -/
theorem decodeSlice_ok (h : decodeSlice s i = .ok s') :
    ∃ mem blocks, s' = { s with dataBuffer := mem, blockData := blocks } := by
  have hfold : ∀ (l : List ℕ) (t : State),
      l.foldlM (fun s stripe => fecDecodeOneStripe s i stripe) t = .ok s' →
      ∃ mem blocks, s' = { t with dataBuffer := mem, blockData := blocks } := by
    intro l
    induction l with
    | nil =>
      intro t ht
      exact ⟨t.dataBuffer, t.blockData, (Except.ok.inj ht).symm⟩
    | cons stripe l ih =>
      intro t ht
      rw [List.foldlM_cons] at ht
      obtain ⟨t₁, hstripe, ht⟩ := bind_ok ht
      obtain ⟨mem, blocks, rfl⟩ := fecDecodeOneStripe_ok hstripe
      obtain ⟨mem', blocks', rfl⟩ := ih _ ht
      exact ⟨mem', blocks', rfl⟩
  exact hfold _ s h

/-- A step that does not stop the process has gone on. -/
theorem continue_ok {x : Except Failure State} (hrunning : (s.continue x).failure = none) :
    x = .ok (s.continue x) := by
  cases x with
  | ok s' => rfl
  | error f => cases hrunning

/-- A computation with a last touch has succeeded if it has succeeded itself. -/
theorem map_ok {x : Except Failure State} {f : State → State}
    (h : x.map f = .ok s') : ∃ s₁, x = .ok s₁ ∧ s' = f s₁ := by
  cases x with
  | ok s₁ => exact ⟨s₁, rfl, (Except.ok.inj h).symm⟩
  | error e => cases h

end Udpcast.Receiver
