import Udpcast.Receiver.Effects
import Udpcast.Sender.Accounting

/-!
# Round numbers on their way

A REQACK carries the number of its round to the receiver, the RETRANSMIT carries it back.
The sender compares the number it gets with the current round.
-/

namespace Udpcast.Session

open Protocol

/-- A REQACK that is answered by a RETRANSMIT, and the sender that gets the answer. -/
structure Answered where
  /-- The sender that sends the REQACK about the slice in `slot`. -/
  asking : Sender.State
  slot : ℕ
  request : ServerMsg
  /-- The receiver before and after `processReqAck`. -/
  receiver : Receiver.State
  receiver' : Receiver.State
  sliceNo : ℕ
  rxmit : UInt32
  map : ℕ → Bool
  /-- The sender that handles the answer of client `clNo`, and its slot for the slice. -/
  sender : Sender.State
  clNo : ℕ
  current : ℕ
  sent : (Sender.sendReqack asking slot).network = request :: asking.network
  found : ∀ i, receiver.found = some i →
    (receiver.slices i).sliceNo = (asking.slices slot).sliceNo
  processed : Receiver.process receiver request = .ok receiver'
  answered : receiver'.replies = .retransmit sliceNo rxmit map :: receiver.replies
  known : clNo ∈ sender.db.used
  holds : Sender.findSlice sender (asking.slices slot).sliceNo = some current

namespace Answered

variable (x : Answered)

/-- The round of the REQACK. -/
def round : ℕ := (x.asking.slices x.slot).rxmitId

/-- The slice when the answer arrives. -/
def slice : Sender.Slice := x.sender.slices x.current

/-- The sender after the answer. -/
def handled : Sender.State :=
  Sender.handleMessage x.sender x.clNo (.retransmit x.sliceNo x.rxmit x.map)

/-- An answer to an earlier round changes nothing, any other one is noted. -/
structure Filtered : Prop where
  late : x.round < x.slice.rxmitId → x.handled = x.sender
  applied : x.slice.rxmitId ≤ x.round →
    x.clNo ∈ (x.handled.slices x.current).answeredSet ∧
    (x.handled.slices x.current).needRxmit = true ∧
    ∀ b, (x.handled.slices x.current).rxmitMap b = (x.slice.rxmitMap b || !x.map b)

end Answered

/-- The number of the round as the sender reads it from the answer. -/
def readRound (bigEndian : Bool) (round : ℕ) : ℤ := (rawField bigEndian (.ofNat round)).toInt

/-- The filter is right for the answers to round `r` that arrive in round `n`. -/
def FilterRight (bigEndian : Bool) (r n : ℕ) : Prop :=
  ∀ x : Answered, x.sender.config.bigEndian = bigEndian → x.round = r → x.slice.rxmitId = n →
    x.Filtered

section Filter

variable {x : Answered}

/-- The REQACK names the slice that is asked about and the round. -/
theorem request_eq (x : Answered) : ∃ bytes readySet,
    x.request = .reqack (x.asking.slices x.slot).sliceNo bytes x.round readySet := by
  have hsent := x.sent
  have hne : ∀ (ms : List ServerMsg) (m : ServerMsg), ms ≠ m :: ms := fun ms m h => by
    have := congrArg List.length h
    simp at this
  have hack : (Sender.ackSlice x.asking x.slot).network = x.asking.network := by
    unfold Sender.ackSlice
    simp only
    split
    · rfl
    · split <;> rfl
  unfold Sender.sendReqack at hsent
  simp only at hsent
  split at hsent
  · rw [hack] at hsent
    exact absurd hsent (hne _ _)
  · split at hsent
    · exact absurd hsent (hne _ _)
    · exact ⟨_, _, (List.cons.inj hsent).1.symm⟩

/-- The answer names the slice and the round of the REQACK. -/
theorem answer_fields (x : Answered) :
    x.sliceNo = (x.asking.slices x.slot).sliceNo ∧ x.rxmit = .ofNat x.round := by
  obtain ⟨bytes, readySet, hrequest⟩ := request_eq x
  have hprocessed := x.processed
  have hanswered := x.answered
  have hne : ∀ (ms : List ClientMsg) (m : ClientMsg), ms ≠ m :: ms := fun ms m h => by
    have := congrArg List.length h
    simp at this
  rw [hrequest] at hprocessed
  rcases Receiver.processReqAck_ok hprocessed with
    ⟨-, hsame⟩ | ⟨-, -, hsame⟩ | ⟨-, i, s₁, hfound, hset, hcheck⟩
  · rw [hsame] at hanswered
    exact absurd hanswered (hne _ _)
  · rw [hsame] at hanswered
    exact absurd (List.cons.inj hanswered).1 (by simp)
  · have hreplies : s₁.replies = x.receiver.replies ∧
        (s₁.slices i).sliceNo = (x.receiver.slices i).sliceNo := by
      rcases Receiver.setSliceBytes_ok hset with ⟨-, -, rfl⟩ | ⟨-, rfl⟩
      · exact ⟨rfl, rfl⟩
      · simp
    have hlast : x.receiver'.replies = (Receiver.answer s₁ i x.round).replies := by
      rcases Receiver.checkSliceComplete_ok hcheck with ⟨-, hs'⟩ | ⟨-, -, state, -, hs'⟩
      · rw [hs']
        rfl
      · rw [hs']
        rfl
    rw [hlast, ← hreplies.1] at hanswered
    unfold Receiver.answer at hanswered
    simp only at hanswered
    split at hanswered
    · exact absurd (List.cons.inj hanswered).1 (by simp)
    · obtain ⟨hno, hrxmit, -⟩ := ClientMsg.retransmit.inj (List.cons.inj hanswered).1
      rw [hreplies.2, x.found i hfound] at hno
      exact ⟨by simpa using hno.symm, hrxmit.symm⟩

/-- The sender applies the answer to its current slice, with the round as it reads it. -/
theorem handled_eq (x : Answered) : x.handled = x.sender.setSlice x.current
    (Sender.markRetransmit x.slice x.clNo x.map
      (readRound x.sender.config.bigEndian x.round)) := by
  obtain ⟨hno, hrxmit⟩ := answer_fields x
  rw [Answered.handled, Sender.handleMessage, if_pos x.known, hno, x.holds, hrxmit]
  rfl

/-- A late answer changes nothing. -/
theorem markRetransmit_late {slice : Sender.Slice} {clNo : ℕ} {map : ℕ → Bool} {rxmit : ℤ}
    (h : rxmit < slice.rxmitId) : Sender.markRetransmit slice clNo map rxmit = slice :=
  if_pos h

/-- An answer that is not late is noted, and the blocks it lacks are asked for again. -/
theorem markRetransmit_applied {slice : Sender.Slice} {clNo : ℕ} {map : ℕ → Bool} {rxmit : ℤ}
    (h : ¬rxmit < slice.rxmitId) :
    clNo ∈ (Sender.markRetransmit slice clNo map rxmit).answeredSet ∧
    (Sender.markRetransmit slice clNo map rxmit).needRxmit = true ∧
    ∀ b, (Sender.markRetransmit slice clNo map rxmit).rxmitMap b =
      (slice.rxmitMap b || !map b) := by
  rw [Sender.markRetransmit, if_neg h, Sender.markParticipantAnswered]
  split
  · rename_i hmem
    exact ⟨hmem, rfl, fun _ => rfl⟩
  · exact ⟨Finset.mem_insert_self _ _, rfl, fun _ => rfl⟩

/-- The answers are filtered as they should be if the byte order keeps which of the two rounds is
earlier. -/
theorem filtered_of_readRound (h : readRound x.sender.config.bigEndian x.round <
    x.slice.rxmitId ↔ x.round < x.slice.rxmitId) : x.Filtered := by
  have hself : ∀ s : Sender.State, ∀ i, s.setSlice i (s.slices i) = s := fun s i => by
    rw [Sender.State.setSlice, Function.update_eq_self]
  constructor
  · intro hlate
    rw [handled_eq, markRetransmit_late (h.mpr hlate)]
    exact hself _ _
  · intro hnow
    have hread : ¬readRound x.sender.config.bigEndian x.round < x.slice.rxmitId := fun hlt => by
      have := h.mp hlt
      omega
    have hslice : x.handled.slices x.current = Sender.markRetransmit x.slice x.clNo x.map
        (readRound x.sender.config.bigEndian x.round) := by
      rw [handled_eq]
      exact Function.update_self ..
    rw [hslice]
    exact markRetransmit_applied hread

end Filter

section Exchange

variable {s : Sender.State} {c : Receiver.State} {bigEndian : Bool} {r n : ℕ}

/-- A slice of two blocks in the sender, in round `r`. -/
def twoBlocks (r : ℕ) : Sender.Slice := { Sender.Slice.zero fun _ _ => .ofNat 0 with
  bytes := 8, rxmitId := r, state := .xmitted }

/-- The sender `s` with this slice to be retransmitted, and the participant 0. -/
def oneSlice (s : Sender.State) (bigEndian : Bool) (r : ℕ) : Sender.State :=
  { s with
    config := { Sender.plainConfig with blockSize := 4, bigEndian := bigEndian }
    slices := fun _ => twoBlocks r, xmitSlice := none, rexmitSlice := some 0, db := ⟨1, {0}⟩ }

/-- The receiver `c` as client 0, which has no block of the slice yet. -/
def noBlocks (c : Receiver.State) : Receiver.State :=
  { c with
    config := ⟨4, false, true, 0⟩, found := some 0, isAddress := .pool 0
    blockData := fun _ _ => .ofNat 0
    slices := fun _ => { Receiver.Slice.unused with
      state := .receiving, sliceNo := 0, bytes := 8, bytesKnown := true } }

/-- The receiver after the REQACK of round `r`. -/
def asksAgain (c : Receiver.State) (r : ℕ) : Receiver.State :=
  (Receiver.answer (noBlocks c) 0 r).enter
    (.advanceReceivedPointer :: Receiver.cleanupWithoutFec (noBlocks c))

/-- A receiver without any block asks for all of them. -/
theorem answer_noBlocks (c : Receiver.State) (r : ℕ) :
    Receiver.answer (noBlocks c) 0 r =
      (noBlocks c).send (.retransmit 0 (.ofNat r) fun b => b ∈ (∅ : Finset ℕ)) := by
  have hblocks : (Receiver.getSliceBlocks ((noBlocks c).slices 0) (noBlocks c).config : ℤ) ≠
      ((noBlocks c).slices 0).blocksTransferred := by
    simp [Receiver.getSliceBlocks, noBlocks, Receiver.Slice.unused]
  exact if_neg hblocks

/-- So does it when the REQACK comes. -/
theorem process_noBlocks (c : Receiver.State) (r : ℕ) :
    Receiver.process (noBlocks c) (.reqack 0 8 r ∅) = .ok (asksAgain c r) := by
  have hready : (noBlocks c).isReady = false := by
    show (Fec.Gf.ofNat 0).toNat.testBit (0 % 8) = false
    decide
  have hset : Receiver.setSliceBytes (noBlocks c) 0 8 = .ok (noBlocks c) := rfl
  rw [Receiver.process, Receiver.processReqAck, if_neg (by rw [hready]; exact Bool.false_ne_true)]
  have hblocks : (Receiver.getSliceBlocks ((noBlocks c).slices 0) (noBlocks c).config : ℤ) ≠
      ((noBlocks c).slices 0).blocksTransferred := by
    simp [Receiver.getSliceBlocks, noBlocks, Receiver.Slice.unused]
  have hcheck : Receiver.checkSliceComplete (asksAgain c r) 0 = .ok (asksAgain c r) := by
    rw [asksAgain, answer_noBlocks]
    exact if_pos (.inr hblocks)
  show (Receiver.setSliceBytes (noBlocks c) 0 8).bind _ = _
  rw [hset]
  exact hcheck

/-- The REQACK of round `r` to a receiver without any block, answered in round `n`. -/
def exchange (s : Sender.State) (c : Receiver.State) (bigEndian : Bool) (r n : ℕ) : Answered where
  asking := oneSlice s bigEndian r
  slot := 0
  request := .reqack 0 8 r ∅
  receiver := noBlocks c
  receiver' := asksAgain c r
  sliceNo := 0
  rxmit := .ofNat r
  map := fun b => b ∈ (∅ : Finset ℕ)
  sender := oneSlice s bigEndian n
  clNo := 0
  current := 0
  sent := rfl
  found := fun _ _ => rfl
  processed := process_noBlocks c r
  answered := by rw [asksAgain, answer_noBlocks]; rfl
  known := Finset.mem_singleton_self 0
  holds := rfl

/-- For these rounds the byte order keeps which of the two is earlier. -/
theorem readRound_of_filterRight (s : Sender.State) (c : Receiver.State)
    (h : FilterRight bigEndian r n) : readRound bigEndian r < n ↔ r < n := by
  have hfiltered := h (exchange s c bigEndian r n) rfl rfl rfl
  have hbefore : ((exchange s c bigEndian r n).sender.slices 0).needRxmit = false := rfl
  constructor
  · intro hread
    by_contra hnow
    have hafter := (hfiltered.applied (not_lt.mp hnow)).2.1
    rw [handled_eq, markRetransmit_late hread] at hafter
    cases hafter
  · intro hlate
    by_contra hread
    have hafter : (Sender.markRetransmit (twoBlocks n) 0 (fun b => b ∈ (∅ : Finset ℕ))
        (readRound bigEndian r)).needRxmit = true := (markRetransmit_applied hread).2.1
    have hsame := hfiltered.late hlate
    rw [handled_eq] at hsame
    rw [← hsame] at hbefore
    cases hbefore.symm.trans hafter

end Exchange

/-- There is a sender to begin with. -/
theorem aSender : (Sender.start Sender.plainConfig ⟨0, ∅⟩ (fun _ => .ofNat 0) 0 (fun _ => .ofNat 0)
    fun _ _ _ => .ofNat 0).isSome := by
  decide +kernel

/-- There is a receiver to begin with. -/
theorem aReceiver : (Receiver.start ⟨4, false, true, 0⟩ false (fun _ => .ofNat 0)
    fun _ _ => .ofNat 0).isSome := by
  decide +kernel

/-- A big-endian sender reads the round that it has sent. -/
theorem readRound_bigEndian {r : ℕ} (hr : r < 2 ^ 31) : readRound true r = r := by
  show (Int32.ofNat r).toInt = r
  exact Int32.toInt_ofNat_of_lt hr

/-- The filter works on the round number that was sent on big-endian hosts, and on others
where the comparison does not tell the number from the one with its bytes swapped. -/
theorem filterRight_iff (bigEndian : Bool) (r n : ℕ) (hr : r < 2 ^ 31) :
    FilterRight bigEndian r n ↔
      bigEndian = true ∨ ((byteSwap (.ofNat r)).toInt32.toInt < n ↔ r < n) := by
  have hread : FilterRight bigEndian r n ↔ (readRound bigEndian r < n ↔ r < n) := by
    constructor
    · obtain ⟨s, -⟩ := Option.isSome_iff_exists.mp aSender
      obtain ⟨c, -⟩ := Option.isSome_iff_exists.mp aReceiver
      exact readRound_of_filterRight s c
    · rintro h x hhost hround hcurrent
      apply filtered_of_readRound
      rw [hhost, hround, hcurrent]
      exact h
  rw [hread]
  cases bigEndian with
  | true => simp [readRound_bigEndian hr]
  | false => simp [readRound, rawField]

/-- The answer to round 200 is taken for a late one while that round is running. -/
theorem filterRight_iff_swapped :
    FilterRight false 200 200 ↔
      false = true ∨ ((byteSwap (.ofNat 200)).toInt32.toInt < (200 : ℕ) ↔ 200 < 200) :=
  filterRight_iff false 200 200 (by norm_num)

/-- The answer to round 1 is noted in round 2. -/
theorem not_filterRight : ¬ ∀ bigEndian r n, r ≤ n → n < 2 ^ 31 → FilterRight bigEndian r n := by
  intro hclaim
  have hright := hclaim false 1 2 (by norm_num) (by norm_num)
  rw [FilterRight] at hright
  obtain ⟨s, -⟩ := Option.isSome_iff_exists.mp aSender
  obtain ⟨c, -⟩ := Option.isSome_iff_exists.mp aReceiver
  have hread : ¬(readRound false 1 < (2 : ℕ)) := by decide
  exact hread ((readRound_of_filterRight s c hright).mpr (by norm_num))

end Udpcast.Session
