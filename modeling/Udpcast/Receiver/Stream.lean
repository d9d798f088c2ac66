import Udpcast.Receiver.Steps
import Udpcast.Sender.Ring

/-!
# Streams

A stream of bytes cut into slices, the messages in which a conforming sender transmits it,
and the receiver that gets any of these messages in any order.
-/

namespace Udpcast

open Fec (Gf Block)
open Protocol

/-- A stream and how a sender cuts and encodes it. -/
structure Stream where
  input : ℕ → Gf
  /-- The sizes of the slices, without the empty one at the end. -/
  cuts : List ℕ
  blockSize : ℕ
  stripes : ℕ
  /-- FEC blocks for each stripe; 0 without FEC. -/
  redundancy : ℕ

namespace Stream

variable (st : Stream)

/-- The number of bytes in slice `n`. -/
def size (n : ℕ) : ℕ := st.cuts.getD n 0

/-- Slice `n` starts here in the stream. -/
def start (n : ℕ) : ℕ := Sender.startOf st.cuts n

/-- The number of blocks in slice `n`. -/
def blocks (n : ℕ) : ℕ := (st.size n + st.blockSize - 1) / st.blockSize

/-- Block `b` of slice `n`, filled up with zeros. -/
def block (n b : ℕ) : Block := fun x =>
  if b * st.blockSize + x < st.size n then st.input (st.start n + b * st.blockSize + x)
  else .ofNat 0

/-- The payload of the data message for block `b` of slice `n`. -/
def dataPayload (n b : ℕ) : List Gf :=
  (List.range (min st.blockSize (st.size n - b * st.blockSize))).map (st.block n b)

/-- `payload` is FEC block `b` of slice `n`. -/
def IsFecPayload (n b : ℕ) (payload : List Gf) : Prop :=
  ∃ junk fec, Fec.fecEncode Receiver.fecTables st.blockSize
      (fun j => st.block n (b % st.stripes + j * st.stripes))
      (Receiver.stripeBlocks (st.blocks n) st.stripes (b % st.stripes)) junk st.redundancy =
        some fec ∧
    payload = (List.range st.blockSize).map (fec (b / st.stripes))

/-- What `makeSlice` and the options of the sender grant. -/
structure Valid : Prop where
  blockSize_pos : 0 < st.blockSize
  cut_pos : ∀ c ∈ st.cuts, 0 < c
  cut_le : ∀ c ∈ st.cuts, c ≤ st.blockSize * maxSliceSize
  dvd : ∀ n, n + 1 < st.cuts.length → st.blockSize ∣ st.size n
  dvd_or_lt : ∀ c ∈ st.cuts, st.blockSize ∣ c ∨ c < st.blockSize
  stripes_pos : 0 < st.redundancy → 0 < st.stripes
  stripes_le : st.stripes ≤ 256
  redundancy_le : st.redundancy ≤ 128
  stripe_le : 0 < st.redundancy → ∀ c ∈ st.cuts, c ≤ 128 * st.stripes * st.blockSize

/-- The messages that a sender of the stream sends. -/
inductive Sends : ServerMsg → Prop
  | data (n b : ℕ) (hn : n < st.cuts.length) (hb : b < st.blocks n) :
    Sends (.data n b (st.size n) (st.dataPayload n b))
  | fec (n b : ℕ) (payload : List Gf) (hn : n ≤ st.cuts.length)
    (hb : b < st.redundancy * st.stripes) (hpayload : st.size n ≠ 0 → st.IsFecPayload n b payload) :
    Sends (.fec st.stripes n b (st.size n) payload)
  | reqack (n rxmit : ℕ) (readySet : Finset ℕ) (hn : n ≤ st.cuts.length) :
    Sends (.reqack n (st.size n) rxmit readySet)
  | hello : Sends .hello

/-- A slice has room for its bytes. -/
theorem Valid.size_le {st : Stream} (hst : st.Valid) (n : ℕ) :
    st.size n ≤ st.blockSize * maxSliceSize := by
  unfold size
  rcases Nat.lt_or_ge n st.cuts.length with hlt | hge
  · rw [List.getD_eq_getElem _ _ hlt]
    exact hst.cut_le _ (List.getElem_mem hlt)
  · rw [List.getD_eq_default _ _ hge]
    exact Nat.zero_le _

/-- A slice has no more blocks than a slot has places for. -/
theorem Valid.blocks_le {st : Stream} (hst : st.Valid) (n : ℕ) : st.blocks n ≤ maxSliceSize := by
  have hsize := hst.size_le n
  have hpos := hst.blockSize_pos
  unfold blocks
  rw [Nat.div_le_iff_le_mul_add_pred hpos]
  omega

/-- The blocks of a slice hold all of its bytes. -/
theorem Valid.size_le_blocks {st : Stream} (hst : st.Valid) (n : ℕ) :
    st.size n ≤ st.blocks n * st.blockSize := by
  have hdiv := Nat.div_add_mod (st.size n + st.blockSize - 1) st.blockSize
  have hmod := Nat.mod_lt (st.size n + st.blockSize - 1) hst.blockSize_pos
  unfold blocks
  rw [Nat.mul_comm]
  omega

/-- Only the last block of a slice can be partial. -/
theorem Valid.size_eq {st : Stream} (hst : st.Valid) (n : ℕ) :
    st.size n % st.blockSize = 0 ∧ st.size n = st.blocks n * st.blockSize ∨
      st.size n % st.blockSize ≠ 0 ∧ ∃ m, st.blocks n = m + 1 ∧
        st.size n = m * st.blockSize + st.size n % st.blockSize := by
  have hpos := hst.blockSize_pos
  have hmod := Nat.mod_lt (st.size n) hpos
  have hdiv := Nat.div_add_mod (st.size n) st.blockSize
  generalize hq : st.size n / st.blockSize = q at hdiv
  generalize hr : st.size n % st.blockSize = r at hdiv hmod
  unfold blocks
  rcases Nat.eq_zero_or_pos r with rfl | hr
  · left
    refine ⟨rfl, ?_⟩
    rw [← hdiv, Nat.add_zero, Nat.add_sub_assoc hpos, Nat.mul_add_div hpos,
      Nat.div_eq_of_lt (by omega), Nat.add_zero, Nat.mul_comm]
  · right
    refine ⟨hr.ne', q, ?_, by rw [← hdiv, Nat.mul_comm]⟩
    rw [← hdiv, show st.blockSize * q + r + st.blockSize - 1 = st.blockSize * (q + 1) + (r - 1) by
      rw [Nat.mul_succ]; omega, Nat.mul_add_div hpos, Nat.div_eq_of_lt (by omega), Nat.add_zero]

/-- A slice begins where the one before it ends. -/
theorem start_succ (n : ℕ) : st.start (n + 1) = st.start n + st.size n := by
  rcases Nat.lt_or_ge n st.cuts.length with hlt | hge
  · exact Sender.startOf_succ hlt
  · have hsize : st.size n = 0 := List.getD_eq_default _ _ hge
    rw [hsize, start, start, Sender.startOf, Sender.startOf, List.take_of_length_le hge,
      List.take_of_length_le (by omega), Nat.add_zero]

/-- Later slices begin later in the stream. -/
theorem start_mono {n m : ℕ} (h : n ≤ m) : st.start n ≤ st.start m := by
  induction m, h using Nat.le_induction with
  | base => exact le_rfl
  | succ m _ ih =>
    rw [start_succ]
    exact ih.trans (Nat.le_add_right _ _)

/-- There is nothing behind the last slice. -/
theorem size_of_ge {n : ℕ} (h : st.cuts.length ≤ n) : st.size n = 0 :=
  List.getD_eq_default _ _ h

/-- All slices behind the last one begin at the end of the stream. -/
theorem start_of_ge {n : ℕ} (h : st.cuts.length ≤ n) : st.start n = st.start st.cuts.length := by
  rw [start, start, Sender.startOf, Sender.startOf, List.take_of_length_le h, List.take_length]

/-- Every slice with data starts at the start of a block. -/
theorem Valid.dvd_start {st : Stream} (hst : st.Valid) {n : ℕ} (h : n < st.cuts.length) :
    st.blockSize ∣ st.start n := by
  induction n with
  | zero => exact Nat.dvd_zero _
  | succ n ih =>
    rw [start_succ]
    exact (ih (by omega)).add (hst.dvd n h)

/-- How far the slices reach. -/
theorem Valid.start_add_le {st : Stream} (hst : st.Valid) (n m : ℕ) :
    st.start (n + m) ≤ st.start n + m * (st.blockSize * maxSliceSize) := by
  induction m with
  | zero => simp
  | succ m ih =>
    have hsize := hst.size_le (n + m)
    rw [← Nat.add_assoc, start_succ, Nat.succ_mul]
    omega

/-- A stream of zeros. -/
def zeros (cuts : List ℕ) (blockSize stripes redundancy : ℕ) : Stream :=
  ⟨fun _ => .ofNat 0, cuts, blockSize, stripes, redundancy⟩

/-- The FEC blocks of zeros are zeros. -/
theorem zeros_isFecPayload {cuts : List ℕ} {blockSize stripes redundancy n b : ℕ}
    (hr : redundancy ≤ 128) (hb : b < redundancy * stripes)
    (hpos : 0 < Receiver.stripeBlocks ((zeros cuts blockSize stripes redundancy).blocks n) stripes
      (b % stripes))
    (hle : Receiver.stripeBlocks ((zeros cuts blockSize stripes redundancy).blocks n) stripes
      (b % stripes) ≤ 128) :
    (zeros cuts blockSize stripes redundancy).IsFecPayload n b
      (List.replicate blockSize (.ofNat 0)) := by
  obtain ⟨fec, hencode, hfec⟩ := Fec.fecEncode_eq (Fec.fecInit_ready .zero) (b := blockSize) hpos hle hr
    (fun j => (zeros cuts blockSize stripes redundancy).block n (b % stripes + j * stripes))
    fun _ _ => .ofNat 0
  refine ⟨_, fec, hencode, ?_⟩
  have hrow : b / stripes < redundancy := Nat.div_lt_of_lt_mul (by rwa [Nat.mul_comm])
  have hzero : ∀ m x, (zeros cuts blockSize stripes redundancy).block n m x = .ofNat 0 := by
    intro m x
    unfold block
    split <;> rfl
  refine List.ext_getElem (by simp [zeros]) fun x hx hx' => ?_
  have hvalue := hfec _ hrow x (by simpa using hx)
  simp only [hzero] at hvalue
  rw [List.getElem_replicate, List.getElem_map, List.getElem_range]
  exact (hvalue.trans (Finset.sum_eq_zero fun _ _ => mul_zero _)).symm

end Stream

namespace Receiver

/-- A way to start the receiver: its options and whether it joins a running transfer. -/
abbrev Mode := Config → Bool → Prop

/-- Any options. -/
def anyMode : Mode := fun _ _ => True

/-- Neither streaming nor ignoring lost data. -/
def defaultMode : Mode := fun config streaming =>
  config.ignoreLostData = false ∧ streaming = false

/-- A message received is one that the sender sends. -/
def Action.Conforms (st : Stream) : Action → Prop
  | .receive msg => st.Sends msg
  | _ => True

/-- The receivers of a stream at their start. -/
def Starts (st : Stream) (mode : Mode) (s : State) : Prop :=
  ∃ config streaming mem blockData, ValidConfig config ∧ config.blockSize = st.blockSize ∧
    mode config streaming ∧ start config streaming mem blockData = some s

/-- The receivers of a stream. -/
def system (st : Stream) (mode : Mode) : System State :=
  .ofActionsIn (Action.Conforms st) (Starts st mode) act

/-- Messages arrive one by one, and the network thread does so many steps after each. -/
def schedule (l : List (ServerMsg × ℕ)) : List Action :=
  l.flatMap fun p => .receive p.1 :: List.replicate p.2 .net

/-- A schedule of messages of the stream conforms to it. -/
theorem conforms_schedule {st : Stream} {l : List (ServerMsg × ℕ)} (h : ∀ p ∈ l, st.Sends p.1) :
    ∀ a ∈ schedule l, a.Conforms st := by
  intro a ha
  obtain ⟨p, hp, ha⟩ := List.mem_flatMap.mp ha
  rcases List.mem_cons.mp ha with rfl | ha
  · exact h p hp
  · obtain ⟨-, rfl⟩ := List.mem_replicate.mp ha
    trivial

end Receiver

end Udpcast
