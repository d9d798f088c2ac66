import Udpcast.Receiver.Effects
import Mathlib.Combinatorics.Colex

/-!
# The ready set of a REQACK

The set follows the header in one datagram, and `recvmsg` stores it like the payload of a
data block: at most `blockSize` bytes of it. A client whose bit lies behind them reads what
was in memory before.
-/

namespace Udpcast.Receiver

open Fec (Gf)
open Protocol

variable {s s' : State} {i n bytes rxmit : ℕ}

/-- `processReqAck` returns at once: the message is "not for us". -/
def State.NotForUs (s : State) (n bytes rxmit : ℕ) : Prop :=
  processReqAck s n bytes rxmit = .ok s

/-- The bit of this client in the memory where the next payload will be stored. -/
def State.staleBit (s : State) : Bool :=
  (s.byteAt (landing s) (s.config.clientNumber / 8)).toNat.testBit (s.config.clientNumber % 8)

/-! ## The bits of a map -/

/-- A byte has the lower eight bits of the number it is made of. -/
theorem testBit_toNat_ofNat (x : ℕ) {j : ℕ} (hj : j < 8) :
    (Gf.ofNat x).toNat.testBit j = x.testBit j := by
  have hmod : (Gf.ofNat x).toNat = x % 2 ^ 8 := BitVec.toNat_ofNat x 8
  rw [hmod, Nat.testBit_mod_two_pow, decide_eq_true hj, Bool.true_and]

/-- The numbers of the bits of a byte are in order. -/
theorem sortedLT_bits (map : Finset ℕ) (x : ℕ) :
    ((List.range 8).filter fun j => 8 * x + j ∈ map).SortedLT := by
  have hrange : (List.range 8).Pairwise (· < ·) := List.pairwise_lt_range
  exact (hrange.filter _).sortedLT

/-- Bit `j` of byte `x` is the one of client `8 * x + j`. -/
theorem testBit_mapByte (map : Finset ℕ) (x : ℕ) {j : ℕ} (hj : j < 8) :
    (mapByte map x).toNat.testBit j = true ↔ 8 * x + j ∈ map := by
  unfold mapByte
  rw [testBit_toNat_ofNat _ hj, ← Nat.mem_bitIndices,
    Nat.bitIndices_sum_map_two_pow (sortedLT_bits map x), List.mem_filter, List.mem_range]
  simp [hj]

/-- `BIT_ISSET` finds the bit that `SET_BIT` has set. -/
theorem testBit_mapByte_div (map : Finset ℕ) (client : ℕ) :
    (mapByte map (client / 8)).toNat.testBit (client % 8) = true ↔ client ∈ map := by
  have hclient : 8 * (client / 8) + client % 8 = client := Nat.div_add_mod client 8
  rw [testBit_mapByte map _ (Nat.mod_lt client (by decide)), hclient]

/-! ## What arrives in memory -/

section Store

variable {p : Place} {x : ℕ} {f : ℕ → Gf}

/-- A byte that has been stored is read back. -/
theorem State.byteAt_store_of_lt (hx : x < n) (hn : n ≤ s.config.blockSize) :
    (s.store p n f).byteAt p x = f x := by
  have hblock : x < s.config.blockSize := hx.trans_le hn
  cases p with
  | ring a =>
    have hin : a ≤ a + x ∧ a + x < a + n := by omega
    simp [byteAt, store, hin]
  | pool b =>
    simp [byteAt, store, Nat.div_eq_of_lt hblock, Nat.mod_eq_of_lt hblock, hx]

/-- What lies behind the bytes that are stored stays. -/
theorem State.byteAt_store_of_le (hpos : 0 < s.config.blockSize) (hx : n ≤ x) :
    (s.store p n f).byteAt p x = s.byteAt p x := by
  cases p with
  | ring a =>
    have hout : ¬ a + x < a + n := by omega
    simp [byteAt, store, hout]
  | pool b =>
    by_cases hblock : x < s.config.blockSize
    · have hle : ¬ x < n := by omega
      simp [byteAt, store, Nat.div_eq_of_lt hblock, Nat.mod_eq_of_lt hblock, hle]
    · -- The byte belongs to a later block of the pool.
      have hdiv : 0 < x / s.config.blockSize := Nat.div_pos (not_lt.mp hblock) hpos
      have hne : b + x / s.config.blockSize ≠ b := by omega
      simp [byteAt, store, Function.update_of_ne hne]

end Store

/-- The bit is that of the set, as long as it lies within the block. -/
theorem isReady_of_lt (ready : Finset ℕ) (hclient : s.config.clientNumber < maxClients)
    (hlt : s.config.clientNumber < 8 * s.config.blockSize) :
    (storePayload s (.reqack n bytes rxmit ready)).isReady = true ↔
      s.config.clientNumber ∈ ready := by
  have hclients : maxClients / 8 = 128 := rfl
  have hbound : s.config.clientNumber / 8 < min (maxClients / 8) s.config.blockSize := by
    have hmax : maxClients = 1024 := rfl
    omega
  rw [← testBit_mapByte_div ready s.config.clientNumber]
  have hbyte := State.byteAt_store_of_lt (s := { s with isAddress := landing s }) (p := landing s)
    (f := mapByte ready) hbound (Nat.min_le_right _ _)
  rw [← hbyte]
  cases hland : landing s <;> simp [storePayload, State.isReady, State.store, hland]

/-- Behind the block, the bit is what was in memory before. -/
theorem isReady_of_le (ready : Finset ℕ) (hpos : 0 < s.config.blockSize)
    (hle : 8 * s.config.blockSize ≤ s.config.clientNumber) :
    (storePayload s (.reqack n bytes rxmit ready)).isReady = s.staleBit := by
  have hbound : min (maxClients / 8) s.config.blockSize ≤ s.config.clientNumber / 8 := by omega
  have hbyte := State.byteAt_store_of_le (s := { s with isAddress := landing s })
    (p := landing s) (f := mapByte ready) hpos hbound
  have hsame : ({ s with isAddress := landing s } : State).byteAt (landing s)
      (s.config.clientNumber / 8) = s.byteAt (landing s) (s.config.clientNumber / 8) := by
    cases landing s <;> rfl
  rw [State.staleBit, ← hsame, ← hbyte]
  cases hland : landing s <;> simp [storePayload, State.isReady, State.store, hland]

/-! ## What `processReqAck` makes of it -/

/-- Setting the size of a slice sends nothing. -/
theorem replies_of_setSliceBytes (h : setSliceBytes s i bytes = .ok s') :
    s'.replies = s.replies := by
  obtain ⟨-, -, rfl⟩ | ⟨-, rfl⟩ := setSliceBytes_ok h
  · rfl
  · rfl

/-- Completing a slice sends nothing. -/
theorem replies_of_checkSliceComplete (h : checkSliceComplete s i = .ok s') :
    s'.replies = s.replies := by
  obtain ⟨-, rfl⟩ | ⟨-, -, state, -, rfl⟩ := checkSliceComplete_ok h
  · rfl
  · rfl

/-- A REQACK that is for us is answered. -/
theorem length_replies_of_processReqAck (hready : s.isReady = false)
    (h : processReqAck s n bytes rxmit = .ok s') :
    s'.replies.length = s.replies.length + 1 := by
  obtain ⟨htrue, -⟩ | ⟨-, -, rfl⟩ | ⟨-, j, s₁, -, hset, hcheck⟩ := processReqAck_ok h
  · rw [hready] at htrue
    contradiction
  · rfl
  · obtain ⟨msg, hanswer⟩ := answer_eq (s := s₁) (i := j) rxmit
    rw [replies_of_checkSliceComplete hcheck, ← replies_of_setSliceBytes hset, hanswer]
    rfl

/-- A REQACK is for others exactly when the bit of this client is set in what is in memory. -/
theorem notForUs_iff_isReady : s.NotForUs n bytes rxmit ↔ s.isReady = true := by
  constructor
  · intro h
    by_contra hready
    have hlength := length_replies_of_processReqAck (Bool.not_eq_true _ ▸ hready) h
    omega
  · intro hready
    unfold State.NotForUs processReqAck
    rw [hready, if_pos rfl]

/-- A REQACK that has arrived is skipped by exactly the clients in its set if and only if the
bit of this client lies within the block, or agrees with what was in memory. What `findSlice`
finds makes no difference. -/
theorem notForUs_iff_mem_iff (s : State) (found : Option ℕ) (n bytes rxmit : ℕ)
    (ready : Finset ℕ) (hpos : 0 < s.config.blockSize)
    (hclient : s.config.clientNumber < maxClients) :
    (State.NotForUs { storePayload s (.reqack n bytes rxmit ready) with found := found }
        n bytes rxmit ↔ s.config.clientNumber ∈ ready) ↔
      s.config.clientNumber < 8 * s.config.blockSize ∨
        (s.staleBit = true ↔ s.config.clientNumber ∈ ready) := by
  have hfound : State.isReady { storePayload s (.reqack n bytes rxmit ready) with found := found } =
      (storePayload s (.reqack n bytes rxmit ready)).isReady := rfl
  rw [notForUs_iff_isReady, hfound]
  rcases Nat.lt_or_ge s.config.clientNumber (8 * s.config.blockSize) with hlt | hle
  · have hready : (storePayload s (.reqack n bytes rxmit ready)).isReady = true ↔
        s.config.clientNumber ∈ ready := isReady_of_lt ready hclient hlt
    exact iff_of_true hready (.inl hlt)
  · rw [isReady_of_le ready hpos hle]
    have hnot : ¬ s.config.clientNumber < 8 * s.config.blockSize := not_lt.mpr hle
    rw [or_iff_right hnot]

/-- Client 7 has its bit in the first byte of the set. -/
theorem notForUs_iff_mem_iff_seventh : ∃ s : State, s.config.clientNumber = 7 ∧
    (State.NotForUs { storePayload s (.reqack 0 2912 0 {3, 7}) with found := none } 0 2912 0 ↔
      7 ∈ ({3, 7} : Finset ℕ)) := by
  have hstart : (start ⟨1456, false, true, 7⟩ true (fun _ => .ofNat 0) fun _ _ => .ofNat 0).any
      fun s => s.config.blockSize = 1456 ∧ s.config.clientNumber = 7 := by
    decide +kernel
  obtain ⟨s, -, hs⟩ := (Option.any_eq_true _ _).mp hstart
  obtain ⟨hsize, hnumber⟩ := of_decide_eq_true hs
  have hiff := notForUs_iff_mem_iff s none 0 2912 0 {3, 7} (by omega) (by rw [hnumber]; decide)
  rw [hnumber, hsize] at hiff
  exact ⟨s, hnumber, hiff.mpr (.inl (by decide))⟩

/-- With blocks of 4 bytes, client 32 reads its bit in the next block of the pool. If that bit
happens to be set, the client skips a REQACK that asks everybody. -/
theorem not_notForUs_iff_mem :
    ¬ ∀ (s : State) (n bytes rxmit : ℕ) (ready : Finset ℕ), 0 < s.config.blockSize →
      4 ∣ s.config.blockSize → s.config.clientNumber < maxClients →
        ((storePayload s (.reqack n bytes rxmit ready)).NotForUs n bytes rxmit ↔
          s.config.clientNumber ∈ ready) := by
  intro hclaim
  have hstart : (start ⟨4, false, true, 32⟩ true (fun _ => .ofNat 0)
      fun b _ => .ofNat (if b = 1 then 1 else 0)).any fun s =>
        s.config.blockSize = 4 ∧ s.config.clientNumber = 32 ∧ s.staleBit = true := by
    decide +kernel
  obtain ⟨s, -, hs⟩ := (Option.any_eq_true _ _).mp hstart
  obtain ⟨hsize, hnumber, hstale⟩ := of_decide_eq_true hs
  have hready : (storePayload s (.reqack 0 8 0 ∅)).isReady = s.staleBit :=
    isReady_of_le ∅ (by omega) (by omega)
  have hskip : (storePayload s (.reqack 0 8 0 ∅)).NotForUs 0 8 0 :=
    notForUs_iff_isReady.mpr (hready.trans hstale)
  have hmem := (hclaim s 0 8 0 ∅ (by omega) (by omega) (by rw [hnumber]; decide)).mp hskip
  exact Finset.notMem_empty _ hmem

end Udpcast.Receiver
