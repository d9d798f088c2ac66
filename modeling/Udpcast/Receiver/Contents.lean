import Udpcast.Receiver.Storing

/-!
# What is in the ring

The bytes of the stream that have been received or restored and not yet been written are at their
places in the ring, and the FEC blocks that have been stored are those of the slice. A message that
waits is where it has landed.
-/

namespace Udpcast

namespace Stream

variable {st : Stream} {n b x : ℕ}

/-- Every slice starts at or before the end of the stream. -/
theorem start_le_end (st : Stream) (n : ℕ) : st.start n ≤ st.start st.cuts.length := by
  rcases Nat.le_total n st.cuts.length with hle | hge
  · exact st.start_mono hle
  · exact (st.start_of_ge hge).le

/-- Only the last block of the stream can be partial. -/
theorem Valid.last_of_partial (hst : st.Valid) (hn : n < st.cuts.length) (hb : b < st.blocks n)
    (hx : x < st.blockSize) (hsize : st.size n ≤ b * st.blockSize + x) :
    n + 1 = st.cuts.length := by
  by_contra hne
  have hle : (b + 1) * st.blockSize ≤ st.blocks n * st.blockSize := Nat.mul_le_mul_right _ hb
  rw [Nat.succ_mul] at hle
  obtain ⟨-, hfull⟩ | ⟨hrest, -⟩ := hst.size_eq n
  · omega
  · exact hrest (Nat.mod_eq_zero_of_dvd (hst.dvd n (by omega)))

/-- The end of a partial block is behind the end of the stream. -/
theorem Valid.lt_size (hst : st.Valid) (hn : n < st.cuts.length) (hb : b < st.blocks n)
    (hx : x < st.blockSize) (hend : st.start n + b * st.blockSize + x < st.start st.cuts.length) :
    b * st.blockSize + x < st.size n := by
  by_contra hge
  have hlast := hst.last_of_partial hn hb hx (not_lt.mp hge)
  have hstart := st.start_succ n
  rw [hlast] at hstart
  omega

/-- Only the bytes within the block size count. -/
theorem IsFecBlock.congr {block block' : Fec.Block} (h : st.IsFecBlock n b block)
    (hbytes : ∀ x < st.blockSize, block' x = block x) : st.IsFecBlock n b block' :=
  ⟨h.1, fun x hx => (hbytes x hx).trans (h.2 x hx)⟩

end Stream

namespace Receiver

open Fec (Gf Block)
open Queue
open Protocol

variable {st : Stream} {s s' : State} {k b p q x : ℕ}

/-- What is known about a receiver in default mode. -/
structure Grounded (st : Stream) (s : State) : Prop extends Placed st s where
  valid : st.Valid
  running : s.failure = none
  behind : Behind s
  seeking : Seeking s
  conserved : Conserved s

/-- All of this holds as long as the receiver runs. -/
theorem grounded_of_reachable (hst : st.Valid) (h : (system st defaultMode).Reachable s)
    (hrunning : s.failure = none) : Grounded st s :=
  ⟨placed_of_reachable hst h hrunning, hst, hrunning, behind_of_reachable h hrunning,
    seeking_of_reachable h hrunning, conserved_of_reachable h hrunning⟩

/-- The rule for invariants whose preservation uses what is known about both states. -/
theorem running_of_act {mode : Mode} {P Q : State → Prop}
    (hQ : ∀ s, (system st mode).Reachable s → s.failure = none → Q s)
    (hinit : ∀ s, Starts st mode s → P s)
    (hstep : ∀ s s' a, Q s → Q s' → P s → Action.Conforms st a → act s a = some s' → P s')
    (h : (system st mode).Reachable s) (hrunning : s.failure = none) : P s := by
  have hinv : (system st mode).Reachable s ∧ (s.failure = none → P s) := by
    refine h.invariant (P := fun s => (system st mode).Reachable s ∧ (s.failure = none → P s))
      (fun s hs => ⟨.init hs, fun _ => hinit s hs⟩) ?_
    rintro s s' ⟨hs, hP⟩ hlast
    refine ⟨hs.step hlast, fun hrunning => ?_⟩
    have hnext := hQ s' (hs.step hlast) hrunning
    obtain ⟨a, ha, hact⟩ := hlast
    have hbefore := (act_moves hact hrunning).1
    exact hstep s s' a (hQ s hs hbefore) hnext (hP hbefore) ha hact
  exact hinv.2 hrunning

/-! ## Positions in the stream -/

/-- The receiver has block `b` of slice `k`, as it came or restored. -/
def State.Has (st : Stream) (s : State) (k b : ℕ) : Prop :=
  s.freed ≤ k ∧ k < s.started ∧ (b ∈ (s.slices (k % nrSlices)).map ∨
    (s.slices (k % nrSlices)).state = .fecDone ∧ b < st.blocks k)

/-- The receiver has byte `p` of the stream, and it has not been written yet. -/
def State.Needs (st : Stream) (s : State) (p : ℕ) : Prop :=
  s.written ≤ p ∧ (p < s.released ∨ ∃ k b x, s.Has st k b ∧ x < st.blockSize ∧
    b * st.blockSize + x < st.size k ∧ p = st.start k + b * st.blockSize + x)

section Grounded

variable (h : Grounded st s)
include h

/-- Nothing of a slice that is not complete has been released. -/
theorem Grounded.released_le (hk : s.freed ≤ k) (hlt : k < s.started)
    (hstate : (s.slices (k % nrSlices)).state = .receiving ∨
      (s.slices (k % nrSlices)).state = .fec) : s.released ≤ st.start k := by
  by_cases hfrees : s.Frees
  · have hne : k ≠ s.freed := by
      rintro rfl
      rcases hfrees with ⟨pos, bytes, tl, htl⟩ | ⟨pos, bytes, hpc⟩
      · obtain ⟨rfl, -, hdone⟩ := h.window.stack.netFrees pos bytes tl htl
        rw [hdone] at hstate
        simp at hstate
      · obtain ⟨rfl, -, hdone⟩ := h.window.slots.fecFrees pos bytes hpc
        rw [hdone] at hstate
        simp at hstate
    rw [h.released.frees hfrees]
    exact st.start_mono (by omega)
  · rw [h.released.idle hfrees]
    exact st.start_mono hk

/-- What is given back to the network thread has been written. -/
theorem Grounded.returned_le : s.memReturned ≤ s.written :=
  h.memory.returned ▸ Nat.le_add_right _ _

/-- The writer writes what has been released to it. -/
theorem Grounded.written_le : s.written ≤ s.released := h.memory.data.counts.consumed_le

/-- The slices that have been started fit into the ring before what has not been written. -/
theorem Grounded.lt_ring (hk : k < s.started) (hx : x < st.blockSize * maxSliceSize) :
    st.start k + x < s.written + s.dataBufSize := by
  have hroom := h.memory.room (s.started - 1) (by omega)
  have hmono := st.start_mono (show k ≤ s.started - 1 by omega)
  have hreturned := h.returned_le
  omega

/-- No more is released than the stream has. -/
theorem Grounded.released_le_end : s.released ≤ st.start st.cuts.length := by
  by_cases hfrees : s.Frees
  · rw [h.released.frees hfrees]
    exact st.start_le_end _
  · rw [h.released.idle hfrees]
    exact st.start_le_end _

/-- What is released and not yet written fits in the ring. -/
theorem Grounded.released_lt_ring (hp : p < s.released) : p < s.written + s.dataBufSize := by
  have hle := h.memory.data.counts.le_size
  rw [h.memory.data.size_eq] at hle
  omega

/-- A byte that is needed is in the stream and in the part of it that the ring holds. -/
theorem Grounded.needs_lt (hp : s.Needs st p) :
    p < st.start st.cuts.length ∧ p < s.written + s.dataBufSize := by
  obtain ⟨-, hreleased | ⟨k, b, x, ⟨hk, hlt, -⟩, hx, hsize, rfl⟩⟩ := hp
  · exact ⟨hreleased.trans_le h.released_le_end, h.released_lt_ring hreleased⟩
  · have hend := st.start_le_end (k + 1)
    rw [st.start_succ] at hend
    have hring := h.lt_ring hlt (hsize.trans_le (h.valid.size_le k))
    exact ⟨by omega, by omega⟩

/-- Two bytes of the part of the stream that the ring holds have different places. -/
theorem Grounded.eq_of_mod (hp : s.Needs st p) (hq : s.written ≤ q)
    (hlt : q < s.written + s.dataBufSize) (heq : p % s.dataBufSize = q % s.dataBufSize) : p = q := by
  have hplt := (h.needs_lt hp).2
  have hple := hp.1
  exact eq_of_mod_eq heq (by omega) (by omega)

/-- A slot in use has the slice of one of the numbers in the window. -/
theorem Grounded.slot {i : ℕ} (hstate : (s.slices i).state ≠ .free) :
    ∃ k, s.freed ≤ k ∧ k < s.started ∧ i = k % nrSlices ∧ (s.slices i).sliceNo = k := by
  obtain ⟨k, hk, hlt, rfl, -⟩ := h.window.slots.inUse h.queue.beyond hstate
  have hstarted := h.started_le
  exact ⟨k, hk, hlt, rfl, h.sliceNo_eq hlt (by omega)⟩

/-- When the network thread begins a cleanup, every released slice has its slot free. -/
theorem Grounded.idle_of_cleanup {rest : List Task} (ht : s.tasks = .cleanup :: rest) :
    ¬ s.Frees := by
  have huse := h.window.stack.cleanup .cleanup (ht ▸ List.mem_cons_self) (.inl rfl)
  rintro (⟨_, _, _, htask⟩ | ⟨_, _, hthread⟩)
  · cases (List.cons.inj (ht.symm.trans htask)).1
  · rw [h.window.slots.fecAbsent.mp huse] at hthread
    cases hthread

/-- So it is when the FEC thread begins one. -/
theorem Grounded.idle_of_fecCleanup (hpc : s.fecThread = .cleanup) : ¬ s.Frees := by
  rintro (⟨pos, bytes, tl, htask⟩ | ⟨_, _, hthread⟩)
  · have huse := h.window.stack.cleanup (.freeSlot pos bytes) (htask ▸ List.mem_cons_self)
      (.inr ⟨_, _, rfl⟩)
    rw [h.window.slots.fecAbsent.mp huse] at hpc
    cases hpc
  · rw [hpc] at hthread
    cases hthread

/-- The next block is in no slice, unless it has just been stored. -/
theorem Grounded.next_free {i : ℕ} (htasks : s.tasks.head?.any Task.takesBlock = false)
    (hi : i < nrSlices) : (s.slices i).holds s.nextBlock = 0 := by
  have hpool := h.conserved.pool s.nextBlock
  unfold State.pool at hpool
  rw [spare_eq_next htasks, List.count_singleton_self] at hpool
  have hzero : ∑ i ∈ Finset.range nrSlices, (s.slices i).holds s.nextBlock = 0 := by
    split at hpool <;> omega
  exact Finset.sum_eq_zero_iff.mp hzero i (Finset.mem_range.mpr hi)

/-- The slices share no FEC blocks. -/
theorem Grounded.holds_le {i a : ℕ} (hi : i < nrSlices) : (s.slices i).holds a ≤ 1 := by
  have hpool := h.conserved.pool a
  unfold State.pool at hpool
  have hle := Finset.single_le_sum (f := fun i => (s.slices i).holds a)
    (fun _ _ => Nat.zero_le _) (Finset.mem_range.mpr hi)
  split at hpool <;> omega

/-- Two slots never hold the same place of the pool. -/
theorem Grounded.holds_apart {i j a : ℕ} (hi : i < nrSlices) (hj : j < nrSlices) (hne : i ≠ j)
    (hholds : (s.slices i).holds a ≠ 0) : (s.slices j).holds a = 0 := by
  have hpool := h.conserved.pool a
  unfold State.pool at hpool
  have hpair : ({i, j} : Finset ℕ) ⊆ Finset.range nrSlices := by
    intro x hx
    rcases Finset.mem_insert.mp hx with rfl | hx
    · exact Finset.mem_range.mpr hi
    · rw [Finset.mem_singleton.mp hx]
      exact Finset.mem_range.mpr hj
  have hle := Finset.sum_le_sum_of_subset (f := fun i => (s.slices i).holds a) hpair
  rw [Finset.sum_pair hne] at hle
  split at hpool <;> omega

end Grounded

/-! ## The invariant -/

/-- The message is about a slice that is still to be received. -/
def State.Wants (s : State) (n : ℤ) : Prop :=
  ∃ m : ℕ, n = m ∧ (s.started ≤ m ∨ s.freed ≤ m ∧ (s.slices (m % nrSlices)).state = .receiving)

/-- The block begins with the payload of the message. -/
def Carries (st : Stream) (block : Block) : ServerMsg → Prop
  | .data n b _ _ => ∀ x < st.blockSize, b * st.blockSize + x < st.size n →
    block x = st.block n b x
  | .fec _ n b _ _ => b % st.stripes < st.blocks n → st.IsFecBlock n b block
  | .reqack .. | .hello => True

/-- A payload has landed in block `f` of slice `c`, which was the current one then. -/
structure LandedIn (st : Stream) (s : State) (c f a : ℕ) : Prop where
  current : c < s.started
  free : f < maxSliceSize
  place : a = (st.start c + f * st.blockSize) % s.dataBufSize
  room : st.start c + st.blockSize * maxSliceSize ≤ s.memReturned + s.dataBufSize
  clear : ∀ j, s.freed ≤ j → j < s.started → (s.slices (j % nrSlices)).state = .fec →
    j < c ∨ j = c ∧ st.blocks c ≤ f

/-- Where the payload of a message that waits is. -/
def Landed (st : Stream) (s : State) : Prop :=
  s.isAddress = .pool s.nextBlock ∨ ∃ c f a, s.isAddress = .ring a ∧ LandedIn st s c f a

/-- What is needed is in the ring and in the pool. -/
structure Stored (st : Stream) (s : State) : Prop where
  ring : ∀ p, s.Needs st p → s.dataBuffer (p % s.dataBufSize) = st.input p
  repairable : ∀ i, (s.slices i).Repairable st s.blockData

/-- The payload of a message that waits is where it has landed. -/
def Awaits (st : Stream) (s : State) : Prop :=
  ∀ msg, .process msg ∈ s.tasks → s.Wants (sliceNoOf msg) →
    Landed st s ∧ Carries st (s.byteAt s.isAddress) msg

/-- A state that has more, or has written less, needs what the other needs. -/
theorem State.Needs.mono (hp : s'.Needs st p) (hwritten : s.written ≤ s'.written)
    (hreleased : p < s'.released → p < s.released ∨ ∃ k b x, s.Has st k b ∧ x < st.blockSize ∧
      b * st.blockSize + x < st.size k ∧ p = st.start k + b * st.blockSize + x)
    (hhas : ∀ k b, s'.Has st k b → s.Has st k b) : s.Needs st p := by
  obtain ⟨hle, hlt | ⟨k, b, x, hkb, hx⟩⟩ := hp
  · exact ⟨hwritten.trans hle, hreleased hlt⟩
  · exact ⟨hwritten.trans hle, .inr ⟨k, b, x, hhas k b hkb, hx⟩⟩

/-- Steps that leave the memory alone and need nothing more. -/
theorem Stored.mono (h : Stored st s) (hmemory : SameMemory s s')
    (hsize : s'.dataBufSize = s.dataBufSize) (hneeds : ∀ p, s'.Needs st p → s.Needs st p)
    (hrepairable : ∀ i, (s'.slices i).Repairable st s.blockData) : Stored st s' where
  ring p hp := by
    rw [hmemory.ring, hsize]
    exact h.ring p (hneeds p hp)
  repairable i := by
    rw [hmemory.pool]
    exact hrepairable i

/-- One slot changes, and has nothing more than before. -/
theorem Stored.update {i : ℕ} {slice : Slice} (h : Stored st s) (hmemory : SameMemory s s')
    (hsize : s'.dataBufSize = s.dataBufSize) (hwritten : s.written ≤ s'.written)
    (hreleased : s'.released = s.released) (hfreed : s.freed ≤ s'.freed)
    (hstarted : s'.started = s.started) (hslices : s'.slices = Function.update s.slices i slice)
    (hhas : ∀ k b, s.freed ≤ k → k < s.started → k % nrSlices = i →
      (b ∈ slice.map ∨ slice.state = .fecDone ∧ b < st.blocks k) →
        b ∈ (s.slices i).map ∨ (s.slices i).state = .fecDone ∧ b < st.blocks k)
    (hrepairable : slice.Repairable st s.blockData) : Stored st s' := by
  refine h.mono hmemory hsize (fun p hp => hp.mono hwritten (fun hlt => .inl (hreleased ▸ hlt)) ?_) ?_
  · rintro k b ⟨hk, hlt, hhasb⟩
    refine ⟨hfreed.trans hk, hstarted ▸ hlt, ?_⟩
    rw [hslices] at hhasb
    rcases eq_or_ne (k % nrSlices) i with rfl | hne
    · rw [Function.update_self] at hhasb
      exact hhas k b (hfreed.trans hk) (hstarted ▸ hlt) rfl hhasb
    · rwa [Function.update_of_ne hne] at hhasb
  · intro j
    rw [hslices]
    rcases eq_or_ne j i with rfl | hne
    · rwa [Function.update_self]
    · rw [Function.update_of_ne hne]
      exact h.repairable j

/-- Nothing that matters changes. -/
theorem Stored.same (h : Stored st s) (hmemory : SameMemory s s')
    (hsize : s'.dataBufSize = s.dataBufSize) (hwritten : s.written ≤ s'.written)
    (hreleased : s'.released = s.released) (hfreed : s'.freed = s.freed)
    (hstarted : s'.started = s.started) (hslices : s'.slices = s.slices) : Stored st s' :=
  h.update (i := 0) hmemory hsize hwritten hreleased hfreed.ge hstarted
    (by rw [hslices, Function.update_eq_self]) (fun _ _ _ _ _ => id) (h.repairable 0)

/-- A complete slice is released. -/
theorem Stored.release {bytes : ℕ} (h : Stored st s) (hg : Grounded st s) (hidle : ¬ s.Frees)
    (hstate : (s.slices (s.freed % nrSlices)).state = .done ∨
      (s.slices (s.freed % nrSlices)).state = .fecDone)
    (hbytes : bytes = (s.slices (s.freed % nrSlices)).bytes)
    (hmemory : SameMemory s s') (hsize : s'.dataBufSize = s.dataBufSize)
    (hwritten : s'.written = s.written) (hreleased : s'.released = s.released + bytes)
    (hfreed : s'.freed = s.freed) (hstarted : s'.started = s.started)
    (hslices : s'.slices = s.slices) : Stored st s' := by
  have hlt : s.freed < s.started := by
    refine hg.window.slots.freed_lt_of_state (x := (s.slices (s.freed % nrSlices)).state) ?_ rfl
    rcases hstate with hstate | hstate <;> simp [hstate]
  have hstartedLe := hg.started_le
  have htracked := hg.tracked hlt (by omega)
  have hno := hg.sliceNo_eq hlt (by omega)
  obtain ⟨hknown, -⟩ := htracked.complete (by rcases hstate with hstate | hstate <;> simp [hstate])
  have hsizeEq : bytes = st.size s.freed := by
    rw [hbytes, htracked.counted.size hknown, hno, Int.toNat_natCast]
  refine h.mono hmemory hsize (fun p hp => hp.mono hwritten.ge ?_ ?_) ?_
  · intro hplt
    rcases Nat.lt_or_ge p s.released with hlt' | hge
    · exact .inl hlt'
    · right
      rw [hg.released.idle hidle] at hge
      rw [hreleased, hg.released.idle hidle, hsizeEq] at hplt
      have hpos := hg.valid.blockSize_pos
      have hmod := Nat.mod_lt (p - st.start s.freed) hpos
      have hdiv := Nat.div_add_mod (p - st.start s.freed) st.blockSize
      rw [Nat.mul_comm] at hdiv
      have hblock : (p - st.start s.freed) / st.blockSize < st.blocks s.freed := by
        have hcover := hg.valid.size_le_blocks s.freed
        exact Nat.div_lt_of_lt_mul (by rw [Nat.mul_comm]; omega)
      refine ⟨s.freed, (p - st.start s.freed) / st.blockSize, (p - st.start s.freed) % st.blockSize,
        ⟨le_rfl, hlt, ?_⟩, hmod, by omega, by omega⟩
      rcases hstate with hdone | hdone
      · exact .inl (htracked.received hdone hno _ hblock)
      · exact .inr ⟨hdone, hblock⟩
  · rintro k b ⟨hk, hlt, hhas⟩
    rw [hslices] at hhas
    exact ⟨hfreed ▸ hk, hstarted ▸ hlt, hhas⟩
  · intro i
    rw [hslices]
    exact h.repairable i

/-! ## Storing a block -/

/-- Copying a block into the ring changes the ring there and nowhere else. -/
theorem copyBlock_ring {a c : ℕ} : (s.copyBlock (.ring a)).dataBuffer c =
    if a ≤ c ∧ c < a + s.config.blockSize then s.byteAt s.isAddress (c - a)
    else s.dataBuffer c := by
  unfold State.copyBlock
  split
  · rename_i hsame
    split
    · rename_i hinside
      rw [← hsame, State.byteAt, Nat.add_sub_cancel' hinside.1]
    · rfl
  · rfl

/-- It does not touch the pool. -/
theorem copyBlock_ring_pool {a : ℕ} : (s.copyBlock (.ring a)).blockData = s.blockData := by
  unfold State.copyBlock
  split <;> rfl

/-- Copying a block into the pool does not touch the ring. -/
theorem copyBlock_pool_ring {a : ℕ} : (s.copyBlock (.pool a)).dataBuffer = s.dataBuffer := by
  unfold State.copyBlock
  split <;> rfl

/-- It fills the place in the pool with the bytes of the block. -/
theorem copyBlock_pool_self {a : ℕ} (hx : x < s.config.blockSize) :
    (s.copyBlock (.pool a)).blockData a x = s.byteAt s.isAddress x := by
  unfold State.copyBlock
  split
  · rename_i hsame
    rw [← hsame, State.byteAt, Nat.div_eq_of_lt hx, Nat.mod_eq_of_lt hx]
    rfl
  · unfold State.store
    dsimp only
    rw [Function.update_self, if_pos hx]

/-- The other places of the pool stay. -/
theorem copyBlock_pool_of_ne {a a' : ℕ} (hne : a' ≠ a) :
    (s.copyBlock (.pool a)).blockData a' = s.blockData a' := by
  unfold State.copyBlock
  split
  · rfl
  · unfold State.store
    dsimp only
    rw [Function.update_of_ne hne]

/-- The FEC blocks of a slice are the same if the blocks it holds are. -/
theorem Slice.Repairable.frame {slice : Slice} {pool pool' : ℕ → Block}
    (h : slice.Repairable st pool) (hpool : ∀ a, slice.holds a ≠ 0 → pool' a = pool a) :
    slice.Repairable st pool' := by
  refine ⟨fun hstate k hk j hj => ?_, h.lacks⟩
  obtain ⟨a, hadr, hblock⟩ := h.stocked hstate k hk j hj
  refine ⟨a, hadr, ?_⟩
  rwa [hpool a (Slice.holds_ne_zero hk hj hadr)]

end Receiver

end Udpcast
