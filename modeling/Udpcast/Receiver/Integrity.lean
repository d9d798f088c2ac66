import Udpcast.Receiver.Contents

/-!
# The contents are right

Every step keeps the bytes that are needed in the ring and the FEC blocks in the pool: a payload
lands where it harms nothing, it is copied to its place, and decoding restores what is missing.
-/

namespace Udpcast.Receiver

open Fec (Gf Block)
open Queue
open Protocol

variable {st : Stream} {s s' s₀ : State} {t : Task} {rest : List Task} {msg : ServerMsg}
  {i b n bytes k p x : ℕ}

/-! ## Work on a slice -/

/-- A message does not decode a slice: a slice that is decoded has been so before. -/
theorem Works.fecDone (hw : Works i s s') (hstate : (s'.slices i).state = .fecDone) :
    (s.slices i).state = .fecDone := by
  obtain hsame | ⟨-, -, hdone | ⟨hfec, -⟩⟩ := hw.state
  · rw [← hsame, hstate]
  · rw [hdone] at hstate
    cases hstate
  · rw [hfec] at hstate
    cases hstate

/-- What is the same before a function on slices is called. -/
structure SameWindow (s s' : State) : Prop where
  slices : s'.slices = s.slices
  size : s'.dataBufSize = s.dataBufSize
  written : s'.written = s.written
  released : s'.released = s.released
  freed : s'.freed = s.freed
  started : s'.started = s.started

/-- Taking a task changes nothing of the window. -/
theorem SameWindow.popped (rest : List Task) : SameWindow s (s.popped rest) :=
  ⟨rfl, rfl, rfl, rfl, rfl, rfl⟩

/-- Work on a slice that receives no new block adds nothing to what is needed. -/
theorem State.Needs.worked (hp : s'.Needs st p) (hbefore : SameWindow s s₀) (hw : Works i s₀ s')
    (hmap : (s'.slices i).map = (s.slices i).map) : s.Needs st p := by
  have hwritten : s'.written = s₀.written := congrArg Rest.written hw.rest_eq
  have hreleased : s'.released = s₀.released := congrArg Rest.released hw.rest_eq
  have hfreed : s'.freed = s₀.freed := congrArg Rest.freed hw.rest_eq
  have hstarted : s'.started = s₀.started := congrArg Rest.started hw.rest_eq
  refine hp.mono (hwritten.trans hbefore.written).ge (fun hlt => .inl ?_) ?_
  · rwa [hreleased, hbefore.released] at hlt
  · rintro k b ⟨hk, hlt, hhas⟩
    rw [hfreed, hbefore.freed] at hk
    rw [hstarted, hbefore.started] at hlt
    refine ⟨hk, hlt, ?_⟩
    rcases eq_or_ne (k % nrSlices) i with rfl | hne
    · rw [hmap] at hhas
      refine hhas.imp_right fun ⟨hstate, hb⟩ => ⟨?_, hb⟩
      rw [← hbefore.slices]
      exact hw.fecDone hstate
    · rwa [hw.others _ hne, hbefore.slices] at hhas

/-- After work on a slice that stores nothing. -/
theorem Stored.worked (h : Stored st s) (hbefore : SameWindow s s₀) (hw : Works i s₀ s')
    (hmemory : SameMemory s s') (hmap : (s'.slices i).map = (s.slices i).map)
    (hrepairable : (s'.slices i).Repairable st s.blockData) : Stored st s' := by
  refine h.mono hmemory ((congrArg Rest.dataBufSize hw.rest_eq).trans hbefore.size)
    (fun p hp => hp.worked hbefore hw hmap) fun j => ?_
  rcases eq_or_ne j i with rfl | hne
  · exact hrepairable
  · rw [hw.others _ hne, hbefore.slices]
    exact h.repairable j

/-- The slice that a message is about and that is still being received. -/
theorem Grounded.wanted (hg : Grounded st s) (hno : (s.slices i).sliceNo = n)
    (hstate : (s.slices i).state = .receiving) :
    s.freed ≤ n ∧ n < s.started ∧ i = n % nrSlices ∧ s.Wants n := by
  obtain ⟨k, hk, hlt, rfl, hsliceNo⟩ := hg.slot (i := i) (by simp [hstate])
  obtain rfl : k = n := by
    rw [hno] at hsliceNo
    exact_mod_cast hsliceNo.symm
  exact ⟨hk, hlt, rfl, k, rfl, .inr ⟨hk, hstate⟩⟩

/-- The slice in slot `i` is at its place in the ring. -/
theorem Grounded.seated (hg : Grounded st s) (hn : s.freed ≤ n) (hlt : n < s.started)
    (hdata : n < st.cuts.length) : Seated st s (n % nrSlices) n where
  valid := hg.valid
  data := hdata
  blockSize := hg.accounts.blockSize
  bufSize := hg.accounts.bufSize
  sliceNo := hg.sliceNo_eq hlt (by have := hg.started_le; omega)
  base := hg.memory.base n (.inl hn) hlt

/-- The ring after a data block has been copied to its place. -/
theorem copyBlock_cells {a : ℕ} (hring : s'.dataBuffer = (s.copyBlock (.ring a)).dataBuffer) :
    (∀ y < s.config.blockSize, s'.dataBuffer (a + y) = s.byteAt s.isAddress y) ∧
      ∀ c, (∀ y < s.config.blockSize, c ≠ a + y) → s'.dataBuffer c = s.dataBuffer c := by
  refine ⟨fun y hy => ?_, fun c hc => ?_⟩
  · rw [hring, copyBlock_ring, if_pos ⟨by omega, by omega⟩, Nat.add_sub_cancel_left]
  · rw [hring, copyBlock_ring, if_neg]
    rintro ⟨hle, hlt⟩
    exact hc (c - a) (by omega) (by omega)

/-- A data block is stored at its place. -/
theorem Stored.storeData (h : Stored st s) (ha : Awaits st s) (hg : Grounded st s)
    (hg' : Grounded st s') {payload : List Gf} (ht : s.tasks = .process (.data n b bytes payload) :: rest)
    (hfound : s.found = some i) (hok : processDataBlock (s.popped rest) i n b bytes = .ok s') :
    Stored st s' := by
  have hw := (processDataBlock_works hok).1
  have hmem : .process (.data n b bytes payload) ∈ s.tasks := ht ▸ List.mem_cons_self
  have hno : (s.slices i).sliceNo = n := hg.window.stack.found _ _ _ ht hfound
  obtain rfl | ⟨hstate, -, hmemory, hmap, hrepairable⟩ := processDataBlock_stores st hok
  · exact h.same ⟨rfl, rfl⟩ rfl le_rfl rfl rfl rfl rfl
  have hstate : (s.slices i).state = .receiving := hstate
  have hmap : (s'.slices i).map = insert b (s.slices i).map := hmap
  obtain ⟨hn, hlt, rfl, hwants⟩ := hg.wanted hno hstate
  obtain ⟨hdata, hb⟩ : n < st.cuts.length ∧ b < st.blocks n := by
    cases hg.accounts.sends _ hmem with
    | data _ _ hn hb => exact ⟨hn, hb⟩
  have hbytes : ∀ x < st.blockSize, b * st.blockSize + x < st.size n →
      s.byteAt s.isAddress x = st.block n b x := (ha _ hmem hwants).2
  obtain ⟨hinside, houtside⟩ : (∀ y < st.blockSize,
      s'.dataBuffer (adr s (s.slices (n % nrSlices)) b + y) = s.byteAt s.isAddress y) ∧
      ∀ c, (∀ y < st.blockSize, c ≠ adr s (s.slices (n % nrSlices)) b + y) →
        s'.dataBuffer c = s.dataBuffer c := by
    rw [← hg.accounts.blockSize]
    exact copyBlock_cells (s := s.popped rest) hmemory.ring
  have hpool : s'.blockData = s.blockData := hmemory.pool.trans copyBlock_ring_pool
  have hseated := hg.seated hn hlt hdata
  have hbmax := hg.valid.blocks_le n
  have hreleased := hg.released_le hn hlt (.inl hstate)
  have hwritten := hg.written_le
  have hsize : s'.dataBufSize = s.dataBufSize := congrArg Rest.dataBufSize hw.rest_eq
  have hwritten' : s'.written = s.written := congrArg Rest.written hw.rest_eq
  have hreleased' : s'.released = s.released := congrArg Rest.released hw.rest_eq
  have hfreed' : s'.freed = s.freed := congrArg Rest.freed hw.rest_eq
  have hstarted' : s'.started = s.started := congrArg Rest.started hw.rest_eq
  refine ⟨fun p hp => ?_, fun j => ?_⟩
  · obtain ⟨hend, hring⟩ := hg'.needs_lt hp
    have hle := hp.1
    rw [hsize]
    by_cases hcell : ∃ y < st.blockSize,
        p % s.dataBufSize = adr s (s.slices (n % nrSlices)) b + y
    · obtain ⟨y, hy, heq⟩ := hcell
      rw [heq, hinside y hy]
      rw [hseated.cell hy] at heq
      have hspan := block_span (hb.trans_le hbmax) hy
      have hq := hg.lt_ring hlt hspan
      have hsame := eq_of_mod_eq heq (by omega) (by omega)
      have hinsize := hg.valid.lt_size hdata hb hy (by omega)
      rw [hbytes y hy hinsize, Stream.block, if_pos hinsize, hsame]
    · push Not at hcell
      rw [houtside _ hcell]
      apply h.ring p
      obtain ⟨-, hplt | ⟨k, b', x, ⟨hk, hklt, hhas⟩, hx, hinsize, rfl⟩⟩ := hp
      · exact ⟨by omega, .inl (by omega)⟩
      · refine ⟨by omega, .inr ⟨k, b', x, ⟨by omega, by omega, ?_⟩, hx, hinsize, rfl⟩⟩
        rcases eq_or_ne (k % nrSlices) (n % nrSlices) with heq | hne
        · rw [heq] at hhas ⊢
          refine hhas.imp (fun hb' => ?_) (And.imp_left hw.fecDone)
          rw [hmap, Finset.mem_insert] at hb'
          apply hb'.resolve_left
          rintro rfl
          obtain rfl : k = n := by
            have hstarted := hg.started_le
            simp only [nrSlices] at heq hstarted
            omega
          exact hcell x hx (hseated.cell hx).symm
        · rw [hw.others _ hne] at hhas
          exact hhas
  · rw [hpool]
    rcases eq_or_ne j (n % nrSlices) with rfl | hne
    · exact hrepairable _ (h.repairable _)
    · rw [hw.others _ hne]
      exact h.repairable j

/-- A FEC block is stored in the pool. -/
theorem Stored.storeFec (h : Stored st s) (ha : Awaits st s) (hg : Grounded st s)
    (hg' : Grounded st s') {stripes : ℕ} {payload : List Gf}
    (ht : s.tasks = .process (.fec stripes n b bytes payload) :: rest) (hfound : s.found = some i)
    (hok : processFecBlock (s.popped rest) i stripes b bytes = .ok s') : Stored st s' := by
  have hw := (processFecBlock_works hok).1
  have hmem : .process (.fec stripes n b bytes payload) ∈ s.tasks := ht ▸ List.mem_cons_self
  have hno : (s.slices i).sliceNo = n := hg.window.stack.found _ _ _ ht hfound
  obtain ⟨rfl, hne⟩ : stripes = st.stripes ∧ st.stripes ≠ 0 := by
    cases hg.accounts.sends _ hmem with
    | fec _ _ _ _ hb =>
      refine ⟨rfl, ?_⟩
      rintro hzero
      rw [hzero, Nat.mul_zero] at hb
      exact Nat.not_lt_zero _ hb
  obtain ⟨hstores, hmap⟩ := processFecBlock_stores st hok hne
  cases hstores with
  | useless hmemory hrepairable =>
    exact h.worked (.popped rest) hw ⟨hmemory.ring, hmemory.pool⟩ hmap
      (hrepairable _ (h.repairable i))
  | stored hmemory hnotFec hlt hpos hrepairable =>
    have hring : s'.dataBuffer = s.dataBuffer := hmemory.ring.trans copyBlock_pool_ring
    have hnext : ∀ x < st.blockSize, s'.blockData s.nextBlock x = s.byteAt s.isAddress x := by
      intro x hx
      rw [hmemory.pool]
      exact copyBlock_pool_self (s := s.popped rest) (hg.accounts.blockSize ▸ hx)
    have hothers : ∀ a, a ≠ s.nextBlock → s'.blockData a = s.blockData a := by
      intro a ha
      rw [hmemory.pool]
      exact copyBlock_pool_of_ne (s := s.popped rest) ha
    -- The next block was in no slice before.
    have hframe : ∀ j, (s.slices j).Repairable st s'.blockData := by
      intro j
      by_cases hfree : (s.slices j).state = .free
      · refine ⟨fun hstate => ?_, fun hstate => ?_⟩ <;> simp [hfree] at hstate
      · obtain ⟨k, -, -, rfl, -⟩ := hg.slot hfree
        refine (h.repairable _).frame fun a hholds => hothers a ?_
        rintro rfl
        exact hholds (hg.next_free (by rw [ht]; rfl) (Nat.mod_lt _ (by decide)))
    refine ⟨fun p hp => ?_, fun j => ?_⟩
    · rw [hring, show s'.dataBufSize = s.dataBufSize from congrArg Rest.dataBufSize hw.rest_eq]
      exact h.ring p (hp.worked (.popped rest) hw hmap)
    · rcases eq_or_ne j i with rfl | hj
      · by_cases hreceiving : (s.slices j).state = .receiving
        · obtain ⟨-, -, -, hwants⟩ := hg.wanted hno hreceiving
          have hcarries : b % st.stripes < st.blocks n → st.IsFecBlock n b (s.byteAt s.isAddress) :=
            (ha _ hmem hwants).2
          have hno' : (s'.slices j).sliceNo = n := hw.sliceNo_eq.trans hno
          have hcounted := (hg'.plain.tracked j (by omega)).counted
          have hS := (hcounted.stripes (by omega)).1
          -- A block of the stripe is missing.
          have hmissing := hcounted.fecBlocks_le _ hlt
          rw [hcounted.missing _ hlt, hno', Int.toNat_natCast] at hmissing
          have hrow := row_lt_of_missing (j := 0) (hpos.trans_le hmissing)
          rw [hS, Nat.zero_mul, Nat.add_zero] at hrow
          apply hrepairable _ (hframe j)
          show st.IsFecBlock (s.slices j).sliceNo.toNat b (s'.blockData s.nextBlock)
          rw [hno, Int.toNat_natCast]
          exact (hcarries hrow).congr hnext
        · have hnotFec : (s.slices j).state ≠ .fec := hnotFec
          have hsame : (s'.slices j).state = (s.slices j).state :=
            hw.state.resolve_right fun hdone => hreceiving hdone.1
          refine ⟨fun hstate => ?_, fun hstate => ?_⟩
          · rw [hsame] at hstate
            exact absurd hstate (by simp [hreceiving, hnotFec])
          · exact absurd (hsame ▸ hstate) hnotFec
      · rw [hw.others _ hj]
        exact hframe j

/-- The treatment of a message stores its block where it belongs. -/
theorem Stored.process (h : Stored st s) (ha : Awaits st s) (hg : Grounded st s)
    (hg' : Grounded st s') (ht : s.tasks = .process msg :: rest)
    (hok : Receiver.process (s.popped rest) msg = .ok s') : Stored st s' := by
  have hpopped : Stored st (s.popped rest) := h.same ⟨rfl, rfl⟩ rfl le_rfl rfl rfl rfl rfl
  cases msg with
  | data n b bytes payload =>
    cases hfound : s.found with
    | none =>
      have hnone : Receiver.process (s.popped rest) (.data n b bytes payload) =
          .ok (s.popped rest) := by
        unfold Receiver.process State.popped
        rw [hfound]
      obtain rfl := Except.ok.inj (hnone.symm.trans hok)
      exact hpopped
    | some i =>
      have hsome : Receiver.process (s.popped rest) (.data n b bytes payload) =
          processDataBlock (s.popped rest) i n b bytes := by
        unfold Receiver.process State.popped
        rw [hfound]
      exact h.storeData ha hg hg' ht hfound (hsome ▸ hok)
  | fec stripes n b bytes payload =>
    cases hfound : s.found with
    | none =>
      have hnone : Receiver.process (s.popped rest) (.fec stripes n b bytes payload) =
          .ok (s.popped rest) := by
        unfold Receiver.process State.popped
        rw [hfound]
      obtain rfl := Except.ok.inj (hnone.symm.trans hok)
      exact hpopped
    | some i =>
      have hsome : Receiver.process (s.popped rest) (.fec stripes n b bytes payload) =
          processFecBlock (s.popped rest) i stripes b bytes := by
        unfold Receiver.process State.popped
        rw [hfound]
      exact h.storeFec ha hg hg' ht hfound (hsome ▸ hok)
  | reqack n bytes rxmit readySet =>
    obtain ⟨i, hi, hw, -⟩ := process_works_found hok
    obtain ⟨hmemory, hmap, hrepairable⟩ := processReqAck_stores st hok hi
    exact h.worked (.popped rest) hw ⟨hmemory.ring, hmemory.pool⟩ hmap
      (hrepairable _ (h.repairable i))
  | hello =>
    obtain rfl := Except.ok.inj hok
    exact hpopped

/-! ## The threads -/

/-- A new slice has nothing yet. -/
theorem Stored.reserve {m : ℤ} (h : Stored st s) (hg : Grounded st s)
    (ht : s.tasks = .reserve i m :: rest) (hinit : initSlice (s.popped rest) i m = .ok s') :
    Stored st { s' with found := some i, started := s'.started + 1 } := by
  obtain ⟨hallocated, rfl⟩ := hg.window.stack.reserved i (by rw [ht]; rfl)
  obtain ⟨-, -, -, guess, -, rfl⟩ := initSlice_ok hinit
  have hroom := hg.window.slots.allocated_le
  refine h.mono ⟨rfl, rfl⟩ rfl (fun p hp => hp.mono le_rfl (fun hlt => .inl hlt) ?_) fun j => ?_
  · rintro k b ⟨hk, hlt, hhas⟩
    have hk : s.freed ≤ k := hk
    have hlt : k < s.started + 1 := hlt
    dsimp only at hhas
    rcases eq_or_ne (k % nrSlices) (s.started % nrSlices) with heq | hne
    · rw [heq, Function.update_self] at hhas
      obtain hmap | ⟨hdone, -⟩ := hhas
      · exact absurd hmap (Finset.notMem_empty b)
      · cases hdone
    · rw [Function.update_of_ne hne] at hhas
      refine ⟨hk, ?_, hhas⟩
      rcases Nat.lt_or_ge k s.started with hlt' | hge
      · exact hlt'
      · obtain rfl : k = s.started := by omega
        exact absurd rfl hne
  · dsimp only
    rcases eq_or_ne j (s.started % nrSlices) with rfl | hne
    · rw [Function.update_self]
      refine ⟨fun _ k hk => absurd hk (Nat.not_lt_zero k), fun hfec => ?_⟩
      cases hfec
    · rw [Function.update_of_ne hne]
      exact h.repairable j

/-- The end of the treatment of a FEC block moves no byte of what is stored. -/
theorem Stored.finishFecBlock (h : Stored st s) (hok : Receiver.finishFecBlock s₀ i = .ok s')
    (hbefore : SameWindow s s₀) (hmemory : SameMemory s s₀) : Stored st s' := by
  refine h.worked hbefore (finishFecBlock_works hok).1
    (hmemory.trans (finishFecBlock_memory hok)) ?_ ?_
  · rw [finishFecBlock_map hok, hbefore.slices]
  · apply finishFecBlock_repairable hok
    rw [hbefore.slices]
    exact h.repairable i

/-- A turn of `cleanupSlices` that releases a slice. -/
theorem Stored.cleanupSlices {doneState : SliceState} {pos : ℕ} (h : Stored st s)
    (hg : Grounded st s) (hidle : ¬ s.Frees) (hdone : doneState = .done ∨ doneState = .fecDone)
    (hbefore : SameWindow s s₀) (hmemory : SameMemory s s₀)
    (hqueue : s₀.freeSlicesPc = s.freeSlicesPc)
    (hok : Receiver.cleanupSlices s₀ doneState = .ok (s', some (pos, bytes))) : Stored st s' := by
  obtain ⟨-, hslot, -⟩ | ⟨_, _, rfl, hstate, hbytes, -, hcase⟩ := cleanupSlices_ok hok
  · cases hslot
  · rw [hqueue, hg.window.slots.producerPosition, hbefore.slices] at hstate hbytes
    have hcomplete := hdone.imp (fun heq => hstate.trans heq) fun heq => hstate.trans heq
    obtain ⟨hzero, rfl⟩ | ⟨-, q, -, rfl⟩ := hcase
    · exact h.same ⟨hmemory.ring, hmemory.pool⟩ hbefore.size hbefore.written.ge hbefore.released
        hbefore.freed hbefore.started hbefore.slices
    · refine h.release hg hidle hcomplete hbytes.symm ⟨hmemory.ring, hmemory.pool⟩ hbefore.size
        hbefore.written ?_ hbefore.freed hbefore.started hbefore.slices
      exact congrArg (· + _) hbefore.released

/-- A slot that is freed has nothing any more. -/
theorem Stored.freeSlot {pos : ℕ} (h : Stored st s) (hmemory : SameMemory s s')
    (hsize : s'.dataBufSize = s.dataBufSize) (hwritten : s'.written = s.written)
    (hreleased : s'.released = s.released) (hfreed : s'.freed = s.freed + 1)
    (hstarted : s'.started = s.started)
    (hslices : s'.slices = Function.update s.slices pos { s.slices pos with state := .free }) :
    Stored st s' := by
  refine h.update hmemory hsize hwritten.ge hreleased (by omega) hstarted hslices ?_ ?_
  · rintro k b - - rfl (hmap | ⟨hdone, -⟩)
    · exact .inl hmap
    · cases hdone
  · constructor
    · rintro (hstate | hstate) <;> cases hstate
    · intro hstate
      cases hstate

/-- A step of the network thread keeps what is stored. -/
theorem Stored.netMoves (h : Stored st s) (ha : Awaits st s) (hg : Grounded st s)
    (hg' : Grounded st s') (hm : NetMoves s t rest s') (ht : s.tasks = t :: rest) :
    Stored st s' := by
  cases hm with
  | restart hcurrent hlt hstreaming hinit =>
    rw [hg.plain.notStreaming] at hstreaming
    cases hstreaming
  | force => cases hg.plain.noFake _ (ht ▸ List.mem_cons_self)
  | takeSlot hi hfree =>
    refine h.update ⟨rfl, rfl⟩ rfl le_rfl rfl le_rfl rfl rfl (fun _ _ _ _ _ => id) ?_
    exact ⟨fun hstate => ((h.repairable _).stocked hstate).congr rfl rfl rfl rfl,
      (h.repairable _).lacks⟩
  | reserve hmem hinit => exact h.reserve hg ht hinit
  | process hok => exact h.process ha hg hg' ht hok
  | reuse hlocal hok | takeBlock hok =>
    exact h.finishFecBlock hok ⟨rfl, rfl, rfl, rfl, rfl, rfl⟩ ⟨rfl, rfl⟩
  | advanceFirst hadvance | advance hadvance =>
    subst hadvance
    unfold Receiver.advance
    split <;> exact h.same ⟨rfl, rfl⟩ rfl le_rfl rfl rfl rfl rfl
  | @release pos bytes _ s₁ hpos hstate hclean =>
    have hreleased := h.cleanupSlices hg (hg.idle_of_cleanup ht) (.inl rfl) (.popped rest)
      ⟨rfl, rfl⟩ rfl hclean
    exact hreleased.same ⟨rfl, rfl⟩ rfl le_rfl rfl rfl rfl rfl
  | freeSlot hok =>
    obtain ⟨q, -, rfl⟩ := freeSlot_ok hok
    exact h.freeSlot ⟨rfl, rfl⟩ rfl rfl rfl rfl rfl rfl
  | _ => exact h.same ⟨rfl, rfl⟩ rfl le_rfl rfl rfl rfl rfl

/-- A slice that is decoded is one of the stream, and all its FEC blocks are at hand. -/
theorem Stored.decodable (h : Stored st s) (hg : Grounded st s) (hk : s.freed ≤ k)
    (hlt : k < s.started) (hstate : (s.slices (k % nrSlices)).state = .fec) :
    Decodable st s (k % nrSlices) k := by
  have hr := h.repairable (k % nrSlices)
  have hfull := (hg.accounts.sound (k % nrSlices)).fec hstate |>.1
  have hS := (hfull.counted.stripes hfull.stripes_ne).1
  have hno := hg.sliceNo_eq hlt (by have := hg.started_le; omega)
  have hstocked := hr.stocked (.inr hstate)
  -- A slice without FEC blocks would be done.
  obtain ⟨m, hm, hpos⟩ : ∃ m < (s.slices (k % nrSlices)).fecStripes,
      0 < (s.slices (k % nrSlices)).fecBlocks m := by
    by_contra hnone
    push Not at hnone
    apply hr.lacks hstate
    rw [hfull.counted.blocks, hfull.counted.data, Finset.sum_eq_zero fun m hm => by
      rw [Nat.le_zero.mp (hnone m (Finset.mem_range.mp hm)), Nat.cast_zero], add_zero]
  have hmissing := hfull.counted.fecBlocks_le m hm
  rw [hfull.counted.missing m hm, hno, Int.toNat_natCast] at hmissing
  have hrow := row_lt_of_missing (hpos.trans_le hmissing)
  have hdata : k < st.cuts.length := by
    by_contra hge
    have hblocks : st.blocks k = 0 := by
      rw [Stream.blocks, st.size_of_ge (not_lt.mp hge), Nat.zero_add]
      exact Nat.div_eq_of_lt (Nat.sub_lt hg.valid.blockSize_pos Nat.one_pos)
    omega
  refine ⟨hg.seated hk hlt hdata, hfull, ?_, fun b hb x hx hinside => ?_, ?_,
    fun a => hg.holds_le (Nat.mod_lt _ (by decide))⟩
  · obtain ⟨a, -, hb, -⟩ := hstocked m hm 0 hpos
    exact Nat.pos_of_mul_pos_right (Nat.zero_lt_of_lt hb)
  · have hreleased := hg.released_le hk hlt (.inr hstate)
    have hwritten := hg.written_le
    have hcell := (hg.seated hk hlt hdata).cell (b := b) hx
    rw [hcell, h.ring _ ⟨by omega, .inr ⟨k, b, x, ⟨hk, hlt, .inl hb⟩, hx, hinside, rfl⟩⟩,
      Stream.block, if_pos hinside]
  · rw [← hS]
    intro k' hk' j hj
    have hheld := hstocked k' hk' j hj
    rwa [hno, Int.toNat_natCast] at hheld

/-- Decoding restores what is missing of the slice, and nothing else changes. -/
theorem Stored.decode {mem : ℕ → Gf} {blocks : ℕ → Block} (h : Stored st s) (hg : Grounded st s)
    (hg' : Grounded st s') (hpc : s.fecThread = .decode i)
    (hdecode : decodeSlice s i = .ok { s with dataBuffer := mem, blockData := blocks })
    (hs' : s' = { s with
      dataBuffer := mem, blockData := blocks, fecThread := .release i 0 0
      slices := Function.update s.slices i { s.slices i with state := .fecDone } }) :
    Stored st s' := by
  have hstate := hg.window.slots.decoding i hpc
  obtain ⟨k, hk, hlt, rfl, hno⟩ := hg.slot (i := i) (by simp [hstate])
  have hdecodable := h.decodable hg hk hlt hstate
  obtain ⟨mem', blocks', hok, hrestored, houtside, hpool⟩ := hdecodable.restores
  have heq := Except.ok.inj (hdecode.symm.trans hok)
  obtain rfl : mem = mem' := congrArg State.dataBuffer heq
  obtain rfl : blocks = blocks' := congrArg State.blockData heq
  have hreleased := hg.released_le hk hlt (.inr hstate)
  have hwritten := hg.written_le
  have hmax := hg.valid.blocks_le k
  refine ⟨fun p hp => ?_, fun j => ?_⟩
  · obtain ⟨hend, hring⟩ := hg'.needs_lt hp
    have hle := hp.1
    subst hs'
    dsimp only at hend hring hle ⊢
    by_cases hcell : ∃ b < st.blocks k, InBlock s (k % nrSlices) b (p % s.dataBufSize)
    · obtain ⟨b, hb, hinside⟩ := hcell
      obtain ⟨y, hy, hplace⟩ := hdecodable.inBlock_iff.mp hinside
      have hspan := block_span (hb.trans_le hmax) hy
      have hq := hg.lt_ring hlt hspan
      have hsame : p = st.start k + b * st.blockSize + y :=
        eq_of_mod_eq (hplace.trans (hdecodable.cell hy)) (by omega) (by omega)
      have hinsize := hg.valid.lt_size hdecodable.data hb hy (by omega)
      rw [hplace, hrestored b hb y hy hinsize, Stream.block, if_pos hinsize, hsame]
    · push Not at hcell
      rw [houtside _ hcell]
      apply h.ring p
      obtain ⟨-, hplt | ⟨k', b, x, ⟨hk', hklt, hhas⟩, hx, hinsize, rfl⟩⟩ := hp
      · exact ⟨hle, .inl hplt⟩
      · refine ⟨hle, .inr ⟨k', b, x, ⟨hk', hklt, ?_⟩, hx, hinsize, rfl⟩⟩
        dsimp only at hhas hk' hklt
        rcases eq_or_ne (k' % nrSlices) (k % nrSlices) with hslot | hne
        · obtain rfl : k' = k := by
            have hstarted := hg.started_le
            simp only [nrSlices] at hslot hstarted
            omega
          rw [Function.update_self] at hhas
          refine .inl (hhas.resolve_right fun hfec => hcell b hfec.2 ?_)
          rw [← hdecodable.cell hx]
          exact hdecodable.inBlock_iff.mpr ⟨x, hx, rfl⟩
        · rwa [Function.update_of_ne hne] at hhas
  · subst hs'
    dsimp only
    rcases eq_or_ne j (k % nrSlices) with rfl | hne
    · rw [Function.update_self]
      constructor
      · rintro (hbad | hbad) <;> cases hbad
      · intro hbad
        cases hbad
    · rw [Function.update_of_ne hne]
      by_cases hfree : (s.slices j).state = .free
      · refine ⟨fun hactive => ?_, fun hactive => ?_⟩ <;> simp [hfree] at hactive
      · obtain ⟨k', -, -, rfl, -⟩ := hg.slot hfree
        refine (h.repairable _).frame fun a hholds => hpool a ?_
        exact hg.holds_apart (Nat.mod_lt _ (by decide)) (Nat.mod_lt _ (by decide)) hne hholds

/-- A step of the FEC thread keeps what is stored: decoding writes the missing blocks only. -/
theorem Stored.fecMoves (h : Stored st s) (hg : Grounded st s) (hg' : Grounded st s')
    (hm : FecMoves s s') : Stored st s' := by
  cases hm with
  | @takeDone i hpc hi hstate =>
    refine h.update ⟨rfl, rfl⟩ rfl le_rfl rfl le_rfl rfl rfl ?_ ⟨?_, ?_⟩
    · rintro k b hk hlt rfl (hmap | ⟨-, hb⟩)
      · exact .inl hmap
      · have hnear : s.started ≤ k + nrSlices := hg.started_le.trans (by omega)
        exact .inl ((hg.tracked hlt hnear).received hstate (hg.sliceNo_eq hlt hnear) b hb)
    · rintro (hbad | hbad) <;> cases hbad
    · intro hbad
      cases hbad
  | decode hpc hdecode => exact h.decode hg hg' hpc hdecode rfl
  | @freeBlock i stripe k d b q hpc =>
    have hstate := hg.window.slots.releasing _ _ _ hpc
    refine h.update ⟨rfl, rfl⟩ rfl le_rfl rfl le_rfl rfl rfl (fun _ _ _ _ _ => id) ⟨?_, ?_⟩
    · rintro (hbad | hbad) <;> simp [hstate] at hbad
    · intro hbad
      simp [hstate] at hbad
  | @releaseSlice pos bytes s₁ hpc hpos hstate hclean =>
    have hreleased := h.cleanupSlices hg (hg.idle_of_fecCleanup hpc) (.inr rfl)
      ⟨rfl, rfl, rfl, rfl, rfl, rfl⟩ (.refl _) rfl hclean
    exact hreleased.same ⟨rfl, rfl⟩ rfl le_rfl rfl rfl rfl rfl
  | freeSlot hpc hok =>
    obtain ⟨q, -, rfl⟩ := freeSlot_ok hok
    exact h.freeSlot ⟨rfl, rfl⟩ rfl rfl rfl rfl rfl rfl
  | _ => exact h.same ⟨rfl, rfl⟩ rfl le_rfl rfl rfl rfl rfl

/-- A step of the writer keeps what is stored: afterwards less is needed. -/
theorem Stored.writerMoves (h : Stored st s) (hm : WriterMoves s s') : Stored st s' := by
  cases hm with
  | consume => exact h.same ⟨rfl, rfl⟩ rfl (Nat.le_add_right _ _) rfl rfl rfl rfl
  | _ => exact h.same ⟨rfl, rfl⟩ rfl le_rfl rfl rfl rfl rfl

end Udpcast.Receiver
