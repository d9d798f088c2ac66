import Udpcast.Receiver.InOrder

/-!
# Where payloads land

`dispatchMessage` receives every payload in the first free block of the current slice, before it is
known what it belongs to. As long as the process runs, this block holds nothing of value. It lies
inside the ring unless the current slice is the empty one at the end of the stream, and the stream
ends in the last block of the ring.
-/

namespace Udpcast.Receiver

open Queue
open Protocol

variable {st : Stream} {s s' : State} {slice slice' : Slice} {t : Task} {rest : List Task}
  {i b n bytes stripes k : ℕ}

/-! ## Slices without FEC blocks -/

/-- No FEC block is stored for the slice. -/
def Slice.Fecless (slice : Slice) : Prop := ∀ k < slice.fecStripes, slice.fecBlocks k = 0

/-- Payloads land in the slice only until it gets its first FEC block. -/
def Slice.OpenFecless (slice : Slice) : Prop := slice.freePos < maxSliceSize → slice.Fecless

/-- The FEC part of the slice, and where payloads land, stay as they are. -/
structure SameFec (slice slice' : Slice) : Prop where
  freePos : slice'.freePos = slice.freePos
  fecStripes : slice'.fecStripes = slice.fecStripes
  fecBlocks : slice'.fecBlocks = slice.fecBlocks

/-- A slice with the same FEC part is open or closed as before. -/
theorem SameFec.openFecless (h : SameFec slice slice') (hopen : slice.OpenFecless) :
    slice'.OpenFecless := by
  intro hlt k hk
  rw [h.fecBlocks]
  exact hopen (h.freePos ▸ hlt) k (h.fecStripes ▸ hk)

/-- Noting the size leaves the FEC part alone. -/
theorem setSliceBytes_sameFec (h : setSliceBytes s i bytes = .ok s') :
    SameFec (s.slices i) (s'.slices i) := by
  obtain ⟨-, -, rfl⟩ | ⟨-, rfl⟩ := setSliceBytes_ok h
  · exact ⟨rfl, rfl, rfl⟩
  · dsimp only
    rw [Function.update_self]
    exact ⟨rfl, rfl, rfl⟩

/-- So does the size that a data block carries. -/
theorem noteBytes_sameFec (h : noteBytes s i bytes = .ok s') :
    SameFec (s.slices i) (s'.slices i) := by
  obtain hset | ⟨-, e, rfl⟩ := noteBytes_ok h
  · exact setSliceBytes_sameFec hset
  · exact ⟨rfl, rfl, rfl⟩

/-- So does completing the slice. -/
theorem checkSliceComplete_sameFec (h : checkSliceComplete s i = .ok s') :
    SameFec (s.slices i) (s'.slices i) := by
  obtain ⟨-, rfl⟩ | ⟨-, -, state, -, rfl⟩ := checkSliceComplete_ok h
  · exact ⟨rfl, rfl, rfl⟩
  · dsimp only
    rw [Function.update_self]
    exact ⟨rfl, rfl, rfl⟩

/-- A data block adds no FEC block. -/
theorem countArrival_fecless {l l' : List ℕ} (h : countArrival slice l b = .ok (slice', l'))
    (hfecless : slice.Fecless) : slice'.Fecless := by
  obtain ⟨-, rfl, -⟩ | ⟨-, stripe, missing, -, -, ⟨-, -, rfl⟩ | ⟨k, adr, hk, -, -, -, rfl⟩⟩ :=
    countArrival_ok h
  · exact hfecless
  · exact hfecless
  · intro j hj
    dsimp only
    rcases eq_or_ne j stripe with rfl | hne
    · have hzero : slice.fecBlocks j = 0 := hfecless j hj
      omega
    · rw [Function.update_of_ne hne]
      exact hfecless j hj

/-- So a slice without FEC blocks stays without them. -/
theorem processDataBlock_openFecless (h : processDataBlock s i n b bytes = .ok s')
    (hopen : (s.slices i).OpenFecless) : (s'.slices i).OpenFecless := by
  obtain rfl | ⟨-, -, -, s₁, hnote, hcount⟩ := processDataBlock_ok h
  · exact hopen
  · have hnoted := noteBytes_sameFec hnote
    rw [(copyBlock_slices _).1] at hnoted
    obtain ⟨slice, localBlocks, hcount, hcheck⟩ := countData_ok hcount
    apply (checkSliceComplete_sameFec hcheck).openFecless
    rw [setSlice_self]
    intro hlt
    have hkeeps : Slice.Fecless { s₁.slices i with map := insert b (s₁.slices i).map } →
        slice.Fecless := countArrival_fecless hcount
    apply hkeeps
    have hpos := (countArrival_keeps hcount).2.2
    have hle := (skipReceived_spec (insert b (s₁.slices i).map) (maxSliceSize - slice.freePos)
      slice.freePos).1
    apply hnoted.openFecless hopen
    dsimp only at hlt hpos
    omega

/-- A FEC block that is stored is to be replaced next, and closes the slice at that point. -/
theorem countFec_openFecless (h : countFec s i stripes b = .ok s')
    (hopen : (s.slices i).OpenFecless) :
    (s'.slices i).OpenFecless ∨ s'.tasks = .setNextBlock i :: s.tasks := by
  obtain (⟨-, hcheck⟩ | rfl) | ⟨stripe, -, -, -, mem, blocks, -, rfl⟩ := countFec_ok h
  · exact .inl ((checkSliceComplete_sameFec hcheck).openFecless hopen)
  · exact .inl hopen
  · exact .inr rfl

/-- With the first FEC block of a slice there is none counted yet. -/
theorem initSliceForFec_openFecless (s : State) (i stripes : ℕ) :
    ((initSliceForFec s i stripes).slices i).OpenFecless := by
  unfold initSliceForFec
  intro _ k hk
  rw [setSlice_self] at hk ⊢
  exact if_pos hk

/-- So a slice is closed to payloads once it has a FEC block. -/
theorem processFecBlock_openFecless (h : processFecBlock s i stripes b bytes = .ok s')
    (hopen : (s.slices i).OpenFecless) :
    (s'.slices i).OpenFecless ∨ s'.tasks = .setNextBlock i :: s.tasks := by
  obtain rfl | ⟨-, s₁, hset, hcase⟩ := processFecBlock_ok h
  · exact .inl hopen
  · have hsized := (setSliceBytes_sameFec hset).openFecless hopen
    have htasks : s₁.tasks = s.tasks := (setSliceBytes_works hset).2.1
    obtain ⟨-, hcount⟩ | ⟨-, -, rfl⟩ | ⟨-, -, hcount⟩ := hcase
    · rw [← htasks, ← (initSliceForFec_works s₁ i stripes).2.2.1]
      exact countFec_openFecless hcount (initSliceForFec_openFecless s₁ i stripes)
    · exact .inl hsized
    · rw [← htasks]
      exact countFec_openFecless hcount hsized

/-- The same for every message. -/
theorem process_openFecless {msg : ServerMsg} (h : process s msg = .ok s')
    (hfound : ∀ j, s.found = some j → j = i) (hopen : (s.slices i).OpenFecless) :
    (s'.slices i).OpenFecless ∨ s'.tasks = .setNextBlock i :: s.tasks := by
  unfold process at h
  split at h
  · split at h
    · rename_i j hj
      obtain rfl := hfound j hj
      exact .inl (processDataBlock_openFecless h hopen)
    · obtain rfl := Except.ok.inj h
      exact .inl hopen
  · split at h
    · rename_i j hj
      obtain rfl := hfound j hj
      exact processFecBlock_openFecless h hopen
    · obtain rfl := Except.ok.inj h
      exact .inl hopen
  · obtain ⟨-, rfl⟩ | ⟨-, -, rfl⟩ | ⟨-, j, s₁, hj, hset, hcheck⟩ := processReqAck_ok h
    · exact .inl hopen
    · exact .inl hopen
    · obtain rfl := hfound j hj
      refine .inl ((checkSliceComplete_sameFec hcheck).openFecless ?_)
      rename_i rxmit _
      obtain ⟨msg, hanswer⟩ := answer_eq (s := s₁) (i := j) rxmit
      rw [hanswer]
      exact (setSliceBytes_sameFec hset).openFecless hopen
  · obtain rfl := Except.ok.inj h
    exact .inl hopen

/-- Slices with FEC blocks are closed to payloads, except while the first one is being stored. -/
def Closes (s : State) : Prop :=
  ∀ i, (s.slices i).OpenFecless ∨ .setNextBlock i ∈ s.tasks ∨ .takeBlock i ∈ s.tasks

/-- The network thread closes a slice when it stores a FEC block in it. -/
theorem Closes.netMoves (h : Closes s) (hs : Settled st s) (hm : NetMoves s t rest s')
    (ht : s.tasks = t :: rest) : Closes s' := by
  have hrest := takesBlock_rest (ht ▸ hs.window.stack.chain)
  have hopen : t.takesBlock = false → ∀ i, (s.slices i).OpenFecless := by
    intro htakes i
    refine (h i).resolve_right (takesBlock_of_mem fun x hx => ?_)
    rw [ht] at hx
    rcases List.mem_cons.mp hx with rfl | hx
    · exact htakes
    · exact hrest x hx
  have hsame : t.takesBlock = false → (∀ j, SameFec (s.slices j) (s'.slices j)) → Closes s' :=
    fun htakes hslices j => .inl ((hslices j).openFecless (hopen htakes j))
  have hrefl : ∀ {slice : Slice}, SameFec slice slice := ⟨rfl, rfl, rfl⟩
  have hupdate : ∀ {i x}, SameFec (s.slices i) x →
      ∀ j, SameFec (s.slices j) (Function.update s.slices i x j) := by
    intro i x hx j
    rcases eq_or_ne j i with rfl | hj
    · rwa [Function.update_self]
    · rw [Function.update_of_ne hj]
      exact hrefl
  have hfresh : t.takesBlock = false → ∀ {i n guess},
      s'.slices = Function.update s.slices i ((s.slices i).start n guess) → Closes s' := by
    intro htakes i n guess hslices j
    rw [hslices]
    rcases eq_or_ne j i with rfl | hj
    · rw [Function.update_self]
      exact .inl fun _ k hk => absurd hk (Nat.not_lt_zero k)
    · rw [Function.update_of_ne hj]
      exact .inl (hopen htakes j)
  -- The end of `processFecBlock` closes the slice.
  have hfinish : ∀ {s₀ : State} {i : ℕ}, Receiver.finishFecBlock s₀ i = .ok s' →
      s₀.slices = s.slices → (t = .setNextBlock i ∨ t = .takeBlock i) → Closes s' := by
    intro s₀ i hok hslices htask j
    have hw := (finishFecBlock_works hok).1
    rcases eq_or_ne j i with rfl | hj
    · refine .inl ((checkSliceComplete_sameFec hok).openFecless ?_)
      rw [setSlice_self]
      exact fun hlt => absurd hlt (lt_irrefl _)
    · rw [hw.others j hj, hslices]
      refine .inl ((h j).resolve_right fun hpending => ?_)
      rw [ht] at hpending
      rcases hpending with hmem | hmem
      · rcases List.mem_cons.mp hmem with heq | hmem
        · rcases htask with rfl | rfl <;> cases heq
          exact hj rfl
        · cases hrest _ hmem
      · rcases List.mem_cons.mp hmem with heq | hmem
        · rcases htask with rfl | rfl <;> cases heq
          exact hj rfl
        · cases hrest _ hmem
  cases hm with
  | restart hcurrent hlt hstreaming hinit | reserve hmem hinit =>
    obtain ⟨-, -, -, guess, -, rfl⟩ := initSlice_ok hinit
    exact hfresh rfl rfl
  | takeSlot => exact hsame rfl (hupdate ⟨rfl, rfl, rfl⟩)
  | force => cases hs.plain.noFake _ (ht ▸ List.mem_cons_self)
  | @process msg _ _ hprocess =>
    obtain ⟨i, hi, hw, -⟩ := process_works_found hprocess
    intro j
    rcases eq_or_ne j i with rfl | hj
    · refine (process_openFecless hprocess hi (hopen rfl j)).imp_right fun htasks => .inl ?_
      rw [htasks]
      exact List.mem_cons_self
    · rw [hw.others j hj]
      exact .inl (hopen rfl j)
  | reuse hlocal hok => exact hfinish hok rfl (.inl rfl)
  | takeBlock hok => exact hfinish hok rfl (.inr rfl)
  | @waitForBlock i m _ hlocal hfree =>
    intro j
    refine (h j).imp_right fun hpending => .inr ?_
    rw [ht] at hpending
    rcases hpending with hmem | hmem
    · rcases List.mem_cons.mp hmem with heq | hmem
      · obtain rfl := Task.setNextBlock.inj heq
        exact List.mem_cons_self
      · cases hrest _ hmem
    · rcases List.mem_cons.mp hmem with heq | hmem
      · cases heq
      · cases hrest _ hmem
  | release hpos hstate hclean =>
    obtain ⟨-, hslot, -⟩ | ⟨_, _, -, -, -, -, ⟨-, rfl⟩ | ⟨-, q, -, rfl⟩⟩ := cleanupSlices_ok hclean
    · cases hslot
    · exact hsame rfl fun _ => hrefl
    · exact hsame rfl fun _ => hrefl
  | freeSlot hfree =>
    obtain ⟨q, -, rfl⟩ := freeSlot_ok hfree
    exact hsame rfl (hupdate ⟨rfl, rfl, rfl⟩)
  | advanceFirst hadvance | advance hadvance =>
    subst hadvance
    unfold Receiver.advance
    split <;> exact fun j => .inl (hopen rfl j)
  | _ => exact hsame rfl fun _ => hrefl

/-- The other threads leave the FEC part of open slices alone. -/
theorem Closes.other (h : Closes s) (htasks : s'.tasks = s.tasks)
    (hslices : ∀ j, SameFec (s.slices j) (s'.slices j)) : Closes s' := by
  intro j
  rw [htasks]
  exact (h j).imp_left (hslices j).openFecless

/-- So every move keeps slices with FEC blocks closed. -/
theorem Closes.moves {a : Action} (h : Closes s) (hs : Settled st s) (hm : Moves s a s') :
    Closes s' := by
  have hupdate : ∀ {i x}, SameFec (s.slices i) x →
      ∀ j, SameFec (s.slices j) (Function.update s.slices i x j) := by
    intro i x hx j
    rcases eq_or_ne j i with rfl | hj
    · rwa [Function.update_self]
    · rw [Function.update_of_ne hj]
      exact ⟨rfl, rfl, rfl⟩
  cases hm with
  | @receive msg mem blocks hidle hend =>
    intro j
    refine .inl ((h j).resolve_right ?_)
    rw [hidle]
    simp
  | exitWait => exact h.other rfl fun _ => ⟨rfl, rfl, rfl⟩
  | net ht hm => exact h.netMoves hs hm ht
  | fec hm =>
    cases hm with
    | takeDone => exact h.other rfl (hupdate ⟨rfl, rfl, rfl⟩)
    | decode => exact h.other rfl (hupdate ⟨rfl, rfl, rfl⟩)
    | freeBlock => exact h.other rfl (hupdate ⟨rfl, rfl, rfl⟩)
    | releaseSlice hpc hpos hstate hclean =>
      obtain ⟨-, hslot, -⟩ | ⟨_, _, -, -, -, -, ⟨-, rfl⟩ | ⟨-, q, -, rfl⟩⟩ := cleanupSlices_ok hclean
      · cases hslot
      · exact h.other rfl fun _ => ⟨rfl, rfl, rfl⟩
      · exact h.other rfl fun _ => ⟨rfl, rfl, rfl⟩
    | freeSlot hpc hfree =>
      obtain ⟨q, -, rfl⟩ := freeSlot_ok hfree
      exact h.other rfl (hupdate ⟨rfl, rfl, rfl⟩)
    | _ => exact h.other rfl fun _ => ⟨rfl, rfl, rfl⟩
  | writer hm => cases hm <;> exact h.other rfl fun _ => ⟨rfl, rfl, rfl⟩

/-- This holds as long as the receiver runs. -/
theorem closes_of_reachable (h : (system st defaultMode).Reachable s)
    (hrunning : s.failure = none) : Closes s := by
  refine running_of_reachable (fun _ hs hrun => settled_of_reachable hs hrun) ?_
    (fun _ _ _ hs hcloses _ hm => hcloses.moves hs hm) h hrunning
  rintro s ⟨config, streaming, mem, blockData, -, -, -, hstart⟩
  obtain ⟨_, _, _, -, -, -, rfl⟩ := start_eq hstart
  exact fun i => .inl fun _ k hk => absurd hk (Nat.not_lt_zero k)

/-- Nothing is missing in a complete slice below the place where payloads land. -/
theorem Slice.Tracked.blocks_le_freePos (h : slice.Tracked st) (hlands : slice.Lands)
    (hopen : slice.OpenFecless) (hstate : slice.state ≠ .receiving)
    (hlt : slice.freePos < maxSliceSize) : st.blocks slice.sliceNo.toNat ≤ slice.freePos := by
  have hzero : ∑ k ∈ Finset.range slice.fecStripes, (slice.fecBlocks k : ℤ) = 0 :=
    Finset.sum_eq_zero fun k hk => by rw [hopen hlt k (Finset.mem_range.mp hk), Nat.cast_zero]
  have hcard := h.counted.blocks
  rw [hzero, (h.complete hstate).2] at hcard
  have hsub : slice.map ⊆ Finset.range (st.blocks slice.sliceNo.toNat) := fun b hb =>
    Finset.mem_range.mpr (h.counted.inside b hb)
  have hall : slice.map = Finset.range (st.blocks slice.sliceNo.toNat) := by
    apply Finset.eq_of_subset_of_card_le hsub
    rw [Finset.card_range]
    omega
  have hmissing := (hlands hlt).1
  rw [hall, Finset.mem_range] at hmissing
  exact not_lt.mp hmissing

/-! ## Places in the ring -/

/-- A payload that lands here does no harm. -/
structure LandingSafe (st : Stream) (s : State) (a : ℕ) : Prop where
  inside : a + s.config.blockSize ≤ s.dataBufSize
  received : ∀ i b x, (s.slices i).state ≠ .free → b ∈ (s.slices i).map →
    x < s.config.blockSize →
    b * s.config.blockSize + x < st.size (s.slices i).sliceNo.toNat →
    ¬ (a ≤ adr s (s.slices i) b + x ∧ adr s (s.slices i) b + x < a + s.config.blockSize)
  unwritten : ∀ p, s.written ≤ p → p < s.released →
    ¬ (a ≤ p % s.dataBufSize ∧ p % s.dataBufSize < a + s.config.blockSize)

/-- The stream ends in the last block of the ring, and its empty slice is the current one. -/
def EndsAtRingEnd (st : Stream) (s : State) : Prop :=
  (st.cuts.length : ℤ) ≤ s.currentSliceNo ∧
    s.dataBufSize < st.start st.cuts.length % s.dataBufSize + s.config.blockSize

/-- The facts about a running receiver in default mode and its memory. -/
structure Placed (st : Stream) (s : State) : Prop extends Settled st s where
  released : Released st s
  memory : Memory st s
  closes : Closes s

/-- All that is needed to say where a payload lands. -/
theorem placed_of_reachable (hst : st.Valid) (h : (system st defaultMode).Reachable s)
    (hrunning : s.failure = none) : Placed st s :=
  ⟨settled_of_reachable h hrunning, released_of_reachable h hrunning,
    memory_of_reachable hst h hrunning, closes_of_reachable h hrunning⟩

/-- The current slice, and where in the stream a payload lands. -/
theorem Placed.landing_eq {a : ℕ} (hp : Placed st s) (haim : landing s = .ring a) :
    ∃ k f, k + 1 = s.started ∧ f = (s.slices (k % nrSlices)).freePos ∧ f < maxSliceSize ∧
      a = (st.start k + f * st.blockSize) % s.dataBufSize := by
  unfold landing at haim
  rw [hp.window.slots.current] at haim
  rcases Nat.eq_zero_or_pos s.started with hzero | hpos
  · rw [if_pos hzero] at haim
    cases haim
  · rw [if_neg hpos.ne'] at haim
    dsimp only at haim
    split at haim
    · rename_i hlt
      refine ⟨s.started - 1, _, by omega, rfl, hlt, ?_⟩
      have hbase := hp.memory.base (s.started - 1) (.inr (by omega)) (by omega)
      rw [← Place.ring.inj haim, adr, hbase, hp.accounts.blockSize, Nat.mod_add_mod]
    · cases haim

/-- Only the end of the stream is not the start of a block. -/
theorem Placed.inside_iff {k f : ℕ} (hp : Placed st s) (hst : st.Valid) (hk : k + 1 = s.started)
    (hf : f = (s.slices (k % nrSlices)).freePos) (hlt : f < maxSliceSize) :
    (st.start k + f * st.blockSize) % s.dataBufSize + st.blockSize ≤ s.dataBufSize ↔
      ¬ EndsAtRingEnd st s := by
  have hnumbered := hp.plain.numbered
  unfold EndsAtRingEnd
  rw [hp.accounts.blockSize, hp.accounts.bufSize]
  rcases Nat.lt_or_ge k st.cuts.length with hdata | hend
  · have hdvd : st.blockSize ∣ st.start k + f * st.blockSize :=
      (hst.dvd_start hdata).add (Nat.dvd_mul_left ..)
    exact iff_of_true (block_inside hdvd (by decide)) fun hcontra => by omega
  · -- The empty slice has no blocks, so the payload lands at its base.
    have hzero : f = 0 := by
      have htracked := hp.tracked (k := k) (by omega) (by simp only [nrSlices]; omega)
      have hno := hp.sliceNo_eq (k := k) (by omega) (by simp only [nrSlices]; omega)
      by_contra hne
      have hmem := (hp.memory.lands (k % nrSlices) (hf ▸ hlt)).2 0 (by omega)
      have hinside := htracked.counted.inside 0 hmem
      rw [hno, Int.toNat_natCast, Stream.blocks, st.size_of_ge hend, Nat.zero_add,
        Nat.div_eq_of_lt (by have := hst.blockSize_pos; omega)] at hinside
      exact Nat.not_lt_zero _ hinside
    rw [hzero, Nat.zero_mul, Nat.add_zero, st.start_of_ge hend]
    omega

/-- A payload does not land on bytes that wait for the writer. -/
theorem Placed.landing_unwritten {k f p x : ℕ} (hp : Placed st s) (hst : st.Valid)
    (hidle : s.tasks = []) (hk : k + 1 = s.started)
    (hf : f = (s.slices (k % nrSlices)).freePos) (hlt : f < maxSliceSize)
    (hx : x < st.blockSize) (hwritten : s.written ≤ p) (hreleased : p < s.released) :
    p % s.dataBufSize ≠ (st.start k + f * st.blockSize + x) % s.dataBufSize := by
  intro heq
  have hreturned := hp.memory.returned
  have htaken := hp.memory.released_le hp.toSettled hp.released
  have hroom := hp.memory.room k hk
  have hblock : f * st.blockSize + x < st.blockSize * maxSliceSize := by
    have hle : (f + 1) * st.blockSize ≤ maxSliceSize * st.blockSize := Nat.mul_le_mul_right _ hlt
    rw [Nat.succ_mul, Nat.mul_comm maxSliceSize] at hle
    omega
  have hlast : s.memTaken ≤ st.start (k + 1) := by
    by_cases hall : ∀ j, j + 1 = s.started → (s.slices (j % nrSlices)).bytesKnown = true
    · rw [hp.memory.taken hall, hk]
    · push Not at hall
      obtain ⟨j, hj, hunknown⟩ := hall
      rw [hp.memory.untaken j hj (Bool.not_eq_true _ ▸ hunknown)]
      exact st.start_mono (by omega)
  have hsize := hst.size_le k
  have hbuf : st.blockSize * maxSliceSize ≤ s.dataBufSize := by
    rw [hp.accounts.bufSize]
    exact Nat.mul_le_mul_left _ (by decide)
  rw [st.start_succ] at hlast
  have hsame : p = st.start k + f * st.blockSize + x := eq_of_mod_eq heq (by omega) (by omega)
  -- The current slice has been released, so it is complete, and nothing lands among its blocks.
  have hstate : (s.slices (k % nrSlices)).state ≠ .receiving := by
    have hover : st.start k < s.released := by omega
    have hfreed := hp.window.slots.freed_le
    by_cases hfrees : s.Frees
    · rw [hp.released.frees hfrees] at hover
      have hge : k ≤ s.freed := by
        by_contra hlt
        exact absurd (st.start_mono (show s.freed + 1 ≤ k by omega)) (not_le.mpr hover)
      rcases hfrees with ⟨pos, bytes, tl, htl⟩ | ⟨pos, bytes, hpc⟩
      · obtain ⟨rfl, hless, hstate⟩ := hp.window.stack.netFrees pos bytes tl htl
        rw [show k = s.freed by omega, hstate]
        simp
      · obtain ⟨rfl, hless, hstate⟩ := hp.window.slots.fecFrees pos bytes hpc
        rw [show k = s.freed by omega, hstate]
        simp
    · rw [hp.released.idle hfrees] at hover
      have hge : k < s.freed := by
        by_contra hle
        exact absurd (st.start_mono (not_lt.mp hle)) (not_le.mpr hover)
      have hfree := hp.window.slots.free (k + nrSlices) (by simp only [nrSlices]; omega) (by omega)
      rw [Nat.add_mod_right] at hfree
      simp [hfree]
  have htracked := hp.tracked (k := k) (by omega) (by simp only [nrSlices]; omega)
  have hno := hp.sliceNo_eq (k := k) (by omega) (by simp only [nrSlices]; omega)
  have hopen : (s.slices (k % nrSlices)).OpenFecless := by
    apply (hp.closes _).resolve_right
    rw [hidle]
    simp
  have hblocks := htracked.blocks_le_freePos (hp.memory.lands _) hopen hstate (hf ▸ hlt)
  rw [hno, Int.toNat_natCast, ← hf] at hblocks
  have hcover : st.size k ≤ f * st.blockSize := by
    exact (hst.size_le_blocks k).trans (Nat.mul_le_mul_right _ hblocks)
  omega

/-- A payload does not land on a block that has been received. -/
theorem Placed.landing_received {k f i b x y : ℕ} (hp : Placed st s) (hst : st.Valid)
    (hk : k + 1 = s.started) (hf : f = (s.slices (k % nrSlices)).freePos) (hlt : f < maxSliceSize)
    (hx : x < st.blockSize) (hstate : (s.slices i).state ≠ .free) (hb : b ∈ (s.slices i).map)
    (hy : y < st.blockSize) (hbyte : b * st.blockSize + y < st.size (s.slices i).sliceNo.toNat) :
    adr s (s.slices i) b + y ≠ (st.start k + f * st.blockSize + x) % s.dataBufSize := by
  intro heq
  obtain ⟨j, hj, hjlt, rfl, -⟩ := hp.window.slots.inUse hp.queue.beyond hstate
  have hstarted := hp.started_le
  have hno := hp.sliceNo_eq hjlt (by omega)
  have htracked := hp.tracked hjlt (by omega)
  rw [hno, Int.toNat_natCast] at hbyte
  have hdata : j < st.cuts.length := by
    by_contra hge
    rw [st.size_of_ge (not_lt.mp hge)] at hbyte
    exact Nat.not_lt_zero _ hbyte
  have hinside : b < st.blocks j := by
    have hin := htracked.counted.inside b hb
    rwa [hno, Int.toNat_natCast] at hin
  have hbs := hst.blockSize_pos
  have hbmax : b < maxSliceSize := hinside.trans_le (hst.blocks_le j)
  have hspan : ∀ m, m < maxSliceSize → ∀ z < st.blockSize,
      m * st.blockSize + z < st.blockSize * maxSliceSize := by
    intro m hm z hz
    have hle : (m + 1) * st.blockSize ≤ maxSliceSize * st.blockSize := Nat.mul_le_mul_right _ hm
    rw [Nat.succ_mul, Nat.mul_comm maxSliceSize] at hle
    omega
  have hplace : adr s (s.slices (j % nrSlices)) b + y =
      (st.start j + b * st.blockSize + y) % s.dataBufSize := by
    have hdvd : st.blockSize ∣ st.start j + b * st.blockSize :=
      (hst.dvd_start hdata).add (Nat.dvd_mul_left ..)
    have hend := block_inside hdvd (m := 4096) (by decide)
    rw [← hp.accounts.bufSize] at hend
    rw [adr, hp.memory.base j (.inl hj) hjlt, hp.accounts.blockSize, Nat.mod_add_mod]
    exact (mod_add_of_lt (by omega)).symm
  rw [hplace] at heq
  have hbuf : s.dataBufSize = 4 * (st.blockSize * maxSliceSize) := by
    rw [hp.accounts.bufSize, show maxSliceSize = 1024 from rfl]
    ring
  have hfspan := hspan f hlt x hx
  have hbspan := hspan b hbmax y hy
  rcases eq_or_ne j k with rfl | hne
  · have hsame := eq_of_mod_eq heq (by omega) (by omega)
    have hbf : b = f := by
      have hdiv := congrArg (· / st.blockSize) (show b * st.blockSize + y = f * st.blockSize + x by omega)
      simp only [Nat.mul_comm _ st.blockSize, Nat.mul_add_div hbs, Nat.div_eq_of_lt hy,
        Nat.div_eq_of_lt hx, Nat.add_zero] at hdiv
      exact hdiv
    exact (hp.memory.lands _ (hf ▸ hlt)).1 (hf ▸ hbf ▸ hb)
  · have hjk : j + 1 ≤ k := by omega
    have hbefore := st.start_mono hjk
    rw [st.start_succ] at hbefore
    have hfar := hst.start_add_le j (k - j)
    rw [Nat.add_sub_cancel' (by omega)] at hfar
    have hthree : (k - j) * (st.blockSize * maxSliceSize) ≤ 3 * (st.blockSize * maxSliceSize) :=
      Nat.mul_le_mul_right _ (by simp only [nrSlices] at hstarted; omega)
    have hsame := eq_of_mod_eq heq (by omega) (by omega)
    omega

/-- A payload that `dispatchMessage` receives in the current slice lands inside the ring and does
no harm, unless the stream ends in the last block of the ring and all its slices have started. -/
theorem landingSafe_iff {a : ℕ} (hst : st.Valid) (h : (system st defaultMode).Reachable s)
    (hrunning : s.failure = none) (hidle : s.tasks = []) (haim : landing s = .ring a) :
    LandingSafe st s a ↔ ¬ EndsAtRingEnd st s := by
  have hp := placed_of_reachable hst h hrunning
  obtain ⟨k, f, hk, hf, hlt, ha⟩ := hp.landing_eq haim
  have hblock := hp.accounts.blockSize
  rw [← hp.inside_iff hst hk hf hlt, ← ha]
  constructor
  · rintro ⟨hinside, -, -⟩
    rwa [hblock] at hinside
  · intro hinside
    -- A byte of the landing zone is at its place in the stream, modulo the ring.
    have hzone : ∀ c, a ≤ c → c < a + st.blockSize →
        ∃ x < st.blockSize, c = (st.start k + f * st.blockSize + x) % s.dataBufSize := by
      intro c hle hless
      refine ⟨c - a, by omega, ?_⟩
      rw [mod_add_of_lt (by omega), ← ha]
      omega
    refine ⟨by rwa [hblock], ?_, ?_⟩
    · rintro i b y hstate hb hy hbyte ⟨hle, hless⟩
      rw [hblock] at hy hbyte hless
      obtain ⟨x, hx, heq⟩ := hzone _ hle hless
      exact hp.landing_received hst hk hf hlt hx hstate hb hy hbyte heq
    · rintro p hwritten hreleased ⟨hle, hless⟩
      rw [hblock] at hless
      obtain ⟨x, hx, heq⟩ := hzone _ hle hless
      exact hp.landing_unwritten hst hidle hk hf hlt hx hwritten hreleased heq

/-- Both slices have been received, and the next payload lands behind them. -/
theorem landingSafe_iff_two_slices : ∃ s, (system twoAndOne defaultMode).Reachable s ∧
    landing s = .ring 3 ∧ LandingSafe twoAndOne s 3 := by
  have hrun : (startTwoAndOne.bind fun s => System.perform act s allBlocks).any fun s =>
      s.failure = none ∧ s.tasks.isEmpty ∧ landing s = .ring 3 ∧ s.currentSliceNo < 2 := by
    decide +kernel
  obtain ⟨s, hs, hlast⟩ := (Option.any_eq_true _ _).mp hrun
  obtain ⟨s₀, hstart, hperform⟩ := Option.bind_eq_some_iff.mp hs
  obtain ⟨hrunning, hidle, haim, hlt⟩ := of_decide_eq_true hlast
  have hreach : (system twoAndOne defaultMode).Reachable s :=
    ⟨s₀, twoAndOne_init hstart, System.run_of_perform_in allBlocks_conform hperform⟩
  refine ⟨s, hreach, haim, (landingSafe_iff twoAndOne_valid hreach hrunning
    (List.isEmpty_iff.mp hidle) haim).mpr ?_⟩
  rintro ⟨hend, -⟩
  exact absurd hlt (not_lt.mpr hend)

/-- A stream that is one byte shorter than the ring. -/
def nearlyTheRing : Stream := .zeros [2048, 2048, 2048, 2046, 1] 2 1 0

/-- The stream of the example is one that a sender may send. -/
theorem nearlyTheRing_valid : nearlyTheRing.Valid where
  blockSize_pos := by decide
  cut_pos := by decide
  cut_le := by decide
  dvd := by
    have hall : ∀ n < 4, nearlyTheRing.blockSize ∣ nearlyTheRing.size n := by decide
    exact fun n hn => hall n (Nat.lt_of_succ_lt_succ hn)
  dvd_or_lt := by decide
  stripes_pos _ := by decide
  stripes_le := by decide
  redundancy_le := by decide
  stripe_le := by decide

/-- The receiver of this stream waits for the first block. -/
theorem nearlyTheRing_first : ∃ s, Filling nearlyTheRing 0 0 0 s ∧ s.tasks = [] := by
  have hrun : ((start ⟨2, false, true, 0⟩ false (fun _ => .ofNat 0) fun _ _ => .ofNat 0).bind
      fun s => System.perform act s (List.replicate 3 .net)).any fun s =>
        ((s.failure = none ∧ s.useFec = false ∧ s.endReached = 0 ∧
          s.config.senderIsNewgen = true ∧ s.config.clientNumber = 0 ∧ s.writer = .wait ∧
          s.memReturned = 0) ∧ s.started = 1 ∧ s.freed = 0 ∧ s.receivedSliceNo + 1 = 0 ∧
          (s.slices 0).state = .receiving ∧ (s.slices 0).map = Finset.range 0 ∧
          (s.slices 0).fecStripes = 0) ∧ s.tasks.isEmpty := by
    decide +kernel
  obtain ⟨s, hs, hlast⟩ := (Option.any_eq_true _ _).mp hrun
  obtain ⟨s₀, hstart, hperform⟩ := Option.bind_eq_some_iff.mp hs
  obtain ⟨⟨⟨hrunning, huse, hend, hnewgen, hclient, hwriter, hreturned⟩, hfilling⟩, hidle⟩ :=
    of_decide_eq_true hlast
  have hinit : (system nearlyTheRing defaultMode).Init s₀ :=
    ⟨_, _, _, _, ⟨by decide, by decide⟩, rfl, ⟨rfl, rfl⟩, hstart⟩
  have hnets : ∀ a ∈ List.replicate 3 Action.net, a.Conforms nearlyTheRing := by
    intro a ha
    obtain ⟨-, rfl⟩ := List.mem_replicate.mp ha
    trivial
  have hreach : (system nearlyTheRing defaultMode).Reachable s :=
    ⟨s₀, hinit, System.run_of_perform_in hnets hperform⟩
  obtain ⟨hstarted, hfreed, hrsn, hstate, hmap, hstripes⟩ := hfilling
  exact ⟨s, ⟨⟨hreach, hrunning, huse, hend, hnewgen, hclient, hwriter, hreturned⟩, hstarted, hfreed,
    hrsn, hstate, hmap, hstripes⟩, List.isEmpty_iff.mp hidle⟩

/-- The empty slice at the end of that stream starts with the last byte of the ring, and a payload
that lands there reaches beyond the ring. -/
theorem not_landingSafe : ¬ ∀ st : Stream, st.Valid → ∀ s a, (system st defaultMode).Reachable s →
    s.failure = none → s.tasks = [] → landing s = .ring a → LandingSafe st s a := by
  intro hall
  have hst := nearlyTheRing_valid
  obtain ⟨s, h, hidle⟩ := nearlyTheRing_first
  obtain ⟨s, h, hidle⟩ := h.slice hidle hst (by decide)
  obtain ⟨s, h, -, hidle⟩ := h.open hidle hst (by decide) (by decide) (by decide)
  obtain ⟨s, h, hidle⟩ := h.slice hidle hst (by decide)
  obtain ⟨s, h, -, hidle⟩ := h.open hidle hst (by decide) (by decide) (by decide)
  obtain ⟨s, h, hidle⟩ := h.slice hidle hst (by decide)
  obtain ⟨s, h, -, hidle⟩ := h.open hidle hst (by decide) (by decide) (by decide)
  obtain ⟨s, h, hidle⟩ := h.slice hidle hst (by decide)
  -- Without the memory that comes back from the writer there is no room for the last two slices.
  obtain ⟨s, h, hidle⟩ := h.write hidle hst (by decide) (by decide) (by decide)
  obtain ⟨s, h, -, hidle⟩ := h.open hidle hst (by decide) (by decide) (by decide)
  obtain ⟨s, h, hidle⟩ := h.slice hidle hst (by decide)
  obtain ⟨s, h, hfirst, hidle⟩ := h.open hidle hst (by decide) (by decide) (by decide)
  obtain ⟨hcurrent, -, -⟩ := h.current
  have hs := h.settled
  have hbase := (h.memory hst).base 5 (.inl h.freed.le) (by rw [h.started]; decide)
  have haim : landing s = .ring 8191 := by
    unfold landing
    rw [hcurrent]
    simp only [hfirst, adr, hbase, hs.accounts.blockSize, hs.accounts.bufSize]
    rw [if_pos (by decide)]
    decide
  have hinside := (hall _ hst s 8191 h.reachable h.running hidle haim).inside
  rw [hs.accounts.blockSize, hs.accounts.bufSize] at hinside
  exact absurd hinside (by decide)

end Udpcast.Receiver
