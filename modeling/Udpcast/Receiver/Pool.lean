import Udpcast.Receiver.Accounting

/-!
# The pool of FEC blocks

Where each block of the pool is: among the free blocks, in the local list, ready as the next
block, or in a descriptor of a slot. Only setting up a slot can forget a block.
-/

namespace Udpcast.Receiver

open Queue
open Protocol

/-- 1 if the descriptor has the address of block `b`. -/
def FecDesc.holds (desc : FecDesc) (b : ℕ) : ℕ := if desc.adr = some b then 1 else 0

/-- How often block `b` is among the counted FEC blocks of the slice. -/
def Slice.holds (slice : Slice) (b : ℕ) : ℕ :=
  ∑ k ∈ Finset.range slice.fecStripes, ∑ j ∈ Finset.range (slice.fecBlocks k),
    (slice.fecDescs (k + j * slice.fecStripes)).holds b

/-- The addresses in the queue of free blocks. -/
def State.freeAddresses (s : State) : List ℕ :=
  (List.range (pcGetWaiting s.freeBlocksPc)).map fun k =>
    s.blockAddresses ((pcGetConsumerPosition s.freeBlocksPc + k) % nrBlocks)

/-- The task belongs to `setNextBlock`. -/
def Task.takesBlock : Task → Bool
  | .setNextBlock _ | .takeBlock _ => true
  | _ => false

/-- The next block, unless `setNextBlock` is still to replace it. -/
def State.spare (s : State) : List ℕ :=
  if s.tasks.head?.any Task.takesBlock then [] else [s.nextBlock]

/-- How often block `b` occurs anywhere. -/
def State.pool (s : State) (b : ℕ) : ℕ :=
  s.freeAddresses.count b + s.localBlocks.count b + s.spare.count b +
    ∑ i ∈ Finset.range nrSlices, (s.slices i).holds b

/-- What work on the slice in slot `i` does to the blocks. -/
inductive Exchanges (i : ℕ) (s s' : State) : Prop
  | same {l} (htasks : s'.tasks = l ++ s.tasks) (hl : ∀ t ∈ l, t.takesBlock = false)
    (hlocal : s'.localBlocks = s.localBlocks)
    (hholds : ∀ b, (s'.slices i).holds b = (s.slices i).holds b)
  | arrived {l} (htasks : s'.tasks = l ++ s.tasks) (hl : ∀ t ∈ l, t.takesBlock = false)
    (hstate : (s.slices i).state = .receiving)
    (hholds : ∀ b, s'.localBlocks.count b + (s'.slices i).holds b =
      s.localBlocks.count b + (s.slices i).holds b)
  | stored (htasks : s'.tasks = .setNextBlock i :: s.tasks) (hlocal : s'.localBlocks = s.localBlocks)
    (hstate : (s.slices i).state = .receiving ∨ (s.slices i).state = .fecDone)
    (hholds : ∀ b, (s'.slices i).holds b =
      (s.slices i).holds b + if s.nextBlock = b then 1 else 0)

variable {st : Stream} {s s' s'' : State} {slice slice' : Slice} {i b n bytes : ℕ} {l l' : List ℕ}

section Slices

/-- A descriptor with an address holds that block and no other. -/
theorem FecDesc.holds_of_adr {desc : FecDesc} {a : ℕ} (hadr : desc.adr = some a) (b : ℕ) :
    desc.holds b = if a = b then 1 else 0 := by
  simp [FecDesc.holds, hadr]

/-- A descriptor without an address holds nothing. -/
theorem FecDesc.holds_of_none {desc : FecDesc} (hadr : desc.adr = none) (b : ℕ) :
    desc.holds b = 0 := by
  simp [FecDesc.holds, hadr]

/-- The sum of rows when one row grows. -/
theorem sum_row {f g : ℕ → ℕ} {S k x : ℕ} (hk : k < S) (hother : ∀ k' < S, k' ≠ k → g k' = f k')
    (hself : g k = f k + x) :
    ∑ k' ∈ Finset.range S, g k' = ∑ k' ∈ Finset.range S, f k' + x := by
  have hmem : k ∈ Finset.range S := Finset.mem_range.mpr hk
  have hrest : ∑ k' ∈ (Finset.range S).erase k, g k' = ∑ k' ∈ (Finset.range S).erase k, f k' := by
    refine Finset.sum_congr rfl fun k' hk' => ?_
    exact hother k' (Finset.mem_range.mp (Finset.mem_of_mem_erase hk')) (Finset.ne_of_mem_erase hk')
  rw [← Finset.add_sum_erase _ g hmem, ← Finset.add_sum_erase _ f hmem, hrest, hself]
  omega

/-- The counts of blocks do not depend on anything but the descriptors in use. -/
theorem Slice.holds_congr (hstripes : slice'.fecStripes = slice.fecStripes)
    (hblocks : slice'.fecBlocks = slice.fecBlocks) (hdescs : slice'.fecDescs = slice.fecDescs)
    (b : ℕ) : slice'.holds b = slice.holds b := by
  unfold Slice.holds
  rw [hstripes, hblocks, hdescs]

/-- A slice that has just been set up holds nothing, whatever its descriptors say. -/
theorem Slice.holds_start (m : ℤ) (guess b : ℕ) : (slice.start m guess).holds b = 0 := by
  simp [Slice.holds, Slice.start]

/-- A slice without stripes holds nothing. -/
theorem Slice.holds_of_stripes (hzero : slice.fecStripes = 0) (b : ℕ) : slice.holds b = 0 := by
  rw [Slice.holds, hzero, Finset.range_zero, Finset.sum_empty]

/-- A slice in which no FEC block is counted holds nothing. -/
theorem Slice.holds_of_blocks (hzero : ∀ k < slice.fecStripes, slice.fecBlocks k = 0) (b : ℕ) :
    slice.holds b = 0 := by
  unfold Slice.holds
  refine Finset.sum_eq_zero fun k hk => ?_
  rw [hzero k (Finset.mem_range.mp hk), Finset.range_zero, Finset.sum_empty]

/-- A FEC block is stored in the next descriptor of its stripe. -/
theorem Slice.holds_store {k a x : ℕ} (hk : k < slice.fecStripes) (b : ℕ) :
    Slice.holds { slice with
      fecDescs := Function.update slice.fecDescs (slice.fecBlocks k * slice.fecStripes + k)
        ⟨some a, x⟩
      fecBlocks := Function.update slice.fecBlocks k (slice.fecBlocks k + 1)
      blocksTransferred := slice.blocksTransferred + 1 } b =
      slice.holds b + if a = b then 1 else 0 := by
  unfold Slice.holds
  dsimp only
  rw [Nat.add_comm (_ * _) k]
  refine sum_row hk (fun k' hk' hne => ?_) ?_
  · rw [Function.update_of_ne hne]
    refine Finset.sum_congr rfl fun j _ => ?_
    rw [Function.update_of_ne fun heq => hne (row_inj hk' hk heq).1]
  · rw [Function.update_self, Finset.sum_range_succ, Function.update_self]
    congr 1
    · refine Finset.sum_congr rfl fun j hj => ?_
      have hlt := Finset.mem_range.mp hj
      rw [Function.update_of_ne fun heq => hlt.ne (row_inj hk hk heq).2]
    · exact FecDesc.holds_of_adr rfl b

/-- The last FEC block of a stripe is given up. -/
theorem Slice.holds_drop {k k₀ a : ℕ} (hk : k < slice.fecStripes) (hfec : slice.fecBlocks k = k₀ + 1)
    (hadr : (slice.fecDescs (k + k₀ * slice.fecStripes)).adr = some a)
    (hstripes : slice'.fecStripes = slice.fecStripes)
    (hblocks : slice'.fecBlocks = Function.update slice.fecBlocks k k₀)
    (hdescs : slice'.fecDescs = Function.update slice.fecDescs (k + k₀ * slice.fecStripes)
      { slice.fecDescs (k + k₀ * slice.fecStripes) with adr := none }) (b : ℕ) :
    slice.holds b = slice'.holds b + if a = b then 1 else 0 := by
  unfold Slice.holds
  rw [hstripes, hblocks, hdescs]
  refine sum_row hk (fun k' hk' hne => ?_) ?_
  · rw [Function.update_of_ne hne]
    refine Finset.sum_congr rfl fun j _ => ?_
    rw [Function.update_of_ne fun heq => hne (row_inj hk' hk heq).1]
  · rw [Function.update_self, hfec, Finset.sum_range_succ, FecDesc.holds_of_adr hadr]
    congr 1
    refine Finset.sum_congr rfl fun j hj => ?_
    have hlt := Finset.mem_range.mp hj
    rw [Function.update_of_ne fun heq => hlt.ne (row_inj hk hk heq).2]

/-- A FEC block is given back to the free blocks. -/
theorem Slice.holds_release {k j a : ℕ} (hk : k < slice.fecStripes) (hj : j < slice.fecBlocks k)
    (hadr : (slice.fecDescs (k + j * slice.fecStripes)).adr = some a) (b : ℕ) :
    slice.holds b = Slice.holds { slice with
      fecDescs := Function.update slice.fecDescs (k + j * slice.fecStripes)
        { slice.fecDescs (k + j * slice.fecStripes) with adr := none } } b +
      if a = b then 1 else 0 := by
  unfold Slice.holds
  dsimp only
  refine sum_row hk (fun k' hk' hne => ?_) (sum_row hj (fun j' _ hne => ?_) ?_)
  · refine Finset.sum_congr rfl fun j' _ => ?_
    rw [Function.update_of_ne fun heq => hne (row_inj hk' hk heq).1]
  · rw [Function.update_of_ne fun heq => hne (row_inj hk hk heq).2]
  · rw [Function.update_self, FecDesc.holds_of_adr hadr, FecDesc.holds_of_none rfl, Nat.zero_add]

/-- A FEC block that a data block makes superfluous moves from the slice to the local list. -/
theorem countArrival_holds (hok : countArrival slice l b = .ok (slice', l')) (a : ℕ) :
    l'.count a + slice'.holds a = l.count a + slice.holds a := by
  rcases countArrival_ok hok with
    ⟨-, rfl, rfl⟩ | ⟨hS, stripe, m, hstripe, -, ⟨-, rfl, rfl⟩ | ⟨k₀, x, hfec, -, hadr, rfl, heq⟩⟩
  · rfl
  · rfl
  · have hlt : stripe < slice.fecStripes := hstripe ▸ Nat.mod_lt _ (Nat.pos_of_ne_zero hS)
    have hstripes : slice'.fecStripes = slice.fecStripes := by rw [heq]
    rw [slice.holds_drop hlt hfec hadr hstripes (by rw [heq]) (by rw [heq]), List.count_cons]
    simp only [beq_iff_eq]
    omega

end Slices

section Work

/-- What ends the treatment of a message takes no block from the pool. -/
theorem Task.Trails.takesBlock {useFec : Bool} {t : Task} (h : t.Trails useFec) :
    t.takesBlock = false := by
  cases t <;> first | exact h.elim | rfl

/-- Noting the size of a slice moves no block. -/
theorem setSliceBytes_holds (h : setSliceBytes s i bytes = .ok s') : s'.tasks = s.tasks ∧
    s'.localBlocks = s.localBlocks ∧ s'.nextBlock = s.nextBlock ∧
    ∀ a, (s'.slices i).holds a = (s.slices i).holds a := by
  rcases setSliceBytes_ok h with ⟨-, -, rfl⟩ | ⟨-, rfl⟩
  · exact ⟨rfl, rfl, rfl, fun _ => rfl⟩
  · refine ⟨rfl, rfl, rfl, fun a => ?_⟩
    dsimp only
    rw [Function.update_self]
    exact Slice.holds_congr rfl rfl rfl a

/-- Completing a slice moves no block either. -/
theorem checkSliceComplete_exchanges (h : checkSliceComplete s i = .ok s') :
    (∃ l, s'.tasks = l ++ s.tasks ∧ ∀ t ∈ l, t.takesBlock = false) ∧
      s'.localBlocks = s.localBlocks ∧ ∀ a, (s'.slices i).holds a = (s.slices i).holds a := by
  rcases checkSliceComplete_ok h with ⟨-, rfl⟩ | ⟨-, -, state, -, rfl⟩
  · exact ⟨⟨[], rfl, by simp⟩, rfl, fun _ => rfl⟩
  · refine ⟨⟨[_, _], rfl, by simp [Task.takesBlock]⟩, rfl, fun a => ?_⟩
    dsimp only
    rw [Function.update_self]
    exact Slice.holds_congr rfl rfl rfl a

/-- Nor does copying a payload. -/
theorem copyBlock_pool (p : Place) : (s.copyBlock p).tasks = s.tasks ∧
    (s.copyBlock p).localBlocks = s.localBlocks := by
  obtain ⟨mem, blocks, heq⟩ := copyBlock_eq (s := s) p
  rw [heq]
  exact ⟨rfl, rfl⟩

/-- Nor does the size that a data block carries. -/
theorem noteBytes_holds (h : noteBytes s i bytes = .ok s') : s'.tasks = s.tasks ∧
    s'.localBlocks = s.localBlocks ∧ ∀ a, (s'.slices i).holds a = (s.slices i).holds a := by
  rcases noteBytes_ok h with hset | ⟨-, e, rfl⟩
  · obtain ⟨htasks, hlocal, -, hholds⟩ := setSliceBytes_holds hset
    exact ⟨htasks, hlocal, hholds⟩
  · exact ⟨rfl, rfl, fun _ => rfl⟩

/-- A data block may free a FEC block of its slice, which goes to the local list. -/
theorem processDataBlock_exchanges (h : processDataBlock s i n b bytes = .ok s') :
    Exchanges i s s' := by
  rcases processDataBlock_ok h with rfl | ⟨hreceiving, -, -, s₁, hnote, hcount⟩
  · exact .same (l := []) rfl (by simp) rfl fun _ => rfl
  · obtain ⟨hslices, -⟩ := copyBlock_slices (s := s) (.ring (adr s (s.slices i) b))
    obtain ⟨hcopyTasks, hcopyLocal⟩ := copyBlock_pool (s := s) (.ring (adr s (s.slices i) b))
    obtain ⟨htasks, hlocal, hholds⟩ := noteBytes_holds hnote
    obtain ⟨slice, localBlocks, harrival, hcheck⟩ := countData_ok hcount
    obtain ⟨⟨l, hl, hfree⟩, hlocal', hholds'⟩ := checkSliceComplete_exchanges hcheck
    refine .arrived (hl.trans ?_) hfree hreceiving fun a => ?_
    · show l ++ s₁.tasks = _
      rw [htasks, hcopyTasks]
    · have hsum : localBlocks.count a + slice.holds a =
          s₁.localBlocks.count a + (s₁.slices i).holds a := countArrival_holds harrival a
      rw [hholds, hslices, hlocal, hcopyLocal] at hsum
      rw [hlocal', hholds', setSlice_self]
      exact hsum

/-- A FEC block that is useful gets the next block of the pool, which has to be replaced then. -/
theorem countFec_exchanges {stripes : ℕ} (h : countFec s i stripes b = .ok s')
    (hstripes : (s.slices i).fecStripes = stripes) (hne : stripes ≠ 0)
    (hstate : (s.slices i).state = .receiving ∨ (s.slices i).state = .fecDone) :
    Exchanges i s s' := by
  rcases countFec_ok h with
    (⟨-, hcheck⟩ | rfl) | ⟨stripe, hstripe, -, -, mem, blocks, -, rfl⟩
  · obtain ⟨⟨l, hl, hfree⟩, hlocal, hholds⟩ := checkSliceComplete_exchanges hcheck
    refine .same (l := l ++ .advanceReceivedPointer :: cleanupWithoutFec s) ?_ ?_ hlocal hholds
    · rw [hl]
      simp [State.enter]
    · intro t ht
      rcases List.mem_append.mp ht with ht | ht
      · exact hfree t ht
      · exact (trails_advanceAndCleanup rfl t ht).takesBlock
  · exact .same (l := []) rfl (by simp) rfl fun _ => rfl
  · subst hstripes
    refine .stored rfl rfl hstate fun a => ?_
    dsimp only
    rw [Function.update_self]
    exact Slice.holds_store (hstripe ▸ Nat.mod_lt _ (Nat.pos_of_ne_zero hne)) a

/-- The first FEC block of a slice finds no FEC block counted, and the blocks of the thread stay
where they are. -/
theorem initSliceForFec_pool (s : State) (i stripes : ℕ) :
    (initSliceForFec s i stripes).localBlocks = s.localBlocks ∧
      (initSliceForFec s i stripes).nextBlock = s.nextBlock ∧
      ((initSliceForFec s i stripes).slices i).fecStripes = stripes ∧
      ∀ k < stripes, ((initSliceForFec s i stripes).slices i).fecBlocks k = 0 := by
  unfold initSliceForFec
  refine ⟨?_, ?_, ?_, fun k hk => ?_⟩
  · cases s.useFec <;> rfl
  · cases s.useFec <;> rfl
  · rw [setSlice_self]
  · rw [setSlice_self]
    exact if_pos hk

/-- What has been done before does not count, as long as it moves no block. -/
theorem Exchanges.after {s₀ : State} (h : Exchanges i s₀ s') (htasks : s₀.tasks = s.tasks)
    (hlocal : s₀.localBlocks = s.localBlocks) (hnext : s₀.nextBlock = s.nextBlock)
    (hstate : (s₀.slices i).state = (s.slices i).state)
    (hholds : ∀ a, (s₀.slices i).holds a = (s.slices i).holds a) : Exchanges i s s' := by
  cases h with
  | same h₁ hl h₂ h₃ =>
    exact .same (htasks ▸ h₁) hl (h₂.trans hlocal) fun a => (h₃ a).trans (hholds a)
  | arrived h₁ hl h₂ h₃ =>
    refine .arrived (htasks ▸ h₁) hl (hstate ▸ h₂) fun a => ?_
    rw [h₃, hlocal, hholds]
  | stored h₁ h₂ h₃ h₄ =>
    refine .stored (htasks ▸ h₁) (h₂.trans hlocal) (hstate ▸ h₃) fun a => ?_
    rw [h₄, hholds, hnext]

/-- So a FEC block stores the next block of the pool in its slice, or moves nothing. -/
theorem processFecBlock_exchanges {stripes : ℕ} (h : processFecBlock s i stripes b bytes = .ok s')
    (hne : stripes ≠ 0) : Exchanges i s s' := by
  rcases processFecBlock_ok h with rfl | ⟨hstate, s₁, hset, hcase⟩
  · exact .same (l := []) rfl (by simp) rfl fun _ => rfl
  · obtain ⟨htasks, hlocal, hnext, hholds⟩ := setSliceBytes_holds hset
    have hstate₁ := (setSliceBytes_frame hset).2.2.2
    rcases hcase with ⟨hzero, hcount⟩ | ⟨-, -, rfl⟩ | ⟨hS, heq, hcount⟩
    · obtain ⟨hlocal₂, hnext₂, hstripes, hblocks⟩ := initSliceForFec_pool s₁ i stripes
      obtain ⟨-, -, htasks₂, hstate₂⟩ := initSliceForFec_works s₁ i stripes
      refine (countFec_exchanges hcount hstripes hne ?_).after (htasks₂.trans htasks)
        (hlocal₂.trans hlocal) (hnext₂.trans hnext) (hstate₂.trans hstate₁) fun a => ?_
      · rwa [hstate₂, hstate₁]
      · rw [Slice.holds_of_blocks fun k hk => hblocks k (hstripes ▸ hk), ← hholds,
          Slice.holds_of_stripes hzero]
    · exact .same (l := []) htasks (by simp) hlocal hholds
    · exact (countFec_exchanges hcount heq hne (hstate₁ ▸ hstate)).after htasks hlocal hnext hstate₁
        hholds

/-- A REQACK moves no block. -/
theorem processReqAck_exchanges {rxmit : ℕ} (h : processReqAck s n bytes rxmit = .ok s')
    (hfound : ∀ j, s.found = some j → j = i) : Exchanges i s s' := by
  rcases processReqAck_ok h with ⟨-, rfl⟩ | ⟨-, -, rfl⟩ | ⟨-, j, s₁, hj, hset, hcheck⟩
  · exact .same (l := []) rfl (by simp) rfl fun _ => rfl
  · exact .same (l := []) rfl (by simp) rfl fun _ => rfl
  · obtain rfl := hfound j hj
    obtain ⟨htasks, hlocal, -, hholds⟩ := setSliceBytes_holds hset
    obtain ⟨msg, hanswer⟩ := answer_eq (s := s₁) (i := j) rxmit
    rw [hanswer] at hcheck
    obtain ⟨⟨l, hl, hfree⟩, hlocal', hholds'⟩ := checkSliceComplete_exchanges hcheck
    refine .same (l := l ++ .advanceReceivedPointer :: cleanupWithoutFec s₁) ?_ ?_
      (hlocal'.trans hlocal) fun a => (hholds' a).trans (hholds a)
    · rw [hl, ← htasks]
      simp [State.enter, State.send]
    · intro t ht
      rcases List.mem_append.mp ht with ht | ht
      · exact hfree t ht
      · exact (trails_advanceAndCleanup rfl t ht).takesBlock

/-- The end of `processFecBlock` moves none either. -/
theorem finishFecBlock_exchanges (h : finishFecBlock s i = .ok s') : Exchanges i s s' := by
  obtain ⟨⟨l, hl, hfree⟩, hlocal, hholds⟩ := checkSliceComplete_exchanges h
  refine .same (l := l ++ [.advanceReceivedPointer]) ?_ ?_ hlocal fun a => (hholds a).trans ?_
  · rw [hl]
    simp [State.enter, State.setSlice]
  · intro t ht
    rcases List.mem_append.mp ht with ht | ht
    · exact hfree t ht
    · obtain rfl := List.mem_singleton.mp ht
      rfl
  · rw [setSlice_self]
    exact Slice.holds_congr rfl rfl rfl a

/-- Nor does completing a slice by force. -/
theorem completeByForce_exchanges (h : completeByForce s i = .ok s') : Exchanges i s s' := by
  obtain ⟨-, s₁, hbytes, hcheck⟩ := completeByForce_ok h
  obtain ⟨⟨l, hl, hfree⟩, hlocal, hholds⟩ := checkSliceComplete_exchanges hcheck
  have hsame : s₁.tasks = s.tasks ∧ s₁.localBlocks = s.localBlocks ∧
      ∀ a, (s₁.slices i).holds a = (s.slices i).holds a := by
    rcases hbytes with ⟨-, rfl⟩ | ⟨-, hset⟩
    · exact ⟨rfl, rfl, fun _ => rfl⟩
    · obtain ⟨htasks, hlocal, -, hholds⟩ := setSliceBytes_holds hset
      exact ⟨htasks, hlocal, hholds⟩
  refine .same (hsame.1 ▸ hl) hfree (hlocal.trans hsame.2.1) fun a => ?_
  rw [hholds, setSlice_self, ← hsame.2.2]
  exact Slice.holds_congr rfl rfl rfl a

/-- The treatment of a message moves blocks between the holders. -/
theorem process_exchanges {msg : ServerMsg} (h : process s msg = .ok s') (hsends : st.Sends msg)
    (i : ℕ) (hfound : ∀ j, s.found = some j → j = i) : Exchanges i s s' := by
  unfold process at h
  cases hsends with
  | data n b hn hb =>
    dsimp only at h
    split at h
    · rename_i j hj
      obtain rfl := hfound j hj
      exact processDataBlock_exchanges h
    · obtain rfl := Except.ok.inj h
      exact .same (l := []) rfl (by simp) rfl fun _ => rfl
  | fec n b payload hn hb hpayload =>
    dsimp only at h
    split at h
    · rename_i j hj
      obtain rfl := hfound j hj
      apply processFecBlock_exchanges h
      exact fun hzero => by simp [hzero] at hb
    · obtain rfl := Except.ok.inj h
      exact .same (l := []) rfl (by simp) rfl fun _ => rfl
  | reqack n rxmit readySet hn => exact processReqAck_exchanges h hfound
  | hello =>
    obtain rfl := Except.ok.inj h
    exact .same (l := []) rfl (by simp) rfl fun _ => rfl

end Work

section Moves

variable {t : Task} {rest : List Task}

/-- The queue of free blocks. -/
structure FreeQueue (s : State) : Prop where
  queue : s.freeBlocksPc.Holds nrBlocks (nrBlocks + s.blocksReturned) s.blocksTaken
  notEnded : s.freeBlocksPc.atEnd = false
  taking : ∀ i rest, s.tasks = .takeBlock i :: rest → s.blocksTaken < nrBlocks + s.blocksReturned

/-- The free blocks are entries of a ring. -/
theorem FreeQueue.freeAddresses_eq (h : FreeQueue s) : s.freeAddresses =
    ringEntries s.blockAddresses nrBlocks s.blocksTaken (nrBlocks + s.blocksReturned) := by
  rw [ringEntries_eq_range, State.freeAddresses, h.queue.pcGetWaiting_eq,
    h.queue.consumerPosition_eq]

/-- The free blocks depend on the queue and its addresses only. -/
theorem freeAddresses_congr (hqueue : s'.freeBlocksPc = s.freeBlocksPc)
    (haddresses : s'.blockAddresses = s.blockAddresses) : s'.freeAddresses = s.freeAddresses := by
  unfold State.freeAddresses
  rw [hqueue, haddresses]

/-- The spare block depends on the next block, and on whether it is being replaced. -/
theorem spare_congr (hnext : s'.nextBlock = s.nextBlock)
    (htasks : s'.tasks.head?.any Task.takesBlock = s.tasks.head?.any Task.takesBlock) :
    s'.spare = s.spare := by
  unfold State.spare
  rw [hnext, htasks]

/-- The next block is spare, unless it has just been stored. -/
theorem spare_eq_next (htasks : s.tasks.head?.any Task.takesBlock = false) :
    s.spare = [s.nextBlock] := by
  unfold State.spare
  rw [htasks, if_neg Bool.false_ne_true]

/-- While it is to be replaced there is no spare block. -/
theorem spare_eq_nil (htasks : s.tasks = t :: rest) (htakes : t.takesBlock = true) :
    s.spare = [] := by
  unfold State.spare
  rw [htasks, List.head?_cons, Option.any_some, htakes, if_pos rfl]

/-- `setNextBlock` waits for nothing. -/
theorem rest_takesBlock (hchain : (t :: rest).IsChain Follows) :
    rest.head?.any Task.takesBlock = false := by
  cases rest with
  | nil => rfl
  | cons y rest =>
    obtain ⟨hy, -⟩ := List.isChain_cons_cons.mp hchain
    cases y <;> first | exact hy.elim | rfl

/-- Tasks that take no block may be entered. -/
theorem head_takesBlock {l : List Task} (hl : ∀ t ∈ l, t.takesBlock = false)
    (hrest : rest.head?.any Task.takesBlock = false) :
    (l ++ rest).head?.any Task.takesBlock = false := by
  cases l with
  | nil => exact hrest
  | cons y l => exact hl y List.mem_cons_self

/-- The sum over the slots when one slot changes. -/
theorem sum_slots {f g : ℕ → ℕ} (hi : i < nrSlices) (hothers : ∀ j, j ≠ i → g j = f j) :
    ∑ j ∈ Finset.range nrSlices, g j + f i = ∑ j ∈ Finset.range nrSlices, f j + g i := by
  have hmem : i ∈ Finset.range nrSlices := Finset.mem_range.mpr hi
  have hrest : ∑ j ∈ (Finset.range nrSlices).erase i, g j =
      ∑ j ∈ (Finset.range nrSlices).erase i, f j :=
    Finset.sum_congr rfl fun j hj => hothers j (Finset.ne_of_mem_erase hj)
  rw [← Finset.add_sum_erase _ g hmem, ← Finset.add_sum_erase _ f hmem, hrest]
  omega

/-- Where the blocks are depends on these four places only. -/
theorem pool_congr (haddresses : s'.freeAddresses = s.freeAddresses)
    (hlocal : s'.localBlocks = s.localBlocks) (hspare : s'.spare = s.spare)
    (hholds : ∀ i a, (s'.slices i).holds a = (s.slices i).holds a) (b : ℕ) :
    s'.pool b = s.pool b := by
  unfold State.pool
  rw [haddresses, hlocal, hspare, Finset.sum_congr rfl fun i _ => hholds i b]

/-- A slot that is set to a slice that holds the same blocks changes nothing. -/
theorem slot_holds {slices : ℕ → Slice} {x : Slice}
    (h : ∀ a, x.holds a = (slices i).holds a) (j a : ℕ) :
    (Function.update slices i x j).holds a = (slices j).holds a := by
  rcases eq_or_ne j i with rfl | hj
  · rw [Function.update_self, h]
  · rw [Function.update_of_ne hj]

/-- Work on a slice moves blocks from one holder to another. -/
theorem Exchanges.pool (hx : Exchanges i s s') (hw : Works i s s')
    (hbeyond : ∀ i, nrSlices ≤ i → (s.slices i).state = .free)
    (htasks : s.tasks.head?.any Task.takesBlock = false) (b : ℕ) : s'.pool b = s.pool b := by
  have haddresses : s'.freeAddresses = s.freeAddresses :=
    freeAddresses_congr (congrArg Rest.freeBlocksPc hw.rest_eq)
      (congrArg Rest.blockAddresses hw.rest_eq)
  have hnext : s'.nextBlock = s.nextBlock := congrArg Rest.nextBlock hw.rest_eq
  have hothers : ∀ j, j ≠ i → (s'.slices j).holds b = (s.slices j).holds b := fun j hj => by
    rw [hw.others j hj]
  have hslot : (s.slices i).state ≠ .free → i < nrSlices := fun hstate => by
    by_contra hge
    exact hstate (hbeyond i (not_lt.mp hge))
  cases hx with
  | same hl hfree hlocal hholds =>
    refine pool_congr haddresses hlocal (spare_congr hnext ?_) (fun j a => ?_) b
    · rw [hl, head_takesBlock hfree htasks, htasks]
    · rcases eq_or_ne j i with rfl | hj
      · exact hholds a
      · rw [hw.others j hj]
  | arrived hl hfree hstate hholds =>
    have hsum := sum_slots (hslot (by simp [hstate])) hothers
    have hspare : s'.spare = s.spare := spare_congr hnext (by
      rw [hl, head_takesBlock hfree htasks, htasks])
    have := hholds b
    unfold State.pool
    rw [haddresses, hspare]
    omega
  | stored hl hlocal hstate hholds =>
    have hsum := sum_slots (hslot (by rcases hstate with hstate | hstate <;> simp [hstate])) hothers
    have := hholds b
    unfold State.pool
    rw [haddresses, hlocal, spare_eq_nil hl rfl, spare_eq_next htasks, List.count_singleton,
      List.count_nil]
    simp only [beq_iff_eq]
    omega

/-- Setting up a slot forgets what it holds. -/
theorem initSlice_pool {m : ℤ} {s₁ : State} (hinit : initSlice s i m = .ok s₁) (hi : i < nrSlices)
    (haddresses : s'.freeAddresses = s.freeAddresses) (hlocal : s'.localBlocks = s.localBlocks)
    (hspare : s'.spare = s.spare) (hslices : s'.slices = s₁.slices) (b : ℕ) :
    s'.pool b + (s.slices i).holds b = s.pool b := by
  obtain ⟨-, -, -, guess, -, rfl⟩ := initSlice_ok hinit
  dsimp only at hslices
  have hsum := sum_slots (f := fun j => (s.slices j).holds b) (g := fun j => (s'.slices j).holds b) hi
    fun j hj => by rw [hslices, Function.update_of_ne hj]
  rw [hslices, Function.update_self, Slice.holds_start] at hsum
  unfold State.pool
  rw [haddresses, hlocal, hspare, hslices]
  omega

/-- A step of the network thread forgets blocks only when it sets up a slot. -/
theorem NetMoves.pool (hm : NetMoves s t rest s') (ht : s.tasks = t :: rest) (h : Window s)
    (hq : FecQueue s) (hf : FreeQueue s) (hsends : ∀ msg, .process msg ∈ s.tasks → st.Sends msg) :
    (∀ b, s'.pool b = s.pool b) ∨
    ∃ i m, (t = .findSlice m ∧ i = 0 ∧ s.streaming = true ∧ s.currentSlice = some 0 ∧
        s.currentSliceNo < m ∨ t = .reserve i m) ∧
      ∀ b, s'.pool b + (s.slices i).holds b = s.pool b := by
  have hrest : rest.head?.any Task.takesBlock = false := rest_takesBlock (ht ▸ h.stack.chain)
  have hspare : t.takesBlock = false → s.spare = [s.nextBlock] := fun htakes => by
    rw [spare_eq_next]
    rw [ht]
    exact htakes
  have hretask : t.takesBlock = false → ∀ {l : List Task} {u : State}, u.tasks = l ++ rest →
      (∀ t ∈ l, t.takesBlock = false) → u.nextBlock = s.nextBlock → u.spare = s.spare := by
    intro htakes l u hu hl hnext
    rw [hspare htakes, spare_eq_next (by rw [hu]; exact head_takesBlock hl hrest), hnext]
  have hpopped : t.takesBlock = false → ∀ b, (s.popped rest).pool b = s.pool b := by
    intro htakes b
    have hnext : (s.popped rest).spare = s.spare := hretask htakes (l := []) rfl (by simp) rfl
    have haddresses : (s.popped rest).freeAddresses = s.freeAddresses := rfl
    exact pool_congr haddresses rfl hnext (fun _ _ => rfl) b
  have hsame : t.takesBlock = false → ∀ {l : List Task}, s'.tasks = l ++ rest →
      (∀ t ∈ l, t.takesBlock = false) → s'.nextBlock = s.nextBlock →
      s'.freeBlocksPc = s.freeBlocksPc → s'.blockAddresses = s.blockAddresses →
      s'.localBlocks = s.localBlocks →
      (∀ i a, (s'.slices i).holds a = (s.slices i).holds a) → ∀ b, s'.pool b = s.pool b := by
    intro htakes l hl hfree hnext hpc haddresses hlocal hholds
    exact pool_congr (freeAddresses_congr hpc haddresses) hlocal (hretask htakes hl hfree hnext) hholds
  cases hm with
  | join | lookBack | lookAhead | scanOn | caughtUp | newSlice | toCleanup =>
    exact .inl (hsame rfl (l := [_]) rfl (by simp [Task.takesBlock]) rfl rfl rfl rfl fun _ _ => rfl)
  | @restart m _ s₁ hcurrent hlt hstreaming hinit =>
    refine .inr ⟨0, m, .inl ⟨rfl, rfl, hstreaming, hcurrent, hlt⟩, fun b => ?_⟩
    rw [← hpopped rfl b]
    refine initSlice_pool hinit (by decide) ?_ ?_ ?_ rfl b <;>
      obtain ⟨-, -, -, guess, -, rfl⟩ := initSlice_ok hinit <;> rfl
  | scanFound | scanFree | enqueue | cleaned =>
    exact .inl (hsame rfl (l := []) rfl (by simp) rfl rfl rfl rfl fun _ _ => rfl)
  | behind | lost =>
    exact .inl (hsame rfl (l := [_, _, _]) rfl (by simp [Task.takesBlock]) rfl rfl rfl rfl
      fun _ _ => rfl)
  | fake =>
    exact .inl (hsame rfl (l := [_, _]) rfl (by simp [Task.takesBlock]) rfl rfl rfl rfl fun _ _ => rfl)
  | force hfound hforce =>
    refine .inl fun b => ?_
    rw [← hpopped rfl b]
    exact (completeByForce_exchanges hforce).pool (completeByForce_works hforce).1 hq.beyond hrest b
  | takeSlot =>
    exact .inl (hsame rfl (l := [_]) rfl (by simp [Task.takesBlock]) rfl rfl rfl rfl
      (slot_holds fun a => Slice.holds_congr rfl rfl rfl a))
  | @reserve m i _ _ s₁ hmem hinit =>
    obtain ⟨-, hi⟩ := h.stack.reserved i (by rw [ht]; rfl)
    refine .inr ⟨i, m, .inr rfl, fun b => ?_⟩
    rw [← hpopped rfl b]
    refine initSlice_pool hinit (hi ▸ Nat.mod_lt _ (by decide)) ?_ ?_ ?_ rfl b <;>
      obtain ⟨-, -, -, guess, -, rfl⟩ := initSlice_ok hinit <;> rfl
  | @process msg _ _ hprocess =>
    obtain ⟨j, hj, hworks, -⟩ := process_works_found hprocess
    refine .inl fun b => ?_
    rw [← hpopped rfl b]
    exact (process_exchanges hprocess (hsends msg (ht ▸ List.mem_cons_self)) j hj).pool hworks
      hq.beyond hrest b
  | @reuse i a blocks _ _ hlocal hfinish =>
    refine .inl fun b => ?_
    refine ((finishFecBlock_exchanges hfinish).pool (finishFecBlock_works hfinish).1 hq.beyond hrest
      b).trans ?_
    unfold State.pool
    rw [spare_eq_next hrest, spare_eq_nil ht rfl, hlocal]
    show s.freeAddresses.count b + blocks.count b + [a].count b + _ = _
    simp only [List.count_cons, List.count_nil]
    exact congrArg (· + _) (by omega)
  | waitForBlock =>
    refine .inl (pool_congr rfl rfl ?_ fun _ _ => rfl)
    rw [spare_eq_nil rfl rfl, spare_eq_nil ht rfl]
  | @takeBlock i _ _ hfinish =>
    refine .inl fun b => ?_
    refine ((finishFecBlock_exchanges hfinish).pool (finishFecBlock_works hfinish).1 hq.beyond hrest
      b).trans ?_
    have hlt := hf.taking i rest ht
    have hf' : FreeQueue { s.popped rest with
        nextBlock := s.blockAddresses (pcGetConsumerPosition s.freeBlocksPc)
        freeBlocksPc := pcConsumed s.freeBlocksPc 1
        blocksTaken := s.blocksTaken + 1 } :=
      ⟨hf.queue.pcConsumed hlt, hf.notEnded, fun j tl htl => by
        have hhead := hrest
        rw [show rest = .takeBlock j :: tl from htl] at hhead
        cases hhead⟩
    unfold State.pool
    rw [hf.freeAddresses_eq, ringEntries_cons hlt, hf'.freeAddresses_eq, spare_eq_next hrest,
      spare_eq_nil ht rfl, hf.queue.consumerPosition_eq]
    show (ringEntries s.blockAddresses nrBlocks (s.blocksTaken + 1)
      (nrBlocks + s.blocksReturned)).count b + s.localBlocks.count b + _ + _ = _
    simp only [List.count_cons, List.count_nil]
    exact congrArg (· + _) (by omega)
  | advanceFirst hadvance | advance hadvance =>
    subst hadvance
    unfold Receiver.advance at hsame ⊢
    split
    · rename_i hdone
      rw [if_pos hdone] at hsame
      exact .inl (hsame rfl (l := [_]) rfl (by simp [Task.takesBlock]) rfl rfl rfl rfl fun _ _ => rfl)
    · rename_i hdone
      rw [if_neg hdone] at hsame
      exact .inl (hsame rfl (l := []) rfl (by simp) rfl rfl rfl rfl fun _ _ => rfl)
  | release hpos hstate hclean =>
    rcases cleanupSlices_ok hclean with ⟨-, hslot, -⟩ | ⟨_, _, -, -, -, -, hdata⟩
    · cases hslot
    · rcases hdata with ⟨-, rfl⟩ | ⟨-, q, -, rfl⟩ <;>
        exact .inl (hsame rfl (l := [_]) rfl (by simp [Task.takesBlock]) rfl rfl rfl rfl fun _ _ => rfl)
  | freeSlot hfree =>
    obtain ⟨q, -, rfl⟩ := freeSlot_ok hfree
    exact .inl (hsame rfl (l := [_]) rfl (by simp [Task.takesBlock]) rfl rfl rfl rfl
      (slot_holds fun a => Slice.holds_congr rfl rfl rfl a))

/-- What the network thread does to the queue of free blocks. -/
theorem NetMoves.freeBlocks (hm : NetMoves s t rest s') (ht : s.tasks = t :: rest) (h : Window s) :
    (s'.freeBlocksPc = s.freeBlocksPc ∧ s'.blocksTaken = s.blocksTaken ∨
      (∃ i, t = .takeBlock i) ∧ s'.freeBlocksPc = pcConsumed s.freeBlocksPc 1 ∧
        s'.blocksTaken = s.blocksTaken + 1) ∧
    s'.blocksReturned = s.blocksReturned ∧
    ∀ i tl, s'.tasks = .takeBlock i :: tl → (∃ m, pcConsume s.freeBlocksPc 1 = some m) ∧
      ∀ i, t ≠ .takeBlock i := by
  have hrest : rest.head?.any Task.takesBlock = false := rest_takesBlock (ht ▸ h.stack.chain)
  have hhead : ∀ {l : List Task} {P : Prop}, s'.tasks = l ++ rest → (∀ t ∈ l, ∀ i, t ≠ .takeBlock i) →
      ∀ i tl, s'.tasks = .takeBlock i :: tl → P := by
    intro l P hl hne i tl htl
    rw [hl] at htl
    cases l with
    | nil =>
      rw [show rest = .takeBlock i :: tl from htl] at hrest
      cases hrest
    | cons y l => exact absurd (List.cons.inj htl).1 (hne y List.mem_cons_self i)
  have hworks : ∀ {s₀ i}, Works i s₀ s' → Leaves i s₀ s' → s₀.tasks = rest →
      (s'.freeBlocksPc = s₀.freeBlocksPc ∧ s'.blocksTaken = s₀.blocksTaken ∧
        s'.blocksReturned = s₀.blocksReturned) ∧
      ∀ {P : Prop} i tl, s'.tasks = .takeBlock i :: tl → P := by
    intro s₀ i hw hleaves htasks
    obtain ⟨l, hl, hcase⟩ := hleaves.left
    refine ⟨⟨congrArg Rest.freeBlocksPc hw.rest_eq, congrArg Rest.blocksTaken hw.rest_eq,
      congrArg Rest.blocksReturned hw.rest_eq⟩, hhead (htasks ▸ hl) fun y hy j => ?_⟩
    rcases hcase with rfl | hleft
    · rw [List.mem_singleton.mp hy]
      simp
    · rintro rfl
      exact hleft _ hy
  cases hm with
  | join | lookBack | lookAhead | scanOn | caughtUp | newSlice | takeSlot | toCleanup =>
    exact ⟨.inl ⟨rfl, rfl⟩, rfl, hhead (l := [_]) rfl (by simp)⟩
  | restart hcurrent hlt hstreaming hinit | reserve hmem hinit =>
    obtain ⟨-, -, -, guess, -, rfl⟩ := initSlice_ok hinit
    exact ⟨.inl ⟨rfl, rfl⟩, rfl, hhead (l := []) rfl (by simp)⟩
  | scanFound | scanFree | enqueue | cleaned =>
    exact ⟨.inl ⟨rfl, rfl⟩, rfl, hhead (l := []) rfl (by simp)⟩
  | behind | lost =>
    exact ⟨.inl ⟨rfl, rfl⟩, rfl, hhead (l := [_, _, _]) rfl (by simp)⟩
  | fake => exact ⟨.inl ⟨rfl, rfl⟩, rfl, hhead (l := [_, _]) rfl (by simp)⟩
  | force hfound hforce =>
    obtain ⟨hw, hcompletes⟩ := completeByForce_works hforce
    obtain ⟨⟨hpc, htaken, hreturned⟩, hnever⟩ := hworks hw (leaves_of_complete hcompletes) rfl
    exact ⟨.inl ⟨hpc, htaken⟩, hreturned, hnever⟩
  | process hprocess =>
    obtain ⟨j, -, hw, hleaves⟩ := process_works_found hprocess
    obtain ⟨⟨hpc, htaken, hreturned⟩, hnever⟩ := hworks hw hleaves rfl
    exact ⟨.inl ⟨hpc, htaken⟩, hreturned, hnever⟩
  | reuse hlocal hfinish =>
    obtain ⟨hw, hleaves⟩ := finishFecBlock_works hfinish
    obtain ⟨⟨hpc, htaken, hreturned⟩, hnever⟩ := hworks hw hleaves rfl
    exact ⟨.inl ⟨hpc, htaken⟩, hreturned, hnever⟩
  | waitForBlock hlocal hfree =>
    exact ⟨.inl ⟨rfl, rfl⟩, rfl, fun _ _ _ => ⟨⟨_, hfree⟩, by simp⟩⟩
  | takeBlock hfinish =>
    obtain ⟨hw, hleaves⟩ := finishFecBlock_works hfinish
    obtain ⟨⟨hpc, htaken, hreturned⟩, hnever⟩ := hworks hw hleaves rfl
    exact ⟨.inr ⟨⟨_, rfl⟩, hpc, htaken⟩, hreturned, hnever⟩
  | advanceFirst hadvance | advance hadvance =>
    subst hadvance
    unfold Receiver.advance at hhead ⊢
    split
    · rename_i hdone
      rw [if_pos hdone] at hhead
      exact ⟨.inl ⟨rfl, rfl⟩, rfl, hhead (l := [_]) rfl (by simp)⟩
    · rename_i hdone
      rw [if_neg hdone] at hhead
      exact ⟨.inl ⟨rfl, rfl⟩, rfl, hhead (l := []) rfl (by simp)⟩
  | release hpos hstate hclean =>
    rcases cleanupSlices_ok hclean with ⟨-, hslot, -⟩ | ⟨_, _, -, -, -, -, hdata⟩
    · cases hslot
    · rcases hdata with ⟨-, rfl⟩ | ⟨-, q, -, rfl⟩ <;>
        exact ⟨.inl ⟨rfl, rfl⟩, rfl, hhead (l := [_]) rfl (by simp)⟩
  | freeSlot hfree =>
    obtain ⟨q, -, rfl⟩ := freeSlot_ok hfree
    exact ⟨.inl ⟨rfl, rfl⟩, rfl, hhead (l := [_]) rfl (by simp)⟩

/-- The network thread keeps the queue of free blocks in order, and takes from it in
`setNextBlock` only. -/
theorem FreeQueue.netMoves (hf : FreeQueue s) (hm : NetMoves s t rest s') (ht : s.tasks = t :: rest)
    (h : Window s) : FreeQueue s' := by
  obtain ⟨hqueue, hreturned, htakes⟩ := hm.freeBlocks ht h
  rcases hqueue with ⟨hpc, htaken⟩ | ⟨⟨i, rfl⟩, hpc, htaken⟩
  · refine ⟨by rw [hpc, htaken, hreturned]; exact hf.queue, hpc ▸ hf.notEnded, fun j tl htl => ?_⟩
    obtain ⟨⟨m, hm⟩, -⟩ := htakes j tl htl
    rw [hf.queue.pcConsume_eq, hf.notEnded] at hm
    rw [htaken, hreturned]
    split at hm
    · rename_i hone
      simp only [Bool.false_eq_true, or_false] at hone
      omega
    · cases hm
  · refine ⟨?_, hpc ▸ hf.notEnded, fun j tl htl => absurd rfl ((htakes j tl htl).2 i)⟩
    rw [hpc, htaken, hreturned]
    exact hf.queue.pcConsumed (hf.taking i rest ht)

/-- A block that is given back finds room in the queue of free blocks. -/
theorem FreeQueue.room {a : ℕ} (hf : FreeQueue s)
    (hle : ∀ b, s.pool b ≤ if b < nrBlocks then 1 else 0) (hi : i < nrSlices)
    (hheld : 0 < (s.slices i).holds a) : s.blocksReturned + 1 ≤ s.blocksTaken := by
  have hsum : ∀ b, (s.slices i).holds b ≤ ∑ j ∈ Finset.range nrSlices, (s.slices j).holds b :=
    fun b => Finset.single_le_sum (f := fun j => (s.slices j).holds b) (fun _ _ => Nat.zero_le _)
      (Finset.mem_range.mpr hi)
  have hcount : ∀ b, (a :: s.freeAddresses).count b ≤ if b < nrBlocks then 1 else 0 := by
    intro b
    have hpool := hle b
    have := hsum b
    unfold State.pool at hpool
    rw [List.count_cons]
    simp only [beq_iff_eq]
    rcases eq_or_ne a b with rfl | hne
    · simp only [if_true]
      omega
    · rw [if_neg hne]
      omega
  have hlength := length_le_of_count (n := nrBlocks)
    (fun b => (hcount b).trans (by split <;> simp)) (fun b hb => by
      by_contra hge
      have := List.count_pos_iff.mpr hb
      have hzero := hcount b
      rw [if_neg hge] at hzero
      omega)
  rw [List.length_cons, hf.freeAddresses_eq, ringEntries_length] at hlength
  have := hf.queue.consumed_le
  omega

/-- A block goes from a slot to the free blocks. -/
theorem pool_release {x : Slice} {a : ℕ} (hi : i < nrSlices)
    (hslices : s'.slices = Function.update s.slices i x)
    (hx : ∀ b, (s.slices i).holds b = x.holds b + if a = b then 1 else 0)
    (haddresses : s'.freeAddresses = s.freeAddresses ++ [a]) (hlocal : s'.localBlocks = s.localBlocks)
    (hspare : s'.spare = s.spare) (b : ℕ) : s'.pool b = s.pool b := by
  have hsum := sum_slots (f := fun j => (s.slices j).holds b) (g := fun j => (s'.slices j).holds b) hi
    fun j hj => by rw [hslices, Function.update_of_ne hj]
  have := hx b
  rw [hslices, Function.update_self] at hsum
  unfold State.pool
  rw [haddresses, hlocal, hspare, hslices, List.count_append, List.count_singleton]
  simp only [beq_iff_eq]
  omega

/-- A step of the FEC thread forgets no block. -/
theorem FecMoves.pool (hm : FecMoves s s') (h : Window s) (hq : FecQueue s) (hf : FreeQueue s)
    (hle : ∀ b, s.pool b ≤ if b < nrBlocks then 1 else 0) :
    FreeQueue s' ∧ ∀ b, s'.pool b = s.pool b := by
  have hkeeps : s'.tasks = s.tasks → s'.freeBlocksPc = s.freeBlocksPc →
      s'.blocksTaken = s.blocksTaken → s'.blocksReturned = s.blocksReturned →
      s'.blockAddresses = s.blockAddresses → s'.nextBlock = s.nextBlock →
      s'.localBlocks = s.localBlocks → (∀ i a, (s'.slices i).holds a = (s.slices i).holds a) →
      FreeQueue s' ∧ ∀ b, s'.pool b = s.pool b := by
    intro htasks hpc htaken hreturned haddresses hnext hlocal hholds
    refine ⟨⟨?_, hpc ▸ hf.notEnded, ?_⟩, ?_⟩
    · rw [hpc, htaken, hreturned]
      exact hf.queue
    · rw [htasks, htaken, hreturned]
      exact hf.taking
    · exact pool_congr (freeAddresses_congr hpc haddresses) hlocal
        (spare_congr hnext (by rw [htasks])) hholds
  cases hm with
  | takeDone | decode =>
    exact hkeeps rfl rfl rfl rfl rfl rfl rfl (slot_holds fun a => Slice.holds_congr rfl rfl rfl a)
  | releaseSlice hpc hpos hstate hclean =>
    rcases cleanupSlices_ok hclean with ⟨-, hslot, -⟩ | ⟨_, _, -, -, -, -, hdata⟩
    · cases hslot
    · rcases hdata with ⟨-, rfl⟩ | ⟨-, q, -, rfl⟩ <;>
        exact hkeeps rfl rfl rfl rfl rfl rfl rfl fun _ _ => rfl
  | freeSlot hpc hfree =>
    obtain ⟨q, -, rfl⟩ := freeSlot_ok hfree
    exact hkeeps rfl rfl rfl rfl rfl rfl rfl (slot_holds fun a => Slice.holds_congr rfl rfl rfl a)
  | @freeBlock i stripe k d a q hpc hstripe hlek hk hd ha hq' =>
    have hi : i < nrSlices := by
      by_contra hge
      have hfree := hq.beyond i (not_lt.mp hge)
      rw [h.slots.releasing i stripe k hpc] at hfree
      cases hfree
    subst hd
    have hrelease := (s.slices i).holds_release hstripe hk ha
    have hroom := hf.room hle hi (a := a) (by rw [hrelease, if_pos rfl]; omega)
    obtain ⟨q₁, hq₁, hholds, hend⟩ := hf.queue.pcProduce (n := 1) (by omega)
    rw [hq'] at hq₁
    obtain rfl := Option.some.inj hq₁
    have hf' : FreeQueue { s with
        blockAddresses :=
          Function.update s.blockAddresses (pcGetProducerPosition s.freeBlocksPc) a
        freeBlocksPc := q
        blocksReturned := s.blocksReturned + 1
        fecThread := .release i stripe (k + 1)
        slices := Function.update s.slices i
          { s.slices i with
            fecDescs := Function.update (s.slices i).fecDescs
              (stripe + k * (s.slices i).fecStripes)
              { (s.slices i).fecDescs (stripe + k * (s.slices i).fecStripes) with adr := none } } } :=
      ⟨hholds, hend.trans hf.notEnded, fun j tl htl => Nat.lt_succ_of_lt (hf.taking j tl htl)⟩
    have hentries := ringEntries_concat (f := s.blockAddresses) (x := a) hf.queue.consumed_le
      (show nrBlocks + s.blocksReturned + 1 - s.blocksTaken ≤ nrBlocks by omega)
    refine ⟨hf', pool_release hi rfl hrelease ?_ rfl rfl⟩
    rw [hf'.freeAddresses_eq, hf.freeAddresses_eq, ← hentries, hf.queue.producerPosition_eq]
    rfl
  | _ => exact hkeeps rfl rfl rfl rfl rfl rfl rfl fun _ _ => rfl

end Moves

end Udpcast.Receiver
