import Udpcast.Receiver.Seeking

/-!
# What a message stores

A data block goes to its place in the ring, a FEC block becomes the next block of the pool. All
other work on a slice leaves the memory alone, and the FEC blocks that remain are those of before.
-/

namespace Udpcast.Receiver

open Fec (Gf Block)
open Queue
open Protocol

/-- The FEC blocks that the slice holds are in the pool. -/
def Slice.Stocked (st : Stream) (blockData : ℕ → Block) (slice : Slice) : Prop :=
  ∀ k < slice.fecStripes, ∀ j < slice.fecBlocks k,
    HasFecBlock st blockData slice.sliceNo.toNat (slice.fecDescs (k + j * slice.fecStripes))

/-- The FEC blocks of a slice in use are at hand, and it is decoded only for a reason. -/
structure Slice.Repairable (st : Stream) (blockData : ℕ → Block) (slice : Slice) : Prop where
  stocked : slice.state = .receiving ∨ slice.state = .fec → slice.Stocked st blockData
  lacks : slice.state = .fec → slice.blocksTransferred ≠ slice.dataBlocksTransferred

/-- Neither the ring nor the pool has changed. -/
structure SameMemory (s s' : State) : Prop where
  ring : s'.dataBuffer = s.dataBuffer
  pool : s'.blockData = s.blockData

variable {st : Stream} {s s' s'' : State} {slice slice' : Slice} {blockData : ℕ → Block}
  {i b n bytes stripes : ℕ}

/-- To do nothing changes no memory. -/
theorem SameMemory.refl (s : State) : SameMemory s s := ⟨rfl, rfl⟩

/-- Two pieces of work that change none. -/
theorem SameMemory.trans (h : SameMemory s s') (h' : SameMemory s' s'') : SameMemory s s'' :=
  ⟨h'.ring.trans h.ring, h'.pool.trans h.pool⟩

/-! ## Functions that store nothing -/

/-- Noting the size changes no memory. -/
theorem setSliceBytes_memory (h : setSliceBytes s i bytes = .ok s') : SameMemory s s' := by
  obtain ⟨-, -, rfl⟩ | ⟨-, rfl⟩ := setSliceBytes_ok h
  · exact .refl _
  · exact ⟨rfl, rfl⟩

/-- Nor does the size that a data block carries. -/
theorem noteBytes_memory (h : noteBytes s i bytes = .ok s') : SameMemory s s' := by
  obtain hset | ⟨-, e, rfl⟩ := noteBytes_ok h
  · exact setSliceBytes_memory hset
  · exact ⟨rfl, rfl⟩

/-- Nor does completing the slice. -/
theorem checkSliceComplete_memory (h : checkSliceComplete s i = .ok s') : SameMemory s s' := by
  obtain ⟨-, rfl⟩ | ⟨-, -, state, -, rfl⟩ := checkSliceComplete_ok h
  · exact .refl _
  · exact ⟨rfl, rfl⟩

/-- Nor does counting a data block. -/
theorem countData_memory (h : countData s i b = .ok s') : SameMemory s s' := by
  obtain ⟨slice, localBlocks, -, hcheck⟩ := countData_ok h
  exact ⟨(checkSliceComplete_memory hcheck).ring, (checkSliceComplete_memory hcheck).pool⟩

/-- Nor does the end of `processFecBlock`. -/
theorem finishFecBlock_memory (h : finishFecBlock s i = .ok s') : SameMemory s s' :=
  ⟨(checkSliceComplete_memory h).ring, (checkSliceComplete_memory h).pool⟩

/-- Nor does the first FEC block, before it is stored. -/
theorem initSliceForFec_memory (s : State) (i stripes : ℕ) :
    SameMemory s (initSliceForFec s i stripes) := by
  unfold initSliceForFec
  dsimp only
  split <;> exact ⟨rfl, rfl⟩

/-- The FEC blocks at hand depend on the number, the counts and the descriptors of the slice. -/
theorem Slice.Stocked.congr (h : slice.Stocked st blockData)
    (hsliceNo : slice'.sliceNo = slice.sliceNo) (hstripes : slice'.fecStripes = slice.fecStripes)
    (hblocks : slice'.fecBlocks = slice.fecBlocks) (hdescs : slice'.fecDescs = slice.fecDescs) :
    slice'.Stocked st blockData := by
  unfold Slice.Stocked
  rw [hsliceNo, hstripes, hblocks, hdescs]
  exact h

/-- Noting the size keeps the FEC blocks at hand. -/
theorem setSliceBytes_repairable (h : setSliceBytes s i bytes = .ok s')
    (hr : (s.slices i).Repairable st blockData) : (s'.slices i).Repairable st blockData := by
  rw [setSliceBytes_slice h]
  exact ⟨fun hstate => (hr.stocked hstate).congr rfl rfl rfl rfl, hr.lacks⟩

/-- So does the size that a data block carries. -/
theorem noteBytes_repairable (h : noteBytes s i bytes = .ok s')
    (hr : (s.slices i).Repairable st blockData) : (s'.slices i).Repairable st blockData := by
  obtain hset | ⟨-, e, rfl⟩ := noteBytes_ok h
  · exact setSliceBytes_repairable hset hr
  · exact hr

/-- A slice that is completed with FEC blocks lacks data blocks. -/
theorem checkSliceComplete_repairable (h : checkSliceComplete s i = .ok s')
    (hr : (s.slices i).Repairable st blockData) : (s'.slices i).Repairable st blockData := by
  obtain ⟨-, rfl⟩ | ⟨hreceiving, -, state, hstate, rfl⟩ := checkSliceComplete_ok h
  · exact hr
  · dsimp only
    rw [Function.update_self]
    refine ⟨fun _ => (hr.stocked (.inl hreceiving)).congr rfl rfl rfl rfl, fun hfec => ?_⟩
    obtain ⟨rfl, -⟩ | ⟨-, -, hlacks⟩ := hstate
    · cases hfec
    · exact hlacks

/-- Completing a slice leaves its map alone. -/
theorem checkSliceComplete_map (h : checkSliceComplete s i = .ok s') :
    (s'.slices i).map = (s.slices i).map := by
  obtain ⟨-, rfl⟩ | ⟨-, -, state, -, rfl⟩ := checkSliceComplete_ok h
  · rfl
  · dsimp only
    rw [Function.update_self]

/-- The end of `processFecBlock` keeps the FEC blocks at hand. -/
theorem finishFecBlock_repairable (h : finishFecBlock s i = .ok s')
    (hr : (s.slices i).Repairable st blockData) : (s'.slices i).Repairable st blockData := by
  apply checkSliceComplete_repairable h
  rw [setSlice_self]
  exact ⟨fun hstate => (hr.stocked hstate).congr rfl rfl rfl rfl, hr.lacks⟩

/-- It leaves the map alone. -/
theorem finishFecBlock_map (h : finishFecBlock s i = .ok s') :
    (s'.slices i).map = (s.slices i).map := by
  apply (checkSliceComplete_map h).trans
  rw [setSlice_self]

/-! ## A data block -/

/-- A FEC block that is given up is the last one of its stripe. -/
theorem countArrival_stocked {l l' : List ℕ} (h : countArrival slice l b = .ok (slice', l'))
    (hstocked : slice.Stocked st blockData) : slice'.Stocked st blockData := by
  obtain ⟨-, rfl, -⟩ | ⟨hS, stripe, missing, hstripe, -, ⟨-, -, rfl⟩ |
    ⟨k, adr, hk, -, -, -, rfl⟩⟩ := countArrival_ok h
  · exact hstocked
  · exact hstocked.congr rfl rfl rfl rfl
  · have hlt : stripe < slice.fecStripes := hstripe ▸ Nat.mod_lt _ (Nat.pos_of_ne_zero hS)
    intro k' hk' j hj
    dsimp only at hk' hj ⊢
    have hother : k' + j * slice.fecStripes ≠ stripe + k * slice.fecStripes := by
      intro heq
      obtain ⟨rfl, rfl⟩ := row_inj hk' hlt heq
      rw [Function.update_self] at hj
      exact lt_irrefl _ hj
    rw [Function.update_of_ne hother]
    apply hstocked k' hk' j
    rcases eq_or_ne k' stripe with rfl | hne
    · rw [Function.update_self] at hj
      omega
    · rwa [Function.update_of_ne hne] at hj

variable (st) in
/-- What becomes of a data block. -/
theorem processDataBlock_stores (h : processDataBlock s i n b bytes = .ok s') :
    s' = s ∨ ((s.slices i).state = .receiving ∧ b ∉ (s.slices i).map ∧
      SameMemory (s.copyBlock (.ring (adr s (s.slices i) b))) s' ∧
      (s'.slices i).map = insert b (s.slices i).map ∧
      (∀ blockData, (s.slices i).Repairable st blockData →
        (s'.slices i).Repairable st blockData)) := by
  obtain rfl | ⟨hstate, hmap, -, s₁, hnote, hcount⟩ := processDataBlock_ok h
  · exact .inl rfl
  · refine .inr ⟨hstate, hmap, (noteBytes_memory hnote).trans (countData_memory hcount), ?_, ?_⟩
    · obtain ⟨slice, localBlocks, harrival, hcheck⟩ := countData_ok hcount
      rw [checkSliceComplete_map hcheck, setSlice_self, (countArrival_keeps harrival).2.1]
      dsimp only
      rw [(noteBytes_frame hnote).2.1, (copyBlock_slices _).1]
    · intro blockData hr
      obtain ⟨slice, localBlocks, harrival, hcheck⟩ := countData_ok hcount
      have hnoted : (s₁.slices i).Repairable st blockData := by
        apply noteBytes_repairable hnote
        rwa [(copyBlock_slices _).1]
      have hreceiving : (s₁.slices i).state = .receiving := by
        rw [(noteBytes_frame hnote).2.2.2, (copyBlock_slices _).1, hstate]
      have hslice : slice.Stocked st blockData :=
        countArrival_stocked harrival ((hnoted.stocked (.inl hreceiving)).congr rfl rfl rfl rfl)
      apply checkSliceComplete_repairable hcheck
      rw [setSlice_self]
      refine ⟨fun _ => hslice.congr rfl rfl rfl rfl, fun hfec => ?_⟩
      have hkept : slice.state = .receiving := (countArrival_place harrival).2.2.trans hreceiving
      rw [hkept] at hfec
      cases hfec

/-! ## A FEC block -/

/-- What becomes of a FEC block: it stores nothing, or it becomes the last one of its stripe. -/
inductive StoresFec (st : Stream) (s s' : State) (i b : ℕ) : Prop
  | useless (hmemory : SameMemory s s')
    (hrepairable : ∀ blockData, (s.slices i).Repairable st blockData →
      (s'.slices i).Repairable st blockData)
  | stored (hmemory : SameMemory (s.copyBlock (.pool s.nextBlock)) s')
    (hstate : (s.slices i).state ≠ .fec)
    (hlt : b % (s'.slices i).fecStripes < (s'.slices i).fecStripes)
    (hpos : 0 < (s'.slices i).fecBlocks (b % (s'.slices i).fecStripes))
    (hrepairable : ∀ blockData, (s.slices i).Repairable st blockData →
      st.IsFecBlock (s.slices i).sliceNo.toNat b (blockData s.nextBlock) →
        (s'.slices i).Repairable st blockData)

/-- A new FEC block comes behind those of its stripe. -/
theorem Slice.Stocked.store {k a : ℕ} (h : slice.Stocked st blockData) (hk : k < slice.fecStripes)
    (hblock : st.IsFecBlock slice.sliceNo.toNat b (blockData a)) :
    Slice.Stocked st blockData { slice with
      fecDescs := Function.update slice.fecDescs (slice.fecBlocks k * slice.fecStripes + k)
        ⟨some a, b⟩
      fecBlocks := Function.update slice.fecBlocks k (slice.fecBlocks k + 1)
      blocksTransferred := slice.blocksTransferred + 1 } := by
  intro k' hk' j hj
  dsimp only at hk' hj ⊢
  rw [Nat.add_comm (_ * _) k]
  by_cases hsame : k' = k ∧ j = slice.fecBlocks k
  · obtain ⟨rfl, rfl⟩ := hsame
    rw [Function.update_self]
    exact ⟨a, rfl, hblock⟩
  · have hother : k' + j * slice.fecStripes ≠ k + slice.fecBlocks k * slice.fecStripes :=
      fun heq => hsame (row_inj hk' hk heq)
    rw [Function.update_of_ne hother]
    apply h k' hk' j
    rcases eq_or_ne k' k with rfl | hne
    · rw [Function.update_self] at hj
      have hneq : j ≠ slice.fecBlocks k' := fun heq => hsame ⟨rfl, heq⟩
      omega
    · rwa [Function.update_of_ne hne] at hj

variable (st) in
/-- A FEC block that is useful is copied to the next block of the pool, and becomes the last one
of its stripe. -/
theorem countFec_stores (h : countFec s i stripes b = .ok s') (hS : (s.slices i).fecStripes = stripes)
    (hne : stripes ≠ 0) (hstate : (s.slices i).state ≠ .fec) :
    StoresFec st s s' i b ∧ (s'.slices i).map = (s.slices i).map := by
  obtain (⟨-, hcheck⟩ | rfl) | ⟨stripe, hstripe, -, -, mem, blocks, hcopy, rfl⟩ := countFec_ok h
  · have hmemory := checkSliceComplete_memory hcheck
    exact ⟨.useless ⟨hmemory.ring, hmemory.pool⟩ fun _ hr => checkSliceComplete_repairable hcheck hr,
      (checkSliceComplete_map hcheck :)⟩
  · exact ⟨.useless (.refl _) fun _ => id, rfl⟩
  · have hlt : stripe < (s.slices i).fecStripes := by
      rw [hstripe, hS]
      exact Nat.mod_lt _ (Nat.pos_of_ne_zero hne)
    refine ⟨.stored ⟨by rw [hcopy], by rw [hcopy]⟩ hstate ?_ ?_ ?_, ?_⟩
    · dsimp only
      rwa [Function.update_self, ← hstripe]
    · dsimp only
      rw [Function.update_self]
      dsimp only
      rw [← hstripe, Function.update_self]
      exact Nat.succ_pos _
    · intro blockData hr hblock
      dsimp only
      rw [Function.update_self, ← hS]
      refine ⟨fun hactive => (hr.stocked hactive).store hlt hblock, fun hfec => absurd hfec hstate⟩
    · dsimp only
      rw [Function.update_self]

/-- What has been done before does not count, as long as it changes no memory. -/
theorem StoresFec.after (h : StoresFec st s' s'' i b) (hmemory : SameMemory s s')
    (hplace : s'.isAddress = s.isAddress ∧ s'.nextBlock = s.nextBlock ∧ s'.config = s.config)
    (hsliceNo : (s'.slices i).sliceNo = (s.slices i).sliceNo)
    (hstate : (s'.slices i).state = (s.slices i).state)
    (hrepairable : ∀ blockData, (s.slices i).Repairable st blockData →
      (s'.slices i).Repairable st blockData) : StoresFec st s s'' i b := by
  obtain ⟨haddress, hnext, hconfig⟩ := hplace
  cases h with
  | useless hmemory' hr => exact .useless (hmemory.trans hmemory') fun _ h => hr _ (hrepairable _ h)
  | stored hmemory' hnotFec hlt hpos hr =>
    refine .stored (SameMemory.trans ?_ hmemory') (hstate ▸ hnotFec) hlt hpos fun blockData h hblock => ?_
    · unfold State.copyBlock State.store
      rw [haddress, hnext, hconfig]
      split
      · exact hmemory
      · refine ⟨hmemory.ring, ?_⟩
        dsimp only
        unfold State.byteAt
        rw [hmemory.pool, hmemory.ring, hconfig]
    · exact hr _ (hrepairable _ h) (by rwa [hsliceNo, hnext])

variable (st) in
/-- So a FEC block is stored in the pool, or stores nothing. -/
theorem processFecBlock_stores (h : processFecBlock s i stripes b bytes = .ok s')
    (hne : stripes ≠ 0) :
    StoresFec st s s' i b ∧ (s'.slices i).map = (s.slices i).map := by
  obtain rfl | ⟨hstate, s₁, hset, hcase⟩ := processFecBlock_ok h
  · exact ⟨.useless (.refl _) fun _ => id, rfl⟩
  · have hmemory := setSliceBytes_memory hset
    obtain ⟨hw, -, hsame⟩ := setSliceBytes_works hset
    have hframe := setSliceBytes_frame hset
    have hplace : s₁.isAddress = s.isAddress ∧ s₁.nextBlock = s.nextBlock ∧ s₁.config = s.config :=
      ⟨congrArg Rest.isAddress hw.rest_eq, congrArg Rest.nextBlock hw.rest_eq,
        congrArg Rest.config hw.rest_eq⟩
    have hnotFec : (s₁.slices i).state ≠ .fec := by
      rw [hsame]
      rcases hstate with hstate | hstate <;> simp [hstate]
    obtain ⟨-, hcount⟩ | ⟨-, -, rfl⟩ | ⟨-, hS, hcount⟩ := hcase
    · obtain ⟨hwinit, -, -, hsame'⟩ := initSliceForFec_works s₁ i stripes
      have hslice := initSliceForFec_slice s₁ i stripes
      obtain ⟨hstores, hmap⟩ := countFec_stores st hcount (by rw [hslice]) hne
        (hsame' ▸ hnotFec)
      refine ⟨(hstores.after (initSliceForFec_memory s₁ i stripes) ⟨congrArg Rest.isAddress
        hwinit.rest_eq, congrArg Rest.nextBlock hwinit.rest_eq, congrArg Rest.config hwinit.rest_eq⟩
        hwinit.sliceNo_eq hsame' fun blockData hr => ?_).after hmemory hplace hw.sliceNo_eq hsame
        fun _ => setSliceBytes_repairable hset, ?_⟩
      · rw [hslice]
        refine ⟨fun _ k hk j hj => ?_, hr.lacks⟩
        dsimp only at hk hj
        rw [if_pos hk] at hj
        cases hj
      · rw [hmap, hslice]
        exact hframe.2.1
    · exact ⟨.useless hmemory fun _ => setSliceBytes_repairable hset, hframe.2.1⟩
    · obtain ⟨hstores, hmap⟩ := countFec_stores st hcount hS hne hnotFec
      exact ⟨hstores.after hmemory hplace hw.sliceNo_eq hsame fun _ => setSliceBytes_repairable hset,
        hmap.trans hframe.2.1⟩

variable (st) in
/-- An answer to the sender stores nothing. -/
theorem processReqAck_stores {rxmit : ℕ} (h : processReqAck s n bytes rxmit = .ok s')
    (hfound : ∀ j, s.found = some j → j = i) :
    SameMemory s s' ∧ (s'.slices i).map = (s.slices i).map ∧
      ∀ blockData, (s.slices i).Repairable st blockData →
        (s'.slices i).Repairable st blockData := by
  obtain ⟨-, rfl⟩ | ⟨-, -, rfl⟩ | ⟨-, j, s₁, hj, hset, hcheck⟩ := processReqAck_ok h
  · exact ⟨.refl _, rfl, fun _ => id⟩
  · exact ⟨⟨rfl, rfl⟩, rfl, fun _ => id⟩
  · obtain rfl := hfound j hj
    obtain ⟨msg, hanswer⟩ := answer_eq (s := s₁) (i := j) rxmit
    rw [hanswer] at hcheck
    have hmemory := checkSliceComplete_memory hcheck
    refine ⟨(setSliceBytes_memory hset).trans ⟨hmemory.ring, hmemory.pool⟩,
      (checkSliceComplete_map hcheck).trans (setSliceBytes_frame hset).2.1, fun blockData hr => ?_⟩
    have hsized := setSliceBytes_repairable hset hr
    exact checkSliceComplete_repairable hcheck hsized

end Udpcast.Receiver
