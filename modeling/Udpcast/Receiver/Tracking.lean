import Udpcast.Receiver.Conservation

/-!
# The slices of a default receiver

Without streaming and without `FLAG_IGNORE_LOST_DATA`, the counters of a slice stay those of the
slice of that number until its slot is used again, and only a slice of known size with all its
blocks leaves the state in which it is received. The slices are numbered as they are started,
and released to the writer in this order.
-/

namespace Udpcast.Receiver

open Queue
open Protocol

/-- What holds of a slice that has been started, also when its slot has been given back. -/
structure Slice.Tracked (st : Stream) (slice : Slice) : Prop where
  counted : Counted st slice
  unknown : slice.bytesKnown = false → slice.bytes = 0
  complete : slice.state ≠ .receiving →
    slice.bytesKnown = true ∧ slice.blocksTransferred = st.blocks slice.sliceNo.toNat
  done : slice.state = .done → slice.blocksTransferred = slice.dataBlocksTransferred

variable {st : Stream} {s s' : State} {slice : Slice} {i b n bytes : ℕ}

/-- A slice that has just been set up is tracked. -/
theorem Slice.tracked_start (m : ℤ) : (slice.start m 0).Tracked st := by
  refine ⟨.start m 0, fun _ => rfl, ?_, ?_⟩
  · intro hstate
    exact absurd rfl hstate
  · intro hstate
    cases hstate

/-- The number of blocks once the size is known. -/
theorem Counted.getSliceBlocks_eq {config : Config} (h : Counted st slice)
    (hblock : config.blockSize = st.blockSize) (hknown : slice.bytesKnown = true) :
    getSliceBlocks slice config = st.blocks slice.sliceNo.toNat := by
  rw [getSliceBlocks, hblock, h.size hknown]
  rfl

/-- A slice without a size has no blocks. -/
theorem getSliceBlocks_of_unknown {config : Config} (h : slice.bytes = 0) :
    getSliceBlocks slice config = 0 := by
  rw [getSliceBlocks, h, Nat.zero_add]
  rcases Nat.eq_zero_or_pos config.blockSize with hzero | hpos
  · rw [hzero, Nat.div_zero]
  · exact Nat.div_eq_of_lt (by omega)

/-- The state and the place in the ring do not enter into the counters. -/
theorem Counted.restate (h : Counted st slice) (state : SliceState) (base freePos : ℕ) :
    Counted st { slice with state := state, base := base, freePos := freePos } := { h with }

/-- A complete slice changes its state. -/
theorem Slice.Tracked.settled {state : SliceState} (h : slice.Tracked st)
    (hbefore : slice.state ≠ .receiving) (hdone : state ≠ .done) :
    Slice.Tracked st { slice with state := state } :=
  ⟨h.counted.restate state _ _, h.unknown, fun _ => h.complete hbefore, fun hcontra =>
    absurd hcontra hdone⟩

/-- The size in a message is that of the slice. -/
theorem Slice.Tracked.setSliceBytes (h : (s.slices i).Tracked st)
    (hok : Receiver.setSliceBytes s i bytes = .ok s')
    (hbytes : bytes = st.size (s.slices i).sliceNo.toNat) : (s'.slices i).Tracked st := by
  obtain ⟨-, -, rfl⟩ | ⟨hunknown, rfl⟩ := setSliceBytes_ok hok
  · exact h
  · have hreceiving : (s.slices i).state = .receiving := by
      by_contra hstate
      rw [(h.complete hstate).1] at hunknown
      cases hunknown
    dsimp only
    rw [Function.update_self, hbytes]
    refine ⟨h.counted.sized, ?_, ?_, ?_⟩
    · intro hcontra
      cases hcontra
    · intro hstate
      exact absurd hreceiving hstate
    · intro hstate
      cases hreceiving.symm.trans hstate

/-- A slice is complete only when its size is known, or nothing has been counted. -/
theorem Slice.Tracked.checkSliceComplete (h : (s.slices i).Tracked st)
    (hok : Receiver.checkSliceComplete s i = .ok s') (hblock : s.config.blockSize = st.blockSize)
    (hknown : (s.slices i).bytesKnown = true ∨ 0 < (s.slices i).blocksTransferred) :
    (s'.slices i).Tracked st := by
  obtain ⟨-, rfl⟩ | ⟨-, hblocks, state, hstate, rfl⟩ := checkSliceComplete_ok hok
  · exact h
  · have hsize : (s.slices i).bytesKnown = true := by
      by_contra hnot
      have hunknown : (s.slices i).bytesKnown = false := Bool.not_eq_true _ ▸ hnot
      rw [getSliceBlocks_of_unknown (h.unknown hunknown)] at hblocks
      obtain hcontra | hpos := hknown
      · exact hnot hcontra
      · omega
    rw [h.counted.getSliceBlocks_eq hblock hsize] at hblocks
    dsimp only
    rw [Function.update_self]
    refine ⟨h.counted.restate state _ _, h.unknown, fun _ => ⟨hsize, hblocks.symm⟩, ?_⟩
    intro hdone
    obtain ⟨-, hdata⟩ | ⟨hfec, -⟩ := hstate
    · exact hdata
    · cases hfec.symm.trans hdone

/-- So is the size in a data block. -/
theorem Slice.Tracked.noteBytes (h : (s.slices i).Tracked st)
    (hok : Receiver.noteBytes s i bytes = .ok s')
    (hbytes : bytes = st.size (s.slices i).sliceNo.toNat) : (s'.slices i).Tracked st := by
  obtain hset | ⟨-, e, rfl⟩ := noteBytes_ok hok
  · exact h.setSliceBytes hset hbytes
  · exact h

/-- A new data block is counted, and may complete the slice. -/
theorem Slice.Tracked.countData (h : (s.slices i).Tracked st)
    (hok : Receiver.countData s i b = .ok s') (hblock : s.config.blockSize = st.blockSize)
    (hstate : (s.slices i).state = .receiving)
    (hb : b < st.blocks (s.slices i).sliceNo.toNat) (hmap : b ∉ (s.slices i).map) :
    (s'.slices i).Tracked st := by
  obtain ⟨slice, localBlocks, hcount, hcheck⟩ := countData_ok hok
  obtain ⟨hknown, hbytes, hreceiving, hsome⟩ : slice.bytesKnown = (s.slices i).bytesKnown ∧
      slice.bytes = (s.slices i).bytes ∧ slice.state = .receiving ∧ b ∈ slice.map := by
    obtain ⟨-, rfl, -⟩ | ⟨-, _, _, -, -, ⟨-, -, rfl⟩ | ⟨_, _, -, -, -, -, rfl⟩⟩ :=
      countArrival_ok hcount
    · exact ⟨rfl, rfl, hstate, Finset.mem_insert_self ..⟩
    · exact ⟨rfl, rfl, hstate, Finset.mem_insert_self ..⟩
    · exact ⟨rfl, rfl, hstate, Finset.mem_insert_self ..⟩
  refine Slice.Tracked.checkSliceComplete ?_ hcheck hblock (.inr ?_)
  · rw [setSlice_self]
    refine ⟨h.counted.arrive hb hmap hcount, ?_, ?_, ?_⟩
    · intro hunknown
      exact hbytes.trans (h.unknown (hknown ▸ hunknown))
    · intro hcontra
      exact absurd hreceiving hcontra
    · intro hdone
      cases hreceiving.symm.trans hdone
  · -- The block that has arrived is counted.
    have hcounted : ∀ pos, Counted st { slice with
        dataBlocksTransferred := slice.dataBlocksTransferred + 1
        blocksTransferred := slice.blocksTransferred + 1
        freePos := pos } := fun _ => h.counted.arrive hb hmap hcount
    have hcard : 0 < slice.map.card := Finset.card_pos.mpr ⟨b, hsome⟩
    have hsum : 0 ≤ ∑ k ∈ Finset.range slice.fecStripes, (slice.fecBlocks k : ℤ) :=
      Finset.sum_nonneg fun k _ => Int.natCast_nonneg _
    have hblocks := (hcounted 0).blocks
    rw [setSlice_self]
    dsimp only at hblocks ⊢
    omega

/-- So a data block of the stream keeps its slice tracked. -/
theorem Slice.Tracked.processDataBlock (h : (s.slices i).Tracked st)
    (hok : Receiver.processDataBlock s i n b bytes = .ok s')
    (hblock : s.config.blockSize = st.blockSize) (hno : (s.slices i).sliceNo.toNat = n)
    (hbytes : bytes = st.size n) (hb : b < st.blocks n) : (s'.slices i).Tracked st := by
  obtain rfl | ⟨hreceiving, hmap, -, s₁, hnote, hcount⟩ := processDataBlock_ok hok
  · exact h
  · obtain ⟨hslices, hconfig⟩ := copyBlock_slices (s := s) (.ring (adr s (s.slices i) b))
    obtain ⟨hconfig', hmap', hno', hstate'⟩ := noteBytes_frame hnote
    rw [hslices] at hmap' hno' hstate'
    have hnoted : (s₁.slices i).Tracked st := by
      refine Slice.Tracked.noteBytes ?_ hnote ?_
      · rwa [hslices]
      · rw [hslices, hno, hbytes]
    apply hnoted.countData hcount
    · rw [hconfig', hconfig, hblock]
    · rw [hstate', hreceiving]
    · rwa [hno', hno]
    · rwa [hmap']

/-- All FEC blocks of a complete slice are used. -/
theorem Slice.Tracked.full (h : slice.Tracked st) (hstate : slice.state ≠ .receiving) {k : ℕ}
    (hk : k < slice.fecStripes) : slice.fecBlocks k = slice.missingDataBlocks k := by
  by_cases hfec : slice.blocksTransferred = slice.dataBlocksTransferred
  · have hcard : slice.map.card = st.blocks slice.sliceNo.toNat := by
      have hdata := h.counted.data
      have hblocks := (h.complete hstate).2
      omega
    have htotal := sum_missingBelow (Nat.zero_lt_of_lt hk) h.counted.inside
    have hzero : ∑ j ∈ Finset.range slice.fecStripes,
        missingBelow slice.map slice.fecStripes (st.blocks slice.sliceNo.toNat) j = 0 := by
      omega
    have hmissing := h.counted.missing k hk
    rw [Finset.sum_eq_zero_iff.mp hzero k (Finset.mem_range.mpr hk)] at hmissing
    have hle := h.counted.fecBlocks_le k hk
    omega
  · exact (h.counted.full (fun _ => (h.complete hstate).2) hfec).full k hk

/-- A FEC block is counted if it is useful, and does not complete the slice before `setNextBlock`.
-/
theorem Slice.Tracked.countFec {stripes : ℕ} (h : (s.slices i).Tracked st)
    (hok : Receiver.countFec s i stripes b = .ok s') (hblock : s.config.blockSize = st.blockSize)
    (hstripes : (s.slices i).fecStripes = stripes) (hS : (s.slices i).fecStripes ≠ 0) :
    (s'.slices i).Tracked st := by
  have hknown := (h.counted.stripes hS).2
  obtain (⟨-, hcheck⟩ | rfl) | ⟨stripe, hstripe, huseful, hnew, mem, blocks, -, rfl⟩ :=
    countFec_ok hok
  · have hsame : ((s.enter (.advanceReceivedPointer :: cleanupWithoutFec s)).slices i).Tracked st :=
      h
    exact hsame.checkSliceComplete hcheck hblock (.inl hknown)
  · exact h
  · have hlt : stripe < (s.slices i).fecStripes :=
      hstripe ▸ Nat.mod_lt _ (Nat.pos_of_ne_zero hS)
    have hreceiving : (s.slices i).state = .receiving := by
      by_contra hstate
      rw [h.full hstate hlt] at huseful
      exact lt_irrefl _ huseful
    dsimp only
    rw [Function.update_self]
    rw [← hstripes] at hnew ⊢
    refine ⟨h.counted.store hS hstripe huseful hnew, h.unknown, ?_, ?_⟩
    · intro hstate
      exact absurd hreceiving hstate
    · intro hdone
      cases hreceiving.symm.trans hdone

/-- With the first FEC block the missing data blocks of every stripe are counted. -/
theorem Slice.Tracked.initSliceForFec (h : (s.slices i).Tracked st)
    (hblock : s.config.blockSize = st.blockSize) (hzero : (s.slices i).fecStripes = 0)
    (hknown : (s.slices i).bytesKnown = true) :
    ((Receiver.initSliceForFec s i st.stripes).slices i).Tracked st := by
  rw [initSliceForFec_slice, h.counted.getSliceBlocks_eq hblock hknown]
  exact ⟨h.counted.initFec hzero hknown, h.unknown, h.complete, h.done⟩

/-- So a FEC block of the stream keeps its slice tracked. -/
theorem Slice.Tracked.processFecBlock (h : (s.slices i).Tracked st)
    (hok : Receiver.processFecBlock s i st.stripes b bytes = .ok s')
    (hblock : s.config.blockSize = st.blockSize)
    (hbytes : bytes = st.size (s.slices i).sliceNo.toNat) (hstripes : st.stripes ≠ 0) :
    (s'.slices i).Tracked st := by
  obtain rfl | ⟨-, s₁, hset, hcase⟩ := processFecBlock_ok hok
  · exact h
  · have hsized := h.setSliceBytes hset hbytes
    obtain ⟨hconfig, -⟩ := setSliceBytes_frame hset
    have hblock₁ : s₁.config.blockSize = st.blockSize := by rw [hconfig, hblock]
    obtain ⟨hzero, hcount⟩ | ⟨-, -, rfl⟩ | ⟨hne, heq, hcount⟩ := hcase
    · have hinit := hsized.initSliceForFec hblock₁ hzero (setSliceBytes_known hset)
      have hS : ((Receiver.initSliceForFec s₁ i st.stripes).slices i).fecStripes = st.stripes := by
        unfold Receiver.initSliceForFec
        rw [setSlice_self]
      apply hinit.countFec hcount
      · rw [initSliceForFec_config, hblock₁]
      · exact hS
      · rwa [hS]
    · exact hsized
    · exact hsized.countFec hcount hblock₁ heq hne

/-- A REQACK notes the size of the slice, and may complete it. -/
theorem Slice.Tracked.processReqAck {rxmit : ℕ} (h : (s.slices i).Tracked st)
    (hok : Receiver.processReqAck s n bytes rxmit = .ok s')
    (hblock : s.config.blockSize = st.blockSize) (hfound : s.found = some i)
    (hbytes : bytes = st.size (s.slices i).sliceNo.toNat) : (s'.slices i).Tracked st := by
  obtain ⟨-, rfl⟩ | ⟨-, -, rfl⟩ | ⟨-, j, s₁, hj, hset, hcheck⟩ := processReqAck_ok hok
  · exact h
  · exact h
  · obtain rfl := Option.some.inj (hfound.symm.trans hj)
    have hsized := h.setSliceBytes hset hbytes
    obtain ⟨hconfig, -⟩ := setSliceBytes_frame hset
    obtain ⟨msg, hanswer⟩ := answer_eq (s := s₁) (i := i) rxmit
    rw [hanswer] at hcheck
    have hblock₁ : s₁.config.blockSize = st.blockSize := by rw [hconfig, hblock]
    have hsame : (((s₁.send msg).enter
        (.advanceReceivedPointer :: cleanupWithoutFec s₁)).slices i).Tracked st := hsized
    have hknown := setSliceBytes_known hset
    exact hsame.checkSliceComplete hcheck hblock₁ (.inl hknown)

/-- So does every message of the stream. -/
theorem Slice.Tracked.process {msg : ServerMsg} (h : (s.slices i).Tracked st)
    (hok : Receiver.process s msg = .ok s') (hsends : st.Sends msg)
    (hblock : s.config.blockSize = st.blockSize) (hfound : s.found = some i)
    (hno : (s.slices i).sliceNo = sliceNoOf msg) : (s'.slices i).Tracked st := by
  unfold Receiver.process at hok
  cases hsends with
  | data n b hn hb =>
    rw [hfound] at hok
    exact h.processDataBlock hok hblock (by rw [hno]; rfl) rfl hb
  | fec n b payload hn hb hpayload =>
    rw [hfound] at hok
    apply h.processFecBlock hok hblock (by rw [hno]; rfl)
    intro hzero
    simp [hzero] at hb
  | reqack n rxmit readySet hn =>
    exact h.processReqAck hok hblock hfound (by rw [hno]; rfl)
  | hello =>
    obtain rfl := Except.ok.inj hok
    exact h

/-- The end of `processFecBlock` completes the slice if that FEC block was the last one needed. -/
theorem Slice.Tracked.finishFecBlock (h : (s.slices i).Tracked st)
    (hok : Receiver.finishFecBlock s i = .ok s') (hblock : s.config.blockSize = st.blockSize)
    (hknown : (s.slices i).bytesKnown = true) : (s'.slices i).Tracked st := by
  have hfull : (((s.enter [.advanceReceivedPointer]).setSlice i
      { s.slices i with freePos := maxSliceSize }).slices i) =
        { s.slices i with freePos := maxSliceSize } := setSlice_self ..
  refine Slice.Tracked.checkSliceComplete ?_ hok hblock (.inl ?_)
  · rw [hfull]
    exact ⟨h.counted.restate _ _ _, h.unknown, h.complete, h.done⟩
  · rw [hfull]
    exact hknown

/-- The task completes a slice by force. -/
def Task.fakes : Task → Bool
  | .fakeSliceComplete | .fakeFound => true
  | _ => false

/-- What holds of a receiver in default mode, as long as the process runs. -/
structure Plain (st : Stream) (s : State) : Prop where
  keepsData : s.config.ignoreLostData = false
  notStreaming : s.streaming = false
  numbered : s.currentSliceNo + 1 = s.started
  noFake : ∀ t ∈ s.tasks, t.fakes = false
  known : ∀ i, .setNextBlock i ∈ s.tasks ∨ .takeBlock i ∈ s.tasks →
    (s.slices i).bytesKnown = true
  tracked : ∀ i, (s.slices i).sliceNo ≠ -1 → (s.slices i).Tracked st

section Net

variable {t : Task} {rest : List Task}

/-- Work on a slice leaves no task behind that fakes a slice or takes a block. -/
theorem Task.Left.plain {useFec : Bool} (h : t.Left useFec) :
    t.fakes = false ∧ t.takesBlock = false := by
  cases t <;> first | exact ⟨rfl, rfl⟩ | exact h.elim

/-- Among tasks that take no block there is no `setNextBlock`. -/
theorem takesBlock_of_mem {i : ℕ} {l : List Task} (hl : ∀ t ∈ l, t.takesBlock = false) :
    ¬(.setNextBlock i ∈ l ∨ .takeBlock i ∈ l) := by
  rintro (hmem | hmem)
  · cases hl _ hmem
  · cases hl _ hmem

/-- A stored FEC block belongs to a slice of known size. -/
theorem known_of_holds {b : ℕ} (h : slice.Tracked st) (hholds : 0 < slice.holds b) :
    slice.bytesKnown = true := by
  refine (h.counted.stripes ?_).2
  intro hzero
  rw [Slice.holds_of_stripes hzero] at hholds
  exact lt_irrefl _ hholds

/-- A move that leaves the slices and their numbers alone. -/
theorem Plain.retask (h : Plain st s) (hconfig : s'.config = s.config)
    (hstreaming : s'.streaming = s.streaming) (hcsn : s'.currentSliceNo = s.currentSliceNo)
    (hstarted : s'.started = s.started) (hslices : s'.slices = s.slices)
    (htasks : ∀ x ∈ s'.tasks, x ∈ s.tasks ∨ x.fakes = false ∧ x.takesBlock = false) :
    Plain st s' where
  keepsData := by rw [hconfig, h.keepsData]
  notStreaming := by rw [hstreaming, h.notStreaming]
  numbered := by rw [hcsn, hstarted, h.numbered]
  noFake x hx := by
    obtain hmem | ⟨hfakes, -⟩ := htasks x hx
    · exact h.noFake x hmem
    · exact hfakes
  known i hi := by
    rw [hslices]
    obtain hi | hi := hi
    · obtain hmem | ⟨-, htakes⟩ := htasks _ hi
      · exact h.known i (.inl hmem)
      · cases htakes
    · obtain hmem | ⟨-, htakes⟩ := htasks _ hi
      · exact h.known i (.inr hmem)
      · cases htakes
  tracked i hi := by
    rw [hslices] at hi ⊢
    exact h.tracked i hi

/-- A task that waits does not belong to `setNextBlock`. -/
theorem takesBlock_rest (hchain : (t :: rest).IsChain Follows) :
    ∀ x ∈ rest, x.takesBlock = false := by
  induction rest generalizing t with
  | nil => simp
  | cons y rest ih =>
    obtain ⟨hfollows, hrest⟩ := List.isChain_cons_cons.mp hchain
    intro x hx
    rcases List.mem_cons.mp hx with rfl | hx
    · cases x <;> first | rfl | exact hfollows.elim
    · exact ih hrest x hx

/-- Work on the slice in slot `i`. -/
theorem Plain.worked {s₀ : State} (h : Plain st s) (hstack : Stack s) (ht : s.tasks = t :: rest)
    (hw : Works i s₀ s') (hleaves : Leaves i s₀ s')
    (hbefore : s₀.config = s.config ∧ s₀.streaming = s.streaming ∧
      s₀.currentSliceNo = s.currentSliceNo ∧ s₀.started = s.started ∧ s₀.slices = s.slices ∧
      s₀.tasks = rest)
    (htracked : (s.slices i).sliceNo ≠ -1 → (s'.slices i).Tracked st)
    (hknown : s'.tasks = .setNextBlock i :: rest → (s'.slices i).bytesKnown = true) :
    Plain st s' := by
  obtain ⟨hconfig, hstreaming, hcsn, hstarted, hslices, htasks⟩ := hbefore
  obtain ⟨l, heq, hl⟩ := hleaves.left
  rw [htasks] at heq
  have hrest : ∀ x ∈ rest, x.fakes = false ∧ x.takesBlock = false := fun x hx =>
    ⟨h.noFake x (ht ▸ List.mem_cons_of_mem _ hx), takesBlock_rest (ht ▸ hstack.chain) x hx⟩
  have hoff : s₀.streaming = false := by rw [hstreaming, h.notStreaming]
  constructor
  · exact (congrArg (·.config.ignoreLostData) hw.rest_eq).trans (hconfig ▸ h.keepsData)
  · by_contra hon
    rw [hw.streaming (Bool.not_eq_false _ ▸ hon)] at hoff
    cases hoff
  · have hcsn' : s'.currentSliceNo = s₀.currentSliceNo := congrArg Rest.currentSliceNo hw.rest_eq
    have hstarted' : s'.started = s₀.started := congrArg Rest.started hw.rest_eq
    rw [hcsn', hstarted', hcsn, hstarted, h.numbered]
  · intro x hx
    rw [heq] at hx
    rcases List.mem_append.mp hx with hx | hx
    · rcases hl with rfl | hl
      · rw [List.mem_singleton.mp hx]
        rfl
      · exact (hl x hx).plain.1
    · exact (hrest x hx).1
  · intro j hj
    rw [heq] at hj
    rcases hl with rfl | hl
    · obtain hj | hj := hj
      · rcases List.mem_append.mp hj with hj | hj
        · obtain rfl := Task.setNextBlock.inj (List.mem_singleton.mp hj)
          exact hknown heq
        · cases (hrest _ hj).2
      · rcases List.mem_append.mp hj with hj | hj
        · cases List.mem_singleton.mp hj
        · cases (hrest _ hj).2
    · refine absurd hj (takesBlock_of_mem fun x hx => ?_)
      rcases List.mem_append.mp hx with hx | hx
      · exact (hl x hx).plain.2
      · exact (hrest x hx).2
  · intro j hj
    rcases eq_or_ne j i with rfl | hne
    · rw [hw.sliceNo_eq, hslices] at hj
      exact htracked hj
    · rw [hw.others j hne, hslices] at hj ⊢
      exact h.tracked j hj

/-- No message is about slice -1, the number of a slot that has never been used. -/
theorem sliceNoOf_ne {msg : ServerMsg} : sliceNoOf msg ≠ -1 := by
  cases msg <;> simp [sliceNoOf]

/-- The treatment of a message. -/
theorem Plain.process {msg : ServerMsg} (h : Plain st s) (hstack : Stack s)
    (ht : s.tasks = .process msg :: rest) (hsends : st.Sends msg)
    (hblock : s.config.blockSize = st.blockSize)
    (hok : Receiver.process (s.popped rest) msg = .ok s') : Plain st s' := by
  have hrest : rest = [] := rest_of_process (ht ▸ hstack.chain)
  obtain ⟨i, hi, hw, hleaves⟩ := process_works_found hok
  refine h.worked hstack ht hw hleaves ⟨rfl, rfl, rfl, rfl, rfl, rfl⟩ ?_ ?_
  · intro hne
    cases hfound : s.found with
    | none =>
      obtain ⟨hslices, -⟩ := process_unfound hok hfound
      rw [hslices]
      exact h.tracked i hne
    | some j =>
      obtain rfl := hi j hfound
      have hslot : ((s.popped rest).slices j).Tracked st := h.tracked j hne
      exact hslot.process hok hsends hblock hfound (hstack.found msg rest j ht hfound)
  · intro htasks
    have hexchanges := process_exchanges hok hsends i hi
    have hnot : ∀ l : List Task, (∀ x ∈ l, x.takesBlock = false) → s'.tasks ≠ l ++ rest := by
      intro l hl heq
      rw [htasks, hrest, List.append_nil] at heq
      cases hl (.setNextBlock i) (heq ▸ List.mem_cons_self)
    cases hexchanges with
    | same heq hl => exact absurd heq (hnot _ hl)
    | arrived heq hl => exact absurd heq (hnot _ hl)
    | stored _ _ _ hholds =>
      have hstored := hholds s.nextBlock
      rw [show (s.popped rest).nextBlock = s.nextBlock from rfl, if_pos rfl] at hstored
      cases hfound : s.found with
      | none =>
        rw [(process_unfound hok hfound).1] at hstored
        omega
      | some j =>
        obtain rfl := hi j hfound
        have hno := hstack.found msg rest j ht hfound
        have hslot : ((s.popped rest).slices j).Tracked st :=
          h.tracked j (hno ▸ sliceNoOf_ne)
        have htracked := hslot.process hok hsends hblock hfound hno
        exact known_of_holds htracked (b := s.nextBlock) (by omega)

/-- The end of `processFecBlock` does not change whether the size is known. -/
theorem finishFecBlock_bytesKnown (hok : Receiver.finishFecBlock s i = .ok s') :
    (s'.slices i).bytesKnown = (s.slices i).bytesKnown := by
  obtain ⟨-, rfl⟩ | ⟨-, -, state, -, rfl⟩ := checkSliceComplete_ok hok
  · rw [setSlice_self]
  · dsimp only
    rw [Function.update_self, setSlice_self]

/-- The end of `processFecBlock`, after the next block has been set. -/
theorem Plain.finishFecBlock {s₀ : State} (h : Plain st s) (hstack : Stack s)
    (ht : s.tasks = t :: rest) (htask : t = .setNextBlock i ∨ t = .takeBlock i)
    (hblock : s.config.blockSize = st.blockSize) (hok : Receiver.finishFecBlock s₀ i = .ok s')
    (hbefore : s₀.config = s.config ∧ s₀.streaming = s.streaming ∧
      s₀.currentSliceNo = s.currentSliceNo ∧ s₀.started = s.started ∧ s₀.slices = s.slices ∧
      s₀.tasks = rest) : Plain st s' := by
  obtain ⟨hw, hleaves⟩ := finishFecBlock_works hok
  have hknown : (s.slices i).bytesKnown = true := by
    apply h.known i
    rcases htask with rfl | rfl
    · exact .inl (ht ▸ List.mem_cons_self)
    · exact .inr (ht ▸ List.mem_cons_self)
  refine h.worked hstack ht hw hleaves hbefore ?_ ?_
  · intro hne
    have hslot : (s₀.slices i).Tracked st := hbefore.2.2.2.2.1 ▸ h.tracked i hne
    exact hslot.finishFecBlock hok (hbefore.1 ▸ hblock) (hbefore.2.2.2.2.1 ▸ hknown)
  · intro _
    rw [finishFecBlock_bytesKnown hok, hbefore.2.2.2.2.1, hknown]

/-- A slot changes while no task of `setNextBlock` is under way. -/
theorem Plain.update {x : Slice} {s₁ : State} (h : Plain st s₁)
    (hconfig : s'.config = s₁.config) (hstreaming : s'.streaming = s₁.streaming)
    (hcsn : s'.currentSliceNo = s₁.currentSliceNo) (hstarted : s'.started = s₁.started)
    (hslices : s'.slices = Function.update s₁.slices i x)
    (htasks : ∀ y ∈ s'.tasks, y.fakes = false ∧ y.takesBlock = false)
    (hx : x.sliceNo ≠ -1 → x.Tracked st) : Plain st s' where
  keepsData := by rw [hconfig, h.keepsData]
  notStreaming := by rw [hstreaming, h.notStreaming]
  numbered := by rw [hcsn, hstarted, h.numbered]
  noFake y hy := (htasks y hy).1
  known j hj := absurd hj (takesBlock_of_mem fun y hy => (htasks y hy).2)
  tracked j hj := by
    rw [hslices] at hj ⊢
    rcases eq_or_ne j i with rfl | hne
    · rw [Function.update_self] at hj ⊢
      exact hx hj
    · rw [Function.update_of_ne hne] at hj ⊢
      exact h.tracked j hj

/-- Every step of the network thread. -/
theorem Plain.netMoves (h : Plain st s) (hm : NetMoves s t rest s') (ht : s.tasks = t :: rest)
    (hr : Running s) (ha : Accounts st s) : Plain st s' := by
  have hrest : ∀ x ∈ rest, x.fakes = false ∧ x.takesBlock = false := fun x hx =>
    ⟨h.noFake x (ht ▸ List.mem_cons_of_mem _ hx),
      takesBlock_rest (ht ▸ hr.window.stack.chain) x hx⟩
  have hpop : ∀ y ∈ rest, y ∈ s.tasks ∨ y.fakes = false ∧ y.takesBlock = false := fun y hy =>
    .inr (hrest y hy)
  have hpush : ∀ x : Task, x.fakes = false → x.takesBlock = false →
      ∀ y ∈ x :: rest, y.fakes = false ∧ y.takesBlock = false := by
    intro x hfakes htakes y hy
    rcases List.mem_cons.mp hy with rfl | hy
    · exact ⟨hfakes, htakes⟩
    · exact hrest y hy
  have hnext : ∀ x : Task, x.fakes = false → x.takesBlock = false →
      ∀ y ∈ x :: rest, y ∈ s.tasks ∨ y.fakes = false ∧ y.takesBlock = false :=
    fun x hfakes htakes y hy => .inr (hpush x hfakes htakes y hy)
  cases hm with
  | join hcurrent =>
    exfalso
    have hzero : s.started = 0 := by
      by_contra hne
      rw [hr.window.slots.current, if_neg hne] at hcurrent
      cases hcurrent
    obtain ⟨-, x, htasks, hx⟩ := hr.pointer.opening h.notStreaming hzero
    obtain rfl : _ = x := (List.cons.inj (ht.symm.trans htasks)).1
    rcases hx with hx | hx | ⟨j, hx⟩ <;> cases hx
  | lookBack => exact h.retask rfl rfl rfl rfl rfl (hnext _ rfl rfl)
  | restart hcurrent hlt hstreaming hinit =>
    rw [h.notStreaming] at hstreaming
    cases hstreaming
  | lookAhead => exact h.retask rfl rfl rfl rfl rfl (hnext _ rfl rfl)
  | scanFound => exact h.retask rfl rfl rfl rfl rfl hpop
  | scanFree => exact h.retask rfl rfl rfl rfl rfl hpop
  | scanOn => exact h.retask rfl rfl rfl rfl rfl (hnext _ rfl rfl)
  | behind hbehind hignore =>
    rw [h.keepsData] at hignore
    cases hignore
  | lost hbehind hignore =>
    refine h.retask rfl rfl rfl rfl rfl fun y hy => .inr ?_
    simp only [List.mem_cons] at hy
    rcases hy with rfl | rfl | rfl | hy
    · exact ⟨rfl, rfl⟩
    · exact ⟨rfl, rfl⟩
    · exact ⟨rfl, rfl⟩
    · exact hrest y hy
  | caughtUp => exact h.retask rfl rfl rfl rfl rfl (hnext _ rfl rfl)
  | fake => cases h.noFake _ (ht ▸ List.mem_cons_self)
  | force => cases h.noFake _ (ht ▸ List.mem_cons_self)
  | newSlice => exact h.retask rfl rfl rfl rfl rfl (hnext _ rfl rfl)
  | @takeSlot n i _ hi hfree =>
    refine h.update rfl rfl rfl rfl rfl (hpush _ rfl rfl) fun hne => ?_
    obtain ⟨hcounted, hunknown, hcomplete, hdone⟩ := h.tracked i hne
    exact ⟨hcounted.restate _ _ _, hunknown, hcomplete, hdone⟩
  | @reserve n i m _ s₁ hmem hinit =>
    obtain ⟨-, -, hcsn, guess, hguess, rfl⟩ := initSlice_ok hinit
    have hnumber : s.currentSliceNo = n - 1 := hcsn h.notStreaming
    have hbase : Plain st { s with currentSliceNo := n, started := s.started + 1 } := by
      have hnumbered := h.numbered
      refine ⟨h.keepsData, h.notStreaming, ?_, h.noFake, h.known, h.tracked⟩
      push_cast
      omega
    refine hbase.update rfl rfl rfl rfl rfl hrest fun _ => ?_
    rw [hguess h.keepsData]
    exact Slice.tracked_start n
  | @process msg _ _ hprocess =>
    exact h.process hr.window.stack ht (ha.sends msg (ht ▸ List.mem_cons_self)) ha.blockSize
      hprocess
  | reuse hlocal hfinish =>
    exact h.finishFecBlock hr.window.stack ht (.inl rfl) ha.blockSize hfinish
      ⟨rfl, rfl, rfl, rfl, rfl, rfl⟩
  | @waitForBlock i m _ hlocal hfree =>
    have hknown := h.known i (.inl (ht ▸ List.mem_cons_self))
    refine ⟨h.keepsData, h.notStreaming, h.numbered, ?_, ?_, h.tracked⟩
    · intro y hy
      rcases List.mem_cons.mp hy with rfl | hy
      · rfl
      · exact (hrest y hy).1
    · rintro j (hj | hj)
      · rcases List.mem_cons.mp hj with hj | hj
        · cases hj
        · cases (hrest _ hj).2
      · rcases List.mem_cons.mp hj with hj | hj
        · obtain rfl := Task.takeBlock.inj hj
          exact hknown
        · cases (hrest _ hj).2
  | takeBlock hfinish =>
    exact h.finishFecBlock hr.window.stack ht (.inr rfl) ha.blockSize hfinish
      ⟨rfl, rfl, rfl, rfl, rfl, rfl⟩
  | advanceFirst hadvance | advance hadvance =>
    subst hadvance
    unfold Receiver.advance
    split
    · exact h.retask rfl rfl rfl rfl rfl (hnext _ rfl rfl)
    · exact h.retask rfl rfl rfl rfl rfl hpop
  | enqueue => exact h.retask rfl rfl rfl rfl rfl hpop
  | toCleanup => exact h.retask rfl rfl rfl rfl rfl (hnext _ rfl rfl)
  | cleaned => exact h.retask rfl rfl rfl rfl rfl hpop
  | release hpos hstate hclean =>
    obtain ⟨-, hslot, -⟩ | ⟨_, _, -, -, -, -, ⟨-, rfl⟩ | ⟨-, q, -, rfl⟩⟩ := cleanupSlices_ok hclean
    · cases hslot
    · exact h.retask rfl rfl rfl rfl rfl (hnext _ rfl rfl)
    · exact h.retask rfl rfl rfl rfl rfl (hnext _ rfl rfl)
  | @freeSlot pos bytes _ s₁ hfree =>
    obtain ⟨-, -, hstate⟩ := hr.window.stack.netFrees pos bytes rest ht
    obtain ⟨q, -, rfl⟩ := freeSlot_ok hfree
    refine h.update rfl rfl rfl rfl rfl (hpush _ rfl rfl) fun hne => ?_
    exact (h.tracked pos hne).settled (by simp [hstate]) (by simp)

end Net

section Runs

/-- A FEC block is given back. -/
theorem Counted.forget (h : Counted st slice) (d : ℕ) :
    Counted st { slice with
      fecDescs := Function.update slice.fecDescs d { slice.fecDescs d with adr := none } } := by
  have hnumber : ∀ x, (Function.update slice.fecDescs d
      { slice.fecDescs d with adr := none } x).fecBlockNo = (slice.fecDescs x).fecBlockNo := by
    intro x
    rcases eq_or_ne x d with rfl | hne
    · rw [Function.update_self]
    · rw [Function.update_of_ne hne]
  refine { h with congruent := ?_, distinct := ?_ }
  · intro k hk j hj
    rw [hnumber]
    exact h.congruent k hk j hj
  · intro k hk j hj j' hj' heq
    rw [hnumber, hnumber] at heq
    exact h.distinct k hk j hj j' hj' heq

/-- The FEC thread changes a slot. -/
theorem Plain.dealt {x : Slice} (h : Plain st s) (hconfig : s'.config = s.config)
    (hstreaming : s'.streaming = s.streaming) (hcsn : s'.currentSliceNo = s.currentSliceNo)
    (hstarted : s'.started = s.started) (htasks : s'.tasks = s.tasks)
    (hslices : s'.slices = Function.update s.slices i x)
    (hsame : x.bytesKnown = (s.slices i).bytesKnown ∧ x.sliceNo = (s.slices i).sliceNo)
    (hx : (s.slices i).Tracked st → x.Tracked st) : Plain st s' where
  keepsData := by rw [hconfig, h.keepsData]
  notStreaming := by rw [hstreaming, h.notStreaming]
  numbered := by rw [hcsn, hstarted, h.numbered]
  noFake := htasks ▸ h.noFake
  known j hj := by
    have hknown := h.known j (htasks ▸ hj)
    rw [hslices]
    rcases eq_or_ne j i with rfl | hne
    · rw [Function.update_self, hsame.1, hknown]
    · rw [Function.update_of_ne hne, hknown]
  tracked j hj := by
    rw [hslices] at hj ⊢
    rcases eq_or_ne j i with rfl | hne
    · rw [Function.update_self] at hj ⊢
      exact hx (h.tracked j (hsame.2 ▸ hj))
    · rw [Function.update_of_ne hne] at hj ⊢
      exact h.tracked j hj

/-- These facts depend on a part of the state only. -/
theorem Plain.unchanged (h : Plain st s) (hconfig : s'.config = s.config)
    (hstreaming : s'.streaming = s.streaming) (hcsn : s'.currentSliceNo = s.currentSliceNo)
    (hstarted : s'.started = s.started) (hslices : s'.slices = s.slices)
    (htasks : s'.tasks = s.tasks) : Plain st s' :=
  h.retask hconfig hstreaming hcsn hstarted hslices fun _ hx => .inl (htasks ▸ hx)

/-- The FEC thread keeps them: it changes only slices that are complete. -/
theorem Plain.fecMoves (h : Plain st s) (hm : FecMoves s s') (hslots : Slots s) : Plain st s' := by
  cases hm with
  | takeDone hpc hi hstate =>
    refine h.dealt rfl rfl rfl rfl rfl rfl ⟨rfl, rfl⟩ fun htracked => ?_
    exact htracked.settled (by simp [hstate]) (by simp)
  | @decode i mem blocks hpc hdecode =>
    have hstate := hslots.decoding i hpc
    refine h.dealt rfl rfl rfl rfl rfl rfl ⟨rfl, rfl⟩ fun htracked => ?_
    exact htracked.settled (by simp [hstate]) (by simp)
  | @freeBlock i stripe k d b q hpc hstripe hle hk hd hb hq =>
    refine h.dealt rfl rfl rfl rfl rfl rfl ⟨rfl, rfl⟩ fun htracked => ?_
    exact ⟨htracked.counted.forget d, htracked.unknown, htracked.complete, htracked.done⟩
  | releaseSlice hpc hpos hstate hclean =>
    obtain ⟨-, hslot, -⟩ | ⟨_, _, -, -, -, -, ⟨-, rfl⟩ | ⟨-, q, -, rfl⟩⟩ := cleanupSlices_ok hclean
    · cases hslot
    · exact h.unchanged rfl rfl rfl rfl rfl rfl
    · exact h.unchanged rfl rfl rfl rfl rfl rfl
  | @freeSlot pos bytes s₁ hpc hfree =>
    obtain ⟨-, -, hstate⟩ := hslots.fecFrees pos bytes hpc
    obtain ⟨q, -, rfl⟩ := freeSlot_ok hfree
    refine h.dealt rfl rfl rfl rfl rfl rfl ⟨rfl, rfl⟩ fun htracked => ?_
    exact htracked.settled (by simp [hstate]) (by simp)
  | _ => exact h.unchanged rfl rfl rfl rfl rfl rfl

/-- So does every move of a receiver in default mode. -/
theorem Plain.moves {a : Action} (h : Plain st s) (hr : Running s) (ha : Accounts st s)
    (hm : Moves s a s') : Plain st s' := by
  cases hm with
  | @receive msg mem blocks hidle hend =>
    refine h.retask rfl rfl rfl rfl rfl fun x hx => .inr ?_
    cases msg <;> simp only [dispatch, List.mem_cons, List.not_mem_nil, or_false] at hx
    · rcases hx with rfl | rfl <;> exact ⟨rfl, rfl⟩
    · rcases hx with rfl | rfl <;> exact ⟨rfl, rfl⟩
    · rcases hx with rfl | rfl <;> exact ⟨rfl, rfl⟩
  | exitWait => exact h.unchanged rfl rfl rfl rfl rfl rfl
  | net ht hm => exact h.netMoves hm ht hr ha
  | fec hm => exact h.fecMoves hm hr.window.slots
  | writer hm => cases hm <;> exact h.unchanged rfl rfl rfl rfl rfl rfl

/-- At the start they hold of the slots that have never been used. -/
theorem plain_start (h : Starts st defaultMode s) : Plain st s := by
  obtain ⟨config, streaming, mem, blockData, -, -, ⟨hignore, rfl⟩, hstart⟩ := h
  obtain ⟨_, _, _, -, -, -, rfl⟩ := start_eq hstart
  refine ⟨hignore, rfl, rfl, ?_, ?_, ?_⟩
  · intro x hx
    obtain rfl := List.mem_singleton.mp hx
    rfl
  · rintro i (hi | hi) <;> cases List.mem_singleton.mp hi
  · intro i hi
    exact absurd rfl hi

/-- The facts about the states of a running receiver in default mode. -/
structure Settled (st : Stream) (s : State) : Prop extends Running s where
  accounts : Accounts st s
  plain : Plain st s

/-- So all these facts hold as long as the receiver runs. -/
theorem settled_of_reachable (h : (system st defaultMode).Reachable s)
    (hrunning : s.failure = none) : Settled st s := by
  refine ⟨running_facts h hrunning, accounts_of_reachable h hrunning, ?_⟩
  refine running_of_reachable
    (Q := fun s => Running s ∧ Accounts st s)
    (fun s hs hrun => ⟨running_facts hs hrun, accounts_of_reachable hs hrun⟩)
    (fun _ => plain_start) ?_ h hrunning
  intro s s' a hr hplain _ hm
  exact hplain.moves hr.1 hr.2 hm

end Runs

end Udpcast.Receiver
