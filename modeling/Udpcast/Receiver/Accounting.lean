import Udpcast.Receiver.Counting

/-!
# The accounting of the slices in use

The counters of every slice that is being received or decoded are exact in every state that
a receiver of a stream reaches, and no assertion about them fails.
-/

namespace Udpcast.Receiver

open Queue
open Protocol

/-- What holds of a slice while it is being received and until it is decoded. -/
structure Slice.Sound (st : Stream) (slice : Slice) : Prop where
  receiving : slice.state = .receiving → Counted st slice ∧ slice.Held
  fec : slice.state = .fec → slice.Full st ∧ slice.Held

/-- Work that keeps a slice sound, and leaves it alone once it is decoded. -/
structure Preserves (st : Stream) (slice slice' : Slice) : Prop where
  sound : slice.Sound st → slice'.Sound st
  kept : slice.state = .fecDone → slice.Full st → ∃ pos, slice' = { slice with freePos := pos }

/-- The blocks that `fecMain` has not given back yet have their places in the pool. -/
def Slice.Releases (slice : Slice) (stripe k : ℕ) : Prop :=
  ∀ k' < slice.fecStripes, ∀ j < slice.fecBlocks k', stripe < k' ∨ stripe = k' ∧ k ≤ j →
    (slice.fecDescs (k' + j * slice.fecStripes)).adr ≠ none

/-- The slices in use are sound. -/
structure Accounts (st : Stream) (s : State) : Prop where
  blockSize : s.config.blockSize = st.blockSize
  bufSize : s.dataBufSize = st.blockSize * 4096
  sound : ∀ i, (s.slices i).Sound st
  releasing : ∀ i stripe k, s.fecThread = .release i stripe k →
    (s.slices i).Full st ∧ (s.slices i).Releases stripe k
  sends : ∀ msg, .process msg ∈ s.tasks → st.Sends msg

variable {st : Stream} {s s' : State} {slice slice' slice'' : Slice} {i b n bytes : ℕ}

/-- To do nothing keeps a slice sound. -/
theorem Preserves.refl : Preserves st slice slice := ⟨id, fun _ _ => ⟨slice.freePos, rfl⟩⟩

/-- Two pieces of work that keep it sound. -/
theorem Preserves.trans (h : Preserves st slice slice') (h' : Preserves st slice' slice'') :
    Preserves st slice slice'' := by
  refine ⟨h'.sound ∘ h.sound, fun hstate hfull => ?_⟩
  obtain ⟨pos, rfl⟩ := h.kept hstate hfull
  obtain ⟨pos', rfl⟩ := h'.kept hstate { hfull with counted := { hfull.counted with } }
  exact ⟨pos', rfl⟩

/-- The slice is the same. -/
theorem Preserves.of_eq (h : slice' = slice) : Preserves st slice slice' := h ▸ .refl

/-- The search position among the FEC places does not matter. -/
theorem Slice.Sound.freePos {pos : ℕ} (h : slice.Sound st) :
    Slice.Sound st { slice with freePos := pos } :=
  ⟨fun hstate => ⟨{ (h.receiving hstate).1 with }, (h.receiving hstate).2⟩, fun hstate =>
    ⟨{ (h.fec hstate).1 with counted := { (h.fec hstate).1.counted with } }, (h.fec hstate).2⟩⟩

/-- A slice that is neither being received nor waiting for decoding has no account to keep. -/
theorem Slice.Sound.of_state (hreceiving : slice.state ≠ .receiving) (hfec : slice.state ≠ .fec) :
    slice.Sound st :=
  ⟨fun hstate => absurd hstate hreceiving, fun hstate => absurd hstate hfec⟩

/-- The size in a message is that of the slice. -/
theorem setSliceBytes_preserves (h : setSliceBytes s i bytes = .ok s')
    (hbytes : bytes = st.size (s.slices i).sliceNo.toNat) :
    Preserves st (s.slices i) (s'.slices i) := by
  rcases setSliceBytes_ok h with ⟨-, -, rfl⟩ | ⟨hunknown, rfl⟩
  · exact .refl
  · dsimp only
    rw [Function.update_self, hbytes]
    refine ⟨fun hsound => ⟨fun hstate => ?_, fun hstate => ?_⟩, fun _ hfull => ?_⟩
    · obtain ⟨hcounted, hheld⟩ := hsound.receiving hstate
      exact ⟨hcounted.sized, hheld⟩
    · obtain ⟨hfull, -⟩ := hsound.fec hstate
      rw [(hfull.counted.stripes hfull.stripes_ne).2] at hunknown
      cases hunknown
    · rw [(hfull.counted.stripes hfull.stripes_ne).2] at hunknown
      cases hunknown

/-- A slice is completed with exact counters: if FEC blocks were counted, they make up for what is
missing. -/
theorem checkSliceComplete_preserves (h : checkSliceComplete s i = .ok s')
    (hblock : s.config.blockSize = st.blockSize) : Preserves st (s.slices i) (s'.slices i) := by
  rcases checkSliceComplete_ok h with ⟨-, rfl⟩ | ⟨hreceiving, hblocks, state, hstate, rfl⟩
  · exact .refl
  · dsimp only
    rw [Function.update_self]
    refine ⟨fun hsound => ?_, fun hdone => by rw [hreceiving] at hdone; cases hdone⟩
    obtain ⟨hcounted, hheld⟩ := hsound.receiving hreceiving
    rcases hstate with ⟨rfl, -⟩ | ⟨rfl, -, hfec⟩
    · exact .of_state (by simp) (by simp)
    · refine ⟨fun hcontra => (by cases hcontra), fun _ => ⟨?_, hheld⟩⟩
      have hfull := hcounted.full (fun hpos => ?_) hfec
      · exact { hfull with counted := { hfull.counted with } }
      · rw [← hblocks, getSliceBlocks, Stream.blocks, hblock,
          hcounted.size (hcounted.stripes hpos.ne').2]

/-- The size of the stream is noted. -/
theorem noteBytes_preserves (h : noteBytes s i bytes = .ok s')
    (hbytes : bytes = st.size (s.slices i).sliceNo.toNat) :
    Preserves st (s.slices i) (s'.slices i) := by
  rcases noteBytes_ok h with hset | ⟨-, e, rfl⟩
  · exact setSliceBytes_preserves hset hbytes
  · exact .refl

/-- What `noteBytes` and `setSliceBytes` leave alone. -/
theorem setSliceBytes_frame (h : setSliceBytes s i bytes = .ok s') :
    s'.config = s.config ∧ (s'.slices i).map = (s.slices i).map ∧
      (s'.slices i).sliceNo = (s.slices i).sliceNo ∧ (s'.slices i).state = (s.slices i).state := by
  rcases setSliceBytes_ok h with ⟨-, -, rfl⟩ | ⟨-, rfl⟩
  · exact ⟨rfl, rfl, rfl, rfl⟩
  · simp

/-- Noting the size leaves the map, the number and the state alone. -/
theorem noteBytes_frame (h : noteBytes s i bytes = .ok s') :
    s'.config = s.config ∧ (s'.slices i).map = (s.slices i).map ∧
      (s'.slices i).sliceNo = (s.slices i).sliceNo ∧ (s'.slices i).state = (s.slices i).state := by
  rcases noteBytes_ok h with hset | ⟨-, e, rfl⟩
  · exact setSliceBytes_frame hset
  · exact ⟨rfl, rfl, rfl, rfl⟩

/-- Copying a payload leaves the slices alone. -/
theorem copyBlock_slices (p : Place) : (s.copyBlock p).slices = s.slices ∧
    (s.copyBlock p).config = s.config := by
  obtain ⟨mem, blocks, heq⟩ := copyBlock_eq (s := s) p
  rw [heq]
  exact ⟨rfl, rfl⟩

/-- A new data block is counted in its stripe, and takes the place of a FEC block if there is one
too many. -/
theorem countData_preserves (h : countData s i b = .ok s')
    (hblock : s.config.blockSize = st.blockSize)
    (hstate : (s.slices i).state = .receiving)
    (hb : b < st.blocks (s.slices i).sliceNo.toNat) (hmap : b ∉ (s.slices i).map) :
    Preserves st (s.slices i) (s'.slices i) := by
  obtain ⟨slice, localBlocks, hcount, hcheck⟩ := countData_ok h
  have hplace := countArrival_place hcount
  refine Preserves.trans ?_ (checkSliceComplete_preserves hcheck hblock :)
  rw [setSlice_self]
  refine ⟨fun hsound => ⟨fun _ => ?_, fun hfec => ?_⟩, fun hdone => by rw [hstate] at hdone; cases hdone⟩
  · obtain ⟨hcounted, hheld⟩ := hsound.receiving hstate
    exact ⟨hcounted.arrive hb hmap hcount, hheld.arrive hcount⟩
  · exact absurd (hplace.2.2.symm.trans hfec) (by simp [hstate])

/-- So a data block of the stream keeps the slice sound. -/
theorem processDataBlock_preserves (h : processDataBlock s i n b bytes = .ok s')
    (hblock : s.config.blockSize = st.blockSize) (hno : (s.slices i).sliceNo.toNat = n)
    (hbytes : bytes = st.size n) (hb : b < st.blocks n) :
    Preserves st (s.slices i) (s'.slices i) := by
  rcases processDataBlock_ok h with rfl | ⟨hreceiving, hmap, -, s₁, hnote, hcount⟩
  · exact .refl
  · obtain ⟨hslices, hconfig⟩ := copyBlock_slices (s := s) (.ring (adr s (s.slices i) b))
    have hkeeps : Preserves st ((s.copyBlock (.ring (adr s (s.slices i) b))).slices i)
        (s₁.slices i) := noteBytes_preserves hnote (by rw [hslices, hno, hbytes])
    obtain ⟨hconfig', hmap', hno', hstate'⟩ := noteBytes_frame hnote
    rw [hslices] at hkeeps hmap' hno' hstate'
    refine hkeeps.trans (countData_preserves hcount ?_ ?_ ?_ ?_)
    · rw [hconfig', hconfig, hblock]
    · rw [hstate', hreceiving]
    · rwa [hno', hno]
    · rwa [hmap']

/-- A useful FEC block is counted in its stripe. -/
theorem countFec_preserves {stripes : ℕ} (h : countFec s i stripes b = .ok s')
    (hblock : s.config.blockSize = st.blockSize)
    (hstripes : (s.slices i).fecStripes = stripes) (hS : (s.slices i).fecStripes ≠ 0)
    (hfec : (s.slices i).state ≠ .fec) : Preserves st (s.slices i) (s'.slices i) := by
  rcases countFec_ok h with
    (⟨-, hcheck⟩ | rfl) | ⟨stripe, hstripe, huseful, hnew, mem, blocks, -, rfl⟩
  · exact (checkSliceComplete_preserves hcheck hblock :)
  · exact .refl
  · dsimp only
    rw [Function.update_self]
    rw [← hstripes] at hnew ⊢
    refine ⟨fun hsound => ⟨fun hstate => ?_, fun hstate => absurd hstate hfec⟩, fun _ hfull => ?_⟩
    · obtain ⟨hcounted, hheld⟩ := hsound.receiving hstate
      exact ⟨hcounted.store hS hstripe huseful hnew, hheld.store hS hstripe⟩
    · rw [hfull.full stripe (hstripe ▸ Nat.mod_lt _ (Nat.pos_of_ne_zero hS))] at huseful
      exact absurd huseful (lt_irrefl _)

/-- With the first FEC block the missing data blocks are counted. -/
theorem initSliceForFec_preserves (hblock : s.config.blockSize = st.blockSize)
    (hzero : (s.slices i).fecStripes = 0) (hknown : (s.slices i).bytesKnown = true)
    (hfec : (s.slices i).state ≠ .fec) :
    Preserves st (s.slices i) ((initSliceForFec s i st.stripes).slices i) := by
  rw [initSliceForFec_slice]
  refine ⟨fun hsound => ⟨fun hstate => ?_, fun hstate => absurd hstate hfec⟩, fun _ hfull => ?_⟩
  · obtain ⟨hcounted, -⟩ := hsound.receiving hstate
    refine ⟨?_, Slice.held_initFec⟩
    rw [getSliceBlocks, hblock, hcounted.size hknown]
    exact hcounted.initFec hzero hknown
  · exact absurd hzero hfull.stripes_ne

/-- The configuration stays the same. -/
theorem initSliceForFec_config {stripes : ℕ} : (initSliceForFec s i stripes).config = s.config := by
  unfold initSliceForFec
  cases s.useFec <;> rfl

/-- From then on the size is known. -/
theorem setSliceBytes_known (h : setSliceBytes s i bytes = .ok s') :
    (s'.slices i).bytesKnown = true := by
  rcases setSliceBytes_ok h with ⟨hknown, -, rfl⟩ | ⟨-, rfl⟩
  · exact hknown
  · dsimp only
    rw [Function.update_self]

/-- So a FEC block of the stream keeps the slice sound. -/
theorem processFecBlock_preserves (h : processFecBlock s i st.stripes b bytes = .ok s')
    (hblock : s.config.blockSize = st.blockSize)
    (hbytes : bytes = st.size (s.slices i).sliceNo.toNat) (hstripes : st.stripes ≠ 0) :
    Preserves st (s.slices i) (s'.slices i) := by
  rcases processFecBlock_ok h with rfl | ⟨hstate, s₁, hset, hcase⟩
  · exact .refl
  · have hkeeps := setSliceBytes_preserves hset hbytes
    obtain ⟨hconfig, -, -, hstate'⟩ := setSliceBytes_frame hset
    have hfec : (s₁.slices i).state ≠ .fec := by
      rw [hstate']
      rcases hstate with hstate | hstate <;> simp [hstate]
    rcases hcase with ⟨hzero, hcount⟩ | ⟨-, -, rfl⟩ | ⟨hne, heq, hcount⟩
    · have hblock₁ : s₁.config.blockSize = st.blockSize := by rw [hconfig, hblock]
      have hinit := initSliceForFec_preserves hblock₁ hzero (setSliceBytes_known hset) hfec
      have hS : ((initSliceForFec s₁ i st.stripes).slices i).fecStripes = st.stripes := by
        unfold initSliceForFec
        rw [setSlice_self]
      have hstate₂ := (initSliceForFec_works s₁ i st.stripes).2.2.2
      refine (hkeeps.trans hinit).trans (countFec_preserves hcount ?_ hS ?_ ?_)
      · rw [initSliceForFec_config, hblock₁]
      · rwa [hS]
      · rwa [hstate₂]
    · exact hkeeps
    · refine hkeeps.trans (countFec_preserves hcount ?_ heq hne hfec)
      rw [hconfig, hblock]

/-- A REQACK about the slice notes its size and may complete it. -/
theorem processReqAck_preserves {rxmit : ℕ} (h : processReqAck s n bytes rxmit = .ok s')
    (hblock : s.config.blockSize = st.blockSize) (hfound : s.found = some i)
    (hbytes : bytes = st.size (s.slices i).sliceNo.toNat) :
    Preserves st (s.slices i) (s'.slices i) := by
  rcases processReqAck_ok h with ⟨-, rfl⟩ | ⟨-, -, rfl⟩ | ⟨-, j, s₁, hj, hset, hcheck⟩
  · exact .refl
  · exact .refl
  · obtain rfl := Option.some.inj (hfound.symm.trans hj)
    obtain ⟨hconfig, -⟩ := setSliceBytes_frame hset
    obtain ⟨msg, hanswer⟩ := answer_eq (s := s₁) (i := i) rxmit
    rw [hanswer] at hcheck
    have hblock₁ : s₁.config.blockSize = st.blockSize := by rw [hconfig, hblock]
    exact (setSliceBytes_preserves hset hbytes).trans
      (checkSliceComplete_preserves hcheck hblock₁ :)

/-- The treatment of a message keeps the slice it is about. -/
theorem process_preserves {msg : ServerMsg} (h : process s msg = .ok s') (hsends : st.Sends msg)
    (hblock : s.config.blockSize = st.blockSize)
    (hno : ∀ j, s.found = some j → (s.slices j).sliceNo = sliceNoOf msg) (j : ℕ) :
    Preserves st (s.slices j) (s'.slices j) := by
  cases hfound : s.found with
  | none =>
    refine .of_eq (congrFun ?_ j)
    unfold process at h
    cases hsends with
    | data => rw [hfound] at h; exact Except.ok.inj h ▸ rfl
    | fec => rw [hfound] at h; exact Except.ok.inj h ▸ rfl
    | reqack =>
      rcases processReqAck_ok h with ⟨-, rfl⟩ | ⟨-, -, rfl⟩ | ⟨-, i, -, hi, -⟩
      · rfl
      · rfl
      · rw [hfound] at hi
        cases hi
    | hello => exact Except.ok.inj h ▸ rfl
  | some i =>
    rcases eq_or_ne j i with rfl | hj
    · have hslice := hno j hfound
      unfold process at h
      cases hsends with
      | data n b hn hb =>
        rw [hfound] at h
        exact processDataBlock_preserves h hblock (by rw [hslice]; rfl) rfl hb
      | fec n b payload hn hb hpayload =>
        rw [hfound] at h
        apply processFecBlock_preserves h hblock (by rw [hslice]; rfl)
        exact fun hzero => by simp [hzero] at hb
      | reqack n rxmit readySet hn =>
        exact processReqAck_preserves h hblock hfound (by rw [hslice]; rfl)
      | hello => exact .of_eq (by rw [← Except.ok.inj h])
    · obtain ⟨hworks, -⟩ := process_works h i fun k hk => Option.some.inj (hk.symm.trans hfound)
      exact .of_eq (hworks.others j hj)

/-- The end of `processFecBlock` may complete the slice. -/
theorem finishFecBlock_preserves (h : finishFecBlock s i = .ok s')
    (hblock : s.config.blockSize = st.blockSize) (j : ℕ) :
    Preserves st (s.slices j) (s'.slices j) := by
  rcases eq_or_ne j i with rfl | hj
  · refine Preserves.trans ?_ (checkSliceComplete_preserves h hblock :)
    rw [setSlice_self]
    exact ⟨fun hsound => hsound.freePos, fun _ _ => ⟨_, rfl⟩⟩
  · exact .of_eq ((finishFecBlock_works h).1.others j hj)

/-- A slice that is completed by force is done. -/
theorem completeByForce_sound (h : completeByForce s i = .ok s')
    (hincomplete : (s.slices i).state.complete = false) : (s'.slices i).Sound st := by
  obtain ⟨-, s₁, hbytes, hcheck⟩ := completeByForce_ok h
  have hstate : (s₁.slices i).state = (s.slices i).state := by
    rcases hbytes with ⟨-, rfl⟩ | ⟨-, hset⟩
    · rfl
    · exact (setSliceBytes_frame hset).2.2.2
  rcases checkSliceComplete_ok hcheck with ⟨hnot, rfl⟩ | ⟨-, -, state, hdone, rfl⟩
  · rw [setSlice_self] at hnot ⊢
    have hreceiving : (s₁.slices i).state ≠ .receiving :=
      hnot.resolve_right fun hne => hne rfl
    refine .of_state hreceiving fun hfec => ?_
    have hfec : (s₁.slices i).state = .fec := hfec
    rw [← hstate, hfec] at hincomplete
    cases hincomplete
  · dsimp only
    rw [Function.update_self]
    rcases hdone with ⟨rfl, -⟩ | ⟨-, -, hne⟩
    · exact .of_state (by simp) (by simp)
    · rw [setSlice_self] at hne
      exact absurd rfl hne

section Moves

variable {t : Task} {rest : List Task}

/-- What no step of the network thread changes. -/
theorem NetMoves.config_eq (hm : NetMoves s t rest s') :
    s'.config = s.config ∧ s'.dataBufSize = s.dataBufSize := by
  have hworks : ∀ {s₀ i}, Works i s₀ s' → s₀.config = s.config ∧ s₀.dataBufSize = s.dataBufSize →
      s'.config = s.config ∧ s'.dataBufSize = s.dataBufSize := fun hw heq =>
    ⟨(congrArg Rest.config hw.rest_eq).trans heq.1,
      (congrArg Rest.dataBufSize hw.rest_eq).trans heq.2⟩
  cases hm with
  | restart hcurrent hlt hstreaming hinit | reserve hmem hinit =>
    obtain ⟨-, -, -, guess, -, rfl⟩ := initSlice_ok hinit
    exact ⟨rfl, rfl⟩
  | force hfound hforce => exact hworks (completeByForce_works hforce).1 ⟨rfl, rfl⟩
  | process hprocess =>
    obtain ⟨i, -, hw, -⟩ := process_works_found hprocess
    exact hworks hw ⟨rfl, rfl⟩
  | reuse hlocal hfinish | takeBlock hfinish =>
    exact hworks (finishFecBlock_works hfinish).1 ⟨rfl, rfl⟩
  | advanceFirst hadvance | advance hadvance =>
    subst hadvance
    unfold Receiver.advance
    split <;> exact ⟨rfl, rfl⟩
  | release hpos hstate hclean =>
    rcases cleanupSlices_ok hclean with ⟨-, hslot, -⟩ | ⟨_, _, -, -, -, -, hdata⟩
    · cases hslot
    · rcases hdata with ⟨-, rfl⟩ | ⟨-, q, -, rfl⟩ <;> exact ⟨rfl, rfl⟩
  | freeSlot hfree =>
    obtain ⟨q, -, rfl⟩ := freeSlot_ok hfree
    exact ⟨rfl, rfl⟩
  | _ => exact ⟨rfl, rfl⟩

/-- Work on a slice enters no message to be processed. -/
theorem Leaves.ne_process {s₀ : State} {msg : ServerMsg} (h : Leaves i s₀ s')
    (hmem : .process msg ∈ s'.tasks) : .process msg ∈ s₀.tasks := by
  obtain ⟨l, heq, hcase⟩ := h.left
  rw [heq] at hmem
  refine (List.mem_append.mp hmem).resolve_left fun hl => ?_
  rcases hcase with rfl | hleft
  · cases List.mem_singleton.mp hl
  · exact hleft _ hl

/-- The treatment of a message does not lead to that of another one. -/
theorem NetMoves.process_mem {msg : ServerMsg} (hm : NetMoves s t rest s')
    (hmem : .process msg ∈ s'.tasks) : .process msg ∈ rest := by
  cases hm with
  | restart hcurrent hlt hstreaming hinit | reserve _ hinit =>
    obtain ⟨-, -, -, guess, -, rfl⟩ := initSlice_ok hinit
    exact hmem
  | force hfound hforce =>
    exact (leaves_of_complete (completeByForce_works hforce).2).ne_process hmem
  | process hprocess =>
    obtain ⟨i, -, -, hleaves⟩ := process_works_found hprocess
    exact hleaves.ne_process hmem
  | reuse hlocal hfinish => exact (finishFecBlock_works hfinish).2.ne_process hmem
  | takeBlock hfinish => exact (finishFecBlock_works hfinish).2.ne_process hmem
  | advanceFirst hadvance | advance hadvance =>
    subst hadvance
    unfold Receiver.advance at hmem
    split at hmem
    · simpa [State.enter, State.popped] using hmem
    · exact hmem
  | scanFound => exact hmem
  | scanFree => exact hmem
  | enqueue => exact hmem
  | cleaned => exact hmem
  | _ => simpa using hmem

/-- Every step of the network thread keeps the slices sound, and leaves those alone that the FEC
thread gives back. -/
theorem NetMoves.preserves (hm : NetMoves s t rest s') (ht : s.tasks = t :: rest) (h : Window s)
    (hq : FecQueue s) (hs : Stacked s) (hp : Pointer s) (hblock : s.config.blockSize = st.blockSize)
    (hsends : ∀ msg, .process msg ∈ s.tasks → st.Sends msg) (j : ℕ) :
    Preserves st (s.slices j) (s'.slices j) := by
  have hupdate : ∀ {i} {x : Slice}, ((s.slices i).state ≠ .fecDone) → x.Sound st →
      Preserves st (s.slices j) (Function.update s.slices i x j) := by
    intro i x hstate hx
    rcases eq_or_ne j i with rfl | hj
    · rw [Function.update_self]
      exact ⟨fun _ => hx, fun hdone => absurd hdone hstate⟩
    · exact .of_eq (Function.update_of_ne hj ..)
  have hinit : ∀ {i n s₁}, initSlice (s.popped rest) i n = .ok s₁ →
      Preserves st (s.slices j) (s₁.slices j) := by
    intro i n s₁ hok
    obtain ⟨hstate, -, -, guess, -, rfl⟩ := initSlice_ok hok
    refine hupdate (fun hdone => ?_) ⟨fun _ => ⟨.start _ _, Slice.held_start _ _⟩, fun hfec => ?_⟩
    · have hstate : (s.slices i).state = .free ∨ (s.slices i).state = .receiving := hstate
      rw [hdone] at hstate
      rcases hstate with hstate | hstate <;> cases hstate
    · cases hfec
  cases hm with
  | restart hcurrent hlt hstreaming hok => exact (hinit hok :)
  | reserve hmem hok => exact (hinit hok :)
  | takeSlot hi hfree =>
    exact hupdate (by simp [hfree]) (.of_state (by simp [hfree]) (by simp [hfree]))
  | @force i _ _ hfound hforce =>
    have hincomplete := hp.fake_incomplete h hq hs ht hfound
    rcases eq_or_ne j i with rfl | hj
    · refine ⟨fun _ => ?_, fun hdone => ?_⟩
      · exact completeByForce_sound hforce hincomplete
      · rw [hdone] at hincomplete
        cases hincomplete
    · exact .of_eq ((completeByForce_works hforce).1.others j hj)
  | @process msg _ _ hprocess =>
    exact process_preserves hprocess (hsends msg (ht ▸ List.mem_cons_self)) hblock
      (fun i hi => h.stack.found msg rest i ht hi) j
  | reuse hlocal hfinish => exact finishFecBlock_preserves hfinish hblock j
  | takeBlock hfinish => exact finishFecBlock_preserves hfinish hblock j
  | advanceFirst hadvance | advance hadvance =>
    subst hadvance
    unfold Receiver.advance
    split <;> exact .refl
  | release hpos hstate hclean =>
    rcases cleanupSlices_ok hclean with ⟨-, hslot, -⟩ | ⟨_, _, -, -, -, -, hdata⟩
    · cases hslot
    · rcases hdata with ⟨-, rfl⟩ | ⟨-, q, -, rfl⟩ <;> exact .refl
  | @freeSlot pos bytes _ s₁ hfree =>
    obtain ⟨-, -, hdone⟩ := h.stack.netFrees pos bytes rest ht
    obtain ⟨q, -, rfl⟩ := freeSlot_ok hfree
    exact hupdate (by simp [hdone]) (.of_state (by simp) (by simp))
  | _ => exact .refl

/-- Every move of the network thread keeps the slices sound. -/
theorem Accounts.netMoves (ha : Accounts st s) (hm : NetMoves s t rest s')
    (ht : s.tasks = t :: rest) (h : Window s) (hq : FecQueue s) (hs : Stacked s) (hp : Pointer s) :
    Accounts st s' := by
  have hkeeps := hm.preserves ht h hq hs hp ha.blockSize ha.sends
  refine ⟨hm.config_eq.1 ▸ ha.blockSize, hm.config_eq.2 ▸ ha.bufSize, fun i => (hkeeps i).sound (ha.sound i), ?_, fun msg hmsg =>
    ha.sends msg (ht ▸ List.mem_cons_of_mem _ (hm.process_mem hmsg))⟩
  intro i stripe k hpc
  rcases hm.frame.2.2 with ⟨-, hthread⟩ | ⟨-, -, hthread, -⟩
  · rw [hthread] at hpc
    obtain ⟨hfull, hreleases⟩ := ha.releasing i stripe k hpc
    obtain ⟨pos, heq⟩ := (hkeeps i).kept (h.slots.releasing i stripe k hpc) hfull
    rw [heq]
    exact ⟨{ hfull with counted := { hfull.counted with } }, hreleases⟩
  · rw [hthread] at hpc
    cases hpc

/-- So does every move of the FEC thread, which gives back the blocks that a decoded slice has
held. -/
theorem Accounts.fecMoves (ha : Accounts st s) (hm : FecMoves s s') (h : Window s) :
    Accounts st s' := by
  have hupdate : ∀ {i} {x : Slice}, x.Sound st →
      ∀ j, (Function.update s.slices i x j).Sound st := by
    intro i x hx j
    rcases eq_or_ne j i with rfl | hj
    · rwa [Function.update_self]
    · rw [Function.update_of_ne hj]
      exact ha.sound j
  cases hm with
  | loop hpc =>
    refine ⟨ha.blockSize, ha.bufSize, ha.sound, fun i stripe k hcase => ?_, ha.sends⟩
    dsimp only at hcase
    split at hcase <;> cases hcase
  | takeDone hpc hi hstate =>
    exact ⟨ha.blockSize, ha.bufSize, hupdate (.of_state (by simp) (by simp)), fun _ _ _ hcase => (by cases hcase),
      ha.sends⟩
  | @decode i mem blocks hpc hdecode =>
    refine ⟨ha.blockSize, ha.bufSize, hupdate (.of_state (by simp) (by simp)), ?_, ha.sends⟩
    rintro j stripe k ⟨⟩
    obtain ⟨hfull, hheld⟩ := (ha.sound i).fec (h.slots.decoding i hpc)
    dsimp only
    rw [Function.update_self]
    exact ⟨{ hfull with counted := { hfull.counted with } }, fun k hk j hj _ => hheld k hk j hj⟩
  | @nextStripe i stripe k hpc hstripe hle hend =>
    refine ⟨ha.blockSize, ha.bufSize, ha.sound, ?_, ha.sends⟩
    rintro j _ _ ⟨⟩
    obtain ⟨hfull, hreleases⟩ := ha.releasing i stripe k hpc
    refine ⟨hfull, fun k' hk' j hj hcase => hreleases k' hk' j hj ?_⟩
    rcases hcase with hlt | ⟨rfl, -⟩ <;> exact .inl (by omega)
  | @freeBlock i stripe k d b q hpc hstripe hle hk hd hb hq =>
    obtain ⟨hfull, hreleases⟩ := ha.releasing i stripe k hpc
    have hdone := h.slots.releasing i stripe k hpc
    refine ⟨ha.blockSize, ha.bufSize, hupdate (.of_state (by simp [hdone]) (by simp [hdone])), ?_, ha.sends⟩
    rintro j _ _ ⟨⟩
    dsimp only
    rw [Function.update_self]
    have hother : ∀ k' < (s.slices i).fecStripes, ∀ j, k' + j * (s.slices i).fecStripes ≠ d →
        Function.update (s.slices i).fecDescs d { (s.slices i).fecDescs d with adr := none }
          (k' + j * (s.slices i).fecStripes) =
        (s.slices i).fecDescs (k' + j * (s.slices i).fecStripes) :=
      fun k' _ j hne => Function.update_of_ne hne ..
    have hnumber : ∀ x, (Function.update (s.slices i).fecDescs d
        { (s.slices i).fecDescs d with adr := none } x).fecBlockNo =
        ((s.slices i).fecDescs x).fecBlockNo := by
      intro x
      rcases eq_or_ne x d with rfl | hne
      · rw [Function.update_self]
      · rw [Function.update_of_ne hne]
    refine ⟨⟨{ hfull.counted with congruent := ?_, distinct := ?_ }, hfull.stripes_ne, hfull.full⟩, ?_⟩
    · intro k' hk' j hj
      rw [hnumber]
      exact hfull.counted.congruent k' hk' j hj
    · intro k' hk' j hj j' hj' heq
      rw [hnumber, hnumber] at heq
      exact hfull.counted.distinct k' hk' j hj j' hj' heq
    · intro k' hk' j hj hcase
      dsimp only at hk' hj ⊢
      rw [hother k' hk' j]
      · apply hreleases k' hk' j hj
        rcases hcase with hlt | ⟨rfl, hle⟩
        · exact .inl hlt
        · exact .inr ⟨rfl, by omega⟩
      · rw [hd]
        intro heq
        obtain ⟨rfl, rfl⟩ := row_inj hk' hstripe heq
        rcases hcase with hlt | ⟨-, hle⟩ <;> omega
  | releaseSlice hpc hpos hstate hclean =>
    rcases cleanupSlices_ok hclean with ⟨-, hslot, -⟩ | ⟨_, _, -, -, -, -, hdata⟩
    · cases hslot
    · rcases hdata with ⟨-, rfl⟩ | ⟨-, q, -, rfl⟩ <;>
        exact ⟨ha.blockSize, ha.bufSize, ha.sound, fun _ _ _ hcase => (by cases hcase), ha.sends⟩
  | freeSlot hpc hfree =>
    obtain ⟨q, -, rfl⟩ := freeSlot_ok hfree
    exact ⟨ha.blockSize, ha.bufSize, hupdate (.of_state (by simp) (by simp)), fun _ _ _ hcase => (by cases hcase),
      ha.sends⟩
  | _ => exact ⟨ha.blockSize, ha.bufSize, ha.sound, fun _ _ _ hcase => (by cases hcase), ha.sends⟩

end Moves

section Runs

variable {mode : Mode}

/-- So does every move of a receiver of the stream. -/
theorem Accounts.moves {a : Action} (ha : Accounts st s) (hconforms : a.Conforms st) (h : Window s)
    (hq : FecQueue s) (hs : Stacked s) (hp : Pointer s) (hm : Moves s a s') : Accounts st s' := by
  cases hm with
  | @receive msg mem blocks hidle hend =>
    refine { ha with sends := fun msg' hmsg => ?_ }
    cases msg <;> simp only [dispatch, List.mem_cons, reduceCtorEq, Task.process.injEq,
      List.not_mem_nil, or_false, false_or] at hmsg <;> exact hmsg ▸ hconforms
  | exitWait => exact { ha with }
  | net ht hm => exact ha.netMoves hm ht h hq hs hp
  | fec hm => exact ha.fecMoves hm h
  | writer hm => cases hm <;> exact { ha with }

/-- At the start no slot is in use. -/
theorem accounts_start (h : Starts st mode s) : Accounts st s := by
  obtain ⟨config, streaming, mem, blockData, -, hblock, -, hstart⟩ := h
  obtain ⟨_, _, _, -, -, -, rfl⟩ := start_eq hstart
  refine ⟨hblock, hblock ▸ rfl, fun i => .of_state (by simp [Slice.unused]) (by simp [Slice.unused]),
    by simp, ?_⟩
  cases streaming <;> simp

/-- The facts about the states of a running receiver. -/
structure Running (s : State) : Prop where
  window : Window s
  queue : FecQueue s
  stacked : Stacked s
  pointer : Pointer s

/-- The facts about running receivers hold in every reachable state. -/
theorem running_facts (h : (system st mode).Reachable s) (hrunning : s.failure = none) : Running s :=
  ⟨window_of_reachable h hrunning, fecQueue_of_reachable h hrunning,
    (stacked_pointer_of_reachable h hrunning).1, (stacked_pointer_of_reachable h hrunning).2⟩

/-- So the slices are sound as long as the receiver runs. -/
theorem accounts_of_reachable (h : (system st mode).Reachable s) (hrunning : s.failure = none) :
    Accounts st s :=
  running_of_reachable (fun _ hs hrun => running_facts hs hrun) (fun _ => accounts_start)
    (fun _ _ _ hr ha hconforms hm =>
      ha.moves hconforms hr.window hr.queue hr.stacked hr.pointer hm) h hrunning

/-- The counters of a slice are exact. -/
structure Slice.Exact (config : Config) (slice : Slice) : Prop where
  data : slice.dataBlocksTransferred = slice.map.card
  blocks : slice.blocksTransferred =
    slice.dataBlocksTransferred + ∑ k ∈ Finset.range slice.fecStripes, (slice.fecBlocks k : ℤ)
  missing : ∀ k < slice.fecStripes, slice.missingDataBlocks k =
    ((Finset.range (getSliceBlocks slice config)).filter fun j =>
      j ∉ slice.map ∧ j % slice.fecStripes = k).card
  fecBlocks_le : ∀ k < slice.fecStripes, slice.fecBlocks k ≤ slice.missingDataBlocks k
  congruent : ∀ k < slice.fecStripes, ∀ j < slice.fecBlocks k,
    (slice.fecDescs (k + j * slice.fecStripes)).fecBlockNo % slice.fecStripes = k
  distinct : ∀ k < slice.fecStripes, ∀ j < slice.fecBlocks k, ∀ j' < slice.fecBlocks k,
    (slice.fecDescs (k + j * slice.fecStripes)).fecBlockNo =
      (slice.fecDescs (k + j' * slice.fecStripes)).fecBlockNo → j = j'
  index : ∀ k < slice.fecStripes, ∀ j < slice.missingDataBlocks k,
    k + j * slice.fecStripes < maxSliceSize

/-- The accounting is exact and its assertions hold. -/
structure Accounted (s : State) : Prop where
  counters : ∀ i, (s.slices i).state = .receiving ∨ (s.slices i).state = .fec →
    (s.slices i).Exact s.config
  full : ∀ i, (s.slices i).state = .fec → ∀ k < (s.slices i).fecStripes,
    (s.slices i).fecBlocks k = (s.slices i).missingDataBlocks k
  asserts : s.failure ≠ some .missingNegative ∧ s.failure ≠ some .noAddress ∧
    s.failure ≠ some .erasedMismatch ∧ s.failure ≠ some .tooManyFecBlocks
  blockSize : s.config.blockSize ≠ 0 ∧ s.dataBufSize % s.config.blockSize = 0
  releasing : ∀ i stripe k, s.fecThread = .release i stripe k →
    (s.slices i).state = .fecDone ∧ ∀ k' < (s.slices i).fecStripes,
      ∀ j < (s.slices i).fecBlocks k', k' + j * (s.slices i).fecStripes < maxSliceSize

/-- The places of the FEC blocks of a slice are within the array. -/
theorem Counted.index (h : Counted st slice) (hst : st.Valid) {k j : ℕ} (hk : k < slice.fecStripes)
    (hj : j < slice.missingDataBlocks k) : k + j * slice.fecStripes < maxSliceSize := by
  rw [h.missing k hk] at hj
  exact (row_lt_of_missing hj).trans_le (hst.blocks_le _)

/-- Counters that agree with the stream are exact in terms of the slice alone. -/
theorem Counted.exactly (h : Counted st slice) (hst : st.Valid) {config : Config}
    (hblock : config.blockSize = st.blockSize) : slice.Exact config where
  data := h.data
  blocks := by rw [h.blocks, h.data]
  missing k hk := by
    obtain ⟨-, hknown⟩ := h.stripes (by omega)
    rw [h.missing k hk, getSliceBlocks, hblock, h.size hknown]
    rfl
  fecBlocks_le := h.fecBlocks_le
  congruent := h.congruent
  distinct := h.distinct
  index _ hk _ hj := h.index hst hk hj

/-- Before a slice is decoded there are as many FEC blocks in a stripe as blocks are erased, and
every one of them has its place in the pool. -/
theorem erased_matches {stripe : ℕ} {f : Failure} (hfull : (s.slices i).Full st)
    (hheld : (s.slices i).Held)
    (hblock : s.config.blockSize = st.blockSize) (hstripe : stripe < (s.slices i).fecStripes)
    (herror : fecDecodeOneStripe s i stripe = .error f) : f = .codec := by
  have hknown := (hfull.counted.stripes hfull.stripes_ne).2
  unfold fecDecodeOneStripe at herror
  dsimp only at herror
  split at herror
  · rename_i hne
    refine absurd ?_ hne
    rw [erasedBlocks_length hstripe, hfull.full _ hstripe, hfull.counted.missing _ hstripe,
      getSliceBlocks, hblock, hfull.counted.size hknown]
    rfl
  · split at herror
    · rename_i hmissing
      obtain ⟨j, hj, hadr⟩ := hmissing
      exact absurd hadr (hheld stripe hstripe j hj)
    · split at herror
      · exact (Except.error.inj herror).symm
      · cases herror

/-- The same for all stripes of the slice: what can fail is the codec alone. -/
theorem decode_matches {f : Failure} (hfull : (s.slices i).Full st) (hheld : (s.slices i).Held)
    (hblock : s.config.blockSize = st.blockSize) (herror : decodeSlice s i = .error f) :
    f = .codec := by
  have hfold : ∀ (l : List ℕ) (u : State), (∀ k ∈ l, k < (s.slices i).fecStripes) →
      u.slices = s.slices → u.config = s.config →
      l.foldlM (fun u stripe => fecDecodeOneStripe u i stripe) u = .error f → f = .codec := by
    intro l
    induction l with
    | nil =>
      intro u _ _ _ herror
      cases herror
    | cons stripe l ih =>
      intro u hl hslices hconfig herror
      rw [List.foldlM_cons] at herror
      rcases bind_error herror with herror | ⟨u', hok, herror⟩
      · rw [← hslices] at hfull hheld hl
        exact erased_matches hfull hheld (hconfig ▸ hblock) (hl stripe List.mem_cons_self) herror
      · obtain ⟨mem, blocks, rfl⟩ := fecDecodeOneStripe_ok hok
        exact ih { u with dataBuffer := mem, blockData := blocks }
          (fun k hk => hl k (List.mem_cons_of_mem _ hk)) hslices hconfig herror
  exact hfold _ s (fun k hk => List.mem_range.mp hk) rfl rfl herror

/-- The failures that are about the accounting. -/
def Failure.counts : Failure → Bool
  | .missingNegative | .noAddress | .erasedMismatch | .tooManyFecBlocks => true
  | _ => false

/-- A wrong size is no failure of the accounting. -/
theorem setSliceBytes_counts {f : Failure} (h : setSliceBytes s i bytes = .error f) :
    f.counts = false := by
  obtain ⟨rfl, -⟩ := setSliceBytes_error h
  rfl

/-- Nor is a slot that cannot be set up. -/
theorem initSlice_counts {f : Failure} {m : ℤ} (h : initSlice s i m = .error f) :
    f.counts = false := by
  rcases initSlice_error h with ⟨rfl, -⟩ | ⟨rfl, -⟩ | ⟨rfl, -⟩ <;> rfl

/-- No data block fails an assertion about the counters. -/
theorem processDataBlock_counts {f : Failure} (h : processDataBlock s i n b bytes = .error f)
    (hsound : (s.slices i).Sound st) (hno : (s.slices i).sliceNo.toNat = n)
    (hbytes : bytes = st.size n) (hb : b < st.blocks n) : f.counts = false := by
  obtain ⟨hstate, rfl | ⟨hmap, rfl | hnote | ⟨s₁, hnote, hcount⟩⟩⟩ := processDataBlock_error h
  · rfl
  · rfl
  · exact setSliceBytes_counts (noteBytes_error hnote)
  · obtain ⟨hslices, -⟩ := copyBlock_slices (s := s) (.ring (adr s (s.slices i) b))
    have hkeeps : Preserves st ((s.copyBlock (.ring (adr s (s.slices i) b))).slices i)
        (s₁.slices i) := noteBytes_preserves hnote (by rw [hslices, hno, hbytes])
    obtain ⟨-, hmap', hno', hstate'⟩ := noteBytes_frame hnote
    rw [hslices] at hkeeps hmap' hno' hstate'
    obtain ⟨hcounted, hheld⟩ := (hkeeps.sound hsound).receiving (hstate'.trans hstate)
    rcases countData_error hcount with hcount | rfl
    · exact absurd hcount (countArrival_succeeds hcounted hheld (by rwa [hno', hno])
        (by rwa [hmap']) f)
    · rfl

/-- No message of the stream fails an assertion about the counters. -/
theorem process_counts {msg : ServerMsg} {f : Failure} (h : process s msg = .error f)
    (hsends : st.Sends msg) (hsound : ∀ j, (s.slices j).Sound st)
    (hno : ∀ j, s.found = some j → (s.slices j).sliceNo = sliceNoOf msg) : f.counts = false := by
  unfold process at h
  cases hsends with
  | data n b hn hb =>
    dsimp only at h
    split at h
    · rename_i i hfound
      exact processDataBlock_counts h (hsound i) (by rw [hno i hfound]; rfl) rfl hb
    · cases h
  | fec n b payload hn hb hpayload =>
    dsimp only at h
    split at h
    · rcases processFecBlock_error h with rfl | ⟨-, hset⟩
      · rfl
      · exact setSliceBytes_counts hset
    · cases h
  | reqack n rxmit readySet hn =>
    obtain ⟨-, i, -, rfl | hset⟩ := processReqAck_error h
    · rfl
    · exact setSliceBytes_counts hset
  | hello => cases h

/-- No step fails an assertion about the accounting. -/
theorem Fails.counts {a : Action} {f : Failure} (hfails : Fails s a f) (ha : Accounts st s)
    (h : Window s) : f.counts = false := by
  cases hfails with
  | net ht hnet =>
    cases hnet with
    | restart hcurrent hlt hstreaming hinit => exact initSlice_counts hinit
    | reserve hinit => exact initSlice_counts hinit
    | force hfound hforce =>
      rcases completeByForce_error hforce with ⟨rfl, -⟩ | rfl <;> rfl
    | @process msg _ _ hprocess =>
      exact process_counts hprocess (ha.sends msg (ht ▸ List.mem_cons_self)) ha.sound
        fun i hi => h.stack.found msg _ i ht hi
    | reuse hlocal hfinish =>
      obtain rfl := finishFecBlock_error hfinish
      rfl
    | takeBlock hfinish =>
      obtain rfl := finishFecBlock_error hfinish
      rfl
    | release hclean =>
      obtain rfl := cleanupSlices_error hclean
      rfl
    | freeSlot hfree =>
      obtain rfl := freeSlot_error hfree
      rfl
    | _ => rfl
  | fec hfec =>
    cases hfec with
    | @decode i f hpc hdecode =>
      obtain ⟨hfull, hheld⟩ := (ha.sound i).fec (h.slots.decoding i hpc)
      obtain rfl := decode_matches hfull hheld ha.blockSize hdecode
      rfl
    | @tooMany i stripe k hpc hstripe hlt =>
      have hfull := (ha.releasing i stripe k hpc).1.full stripe hstripe
      omega
    | @freeBlock i stripe k f hpc hstripe hk hfree =>
      rcases freeBlockSpace_error hfree with ⟨-, hnone⟩ | rfl
      · exact absurd hnone
          ((ha.releasing i stripe k hpc).2 stripe hstripe k hk (.inr ⟨rfl, le_rfl⟩))
      · rfl
    | release hpc hclean =>
      obtain rfl := cleanupSlices_error hclean
      rfl
    | freeSlot hpc hfree =>
      obtain rfl := freeSlot_error hfree
      rfl
  | writer => rfl

/-- A receiver with sound slices, running or just stopped, is accounted for. -/
theorem Accounts.accounted (ha : Accounts st s) (h : Slots s) (hst : st.Valid) {s' : State}
    (hslices : s'.slices = s.slices) (hthread : s'.fecThread = s.fecThread)
    (hconfig : s'.config = s.config) (hsize : s'.dataBufSize = s.dataBufSize)
    (hcounts : ∀ f, s'.failure = some f → f.counts = false) : Accounted s' where
  counters i hstate := by
    rw [hslices] at hstate ⊢
    rw [hconfig]
    rcases hstate with hstate | hstate
    · exact ((ha.sound i).receiving hstate).1.exactly hst ha.blockSize
    · exact ((ha.sound i).fec hstate).1.counted.exactly hst ha.blockSize
  full i hstate := by
    rw [hslices] at hstate ⊢
    exact ((ha.sound i).fec hstate).1.full
  asserts := by
    refine ⟨fun hf => ?_, fun hf => ?_, fun hf => ?_, fun hf => ?_⟩ <;> cases hcounts _ hf
  blockSize := by
    rw [hconfig, hsize, ha.blockSize, ha.bufSize]
    exact ⟨hst.blockSize_pos.ne', Nat.mul_mod_right ..⟩
  releasing i stripe k hpc := by
    rw [hthread] at hpc
    rw [hslices]
    obtain ⟨hfull, -⟩ := ha.releasing i stripe k hpc
    exact ⟨h.releasing i stripe k hpc, fun k' hk' j hj =>
      hfull.counted.index hst hk' (hfull.full k' hk' ▸ hj)⟩

/-- In every mode and for any messages in any order, the accounting of every slice that is
being received or decoded is exact. -/
theorem accounted_of_reachable (hst : st.Valid) (h : (system st mode).Reachable s) :
    Accounted s := by
  cases hfailure : s.failure with
  | none =>
    refine (accounts_of_reachable h hfailure).accounted (window_of_reachable h hfailure).slots hst
      rfl rfl rfl rfl fun f hf => ?_
    rw [hfailure] at hf
    cases hf
  | some f =>
    obtain ⟨s₀, a, hs₀, hrunning, -, -, hfails, tasks, q, n, rfl⟩ :=
      fails_of_reachable (h.restrict (C := fun _ _ => True) fun _ _ => trivial) hfailure
    have hs₀ := System.restrict_reachable hs₀
    have ha := accounts_of_reachable hs₀ hrunning
    have hw := window_of_reachable hs₀ hrunning
    exact ha.accounted hw.slots hst rfl rfl rfl rfl fun g hg =>
      Option.some.inj hg ▸ hfails.counts ha hw

/-- A slice of two blocks that is complete with one of its blocks and a FEC block. -/
theorem accounted_of_reachable_two_slices : ∃ s, (system twoAndOne defaultMode).Reachable s ∧
    (s.slices 0).state = .fec ∧ (s.slices 0).blocksTransferred = 2 ∧ Accounted s := by
  have hrun : (startTwoAndOne.bind fun s => System.perform act s (arrivals false)).any fun s =>
      (s.slices 0).state = .fec ∧ (s.slices 0).blocksTransferred = 2 := by
    decide +kernel
  obtain ⟨s, hs, hlast⟩ := (Option.any_eq_true _ _).mp hrun
  obtain ⟨s₀, hstart, hperform⟩ := Option.bind_eq_some_iff.mp hs
  obtain ⟨hfec, htwo⟩ := of_decide_eq_true hlast
  have hreach : (system twoAndOne defaultMode).Reachable s :=
    ⟨s₀, twoAndOne_init hstart, System.run_of_perform_in (arrivals_conform false) hperform⟩
  exact ⟨s, hreach, hfec, htwo, accounted_of_reachable twoAndOne_valid hreach⟩

end Runs

end Udpcast.Receiver
