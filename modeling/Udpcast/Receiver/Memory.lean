import Udpcast.Receiver.OldSlices

/-!
# The ring of the receiver

In default mode, slice `n` lies at the place of its bytes in the stream, modulo the size of the
ring. The memory of a slice is taken when its size becomes known, given to the writer when the
slice is released, and given back when it is written.
-/

namespace Udpcast.Receiver

open Queue
open Protocol

variable {st : Stream} {s s' s'' : State} {slice slice' : Slice} {i b n bytes stripes pos : ℕ}

/-! ## The first block missing -/

/-- Where the next payload lands, the slice has no block; all blocks before are there. -/
def Slice.Lands (slice : Slice) : Prop :=
  slice.freePos < maxSliceSize → slice.freePos ∉ slice.map ∧ ∀ x < slice.freePos, x ∈ slice.map

/-- The loop that moves `freePos` on stops at the first block that is missing, or at the end of
the slice. -/
theorem skipReceived_spec (map : Finset ℕ) (n pos : ℕ) :
    pos ≤ skipReceived map n pos ∧ skipReceived map n pos ≤ pos + n ∧
      (∀ x, pos ≤ x → x < skipReceived map n pos → x ∈ map) ∧
      (skipReceived map n pos < pos + n → skipReceived map n pos ∉ map) := by
  induction n generalizing pos with
  | zero => exact ⟨le_rfl, le_rfl, fun x hle hlt => absurd hlt (not_lt.mpr hle), fun h => absurd h (lt_irrefl _)⟩
  | succ n ih =>
    unfold skipReceived
    split
    · rename_i hmem
      obtain ⟨hle, hlast, hall, hstop⟩ := ih (pos + 1)
      refine ⟨by omega, by omega, fun x hx hlt => ?_, fun hlt => hstop (by omega)⟩
      rcases eq_or_ne x pos with rfl | hne
      · exact hmem
      · exact hall x (by omega) hlt
    · rename_i hmem
      exact ⟨le_rfl, by omega, fun x hle hlt => absurd hlt (not_lt.mpr hle), fun _ => hmem⟩

/-- So after a block has arrived, payloads land at the first block that is missing then. -/
theorem Slice.Lands.skip (h : slice.Lands) (hmap : slice.map ⊆ slice'.map)
    (hpos : slice'.freePos =
      skipReceived slice'.map (maxSliceSize - slice.freePos) slice.freePos) : slice'.Lands := by
  intro hlt
  obtain ⟨hle, -, hall, hstop⟩ :=
    skipReceived_spec slice'.map (maxSliceSize - slice.freePos) slice.freePos
  rw [← hpos] at hle hall hstop
  have hbefore := (h (hle.trans_lt hlt)).2
  refine ⟨hstop (by omega), fun x hx => ?_⟩
  rcases Nat.lt_or_ge x slice.freePos with hx' | hx'
  · exact hmap (hbefore x hx')
  · exact hall x hx' hx

/-! ## The size of a slice -/

/-- The size of the slice in slot `i` becomes known, and its memory is taken. -/
structure Sized (st : Stream) (i : ℕ) (s s' : State) : Prop where
  unknown : (s.slices i).bytesKnown = false
  known : (s'.slices i).bytesKnown = true
  queue : s'.freeMemQueue =
    pcConsumed s.freeMemQueue (st.size (s.slices i).sliceNo.toNat)
  taken : s'.memTaken = s.memTaken + st.size (s.slices i).sliceNo.toNat

/-- The size of the slice and the free memory stay as they are. -/
structure Unsized (i : ℕ) (s s' : State) : Prop where
  known : (s'.slices i).bytesKnown = (s.slices i).bytesKnown
  queue : s'.freeMemQueue = s.freeMemQueue
  taken : s'.memTaken = s.memTaken

/-- What work on slot `i` does to the memory, and to the place where payloads land. -/
structure Touches (st : Stream) (i : ℕ) (s s' : State) : Prop where
  size : Unsized i s s' ∨ Sized st i s s'
  sliceNo : (s'.slices i).sliceNo = (s.slices i).sliceNo
  lands : (s.slices i).Lands → (s'.slices i).Lands

/-- Work that leaves the size and the memory alone. -/
theorem Touches.of_eq (hslice : (s'.slices i).bytesKnown = (s.slices i).bytesKnown ∧
      (s'.slices i).sliceNo = (s.slices i).sliceNo)
    (hlands : (s.slices i).Lands → (s'.slices i).Lands)
    (hqueue : s'.freeMemQueue = s.freeMemQueue) (htaken : s'.memTaken = s.memTaken) :
    Touches st i s s' :=
  ⟨.inl ⟨hslice.1, hqueue, htaken⟩, hslice.2, hlands⟩

/-- To do nothing touches nothing. -/
theorem Touches.refl (s : State) : Touches st i s s := .of_eq ⟨rfl, rfl⟩ id rfl rfl

/-- Two pieces of work, of which at most one can note the size. -/
theorem Touches.trans (h : Touches st i s s') (h' : Touches st i s' s'') : Touches st i s s'' where
  size := by
    rcases h.size with hsame | hsized
    · rcases h'.size with hsame' | hsized'
      · exact .inl ⟨hsame'.known.trans hsame.known, hsame'.queue.trans hsame.queue,
          hsame'.taken.trans hsame.taken⟩
      · refine .inr ⟨hsame.known ▸ hsized'.unknown, hsized'.known, ?_, ?_⟩
        · rw [hsized'.queue, hsame.queue, h.sliceNo]
        · rw [hsized'.taken, hsame.taken, h.sliceNo]
    · rcases h'.size with hsame' | hsized'
      · exact .inr ⟨hsized.unknown, hsame'.known.trans hsized.known,
          hsame'.queue.trans hsized.queue, hsame'.taken.trans hsized.taken⟩
      · cases hsized'.unknown.symm.trans hsized.known
  sliceNo := h'.sliceNo.trans h.sliceNo
  lands hl := h'.lands (h.lands hl)

/-- Work that leaves the size, the map and the memory alone. -/
theorem Touches.frame (hslice : s'.slices i = s.slices i)
    (hqueue : s'.freeMemQueue = s.freeMemQueue) (htaken : s'.memTaken = s.memTaken) :
    Touches st i s s' :=
  .of_eq (by rw [hslice]; exact ⟨rfl, rfl⟩) (by rw [hslice]; exact id) hqueue htaken

/-- When the size becomes known, so much memory is taken. -/
theorem setSliceBytes_touches (h : setSliceBytes s i bytes = .ok s') (hoff : s.streaming = false)
    (hbytes : bytes = st.size (s.slices i).sliceNo.toNat) : Touches st i s s' := by
  obtain ⟨-, -, rfl⟩ | ⟨hunknown, rfl⟩ := setSliceBytes_ok h
  · exact .refl _
  · refine ⟨.inr ⟨hunknown, ?_, ?_, ?_⟩, ?_, ?_⟩
    · simp
    · simp [hoff, hbytes]
    · simp [hoff, hbytes]
    · simp
    · simp only [Function.update_self]
      exact id

/-- Noting the size does not switch streaming off. -/
theorem setSliceBytes_streaming (h : setSliceBytes s i bytes = .ok s') :
    s'.streaming = s.streaming := by
  obtain ⟨-, -, rfl⟩ | ⟨-, rfl⟩ := setSliceBytes_ok h <;> rfl

/-- Outside streaming mode, completing a slice takes no memory. -/
theorem checkSliceComplete_touches (h : checkSliceComplete s i = .ok s')
    (hoff : s.streaming = false) : Touches st i s s' := by
  obtain ⟨-, rfl⟩ | ⟨-, -, state, -, rfl⟩ := checkSliceComplete_ok h
  · exact .refl _
  · refine .of_eq ?_ ?_ ?_ ?_
    · simp
    · simp only [Function.update_self]
      exact id
    · simp [hoff]
    · simp [hoff]

/-- Copying a payload takes none. -/
theorem copyBlock_touches (p : Place) : Touches st i s (s.copyBlock p) := by
  obtain ⟨mem, blocks, heq⟩ := copyBlock_eq (s := s) p
  rw [heq]
  exact .frame rfl rfl rfl

/-- A data block may make the size known. -/
theorem noteBytes_touches (h : noteBytes s i bytes = .ok s') (hoff : s.streaming = false)
    (hbytes : bytes = st.size (s.slices i).sliceNo.toNat) :
    Touches st i s s' ∧ s'.streaming = false := by
  obtain hset | ⟨-, e, rfl⟩ := noteBytes_ok h
  · exact ⟨setSliceBytes_touches hset hoff hbytes, (setSliceBytes_streaming hset).trans hoff⟩
  · exact ⟨.frame rfl rfl rfl, hoff⟩

/-- Counting an arrival leaves the size, the map and the place for payloads alone. -/
theorem countArrival_keeps {l l' : List ℕ} (h : countArrival slice l b = .ok (slice', l')) :
    slice'.bytesKnown = slice.bytesKnown ∧ slice'.map = slice.map ∧
      slice'.freePos = slice.freePos := by
  rcases countArrival_ok h with
    ⟨-, rfl, -⟩ | ⟨-, -, -, -, -, ⟨-, -, rfl⟩ | ⟨-, -, -, -, -, -, rfl⟩⟩ <;> exact ⟨rfl, rfl, rfl⟩

/-- A data block moves the place for payloads on, past the blocks that are there. -/
theorem countData_touches (h : countData s i b = .ok s') (hoff : s.streaming = false) :
    Touches st i s s' := by
  obtain ⟨slice, localBlocks, hcount, hcheck⟩ := countData_ok h
  obtain ⟨hno, -, -⟩ := countArrival_place hcount
  obtain ⟨hknown, hmap, hpos⟩ := countArrival_keeps hcount
  refine Touches.trans (.of_eq ?_ (fun hlands => ?_) ?_ ?_) (checkSliceComplete_touches hcheck hoff)
  · rw [setSlice_self]
    exact ⟨hknown, hno⟩
  · rw [setSlice_self]
    refine hlands.skip ?_ ?_
    · dsimp only
      rw [hmap]
      exact Finset.subset_insert _ _
    · dsimp only
      rw [hmap, hpos]
  · rfl
  · rfl

/-- So a data block takes the memory of its slice, or none. -/
theorem processDataBlock_touches (h : processDataBlock s i n b bytes = .ok s')
    (hoff : s.streaming = false) (hbytes : bytes = st.size (s.slices i).sliceNo.toNat) :
    Touches st i s s' := by
  obtain rfl | ⟨-, -, -, s₁, hnote, hcount⟩ := processDataBlock_ok h
  · exact .refl _
  · have hcopy : Touches st i s (s.copyBlock (.ring (adr s (s.slices i) b))) :=
      copyBlock_touches _
    obtain ⟨mem, blocks, heq⟩ := copyBlock_eq (s := s) (.ring (adr s (s.slices i) b))
    rw [heq] at hnote hcopy
    obtain ⟨hnoted, hoff'⟩ : Touches st i _ s₁ ∧ s₁.streaming = false :=
      noteBytes_touches hnote hoff hbytes
    exact (hcopy.trans hnoted).trans (countData_touches hcount hoff')

/-- The first FEC block takes none. -/
theorem initSliceForFec_touches (s : State) (i stripes : ℕ) :
    Touches st i s (initSliceForFec s i stripes) ∧
      (initSliceForFec s i stripes).streaming = s.streaming := by
  unfold initSliceForFec
  cases s.useFec <;> refine ⟨.of_eq ?_ ?_ rfl rfl, rfl⟩ <;> simp [State.setSlice, Slice.Lands]

/-- A FEC block that is stored closes the slice to payloads. -/
theorem countFec_touches (h : countFec s i stripes b = .ok s') (hoff : s.streaming = false) :
    Touches st i s s' := by
  obtain (⟨-, hcheck⟩ | rfl) | ⟨stripe, -, -, -, mem, blocks, -, rfl⟩ := countFec_ok h
  · have hsame : Touches st i s (s.enter (.advanceReceivedPointer :: cleanupWithoutFec s)) :=
      .frame rfl rfl rfl
    exact hsame.trans (checkSliceComplete_touches hcheck hoff)
  · exact .refl _
  · refine .of_eq ?_ ?_ rfl rfl
    · simp
    · simp only [Function.update_self]
      exact id

/-- So a FEC block takes the memory of its slice, or none. -/
theorem processFecBlock_touches (h : processFecBlock s i stripes b bytes = .ok s')
    (hoff : s.streaming = false) (hbytes : bytes = st.size (s.slices i).sliceNo.toNat) :
    Touches st i s s' := by
  obtain rfl | ⟨-, s₁, hset, hcase⟩ := processFecBlock_ok h
  · exact .refl _
  · have hsized := setSliceBytes_touches hset hoff hbytes
    have hoff' : s₁.streaming = false := (setSliceBytes_streaming hset).trans hoff
    obtain ⟨-, hcount⟩ | ⟨-, -, rfl⟩ | ⟨-, -, hcount⟩ := hcase
    · obtain ⟨hinit, hstreaming⟩ : Touches st i s₁ (initSliceForFec s₁ i stripes) ∧
          (initSliceForFec s₁ i stripes).streaming = s₁.streaming :=
        initSliceForFec_touches s₁ i stripes
      exact (hsized.trans hinit).trans (countFec_touches hcount (hstreaming.trans hoff'))
    · exact hsized
    · exact hsized.trans (countFec_touches hcount hoff')

/-- So does a REQACK. -/
theorem processReqAck_touches {rxmit : ℕ} (h : processReqAck s n bytes rxmit = .ok s')
    (hoff : s.streaming = false) (hfound : ∀ j, s.found = some j → j = i)
    (hbytes : s.found = some i → bytes = st.size (s.slices i).sliceNo.toNat) :
    Touches st i s s' := by
  obtain ⟨-, rfl⟩ | ⟨-, -, rfl⟩ | ⟨-, j, s₁, hj, hset, hcheck⟩ := processReqAck_ok h
  · exact .refl _
  · exact .frame rfl rfl rfl
  · obtain rfl := hfound j hj
    have hsized := setSliceBytes_touches hset hoff (hbytes hj)
    obtain ⟨msg, hanswer⟩ := answer_eq (s := s₁) (i := j) rxmit
    rw [hanswer] at hcheck
    have hsame : Touches st j s₁
        ((s₁.send msg).enter (.advanceReceivedPointer :: cleanupWithoutFec s₁)) :=
      .frame rfl rfl rfl
    have hoff' : s₁.streaming = false := (setSliceBytes_streaming hset).trans hoff
    exact (hsized.trans hsame).trans (checkSliceComplete_touches hcheck hoff')

/-- The end of `processFecBlock` takes none. -/
theorem finishFecBlock_touches (h : finishFecBlock s i = .ok s') (hoff : s.streaming = false) :
    Touches st i s s' := by
  refine Touches.trans (.of_eq ?_ (fun _ => ?_) ?_ ?_) (checkSliceComplete_touches h hoff)
  · simp [State.enter]
  · rw [setSlice_self]
    exact fun hlt => absurd hlt (lt_irrefl _)
  · rfl
  · rfl

/-- The treatment of a message of the stream. -/
theorem process_touches {msg : ServerMsg} (h : process s msg = .ok s') (hsends : st.Sends msg)
    (hoff : s.streaming = false) (hfound : ∀ j, s.found = some j → j = i)
    (hno : s.found = some i → (s.slices i).sliceNo = sliceNoOf msg) : Touches st i s s' := by
  unfold process at h
  cases hsends with
  | data n b hn hb =>
    cases hj : s.found with
    | none =>
      rw [hj] at h
      obtain rfl := Except.ok.inj h
      exact .refl _
    | some j =>
      obtain rfl := hfound j hj
      rw [hj] at h
      exact processDataBlock_touches h hoff (by rw [hno hj]; rfl)
  | fec n b payload hn hb hpayload =>
    cases hj : s.found with
    | none =>
      rw [hj] at h
      obtain rfl := Except.ok.inj h
      exact .refl _
    | some j =>
      obtain rfl := hfound j hj
      rw [hj] at h
      exact processFecBlock_touches h hoff (by rw [hno hj]; rfl)
  | reqack n rxmit readySet hn =>
    exact processReqAck_touches h hoff hfound fun hj => by rw [hno hj]; rfl
  | hello =>
    obtain rfl := Except.ok.inj h
    exact .refl _

/-! ## The memory in use -/

/-- The bytes that the writer has taken out of the data queue and not given back yet. -/
def WriterPc.owed : WriterPc → ℕ
  | .produce n => n
  | _ => 0

/-- Where the slices lie in the ring, and how the two queues count its bytes. -/
structure Memory (st : Stream) (s : State) : Prop where
  free : s.freeMemQueue.Holds s.dataBufSize (s.dataBufSize + s.memReturned) s.memTaken
  opened : s.freeMemQueue.atEnd = false
  data : s.data.Holds s.dataBufSize s.released s.written
  known : ∀ k, k + 1 < s.started → s.started ≤ k + nrSlices →
    (s.slices (k % nrSlices)).bytesKnown = true
  taken : (∀ k, k + 1 = s.started → (s.slices (k % nrSlices)).bytesKnown = true) →
    s.memTaken = st.start s.started
  untaken : ∀ k, k + 1 = s.started → (s.slices (k % nrSlices)).bytesKnown = false →
    s.memTaken = st.start k
  room : ∀ k, k + 1 = s.started →
    st.start k + st.blockSize * maxSliceSize ≤ s.memReturned + s.dataBufSize
  base : ∀ k, s.freed ≤ k ∨ k + 1 = s.started → k < s.started →
    (s.slices (k % nrSlices)).base = st.start k % s.dataBufSize
  reserved : ∀ i n rest, s.tasks = .reserve i n :: rest →
    (s.slices i).base = s.memTaken % s.dataBufSize
  returned : s.memReturned + s.writer.owed = s.written
  writing : ∀ pos n, s.writer = .write pos n → pos = s.written % s.dataBufSize ∧
    s.written + n ≤ s.released ∧ s.written % s.dataBufSize + n ≤ s.dataBufSize
  consumed : ∀ n, s.writer = .consumed n → s.written + n ≤ s.released
  lands : ∀ i, (s.slices i).Lands

variable {t : Task} {rest : List Task} {k : ℕ}

/-- The memory of every slice of known size has been taken. -/
theorem Memory.start_le (h : Memory st s) (hk : k < s.started)
    (hknown : (s.slices (k % nrSlices)).bytesKnown = true) : st.start (k + 1) ≤ s.memTaken := by
  by_cases hall : ∀ j, j + 1 = s.started → (s.slices (j % nrSlices)).bytesKnown = true
  · rw [h.taken hall]
    exact st.start_mono hk
  · push Not at hall
    obtain ⟨j, hj, hunknown⟩ := hall
    have hunknown : (s.slices (j % nrSlices)).bytesKnown = false := Bool.not_eq_true _ ▸ hunknown
    have hne : k ≠ j := by
      rintro rfl
      rw [hunknown] at hknown
      cases hknown
    rw [h.untaken j hj hunknown]
    exact st.start_mono (by omega)

/-- What has been released has been taken. -/
theorem Memory.released_le (h : Memory st s) (hs : Settled st s) (hreleased : Released st s) :
    s.released ≤ s.memTaken := by
  have hfreed := hs.window.slots.freed_le
  by_cases hfrees : s.Frees
  · rw [hreleased.frees hfrees]
    obtain ⟨hlt, hstate⟩ : s.freed < s.started ∧
        (s.slices (s.freed % nrSlices)).state ≠ .receiving := by
      rcases hfrees with ⟨pos, bytes, tl, htl⟩ | ⟨pos, bytes, hpc⟩
      · obtain ⟨rfl, hlt, hstate⟩ := hs.window.stack.netFrees pos bytes tl htl
        exact ⟨hlt, by simp [hstate]⟩
      · obtain ⟨rfl, hlt, hstate⟩ := hs.window.slots.fecFrees pos bytes hpc
        exact ⟨hlt, by simp [hstate]⟩
    exact h.start_le hlt ((hs.tracked hlt hs.started_le).complete hstate).1
  · rw [hreleased.idle hfrees]
    rcases Nat.eq_zero_or_pos s.freed with hzero | hpos
    · rw [hzero]
      exact Nat.zero_le _
    · -- The slice that was freed last is complete.
      have hlt : s.freed - 1 < s.started := by omega
      have hstarted := hs.started_le
      rcases Nat.lt_or_ge s.freed s.started with hmore | hall
      · have hknown : ∀ j, j + 1 = s.started → st.start s.freed ≤ st.start j := fun j hj =>
          st.start_mono (by omega)
        by_cases hlast : ∀ j, j + 1 = s.started → (s.slices (j % nrSlices)).bytesKnown = true
        · rw [h.taken hlast]
          exact st.start_mono hfreed
        · push Not at hlast
          obtain ⟨j, hj, hunknown⟩ := hlast
          rw [h.untaken j hj (Bool.not_eq_true _ ▸ hunknown)]
          exact hknown j hj
      · have hfree := hs.window.slots.free (s.freed - 1 + nrSlices) (by simp only [nrSlices]; omega)
          (by omega)
        rw [Nat.add_mod_right] at hfree
        have hle : s.started ≤ s.freed - 1 + nrSlices := by simp only [nrSlices]; omega
        have hknown := ((hs.tracked hlt hle).complete (by simp [hfree])).1
        have hstart := h.start_le hlt hknown
        rwa [Nat.sub_add_cancel hpos] at hstart

/-- A step that leaves the memory, and the sizes and places of the slices alone. -/
theorem Memory.congr (h : Memory st s)
    (hqueues : s'.freeMemQueue = s.freeMemQueue ∧ s'.data = s.data ∧ s'.dataBufSize = s.dataBufSize)
    (hcounts : s'.memTaken = s.memTaken ∧ s'.memReturned = s.memReturned ∧
      s'.released = s.released ∧ s'.written = s.written)
    (hwriter : s'.writer = s.writer) (hstarted : s'.started = s.started)
    (hfreed : s.freed ≤ s'.freed)
    (hslices : ∀ j, (s'.slices j).bytesKnown = (s.slices j).bytesKnown ∧
      (s'.slices j).base = (s.slices j).base ∧ ((s.slices j).Lands → (s'.slices j).Lands))
    (hreserved : ∀ i n tl, s'.tasks = .reserve i n :: tl → ∃ tl', s.tasks = .reserve i n :: tl') :
    Memory st s' := by
  obtain ⟨hfree, hdata, hsize⟩ := hqueues
  obtain ⟨htaken, hreturned, hreleased, hwritten⟩ := hcounts
  constructor
  · rw [hfree, hsize, hreturned, htaken]
    exact h.free
  · rw [hfree]
    exact h.opened
  · rw [hdata, hsize, hreleased, hwritten]
    exact h.data
  · intro k hk hle
    rw [(hslices _).1]
    exact h.known k (hstarted ▸ hk) (hstarted ▸ hle)
  · intro hall
    rw [htaken, hstarted]
    exact h.taken fun k hk => (hslices _).1 ▸ hall k (hstarted ▸ hk)
  · intro k hk hunknown
    rw [htaken]
    exact h.untaken k (hstarted ▸ hk) ((hslices _).1 ▸ hunknown)
  · intro k hk
    rw [hreturned, hsize]
    exact h.room k (hstarted ▸ hk)
  · intro k hk hlt
    rw [(hslices _).2.1, hsize]
    exact h.base k (hk.imp hfreed.trans (hstarted ▸ ·)) (hstarted ▸ hlt)
  · intro i n tl htl
    obtain ⟨tl', htl'⟩ := hreserved i n tl htl
    rw [(hslices _).2.1, htaken, hsize]
    exact h.reserved i n tl' htl'
  · rw [hreturned, hwriter, hwritten]
    exact h.returned
  · intro pos n hpc
    rw [hwritten, hsize, hreleased]
    exact h.writing pos n (hwriter ▸ hpc)
  · intro n hpc
    rw [hwritten, hreleased]
    exact h.consumed n (hwriter ▸ hpc)
  · intro i
    exact (hslices i).2.2 (h.lands i)

/-- A slice of unknown size is the one that was started last. -/
theorem Memory.last_of_unknown (h : Memory st s) (hs : Settled st s)
    (htracked : (s.slices i).Tracked st) (hunknown : (s.slices i).bytesKnown = false) :
    ∃ k, k + 1 = s.started ∧ i = k % nrSlices ∧ (s.slices i).sliceNo = k := by
  have hreceiving : (s.slices i).state = .receiving := by
    by_contra hstate
    rw [(htracked.complete hstate).1] at hunknown
    cases hunknown
  obtain ⟨k, hk, hlt, rfl, -⟩ := hs.window.slots.inUse hs.queue.beyond (i := i) (by simp [hreceiving])
  have hstarted := hs.started_le
  have hlast : k + 1 = s.started := by
    by_contra hne
    rw [h.known k (by omega) (by omega)] at hunknown
    cases hunknown
  exact ⟨k, hlast, rfl, hs.sliceNo_eq hlt (by omega)⟩

/-- Work on a slice may take its memory. -/
theorem Memory.worked {s₀ : State} (h : Memory st s) (hs : Settled st s) (hst : st.Valid)
    (hw : Works i s₀ s') (htouches : Touches st i s₀ s')
    (hqueues : s₀.freeMemQueue = s.freeMemQueue ∧ s₀.data = s.data ∧
      s₀.dataBufSize = s.dataBufSize)
    (hcounts : s₀.memTaken = s.memTaken ∧ s₀.memReturned = s.memReturned ∧
      s₀.released = s.released ∧ s₀.written = s.written)
    (hwriter : s₀.writer = s.writer) (hplaces : s₀.started = s.started ∧ s₀.freed = s.freed)
    (hslices : s₀.slices = s.slices) (hreserved : ∀ i n tl, s'.tasks ≠ .reserve i n :: tl)
    (htracked : (s.slices i).bytesKnown = false → (s.slices i).Tracked st) : Memory st s' := by
  obtain ⟨hfree, hdata, hsize⟩ := hqueues
  obtain ⟨htaken, hreturned, hreleased, hwritten⟩ := hcounts
  have hdata' : s'.data = s.data := (congrArg Rest.data hw.rest_eq).trans hdata
  have hsize' : s'.dataBufSize = s.dataBufSize :=
    (congrArg Rest.dataBufSize hw.rest_eq).trans hsize
  have hreturned' : s'.memReturned = s.memReturned :=
    (congrArg Rest.memReturned hw.rest_eq).trans hreturned
  have hreleased' : s'.released = s.released :=
    (congrArg Rest.released hw.rest_eq).trans hreleased
  have hwritten' : s'.written = s.written := (congrArg Rest.written hw.rest_eq).trans hwritten
  have hwriter' : s'.writer = s.writer := (congrArg Rest.writer hw.rest_eq).trans hwriter
  have hstarted' : s'.started = s.started := (congrArg Rest.started hw.rest_eq).trans hplaces.1
  have hfreed' : s'.freed = s.freed := (congrArg Rest.freed hw.rest_eq).trans hplaces.2
  have hothers : ∀ j, j ≠ i → s'.slices j = s.slices j := by
    intro j hj
    rw [hw.others j hj, hslices]
  have hbase : ∀ j, (s'.slices j).base = (s.slices j).base := by
    intro j
    rcases eq_or_ne j i with rfl | hj
    · rw [hw.base_eq, hslices]
    · rw [hothers j hj]
  have hlands : ∀ j, (s.slices j).Lands → (s'.slices j).Lands := by
    intro j
    rcases eq_or_ne j i with rfl | hj
    · exact hslices ▸ htouches.lands
    · rw [hothers j hj]
      exact id
  rcases htouches.size with ⟨hknown, hqueue, htaken'⟩ | ⟨hunknown, hknown, hqueue, htaken'⟩
  · refine h.congr ⟨hqueue.trans hfree, hdata', hsize'⟩
      ⟨htaken'.trans htaken, hreturned', hreleased', hwritten'⟩ hwriter' hstarted' hfreed'.ge
      (fun j => ⟨?_, hbase j, hlands j⟩) fun j m tl htl => absurd htl (hreserved j m tl)
    rcases eq_or_ne j i with rfl | hj
    · rw [hknown, hslices]
    · rw [hothers j hj]
  · rw [hslices] at hunknown hqueue htaken'
    obtain ⟨k, hk, rfl, hno⟩ := h.last_of_unknown hs (htracked hunknown) hunknown
    rw [hno, Int.toNat_natCast] at hqueue htaken'
    have hbefore := h.untaken k hk hunknown
    have hroom := h.room k hk
    have hle : st.size k ≤ st.blockSize * maxSliceSize := hst.size_le k
    have hqueue' : s'.freeMemQueue = pcConsumed s.freeMemQueue (st.size k) := by rw [hqueue, hfree]
    have hafter : s'.memTaken = st.start s.started := by
      rw [htaken', htaken, hbefore, ← hk, st.start_succ]
    constructor
    · rw [hqueue', hsize', hreturned', htaken', htaken]
      exact h.free.pcConsumed (by omega)
    · rw [hqueue']
      exact h.opened
    · rw [hdata', hsize', hreleased', hwritten']
      exact h.data
    · intro j hj hle'
      rw [hstarted'] at hj hle'
      rw [hothers _ (mod_slots_ne (by omega) (by omega))]
      exact h.known j hj hle'
    · intro _
      rw [hafter, hstarted']
    · intro j hj hcontra
      obtain rfl : j = k := by omega
      rw [hknown] at hcontra
      cases hcontra
    · intro j hj
      rw [hreturned', hsize']
      exact h.room j (hstarted' ▸ hj)
    · intro j hj hlt
      rw [hbase, hsize']
      exact h.base j (hj.imp (hfreed' ▸ ·) (hstarted' ▸ ·)) (hstarted' ▸ hlt)
    · intro j m tl htl
      exact absurd htl (hreserved j m tl)
    · rw [hreturned', hwriter', hwritten']
      exact h.returned
    · intro pos m hpc
      rw [hwritten', hsize', hreleased']
      exact h.writing pos m (hwriter' ▸ hpc)
    · intro m hpc
      rw [hwritten', hreleased']
      exact h.consumed m (hwriter' ▸ hpc)
    · exact fun j => hlands j (h.lands j)

/-- A slice is given to the writer. -/
theorem Memory.release {bytes : ℕ} {q : Produconsum} (h : Memory st s) (hs : Settled st s)
    (hstate : (s.slices (pcGetProducerPosition s.freeSlicesPc)).state = .done ∨
      (s.slices (pcGetProducerPosition s.freeSlicesPc)).state = .fecDone)
    (hreleased : s.released + bytes = st.start (s.freed + 1)) (hq : pcProduce s.data bytes = some q)
    (hqueues : s'.freeMemQueue = s.freeMemQueue ∧ s'.data = q ∧ s'.dataBufSize = s.dataBufSize)
    (hcounts : s'.memTaken = s.memTaken ∧ s'.memReturned = s.memReturned ∧
      s'.released = s.released + bytes ∧ s'.written = s.written)
    (hwriter : s'.writer = s.writer) (hplaces : s'.started = s.started ∧ s'.freed = s.freed)
    (hslices : s'.slices = s.slices)
    (hreserved : ∀ i n tl, s'.tasks = .reserve i n :: tl → ∃ tl', s.tasks = .reserve i n :: tl') :
    Memory st s' := by
  obtain ⟨hfree, hdata, hsize⟩ := hqueues
  obtain ⟨htaken, hreturned, hreleased', hwritten⟩ := hcounts
  obtain ⟨hstarted, hfreed⟩ := hplaces
  rw [hs.window.slots.producerPosition] at hstate
  have hlt : s.freed < s.started := by
    rcases hstate with hstate | hstate
    · exact hs.window.slots.freed_lt_of_state (x := .done) (by simp) hstate
    · exact hs.window.slots.freed_lt_of_state (x := .fecDone) (by simp) hstate
  have htracked := hs.tracked hlt hs.started_le
  have hknown := (htracked.complete (by rcases hstate with hstate | hstate <;> simp [hstate])).1
  have hle := h.start_le hlt hknown
  have hfit := h.free.consumed_le
  have hreturns := h.returned
  obtain ⟨q', hq', hholds, -⟩ := h.data.pcProduce (n := bytes) (by omega)
  obtain rfl := Option.some.inj (hq.symm.trans hq')
  constructor
  · rw [hfree, hsize, hreturned, htaken]
    exact h.free
  · rw [hfree]
    exact h.opened
  · rw [hdata, hsize, hreleased', hwritten]
    exact hholds
  · rw [hstarted, hslices]
    exact h.known
  · rw [hstarted, hslices, htaken]
    exact h.taken
  · rw [hstarted, hslices, htaken]
    exact h.untaken
  · rw [hstarted, hreturned, hsize]
    exact h.room
  · rw [hstarted, hfreed, hslices, hsize]
    exact h.base
  · intro i n tl htl
    obtain ⟨tl', htl'⟩ := hreserved i n tl htl
    rw [hslices, htaken, hsize]
    exact h.reserved i n tl' htl'
  · rw [hreturned, hwriter, hwritten]
    exact h.returned
  · intro pos n hpc
    obtain ⟨hpos, hn, hend⟩ := h.writing pos n (hwriter ▸ hpc)
    rw [hwritten, hsize, hreleased']
    exact ⟨hpos, by omega, hend⟩
  · intro n hpc
    have hn := h.consumed n (hwriter ▸ hpc)
    rw [hwritten, hreleased']
    omega
  · rw [hslices]
    exact h.lands

/-- The mark at the end of the data does not change the account of the memory. -/
theorem Memory.endData (h : Memory st s) (hdata : s'.data = pcProduceEnd s.data)
    (hqueues : s'.freeMemQueue = s.freeMemQueue ∧ s'.dataBufSize = s.dataBufSize)
    (hcounts : s'.memTaken = s.memTaken ∧ s'.memReturned = s.memReturned ∧
      s'.released = s.released ∧ s'.written = s.written)
    (hwriter : s'.writer = s.writer) (hplaces : s'.started = s.started ∧ s'.freed = s.freed)
    (hslices : s'.slices = s.slices)
    (hreserved : ∀ i n tl, s'.tasks = .reserve i n :: tl → ∃ tl', s.tasks = .reserve i n :: tl') :
    Memory st s' := by
  have hclosed : Memory st { s' with data := s.data } := by
    refine h.congr ⟨hqueues.1, rfl, hqueues.2⟩ hcounts hwriter hplaces.1 hplaces.2.ge
      (fun j => ?_) hreserved
    rw [show ({ s' with data := s.data } : State).slices = s.slices from hslices]
    exact ⟨rfl, rfl, id⟩
  refine { hclosed with data := ?_ }
  rw [hdata]
  exact hclosed.data.pcProduceEnd

/-- The bytes of the slice that is being freed have been released. -/
theorem Released.next (h : Released st s') (hfrees : s'.Frees) (hfreed : s'.freed = s.freed) :
    s'.released = st.start (s.freed + 1) := hfreed ▸ h.frees hfrees

/-- A step that leaves the queues, the counts and the slices alone keeps the account of the
memory, unless it enters the task of reserving. -/
theorem Memory.stay (h : Memory st s) (hqueues : s'.freeMemQueue = s.freeMemQueue ∧
      s'.data = s.data ∧ s'.dataBufSize = s.dataBufSize)
    (hcounts : s'.memTaken = s.memTaken ∧ s'.memReturned = s.memReturned ∧
      s'.released = s.released ∧ s'.written = s.written)
    (hwriter : s'.writer = s.writer) (hstarted : s'.started = s.started)
    (hfreed : s'.freed = s.freed) (hslices : s'.slices = s.slices)
    (htasks : ∀ i n tl, s'.tasks ≠ .reserve i n :: tl) : Memory st s' := by
  refine h.congr hqueues hcounts hwriter hstarted hfreed.ge (fun j => ?_) fun i n tl htl =>
    absurd htl (htasks i n tl)
  rw [hslices]
  exact ⟨rfl, rfl, id⟩

/-- Nothing reserves memory behind another task. -/
theorem Settled.rest_ne_reserve (hs : Settled st s) (ht : s.tasks = t :: rest) :
    ∀ i n tl, rest ≠ .reserve i n :: tl := by
  have hchain : (t :: rest).IsChain Follows := ht ▸ hs.window.stack.chain
  intro i n tl heq
  have hnone := (rest_outer hchain).1
  rw [heq] at hnone
  cases hnone

/-- Work on a slice does not leave the task of reserving behind. -/
theorem Leaves.tasks_ne_reserve (hleaves : Leaves i s₀ s') (htasks : s₀.tasks = rest)
    (hrest : ∀ i n tl, rest ≠ .reserve i n :: tl) :
    ∀ j n tl, s'.tasks ≠ .reserve j n :: tl := by
  intro j n tl heq
  obtain ⟨l, htasks', hl⟩ := hleaves.closes htasks
  rw [htasks'] at heq
  cases l with
  | nil => exact hrest j n tl heq
  | cons x l =>
    obtain rfl := (List.cons.inj heq).1
    cases hl _ List.mem_cons_self

/-- The slot that is taken gets the address up to which memory is taken; it is not one of those
whose address matters. -/
theorem Memory.takeSlot {n : ℤ} (h : Memory st s) (hs : Settled st s)
    (ht : s.tasks = .takeSlot n :: rest) (hi : i = pcGetConsumerPosition s.freeSlicesPc)
    (hfree : (s.slices i).state = .free) : Memory st { s with
      freeSlicesPc := pcConsumed s.freeSlicesPc 1
      allocated := s.allocated + 1
      tasks := .reserve i n :: rest
      slices := Function.update s.slices i
        { s.slices i with base := pcGetConsumerPosition s.freeMemQueue } } := by
  have hslot : i = s.started % nrSlices := by
    rw [hi, hs.window.slots.consumerPosition, hs.window.stack.settled (by rw [ht]; rfl)]
  have hother : ∀ k, s.freed ≤ k ∨ k + 1 = s.started → k < s.started → k % nrSlices ≠ i := by
    rintro k (hk | hk) hlt heq
    · exact hs.window.slots.taken k hk hlt (heq ▸ hfree)
    · rw [hslot] at heq
      exact mod_slots_ne hlt (by simp only [nrSlices]; omega) heq
  have hknown : ∀ j, (Function.update s.slices i
      { s.slices i with base := pcGetConsumerPosition s.freeMemQueue } j).bytesKnown =
        (s.slices j).bytesKnown := by
    intro j
    rcases eq_or_ne j i with rfl | hj
    · rw [Function.update_self]
    · rw [Function.update_of_ne hj]
  refine { h with
    known := fun k hk hle => (hknown _).trans (h.known k hk hle)
    taken := fun hall => h.taken fun k hk => (hknown _).symm.trans (hall k hk)
    untaken := fun k hk hunknown => h.untaken k hk ((hknown _).symm.trans hunknown)
    base := fun k hk hlt => ?_
    reserved := fun j m tl htl => ?_
    lands := fun j => ?_ }
  · dsimp only at hk hlt ⊢
    rw [Function.update_of_ne (hother k hk hlt)]
    exact h.base k hk hlt
  · obtain ⟨rfl, -⟩ := Task.reserve.inj (List.cons.inj htl).1
    dsimp only
    rw [Function.update_self]
    exact h.free.consumerPosition_eq
  · dsimp only
    rcases eq_or_ne j i with rfl | hj
    · rw [Function.update_self]
      exact h.lands j
    · rw [Function.update_of_ne hj]
      exact h.lands j

/-- A slice begins where the last one ends, and there is room for the largest one. -/
theorem Memory.reserve {n : ℤ} {m : ℕ} {s₁ : State} (h : Memory st s) (hs : Settled st s)
    (hst : st.Valid) (ht : s.tasks = .reserve i n :: rest)
    (hmem : pcConsume s.freeMemQueue (s.config.blockSize * maxSliceSize) = some m)
    (hinit : initSlice (s.popped rest) i n = .ok s₁) :
    Memory st { s₁ with found := some i, started := s₁.started + 1 } := by
  obtain ⟨hallocated, rfl⟩ := hs.window.stack.reserved i (by rw [ht]; rfl)
  obtain ⟨-, hcurrent, -, guess, -, rfl⟩ := initSlice_ok hinit
  have hroom := hs.window.slots.allocated_le
  have hfreed := hs.window.slots.freed_le
  have hlast : ∀ k, k + 1 = s.started → (s.slices (k % nrSlices)).bytesKnown = true := by
    intro k hk
    apply hcurrent (k % nrSlices)
    show s.currentSlice = _
    rw [hs.window.slots.current, if_neg (by omega), ← hk, Nat.add_sub_cancel]
  have htaken := h.taken hlast
  have hother : ∀ k, k < s.started → s.started < k + nrSlices →
      k % nrSlices ≠ s.started % nrSlices := fun k hk hlt => mod_slots_ne hk hlt
  have hfits : st.blockSize * maxSliceSize ≤ s.dataBufSize + s.memReturned - s.memTaken := by
    rw [h.free.pcConsume_eq, hs.accounts.blockSize, h.opened] at hmem
    by_contra hnot
    rw [if_neg (by simpa using hnot)] at hmem
    cases hmem
  have hpos : 0 < st.blockSize * maxSliceSize := Nat.mul_pos hst.blockSize_pos (by decide)
  refine { h with
    known := fun k hk hle => ?_, taken := fun hall => ?_, untaken := fun k hk _ => ?_
    room := fun k hk => ?_, base := fun k hk hlt => ?_, reserved := fun j m tl htl => ?_
    lands := fun j => ?_ }
  · simp only [State.popped] at hk hle ⊢
    rw [Function.update_of_ne (hother k (by omega) (by omega))]
    rcases Nat.lt_or_ge (k + 1) s.started with hlt | hge
    · exact h.known k hlt (by omega)
    · exact hlast k (by omega)
  · have hcontra := hall s.started rfl
    dsimp only at hcontra
    rw [Function.update_self] at hcontra
    cases hcontra
  · obtain rfl : k = s.started := Nat.succ.inj hk
    exact htaken
  · obtain rfl : k = s.started := Nat.succ.inj hk
    show st.start s.started + st.blockSize * maxSliceSize ≤ s.memReturned + s.dataBufSize
    omega
  · simp only [State.popped] at hk hlt ⊢
    rcases Nat.lt_or_ge k s.started with hlt' | hge
    · have hk : s.freed ≤ k := by omega
      rw [Function.update_of_ne (hother k hlt' (by omega))]
      exact h.base k (.inl hk) hlt'
    · obtain rfl : k = s.started := by omega
      rw [Function.update_self, ← htaken]
      exact h.reserved _ n rest ht
  · exact absurd htl (hs.rest_ne_reserve ht j m tl)
  · dsimp only
    rcases eq_or_ne j (s.started % nrSlices) with rfl | hj
    · rw [Function.update_self]
      exact fun _ => ⟨Finset.notMem_empty _, fun x hx => absurd hx (Nat.not_lt_zero x)⟩
    · rw [Function.update_of_ne hj]
      exact h.lands j

/-- A message is processed: for the slice it belongs to, or for none. -/
theorem Memory.process {msg : ServerMsg} (h : Memory st s) (hs : Settled st s) (hst : st.Valid)
    (ht : s.tasks = .process msg :: rest) (hprocess : process (s.popped rest) msg = .ok s') :
    Memory st s' := by
  have hrest := hs.rest_ne_reserve ht
  obtain ⟨i, hi, hw, hleaves⟩ := process_works_found hprocess
  have hsends := hs.accounts.sends msg (ht ▸ List.mem_cons_self)
  have hno : s.found = some i → (s.slices i).sliceNo = sliceNoOf msg :=
    hs.window.stack.found msg rest i ht
  cases hfound : s.found with
  | none =>
    obtain ⟨hslices, -⟩ := process_unfound hprocess hfound
    have htouches : Touches st i (s.popped rest) s' :=
      process_touches hprocess hsends hs.plain.notStreaming hi hno
    have hsame : (s'.slices i).bytesKnown = (s.slices i).bytesKnown := by
      rw [hslices]
      rfl
    rcases htouches.size with ⟨-, hqueue, htaken⟩ | ⟨hunknown, hknown, -, -⟩
    · refine h.stay ⟨hqueue, congrArg Rest.data hw.rest_eq, congrArg Rest.dataBufSize hw.rest_eq⟩
        ⟨htaken, congrArg Rest.memReturned hw.rest_eq, congrArg Rest.released hw.rest_eq,
          congrArg Rest.written hw.rest_eq⟩ (congrArg Rest.writer hw.rest_eq)
        (congrArg Rest.started hw.rest_eq) (congrArg Rest.freed hw.rest_eq) hslices
        (hleaves.tasks_ne_reserve rfl hrest)
    · rw [hsame] at hknown
      cases hunknown.symm.trans hknown
  | some j =>
    obtain rfl := hi j hfound
    refine h.worked hs hst hw (process_touches hprocess hsends hs.plain.notStreaming hi hno)
      ⟨rfl, rfl, rfl⟩ ⟨rfl, rfl, rfl, rfl⟩ rfl ⟨rfl, rfl⟩ rfl
      (hleaves.tasks_ne_reserve rfl hrest) fun _ => ?_
    exact hs.plain.tracked j (hno hfound ▸ sliceNoOf_ne)

/-- A turn of the loop of `advanceReceivedPointer` does not touch memory. -/
theorem Memory.advance (h : Memory st s) (hrest : ∀ i n tl, rest ≠ .reserve i n :: tl) (pos : ℕ) :
    Memory st (advance (s.popped rest) pos) := by
  unfold Receiver.advance
  split
  · exact h.stay ⟨rfl, rfl, rfl⟩ ⟨rfl, rfl, rfl, rfl⟩ rfl rfl rfl rfl (by simp [State.enter])
  · exact h.stay ⟨rfl, rfl, rfl⟩ ⟨rfl, rfl, rfl, rfl⟩ rfl rfl rfl rfl hrest

/-- Every step of the network thread. -/
theorem Memory.netMoves (h : Memory st s) (hs : Settled st s) (hreleased : Released st s)
    (hst : st.Valid) (hm : NetMoves s t rest s') (ht : s.tasks = t :: rest) : Memory st s' := by
  have hrest := hs.rest_ne_reserve ht
  cases hm with
  | join | lookBack | lookAhead | scanOn | behind | lost | caughtUp | fake | newSlice
  | waitForBlock | toCleanup =>
    exact h.stay ⟨rfl, rfl, rfl⟩ ⟨rfl, rfl, rfl, rfl⟩ rfl rfl rfl rfl (by simp)
  | restart hcurrent hlt hstreaming hinit =>
    rw [hs.plain.notStreaming] at hstreaming
    cases hstreaming
  | scanFound | scanFree | enqueue | cleaned =>
    exact h.stay ⟨rfl, rfl, rfl⟩ ⟨rfl, rfl, rfl, rfl⟩ rfl rfl rfl rfl hrest
  | force => cases hs.plain.noFake _ (ht ▸ List.mem_cons_self)
  | takeSlot hi hfree => exact h.takeSlot hs ht hi hfree
  | reserve hmem hinit => exact h.reserve hs hst ht hmem hinit
  | process hprocess => exact h.process hs hst ht hprocess
  | @reuse i b blocks _ _ hlocal hfinish =>
    obtain ⟨hw, hleaves⟩ := finishFecBlock_works hfinish
    have hknown := hs.plain.known i (.inl (ht ▸ List.mem_cons_self))
    refine h.worked hs hst hw (finishFecBlock_touches hfinish hs.plain.notStreaming)
      ⟨rfl, rfl, rfl⟩ ⟨rfl, rfl, rfl, rfl⟩ rfl ⟨rfl, rfl⟩ rfl
      (hleaves.tasks_ne_reserve rfl hrest) fun hunknown => ?_
    rw [hknown] at hunknown
    cases hunknown
  | @takeBlock i _ _ hfinish =>
    obtain ⟨hw, hleaves⟩ := finishFecBlock_works hfinish
    have hknown := hs.plain.known i (.inr (ht ▸ List.mem_cons_self))
    refine h.worked hs hst hw (finishFecBlock_touches hfinish hs.plain.notStreaming)
      ⟨rfl, rfl, rfl⟩ ⟨rfl, rfl, rfl, rfl⟩ rfl ⟨rfl, rfl⟩ rfl
      (hleaves.tasks_ne_reserve rfl hrest) fun hunknown => ?_
    rw [hknown] at hunknown
    cases hunknown
  | advanceFirst hadvance =>
    subst hadvance
    exact h.advance hrest s.receivedPtr
  | advance hadvance =>
    subst hadvance
    exact h.advance hrest _
  | @release pos bytes _ s₁ hpos hstate hclean =>
    have hnext := hreleased.netMoves hs (.release hpos hstate hclean) ht
    obtain ⟨-, hslot, -⟩ | ⟨_, _, -, -, hbytes, hslot, hdata⟩ := cleanupSlices_ok hclean
    · cases hslot
    · obtain ⟨rfl, rfl⟩ := Prod.mk.inj (Option.some.inj hslot)
      obtain ⟨-, rfl⟩ | ⟨-, q, hq, rfl⟩ := hdata
      · exact h.endData rfl ⟨rfl, rfl⟩ ⟨rfl, rfl, rfl, rfl⟩ rfl ⟨rfl, rfl⟩ rfl
          fun _ _ _ htl => by cases (List.cons.inj htl).1
      · exact h.release hs (.inl (hpos ▸ hstate)) (hnext.next (.inl ⟨_, _, _, rfl⟩) rfl) hq
          ⟨rfl, rfl, rfl⟩ ⟨rfl, rfl, rfl, rfl⟩ rfl ⟨rfl, rfl⟩ rfl
          fun _ _ _ htl => by cases (List.cons.inj htl).1
  | @freeSlot pos bytes _ s₁ hfree =>
    obtain ⟨q, -, rfl⟩ := freeSlot_ok hfree
    refine h.congr ⟨rfl, rfl, rfl⟩ ⟨rfl, rfl, rfl, rfl⟩ rfl rfl (Nat.le_succ _) (fun j => ?_)
      fun _ _ _ htl => by cases (List.cons.inj htl).1
    dsimp only
    rcases eq_or_ne j pos with rfl | hj
    · rw [Function.update_self]
      exact ⟨rfl, rfl, id⟩
    · rw [Function.update_of_ne hj]
      exact ⟨rfl, rfl, id⟩

/-- The FEC thread releases slices, and leaves the free memory alone. -/
theorem Memory.fecMoves (h : Memory st s) (hs : Settled st s) (hreleased : Released st s)
    (hm : FecMoves s s') : Memory st s' := by
  have hupdate : ∀ {i x}, x.bytesKnown = (s.slices i).bytesKnown → x.base = (s.slices i).base →
      ((s.slices i).Lands → x.Lands) →
      ∀ j, (Function.update s.slices i x j).bytesKnown = (s.slices j).bytesKnown ∧
        (Function.update s.slices i x j).base = (s.slices j).base ∧
        ((s.slices j).Lands → (Function.update s.slices i x j).Lands) := by
    intro i x hknown hbase hlands j
    rcases eq_or_ne j i with rfl | hj
    · rw [Function.update_self]
      exact ⟨hknown, hbase, hlands⟩
    · rw [Function.update_of_ne hj]
      exact ⟨rfl, rfl, id⟩
  have htasks : ∀ i n tl, s.tasks = .reserve i n :: tl → ∃ tl', s.tasks = .reserve i n :: tl' :=
    fun _ _ tl htl => ⟨tl, htl⟩
  cases hm with
  | takeDone | decode | freeBlock =>
    exact h.congr ⟨rfl, rfl, rfl⟩ ⟨rfl, rfl, rfl, rfl⟩ rfl rfl le_rfl (hupdate rfl rfl id) htasks
  | @releaseSlice pos bytes s₁ hpc hpos hstate hclean =>
    have hnext := hreleased.fecMoves hs (.releaseSlice hpc hpos hstate hclean)
    obtain ⟨-, hslot, -⟩ | ⟨_, _, -, -, hbytes, hslot, hdata⟩ := cleanupSlices_ok hclean
    · cases hslot
    · obtain ⟨rfl, rfl⟩ := Prod.mk.inj (Option.some.inj hslot)
      obtain ⟨-, rfl⟩ | ⟨-, q, hq, rfl⟩ := hdata
      · exact h.endData rfl ⟨rfl, rfl⟩ ⟨rfl, rfl, rfl, rfl⟩ rfl ⟨rfl, rfl⟩ rfl htasks
      · exact h.release hs (.inr (hpos ▸ hstate)) (hnext.next (.inr ⟨_, _, rfl⟩) rfl) hq
          ⟨rfl, rfl, rfl⟩ ⟨rfl, rfl, rfl, rfl⟩ rfl ⟨rfl, rfl⟩ rfl htasks
  | @freeSlot pos bytes s₁ hpc hfree =>
    obtain ⟨q, -, rfl⟩ := freeSlot_ok hfree
    exact h.congr ⟨rfl, rfl, rfl⟩ ⟨rfl, rfl, rfl, rfl⟩ rfl rfl (Nat.le_succ _) (hupdate rfl rfl id) htasks
  | _ =>
    exact h.congr ⟨rfl, rfl, rfl⟩ ⟨rfl, rfl, rfl, rfl⟩ rfl rfl le_rfl (fun _ => ⟨rfl, rfl, id⟩) htasks

/-- What the writer takes lies in the ring in one piece. -/
theorem Memory.contiguous {n : ℕ} (h : Memory st s)
    (hfull : pcConsumeContiguousMinAmount s.data 4096 = some n) :
    s.written + n ≤ s.released ∧ s.written % s.dataBufSize + n ≤ s.dataBufSize := by
  have hle := h.data.consumed_le
  have hlt := Nat.mod_lt s.written h.data.size_pos
  rw [h.data.consumeContiguous_eq] at hfull
  split at hfull
  · obtain rfl := Option.some.inj hfull
    split <;> omega
  · cases hfull

/-- The writer takes bytes of the data queue, writes them and gives their memory back. -/
theorem Memory.writerMoves (h : Memory st s) (hs : Settled st s) (hreleased : Released st s)
    (hm : WriterMoves s s') : Memory st s' := by
  have hreturned := h.returned
  cases hm with
  | finish hpc =>
    rw [hpc] at hreturned
    exact { h with returned := hreturned, writing := by simp, consumed := by simp }
  | @take n bytes hpc hfull hpos hle =>
    rw [hpc] at hreturned
    obtain ⟨hn, hend⟩ := h.contiguous hfull
    refine { h with returned := hreturned, writing := fun pos m heq => ?_, consumed := by simp }
    obtain ⟨rfl, rfl⟩ := WriterPc.write.inj heq
    refine ⟨h.data.consumerPosition_eq, ?_, ?_⟩
    · show s.written + bytes ≤ s.released
      omega
    · show s.written % s.dataBufSize + bytes ≤ s.dataBufSize
      omega
  | @write pos bytes n hpc hle =>
    rw [hpc] at hreturned
    obtain ⟨-, hn, -⟩ := h.writing pos bytes hpc
    refine { h with returned := hreturned, writing := by simp, consumed := fun m heq => ?_ }
    obtain rfl := WriterPc.consumed.inj heq
    show s.written + n ≤ s.released
    omega
  | @consume n hpc =>
    rw [hpc] at hreturned
    have hn := h.consumed n hpc
    refine { h with
      data := h.data.pcConsumed hn, returned := ?_, writing := by simp, consumed := by simp }
    show s.memReturned + n = s.written + n
    rw [← hreturned]
    rfl
  | @giveBack n q hpc hq =>
    rw [hpc] at hreturned
    have hreturned : s.memReturned + n = s.written := hreturned
    have hwritten := h.data.consumed_le
    have htaken := h.released_le hs hreleased
    obtain ⟨q', hq', hholds, hend⟩ := h.free.pcProduce (n := n) (by omega)
    obtain rfl := Option.some.inj (hq.symm.trans hq')
    refine { h with
      free := ?_, opened := hend.trans h.opened, room := fun k hk => ?_, returned := hreturned
      writing := by simp, consumed := by simp }
    · rw [Nat.add_assoc] at hholds
      exact hholds
    · have hroom := h.room k hk
      show st.start k + st.blockSize * maxSliceSize ≤ s.memReturned + n + s.dataBufSize
      omega

/-- So every move keeps the account of the memory. -/
theorem Memory.moves {a : Action} (h : Memory st s) (hs : Settled st s)
    (hreleased : Released st s) (hst : st.Valid) (hm : Moves s a s') : Memory st s' := by
  cases hm with
  | @receive msg mem blocks hidle hend =>
    refine h.congr ⟨rfl, rfl, rfl⟩ ⟨rfl, rfl, rfl, rfl⟩ rfl rfl le_rfl (fun _ => ⟨rfl, rfl, id⟩) ?_
    intro i n tl htl
    cases msg <;> cases htl
  | exitWait =>
    exact h.congr ⟨rfl, rfl, rfl⟩ ⟨rfl, rfl, rfl, rfl⟩ rfl rfl le_rfl (fun _ => ⟨rfl, rfl, id⟩)
      fun _ _ tl htl => ⟨tl, htl⟩
  | net ht hm => exact h.netMoves hs hreleased hst hm ht
  | fec hm => exact h.fecMoves hs hreleased hm
  | writer hm => exact h.writerMoves hs hreleased hm

/-- At the start all of the memory is free. -/
theorem memory_start (h : Starts st defaultMode s) : Memory st s := by
  obtain ⟨config, streaming, mem, blockData, hvalid, hblock, ⟨-, rfl⟩, hstart⟩ := h
  obtain ⟨freeMemQueue, _, _, hmem, -, -, rfl⟩ := start_eq hstart
  have hpos : 0 < config.blockSize * 4096 := Nat.mul_pos hvalid.blockSize_pos (by decide)
  have hopened : freeMemQueue.atEnd = false := by
    obtain ⟨q, hq, -, hend⟩ := (holds_make hpos hvalid.blockSize_lt).pcProduce
      (n := config.blockSize * 4096) (by omega)
    rw [Option.some.inj (hmem.symm.trans hq), hend]
    rfl
  have hfull := holds_full hpos hvalid.blockSize_lt hmem
  have hempty := holds_make hpos hvalid.blockSize_lt
  generalize config.blockSize * 4096 = size at *
  refine ⟨hfull, hopened, hempty, ?_, fun _ => rfl, ?_, ?_, ?_, ?_, rfl, by simp, by simp, ?_⟩
  · intro k hk
    exact absurd hk (Nat.not_lt_zero _)
  · intro k hk
    cases hk
  · intro k hk
    cases hk
  · intro k _ hk
    exact absurd hk (Nat.not_lt_zero _)
  · intro i n tl htl
    cases htl
  · exact fun i _ => ⟨Finset.notMem_empty _, fun x hx => absurd hx (Nat.not_lt_zero x)⟩

/-- In default mode the receiver keeps its memory in order, as long as it runs. -/
theorem memory_of_reachable (hst : st.Valid) (h : (system st defaultMode).Reachable s)
    (hrunning : s.failure = none) : Memory st s := by
  refine running_of_reachable (Q := fun s => Settled st s ∧ Released st s)
    (fun s hs hrun => ⟨settled_of_reachable hs hrun, released_of_reachable hs hrun⟩)
    (fun _ => memory_start) ?_ h hrunning
  intro s s' a hs hmemory _ hm
  exact hmemory.moves hs.1 hs.2 hst hm

end Udpcast.Receiver
