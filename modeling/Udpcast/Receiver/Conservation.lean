import Udpcast.Receiver.Pool

/-!
# Conservation of the pool

Every block of the pool is in one place as long as no slice is abandoned or completed by force
while it holds FEC blocks.
-/

namespace Udpcast.Receiver

open Queue
open Protocol

/-- `fecMain` is giving back the FEC blocks of slot `i`. -/
def FecPc.releases : FecPc → ℕ → Bool
  | .release j _ _, i => i = j
  | _, _ => false

/-- The slice in slot `i` is being received or decoded. -/
def State.inUse (s : State) (i : ℕ) : Bool :=
  (s.slices i).state = .receiving || (s.slices i).state = .fec || s.fecThread.releases i

/-- No descriptor of the slice has the address of a block. -/
def Slice.HoldsNothing (slice : Slice) : Prop := ∀ b, slice.holds b = 0

/-- Each block of the pool is in one place: among the free blocks, in the local list, ready as
the next block, or in a slice in use. The slots not in use hold nothing. -/
structure PoolConserved (s : State) : Prop where
  partition : ∀ b, s.freeAddresses.count b + s.localBlocks.count b + s.spare.count b +
    ∑ i ∈ (Finset.range nrSlices).filter (s.inUse ·), (s.slices i).holds b =
      if b < nrBlocks then 1 else 0
  idle : ∀ i, s.inUse i = false → (s.slices i).HoldsNothing

/-- `processFecBlock` stores the block in the slice. -/
def Slice.TakesFec (slice : Slice) (config : Config) (stripes blockNo bytes : ℕ) : Prop :=
  if slice.fecStripes = 0 then
    0 < countMissing slice ((bytes + config.blockSize - 1) / config.blockSize) stripes
      (blockNo % stripes)
  else
    slice.fecStripes = stripes ∧
      slice.fecBlocks (blockNo % stripes) < slice.missingDataBlocks (blockNo % stripes) ∧
      ∀ k < slice.fecBlocks (blockNo % stripes),
        (slice.fecDescs (blockNo % stripes + k * stripes)).fecBlockNo ≠ blockNo

/-- The task forgets no block: streaming does not abandon a slice with FEC blocks, no slice
with FEC blocks is completed by force, and no FEC block is stored in a slice that is decoded. -/
def Task.Keeps (s : State) : Task → Prop
  | .findSlice n => s.streaming = true → s.currentSlice = some 0 → s.currentSliceNo < n →
    (s.slices 0).HoldsNothing
  | .fakeFound => ∀ i ∈ s.found, (s.slices i).state = .receiving → (s.slices i).HoldsNothing
  | .process (.fec stripes _ blockNo bytes _) => ∀ i ∈ s.found, (s.slices i).state = .fecDone →
    ¬ (s.slices i).TakesFec s.config stripes blockNo bytes
  | _ => True

/-- The next step of the network thread forgets no block. -/
def KeepsBlocks (s : State) : Prop := ∀ t ∈ s.tasks.head?, t.Keeps s

variable {st : Stream} {s s' : State} {slice slice' slice'' : Slice} {i b n bytes : ℕ}

section Done

/-- What a slice holds depends on its stripes, its counts and its descriptors only. -/
theorem Slice.holdsNothing_congr (hstripes : slice'.fecStripes = slice.fecStripes)
    (hblocks : slice'.fecBlocks = slice.fecBlocks) (hdescs : slice'.fecDescs = slice.fecDescs)
    (h : slice.HoldsNothing) : slice'.HoldsNothing :=
  fun b => (Slice.holds_congr hstripes hblocks hdescs b).trans (h b)

/-- A slice that has only data blocks holds nothing. -/
theorem Counted.holdsNothing (h : Counted st slice)
    (hdata : slice.blocksTransferred = slice.dataBlocksTransferred) : slice.HoldsNothing := by
  have hsum : ∑ k ∈ Finset.range slice.fecStripes, (slice.fecBlocks k : ℤ) = 0 := by
    have hblocks := h.blocks
    rw [hdata, h.data] at hblocks
    omega
  rw [Finset.sum_eq_zero_iff_of_nonneg fun _ _ => Int.natCast_nonneg _] at hsum
  exact Slice.holds_of_blocks fun k hk => by
    have hzero := hsum k (Finset.mem_range.mpr hk)
    omega

/-- If work completes the slice with data blocks alone, it holds nothing then. -/
def Settles (slice slice' : Slice) : Prop :=
  slice'.state = .done → slice.state = .done ∨ slice'.HoldsNothing

/-- Work that leaves the state of the slice alone does not complete it. -/
theorem Settles.of_state (h : slice'.state = slice.state) : Settles slice slice' :=
  fun hdone => .inl (h ▸ hdone)

/-- What has been done before does not count, as long as it leaves the state alone. -/
theorem Settles.after (h : Settles slice' slice'') (hstate : slice'.state = slice.state) :
    Settles slice slice'' :=
  fun hdone => (h hdone).imp_left (hstate ▸ ·)

/-- A slice that is complete with data blocks alone has given back all its FEC blocks. -/
theorem checkSliceComplete_settles (h : checkSliceComplete s i = .ok s')
    (hsound : (s.slices i).Sound st) : Settles (s.slices i) (s'.slices i) := by
  rcases checkSliceComplete_ok h with ⟨-, rfl⟩ | ⟨hreceiving, -, state, hstate, rfl⟩
  · exact .of_state rfl
  · intro hdone
    dsimp only at hdone ⊢
    rw [Function.update_self] at hdone ⊢
    rcases hstate with ⟨-, hdata⟩ | ⟨rfl, -, -⟩
    · exact .inr (Slice.holdsNothing_congr rfl rfl rfl
        ((hsound.receiving hreceiving).1.holdsNothing hdata))
    · cases hdone

/-- So a data block that completes the slice leaves it without FEC blocks. -/
theorem processDataBlock_settles (h : processDataBlock s i n b bytes = .ok s')
    (hno : (s.slices i).sliceNo.toNat = n) (hbytes : bytes = st.size n) (hb : b < st.blocks n)
    (hsound : (s.slices i).Sound st) : Settles (s.slices i) (s'.slices i) := by
  rcases processDataBlock_ok h with rfl | ⟨hreceiving, hmap, -, s₁, hnote, hcount⟩
  · exact .of_state rfl
  · obtain ⟨hslices, -⟩ := copyBlock_slices (s := s) (.ring (adr s (s.slices i) b))
    have hpreserves := noteBytes_preserves hnote (by rw [hslices, hno, hbytes])
    have hsound₁ := hpreserves.sound (by rwa [hslices])
    obtain ⟨-, hmap', hno', hstate'⟩ := noteBytes_frame hnote
    rw [hslices] at hmap' hno' hstate'
    obtain ⟨slice, localBlocks, harrival, hcheck⟩ := countData_ok hcount
    have hplace := (countArrival_place harrival).2.2
    obtain ⟨hcounted, hheld⟩ := hsound₁.receiving (hstate'.trans hreceiving)
    rw [← hno, ← hno'] at hb
    refine (@checkSliceComplete_settles st _ _ _ hcheck ?_).after ?_
    · rw [setSlice_self]
      refine ⟨fun _ => ⟨hcounted.arrive hb (hmap' ▸ hmap) harrival, hheld.arrive harrival⟩,
        fun hfec => absurd (hplace.symm.trans hfec) ?_⟩
      simp [hstate', hreceiving]
    · rw [setSlice_self]
      exact hplace.trans hstate'

/-- A FEC block completes a slice with FEC blocks, if at all. -/
theorem countFec_settles {stripes : ℕ} (h : countFec s i stripes b = .ok s')
    (hsound : (s.slices i).Sound st) : Settles (s.slices i) (s'.slices i) := by
  rcases countFec_ok h with (⟨-, hcheck⟩ | rfl) | ⟨stripe, -, -, -, mem, blocks, -, rfl⟩
  · exact (checkSliceComplete_settles hcheck hsound :)
  · exact .of_state rfl
  · refine .of_state ?_
    dsimp only
    rw [Function.update_self]

/-- The same for the whole of `processFecBlock`. -/
theorem processFecBlock_settles (h : processFecBlock s i st.stripes b bytes = .ok s')
    (hblock : s.config.blockSize = st.blockSize)
    (hbytes : bytes = st.size (s.slices i).sliceNo.toNat)
    (hsound : (s.slices i).Sound st) : Settles (s.slices i) (s'.slices i) := by
  rcases processFecBlock_ok h with rfl | ⟨hstate, s₁, hset, hcase⟩
  · exact .of_state rfl
  · have hsound₁ := (setSliceBytes_preserves hset hbytes).sound hsound
    obtain ⟨hconfig, -, -, hstate'⟩ := setSliceBytes_frame hset
    rcases hcase with ⟨hzero, hcount⟩ | ⟨-, -, rfl⟩ | ⟨-, -, hcount⟩
    · have hfec : (s₁.slices i).state ≠ .fec := by
        rw [hstate']
        rcases hstate with hstate | hstate <;> simp [hstate]
      have hinit := initSliceForFec_preserves (hconfig ▸ hblock) hzero (setSliceBytes_known hset) hfec
      have hstate₂ := (initSliceForFec_works s₁ i st.stripes).2.2.2
      exact (countFec_settles hcount (hinit.sound hsound₁)).after (hstate₂.trans hstate')
    · exact .of_state hstate'
    · exact (countFec_settles hcount hsound₁).after hstate'

/-- A REQACK may complete a slice whose data blocks are all there. -/
theorem processReqAck_settles {rxmit : ℕ} (h : processReqAck s n bytes rxmit = .ok s')
    (hfound : s.found = some i) (hbytes : bytes = st.size (s.slices i).sliceNo.toNat)
    (hsound : (s.slices i).Sound st) : Settles (s.slices i) (s'.slices i) := by
  rcases processReqAck_ok h with ⟨-, rfl⟩ | ⟨-, -, rfl⟩ | ⟨-, j, s₁, hj, hset, hcheck⟩
  · exact .of_state rfl
  · exact .of_state rfl
  · obtain rfl := Option.some.inj (hfound.symm.trans hj)
    obtain ⟨msg, hanswer⟩ := answer_eq (s := s₁) (i := i) rxmit
    rw [hanswer] at hcheck
    have hsound₁ := (setSliceBytes_preserves hset hbytes).sound hsound
    exact Settles.after (checkSliceComplete_settles hcheck hsound₁ :) (setSliceBytes_frame hset).2.2.2

/-- A message leads to a slice that is done and holds nothing. -/
theorem process_settles {msg : ServerMsg} (h : process s msg = .ok s') (hsends : st.Sends msg)
    (hblock : s.config.blockSize = st.blockSize) (hfound : s.found = some i)
    (hno : (s.slices i).sliceNo = sliceNoOf msg) (hsound : (s.slices i).Sound st) :
    Settles (s.slices i) (s'.slices i) := by
  unfold process at h
  cases hsends with
  | data n b hn hb =>
    rw [hfound] at h
    exact processDataBlock_settles h (by rw [hno]; rfl) rfl hb hsound
  | fec n b payload hn hb hpayload =>
    rw [hfound] at h
    exact processFecBlock_settles h hblock (by rw [hno]; rfl) hsound
  | reqack n rxmit readySet hn =>
    exact processReqAck_settles h hfound (by rw [hno]; rfl) hsound
  | hello =>
    obtain rfl := Except.ok.inj h
    exact .of_state rfl

/-- So may the end of `processFecBlock`. -/
theorem finishFecBlock_settles (h : finishFecBlock s i = .ok s') (hsound : (s.slices i).Sound st) :
    Settles (s.slices i) (s'.slices i) := by
  refine (@checkSliceComplete_settles st _ _ _ h ?_).after ?_
  · rw [setSlice_self]
    exact hsound.freePos
  · rw [setSlice_self]

end Done

section Kept

/-- The slice after its size has been noted. -/
theorem setSliceBytes_slice (h : setSliceBytes s i bytes = .ok s') :
    s'.slices i = { s.slices i with bytesKnown := true, bytes := bytes } := by
  rcases setSliceBytes_ok h with ⟨hknown, hbytes, rfl⟩ | ⟨-, rfl⟩
  · rw [← hknown, ← hbytes]
  · dsimp only
    rw [Function.update_self]

/-- Completing a slice moves no block. -/
theorem checkSliceComplete_holds (h : checkSliceComplete s i = .ok s') (a : ℕ) :
    (s'.slices i).holds a = (s.slices i).holds a :=
  (checkSliceComplete_exchanges h).2.2 a

/-- A FEC block that is not taken leaves the descriptors alone. -/
theorem countFec_kept {stripes : ℕ} (h : countFec s i stripes b = .ok s')
    (hstripes : (s.slices i).fecStripes = stripes)
    (hnot : ¬ ((s.slices i).fecBlocks (b % stripes) < (s.slices i).missingDataBlocks (b % stripes) ∧
      ∀ k < (s.slices i).fecBlocks (b % stripes),
        ((s.slices i).fecDescs (b % stripes + k * stripes)).fecBlockNo ≠ b)) (a : ℕ) :
    (s'.slices i).holds a = (s.slices i).holds a := by
  subst hstripes
  rcases countFec_ok h with (⟨-, hcheck⟩ | rfl) | ⟨stripe, rfl, huseful, hnew, -⟩
  · exact checkSliceComplete_holds hcheck a
  · rfl
  · exact absurd ⟨huseful, hnew⟩ hnot

/-- A FEC block for a slice that is not being received moves no block, unless the slice is decoded
and takes it. -/
theorem processFecBlock_kept {stripes : ℕ} (h : processFecBlock s i stripes b bytes = .ok s')
    (hreceiving : (s.slices i).state ≠ .receiving) (hne : stripes ≠ 0)
    (hnot : (s.slices i).state = .fecDone → ¬ (s.slices i).TakesFec s.config stripes b bytes)
    (a : ℕ) : (s'.slices i).holds a = (s.slices i).holds a := by
  rcases processFecBlock_ok h with rfl | ⟨hstate, s₁, hset, hcase⟩
  · rfl
  · have hnot := hnot (hstate.resolve_left hreceiving)
    have hslice := setSliceBytes_slice hset
    have hholds := (setSliceBytes_holds hset).2.2.2 a
    have hconfig := (setSliceBytes_frame hset).1
    unfold Slice.TakesFec at hnot
    rcases hcase with ⟨hzero, hcount⟩ | ⟨-, -, rfl⟩ | ⟨hS, heq, hcount⟩
    · obtain ⟨-, -, hstripes, hblocks⟩ := initSliceForFec_pool s₁ i stripes
      have hzero' : (s.slices i).fecStripes = 0 := by rwa [hslice] at hzero
      rw [if_pos hzero'] at hnot
      refine (countFec_kept hcount hstripes ?_ a).trans ?_
      · rintro ⟨huseful, -⟩
        have hlt : b % stripes < stripes := Nat.mod_lt _ (Nat.pos_of_ne_zero hne)
        rw [hblocks _ hlt] at huseful
        rw [initSliceForFec_slice] at huseful
        dsimp only at huseful
        rw [if_pos hlt, hslice] at huseful
        exact hnot (by rw [← hconfig]; exact huseful)
      · rw [Slice.holds_of_blocks fun k hk => hblocks k (hstripes ▸ hk),
          Slice.holds_of_stripes hzero']
    · exact hholds
    · have hS' : (s.slices i).fecStripes ≠ 0 := by rwa [hslice] at hS
      have heq' : (s.slices i).fecStripes = stripes := by rwa [hslice] at heq
      rw [if_neg hS'] at hnot
      refine (countFec_kept hcount heq ?_ a).trans hholds
      rw [hslice]
      exact fun htakes => hnot ⟨heq', htakes⟩

/-- A message leaves the blocks of a slice alone that is not being received. -/
theorem process_kept {msg : ServerMsg} (h : process s msg = .ok s') (hsends : st.Sends msg)
    (hfound : s.found = some i) (hreceiving : (s.slices i).state ≠ .receiving)
    (hkeeps : ∀ stripes n b bytes payload, msg = .fec stripes n b bytes payload →
      (s.slices i).state = .fecDone → ¬ (s.slices i).TakesFec s.config stripes b bytes) (a : ℕ) :
    (s'.slices i).holds a = (s.slices i).holds a := by
  unfold process at h
  cases hsends with
  | data n b hn hb =>
    rw [hfound] at h
    rcases processDataBlock_ok h with rfl | ⟨hstate, -⟩
    · rfl
    · exact absurd hstate hreceiving
  | fec n b payload hn hb hpayload =>
    rw [hfound] at h
    refine processFecBlock_kept h hreceiving ?_ (hkeeps _ _ _ _ _ rfl) a
    exact fun hzero => by simp [hzero] at hb
  | reqack n rxmit readySet hn =>
    rcases processReqAck_ok h with ⟨-, rfl⟩ | ⟨-, -, rfl⟩ | ⟨-, j, s₁, hj, hset, hcheck⟩
    · rfl
    · rfl
    · obtain rfl := Option.some.inj (hfound.symm.trans hj)
      obtain ⟨msg, hanswer⟩ := answer_eq (s := s₁) (i := i) rxmit
      rw [hanswer] at hcheck
      exact (checkSliceComplete_holds hcheck a).trans ((setSliceBytes_holds hset).2.2.2 a)
  | hello =>
    obtain rfl := Except.ok.inj h
    rfl

/-- A message for which there is no slice leaves all slices alone. -/
theorem process_unfound {msg : ServerMsg} (h : process s msg = .ok s') (hfound : s.found = none) :
    s'.slices = s.slices ∧ s'.fecThread = s.fecThread := by
  unfold process at h
  rw [hfound] at h
  cases msg with
  | data | fec | hello =>
    obtain rfl := Except.ok.inj h
    exact ⟨rfl, rfl⟩
  | reqack =>
    rcases processReqAck_ok h with ⟨-, rfl⟩ | ⟨-, -, rfl⟩ | ⟨-, j, s₁, hj, -⟩
    · exact ⟨rfl, rfl⟩
    · exact ⟨rfl, rfl⟩
    · rw [hfound] at hj
      cases hj

end Kept

section Idle

variable {t : Task} {rest : List Task}

/-- A slot that is not in use is neither received nor decoded, and gives no blocks back. -/
theorem inUse_eq_false : s.inUse i = false ↔ (s.slices i).state ≠ .receiving ∧
    (s.slices i).state ≠ .fec ∧ s.fecThread.releases i = false := by
  simp [State.inUse, and_assoc]

/-- The slots not in use hold nothing. -/
def Idle (s : State) : Prop := ∀ i, s.inUse i = false → (s.slices i).HoldsNothing

/-- The slots not in use stay empty if the slices stay the same and no slot goes out of use. -/
theorem Idle.congr (h : Idle s) (hslices : s'.slices = s.slices)
    (hthread : ∀ j, s.fecThread.releases j = true → s'.fecThread.releases j = true) : Idle s' := by
  intro j hj
  rw [hslices]
  apply h j
  rw [inUse_eq_false, hslices] at hj
  obtain ⟨hreceiving, hfec, hreleases⟩ := hj
  refine inUse_eq_false.mpr ⟨hreceiving, hfec, ?_⟩
  by_contra hne
  rw [hthread j (Bool.not_eq_false _ ▸ hne)] at hreleases
  cases hreleases

/-- One slot changes. -/
theorem Idle.update (h : Idle s) {x : Slice} (hslices : s'.slices = Function.update s.slices i x)
    (hthread : ∀ j, j ≠ i → s.fecThread.releases j = true → s'.fecThread.releases j = true)
    (hslot : s'.inUse i = false → x.HoldsNothing) : Idle s' := by
  intro j hj
  rcases eq_or_ne j i with rfl | hne
  · rw [hslices, Function.update_self]
    exact hslot hj
  · have hsame : s'.slices j = s.slices j := by rw [hslices, Function.update_of_ne hne]
    rw [hsame]
    apply h j
    rw [inUse_eq_false, hsame] at hj
    obtain ⟨hreceiving, hfec, hreleases⟩ := hj
    refine inUse_eq_false.mpr ⟨hreceiving, hfec, ?_⟩
    by_contra hrel
    rw [hthread j hne (Bool.not_eq_false _ ▸ hrel)] at hreleases
    cases hreleases

/-- Work on a slice that keeps its blocks outside reception. -/
theorem Idle.work (h : Idle s) (hw : Works i s s')
    (habsent : s.useFec = false → s.fecThread = .absent)
    (hkept : (s.slices i).state ≠ .receiving → ∀ a, (s'.slices i).holds a = (s.slices i).holds a)
    (hdone : (s.slices i).state = .receiving → (s'.slices i).state = .done →
      (s'.slices i).HoldsNothing) : Idle s' := by
  have hthread : ∀ j, s.fecThread.releases j = true → s'.fecThread.releases j = true := by
    intro j hj
    rcases hw.fecThread with ⟨-, hsame⟩ | ⟨hoff, -, -⟩
    · rwa [hsame]
    · rw [habsent hoff] at hj
      cases hj
  intro j hj
  rcases eq_or_ne j i with rfl | hne
  · obtain ⟨hreceiving, hfec, hreleases⟩ := inUse_eq_false.mp hj
    by_cases hstate : (s.slices j).state = .receiving
    · rcases hw.state with hsame | ⟨-, -, hdone' | ⟨hfec', -⟩⟩
      · exact absurd (hsame.trans hstate) hreceiving
      · exact hdone hstate hdone'
      · exact absurd hfec' hfec
    · intro a
      rw [hkept hstate]
      refine h j (inUse_eq_false.mpr ⟨hstate, fun hfec' => ?_, ?_⟩) a
      · rcases hw.state with hsame | ⟨hreceiving', -⟩
        · exact hfec (hsame.trans hfec')
        · exact hstate hreceiving'
      · by_contra hrel
        rw [hthread j (Bool.not_eq_false _ ▸ hrel)] at hreleases
        cases hreleases
  · have hsame := hw.others j hne
    rw [hsame]
    apply h j
    rw [inUse_eq_false, hsame] at hj
    obtain ⟨hreceiving, hfec, hreleases⟩ := hj
    refine inUse_eq_false.mpr ⟨hreceiving, hfec, ?_⟩
    by_contra hrel
    rw [hthread j (Bool.not_eq_false _ ▸ hrel)] at hreleases
    cases hreleases

/-- Completing a slice by force moves no block. -/
theorem completeByForce_holds (h : completeByForce s i = .ok s') (a : ℕ) :
    (s'.slices i).holds a = (s.slices i).holds a := by
  obtain ⟨-, s₁, hbytes, hcheck⟩ := completeByForce_ok h
  have hsame : (s₁.slices i).holds a = (s.slices i).holds a := by
    rcases hbytes with ⟨-, rfl⟩ | ⟨-, hset⟩
    · rfl
    · exact (setSliceBytes_holds hset).2.2.2 a
  rw [checkSliceComplete_holds hcheck, setSlice_self, ← hsame]
  exact Slice.holds_congr rfl rfl rfl a

/-- Nor does the end of `processFecBlock`. -/
theorem finishFecBlock_holds (h : finishFecBlock s i = .ok s') (a : ℕ) :
    (s'.slices i).holds a = (s.slices i).holds a := by
  rw [checkSliceComplete_holds (s := (s.enter [.advanceReceivedPointer]).setSlice i _) h,
    setSlice_self]
  exact Slice.holds_congr rfl rfl rfl a

/-- The network thread leaves nothing in a slot that is not in use. -/
theorem Idle.netMoves (hidle : Idle s) (hm : NetMoves s t rest s') (ht : s.tasks = t :: rest)
    (h : Window s) (ha : Accounts st s) (hkeeps : KeepsBlocks s) : Idle s' := by
  have habsent := h.slots.fecAbsent.mp
  have hkeeps := hkeeps t (by rw [ht]; rfl)
  have hfinish : ∀ {u : State} {i}, finishFecBlock u i = .ok s' → u.slices = s.slices →
      u.useFec = s.useFec → u.fecThread = s.fecThread → Idle s' := by
    intro u i hfinish hslices huse hthread
    have hu : Idle u := hidle.congr hslices fun j hj => hthread ▸ hj
    refine hu.work (finishFecBlock_works hfinish).1 (fun hoff => hthread.trans (habsent (huse ▸ hoff)))
      (fun _ => finishFecBlock_holds hfinish) fun hreceiving hdone => ?_
    rcases finishFecBlock_settles hfinish (hslices ▸ ha.sound i) hdone with hbefore | hholds
    · rw [hreceiving] at hbefore
      cases hbefore
    · exact hholds
  cases hm with
  | @restart m _ s₁ hcurrent hlt hstreaming hinit | @reserve m i _ _ s₁ hmem hinit =>
    obtain ⟨-, -, -, guess, -, rfl⟩ := initSlice_ok hinit
    refine hidle.update rfl (fun _ _ hj => hj) fun hnot => ?_
    refine absurd ?_ (inUse_eq_false.mp hnot).1
    dsimp only
    rw [Function.update_self]
    rfl
  | @takeSlot m i _ hi hfree =>
    refine hidle.update rfl (fun _ _ hj => hj) fun hnot => ?_
    refine Slice.holdsNothing_congr rfl rfl rfl (hidle i (inUse_eq_false.mpr ?_))
    rw [hfree]
    exact ⟨by simp, by simp, (inUse_eq_false.mp hnot).2.2⟩
  | @force i _ _ hfound hforce =>
    have hpopped : Idle (s.popped rest) := hidle.congr rfl fun _ hj => hj
    refine hpopped.work (completeByForce_works hforce).1 habsent
      (fun _ => completeByForce_holds hforce) fun hreceiving _ a => ?_
    rw [completeByForce_holds hforce]
    exact hkeeps i hfound hreceiving a
  | @process msg _ _ hprocess =>
    have hpopped : Idle (s.popped rest) := hidle.congr rfl fun _ hj => hj
    obtain ⟨i, hi, hworks, -⟩ := process_works_found hprocess
    have hsends := ha.sends msg (ht ▸ List.mem_cons_self)
    cases hfound : s.found with
    | none =>
      obtain ⟨hslices, hthread⟩ := process_unfound hprocess hfound
      exact hpopped.congr hslices fun j hj => hthread ▸ hj
    | some j =>
      obtain rfl := hi j hfound
      refine hpopped.work hworks habsent (fun hreceiving => ?_) fun hreceiving hdone => ?_
      · refine process_kept hprocess hsends hfound hreceiving fun stripes n b bytes payload hmsg => ?_
        subst hmsg
        exact hkeeps j hfound
      · have hno := h.stack.found msg rest j ht hfound
        rcases process_settles hprocess hsends ha.blockSize hfound hno (ha.sound j) hdone with
          hbefore | hholds
        · rw [hreceiving] at hbefore
          cases hbefore
        · exact hholds
  | reuse hlocal hok => exact hfinish hok rfl rfl rfl
  | takeBlock hok => exact hfinish hok rfl rfl rfl
  | advanceFirst hadvance | advance hadvance =>
    subst hadvance
    unfold Receiver.advance
    split <;> exact hidle.congr rfl fun _ hj => hj
  | release hpos hstate hclean =>
    rcases cleanupSlices_ok hclean with ⟨-, hslot, -⟩ | ⟨_, _, -, -, -, -, hdata⟩
    · cases hslot
    · rcases hdata with ⟨-, rfl⟩ | ⟨-, q, -, rfl⟩ <;> exact hidle.congr rfl fun _ hj => hj
  | @freeSlot pos bytes _ _ hfree =>
    obtain ⟨q, -, rfl⟩ := freeSlot_ok hfree
    obtain ⟨-, -, hdone⟩ := h.stack.netFrees pos bytes rest ht
    refine hidle.update rfl (fun _ _ hj => hj) fun hnot => ?_
    refine Slice.holdsNothing_congr rfl rfl rfl (hidle pos (inUse_eq_false.mpr ?_))
    rw [hdone]
    exact ⟨by simp, by simp, (inUse_eq_false.mp hnot).2.2⟩
  | _ => exact hidle.congr rfl fun _ hj => hj

end Idle

section Conserved

variable {t : Task} {rest : List Task} {stripe k : ℕ}

/-- The FEC blocks before entry `k` of a stripe have been given back. -/
def Slice.Given (slice : Slice) (stripe k : ℕ) : Prop :=
  ∀ k' < slice.fecStripes, ∀ j < slice.fecBlocks k', k' < stripe ∨ k' = stripe ∧ j < k →
    (slice.fecDescs (k' + j * slice.fecStripes)).adr = none

/-- The invariant of the runs that keep the blocks. -/
structure Conserved (s : State) : Prop where
  free : FreeQueue s
  pool : ∀ b, s.pool b = if b < nrBlocks then 1 else 0
  idle : Idle s
  given : ∀ i stripe k, s.fecThread = .release i stripe k → (s.slices i).Given stripe k

/-- Everything has been given back. -/
theorem Slice.Given.holdsNothing (h : slice.Given stripe k) (hend : slice.fecStripes ≤ stripe) :
    slice.HoldsNothing := by
  intro b
  unfold Slice.holds
  refine Finset.sum_eq_zero fun k' hk' => Finset.sum_eq_zero fun j hj => ?_
  have hk' := Finset.mem_range.mp hk'
  exact FecDesc.holds_of_none (h k' hk' j (Finset.mem_range.mp hj) (.inl (by omega))) b

/-- With all blocks of a stripe given back, the next stripe is begun. -/
theorem Slice.Given.nextStripe (h : slice.Given stripe k) (hend : slice.fecBlocks stripe ≤ k) :
    slice.Given (stripe + 1) 0 := by
  intro k' hk' j hj hbefore
  apply h k' hk' j hj
  rcases Nat.lt_or_ge k' stripe with hlt | hge
  · exact .inl hlt
  · obtain rfl : k' = stripe := by omega
    exact .inr ⟨rfl, by omega⟩

/-- One block more has been given back, and its address is cleared. -/
theorem Slice.Given.freeBlock (h : slice.Given stripe k) :
    Slice.Given { slice with
      fecDescs := Function.update slice.fecDescs (stripe + k * slice.fecStripes)
        { slice.fecDescs (stripe + k * slice.fecStripes) with adr := none } } stripe (k + 1) := by
  intro k' hk' j hj hbefore
  dsimp only at hk' hj ⊢
  by_cases heq : k' + j * slice.fecStripes = stripe + k * slice.fecStripes
  · rw [heq, Function.update_self]
  · rw [Function.update_of_ne heq]
    refine h k' hk' j hj (hbefore.imp_right fun ⟨hsame, hlt⟩ => ⟨hsame, ?_⟩)
    have hne : j ≠ k := fun hjk => heq (by rw [hsame, hjk])
    omega

/-- The FEC thread gives blocks back at one point only. -/
theorem FecPc.releases_of_ne {pc : FecPc} (hpc : ∀ stripe k, pc ≠ .release i stripe k) :
    pc.releases i = false := by
  cases pc with
  | release j stripe k =>
    refine decide_eq_false fun hij => ?_
    subst hij
    exact hpc stripe k rfl
  | _ => rfl

/-- A slot that is free or done is not in use. -/
theorem not_inUse (h : Slots s) (hstate : (s.slices i).state = .free ∨ (s.slices i).state = .done) :
    s.inUse i = false := by
  refine inUse_eq_false.mpr ⟨?_, ?_, FecPc.releases_of_ne fun stripe k hpc => ?_⟩
  · rcases hstate with hstate | hstate <;> simp [hstate]
  · rcases hstate with hstate | hstate <;> simp [hstate]
  · rw [h.releasing i stripe k hpc] at hstate
    rcases hstate with hstate | hstate <;> cases hstate

/-- The slot that is set up holds nothing. -/
theorem Conserved.reserved {m : ℤ} (hc : Conserved s) (ht : s.tasks = .reserve i m :: rest)
    (h : Window s) :
    (s.slices i).HoldsNothing := by
  obtain ⟨hallocated, rfl⟩ := h.stack.reserved i (by rw [ht]; rfl)
  have hle := h.slots.allocated_le
  exact hc.idle _ (not_inUse h.slots (.inl (h.slots.free s.started le_rfl (by omega))))

/-- The network thread loses no block, if its next step keeps the blocks. -/
theorem Conserved.netMoves (hc : Conserved s) (hm : NetMoves s t rest s') (ht : s.tasks = t :: rest)
    (hr : Running s) (ha : Accounts st s) (hkeeps : KeepsBlocks s) : Conserved s' where
  free := hc.free.netMoves hm ht hr.window
  pool b := by
    have hkeeps := hkeeps t (by rw [ht]; rfl)
    rcases hm.pool ht hr.window hr.queue hc.free ha.sends with hpool | ⟨i, m, htask, hpool⟩
    · rw [hpool, hc.pool]
    · have hholds : (s.slices i).holds b = 0 := by
        rcases htask with ⟨rfl, rfl, hstreaming, hcurrent, hlt⟩ | rfl
        · exact hkeeps hstreaming hcurrent hlt b
        · exact hc.reserved ht hr.window b
      rw [← hc.pool b, ← hpool b, hholds, Nat.add_zero]
  idle := hc.idle.netMoves hm ht hr.window ha hkeeps
  given i stripe k hpc := by
    rcases hm.frame.2.2 with ⟨-, hthread⟩ | ⟨-, -, hthread, -⟩
    · have hbefore := hthread ▸ hpc
      obtain ⟨pos, hslice⟩ := (hm.preserves ht hr.window hr.queue hr.stacked hr.pointer ha.blockSize
        ha.sends i).kept (hr.window.slots.releasing i stripe k hbefore) (ha.releasing i stripe k
          hbefore).1
      rw [hslice]
      exact hc.given i stripe k hbefore
    · rw [hthread] at hpc
      cases hpc

/-- The FEC thread leaves nothing in a slot that is not in use. -/
theorem Conserved.idle_fecMoves (hc : Conserved s) (hm : FecMoves s s') (h : Slots s) : Idle s' := by
  have hquiet : ∀ {j}, (∀ stripe k, s.fecThread ≠ .release j stripe k) →
      s.fecThread.releases j = true → s'.fecThread.releases j = true := by
    intro j hne hreleases
    rw [FecPc.releases_of_ne hne] at hreleases
    cases hreleases
  cases hm with
  | takeDone hpc hi hstate =>
    refine hc.idle.update rfl (fun j _ => hquiet (by simp [hpc])) fun _ => ?_
    exact Slice.holdsNothing_congr rfl rfl rfl (hc.idle _ (not_inUse h (.inr hstate)))
  | decode hpc =>
    refine hc.idle.update rfl (fun j _ => hquiet (by simp [hpc])) fun hnot => ?_
    exact absurd (inUse_eq_false.mp hnot).2.2 (by simp [FecPc.releases])
  | @released i stripe k hpc hend =>
    intro j hj
    rcases eq_or_ne j i with rfl | hne
    · exact (hc.given j stripe k hpc).holdsNothing hend
    · obtain ⟨hreceiving, hfec, -⟩ := inUse_eq_false.mp hj
      refine hc.idle j (inUse_eq_false.mpr ⟨hreceiving, hfec, FecPc.releases_of_ne ?_⟩)
      simp [hpc, hne.symm]
  | nextStripe hpc => exact hc.idle.congr rfl fun j hj => by rw [hpc] at hj; exact hj
  | freeBlock hpc =>
    refine hc.idle.update rfl (fun j _ hj => by rw [hpc] at hj; exact hj) fun hnot => ?_
    exact absurd (inUse_eq_false.mp hnot).2.2 (by simp [FecPc.releases])
  | releaseSlice hpc hpos hstate hclean =>
    rcases cleanupSlices_ok hclean with ⟨-, hslot, -⟩ | ⟨_, _, -, -, -, -, hdata⟩
    · cases hslot
    · rcases hdata with ⟨-, rfl⟩ | ⟨-, q, -, rfl⟩ <;>
        exact hc.idle.congr rfl fun j => hquiet (by simp [hpc])
  | @freeSlot pos bytes _ hpc hfree =>
    obtain ⟨q, -, rfl⟩ := freeSlot_ok hfree
    obtain ⟨-, -, hdone⟩ := h.fecFrees pos bytes hpc
    refine hc.idle.update rfl (fun j _ => hquiet (by simp [hpc])) fun _ => ?_
    refine Slice.holdsNothing_congr rfl rfl rfl (hc.idle pos (inUse_eq_false.mpr ?_))
    rw [hdone, hpc]
    exact ⟨by simp, by simp, rfl⟩
  | loop hpc | consume hpc | takeFec hpc | takeOther hpc | cleaned hpc =>
    exact hc.idle.congr rfl fun j => hquiet (by simp [hpc])

/-- The FEC thread clears the addresses in the order in which it gives the blocks back. -/
theorem Conserved.given_fecMoves (hc : Conserved s) (hm : FecMoves s s')
    (hpc' : s'.fecThread = .release i stripe k) : (s'.slices i).Given stripe k := by
  cases hm with
  | decode hpc =>
    obtain ⟨rfl, rfl, rfl⟩ := FecPc.release.inj hpc'
    intro k' _ j _ hbefore
    omega
  | nextStripe hpc hstripe hle hend =>
    obtain ⟨rfl, rfl, rfl⟩ := FecPc.release.inj hpc'
    exact (hc.given _ _ _ hpc).nextStripe hend
  | freeBlock hpc hstripe hle hk hd =>
    obtain ⟨rfl, rfl, rfl⟩ := FecPc.release.inj hpc'
    dsimp only
    rw [Function.update_self, hd]
    exact (hc.given _ _ _ hpc).freeBlock
  | loop =>
    dsimp only at hpc'
    split at hpc' <;> cases hpc'
  | _ => cases hpc'

/-- So it loses no block. -/
theorem Conserved.fecMoves (hc : Conserved s) (hm : FecMoves s s') (hr : Running s) :
    Conserved s' := by
  obtain ⟨hfree, hpool⟩ := hm.pool hr.window hr.queue hc.free fun b => (hc.pool b).le
  exact ⟨hfree, fun b => (hpool b).trans (hc.pool b), hc.idle_fecMoves hm hr.window.slots,
    fun _ _ _ => hc.given_fecMoves hm⟩

end Conserved

section Runs

variable {mode : Mode}

/-- Where the blocks are, with the slots in use instead of all slots. -/
theorem Conserved.poolConserved (hc : Conserved s) : PoolConserved s where
  partition b := by
    have hsum : ∑ i ∈ (Finset.range nrSlices).filter (s.inUse ·), (s.slices i).holds b =
        ∑ i ∈ Finset.range nrSlices, (s.slices i).holds b := by
      refine Finset.sum_filter_of_ne fun i _ hholds => ?_
      by_contra hnot
      exact hholds (hc.idle i (Bool.not_eq_true _ ▸ hnot) b)
    rw [hsum]
    exact hc.pool b
  idle := hc.idle

/-- At the start the first block is the next block, and all others are free. -/
theorem pool_start (hfree : FreeQueue s) (htaken : s.blocksTaken = 1) (hreturned : s.blocksReturned = 0)
    (haddresses : s.blockAddresses = id) (hlocal : s.localBlocks = []) (hspare : s.spare = [0])
    (hholds : ∀ i b, (s.slices i).holds b = 0) (b : ℕ) :
    s.pool b = if b < nrBlocks then 1 else 0 := by
  have hentries : s.freeAddresses = List.range' 1 (nrBlocks - 1) := by
    rw [hfree.freeAddresses_eq, htaken, hreturned, haddresses]
    have hcells : ∀ k ∈ List.range' 1 (nrBlocks - 1), id (k % nrBlocks) = k := fun k hk =>
      Nat.mod_eq_of_lt (List.mem_range'_1.mp hk).2
    exact (List.map_congr_left hcells).trans (List.map_id' _)
  have hnodup : (List.range' 1 (nrBlocks - 1)).Nodup := List.nodup_range'
  unfold State.pool
  rw [hentries, hlocal, hspare, hnodup.count, Finset.sum_eq_zero fun i _ => hholds i b,
    List.count_singleton, List.count_nil]
  simp only [List.mem_range'_1, beq_iff_eq]
  rcases Nat.lt_or_ge b nrBlocks with hlt | hge
  · rw [if_pos hlt]
    split <;> split <;> omega
  · have hpos : 0 < nrBlocks := by decide
    rw [if_neg hge.not_gt, if_neg (by omega), if_neg (by omega)]
    rfl

/-- At the start all blocks but the next one are free. -/
theorem conserved_start (h : Starts st mode s) : Conserved s := by
  obtain ⟨config, streaming, mem, blockData, -, -, -, hstart⟩ := h
  obtain ⟨_, _, freeBlocksPc, -, -, hblocks, rfl⟩ := start_eq hstart
  have hmake : (pcMakeProduconsum nrBlocks).Holds nrBlocks 0 0 := holds_make (by decide) (by decide)
  obtain ⟨q, hq, hholds, hend⟩ := hmake.pcProduce (n := nrBlocks) (by decide)
  obtain rfl := Option.some.inj (hblocks.symm.trans hq)
  have hunused : ∀ b, Slice.unused.holds b = 0 := Slice.holds_of_stripes rfl
  have htaken : (pcConsumed freeBlocksPc 1).Holds nrBlocks nrBlocks 1 :=
    hholds.pcConsumed (C := 0) (P := 0 + nrBlocks) (by decide)
  cases streaming <;>
    exact ⟨⟨htaken, hend, by simp⟩, pool_start ⟨htaken, hend, by simp⟩ rfl rfl rfl rfl rfl
      fun _ => hunused, fun _ _ => hunused, by simp⟩

/-- The blocks of the pool are conserved in the runs whose steps forget none. -/
theorem poolConserved_of_keepsBlocks
    (h : ((system st mode).restrict fun s _ => KeepsBlocks s).Reachable s)
    (hrunning : s.failure = none) : PoolConserved s := by
  have hknown : ∀ s, ((system st mode).restrict fun s _ => KeepsBlocks s).Reachable s →
      s.failure = none → Running s ∧ Accounts st s := fun s hs hrun =>
    ⟨running_facts (System.restrict_reachable hs) hrun,
      accounts_of_reachable (System.restrict_reachable hs) hrun⟩
  have hc : Conserved s := by
    refine running_of_restricted hknown (fun _ => conserved_start) ?_ h hrunning
    rintro s s' a ⟨hr, ha⟩ hc - hkeeps hm
    cases hm with
    | @receive msg mem blocks hidle hend =>
      have htakes : (dispatch msg).head?.any Task.takesBlock = false := by cases msg <;> rfl
      refine { hc with
        free := { hc.free with taking := fun i rest htasks => ?_ }, pool := fun b => ?_ }
      · rw [show dispatch msg = .takeBlock i :: rest from htasks] at htakes
        cases htakes
      · have hspare : s.spare = [s.nextBlock] := spare_eq_next (by rw [hidle]; rfl)
        refine Eq.trans (pool_congr (s := s) ?_ ?_ ?_ ?_ b) (hc.pool b)
        · rfl
        · rfl
        · exact (spare_eq_next htakes).trans hspare.symm
        · exact fun _ _ => rfl
    | exitWait hidle hend => exact { hc with free := { hc.free with } }
    | net ht hm => exact hc.netMoves hm ht hr ha hkeeps
    | fec hm => exact hc.fecMoves hm hr
    | writer hm => cases hm <;> exact { hc with free := { hc.free with } }
  exact hc.poolConserved

/-- A slice holds nothing if none of its counted descriptors has an address. -/
theorem Slice.holdsNothing_iff : slice.HoldsNothing ↔ ∀ k < slice.fecStripes,
    ∀ j < slice.fecBlocks k, (slice.fecDescs (k + j * slice.fecStripes)).adr = none := by
  constructor
  · intro h k hk j hj
    by_contra hne
    obtain ⟨a, ha⟩ := Option.ne_none_iff_exists'.mp hne
    have hsum := slice.holds_release hk hj ha a
    rw [h a, if_pos rfl] at hsum
    omega
  · intro h b
    unfold Slice.holds
    refine Finset.sum_eq_zero fun k hk => Finset.sum_eq_zero fun j hj => ?_
    exact FecDesc.holds_of_none (h k (Finset.mem_range.mp hk) j (Finset.mem_range.mp hj)) b

instance (slice : Slice) : Decidable slice.HoldsNothing :=
  decidable_of_iff _ Slice.holdsNothing_iff.symm

instance (slice : Slice) (config : Config) (stripes blockNo bytes : ℕ) :
    Decidable (slice.TakesFec config stripes blockNo bytes) :=
  inferInstanceAs (Decidable (if slice.fecStripes = 0 then _ else _))

instance (s : State) : ∀ t : Task, Decidable (t.Keeps s)
  | .findSlice _ => inferInstanceAs (Decidable (_ → _ → _ → _))
  | .fakeFound => inferInstanceAs (Decidable (∀ i ∈ s.found, _ → _))
  | .process (.fec ..) => inferInstanceAs (Decidable (∀ i ∈ s.found, _ → ¬ _))
  | .process (.data ..) | .process (.reqack ..) | .process .hello | .scan .. | .catchUp _
  | .dropped | .fakeSliceComplete | .newSlice _ | .takeSlot _ | .reserve .. | .setNextBlock _
  | .takeBlock _ | .advanceReceivedPointer | .advance _ | .handOver _ | .cleanup
  | .freeSlot .. => .isTrue trivial

instance (s : State) : Decidable (KeepsBlocks s) :=
  inferInstanceAs (Decidable (∀ t ∈ s.tasks.head?, t.Keeps s))

/-- A run that meets the condition: a slice waits for decoding, and its FEC block is the only one
in use. -/
theorem poolConserved_of_keepsBlocks_two_slices : ∃ s,
    ((system twoAndOne anyMode).restrict fun s _ => KeepsBlocks s).Reachable s ∧
      (s.slices 0).state = .fec ∧ PoolConserved s := by
  have hrun : (startTwoAndOne.bind fun s => System.perform
      (System.guarded act fun s _ => KeepsBlocks s) s (arrivals false)).any fun s =>
        s.failure = none ∧ (s.slices 0).state = .fec := by
    decide +kernel
  obtain ⟨s, hs, hlast⟩ := (Option.any_eq_true _ _).mp hrun
  obtain ⟨s₀, hstart, hperform⟩ := Option.bind_eq_some_iff.mp hs
  obtain ⟨hrunning, hfec⟩ := of_decide_eq_true hlast
  have hreach : ((system twoAndOne anyMode).restrict fun s _ => KeepsBlocks s).Reachable s :=
    ⟨s₀, ⟨_, _, _, _, ⟨by decide, by decide⟩, rfl, trivial, hstart⟩,
      System.restrict_run_of_perform_in (arrivals_conform false) hperform⟩
  exact ⟨s, hreach, hfec, poolConserved_of_keepsBlocks hreach hrunning⟩

/-- A receiver that joins the stream late: a FEC block of the first slice arrives, then the
second slice. -/
def abandons : List Action :=
  schedule [(.fec 1 0 0 2 [.ofNat 0], 8), (.data 1 0 1 (twoAndOne.dataPayload 1 0), 1)]

/-- Block 0 of the pool is nowhere when streaming has abandoned the slice that held it. -/
theorem not_poolConserved : ¬ ∀ st : Stream, st.Valid → ∀ s, (system st anyMode).Reachable s →
    s.failure = none → PoolConserved s := by
  intro hclaim
  have hrun : ((start ⟨1, false, true, 0⟩ true (fun _ => .ofNat 0) fun _ _ => .ofNat 0).bind fun s =>
      System.perform act s abandons).any fun s => s.failure = none ∧
        s.freeAddresses.count 0 + s.localBlocks.count 0 + s.spare.count 0 = 0 ∧
        ∀ i < nrSlices, (s.slices i).holds 0 = 0 := by
    decide +kernel
  obtain ⟨s, hs, hlast⟩ := (Option.any_eq_true _ _).mp hrun
  obtain ⟨s₀, hstart, hperform⟩ := Option.bind_eq_some_iff.mp hs
  obtain ⟨hrunning, hcount, hslots⟩ := of_decide_eq_true hlast
  have hconform : ∀ a ∈ abandons, a.Conforms twoAndOne := by
    have hsecond : twoAndOne.Sends (.data 1 0 1 (twoAndOne.dataPayload 1 0)) :=
      .data 1 0 (by decide) (by decide)
    have hfec : twoAndOne.Sends (.fec 1 0 0 2 [.ofNat 0]) :=
      .fec 0 0 [.ofNat 0] (by decide) (by decide) fun _ =>
        Stream.zeros_isFecPayload (by decide) (by decide) (by decide) (by decide)
    exact conforms_schedule (by simp [hsecond, hfec])
  have hreach : (system twoAndOne anyMode).Reachable s :=
    ⟨s₀, ⟨_, _, _, _, ⟨by decide, by decide⟩, rfl, trivial, hstart⟩,
      System.run_of_perform_in hconform hperform⟩
  have hpartition := (hclaim _ twoAndOne_valid s hreach hrunning).partition 0
  rw [hcount, Finset.sum_eq_zero fun i hi => hslots i (Finset.mem_range.mp
    (Finset.mem_of_mem_filter i hi))] at hpartition
  cases hpartition

end Runs

end Udpcast.Receiver
