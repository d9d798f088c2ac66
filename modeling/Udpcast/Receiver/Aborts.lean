import Udpcast.Receiver.Delivery

/-!
# Why a receiver stops

In default mode a receiver of a conforming sender stops for two reasons only: a slice is two or more
ahead of what has been received, or the next slice begins before the size of the last one is known.
No assertion fails, no queue overflows, and no message contradicts another.
-/

namespace Udpcast.Receiver

open Fec (Gf Block)
open Queue
open Protocol

variable {st : Stream} {s s' s₀ : State} {t : Task} {rest : List Task} {msg : ServerMsg}
  {f : Failure} {C : State → State → Prop} {i b n bytes stripes k : ℕ}

/-! ## Stripes are counted only when FEC is in use -/

/-- The number of stripes of a slice changes only when FEC is in use. -/
def KeepsStripes (i : ℕ) (s s' : State) : Prop :=
  (s'.slices i).fecStripes = (s.slices i).fecStripes ∨ s'.useFec = true

/-- Counting an arrival leaves the number of stripes. -/
theorem countArrival_stripes {slice slice' : Slice} {l l' : List ℕ}
    (h : countArrival slice l b = .ok (slice', l')) : slice'.fecStripes = slice.fecStripes := by
  obtain ⟨-, rfl, -⟩ | ⟨-, _, _, -, -, ⟨-, -, rfl⟩ | ⟨_, _, -, -, -, -, rfl⟩⟩ := countArrival_ok h
  · rfl
  · rfl
  · rfl

/-- A data block does not change the number of stripes. -/
theorem processDataBlock_stripes (h : processDataBlock s i n b bytes = .ok s') :
    (s'.slices i).fecStripes = (s.slices i).fecStripes := by
  obtain rfl | ⟨-, -, -, s₁, hnote, hcount⟩ := processDataBlock_ok h
  · rfl
  · obtain ⟨slice, localBlocks, harrival, hcheck⟩ := countData_ok hcount
    have hcopied : ((s.copyBlock (.ring (adr s (s.slices i) b))).slices i).fecStripes =
        (s.slices i).fecStripes := by
      unfold State.copyBlock
      split <;> rfl
    rw [(checkSliceComplete_sameFec hcheck).fecStripes, setSlice_self]
    exact (countArrival_stripes harrival).trans ((noteBytes_sameFec hnote).fecStripes.trans hcopied)

/-- Counting a FEC block leaves the number of stripes. -/
theorem countFec_stripes (h : countFec s i stripes b = .ok s') :
    (s'.slices i).fecStripes = (s.slices i).fecStripes := by
  obtain (⟨-, hcheck⟩ | rfl) | ⟨_, -, -, -, _, _, -, rfl⟩ := countFec_ok h
  · exact (checkSliceComplete_sameFec hcheck).fecStripes
  · rfl
  · dsimp only
    rw [Function.update_self]

/-- Preparing a slice for FEC turns the use of FEC on. -/
theorem initSliceForFec_useFec (s : State) (i stripes : ℕ) :
    (initSliceForFec s i stripes).useFec = true := by
  unfold initSliceForFec
  cases huse : s.useFec <;> simp [State.setSlice, huse]

/-- A FEC block changes the number of stripes only where it turns FEC on. -/
theorem processFecBlock_stripes (h : processFecBlock s i stripes b bytes = .ok s') :
    KeepsStripes i s s' := by
  obtain rfl | ⟨-, s₁, hset, ⟨-, hcount⟩ | ⟨-, -, rfl⟩ | ⟨-, -, hcount⟩⟩ := processFecBlock_ok h
  · exact .inl rfl
  · exact .inr ((countFec_works hcount).1.useFec (initSliceForFec_useFec s₁ i stripes))
  · exact .inl (setSliceBytes_sameFec hset).fecStripes
  · exact .inl ((countFec_stripes hcount).trans (setSliceBytes_sameFec hset).fecStripes)

/-- The end of the treatment of a FEC block leaves the number of stripes. -/
theorem finishFecBlock_stripes (h : finishFecBlock s i = .ok s') :
    (s'.slices i).fecStripes = (s.slices i).fecStripes := by
  rw [(checkSliceComplete_sameFec h).fecStripes, setSlice_self]

/-- So no message gives a slice stripes without turning FEC on. -/
theorem process_stripes (h : process s msg = .ok s') (hfound : ∀ j, s.found = some j → j = i) :
    KeepsStripes i s s' := by
  unfold process at h
  cases msg with
  | data n b bytes payload =>
    dsimp only at h
    split at h
    · rename_i j hj
      obtain rfl := hfound j hj
      exact .inl (processDataBlock_stripes h)
    · obtain rfl := Except.ok.inj h
      exact .inl rfl
  | fec stripes n b bytes payload =>
    dsimp only at h
    split at h
    · rename_i j hj
      obtain rfl := hfound j hj
      exact processFecBlock_stripes h
    · obtain rfl := Except.ok.inj h
      exact .inl rfl
  | reqack n bytes rxmit readySet =>
    obtain ⟨-, rfl⟩ | ⟨-, -, rfl⟩ | ⟨-, j, s₁, hj, hset, hcheck⟩ := processReqAck_ok h
    · exact .inl rfl
    · exact .inl rfl
    · obtain rfl := hfound j hj
      obtain ⟨reply, hanswer⟩ := answer_eq (s := s₁) (i := j) rxmit
      rw [hanswer] at hcheck
      exact .inl ((checkSliceComplete_sameFec hcheck).fecStripes.trans
        (setSliceBytes_sameFec hset).fecStripes)
  | hello =>
    obtain rfl := Except.ok.inj h
    exact .inl rfl

/-- A slot whose stripes stay can be updated without changing any stripes. -/
theorem stripes_update {x : Slice} (hslices : s'.slices = Function.update s.slices i x)
    (hx : x.fecStripes = (s.slices i).fecStripes) (j : ℕ) :
    (s'.slices j).fecStripes = (s.slices j).fecStripes := by
  rw [hslices]
  rcases eq_or_ne j i with rfl | hne
  · rwa [Function.update_self]
  · rw [Function.update_of_ne hne]

/-! ## Opening a slice -/

/-- What is known when a slice is about to be opened, and about the use of FEC. -/
structure Admits (s : State) : Prop where
  opened : s.freeSlicesPc.atEnd = false
  slot : ∀ n rest, s.tasks = .takeSlot n :: rest → s.allocated < s.freed + nrSlices
  number : ∀ t ∈ s.tasks, ∀ n, t.opens = some n → n = s.currentSliceNo + 1
  striped : ∀ i, (s.slices i).fecStripes ≠ 0 → s.useFec = true

/-- Steps after which no slice is about to be opened. -/
theorem Admits.shut (h : Admits s) (hopened : s'.freeSlicesPc.atEnd = s.freeSlicesPc.atEnd)
    (htasks : ∀ t ∈ s'.tasks, t.opens = none)
    (hstriped : ∀ i, (s'.slices i).fecStripes = (s.slices i).fecStripes ∨ s'.useFec = true)
    (huse : s.useFec = true → s'.useFec = true) : Admits s' where
  opened := hopened.trans h.opened
  slot n rest ht := by
    cases htasks (.takeSlot n) (ht ▸ List.mem_cons_self)
  number t ht n hn := by
    rw [htasks t ht] at hn
    cases hn
  striped i hne := by
    rcases hstriped i with hsame | hon
    · exact huse (h.striped i (hsame ▸ hne))
    · exact hon

/-- The treatment of a message keeps these facts. -/
theorem Admits.worked (h : Admits s) (hchain : (t :: rest).IsChain Follows) (hw : Works i s₀ s')
    (hleaves : Leaves i s₀ s') (hkeeps : KeepsStripes i s₀ s') (htasks : s₀.tasks = rest)
    (hqueue : s₀.freeSlicesPc = s.freeSlicesPc) (hslices : s₀.slices = s.slices)
    (huse : s₀.useFec = s.useFec) : Admits s' := by
  have huse' : s.useFec = true → s'.useFec = true := fun hon => hw.useFec (huse.trans hon)
  refine h.shut ?_ (fun y hy => ?_) (fun j => ?_) huse'
  · exact congrArg Produconsum.atEnd ((congrArg Rest.freeSlicesPc hw.rest_eq).trans hqueue)
  · obtain ⟨l, hl, hopens⟩ := hleaves.opens
    rw [hl, htasks] at hy
    rcases List.mem_append.mp hy with hy | hy
    · exact hopens y hy
    · exact opens_rest hchain y hy
  · rcases eq_or_ne j i with rfl | hne
    · rwa [← hslices]
    · rw [hw.others j hne, hslices]
      exact .inl rfl

/-- A step of the network thread keeps them. -/
theorem Admits.netMoves (h : Admits s) (hs : Settled st s) (hm : NetMoves s t rest s')
    (ht : s.tasks = t :: rest) : Admits s' := by
  have hchain : (t :: rest).IsChain Follows := ht ▸ hs.window.stack.chain
  have hrest := opens_rest hchain
  have hone : ∀ {x : Task}, x.opens = none → ∀ y ∈ x :: rest, y.opens = none := by
    intro x hx y hy
    rcases List.mem_cons.mp hy with rfl | hy
    · exact hx
    · exact hrest y hy
  have hkept : ∀ i, (s.slices i).fecStripes = (s.slices i).fecStripes ∨ s.useFec = true :=
    fun _ => .inl rfl
  have hnext : ∀ {x : Task} {n m : ℤ}, x.opens = some n → n = m + 1 → ∀ y ∈ x :: rest, ∀ n',
      y.opens = some n' → n' = m + 1 := by
    intro x n m hx hn y hy n' hn'
    rcases List.mem_cons.mp hy with rfl | hy
    · rw [hx] at hn'
      exact Option.some.inj hn' ▸ hn
    · rw [hrest y hy] at hn'
      cases hn'
  cases hm with
  | restart hcurrent hlt hstreaming hinit =>
    rw [hs.plain.notStreaming] at hstreaming
    cases hstreaming
  | fake => cases hs.plain.noFake _ (ht ▸ List.mem_cons_self)
  | force => cases hs.plain.noFake _ (ht ▸ List.mem_cons_self)
  | behind hbehind hignore =>
    rw [hs.plain.keepsData] at hignore
    cases hignore
  | @join n =>
    refine ⟨h.opened, fun n rest htask => ?_, hnext rfl (Int.sub_add_cancel n 1).symm, h.striped⟩
    cases (List.cons.inj htask).1
  | caughtUp hle hn =>
    refine ⟨h.opened, fun n rest htask => ?_, hnext rfl hn, h.striped⟩
    cases (List.cons.inj htask).1
  | @newSlice n m _ hfree =>
    have hn := h.number _ (ht ▸ List.mem_cons_self) n rfl
    refine ⟨h.opened, fun n' rest' _ => ?_, hnext rfl hn, h.striped⟩
    -- There is a free slot.
    rw [hs.window.slots.queue.pcConsume_eq, h.opened] at hfree
    split at hfree
    · rename_i hfull
      have hroom := hfull.resolve_right Bool.false_ne_true
      show s.allocated < s.freed + nrSlices
      omega
    · cases hfree
  | @takeSlot n i _ hi hfree =>
    have hn := h.number _ (ht ▸ List.mem_cons_self) n rfl
    refine ⟨h.opened, fun n' rest' htask => ?_, hnext rfl hn, fun j hne => ?_⟩
    · cases (List.cons.inj htask).1
    · refine h.striped j fun hzero => hne (Eq.trans ?_ hzero)
      exact stripes_update (s := s) (i := i) (x := { s.slices i with base := pcGetConsumerPosition s.freeMemQueue })
        rfl rfl j
  | @reserve n i m _ s₁ hmem hinit =>
    obtain ⟨-, -, -, guess, -, rfl⟩ := initSlice_ok hinit
    refine ⟨h.opened, fun n' rest' htask => ?_, fun y hy n' hn' => ?_, fun j hne => ?_⟩
    · have htask : rest = .takeSlot n' :: rest' := htask
      cases hrest (.takeSlot n') (htask ▸ List.mem_cons_self)
    · rw [hrest y hy] at hn'
      cases hn'
    · dsimp only at hne
      apply h.striped j
      rcases eq_or_ne j i with rfl | hji
      · rw [Function.update_self] at hne
        exact absurd rfl hne
      · rwa [Function.update_of_ne hji] at hne
  | process hok =>
    obtain ⟨i, hi, hw, hleaves⟩ := process_works_found hok
    exact h.worked hchain hw hleaves (process_stripes hok hi) rfl rfl rfl rfl
  | reuse hlocal hok | takeBlock hok =>
    obtain ⟨hw, hleaves⟩ := finishFecBlock_works hok
    exact h.worked hchain hw hleaves (.inl (finishFecBlock_stripes hok)) rfl rfl rfl rfl
  | advanceFirst hadvance | advance hadvance =>
    subst hadvance
    unfold Receiver.advance
    split
    · exact h.shut rfl (hone rfl) hkept id
    · exact h.shut rfl hrest hkept id
  | release hpos hstate hclean =>
    obtain ⟨-, hslot, -⟩ | ⟨_, _, -, -, -, -, ⟨-, rfl⟩ | ⟨-, q, -, rfl⟩⟩ := cleanupSlices_ok hclean
    · cases hslot
    · exact h.shut rfl (hone rfl) hkept id
    · exact h.shut rfl (hone rfl) hkept id
  | @freeSlot pos bytes _ s₁ hok =>
    obtain ⟨q, hq, rfl⟩ := freeSlot_ok hok
    refine h.shut (pcProduce_atEnd hq) (hone rfl) (fun j => .inl ?_) id
    exact stripes_update (s := s) (x := { s.slices pos with state := .free }) rfl rfl j
  | @lost n =>
    refine h.shut rfl (fun y hy => ?_) hkept id
    simp only [List.mem_cons] at hy
    rcases hy with rfl | rfl | rfl | hy
    · rfl
    · rfl
    · rfl
    · exact hrest y hy
  | scanFound | scanFree | enqueue | cleaned => exact h.shut rfl hrest hkept id
  | _ => exact h.shut rfl (hone rfl) hkept id

/-- Steps of the other threads. -/
theorem Admits.other (h : Admits s) (hopened : s'.freeSlicesPc.atEnd = s.freeSlicesPc.atEnd)
    (htasks : s'.tasks = s.tasks) (hallocated : s'.allocated = s.allocated)
    (hfreed : s.freed ≤ s'.freed) (hcsn : s'.currentSliceNo = s.currentSliceNo)
    (huse : s'.useFec = s.useFec)
    (hstripes : ∀ i, (s'.slices i).fecStripes = (s.slices i).fecStripes) : Admits s' where
  opened := hopened.trans h.opened
  slot n rest ht := by
    have hlt := h.slot n rest (htasks.symm.trans ht)
    omega
  number t ht n hn := by
    rw [hcsn]
    exact h.number t (htasks ▸ ht) n hn
  striped i hne := by
    rw [huse]
    exact h.striped i (hstripes i ▸ hne)

/-- A step of the FEC thread keeps them. -/
theorem Admits.fecMoves (h : Admits s) (hm : FecMoves s s') : Admits s' := by
  cases hm with
  | takeDone | decode | freeBlock =>
    exact h.other rfl rfl rfl le_rfl rfl rfl (stripes_update rfl rfl)
  | releaseSlice hpc hpos hstate hclean =>
    obtain ⟨-, hslot, -⟩ | ⟨_, _, -, -, -, -, ⟨-, rfl⟩ | ⟨-, q, -, rfl⟩⟩ := cleanupSlices_ok hclean
    · cases hslot
    · exact h.other rfl rfl rfl le_rfl rfl rfl fun _ => rfl
    · exact h.other rfl rfl rfl le_rfl rfl rfl fun _ => rfl
  | freeSlot hpc hok =>
    obtain ⟨q, hq, rfl⟩ := freeSlot_ok hok
    exact h.other (pcProduce_atEnd hq) rfl rfl (Nat.le_succ _) rfl rfl (stripes_update rfl rfl)
  | _ => exact h.other rfl rfl rfl le_rfl rfl rfl fun _ => rfl

/-- Every step keeps them. -/
theorem Admits.moves {a : Action} (h : Admits s) (hs : Settled st s) (hm : Moves s a s') :
    Admits s' := by
  cases hm with
  | @receive msg mem blocks hidle hend =>
    refine h.shut rfl (fun y hy => ?_) (fun _ => .inl rfl) id
    have hy : y ∈ dispatch msg := hy
    cases msg with
    | hello => cases hy
    | _ =>
      simp only [dispatch, List.mem_cons, List.not_mem_nil, or_false] at hy
      rcases hy with rfl | rfl <;> rfl
  | exitWait => exact h.other rfl rfl rfl le_rfl rfl rfl fun _ => rfl
  | net ht hm => exact h.netMoves hs hm ht
  | fec hm => exact h.fecMoves hm
  | writer hm => cases hm <;> exact h.other rfl rfl rfl le_rfl rfl rfl fun _ => rfl

/-- They hold in the beginning. -/
theorem admits_start (h : Starts st defaultMode s) : Admits s := by
  obtain ⟨config, streaming, mem, blockData, -, -, ⟨-, rfl⟩, hstart⟩ := h
  obtain ⟨_, q, _, -, hq, -, rfl⟩ := start_eq hstart
  refine ⟨pcProduce_atEnd hq, fun n rest ht => ?_, fun t ht n hn => ?_, fun i hne => ?_⟩
  · cases (List.cons.inj ht).1
  · obtain rfl := List.mem_singleton.mp ht
    exact (Option.some.inj hn).symm
  · exact absurd rfl hne

/-- They hold as long as the receiver runs. -/
theorem admits_of_reachable (h : (system st defaultMode).Reachable s)
    (hrunning : s.failure = none) : Admits s :=
  running_of_reachable (fun _ hs hrun => settled_of_reachable hs hrun) (fun _ => admits_start)
    (fun _ _ _ hs hadmits _ hm => hadmits.moves hs hm) h hrunning

/-! ## Messages -/

/-- Without FEC, the blocks that a slice has received are data blocks. -/
def State.Level (s : State) (i : ℕ) : Prop :=
  (s.slices i).state = .receiving → s.useFec = false →
    (s.slices i).blocksTransferred = (s.slices i).dataBlocksTransferred

/-- A slice that is received without FEC has only data blocks. -/
theorem Admits.level (h : Admits s) (hg : Grounded st s) (i : ℕ) : s.Level i := by
  intro hstate huse
  have hzero : (s.slices i).fecStripes = 0 := by
    by_contra hne
    rw [h.striped i hne] at huse
    cases huse
  obtain ⟨hcounted, -⟩ := (hg.accounts.sound i).receiving hstate
  rw [hcounted.blocks, hcounted.data, hzero, Finset.range_zero, Finset.sum_empty, add_zero]

/-- `checkSliceComplete` does not fail. -/
theorem checkSliceComplete_never (hlevel : s.Level i) : checkSliceComplete s i ≠ .error f := by
  intro herror
  by_cases hstate : (s.slices i).state = .receiving
  · obtain ⟨-, huse, -, hne⟩ := checkSliceComplete_error herror
    exact hne (hlevel hstate huse)
  · unfold checkSliceComplete at herror
    dsimp only at herror
    rw [if_pos (.inl hstate)] at herror
    cases herror

/-- `setSliceBytes` does not fail for a size that agrees with what is known. -/
theorem setSliceBytes_never (hsize : (s.slices i).bytesKnown = true → (s.slices i).bytes = bytes) :
    setSliceBytes s i bytes ≠ .error f := by
  intro herror
  obtain ⟨-, hknown, hne⟩ := setSliceBytes_error herror
  exact hne (hsize hknown)

/-- Setting the size of a slice counts no block. -/
theorem setSliceBytes_level (h : setSliceBytes s i bytes = .ok s') (hlevel : s.Level i) :
    s'.Level i := by
  obtain ⟨-, -, rfl⟩ | ⟨-, rfl⟩ := setSliceBytes_ok h
  · exact hlevel
  · intro hstate huse
    simp only [Function.update_self] at hstate ⊢
    exact hlevel hstate huse

/-- Noting the size of a slice counts no block. -/
theorem noteBytes_level (h : noteBytes s i bytes = .ok s') (hlevel : s.Level i) : s'.Level i := by
  obtain hset | ⟨-, _, rfl⟩ := noteBytes_ok h
  · exact setSliceBytes_level hset hlevel
  · exact hlevel

/-- Counting a data block of the stream does not fail. -/
theorem countData_never (hlevel : s.Level i)
    (hstriped : (s.slices i).fecStripes ≠ 0 → s.useFec = true)
    (hcounted : Counted st (s.slices i)) (hheld : (s.slices i).Held)
    (hb : b < st.blocks (s.slices i).sliceNo.toNat) (hmap : b ∉ (s.slices i).map) :
    countData s i b ≠ .error f := by
  intro herror
  rcases bind_error herror with hcount | ⟨⟨slice, localBlocks⟩, hcount, hcheck⟩
  · exact countArrival_succeeds hcounted hheld hb hmap f hcount
  · refine checkSliceComplete_never ?_ hcheck
    intro hstate huse
    have huse : s.useFec = false := huse
    obtain ⟨-, rfl, -⟩ | ⟨hne, -⟩ := countArrival_ok hcount
    · rw [setSlice_self] at hstate ⊢
      have heq := hlevel hstate huse
      dsimp only
      rw [heq]
    · rw [hstriped hne] at huse
      cases huse

/-- The treatment of a data block of the stream does not fail. -/
theorem processDataBlock_never (hlevel : s.Level i)
    (hstriped : (s.slices i).fecStripes ≠ 0 → s.useFec = true)
    (hsound : (s.slices i).Sound st) (hno : (s.slices i).sliceNo = n)
    (hplace : (s.slices i).state = .receiving →
      (n : ℤ) ≤ s.currentSliceNo ∧ (s.slices i).base % s.config.blockSize = 0)
    (hb : b < st.blocks n) : processDataBlock s i n b (st.size n) ≠ .error f := by
  intro herror
  unfold processDataBlock at herror
  dsimp only at herror
  split at herror
  · cases herror
  · rename_i hreceiving
    have hreceiving : (s.slices i).state = .receiving := not_not.mp hreceiving
    obtain ⟨hcurrent, hbase⟩ := hplace hreceiving
    rw [if_neg (by omega)] at herror
    split at herror
    · cases herror
    · rename_i hmap
      rw [if_neg (not_not.mpr hbase)] at herror
      obtain ⟨hslices, huse⟩ : (s.copyBlock (.ring (adr s (s.slices i) b))).slices = s.slices ∧
          (s.copyBlock (.ring (adr s (s.slices i) b))).useFec = s.useFec := by
        obtain ⟨mem, blocks, heq⟩ := copyBlock_eq (s := s) (.ring (adr s (s.slices i) b))
        rw [heq]
        exact ⟨rfl, rfl⟩
      have hlevel : (s.copyBlock (.ring (adr s (s.slices i) b))).Level i := by
        intro hstate hoff
        rw [hslices] at hstate ⊢
        exact hlevel hstate (huse ▸ hoff)
      rcases bind_error herror with hnote | ⟨s₁, hnote, hcount⟩
      · refine setSliceBytes_never (fun hknown => ?_) (noteBytes_error hnote)
        rw [hslices] at hknown ⊢
        rw [(hsound.receiving hreceiving).1.size hknown, hno, Int.toNat_natCast]
      · have hkeeps : Preserves st ((s.copyBlock (.ring (adr s (s.slices i) b))).slices i)
            (s₁.slices i) := noteBytes_preserves hnote (by rw [hslices, hno, Int.toNat_natCast])
        obtain ⟨-, hmap', hno', hstate'⟩ := noteBytes_frame hnote
        have hstripes := (noteBytes_sameFec hnote).fecStripes
        have hworks := (noteBytes_works hnote).1.fecThread
        rw [hslices] at hkeeps hmap' hno' hstate' hstripes
        obtain ⟨hcounted, hheld⟩ := (hkeeps.sound hsound).receiving (hstate'.trans hreceiving)
        refine countData_never (noteBytes_level hnote hlevel) (fun hne => ?_) hcounted hheld ?_ ?_
          hcount
        · refine (noteBytes_works hnote).1.useFec (huse.trans (hstriped ?_))
          rwa [← hstripes]
        · rwa [hno', hno, Int.toNat_natCast]
        · rwa [hmap']

/-- Counting a FEC block does not fail. -/
theorem countFec_never (huse : s.useFec = true) : countFec s i stripes b ≠ .error f := by
  intro herror
  unfold countFec at herror
  dsimp only at herror
  split at herror
  · refine checkSliceComplete_never ?_ herror
    intro _ hoff
    have hoff : s.useFec = false := hoff
    rw [huse] at hoff
    cases hoff
  · split at herror <;> cases herror

/-- The treatment of a FEC block does not fail for a size that agrees with what is known. -/
theorem processFecBlock_never (hstriped : (s.slices i).fecStripes ≠ 0 → s.useFec = true)
    (hsize : (s.slices i).bytesKnown = true → (s.slices i).bytes = bytes) :
    processFecBlock s i stripes b bytes ≠ .error f := by
  intro herror
  unfold processFecBlock at herror
  dsimp only at herror
  split at herror
  · cases herror
  · rcases bind_error herror with hset | ⟨s₁, hset, herror⟩
    · exact setSliceBytes_never hsize hset
    · split at herror
      · exact countFec_never (initSliceForFec_useFec s₁ i stripes) herror
      · rename_i hne
        split at herror
        · cases herror
        · refine countFec_never ?_ herror
          rw [setSliceBytes_useFec hset]
          exact hstriped ((setSliceBytes_sameFec hset).fecStripes ▸ hne)

/-- The treatment of a REQACK does not fail for a size that agrees with what is known. -/
theorem processReqAck_never {rxmit : ℕ} (hlevel : ∀ i, s.found = some i → s.Level i)
    (hsize : ∀ i, s.found = some i → (s.slices i).bytesKnown = true → (s.slices i).bytes = bytes) :
    processReqAck s n bytes rxmit ≠ .error f := by
  intro herror
  unfold processReqAck at herror
  split at herror
  · cases herror
  · split at herror
    · cases herror
    · rename_i i hfound
      rcases bind_error herror with hset | ⟨s₁, hset, hcheck⟩
      · exact setSliceBytes_never (hsize i hfound) hset
      · obtain ⟨msg, hanswer⟩ := answer_eq (s := s₁) (i := i) rxmit
        rw [hanswer] at hcheck
        have hlevel' : s₁.Level i := setSliceBytes_level hset (hlevel i hfound)
        refine checkSliceComplete_never ?_ hcheck
        exact fun hstate huse => hlevel' hstate huse

/-- The end of the treatment of a FEC block does not fail. -/
theorem finishFecBlock_never (hlevel : s.Level i) : finishFecBlock s i ≠ .error f := by
  apply checkSliceComplete_never
  intro hstate huse
  rw [setSlice_self] at hstate ⊢
  exact hlevel hstate huse

/-- The treatment of a message finds nothing wrong with it. -/
theorem process_never (hg : Grounded st s) (h : Admits s)
    (ht : s.tasks = .process msg :: rest) : process (s.popped rest) msg ≠ .error f := by
  have hsends := hg.accounts.sends msg (ht ▸ List.mem_cons_self)
  have hno : ∀ i, s.found = some i → (s.slices i).sliceNo = sliceNoOf msg := fun i hi =>
    hg.window.stack.found msg rest i ht hi
  have hsize : ∀ i (n : ℕ), sliceNoOf msg = n → s.found = some i →
      (s.slices i).bytesKnown = true → (s.slices i).bytes = st.size n := by
    intro i n hn hi hknown
    have hi := (hno i hi).trans hn
    have htracked := hg.plain.tracked i (by omega)
    rw [htracked.counted.size hknown, hi, Int.toNat_natCast]
  unfold process
  cases hsends with
  | data n b hn hb =>
    cases hfound : (s.popped rest).found with
    | none => exact fun herror => by cases herror
    | some i =>
      have hsliceNo : (s.slices i).sliceNo = n := hno i hfound
      refine processDataBlock_never (s := s.popped rest) (h.level hg i) (h.striped i)
        (hg.accounts.sound i) hsliceNo (fun hstate => ?_) hb
      obtain ⟨k, hk, hlt, rfl, hslice⟩ := hg.slot (i := i) (by
        show (s.slices i).state ≠ .free
        rw [show (s.slices i).state = .receiving from hstate]
        simp)
      obtain rfl : k = n := by omega
      have hnumbered := hg.plain.numbered
      refine ⟨show (k : ℤ) ≤ s.currentSliceNo by omega, ?_⟩
      show (s.slices (k % nrSlices)).base % s.config.blockSize = 0
      rw [hg.memory.base k (.inl hk) hlt, hg.accounts.bufSize, hg.accounts.blockSize,
        Nat.mod_mul_right_mod]
      exact Nat.mod_eq_zero_of_dvd (hg.valid.dvd_start hn)
  | fec n b payload hn hb hpayload =>
    cases hfound : (s.popped rest).found with
    | none => exact fun herror => by cases herror
    | some i =>
      exact processFecBlock_never (s := s.popped rest) (h.striped i) (hsize i n rfl hfound)
  | reqack n rxmit readySet hn =>
    exact processReqAck_never (s := s.popped rest) (fun i _ => h.level hg i)
      fun i hi => hsize i n rfl hi
  | hello => exact fun herror => by cases herror

/-! ## Queues -/

/-- `pc_produce` does not fail as long as the amount fits. -/
theorem pcProduce_fits {q : Produconsum} {size P C : ℕ} (h : q.Holds size P C)
    (hfit : P + n - C ≤ size) : pcProduce q n ≠ none := by
  obtain ⟨q', hq, -⟩ := h.pcProduce hfit
  simp [hq]

/-- There is room in the FEC queue for a slot that is handed over. -/
theorem handOver_fits (hqueue : FecQueue s) (ht : s.tasks = .handOver i :: rest)
    (huse : s.useFec = true) : pcProduce s.fecDataPc 1 ≠ none := by
  apply pcProduce_fits hqueue.holds
  have hwaits := hqueue.pipeline huse
  have hlength : s.pipeline.length ≤ nrSlices := by
    refine length_le_of_count (fun j => (hwaits j).trans ?_) fun j hj => ?_
    · cases (s.slices j).state.waits <;> decide
    · by_contra hge
      have hcount := hwaits j
      rw [hqueue.beyond j (not_lt.mp hge)] at hcount
      exact absurd (List.count_pos_iff.mpr hj) (not_lt.mpr hcount)
  -- The slot itself is on the way, behind those in the queue.
  unfold State.pipeline at hlength
  rw [fecEntries_eq, ht] at hlength
  simp only [List.length_append, ringEntries_length, List.filterMap_cons, Task.handed,
    List.length_cons] at hlength
  omega

/-- Giving a slot back does not fail while one is in use. -/
theorem freeSlot_never {freed allocated : ℕ}
    (h : s.freeSlicesPc.Holds nrSlices (nrSlices + freed) allocated) (hlt : freed < allocated) :
    freeSlot s i bytes ≠ .error f := by
  intro herror
  unfold freeSlot at herror
  split at herror
  · cases herror
  · rename_i hnone
    exact pcProduce_fits h (by omega) hnone

/-- There is room in the data queue for a slice that is released. -/
theorem cleanupSlices_never {doneState : SliceState} (hg : Grounded st s) (hidle : ¬ s.Frees)
    (hdone : doneState = .done ∨ doneState = .fecDone) (hslots : s₀.freeSlicesPc = s.freeSlicesPc)
    (hslices : s₀.slices = s.slices) (hdata : s₀.data = s.data) :
    cleanupSlices s₀ doneState ≠ .error f := by
  intro herror
  unfold cleanupSlices at herror
  dsimp only at herror
  rw [hslots, hslices, hdata, hg.window.slots.producerPosition] at herror
  split at herror
  · cases herror
  · rename_i hstate
    have hstate : (s.slices (s.freed % nrSlices)).state = doneState := not_not.mp hstate
    split at herror
    · cases herror
    · split at herror
      · cases herror
      · rename_i hnone
        refine pcProduce_fits hg.memory.data ?_ hnone
        have hlt : s.freed < s.started := hg.window.slots.freed_lt_of_state
          (by rcases hdone with rfl | rfl <;> simp) hstate
        have hle := hg.started_le
        have htracked := hg.tracked hlt (by omega)
        obtain ⟨hknown, -⟩ := htracked.complete (by rw [hstate]; rcases hdone with rfl | rfl <;> simp)
        have htaken := hg.memory.start_le hlt hknown
        rw [st.start_succ] at htaken
        rw [htracked.counted.size hknown, hg.sliceNo_eq hlt (by omega), Int.toNat_natCast,
          hg.released.idle hidle]
        have hfree := hg.memory.free.consumed_le
        have hreturned := hg.returned_le
        omega

/-- There is room among the free blocks for a block that a slice has held. -/
theorem freeBlockSpace_never {stripe k : ℕ} (hg : Grounded st s)
    (hpc : s.fecThread = .release i stripe k) (hstripe : stripe < (s.slices i).fecStripes)
    (hk : k < (s.slices i).fecBlocks stripe) :
    freeBlockSpace s ((s.slices i).fecDescs (stripe + k * (s.slices i).fecStripes)).adr ≠
      .error f := by
  intro herror
  unfold freeBlockSpace at herror
  split at herror
  · rename_i hnone
    exact (hg.accounts.releasing i stripe k hpc).2 stripe hstripe k hk (.inr ⟨rfl, le_rfl⟩) hnone
  · rename_i a hadr
    split at herror
    · cases herror
    · rename_i hnone
      have hqueue := hg.conserved.free
      refine pcProduce_fits hqueue.queue ?_ hnone
      have hi : i < nrSlices := by
        by_contra hge
        have hstate := hg.window.slots.releasing i stripe k hpc
        rw [hg.queue.beyond i (not_lt.mp hge)] at hstate
        cases hstate
      have hholds : (s.slices i).holds a ≠ 0 := Slice.holds_ne_zero hstripe hk hadr
      have hpool := hg.conserved.pool
      have hcount : ∀ b, (a :: s.freeAddresses).count b ≤ if b < nrBlocks then 1 else 0 := by
        intro b
        have hb := hpool b
        unfold State.pool at hb
        rcases eq_or_ne b a with rfl | hne
        · have hsum := Finset.single_le_sum (f := fun i => (s.slices i).holds b)
            (fun _ _ => Nat.zero_le _) (Finset.mem_range.mpr hi)
          rw [List.count_cons_self]
          omega
        · rw [List.count_cons_of_ne hne.symm]
          omega
      have hlength : (a :: s.freeAddresses).length ≤ nrBlocks := by
        refine length_le_of_count (fun b => (hcount b).trans ?_) fun b hb => ?_
        · split <;> omega
        · by_contra hge
          have hzero := hcount b
          rw [if_neg hge] at hzero
          exact absurd (List.count_pos_iff.mpr hb) (not_lt.mpr hzero)
      rw [hqueue.freeAddresses_eq, List.length_cons, ringEntries_length] at hlength
      omega

/-! ## All failures -/

/-- The failures of a receiver in default mode, and the tasks at which they occur. -/
inductive Drops (s : State) : Failure → Prop
  | lost {tl : List Task} (ht : s.tasks = .dropped :: tl) : Drops s .droppedByServer
  | unknown {pos c : ℕ} {m : ℤ} {tl : List Task} (ht : s.tasks = .reserve pos m :: tl)
    (hcurrent : s.currentSlice = some c) (hunknown : (s.slices c).bytesKnown = false) :
    Drops s .previousSizeUnknown

/-- A slot that is free can be set up for the next slice, if the last size is known. -/
theorem initSlice_drops {m : ℤ} (hg : Grounded st s) (h : Admits s)
    (ht : s.tasks = .reserve i m :: rest) (herror : initSlice (s.popped rest) i m = .error f) :
    Drops s f := by
  obtain ⟨rfl, hstate, -⟩ | ⟨rfl, c, hcurrent, hunknown⟩ | ⟨rfl, -, hne⟩ := initSlice_error herror
  · obtain ⟨hallocated, rfl⟩ := hg.window.stack.reserved i (by rw [ht]; rfl)
    have hle := hg.window.slots.allocated_le
    exact absurd (hg.window.slots.free s.started le_rfl (by omega)) hstate
  · exact .unknown ht hcurrent hunknown
  · have hnumber := h.number _ (ht ▸ List.mem_cons_self) m rfl
    have hne : s.currentSliceNo ≠ m - 1 := hne
    omega

/-- The network thread fails only at these tasks. -/
theorem NetFails.drops (hfails : NetFails s t rest f) (hg : Grounded st s) (h : Admits s)
    (ht : s.tasks = t :: rest) : Drops s f := by
  cases hfails with
  | restart hcurrent hlt hstreaming hinit | notFirst hcurrent hstreaming hne =>
    rw [hg.plain.notStreaming] at hstreaming
    cases hstreaming
  | dropped => exact .lost ht
  | notFound hfound => cases hg.plain.noFake _ (ht ▸ List.mem_cons_self)
  | force hfound hforce => cases hg.plain.noFake _ (ht ▸ List.mem_cons_self)
  | @takeSlot n _ hstate =>
    have hlt := h.slot n rest ht
    have hsettled := hg.window.stack.settled (by rw [ht]; rfl)
    rw [hg.window.slots.consumerPosition, hsettled] at hstate
    exact absurd (hg.window.slots.free s.started le_rfl (by omega)) hstate
  | reserve hinit => exact initSlice_drops hg h ht hinit
  | process hprocess => exact absurd hprocess (process_never hg h ht)
  | @reuse i _ _ _ _ _ hfinish | @takeBlock i _ _ hfinish =>
    refine absurd hfinish (finishFecBlock_never ?_)
    exact h.level hg i
  | enqueue huse hq => exact absurd hq (handOver_fits hg.queue ht huse)
  | incomplete huse hstate =>
    have hwaits := hg.toSettled.waits_of_handOver huse (ht ▸ List.mem_cons_self)
    exact absurd (SliceState.waits_iff.mp hwaits) hstate
  | release hclean =>
    exact absurd hclean (cleanupSlices_never hg (hg.idle_of_cleanup ht) (.inl rfl) rfl rfl rfl)
  | @freeSlot pos bytes _ _ hfree =>
    obtain ⟨-, hlt, -⟩ := hg.window.stack.netFrees pos bytes rest ht
    have hlt' := hlt.trans_le hg.window.slots.started_le
    exact absurd hfree (freeSlot_never (s := s.popped rest) hg.window.slots.queue hlt')

/-- The FEC thread does not fail at all. -/
theorem FecFails.drops (hfails : FecFails s f) (hg : Grounded st s) (hstored : Stored st s) :
    Drops s f := by
  cases hfails with
  | @decode i _ hpc hdecode =>
    have hstate := hg.window.slots.decoding i hpc
    obtain ⟨k, hk, hlt, rfl, -⟩ := hg.slot (i := i) (by simp [hstate])
    obtain ⟨mem, blocks, hok, -⟩ := (hstored.decodable hg hk hlt hstate).restores
    rw [hok] at hdecode
    cases hdecode
  | @tooMany i stripe k hpc hstripe hlt =>
    have hfull := (hg.accounts.releasing i stripe k hpc).1.full stripe hstripe
    omega
  | freeBlock hpc hstripe hk hfree =>
    exact absurd hfree (freeBlockSpace_never hg hpc hstripe hk)
  | release hpc hclean =>
    apply absurd hclean
    exact cleanupSlices_never hg (hg.idle_of_fecCleanup hpc) (.inr rfl) rfl rfl rfl
  | freeSlot hpc hfree =>
    obtain ⟨-, hlt, -⟩ := hg.window.slots.fecFrees _ _ hpc
    have hlt' := hlt.trans_le hg.window.slots.started_le
    exact absurd hfree (freeSlot_never hg.window.slots.queue hlt')

/-- So the receiver fails only at these tasks. -/
theorem Fails.drops {a : Action} (hfails : Fails s a f) (hg : Grounded st s) (h : Admits s)
    (hstored : Stored st s) : Drops s f := by
  cases hfails with
  | net ht hnet => exact hnet.drops hg h ht
  | fec hfec => exact hfec.drops hg hstored
  | writer hpc hq =>
    refine absurd hq (pcProduce_fits hg.memory.free ?_)
    have howed := hg.memory.returned
    rw [hpc] at howed
    have htaken := hg.memory.released_le hg.toSettled hg.released
    have hwritten := hg.written_le
    simp only [WriterPc.owed] at howed
    omega

/-- A run fails from a state that is reachable, and at one of these tasks. -/
theorem drops_of_reachable (hst : st.Valid) (h : ((system st defaultMode).restrict C).Reachable s)
    (hfails : s.failure = some f) : ∃ s₀, ((system st defaultMode).restrict C).Reachable s₀ ∧
      s₀.failure = none ∧ Drops s₀ f := by
  obtain ⟨s₀, a, hs₀, hrunning, -, -, hcase, -⟩ := fails_of_reachable h hfails
  have hbefore := System.restrict_reachable hs₀
  exact ⟨s₀, hs₀, hrunning, hcase.drops (grounded_of_reachable hst hbefore hrunning)
    (admits_of_reachable hbefore hrunning) (intact_of_reachable hst hbefore hrunning).stored⟩

/-- A receiver in default mode stops only because it has fallen behind, or because a slice begins
before the size of the last one is known: no assertion fails, no queue overflows, and no message
contradicts another. -/
theorem failure_of_reachable (hst : st.Valid) (h : (system st defaultMode).Reachable s)
    (hfails : s.failure = some f) : f = .droppedByServer ∨ f = .previousSizeUnknown := by
  obtain ⟨s₀, -, -, hdrops⟩ :=
    drops_of_reachable hst (h.restrict (C := fun _ _ => True) fun _ _ => trivial) hfails
  cases hdrops with
  | lost => exact .inl rfl
  | unknown => exact .inr rfl

/-- The empty slice is announced before the first slice has been received: the receiver stops. -/
theorem failure_of_reachable_three_bytes : ∃ s f, (system threeBytes defaultMode).Reachable s ∧
    s.failure = some f ∧ (f = .droppedByServer ∨ f = .previousSizeUnknown) := by
  have hrun : ((start ⟨1, false, true, 0⟩ false (fun _ => .ofNat 0) fun _ _ => .ofNat 0).bind
      fun s => System.perform act s
        (List.replicate 3 .net ++ schedule [(.reqack 2 0 0 ∅, 5)])).any fun s =>
          s.failure = some .droppedByServer := by
    decide +kernel
  obtain ⟨s, hs, hlast⟩ := (Option.any_eq_true _ _).mp hrun
  obtain ⟨s₀, hstart, hperform⟩ := Option.bind_eq_some_iff.mp hs
  have hfailure := of_decide_eq_true hlast
  have hconforms : ∀ a ∈ List.replicate 3 Action.net ++ schedule [(.reqack 2 0 0 ∅, 5)],
      a.Conforms threeBytes := by
    intro a ha
    rcases List.mem_append.mp ha with ha | ha
    · obtain ⟨-, rfl⟩ := List.mem_replicate.mp ha
      trivial
    · refine conforms_schedule (fun p hp => ?_) a ha
      obtain rfl := List.mem_singleton.mp hp
      exact .reqack 2 0 ∅ (by decide)
  have hinit : (system threeBytes defaultMode).Init s₀ :=
    ⟨_, _, _, _, ⟨by decide, by decide⟩, rfl, ⟨rfl, rfl⟩, hstart⟩
  have hreach : (system threeBytes defaultMode).Reachable s :=
    ⟨s₀, hinit, System.run_of_perform_in hconforms hperform⟩
  exact ⟨s, .droppedByServer, hreach, hfailure,
    failure_of_reachable threeBytes_valid hreach hfailure⟩

end Udpcast.Receiver
