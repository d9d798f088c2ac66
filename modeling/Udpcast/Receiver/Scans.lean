import Udpcast.Receiver.Passed

/-!
# The two loops over the ring of slots

The backward scan of `findSlice` ends when some slot is free or holds the slice looked for; the
loop of `advanceReceivedPointer` ends when some slot is not complete. Neither counts its turns. When
the FEC thread lags behind, all four slots can be in use, and even complete.
-/

namespace Udpcast.Receiver

open Queue
open Protocol

variable {st : Stream} {s s' : State} {t : Task} {rest : List Task} {n : ℤ} {k p pos d : ℕ}

/-! ## The scan -/

/-- The scan for slice `n` ends in this slot. -/
def Hit (s : State) (n : ℤ) (i : ℕ) : Prop :=
  (s.slices i).sliceNo = n ∨ (s.slices i).state = .free

/-- The scan ends in a slot that it hits. -/
theorem runAlone_hit (h : Hit s n pos) :
    ∃ found, runAlone (k + 2) { s with tasks := [.scan n pos] } = some found := by
  show ∃ found, runAlone (k + 1) (scanSlot (s.popped []) n pos) = some found
  unfold scanSlot
  split
  · exact ⟨_, rfl⟩
  · rename_i hno
    rw [if_pos (show ((s.popped []).slices pos).state = .free from h.resolve_left hno)]
    exact ⟨_, rfl⟩

/-- From any other slot it goes on to the slot before. -/
theorem runAlone_miss (h : ¬ Hit s n pos) : runAlone (k + 1) { s with tasks := [.scan n pos] } =
    runAlone k { s with tasks := [.scan n (previousSlot pos)] } := by
  show runAlone k (scanSlot (s.popped []) n pos) = _
  unfold scanSlot
  rw [if_neg (show ¬ ((s.popped []).slices pos).sliceNo = n from fun hno => h (.inl hno)),
    if_neg (show ¬ ((s.popped []).slices pos).state = .free from fun hfree => h (.inr hfree))]
  rfl

/-- So it ends if it meets such a slot within the turns it has. -/
theorem runAlone_of_hit (hd : d < k) (h : Hit s n (previousSlot^[d] pos)) :
    ∃ found, runAlone (k + 1) { s with tasks := [.scan n pos] } = some found := by
  induction d generalizing pos k with
  | zero =>
    obtain ⟨k, rfl⟩ := Nat.exists_eq_succ_of_ne_zero hd.ne'
    exact runAlone_hit h
  | succ d ih =>
    obtain ⟨k, rfl⟩ := Nat.exists_eq_succ_of_ne_zero (Nat.ne_zero_of_lt hd)
    by_cases hhit : Hit s n pos
    · exact runAlone_hit hhit
    · rw [runAlone_miss hhit]
      exact ih (Nat.lt_of_succ_lt_succ hd) h

/-- If no slot is hit, it goes around for ever. -/
theorem runAlone_of_miss (hall : ∀ i < nrSlices, ¬ Hit s n i) (hpos : pos < nrSlices) :
    runAlone k { s with tasks := [.scan n pos] } = none := by
  induction k generalizing pos with
  | zero => rfl
  | succ k ih =>
    rw [runAlone_miss (hall pos hpos)]
    apply ih
    unfold previousSlot
    simp only [nrSlices] at hpos ⊢
    split <;> omega

/-- Going backward, one comes to every slot. -/
theorem exists_previous : ∀ pos < nrSlices, ∀ i < nrSlices,
    ∃ d < nrSlices, previousSlot^[d] pos = i := by
  decide

/-- The scan visits the four slots in turn until one of them ends it. -/
theorem runAlone_scan_iff (hpos : pos < nrSlices) :
    (∃ found, runAlone (nrSlices + 1) { s with tasks := [.scan n pos] } = some found) ↔
      ∃ i < nrSlices, Hit s n i := by
  constructor
  · rintro ⟨found, hrun⟩
    by_contra hnone
    rw [runAlone_of_miss (fun i hi hhit => hnone ⟨i, hi, hhit⟩) hpos] at hrun
    cases hrun
  · rintro ⟨i, hi, hhit⟩
    obtain ⟨d, hd, rfl⟩ := exists_previous pos hpos i hi
    exact runAlone_of_hit hd hhit

/-- `findSlice(n)` comes to an end after at most `NR_SLICES` slots, while the other threads stand
still. -/
def ScanStops (s : State) (n : ℤ) : Prop :=
  ∀ c, s.currentSlice = some c →
    ∃ found, runAlone (nrSlices + 1) (findSlice (s.popped []) n) = some found

/-- Only the last four slices are found for sure. -/
theorem Settled.exists_hit_iff (hs : Settled st s) (hle : n ≤ s.currentSliceNo) :
    (∃ i < nrSlices, Hit s n i) ↔
      (∃ i < nrSlices, (s.slices i).state = .free) ∨ s.currentSliceNo < n + nrSlices := by
  have hnumbered := hs.plain.numbered
  have hstarted := hs.started_le
  have hspare : s.started < s.freed + nrSlices → ∃ i < nrSlices, (s.slices i).state = .free :=
    fun hlt => ⟨s.started % nrSlices, Nat.mod_lt _ (by decide), hs.window.slots.free _ le_rfl hlt⟩
  constructor
  · rintro ⟨i, hi, hno | hfree⟩
    · by_cases hroom : s.started < s.freed + nrSlices
      · exact .inl (hspare hroom)
      · -- All slots are in use, by the last four slices.
        refine .inr ?_
        obtain ⟨k, hk, hklt, heq⟩ : ∃ k, s.freed ≤ k ∧ k < s.started ∧ i = k % nrSlices := by
          refine ⟨s.freed + (i + nrSlices - s.freed % nrSlices) % nrSlices, Nat.le_add_right .., ?_, ?_⟩
          · have hlt := Nat.mod_lt (i + nrSlices - s.freed % nrSlices) (y := nrSlices) (by decide)
            omega
          · simp only [nrSlices] at hi ⊢
            omega
        rw [heq, hs.sliceNo_eq hklt (by omega)] at hno
        omega
    · exact .inl ⟨i, hi, hfree⟩
  · rintro (⟨i, hi, hfree⟩ | hnear)
    · exact ⟨i, hi, .inr hfree⟩
    · by_cases hroom : s.started < s.freed + nrSlices
      · obtain ⟨i, hi, hfree⟩ := hspare hroom
        exact ⟨i, hi, .inr hfree⟩
      · have hn : 0 ≤ n := by omega
        have hno : (s.slices (n.toNat % nrSlices)).sliceNo = n.toNat :=
          hs.sliceNo_eq (by omega) (by omega)
        exact ⟨n.toNat % nrSlices, Nat.mod_lt _ (by decide), .inl (by omega)⟩

/-- The scan ends exactly if a slot is free, or the slice is one of the last four. -/
theorem Settled.scanStops_iff (hs : Settled st s) (hle : n ≤ s.currentSliceNo) :
    ScanStops s n ↔
      (∃ i < nrSlices, (s.slices i).state = .free) ∨ s.currentSliceNo < n + nrSlices := by
  rw [← hs.exists_hit_iff hle]
  have hnumbered := hs.plain.numbered
  unfold ScanStops
  rw [hs.window.slots.current]
  rcases Nat.eq_zero_or_pos s.started with hzero | hpos
  · rw [if_pos hzero]
    refine iff_of_true (fun c hc => by cases hc) ⟨0, by decide, .inr ?_⟩
    exact hs.window.slots.free 0 hzero.le (by simp [nrSlices])
  · rw [if_neg hpos.ne']
    have hcurrent : (s.popped []).currentSlice = some ((s.started - 1) % nrSlices) := by
      show s.currentSlice = _
      rw [hs.window.slots.current, if_neg hpos.ne']
    have hscan : findSlice (s.popped []) n =
        { s with tasks := [.scan n ((s.started - 1) % nrSlices)] } := by
      unfold findSlice
      rw [hcurrent]
      exact if_pos hle
    rw [hscan, ← runAlone_scan_iff (Nat.mod_lt _ (by decide))]
    exact ⟨fun h => h _ rfl, fun h _ _ => h⟩

/-! ## The loop of `advanceReceivedPointer` -/

/-- The network thread goes through at most `k` slots in `advanceReceivedPointer`, while the other
threads stand still. -/
def advanceAlone : ℕ → State → Option State
  | 0, _ => none
  | k + 1, s => (netStep s).bind fun s' =>
    match s'.tasks with
    | .advance _ :: _ => advanceAlone k s'
    | _ => some s'

/-- The next turn of the loop looks at slot `p`. -/
def LooksAt (s : State) (p : ℕ) (rest : List Task) : Prop :=
  s.tasks = .advance p :: rest ∨ s.tasks = .advanceReceivedPointer :: rest ∧ p = s.receivedPtr

/-- The next step of the network thread is a turn of the loop. -/
theorem LooksAt.netStep (h : LooksAt s p rest) :
    netStep s = some (Receiver.advance (s.popped rest) p) := by
  unfold Receiver.netStep
  rcases h with ht | ⟨ht, rfl⟩
  · rw [ht]
    rfl
  · rw [ht]
    rfl

/-- The loop goes on behind a slice that is complete. -/
theorem advance_go (hdone : (s.slices p).state.complete = true) :
    Receiver.advance (s.popped rest) p = { s with
      receivedSliceNo := (s.slices p).sliceNo, tasks := .advance (nextSlot p) :: rest } :=
  if_pos hdone

/-- It stops at any other slot. -/
theorem advance_stop (hidle : (s.slices p).state.complete = false) :
    Receiver.advance (s.popped rest) p = { s with receivedPtr := p, tasks := rest } :=
  if_neg (by simp [State.popped, hidle])

/-- Alone, it goes on to the next slot. -/
theorem advanceAlone_go (h : LooksAt s p rest) (hdone : (s.slices p).state.complete = true) :
    advanceAlone (k + 1) s = advanceAlone k { s with
      receivedSliceNo := (s.slices p).sliceNo, tasks := .advance (nextSlot p) :: rest } := by
  rw [advanceAlone, h.netStep, advance_go hdone]
  rfl

/-- Alone, it ends where it stops. -/
theorem advanceAlone_stop (h : LooksAt s p rest) (hrest : ∀ pos tl, rest ≠ .advance pos :: tl)
    (hidle : (s.slices p).state.complete = false) :
    advanceAlone (k + 1) s = some { s with receivedPtr := p, tasks := rest } := by
  rw [advanceAlone, h.netStep, advance_stop hidle, Option.bind_some]
  dsimp only
  split
  · exact absurd rfl (hrest _ _)
  · rfl

/-- So it ends if it meets such a slot within the turns it has. -/
theorem advanceAlone_of_idle (h : LooksAt s p rest) (hrest : ∀ pos tl, rest ≠ .advance pos :: tl)
    (hd : d < k) (hidle : (s.slices (nextSlot^[d] p)).state.complete = false) :
    ∃ s', advanceAlone k s = some s' := by
  induction d generalizing s p k with
  | zero =>
    obtain ⟨k, rfl⟩ := Nat.exists_eq_succ_of_ne_zero hd.ne'
    exact ⟨_, advanceAlone_stop h hrest hidle⟩
  | succ d ih =>
    obtain ⟨k, rfl⟩ := Nat.exists_eq_succ_of_ne_zero (Nat.ne_zero_of_lt hd)
    cases hstate : (s.slices p).state.complete with
    | false => exact ⟨_, advanceAlone_stop h hrest hstate⟩
    | true =>
      rw [advanceAlone_go h hstate]
      exact ih (.inl rfl) (Nat.lt_of_succ_lt_succ hd) hidle

/-- The loop stays within the slots. -/
theorem nextSlot_lt : ∀ pos < nrSlices, nextSlot pos < nrSlices := by
  decide

/-- If all slots are complete, it goes around for ever. -/
theorem advanceAlone_of_complete (h : LooksAt s p rest) (hp : p < nrSlices)
    (hall : ∀ i < nrSlices, (s.slices i).state.complete = true) : advanceAlone k s = none := by
  induction k generalizing s p with
  | zero => rfl
  | succ k ih =>
    rw [advanceAlone_go h (hall p hp)]
    exact ih (.inl rfl) (nextSlot_lt p hp) hall

/-- Going forward, one comes to every slot. -/
theorem exists_next : ∀ pos < nrSlices, ∀ i < nrSlices, ∃ d < nrSlices, nextSlot^[d] pos = i := by
  decide

/-- The loop ends unless all four slots are complete. -/
theorem advanceAlone_iff (h : LooksAt s p rest) (hrest : ∀ pos tl, rest ≠ .advance pos :: tl)
    (hp : p < nrSlices) : (∃ s', advanceAlone nrSlices s = some s') ↔ Spare s := by
  constructor
  · rintro ⟨s', hrun⟩
    by_contra hspare
    have hall : ∀ i < nrSlices, (s.slices i).state.complete = true := by
      intro i hi
      by_contra hidle
      exact hspare ⟨i, hi, Bool.not_eq_true _ ▸ hidle⟩
    rw [advanceAlone_of_complete h hp hall] at hrun
    cases hrun
  · rintro ⟨i, hi, hidle⟩
    obtain ⟨d, hd, rfl⟩ := exists_next p hp i hi
    exact advanceAlone_of_idle h hrest hd hidle

/-! ## What the loop leaves behind -/

/-- Slice `k` has been completed. -/
def IsComplete (s : State) (k : ℕ) : Prop :=
  k < s.freed ∨ k < s.started ∧ (s.slices (k % nrSlices)).state.complete = true

/-- `receivedSliceNo` is the largest number such that all slices up to it are complete. -/
def ReceivedUpTo (s : State) : Prop :=
  (∀ k : ℕ, (k : ℤ) ≤ s.receivedSliceNo → IsComplete s k) ∧
    ∀ m : ℤ, (∀ k : ℕ, (k : ℤ) ≤ m → IsComplete s k) → m ≤ s.receivedSliceNo

/-- `advanceReceivedPointer` ends after at most `NR_SLICES` slots, with the right result, while
the other threads stand still. -/
def AdvanceRight (s : State) : Prop :=
  ∃ s', advanceAlone nrSlices s = some s' ∧ ReceivedUpTo s' ∧
    s.receivedSliceNo ≤ s'.receivedSliceNo

/-- When the loop has ended, `receivedSliceNo` is the number up to which all slices are complete.
-/
theorem Passed.receivedUpTo (h : Passed s) (hs : Settled st s)
    (hhead : ∀ pos tl, s.tasks ≠ .advance pos :: tl)
    (hidle : (s.slices s.receivedPtr).state.complete = false) : ReceivedUpTo s := by
  obtain ⟨k, hk, hptr, hrsn⟩ := hs.linked_iff.mp (h.linked hhead)
  have hfreed := h.freed_le
  refine ⟨fun j hj => ?_, fun m hall => ?_⟩
  · rcases Nat.lt_or_ge j s.freed with hlt | hge
    · exact .inl hlt
    · exact .inr ⟨by omega, h.complete j hge hj⟩
  · by_contra hm
    rcases hall k (by omega) with hlt | ⟨-, hdone⟩
    · omega
    · rw [← hptr, hidle] at hdone
      cases hdone

/-- The rules of the runs in which the loop is entered only when it ends. -/
abbrev spareSystem (st : Stream) : System State := (system st defaultMode).restrict EntersSpare

/-- A turn of the loop is a step of the runs that enter it only with a spare slot. -/
theorem LooksAt.step (h : LooksAt s p rest) (hrunning : s.failure = none)
    (hspare : EntersSpare s (Receiver.advance (s.popped rest) p)) :
    (spareSystem st).Step s (Receiver.advance (s.popped rest) p) := by
  refine ⟨⟨.net, trivial, ?_⟩, hspare⟩
  unfold act
  rw [if_pos hrunning]
  exact h.netStep

/-- The loop is part of a run, and stops at a slot that is not complete. -/
theorem advanceAlone_run (st : Stream) (h : LooksAt s p rest) (hrest : ∀ pos tl, rest ≠ .advance pos :: tl)
    (hrunning : s.failure = none) (hspare : ∀ s', EntersSpare s s')
    (hrun : advanceAlone k s = some s') :
    (spareSystem st).Run s s' ∧ s'.failure = none ∧
      (s'.slices s'.receivedPtr).state.complete = false ∧
      ∀ pos tl, s'.tasks ≠ .advance pos :: tl := by
  induction k generalizing s p with
  | zero => cases hrun
  | succ k ih =>
    have hstep : (spareSystem st).Step s _ := h.step hrunning (hspare _)
    cases hstate : (s.slices p).state.complete with
    | false =>
      rw [advanceAlone_stop h hrest hstate] at hrun
      rw [advance_stop hstate] at hstep
      obtain rfl := Option.some.inj hrun
      exact ⟨.single hstep, hrunning, hstate, hrest⟩
    | true =>
      rw [advanceAlone_go h hstate] at hrun
      rw [advance_go hstate] at hstep
      have hnext : LooksAt { s with receivedSliceNo := (s.slices p).sliceNo
                                    tasks := .advance (nextSlot p) :: rest } (nextSlot p) rest :=
        .inl rfl
      obtain ⟨hlater, hlast⟩ := ih hnext hrunning (fun _ tl htl => by cases htl) hrun
      exact ⟨(System.Run.single hstep).trans hlater, hlast⟩

/-- The number of the last slice received never decreases. -/
theorem receivedSliceNo_mono (h : (spareSystem st).Reachable s) (hrun : (spareSystem st).Run s s') :
    s.receivedSliceNo ≤ s'.receivedSliceNo := by
  have hboth : (spareSystem st).Reachable s' ∧ s.receivedSliceNo ≤ s'.receivedSliceNo := by
    refine hrun.preserve (P := fun u => (spareSystem st).Reachable u ∧
      s.receivedSliceNo ≤ u.receivedSliceNo) ?_ ⟨h, le_rfl⟩
    rintro u w ⟨hu, hle⟩ hstep
    refine ⟨hu.step hstep, hle.trans ?_⟩
    obtain ⟨⟨a, -, hact⟩, hspare⟩ := hstep
    cases hfailure : w.failure with
    | none =>
      obtain ⟨hrunning, hmoves⟩ := act_moves hact hfailure
      have hs := settled_of_reachable (System.restrict_reachable hu) hrunning
      exact ((passed_of_reachable hu hrunning).moves hs hmoves hspare).2
    | some f =>
      obtain ⟨-, -, tasks, q, n, rfl⟩ := act_fails hact hfailure
      exact le_rfl
  exact hboth.2

/-- In such a run the loop does what it should exactly if there is a spare slot. -/
theorem advanceRight_iff (h : (spareSystem st).Reachable s) (hrunning : s.failure = none)
    (ht : s.tasks = .advanceReceivedPointer :: rest) : AdvanceRight s ↔ Spare s := by
  have hs := settled_of_reachable (System.restrict_reachable h) hrunning
  have hrest := noAdvance_rest (ht ▸ hs.window.stack.chain)
  have hlooks : LooksAt s s.receivedPtr rest := .inr ⟨ht, rfl⟩
  have hptr : s.receivedPtr < nrSlices := by
    obtain ⟨k, -, hk, -⟩ := (passed_of_reachable h hrunning).linked (by simp [ht])
    rw [hk]
    exact Nat.mod_lt _ (by decide)
  rw [← advanceAlone_iff hlooks hrest hptr]
  constructor
  · rintro ⟨s', hrun, -⟩
    exact ⟨s', hrun⟩
  · rintro ⟨s', hrun⟩
    have hspare : Spare s := (advanceAlone_iff hlooks hrest hptr).mp ⟨s', hrun⟩
    obtain ⟨hlater, hrunning', hidle, hhead⟩ :=
      advanceAlone_run st hlooks hrest hrunning (fun _ _ _ => hspare) hrun
    obtain ⟨s₀, hinit, hbefore⟩ := h
    have hs' : (spareSystem st).Reachable s' := ⟨s₀, hinit, hbefore.trans hlater⟩
    refine ⟨s', hrun, ?_, receivedSliceNo_mono ⟨s₀, hinit, hbefore⟩ hlater⟩
    exact (passed_of_reachable hs' hrunning').receivedUpTo
      (settled_of_reachable (System.restrict_reachable hs') hrunning') hhead hidle

/-- In the runs in which `advanceReceivedPointer` finds a slot that is not complete whenever it is
entered: both loops end with the right answer exactly when there is a slot to end in. -/
theorem scans_end_iff (h : (spareSystem st).Reachable s) (hrunning : s.failure = none) :
    (∀ n ≤ s.currentSliceNo, ScanStops s n ↔
      (∃ i < nrSlices, (s.slices i).state = .free) ∨ s.currentSliceNo < n + nrSlices) ∧
    (∀ rest, s.tasks = .advanceReceivedPointer :: rest → (AdvanceRight s ↔ Spare s)) ∧
    ∀ s', (spareSystem st).Run s s' → s.receivedSliceNo ≤ s'.receivedSliceNo := by
  have hs := settled_of_reachable (System.restrict_reachable h) hrunning
  refine ⟨fun n hle => hs.scanStops_iff hle, fun rest ht => ?_, fun s' hrun => ?_⟩
  · exact advanceRight_iff h hrunning ht
  · exact receivedSliceNo_mono h hrun

instance : Decidable (Spare s) :=
  inferInstanceAs (Decidable (∃ i < nrSlices, (s.slices i).state.complete = false))

instance : Decidable (EntersSpare s s') :=
  decidable_of_iff ((s.tasks.head?.any fun t => t matches .advanceReceivedPointer) → Spare s) <| by
    unfold EntersSpare
    cases s.tasks with
    | nil => simp
    | cons t tl => cases t <;> simp

/-- The network thread is about to enter the loop. -/
theorem entering_of_head (h : s.tasks.head?.any fun t => t matches .advanceReceivedPointer) :
    ∃ rest, s.tasks = .advanceReceivedPointer :: rest := by
  cases htasks : s.tasks with
  | nil => simp [htasks] at h
  | cons t tl => cases t <;> simp [htasks] at h ⊢

/-- Four slices of one block. -/
def fourSlices : Stream := .zeros [1, 1, 1, 1] 1 1 1

/-- A FEC block of the first slice arrives, and then the blocks of the next slices, up to the
entry into `advanceReceivedPointer` for the last of them. The FEC thread does nothing. -/
def lagging (last : ℕ) : List Action :=
  List.replicate 3 .net ++ schedule ((.fec 1 0 0 1 [.ofNat 0], 9) ::
    (List.range last).map fun k =>
      (.data (k + 1) 0 1 (fourSlices.dataPayload (k + 1) 0), if k + 1 = last then 6 else 9))

/-- The stream of the example is one that a sender may send. -/
theorem fourSlices_valid : fourSlices.Valid where
  blockSize_pos := by decide
  cut_pos := by decide
  cut_le := by decide
  dvd _ _ := one_dvd _
  dvd_or_lt _ _ := .inl (one_dvd _)
  stripes_pos _ := by decide
  stripes_le := by decide
  redundancy_le := by decide
  stripe_le _ := by decide

/-- Its receiver starts in default mode. -/
theorem fourSlices_init (hstart : startTwoAndOne = some s) :
    (system fourSlices defaultMode).Init s :=
  ⟨_, _, _, _, ⟨by decide, by decide⟩, rfl, ⟨rfl, rfl⟩, hstart⟩

/-- Its messages conform to it. -/
theorem lagging_conform (last : ℕ) (hlast : last ≤ 3) :
    ∀ a ∈ lagging last, a.Conforms fourSlices := by
  have hdata : ∀ k < 3, fourSlices.Sends
      (.data (k + 1) 0 1 (fourSlices.dataPayload (k + 1) 0)) := by
    intro k hk
    interval_cases k <;> exact .data _ 0 (by decide) (by decide)
  have hfec : fourSlices.Sends (.fec 1 0 0 1 [.ofNat 0]) :=
    .fec 0 0 [.ofNat 0] (by decide) (by decide) fun _ =>
      Stream.zeros_isFecPayload (by decide) (by decide) (by decide) (by decide)
  intro a ha
  rcases List.mem_append.mp ha with ha | ha
  · obtain ⟨-, rfl⟩ := List.mem_replicate.mp ha
    trivial
  · refine conforms_schedule (fun p hp => ?_) a ha
    rcases List.mem_cons.mp hp with rfl | hp
    · exact hfec
    · obtain ⟨k, hk, rfl⟩ := List.mem_map.mp hp
      exact hdata k (by have := List.mem_range.mp hk; omega)

/-- The FEC thread has not looked at the first two slices; the loop ends all the same. -/
theorem scans_end_iff_two_slices : ∃ s, (spareSystem fourSlices).Reachable s ∧
    s.currentSliceNo = 1 ∧ AdvanceRight s ∧ ScanStops s 0 := by
  have hrun : (startTwoAndOne.bind fun s => System.perform
      (System.guarded act EntersSpare) s (lagging 1)).any fun s =>
        s.failure = none ∧ s.currentSliceNo = 1 ∧ Spare s ∧
          (s.tasks.head?.any fun t => t matches .advanceReceivedPointer) := by
    decide +kernel
  obtain ⟨s, hs, hlast⟩ := (Option.any_eq_true _ _).mp hrun
  obtain ⟨s₀, hstart, hperform⟩ := Option.bind_eq_some_iff.mp hs
  obtain ⟨hrunning, hcsn, hspare, hhead⟩ := of_decide_eq_true hlast
  have hreach : (spareSystem fourSlices).Reachable s := ⟨s₀, fourSlices_init hstart,
    System.restrict_run_of_perform_in (lagging_conform 1 (by decide)) hperform⟩
  obtain ⟨rest, ht⟩ := entering_of_head hhead
  obtain ⟨hscan, hadvance, -⟩ := scans_end_iff hreach hrunning
  refine ⟨s, hreach, hcsn, (hadvance rest ht).mpr hspare, (hscan 0 ?_).mpr (.inr ?_)⟩
  · rw [hcsn]
    decide
  · rw [hcsn]
    decide

/-- All four slices are complete before the FEC thread has looked at one: the loop goes round
and round. -/
theorem not_scans_end : ¬ ∀ st : Stream, st.Valid → ∀ s, (system st defaultMode).Reachable s →
    s.failure = none → (∀ n ≤ s.currentSliceNo, ScanStops s n) ∧
      ∀ rest, s.tasks = .advanceReceivedPointer :: rest → AdvanceRight s := by
  intro hclaim
  have hrun : (startTwoAndOne.bind fun s => System.perform act s (lagging 3)).any fun s =>
      s.failure = none ∧ (advanceAlone nrSlices s).isNone ∧
        (s.tasks.head?.any fun t => t matches .advanceReceivedPointer) := by
    decide +kernel
  obtain ⟨s, hs, hlast⟩ := (Option.any_eq_true _ _).mp hrun
  obtain ⟨s₀, hstart, hperform⟩ := Option.bind_eq_some_iff.mp hs
  obtain ⟨hrunning, hnone, hhead⟩ := of_decide_eq_true hlast
  have hreach : (system fourSlices defaultMode).Reachable s := ⟨s₀, fourSlices_init hstart,
    System.run_of_perform_in (lagging_conform 3 le_rfl) hperform⟩
  obtain ⟨rest, ht⟩ := entering_of_head hhead
  obtain ⟨s', hstops, -⟩ := (hclaim _ fourSlices_valid s hreach hrunning).2 rest ht
  rw [Option.isNone_iff_eq_none.mp hnone] at hstops
  cases hstops

end Udpcast.Receiver
