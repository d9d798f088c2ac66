import Udpcast.Receiver.Behind
import Udpcast.Receiver.Decoding

/-!
# A message that waits

From its arrival until its slice has been found, a message is the last task of the network thread,
and all tasks before it look for the slice. Meanwhile the network thread touches no slice that is
in use. In default mode the pool of FEC blocks is conserved without further conditions.
-/

namespace Udpcast.Receiver

open Queue
open Protocol

/-- The task belongs to `findSlice`. -/
def Task.seeks (t : Task) : Prop := t.finds ≠ none ∨ t = .dropped

/-- A message that waits is the last task, and the others look for its slice. -/
def Seeking (s : State) : Prop :=
  ∀ msg, .process msg ∈ s.tasks → ∃ l, s.tasks = l ++ [.process msg] ∧ ∀ t ∈ l, t.seeks

variable {st : Stream} {s s' : State} {t : Task} {rest : List Task} {msg : ServerMsg} {i : ℕ}

/-- Looking for a slice leads to tasks that look for a slice. -/
theorem NetMoves.seeks (hm : NetMoves s t rest s') (hs : Settled st s) (hfinds : t.finds ≠ none) :
    ∃ l, s'.tasks = l ++ rest ∧ ∀ x ∈ l, x.seeks := by
  have hone : ∀ {x : Task}, x.finds ≠ none → s'.tasks = x :: rest →
      ∃ l, s'.tasks = l ++ rest ∧ ∀ x ∈ l, x.seeks := by
    intro x hx htasks
    refine ⟨[x], htasks, fun y hy => ?_⟩
    obtain rfl := List.mem_singleton.mp hy
    exact .inl hx
  have hnone : s'.tasks = rest → ∃ l, s'.tasks = l ++ rest ∧ ∀ x ∈ l, x.seeks :=
    fun htasks => ⟨[], htasks, fun x hx => by cases hx⟩
  cases hm with
  | join => exact hone (by simp [Task.finds]) rfl
  | lookBack => exact hone (by simp [Task.finds]) rfl
  | lookAhead => exact hone (by simp [Task.finds]) rfl
  | restart hcurrent hlt hstreaming hinit =>
    rw [hs.plain.notStreaming] at hstreaming
    cases hstreaming
  | scanFound => exact hnone rfl
  | scanFree => exact hnone rfl
  | scanOn => exact hone (by simp [Task.finds]) rfl
  | behind hbehind hignore =>
    rw [hs.plain.keepsData] at hignore
    cases hignore
  | @lost n =>
    refine ⟨[.findSlice (s.receivedSliceNo + 1), .dropped, .catchUp n], rfl, fun x hx => ?_⟩
    simp only [List.mem_cons, List.not_mem_nil, or_false] at hx
    rcases hx with rfl | rfl | rfl
    · exact .inl (by simp [Task.finds])
    · exact .inr rfl
    · exact .inl (by simp [Task.finds])
  | caughtUp => exact hone (by simp [Task.finds]) rfl
  | newSlice => exact hone (by simp [Task.finds]) rfl
  | takeSlot => exact hone (by simp [Task.finds]) rfl
  | reserve hmem hinit =>
    obtain ⟨-, -, -, guess, -, rfl⟩ := initSlice_ok hinit
    exact hnone rfl
  | _ => exact absurd rfl hfinds

/-- While a message waits, the network thread looks for its slice. -/
theorem Seeking.finds (h : Seeking s) (hm : NetMoves s t rest s') (ht : s.tasks = t :: rest)
    (hmem : .process msg ∈ s'.tasks) : .process msg ∈ s.tasks ∧ t.finds ≠ none ∧
      ∃ l, rest = l ++ [.process msg] ∧ ∀ x ∈ l, x.seeks := by
  have hrest := hm.process_mem hmem
  have hbefore : .process msg ∈ s.tasks := ht ▸ List.mem_cons_of_mem _ hrest
  obtain ⟨l, hl, hall⟩ := h msg hbefore
  rw [ht] at hl
  cases l with
  | nil =>
    obtain ⟨-, rfl⟩ := List.cons.inj hl
    cases hrest
  | cons x l =>
    obtain ⟨rfl, rfl⟩ := List.cons.inj hl
    refine ⟨hbefore, ?_, l, rfl, fun y hy => hall y (List.mem_cons_of_mem _ hy)⟩
    rcases hall _ List.mem_cons_self with hfinds | rfl
    · exact hfinds
    · cases hm

/-- The network thread looks for the slice of a message until it has found it. -/
theorem Seeking.netMoves (h : Seeking s) (hs : Settled st s) (hm : NetMoves s t rest s')
    (ht : s.tasks = t :: rest) : Seeking s' := by
  intro msg hmem
  obtain ⟨-, hfinds, l, hl, hall⟩ := h.finds hm ht hmem
  obtain ⟨l', htasks, hall'⟩ := hm.seeks hs hfinds
  refine ⟨l' ++ l, by rw [htasks, hl, List.append_assoc], fun x hx => ?_⟩
  rcases List.mem_append.mp hx with hx | hx
  · exact hall' x hx
  · exact hall x hx

/-- The other threads do not change what waits. -/
theorem Seeking.moves {a : Action} (h : Seeking s) (hs : Settled st s) (hm : Moves s a s') :
    Seeking s' := by
  have hsame : s'.tasks = s.tasks → Seeking s' := by
    intro htasks msg hmem
    rw [htasks] at hmem ⊢
    exact h msg hmem
  cases hm with
  | @receive msg mem blocks hidle hend =>
    intro msg' hmem
    have hmem : .process msg' ∈ dispatch msg := hmem
    cases msg with
    | hello => cases hmem
    | _ =>
      simp only [dispatch, List.mem_cons, List.not_mem_nil, or_false, reduceCtorEq, false_or] at hmem
      obtain rfl := Task.process.inj hmem
      refine ⟨[_], rfl, fun x hx => ?_⟩
      obtain rfl := List.mem_singleton.mp hx
      exact .inl (by simp [Task.finds])
  | exitWait => exact hsame rfl
  | net ht hm => exact h.netMoves hs hm ht
  | fec hm => exact hsame hm.frame.1
  | writer hm => cases hm <;> exact hsame rfl

/-- A slice with as many blocks as it should have has all of them. -/
theorem Counted.mem_of_card {slice : Slice} {b : ℕ} (h : Counted st slice)
    (hcard : st.blocks slice.sliceNo.toNat ≤ slice.map.card)
    (hb : b < st.blocks slice.sliceNo.toNat) : b ∈ slice.map := by
  have hsub : slice.map ⊆ Finset.range (st.blocks slice.sliceNo.toNat) := fun b hb =>
    Finset.mem_range.mpr (h.inside b hb)
  have hall : slice.map = Finset.range (st.blocks slice.sliceNo.toNat) := by
    apply Finset.eq_of_subset_of_card_le hsub
    rwa [Finset.card_range]
  rw [hall]
  exact Finset.mem_range.mpr hb

/-- In default mode no step forgets a block of the pool. -/
theorem Settled.keepsBlocks (hs : Settled st s) : KeepsBlocks s := by
  intro t ht
  obtain ⟨rest, ht⟩ : ∃ rest, s.tasks = t :: rest := by
    obtain ⟨rest, hcons⟩ := List.head?_eq_some_iff.mp (Option.mem_def.mp ht)
    exact ⟨rest, hcons⟩
  have hmem : t ∈ s.tasks := ht ▸ List.mem_cons_self
  cases t with
  | findSlice n =>
    intro hstreaming
    rw [hs.plain.notStreaming] at hstreaming
    cases hstreaming
  | fakeFound => cases hs.plain.noFake _ hmem
  | process msg =>
    cases msg with
    | fec stripes n blockNo bytes payload =>
      intro i hfound hstate htakes
      have hno := hs.window.stack.found _ _ _ ht hfound
      have htracked := hs.plain.tracked i (hno ▸ sliceNoOf_ne)
      obtain ⟨hknown, hblocks⟩ := htracked.complete (by simp [hstate])
      have hsends := hs.accounts.sends _ hmem
      unfold Slice.TakesFec at htakes
      split at htakes
      · rename_i hzero
        -- Without FEC blocks, all data blocks have arrived.
        have hcard := htracked.counted.blocks
        rw [hzero, Finset.range_zero, Finset.sum_empty, add_zero, hblocks] at hcard
        obtain ⟨j, hj⟩ := Finset.card_pos.mp htakes
        simp only [Finset.mem_filter, Finset.mem_range] at hj
        have hno : (s.slices i).sliceNo.toNat = n := by
          rw [hno]
          exact Int.toNat_natCast n
        have hbytes : bytes = st.size n := by cases hsends; rfl
        rw [hbytes, hs.accounts.blockSize] at hj
        refine hj.2.1 (htracked.counted.mem_of_card (by omega) ?_)
        rw [hno]
        exact hj.1
      · obtain ⟨hstripes, hlt, -⟩ := htakes
        have hpos : 0 < stripes := by
          rw [← hstripes]
          exact Nat.pos_of_ne_zero (by assumption)
        have hfull := htracked.full (by simp [hstate]) (k := blockNo % stripes)
          (by rw [hstripes]; exact Nat.mod_lt _ hpos)
        omega
    | _ => trivial
  | _ => trivial

/-- In default mode every block of the pool is always in one place. -/
theorem conserved_of_reachable (h : (system st defaultMode).Reachable s)
    (hrunning : s.failure = none) : Conserved s := by
  refine running_of_reachable (fun _ hs hrun => settled_of_reachable hs hrun)
    (fun _ => conserved_start) ?_ h hrunning
  intro s s' a hs hc _ hm
  cases hm with
  | @receive msg mem blocks hidle hend =>
    have htakes : (dispatch msg).head?.any Task.takesBlock = false := by cases msg <;> rfl
    refine { hc with
      free := { hc.free with taking := fun i rest htasks => ?_ }, pool := fun b => ?_ }
    · rw [show dispatch msg = .takeBlock i :: rest from htasks] at htakes
      cases htakes
    · have hspare : s.spare = [s.nextBlock] := spare_eq_next (by rw [hidle]; rfl)
      refine Eq.trans (pool_congr (s := s) ?_ ?_ ?_ ?_ b) (hc.pool b)
      · rfl
      · rfl
      · exact (spare_eq_next htakes).trans hspare.symm
      · exact fun _ _ => rfl
  | exitWait => exact { hc with free := { hc.free with } }
  | net ht hm => exact hc.netMoves hm ht hs.toRunning hs.accounts hs.keepsBlocks
  | fec hm => exact hc.fecMoves hm hs.toRunning
  | writer hm => cases hm <;> exact { hc with free := { hc.free with } }

/-- So a message that waits has its search before it, as long as the receiver runs. -/
theorem seeking_of_reachable (h : (system st defaultMode).Reachable s)
    (hrunning : s.failure = none) : Seeking s := by
  refine running_of_reachable (fun _ hs hrun => settled_of_reachable hs hrun) ?_
    (fun _ _ _ hs hseeking _ hm => hseeking.moves hs hm) h hrunning
  rintro s ⟨config, streaming, mem, blockData, -, -, ⟨-, rfl⟩, hstart⟩ msg hmem
  obtain ⟨_, _, _, -, -, -, rfl⟩ := start_eq hstart
  cases List.mem_singleton.mp hmem

end Udpcast.Receiver
