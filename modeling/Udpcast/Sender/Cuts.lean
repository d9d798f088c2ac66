import Udpcast.Sender.Ending

/-!
# Slices partition the input

What the successive calls of `makeSlice` return, for any slice sizes that are in force
when they cut. The sizes are kept beside the sender, which may change its slice size at
any time.
-/

namespace Udpcast.Sender

open Queue
open Protocol

/-- The sender with the slice sizes that were in force at the cuts so far. -/
structure Cutting where
  sender : State
  sizes : List ℕ

/-- An action of the sender, or any change of the slice size. -/
inductive CutAction
  | sender (a : Action)
  | resize (n : ℕ)

/-- The sizes after an action: `makeSlice` reads `sliceSize` when the data is there. -/
def noteSize (c : Cutting) (a : Action) : List ℕ :=
  match a, c.sender.cutter with
  | .cutter, .consumeData _ => c.sizes ++ [c.sender.config.sliceSize]
  | _, _ => c.sizes

def cutAct (c : Cutting) : CutAction → Option Cutting
  | .sender a => (act c.sender a).map fun s => ⟨s, noteSize c a⟩
  | .resize n =>
    some ⟨{ c.sender with config := { c.sender.config with sliceSize := n } }, c.sizes⟩

/-- The sender with changes of the slice size, before the first cut. -/
def cuttingSystem : System Cutting :=
  .ofActions (fun c => system.Init c.sender ∧ c.sizes = []) cutAct

/-- A slice of `bytes` bytes is whole blocks or part of one, and fits into `size` blocks. -/
def CutFits (blockSize bytes size : ℕ) : Prop :=
  (blockSize ∣ bytes ∨ bytes < blockSize) ∧ bytes ≤ blockSize * size

/-- The sizes of the slices against the slice sizes. -/
structure CutsFit (c : Cutting) : Prop where
  length_eq : c.sizes.length = c.sender.cuts.length + c.sender.cutter.numbered
  fits : ∀ j < c.sender.cuts.length,
    CutFits c.sender.config.blockSize (c.sender.cuts.getD j 0) (c.sizes.getD j 0)
  pending : ∀ i, c.sender.cutter = .consumedData i →
    CutFits c.sender.config.blockSize (c.sender.slices i).bytes
      (c.sizes.getD c.sender.cuts.length 0) ∧
    ((c.sender.slices i).bytes = 0 → c.sender.cuts.sum = c.sender.inputSize)
  empty : ∀ j < c.sender.cuts.length, c.sender.cuts.getD j 0 = 0 →
    startOf c.sender.cuts j = c.sender.inputSize

variable {s s' : State} {c : Cutting}

section Frame

/-- The step leaves the sizes of the slices and the cutter alone. -/
structure KeepsSizes (s s' : State) : Prop where
  blockSize : s'.config.blockSize = s.config.blockSize
  bytes : ∀ k, (s'.slices k).bytes = (s.slices k).bytes
  cutter : s'.cutter = s.cutter

/-- Doing nothing keeps the sizes. -/
theorem KeepsSizes.rfl : KeepsSizes s s := ⟨Eq.refl _, fun _ => Eq.refl _, Eq.refl _⟩

/-- Notes on a slice keep them. -/
theorem keepsSizes_setSlice {i : ℕ} {x : Slice} {t : State} (h : KeepsSizes s t)
    (hbytes : x.bytes = (s.slices i).bytes) : KeepsSizes s (t.setSlice i x) := by
  refine ⟨h.blockSize, fun k => ?_, h.cutter⟩
  change (Function.update t.slices i x k).bytes = _
  rcases eq_or_ne k i with rfl | hne
  · rw [Function.update_self, hbytes]
  · rw [Function.update_of_ne hne]
    exact h.bytes k

/-- Another slice size keeps them. -/
theorem keepsSizes_config {config : NetConfig} (hsame : SameMode s.config config) :
    KeepsSizes s { s with config := config } :=
  ⟨by rw [hsame], fun _ => rfl, rfl⟩

/-- An acknowledgement keeps them. -/
theorem keepsSizes_ackSlice (r : ℕ) : KeepsSizes s (ackSlice s r) := by
  unfold ackSlice
  dsimp only
  split
  · exact .rfl
  · have hconfig := keepsSizes_config (sameMode_growSliceSize s.config)
    split
    · have hslot := keepsSizes_setSlice (i := r) (x := { s.slices r with state := .acked })
        hconfig rfl
      exact { hslot with }
    · have hslot := keepsSizes_setSlice (i := r) (x := { s.slices r with state := .acked })
        hconfig rfl
      exact { hslot with }

/-- A REQACK keeps them. -/
theorem keepsSizes_sendReqack (r : ℕ) : KeepsSizes s (sendReqack s r) := by
  unfold sendReqack
  dsimp only
  split
  · exact keepsSizes_ackSlice r
  · split
    · exact .rfl
    · have hconfig := keepsSizes_config (sameMode_shrinkSliceSize s.config (s.slices r))
      have hslot := keepsSizes_setSlice (i := r) (x := startRound (s.slices r)) hconfig rfl
      exact { hslot with }

/-- A new round keeps them. -/
theorem keepsSizes_round {net : NetPc} (r : ℕ) (rxmitId : ℕ) :
    KeepsSizes s (sendReqack ({ s with net := net }.setSlice r
      { s.slices r with rxmitId := rxmitId }) r) := by
  have hslot := keepsSizes_setSlice (s := s) (t := { s with net := net }) (i := r)
    (x := { s.slices r with rxmitId := rxmitId }) ⟨rfl, fun _ => rfl, rfl⟩ rfl
  have hsent := keepsSizes_sendReqack (s := { s with net := net }.setSlice r
    { s.slices r with rxmitId := rxmitId }) r
  exact ⟨hsent.blockSize.trans hslot.blockSize, fun k => (hsent.bytes k).trans (hslot.bytes k),
    hsent.cutter.trans hslot.cutter⟩

/-- A message keeps them. -/
theorem keepsSizes_handleMessage (clNo : ℕ) (msg : ClientMsg) :
    KeepsSizes s (handleMessage s clNo msg) := by
  obtain ⟨slices, db, heq, hring⟩ := handleMessage_frame (s := s) clNo msg
  rw [heq] at hring ⊢
  refine ⟨rfl, fun k => ?_, rfl⟩
  have hcore : (slices k).core = (s.slices k).core := congrFun (congrArg RingView.slices hring) k
  exact congrArg SliceCore.bytes hcore

/-- The end of a slice keeps them. -/
theorem keepsSizes_finishSending (x i : ℕ) : KeepsSizes s (finishSending s x i) := by
  unfold finishSending
  dsimp only
  refine keepsSizes_setSlice (t := { s with net := .loopTest }) ⟨rfl, fun _ => rfl, rfl⟩ ?_
  split <;> rfl

/-- `netSenderMain` outside `makeSlice` changes no size of a slice. -/
theorem netStep_keepsSizes (hstep : netStep s = some s') :
    KeepsSizes s s' ∨ s.net = .newSlice ∧ s.config.fec = false ∧
      s' = { s with net := .making, cutter := .consumeSlot } := by
  rcases eq_or_ne s.net .newSlice with hpc | hnew
  · simp only [netStep, hpc, Option.some.injEq] at hstep
    subst hstep
    split
    · split
      · exact .inl ⟨rfl, fun _ => rfl, rfl⟩
      · rename_i hfec
        exact .inr ⟨hpc, Bool.eq_false_iff.mpr hfec, rfl⟩
    · exact .inl ⟨rfl, fun _ => rfl, rfl⟩
  refine .inl ?_
  cases hpc : s.net with
  | making | exited => simp [netStep, hpc] at hstep
  | takeFec =>
    simp only [netStep, hpc, Option.map_eq_some_iff] at hstep
    obtain ⟨n, -, rfl⟩ := hstep
    exact ⟨rfl, fun _ => rfl, rfl⟩
  | wait =>
    simp only [netStep, hpc, Option.ite_none_left_eq_some, Option.some.injEq] at hstep
    obtain ⟨-, rfl⟩ := hstep
    exact ⟨rfl, fun _ => rfl, rfl⟩
  | init =>
    obtain ⟨failure, rfl, -⟩ := netStep_init hpc hstep
    exact { keepsSizes_config (s := s) (sameMode_initSliceSize s.config) with }
  | newSlice => exact absurd hpc hnew
  | messageDone | messageFree | checkEnd | loopTest | send | exitTest =>
    simp only [netStep, hpc, Option.some.injEq] at hstep
    subst hstep
    repeat' split
    all_goals exact ⟨rfl, fun _ => rfl, rfl⟩
  | cleanupFree =>
    simp only [netStep, hpc, Option.some.injEq] at hstep
    subst hstep
    split
    · split
      · exact keepsSizes_setSlice (t := { s with net := .freeLoop }) ⟨rfl, fun _ => rfl, rfl⟩ rfl
      · exact ⟨rfl, fun _ => rfl, rfl⟩
    · exact ⟨rfl, fun _ => rfl, rfl⟩
  | freeLoop =>
    simp only [netStep, hpc, Option.some.injEq] at hstep
    subst hstep
    split
    · have hslot := keepsSizes_setSlice (s := s) (i := pcGetProducerPosition s.freeSlicesPc)
        (x := { s.slices (pcGetProducerPosition s.freeSlicesPc) with state := .free }) .rfl rfl
      split <;> exact { hslot with }
    · exact ⟨rfl, fun _ => rfl, rfl⟩
  | cleanupAck =>
    simp only [netStep, hpc, Option.some.injEq] at hstep
    subst hstep
    split
    · rename_i r _
      split
      · have hacked := keepsSizes_ackSlice (s := { s with net := .cleanupFree }) r
        exact { hacked with }
      · exact ⟨rfl, fun _ => rfl, rfl⟩
    · exact ⟨rfl, fun _ => rfl, rfl⟩
  | shift =>
    simp only [netStep, hpc, Option.some.injEq] at hstep
    subst hstep
    split
    · rename_i x _ _
      split
      · have hsent := keepsSizes_sendReqack
          (s := { s with net := .messages, rexmitSlice := some x, xmitSlice := none }) x
        exact { hsent with }
      · exact ⟨rfl, fun _ => rfl, rfl⟩
    · exact ⟨rfl, fun _ => rfl, rfl⟩
  | messages =>
    simp only [netStep, hpc, Option.some.injEq] at hstep
    subst hstep
    split
    · exact ⟨rfl, fun _ => rfl, rfl⟩
    · rename_i clNo msg rest _
      have hhandled := keepsSizes_handleMessage (s := { s with net := .messageDone }) clNo msg
      exact { hhandled with }
  | retransmit =>
    simp only [netStep, hpc, Option.some.injEq] at hstep
    subst hstep
    split
    · split
      · unfold doRetransmissions
        dsimp only
        split
        · exact ⟨rfl, fun _ => rfl, rfl⟩
        · split
          · rename_i slice ms hsend
            exact keepsSizes_setSlice (t := { s with net := .loopTest, network := ms ++ s.network })
              ⟨rfl, fun _ => rfl, rfl⟩ (by rw [sendSliceAgain_frame hsend])
          · exact ⟨rfl, fun _ => rfl, rfl⟩
      · exact ⟨rfl, fun _ => rfl, rfl⟩
    · exact ⟨rfl, fun _ => rfl, rfl⟩
  | reqack =>
    simp only [netStep, hpc, Option.some.injEq] at hstep
    subst hstep
    split
    · split
      · exact keepsSizes_round _ _
      · exact ⟨rfl, fun _ => rfl, rfl⟩
    · exact ⟨rfl, fun _ => rfl, rfl⟩
  | sending i =>
    simp only [netStep, hpc, Option.some.injEq] at hstep
    subst hstep
    split
    · rename_i x _
      unfold sendingStep
      dsimp only
      split
      · split
        · rename_i ms _
          split
          · exact ⟨rfl, fun _ => rfl, rfl⟩
          · have hend := keepsSizes_finishSending (s := { s with network := ms ++ s.network }) x (i + 1)
            exact { hend with }
        · exact ⟨rfl, fun _ => rfl, rfl⟩
      · exact keepsSizes_finishSending _ _
    · exact ⟨rfl, fun _ => rfl, rfl⟩
  | timeout =>
    simp only [netStep, hpc, Option.some.injEq] at hstep
    subst hstep
    split
    · rename_i r _
      split
      · obtain ⟨db, exit⟩ := dropClients s.db (s.slices r)
        dsimp only
        split <;> exact ⟨rfl, fun _ => rfl, rfl⟩
      · exact keepsSizes_round _ _
    · exact ⟨rfl, fun _ => rfl, rfl⟩

end Frame

section Steps

/-- What `makeSlice` takes is within the size in force, and all whole blocks or less than one. -/
theorem sliceBytes_fits {config : NetConfig} {n : ℕ} :
    CutFits config.blockSize (sliceBytes config n) config.sliceSize := by
  have hmod : ∀ m, config.blockSize ∣ m - m % config.blockSize := fun m => Nat.dvd_sub_mod m
  unfold sliceBytes CutFits
  dsimp only
  split
  · split
    · exact ⟨.inl (hmod _), Nat.sub_le _ _⟩
    · exact ⟨.inl (Nat.dvd_mul_right _ _), le_rfl⟩
  · split
    · exact ⟨.inl (hmod _), by omega⟩
    · rename_i hsize hblock
      refine ⟨?_, by omega⟩
      rcases eq_or_ne n config.blockSize with rfl | hne
      · exact .inl (dvd_refl _)
      · exact .inr (by omega)

/-- Steps that keep the sizes keep the cuts. -/
theorem cutsFit_keeps {received : List ℕ} (h : CutsFit ⟨s, received⟩) (hkeeps : KeepsSizes s s')
    (hcuts : s'.cuts = s.cuts) (hinput : s'.inputSize = s.inputSize) : CutsFit ⟨s', received⟩ where
  length_eq := by
    dsimp only
    rw [hcuts, hkeeps.cutter]
    exact h.length_eq
  fits := by
    dsimp only
    rw [hcuts, hkeeps.blockSize]
    exact h.fits
  pending := fun i hi => by
    dsimp only at hi ⊢
    rw [hkeeps.cutter] at hi
    rw [hcuts, hkeeps.blockSize, hkeeps.bytes, hinput]
    exact h.pending i hi
  empty := by
    dsimp only
    rw [hcuts, hinput]
    exact h.empty

/-- The last cut is the one just made. -/
theorem getD_append_last {l : List ℕ} {a : ℕ} : (l ++ [a]).getD l.length 0 = a := by simp

/-- `makeSlice` cuts within the sizes that have been in force. -/
theorem cutsFit_cutterStep (hinv : Inv c.sender) (h : CutsFit c)
    (hsizes : ∀ n ∈ noteSize c .cutter, 1 ≤ n) (hstep : cutterStep c.sender = some s') :
    CutsFit ⟨s', noteSize c .cutter⟩ := by
  have hring := hinv.ring
  have hlength := h.length_eq
  cases hpc : c.sender.cutter with
  | idle => simp [cutterStep, hpc] at hstep
  | consumeSlot =>
    simp only [cutterStep, hpc, Option.map_eq_some_iff] at hstep
    obtain ⟨n, -, rfl⟩ := hstep
    rw [hpc] at hlength
    simp only [noteSize, hpc]
    exact { h with length_eq := hlength, pending := by simp }
  | consumedSlot =>
    rw [hpc] at hlength
    simp only [noteSize, hpc]
    simp only [cutterStep, hpc] at hstep
    split at hstep
    · obtain rfl := Option.some.inj hstep
      exact { h with length_eq := hlength, pending := by simp [State.setSlice] }
    · obtain rfl := Option.some.inj hstep
      exact { h with length_eq := by simpa [State.fail, hpc] using hlength }
  | consumeData i =>
    rw [hpc] at hlength
    simp only [noteSize, hpc] at hsizes ⊢
    simp only [cutterStep, hpc, Option.map_eq_some_iff] at hstep
    obtain ⟨n, hn, rfl⟩ := hstep
    have hpos : 1 ≤ c.sender.config.sliceSize := hsizes _ (by simp)
    have hlength' : c.sizes.length = c.sender.cuts.length := hlength
    exact { h with
      length_eq := by
        change (c.sizes ++ [_]).length = c.sender.cuts.length + 1
        rw [List.length_append, List.length_singleton, hlength']
      fits := fun j hj => by
        have hj' : j < c.sizes.length := hlength'.symm ▸ hj
        change CutFits c.sender.config.blockSize (c.sender.cuts.getD j 0)
          ((c.sizes ++ [_]).getD j 0)
        rw [List.getD_append _ _ _ _ hj']
        exact h.fits j hj
      pending := fun k hk => by
        obtain rfl := CutterPc.consumedData.inj hk
        change CutFits c.sender.config.blockSize (Function.update c.sender.slices i _ i).bytes
          ((c.sizes ++ [_]).getD c.sender.cuts.length 0) ∧ (_ → c.sender.cuts.sum = _)
        rw [Function.update_self, ← hlength', getD_append_last]
        exact ⟨sliceBytes_fits, fun hzero =>
          sum_eq_of_sliceBytes hinv (fun _ => hpos) (canTake_of_pcConsume hn)
            (by simpa [State.setSlice] using hzero)⟩ }
  | consumedData i =>
    rw [hpc] at hlength
    obtain ⟨hfits, hzero⟩ := h.pending i hpc
    have hgetD : ∀ j < c.sender.cuts.length,
        (c.sender.cuts ++ [(c.sender.slices i).bytes]).getD j 0 = c.sender.cuts.getD j 0 :=
      fun j hj => List.getD_append _ _ _ _ hj
    have hfits' : ∀ j < (c.sender.cuts ++ [(c.sender.slices i).bytes]).length,
        CutFits c.sender.config.blockSize
          ((c.sender.cuts ++ [(c.sender.slices i).bytes]).getD j 0) (c.sizes.getD j 0) := by
      intro j hj
      rw [List.length_append, List.length_singleton] at hj
      rcases Nat.lt_succ_iff_lt_or_eq.mp hj with hold | rfl
      · rw [hgetD j hold]
        exact h.fits j hold
      · rw [getD_append_last]
        exact hfits
    have hempty : ∀ j < (c.sender.cuts ++ [(c.sender.slices i).bytes]).length,
        (c.sender.cuts ++ [(c.sender.slices i).bytes]).getD j 0 = 0 →
        startOf (c.sender.cuts ++ [(c.sender.slices i).bytes]) j = c.sender.inputSize := by
      intro j hj hj0
      rw [List.length_append, List.length_singleton] at hj
      rw [startOf_append (by omega)]
      rcases Nat.lt_succ_iff_lt_or_eq.mp hj with hold | rfl
      · rw [hgetD j hold] at hj0
        exact h.empty j hold hj0
      · rw [startOf_length]
        rw [getD_append_last] at hj0
        exact hzero hj0
    have hlength' : c.sizes.length = (c.sender.cuts ++ [(c.sender.slices i).bytes]).length := by
      rw [List.length_append, List.length_singleton, hlength]
      rfl
    simp only [noteSize, hpc]
    simp only [cutterStep, hpc, Option.some.injEq] at hstep
    split at hstep
    · subst hstep
      exact ⟨hlength', hfits', by simp, hempty⟩
    · subst hstep
      exact ⟨hlength', hfits', by simp, hempty⟩
  | encode i =>
    rw [hpc] at hlength
    simp only [noteSize, hpc]
    simp only [cutterStep, hpc, Option.some.injEq] at hstep
    subst hstep
    split
    · exact { h with length_eq := hlength, pending := by simp [State.setSlice] }
    · exact { h with length_eq := hlength, pending := by simp [State.fail] }
  | produceFec =>
    rw [hpc] at hlength
    simp only [noteSize, hpc]
    simp only [cutterStep, hpc, Option.some.injEq] at hstep
    subst hstep
    split
    · exact { h with length_eq := hlength, pending := by simp }
    · exact { h with length_eq := by simpa [State.fail, hpc] using hlength }

/-- Every step does. -/
theorem cutsFit_act {a : Action} (hinv : Inv c.sender) (h : CutsFit c)
    (hsizes : ∀ n ∈ noteSize c a, 1 ≤ n) (hact : act c.sender a = some s') :
    CutsFit ⟨s', noteSize c a⟩ := by
  simp only [act, Option.ite_none_right_eq_some] at hact
  obtain ⟨-, hact⟩ := hact
  cases a with
  | cutter => exact cutsFit_cutterStep hinv h hsizes hact
  | reader n =>
    have hframe := readerStep_frame hact
    exact cutsFit_keeps (s := c.sender) h ⟨by rw [hframe], by rw [hframe]; exact fun _ => rfl,
      by rw [hframe]⟩ (by rw [hframe]) (by rw [hframe])
  | net =>
    have henvironment := netStep_environment hact
    simp only [State.environment, Prod.mk.injEq] at henvironment
    obtain ⟨-, -, -, -, hinput, -, -, -, -, hcuts⟩ := henvironment
    rcases netStep_keepsSizes hact with hkeeps | ⟨hpc, hfec, rfl⟩
    · exact cutsFit_keeps (s := c.sender) h hkeeps hcuts hinput
    · have hidle : c.sender.cutter = .idle := (hinv.net.cutter_notFec hfec).mpr (by simp [hpc])
      have hlength := h.length_eq
      rw [hidle] at hlength
      exact { h with length_eq := hlength, pending := by simp }
  | timeout =>
    obtain ⟨-, hs⟩ := Option.ite_none_right_eq_some.mp hact
    obtain rfl := Option.some.inj hs
    exact { h with }
  | receive clNo msg =>
    cases hpc : c.sender.returnChannel with
    | produce _ _ => simp [receiveStep, hpc] at hact
    | receive =>
      simp only [receiveStep, hpc, Option.ite_none_right_eq_some, Option.map_eq_some_iff] at hact
      obtain ⟨-, n, -, rfl⟩ := hact
      exact { h with }
  | announce =>
    cases hpc : c.sender.returnChannel with
    | receive => simp [announceStep, hpc] at hact
    | produce clNo msg =>
      simp only [announceStep, hpc, Option.some.injEq] at hact
      subst hact
      split <;> exact { h with }

/-- A size that has been in force is not forgotten. -/
theorem noteSize_subset {a : Action} {n : ℕ} (hn : n ∈ c.sizes) : n ∈ noteSize c a := by
  unfold noteSize
  split
  · exact List.mem_append_left _ hn
  · exact hn

/-- So at any time the cuts fit the sizes that have been in force. -/
theorem cutting_reachable (h : cuttingSystem.Reachable c) :
    Inv c.sender ∧ ((∀ n ∈ c.sizes, 1 ≤ n) → CutsFit c) := by
  refine h.invariant (P := fun c => Inv c.sender ∧ ((∀ n ∈ c.sizes, 1 ≤ n) → CutsFit c)) ?_ ?_
  · rintro ⟨s, sizes⟩ ⟨⟨config, db, input, inputSize, mem, fecData, hconfig, -, hstart⟩, rfl⟩
    refine ⟨inv_start hconfig hstart, fun _ => ?_⟩
    simp only [start, Option.bind_eq_some_iff, Option.map_eq_some_iff] at hstart
    obtain ⟨_, -, _, -, _, -, rfl⟩ := hstart
    exact ⟨by cases config.fec <;> rfl, by simp, by cases config.fec <;> simp, by simp⟩
  · rintro c c' ⟨hinv, hfit⟩ ⟨a, hact⟩
    cases a with
    | sender a =>
      obtain ⟨s, hs, rfl⟩ := Option.map_eq_some_iff.mp hact
      exact ⟨inv_act hinv hs, fun hsizes =>
        cutsFit_act hinv (hfit fun n hn => hsizes n (noteSize_subset hn)) hsizes hs⟩
    | resize n =>
      obtain rfl := Option.some.inj hact
      refine ⟨⟨?_, ?_, { hinv.ret with }, hinv.noOverflow⟩, fun hsizes => { hfit hsizes with }⟩
      · exact hinv.ring
      · exact hinv.net

end Steps

section Partition

/-- A block of an aligned slice does not wrap around the end of the ring. -/
theorem block_le_size {blockSize size a k : ℕ} (hsize : blockSize ∣ size)
    (ha : blockSize ∣ a) (hpos : 0 < size) : (a + k * blockSize) % size + blockSize ≤ size := by
  obtain ⟨m, rfl⟩ := hsize
  obtain ⟨q, rfl⟩ := ha
  rw [Nat.mul_comm k, ← Nat.mul_add, Nat.mul_mod_mul_left, ← Nat.mul_succ]
  have hm : 0 < m := Nat.pos_of_mul_pos_left hpos
  exact Nat.mul_le_mul_left _ (Nat.mod_lt _ hm)

/-- Only the end of the input is not at a block of the ring. -/
theorem Inv.sum_eq_of_not_dvd (h : Inv s) (hnot : ¬ s.config.blockSize ∣ s.cuts.sum) :
    s.cuts.sum = s.inputSize := by
  obtain ⟨hread, hend⟩ := h.ring.aligned_cut.resolve_left hnot
  obtain ⟨hexit, hinput⟩ := h.ring.ended hend
  have hreader := h.ring.reader
  simp only [RingView.ReaderInv, hexit] at hreader
  have hpos : s.inputPos = s.readTotal := hreader.2
  have hread' : s.cuts.sum = s.readTotal := hread
  have hinput' : s.inputPos = s.inputSize := hinput
  omega

end Partition

end Udpcast.Sender
