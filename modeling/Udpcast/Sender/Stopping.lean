import Udpcast.Sender.Cuts

/-!
# Stopping in time

In `makeSlice` the call `pc_consume(fifo->data, ..)` reads the amount that waits and then the end
mark, and `localReader` may go on in between. The two reads are steps of their own here. The
sender stops in time if the options leave it slices to send and no call finds the end mark
beside an amount that is out of date.
-/

namespace Udpcast.Sender

open Fec (Gf)
open Queue
open Protocol

/-- The sender with the amount that `pc_consume(fifo->data, ..)` has read, if that is less than
what was asked for and the end mark has not been read since. -/
structure Consuming where
  sender : State
  amount : Option ℕ

/-- A read of `pc_consume(fifo->data, ..)` in `makeSlice` for slot `i`. -/
def consumeStep (c : Consuming) (i : ℕ) : Consuming :=
  match c.amount with
  | none =>
    let n := pcGetWaiting c.sender.data
    if 10 * c.sender.config.blockSize ≤ n then { c with sender := c.sender.takeData i n }
    else { c with amount := some n }
  | some n =>
    -- without the end mark the call waits and reads the amount again
    { sender := if c.sender.data.atEnd then c.sender.takeData i n else c.sender, amount := none }

/-- The effect of an action; all other calls of queue functions are one step each. -/
def consumingAct (c : Consuming) (a : Action) : Option Consuming :=
  match a, c.sender.cutter with
  | .cutter, .consumeData i => if c.sender.failure = none then some (consumeStep c i) else none
  | a, _ => (act c.sender a).map fun s => { c with sender := s }

def consumingSystem : System Consuming :=
  .ofActions (fun c => system.Init c.sender ∧ c.amount = none) consumingAct

/-- When the end mark is found beside less than a block, nothing else is waiting. -/
def MarkInTime (c c' : Consuming) : Prop :=
  ∀ n ∈ c.amount, c'.amount = none → c.sender.data.atEnd = true →
    n < c.sender.config.blockSize → n = pcGetWaiting c.sender.data

instance (c c' : Consuming) : Decidable (MarkInTime c c') :=
  inferInstanceAs (Decidable (∀ n ∈ c.amount, _ → _ → _ → _))

/-- The settings with which nothing is lost: async mode is full-duplex, slices are not empty,
and the number of FEC blocks is an `int`. -/
structure Paced (s : State) : Prop where
  async_sn : 0 < s.inputSize → s.config.async = true → s.config.sn = true
  sliceSize_pos : 0 < s.inputSize → 0 < s.config.sliceSize
  sizes : SizesFrom (if s.inputSize = 0 then 0 else 1) s.config
  fecCount : s.config.fec = true → 0 ≤ s.config.fecStripes * s.config.fecRedundancy ∧
    s.config.fecStripes * s.config.fecRedundancy < 2 ^ 31

variable {s s' : State} {c c' c₀ : Consuming} {a : Action} {i n : ℕ}

section Refinement

/-- The call for a slice that waits for data. -/
theorem consumingAct_consume (hfail : s.failure = none) (hpc : s.cutter = .consumeData i)
    (amount : Option ℕ) :
    consumingAct ⟨s, amount⟩ .cutter = some (consumeStep ⟨s, amount⟩ i) := by
  simp only [consumingAct, hpc, hfail, if_true]

/-- Alone, the two reads do what `pcConsume` does. -/
theorem consuming_run_step (hact : act s a = some s') :
    consumingSystem.Run ⟨s, none⟩ ⟨s', none⟩ := by
  by_cases hconsume : a = .cutter ∧ ∃ i, s.cutter = .consumeData i
  · obtain ⟨rfl, i, hpc⟩ := hconsume
    obtain ⟨hfail, hstep⟩ := Option.ite_none_right_eq_some.mp hact
    have hread := consumingAct_consume hfail hpc
    simp only [cutterStep, hpc, Option.map_eq_some_iff] at hstep
    obtain ⟨n, hn, rfl⟩ := hstep
    obtain ⟨hwait, hn⟩ := Option.ite_none_right_eq_some.mp hn
    obtain rfl := Option.some.inj hn
    by_cases hmin : 10 * s.config.blockSize ≤ pcGetWaiting s.data
    · have htake : consumingAct ⟨s, none⟩ .cutter =
          some ⟨s.takeData i (pcGetWaiting s.data), none⟩ :=
        (hread none).trans (congrArg some (if_pos hmin))
      exact System.Run.single ⟨_, htake⟩
    · have hshort : consumingAct ⟨s, none⟩ .cutter = some ⟨s, some (pcGetWaiting s.data)⟩ :=
        (hread none).trans (congrArg some (if_neg hmin))
      have hend : s.data.atEnd = true := hwait.resolve_left hmin
      have hmark : consumingAct ⟨s, some (pcGetWaiting s.data)⟩ .cutter =
          some ⟨s.takeData i (pcGetWaiting s.data), none⟩ := by
        rw [hread, consumeStep]
        dsimp only
        rw [if_pos hend]
      have hread : consumingSystem.Run ⟨s, none⟩ ⟨s, some (pcGetWaiting s.data)⟩ :=
        System.Run.single ⟨_, hshort⟩
      exact hread.tail ⟨_, hmark⟩
  · refine System.Run.single ⟨a, ?_⟩
    unfold consumingAct
    split
    · rename_i i hpc
      exact absurd ⟨rfl, i, hpc⟩ hconsume
    · rw [hact]
      rfl

/-- Every run of the sender is one in which nothing comes between the two reads. -/
theorem consuming_run (h : system.Run s s') : consumingSystem.Run ⟨s, none⟩ ⟨s', none⟩ := by
  induction h with
  | refl => exact System.Run.refl _
  | tail _ hlast ih =>
    obtain ⟨a, hact⟩ := hlast
    exact ih.trans (consuming_run_step hact)

end Refinement

section Waiting

/-- The reader goes on in the input. -/
theorem readerStep_readTotal (hstep : readerStep s n = some s') : s.readTotal ≤ s'.readTotal := by
  cases hpc : s.reader with
  | wait =>
    simp only [readerStep, hpc, Option.map_eq_some_iff] at hstep
    obtain ⟨m, -, hs⟩ := hstep
    generalize (if (pcGetConsumerPosition s.freeMemQueue + m) % 4096 < m then
      m - (pcGetConsumerPosition s.freeMemQueue + m) % 4096 else m) = bytes at hs
    split at hs <;> subst hs <;> exact le_rfl
  | read pos bytes =>
    simp only [readerStep, hpc, Option.ite_none_right_eq_some, Option.some.injEq] at hstep
    obtain ⟨-, rfl⟩ := hstep
    exact le_rfl
  | commit bytes =>
    simp only [readerStep, hpc, Option.some.injEq] at hstep
    split at hstep <;> subst hstep <;> exact le_rfl
  | produce bytes =>
    simp only [readerStep, hpc, Option.some.injEq] at hstep
    split at hstep
    · subst hstep
      exact Nat.le_add_right _ _
    · subst hstep
      exact le_rfl
  | exited => simp [readerStep, hpc] at hstep

/-- While `makeSlice` waits, the other threads only add to what is waiting. -/
theorem act_waiting (hinv : Inv s) (hact : act s a = some s') (hne : a ≠ .cutter)
    (hpc : s.cutter = .consumeData i) :
    s'.cutter = .consumeData i ∧ pcGetWaiting s.data ≤ pcGetWaiting s'.data := by
  have hinv' := inv_act hinv hact
  obtain ⟨-, hstep⟩ := Option.ite_none_right_eq_some.mp hact
  cases a with
  | cutter => exact absurd rfl hne
  | reader m =>
    have hframe := readerStep_frame hstep
    have hcuts : s'.cuts = s.cuts := by rw [hframe]
    have hread := readerStep_readTotal hstep
    refine ⟨by rw [hframe]; exact hpc, ?_⟩
    rw [show pcGetWaiting s.data = s.readTotal - s.cuts.sum from hinv.ring.data.pcGetWaiting_eq,
      show pcGetWaiting s'.data = s'.readTotal - s'.cuts.sum from hinv'.ring.data.pcGetWaiting_eq,
      hcuts]
    omega
  | net =>
    have hdata : s'.data = s.data := by
      have henvironment := netStep_environment hstep
      simp only [State.environment, Prod.mk.injEq] at henvironment
      exact henvironment.2.2.1
    refine ⟨?_, by rw [hdata]⟩
    rcases netStep_keepsSizes hstep with hkeeps | ⟨hnew, hfec, -⟩
    · rw [hkeeps.cutter, hpc]
    · have hidle : s.cutter = .idle := (hinv.net.cutter_notFec hfec).mpr (by simp [hnew])
      rw [hpc] at hidle
      cases hidle
  | timeout =>
    obtain ⟨-, hs⟩ := Option.ite_none_right_eq_some.mp hstep
    obtain rfl := Option.some.inj hs
    exact ⟨hpc, le_rfl⟩
  | receive clNo msg =>
    rw [receiveStep_frame hstep]
    exact ⟨hpc, le_rfl⟩
  | announce =>
    rw [(announceStep_frame hstep).1]
    exact ⟨hpc, le_rfl⟩

/-- What is known between the two reads. -/
def AmountHolds (c : Consuming) : Prop :=
  ∀ n ∈ c.amount, (∃ i, c.sender.cutter = .consumeData i) ∧ n ≤ pcGetWaiting c.sender.data

/-- A step is one of the main model, a read, or the end of the call with what it has read. -/
theorem consumingAct_cases (hinv : Inv c.sender) (h : AmountHolds c) (hmark : MarkInTime c c')
    (hact : consumingAct c a = some c') :
    AmountHolds c' ∧ (c'.sender = c.sender ∨ act c.sender a = some c'.sender ∨
      ∃ i n, c.sender.failure = none ∧ c.sender.cutter = .consumeData i ∧ c.sender.CanTake n ∧
        c'.sender = c.sender.takeData i n) := by
  obtain ⟨s, amount⟩ := c
  by_cases hconsume : a = .cutter ∧ ∃ i, s.cutter = .consumeData i
  · obtain ⟨rfl, i, hpc⟩ := hconsume
    simp only [consumingAct, hpc, Option.ite_none_right_eq_some, Option.some.injEq] at hact
    obtain ⟨hfail, rfl⟩ := hact
    cases amount with
    | none =>
      simp only [consumeStep]
      split
      · rename_i hmin
        exact ⟨by simp [AmountHolds], .inr (.inr ⟨i, _, hfail, hpc, ⟨le_rfl, .inl (by omega)⟩, rfl⟩)⟩
      · refine ⟨fun n hn => ?_, .inl rfl⟩
        obtain rfl := Option.some.inj hn
        exact ⟨⟨i, hpc⟩, le_rfl⟩
    | some n =>
      have hle : n ≤ pcGetWaiting s.data := (h n rfl).2
      simp only [consumeStep]
      refine ⟨by simp [AmountHolds], ?_⟩
      split
      · rename_i hend
        refine .inr (.inr ⟨i, n, hfail, hpc, ⟨hle, ?_⟩, rfl⟩)
        rcases Nat.lt_or_ge n s.config.blockSize with hlt | hge
        · exact .inr ⟨hmark n rfl rfl hend hlt, hend⟩
        · exact .inl hge
      · exact .inl rfl
  · have hother : (act s a).map (fun s' => Consuming.mk s' amount) = some c' := by
      rw [← hact]
      unfold consumingAct
      split
      · rename_i i hpc
        exact absurd ⟨rfl, i, hpc⟩ hconsume
      · rfl
    obtain ⟨s', hs, rfl⟩ := Option.map_eq_some_iff.mp hother
    refine ⟨fun n hn => ?_, .inr (.inl hs)⟩
    obtain ⟨⟨i, hpc⟩, hle⟩ := h n hn
    obtain ⟨hpc', hle'⟩ := act_waiting hinv hs (fun ha => hconsume ⟨ha, i, hpc⟩) hpc
    exact ⟨⟨i, hpc'⟩, hle.trans hle'⟩

end Waiting

section Runs

/-- In the beginning a sender that is paced is on the way to the end. -/
theorem ending_start {config : NetConfig} {db : ParticipantsDb} {input : ℕ → Gf} {inputSize : ℕ}
    {mem : ℕ → Gf} {fecData : ℕ → ℕ → Fec.Block} (hpaced : Paced s)
    (hstart : start config db input inputSize mem fecData = some s) : Ending s ∧ AsyncAcked s := by
  have hcount := fecBlocks_eq_fecCount hpaced.fecCount
  have hfirst : 0 < s.inputSize → 0 < (initSliceSize s.config).sliceSize := fun hsome => by
    have hsizes := hpaced.sizes
    rw [if_neg (by omega)] at hsizes
    exact (initSliceSize_pos hsizes).1
  have hsize := hpaced.sliceSize_pos
  have hflags := hpaced.async_sn
  simp only [start, Option.bind_eq_some_iff, Option.map_eq_some_iff] at hstart
  obtain ⟨_, -, _, -, _, -, rfl⟩ := hstart
  refine ⟨?_, by simp [AsyncAcked]⟩
  exact {
    sliceSize_pos := hsize
    maxSliceSize_pos := by simp
    first := fun _ => hfirst
    async_sn := fun ha hsome => hflags hsome ha
    fecCount_eq := hcount
    empty := by simp
    making := by cases config.fec <;> simp
    atEnd := by simp
    going := by simp
    last := by simp
    wanted := by simp
    shift := by simp
    post := fun hn => hn.elim
    tested := by simp
    begun := by simp
    waiting := by simp
    exited := fun hn => by simp at hn }

/-- The sender never stops early if async mode is full-duplex, slices are not empty, timeouts
drop nobody who is ahead, and the end of the input is found when nothing else is left. -/
theorem stopsInTime_of_paced (hinit : consumingSystem.Init c₀) (hpaced : Paced c₀.sender)
    (hrun : (consumingSystem.restrict fun c c' => DropsNobodyAhead c.sender ∧ MarkInTime c c').Run
      c₀ c) : StopsInTime c.sender := by
  have hend : Inv c.sender ∧ Progress c.sender ∧ (Ending c.sender ∧ AsyncAcked c.sender) ∧
      AmountHolds c := by
    refine hrun.preserve (P := fun c => Inv c.sender ∧ Progress c.sender ∧
      (Ending c.sender ∧ AsyncAcked c.sender) ∧ AmountHolds c) ?_ ?_
    · rintro c c' ⟨hinv, hprog, ⟨h, hasync⟩, hamount⟩ ⟨⟨a, hact⟩, hdrop, hmark⟩
      obtain ⟨hamount', hsame | hstep | ⟨i, n, hfail, hpc, hn, htake⟩⟩ :=
        consumingAct_cases hinv hamount hmark hact
      · rw [hsame]
        exact ⟨hinv, hprog, ⟨h, hasync⟩, hamount'⟩
      · exact ⟨inv_act hinv hstep, progress_act hinv hprog hdrop hstep,
          ending_act hinv hprog h hasync hstep, hamount'⟩
      · rw [htake]
        exact ⟨inv_takeData hinv hfail hpc hn, progress_takeData hprog i n,
          ending_takeData hinv h hasync hpc hn, hamount'⟩
    · obtain ⟨⟨config, db, input, inputSize, mem, fecData, hconfig, hdb, hstart⟩, hnone⟩ := hinit
      exact ⟨inv_start hconfig hstart, progress_start hdb hstart, ending_start hpaced hstart,
        by simp [AmountHolds, hnone]⟩
  exact hend.2.2.1.1.exited

/-- The settings of the options `--max-bitrate`, `--async`, those in `mode`, and
`--blocksize 4`. -/
def asyncConfig (mode : List SenderOption) : NetConfig :=
  let c := (readOptions ([.maxBitrate, .async] ++ mode ++ [.blockSize 4])).getD .default
  (doTransfer (startSender c false) true).netConfig .doubling false

/-- The start of a transfer of 41 bytes in async mode. -/
def asyncStart (mode : List SenderOption) : Option State :=
  start (asyncConfig mode) ⟨0, ∅⟩ (fun _ => .ofNat 7) 41 (fun _ => .ofNat 0) fun _ _ _ => .ofNat 0

/-- The configuration is one that a command line leads to. -/
theorem asyncConfig_spec {m : List SenderOption}
    (hsome : (readOptions ([.maxBitrate, .async] ++ m ++ [.blockSize 4])).map
      Settings.blockSize = some 4) :
    CommandLine (asyncConfig m) ∧ ValidConfig (asyncConfig m) := by
  obtain ⟨c, hread, hblock⟩ := Option.map_eq_some_iff.mp hsome
  have hconfig : asyncConfig m =
      (doTransfer (startSender c false) true).netConfig .doubling false := by
    rw [asyncConfig, hread]
    rfl
  rw [hconfig]
  refine ⟨⟨_, false, true, .doubling, false, by rw [hread]; rfl⟩, ?_⟩
  have hsize : ((doTransfer (startSender c false) true).netConfig .doubling false).blockSize = 4 := by
    have hkeep : (startSender c false).blockSize = c.blockSize := by
      unfold startSender
      split <;> rfl
    change (startSender c false).blockSize.toNat = 4
    rw [hkeep, hblock]
    rfl
  exact ⟨by omega, by omega⟩

/-- With `--async` alone 41 bytes are sent in slices of 40, 1 and 0 bytes. -/
theorem stopsInTime_of_paced_async : ∃ c, consumingSystem.Reachable c ∧ c.sender.net = .exited ∧
    c.sender.cuts = [40, 1, 0] ∧ StopsInTime c.sender := by
  have hrun : ((asyncStart []).bind fun s => (System.perform
      (System.guarded consumingAct fun c c' => DropsNobodyAhead c.sender ∧ MarkInTime c c') ⟨s, none⟩
        ([0, 41, 0, 0, 0, 0, 0].map .reader ++
          List.replicate 8 .net ++ List.replicate 4 .cutter ++
          List.replicate 21 .net ++ List.replicate 5 .cutter ++
          List.replicate 14 .net ++ List.replicate 5 .cutter ++ List.replicate 15 .net)).map
            fun c => (c.sender.net, c.sender.cuts)) = some (.exited, [40, 1, 0]) := by
    decide +kernel
  obtain ⟨s₀, hstart, hs⟩ := Option.bind_eq_some_iff.mp hrun
  obtain ⟨c, hperform, hlast⟩ := Option.map_eq_some_iff.mp hs
  obtain ⟨hnet, hcuts⟩ := Prod.mk.inj hlast
  have hconfig := asyncConfig_spec (m := []) (by decide)
  have hinit : consumingSystem.Init ⟨s₀, none⟩ :=
    ⟨⟨_, _, _, _, _, _, hconfig.2, ⟨rfl, by simp⟩, hstart⟩, rfl⟩
  have hpaced : Paced s₀ := by
    simp only [asyncStart, start, Option.bind_eq_some_iff, Option.map_eq_some_iff] at hstart
    obtain ⟨_, -, _, -, _, -, rfl⟩ := hstart
    have hsizes : 0 < (asyncConfig []).sliceSize ∧ 1 ≤ (asyncConfig []).maxSliceSize ∧
        (asyncConfig []).fec = false := by decide
    obtain ⟨hsize, hmax, hfec⟩ := hsizes
    exact {
      async_sn := fun _ _ => rfl
      sliceSize_pos := fun _ => hsize
      sizes := ⟨by exact_mod_cast hmax, by simp [hfec], by simp [hfec], by simp [hfec]⟩
      fecCount := by simp [hfec] }
  have hguarded : (consumingSystem.restrict fun c c' =>
      DropsNobodyAhead c.sender ∧ MarkInTime c c').Run ⟨s₀, none⟩ c :=
    System.restrict_run_of_perform hperform
  exact ⟨c, ⟨⟨s₀, none⟩, hinit, System.restrict_run hguarded⟩, hnet, hcuts,
    stopsInTime_of_paced hinit hpaced hguarded⟩

/-- With `--async --half-duplex` the sender stops after the first slice of the 41 bytes. -/
theorem not_stopsInTime : ¬ ∀ c₀ c, consumingSystem.Init c₀ → CommandLine c₀.sender.config →
    consumingSystem.Run c₀ c → StopsInTime c.sender := by
  intro hclaim
  have hrun : ((asyncStart [.halfDuplex]).bind fun s => (System.perform act s
      ([0, 41, 0, 0].map .reader ++
        List.replicate 8 .net ++ List.replicate 4 .cutter ++ List.replicate 23 .net)).map
          fun s => (s.net, s.cuts, s.config.async)) = some (.exited, [40], true) := by
    decide +kernel
  obtain ⟨s₀, hstart, hs⟩ := Option.bind_eq_some_iff.mp hrun
  obtain ⟨s, hperform, hlast⟩ := Option.map_eq_some_iff.mp hs
  obtain ⟨hnet, hlast⟩ := Prod.mk.inj hlast
  obtain ⟨hcuts, hasync⟩ := Prod.mk.inj hlast
  have hconfig := asyncConfig_spec (m := [.halfDuplex]) (by decide)
  have hinit : consumingSystem.Init ⟨s₀, none⟩ :=
    ⟨⟨_, _, _, _, _, _, hconfig.2, ⟨rfl, by simp⟩, hstart⟩, rfl⟩
  have hline : CommandLine s₀.config := by
    simp only [asyncStart, start, Option.bind_eq_some_iff, Option.map_eq_some_iff] at hstart
    obtain ⟨_, -, _, -, _, -, rfl⟩ := hstart
    exact hconfig.1
  have hwhole := consuming_run (System.run_of_perform hperform)
  rcases hclaim ⟨s₀, none⟩ ⟨s, none⟩ hinit hline hwhole hnet with hnobody | hdone
  · simp [hasync] at hnobody
  · obtain ⟨n, hn, hempty, -⟩ := hdone
    rw [hcuts] at hn hempty
    obtain rfl : n = 0 := by simpa using hn
    simp at hempty

end Runs

end Udpcast.Sender
