import Udpcast.Sender.Cuts

/-!
# The slice size against its bounds

In half-duplex mode without FEC the slice size is chosen by `netSenderMain`, grows in
`ackSlice` and shrinks in `sendReqack`. `min_slice_size` is read from the command line but
not by any of them, and the shrinking has a floor of its own.
-/

namespace Udpcast.Sender

open Queue
open Protocol

/-- The settings with which a command line starts a transfer. -/
def CommandSettings (c : Settings) : Prop :=
  ∃ options isFullDuplex newGen,
    (readOptions options).map (fun c => doTransfer (startSender c isFullDuplex) newGen) = some c

/-- The slot for which the next step of `netSenderMain` calls `sendReqack`, and the number of
the round. -/
def State.reqackCall (s : State) : Option (ℕ × ℕ) :=
  match s.net with
  | .shift =>
    if s.rexmitSlice = none then
      (s.xmitSlice.filter fun x => (s.slices x).state = .xmitted).map fun x =>
        (x, (s.slices x).rxmitId)
    else none
  | .reqack =>
    (s.rexmitSlice.filter fun r => (s.slices r).nrAnswered = s.db.nrParticipants).map fun r =>
      (r, (s.slices r).rxmitId + 1)
  | .timeout =>
    (s.rexmitSlice.filter fun r => ¬ s.config.retriesUntilDrop < (s.slices r).rxmitId).map fun r =>
      (r, (s.slices r).rxmitId + 1)
  | _ => none

/-- `sendReqack` finds that blocks were lost early in the slice. -/
def LossSeen (config : NetConfig) (slice : Slice) (rxmitId : ℕ) : Prop :=
  config.async = false ∧ rxmitId ≠ 0 ∧ slice.lastGoodBlock ≠ 0 ∧
    slice.lastGoodBlock < getSliceBlocks slice config

/-- The next step does not leave the bounds: the first slice size is not below `min`, and a
shrinking one does not fall below it, nor is it raised by its floor above the maximum. -/
def SizeFits (min : ℕ) (s : State) : Prop :=
  (s.net = .init → s.config.defaultSliceSize = 0 → min ≤ if s.config.async then 1024 else 130) ∧
    ∀ call ∈ s.reqackCall, LossSeen s.config (s.slices call.1) call.2 →
      32 ≤ s.config.maxSliceSize ∧ (min ≤ 32 ∨ min ≤ s.config.sliceSize / 2 ∨
        min ≤ (s.slices call.1).lastGoodBlock)

instance (config : NetConfig) (slice : Slice) (rxmitId : ℕ) :
    Decidable (LossSeen config slice rxmitId) :=
  inferInstanceAs (Decidable (_ ∧ _))

instance (min : ℕ) (s : State) : Decidable (SizeFits min s) := inferInstanceAs (Decidable (_ ∧ _))

/-- The slice size is within its bounds. -/
def Within (min max : ℕ) (config : NetConfig) : Prop :=
  min ≤ config.sliceSize ∧ config.sliceSize ≤ max

instance (min max : ℕ) (config : NetConfig) : Decidable (Within min max config) :=
  inferInstanceAs (Decidable (_ ∧ _))

variable {config : NetConfig} {s s' : State} {low high : ℕ}

section Changes

/-- The defaults that the command line accepts are within the bounds. -/
theorem adjustSliceSizes_default (c : Settings) (h : (adjustSliceSizes c).defaultSliceSize ≠ 0) :
    (adjustSliceSizes c).minSliceSize ≤ (adjustSliceSizes c).defaultSliceSize ∧
      (adjustSliceSizes c).defaultSliceSize ≤ (adjustSliceSizes c).maxSliceSize := by
  unfold adjustSliceSizes at h ⊢
  dsimp only at h ⊢
  split_ifs at h ⊢ <;> omega

/-- The first size is within the bounds exactly when 130, or 1024 in async mode, is not too small;
a size given by the user always is. -/
theorem within_initSliceSize_iff (hfec : config.fec = false) (hsn : config.sn = false)
    (hle : low ≤ config.maxSliceSize)
    (hdefault : config.defaultSliceSize ≠ 0 → low ≤ config.defaultSliceSize) :
    Within low config.maxSliceSize (initSliceSize config) ↔
      (config.defaultSliceSize = 0 → low ≤ if config.async then 1024 else 130) := by
  have hmax : limitedMaxSliceSize config = config.maxSliceSize := by
    rw [limitedMaxSliceSize, if_neg (by simp [hfec])]
  have hchosen : chosenSliceSize config = firstSliceSize config := by
    rw [chosenSliceSize, if_neg (by simp [hfec])]
  unfold Within initSliceSize limitedSliceSize
  rw [hmax, hchosen]
  dsimp only
  by_cases hzero : config.defaultSliceSize = 0
  · have hfirst : firstSliceSize config = if config.async then 1024 else 130 := by
      simp [firstSliceSize, hzero, hfec, hsn]
    rw [hfirst]
    cases config.async <;> simp [hzero] <;> split <;> omega
  · have hlow := hdefault hzero
    rw [firstSliceSize, if_neg hzero]
    simp only [hzero, false_implies, iff_true]
    split <;> omega

/-- Growing stops at the maximum. -/
theorem within_growSliceSize (h : Within low config.maxSliceSize config) :
    Within low config.maxSliceSize (growSliceSize config) := by
  obtain ⟨hlow, hhigh⟩ := h
  unfold Within growSliceSize
  dsimp only
  split
  · split
    · exact ⟨hlow.trans hhigh, le_rfl⟩
    · exact ⟨by dsimp only; omega, by dsimp only; omega⟩
  · exact ⟨hlow, hhigh⟩

/-- When shrinking keeps the slice size within the bounds. -/
theorem within_shrinkSliceSize_iff {slice : Slice} (h : Within low config.maxSliceSize config)
    (hsn : config.sn = false) (hasync : config.async = false)
    (hblocks : getSliceBlocks slice config ≤ config.maxSliceSize) :
    Within low config.maxSliceSize (shrinkSliceSize config slice) ↔
      (LossSeen config slice slice.rxmitId →
        32 ≤ config.maxSliceSize ∧ (low ≤ 32 ∨ low ≤ config.sliceSize / 2 ∨
          low ≤ slice.lastGoodBlock)) := by
  obtain ⟨hlow, hhigh⟩ := h
  unfold LossSeen Within shrinkSliceSize
  dsimp only
  split
  · rename_i hloss
    obtain ⟨-, hid, hgood, hlt⟩ := hloss
    simp only [hasync, ne_eq, hid, hgood, hlt, not_false_eq_true, and_self, true_implies]
    split <;> split <;> omega
  · rename_i hloss
    refine iff_of_true ⟨hlow, hhigh⟩ fun h => absurd ⟨hsn, h.2⟩ hloss

end Changes

section Steps

/-- What a step may do to the configuration. -/
inductive ConfigStep (s : State) : NetConfig → Prop
  | keep : ConfigStep s s.config
  | init : s.net = .init → ConfigStep s (initSliceSize s.config)
  | grow : ConfigStep s (growSliceSize s.config)
  | shrink {r rxmitId : ℕ} : (r, rxmitId) ∈ s.reqackCall →
      ¬ (s.config.async = true ∧ (s.slices r).bytes ≠ 0) →
      ConfigStep s (shrinkSliceSize s.config { s.slices r with rxmitId := rxmitId })

/-- An acknowledgement may let the slices grow. -/
theorem ackSlice_config (r : ℕ) :
    (ackSlice s r).config = s.config ∨ (ackSlice s r).config = growSliceSize s.config := by
  unfold ackSlice
  dsimp only
  split
  · exact .inl rfl
  · split <;> exact .inr rfl

/-- A REQACK may let the slices shrink, when it is the next call. -/
theorem sendReqack_config {r rxmitId : ℕ} (hconfig : s'.config = s.config)
    (hslice : s'.slices r = { s.slices r with rxmitId := rxmitId })
    (hcall : (r, rxmitId) ∈ s.reqackCall) : ConfigStep s (sendReqack s' r).config := by
  unfold sendReqack
  simp only [hslice, hconfig]
  split
  · rcases ackSlice_config (s := s') r with hsame | hgrow
    · rw [hsame, hconfig]
      exact .keep
    · rw [hgrow, hconfig]
      exact .grow
  · rename_i hasync
    split
    · rw [hconfig]
      exact .keep
    · exact .shrink hcall hasync

/-- A block that is sent does not change the configuration. -/
theorem sendingStep_config (x i : ℕ) : (sendingStep s x i).config = s.config := by
  unfold sendingStep
  dsimp only
  split
  · split
    · split <;> rfl
    · rfl
  · rfl

/-- Nor does a round of retransmissions. -/
theorem doRetransmissions_config (r : ℕ) : (doRetransmissions s r).config = s.config := by
  unfold doRetransmissions
  dsimp only
  split
  · rfl
  · split <;> rfl

/-- So a step does one of these things. -/
theorem netStep_config (hstep : netStep s = some s') : ConfigStep s s'.config := by
  cases hpc : s.net with
  | making | exited => simp [netStep, hpc] at hstep
  | takeFec =>
    simp only [netStep, hpc, Option.map_eq_some_iff] at hstep
    obtain ⟨n, -, rfl⟩ := hstep
    exact .keep
  | wait =>
    simp only [netStep, hpc, Option.ite_none_left_eq_some, Option.some.injEq] at hstep
    obtain ⟨-, rfl⟩ := hstep
    exact .keep
  | init =>
    obtain ⟨failure, rfl, -⟩ := netStep_init hpc hstep
    exact .init hpc
  | cleanupFree | freeLoop | messageDone | messageFree | newSlice | checkEnd | send | exitTest |
      loopTest =>
    simp only [netStep, hpc, Option.some.injEq] at hstep
    subst hstep
    repeat' split
    all_goals exact .keep
  | cleanupAck =>
    simp only [netStep, hpc, Option.some.injEq] at hstep
    subst hstep
    split
    · rename_i r _
      split
      · rcases ackSlice_config (s := { s with net := .cleanupFree }) r with hsame | hgrow
        · rw [hsame]
          exact .keep
        · rw [hgrow]
          exact .grow
      · exact .keep
    · exact .keep
  | messages =>
    simp only [netStep, hpc, Option.some.injEq] at hstep
    subst hstep
    split
    · exact .keep
    · rename_i clNo msg _ _
      obtain ⟨slices, db, heq, -⟩ :=
        handleMessage_frame (s := { s with net := .messageDone }) clNo msg
      rw [heq]
      exact .keep
  | retransmit =>
    simp only [netStep, hpc, Option.some.injEq] at hstep
    subst hstep
    split
    · split
      · rw [doRetransmissions_config]
        exact .keep
      · exact .keep
    · exact .keep
  | sending i =>
    simp only [netStep, hpc, Option.some.injEq] at hstep
    subst hstep
    split
    · rw [sendingStep_config]
      exact .keep
    · exact .keep
  | shift =>
    simp only [netStep, hpc, Option.some.injEq] at hstep
    subst hstep
    split
    · rename_i x hr hx
      split
      · rename_i hstate
        exact sendReqack_config rfl rfl (by simp [State.reqackCall, hpc, hr, hx, hstate])
      · exact .keep
    · exact .keep
  | reqack =>
    simp only [netStep, hpc, Option.some.injEq] at hstep
    subst hstep
    split
    · rename_i r hr
      split
      · rename_i hanswered
        have hcall : (r, (s.slices r).rxmitId + 1) ∈ s.reqackCall := by
          simp [State.reqackCall, hpc, hr, hanswered]
        exact sendReqack_config rfl (by simp [State.setSlice]) hcall
      · exact .keep
    · exact .keep
  | timeout =>
    simp only [netStep, hpc, Option.some.injEq] at hstep
    subst hstep
    split
    · rename_i r hr
      split
      · obtain ⟨db, exit⟩ := dropClients s.db (s.slices r)
        dsimp only
        split <;> exact .keep
      · rename_i hlate
        have hcall : (r, (s.slices r).rxmitId + 1) ∈ s.reqackCall := by
          simpa [State.reqackCall, hpc, hr] using hlate
        exact sendReqack_config rfl (by simp [State.setSlice]) hcall
    · exact .keep

/-- The slice size, once it is chosen, and the slices against the bounds. -/
structure SizeInv (low high : ℕ) (s : State) : Prop where
  fec : s.config.fec = false
  sn : s.config.sn = false
  maxSliceSize : s.config.maxSliceSize = high
  low_le : low ≤ high
  default : s.config.defaultSliceSize ≠ 0 → low ≤ s.config.defaultSliceSize
  within : s.net ≠ .init → Within low high s.config
  bytes : ∀ i, (s.slices i).bytes ≤ s.config.blockSize * high

/-- None of them changes more than the slice sizes. -/
theorem ConfigStep.sameMode (h : ConfigStep s config) : SameMode s.config config := by
  cases h with
  | keep => rfl
  | init => exact sameMode_initSliceSize _
  | grow => exact sameMode_growSliceSize _
  | shrink => exact sameMode_shrinkSliceSize _ _

/-- Without FEC the maximum stays. -/
theorem ConfigStep.maxSliceSize (h : ConfigStep s config) (hfec : s.config.fec = false) :
    config.maxSliceSize = s.config.maxSliceSize := by
  cases h with
  | keep => rfl
  | init =>
    show (limitedMaxSliceSize s.config).toNat = s.config.maxSliceSize
    rw [limitedMaxSliceSize, if_neg (by simp [hfec]), Int.toNat_natCast]
  | grow =>
    unfold growSliceSize
    dsimp only
    split
    · split <;> rfl
    · rfl
  | shrink =>
    unfold shrinkSliceSize
    dsimp only
    split <;> rfl

/-- A slice of no more than `n` blocks. -/
theorem getSliceBlocks_le {slice : Slice} {n : ℕ} (hpos : 0 < config.blockSize)
    (h : slice.bytes ≤ config.blockSize * n) : getSliceBlocks slice config ≤ n := by
  unfold getSliceBlocks
  rw [Nat.div_le_iff_le_mul_add_pred hpos]
  omega

/-- Every change of the slice size stays within the bounds if `SizeFits` allows it. -/
theorem ConfigStep.within (hinv : Inv s) (h : SizeInv low high s) (hfit : SizeFits low s)
    (hstep : ConfigStep s config) (hchosen : s.net = .init → config = initSliceSize s.config) :
    Within low high config := by
  obtain ⟨hfirst, hshrink⟩ := hfit
  by_cases hnet : s.net = .init
  · rw [hchosen hnet]
    have hiff := within_initSliceSize_iff h.fec h.sn (by rw [h.maxSliceSize]; exact h.low_le) h.default
    rw [h.maxSliceSize] at hiff
    exact hiff.mpr (hfirst hnet)
  have hwithin := h.within hnet
  rw [← h.maxSliceSize] at hwithin ⊢
  cases hstep with
  | keep => exact hwithin
  | init hpc => exact absurd hpc hnet
  | grow => exact within_growSliceSize hwithin
  | @shrink r rxmitId hcall hsent =>
    have hblocks : getSliceBlocks { s.slices r with rxmitId := rxmitId } s.config ≤
        s.config.maxSliceSize :=
      getSliceBlocks_le hinv.ring.blockSize_pos (by rw [h.maxSliceSize]; exact h.bytes r)
    cases hasync : s.config.async with
    | false =>
      exact (within_shrinkSliceSize_iff hwithin h.sn hasync hblocks).mpr (hshrink _ hcall)
    | true =>
      have hempty : (s.slices r).bytes = 0 := by
        by_contra hne
        exact hsent ⟨hasync, hne⟩
      have hnone : getSliceBlocks { s.slices r with rxmitId := rxmitId } s.config = 0 := by
        have hbs : 0 < s.config.blockSize := hinv.ring.blockSize_pos
        rw [getSliceBlocks, hempty]
        exact Nat.div_eq_of_lt (by omega)
      rw [shrinkSliceSize, if_neg (by rw [hnone]; omega)]
      exact hwithin

/-- A step that fits keeps the bounds. -/
theorem sizeInv_act {a : Action} (hinv : Inv s) (h : SizeInv low high s) (hfit : SizeFits low s)
    (hact : act s a = some s') : SizeInv low high s' := by
  simp only [act, Option.ite_none_right_eq_some] at hact
  obtain ⟨-, hact⟩ := hact
  cases a with
  | reader n =>
    rw [readerStep_frame hact]
    exact { h with }
  | timeout =>
    obtain ⟨hwait, hs⟩ := Option.ite_none_right_eq_some.mp hact
    obtain rfl := Option.some.inj hs
    exact { h with within := fun _ => h.within (by simp [hwait.1]) }
  | receive clNo msg =>
    cases hpc : s.returnChannel with
    | produce _ _ => simp [receiveStep, hpc] at hact
    | receive =>
      simp only [receiveStep, hpc, Option.ite_none_right_eq_some, Option.map_eq_some_iff] at hact
      obtain ⟨-, n, -, rfl⟩ := hact
      exact { h with }
  | announce =>
    cases hpc : s.returnChannel with
    | receive => simp [announceStep, hpc] at hact
    | produce clNo msg =>
      simp only [announceStep, hpc, Option.some.injEq] at hact
      subst hact
      split <;> exact { h with }
  | net =>
    have hstep : netStep s = some s' := hact
    have hconfig := netStep_config hstep
    have hsame := hconfig.sameMode
    have hbytes : ∀ i, (s'.slices i).bytes = (s.slices i).bytes := by
      rcases netStep_keepsSizes hstep with hsizes | ⟨-, -, rfl⟩
      · exact hsizes.bytes
      · exact fun _ => rfl
    have hchosen : s.net = .init → s'.config = initSliceSize s.config := fun hpc => by
      obtain ⟨failure, rfl, -⟩ := netStep_init hpc hstep
      rfl
    have hdefault : s'.config.defaultSliceSize = s.config.defaultSliceSize := by rw [hsame]
    have hblock : s'.config.blockSize = s.config.blockSize := by rw [hsame]
    exact ⟨by rw [hsame]; exact h.fec, by rw [hsame]; exact h.sn,
      (hconfig.maxSliceSize h.fec).trans h.maxSliceSize, h.low_le,
      by rw [hdefault]; exact h.default, fun _ => hconfig.within hinv h hfit hchosen,
      fun i => by rw [hbytes, hblock]; exact h.bytes i⟩
  | cutter =>
    have hslot : ∀ i slice, slice.bytes ≤ s.config.blockSize * high →
        ∀ k, (Function.update s.slices i slice k).bytes ≤ s.config.blockSize * high := by
      intro i slice hslice k
      rcases eq_or_ne k i with rfl | hne
      · rw [Function.update_self]
        exact hslice
      · rw [Function.update_of_ne hne]
        exact h.bytes k
    have hact : cutterStep s = some s' := hact
    have hmaking : s.cutter ≠ .idle → s.net = .making := fun hpc => by
      by_contra hne
      exact hpc ((hinv.net.cutter_notFec h.fec).mpr hne)
    cases hpc : s.cutter with
    | idle => simp [cutterStep, hpc] at hact
    | consumeSlot =>
      simp only [cutterStep, hpc, Option.map_eq_some_iff] at hact
      obtain ⟨n, -, rfl⟩ := hact
      exact { h with }
    | consumedSlot =>
      simp only [cutterStep, hpc] at hact
      split at hact
      · obtain rfl := Option.some.inj hact
        exact { h with bytes := hslot _ _ (Nat.zero_le _) }
      · obtain rfl := Option.some.inj hact
        exact { h with }
    | consumeData i =>
      simp only [cutterStep, hpc, Option.map_eq_some_iff] at hact
      obtain ⟨n, -, rfl⟩ := hact
      have hwithin := h.within (by rw [hmaking (by simp [hpc])]; simp)
      exact { h with
        bytes := hslot _ _ ((sliceBytes_fits (n := n)).2.trans (Nat.mul_le_mul_left _ hwithin.2)) }
    | consumedData i =>
      have hbytes := hslot i { s.slices i with state := .new } (h.bytes i)
      have hwithin := h.within (by rw [hmaking (by simp [hpc])]; simp)
      simp only [cutterStep, hpc, Option.some.injEq] at hact
      subst hact
      split
      · exact { h with bytes := hbytes }
      · exact { h with bytes := hbytes, within := fun _ => hwithin }
    | encode i =>
      simp only [cutterStep, hpc, Option.some.injEq] at hact
      subst hact
      split
      · rename_i fecData _
        exact { h with bytes := hslot i { s.slices i with fecData := fecData } (h.bytes i) }
      · exact { h with }
    | produceFec =>
      simp only [cutterStep, hpc, Option.some.injEq] at hact
      subst hact
      split <;> exact { h with }

/-- The thread that cuts slices leaves the configuration alone, -/
theorem cutterStep_config (hstep : cutterStep s = some s') : s'.config = s.config := by
  cases hpc : s.cutter with
  | idle => simp [cutterStep, hpc] at hstep
  | consumeSlot | consumeData i =>
    simp only [cutterStep, hpc, Option.map_eq_some_iff] at hstep
    obtain ⟨n, -, rfl⟩ := hstep
    rfl
  | consumedSlot =>
    simp only [cutterStep, hpc] at hstep
    split at hstep <;> obtain rfl := Option.some.inj hstep <;> rfl
  | consumedData i | encode i | produceFec =>
    simp only [cutterStep, hpc, Option.some.injEq] at hstep
    subst hstep
    split <;> rfl

/-- and so do all other actions but those of `netSenderMain`. -/
theorem act_config {a : Action} (hact : act s a = some s') : ConfigStep s s'.config := by
  simp only [act, Option.ite_none_right_eq_some] at hact
  obtain ⟨-, hact⟩ := hact
  cases a with
  | reader n =>
    rw [readerStep_frame hact]
    exact .keep
  | cutter =>
    rw [cutterStep_config hact]
    exact .keep
  | net => exact netStep_config hact
  | timeout =>
    obtain ⟨-, hs⟩ := Option.ite_none_right_eq_some.mp hact
    obtain rfl := Option.some.inj hs
    exact .keep
  | receive clNo msg =>
    rw [receiveStep_frame hact]
    exact .keep
  | announce =>
    rw [(announceStep_frame hact).1]
    exact .keep

end Steps

section Runs

variable {s₀ : State} {c : Settings} {discovery : Discovery} {bigEndian : Bool}

/-- No option sets a bound above 1024. -/
theorem readOption_slice_sizes {c c' : Settings} {o : SenderOption} (hread : readOption c o = some c')
    (h : c.minSliceSize ≤ 1024 ∧ c.maxSliceSize ≤ 1024) :
    c'.minSliceSize ≤ 1024 ∧ c'.maxSliceSize ≤ 1024 := by
  cases o with
  | minSliceSize n =>
    obtain ⟨hle, hsome⟩ := Option.ite_none_left_eq_some.mp hread
    obtain rfl := Option.some.inj hsome
    have hmax : (Protocol.maxSliceSize : ℤ) = 1024 := rfl
    exact ⟨by dsimp only; omega, h.2⟩
  | maxSliceSize n =>
    obtain ⟨hle, hsome⟩ := Option.ite_none_left_eq_some.mp hread
    obtain rfl := Option.some.inj hsome
    have hmax : (Protocol.maxSliceSize : ℤ) = 1024 := rfl
    exact ⟨h.1, by dsimp only; omega⟩
  | blockSize n =>
    simp only [readOption, Option.ite_none_left_eq_some, Option.some.injEq] at hread
    obtain ⟨-, rfl⟩ := hread
    exact h
  | _ =>
    obtain rfl := Option.some.inj hread
    exact h

/-- The bounds that a command line leads to. -/
structure Settings.Bounds (c : Settings) : Prop where
  min_pos : 1 ≤ c.minSliceSize
  min_le : c.minSliceSize ≤ c.maxSliceSize
  max_le : c.maxSliceSize ≤ 1024
  default : c.defaultSliceSize ≠ 0 →
    c.minSliceSize ≤ c.defaultSliceSize ∧ c.defaultSliceSize ≤ c.maxSliceSize

/-- So every command line leads to such bounds. -/
theorem CommandSettings.bounds (h : CommandSettings c) : c.Bounds := by
  obtain ⟨options, isFullDuplex, newGen, hc⟩ := h
  obtain ⟨c₁, hread, rfl⟩ := Option.map_eq_some_iff.mp hc
  obtain ⟨c₀, hfold, hrest⟩ := Option.bind_eq_some_iff.mp hread
  obtain ⟨-, hsome⟩ := Option.ite_none_left_eq_some.mp hrest
  obtain rfl := Option.some.inj hsome
  have hloop : ∀ (options : List SenderOption) (c c' : Settings),
      c.minSliceSize ≤ 1024 ∧ c.maxSliceSize ≤ 1024 → options.foldlM readOption c = some c' →
      c'.minSliceSize ≤ 1024 ∧ c'.maxSliceSize ≤ 1024 := by
    intro options
    induction options with
    | nil =>
      intro c c' hc hfold
      obtain rfl := Option.some.inj hfold
      exact hc
    | cons o options ih =>
      intro c c' hc hfold
      obtain ⟨mid, hmid, hlast⟩ := Option.bind_eq_some_iff.mp hfold
      exact ih mid c' (readOption_slice_sizes hmid hc) hlast
  have hsizes := hloop options _ c₀ (by decide) hfold
  have hmax : (adjustSliceSizes c₀).maxSliceSize ≤ 1024 := by
    unfold adjustSliceSizes
    dsimp only
    split_ifs <;> omega
  have hbounds : (adjustSliceSizes c₀).Bounds :=
    ⟨(adjustSliceSizes_spec c₀).1, (adjustSliceSizes_spec c₀).2, hmax, adjustSliceSizes_default c₀⟩
  have hstart : ∀ c : Settings, c.Bounds → (startSender c isFullDuplex).Bounds := fun c hc => by
    unfold startSender
    split
    · exact { hc with }
    · exact hc
  have htransfer : ∀ c : Settings, c.Bounds → (doTransfer c newGen).Bounds := fun c hc => by
    unfold doTransfer
    split
    · exact hc
    · exact { hc with }
  exact htransfer _ (hstart _ hbounds)

/-- The slice size stays between `min_slice_size` and `max_slice_size` from the end of the
initialisation on, in every run of a half-duplex sender without FEC whose steps the condition
allows. -/
theorem within_of_sizeFits (hc : CommandSettings c) (hsn : c.sn = false) (hfec : c.fec = false)
    (hinit : system.Init s₀) (hconfig : s₀.config = c.netConfig discovery bigEndian)
    (hrun : (system.restrict fun s _ => SizeFits c.minSliceSize.toNat s).Run s₀ s)
    (hnet : s.net ≠ .init) :
    (c.minSliceSize ≤ s.config.sliceSize ∧ s.config.sliceSize ≤ c.maxSliceSize) := by
  have hbounds := hc.bounds
  have hstart : Inv s₀ ∧ SizeInv c.minSliceSize.toNat c.maxSliceSize.toNat s₀ := by
    obtain ⟨config, db, input, inputSize, mem, fecData, hvalid, -, hs₀⟩ := hinit
    refine ⟨inv_start hvalid hs₀, ?_⟩
    simp only [start, Option.bind_eq_some_iff, Option.map_eq_some_iff] at hs₀
    obtain ⟨_, -, _, -, _, -, rfl⟩ := hs₀
    obtain rfl : config = c.netConfig discovery bigEndian := hconfig
    refine ⟨hfec, hsn, rfl, Int.toNat_le_toNat hbounds.min_le, fun hdefault => ?_,
      fun hne => absurd rfl hne, fun _ => Nat.zero_le _⟩
    have hne : c.defaultSliceSize ≠ 0 := fun hzero => hdefault (by
      simp [Settings.netConfig, hzero])
    exact Int.toNat_le_toNat (hbounds.default hne).1
  have hlast : Inv s ∧ SizeInv c.minSliceSize.toNat c.maxSliceSize.toNat s := by
    refine hrun.preserve (P := fun s => Inv s ∧ SizeInv c.minSliceSize.toNat c.maxSliceSize.toNat s)
      ?_ hstart
    rintro s s' ⟨hinv, hsize⟩ ⟨⟨a, hact⟩, hfit⟩
    exact ⟨inv_act hinv hact, sizeInv_act hinv hsize hfit hact⟩
  obtain ⟨hlow, hhigh⟩ := hlast.2.within hnet
  have hmin := hbounds.min_pos
  have hmax := hbounds.min_le
  omega

/-- The settings of the options `--half-duplex`, those in `sizes`, and `--blocksize 4`. -/
def halfDuplexSettings (sizes : List SenderOption) : Settings :=
  doTransfer (startSender
    ((readOptions ([.halfDuplex] ++ sizes ++ [.blockSize 4])).getD .default) false) true

/-- The start of a transfer of 8 bytes to one receiver. -/
def halfDuplexStart (sizes : List SenderOption) : Option State :=
  start ((halfDuplexSettings sizes).netConfig .doubling false) ⟨1, {0}⟩ (fun _ => .ofNat 7) 8
    (fun _ => .ofNat 0) fun _ _ _ => .ofNat 0

/-- The settings are those of a command line. -/
theorem halfDuplexSettings_spec {l : List SenderOption}
    (hread : (readOptions ([.halfDuplex] ++ l ++ [.blockSize 4])).isSome = true) :
    CommandSettings (halfDuplexSettings l) := by
  obtain ⟨c, hc⟩ := Option.isSome_iff_exists.mp hread
  refine ⟨[.halfDuplex] ++ l ++ [.blockSize 4], false, true, ?_⟩
  rw [halfDuplexSettings, hc]
  rfl

/-- The transfer starts with these settings. -/
theorem halfDuplexStart_spec {l : List SenderOption} (hstart : halfDuplexStart l = some s₀)
    (hvalid : ValidConfig ((halfDuplexSettings l).netConfig .doubling false)) :
    system.Init s₀ ∧ s₀.config = (halfDuplexSettings l).netConfig .doubling false := by
  refine ⟨⟨_, _, _, _, _, _, hvalid, ⟨rfl, by decide⟩, hstart⟩, ?_⟩
  simp only [halfDuplexStart, start, Option.bind_eq_some_iff, Option.map_eq_some_iff] at hstart
  obtain ⟨_, -, _, -, _, -, rfl⟩ := hstart
  rfl

/-- With the default bounds the loss of the first of two blocks halves the slice size of 130. -/
theorem within_of_sizeFits_halved : ∃ s, system.Reachable s ∧ s.config.sliceSize = 65 ∧
    ((16 : ℤ) ≤ s.config.sliceSize ∧ (s.config.sliceSize : ℤ) ≤ 1024) := by
  have hrun : ((halfDuplexStart []).bind fun s => System.perform
      (System.guarded act fun s _ => SizeFits (halfDuplexSettings []).minSliceSize.toNat s) s
        ([0, 8, 0, 0, 0, 0, 0].map Action.reader ++ List.replicate 8 .net ++
          List.replicate 4 .cutter ++ List.replicate 9 .net ++
          [.receive 0 (.retransmit 0 0 fun i => i = 1), .announce] ++
          List.replicate 16 .net)).any fun s => s.config.sliceSize = 65 ∧ s.net ≠ .init := by
    decide +kernel
  obtain ⟨s, hs, hlast⟩ := (Option.any_eq_true _ _).mp hrun
  obtain ⟨s₀, hstart, hperform⟩ := Option.bind_eq_some_iff.mp hs
  obtain ⟨hsize, hnet⟩ := of_decide_eq_true hlast
  obtain ⟨hinit, hconfig⟩ := halfDuplexStart_spec hstart ⟨by decide, by decide⟩
  have hguarded : (system.restrict fun s _ =>
      SizeFits (halfDuplexSettings []).minSliceSize.toNat s).Run s₀ s :=
    System.restrict_run_of_perform hperform
  exact ⟨s, ⟨s₀, hinit, System.restrict_run hguarded⟩, hsize,
    within_of_sizeFits (halfDuplexSettings_spec (by decide)) (by decide) (by decide) hinit hconfig
      hguarded hnet⟩

/-- With `--min-slice-size 200` the first slice size is 130. -/
theorem not_within : ¬ ∀ c s₀ s discovery bigEndian, CommandSettings c → c.sn = false →
    c.fec = false → system.Init s₀ → s₀.config = c.netConfig discovery bigEndian →
    system.Run s₀ s → s.net ≠ .init →
    c.minSliceSize ≤ s.config.sliceSize ∧ s.config.sliceSize ≤ c.maxSliceSize := by
  intro hclaim
  have hrun : ((halfDuplexStart [.minSliceSize 200]).bind fun s => System.perform act s [.net]).any
      fun s => s.config.sliceSize = 130 ∧ s.net ≠ .init := by
    decide +kernel
  obtain ⟨s, hs, hlast⟩ := (Option.any_eq_true _ _).mp hrun
  obtain ⟨s₀, hstart, hperform⟩ := Option.bind_eq_some_iff.mp hs
  obtain ⟨hsize, hnet⟩ := of_decide_eq_true hlast
  obtain ⟨hinit, hconfig⟩ := halfDuplexStart_spec hstart ⟨by decide, by decide⟩
  have hwithin := hclaim _ s₀ s _ _ (halfDuplexSettings_spec (by decide)) (by decide) (by decide)
    hinit hconfig (System.run_of_perform hperform) hnet
  have hmin : (halfDuplexSettings [.minSliceSize 200]).minSliceSize = 200 := by decide
  omega

end Runs

end Udpcast.Sender
