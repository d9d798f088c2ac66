import Udpcast.Sender.SliceSize

/-!
# Start-up in FEC mode

`fecMain` is started before `netSenderMain` and reads the slice size while the latter still
chooses it. Each read and write of the slice size and of its maximum is a step here, as are
the two reads in `makeSlice`.
-/

namespace Udpcast.Sender

open Fec (Gf Block)
open Queue
open Protocol

/-- Where `netSenderMain` stands before its loop. -/
inductive StartPc
  /-- Before the first slice size is written. -/
  | choose
  /-- Before the default slice size is compared with 128 blocks a stripe. -/
  | testStripes
  | limitStripes
  /-- Before the maximum is compared with 128 blocks a stripe. -/
  | testMax
  | limitMax
  /-- Before the two reads of `config->sliceSize > config->max_slice_size`. -/
  | readSize
  | readMax (sliceSize : ℕ)
  /-- Before the maximum is read and written to the slice size. -/
  | readLimit
  | limitSize (maxSliceSize : ℕ)
  /-- Before the assertion. -/
  | check
  | running
  deriving DecidableEq

/-- Where `makeSlice` stands with the number of bytes of a slice. -/
inductive SizePc
  /-- Before `pc_consume(fifo->data, ..)`. -/
  | consume
  /-- Before the number is compared with the slice size. -/
  | compare (bytes : ℕ)
  /-- Before the slice size is read again. -/
  | limit
  deriving DecidableEq

/-- The sender with what `netSenderMain` and `makeSlice` do between two queue functions. -/
structure Startup where
  sender : State
  start : StartPc
  size : SizePc
  /-- A size has become negative. What follows from that is not modelled. -/
  negative : Bool

def State.setSliceSize (s : State) (n : ℕ) : State :=
  { s with config := { s.config with sliceSize := n } }

/-- The state `t'` after the size `n` has been computed in `t`. -/
def Startup.withSize (t : Startup) (n : ℤ) (t' : Startup) : Startup :=
  if n < 0 then { t with negative := true } else t'

/-- A step of `netSenderMain` before its loop. -/
def startStep (t : Startup) : Option Startup :=
  let s := t.sender
  let config := s.config
  match t.start with
  | .choose =>
    let s' := s.setSliceSize (firstSliceSize config).toNat
    some (t.withSize (firstSliceSize config) (
      if config.defaultSliceSize = 0 then
        { t with
          sender := { s' with config := { s'.config with discovery := .doubling } }
          start := .testMax }
      else { t with sender := s', start := .testStripes }))
  | .testStripes =>
    some { t with
      start := if config.fec = true ∧ stripeLimit config < config.sliceSize then .limitStripes
        else .testMax }
  | .limitStripes =>
    some (t.withSize (stripeLimit config)
      { t with sender := s.setSliceSize (stripeLimit config).toNat, start := .testMax })
  | .testMax =>
    some { t with
      start := if config.fec = true ∧ stripeLimit config < config.maxSliceSize then .limitMax
        else .readSize }
  | .limitMax =>
    some (t.withSize (stripeLimit config)
      { t with
        sender := { s with config := { config with maxSliceSize := (stripeLimit config).toNat } }
        start := .readSize })
  | .readSize => some { t with start := .readMax config.sliceSize }
  | .readMax sliceSize =>
    some { t with start := if config.maxSliceSize < sliceSize then .readLimit else .check }
  | .readLimit => some { t with start := .limitSize config.maxSliceSize }
  | .limitSize maxSliceSize =>
    some { t with sender := s.setSliceSize maxSliceSize, start := .check }
  | .check =>
    let s' := { s with net := .cleanupAck }
    some { t with
      sender := if config.sliceSize ≤ Protocol.maxSliceSize then s' else s'.fail .assertion
      start := .running }
  | .running => none

/-- `makeSlice` goes on with `bytes` bytes for slot `i`. -/
def State.cut (s : State) (i bytes : ℕ) : State :=
  { s with sliceNo := s.sliceNo + 1, cutter := .consumedData i }.setSlice i
    { s.slices i with
      base := pcGetConsumerPosition s.data
      sliceNo := s.sliceNo
      bytes := if s.config.blockSize < bytes then bytes - bytes % s.config.blockSize else bytes }

/-- `config->blockSize * config->sliceSize`. -/
def sizeBytes (config : NetConfig) : ℤ := toInt (config.blockSize * config.sliceSize)

/-- A step of `makeSlice` on the way to the size of the slice in slot `i`. -/
def sizeStep (t : Startup) (i : ℕ) : Option Startup :=
  let s := t.sender
  match t.size with
  | .consume =>
    (pcConsume s.data (10 * s.config.blockSize)).map fun bytes => { t with size := .compare bytes }
  | .compare bytes =>
    some (if sizeBytes s.config < bytes then { t with size := .limit }
      else { t with sender := s.cut i bytes, size := .consume })
  | .limit =>
    some (t.withSize (sizeBytes s.config)
      { t with sender := s.cut i (sizeBytes s.config).toNat, size := .consume })

/-- The effect of an action. -/
def startupAct (t : Startup) (a : Action) : Option Startup :=
  if t.sender.failure = none ∧ t.negative = false then
    match a with
    | .net =>
      if t.start = .running then (netStep t.sender).map fun s => { t with sender := s }
      else startStep t
    | .cutter =>
      match t.sender.cutter with
      | .consumeData i => sizeStep t i
      | _ => (cutterStep t.sender).map fun s => { t with sender := s }
    | a => (act t.sender a).map fun s => { t with sender := s }
  else none

/-- A session that starts with `config`. -/
def startupSystem (config : NetConfig) : System Startup :=
  .ofActions (fun t => (∃ db input inputSize mem fecData, ValidConfig config ∧ db.Valid ∧
    start config db input inputSize mem fecData = some t.sender) ∧ t.start = .choose ∧
      t.size = .consume ∧ t.negative = false) startupAct

/-- The configurations with which the sessions of a process start. In daemon mode the next
session finds the slice sizes as the one before left them; the flags are chosen anew. -/
inductive SessionConfig (c : Settings) : NetConfig → Prop
  | first (discovery : Discovery) (bigEndian : Bool) :
    SessionConfig c (c.netConfig discovery bigEndian)
  | next {config : NetConfig} {t : Startup} (async sn : Bool) :
    SessionConfig c config → (startupSystem config).Reachable t → t.sender.net = .exited →
      SessionConfig c { t.sender.config with async := async, sn := sn }

/-- A slice that `fecMain` is about to encode fits into `data_blocks` and the bit maps. -/
structure SliceFits (s : State) (slice : Slice) : Prop where
  blocks : getSliceBlocks slice s.config ≤ Protocol.maxSliceSize
  stripes : ∀ stripe < s.config.fecStripes.toNat,
    stripeBlocks (getSliceBlocks slice s.config) s.config.fecStripes.toNat stripe ≤ 128
  /-- The assertions of `fec_encode` hold. -/
  asserts : ∀ s', cutterStep s = some s' → s'.failure = s.failure

/-- The limits of the codec and of the receiver hold for a command line. Both take the number
of stripes and the redundancy as unsigned numbers, and sizes likewise. -/
structure FecLimits (c : Settings) : Prop where
  stripes : 0 ≤ c.fecStripes ∧ c.fecStripes ≤ maxFecInterleave
  redundancy : 0 ≤ c.fecRedundancy ∧ c.fecRedundancy ≤ 128
  sizes : ∀ config t, SessionConfig c config → (startupSystem config).Reachable t →
    t.negative = false
  encoded : ∀ config t i, SessionConfig c config → (startupSystem config).Reachable t →
    t.sender.cutter = .encode i → SliceFits t.sender (t.sender.slices i)

/-- The number of blocks that fit into a slice. -/
def sliceLimit (stripes : ℕ) : ℕ :=
  if stripes = 0 then Protocol.maxSliceSize else min Protocol.maxSliceSize (128 * stripes)

def Settings.sliceLimit (c : Settings) : ℕ := Sender.sliceLimit c.fecStripes.toNat

/-- The size in bytes that `makeSlice` computes for slices of `n` blocks is that of a slice
within the limit. -/
def ProductFits (c : Settings) (n : ℤ) : Prop :=
  0 ≤ toInt (c.blockSize * n) ∧ toInt (c.blockSize * n) < c.blockSize * (c.sliceLimit + 1)

instance (c : Settings) (n : ℤ) : Decidable (ProductFits c n) :=
  inferInstanceAs (Decidable (_ ∧ _))

variable {s s' : State} {t t' : Startup} {config : NetConfig} {c : Settings} {i n : ℕ}

section Alone

/-- The steps of one thread. -/
def threadSystem (a : Action) : System Startup := .ofActionsIn (· = a) (fun _ => False) startupAct

/-- One step of the thread is a run of it. -/
theorem threadStep {a : Action} (h : startupAct t a = some t') : (threadSystem a).Run t t' :=
  System.Run.single ⟨a, rfl, h⟩

/-- Before its loop `netSenderMain` makes the steps of `startStep`. -/
theorem startupAct_net (hfail : t.sender.failure = none ∧ t.negative = false)
    (hpc : t.start ≠ .running) : startupAct t .net = startStep t := by
  simp only [startupAct, if_pos hfail, if_neg hpc]

/-- Nothing special happens if a size is not negative. -/
theorem withSize_of_nonneg {k : ℤ} (hk : 0 ≤ k) : t.withSize k t' = t' := if_neg (not_lt.mpr hk)

/-- The numbers before the last limit are not negative if the one behind it is not. -/
theorem nonneg_of_limited (h : 0 ≤ limitedSliceSize config) :
    0 ≤ firstSliceSize config ∧ (config.fec = true → 0 ≤ stripeLimit config) := by
  have hsize : 0 ≤ chosenSliceSize config ∧ 0 ≤ limitedMaxSliceSize config := by
    unfold limitedSliceSize at h
    split at h <;> omega
  constructor
  · by_contra hneg
    have hzero : config.defaultSliceSize = 0 := by
      by_contra hne
      rw [firstSliceSize, if_neg hne] at hneg
      omega
    rw [chosenSliceSize, if_neg (by simp [hzero])] at hsize
    omega
  · intro hfec
    by_contra hneg
    have hmax := hsize.2
    rw [limitedMaxSliceSize, if_pos ⟨hfec, by omega⟩] at hmax
    omega

/-- What `netSenderMain` has made of the configuration when it has chosen the slice size. -/
def chooseSliceSize (config : NetConfig) : NetConfig :=
  { config with
    discovery := if config.defaultSliceSize = 0 then .doubling else config.discovery
    sliceSize := (chosenSliceSize config).toNat }

/-- The choice of the slice size. -/
theorem run_choose (hfail : s.failure = none) (size : SizePc)
    (hsize : 0 ≤ limitedSliceSize s.config) :
    (threadSystem .net).Run ⟨s, .choose, size, false⟩
      ⟨{ s with config := chooseSliceSize s.config }, .testMax, size, false⟩ := by
  obtain ⟨hfirst, hstripes⟩ := nonneg_of_limited hsize
  unfold chooseSliceSize
  by_cases hzero : s.config.defaultSliceSize = 0
  · have hchosen : chosenSliceSize s.config = firstSliceSize s.config := by
      rw [chosenSliceSize, if_neg (by simp [hzero])]
    refine threadStep ((startupAct_net ⟨hfail, rfl⟩ (by simp)).trans ?_)
    simp only [startStep, withSize_of_nonneg hfirst, if_pos hzero, hchosen, State.setSliceSize]
  · have hchoose : (threadSystem .net).Run ⟨s, .choose, size, false⟩
        ⟨s.setSliceSize (firstSliceSize s.config).toNat, .testStripes, size, false⟩ := by
      refine threadStep ((startupAct_net ⟨hfail, rfl⟩ (by simp)).trans ?_)
      simp only [startStep, withSize_of_nonneg hfirst, hzero, if_false]
    have hcast : ((firstSliceSize s.config).toNat : ℤ) = firstSliceSize s.config :=
      Int.toNat_of_nonneg hfirst
    rw [if_neg hzero]
    by_cases hlarge : s.config.fec = true ∧ stripeLimit s.config < firstSliceSize s.config
    · have hchosen : chosenSliceSize s.config = stripeLimit s.config := by
        rw [chosenSliceSize, if_pos ⟨hzero, hlarge⟩]
      have htest : (threadSystem .net).Run
          ⟨s.setSliceSize (firstSliceSize s.config).toNat, .testStripes, size, false⟩
          ⟨s.setSliceSize (firstSliceSize s.config).toNat, .limitStripes, size, false⟩ := by
        refine threadStep ((startupAct_net ⟨hfail, rfl⟩ (by simp)).trans ?_)
        exact congrArg (fun pc => some (Startup.mk _ pc size false))
          (if_pos ⟨hlarge.1, hcast.symm ▸ hlarge.2⟩)
      refine (hchoose.trans htest).trans (threadStep ?_)
      refine (startupAct_net ⟨hfail, rfl⟩ (by simp)).trans (congrArg some ?_)
      rw [hchosen]
      exact withSize_of_nonneg (hstripes hlarge.1)
    · have hchosen : chosenSliceSize s.config = firstSliceSize s.config := by
        rw [chosenSliceSize, if_neg fun hall => hlarge hall.2]
      rw [hchosen]
      refine hchoose.trans (threadStep ((startupAct_net ⟨hfail, rfl⟩ (by simp)).trans ?_))
      exact congrArg (fun pc => some (Startup.mk _ pc size false))
        (if_neg fun hall => hlarge ⟨hall.1, hcast ▸ hall.2⟩)

/-- The limit of the maximum. -/
theorem run_limitMax (hfail : s.failure = none) (size : SizePc)
    (hstripes : s.config.fec = true → 0 ≤ stripeLimit s.config) :
    (threadSystem .net).Run ⟨s, .testMax, size, false⟩
      ⟨{ s with config := { s.config with
        maxSliceSize := (limitedMaxSliceSize s.config).toNat } }, .readSize, size, false⟩ := by
  unfold limitedMaxSliceSize
  split
  · rename_i hlarge
    have htest : (threadSystem .net).Run ⟨s, .testMax, size, false⟩ ⟨s, .limitMax, size, false⟩ :=
      threadStep ((startupAct_net ⟨hfail, rfl⟩ (by simp)).trans (by simp [startStep, hlarge]))
    refine htest.trans (threadStep ((startupAct_net ⟨hfail, rfl⟩ (by simp)).trans ?_))
    exact congrArg some (withSize_of_nonneg (hstripes hlarge.1))
  · rename_i hsmall
    refine threadStep ((startupAct_net ⟨hfail, rfl⟩ (by simp)).trans ?_)
    simp only [startStep, if_neg hsmall, Int.toNat_natCast]

/-- The limit of the slice size by the maximum. -/
theorem run_limitSize (hfail : s.failure = none) (size : SizePc) :
    (threadSystem .net).Run ⟨s, .readSize, size, false⟩
      ⟨{ s with config := { s.config with
        sliceSize := if s.config.maxSliceSize < s.config.sliceSize then s.config.maxSliceSize
          else s.config.sliceSize } }, .check, size, false⟩ := by
  have hread : (threadSystem .net).Run ⟨s, .readSize, size, false⟩
      ⟨s, .readMax s.config.sliceSize, size, false⟩ :=
    threadStep (startupAct_net ⟨hfail, rfl⟩ (by simp))
  split
  · rename_i hlarge
    have htest : (threadSystem .net).Run ⟨s, .readMax s.config.sliceSize, size, false⟩
        ⟨s, .readLimit, size, false⟩ :=
      threadStep ((startupAct_net ⟨hfail, rfl⟩ (by simp)).trans (by simp [startStep, hlarge]))
    have hlimit : (threadSystem .net).Run ⟨s, .readLimit, size, false⟩
        ⟨s, .limitSize s.config.maxSliceSize, size, false⟩ :=
      threadStep (startupAct_net ⟨hfail, rfl⟩ (by simp))
    exact ((hread.trans htest).trans hlimit).trans
      (threadStep (startupAct_net ⟨hfail, rfl⟩ (by simp)))
  · rename_i hsmall
    refine hread.trans (threadStep ((startupAct_net ⟨hfail, rfl⟩ (by simp)).trans ?_))
    simp only [startStep, if_neg hsmall]

/-- The three parts make up `initSliceSize`. -/
theorem initSliceSize_eq (config : NetConfig) (h : 0 ≤ limitedSliceSize config) :
    initSliceSize config =
      { chooseSliceSize config with
        maxSliceSize := (limitedMaxSliceSize config).toNat
        sliceSize :=
          if (limitedMaxSliceSize config).toNat < (chosenSliceSize config).toNat then
            (limitedMaxSliceSize config).toNat
          else (chosenSliceSize config).toNat } := by
  have hsize : (limitedSliceSize config).toNat =
      if (limitedMaxSliceSize config).toNat < (chosenSliceSize config).toNat then
        (limitedMaxSliceSize config).toNat
      else (chosenSliceSize config).toNat := by
    unfold limitedSliceSize at h ⊢
    split at h <;> split <;> split <;> omega
  unfold initSliceSize chooseSliceSize
  rw [hsize]

/-- Alone, the steps of `netSenderMain` before its loop do what `initSliceSize` does, unless the
slice size becomes negative. -/
theorem run_start (hnet : s.net = .init) (hfail : s.failure = none) (size : SizePc)
    (hsize : 0 ≤ limitedSliceSize s.config) :
    ∃ s', netStep s = some s' ∧
      (threadSystem .net).Run ⟨s, .choose, size, false⟩ ⟨s', .running, size, false⟩ := by
  simp only [netStep, hnet, if_neg (not_lt.mpr hsize)]
  refine ⟨_, rfl, ?_⟩
  have hmax := run_limitMax (s := { s with config := chooseSliceSize s.config }) hfail size
    (nonneg_of_limited hsize).2
  have hlimit := run_limitSize (s := { s with config := { chooseSliceSize s.config with
    maxSliceSize := (limitedMaxSliceSize s.config).toNat } }) hfail size
  rw [initSliceSize_eq _ hsize]
  exact (((run_choose hfail size hsize).trans hmax).trans hlimit).trans
    (threadStep (startupAct_net ⟨hfail, rfl⟩ (by simp)))

/-- Alone, the steps of `makeSlice` do what `cutterStep` does, unless the product of the two
sizes is too large for an `int`. -/
theorem run_cut (hpc : s.cutter = .consumeData i) (hfail : s.failure = none)
    (hlt : s.config.blockSize * s.config.sliceSize < 2 ^ 31)
    (hstep : cutterStep s = some s') (pc : StartPc) :
    (threadSystem .cutter).Run ⟨s, pc, .consume, false⟩ ⟨s', pc, .consume, false⟩ := by
  simp only [cutterStep, hpc, Option.map_eq_some_iff] at hstep
  obtain ⟨n, hn, rfl⟩ := hstep
  have hact : ∀ size, startupAct ⟨s, pc, size, false⟩ .cutter = sizeStep ⟨s, pc, size, false⟩ i := by
    intro size
    simp only [startupAct, hfail, hpc, and_self, if_true]
  have hbytes : sizeBytes s.config = (s.config.blockSize * s.config.sliceSize : ℕ) := by
    rw [sizeBytes, toInt_of_mem (by omega) (by exact_mod_cast hlt)]
    push_cast
    rfl
  have hread : (threadSystem .cutter).Run ⟨s, pc, .consume, false⟩ ⟨s, pc, .compare n, false⟩ :=
    threadStep ((hact _).trans (by simp [sizeStep, hn]))
  by_cases hlarge : s.config.blockSize * s.config.sliceSize < n
  · have hcompare : (threadSystem .cutter).Run ⟨s, pc, .compare n, false⟩ ⟨s, pc, .limit, false⟩ := by
      refine threadStep ((hact _).trans ?_)
      simp only [sizeStep, hbytes]
      rw [if_pos (by exact_mod_cast hlarge)]
    refine (hread.trans hcompare).trans (threadStep ((hact _).trans ?_))
    simp only [sizeStep, hbytes, withSize_of_nonneg (Int.natCast_nonneg _), Int.toNat_natCast]
    simp only [State.cut, sliceBytes, if_pos hlarge]
  · refine hread.trans (threadStep ((hact _).trans ?_))
    simp only [sizeStep, hbytes]
    rw [if_neg (by exact_mod_cast hlarge)]
    simp only [State.cut, sliceBytes, if_neg hlarge]

end Alone

section Encoding

/-- The limit is within the largest slice of the receiver. -/
theorem sliceLimit_le (stripes : ℕ) : sliceLimit stripes ≤ Protocol.maxSliceSize := by
  unfold sliceLimit
  split <;> omega

/-- Stripe `i` has at most `k` blocks exactly when block `i + k * stripes` is behind the slice. -/
theorem stripeBlocks_le_iff {nrBlocks stripes k : ℕ} (hstripes : 0 < stripes) :
    stripeBlocks nrBlocks stripes i ≤ k ↔ nrBlocks ≤ i + k * stripes := by
  induction k generalizing i with
  | zero =>
    unfold stripeBlocks
    split <;> omega
  | succ k ih =>
    unfold stripeBlocks
    rw [Nat.add_one_mul]
    split
    · rw [Nat.add_le_add_iff_right, ih]
      omega
    · omega

/-- Within the limit no stripe has more than 128 blocks. -/
theorem stripeBlocks_le {nrBlocks stripes : ℕ} (h : nrBlocks ≤ sliceLimit stripes) :
    ∀ stripe < stripes, stripeBlocks nrBlocks stripes stripe ≤ 128 := by
  intro stripe hstripe
  have hpos : 0 < stripes := by omega
  rw [stripeBlocks_le_iff hpos]
  unfold sliceLimit at h
  rw [if_neg (by omega)] at h
  omega

/-- A fold whose steps all succeed succeeds. -/
theorem foldlM_isSome {α β : Type*} {f : β → α → Option β} {l : List α}
    (h : ∀ a ∈ l, ∀ b, (f b a).isSome) (b : β) : (l.foldlM f b).isSome := by
  induction l generalizing b with
  | nil => rfl
  | cons a l ih =>
    obtain ⟨b', hb'⟩ := Option.isSome_iff_exists.mp (h a List.mem_cons_self b)
    rw [List.foldlM_cons, hb']
    exact ih (fun a' ha' => h a' (List.mem_cons_of_mem _ ha')) b'

/-- The assertions of `fec_encode`. -/
theorem encodeAllStripes_isSome {slice : Slice}
    (hredundancy : 0 ≤ s.config.fecRedundancy ∧ s.config.fecRedundancy ≤ 128)
    (hblocks : ∀ stripe < s.config.fecStripes.toNat,
      stripeBlocks (getSliceBlocks slice s.config) s.config.fecStripes.toNat stripe ≤ 128) :
    (encodeAllStripes s slice).isSome := by
  refine foldlM_isSome (fun stripe hstripe fecData => ?_) _
  have hinit : fecTables.fecInitialized = true := rfl
  have hdata := hblocks stripe (List.mem_range.mp hstripe)
  have hunsigned : (s.config.fecRedundancy % 2 ^ 32).toNat ≤ 128 := by omega
  rw [encodeStripe, Option.isSome_map, Fec.fecEncode, if_neg (by simp [hinit]),
    if_neg (by simpa using hdata), if_neg (not_not.mpr hunsigned)]
  split <;> rfl

/-- A slice within the limit is encoded. -/
theorem sliceFits_of_le {slice : Slice} (hpc : s.cutter = .encode i)
    (hslice : s.slices i = slice)
    (hredundancy : 0 ≤ s.config.fecRedundancy ∧ s.config.fecRedundancy ≤ 128)
    (hblocks : getSliceBlocks slice s.config ≤ sliceLimit s.config.fecStripes.toNat) :
    SliceFits s slice := by
  have hstripes := stripeBlocks_le hblocks
  refine ⟨hblocks.trans (sliceLimit_le _), hstripes, fun s' hstep => ?_⟩
  simp only [cutterStep, hpc, hslice, Option.some.injEq] at hstep
  subst hstep
  split
  · rfl
  · rename_i hnone
    have hsome := encodeAllStripes_isSome
      (s := { s with dataBuffer := padLastBlock s slice, cutter := .produceFec }) hredundancy hstripes
    rw [hnone] at hsome
    contradiction

end Encoding

section Bounds

/-- The options are those of the command line, and slices of the slice size fit. -/
structure ConfigFits (c : Settings) (config : NetConfig) : Prop where
  fec : config.fec = c.fec
  blockSize : config.blockSize = c.blockSize.toNat
  stripes : config.fecStripes = c.fecStripes
  redundancy : config.fecRedundancy = c.fecRedundancy
  first : c.fec = true →
    firstSliceSize config = firstSliceSize (c.netConfig .doubling false)
  defaultSliceSize_le : config.defaultSliceSize ≤ Protocol.maxSliceSize
  sliceSize : ProductFits c config.sliceSize
  maxSliceSize_le : config.maxSliceSize ≤ Protocol.maxSliceSize

/-- What is known about the two sizes before a statement of `netSenderMain`. -/
def StartPc.Fits (c : Settings) (config : NetConfig) : StartPc → Prop
  | .choose | .testMax => True
  | .testStripes => config.sliceSize ≤ c.sliceLimit
  | .limitStripes => config.sliceSize ≤ c.sliceLimit ∧ 128 * c.fecStripes < config.sliceSize
  | .limitMax => 128 * c.fecStripes < config.maxSliceSize
  | .readSize | .readLimit => config.maxSliceSize ≤ c.sliceLimit
  | .readMax n => n = config.sliceSize ∧ config.maxSliceSize ≤ c.sliceLimit
  | .limitSize m => m ≤ c.sliceLimit ∧ config.maxSliceSize ≤ c.sliceLimit
  | .check | .running => config.sliceSize ≤ c.sliceLimit ∧ config.maxSliceSize ≤ c.sliceLimit

/-- What is known if slices of the first slice size fit. -/
structure StartupFits (c : Settings) (t : Startup) : Prop where
  config : ConfigFits c t.sender.config
  start : t.start.Fits c t.sender.config
  slices : ∀ i, (t.sender.slices i).bytes ≤ c.blockSize.toNat * c.sliceLimit
  nonneg : t.negative = false

/-- What the command line has to fulfil. -/
structure OptionsFit (c : Settings) : Prop where
  fec : c.fec = true
  valid : ValidConfig (c.netConfig .doubling false)
  stripes : 0 ≤ c.fecStripes ∧ c.fecStripes ≤ maxFecInterleave
  first_nonneg : 0 ≤ firstSliceSize (c.netConfig .doubling false)
  first : ProductFits c (firstSliceSize (c.netConfig .doubling false))

/-- Another slice size that fits keeps this. -/
theorem ConfigFits.sameMode {config' : NetConfig} (h : ConfigFits c config)
    (hsame : SameMode config config') (hsize : ProductFits c config'.sliceSize)
    (hmax : config'.maxSliceSize ≤ config.maxSliceSize) : ConfigFits c config' where
  fec := by rw [hsame]; exact h.fec
  blockSize := by rw [hsame]; exact h.blockSize
  stripes := by rw [hsame]; exact h.stripes
  redundancy := by rw [hsame]; exact h.redundancy
  first := by rw [hsame]; exact h.first
  defaultSliceSize_le := by rw [hsame]; exact h.defaultSliceSize_le
  sliceSize := hsize
  maxSliceSize_le := hmax.trans h.maxSliceSize_le

/-- 128 blocks are within every limit. -/
theorem le_sliceLimit {stripes : ℕ} (hn : n ≤ 128) : n ≤ sliceLimit stripes := by
  have hmax : Protocol.maxSliceSize = 1024 := rfl
  unfold sliceLimit
  split <;> omega

/-- A product with a slice size of at most 1024 is small enough for an `int`. -/
theorem toInt_blockSize_mul (hvalid : ValidConfig (c.netConfig .doubling false)) (hn : n ≤ 1024) :
    toInt (c.blockSize * n) = c.blockSize * n := by
  have hpos : 0 < c.blockSize.toNat := hvalid.blockSize_pos
  have hlt : 3 * (c.blockSize.toNat * 4096) < 2 ^ 32 := hvalid.blockSize_lt
  have hle : c.blockSize * n ≤ c.blockSize * 1024 :=
    mul_le_mul_of_nonneg_left (by omega) (by omega)
  have hnonneg : 0 ≤ c.blockSize * n := mul_nonneg (by omega) (by omega)
  exact toInt_of_mem (by omega) (by omega)

/-- Up to that size a slice fits if its number of blocks does. -/
theorem productFits_iff (hvalid : ValidConfig (c.netConfig .doubling false)) (hn : n ≤ 1024) :
    ProductFits c n ↔ n ≤ c.sliceLimit := by
  have hpos : 0 < c.blockSize.toNat := hvalid.blockSize_pos
  have hnonneg : 0 ≤ c.blockSize * n := mul_nonneg (by omega) (by omega)
  rw [ProductFits, toInt_blockSize_mul hvalid hn, mul_lt_mul_iff_right₀ (by omega)]
  omega

/-- A size within the limit is not wrapped around. -/
theorem productFits_of_le (hvalid : ValidConfig (c.netConfig .doubling false))
    (hn : n ≤ c.sliceLimit) : ProductFits c n :=
  (productFits_iff hvalid (hn.trans (sliceLimit_le _))).mpr hn

/-- The first slice size does not raise the maximum. -/
theorem initSliceSize_max (config : NetConfig) :
    (initSliceSize config).maxSliceSize ≤ config.maxSliceSize := by
  apply Int.toNat_le.mpr
  unfold limitedMaxSliceSize
  split <;> omega

/-- The limit of the stripes is not wrapped around. -/
theorem stripeLimit_eq (hstripes : 0 ≤ config.fecStripes ∧ config.fecStripes ≤ maxFecInterleave) :
    stripeLimit config = 128 * config.fecStripes := by
  have hmax : (maxFecInterleave : ℤ) = 256 := rfl
  exact toInt_of_mem (by omega) (by omega)

/-- A size of at most 1024 is within the limit if it is with respect to the stripes, -/
theorem le_limit_of_stripes (hn : n ≤ 1024) (h : ¬ 128 * c.fecStripes < n) : n ≤ c.sliceLimit := by
  have hmax : Protocol.maxSliceSize = 1024 := rfl
  unfold Settings.sliceLimit sliceLimit
  split <;> omega

/-- and 128 blocks a stripe are if they are less than such a size. -/
theorem stripes_le_limit (hn : n ≤ 1024) (h : 128 * c.fecStripes < n) :
    (128 * c.fecStripes).toNat ≤ c.sliceLimit := by
  have hmax : Protocol.maxSliceSize = 1024 := rfl
  unfold Settings.sliceLimit sliceLimit
  split <;> omega

/-- What `netSenderMain` does to the slice size in its loop keeps the limit. -/
theorem configFits_step (h : ConfigFits c s.config) (hvalid : ValidConfig (c.netConfig .doubling false))
    (hfits : StartPc.running.Fits c s.config)
    (hslices : ∀ i, (s.slices i).bytes ≤ c.blockSize.toNat * c.sliceLimit)
    (hstep : ConfigStep s config) :
    ConfigFits c config ∧ StartPc.running.Fits c config := by
  obtain ⟨hsize, hmax⟩ := hfits
  have hkeep : SameMode s.config config → config.sliceSize ≤ c.sliceLimit →
      config.maxSliceSize ≤ s.config.maxSliceSize →
      ConfigFits c config ∧ StartPc.running.Fits c config := fun hsame hle hmax' =>
    ⟨h.sameMode hsame (productFits_of_le hvalid hle) hmax', hle, hmax'.trans hmax⟩
  cases hstep with
  | keep => exact ⟨h, hsize, hmax⟩
  | init _ =>
    have hle := (initSliceSize_max s.config).trans hmax
    exact hkeep (sameMode_initSliceSize _) ((initSliceSize_le _).trans hle) (initSliceSize_max _)
  | grow =>
    have hgrow : (growSliceSize s.config).sliceSize ≤ c.sliceLimit ∧
        (growSliceSize s.config).maxSliceSize = s.config.maxSliceSize := by
      unfold growSliceSize
      dsimp only
      split
      · split
        · exact ⟨hmax, rfl⟩
        · exact ⟨by dsimp only; omega, rfl⟩
      · exact ⟨hsize, rfl⟩
    exact hkeep (sameMode_growSliceSize _) hgrow.1 hgrow.2.le
  | @shrink r rxmitId _ _ =>
    have hpos : 0 < c.blockSize.toNat := hvalid.blockSize_pos
    have hblocks : getSliceBlocks { s.slices r with rxmitId := rxmitId } s.config ≤ c.sliceLimit :=
      getSliceBlocks_le (by rwa [h.blockSize]) (by rw [h.blockSize]; exact hslices r)
    have hshrink : (shrinkSliceSize s.config { s.slices r with rxmitId := rxmitId }).sliceSize ≤
          c.sliceLimit ∧
        (shrinkSliceSize s.config { s.slices r with rxmitId := rxmitId }).maxSliceSize =
          s.config.maxSliceSize := by
      have hfloor : 32 ≤ c.sliceLimit := le_sliceLimit (by omega)
      unfold shrinkSliceSize
      split
      · rename_i hloss
        dsimp only at hloss hblocks ⊢
        refine ⟨?_, rfl⟩
        split_ifs <;> omega
      · exact ⟨hsize, rfl⟩
    exact hkeep (sameMode_shrinkSliceSize ..) hshrink.1 hshrink.2.le

/-- The choice of the first slice size. -/
theorem startupFits_choose (h : StartupFits c t) (ho : OptionsFit c) (hpc : t.start = .choose)
    (hstep : startStep t = some t') : StartupFits c t' := by
  have hfirst := h.config.first ho.fec
  have hnonneg := ho.first_nonneg
  have hcast : ((firstSliceSize t.sender.config).toNat : ℤ) =
      firstSliceSize (c.netConfig .doubling false) := by
    rw [hfirst, Int.toNat_of_nonneg hnonneg]
  have hconfig : ConfigFits c
      { t.sender.config with sliceSize := (firstSliceSize t.sender.config).toNat } :=
    h.config.sameMode rfl (by rw [hcast]; exact ho.first) le_rfl
  simp only [startStep, hpc, Option.some.injEq] at hstep
  rw [withSize_of_nonneg (by omega)] at hstep
  subst hstep
  split
  · exact { h with
      config := hconfig.sameMode rfl hconfig.sliceSize le_rfl
      start := trivial }
  · rename_i hdefault
    have hsize : firstSliceSize t.sender.config = t.sender.config.defaultSliceSize :=
      if_neg hdefault
    have hle : (firstSliceSize t.sender.config).toNat ≤ 1024 := by
      rw [hsize]
      exact h.config.defaultSliceSize_le
    exact { h with
      config := hconfig
      start := (productFits_iff ho.valid hle).mp hconfig.sliceSize }

/-- The steps of `netSenderMain` before its loop keep the limit. -/
theorem startupFits_startStep (h : StartupFits c t) (ho : OptionsFit c)
    (hstep : startStep t = some t') : StartupFits c t' := by
  have hconfig := h.config
  have hfits := h.start
  have hstripes : stripeLimit t.sender.config = 128 * c.fecStripes := by
    rw [stripeLimit_eq (by rw [hconfig.stripes]; exact ho.stripes), hconfig.stripes]
  have hlimit : 0 ≤ 128 * c.fecStripes := by
    have hnonneg := ho.stripes.1
    omega
  have hsize : ∀ n, n ≤ c.sliceLimit →
      ConfigFits c { t.sender.config with sliceSize := n } := fun n hn =>
    hconfig.sameMode rfl (productFits_of_le ho.valid hn) le_rfl
  cases hpc : t.start with
  | choose => exact startupFits_choose h ho hpc hstep
  | testStripes =>
    simp only [startStep, hpc, Option.some.injEq] at hstep
    subst hstep
    rw [hpc] at hfits
    split
    · rename_i hlarge
      exact { h with start := ⟨hfits, hstripes ▸ hlarge.2⟩ }
    · exact { h with start := trivial }
  | limitStripes =>
    simp only [startStep, hpc, Option.some.injEq, hstripes, withSize_of_nonneg hlimit] at hstep
    subst hstep
    rw [hpc] at hfits
    have hle := hfits.1.trans (sliceLimit_le _)
    exact { h with
      config := hsize _ (stripes_le_limit hle hfits.2)
      start := trivial }
  | testMax =>
    simp only [startStep, hpc, Option.some.injEq, hstripes] at hstep
    subst hstep
    split
    · rename_i hlarge
      exact { h with start := hlarge.2 }
    · rename_i hsmall
      exact { h with
        start := le_limit_of_stripes hconfig.maxSliceSize_le fun hlt =>
          hsmall ⟨hconfig.fec.trans ho.fec, hlt⟩ }
  | limitMax =>
    simp only [startStep, hpc, Option.some.injEq, hstripes, withSize_of_nonneg hlimit] at hstep
    subst hstep
    rw [hpc] at hfits
    have hlarge : 128 * c.fecStripes < t.sender.config.maxSliceSize := hfits
    exact { h with
      config := hconfig.sameMode rfl hconfig.sliceSize (by dsimp only; omega)
      start := stripes_le_limit hconfig.maxSliceSize_le hlarge }
  | readSize =>
    simp only [startStep, hpc, Option.some.injEq] at hstep
    subst hstep
    rw [hpc] at hfits
    exact { h with start := ⟨rfl, hfits⟩ }
  | readMax size =>
    simp only [startStep, hpc, Option.some.injEq] at hstep
    subst hstep
    rw [hpc] at hfits
    obtain ⟨rfl, hmax⟩ := hfits
    split
    · exact { h with start := hmax }
    · rename_i hsmall
      exact { h with start := ⟨(not_lt.mp hsmall).trans hmax, hmax⟩ }
  | readLimit =>
    simp only [startStep, hpc, Option.some.injEq] at hstep
    subst hstep
    rw [hpc] at hfits
    exact { h with start := ⟨hfits, hfits⟩ }
  | limitSize m =>
    simp only [startStep, hpc, Option.some.injEq] at hstep
    subst hstep
    rw [hpc] at hfits
    exact { h with
      config := hsize m hfits.1
      start := hfits }
  | check =>
    simp only [startStep, hpc, Option.some.injEq] at hstep
    subst hstep
    rw [hpc] at hfits
    split <;> exact { h with start := hfits }
  | running => simp [startStep, hpc] at hstep

/-- A slice of less than the next number of blocks is rounded down to the limit. -/
theorem startupFits_cut (h : StartupFits c t) {bytes : ℕ}
    (hbytes : bytes < c.blockSize.toNat * (c.sliceLimit + 1)) :
    StartupFits c { t with sender := t.sender.cut i bytes, size := .consume } :=
  { h with
    slices := fun k => by
      have hpos : 0 < c.sliceLimit := le_sliceLimit (by omega)
      have hround : (if c.blockSize.toNat < bytes then bytes - bytes % c.blockSize.toNat
          else bytes) ≤ c.blockSize.toNat * c.sliceLimit := by
        split
        · have hdiv := Nat.div_lt_of_lt_mul hbytes
          have hsplit := Nat.div_add_mod bytes c.blockSize.toNat
          calc bytes - bytes % c.blockSize.toNat
              = c.blockSize.toNat * (bytes / c.blockSize.toNat) := by omega
            _ ≤ c.blockSize.toNat * c.sliceLimit := Nat.mul_le_mul_left _ (by omega)
        · have hone := Nat.le_mul_of_pos_right c.blockSize.toNat hpos
          omega
      simp only [State.cut, State.setSlice, Function.update_apply]
      split
      · rw [h.config.blockSize]
        exact hround
      · exact h.slices k }

/-- `makeSlice` reads slice sizes within the limit only. -/
theorem startupFits_sizeStep (h : StartupFits c t) (ho : OptionsFit c)
    (hstep : sizeStep t i = some t') : StartupFits c t' := by
  have hpos : 0 < c.blockSize.toNat := ho.valid.blockSize_pos
  have hcast : (c.blockSize.toNat : ℤ) = c.blockSize := Int.toNat_of_nonneg (by omega)
  obtain ⟨hnonneg, hlt⟩ : 0 ≤ sizeBytes t.sender.config ∧
      sizeBytes t.sender.config < (c.blockSize.toNat * (c.sliceLimit + 1) : ℕ) := by
    have hproduct := h.config.sliceSize
    unfold sizeBytes
    rw [h.config.blockSize, hcast]
    push_cast
    rw [hcast]
    exact hproduct
  cases hpc : t.size with
  | consume =>
    simp only [sizeStep, hpc, Option.map_eq_some_iff] at hstep
    obtain ⟨n, -, rfl⟩ := hstep
    exact { h with }
  | compare bytes =>
    simp only [sizeStep, hpc, Option.some.injEq] at hstep
    subst hstep
    split
    · exact { h with }
    · exact startupFits_cut h (by omega)
  | limit =>
    simp only [sizeStep, hpc, Option.some.injEq, withSize_of_nonneg hnonneg] at hstep
    subst hstep
    exact startupFits_cut h (by omega)

/-- The other threads leave the configuration and the sizes of the slices alone. -/
theorem startupFits_frame (h : StartupFits c t) (hconfig : s'.config = t.sender.config)
    (hslices : ∀ k, (s'.slices k).bytes ≤ (t.sender.slices k).bytes) :
    StartupFits c { t with sender := s' } where
  config := by rw [hconfig]; exact h.config
  start := by rw [hconfig]; exact h.start
  slices := fun k => (hslices k).trans (h.slices k)
  nonneg := h.nonneg

/-- The cutter outside the choice of a size. -/
theorem cutterStep_bytes (hpc : ∀ i, s.cutter ≠ .consumeData i) (hstep : cutterStep s = some s') :
    s'.config = s.config ∧ ∀ k, (s'.slices k).bytes ≤ (s.slices k).bytes := by
  have hupdate : ∀ (i k : ℕ) (slice : Slice), slice.bytes ≤ (s.slices i).bytes →
      (Function.update s.slices i slice k).bytes ≤ (s.slices k).bytes := by
    intro i k slice hle
    rcases eq_or_ne k i with rfl | hne
    · rwa [Function.update_self]
    · rw [Function.update_of_ne hne]
  cases hcutter : s.cutter with
  | idle => simp [cutterStep, hcutter] at hstep
  | consumeSlot =>
    simp only [cutterStep, hcutter, Option.map_eq_some_iff] at hstep
    obtain ⟨n, -, rfl⟩ := hstep
    exact ⟨rfl, fun _ => le_rfl⟩
  | consumedSlot =>
    simp only [cutterStep, hcutter] at hstep
    split at hstep
    · obtain rfl := Option.some.inj hstep
      exact ⟨rfl, fun k => hupdate _ k _ (Nat.zero_le _)⟩
    · obtain rfl := Option.some.inj hstep
      exact ⟨rfl, fun _ => le_rfl⟩
  | consumeData i => exact absurd hcutter (hpc i)
  | consumedData i =>
    simp only [cutterStep, hcutter, Option.some.injEq] at hstep
    subst hstep
    split <;> exact ⟨rfl, fun k => hupdate _ k _ le_rfl⟩
  | encode i =>
    simp only [cutterStep, hcutter, Option.some.injEq] at hstep
    subst hstep
    split
    · exact ⟨rfl, fun k => hupdate _ k _ le_rfl⟩
    · exact ⟨rfl, fun _ => le_rfl⟩
  | produceFec =>
    simp only [cutterStep, hcutter, Option.some.injEq] at hstep
    subst hstep
    split <;> exact ⟨rfl, fun _ => le_rfl⟩

/-- The loop of `netSenderMain`. -/
theorem startupFits_netStep (h : StartupFits c t) (ho : OptionsFit c) (hpc : t.start = .running)
    (hstep : netStep t.sender = some s') : StartupFits c { t with sender := s' } := by
  obtain ⟨hconfig, hfits⟩ := configFits_step h.config ho.valid (hpc ▸ h.start) h.slices
    (netStep_config hstep)
  have hbytes : ∀ k, (s'.slices k).bytes = (t.sender.slices k).bytes := by
    rcases netStep_keepsSizes hstep with hkeeps | ⟨-, -, rfl⟩
    · exact hkeeps.bytes
    · exact fun _ => rfl
  exact {
    config := hconfig
    start := by
      dsimp only
      rw [hpc]
      exact hfits
    slices := fun k => (hbytes k).trans_le (h.slices k)
    nonneg := h.nonneg }

/-- Every step keeps what is known. -/
theorem startupFits_act {a : Action} (h : StartupFits c t) (ho : OptionsFit c)
    (hact : startupAct t a = some t') : StartupFits c t' := by
  simp only [startupAct, Option.ite_none_right_eq_some] at hact
  obtain ⟨hfail, hact⟩ := hact
  cases a with
  | net =>
    dsimp only at hact
    split at hact
    · rename_i hpc
      obtain ⟨s, hs, rfl⟩ := Option.map_eq_some_iff.mp hact
      exact startupFits_netStep h ho hpc hs
    · exact startupFits_startStep h ho hact
  | cutter =>
    dsimp only at hact
    split at hact
    · exact startupFits_sizeStep h ho hact
    · rename_i hcut
      obtain ⟨s, hs, rfl⟩ := Option.map_eq_some_iff.mp hact
      obtain ⟨hconfig, hbytes⟩ := cutterStep_bytes hcut hs
      exact startupFits_frame h hconfig hbytes
  | reader n =>
    obtain ⟨s, hs, rfl⟩ := Option.map_eq_some_iff.mp hact
    obtain ⟨-, hs⟩ := Option.ite_none_right_eq_some.mp hs
    refine startupFits_frame h ?_ ?_ <;> rw [readerStep_frame hs]
    exact fun _ => le_rfl
  | timeout =>
    obtain ⟨s, hs, rfl⟩ := Option.map_eq_some_iff.mp hact
    obtain ⟨-, hs⟩ := Option.ite_none_right_eq_some.mp hs
    obtain ⟨-, hs⟩ := Option.ite_none_right_eq_some.mp hs
    obtain rfl := Option.some.inj hs
    exact startupFits_frame h rfl fun _ => le_rfl
  | receive clNo msg =>
    obtain ⟨s, hs, rfl⟩ := Option.map_eq_some_iff.mp hact
    obtain ⟨-, hs⟩ := Option.ite_none_right_eq_some.mp hs
    refine startupFits_frame h ?_ ?_ <;> rw [receiveStep_frame hs]
    exact fun _ => le_rfl
  | announce =>
    obtain ⟨s, hs, rfl⟩ := Option.map_eq_some_iff.mp hact
    obtain ⟨-, hs⟩ := Option.ite_none_right_eq_some.mp hs
    refine startupFits_frame h ?_ ?_ <;> rw [(announceStep_frame hs).1]
    exact fun _ => le_rfl

/-- A session respects the limit if it finds a slice size that fits. -/
theorem startupFits_reachable (hconfig : ConfigFits c config) (ho : OptionsFit c)
    (h : (startupSystem config).Reachable t) : StartupFits c t := by
  refine h.invariant ?_ ?_
  · rintro ⟨s, pc, size, negative⟩
      ⟨⟨db, input, inputSize, mem, fecData, hvalid, -, hstart⟩, rfl, rfl, rfl⟩
    obtain ⟨freeMemQueue, -, hstart⟩ := Option.bind_eq_some_iff.mp hstart
    obtain ⟨freeSlicesPc, -, hstart⟩ := Option.bind_eq_some_iff.mp hstart
    obtain ⟨freeSpace, -, rfl⟩ := Option.map_eq_some_iff.mp hstart
    exact ⟨hconfig, trivial, fun _ => Nat.zero_le _, rfl⟩
  · rintro t t' hfits ⟨a, hact⟩
    exact startupFits_act hfits ho hact

/-- With FEC the first size depends on neither async mode nor the kind of link. -/
theorem firstSliceSize_flags (hfec : config.fec = true) (async sn : Bool) :
    firstSliceSize { config with async := async, sn := sn } = firstSliceSize config := by
  simp only [firstSliceSize, hfec, if_true]

/-- Every session finds a slice size that fits. -/
theorem configFits_session (hc : CommandSettings c) (ho : OptionsFit c)
    (hconfig : SessionConfig c config) : ConfigFits c config := by
  induction hconfig with
  | first discovery bigEndian =>
    have hbounds := hc.bounds
    have hmax := hbounds.max_le
    have hlimit : Protocol.maxSliceSize = 1024 := rfl
    have hdefault : c.defaultSliceSize ≤ 1024 := by
      by_cases hzero : c.defaultSliceSize = 0
      · omega
      · exact (hbounds.default hzero).2.trans hmax
    exact {
      fec := rfl
      blockSize := rfl
      stripes := rfl
      redundancy := rfl
      first := fun _ => rfl
      defaultSliceSize_le := by
        change c.defaultSliceSize.toNat ≤ _
        omega
      sliceSize := productFits_of_le ho.valid (le_sliceLimit (show 16 ≤ 128 by omega))
      maxSliceSize_le := by
        change c.maxSliceSize.toNat ≤ _
        omega }
  | next async sn _ hreach _ ih =>
    have hfits := (startupFits_reachable ih ho hreach).config
    exact { hfits with
      first := fun _ =>
        (firstSliceSize_flags (hfits.fec.trans ho.fec) async sn).trans (hfits.first ho.fec) }

/-- What the condition is enough for. -/
theorem fecLimits_of_first (hc : CommandSettings c) (ho : OptionsFit c)
    (hredundancy : 0 ≤ c.fecRedundancy ∧ c.fecRedundancy ≤ 128) : FecLimits c := by
  have hfits : ∀ config t, SessionConfig c config → (startupSystem config).Reachable t →
      StartupFits c t := fun config t hconfig hreach =>
    startupFits_reachable (configFits_session hc ho hconfig) ho hreach
  refine ⟨ho.stripes, hredundancy, fun config t hconfig hreach => (hfits config t hconfig hreach).nonneg,
    fun config t i hconfig hreach hpc => ?_⟩
  have hfits := hfits config t hconfig hreach
  apply sliceFits_of_le hpc rfl (by rw [hfits.config.redundancy]; exact hredundancy)
  have hpos : 0 < c.blockSize.toNat := ho.valid.blockSize_pos
  rw [hfits.config.stripes]
  apply getSliceBlocks_le (by rw [hfits.config.blockSize]; exact hpos)
  rw [hfits.config.blockSize]
  exact hfits.slices i

end Bounds

section Overrun

/-- The other threads make the steps of the main model. -/
theorem startup_lift {a : Action} {pc : StartPc} {size : SizePc}
    (h : (startupSystem config).Reachable ⟨s, pc, size, false⟩) (hact : act s a = some s')
    (hnet : a ≠ .net) (hcut : a = .cutter → ∀ i, s.cutter ≠ .consumeData i) :
    (startupSystem config).Reachable ⟨s', pc, size, false⟩ := by
  have hfail : s.failure = none := (Option.ite_none_right_eq_some.mp hact).1
  refine h.step ⟨a, ?_⟩
  cases a with
  | net => contradiction
  | cutter =>
    have hstep : cutterStep s = some s' := (Option.ite_none_right_eq_some.mp hact).2
    simp only [startupAct, hfail, and_self, if_true]
    split
    · rename_i i hi
      exact absurd hi (hcut rfl i)
    · rw [hstep]
      rfl
  | _ =>
    simp only [startupAct, hfail, and_self, if_true, hact]
    rfl

/-- A sender can be started. -/
theorem exists_start (hvalid : ValidConfig config) (db : ParticipantsDb) (input : ℕ → Gf)
    (inputSize : ℕ) (mem : ℕ → Gf) (fecData : ℕ → ℕ → Block) :
    ∃ s, start config db input inputSize mem fecData = some s := by
  have hpos := hvalid.blockSize_pos
  have hlt := hvalid.blockSize_lt
  have hempty : (pcMakeProduconsum (config.blockSize * 4096)).Holds (config.blockSize * 4096) 0 0 :=
    holds_make (by omega) hlt
  have hslots : (pcMakeProduconsum 2).Holds 2 0 0 := holds_make (by omega) (by omega)
  have hqueue : (pcMakeProduconsum 256).Holds 256 0 0 := holds_make (by omega) (by omega)
  obtain ⟨q, hq, -⟩ := hempty.pcProduce (n := config.blockSize * 4096) (by omega)
  obtain ⟨slots, hslots, -⟩ := hslots.pcProduce (n := 2) (by omega)
  obtain ⟨space, hspace, -⟩ := hqueue.pcProduce (n := 256) (by omega)
  apply Option.isSome_iff_exists.mp
  simp only [start, hq, hslots, hspace, Option.bind_some, Option.map_some, Option.isSome_some]

/-- `localReader` finds the whole ring free. -/
theorem reader_wait (hinv : Inv s) (hfail : s.failure = none) (hpc : s.reader = .wait)
    (hempty : s.freeTaken = 0 ∧ s.cuts = []) :
    act s (.reader 0) = some { s with reader := .read 0 s.dataBufSize } := by
  have hpos : 0 < s.config.blockSize := hinv.ring.blockSize_pos
  have hsize : s.dataBufSize = s.config.blockSize * 4096 := hinv.ring.size_eq
  have hfree := hinv.ring.freeMem
  have hacked : s.ring.ackedBytes = 0 := by simp [RingView.ackedBytes, State.ring, startOf, hempty.2]
  rw [hacked, show s.ring.freeTaken = 0 from hempty.1] at hfree
  have hposition : pcGetConsumerPosition s.freeMemQueue = 0 :=
    hfree.consumerPosition_eq.trans (Nat.zero_mod _)
  have hwait : pcConsumeContiguousMinAmount s.freeMemQueue 4096 = some s.dataBufSize := by
    change pcConsumeContiguousMinAmount s.ring.freeMemQueue 4096 = _
    rw [hfree.consumeContiguous_eq, if_pos (.inl (by change 4096 ≤ s.dataBufSize + 0 - 0; omega)),
      if_neg (by simp)]
    rfl
  have hchunk : (if (0 + s.dataBufSize) % 4096 < s.dataBufSize then
      s.dataBufSize - (0 + s.dataBufSize) % 4096 else s.dataBufSize) = s.dataBufSize := by
    split <;> omega
  simp only [act, hfail, if_true, readerStep, hpc, hwait, hposition, Option.map_some, hchunk]
  rw [if_neg (by omega)]

/-- It reads `n` bytes and makes them available. -/
theorem reader_read (hinv : Inv s) (hfail : s.failure = none) {bytes : ℕ}
    (hpc : s.reader = .read 0 bytes) (hn : 0 < n) (hle : n ≤ bytes) (hinput : s.inputSize = n)
    (hempty : s.inputPos = 0 ∧ s.freeTaken = 0 ∧ s.readTotal = 0) :
    ∃ s', System.perform act s [.reader n, .reader 0, .reader 0] = some s' ∧
      s'.config = s.config ∧ s'.failure = none ∧ s'.cutter = s.cutter ∧ s'.readTotal = n ∧
      s'.cuts = s.cuts ∧ s'.freed = s.freed := by
  obtain ⟨hpos, htaken, htotal⟩ := hempty
  let s₁ : State := { s with
    dataBuffer := fun a =>
      if 0 ≤ a ∧ a < 0 + n then s.input (s.inputPos + (a - 0)) else s.dataBuffer a
    inputPos := s.inputPos + n
    reader := .commit n }
  have hact₁ : act s (.reader n) = some s₁ := by
    rw [act, if_pos hfail]
    simp only [readerStep, hpc]
    exact if_pos ⟨hle, by omega, by omega⟩
  have hact₂ : act s₁ (.reader 0) = some { s₁ with
      freeMemQueue := pcConsumed s₁.freeMemQueue n
      freeTaken := s₁.freeTaken + n
      reader := .produce n } := by
    rw [act, if_pos (by exact hfail)]
    simp only [readerStep, s₁]
    exact congrArg some (if_neg (by omega))
  have hinv₂ := inv_act (inv_act hinv hact₁) hact₂
  obtain ⟨q, hq, -⟩ := hinv₂.ring.readerProduce rfl
  have hq' : pcProduce s₁.data n = some q := hq
  have hact₃ : act { s₁ with
      freeMemQueue := pcConsumed s₁.freeMemQueue n
      freeTaken := s₁.freeTaken + n
      reader := .produce n } (.reader 0) = some { s₁ with
        freeMemQueue := pcConsumed s₁.freeMemQueue n
        freeTaken := s₁.freeTaken + n
        data := q, readTotal := s₁.readTotal + n, reader := .wait } := by
    rw [act, if_pos (by exact hfail)]
    simp only [readerStep, hq']
  have hperform := ((System.perform_cons hact₁).trans (System.perform_cons hact₂)).trans
    (System.perform_cons (l := []) hact₃)
  refine ⟨_, hperform, rfl, hfail, rfl, ?_, rfl, rfl⟩
  change s.readTotal + n = n
  omega

/-- `localReader` reads the whole input at once. -/
theorem exists_read (hvalid : ValidConfig config) (hfec : config.fec = true) (hn : 0 < n)
    (hle : n ≤ config.blockSize * 4096) :
    ∃ s, (startupSystem config).Reachable ⟨s, .choose, .consume, false⟩ ∧ Inv s ∧ s.config = config ∧
      s.failure = none ∧ s.cutter = .consumeSlot ∧ s.readTotal = n ∧ s.cuts = [] ∧
      s.freed = 0 := by
  obtain ⟨s₀, hstart⟩ := exists_start hvalid ⟨1, {0}⟩ (fun _ => .ofNat 7) n (fun _ => .ofNat 0)
    fun _ _ _ => .ofNat 0
  have hreach₀ : (startupSystem config).Reachable ⟨s₀, .choose, .consume, false⟩ :=
    .init ⟨⟨_, _, _, _, _, hvalid, ⟨rfl, by decide⟩, hstart⟩, rfl, rfl, rfl⟩
  have hinv₀ := inv_start hvalid hstart
  obtain ⟨freeMemQueue, -, hstart⟩ := Option.bind_eq_some_iff.mp hstart
  obtain ⟨freeSlicesPc, -, hstart⟩ := Option.bind_eq_some_iff.mp hstart
  obtain ⟨freeSpace, -, hs₀⟩ := Option.map_eq_some_iff.mp hstart
  have hsize : s₀.dataBufSize = config.blockSize * 4096 := by rw [← hs₀]
  have hact₁ := reader_wait hinv₀ (by rw [← hs₀]) (by rw [← hs₀]) (by rw [← hs₀]; exact ⟨rfl, rfl⟩)
  have hinv₁ := inv_act hinv₀ hact₁
  have hreach₁ := startup_lift hreach₀ hact₁ nofun nofun
  obtain ⟨s, hperform, hconfig, hfail, hcutter, htotal, hcuts, hfreed⟩ :=
    reader_read hinv₁ (by rw [← hs₀]) rfl hn (hsize ▸ hle) (by rw [← hs₀])
      (by rw [← hs₀]; exact ⟨rfl, rfl, rfl⟩)
  obtain ⟨s₂, hact₂, hrest⟩ := Option.bind_eq_some_iff.mp hperform
  obtain ⟨s₃, hact₃, hrest⟩ := Option.bind_eq_some_iff.mp hrest
  obtain ⟨s₄, hact₄, hlast⟩ := Option.bind_eq_some_iff.mp hrest
  obtain rfl := Option.some.inj hlast
  have hreach := startup_lift (startup_lift (startup_lift hreach₁ hact₂ nofun nofun) hact₃ nofun
    nofun) hact₄ nofun nofun
  refine ⟨s₄, hreach, inv_act (inv_act (inv_act hinv₁ hact₂) hact₃) hact₄, hconfig.trans ?_, hfail,
    hcutter.trans ?_, htotal, hcuts.trans ?_, hfreed.trans ?_⟩ <;> rw [← hs₀]
  simp [hfec]

/-- `makeSlice` waits for the data in the first slot. -/
theorem exists_waiting (hvalid : ValidConfig config) (hfec : config.fec = true) (hn : 0 < n)
    (hle : n ≤ config.blockSize * 4096) :
    ∃ s, (startupSystem config).Reachable ⟨s, .choose, .consume, false⟩ ∧ s.config = config ∧
      s.failure = none ∧ s.cutter = .consumeData 0 ∧ s.data.Holds s.dataBufSize n 0 := by
  obtain ⟨s, hreach, hinv, hconfig, hfail, hcutter, htotal, hcuts, hfreed⟩ :=
    exists_read hvalid hfec hn hle
  have hallocated : s.allocated = 0 := by
    have hallocated : s.allocated = s.cuts.length + s.cutter.making := hinv.ring.allocated_eq
    rw [hcuts, hcutter] at hallocated
    exact hallocated
  have hslots : s.freeSlicesPc.Holds 2 (2 + s.freed) s.allocated := hinv.ring.freeSlices
  rw [hfreed, hallocated] at hslots
  have hact₁ : act s .cutter = some { s with cutter := .consumedSlot } := by
    simp only [act, if_pos hfail, cutterStep, hcutter, hslots.pcConsume_eq]
    rw [if_pos (.inl (by omega))]
    rfl
  have hinv₁ := inv_act hinv hact₁
  have hreach₁ := startup_lift hreach hact₁ (by simp) (by simp [hcutter])
  have hpos : pcGetConsumerPosition s.freeSlicesPc = 0 := by
    rw [hslots.consumerPosition_eq]
  have hfree : (s.slices 0).state = .free := by
    have hfree := hinv₁.ring.slot_free rfl
    simpa [State.ring, hcuts, Slice.core] using hfree
  have hact₂ : act { s with cutter := .consumedSlot } .cutter = some ({ s with
      freeSlicesPc := pcConsumed s.freeSlicesPc 1
      allocated := s.allocated + 1
      cutter := .consumeData 0 }.setSlice 0 (.zero (s.slices 0).fecData)) := by
    rw [act, if_pos (by exact hfail)]
    simp only [cutterStep, hpos, hfree, if_true]
  have hdata : s.data.Holds s.dataBufSize s.readTotal s.cuts.sum := hinv.ring.data
  rw [htotal, hcuts] at hdata
  exact ⟨_, startup_lift hreach₁ hact₂ (by simp) (by simp), hconfig, hfail, rfl, hdata⟩

/-- A slice that does not fit. -/
theorem not_sliceFits {slice : Slice}
    (hblocks : getSliceBlocks slice s.config = sliceLimit s.config.fecStripes.toNat + 1) :
    ¬ SliceFits s slice := by
  rintro ⟨hle, hstripes, -⟩
  rw [hblocks] at hle hstripes
  rcases Nat.eq_zero_or_pos s.config.fecStripes.toNat with hzero | hpos
  · rw [hzero, sliceLimit, if_pos rfl] at hle
    omega
  · have hfirst := (stripeBlocks_le_iff hpos).mp (hstripes 0 hpos)
    unfold sliceLimit at hle hfirst
    rw [if_neg hpos.ne'] at hle hfirst
    omega

/-- The first slice size is written before anything limits it. -/
theorem choose_step (hfail : s.failure = none) (size : SizePc)
    (hnonneg : 0 ≤ firstSliceSize s.config) :
    ∃ config' pc, startupAct ⟨s, .choose, size, false⟩ .net =
        some ⟨{ s with config := config' }, pc, size, false⟩ ∧
      (config'.sliceSize : ℤ) = firstSliceSize s.config ∧ config'.blockSize = s.config.blockSize ∧
      config'.fecStripes = s.config.fecStripes ∧ config'.fec = s.config.fec := by
  rw [startupAct_net ⟨hfail, rfl⟩ (by simp)]
  simp only [startStep, withSize_of_nonneg hnonneg]
  split
  · exact ⟨_, _, rfl, Int.toNat_of_nonneg hnonneg, rfl, rfl, rfl⟩
  · exact ⟨_, _, rfl, Int.toNat_of_nonneg hnonneg, rfl, rfl, rfl⟩

/-- `makeSlice` finds `n` bytes waiting. -/
theorem startupAct_consume {pc : StartPc} (hfail : s.failure = none)
    (hcutter : s.cutter = .consumeData i)
    (hwait : pcConsume s.data (10 * s.config.blockSize) = some n) :
    startupAct ⟨s, pc, .consume, false⟩ .cutter = some ⟨s, pc, .compare n, false⟩ := by
  simp only [startupAct, hfail, and_self, if_true, hcutter, sizeStep, hwait, Option.map_some]

/-- `makeSlice` takes all that is waiting if it fits into the slice size that it reads. -/
theorem cut_waiting {pc : StartPc}
    (hreach : (startupSystem config).Reachable ⟨s, pc, .consume, false⟩)
    (hfail : s.failure = none) (hfec : s.config.fec = true) (hcutter : s.cutter = .consumeData i)
    (hwait : pcConsume s.data (10 * s.config.blockSize) = some n)
    (hle : (n : ℤ) ≤ sizeBytes s.config) (hdvd : s.config.blockSize ∣ n) :
    ∃ t, (startupSystem config).Reachable t ∧ t.sender.cutter = .encode i ∧
      t.sender.config = s.config ∧ (t.sender.slices i).bytes = n := by
  have hact₁ : startupAct ⟨s, pc, .consume, false⟩ .cutter =
      some ⟨s, pc, .compare n, false⟩ := startupAct_consume hfail hcutter hwait
  have hact₂ : startupAct ⟨s, pc, .compare n, false⟩ .cutter =
      some ⟨s.cut i n, pc, .consume, false⟩ := by
    simp only [startupAct, hfail, and_self, if_true, hcutter, sizeStep]
    rw [if_neg (not_lt.mpr hle)]
  have hbytes : ((s.cut i n).slices i).bytes = n := by
    simp only [State.cut, State.setSlice, Function.update_self]
    split
    · rw [Nat.mod_eq_zero_of_dvd hdvd, Nat.sub_zero]
    · rfl
  obtain ⟨s', hact₃, hcutter', hconfig', hbytes'⟩ : ∃ s', act (s.cut i n) .cutter = some s' ∧
      s'.cutter = .encode i ∧ s'.config = s.config ∧ (s'.slices i).bytes = n := by
    refine ⟨{ s.cut i n with
      data := pcConsumed s.data ((s.cut i n).slices i).bytes
      cuts := s.cuts ++ [((s.cut i n).slices i).bytes]
      slices := Function.update (s.cut i n).slices i { (s.cut i n).slices i with state := .new }
      cutter := .encode i }, ?_, rfl, rfl, ?_⟩
    · rw [act, if_pos (by exact hfail)]
      exact congrArg some (if_pos (by exact hfec))
    · dsimp only
      rw [Function.update_self]
      exact hbytes
  have hreach₂ := (hreach.step ⟨_, hact₁⟩).step ⟨_, hact₂⟩
  exact ⟨_, startup_lift hreach₂ hact₃ (by simp) (fun _ _ => by simp [State.cut, State.setSlice]),
    hcutter', hconfig', hbytes'⟩

/-- `fecMain` waits for its first slice when the first slice size is written and not yet
limited. -/
theorem exists_chosen (hvalid : ValidConfig config) (hfec : config.fec = true)
    (hnonneg : 0 ≤ firstSliceSize config) (hn : 10 ≤ n) (hle : n ≤ 4096) :
    ∃ s pc, (startupSystem config).Reachable ⟨s, pc, .consume, false⟩ ∧ s.failure = none ∧
      s.cutter = .consumeData 0 ∧ s.config.fec = true ∧
      s.config.fecStripes = config.fecStripes ∧ s.config.blockSize = config.blockSize ∧
      sizeBytes s.config = toInt (config.blockSize * firstSliceSize config) ∧
      pcConsume s.data (10 * s.config.blockSize) = some (config.blockSize * n) := by
  have hpos := hvalid.blockSize_pos
  obtain ⟨s, hreach, hconfig, hfail, hcutter, hdata⟩ :=
    exists_waiting (n := config.blockSize * n) hvalid hfec (Nat.mul_pos hpos (by omega))
      (Nat.mul_le_mul_left _ hle)
  subst hconfig
  obtain ⟨config', pc, hact, hsize, hblock, hstripes, hfec'⟩ := choose_step hfail .consume hnonneg
  refine ⟨_, pc, hreach.step ⟨_, hact⟩, hfail, hcutter, hfec'.trans hfec, hstripes, hblock, ?_, ?_⟩
  · rw [sizeBytes, hsize, hblock]
  · dsimp only
    rw [hdata.pcConsume_eq, hblock, Nat.sub_zero, Nat.mul_comm 10,
      if_pos (.inl (Nat.mul_le_mul_left _ hn))]

/-- Then it cuts a slice that is too large. -/
theorem exists_overrun (hvalid : ValidConfig config) (hfec : config.fec = true)
    (hnonneg : 0 ≤ firstSliceSize config)
    (hlarge : (config.blockSize : ℤ) * (sliceLimit config.fecStripes.toNat + 1) ≤
      toInt (config.blockSize * firstSliceSize config)) :
    ∃ t, (startupSystem config).Reachable t ∧ t.sender.cutter = .encode 0 ∧
      ¬ SliceFits t.sender (t.sender.slices 0) := by
  have hpos := hvalid.blockSize_pos
  have hlimit := sliceLimit_le config.fecStripes.toNat
  have hmax : Protocol.maxSliceSize = 1024 := rfl
  have hten : 10 ≤ sliceLimit config.fecStripes.toNat := le_sliceLimit (by omega)
  obtain ⟨s, pc, hreach, hfail, hcutter, hfec', hstripes, hblock, hsize, hwait⟩ :=
    exists_chosen (n := sliceLimit config.fecStripes.toNat + 1) hvalid hfec hnonneg (by omega)
      (by omega)
  obtain ⟨t, hreach', hpc, hsame, hbytes⟩ := cut_waiting hreach hfail hfec' hcutter hwait
    (by rw [hsize]; exact_mod_cast hlarge) (by rw [hblock]; exact Nat.dvd_mul_right ..)
  refine ⟨t, hreach', hpc, not_sliceFits ?_⟩
  rw [getSliceBlocks, hbytes, hsame, hblock, hstripes]
  rw [Nat.add_sub_assoc hpos, Nat.mul_add_div hpos, Nat.div_eq_of_lt (by omega), Nat.add_zero]

/-- A negative first slice size is written as any other, and so is a negative product. -/
theorem exists_negative (hvalid : ValidConfig config) (hfec : config.fec = true)
    (hneg : firstSliceSize config < 0 ∨ toInt (config.blockSize * firstSliceSize config) < 0) :
    ∃ t, (startupSystem config).Reachable t ∧ t.negative = true := by
  have hpos := hvalid.blockSize_pos
  by_cases hfirst : firstSliceSize config < 0
  · obtain ⟨s, hreach, hconfig, hfail, -⟩ := exists_waiting (n := 1) hvalid hfec (by omega) (by omega)
    subst hconfig
    have hchoose : startupAct ⟨s, .choose, .consume, false⟩ .net =
        some ⟨s, .choose, .consume, true⟩ :=
      (startupAct_net ⟨hfail, rfl⟩ (by simp)).trans (congrArg some (if_pos hfirst))
    exact ⟨_, hreach.step ⟨_, hchoose⟩, rfl⟩
  · obtain ⟨s, pc, hreach, hfail, hcutter, -, -, -, hsize, hwait⟩ :=
      exists_chosen (n := 10) hvalid hfec (not_lt.mp hfirst) le_rfl (by omega)
    have hproduct : sizeBytes s.config < 0 := hsize.trans_lt (hneg.resolve_left hfirst)
    have hact : ∀ size, startupAct ⟨s, pc, size, false⟩ .cutter = sizeStep ⟨s, pc, size, false⟩ 0 := by
      intro size
      simp only [startupAct, hfail, hcutter, and_self, if_true]
    have hcompare : startupAct ⟨s, pc, .compare (config.blockSize * 10), false⟩ .cutter =
        some ⟨s, pc, .limit, false⟩ := by
      apply (hact _).trans
      simp only [sizeStep]
      rw [if_pos (by omega)]
    have hlimit : startupAct ⟨s, pc, .limit, false⟩ .cutter = some ⟨s, pc, .limit, true⟩ :=
      (hact _).trans (congrArg some (if_pos hproduct))
    exact ⟨_, ((hreach.step ⟨_, startupAct_consume hfail hcutter hwait⟩).step ⟨_, hcompare⟩).step
      ⟨_, hlimit⟩, rfl⟩

/-- The size that `netSenderMain` takes first: the default if there is one. -/
def Settings.firstSize (c : Settings) : ℤ :=
  if c.defaultSliceSize = 0 then toInt (c.fecStripesize * c.fecStripes) else c.defaultSliceSize

/-- The first size is the one that the settings lead to. -/
theorem firstSize_eq (hc : CommandSettings c) (hfec : c.fec = true) :
    firstSliceSize (c.netConfig .doubling false) = c.firstSize := by
  have hmode : (c.netConfig .doubling false).fec = true := hfec
  have hbounds := hc.bounds
  unfold Settings.firstSize
  simp only [firstSliceSize, hmode, if_true]
  by_cases hzero : c.defaultSliceSize = 0
  · have hnone : (c.netConfig .doubling false).defaultSliceSize = 0 := by
      change c.defaultSliceSize.toNat = 0
      omega
    rw [if_pos hnone, if_pos hzero]
    rfl
  · have hmin := (hbounds.default hzero).1
    have hpos := hbounds.min_pos
    have hsome : (c.netConfig .doubling false).defaultSliceSize ≠ 0 := by
      change c.defaultSliceSize.toNat ≠ 0
      omega
    rw [if_neg hsome, if_neg hzero]
    exact Int.toNat_of_nonneg (by omega)

/-- The settings of `--fec`. -/
def fecSettings (stripes redundancy stripesize : ℕ) : Settings :=
  doTransfer (startSender
    ((readOptions [.fec stripes redundancy stripesize]).getD .default) false) true

/-- The settings are those of a command line. -/
theorem fecSettings_spec (stripes redundancy stripesize : ℕ) :
    CommandSettings (fecSettings stripes redundancy stripesize) :=
  ⟨[.fec stripes redundancy stripesize], false, true, rfl⟩

end Overrun

end Udpcast.Sender
