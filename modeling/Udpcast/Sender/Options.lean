import Udpcast.Sender.Steps

/-!
# Options of the sender

The command line of `udp-sender` as far as it bears on a transfer: how `main` reads the
options one after the other, adjusts the slice sizes, and how `startSender` and
`doTransfer` settle the mode.
-/

namespace Udpcast.Sender

/-- The options, with their numbers as `atoi`, `atol` and `strtoul` return them. -/
inductive SenderOption
  | async
  | halfDuplex
  | fullDuplex
  | streaming
  | maxBitrate
  | blockSize (n : ℕ)
  | minSliceSize (n : ℤ)
  | defaultSliceSize (n : ℤ)
  | maxSliceSize (n : ℤ)
  | fec (stripes redundancy stripesize : ℕ)
  | rehelloOffset (n : ℤ)
  | retriesUntilDrop (n : ℤ)

/-- The fields of `net_config` that the options set. -/
structure Settings where
  async : Bool
  sn : Bool
  /-- `FLAG_NOTSN`. -/
  notSn : Bool
  fec : Bool
  streaming : Bool
  nrGovernors : ℕ
  blockSize : ℤ
  minSliceSize : ℤ
  defaultSliceSize : ℤ
  maxSliceSize : ℤ
  fecStripes : ℤ
  fecRedundancy : ℤ
  fecStripesize : ℤ
  rehelloOffset : ℤ
  retriesUntilDrop : ℤ

/-- The settings before the first option. -/
def Settings.default : Settings where
  async := false
  sn := false
  notSn := false
  fec := false
  streaming := false
  nrGovernors := 0
  blockSize := 1456
  minSliceSize := 16
  defaultSliceSize := 0
  maxSliceSize := 1024
  fecStripes := 0
  fecRedundancy := 0
  fecStripesize := 0
  rehelloOffset := 50
  retriesUntilDrop := 200

/-- One turn of the loop over the options; `none` where `main` gives up. What is stored is an
`int`. -/
def readOption (c : Settings) : SenderOption → Option Settings
  | .async => some { c with async := true, sn := true }
  | .halfDuplex => some { c with sn := false, notSn := true }
  | .fullDuplex => some { c with sn := true }
  | .streaming => some { c with streaming := true }
  | .maxBitrate => some { c with nrGovernors := c.nrGovernors + 1 }
  | .blockSize n =>
    let n := toInt n - (toInt n).tmod 4
    if n ≤ 0 then none else some { c with blockSize := n }
  | .minSliceSize n =>
    if Protocol.maxSliceSize < n then none else some { c with minSliceSize := n }
  | .defaultSliceSize n => some { c with defaultSliceSize := n }
  | .maxSliceSize n =>
    if Protocol.maxSliceSize < n then none else some { c with maxSliceSize := n }
  | .fec stripes redundancy stripesize =>
    some { c with
      fec := true
      fecStripes := toInt stripes, fecRedundancy := toInt redundancy
      fecStripesize := toInt stripesize }
  | .rehelloOffset n => some { c with rehelloOffset := toInt n }
  | .retriesUntilDrop n => some { c with retriesUntilDrop := n }

/-- The adjustment of the slice sizes after the loop. -/
def adjustSliceSizes (c : Settings) : Settings :=
  let minSliceSize := if c.minSliceSize < 1 then 1 else c.minSliceSize
  let maxSliceSize := if c.maxSliceSize < minSliceSize then minSliceSize else c.maxSliceSize
  let defaultSliceSize :=
    if c.defaultSliceSize ≠ 0 then
      let n := if c.defaultSliceSize < minSliceSize then minSliceSize else c.defaultSliceSize
      if maxSliceSize < n then maxSliceSize else n
    else c.defaultSliceSize
  { c with
    minSliceSize := minSliceSize, maxSliceSize := maxSliceSize
    defaultSliceSize := defaultSliceSize }

/-- `main` up to the call of `startSender`. -/
def readOptions (options : List SenderOption) : Option Settings :=
  (options.foldlM readOption .default).bind fun c =>
    if c.async = true ∧ c.nrGovernors = 0 then none else some (adjustSliceSizes c)

/-- The mode that `startSender` chooses if the options leave it open. -/
def startSender (c : Settings) (isFullDuplex : Bool) : Settings :=
  if c.sn = false ∧ c.notSn = false ∧ isFullDuplex = true then { c with sn := true } else c

/-- `doTransfer` takes back what a receiver of the old generation does not know. -/
def doTransfer (c : Settings) (newGen : Bool) : Settings :=
  if newGen then c else { c with sn := false, async := false }

/-- The configuration of `netSenderMain`. Nothing initialises `discovery`, and `sliceSize`
starts at 16. -/
def Settings.netConfig (c : Settings) (discovery : Discovery) (bigEndian : Bool) : NetConfig where
  async := c.async
  sn := c.sn
  fec := c.fec
  streaming := c.streaming
  blockSize := c.blockSize.toNat
  sliceSize := 16
  maxSliceSize := c.maxSliceSize.toNat
  defaultSliceSize := c.defaultSliceSize.toNat
  discovery := discovery
  fecStripes := c.fecStripes
  fecRedundancy := c.fecRedundancy
  fecStripesize := c.fecStripesize
  rehelloOffset := c.rehelloOffset
  retriesUntilDrop := c.retriesUntilDrop
  bigEndian := bigEndian

section Equations

-- Modules that do not import one another unfold these definitions. The mark, which ends with
-- the section, has Lean state their equations here, so that all of them use the same ones.
attribute [local simp] Settings.netConfig

end Equations

/-- The configurations with which a command line starts a transfer. -/
def CommandLine (config : NetConfig) : Prop :=
  ∃ options isFullDuplex newGen discovery bigEndian,
    (readOptions options).map (fun c => (doTransfer (startSender c isFullDuplex) newGen).netConfig
      discovery bigEndian) = some config

/-- The slice sizes are in order after `adjustSliceSizes`. -/
theorem adjustSliceSizes_spec (c : Settings) :
    1 ≤ (adjustSliceSizes c).minSliceSize ∧
      (adjustSliceSizes c).minSliceSize ≤ (adjustSliceSizes c).maxSliceSize := by
  unfold adjustSliceSizes
  dsimp only
  constructor
  · split <;> omega
  · split_ifs <;> omega

/-- The numbers from which a sender computes its slice sizes are at least `n`: the maximum, and
in FEC mode 128 blocks for each stripe and the size of the first slices, in blocks and in
bytes. -/
structure SizesFrom (n : ℤ) (config : NetConfig) : Prop where
  maxSliceSize : n ≤ config.maxSliceSize
  stripes : config.fec = true → n ≤ toInt (128 * config.fecStripes)
  default : config.fec = true → config.defaultSliceSize ≠ 0 →
    n ≤ toInt (config.blockSize * config.defaultSliceSize)
  product : config.fec = true → config.defaultSliceSize = 0 →
    n ≤ toInt (config.fecStripesize * config.fecStripes) ∧
      n ≤ toInt (config.blockSize * toInt (config.fecStripesize * config.fecStripes))

section SizesFrom

variable {config : NetConfig}

/-- The first slices are not empty. -/
theorem firstSliceSize_pos (h : SizesFrom 1 config) : 0 < firstSliceSize config := by
  unfold firstSliceSize
  split
  · rename_i hdefault
    split
    · rename_i hfec
      have hproduct := (h.product hfec hdefault).1
      omega
    · split_ifs <;> omega
  · omega

/-- Nor is the size that is chosen. -/
theorem chosenSliceSize_pos (h : SizesFrom 1 config) : 0 < chosenSliceSize config := by
  unfold chosenSliceSize
  split
  · rename_i hlimit
    exact h.stripes hlimit.2.1
  · exact firstSliceSize_pos h

/-- Nor the maximum. -/
theorem limitedMaxSliceSize_pos (h : SizesFrom 1 config) : 0 < limitedMaxSliceSize config := by
  unfold limitedMaxSliceSize
  split
  · rename_i hlimit
    exact h.stripes hlimit.1
  · have hmax := h.maxSliceSize
    omega

/-- Then `netSenderMain` enters its loop with a positive slice size and a positive maximum. -/
theorem initSliceSize_pos (h : SizesFrom 1 config) :
    0 < (initSliceSize config).sliceSize ∧ 0 < (initSliceSize config).maxSliceSize := by
  have hmax := limitedMaxSliceSize_pos h
  have hsize : 0 < limitedSliceSize config := by
    unfold limitedSliceSize
    split
    · exact hmax
    · exact chosenSliceSize_pos h
  exact ⟨Int.pos_iff_toNat_pos.mp hsize, Int.pos_iff_toNat_pos.mp hmax⟩

end SizesFrom

end Udpcast.Sender
