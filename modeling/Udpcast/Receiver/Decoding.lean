import Udpcast.Receiver.Landing

/-!
# Decoding a slice

When the data blocks that have arrived are in the ring, and as many FEC blocks in the pool as are
missing in each stripe, `fecMain` restores the whole slice, and changes nothing else in the ring.
-/

namespace Udpcast

open Fec (Gf Block)
open Protocol

namespace Stream

variable {st : Stream} {n b : ℕ} {payload : List Gf} {block : Block}

/-- The bytes of FEC block `b` of slice `n`. -/
def IsFecBlock (st : Stream) (n b : ℕ) (block : Block) : Prop :=
  b < st.redundancy * st.stripes ∧ ∀ x < st.blockSize, block x =
    ∑ j ∈ Finset.range (Receiver.stripeBlocks (st.blocks n) st.stripes (b % st.stripes)),
      Fec.coeff (b / st.stripes) j * st.block n (b % st.stripes + j * st.stripes) x

/-- A stripe has at most 128 data blocks. -/
theorem Valid.stripeBlocks_le (hst : st.Valid) (hr : 0 < st.redundancy) (n k : ℕ) :
    Receiver.stripeBlocks (st.blocks n) st.stripes k ≤ 128 := by
  have hstripes := hst.stripes_pos hr
  have hsize : st.size n ≤ 128 * st.stripes * st.blockSize := by
    rcases Nat.lt_or_ge n st.cuts.length with hlt | hge
    · rw [size, List.getD_eq_getElem _ _ hlt]
      exact hst.stripe_le hr _ (List.getElem_mem hlt)
    · rw [st.size_of_ge hge]
      exact Nat.zero_le _
  have hblocks : st.blocks n ≤ 128 * st.stripes := by
    have hpos := hst.blockSize_pos
    unfold blocks
    rw [Nat.div_le_iff_le_mul_add_pred hpos, Nat.mul_comm st.blockSize]
    omega
  by_contra hlt
  have hrow := (Receiver.row_lt_stripeBlocks hstripes).mp (not_le.mp hlt)
  omega

/-- A message carries the bytes of a FEC block if its stripe has a data block. -/
theorem Valid.isFecBlock (hst : st.Valid) (hb : b < st.redundancy * st.stripes)
    (hstripe : b % st.stripes < st.blocks n) (hpayload : st.IsFecPayload n b payload)
    (hblock : ∀ x < st.blockSize, block x = payload.getD x (.ofNat 0)) :
    st.IsFecBlock n b block := by
  have hr : 0 < st.redundancy := Nat.pos_of_mul_pos_right (Nat.zero_lt_of_lt hb)
  have hstripes := hst.stripes_pos hr
  obtain ⟨junk, fec, hencode, rfl⟩ := hpayload
  have hpos : 0 < Receiver.stripeBlocks (st.blocks n) st.stripes (b % st.stripes) := by
    rw [Receiver.row_lt_stripeBlocks hstripes]
    omega
  obtain ⟨fec', hencode', hfec⟩ := Fec.fecEncode_eq (Fec.fecInit_ready .zero) (b := st.blockSize)
    hpos (hst.stripeBlocks_le hr n _) hst.redundancy_le
    (fun j => st.block n (b % st.stripes + j * st.stripes)) junk
  obtain rfl := Option.some.inj (hencode.symm.trans hencode')
  have hrow : b / st.stripes < st.redundancy :=
    Nat.div_lt_of_lt_mul (by rwa [Nat.mul_comm])
  refine ⟨hb, fun x hx => ?_⟩
  rw [hblock x hx, List.getD_eq_getElem _ _ (by simpa using hx), List.getElem_map,
    List.getElem_range]
  exact hfec _ hrow x hx

end Stream

namespace Receiver

variable {st : Stream} {s s' : State} {i b b' k n x x' : ℕ}

/-! ## A slice in the ring -/

/-- Slot `i` has slice `n` of the stream, at its place in the ring. -/
structure Seated (st : Stream) (s : State) (i n : ℕ) : Prop where
  valid : st.Valid
  data : n < st.cuts.length
  blockSize : s.config.blockSize = st.blockSize
  bufSize : s.dataBufSize = st.blockSize * 4096
  sliceNo : (s.slices i).sliceNo = n
  base : (s.slices i).base = st.start n % s.dataBufSize

/-- Address `c` is in block `b` of the slice in slot `i`. -/
def InBlock (s : State) (i b c : ℕ) : Prop :=
  adr s (s.slices i) b ≤ c ∧ c < adr s (s.slices i) b + s.config.blockSize

instance (s : State) (i b c : ℕ) : Decidable (InBlock s i b c) :=
  inferInstanceAs (Decidable (_ ∧ _))

section Seated

variable (h : Seated st s i n)
include h

/-- A byte of a block is at its place in the stream, modulo the ring. -/
theorem Seated.cell (hx : x < st.blockSize) :
    adr s (s.slices i) b + x = (st.start n + b * st.blockSize + x) % s.dataBufSize := by
  have hdvd : st.blockSize ∣ st.start n + b * st.blockSize :=
    (h.valid.dvd_start h.data).add (Nat.dvd_mul_left ..)
  have hend := block_inside hdvd (m := 4096) (by decide)
  rw [← h.bufSize] at hend
  rw [adr, h.base, h.blockSize, Nat.mod_add_mod]
  exact (mod_add_of_lt (by omega)).symm

omit h in
/-- A byte of a block is within the largest slice. -/
theorem block_span (hb : b < maxSliceSize) (hx : x < st.blockSize) :
    b * st.blockSize + x < st.blockSize * maxSliceSize := by
  have hle : (b + 1) * st.blockSize ≤ maxSliceSize * st.blockSize := Nat.mul_le_mul_right _ hb
  rw [Nat.succ_mul, Nat.mul_comm maxSliceSize] at hle
  omega

/-- The blocks of a slice do not overlap in the ring. -/
theorem Seated.cell_inj (hb : b < maxSliceSize) (hb' : b' < maxSliceSize) (hx : x < st.blockSize)
    (hx' : x' < st.blockSize)
    (heq : adr s (s.slices i) b + x = adr s (s.slices i) b' + x') : b = b' ∧ x = x' := by
  rw [h.cell hx, h.cell hx'] at heq
  have hspan := block_span hb hx
  have hspan' := block_span hb' hx'
  have hle : st.blockSize * maxSliceSize ≤ s.dataBufSize := by
    rw [h.bufSize]
    exact Nat.mul_le_mul_left _ (by decide)
  have hsame : b * st.blockSize + x = b' * st.blockSize + x' := by
    have hoffset := eq_of_mod_eq heq (by omega) (by omega)
    omega
  have hdiv := congrArg (· / st.blockSize) hsame
  have hpos := h.valid.blockSize_pos
  simp only [Nat.mul_comm _ st.blockSize, Nat.mul_add_div hpos, Nat.div_eq_of_lt hx,
    Nat.div_eq_of_lt hx', Nat.add_zero] at hdiv
  subst hdiv
  exact ⟨rfl, by omega⟩

/-- The addresses of a block of the slice, counted from its beginning. -/
theorem Seated.inBlock_iff {c : ℕ} :
    InBlock s i b c ↔ ∃ x < st.blockSize, c = adr s (s.slices i) b + x := by
  unfold InBlock
  rw [h.blockSize]
  constructor
  · rintro ⟨hle, hlt⟩
    exact ⟨_, by omega, (Nat.add_sub_cancel' hle).symm⟩
  · rintro ⟨x, hx, heq⟩
    omega

/-- What `fec_decode_one_stripe` finds after it has padded the last block. -/
theorem Seated.padLastBlock_cell (hbytes : (s.slices i).bytes = st.size n) (hb : b < st.blocks n)
    (hx : x < st.blockSize) : padLastBlock s (s.slices i) (adr s (s.slices i) b + x) =
      if b * st.blockSize + x < st.size n then s.dataBuffer (adr s (s.slices i) b + x)
      else .ofNat 0 := by
  have hmax := h.valid.blocks_le n
  have hblocks : getSliceBlocks (s.slices i) s.config = st.blocks n := by
    rw [getSliceBlocks, hbytes, h.blockSize]
    rfl
  unfold padLastBlock
  rw [hbytes, hblocks, h.blockSize]
  obtain ⟨hzero, hsize⟩ | ⟨hne, m, hm, hsize⟩ := h.valid.size_eq n
  · have hinside : b * st.blockSize + x < st.size n := by
      have hle : (b + 1) * st.blockSize ≤ st.blocks n * st.blockSize := Nat.mul_le_mul_right _ hb
      rw [Nat.succ_mul] at hle
      omega
    simp only [hzero, ne_eq, not_true_eq_false, if_false, hinside, if_true]
  · simp only [hne, ne_eq, not_false_eq_true, if_true, hm, Nat.add_sub_cancel]
    -- Only the last block is padded, behind the last byte of the slice.
    by_cases hlast : b = m
    · subst hlast
      by_cases hinside : x < st.size n % st.blockSize
      · rw [if_neg (by omega), if_pos (by omega)]
      · rw [if_pos (by omega), if_neg (by omega)]
    · have hbm : b < m := by omega
      have hle : (b + 1) * st.blockSize ≤ m * st.blockSize := Nat.mul_le_mul_right _ hbm
      rw [Nat.succ_mul] at hle
      rw [if_neg, if_pos (by omega)]
      rintro ⟨hge, hlt⟩
      obtain ⟨x', hx', heq⟩ : ∃ x' < st.blockSize,
          adr s (s.slices i) b + x = adr s (s.slices i) m + x' :=
        ⟨_, by omega, (Nat.add_sub_cancel' (by omega)).symm⟩
      exact hlast (h.cell_inj (by omega) (by omega) hx hx' heq).1

/-- Nothing outside the slice is padded. -/
theorem Seated.padLastBlock_other (hbytes : (s.slices i).bytes = st.size n) {c : ℕ}
    (hc : ∀ b < st.blocks n, ¬ InBlock s i b c) : padLastBlock s (s.slices i) c = s.dataBuffer c := by
  have hblocks : getSliceBlocks (s.slices i) s.config = st.blocks n := by
    rw [getSliceBlocks, hbytes, h.blockSize]
    rfl
  unfold padLastBlock
  rw [hbytes, hblocks]
  simp only
  split
  · rename_i hne
    refine if_neg fun hpad => ?_
    obtain ⟨hzero, -⟩ | ⟨-, m, hm, -⟩ := h.valid.size_eq n
    · exact hne (h.blockSize ▸ hzero)
    · refine hc (st.blocks n - 1) (by omega) ⟨?_, hpad.2⟩
      exact (Nat.le_add_right _ _).trans hpad.1
  · rfl

end Seated

/-! ## FEC blocks -/

/-- The descriptor has the address of a FEC block of slice `n`. -/
def HasFecBlock (st : Stream) (blockData : ℕ → Block) (n : ℕ) (desc : FecDesc) : Prop :=
  ∃ a, desc.adr = some a ∧ st.IsFecBlock n desc.fecBlockNo (blockData a)

/-- A block whose address a descriptor has is held by the slice. -/
theorem Slice.holds_ne_zero {slice : Slice} {a k j : ℕ} (hk : k < slice.fecStripes)
    (hj : j < slice.fecBlocks k)
    (hadr : (slice.fecDescs (k + j * slice.fecStripes)).adr = some a) : slice.holds a ≠ 0 := by
  intro hzero
  have hrow := Finset.sum_eq_zero_iff.mp hzero k (Finset.mem_range.mpr hk)
  have hnone := Finset.sum_eq_zero_iff.mp hrow j (Finset.mem_range.mpr hj)
  rw [FecDesc.holds_of_adr hadr, if_pos rfl] at hnone
  cases hnone

/-- No block of the pool is in two descriptors of the slice. -/
theorem Slice.adr_inj {slice : Slice} {a k k' j j' : ℕ} (h : slice.holds a ≤ 1)
    (hk : k < slice.fecStripes) (hj : j < slice.fecBlocks k)
    (hk' : k' < slice.fecStripes) (hj' : j' < slice.fecBlocks k')
    (hadr : (slice.fecDescs (k + j * slice.fecStripes)).adr = some a)
    (hadr' : (slice.fecDescs (k' + j' * slice.fecStripes)).adr = some a) : k = k' ∧ j = j' := by
  by_contra hne
  unfold Slice.holds at h
  rw [Finset.sum_sigma'] at h
  have hmem : ∀ {k j}, k < slice.fecStripes → j < slice.fecBlocks k →
      (⟨k, j⟩ : Σ _ : ℕ, ℕ) ∈ (Finset.range slice.fecStripes).sigma fun k =>
        Finset.range (slice.fecBlocks k) := by
    intro k j hk hj
    rw [Finset.mem_sigma]
    exact ⟨Finset.mem_range.mpr hk, Finset.mem_range.mpr hj⟩
  have hpair : (⟨k, j⟩ : Σ _ : ℕ, ℕ) ≠ ⟨k', j'⟩ := by
    intro heq
    obtain ⟨hk, hj⟩ := Sigma.mk.inj_iff.mp heq
    exact hne ⟨hk, eq_of_heq hj⟩
  have hsubset : {(⟨k, j⟩ : Σ _ : ℕ, ℕ), ⟨k', j'⟩} ⊆ (Finset.range slice.fecStripes).sigma
      fun k => Finset.range (slice.fecBlocks k) := by
    intro p hp
    rcases Finset.mem_insert.mp hp with rfl | hp
    · exact hmem hk hj
    · rw [Finset.mem_singleton.mp hp]
      exact hmem hk' hj'
  have htwo := (Finset.sum_le_sum_of_subset hsubset).trans h
  rw [Finset.sum_pair hpair, FecDesc.holds_of_adr hadr, FecDesc.holds_of_adr hadr', if_pos rfl]
    at htwo
  exact absurd htwo (by decide)

/-- The memory after `fec_decode_one_stripe`. -/
structure Repairs (st : Stream) (s : State) (i n stripe : ℕ) (mem : ℕ → Gf) (blocks : ℕ → Block) :
    Prop where
  restored : ∀ b < st.blocks n, b % st.stripes = stripe → ∀ x < st.blockSize,
    mem (adr s (s.slices i) b + x) = st.block n b x
  kept : ∀ b < st.blocks n, b % st.stripes ≠ stripe → ∀ x < st.blockSize,
    b * st.blockSize + x < st.size n →
      mem (adr s (s.slices i) b + x) = s.dataBuffer (adr s (s.slices i) b + x)
  outside : ∀ c, (∀ b < st.blocks n, ¬ InBlock s i b c) → mem c = s.dataBuffer c
  pool : ∀ a, (∀ j < (s.slices i).fecBlocks stripe,
    ((s.slices i).fecDescs (stripe + j * st.stripes)).adr ≠ some a) → blocks a = s.blockData a

section Stripe

variable {stripe : ℕ}

/-- The blocks of a stripe and the FEC blocks that have been stored for it, as the codec sees
them. -/
structure Solvable (st : Stream) (s : State) (i n stripe : ℕ) : Prop extends Seated st s i n where
  full : (s.slices i).Full st
  stripe_lt : stripe < st.stripes
  redundant : 0 < st.redundancy
  received : ∀ b ∈ (s.slices i).map, b % st.stripes = stripe → ∀ x < st.blockSize,
    b * st.blockSize + x < st.size n → s.dataBuffer (adr s (s.slices i) b + x) = st.block n b x
  held : ∀ j < (s.slices i).fecBlocks stripe,
    HasFecBlock st s.blockData n ((s.slices i).fecDescs (stripe + j * st.stripes))

variable (h : Solvable st s i n stripe)
include h

/-- The stripes of the slice are those of the stream. -/
theorem Solvable.stripes_eq : (s.slices i).fecStripes = st.stripes :=
  (h.full.counted.stripes h.full.stripes_ne).1

/-- So is its size. -/
theorem Solvable.bytes_eq : (s.slices i).bytes = st.size n := by
  rw [h.full.counted.size (h.full.counted.stripes h.full.stripes_ne).2, h.sliceNo,
    Int.toNat_natCast]

/-- So is the number of its blocks. -/
theorem Solvable.blocks_eq : getSliceBlocks (s.slices i) s.config = st.blocks n := by
  rw [getSliceBlocks, h.bytes_eq, h.blockSize]
  rfl

/-- The rows of the stripe are the blocks of the slice that belong to it. -/
theorem Solvable.row_lt {j : ℕ} :
    j < stripeBlocks (st.blocks n) st.stripes stripe ↔ stripe + j * st.stripes < st.blocks n :=
  row_lt_stripeBlocks (by have := h.stripe_lt; omega)

/-- There are as many FEC blocks in the stripe as blocks are erased. -/
theorem Solvable.erased_length :
    (erasedBlocks (s.slices i) (st.blocks n) st.stripes stripe).length =
      (s.slices i).fecBlocks stripe := by
  have hstripe : stripe < (s.slices i).fecStripes := h.stripes_eq ▸ h.stripe_lt
  rw [erasedBlocks_length h.stripe_lt, h.full.full _ hstripe, h.full.counted.missing _ hstripe,
    h.sliceNo, Int.toNat_natCast, h.stripes_eq]

/-- Every FEC block of the stripe has its place in the pool. -/
theorem Solvable.no_null : ¬ ∃ j < (s.slices i).fecBlocks stripe,
    ((s.slices i).fecDescs (stripe + j * st.stripes)).adr = none := by
  rintro ⟨j, hj, hnone⟩
  obtain ⟨a, hadr, -⟩ := h.held j hj
  rw [hadr] at hnone
  cases hnone

/-- The FEC blocks of a stripe belong to different rows of the code. -/
theorem Solvable.rows_inj : Set.InjOn
    (fun j => ((s.slices i).fecDescs (stripe + j * st.stripes)).fecBlockNo / st.stripes)
    (Set.Iio ((s.slices i).fecBlocks stripe)) := by
  have hstripe : stripe < (s.slices i).fecStripes := h.stripes_eq ▸ h.stripe_lt
  intro j hj j' hj' heq
  have hmod := h.full.counted.congruent _ hstripe j hj
  have hmod' := h.full.counted.congruent _ hstripe j' hj'
  apply h.full.counted.distinct _ hstripe j hj j' hj'
  rw [h.stripes_eq] at hmod hmod' ⊢
  rw [← Nat.div_add_mod ((s.slices i).fecDescs (stripe + j * st.stripes)).fecBlockNo st.stripes,
    ← Nat.div_add_mod ((s.slices i).fecDescs (stripe + j' * st.stripes)).fecBlockNo st.stripes,
    hmod, hmod']
  exact congrArg (st.stripes * · + stripe) heq

/-- The rows of the FEC blocks are within the code. -/
theorem Solvable.row_of_desc {j : ℕ} (hj : j < (s.slices i).fecBlocks stripe) :
    ((s.slices i).fecDescs (stripe + j * st.stripes)).fecBlockNo / st.stripes < 128 := by
  obtain ⟨a, -, hb, -⟩ := h.held j hj
  have hrow := Nat.div_lt_of_lt_mul (hb.trans_eq (Nat.mul_comm _ _))
  exact hrow.trans_le h.valid.redundancy_le

/-- The codec finds the bytes of the data blocks that have arrived. -/
theorem Solvable.data_of_received {j x : ℕ}
    (hj : j < stripeBlocks (st.blocks n) st.stripes stripe)
    (hmap : stripe + j * st.stripes ∈ (s.slices i).map) (hx : x < st.blockSize) :
    padLastBlock s (s.slices i) (adr s (s.slices i) (stripe + j * st.stripes) + x) =
      st.block n (stripe + j * st.stripes) x := by
  rw [h.padLastBlock_cell h.bytes_eq (h.row_lt.mp hj) hx]
  split
  · rename_i hinside
    refine h.received _ hmap ?_ x hx hinside
    rw [Nat.add_mul_mod_self_right, Nat.mod_eq_of_lt h.stripe_lt]
  · rename_i houtside
    rw [Stream.block, if_neg houtside]

/-- The codec finds the bytes of the FEC blocks. -/
theorem Solvable.fec_of_desc {j x : ℕ} (hj : j < (s.slices i).fecBlocks stripe)
    (hx : x < st.blockSize) :
    s.blockData (((s.slices i).fecDescs (stripe + j * st.stripes)).adr.getD 0) x =
      ∑ c ∈ Finset.range (stripeBlocks (st.blocks n) st.stripes stripe),
        Fec.coeff (((s.slices i).fecDescs (stripe + j * st.stripes)).fecBlockNo / st.stripes) c *
          st.block n (stripe + c * st.stripes) x := by
  have hstripe : stripe < (s.slices i).fecStripes := h.stripes_eq ▸ h.stripe_lt
  have hmod := h.full.counted.congruent _ hstripe j hj
  rw [h.stripes_eq] at hmod
  obtain ⟨a, hadr, -, hblock⟩ := h.held j hj
  rw [hadr, Option.getD_some, hblock x hx, hmod]

/-- The codec restores the stripe. -/
theorem Solvable.decodes : ∃ out reduced, Fec.fecDecode fecTables s.config.blockSize
    (fun j x => padLastBlock s (s.slices i) (adr s (s.slices i) (stripe + j * st.stripes) + x))
    (stripeBlocks (st.blocks n) st.stripes stripe)
    (fun j => s.blockData (((s.slices i).fecDescs (stripe + j * st.stripes)).adr.getD 0))
    (fun j => ((s.slices i).fecDescs (stripe + j * st.stripes)).fecBlockNo / st.stripes)
    ((erasedBlocks (s.slices i) (st.blocks n) st.stripes stripe).getD · 0)
    ((s.slices i).fecBlocks stripe) = some (out, reduced) ∧
    ∀ j < stripeBlocks (st.blocks n) st.stripes stripe, ∀ x < st.blockSize,
      out j x = st.block n (stripe + j * st.stripes) x := by
  have hlength := h.erased_length
  have hget : ∀ j < (s.slices i).fecBlocks stripe,
      (erasedBlocks (s.slices i) (st.blocks n) st.stripes stripe).getD j 0 ∈
        erasedBlocks (s.slices i) (st.blocks n) st.stripes stripe := by
    intro j hj
    rw [List.getD_eq_getElem _ _ (hlength ▸ hj)]
    exact List.getElem_mem _
  have hmono : StrictMonoOn
      ((erasedBlocks (s.slices i) (st.blocks n) st.stripes stripe).getD · 0)
      (Set.Iio ((s.slices i).fecBlocks stripe)) := by
    intro j hj j' hj' hlt
    have hsorted : (erasedBlocks (s.slices i) (st.blocks n) st.stripes stripe).Pairwise (· < ·) :=
      List.pairwise_lt_range.filter _
    simp only [Set.mem_Iio, ← hlength] at hj hj'
    simp only [List.getD_eq_getElem _ _ hj, List.getD_eq_getElem _ _ hj']
    exact List.pairwise_iff_getElem.mp hsorted j j' hj hj' hlt
  rw [h.blockSize]
  refine Fec.fecDecode_spec (Fec.fecInit_ready .zero) (h.valid.stripeBlocks_le h.redundant n stripe)
    (fun j hj => h.row_of_desc hj) h.rows_inj hmono (fun j hj => ?_) (fun j hj hne x hx => ?_)
    fun j hj x hx => h.fec_of_desc hj hx
  · have hmem := (List.mem_filter.mp (hget j hj)).1
    exact List.mem_range.mp hmem
  · refine h.data_of_received hj ?_ hx
    by_contra hmap
    have hmem : j ∈ erasedBlocks (s.slices i) (st.blocks n) st.stripes stripe :=
      List.mem_filter.mpr ⟨List.mem_range.mpr hj, by simpa using hmap⟩
    obtain ⟨m, hm, heq⟩ := List.getElem_of_mem hmem
    apply hne m (hlength ▸ hm)
    rw [List.getD_eq_getElem _ _ hm, heq]

/-- The block of the stripe that the codec writes a byte of. -/
theorem Solvable.find_block {c : ℕ} :
    (∃ j, (List.range (stripeBlocks (st.blocks n) st.stripes stripe)).find? (fun j =>
      adr s (s.slices i) (stripe + j * st.stripes) ≤ c ∧
        c < adr s (s.slices i) (stripe + j * st.stripes) + s.config.blockSize) = some j ∧
      stripe + j * st.stripes < st.blocks n ∧ InBlock s i (stripe + j * st.stripes) c) ∨
    (List.range (stripeBlocks (st.blocks n) st.stripes stripe)).find? (fun j =>
      adr s (s.slices i) (stripe + j * st.stripes) ≤ c ∧
        c < adr s (s.slices i) (stripe + j * st.stripes) + s.config.blockSize) = none ∧
      ∀ b < st.blocks n, b % st.stripes = stripe → ¬ InBlock s i b c := by
  cases hfind : (List.range (stripeBlocks (st.blocks n) st.stripes stripe)).find? (fun j =>
      adr s (s.slices i) (stripe + j * st.stripes) ≤ c ∧
        c < adr s (s.slices i) (stripe + j * st.stripes) + s.config.blockSize) with
  | some j =>
    have hmem := List.mem_range.mp (List.mem_of_find?_eq_some hfind)
    have hinside : InBlock s i (stripe + j * st.stripes) c :=
      of_decide_eq_true (List.find?_some hfind :)
    exact .inl ⟨j, rfl, h.row_lt.mp hmem, hinside⟩
  | none =>
    refine .inr ⟨rfl, fun b hb hmod hinside => ?_⟩
    have hrow : stripe + b / st.stripes * st.stripes = b := by
      rw [← hmod, Nat.mul_comm]
      exact Nat.mod_add_div b st.stripes
    have hnone := List.find?_eq_none.mp hfind (b / st.stripes)
      (List.mem_range.mpr (h.row_lt.mpr (by rwa [hrow])))
    rw [hrow] at hnone
    exact hnone (decide_eq_true hinside)

/-- With as many FEC blocks as data blocks are missing, `fec_decode_one_stripe` restores its
stripe. -/
theorem Solvable.repairs : ∃ mem blocks, fecDecodeOneStripe s i stripe =
    .ok { s with dataBuffer := mem, blockData := blocks } ∧ Repairs st s i n stripe mem blocks := by
  obtain ⟨out, reduced, hdecode, hout⟩ := h.decodes
  have hmax := h.valid.blocks_le n
  have hadr : ∀ b, adr { s with dataBuffer := padLastBlock s (s.slices i) } (s.slices i) b =
      adr s (s.slices i) b := fun _ => rfl
  unfold fecDecodeOneStripe
  simp only [h.stripes_eq, h.blocks_eq, h.erased_length, ne_eq, not_true_eq_false, if_false,
    if_neg h.no_null, hadr, hdecode]
  refine ⟨_, _, rfl, ?_, ?_, ?_, ?_⟩
  · intro b hb hmod x hx
    obtain ⟨j, hfind, hj, hinside⟩ | ⟨-, hnone⟩ :=
      h.find_block (c := adr s (s.slices i) b + x)
    · obtain ⟨y, hy, heq⟩ := h.inBlock_iff.mp hinside
      obtain ⟨rfl, rfl⟩ := h.cell_inj (by omega) (by omega) hx hy heq
      simp only [hfind, Nat.add_sub_cancel_left]
      exact hout j (h.row_lt.mpr hj) x hx
    · exact absurd (h.inBlock_iff.mpr ⟨x, hx, rfl⟩) (hnone b hb hmod)
  · intro b hb hmod x hx hsize
    obtain ⟨j, -, hj, hinside⟩ | ⟨hfind, -⟩ := h.find_block (c := adr s (s.slices i) b + x)
    · obtain ⟨y, hy, heq⟩ := h.inBlock_iff.mp hinside
      obtain ⟨rfl, -⟩ := h.cell_inj (by omega) (by omega) hx hy heq
      rw [Nat.add_mul_mod_self_right, Nat.mod_eq_of_lt h.stripe_lt] at hmod
      exact absurd rfl hmod
    · simp only [hfind]
      rw [h.padLastBlock_cell h.bytes_eq hb hx, if_pos hsize]
  · intro c hc
    obtain ⟨j, -, hj, hinside⟩ | ⟨hfind, -⟩ := h.find_block (c := c)
    · exact absurd hinside (hc _ hj)
    · simp only [hfind]
      exact h.padLastBlock_other h.bytes_eq hc
  · intro a ha
    have hnone : (List.range ((s.slices i).fecBlocks stripe)).find? (fun j =>
        ((s.slices i).fecDescs (stripe + j * st.stripes)).adr = some a) = none := by
      rw [List.find?_eq_none]
      intro j hj hadr
      exact ha j (List.mem_range.mp hj) (of_decide_eq_true hadr)
    simp only [hnone]

end Stripe

/-- All that has to be known about a slice before it is decoded. -/
structure Decodable (st : Stream) (s : State) (i n : ℕ) : Prop extends Seated st s i n where
  full : (s.slices i).Full st
  redundant : 0 < st.redundancy
  received : ∀ b ∈ (s.slices i).map, ∀ x < st.blockSize, b * st.blockSize + x < st.size n →
    s.dataBuffer (adr s (s.slices i) b + x) = st.block n b x
  held : ∀ k < st.stripes, ∀ j < (s.slices i).fecBlocks k,
    HasFecBlock st s.blockData n ((s.slices i).fecDescs (k + j * st.stripes))
  apart : ∀ a, (s.slices i).holds a ≤ 1

/-- The memory after the first `m` stripes have been decoded. -/
structure Repaired (st : Stream) (s : State) (i n m : ℕ) (mem : ℕ → Gf) (blocks : ℕ → Block) :
    Prop where
  restored : ∀ b < st.blocks n, b ∈ (s.slices i).map ∨ b % st.stripes < m → ∀ x < st.blockSize,
    b * st.blockSize + x < st.size n → mem (adr s (s.slices i) b + x) = st.block n b x
  outside : ∀ c, (∀ b < st.blocks n, ¬ InBlock s i b c) → mem c = s.dataBuffer c
  pool : ∀ a, (∀ k < m, ∀ j < (s.slices i).fecBlocks k,
    ((s.slices i).fecDescs (k + j * st.stripes)).adr ≠ some a) → blocks a = s.blockData a

section Slice

variable (h : Decodable st s i n)
include h

/-- The stripes of the slice are those of the stream. -/
theorem Decodable.stripes_eq : (s.slices i).fecStripes = st.stripes :=
  (h.full.counted.stripes h.full.stripes_ne).1

/-- The blocks that have arrived are blocks of the slice. -/
theorem Decodable.inside {b : ℕ} (hb : b ∈ (s.slices i).map) : b < st.blocks n := by
  have hinside := h.full.counted.inside b hb
  rwa [h.sliceNo, Int.toNat_natCast] at hinside

/-- The stripe that is decoded next. -/
theorem Decodable.solvable {m : ℕ} {mem : ℕ → Gf} {blocks : ℕ → Block}
    (hr : Repaired st s i n m mem blocks) (hm : m < st.stripes) :
    Solvable st { s with dataBuffer := mem, blockData := blocks } i n m where
  toSeated := { h.toSeated with }
  full := h.full
  stripe_lt := hm
  redundant := h.redundant
  received b hb _ := hr.restored b (h.inside hb) (.inl hb)
  held j hj := by
    obtain ⟨a, hadr, hblock⟩ := h.held m hm j hj
    have hS := h.stripes_eq
    -- The FEC blocks of the stripes before have other addresses.
    have hkept : blocks a = s.blockData a := by
      refine hr.pool a fun k hk j' hj' hadr' => ?_
      rw [← hS] at hadr hadr' hm
      obtain ⟨rfl, -⟩ := Slice.adr_inj (h.apart a) hm hj (hk.trans hm) hj' hadr hadr'
      exact lt_irrefl _ hk
    rw [← hkept] at hblock
    exact ⟨a, hadr, hblock⟩

omit h in
/-- Decoding one stripe more keeps what has been restored and restores the stripe. -/
theorem Repairs.next {m : ℕ} {mem mem' : ℕ → Gf} {blocks blocks' : ℕ → Block}
    (hr : Repaired st s i n m mem blocks)
    (hr' : Repairs st { s with dataBuffer := mem, blockData := blocks } i n m mem' blocks') :
    Repaired st s i n (m + 1) mem' blocks' where
  restored b hb hdone x hx hsize := by
    by_cases hstripe : b % st.stripes = m
    · exact hr'.restored b hb hstripe x hx
    · exact (hr'.kept b hb hstripe x hx hsize).trans
        (hr.restored b hb (hdone.imp_right fun hlt => by omega) x hx hsize)
  outside c hc := (hr'.outside c hc).trans (hr.outside c hc)
  pool a ha := (hr'.pool a (ha m (Nat.lt_succ_self m))).trans
    (hr.pool a fun k hk => ha k (Nat.lt_succ_of_lt hk))

/-- `fecMain` decodes one stripe after the other. -/
theorem Decodable.stripes {m : ℕ} (hm : m ≤ st.stripes) : ∃ mem blocks,
    (List.range m).foldlM (fun s stripe => fecDecodeOneStripe s i stripe) s =
      .ok { s with dataBuffer := mem, blockData := blocks } ∧ Repaired st s i n m mem blocks := by
  induction m with
  | zero =>
    refine ⟨s.dataBuffer, s.blockData, rfl, ?_, fun _ _ => rfl, fun _ _ => rfl⟩
    intro b hb hmap
    exact h.received b (hmap.resolve_right (Nat.not_lt_zero _))
  | succ m ih =>
    obtain ⟨mem, blocks, hok, hr⟩ := ih (Nat.le_of_succ_le hm)
    obtain ⟨mem', blocks', hok', hr'⟩ := (h.solvable hr hm).repairs
    refine ⟨mem', blocks', ?_, hr'.next hr⟩
    have hlast : ∀ s₁ s₂, fecDecodeOneStripe s₁ i m = .ok s₂ →
        [m].foldlM (fun s stripe => fecDecodeOneStripe s i stripe) s₁ = .ok s₂ := by
      intro s₁ s₂ hstripe
      rw [List.foldlM_cons, hstripe]
      rfl
    rw [List.range_succ, List.foldlM_append, hok]
    exact hlast _ _ hok'

/-- Decoding restores the slice, and changes nothing else in the ring and only the blocks of the
slice in the pool. -/
theorem Decodable.restores : ∃ mem blocks,
    decodeSlice s i = .ok { s with dataBuffer := mem, blockData := blocks } ∧
    (∀ b < st.blocks n, ∀ x < st.blockSize, b * st.blockSize + x < st.size n →
      mem (adr s (s.slices i) b + x) = st.block n b x) ∧
    (∀ c, (∀ b < st.blocks n, ¬ InBlock s i b c) → mem c = s.dataBuffer c) ∧
    ∀ a, (s.slices i).holds a = 0 → blocks a = s.blockData a := by
  have hS := h.stripes_eq
  have hpos := h.valid.stripes_pos h.redundant
  obtain ⟨mem, blocks, hok, hr⟩ := h.stripes le_rfl
  refine ⟨mem, blocks, ?_, fun b hb => hr.restored b hb (.inr (Nat.mod_lt _ hpos)), hr.outside,
    fun a hzero => hr.pool a fun k hk j hj hadr => ?_⟩
  · unfold decodeSlice
    rwa [hS]
  · rw [← hS] at hk hadr
    exact Slice.holds_ne_zero hk hj hadr hzero

end Slice

end Receiver

end Udpcast
