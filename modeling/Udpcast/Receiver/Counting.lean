import Udpcast.Receiver.Failures
import Udpcast.Receiver.Pointer

/-!
# The counters of a slice

What the counters of a slice say about its received map and its FEC blocks, and that the
functions on slices keep it so.
-/

namespace Udpcast.Receiver

open Queue
open Protocol

section Scan

variable {map : Finset ℕ} {blocksInSlice stripes n k b : ℕ}

/-- A block arrives. -/
theorem missingBelow_insert (hb : b < n) (hmap : b ∉ map) :
    missingBelow map stripes n k =
      missingBelow (insert b map) stripes n k + if b % stripes = k then 1 else 0 := by
  have hfilter : (Finset.range n).filter (fun j => j ∉ insert b map ∧ j % stripes = k) =
      ((Finset.range n).filter fun j => j ∉ map ∧ j % stripes = k).erase b := by
    ext j
    simp only [Finset.mem_filter, Finset.mem_range, Finset.mem_insert, Finset.mem_erase]
    tauto
  unfold missingBelow
  rw [hfilter]
  split
  · rename_i hk
    have hmem : b ∈ (Finset.range n).filter fun j => j ∉ map ∧ j % stripes = k := by
      simp [hb, hmap, hk]
    exact (Finset.card_erase_add_one hmem).symm
  · rename_i hk
    rw [Finset.erase_eq_of_notMem (by simp [hk]), Nat.add_zero]

/-- As many blocks of the stripe as are missing have their places below `n`. -/
theorem row_lt_of_missing {j : ℕ} (hj : j < missingBelow map stripes n k) :
    k + j * stripes < n := by
  by_contra hge
  have hsubset : ((Finset.range n).filter fun i => i ∉ map ∧ i % stripes = k) ⊆
      (Finset.range j).image fun i => k + i * stripes := by
    intro i hi
    obtain ⟨hi, -, hk⟩ := by simpa only [Finset.mem_filter, Finset.mem_range] using hi
    have hdiv : k + i / stripes * stripes = i := by
      rw [← hk, Nat.mul_comm]
      exact Nat.mod_add_div i stripes
    refine Finset.mem_image.mpr ⟨i / stripes, Finset.mem_range.mpr ?_, hdiv⟩
    by_contra hle
    have := Nat.mul_le_mul_right stripes (not_lt.mp hle)
    omega
  have hcard := (Finset.card_le_card hsubset).trans Finset.card_image_le
  rw [Finset.card_range] at hcard
  exact absurd hj (not_lt.mpr hcard)

/-- All the blocks that are missing belong to a stripe. -/
theorem sum_missingBelow (hstripes : 0 < stripes) (hinside : ∀ j ∈ map, j < n) :
    (∑ k ∈ Finset.range stripes, missingBelow map stripes n k) + map.card = n := by
  have hmissing : ∑ k ∈ Finset.range stripes, missingBelow map stripes n k =
      (Finset.range n \ map).card := by
    rw [Finset.card_eq_sum_card_fiberwise (f := (· % stripes)) (t := Finset.range stripes)
      fun j _ => by simpa using Nat.mod_lt _ hstripes]
    refine Finset.sum_congr rfl fun k _ => congrArg Finset.card ?_
    ext j
    simp only [Finset.mem_filter, Finset.mem_sdiff, Finset.mem_range]
    tauto
  have hsubset : map ⊆ Finset.range n := fun j hj => Finset.mem_range.mpr (hinside j hj)
  rw [hmissing, Finset.card_sdiff_add_card_eq_card hsubset, Finset.card_range]

/-- The rows of a stripe are the blocks of the slice that belong to it. -/
theorem row_lt_stripeBlocks {j : ℕ} (hstripes : 0 < stripes) :
    j < stripeBlocks n stripes k ↔ k + j * stripes < n := by
  unfold stripeBlocks
  rw [Nat.lt_iff_add_one_le, Nat.le_div_iff_mul_le hstripes, Nat.add_one_mul]
  omega

/-- The list of erased blocks is as long as blocks are missing. -/
theorem erasedBlocks_length {slice : Slice} (hk : k < stripes) :
    (erasedBlocks slice n stripes k).length = missingBelow slice.map stripes n k := by
  have hstripes : 0 < stripes := by omega
  have hcount : (erasedBlocks slice n stripes k).length =
      ((Finset.range (stripeBlocks n stripes k)).filter fun j =>
        k + j * stripes ∉ slice.map).card := by
    unfold erasedBlocks
    rw [← List.countP_eq_length_filter, ← Nat.count_eq_card_filter_range]
    rfl
  rw [hcount]
  refine Finset.card_bij (fun j _ => k + j * stripes) ?_ ?_ ?_
  · intro j hj
    obtain ⟨hj, hmap⟩ := by simpa only [Finset.mem_filter, Finset.mem_range] using hj
    have hmod : (k + j * stripes) % stripes = k := by
      rw [Nat.add_mul_mod_self_right, Nat.mod_eq_of_lt hk]
    simpa only [Finset.mem_filter, Finset.mem_range] using
      ⟨(row_lt_stripeBlocks hstripes).mp hj, hmap, hmod⟩
  · intro j _ j' _ heq
    exact Nat.eq_of_mul_eq_mul_right hstripes (Nat.add_left_cancel heq)
  · intro i hi
    obtain ⟨hi, hmap, hmod⟩ := by simpa only [Finset.mem_filter, Finset.mem_range] using hi
    have heq : k + i / stripes * stripes = i := by
      rw [← hmod, Nat.mul_comm]
      exact Nat.mod_add_div i stripes
    refine ⟨i / stripes, ?_, heq⟩
    rw [Finset.mem_filter, Finset.mem_range, row_lt_stripeBlocks hstripes, heq]
    exact ⟨hi, hmap⟩

end Scan

section Slices

/-- The counters of a slice of the stream that is being received. -/
structure Counted (st : Stream) (slice : Slice) : Prop where
  data : slice.dataBlocksTransferred = slice.map.card
  blocks : slice.blocksTransferred =
    slice.map.card + ∑ k ∈ Finset.range slice.fecStripes, (slice.fecBlocks k : ℤ)
  size : slice.bytesKnown = true → slice.bytes = st.size slice.sliceNo.toNat
  inside : ∀ b ∈ slice.map, b < st.blocks slice.sliceNo.toNat
  stripes : slice.fecStripes ≠ 0 → slice.fecStripes = st.stripes ∧ slice.bytesKnown = true
  missing : ∀ k < slice.fecStripes, slice.missingDataBlocks k =
    missingBelow slice.map slice.fecStripes (st.blocks slice.sliceNo.toNat) k
  fecBlocks_le : ∀ k < slice.fecStripes, slice.fecBlocks k ≤ slice.missingDataBlocks k
  congruent : ∀ k < slice.fecStripes, ∀ j < slice.fecBlocks k,
    (slice.fecDescs (k + j * slice.fecStripes)).fecBlockNo % slice.fecStripes = k
  distinct : ∀ k < slice.fecStripes, ∀ j < slice.fecBlocks k, ∀ j' < slice.fecBlocks k,
    (slice.fecDescs (k + j * slice.fecStripes)).fecBlockNo =
      (slice.fecDescs (k + j' * slice.fecStripes)).fecBlockNo → j = j'

/-- Every FEC block that is counted has its place in the pool. -/
def Slice.Held (slice : Slice) : Prop :=
  ∀ k < slice.fecStripes, ∀ j < slice.fecBlocks k,
    (slice.fecDescs (k + j * slice.fecStripes)).adr ≠ none

/-- There are as many FEC blocks in every stripe as data blocks are missing. -/
structure Slice.Full (st : Stream) (slice : Slice) : Prop where
  counted : Counted st slice
  stripes_ne : slice.fecStripes ≠ 0
  full : ∀ k < slice.fecStripes, slice.fecBlocks k = slice.missingDataBlocks k

variable {st : Stream} {slice slice' : Slice} {n : ℤ} {b guess : ℕ} {l l' : List ℕ}

/-- The counters of a slice that has just been set up are right: nothing has arrived. -/
theorem Counted.start (n : ℤ) (guess : ℕ) : Counted st (slice.start n guess) := by
  constructor <;> simp [Slice.start, Slice.clear]

/-- And it holds no FEC block. -/
theorem Slice.held_start (n : ℤ) (guess : ℕ) : (slice.start n guess).Held := by
  simp [Slice.Held, Slice.start]

/-- The size becomes known. -/
theorem Counted.sized (h : Counted st slice) :
    Counted st { slice with bytesKnown := true, bytes := st.size slice.sliceNo.toNat } :=
  { h with size := fun _ => rfl, stripes := fun hne => ⟨(h.stripes hne).1, rfl⟩ }

/-- A place for a FEC block belongs to one stripe and one row. -/
theorem row_inj {S k k' j j' : ℕ} (hk : k < S) (hk' : k' < S) (heq : k + j * S = k' + j' * S) :
    k = k' ∧ j = j' := by
  have hmod := congrArg (· % S) heq
  have hdiv := congrArg (· / S) heq
  have hS : 0 < S := by omega
  simp only [Nat.add_mul_mod_self_right, Nat.mod_eq_of_lt hk, Nat.mod_eq_of_lt hk'] at hmod
  simp only [Nat.add_mul_div_right _ _ hS, Nat.div_eq_of_lt hk, Nat.div_eq_of_lt hk'] at hdiv
  omega

/-- The first FEC block of the slice is seen. -/
theorem Counted.initFec {x : ℕ → ℕ} (h : Counted st slice) (hzero : slice.fecStripes = 0)
    (hknown : slice.bytesKnown = true) :
    Counted st { slice with
      fecStripes := st.stripes
      missingDataBlocks := fun k =>
        if k < st.stripes then
          missingBelow slice.map st.stripes (st.blocks slice.sliceNo.toNat) k
        else x k
      fecBlocks := fun k => if k < st.stripes then 0 else slice.fecBlocks k } := by
  refine ⟨h.data, ?_, h.size, h.inside, fun _ => ⟨rfl, hknown⟩, fun k hk => ?_, fun k hk => ?_,
    fun k hk => ?_, fun k hk => ?_⟩
  · have hsum : ∑ k ∈ Finset.range st.stripes,
        (((if k < st.stripes then 0 else slice.fecBlocks k : ℕ)) : ℤ) = 0 := by
      refine Finset.sum_eq_zero fun k hk => ?_
      rw [if_pos (Finset.mem_range.mp hk), Nat.cast_zero]
    have hblocks := h.blocks
    rw [hzero, Finset.range_zero, Finset.sum_empty] at hblocks
    dsimp only
    rw [hsum]
    exact hblocks
  · dsimp only at hk ⊢
    rw [if_pos hk]
  · dsimp only at hk ⊢
    rw [if_pos hk]
    exact Nat.zero_le _
  · dsimp only at hk ⊢
    rw [if_pos hk]
    simp
  · dsimp only at hk ⊢
    rw [if_pos hk]
    simp

/-- When FEC blocks begin to be counted there are none. -/
theorem Slice.held_initFec {S : ℕ} {x : ℕ → ℕ} :
    Slice.Held { slice with
      fecStripes := S, missingDataBlocks := x
      fecBlocks := fun k => if k < S then 0 else slice.fecBlocks k } := by
  intro k hk
  dsimp only at hk ⊢
  rw [if_pos hk]
  simp

/-- The sum of the FEC blocks when the count of one stripe changes. -/
theorem sum_update {f : ℕ → ℕ} {S k x : ℕ} (hk : k < S) :
    ∑ j ∈ Finset.range S, ((Function.update f k x j : ℕ) : ℤ) =
      ∑ j ∈ Finset.range S, (f j : ℤ) + x - f k := by
  have hmem : k ∈ Finset.range S := Finset.mem_range.mpr hk
  rw [← Finset.add_sum_erase _ _ hmem, ← Finset.add_sum_erase _ (fun j => (f j : ℤ)) hmem,
    Function.update_self]
  have hrest : ∑ j ∈ (Finset.range S).erase k, ((Function.update f k x j : ℕ) : ℤ) =
      ∑ j ∈ (Finset.range S).erase k, (f j : ℤ) :=
    Finset.sum_congr rfl fun j hj => by rw [Function.update_of_ne (Finset.ne_of_mem_erase hj)]
  rw [hrest]
  ring

/-- A useful FEC block is stored. -/
theorem Counted.store {k : ℕ} {adr : Option ℕ} (h : Counted st slice) (hS : slice.fecStripes ≠ 0)
    (hk : k = b % slice.fecStripes) (huseful : slice.fecBlocks k < slice.missingDataBlocks k)
    (hnew : ∀ j < slice.fecBlocks k, (slice.fecDescs (k + j * slice.fecStripes)).fecBlockNo ≠ b) :
    Counted st { slice with
      fecDescs := Function.update slice.fecDescs (slice.fecBlocks k * slice.fecStripes + k) ⟨adr, b⟩
      fecBlocks := Function.update slice.fecBlocks k (slice.fecBlocks k + 1)
      blocksTransferred := slice.blocksTransferred + 1 } := by
  have hlt : k < slice.fecStripes := hk ▸ Nat.mod_lt _ (Nat.pos_of_ne_zero hS)
  have hdesc : ∀ k' < slice.fecStripes, ∀ j,
      Function.update slice.fecDescs (slice.fecBlocks k * slice.fecStripes + k) ⟨adr, b⟩
        (k' + j * slice.fecStripes) =
      if k' = k ∧ j = slice.fecBlocks k then ⟨adr, b⟩
      else slice.fecDescs (k' + j * slice.fecStripes) := by
    intro k' hk' j
    rw [Nat.add_comm (_ * _) k]
    split
    · rename_i heq
      rw [heq.1, heq.2, Function.update_self]
    · rename_i hne
      exact Function.update_of_ne (fun heq => hne (row_inj hk' hlt heq)) ..
  have hcount : ∀ k' j, j < Function.update slice.fecBlocks k (slice.fecBlocks k + 1) k' →
      ¬(k' = k ∧ j = slice.fecBlocks k) → j < slice.fecBlocks k' := by
    intro k' j hj hne
    rcases eq_or_ne k' k with rfl | hkk
    · rw [Function.update_self] at hj
      omega
    · rwa [Function.update_of_ne hkk] at hj
  refine { h with blocks := ?_, fecBlocks_le := ?_, congruent := ?_, distinct := ?_ }
  · dsimp only
    rw [sum_update hlt, h.blocks]
    push_cast
    ring
  · intro k' hk'
    dsimp only
    rcases eq_or_ne k' k with rfl | hne
    · rw [Function.update_self]
      exact huseful
    · rw [Function.update_of_ne hne]
      exact h.fecBlocks_le k' hk'
  · intro k' hk' j hj
    dsimp only at hk' hj ⊢
    rw [hdesc k' hk']
    split
    · rename_i heq
      rw [heq.1, hk]
    · rename_i hne
      exact h.congruent k' hk' j (hcount k' j hj hne)
  · intro k' hk' j hj j' hj' heq
    dsimp only at hk' hj hj' heq
    rw [hdesc k' hk', hdesc k' hk'] at heq
    split at heq
    · rename_i hpos
      split at heq
      · rename_i hpos'
        rw [hpos.2, hpos'.2]
      · rename_i hne'
        obtain ⟨rfl, rfl⟩ := hpos
        exact absurd heq.symm (hnew j' (hcount _ j' hj' hne'))
    · rename_i hne
      split at heq
      · rename_i hpos'
        obtain ⟨rfl, rfl⟩ := hpos'
        exact absurd heq (hnew j (hcount _ j hj hne))
      · rename_i hne'
        exact h.distinct k' hk' j (hcount k' j hj hne) j' (hcount k' j' hj' hne') heq

/-- A FEC block that is stored has its place. -/
theorem Slice.Held.store {k a : ℕ} (h : slice.Held) (hS : slice.fecStripes ≠ 0)
    (hk : k = b % slice.fecStripes) :
    Slice.Held { slice with
      fecDescs := Function.update slice.fecDescs (slice.fecBlocks k * slice.fecStripes + k)
        ⟨some a, b⟩
      fecBlocks := Function.update slice.fecBlocks k (slice.fecBlocks k + 1)
      blocksTransferred := slice.blocksTransferred + 1 } := by
  have hlt : k < slice.fecStripes := hk ▸ Nat.mod_lt _ (Nat.pos_of_ne_zero hS)
  intro k' hk' j hj
  dsimp only at hk' hj ⊢
  rw [Nat.add_comm (_ * _) k]
  by_cases heq : k' + j * slice.fecStripes = k + slice.fecBlocks k * slice.fecStripes
  · rw [heq, Function.update_self]
    simp
  · rw [Function.update_of_ne heq]
    apply h k' hk' j
    rcases eq_or_ne k' k with rfl | hne
    · rw [Function.update_self] at hj
      refine lt_of_le_of_ne (Nat.le_of_lt_succ hj) fun hlast => heq (by rw [hlast])
    · rwa [Function.update_of_ne hne] at hj

/-- A data block arrives: the counters after `countArrival` and the increments. -/
theorem Counted.arrive {pos : ℕ} (h : Counted st slice) (hb : b < st.blocks slice.sliceNo.toNat)
    (hmap : b ∉ slice.map)
    (hok : countArrival { slice with map := insert b slice.map } l b = .ok (slice', l')) :
    Counted st { slice' with
      dataBlocksTransferred := slice'.dataBlocksTransferred + 1
      blocksTransferred := slice'.blocksTransferred + 1
      freePos := pos } := by
  have hcard : ((insert b slice.map).card : ℤ) = slice.map.card + 1 := by
    rw [Finset.card_insert_of_notMem hmap]
    push_cast
    ring
  have hinside : ∀ b' ∈ insert b slice.map, b' < st.blocks slice.sliceNo.toNat := by
    intro b' hb'
    rcases Finset.mem_insert.mp hb' with rfl | hb'
    · exact hb
    · exact h.inside b' hb'
  have hdata : slice.dataBlocksTransferred + 1 = ((insert b slice.map).card : ℤ) := by
    rw [hcard, h.data]
  have hrows : ∀ k < slice.fecStripes, slice.missingDataBlocks k =
      missingBelow (insert b slice.map) slice.fecStripes (st.blocks slice.sliceNo.toNat) k +
        if b % slice.fecStripes = k then 1 else 0 := fun k hk => by
    rw [h.missing k hk, missingBelow_insert hb hmap]
  rcases countArrival_ok hok with ⟨hzero, rfl, rfl⟩ | ⟨hS, stripe, m, hstripe, hm, hcase⟩
  · refine ⟨hdata, ?_, h.size, hinside, h.stripes, fun k hk => ?_, h.fecBlocks_le, h.congruent,
      h.distinct⟩
    · dsimp only
      rw [hcard, h.blocks]
      ring
    · dsimp only at hzero hk
      omega
  · dsimp only at hS hstripe hm
    have hlt : stripe < slice.fecStripes := hstripe ▸ Nat.mod_lt _ (Nat.pos_of_ne_zero hS)
    have hmissing : ∀ k < slice.fecStripes, Function.update slice.missingDataBlocks stripe m k =
        missingBelow (insert b slice.map) slice.fecStripes (st.blocks slice.sliceNo.toNat) k := by
      intro k hk
      have hrow := hrows k hk
      rcases eq_or_ne k stripe with rfl | hne
      · rw [if_pos hstripe.symm] at hrow
        rw [Function.update_self]
        omega
      · rw [if_neg fun heq => hne (heq.symm.trans hstripe.symm)] at hrow
        rwa [Function.update_of_ne hne]
    rcases hcase with ⟨hle, rfl, rfl⟩ | ⟨k₀, a, hfec, hle, hadr, rfl, rfl⟩
    · refine ⟨hdata, ?_, h.size, hinside, h.stripes, hmissing, fun k hk => ?_, h.congruent,
        h.distinct⟩
      · dsimp only
        rw [hcard, h.blocks]
        ring
      · dsimp only
        rcases eq_or_ne k stripe with rfl | hne
        · rwa [Function.update_self]
        · rw [Function.update_of_ne hne]
          exact h.fecBlocks_le k hk
    · dsimp only at hfec
      have hcount : ∀ k j, j < Function.update slice.fecBlocks stripe k₀ k →
          j < slice.fecBlocks k ∧ ¬(k = stripe ∧ j = k₀) := by
        intro k j hj
        rcases eq_or_ne k stripe with rfl | hne
        · rw [Function.update_self] at hj
          omega
        · rw [Function.update_of_ne hne] at hj
          exact ⟨hj, fun hcontra => hne hcontra.1⟩
      have hdesc : ∀ x : FecDesc, ∀ k < slice.fecStripes, ∀ j, ¬(k = stripe ∧ j = k₀) →
          Function.update slice.fecDescs (stripe + k₀ * slice.fecStripes) x
            (k + j * slice.fecStripes) = slice.fecDescs (k + j * slice.fecStripes) :=
        fun x k hk j hne => Function.update_of_ne (fun heq => hne (row_inj hk hlt heq)) ..
      refine ⟨hdata, ?_, h.size, hinside, h.stripes, hmissing, fun k hk => ?_, fun k hk j hj => ?_,
        fun k hk j hj j' hj' heq => ?_⟩
      · dsimp only
        rw [sum_update hlt, hcard, h.blocks, hfec]
        push_cast
        ring
      · dsimp only
        rcases eq_or_ne k stripe with rfl | hne
        · have := h.fecBlocks_le k hk
          rw [Function.update_self, Function.update_self]
          omega
        · rw [Function.update_of_ne hne, Function.update_of_ne hne]
          exact h.fecBlocks_le k hk
      · dsimp only at hk hj ⊢
        obtain ⟨hj, hne⟩ := hcount k j hj
        rw [hdesc _ k hk j hne]
        exact h.congruent k hk j hj
      · dsimp only at hk hj hj' heq
        obtain ⟨hj, hne⟩ := hcount k j hj
        obtain ⟨hj', hne'⟩ := hcount k j' hj'
        rw [hdesc _ k hk j hne, hdesc _ k hk j' hne'] at heq
        exact h.distinct k hk j hj j' hj' heq

/-- A data block that takes the place of a FEC block gives back only that one's. -/
theorem Slice.Held.arrive {pos : ℕ} {x y : ℤ} (h : slice.Held)
    (hok : countArrival { slice with map := insert b slice.map } l b = .ok (slice', l')) :
    Slice.Held { slice' with
      dataBlocksTransferred := x, blocksTransferred := y, freePos := pos } := by
  rcases countArrival_ok hok with ⟨-, rfl, -⟩ | ⟨hS, stripe, m, hstripe, hm, hcase⟩
  · exact h
  · dsimp only at hS hstripe
    rcases hcase with ⟨-, -, rfl⟩ | ⟨k₀, a, hfec, -, -, -, rfl⟩
    · exact h
    · dsimp only at hfec
      have hlt : stripe < slice.fecStripes := hstripe ▸ Nat.mod_lt _ (Nat.pos_of_ne_zero hS)
      intro k hk j hj
      dsimp only at hk hj ⊢
      rcases eq_or_ne k stripe with rfl | hne
      · rw [Function.update_self] at hj
        rw [Function.update_of_ne fun heq => hj.ne (row_inj hk hk heq).2]
        exact h k hk j (by omega)
      · rw [Function.update_of_ne hne] at hj
        rw [Function.update_of_ne fun heq => hne (row_inj hk hlt heq).1]
        exact h k hk j hj

/-- The arrival of a data block of the slice fails no assertion. -/
theorem countArrival_succeeds (h : Counted st slice) (hheld : slice.Held)
    (hb : b < st.blocks slice.sliceNo.toNat) (hmap : b ∉ slice.map) (f : Failure) :
    countArrival { slice with map := insert b slice.map } l b ≠ .error f := by
  intro herror
  unfold countArrival at herror
  dsimp only at herror
  split at herror
  · cases herror
  · rename_i hS
    have hlt : b % slice.fecStripes < slice.fecStripes := Nat.mod_lt _ (Nat.pos_of_ne_zero hS)
    have hrow := h.missing _ hlt
    rw [missingBelow_insert hb hmap, if_pos rfl] at hrow
    split at herror
    · omega
    · split at herror
      · rename_i hsuperfluous
        have hadr := hheld _ hlt (slice.fecBlocks (b % slice.fecStripes) - 1) (by omega)
        split at herror
        · rename_i hnone
          exact hadr hnone
        · cases herror
      · cases herror

/-- A slice that counts as complete with FEC blocks has enough of them in every stripe. -/
theorem Counted.full (h : Counted st slice) (hblocks : 0 < slice.fecStripes →
      slice.blocksTransferred = st.blocks slice.sliceNo.toNat)
    (hfec : slice.blocksTransferred ≠ slice.dataBlocksTransferred) : slice.Full st := by
  have hS : slice.fecStripes ≠ 0 := by
    intro hzero
    have hsum := h.blocks
    rw [hzero, Finset.range_zero, Finset.sum_empty, add_zero] at hsum
    exact hfec (hsum.trans h.data.symm)
  refine ⟨h, hS, ?_⟩
  have htotal := sum_missingBelow (Nat.pos_of_ne_zero hS) h.inside
  have heq : ∑ k ∈ Finset.range slice.fecStripes, slice.fecBlocks k =
      ∑ k ∈ Finset.range slice.fecStripes, slice.missingDataBlocks k := by
    rw [Finset.sum_congr rfl fun k hk => h.missing k (Finset.mem_range.mp hk)]
    have hsum := h.blocks
    rw [hblocks (Nat.pos_of_ne_zero hS), ← Nat.cast_sum] at hsum
    have hsum : ∑ k ∈ Finset.range slice.fecStripes, slice.fecBlocks k + slice.map.card =
        st.blocks slice.sliceNo.toNat := by omega
    exact Nat.add_right_cancel (hsum.trans htotal.symm)
  have hle : ∀ k ∈ Finset.range slice.fecStripes,
      slice.fecBlocks k ≤ slice.missingDataBlocks k := fun k hk =>
    h.fecBlocks_le k (Finset.mem_range.mp hk)
  exact fun k hk => (Finset.sum_eq_sum_iff_of_le hle).mp heq k (Finset.mem_range.mpr hk)

end Slices

end Udpcast.Receiver
