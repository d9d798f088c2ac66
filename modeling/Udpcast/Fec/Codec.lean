import Udpcast.Fec.InvertMat
import Udpcast.Lib.Cauchy
import Mathlib.Data.List.GetD

/-!
# The erasure code

`fec_encode` and `fec_decode` of `fec.c`. A table of block pointers is a function of
the block number; a failed `assert` is `none`. Any `|E|` of the FEC blocks restore
the data blocks with the numbers in `E`.
-/

namespace Udpcast.Fec

/-- One row of the first loop of `fec_encode`. -/
def encodeFirst (t : GfTables) (blockSize : ℕ) (dataBlocks : ℕ → Block) (row : ℕ) (fec : Block) :
    Block :=
  mul t fec (dataBlocks 0) (t.inverse (128 ^^^ row)) blockSize

/-- One row of the second loop of `fec_encode`, for the block `blockNo` with `col = 128 + blockNo`. -/
def encodeNext (t : GfTables) (blockSize : ℕ) (dataBlocks : ℕ → Block) (blockNo row : ℕ)
    (fec : Block) : Block :=
  addmul t fec (dataBlocks blockNo) (t.inverse (row ^^^ (128 + blockNo))) blockSize

/-- `fec_encode`: the FEC blocks, column by column. -/
def fecEncode (t : GfTables) (blockSize : ℕ) (dataBlocks : ℕ → Block) (nrDataBlocks : ℕ)
    (fecBlocks : ℕ → Block) (nrFecBlocks : ℕ) : Option (ℕ → Block) :=
  if ¬t.fecInitialized then none
  else if ¬nrDataBlocks ≤ 128 then none
  else if ¬nrFecBlocks ≤ 128 then none
  else if nrDataBlocks = 0 then some fecBlocks
  else
    let fecBlocks := forLoop (fun row fec =>
      Function.update fec row (encodeFirst t blockSize dataBlocks row (fec row))) nrFecBlocks fecBlocks
    some (forLoop (fun i => forLoop (fun row fec =>
        Function.update fec row (encodeNext t blockSize dataBlocks (1 + i) row (fec row)))
      nrFecBlocks) (nrDataBlocks - 1) fecBlocks)

/-- One column of `reduce`: an erased block is counted, any other one is subtracted
from all FEC blocks. -/
def reduceCol (t : GfTables) (blockSize : ℕ) (dataBlocks : ℕ → Block)
    (fecBlockNos erasedBlocks : ℕ → ℕ) (nrFecBlocks col : ℕ) (s : ℕ × (ℕ → Block)) :
    ℕ × (ℕ → Block) :=
  let (erasedIdx, fecBlocks) := s
  if erasedIdx < nrFecBlocks ∧ erasedBlocks erasedIdx = col then (erasedIdx + 1, fecBlocks)
  else
    (erasedIdx, forLoop (fun j fec => Function.update fec j
      (addmul t (fec j) (dataBlocks col) (t.inverse (fecBlockNos j ^^^ col ^^^ 128)) blockSize))
      nrFecBlocks fecBlocks)

/-- `reduce`: the FEC blocks without the contribution of the received data blocks. -/
def reduce (t : GfTables) (blockSize : ℕ) (dataBlocks : ℕ → Block) (nrDataBlocks : ℕ)
    (fecBlocks : ℕ → Block) (fecBlockNos erasedBlocks : ℕ → ℕ) (nrFecBlocks : ℕ) :
    Option (ℕ → Block) :=
  let (erasedIdx, fecBlocks) := forLoop
    (reduceCol t blockSize dataBlocks fecBlockNos erasedBlocks nrFecBlocks) nrDataBlocks
    (0, fecBlocks)
  if nrFecBlocks = erasedIdx then some fecBlocks else none

/-- The product of one row of the inverted matrix and the reduced FEC blocks. -/
def resolveRow (t : GfTables) (blockSize : ℕ) (fecBlocks : ℕ → Block) (matrix : Block)
    (nrFecBlocks : ℕ) (target : Block) : Block :=
  forLoop (fun i target => addmul t target (fecBlocks (1 + i)) (matrix (1 + i)) blockSize)
    (nrFecBlocks - 1) (mul t target (fecBlocks 0) (matrix 0) blockSize)

/-- `resolve`: the solution of the reduced system; `none` is "Pivot not found". -/
def resolve (t : GfTables) (blockSize : ℕ) (dataBlocks fecBlocks : ℕ → Block)
    (fecBlockNos erasedBlocks : ℕ → ℕ) (nrFecBlocks : ℕ) : Option (ℕ → Block) :=
  let matrix : ℕ → Block := fun row col =>
    t.inverse ((128 + fecBlockNos row) ^^^ erasedBlocks col)
  (invertMat t matrix nrFecBlocks).map fun matrix =>
    forLoop (fun row dataBlocks => Function.update dataBlocks (erasedBlocks row)
      (resolveRow t blockSize fecBlocks (matrix row) nrFecBlocks (dataBlocks (erasedBlocks row))))
      nrFecBlocks dataBlocks

/-- `fec_decode`: the data blocks and the FEC blocks afterwards. -/
def fecDecode (t : GfTables) (blockSize : ℕ) (dataBlocks : ℕ → Block) (nrDataBlocks : ℕ)
    (fecBlocks : ℕ → Block) (fecBlockNos erasedBlocks : ℕ → ℕ) (nrFecBlocks : ℕ) :
    Option ((ℕ → Block) × (ℕ → Block)) :=
  (reduce t blockSize dataBlocks nrDataBlocks fecBlocks fecBlockNos erasedBlocks nrFecBlocks).bind
    fun fecBlocks =>
      (resolve t blockSize dataBlocks fecBlocks fecBlockNos erasedBlocks nrFecBlocks).map
        fun dataBlocks => (dataBlocks, fecBlocks)

/-- The coefficient of data block `col` in FEC block `row`. -/
def coeff (row col : ℕ) : Gf := (Gf.ofNat (128 + row) - Gf.ofNat col)⁻¹

/-- Numbers of bytes are added by exclusive or, as the code does with the indices of the matrix.
-/
theorem Gf.ofNat_xor (m n : ℕ) : Gf.ofNat (m ^^^ n) = Gf.ofNat m + Gf.ofNat n :=
  BitVec.ofNat_xor

/-- The rows are offset by 128 without a carry. -/
theorem Gf.ofNat_add_128 {row : ℕ} (hrow : row < 128) :
    Gf.ofNat (128 + row) = Gf.ofNat 128 + Gf.ofNat row := by
  rw [← Gf.ofNat_xor]
  exact congrArg Gf.ofNat ((by decide : ∀ row < 128, 128 + row = 128 ^^^ row) row hrow)

/-- Indices below 256 are different elements of the field. -/
theorem Gf.ofNat_inj {m n : ℕ} (hm : m < 256) (hn : n < 256) (h : Gf.ofNat m = Gf.ofNat n) :
    m = n := by
  have h := congrArg Gf.toNat h
  rwa [Gf.toNat_ofNat, Gf.toNat_ofNat, Nat.mod_eq_of_lt hm, Nat.mod_eq_of_lt hn] at h

section Coefficients

variable {t : GfTables} (ht : t.Ready) {row col : ℕ} (hrow : row < 128) (hcol : col < 128)
include ht hrow

/-- An entry of the inverse table is an entry of the Cauchy matrix whenever its index is the sum
of the indices. -/
theorem inverse_eq_coeff {n : ℕ} (hn : n < 256)
    (h : Gf.ofNat n = Gf.ofNat 128 + Gf.ofNat row + Gf.ofNat col) : t.inverse n = coeff row col := by
  have hinv := ht.inverse_eq (Gf.ofNat n)
  rw [GfTables.inverseOf, Gf.toNat_ofNat, Nat.mod_eq_of_lt hn] at hinv
  rw [hinv, h, coeff, CharTwo.sub_eq_add, Gf.ofNat_add_128 hrow]

/-- The factor that `fec_encode` takes for the first data block. -/
theorem inverse_encodeFirst : t.inverse (128 ^^^ row) = coeff row 0 := by
  apply inverse_eq_coeff ht hrow (Nat.xor_lt_two_pow (n := 8) (by omega) (by omega))
  rw [Gf.ofNat_xor, ← Gf.zero_def, add_zero]

include hcol

/-- The factor that it takes for the others. -/
theorem inverse_encodeNext : t.inverse (row ^^^ (128 + col)) = coeff row col := by
  apply inverse_eq_coeff ht hrow (Nat.xor_lt_two_pow (n := 8) (by omega) (by omega))
  rw [Gf.ofNat_xor, Gf.ofNat_add_128 hcol]
  ring

/-- The factor with which `reduce` takes the data blocks that have arrived out of the FEC blocks.
-/
theorem inverse_reduce : t.inverse (row ^^^ col ^^^ 128) = coeff row col := by
  apply inverse_eq_coeff ht hrow (Nat.xor_lt_two_pow (n := 8)
    (Nat.xor_lt_two_pow (by omega) (by omega)) (by omega))
  rw [Gf.ofNat_xor, Gf.ofNat_xor]
  ring

/-- The entries of the matrix that `resolve` inverts. -/
theorem inverse_resolve : t.inverse ((128 + row) ^^^ col) = coeff row col := by
  apply inverse_eq_coeff ht hrow (Nat.xor_lt_two_pow (n := 8) (by omega) (by omega))
  rw [Gf.ofNat_xor, Gf.ofNat_add_128 hrow]

end Coefficients

/-- Every square part of the coding matrix is nonsingular. -/
theorem det_coeff_ne_zero {n : ℕ} {rows cols : ℕ → ℕ} (hrows : ∀ i < n, rows i < 128)
    (hcols : ∀ i < n, cols i < 128) (hrinj : Set.InjOn rows (Set.Iio n))
    (hcinj : Set.InjOn cols (Set.Iio n)) :
    (toMatrix n fun i j => coeff (rows i) (cols j)).det ≠ 0 := by
  apply det_cauchyMatrix_ne_zero (x := fun i : Fin n => Gf.ofNat (128 + rows i))
    (y := fun j : Fin n => Gf.ofNat (cols j))
  · intro i j hij
    have hi := hrows i i.isLt
    have hj := hrows j j.isLt
    have := Gf.ofNat_inj (by omega) (by omega) hij
    exact Fin.ext (hrinj i.isLt j.isLt (by omega))
  · intro i j hij
    have hi := hcols i i.isLt
    have hj := hcols j j.isLt
    exact Fin.ext (hcinj i.isLt j.isLt (Gf.ofNat_inj (by omega) (by omega) hij))
  · intro i j hij
    have hi := hrows i i.isLt
    have hj := hcols j j.isLt
    have := Gf.ofNat_inj (by omega) (by omega) hij
    omega

section Sums

variable {t : GfTables} (ht : t.Ready)
include ht

/-- A loop of `addmul` calls adds a linear combination to the target. -/
theorem addmul_loop (b n : ℕ) (src : ℕ → Block) (c : ℕ → Gf) (target : Block) :
    forLoop (fun i target => addmul t target (src i) (c i) b) n target =
      fun x => if x < b then target x + ∑ i ∈ Finset.range n, c i * src i x else target x := by
  induction n with
  | zero => simp
  | succ n ih =>
    rw [forLoop_succ, ih, addmul_eq ht]
    funext x
    by_cases hx : x < b
    · simp only [if_pos hx, Finset.sum_range_succ, add_assoc]
    · simp only [if_neg hx]

/-- One `mul` and a loop of `addmul` calls store a linear combination. -/
theorem mul_addmul_loop (b : ℕ) {n : ℕ} (hn : 0 < n) (src : ℕ → Block) (c : ℕ → Gf)
    (target : Block) :
    forLoop (fun i target => addmul t target (src (1 + i)) (c (1 + i)) b) (n - 1)
      (mul t target (src 0) (c 0) b) =
      fun x => if x < b then ∑ i ∈ Finset.range n, c i * src i x else target x := by
  rw [addmul_loop ht b (n - 1) (fun i => src (1 + i)) (fun i => c (1 + i)), mul_eq ht]
  obtain ⟨m, rfl⟩ : ∃ m, n = m + 1 := ⟨n - 1, by omega⟩
  funext x
  by_cases hx : x < b
  · simp only [if_pos hx, Finset.sum_range_succ', Nat.add_sub_cancel, Nat.add_comm 1]
    rw [add_comm]
  · simp only [if_neg hx]

/-- What `fec_encode` stores in FEC block `row`. -/
theorem fecEncode_eq {b k R : ℕ} (hk : 0 < k) (hk' : k ≤ 128) (hR : R ≤ 128)
    (data fecBlocks : ℕ → Block) :
    ∃ fec, fecEncode t b data k fecBlocks R = some fec ∧ ∀ row < R, ∀ x < b,
      fec row x = ∑ i ∈ Finset.range k, coeff row i * data i x := by
  refine ⟨_, by
    rw [fecEncode, if_neg (not_not.mpr ht.initialized), if_neg (not_not.mpr hk'),
      if_neg (not_not.mpr hR), if_neg (by omega)], fun row hrow x hx => ?_⟩
  have hloop := forLoop_proj (fun fec : ℕ → Block => fec row)
    (f := fun i => forLoop (fun row fec =>
      Function.update fec row (encodeNext t b data (1 + i) row (fec row))) R)
    (g := fun i fec => encodeNext t b data (1 + i) row fec) (n := k - 1)
    (fun i _ fec => by
      rw [forLoop_update_self (fun row => encodeNext t b data (1 + i) row), if_pos hrow])
  rw [hloop, forLoop_update_self (encodeFirst t b data), if_pos hrow]
  simp only [encodeFirst, encodeNext]
  rw [inverse_encodeFirst ht (by omega)]
  have hcongr : ∀ i < k - 1, (fun fec => addmul t fec (data (1 + i))
      (t.inverse (row ^^^ (128 + (1 + i)))) b) =
      fun fec => addmul t fec (data (1 + i)) (coeff row (1 + i)) b := fun i hi => by
    rw [inverse_encodeNext ht (by omega) (by omega)]
  rw [forLoop_congr hcongr, mul_addmul_loop ht b hk data (coeff row)]
  exact if_pos hx

end Sums

section Decode

variable {t : GfTables} (ht : t.Ready) {b k n : ℕ} {rows erased : ℕ → ℕ}

/-- State of `reduce` before column `m`: the counter separates the erased blocks below
`m` from the others, and the received blocks below `m` are subtracted. -/
structure ReduceInv (b n : ℕ) (rows erased : ℕ → ℕ) (data fec : ℕ → Block) (m : ℕ)
    (s : ℕ × (ℕ → Block)) : Prop where
  le : s.1 ≤ n
  below_iff : ∀ i < n, erased i < m ↔ i < s.1
  sum : ∀ j < n, ∀ x < b, s.2 j x = fec j x + ∑ c ∈ Finset.range m,
    if c ∈ (Finset.range n).image erased then 0 else coeff (rows j) c * data c x

include ht in
/-- A turn of the loop of `reduce` takes one data block out of all the FEC blocks, or passes an
erased one. -/
theorem reduceCol_spec (hk : k ≤ 128) (hrows : ∀ i < n, rows i < 128)
    (hmono : StrictMonoOn erased (Set.Iio n)) {data fec : ℕ → Block} {m : ℕ} (hm : m < k)
    {s : ℕ × (ℕ → Block)} (h : ReduceInv b n rows erased data fec m s) :
    ReduceInv b n rows erased data fec (m + 1) (reduceCol t b data rows erased n m s) := by
  obtain ⟨idx, cur⟩ := s
  have hbelow : ∀ i < n, erased i < m ↔ i < idx := h.below_iff
  have hidx : idx ≤ n := h.le
  simp only [reduceCol]
  split
  · rename_i hat
    have hmem : m ∈ (Finset.range n).image erased :=
      Finset.mem_image.mpr ⟨idx, Finset.mem_range.mpr hat.1, hat.2⟩
    refine ⟨hat.1, fun i hi => ?_, fun j hj x hx => ?_⟩
    · have hord : erased i < m + 1 ↔ i < idx + 1 := by
        rw [Nat.lt_succ_iff, Nat.lt_succ_iff, ← hat.2]
        exact hmono.le_iff_le hi hat.1
      exact hord
    · rw [Finset.sum_range_succ, if_pos hmem, add_zero]
      exact h.sum j hj x hx
  · rename_i hat
    have hnot : ∀ i < n, erased i ≠ m := by
      intro i hi him
      have hge : idx ≤ i := Nat.le_of_not_lt fun hlt => by
        have := (hbelow i hi).mpr hlt
        omega
      rcases Nat.lt_or_ge idx i with hlt | hge'
      · have hless : erased idx < erased i := hmono (Set.mem_Iio.mpr (by omega)) hi hlt
        have := (hbelow idx (by omega)).mp (by omega)
        omega
      · obtain rfl : i = idx := by omega
        exact hat ⟨hi, him⟩
    have hmem : m ∉ (Finset.range n).image erased := by
      simp only [Finset.mem_image, Finset.mem_range, not_exists, not_and]
      exact hnot
    refine ⟨hidx, fun i hi => ?_, fun j hj x hx => ?_⟩
    · have := hbelow i hi
      have := hnot i hi
      dsimp only
      omega
    · dsimp only
      rw [forLoop_update_self (fun j block => addmul t block (data m)
        (t.inverse (rows j ^^^ m ^^^ 128)) b), if_pos hj, inverse_reduce ht (hrows j hj) (by omega),
        addmul_eq ht, Finset.sum_range_succ, if_neg hmem, ← add_assoc, ← h.sum j hj x hx]
      exact if_pos hx

include ht in
/-- `reduce` meets every erased block and leaves their contribution to the FEC blocks. -/
theorem reduce_spec (hk : k ≤ 128) (hrows : ∀ i < n, rows i < 128)
    (hmono : StrictMonoOn erased (Set.Iio n)) (herased : ∀ i < n, erased i < k)
    {data received fec : ℕ → Block}
    (hreceived : ∀ c < k, (∀ i < n, erased i ≠ c) → ∀ x < b, received c x = data c x)
    (hfec : ∀ j < n, ∀ x < b, fec j x = ∑ c ∈ Finset.range k, coeff (rows j) c * data c x) :
    ∃ red, reduce t b received k fec rows erased n = some red ∧ ∀ j < n, ∀ x < b,
      red j x = ∑ i ∈ Finset.range n, coeff (rows j) (erased i) * data (erased i) x := by
  have hinv := forLoop_induction (f := reduceCol t b received rows erased n) (n := k)
    (s := (0, fec)) (ReduceInv b n rows erased received fec)
    ⟨Nat.zero_le n, fun i hi => by simp, fun j hj x hx => by simp⟩
    (fun m s hm hs => reduceCol_spec ht hk hrows hmono hm hs)
  unfold reduce
  rcases hs : forLoop (reduceCol t b received rows erased n) k (0, fec) with ⟨idx, red⟩
  rw [hs] at hinv
  have hidx : n = idx := by
    have hle : idx ≤ n := hinv.le
    rcases Nat.lt_or_ge idx n with hlt | hge
    · exact absurd ((hinv.below_iff idx hlt).mp (herased idx hlt)) (lt_irrefl idx)
    · omega
  refine ⟨red, if_pos hidx, fun j hj x hx => ?_⟩
  have hinj : Set.InjOn erased (Finset.range n) := fun i hi i' hi' =>
    hmono.injOn (Finset.mem_range.mp hi) (Finset.mem_range.mp hi')
  have hsub : (Finset.range n).image erased ⊆ Finset.range k := by
    intro c hc
    obtain ⟨i, hi, rfl⟩ := Finset.mem_image.mp hc
    exact Finset.mem_range.mpr (herased i (Finset.mem_range.mp hi))
  calc red j x
      = ∑ c ∈ Finset.range k, (coeff (rows j) c * data c x +
          if c ∈ (Finset.range n).image erased then 0 else coeff (rows j) c * received c x) := by
        rw [Finset.sum_add_distrib, ← hfec j hj x hx]
        exact hinv.sum j hj x hx
    _ = ∑ c ∈ Finset.range k,
          if c ∈ (Finset.range n).image erased then coeff (rows j) c * data c x else 0 := by
        refine Finset.sum_congr rfl fun c hc => ?_
        by_cases hmem : c ∈ (Finset.range n).image erased
        · rw [if_pos hmem, if_pos hmem, add_zero]
        · have hne : ∀ i < n, erased i ≠ c := fun i hi he =>
            hmem (Finset.mem_image.mpr ⟨i, Finset.mem_range.mpr hi, he⟩)
          rw [if_neg hmem, if_neg hmem, hreceived c (Finset.mem_range.mp hc) hne x hx, Gf.add_self]
    _ = ∑ c ∈ (Finset.range n).image erased, coeff (rows j) c * data c x := by
        rw [← Finset.sum_filter, Finset.filter_mem_eq_inter, Finset.inter_eq_right.mpr hsub]
    _ = ∑ i ∈ Finset.range n, coeff (rows j) (erased i) * data (erased i) x :=
        Finset.sum_image hinj

/-- The loop over the targets of `resolve` writes every erased block once. -/
theorem resolve_loop {f : ℕ → Block → Block} (hinj : Set.InjOn erased (Set.Iio n))
    (data : ℕ → Block) {m : ℕ} (hm : m ≤ n) :
    let out := forLoop
      (fun row data => Function.update data (erased row) (f row (data (erased row)))) m data
    (∀ i < m, out (erased i) = f i (data (erased i))) ∧
      ∀ c, (∀ i < m, erased i ≠ c) → out c = data c := by
  induction m with
  | zero => exact ⟨fun i hi => absurd hi (Nat.not_lt_zero i), fun c _ => rfl⟩
  | succ m ih =>
    obtain ⟨hdone, hrest⟩ := ih (by omega)
    have hne : ∀ i < m, erased i ≠ erased m := fun i hi he => by
      have := hinj (Set.mem_Iio.mpr (by omega)) (Set.mem_Iio.mpr (by omega)) he
      omega
    refine ⟨fun i hi => ?_, fun c hc => ?_⟩
    · rw [forLoop_succ]
      rcases Nat.lt_or_ge i m with hlt | hge
      · rw [Function.update_of_ne (hne i hlt), hdone i hlt]
      · obtain rfl : i = m := by omega
        rw [Function.update_self, hrest _ hne]
    · rw [forLoop_succ, Function.update_of_ne (hc m (by omega)).symm,
        hrest c fun i hi => hc i (by omega)]

include ht in
/-- `resolve` finds a pivot in every turn and solves the reduced system. -/
theorem resolve_spec (hk : k ≤ 128) (hrows : ∀ i < n, rows i < 128)
    (hrinj : Set.InjOn rows (Set.Iio n)) (hinj : Set.InjOn erased (Set.Iio n))
    (herased : ∀ i < n, erased i < k) {data received red : ℕ → Block}
    (hreceived : ∀ c < k, (∀ i < n, erased i ≠ c) → ∀ x < b, received c x = data c x)
    (hred : ∀ j < n, ∀ x < b,
      red j x = ∑ i ∈ Finset.range n, coeff (rows j) (erased i) * data (erased i) x) :
    ∃ out, resolve t b received red rows erased n = some out ∧
      ∀ c < k, ∀ x < b, out c x = data c x := by
  have hmatrix : (toMatrix n fun i j => t.inverse ((128 + rows i) ^^^ erased j)) =
      toMatrix n fun i j => coeff (rows i) (erased j) := by
    ext i j
    have := herased j j.isLt
    exact inverse_resolve ht (hrows i i.isLt) (by omega)
  obtain ⟨inv, hinv, hmul⟩ := invertMat_of_det_ne_zero ht (k := n)
    (fun i j => t.inverse ((128 + rows i) ^^^ erased j)) (by
      rw [hmatrix]
      exact det_coeff_ne_zero hrows (fun i hi => by have := herased i hi; omega) hrinj hinj)
  rw [hmatrix] at hmul
  refine ⟨_, by rw [resolve, hinv, Option.map_some], fun c hc x hx => ?_⟩
  obtain ⟨hdone, hrest⟩ := resolve_loop (f := fun row target => resolveRow t b red (inv row) n target)
    hinj received le_rfl
  by_cases hex : ∃ i < n, erased i = c
  · obtain ⟨i, hi, rfl⟩ := hex
    rw [hdone i hi, resolveRow, mul_addmul_loop ht b (by omega) red (inv i)]
    dsimp only
    rw [if_pos hx]
    have hrow : ∀ l < n, ∑ j ∈ Finset.range n, inv i j * coeff (rows j) (erased l) =
        if i = l then 1 else 0 := by
      intro l hl
      have hentry := congrFun (congrFun hmul ⟨i, hi⟩) ⟨l, hl⟩
      rw [Matrix.mul_apply, Matrix.one_apply] at hentry
      rw [Finset.sum_range]
      simpa [Fin.mk.injEq, toMatrix] using hentry
    calc ∑ j ∈ Finset.range n, inv i j * red j x
        = ∑ j ∈ Finset.range n, ∑ l ∈ Finset.range n,
            inv i j * (coeff (rows j) (erased l) * data (erased l) x) := by
          refine Finset.sum_congr rfl fun j hj => ?_
          rw [hred j (Finset.mem_range.mp hj) x hx, Finset.mul_sum]
      _ = ∑ l ∈ Finset.range n, (if i = l then 1 else 0) * data (erased l) x := by
          rw [Finset.sum_comm]
          refine Finset.sum_congr rfl fun l hl => ?_
          rw [← hrow l (Finset.mem_range.mp hl), Finset.sum_mul]
          exact Finset.sum_congr rfl fun j _ => (mul_assoc ..).symm
      _ = data (erased i) x := by
          simp only [ite_mul, one_mul, zero_mul, Finset.sum_ite_eq, Finset.mem_range, if_pos hi]
  · push Not at hex
    rw [hrest c hex, hreceived c hc hex x hx]

include ht in
/-- Decoding from any `n` of the FEC blocks, for tables in the state `fec_init` leaves. -/
theorem fecDecode_spec (hk : k ≤ 128) (hrows : ∀ i < n, rows i < 128)
    (hrinj : Set.InjOn rows (Set.Iio n)) (hmono : StrictMonoOn erased (Set.Iio n))
    (herased : ∀ i < n, erased i < k) {data received fec : ℕ → Block}
    (hreceived : ∀ c < k, (∀ i < n, erased i ≠ c) → ∀ x < b, received c x = data c x)
    (hfec : ∀ j < n, ∀ x < b, fec j x = ∑ c ∈ Finset.range k, coeff (rows j) c * data c x) :
    ∃ out red, fecDecode t b received k fec rows erased n = some (out, red) ∧
      ∀ c < k, ∀ x < b, out c x = data c x := by
  obtain ⟨red, hreduce, hred⟩ := reduce_spec ht hk hrows hmono herased hreceived hfec
  obtain ⟨out, hresolve, hout⟩ := resolve_spec ht hk hrows hrinj hmono.injOn herased hreceived hred
  exact ⟨out, red, by rw [fecDecode, hreduce, Option.bind_some, hresolve, Option.map_some], hout⟩

end Decode

/-- After `fec_init`, decoding restores all data blocks from the received ones and as
many distinct FEC blocks, in any order, as there are erased data blocks. -/
theorem fecDecode_fecEncode (t₀ : GfTables) (b k R : ℕ) (hk : 1 ≤ k) (hk' : k ≤ 128) (hR : R ≤ 128)
    (data junk fecBlocks : ℕ → Block) (erased rows : List ℕ)
    (herased : erased.Pairwise (· < ·)) (hbelow : ∀ e ∈ erased, e < k)
    (hrlen : rows.length = erased.length) (hrows : rows.Nodup)
    (hrbelow : ∀ r ∈ rows, r < R) :
    ∃ fec out red, fecEncode (fecInit t₀) b data k fecBlocks R = some fec ∧
      fecDecode (fecInit t₀) b (fun i => if i ∈ erased then junk i else data i) k
        (fun j => fec (rows.getD j 0)) (rows.getD · 0) (erased.getD · 0) erased.length =
        some (out, red) ∧
      ∀ i < k, ∀ x < b, out i x = data i x := by
  have ht := fecInit_ready t₀
  obtain ⟨fec, hencode, hfec⟩ := fecEncode_eq ht (b := b) hk hk' hR data fecBlocks
  have hget : ∀ {l : List ℕ} {i : ℕ} (hi : i < l.length), l.getD i 0 = l[i] := fun hi =>
    List.getD_eq_getElem _ _ hi
  have hrow : ∀ i < erased.length, rows.getD i 0 < R := fun i hi => by
    rw [hget (by omega)]
    exact hrbelow _ (List.getElem_mem _)
  have hrinj : Set.InjOn (rows.getD · 0) (Set.Iio erased.length) := by
    intro i hi j hj hij
    rw [Set.mem_Iio, ← hrlen] at hi hj
    simp only [hget hi, hget hj] at hij
    exact (List.Nodup.getElem_inj_iff hrows).mp hij
  have hmono : StrictMonoOn (erased.getD · 0) (Set.Iio erased.length) := by
    intro i hi j hj hij
    simp only [hget hi, hget hj]
    exact List.pairwise_iff_getElem.mp herased i j hi hj hij
  have hreceived : ∀ c < k, (∀ i < erased.length, erased.getD i 0 ≠ c) → ∀ x < b,
      (if c ∈ erased then junk c else data c) x = data c x := fun c _ hc x _ => by
    have hmem : c ∉ erased := fun hmem => by
      obtain ⟨i, hi, he⟩ := List.getElem_of_mem hmem
      exact hc i hi ((hget hi).trans he)
    rw [if_neg hmem]
  obtain ⟨out, red, hdecode, hout⟩ := fecDecode_spec ht hk'
    (fun i hi => Nat.lt_of_lt_of_le (hrow i hi) hR) hrinj hmono
    (fun i hi => by rw [hget hi]; exact hbelow _ (List.getElem_mem _)) hreceived
    (fun j hj x hx => hfec _ (hrow j hj) x hx)
  exact ⟨fec, out, red, hencode, hdecode, hout⟩

/-- Three blocks of two bytes, of which the first and the last one are lost and the two
FEC blocks arrive in the opposite order. -/
theorem fecDecode_fecEncode_two_of_three :
    ∃ fec out red, fecEncode (fecInit .zero) 2 (fun i x => .ofNat (7 * i + x)) 3
        (fun _ _ => .ofNat 0) 2 = some fec ∧
      fecDecode (fecInit .zero) 2
        (fun i => if i ∈ [0, 2] then fun _ => .ofNat 137 else fun x => .ofNat (7 * i + x)) 3
        (fun j => fec ([1, 0].getD j 0)) ([1, 0].getD · 0) ([0, 2].getD · 0) 2 = some (out, red) ∧
      ∀ i < 3, ∀ x < 2, out i x = .ofNat (7 * i + x) :=
  fecDecode_fecEncode .zero 2 3 2 (by decide) (by decide) (by decide) (fun i x => .ofNat (7 * i + x))
    (fun _ _ => .ofNat 137) (fun _ _ => .ofNat 0) [0, 2] [1, 0] (by decide) (by decide) rfl
    (by decide) (by decide)

end Udpcast.Fec
