import Udpcast.Fec.Blocks
import Udpcast.Lib.GaussJordan

/-!
# Matrix inversion

`invert_mat` of `fec.c`, an in-place Gauss-Jordan elimination with pivot search.
The entry `src[row*k + col]` is `src row col`. The elimination succeeds exactly on
nonsingular matrices and then leaves the inverse.
-/

namespace Udpcast.Fec

/-- Outcome of a pivot search: go on searching, a pivot, or `goto fail`. -/
inductive Search
  | cont
  | found (irow icol : ℕ)
  | fail
  deriving DecidableEq

/-- The local variables of `invert_mat`. -/
structure InvState where
  /-- `src`. -/
  src : ℕ → Block
  /-- `indxc`: column of the pivot used in each turn. -/
  indxc : ℕ → ℕ
  /-- `indxr`: row in which that pivot was found. -/
  indxr : ℕ → ℕ
  /-- `ipiv`: elements already used as pivots. -/
  ipiv : ℕ → ℕ

/-- The innermost search loop: the remaining columns of one row, from `ix` on. -/
def searchCols (s : InvState) (row : ℕ) : ℕ → ℕ → Search
  | 0, _ => .cont
  | rem + 1, ix =>
    if s.ipiv ix = 0 then
      if s.src row ix ≠ 0 then .found row ix else searchCols s row rem (ix + 1)
    else if 1 < s.ipiv ix then .fail
    else searchCols s row rem (ix + 1)

/-- The search loop over the remaining rows, from `row` on. -/
def searchRows (s : InvState) (k : ℕ) : ℕ → ℕ → Search
  | 0, _ => .cont
  | rem + 1, row =>
    if s.ipiv row ≠ 1 then
      match searchCols s row k 0 with
      | .cont => searchRows s k rem (row + 1)
      | r => r
    else searchRows s k rem (row + 1)

/-- The pivot for turn `col`: on the diagonal if possible, else elsewhere. -/
def findPivot (s : InvState) (k col : ℕ) : Search :=
  if s.ipiv col ≠ 1 ∧ s.src col col ≠ 0 then .found col col else searchRows s k k 0

/-- Write one entry. -/
def setEntry (src : ℕ → Block) (row col : ℕ) (v : Gf) : ℕ → Block :=
  Function.update src row (Function.update (src row) col v)

/-- `SWAP(src[r1][c1], src[r2][c2])`. -/
def swapEntry (src : ℕ → Block) (r1 c1 r2 c2 : ℕ) : ℕ → Block :=
  setEntry (setEntry src r1 c1 (src r2 c2)) r2 c2 (src r1 c1)

/-- The row exchange before a pivot is used. -/
def swapRows (k irow icol : ℕ) (src : ℕ → Block) : ℕ → Block :=
  if irow ≠ icol then forLoop (fun ix src => swapEntry src irow ix icol ix) k src else src

/-- Normalisation of the pivot row. -/
def scaleRow (t : GfTables) (k icol : ℕ) (src : ℕ → Block) : ℕ → Block :=
  let c := src icol icol
  if c ≠ Gf.ofNat 1 then
    let c := t.inverseOf c
    forLoop (fun ix src => setEntry src icol ix (t.gfMul c (src icol ix))) k
      (setEntry src icol icol (Gf.ofNat 1))
  else src

/-- Removal of the pivot row from another row. -/
def clearRow (t : GfTables) (k icol ix : ℕ) (src : ℕ → Block) : ℕ → Block :=
  if ix ≠ icol then
    let c := src ix icol
    let src := setEntry src ix icol (Gf.ofNat 0)
    Function.update src ix (addmul t (src ix) (src icol) c k)
  else src

/-- Removal of the pivot row from all other rows, skipped when it is `id_row`. -/
def clearRows (t : GfTables) (k icol : ℕ) (src : ℕ → Block) : ℕ → Block :=
  let idRow : Block := Function.update (fun _ => Gf.ofNat 0) icol (Gf.ofNat 1)
  if ∃ i < k, src icol i ≠ idRow i then forLoop (clearRow t k icol) k src else src

/-- One turn of the elimination loop; `none` is `goto fail`. -/
def eliminateCol (t : GfTables) (k col : ℕ) (s : InvState) : Option InvState :=
  match findPivot s k col with
  | .found irow icol =>
    let ipiv := Function.update s.ipiv icol (s.ipiv icol + 1)
    let src := swapRows k irow icol s.src
    let indxr := Function.update s.indxr col irow
    let indxc := Function.update s.indxc col icol
    if src icol icol = Gf.ofNat 0 then none
    else some ⟨clearRows t k icol (scaleRow t k icol src), indxc, indxr, ipiv⟩
  | _ => none

/-- The first `n` turns of the elimination loop. -/
def eliminateCols (t : GfTables) (k : ℕ) (s : InvState) : ℕ → Option InvState
  | 0 => some s
  | n + 1 => (eliminateCols t k s n).bind (eliminateCol t k n)

/-- The final loop over `col = n - 1` down to `0`, which turns the row exchanges
into column exchanges. -/
def undoSwaps (k : ℕ) (indxr indxc : ℕ → ℕ) : ℕ → (ℕ → Block) → ℕ → Block
  | 0, src => src
  | n + 1, src =>
    undoSwaps k indxr indxc n
      (if k ≤ indxr n then src
      else if k ≤ indxc n then src
      else if indxr n ≠ indxc n then
        forLoop (fun row src => swapEntry src row (indxr n) row (indxc n)) k src
      else src)

/-- `invert_mat(src, k)`: `none` for a non-zero return value. -/
def invertMat (t : GfTables) (src : ℕ → Block) (k : ℕ) : Option (ℕ → Block) :=
  (eliminateCols t k ⟨src, fun _ => 0, fun _ => 0, fun _ => 0⟩ k).map fun s =>
    undoSwaps k s.indxr s.indxc k s.src

section Search

variable {s : InvState} {k : ℕ}

/-- With no `ipiv` above one, the search in a row finds an unused nonzero column or
passes over the whole row. -/
theorem searchCols_spec (hipiv : ∀ i < k, s.ipiv i ≤ 1) (row : ℕ) {rem ix : ℕ}
    (hrem : ix + rem = k) :
    (searchCols s row rem ix = .cont ∧ ∀ i, ix ≤ i → i < k → s.ipiv i = 0 → s.src row i = 0) ∨
      ∃ i < k, searchCols s row rem ix = .found row i ∧ s.ipiv i = 0 ∧ s.src row i ≠ 0 := by
  induction rem generalizing ix with
  | zero => exact Or.inl ⟨rfl, fun i hi hik => by omega⟩
  | succ rem ih =>
    have hix := hipiv ix (by omega)
    have hnext : (s.ipiv ix = 0 → s.src row ix = 0) →
        searchCols s row (rem + 1) ix = searchCols s row rem (ix + 1) →
        (searchCols s row (rem + 1) ix = .cont ∧
          ∀ i, ix ≤ i → i < k → s.ipiv i = 0 → s.src row i = 0) ∨
        ∃ i < k, searchCols s row (rem + 1) ix = .found row i ∧ s.ipiv i = 0 ∧
          s.src row i ≠ 0 := by
      intro hzero heq
      rw [heq]
      rcases ih (show ix + 1 + rem = k by omega) with ⟨hcont, hall⟩ | hfound
      · refine Or.inl ⟨hcont, fun i hi hik hiz => ?_⟩
        rcases Nat.lt_or_ge ix i with hlt | hge
        · exact hall i hlt hik hiz
        · obtain rfl : i = ix := by omega
          exact hzero hiz
      · exact Or.inr hfound
    by_cases hfree : s.ipiv ix = 0
    · by_cases hentry : s.src row ix = 0
      · exact hnext (fun _ => hentry) (by simp [searchCols, hfree, hentry])
      · exact Or.inr ⟨ix, by omega, by simp [searchCols, hfree, hentry], hfree, hentry⟩
    · have hused : ¬1 < s.ipiv ix := by omega
      exact hnext (fun h => absurd h hfree) (by simp [searchCols, hfree, hused])

/-- The search over the rows finds a pivot that is not 0 in an unused row and column, or there is
none from `row` on. -/
theorem searchRows_spec (hipiv : ∀ i < k, s.ipiv i ≤ 1) {rem row : ℕ} (hrem : row + rem = k) :
    (searchRows s k rem row = .cont ∧
      ∀ r, row ≤ r → r < k → s.ipiv r = 0 → ∀ i < k, s.ipiv i = 0 → s.src r i = 0) ∨
      ∃ r < k, ∃ i < k, searchRows s k rem row = .found r i ∧ s.ipiv r = 0 ∧ s.ipiv i = 0 ∧
        s.src r i ≠ 0 := by
  induction rem generalizing row with
  | zero => exact Or.inl ⟨rfl, fun r hr hrk => by omega⟩
  | succ rem ih =>
    have hrow := hipiv row (by omega)
    have hnext : (s.ipiv row = 0 → ∀ i < k, s.ipiv i = 0 → s.src row i = 0) →
        searchRows s k (rem + 1) row = searchRows s k rem (row + 1) →
        (searchRows s k (rem + 1) row = .cont ∧
          ∀ r, row ≤ r → r < k → s.ipiv r = 0 → ∀ i < k, s.ipiv i = 0 → s.src r i = 0) ∨
        ∃ r < k, ∃ i < k, searchRows s k (rem + 1) row = .found r i ∧ s.ipiv r = 0 ∧
          s.ipiv i = 0 ∧ s.src r i ≠ 0 := by
      intro hzero heq
      rw [heq]
      rcases ih (show row + 1 + rem = k by omega) with ⟨hcont, hall⟩ | hfound
      · refine Or.inl ⟨hcont, fun r hr hrk hrz => ?_⟩
        rcases Nat.lt_or_ge row r with hlt | hge
        · exact hall r hlt hrk hrz
        · obtain rfl : r = row := by omega
          exact hzero hrz
      · exact Or.inr hfound
    by_cases hfree : s.ipiv row = 0
    · rcases searchCols_spec hipiv row (Nat.zero_add k) with ⟨hcont, hall⟩ | ⟨i, hi, hf, hiz, hne⟩
      · exact hnext (fun _ i hi => hall i (Nat.zero_le i) hi) (by simp [searchRows, hfree, hcont])
      · exact Or.inr ⟨row, by omega, i, hi, by simp [searchRows, hfree, hf], hfree, hiz, hne⟩
    · have hone : s.ipiv row = 1 := by omega
      exact hnext (fun h => absurd h hfree) (by simp [searchRows, hone])

/-- What the pivot search of one turn says about the array. -/
theorem findPivot_spec (hipiv : ∀ i < k, s.ipiv i ≤ 1) {col : ℕ} (hcol : col < k) :
    (findPivot s k col = .cont ∧
      ∀ r < k, s.ipiv r = 0 → ∀ i < k, s.ipiv i = 0 → s.src r i = 0) ∨
      ∃ r < k, ∃ i < k, findPivot s k col = .found r i ∧ s.ipiv r = 0 ∧ s.ipiv i = 0 ∧
        s.src r i ≠ 0 := by
  unfold findPivot
  split
  · rename_i h
    have hle := hipiv col hcol
    have hfree : s.ipiv col = 0 := by omega
    exact Or.inr ⟨col, hcol, col, hcol, rfl, hfree, hfree, h.2⟩
  · rcases searchRows_spec hipiv (Nat.zero_add k) with ⟨hcont, hall⟩ | hfound
    · exact Or.inl ⟨hcont, fun r => hall r (Nat.zero_le r)⟩
    · exact Or.inr hfound

end Search

section Entries

/-- An assignment to an entry changes that entry. -/
theorem setEntry_apply (src : ℕ → Block) (row col : ℕ) (v : Gf) (i j : ℕ) :
    setEntry src row col v i j = if i = row ∧ j = col then v else src i j := by
  by_cases hi : i = row
  · subst hi
    by_cases hj : j = col
    · subst hj
      simp [setEntry]
    · simp [setEntry, hj]
  · simp [setEntry, hi]

/-- `SWAP` exchanges two entries, which may be the same. -/
theorem swapEntry_apply (src : ℕ → Block) (r1 c1 r2 c2 i j : ℕ) :
    swapEntry src r1 c1 r2 c2 i j =
      if i = r2 ∧ j = c2 then src r1 c1 else if i = r1 ∧ j = c1 then src r2 c2 else src i j := by
  rw [swapEntry, setEntry_apply, setEntry_apply]

/-- The loop over the columns exchanges the two rows in the columns done so far. -/
theorem swapRows_loop (p q n : ℕ) (src : ℕ → Block) (i j : ℕ) :
    forLoop (fun ix src => swapEntry src p ix q ix) n src i j =
      if j < n then src (Equiv.swap p q i) j else src i j := by
  induction n generalizing i j with
  | zero => rfl
  | succ n ih =>
    rw [forLoop_succ, swapEntry_apply, ih, ih, ih]
    by_cases hj : j = n
    · subst hj
      simp only [lt_irrefl, if_false, and_true, if_pos (Nat.lt_succ_self j), Equiv.swap_apply_def]
      split_ifs <;> simp_all only
    · have hlt : j < n + 1 ↔ j < n := by omega
      simp only [hj, and_false, if_false, hlt]

/-- The loop over the rows exchanges the two columns in the rows done so far. -/
theorem swapCols_loop (p q n : ℕ) (src : ℕ → Block) (i j : ℕ) :
    forLoop (fun row src => swapEntry src row p row q) n src i j =
      if i < n then src i (Equiv.swap p q j) else src i j := by
  induction n generalizing i j with
  | zero => rfl
  | succ n ih =>
    rw [forLoop_succ, swapEntry_apply, ih, ih, ih]
    by_cases hi : i = n
    · subst hi
      simp only [lt_irrefl, if_false, true_and, if_pos (Nat.lt_succ_self i), Equiv.swap_apply_def]
      split_ifs <;> simp_all only
    · have hlt : i < n + 1 ↔ i < n := by omega
      simp only [hi, false_and, if_false, hlt]

/-- The row exchange, also when both rows are the same. -/
theorem swapRows_apply {k j : ℕ} (hj : j < k) (p q : ℕ) (src : ℕ → Block) (i : ℕ) :
    swapRows k p q src i j = src (Equiv.swap p q i) j := by
  unfold swapRows
  split
  · rw [swapRows_loop, if_pos hj]
  · rename_i h
    rw [not_not.mp h, Equiv.swap_self, Equiv.refl_apply]

variable {t : GfTables} (ht : t.Ready)
include ht

/-- The loop over the columns multiplies the row of the pivot in the columns done so far. -/
theorem scaleRow_loop (p n : ℕ) (c : Gf) (src : ℕ → Block) (i j : ℕ) :
    forLoop (fun ix src => setEntry src p ix (t.gfMul c (src p ix))) n src i j =
      if i = p ∧ j < n then c * src p j else src i j := by
  induction n generalizing i j with
  | zero => simp
  | succ n ih =>
    rw [forLoop_succ, setEntry_apply, ih, ih, ht.gfMul_eq]
    by_cases hj : j = n
    · subst hj
      by_cases hi : i = p <;> simp [hi]
    · have hlt : j < n + 1 ↔ j < n := by omega
      simp only [hj, and_false, if_false, hlt]

/-- The pivot becomes 1, and then its row is divided by what it was. -/
theorem scaleRow_apply {k p j : ℕ} (hj : j < k) (src : ℕ → Block) (i : ℕ) :
    scaleRow t k p src i j =
      if i = p then (src p p)⁻¹ * (if j = p then 1 else src p j) else src i j := by
  unfold scaleRow
  split
  · rw [scaleRow_loop ht, setEntry_apply, setEntry_apply, ht.inverse_eq, Gf.ofNat_one]
    by_cases hi : i = p <;> simp [hi, hj]
  · rename_i h
    have hone : src p p = 1 := not_not.mp h
    by_cases hi : i = p
    · by_cases hjp : j = p
      · rw [if_pos hi, if_pos hjp, hi, hjp, hone, inv_one, one_mul]
      · rw [if_pos hi, if_neg hjp, hi, hone, inv_one, one_mul]
    · rw [if_neg hi]

/-- A multiple of the pivot row is added to another row, whose entry in the column of the pivot is
set to 0 before. -/
theorem clearRow_apply {k p j : ℕ} (hj : j < k) (src : ℕ → Block) (ix i : ℕ) :
    clearRow t k p ix src i j =
      if i = ix ∧ ix ≠ p then (if j = p then 0 else src i j) + src i p * src p j
      else src i j := by
  unfold clearRow
  by_cases hix : ix = p
  · rw [if_neg (not_not.mpr hix), if_neg (fun h => h.2 hix)]
  · rw [if_pos hix]
    by_cases hi : i = ix
    · subst hi
      rw [Function.update_self, addmul_eq ht, if_pos ⟨rfl, hix⟩]
      simp only [if_pos hj, setEntry_apply, Ne.symm hix, false_and, if_false, true_and, Gf.zero_def]
    · rw [Function.update_of_ne hi, setEntry_apply, if_neg (fun h => hi h.1),
        if_neg (fun h => hi h.1)]

/-- The loop over the rows does so to all rows but that of the pivot. -/
theorem clearRows_loop {k p i j : ℕ} (hp : p < k) (hj : j < k) (n : ℕ) (src : ℕ → Block) :
    forLoop (clearRow t k p) n src i j =
      if i < n ∧ i ≠ p then (if j = p then 0 else src i j) + src i p * src p j
      else src i j := by
  induction n generalizing i j with
  | zero => simp
  | succ n ih =>
    rw [forLoop_succ, clearRow_apply ht hj, ih hj, ih hp, ih hj]
    by_cases hi : i = n
    · subst hi
      simp
    · have hlt : i < n + 1 ↔ i < n := by omega
      simp only [hi, false_and, if_false, hlt]

/-- The other rows once the pivot row is removed from them; removing a unit row
changes nothing. -/
theorem clearRows_apply {k p i j : ℕ} (hp : p < k) (hi : i < k) (hj : j < k) (src : ℕ → Block) :
    clearRows t k p src i j =
      if i = p then src p j else (if j = p then 0 else src i j) + src i p * src p j := by
  unfold clearRows
  split
  · rw [clearRows_loop ht hp hj]
    by_cases hip : i = p <;> simp [hi, hip]
  · rename_i hid
    push Not at hid
    by_cases hip : i = p
    · rw [if_pos hip, hip]
    · rw [if_neg hip, hid j hj]
      by_cases hjp : j = p
      · rw [if_pos hjp, hjp, Function.update_self, Gf.ofNat_one, mul_one, zero_add]
      · rw [if_neg hjp, Function.update_of_ne hjp, ← Gf.zero_def, mul_zero, add_zero]

end Entries

/-- The array as a matrix. -/
def toMatrix (k : ℕ) (src : ℕ → Block) : Matrix (Fin k) (Fin k) Gf := fun i j => src i j

/-- As matrices, exchanging rows is permuting them. -/
theorem toMatrix_swapRows {k : ℕ} (p q : Fin k) (src : ℕ → Block) :
    toMatrix k (swapRows k p q src) = (toMatrix k src).submatrix (Equiv.swap p q) id := by
  ext i j
  rw [toMatrix, swapRows_apply j.isLt, Fin.val_injective.swap_apply]
  rfl

/-- Scaling and clearing together are one step of the elimination in place. -/
theorem toMatrix_pivot {t : GfTables} (ht : t.Ready) {k : ℕ} (p : Fin k) (src : ℕ → Block) :
    toMatrix k (clearRows t k p (scaleRow t k p src)) = pivotStep (toMatrix k src) p := by
  ext i j
  have hp : ∀ i j : Fin k, (i : ℕ) = j ↔ i = j := fun i j => Fin.val_inj
  rw [toMatrix, clearRows_apply ht p.isLt i.isLt j.isLt, scaleRow_apply ht j.isLt,
    scaleRow_apply ht j.isLt, scaleRow_apply ht p.isLt, pivotStep]
  simp only [hp, toMatrix, CharTwo.neg_eq, CharTwo.sub_eq_add]
  by_cases hi : i = p <;> by_cases hj : j = p <;> simp [hi, hj, mul_comm]

/-- The row exchange of one turn. -/
def turnSwap (k : ℕ) (indxr indxc : ℕ → ℕ) (n : ℕ) : Equiv.Perm (Fin k) :=
  if h : indxr n < k ∧ indxc n < k then Equiv.swap ⟨indxr n, h.1⟩ ⟨indxc n, h.2⟩ else 1

/-- The row exchanges of the first `n` turns. -/
def swapPerm (k : ℕ) (indxr indxc : ℕ → ℕ) : ℕ → Equiv.Perm (Fin k)
  | 0 => 1
  | n + 1 => swapPerm k indxr indxc n * turnSwap k indxr indxc n

/-- The column exchanges that are still to be undone depend on the recorded rows and columns only.
-/
theorem swapPerm_congr {k n : ℕ} {indxr indxc indxr' indxc' : ℕ → ℕ}
    (hr : ∀ c < n, indxr' c = indxr c) (hc : ∀ c < n, indxc' c = indxc c) :
    swapPerm k indxr' indxc' n = swapPerm k indxr indxc n := by
  induction n with
  | zero => rfl
  | succ n ih =>
    rw [swapPerm, swapPerm, ih (fun c hc => hr c (by omega)) (fun c h => hc c (by omega))]
    simp only [turnSwap, hr n (by omega), hc n (by omega)]

/-- One round of the final loop exchanges columns as that turn exchanged rows. -/
theorem toMatrix_undoSwaps {k : ℕ} (indxr indxc : ℕ → ℕ) (n : ℕ) (src : ℕ → Block) :
    toMatrix k (undoSwaps k indxr indxc n src) =
      (toMatrix k src).submatrix id ⇑(swapPerm k indxr indxc n)⁻¹ := by
  induction n generalizing src with
  | zero => rfl
  | succ n ih =>
    rw [undoSwaps, ih, swapPerm, mul_inv_rev]
    ext i j
    simp only [Matrix.submatrix_apply, id, toMatrix, Equiv.Perm.mul_apply]
    generalize (swapPerm k indxr indxc n)⁻¹ j = l
    rw [turnSwap]
    split
    · rename_i hr
      rw [dif_neg (by omega), inv_one, Equiv.Perm.one_apply]
    · split
      · rename_i hc
        rw [dif_neg (by omega), inv_one, Equiv.Perm.one_apply]
      · rename_i hr hc
        have hperm := Fin.val_injective.swap_apply (⟨indxr n, by omega⟩ : Fin k)
          ⟨indxc n, by omega⟩ l
        rw [dif_pos ⟨by omega, by omega⟩, Equiv.swap_inv, ← hperm]
        dsimp only
        split
        · rw [swapCols_loop, if_pos i.isLt]
        · rename_i heq
          rw [not_not.mp heq, Equiv.swap_self, Equiv.refl_apply]

section Elimination

variable {t : GfTables} {k : ℕ} {A : Matrix (Fin k) (Fin k) Gf}

/-- The columns that have been used as pivots. -/
def InvState.pivots (k : ℕ) (s : InvState) : Finset (Fin k) := {i | s.ipiv i = 1}

/-- State of the elimination of `A` after `n` turns. -/
structure ElimInv (A : Matrix (Fin k) (Fin k) Gf) (s : InvState) (n : ℕ) : Prop where
  ipiv_le : ∀ i < k, s.ipiv i ≤ 1
  card_pivots : (s.pivots k).card = n
  eliminates : Eliminates (A.submatrix (swapPerm k s.indxr s.indxc n) id) (toMatrix k s.src)
    (s.pivots k)

/-- The invariant holds before the first column: no pivot has been used. -/
theorem ElimInv.start (src : ℕ → Block) :
    ElimInv (toMatrix k src) ⟨src, fun _ => 0, fun _ => 0, fun _ => 0⟩ 0 := by
  have hpivots : InvState.pivots k ⟨src, fun _ => 0, fun _ => 0, fun _ => 0⟩ = ∅ := by
    simp [InvState.pivots]
  refine ⟨fun i _ => Nat.zero_le 1, by rw [hpivots, Finset.card_empty], ?_⟩
  rw [hpivots]
  exact Eliminates.start (toMatrix k src)

/-- The used columns are those that `ipiv` marks. -/
theorem InvState.mem_pivots {s : InvState} {i : Fin k} : i ∈ s.pivots k ↔ s.ipiv i = 1 := by
  simp [InvState.pivots]

/-- The others are those that it leaves 0. -/
theorem ElimInv.notMem_pivots {s : InvState} {n : ℕ} (h : ElimInv A s n) {i : Fin k} :
    i ∉ s.pivots k ↔ s.ipiv i = 0 := by
  have := h.ipiv_le i i.isLt
  rw [InvState.mem_pivots]
  omega

/-- Before turn `k` some column is unused. -/
theorem ElimInv.exists_unused {s : InvState} {n : ℕ} (h : ElimInv A s n) (hn : n < k) :
    ∃ p, p ∉ s.pivots k := by
  by_contra hall
  push Not at hall
  have hcard := h.card_pivots
  rw [Finset.eq_univ_iff_forall.mpr hall, Finset.card_univ, Fintype.card_fin] at hcard
  omega

/-- A turn that found its pivot in row `q` and column `p`. -/
theorem ElimInv.turn (ht : t.Ready) {s : InvState} {n : ℕ} (h : ElimInv A s n) {p q : Fin k}
    (hp : s.ipiv p = 0) (hq : s.ipiv q = 0) (hne : s.src q p ≠ 0) :
    ElimInv A ⟨clearRows t k p (scaleRow t k p (swapRows k q p s.src)),
      Function.update s.indxc n p, Function.update s.indxr n q,
      Function.update s.ipiv p (s.ipiv p + 1)⟩ (n + 1) := by
  have hpP : p ∉ s.pivots k := h.notMem_pivots.mpr hp
  have hpivots : InvState.pivots k ⟨clearRows t k p (scaleRow t k p (swapRows k q p s.src)),
      Function.update s.indxc n p, Function.update s.indxr n q,
      Function.update s.ipiv p (s.ipiv p + 1)⟩ = insert p (s.pivots k) := by
    ext i
    rw [Finset.mem_insert, InvState.mem_pivots, InvState.mem_pivots]
    by_cases hi : i = p
    · simp [hi, hp]
    · have hi' : (i : ℕ) ≠ p := fun he => hi (Fin.ext he)
      simp [hi, hi']
  refine ⟨fun i hi => ?_, ?_, ?_⟩
  · have hle := h.ipiv_le i hi
    by_cases hip : i = p
    · simp [hip, hp]
    · simpa [hip] using hle
  · rw [hpivots, Finset.card_insert_of_notMem hpP, h.card_pivots]
  · have hperm : swapPerm k (Function.update s.indxr n q) (Function.update s.indxc n p) (n + 1) =
        swapPerm k s.indxr s.indxc n * Equiv.swap q p := by
      rw [swapPerm, swapPerm_congr (fun c hc => Function.update_of_ne (by omega) ..)
        (fun c hc => Function.update_of_ne (by omega) ..), turnSwap]
      simp
    have hentry : toMatrix k (swapRows k q p s.src) p p ≠ 0 := by
      rwa [toMatrix, swapRows_apply p.isLt, Equiv.swap_apply_right]
    have hswap := h.eliminates.swap (h.notMem_pivots.mpr hq) hpP
    rw [← toMatrix_swapRows] at hswap
    have hpivot := hswap.pivot hpP hentry
    rw [← toMatrix_pivot ht] at hpivot
    rw [hpivots, hperm]
    exact hpivot

/-- A turn finds a pivot unless the matrix is singular. -/
theorem eliminateCol_spec (ht : t.Ready) {s : InvState} {n : ℕ} (h : ElimInv A s n) (hn : n < k) :
    (eliminateCol t k n s = none ∧ A.det = 0) ∨
      ∃ s', eliminateCol t k n s = some s' ∧ ElimInv A s' (n + 1) := by
  rcases findPivot_spec h.ipiv_le hn with ⟨hcont, hall⟩ | ⟨r, hr, c, hc, hfound, hrz, hcz, hne⟩
  · left
    obtain ⟨p, hp⟩ := h.exists_unused hn
    have hdet := h.eliminates.det_eq_zero hp fun j hj =>
      hall p p.isLt (h.notMem_pivots.mp hp) j j.isLt (h.notMem_pivots.mp hj)
    rw [Matrix.det_permute] at hdet
    refine ⟨by rw [eliminateCol, hcont], ?_⟩
    rcases Int.units_eq_one_or (Equiv.Perm.sign (swapPerm k s.indxr s.indxc n)) with hsign | hsign
      <;> simpa [hsign] using hdet
  · right
    have hentry : swapRows k r c s.src c c ≠ 0 := by
      rwa [swapRows_apply hc, Equiv.swap_apply_right]
    refine ⟨_, by rw [eliminateCol, hfound]; exact if_neg hentry, ?_⟩
    exact h.turn ht (p := ⟨c, hc⟩) (q := ⟨r, hr⟩) hcz hrz hne

/-- The loop over the columns keeps the invariant, or gives up because the matrix is singular. -/
theorem eliminateCols_spec (ht : t.Ready) (src : ℕ → Block) {n : ℕ} (hn : n ≤ k) :
    let r := eliminateCols t k ⟨src, fun _ => 0, fun _ => 0, fun _ => 0⟩ n
    (r = none ∧ (toMatrix k src).det = 0) ∨ ∃ s, r = some s ∧ ElimInv (toMatrix k src) s n := by
  induction n with
  | zero => exact Or.inr ⟨_, rfl, ElimInv.start src⟩
  | succ n ih =>
    rcases ih (by omega) with ⟨hnone, hdet⟩ | ⟨s, hsome, hinv⟩
    · exact Or.inl ⟨by rw [eliminateCols, hnone, Option.bind_none], hdet⟩
    · rw [eliminateCols, hsome, Option.bind_some]
      exact eliminateCol_spec ht hinv (by omega)

/-- `invert_mat` fails exactly on singular matrices and inverts all others. -/
theorem invertMat_spec (ht : t.Ready) (src : ℕ → Block) :
    (invertMat t src k = none ∧ (toMatrix k src).det = 0) ∨
      ∃ inv, invertMat t src k = some inv ∧ toMatrix k inv * toMatrix k src = 1 := by
  rcases eliminateCols_spec ht src le_rfl with ⟨hnone, hdet⟩ | ⟨s, hsome, hinv⟩
  · exact Or.inl ⟨by rw [invertMat, hnone, Option.map_none], hdet⟩
  · refine Or.inr ⟨_, by rw [invertMat, hsome, Option.map_some], ?_⟩
    have huniv : s.pivots k = Finset.univ := by
      rw [← Finset.card_eq_iff_eq_univ, hinv.card_pivots, Fintype.card_fin]
    have hmul := (huniv ▸ hinv.eliminates).mul_eq_one
    rw [toMatrix_undoSwaps, ← hmul]
    set σ := swapPerm k s.indxr s.indxc k
    ext i j
    rw [Matrix.mul_apply, Matrix.mul_apply]
    refine Fintype.sum_equiv σ⁻¹ _ _ fun l => ?_
    simp only [Matrix.submatrix_apply, id]
    rw [← Equiv.Perm.mul_apply, mul_inv_cancel, Equiv.Perm.one_apply]

/-- A nonsingular matrix is inverted. -/
theorem invertMat_of_det_ne_zero (ht : t.Ready) (src : ℕ → Block)
    (hdet : (toMatrix k src).det ≠ 0) :
    ∃ inv, invertMat t src k = some inv ∧ toMatrix k inv * toMatrix k src = 1 :=
  (invertMat_spec ht src).resolve_left fun h => hdet h.2

end Elimination

end Udpcast.Fec
