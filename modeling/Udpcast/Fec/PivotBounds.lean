import Udpcast.Fec.InvertMat

/-!
# The indices of matrix inversion

Every pivot that `invert_mat` finds and every exchange that it records lies within the matrix,
so that the complaints of its last loop are never printed and nothing outside the matrix
is written.
-/

namespace Udpcast.Fec

/-- The variables of `invert_mat` before the first turn. -/
def invStart (src : ℕ → Block) : InvState := ⟨src, fun _ => 0, fun _ => 0, fun _ => 0⟩

/-- The entries outside the matrix are the same. -/
def SameOutside (k : ℕ) (src src' : ℕ → Block) : Prop :=
  ∀ i j, k ≤ i ∨ k ≤ j → src' i j = src i j

/-- The exchanges of the first `n` turns lie within the matrix. -/
def SwapsWithin (k : ℕ) (s : InvState) (n : ℕ) : Prop :=
  ∀ col < n, s.indxr col < k ∧ s.indxc col < k

variable {t : GfTables} {k p q n : ℕ} {src src' src'' : ℕ → Block} {s s' : InvState}

section Outside

/-- Nothing changed, and nothing outside. -/
theorem SameOutside.refl (src : ℕ → Block) : SameOutside k src src := fun _ _ _ => rfl

/-- What stays the same in both halves stays the same. -/
theorem SameOutside.trans (h : SameOutside k src src') (h' : SameOutside k src' src'') :
    SameOutside k src src'' :=
  fun i j hij => (h' i j hij).trans (h i j hij)

/-- A loop all of whose turns write within the matrix. -/
theorem SameOutside.forLoop {body : ℕ → (ℕ → Block) → ℕ → Block}
    (h : ∀ ix < n, ∀ src, SameOutside k src (body ix src)) (src : ℕ → Block) :
    SameOutside k src (forLoop body n src) :=
  forLoop_induction (fun _ src' => SameOutside k src src') (.refl src)
    fun ix src' hix hsame => hsame.trans (h ix hix src')

/-- An assignment within the matrix leaves the rest of the array alone. -/
theorem setEntry_outside (hp : p < k) (hq : q < k) (src : ℕ → Block) (v : Gf) :
    SameOutside k src (setEntry src p q v) := by
  intro i j hij
  rw [setEntry_apply, if_neg (by omega)]

/-- So does an exchange of two entries of the matrix. -/
theorem swapEntry_outside {r1 c1 r2 c2 : ℕ} (hr1 : r1 < k) (hc1 : c1 < k) (hr2 : r2 < k)
    (hc2 : c2 < k) (src : ℕ → Block) : SameOutside k src (swapEntry src r1 c1 r2 c2) :=
  (setEntry_outside hr1 hc1 src _).trans (setEntry_outside hr2 hc2 _ _)

/-- So does an exchange of two of its rows. -/
theorem swapRows_outside (hp : p < k) (hq : q < k) (src : ℕ → Block) :
    SameOutside k src (swapRows k p q src) := by
  unfold swapRows
  split
  · exact .forLoop (fun ix hix src => swapEntry_outside hp hix hq hix src) src
  · exact .refl src

/-- So does the scaling of a row. -/
theorem scaleRow_outside (hp : p < k) (src : ℕ → Block) :
    SameOutside k src (scaleRow t k p src) := by
  unfold scaleRow
  dsimp only
  split
  · exact (setEntry_outside hp hp src _).trans
      (.forLoop (fun ix hix src => setEntry_outside hp hix src _) _)
  · exact .refl src

/-- So does the clearing of a row, which reads and writes its first `k` entries. -/
theorem clearRow_outside (ht : t.Ready) (hp : p < k) (hq : q < k) (src : ℕ → Block) :
    SameOutside k src (clearRow t k p q src) := by
  unfold clearRow
  split
  · refine (setEntry_outside hq hp src (Gf.ofNat 0)).trans fun i j hij => ?_
    rcases eq_or_ne i q with rfl | hi
    · rw [Function.update_self, addmul_eq ht]
      exact if_neg (by omega)
    · exact congrFun (Function.update_of_ne hi _ _) j
  · exact .refl src

/-- So does the loop that clears all the rows. -/
theorem clearRows_outside (ht : t.Ready) (hp : p < k) (src : ℕ → Block) :
    SameOutside k src (clearRows t k p src) := by
  unfold clearRows
  dsimp only
  split
  · exact .forLoop (fun ix hix src => clearRow_outside ht hp hix src) src
  · exact .refl src

/-- So does the loop at the end that undoes the exchanges in the columns. -/
theorem undoSwaps_outside {indxr indxc : ℕ → ℕ} (n : ℕ) (src : ℕ → Block) :
    SameOutside k src (undoSwaps k indxr indxc n src) := by
  induction n generalizing src with
  | zero => exact .refl src
  | succ n ih =>
    rw [undoSwaps]
    refine SameOutside.trans ?_ (ih _)
    split
    · exact .refl src
    · split
      · exact .refl src
      · split
        · exact .forLoop (fun row hrow src =>
            swapEntry_outside hrow (by omega) hrow (by omega) src) src
        · exact .refl src

end Outside

section Turns

variable (ht : t.Ready)
include ht

/-- The pivot of a turn lies within the matrix. -/
theorem pivot_within {col r c : ℕ} (hn : n ≤ k) (hcol : col < k)
    (hturns : eliminateCols t k (invStart src) n = some s) (hfound : findPivot s k col = .found r c) :
    r < k ∧ c < k := by
  rcases eliminateCols_spec ht src hn with ⟨hnone, -⟩ | ⟨s₁, hsome, hinv⟩
  · rw [invStart, hnone] at hturns
    cases hturns
  · obtain rfl := Option.some.inj (hsome.symm.trans hturns)
    rcases findPivot_spec hinv.ipiv_le hcol with ⟨hcont, -⟩ | ⟨r', hr, c', hc, hfound', -⟩
    · rw [hcont] at hfound
      cases hfound
    · obtain ⟨rfl, rfl⟩ := Search.found.inj (hfound'.symm.trans hfound)
      exact ⟨hr, hc⟩

/-- What one turn records and writes. -/
theorem eliminateCol_within (hturn : eliminateCol t k n s = some s')
    (hpivot : ∀ r c, findPivot s k n = .found r c → r < k ∧ c < k) (hswaps : SwapsWithin k s n) :
    SwapsWithin k s' (n + 1) ∧ SameOutside k s.src s'.src := by
  unfold eliminateCol at hturn
  split at hturn
  · rename_i r c hfound
    obtain ⟨hr, hc⟩ := hpivot r c hfound
    dsimp only at hturn
    split at hturn
    · cases hturn
    · obtain rfl := Option.some.inj hturn
      refine ⟨fun col hcol => ?_, ?_⟩
      · dsimp only
        rcases eq_or_ne col n with rfl | hne
        · rw [Function.update_self, Function.update_self]
          exact ⟨hr, hc⟩
        · rw [Function.update_of_ne hne, Function.update_of_ne hne]
          exact hswaps col (by omega)
      · exact ((swapRows_outside hr hc s.src).trans (scaleRow_outside hc _)).trans
          (clearRows_outside ht hc _)
  · cases hturn

/-- All the exchanges that are recorded are of rows and columns of the matrix, and nothing else of
the array is written. -/
theorem eliminateCols_within (hn : n ≤ k) (hturns : eliminateCols t k (invStart src) n = some s) :
    SwapsWithin k s n ∧ SameOutside k src s.src := by
  induction n generalizing s with
  | zero =>
    obtain rfl := Option.some.inj hturns
    exact ⟨fun col hcol => absurd hcol (Nat.not_lt_zero col), .refl src⟩
  | succ n ih =>
    obtain ⟨s₁, hbefore, hturn⟩ := Option.bind_eq_some_iff.mp hturns
    obtain ⟨hswaps, hsame⟩ := ih (by omega) hbefore
    have hpivot := fun r c => pivot_within ht (r := r) (c := c) (by omega) hn hbefore
    obtain ⟨hswaps', hsame'⟩ := eliminateCol_within ht hturn hpivot hswaps
    exact ⟨hswaps', hsame.trans hsame'⟩

end Turns

/-- `invert_mat` on the matrix `src`: it returns 0 exactly if the matrix is nonsingular, and the
array then holds the inverse; pivots, exchanges and writes stay within the matrix. -/
structure InvertsMatrix (t : GfTables) (k : ℕ) (src : ℕ → Block) : Prop where
  returns : (∃ inv, invertMat t src k = some inv) ↔ (toMatrix k src).det ≠ 0
  inverse : ∀ inv, invertMat t src k = some inv →
    toMatrix k inv * toMatrix k src = 1 ∧ toMatrix k src * toMatrix k inv = 1
  pivots : ∀ col < k, ∀ s r c, eliminateCols t k (invStart src) col = some s →
    findPivot s k col = .found r c → r < k ∧ c < k
  swaps : ∀ s, eliminateCols t k (invStart src) k = some s → SwapsWithin k s k
  inside : ∀ inv, invertMat t src k = some inv → SameOutside k src inv

/-- With the tables of `fec_init`, `invert_mat` inverts every invertible matrix and rejects
every other one. -/
theorem invertMat_inverts (tables : GfTables) (k : ℕ) (src : ℕ → Block) :
    InvertsMatrix (fecInit tables) k src := by
  have ht := fecInit_ready tables
  refine ⟨?_, fun inv hinv => ?_, fun col hcol s r c => ?_, fun s hs => ?_, fun inv hinv => ?_⟩
  · constructor
    · rintro ⟨inv, hinv⟩ hdet
      rcases invertMat_spec ht src with ⟨hnone, -⟩ | ⟨inv', -, hmul⟩
      · rw [hinv] at hnone
        cases hnone
      · have hone := congrArg Matrix.det hmul
        rw [Matrix.det_mul, hdet, mul_zero, Matrix.det_one] at hone
        exact zero_ne_one hone
    · intro hdet
      obtain ⟨inv, hinv, -⟩ := invertMat_of_det_ne_zero ht src hdet
      exact ⟨inv, hinv⟩
  · rcases invertMat_spec ht src with ⟨hnone, -⟩ | ⟨inv', hsome, hmul⟩
    · rw [hinv] at hnone
      cases hnone
    · obtain rfl := Option.some.inj (hsome.symm.trans hinv)
      exact ⟨hmul, mul_eq_one_comm.mp hmul⟩
  · exact pivot_within ht (le_of_lt hcol) hcol
  · exact (eliminateCols_within ht le_rfl hs).1
  · obtain ⟨s, hs, rfl⟩ := Option.map_eq_some_iff.mp hinv
    exact (eliminateCols_within ht le_rfl hs).2.trans (undoSwaps_outside k s.src)

end Udpcast.Fec
