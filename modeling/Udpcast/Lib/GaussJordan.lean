import Mathlib.LinearAlgebra.Matrix.NonsingularInverse
import Mathlib.LinearAlgebra.Matrix.Permutation

/-!
# In-place Gauss-Jordan elimination

The array `S` of an in-place elimination holds two matrices at once: once the
columns in `P` have been used as pivots, its columns in `P` are those of the row
operations done so far and its other columns are those of the transformed input.
One pivot and one exchange of two unused rows keep this reading, and with all
columns used the array holds the inverse.
-/

namespace Udpcast

open Matrix

variable {F : Type*} [Field F] {n : ℕ}

/-- The row operations recorded in `S`: its columns in `P`, unit columns elsewhere. -/
def eliminator (S : Matrix (Fin n) (Fin n) F) (P : Finset (Fin n)) : Matrix (Fin n) (Fin n) F :=
  fun i j => if j ∈ P then S i j else (1 : Matrix (Fin n) (Fin n) F) i j

/-- The transformed input recorded in `S`: unit columns in `P`, those of `S` elsewhere. -/
def eliminated (S : Matrix (Fin n) (Fin n) F) (P : Finset (Fin n)) : Matrix (Fin n) (Fin n) F :=
  fun i j => if j ∈ P then (1 : Matrix (Fin n) (Fin n) F) i j else S i j

/-- `S` is the state of an elimination of `A` with the pivots `P`. -/
structure Eliminates (A S : Matrix (Fin n) (Fin n) F) (P : Finset (Fin n)) : Prop where
  det_ne_zero : (eliminator S P).det ≠ 0
  mul_eq : eliminator S P * A = eliminated S P

/-- Before the first pivot nothing has been done, and the array is the matrix itself. -/
theorem Eliminates.start (A : Matrix (Fin n) (Fin n) F) : Eliminates A A ∅ := by
  have hone : eliminator A ∅ = 1 := by
    ext i j
    simp [eliminator]
  have hA : eliminated A ∅ = A := by
    ext i j
    simp [eliminated]
  exact ⟨by rw [hone, det_one]; exact one_ne_zero, by rw [hone, hA, Matrix.one_mul]⟩

/-- The elementary matrix that clears column `p` of `S` but for a one on the diagonal. -/
def pivotMatrix (S : Matrix (Fin n) (Fin n) F) (p : Fin n) : Matrix (Fin n) (Fin n) F :=
  fun i j => if j = p then (if i = p then (S p p)⁻¹ else -(S i p * (S p p)⁻¹))
    else (1 : Matrix (Fin n) (Fin n) F) i j

/-- The array after a pivot at `(p, p)`. -/
def pivotStep (S : Matrix (Fin n) (Fin n) F) (p : Fin n) : Matrix (Fin n) (Fin n) F := fun i j =>
  if i = p then (if j = p then (S p p)⁻¹ else S p j * (S p p)⁻¹)
  else if j = p then -(S i p * (S p p)⁻¹) else S i j - S i p * (S p j * (S p p)⁻¹)

/-- Left multiplication by the elementary matrix, entry by entry. -/
theorem pivotMatrix_mul_apply (S B : Matrix (Fin n) (Fin n) F) (p i j : Fin n) :
    (pivotMatrix S p * B) i j =
      if i = p then (S p p)⁻¹ * B p j else B i j - S i p * (S p p)⁻¹ * B p j := by
  rw [Matrix.mul_apply, ← Finset.add_sum_erase _ _ (Finset.mem_univ p)]
  have hrest : ∑ l ∈ Finset.univ.erase p, pivotMatrix S p i l * B l j =
      ∑ l ∈ Finset.univ.erase p, (1 : Matrix (Fin n) (Fin n) F) i l * B l j := by
    apply Finset.sum_congr rfl
    intro l hl
    rw [pivotMatrix, if_neg (Finset.ne_of_mem_erase hl)]
  rw [hrest]
  have hunit : ∑ l ∈ Finset.univ.erase p, (1 : Matrix (Fin n) (Fin n) F) i l * B l j =
      if i = p then 0 else B i j := by
    split
    · rename_i hi
      apply Finset.sum_eq_zero
      intro l hl
      rw [hi, Matrix.one_apply_ne (Finset.ne_of_mem_erase hl).symm, zero_mul]
    · rename_i hi
      rw [Finset.sum_eq_single i]
      · rw [Matrix.one_apply_eq, one_mul]
      · intro l _ hl
        rw [Matrix.one_apply_ne hl.symm, zero_mul]
      · simp [hi]
  rw [hunit, pivotMatrix, if_pos rfl]
  split
  · rw [add_zero]
  · ring

/-- The matrix that puts column `p` of `S` back. -/
def unpivotMatrix (S : Matrix (Fin n) (Fin n) F) (p : Fin n) : Matrix (Fin n) (Fin n) F :=
  fun i j => if j = p then S i p else (1 : Matrix (Fin n) (Fin n) F) i j

/-- The row operations of a pivot can be undone, because the pivot is not zero. -/
theorem pivotMatrix_mul_unpivotMatrix {S : Matrix (Fin n) (Fin n) F} {p : Fin n}
    (hp : S p p ≠ 0) : pivotMatrix S p * unpivotMatrix S p = 1 := by
  ext i j
  rw [pivotMatrix_mul_apply]
  simp only [unpivotMatrix]
  by_cases hj : j = p
  · by_cases hi : i = p
    · simp [hi, hj, hp, Matrix.one_apply]
    · simp [hi, hj, mul_assoc, inv_mul_cancel₀ hp]
  · by_cases hi : i = p
    · simp [hi, hj, Ne.symm hj]
    · simp [hi, hj, Matrix.one_apply, Ne.symm hj]

/-- Hence the matrix of these row operations is nonsingular. -/
theorem det_pivotMatrix_ne_zero {S : Matrix (Fin n) (Fin n) F} {p : Fin n} (hp : S p p ≠ 0) :
    (pivotMatrix S p).det ≠ 0 := by
  have hdet : (pivotMatrix S p).det * (unpivotMatrix S p).det = 1 := by
    rw [← det_mul, pivotMatrix_mul_unpivotMatrix hp, det_one]
  exact left_ne_zero_of_mul_eq_one hdet

/-- A pivot in an unused column adds its row operations to those that the array records. -/
theorem pivotMatrix_mul_eliminator {S : Matrix (Fin n) (Fin n) F} {P : Finset (Fin n)}
    {p : Fin n} (hpP : p ∉ P) :
    pivotMatrix S p * eliminator S P = eliminator (pivotStep S p) (insert p P) := by
  ext i j
  rw [pivotMatrix_mul_apply]
  simp only [eliminator, pivotStep, Finset.mem_insert]
  by_cases hj : j = p
  · by_cases hi : i = p
    · simp [hi, hj, hpP, Matrix.one_apply]
    · simp [hi, hj, hpP, Matrix.one_apply]
  · by_cases hjP : j ∈ P
    · by_cases hi : i = p
      · simp [hi, hj, hjP, mul_comm]
      · simp only [if_neg hi, if_neg hj, if_pos hjP, if_pos (Or.inr hjP)]
        ring
    · by_cases hi : i = p
      · simp [hi, hj, hjP, Ne.symm hj]
      · simp [hi, hj, hjP, Matrix.one_apply, Ne.symm hj]

/-- It also applies them to the transformed input, where the column of the pivot becomes a unit
column. -/
theorem pivotMatrix_mul_eliminated {S : Matrix (Fin n) (Fin n) F} {P : Finset (Fin n)}
    {p : Fin n} (hpP : p ∉ P) (hp : S p p ≠ 0) :
    pivotMatrix S p * eliminated S P = eliminated (pivotStep S p) (insert p P) := by
  ext i j
  rw [pivotMatrix_mul_apply]
  simp only [eliminated, pivotStep, Finset.mem_insert]
  by_cases hj : j = p
  · by_cases hi : i = p
    · simp [hi, hj, hpP, hp, Matrix.one_apply]
    · simp [hi, hj, hpP, mul_assoc, inv_mul_cancel₀ hp]
  · by_cases hjP : j ∈ P
    · by_cases hi : i = p
      · simp [hi, hj, hjP, Ne.symm hj]
      · simp [hi, hj, hjP, Matrix.one_apply, Ne.symm hj]
    · by_cases hi : i = p
      · simp [hi, hj, hjP, mul_comm]
      · simp only [if_neg hi, if_neg hj, if_neg hjP, if_neg (not_or.mpr ⟨hj, hjP⟩)]
        ring

/-- A pivot at an unused diagonal position. -/
theorem Eliminates.pivot {A S : Matrix (Fin n) (Fin n) F} {P : Finset (Fin n)}
    (h : Eliminates A S P) {p : Fin n} (hpP : p ∉ P) (hp : S p p ≠ 0) :
    Eliminates A (pivotStep S p) (insert p P) := by
  constructor
  · rw [← pivotMatrix_mul_eliminator hpP, det_mul]
    exact mul_ne_zero (det_pivotMatrix_ne_zero hp) h.det_ne_zero
  · rw [← pivotMatrix_mul_eliminator hpP, Matrix.mul_assoc, h.mul_eq,
      pivotMatrix_mul_eliminated hpP hp]

/-- Exchanging two rows that are not used yet is recorded as the same exchange of
the rows of the input. -/
theorem Eliminates.swap {A S : Matrix (Fin n) (Fin n) F} {P : Finset (Fin n)}
    (h : Eliminates A S P) {p q : Fin n} (hp : p ∉ P) (hq : q ∉ P) :
    Eliminates (A.submatrix (Equiv.swap p q) id) (S.submatrix (Equiv.swap p q) id) P := by
  have hfix : ∀ j ∈ P, Equiv.swap p q j = j := by
    intro j hj
    exact Equiv.swap_apply_of_ne_of_ne (fun h => hp (h ▸ hj)) (fun h => hq (h ▸ hj))
  have hiff : ∀ j, Equiv.swap p q j ∈ P ↔ j ∈ P := by
    intro j
    constructor
    · intro hj
      have := hfix _ hj
      rw [Equiv.swap_apply_self] at this
      rwa [← this] at hj
    · intro hj
      rwa [hfix j hj]
  have hleft : eliminator (S.submatrix (Equiv.swap p q) id) P =
      (eliminator S P).submatrix (Equiv.swap p q) (Equiv.swap p q) := by
    ext i j
    simp only [eliminator, Matrix.submatrix_apply, id, hiff]
    by_cases hj : j ∈ P
    · rw [if_pos hj, if_pos hj, hfix j hj]
    · rw [if_neg hj, if_neg hj]
      simp only [Matrix.one_apply, EmbeddingLike.apply_eq_iff_eq]
  have hright : eliminated (S.submatrix (Equiv.swap p q) id) P =
      (eliminated S P).submatrix (Equiv.swap p q) id := by
    ext i j
    simp only [eliminated, Matrix.submatrix_apply, id]
    by_cases hj : j ∈ P
    · rw [if_pos hj, if_pos hj]
      conv_rhs => rw [← hfix j hj]
      simp only [Matrix.one_apply, id, EmbeddingLike.apply_eq_iff_eq]
    · rw [if_neg hj, if_neg hj]
  constructor
  · rw [hleft, det_submatrix_equiv_self]
    exact h.det_ne_zero
  · rw [hleft, hright, ← h.mul_eq, Matrix.submatrix_mul_equiv]

/-- Without a pivot among the unused positions the input is singular. -/
theorem Eliminates.det_eq_zero {A S : Matrix (Fin n) (Fin n) F} {P : Finset (Fin n)}
    (h : Eliminates A S P) {p : Fin n} (hpP : p ∉ P) (hrow : ∀ j ∉ P, S p j = 0) : A.det = 0 := by
  have hzero : (eliminated S P).det = 0 := by
    apply det_eq_zero_of_row_eq_zero p
    intro j
    simp only [eliminated]
    by_cases hj : j ∈ P
    · rw [if_pos hj, Matrix.one_apply_ne (show p ≠ j from fun he => hpP (he ▸ hj))]
    · rw [if_neg hj, hrow j hj]
  rw [← h.mul_eq, det_mul] at hzero
  exact (mul_eq_zero.mp hzero).resolve_left h.det_ne_zero

/-- With every column used the array holds a left inverse of the input. -/
theorem Eliminates.mul_eq_one {A S : Matrix (Fin n) (Fin n) F} (h : Eliminates A S Finset.univ) :
    S * A = 1 := by
  have hleft : eliminator S Finset.univ = S := by
    ext i j
    simp [eliminator]
  have hright : eliminated S Finset.univ = 1 := by
    ext i j
    simp [eliminated]
  rw [← hleft, h.mul_eq, hright]

end Udpcast
