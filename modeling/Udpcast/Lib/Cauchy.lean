import Mathlib.LinearAlgebra.Lagrange
import Mathlib.LinearAlgebra.Matrix.ToLinearEquiv

/-!
# Cauchy matrices

A square matrix with entries `1 / (x i - y j)` is nonsingular when the `x i` are
distinct, the `y j` are distinct and no `x i` is a `y j`. A vector in its kernel is
the list of coefficients of a polynomial of too small a degree for its roots `x i`.
-/

namespace Udpcast

open Polynomial Finset

variable {F : Type*} [Field F] {n : ℕ}

/-- The matrix with entries `1 / (x i - y j)`. -/
def cauchyMatrix (x y : Fin n → F) : Matrix (Fin n) (Fin n) F := fun i j => (x i - y j)⁻¹

/-- The numerator of the rational function `∑ j, v j / (X - y j)`. -/
noncomputable def cauchyNumerator (y v : Fin n → F) : F[X] :=
  ∑ j, C (v j) * ∏ l ∈ univ.erase j, (X - C (y l))

/-- The numerator has a smaller degree than there are nodes `y j`: each of its terms leaves out
one factor. -/
theorem degree_cauchyNumerator_lt (y v : Fin n → F) :
    (cauchyNumerator y v).degree < (univ : Finset (Fin n)).card := by
  apply lt_of_le_of_lt (degree_sum_le _ _)
  rw [Finset.sup_lt_iff (WithBot.bot_lt_coe _)]
  intro j _
  have hprod : (∏ l ∈ univ.erase j, (X - C (y l)) : F[X]).degree = ((univ.erase j).card : ℕ) := by
    rw [degree_prod]
    simp
  calc (C (v j) * ∏ l ∈ univ.erase j, (X - C (y l))).degree
      ≤ (∏ l ∈ univ.erase j, (X - C (y l)) : F[X]).degree := by
        apply (degree_mul_le _ _).trans
        exact (add_le_add_left degree_C_le _).trans (by simp)
    _ = ((univ.erase j).card : ℕ) := hprod
    _ < (univ : Finset (Fin n)).card := by
        exact_mod_cast Finset.card_erase_lt_of_mem (mem_univ j)

/-- Away from the nodes the numerator is the rational function times the product of its
denominators. -/
theorem eval_cauchyNumerator (y v : Fin n → F) {a : F} (ha : ∀ j, a ≠ y j) :
    (cauchyNumerator y v).eval a = (∏ l, (a - y l)) * ∑ j, (a - y j)⁻¹ * v j := by
  simp only [cauchyNumerator, eval_finsetSum, eval_mul, eval_C, eval_prod, eval_sub, eval_X,
    Finset.mul_sum]
  apply Finset.sum_congr rfl
  intro j _
  have hj : a - y j ≠ 0 := sub_ne_zero.mpr (ha j)
  rw [← Finset.mul_prod_erase univ (fun l => a - y l) (mem_univ j)]
  field_simp

/-- At a node all terms but one vanish, so that the value there gives back the coefficient of the
node. -/
theorem eval_cauchyNumerator_node (y v : Fin n → F) (j : Fin n) :
    (cauchyNumerator y v).eval (y j) = v j * ∏ l ∈ univ.erase j, (y j - y l) := by
  simp only [cauchyNumerator, eval_finsetSum, eval_mul, eval_C, eval_prod, eval_sub, eval_X]
  rw [Finset.sum_eq_single j]
  · intro i _ hij
    rw [Finset.prod_eq_zero (i := j) (by simp [hij.symm]) (sub_self _), mul_zero]
  · simp

/-- A Cauchy matrix with distinct nodes is nonsingular. -/
theorem det_cauchyMatrix_ne_zero {x y : Fin n → F} (hx : Function.Injective x)
    (hy : Function.Injective y) (hxy : ∀ i j, x i ≠ y j) : (cauchyMatrix x y).det ≠ 0 := by
  intro hdet
  obtain ⟨v, hv, hker⟩ := Matrix.exists_mulVec_eq_zero_iff.mpr hdet
  apply hv
  have hzero : cauchyNumerator y v = 0 := by
    refine eq_zero_of_degree_lt_of_eval_index_eq_zero (s := univ) (v := x) hx.injOn
      (degree_cauchyNumerator_lt y v) fun i _ => ?_
    have hrow : ∑ j, (x i - y j)⁻¹ * v j = 0 := congrFun hker i
    rw [eval_cauchyNumerator y v (hxy i), hrow, mul_zero]
  funext j
  have hnode := eval_cauchyNumerator_node y v j
  rw [hzero, eval_zero] at hnode
  have hprod : ∏ l ∈ univ.erase j, (y j - y l) ≠ 0 := by
    rw [Finset.prod_ne_zero_iff]
    intro l hl
    exact sub_ne_zero.mpr fun h => (Finset.ne_of_mem_erase hl) (hy h).symm
  exact (mul_eq_zero.mp hnode.symm).resolve_right hprod

end Udpcast
