import Mathlib.Logic.Function.Basic
import Mathlib.Order.Interval.Finset.Nat

/-!
# Counted loops

A loop `for (i = 0; i < n; i++) s = body(i, s);` over an explicit state, with the
invariant rule used for it and the closed form of loops that write one cell of an
array in each turn. An array is a function of its index and an assignment is
`Function.update`.
-/

namespace Udpcast

variable {σ α : Type*}

/-- Run `body 0`, `body 1`, ..., `body (n - 1)` in this order on a state. -/
def forLoop (body : ℕ → σ → σ) : ℕ → σ → σ
  | 0, s => s
  | n + 1, s => body n (forLoop body n s)

/-- A loop without turns does nothing. -/
@[simp] theorem forLoop_zero (body : ℕ → σ → σ) (s : σ) : forLoop body 0 s = s := rfl

/-- The last turn comes after all the others. -/
theorem forLoop_succ (body : ℕ → σ → σ) (n : ℕ) (s : σ) :
    forLoop body (n + 1) s = body n (forLoop body n s) := rfl

/-- The invariant rule: `P i` holds of the state before turn `i`. -/
theorem forLoop_induction {f : ℕ → σ → σ} {n : ℕ} {s : σ} (P : ℕ → σ → Prop)
    (hinit : P 0 s) (hstep : ∀ i t, i < n → P i t → P (i + 1) (f i t)) :
    P n (forLoop f n s) := by
  have h : ∀ m, m ≤ n → P m (forLoop f m s) := by
    intro m
    induction m with
    | zero => exact fun _ => hinit
    | succ m ih => exact fun hm => hstep m _ (by omega) (ih (by omega))
  exact h n le_rfl

/-- Two loops whose bodies agree below the bound compute the same state. -/
theorem forLoop_congr {f f' : ℕ → σ → σ} {n : ℕ} (h : ∀ i < n, f i = f' i) (s : σ) :
    forLoop f n s = forLoop f' n s := by
  induction n with
  | zero => rfl
  | succ n ih =>
    rw [forLoop_succ, forLoop_succ, ih fun i hi => h i (by omega), h n (by omega)]

/-- What a loop does to one part of the state. -/
theorem forLoop_proj {τ : Type*} (φ : σ → τ) {f : ℕ → σ → σ} {g : ℕ → τ → τ} {n : ℕ}
    (h : ∀ i < n, ∀ s, φ (f i s) = g i (φ s)) (s : σ) : φ (forLoop f n s) = forLoop g n (φ s) := by
  induction n with
  | zero => rfl
  | succ n ih =>
    rw [forLoop_succ, forLoop_succ, h n (by omega), ih fun i hi => h i (by omega)]

/-- A loop that in turn `i` writes cell `i` from the old value of that cell only. -/
theorem forLoop_update_self (g : ℕ → α → α) (n : ℕ) (a : ℕ → α) (j : ℕ) :
    forLoop (fun i a => Function.update a i (g i (a i))) n a j =
      if j < n then g j (a j) else a j := by
  induction n generalizing j with
  | zero => simp
  | succ n ih =>
    rw [forLoop_succ]
    rcases Nat.lt_trichotomy j n with hlt | rfl | hgt
    · rw [Function.update_of_ne (by omega), ih, if_pos hlt, if_pos (by omega)]
    · rw [Function.update_self, ih, if_neg (by omega), if_pos (by omega)]
    · rw [Function.update_of_ne (by omega), ih, if_neg (by omega), if_neg (by omega)]

end Udpcast
