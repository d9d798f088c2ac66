import Mathlib.Data.Nat.ModEq
import Mathlib.Tactic.Ring
import Mathlib.Algebra.BigOperators.Group.List.Basic

/-!
# Arcs of a ring

A ring of `size` cells is cut into arcs, each with its first cell and its length. Arcs
that follow one another and fill the ring exactly are disjoint.
-/

namespace Udpcast

/-- The arcs follow one another, the first one starting at offset `p` of an endless
sequence of cells that is wound around the ring. -/
def Consecutive (size : ℕ) : ℕ → List (ℕ × ℕ) → Prop
  | _, [] => True
  | p, (a, n) :: rest => a = p % size ∧ Consecutive size (p + n) rest

/-- The arcs follow one another and fill the ring. -/
structure TilesRing (size : ℕ) (arcs : List (ℕ × ℕ)) : Prop where
  consecutive : ∃ p, Consecutive size p arcs
  sum_eq : (arcs.map Prod.snd).sum = size

variable {size p : ℕ} {arcs rest : List (ℕ × ℕ)}

/-- Arcs follow each other when the first ones do, and the others begin where these end. -/
theorem consecutive_append :
    Consecutive size p (arcs ++ rest) ↔
      Consecutive size p arcs ∧ Consecutive size (p + (arcs.map Prod.snd).sum) rest := by
  induction arcs generalizing p with
  | nil => simp [Consecutive]
  | cons a arcs ih =>
    obtain ⟨a, n⟩ := a
    simp only [List.cons_append, Consecutive, ih, List.map_cons, List.sum_cons, and_assoc,
      Nat.add_assoc]

/-- Every cell of the arcs comes from an offset below the end. -/
theorem Consecutive.exists_offset (h : Consecutive size p arcs) {a : ℕ × ℕ} (ha : a ∈ arcs)
    {x : ℕ} (hx : x < a.2) :
    ∃ q, p ≤ q ∧ q < p + (arcs.map Prod.snd).sum ∧ (a.1 + x) % size = q % size := by
  induction arcs generalizing p with
  | nil => exact absurd ha List.not_mem_nil
  | cons b arcs ih =>
    obtain ⟨b, n⟩ := b
    obtain ⟨rfl, hrest⟩ := h
    rw [List.map_cons, List.sum_cons]
    rcases List.mem_cons.mp ha with rfl | hmem
    · exact ⟨p + x, by omega, by dsimp only at hx ⊢; omega, Nat.mod_add_mod ..⟩
    · obtain ⟨q, hle, hlt, heq⟩ := ih hrest hmem
      exact ⟨q, by omega, by dsimp only; omega, heq⟩

/-- Two positions that are less than a whole turn apart are different places of the ring. -/
theorem mod_ne_of_lt {q q' : ℕ} (hlt : q < q') (hsize : q' < q + size) : q % size ≠ q' % size := by
  intro heq
  have hdvd : size ∣ q' - q := (Nat.modEq_iff_dvd' hlt.le).mp heq
  have := Nat.le_of_dvd (by omega) hdvd
  omega

/-- Offsets that are less than a round apart and meet in the ring are the same. -/
theorem eq_of_mod_eq {x y size : ℕ} (h : x % size = y % size) (hlt : x < y + size)
    (hlt' : y < x + size) : x = y := by
  rcases Nat.le_total x y with hle | hle
  · by_contra hne
    exact mod_ne_of_lt (lt_of_le_of_ne hle hne) hlt' h
  · by_contra hne
    exact mod_ne_of_lt (lt_of_le_of_ne hle (Ne.symm hne)) hlt h.symm

/-- A block that starts at a multiple of its size does not reach over the end of the ring. -/
theorem block_inside {x bs m : ℕ} (hdvd : bs ∣ x) (hm : 0 < m) :
    x % (bs * m) + bs ≤ bs * m := by
  obtain ⟨q, rfl⟩ := hdvd
  rw [Nat.mul_mod_mul_left]
  have hlt := Nat.mod_lt q hm
  calc bs * (q % m) + bs = bs * (q % m + 1) := by ring
    _ ≤ bs * m := Nat.mul_le_mul_left _ hlt

/-- A step that does not reach the end of the ring needs no wrap-around. -/
theorem mod_add_of_lt {x y size : ℕ} (h : x % size + y < size) : (x + y) % size = x % size + y := by
  rw [Nat.add_mod, Nat.mod_eq_of_lt (show y < size by omega), Nat.mod_eq_of_lt h]

/-- Arcs that follow each other and fill at most one turn do not overlap. -/
theorem Consecutive.pairwise_ne (h : Consecutive size p arcs)
    (hsum : (arcs.map Prod.snd).sum ≤ size) :
    arcs.Pairwise fun a b => ∀ x < a.2, ∀ y < b.2, (a.1 + x) % size ≠ (b.1 + y) % size := by
  induction arcs generalizing p with
  | nil => exact List.Pairwise.nil
  | cons a arcs ih =>
    obtain ⟨a, n⟩ := a
    obtain ⟨rfl, hrest⟩ := h
    rw [List.map_cons, List.sum_cons] at hsum
    refine List.pairwise_cons.mpr ⟨fun b hb x hx y hy => ?_, ih hrest (by omega)⟩
    obtain ⟨q, hle, hlt, heq⟩ := hrest.exists_offset hb hy
    dsimp only at hx hsum ⊢
    rw [heq, Nat.mod_add_mod]
    exact mod_ne_of_lt (by omega) (by omega)

/-- The arcs of a tiling are disjoint. -/
theorem TilesRing.pairwise_ne (h : TilesRing size arcs) :
    arcs.Pairwise fun a b => ∀ x < a.2, ∀ y < b.2, (a.1 + x) % size ≠ (b.1 + y) % size := by
  obtain ⟨⟨p, hconsecutive⟩, hsum⟩ := h
  exact hconsecutive.pairwise_ne hsum.le

end Udpcast
