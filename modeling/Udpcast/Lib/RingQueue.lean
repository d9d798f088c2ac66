import Udpcast.Lib.Ring
import Mathlib.Data.List.Nodup
import Mathlib.Data.List.Perm.Subperm

/-!
# The contents of a ring buffer

A queue kept in an array of `size` cells: element number `k` is in cell `k % size`.
-/

namespace Udpcast

variable {α : Type*} {f : ℕ → α} {size C P : ℕ} {x : α}

/-- The elements number `C` up to `P`, first one first. -/
def ringEntries (f : ℕ → α) (size C P : ℕ) : List α :=
  (List.range' C (P - C)).map fun k => f (k % size)

/-- There are as many entries in the queue as have been put in and not taken out. -/
theorem ringEntries_length : (ringEntries f size C P).length = P - C := by
  rw [ringEntries, List.length_map, List.length_range']

/-- The first element is taken out. -/
theorem ringEntries_cons (h : C < P) :
    ringEntries f size C P = f (C % size) :: ringEntries f size (C + 1) P := by
  have hlen : P - C = P - (C + 1) + 1 := by omega
  rw [ringEntries, hlen, List.range'_succ, List.map_cons, ringEntries]

/-- An element is put at the end. -/
theorem ringEntries_concat (hle : C ≤ P) (hfit : P + 1 - C ≤ size) :
    ringEntries (Function.update f (P % size) x) size C (P + 1) =
      ringEntries f size C P ++ [x] := by
  have hlen : P + 1 - C = P - C + 1 := by omega
  rw [ringEntries, hlen, List.range'_1_concat, List.map_append, List.map_singleton,
    Nat.add_sub_cancel' hle, Function.update_self, ringEntries]
  congr 1
  refine List.map_congr_left fun k hk => ?_
  obtain ⟨hk, hklt⟩ := List.mem_range'_1.mp hk
  exact Function.update_of_ne (mod_ne_of_lt (by omega) (by omega)) ..

/-- The elements counted from the cell of the first one. -/
theorem ringEntries_eq_range : ringEntries f size C P =
    (List.range (P - C)).map fun k => f ((C % size + k) % size) := by
  rw [ringEntries, List.range'_eq_map_range, List.map_map]
  exact List.map_congr_left fun k _ => congrArg f (Nat.mod_add_mod ..).symm

/-- Different elements below `n` in a list: there are at most `n`. -/
theorem length_le_of_count {l : List ℕ} {n : ℕ} (hcount : ∀ b, l.count b ≤ 1)
    (hlt : ∀ b ∈ l, b < n) : l.length ≤ n := by
  have hnodup : l.Nodup := List.nodup_iff_count_le_one.mpr hcount
  have hsubset : l ⊆ List.range n := fun b hb => List.mem_range.mpr (hlt b hb)
  have hlen := (List.subperm_of_subset hnodup hsubset).length_le
  rwa [List.length_range] at hlen

end Udpcast
