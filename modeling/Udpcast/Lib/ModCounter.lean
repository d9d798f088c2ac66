import Mathlib.Data.Nat.ModEq

/-!
# Counters modulo `m`

Two running totals are kept modulo `m` only. As long as the totals differ by less
than `m` their difference can be read off the remainders.
-/

namespace Udpcast

/-- Advance a remainder without a division. -/
theorem add_mod_wrap {m x a : ℕ} (ha : a ≤ m) (hx : 0 < m) :
    (if m ≤ x % m + a then x % m + a - m else x % m + a) = (x + a) % m := by
  have hlt := Nat.mod_lt x hx
  have hmod : (x + a) % m = (x % m + a) % m := (Nat.mod_add_mod ..).symm
  rw [hmod]
  split
  · rename_i h
    rw [Nat.mod_eq_sub_mod h, Nat.mod_eq_of_lt (show x % m + a - m < m by omega)]
  · rename_i h
    rw [Nat.mod_eq_of_lt (show x % m + a < m by omega)]

/-- The distance of two totals from their remainders. -/
theorem mod_distance {m x y : ℕ} (hxy : x ≤ y) (hlt : y - x < m) :
    (if y % m < x % m then y % m + m - x % m else y % m - x % m) = y - x := by
  have hm : 0 < m := by omega
  have hx := Nat.mod_lt x hm
  have hy := add_mod_wrap (x := x) (a := y - x) (m := m) (by omega) hm
  rw [Nat.add_sub_cancel' hxy] at hy
  split at hy <;> split <;> omega

/-- Halving the modulus keeps the position within the half. -/
theorem mod_two_mul_mod {m x : ℕ} : x % (2 * m) % m = x % m :=
  Nat.mod_mod_of_dvd x (Dvd.intro_left 2 rfl)

end Udpcast
