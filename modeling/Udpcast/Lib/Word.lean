import Mathlib.Tactic.Ring

/-!
# Numbers of fixed width

What is left of a number that is stored in a signed word, or that travels in a field of a
message that is narrower than the number. Nothing is lost of a number that fits.
-/

namespace Udpcast

/-- The 32-bit `int` that a number is stored in, and that a product of two of them gives: the
lower 32 bits, as a signed number. -/
def toInt (n : ℤ) : ℤ := n.bmod (2 ^ 32)

/-- Nothing is lost of a number in the range of `int`. -/
theorem toInt_of_mem {n : ℤ} (hlow : -2 ^ 31 ≤ n) (hhigh : n < 2 ^ 31) : toInt n = n :=
  Int.bmod_eq_of_le (by omega) (by omega)

/-- `htons`: a number travels by its lower 16 bits. -/
def htons (n : ℤ) : ℕ := (n % 2 ^ 16).toNat

/-- Nothing is lost of a number of 16 bits, which the receiver reads as it was sent. -/
theorem htons_of_lt {n : ℕ} (h : n < 2 ^ 16) : htons n = n := by
  unfold htons
  omega

end Udpcast
