import Mathlib.Logic.Function.Iterate
import Mathlib.Algebra.Field.Basic
import Mathlib.Algebra.CharP.Two
import Mathlib.Data.Finset.Card
import Mathlib.Order.Interval.Finset.Nat
import Mathlib.Tactic.IntervalCases

/-!
# The field of bytes

The powers of `alpha` run through the nonzero bytes with period 255, so that
logarithms turn products into sums. Multiplication by `alpha` is additive for
`xor`, which gives the distributive law: the bytes are a field of characteristic
two.
-/

namespace Udpcast.Fec

/-- `gf`: an `unsigned char`, the bytes that the codec and the network carry. -/
def Gf : Type := BitVec 8

instance : DecidableEq Gf := inferInstanceAs (DecidableEq (BitVec 8))
instance : XorOp Gf := inferInstanceAs (XorOp (BitVec 8))
instance : Inhabited Gf := inferInstanceAs (Inhabited (BitVec 8))

/-- Conversion of an `int` to `gf`. -/
def Gf.ofNat (n : ℕ) : Gf := BitVec.ofNat 8 n

/-- Promotion of a `gf` to `int`, as for an array index. -/
def Gf.toNat (x : Gf) : ℕ := BitVec.toNat x

/-- `x << 1`, stored back into a `gf`. -/
def Gf.shl (x : Gf) : Gf := BitVec.shiftLeft x 1

/-- A byte has eight bits. -/
theorem Gf.toNat_lt (x : Gf) : x.toNat < 256 := BitVec.isLt x

/-- A byte is known by its number. -/
theorem Gf.toNat_inj {x y : Gf} (h : x.toNat = y.toNat) : x = y := BitVec.eq_of_toNat_eq h

/-- Bytes are equal when their numbers are. -/
@[simp] theorem Gf.toNat_eq_iff {x y : Gf} : x.toNat = y.toNat ↔ x = y :=
  ⟨Gf.toNat_inj, congrArg _⟩

/-- The byte of a number keeps the lower eight bits. -/
theorem Gf.toNat_ofNat (n : ℕ) : (Gf.ofNat n).toNat = n % 256 := BitVec.toNat_ofNat n 8

/-- The number of a byte gives the byte back. -/
theorem Gf.ofNat_toNat (x : Gf) : Gf.ofNat x.toNat = x :=
  Gf.toNat_inj (by rw [toNat_ofNat, Nat.mod_eq_of_lt x.toNat_lt])

/-- The exclusive or of two bytes is that of their numbers. -/
theorem Gf.toNat_xor (x y : Gf) : (x ^^^ y).toNat = x.toNat ^^^ y.toNat := BitVec.toNat_xor x y

/-- Multiplication by `alpha`: the step from `gf_exp[i - 1]` to `gf_exp[i]`. -/
def xtime (x : Gf) : Gf :=
  if 128 ≤ x.toNat then Gf.ofNat 0x1d ^^^ (x ^^^ Gf.ofNat 128).shl else x.shl

/-- The polynomial form of `alpha ^ i`. -/
def alphaPow (i : ℕ) : Gf := xtime^[i] (Gf.ofNat 1)

/-- The next power of the generator is one shift away. -/
theorem alphaPow_succ (i : ℕ) : alphaPow (i + 1) = xtime (alphaPow i) :=
  Function.iterate_succ_apply' ..

/-- The shift-and-reduce step in the form that shows it to be additive. -/
theorem xtime_eq (x : Gf) :
    xtime x = x.shl ^^^ if BitVec.msb (x : BitVec 8) then Gf.ofNat 0x1d else Gf.ofNat 0 := by
  have h : ∀ n < 256, xtime (Gf.ofNat n) = (Gf.ofNat n).shl ^^^
      if BitVec.msb (Gf.ofNat n : BitVec 8) then Gf.ofNat 0x1d else Gf.ofNat 0 := by
    decide +kernel
  simpa only [Gf.ofNat_toNat] using h x.toNat x.toNat_lt

section Xor

/-- Exclusive or is associative, as an addition has to be. -/
theorem Gf.xor_assoc (x y z : Gf) : x ^^^ y ^^^ z = x ^^^ (y ^^^ z) := BitVec.xor_assoc x y z

/-- Exclusive or is commutative. -/
theorem Gf.xor_comm (x y : Gf) : x ^^^ y = y ^^^ x := BitVec.xor_comm x y

/-- Every byte is its own negative. -/
theorem Gf.xor_self (x : Gf) : x ^^^ x = Gf.ofNat 0 := BitVec.xor_self

/-- The byte 0 is neutral on the right. -/
theorem Gf.xor_zero (x : Gf) : x ^^^ Gf.ofNat 0 = x := BitVec.xor_zero

/-- The byte 0 is neutral on the left. -/
theorem Gf.zero_xor (x : Gf) : Gf.ofNat 0 ^^^ x = x := BitVec.zero_xor

/-- The exclusive or of two bytes is 0 exactly if they are equal. -/
theorem Gf.xor_eq_zero_iff {x y : Gf} : x ^^^ y = Gf.ofNat 0 ↔ x = y := BitVec.xor_eq_zero_iff

/-- Shifting is linear. -/
theorem Gf.shl_xor (x y : Gf) : (x ^^^ y).shl = x.shl ^^^ y.shl :=
  BitVec.shiftLeft_xor_distrib (w := 8) x y 1

end Xor

/-- Multiplying by the generator is linear, with the reduction by the polynomial included. -/
theorem xtime_xor (x y : Gf) : xtime (x ^^^ y) = xtime x ^^^ xtime y := by
  have hmsb : BitVec.msb (x ^^^ y : BitVec 8) = (BitVec.msb (x : BitVec 8) ^^
      BitVec.msb (y : BitVec 8)) := BitVec.msb_xor
  have hcollect (a b c d : Gf) : a ^^^ b ^^^ (c ^^^ d) = a ^^^ c ^^^ (b ^^^ d) := by
    rw [Gf.xor_assoc, Gf.xor_assoc, ← Gf.xor_assoc b, Gf.xor_comm b c, Gf.xor_assoc c]
  rw [xtime_eq, xtime_eq x, xtime_eq y, Gf.shl_xor, hcollect]
  congr 1
  rw [show BitVec.msb ((x ^^^ y : Gf) : BitVec 8) = _ from hmsb]
  cases BitVec.msb (x : BitVec 8) <;> cases BitVec.msb (y : BitVec 8) <;> decide

/-- It keeps the byte 0. -/
theorem xtime_zero : xtime (Gf.ofNat 0) = Gf.ofNat 0 := by decide

/-- Only the byte 0 is taken to 0, since the polynomial has a constant term. -/
theorem eq_zero_of_xtime {x : Gf} (h : xtime x = Gf.ofNat 0) : x = Gf.ofNat 0 := by
  have hall : ∀ n < 256, xtime (Gf.ofNat n) = Gf.ofNat 0 → Gf.ofNat n = Gf.ofNat 0 := by
    decide +kernel
  rw [← x.ofNat_toNat] at h ⊢
  exact hall _ x.toNat_lt h

/-- Multiplying by the generator loses nothing. -/
theorem xtime_injective : Function.Injective xtime := by
  intro x y h
  apply Gf.xor_eq_zero_iff.mp
  apply eq_zero_of_xtime
  rw [xtime_xor, h, Gf.xor_self]

/-- Multiplying by a power of the generator is linear. -/
theorem xtime_iterate_xor (i : ℕ) (x y : Gf) :
    xtime^[i] (x ^^^ y) = xtime^[i] x ^^^ xtime^[i] y := by
  induction i generalizing x y with
  | zero => rfl
  | succ i ih => rw [Function.iterate_succ_apply, xtime_xor, ih]; rfl

/-- It keeps the byte 0 as well. -/
theorem xtime_iterate_zero (i : ℕ) : xtime^[i] (Gf.ofNat 0) = Gf.ofNat 0 :=
  Function.iterate_fixed xtime_zero i

/-- Shifting `i` times adds `i` to the exponent. -/
theorem xtime_iterate_alphaPow (i j : ℕ) : xtime^[i] (alphaPow j) = alphaPow (i + j) :=
  (Function.iterate_add_apply ..).symm

/-- No power of the generator is 0. -/
theorem alphaPow_ne_zero (i : ℕ) : alphaPow i ≠ Gf.ofNat 0 := by
  intro h
  have h1 : xtime^[i] (Gf.ofNat 1) = xtime^[i] (Gf.ofNat 0) := by
    rw [xtime_iterate_zero]; exact h
  exact absurd ((xtime_injective.iterate i) h1) (by decide)

/-- `alpha` has order 255. -/
theorem alphaPow_period : alphaPow 255 = Gf.ofNat 1 := by decide +kernel

set_option maxRecDepth 2000 in
/-- The first 255 powers meet the byte 1 only once: the polynomial is primitive. -/
theorem eq_zero_of_alphaPow_eq_one {d : ℕ} (hd : d < 255) (h : alphaPow d = Gf.ofNat 1) :
    d = 0 := by
  have hall : ∀ d < 255, alphaPow d = Gf.ofNat 1 → d = 0 := by decide +kernel
  exact hall d hd h

/-- The powers repeat after 255. -/
theorem alphaPow_add_period (i : ℕ) : alphaPow (i + 255) = alphaPow i := by
  rw [← xtime_iterate_alphaPow, alphaPow_period]; rfl

/-- So the exponent matters modulo 255 only. -/
theorem alphaPow_mod (i : ℕ) : alphaPow (i % 255) = alphaPow i := by
  have h : ∀ q r, alphaPow (r + 255 * q) = alphaPow r := by
    intro q r
    induction q with
    | zero => rfl
    | succ q ih => rw [Nat.mul_succ, ← Nat.add_assoc, alphaPow_add_period, ih]
  conv_rhs => rw [← Nat.mod_add_div i 255, h]

/-- Within a period all powers are different. -/
theorem alphaPow_inj {i j : ℕ} (hi : i < 255) (hj : j < 255) (h : alphaPow i = alphaPow j) :
    i = j := by
  wlog hij : i ≤ j generalizing i j
  · exact (this hj hi h.symm (by omega)).symm
  have hcancel : xtime^[i] (alphaPow (j - i)) = xtime^[i] (alphaPow 0) := by
    rw [xtime_iterate_alphaPow, xtime_iterate_alphaPow, Nat.add_sub_cancel' hij]
    exact h.symm
  have := eq_zero_of_alphaPow_eq_one (by omega) (xtime_injective.iterate i hcancel)
  omega

/-- Every nonzero byte is a power of `alpha`: there are 255 distinct powers. -/
theorem exists_alphaPow {x : Gf} (hx : x ≠ Gf.ofNat 0) : ∃ i < 255, alphaPow i = x := by
  have himage : (Finset.range 255).image (fun i => (alphaPow i).toNat) = Finset.Icc 1 255 := by
    apply Finset.eq_of_subset_of_card_le
    · intro n hn
      obtain ⟨i, _, rfl⟩ := Finset.mem_image.mp hn
      have hlt := (alphaPow i).toNat_lt
      have hne : (alphaPow i).toNat ≠ 0 := fun h => alphaPow_ne_zero i (Gf.toNat_inj h)
      simp only [Finset.mem_Icc]
      omega
    · rw [Finset.card_image_of_injOn]
      · simp
      · intro i hi j hj h
        exact alphaPow_inj (by simpa using hi) (by simpa using hj) (Gf.toNat_inj h)
  have hmem : x.toNat ∈ Finset.Icc 1 255 := by
    have hlt := x.toNat_lt
    have hne : x.toNat ≠ 0 := fun h => hx (Gf.toNat_inj h)
    simp only [Finset.mem_Icc]
    omega
  rw [← himage] at hmem
  obtain ⟨i, hi, h⟩ := Finset.mem_image.mp hmem
  exact ⟨i, by simpa using hi, Gf.toNat_inj h⟩

/-- The exponent of a nonzero byte. -/
def alphaLog (x : Gf) : ℕ := ((List.range 255).find? fun i => alphaPow i = x).getD 255

/-- The logarithm finds the exponent of a power. -/
theorem alphaLog_alphaPow {i : ℕ} (hi : i < 255) : alphaLog (alphaPow i) = i := by
  have hfind : (List.range 255).find? (fun j => alphaPow j = alphaPow i) = some i := by
    rw [List.find?_range_eq_some]
    refine ⟨by simp, by simpa using hi, fun j hj => ?_⟩
    simpa using fun h => absurd (alphaPow_inj (by omega) hi h) (by omega)
  rw [alphaLog, hfind, Option.getD_some]

section Field

instance : Zero Gf := ⟨Gf.ofNat 0⟩
instance : One Gf := ⟨Gf.ofNat 1⟩
instance : Add Gf := ⟨fun x y => x ^^^ y⟩
instance : Neg Gf := ⟨fun x => x⟩
instance : Mul Gf :=
  ⟨fun x y => if x = 0 ∨ y = 0 then 0 else alphaPow (alphaLog x + alphaLog y)⟩
instance : Inv Gf := ⟨fun x => if x = 0 then 0 else alphaPow (255 - alphaLog x)⟩

/-- The zero of the field is the byte 0. -/
theorem Gf.zero_def : (0 : Gf) = Gf.ofNat 0 := rfl

/-- The byte 1 is the one of the field. -/
theorem Gf.ofNat_one : Gf.ofNat 1 = 1 := rfl

/-- Addition is the exclusive or. -/
theorem Gf.add_def (x y : Gf) : x + y = x ^^^ y := rfl

/-- Multiplication adds logarithms, as the tables do, unless a factor is 0. -/
theorem Gf.mul_def (x y : Gf) :
    x * y = if x = 0 ∨ y = 0 then 0 else alphaPow (alphaLog x + alphaLog y) := rfl

/-- The inverse is the power with the complementary exponent. -/
theorem Gf.inv_def (x : Gf) : x⁻¹ = if x = 0 then 0 else alphaPow (255 - alphaLog x) := rfl

protected theorem Gf.zero_mul (x : Gf) : 0 * x = 0 := if_pos (Or.inl rfl)

protected theorem Gf.mul_zero (x : Gf) : x * 0 = 0 := if_pos (Or.inr rfl)

/-- Powers of the generator multiply by adding their exponents. -/
theorem alphaPow_mul_alphaPow (i j : ℕ) : alphaPow i * alphaPow j = alphaPow (i + j) := by
  have hne : ¬(alphaPow i = 0 ∨ alphaPow j = 0) :=
    not_or.mpr ⟨alphaPow_ne_zero i, alphaPow_ne_zero j⟩
  rw [Gf.mul_def, if_neg hne, ← alphaPow_mod i, ← alphaPow_mod j,
    alphaLog_alphaPow (Nat.mod_lt _ (by omega)), alphaLog_alphaPow (Nat.mod_lt _ (by omega)),
    ← alphaPow_mod, ← Nat.add_mod, alphaPow_mod]

/-- A product by a power of `alpha` is that many multiplications by `alpha`. -/
theorem alphaPow_mul (i : ℕ) (x : Gf) : alphaPow i * x = xtime^[i] x := by
  by_cases hx : x = 0
  · rw [hx, Gf.mul_zero]
    exact (xtime_iterate_zero i).symm
  · obtain ⟨j, _, rfl⟩ := exists_alphaPow hx
    rw [alphaPow_mul_alphaPow, xtime_iterate_alphaPow]

protected theorem Gf.mul_comm (x y : Gf) : x * y = y * x := by
  by_cases hx : x = 0
  · rw [hx, Gf.zero_mul, Gf.mul_zero]
  by_cases hy : y = 0
  · rw [hy, Gf.zero_mul, Gf.mul_zero]
  obtain ⟨i, _, rfl⟩ := exists_alphaPow hx
  obtain ⟨j, _, rfl⟩ := exists_alphaPow hy
  rw [alphaPow_mul_alphaPow, alphaPow_mul_alphaPow, Nat.add_comm]

protected theorem Gf.mul_assoc (x y z : Gf) : x * y * z = x * (y * z) := by
  by_cases hx : x = 0
  · rw [hx, Gf.zero_mul, Gf.zero_mul, Gf.zero_mul]
  by_cases hy : y = 0
  · rw [hy, Gf.mul_zero, Gf.zero_mul, Gf.mul_zero]
  obtain ⟨i, _, rfl⟩ := exists_alphaPow hx
  obtain ⟨j, _, rfl⟩ := exists_alphaPow hy
  rw [alphaPow_mul_alphaPow, alphaPow_mul, alphaPow_mul, alphaPow_mul,
    ← Function.iterate_add_apply]

protected theorem Gf.left_distrib (x y z : Gf) : x * (y + z) = x * y + x * z := by
  by_cases hx : x = 0
  · rw [hx, Gf.zero_mul, Gf.zero_mul, Gf.zero_mul]
    exact (Gf.xor_self _).symm
  obtain ⟨i, _, rfl⟩ := exists_alphaPow hx
  rw [alphaPow_mul, alphaPow_mul, alphaPow_mul]
  exact xtime_iterate_xor i y z

/-- The inverse of a power within the period. -/
theorem alphaPow_inv {i : ℕ} (hi : i < 255) : (alphaPow i)⁻¹ = alphaPow (255 - i) := by
  rw [Gf.inv_def, if_neg (show ¬alphaPow i = 0 from alphaPow_ne_zero i), alphaLog_alphaPow hi]

instance : Field Gf where
  add_assoc := Gf.xor_assoc
  zero_add := Gf.zero_xor
  add_zero := Gf.xor_zero
  add_comm := Gf.xor_comm
  neg_add_cancel := Gf.xor_self
  mul_assoc := Gf.mul_assoc
  mul_comm := Gf.mul_comm
  zero_mul := Gf.zero_mul
  mul_zero := Gf.mul_zero
  one_mul := fun x => alphaPow_mul 0 x
  mul_one := fun x => (Gf.mul_comm x 1).trans (alphaPow_mul 0 x)
  left_distrib := Gf.left_distrib
  right_distrib := fun x y z => by
    rw [Gf.mul_comm, Gf.left_distrib, Gf.mul_comm z x, Gf.mul_comm z y]
  exists_pair_ne := ⟨0, 1, by decide⟩
  mul_inv_cancel := fun x hx => by
    obtain ⟨i, hi, rfl⟩ := exists_alphaPow hx
    rw [alphaPow_inv hi, alphaPow_mul_alphaPow, Nat.add_sub_cancel' hi.le]
    exact alphaPow_period
  inv_zero := if_pos rfl
  nsmul := nsmulRec
  zsmul := zsmulRec
  nnqsmul := _
  nnqsmul_def := fun _ _ => rfl
  qsmul := _
  qsmul_def := fun _ _ => rfl

/-- The field has characteristic two. -/
theorem Gf.add_self (x : Gf) : x + x = 0 := Gf.xor_self x

instance : CharP Gf 2 :=
  CharTwo.of_one_ne_zero_of_two_eq_zero one_ne_zero (one_add_one_eq_two.symm.trans (Gf.add_self 1))

end Field

end Udpcast.Fec
