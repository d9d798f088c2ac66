import Udpcast.Fec.Tables
import Mathlib.Tactic.Ring

/-!
# Block operations

`addmul` and `mul` of `fec.c` with their sixteen-fold unrolled loops. A buffer is
seen from its pointer as a function of the offset, so that a byte written past
the requested length would show.
-/

namespace Udpcast.Fec

/-- The bytes seen from a `gf *`. -/
abbrev Block := ℕ → Gf

/-- `UNROLL`. -/
def unroll : ℕ := 16

/-- One `GF_ADDMULC` or `GF_MULC` line: byte `i` of `dst` becomes `op` of its old
value and the source byte. -/
def mulcLine (op : Gf → Gf → Gf) (src dst : Block) (i : ℕ) : Block :=
  Function.update dst i (op (dst i) (src i))

/-- The unrolled loop, `for (; dst < lim; dst += UNROLL, src += UNROLL)`, from offset
`p`. Returns the offset at which it stops. -/
def unrolledLoop (op : Gf → Gf → Gf) (src : Block) (lim : ℤ) (p : ℕ) (dst : Block) : ℕ × Block :=
  if (p : ℤ) < lim then
    unrolledLoop op src lim (p + unroll)
      (forLoop (fun j d => mulcLine op src d (p + j)) unroll dst)
  else (p, dst)
termination_by (lim - p).toNat
decreasing_by
  simp only [unroll]
  omega

/-- The loop over the final components, `for (; dst < lim; dst++, src++)`. -/
def tailLoop (op : Gf → Gf → Gf) (src : Block) (lim : ℤ) (p : ℕ) (dst : Block) : Block :=
  if (p : ℤ) < lim then tailLoop op src lim (p + 1) (mulcLine op src dst p) else dst
termination_by (lim - p).toNat
decreasing_by omega

/-- The common body of `slow_addmul1` and `slow_mul1`: `lim` is `&dst[sz - UNROLL + 1]`,
and is moved up by `UNROLL - 1` between the loops. -/
def slowLoop (op : Gf → Gf → Gf) (dst src : Block) (sz : ℕ) : Block :=
  let lim : ℤ := sz - unroll + 1
  let (p, dst) := unrolledLoop op src lim 0 dst
  tailLoop op src (lim + (unroll - 1)) p dst

/-- `slow_addmul1`. -/
def slowAddmul1 (t : GfTables) (dst src : Block) (c : Gf) (sz : ℕ) : Block :=
  slowLoop (fun d s => d ^^^ t.gfMul c s) dst src sz

/-- `slow_mul1`. -/
def slowMul1 (t : GfTables) (dst src : Block) (c : Gf) (sz : ℕ) : Block :=
  slowLoop (fun _ s => t.gfMul c s) dst src sz

/-- `memset(dst, c, sz)`. -/
def memset (dst : Block) (c : Gf) (sz : ℕ) : Block := fun i => if i < sz then c else dst i

/-- `addmul(dst, src, c, sz)`. -/
def addmul (t : GfTables) (dst src : Block) (c : Gf) (sz : ℕ) : Block :=
  if c ≠ Gf.ofNat 0 then slowAddmul1 t dst src c sz else dst

/-- `mul(dst, src, c, sz)`. -/
def mul (t : GfTables) (dst src : Block) (c : Gf) (sz : ℕ) : Block :=
  if c ≠ Gf.ofNat 0 then slowMul1 t dst src c sz else memset dst (Gf.ofNat 0) sz

/-- `dst` with `op` applied to the offsets from `a` up to `b`. -/
def mapRange (op : Gf → Gf → Gf) (src dst : Block) (a b : ℕ) : Block := fun i =>
  if a ≤ i ∧ i < b then op (dst i) (src i) else dst i

/-- Nothing is mapped in an empty range. -/
theorem mapRange_empty (op : Gf → Gf → Gf) (src dst : Block) {a b : ℕ} (h : b ≤ a) :
    mapRange op src dst a b = dst := by
  funext i
  exact if_neg (by omega)

/-- Adjacent ranges join, since the second one still finds its old bytes. -/
theorem mapRange_append (op : Gf → Gf → Gf) (src dst : Block) {a b c : ℕ} (hab : a ≤ b)
    (hbc : b ≤ c) : mapRange op src (mapRange op src dst a b) b c = mapRange op src dst a c := by
  funext i
  simp only [mapRange]
  rcases Nat.lt_or_ge i b with hlt | hge
  · rw [if_neg (by omega)]
    exact if_congr (by omega) rfl rfl
  · rw [if_neg (by omega : ¬(a ≤ i ∧ i < b))]
    exact if_congr (by omega) rfl rfl

/-- One `GF_ADDMULC` of the loop maps one byte. -/
theorem mulcLine_eq (op : Gf → Gf → Gf) (src dst : Block) (p : ℕ) :
    mulcLine op src dst p = mapRange op src dst p (p + 1) := by
  funext i
  by_cases h : i = p
  · rw [h, mulcLine, Function.update_self, mapRange, if_pos (by omega)]
  · rw [mulcLine, Function.update_of_ne h, mapRange, if_neg (by omega)]

/-- The lines of the unrolled body map consecutive bytes. -/
theorem unrolled_body_eq (op : Gf → Gf → Gf) (src dst : Block) (p n : ℕ) :
    forLoop (fun j d => mulcLine op src d (p + j)) n dst = mapRange op src dst p (p + n) := by
  induction n with
  | zero => rw [forLoop_zero, mapRange_empty _ _ _ (by omega)]
  | succ n ih =>
    rw [forLoop_succ, ih, mulcLine_eq, mapRange_append _ _ _ (by omega) (by omega), Nat.add_assoc]

/-- The unrolled loop handles a whole number of groups and stops less than one
group below the requested length. -/
theorem unrolledLoop_spec (op : Gf → Gf → Gf) (src : Block) (lim : ℤ) (p : ℕ) (dst : Block) :
    let r := unrolledLoop op src lim p dst
    p ≤ r.1 ∧ lim ≤ r.1 ∧ (r.1 = p ∨ (r.1 : ℤ) < lim + unroll) ∧
      r.2 = mapRange op src dst p r.1 := by
  fun_induction unrolledLoop op src lim p dst with
  | case1 p dst h ih =>
    rw [unrolled_body_eq] at ih ⊢
    obtain ⟨hp, hlim, hstop, hval⟩ := ih
    refine ⟨by omega, hlim, Or.inr ?_, ?_⟩
    · rcases hstop with hstop | hstop
      · rw [hstop]
        push_cast
        omega
      · exact hstop
    · rw [hval, mapRange_append _ _ _ (by omega) (by omega)]
  | case2 p dst h =>
    exact ⟨le_rfl, by omega, Or.inl rfl, (mapRange_empty _ _ _ le_rfl).symm⟩

/-- The loop behind it maps what is left, down to no bytes at all. -/
theorem tailLoop_spec (op : Gf → Gf → Gf) (src : Block) (n p : ℕ) (dst : Block) :
    tailLoop op src (n : ℤ) p dst = mapRange op src dst p n := by
  fun_induction tailLoop op src (n : ℤ) p dst with
  | case1 p dst h ih =>
    rw [ih, mulcLine_eq, mapRange_append _ _ _ (by omega) (by omega)]
  | case2 p dst h => rw [mapRange_empty _ _ _ (by omega)]

/-- Both loops together treat every offset below `sz` once and no other. -/
theorem slowLoop_eq (op : Gf → Gf → Gf) (dst src : Block) (sz : ℕ) :
    slowLoop op dst src sz = fun i => if i < sz then op (dst i) (src i) else dst i := by
  obtain ⟨_, _, hstop, hval⟩ := unrolledLoop_spec op src (sz - unroll + 1) 0 dst
  have hlim : ((sz : ℤ) - unroll + 1) + (unroll - 1) = (sz : ℕ) := by ring
  simp only [slowLoop, hlim]
  rw [tailLoop_spec, hval]
  have hle : (unrolledLoop op src (sz - unroll + 1) 0 dst).1 ≤ sz := by
    rcases hstop with h | h <;> omega
  rw [mapRange_append _ _ _ (by omega) hle]
  funext i
  exact if_congr (by omega) rfl rfl

section Ready

variable {t : GfTables} (ht : t.Ready)
include ht

/-- `addmul` adds the multiple of the source, over the given length and no further. -/
theorem addmul_eq (dst src : Block) (c : Gf) (sz : ℕ) :
    addmul t dst src c sz = fun i => if i < sz then dst i + c * src i else dst i := by
  unfold addmul
  split
  · rw [slowAddmul1, slowLoop_eq]
    funext i
    rw [ht.gfMul_eq, Gf.add_def]
  · rename_i hc
    have hc : c = 0 := not_not.mp hc
    funext i
    rw [hc, zero_mul, add_zero, ite_self]

/-- `mul` overwrites the destination by the multiple of the source. -/
theorem mul_eq (dst src : Block) (c : Gf) (sz : ℕ) :
    mul t dst src c sz = fun i => if i < sz then c * src i else dst i := by
  unfold mul
  split
  · rw [slowMul1, slowLoop_eq]
    funext i
    rw [ht.gfMul_eq]
  · rename_i hc
    have hc : c = 0 := not_not.mp hc
    funext i
    rw [hc, zero_mul]
    rfl

end Ready

end Udpcast.Fec
