import Udpcast.Fec.Blocks

/-!
# Block operations in one memory

`addmul` and `mul` of `fec.c` with both buffers in one memory, so that a byte of the
source could change, and with the addresses that the loops move along. For disjoint buffers
they do to `dst` what the operations on separate blocks do, and nothing else.
-/

namespace Udpcast.Fec

/-- One `GF_ADDMULC` or `GF_MULC` line on the bytes at the addresses `dst` and `src`. -/
def mulcAt (op : Gf → Gf → Gf) (dst src : ℕ) (m : Block) : Block :=
  Function.update m dst (op (m dst) (m src))

/-- The unrolled loop. Returns the addresses at which it stops. -/
def unrolledLoopAt (op : Gf → Gf → Gf) (lim : ℤ) (dst src : ℕ) (m : Block) : ℕ × ℕ × Block :=
  if (dst : ℤ) < lim then
    unrolledLoopAt op lim (dst + unroll) (src + unroll)
      (forLoop (fun j m => mulcAt op (dst + j) (src + j) m) unroll m)
  else (dst, src, m)
termination_by (lim - dst).toNat
decreasing_by
  simp only [unroll]
  omega

/-- The loop over the final components. -/
def tailLoopAt (op : Gf → Gf → Gf) (lim : ℤ) (dst src : ℕ) (m : Block) : Block :=
  if (dst : ℤ) < lim then tailLoopAt op lim (dst + 1) (src + 1) (mulcAt op dst src m) else m
termination_by (lim - dst).toNat
decreasing_by omega

/-- The common body of `slow_addmul1` and `slow_mul1`. -/
def slowLoopAt (op : Gf → Gf → Gf) (dst src sz : ℕ) (m : Block) : Block :=
  let lim : ℤ := dst + (sz - unroll + 1)
  let (dst, src, m) := unrolledLoopAt op lim dst src m
  tailLoopAt op (lim + (unroll - 1)) dst src m

/-- `addmul(dst, src, c, sz)`. -/
def addmulAt (t : GfTables) (dst src : ℕ) (c : Gf) (sz : ℕ) (m : Block) : Block :=
  if c ≠ Gf.ofNat 0 then slowLoopAt (fun d s => d ^^^ t.gfMul c s) dst src sz m else m

/-- `mul(dst, src, c, sz)`. -/
def mulAt (t : GfTables) (dst src : ℕ) (c : Gf) (sz : ℕ) (m : Block) : Block :=
  if c ≠ Gf.ofNat 0 then slowLoopAt (fun _ s => t.gfMul c s) dst src sz m
  else fun a => if dst ≤ a ∧ a < dst + sz then Gf.ofNat 0 else m a

/-- The buffers have no byte in common. -/
def Apart (dst src sz : ℕ) : Prop := dst + sz ≤ src ∨ src + sz ≤ dst

/-- The memory with `op` applied to the offsets from `a` up to `b`. -/
def mapRangeAt (op : Gf → Gf → Gf) (dst src a b : ℕ) (m : Block) : Block := fun x =>
  if dst + a ≤ x ∧ x < dst + b then op (m x) (m (src + (x - dst))) else m x

section Loops

variable {op : Gf → Gf → Gf} {dst src sz a b c : ℕ} {m : Block}

/-- Nothing is mapped in an empty range of the memory. -/
theorem mapRangeAt_empty (h : b ≤ a) : mapRangeAt op dst src a b m = m := by
  funext x
  exact if_neg (by omega)

/-- Adjacent ranges join: the first one has changed neither the old bytes of the second one
nor its source. -/
theorem mapRangeAt_append (hapart : Apart dst src sz) (hab : a ≤ b) (hbc : b ≤ c)
    (hc : c ≤ sz) :
    mapRangeAt op dst src b c (mapRangeAt op dst src a b m) = mapRangeAt op dst src a c m := by
  funext x
  unfold Apart at hapart
  simp only [mapRangeAt]
  by_cases hsecond : dst + b ≤ x ∧ x < dst + c
  · have hsource : ¬ (dst + a ≤ src + (x - dst) ∧ src + (x - dst) < dst + b) := by omega
    rw [if_pos hsecond, if_neg (by omega), if_neg hsource, if_pos (by omega)]
  · rw [if_neg hsecond]
    exact if_congr (by omega) rfl rfl

/-- One line of the loop maps one byte of the memory. -/
theorem mulcAt_eq (p : ℕ) : mulcAt op (dst + p) (src + p) m = mapRangeAt op dst src p (p + 1) m := by
  funext x
  by_cases hx : x = dst + p
  · rw [hx, mulcAt, Function.update_self, mapRangeAt, if_pos (by omega), Nat.add_sub_cancel_left]
  · rw [mulcAt, Function.update_of_ne hx, mapRangeAt, if_neg (by omega)]

/-- The unrolled body maps consecutive bytes: none of them is a source byte, as the buffers are
apart. -/
theorem unrolled_body_at (hapart : Apart dst src sz) (p : ℕ) {n : ℕ} (hn : p + n ≤ sz) :
    forLoop (fun j m => mulcAt op (dst + p + j) (src + p + j) m) n m =
      mapRangeAt op dst src p (p + n) m := by
  induction n with
  | zero => rw [forLoop_zero, mapRangeAt_empty (by omega)]
  | succ n ih =>
    rw [forLoop_succ, ih (by omega), Nat.add_assoc dst, Nat.add_assoc src, mulcAt_eq,
      mapRangeAt_append hapart (by omega) (by omega) (by omega), Nat.add_assoc]

/-- The unrolled loop goes on from offset `p` to some offset less than one group below the
size. -/
theorem unrolledLoopAt_spec (hapart : Apart dst src sz) {p : ℕ} (hp : p ≤ sz) (m : Block) :
    ∃ q, p ≤ q ∧ q ≤ sz ∧
      unrolledLoopAt op (dst + (sz - unroll + 1)) (dst + p) (src + p) m =
        (dst + q, src + q, mapRangeAt op dst src p q m) := by
  induction hrest : sz - p using Nat.strong_induction_on generalizing p m with
  | _ n ih =>
    rw [unrolledLoopAt]
    split
    · rename_i hlt
      have hgroup : p + unroll ≤ sz := by
        simp only [unroll] at hlt ⊢
        omega
      have hless : sz - (p + unroll) < n := by
        simp only [unroll] at hgroup ⊢
        omega
      obtain ⟨q, hpq, hq, hloop⟩ := ih _ hless hgroup (mapRangeAt op dst src p (p + unroll) m) rfl
      refine ⟨q, by omega, hq, ?_⟩
      rw [unrolled_body_at hapart p hgroup, Nat.add_assoc, Nat.add_assoc, hloop,
        mapRangeAt_append hapart (by omega) hpq hq]
    · exact ⟨p, le_rfl, hp, by rw [mapRangeAt_empty le_rfl]⟩

/-- The loop behind it maps the rest, up to the end of the destination. -/
theorem tailLoopAt_spec (hapart : Apart dst src sz) {p : ℕ} (hp : p ≤ sz) :
    tailLoopAt op (dst + sz : ℤ) (dst + p) (src + p) m = mapRangeAt op dst src p sz m := by
  induction hrest : sz - p using Nat.strong_induction_on generalizing p m with
  | _ n ih =>
    rw [tailLoopAt]
    split
    · rename_i hlt
      have hnext : p + 1 ≤ sz := by omega
      rw [mulcAt_eq, Nat.add_assoc, Nat.add_assoc, ih (sz - (p + 1)) (by omega) hnext rfl,
        mapRangeAt_append hapart (by omega) hnext le_rfl]
    · rw [mapRangeAt_empty (by omega)]

/-- `slow_addmul1` and its like map the whole range in one loop. -/
theorem slowLoopAt_eq (hapart : Apart dst src sz) :
    slowLoopAt op dst src sz m = mapRangeAt op dst src 0 sz m := by
  obtain ⟨q, -, hq, hloop⟩ := @unrolledLoopAt_spec op _ _ _ hapart _ (Nat.zero_le sz) m
  have hlim : ((dst : ℤ) + (sz - unroll + 1)) + (unroll - 1) = dst + sz := by ring
  simp only [Nat.add_zero] at hloop
  simp only [slowLoopAt, hlim, hloop]
  rw [tailLoopAt_spec hapart hq, mapRangeAt_append hapart (Nat.zero_le q) hq le_rfl]

end Loops

/-- The bytes seen from the address `p`. -/
def view (m : Block) (p : ℕ) : Block := fun i => m (p + i)

/-- `m'` is `m` with the bytes of `dst` below `sz` replaced by `op` of themselves and those of
`src`, and all other bytes as they were. -/
structure OnlyMaps (op : Gf → Gf → Gf) (dst src sz : ℕ) (m m' : Block) : Prop where
  mapped : ∀ i < sz, m' (dst + i) = op (m (dst + i)) (m (src + i))
  beyond : ∀ i, sz ≤ i → m' (dst + i) = m (dst + i)
  before : ∀ a < dst, m' a = m a
  source : ∀ i < sz, m' (src + i) = m (src + i)

section Operations

variable {op : Gf → Gf → Gf} {t : GfTables} {dst src sz : ℕ} {c : Gf} {m : Block}

/-- Mapping a range changes the destination byte by byte, and no other byte of the memory. -/
theorem onlyMaps_mapRangeAt (hapart : Apart dst src sz) :
    OnlyMaps op dst src sz m (mapRangeAt op dst src 0 sz m) := by
  unfold Apart at hapart
  refine ⟨fun i hi => ?_, fun i hi => ?_, fun a ha => ?_, fun i hi => ?_⟩
  · rw [mapRangeAt, if_pos (by omega), Nat.add_sub_cancel_left]
  · exact if_neg (by omega)
  · exact if_neg (by omega)
  · exact if_neg (by omega)

/-- The destination as a block, after a range of the memory has been mapped. -/
theorem view_mapRangeAt : view (mapRangeAt op dst src 0 sz m) dst =
    fun i => if i < sz then op (view m dst i) (view m src i) else view m dst i := by
  funext i
  simp only [view, mapRangeAt, Nat.add_sub_cancel_left]
  exact if_congr (by omega) rfl rfl

/-- On disjoint buffers `addmul` does what it does on separate blocks. -/
theorem view_addmulAt (hapart : Apart dst src sz) :
    view (addmulAt t dst src c sz m) dst = addmul t (view m dst) (view m src) c sz := by
  unfold addmulAt addmul
  split
  · rw [slowLoopAt_eq hapart, view_mapRangeAt, slowAddmul1, slowLoop_eq]
  · rfl

/-- In the memory, `mul` does to the destination what it does to a block. -/
theorem view_mulAt (hapart : Apart dst src sz) :
    view (mulAt t dst src c sz m) dst = mul t (view m dst) (view m src) c sz := by
  unfold mulAt mul
  split
  · rw [slowLoopAt_eq hapart, view_mapRangeAt, slowMul1, slowLoop_eq]
  · funext i
    exact if_congr (by omega) rfl rfl

/-- `addmul` adds a multiple of every source byte to the byte of the destination, and touches
nothing else. -/
theorem addmulAt_onlyMaps (ht : t.Ready) (hapart : Apart dst src sz) :
    OnlyMaps (fun d s => d ^^^ c * s) dst src sz m (addmulAt t dst src c sz m) := by
  have hop : (fun d s => d ^^^ t.gfMul c s) = fun d s : Gf => d ^^^ c * s := by
    funext d s
    rw [ht.gfMul_eq]
  unfold addmulAt
  split
  · rw [slowLoopAt_eq hapart, hop]
    exact onlyMaps_mapRangeAt hapart
  · rename_i hc
    have hzero : c = 0 := not_not.mp hc
    refine ⟨fun i _ => ?_, fun _ _ => rfl, fun _ _ => rfl, fun _ _ => rfl⟩
    rw [hzero, zero_mul, Gf.zero_def, Gf.xor_zero]

/-- `mul` puts the multiple of every source byte there, and touches nothing else. -/
theorem mulAt_onlyMaps (ht : t.Ready) (hapart : Apart dst src sz) :
    OnlyMaps (fun _ s => c * s) dst src sz m (mulAt t dst src c sz m) := by
  have hop : (fun _ s => t.gfMul c s) = fun _ s : Gf => c * s := by
    funext _ s
    rw [ht.gfMul_eq]
  unfold mulAt
  split
  · rw [slowLoopAt_eq hapart, hop]
    exact onlyMaps_mapRangeAt hapart
  · rename_i hc
    have hzero : c = 0 := not_not.mp hc
    have hsame : (fun a => if dst ≤ a ∧ a < dst + sz then Gf.ofNat 0 else m a) =
        mapRangeAt (fun _ s => c * s) dst src 0 sz m := by
      funext a
      rw [mapRangeAt, hzero, zero_mul]
      rfl
    rw [hsame]
    exact onlyMaps_mapRangeAt hapart

/-- For every size, constant and content of disjoint buffers, `addmul` and `mul` treat each
byte of `dst` below the size and no other byte. -/
theorem blockOperations_onlyMap (tables : GfTables) (c : Gf) (m : Block)
    (hapart : Apart dst src sz) :
    OnlyMaps (fun d s => d ^^^ c * s) dst src sz m (addmulAt (fecInit tables) dst src c sz m) ∧
      OnlyMaps (fun _ s => c * s) dst src sz m (mulAt (fecInit tables) dst src c sz m) :=
  ⟨addmulAt_onlyMaps (fecInit_ready tables) hapart, mulAt_onlyMaps (fecInit_ready tables) hapart⟩

/-- Seventeen bytes: one group and one more. -/
theorem blockOperations_onlyMap_seventeen :
    OnlyMaps (fun d s => d ^^^ Gf.ofNat 2 * s) 0 20 17 Gf.ofNat
        (addmulAt (fecInit .zero) 0 20 (Gf.ofNat 2) 17 Gf.ofNat) ∧
      OnlyMaps (fun _ s => Gf.ofNat 2 * s) 0 20 17 Gf.ofNat
        (mulAt (fecInit .zero) 0 20 (Gf.ofNat 2) 17 Gf.ofNat) :=
  blockOperations_onlyMap .zero (Gf.ofNat 2) Gf.ofNat (.inl (by decide))

end Operations

end Udpcast.Fec
