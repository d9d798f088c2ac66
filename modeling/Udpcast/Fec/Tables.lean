import Udpcast.Lib.Loop
import Udpcast.Fec.Gf

/-!
# The tables of the Galois field

`generate_gf` and `init_mul_table` of `fec.c`, as loops over the four static
arrays. Whatever the arrays held before, `fec_init` leaves the powers of `alpha`,
their logarithms, and the inverses and products of the field of bytes in them.
-/

namespace Udpcast.Fec

/-- The static arrays of `fec.c`. -/
structure GfTables where
  /-- `gf_exp`: index to polynomial form. -/
  gfExp : ℕ → Gf
  /-- `gf_log`: polynomial form to index. -/
  gfLog : ℕ → ℕ
  /-- `inverse`: inverse of a field element. -/
  inverse : ℕ → Gf
  /-- `gf_mul_table`: the product of `x` and `y` at index `(x << 8) + y`. -/
  gfMulTable : ℕ → Gf
  /-- `fec_initialized`. -/
  fecInitialized : Bool

/-- Static storage starts out as zero. -/
def GfTables.zero : GfTables :=
  ⟨fun _ => .ofNat 0, fun _ => 0, fun _ => .ofNat 0, fun _ => .ofNat 0, false⟩

/-- `GF_BITS`. -/
def gfBits : ℕ := 8

/-- `GF_SIZE`: the number of powers of `alpha`. -/
def gfSize : ℕ := 2 ^ gfBits - 1

/-- `allPp[GF_BITS]`: the polynomial `1+x^2+x^3+x^4+x^8`. -/
def pp : List Char := "101110001".toList

/-- `modnn(x)` computes `x % GF_SIZE` without a division. -/
def modnn (x : ℕ) : ℕ :=
  if gfSize ≤ x then modnn (((x - gfSize) >>> gfBits) + ((x - gfSize) &&& gfSize)) else x
termination_by x
decreasing_by
  have hand : (x - gfSize) &&& gfSize = (x - gfSize) % 256 := Nat.and_two_pow_sub_one_eq_mod _ 8
  have hshr : (x - gfSize) >>> gfBits = (x - gfSize) / 256 := Nat.shiftRight_eq_div_pow _ 8
  rw [hand, hshr]
  simp only [gfSize, gfBits] at *
  omega

/-- First loop of `generate_gf`: one of the `GF_BITS` powers that are plain
shifts, with the mask being shifted along. -/
def generateGfShift (i : ℕ) (s : GfTables × Gf) : GfTables × Gf :=
  let (t, mask) := s
  let gfExp := Function.update t.gfExp i mask
  let gfLog := Function.update t.gfLog (gfExp i).toNat i
  let gfExp :=
    if pp[i]? = some '1' then Function.update gfExp gfBits (gfExp gfBits ^^^ mask) else gfExp
  ({ t with gfExp := gfExp, gfLog := gfLog }, mask.shl)

/-- Second loop of `generate_gf`: power `i` from power `i - 1`. -/
def generateGfPower (mask : Gf) (i : ℕ) (t : GfTables) : GfTables :=
  let prev := t.gfExp (i - 1)
  let power := if mask.toNat ≤ prev.toNat then t.gfExp gfBits ^^^ (prev ^^^ mask).shl else prev.shl
  let gfExp := Function.update t.gfExp i power
  { t with gfExp := gfExp, gfLog := Function.update t.gfLog (gfExp i).toNat i }

/-- Last loop of `generate_gf`. -/
def generateGfInverse (i : ℕ) (t : GfTables) : GfTables :=
  { t with inverse := Function.update t.inverse i (t.gfExp (gfSize - t.gfLog i)) }

/-- `generate_gf()`. -/
def generateGf (t : GfTables) : GfTables :=
  let t := { t with gfExp := Function.update t.gfExp gfBits (.ofNat 0) }
  let (t, _) := forLoop generateGfShift gfBits (t, .ofNat 1)
  let t := { t with gfLog := Function.update t.gfLog (t.gfExp gfBits).toNat gfBits }
  let mask := Gf.ofNat (1 <<< (gfBits - 1))
  let t := forLoop (fun j => generateGfPower mask (gfBits + 1 + j)) (gfSize - (gfBits + 1)) t
  let t := { t with gfLog := Function.update t.gfLog 0 gfSize }
  let t := forLoop
    (fun i t => { t with gfExp := Function.update t.gfExp (i + gfSize) (t.gfExp i) }) gfSize t
  let t := { t with inverse := Function.update (Function.update t.inverse 0 (.ofNat 0)) 1 (.ofNat 1) }
  forLoop (fun j => generateGfInverse (2 + j)) (gfSize - 1) t

/-- Inner loop of `init_mul_table`. -/
def initMulRow (i j : ℕ) (t : GfTables) : GfTables :=
  { t with
    gfMulTable :=
      Function.update t.gfMulTable ((i <<< 8) + j) (t.gfExp (modnn (t.gfLog i + t.gfLog j))) }

/-- Second loop of `init_mul_table`: the products with zero. -/
def initMulZero (j : ℕ) (t : GfTables) : GfTables :=
  { t with
    gfMulTable :=
      Function.update (Function.update t.gfMulTable (j <<< 8) (.ofNat 0)) j (.ofNat 0) }

/-- `init_mul_table()`. -/
def initMulTable (t : GfTables) : GfTables :=
  let t := forLoop (fun i => forLoop (initMulRow i) (gfSize + 1)) (gfSize + 1) t
  forLoop initMulZero (gfSize + 1) t

/-- `fec_init()`. -/
def fecInit (t : GfTables) : GfTables :=
  { initMulTable (generateGf t) with fecInitialized := true }

/-- `gf_mul(x, y)`. -/
def GfTables.gfMul (t : GfTables) (x y : Gf) : Gf := t.gfMulTable ((x.toNat <<< 8) + y.toNat)

/-- `inverse[x]`. -/
def GfTables.inverseOf (t : GfTables) (x : Gf) : Gf := t.inverse x.toNat

/-- `modnn` folds the upper bits back until a remainder modulo 255 is left. -/
theorem modnn_eq (x : ℕ) : modnn x = x % 255 := by
  induction x using Nat.strong_induction_on with
  | _ x ih =>
    rw [modnn]
    split
    · rename_i hx
      have hand : (x - gfSize) &&& gfSize = (x - gfSize) % 256 :=
        Nat.and_two_pow_sub_one_eq_mod _ 8
      have hshr : (x - gfSize) >>> gfBits = (x - gfSize) / 256 := Nat.shiftRight_eq_div_pow _ 8
      rw [hand, hshr]
      simp only [gfSize, gfBits] at *
      rw [ih _ (by omega)]
      omega
    · rename_i hx
      simp only [gfSize, gfBits] at hx
      omega

/-- The exponent table up to `n` and the logarithms of these powers are in place. -/
structure GfTables.PowersBelow (t : GfTables) (n : ℕ) : Prop where
  exp : ∀ i < n, t.gfExp i = alphaPow i
  log : ∀ i < n, i < 255 → t.gfLog (alphaPow i).toNat = i

/-- What `fec_init` leaves in the tables. -/
structure GfTables.Ready (t : GfTables) : Prop where
  initialized : t.fecInitialized = true
  exp : ∀ i < 510, t.gfExp i = alphaPow i
  log : ∀ i < 255, t.gfLog (alphaPow i).toNat = i
  inverse_zero : t.inverseOf (Gf.ofNat 0) = Gf.ofNat 0
  inverse_alphaPow : ∀ i < 255, t.inverseOf (alphaPow i) = alphaPow (255 - i)
  mul_zero : ∀ x, t.gfMul x (Gf.ofNat 0) = Gf.ofNat 0
  zero_mul : ∀ x, t.gfMul (Gf.ofNat 0) x = Gf.ofNat 0
  mul_alphaPow : ∀ i < 255, ∀ j < 255, t.gfMul (alphaPow i) (alphaPow j) = alphaPow (i + j)

/-- Different exponents address different entries of the logarithm table. -/
theorem alphaPow_toNat_ne {i j : ℕ} (hi : i < 255) (hj : j < 255) (h : i ≠ j) :
    (alphaPow i).toNat ≠ (alphaPow j).toNat := fun he => h (alphaPow_inj hi hj (Gf.toNat_inj he))

/-- None of them is the entry of the byte 0. -/
theorem alphaPow_toNat_pos (i : ℕ) : 0 < (alphaPow i).toNat :=
  Nat.pos_of_ne_zero fun h => alphaPow_ne_zero i (Gf.toNat_inj h)

/-- Storing the next power together with its logarithm. -/
theorem GfTables.PowersBelow.store {t : GfTables} {n : ℕ} (h : t.PowersBelow n) (hn : n < 255)
    {e : ℕ → Gf} (hexp : ∀ i ≤ n, e i = alphaPow i) :
    GfTables.PowersBelow
      { t with gfExp := e, gfLog := Function.update t.gfLog (e n).toNat n } (n + 1) where
  exp i hi := hexp i (by omega)
  log i hi hi' := by
    rw [hexp n le_rfl]
    rcases Nat.lt_or_ge i n with hlt | hge
    · exact (Function.update_of_ne (alphaPow_toNat_ne hi' hn (by omega)) ..).trans
        (h.log i hlt hi')
    · obtain rfl : i = n := by omega
      exact Function.update_self ..

/-- The part of `alpha ^ GF_BITS` that the first `i` coefficients contribute. -/
def ppSum (i : ℕ) : Gf :=
  forLoop (fun i s => if pp[i]? = some '1' then s ^^^ alphaPow i else s) i (Gf.ofNat 0)

/-- The first loop of `generate_gf` fills in the powers below 8, and collects the polynomial as
the eighth. -/
theorem generateGfShift_loop (t : GfTables) (hstart : t.gfExp 8 = Gf.ofNat 0) :
    (forLoop generateGfShift 8 (t, Gf.ofNat 1)).1.PowersBelow 8 ∧
      (forLoop generateGfShift 8 (t, Gf.ofNat 1)).1.gfExp 8 = alphaPow 8 := by
  have hinv := forLoop_induction (f := generateGfShift) (n := 8) (s := (t, Gf.ofNat 1))
    (fun i s => (i < 8 → s.2 = alphaPow i) ∧ s.1.PowersBelow i ∧ s.1.gfExp 8 = ppSum i) ?_ ?_
  · obtain ⟨_, hpow, hsum⟩ := hinv
    exact ⟨hpow, hsum.trans (by decide)⟩
  · exact ⟨fun _ => rfl, ⟨fun i hi => absurd hi (by omega), fun i hi => absurd hi (by omega)⟩,
      hstart⟩
  · rintro i ⟨t, mask⟩ hi ⟨hmask, hpow, hsum⟩
    obtain rfl : mask = alphaPow i := hmask hi
    have hshl : ∀ i < 7, (alphaPow i).shl = alphaPow (i + 1) := by decide
    refine ⟨fun hi' => hshl i (by omega), ?_, ?_⟩
    · have hself : (if pp[i]? = some '1' then Function.update (Function.update t.gfExp i
          (alphaPow i)) gfBits ((Function.update t.gfExp i (alphaPow i)) gfBits ^^^ alphaPow i)
          else Function.update t.gfExp i (alphaPow i)) i = alphaPow i := by
        split
        · rw [Function.update_of_ne (by simp only [gfBits]; omega), Function.update_self]
        · exact Function.update_self ..
      have hstore := hpow.store (by omega) (e := if pp[i]? = some '1' then
          Function.update (Function.update t.gfExp i (alphaPow i)) gfBits
            ((Function.update t.gfExp i (alphaPow i)) gfBits ^^^ alphaPow i)
          else Function.update t.gfExp i (alphaPow i)) ?_
      · rw [hself] at hstore
        simpa only [generateGfShift, Function.update_self] using hstore
      · intro j hj
        rcases Nat.lt_or_ge j i with hlt | hge
        · split
          · rw [Function.update_of_ne (by simp only [gfBits]; omega),
              Function.update_of_ne (by omega), hpow.exp j hlt]
          · rw [Function.update_of_ne (by omega), hpow.exp j hlt]
        · obtain rfl : j = i := by omega
          exact hself
    · have hsum' : ppSum (i + 1) =
          if pp[i]? = some '1' then ppSum i ^^^ alphaPow i else ppSum i := rfl
      have hne : (8 : ℕ) ≠ i := by omega
      simp only [generateGfShift, hsum', gfBits]
      split
      · rw [Function.update_self, Function.update_of_ne hne, hsum]
      · rw [Function.update_of_ne hne, hsum]

/-- A turn of its second loop adds the next power, shifted and reduced by the polynomial. -/
theorem generateGfPower_step {t : GfTables} {n : ℕ} (hn : 8 < n) (hn' : n < 255)
    (h : t.PowersBelow n) : (generateGfPower (Gf.ofNat 128) n t).PowersBelow (n + 1) := by
  have hpower : (if (Gf.ofNat 128).toNat ≤ (t.gfExp (n - 1)).toNat then
      t.gfExp gfBits ^^^ (t.gfExp (n - 1) ^^^ Gf.ofNat 128).shl else (t.gfExp (n - 1)).shl) =
      alphaPow n := by
    have h8 : alphaPow 8 = Gf.ofNat 0x1d := by decide
    have h128 : (Gf.ofNat 128).toNat = 128 := by decide
    rw [h.exp (n - 1) (by omega), gfBits, h.exp 8 hn, h8, h128]
    exact (alphaPow_succ (n - 1)).symm.trans (congrArg alphaPow (by omega))
  unfold generateGfPower
  dsimp only
  rw [hpower]
  apply h.store hn'
  intro i hi
  rcases Nat.lt_or_ge i n with hlt | hge
  · rw [Function.update_of_ne (by omega), h.exp i hlt]
  · obtain rfl : i = n := by omega
    exact Function.update_self ..

/-- After the copy loop the exponent table covers a sum of two logarithms. -/
theorem expCopy_loop {t : GfTables} (h : t.PowersBelow 255) :
    (forLoop (fun i t => { t with gfExp := Function.update t.gfExp (i + gfSize) (t.gfExp i) })
      gfSize t).PowersBelow 510 := by
  have hinv := forLoop_induction (n := gfSize) (s := t)
    (f := fun i (t : GfTables) =>
      { t with gfExp := Function.update t.gfExp (i + gfSize) (t.gfExp i) })
    (fun i t => t.PowersBelow (i + 255)) (by simpa using h) ?_
  · exact hinv
  · intro i t hi ht
    simp only [gfSize, gfBits] at hi
    refine ⟨fun j hj => ?_, fun j hj hj' => ht.log j (by omega) hj'⟩
    rcases Nat.lt_or_ge j (i + 255) with hlt | hge
    · exact (Function.update_of_ne (by simp only [gfSize, gfBits]; omega) ..).trans (ht.exp j hlt)
    · obtain rfl : j = i + 255 := by omega
      rw [alphaPow_add_period]
      exact (Function.update_self ..).trans (ht.exp i (by omega))

/-- Its last loop fills in the inverses from 2 on, from the powers and the logarithms. -/
theorem generateGfInverse_loop (t : GfTables) (n : ℕ) :
    let t' := forLoop (fun j => generateGfInverse (2 + j)) n t
    (t'.gfExp = t.gfExp ∧ t'.gfLog = t.gfLog) ∧ t'.inverse 0 = t.inverse 0 ∧
      t'.inverse 1 = t.inverse 1 ∧ ∀ m < n, t'.inverse (2 + m) = t.gfExp (255 - t.gfLog (2 + m)) := by
  induction n with
  | zero => exact ⟨⟨rfl, rfl⟩, rfl, rfl, fun m hm => absurd hm (by omega)⟩
  | succ n ih =>
    obtain ⟨⟨hexp, hlog⟩, h0, h1, hrest⟩ := ih
    refine ⟨⟨hexp, hlog⟩, ?_, ?_, fun m hm => ?_⟩
    · exact (Function.update_of_ne (by omega) ..).trans h0
    · exact (Function.update_of_ne (by omega) ..).trans h1
    · rcases Nat.lt_or_ge m n with hlt | hge
      · exact (Function.update_of_ne (by omega) ..).trans (hrest m hlt)
      · obtain rfl : m = n := by omega
        rw [← hexp, ← hlog]
        exact Function.update_self ..

/-- What `generate_gf` leaves in the first three tables. -/
theorem generateGf_spec (t : GfTables) :
    (generateGf t).PowersBelow 510 ∧ (generateGf t).inverse 0 = Gf.ofNat 0 ∧
      ∀ i < 255, (generateGf t).inverse (alphaPow i).toNat = alphaPow (255 - i) := by
  unfold generateGf
  extract_lets t₁ top
  obtain ⟨hshift, h8⟩ := generateGfShift_loop t₁
    (by simp only [t₁, gfBits, Function.update_self])
  rcases hs : forLoop generateGfShift gfBits (t₁, Gf.ofNat 1) with ⟨t₂, mask⟩
  rw [show forLoop generateGfShift 8 (t₁, Gf.ofNat 1) = (t₂, mask) from hs] at hshift h8
  dsimp -zeta only
  extract_lets t₃ t₄ t₅ t₆ t₇
  have h₃ : t₃.PowersBelow 9 := by
    apply hshift.store (by omega)
    intro i hi
    rcases Nat.lt_or_ge i 8 with hlt | hge
    · exact hshift.exp i hlt
    · obtain rfl : i = 8 := by omega
      exact h8
  have h₄ : t₄.PowersBelow 255 := by
    have hinv := forLoop_induction (n := 246) (s := t₃)
      (f := fun j => generateGfPower (Gf.ofNat (1 <<< (gfBits - 1))) (gfBits + 1 + j))
      (fun j t => t.PowersBelow (9 + j)) h₃
      (fun j t hj ht => generateGfPower_step (by simp only [gfBits]; omega)
        (by simp only [gfBits]; omega) ht)
    exact hinv
  have h₅ : t₅.PowersBelow 255 :=
    ⟨h₄.exp, fun i hi hi' => (Function.update_of_ne (alphaPow_toNat_pos i).ne' ..).trans
      (h₄.log i hi hi')⟩
  have h₆ : t₆.PowersBelow 510 := expCopy_loop h₅
  clear_value t₆
  obtain ⟨⟨hexp, hlog⟩, hzero, hone, hrest⟩ := generateGfInverse_loop t₇ (gfSize - 1)
  have hexp' : ∀ i < 510, t₇.gfExp i = alphaPow i := h₆.exp
  have hlog' : ∀ i < 255, t₇.gfLog (alphaPow i).toNat = i := fun i hi => h₆.log i (by omega) hi
  have hzero' : t₇.inverse 0 = Gf.ofNat 0 := rfl
  have hone' : t₇.inverse 1 = Gf.ofNat 1 := rfl
  revert hexp hlog hzero hone hrest
  generalize forLoop (fun j => generateGfInverse (2 + j)) (gfSize - 1) t₇ = t₈
  intro hexp hlog hzero hone hrest
  refine ⟨⟨fun i hi => (congrFun hexp i).trans (hexp' i hi),
    fun i hi hi' => (congrFun hlog _).trans (hlog' i hi')⟩, hzero.trans hzero', fun i hi => ?_⟩
  rcases Nat.eq_zero_or_pos i with rfl | hpos
  · exact hone.trans (hone'.trans alphaPow_period.symm)
  · have hlt := (alphaPow i).toNat_lt
    have hpos' := alphaPow_toNat_pos i
    have hne := alphaPow_toNat_ne hi (by omega : 0 < 255) (by omega)
    have h1 : (alphaPow 0).toNat = 1 := rfl
    have hsplit : 2 + ((alphaPow i).toNat - 2) = (alphaPow i).toNat := by omega
    have hinverse := hrest ((alphaPow i).toNat - 2) (by simp only [gfSize, gfBits]; omega)
    rw [hsplit] at hinverse
    rw [hinverse, hlog' i hi, hexp' _ (by omega)]

/-- Two tables sets that differ at most in `gf_mul_table`. -/
structure GfTables.SameBase (t t' : GfTables) : Prop where
  exp : t'.gfExp = t.gfExp
  log : t'.gfLog = t.gfLog
  inverse : t'.inverse = t.inverse

/-- The entry that the nested loops of `init_mul_table` store at index `c`. -/
def GfTables.product (t : GfTables) (c : ℕ) : Gf :=
  t.gfExp (modnn (t.gfLog (c / 256) + t.gfLog (c % 256)))

/-- The inner loop of `init_mul_table` fills in a row, and leaves the rows before it as they are.
-/
theorem initMulRow_loop {t t₀ : GfTables} (hbase : t₀.SameBase t) (i n : ℕ) (hn : n ≤ 256)
    (hrows : ∀ c, c / 256 < i → t.gfMulTable c = t₀.product c) :
    let t' := forLoop (initMulRow i) n t
    t₀.SameBase t' ∧ ∀ c, c / 256 < i ∨ c / 256 = i ∧ c % 256 < n →
      t'.gfMulTable c = t₀.product c := by
  have hinv := forLoop_induction (f := initMulRow i) (n := n) (s := t)
    (fun j t' => t₀.SameBase t' ∧ ∀ c, c / 256 < i ∨ c / 256 = i ∧ c % 256 < j →
      t'.gfMulTable c = t₀.product c) ⟨hbase, fun c hc => hrows c (by omega)⟩ ?_
  · exact hinv
  · rintro j t' hj ⟨hb, hcells⟩
    refine ⟨⟨hb.exp, hb.log, hb.inverse⟩, fun c hc => ?_⟩
    have hshift : i <<< 8 = i * 256 := Nat.shiftLeft_eq i 8
    simp only [initMulRow, hshift, hb.exp, hb.log]
    by_cases hcell : c = i * 256 + j
    · have hdiv : (i * 256 + j) / 256 = i := by omega
      have hmod : (i * 256 + j) % 256 = j := by omega
      rw [hcell, Function.update_self, GfTables.product, hdiv, hmod]
    · rw [Function.update_of_ne hcell]
      exact hcells c (by omega)

/-- The whole table holds the products, with a row and a column of zeros. -/
theorem initMulTable_spec (t : GfTables) : t.SameBase (initMulTable t) ∧
    ∀ i < 256, ∀ j < 256, (initMulTable t).gfMulTable ((i <<< 8) + j) =
      if i = 0 ∨ j = 0 then Gf.ofNat 0 else t.gfExp ((t.gfLog i + t.gfLog j) % 255) := by
  unfold initMulTable
  extract_lets t₁
  have hfill : t.SameBase t₁ ∧ ∀ c, c / 256 < 256 → t₁.gfMulTable c = t.product c := by
    have hinv := forLoop_induction (f := fun i => forLoop (initMulRow i) (gfSize + 1))
      (n := gfSize + 1) (s := t)
      (fun i t' => t.SameBase t' ∧ ∀ c, c / 256 < i → t'.gfMulTable c = t.product c)
      ⟨⟨rfl, rfl, rfl⟩, fun c hc => absurd hc (by omega)⟩ ?_
    · exact hinv
    · rintro i t' _ ⟨hb, hrows⟩
      obtain ⟨hb', hcells⟩ := initMulRow_loop hb i (gfSize + 1) (by simp [gfSize, gfBits]) hrows
      refine ⟨hb', fun c hc => hcells c ?_⟩
      simp only [gfSize, gfBits]
      omega
  obtain ⟨hb₁, hcells⟩ := hfill
  have hzero := forLoop_induction (f := initMulZero) (n := gfSize + 1) (s := t₁)
    (fun j t' => t.SameBase t' ∧ ∀ c < 65536, t'.gfMulTable c =
      if c < j ∨ c % 256 = 0 ∧ c / 256 < j then Gf.ofNat 0 else t.product c) ?_ ?_
  · obtain ⟨hb, hfinal⟩ := hzero
    refine ⟨hb, fun i hi j hj => ?_⟩
    have hshift : i <<< 8 = i * 256 := Nat.shiftLeft_eq i 8
    have hdiv : (i * 256 + j) / 256 = i := by omega
    have hmod : (i * 256 + j) % 256 = j := by omega
    rw [hshift, hfinal _ (by omega), GfTables.product, hdiv, hmod, modnn_eq]
    simp only [gfSize, gfBits]
    refine if_congr ?_ rfl rfl
    omega
  · refine ⟨hb₁, fun c hc => ?_⟩
    rw [if_neg (by omega), hcells c (by omega)]
  · rintro j t' hj ⟨hb, hcells'⟩
    refine ⟨⟨hb.exp, hb.log, hb.inverse⟩, fun c hc => ?_⟩
    have hshift : j <<< 8 = j * 256 := Nat.shiftLeft_eq j 8
    simp only [initMulZero, hshift]
    by_cases hcell : c = j ∨ c = j * 256
    · rw [if_pos (by omega)]
      by_cases hj' : c = j
      · rw [hj', Function.update_self]
      · rw [Function.update_of_ne hj', hcell.resolve_left hj', Function.update_self]
    · rw [Function.update_of_ne (by omega), Function.update_of_ne (by omega), hcells' c hc]
      refine if_congr ?_ rfl rfl
      omega

/-- What the two initialisation functions leave is all that is needed. -/
theorem GfTables.Ready.of_base {g t : GfTables} (hpow : g.PowersBelow 510)
    (hinv0 : g.inverse 0 = Gf.ofNat 0)
    (hinv : ∀ i < 255, g.inverse (alphaPow i).toNat = alphaPow (255 - i)) (hbase : g.SameBase t)
    (hmul : ∀ x y : Gf, t.gfMul x y = if x.toNat = 0 ∨ y.toNat = 0 then Gf.ofNat 0
      else g.gfExp ((g.gfLog x.toNat + g.gfLog y.toNat) % 255))
    (hinit : t.fecInitialized = true) : t.Ready where
  initialized := hinit
  exp i hi := (congrFun hbase.exp i).trans (hpow.exp i hi)
  log i hi := (congrFun hbase.log _).trans (hpow.log i (by omega) hi)
  inverse_zero := (congrFun hbase.inverse _).trans hinv0
  inverse_alphaPow i hi := (congrFun hbase.inverse _).trans (hinv i hi)
  mul_zero x := (hmul x _).trans (if_pos (Or.inr rfl))
  zero_mul x := (hmul _ x).trans (if_pos (Or.inl rfl))
  mul_alphaPow i hi j hj := by
    have hi' := alphaPow_toNat_pos i
    have hj' := alphaPow_toNat_pos j
    rw [hmul, if_neg (by omega), hpow.log i (by omega) hi, hpow.log j (by omega) hj,
      hpow.exp _ (by omega), alphaPow_mod]

/-- `fec_init` makes the tables ready, whatever they held before. -/
theorem fecInit_ready (t : GfTables) : (fecInit t).Ready := by
  obtain ⟨hpow, hinv0, hinv⟩ := generateGf_spec t
  obtain ⟨hbase, hmul⟩ := initMulTable_spec (generateGf t)
  unfold fecInit
  generalize generateGf t = g at *
  generalize initMulTable g = t' at *
  exact .of_base hpow hinv0 hinv ⟨hbase.exp, hbase.log, hbase.inverse⟩
    (fun x y => hmul x.toNat x.toNat_lt y.toNat y.toNat_lt) rfl

/-- In initialised tables `gf_mul` is the product of the field. -/
theorem GfTables.Ready.gfMul_eq {t : GfTables} (h : t.Ready) (x y : Gf) : t.gfMul x y = x * y := by
  by_cases hx : x = 0
  · rw [hx, Gf.zero_mul]
    exact h.zero_mul y
  by_cases hy : y = 0
  · rw [hy, Gf.mul_zero]
    exact h.mul_zero x
  obtain ⟨i, hi, rfl⟩ := exists_alphaPow hx
  obtain ⟨j, hj, rfl⟩ := exists_alphaPow hy
  rw [h.mul_alphaPow i hi j hj, alphaPow_mul_alphaPow]

/-- In initialised tables `inverse` is the inverse of the field. -/
theorem GfTables.Ready.inverse_eq {t : GfTables} (h : t.Ready) (x : Gf) : t.inverseOf x = x⁻¹ := by
  by_cases hx : x = 0
  · rw [hx, inv_zero, Gf.zero_def, h.inverse_zero]
  · obtain ⟨i, hi, rfl⟩ := exists_alphaPow hx
    rw [alphaPow_inv hi, h.inverse_alphaPow i hi]

end Udpcast.Fec
