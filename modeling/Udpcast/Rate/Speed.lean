import Mathlib.Data.List.Induction
import Mathlib.Data.Nat.Digits.Defs
import Mathlib.Tactic.Ring

/-!
# Bitrates on the command line

`parseSpeed` of `rate-limit.c`, with the `strtoul` that it relies on, for every width of
`unsigned long`.
-/

namespace Udpcast.Rate

/-- A string of C: bytes other than the one that ends it. -/
structure CString where
  chars : List Char
  bytes : ∀ c ∈ chars, 0 < c.toNat ∧ c.toNat < 256

/-- `ULONG_MAX`, for `unsigned long` with `w` bits. -/
def ulongMax (w : ℕ) : ℕ := 2 ^ w - 1

/-- `isspace` in the C locale. -/
def isSpace (c : Char) : Bool := c.toNat = 32 ∨ 9 ≤ c.toNat ∧ c.toNat ≤ 13

/-- The number written by decimal digits. -/
def decimal (digits : List Char) : ℕ := digits.foldl (fun n c => 10 * n + (c.toNat - 48)) 0

/-- `strtoul(s, &eptr, 10)`: its value, what is left at `eptr`, and whether `errno` is `ERANGE`
afterwards. -/
def strtoul (w : ℕ) (erange : Bool) (s : List Char) : ℕ × List Char × Bool :=
  let t := s.dropWhile isSpace
  let negative := t.head? = some '-'
  let t := if t.head? = some '-' ∨ t.head? = some '+' then t.tail else t
  let digits := t.takeWhile Char.isDigit
  if digits.isEmpty then (0, s, erange)
  else if ulongMax w < decimal digits then (ulongMax w, t.dropWhile Char.isDigit, true)
  else
    (if negative then (2 ^ w - decimal digits) % 2 ^ w else decimal digits,
      t.dropWhile Char.isDigit, erange)

/-- The messages of `parseSpeed` before it gives up. -/
inductive SpeedError
  /-- "Empty string specified for speed!" -/
  | empty
  /-- "Speed starts with invalid character '%c'!" -/
  | invalidStart (c : Char)
  /-- "Speed out of range!" -/
  | outOfRange
  /-- "Unit '%c' unsupported" -/
  | unsupportedUnit (c : Char)
  /-- "Valid speed input ends with garbage '%c'!" -/
  | garbage (c : Char)
  /-- "Speed limit of 0 bits per second takes forever!" -/
  | zero

/-- What is printed for a character. -/
def printable (c : Char) : Char := if c < ' ' ∨ '~' < c then '@' else c

/-- The factor of a unit. -/
def multiplier (unit : Char) : Option ℕ :=
  if unit = 'g' ∨ unit = 'G' then some 1000000000
  else if unit = 'm' ∨ unit = 'M' then some 1000000
  else if unit = 'k' ∨ unit = 'K' then some 1000
  else none

/-- `parseSpeed` from `if(eptr && *eptr)` on, up to the test for zero. -/
def parseUnit (w speed : ℕ) : List Char → Except SpeedError ℕ
  | [] => .ok speed
  | unit :: rest =>
    match multiplier unit with
    | none => .error (.unsupportedUnit (printable unit))
    | some m =>
      if ulongMax w / m < speed then .error .outOfRange
      else
        match rest with
        | [] => .ok (speed * m % 2 ^ w)
        | c :: _ => .error (.garbage (printable c))

/-- `parseSpeed`; an error stands for the call of `fatal`. `erange` says whether `errno` is
`ERANGE` on entry. -/
def parseSpeed (w : ℕ) (erange : Bool) (s : CString) : Except SpeedError ℕ :=
  match s.chars with
  | [] => .error .empty
  | first :: _ =>
    if printable first < '0' ∨ '9' < printable first then
      .error (.invalidStart (printable first))
    else
      let (speed, rest, erange) := strtoul w erange s.chars
      if speed = ulongMax w ∧ erange = true then .error .outOfRange
      else
        (parseUnit w speed rest).bind fun speed =>
          if speed < 1 then .error .zero else .ok speed

/-- The factor that a unit stands for, or that of no unit. -/
def unitFactor : Option Char → ℕ
  | none => 1
  | some unit => (multiplier unit).getD 0

/-- The string is made of digits and at most one unit, and says the speed `n`. -/
structure Says (w : ℕ) (s : CString) (digits : List Char) (unit : Option Char) (n : ℕ) : Prop where
  chars : s.chars = digits ++ unit.toList
  nonempty : digits ≠ []
  isDigit : ∀ c ∈ digits, c.isDigit = true
  isUnit : ∀ c ∈ unit, c ∈ ['g', 'G', 'm', 'M', 'k', 'K']
  value : n = Nat.ofDigits 10 (digits.reverse.map fun c => c.toNat - 48) * unitFactor unit
  pos : 1 ≤ n
  fits : n ≤ ulongMax w

variable {w speed m n : ℕ} {erange : Bool} {s : CString} {c : Char} {l digits rest : List Char}

section Digits

/-- A digit more multiplies by ten and adds the digit. -/
theorem decimal_append (l : List Char) (c : Char) :
    decimal (l ++ [c]) = 10 * decimal l + (c.toNat - 48) := by
  rw [decimal, List.foldl_append]
  rfl

/-- The loop of `strtoul` computes the value of the digits. -/
theorem decimal_eq (digits : List Char) :
    decimal digits = Nat.ofDigits 10 (digits.reverse.map fun c => c.toNat - 48) := by
  induction digits using List.reverseRecOn with
  | nil => rfl
  | append_singleton l c ih =>
    rw [decimal_append, ih, List.reverse_append, List.reverse_singleton, List.singleton_append,
      List.map_cons, Nat.ofDigits_cons]
    ring

/-- `isdigit` is a range of the character codes. -/
theorem isDigit_iff : c.isDigit = true ↔ 48 ≤ c.toNat ∧ c.toNat ≤ 57 := by
  simp [Char.isDigit, UInt32.le_iff_toNat_le]

/-- Characters are compared by their codes. -/
theorem lt_iff_toNat {a b : Char} : a < b ↔ a.toNat < b.toNat := by
  rw [Char.lt_def, UInt32.lt_iff_toNat_lt]
  rfl

/-- The first test lets digits pass and nothing else. -/
theorem printable_isDigit : ¬ (printable c < '0' ∨ '9' < printable c) ↔ c.isDigit = true := by
  have h0 : ('0' : Char).toNat = 48 := rfl
  have h9 : ('9' : Char).toNat = 57 := rfl
  have hblank : (' ' : Char).toNat = 32 := rfl
  have htilde : ('~' : Char).toNat = 126 := rfl
  have hat : ('@' : Char).toNat = 64 := rfl
  rw [isDigit_iff]
  unfold printable
  split
  · rename_i h
    simp only [lt_iff_toNat] at h ⊢
    omega
  · simp only [lt_iff_toNat]
    omega

/-- `strtoul` splits a string into its leading digits and the rest. -/
theorem takeWhile_digits (hdigits : ∀ c ∈ digits, c.isDigit = true)
    (hrest : ∀ c ∈ rest.head?, c.isDigit = false) :
    (digits ++ rest).takeWhile Char.isDigit = digits ∧
      (digits ++ rest).dropWhile Char.isDigit = rest := by
  induction digits with
  | nil =>
    cases rest with
    | nil => exact ⟨rfl, rfl⟩
    | cons c rest =>
      have hc := hrest c rfl
      simp [hc]
  | cons d digits ih =>
    obtain ⟨htake, hdrop⟩ := ih fun c hc => hdigits c (List.mem_cons_of_mem d hc)
    have hd := hdigits d List.mem_cons_self
    simp [hd, htake, hdrop]

/-- On a string that starts with a digit there is neither blank nor sign to skip. -/
theorem strtoul_digits (hdigits : ∀ c ∈ digits, c.isDigit = true) (hne : digits ≠ [])
    (hrest : ∀ c ∈ rest.head?, c.isDigit = false) :
    strtoul w erange (digits ++ rest) =
      if ulongMax w < decimal digits then (ulongMax w, rest, true)
      else (decimal digits, rest, erange) := by
  obtain ⟨htake, hdrop⟩ := takeWhile_digits hdigits hrest
  obtain ⟨d, tl, rfl⟩ := List.exists_cons_of_ne_nil hne
  obtain ⟨hlo, hhi⟩ := isDigit_iff.mp (hdigits d List.mem_cons_self)
  have hspace : isSpace d = false := decide_eq_false (by omega)
  have hminus : d ≠ '-' := by
    rintro rfl
    exact absurd hlo (by decide)
  have hplus : d ≠ '+' := by
    rintro rfl
    exact absurd hlo (by decide)
  have hskip : (d :: tl ++ rest).dropWhile isSpace = d :: tl ++ rest := by simp [hspace]
  have hhead : (d :: tl ++ rest).head? = some d := rfl
  have hminus' : ¬ some d = some '-' := fun heq => hminus (Option.some.inj heq)
  have hplus' : ¬ some d = some '+' := fun heq => hplus (Option.some.inj heq)
  unfold strtoul
  simp only [hskip, hhead, hminus', hplus', or_false, if_false, htake, hdrop, List.isEmpty_cons,
    Bool.false_eq_true]

end Digits

section Unit

/-- A unit multiplies by at least one. -/
theorem multiplier_pos (h : multiplier c = some m) : 0 < m := by
  unfold multiplier at h
  split at h
  · exact Option.some.inj h ▸ by decide
  · split at h
    · exact Option.some.inj h ▸ by decide
    · split at h
      · exact Option.some.inj h ▸ by decide
      · cases h

/-- The letters that are units. -/
theorem multiplier_isSome : (multiplier c).isSome = true ↔ c ∈ ['g', 'G', 'm', 'M', 'k', 'K'] := by
  simp only [List.mem_cons, List.not_mem_nil, or_false]
  unfold multiplier
  split_ifs with hg hm hk
  · simpa using by tauto
  · simpa using by tauto
  · simpa using by tauto
  · simp only [Option.isSome_none, Bool.false_eq_true, false_iff]
    tauto

/-- The unit is read if it is the last character, and the guard keeps the product in range. -/
theorem parseUnit_ok : parseUnit w speed rest = .ok n ↔
    rest = [] ∧ n = speed ∨
      ∃ unit m, rest = [unit] ∧ multiplier unit = some m ∧ speed * m ≤ ulongMax w ∧
        n = speed * m := by
  have hwidth : ulongMax w < 2 ^ w := Nat.sub_lt (Nat.two_pow_pos w) Nat.one_pos
  cases rest with
  | nil => simp [parseUnit, eq_comm]
  | cons unit rest =>
    unfold parseUnit
    cases hunit : multiplier unit with
    | none => simp [hunit]
    | some m =>
      have hguard : ulongMax w / m < speed ↔ ¬ speed * m ≤ ulongMax w := by
        rw [← Nat.le_div_iff_mul_le (multiplier_pos hunit), not_le]
      dsimp only
      by_cases hlt : ulongMax w / m < speed
      · have hover := hguard.mp hlt
        rw [hunit]
        dsimp only
        rw [if_pos hlt]
        simp only [reduceCtorEq, List.cons.injEq, false_and, false_or, false_iff]
        rintro ⟨unit', m', ⟨rfl, -⟩, hm', hle, -⟩
        obtain rfl := Option.some.inj (hunit.symm.trans hm')
        exact hover hle
      · have hle := not_not.mp (hguard.not.mp hlt)
        rw [hunit]
        dsimp only
        rw [if_neg hlt]
        cases rest with
        | cons c rest => simp
        | nil =>
          rw [Nat.mod_eq_of_lt (by omega)]
          simp [hunit, hle, eq_comm]

end Unit

section Parse

/-- A string that does not begin with a digit is never accepted. -/
theorem parseSpeed_invalid (h : (s.chars.takeWhile Char.isDigit) = []) :
    parseSpeed w erange s ≠ .ok n := by
  unfold parseSpeed
  split
  · exact nofun
  · rename_i first rest hs
    rw [hs] at h
    have hfirst : ¬ first.isDigit = true := fun hd => by simp [hd] at h
    rw [if_pos (not_not.mp (printable_isDigit.not.mpr hfirst))]
    exact nofun

/-- What the tests after the first one make of digits and a rest. -/
theorem parseSpeed_digits (hs : s.chars = digits ++ rest) (hne : digits ≠ [])
    (hdigits : ∀ c ∈ digits, c.isDigit = true) (hrest : ∀ c ∈ rest.head?, c.isDigit = false) :
    parseSpeed w false s = .ok n ↔ decimal digits ≤ ulongMax w ∧
      parseUnit w (decimal digits) rest = .ok n ∧ 1 ≤ n := by
  obtain ⟨d, tl, rfl⟩ := List.exists_cons_of_ne_nil hne
  have hfirst := printable_isDigit.mpr (hdigits d List.mem_cons_self)
  unfold parseSpeed
  rw [hs]
  dsimp only [List.cons_append]
  rw [if_neg hfirst, ← List.cons_append, strtoul_digits hdigits hne hrest]
  by_cases hover : ulongMax w < decimal (d :: tl)
  · rw [if_pos hover]
    simp [hover]
  · rw [if_neg hover]
    cases hunit : parseUnit w (decimal (d :: tl)) rest with
    | error e => simp [Except.bind]
    | ok speed =>
      have hle := not_lt.mp hover
      by_cases hzero : speed < 1
      · simp only [Except.bind, Bool.false_eq_true, and_false, if_false, if_pos hzero, reduceCtorEq,
          false_iff, Except.ok.injEq]
        omega
      · simp only [Except.bind, Bool.false_eq_true, and_false, if_false, if_neg hzero,
          Except.ok.injEq]
        omega

/-- `parseSpeed` accepts exactly digits with at most one unit that say a speed from 1 to
`ULONG_MAX`, and returns that speed. -/
theorem parseSpeed_ok_iff (w : ℕ) (s : CString) (n : ℕ) :
    parseSpeed w false s = .ok n ↔ ∃ digits unit, Says w s digits unit n := by
  have hunits : ∀ c ∈ ['g', 'G', 'm', 'M', 'k', 'K'], c.isDigit = false := by
    intro c hc
    simp only [List.mem_cons, List.not_mem_nil, or_false] at hc
    rcases hc with rfl | rfl | rfl | rfl | rfl | rfl <;> rfl
  constructor
  · intro h
    have hsplit := List.takeWhile_append_dropWhile (p := Char.isDigit) (l := s.chars)
    have hne : s.chars.takeWhile Char.isDigit ≠ [] := fun hnil => parseSpeed_invalid hnil h
    have hdigits : ∀ c ∈ s.chars.takeWhile Char.isDigit, c.isDigit = true :=
      List.all_eq_true.mp List.all_takeWhile
    have hrest : ∀ c ∈ (s.chars.dropWhile Char.isDigit).head?, c.isDigit = false := by
      intro c hc
      have hdrop := List.head?_dropWhile_not Char.isDigit s.chars
      rwa [show (s.chars.dropWhile Char.isDigit).head? = some c from hc] at hdrop
    obtain ⟨hle, hunit, hpos⟩ := (parseSpeed_digits hsplit.symm hne hdigits hrest).mp h
    rcases parseUnit_ok.mp hunit with ⟨hnil, hn⟩ | ⟨unit, m, hrest', hm, hfits, hn⟩
    · refine ⟨_, none, hsplit.symm.trans (by rw [hnil]; rfl), hne, hdigits, by simp, ?_, hpos,
        hn ▸ hle⟩
      rw [hn, decimal_eq, unitFactor, Nat.mul_one]
    · refine ⟨_, some unit, hsplit.symm.trans (by rw [hrest']; rfl), hne, hdigits, ?_, ?_, hpos,
        hn ▸ hfits⟩
      · rintro c hc
        obtain rfl := Option.some.inj hc
        exact multiplier_isSome.mp (by rw [hm]; rfl)
      · rw [hn, decimal_eq, unitFactor, hm, Option.getD_some]
  · rintro ⟨digits, unit, h⟩
    have hrest : ∀ c ∈ unit.toList.head?, c.isDigit = false := by
      intro c hc
      cases unit with
      | none => cases hc
      | some u => exact hunits c (h.isUnit c hc)
    apply (parseSpeed_digits h.chars h.nonempty h.isDigit hrest).mpr
    have hvalue := h.value
    rw [← decimal_eq] at hvalue
    cases unit with
    | none =>
      rw [unitFactor, Nat.mul_one] at hvalue
      exact ⟨hvalue ▸ h.fits, parseUnit_ok.mpr (.inl ⟨rfl, hvalue⟩), h.pos⟩
    | some u =>
      obtain ⟨m, hm⟩ := Option.isSome_iff_exists.mp (multiplier_isSome.mpr (h.isUnit u rfl))
      rw [unitFactor, hm, Option.getD_some] at hvalue
      have hfits := h.fits
      rw [hvalue] at hfits
      have hle : decimal digits ≤ decimal digits * m :=
        Nat.le_mul_of_pos_right _ (multiplier_pos hm)
      exact ⟨hle.trans hfits, parseUnit_ok.mpr (.inr ⟨u, m, rfl, hm, hfits, hvalue⟩), h.pos⟩

end Parse

end Udpcast.Rate
