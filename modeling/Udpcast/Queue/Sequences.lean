import Mathlib.Data.List.Induction
import Udpcast.Queue.Overflow

/-!
# Sequences of calls

The counters of a queue after any legal sequence of `pc_produce` and `pc_consumed`,
compared with the true totals, for every size that the counters can represent.
-/

namespace Udpcast.Queue

/-- A call that changes a counter. -/
inductive Call
  /-- `pc_produce(amount)`. -/
  | produce (amount : ℕ)
  /-- `pc_consumed(amount)`. -/
  | consumed (amount : ℕ)

/-- The effect of a call; `none` is a reported overflow. -/
def Call.perform (q : Produconsum) : Call → Option Produconsum
  | .produce amount => pcProduce q amount
  | .consumed amount => some (pcConsumed q amount)

/-- The effect of a sequence of calls. -/
def performCalls (q : Produconsum) (calls : List Call) : Option Produconsum :=
  calls.foldlM Call.perform q

def Call.producedAmount : Call → ℕ
  | .produce amount => amount
  | .consumed _ => 0

def Call.consumedAmount : Call → ℕ
  | .produce _ => 0
  | .consumed amount => amount

/-- The true total produced. -/
def totalProduced (calls : List Call) : ℕ := (calls.map Call.producedAmount).sum

/-- The true total consumed. -/
def totalConsumed (calls : List Call) : ℕ := (calls.map Call.consumedAmount).sum

/-- With totals `P` and `C`, the call keeps to the free space or to what is waiting. -/
def Call.Legal (size P C : ℕ) : Call → Prop
  | .produce amount => P + amount ≤ C + size
  | .consumed amount => C + amount ≤ P

/-- Every call of the sequence is legal when it is made. -/
def LegalCalls (size : ℕ) (calls : List Call) : Prop :=
  ∀ l call, l ++ [call] <+: calls → call.Legal size (totalProduced l) (totalConsumed l)

/-- The counters, and what the queue functions compute from them, are those of the totals. -/
structure Produconsum.Refines (q : Produconsum) (size P C : ℕ) : Prop where
  produced_eq : q.produced.toNat = P % (2 * size)
  consumed_eq : q.consumed.toNat = C % (2 * size)
  waiting_eq : pcGetWaiting q = P - C
  producerPosition_eq : pcGetProducerPosition q = P % size
  consumerPosition_eq : pcGetConsumerPosition q = C % size
  contiguous_eq : ∀ m ≤ P - C,
    pcConsumeContiguousMinAmount q m = some (min (P - C) (size - C % size))

/-- After every call of the sequence the queue refines the totals, and no overflow is reported. -/
def RefinedThroughout (size : ℕ) (calls : List Call) : Prop :=
  ∀ l, l <+: calls → ∃ q, performCalls (pcMakeProduconsum size) l = some q ∧
    q.Refines size (totalProduced l) (totalConsumed l)

/-- With totals `P` and `C`, the sums that `pc_produce(amount)` computes come out right: neither
wraps around 32 bits, or only `consumed + size` does, and so far that it makes no difference. -/
def SumsFit (size P C amount : ℕ) : Prop :=
  P % (2 * size) + amount < 2 ^ 32 ∧ (C % (2 * size) + size < 2 ^ 32 ∨
    (P + amount) % (2 * size) + 2 ^ 32 ≤ C % (2 * size) + size)

variable {q q' : Produconsum} {size P C amount : ℕ} {calls l : List Call}

/-- The last call comes after the others. -/
theorem performCalls_append (call : Call) : performCalls q (l ++ [call]) =
    (performCalls q l).bind fun q' => call.perform q' := by
  unfold performCalls
  rw [List.foldlM_append]
  cases List.foldlM Call.perform q l <;> simp

/-- The last call adds what it produces. -/
theorem totalProduced_append (call : Call) :
    totalProduced (l ++ [call]) = totalProduced l + call.producedAmount := by
  simp [totalProduced]

/-- The last call adds what it consumes. -/
theorem totalConsumed_append (call : Call) :
    totalConsumed (l ++ [call]) = totalConsumed l + call.consumedAmount := by
  simp [totalConsumed]

/-- What the counters of a queue mean. -/
structure Produconsum.Tracks (q : Produconsum) (size P C : ℕ) : Prop where
  size_eq : q.size.toNat = size
  size_pos : 1 ≤ size
  size_lt : 2 * size < 2 ^ 32
  consumed_le : C ≤ P
  le_size : P ≤ C + size
  produced_eq : q.produced.toNat = P % (2 * size)
  consumed_eq : q.consumed.toNat = C % (2 * size)
  notEnded : q.atEnd = false

/-- A new queue tracks two totals of 0. -/
theorem tracks_make (hpos : 1 ≤ size) (hlt : 2 * size < 2 ^ 32) :
    (pcMakeProduconsum size).Tracks size 0 0 :=
  ⟨toNat_ofNat_of_lt (by omega), hpos, hlt, le_rfl, Nat.zero_le _, by simp [pcMakeProduconsum],
    by simp [pcMakeProduconsum], rfl⟩

section Tracks

variable (h : q.Tracks size P C)
include h

/-- The counter of the producer is a remainder modulo twice the size. -/
theorem Produconsum.Tracks.produced_lt : q.produced.toNat < 2 * size := by
  have hpos := h.size_pos
  rw [h.produced_eq]
  exact Nat.mod_lt _ (by omega)

/-- So is that of the consumer. -/
theorem Produconsum.Tracks.consumed_lt : q.consumed.toNat < 2 * size := by
  have hpos := h.size_pos
  rw [h.consumed_eq]
  exact Nat.mod_lt _ (by omega)

/-- The distance of the counters is that of the totals. -/
theorem Produconsum.Tracks.distance : (if q.produced.toNat < q.consumed.toNat
    then q.produced.toNat + 2 * size - q.consumed.toNat
    else q.produced.toNat - q.consumed.toNat) = P - C := by
  have hpos := h.size_pos
  have hle := h.le_size
  rw [h.produced_eq, h.consumed_eq]
  exact mod_distance h.consumed_le (by omega)

/-- A queue that tracks the totals behaves like the abstract one. -/
theorem Produconsum.Tracks.refines : q.Refines size P C := by
  have hpos := h.size_pos
  have hp := h.produced_lt
  have hc := h.consumed_lt
  have hlt := h.size_lt
  have hwaiting : pcGetWaiting q = P - C := by
    rw [← h.size_eq] at hp hc hlt
    rw [pcGetWaiting, getProducedAmount_toNat hlt hp hc, h.size_eq]
    exact h.distance
  have hposition : (q.consumed % q.size).toNat = C % size := by
    rw [UInt32.toNat_mod, h.consumed_eq, h.size_eq, mod_two_mul_mod]
  have hmod := Nat.mod_lt C hpos
  refine ⟨h.produced_eq, h.consumed_eq, hwaiting, ?_, hposition, fun m hm => ?_⟩
  · rw [pcGetProducerPosition, UInt32.toNat_mod, h.produced_eq, h.size_eq, mod_two_mul_mod]
  · have hrest : (q.size - q.consumed % q.size).toNat = size - C % size := by
      rw [toNat_sub_of_le (by rw [hposition, h.size_eq]; exact hmod.le), hposition, h.size_eq]
    rw [pcConsumeContiguousMinAmount, pcConsume, hwaiting, if_pos (.inl hm), Option.map_some]
    dsimp only
    rw [hrest, Option.some.injEq]
    split <;> omega

/-- Consuming what is waiting advances the total. -/
theorem Produconsum.Tracks.pcConsumed (hfit : C + amount ≤ P) :
    (pcConsumed q amount).Tracks size P (C + amount) := by
  have hpos := h.size_pos
  have hle := h.le_size
  have hlt := h.size_lt
  have hamount : (UInt32.ofNat amount).toNat = amount := toNat_ofNat_of_lt (by omega)
  have hadvance := add_mod_wrap (m := 2 * size) (x := C) (a := amount) (by omega) (by omega)
  refine { h with consumed_le := hfit, le_size := by omega, consumed_eq := ?_ }
  rw [Queue.pcConsumed, consume_toNat (by rw [h.size_eq]; exact hlt)
    (by rw [h.size_eq]; exact h.consumed_lt) (by rw [hamount, h.size_eq]; omega), hamount,
    h.size_eq, h.consumed_eq, hadvance]

end Tracks

/-- When a legal `pc_produce` stores the right counter. -/
theorem stores_iff {s p c w a next right : ℕ} (hlt : 2 * s < 2 ^ 32) (hp : p < 2 * s)
    (hc : c < 2 * s) (hw : w = if p < c then p + 2 * s - c else p - c) (hfit : w + a ≤ s)
    (hnext : next = if 2 * s ≤ (p + a) % 2 ^ 32 then (p + a) % 2 ^ 32 - 2 * s
      else (p + a) % 2 ^ 32)
    (hright : right = if 2 * s ≤ p + a then p + a - 2 * s else p + a) :
    ¬PassesLimit s c next ∧ next = right ↔
      p + a < 2 ^ 32 ∧ (c + s < 2 ^ 32 ∨ right + 2 ^ 32 ≤ c + s) := by
  unfold PassesLimit
  rcases Nat.lt_or_ge (p + a) (2 ^ 32) with hsum | hsum
  · rw [Nat.mod_eq_of_lt hsum] at hnext
    have hnext : next = right := hnext.trans hright.symm
    subst hnext
    rcases Nat.lt_or_ge (c + s) (2 ^ 32) with hcs | hcs
    · rw [Nat.mod_eq_of_lt hcs]
      split_ifs at hw hright <;> omega
    · split_ifs at hw hright <;> omega
  · -- the sum has wrapped around, so the new counter is too small
    have hsmall : next = p + a - 2 ^ 32 := by
      rw [hnext, if_neg] <;> split_ifs at hw <;> omega
    rw [if_pos (by omega)] at hright
    omega

/-- A legal `pc_produce` keeps the queue in step with the totals if and only if its sums fit. -/
theorem Produconsum.Tracks.pcProduce_iff (h : q.Tracks size P C) (hfit : P + amount ≤ C + size) :
    (∃ q', pcProduce q amount = some q' ∧ q'.produced.toNat = (P + amount) % (2 * size)) ↔
      SumsFit size P C amount := by
  have hpos := h.size_pos
  have hle := h.consumed_le
  have hlt := h.size_lt
  have hamount : (UInt32.ofNat amount).toNat = amount := toNat_ofNat_of_lt (by omega)
  have hnext := advanced_toNat q.size q.produced (.ofNat amount) (by rw [h.size_eq]; exact hlt)
  dsimp only at hnext
  rw [hamount, h.size_eq, h.produced_eq] at hnext
  have hadvance := add_mod_wrap (m := 2 * size) (x := P) (a := amount) (by omega) (by omega)
  have hdistance := h.distance
  have hp := h.produced_lt
  have hc := h.consumed_lt
  rw [h.produced_eq, h.consumed_eq] at hdistance
  rw [h.produced_eq] at hp
  rw [h.consumed_eq] at hc
  have hstores := stores_iff hlt hp hc hdistance.symm (by omega) hnext hadvance.symm
  unfold SumsFit
  rw [← hstores, ← h.consumed_eq, ← h.size_eq]
  have hnone := produce_eq_none q.size q.produced q.consumed (.ofNat amount)
  rw [hamount, h.size_eq, or_iff_right (by omega), ← h.size_eq] at hnone
  rw [← hnone]
  unfold pcProduce
  constructor
  · rintro ⟨q', hq', hcounter⟩
    obtain ⟨produced, hproduced, rfl⟩ := Option.map_eq_some_iff.mp hq'
    rw [← produce_eq_some hproduced, hproduced]
    exact ⟨by simp, hcounter⟩
  · rintro ⟨hsome, hcounter⟩
    obtain ⟨produced, hproduced⟩ := Option.ne_none_iff_exists'.mp hsome
    refine ⟨{ q with produced := produced }, by rw [hproduced, Option.map_some], ?_⟩
    rw [produce_eq_some hproduced]
    exact hcounter

/-- Producing what there is room for succeeds and advances the total, as long as the sums fit. -/
theorem Produconsum.Tracks.pcProduce (h : q.Tracks size P C) (hfit : P + amount ≤ C + size)
    (hsums : SumsFit size P C amount) :
    ∃ q', pcProduce q amount = some q' ∧ q'.Tracks size (P + amount) C := by
  obtain ⟨q', hq', hcounter⟩ := (h.pcProduce_iff hfit).mpr hsums
  obtain ⟨produced, -, rfl⟩ := Option.map_eq_some_iff.mp hq'
  have hle := h.consumed_le
  exact ⟨_, hq', { h with
    consumed_le := by omega, le_size := hfit, produced_eq := hcounter }⟩

/-- The sums of every `pc_produce` of the sequence fit. -/
def SumsFitThroughout (size : ℕ) (calls : List Call) : Prop :=
  ∀ l amount, l ++ [.produce amount] <+: calls →
    SumsFit size (totalProduced l) (totalConsumed l) amount

/-- As long as the sums fit the counters are in step with the totals. -/
theorem tracks_of_sumsFit (hpos : 1 ≤ size) (hlt : 2 * size < 2 ^ 32)
    (hlegal : LegalCalls size calls) (hsums : SumsFitThroughout size calls) (hl : l <+: calls) :
    ∃ q, performCalls (pcMakeProduconsum size) l = some q ∧
      q.Tracks size (totalProduced l) (totalConsumed l) := by
  induction l using List.reverseRecOn with
  | nil => exact ⟨_, rfl, tracks_make hpos hlt⟩
  | append_singleton l call ih =>
    obtain ⟨q, hq, htracks⟩ := ih ((List.prefix_append l [call]).trans hl)
    have hfit := hlegal l call hl
    rw [performCalls_append, hq, Option.bind_some, totalProduced_append, totalConsumed_append]
    cases call with
    | produce amount =>
      obtain ⟨q', hq', htracks'⟩ := htracks.pcProduce hfit (hsums l amount hl)
      exact ⟨q', hq', htracks'⟩
    | consumed amount => exact ⟨_, rfl, htracks.pcConsumed hfit⟩

/-- In a legal sequence of calls the modular counters refine the true totals throughout if and
only if the sums fit throughout. -/
theorem refinedThroughout_iff (hpos : 1 ≤ size) (hlt : 2 * size < 2 ^ 32)
    (hlegal : LegalCalls size calls) :
    RefinedThroughout size calls ↔ SumsFitThroughout size calls := by
  constructor
  · intro hrefined
    -- by induction on the prefix: up to the call the sums fit, and so does the call itself
    have hfits : ∀ l, l <+: calls → SumsFitThroughout size l := by
      intro l
      induction l using List.reverseRecOn with
      | nil => exact fun _ l amount hl => absurd (List.prefix_nil.mp hl) (by simp)
      | append_singleton l call ih =>
        intro hl l' amount hl'
        rcases List.prefix_concat_iff.mp hl' with heq | hshorter
        · obtain ⟨rfl, hcall⟩ := List.append_inj' heq rfl
          obtain rfl := (List.cons.inj hcall).1
          have hprefix := (List.prefix_append l' [.produce amount]).trans hl
          have hlegal' : LegalCalls size l' := fun l call h => hlegal l call (h.trans hprefix)
          obtain ⟨q, hq, htracks⟩ := tracks_of_sumsFit hpos hlt hlegal' (ih hprefix)
            (List.prefix_refl l')
          obtain ⟨q', hq', hrefines⟩ := hrefined _ hl
          rw [performCalls_append, hq, Option.bind_some] at hq'
          refine (htracks.pcProduce_iff (hlegal l' _ hl)).mp ⟨q', hq', ?_⟩
          rw [hrefines.produced_eq, totalProduced_append]
          rfl
        · exact ih ((List.prefix_append l [call]).trans hl) l' amount hshorter
    exact hfits calls (List.prefix_refl calls)
  · intro hsums l hl
    obtain ⟨q, hq, htracks⟩ := tracks_of_sumsFit hpos hlt hlegal hsums hl
    exact ⟨q, hq, htracks.refines⟩

/-- It is enough to look at the calls one by one. -/
theorem legalCalls_of_get (h : ∀ k : Fin calls.length, (calls.get k).Legal size
    (totalProduced (calls.take k)) (totalConsumed (calls.take k))) : LegalCalls size calls := by
  rintro l call ⟨rest, rfl⟩
  have hlt : l.length < (l ++ [call] ++ rest).length := by simp
  simpa [List.append_assoc] using h ⟨l.length, hlt⟩

instance (size P C : ℕ) (call : Call) : Decidable (call.Legal size P C) :=
  match call with
  | .produce _ => inferInstanceAs (Decidable (_ ≤ _))
  | .consumed _ => inferInstanceAs (Decidable (_ ≤ _))

/-- A queue of ten elements is filled up beyond the end of the ring. -/
theorem refinedThroughout_iff_ten :
    RefinedThroughout 10 [.produce 7, .consumed 6, .produce 9, .consumed 8] ↔
      SumsFitThroughout 10 [.produce 7, .consumed 6, .produce 9, .consumed 8] :=
  refinedThroughout_iff (by decide) (by decide) (legalCalls_of_get (by decide))

/-- In a queue of `2 ^ 31 - 1` elements the sum `produced + amount` wraps around. -/
theorem not_refinedThroughout : ¬∀ size calls, 1 ≤ size → 2 * size < 2 ^ 32 →
    LegalCalls size calls → RefinedThroughout size calls := by
  intro hrefined
  obtain ⟨q, hq, hrefines⟩ := hrefined 2147483647 [.produce 2147483647, .consumed 2147483647,
    .produce 2, .consumed 2, .produce 2147483647] (by decide) (by decide)
    (legalCalls_of_get (by decide)) _ (List.prefix_refl _)
  have hcounter : (performCalls (pcMakeProduconsum 2147483647) [.produce 2147483647,
      .consumed 2147483647, .produce 2, .consumed 2, .produce 2147483647]).all fun q =>
      q.produced = 0 := by decide +kernel
  rw [hq, Option.all_some, decide_eq_true_eq] at hcounter
  have hproduced := hrefines.produced_eq
  rw [hcounter] at hproduced
  exact absurd hproduced (by decide)

end Udpcast.Queue
