import Udpcast.Lib.System
import Udpcast.Queue.Produconsum

/-!
# The two threads of a queue

One producer and one consumer of a `struct produconsum`. Every read or write of a
shared field, every mutex operation and every operation on the condition variable is
a step of its own. The totals of what was produced and consumed are history only.
-/

namespace Udpcast.Queue

/-- The holder of a mutex. -/
inductive Thread
  | producer
  | consumer
  deriving DecidableEq

/-- Where the producer stands, with its local variables. -/
inductive ProducerPc
  /-- Between two calls. -/
  | idle
  /-- `pc_produce(amount)`, before `produced = pc->produced`. -/
  | readProduced (amount : UInt32)
  /-- Before `consumed = pc->consumed`; the checks follow at once. -/
  | readConsumed (amount produced : UInt32)
  /-- Before `pc->produced = produced`. -/
  | store (amount produced : UInt32)
  /-- `pc_produceEnd`, before `pc->atEnd = 1`. -/
  | mark
  /-- `wakeConsumer`, before `if(pc->consumerIsWaiting)`. -/
  | readWaiting
  /-- Before `pthread_mutex_lock`. -/
  | lock
  /-- Before `pthread_cond_signal`. -/
  | signal
  /-- Before `pthread_mutex_unlock`. -/
  | unlock
  /-- `udpc_fatal` has been called. -/
  | fatal
  deriving DecidableEq

/-- Where the consumer stands, with its local variables; `locked` is set in the second
half of `_consumeAny`, where it holds the mutex. -/
inductive ConsumerPc
  /-- Between two calls. -/
  | idle
  /-- `pc_consume(min)`, before `pc->consumerIsWaiting = 1`. -/
  | setWaiting (min : UInt32)
  /-- `getProducedAmount`, before `produced = pc->produced`. -/
  | readProduced (locked : Bool) (min : UInt32)
  /-- Before `consumed = pc->consumed`; `amount` follows at once. -/
  | readConsumed (locked : Bool) (min produced : UInt32)
  /-- `amount < minAmount`, before the read of `pc->atEnd`. -/
  | readAtEnd (locked : Bool) (min amount : UInt32)
  /-- Before `pthread_mutex_lock`. -/
  | lock (min : UInt32)
  /-- Before `pthread_cond_wait`. -/
  | wait (min : UInt32)
  /-- Asleep in `pthread_cond_wait`. -/
  | sleeping (min : UInt32)
  /-- Woken up, before `pthread_cond_wait` has the mutex again. -/
  | relock (min : UInt32)
  /-- Before `pthread_mutex_unlock`. -/
  | unlock (min amount : UInt32)
  /-- Before `pc->consumerIsWaiting = 0`. -/
  | clearWaiting (min amount : UInt32)
  /-- `pc_consume(min)` has returned `amount`. -/
  | returned (min amount : UInt32)
  /-- `pc_consumed(amount)`, before `consumed = pc->consumed`. -/
  | readOwn (amount : UInt32)
  /-- Before `pc->consumed = consumed`. -/
  | storeOwn (amount consumed : UInt32)
  deriving DecidableEq

/-- A queue with its two threads. -/
structure State where
  /-- `size`. -/
  size : UInt32
  /-- `produced`. -/
  produced : UInt32
  /-- `consumed`. -/
  consumed : UInt32
  /-- `atEnd`. -/
  atEnd : Bool
  /-- `consumerIsWaiting`. -/
  consumerIsWaiting : Bool
  /-- Holder of `mutex`. -/
  mutex : Option Thread
  producer : ProducerPc
  consumer : ConsumerPc
  /-- History: the sum of all amounts stored by `pc_produce`. -/
  totalProduced : ℕ
  /-- History: the sum of all amounts stored by `pc_consumed`. -/
  totalConsumed : ℕ
  deriving DecidableEq

/-- `pc_makeProduconsum(size)`. -/
def makeProduconsum (size : UInt32) : State :=
  ⟨size, 0, 0, false, false, none, .idle, .idle, 0, 0⟩

/-- The next step of the producer in the call it is in. -/
def producerStep (s : State) : Option State :=
  match s.producer with
  | .idle | .fatal => none
  | .readProduced amount => some { s with producer := .readConsumed amount s.produced }
  | .readConsumed amount produced =>
    match produce s.size produced s.consumed amount with
    | some produced => some { s with producer := .store amount produced }
    | none => some { s with producer := .fatal }
  | .store amount produced =>
    some { s with
      produced := produced, producer := .readWaiting
      totalProduced := s.totalProduced + amount.toNat }
  | .mark => some { s with atEnd := true, producer := .readWaiting }
  | .readWaiting => some { s with producer := if s.consumerIsWaiting then .lock else .idle }
  | .lock =>
    if s.mutex = none then some { s with mutex := some .producer, producer := .signal } else none
  | .signal =>
    some { s with
      producer := .unlock
      consumer := match s.consumer with
        | .sleeping min => .relock min
        | c => c }
  | .unlock => some { s with mutex := none, producer := .idle }

/-- The next step of the consumer in the call it is in. -/
def consumerStep (s : State) : Option State :=
  match s.consumer with
  | .idle | .sleeping _ => none
  | .setWaiting min =>
    some { s with consumerIsWaiting := true, consumer := .readProduced false min }
  | .readProduced locked min => some { s with consumer := .readConsumed locked min s.produced }
  | .readConsumed locked min produced =>
    let amount := getProducedAmount s.size produced s.consumed
    some { s with
      consumer :=
        if min ≤ amount then
          if locked then .unlock min amount else .clearWaiting min amount
        else .readAtEnd locked min amount }
  | .readAtEnd locked min amount =>
    some { s with
      consumer :=
        if s.atEnd then
          if locked then .unlock min amount else .clearWaiting min amount
        else if locked then .wait min else .lock min }
  | .lock min | .relock min =>
    if s.mutex = none then
      some { s with mutex := some .consumer, consumer := .readProduced true min }
    else none
  | .wait min => some { s with mutex := none, consumer := .sleeping min }
  | .unlock min amount => some { s with mutex := none, consumer := .clearWaiting min amount }
  | .clearWaiting min amount =>
    some { s with consumerIsWaiting := false, consumer := .returned min amount }
  | .returned _ _ => some { s with consumer := .idle }
  | .readOwn amount => some { s with consumer := .storeOwn amount (consume s.size s.consumed amount) }
  | .storeOwn amount consumed =>
    some { s with
      consumed := consumed, consumer := .idle
      totalConsumed := s.totalConsumed + amount.toNat }

/-- What can happen to a queue: a thread goes on, starts a call or wakes up without a
signal. -/
inductive Action
  | producer
  | consumer
  | callProduce (amount : UInt32)
  | callProduceEnd
  | callConsume (min : UInt32)
  | callConsumed (amount : UInt32)
  | spuriousWakeup

/-- A call is legal if the producer keeps to the free space and makes no call after
`pc_produceEnd`, and the consumer takes no more than what is waiting. -/
def act (s : State) : Action → Option State
  | .producer => producerStep s
  | .consumer => consumerStep s
  | .callProduce amount =>
    if s.producer = .idle ∧ s.atEnd = false ∧
        s.totalProduced + amount.toNat ≤ s.totalConsumed + s.size.toNat then
      some { s with producer := .readProduced amount }
    else none
  | .callProduceEnd =>
    if s.producer = .idle ∧ s.atEnd = false then some { s with producer := .mark } else none
  | .callConsume min =>
    if s.consumer = .idle then some { s with consumer := .setWaiting min } else none
  | .callConsumed amount =>
    if s.consumer = .idle ∧ s.totalConsumed + amount.toNat ≤ s.totalProduced then
      some { s with consumer := .readOwn amount }
    else none
  | .spuriousWakeup =>
    match s.consumer with
    | .sleeping min => some { s with consumer := .relock min }
    | _ => none

/-- A queue of a size that the program uses. -/
def threads : System State :=
  .ofActions (fun s => ∃ size, ValidSize size ∧ s = makeProduconsum size) act

/-- A call of `pc_consume(min)` that returns less than `min` returns all that is ever
produced and not consumed yet. -/
def ShortReturnExact (s : State) : Prop :=
  ∀ min amount, s.consumer = .returned min amount → amount < min →
    ∀ s', threads.Run s s' → amount.toNat = s'.totalProduced - s.totalConsumed

/-- The consumer is between its reads of `pc->produced` and of `pc->atEnd`, what it has
read is less than it asked for, and more has been stored since. -/
def State.shortReadOutdated (s : State) : Bool :=
  match s.consumer with
  | .readConsumed _ min produced =>
    produced ≠ s.produced && getProducedAmount s.size produced s.consumed < min
  | .readAtEnd _ _ amount => amount ≠ getProducedAmount s.size s.produced s.consumed
  | _ => false

/-- The end is not marked while a short read of the consumer is outdated. -/
def MarkInTime (s s' : State) : Prop :=
  s.atEnd = false → s'.atEnd = true → s.shortReadOutdated = false

instance (s s' : State) : Decidable (MarkInTime s s') :=
  inferInstanceAs (Decidable (_ → _ → _))

section Invariant

/-- What the producer knows at each point of a call. -/
def State.ProducerInv (s : State) : Prop :=
  match s.producer with
  | .readProduced amount =>
    s.atEnd = false ∧ s.totalProduced + amount.toNat ≤ s.totalConsumed + s.size.toNat
  | .readConsumed amount produced =>
    s.atEnd = false ∧ s.totalProduced + amount.toNat ≤ s.totalConsumed + s.size.toNat ∧
      produced = s.produced
  | .store amount produced =>
    s.atEnd = false ∧ s.totalProduced + amount.toNat ≤ s.totalConsumed + s.size.toNat ∧
      produced.toNat = (s.totalProduced + amount.toNat) % (2 * s.size.toNat)
  | .mark => s.atEnd = false
  | .fatal => False
  | _ => True

/-- What the consumer knows at each point of a call. -/
def State.ConsumerInv (s : State) : Prop :=
  match s.consumer with
  | .readConsumed _ min produced => ∃ total ≤ s.totalProduced,
    Counts s.size produced s.consumed total s.totalConsumed ∧
      (s.atEnd = true → getProducedAmount s.size produced s.consumed < min →
        total = s.totalProduced)
  | .readAtEnd _ _ amount => amount.toNat + s.totalConsumed ≤ s.totalProduced ∧
      (s.atEnd = true → amount.toNat + s.totalConsumed = s.totalProduced)
  | .unlock min amount | .clearWaiting min amount | .returned min amount => amount < min →
      s.atEnd = true ∧ amount.toNat + s.totalConsumed = s.totalProduced
  | .readOwn amount => s.totalConsumed + amount.toNat ≤ s.totalProduced
  | .storeOwn amount consumed => s.totalConsumed + amount.toNat ≤ s.totalProduced ∧
      consumed = consume s.size s.consumed amount
  | _ => True

/-- The invariant of a queue. -/
structure State.Inv (s : State) : Prop where
  size : ValidSize s.size
  counts : Counts s.size s.produced s.consumed s.totalProduced s.totalConsumed
  producer : s.ProducerInv
  consumer : s.ConsumerInv

/-- The invariant holds of a new queue, before either thread has begun. -/
theorem inv_make {size : UInt32} (hs : ValidSize size) : (makeProduconsum size).Inv where
  size := hs
  counts := ⟨le_rfl, Nat.zero_le _, by simp [makeProduconsum], by simp [makeProduconsum]⟩
  producer := trivial
  consumer := trivial

/-- What is stored before the end is marked leaves the consumer's knowledge intact. -/
theorem consumerInv_store {s : State} (h : s.ConsumerInv) (hend : s.atEnd = false)
    {produced : UInt32} {total : ℕ} {pc : ProducerPc} (hle : s.totalProduced ≤ total) :
    State.ConsumerInv { s with produced := produced, producer := pc, totalProduced := total } := by
  unfold State.ConsumerInv at *
  cases hpc : s.consumer with
  | readConsumed locked min produced =>
    simp only [hpc, hend] at h ⊢
    obtain ⟨total₀, hle₀, hcounts, _⟩ := h
    exact ⟨total₀, by omega, hcounts, by simp⟩
  | readAtEnd locked min amount =>
    simp only [hpc, hend] at h ⊢
    exact ⟨by omega, by simp⟩
  | unlock min amount | clearWaiting min amount | returned min amount =>
    simp only [hpc, hend] at h ⊢
    intro hlt
    simpa using (h hlt).1
  | readOwn amount =>
    simp only [hpc] at h ⊢
    omega
  | storeOwn amount consumed =>
    simp only [hpc] at h ⊢
    exact ⟨by omega, h.2⟩
  | _ => simp only [hpc] at h ⊢

/-- A mark that comes in time leaves the consumer's knowledge intact. -/
theorem consumerInv_mark {s : State} (h : s.Inv) (hend : s.atEnd = false)
    (hmark : s.shortReadOutdated = false) {pc : ProducerPc} :
    State.ConsumerInv { s with atEnd := true, producer := pc } := by
  obtain ⟨hsize, hcounts, _, h⟩ := h
  unfold State.ConsumerInv at *
  unfold State.shortReadOutdated at hmark
  have hamount := hcounts.getProducedAmount_eq hsize
  have hle := hcounts.consumed_le
  cases hpc : s.consumer with
  | readConsumed locked min produced =>
    simp only [hpc] at h hmark ⊢
    obtain ⟨total, htotal, hcounts', _⟩ := h
    refine ⟨total, htotal, hcounts', fun _ hlt => ?_⟩
    obtain rfl : produced = s.produced := by simpa [hlt] using hmark
    have hamount' := hcounts'.getProducedAmount_eq hsize
    have hle' := hcounts'.consumed_le
    omega
  | readAtEnd locked min amount =>
    simp only [hpc] at h hmark ⊢
    obtain rfl : amount = getProducedAmount s.size s.produced s.consumed := by simpa using hmark
    exact ⟨h.1, fun _ => by omega⟩
  | unlock min amount | clearWaiting min amount | returned min amount =>
    simp only [hpc, hend] at h ⊢
    intro hlt
    simpa using (h hlt).1
  | readOwn amount | storeOwn amount consumed => simpa only [hpc] using h
  | _ => simp only

/-- A step of the producer keeps the invariant, if the mark comes in time. -/
theorem inv_producerStep {s s' : State} (h : s.Inv) (hstep : producerStep s = some s')
    (hmark : MarkInTime s s') : s'.Inv := by
  have hall := h
  obtain ⟨hsize, hcounts, hproducer, hconsumer⟩ := h
  unfold State.ProducerInv at hproducer
  cases hpc : s.producer with
  | idle => simp [producerStep, hpc] at hstep
  | fatal => simp [producerStep, hpc] at hstep
  | readProduced amount =>
    simp only [hpc] at hproducer
    simp only [producerStep, hpc, Option.some.injEq] at hstep
    subst hstep
    exact ⟨hsize, hcounts, ⟨hproducer.1, hproducer.2, rfl⟩, hconsumer⟩
  | readConsumed amount produced =>
    simp only [hpc] at hproducer
    obtain ⟨hend, hfit, rfl⟩ := hproducer
    obtain ⟨produced', hproduce, hcounts'⟩ :=
      hcounts.produce_eq hsize (n := amount) (by omega)
    simp only [producerStep, hpc, hproduce, Option.some.injEq] at hstep
    subst hstep
    exact ⟨hsize, hcounts, ⟨hend, hfit, hcounts'.produced_eq⟩, hconsumer⟩
  | store amount produced =>
    simp only [hpc] at hproducer
    obtain ⟨hend, hfit, hproduced⟩ := hproducer
    simp only [producerStep, hpc, Option.some.injEq] at hstep
    subst hstep
    have hle := hcounts.consumed_le
    exact ⟨hsize, ⟨Nat.le_add_right_of_le hle, by dsimp only; omega, hproduced,
      hcounts.consumed_eq⟩, trivial, consumerInv_store hconsumer hend (Nat.le_add_right _ _)⟩
  | mark =>
    simp only [hpc] at hproducer
    simp only [producerStep, hpc, Option.some.injEq] at hstep
    subst hstep
    exact ⟨hsize, hcounts, trivial, consumerInv_mark hall hproducer (hmark hproducer rfl)⟩
  | readWaiting =>
    simp only [producerStep, hpc, Option.some.injEq] at hstep
    subst hstep
    refine ⟨hsize, hcounts, ?_, hconsumer⟩
    cases s.consumerIsWaiting <;> trivial
  | lock =>
    simp only [producerStep, hpc] at hstep
    obtain ⟨_, hstep⟩ := Option.ite_none_right_eq_some.mp hstep
    obtain rfl := Option.some.inj hstep
    exact ⟨hsize, hcounts, trivial, hconsumer⟩
  | signal =>
    simp only [producerStep, hpc, Option.some.injEq] at hstep
    subst hstep
    refine ⟨hsize, hcounts, trivial, ?_⟩
    unfold State.ConsumerInv at *
    cases hc : s.consumer with
    | readConsumed locked min produced | readAtEnd locked min amount | unlock min amount
    | clearWaiting min amount | returned min amount | readOwn amount | storeOwn amount consumed =>
      simpa only [hc] using hconsumer
    | _ => trivial
  | unlock =>
    simp only [producerStep, hpc, Option.some.injEq] at hstep
    subst hstep
    exact ⟨hsize, hcounts, trivial, hconsumer⟩

/-- A step of the consumer keeps it in any case. -/
theorem inv_consumerStep {s s' : State} (h : s.Inv) (hstep : consumerStep s = some s') :
    s'.Inv := by
  obtain ⟨hsize, hcounts, hproducer, hconsumer⟩ := h
  have hamount := hcounts.getProducedAmount_eq hsize
  unfold State.ConsumerInv at hconsumer
  cases hpc : s.consumer with
  | idle => simp [consumerStep, hpc] at hstep
  | sleeping min => simp [consumerStep, hpc] at hstep
  | setWaiting min | wait min | returned min amount =>
    simp only [consumerStep, hpc, Option.some.injEq] at hstep
    subst hstep
    exact ⟨hsize, hcounts, hproducer, trivial⟩
  | readProduced locked min =>
    simp only [consumerStep, hpc, Option.some.injEq] at hstep
    subst hstep
    exact ⟨hsize, hcounts, hproducer, s.totalProduced, le_rfl, hcounts, fun _ _ => rfl⟩
  | readConsumed locked min produced =>
    simp only [hpc] at hconsumer
    obtain ⟨total, htotal, hcounts', hend⟩ := hconsumer
    simp only [consumerStep, hpc, Option.some.injEq] at hstep
    subst hstep
    refine ⟨hsize, hcounts, hproducer, ?_⟩
    have hamount' := hcounts'.getProducedAmount_eq hsize
    have hle := hcounts'.consumed_le
    unfold State.ConsumerInv
    by_cases hmin : min ≤ getProducedAmount s.size produced s.consumed
    · cases locked <;> simp only [hmin, if_true, Bool.false_eq_true, if_false] <;>
        exact fun hlt => absurd hmin (UInt32.not_le.mpr hlt)
    · simp only [hmin, if_false]
      refine ⟨by omega, fun hmark => ?_⟩
      have := hend hmark (UInt32.not_le.mp hmin)
      omega
  | readAtEnd locked min amount =>
    simp only [hpc] at hconsumer
    simp only [consumerStep, hpc, Option.some.injEq] at hstep
    subst hstep
    refine ⟨hsize, hcounts, hproducer, ?_⟩
    unfold State.ConsumerInv
    cases hend : s.atEnd with
    | false => cases locked <;> trivial
    | true => cases locked <;> exact fun _ => ⟨rfl, hconsumer.2 hend⟩
  | lock min | relock min =>
    simp only [consumerStep, hpc] at hstep
    obtain ⟨_, hstep⟩ := Option.ite_none_right_eq_some.mp hstep
    obtain rfl := Option.some.inj hstep
    exact ⟨hsize, hcounts, hproducer, trivial⟩
  | unlock min amount | clearWaiting min amount =>
    simp only [hpc] at hconsumer
    simp only [consumerStep, hpc, Option.some.injEq] at hstep
    subst hstep
    exact ⟨hsize, hcounts, hproducer, hconsumer⟩
  | readOwn amount =>
    simp only [hpc] at hconsumer
    simp only [consumerStep, hpc, Option.some.injEq] at hstep
    subst hstep
    exact ⟨hsize, hcounts, hproducer, hconsumer, rfl⟩
  | storeOwn amount consumed =>
    simp only [hpc] at hconsumer
    obtain ⟨hfit, rfl⟩ := hconsumer
    simp only [consumerStep, hpc, Option.some.injEq] at hstep
    subst hstep
    refine ⟨hsize, hcounts.consume_eq hsize hfit, ?_, trivial⟩
    unfold State.ProducerInv at *
    cases hp : s.producer with
    | readProduced a =>
      simp only [hp] at hproducer ⊢
      exact ⟨hproducer.1, by omega⟩
    | readConsumed a p | store a p =>
      simp only [hp] at hproducer ⊢
      exact ⟨hproducer.1, by omega, hproducer.2.2⟩
    | _ => simp_all only

/-- So any step keeps it, if the mark comes in time. -/
theorem inv_act {s s' : State} {a : Action} (h : s.Inv) (hact : act s a = some s')
    (hmark : MarkInTime s s') : s'.Inv := by
  cases a with
  | producer => exact inv_producerStep h hact hmark
  | consumer => exact inv_consumerStep h hact
  | callProduce amount =>
    obtain ⟨⟨_, hend, hfit⟩, hact⟩ := Option.ite_none_right_eq_some.mp hact
    obtain rfl := Option.some.inj hact
    exact ⟨h.size, h.counts, ⟨hend, hfit⟩, h.consumer⟩
  | callProduceEnd =>
    obtain ⟨⟨_, hend⟩, hact⟩ := Option.ite_none_right_eq_some.mp hact
    obtain rfl := Option.some.inj hact
    exact ⟨h.size, h.counts, hend, h.consumer⟩
  | callConsume min =>
    obtain ⟨_, hact⟩ := Option.ite_none_right_eq_some.mp hact
    obtain rfl := Option.some.inj hact
    exact ⟨h.size, h.counts, h.producer, trivial⟩
  | callConsumed amount =>
    obtain ⟨⟨_, hfit⟩, hact⟩ := Option.ite_none_right_eq_some.mp hact
    obtain rfl := Option.some.inj hact
    exact ⟨h.size, h.counts, h.producer, hfit⟩
  | spuriousWakeup =>
    cases hpc : s.consumer with
    | sleeping min =>
      simp only [act, hpc, Option.some.injEq] at hact
      subst hact
      exact ⟨h.size, h.counts, h.producer, trivial⟩
    | _ => simp [act, hpc] at hact

/-- And it holds in all states of a run whose mark comes in time. -/
theorem inv_of_reachable {s : State} (h : (threads.restrict MarkInTime).Reachable s) : s.Inv := by
  refine h.invariant ?_ ?_
  · rintro s ⟨size, hsize, rfl⟩
    exact inv_make hsize
  · rintro s s' hs ⟨⟨a, hact⟩, hmark⟩
    exact inv_act hs hact hmark

end Invariant

/-- The calls and steps of the consumer do not touch the producer's side. -/
theorem consumerStep_frame {s s' : State} (h : consumerStep s = some s') :
    s'.producer = s.producer ∧ s'.atEnd = s.atEnd ∧ s'.totalProduced = s.totalProduced := by
  cases hpc : s.consumer with
  | idle | sleeping min => simp [consumerStep, hpc] at h
  | lock min | relock min =>
    simp only [consumerStep, hpc] at h
    obtain ⟨_, h⟩ := Option.ite_none_right_eq_some.mp h
    obtain rfl := Option.some.inj h
    exact ⟨rfl, rfl, rfl⟩
  | _ =>
    simp only [consumerStep, hpc, Option.some.injEq] at h
    subst h
    exact ⟨rfl, rfl, rfl⟩

/-- The producer is not between the start of a call and its last store. -/
def ProducerPc.quiet : ProducerPc → Bool
  | .idle | .readWaiting | .lock | .signal | .unlock => true
  | _ => false

/-- `pc_produceEnd` has marked the end. -/
structure State.Ended (s : State) : Prop where
  atEnd : s.atEnd = true
  quiet : s.producer.quiet = true

/-- Once the end is marked, the invariant says that nothing is produced any more. -/
theorem State.Inv.ended {s : State} (h : s.Inv) (hend : s.atEnd = true) : s.Ended := by
  have hproducer := h.producer
  refine ⟨hend, ?_⟩
  unfold State.ProducerInv at hproducer
  cases hpc : s.producer <;> simp_all [ProducerPc.quiet]

/-- After the mark the total is final. -/
theorem ended_act {s s' : State} {a : Action} (h : s.Ended) (hact : act s a = some s') :
    s'.Ended ∧ s'.totalProduced = s.totalProduced := by
  obtain ⟨hend, hquiet⟩ := h
  cases a with
  | producer =>
    cases hpc : s.producer with
    | readWaiting =>
      simp only [act, producerStep, hpc, Option.some.injEq] at hact
      subst hact
      exact ⟨⟨hend, by cases s.consumerIsWaiting <;> rfl⟩, rfl⟩
    | lock =>
      simp only [act, producerStep, hpc] at hact
      obtain ⟨_, hact⟩ := Option.ite_none_right_eq_some.mp hact
      obtain rfl := Option.some.inj hact
      exact ⟨⟨hend, rfl⟩, rfl⟩
    | signal | unlock =>
      simp only [act, producerStep, hpc, Option.some.injEq] at hact
      subst hact
      exact ⟨⟨hend, rfl⟩, rfl⟩
    | idle => simp [act, producerStep, hpc] at hact
    | _ => simp [hpc, ProducerPc.quiet] at hquiet
  | consumer =>
    obtain ⟨hproducer, hatEnd, htotal⟩ := consumerStep_frame hact
    exact ⟨⟨hatEnd.trans hend, by rw [hproducer, hquiet]⟩, htotal⟩
  | callProduce amount | callProduceEnd => simp [act, hend] at hact
  | callConsume min | callConsumed amount =>
    obtain ⟨_, hact⟩ := Option.ite_none_right_eq_some.mp hact
    obtain rfl := Option.some.inj hact
    exact ⟨⟨hend, hquiet⟩, rfl⟩
  | spuriousWakeup =>
    cases hpc : s.consumer with
    | sleeping min =>
      simp only [act, hpc, Option.some.injEq] at hact
      subst hact
      exact ⟨⟨hend, hquiet⟩, rfl⟩
    | _ => simp [act, hpc] at hact

/-- From then on the total stays as it is. -/
theorem ended_run {s s' : State} (h : s.Ended) (hrun : threads.Run s s') :
    s'.totalProduced = s.totalProduced := by
  have hboth : s'.Ended ∧ s'.totalProduced = s.totalProduced := by
    refine hrun.preserve (P := fun t => t.Ended ∧ t.totalProduced = s.totalProduced) ?_ ⟨h, rfl⟩
    rintro t t' ⟨hended, htotal⟩ ⟨a, hact⟩
    obtain ⟨hended', htotal'⟩ := ended_act hended hact
    exact ⟨hended', htotal'.trans htotal⟩
  exact hboth.2

/-- In every run in which the end is marked in time, a short return is exact. -/
theorem shortReturnExact_of_markInTime {s : State}
    (h : (threads.restrict MarkInTime).Reachable s) : ShortReturnExact s := by
  intro min amount hpc hshort s' hrun
  have hinv := inv_of_reachable h
  have hconsumer := hinv.consumer
  unfold State.ConsumerInv at hconsumer
  simp only [hpc] at hconsumer
  obtain ⟨hend, hamount⟩ := hconsumer hshort
  rw [ended_run (hinv.ended hend) hrun]
  omega

/-- The producer stores 5 and marks the end, the consumer asks for 10. -/
theorem shortReturnExact_five_of_ten : ∃ s, (threads.restrict MarkInTime).Reachable s ∧
    s.consumer = .returned 10 5 ∧ ShortReturnExact s := by
  have hrun : (threads.restrict MarkInTime).Run (makeProduconsum 4096) _ :=
    System.restrict_run_of_perform (l := [.callProduce 5, .producer, .producer, .producer,
      .producer, .callProduceEnd, .producer, .producer, .callConsume 10, .consumer, .consumer,
      .consumer, .consumer, .consumer]) rfl
  have hreach : (threads.restrict MarkInTime).Reachable _ :=
    ⟨_, ⟨4096, ⟨by decide, by decide⟩, rfl⟩, hrun⟩
  exact ⟨_, hreach, rfl, shortReturnExact_of_markInTime hreach⟩

/-- The consumer reads the amount before and the mark after the only store, so that it
returns nothing although five elements are left. -/
theorem not_shortReturnExact : ∃ s, threads.Reachable s ∧ s.consumer = .returned 1 0 ∧
    s.totalProduced = 5 ∧ s.totalConsumed = 0 ∧ ¬ShortReturnExact s := by
  have hrun : threads.Run (makeProduconsum 4096) _ :=
    System.run_of_perform (l := [.callConsume 1, .consumer, .consumer, .consumer, .callProduce 5,
      .producer, .producer, .producer, .producer, .producer, .producer, .producer, .callProduceEnd,
      .producer, .consumer, .consumer]) rfl
  refine ⟨_, ⟨_, ⟨4096, ⟨by decide, by decide⟩, rfl⟩, hrun⟩, rfl, rfl, rfl, fun hexact => ?_⟩
  exact absurd (hexact 1 0 rfl (by decide) _ (System.Run.refl _)) (by decide)

end Udpcast.Queue
