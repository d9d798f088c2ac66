import Udpcast.Queue.Threads

/-!
# No lost wake-up

The consumer of a queue never sleeps while what it waits for is there, unless the
producer is about to signal it. The calls may be any: nothing depends on the amounts.
-/

namespace Udpcast.Queue

/-- A call may be made whenever the thread is between two calls. -/
def actFreely (s : State) : Action → Option State
  | .callProduce amount =>
    if s.producer = .idle then some { s with producer := .readProduced amount } else none
  | .callProduceEnd => if s.producer = .idle then some { s with producer := .mark } else none
  | .callConsumed amount =>
    if s.consumer = .idle then some { s with consumer := .readOwn amount } else none
  | a => act s a

/-- A queue of any size whose threads make any calls. -/
def anyCalls : System State := .ofActions (fun s => ∃ size, s = makeProduconsum size) actFreely

/-- The producer signals the sleeping consumer in the course of the call it is in. -/
def State.WillSignal (s : State) : Prop :=
  ∃ n s' min, System.perform actFreely s (List.replicate n .producer) = some s' ∧
    s'.consumer = .relock min

/-- If the consumer sleeps although what it waits for is there, the producer will signal it. -/
def NoLostWakeup (s : State) : Prop :=
  ∀ min, s.consumer = .sleeping min →
    min ≤ getProducedAmount s.size s.produced s.consumed ∨ s.atEnd = true → s.WillSignal

/-- The consumer is between the two assignments to `consumerIsWaiting`. -/
def ConsumerPc.announced : ConsumerPc → Bool
  | .readProduced .. | .readConsumed .. | .readAtEnd .. | .lock _ | .wait _ | .sleeping _
  | .relock _ | .unlock .. | .clearWaiting .. => true
  | _ => false

/-- The consumer holds the mutex. -/
def ConsumerPc.holdsMutex : ConsumerPc → Bool
  | .readProduced locked _ | .readConsumed locked _ _ | .readAtEnd locked _ _ => locked
  | .wait _ | .unlock .. => true
  | _ => false

/-- The producer holds the mutex. -/
def ProducerPc.holdsMutex : ProducerPc → Bool
  | .signal | .unlock => true
  | _ => false

/-- The producer has stored something and not signalled it yet. -/
def ProducerPc.pending : ProducerPc → Bool
  | .readWaiting | .lock | .signal => true
  | _ => false

/-- From its reads under the mutex on, the consumer knows that not enough is there, unless the
producer has stored something since and is about to signal it. -/
def State.Noticed (s : State) : Prop :=
  match s.consumer with
  | .readConsumed true _ produced => produced = s.produced ∨ s.producer.pending = true
  | .readAtEnd true min amount =>
    amount = getProducedAmount s.size s.produced s.consumed ∧ amount < min ∨
      s.producer.pending = true
  | .wait min | .sleeping min =>
    getProducedAmount s.size s.produced s.consumed < min ∧ s.atEnd = false ∨
      s.producer.pending = true
  | _ => True

/-- The invariant of the protocol between the two threads. -/
structure State.Alert (s : State) : Prop where
  waiting : s.consumer.announced = true → s.consumerIsWaiting = true
  consumerMutex : s.mutex = some .consumer ↔ s.consumer.holdsMutex = true
  producerMutex : s.mutex = some .producer ↔ s.producer.holdsMutex = true
  noticed : s.Noticed

variable {s s' : State}

/-- Before either thread has begun nobody sleeps. -/
theorem alert_make (size : UInt32) : (makeProduconsum size).Alert where
  waiting := by simp [makeProduconsum, ConsumerPc.announced]
  consumerMutex := by simp [makeProduconsum, ConsumerPc.holdsMutex]
  producerMutex := by simp [makeProduconsum, ProducerPc.holdsMutex]
  noticed := trivial

/-- A pending signal is all that the consumer has to know. -/
theorem noticed_of_pending (h : s.producer.pending = true) : s.Noticed := by
  unfold State.Noticed
  split <;> first | exact .inr h | trivial

/-- A step of the producer that stores nothing, and after which no less is pending. -/
theorem State.Noticed.keep (h : s.Noticed) (hsize : s'.size = s.size)
    (hproduced : s'.produced = s.produced) (hconsumed : s'.consumed = s.consumed)
    (hend : s'.atEnd = s.atEnd) (hconsumer : s'.consumer = s.consumer)
    (hpending : s.producer.pending = true → s'.producer.pending = true) : s'.Noticed := by
  unfold State.Noticed at *
  rw [hconsumer, hsize, hproduced, hconsumed, hend]
  split <;> simp_all only
  all_goals tauto

/-- A consumer that neither holds the mutex nor sleeps has nothing to know. -/
theorem noticed_of_free (hmutex : s.consumer.holdsMutex = false)
    (hawake : ∀ min, s.consumer ≠ .sleeping min) : s.Noticed := by
  unfold State.Noticed
  split <;> simp_all [ConsumerPc.holdsMutex]

/-- A consumer that has not announced that it waits will still look at the counters itself. -/
theorem noticed_of_unannounced (h : s.consumer.announced = false) : s.Noticed := by
  unfold State.Noticed
  split <;> simp_all [ConsumerPc.announced]

/-- A step of the producer keeps the consumer alert: what it stores is signalled, or the consumer
will see it. -/
theorem State.Alert.producerStep (h : s.Alert) (hstep : producerStep s = some s') : s'.Alert := by
  obtain ⟨hwaiting, hconsumer, hproducer, hnoticed⟩ := h
  cases hpc : s.producer with
  | idle | fatal => simp [Queue.producerStep, hpc] at hstep
  | readProduced amount =>
    rw [hpc] at hproducer
    simp only [Queue.producerStep, hpc, Option.some.injEq] at hstep
    subst hstep
    exact ⟨hwaiting, hconsumer, hproducer,
      hnoticed.keep rfl rfl rfl rfl rfl (by simp [hpc, ProducerPc.pending])⟩
  | readConsumed amount produced =>
    rw [hpc] at hproducer
    simp only [Queue.producerStep, hpc] at hstep
    split at hstep <;> obtain rfl := Option.some.inj hstep <;>
      exact ⟨hwaiting, hconsumer, hproducer,
        hnoticed.keep rfl rfl rfl rfl rfl (by simp [hpc, ProducerPc.pending])⟩
  | store amount produced | mark =>
    rw [hpc] at hproducer
    simp only [Queue.producerStep, hpc, Option.some.injEq] at hstep
    subst hstep
    exact ⟨hwaiting, hconsumer, hproducer, noticed_of_pending rfl⟩
  | readWaiting =>
    rw [hpc] at hproducer
    simp only [Queue.producerStep, hpc, Option.some.injEq] at hstep
    subst hstep
    cases hflag : s.consumerIsWaiting with
    | true => exact ⟨fun _ => rfl, hconsumer, hproducer, noticed_of_pending rfl⟩
    | false =>
      have hquiet : s.consumer.announced = false := by
        by_contra hannounced
        rw [hwaiting (Bool.not_eq_false _ ▸ hannounced)] at hflag
        cases hflag
      exact ⟨hflag ▸ hwaiting, hconsumer, hproducer, noticed_of_unannounced hquiet⟩
  | lock =>
    rw [hpc] at hproducer
    simp only [Queue.producerStep, hpc] at hstep
    obtain ⟨hmutex, hstep⟩ := Option.ite_none_right_eq_some.mp hstep
    obtain rfl := Option.some.inj hstep
    rw [hmutex] at hconsumer
    exact ⟨hwaiting, by simpa using hconsumer, by simp [ProducerPc.holdsMutex],
      noticed_of_pending rfl⟩
  | signal =>
    simp only [Queue.producerStep, hpc, Option.some.injEq] at hstep
    have hmutex : s.mutex = some .producer := hproducer.mpr (by rw [hpc]; rfl)
    have hfree : s.consumer.holdsMutex = false := by
      by_contra hholds
      rw [hconsumer.mpr (Bool.not_eq_false _ ▸ hholds)] at hmutex
      cases hmutex
    subst hstep
    refine ⟨fun hannounced => hwaiting ?_, ?_, by simp [hmutex, ProducerPc.holdsMutex],
      noticed_of_free ?_ ?_⟩
    · cases hc : s.consumer <;> simp_all [ConsumerPc.announced]
    · cases hc : s.consumer <;> simp_all [ConsumerPc.holdsMutex]
    · cases hc : s.consumer <;> simp_all [ConsumerPc.holdsMutex]
    · cases hc : s.consumer <;> simp
  | unlock =>
    simp only [Queue.producerStep, hpc, Option.some.injEq] at hstep
    have hmutex : s.mutex = some .producer := hproducer.mpr (by rw [hpc]; rfl)
    rw [hmutex] at hconsumer
    subst hstep
    refine ⟨hwaiting, by simpa using hconsumer, by simp [ProducerPc.holdsMutex], ?_⟩
    exact hnoticed.keep rfl rfl rfl rfl rfl (by simp [hpc, ProducerPc.pending])

/-- So does a step of the consumer, which announces that it waits before it looks for the last
time. -/
theorem State.Alert.consumerStep (h : s.Alert) (hstep : consumerStep s = some s') : s'.Alert := by
  obtain ⟨hwaiting, hconsumer, hproducer, hnoticed⟩ := h
  unfold State.Noticed at hnoticed
  cases hpc : s.consumer with
  | idle | sleeping min => simp [Queue.consumerStep, hpc] at hstep
  | setWaiting min =>
    rw [hpc] at hconsumer
    simp only [Queue.consumerStep, hpc, Option.some.injEq] at hstep
    subst hstep
    exact ⟨fun _ => rfl, hconsumer, hproducer, trivial⟩
  | readProduced locked min =>
    rw [hpc] at hwaiting hconsumer
    simp only [Queue.consumerStep, hpc, Option.some.injEq] at hstep
    subst hstep
    refine ⟨hwaiting, hconsumer, hproducer, ?_⟩
    cases locked with
    | false => trivial
    | true => exact .inl rfl
  | readConsumed locked min produced =>
    rw [hpc] at hwaiting hconsumer
    simp only [hpc] at hnoticed
    simp only [Queue.consumerStep, hpc, Option.some.injEq] at hstep
    subst hstep
    by_cases hmin : min ≤ getProducedAmount s.size produced s.consumed
    · simp only [hmin, if_true]
      cases locked <;> exact ⟨hwaiting, hconsumer, hproducer, trivial⟩
    · simp only [hmin, if_false]
      refine ⟨hwaiting, hconsumer, hproducer, ?_⟩
      cases locked with
      | false => trivial
      | true =>
        rcases hnoticed with rfl | hpending
        · exact .inl ⟨rfl, UInt32.not_le.mp hmin⟩
        · exact .inr hpending
  | readAtEnd locked min amount =>
    rw [hpc] at hwaiting hconsumer
    simp only [hpc] at hnoticed
    simp only [Queue.consumerStep, hpc, Option.some.injEq] at hstep
    subst hstep
    cases hend : s.atEnd with
    | true => cases locked <;> exact ⟨hwaiting, hconsumer, hproducer, trivial⟩
    | false =>
      cases locked with
      | false => exact ⟨hwaiting, hconsumer, hproducer, trivial⟩
      | true =>
        refine ⟨hwaiting, hconsumer, hproducer, ?_⟩
        rcases hnoticed with ⟨rfl, hless⟩ | hpending
        · exact .inl ⟨hless, rfl⟩
        · exact .inr hpending
  | lock min | relock min =>
    rw [hpc] at hwaiting
    simp only [Queue.consumerStep, hpc] at hstep
    obtain ⟨hmutex, hstep⟩ := Option.ite_none_right_eq_some.mp hstep
    obtain rfl := Option.some.inj hstep
    rw [hmutex] at hproducer
    exact ⟨hwaiting, by simp [ConsumerPc.holdsMutex], by simpa using hproducer, trivial⟩
  | wait min =>
    rw [hpc] at hwaiting hconsumer
    simp only [hpc] at hnoticed
    simp only [Queue.consumerStep, hpc, Option.some.injEq] at hstep
    subst hstep
    have hmutex : s.mutex = some .consumer := hconsumer.mpr rfl
    rw [hmutex] at hproducer
    exact ⟨hwaiting, by simp [ConsumerPc.holdsMutex], by simpa using hproducer, hnoticed⟩
  | unlock min amount =>
    rw [hpc] at hwaiting hconsumer
    simp only [Queue.consumerStep, hpc, Option.some.injEq] at hstep
    subst hstep
    have hmutex : s.mutex = some .consumer := hconsumer.mpr rfl
    rw [hmutex] at hproducer
    exact ⟨hwaiting, by simp [ConsumerPc.holdsMutex], by simpa using hproducer, trivial⟩
  | clearWaiting min amount | returned min amount | readOwn amount | storeOwn amount consumed =>
    rw [hpc] at hconsumer
    simp only [Queue.consumerStep, hpc, Option.some.injEq] at hstep
    subst hstep
    exact ⟨by simp [ConsumerPc.announced], hconsumer, hproducer, trivial⟩

/-- So does any step, spurious wake-ups included. -/
theorem State.Alert.actFreely {a : Action} (h : s.Alert) (hact : actFreely s a = some s') :
    s'.Alert := by
  have hnew : s.consumer = .idle → ∀ pc : ConsumerPc, pc.announced = false →
      pc.holdsMutex = false → State.Alert { s with consumer := pc } := by
    intro hidle pc hannounced hmutex
    have hconsumer := h.consumerMutex
    rw [hidle] at hconsumer
    refine ⟨fun hset => absurd hset ?_, ?_, h.producerMutex, noticed_of_unannounced hannounced⟩
    · rw [hannounced]
      exact Bool.false_ne_true
    · rw [hmutex]
      exact hconsumer
  have hcall : s.producer = .idle → ∀ pc : ProducerPc, pc.holdsMutex = false →
      State.Alert { s with producer := pc } := by
    intro hidle pc hmutex
    have hproducer := h.producerMutex
    rw [hidle] at hproducer
    exact ⟨h.waiting, h.consumerMutex, by rw [hmutex]; exact hproducer,
      h.noticed.keep rfl rfl rfl rfl rfl (by simp [hidle, ProducerPc.pending])⟩
  cases a with
  | producer => exact h.producerStep hact
  | consumer => exact h.consumerStep hact
  | callProduce amount | callProduceEnd =>
    obtain ⟨hidle, hact⟩ := Option.ite_none_right_eq_some.mp hact
    exact Option.some.inj hact ▸ hcall hidle _ rfl
  | callConsume min | callConsumed amount =>
    obtain ⟨hidle, hact⟩ := Option.ite_none_right_eq_some.mp hact
    exact Option.some.inj hact ▸ hnew hidle _ rfl rfl
  | spuriousWakeup =>
    obtain ⟨hwaiting, hconsumer, hproducer, -⟩ := h
    cases hpc : s.consumer with
    | sleeping min =>
      rw [hpc] at hwaiting hconsumer
      simp only [Queue.actFreely, act, hpc, Option.some.injEq] at hact
      subst hact
      exact ⟨hwaiting, hconsumer, hproducer, trivial⟩
    | _ => simp [Queue.actFreely, act, hpc] at hact

/-- A pending signal reaches the sleeping consumer: the mutex is free or held by the producer. -/
theorem State.Alert.willSignal (h : s.Alert) {min : UInt32} (hsleeps : s.consumer = .sleeping min)
    (hpending : s.producer.pending = true) : s.WillSignal := by
  have hflag := h.waiting (by rw [hsleeps]; rfl)
  have hfree : s.producer.holdsMutex = false → s.mutex = none := by
    intro hholds
    cases hmutex : s.mutex with
    | none => rfl
    | some t =>
      cases t with
      | producer =>
        rw [h.producerMutex.mp hmutex] at hholds
        cases hholds
      | consumer =>
        have hcontra := h.consumerMutex.mp hmutex
        rw [hsleeps] at hcontra
        cases hcontra
  cases hpc : s.producer with
  | readWaiting =>
    have hmutex := hfree (by rw [hpc]; rfl)
    refine ⟨3, { s with mutex := some .producer, producer := .unlock, consumer := .relock min }, min,
      ?_, rfl⟩
    simp [List.replicate, System.perform, Queue.actFreely, act, Queue.producerStep, hpc, hflag,
      hmutex, hsleeps]
  | lock =>
    have hmutex := hfree (by rw [hpc]; rfl)
    refine ⟨2, { s with mutex := some .producer, producer := .unlock, consumer := .relock min }, min,
      ?_, rfl⟩
    simp [List.replicate, System.perform, Queue.actFreely, act, Queue.producerStep, hpc, hmutex,
      hsleeps]
  | signal =>
    refine ⟨1, { s with producer := .unlock, consumer := .relock min }, min, ?_, rfl⟩
    simp [List.replicate, System.perform, Queue.actFreely, act, Queue.producerStep, hpc, hsleeps]
  | _ =>
    rw [hpc] at hpending
    cases hpending

/-- For every interleaving of any calls: while the consumer sleeps although enough is there or
the end is marked, the producer is in a call that will still signal it. -/
theorem noLostWakeup_of_reachable (h : anyCalls.Reachable s) : NoLostWakeup s := by
  have halert : s.Alert := by
    refine h.invariant (P := State.Alert) ?_ ?_
    · rintro s ⟨size, rfl⟩
      exact alert_make size
    · rintro s s' hs ⟨a, hact⟩
      exact hs.actFreely hact
  intro min hsleeps havailable
  have hnoticed := halert.noticed
  unfold State.Noticed at hnoticed
  simp only [hsleeps] at hnoticed
  rcases hnoticed with ⟨hless, hend⟩ | hpending
  · rcases havailable with hle | hmark
    · exact absurd hle (UInt32.not_le.mpr hless)
    · rw [hend] at hmark
      cases hmark
  · exact halert.willSignal hsleeps hpending

/-- The producer stores between the last look of the consumer and its falling asleep. -/
theorem noLostWakeup_stored_late : ∃ s, anyCalls.Reachable s ∧ s.consumer = .sleeping 1 ∧
    getProducedAmount s.size s.produced s.consumed = 5 ∧ NoLostWakeup s := by
  have hrun : anyCalls.Run (makeProduconsum 4096) _ :=
    System.run_of_perform (l := [.callConsume 1, .consumer, .consumer, .consumer, .consumer,
      .consumer, .consumer, .consumer, .consumer, .callProduce 5, .producer, .producer, .producer,
      .consumer]) rfl
  have hreach : anyCalls.Reachable _ := ⟨_, ⟨4096, rfl⟩, hrun⟩
  exact ⟨_, hreach, rfl, rfl, noLostWakeup_of_reachable hreach⟩

end Udpcast.Queue
