import Mathlib.Data.List.GetD
import Udpcast.Lib.System
import Udpcast.Lib.RingQueue
import Udpcast.Queue.Calls

/-!
# The return channel

`returnChannelMain` receives datagrams into an array of entries, `handleNextMessage`
takes them out in the main loop. Two queues say which entries are free and which are
full; each call of a queue function is a step.
-/

namespace Udpcast.Sender.ReturnChannel

open Queue

/-- `QUEUE_SIZE`. -/
def queueSize : ℕ := 256

/-- An element of `returnChannel->q`; the message is a buffer of bytes. -/
structure Entry where
  clNo : ℕ
  msg : ℕ → UInt8

/-- Where `returnChannelMain` stands. -/
inductive ReturnPc (α : Type)
  /-- Before `pc_consumeAny(freeSpace)`. -/
  | consume
  /-- Before `RECV` into entry `pos`. -/
  | receive (pos : ℕ)
  /-- Before `udpc_lookupParticipant`; the datagram received is history. -/
  | lookup (pos : ℕ) (sender : α) (datagram : List UInt8)
  /-- Before `pc_consumed(freeSpace, 1)`. -/
  | consumed
  /-- Before `pc_produce(incoming, 1)`. -/
  | produce

/-- Where the main loop stands in `handleNextMessage`. -/
inductive MainPc
  /-- Outside the function. -/
  | outside
  /-- Before `pc_consumeAny(incoming)`. -/
  | consume (pos clNo : ℕ)
  /-- Before the message is handled. -/
  | handle (pos clNo : ℕ)
  /-- Before `pc_consumed(incoming, 1)`. -/
  | consumed (pos : ℕ)
  /-- Before `pc_produce(freeSpace, 1)`. -/
  | produce

/-- The return channel for addresses in `α`. -/
structure State (α : Type) where
  freeSpace : Produconsum
  incoming : Produconsum
  q : ℕ → Entry
  /-- `udpc_lookupParticipant`. -/
  lookupParticipant : α → Option ℕ
  returnPc : ReturnPc α
  mainPc : MainPc
  /-- `pc_produce` has reported an overflow. -/
  overflow : Bool
  /-- History: the datagrams received from known participants, with the client numbers found. -/
  received : List (ℕ × List UInt8)
  /-- History: the messages handled, with the client numbers used. -/
  handled : List (ℕ × (ℕ → UInt8))

variable {α : Type}

/-- `recvfrom` into a buffer of `size` bytes: a short datagram leaves the rest as it was. -/
def store (size : ℕ) (msg : ℕ → UInt8) (datagram : List UInt8) : ℕ → UInt8 := fun x =>
  if x < size then datagram.getD x (msg x) else msg x

/-- A step of `returnChannelMain` other than `RECV`. -/
def returnStep (s : State α) : Option (State α) :=
  match s.returnPc with
  | .consume =>
    (pcConsume s.freeSpace 1).map fun _ =>
      { s with returnPc := .receive (pcGetConsumerPosition s.freeSpace) }
  | .receive _ => none
  | .lookup pos sender datagram =>
    some (match s.lookupParticipant sender with
      | none => { s with returnPc := .consume }
      | some clNo =>
        { s with
          q := Function.update s.q pos { s.q pos with clNo := clNo }
          returnPc := .consumed
          received := s.received ++ [(clNo, datagram)] })
  | .consumed => some { s with freeSpace := pcConsumed s.freeSpace 1, returnPc := .produce }
  | .produce =>
    some (match pcProduce s.incoming 1 with
      | some incoming => { s with incoming := incoming, returnPc := .consume }
      | none => { s with overflow := true })

/-- A step of the main loop: it calls `handleNextMessage` when a message is waiting. -/
def mainStep (s : State α) : Option (State α) :=
  match s.mainPc with
  | .outside =>
    if pcGetWaiting s.incoming ≠ 0 then
      let pos := pcGetConsumerPosition s.incoming
      some { s with mainPc := .consume pos (s.q pos).clNo }
    else none
  | .consume pos clNo =>
    (pcConsume s.incoming 1).map fun _ => { s with mainPc := .handle pos clNo }
  | .handle pos clNo =>
    some { s with mainPc := .consumed pos, handled := s.handled ++ [(clNo, (s.q pos).msg)] }
  | .consumed _ => some { s with incoming := pcConsumed s.incoming 1, mainPc := .produce }
  | .produce =>
    some (match pcProduce s.freeSpace 1 with
      | some freeSpace => { s with freeSpace := freeSpace, mainPc := .outside }
      | none => { s with overflow := true })

/-- What can happen: a datagram arrives while `returnChannelMain` waits for one, a thread goes
on, or the table of participants changes. -/
inductive Action (α : Type)
  | datagram (sender : α) (datagram : List UInt8)
  | returnChannel
  | main
  | participants (lookupParticipant : α → Option ℕ)

/-- The effect of an action, with messages of `size` bytes. -/
def act (size : ℕ) (s : State α) (a : Action α) : Option (State α) :=
  if s.overflow then none
  else
    match a with
    | .datagram sender datagram =>
      match s.returnPc with
      | .receive pos =>
        some { s with
          q := Function.update s.q pos { s.q pos with msg := store size (s.q pos).msg datagram }
          returnPc := .lookup pos sender datagram }
      | _ => none
    | .returnChannel => returnStep s
    | .main => mainStep s
    | .participants lookupParticipant => some { s with lookupParticipant := lookupParticipant }

/-- `initReturnChannel`. -/
def start (q : ℕ → Entry) (lookupParticipant : α → Option ℕ) : Option (State α) :=
  (pcProduce (pcMakeProduconsum queueSize) queueSize).map fun freeSpace => {
    freeSpace := freeSpace, incoming := pcMakeProduconsum queueSize, q := q
    lookupParticipant := lookupParticipant, returnPc := .consume, mainPc := .outside
    overflow := false, received := [], handled := [] }

/-- A return channel with any memory, participants and datagrams. -/
def system (α : Type) (size : ℕ) : System (State α) :=
  .ofActions (fun s => ∃ q lookup, start q lookup = some s) (act size)

/-- The buffer begins with the datagram, as far as it fits. -/
def Carries (size : ℕ) (handled : ℕ × (ℕ → UInt8)) (received : ℕ × List UInt8) : Prop :=
  handled.1 = received.1 ∧
    ∀ x < size, ∀ h : x < received.2.length, handled.2 x = received.2[x]

/-- The entry that the next datagram goes to. -/
def ReturnPc.entry : ReturnPc α → Option ℕ
  | .receive pos | .lookup pos .. => some pos
  | _ => none

/-- 1 if a message is received and its entry is still among the free ones. -/
def ReturnPc.free : ReturnPc α → ℕ
  | .consumed => 1
  | _ => 0

/-- 1 if a message is received and not announced. -/
def ReturnPc.unannounced : ReturnPc α → ℕ
  | .consumed | .produce => 1
  | _ => 0

/-- The entry whose message is being handled. -/
def MainPc.entry : MainPc → Option ℕ
  | .consume pos _ | .handle pos _ | .consumed pos => some pos
  | _ => none

/-- 1 if a message is handled and still among the waiting ones. -/
def MainPc.waiting : MainPc → ℕ
  | .consumed _ => 1
  | _ => 0

/-- 1 if a message is handled and its entry is not given back. -/
def MainPc.unreturned : MainPc → ℕ
  | .consumed _ | .produce => 1
  | _ => 0

/-- The return channel neither loses, duplicates nor reorders messages. -/
structure Delivers (size : ℕ) (s : State α) : Prop where
  /-- What is handled is what was received first, in order and each once. -/
  handled : List.Forall₂ (Carries size) s.handled (s.received.take s.handled.length)
  handled_le : s.handled.length ≤ s.received.length
  /-- What is received and not handled is waiting or about to be announced. -/
  waiting : pcGetWaiting s.incoming + s.handled.length + s.returnPc.unannounced =
    s.received.length + s.mainPc.waiting
  /-- Only datagrams from known participants use up entries. -/
  space : pcGetWaiting s.freeSpace + s.received.length + s.mainPc.unreturned =
    queueSize + s.handled.length + s.returnPc.free
  /-- An entry that is being handled is not overwritten. -/
  apart : ∀ pos pos', s.mainPc.entry = some pos → s.returnPc.entry = some pos' → pos ≠ pos'
  noOverflow : s.overflow = false

/-- The invariant: the queues count the messages, and the entries that are neither free nor
given back hold the messages received last. -/
structure Inv (size : ℕ) (s : State α) : Prop where
  freeSpace : s.freeSpace.Holds queueSize (queueSize + (s.handled.length - s.mainPc.unreturned))
    (s.received.length - s.returnPc.free)
  incoming : s.incoming.Holds queueSize (s.received.length - s.returnPc.unannounced)
    (s.handled.length - s.mainPc.waiting)
  notEnded : s.freeSpace.atEnd = false ∧ s.incoming.atEnd = false
  received_pos : s.returnPc.unannounced ≤ s.received.length
  handled_pos : s.mainPc.unreturned ≤ s.handled.length
  handled_le : s.handled.length ≤ s.received.length - s.returnPc.unannounced
  entries : ∀ k, s.handled.length - s.mainPc.unreturned ≤ k → ∀ h : k < s.received.length,
    Carries size ((s.q (k % queueSize)).clNo, (s.q (k % queueSize)).msg) s.received[k]
  target : ∀ pos, s.returnPc.entry = some pos → pos = s.received.length % queueSize ∧
    s.received.length < queueSize + (s.handled.length - s.mainPc.unreturned)
  taken : s.returnPc = .consumed →
    s.received.length ≤ queueSize + (s.handled.length - s.mainPc.unreturned)
  lookup : ∀ pos sender datagram, s.returnPc = .lookup pos sender datagram →
    ∀ x < size, ∀ h : x < datagram.length, (s.q pos).msg x = datagram[x]
  reading : ∀ pos clNo, s.mainPc = .consume pos clNo ∨ s.mainPc = .handle pos clNo →
    pos = s.handled.length % queueSize ∧ clNo = (s.q pos).clNo ∧
      s.handled.length < s.received.length - s.returnPc.unannounced
  finished : ∀ pos, s.mainPc = .consumed pos → pos = (s.handled.length - 1) % queueSize
  handled : List.Forall₂ (Carries size) s.handled (s.received.take s.handled.length)
  noOverflow : s.overflow = false

variable {size : ℕ} {s s' : State α} {q : ℕ → Entry} {lookup : α → Option ℕ}

/-- The invariant holds in the beginning. -/
theorem inv_start (h : start q lookup = some s) : Inv size s := by
  have hmake : (pcMakeProduconsum queueSize).Holds queueSize 0 0 := holds_make (by decide) (by decide)
  obtain ⟨freeSpace, hproduce, rfl⟩ := Option.map_eq_some_iff.mp h
  obtain ⟨filled, hfilled, hholds, hend⟩ := hmake.pcProduce (n := queueSize) (by decide)
  obtain rfl := Option.some.inj (hproduce.symm.trans hfilled)
  refine ⟨by simpa [MainPc.unreturned, ReturnPc.free] using hholds, hmake, ⟨hend, rfl⟩, ?_, ?_, ?_,
    ?_, ?_, ?_, ?_, ?_, ?_, ?_, rfl⟩ <;> simp [ReturnPc.unannounced, MainPc.unreturned, ReturnPc.entry]

/-- The invariant says that the messages are delivered. -/
theorem Inv.delivers (h : Inv size s) : Delivers size s := by
  have hreceived := h.received_pos
  have hhandled := h.handled_pos
  have hle := h.handled_le
  have hfree := h.freeSpace.consumed_le
  have hannounced := h.incoming.consumed_le
  have hkept : s.returnPc.free ≤ s.returnPc.unannounced := by
    cases s.returnPc <;> simp [ReturnPc.free, ReturnPc.unannounced]
  have hwaits : s.mainPc.waiting ≤ s.mainPc.unreturned := by
    cases s.mainPc <;> simp [MainPc.waiting, MainPc.unreturned]
  refine ⟨h.handled, by omega, ?_, ?_, ?_, h.noOverflow⟩
  · rw [h.incoming.pcGetWaiting_eq]
    omega
  · rw [h.freeSpace.pcGetWaiting_eq]
    omega
  · intro pos pos' hpos hpos'
    obtain ⟨rfl, hroom⟩ := h.target pos' hpos'
    have hidle : s.returnPc.unannounced = 0 := by
      cases hpc : s.returnPc <;> simp_all [ReturnPc.entry, ReturnPc.unannounced]
    cases hpc : s.mainPc with
    | outside | produce => simp [hpc, MainPc.entry] at hpos
    | consume pos₁ clNo =>
      obtain ⟨heq, -, hlt⟩ := h.reading pos₁ clNo (.inl hpc)
      obtain rfl : pos₁ = pos := by simpa [hpc, MainPc.entry] using hpos
      rw [hpc] at hroom
      rw [heq]
      simp only [MainPc.unreturned] at hroom
      exact mod_ne_of_lt (by omega) (by omega)
    | handle pos₁ clNo =>
      obtain ⟨heq, -, hlt⟩ := h.reading pos₁ clNo (.inr hpc)
      obtain rfl : pos₁ = pos := by simpa [hpc, MainPc.entry] using hpos
      rw [hpc] at hroom
      rw [heq]
      simp only [MainPc.unreturned] at hroom
      exact mod_ne_of_lt (by omega) (by omega)
    | consumed pos₁ =>
      have heq := h.finished pos₁ hpc
      obtain rfl : pos₁ = pos := by simpa [hpc, MainPc.entry] using hpos
      rw [hpc] at hroom hhandled
      rw [heq]
      simp only [MainPc.unreturned] at hroom hhandled
      exact mod_ne_of_lt (by omega) (by omega)

/-- Entries in use keep their messages when the free entry at the end changes. -/
theorem Inv.entry_ne (h : Inv size s) {pos k : ℕ} (hpos : s.returnPc.entry = some pos)
    (hk : s.handled.length - s.mainPc.unreturned ≤ k) (hlt : k < s.received.length) :
    k % queueSize ≠ pos := by
  obtain ⟨rfl, hroom⟩ := h.target pos hpos
  exact mod_ne_of_lt hlt (by omega)

/-- A datagram arrives. -/
theorem Inv.datagram (h : Inv size s) {pos : ℕ} {sender : α} {datagram : List UInt8}
    (hpc : s.returnPc = .receive pos) :
    Inv size { s with
      q := Function.update s.q pos { s.q pos with msg := store size (s.q pos).msg datagram }
      returnPc := .lookup pos sender datagram } := by
  obtain ⟨hfree, hincoming, hend, hreceived, hhandled, hle, hentries, htarget, -, -, hreading,
    hfinished, hprefix, hno⟩ := id h
  rw [hpc] at hfree hincoming hreceived hle htarget hreading
  have hentry : s.returnPc.entry = some pos := by rw [hpc]; rfl
  refine ⟨hfree, hincoming, hend, hreceived, hhandled, hle, fun k hk hlt => ?_, ?_, nofun, ?_, ?_,
    hfinished, hprefix, hno⟩
  · dsimp only at hk hlt ⊢
    rw [Function.update_of_ne (h.entry_ne hentry hk hlt)]
    exact hentries k hk hlt
  · exact fun pos' hpos' => htarget pos' hpos'
  · rintro _ _ _ ⟨⟩ x hx hlt
    simp only [Function.update_self, store, if_pos hx, List.getD_eq_getElem _ _ hlt]
  · intro pos' clNo hmain
    obtain ⟨heq, hclNo, hlt⟩ := hreading pos' clNo hmain
    have hne : pos' ≠ pos := by
      refine heq ▸ h.entry_ne hentry ?_ ?_
      · omega
      · simpa [ReturnPc.unannounced] using hlt
    dsimp only
    rw [Function.update_of_ne hne]
    exact ⟨heq, hclNo, hlt⟩

/-- A datagram from a known participant becomes a message. -/
theorem Inv.accept (h : Inv size s) {pos clNo : ℕ} {sender : α} {datagram : List UInt8}
    (hpc : s.returnPc = .lookup pos sender datagram) :
    Inv size { s with
      q := Function.update s.q pos { s.q pos with clNo := clNo }
      returnPc := .consumed
      received := s.received ++ [(clNo, datagram)] } := by
  obtain ⟨hfree, hincoming, hend, hreceived, hhandled, hle, hentries, htarget, -, hlookup, hreading,
    hfinished, hprefix, hno⟩ := id h
  have hentry : s.returnPc.entry = some pos := by rw [hpc]; rfl
  obtain ⟨hpos, hroom⟩ := htarget pos hentry
  have hdatagram := hlookup pos sender datagram hpc
  rw [hpc] at hfree hincoming hle hreading
  simp only [ReturnPc.free, ReturnPc.unannounced, Nat.sub_zero] at hfree hincoming hle hreading
  have hlength : (s.received ++ [(clNo, datagram)]).length = s.received.length + 1 := by simp
  refine ⟨?_, ?_, hend, ?_, hhandled, ?_, fun k hk hlt => ?_, nofun, fun _ => ?_, nofun, ?_, hfinished,
    ?_, hno⟩
  · simpa only [hlength, ReturnPc.free, Nat.add_sub_cancel] using hfree
  · simpa only [hlength, ReturnPc.unannounced, Nat.add_sub_cancel] using hincoming
  · simp [ReturnPc.unannounced]
  · simpa only [hlength, ReturnPc.unannounced, Nat.add_sub_cancel] using hle
  · dsimp only at hk hlt ⊢
    rw [hlength] at hlt
    rcases Nat.lt_or_ge k s.received.length with hold | hnew
    · rw [Function.update_of_ne (h.entry_ne hentry hk hold), List.getElem_append_left hold]
      exact hentries k hk hold
    · obtain rfl : k = s.received.length := by omega
      rw [← hpos, Function.update_self, List.getElem_concat_length rfl]
      exact ⟨rfl, hdatagram⟩
  · simp only [hlength]
    omega
  · intro pos' clNo' hmain
    obtain ⟨heq, hclNo, hlt⟩ := hreading pos' clNo' hmain
    have hne : pos' ≠ pos := heq ▸ h.entry_ne hentry (Nat.sub_le ..) hlt
    simp only [hlength, ReturnPc.unannounced, Nat.add_sub_cancel, Function.update_of_ne hne]
    exact ⟨heq, hclNo, hlt⟩
  · dsimp only
    rwa [List.take_append_of_le_length hle]

/-- A step of the thread that receives keeps it. -/
theorem Inv.returnStep (h : Inv size s) (hstep : returnStep s = some s') : Inv size s' := by
  obtain ⟨hfree, hincoming, hend, hreceived, hhandled, hle, hentries, htarget, htaken, hlookup,
    hreading, hfinished, hprefix, hno⟩ := id h
  have hlast := hfree.consumed_le
  cases hpc : s.returnPc with
  | consume =>
    rw [hpc] at hfree hincoming hreceived hle hreading
    simp only [ReturnPc.free, Nat.sub_zero] at hfree
    simp only [ReturnChannel.returnStep, hpc] at hstep
    obtain ⟨n, hn, rfl⟩ := Option.map_eq_some_iff.mp hstep
    refine ⟨hfree, hincoming, hend, hreceived, hhandled, hle, hentries, ?_, nofun, nofun, hreading,
      hfinished, hprefix, hno⟩
    rintro _ ⟨⟩
    refine ⟨hfree.consumerPosition_eq, ?_⟩
    dsimp only
    rw [hfree.pcConsume_eq, hend.1] at hn
    by_contra hfull
    rw [if_neg (by simp; omega)] at hn
    cases hn
  | receive pos => simp [ReturnChannel.returnStep, hpc] at hstep
  | lookup pos sender datagram =>
    simp only [ReturnChannel.returnStep, hpc, Option.some.injEq] at hstep
    cases hknown : s.lookupParticipant sender with
    | none =>
      rw [hpc] at hfree hincoming hreceived hle hreading
      simp only [hknown] at hstep
      subst hstep
      exact ⟨hfree, hincoming, hend, hreceived, hhandled, hle, hentries, nofun, nofun, nofun, hreading,
        hfinished, hprefix, hno⟩
    | some clNo =>
      simp only [hknown] at hstep
      subst hstep
      exact h.accept hpc
  | consumed =>
    have hroom := htaken hpc
    rw [hpc] at hfree hincoming hreceived hle hreading
    simp only [ReturnChannel.returnStep, hpc, Option.some.injEq] at hstep
    subst hstep
    simp only [ReturnPc.free, ReturnPc.unannounced] at hfree hreceived
    refine ⟨?_, hincoming, hend, hreceived, hhandled, hle, hentries, nofun, nofun, nofun, hreading,
      hfinished, hprefix, hno⟩
    have hafter := hfree.pcConsumed (n := 1) (by omega)
    rwa [Nat.sub_add_cancel hreceived] at hafter
  | produce =>
    rw [hpc] at hfree hincoming hreceived hle hreading hlast
    simp only [ReturnPc.free, ReturnPc.unannounced, Nat.sub_zero] at hfree hincoming hreceived hle hlast
    have hwaits : s.mainPc.waiting ≤ s.mainPc.unreturned := by
      cases s.mainPc <;> simp [MainPc.waiting, MainPc.unreturned]
    obtain ⟨incoming, hproduce, hafter, hend'⟩ := hincoming.pcProduce (n := 1) (by omega)
    rw [Nat.sub_add_cancel hreceived] at hafter
    simp only [ReturnChannel.returnStep, hpc, hproduce, Option.some.injEq] at hstep
    subst hstep
    refine ⟨hfree, hafter, ⟨hend.1, hend'.trans hend.2⟩, Nat.zero_le _, hhandled, ?_, hentries, nofun,
      nofun, nofun, fun pos clNo hmain => ?_, hfinished, hprefix, hno⟩
    · simp only [ReturnPc.unannounced]
      omega
    · obtain ⟨heq, hclNo, hlt⟩ := hreading pos clNo hmain
      simp only [ReturnPc.unannounced] at hlt ⊢
      exact ⟨heq, hclNo, by omega⟩

/-- A step of the thread that handles the messages keeps it. -/
theorem Inv.mainStep (h : Inv size s) (hstep : mainStep s = some s') : Inv size s' := by
  obtain ⟨hfree, hincoming, hend, hreceived, hhandled, hle, hentries, htarget, htaken, hlookup,
    hreading, hfinished, hprefix, hno⟩ := id h
  have hkept : s.returnPc.free ≤ s.returnPc.unannounced := by
    cases s.returnPc <;> simp [ReturnPc.free, ReturnPc.unannounced]
  cases hpc : s.mainPc with
  | outside =>
    rw [hpc] at hfree hincoming hhandled hentries htarget htaken
    simp only [MainPc.waiting, Nat.sub_zero] at hincoming
    simp only [ReturnChannel.mainStep, hpc] at hstep
    obtain ⟨hwaiting, hstep⟩ := Option.ite_none_right_eq_some.mp hstep
    obtain rfl := Option.some.inj hstep
    rw [hincoming.pcGetWaiting_eq] at hwaiting
    refine ⟨hfree, hincoming, hend, hreceived, hhandled, hle, hentries, htarget, htaken, hlookup, ?_,
      nofun, hprefix, hno⟩
    intro pos clNo hmain
    rcases hmain with hmain | hmain
    · obtain ⟨rfl, rfl⟩ := MainPc.consume.inj hmain
      exact ⟨hincoming.consumerPosition_eq, rfl, by dsimp only; omega⟩
    · cases hmain
  | consume pos clNo =>
    have hread := hreading pos clNo (.inl hpc)
    rw [hpc] at hfree hincoming hhandled hentries htarget htaken
    simp only [ReturnChannel.mainStep, hpc] at hstep
    obtain ⟨n, -, rfl⟩ := Option.map_eq_some_iff.mp hstep
    refine ⟨hfree, hincoming, hend, hreceived, hhandled, hle, hentries, htarget, htaken, hlookup, ?_,
      nofun, hprefix, hno⟩
    intro pos' clNo' hmain
    rcases hmain with hmain | hmain
    · cases hmain
    · obtain ⟨rfl, rfl⟩ := MainPc.handle.inj hmain
      exact hread
  | handle pos clNo =>
    obtain ⟨hpos, hclNo, hlt⟩ := hreading pos clNo (.inr hpc)
    rw [hpc] at hfree hincoming hentries htarget htaken
    simp only [MainPc.waiting, MainPc.unreturned, Nat.sub_zero] at hfree hincoming hentries htarget htaken
    simp only [ReturnChannel.mainStep, hpc, Option.some.injEq] at hstep
    subst hstep
    have hlength : (s.handled ++ [(clNo, (s.q pos).msg)]).length = s.handled.length + 1 := by simp
    have hless : s.handled.length < s.received.length := by omega
    refine ⟨?_, ?_, hend, hreceived, ?_, ?_, ?_, ?_, ?_, hlookup, nofun, ?_, ?_, hno⟩
    · simpa only [hlength, MainPc.unreturned, Nat.add_sub_cancel] using hfree
    · simpa only [hlength, MainPc.waiting, Nat.add_sub_cancel] using hincoming
    · simp [MainPc.unreturned]
    · simp only [hlength]
      omega
    · simpa only [hlength, MainPc.unreturned, Nat.add_sub_cancel] using hentries
    · simpa only [hlength, MainPc.unreturned, Nat.add_sub_cancel] using htarget
    · simpa only [hlength, MainPc.unreturned, Nat.add_sub_cancel] using htaken
    · rintro _ ⟨⟩
      simpa only [hlength, Nat.add_sub_cancel] using hpos
    · simp only [hlength]
      rw [List.take_succ_eq_append_getElem hless]
      refine List.rel_append hprefix (.cons ?_ .nil)
      subst hclNo
      rw [hpos]
      exact hentries s.handled.length le_rfl hless
  | consumed pos =>
    rw [hpc] at hfree hincoming hhandled hentries htarget htaken
    simp only [MainPc.waiting, MainPc.unreturned] at hincoming hhandled
    simp only [ReturnChannel.mainStep, hpc, Option.some.injEq] at hstep
    subst hstep
    refine ⟨hfree, ?_, hend, hreceived, hhandled, hle, hentries, htarget, htaken, hlookup, nofun, nofun,
      hprefix, hno⟩
    have hafter := hincoming.pcConsumed (n := 1) (by omega)
    rwa [Nat.sub_add_cancel hhandled] at hafter
  | produce =>
    rw [hpc] at hfree hincoming hhandled hentries htarget htaken
    simp only [MainPc.unreturned] at hfree hhandled hentries htarget htaken
    obtain ⟨freeSpace, hproduce, hafter, hend'⟩ := hfree.pcProduce (n := 1) (by omega)
    rw [Nat.add_assoc, Nat.sub_add_cancel hhandled] at hafter
    simp only [ReturnChannel.mainStep, hpc, hproduce, Option.some.injEq] at hstep
    subst hstep
    refine ⟨hafter, hincoming, ⟨hend'.trans hend.1, hend.2⟩, hreceived, Nat.zero_le _, hle, ?_, ?_, ?_,
      hlookup, nofun, nofun, hprefix, hno⟩
    · intro k hk hlt
      simp only [MainPc.unreturned] at hk
      exact hentries k (by omega) hlt
    · intro pos hpos
      obtain ⟨heq, hroom⟩ := htarget pos hpos
      exact ⟨heq, by simp only [MainPc.unreturned]; omega⟩
    · intro hconsumed
      have hroom := htaken hconsumed
      simp only [MainPc.unreturned]
      omega

/-- Every step keeps it. -/
theorem Inv.act {a : Action α} (h : Inv size s) (hact : act size s a = some s') : Inv size s' := by
  unfold ReturnChannel.act at hact
  rw [if_neg (by simp [h.noOverflow])] at hact
  cases a with
  | datagram sender datagram =>
    cases hpc : s.returnPc with
    | receive pos =>
      simp only [hpc, Option.some.injEq] at hact
      exact hact ▸ h.datagram hpc
    | _ => simp [hpc] at hact
  | returnChannel => exact h.returnStep hact
  | main => exact h.mainStep hact
  | participants lookupParticipant =>
    obtain rfl := Option.some.inj hact
    exact { h with }

end Udpcast.Sender.ReturnChannel
