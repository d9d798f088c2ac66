import Udpcast.Sender.Votes
import Udpcast.Session.Transfer

/-!
# A sender and its receivers

All of them run in any interleaving. A receiver gets any messages that the sender has sent so far, any
number of times and in any order, and the sender takes an OK only from a client that has said it. What
else the sender gets on its return channel does not matter.
-/

namespace Udpcast.Session

open Fec (Gf)
open Protocol

/-- The sender, with the messages that it has received, and the receiver with each client number. -/
structure Group where
  sender : Sender.Logged
  receivers : ℕ → Receiver.State

namespace Group

/-- What can happen: one side goes on. -/
inductive Event
  | sender (a : Sender.Action)
  | receiver (clNo : ℕ) (a : Receiver.Action)

/-- An OK that arrives is one that the client has said. -/
def Answers (receivers : ℕ → Receiver.State) (a : Sender.Action) : Prop :=
  ∀ clNo k, a = .receive clNo (.ok k) → .ok k ∈ (receivers clNo).replies

/-- Messages come from the other side only. -/
def Possible (g : Group) : Event → Prop
  | .sender a => Answers g.receivers a
  | .receiver _ a => Hears g.sender.sender a

def act (g : Group) : Event → Option Group
  | .sender a => (Sender.logAct g.sender a).map fun l => ⟨l, g.receivers⟩
  | .receiver clNo a => (Receiver.act (g.receivers clNo) a).map fun r =>
      ⟨g.sender, Function.update g.receivers clNo r⟩

/-- The transfers of one sender to receivers in default mode. -/
def system : System Group where
  Init g := Sender.loggedSystem.Init g.sender ∧
    ∀ clNo, Receiver.Starts (stream g.sender.sender) Receiver.defaultMode (g.receivers clNo)
  Step g g' := ∃ e, g.Possible e ∧ g.act e = some g'

end Group

variable {t t' : Sender.State} {r r' : Receiver.State} {l l' : Sender.Logged} {g g' : Group}
  {clNo k : ℕ}

/-! ## Each side on its own -/

/-- The log changes nothing of what the sender does. -/
theorem sender_reachable (h : Sender.loggedSystem.Reachable l) : Sender.system.Reachable l.sender := by
  refine h.invariant (P := fun l => Sender.system.Reachable l.sender) ?_ ?_
  · rintro l ⟨hinit, -⟩
    exact .init hinit
  · rintro l l' hl ⟨a, hstep⟩
    obtain ⟨t, hact, rfl⟩ := Option.map_eq_some_iff.mp hstep
    exact hl.step ⟨a, hact⟩

/-- What the sender has said stays said. -/
theorem network_subset {a : Sender.Action} (hinv : Sender.Inv t) (hfec : t.config.fec = false)
    (hact : Sender.act t a = some t') : ∀ m ∈ t.network, m ∈ t'.network := by
  intro m hm
  simp only [Sender.act, Option.ite_none_right_eq_some] at hact
  obtain ⟨-, hact⟩ := hact
  cases a with
  | reader n =>
    rw [Sender.readerStep_frame hact]
    exact hm
  | cutter =>
    obtain ⟨ms, hnetwork, -⟩ := (Sender.cutterStep_keepsRound hinv hact).network
    rw [hnetwork]
    exact List.mem_append_right _ hm
  | net =>
    by_cases hpc : t.net = .checkEnd
    · simp only [Sender.netStep, hpc, Option.some.injEq] at hact
      subst hact
      split <;> exact hm
    · obtain ⟨ms, hnetwork, -⟩ := (Sender.netStep_goesOn hinv hfec hpc hact).network
      rw [hnetwork]
      exact List.mem_append_right _ hm
  | timeout =>
    obtain ⟨-, hs⟩ := Option.ite_none_right_eq_some.mp hact
    obtain rfl := Option.some.inj hs
    exact hm
  | receive clNo msg =>
    rw [Sender.receiveStep_frame hact]
    exact hm
  | announce =>
    rw [(Sender.announceStep_frame hact).1]
    exact hm

/-- A receiver has heard no more than what has been said by now. -/
theorem receivers_mono (hnetwork : ∀ m ∈ t.network, m ∈ t'.network)
    (hblockSize : t'.config.blockSize = t.config.blockSize) (h : (receivers t).Reachable r) :
    (receivers t').Reachable r := by
  have hinit : ∀ r, (receivers t).Init r → (receivers t').Reachable r := by
    rintro r ⟨config, streaming, mem, blockData, hvalid, hsize, hmode, hstart⟩
    exact .init ⟨config, streaming, mem, blockData, hvalid, hsize.trans hblockSize.symm, hmode, hstart⟩
  apply h.invariant hinit
  rintro r r' hr ⟨a, hears, hact⟩
  refine hr.step ⟨a, ?_, hact⟩
  cases a with
  | receive msg => exact hnetwork msg hears
  | _ => trivial

/-! ## The group -/

/-- What holds of a group at any time. -/
structure Grouped (g : Group) : Prop where
  receivers : ∀ clNo, (Session.receivers g.sender.sender).Reachable (g.receivers clNo)
  /-- The OKs that the sender has got have been said. -/
  said : ∀ clNo k, (clNo, ClientMsg.ok k) ∈ g.sender.received →
    (g.receivers clNo).failure = none → .ok k ∈ (g.receivers clNo).replies

/-- A step of the sender keeps what holds of the group: it hears only what has been said. -/
theorem grouped_sender {a : Sender.Action} (hl : Sender.loggedSystem.Reachable l)
    {receivers : ℕ → Receiver.State} (h : Grouped ⟨l, receivers⟩)
    (hconfig : Sender.Unencoded l.sender.config) (hanswers : Group.Answers receivers a)
    (hstep : Sender.logAct l a = some l') : Grouped ⟨l', receivers⟩ := by
  obtain ⟨t, hact, rfl⟩ := Option.map_eq_some_iff.mp hstep
  have hinv := Sender.inv_reachable (sender_reachable hl)
  have hmode := (Sender.act_config hact).sameMode
  exact {
    receivers := fun clNo => receivers_mono (network_subset hinv hconfig.1 hact)
      (show t.config.blockSize = l.sender.config.blockSize by rw [hmode]) (h.receivers clNo)
    said := fun clNo k hmem hrunning => by
      cases a with
      | receive clNo' msg =>
        rcases List.mem_cons.mp hmem with heq | hmem
        · obtain ⟨rfl, rfl⟩ := Prod.mk.inj heq
          exact hanswers _ k rfl
        · exact h.said clNo k hmem hrunning
      | _ => exact h.said clNo k hmem hrunning }

/-- A step of a receiver keeps what holds of the group: it takes back no OK. -/
theorem grouped_receiver {a : Receiver.Action} (h : Grouped g) (hears : Hears g.sender.sender a)
    (hact : Receiver.act (g.receivers clNo) a = some r') :
    Grouped ⟨g.sender, Function.update g.receivers clNo r'⟩ where
  receivers := fun clNo' => by
    dsimp only
    rcases eq_or_ne clNo' clNo with rfl | hne
    · rw [Function.update_self]
      exact (h.receivers clNo').step ⟨a, hears, hact⟩
    · rw [Function.update_of_ne hne]
      exact h.receivers clNo'
  said := fun clNo' k hmem hrunning => by
    dsimp only at hrunning ⊢
    rcases eq_or_ne clNo' clNo with rfl | hne
    · rw [Function.update_self] at hrunning ⊢
      obtain ⟨hbefore, hm⟩ := Receiver.act_moves hact hrunning
      exact hm.replies_subset _ (h.said clNo' k hmem hbefore)
    · rw [Function.update_of_ne hne] at hrunning ⊢
      exact h.said clNo' k hmem hrunning

/-- So it holds at any time. -/
theorem grouped_of_reachable (h : Group.system.Reachable g) :
    Sender.loggedSystem.Reachable g.sender ∧
      (Sender.Unencoded g.sender.sender.config → Grouped g) := by
  refine h.invariant (P := fun g => Sender.loggedSystem.Reachable g.sender ∧
    (Sender.Unencoded g.sender.sender.config → Grouped g)) ?_ ?_
  · rintro g ⟨hsender, hreceivers⟩
    refine ⟨.init hsender, fun _ => ⟨fun clNo => .init (hreceivers clNo), ?_⟩⟩
    rw [hsender.2]
    simp
  · rintro ⟨l, rs⟩ g' ⟨hl, hgrouped⟩ ⟨e, hpossible, hact⟩
    cases e with
    | sender a =>
      obtain ⟨l', hstep, rfl⟩ := Option.map_eq_some_iff.mp hact
      refine ⟨hl.step ⟨a, hstep⟩, fun hconfig' => ?_⟩
      obtain ⟨t, htact, rfl⟩ := Option.map_eq_some_iff.mp hstep
      have hconfig := (Sender.act_config htact).unencoded hconfig'
      exact grouped_sender hl (hgrouped hconfig) hconfig hpossible hstep
    | receiver clNo a =>
      obtain ⟨r', hstep, rfl⟩ := Option.map_eq_some_iff.mp hact
      exact ⟨hl, fun hconfig => grouped_receiver (hgrouped hconfig) hpossible hstep⟩

/-- A client that the sender has counted for a slice has got it. -/
theorem has_of_counted (h : Group.system.Reachable g)
    (hconfig : Sender.Unencoded g.sender.sender.config) (hacked : clNo ∈ g.sender.sender.ackedBy k)
    (hrunning : (g.receivers clNo).failure = none) : WellCut g.sender.sender ∧
    (Receiver.system (stream g.sender.sender) Receiver.defaultMode).Reachable (g.receivers clNo) ∧
      k < (g.receivers clNo).started ∧ (g.receivers clNo).Past k := by
  obtain ⟨hl, hgrouped⟩ := grouped_of_reachable h
  have hgrouped := hgrouped hconfig
  have ht := sender_reachable hl
  have hconforming := Sender.conforming_of_reachable ht hconfig
  have hcut := wellCut (Sender.inv_reachable ht) hconforming
  have hreach := receives hcut hconforming.network (hgrouped.receivers clNo)
  have hvote := (Sender.votes_of_reachable hl).2.ackedBy k clNo hacked
  obtain ⟨hlt, hgone⟩ := Receiver.acknowledges_of_reachable hreach hrunning k
    (hgrouped.said clNo k hvote hrunning)
  exact ⟨hcut, hreach, hlt, hgone⟩

/-- The sender frees the bytes of a slice on the word of those who are ready for it, and none of them
misses one: it has written the byte, or has it in its ring. -/
theorem freed_of_reachable (h : Group.system.Reachable g)
    (hconfig : Sender.Unencoded g.sender.sender.config) (hacked : clNo ∈ g.sender.sender.ackedBy k)
    (hrunning : (g.receivers clNo).failure = none) :
    (g.receivers clNo).Keeps (stream g.sender.sender) (g.receivers clNo).dataBuffer k := by
  obtain ⟨hcut, hreach, hlt, hgone⟩ := has_of_counted h hconfig hacked hrunning
  exact Receiver.keeps_of_noFec hcut.valid rfl hreach hrunning hlt hgone

/-- Every byte of the stream is in a slice. -/
theorem exists_slice (st : Stream) {n p : ℕ} (h : p < st.start n) :
    ∃ k < n, st.start k ≤ p ∧ p < st.start (k + 1) := by
  induction n with
  | zero => exact absurd h (Nat.not_lt_zero p)
  | succ n ih =>
    rcases Nat.lt_or_ge p (st.start n) with hlt | hge
    · obtain ⟨k, hk, hslice⟩ := ih hlt
      exact ⟨k, hk.trans (Nat.lt_succ_self n), hslice⟩
    · exact ⟨n, Nat.lt_succ_self n, hge, h⟩

/-- When all of the input has been cut and those who still take part have acknowledged all of it, each
of them has every byte of it, written or in its ring. What waits in the ring may stay there until the
slice that ends the transfer arrives: the writer takes 4096 bytes at a time, or what is left at the end. -/
theorem complete_of_reachable {p : ℕ} (h : Group.system.Reachable g)
    (hconfig : Sender.Unencoded g.sender.sender.config)
    (hend : g.sender.sender.cuts.sum = g.sender.sender.inputSize)
    (hacked : ∀ k < g.sender.sender.cuts.length,
      g.sender.sender.db.used ⊆ g.sender.sender.ackedBy k)
    (hused : clNo ∈ g.sender.sender.db.used) (hrunning : (g.receivers clNo).failure = none)
    (hp : p < g.sender.sender.inputSize) :
    p < (g.receivers clNo).written ∨
      (g.receivers clNo).dataBuffer (p % (g.receivers clNo).dataBufSize) = g.sender.sender.input p := by
  have hl := (grouped_of_reachable h).1
  have hcut := wellCut (Sender.inv_reachable (sender_reachable hl))
    (Sender.conforming_of_reachable (sender_reachable hl) hconfig)
  have hinside : p < (stream g.sender.sender).start (stream g.sender.sender).cuts.length := by
    rw [start_stream hcut, hend]
    exact hp
  obtain ⟨k, hk, hle, hlt⟩ := exists_slice _ hinside
  have hk : k < g.sender.sender.cuts.length := hk.trans_le (List.takeWhile_sublist _).length_le
  obtain ⟨-, hreach, hstarted, hgone⟩ := has_of_counted h hconfig (hacked k hk hused) hrunning
  rcases Nat.lt_or_ge p (g.receivers clNo).written with hwritten | hwritten
  · exact .inl hwritten
  · have hkeeps : (g.receivers clNo).Keeps (stream g.sender.sender) (g.receivers clNo).dataBuffer k :=
      Receiver.keeps_of_noFec hcut.valid rfl hreach hrunning hstarted hgone
    exact .inr (hkeeps p hle hlt hwritten)

/-! ## A run of a group -/

/-- Steps of the sender are steps of the group. -/
theorem run_sender {receivers : ℕ → Receiver.State} {actions : List Sender.Action}
    (h : System.perform Sender.logAct l actions = some l')
    (hanswers : ∀ a ∈ actions, Group.Answers receivers a) :
    Group.system.Run ⟨l, receivers⟩ ⟨l', receivers⟩ := by
  induction actions generalizing l with
  | nil =>
    obtain rfl : l = l' := Option.some.inj h
    exact System.Run.refl _
  | cons a actions ih =>
    obtain ⟨mid, hact, hrest⟩ := Option.bind_eq_some_iff.mp h
    have hstep : Group.system.Step ⟨l, receivers⟩ ⟨mid, receivers⟩ :=
      ⟨.sender a, hanswers a List.mem_cons_self, by rw [Group.act, hact]; rfl⟩
    exact (System.Run.single hstep).trans
      (ih hrest fun b hb => hanswers b (List.mem_cons_of_mem _ hb))

/-- Steps of a receiver are steps of the group. -/
theorem run_receiver {receivers : ℕ → Receiver.State} {actions : List Receiver.Action}
    (h : System.perform Receiver.act (receivers clNo) actions = some r')
    (hears : ∀ a ∈ actions, Hears l.sender a) :
    Group.system.Run ⟨l, receivers⟩ ⟨l, Function.update receivers clNo r'⟩ := by
  induction actions generalizing receivers with
  | nil =>
    obtain rfl : receivers clNo = r' := Option.some.inj h
    rw [Function.update_eq_self]
    exact System.Run.refl _
  | cons a actions ih =>
    obtain ⟨mid, hact, hrest⟩ := Option.bind_eq_some_iff.mp h
    have hstep : Group.system.Step ⟨l, receivers⟩ ⟨l, Function.update receivers clNo mid⟩ :=
      ⟨.receiver clNo a, hears a List.mem_cons_self, by rw [Group.act, hact]; rfl⟩
    have hmid : System.perform Receiver.act (Function.update receivers clNo mid clNo) actions =
        some r' := by
      rw [Function.update_self]
      exact hrest
    have hrun := ih hmid fun b hb => hears b (List.mem_cons_of_mem _ hb)
    rw [Function.update_idem] at hrun
    exact (System.Run.single hstep).trans hrun

/-- The sender sends its eight bytes in one slice, and the question about it. -/
def firstSlice : List Sender.Action :=
  [0, 8, 0, 0, 0, 0, 0].map .reader ++ List.replicate 8 .net ++ List.replicate 4 .cutter ++
    List.replicate 15 .net

/-- The receiver gets the two blocks in reverse order, and the question. -/
def hearingFirst (t : Sender.State) : List Receiver.Action :=
  List.replicate 3 .net ++ Receiver.schedule
    [(t.network.getD 1 .hello, 3), (t.network.getD 2 .hello, 9), (t.network.getD 0 .hello, 4)]

/-- The sender gets the answer and frees the slice. -/
def freeing : List Sender.Action := [.receive 0 (.ok 0), .announce] ++ List.replicate 10 .net

/-- Only the arrival of a message needs somebody who has sent it. -/
theorem answers_of_ne {receivers : ℕ → Receiver.State} {a : Sender.Action}
    (h : ∀ clNo msg, a ≠ .receive clNo msg) : Group.Answers receivers a :=
  fun clNo _ heq => absurd heq (h clNo _)

/-- No message arrives while the first slice is sent. -/
theorem answers_firstSlice (receivers : ℕ → Receiver.State) :
    ∀ a ∈ firstSlice, Group.Answers receivers a := by
  intro a ha
  refine answers_of_ne fun clNo msg heq => ?_
  subst heq
  simp [firstSlice] at ha

/-- The message that frees the slice is the OK of receiver 0. -/
theorem answers_freeing {receivers : ℕ → Receiver.State} (h : .ok 0 ∈ (receivers 0).replies) :
    ∀ a ∈ freeing, Group.Answers receivers a := by
  intro a ha clNo k heq
  subst heq
  simp only [freeing, List.mem_append, List.mem_cons, List.mem_replicate, List.not_mem_nil,
    or_false, reduceCtorEq, and_false] at ha
  obtain ⟨rfl, heq⟩ := Sender.Action.receive.inj ha
  obtain rfl := ClientMsg.ok.inj heq
  exact h

/-- All that the receiver hears has been sent. -/
theorem hears_hearingFirst (hlength : t.network.length = 3) : ∀ a ∈ hearingFirst t, Hears t a := by
  intro a ha
  rcases List.mem_append.mp ha with ha | ha
  · obtain ⟨-, rfl⟩ := List.mem_replicate.mp ha
    trivial
  · refine hears_schedule ?_ a ha
    simp only [List.mem_cons, List.not_mem_nil, or_false, forall_eq_or_imp, forall_eq]
    exact ⟨getD_mem_network (by omega), getD_mem_network (by omega), getD_mem_network (by omega)⟩

/-- The client has all of the input in its ring, and has written none of it. -/
theorem exists_freed : ∃ g, Group.system.Reachable g ∧ Sender.Unencoded g.sender.sender.config ∧
    g.sender.sender.acked = 1 ∧ g.sender.sender.cuts = [8] ∧ g.sender.sender.inputSize = 8 ∧
    g.sender.sender.db.used = {0} ∧ g.sender.sender.ackedBy 0 = {0} ∧
    (g.receivers 0).failure = none ∧ (g.receivers 0).written = 0 := by
  have hrun : ((Sender.start fourConfig ⟨1, {0}⟩ (fun p => .ofNat (p + 1)) 8 (fun _ => .ofNat 0)
      fun _ _ _ => .ofNat 0).bind fun t₀ =>
      (System.perform Sender.logAct ⟨t₀, []⟩ firstSlice).bind fun l₁ =>
      (Receiver.start ⟨4, false, true, 0⟩ false (fun _ => .ofNat 0) fun _ _ => .ofNat 0).bind fun r₀ =>
      (System.perform Receiver.act r₀ (hearingFirst l₁.sender)).bind fun r₁ =>
      (System.perform Sender.logAct l₁ freeing).map fun l₂ => (t₀, l₁, r₁, l₂)).any fun p =>
        (p.1.config.blockSize = 4 ∧ p.2.1.sender.network.length = 3 ∧ p.2.2.1.acknowledged = [0]) ∧
        (p.2.2.2.sender.config.fec = false ∧ p.2.2.2.sender.config.maxSliceSize = 1024) ∧
        p.2.2.2.sender.acked = 1 ∧ p.2.2.2.sender.cuts = [8] ∧ p.2.2.2.sender.inputSize = 8 ∧
        p.2.2.2.sender.db.used = {0} ∧ p.2.2.2.sender.ackedBy 0 = {0} ∧
        p.2.2.1.failure = none ∧ p.2.2.1.written = 0 := by
    decide +kernel
  obtain ⟨⟨t, l, r, l'⟩, hall, hlast⟩ := (Option.any_eq_true _ _).mp hrun
  obtain ⟨⟨hblockSize, hlength, hacknowledged⟩, ⟨hfec, hmax⟩, hlast⟩ := of_decide_eq_true hlast
  obtain ⟨t₀, hstart, hall⟩ := Option.bind_eq_some_iff.mp hall
  obtain ⟨l₁, hfirst, hall⟩ := Option.bind_eq_some_iff.mp hall
  obtain ⟨r₀, hstart', hall⟩ := Option.bind_eq_some_iff.mp hall
  obtain ⟨r₁, hhears, hall⟩ := Option.bind_eq_some_iff.mp hall
  obtain ⟨l₂, hfrees, heq⟩ := Option.map_eq_some_iff.mp hall
  simp only [Prod.mk.injEq] at heq
  obtain ⟨rfl, rfl, rfl, rfl⟩ := heq
  have hinit : Group.system.Init ⟨⟨t₀, []⟩, fun _ => r₀⟩ :=
    ⟨⟨⟨_, _, _, _, _, _, ⟨by decide, by decide⟩, ⟨rfl, by decide⟩, hstart⟩, rfl⟩, fun _ =>
      ⟨_, _, _, _, ⟨by decide, by decide⟩, hblockSize.symm, ⟨rfl, rfl⟩, hstart'⟩⟩
  have hsaid : .ok 0 ∈ (Function.update (fun _ => r₀) 0 r₁ 0).replies := by
    rw [Function.update_self]
    exact Receiver.mem_acknowledged.mp (hacknowledged ▸ List.mem_cons_self)
  have hreach : Group.system.Reachable ⟨l₂, Function.update (fun _ => r₀) 0 r₁⟩ :=
    ⟨_, hinit, ((run_sender hfirst (answers_firstSlice _)).trans
      (run_receiver hhears (hears_hearingFirst hlength))).trans
        (run_sender hfrees (answers_freeing hsaid))⟩
  exact ⟨_, hreach, ⟨hfec, by rw [hmax]; decide, by rw [hmax]; decide⟩, hlast⟩

/-- A slice freed by the sender while its receiver has written nothing. -/
theorem freed_of_reachable_eight_bytes : ∃ g, Group.system.Reachable g ∧
    g.sender.sender.acked = 1 ∧ (g.receivers 0).written = 0 ∧
    (g.receivers 0).Keeps (stream g.sender.sender) (g.receivers 0).dataBuffer 0 := by
  obtain ⟨g, hreach, hconfig, hacked, -, -, -, hready, hrunning, hwritten⟩ := exists_freed
  exact ⟨g, hreach, hacked, hwritten,
    freed_of_reachable hreach hconfig (by rw [hready]; decide) hrunning⟩

/-- The input complete in the ring while the receiver has written nothing. -/
theorem complete_of_reachable_eight_bytes : ∃ g, Group.system.Reachable g ∧
    (g.receivers 0).written = 0 ∧ ∀ p < 8, p < (g.receivers 0).written ∨
      (g.receivers 0).dataBuffer (p % (g.receivers 0).dataBufSize) = g.sender.sender.input p := by
  obtain ⟨g, hreach, hconfig, -, hcuts, hsize, hused, hready, hrunning, hwritten⟩ := exists_freed
  refine ⟨g, hreach, hwritten, fun p hp => complete_of_reachable hreach hconfig ?_ ?_ ?_ hrunning ?_⟩
  · rw [hcuts, hsize]
    rfl
  · intro k hk
    rw [hcuts] at hk
    obtain rfl : k = 0 := Nat.lt_one_iff.mp hk
    rw [hused, hready]
  · rw [hused]
    decide
  · rw [hsize]
    exact hp

end Udpcast.Session
