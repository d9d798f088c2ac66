import Udpcast.Negotiate.Waiting

/-!
# When the transfer starts

A start that has been decided is returned exactly if no datagram is pending that cannot be
received or that async mode throws away. No transfer starts in a call that begins after the
start timeout and one more poll, unless a datagram that arrives in between makes `startSender`
call `mainDispatcher` again: without one the sender aborts.
-/

namespace Udpcast.Negotiate

variable {x x' : Waiting} {p : Poll} {a : Turn} {config : NetConfig} {wait : WaitConfig}

/-! ## Start requests -/

/-- A start is decided: a key is pressed that is not `q`, or one of the rules of the loop
applies. -/
def Decides (x : Waiting) : Poll → Prop
  | .failed => False
  | .timeout checked _ => StartsByItself (repeatHello x) checked
  | .ready key _ => ∃ ch ∈ key, ch ≠ 'q'

/-- What is pending on the selected socket. -/
def Poll.pending : Poll → Option Pending
  | .ready _ pending => pending
  | _ => none

/-- A datagram that does not make `mainDispatcher` return 0 at once. -/
def Waiting.Takes (x : Waiting) (pending : Pending) : Prop :=
  x.session.config.settings.async = false ∧
    (doReceive x.session.config.portBase pending).isSome = true

/-- Without a datagram `mainDispatcher` returns what the poll has decided. -/
theorem receive_none (x : Waiting) (r : ℤ) : receive x r none = (x, r) := rfl

/-- What is taken leaves `startNow` alone, unless it is a `CMD_GO`. -/
theorem receive_of_takes {pending : Pending} {client : SockAddr} {msg : ClientMessage}
    (hasync : x.session.config.settings.async = false)
    (hreceive : doReceive x.session.config.portBase pending = some (client, msg)) (r : ℤ) :
    (receive x r (some pending)).2 = if msg = .go then 1 else r := by
  have hnot : ¬ x.session.config.settings.async = true := by simp [hasync]
  simp only [receive, hreceive, if_neg hnot]
  cases msg with
  | connectReq capabilities => rfl
  | go => rfl
  | disconnect =>
    cases lookupParticipant x.session.participants client with
    | none => rfl
    | some i => rfl
  | other => rfl

/-- What is not taken discards whatever has been decided. -/
theorem receive_of_not_takes {pending : Pending} (h : ¬ x.Takes pending) (r : ℤ) :
    receive x r (some pending) = (x, 0) := by
  cases hreceive : doReceive x.session.config.portBase pending with
  | none => simp only [receive, hreceive]
  | some m =>
    have hasync : x.session.config.settings.async = true := by
      by_contra hasync
      exact h ⟨Bool.not_eq_true _ ▸ hasync, by simp [hreceive]⟩
    simp only [receive, hreceive, hasync, if_true]

/-- When the start is decided, `mainDispatcher` returns 1 exactly if it takes the datagram that
comes with it. -/
theorem receive_one_iff (pending : Option Pending) :
    (receive x 1 pending).2 = 1 ↔ ∀ m ∈ pending, x.Takes m := by
  cases pending with
  | none => simp [receive_none]
  | some m =>
    constructor
    · intro hone m' hm
      obtain rfl := Option.some.inj hm
      by_contra htakes
      rw [receive_of_not_takes htakes] at hone
      exact zero_ne_one hone
    · intro h
      obtain ⟨hasync, hsome⟩ := h m rfl
      obtain ⟨⟨client, msg⟩, hreceive⟩ := Option.isSome_iff_exists.mp hsome
      rw [receive_of_takes hasync hreceive, ite_self]

/-- A key other than `q` closes the console, and the datagram is received. -/
theorem poll_ready {key : Option Char} (hq : key ≠ some 'q') (pending : Option Pending) :
    ∃ console, poll x (.ready key pending) =
      ((receive { x with console := console } (if key = none then 0 else 1) pending).1,
        .returned (receive { x with console := console } (if key = none then 0 else 1) pending).2) := by
  cases key with
  | none => exact ⟨x.console, by rw [if_pos rfl, poll]⟩
  | some ch =>
    have hne : ch ≠ 'q' := fun h => hq (congrArg some h)
    refine ⟨false, ?_⟩
    simp only [poll, if_neg hne, reduceCtorEq, if_false]

/-- A start that is decided is returned if and only if there is no datagram, or one that is
taken. -/
theorem returned_one_iff (x : Waiting) (p : Poll) (hdecides : Decides x p) :
    (poll x p).2 = .returned 1 ↔ ∀ m ∈ p.pending, x.Takes m := by
  cases p with
  | failed => exact hdecides.elim
  | timeout checked now =>
    have hstart : startNow (repeatHello x) checked now = 1 := if_pos hdecides
    refine iff_of_true ?_ (fun m hm => nomatch hm)
    simp [poll, hstart, receive_none]
  | ready key pending =>
    obtain ⟨ch, hkey, hne⟩ := hdecides
    obtain rfl : key = some ch := hkey
    have hq : some ch ≠ some 'q' := fun h => hne (Option.some.inj h)
    obtain ⟨console, hpoll⟩ := poll_ready (x := x) hq pending
    rw [hpoll, Return.returned.injEq, if_neg (Option.some_ne_none ch)]
    exact receive_one_iff pending

/-- A sender on a local interface that waits without a limit. -/
def plainWait : Waiting :=
  beginWait (.default ⟨0x0a000001, 0x0a0000ff, false⟩) ⟨0, 0, 0, 0, 0, 0, false⟩ true 100

/-- A key and a new receiver at once: the key decides the start, but the call returns 0. -/
theorem returned_one_iff_connect :
    (poll plainWait (.ready (some ' ') (some (.datagram ⟨0x0a000002, 9000⟩ (.connectReq 9))))).2 =
      .returned 1 := by
  have hkey : Decides plainWait
      (.ready (some ' ') (some (.datagram ⟨0x0a000002, 9000⟩ (.connectReq 9)))) :=
    ⟨' ', rfl, by decide⟩
  apply (returned_one_iff plainWait _ hkey).mpr
  intro m hm
  obtain rfl := Option.some.inj hm
  exact ⟨by decide, by decide⟩

/-- A key is lost if a datagram from a foreign port is pending. -/
theorem not_returned_one :
    ¬ ∀ (x : Waiting) (p : Poll), Decides x p → (poll x p).2 = .returned 1 := by
  intro hclaim
  have hreturn := hclaim plainWait
    (.ready (some ' ') (some (.datagram ⟨0x0a000002, 53⟩ .other))) ⟨' ', rfl, by decide⟩
  exact absurd hreturn (by decide)

/-! ## The start timeout -/

/-- How long `select` waits if there is a start timeout, in milliseconds. -/
def Waiting.pollInterval (x : Waiting) : ℤ :=
  if x.config.rexmitHelloInterval ≠ 0 then x.config.rexmitHelloInterval else 2000

/-- The start timeout and one more poll, in milliseconds. -/
def Waiting.patience (x : Waiting) : ℤ := 1000 * x.config.startTimeout + x.pollInterval

/-- The latest time at which a call may begin that starts a transfer. -/
def Waiting.latest (x : Waiting) : ℤ := x.began + x.patience

/-- A datagram that makes `mainDispatcher` return 0: it is not taken, or it does not start the
transfer and no key is pressed. -/
def resumes (x : Waiting) : Poll → Bool
  | .ready key (some pending) =>
    key ≠ some 'q' ∧ (x.session.config.settings.async = true ∨
      ((doReceive x.session.config.portBase pending).all fun m => key = none ∧ m.2 ≠ .go) = true)
  | _ => false

/-- Only `select` takes time. -/
def Turn.Prompt (a : Turn) : Prop := a.entered = a.ended ∧ a.polled = a.ended

instance (a : Turn) : Decidable a.Prompt := inferInstanceAs (Decidable (_ ∧ _))

/-- A datagram that makes `mainDispatcher` return 0 arrives early in the wait, or else so late in
a call that this call has given up before. -/
def Timely (x : Waiting) (a : Turn) : Prop :=
  a.Prompt ∧
    (resumes x a.poll = true → a.ended ≤ x.latest ∨ x.entered + x.patience < a.ended)

instance (x : Waiting) (a : Turn) : Decidable (Timely x a) :=
  inferInstanceAs (Decidable (_ ∧ (_ → _)))

def timelyTurn (x : Waiting) (a : Turn) : Option Waiting :=
  if Timely x a then takeTurn x a else none

/-- The waits in which every turn is timely. -/
def timelyWait (config : NetConfig) (wait : WaitConfig) : System Waiting :=
  .ofActions (fun x => ∃ console now, x = beginWait config wait console now) timelyTurn

/-- A datagram after which `mainDispatcher` returns 0 is refused in asynchronous mode, or comes
without a key and is no CMD_GO, or is not taken. -/
theorem refused_of_receive {r : ℤ} {pending : Pending} (h : (receive x r (some pending)).2 = 0) :
    x.session.config.settings.async = true ∨
      ((doReceive x.session.config.portBase pending).all fun m => r = 0 ∧ m.2 ≠ .go) = true := by
  cases hreceive : doReceive x.session.config.portBase pending with
  | none => exact .inr rfl
  | some m =>
    cases hasync : x.session.config.settings.async with
    | true => exact .inl rfl
    | false =>
      rw [receive_of_takes hasync hreceive] at h
      by_cases hgo : m.2 = .go
      · rw [if_pos hgo] at h
        exact absurd h one_ne_zero
      · rw [if_neg hgo] at h
        exact .inr (decide_eq_true ⟨h, hgo⟩)

/-- Only a datagram makes `mainDispatcher` return 0. -/
theorem resumes_of_returned_zero (hend : CanEnd x p) (h : (poll x p).2 = .returned 0) :
    resumes x p = true := by
  cases p with
  | failed => simp [poll] at h
  | timeout checked now =>
    by_cases hzero : startNow (repeatHello x) checked now = 0
    · simp [poll, hzero] at h
    · simp [poll, hzero, receive_none] at h
  | ready key pending =>
    by_cases hq : key = some 'q'
    · simp [poll, hq] at h
    obtain ⟨console, hpoll⟩ := poll_ready (x := x) hq pending
    rw [hpoll, Return.returned.injEq] at h
    cases pending with
    | none =>
      have hkey : key ≠ none := by
        intro hnone
        simp [CanEnd, hnone] at hend
      rw [receive_none, if_neg hkey] at h
      exact absurd h one_ne_zero
    | some m =>
      refine decide_eq_true ⟨hq, ?_⟩
      obtain hasync | hall := refused_of_receive h
      · exact .inl hasync
      · refine .inr ?_
        simpa using hall

/-- A datagram changes nothing but the session that is being set up. -/
theorem receive_frame (x : Waiting) (r : ℤ) (pending : Option Pending) :
    ∃ session, (receive x r pending).1 = { x with session := session } := by
  cases pending with
  | none => exact ⟨x.session, rfl⟩
  | some m =>
    by_cases htakes : x.Takes m
    · obtain ⟨hasync, hsome⟩ := htakes
      obtain ⟨⟨client, msg⟩, hreceive⟩ := Option.isSome_iff_exists.mp hsome
      have hnot : ¬ x.session.config.settings.async = true := by simp [hasync]
      simp only [receive, hreceive, if_neg hnot]
      cases msg with
      | connectReq capabilities => exact ⟨_, rfl⟩
      | go => exact ⟨x.session, rfl⟩
      | disconnect =>
        cases lookupParticipant x.session.participants client with
        | none => exact ⟨x.session, rfl⟩
        | some i => exact ⟨_, rfl⟩
      | other => exact ⟨x.session, rfl⟩
    · rw [receive_of_not_takes htakes]
      exact ⟨x.session, rfl⟩

/-- A poll without events may send one more HELLO, and changes nothing else. -/
theorem poll_timeout_fst (x : Waiting) (checked now : ℤ) :
    (poll x (.timeout checked now)).1 = repeatHello x := by
  simp only [poll, receive_none]
  split <;> rfl

/-- A poll leaves the beginning of the call alone. -/
theorem poll_frame (x : Waiting) (p : Poll) : ∃ session console tries,
    (poll x p).1 = { x with session := session, console := console, tries := tries } := by
  cases p with
  | failed => exact ⟨x.session, x.console, x.tries, rfl⟩
  | timeout checked now =>
    rw [poll_timeout_fst]
    unfold repeatHello
    split
    · exact ⟨_, x.console, _, rfl⟩
    · exact ⟨x.session, x.console, x.tries, rfl⟩
  | ready key pending =>
    by_cases hq : key = some 'q'
    · subst hq
      exact ⟨x.session, false, x.tries, by simp [poll]⟩
    · obtain ⟨console, hpoll⟩ := poll_ready (x := x) hq pending
      obtain ⟨session, hreceive⟩ := receive_frame { x with console := console }
        (if key = none then 0 else 1) pending
      refine ⟨session, console, x.tries, ?_⟩
      rw [hpoll, hreceive]

/-- A turn ends the wait, or stays in it, with a new call if `mainDispatcher` has returned 0. -/
theorem takeTurn_some (h : takeTurn x a = some x') :
    x.status = .polling ∧ CanEnd x a.poll ∧ InOrder x a ∧
      ((poll x a.poll).2 = .returned 0 ∧
          x' = enter { (poll x a.poll).1 with polled := a.polled } a.entered a.connected ∨
        (poll x a.poll).2 ≠ .returned 0 ∧
          x' = { (poll x a.poll).1 with polled := a.polled, status := (poll x a.poll).2 }) := by
  obtain ⟨⟨hstatus, hend, horder⟩, hsome⟩ := Option.ite_none_right_eq_some.mp h
  refine ⟨hstatus, hend, horder, ?_⟩
  dsimp only at hsome
  by_cases hzero : (poll x a.poll).2 = .returned 0
  · rw [if_pos hzero] at hsome
    exact .inl ⟨hzero, (Option.some.inj hsome).symm⟩
  · rw [if_neg hzero] at hsome
    exact .inr ⟨hzero, (Option.some.inj hsome).symm⟩

/-- Without traffic the wait ends at the first poll after the timeout: the sender aborts, or
another rule starts the transfer. -/
theorem ends_of_timeout {checked now : ℤ} (htimeout : x.config.startTimeout ≠ 0)
    (hlate : x.loopStart + x.config.startTimeout ≤ now) :
    (poll x (.timeout checked now)).2 = .returned (-1) ∨
      (poll x (.timeout checked now)).2 = .returned 1 := by
  have hsame : (repeatHello x).config = x.config ∧ (repeatHello x).loopStart = x.loopStart := by
    unfold repeatHello
    split <;> exact ⟨rfl, rfl⟩
  obtain ⟨hconfig, hloop⟩ := hsame
  by_cases hstart : StartsByItself (repeatHello x) checked
  · have hone : startNow (repeatHello x) checked now = 1 := if_pos hstart
    exact .inr (by simp [poll, hone, receive_none])
  · have hover : (repeatHello x).config.startTimeout ≠ 0 ∧
        (repeatHello x).config.startTimeout ≤ now - (repeatHello x).loopStart := by
      rw [hconfig, hloop]
      exact ⟨htimeout, by omega⟩
    have hminus : startNow (repeatHello x) checked now = -1 := by
      rw [startNow, if_neg hstart, if_pos hover]
    exact .inl (by simp [poll, hminus, receive_none])

/-- A call that goes on after a poll has not reached the timeout: the poll has ended without
events, and `ends_of_timeout` does not apply. -/
theorem before_timeout (htimeout : x.config.startTimeout ≠ 0)
    (horder : InOrder x a) (hpolling : (poll x a.poll).2 = .polling) :
    a.ended / 1000 < x.loopStart + x.config.startTimeout := by
  obtain ⟨-, hreadings, -⟩ := horder
  cases hpoll : a.poll with
  | failed => simp [hpoll, poll] at hpolling
  | timeout checked now =>
    have hread : a.ended / 1000 ≤ now := by
      simp only [hpoll, Poll.readings] at hreadings
      exact List.rel_of_pairwise_cons hreadings (by simp)
    rw [hpoll] at hpolling
    by_contra hlate
    have hover : x.loopStart + x.config.startTimeout ≤ now := by omega
    have hends : (poll x (.timeout checked now)).2 = .returned (-1) ∨
        (poll x (.timeout checked now)).2 = .returned 1 := ends_of_timeout htimeout hover
    obtain hminus | hone := hends
    · simp [hminus] at hpolling
    · simp [hone] at hpolling
  | ready key pending =>
    by_cases hq : key = some 'q'
    · simp [hpoll, hq, poll] at hpolling
    · obtain ⟨console, heq⟩ := poll_ready (x := x) hq pending
      simp [hpoll, heq] at hpolling

/-- The call that is under way began in time, and it has given up unless its last poll was
before the timeout. -/
structure OnTime (wait : WaitConfig) (x : Waiting) : Prop where
  config_eq : x.config = wait
  loopStart_eq : x.loopStart = x.entered / 1000
  entered_le : 0 ≤ x.pollInterval → x.entered ≤ x.latest
  polled_le : x.status = .polling → x.polled ≤ x.entered + 1000 * x.config.startTimeout
  interval_nonneg : x.status = .returned 1 → 0 ≤ x.pollInterval

/-- The first call begins with the wait. -/
theorem OnTime.beginWait (htimeout : 0 < wait.startTimeout) (console : Bool) (now : ℤ) :
    OnTime wait (beginWait config wait console now) := by
  refine ⟨rfl, rfl, ?_, ?_, ?_⟩
  · intro hinterval
    change now ≤ now + (1000 * wait.startTimeout + _)
    omega
  · intro hpolling
    change now ≤ now + 1000 * wait.startTimeout
    omega
  · intro hstatus
    exact absurd hstatus (by simp [Negotiate.beginWait])

/-- With a start timeout, `select` waits for one interval. -/
theorem selectTimeout_eq (htimeout : 0 < x.config.startTimeout) :
    selectTimeout x = some x.pollInterval := by
  unfold selectTimeout Waiting.pollInterval
  split
  · rfl
  · exact if_pos (.inr htimeout.ne')

/-- Unless `select` fails, the interval is not negative. -/
theorem interval_nonneg_of_canEnd (htimeout : 0 < x.config.startTimeout) (hend : CanEnd x p)
    (hp : p ≠ .failed) : 0 ≤ x.pollInterval := by
  have hselect := selectTimeout_eq htimeout
  cases p with
  | failed => exact absurd rfl hp
  | timeout checked now =>
    obtain ⟨t, ht, hnonneg⟩ := hend
    rw [hselect] at ht
    obtain rfl := Option.some.inj ht
    exact hnonneg
  | ready key pending => exact hend.1 _ hselect

/-- A datagram that makes `mainDispatcher` return 0 finds the call still polling, so it arrives
within the patience of the call; if it is timely, it arrives early in the wait. -/
theorem OnTime.ended_le (htimeout : 0 < wait.startTimeout) (h : OnTime wait x)
    (hpolling : x.status = .polling) (hend : CanEnd x a.poll) (horder : InOrder x a)
    (htimely : Timely x a) (hzero : (poll x a.poll).2 = .returned 0) : a.ended ≤ x.latest := by
  have hpos : 0 < x.config.startTimeout := h.config_eq ▸ htimeout
  have hnonneg : 0 ≤ x.pollInterval := by
    apply interval_nonneg_of_canEnd hpos hend
    intro hfailed
    rw [hfailed] at hzero
    simp [poll] at hzero
  have hselect : a.ended ≤ x.polled + x.pollInterval := by
    have hwait := horder.2.2 _ (selectTimeout_eq hpos)
    rwa [max_eq_right hnonneg] at hwait
  have hpolled := h.polled_le hpolling
  obtain hearly | hgone := htimely.2 (resumes_of_returned_zero hend hzero)
  · exact hearly
  · rw [Waiting.patience] at hgone
    omega

/-- A timely turn keeps the calls on time: one that returns 0 begins the next call early enough,
and the others have not given up yet. -/
theorem OnTime.step (htimeout : 0 < wait.startTimeout) (h : OnTime wait x)
    (hturn : timelyTurn x a = some x') : OnTime wait x' := by
  obtain ⟨htimely, hturn⟩ := Option.ite_none_right_eq_some.mp hturn
  obtain ⟨hstatus, hend, horder, hcases⟩ := takeTurn_some hturn
  obtain ⟨session, console, tries, hframe⟩ := poll_frame x a.poll
  rw [hframe] at hcases
  have hpos : 0 < x.config.startTimeout := h.config_eq ▸ htimeout
  obtain ⟨hentered, hpolled⟩ := htimely.1
  obtain ⟨hzero, rfl⟩ | ⟨-, rfl⟩ := hcases
  · have hearly := h.ended_le htimeout hstatus hend horder htimely hzero
    refine ⟨h.config_eq, rfl, ?_, ?_, ?_⟩
    · intro _
      change a.entered ≤ x.latest
      omega
    · intro _
      change a.polled ≤ a.entered + 1000 * x.config.startTimeout
      omega
    · intro hone
      exact absurd (hstatus.symm.trans hone) (by simp)
  · refine ⟨h.config_eq, h.loopStart_eq, h.entered_le, ?_, ?_⟩
    · intro hpolling
      have hbefore := before_timeout hpos.ne' horder hpolling
      rw [h.loopStart_eq] at hbefore
      change a.polled ≤ x.entered + 1000 * x.config.startTimeout
      omega
    · intro hone
      apply interval_nonneg_of_canEnd hpos hend
      intro hfailed
      rw [hfailed] at hone
      simp [poll] at hone

/-- Nothing but the start timeout is set. -/
def atMost (startTimeout : ℤ) : WaitConfig := ⟨0, 0, startTimeout, 0, 0, 0, false⟩

/-- A receiver connects after two seconds, and asks to start after five. -/
def connectAndGo : List Turn :=
  [⟨.ready none (some (.datagram ⟨0x0a000002, 9000⟩ (.connectReq 9))), 2000, 2000, 2, 2000⟩,
    ⟨.timeout 4 4, 4000, 4000, 4, 4000⟩,
    ⟨.ready none (some (.datagram ⟨0x0a000002, 9000⟩ .go)), 5000, 5000, 5, 5000⟩]

/-- A receiver connects, and something that is no message for the sender arrives every second.
The transfer starts long after the timeout of two seconds. -/
def keepAwake : List Turn :=
  [⟨.ready none (some (.datagram ⟨0x0a000002, 9000⟩ (.connectReq 9))), 1000, 1000, 1, 1000⟩,
    ⟨.ready none (some (.datagram ⟨0x0a000002, 9000⟩ .other)), 2000, 2000, 2, 2000⟩,
    ⟨.ready none (some (.datagram ⟨0x0a000002, 9000⟩ .other)), 3000, 3000, 3, 3000⟩,
    ⟨.ready none (some (.datagram ⟨0x0a000002, 9000⟩ .other)), 4000, 4000, 4, 4000⟩,
    ⟨.ready none (some (.datagram ⟨0x0a000002, 9000⟩ .other)), 5000, 5000, 5, 5000⟩,
    ⟨.ready (some ' ') none, 6000, 6000, 6, 6000⟩]

end Udpcast.Negotiate
