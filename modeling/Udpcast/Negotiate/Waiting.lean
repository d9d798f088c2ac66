import Udpcast.Negotiate.Steps
import Udpcast.Lib.System

/-!
# Waiting for receivers

`mainDispatcher` with its clock, its console and everything it returns, and the loop of
`startSender` that calls it until it returns something else than 0. A start that has been
decided is returned unless a datagram is read first that takes another way out. The start
timeout is measured from the beginning of a call, and every datagram begins a new one.
-/

namespace Udpcast.Negotiate

/-- `net_config` as far as only the wait reads it. -/
structure WaitConfig where
  /-- In milliseconds; 0 if HELLO is not repeated. -/
  rexmitHelloInterval : ℤ
  autostart : ℤ
  startTimeout : ℤ
  minReceivers : ℤ
  minReceiversWait : ℤ
  maxReceiversWait : ℤ
  /-- `FLAG_NOKBD`. -/
  nokbd : Bool

/-- `fromClient`. -/
inductive ClientMessage
  /-- `CMD_CONNECT_REQ`. -/
  | connectReq (capabilities : ℕ)
  /-- `CMD_GO`. -/
  | go
  /-- `CMD_DISCONNECT`. -/
  | disconnect
  /-- Any other opcode. -/
  | other
  deriving DecidableEq

/-- What `recvfrom` finds on the selected socket. -/
inductive Pending
  | failed
  | datagram (client : SockAddr) (msg : ClientMessage)

/-- How a call of `selectWithConsole` ends. -/
inductive Poll
  /-- `select` fails. -/
  | failed
  /-- The time is over; the clock as `checkClientWait` and the test of the timeout read it. -/
  | timeout (checked now : ℤ)
  /-- A key, if the console is readable, and what is found on the selected socket. -/
  | ready (key : Option Char) (pending : Option Pending)

/-- How a call of `mainDispatcher` goes on after a poll. -/
inductive Return
  | polling
  | returned (startNow : ℤ)
  /-- `exit(1)` in `restoreConsole`. -/
  | exited
  deriving DecidableEq

/-- The state of `startSender` in its loop. -/
structure Waiting where
  config : WaitConfig
  session : Negotiation
  /-- The console is open. -/
  console : Bool
  tries : ℤ
  /-- 0 as long as nobody is connected. -/
  firstConnected : ℤ
  loopStart : ℤ
  /-- What the last call has returned, if that ends the loop. -/
  status : Return
  /-- When the first call began, in milliseconds. -/
  began : ℤ
  /-- When the call that is under way began, and when it last called `select`, in
  milliseconds. -/
  entered : ℤ
  polled : ℤ

/-- `firstConnectedP` is not `NULL`. -/
def WaitConfig.WaitsForReceivers (c : WaitConfig) : Prop :=
  c.minReceivers ≠ 0 ∨ c.minReceiversWait ≠ 0 ∨ c.maxReceiversWait ≠ 0

instance (c : WaitConfig) : Decidable c.WaitsForReceivers := inferInstanceAs (Decidable (_ ∨ _))

/-- `nrParticipants(db)`. -/
def Waiting.nrParticipants (x : Waiting) : ℤ := x.session.participants.db.nrParticipants

/-- `checkClientWait`, at the time `now`. -/
def checkClientWait (x : Waiting) (now : ℤ) : Bool :=
  if x.nrParticipants = 0 ∨ x.firstConnected = 0 then false
  else if x.config.maxReceiversWait ≠ 0 ∧ x.firstConnected + x.config.maxReceiversWait ≤ now then
    true
  else
    x.config.minReceivers ≤ x.nrParticipants ∧
      (x.config.minReceiversWait = 0 ∨ x.firstConnected + x.config.minReceiversWait ≤ now)

/-- The timeout given to `select`, in milliseconds. -/
def selectTimeout (x : Waiting) : Option ℤ :=
  if x.config.rexmitHelloInterval ≠ 0 then some x.config.rexmitHelloInterval
  else if x.config.WaitsForReceivers ∧ x.nrParticipants ≠ 0 ∨ x.config.startTimeout ≠ 0 then
    some 2000
  else none

/-- The HELLO after a poll without events. -/
def repeatHello (x : Waiting) : Waiting :=
  if x.config.rexmitHelloInterval ≠ 0 then
    { x with session := sendHello x.session, tries := x.tries + 1 }
  else x

/-- `startNow` is set after that HELLO. -/
def StartsByItself (x : Waiting) (now : ℤ) : Prop :=
  x.config.rexmitHelloInterval ≠ 0 ∧ x.config.autostart ≠ 0 ∧ x.config.autostart < x.tries ∨
    x.config.WaitsForReceivers ∧ checkClientWait x now = true

instance (x : Waiting) (now : ℤ) : Decidable (StartsByItself x now) :=
  inferInstanceAs (Decidable (_ ∨ _))

/-- `startNow` at the end of the body of the loop. -/
def startNow (x : Waiting) (checked now : ℤ) : ℤ :=
  if StartsByItself x checked then 1
  else if x.config.startTimeout ≠ 0 ∧ x.config.startTimeout ≤ now - x.loopStart then -1
  else 0

/-- `doReceive`. -/
def doReceive (portBase : ℤ) : Pending → Option (SockAddr × ClientMessage)
  | .failed => none
  | .datagram client msg =>
    if (client.port : ℤ) ≠ portBase ∧ (client.port : ℤ) ≠ portBase + 1 then none
    else some (client, msg)

/-- `mainDispatcher` from `getSelectedSock` on, with what it returns. -/
def receive (x : Waiting) (startNow : ℤ) : Option Pending → Waiting × ℤ
  | none => (x, startNow)
  | some pending =>
    match doReceive x.session.config.portBase pending with
    | none => (x, 0)
    | some (client, msg) =>
      if x.session.config.settings.async = true then (x, 0)
      else
        match msg with
        | .connectReq capabilities =>
          ({ x with session := sendConnectionReply x.session client (capBigEndian ||| capabilities) },
            startNow)
        | .go => (x, 1)
        | .disconnect =>
          match lookupParticipant x.session.participants client with
          | some i =>
            ({ x with session := { x.session with participants :=
              { x.session.participants with db := x.session.participants.db.remove i } } },
              startNow)
          | none => (x, startNow)
        | .other => (x, startNow)

/-- A turn of the loop of `mainDispatcher`, with what follows if the loop ends there. -/
def poll (x : Waiting) : Poll → Waiting × Return
  | .failed => (x, .returned (-1))
  | .timeout checked now =>
    let x := repeatHello x
    let startNow := startNow x checked now
    if startNow = 0 then (x, .polling)
    else
      -- The set of readable sockets is empty.
      let (x, r) := receive x startNow none
      (x, .returned r)
  | .ready (some ch) pending =>
    let x := { x with console := false }
    if ch = 'q' then (x, .exited)
    else
      let (x, r) := receive x 1 pending
      (x, .returned r)
  | .ready none pending =>
    let (x, r) := receive x 0 pending
    (x, .returned r)

/-- The beginning of `mainDispatcher` at the time `entered`, with the second reading of the
clock. -/
def enter (x : Waiting) (entered connected : ℤ) : Waiting :=
  { x with
    entered := entered
    loopStart := entered / 1000
    firstConnected :=
      if x.config.WaitsForReceivers ∧ x.firstConnected = 0 ∧ x.nrParticipants ≠ 0 then connected
      else x.firstConnected }

/-- A poll and its times, in milliseconds: when `select` returns, so that a datagram arrives at
`ended`, when `mainDispatcher` begins again if it returns 0, and when `select` is called
next. The second reading of the clock in a new call is in seconds. -/
structure Turn where
  poll : Poll
  ended : ℤ
  entered : ℤ
  connected : ℤ
  polled : ℤ

def Poll.readings : Poll → List ℤ
  | .timeout checked now => [checked, now]
  | _ => []

/-- The clock does not go back, `time` reads it in seconds, and `select` does not wait longer
than it is told to. -/
def InOrder (x : Waiting) (a : Turn) : Prop :=
  [x.polled, a.ended, a.entered, a.polled].Pairwise (· ≤ ·) ∧
    (a.ended / 1000 :: a.poll.readings ++ [a.entered / 1000, a.connected, a.polled / 1000]).Pairwise
      (· ≤ ·) ∧
    ∀ t ∈ selectTimeout x, a.ended ≤ x.polled + max 0 t

instance (x : Waiting) (a : Turn) : Decidable (InOrder x a) :=
  inferInstanceAs (Decidable (_ ∧ _ ∧ _))

/-- `select` can end this way. A negative timeout makes it fail. -/
def CanEnd (x : Waiting) : Poll → Prop
  | .failed => True
  | .timeout _ _ => ∃ t ∈ selectTimeout x, 0 ≤ t
  | .ready key pending =>
    (∀ t ∈ selectTimeout x, 0 ≤ t) ∧ (key.isSome → x.console = true) ∧
      (key.isSome ∨ pending.isSome)

instance (x : Waiting) : (p : Poll) → Decidable (CanEnd x p)
  | .failed => inferInstanceAs (Decidable True)
  | .timeout _ _ => inferInstanceAs (Decidable (∃ t ∈ selectTimeout x, 0 ≤ t))
  | .ready _ _ => inferInstanceAs (Decidable (_ ∧ _))

/-- A turn of the loop, and the next call if this one returns 0. -/
def takeTurn (x : Waiting) (a : Turn) : Option Waiting :=
  if x.status = .polling ∧ CanEnd x a.poll ∧ InOrder x a then
    let x' := { (poll x a.poll).1 with polled := a.polled }
    let status := (poll x a.poll).2
    some (if status = .returned 0 then enter x' a.entered a.connected
      else { x' with status := status })
  else none

/-- `startSender` at the first call of `mainDispatcher`, at the time `now`. -/
def beginWait (config : NetConfig) (wait : WaitConfig) (console : Bool) (now : ℤ) : Waiting where
  config := wait
  session := sendHello ⟨prepare config, .empty, []⟩
  console := console && !wait.nokbd
  tries := 0
  firstConnected := 0
  loopStart := now / 1000
  status := .polling
  began := now
  entered := now
  polled := now

/-- The waiting phase of `startSender`. -/
def waitingPhase (config : NetConfig) (wait : WaitConfig) : System Waiting :=
  .ofActions (fun x => ∃ console now, x = beginWait config wait console now) takeTurn

/-- `startSender` goes on to `doTransfer`. -/
def Waiting.Started (x : Waiting) : Prop :=
  x.status = .returned 1 ∧
    (x.session.config.settings.async = true ∨ 0 < x.nrParticipants)

end Udpcast.Negotiate
