import Mathlib
import Udpcast.Sender.Options

/-!
# Setting up a transfer

The functions of `udps-negotiate.c` that settle the addresses, the capabilities and the mode
of a transfer in `net_config`, and the loop of `udp-sender` in daemon mode.
-/

namespace Udpcast.Negotiate

open Protocol
open Sender (Settings ParticipantsDb)

/-- `sockaddr_in`, with its numbers in the byte order of the host. -/
structure SockAddr where
  ip : ℕ
  port : ℕ
  deriving DecidableEq

/-- The network interface of the sender. -/
structure NetIf where
  addr : ℕ
  bcast : ℕ
  /-- `isFullDuplex` returns 1. -/
  fullDuplex : Bool

/-- `net_config` as far as the set-up reads or changes it. -/
structure NetConfig where
  settings : Settings
  /-- `FLAG_POINTOPOINT`. -/
  pointopoint : Bool
  /-- `FLAG_NOPOINTOPOINT`. -/
  nopointopoint : Bool
  /-- `FLAG_BCAST`. -/
  bcast : Bool
  capabilities : ℕ
  controlMcastAddr : SockAddr
  dataMcastAddr : SockAddr
  /-- The address in `mcastRdv`; the empty string stands for `224.0.0.1`. -/
  mcastRdv : Option ℕ
  ttl : ℤ
  portBase : ℤ
  netIf : NetIf

/-- The options that bear on the set-up. -/
inductive NetOption
  | transfer (o : Sender.SenderOption)
  | pointopoint
  | nopointopoint
  | bcast
  | dataMcast (ip : ℕ)
  | mcastRdv (ip : ℕ)
  | ttl (n : ℤ)
  | portBase (n : ℤ)

/-- `net_config` before the first option. -/
def NetConfig.default (netIf : NetIf) : NetConfig where
  settings := .default
  pointopoint := false
  nopointopoint := false
  bcast := false
  capabilities := 0
  controlMcastAddr := ⟨0, 0⟩
  dataMcastAddr := ⟨0, 0⟩
  mcastRdv := none
  ttl := 1
  portBase := 9000
  netIf := netIf

/-- One turn of the loop over the options. The flag is `dataMcastSupplied`. -/
def readOption (c : NetConfig × Bool) : NetOption → Option (NetConfig × Bool)
  | .transfer o =>
    (Sender.readOption c.1.settings o).map fun settings => ({ c.1 with settings := settings }, c.2)
  | .pointopoint => some ({ c.1 with pointopoint := true }, c.2)
  | .nopointopoint => some ({ c.1 with nopointopoint := true }, c.2)
  | .bcast => some ({ c.1 with bcast := true }, c.2)
  | .dataMcast ip => some ({ c.1 with dataMcastAddr := ⟨ip, c.1.dataMcastAddr.port⟩ }, true)
  | .mcastRdv ip => some ({ c.1 with mcastRdv := some ip }, c.2)
  | .ttl n => some ({ c.1 with ttl := n }, c.2)
  | .portBase n => some ({ c.1 with portBase := n }, c.2)

/-- `main` up to the loop over the sessions. -/
def readOptions (netIf : NetIf) (options : List NetOption) : Option NetConfig :=
  (options.foldlM readOption (.default netIf, false)).bind fun c =>
    let pointopoint := c.1.pointopoint && !(c.1.settings.async && c.2)
    if c.1.settings.async = true ∧ pointopoint = true then none
    else if pointopoint = true ∧ c.1.nopointopoint = true then none
    else if c.1.settings.async = true ∧ c.1.settings.nrGovernors = 0 then none
    else some { c.1 with
      pointopoint := pointopoint, settings := Sender.adjustSliceSizes c.1.settings }

/-- `CAP_NEW_GEN`. -/
def capNewGen : ℕ := 2 ^ 0

/-- `CAP_BIG_ENDIAN`. -/
def capBigEndian : ℕ := 2 ^ 3

/-- `CAP_ASYNC`. -/
def capAsync : ℕ := 2 ^ 5

/-- `SENDER_CAPABILITIES`. -/
def senderCapabilities : ℕ := capNewGen ||| capBigEndian

/-- `RECEIVER_PORT(portBase)` as an unsigned short. -/
def NetConfig.receiverPort (config : NetConfig) : ℕ := (config.portBase % 2 ^ 16).toNat

def getBroadCastAddress (netIf : NetIf) (port : ℕ) : SockAddr :=
  ⟨if netIf.bcast = 0 ∧ netIf.addr &&& 0xff000000 = 0x7f000000 then netIf.addr else netIf.bcast,
    port⟩

def getMcastAllAddress (address : Option ℕ) (port : ℕ) : SockAddr :=
  ⟨address.getD 0xe0000001, port⟩

def getDefaultMcastAddress (netIf : NetIf) : SockAddr :=
  ⟨netIf.addr &&& 0x07ffffff ||| 0xe8000000, 0⟩

/-- The control address that `startSender` chooses. -/
def controlAddress (config : NetConfig) : SockAddr :=
  let addr :=
    if config.ttl = 1 ∧ config.mcastRdv = none then
      getBroadCastAddress config.netIf config.receiverPort
    else ⟨0, config.controlMcastAddr.port⟩
  if addr.ip = 0 then getMcastAllAddress config.mcastRdv config.receiverPort else addr

/-- `startSender` up to the first HELLO. -/
def prepare (config : NetConfig) : NetConfig :=
  let config := { config with
    settings := Sender.startSender config.settings config.netIf.fullDuplex }
  let config := { config with controlMcastAddr := controlAddress config }
  let config :=
    if config.pointopoint = false ∧ config.dataMcastAddr.ip = 0 then
      { config with dataMcastAddr := getDefaultMcastAddress config.netIf }
    else config
  let config :=
    if config.pointopoint = true then
      { config with dataMcastAddr := { config.dataMcastAddr with ip := 0 } }
    else config
  { config with
    dataMcastAddr := { config.dataMcastAddr with port := config.receiverPort }
    capabilities :=
      if config.settings.async = true then senderCapabilities ||| capAsync
      else senderCapabilities }

/-- An entry of the table of participants. -/
structure ClientDesc where
  addr : SockAddr
  capabilities : ℕ

/-- `participantsDb_t`. -/
structure Participants where
  db : ParticipantsDb
  clients : ℕ → ClientDesc

/-- `makeParticipantsDb`. -/
def Participants.empty : Participants := ⟨⟨0, ∅⟩, fun _ => ⟨⟨0, 0⟩, 0⟩⟩

def lookupParticipant (p : Participants) (addr : SockAddr) : Option ℕ :=
  (List.range maxClients).find? fun i => i ∈ p.db.used ∧ (p.clients i).addr.ip = addr.ip

/-- `addParticipant`, with the number that it returns. -/
def addParticipant (p : Participants) (addr : SockAddr) (capabilities : ℕ) (pointopoint : Bool) :
    ℤ × Participants :=
  match lookupParticipant p addr with
  | some i => (i, p)
  | none =>
    -- In point-to-point mode the loop ends at the first entry.
    match (if pointopoint then [0] else List.range maxClients).find? (· ∉ p.db.used) with
    | some i =>
      (i, { db := ⟨p.db.nrParticipants + 1, insert i p.db.used⟩
            clients := Function.update p.clients i ⟨addr, capabilities⟩ })
    | none => (-1, p)

/-- The messages of the set-up that announce the address of the data. -/
inductive Announcement
  | hello (capabilities mcastAddr : ℕ) (blockSize : ℤ)
  | connectReply (client : SockAddr) (clNr : ℤ) (blockSize : ℤ) (capabilities mcastAddr : ℕ)
  deriving DecidableEq

/-- A session before its transfer, with the announcements sent. -/
structure Negotiation where
  config : NetConfig
  participants : Participants
  sent : List Announcement

def sendHello (x : Negotiation) : Negotiation :=
  { x with
    sent := x.sent ++
      [.hello x.config.capabilities x.config.dataMcastAddr.ip x.config.settings.blockSize] }

/-- `sendConnectionReply`; its only caller sets `CAP_BIG_ENDIAN`. -/
def sendConnectionReply (x : Negotiation) (client : SockAddr) (capabilities : ℕ) : Negotiation :=
  let added := addParticipant x.participants client capabilities x.config.pointopoint
  let config :=
    if x.config.pointopoint = true then
      { x.config with dataMcastAddr := { x.config.dataMcastAddr with ip := client.ip } }
    else x.config
  { config := config
    participants := added.2
    sent := x.sent ++ [.connectReply client added.1 config.settings.blockSize config.capabilities
      config.dataMcastAddr.ip] }

/-- What `mainDispatcher` reacts to. -/
inductive Event
  /-- The time for another HELLO. -/
  | hello
  | connectReq (client : SockAddr) (capabilities : ℕ)
  | disconnect (client : SockAddr)

/-- `mainDispatcher`. In async mode it throws messages away. -/
def mainDispatcher (x : Negotiation) : Event → Negotiation
  | .hello => sendHello x
  | .connectReq client capabilities =>
    if x.config.settings.async = true then x
    else sendConnectionReply x client (capBigEndian ||| capabilities)
  | .disconnect client =>
    if x.config.settings.async = true then x
    else
      match lookupParticipant x.participants client with
      | some i => { x with participants := { x.participants with db := x.participants.db.remove i } }
      | none => x

/-- A session as its surroundings determine it: what happens until `mainDispatcher` returns
something else than 0, and whether that is 1. -/
structure Session where
  events : List Event
  go : Bool

/-- The HELLO of `startSender` and its loop. -/
def negotiate (config : NetConfig) (events : List Event) : Negotiation :=
  events.foldl mainDispatcher (sendHello ⟨config, .empty, []⟩)

def isPointToPoint (p : Participants) (config : NetConfig) : Bool :=
  if config.pointopoint then true
  else if config.nopointopoint || config.settings.async then false
  else p.db.nrParticipants = 1

/-- What `doTransfer` takes over from participant `i`. -/
def gatherFrom (isPtP : Bool) (p : Participants) (config : NetConfig) (i : ℕ) : NetConfig :=
  if i ∈ p.db.used then
    { config with
      dataMcastAddr :=
        if isPtP then { config.dataMcastAddr with ip := (p.clients i).addr.ip }
        else config.dataMcastAddr
      capabilities := config.capabilities &&& (p.clients i).capabilities }
  else config

/-- What `doTransfer` takes back for receivers of the old generation, and in broadcast mode. -/
def settle (config : NetConfig) : NetConfig :=
  let config :=
    if config.capabilities &&& capNewGen = 0 then
      { config with
        dataMcastAddr := config.controlMcastAddr
        settings := Sender.doTransfer config.settings false }
    else config
  if config.bcast = true then { config with dataMcastAddr := config.controlMcastAddr } else config

/-- `doTransfer` up to the start of the threads; `none` where the sender gives up. -/
def doTransfer (config : NetConfig) (p : Participants) : Option NetConfig :=
  let isPtP := isPointToPoint p config
  if config.pointopoint = true ∧ p.db.nrParticipants ≠ 1 then none
  else
    let config := (List.range maxClients).foldl (gatherFrom isPtP p) config
    if config.capabilities &&& capBigEndian = 0 then none else some (settle config)

/-- What a session shows: its announcements, and the configuration of its transfer. -/
structure Outcome where
  sent : List Announcement
  transfer : Option NetConfig

/-- The session comes to a transfer. -/
def Transfers (x : Negotiation) (s : Session) : Prop :=
  s.go = true ∧ (x.config.settings.async = true ∨ 0 < x.participants.db.nrParticipants)

instance (x : Negotiation) (s : Session) : Decidable (Transfers x s) :=
  inferInstanceAs (Decidable (_ ∧ _))

/-- `startSender`, with what it leaves in `net_config` if the process goes on. -/
def startSender (config : NetConfig) (s : Session) : Outcome × Option NetConfig :=
  let x := negotiate (prepare config) s.events
  if Transfers x s then
    (⟨x.sent, doTransfer x.config x.participants⟩, doTransfer x.config x.participants)
  else (⟨x.sent, none⟩, some x.config)

/-- `net_config` after the sessions `l`, one after the other. -/
def carried (config : NetConfig) (l : List Session) : Option NetConfig :=
  l.foldlM (fun config s => (startSender config s).2) config

end Udpcast.Negotiate
