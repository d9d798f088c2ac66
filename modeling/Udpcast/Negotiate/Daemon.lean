import Udpcast.Negotiate.Steps

/-!
# The sessions of a daemon

A session after others is the same as the first one of a process exactly if none of those
before it leaves an address or a mode of its own in `net_config`.
-/

namespace Udpcast.Negotiate

open Protocol
open Sender (Settings ParticipantsDb)

/-- A participant does not know the new messages. -/
def Participants.OldGen (p : Participants) : Prop :=
  ∃ i ∈ p.db.used, (p.clients i).capabilities &&& capNewGen = 0

instance (p : Participants) : Decidable p.OldGen :=
  inferInstanceAs (Decidable (∃ i ∈ p.db.used, (p.clients i).capabilities &&& capNewGen = 0))

/-- The data address with which a session starts that finds `ip`. -/
def NetConfig.startIp (config : NetConfig) (ip : ℕ) : ℕ :=
  if ip = 0 then (getDefaultMcastAddress config.netIf).ip else ip

/-- A transfer to the participants `p` leaves nothing of its own: not the control address, not
the address of a single receiver, and not the loss of full-duplex mode. -/
structure LeavesNothing (config : NetConfig) (p : Participants) : Prop where
  control : config.pointopoint = false → config.bcast = true ∨ p.OldGen →
    config.startIp (controlAddress config).ip = config.startIp config.dataMcastAddr.ip
  client : config.pointopoint = false → config.bcast = false → ¬ p.OldGen →
    isPointToPoint p config = true →
      ∀ i ∈ p.db.used, config.startIp (p.clients i).addr.ip =
        config.startIp config.dataMcastAddr.ip
  mode : p.OldGen → config.settings.sn = true →
    config.settings.notSn = false ∧ config.netIf.fullDuplex = true

/-- The condition on a session. -/
def Session.Neutral (config : NetConfig) (s : Session) : Prop :=
  let x := negotiate (prepare config) s.events
  Transfers x s → LeavesNothing config x.participants

/-- Whatever session comes after a beginning of `l` is as one of a fresh process. -/
def Independent (config : NetConfig) (l : List Session) : Prop :=
  ∀ l₁ config', l₁ <+: l → carried config l₁ = some config' →
    ∀ s, (startSender config' s).1 = (startSender config s).1

variable {config config' : NetConfig} {p : Participants} {x : Negotiation} {s : Session}

section Bits

/-- A capability is a bit. -/
theorem and_pow_ne_zero {a k : ℕ} : a &&& 2 ^ k ≠ 0 ↔ a.testBit k = true := by
  constructor
  · intro h
    by_contra hbit
    refine h (Nat.eq_of_testBit_eq fun i => ?_)
    rw [Nat.testBit_and, Nat.testBit_two_pow]
    by_cases hi : k = i
    · subst hi
      simpa using hbit
    · simp [hi]
  · intro h hzero
    have hbit : (a &&& 2 ^ k).testBit k = true := by
      rw [Nat.testBit_and, h, Nat.testBit_two_pow_self, Bool.and_self]
    rw [hzero, Nat.zero_testBit] at hbit
    contradiction

/-- A capability is common to two sets exactly if it is in both. -/
theorem and_and_pow_ne_zero {a b k : ℕ} :
    (a &&& b) &&& 2 ^ k ≠ 0 ↔ a &&& 2 ^ k ≠ 0 ∧ b &&& 2 ^ k ≠ 0 := by
  simp only [and_pow_ne_zero, Nat.testBit_and, Bool.and_eq_true]

end Bits

section Prepare

/-- The data address with which a session starts. -/
def NetConfig.dataIp (config : NetConfig) : ℕ :=
  if config.pointopoint = true then 0 else config.startIp config.dataMcastAddr.ip

/-- What `startSender` changes before it waits: the mode, the addresses and the capabilities. -/
theorem prepare_eq (config : NetConfig) : prepare config = { config with
    settings := Sender.startSender config.settings config.netIf.fullDuplex
    controlMcastAddr := controlAddress config
    dataMcastAddr := ⟨config.dataIp, config.receiverPort⟩
    capabilities :=
      if (Sender.startSender config.settings config.netIf.fullDuplex).async = true then
        senderCapabilities ||| capAsync
      else senderCapabilities } := by
  unfold prepare NetConfig.dataIp NetConfig.startIp
  cases config.pointopoint
  · by_cases hzero : config.dataMcastAddr.ip = 0
    · simp only [hzero, true_and, if_true]
      rfl
    · simp only [hzero, and_false, if_false, Bool.false_eq_true]
      rfl
  · simp only [Bool.true_eq_false, false_and, if_false, if_true]
    rfl

/-- It leaves the asynchronous mode as it is. -/
theorem startSender_async (c : Settings) (b : Bool) : (Sender.startSender c b).async = c.async := by
  unfold Sender.startSender
  split <;> rfl

/-- It turns on full-duplex mode on such an interface, unless half duplex was asked for. -/
theorem startSender_sn (c : Settings) (b : Bool) :
    (Sender.startSender c b).sn = (c.sn || (!c.notSn && b)) := by
  unfold Sender.startSender
  cases hsn : c.sn <;> cases c.notSn <;> cases b <;> simp [hsn]

/-- What sessions change. -/
def SameOptions (config config' : NetConfig) : Prop :=
  config' = { config with
    settings := { config.settings with sn := config'.settings.sn }
    capabilities := config'.capabilities
    controlMcastAddr := config'.controlMcastAddr
    dataMcastAddr := config'.dataMcastAddr }

/-- The control address is found from the interface and the options, whatever an earlier session
has left of the rest. -/
theorem controlAddress_eq (config : NetConfig) (settings : Settings) (capabilities : ℕ)
    (control data : SockAddr) :
    controlAddress { config with
      settings := settings, capabilities := capabilities, controlMcastAddr := control
      dataMcastAddr := data } = controlAddress config := by
  unfold controlAddress
  dsimp only
  split
  · rfl
  · simp only [if_true]
    rfl

/-- A session starts like a fresh one exactly if it finds the same address and mode. -/
theorem prepare_eq_iff (h : SameOptions config config') :
    prepare config' = prepare config ↔ config'.dataIp = config.dataIp ∧
      (Sender.startSender config'.settings config.netIf.fullDuplex).sn =
        (Sender.startSender config.settings config.netIf.fullDuplex).sn := by
  have hif : config'.netIf = config.netIf := by rw [h]
  have hport : config'.receiverPort = config.receiverPort := by rw [h]; rfl
  have hcontrol : controlAddress config' = controlAddress config := by
    rw [h]
    exact controlAddress_eq ..
  have hsettings : config'.settings = { config.settings with sn := config'.settings.sn } := by
    conv_lhs => rw [h]
  have hstart : ∀ b, Sender.startSender config'.settings b =
      { Sender.startSender config.settings b with
        sn := (Sender.startSender config'.settings b).sn } := by
    intro b
    rw [hsettings]
    unfold Sender.startSender
    split <;> split <;> rfl
  have hasync : config'.settings.async = config.settings.async := by rw [hsettings]
  rw [prepare_eq, prepare_eq]
  simp only [startSender_async, hasync, hif, hport, hcontrol]
  constructor
  · intro heq
    injection heq with hsame _ _ _ _ _ hdata
    exact ⟨(SockAddr.mk.inj hdata).1, congrArg Settings.sn hsame⟩
  · rintro ⟨hip, hsn⟩
    have hsame : Sender.startSender config'.settings config.netIf.fullDuplex =
        Sender.startSender config.settings config.netIf.fullDuplex := by
      rw [hstart, hsn]
    rw [hip, hsame]
    rw [h]

end Prepare

section Participants

/-- A new participant gets a free entry. -/
theorem addParticipant_spec (p : Participants) (addr : SockAddr) (capabilities : ℕ)
    (pointopoint : Bool) :
    (addParticipant p addr capabilities pointopoint).2 = p ∨
      ∃ i < maxClients, i ∉ p.db.used ∧ (addParticipant p addr capabilities pointopoint).2 =
        { db := ⟨p.db.nrParticipants + 1, insert i p.db.used⟩
          clients := Function.update p.clients i ⟨addr, capabilities⟩ } := by
  unfold addParticipant
  split
  · exact .inl rfl
  · split
    · rename_i i hi
      have hfree : i ∉ p.db.used := by simpa using List.find?_some hi
      have hmem := List.mem_of_find?_eq_some hi
      refine .inr ⟨i, ?_, hfree, rfl⟩
      split at hmem
      · rw [List.mem_singleton.mp hmem]
        decide
      · exact List.mem_range.mp hmem
    · exact .inl rfl

/-- What holds while a session is set up. -/
structure Negotiated (config : NetConfig) (x : Negotiation) : Prop where
  config_eq : x.config = { config with dataMcastAddr := x.config.dataMcastAddr }
  port : x.config.dataMcastAddr.port = config.dataMcastAddr.port
  ip : config.pointopoint = false → x.config.dataMcastAddr.ip = config.dataMcastAddr.ip
  valid : x.participants.db.Valid
  bigEndian : ∀ i ∈ x.participants.db.used,
    (x.participants.clients i).capabilities &&& capBigEndian ≠ 0
  async : config.settings.async = true → x.participants.db.used = ∅

/-- Sending HELLO keeps what holds while a session is set up. -/
theorem negotiated_sendHello (h : Negotiated config x) : Negotiated config (sendHello x) :=
  { h with }

/-- So does answering a receiver that connects. -/
theorem negotiated_add (h : Negotiated config x) {addr : SockAddr} {capabilities : ℕ}
    (hasync : config.settings.async = false) (hbig : capabilities &&& capBigEndian ≠ 0) :
    Negotiated config (sendConnectionReply x addr capabilities) := by
  have hmode : x.config.pointopoint = config.pointopoint := by rw [h.config_eq]
  have hdata : (sendConnectionReply x addr capabilities).config =
      { config with
        dataMcastAddr := (sendConnectionReply x addr capabilities).config.dataMcastAddr } := by
    unfold sendConnectionReply
    dsimp only
    split <;> · conv_lhs => rw [h.config_eq]
  have hboth : (sendConnectionReply x addr capabilities).participants.db.Valid ∧
      ∀ i ∈ (sendConnectionReply x addr capabilities).participants.db.used,
        ((sendConnectionReply x addr capabilities).participants.clients i).capabilities &&&
          capBigEndian ≠ 0 := by
    simp only [sendConnectionReply]
    rcases addParticipant_spec x.participants addr capabilities x.config.pointopoint with
      hsame | ⟨i, hi, hfree, hnew⟩
    · rw [hsame]
      exact ⟨h.valid, h.bigEndian⟩
    · rw [hnew]
      refine ⟨⟨?_, fun k hk => ?_⟩, fun k hk => ?_⟩
      · dsimp only
        rw [Finset.card_insert_of_notMem hfree, h.valid.card_eq, Nat.cast_succ]
      · rcases Finset.mem_insert.mp hk with rfl | hk
        · exact hi
        · exact h.valid.lt k hk
      · dsimp only
        rcases eq_or_ne k i with rfl | hne
        · rwa [Function.update_self]
        · rw [Function.update_of_ne hne]
          exact h.bigEndian k (Finset.mem_of_mem_insert_of_ne hk hne)
  refine ⟨hdata, ?_, fun hptp => ?_, hboth.1, hboth.2, fun ha => by simp [hasync] at ha⟩
  · simp only [sendConnectionReply]
    split <;> exact h.port
  · simp only [sendConnectionReply, hmode, hptp, Bool.false_eq_true, if_false]
    exact h.ip hptp

/-- What `mainDispatcher` does while a session is set up. -/
theorem negotiated_dispatch (h : Negotiated config x) (e : Event) :
    Negotiated config (mainDispatcher x e) := by
  have hmode : x.config.settings.async = config.settings.async := by rw [h.config_eq]
  cases e with
  | hello => exact negotiated_sendHello h
  | connectReq client capabilities =>
    simp only [mainDispatcher, hmode]
    split
    · exact h
    · rename_i hasync
      apply negotiated_add h (Bool.eq_false_iff.mpr hasync)
      rw [capBigEndian, and_pow_ne_zero, Nat.testBit_or, Nat.testBit_two_pow_self, Bool.true_or]
  | disconnect client =>
    simp only [mainDispatcher, hmode]
    split
    · exact h
    · rename_i hasync
      split
      · rename_i i _
        have hsub : ∀ k ∈ (x.participants.db.remove i).used, k ∈ x.participants.db.used :=
          fun k hk => Finset.mem_of_mem_erase (Sender.remove_used x.participants.db i ▸ hk)
        exact { h with
          valid := h.valid.remove i
          bigEndian := fun k hk => h.bigEndian k (hsub k hk)
          async := fun ha => absurd ha hasync }
      · exact h

/-- So it holds after all the events of a session. -/
theorem negotiated (config : NetConfig) (events : List Event) :
    Negotiated config (negotiate config events) := by
  have hfold : ∀ (events : List Event) (x : Negotiation), Negotiated config x →
      Negotiated config (events.foldl mainDispatcher x) := by
    intro events
    induction events with
    | nil => exact fun x h => h
    | cons e events ih => exact fun x h => ih _ (negotiated_dispatch h e)
  refine hfold events _ (negotiated_sendHello ⟨rfl, rfl, fun _ => rfl, ⟨rfl, ?_⟩, ?_, fun _ => rfl⟩)
  · simp [Participants.empty]
  · simp [Participants.empty]

/-- What `doTransfer` gathers from a list of entries. -/
theorem gather_spec (isPtP : Bool) (p : Participants) (l : List ℕ) (config : NetConfig) :
    let config' := l.foldl (gatherFrom isPtP p) config
    config' = { config with
        dataMcastAddr := config'.dataMcastAddr, capabilities := config'.capabilities } ∧
      config'.dataMcastAddr.port = config.dataMcastAddr.port ∧
      (∀ k, config'.capabilities &&& 2 ^ k ≠ 0 ↔ config.capabilities &&& 2 ^ k ≠ 0 ∧
        ∀ i ∈ l, i ∈ p.db.used → (p.clients i).capabilities &&& 2 ^ k ≠ 0) ∧
      (isPtP = false → config'.dataMcastAddr.ip = config.dataMcastAddr.ip) ∧
      (isPtP = true → ∀ i, p.db.used = {i} → config'.dataMcastAddr.ip =
        if i ∈ l then (p.clients i).addr.ip else config.dataMcastAddr.ip) := by
  induction l generalizing config with
  | nil => simp
  | cons j l ih =>
    obtain ⟨hframe, hport, hbits, hkeep, hsole⟩ := ih (gatherFrom isPtP p config j)
    simp only [List.foldl_cons]
    by_cases hj : j ∈ p.db.used
    · have hone : gatherFrom isPtP p config j = { config with
          dataMcastAddr :=
            if isPtP then { config.dataMcastAddr with ip := (p.clients j).addr.ip }
            else config.dataMcastAddr
          capabilities := config.capabilities &&& (p.clients j).capabilities } := if_pos hj
      rw [hone] at hframe hport hbits hkeep hsole ⊢
      refine ⟨hframe, hport.trans ?_, fun k => (hbits k).trans ?_, fun hf => (hkeep hf).trans ?_,
        fun ht i hi => (hsole ht i hi).trans ?_⟩
      · dsimp only
        split <;> rfl
      · dsimp only
        rw [and_and_pow_ne_zero, List.forall_mem_cons, and_assoc]
        simp only [hj, true_implies]
      · dsimp only
        rw [hf]
        rfl
      · obtain rfl : j = i := Finset.mem_singleton.mp (hi ▸ hj)
        simp [ht]
    · have hone : gatherFrom isPtP p config j = config := if_neg hj
      rw [hone] at hframe hport hbits hkeep hsole ⊢
      refine ⟨hframe, hport, fun k => (hbits k).trans ?_, hkeep, fun ht i hi => (hsole ht i hi).trans ?_⟩
      · simp [hj]
      · have hne : i ≠ j := fun heq => hj (by rw [hi, heq]; exact Finset.mem_singleton_self j)
        simp [hne]

end Participants

section Transfer

variable {isPtP : Bool}

/-- The sender itself knows the new messages and big-endian numbers. -/
theorem prepare_capabilities (config : NetConfig) (k : ℕ) (hk : k = 0 ∨ k = 3) :
    (prepare config).capabilities &&& 2 ^ k ≠ 0 := by
  rw [prepare_eq]
  dsimp only
  rcases hk with rfl | rfl <;> split <;> decide

/-- Whether there is a single receiver to talk to does not depend on what the session has found
out. -/
theorem isPointToPoint_eq (hn : Negotiated (prepare config) x) (p : Participants) :
    isPointToPoint p x.config = isPointToPoint p config := by
  have hptp : x.config.pointopoint = config.pointopoint := by
    rw [hn.config_eq, prepare_eq]
  have hnoptp : x.config.nopointopoint = config.nopointopoint := by
    rw [hn.config_eq, prepare_eq]
  have hasync : x.config.settings.async = config.settings.async := by
    rw [hn.config_eq, prepare_eq]
    exact startSender_async ..
  simp only [isPointToPoint, hptp, hnoptp, hasync]

/-- In point-to-point mode there is one participant. -/
theorem sole_participant (hvalid : p.db.Valid)
    (hsome : ¬ (config.pointopoint = true ∧ p.db.nrParticipants ≠ 1))
    (hmode : isPointToPoint p config = true) : ∃ i, p.db.used = {i} := by
  have hone : p.db.nrParticipants = 1 := by
    by_contra hne
    unfold isPointToPoint at hmode
    split at hmode
    · rename_i hptp
      exact hsome ⟨hptp, hne⟩
    · split at hmode
      · contradiction
      · exact hne (of_decide_eq_true hmode)
  rw [hvalid.card_eq, Nat.cast_eq_one] at hone
  exact Finset.card_eq_one.mp hone

/-- What a transfer leaves. -/
structure Left (config : NetConfig) (x : Negotiation) (config' : NetConfig) : Prop where
  options : SameOptions config config'
  sn : config'.settings.sn = if x.participants.OldGen then false
    else (Sender.startSender config.settings config.netIf.fullDuplex).sn
  control : config.bcast = true ∨ x.participants.OldGen →
    config'.dataMcastAddr.ip = (controlAddress config).ip
  client : config.bcast = false → ¬ x.participants.OldGen →
    isPointToPoint x.participants config = true → ∃ i, x.participants.db.used = {i} ∧
      config'.dataMcastAddr.ip = (x.participants.clients i).addr.ip
  kept : config.bcast = false → ¬ x.participants.OldGen →
    isPointToPoint x.participants config = false →
      config'.dataMcastAddr.ip = x.config.dataMcastAddr.ip

/-- What `doTransfer` does to the mode and to the data address, by the capabilities that the
receivers share. -/
theorem settle_eq (config : NetConfig) (settings : Settings) (capabilities : ℕ)
    (control data : SockAddr) :
    settle { config with
      settings := settings, capabilities := capabilities, controlMcastAddr := control
      dataMcastAddr := data } = { config with
        settings :=
          if capabilities &&& capNewGen = 0 then Sender.doTransfer settings false else settings
        capabilities := capabilities
        controlMcastAddr := control
        dataMcastAddr :=
          if config.bcast = true ∨ capabilities &&& capNewGen = 0 then control else data } := by
  unfold settle
  by_cases hold : capabilities &&& capNewGen = 0
  · simp only [hold, if_true, or_true]
    split <;> rfl
  · simp only [hold, if_false, or_false]
    split <;> rfl

/-- Changing the mode, the capabilities and the addresses keeps the options. -/
theorem sameOptions_of_settings {settings : Settings} (capabilities : ℕ) (control data : SockAddr)
    (h : settings = { config.settings with sn := settings.sn }) :
    SameOptions config { config with
      settings := settings, capabilities := capabilities, controlMcastAddr := control
      dataMcastAddr := data } := by
  unfold SameOptions
  dsimp only
  rw [← h]

/-- A transfer takes `CAP_NEW_GEN` back exactly if a receiver is of the old generation. -/
theorem gather_newGen (hn : Negotiated (prepare config) x) (isPtP : Bool) :
    ((List.range maxClients).foldl (gatherFrom isPtP x.participants) x.config).capabilities &&&
      capNewGen = 0 ↔ x.participants.OldGen := by
  obtain ⟨-, -, hbits, -, -⟩ := gather_spec isPtP x.participants (List.range maxClients) x.config
  have hcap : x.config.capabilities &&& 2 ^ 0 ≠ 0 := by
    rw [hn.config_eq]
    exact prepare_capabilities config 0 (.inl rfl)
  refine not_iff_not.mp (((hbits 0).trans (and_iff_right hcap)).trans ⟨?_, ?_⟩)
  · rintro hnew ⟨i, hi, hzero⟩
    exact hnew i (List.mem_range.mpr (hn.valid.lt i hi)) hi hzero
  · exact fun hnone i _ hi hzero => hnone ⟨i, hi, hzero⟩

/-- What `doTransfer` leaves behind in the configuration. -/
theorem left_of_transfer (hn : Negotiated (prepare config) x)
    (h : doTransfer x.config x.participants = some config') : Left config x config' := by
  obtain ⟨hsome, h⟩ := Option.ite_none_left_eq_some.mp h
  obtain ⟨-, h⟩ := Option.ite_none_left_eq_some.mp h
  obtain rfl := Option.some.inj h
  have hptp : x.config.pointopoint = config.pointopoint := by
    rw [hn.config_eq, prepare_eq]
  rw [hptp] at hsome
  rw [isPointToPoint_eq hn]
  clear h
  have hold := gather_newGen hn (isPointToPoint x.participants config)
  obtain ⟨hframe, -, -, hkeep, hsole⟩ := gather_spec (isPointToPoint x.participants config)
    x.participants (List.range maxClients) x.config
  generalize (List.range maxClients).foldl
    (gatherFrom (isPointToPoint x.participants config) x.participants) x.config = g at *
  have hg : g = { config with
      settings := Sender.startSender config.settings config.netIf.fullDuplex
      capabilities := g.capabilities
      controlMcastAddr := controlAddress config
      dataMcastAddr := g.dataMcastAddr } := by
    conv_lhs => rw [hframe, hn.config_eq, prepare_eq]
  have hsettings : ∀ b, Sender.startSender config.settings b =
      { config.settings with sn := (Sender.startSender config.settings b).sn } := by
    intro b
    unfold Sender.startSender
    split <;> rfl
  rw [hg, settle_eq]
  simp only [hold]
  by_cases hOld : x.participants.OldGen
  · have hasync : config.settings.async = false := by
      obtain ⟨i, hi, -⟩ := hOld
      by_contra ha
      have hempty := hn.async (by
        rw [prepare_eq]
        exact (startSender_async ..).trans (Bool.not_eq_false _ ▸ ha))
      simp [hempty] at hi
    have hlost : Sender.doTransfer
        (Sender.startSender config.settings config.netIf.fullDuplex) false =
          { config.settings with sn := false } := by
      unfold Sender.doTransfer
      rw [hsettings, if_neg (by simp), ← hasync]
    simp only [hOld, if_true, or_true, hlost]
    exact ⟨sameOptions_of_settings _ _ _ rfl, (if_pos hOld).symm, fun _ => rfl,
      fun _ hnew => absurd hOld hnew, fun _ hnew => absurd hOld hnew⟩
  · simp only [hOld, if_false, or_false]
    refine ⟨sameOptions_of_settings _ _ _ (hsettings _), (if_neg hOld).symm, fun hb => ?_,
      fun hb _ hmode => ?_, fun hb _ hmode => ?_⟩
    · rw [if_pos (hb.resolve_right hOld)]
    · obtain ⟨i, hi⟩ := sole_participant hn.valid hsome hmode
      have hmem : i ∈ List.range maxClients :=
        List.mem_range.mpr (hn.valid.lt i (hi ▸ Finset.mem_singleton_self i))
      refine ⟨i, hi, ?_⟩
      rw [if_neg (by simp [hb])]
      exact (hsole hmode i hi).trans (if_pos hmem)
    · rw [if_neg (by simp [hb])]
      exact hkeep hmode

end Transfer

section Sessions

/-- To settle the data address twice is to settle it once. -/
theorem startIp_startIp (config : NetConfig) (ip : ℕ) :
    config.startIp (config.startIp ip) = config.startIp ip := by
  unfold NetConfig.startIp
  split
  · split <;> rfl
  · rfl

/-- A session starts with the same data address as another one if the address it finds leads to
the same. -/
theorem SameOptions.dataIp (h : SameOptions config config') :
    config'.dataIp = config.dataIp ↔ (config.pointopoint = false →
      config.startIp config'.dataMcastAddr.ip = config.startIp config.dataMcastAddr.ip) := by
  have hptp : config'.pointopoint = config.pointopoint := by rw [h]
  have hstart : config'.startIp = config.startIp := by
    rw [h]
    rfl
  unfold NetConfig.dataIp
  rw [hptp, hstart]
  cases config.pointopoint <;> simp

/-- A transfer leaves the address and the mode of a fresh start exactly if it leaves nothing. -/
theorem leavesNothing_iff (h : Left config x config') (hkeep : config.pointopoint = false →
      x.config.dataMcastAddr.ip = config.startIp config.dataMcastAddr.ip) :
    ((config.pointopoint = false →
        config.startIp config'.dataMcastAddr.ip = config.startIp config.dataMcastAddr.ip) ∧
      (Sender.startSender config'.settings config.netIf.fullDuplex).sn =
        (Sender.startSender config.settings config.netIf.fullDuplex).sn) ↔
      LeavesNothing config x.participants := by
  have hnotSn : config'.settings.notSn = config.settings.notSn := by rw [h.options]
  have hmode : (Sender.startSender config'.settings config.netIf.fullDuplex).sn =
      (Sender.startSender config.settings config.netIf.fullDuplex).sn ↔
        (x.participants.OldGen → config.settings.sn = true →
          config.settings.notSn = false ∧ config.netIf.fullDuplex = true) := by
    have hsn := h.sn
    rw [startSender_sn] at hsn ⊢
    rw [hnotSn, hsn, startSender_sn]
    by_cases hold : x.participants.OldGen
    · rw [if_pos hold]
      simp only [hold, true_implies]
      cases config.settings.sn <;> cases config.settings.notSn <;>
        cases config.netIf.fullDuplex <;> decide
    · rw [if_neg hold]
      simp only [hold, false_implies]
      cases config.settings.sn <;> cases config.settings.notSn <;>
        cases config.netIf.fullDuplex <;> decide
  rw [hmode]
  constructor
  · rintro ⟨haddr, hsn⟩
    refine ⟨fun hptp hcontrol => ?_, fun hptp hb hold hsole i hi => ?_, hsn⟩
    · rw [← h.control hcontrol]
      exact haddr hptp
    · obtain ⟨k, hk, hip⟩ := h.client hb hold hsole
      obtain rfl := Finset.mem_singleton.mp (hk ▸ hi)
      rw [← hip]
      exact haddr hptp
  · rintro ⟨hcontrol, hclient, hsn⟩
    refine ⟨fun hptp => ?_, hsn⟩
    by_cases hctl : config.bcast = true ∨ x.participants.OldGen
    · rw [h.control hctl]
      exact hcontrol hptp hctl
    · obtain ⟨hb, hold⟩ := not_or.mp hctl
      have hb' := Bool.eq_false_iff.mpr hb
      cases hsole : isPointToPoint x.participants config
      · rw [h.kept hb' hold hsole, hkeep hptp, startIp_startIp]
      · obtain ⟨k, hk, hip⟩ := h.client hb' hold hsole
        rw [hip]
        exact hclient hptp hb' hold hsole k (hk ▸ Finset.mem_singleton_self k)

/-- A session that finds the start of a fresh one leaves it if and only if it is neutral. -/
theorem neutral_iff (h : (startSender config s).2 = some config') :
    SameOptions config config' ∧ (prepare config' = prepare config ↔ s.Neutral config) := by
  have hn := negotiated (prepare config) s.events
  have hprepared : (prepare config).dataMcastAddr.ip = config.dataIp := by rw [prepare_eq]
  have hkeep : config.pointopoint = false →
      (negotiate (prepare config) s.events).config.dataMcastAddr.ip =
        config.startIp config.dataMcastAddr.ip := by
    intro hptp
    rw [hn.ip (by rw [prepare_eq]; exact hptp), hprepared, NetConfig.dataIp,
      if_neg (by simp [hptp])]
  have hsn : ∀ b, (Sender.startSender (Sender.startSender config.settings b) b).sn =
      (Sender.startSender config.settings b).sn := by
    intro b
    unfold Sender.startSender
    split <;> rfl
  unfold startSender at h
  dsimp only at h
  unfold Session.Neutral
  dsimp only
  generalize negotiate (prepare config) s.events = x at *
  split at h
  · rename_i htransfers
    have hleft := left_of_transfer hn h
    refine ⟨hleft.options, ?_⟩
    rw [prepare_eq_iff hleft.options, hleft.options.dataIp, leavesNothing_iff hleft hkeep]
    exact ⟨fun hnothing _ => hnothing, fun hneutral => hneutral htransfers⟩
  · rename_i hnone
    obtain rfl := Option.some.inj h
    have hsame : SameOptions config x.config := by
      rw [hn.config_eq, prepare_eq]
      apply sameOptions_of_settings _ _ _
      unfold Sender.startSender
      split <;> rfl
    refine ⟨hsame, ?_⟩
    rw [prepare_eq_iff hsame, hsame.dataIp]
    refine iff_of_true ⟨fun hptp => ?_, ?_⟩ (absurd · hnone)
    · rw [hkeep hptp, startIp_startIp]
    · rw [hn.config_eq, prepare_eq]
      exact hsn _

end Sessions

section Probe

/-- Async and point-to-point mode exclude each other. -/
theorem readOptions_exclusive {netIf : NetIf} {options : List NetOption}
    (hc : readOptions netIf options = some config) :
    ¬ (config.settings.async = true ∧ config.pointopoint = true) := by
  obtain ⟨c, -, h⟩ := Option.bind_eq_some_iff.mp hc
  obtain ⟨hexclusive, h⟩ := Option.ite_none_left_eq_some.mp h
  obtain ⟨-, h⟩ := Option.ite_none_left_eq_some.mp h
  obtain ⟨-, h⟩ := Option.ite_none_left_eq_some.mp h
  obtain rfl := Option.some.inj h
  exact hexclusive

/-- Only the check for a single participant can stop the sender: every participant has
`CAP_BIG_ENDIAN`. -/
theorem doTransfer_isSome (hn : Negotiated (prepare config) x)
    (hsole : ¬ (config.pointopoint = true ∧ x.participants.db.nrParticipants ≠ 1)) :
    (doTransfer x.config x.participants).isSome = true := by
  have hptp : x.config.pointopoint = config.pointopoint := by
    rw [hn.config_eq, prepare_eq]
  have hbig : ((List.range maxClients).foldl
      (gatherFrom (isPointToPoint x.participants x.config) x.participants)
        x.config).capabilities &&& capBigEndian ≠ 0 := by
    obtain ⟨-, -, hbits, -, -⟩ := gather_spec (isPointToPoint x.participants x.config)
      x.participants (List.range maxClients) x.config
    refine (hbits 3).mpr ⟨?_, fun i _ hi => hn.bigEndian i hi⟩
    rw [hn.config_eq]
    exact prepare_capabilities config 3 (.inr rfl)
  unfold doTransfer
  rw [hptp, if_neg hsole]
  dsimp only
  rw [if_neg hbig]
  rfl

/-- A session with one receiver of the new generation. -/
def probe : Session := ⟨[.connectReq ⟨1, 0⟩ capNewGen], true⟩

/-- The first receiver gets the first number. -/
theorem addParticipant_empty (addr : SockAddr) (capabilities : ℕ) (pointopoint : Bool) :
    (addParticipant .empty addr capabilities pointopoint).2 =
      { db := ⟨1, {0}⟩
        clients := Function.update Participants.empty.clients 0 ⟨addr, capabilities⟩ } := by
  have hlookup : lookupParticipant .empty addr = none := by
    unfold lookupParticipant
    exact List.find?_eq_none.mpr (by simp [Participants.empty])
  have hfree : (if pointopoint then [0] else List.range maxClients).find?
      (· ∉ Participants.empty.db.used) = some 0 := by
    cases pointopoint <;> decide +kernel
  unfold addParticipant
  rw [hlookup]
  dsimp only
  rw [hfree]
  rfl

/-- It shows the mode in which it starts. -/
theorem probe_transfer (hmode : ¬ (config.settings.async = true ∧ config.pointopoint = true)) :
    ∃ r, (startSender config probe).1.transfer = some r ∧
      r.settings.sn = (Sender.startSender config.settings config.netIf.fullDuplex).sn := by
  have hn := negotiated (prepare config) probe.events
  have hasync : (prepare config).settings.async = config.settings.async := by
    rw [prepare_eq]
    exact startSender_async ..
  have hptp : (prepare config).pointopoint = config.pointopoint := by rw [prepare_eq]
  have hcases : (config.settings.async = true ∧
      (negotiate (prepare config) probe.events).participants = .empty) ∨
        (config.settings.async = false ∧
          (negotiate (prepare config) probe.events).participants =
            { db := ⟨1, {0}⟩
              clients := Function.update Participants.empty.clients 0
                ⟨⟨1, 0⟩, capBigEndian ||| capNewGen⟩ }) := by
    cases ha : config.settings.async
    · refine .inr ⟨rfl, ?_⟩
      have hstep : negotiate (prepare config) probe.events =
          sendConnectionReply (sendHello ⟨prepare config, .empty, []⟩) ⟨1, 0⟩
            (capBigEndian ||| capNewGen) :=
        if_neg (by
          change ¬ (prepare config).settings.async = true
          simp [hasync, ha])
      rw [hstep]
      simp only [sendConnectionReply, sendHello]
      exact addParticipant_empty _ _ _
    · refine .inl ⟨rfl, ?_⟩
      have hstep : negotiate (prepare config) probe.events =
          sendHello ⟨prepare config, .empty, []⟩ :=
        if_pos (hasync.trans ha)
      rw [hstep]
      rfl
  have hconfig : (negotiate (prepare config) probe.events).config.settings.async =
      config.settings.async := by rw [hn.config_eq, hasync]
  unfold startSender
  dsimp only
  generalize negotiate (prepare config) probe.events = x at *
  have hnew : ¬ x.participants.OldGen := by
    rcases hcases with ⟨-, hp⟩ | ⟨-, hp⟩ <;> rw [hp] <;> decide
  have htransfers : Transfers x probe := by
    rcases hcases with ⟨ha, -⟩ | ⟨-, hp⟩
    · exact ⟨rfl, .inl (hconfig.trans ha)⟩
    · exact ⟨rfl, .inr (by rw [hp]; decide)⟩
  have hsole : ¬ (config.pointopoint = true ∧ x.participants.db.nrParticipants ≠ 1) := by
    rintro ⟨hp, hne⟩
    rcases hcases with ⟨ha, -⟩ | ⟨-, hone⟩
    · exact hmode ⟨ha, hp⟩
    · exact hne (by rw [hone])
  obtain ⟨r, hr⟩ := Option.isSome_iff_exists.mp (doTransfer_isSome hn hsole)
  rw [if_pos htransfers]
  exact ⟨r, hr, (left_of_transfer hn hr).sn.trans (if_neg hnew)⟩

/-- A session without events sends one HELLO, which shows the capabilities and the data address.
-/
theorem outcome_hello (config : NetConfig) : (startSender config ⟨[], false⟩).1.sent =
    [.hello (prepare config).capabilities config.dataIp config.settings.blockSize] := by
  have hnone : ¬ Transfers (negotiate (prepare config) []) ⟨[], false⟩ := fun h => nomatch h.1
  unfold startSender
  dsimp only
  rw [if_neg hnone]
  have hip : (prepare config).dataMcastAddr.ip = config.dataIp := by rw [prepare_eq]
  have hsize : (prepare config).settings.blockSize = config.settings.blockSize := by
    rw [prepare_eq]
    unfold Sender.startSender
    split <;> rfl
  simp only [negotiate, List.foldl_nil, sendHello, List.nil_append, hip, hsize]

/-- All sessions are like those of a fresh process exactly if they start like them. -/
theorem outcome_eq_iff (hmode : ¬ (config.settings.async = true ∧ config.pointopoint = true))
    (h : SameOptions config config') :
    (∀ s, (startSender config' s).1 = (startSender config s).1) ↔
      prepare config' = prepare config := by
  constructor
  · intro hsame
    have hhello := congrArg Outcome.sent (hsame ⟨[], false⟩)
    rw [outcome_hello, outcome_hello] at hhello
    have hip : config'.dataIp = config.dataIp := by
      injection (List.cons.inj hhello).1
    have hmode' : ¬ (config'.settings.async = true ∧ config'.pointopoint = true) := by
      rwa [h]
    have hif : config'.netIf = config.netIf := by rw [h]
    obtain ⟨r, hr, hsn⟩ := probe_transfer hmode
    obtain ⟨r', hr', hsn'⟩ := probe_transfer hmode'
    rw [hsame probe, hr] at hr'
    obtain rfl := Option.some.inj hr'
    exact (prepare_eq_iff h).mpr ⟨hip, by rw [← hif, ← hsn', hsn, hif]⟩
  · intro hsame s
    unfold startSender
    rw [hsame]

end Probe

section Daemon

/-- A session depends on the configuration only through what `startSender` prepares. -/
theorem startSender_congr (h : prepare config' = prepare config) (s : Session) :
    startSender config' s = startSender config s := by
  unfold startSender
  rw [h]

/-- Two sessions one after the other keep the options. -/
theorem SameOptions.trans {mid : NetConfig} (h : SameOptions config mid)
    (h' : SameOptions mid config') : SameOptions config config' := by
  unfold SameOptions at h h' ⊢
  conv_lhs => rw [h', h]

/-- So does any number of them. -/
theorem carried_sameOptions (l : List Session) (h : carried config l = some config') :
    SameOptions config config' := by
  induction l generalizing config with
  | nil =>
    obtain rfl := Option.some.inj h
    rfl
  | cons s l ih =>
    obtain ⟨mid, hmid, hrest⟩ := Option.bind_eq_some_iff.mp h
    exact (neutral_iff hmid).1.trans (ih hrest)

/-- All sessions start like fresh ones exactly if all before them are neutral. -/
theorem starts_iff (l : List Session) (hstart : prepare config' = prepare config)
    (hl : (carried config' l).isSome = true) :
    (∀ l₁ c, l₁ <+: l → carried config' l₁ = some c → prepare c = prepare config) ↔
      ∀ s ∈ l, s.Neutral config := by
  induction l generalizing config' with
  | nil =>
    refine iff_of_true (fun l₁ c hprefix hc => ?_) (by simp)
    obtain rfl := List.prefix_nil.mp hprefix
    obtain rfl := Option.some.inj hc
    exact hstart
  | cons s l ih =>
    obtain ⟨final, hfinal⟩ := Option.isSome_iff_exists.mp hl
    obtain ⟨mid, hbind, hrest⟩ := Option.bind_eq_some_iff.mp hfinal
    have hmid : (startSender config' s).2 = some mid := hbind
    have hcons : ∀ l₁, carried config' (s :: l₁) = carried mid l₁ := fun l₁ => by
      change (startSender config' s).2.bind _ = _
      rw [hmid]
      rfl
    rw [startSender_congr hstart] at hmid
    obtain ⟨-, hneutral⟩ := neutral_iff hmid
    rw [List.forall_mem_cons]
    constructor
    · intro hall
      have hmid' : prepare mid = prepare config :=
        hall [s] mid ⟨l, rfl⟩ ((hcons []).trans rfl)
      refine ⟨hneutral.mp hmid', (ih hmid' (Option.isSome_of_eq_some hrest)).mp ?_⟩
      intro l₁ c hprefix hc
      exact hall (s :: l₁) c (List.cons_prefix_cons.mpr ⟨rfl, hprefix⟩) ((hcons l₁).trans hc)
    · rintro ⟨hs, hl'⟩
      have hmid' := hneutral.mpr hs
      have hall := (ih hmid' (Option.isSome_of_eq_some hrest)).mpr hl'
      intro l₁ c hprefix hc
      cases l₁ with
      | nil =>
        obtain rfl := Option.some.inj hc
        exact hstart
      | cons s' l₁ =>
        obtain ⟨rfl, hprefix'⟩ := List.cons_prefix_cons.mp hprefix
        exact hall l₁ c hprefix' ((hcons l₁).symm.trans hc)

/-- For every command line and every sequence of sessions: each session that may follow is as
one of a fresh process exactly if all sessions before it are neutral. -/
theorem independent_iff {netIf : NetIf} {options : List NetOption} {l : List Session}
    (hc : readOptions netIf options = some config) (hl : (carried config l).isSome = true) :
    Independent config l ↔ ∀ s ∈ l, s.Neutral config := by
  rw [← starts_iff l rfl hl]
  have hmode := readOptions_exclusive hc
  exact forall₄_congr fun l₁ c _ hcarried => outcome_eq_iff hmode (carried_sameOptions l₁ hcarried)

/-- The interface with the address `192.168.0.1`. -/
def interface : NetIf := ⟨0xc0a80001, 0xc0a800ff, false⟩

/-- `udp-sender` without options. -/
def plainConfig : NetConfig := (readOptions interface []).getD (.default interface)

/-- A transfer to receivers with the given last bytes of their addresses. -/
def transferTo (clients : List ℕ) : Session :=
  ⟨clients.map fun n => .connectReq ⟨0xc0a80000 + n, 9001⟩ capNewGen, true⟩

/-- Sessions with two receivers leave nothing. -/
theorem independent_pairs : Independent plainConfig [transferTo [2, 3], transferTo [4, 5]] := by
  have hneutral : ∀ clients, (let p := (negotiate (prepare plainConfig)
      (transferTo clients).events).participants
      isPointToPoint p plainConfig = false ∧ ¬ p.OldGen) →
        (transferTo clients).Neutral plainConfig := by
    rintro clients ⟨hmode, hnew⟩ -
    exact {
      control := fun _ h => (h.resolve_left (by decide)).elim fun i hi => absurd ⟨i, hi⟩ hnew
      client := fun _ _ _ h => absurd (hmode.symm.trans h) (by decide)
      mode := fun h => absurd h hnew }
  have hc : readOptions interface [] = some plainConfig := rfl
  apply (independent_iff hc (by decide +kernel)).mpr
  rintro s hs
  rcases List.mem_pair.mp hs with rfl | rfl
  · exact hneutral _ (by decide +kernel)
  · exact hneutral _ (by decide +kernel)

/-- After a session with the single receiver `192.168.0.2` the next HELLO announces its address
for the data, not the multicast address `232.168.0.1`. -/
theorem not_independent : ¬ ∀ netIf options config l, readOptions netIf options = some config →
    (carried config l).isSome = true → Independent config l := by
  intro hclaim
  have hrun : (carried plainConfig [transferTo [2]]).any fun config' =>
      (startSender config' ⟨[], false⟩).1.sent ≠
        (startSender plainConfig ⟨[], false⟩).1.sent := by
    decide +kernel
  obtain ⟨config', hcarried, hne⟩ := (Option.any_eq_true _ _).mp hrun
  have hsame := hclaim interface [] plainConfig [transferTo [2]] rfl
    (Option.isSome_of_eq_some hcarried) _ config' List.prefix_rfl hcarried ⟨[], false⟩
  exact of_decide_eq_true hne (congrArg Outcome.sent hsame)

end Daemon

end Udpcast.Negotiate
