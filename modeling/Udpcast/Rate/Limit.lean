import Udpcast.Rate.Speed
import Udpcast.Lib.System
import Udpcast.Lib.Word
import Mathlib.Data.Rat.Cast.Order
import Mathlib.Tactic.FieldSimp
import Mathlib.Tactic.Linarith

/-!
# The bitrate limiter

`doRateLimit` of `rate-limit.c` on exact numbers. It credits the queue with whole bytes and
moves its date by whole microseconds; the two agree unless the microseconds are rounded off
further than the bytes.
-/

namespace Udpcast.Rate

/-- `LLMILLION`. -/
def llMillion : ℕ := 1000000

/-- `struct rate_limit`. -/
structure RateLimit where
  date : ℕ
  realDate : ℕ
  bitrate : ℕ
  queueSize : ℕ
  deriving DecidableEq

/-- `allocRateLimit` at the time `now`. -/
def allocRateLimit (now : ℕ) : RateLimit := ⟨now, 0, 0, 0⟩

/-- `setProp` for `MAX_BITRATE`. -/
def setProp (w : ℕ) (r : RateLimit) (bitrate : CString) : Except SpeedError RateLimit :=
  (parseSpeed w false bitrate).map fun speed => { r with bitrate := speed }

/-- The bits that fit in the time since the date of the queue. -/
def RateLimit.bits (r : RateLimit) (now : ℕ) : ℕ := (now - r.date) * r.bitrate / llMillion

/-- The time for `usleep`, if it is called. -/
def RateLimit.sleepTime (r : RateLimit) : Option ℤ :=
  let sleepTime : ℤ := toInt (r.queueSize * 8 * llMillion / r.bitrate)
  if 40000 < sleepTime ∨ 100000 ≤ r.queueSize then
    some (sleepTime - 10000 - (sleepTime - 10000).tmod 10000)
  else none

/-- `doRateLimit` for a packet of `size` bytes at the time `now`, with its call of `usleep`. -/
def doRateLimit (r : RateLimit) (now size : ℕ) : RateLimit × Option ℤ :=
  let bits := r.bits now
  let size := size + 28
  if r.queueSize * 8 ≤ bits then ({ r with queueSize := size, date := now }, none)
  else
    let r := { r with
      queueSize := r.queueSize - bits / 8
      date := r.date + bits * llMillion / r.bitrate
      realDate := now }
    ({ r with queueSize := r.queueSize + size }, r.sleepTime)

/-- A limiter in use. -/
structure State where
  limit : RateLimit
  /-- The last reading of the clock. -/
  clock : ℕ
  /-- History: the time when the queue was reset, and the bits sent since, with that packet. -/
  resetAt : ℕ
  sent : ℕ
  deriving DecidableEq

/-- A call of `doRateLimit`. -/
structure Call where
  now : ℕ
  size : ℕ

/-- The limiter before the first packet. -/
def Starts (s : State) : Prop :=
  1 ≤ s.limit.bitrate ∧ ∃ now, s = ⟨{ allocRateLimit now with bitrate := s.limit.bitrate }, now, now, 0⟩

/-- A call at a time that is not before the last one. -/
def act (s : State) (c : Call) : Option State :=
  if s.clock ≤ c.now then
    let bits := 8 * (c.size + 28)
    let reset : Bool := s.limit.queueSize * 8 ≤ s.limit.bits c.now
    some {
      limit := (doRateLimit s.limit c.now c.size).1
      clock := c.now
      resetAt := if reset then c.now else s.resetAt
      sent := if reset then bits else s.sent + bits }
  else none

/-- All sequences of calls. -/
def system : System State := .ofActions Starts act

/-- The queue holds at least what was sent and the elapsed time does not allow. -/
def Covers (s : State) : Prop :=
  (s.sent : ℚ) - (s.limit.bitrate * (s.clock - s.resetAt) : ℚ) / 10 ^ 6 ≤ 8 * s.limit.queueSize

/-- The microseconds by which the date moves are worth the bytes that leave the queue: what is
lost in them is lost in the bytes as well. -/
def Accounted (s s' : State) : Prop :=
  let bits := s.limit.bits s'.clock
  bits < s.limit.queueSize * 8 → bits * llMillion % s.limit.bitrate ≤ bits % 8 * llMillion

variable {s s' : State} {c : Call} {r : RateLimit} {now size : ℕ}

section Steps

/-- The limiter is only ever given a bitrate that is not 0, so nothing is divided by 0. -/
theorem setProp_bitrate {w : ℕ} {bitrate : CString} {r' : RateLimit}
    (h : setProp w r bitrate = .ok r') : 1 ≤ r'.bitrate := by
  unfold setProp at h
  cases hspeed : parseSpeed w false bitrate with
  | error e =>
    rw [hspeed] at h
    cases h
  | ok speed =>
    rw [hspeed] at h
    obtain rfl := Except.ok.inj h
    obtain ⟨digits, unit, hsays⟩ := (parseSpeed_ok_iff w bitrate speed).mp hspeed
    exact hsays.pos

/-- The time credited is worth the bytes credited exactly if the step is accounted for. -/
theorem credit_iff {bits bitrate : ℕ} :
    8 * (bits / 8) * llMillion ≤ bitrate * (bits * llMillion / bitrate) ↔
      bits * llMillion % bitrate ≤ bits % 8 * llMillion := by
  have htime := Nat.div_add_mod (bits * llMillion) bitrate
  have hbytes := Nat.div_add_mod bits 8
  have hsplit : bits * llMillion = 8 * (bits / 8) * llMillion + bits % 8 * llMillion := by
    rw [← Nat.add_mul, hbytes]
  omega

/-- The condition on the queue in whole numbers, without the division by the number of
microseconds in a second. -/
theorem covers_iff (hle : s.resetAt ≤ s.clock) : Covers s ↔
    s.sent * llMillion ≤ 8 * s.limit.queueSize * llMillion +
      s.limit.bitrate * (s.clock - s.resetAt) := by
  unfold Covers
  rw [sub_le_iff_le_add, ← Nat.cast_sub hle, add_div_eq_mul_add_div _ _ (by norm_num),
    le_div_iff₀ (by norm_num)]
  have hmillion : (10 : ℚ) ^ 6 = (llMillion : ℕ) := by norm_num [llMillion]
  rw [hmillion]
  exact_mod_cast Iff.rfl

/-- The date of the queue lies between the reset and now, and everything sent is in the queue
or was credited up to the date. -/
structure Backlog (s : State) : Prop where
  bitrate_pos : 1 ≤ s.limit.bitrate
  reset_le : s.resetAt ≤ s.limit.date
  date_le : s.limit.date ≤ s.clock
  credited : s.sent * llMillion ≤ 8 * s.limit.queueSize * llMillion +
    s.limit.bitrate * (s.limit.date - s.resetAt)

/-- A limiter with a backlog covers what has been sent. -/
theorem Backlog.covers (h : Backlog s) : Covers s := by
  refine (covers_iff (h.reset_le.trans h.date_le)).mpr (h.credited.trans ?_)
  have hdate := h.date_le
  have hmono : s.limit.bitrate * (s.limit.date - s.resetAt) ≤
      s.limit.bitrate * (s.clock - s.resetAt) := Nat.mul_le_mul_left _ (by omega)
  omega

/-- The limiter starts with an empty queue, and nothing has been sent. -/
theorem backlog_start (h : Starts s) : Backlog s := by
  obtain ⟨hpos, now, heq⟩ := h
  refine ⟨hpos, ?_, ?_, ?_⟩ <;> rw [heq] <;> simp [allocRateLimit]

/-- The date never passes the clock. -/
theorem advance_le : r.bits now * llMillion / r.bitrate ≤ now - r.date := by
  apply Nat.div_le_of_le_mul
  rw [Nat.mul_comm r.bitrate]
  exact Nat.div_mul_le_self _ _

/-- What a call does: it resets the queue, or it credits the elapsed time and adds the packet. -/
theorem act_ok (hact : act s c = some s') : s.clock ≤ c.now ∧ s'.clock = c.now ∧
    (s.limit.queueSize * 8 ≤ s.limit.bits c.now ∧
      s'.limit = { s.limit with queueSize := c.size + 28, date := c.now } ∧
      s'.resetAt = c.now ∧ s'.sent = 8 * (c.size + 28) ∨
    s.limit.bits c.now < s.limit.queueSize * 8 ∧
      s'.limit = { s.limit with
        queueSize := s.limit.queueSize - s.limit.bits c.now / 8 + (c.size + 28)
        date := s.limit.date + s.limit.bits c.now * llMillion / s.limit.bitrate
        realDate := c.now } ∧
      s'.resetAt = s.resetAt ∧ s'.sent = s.sent + 8 * (c.size + 28)) := by
  unfold act at hact
  split at hact
  · rename_i hclock
    obtain rfl := Option.some.inj hact
    refine ⟨hclock, rfl, ?_⟩
    unfold doRateLimit
    by_cases hreset : s.limit.queueSize * 8 ≤ s.limit.bits c.now
    · exact .inl ⟨hreset, by simp [hreset]⟩
    · exact .inr ⟨not_le.mp hreset, by simp [hreset]⟩
  · cases hact

/-- A call whose credit is accounted for keeps the backlog. -/
theorem Backlog.act (h : Backlog s) (hact : act s c = some s') (haccounted : Accounted s s') :
    Backlog s' := by
  obtain ⟨hclock, hnow, ⟨-, hlimit, hreset, hsent⟩ | ⟨hbusy, hlimit, hreset, hsent⟩⟩ := act_ok hact
  · refine ⟨?_, ?_, ?_, ?_⟩
    · rw [hlimit]
      exact h.bitrate_pos
    · rw [hlimit, hreset]
    · rw [hlimit, hnow]
    · rw [hlimit, hsent]
      exact Nat.le_add_right _ _
  · have hcredit := credit_iff.mpr (hnow ▸ haccounted (hnow ▸ hbusy))
    have hadvance := @advance_le s.limit c.now
    have hreset_le := h.reset_le
    have hdate_le := h.date_le
    have hcredited := h.credited
    generalize hbits : s.limit.bits c.now = bits at *
    generalize hgain : bits * llMillion / s.limit.bitrate = gain at *
    refine ⟨?_, ?_, ?_, ?_⟩
    · rw [hlimit]
      exact h.bitrate_pos
    · rw [hlimit, hreset]
      exact hreset_le.trans (Nat.le_add_right _ _)
    · rw [hlimit, hnow]
      dsimp only
      omega
    · have hspan : s.limit.bitrate * (s.limit.date + gain - s.resetAt) =
          s.limit.bitrate * (s.limit.date - s.resetAt) + s.limit.bitrate * gain := by
        rw [← Nat.mul_add]
        congr 1
        omega
      have hqueue : 8 * (s.limit.queueSize - bits / 8 + (c.size + 28)) + 8 * (bits / 8) =
          8 * s.limit.queueSize + 8 * (c.size + 28) := by omega
      have hscaled := congrArg (· * llMillion) hqueue
      rw [hlimit, hreset, hsent]
      dsimp only at hscaled ⊢
      rw [hspan]
      simp only [Nat.add_mul] at hscaled ⊢
      omega

end Steps

section Runs

/-- In the sequences of calls all of which are accounted for, the queue never understates what
was sent. -/
theorem covers_of_accounted (h : (system.restrict Accounted).Reachable s) : Covers s := by
  have hbacklog : Backlog s := by
    refine h.invariant (fun _ => backlog_start) ?_
    rintro s s' hs ⟨⟨c, hact⟩, haccounted⟩
    exact hs.act hact haccounted
  exact hbacklog.covers

instance (s s' : State) : Decidable (Accounted s s') := inferInstanceAs (Decidable (_ → _))

/-- A new limiter. -/
def fresh (bitrate : ℕ) : State := ⟨{ allocRateLimit 0 with bitrate := bitrate }, 0, 0, 0⟩

/-- A new limiter with a bitrate is one that starts. -/
theorem starts_fresh {bitrate : ℕ} (h : 1 ≤ bitrate) : Starts (fresh bitrate) := ⟨h, 0, rfl⟩

/-- Three packets at 8 Mbit/s. -/
theorem covers_of_accounted_megabits : ∃ s, (system.restrict Accounted).Reachable s ∧
    s.limit.queueSize = 234 ∧ Covers s := by
  have hrun : (System.perform (System.guarded act Accounted) (fresh 8000000)
      [⟨0, 100⟩, ⟨100, 100⟩, ⟨150, 100⟩]).any fun s => s.limit.queueSize = 234 := by
    decide +kernel
  obtain ⟨s, hs, hlast⟩ := (Option.any_eq_true _ _).mp hrun
  have hreach : (system.restrict Accounted).Reachable s :=
    ⟨_, starts_fresh (by decide), System.restrict_run_of_perform hs⟩
  exact ⟨s, hreach, of_decide_eq_true hlast, covers_of_accounted hreach⟩

/-- At 8.5 Mbit/s two packets in the same microsecond are credited the same eight bits. -/
theorem not_covers : ¬ ∀ s, system.Reachable s → Covers s := by
  intro hclaim
  have hrun : (System.perform act (fresh 8500000) [⟨0, 0⟩, ⟨1, 0⟩, ⟨1, 0⟩]).any fun s =>
      s.resetAt ≤ s.clock ∧ 8 * s.limit.queueSize * llMillion +
        s.limit.bitrate * (s.clock - s.resetAt) < s.sent * llMillion := by
    decide +kernel
  obtain ⟨s, hs, hlast⟩ := (Option.any_eq_true _ _).mp hrun
  obtain ⟨hle, hover⟩ := of_decide_eq_true hlast
  have hreach : system.Reachable s := ⟨_, starts_fresh (by decide), System.run_of_perform hs⟩
  exact absurd ((covers_iff hle).mp (hclaim s hreach)) (not_le.mpr hover)

end Runs

end Udpcast.Rate
