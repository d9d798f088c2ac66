import Udpcast.Sender.Messages
import Udpcast.Receiver.Acknowledging
import Mathlib.Data.List.TakeWhile

/-!
# From the input to the output

A sender without FEC and a receiver in default mode. The receiver gets any messages that the sender
has sent, any number of times and in any order, and each side runs its threads in any interleaving.
-/

namespace Udpcast.Session

open Fec (Gf)
open Protocol

/-- The slices up to the first empty one. -/
def fullCuts (cuts : List ℕ) : List ℕ := cuts.takeWhile (· ≠ 0)

/-- Only the last slice can be empty. -/
theorem fullCuts_eq {cuts : List ℕ} (h : ∀ k, k + 1 < cuts.length → cuts.getD k 0 ≠ 0) :
    fullCuts cuts = cuts ∨ fullCuts cuts ++ [0] = cuts := by
  unfold fullCuts
  induction cuts with
  | nil => exact .inl rfl
  | cons bytes cuts ih =>
    rcases Nat.eq_zero_or_pos bytes with rfl | hpos
    · cases cuts with
      | nil => exact .inr rfl
      | cons bytes' cuts => exact absurd rfl (h 0 (by simp))
    · rw [List.takeWhile_cons_of_pos (by simp [hpos.ne'])]
      have hrest := ih fun k hk => h (k + 1) (by simpa using hk)
      exact hrest.imp (congrArg _) (congrArg _)

/-- Leaving the empty slice out changes the size of no other slice. -/
theorem getD_fullCuts {cuts : List ℕ} (h : ∀ k, k + 1 < cuts.length → cuts.getD k 0 ≠ 0) (n : ℕ) :
    (fullCuts cuts).getD n 0 = cuts.getD n 0 := by
  obtain heq | heq := fullCuts_eq h
  · rw [heq]
  · have hget : (fullCuts cuts ++ [0]).getD n 0 = (fullCuts cuts).getD n 0 := by
      rcases Nat.lt_or_ge n (fullCuts cuts).length with hlt | hge
      · exact List.getD_append _ _ _ _ hlt
      · rw [List.getD_append_right _ _ _ _ hge, List.getD_eq_default _ _ hge]
        cases n - (fullCuts cuts).length <;> rfl
    rw [← hget, heq]

/-- One slice at most is left out. -/
theorem length_le_fullCuts {cuts : List ℕ} (h : ∀ k, k + 1 < cuts.length → cuts.getD k 0 ≠ 0) :
    cuts.length ≤ (fullCuts cuts).length + 1 := by
  obtain heq | heq := fullCuts_eq h
  · rw [heq]
    exact Nat.le_succ _
  · rw [← congrArg List.length heq, List.length_append, List.length_singleton]

/-- The slices that stay start where they did. -/
theorem startOf_fullCuts {cuts : List ℕ} (h : ∀ k, k + 1 < cuts.length → cuts.getD k 0 ≠ 0) {n : ℕ}
    (hn : n ≤ (fullCuts cuts).length) :
    Sender.startOf (fullCuts cuts) n = Sender.startOf cuts n := by
  obtain heq | heq := fullCuts_eq h
  · rw [heq]
  · have hstart : Sender.startOf (fullCuts cuts ++ [0]) n = Sender.startOf (fullCuts cuts) n :=
      Sender.startOf_append hn
    rw [heq] at hstart
    exact hstart.symm

/-- No byte is left out. -/
theorem sum_fullCuts {cuts : List ℕ} (h : ∀ k, k + 1 < cuts.length → cuts.getD k 0 ≠ 0) :
    (fullCuts cuts).sum = cuts.sum := by
  obtain heq | heq := fullCuts_eq h
  · rw [heq]
  · rw [← congrArg List.sum heq, List.sum_append, List.sum_singleton, Nat.add_zero]

/-- What a sender without FEC has cut so far. -/
def stream (t : Sender.State) : Stream := ⟨t.input, fullCuts t.cuts, t.config.blockSize, 1, 0⟩

variable {t : Sender.State} {r : Receiver.State}

/-- The input is cut as a receiver needs it. -/
structure WellCut (t : Sender.State) : Prop where
  blockSize_pos : 0 < t.config.blockSize
  fits : ∀ bytes ∈ t.cuts, Sender.CutFits t.config.blockSize bytes Protocol.maxSliceSize
  going : ∀ k, k + 1 < t.cuts.length → t.cuts.getD k 0 ≠ 0
  aligned : ∀ k, Sender.startOf t.cuts k < t.cuts.sum →
    t.config.blockSize ∣ Sender.startOf t.cuts k

/-- A sender that conforms has cut its input so. -/
theorem wellCut (hinv : Sender.Inv t) (h : Sender.Conforming t) : WellCut t :=
  ⟨hinv.ring.blockSize_pos, h.cuts, h.going, hinv.ring.aligned⟩

/-- What it sends is a stream that a receiver can receive. -/
theorem WellCut.valid (h : WellCut t) : (stream t).Valid where
  blockSize_pos := h.blockSize_pos
  cut_pos := fun bytes hbytes => Nat.pos_of_ne_zero (by simpa using List.mem_takeWhile_imp hbytes)
  cut_le := fun bytes hbytes => (h.fits bytes ((List.takeWhile_sublist _).subset hbytes)).2
  dvd := fun n hn => by
    have hn : n + 1 < (fullCuts t.cuts).length := hn
    have hsize : (stream t).size n = t.cuts.getD n 0 := getD_fullCuts h.going n
    have hlt : n + 1 < t.cuts.length := hn.trans_le (List.takeWhile_sublist _).length_le
    have hnext : t.cuts.getD (n + 1) 0 ≠ 0 := by
      rw [← getD_fullCuts h.going, List.getD_eq_getElem _ _ hn]
      simpa using List.mem_takeWhile_imp (List.getElem_mem hn)
    have hsucc := Sender.startOf_succ (show n < t.cuts.length by omega)
    have hsucc' := Sender.startOf_succ hlt
    have hsum : Sender.startOf t.cuts (n + 1 + 1) ≤ t.cuts.sum := Sender.startOf_le_sum _
    have haligned := h.aligned n (by omega)
    have haligned' := h.aligned (n + 1) (by omega)
    rw [hsucc] at haligned'
    rw [hsize]
    exact (Nat.dvd_add_right haligned).mp haligned'
  dvd_or_lt := fun bytes hbytes => (h.fits bytes ((List.takeWhile_sublist _).subset hbytes)).1
  stripes_pos := fun hpos => absurd hpos (lt_irrefl 0)
  stripes_le := by simp [stream]
  redundancy_le := Nat.zero_le _
  stripe_le := fun hpos => absurd hpos (lt_irrefl 0)

/-- What is right about the input is what a sender of the stream sends. -/
theorem WellCut.sends {msg : ServerMsg} (h : WellCut t) (hright : t.Says msg) :
    (stream t).Sends msg := by
  have hpos := h.blockSize_pos
  have hsize : ∀ n, (stream t).size n = t.cuts.getD n 0 := getD_fullCuts h.going
  cases msg with
  | data n b bytes payload =>
    obtain ⟨hn, rfl, hb, rfl⟩ := hright
    have hcut : n < (stream t).cuts.length := by
      by_contra hge
      have hnone : (stream t).size n = 0 := List.getD_eq_default _ _ (not_lt.mp hge)
      rw [hsize] at hnone
      omega
    have hblocks : b < (stream t).blocks n := by
      unfold Stream.blocks
      rw [hsize]
      refine Nat.lt_of_succ_le ((Nat.le_div_iff_mul_le hpos).mpr ?_)
      rw [Nat.succ_mul]
      show b * t.config.blockSize + t.config.blockSize ≤ t.cuts.getD n 0 + t.config.blockSize - 1
      omega
    have hpayload : (stream t).dataPayload n b =
        (List.range (min t.config.blockSize (t.cuts.getD n 0 - b * t.config.blockSize))).map
          fun x => t.input (Sender.startOf t.cuts n + b * t.config.blockSize + x) := by
      unfold Stream.dataPayload
      rw [hsize]
      refine List.map_congr_left fun x hx => ?_
      have hx : x < min t.config.blockSize (t.cuts.getD n 0 - b * t.config.blockSize) :=
        List.mem_range.mp hx
      have hstart : (stream t).start n = Sender.startOf t.cuts n :=
        startOf_fullCuts h.going hcut.le
      have hinside : b * (stream t).blockSize + x < (stream t).size n := by
        rw [hsize]
        show b * t.config.blockSize + x < _
        omega
      rw [Stream.block, if_pos hinside, hstart]
      rfl
    have hsends : (stream t).Sends _ := .data n b hcut hblocks
    rw [hsize, hpayload] at hsends
    exact hsends
  | fec => exact hright.elim
  | reqack n bytes rxmitId readySet =>
    obtain ⟨hn, rfl⟩ := hright
    have hle := length_le_fullCuts h.going
    have hn : n ≤ (stream t).cuts.length := show n ≤ (fullCuts t.cuts).length by omega
    have hsends : (stream t).Sends _ := .reqack n rxmitId readySet hn
    rw [hsize] at hsends
    exact hsends
  | hello => exact .hello

/-- A message received is one that the sender has sent. -/
def Hears (t : Sender.State) : Receiver.Action → Prop
  | .receive msg => msg ∈ t.network
  | _ => True

/-- The receivers of the sender, in default mode. -/
def receivers (t : Sender.State) : System Receiver.State :=
  .ofActionsIn (Hears t) (Receiver.Starts (stream t) Receiver.defaultMode) Receiver.act

/-- A receiver that hears the sender only is one that receives this stream. -/
theorem receives (h : WellCut t) (hright : ∀ m ∈ t.network, t.Says m)
    (hr : (receivers t).Reachable r) :
    (Receiver.system (stream t) Receiver.defaultMode).Reachable r := by
  have hinit : ∀ r, (receivers t).Init r →
      (Receiver.system (stream t) Receiver.defaultMode).Reachable r :=
    fun r hstart => System.Reachable.init hstart
  apply hr.invariant hinit
  rintro r r' hreach ⟨a, hears, hact⟩
  refine hreach.step ⟨a, ?_, hact⟩
  cases a with
  | receive msg => exact h.sends (hright msg hears)
  | _ => trivial

/-- The sender with one more slice of one block. -/
def longer (t : Sender.State) : Sender.State := { t with cuts := t.cuts ++ [t.config.blockSize] }

/-- One more slice of one block can follow slices of whole blocks. -/
theorem WellCut.longer (h : WellCut t) (hfull : 0 ∉ t.cuts) (hdvd : t.config.blockSize ∣ t.cuts.sum) :
    WellCut (longer t) where
  blockSize_pos := h.blockSize_pos
  fits := fun bytes hbytes => by
    rcases List.mem_append.mp hbytes with hbytes | hbytes
    · exact h.fits bytes hbytes
    · rw [List.mem_singleton.mp hbytes]
      exact ⟨.inl (dvd_refl _), Nat.le_mul_of_pos_right _ (by decide)⟩
  going := fun k hk => by
    have hk : k + 1 < (t.cuts ++ [t.config.blockSize]).length := hk
    rw [List.length_append, List.length_singleton] at hk
    have hlt : k < t.cuts.length := by omega
    show (t.cuts ++ [t.config.blockSize]).getD k 0 ≠ 0
    rw [List.getD_append _ _ _ _ hlt, List.getD_eq_getElem _ _ hlt]
    exact fun hzero => hfull (hzero ▸ List.getElem_mem hlt)
  aligned := fun k hk => by
    have hk : Sender.startOf (t.cuts ++ [t.config.blockSize]) k <
        (t.cuts ++ [t.config.blockSize]).sum := hk
    show t.config.blockSize ∣ Sender.startOf (t.cuts ++ [t.config.blockSize]) k
    rcases Nat.lt_or_ge t.cuts.length k with hlt | hle
    · rw [Sender.startOf, List.take_of_length_le (by simpa using hlt)] at hk
      exact absurd hk (lt_irrefl _)
    · rw [Sender.startOf_append hle]
      rcases Nat.lt_or_ge (Sender.startOf t.cuts k) t.cuts.sum with hlt | hge
      · exact h.aligned k hlt
      · rw [le_antisymm (Sender.startOf_le_sum k) hge]
        exact hdvd

/-- The slices of the stream end where the input has been cut so far. -/
theorem start_stream (h : WellCut t) : (stream t).start (stream t).cuts.length = t.cuts.sum := by
  rw [Stream.start, Sender.startOf_length]
  exact sum_fullCuts h.going

/-- A receiver that has written everything has got the end of the input: without it, the same messages
belong to a longer stream as well. -/
theorem sum_eq_of_exited (hinv : Sender.Inv t) (h : Sender.Conforming t)
    (hr : (receivers t).Reachable r) (hexit : r.writer = .exited) : t.cuts.sum = t.inputSize := by
  have hcut := wellCut hinv h
  by_contra hmore
  have hfull : 0 ∉ t.cuts := fun hzero => hmore (h.ended hzero)
  have hdvd : t.config.blockSize ∣ t.cuts.sum := by
    by_contra hnot
    exact hmore (hinv.sum_eq_of_not_dvd hnot)
  have hlonger := hcut.longer hfull hdvd
  have hshort := receives hcut h.network hr
  have hlong := receives hlonger
    (fun m hm => (h.network m hm).mono (List.prefix_append _ _) rfl rfl) hr
  obtain ⟨m, -, houtput, hend⟩ := Receiver.written_of_reachable hcut.valid hshort
  obtain ⟨m', -, houtput', hend'⟩ := Receiver.written_of_reachable hlonger.valid hlong
  have hm := (hend hexit).1.trans (start_stream hcut)
  have hm' := (hend' hexit).1.trans (start_stream hlonger)
  have hlength := congrArg List.length (houtput.symm.trans houtput')
  simp only [List.length_map, List.length_range] at hlength
  have hsum : (longer t).cuts.sum = t.cuts.sum + t.config.blockSize := by
    show (t.cuts ++ [t.config.blockSize]).sum = _
    rw [List.sum_append, List.sum_singleton]
  have hpos := hcut.blockSize_pos
  omega

/-- Whatever is lost, repeated or reordered between the two, the receiver writes the beginning of the
input of the sender, and once its writer has returned, the whole input. -/
theorem output_of_input (ht : Sender.system.Reachable t) (hconfig : Sender.Unencoded t.config)
    (hr : (receivers t).Reachable r) :
    (∃ m ≤ t.inputSize, r.output = (List.range m).map t.input) ∧
      (r.writer = .exited → r.output = (List.range t.inputSize).map t.input) := by
  have hinv := Sender.inv_reachable ht
  have h := Sender.conforming_of_reachable ht hconfig
  have hcut := wellCut hinv h
  have hread : t.cuts.sum ≤ t.readTotal := hinv.ring.cut_le_read
  have htaken : t.readTotal ≤ t.freeTaken := hinv.ring.read_le_taken
  have hpos : t.freeTaken ≤ t.inputPos := hinv.ring.taken_le_input
  have hinput : t.inputPos ≤ t.inputSize := hinv.ring.inputPos_le
  obtain ⟨m, hle, houtput, hend⟩ := Receiver.written_of_reachable hcut.valid (receives hcut h.network hr)
  rw [start_stream hcut] at hle
  refine ⟨⟨m, by omega, houtput⟩, fun hexit => ?_⟩
  have hm := (hend hexit).1.trans (start_stream hcut)
  rw [houtput, hm, sum_eq_of_exited hinv h hr hexit]
  rfl

/-- The settings of a half-duplex transfer in blocks of four bytes. -/
def fourConfig : Sender.NetConfig := { Sender.plainConfig with blockSize := 4 }

/-- Eight bytes are sent to one receiver, which acknowledges them, and then the empty slice. -/
def eightBytes : Option Sender.State :=
  (Sender.start fourConfig ⟨1, {0}⟩ (fun p => .ofNat (p + 1)) 8 (fun _ => .ofNat 0)
    fun _ _ _ => .ofNat 0).bind fun t => System.perform Sender.act t
      ([0, 8, 0, 0, 0, 0, 0].map .reader ++ List.replicate 8 .net ++ List.replicate 4 .cutter ++
        List.replicate 15 .net ++ [.receive 0 (.ok 0), .announce] ++ List.replicate 18 .net ++
        List.replicate 4 .cutter ++ List.replicate 7 .net)

/-- The second block arrives first, and once more after the other one. The first question is lost. -/
def swapped (t : Sender.State) : List (ServerMsg × ℕ) :=
  [(t.network.getD 2 .hello, 3), (t.network.getD 3 .hello, 9), (t.network.getD 2 .hello, 3),
    (t.network.getD 0 .hello, 14)]

/-- What the receiver does with these messages. -/
def hearing (t : Sender.State) : List Receiver.Action :=
  List.replicate 3 .net ++ Receiver.schedule (swapped t) ++ List.replicate 4 (.writer 5) ++
    List.replicate 5 (.writer 3)

/-- A schedule of messages of the network is heard. -/
theorem hears_schedule {l : List (ServerMsg × ℕ)} (h : ∀ p ∈ l, p.1 ∈ t.network) :
    ∀ a ∈ Receiver.schedule l, Hears t a := by
  intro a ha
  obtain ⟨p, hp, ha⟩ := List.mem_flatMap.mp ha
  rcases List.mem_cons.mp ha with rfl | ha
  · exact h p hp
  · obtain ⟨-, rfl⟩ := List.mem_replicate.mp ha
    trivial

/-- The messages are taken from the network. -/
theorem getD_mem_network {n : ℕ} (hn : n < t.network.length) :
    t.network.getD n .hello ∈ t.network := by
  rw [List.getD_eq_getElem _ _ hn]
  exact List.getElem_mem _

/-- All that the receiver hears has been sent. -/
theorem hears_hearing (hlength : t.network.length = 4) : ∀ a ∈ hearing t, Hears t a := by
  have hswapped : ∀ p ∈ swapped t, p.1 ∈ t.network := by
    simp only [swapped, List.mem_cons, List.not_mem_nil, or_false, forall_eq_or_imp, forall_eq]
    exact ⟨getD_mem_network (by omega), getD_mem_network (by omega), getD_mem_network (by omega),
      getD_mem_network (by omega)⟩
  intro a ha
  simp only [hearing, List.mem_append, List.mem_replicate] at ha
  rcases ha with ((⟨-, rfl⟩ | ha) | ⟨-, rfl⟩) | ⟨-, rfl⟩
  · trivial
  · exact hears_schedule hswapped a ha
  · trivial
  · trivial

/-- Eight bytes sent and received, with two messages exchanged on the way. -/
theorem output_of_input_eight_bytes : ∃ t r, Sender.system.Reachable t ∧
    (receivers t).Reachable r ∧ r.writer = .exited ∧
    r.output = (List.range 8).map (fun p => .ofNat (p + 1)) ∧
    r.output = (List.range t.inputSize).map t.input := by
  have hrun : (eightBytes.bind fun t => ((Receiver.start ⟨4, false, true, 0⟩ false (fun _ => .ofNat 0)
      fun _ _ => .ofNat 0).bind fun r => System.perform Receiver.act r (hearing t)).map
        fun r => (t, r)).any fun p =>
          p.1.network.length = 4 ∧ p.1.config.fec = false ∧ p.1.config.maxSliceSize = 1024 ∧
            p.1.config.blockSize = 4 ∧ p.2.writer = .exited ∧
              p.2.output = (List.range 8).map (fun p => .ofNat (p + 1)) := by
    decide +kernel
  obtain ⟨⟨t, r⟩, hpair, hlast⟩ := (Option.any_eq_true _ _).mp hrun
  obtain ⟨t', hsender, hreceiver⟩ := Option.bind_eq_some_iff.mp hpair
  obtain ⟨r', hr', heq⟩ := Option.map_eq_some_iff.mp hreceiver
  obtain ⟨rfl, rfl⟩ := Prod.mk.inj heq
  obtain ⟨hlength, hfec, hmax, hblockSize, hexit, houtput⟩ := of_decide_eq_true hlast
  obtain ⟨t₀, hstart, hperform⟩ := Option.bind_eq_some_iff.mp hsender
  obtain ⟨r₀, hstart', hperform'⟩ := Option.bind_eq_some_iff.mp hr'
  have ht : Sender.system.Reachable t' :=
    ⟨t₀, ⟨_, _, _, _, _, _, ⟨by decide, by decide⟩, ⟨rfl, by decide⟩, hstart⟩,
      System.run_of_perform hperform⟩
  have hr : (receivers t').Reachable r' :=
    ⟨r₀, ⟨_, _, _, _, ⟨by decide, by decide⟩, hblockSize.symm, ⟨rfl, rfl⟩, hstart'⟩,
      System.run_of_perform_in (hears_hearing hlength) hperform'⟩
  have hconfig : Sender.Unencoded t'.config := ⟨hfec, by rw [hmax]; decide, by rw [hmax]; decide⟩
  exact ⟨t', r', ht, hr, hexit, houtput, (output_of_input ht hconfig hr).2 hexit⟩

end Udpcast.Session
