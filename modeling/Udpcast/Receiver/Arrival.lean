import Udpcast.Receiver.Integrity

/-!
# The arrival of a message

A payload lands where nothing is needed, and stays there until its slice has been found. So what
the receiver has of the stream is right in every reachable state.
-/

namespace Udpcast.Receiver

open Fec (Gf Block)
open Queue
open Protocol

variable {st : Stream} {s s' : State} {t : Task} {rest : List Task} {msg : ServerMsg}
  {a k p q y : ℕ}

/-- Storing bytes in the ring. -/
theorem store_ring {a m : ℕ} {f : ℕ → Gf} (hm : m ≤ s.config.blockSize) :
    (s.store (.ring a) m f).blockData = s.blockData ∧
      (∀ c, (∀ y < s.config.blockSize, c ≠ a + y) →
        (s.store (.ring a) m f).dataBuffer c = s.dataBuffer c) ∧
      ∀ x < m, (s.store (.ring a) m f).byteAt (.ring a) x = f x := by
  refine ⟨rfl, fun c hc => ?_, fun x hx => ?_⟩
  · refine if_neg fun hinside => hc (c - a) (by omega) (by omega)
  · unfold State.byteAt State.store
    dsimp only
    rw [if_pos ⟨by omega, by omega⟩, Nat.add_sub_cancel_left]

/-- Storing bytes in a block of the pool. -/
theorem store_pool {a m : ℕ} {f : ℕ → Gf} (hm : m ≤ s.config.blockSize) :
    (s.store (.pool a) m f).dataBuffer = s.dataBuffer ∧
      (∀ a', a' ≠ a → (s.store (.pool a) m f).blockData a' = s.blockData a') ∧
      ∀ x < m, (s.store (.pool a) m f).byteAt (.pool a) x = f x := by
  refine ⟨rfl, fun a' hne => Function.update_of_ne hne .., fun x hx => ?_⟩
  unfold State.byteAt State.store
  dsimp only
  rw [Nat.div_eq_of_lt (hx.trans_le hm), Nat.mod_eq_of_lt (hx.trans_le hm), Nat.add_zero,
    Function.update_self, if_pos hx]

/-- What `dispatchMessage` stores of a message. -/
def stored (config : Config) : ServerMsg → ℕ × (ℕ → Gf)
  | .data _ _ _ payload | .fec _ _ _ _ payload =>
    (min payload.length config.blockSize, (payload.getD · (.ofNat 0)))
  | .reqack _ _ _ readySet => (min (maxClients / 8) config.blockSize, mapByte readySet)
  | .hello => (0, fun _ => .ofNat 0)

/-- `recvmsg` stores no more than a block. -/
theorem stored_le (config : Config) (msg : ServerMsg) : (stored config msg).1 ≤ config.blockSize := by
  cases msg with
  | hello => exact Nat.zero_le _
  | _ => exact Nat.min_le_right _ _

/-- The payload goes where `landing` says, and nothing else changes in memory. -/
theorem storePayload_store : storePayload s msg =
    { s with
      isAddress := landing s
      dataBuffer := (s.store (landing s) (stored s.config msg).1 (stored s.config msg).2).dataBuffer
      blockData :=
        (s.store (landing s) (stored s.config msg).1 (stored s.config msg).2).blockData } := by
  unfold storePayload State.store
  cases msg with
  | hello =>
    -- Nothing is stored.
    cases landing s with
    | ring a =>
      have hnone : ∀ c, ¬ (a ≤ c ∧ c < a + (stored s.config .hello).1) := by
        rintro c ⟨hle, hlt⟩
        exact absurd hlt (not_lt.mpr hle)
      simp only [hnone, if_false]
    | pool a =>
      have hnone : ∀ x, ¬ x < (stored s.config .hello).1 := Nat.not_lt_zero
      simp only [hnone, if_false, Function.update_eq_self]
  | _ => cases landing s <;> rfl

/-- A payload that does not land in the ring lands in the next block of the pool. -/
theorem landing_pool (haim : landing s = .pool a) : a = s.nextBlock := by
  unfold landing at haim
  split at haim
  · split at haim
    · cases haim
    · exact (Place.pool.inj haim).symm
  · exact (Place.pool.inj haim).symm

/-- Nothing is missing below the place where payloads land, once the current slice is complete. -/
theorem Grounded.blocks_le_landing (h : Grounded st s) (hidle : s.tasks = [])
    (hk : k + 1 = s.started) (hstate : (s.slices (k % nrSlices)).state ≠ .receiving)
    (hlt : (s.slices (k % nrSlices)).freePos < maxSliceSize) :
    st.blocks k ≤ (s.slices (k % nrSlices)).freePos := by
  have hopen : (s.slices (k % nrSlices)).OpenFecless := by
    apply (h.closes _).resolve_right
    rw [hidle]
    simp
  have htracked := h.tracked (k := k) (by omega) (by simp only [nrSlices]; omega)
  have hno := h.sliceNo_eq (k := k) (by omega) (by simp only [nrSlices]; omega)
  have hblocks := htracked.blocks_le_freePos (h.memory.lands _) hopen hstate hlt
  rwa [hno, Int.toNat_natCast] at hblocks

/-- Nothing that is needed is where a payload lands. -/
theorem Grounded.landing_clear (h : Grounded st s) (hidle : s.tasks = [])
    (haim : landing s = .ring a) (hp : s.Needs st p) (hy : y < st.blockSize) :
    p % s.dataBufSize ≠ a + y := by
  obtain ⟨k, f, hk, hf, hlt, rfl⟩ := h.toPlaced.landing_eq haim
  intro heq
  have hsize : 0 < s.dataBufSize := by
    rw [h.accounts.bufSize]
    exact Nat.mul_pos h.valid.blockSize_pos (by decide)
  have hcell : p % s.dataBufSize = (st.start k + f * st.blockSize + y) % s.dataBufSize := by
    rw [heq]
    exact (mod_add_of_lt (heq ▸ Nat.mod_lt _ hsize)).symm
  have hspan := block_span hlt hy
  have hlast := h.lt_ring (k := k) (by omega) hspan
  have hstarted := h.started_le
  obtain ⟨hwritten, hreleased | ⟨j, b, x, ⟨hj, hjlt, hhas⟩, hx, hinside, rfl⟩⟩ := id hp
  · exact h.landing_unwritten h.valid hidle hk hf hlt hy hwritten hreleased hcell
  · have hdata : j < st.cuts.length := by
      by_contra hge
      rw [st.size_of_ge (not_lt.mp hge)] at hinside
      exact Nat.not_lt_zero _ hinside
    have hno := h.sliceNo_eq hjlt (by omega)
    rcases hhas with hmap | ⟨hstate, hb⟩
    · rw [← (h.seated hj hjlt hdata).cell hx] at hcell
      refine h.landing_received h.valid hk hf hlt hy (h.window.slots.taken j hj hjlt) hmap hx ?_ hcell
      rwa [hno, Int.toNat_natCast]
    · -- Everything of a complete slice is before the place where the payload lands.
      have hbefore : st.start j + b * st.blockSize + x < st.start k + f * st.blockSize := by
        rcases Nat.lt_or_ge j k with hless | hge
        · have hmono := st.start_mono (show j + 1 ≤ k from hless)
          rw [st.start_succ] at hmono
          omega
        · obtain rfl : j = k := by omega
          have hle := h.blocks_le_landing hidle hk (by simp [hstate]) (hf ▸ hlt)
          rw [← hf] at hle
          have hcover := h.valid.size_le_blocks j
          have hmul : st.blocks j * st.blockSize ≤ f * st.blockSize := Nat.mul_le_mul_right _ hle
          omega
      have hsame := h.eq_of_mod hp (q := st.start k + f * st.blockSize + y) (by omega) (by omega) hcell
      omega

/-- A message that arrives harms nothing. -/
theorem Stored.receive (h : Stored st s) (hg : Grounded st s) (hidle : s.tasks = []) :
    Stored st ((storePayload s msg).enter (dispatch msg)) := by
  have hle := stored_le s.config msg
  rw [storePayload_store]
  refine ⟨fun p hp => ?_, fun i => ?_⟩
  · have hp : s.Needs st p := hp
    refine Eq.trans ?_ (h.ring p hp)
    show (s.store _ _ _).dataBuffer _ = _
    cases haim : landing s with
    | ring a =>
      refine (store_ring hle).2.1 _ fun y hy => ?_
      rw [hg.accounts.blockSize] at hy
      exact hg.landing_clear hidle haim hp hy
    | pool a => exact congrFun (store_pool hle).1 _
  · have hr : (s.slices i).Repairable st s.blockData := h.repairable i
    show (s.slices i).Repairable st (s.store _ _ _).blockData
    cases haim : landing s with
    | ring a =>
      rw [(store_ring hle).1]
      exact hr
    | pool a =>
      obtain rfl := landing_pool haim
      by_cases hfree : (s.slices i).state = .free
      · refine ⟨fun hstate => ?_, fun hstate => ?_⟩ <;> simp [hfree] at hstate
      · obtain ⟨j, -, -, rfl, -⟩ := hg.slot hfree
        refine hr.frame fun a' hholds => (store_pool hle).2.1 a' ?_
        rintro rfl
        exact hholds (hg.next_free (by rw [hidle]; rfl) (Nat.mod_lt _ (by decide)))

/-! ## A message that waits -/

/-- The payload lands in the current slice, or in the next block of the pool. -/
theorem Grounded.landed (h : Grounded st s) (hidle : s.tasks = []) (hs' : s'.isAddress = landing s)
    (hnext : s'.nextBlock = s.nextBlock) (hsize : s'.dataBufSize = s.dataBufSize)
    (hslices : s'.slices = s.slices) (hstarted : s'.started = s.started)
    (hreturned : s'.memReturned = s.memReturned) :
    Landed st s' := by
  cases haim : landing s with
  | pool a =>
    obtain rfl := landing_pool haim
    exact .inl (by rw [hs', haim, hnext])
  | ring a =>
    obtain ⟨k, f, hk, hf, hlt, rfl⟩ := h.toPlaced.landing_eq haim
    refine .inr ⟨k, f, _, hs'.trans haim, ⟨by omega, hlt, by rw [hsize], ?_, ?_⟩⟩
    · rw [hreturned, hsize]
      exact h.memory.room k hk
    · intro j hj hjlt hstate
      rw [hslices] at hstate
      rcases Nat.lt_or_ge j k with hless | hge
      · exact .inl hless
      · obtain rfl : j = k := by omega
        refine .inr ⟨rfl, ?_⟩
        rw [hf]
        exact h.blocks_le_landing hidle hk (by simp [hstate]) (hf ▸ hlt)

/-- A payload of the stream is in the memory where it has landed. -/
theorem carries_of_sends {block : Block} (hst : st.Valid) (hsends : st.Sends msg)
    {config : Config} (hconfig : config.blockSize = st.blockSize)
    (hblock : ∀ x < (stored config msg).1, block x = (stored config msg).2 x) :
    Carries st block msg := by
  cases hsends with
  | data n b hn hb =>
    intro x hx hinside
    have hlength : (st.dataPayload n b).length = min st.blockSize (st.size n - b * st.blockSize) := by
      simp [Stream.dataPayload]
    have hlt : x < (st.dataPayload n b).length := by omega
    rw [hblock x (lt_min hlt (hconfig ▸ hx))]
    show (st.dataPayload n b).getD x (.ofNat 0) = _
    rw [List.getD_eq_getElem _ _ hlt]
    simp [Stream.dataPayload]
  | fec n b payload hn hb hpayload =>
    intro hstripe
    have hne : st.size n ≠ 0 := by
      intro hzero
      rw [Stream.blocks, hzero, Nat.zero_add,
        Nat.div_eq_of_lt (Nat.sub_lt hst.blockSize_pos Nat.one_pos)] at hstripe
      exact Nat.not_lt_zero _ hstripe
    have hlength : payload.length = st.blockSize := by
      obtain ⟨_, _, -, rfl⟩ := hpayload hne
      simp
    refine hst.isFecBlock hb hstripe (hpayload hne) fun x hx => ?_
    exact hblock x (lt_min (hlength ▸ hx) (hconfig ▸ hx))
  | _ => trivial

/-- The payload of a message that arrives waits where it has landed. -/
theorem Awaits.receive (hg : Grounded st s) (hidle : s.tasks = []) (hsends : st.Sends msg) :
    Awaits st ((storePayload s msg).enter (dispatch msg)) := by
  have hle := stored_le s.config msg
  rw [storePayload_store]
  intro msg' hmem hwants
  obtain rfl : msg' = msg := by
    have hmem : .process msg' ∈ dispatch msg ++ s.tasks := hmem
    rw [hidle, List.append_nil] at hmem
    cases msg with
    | hello => cases hmem
    | _ =>
      simp only [dispatch, List.mem_cons, List.not_mem_nil, or_false, reduceCtorEq, false_or] at hmem
      exact Task.process.inj hmem
  refine ⟨hg.landed hidle rfl rfl rfl rfl rfl rfl, ?_⟩
  refine carries_of_sends hg.valid hsends hg.accounts.blockSize fun x hx => ?_
  cases haim : landing s with
  | ring a => exact (store_ring hle).2.2 x hx
  | pool a => exact (store_pool hle).2.2 x hx

/-- Only the bytes within the block size count. -/
theorem Carries.congr {block block' : Block} (h : Carries st block msg)
    (hbytes : ∀ n : ℕ, n < st.cuts.length → sliceNoOf msg = n → ∀ x < st.blockSize,
      block' x = block x) : Carries st block' msg := by
  cases msg with
  | data n b bytes payload =>
    intro x hx hinside
    have hdata : n < st.cuts.length := by
      by_contra hge
      rw [st.size_of_ge (not_lt.mp hge)] at hinside
      exact Nat.not_lt_zero _ hinside
    exact (hbytes n hdata rfl x hx).trans (h x hx hinside)
  | fec stripes n b bytes payload =>
    intro hstripe
    have hdata : n < st.cuts.length := by
      by_contra hge
      rw [Stream.blocks, st.size_of_ge (not_lt.mp hge), Nat.zero_add] at hstripe
      rcases Nat.eq_zero_or_pos st.blockSize with hzero | hpos
      · simp [hzero] at hstripe
      · rw [Nat.div_eq_of_lt (Nat.sub_lt hpos Nat.one_pos)] at hstripe
        exact Nat.not_lt_zero _ hstripe
    exact (h hstripe).congr (hbytes n hdata rfl)
  | _ => trivial

/-- A payload still waits as long as its place and its bytes stay. -/
theorem Awaits.mono (h : Awaits st s)
    (htasks : ∀ msg, .process msg ∈ s'.tasks → .process msg ∈ s.tasks)
    (hwants : ∀ n, s'.Wants n → s.Wants n) (hlanded : Landed st s → Landed st s')
    (hbytes : ∀ msg (n : ℕ), .process msg ∈ s'.tasks → sliceNoOf msg = n → n < st.cuts.length →
      s.Wants n → Landed st s → ∀ x < st.blockSize,
        s'.byteAt s'.isAddress x = s.byteAt s.isAddress x) : Awaits st s' := by
  intro msg hmem hwanted
  have hbefore := hwants _ hwanted
  obtain ⟨hland, hcarries⟩ := h msg (htasks msg hmem) hbefore
  exact ⟨hlanded hland, hcarries.congr fun n hn hno => hbytes msg n hmem hno hn (hno ▸ hbefore) hland⟩

/-- The place of a payload is good as long as the slices do not move on. -/
theorem Landed.mono (h : Landed st s)
    (hplace : s'.isAddress = s.isAddress ∧ s'.nextBlock = s.nextBlock ∧
      s'.dataBufSize = s.dataBufSize) (hstarted : s.started ≤ s'.started)
    (hreturned : s.memReturned ≤ s'.memReturned)
    (hfec : ∀ j, s'.freed ≤ j → j < s'.started → (s'.slices (j % nrSlices)).state = .fec →
      s.freed ≤ j ∧ j < s.started ∧ (s.slices (j % nrSlices)).state = .fec) : Landed st s' := by
  obtain ⟨haddress, hnext, hsize⟩ := hplace
  obtain hpool | ⟨c, f, a, haim, hin⟩ := h
  · exact .inl (by rw [haddress, hnext, hpool])
  · refine .inr ⟨c, f, a, haddress.trans haim, hin.current.trans_le hstarted, hin.free, ?_, ?_, ?_⟩
    · rw [hsize]
      exact hin.place
    · rw [hsize]
      exact hin.room.trans (Nat.add_le_add_right hreturned _)
    · intro j hj hlt hstate
      obtain ⟨hj, hlt, hstate⟩ := hfec j hj hlt hstate
      exact hin.clear j hj hlt hstate

/-- Steps that set up no slice. -/
theorem Awaits.keep (h : Awaits st s)
    (htasks : ∀ msg, .process msg ∈ s'.tasks → .process msg ∈ s.tasks)
    (hplace : s'.isAddress = s.isAddress ∧ s'.nextBlock = s.nextBlock ∧
      s'.dataBufSize = s.dataBufSize) (hstarted : s'.started = s.started)
    (hfreed : s.freed ≤ s'.freed) (hreturned : s.memReturned ≤ s'.memReturned)
    (hslots : ∀ i, (s'.slices i).state = .receiving ∨ (s'.slices i).state = .fec →
      (s.slices i).state = (s'.slices i).state)
    (hbytes : ∀ msg (n : ℕ), .process msg ∈ s'.tasks → sliceNoOf msg = n → n < st.cuts.length →
      s.Wants n → Landed st s → ∀ x < st.blockSize,
        s'.byteAt s'.isAddress x = s.byteAt s.isAddress x) : Awaits st s' := by
  refine h.mono htasks ?_ (fun hland => hland.mono hplace hstarted.ge hreturned ?_) hbytes
  · rintro n ⟨m, rfl, hm | ⟨hm, hstate⟩⟩
    · exact ⟨m, rfl, .inl (hstarted ▸ hm)⟩
    · exact ⟨m, rfl, .inr ⟨hfreed.trans hm, (hslots _ (.inl hstate)).trans hstate⟩⟩
  · exact fun j hj hlt hstate =>
      ⟨hfreed.trans hj, hstarted ▸ hlt, (hslots _ (.inr hstate)).trans hstate⟩

/-- A slice is set up while its message waits. -/
theorem Awaits.reserve {i : ℕ} {m : ℤ} (h : Awaits st s) (hg : Grounded st s)
    (ht : s.tasks = .reserve i m :: rest) (hinit : initSlice (s.popped rest) i m = .ok s') :
    Awaits st { s' with found := some i, started := s'.started + 1 } := by
  obtain ⟨hallocated, rfl⟩ := hg.window.stack.reserved i (by rw [ht]; rfl)
  obtain ⟨-, -, -, guess, -, rfl⟩ := initSlice_ok hinit
  have hroom := hg.window.slots.allocated_le
  simp only [nrSlices] at hroom
  refine h.mono (fun msg hmem => ht ▸ List.mem_cons_of_mem _ hmem) ?_
    (fun hland => hland.mono ⟨rfl, rfl, rfl⟩ (Nat.le_succ _) le_rfl ?_) (fun _ _ _ _ _ _ _ _ _ => rfl)
  · rintro n ⟨m, rfl, hm | ⟨hm, hstate⟩⟩
    · exact ⟨m, rfl, .inl ((Nat.le_succ _).trans hm)⟩
    · have hm : s.freed ≤ m := hm
      rcases Nat.lt_or_ge m s.started with hlt | hge
      · dsimp only at hstate
        rw [Function.update_of_ne (by simp only [nrSlices]; omega)] at hstate
        exact ⟨m, rfl, .inr ⟨hm, hstate⟩⟩
      · exact ⟨m, rfl, .inl hge⟩
  · intro j hj hlt hstate
    have hj : s.freed ≤ j := hj
    have hlt : j < s.started + 1 := hlt
    dsimp only at hstate
    rcases eq_or_ne (j % nrSlices) (s.started % nrSlices) with heq | hne
    · rw [heq, Function.update_self] at hstate
      cases hstate
    · rw [Function.update_of_ne hne] at hstate
      refine ⟨hj, ?_, hstate⟩
      rcases Nat.lt_or_ge j s.started with hless | hge
      · exact hless
      · obtain rfl : j = s.started := by omega
        exact absurd rfl hne

/-- A step of the network thread leaves a payload that waits. -/
theorem Awaits.netMoves (h : Awaits st s) (hg : Grounded st s) (hm : NetMoves s t rest s')
    (ht : s.tasks = t :: rest) : Awaits st s' := by
  have hfinds : ∀ msg, .process msg ∈ s'.tasks → .process msg ∈ s.tasks ∧ t.finds ≠ none := by
    intro msg hmem
    obtain ⟨hbefore, hfinds, -⟩ := hg.seeking.finds hm ht hmem
    exact ⟨hbefore, hfinds⟩
  have htasks := fun msg hmem => (hfinds msg hmem).1
  cases hm with
  | restart hcurrent hlt hstreaming hinit =>
    rw [hg.plain.notStreaming] at hstreaming
    cases hstreaming
  | reserve hmem hinit => exact h.reserve hg ht hinit
  | @takeSlot n i _ hi hfree =>
    refine h.keep htasks ⟨rfl, rfl, rfl⟩ rfl le_rfl le_rfl (fun j _ => ?_)
      fun _ _ _ _ _ _ _ _ _ => rfl
    dsimp only
    rcases eq_or_ne j i with rfl | hne
    · rw [Function.update_self]
    · rw [Function.update_of_ne hne]
  | join | lookBack | lookAhead | scanFound | scanFree | scanOn | behind | lost | caughtUp | newSlice =>
    exact h.keep htasks ⟨rfl, rfl, rfl⟩ rfl le_rfl le_rfl (fun _ _ => rfl)
      fun _ _ _ _ _ _ _ _ _ => rfl
  | _ => exact fun msg hmem => absurd rfl (hfinds msg hmem).2

/-- While a slice with data is still to be received, the last one is not decoded behind the end of
the stream. -/
theorem Grounded.wants_of_end {n : ℕ} (h : Grounded st s) (hn : n < st.cuts.length)
    (hwants : s.Wants n) (hk : s.freed ≤ k) (hend : k + 1 = st.cuts.length)
    (hlt : k + 1 < s.started) : (s.slices (k % nrSlices)).state ≠ .fec := by
  intro hstate
  obtain ⟨m, hm, hcase⟩ := hwants
  obtain rfl : n = m := by exact_mod_cast hm
  obtain hge | ⟨hfreed, hreceiving⟩ := hcase
  · omega
  · rcases Nat.lt_or_ge n k with hless | hge
    · have hpast := h.behind.recent n (by omega) hfreed
      simp [hreceiving, SliceState.complete] at hpast
    · obtain rfl : n = k := by omega
      rw [hstate] at hreceiving
      cases hreceiving

/-- Decoding a slice does not touch a payload that waits. -/
theorem Landed.decode {n : ℕ} {mem : ℕ → Gf} {blocks : ℕ → Block} (h : Landed st s)
    (hg : Grounded st s) (hmem : .process msg ∈ s.tasks) (hn : n < st.cuts.length)
    (hwants : s.Wants n) (hk : s.freed ≤ k) (hlt : k < s.started)
    (hstate : (s.slices (k % nrSlices)).state = .fec) (hseated : Seated st s (k % nrSlices) k)
    (houtside : ∀ c, (∀ b < st.blocks k, ¬ InBlock s (k % nrSlices) b c) → mem c = s.dataBuffer c)
    (hpool : ∀ a, (s.slices (k % nrSlices)).holds a = 0 → blocks a = s.blockData a)
    (hy : y < st.blockSize) :
    { s with dataBuffer := mem, blockData := blocks }.byteAt s.isAddress y =
      s.byteAt s.isAddress y := by
  obtain hnext | ⟨c, f, a, haim, hin⟩ := h
  · rw [hnext]
    unfold State.byteAt
    dsimp only
    rw [← hg.accounts.blockSize] at hy
    rw [Nat.div_eq_of_lt hy, Nat.add_zero, hpool]
    refine hg.next_free ?_ (Nat.mod_lt _ (by decide))
    -- A task that looks for a slice takes no block.
    obtain ⟨l, htasks, hall⟩ := hg.seeking msg hmem
    rw [htasks]
    cases l with
    | nil => rfl
    | cons t l =>
      rcases hall t List.mem_cons_self with hfinds | rfl
      · cases t with
        | setNextBlock | takeBlock => exact absurd rfl hfinds
        | _ => rfl
      · rfl
  · rw [haim]
    refine houtside _ fun b hb hinside => ?_
    have hmax := hg.valid.blocks_le k
    obtain ⟨x, hx, hcell⟩ := hseated.inBlock_iff.mp hinside
    rw [hseated.cell hx, hin.place] at hcell
    have hsize : 0 < s.dataBufSize := by
      rw [hg.accounts.bufSize]
      exact Nat.mul_pos hg.valid.blockSize_pos (by decide)
    have hsame := mod_add_of_lt (hcell ▸ Nat.mod_lt _ hsize)
    rw [hcell] at hsame
    have hspan := block_span (hb.trans_le hmax) hx
    have hspan' := block_span hin.free hy
    have hring := hg.lt_ring hlt hspan
    have hroom := hin.room
    have hreturned := hg.returned_le
    have hwritten := hg.written_le
    have hreleased := hg.released_le hk hlt (.inr hstate)
    have hmul : b * st.blockSize + st.blockSize ≤ st.blocks k * st.blockSize := by
      have := Nat.mul_le_mul_right st.blockSize (show b + 1 ≤ st.blocks k from hb)
      rwa [Nat.succ_mul] at this
    rcases hin.clear k hk hlt hstate with hless | ⟨rfl, hfull⟩
    · have hmono := st.start_mono (show k + 1 ≤ c from hless)
      rw [st.start_succ] at hmono
      have heq := eq_of_mod_eq hsame (by omega) (by omega)
      have hlast := hg.valid.last_of_partial hseated.data hb hx (by omega)
      refine hg.wants_of_end hn hwants hk hlast ?_ hstate
      have := hin.current
      omega
    · have hle : st.blocks k * st.blockSize ≤ f * st.blockSize := Nat.mul_le_mul_right _ hfull
      have heq := eq_of_mod_eq hsame (by omega) (by omega)
      omega

/-- Decoding a slice writes nothing where a payload waits. -/
theorem Awaits.decode {i : ℕ} {mem : ℕ → Gf} {blocks : ℕ → Block} (h : Awaits st s)
    (hstored : Stored st s) (hg : Grounded st s) (hpc : s.fecThread = .decode i)
    (hdecode : decodeSlice s i = .ok { s with dataBuffer := mem, blockData := blocks }) :
    Awaits st { s with
      dataBuffer := mem, blockData := blocks, fecThread := .release i 0 0
      slices := Function.update s.slices i { s.slices i with state := .fecDone } } := by
  have hstate := hg.window.slots.decoding i hpc
  obtain ⟨k, hk, hlt, rfl, -⟩ := hg.slot (i := i) (by simp [hstate])
  have hdecodable := hstored.decodable hg hk hlt hstate
  obtain ⟨mem', blocks', hok, -, houtside, hpool⟩ := hdecodable.restores
  have heq := Except.ok.inj (hdecode.symm.trans hok)
  obtain rfl : mem = mem' := congrArg State.dataBuffer heq
  obtain rfl : blocks = blocks' := congrArg State.blockData heq
  refine h.keep (fun _ => id) ⟨rfl, rfl, rfl⟩ rfl le_rfl le_rfl (fun j hactive => ?_)
    fun msg n hmem _ hn hwants hland y hy => ?_
  · dsimp only at hactive ⊢
    rcases eq_or_ne j (k % nrSlices) with rfl | hne
    · rw [Function.update_self] at hactive
      simp at hactive
    · rw [Function.update_of_ne hne]
  · exact hland.decode hg hmem hn hwants hk hlt hstate hdecodable.toSeated houtside hpool hy

/-- A step of the FEC thread leaves a payload that waits. -/
theorem Awaits.fecMoves (h : Awaits st s) (hstored : Stored st s) (hg : Grounded st s)
    (hm : FecMoves s s') : Awaits st s' := by
  have hupdate : ∀ {i : ℕ} {x : Slice}, x.state = (s.slices i).state ∨ x.state = .fecDone ∨
      x.state = .free → ∀ j, (Function.update s.slices i x j).state = .receiving ∨
        (Function.update s.slices i x j).state = .fec →
          (s.slices j).state = (Function.update s.slices i x j).state := by
    intro i x hx j hactive
    rcases eq_or_ne j i with rfl | hne
    · rw [Function.update_self] at hactive ⊢
      rcases hx with hsame | hdone | hfree
      · exact hsame.symm
      · simp [hdone] at hactive
      · simp [hfree] at hactive
    · rw [Function.update_of_ne hne]
  cases hm with
  | takeDone =>
    exact h.keep (fun _ => id) ⟨rfl, rfl, rfl⟩ rfl le_rfl le_rfl (hupdate (.inr (.inl rfl)))
      fun _ _ _ _ _ _ _ _ _ => rfl
  | decode hpc hdecode => exact h.decode hstored hg hpc hdecode
  | freeBlock =>
    exact h.keep (fun _ => id) ⟨rfl, rfl, rfl⟩ rfl le_rfl le_rfl (hupdate (.inl rfl))
      fun _ _ _ _ _ _ _ _ _ => rfl
  | releaseSlice hpc hpos hstate hclean =>
    obtain ⟨-, hslot, -⟩ | ⟨_, _, -, -, -, -, ⟨-, rfl⟩ | ⟨-, q, -, rfl⟩⟩ := cleanupSlices_ok hclean
    · cases hslot
    · exact h.keep (fun _ => id) ⟨rfl, rfl, rfl⟩ rfl le_rfl le_rfl (fun _ _ => rfl)
        fun _ _ _ _ _ _ _ _ _ => rfl
    · exact h.keep (fun _ => id) ⟨rfl, rfl, rfl⟩ rfl le_rfl le_rfl (fun _ _ => rfl)
        fun _ _ _ _ _ _ _ _ _ => rfl
  | freeSlot hpc hfree =>
    obtain ⟨q, -, rfl⟩ := freeSlot_ok hfree
    exact h.keep (fun _ => id) ⟨rfl, rfl, rfl⟩ rfl (Nat.le_succ _) le_rfl
      (hupdate (.inr (.inr rfl))) fun _ _ _ _ _ _ _ _ _ => rfl
  | _ =>
    exact h.keep (fun _ => id) ⟨rfl, rfl, rfl⟩ rfl le_rfl le_rfl (fun _ _ => rfl)
      fun _ _ _ _ _ _ _ _ _ => rfl

/-- A step of the writer leaves a payload that waits. -/
theorem Awaits.writerMoves (h : Awaits st s) (hm : WriterMoves s s') : Awaits st s' := by
  cases hm with
  | giveBack =>
    exact h.keep (fun _ => id) ⟨rfl, rfl, rfl⟩ rfl le_rfl (Nat.le_add_right _ _) (fun _ _ => rfl)
      fun _ _ _ _ _ _ _ _ _ => rfl
  | _ =>
    exact h.keep (fun _ => id) ⟨rfl, rfl, rfl⟩ rfl le_rfl le_rfl (fun _ _ => rfl)
      fun _ _ _ _ _ _ _ _ _ => rfl

/-! ## Every reachable state -/

/-- What the receiver has of the stream is right, and so is a payload that waits. -/
structure Intact (st : Stream) (s : State) : Prop where
  stored : Stored st s
  awaits : Awaits st s

/-- A message is received when the network thread has nothing else to do. -/
theorem act_receive (hact : act s (.receive msg) = some s') :
    s.tasks = [] ∧ s' = (storePayload s msg).enter (dispatch msg) := by
  unfold act at hact
  split at hact
  · have hact : receiveStep s msg = some s' := hact
    unfold receiveStep at hact
    split at hact
    · rename_i hopen
      exact ⟨List.isEmpty_iff.mp hopen.1, (Option.some.inj hact).symm⟩
    · cases hact
  · cases hact

/-- Every step keeps both. -/
theorem Intact.act {a : Action} (h : Intact st s) (hg : Grounded st s) (hg' : Grounded st s')
    (ha : a.Conforms st) (hact : act s a = some s') : Intact st s' := by
  obtain ⟨-, hm⟩ := act_moves hact hg'.running
  obtain ⟨hstored, hawaits⟩ := h
  cases hm with
  | receive hidle hend =>
    rw [(act_receive hact).2]
    exact ⟨hstored.receive hg hidle, .receive hg hidle ha⟩
  | exitWait =>
    exact ⟨hstored.same ⟨rfl, rfl⟩ rfl le_rfl rfl rfl rfl rfl,
      hawaits.keep (fun _ => id) ⟨rfl, rfl, rfl⟩ rfl le_rfl le_rfl (fun _ _ => rfl)
        fun _ _ _ _ _ _ _ _ _ => rfl⟩
  | net ht hm => exact ⟨hstored.netMoves hawaits hg hg' hm ht, hawaits.netMoves hg hm ht⟩
  | fec hm => exact ⟨hstored.fecMoves hg hg' hm, hawaits.fecMoves hstored hg hm⟩
  | writer hm => exact ⟨hstored.writerMoves hm, hawaits.writerMoves hm⟩

/-- Both hold in the beginning. -/
theorem intact_start (h : Starts st defaultMode s) : Intact st s := by
  obtain ⟨config, streaming, mem, blockData, -, -, ⟨-, rfl⟩, hstart⟩ := h
  obtain ⟨_, _, _, -, -, -, rfl⟩ := start_eq hstart
  refine ⟨⟨?_, fun i => ⟨?_, ?_⟩⟩, fun msg hmem => ?_⟩
  · rintro p ⟨-, hlt | ⟨k, b, x, ⟨-, hlt, -⟩, -⟩⟩
    · exact absurd hlt (Nat.not_lt_zero p)
    · exact absurd hlt (Nat.not_lt_zero k)
  · rintro (hstate | hstate) <;> cases hstate
  · intro hstate
    cases hstate
  · cases List.mem_singleton.mp hmem

/-- In default mode the contents of the ring and of the pool are right at all times. -/
theorem intact_of_reachable (hst : st.Valid) (h : (system st defaultMode).Reachable s)
    (hrunning : s.failure = none) : Intact st s :=
  running_of_act (fun _ hs hrun => grounded_of_reachable hst hs hrun) (fun _ => intact_start)
    (fun _ _ _ hg hg' hintact ha hact => hintact.act hg hg' ha hact) h hrunning

/-- Whenever `fecMain` decodes a slice in default mode, all its bytes are right afterwards, no byte
of the ring outside the blocks of the slice changes, and neither do the FEC blocks of other slices. -/
theorem decode_of_reachable {i : ℕ} (hst : st.Valid) (h : (system st defaultMode).Reachable s)
    (hrunning : s.failure = none) (hpc : s.fecThread = .decode i) : ∃ k mem blocks,
    i = k % nrSlices ∧ (s.slices i).sliceNo = k ∧
    decodeSlice s i = .ok { s with dataBuffer := mem, blockData := blocks } ∧
    (∀ b < st.blocks k, ∀ x < st.blockSize, b * st.blockSize + x < st.size k →
      mem (adr s (s.slices i) b + x) = st.block k b x) ∧
    (∀ c, (∀ b < st.blocks k, ¬ InBlock s i b c) → mem c = s.dataBuffer c) ∧
    ∀ j < nrSlices, j ≠ i → ∀ a, (s.slices j).holds a ≠ 0 → blocks a = s.blockData a := by
  have hg := grounded_of_reachable hst h hrunning
  have hstored := (intact_of_reachable hst h hrunning).stored
  have hstate := hg.window.slots.decoding i hpc
  obtain ⟨k, hk, hlt, rfl, hno⟩ := hg.slot (i := i) (by simp [hstate])
  obtain ⟨mem, blocks, hok, hrestored, houtside, hpool⟩ :=
    (hstored.decodable hg hk hlt hstate).restores
  refine ⟨k, mem, blocks, rfl, hno, hok, hrestored, houtside, fun j hj hne a hholds => hpool a ?_⟩
  exact hg.holds_apart hj (Nat.mod_lt _ (by decide)) hne hholds

/-- The decoding at work: a slice of two blocks that lacks the second one. -/
theorem decode_of_reachable_two_slices : ∃ s, (system twoAndOne defaultMode).Reachable s ∧
    s.fecThread = .decode 0 ∧ (s.slices 0).map = {0} ∧ ∃ k mem blocks,
    0 = k % nrSlices ∧ (s.slices 0).sliceNo = k ∧
    decodeSlice s 0 = .ok { s with dataBuffer := mem, blockData := blocks } ∧
    (∀ b < twoAndOne.blocks k, ∀ x < twoAndOne.blockSize,
      b * twoAndOne.blockSize + x < twoAndOne.size k →
        mem (adr s (s.slices 0) b + x) = twoAndOne.block k b x) ∧
    (∀ c, (∀ b < twoAndOne.blocks k, ¬ InBlock s 0 b c) → mem c = s.dataBuffer c) ∧
    ∀ j < nrSlices, j ≠ 0 → ∀ a, (s.slices j).holds a ≠ 0 → blocks a = s.blockData a := by
  have hrun : (startTwoAndOne.bind fun s => System.perform act s
      (arrivals false ++ List.replicate 3 .fec)).any fun s =>
        s.failure = none ∧ s.fecThread = .decode 0 ∧ (s.slices 0).map = {0} := by
    decide +kernel
  obtain ⟨s, hs, hlast⟩ := (Option.any_eq_true _ _).mp hrun
  obtain ⟨s₀, hstart, hperform⟩ := Option.bind_eq_some_iff.mp hs
  obtain ⟨hrunning, hpc, hmap⟩ := of_decide_eq_true hlast
  have hconforms : ∀ a ∈ arrivals false ++ List.replicate 3 .fec, a.Conforms twoAndOne := by
    intro a ha
    rcases List.mem_append.mp ha with ha | ha
    · exact arrivals_conform false a ha
    · obtain ⟨-, rfl⟩ := List.mem_replicate.mp ha
      trivial
  have hreach : (system twoAndOne defaultMode).Reachable s :=
    ⟨s₀, twoAndOne_init hstart, System.run_of_perform_in hconforms hperform⟩
  exact ⟨s, hreach, hpc, hmap, decode_of_reachable twoAndOne_valid hreach hrunning hpc⟩

end Udpcast.Receiver
