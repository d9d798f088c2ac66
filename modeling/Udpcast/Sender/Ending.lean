import Udpcast.Sender.Options
import Udpcast.Sender.Progress

/-!
# When the sender stops

`netSenderMain` leaves its loop when nobody is left to serve or when the whole input and
the empty slice behind it have been sent and acknowledged. The proof follows the pass
through the loop: what is known about the two slices at each point of it.
-/

namespace Udpcast.Sender

open Fec (Gf)
open Queue
open Protocol

/-- All blocks of slice `j` have been sent, and as many FEC blocks as the options ask for. -/
def WhollySent (config : NetConfig) (network : List ServerMsg) (j bytes : ℕ) : Prop :=
  ∀ k < (bytes + config.blockSize - 1) / config.blockSize + fecCount config,
    BlockSent config network j bytes k

/-- The whole input and an empty slice behind it have been cut and sent. Outside async
mode all participants that are left have acknowledged every slice. -/
def Completed (s : State) : Prop :=
  ∃ n < s.cuts.length, s.cuts.getD n 0 = 0 ∧ startOf s.cuts n = s.inputSize ∧
    (∀ j ≤ n, WhollySent s.config s.network j (s.cuts.getD j 0)) ∧
    (s.config.async = false → ∀ j ≤ n, s.db.used ⊆ s.ackedBy j)

/-- `netSenderMain` leaves its loop only for one of the two good reasons. -/
def StopsInTime (s : State) : Prop :=
  s.net = .exited → s.config.async = false ∧ s.db.nrParticipants = 0 ∨ Completed s

/-- The part of the loop between the shift of the slices and the next turn. -/
def NetPc.PostShift : NetPc → Prop
  | .messages | .retransmit | .reqack | .newSlice | .making | .takeFec | .checkEnd | .send
  | .sending _ | .exitTest => True
  | _ => False

/-- In async mode a slice in the retransmission slot is acknowledged at once, unless it is
the empty one. -/
def AsyncAcked (s : State) : Prop :=
  s.config.async = true → s.net ≠ .freeLoop → ∀ r, s.rexmitSlice = some r →
    (s.slices r).bytes = 0 ∨ (s.slices r).state = .acked

/-- What is known on the way to the end. -/
structure Ending (s : State) : Prop where
  sliceSize_pos : 0 < s.inputSize → 0 < s.config.sliceSize
  maxSliceSize_pos : s.net ≠ .init → 0 < s.inputSize → 0 < s.config.maxSliceSize
  first : s.net = .init → 0 < s.inputSize → 0 < (initSliceSize s.config).sliceSize
  async_sn : s.config.async = true → 0 < s.inputSize → s.config.sn = true
  fecCount_eq : fecBlocks s.config = fecCount s.config
  empty : ∀ j < s.cuts.length, s.cuts.getD j 0 = 0 → startOf s.cuts j = s.inputSize
  making : ∀ i, s.cutter = .consumedData i → (s.slices i).bytes = 0 → s.cuts.sum = s.inputSize
  atEnd : s.atEnd = true → 0 < s.taken ∧ s.cuts.getD (s.taken - 1) 0 = 0
  going : ∀ j, j + 1 < s.taken → s.cuts.getD j 0 ≠ 0
  last : s.atEnd = false → s.net ≠ .checkEnd → ∀ j < s.taken, s.cuts.getD j 0 ≠ 0
  wanted : s.net = .making ∨ s.net = .takeFec ∨ s.net = .checkEnd → s.atEnd = false
  shift : s.net = .shift → ∀ r, s.rexmitSlice = some r → (s.slices r).state ≠ .acked
  post : s.net.PostShift → ∀ x, s.xmitSlice = some x → (s.slices x).state = .xmitted →
    ∃ r, s.rexmitSlice = some r ∧ (s.slices r).state ≠ .acked
  tested : s.net = .send ∨ s.net = .exitTest → s.xmitSlice = none →
    s.atEnd = true ∨ s.config.sn = false ∧ s.rexmitSlice ≠ none
  begun : s.net = .exitTest → ∀ x, s.xmitSlice = some x → (s.slices x).state ≠ .new
  waiting : s.net = .wait ∨ s.net = .timeout → s.config.async = false ∧ s.rexmitSlice ≠ none
  exited : StopsInTime s

variable {s s' : State}

section SliceSize

variable {config : NetConfig} {slice : Slice}

/-- Growing does not lead to empty slices. -/
theorem growSliceSize_pos (hpos : 0 < config.sliceSize) (hmax : 0 < config.maxSliceSize) :
    0 < (growSliceSize config).sliceSize ∧ 0 < (growSliceSize config).maxSliceSize := by
  unfold growSliceSize
  dsimp only
  split
  · split
    · exact ⟨hmax, hmax⟩
    · exact ⟨by dsimp only; omega, hmax⟩
  · exact ⟨hpos, hmax⟩

/-- Nor does shrinking. -/
theorem shrinkSliceSize_pos (hpos : 0 < config.sliceSize) (hmax : 0 < config.maxSliceSize) :
    0 < (shrinkSliceSize config slice).sliceSize ∧
      0 < (shrinkSliceSize config slice).maxSliceSize := by
  unfold shrinkSliceSize
  dsimp only
  split
  · have hleast : ∀ n : ℕ, 0 < if n < 32 then 32 else n := by
      intro n
      split <;> omega
    exact ⟨hleast _, hmax⟩
  · exact ⟨hpos, hmax⟩

/-- The two numbers agree if the product fits into an `int`. -/
theorem fecBlocks_eq_fecCount (h : config.fec = true →
    0 ≤ config.fecStripes * config.fecRedundancy ∧
      config.fecStripes * config.fecRedundancy < 2 ^ 31) :
    fecBlocks config = fecCount config := by
  unfold fecBlocks fecCount
  split
  · rename_i hfec
    obtain ⟨hnonneg, hlt⟩ := h hfec
    rw [mul_comm, toInt_of_mem (by omega) hlt, Int.toNat_of_nonneg hnonneg]
  · rfl

/-- A slice that is transmitted is sent with all its FEC blocks. -/
theorem Transmitted.wholly {network : List ServerMsg} {j bytes : ℕ}
    (h : Transmitted config network j bytes) (hcount : fecBlocks config = fecCount config) :
    WhollySent config network j bytes :=
  fun k hk => h k (by rw [hcount]; exact_mod_cast hk)

/-- The first size is within the maximum. -/
theorem initSliceSize_le (config : NetConfig) :
    (initSliceSize config).sliceSize ≤ (initSliceSize config).maxSliceSize := by
  apply Int.toNat_le_toNat
  unfold limitedSliceSize
  split <;> omega

/-- A slice is empty only if nothing is waiting. -/
theorem sliceBytes_pos {n : ℕ} (hbs : 0 < config.blockSize) (hpos : 0 < config.sliceSize)
    (hn : 0 < n) : 0 < sliceBytes config n := by
  have hblock : config.blockSize ≤ config.blockSize * config.sliceSize :=
    Nat.le_mul_of_pos_right _ hpos
  have hround : ∀ m, config.blockSize < m → 0 < m - m % config.blockSize := fun m hm => by
    have := Nat.mod_lt m hbs
    omega
  unfold sliceBytes
  dsimp only
  split
  · split
    · exact hround _ (by assumption)
    · omega
  · split
    · exact hround _ (by assumption)
    · exact hn

end SliceSize

section Frames

/-- The notes on slices do not matter here. -/
theorem ending_core {slices : ℕ → Slice} (h : Ending s)
    (hcore : ∀ k, (slices k).core = (s.slices k).core) : Ending { s with slices := slices } := by
  have hbytes : ∀ k, (slices k).bytes = (s.slices k).bytes := fun k =>
    congrArg SliceCore.bytes (hcore k)
  have hstate : ∀ k, (slices k).state = (s.slices k).state := fun k =>
    congrArg SliceCore.state (hcore k)
  exact { h with
    making := fun i hi hzero => h.making i hi (by rw [← hbytes]; exact hzero)
    shift := fun hn r hr => by
      dsimp only
      rw [hstate]
      exact h.shift hn r hr
    post := fun hn x hx hx' => by
      obtain ⟨r, hr, hr'⟩ := h.post hn x hx (by rw [← hstate]; exact hx')
      exact ⟨r, hr, by dsimp only; rw [hstate]; exact hr'⟩
    begun := fun hn x hx => by
      dsimp only
      rw [hstate]
      exact h.begun hn x hx }

/-- Notes on a slice do not acknowledge it or take that back. -/
theorem asyncAcked_core {slices : ℕ → Slice} (h : AsyncAcked s)
    (hcore : ∀ k, (slices k).core = (s.slices k).core) :
    AsyncAcked { s with slices := slices } := by
  intro hasync hnet r hr
  have hbytes : (slices r).bytes = (s.slices r).bytes := congrArg SliceCore.bytes (hcore r)
  have hstate : (slices r).state = (s.slices r).state := congrArg SliceCore.state (hcore r)
  dsimp only
  rw [hbytes, hstate]
  exact h hasync hnet r hr

/-- A slot updated with the same core changes no core. -/
theorem core_update_of_core {i : ℕ} {slice : Slice} (hcore : slice.core = (s.slices i).core)
    (k : ℕ) : (Function.update s.slices i slice k).core = (s.slices k).core := by
  rcases eq_or_ne k i with rfl | hne
  · rw [Function.update_self, hcore]
  · rw [Function.update_of_ne hne]

/-- New notes on a slice do not matter for the end. -/
theorem ending_setSlice {i : ℕ} {slice : Slice} (h : Ending s)
    (hcore : slice.core = (s.slices i).core) : Ending (s.setSlice i slice) :=
  ending_core h (core_update_of_core hcore)

/-- Nor for what async mode acknowledges. -/
theorem asyncAcked_setSlice {i : ℕ} {slice : Slice} (h : AsyncAcked s)
    (hcore : slice.core = (s.slices i).core) : AsyncAcked (s.setSlice i slice) :=
  asyncAcked_core h (core_update_of_core hcore)

/-- Steps from one point of the loop to another. -/
theorem ending_net {net : NetPc} (h : Ending s) (hinit : s.net ≠ .init)
    (hnet : net ≠ .init ∧ net ≠ .checkEnd ∧ net ≠ .shift ∧ net ≠ .exited ∧ net ≠ .making ∧
      net ≠ .takeFec ∧ net ≠ .send ∧ net ≠ .exitTest ∧ net ≠ .wait ∧ net ≠ .timeout)
    (hcheck : s.net ≠ .checkEnd) (hpost : net.PostShift → s.net.PostShift) :
    Ending { s with net := net } := by
  obtain ⟨h1, h2, h3, h4, h5, h6, h7, h8, h9, h10⟩ := hnet
  exact { h with
    maxSliceSize_pos := fun _ => h.maxSliceSize_pos hinit
    first := fun hn => absurd hn h1
    last := fun ha _ => h.last ha hcheck
    wanted := by rintro (hn | hn | hn) <;> contradiction
    shift := fun hn => absurd hn h3
    post := fun hn => h.post (hpost hn)
    tested := by rintro (hn | hn) <;> contradiction
    begun := fun hn => absurd hn h8
    waiting := by rintro (hn | hn) <;> contradiction
    exited := fun hn => absurd hn h4 }

/-- The reader keeps to the way to the end. -/
theorem ending_readerStep {n : ℕ} (h : Ending s) (hstep : readerStep s n = some s') :
    Ending s' := by
  rw [readerStep_frame hstep]
  exact { h with }

/-- The reader acknowledges nothing. -/
theorem asyncAcked_readerStep {n : ℕ} (h : AsyncAcked s) (hstep : readerStep s n = some s') :
    AsyncAcked s' := by
  rw [readerStep_frame hstep]
  exact h

/-- Another cut takes nothing from what is complete. -/
theorem Completed.append {cuts : List ℕ} (h : Completed s) :
    Completed { s with cuts := s.cuts ++ cuts } := by
  obtain ⟨n, hn, hempty, hinput, hsent, hacked⟩ := h
  have hgetD : ∀ j < s.cuts.length, (s.cuts ++ cuts).getD j 0 = s.cuts.getD j 0 :=
    fun j hj => List.getD_append _ _ _ _ hj
  refine ⟨n, by simp; omega, ?_, ?_, fun j hj => ?_, hacked⟩
  · dsimp only
    rw [hgetD n hn, hempty]
  · dsimp only
    rw [startOf, List.take_append_of_le_length hn.le]
    exact hinput
  · dsimp only
    rw [hgetD j (by omega)]
    exact hsent j hj

end Frames

section Cutter

/-- A slot that `netSenderMain` does not hold may be filled. -/
theorem ending_fill {i : ℕ} {v : Slice} (h : Ending s)
    (hheld : ∀ k, s.net ≠ .freeLoop → s.xmitSlice = some k ∨ s.rexmitSlice = some k → k ≠ i)
    (hmaking : ∀ k, s.cutter ≠ .consumedData k) : Ending (s.setSlice i v) := by
  have hother : ∀ k, s.net ≠ .freeLoop → s.xmitSlice = some k ∨ s.rexmitSlice = some k →
      Function.update s.slices i v k = s.slices k := fun k hnet hk =>
    Function.update_of_ne (hheld k hnet hk) ..
  exact { h with
    making := fun k hk => absurd hk (hmaking k)
    shift := fun hn r hr => by
      change (Function.update s.slices i v r).state ≠ _
      rw [hother r (by simp [show s.net = .shift from hn]) (.inr hr)]
      exact h.shift hn r hr
    post := fun hn x hx hx' => by
      have hnet : s.net ≠ .freeLoop := fun hfree => by
        rw [show (s.setSlice i v).net = s.net from rfl, hfree] at hn
        exact hn
      change (Function.update s.slices i v x).state = _ at hx'
      rw [hother x hnet (.inl hx)] at hx'
      obtain ⟨r, hr, hr'⟩ := h.post hn x hx hx'
      refine ⟨r, hr, ?_⟩
      change (Function.update s.slices i v r).state ≠ _
      rw [hother r hnet (.inr hr)]
      exact hr'
    begun := fun hn x hx => by
      change (Function.update s.slices i v x).state ≠ _
      rw [hother x (by simp [show s.net = .exitTest from hn]) (.inl hx)]
      exact h.begun hn x hx }

/-- A slot that is filled is not the one for retransmissions. -/
theorem asyncAcked_fill {i : ℕ} {v : Slice} (h : AsyncAcked s)
    (hheld : ∀ k, s.net ≠ .freeLoop → s.xmitSlice = some k ∨ s.rexmitSlice = some k → k ≠ i) :
    AsyncAcked (s.setSlice i v) := by
  intro hasync hnet r hr
  change (Function.update s.slices i v r).bytes = 0 ∨
    (Function.update s.slices i v r).state = .acked
  rw [Function.update_of_ne (hheld r hnet (.inr hr))]
  exact h hasync hnet r hr

/-- Nothing is left to cut when `makeSlice` finds nothing waiting. -/
theorem sum_eq_of_sliceBytes {n : ℕ} (hinv : Inv s)
    (hpos : 0 < s.inputSize → 0 < s.config.sliceSize) (hn : s.CanTake n)
    (hzero : sliceBytes s.config n = 0) : s.cuts.sum = s.inputSize := by
  have hring := hinv.ring
  have hbs : 0 < s.config.blockSize := hring.blockSize_pos
  have hcut : s.cuts.sum ≤ s.readTotal := hring.cut_le_read
  have hread : s.readTotal ≤ s.freeTaken := hring.read_le_taken
  have htaken : s.freeTaken ≤ s.inputPos := hring.taken_le_input
  have hinput : s.inputPos ≤ s.inputSize := hring.inputPos_le
  rcases Nat.eq_zero_or_pos s.inputSize with hempty | hsome
  · omega
  have hnone : n = 0 := by
    by_contra hne
    have := sliceBytes_pos hbs (hpos hsome) (Nat.pos_of_ne_zero hne)
    omega
  obtain ⟨hrest, hend⟩ := hn.2.resolve_left (by omega)
  rw [show pcGetWaiting s.data = s.readTotal - s.cuts.sum from hring.data.pcGetWaiting_eq] at hrest
  obtain ⟨hexit, hlast⟩ := hring.ended hend
  have hreader := hring.reader
  simp only [RingView.ReaderInv, hexit] at hreader
  have hall : s.inputPos = s.readTotal := hreader.2
  have hlast' : s.inputPos = s.inputSize := hlast
  omega

/-- A slice of the size `bytes` is cut; an empty one only at the end of the input. -/
theorem empty_append {bytes : ℕ} (h : Ending s) (hlast : bytes = 0 → s.cuts.sum = s.inputSize) :
    ∀ j < (s.cuts ++ [bytes]).length, (s.cuts ++ [bytes]).getD j 0 = 0 →
      startOf (s.cuts ++ [bytes]) j = s.inputSize := by
  intro j hj hzero
  rw [List.length_append, List.length_singleton] at hj
  rw [startOf_append (by omega)]
  rcases Nat.lt_succ_iff_lt_or_eq.mp hj with hold | rfl
  · rw [List.getD_append _ _ _ _ hold] at hzero
    exact h.empty j hold hzero
  · rw [startOf_length]
    exact hlast (by simpa using hzero)

/-- The slice that is cut is empty only at the end of the input. -/
theorem ending_consumedData {i : ℕ} (hinv : Inv s) (h : Ending s) (hasync : AsyncAcked s)
    (hpc : s.cutter = .consumedData i) (hstep : cutterStep s = some s') :
    Ending s' ∧ AsyncAcked s' := by
  have hring := hinv.ring
  have htaken : s.taken ≤ s.cuts.length := le_of_add_le_left hring.taken_le
  have hallocated : s.allocated = s.cuts.length + s.cutter.making := hring.allocated_eq
  rw [hpc] at hallocated
  have hmaking : (CutterPc.consumedData i).making = 1 := rfl
  have hle : s.allocated ≤ 2 + s.freed := hring.freeSlices.consumed_le
  have hi : i = s.cuts.length % 2 := by
    have hcutter := hring.cutter
    simp only [RingView.CutterInv, State.ring, hpc] at hcutter
    exact hcutter.1
  have hheld : ∀ k, s.net ≠ .freeLoop → s.xmitSlice = some k ∨ s.rexmitSlice = some k → k ≠ i :=
    fun k hnet hk => by
      rw [hi]
      exact hinv.held_ne hnet (by omega) hk
  have hgetD : ∀ j < s.cuts.length,
      (s.cuts ++ [(s.slices i).bytes]).getD j 0 = s.cuts.getD j 0 :=
    fun j hj => List.getD_append _ _ _ _ hj
  have hempty := empty_append h (h.making i hpc)
  simp only [cutterStep, hpc, Option.some.injEq] at hstep
  cases hfec : s.config.fec with
  | true =>
    rw [if_pos (by exact hfec)] at hstep
    subst hstep
    have hcut : Ending { s with
        data := pcConsumed s.data (s.slices i).bytes
        cuts := s.cuts ++ [(s.slices i).bytes], cutter := .encode i } :=
      { h with
        empty := hempty
        making := by simp
        atEnd := fun hend => by
          obtain ⟨hpos, hzero⟩ := h.atEnd hend
          exact ⟨hpos, by dsimp only; rw [hgetD _ (by omega)]; exact hzero⟩
        going := fun j hj => by
          have hj' : j + 1 < s.taken := hj
          dsimp only
          rw [hgetD j (by omega)]
          exact h.going j hj
        last := fun hend hcheck j hj => by
          have hj' : j < s.taken := hj
          dsimp only
          rw [hgetD j (by omega)]
          exact h.last hend hcheck j hj
        exited := fun hn => (h.exited hn).imp_right fun hdone => hdone.append }
    exact ⟨ending_fill hcut hheld (by simp), asyncAcked_fill hasync hheld⟩
  | false =>
    rw [if_neg (by simp [State.setSlice, hfec])] at hstep
    have hnet : s.net = .making := by
      by_contra hne
      exact absurd ((hinv.net.cutter_notFec hfec).mpr hne) (by simp [State.ring, hpc])
    have hgoing := h.wanted (.inl hnet)
    subst hstep
    refine ⟨?_, fun ha _ r hr => asyncAcked_fill hasync hheld ha (by simp [State.setSlice, hnet]) r hr⟩
    exact { h with
      maxSliceSize_pos := fun _ => h.maxSliceSize_pos (by simp [hnet])
      first := by simp
      empty := hempty
      making := by simp
      atEnd := fun hend => by
        have hend' : s.atEnd = true := hend
        simp [hgoing] at hend'
      going := fun j hj => by
        have hj' : j + 1 < s.taken + 1 := hj
        change (s.cuts ++ [(s.slices i).bytes]).getD j 0 ≠ 0
        rw [hgetD j (by omega)]
        exact h.last hgoing (by simp [hnet]) j (by omega)
      last := fun _ hcheck => absurd rfl hcheck
      wanted := fun _ => hgoing
      shift := by simp
      post := fun _ x hx hx' => by
        obtain rfl := Option.some.inj hx
        simp [State.setSlice] at hx'
      tested := by simp
      begun := by simp
      waiting := by simp
      exited := fun hn => by simp at hn }

/-- `makeSlice` chooses the size of a slice, which is empty only at the end of the input. -/
theorem ending_takeData {i n : ℕ} (hinv : Inv s) (h : Ending s) (hasync : AsyncAcked s)
    (hpc : s.cutter = .consumeData i) (hn : s.CanTake n) :
    Ending (s.takeData i n) ∧ AsyncAcked (s.takeData i n) := by
  have hring := hinv.ring
  have hallocated : s.allocated = s.cuts.length + s.cutter.making := hring.allocated_eq
  have hle : s.allocated ≤ 2 + s.freed := hring.freeSlices.consumed_le
  obtain rfl : i = s.cuts.length % 2 := by
    simpa only [RingView.CutterInv, State.ring, hpc] using hring.cutter
  rw [hpc] at hallocated
  have hmaking : (CutterPc.consumeData (s.cuts.length % 2)).making = 1 := rfl
  have hheld : ∀ k, s.net ≠ .freeLoop → s.xmitSlice = some k ∨ s.rexmitSlice = some k →
      k ≠ s.cuts.length % 2 :=
    fun k hnet hk => hinv.held_ne hnet (by omega) hk
  have hfill := ending_fill (v := { s.slices (s.cuts.length % 2) with
    base := pcGetConsumerPosition s.data, sliceNo := s.sliceNo, bytes := sliceBytes s.config n }) h
    hheld (by simp [hpc])
  refine ⟨{ hfill with making := fun k hk hzero => ?_ }, asyncAcked_fill hasync hheld⟩
  obtain rfl := CutterPc.consumedData.inj hk
  simp only [State.takeData, State.setSlice, Function.update_self] at hzero
  exact sum_eq_of_sliceBytes (s := s) hinv h.sliceSize_pos hn hzero

/-- `makeSlice` and the FEC thread keep to the way to the end. -/
theorem ending_cutterStep (hinv : Inv s) (h : Ending s) (hasync : AsyncAcked s)
    (hstep : cutterStep s = some s') : Ending s' ∧ AsyncAcked s' := by
  have hring := hinv.ring
  have hallocated : s.allocated = s.cuts.length + s.cutter.making := hring.allocated_eq
  have hle : s.allocated ≤ 2 + s.freed := hring.freeSlices.consumed_le
  have hheld : s.cuts.length ≤ s.freed + 1 → ∀ k, s.net ≠ .freeLoop →
      s.xmitSlice = some k ∨ s.rexmitSlice = some k → k ≠ s.cuts.length % 2 :=
    fun hlength k hnet hk => hinv.held_ne hnet hlength hk
  cases hpc : s.cutter with
  | idle => simp [cutterStep, hpc] at hstep
  | consumedData i => exact ending_consumedData hinv h hasync hpc hstep
  | consumeSlot =>
    simp only [cutterStep, hpc, Option.map_eq_some_iff] at hstep
    obtain ⟨n, -, rfl⟩ := hstep
    exact ⟨{ h with making := by simp }, hasync⟩
  | consumedSlot =>
    have hpos : pcGetConsumerPosition s.freeSlicesPc = s.cuts.length % 2 := hring.slot_eq hpc
    have hfree : (s.slices (s.cuts.length % 2)).state = .free := hring.slot_free hpc
    have hlength : s.cuts.length ≤ s.freed + 1 := by
      simpa only [RingView.CutterInv, State.ring, hpc] using hring.cutter
    simp only [cutterStep, hpc, hpos, hfree, if_true, Option.some.injEq] at hstep
    have hfill := ending_fill (v := .zero (s.slices (s.cuts.length % 2)).fecData) h
      (hheld hlength) (by simp [hpc])
    have hfill' := asyncAcked_fill (v := .zero (s.slices (s.cuts.length % 2)).fecData) hasync
      (hheld hlength)
    subst hstep
    exact ⟨{ hfill with making := by simp [State.setSlice] }, hfill'⟩
  | consumeData i =>
    simp only [cutterStep, hpc, Option.map_eq_some_iff] at hstep
    obtain ⟨n, hn, rfl⟩ := hstep
    exact ending_takeData hinv h hasync hpc (canTake_of_pcConsume hn)
  | encode i =>
    simp only [cutterStep, hpc, Option.some.injEq] at hstep
    have hmove : Ending { s with
        dataBuffer := padLastBlock s (s.slices i), cutter := .produceFec } :=
      { h with making := by simp }
    subst hstep
    split
    · exact ⟨ending_setSlice hmove rfl, asyncAcked_setSlice (s := { s with
        dataBuffer := padLastBlock s (s.slices i), cutter := .produceFec }) hasync rfl⟩
    · exact ⟨{ hmove with }, hasync⟩
  | produceFec =>
    simp only [cutterStep, hpc, Option.some.injEq] at hstep
    subst hstep
    split
    · exact ⟨{ h with making := by simp }, hasync⟩
    · exact ⟨{ h with }, hasync⟩

end Cutter

section Net

variable {r x i : ℕ}

/-- Another slice size keeps to it, if it is not 0. -/
theorem ending_config {config : NetConfig} (h : Ending s) (hinit : s.net ≠ .init)
    (hexit : s.net ≠ .exited) (hsame : SameMode s.config config)
    (hpos : 0 < s.inputSize → 0 < config.sliceSize ∧ 0 < config.maxSliceSize) :
    Ending { s with config := config } := by
  have hsn : config.sn = s.config.sn := by rw [hsame]
  have hasync : config.async = s.config.async := by rw [hsame]
  exact { h with
    sliceSize_pos := fun hsome => (hpos hsome).1
    maxSliceSize_pos := fun _ hsome => (hpos hsome).2
    first := fun hn => absurd hn hinit
    async_sn := by
      dsimp only
      rw [hsn, hasync]
      exact h.async_sn
    fecCount_eq := by
      rw [hsame]
      exact h.fecCount_eq
    tested := by
      dsimp only
      rw [hsn]
      exact h.tested
    waiting := by
      dsimp only
      rw [hasync]
      exact h.waiting
    exited := fun hn => absurd hn hexit }

/-- So does another set of participants. -/
theorem ending_db {db : ParticipantsDb} (h : Ending s) (hexit : s.net ≠ .exited) :
    Ending { s with db := db } :=
  { h with exited := fun hn => absurd hn hexit }

/-- So do more messages. -/
theorem ending_network (h : Ending s) (hexit : s.net ≠ .exited) (ms : List ServerMsg) :
    Ending { s with network := ms ++ s.network } :=
  { h with exited := fun hn => absurd hn hexit }

/-- `ackSlice`; between the shift and the end of a turn it has an effect only while no
slice is being transmitted. -/
theorem ending_ackSlice (h : Ending s)
    (hnet : s.net ≠ .init ∧ s.net ≠ .shift ∧ s.net ≠ .exited)
    (hpost : s.net.PostShift → s.xmitSlice = none ∨ (s.slices r).state = .acked) :
    Ending (ackSlice s r) := by
  obtain ⟨hinit, hshift, hexit⟩ := hnet
  unfold ackSlice
  dsimp only
  split
  · exact h
  · rename_i hstate
    have hnone : s.net.PostShift → s.xmitSlice = none := fun hn => (hpost hn).resolve_right hstate
    have hconfig := ending_config h hinit hexit (sameMode_growSliceSize s.config)
      fun hsome => growSliceSize_pos (h.sliceSize_pos hsome) (h.maxSliceSize_pos hinit hsome)
    have hacked : Ending ({ s with
        config := growSliceSize s.config
        acked := s.acked + 1
        ackedBy := Function.update s.ackedBy (s.slices r).sliceNo (s.slices r).readySet }.setSlice r
          { s.slices r with state := .acked }) :=
      { hconfig with
        making := fun k hk hzero => by
          apply h.making k hk
          rcases eq_or_ne k r with rfl | hne
          · simpa [State.setSlice] using hzero
          · simpa [State.setSlice, hne] using hzero
        shift := fun hn => absurd hn hshift
        post := fun hn y hy => by
          have hy' : s.xmitSlice = some y := hy
          simp [hnone hn] at hy'
        begun := fun hn y hy => by
          have hn' : s.net = .exitTest := hn
          have hy' : s.xmitSlice = some y := hy
          simp [hnone (by rw [hn']; trivial)] at hy'
        exited := fun hn => absurd hn hexit }
    split
    · exact { hacked with exited := fun hn => absurd hn hexit }
    · exact { hacked with exited := fun hn => absurd hn hexit }

/-- An acknowledgement is what async mode asks for. -/
theorem asyncAcked_ackSlice (hr : s.rexmitSlice = some r) : AsyncAcked (ackSlice s r) := by
  unfold ackSlice
  dsimp only
  split
  · rename_i hstate
    intro _ _ k hk
    obtain rfl := Option.some.inj (hr.symm.trans hk)
    exact .inr hstate
  · split
    all_goals
      intro _ _ k hk
      obtain rfl := Option.some.inj (hr.symm.trans hk)
      exact .inr (by simp [State.setSlice, State.fail])

/-- `sendReqack` under the same condition. -/
theorem ending_sendReqack (h : Ending s)
    (hnet : s.net ≠ .init ∧ s.net ≠ .shift ∧ s.net ≠ .exited)
    (hpost : s.net.PostShift → s.config.async = true → (s.slices r).bytes ≠ 0 →
      s.xmitSlice = none ∨ (s.slices r).state = .acked) : Ending (sendReqack s r) := by
  unfold sendReqack
  dsimp only
  split
  · rename_i hasync
    exact ending_ackSlice h hnet fun hn => hpost hn hasync.1 hasync.2
  · split
    · exact h
    · have hconfig := ending_config h hnet.1 hnet.2.2 (sameMode_shrinkSliceSize s.config (s.slices r))
        fun hsome => shrinkSliceSize_pos (h.sliceSize_pos hsome) (h.maxSliceSize_pos hnet.1 hsome)
      exact ending_setSlice (ending_network hconfig hnet.2.2 [_]) rfl

/-- A REQACK takes no acknowledgement back. -/
theorem asyncAcked_sendReqack (hr : s.rexmitSlice = some r) : AsyncAcked (sendReqack s r) := by
  unfold sendReqack
  dsimp only
  split
  · exact asyncAcked_ackSlice hr
  · rename_i hasync
    have hzero : s.config.async = true → (s.slices r).bytes = 0 := fun ha => by
      by_contra hne
      exact hasync ⟨ha, hne⟩
    split
    · intro ha _ k hk
      obtain rfl := Option.some.inj (hr.symm.trans hk)
      exact .inl (hzero ha)
    · intro ha _ k hk
      obtain rfl := Option.some.inj (hr.symm.trans hk)
      change (shrinkSliceSize s.config (s.slices r)).async = true at ha
      rw [sameMode_shrinkSliceSize] at ha
      exact .inl (by simpa [State.setSlice, startRound] using hzero ha)

/-- Everything is sent when the empty slice has left the transmission slot. -/
theorem completed (hinv : Inv s) (hprog : Progress s) (h : Ending s) (hnet : s.net.Steady)
    (hend : s.atEnd = true) (hx : s.xmitSlice = none)
    (hdone : s.config.async = true ∨ s.rexmitSlice = none) : Completed s := by
  obtain ⟨hpos, hzero⟩ := h.atEnd hend
  have htaken : s.taken = s.freed + slotCount s.rexmitSlice + slotCount s.xmitSlice :=
    hinv.net.taken_eq hnet.ne.1
  have hlength : s.taken ≤ s.cuts.length := le_of_add_le_left hinv.ring.taken_le
  have hfreed : s.freed ≤ s.acked := hinv.ring.freed_le
  have hcount : slotCount s.xmitSlice = 0 := by rw [hx]; rfl
  refine ⟨s.taken - 1, by omega, hzero, h.empty _ (by omega) hzero, fun j hj => ?_, fun ha j hj => ?_⟩
  · rcases Nat.lt_or_ge j s.freed with hold | hge
    · exact (hprog.freed j hold).wholly h.fecCount_eq
    · cases hr : s.rexmitSlice with
      | none =>
        have hrcount : slotCount s.rexmitSlice = 0 := by rw [hr]; rfl
        omega
      | some r =>
        have hrcount : slotCount s.rexmitSlice = 1 := by rw [hr]; rfl
        obtain ⟨-, hslot, hstate, hlt⟩ := hprog.rexmit_sent hinv hnet hr
        obtain rfl : j = s.freed := by omega
        exact (hslot.transmitted hlt hstate).wholly h.fecCount_eq
  · have hr : s.rexmitSlice = none := hdone.resolve_left (by simp [ha])
    have hrcount : slotCount s.rexmitSlice = 0 := by rw [hr]; rfl
    exact hprog.acked ha j (by omega)

/-- In async mode nothing is left in the transmission slot when the loop is left. -/
theorem Ending.xmit_none (hinv : Inv s) (hprog : Progress s) (h : Ending s) (hasync : AsyncAcked s)
    (hpc : s.net = .exitTest) (ha : s.config.async = true) : s.xmitSlice = none := by
  have hsteady : s.net.Steady := by rw [hpc]; trivial
  have hlength : s.taken ≤ s.cuts.length := le_of_add_le_left hinv.ring.taken_le
  by_contra hne
  obtain ⟨x, hx⟩ := Option.ne_none_iff_exists'.mp hne
  obtain ⟨j, hj, -, hfreed, hcurrent, hacked, -, hholds⟩ := hprog.xmit_last hinv hsteady hx
  have hstate : (s.slices x).state = .xmitted :=
    (hholds.state_taken hacked (by omega)).resolve_left (h.begun hpc x hx)
  obtain ⟨r, hr, hrstate⟩ := h.post (by rw [hpc]; trivial) x hx hstate
  have hzero := (hasync ha hsteady.ne.1 r hr).resolve_right hrstate
  have htaken : s.taken = s.freed + slotCount s.rexmitSlice + slotCount s.xmitSlice :=
    hinv.net.taken_eq hsteady.ne.1
  have hcount : slotCount s.rexmitSlice = 1 ∧ slotCount s.xmitSlice = 1 := by
    rw [hr, hx]
    exact ⟨rfl, rfl⟩
  have hrexmit : r = s.freed % 2 := hinv.net.rexmit_eq hsteady.ne.1 r hr
  have hslot := hinv.ring.slots s.freed le_rfl (Nat.lt_add_of_pos_right (by omega))
  have hbytes : (s.slices (s.freed % 2)).bytes = s.cuts.getD s.freed 0 :=
    hslot.bytes_eq (show s.freed < s.cuts.length by omega)
  rw [hrexmit, hbytes] at hzero
  exact h.going s.freed (by omega) hzero

/-- In async mode the loop comes to an end only after the end of the input. -/
theorem Ending.atEnd_of_async (hinv : Inv s) (h : Ending s) (hpc : s.net = .exitTest)
    (ha : s.config.async = true) (hx : s.xmitSlice = none) : s.atEnd = true := by
  have hsteady : s.net.Steady := by rw [hpc]; trivial
  rcases h.tested (.inr hpc) hx with hend | ⟨hsn, hr⟩
  · exact hend
  · by_contra hgoing
    have hempty : s.inputSize = 0 := by
      by_contra hne
      simp [h.async_sn ha (Nat.pos_of_ne_zero hne)] at hsn
    obtain ⟨r, hr⟩ := Option.ne_none_iff_exists'.mp hr
    have htaken : s.taken = s.freed + slotCount s.rexmitSlice + slotCount s.xmitSlice :=
      hinv.net.taken_eq hsteady.ne.1
    have hcount : slotCount s.rexmitSlice = 1 := by rw [hr]; rfl
    have hlength : s.taken ≤ s.cuts.length := le_of_add_le_left hinv.ring.taken_le
    have hcut : s.cuts.sum ≤ s.readTotal := hinv.ring.cut_le_read
    have hread : s.readTotal ≤ s.freeTaken := hinv.ring.read_le_taken
    have hinput : s.freeTaken ≤ s.inputPos := hinv.ring.taken_le_input
    have hle : s.inputPos ≤ s.inputSize := hinv.ring.inputPos_le
    have hzero : s.cuts.getD 0 0 = 0 := by
      have hstart := startOf_succ (show 0 < s.cuts.length by omega)
      have hle' : startOf s.cuts (0 + 1) ≤ s.cuts.sum := startOf_le_sum _
      omega
    exact h.last (Bool.eq_false_iff.mpr hgoing) (by simp [hpc]) 0 (by omega) hzero

/-- Leaving the main loop is right once everything is sent or nobody is left. -/
theorem ending_exitMainLoop (h : Ending s) (hinit : s.net ≠ .init) (hcheck : s.net ≠ .checkEnd)
    (hdone : s.config.async = false ∧ s.db.nrParticipants = 0 ∨ Completed s) :
    Ending (exitMainLoop s) :=
  { h with
    maxSliceSize_pos := fun _ => h.maxSliceSize_pos hinit
    first := by simp [exitMainLoop]
    last := fun hend _ => h.last hend hcheck
    wanted := by simp [exitMainLoop]
    shift := by simp [exitMainLoop]
    post := fun hn => hn.elim
    tested := by simp [exitMainLoop]
    begun := by simp [exitMainLoop]
    waiting := by simp [exitMainLoop]
    exited := fun _ => hdone }

/-- Where the thread is does not matter for what async mode acknowledges. -/
theorem asyncAcked_net {net : NetPc} (h : AsyncAcked s) (hnet : s.net ≠ .freeLoop) :
    AsyncAcked { s with net := net } :=
  fun ha _ r hr => h ha hnet r hr

/-- The two slots are different. -/
theorem Inv.slots_ne (h : Inv s) (hnet : s.net.Steady) (hx : s.xmitSlice = some x)
    (hr : s.rexmitSlice = some r) : r ≠ x := by
  have htaken : s.taken = s.freed + slotCount s.rexmitSlice + slotCount s.xmitSlice :=
    h.net.taken_eq hnet.ne.1
  have hcount : slotCount s.rexmitSlice = 1 ∧ slotCount s.xmitSlice = 1 := by
    rw [hr, hx]
    exact ⟨rfl, rfl⟩
  have hrexmit : r = s.freed % 2 := h.net.rexmit_eq hnet.ne.1 r hr
  have hxmit : x = (s.taken + 1) % 2 := h.net.xmit_eq x hx
  omega

/-- The end of a slice keeps to the way to the end. -/
theorem ending_finishSending (hinv : Inv s) (h : Ending s) (hasync : AsyncAcked s)
    (hnet : s.net.Plain) (hplace : s.net ≠ .init ∧ s.net ≠ .checkEnd)
    (hx : s.xmitSlice = some x) : Ending (finishSending s x i) ∧ AsyncAcked (finishSending s x i) := by
  have hmove : Ending { s with net := .loopTest } :=
    ending_net h hplace.1 (by simp) hplace.2 fun hn => hn.elim
  have hasync' : AsyncAcked { s with net := .loopTest } := asyncAcked_net hasync hnet.ne.1
  unfold finishSending
  dsimp only
  generalize hslice : (if i = getSliceBlocks { s.slices x with nextBlock := i } s.config +
    fecBlocks s.config then { s.slices x with nextBlock := i, needRxmit := false, state := .xmitted }
    else { s.slices x with nextBlock := i }) = slice
  have hbytes : slice.bytes = (s.slices x).bytes := by
    rw [← hslice]
    split <;> rfl
  constructor
  · exact { hmove with
      making := fun k hk hzero => by
        apply h.making k hk
        rcases eq_or_ne k x with rfl | hne
        · simpa [State.setSlice, hbytes] using hzero
        · simpa [State.setSlice, hne] using hzero
      shift := by simp [State.setSlice]
      post := fun hn => hn.elim
      begun := by simp [State.setSlice] }
  · intro ha hn k hk
    have hne := hinv.slots_ne hnet.steady hx hk
    simp only [State.setSlice, Function.update_of_ne hne]
    exact hasync' ha hn k hk

/-- So does a block that is sent. -/
theorem ending_sendingStep (hinv : Inv s) (h : Ending s) (hasync : AsyncAcked s)
    (hpc : s.net = .sending i) (hx : s.xmitSlice = some x) :
    Ending (sendingStep s x i) ∧ AsyncAcked (sendingStep s x i) := by
  have hplain : s.net.Plain := by rw [hpc]; trivial
  have hplace : s.net ≠ .init ∧ s.net ≠ .checkEnd ∧ s.net ≠ .exited := by simp [hpc]
  unfold sendingStep
  dsimp only
  split
  · split
    · rename_i ms _
      have hsent := ending_network h hplace.2.2 ms
      split
      · exact ⟨ending_net hsent hplace.1 (by simp) hplace.2.1 fun _ => by
          change s.net.PostShift
          rw [hpc]
          trivial, asyncAcked_net (s := { s with network := ms ++ s.network }) hasync hplain.ne.1⟩
      · exact ending_finishSending (hinv.move ⟨rfl, rfl, rfl, rfl, rfl, rfl, rfl, hinv.noOverflow⟩
          hplain hplain) hsent hasync hplain ⟨hplace.1, hplace.2.1⟩ hx
    · exact ⟨{ h with }, hasync⟩
  · exact ending_finishSending hinv h hasync hplain ⟨hplace.1, hplace.2.1⟩ hx

/-- So does the move of a slice to the slot for retransmissions. -/
theorem ending_shift (h : Ending s) (hasync : AsyncAcked s) (hpc : s.net = .shift)
    (hstep : netStep s = some s') : Ending s' ∧ AsyncAcked s' := by
  have hstay : (∀ x, s.xmitSlice = some x → (s.slices x).state = .xmitted →
      ∃ r, s.rexmitSlice = some r ∧ (s.slices r).state ≠ .acked) →
      Ending { s with net := .messages } ∧ AsyncAcked { s with net := .messages } := fun hpost =>
    ⟨{ h with
      maxSliceSize_pos := fun _ => h.maxSliceSize_pos (by simp [hpc])
      first := by simp
      last := fun hend _ => h.last hend (by simp [hpc])
      wanted := by simp
      shift := by simp
      post := fun _ => hpost
      tested := by simp
      begun := by simp
      waiting := by simp
      exited := fun hn => by simp at hn }, asyncAcked_net hasync (by simp [hpc])⟩
  simp only [netStep, hpc, Option.some.injEq] at hstep
  subst hstep
  split
  · rename_i x hr hx
    split
    · have hmove : Ending { s with net := .messages, rexmitSlice := some x, xmitSlice := none } :=
        { h with
          maxSliceSize_pos := fun _ => h.maxSliceSize_pos (by simp [hpc])
          first := by simp
          last := fun hend _ => h.last hend (by simp [hpc])
          wanted := by simp
          shift := by simp
          post := by simp
          tested := by simp
          begun := by simp
          waiting := by simp
          exited := fun hn => by simp at hn }
      exact ⟨ending_sendReqack hmove (by simp) fun _ _ _ => .inl rfl, asyncAcked_sendReqack rfl⟩
    · rename_i hstate
      refine hstay fun y hy hy' => ?_
      obtain rfl := Option.some.inj (hx.symm.trans hy)
      exact absurd hy' hstate
  · rename_i hslots
    refine hstay fun y hy _ => ?_
    cases hr : s.rexmitSlice with
    | none => exact absurd hy (hslots y hr)
    | some r => exact ⟨r, rfl, h.shift hpc r hr⟩

/-- The empty slice is found behind the whole input. -/
theorem ending_checkEnd (hinv : Inv s) (hprog : Progress s) (h : Ending s) (hasync : AsyncAcked s)
    (hpc : s.net = .checkEnd) (hstep : netStep s = some s') : Ending s' ∧ AsyncAcked s' := by
  have hsteady : s.net.Steady := by rw [hpc]; trivial
  have hlength : s.taken ≤ s.cuts.length := le_of_add_le_left hinv.ring.taken_le
  simp only [netStep, hpc, Option.some.injEq] at hstep
  subst hstep
  split
  · rename_i x hx
    obtain ⟨j, hj, -, -, -, -, -, hholds⟩ := hprog.xmit_last hinv hsteady hx
    have hbytes : (s.slices x).bytes = s.cuts.getD j 0 := hholds.bytes_eq (by omega)
    have hgoing := h.wanted (.inr (.inr hpc))
    have hend : (if (s.slices x).bytes = 0 then true else s.atEnd) = true ↔
        s.cuts.getD j 0 = 0 := by
      rw [hbytes, hgoing]
      split <;> simp_all
    refine ⟨?_, asyncAcked_net (s := { s with atEnd := _ }) hasync (by simp [hpc])⟩
    exact { h with
      maxSliceSize_pos := fun _ => h.maxSliceSize_pos (by simp [hpc])
      first := by simp
      atEnd := fun hz => by
        refine ⟨show 0 < s.taken by omega, ?_⟩
        dsimp only
        rw [hj, Nat.add_sub_cancel]
        exact hend.mp hz
      last := fun hz _ k hk => by
        have hk' : k < s.taken := hk
        rcases eq_or_ne k j with rfl | hne
        · exact fun hzero => by simp [hend.mpr hzero] at hz
        · exact h.going k (by omega)
      wanted := by simp
      shift := by simp
      post := fun _ => h.post (by rw [hpc]; trivial)
      tested := by simp [hx]
      begun := by simp
      waiting := by simp
      exited := fun hn => by simp at hn }
  · exact ⟨{ h with }, hasync⟩

/-- A new slice keeps to the way to the end. -/
theorem ending_newSlice (h : Ending s) (hasync : AsyncAcked s) (hpc : s.net = .newSlice)
    (hstep : netStep s = some s') : Ending s' ∧ AsyncAcked s' := by
  have hpost : s.net.PostShift := by rw [hpc]; trivial
  have hbase : ∀ net, net ≠ .init → net ≠ .shift → net ≠ .exited → net ≠ .exitTest → net ≠ .wait →
      net ≠ .timeout →
      (net = .making ∨ net = .takeFec ∨ net = .checkEnd → s.atEnd = false) →
      (net = .send → s.xmitSlice = none →
        s.atEnd = true ∨ s.config.sn = false ∧ s.rexmitSlice ≠ none) →
      Ending { s with net := net } := fun net h1 h2 h3 h4 h5 h6 hwanted htested =>
    { h with
      maxSliceSize_pos := fun _ => h.maxSliceSize_pos (by simp [hpc])
      first := fun hn => absurd hn h1
      last := fun hend _ => h.last hend (by simp [hpc])
      wanted := hwanted
      shift := fun hn => absurd hn h2
      post := fun _ => h.post hpost
      tested := fun hn => htested (hn.resolve_right h4)
      begun := fun hn => absurd hn h4
      waiting := by rintro (hn | hn) <;> contradiction
      exited := fun hn => absurd hn h3 }
  simp only [netStep, hpc, Option.some.injEq] at hstep
  subst hstep
  split
  · rename_i hnew
    have hwanted := hnew.2.1
    split
    · exact ⟨hbase .takeFec (by simp) (by simp) (by simp) (by simp) (by simp) (by simp)
        (fun _ => hwanted) (by simp), asyncAcked_net hasync (by simp [hpc])⟩
    · have hmaking := hbase .making (by simp) (by simp) (by simp) (by simp) (by simp) (by simp)
        (fun _ => hwanted) (by simp)
      exact ⟨{ hmaking with making := by simp },
        asyncAcked_net (s := { s with cutter := .consumeSlot }) hasync (by simp [hpc])⟩
  · rename_i hold
    refine ⟨hbase .send (by simp) (by simp) (by simp) (by simp) (by simp) (by simp) (by simp)
      fun _ hx => ?_, asyncAcked_net hasync (by simp [hpc])⟩
    cases hend : s.atEnd with
    | true => exact .inl rfl
    | false =>
      refine .inr ?_
      cases hsn : s.config.sn with
      | true => exact absurd ⟨hx, hend, .inl hsn⟩ hold
      | false => exact ⟨rfl, fun hr => hold ⟨hx, hend, .inr hr⟩⟩

/-- So does a slice with its FEC blocks. -/
theorem ending_takeFec (hinv : Inv s) (h : Ending s) (hasync : AsyncAcked s)
    (hpc : s.net = .takeFec) (hstep : netStep s = some s') : Ending s' ∧ AsyncAcked s' := by
  simp only [netStep, hpc, Option.map_eq_some_iff] at hstep
  obtain ⟨n, hn, rfl⟩ := hstep
  have hpos : pcGetConsumerPosition s.fecDataPc = s.taken % 2 :=
    (hinv.ring.fecData (hinv.net.takeFec hpc)).consumerPosition_eq
  have htake := hinv.ring.takeFec (hinv.net.takeFec hpc) hn
  have hlength : s.taken + 1 ≤ s.cuts.length := le_of_add_le_left htake.taken_le
  have hfreed : s.freed ≤ s.taken := hinv.ring.freed_le.trans hinv.ring.acked_le
  have hcuts : s.cuts.length ≤ s.freed + 2 := hinv.ring.length_le
  have hslot := hinv.ring.slots s.taken hfreed (show s.taken < s.freed + 2 by omega)
  have hnew : (s.slices (s.taken % 2)).state = .new := hslot.state_new le_rfl hlength
  have hgoing := h.wanted (.inr (.inl hpc))
  refine ⟨?_, asyncAcked_net (s := { s with
    xmitSlice := some (pcGetConsumerPosition s.fecDataPc)
    fecDataPc := pcConsumed s.fecDataPc 1, taken := s.taken + 1 }) hasync (by simp [hpc])⟩
  exact { h with
    maxSliceSize_pos := fun _ => h.maxSliceSize_pos (by simp [hpc])
    first := by simp
    atEnd := by simp [hgoing]
    going := fun k hk => h.last hgoing (by simp [hpc]) k (Nat.lt_of_succ_lt_succ hk)
    last := fun _ hcheck => absurd rfl hcheck
    wanted := fun _ => hgoing
    shift := by simp
    post := fun _ y hy hy' => by
      obtain rfl := Option.some.inj hy
      dsimp only at hy'
      rw [hpos, hnew] at hy'
      contradiction
    tested := by simp
    begun := by simp
    waiting := by simp
    exited := fun hn => by simp at hn }

/-- So does the choice of the next block. -/
theorem ending_send (h : Ending s) (hasync : AsyncAcked s) (hpc : s.net = .send)
    (hstep : netStep s = some s') : Ending s' ∧ AsyncAcked s' := by
  have hpost : s.net.PostShift := by rw [hpc]; trivial
  have hexit : (∀ x, s.xmitSlice = some x → (s.slices x).state ≠ .new) →
      Ending { s with net := .exitTest } ∧ AsyncAcked { s with net := .exitTest } := fun hbegun =>
    ⟨{ h with
      maxSliceSize_pos := fun _ => h.maxSliceSize_pos (by simp [hpc])
      first := by simp
      last := fun hend _ => h.last hend (by simp [hpc])
      wanted := by simp
      shift := by simp
      post := fun _ => h.post hpost
      tested := fun _ => h.tested (.inl hpc)
      begun := fun _ => hbegun
      waiting := by simp
      exited := fun hn => by simp at hn }, asyncAcked_net hasync (by simp [hpc])⟩
  simp only [netStep, hpc, Option.some.injEq] at hstep
  subst hstep
  split
  · rename_i x hx
    split
    · exact ⟨ending_net h (by simp [hpc]) (by simp) (by simp [hpc]) fun _ => hpost,
        asyncAcked_net hasync (by simp [hpc])⟩
    · rename_i hstate
      refine hexit fun y hy => ?_
      obtain rfl := Option.some.inj (hx.symm.trans hy)
      exact hstate
  · rename_i hx
    exact hexit fun y hy => absurd hy (by simp [hx])

/-- The test for the end leaves the loop only when everything is sent. -/
theorem ending_exitTest (hinv : Inv s) (hprog : Progress s) (h : Ending s) (hasync : AsyncAcked s)
    (hpc : s.net = .exitTest) (hstep : netStep s = some s') : Ending s' ∧ AsyncAcked s' := by
  have hsteady : s.net.Steady := by rw [hpc]; trivial
  have hleave : Completed s → Ending (exitMainLoop s) ∧ AsyncAcked (exitMainLoop s) := fun hdone =>
    ⟨ending_exitMainLoop h (by simp [hpc]) (by simp [hpc]) (.inr hdone),
      asyncAcked_net (s := { s with freeMemQueue := pcProduceEnd s.freeMemQueue }) hasync
        (by simp [hpc])⟩
  simp only [netStep, hpc, Option.some.injEq] at hstep
  subst hstep
  split
  · rename_i hdone
    exact hleave (completed hinv hprog h hsteady hdone.1 hdone.2.2 (.inr hdone.2.1))
  · split
    · rename_i ha
      have hx := h.xmit_none hinv hprog hasync hpc ha
      have hend : s.atEnd = true := h.atEnd_of_async hinv hpc ha hx
      exact hleave (completed hinv hprog h hsteady hend hx (.inl ha))
    · rename_i ha
      split
      · exact ⟨{ h with }, hasync⟩
      · rename_i hr
        refine ⟨?_, asyncAcked_net hasync (by simp [hpc])⟩
        exact { h with
          maxSliceSize_pos := fun _ => h.maxSliceSize_pos (by simp [hpc])
          first := by simp
          last := fun hend _ => h.last hend (by simp [hpc])
          wanted := by simp
          shift := by simp
          post := fun hn => hn.elim
          tested := by simp
          begun := by simp
          waiting := fun _ => ⟨Bool.eq_false_iff.mpr ha, hr⟩
          exited := fun hn => by simp at hn }

/-- A timeout leaves the loop only when nobody is left. -/
theorem ending_timeout (hprog : Progress s) (h : Ending s) (hasync : AsyncAcked s)
    (hpc : s.net = .timeout) (hstep : netStep s = some s') : Ending s' ∧ AsyncAcked s' := by
  obtain ⟨hsync, hrexmit⟩ := h.waiting (.inr hpc)
  simp only [netStep, hpc, Option.some.injEq] at hstep
  subst hstep
  split
  · rename_i r hr
    split
    · have hspec := dropClients_spec hprog.db (s.slices r)
      generalize dropClients s.db (s.slices r) = st at hspec ⊢
      obtain ⟨db, exit⟩ := st
      obtain ⟨-, -, -, hexit⟩ := hspec
      have hdropped : Ending { s with db := db } := ending_db h (by simp [hpc])
      rw [hpc] at hdropped
      dsimp only
      split
      · rename_i hgone
        exact ⟨ending_exitMainLoop hdropped (by simp) (by simp) (.inl ⟨hsync, hexit hgone⟩),
          asyncAcked_net (s := { s with
            db := db, freeMemQueue := pcProduceEnd s.freeMemQueue }) hasync (by simp [hpc])⟩
      · exact ⟨ending_net hdropped (by simp) (by simp) (by simp) fun hn => hn.elim,
          asyncAcked_net (s := { s with db := db }) hasync (by simp [hpc])⟩
    · have hmove : Ending { s with net := .loopTest } :=
        ending_net h (by simp [hpc]) (by simp) (by simp [hpc]) fun hn => hn.elim
      exact ⟨ending_sendReqack (ending_setSlice hmove rfl) (by simp [State.setSlice])
        fun hn => hn.elim, asyncAcked_sendReqack hr⟩
  · rename_i hr
    exact absurd hr hrexmit

/-- The loop that frees the slices keeps to the way to the end. -/
theorem ending_freeLoop (h : Ending s) (hpc : s.net = .freeLoop)
    (hstep : netStep s = some s') : Ending s' ∧ AsyncAcked s' := by
  have hfrozen : ∀ slice : Slice, slice.bytes = (s.slices (pcGetProducerPosition s.freeSlicesPc)).bytes →
      Ending (s.setSlice (pcGetProducerPosition s.freeSlicesPc) slice) := fun slice hbytes =>
    { h with
      making := fun k hk hzero => by
        apply h.making k hk
        rcases eq_or_ne k (pcGetProducerPosition s.freeSlicesPc) with rfl | hne
        · simpa [State.setSlice, hbytes] using hzero
        · simpa [State.setSlice, hne] using hzero
      shift := by simp [State.setSlice, hpc]
      post := fun hn => by
        rw [show (s.setSlice _ slice).net = .freeLoop from hpc] at hn
        exact hn.elim
      begun := by simp [State.setSlice, hpc] }
  simp only [netStep, hpc, Option.some.injEq] at hstep
  subst hstep
  split
  · have hfreed := hfrozen { s.slices (pcGetProducerPosition s.freeSlicesPc) with state := .free } rfl
    have hfreeing : ∀ state : State, state.net = .freeLoop → AsyncAcked state :=
      fun _ hn _ hne => absurd hn hne
    split
    · exact ⟨{ hfreed with }, hfreeing _ hpc⟩
    · exact ⟨{ hfreed with }, hfreeing _ hpc⟩
  · refine ⟨?_, by simp [AsyncAcked]⟩
    exact { h with
      maxSliceSize_pos := fun _ => h.maxSliceSize_pos (by simp [hpc])
      first := by simp
      last := fun hend _ => h.last hend (by simp [hpc])
      wanted := by simp
      shift := by simp
      post := fun hn => hn.elim
      tested := by simp
      begun := by simp
      waiting := by simp
      exited := fun hn => by simp at hn }

/-- So does a REQACK. -/
theorem ending_reqack (h : Ending s) (hasync : AsyncAcked s) (hpc : s.net = .reqack)
    (hstep : netStep s = some s') : Ending s' ∧ AsyncAcked s' := by
  have hmove : Ending { s with net := .newSlice } :=
    ending_net h (by simp [hpc]) (by simp) (by simp [hpc]) fun _ => by rw [hpc]; trivial
  have hasync' : AsyncAcked { s with net := .newSlice } := asyncAcked_net hasync (by simp [hpc])
  simp only [netStep, hpc, Option.some.injEq] at hstep
  subst hstep
  split
  · rename_i r hr
    split
    · refine ⟨ending_sendReqack (ending_setSlice hmove rfl) (by simp [State.setSlice])
        fun _ ha hbytes => .inr ?_, asyncAcked_sendReqack hr⟩
      simp only [State.setSlice, Function.update_self] at hbytes ⊢
      exact (hasync ha (by simp [hpc]) r hr).resolve_left hbytes
    · exact ⟨hmove, hasync'⟩
  · exact ⟨hmove, hasync'⟩

/-- The main loop may go on to this place: to a retransmission or a REQACK only after `shift`. -/
def NetPc.GoesTo (net : NetPc) : NetPc → Prop
  | .cleanupAck | .cleanupFree | .messageDone | .messageFree | .loopTest => True
  | .retransmit | .reqack => net.PostShift
  | _ => False

/-- Going on to another place in the main loop keeps to the way to the end. -/
theorem ending_goesTo {net : NetPc} (h : Ending s) (hasync : AsyncAcked s)
    (hplace : s.net ≠ .init ∧ s.net ≠ .checkEnd ∧ s.net ≠ .freeLoop) (hnet : s.net.GoesTo net) :
    Ending { s with net := net } ∧ AsyncAcked { s with net := net } := by
  obtain ⟨hinit, hcheck, hfree⟩ := hplace
  refine ⟨ending_net h hinit ?_ hcheck fun hn => ?_, asyncAcked_net hasync hfree⟩
  · cases net <;> first | exact hnet.elim | simp
  · cases net <;> first | exact hnet | exact hnet.elim | exact hn.elim

/-- Before the main loop the slice size is chosen, which is not 0. -/
theorem ending_init (h : Ending s) (hasync : AsyncAcked s) (hpc : s.net = .init)
    (hstep : netStep s = some s') : Ending s' ∧ AsyncAcked s' := by
  obtain ⟨failure, rfl, -⟩ := netStep_init hpc hstep
  have hsame := sameMode_initSliceSize s.config
  have hpos := h.first hpc
  have hmax := fun hsome => (hpos hsome).trans_le (initSliceSize_le s.config)
  have hasync' : AsyncAcked { s with config := initSliceSize s.config, net := .cleanupAck } :=
    fun ha _ r hr => hasync (by
      rw [← ha]
      change s.config.async = (initSliceSize s.config).async
      rw [hsame]) (by simp [hpc]) r hr
  have hnext : Ending { s with config := initSliceSize s.config, net := .cleanupAck } :=
    { h with
      sliceSize_pos := hpos
      maxSliceSize_pos := fun _ => hmax
      first := by simp
      async_sn := by
        dsimp only
        rw [show (initSliceSize s.config).sn = s.config.sn by rw [hsame],
          show (initSliceSize s.config).async = s.config.async by rw [hsame]]
        exact h.async_sn
      fecCount_eq := by
        rw [hsame]
        exact h.fecCount_eq
      last := fun hend _ => h.last hend (by simp [hpc])
      wanted := by simp
      shift := by simp
      post := fun hn => hn.elim
      tested := by simp
      begun := by simp
      waiting := by simp
      exited := fun hn => by simp at hn }
  exact ⟨{ hnext with }, hasync'⟩

/-- A slice for which everybody is ready is acknowledged. -/
theorem ending_cleanupAck (h : Ending s) (hasync : AsyncAcked s) (hpc : s.net = .cleanupAck)
    (hstep : netStep s = some s') : Ending s' ∧ AsyncAcked s' := by
  have hnext : Ending { s with net := .cleanupFree } ∧ AsyncAcked { s with net := .cleanupFree } :=
    ending_goesTo h hasync (by simp [hpc]) trivial
  simp only [netStep, hpc, Option.some.injEq] at hstep
  subst hstep
  split
  · rename_i r hr
    split
    · exact ⟨ending_ackSlice hnext.1 (by simp) fun hn => hn.elim, asyncAcked_ackSlice hr⟩
    · exact hnext
  · exact hnext

/-- A slice that is acknowledged is about to be freed; one that is not moves on. -/
theorem ending_cleanupFree (h : Ending s) (hasync : AsyncAcked s) (hpc : s.net = .cleanupFree)
    (hstep : netStep s = some s') : Ending s' ∧ AsyncAcked s' := by
  have hfree : ∀ net, net = .freeLoop ∨ net = .shift →
      (∀ r, net = .shift → s.rexmitSlice = some r → (s.slices r).state ≠ .acked) →
      Ending { s with net := net } := by
    intro net hnet hshift
    exact { h with
      maxSliceSize_pos := fun _ => h.maxSliceSize_pos (by simp [hpc])
      first := by rcases hnet with rfl | rfl <;> simp
      last := fun hend _ => h.last hend (by simp [hpc])
      wanted := by rcases hnet with rfl | rfl <;> simp
      shift := fun hn r => hshift r hn
      post := by rcases hnet with rfl | rfl <;> exact fun hn => hn.elim
      tested := by rcases hnet with rfl | rfl <;> simp
      begun := by rcases hnet with rfl | rfl <;> simp
      waiting := by rcases hnet with rfl | rfl <;> simp
      exited := by rcases hnet with rfl | rfl <;> exact fun hn => by simp at hn }
  simp only [netStep, hpc, Option.some.injEq] at hstep
  subst hstep
  split
  · rename_i r hr
    split
    · have hnext := hfree .freeLoop (.inl rfl) (by simp)
      refine ⟨?_, fun _ hn => absurd rfl hn⟩
      exact { hnext with
        making := fun k hk hzero => by
          apply h.making k hk
          rcases eq_or_ne k r with rfl | hne
          · simpa [State.setSlice] using hzero
          · simpa [State.setSlice, hne] using hzero
        shift := by simp [State.setSlice]
        post := fun hn => hn.elim
        begun := by simp [State.setSlice] }
    · rename_i hstate
      refine ⟨hfree .shift (.inr rfl) fun k _ hk => ?_, asyncAcked_net hasync (by simp [hpc])⟩
      obtain rfl := Option.some.inj (hr.symm.trans hk)
      exact hstate
  · rename_i hr
    exact ⟨hfree .shift (.inr rfl) fun k _ hk => absurd hk (by simp [hr]),
      asyncAcked_net hasync (by simp [hpc])⟩

/-- Handling a message changes notes and participants only. -/
theorem ending_messages (h : Ending s) (hasync : AsyncAcked s) (hpc : s.net = .messages)
    (hstep : netStep s = some s') : Ending s' ∧ AsyncAcked s' := by
  have hpost : s.net.PostShift := by rw [hpc]; trivial
  simp only [netStep, hpc, Option.some.injEq] at hstep
  subst hstep
  split
  · exact ending_goesTo h hasync (by simp [hpc]) hpost
  · rename_i clNo msg rest _
    obtain ⟨hnext, hasync'⟩ : Ending { s with net := .messageDone } ∧
        AsyncAcked { s with net := .messageDone } :=
      ending_goesTo h hasync (by simp [hpc]) trivial
    obtain ⟨slices, db, heq, hring⟩ :=
      handleMessage_frame (s := { s with net := .messageDone }) clNo msg
    rw [heq] at hring ⊢
    have hcore : ∀ k, (slices k).core = (s.slices k).core := fun k =>
      congrFun (congrArg RingView.slices hring) k
    exact ⟨ending_db (ending_core hnext hcore) (by simp), asyncAcked_core hasync' hcore⟩

/-- A round of retransmissions changes the network and notes only. -/
theorem ending_doRetransmissions (h : Ending s) (hasync : AsyncAcked s)
    (hexit : s.net ≠ .exited) :
    Ending (doRetransmissions s r) ∧ AsyncAcked (doRetransmissions s r) := by
  unfold doRetransmissions
  dsimp only
  split
  · exact ⟨h, hasync⟩
  · split
    · rename_i slice ms hsend
      have hcore : slice.core = (s.slices r).core := by
        rw [sendSliceAgain_frame hsend]
        rfl
      exact ⟨ending_setSlice (ending_network h hexit ms) hcore,
        asyncAcked_setSlice (s := { s with network := ms ++ s.network }) hasync hcore⟩
    · exact ⟨{ h with }, hasync⟩

/-- Where blocks are asked for they are sent again. -/
theorem ending_retransmit (h : Ending s) (hasync : AsyncAcked s) (hpc : s.net = .retransmit)
    (hstep : netStep s = some s') : Ending s' ∧ AsyncAcked s' := by
  have hpost : s.net.PostShift := by rw [hpc]; trivial
  have hreqack : Ending { s with net := .reqack } ∧ AsyncAcked { s with net := .reqack } :=
    ending_goesTo h hasync (by simp [hpc]) hpost
  have hnext : Ending { s with net := .loopTest } ∧ AsyncAcked { s with net := .loopTest } :=
    ending_goesTo h hasync (by simp [hpc]) trivial
  simp only [netStep, hpc, Option.some.injEq] at hstep
  subst hstep
  split
  · split
    · exact ending_doRetransmissions hnext.1 hnext.2 (by simp)
    · exact hreqack
  · exact hreqack

/-- The loop ends when nobody is left outside async mode. -/
theorem ending_loopTest (h : Ending s) (hasync : AsyncAcked s) (hpc : s.net = .loopTest)
    (hstep : netStep s = some s') : Ending s' ∧ AsyncAcked s' := by
  simp only [netStep, hpc, Option.some.injEq] at hstep
  subst hstep
  split
  · exact ending_goesTo h hasync (by simp [hpc]) trivial
  · rename_i hgone
    push Not at hgone
    exact ⟨ending_exitMainLoop h (by simp [hpc]) (by simp [hpc])
      (.inl ⟨Bool.eq_false_iff.mpr hgone.2, hgone.1⟩),
      asyncAcked_net (s := { s with freeMemQueue := pcProduceEnd s.freeMemQueue }) hasync
        (by simp [hpc])⟩

/-- A step of `netSenderMain` keeps to the way to the end. -/
theorem ending_netStep (hinv : Inv s) (hprog : Progress s) (h : Ending s) (hasync : AsyncAcked s)
    (hstep : netStep s = some s') : Ending s' ∧ AsyncAcked s' := by
  cases hpc : s.net with
  | init => exact ending_init h hasync hpc hstep
  | cleanupAck => exact ending_cleanupAck h hasync hpc hstep
  | cleanupFree => exact ending_cleanupFree h hasync hpc hstep
  | freeLoop => exact ending_freeLoop h hpc hstep
  | shift => exact ending_shift h hasync hpc hstep
  | messages => exact ending_messages h hasync hpc hstep
  | messageDone =>
    obtain ⟨hnext, hasync'⟩ : Ending { s with net := .messageFree } ∧
        AsyncAcked { s with net := .messageFree } :=
      ending_goesTo h hasync (by simp [hpc]) trivial
    simp only [netStep, hpc, Option.some.injEq] at hstep
    subst hstep
    exact ⟨{ hnext with }, hasync'⟩
  | messageFree =>
    obtain ⟨hnext, hasync'⟩ : Ending { s with net := .loopTest } ∧
        AsyncAcked { s with net := .loopTest } :=
      ending_goesTo h hasync (by simp [hpc]) trivial
    simp only [netStep, hpc, Option.some.injEq] at hstep
    subst hstep
    split
    · exact ⟨{ hnext with }, hasync'⟩
    · exact ⟨{ h with }, hasync⟩
  | retransmit => exact ending_retransmit h hasync hpc hstep
  | reqack => exact ending_reqack h hasync hpc hstep
  | newSlice => exact ending_newSlice h hasync hpc hstep
  | takeFec => exact ending_takeFec hinv h hasync hpc hstep
  | checkEnd => exact ending_checkEnd hinv hprog h hasync hpc hstep
  | send => exact ending_send h hasync hpc hstep
  | sending i =>
    simp only [netStep, hpc, Option.some.injEq] at hstep
    subst hstep
    split
    · rename_i x hx
      exact ending_sendingStep hinv h hasync hpc hx
    · exact ⟨{ h with }, hasync⟩
  | exitTest => exact ending_exitTest hinv hprog h hasync hpc hstep
  | wait =>
    simp only [netStep, hpc, Option.ite_none_left_eq_some, Option.some.injEq] at hstep
    obtain ⟨-, rfl⟩ := hstep
    exact ending_goesTo h hasync (by simp [hpc]) trivial
  | timeout => exact ending_timeout hprog h hasync hpc hstep
  | loopTest => exact ending_loopTest h hasync hpc hstep
  | making | exited => simp [netStep, hpc] at hstep

/-- Every step does. -/
theorem ending_act {a : Action} (hinv : Inv s) (hprog : Progress s) (h : Ending s)
    (hasync : AsyncAcked s) (hact : act s a = some s') : Ending s' ∧ AsyncAcked s' := by
  simp only [act, Option.ite_none_right_eq_some] at hact
  obtain ⟨-, hact⟩ := hact
  cases a with
  | reader n => exact ⟨ending_readerStep h hact, asyncAcked_readerStep hasync hact⟩
  | cutter => exact ending_cutterStep hinv h hasync hact
  | net => exact ending_netStep hinv hprog h hasync hact
  | timeout =>
    obtain ⟨⟨hpc, -⟩, hs⟩ := Option.ite_none_right_eq_some.mp hact
    obtain rfl := Option.some.inj hs
    have hwaiting := h.waiting (.inl hpc)
    refine ⟨?_, asyncAcked_net hasync (by simp [hpc])⟩
    exact { h with
      maxSliceSize_pos := fun _ => h.maxSliceSize_pos (by simp [hpc])
      first := by simp
      last := fun hend _ => h.last hend (by simp [hpc])
      wanted := by simp
      shift := by simp
      post := fun hn => hn.elim
      tested := by simp
      begun := by simp
      waiting := fun _ => hwaiting
      exited := fun hn => by simp at hn }
  | receive clNo msg =>
    cases hpc : s.returnChannel with
    | produce _ _ => simp [receiveStep, hpc] at hact
    | receive =>
      simp only [receiveStep, hpc, Option.ite_none_right_eq_some, Option.map_eq_some_iff] at hact
      obtain ⟨-, n, -, rfl⟩ := hact
      exact ⟨{ h with }, hasync⟩
  | announce =>
    cases hpc : s.returnChannel with
    | receive => simp [announceStep, hpc] at hact
    | produce clNo msg =>
      simp only [announceStep, hpc, Option.some.injEq] at hact
      subst hact
      split <;> exact ⟨{ h with }, hasync⟩

end Net

end Udpcast.Sender
