import Udpcast.Negotiate.Steps

/-!
# The table of participants

`participants.c` with the table as it is in memory. Its operations keep the count and the
addresses right in every sequence, and the set-up sees them as operations on the numbers
in use.
-/

namespace Udpcast.Negotiate

open Protocol

/-- `struct clientDesc`. -/
structure TableEntry where
  addr : SockAddr
  used : Bool
  capabilities : ℕ
  rcvbuf : ℕ
  deriving DecidableEq

/-- `struct participantsDb`. -/
structure ClientTable where
  nrParticipants : ℤ
  clientTable : Fin maxClients → TableEntry

namespace ClientTable

/-- `makeParticipantsDb`. -/
def makeParticipantsDb : ClientTable := ⟨0, fun _ => ⟨⟨0, 0⟩, false, 0, 0⟩⟩

def removeParticipant (t : ClientTable) (i : Fin maxClients) : ClientTable :=
  if (t.clientTable i).used then
    { nrParticipants := t.nrParticipants - 1
      clientTable := Function.update t.clientTable i { t.clientTable i with used := false } }
  else t

/-- `lookupParticipant`; `none` stands for -1. -/
def lookupParticipant (t : ClientTable) (addr : SockAddr) : Option (Fin maxClients) :=
  (List.finRange maxClients).find? fun i =>
    (t.clientTable i).used ∧ (t.clientTable i).addr.ip = addr.ip

/-- The loop of `addParticipant` over the slots that remain. -/
def findFree (t : ClientTable) (pointopoint : Bool) :
    List (Fin maxClients) → Option (Fin maxClients)
  | [] => none
  | i :: rest =>
    if (t.clientTable i).used = false then some i
    else if pointopoint then none
    else findFree t pointopoint rest

def addParticipant (t : ClientTable) (addr : SockAddr) (capabilities rcvbuf : ℕ)
    (pointopoint : Bool) : ℤ × ClientTable :=
  match t.lookupParticipant addr with
  | some i => ((i.val : ℤ), t)
  | none =>
    match t.findFree pointopoint (List.finRange maxClients) with
    | some i =>
      (i.val, ⟨t.nrParticipants + 1,
        Function.update t.clientTable i ⟨addr, true, capabilities, rcvbuf⟩⟩)
    | none => (-1, t)

/-- The slots in use. -/
def usedSlots (t : ClientTable) : Finset (Fin maxClients) := {i | (t.clientTable i).used}

/-- No slot may be used for a new participant. -/
def Full (t : ClientTable) (pointopoint : Bool) : Prop :=
  if pointopoint then (t.clientTable ⟨0, by decide⟩).used = true
  else ∀ i, (t.clientTable i).used = true

/-- The count is right and no address is there twice. -/
structure Consistent (t : ClientTable) : Prop where
  count : t.nrParticipants = t.usedSlots.card
  distinct : ∀ i j, (t.clientTable i).used = true → (t.clientTable j).used = true →
    (t.clientTable i).addr.ip = (t.clientTable j).addr.ip → i = j

/-- What the operations return and change. -/
structure Behaves (t : ClientTable) : Prop where
  found : ∀ addr i, t.lookupParticipant addr = some i ↔
    (t.clientTable i).used = true ∧ (t.clientTable i).addr.ip = addr.ip
  absent : ∀ addr, t.lookupParticipant addr = none ↔
    ∀ i, (t.clientTable i).used = true → (t.clientTable i).addr.ip ≠ addr.ip
  rejoins : ∀ addr capabilities rcvbuf pointopoint i, t.lookupParticipant addr = some i →
    t.addParticipant addr capabilities rcvbuf pointopoint = ((i.val : ℤ), t)
  full : ∀ addr capabilities rcvbuf pointopoint, t.lookupParticipant addr = none →
    t.Full pointopoint → t.addParticipant addr capabilities rcvbuf pointopoint = (-1, t)
  joins : ∀ addr capabilities rcvbuf pointopoint, t.lookupParticipant addr = none →
    ¬ t.Full pointopoint → ∃ i, (t.clientTable i).used = false ∧
      (t.addParticipant addr capabilities rcvbuf pointopoint).1 = i.val ∧
      (t.addParticipant addr capabilities rcvbuf pointopoint).2.clientTable i =
        ⟨addr, true, capabilities, rcvbuf⟩ ∧
      ∀ j, j ≠ i → (t.addParticipant addr capabilities rcvbuf pointopoint).2.clientTable j =
        t.clientTable j

variable {t : ClientTable} {i j : Fin maxClients} {addr : SockAddr} {l : List (Fin maxClients)}
  {pointopoint : Bool} {capabilities rcvbuf : ℕ}

section Operations

/-- A slot is in use if its entry says so. -/
theorem mem_usedSlots : i ∈ t.usedSlots ↔ (t.clientTable i).used = true := by
  simp [usedSlots]

/-- A number that is found belongs to a used entry with this address. -/
theorem lookupParticipant_some (h : t.lookupParticipant addr = some i) :
    (t.clientTable i).used = true ∧ (t.clientTable i).addr.ip = addr.ip := by
  have hfound := List.find?_some h
  simpa using hfound

/-- None is found exactly if no used entry has the address. -/
theorem lookupParticipant_none : t.lookupParticipant addr = none ↔
    ∀ i, (t.clientTable i).used = true → (t.clientTable i).addr.ip ≠ addr.ip := by
  unfold lookupParticipant
  rw [List.find?_eq_none]
  simp

/-- A slot that is chosen for a new participant is free. -/
theorem findFree_some (h : t.findFree pointopoint l = some i) : (t.clientTable i).used = false := by
  induction l with
  | nil => cases h
  | cons x rest ih =>
    unfold findFree at h
    split at h
    · rename_i hfree
      exact Option.some.inj h ▸ hfree
    · split at h
      · cases h
      · exact ih h

/-- In point-to-point mode the loop looks at the first slot only. -/
theorem findFree_first : t.findFree true l = l.head?.filter fun i => !(t.clientTable i).used := by
  cases l with
  | nil => rfl
  | cons x rest =>
    unfold findFree
    cases hused : (t.clientTable x).used <;> simp [Option.filter, hused]

/-- The slots are searched from the first one on. -/
theorem head_finRange : (List.finRange maxClients).head? = some ⟨0, by decide⟩ := by
  rw [List.head?_eq_getElem?, List.getElem?_eq_getElem (by simp [maxClients]), List.getElem_finRange]
  rfl

/-- No slot is found exactly if all of them are in use. -/
theorem findFree_none : t.findFree false l = none ↔ ∀ i ∈ l, (t.clientTable i).used = true := by
  induction l with
  | nil => simp [findFree]
  | cons x rest ih =>
    unfold findFree
    split
    · rename_i hfree
      simp [hfree]
    · rename_i hused
      rw [if_neg Bool.false_ne_true, ih, List.forall_mem_cons]
      simp [hused]

/-- A slot is found unless no slot may be used. -/
theorem findFree_eq_none : t.findFree pointopoint (List.finRange maxClients) = none ↔
    t.Full pointopoint := by
  cases pointopoint with
  | false =>
    rw [findFree_none]
    simp [Full]
  | true =>
    rw [findFree_first, head_finRange]
    simp [Full]

/-- An address that is in the table gets its number again, and the table stays as it is. -/
theorem addParticipant_some (h : t.lookupParticipant addr = some i) :
    t.addParticipant addr capabilities rcvbuf pointopoint = ((i.val : ℤ), t) := by
  unfold addParticipant
  rw [h]

/-- A new address is refused when no slot may be used for it. -/
theorem addParticipant_full (h : t.lookupParticipant addr = none) (hfull : t.Full pointopoint) :
    t.addParticipant addr capabilities rcvbuf pointopoint = (-1, t) := by
  unfold addParticipant
  rw [h]
  dsimp only
  rw [findFree_eq_none.mpr hfull]

/-- Otherwise it gets the first free slot, and the count goes up. -/
theorem addParticipant_free (h : t.lookupParticipant addr = none)
    (hfree : t.findFree pointopoint (List.finRange maxClients) = some i) :
    t.addParticipant addr capabilities rcvbuf pointopoint =
      ((i.val : ℤ), ⟨t.nrParticipants + 1,
        Function.update t.clientTable i ⟨addr, true, capabilities, rcvbuf⟩⟩) := by
  unfold addParticipant
  rw [h]
  dsimp only
  rw [hfree]

end Operations

section Invariant

/-- Removing a participant takes its slot from those in use. -/
theorem usedSlots_remove (x : ℤ) (i : Fin maxClients) :
    usedSlots ⟨x, Function.update t.clientTable i { t.clientTable i with used := false }⟩ =
      t.usedSlots.erase i := by
  ext j
  rw [Finset.mem_erase, mem_usedSlots, mem_usedSlots]
  rcases eq_or_ne j i with rfl | hne
  · simp
  · simp [hne]

/-- A new participant adds its slot to them. -/
theorem usedSlots_add (x : ℤ) (i : Fin maxClients) (addr : SockAddr) (capabilities rcvbuf : ℕ) :
    usedSlots ⟨x, Function.update t.clientTable i ⟨addr, true, capabilities, rcvbuf⟩⟩ =
      insert i t.usedSlots := by
  ext j
  rw [Finset.mem_insert, mem_usedSlots, mem_usedSlots]
  rcases eq_or_ne j i with rfl | hne
  · simp
  · simp [hne]

/-- Removing keeps the table consistent: the count goes down only if the slot was in use. -/
theorem Consistent.removeParticipant (h : t.Consistent) (i : Fin maxClients) :
    (t.removeParticipant i).Consistent := by
  unfold ClientTable.removeParticipant
  split
  · rename_i hused
    have hmem : i ∈ t.usedSlots := mem_usedSlots.mpr hused
    have hkept : ∀ j, (Function.update t.clientTable i
        { t.clientTable i with used := false } j).used = true → j ≠ i := by
      rintro j hj rfl
      simp at hj
    refine ⟨?_, fun j j' hj hj' heq => ?_⟩
    · have hpos := Finset.card_pos.mpr ⟨i, hmem⟩
      rw [usedSlots_remove, Finset.card_erase_of_mem hmem, h.count]
      dsimp only
      omega
    · have hne := hkept j hj
      have hne' := hkept j' hj'
      simp only [Function.update_of_ne hne, Function.update_of_ne hne'] at hj hj' heq
      exact h.distinct j j' hj hj' heq
  · exact h

/-- So does adding, because an address that is there is not added again. -/
theorem Consistent.addParticipant (h : t.Consistent) (addr : SockAddr) (capabilities rcvbuf : ℕ)
    (pointopoint : Bool) : (t.addParticipant addr capabilities rcvbuf pointopoint).2.Consistent := by
  cases hlookup : t.lookupParticipant addr with
  | some i => rwa [addParticipant_some hlookup]
  | none =>
    have habsent := lookupParticipant_none.mp hlookup
    cases hfree : t.findFree pointopoint (List.finRange maxClients) with
    | none => rwa [addParticipant_full hlookup (findFree_eq_none.mp hfree)]
    | some i =>
      have hunused := findFree_some hfree
      have hnot : i ∉ t.usedSlots := by
        rw [mem_usedSlots, hunused]
        exact Bool.false_ne_true
      rw [addParticipant_free hlookup hfree]
      refine ⟨?_, fun j j' hj hj' heq => ?_⟩
      · rw [usedSlots_add, Finset.card_insert_of_notMem hnot, h.count]
        push_cast
        rfl
      · dsimp only at hj hj' heq
        rcases eq_or_ne j i with rfl | hne
        · rcases eq_or_ne j' j with rfl | hne'
          · rfl
          · rw [Function.update_self, Function.update_of_ne hne'] at heq
            rw [Function.update_of_ne hne'] at hj'
            exact absurd heq.symm (habsent j' hj')
        · rw [Function.update_of_ne hne] at hj heq
          rcases eq_or_ne j' i with rfl | hne'
          · rw [Function.update_self] at heq
            exact absurd heq (habsent j hj)
          · rw [Function.update_of_ne hne'] at hj' heq
            exact h.distinct j j' hj hj' heq

/-- On a consistent table the operations do what they should. -/
theorem Consistent.behaves (h : t.Consistent) : t.Behaves where
  found addr i := by
    constructor
    · exact lookupParticipant_some
    · rintro ⟨hused, hip⟩
      cases hlookup : t.lookupParticipant addr with
      | none => exact absurd hip (lookupParticipant_none.mp hlookup i hused)
      | some j =>
        obtain ⟨hused', hip'⟩ := lookupParticipant_some hlookup
        rw [h.distinct j i hused' hused (hip'.trans hip.symm)]
  absent addr := lookupParticipant_none
  rejoins _ _ _ _ _ := addParticipant_some
  full _ _ _ _ := addParticipant_full
  joins addr capabilities rcvbuf pointopoint hlookup hfull := by
    cases hfree : t.findFree pointopoint (List.finRange maxClients) with
    | none => exact absurd (findFree_eq_none.mp hfree) hfull
    | some i =>
      rw [addParticipant_free hlookup hfree]
      exact ⟨i, findFree_some hfree, rfl, Function.update_self .., fun j hne =>
        Function.update_of_ne hne ..⟩

end Invariant

section Sequences

/-- A call of one of the functions. -/
inductive Call
  | add (addr : SockAddr) (capabilities rcvbuf : ℕ) (pointopoint : Bool)
  | remove (i : Fin maxClients)
  | lookup (addr : SockAddr)

/-- The table after a call. -/
def call (t : ClientTable) : Call → ClientTable
  | .add addr capabilities rcvbuf pointopoint =>
    (t.addParticipant addr capabilities rcvbuf pointopoint).2
  | .remove i => t.removeParticipant i
  | .lookup _ => t

/-- The table after a sequence of calls on a fresh one. -/
def calls (l : List Call) : ClientTable := l.foldl call makeParticipantsDb

/-- `addParticipant` is called with `pointopoint` set. -/
def Call.PointToPoint : Call → Prop
  | .add _ _ _ pointopoint => pointopoint = true
  | _ => True

/-- The empty table is consistent. -/
theorem consistent_make : makeParticipantsDb.Consistent := by
  have hslots : makeParticipantsDb.usedSlots = ∅ := by
    ext i
    simp [mem_usedSlots, makeParticipantsDb]
  refine ⟨?_, fun i j hi => ?_⟩
  · rw [hslots]
    rfl
  · cases hi

/-- Every call keeps the table consistent. -/
theorem Consistent.call (h : t.Consistent) (c : Call) : (t.call c).Consistent := by
  cases c with
  | add addr capabilities rcvbuf pointopoint => exact h.addParticipant addr capabilities rcvbuf _
  | remove i => exact h.removeParticipant i
  | lookup addr => exact h

/-- So the table is consistent after any sequence of calls. -/
theorem consistent_calls (l : List Call) : (calls l).Consistent := by
  induction l using List.reverseRecOn with
  | nil => exact consistent_make
  | append_singleton l c ih =>
    rw [calls, List.foldl_append]
    exact ih.call c

/-- In point-to-point mode only the first slot is used. -/
theorem call_first {c : Call} (hc : c.PointToPoint)
    (h : ∀ i, (t.clientTable i).used = true → i.val = 0) :
    ∀ i, ((t.call c).clientTable i).used = true → i.val = 0 := by
  cases c with
  | lookup addr => exact h
  | remove i =>
    intro j hj
    unfold ClientTable.call ClientTable.removeParticipant at hj
    dsimp only at hj
    split at hj
    · rcases eq_or_ne j i with rfl | hne
      · simp at hj
      · exact h j (by simpa [hne] using hj)
    · exact h j hj
  | add addr capabilities rcvbuf pointopoint =>
    obtain rfl : pointopoint = true := hc
    cases hlookup : t.lookupParticipant addr with
    | some i =>
      rw [ClientTable.call, addParticipant_some hlookup]
      exact h
    | none =>
      cases hfree : t.findFree true (List.finRange maxClients) with
      | none =>
        rw [ClientTable.call, addParticipant_full hlookup (findFree_eq_none.mp hfree)]
        exact h
      | some i =>
        rw [ClientTable.call, addParticipant_free hlookup hfree]
        intro j hj
        rcases eq_or_ne j i with rfl | hne
        · rw [findFree_first, head_finRange, Option.filter_eq_some_iff] at hfree
          exact congrArg Fin.val (Option.some.inj hfree.1).symm
        · dsimp only at hj
          rw [Function.update_of_ne hne] at hj
          exact h j hj

/-- With point-to-point calls only, no slot but the first is ever in use. -/
theorem calls_first {l : List Call} (hl : ∀ c ∈ l, c.PointToPoint) :
    ∀ i, ((calls l).clientTable i).used = true → i.val = 0 := by
  induction l using List.reverseRecOn with
  | nil => exact fun i hi => absurd hi Bool.false_ne_true
  | append_singleton l c ih =>
    rw [calls, List.foldl_append]
    exact call_first (hl c (by simp)) (ih fun c' hc' => hl c' (by simp [hc']))

/-- After every sequence of calls on a fresh table the count is right, no address is there
twice and the functions do what they should; in point-to-point mode there is at most one
participant. -/
theorem participants_invariant (l : List Call) :
    (calls l).Consistent ∧ (calls l).Behaves ∧
      ((∀ c ∈ l, c.PointToPoint) → (calls l).nrParticipants ≤ 1) := by
  have h := consistent_calls l
  refine ⟨h, h.behaves, fun hl => ?_⟩
  have hcard : (calls l).usedSlots.card ≤ 1 := by
    refine Finset.card_le_one.mpr fun i hi j hj => Fin.ext ?_
    rw [calls_first hl i (mem_usedSlots.mp hi), calls_first hl j (mem_usedSlots.mp hj)]
  rw [h.count]
  exact_mod_cast hcard

/-- Two receivers ask for a point-to-point connection. -/
theorem participants_invariant_pair :
    (calls [.add ⟨1, 9000⟩ 0 0 true, .add ⟨2, 9000⟩ 0 0 true]).nrParticipants ≤ 1 :=
  (participants_invariant [.add ⟨1, 9000⟩ 0 0 true, .add ⟨2, 9000⟩ 0 0 true]).2.2
    (by simp [Call.PointToPoint])

end Sequences

section Refinement

/-- The table as the set-up sees it: the numbers in use, and the entries without `rcvbuf`. -/
def toParticipants (t : ClientTable) : Participants where
  db := ⟨t.nrParticipants, t.usedSlots.map Fin.valEmbedding⟩
  clients i :=
    if h : i < maxClients then ⟨(t.clientTable ⟨i, h⟩).addr, (t.clientTable ⟨i, h⟩).capabilities⟩
    else ⟨⟨0, 0⟩, 0⟩

/-- The numbers in use are those of the used entries. -/
theorem mem_toParticipants : i.val ∈ t.toParticipants.db.used ↔ (t.clientTable i).used = true := by
  simp [toParticipants, Fin.val_inj, mem_usedSlots]

/-- An entry without its `rcvbuf`. -/
theorem clients_toParticipants : t.toParticipants.clients i =
    ⟨(t.clientTable i).addr, (t.clientTable i).capabilities⟩ := by
  simp [toParticipants]

/-- The loop over the slots and the loop over their numbers. -/
theorem find_range {p : ℕ → Bool} {p' : Fin maxClients → Bool} (hp : ∀ i, p i.val = p' i) :
    (List.range maxClients).find? p = ((List.finRange maxClients).find? p').map Fin.val := by
  have hcomp : p ∘ Fin.val = p' := funext hp
  rw [← List.map_coe_finRange_eq_range, List.find?_map, hcomp]

/-- The lookup of the set-up is that of the table. -/
theorem lookup_toParticipants (t : ClientTable) (addr : SockAddr) :
    Negotiate.lookupParticipant t.toParticipants addr =
      (t.lookupParticipant addr).map Fin.val := by
  unfold Negotiate.lookupParticipant lookupParticipant
  refine find_range fun i => ?_
  rw [clients_toParticipants]
  simp [mem_toParticipants]

/-- The loop over the slots is a search for the first free one. -/
theorem findFree_eq_find : t.findFree false l = l.find? fun i => !(t.clientTable i).used := by
  induction l with
  | nil => rfl
  | cons x rest ih =>
    unfold findFree
    cases hused : (t.clientTable x).used <;> simp [hused, ih]

/-- The set-up chooses the same slot, and with point-to-point only the first one. -/
theorem findFree_toParticipants (t : ClientTable) (pointopoint : Bool) :
    (if pointopoint then [0] else List.range maxClients).find?
        (· ∉ t.toParticipants.db.used) =
      (t.findFree pointopoint (List.finRange maxClients)).map Fin.val := by
  have hfree : ∀ i : Fin maxClients, decide (i.val ∉ t.toParticipants.db.used) =
      !(t.clientTable i).used := by
    intro i
    cases hused : (t.clientTable i).used <;> simp [mem_toParticipants, hused]
  cases pointopoint with
  | false =>
    rw [if_neg Bool.false_ne_true, findFree_eq_find]
    exact find_range hfree
  | true =>
    have hfirst := hfree ⟨0, by decide⟩
    rw [if_pos rfl, findFree_first, head_finRange]
    cases hused : (t.clientTable ⟨0, by decide⟩).used <;>
      simp_all [Option.filter]

/-- To remove a participant from the table removes its number. -/
theorem remove_toParticipants (t : ClientTable) (i : Fin maxClients) :
    (t.removeParticipant i).toParticipants.db = t.toParticipants.db.remove i.val := by
  unfold removeParticipant Sender.ParticipantsDb.remove
  cases hused : (t.clientTable i).used with
  | false =>
    rw [if_neg Bool.false_ne_true, if_neg]
    rw [mem_toParticipants, hused]
    exact Bool.false_ne_true
  | true =>
    rw [if_pos rfl, if_pos (mem_toParticipants.mpr hused)]
    unfold toParticipants
    rw [usedSlots_remove, Finset.map_erase]
    rfl

/-- The table refines what the set-up of a transfer works on. -/
theorem add_toParticipants (t : ClientTable) (addr : SockAddr) (capabilities rcvbuf : ℕ)
    (pointopoint : Bool) :
    let added := t.addParticipant addr capabilities rcvbuf pointopoint
    Negotiate.addParticipant t.toParticipants addr capabilities pointopoint =
      (added.1, added.2.toParticipants) := by
  dsimp only
  unfold Negotiate.addParticipant
  rw [lookup_toParticipants, findFree_toParticipants]
  cases hlookup : t.lookupParticipant addr with
  | some i =>
    rw [addParticipant_some hlookup]
    rfl
  | none =>
    cases hfree : t.findFree pointopoint (List.finRange maxClients) with
    | none =>
      rw [addParticipant_full hlookup (findFree_eq_none.mp hfree)]
      rfl
    | some i =>
      rw [addParticipant_free hlookup hfree]
      dsimp only [Option.map_none, Option.map_some]
      refine Prod.ext rfl ((Participants.mk.injEq ..).mpr ⟨?_, funext fun k => ?_⟩)
      · dsimp only
        rw [usedSlots_add, Finset.map_insert]
        rfl
      · dsimp only
        by_cases hk : k < maxClients
        · rw [dif_pos hk]
          rcases eq_or_ne k i.val with rfl | hne
          · simp
          · have hne' : (⟨k, hk⟩ : Fin maxClients) ≠ i := fun heq => hne (congrArg Fin.val heq)
            rw [Function.update_of_ne hne, Function.update_of_ne hne']
            exact dif_pos hk
        · have hne : k ≠ i.val := fun heq => hk (heq.trans_lt i.isLt)
          rw [dif_neg hk, Function.update_of_ne hne]
          exact dif_neg hk

end Refinement

end ClientTable

end Udpcast.Negotiate
