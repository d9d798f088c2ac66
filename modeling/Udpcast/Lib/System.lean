import Mathlib.Logic.Relation

/-!
# Transition systems

Initial states and a step relation, the states that runs reach, and the rules with
which invariants are proved. Restricting the steps gives the runs all of whose steps
meet a condition.
-/

namespace Udpcast

/-- A transition system over the states `σ`. -/
structure System (σ : Type*) where
  /-- The initial states. -/
  Init : σ → Prop
  /-- The steps of one party or another. -/
  Step : σ → σ → Prop

namespace System

variable {σ : Type*} {M : System σ} {P Q : σ → Prop} {C : σ → σ → Prop} {s s' : σ}

/-- `s'` is reached from `s` by a run. -/
def Run (M : System σ) : σ → σ → Prop := Relation.ReflTransGen M.Step

/-- The states of the runs from an initial state. -/
def Reachable (M : System σ) (s : σ) : Prop := ∃ s₀, M.Init s₀ ∧ M.Run s₀ s

/-- The steps that meet the condition `C`. -/
def restrict (M : System σ) (C : σ → σ → Prop) : System σ :=
  ⟨M.Init, fun s s' => M.Step s s' ∧ C s s'⟩

/-- A run may have no steps at all. -/
theorem Run.refl (s : σ) : M.Run s s := Relation.ReflTransGen.refl

/-- A run can be continued by one step. -/
theorem Run.tail {s'' : σ} (h : M.Run s s') (hstep : M.Step s' s'') : M.Run s s'' :=
  Relation.ReflTransGen.tail h hstep

/-- Two runs, the second from where the first one ends, make one run. -/
theorem Run.trans {s'' : σ} (h : M.Run s s') (h' : M.Run s' s'') : M.Run s s'' :=
  Relation.ReflTransGen.trans h h'

/-- One step is a run. -/
theorem Run.single (hstep : M.Step s s') : M.Run s s' := Relation.ReflTransGen.single hstep

/-- The initial states are reachable. -/
theorem Reachable.init (h : M.Init s) : M.Reachable s := ⟨s, h, Run.refl s⟩

/-- So are the states after a step from a reachable state. -/
theorem Reachable.step (h : M.Reachable s) (hstep : M.Step s s') : M.Reachable s' := by
  obtain ⟨s₀, hinit, hrun⟩ := h
  exact ⟨s₀, hinit, hrun.tail hstep⟩

/-- What every step preserves holds along a run. -/
theorem Run.preserve (hstep : ∀ s s', P s → M.Step s s' → P s') (h : M.Run s s') (hs : P s) :
    P s' := by
  induction h with
  | refl => exact hs
  | tail _ hlast ih => exact hstep _ _ ih hlast

/-- The rule for invariants: they hold initially and every step preserves them. -/
theorem Reachable.invariant (hinit : ∀ s, M.Init s → P s)
    (hstep : ∀ s s', P s → M.Step s s' → P s') (h : M.Reachable s) : P s := by
  obtain ⟨s₀, hs₀, hrun⟩ := h
  exact hrun.preserve hstep (hinit s₀ hs₀)

/-- An invariant whose preservation uses one that is known already. -/
theorem Reachable.invariant_of (hQ : ∀ s, M.Reachable s → Q s) (hinit : ∀ s, M.Init s → P s)
    (hstep : ∀ s s', Q s → P s → M.Step s s' → P s') (h : M.Reachable s) : P s := by
  have hboth : M.Reachable s ∧ P s := by
    refine h.invariant (P := fun s => M.Reachable s ∧ P s)
      (fun s hs => ⟨Reachable.init hs, hinit s hs⟩) ?_
    rintro s s' ⟨hs, hP⟩ hlast
    exact ⟨hs.step hlast, hstep s s' (hQ s hs) hP hlast⟩
  exact hboth.2

/-- A run of which every step meets a condition is a run. -/
theorem restrict_run (h : (M.restrict C).Run s s') : M.Run s s' := by
  induction h with
  | refl => exact Run.refl s
  | tail _ hlast ih => exact ih.tail hlast.1

/-- What is reachable under a condition on the steps is reachable. -/
theorem restrict_reachable (h : (M.restrict C).Reachable s) : M.Reachable s := by
  obtain ⟨s₀, hinit, hrun⟩ := h
  exact ⟨s₀, hinit, restrict_run hrun⟩

/-- A condition that all steps meet restricts nothing. -/
theorem Reachable.restrict (hall : ∀ s s', C s s') (h : M.Reachable s) :
    (M.restrict C).Reachable s := by
  obtain ⟨s₀, hinit, hrun⟩ := h
  refine ⟨s₀, hinit, ?_⟩
  induction hrun with
  | refl => exact Run.refl _
  | tail _ hlast ih => exact ih.tail ⟨hlast, hall _ _⟩

section Actions

variable {α : Type*} {Init : σ → Prop} {act : σ → α → Option σ}

/-- The system whose steps are the actions that `act` allows. -/
def ofActions (Init : σ → Prop) (act : σ → α → Option σ) : System σ :=
  ⟨Init, fun s s' => ∃ a, act s a = some s'⟩

/-- Perform a sequence of actions. -/
def perform (act : σ → α → Option σ) : σ → List α → Option σ
  | s, [] => some s
  | s, a :: as => (act s a).bind fun s' => perform act s' as

/-- To perform a list of actions is to perform the first one and then the rest. -/
theorem perform_cons {a : α} {l : List α} (h : act s a = some s') :
    perform act s (a :: l) = perform act s' l := by
  rw [perform, h, Option.bind_some]

/-- What performing a list of actions leads to is reached by a run. -/
theorem run_of_perform {l : List α} (h : perform act s l = some s') :
    (ofActions Init act).Run s s' := by
  induction l generalizing s with
  | nil =>
    obtain rfl : s = s' := Option.some.inj h
    exact Run.refl s
  | cons a l ih =>
    obtain ⟨t, hact, hrest⟩ := Option.bind_eq_some_iff.mp h
    have hstep : (ofActions Init act).Step s t := ⟨a, hact⟩
    exact (Run.single hstep).trans (ih hrest)

/-- The system whose steps are the actions in `A` that `act` allows. -/
def ofActionsIn (A : α → Prop) (Init : σ → Prop) (act : σ → α → Option σ) : System σ :=
  ⟨Init, fun s s' => ∃ a, A a ∧ act s a = some s'⟩

/-- The same for a system whose actions have to be of a kind, if all the actions of the list are.
-/
theorem run_of_perform_in {A : α → Prop} {l : List α} (hall : ∀ a ∈ l, A a)
    (h : perform act s l = some s') : (ofActionsIn A Init act).Run s s' := by
  induction l generalizing s with
  | nil =>
    obtain rfl : s = s' := Option.some.inj h
    exact Run.refl s
  | cons a l ih =>
    obtain ⟨t, hact, hrest⟩ := Option.bind_eq_some_iff.mp h
    have hstep : (ofActionsIn A Init act).Step s t := ⟨a, hall a List.mem_cons_self, hact⟩
    exact (Run.single hstep).trans (ih (fun b hb => hall b (List.mem_cons_of_mem _ hb)) hrest)

/-- The actions whose steps meet the condition `C`. -/
def guarded (act : σ → α → Option σ) (C : σ → σ → Prop) [∀ s s', Decidable (C s s')] (s : σ)
    (a : α) : Option σ :=
  (act s a).filter fun s' => C s s'

/-- If every action is checked to meet the condition on the step it makes, the run is one of the
restricted system. -/
theorem restrict_run_of_perform [∀ s s', Decidable (C s s')] {l : List α}
    (h : perform (guarded act C) s l = some s') :
    ((ofActions Init act).restrict C).Run s s' := by
  induction l generalizing s with
  | nil =>
    obtain rfl : s = s' := Option.some.inj h
    exact Run.refl s
  | cons a l ih =>
    obtain ⟨t, hact, hrest⟩ := Option.bind_eq_some_iff.mp h
    obtain ⟨hact, hC⟩ := Option.filter_eq_some_iff.mp hact
    have hstep : ((ofActions Init act).restrict C).Step s t := ⟨⟨a, hact⟩, of_decide_eq_true hC⟩
    exact (Run.single hstep).trans (ih hrest)

/-- Both at once: the actions are of the kind, and the steps meet the condition. -/
theorem restrict_run_of_perform_in {A : α → Prop} [∀ s s', Decidable (C s s')] {l : List α}
    (hall : ∀ a ∈ l, A a) (h : perform (guarded act C) s l = some s') :
    ((ofActionsIn A Init act).restrict C).Run s s' := by
  induction l generalizing s with
  | nil =>
    obtain rfl : s = s' := Option.some.inj h
    exact Run.refl s
  | cons a l ih =>
    obtain ⟨t, hact, hrest⟩ := Option.bind_eq_some_iff.mp h
    obtain ⟨hact, hC⟩ := Option.filter_eq_some_iff.mp hact
    have hstep : ((ofActionsIn A Init act).restrict C).Step s t :=
      ⟨⟨a, hall a List.mem_cons_self, hact⟩, of_decide_eq_true hC⟩
    exact (Run.single hstep).trans (ih (fun b hb => hall b (List.mem_cons_of_mem _ hb)) hrest)

end Actions

end System

end Udpcast
