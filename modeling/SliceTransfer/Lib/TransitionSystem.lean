import Mathlib.Data.Option.Basic
import Mathlib.Tactic.Common

/-!
# Transition systems with executable steps

A system is an initial state and a partial step function: `step s a = none` says
that the action `a` is not enabled in `s`.  Every nondeterministic choice of the
modelled program and of its environment is carried by the action, so a schedule
is a list of actions and `run` executes it.

Safety statements come in two strengths.  `Reachable` collects the states of all
runs; `ReachableVia guard` collects the states of the runs each of whose steps
`(s, a)` satisfies `guard s a`.  Both are instances of one inductive predicate,
so there is a single invariant rule, `ReachableVia.invariant`.  With a decidable
guard the guarded runs can be executed as well, in `restrict`.

That something is still possible in a state is `Leads`: some schedule from there on
ends in a state of the wanted kind.

What a run has seen so far is a history variable: `watching sys event` adds a flag
that is set by the first step satisfying `event` and changes nothing else.
-/

/-- An initial state and a partial step function. -/
structure TransitionSystem (σ : Type*) (α : Type*) where
  init : σ
  step : σ → α → Option σ

namespace TransitionSystem

variable {σ α : Type*} {sys : TransitionSystem σ α} {guard : σ → α → Prop}

/-- The states of the runs all of whose steps satisfy `guard`. -/
inductive ReachableVia (sys : TransitionSystem σ α) (guard : σ → α → Prop) : σ → Prop
  | init : ReachableVia sys guard sys.init
  | step {s s' : σ} {a : α} (h : ReachableVia sys guard s) (hguard : guard s a)
      (hstep : sys.step s a = some s') : ReachableVia sys guard s'

/-- The states of all runs. -/
def Reachable (sys : TransitionSystem σ α) : σ → Prop :=
  sys.ReachableVia fun _ _ => True

/-- **The invariant rule.**  What holds initially and is preserved by the guarded
steps holds along every guarded run. -/
theorem ReachableVia.invariant {I : σ → Prop} (hinit : I sys.init)
    (hstep : ∀ s a s', I s → guard s a → sys.step s a = some s' → I s')
    {s : σ} (h : sys.ReachableVia guard s) : I s := by
  induction h with
  | init => exact hinit
  | step _ hguard hnext ih => exact hstep _ _ _ ih hguard hnext

theorem Reachable.invariant {I : σ → Prop} (hinit : I sys.init)
    (hstep : ∀ s a s', I s → sys.step s a = some s' → I s')
    {s : σ} (h : sys.Reachable s) : I s :=
  ReachableVia.invariant hinit (fun s a s' hs _ hnext => hstep s a s' hs hnext) h

theorem Reachable.init (sys : TransitionSystem σ α) : sys.Reachable sys.init :=
  ReachableVia.init

theorem Reachable.next {s s' : σ} {a : α} (h : sys.Reachable s)
    (hstep : sys.step s a = some s') : sys.Reachable s' :=
  ReachableVia.step h trivial hstep

/-- A weaker guard leaves more runs. -/
theorem ReachableVia.imp {other : σ → α → Prop} {s : σ} (h : sys.ReachableVia guard s)
    (himp : ∀ s a, guard s a → other s a) : sys.ReachableVia other s := by
  induction h with
  | init => exact .init
  | step _ hguard hnext ih => exact .step ih (himp _ _ hguard) hnext

/-- What another system sees of the runs, when every step is one of its own or invisible. -/
theorem ReachableVia.project {τ β : Type*} {seen : TransitionSystem τ β} {allowed : τ → β → Prop}
    {f : σ → τ} (hinit : f sys.init = seen.init)
    (hstep : ∀ s a s', sys.ReachableVia guard s → guard s a → sys.step s a = some s' →
      f s' = f s ∨ ∃ b, allowed (f s) b ∧ seen.step (f s) b = some (f s'))
    {s : σ} (h : sys.ReachableVia guard s) : seen.ReachableVia allowed (f s) := by
  induction h with
  | init => exact hinit ▸ .init
  | step hprev hguard hnext ih =>
      rcases hstep _ _ _ hprev hguard hnext with hsame | ⟨b, hallowed, hb⟩
      · exact hsame ▸ ih
      · exact .step ih hallowed hb

/-! ## Schedules -/

/-- Perform the actions in order; `none` when one of them is not enabled. -/
def run (sys : TransitionSystem σ α) : List α → σ → Option σ
  | [], s => some s
  | a :: rest, s => (sys.step s a).bind (sys.run rest)

@[simp] theorem run_nil (s : σ) : sys.run [] s = some s := rfl

theorem run_cons (a : α) (rest : List α) (s : σ) :
    sys.run (a :: rest) s = (sys.step s a).bind (sys.run rest) := rfl

theorem run_cons_of_step {a : α} {s s' : σ} (hstep : sys.step s a = some s') (rest : List α) :
    sys.run (a :: rest) s = sys.run rest s' := by
  rw [run_cons, hstep]
  rfl

/-- Every state a schedule ends in is reachable. -/
theorem Reachable.run {actions : List α} {s s' : σ} (h : sys.Reachable s)
    (hrun : sys.run actions s = some s') : sys.Reachable s' := by
  induction actions generalizing s with
  | nil =>
      rw [run_nil, Option.some_inj] at hrun
      exact hrun ▸ h
  | cons a rest ih =>
      rw [run_cons, Option.bind_eq_some_iff] at hrun
      obtain ⟨next, hnext, hrest⟩ := hrun
      exact ih (h.next hnext) hrest

theorem reachable_of_run {actions : List α} {s : σ} (hrun : sys.run actions sys.init = some s) :
    sys.Reachable s :=
  (Reachable.init sys).run hrun

/-- A family of states linked by schedules is reachable from its first member on. -/
theorem Reachable.iterate {f : ℕ → σ} {n : ℕ} (h : sys.Reachable (f 0))
    (hlink : ∀ k < n, ∃ actions, sys.run actions (f k) = some (f (k + 1))) :
    sys.Reachable (f n) := by
  induction n with
  | zero => exact h
  | succ n ih =>
      obtain ⟨actions, hrun⟩ := hlink n (Nat.lt_succ_self n)
      exact (ih fun k hk => hlink k (Nat.lt_succ_of_lt hk)).run hrun

/-! ## What is possible from a state on -/

/-- Some schedule from `s` on ends in a state with `P`. -/
def Leads (sys : TransitionSystem σ α) (P : σ → Prop) (s : σ) : Prop :=
  ∃ actions s', sys.run actions s = some s' ∧ P s'

theorem Leads.refl {P : σ → Prop} {s : σ} (h : P s) : sys.Leads P s :=
  ⟨[], s, run_nil s, h⟩

theorem Leads.of_step {P : σ → Prop} {s s' : σ} {a : α} (h : sys.Leads P s')
    (hstep : sys.step s a = some s') : sys.Leads P s := by
  obtain ⟨actions, last, hrun, hlast⟩ := h
  exact ⟨a :: actions, last, (run_cons_of_step hstep actions).trans hrun, hlast⟩

/-- What leads to a state that leads on leads on. -/
theorem Leads.trans {P Q : σ → Prop} {s : σ} (h : sys.Leads P s)
    (hnext : ∀ s', P s' → sys.Leads Q s') : sys.Leads Q s := by
  obtain ⟨actions, last, hrun, hlast⟩ := h
  induction actions generalizing s with
  | nil =>
      rw [run_nil, Option.some_inj] at hrun
      exact hrun ▸ hnext last hlast
  | cons a rest ih =>
      rw [run_cons, Option.bind_eq_some_iff] at hrun
      obtain ⟨next, hstep, hrest⟩ := hrun
      exact (ih hrest).of_step hstep

theorem Leads.imp {P Q : σ → Prop} {s : σ} (h : sys.Leads P s) (himp : ∀ s', P s' → Q s') :
    sys.Leads Q s :=
  h.trans fun s' hs' => .refl (himp s' hs')

/-- A family of states each of which leads to the next. -/
theorem Leads.iterate {f : ℕ → σ} {n : ℕ}
    (hlink : ∀ k < n, sys.Leads (fun s' => s' = f (k + 1)) (f k)) :
    sys.Leads (fun s' => s' = f n) (f 0) := by
  induction n with
  | zero => exact .refl rfl
  | succ n ih =>
      refine (ih fun k hk => hlink k (Nat.lt_succ_of_lt hk)).trans ?_
      rintro s' rfl
      exact hlink n (Nat.lt_succ_self n)

/-- From a reachable state only reachable states are reached. -/
theorem Leads.exists_reachable {P : σ → Prop} {s : σ} (h : sys.Leads P s)
    (hs : sys.Reachable s) : ∃ s', sys.Reachable s' ∧ P s' := by
  obtain ⟨actions, last, hrun, hlast⟩ := h
  exact ⟨last, hs.run hrun, hlast⟩

/-! ## Guards -/

section Restrict

variable [∀ s a, Decidable (guard s a)]

/-- The system without the steps that violate the guard. -/
def restrict (sys : TransitionSystem σ α) (guard : σ → α → Prop)
    [∀ s a, Decidable (guard s a)] : TransitionSystem σ α where
  init := sys.init
  step := fun s a => if guard s a then sys.step s a else none

/-- A schedule of the restricted system is a guarded run. -/
theorem ReachableVia.of_restrict {s : σ} (h : (sys.restrict guard).Reachable s) :
    sys.ReachableVia guard s := by
  induction h with
  | init => exact .init
  | step _ _ hnext ih =>
      obtain ⟨hguard, hstep⟩ := Option.ite_none_right_eq_some.mp hnext
      exact .step ih hguard hstep

/-- A guarded run is one of the restricted system. -/
theorem ReachableVia.restrict {s : σ} (h : sys.ReachableVia guard s) :
    (sys.restrict guard).Reachable s := by
  induction h with
  | init => exact Reachable.init _
  | step _ hguard hnext ih => exact ih.next ((if_pos hguard).trans hnext)

end Restrict

/-! ## History -/

/-- The system with a flag that remembers whether a step with `event` has been made. -/
def watching (sys : TransitionSystem σ α) (event : σ → α → Bool) :
    TransitionSystem (σ × Bool) α where
  init := (sys.init, false)
  step := fun s a => (sys.step s.1 a).map fun next => (next, s.2 || event s.1 a)

variable {event : σ → α → Bool}

/-- What a step of the watched system is. -/
theorem watching_step_eq_some {s s' : σ × Bool} {a : α} :
    (sys.watching event).step s a = some s' ↔
      sys.step s.1 a = some s'.1 ∧ s'.2 = (s.2 || event s.1 a) := by
  obtain ⟨next, seen⟩ := s'
  show (sys.step s.1 a).map _ = _ ↔ _
  rw [Option.map_eq_some_iff]
  constructor
  · rintro ⟨other, hstep, heq⟩
    cases heq
    exact ⟨hstep, rfl⟩
  · rintro ⟨hstep, rfl⟩
    exact ⟨next, hstep, rfl⟩

/-- Watching excludes no run. -/
theorem Reachable.exists_watching {s : σ} (h : sys.Reachable s) :
    ∃ seen, (sys.watching event).Reachable (s, seen) := by
  induction h with
  | init => exact ⟨false, Reachable.init _⟩
  | step _ _ hnext ih =>
      obtain ⟨seen, hseen⟩ := ih
      exact ⟨_, hseen.next (watching_step_eq_some.mpr ⟨hnext, rfl⟩)⟩

/-- The flag is set behind a step with `event`. -/
theorem Reachable.watching_of_event {s s' : σ} {a : α} (h : sys.Reachable s)
    (hstep : sys.step s a = some s') (hevent : event s a = true) :
    (sys.watching event).Reachable (s', true) := by
  obtain ⟨seen, hseen⟩ := h.exists_watching
  exact hseen.next (watching_step_eq_some.mpr ⟨hstep, by rw [hevent, Bool.or_true]⟩)

end TransitionSystem
