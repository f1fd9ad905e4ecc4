import SliceTransfer.Lib.TransitionSystem
import Mathlib.Order.Basic
import Mathlib.Tactic.Push

/-!
# Runs that come to an end

An invariant says what a system never does; here is what it always does in the end.
Some steps are *productive*, the others may be repeated for ever without any effect.
A state is *settled* when no productive step is possible in it.

`EndsIn productive P` says that a run makes a bounded number of productive steps, that
every run can be continued to a settled state, and that a settled state satisfies `P`:
whatever the schedule, as long as productive steps are taken while there are any, the
run comes to `P`.  It is proved from a measure that productive steps lower (`Measured`),
and from a look at the settled states.
-/

namespace TransitionSystem

variable {σ α : Type*} {sys : TransitionSystem σ α} {productive : σ → α → Bool} {μ : σ → ℕ}

/-- The number of productive steps of a schedule. -/
def countProductive (sys : TransitionSystem σ α) (productive : σ → α → Bool) :
    List α → σ → ℕ
  | [], _ => 0
  | a :: rest, s => (productive s a).toNat +
      match sys.step s a with
      | some next => sys.countProductive productive rest next
      | none => 0

/-- Productive steps lower the measure, and no step raises it. -/
def Measured (sys : TransitionSystem σ α) (productive : σ → α → Bool) (μ : σ → ℕ) : Prop :=
  ∀ s a s', sys.Reachable s → sys.step s a = some s' → μ s' + (productive s a).toNat ≤ μ s

/-- No productive step is possible. -/
def Settled (sys : TransitionSystem σ α) (productive : σ → α → Bool) (s : σ) : Prop :=
  ∀ a, productive s a = true → sys.step s a = none

/-- Productive steps come to an end, and where they have, `P` holds. -/
structure EndsIn (sys : TransitionSystem σ α) (productive : σ → α → Bool) (P : σ → Prop) :
    Prop where
  bounded : ∃ bound, ∀ actions s, sys.run actions sys.init = some s →
    sys.countProductive productive actions sys.init ≤ bound
  settles : ∀ s, sys.Reachable s → ∃ actions s', sys.run actions s = some s' ∧
    sys.Settled productive s'
  settled : ∀ s, sys.Reachable s → sys.Settled productive s → P s

/-- The productive steps of a run are paid for by the measure. -/
theorem Measured.countProductive_add_le (h : sys.Measured productive μ) {actions : List α}
    {s s' : σ} (hs : sys.Reachable s) (hrun : sys.run actions s = some s') :
    sys.countProductive productive actions s + μ s' ≤ μ s := by
  induction actions generalizing s with
  | nil =>
      rw [run_nil, Option.some_inj] at hrun
      rw [hrun, countProductive]
      omega
  | cons a rest ih =>
      rw [run_cons, Option.bind_eq_some_iff] at hrun
      obtain ⟨next, hnext, hrest⟩ := hrun
      have hlater := ih (hs.next hnext) hrest
      have hstep := h s a next hs hnext
      rw [countProductive, hnext]
      dsimp only
      omega

/-- A state that is not settled can make a productive step. -/
theorem exists_step_of_not_settled {s : σ} (h : ¬ sys.Settled productive s) :
    ∃ a s', productive s a = true ∧ sys.step s a = some s' := by
  unfold Settled at h
  push Not at h
  obtain ⟨a, hproductive, hstep⟩ := h
  obtain ⟨s', hs'⟩ := Option.ne_none_iff_exists'.mp hstep
  exact ⟨a, s', hproductive, hs'⟩

/-- From every reachable state on a run leads to a settled state, by induction on the
measure. -/
theorem Measured.exists_run_settled (h : sys.Measured productive μ) {s : σ}
    (hs : sys.Reachable s) :
    ∃ actions s', sys.run actions s = some s' ∧ sys.Settled productive s' := by
  obtain ⟨k, hk⟩ : ∃ k, k = μ s := ⟨_, rfl⟩
  induction k using Nat.strongRecOn generalizing s with
  | ind k ih =>
      by_cases hsettled : sys.Settled productive s
      · exact ⟨[], s, rfl, hsettled⟩
      · obtain ⟨a, next, hproductive, hstep⟩ := exists_step_of_not_settled hsettled
        have hless := h s a next hs hstep
        rw [hproductive, Bool.toNat_true] at hless
        obtain ⟨actions, s', hrun, hdone⟩ := ih (μ next) (by omega) (hs.next hstep) rfl
        exact ⟨a :: actions, s', by rw [run_cons_of_step hstep, hrun], hdone⟩

/-- **The rule.**  A measure, and a look at the settled states. -/
theorem Measured.endsIn {P : σ → Prop} (h : sys.Measured productive μ)
    (hsettled : ∀ s, sys.Reachable s → sys.Settled productive s → P s) :
    sys.EndsIn productive P := by
  refine ⟨⟨μ sys.init, fun actions s hrun => ?_⟩, fun s hs => h.exists_run_settled hs, hsettled⟩
  have hpaid := h.countProductive_add_le (Reachable.init sys) hrun
  omega

/-- What follows from `P` in the settled states. -/
theorem EndsIn.imp {P Q : σ → Prop} (h : sys.EndsIn productive P)
    (himp : ∀ s, sys.Reachable s → sys.Settled productive s → P s → Q s) :
    sys.EndsIn productive Q :=
  ⟨h.bounded, h.settles, fun s hs hsettled => himp s hs hsettled (h.settled s hs hsettled)⟩

section Restrict

variable {guard : σ → α → Prop} [∀ s a, Decidable (guard s a)]

theorem Reachable.of_restrict {s : σ} (h : (sys.restrict guard).Reachable s) :
    sys.Reachable s := by
  induction h with
  | init => exact Reachable.init sys
  | step _ _ hnext ih => exact ih.next (Option.ite_none_right_eq_some.mp hnext).2

/-- The steps that a guard leaves are still measured. -/
theorem Measured.restrict (h : sys.Measured productive μ) :
    (sys.restrict guard).Measured productive μ :=
  fun s a s' hs hstep => h s a s' hs.of_restrict (Option.ite_none_right_eq_some.mp hstep).2

/-- A productive step that the guard allows is not possible in a settled state. -/
theorem Settled.step_eq_none {s : σ} (h : (sys.restrict guard).Settled productive s) {a : α}
    (hproductive : productive s a = true) (hguard : guard s a) : sys.step s a = none :=
  (if_pos hguard).symm.trans (h a hproductive)

end Restrict

end TransitionSystem
