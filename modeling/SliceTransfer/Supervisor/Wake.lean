import SliceTransfer.Machine
import SliceTransfer.Lib.TransitionSystem

/-!
# The supervisor's wait

`Server::Supervise` waits for a condition on two variables with two writers: the
accept loop, which notifies, and the header task, which does not.  The system
`waitSystem n` interleaves them with the supervisor's test; `n` slices are announced.

`Good` ties sleep to the condition: a sleeping supervisor has a false condition.
Every step preserves it but one, the store of `slices_num_` when all connections
have been accepted and the supervisor sleeps.  So the runs without that step are
safe, and that step strands the supervisor (`leftAsleep_iff_storedLate`), for good
(`step_eq_none_of_leftAsleep`).
-/

namespace SliceTransfer.Supervisor

/-- `slices_th_num_ >= slices_num_ + 1 && slices_num_ != 0`: the left operand is a
`short`, the right one an `unsigned int`. -/
def waitCondition (slicesThNum : ℤ) (slicesNum : ℕ) : Bool :=
  decide ((slicesNum + 1) % 2 ^ 32 ≤ uint32 slicesThNum) && decide (slicesNum ≠ 0)

theorem waitCondition_eq_true_iff {slicesThNum : ℤ} {slicesNum : ℕ} (hlt : slicesNum < 2 ^ 16) :
    waitCondition slicesThNum slicesNum = true ↔
      slicesNum + 1 ≤ uint32 slicesThNum ∧ slicesNum ≠ 0 := by
  have hmod : (slicesNum + 1) % 2 ^ 32 = slicesNum + 1 := Nat.mod_eq_of_lt (by omega)
  rw [waitCondition, hmod, Bool.and_eq_true, decide_eq_true_iff, decide_eq_true_iff]

/-! ## The system -/

inductive Waiter
  | testing
  | asleep
  | passed
  deriving DecidableEq, Repr

structure WaitState where
  accepted : ℕ
  slicesThNum : ℤ
  slicesNum : ℕ
  waiter : Waiter
  deriving DecidableEq, Repr

inductive WaitAction
  | accept
  | storeSlicesNum
  | test
  deriving DecidableEq, Repr

/-- The peer opens `n + 1` connections; the first one carries the header. -/
def waitStep (n : ℕ) (s : WaitState) : WaitAction → Option WaitState
  | .accept =>
      -- `notify_one` wakes the supervisor if it sleeps, and is lost otherwise
      if s.accepted < n + 1 then
        some { s with
          accepted := s.accepted + 1
          slicesThNum := int16 (s.slicesThNum + 1)
          waiter := if s.waiter = .asleep then .testing else s.waiter }
      else none
  | .storeSlicesNum =>
      if 1 ≤ s.accepted ∧ s.slicesNum = 0 then some { s with slicesNum := n } else none
  | .test =>
      if s.waiter = .testing then
        some { s with
          waiter := if waitCondition s.slicesThNum s.slicesNum then .passed else .asleep }
      else none

def waitSystem (n : ℕ) : TransitionSystem WaitState WaitAction where
  init := ⟨0, 0, 0, .testing⟩
  step := waitStep n

/-- All connections are accepted and the header is parsed, the condition holds, and
the supervisor sleeps. -/
def LeftAsleep (n : ℕ) (s : WaitState) : Prop :=
  s.accepted = n + 1 ∧ s.slicesNum = n ∧ waitCondition s.slicesThNum s.slicesNum = true ∧
    s.waiter = .asleep

/-- The step that goes wrong: the header is parsed after the last connection was
accepted, and the supervisor sleeps already. -/
def StoredLate (n : ℕ) (s : WaitState) (a : WaitAction) : Prop :=
  a = .storeSlicesNum ∧ s.accepted = n + 1 ∧ s.waiter = .asleep

/-! ## What a step does -/

theorem waitStep_cases {n : ℕ} {s s' : WaitState} {a : WaitAction}
    (h : waitStep n s a = some s') :
    (a = .accept ∧ s.accepted < n + 1 ∧ s' = { s with
        accepted := s.accepted + 1
        slicesThNum := int16 (s.slicesThNum + 1)
        waiter := if s.waiter = .asleep then .testing else s.waiter }) ∨
      (a = .storeSlicesNum ∧ 1 ≤ s.accepted ∧ s.slicesNum = 0 ∧ s' = { s with slicesNum := n }) ∨
      (a = .test ∧ s.waiter = .testing ∧ s' = { s with
        waiter := if waitCondition s.slicesThNum s.slicesNum then .passed else .asleep }) := by
  cases a with
  | accept =>
      obtain ⟨hlt, heq⟩ := Option.ite_none_right_eq_some.mp h
      exact Or.inl ⟨rfl, hlt, (Option.some_inj.mp heq).symm⟩
  | storeSlicesNum =>
      obtain ⟨⟨hfirst, hfresh⟩, heq⟩ := Option.ite_none_right_eq_some.mp h
      exact Or.inr (Or.inl ⟨rfl, hfirst, hfresh, (Option.some_inj.mp heq).symm⟩)
  | test =>
      obtain ⟨htesting, heq⟩ := Option.ite_none_right_eq_some.mp h
      exact Or.inr (Or.inr ⟨rfl, htesting, (Option.some_inj.mp heq).symm⟩)

/-! ## The invariants -/

/-- The counters never wrap, and only the announced number is ever stored. -/
structure Counted (n : ℕ) (s : WaitState) : Prop where
  accepted_le : s.accepted ≤ n + 1
  slicesThNum_eq : s.slicesThNum = s.accepted
  slicesNum_eq : s.slicesNum = 0 ∨ s.slicesNum = n

theorem Counted.step {n : ℕ} (hn : n < 32767) {s s' : WaitState} {a : WaitAction}
    (hs : Counted n s) (h : waitStep n s a = some s') : Counted n s' := by
  obtain ⟨-, hlt, rfl⟩ | ⟨-, -, -, rfl⟩ | ⟨-, -, rfl⟩ := waitStep_cases h
  · refine ⟨hlt, ?_, hs.slicesNum_eq⟩
    show int16 (s.slicesThNum + 1) = ((s.accepted + 1 : ℕ) : ℤ)
    rw [hs.slicesThNum_eq]
    exact int16_of_lt (n := s.accepted + 1) (by omega)
  · exact ⟨hs.accepted_le, hs.slicesThNum_eq, Or.inr rfl⟩
  · exact ⟨hs.accepted_le, hs.slicesThNum_eq, hs.slicesNum_eq⟩

theorem counted_of_reachable {n : ℕ} (hn : n < 32767) {s : WaitState}
    (h : (waitSystem n).Reachable s) : Counted n s :=
  h.invariant ⟨Nat.zero_le _, rfl, Or.inl rfl⟩ fun _ _ _ hs hstep => hs.step hn hstep

/-- With the counters in range the condition is about the two numbers themselves. -/
theorem Counted.waitCondition_iff {n : ℕ} (hn : n < 32767) {s : WaitState} (hs : Counted n s) :
    waitCondition s.slicesThNum s.slicesNum = true ↔
      s.slicesNum + 1 ≤ s.accepted ∧ s.slicesNum ≠ 0 := by
  have hle := hs.accepted_le
  have hnum : s.slicesNum < 2 ^ 16 := by
    rcases hs.slicesNum_eq with h | h <;> omega
  rw [waitCondition_eq_true_iff hnum, hs.slicesThNum_eq, uint32_natCast (by omega)]

/-- Sleep is justified. -/
def Good (n : ℕ) (s : WaitState) : Prop :=
  Counted n s ∧ (s.waiter = .asleep → waitCondition s.slicesThNum s.slicesNum = false)

theorem Good.step {n : ℕ} (hn : n < 32767) {s s' : WaitState} {a : WaitAction} (hs : Good n s)
    (hintime : ¬ StoredLate n s a) (h : waitStep n s a = some s') : Good n s' := by
  have hcounted : Counted n s' := hs.1.step hn h
  refine ⟨hcounted, fun hasleep => ?_⟩
  obtain ⟨rfl, hlt, rfl⟩ | ⟨rfl, hfirst, hfresh, rfl⟩ | ⟨rfl, htesting, rfl⟩ := waitStep_cases h
  · -- the notification woke the supervisor, so it does not sleep now
    split at hasleep
    · cases hasleep
    · exact absurd hasleep ‹_›
  · -- a sleeping supervisor still expects another connection, and that one notifies
    have hmissing : s.accepted ≠ n + 1 := fun hall => hintime ⟨rfl, hall, hasleep⟩
    rw [Bool.eq_false_iff, ne_eq, hcounted.waitCondition_iff hn]
    rintro ⟨hle, -⟩
    have := hs.1.accepted_le
    exact hmissing (le_antisymm this hle)
  · by_cases hcondition : waitCondition s.slicesThNum s.slicesNum = true
    · rw [if_pos hcondition] at hasleep
      cases hasleep
    · exact Bool.eq_false_iff.mpr hcondition

/-! ## The result -/

/-- Nothing wakes a supervisor that was left asleep. -/
theorem step_eq_none_of_leftAsleep {n : ℕ} (hn : 1 ≤ n) {s : WaitState} (h : LeftAsleep n s)
    (a : WaitAction) : waitStep n s a = none := by
  obtain ⟨hall, hnum, -, hasleep⟩ := h
  cases a with
  | accept => exact if_neg (by omega)
  | storeSlicesNum => exact if_neg (by omega)
  | test => exact if_neg (by rw [hasleep]; simp)

/-- **The supervisor is left asleep exactly by a header that is parsed late**: never
in a run without such a step, and always right after such a step. -/
theorem leftAsleep_iff_storedLate (n : ℕ) (hpos : 1 ≤ n) (hn : n < 32767) :
    (∀ s, (waitSystem n).ReachableVia (fun s a => ¬ StoredLate n s a) s → ¬ LeftAsleep n s) ∧
      ∀ s a s', (waitSystem n).Reachable s → (waitSystem n).step s a = some s' →
        StoredLate n s a → LeftAsleep n s' := by
  constructor
  · intro s hreach hasleep
    have hgood : Good n s := by
      refine hreach.invariant ?_ fun _ _ _ hs hintime hstep => hs.step hn hintime hstep
      exact ⟨⟨Nat.zero_le _, rfl, Or.inl rfl⟩, by simp [waitSystem]⟩
    obtain ⟨-, -, hcondition, hwaiter⟩ := hasleep
    rw [hgood.2 hwaiter] at hcondition
    cases hcondition
  · intro s a s' hreach hstep hlate
    change waitStep n s a = some s' at hstep
    have hcounted := (counted_of_reachable hn hreach).step hn hstep
    obtain ⟨rfl, hall, hasleep⟩ := hlate
    obtain ⟨ha, -⟩ | ⟨-, -, -, rfl⟩ | ⟨ha, -⟩ := waitStep_cases hstep
    · cases ha
    · refine ⟨hall, rfl, ?_, hasleep⟩
      rw [hcounted.waitCondition_iff hn]
      exact ⟨Nat.le_of_eq hall.symm, by show n ≠ 0; omega⟩
    · cases ha

/-- One slice is announced. -/
theorem leftAsleep_iff_storedLate_one :
    (∀ s, (waitSystem 1).ReachableVia (fun s a => ¬ StoredLate 1 s a) s → ¬ LeftAsleep 1 s) ∧
      ∀ s a s', (waitSystem 1).Reachable s → (waitSystem 1).step s a = some s' →
        StoredLate 1 s a → LeftAsleep 1 s' :=
  leftAsleep_iff_storedLate 1 (by decide) (by decide)

/-- One slice: both connections are accepted, the supervisor tests, and only then is
the header parsed. -/
theorem leftAsleep_reachable : ∃ s, (waitSystem 1).Reachable s ∧ LeftAsleep 1 s := by
  refine ⟨⟨2, 2, 1, .asleep⟩, ?_, by unfold LeftAsleep; decide⟩
  exact TransitionSystem.reachable_of_run
    (show (waitSystem 1).run [.accept, .accept, .test, .storeSlicesNum] (waitSystem 1).init = _
      by decide)

end SliceTransfer.Supervisor
