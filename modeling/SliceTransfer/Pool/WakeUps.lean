import SliceTransfer.Pool.ThreadPool
import SliceTransfer.Lib.Slots

/-!
# The pool loses no wake-up

`enqueue` pushes under the lock and notifies without it, so a notification may find no
worker asleep, or wake one whose task another worker has taken.  The account that
balances is `Attended`: as long as a worker sleeps, every queued task is matched by a
notification still to come or by a worker that is about to test the predicate.  A push
adds a task and a notification; a notification that wakes turns into a test; a test
that succeeds takes a task; and a test that fails has found no task at all.
-/

namespace SliceTransfer.ThreadPool

variable {τ : Type} {size : ℕ} {s s' : State τ}

/-- The workers that are awake and about to test the predicate. -/
def testers (size : ℕ) (s : State τ) : ℕ := slotCount (· = Worker.testing) s.workers size

/-- The `notify_one` calls that are still to be performed. -/
def outstanding (s : State τ) : ℕ := s.notifying.card

def Asleep (size : ℕ) (s : State τ) : Prop := ∃ worker < size, s.workers worker = .asleep

/-- While a worker sleeps, every queued task has somebody who will look at it. -/
def Attended (size : ℕ) (s : State τ) : Prop :=
  Asleep size s → s.tasks.length ≤ outstanding s + testers size s

/-- Behind the destructor's `notify_all` nobody sleeps any more. -/
structure Roused (size : ℕ) (s : State τ) : Prop where
  stop : s.destructor ≠ .notStarted → s.stop = true
  awake : s.destructor = .notified ∨ s.destructor = .joined → ¬ Asleep size s

/-! ## How the steps change the account -/

section Workers

variable {worker : ℕ} {value : Worker}

/-- A worker that goes to a place other than sleep puts nobody to sleep. -/
theorem asleep_of_setWorker (hvalue : value ≠ .asleep)
    (h : Asleep size (s.setWorker worker value)) : Asleep size s := by
  obtain ⟨other, hother, hasleep⟩ := h
  have hne : other ≠ worker := by
    rintro rfl
    rw [State.setWorker_self] at hasleep
    exact hvalue hasleep
  rw [State.setWorker_of_ne _ _ hne] at hasleep
  exact ⟨other, hother, hasleep⟩

theorem testers_setWorker_testing (hworker : worker < size) (hold : s.workers worker ≠ .testing) :
    testers size (s.setWorker worker .testing) = testers size s + 1 :=
  slotCount_update_add hworker hold rfl

theorem testers_setWorker_add_one (hworker : worker < size) (hold : s.workers worker = .testing)
    (hvalue : value ≠ .testing) : testers size (s.setWorker worker value) + 1 = testers size s :=
  slotCount_update_sub hworker hold hvalue

theorem testers_setWorker_of_ne (hworker : worker < size) (hold : s.workers worker ≠ .testing)
    (hvalue : value ≠ .testing) : testers size (s.setWorker worker value) = testers size s :=
  slotCount_update_same hworker hold hvalue

end Workers

theorem outstanding_push {caller : ℕ} (task : τ) (hcaller : caller ∉ s.notifying) :
    outstanding (s.push caller task) = outstanding s + 1 :=
  Finset.card_insert_of_notMem hcaller

theorem outstanding_leave {caller : ℕ} (hcaller : caller ∈ s.notifying) :
    outstanding (s.leave caller) + 1 = outstanding s :=
  Finset.card_erase_add_one hcaller

/-! ## The invariants -/

theorem Attended.next {a : Action τ} (h : Attended size s) (hnext : Next size s a s') :
    Attended size s' := by
  intro hasleep'
  cases hnext with
  | @push caller task _ hcaller =>
      have hbefore := h hasleep'
      have hmore := outstanding_push task hcaller
      have hlength : (s.push caller task).tasks.length = s.tasks.length + 1 := by
        simp [State.push]
      have hsame : testers size (s.push caller task) = testers size s := rfl
      omega
  | notifyLost hcaller hawake =>
      obtain ⟨worker, hworker, hasleep⟩ := hasleep'
      exact absurd hasleep (hawake worker hworker)
  | @notifyOne caller worker hcaller hworker hasleep =>
      have hbefore := h ⟨worker, hworker, hasleep⟩
      have hless := outstanding_leave hcaller
      have hleft : (s.leave caller).workers worker = .asleep := hasleep
      have hmore := testers_setWorker_testing hworker (by rw [hleft]; exact Worker.noConfusion)
      have hsame : testers size (s.leave caller) = testers size s := rfl
      have hcallers : outstanding ((s.leave caller).setWorker worker .testing) =
          outstanding (s.leave caller) := rfl
      show s.tasks.length ≤ _
      omega
  | sleep _ _ hempty _ =>
      -- the failed test has just seen an empty queue
      show s.tasks.length ≤ _
      rw [hempty]
      exact Nat.zero_le _
  | exit _ _ hempty _ =>
      show s.tasks.length ≤ _
      rw [hempty]
      exact Nat.zero_le _
  | @take worker task rest hworker htesting htasks =>
      have hawake : Worker.holding task ≠ .asleep := Worker.noConfusion
      have hbefore := h (asleep_of_setWorker hawake hasleep')
      have hless : testers size (s.take worker task rest) + 1 = testers size s :=
        testers_setWorker_add_one hworker htesting Worker.noConfusion
      have hsame : outstanding (s.take worker task rest) = outstanding s := rfl
      rw [htasks, List.length_cons] at hbefore
      show rest.length ≤ _
      omega
  | @wake worker hworker hasleep =>
      have hbefore := h ⟨worker, hworker, hasleep⟩
      have hmore := testers_setWorker_testing hworker (by rw [hasleep]; exact Worker.noConfusion)
      have hsame : outstanding (s.setWorker worker .testing) = outstanding s := rfl
      show s.tasks.length ≤ _
      omega
  | @call worker task hworker hholding =>
      have hawake : Worker.running task ≠ .asleep := Worker.noConfusion
      have hbefore := h (asleep_of_setWorker hawake hasleep')
      have hsame : testers size (s.call worker task) = testers size s :=
        testers_setWorker_of_ne hworker (by rw [hholding]; exact Worker.noConfusion)
          Worker.noConfusion
      rw [hsame]
      exact hbefore
  | @finish worker task hworker hrunning =>
      have hbefore := h (asleep_of_setWorker Worker.noConfusion hasleep')
      have hmore := testers_setWorker_testing hworker (by rw [hrunning]; exact Worker.noConfusion)
      have hsame : outstanding (s.setWorker worker .testing) = outstanding s := rfl
      show s.tasks.length ≤ _
      omega
  | stop _ => exact h hasleep'
  | notifyAll _ =>
      obtain ⟨worker, -, hasleep⟩ := hasleep'
      exact absurd hasleep s.wakeAll_ne_asleep
  | join _ _ => exact h hasleep'

theorem attended_of_reachable (h : (poolSystem τ size).Reachable s) : Attended size s := by
  refine Reachable.next_invariant ?_ (fun _ _ _ hs hnext => hs.next hnext) h
  rintro ⟨worker, -, hasleep⟩
  cases hasleep

/-- A worker that goes to a place other than sleep. -/
theorem Roused.setWorker (h : Roused size s) {worker : ℕ} {value : Worker}
    (hvalue : value ≠ .asleep) : Roused size (s.setWorker worker value) :=
  ⟨h.stop, fun hgone hasleep => h.awake hgone (asleep_of_setWorker hvalue hasleep)⟩

theorem Roused.next {a : Action τ} (h : Roused size s) (hnext : Next size s a s') :
    Roused size s' := by
  cases hnext with
  | push _ _ _ => exact ⟨h.stop, h.awake⟩
  | notifyLost _ _ => exact ⟨h.stop, h.awake⟩
  | @notifyOne caller _ _ _ _ =>
      have hleft : Roused size (s.leave caller) := ⟨h.stop, h.awake⟩
      exact hleft.setWorker Worker.noConfusion
  | sleep _ _ _ hgoing =>
      -- a worker that goes to sleep has seen the flag unset
      have hopen : s.destructor = .notStarted := by
        by_contra hgone
        rw [h.stop hgone] at hgoing
        cases hgoing
      refine ⟨h.stop, fun hgone => ?_⟩
      change s.destructor = .notified ∨ s.destructor = .joined at hgone
      rw [hopen] at hgone
      rcases hgone with hgone | hgone <;> cases hgone
  | exit _ _ _ _ => exact h.setWorker Worker.noConfusion
  | @take worker task rest _ _ _ =>
      have hset : Roused size (s.setWorker worker (.holding task)) :=
        h.setWorker Worker.noConfusion
      exact ⟨hset.stop, hset.awake⟩
  | wake _ _ => exact h.setWorker Worker.noConfusion
  | @call worker task _ _ =>
      have hset : Roused size (s.setWorker worker (.running task)) :=
        h.setWorker Worker.noConfusion
      exact ⟨hset.stop, hset.awake⟩
  | finish _ _ => exact h.setWorker Worker.noConfusion
  | stop _ => exact ⟨fun _ => rfl, fun hgone => by rcases hgone with hgone | hgone <;> cases hgone⟩
  | notifyAll hstopped =>
      refine ⟨fun _ => h.stop (by rw [hstopped]; exact Destructor.noConfusion), ?_⟩
      rintro - ⟨worker, -, hasleep⟩
      exact s.wakeAll_ne_asleep hasleep
  | join hnotified _ =>
      refine ⟨fun _ => h.stop (by rw [hnotified]; exact Destructor.noConfusion), fun _ => ?_⟩
      exact h.awake (Or.inl hnotified)

theorem roused_of_reachable (h : (poolSystem τ size).Reachable s) : Roused size s := by
  refine Reachable.next_invariant ?_ (fun _ _ _ hs hnext => hs.next hnext) h
  refine ⟨fun hgone => absurd rfl hgone, fun hgone => ?_⟩
  rcases hgone with hgone | hgone <;> cases hgone

/-! ## The result -/

/-- **No worker sleeps beside a task that nobody is about to take, and none sleeps behind
the destructor's `notify_all`.** -/
theorem wakeUps_suffice (τ : Type) (size : ℕ) (s : State τ)
    (h : (poolSystem τ size).Reachable s) :
    (Asleep size s → s.tasks.length ≤ outstanding s + testers size s) ∧
      (s.destructor = .notified ∨ s.destructor = .joined → ¬ Asleep size s) :=
  ⟨attended_of_reachable h, (roused_of_reachable h).awake⟩

/-- Two workers asleep and two callers that have pushed: one notification has woken the
first worker, the second worker still sleeps beside two queued tasks. -/
theorem wakeUps_suffice_two : ∃ s, (poolSystem ℕ 2).Reachable s ∧ Asleep 2 s ∧
    s.tasks.length = 2 ∧ s.tasks.length ≤ outstanding s + testers 2 s := by
  have hrun : ((poolSystem ℕ 2).run [.test 0, .test 1, .push 0 7, .push 1 8, .notify 0 (some 0)]
      (poolSystem ℕ 2).init).map (fun s => (s.tasks, s.workers 1)) =
        some ([0, 1], .asleep) := by decide
  obtain ⟨s, hs, hfields⟩ := Option.map_eq_some_iff.mp hrun
  obtain ⟨htasks, hasleep⟩ := Prod.mk.inj hfields
  have hreach := TransitionSystem.reachable_of_run hs
  have hsleeps : Asleep 2 s := ⟨1, by decide, hasleep⟩
  exact ⟨s, hreach, hsleeps, by rw [htasks]; rfl, (wakeUps_suffice ℕ 2 s hreach).1 hsleeps⟩

end SliceTransfer.ThreadPool
