import SliceTransfer.Lib.TransitionSystem
import Mathlib.Data.Finset.Card

/-!
# The thread pool

`ThreadPool` is a queue of tasks, a stop flag and a row of workers that wait on a
condition variable.  Each critical section under `m_` is one step of `poolSystem size`;
the notifications, which the program issues without the lock, are steps of their own.
`wait(lk, pred)` tests under the lock and, if the test fails, releases the lock and
sleeps in one step; a sleeping worker may also wake up for no reason.

A task is identified by its number in the order of the pushes.  `pushed`, `taken` and
`runs` are the history: what was enqueued, dequeued and called so far.  `Next` says
what each step does; every invariant is proved by cases on it.
-/

namespace SliceTransfer.ThreadPool

/-- Where a worker is: about to test the predicate, asleep in `wait`, with a task it has
moved out of the queue, inside `task()`, or gone. -/
inductive Worker
  | testing
  | asleep
  | holding (task : ℕ)
  | running (task : ℕ)
  | exited
  deriving DecidableEq, Repr

/-- How far `~ThreadPool` has got. -/
inductive Destructor
  | notStarted
  | stopped
  | notified
  | joined
  deriving DecidableEq, Repr

/-- `notifying` are the callers of `enqueue` between the push and `notify_one`. -/
structure State (τ : Type) where
  tasks : List ℕ
  stop : Bool
  workers : ℕ → Worker
  notifying : Finset ℕ
  destructor : Destructor
  pushed : List τ
  taken : List ℕ
  runs : List ℕ

inductive Action (τ : Type)
  | push (caller : ℕ) (task : τ)
  | notify (caller : ℕ) (woken : Option ℕ)
  | test (worker : ℕ)
  | wake (worker : ℕ)
  | call (worker : ℕ)
  | finish (worker : ℕ)
  | stop
  | notifyAll
  | join
  deriving DecidableEq, Repr

variable {τ : Type}

namespace State

/-- `tasks_.emplace` by a caller of `enqueue`. -/
def push (s : State τ) (caller : ℕ) (task : τ) : State τ :=
  { s with
    tasks := s.tasks ++ [s.pushed.length]
    pushed := s.pushed ++ [task]
    notifying := insert caller s.notifying }

/-- `notify_one` by a caller of `enqueue`, which then returns. -/
def leave (s : State τ) (caller : ℕ) : State τ :=
  { s with notifying := s.notifying.erase caller }

def setWorker (s : State τ) (worker : ℕ) (value : Worker) : State τ :=
  { s with workers := Function.update s.workers worker value }

/-- The critical section of a worker behind a true predicate: the queue is `task :: rest`. -/
def take (s : State τ) (worker task : ℕ) (rest : List ℕ) : State τ :=
  { s.setWorker worker (.holding task) with tasks := rest, taken := s.taken ++ [task] }

/-- `task()`. -/
def call (s : State τ) (worker task : ℕ) : State τ :=
  { s.setWorker worker (.running task) with runs := s.runs ++ [task] }

/-- `notify_all`. -/
def wakeAll (s : State τ) : State τ :=
  { s with
    workers := fun worker =>
      if s.workers worker = .asleep then .testing else s.workers worker }

end State

/-- A critical section of a worker that is about to test `stop_ || !tasks_.empty()`. -/
def testStep (s : State τ) (worker : ℕ) : State τ :=
  match s.tasks with
  | [] => if s.stop then s.setWorker worker .exited else s.setWorker worker .asleep
  | task :: rest => s.take worker task rest

def poolStep (size : ℕ) (s : State τ) : Action τ → Option (State τ)
  | .push caller task =>
      if s.destructor = .notStarted ∧ caller ∉ s.notifying then some (s.push caller task) else none
  | .notify caller woken =>
      if caller ∈ s.notifying then
        match woken with
        | none =>
            if ∀ worker < size, s.workers worker ≠ .asleep then some (s.leave caller) else none
        | some worker =>
            if worker < size ∧ s.workers worker = .asleep then
              some ((s.leave caller).setWorker worker .testing)
            else none
      else none
  | .test worker =>
      if worker < size ∧ s.workers worker = .testing then some (testStep s worker) else none
  | .wake worker =>
      if worker < size ∧ s.workers worker = .asleep then some (s.setWorker worker .testing)
      else none
  | .call worker =>
      match s.workers worker with
      | .holding task => if worker < size then some (s.call worker task) else none
      | _ => none
  | .finish worker =>
      match s.workers worker with
      | .running _ => if worker < size then some (s.setWorker worker .testing) else none
      | _ => none
  | .stop =>
      if s.destructor = .notStarted then some { s with stop := true, destructor := .stopped }
      else none
  | .notifyAll =>
      if s.destructor = .stopped then some { s.wakeAll with destructor := .notified } else none
  | .join =>
      if s.destructor = .notified ∧ ∀ worker < size, s.workers worker = .exited then
        some { s with destructor := .joined }
      else none

/-- The pool right behind its constructor. -/
def initial (τ : Type) : State τ := ⟨[], false, fun _ => .testing, ∅, .notStarted, [], [], []⟩

def poolSystem (τ : Type) (size : ℕ) : TransitionSystem (State τ) (Action τ) where
  init := initial τ
  step := poolStep size

/-! ## What a step does -/

/-- The steps of the pool, one constructor for each thing that can happen. -/
inductive Next (size : ℕ) (s : State τ) : Action τ → State τ → Prop
  | push {caller : ℕ} (task : τ) (hopen : s.destructor = .notStarted)
      (hcaller : caller ∉ s.notifying) : Next size s (.push caller task) (s.push caller task)
  | notifyLost {caller : ℕ} (hcaller : caller ∈ s.notifying)
      (hawake : ∀ worker < size, s.workers worker ≠ .asleep) :
      Next size s (.notify caller none) (s.leave caller)
  | notifyOne {caller worker : ℕ} (hcaller : caller ∈ s.notifying) (hworker : worker < size)
      (hasleep : s.workers worker = .asleep) :
      Next size s (.notify caller (some worker)) ((s.leave caller).setWorker worker .testing)
  | sleep {worker : ℕ} (hworker : worker < size) (htesting : s.workers worker = .testing)
      (hempty : s.tasks = []) (hgoing : s.stop = false) :
      Next size s (.test worker) (s.setWorker worker .asleep)
  | exit {worker : ℕ} (hworker : worker < size) (htesting : s.workers worker = .testing)
      (hempty : s.tasks = []) (hstop : s.stop = true) :
      Next size s (.test worker) (s.setWorker worker .exited)
  | take {worker task : ℕ} {rest : List ℕ} (hworker : worker < size)
      (htesting : s.workers worker = .testing) (htasks : s.tasks = task :: rest) :
      Next size s (.test worker) (s.take worker task rest)
  | wake {worker : ℕ} (hworker : worker < size) (hasleep : s.workers worker = .asleep) :
      Next size s (.wake worker) (s.setWorker worker .testing)
  | call {worker task : ℕ} (hworker : worker < size) (hholding : s.workers worker = .holding task) :
      Next size s (.call worker) (s.call worker task)
  | finish {worker task : ℕ} (hworker : worker < size)
      (hrunning : s.workers worker = .running task) :
      Next size s (.finish worker) (s.setWorker worker .testing)
  | stop (hopen : s.destructor = .notStarted) :
      Next size s .stop { s with stop := true, destructor := .stopped }
  | notifyAll (hstopped : s.destructor = .stopped) :
      Next size s .notifyAll { s.wakeAll with destructor := .notified }
  | join (hnotified : s.destructor = .notified)
      (hexited : ∀ worker < size, s.workers worker = .exited) :
      Next size s .join { s with destructor := .joined }

theorem next_of_poolStep {size : ℕ} {s s' : State τ} {a : Action τ}
    (h : poolStep size s a = some s') : Next size s a s' := by
  cases a with
  | push caller task =>
      obtain ⟨⟨hopen, hcaller⟩, heq⟩ := Option.ite_none_right_eq_some.mp h
      cases heq
      exact .push task hopen hcaller
  | notify caller woken =>
      obtain ⟨hcaller, heq⟩ := Option.ite_none_right_eq_some.mp h
      cases woken with
      | none =>
          obtain ⟨hawake, heq⟩ := Option.ite_none_right_eq_some.mp heq
          cases heq
          exact .notifyLost hcaller hawake
      | some worker =>
          obtain ⟨⟨hworker, hasleep⟩, heq⟩ := Option.ite_none_right_eq_some.mp heq
          cases heq
          exact .notifyOne hcaller hworker hasleep
  | test worker =>
      obtain ⟨⟨hworker, htesting⟩, heq⟩ := Option.ite_none_right_eq_some.mp h
      cases heq
      unfold testStep
      cases htasks : s.tasks with
      | nil =>
          cases hstop : s.stop with
          | false => exact .sleep hworker htesting htasks hstop
          | true => exact .exit hworker htesting htasks hstop
      | cons task rest => exact .take hworker htesting htasks
  | wake worker =>
      obtain ⟨⟨hworker, hasleep⟩, heq⟩ := Option.ite_none_right_eq_some.mp h
      cases heq
      exact .wake hworker hasleep
  | call worker =>
      unfold poolStep at h
      cases hvalue : s.workers worker with
      | holding task =>
          simp only [hvalue] at h
          obtain ⟨hworker, heq⟩ := Option.ite_none_right_eq_some.mp h
          cases heq
          exact .call hworker hvalue
      | _ => simp [hvalue] at h
  | finish worker =>
      unfold poolStep at h
      cases hvalue : s.workers worker with
      | running task =>
          simp only [hvalue] at h
          obtain ⟨hworker, heq⟩ := Option.ite_none_right_eq_some.mp h
          cases heq
          exact .finish hworker hvalue
      | _ => simp [hvalue] at h
  | stop =>
      obtain ⟨hopen, heq⟩ := Option.ite_none_right_eq_some.mp h
      cases heq
      exact .stop hopen
  | notifyAll =>
      obtain ⟨hstopped, heq⟩ := Option.ite_none_right_eq_some.mp h
      cases heq
      exact .notifyAll hstopped
  | join =>
      obtain ⟨⟨hnotified, hexited⟩, heq⟩ := Option.ite_none_right_eq_some.mp h
      cases heq
      exact .join hnotified hexited

/-- What holds of a fresh pool and is kept by every step holds in every run. -/
theorem Reachable.next_invariant {size : ℕ} {I : State τ → Prop} (hinit : I (initial τ))
    (hnext : ∀ s a s', I s → Next size s a s' → I s') {s : State τ}
    (h : (poolSystem τ size).Reachable s) : I s :=
  h.invariant hinit fun s a s' hs hstep => hnext s a s' hs (next_of_poolStep hstep)

/-! ## The fields of the new states -/

namespace State

variable (s : State τ) {worker other : ℕ}

@[simp] theorem setWorker_self (value : Worker) :
    (s.setWorker worker value).workers worker = value :=
  Function.update_self ..

theorem setWorker_of_ne (value : Worker) (hne : other ≠ worker) :
    (s.setWorker worker value).workers other = s.workers other :=
  Function.update_of_ne hne ..

theorem wakeAll_eq_iff {value : Worker} (hawake : value ≠ .testing) (hsleep : value ≠ .asleep) :
    s.wakeAll.workers worker = value ↔ s.workers worker = value := by
  show (if s.workers worker = .asleep then Worker.testing else s.workers worker) = value ↔ _
  by_cases hasleep : s.workers worker = .asleep
  · rw [if_pos hasleep, hasleep]
    exact ⟨fun heq => absurd heq.symm hawake, fun heq => absurd heq.symm hsleep⟩
  · rw [if_neg hasleep]

theorem wakeAll_ne_asleep : s.wakeAll.workers worker ≠ .asleep := by
  show (if s.workers worker = .asleep then Worker.testing else s.workers worker) ≠ .asleep
  split
  · exact Worker.noConfusion
  · assumption

end State

end SliceTransfer.ThreadPool
