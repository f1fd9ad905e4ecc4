import SliceTransfer.Supervisor.Wake
import Mathlib.Logic.Function.Basic

/-!
# The end marker

`Server::Supervise` writes `E` after its wait has passed and it has collected the
results of all tasks.  The system `endSystem n` runs the supervisor against the
accept loop, the tasks and the header store.  None of these holds `supervisor_m_`, so
the test of the wait is not one step here: it loads `slices_th_num_` and `slices_num_`,
the latter once more when the comparison holds, and a test that fails is followed by the
block as a step of its own.

`Ordered` relates the wrapping counter, the vector of futures and the connections
accepted.  `Justified` says what the supervisor may rely on in the middle of a test.  Two
loads break it, each while tasks are missing in the vector (`Misleads`): the header has been
stored between the two loads of `slices_num_`, so that the counter was compared with zero,
or the counter is loaded when it has wrapped.  In the runs without such loads a written
marker is right (`allReturned_of_reported`), and up to 32767 slices only the first kind is
there (`misleads_iff`).
-/

namespace SliceTransfer.Supervisor

/-! ## The system -/

/-- Where the accept loop is: `enqueue`, `push_back`, the increment and `notify_one`
follow one another. -/
inductive Acceptor
  | listening
  | enqueued
  | pushed
  | counted
  deriving DecidableEq, Repr

/-- How a task ended; `get` rethrows the exception of a task that threw. -/
inductive TaskEnd
  | returned
  | threw
  deriving DecidableEq, Repr

/-- Where the supervisor is.  A test is in one of `thLoaded` and `numLoaded`, as the
operands of `>=` may be evaluated in either order, and in `compared` when the comparison
with that number has held.  `blocking` is a supervisor that has found the condition false
and does not wait yet.  `collecting next last` is the loop over the futures, whose end is
fixed when it starts. -/
inductive Phase
  | testing
  | thLoaded (slicesThNum : ℤ)
  | numLoaded (slicesNum : ℕ)
  | compared (slicesNum : ℕ)
  | blocking
  | asleep
  | passed
  | connected
  | collecting (next last : ℕ)
  | reported
  | stopped
  deriving DecidableEq, Repr

structure EndState where
  accepted : ℕ
  acceptor : Acceptor
  futures : ℕ
  slicesThNum : ℤ
  slicesNum : ℕ
  tasks : ℕ → Option TaskEnd
  phase : Phase

inductive SuperviseAction
  | loadThNum
  | loadNum
  | block
  | wake
  | connect (success : Bool)
  | collect
  | get
  | write
  deriving DecidableEq, Repr

/-- `slices_th_num_ >= slices_num_ + 1`. -/
def enough (slicesThNum : ℤ) (slicesNum : ℕ) : Bool :=
  decide ((slicesNum + 1) % 2 ^ 32 ≤ uint32 slicesThNum)

/-- The comparison, with both operands there. -/
def Phase.compare (slicesThNum : ℤ) (slicesNum : ℕ) : Phase :=
  if enough slicesThNum slicesNum then .compared slicesNum else .blocking

/-- A step of the supervisor, which changes nothing but where the supervisor is. -/
def superviseStep (s : EndState) : SuperviseAction → Option Phase
  | .loadThNum =>
      match s.phase with
      | .testing => some (.thLoaded s.slicesThNum)
      | .numLoaded slicesNum => some (Phase.compare s.slicesThNum slicesNum)
      | _ => none
  | .loadNum =>
      match s.phase with
      | .testing => some (.numLoaded s.slicesNum)
      | .thLoaded slicesThNum => some (Phase.compare slicesThNum s.slicesNum)
      -- `slices_num_ != 0`
      | .compared _ => some (if s.slicesNum ≠ 0 then .passed else .blocking)
      | _ => none
  | .block => if s.phase = .blocking then some .asleep else none
  | .wake => if s.phase = .asleep then some .testing else none
  | .connect success =>
      if s.phase = .passed then some (if success then .connected else .stopped) else none
  | .collect => if s.phase = .connected then some (.collecting 0 s.futures) else none
  | .get =>
      match s.phase with
      | .collecting next last =>
          if next < last then
            -- `get` blocks until the task has ended
            (s.tasks next).map fun result =>
              match result with
              | .returned => .collecting (next + 1) last
              | .threw => .stopped
          else none
      | _ => none
  | .write =>
      match s.phase with
      | .collecting next last => if next = last then some .reported else none
      | _ => none

inductive EndAction
  | enqueue
  | push
  | count
  | notify
  | storeSlicesNum
  | finish (task : ℕ) (result : TaskEnd)
  | supervise (action : SuperviseAction)
  deriving DecidableEq, Repr

/-- The peer opens one header connection and `n` slice connections. -/
def endStep (n : ℕ) (s : EndState) : EndAction → Option EndState
  | .enqueue =>
      if s.acceptor = .listening ∧ s.accepted < n + 1 then
        some { s with accepted := s.accepted + 1, acceptor := .enqueued }
      else none
  | .push =>
      if s.acceptor = .enqueued then
        some { s with futures := s.futures + 1, acceptor := .pushed }
      else none
  | .count =>
      if s.acceptor = .pushed then
        some { s with slicesThNum := int16 (s.slicesThNum + 1), acceptor := .counted }
      else none
  | .notify =>
      -- a notification is lost on a supervisor that does not wait yet
      if s.acceptor = .counted then
        some { s with
          acceptor := .listening
          phase := if s.phase = .asleep then .testing else s.phase }
      else none
  | .storeSlicesNum =>
      if 1 ≤ s.accepted ∧ s.slicesNum = 0 then some { s with slicesNum := n } else none
  | .finish task result =>
      if task < s.accepted ∧ s.tasks task = none then
        some { s with tasks := Function.update s.tasks task (some result) }
      else none
  | .supervise action => (superviseStep s action).map fun phase => { s with phase := phase }

def endInitial : EndState := ⟨0, .listening, 0, 0, 0, fun _ => none, .testing⟩

def endSystem (n : ℕ) : TransitionSystem EndState EndAction where
  init := endInitial
  step := endStep n

/-- All connections are accepted, their futures are in the vector and their tasks have
returned. -/
def AllReturned (n : ℕ) (s : EndState) : Prop :=
  s.accepted = n + 1 ∧ s.futures = n + 1 ∧ ∀ task < n + 1, s.tasks task = some .returned

/-- The comparison was made with another number than `slices_num_` has now. -/
def EndState.torn (s : EndState) : Bool :=
  match s.phase with
  | .compared slicesNum => decide (slicesNum ≠ s.slicesNum)
  | _ => false

/-- A load that lets a test pass while tasks are missing in the vector: `slices_num_` is
loaded again, and it has been stored since the comparison; or the counter is loaded when it
has wrapped and is taken for a huge number. -/
def Misleads (n : ℕ) (s : EndState) (a : EndAction) : Prop :=
  s.futures < n + 1 ∧
    (a = .supervise .loadNum ∧ s.torn = true ∨ a = .supervise .loadThNum ∧ s.slicesThNum < 0)

instance (n : ℕ) (s : EndState) (a : EndAction) : Decidable (Misleads n s a) :=
  inferInstanceAs (Decidable (_ ∧ _))

/-! ## What a step does -/

theorem Phase.compare_cases (slicesThNum : ℤ) (slicesNum : ℕ) :
    Phase.compare slicesThNum slicesNum = .compared slicesNum ∧
        enough slicesThNum slicesNum = true ∨
      Phase.compare slicesThNum slicesNum = .blocking ∧ enough slicesThNum slicesNum = false := by
  unfold Phase.compare
  split
  · exact Or.inl ⟨rfl, ‹_›⟩
  · exact Or.inr ⟨rfl, Bool.eq_false_iff.mpr ‹_›⟩

/-- The steps of the supervisor, one constructor for each thing that can happen. -/
inductive SuperviseNext (s : EndState) : SuperviseAction → Phase → Prop
  | loadThNum (htesting : s.phase = .testing) :
      SuperviseNext s .loadThNum (.thLoaded s.slicesThNum)
  | loadNum (htesting : s.phase = .testing) : SuperviseNext s .loadNum (.numLoaded s.slicesNum)
  | compareThNum {slicesNum : ℕ} (hloaded : s.phase = .numLoaded slicesNum) :
      SuperviseNext s .loadThNum (Phase.compare s.slicesThNum slicesNum)
  | compareNum {slicesThNum : ℤ} (hloaded : s.phase = .thLoaded slicesThNum) :
      SuperviseNext s .loadNum (Phase.compare slicesThNum s.slicesNum)
  | pass {slicesNum : ℕ} (hcompared : s.phase = .compared slicesNum) (hstored : s.slicesNum ≠ 0) :
      SuperviseNext s .loadNum .passed
  | fail {slicesNum : ℕ} (hcompared : s.phase = .compared slicesNum) (hzero : s.slicesNum = 0) :
      SuperviseNext s .loadNum .blocking
  | block (hblocking : s.phase = .blocking) : SuperviseNext s .block .asleep
  | wake (hasleep : s.phase = .asleep) : SuperviseNext s .wake .testing
  | connect (hpassed : s.phase = .passed) : SuperviseNext s (.connect true) .connected
  | refused (hpassed : s.phase = .passed) : SuperviseNext s (.connect false) .stopped
  | collect (hconnected : s.phase = .connected) :
      SuperviseNext s .collect (.collecting 0 s.futures)
  | get {next last : ℕ} (hcollecting : s.phase = .collecting next last) (hlt : next < last)
      (hresult : s.tasks next = some .returned) :
      SuperviseNext s .get (.collecting (next + 1) last)
  | rethrow {next last : ℕ} (hcollecting : s.phase = .collecting next last) (hlt : next < last)
      (hresult : s.tasks next = some .threw) : SuperviseNext s .get .stopped
  | write {last : ℕ} (hcollecting : s.phase = .collecting last last) :
      SuperviseNext s .write .reported

theorem superviseNext_of_step {s : EndState} {a : SuperviseAction} {phase : Phase}
    (h : superviseStep s a = some phase) : SuperviseNext s a phase := by
  cases a with
  | loadThNum =>
      rw [superviseStep] at h
      split at h <;> cases h
      · exact .loadThNum ‹_›
      · exact .compareThNum ‹_›
  | loadNum =>
      rw [superviseStep] at h
      split at h <;> cases h
      · exact .loadNum ‹_›
      · exact .compareNum ‹_›
      · by_cases hstored : s.slicesNum = 0
        · rw [if_neg (not_not_intro hstored)]
          exact .fail ‹_› hstored
        · rw [if_pos hstored]
          exact .pass ‹_› hstored
  | block =>
      obtain ⟨hblocking, heq⟩ := Option.ite_none_right_eq_some.mp h
      cases heq
      exact .block hblocking
  | wake =>
      obtain ⟨hasleep, heq⟩ := Option.ite_none_right_eq_some.mp h
      cases heq
      exact .wake hasleep
  | connect success =>
      obtain ⟨hpassed, heq⟩ := Option.ite_none_right_eq_some.mp h
      cases heq
      cases success with
      | true => exact .connect hpassed
      | false => exact .refused hpassed
  | collect =>
      obtain ⟨hconnected, heq⟩ := Option.ite_none_right_eq_some.mp h
      cases heq
      exact .collect hconnected
  | get =>
      cases hphase : s.phase with
      | collecting next last =>
          simp only [superviseStep, hphase] at h
          obtain ⟨hlt, heq⟩ := Option.ite_none_right_eq_some.mp h
          obtain ⟨result, hresult, rfl⟩ := Option.map_eq_some_iff.mp heq
          cases result with
          | returned => exact .get hphase hlt hresult
          | threw => exact .rethrow hphase hlt hresult
      | _ => simp [superviseStep, hphase] at h
  | write =>
      cases hphase : s.phase with
      | collecting next last =>
          simp only [superviseStep, hphase] at h
          obtain ⟨rfl, heq⟩ := Option.ite_none_right_eq_some.mp h
          cases heq
          exact .write hphase
      | _ => simp [superviseStep, hphase] at h

/-! ## The invariant -/

/-- The increment that is still to come. -/
def Acceptor.uncounted : Acceptor → ℕ
  | .pushed => 1
  | _ => 0

def Acceptor.unpushed : Acceptor → ℕ
  | .enqueued => 1
  | _ => 0

/-- The three counts of the accept loop. -/
structure Ordered (n : ℕ) (s : EndState) (increments : ℕ) : Prop where
  slicesThNum_eq : s.slicesThNum = int16 increments
  futures_eq : s.futures = increments + s.acceptor.uncounted
  accepted_eq : s.accepted = s.futures + s.acceptor.unpushed
  accepted_le : s.accepted ≤ n + 1
  slicesNum_eq : s.slicesNum = 0 ∨ s.slicesNum = n

/-- What the supervisor may rely on.  A test compares with a counter that is not ahead of
the vector, so a comparison that has held was one with zero, or every task is in the
vector.  Once the wait has passed every task is there, and the supervisor has seen the tasks
before `next` return. -/
def Justified (n : ℕ) (s : EndState) : Prop :=
  match s.phase with
  | .testing | .blocking | .asleep | .stopped => True
  | .thLoaded slicesThNum => s.futures = n + 1 ∨ 0 ≤ slicesThNum ∧ slicesThNum ≤ s.futures
  | .numLoaded slicesNum => slicesNum = 0 ∨ slicesNum = n
  | .compared slicesNum => slicesNum ≠ 0 → s.futures = n + 1
  | .passed | .connected => s.futures = n + 1
  | .collecting next last => s.futures = n + 1 ∧ last = n + 1 ∧
      ∀ task < next, s.tasks task = some .returned
  | .reported => s.futures = n + 1 ∧ ∀ task < n + 1, s.tasks task = some .returned

theorem Ordered.futures_le {n increments : ℕ} {s : EndState} (hs : Ordered n s increments) :
    s.futures ≤ n + 1 := by
  have haccepted := hs.accepted_eq
  have hle := hs.accepted_le
  omega

/-- Wrapped or not, the counter is not ahead of the vector. -/
theorem Ordered.slicesThNum_le {n increments : ℕ} {s : EndState} (hs : Ordered n s increments) :
    s.slicesThNum ≤ s.futures := by
  have hfutures := hs.futures_eq
  rw [hs.slicesThNum_eq, int16]
  omega

/-- Up to 32767 slices the counter does not wrap before the last task is in the vector. -/
theorem Ordered.slicesThNum_nonneg {n increments : ℕ} {s : EndState} (hs : Ordered n s increments)
    (hn : n ≤ 32767) (hless : s.futures < n + 1) : 0 ≤ s.slicesThNum := by
  have hfutures := hs.futures_eq
  rw [hs.slicesThNum_eq, int16_of_lt (by omega)]
  exact Int.natCast_nonneg _

/-- The comparison with the announced number. -/
theorem eq_of_enough {n futures : ℕ} {slicesThNum : ℤ} (hn : n ≤ 65535)
    (hnonneg : 0 ≤ slicesThNum) (hle : slicesThNum ≤ futures) (hfutures : futures ≤ n + 1)
    (h : enough slicesThNum n = true) : futures = n + 1 := by
  rw [enough, decide_eq_true_iff, uint32] at h
  omega

theorem int16_int16_add_one (k : ℕ) : int16 (int16 k + 1) = int16 ((k + 1 : ℕ) : ℤ) := by
  unfold int16
  omega

/-- Finishing another task does not change what has been collected. -/
theorem update_returned {tasks : ℕ → Option TaskEnd} {task other : ℕ} {result : TaskEnd}
    (hrunning : tasks task = none) (hother : tasks other = some .returned) :
    Function.update tasks task (some result) other = some .returned := by
  have hne : other ≠ task := by
    rintro rfl
    rw [hrunning] at hother
    cases hother
  rw [Function.update_of_ne hne, hother]

theorem Ordered.step {n increments : ℕ} {s s' : EndState} {a : EndAction}
    (hs : Ordered n s increments) (h : endStep n s a = some s') :
    ∃ increments', Ordered n s' increments' := by
  obtain ⟨hth, hfutures, haccepted, hle, hnum⟩ := hs
  cases a with
  | enqueue =>
      obtain ⟨⟨hlistening, hlt⟩, heq⟩ := Option.ite_none_right_eq_some.mp h
      cases heq
      rw [hlistening] at hfutures haccepted
      exact ⟨increments, hth, hfutures, by simpa [Acceptor.unpushed] using haccepted, hlt, hnum⟩
  | push =>
      obtain ⟨henqueued, heq⟩ := Option.ite_none_right_eq_some.mp h
      cases heq
      rw [henqueued] at hfutures haccepted
      exact ⟨increments, hth, by simpa [Acceptor.uncounted] using hfutures,
        by simpa [Acceptor.unpushed] using haccepted, hle, hnum⟩
  | count =>
      obtain ⟨hpushed, heq⟩ := Option.ite_none_right_eq_some.mp h
      cases heq
      rw [hpushed] at hfutures haccepted
      refine ⟨increments + 1, ?_, hfutures, haccepted, hle, hnum⟩
      show int16 (s.slicesThNum + 1) = int16 ((increments + 1 : ℕ) : ℤ)
      rw [hth, int16_int16_add_one]
  | notify =>
      obtain ⟨hcounted, heq⟩ := Option.ite_none_right_eq_some.mp h
      cases heq
      rw [hcounted] at hfutures haccepted
      exact ⟨increments, hth, hfutures, haccepted, hle, hnum⟩
  | storeSlicesNum =>
      obtain ⟨-, heq⟩ := Option.ite_none_right_eq_some.mp h
      cases heq
      exact ⟨increments, hth, hfutures, haccepted, hle, Or.inr rfl⟩
  | finish task result =>
      obtain ⟨-, heq⟩ := Option.ite_none_right_eq_some.mp h
      cases heq
      exact ⟨increments, hth, hfutures, haccepted, hle, hnum⟩
  | supervise action =>
      obtain ⟨phase, -, rfl⟩ := Option.map_eq_some_iff.mp h
      exact ⟨increments, hth, hfutures, haccepted, hle, hnum⟩

/-- A comparison that holds was one with zero, or every task is in the vector. -/
theorem justified_compare {n increments slicesNum : ℕ} {s : EndState} {slicesThNum : ℤ}
    (hn : n ≤ 65535) (hordered : Ordered n s increments)
    (hnum : slicesNum = 0 ∨ slicesNum = n)
    (hloaded : s.futures = n + 1 ∨ 0 ≤ slicesThNum ∧ slicesThNum ≤ s.futures) :
    Justified n { s with phase := Phase.compare slicesThNum slicesNum } := by
  rw [Phase.compare]
  split
  · intro hstored
    obtain rfl : slicesNum = n := hnum.resolve_left hstored
    rcases hloaded with hall | ⟨hnonneg, hle⟩
    · exact hall
    · exact eq_of_enough hn hnonneg hle hordered.futures_le ‹_›
  · trivial

/-- The supervisor's own steps. -/
theorem Justified.superviseStep {n increments : ℕ} (hn : n ≤ 65535) {s : EndState} {phase : Phase}
    {a : SuperviseAction} (hordered : Ordered n s increments) (hs : Justified n s)
    (hright : ¬ Misleads n s (.supervise a)) (h : superviseStep s a = some phase) :
    Justified n { s with phase := phase } := by
  have hle := hordered.futures_le
  -- a counter that is loaded has not wrapped, unless all tasks are there
  have hloaded : a = .loadThNum →
      s.futures = n + 1 ∨ 0 ≤ s.slicesThNum ∧ s.slicesThNum ≤ s.futures := by
    rintro rfl
    by_cases hall : s.futures = n + 1
    · exact Or.inl hall
    · refine Or.inr ⟨?_, hordered.slicesThNum_le⟩
      by_contra hnegative
      exact hright ⟨by omega, Or.inr ⟨rfl, by omega⟩⟩
  cases superviseNext_of_step h with
  | loadThNum _ => exact hloaded rfl
  | loadNum _ => exact hordered.slicesNum_eq
  | compareThNum hphase =>
      rw [Justified, hphase] at hs
      exact justified_compare hn hordered hs (hloaded rfl)
  | compareNum hphase =>
      rw [Justified, hphase] at hs
      exact justified_compare hn hordered hordered.slicesNum_eq hs
  | @pass slicesNum hphase hstored =>
      rw [Justified, hphase] at hs
      show s.futures = n + 1
      by_contra hmissing
      -- the number has been stored since the comparison
      have hzero : slicesNum = 0 := by
        by_contra hother
        exact hmissing (hs hother)
      refine hright ⟨by omega, Or.inl ⟨rfl, ?_⟩⟩
      rw [EndState.torn, hphase, hzero]
      exact decide_eq_true hstored.symm
  | connect hphase =>
      rw [Justified, hphase] at hs
      exact hs
  | collect hphase =>
      rw [Justified, hphase] at hs
      exact ⟨hs, hs, fun task htask => absurd htask (Nat.not_lt_zero task)⟩
  | get hphase _ hresult =>
      rw [Justified, hphase] at hs
      refine ⟨hs.1, hs.2.1, fun task htask => ?_⟩
      rcases Nat.lt_succ_iff_lt_or_eq.mp htask with hbefore | rfl
      · exact hs.2.2 task hbefore
      · exact hresult
  | write hphase =>
      rw [Justified, hphase] at hs
      refine ⟨hs.1, fun task htask => hs.2.2 task ?_⟩
      rw [hs.2.1]
      exact htask
  | fail _ _ | block _ | wake _ | refused _ | rethrow _ _ _ => trivial

/-- What the other threads do leaves the supervisor's findings true. -/
theorem Justified.step {n increments : ℕ} (hn : n ≤ 65535) {s s' : EndState} {a : EndAction}
    (hordered : Ordered n s increments) (hs : Justified n s) (hright : ¬ Misleads n s a)
    (h : endStep n s a = some s') : Justified n s' := by
  cases a with
  | enqueue =>
      obtain ⟨-, heq⟩ := Option.ite_none_right_eq_some.mp h
      cases heq
      exact hs
  | push =>
      obtain ⟨henqueued, heq⟩ := Option.ite_none_right_eq_some.mp h
      cases heq
      -- a released supervisor excludes a connection that is still to be pushed
      have hless : s.futures < n + 1 := by
        have haccepted := hordered.accepted_eq
        have haccepted_le := hordered.accepted_le
        rw [henqueued] at haccepted
        change s.accepted = s.futures + 1 at haccepted
        omega
      unfold Justified at hs ⊢
      cases hphase : s.phase with
      | thLoaded slicesThNum =>
          rw [hphase] at hs
          dsimp only at hs ⊢
          omega
      | numLoaded slicesNum => rwa [hphase] at hs
      | compared slicesNum =>
          rw [hphase] at hs
          exact fun hstored => absurd (hs hstored) (Nat.ne_of_lt hless)
      | _ => rw [hphase] at hs; first | trivial | omega
  | count =>
      obtain ⟨-, heq⟩ := Option.ite_none_right_eq_some.mp h
      cases heq
      exact hs
  | notify =>
      obtain ⟨-, heq⟩ := Option.ite_none_right_eq_some.mp h
      cases heq
      by_cases hasleep : s.phase = .asleep
      · rw [if_pos hasleep]
        trivial
      · rw [if_neg hasleep]
        exact hs
  | storeSlicesNum =>
      obtain ⟨-, heq⟩ := Option.ite_none_right_eq_some.mp h
      cases heq
      exact hs
  | finish task result =>
      obtain ⟨⟨-, hrunning⟩, heq⟩ := Option.ite_none_right_eq_some.mp h
      cases heq
      unfold Justified at hs ⊢
      cases hphase : s.phase with
      | collecting next last =>
          rw [hphase] at hs
          exact ⟨hs.1, hs.2.1, fun other hother => update_returned hrunning (hs.2.2 other hother)⟩
      | reported =>
          rw [hphase] at hs
          exact ⟨hs.1, fun other hother => update_returned hrunning (hs.2 other hother)⟩
      | _ => rwa [hphase] at hs
  | supervise action =>
      obtain ⟨phase, hphase, rfl⟩ := Option.map_eq_some_iff.mp h
      exact hs.superviseStep hn hordered hright hphase

theorem ordered_of_reachable {n : ℕ} {s : EndState} (h : (endSystem n).Reachable s) :
    ∃ increments, Ordered n s increments := by
  refine h.invariant (I := fun s => ∃ increments, Ordered n s increments) ?_ ?_
  · exact ⟨0, rfl, rfl, rfl, Nat.zero_le _, Or.inl rfl⟩
  · rintro s a s' ⟨increments, hordered⟩ hstep
    exact hordered.step hstep

/-! ## Runs without a misled test -/

/-- Up to 32767 slices only a second load of `slices_num_` misleads. -/
theorem misleads_iff {n : ℕ} (hn : n ≤ 32767) {s : EndState} (h : (endSystem n).Reachable s)
    (a : EndAction) : Misleads n s a ↔
      s.futures < n + 1 ∧ a = .supervise .loadNum ∧ s.torn = true := by
  obtain ⟨increments, hordered⟩ := ordered_of_reachable h
  constructor
  · rintro ⟨hless, htorn | ⟨-, hnegative⟩⟩
    · exact ⟨hless, htorn⟩
    · exact absurd hnegative (Int.not_lt.mpr (hordered.slicesThNum_nonneg hn hless))
  · rintro ⟨hless, htorn⟩
    exact ⟨hless, Or.inl htorn⟩

theorem justified_of_reachable {n : ℕ} (hn : n ≤ 65535) {s : EndState}
    (h : (endSystem n).ReachableVia (fun s a => ¬ Misleads n s a) s) : Justified n s := by
  induction h with
  | init => trivial
  | step hprev hright hstep ih =>
      obtain ⟨increments, hordered⟩ := ordered_of_reachable (hprev.imp fun _ _ _ => trivial)
      exact ih.step hn hordered hright hstep

/-- When no test is misled, a written marker is right. -/
theorem allReturned_of_reported {n : ℕ} (hn : n ≤ 65535) {s : EndState}
    (h : (endSystem n).ReachableVia (fun s a => ¬ Misleads n s a) s)
    (hreported : s.phase = .reported) : AllReturned n s := by
  have hjustified := justified_of_reachable hn h
  obtain ⟨increments, hordered⟩ := ordered_of_reachable (h.imp fun _ _ _ => trivial)
  rw [Justified, hreported] at hjustified
  have haccepted := hordered.accepted_eq
  have hle := hordered.accepted_le
  exact ⟨by omega, hjustified.1, hjustified.2⟩

end SliceTransfer.Supervisor
