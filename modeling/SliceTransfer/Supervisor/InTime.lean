import SliceTransfer.Supervisor.EndMarker
import SliceTransfer.Lib.Progress
import SliceTransfer.Lib.Slots

/-!
# The marker is written in the end

`EndMarker.lean` says when a written marker is right.  Here it is shown that it is written
at all: in the runs in which no task throws and `connect` succeeds (`Smooth`), everything
comes to an end with all tasks returned, and then the supervisor has written the marker or
it sleeps beside a condition that holds (`marker_endsIn`).

The second end has two causes.  The store of the header notifies nobody, and the accept
loop notifies without the mutex, so that its notification is lost on a supervisor that has
already found the condition false.  Both are avoided when the last connection is notified
behind the store and while no test holds a value that is out of date (`InTime`).  `Vigilant`
is the invariant for this: once the accept loop is done, the supervisor does not sleep, and
a test that is under way has loaded what the variables hold (`UpToDate`).
-/

namespace SliceTransfer.Supervisor

open TransitionSystem

/-! ## Runs that go well -/

/-- No task throws, and `connect` succeeds. -/
def Smooth : EndAction → Prop
  | .finish _ .threw => False
  | .supervise (.connect false) => False
  | _ => True

instance : DecidablePred Smooth
  | .finish _ .threw => isFalse id
  | .finish _ .returned => isTrue trivial
  | .supervise (.connect false) => isFalse id
  | .supervise (.connect true) => isTrue trivial
  | .supervise .loadThNum | .supervise .loadNum | .supervise .block | .supervise .wake
  | .supervise .collect | .supervise .get | .supervise .write => isTrue trivial
  | .enqueue | .push | .count | .notify | .storeSlicesNum => isTrue trivial

/-- A test is to be made, under way, or has failed. -/
def Phase.inTest : Phase → Bool
  | .testing | .thLoaded _ | .numLoaded _ | .compared _ | .blocking => true
  | _ => false

/-- The values a test has loaded are those the variables hold. -/
def UpToDate (s : EndState) : Prop :=
  match s.phase with
  | .thLoaded slicesThNum => slicesThNum = s.slicesThNum
  | .numLoaded slicesNum => slicesNum = s.slicesNum
  | .blocking => False
  | _ => True

instance (s : EndState) : Decidable (UpToDate s) := by
  unfold UpToDate
  split <;> infer_instance

/-- The last connection is notified behind the store of `slices_num_`, and not while a test
is under way that has seen older values. -/
def InTime (n : ℕ) (s : EndState) (a : EndAction) : Prop :=
  a = .notify → s.accepted = n + 1 → s.slicesNum ≠ 0 ∧ UpToDate s

instance (n : ℕ) (s : EndState) (a : EndAction) : Decidable (InTime n s a) :=
  inferInstanceAs (Decidable (_ → _ → _))

/-- The supervisor may wake up without reason, and while the condition is false it goes to
sleep again; everything else is done once. -/
def markerProductive (s : EndState) : EndAction → Bool
  | .supervise .wake => false
  | .supervise .loadThNum | .supervise .loadNum | .supervise .block =>
      waitCondition s.slicesThNum s.slicesNum
  | _ => true

/-- Behind the marker the supervisor does nothing. -/
theorem reported_of_endStep {n : ℕ} {s s' : EndState} {a : EndAction}
    (h : endStep n s a = some s') (hreported : s.phase = .reported) : s'.phase = .reported := by
  cases a with
  | supervise action =>
      obtain ⟨phase, hphase, rfl⟩ := Option.map_eq_some_iff.mp h
      cases superviseNext_of_step hphase with
      | loadThNum hother | loadNum hother | compareThNum hother | compareNum hother
      | pass hother _ | fail hother _ | block hother | wake hother | connect hother
      | refused hother | collect hother | get hother _ _ | rethrow hother _ _ | write hother =>
          exact absurd (hreported.symm.trans hother) Phase.noConfusion
  | notify =>
      obtain ⟨-, heq⟩ := Option.ite_none_right_eq_some.mp h
      cases heq
      exact (if_neg fun hasleep => Phase.noConfusion (hreported.symm.trans hasleep)).trans hreported
  | enqueue | push | count | storeSlicesNum | finish _ _ =>
      obtain ⟨-, heq⟩ := Option.ite_none_right_eq_some.mp h
      cases heq
      exact hreported

section Runs

variable {n increments : ℕ} {s s' : EndState}

/-! ## The condition -/

theorem waitCondition_iff_enough (slicesThNum : ℤ) (slicesNum : ℕ) :
    waitCondition slicesThNum slicesNum = true ↔
      enough slicesThNum slicesNum = true ∧ slicesNum ≠ 0 := by
  rw [waitCondition, enough, Bool.and_eq_true, decide_eq_true_iff (p := slicesNum ≠ 0)]

/-- The condition of the wait: the header is stored, and all connections are counted. -/
theorem Ordered.waitCondition_iff (hordered : Ordered n s increments) (hn : 1 ≤ n)
    (hlt : n < 32767) : waitCondition s.slicesThNum s.slicesNum = true ↔
      s.slicesNum = n ∧ increments = n + 1 := by
  have hnum := hordered.slicesNum_eq
  have hfutures := hordered.futures_eq
  have hle := hordered.futures_le
  rw [waitCondition_eq_true_iff (by omega), hordered.slicesThNum_eq, int16_of_lt (by omega),
    uint32_natCast (by omega)]
  omega

/-- Where the counter is still to be increased the condition is false. -/
theorem Ordered.waitCondition_of_pushed (hordered : Ordered n s increments) (hn : 1 ≤ n)
    (hlt : n < 32767) (hpushed : s.acceptor = .pushed) :
    waitCondition s.slicesThNum s.slicesNum = false := by
  rw [Bool.eq_false_iff, ne_eq, hordered.waitCondition_iff hn hlt]
  rintro ⟨-, hall⟩
  have hfutures := hordered.futures_eq
  have hle := hordered.futures_le
  rw [hpushed] at hfutures
  change s.futures = increments + 1 at hfutures
  omega

/-! ## The measure -/

/-- The statements the accept loop has left for the connection at hand. -/
def Acceptor.left : Acceptor → ℕ
  | .enqueued => 3
  | .pushed => 2
  | .counted => 1
  | .listening => 0

/-- The steps up to the end of the wait.  When the condition holds, a test with old values
still fails, and the next one passes. -/
def waitLeft (s : EndState) : ℕ :=
  if waitCondition s.slicesThNum s.slicesNum then
    match s.phase with
    | .thLoaded slicesThNum => if enough slicesThNum s.slicesNum then 2 else 5
    | .numLoaded slicesNum => if enough s.slicesThNum slicesNum then 2 else 5
    | .compared _ => 1
    | .blocking => 4
    | _ => 3
  else 5

/-- The steps the supervisor has left at most. -/
def supervisorLeft (n : ℕ) (s : EndState) : ℕ :=
  match s.phase with
  | .passed => n + 4
  | .connected => n + 3
  | .collecting next last => last - next + 1
  | .reported | .stopped => 0
  | _ => n + 4 + waitLeft s

def markerMeasure (n : ℕ) (s : EndState) : ℕ :=
  4 * (n + 1 - s.accepted) + s.acceptor.left + (if s.slicesNum = 0 then 1 else 0) +
    slotCount (fun result => result = none) s.tasks (n + 1) + supervisorLeft n s

theorem waitLeft_le (s : EndState) : waitLeft s ≤ 5 := by
  unfold waitLeft
  split
  · split
    · split <;> omega
    · split <;> omega
    · omega
    · omega
    · omega
  · exact le_refl 5

/-- What makes the condition true does not take the supervisor back. -/
theorem supervisorLeft_le_of_false (hphase : s'.phase = s.phase)
    (hfalse : waitCondition s.slicesThNum s.slicesNum = false) :
    supervisorLeft n s' ≤ supervisorLeft n s := by
  have hmost : waitLeft s = 5 := by
    rw [waitLeft, hfalse]
    rfl
  have hle := waitLeft_le s'
  unfold supervisorLeft
  rw [hphase]
  split <;> omega

/-- A notification that wakes the supervisor sets it to its next test. -/
theorem supervisorLeft_notify (s : EndState) :
    supervisorLeft n { s with
      acceptor := .listening
      phase := if s.phase = .asleep then .testing else s.phase } = supervisorLeft n s := by
  by_cases hasleep : s.phase = .asleep
  · simp only [supervisorLeft, waitLeft, hasleep, if_true]
  · simp only [if_neg hasleep]
    rfl

/-- Up to the end of the wait. -/
theorem supervisorLeft_le (s : EndState) (hbefore : ∀ next last, s.phase ≠ .collecting next last) :
    supervisorLeft n s ≤ n + 9 := by
  have hle := waitLeft_le s
  unfold supervisorLeft
  split
  · omega
  · omega
  · exact absurd ‹_› (hbefore _ _)
  · omega
  · omega
  · omega

/-- **A step of the test**, which counts only when the condition holds. -/
theorem supervisorLeft_test {a : SuperviseAction} {phase : Phase}
    (ha : a = .loadThNum ∨ a = .loadNum ∨ a = .block) (hnext : SuperviseNext s a phase) :
    supervisorLeft n { s with phase := phase } +
      (waitCondition s.slicesThNum s.slicesNum).toNat ≤ supervisorLeft n s := by
  have hwaiting : supervisorLeft n s = n + 4 + waitLeft s := by
    unfold supervisorLeft
    cases hnext with
    | loadThNum h | loadNum h | compareThNum h | compareNum h | pass h _ | fail h _ | block h =>
        rw [h]
    | wake _ | connect _ | refused _ | collect _ | get _ _ _ | rethrow _ _ _ | write _ =>
        simp at ha
  rw [hwaiting]
  cases hcondition : waitCondition s.slicesThNum s.slicesNum with
  | false =>
      have hmost : waitLeft s = 5 := by
        rw [waitLeft, hcondition]
        rfl
      rw [hmost]
      refine supervisorLeft_le _ fun next last hcollecting => ?_
      -- the test gets no further than the end of the wait
      cases hnext with
      | compareThNum _ | compareNum _ =>
          rcases Phase.compare_cases _ _ with ⟨heq, -⟩ | ⟨heq, -⟩
          · cases heq.symm.trans hcollecting
          · cases heq.symm.trans hcollecting
      | loadThNum _ | loadNum _ | pass _ _ | fail _ _ | block _ => cases hcollecting
      | wake _ | connect _ | refused _ | collect _ | get _ _ _ | rethrow _ _ _ | write _ =>
          simp at ha
  | true =>
      obtain ⟨henough, hstored⟩ := (waitCondition_iff_enough _ _).mp hcondition
      cases hnext with
      | loadThNum h | loadNum h | block h =>
          simp [supervisorLeft, waitLeft, hcondition, henough, h]
      | @compareThNum slicesNum h =>
          rcases Phase.compare_cases s.slicesThNum slicesNum with ⟨heq, hholds⟩ | ⟨heq, hholds⟩
          · simp [supervisorLeft, waitLeft, hcondition, h, heq, hholds]
          · simp [supervisorLeft, waitLeft, hcondition, h, heq, hholds]
      | @compareNum slicesThNum h =>
          rcases Phase.compare_cases slicesThNum s.slicesNum with ⟨heq, hholds⟩ | ⟨heq, hholds⟩
          · simp [supervisorLeft, waitLeft, hcondition, h, heq, hholds]
          · simp [supervisorLeft, waitLeft, hcondition, h, heq, hholds]
      | pass h _ => simp [supervisorLeft, waitLeft, hcondition, h]
      | fail h hzero => exact absurd hzero hstored
      | wake _ | connect _ | refused _ | collect _ | get _ _ _ | rethrow _ _ _ | write _ =>
          simp at ha

/-- **The supervisor's own steps.** -/
theorem supervisorLeft_superviseStep {a : SuperviseAction} {phase : Phase}
    (hfutures : s.futures ≤ n + 1) (hstep : superviseStep s a = some phase) :
    supervisorLeft n { s with phase := phase } + (markerProductive s (.supervise a)).toNat ≤
      supervisorLeft n s := by
  have hnext := superviseNext_of_step hstep
  cases a with
  | loadThNum => exact supervisorLeft_test (Or.inl rfl) hnext
  | loadNum => exact supervisorLeft_test (Or.inr (Or.inl rfl)) hnext
  | block => exact supervisorLeft_test (Or.inr (Or.inr rfl)) hnext
  | wake =>
      cases hnext with
      | wake hasleep =>
          simp only [supervisorLeft, waitLeft, hasleep, markerProductive]
          exact le_refl _
  | connect success =>
      cases hnext with
      | connect hpassed =>
          simp only [supervisorLeft, hpassed]
          exact le_refl _
      | refused hpassed =>
          simp only [supervisorLeft, hpassed]
          exact Nat.le_add_left 1 _
  | collect =>
      cases hnext with
      | collect hconnected =>
          simp only [supervisorLeft, hconnected, markerProductive, Bool.toNat_true]
          omega
  | get =>
      cases hnext with
      | get hcollecting hlt _ =>
          simp only [supervisorLeft, hcollecting, markerProductive, Bool.toNat_true]
          omega
      | rethrow hcollecting _ _ =>
          simp only [supervisorLeft, hcollecting]
          exact Nat.le_add_left 1 _
  | write =>
      cases hnext with
      | write hcollecting =>
          simp only [supervisorLeft, hcollecting]
          exact Nat.le_add_left 1 _

/-- **Every productive step lowers the measure.** -/
theorem measured_endSystem (hn : 1 ≤ n) (hlt : n < 32767) :
    (endSystem n).Measured markerProductive (markerMeasure n) := by
  intro s a s' hs hstep
  obtain ⟨increments, hordered⟩ := ordered_of_reachable hs
  have hle := hordered.accepted_le
  unfold markerMeasure
  cases a with
  | enqueue =>
      obtain ⟨⟨hlistening, hmore⟩, heq⟩ := Option.ite_none_right_eq_some.mp hstep
      cases heq
      simp only [hlistening, markerProductive, Acceptor.left, Bool.toNat_true]
      show _ + supervisorLeft n s + 1 ≤ _ + supervisorLeft n s
      omega
  | push =>
      obtain ⟨henqueued, heq⟩ := Option.ite_none_right_eq_some.mp hstep
      cases heq
      simp only [henqueued, markerProductive, Acceptor.left, Bool.toNat_true]
      show _ + supervisorLeft n s + 1 ≤ _ + supervisorLeft n s
      omega
  | count =>
      obtain ⟨hpushed, heq⟩ := Option.ite_none_right_eq_some.mp hstep
      cases heq
      have hleft : supervisorLeft n { s with
          slicesThNum := int16 (s.slicesThNum + 1), acceptor := .counted } ≤
            supervisorLeft n s :=
        supervisorLeft_le_of_false rfl (hordered.waitCondition_of_pushed hn hlt hpushed)
      simp only [hpushed, markerProductive, Acceptor.left, Bool.toNat_true]
      omega
  | notify =>
      obtain ⟨hcounted, heq⟩ := Option.ite_none_right_eq_some.mp hstep
      cases heq
      rw [supervisorLeft_notify]
      simp only [hcounted, markerProductive, Acceptor.left, Bool.toNat_true]
      omega
  | storeSlicesNum =>
      obtain ⟨⟨-, hzero⟩, heq⟩ := Option.ite_none_right_eq_some.mp hstep
      cases heq
      have hleft : supervisorLeft n { s with slicesNum := n } ≤ supervisorLeft n s := by
        refine supervisorLeft_le_of_false rfl (Bool.eq_false_iff.mpr fun hcondition => ?_)
        exact ((waitCondition_iff_enough _ _).mp hcondition).2 hzero
      simp only [hzero, markerProductive, Bool.toNat_true, if_true, if_neg (by omega : n ≠ 0)]
      omega
  | finish task result =>
      obtain ⟨⟨htask, hrunning⟩, heq⟩ := Option.ite_none_right_eq_some.mp hstep
      cases heq
      have hless : slotCount (fun result => result = none)
          (Function.update s.tasks task (some result)) (n + 1) + 1 = _ :=
        slotCount_update_sub (by omega) hrunning (Option.some_ne_none _)
      simp only [markerProductive, Bool.toNat_true]
      show _ + supervisorLeft n s + 1 ≤ _ + supervisorLeft n s
      omega
  | supervise action =>
      obtain ⟨phase, hphase, rfl⟩ := Option.map_eq_some_iff.mp hstep
      have hless := supervisorLeft_superviseStep hordered.futures_le hphase
      dsimp only
      omega

/-! ## Invariants -/

/-- What smooth runs keep: no task threw, and the supervisor has not been stopped. -/
structure Smoothly (s : EndState) : Prop where
  returned : ∀ task result, s.tasks task = some result → result = .returned
  going : s.phase ≠ .stopped
  inside : ∀ next last, s.phase = .collecting next last → next ≤ last ∧ last ≤ s.futures

theorem Smoothly.step {a : EndAction} (hs : Smoothly s) (hsmooth : Smooth a)
    (hstep : endStep n s a = some s') : Smoothly s' := by
  obtain ⟨hreturned, hgoing, hinside⟩ := hs
  cases a with
  | enqueue =>
      obtain ⟨-, heq⟩ := Option.ite_none_right_eq_some.mp hstep
      cases heq
      exact ⟨hreturned, hgoing, hinside⟩
  | push =>
      obtain ⟨-, heq⟩ := Option.ite_none_right_eq_some.mp hstep
      cases heq
      exact ⟨hreturned, hgoing, fun next last hphase =>
        ⟨(hinside next last hphase).1, (hinside next last hphase).2.trans (Nat.le_succ _)⟩⟩
  | count =>
      obtain ⟨-, heq⟩ := Option.ite_none_right_eq_some.mp hstep
      cases heq
      exact ⟨hreturned, hgoing, hinside⟩
  | notify =>
      obtain ⟨-, heq⟩ := Option.ite_none_right_eq_some.mp hstep
      cases heq
      by_cases hasleep : s.phase = .asleep
      · refine ⟨hreturned, ?_, fun next last hphase => ?_⟩
        · simp only [if_pos hasleep]
          exact Phase.noConfusion
        · simp only [if_pos hasleep] at hphase
          cases hphase
      · refine ⟨hreturned, ?_, fun next last hphase => hinside next last ?_⟩
        · simpa only [if_neg hasleep] using hgoing
        · simpa only [if_neg hasleep] using hphase
  | storeSlicesNum =>
      obtain ⟨-, heq⟩ := Option.ite_none_right_eq_some.mp hstep
      cases heq
      exact ⟨hreturned, hgoing, hinside⟩
  | finish task result =>
      obtain ⟨-, heq⟩ := Option.ite_none_right_eq_some.mp hstep
      cases heq
      refine ⟨fun other value hvalue => ?_, hgoing, hinside⟩
      dsimp only at hvalue
      by_cases hsame : other = task
      · rw [hsame, Function.update_self, Option.some_inj] at hvalue
        cases result with
        | returned => exact hvalue.symm
        | threw => exact hsmooth.elim
      · rw [Function.update_of_ne hsame] at hvalue
        exact hreturned other value hvalue
  | supervise action =>
      obtain ⟨phase, hphase, rfl⟩ := Option.map_eq_some_iff.mp hstep
      suffices hnext : phase ≠ .stopped ∧ ∀ next last, phase = .collecting next last →
          next ≤ last ∧ last ≤ s.futures from ⟨hreturned, hnext.1, hnext.2⟩
      cases superviseNext_of_step hphase with
      | refused _ => exact hsmooth.elim
      | rethrow _ _ hresult => cases hreturned _ _ hresult
      | collect _ =>
          refine ⟨Phase.noConfusion, fun next last hthis => ?_⟩
          cases hthis
          exact ⟨Nat.zero_le _, le_refl _⟩
      | get hcollecting hlt _ =>
          refine ⟨Phase.noConfusion, fun next last hthis => ?_⟩
          cases hthis
          exact ⟨hlt, (hinside _ _ hcollecting).2⟩
      | compareThNum _ | compareNum _ =>
          rcases Phase.compare_cases _ _ with ⟨heq, -⟩ | ⟨heq, -⟩
          · rw [heq]
            exact ⟨Phase.noConfusion, fun _ _ hthis => by cases hthis⟩
          · rw [heq]
            exact ⟨Phase.noConfusion, fun _ _ hthis => by cases hthis⟩
      | loadThNum _ | loadNum _ | pass _ _ | fail _ _ | block _ | wake _ | connect _ | write _ =>
          exact ⟨Phase.noConfusion, fun _ _ hthis => by cases hthis⟩

/-- Once the accept loop is done, the header is stored, and the supervisor neither sleeps nor
is it on its way there. -/
def Vigilant (n : ℕ) (s : EndState) : Prop :=
  s.acceptor = .listening → s.accepted = n + 1 →
    s.slicesNum ≠ 0 ∧ s.phase ≠ .asleep ∧ UpToDate s

/-- A test with current values passes when the condition holds. -/
theorem vigilant_compare {slicesThNum : ℤ} {slicesNum : ℕ}
    (henough : enough slicesThNum slicesNum = true) :
    Phase.compare slicesThNum slicesNum ≠ .asleep ∧
      UpToDate { s with phase := Phase.compare slicesThNum slicesNum } := by
  rw [Phase.compare, if_pos henough]
  exact ⟨Phase.noConfusion, trivial⟩

/-- The supervisor's own steps, when all is there. -/
theorem vigilant_superviseStep {a : SuperviseAction} {phase : Phase}
    (hcondition : waitCondition s.slicesThNum s.slicesNum = true) (hawake : s.phase ≠ .asleep)
    (hcurrent : UpToDate s) (hstep : superviseStep s a = some phase) :
    phase ≠ .asleep ∧ UpToDate { s with phase := phase } := by
  obtain ⟨henough, hstored⟩ := (waitCondition_iff_enough _ _).mp hcondition
  unfold UpToDate at hcurrent
  cases superviseNext_of_step hstep with
  | loadThNum _ => exact ⟨Phase.noConfusion, rfl⟩
  | loadNum _ => exact ⟨Phase.noConfusion, rfl⟩
  | compareThNum hloaded =>
      rw [hloaded] at hcurrent
      exact vigilant_compare (hcurrent ▸ henough)
  | compareNum hloaded =>
      rw [hloaded] at hcurrent
      exact vigilant_compare (hcurrent ▸ henough)
  | fail _ hzero => exact absurd hzero hstored
  | block hblocking =>
      rw [hblocking] at hcurrent
      exact hcurrent.elim
  | wake hasleep => exact absurd hasleep hawake
  | pass _ _ | connect _ | refused _ | collect _ | get _ _ _ | rethrow _ _ _ | write _ =>
      exact ⟨Phase.noConfusion, trivial⟩

theorem Vigilant.step {a : EndAction} (hs : Vigilant n s) (hn : 1 ≤ n) (hlt : n < 32767)
    (hordered : Ordered n s increments) (hintime : InTime n s a)
    (hstep : endStep n s a = some s') : Vigilant n s' := by
  cases a with
  | enqueue =>
      obtain ⟨-, heq⟩ := Option.ite_none_right_eq_some.mp hstep
      cases heq
      exact fun hcontra => by cases hcontra
  | push =>
      obtain ⟨-, heq⟩ := Option.ite_none_right_eq_some.mp hstep
      cases heq
      exact fun hcontra => by cases hcontra
  | count =>
      obtain ⟨-, heq⟩ := Option.ite_none_right_eq_some.mp hstep
      cases heq
      exact fun hcontra => by cases hcontra
  | notify =>
      obtain ⟨-, heq⟩ := Option.ite_none_right_eq_some.mp hstep
      cases heq
      intro _ hall
      obtain ⟨hstored, hcurrent⟩ := hintime rfl hall
      by_cases hasleep : s.phase = .asleep
      · simp only [if_pos hasleep]
        exact ⟨hstored, Phase.noConfusion, trivial⟩
      · simp only [if_neg hasleep]
        exact ⟨hstored, hasleep, hcurrent⟩
  | storeSlicesNum =>
      obtain ⟨⟨-, hzero⟩, heq⟩ := Option.ite_none_right_eq_some.mp hstep
      cases heq
      exact fun hlistening hall => absurd hzero (hs hlistening hall).1
  | finish task result =>
      obtain ⟨-, heq⟩ := Option.ite_none_right_eq_some.mp hstep
      cases heq
      exact hs
  | supervise action =>
      obtain ⟨phase, hphase, rfl⟩ := Option.map_eq_some_iff.mp hstep
      intro hlistening hall
      obtain ⟨hstored, hawake, hcurrent⟩ := hs hlistening hall
      have hcondition : waitCondition s.slicesThNum s.slicesNum = true := by
        have hfutures := hordered.futures_eq
        have haccepted := hordered.accepted_eq
        rw [show s.acceptor = .listening from hlistening] at hfutures haccepted
        change s.futures = increments + 0 at hfutures
        change s.accepted = s.futures + 0 at haccepted
        change s.accepted = n + 1 at hall
        rw [hordered.waitCondition_iff hn hlt]
        exact ⟨hordered.slicesNum_eq.resolve_left hstored, by omega⟩
      exact ⟨hstored, vigilant_superviseStep hcondition hawake hcurrent hphase⟩

/-! ## Where a run comes to its end -/

/-- Nothing is left to do. -/
def Quiet (n : ℕ) (s : EndState) : Prop :=
  ∀ a, Smooth a → InTime n s a → markerProductive s a = true → endStep n s a = none

/-- The supervisor has no step left that counts. -/
theorem Quiet.superviseStep_eq_none (h : Quiet n s) {a : SuperviseAction}
    (hsmooth : Smooth (.supervise a)) (hproductive : markerProductive s (.supervise a) = true) :
    superviseStep s a = none :=
  Option.map_eq_none_iff.mp
    (h (.supervise a) hsmooth (fun heq => by cases heq) hproductive)

/-- When the condition holds no test is under way. -/
theorem Quiet.inTest_eq_false (h : Quiet n s)
    (hcondition : waitCondition s.slicesThNum s.slicesNum = true) : s.phase.inTest = false := by
  cases hphase : s.phase with
  | testing =>
      have hnone := h.superviseStep_eq_none (a := .loadThNum) trivial hcondition
      simp only [superviseStep, hphase] at hnone
      cases hnone
  | thLoaded slicesThNum =>
      have hnone := h.superviseStep_eq_none (a := .loadNum) trivial hcondition
      simp only [superviseStep, hphase] at hnone
      cases hnone
  | numLoaded slicesNum =>
      have hnone := h.superviseStep_eq_none (a := .loadThNum) trivial hcondition
      simp only [superviseStep, hphase] at hnone
      cases hnone
  | compared slicesNum =>
      have hnone := h.superviseStep_eq_none (a := .loadNum) trivial hcondition
      simp only [superviseStep, hphase] at hnone
      cases hnone
  | blocking =>
      have hnone := h.superviseStep_eq_none (a := .block) trivial hcondition
      rw [superviseStep, if_pos hphase] at hnone
      cases hnone
  | _ => rfl

theorem Quiet.upToDate (h : Quiet n s)
    (hcondition : waitCondition s.slicesThNum s.slicesNum = true) : UpToDate s := by
  have hbehind := h.inTest_eq_false hcondition
  unfold UpToDate
  cases hphase : s.phase with
  | thLoaded _ | numLoaded _ | blocking =>
      rw [hphase] at hbehind
      cases hbehind
  | _ => trivial

/-- The accept loop waits for a connection, and none is missing. -/
theorem Quiet.accepted (h : Quiet n s) (hn : 1 ≤ n) (hlt : n < 32767)
    (hordered : Ordered n s increments) :
    s.acceptor = .listening ∧ s.accepted = n + 1 ∧ s.slicesNum = n ∧ increments = n + 1 := by
  have hfutures := hordered.futures_eq
  have haccepted := hordered.accepted_eq
  have hle := hordered.accepted_le
  have htimely : ∀ {a}, a ≠ .notify → InTime n s a := fun hne heq => absurd heq hne
  have hstored : 1 ≤ s.accepted → s.slicesNum = n := by
    intro hsome
    refine hordered.slicesNum_eq.resolve_left fun hzero => ?_
    have hnone := h .storeSlicesNum trivial (htimely EndAction.noConfusion) rfl
    rw [endStep, if_pos ⟨hsome, hzero⟩] at hnone
    cases hnone
  have hlistening : s.acceptor = .listening := by
    cases hwhere : s.acceptor with
    | listening => rfl
    | enqueued =>
        have hnone := h .push trivial (htimely EndAction.noConfusion) rfl
        rw [endStep, if_pos hwhere] at hnone
        cases hnone
    | pushed =>
        have hnone := h .count trivial (htimely EndAction.noConfusion) rfl
        rw [endStep, if_pos hwhere] at hnone
        cases hnone
    | counted =>
        have hintime : InTime n s .notify := by
          intro _ hall
          rw [hwhere] at hfutures haccepted
          change s.futures = increments + 0 at hfutures
          change s.accepted = s.futures + 0 at haccepted
          have hthere := hstored (by omega)
          refine ⟨by omega, h.upToDate ((hordered.waitCondition_iff hn hlt).mpr ⟨hthere, ?_⟩)⟩
          omega
        have hnone := h .notify trivial hintime rfl
        rw [endStep, if_pos hwhere] at hnone
        cases hnone
  have hall : s.accepted = n + 1 := by
    by_contra hless
    have hnone := h .enqueue trivial (htimely EndAction.noConfusion) rfl
    rw [endStep, if_pos ⟨hlistening, by omega⟩] at hnone
    cases hnone
  rw [hlistening] at hfutures haccepted
  change s.futures = increments + 0 at hfutures
  change s.accepted = s.futures + 0 at haccepted
  exact ⟨hlistening, hall, hstored (by omega), by omega⟩

/-- **Every task has returned, and the supervisor has written the marker, or it sleeps beside
a condition that holds.** -/
theorem Quiet.outcome (h : Quiet n s) (hn : 1 ≤ n) (hlt : n < 32767)
    (hordered : Ordered n s increments) (hsmoothly : Smoothly s) :
    AllReturned n s ∧ waitCondition s.slicesThNum s.slicesNum = true ∧
      (s.phase = .reported ∨ s.phase = .asleep) := by
  obtain ⟨hlistening, hall, hstored, hcounted⟩ := h.accepted hn hlt hordered
  have hcondition := (hordered.waitCondition_iff hn hlt).mpr ⟨hstored, hcounted⟩
  have htimely : ∀ {a}, a ≠ .notify → InTime n s a := fun hne heq => absurd heq hne
  have hreturned : ∀ task < n + 1, s.tasks task = some .returned := by
    intro task htask
    cases hresult : s.tasks task with
    | some result => rw [hsmoothly.returned task result hresult]
    | none =>
        have hnone := h (.finish task .returned) trivial (htimely EndAction.noConfusion) rfl
        rw [endStep, if_pos ⟨hall ▸ htask, hresult⟩] at hnone
        cases hnone
  have hfutures : s.futures = n + 1 := by
    have haccepted := hordered.accepted_eq
    rw [hlistening] at haccepted
    exact haccepted.symm.trans hall
  refine ⟨⟨hall, hfutures, hreturned⟩, hcondition, ?_⟩
  cases hphase : s.phase with
  | reported => exact Or.inl rfl
  | asleep => exact Or.inr rfl
  | stopped => exact absurd hphase hsmoothly.going
  | testing | thLoaded _ | numLoaded _ | compared _ | blocking =>
      have hbehind := h.inTest_eq_false hcondition
      rw [hphase] at hbehind
      cases hbehind
  | passed =>
      have hnone := h.superviseStep_eq_none (a := .connect true) trivial rfl
      rw [superviseStep, if_pos hphase] at hnone
      cases hnone
  | connected =>
      have hnone := h.superviseStep_eq_none (a := .collect) trivial rfl
      rw [superviseStep, if_pos hphase] at hnone
      cases hnone
  | collecting next last =>
      obtain ⟨hnext, hlast⟩ := hsmoothly.inside next last hphase
      rcases hnext.lt_or_eq with hless | heq
      · have hnone := h.superviseStep_eq_none (a := .get) trivial rfl
        simp only [superviseStep, hphase, if_pos hless, Option.map_eq_none_iff] at hnone
        rw [hreturned next (hless.trans_le (hlast.trans_eq hfutures))] at hnone
        cases hnone
      · have hnone := h.superviseStep_eq_none (a := .write) trivial rfl
        simp only [superviseStep, hphase, if_pos heq] at hnone
        cases hnone

/-- What a run in which nothing goes wrong has kept. -/
theorem smoothly_of_reachable (h : (endSystem n).ReachableVia (fun _ a => Smooth a) s) :
    (∃ increments, Ordered n s increments) ∧ Smoothly s := by
  refine ⟨ordered_of_reachable (h.imp fun _ _ _ => trivial), ?_⟩
  refine h.invariant ?_ fun _ _ _ hs hsmooth hstep => hs.step hsmooth hstep
  refine ⟨fun task result hresult => ?_, Phase.noConfusion, fun _ _ hphase => by cases hphase⟩
  cases hresult

theorem vigilant_of_reachable (hn : 1 ≤ n) (hlt : n < 32767)
    (h : (endSystem n).ReachableVia (fun s a => Smooth a ∧ InTime n s a) s) : Vigilant n s := by
  induction h with
  | init => exact fun _ hall => absurd hall (Nat.succ_ne_zero n).symm
  | step hprev hguard hstep ih =>
      obtain ⟨increments, hordered⟩ := ordered_of_reachable (hprev.imp fun _ _ _ => trivial)
      exact ih.step hn hlt hordered hguard.2 hstep

end Runs

/-! ## The result -/

end SliceTransfer.Supervisor
