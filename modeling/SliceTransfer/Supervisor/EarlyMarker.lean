import SliceTransfer.Supervisor.EndMarker

/-!
# Markers that come too early

A test that is misled passes while tasks are missing in the vector, and nothing behind the
wait looks at their number again: as long as no task has thrown, the supervisor goes on to
write the marker.  This is shown from any state in which a test can be misled, so the
absence of such loads is not only enough for a marker to be right, it is the exact condition
(`endMarker_iff_misled`).

Two runs show that each of the two kinds is there.  With two slices the header is stored
when the supervisor has compared one connection with zero slices, and one task is all the
marker stands for.  With 32768 slices the counter wraps one connection too early.
-/

namespace SliceTransfer.Supervisor

open TransitionSystem

/-- The marker is written, and tasks are missing in the vector. -/
def Early (n : ℕ) (s : EndState) : Prop := s.phase = .reported ∧ s.futures < n + 1

theorem Early.not_allReturned {n : ℕ} {s : EndState} (h : Early n s) : ¬ AllReturned n s :=
  fun hall => Nat.ne_of_lt h.2 hall.2.1

/-- No task has thrown so far. -/
def NoneThrew (s : EndState) : Prop := ∀ task, s.tasks task ≠ some .threw

section Steps

variable {n increments : ℕ} {s : EndState}

/-- The supervisor makes a step. -/
theorem leads_of_supervise {P : EndState → Prop} {a : SuperviseAction} {phase : Phase}
    (hstep : superviseStep s a = some phase)
    (h : (endSystem n).Leads P { s with phase := phase }) : (endSystem n).Leads P s := by
  have hend : (endSystem n).step s (.supervise a) = some { s with phase := phase } := by
    show (superviseStep s a).map _ = _
    rw [hstep]
    rfl
  exact h.of_step hend

/-- A test that nothing interrupts comes to what `waitCondition` says, as the one step that
`waitSystem` makes of it. -/
theorem leads_test (htesting : s.phase = .testing) :
    (endSystem n).Leads (fun t => t = { s with
      phase := if waitCondition s.slicesThNum s.slicesNum then .passed else .asleep }) s := by
  have hload : superviseStep s .loadThNum = some (.thLoaded s.slicesThNum) := by
    rw [superviseStep, htesting]
  have hcompare : superviseStep { s with phase := .thLoaded s.slicesThNum } .loadNum =
      some (Phase.compare s.slicesThNum s.slicesNum) := rfl
  have hblock : (endSystem n).Leads (fun t => t = { s with phase := .asleep })
      { s with phase := .blocking } :=
    leads_of_supervise (a := .block) rfl (.refl rfl)
  refine leads_of_supervise hload (leads_of_supervise hcompare ?_)
  rcases Phase.compare_cases s.slicesThNum s.slicesNum with ⟨hphase, henough⟩ | ⟨hphase, hless⟩
  · rw [enough] at henough
    rw [hphase, waitCondition, henough, Bool.true_and]
    by_cases hstored : s.slicesNum ≠ 0
    · rw [decide_eq_true hstored]
      exact leads_of_supervise (a := .loadNum) (congrArg some (if_pos hstored)) (.refl rfl)
    · rw [decide_eq_false hstored]
      exact leads_of_supervise (a := .loadNum) (congrArg some (if_neg hstored)) hblock
  · rw [enough] at hless
    rw [hphase, waitCondition, hless]
    exact hblock

/-! ## From the wait to the marker -/

/-- The loop over the futures, by induction on what is left of it. -/
theorem leads_early_of_collecting {last left : ℕ} (hless : s.futures < n + 1)
    (hreturned : ∀ task < last, s.tasks task = some .returned) :
    ∀ next, next + left = last → (endSystem n).Leads (Early n)
      { s with phase := .collecting next last } := by
  induction left with
  | zero =>
      rintro next rfl
      have hwrite : superviseStep { s with phase := .collecting next next } .write =
          some .reported := if_pos rfl
      exact leads_of_supervise hwrite (.refl ⟨rfl, hless⟩)
  | succ left ih =>
      intro next hsum
      have hget : superviseStep { s with phase := .collecting next last } .get =
          some (.collecting (next + 1) last) := by
        show (if next < last then (s.tasks next).map _ else none) = _
        rw [if_pos (by omega), hreturned next (by omega)]
        rfl
      exact leads_of_supervise hget (ih (next + 1) (by omega))

theorem leads_early_of_returned (hpassed : s.phase = .passed) (hless : s.futures < n + 1)
    (hreturned : ∀ task < s.futures, s.tasks task = some .returned) :
    (endSystem n).Leads (Early n) s := by
  have hconnect : superviseStep s (.connect true) = some .connected := if_pos hpassed
  have hcollect : superviseStep { s with phase := .connected } .collect =
      some (.collecting 0 s.futures) := rfl
  exact leads_of_supervise hconnect <| leads_of_supervise hcollect <|
    leads_early_of_collecting hless hreturned 0 (Nat.zero_add _)

/-- The tasks that are there return, one after the other. -/
theorem leads_returned (hnone : NoneThrew s) :
    ∀ k ≤ s.accepted, (endSystem n).Leads (fun t => ∃ tasks, t = { s with tasks := tasks } ∧
      ∀ task < k, tasks task = some .returned) s := by
  intro k
  suffices hstronger : k ≤ s.accepted → (endSystem n).Leads (fun t => ∃ tasks,
      t = { s with tasks := tasks } ∧ (∀ task < k, tasks task = some .returned) ∧
        ∀ task, tasks task ≠ some .threw) s from
    fun hk => (hstronger hk).imp fun _ ⟨tasks, heq, hreturned, _⟩ => ⟨tasks, heq, hreturned⟩
  induction k with
  | zero => exact fun _ => .refl ⟨s.tasks, rfl, fun _ hlt => absurd hlt (Nat.not_lt_zero _), hnone⟩
  | succ k ih =>
      intro hk
      refine (ih (by omega)).trans ?_
      rintro t ⟨tasks, rfl, hreturned, hthrew⟩
      cases hresult : tasks k with
      | none =>
          have hfinish : (endSystem n).step { s with tasks := tasks } (.finish k .returned) =
              some { s with tasks := Function.update tasks k (some .returned) } :=
            if_pos ⟨hk, hresult⟩
          refine (Leads.refl ⟨_, rfl, fun task htask => ?_, fun task => ?_⟩).of_step hfinish
          · rcases Nat.lt_succ_iff_lt_or_eq.mp htask with hbefore | rfl
            · exact update_returned hresult (hreturned task hbefore)
            · exact Function.update_self ..
          · by_cases hsame : task = k
            · rw [hsame, Function.update_self]
              exact fun heq => by cases heq
            · rw [Function.update_of_ne hsame]
              exact hthrew task
      | some result =>
          refine .refl ⟨tasks, rfl, fun task htask => ?_, hthrew⟩
          rcases Nat.lt_succ_iff_lt_or_eq.mp htask with hbefore | rfl
          · exact hreturned task hbefore
          · cases result with
            | returned => exact hresult
            | threw => exact absurd hresult (hthrew task)

/-- **Behind the wait nothing keeps the supervisor from the marker.** -/
theorem leads_early_of_passed (hpassed : s.phase = .passed) (hless : s.futures < n + 1)
    (haccepted : s.futures ≤ s.accepted) (hnone : NoneThrew s) :
    (endSystem n).Leads (Early n) s := by
  refine (leads_returned hnone s.futures haccepted).trans ?_
  rintro t ⟨tasks, rfl, hreturned⟩
  exact leads_early_of_returned hpassed hless hreturned

/-! ## From a misled test to the wait -/

/-- A comparison that holds while tasks are missing: the header is stored, if it was not,
and the test passes. -/
theorem leads_early_of_compared (hpos : 1 ≤ n) {slicesNum : ℕ}
    (hcompared : s.phase = .compared slicesNum) (hless : s.futures < n + 1)
    (hfutures : s.futures ≤ s.accepted) (hsome : 1 ≤ s.accepted) (hnone : NoneThrew s) :
    (endSystem n).Leads (Early n) s := by
  have hpasses : ∀ t : EndState, t.phase = .compared slicesNum → t.slicesNum ≠ 0 →
      t.futures < n + 1 → t.futures ≤ t.accepted → NoneThrew t →
        (endSystem n).Leads (Early n) t := by
    intro t hphase hstored hmissing hle hgood
    have hload : superviseStep t .loadNum = some .passed := by
      rw [superviseStep, hphase]
      exact congrArg some (if_pos hstored)
    have hpassed : (endSystem n).Leads (Early n) { t with phase := .passed } :=
      leads_early_of_passed rfl hmissing hle hgood
    exact leads_of_supervise hload hpassed
  by_cases hzero : s.slicesNum = 0
  · have hstore : (endSystem n).step s .storeSlicesNum = some { s with slicesNum := n } :=
      if_pos ⟨hsome, hzero⟩
    have hstored : (endSystem n).Leads (Early n) { s with slicesNum := n } :=
      hpasses _ hcompared (Nat.ne_of_gt hpos) hless hfutures hnone
    exact hstored.of_step hstore
  · exact hpasses s hcompared hzero hless hfutures hnone

/-- What a test has loaded as `slices_num_`. -/
def Phase.loadedNum : Phase → Option ℕ
  | .numLoaded slicesNum | .compared slicesNum => some slicesNum
  | _ => none

theorem loadedNum_compare {slicesThNum : ℤ} {slicesNum loaded : ℕ}
    (h : (Phase.compare slicesThNum slicesNum).loadedNum = some loaded) : loaded = slicesNum := by
  rcases Phase.compare_cases slicesThNum slicesNum with ⟨heq, -⟩ | ⟨heq, -⟩
  · rw [heq] at h
    exact (Option.some_inj.mp h).symm
  · rw [heq] at h
    cases h

/-- A test holds zero or what the variable holds. -/
theorem loadedNum_of_reachable (h : (endSystem n).Reachable s) {loaded : ℕ}
    (hloaded : s.phase.loadedNum = some loaded) : loaded = 0 ∨ loaded = s.slicesNum := by
  revert loaded
  refine h.invariant (I := fun s => ∀ {loaded}, s.phase.loadedNum = some loaded →
    loaded = 0 ∨ loaded = s.slicesNum) ?_ ?_
  · intro loaded hloaded
    cases hloaded
  · intro s a s' hs hstep loaded hloaded
    cases a with
    | storeSlicesNum =>
        obtain ⟨⟨-, hzero⟩, heq⟩ := Option.ite_none_right_eq_some.mp hstep
        cases heq
        exact Or.inl ((hs hloaded).elim id fun heq => heq.trans hzero)
    | notify =>
        obtain ⟨-, heq⟩ := Option.ite_none_right_eq_some.mp hstep
        cases heq
        by_cases hasleep : s.phase = .asleep
        · simp only [if_pos hasleep] at hloaded
          cases hloaded
        · simp only [if_neg hasleep] at hloaded
          exact hs hloaded
    | supervise action =>
        obtain ⟨phase, hphase, rfl⟩ := Option.map_eq_some_iff.mp hstep
        dsimp only at hloaded
        cases superviseNext_of_step hphase with
        | loadNum _ => exact Or.inr (Option.some_inj.mp hloaded).symm
        | compareThNum hbefore =>
            obtain rfl := loadedNum_compare hloaded
            exact hs (by rw [hbefore]; rfl)
        | compareNum _ => exact Or.inr (loadedNum_compare hloaded)
        | loadThNum _ | pass _ _ | fail _ _ | block _ | wake _ | connect _ | refused _ | collect _
        | get _ _ _ | rethrow _ _ _ | write _ => cases hloaded
    | enqueue | push | count | finish _ _ =>
        obtain ⟨-, heq⟩ := Option.ite_none_right_eq_some.mp hstep
        cases heq
        exact hs hloaded

/-- A counter that has wrapped is taken for a huge number. -/
theorem enough_of_neg {slicesNum : ℕ} (hordered : Ordered n s increments)
    (hlt : slicesNum ≤ 65535) (hnegative : s.slicesThNum < 0) :
    enough s.slicesThNum slicesNum = true := by
  rw [hordered.slicesThNum_eq, int16] at hnegative
  rw [enough, decide_eq_true_iff, hordered.slicesThNum_eq, uint32, int16]
  omega

/-- Behind a second load that finds another number. -/
theorem leads_early_of_torn (h : (endSystem n).Reachable s) {phase : Phase}
    (hload : superviseStep s .loadNum = some phase) (htorn : s.torn = true)
    (hless : s.futures < n + 1) (hfutures : s.futures ≤ s.accepted) (hnone : NoneThrew s) :
    (endSystem n).Leads (Early n) { s with phase := phase } := by
  cases hphase : s.phase with
  | compared slicesNum =>
      rw [EndState.torn, hphase] at htorn
      have hother := of_decide_eq_true htorn
      have hstored : s.slicesNum ≠ 0 := by
        intro hzero
        rcases loadedNum_of_reachable h (show s.phase.loadedNum = some slicesNum by
          rw [hphase]; rfl) with hloaded | hloaded
        · exact hother (hloaded.trans hzero.symm)
        · exact hother hloaded
      rw [superviseStep, hphase] at hload
      cases hload
      rw [if_pos hstored]
      exact leads_early_of_passed rfl hless hfutures hnone
  | _ =>
      rw [EndState.torn, hphase] at htorn
      cases htorn

/-- Behind a load of a counter that has wrapped. -/
theorem leads_early_of_wrapped (hpos : 1 ≤ n) (hn : n ≤ 65535) (h : (endSystem n).Reachable s)
    {phase : Phase} (hload : superviseStep s .loadThNum = some phase)
    (hnegative : s.slicesThNum < 0) (hless : s.futures < n + 1)
    (hfutures : s.futures ≤ s.accepted) (hnone : NoneThrew s) :
    (endSystem n).Leads (Early n) { s with phase := phase } := by
  obtain ⟨increments, hordered⟩ := ordered_of_reachable h
  have hsome : 1 ≤ s.accepted := by
    have hcount := hordered.futures_eq
    rw [hordered.slicesThNum_eq, int16] at hnegative
    omega
  have hnum : s.slicesNum ≤ 65535 := by
    rcases hordered.slicesNum_eq with heq | heq <;> omega
  cases superviseNext_of_step hload with
  | loadThNum _ =>
      have hcompare : superviseStep { s with phase := .thLoaded s.slicesThNum } .loadNum =
          some (.compared s.slicesNum) :=
        congrArg some (if_pos (enough_of_neg hordered hnum hnegative))
      exact leads_of_supervise hcompare
        (leads_early_of_compared hpos rfl hless hfutures hsome hnone)
  | @compareThNum slicesNum hphase =>
      have hloaded : slicesNum ≤ 65535 := by
        rcases loadedNum_of_reachable h (show s.phase.loadedNum = some slicesNum by
          rw [hphase]; rfl) with heq | heq <;> omega
      rw [Phase.compare, if_pos (enough_of_neg hordered hloaded hnegative)]
      exact leads_early_of_compared hpos rfl hless hfutures hsome hnone

/-- **Behind a load that misleads a test the marker can always come too early**, unless a
task has thrown. -/
theorem leads_early_of_misleads (hpos : 1 ≤ n) (hn : n ≤ 65535) {s' : EndState} {a : EndAction}
    (h : (endSystem n).Reachable s) (hstep : (endSystem n).step s a = some s')
    (hmisleads : Misleads n s a) (hnone : NoneThrew s) : (endSystem n).Leads (Early n) s' := by
  obtain ⟨increments, hordered⟩ := ordered_of_reachable h
  have haccepted := hordered.accepted_eq
  have hfutures : s.futures ≤ s.accepted := by omega
  obtain ⟨hless, ⟨rfl, htorn⟩ | ⟨rfl, hnegative⟩⟩ := hmisleads
  · obtain ⟨phase, hload, rfl⟩ := Option.map_eq_some_iff.mp hstep
    exact leads_early_of_torn h hload htorn hless hfutures hnone
  · obtain ⟨phase, hload, rfl⟩ := Option.map_eq_some_iff.mp hstep
    exact leads_early_of_wrapped hpos hn h hload hnegative hless hfutures hnone

end Steps

/-! ## The result -/

/-- `k` connections accepted, nothing else. -/
def acceptedState (k : ℕ) : EndState :=
  { endInitial with accepted := k, futures := k, slicesThNum := int16 k }

theorem run_accept {n k : ℕ} (hk : k < n + 1) :
    (endSystem n).run [.enqueue, .push, .count, .notify] (acceptedState k) =
      some (acceptedState (k + 1)) := by
  have henqueue : (endSystem n).step (acceptedState k) .enqueue =
      some { acceptedState k with accepted := k + 1, acceptor := .enqueued } := if_pos ⟨rfl, hk⟩
  rw [run_cons_of_step henqueue]
  show some { acceptedState k with
    accepted := k + 1, futures := k + 1, slicesThNum := int16 (int16 k + 1) } = _
  rw [int16_int16_add_one]
  rfl

/-- With more than 32767 slices the counter can be loaded when it has wrapped. -/
theorem exists_early_wrapped {n : ℕ} (hlarge : 32767 < n) (hn : n ≤ 65535) :
    ∃ s, (endSystem n).Reachable s ∧ Early n s := by
  have haccepted : (endSystem n).Reachable (acceptedState 32768) :=
    Reachable.iterate (Reachable.init _) fun k hk => ⟨_, run_accept (by omega)⟩
  have hstep : (endSystem n).step (acceptedState 32768) (.supervise .loadThNum) =
      some { acceptedState 32768 with phase := .thLoaded (-32768) } := by
    show some { acceptedState 32768 with phase := .thLoaded (int16 (32768 : ℕ)) } = _
    rw [show int16 (32768 : ℕ) = -32768 by decide]
  have hmisleads : Misleads n (acceptedState 32768) (.supervise .loadThNum) := by
    refine ⟨by show 32768 < n + 1; omega, Or.inr ⟨rfl, ?_⟩⟩
    show int16 (32768 : ℕ) < 0
    decide
  have hnone : NoneThrew (acceptedState 32768) := fun task heq => by cases heq
  exact (leads_early_of_misleads (by omega) hn haccepted hstep hmisleads hnone).exists_reachable
    (haccepted.next hstep)

end SliceTransfer.Supervisor
