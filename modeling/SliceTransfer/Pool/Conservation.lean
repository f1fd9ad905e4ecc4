import SliceTransfer.Pool.ThreadPool

/-!
# The pool loses and repeats nothing

`Partition` says where the tasks are: the numbers handed out are the dequeued ones
followed by the queue, and a dequeued task either has been called or is held by exactly
one worker.  `Shutdown` says that a worker leaves only when the stop flag is set and the
queue is empty, and that neither changes afterwards.  Together they give
`conserves_tasks`.
-/

namespace SliceTransfer.ThreadPool

variable {τ : Type} {size : ℕ} {s s' : State τ}

/-- Queued, held by a worker, or called: each task enqueued is in one of these places. -/
structure Partition (size : ℕ) (s : State τ) : Prop where
  order : s.taken ++ s.tasks = List.range s.pushed.length
  runs_nodup : s.runs.Nodup
  runs_taken : ∀ task ∈ s.runs, task ∈ s.taken
  held : ∀ worker < size, ∀ task, s.workers worker = .holding task →
    task ∈ s.taken ∧ task ∉ s.runs
  held_once : ∀ worker < size, ∀ other < size, ∀ task, s.workers worker = .holding task →
    s.workers other = .holding task → worker = other
  accounted : ∀ task ∈ s.taken,
    task ∈ s.runs ∨ ∃ worker < size, s.workers worker = .holding task

/-- What the destructor can rely on. -/
structure Shutdown (size : ℕ) (s : State τ) : Prop where
  stop_iff : s.stop = true ↔ s.destructor ≠ .notStarted
  exited : ∀ worker < size, s.workers worker = .exited → s.stop = true ∧ s.tasks = []
  joined : s.destructor = .joined → ∀ worker < size, s.workers worker = .exited

/-! ## The partition -/

/-- A task that is still queued has not been dequeued. -/
theorem Partition.notMem_taken (h : Partition size s) {task : ℕ} (hmem : task ∈ s.tasks) :
    task ∉ s.taken := by
  have hnodup : (s.taken ++ s.tasks).Nodup := h.order ▸ List.nodup_range
  exact fun htaken => (List.nodup_append.mp hnodup).2.2 _ htaken _ hmem rfl

/-- The partition is about the tasks only. -/
theorem Partition.congr (h : Partition size s) (htasks : s'.tasks = s.tasks)
    (hpushed : s'.pushed = s.pushed) (htaken : s'.taken = s.taken) (hruns : s'.runs = s.runs)
    (hworkers : ∀ worker task,
      s'.workers worker = .holding task ↔ s.workers worker = .holding task) :
    Partition size s' := by
  constructor
  · rw [htaken, htasks, hpushed]
    exact h.order
  · rw [hruns]
    exact h.runs_nodup
  · rw [hruns, htaken]
    exact h.runs_taken
  · intro worker hworker task hholding
    rw [htaken, hruns]
    exact h.held worker hworker task ((hworkers worker task).mp hholding)
  · intro worker hworker other hother task hholding hsame
    exact h.held_once worker hworker other hother task ((hworkers worker task).mp hholding)
      ((hworkers other task).mp hsame)
  · intro task hmem
    rw [htaken] at hmem
    rw [hruns]
    refine (h.accounted task hmem).imp_right fun ⟨worker, hworker, hholding⟩ => ?_
    exact ⟨worker, hworker, (hworkers worker task).mpr hholding⟩

/-- A worker without a task that gets none. -/
theorem setWorker_holding_iff {worker : ℕ} {value : Worker}
    (hold : ∀ task, s.workers worker ≠ .holding task) (hnew : ∀ task, value ≠ .holding task)
    (other task : ℕ) :
    (s.setWorker worker value).workers other = .holding task ↔
      s.workers other = .holding task := by
  by_cases hsame : other = worker
  · subst hsame
    rw [State.setWorker_self]
    exact ⟨fun h => absurd h (hnew task), fun h => absurd h (hold task)⟩
  · rw [State.setWorker_of_ne _ _ hsame]

theorem Partition.setWorker (h : Partition size s) {worker : ℕ} {value : Worker}
    (hold : ∀ task, s.workers worker ≠ .holding task) (hnew : ∀ task, value ≠ .holding task) :
    Partition size (s.setWorker worker value) :=
  h.congr rfl rfl rfl rfl (setWorker_holding_iff hold hnew)

theorem Partition.push (h : Partition size s) (caller : ℕ) (task : τ) :
    Partition size (s.push caller task) := by
  refine ⟨?_, h.runs_nodup, h.runs_taken, h.held, h.held_once, h.accounted⟩
  show s.taken ++ (s.tasks ++ [s.pushed.length]) = List.range (s.pushed ++ [task]).length
  rw [← List.append_assoc, h.order, List.length_append, List.length_singleton, List.range_succ]

/-- The oldest task goes from the queue to the worker. -/
theorem Partition.take (h : Partition size s) {worker task : ℕ} {rest : List ℕ}
    (hworker : worker < size) (htesting : s.workers worker = .testing)
    (htasks : s.tasks = task :: rest) : Partition size (s.take worker task rest) := by
  have hfresh : task ∉ s.taken := h.notMem_taken (htasks ▸ List.mem_cons_self ..)
  have hself : (s.take worker task rest).workers worker = .holding task :=
    State.setWorker_self ..
  have hother : ∀ other ≠ worker, (s.take worker task rest).workers other = s.workers other :=
    fun other hne => State.setWorker_of_ne s _ hne
  have htaken : ∀ number, number ∈ (s.take worker task rest).taken ↔
      number ∈ s.taken ∨ number = task := by
    intro number
    show number ∈ s.taken ++ [task] ↔ _
    rw [List.mem_append, List.mem_singleton]
  constructor
  · show (s.taken ++ [task]) ++ rest = _
    rw [List.append_assoc, List.singleton_append, ← htasks]
    exact h.order
  · exact h.runs_nodup
  · exact fun number hmem => (htaken number).mpr (Or.inl (h.runs_taken number hmem))
  · intro other hlt number hholding
    rw [htaken]
    by_cases hsame : other = worker
    · rw [hsame, hself] at hholding
      cases hholding
      exact ⟨Or.inr rfl, fun hran => hfresh (h.runs_taken task hran)⟩
    · rw [hother other hsame] at hholding
      obtain ⟨hmem, hnot⟩ := h.held other hlt number hholding
      exact ⟨Or.inl hmem, hnot⟩
  · -- the task just taken was held by nobody before
    have hnobody : ∀ other < size, other ≠ worker →
        (s.take worker task rest).workers other ≠ .holding task := by
      intro other hlt hne hholding
      rw [hother other hne] at hholding
      exact hfresh (h.held other hlt task hholding).1
    intro first hfirst second hsecond number hholding hsame
    by_cases hone : first = worker
    · by_cases htwo : second = worker
      · rw [hone, htwo]
      · rw [hone, hself] at hholding
        cases hholding
        exact absurd hsame (hnobody second hsecond htwo)
    · by_cases htwo : second = worker
      · rw [htwo, hself] at hsame
        cases hsame
        exact absurd hholding (hnobody first hfirst hone)
      · rw [hother first hone] at hholding
        rw [hother second htwo] at hsame
        exact h.held_once first hfirst second hsecond number hholding hsame
  · intro number hmem
    rcases (htaken number).mp hmem with hbefore | rfl
    · refine (h.accounted number hbefore).imp_right fun ⟨other, hlt, hholding⟩ => ?_
      have hne : other ≠ worker := by
        rintro rfl
        rw [htesting] at hholding
        cases hholding
      exact ⟨other, hlt, (hother other hne).trans hholding⟩
    · exact Or.inr ⟨worker, hworker, hself⟩

/-- The task goes from the worker to the runs. -/
theorem Partition.call (h : Partition size s) {worker task : ℕ} (hworker : worker < size)
    (hholding : s.workers worker = .holding task) : Partition size (s.call worker task) := by
  obtain ⟨htask, hnot⟩ := h.held worker hworker task hholding
  have hself : (s.call worker task).workers worker = .running task := State.setWorker_self ..
  have hother : ∀ other ≠ worker, (s.call worker task).workers other = s.workers other :=
    fun other hne => State.setWorker_of_ne s _ hne
  have hruns : ∀ number, number ∈ (s.call worker task).runs ↔ number ∈ s.runs ∨ number = task := by
    intro number
    show number ∈ s.runs ++ [task] ↔ _
    rw [List.mem_append, List.mem_singleton]
  -- a holder in the new state is another worker, with another task
  have hholder : ∀ other < size, ∀ number, (s.call worker task).workers other = .holding number →
      other ≠ worker ∧ number ≠ task ∧ s.workers other = .holding number := by
    intro other hlt number hheld
    have hne : other ≠ worker := by
      rintro rfl
      rw [hself] at hheld
      cases hheld
    rw [hother other hne] at hheld
    refine ⟨hne, ?_, hheld⟩
    rintro rfl
    exact hne (h.held_once other hlt worker hworker number hheld hholding)
  constructor
  · exact h.order
  · show (s.runs ++ [task]).Nodup
    exact List.nodup_append.mpr ⟨h.runs_nodup, List.nodup_singleton task, by
      rintro number hran other hmem rfl
      exact hnot (List.mem_singleton.mp hmem ▸ hran)⟩
  · intro number hmem
    rcases (hruns number).mp hmem with hbefore | rfl
    · exact h.runs_taken number hbefore
    · exact htask
  · intro other hlt number hheld
    obtain ⟨-, hne, hbefore⟩ := hholder other hlt number hheld
    obtain ⟨hmem, hnotRan⟩ := h.held other hlt number hbefore
    exact ⟨hmem, fun hran => ((hruns number).mp hran).elim hnotRan hne⟩
  · intro first hfirst second hsecond number hone htwo
    exact h.held_once first hfirst second hsecond number (hholder first hfirst number hone).2.2
      (hholder second hsecond number htwo).2.2
  · intro number hmem
    by_cases hsame : number = task
    · exact Or.inl ((hruns number).mpr (Or.inr hsame))
    · rcases h.accounted number hmem with hran | ⟨other, hlt, hheld⟩
      · exact Or.inl ((hruns number).mpr (Or.inl hran))
      · have hne : other ≠ worker := by
          rintro rfl
          rw [hholding] at hheld
          cases hheld
          exact hsame rfl
        exact Or.inr ⟨other, hlt, (hother other hne).trans hheld⟩

theorem Partition.next {a : Action τ} (h : Partition size s) (hnext : Next size s a s') :
    Partition size s' := by
  cases hnext with
  | push task _ _ => exact h.push _ task
  | notifyLost _ _ => exact h.congr rfl rfl rfl rfl fun _ _ => Iff.rfl
  | @notifyOne caller worker _ _ hasleep =>
      have hleft : Partition size (s.leave caller) := h.congr rfl rfl rfl rfl fun _ _ => Iff.rfl
      have hsame : (s.leave caller).workers worker = .asleep := hasleep
      exact hleft.setWorker (by simp [hsame]) (by simp)
  | sleep _ htesting _ _ => exact h.setWorker (by simp [htesting]) (by simp)
  | exit _ htesting _ _ => exact h.setWorker (by simp [htesting]) (by simp)
  | take hworker htesting htasks => exact h.take hworker htesting htasks
  | wake _ hasleep => exact h.setWorker (by simp [hasleep]) (by simp)
  | call hworker hholding => exact h.call hworker hholding
  | finish _ hrunning => exact h.setWorker (by simp [hrunning]) (by simp)
  | stop _ => exact h.congr rfl rfl rfl rfl fun _ _ => Iff.rfl
  | notifyAll _ =>
      refine h.congr rfl rfl rfl rfl ?_
      intro _ _
      exact s.wakeAll_eq_iff Worker.noConfusion Worker.noConfusion
  | join _ _ => exact h.congr rfl rfl rfl rfl fun _ _ => Iff.rfl

theorem partition_of_reachable (h : (poolSystem τ size).Reachable s) : Partition size s := by
  refine Reachable.next_invariant ?_ (fun _ _ _ hs hnext => hs.next hnext) h
  exact ⟨rfl, List.nodup_nil, by simp [initial], by simp [initial], by simp [initial],
    by simp [initial]⟩

/-! ## Shutdown -/

/-- A worker that goes on waiting or working. -/
theorem Shutdown.setWorker (h : Shutdown size s) {worker : ℕ} {value : Worker}
    (hworker : worker < size) (hold : s.workers worker ≠ .exited) (hnew : value ≠ .exited) :
    Shutdown size (s.setWorker worker value) := by
  refine ⟨h.stop_iff, fun other hother hexited => ?_, fun hjoined => ?_⟩
  · have hne : other ≠ worker := by
      rintro rfl
      rw [State.setWorker_self] at hexited
      exact hnew hexited
    rw [State.setWorker_of_ne _ _ hne] at hexited
    exact h.exited other hother hexited
  · exact absurd (h.joined hjoined worker hworker) hold

theorem Shutdown.next {a : Action τ} (h : Shutdown size s) (hnext : Next size s a s') :
    Shutdown size s' := by
  -- while the queue is not empty, or still open, nobody has left
  have hpresent : s.tasks ≠ [] ∨ s.destructor = .notStarted → ∀ worker < size,
      s.workers worker ≠ .exited := by
    intro hwhy worker hworker hexited
    obtain ⟨hstop, hempty⟩ := h.exited worker hworker hexited
    rcases hwhy with htasks | hopen
    · exact htasks hempty
    · exact h.stop_iff.mp hstop hopen
  cases hnext with
  | push task hopen _ =>
      refine ⟨h.stop_iff, fun worker hworker hexited => ?_, h.joined⟩
      exact absurd hexited (hpresent (Or.inr hopen) worker hworker)
  | notifyLost _ _ => exact ⟨h.stop_iff, h.exited, h.joined⟩
  | @notifyOne caller worker _ hworker hasleep =>
      have hleft : Shutdown size (s.leave caller) := ⟨h.stop_iff, h.exited, h.joined⟩
      have hsame : (s.leave caller).workers worker = .asleep := hasleep
      exact hleft.setWorker hworker (by simp [hsame]) (by simp)
  | sleep hworker htesting _ _ => exact h.setWorker hworker (by simp [htesting]) (by simp)
  | @exit worker hworker htesting hempty hstop =>
      refine ⟨h.stop_iff, fun other hother hexited => ⟨hstop, hempty⟩, fun hjoined => ?_⟩
      have hgone := h.joined hjoined worker hworker
      rw [htesting] at hgone
      cases hgone
  | @take worker task rest hworker htesting htasks =>
      have hset : Shutdown size (s.setWorker worker (.holding task)) :=
        h.setWorker hworker (by simp [htesting]) (by simp)
      refine ⟨h.stop_iff, fun other hother hexited => ?_, hset.joined⟩
      have hempty := (hset.exited other hother hexited).2
      rw [show (s.setWorker worker (.holding task)).tasks = task :: rest from htasks] at hempty
      cases hempty
  | wake hworker hasleep => exact h.setWorker hworker (by simp [hasleep]) (by simp)
  | @call worker task hworker hholding =>
      have hset : Shutdown size (s.setWorker worker (.running task)) :=
        h.setWorker hworker (by simp [hholding]) (by simp)
      exact ⟨hset.stop_iff, hset.exited, hset.joined⟩
  | finish hworker hrunning => exact h.setWorker hworker (by simp [hrunning]) (by simp)
  | stop hopen =>
      refine ⟨by simp, fun worker hworker hexited => ?_, fun hjoined => by cases hjoined⟩
      exact absurd hexited (hpresent (Or.inr hopen) worker hworker)
  | notifyAll hstopped =>
      have hstop : s.stop = true := h.stop_iff.mpr (by simp [hstopped])
      refine ⟨by simpa [State.wakeAll] using hstop, fun worker hworker hexited => ?_,
        fun hjoined => by cases hjoined⟩
      rw [show State.workers { s.wakeAll with destructor := .notified } = s.wakeAll.workers
        from rfl, s.wakeAll_eq_iff Worker.noConfusion Worker.noConfusion] at hexited
      exact h.exited worker hworker hexited
  | join hnotified hexited =>
      have hstop : s.stop = true := h.stop_iff.mpr (by simp [hnotified])
      exact ⟨by simpa using hstop, h.exited, fun _ => hexited⟩

theorem shutdown_of_reachable (h : (poolSystem τ size).Reachable s) : Shutdown size s := by
  refine Reachable.next_invariant ?_ (fun _ _ _ hs hnext => hs.next hnext) h
  exact ⟨by simp [initial], by simp [initial], by simp [initial]⟩

/-! ## The result -/

/-- **The pool dequeues in push order, calls no task twice, and has called every task
exactly once when the destructor has joined the workers.** -/
theorem conserves_tasks (τ : Type) (size : ℕ) (s : State τ) (hsize : 1 ≤ size)
    (h : (poolSystem τ size).Reachable s) :
    s.taken ++ s.tasks = List.range s.pushed.length ∧ s.runs.Nodup ∧
      (s.destructor = .joined → ∀ task < s.pushed.length, s.runs.count task = 1) := by
  have hpartition := partition_of_reachable h
  have hshutdown := shutdown_of_reachable h
  refine ⟨hpartition.order, hpartition.runs_nodup, fun hjoined task htask => ?_⟩
  have hgone := hshutdown.joined hjoined
  have hempty : s.tasks = [] := (hshutdown.exited 0 hsize (hgone 0 hsize)).2
  have horder := hpartition.order
  rw [hempty, List.append_nil] at horder
  have htaken : task ∈ s.taken := by
    rw [horder]
    exact List.mem_range.mpr htask
  have hran : task ∈ s.runs := by
    refine (hpartition.accounted task htaken).resolve_right ?_
    rintro ⟨worker, hworker, hholding⟩
    rw [hgone worker hworker] at hholding
    cases hholding
  exact List.count_eq_one_of_mem hpartition.runs_nodup hran

/-- One worker, two tasks: the second one is pushed while the first one runs, and both
have been called when the pool is gone. -/
theorem conserves_tasks_two : ∃ s, (poolSystem ℕ 1).Reachable s ∧ s.pushed = [7, 7] ∧
    s.destructor = .joined ∧ ∀ task < 2, s.runs.count task = 1 := by
  have hrun : ((poolSystem ℕ 1).run [.test 0, .push 0 7, .notify 0 (some 0), .test 0, .call 0,
      .push 0 7, .stop, .notifyAll, .finish 0, .test 0, .call 0, .finish 0, .test 0, .join]
      (poolSystem ℕ 1).init).map (fun s => (s.pushed, s.destructor)) =
        some ([7, 7], .joined) := by decide
  obtain ⟨s, hs, hfields⟩ := Option.map_eq_some_iff.mp hrun
  obtain ⟨hpushed, hjoined⟩ := Prod.mk.inj hfields
  have hreach := TransitionSystem.reachable_of_run hs
  refine ⟨s, hreach, hpushed, hjoined, fun task htask => ?_⟩
  exact (conserves_tasks ℕ 1 s (le_refl 1) hreach).2.2 hjoined task (by rw [hpushed]; exact htask)

end SliceTransfer.ThreadPool
