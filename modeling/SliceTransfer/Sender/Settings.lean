import SliceTransfer.Pool.ThreadPool

/-!
# The lifetime of the compression settings

`SendingFlow::Init` allocates `args_`, every `Compress` reads `args_->c_level`, and `main`
calls `SendingFlow::Destory`, which releases `args_`, as soon as it has enqueued the
slices; it waits for the futures only afterwards.  `senderSystem n size` interleaves
`main`, which enqueues `n` slices, with the workers of the pool.

`SettingsHeld` says that the settings are there for whoever can still read them.  Every step
keeps it but one: the release while some task has not read yet.  And after that step the
reading can always still happen (`doomed_of_releasedEarly`), whatever the workers were doing.
As nothing keeps `main` from that step, no number of slices and workers is safe, unless it is
zero (`settings_outlive_iff`).
-/

namespace SliceTransfer.SendingFlow

open ThreadPool TransitionSystem

/-- What `main` enqueues. -/
inductive Job
  | supervise
  | run (index : ℕ)
  deriving DecidableEq, Repr

/-- Where `main` is.  `enqueue next` is the loop over the slices. -/
inductive MainPc
  | enqueueSupervise
  | init
  | enqueue (next : ℕ)
  | waiting
  deriving DecidableEq, Repr

/-- What `args_` points to. -/
inductive Settings
  | unset
  | live
  | released
  deriving DecidableEq, Repr

/-- `passed` are the `Run` tasks behind the reading of `c_level`, `reads` what each
reading found. -/
structure SenderState where
  pool : ThreadPool.State Job
  main : MainPc
  settings : Settings
  passed : List ℕ
  reads : List Settings

inductive SenderAction
  | enqueueSupervise
  | init
  | enqueueRun
  | destory
  | notify (woken : Option ℕ)
  | test (worker : ℕ)
  | wake (worker : ℕ)
  | call (worker : ℕ)
  /-- `ZSTD_createCCtx` fails, and `Compress` returns before it reads the settings. -/
  | createFails (worker : ℕ)
  | readLevel (worker : ℕ)
  | finish (worker : ℕ)
  deriving DecidableEq, Repr

/-- The number of `main` among the callers of `enqueue`. -/
def mainCaller : ℕ := 0

namespace SenderState

/-- A step of the pool. -/
def poolStep (size : ℕ) (s : SenderState) (action : ThreadPool.Action Job) : Option SenderState :=
  (ThreadPool.poolStep size s.pool action).map fun pool => { s with pool := pool }

/-- A `Run` task that has still to read the settings. -/
def Pending (s : SenderState) (task : ℕ) : Prop :=
  (∃ index, s.pool.pushed[task]? = some (.run index)) ∧ task ∉ s.passed

/-- The job is a `Run`. -/
def isRun : Option Job → Bool
  | some (.run _) => true
  | _ => false

theorem isRun_eq_true_iff {job : Option Job} :
    isRun job = true ↔ ∃ index, job = some (.run index) := by
  cases job with
  | none => simp [isRun]
  | some job => cases job <;> simp [isRun]

instance (s : SenderState) (task : ℕ) : Decidable (s.Pending task) :=
  decidable_of_iff (isRun s.pool.pushed[task]? = true ∧ task ∉ s.passed) (by
    rw [isRun_eq_true_iff]
    exact Iff.rfl)

/-- Behind the reading, or what takes its place. -/
def pass (s : SenderState) (task : ℕ) : SenderState := { s with passed := task :: s.passed }

end SenderState

/-- `main` pushes the next task once its last `enqueue` has returned. -/
def senderStep (n size : ℕ) (s : SenderState) : SenderAction → Option SenderState
  | .enqueueSupervise =>
      if s.main = .enqueueSupervise then
        { s with main := .init }.poolStep size (.push mainCaller .supervise)
      else none
  | .init =>
      if s.main = .init ∧ mainCaller ∉ s.pool.notifying then
        some { s with main := .enqueue 0, settings := .live }
      else none
  | .enqueueRun =>
      match s.main with
      | .enqueue next =>
          if next < n then
            { s with main := .enqueue (next + 1) }.poolStep size (.push mainCaller (.run next))
          else none
      | _ => none
  | .destory =>
      if s.main = .enqueue n ∧ mainCaller ∉ s.pool.notifying then
        some { s with main := .waiting, settings := .released }
      else none
  | .notify woken => s.poolStep size (.notify mainCaller woken)
  | .test worker => s.poolStep size (.test worker)
  | .wake worker => s.poolStep size (.wake worker)
  | .call worker => s.poolStep size (.call worker)
  | .createFails worker =>
      match s.pool.workers worker with
      | .running task => if worker < size ∧ s.Pending task then some (s.pass task) else none
      | _ => none
  | .readLevel worker =>
      match s.pool.workers worker with
      | .running task =>
          if worker < size ∧ s.Pending task then
            some { s.pass task with reads := s.reads ++ [s.settings] }
          else none
      | _ => none
  | .finish worker =>
      match s.pool.workers worker with
      | .running task => if s.Pending task then none else s.poolStep size (.finish worker)
      | _ => none

/-- The sender with `n` slices and a pool of `size` workers. -/
def senderSystem (n size : ℕ) : TransitionSystem SenderState SenderAction where
  init := ⟨ThreadPool.initial Job, .enqueueSupervise, .unset, [], []⟩
  step := senderStep n size

/-- Every reading of `c_level` came behind `Init` and before `Destory`. -/
def ReadInTime (s : SenderState) : Prop := ∀ settings ∈ s.reads, settings = .live

/-- The step that goes wrong: the release, while a task has still to read. -/
def ReleasedEarly (s : SenderState) (a : SenderAction) : Prop :=
  a = .destory ∧ ∃ task, s.Pending task

/-! ## What a step does -/

/-- The steps of the pool that can happen while `main` waits or enqueues. -/
def Admitted (s : SenderState) : ThreadPool.Action Job → Prop
  | .finish worker => ∀ task, s.pool.workers worker = .running task → ¬ s.Pending task
  | .stop | .notifyAll | .join => False
  | _ => True

/-- The steps of the sender, one constructor for each thing that can happen. -/
inductive SenderNext (n size : ℕ) (s : SenderState) : SenderAction → SenderState → Prop
  | supervise {pool : ThreadPool.State Job} (hmain : s.main = .enqueueSupervise)
      (hpool : Next size s.pool (.push mainCaller .supervise) pool) :
      SenderNext n size s .enqueueSupervise { s with main := .init, pool := pool }
  | init (hmain : s.main = .init) :
      SenderNext n size s .init { s with main := .enqueue 0, settings := .live }
  | run {next : ℕ} {pool : ThreadPool.State Job} (hmain : s.main = .enqueue next) (hlt : next < n)
      (hpool : Next size s.pool (.push mainCaller (.run next)) pool) :
      SenderNext n size s .enqueueRun { s with main := .enqueue (next + 1), pool := pool }
  | destory : SenderNext n size s .destory { s with main := .waiting, settings := .released }
  | pool {a : SenderAction} {action : ThreadPool.Action Job} {pool : ThreadPool.State Job}
      (hpool : Next size s.pool action pool) (hadmitted : Admitted s action)
      (hpush : ∀ caller job, action ≠ .push caller job) :
      SenderNext n size s a { s with pool := pool }
  | createFails {worker task : ℕ} : SenderNext n size s (.createFails worker) (s.pass task)
  | readLevel {worker task : ℕ} (hworker : worker < size) (hpending : s.Pending task) :
      SenderNext n size s (.readLevel worker)
        { s.pass task with reads := s.reads ++ [s.settings] }

section Next

variable {n size : ℕ} {s s' : SenderState}

theorem senderNext_of_poolStep {a : SenderAction} {action : ThreadPool.Action Job}
    (h : s.poolStep size action = some s') (hadmitted : Admitted s action)
    (hpush : ∀ caller job, action ≠ .push caller job) : SenderNext n size s a s' := by
  obtain ⟨pool, hpool, rfl⟩ := Option.map_eq_some_iff.mp h
  exact .pool (next_of_poolStep hpool) hadmitted hpush

theorem senderNext_of_step {a : SenderAction} (h : senderStep n size s a = some s') :
    SenderNext n size s a s' := by
  cases a with
  | enqueueSupervise =>
      obtain ⟨hmain, hpush⟩ := Option.ite_none_right_eq_some.mp h
      obtain ⟨pool, hpool, rfl⟩ := Option.map_eq_some_iff.mp hpush
      exact .supervise hmain (next_of_poolStep hpool)
  | init =>
      obtain ⟨⟨hmain, -⟩, heq⟩ := Option.ite_none_right_eq_some.mp h
      cases heq
      exact .init hmain
  | enqueueRun =>
      unfold senderStep at h
      cases hmain : s.main with
      | enqueue next =>
          simp only [hmain] at h
          obtain ⟨hlt, hpush⟩ := Option.ite_none_right_eq_some.mp h
          obtain ⟨pool, hpool, rfl⟩ := Option.map_eq_some_iff.mp hpush
          exact .run hmain hlt (next_of_poolStep hpool)
      | _ => simp [hmain] at h
  | destory =>
      obtain ⟨-, heq⟩ := Option.ite_none_right_eq_some.mp h
      cases heq
      exact .destory
  | notify woken => exact senderNext_of_poolStep h trivial (by simp)
  | test worker => exact senderNext_of_poolStep h trivial (by simp)
  | wake worker => exact senderNext_of_poolStep h trivial (by simp)
  | call worker => exact senderNext_of_poolStep h trivial (by simp)
  | createFails worker =>
      unfold senderStep at h
      cases hvalue : s.pool.workers worker with
      | running task =>
          simp only [hvalue] at h
          obtain ⟨-, heq⟩ := Option.ite_none_right_eq_some.mp h
          cases heq
          exact .createFails
      | _ => simp [hvalue] at h
  | readLevel worker =>
      unfold senderStep at h
      cases hvalue : s.pool.workers worker with
      | running task =>
          simp only [hvalue] at h
          obtain ⟨⟨hworker, hpending⟩, heq⟩ := Option.ite_none_right_eq_some.mp h
          cases heq
          exact .readLevel hworker hpending
      | _ => simp [hvalue] at h
  | finish worker =>
      unfold senderStep at h
      cases hvalue : s.pool.workers worker with
      | running task =>
          simp only [hvalue] at h
          obtain ⟨hdone, heq⟩ := Option.ite_none_left_eq_some.mp h
          refine senderNext_of_poolStep heq ?_ (by simp)
          intro other hrunning
          rw [hvalue] at hrunning
          cases hrunning
          exact hdone
      | _ => simp [hvalue] at h

end Next

/-! ## The invariant -/

/-- The settings are there for every task that has still to read them. -/
structure SettingsHeld (s : SenderState) : Prop where
  read_in_time : ReadInTime s
  unset : s.settings = .unset → s.main = .enqueueSupervise ∨ s.main = .init
  nothing_pushed : s.main = .enqueueSupervise ∨ s.main = .init → ∀ task, ¬ s.Pending task
  released : s.settings = .released → s.main = .waiting ∧ ∀ task, ¬ s.Pending task

section Steps

variable {n size : ℕ} {s s' : SenderState}

/-- What a push does to the pending tasks. -/
theorem pending_push {task caller : ℕ} {job : Job}
    (h : ({ s with pool := s.pool.push caller job } : SenderState).Pending task) :
    s.Pending task ∨ task = s.pool.pushed.length ∧ ∃ index, job = .run index := by
  obtain ⟨⟨index, hjob⟩, hfresh⟩ := h
  change (s.pool.pushed ++ [job])[task]? = some (.run index) at hjob
  rcases Nat.lt_or_ge task s.pool.pushed.length with hlt | hge
  · rw [List.getElem?_append_left hlt] at hjob
    exact Or.inl ⟨⟨index, hjob⟩, hfresh⟩
  · rw [List.getElem?_append_right hge] at hjob
    obtain ⟨hlt, heq⟩ := List.getElem?_eq_some_iff.mp hjob
    rw [List.length_singleton] at hlt
    refine Or.inr ⟨by omega, index, ?_⟩
    rw [← heq, List.getElem_singleton]

/-- The other steps of the pool enqueue nothing. -/
theorem pushed_of_next {pool pool' : ThreadPool.State Job} {action : ThreadPool.Action Job}
    (h : Next size pool action pool') (hpush : ∀ caller job, action ≠ .push caller job) :
    pool'.pushed = pool.pushed := by
  cases h with
  | push job => exact absurd rfl (hpush _ job)
  | _ => rfl

/-- A step of the pool that enqueues nothing. -/
theorem SettingsHeld.next (hs : SettingsHeld s) {action : ThreadPool.Action Job}
    {pool : ThreadPool.State Job} (h : Next size s.pool action pool)
    (hpush : ∀ caller job, action ≠ .push caller job) : SettingsHeld { s with pool := pool } := by
  have hsame : ∀ task, ({ s with pool := pool } : SenderState).Pending task → s.Pending task := by
    rintro task ⟨hjob, hfresh⟩
    rw [pushed_of_next h hpush] at hjob
    exact ⟨hjob, hfresh⟩
  exact ⟨hs.read_in_time, hs.unset,
    fun hearly task h => hs.nothing_pushed hearly task (hsame task h),
    fun hreleased => ⟨(hs.released hreleased).1,
      fun task h => (hs.released hreleased).2 task (hsame task h)⟩⟩

/-- A task gets past the reading. -/
theorem pending_pass {task other : ℕ} (h : (s.pass task).Pending other) : s.Pending other :=
  ⟨h.1, fun hmem => h.2 (List.mem_cons_of_mem _ hmem)⟩

theorem SettingsHeld.pass (hs : SettingsHeld s) (task : ℕ) : SettingsHeld (s.pass task) :=
  ⟨hs.read_in_time, hs.unset, fun hearly other h => hs.nothing_pushed hearly other (pending_pass h),
    fun hreleased => ⟨(hs.released hreleased).1,
      fun other h => (hs.released hreleased).2 other (pending_pass h)⟩⟩

/-- Where there is a task that has still to read, the settings are there. -/
theorem SettingsHeld.live (hs : SettingsHeld s) {task : ℕ} (hpending : s.Pending task) :
    s.settings = .live := by
  cases hcase : s.settings with
  | unset => exact absurd hpending (hs.nothing_pushed (hs.unset hcase) task)
  | live => rfl
  | released => exact absurd hpending ((hs.released hcase).2 task)

/-- **Every step keeps the order, unless it releases the settings early.** -/
theorem SettingsHeld.step (hs : SettingsHeld s) {a : SenderAction} (hintime : ¬ ReleasedEarly s a)
    (h : senderStep n size s a = some s') : SettingsHeld s' := by
  -- while `main` is busy, nothing has been released
  have hbusy : s.main ≠ .waiting → s.settings ≠ .released :=
    fun hmain hreleased => hmain (hs.released hreleased).1
  cases senderNext_of_step h with
  | supervise hmain hpool =>
      cases hpool with
      | push job hopen hcaller =>
          have hheld := hbusy (by rw [hmain]; exact MainPc.noConfusion)
          refine ⟨hs.read_in_time, fun _ => Or.inr rfl, fun _ task hpending => ?_,
            fun hreleased => absurd hreleased hheld⟩
          rcases pending_push hpending with hold | ⟨-, index, hrun⟩
          · exact hs.nothing_pushed (Or.inl hmain) task hold
          · cases hrun
  | init hmain =>
      refine ⟨hs.read_in_time, ?_, ?_, ?_⟩
      · intro hunset
        cases hunset
      · intro hearly
        simp at hearly
      · intro hreleased
        cases hreleased
  | run hmain hlt hpool =>
      have hheld := hbusy (by rw [hmain]; exact MainPc.noConfusion)
      refine ⟨hs.read_in_time, fun hunset => ?_, fun hearly => ?_,
        fun hreleased => absurd hreleased hheld⟩
      · have hbefore := hs.unset hunset
        simp [hmain] at hbefore
      · simp at hearly
  | destory =>
      refine ⟨hs.read_in_time, ?_, ?_, ?_⟩
      · intro hunset
        cases hunset
      · intro hearly
        simp at hearly
      · exact fun _ => ⟨rfl, fun task hpending => hintime ⟨rfl, task, hpending⟩⟩
  | pool hpool hadmitted hpush => exact hs.next hpool hpush
  | createFails => exact hs.pass _
  | @readLevel worker task hworker hpending =>
      obtain ⟨-, hunset, hearly, hreleased⟩ := hs.pass task
      refine ⟨fun settings hmem => ?_, hunset, hearly, hreleased⟩
      rcases List.mem_append.mp hmem with hold | hnew
      · exact hs.read_in_time settings hold
      · rw [List.mem_singleton.mp hnew]
        exact hs.live hpending

/-! ## The late reading -/

/-- A pending task is in the queue or with a worker, and the workers are still there. -/
structure Located (size : ℕ) (s : SenderState) : Prop where
  going : s.pool.stop = false
  alive : ∀ worker < size, s.pool.workers worker ≠ .exited
  placed : ∀ task, s.Pending task → task ∈ s.pool.tasks ∨ ∃ worker < size,
    s.pool.workers worker = .holding task ∨ s.pool.workers worker = .running task

/-- A worker that has no pending task changes its place. -/
theorem Located.setWorker (hs : Located size s) {worker : ℕ} {value : Worker}
    (hvalue : value ≠ .exited)
    (hfree : ∀ task, s.Pending task → s.pool.workers worker ≠ .holding task ∧
      s.pool.workers worker ≠ .running task) :
    Located size { s with pool := s.pool.setWorker worker value } := by
  refine ⟨hs.going, fun other hother => ?_, fun task hpending => ?_⟩
  · by_cases hsame : other = worker
    · show (s.pool.setWorker worker value).workers other ≠ .exited
      rwa [hsame, State.setWorker_self]
    · show (s.pool.setWorker worker value).workers other ≠ .exited
      rw [State.setWorker_of_ne _ _ hsame]
      exact hs.alive other hother
  · rcases hs.placed task hpending with hqueued | ⟨other, hother, hvalue⟩
    · exact Or.inl hqueued
    · have hsame : other ≠ worker := by
        rintro rfl
        exact hvalue.elim (hfree task hpending).1 (hfree task hpending).2
      refine Or.inr ⟨other, hother, ?_⟩
      show (s.pool.setWorker worker value).workers other = _ ∨
        (s.pool.setWorker worker value).workers other = _
      rwa [State.setWorker_of_ne _ _ hsame]

/-- A worker that is between two tasks has none. -/
theorem free_of_eq {worker : ℕ} {value : Worker} (hworker : s.pool.workers worker = value)
    (hvalue : value = .testing ∨ value = .asleep) (task : ℕ) (_ : s.Pending task) :
    s.pool.workers worker ≠ .holding task ∧ s.pool.workers worker ≠ .running task := by
  rw [hworker]
  rcases hvalue with rfl | rfl
  · exact ⟨Worker.noConfusion, Worker.noConfusion⟩
  · exact ⟨Worker.noConfusion, Worker.noConfusion⟩

theorem Located.next (hs : Located size s) {action : ThreadPool.Action Job}
    {pool : ThreadPool.State Job} (h : Next size s.pool action pool)
    (hadmitted : Admitted s action) : Located size { s with pool := pool } := by
  cases h with
  | push job hopen hcaller =>
      refine ⟨hs.going, hs.alive, fun task hpending => ?_⟩
      show task ∈ s.pool.tasks ++ [s.pool.pushed.length] ∨ _
      rcases pending_push hpending with hold | ⟨rfl, -⟩
      · exact (hs.placed task hold).imp_left (List.mem_append_left _)
      · exact Or.inl (List.mem_append_right _ (List.mem_singleton_self _))
  | notifyLost hcaller hawake => exact ⟨hs.going, hs.alive, hs.placed⟩
  | @notifyOne caller worker hcaller hworker hasleep =>
      have hleave : Located size { s with pool := s.pool.leave caller } :=
        ⟨hs.going, hs.alive, hs.placed⟩
      exact hleave.setWorker Worker.noConfusion (free_of_eq hasleep (Or.inr rfl))
  | sleep hworker htesting hempty hgoing =>
      exact hs.setWorker Worker.noConfusion (free_of_eq htesting (Or.inl rfl))
  | exit hworker htesting hempty hstopped =>
      rw [hs.going] at hstopped
      cases hstopped
  | @take worker task rest hworker htesting htasks =>
      have hset : Located size { s with pool := s.pool.setWorker worker (.holding task) } :=
        hs.setWorker Worker.noConfusion (free_of_eq htesting (Or.inl rfl))
      refine ⟨hs.going, hset.alive, fun other hpending => ?_⟩
      rcases hset.placed other hpending with hqueued | hworker
      · rw [show (s.pool.setWorker worker (.holding task)).tasks = task :: rest from htasks]
          at hqueued
        rcases List.mem_cons.mp hqueued with rfl | hlater
        · exact Or.inr ⟨worker, hworker, Or.inl (State.setWorker_self _ _)⟩
        · exact Or.inl hlater
      · exact Or.inr hworker
  | wake hworker hasleep =>
      exact hs.setWorker Worker.noConfusion (free_of_eq hasleep (Or.inr rfl))
  | @call worker task hworker hholding =>
      refine ⟨hs.going, fun other hother => ?_, fun other hpending => ?_⟩
      · show (s.pool.setWorker worker (.running task)).workers other ≠ .exited
        by_cases hsame : other = worker
        · rw [hsame, State.setWorker_self]
          exact Worker.noConfusion
        · rw [State.setWorker_of_ne _ _ hsame]
          exact hs.alive other hother
      · rcases hs.placed other hpending with hqueued | ⟨holder, hholder, hvalue⟩
        · exact Or.inl hqueued
        · refine Or.inr ⟨holder, hholder, ?_⟩
          show (s.pool.setWorker worker (.running task)).workers holder = _ ∨
            (s.pool.setWorker worker (.running task)).workers holder = _
          by_cases hsame : holder = worker
          · -- the task it was called with is the one it held
            rw [hsame, hholding] at hvalue
            rw [hsame, State.setWorker_self]
            rcases hvalue with heq | heq
            · cases heq
              exact Or.inr rfl
            · cases heq
          · rwa [State.setWorker_of_ne _ _ hsame]
  | @finish worker task hworker hrunning =>
      refine hs.setWorker Worker.noConfusion ?_
      intro other hpending
      rw [hrunning]
      refine ⟨Worker.noConfusion, fun heq => ?_⟩
      cases heq
      exact hadmitted task hrunning hpending
  | stop hopen => exact hadmitted.elim
  | notifyAll hstopped => exact hadmitted.elim
  | join hnotified hexited => exact hadmitted.elim

theorem Located.pass (hs : Located size s) (task : ℕ) : Located size (s.pass task) :=
  ⟨hs.going, hs.alive, fun other hpending => hs.placed other (pending_pass hpending)⟩

theorem Located.step (hs : Located size s) {a : SenderAction}
    (h : senderStep n size s a = some s') : Located size s' := by
  cases senderNext_of_step h with
  | supervise hmain hpool =>
      have hinit : Located size { s with main := .init } := ⟨hs.going, hs.alive, hs.placed⟩
      exact hinit.next hpool trivial
  | init hmain => exact ⟨hs.going, hs.alive, hs.placed⟩
  | @run next pool hmain hlt hpool =>
      have hnext : Located size { s with main := .enqueue (next + 1) } :=
        ⟨hs.going, hs.alive, hs.placed⟩
      exact hnext.next hpool trivial
  | destory => exact ⟨hs.going, hs.alive, hs.placed⟩
  | pool hpool hadmitted hpush => exact hs.next hpool hadmitted
  | createFails => exact hs.pass _
  | @readLevel worker task hworker hpending =>
      have hpassed := hs.pass task
      exact ⟨hpassed.going, hpassed.alive, hpassed.placed⟩

theorem located_of_reachable (hreach : (senderSystem n size).Reachable s) : Located size s := by
  refine hreach.invariant ?_ fun _ _ _ hs hstep => hs.step hstep
  refine ⟨rfl, fun _ _ => Worker.noConfusion, fun task hpending => ?_⟩
  obtain ⟨⟨index, hjob⟩, -⟩ := hpending
  cases hjob

/-- Some schedule from here on reads released settings. -/
abbrev Doomed (n size : ℕ) (s : SenderState) : Prop :=
  (senderSystem n size).Leads (fun s' => ¬ ReadInTime s') s

/-- A worker is about to read. -/
theorem doomed_of_running {worker task : ℕ} (hreleased : s.settings = .released)
    (hworker : worker < size) (hrunning : s.pool.workers worker = .running task)
    (hpending : s.Pending task) : Doomed n size s := by
  have hstep : (senderSystem n size).step s (.readLevel worker) =
      some { s.pass task with reads := s.reads ++ [s.settings] } := by
    show senderStep n size s (.readLevel worker) = _
    simp only [senderStep, hrunning]
    exact if_pos ⟨hworker, hpending⟩
  refine Leads.of_step (.refl fun hintime => ?_) hstep
  have hlive := hintime s.settings (List.mem_append_right _ (List.mem_singleton_self _))
  rw [hreleased] at hlive
  cases hlive

theorem step_call {worker task : ℕ} (hworker : worker < size)
    (hholding : s.pool.workers worker = .holding task) :
    (senderSystem n size).step s (.call worker) =
      some { s with pool := s.pool.call worker task } := by
  have hpool : ThreadPool.poolStep size s.pool (.call worker) =
      some (s.pool.call worker task) := by
    simp only [ThreadPool.poolStep, hholding]
    exact if_pos hworker
  show s.poolStep size (.call worker) = _
  rw [SenderState.poolStep, hpool]
  rfl

theorem doomed_of_holding {worker task : ℕ} (hreleased : s.settings = .released)
    (hworker : worker < size) (hholding : s.pool.workers worker = .holding task)
    (hpending : s.Pending task) : Doomed n size s := by
  have hdoomed : Doomed n size { s with pool := s.pool.call worker task } :=
    doomed_of_running hreleased hworker (State.setWorker_self s.pool (.running task)) hpending
  exact hdoomed.of_step (step_call hworker hholding)

/-- The worker is done with a task that has nothing to read any more. -/
theorem step_finish {worker task : ℕ} (hworker : worker < size)
    (hrunning : s.pool.workers worker = .running task) (hdone : ¬ s.Pending task) :
    (senderSystem n size).step s (.finish worker) =
      some { s with pool := s.pool.setWorker worker .testing } := by
  have hpool : ThreadPool.poolStep size s.pool (.finish worker) =
      some (s.pool.setWorker worker .testing) := by
    simp only [ThreadPool.poolStep, hrunning]
    exact if_pos hworker
  show senderStep n size s (.finish worker) = _
  simp only [senderStep, hrunning]
  rw [if_neg hdone, SenderState.poolStep, hpool]
  rfl

/-- A worker that tests goes on taking tasks until it has one that is to read.  The
induction is on the queue. -/
theorem doomed_of_testing {worker : ℕ} (hworker : worker < size) {queue : List ℕ} :
    ∀ {s : SenderState}, s.settings = .released → s.pool.tasks = queue →
      s.pool.workers worker = .testing → (∃ task ∈ queue, s.Pending task) → Doomed n size s := by
  induction queue with
  | nil =>
      rintro s - - - ⟨task, hmem, -⟩
      cases hmem
  | cons task rest ih =>
      intro s hreleased htasks htesting hpending
      have htake : (senderSystem n size).step s (.test worker) =
          some { s with pool := s.pool.take worker task rest } := by
        have hpool : ThreadPool.poolStep size s.pool (.test worker) =
            some (s.pool.take worker task rest) := by
          rw [ThreadPool.poolStep, if_pos ⟨hworker, htesting⟩, testStep, htasks]
        show s.poolStep size (.test worker) = _
        rw [SenderState.poolStep, hpool]
        rfl
      have hholding : (s.pool.take worker task rest).workers worker = .holding task :=
        State.setWorker_self s.pool (.holding task)
      refine Leads.of_step ?_ htake
      by_cases hnow : s.Pending task
      · exact doomed_of_holding hreleased hworker hholding hnow
      · -- nothing to read for this one: it is called, ends, and the next test follows
        have hcall := step_call (n := n)
          (s := { s with pool := s.pool.take worker task rest }) hworker hholding
        have hfinish := step_finish (n := n)
          (s := { s with pool := (s.pool.take worker task rest).call worker task }) hworker
          (State.setWorker_self (s.pool.take worker task rest) (.running task)) hnow
        refine Leads.of_step (Leads.of_step ?_ hfinish) hcall
        refine ih hreleased rfl (State.setWorker_self _ .testing) ?_
        obtain ⟨other, hmem, hother⟩ := hpending
        rcases List.mem_cons.mp hmem with rfl | hlater
        · exact absurd hother hnow
        · exact ⟨other, hlater, hother⟩

/-- Wherever a worker is, it gets to the next test or reads before. -/
theorem doomed_of_queued (hs : Located size s) (hpos : 0 < size) {task : ℕ}
    (hreleased : s.settings = .released) (hmem : task ∈ s.pool.tasks) (hpending : s.Pending task) :
    Doomed n size s := by
  have hrunning : ∀ {s : SenderState} {other : ℕ}, s.settings = .released →
      task ∈ s.pool.tasks → s.Pending task → s.pool.workers 0 = .running other →
        Doomed n size s := by
    intro s other hreleased hmem hpending hrunning
    by_cases hnow : s.Pending other
    · exact doomed_of_running hreleased hpos hrunning hnow
    · refine Leads.of_step ?_ (step_finish hpos hrunning hnow)
      exact doomed_of_testing hpos hreleased rfl (State.setWorker_self _ .testing)
        ⟨task, hmem, hpending⟩
  cases hvalue : s.pool.workers 0 with
  | testing => exact doomed_of_testing hpos hreleased rfl hvalue ⟨task, hmem, hpending⟩
  | asleep =>
      have hwake : (senderSystem n size).step s (.wake 0) =
          some { s with pool := s.pool.setWorker 0 .testing } := by
        show s.poolStep size (.wake 0) = _
        rw [SenderState.poolStep, ThreadPool.poolStep, if_pos ⟨hpos, hvalue⟩]
        rfl
      refine Leads.of_step ?_ hwake
      exact doomed_of_testing hpos hreleased rfl (State.setWorker_self _ .testing)
        ⟨task, hmem, hpending⟩
  | holding other =>
      by_cases hnow : s.Pending other
      · exact doomed_of_holding hreleased hpos hvalue hnow
      · refine Leads.of_step ?_ (step_call hpos hvalue)
        have hnext : (s.pool.call 0 other).workers 0 = .running other := by
          show (s.pool.setWorker 0 (.running other)).workers 0 = .running other
          exact State.setWorker_self ..
        exact hrunning (s := { s with pool := s.pool.call 0 other }) hreleased hmem hpending hnext
  | running other => exact hrunning hreleased hmem hpending hvalue
  | exited => exact absurd hvalue (hs.alive 0 hpos)

/-- **After an early release the reading can always still happen.** -/
theorem doomed_of_releasedEarly (hpos : 0 < size) (hreach : (senderSystem n size).Reachable s)
    {a : SenderAction} (hstep : (senderSystem n size).step s a = some s')
    (hearly : ReleasedEarly s a) : Doomed n size s' := by
  have hlocated := located_of_reachable (hreach.next hstep)
  obtain ⟨rfl, task, hpending⟩ := hearly
  obtain ⟨-, heq⟩ := Option.ite_none_right_eq_some.mp hstep
  cases heq
  rcases hlocated.placed task hpending with hqueued | ⟨worker, hworker, hholding | hrunning⟩
  · exact doomed_of_queued hlocated hpos rfl hqueued hpending
  · exact doomed_of_holding rfl hworker hholding hpending
  · exact doomed_of_running rfl hworker hrunning hpending

/-! ## The runs without an early release -/

/-- **Without an early release every reading is in time.** -/
theorem readInTime_of_reachableVia
    (hreach : (senderSystem n size).ReachableVia (fun s a => ¬ ReleasedEarly s a) s) :
    ReadInTime s := by
  have hs : SettingsHeld s := by
    refine hreach.invariant ?_ fun _ _ _ hs hintime hstep => hs.step hintime hstep
    refine ⟨?_, fun _ => Or.inl rfl, ?_, ?_⟩
    · intro settings hmem
      cases hmem
    · rintro - task ⟨⟨index, hjob⟩, -⟩
      cases hjob
    · intro hreleased
      cases hreleased
  exact hs.read_in_time

/-- Without slices there is no task that reads. -/
theorem not_pending_of_reachable (hreach : (senderSystem 0 size).Reachable s) (task : ℕ) :
    ¬ s.Pending task := by
  revert task
  refine hreach.invariant (I := fun s => ∀ task, ¬ s.Pending task) ?_ ?_
  · rintro task ⟨⟨index, hjob⟩, -⟩
    cases hjob
  · intro s a s' hs hstep task hpending
    cases senderNext_of_step hstep with
    | supervise hmain hpool =>
        cases hpool with
        | push job hopen hcaller =>
            rcases pending_push hpending with hold | ⟨-, index, hrun⟩
            · exact hs task hold
            · cases hrun
    | run hmain hlt hpool => exact absurd hlt (Nat.not_lt_zero _)
    | pool hpool hadmitted hpush =>
        obtain ⟨hjob, hfresh⟩ := hpending
        rw [pushed_of_next hpool hpush] at hjob
        exact hs task ⟨hjob, hfresh⟩
    | init | destory => exact hs task hpending
    | createFails | readLevel => exact hs task (pending_pass hpending)

/-- Without workers nothing is read. -/
theorem reads_of_reachable (hreach : (senderSystem n 0).Reachable s) : s.reads = [] := by
  refine hreach.invariant (I := fun s => s.reads = []) rfl ?_
  intro s a s' hs hstep
  cases senderNext_of_step hstep with
  | readLevel hworker hpending => exact absurd hworker (Nat.not_lt_zero _)
  | _ => exact hs

/-! ## A run with an early release -/

/-- No worker has tested yet, and no call of `enqueue` is going on. -/
structure Fresh (pool : ThreadPool.State Job) : Prop where
  going : pool.destructor = .notStarted
  returned : mainCaller ∉ pool.notifying
  testing : ∀ worker, pool.workers worker = .testing

/-- What a call of `enqueue` has done when it returns. -/
def enqueued (pool : ThreadPool.State Job) (job : Job) : ThreadPool.State Job :=
  (pool.push mainCaller job).leave mainCaller

theorem Fresh.enqueued {pool : ThreadPool.State Job} (h : Fresh pool) (job : Job) :
    Fresh (enqueued pool job) :=
  ⟨h.going, Finset.notMem_erase _ _, h.testing⟩

/-- A call of `enqueue` by `main`. -/
theorem leads_of_enqueue {P : SenderState → Prop} {main : MainPc} {job : Job} {a : SenderAction}
    (hfresh : Fresh s.pool)
    (hcall : senderStep n size s a = { s with main := main }.poolStep size (.push mainCaller job))
    (h : (senderSystem n size).Leads P { s with main := main, pool := enqueued s.pool job }) :
    (senderSystem n size).Leads P s := by
  have hpush : (senderSystem n size).step s a =
      some { s with main := main, pool := s.pool.push mainCaller job } := by
    refine hcall.trans ?_
    rw [SenderState.poolStep, ThreadPool.poolStep, if_pos ⟨hfresh.going, hfresh.returned⟩]
    rfl
  have hnotify : (senderSystem n size).step
      { s with main := main, pool := s.pool.push mainCaller job } (.notify none) =
        some { s with main := main, pool := enqueued s.pool job } := by
    have hawake : ∀ worker < size, (s.pool.push mainCaller job).workers worker ≠ .asleep := by
      intro worker _
      show s.pool.workers worker ≠ .asleep
      rw [hfresh.testing worker]
      exact Worker.noConfusion
    have hmem : mainCaller ∈ (s.pool.push mainCaller job).notifying := Finset.mem_insert_self _ _
    have hpool : ThreadPool.poolStep size (s.pool.push mainCaller job) (.notify mainCaller none) =
        some (enqueued s.pool job) := by
      rw [ThreadPool.poolStep, if_pos hmem]
      exact if_pos hawake
    show (ThreadPool.poolStep size _ _).map _ = _
    rw [hpool]
    rfl
  exact (h.of_step hnotify).of_step hpush

/-- `main` has enqueued `k` slices, and no worker has done anything. -/
structure Enqueued (k : ℕ) (s : SenderState) : Prop where
  main : s.main = .enqueue k
  fresh : Fresh s.pool
  passed : s.passed = []
  pushed : 0 < k → ∃ index, .run index ∈ s.pool.pushed

theorem leads_enqueued : ∀ k ≤ n,
    (senderSystem n size).Leads (Enqueued k) (senderSystem n size).init := by
  intro k
  induction k with
  | zero =>
      intro _
      obtain ⟨s, hs⟩ : ∃ s, s = (senderSystem n size).init := ⟨_, rfl⟩
      have hfresh : Fresh s.pool := by
        rw [hs]
        exact ⟨rfl, Finset.notMem_empty _, fun _ => rfl⟩
      have hmain : s.main = .enqueueSupervise := by rw [hs]; rfl
      have hpassed : s.passed = [] := by rw [hs]; rfl
      have hcall : senderStep n size s .enqueueSupervise =
          { s with main := .init }.poolStep size (.push mainCaller .supervise) :=
        if_pos hmain
      have hinit : (senderSystem n size).step
          { s with main := .init, pool := enqueued s.pool .supervise } .init = some { s with
            main := .enqueue 0
            pool := enqueued s.pool .supervise
            settings := .live } :=
        if_pos ⟨rfl, (hfresh.enqueued .supervise).returned⟩
      rw [← hs]
      refine leads_of_enqueue hfresh hcall (Leads.of_step (.refl ?_) hinit)
      exact ⟨rfl, hfresh.enqueued .supervise, hpassed, fun hpos => absurd hpos (lt_irrefl 0)⟩
  | succ k ih =>
      intro hk
      refine (ih (Nat.le_of_succ_le hk)).trans fun s hs => ?_
      have hcall : senderStep n size s .enqueueRun =
          { s with main := .enqueue (k + 1) }.poolStep size (.push mainCaller (.run k)) := by
        simp only [senderStep, hs.main]
        exact if_pos hk
      refine leads_of_enqueue hs.fresh hcall (.refl ⟨rfl, hs.fresh.enqueued _, hs.passed, ?_⟩)
      exact fun _ => ⟨k, List.mem_append_right _ (List.mem_singleton_self _)⟩

/-- `main` can always release the settings before a worker has taken anything. -/
theorem exists_releasedEarly (size : ℕ) (hslices : 0 < n) :
    ∃ s s', (senderSystem n size).Reachable s ∧ (senderSystem n size).step s .destory = some s' ∧
      ReleasedEarly s .destory := by
  obtain ⟨s, hreach, hs⟩ := (leads_enqueued n (le_refl n)).exists_reachable
    (Reachable.init (senderSystem n size))
  obtain ⟨index, hmem⟩ := hs.pushed hslices
  obtain ⟨task, htask⟩ := List.mem_iff_getElem?.mp hmem
  refine ⟨s, _, hreach, if_pos ⟨hs.main, hs.fresh.returned⟩, rfl, task, ⟨index, htask⟩, ?_⟩
  rw [hs.passed]
  exact List.not_mem_nil

end Steps

/-! ## The result -/

/-- **The settings outlive every reading only where nothing is read**: with a slice and a
worker some run reads `c_level` behind `Destory`. -/
theorem settings_outlive_iff (n size : ℕ) :
    (∀ s, (senderSystem n size).Reachable s → ReadInTime s) ↔ n = 0 ∨ size = 0 := by
  constructor
  · intro hintime
    by_contra hsome
    obtain ⟨hslices, hworkers⟩ := not_or.mp hsome
    obtain ⟨s, s', hreach, hstep, hearly⟩ :=
      exists_releasedEarly size (Nat.pos_of_ne_zero hslices)
    obtain ⟨last, hlast, hlate⟩ :=
      (doomed_of_releasedEarly (Nat.pos_of_ne_zero hworkers) hreach hstep hearly).exists_reachable
        (hreach.next hstep)
    exact hlate (hintime last hlast)
  · rintro (rfl | rfl) s hreach
    · -- no task, so no release is early
      have hintime : ∀ {s}, (senderSystem 0 size).Reachable s →
          (senderSystem 0 size).ReachableVia (fun s a => ¬ ReleasedEarly s a) s := by
        intro s hs
        induction hs with
        | init => exact .init
        | step hs _ hstep ih =>
            exact .step ih (fun hearly => hearly.2.elim (not_pending_of_reachable hs)) hstep
      exact readInTime_of_reachableVia (hintime hreach)
    · intro settings hmem
      rw [reads_of_reachable hreach] at hmem
      cases hmem

/-- One slice: `main` enqueues it and releases the settings, and only then a worker takes
the task. -/
theorem settings_released_early :
    ¬ ∀ s, (senderSystem 1 2).Reachable s → ReadInTime s := by
  intro hintime
  have hrun : ((senderSystem 1 2).run [.enqueueSupervise, .notify none, .init, .enqueueRun,
      .notify none, .destory, .test 0, .test 1, .call 1, .readLevel 1]
        (senderSystem 1 2).init).map SenderState.reads = some [.released] := by
    decide
  obtain ⟨s, hs, hreads⟩ := Option.map_eq_some_iff.mp hrun
  have hlate := hintime s (TransitionSystem.reachable_of_run hs) .released (by
    rw [hreads]
    exact List.mem_singleton_self _)
  cases hlate

end SliceTransfer.SendingFlow
