import SliceTransfer.Pool.Conservation
import SliceTransfer.Pool.WakeUps
import SliceTransfer.Lib.Crew

/-!
# Jobs on the thread pool

`ThreadPool.lean` says nothing about what a task does while `task()` runs.  Here the tasks
are the jobs of a system `sys`, and a worker inside `task()` makes their steps; `task()`
returns when its job has ended.  The destructor is not run.

Such a pool is a crew (`crew_of_service`): a push is an `accept`, the critical section that
takes a task is a `take`, the return of `task()` is a `leave`, and everything else, the
notifications and the sleeping included, is invisible.  So what the crew never does the
pool never does.  And since no wake-up is lost, a pool that has nothing left to do is a
crew that has nothing left to do (`settled_of_service`).
-/

namespace SliceTransfer.ThreadPool

open TransitionSystem

variable {σ α β : Type}

structure Service (σ : Type) where
  pool : State Unit
  inner : σ

inductive ServiceAction (β : Type)
  | pool (a : Action Unit)
  | work (worker : ℕ) (b : β)
  deriving DecidableEq, Repr

section System

variable (sys : TransitionSystem σ α) (act : ℕ → β → α) (ended : σ → ℕ → Bool)
  (count size : ℕ)

/-- `count` jobs are enqueued, and `task()` returns when its job has ended. -/
def Service.Allows (s : Service σ) : Action Unit → Prop
  | .push _ _ => s.pool.pushed.length < count
  | .finish worker => ∀ job, s.pool.workers worker = .running job → ended s.inner job = true
  | .stop | .notifyAll | .join => False
  | _ => True

instance (s : Service σ) : (a : Action Unit) → Decidable (s.Allows ended count a)
  | .push _ _ => inferInstanceAs (Decidable (_ < count))
  | .finish worker =>
      match hjob : s.pool.workers worker with
      | .running job =>
          decidable_of_iff (ended s.inner job = true) (by simp [Service.Allows, hjob])
      | .testing | .asleep | .holding _ | .exited =>
          isTrue fun job hrunning => by rw [hjob] at hrunning; cases hrunning
  | .stop | .notifyAll | .join => inferInstanceAs (Decidable False)
  | .notify _ _ | .test _ | .wake _ | .call _ => inferInstanceAs (Decidable True)

def serviceStep (s : Service σ) : ServiceAction β → Option (Service σ)
  | .pool a =>
      if s.Allows ended count a then
        (poolStep size s.pool a).map fun pool => { s with pool := pool }
      else none
  | .work worker b =>
      match s.pool.workers worker with
      | .running job =>
          if worker < size then
            (sys.step s.inner (act job b)).map fun inner => { s with inner := inner }
          else none
      | _ => none

/-- The jobs of `sys` on a pool of `size` workers. -/
def service : TransitionSystem (Service σ) (ServiceAction β) where
  init := ⟨initial Unit, sys.init⟩
  step := serviceStep sys act ended count size

end System

/-- The task a worker has, called or not. -/
def Worker.job : Worker → Option ℕ
  | .holding task => some task
  | .running task => some task
  | _ => none

/-- The pool as a crew. -/
def Service.crew (s : Service σ) : CrewState σ where
  accepted := s.pool.pushed.length
  taken := s.pool.taken.length
  held := fun worker => (s.pool.workers worker).job
  inner := s.inner

theorem Service.held_of_running {s : Service σ} {worker job : ℕ}
    (hrunning : s.pool.workers worker = .running job) : s.crew.held worker = some job := by
  show (s.pool.workers worker).job = some job
  rw [hrunning]
  rfl

section Service

variable {sys : TransitionSystem σ α} {act : ℕ → β → α} {ended : σ → ℕ → Bool}
  {count size : ℕ} {s s' : Service σ}

theorem serviceStep_cases {a : ServiceAction β}
    (h : serviceStep sys act ended count size s a = some s') :
    (∃ action pool, a = .pool action ∧ s.Allows ended count action ∧
        poolStep size s.pool action = some pool ∧ s' = { s with pool := pool }) ∨
      ∃ worker b job inner, a = .work worker b ∧ s.pool.workers worker = .running job ∧
        worker < size ∧ sys.step s.inner (act job b) = some inner ∧
        s' = { s with inner := inner } := by
  cases a with
  | pool action =>
      obtain ⟨hallowed, heq⟩ := Option.ite_none_right_eq_some.mp h
      obtain ⟨pool, hpool, rfl⟩ := Option.map_eq_some_iff.mp heq
      exact Or.inl ⟨action, pool, rfl, hallowed, hpool, rfl⟩
  | work worker b =>
      rw [serviceStep] at h
      cases hjob : s.pool.workers worker with
      | running job =>
          simp only [hjob] at h
          obtain ⟨hworker, heq⟩ := Option.ite_none_right_eq_some.mp h
          obtain ⟨inner, hinner, rfl⟩ := Option.map_eq_some_iff.mp heq
          exact Or.inr ⟨worker, b, job, inner, rfl, hjob, hworker, hinner, rfl⟩
      | _ => simp [hjob] at h

/-- Only the jobs that workers run matter for a step. -/
theorem serviceStep_congr {act' : ℕ → β → α} {ended' : σ → ℕ → Bool}
    (hagree : ∀ worker job, s.pool.workers worker = .running job →
      act job = act' job ∧ ended s.inner job = ended' s.inner job) (a : ServiceAction β) :
    serviceStep sys act ended count size s a = serviceStep sys act' ended' count size s a := by
  cases a with
  | pool a =>
      refine if_congr ?_ rfl rfl
      cases a with
      | finish worker =>
          constructor
          · intro hall job hjob
            rw [← (hagree worker job hjob).2]
            exact hall job hjob
          · intro hall job hjob
            rw [(hagree worker job hjob).2]
            exact hall job hjob
      | push _ _ | notify _ _ | test _ | wake _ | call _ | stop | notifyAll | join => exact Iff.rfl
  | work worker b =>
      rw [serviceStep, serviceStep]
      cases hjob : s.pool.workers worker with
      | running job => simp only [(hagree worker job hjob).1]
      | _ => rfl

/-- The pool of a service is a pool. -/
theorem Service.pool_reachable (h : (service sys act ended count size).Reachable s) :
    (poolSystem Unit size).Reachable s.pool := by
  induction h with
  | init => exact Reachable.init _
  | step _ _ hnext ih =>
      rcases serviceStep_cases hnext with
        ⟨action, pool, -, -, hpool, rfl⟩ | ⟨worker, b, job, inner, -, -, -, -, rfl⟩
      · exact ih.next hpool
      · exact ih

/-- The destructor has not been started. -/
theorem Service.open_of_reachable (h : (service sys act ended count size).Reachable s) :
    s.pool.destructor = .notStarted := by
  refine h.invariant (I := fun s => s.pool.destructor = .notStarted) rfl ?_
  intro s a s' hopen hstep
  rcases serviceStep_cases hstep with
    ⟨action, pool, -, hallowed, hpool, rfl⟩ | ⟨worker, b, job, inner, -, -, -, -, rfl⟩
  · cases next_of_poolStep hpool with
    | stop _ => exact hallowed.elim
    | notifyAll _ => exact hallowed.elim
    | join _ _ => exact hallowed.elim
    | _ => exact hopen
  · exact hopen

/-! ## The pool is a crew -/

/-- A worker that gets another value holds that value's job. -/
theorem held_setWorker (pool : State Unit) (worker : ℕ) (value : Worker) :
    (fun other => ((pool.setWorker worker value).workers other).job) =
      Function.update (fun other => (pool.workers other).job) worker value.job := by
  funext other
  by_cases hsame : other = worker
  · rw [hsame, State.setWorker_self, Function.update_self]
  · rw [State.setWorker_of_ne _ _ hsame, Function.update_of_ne hsame]

/-- What the crew does not see: nothing is pushed or taken, and a worker keeps its job. -/
theorem crew_setWorker {pool : State Unit} {worker : ℕ} {value : Worker}
    (hpushed : pool.pushed = s.pool.pushed) (htaken : pool.taken = s.pool.taken)
    (hworkers : pool.workers = (s.pool.setWorker worker value).workers)
    (hjob : value.job = (s.pool.workers worker).job) :
    Service.crew { s with pool := pool } = s.crew := by
  have hheld : (fun other => (pool.workers other).job) =
      fun other => (s.pool.workers other).job := by
    rw [hworkers, held_setWorker, hjob]
    exact Function.update_eq_self ..
  rw [Service.crew, hpushed, htaken, hheld]
  rfl

/-- The oldest task of the queue is the one behind those that were taken. -/
theorem Partition.next_task {pool : State Unit} (h : Partition size pool) {task : ℕ}
    {rest : List ℕ} (htasks : pool.tasks = task :: rest) :
    task = pool.taken.length ∧ pool.taken.length < pool.pushed.length := by
  have horder := h.order
  have hlength := congrArg List.length horder
  rw [htasks, List.length_append, List.length_cons, List.length_range] at hlength
  refine ⟨?_, by omega⟩
  have hget : (pool.taken ++ pool.tasks)[pool.taken.length]? = some task := by
    rw [htasks, List.getElem?_append_right (le_refl _), Nat.sub_self, List.getElem?_cons_zero]
  rw [horder, List.getElem?_range (by omega), Option.some_inj] at hget
  exact hget.symm

/-- What the crew sees of a step of the pool. -/
def Service.seen (s : Service σ) : ServiceAction β → Option (CrewAction β)
  | .pool (.push _ _) => some .accept
  | .pool (.test worker) =>
      match s.pool.tasks with
      | [] => none
      | _ :: _ => some (.take worker)
  | .pool (.finish worker) => some (.leave worker)
  | .pool _ => none
  | .work worker b => some (.work worker b)

/-- A step of the pool is a step of the crew, or the crew does not see it. -/
theorem crew_step {a : ServiceAction β} (hpartition : Partition size s.pool)
    (h : serviceStep sys act ended count size s a = some s') :
    (s.seen a).elim (s'.crew = s.crew)
      (fun b => crewStep sys act ended count size s.crew b = some s'.crew) := by
  rcases serviceStep_cases h with
    ⟨action, pool, rfl, hallowed, hpool, rfl⟩ | ⟨worker, b, job, inner, rfl, hjob, -, hinner, rfl⟩
  · cases next_of_poolStep hpool with
    | @push caller task _ _ =>
        have hmore : s.crew.accepted < count := hallowed
        have hlength : (s.pool.push caller task).pushed.length = s.pool.pushed.length + 1 :=
          List.length_append
        show crewStep sys act ended count size s.crew .accept = _
        rw [crewStep, if_pos hmore, Service.crew, Service.crew, hlength]
        rfl
    | notifyLost _ _ => rfl
    | @notifyOne caller worker _ _ hasleep =>
        exact crew_setWorker rfl rfl rfl (by rw [hasleep]; rfl)
    | @sleep worker _ htesting hempty _ =>
        rw [Service.seen, hempty]
        exact crew_setWorker rfl rfl rfl (by rw [htesting]; rfl)
    | @exit worker _ htesting hempty _ =>
        rw [Service.seen, hempty]
        exact crew_setWorker rfl rfl rfl (by rw [htesting]; rfl)
    | @take worker task rest hworker htesting htasks =>
        obtain ⟨rfl, hqueue⟩ := hpartition.next_task htasks
        have hidle : s.crew.held worker = none := by
          show (s.pool.workers worker).job = none
          rw [htesting]
          rfl
        have hlength : (s.pool.take worker s.pool.taken.length rest).taken.length =
            s.pool.taken.length + 1 := List.length_append
        rw [Service.seen, htasks]
        show crewStep sys act ended count size s.crew (.take worker) = _
        rw [crewStep, if_pos ⟨hworker, hidle, hqueue⟩, Option.some_inj]
        refine Eq.symm ?_
        rw [Service.crew, hlength]
        exact congrArg (fun held => CrewState.mk _ _ held _) (held_setWorker ..)
    | @wake worker _ hasleep =>
        exact crew_setWorker rfl rfl rfl (by rw [hasleep]; rfl)
    | @call worker task _ hholding =>
        exact crew_setWorker rfl rfl rfl (by rw [hholding]; rfl)
    | @finish worker task _ hrunning =>
        have hheld := Service.held_of_running hrunning
        have hended : ended s.crew.inner task = true := hallowed task hrunning
        show crewStep sys act ended count size s.crew (.leave worker) = _
        simp only [crewStep, hheld, hended, if_true, Option.some_inj]
        exact congrArg (fun held => CrewState.mk _ _ held _)
          (held_setWorker s.pool worker .testing).symm
    | stop _ => exact hallowed.elim
    | notifyAll _ => exact hallowed.elim
    | join _ _ => exact hallowed.elim
  · have hheld := Service.held_of_running hjob
    have hstep : sys.step s.crew.inner (act job b) = some inner := hinner
    show crewStep sys act ended count size s.crew (.work worker b) = _
    simp only [crewStep, hheld, hstep, Option.map_some]
    rfl

/-- **The pool is a crew.** -/
theorem crew_of_service (h : (service sys act ended count size).Reachable s) :
    (sys.crew act ended count size).Reachable s.crew := by
  induction h with
  | init => exact Reachable.init _
  | @step s s' a hreach _ hnext ih =>
      have hseen := crew_step (partition_of_reachable (Service.pool_reachable hreach)) hnext
      cases hwhat : s.seen a with
      | none =>
          rw [hwhat] at hseen
          rwa [show s'.crew = s.crew from hseen]
      | some b =>
          rw [hwhat] at hseen
          exact ih.next hseen

theorem Service.worker_lt_of_running (hgood : EndedForGood sys ended)
    (h : (service sys act ended count size).Reachable s) {worker job : ℕ}
    (hrunning : s.pool.workers worker = .running job) : worker < size :=
  (((crew_of_service h).staffed hgood).held_lt worker job (Service.held_of_running hrunning)).1

/-- Only jobs that were enqueued are run. -/
theorem Service.job_lt_of_running (hgood : EndedForGood sys ended)
    (h : (service sys act ended count size).Reachable s) {worker job : ℕ}
    (hrunning : s.pool.workers worker = .running job) :
    job < s.pool.pushed.length ∧ s.pool.pushed.length ≤ count := by
  have hstaffed := (crew_of_service h).staffed hgood
  have htaken := (hstaffed.held_lt worker job (Service.held_of_running hrunning)).2
  exact ⟨htaken.trans_le hstaffed.taken_le, hstaffed.accepted_le⟩

/-! ## Jobs that are never taken -/

/-- A job that was not taken is still in the queue. -/
theorem length_taken_le (h : (service sys act ended count size).Reachable s) {job : ℕ}
    (hjob : job ∉ s.pool.taken) : s.pool.taken.length ≤ job := by
  have horder := (partition_of_reachable (Service.pool_reachable h)).order
  by_contra hlt
  have hlength := congrArg List.length horder
  rw [List.length_append, List.length_range] at hlength
  have hget : (s.pool.taken ++ s.pool.tasks)[job]? = s.pool.taken[job]? :=
    List.getElem?_append_left (Nat.not_le.mp hlt)
  rw [horder, List.getElem?_range (by omega)] at hget
  exact hjob (List.mem_of_getElem? hget.symm)

/-- **Behind as many stalling jobs as there are workers no job is ever taken.** -/
theorem service_not_taken {stalls : ℕ → Prop} [DecidablePred stalls]
    (hgood : EndedForGood sys ended)
    (hstalls : ∀ s job, sys.Reachable s → job < count → stalls job → ended s job = false) {job : ℕ}
    (hmany : size ≤ ((Finset.range job).filter stalls).card)
    (h : (service sys act ended count size).Reachable s) : job ∉ s.pool.taken := by
  have hqueued : s.pool.taken.length ≤ job :=
    not_taken_of_many hgood hstalls hmany (crew_of_service h)
  have horder := (partition_of_reachable (Service.pool_reachable h)).order
  intro hmem
  obtain ⟨i, hi, rfl⟩ := List.mem_iff_getElem.mp hmem
  have hget : (s.pool.taken ++ s.pool.tasks)[i]? = some s.pool.taken[i] := by
    rw [List.getElem?_append_left hi, List.getElem?_eq_getElem hi]
  have hlength := congrArg List.length horder
  rw [List.length_append, List.length_range] at hlength
  rw [horder, List.getElem?_range (by omega), Option.some_inj] at hget
  omega

/-! ## Jobs that end -/

/-- A spurious wake-up leads to a test that fails, and both may be repeated for ever; a test
that takes a task is productive, and so is whatever else the pool does. -/
def serviceProductive (productive : β → Bool) (s : Service σ) : ServiceAction β → Bool
  | .pool (.wake _) => false
  | .pool (.test _) => decide (s.pool.tasks ≠ [])
  | .pool _ => true
  | .work _ b => productive b

def Worker.isHolding : Worker → Bool
  | .holding _ => true
  | _ => false

/-- The workers that have taken a task and not called it yet. -/
def holders (size : ℕ) (pool : State Unit) : ℕ :=
  slotCount (fun value => value.isHolding = true) pool.workers size

/-- The notifications and calls that are still to be made. -/
def serviceMeasure (count size : ℕ) (μ : σ → ℕ) (s : Service σ) : ℕ :=
  3 * crewMeasure count size μ s.crew + outstanding s.pool + holders size s.pool

theorem holders_setWorker {pool : State Unit} {worker : ℕ} (value : Worker)
    (hworker : worker < size) (hold : (pool.workers worker).isHolding = false)
    (hnew : value.isHolding = false) :
    holders size (pool.setWorker worker value) = holders size pool :=
  slotCount_update_same hworker (Bool.eq_false_iff.mp hold) (Bool.eq_false_iff.mp hnew)

/-- What a step of the pool does to the notifications and calls that are still to be made: a
step that the crew does not see pays for itself, the others leave one more at most. -/
theorem outstanding_add_holders_le (productive : β → Bool) {action : Action Unit}
    {pool : State Unit} (hallowed : s.Allows ended count action)
    (h : Next size s.pool action pool) :
    outstanding pool + holders size pool + (serviceProductive productive s (.pool action)).toNat ≤
      outstanding s.pool + holders size s.pool +
        2 * (s.seen (.pool action : ServiceAction β)).isSome.toNat := by
  cases h with
  | @push caller task _ hcaller =>
      have hmore : outstanding (s.pool.push caller task) = outstanding s.pool + 1 :=
        outstanding_push task hcaller
      have hsame : holders size (s.pool.push caller task) = holders size s.pool := rfl
      simp only [Service.seen, serviceProductive, Option.isSome_some, Bool.toNat_true]
      omega
  | @notifyLost caller hcaller hawake =>
      have hless : outstanding (s.pool.leave caller) + 1 = outstanding s.pool :=
        outstanding_leave hcaller
      have hsame : holders size (s.pool.leave caller) = holders size s.pool := rfl
      simp only [Service.seen, serviceProductive, Option.isSome_none, Bool.toNat_true,
        Bool.toNat_false]
      omega
  | @notifyOne caller worker hcaller hworker hasleep =>
      have hless : outstanding (s.pool.leave caller) + 1 = outstanding s.pool :=
        outstanding_leave hcaller
      have hcallers : outstanding ((s.pool.leave caller).setWorker worker .testing) =
          outstanding (s.pool.leave caller) := rfl
      have hleft : ((s.pool.leave caller).workers worker).isHolding = false := by
        rw [show (s.pool.leave caller).workers worker = .asleep from hasleep]
        rfl
      have hsame : holders size ((s.pool.leave caller).setWorker worker .testing) =
          holders size s.pool := holders_setWorker .testing hworker hleft rfl
      simp only [Service.seen, serviceProductive, Option.isSome_none, Bool.toNat_true,
        Bool.toNat_false]
      omega
  | @sleep worker hworker htesting hempty _ =>
      have hsame := holders_setWorker .asleep hworker (by rw [htesting]; rfl) rfl
      have hcallers : outstanding (s.pool.setWorker worker .asleep) = outstanding s.pool := rfl
      simp only [serviceProductive, hempty, ne_eq, not_true, decide_false, Bool.toNat_false]
      omega
  | @exit worker hworker htesting hempty _ =>
      have hsame := holders_setWorker .exited hworker (by rw [htesting]; rfl) rfl
      have hcallers : outstanding (s.pool.setWorker worker .exited) = outstanding s.pool := rfl
      simp only [serviceProductive, hempty, ne_eq, not_true, decide_false, Bool.toNat_false]
      omega
  | @take worker task rest hworker htesting htasks =>
      have hmore : holders size (s.pool.take worker task rest) = holders size s.pool + 1 :=
        slotCount_update_add hworker (by rw [htesting]; exact Bool.false_ne_true) rfl
      have hcallers : outstanding (s.pool.take worker task rest) = outstanding s.pool := rfl
      have hflag := (serviceProductive productive s (.pool (.test worker))).toNat_le
      simp only [Service.seen, htasks, Option.isSome_some, Bool.toNat_true]
      omega
  | @wake worker hworker hasleep =>
      have hsame := holders_setWorker .testing hworker (by rw [hasleep]; rfl) rfl
      have hcallers : outstanding (s.pool.setWorker worker .testing) = outstanding s.pool := rfl
      simp only [serviceProductive, Bool.toNat_false]
      omega
  | @call worker task hworker hholding =>
      have hless : holders size (s.pool.call worker task) + 1 = holders size s.pool :=
        slotCount_update_sub hworker (by rw [hholding]; rfl) Bool.false_ne_true
      have hcallers : outstanding (s.pool.call worker task) = outstanding s.pool := rfl
      simp only [Service.seen, serviceProductive, Option.isSome_none, Bool.toNat_true,
        Bool.toNat_false]
      omega
  | @finish worker task hworker hrunning =>
      have hsame := holders_setWorker .testing hworker (by rw [hrunning]; rfl) rfl
      have hcallers : outstanding (s.pool.setWorker worker .testing) = outstanding s.pool := rfl
      simp only [Service.seen, serviceProductive, Option.isSome_some, Bool.toNat_true]
      omega
  | stop _ => exact hallowed.elim
  | notifyAll _ => exact hallowed.elim
  | join _ _ => exact hallowed.elim

/-- The steps of the pool that the crew sees are productive there. -/
theorem crewProductive_of_seen {productive : β → Bool} {action : Action Unit} {b : CrewAction β}
    (h : s.seen (.pool action) = some b) : crewProductive productive s.crew b = true := by
  cases action with
  | test worker =>
      simp only [Service.seen] at h
      split at h
      · cases h
      · cases h
        rfl
  | push _ _ | finish _ =>
      cases h
      rfl
  | notify _ _ | wake _ | call _ | stop | notifyAll | join => cases h

/-- **Every productive step lowers the measure.** -/
theorem measured_service {productive : β → Bool} {μ : σ → ℕ} (hgood : EndedForGood sys ended)
    (hμ : ∀ s job b s', sys.Reachable s → sys.step s (act job b) = some s' →
      μ s' + (productive b).toNat ≤ μ s) :
    (service sys act ended count size).Measured (serviceProductive productive)
      (serviceMeasure count size μ) := by
  intro s a s' hreach hstep
  have hseen := crew_step (partition_of_reachable (Service.pool_reachable hreach)) hstep
  have hcrew : ∀ b, crewStep sys act ended count size s.crew b = some s'.crew →
      crewMeasure count size μ s'.crew + (crewProductive productive s.crew b).toNat ≤
        crewMeasure count size μ s.crew :=
    fun b hb => measured_crew hgood hμ s.crew b s'.crew (crew_of_service hreach) hb
  unfold serviceMeasure
  rcases serviceStep_cases hstep with
    ⟨action, pool, rfl, hallowed, hpool, rfl⟩ | ⟨worker, b, job, inner, rfl, hjob, -, hinner, rfl⟩
  · have hcalls := outstanding_add_holders_le productive hallowed (next_of_poolStep hpool)
    dsimp only at hcrew hseen ⊢
    cases hwhat : s.seen (.pool action) with
    | none =>
        rw [hwhat] at hseen hcalls
        rw [show Service.crew _ = s.crew from hseen]
        simp only [Option.isSome_none, Bool.toNat_false] at hcalls
        omega
    | some b =>
        -- the crew loses one, which is worth three
        rw [hwhat] at hseen hcalls
        have hless := hcrew b hseen
        rw [crewProductive_of_seen hwhat, Bool.toNat_true] at hless
        simp only [Option.isSome_some, Bool.toNat_true] at hcalls
        omega
  · have hless := hcrew (.work worker b) hseen
    simp only [crewProductive, serviceProductive] at hless ⊢
    omega

/-! ### Settled pools -/

section Settled

variable {productive : β → Bool}

theorem poolStep_of_settled
    (hsettled : (service sys act ended count size).Settled (serviceProductive productive) s)
    {a : Action Unit} (hproductive : serviceProductive productive s (.pool a) = true)
    (hallowed : s.Allows ended count a) : poolStep size s.pool a = none := by
  have hnone : serviceStep sys act ended count size s (.pool a) = none :=
    hsettled (.pool a) hproductive
  rw [serviceStep, if_pos hallowed] at hnone
  exact Option.map_eq_none_iff.mp hnone

/-- Some worker sleeps or none does, so a caller that is to notify can do it. -/
theorem notifying_eq_empty {pool : State Unit}
    (hnone : ∀ caller woken, poolStep size pool (.notify caller woken) = none) :
    pool.notifying = ∅ := by
  refine Finset.eq_empty_of_forall_notMem fun caller hcaller => ?_
  by_cases hawake : ∀ worker < size, pool.workers worker ≠ .asleep
  · have hlost := hnone caller none
    rw [poolStep, if_pos hcaller, if_pos hawake] at hlost
    cases hlost
  · push Not at hawake
    obtain ⟨worker, hworker, hasleep⟩ := hawake
    have hone := hnone caller (some worker)
    rw [poolStep, if_pos hcaller, if_pos ⟨hworker, hasleep⟩] at hone
    cases hone

/-- The pool itself has nothing left to do, unless another job is enqueued. -/
structure Service.AtRest (ended : σ → ℕ → Bool) (size : ℕ) (s : Service σ) : Prop where
  notifying : s.pool.notifying = ∅
  testing : s.pool.tasks ≠ [] → ∀ worker < size, s.pool.workers worker ≠ .testing
  holding : ∀ worker < size, ∀ job, s.pool.workers worker ≠ .holding job
  running : ∀ worker < size, ∀ job, s.pool.workers worker = .running job →
    ended s.inner job = false

theorem atRest_of_none (hnone : ∀ a, (∀ caller task, a ≠ .push caller task) →
      serviceProductive productive s (.pool a) = true → s.Allows ended count a →
      poolStep size s.pool a = none) : s.AtRest ended size := by
  constructor
  · exact notifying_eq_empty fun caller woken =>
      hnone _ (by rintro _ _ ⟨⟩) rfl trivial
  · intro hsome worker hworker htesting
    have htest := hnone (.test worker) (by rintro _ _ ⟨⟩) (decide_eq_true hsome)
      trivial
    rw [poolStep, if_pos ⟨hworker, htesting⟩] at htest
    cases htest
  · intro worker hworker job hholding
    have hcall := hnone (.call worker) (by rintro _ _ ⟨⟩) rfl trivial
    rw [poolStep, hholding] at hcall
    simp only [if_pos hworker] at hcall
    cases hcall
  · intro worker hworker job hrunning
    by_contra hended
    have hallowed : s.Allows ended count (.finish worker) := by
      intro other hother
      rw [hrunning, Worker.running.injEq] at hother
      rw [← hother]
      exact Bool.eq_true_of_not_eq_false hended
    have hfinish := hnone (.finish worker) (by rintro _ _ ⟨⟩) rfl hallowed
    rw [poolStep, hrunning] at hfinish
    simp only [if_pos hworker] at hfinish
    cases hfinish

theorem atRest_of_settled
    (hsettled : (service sys act ended count size).Settled (serviceProductive productive) s) :
    s.AtRest ended size :=
  atRest_of_none fun _ _ hproductive hallowed => poolStep_of_settled hsettled hproductive hallowed

/-- A worker that has a task is inside `task()`. -/
theorem Service.AtRest.running_of_held (h : s.AtRest ended size) {worker job : ℕ}
    (hworker : worker < size) (hheld : s.crew.held worker = some job) :
    s.pool.workers worker = .running job := by
  have hjob : (s.pool.workers worker).job = some job := hheld
  cases hvalue : s.pool.workers worker with
  | running task =>
      rw [hvalue, Worker.job, Option.some_inj] at hjob
      rw [hjob]
  | holding task => exact absurd hvalue (h.holding worker hworker task)
  | testing | asleep | exited =>
      rw [hvalue] at hjob
      cases hjob

/-- Another job can be enqueued. -/
theorem push_ne_none (hreach : (service sys act ended count size).Reachable s)
    (hfree : s.pool.notifying = ∅) : poolStep size s.pool (.push 0 ()) ≠ none := by
  have hopen : s.pool.destructor = .notStarted ∧ 0 ∉ s.pool.notifying :=
    ⟨Service.open_of_reachable hreach, hfree ▸ Finset.notMem_empty 0⟩
  rw [poolStep, if_pos hopen]
  exact Option.some_ne_none _

/-- Beside a queue no worker is idle: one that tests would take a task, and beside one that
sleeps somebody is still to be notified or to test. -/
theorem Service.AtRest.busy (h : s.AtRest ended size)
    (hreach : (service sys act ended count size).Reachable s) (hsome : s.pool.tasks ≠ [])
    {worker : ℕ} (hworker : worker < size) : s.crew.held worker ≠ none := by
  have hpool := Service.pool_reachable hreach
  have hasleep : s.pool.workers worker ≠ .asleep := by
    intro hvalue
    have hattended := attended_of_reachable hpool ⟨worker, hworker, hvalue⟩
    have htesters : testers size s.pool = 0 := by
      rw [testers, slotCount, Finset.card_eq_zero, Finset.filter_eq_empty_iff]
      exact fun other hother => h.testing hsome other (Finset.mem_range.mp hother)
    rw [outstanding, h.notifying, Finset.card_empty, htesters] at hattended
    exact hsome (List.length_eq_zero_iff.mp (by omega))
  intro hidle
  have hjob : (s.pool.workers worker).job = none := hidle
  cases hvalue : s.pool.workers worker with
  | testing => exact h.testing hsome worker hworker hvalue
  | asleep => exact hasleep hvalue
  | exited => exact hsome ((shutdown_of_reachable hpool).exited worker hworker hvalue).2
  | holding task =>
      rw [hvalue] at hjob
      cases hjob
  | running task =>
      rw [hvalue] at hjob
      cases hjob

/-- A job that was enqueued and not taken is in the queue. -/
theorem queued_of_length_taken_le {job : ℕ} (hpartition : Partition size s.pool)
    (hqueued : s.pool.taken.length ≤ job) (hpushed : job < s.pool.pushed.length) :
    job ∈ s.pool.tasks := by
  have horder := hpartition.order
  have hget : (s.pool.taken ++ s.pool.tasks)[job]? = some job := by
    rw [horder, List.getElem?_range hpushed]
  rw [List.getElem?_append_right hqueued] at hget
  exact List.mem_of_getElem? hget

/-- **A job that was enqueued has ended, or a worker runs it, or it is queued while every
worker runs some other job.** -/
theorem Service.AtRest.job_cases (h : s.AtRest ended size) (hgood : EndedForGood sys ended)
    (hreach : (service sys act ended count size).Reachable s) {job : ℕ}
    (hpushed : job < s.pool.pushed.length) :
    ended s.inner job = true ∨ (∃ worker < size, s.pool.workers worker = .running job) ∨
      job ∈ s.pool.tasks ∧ ∀ worker < size, ∃ held, s.pool.workers worker = .running held := by
  have hstaffed := (crew_of_service hreach).staffed hgood
  by_cases htaken : job < s.pool.taken.length
  · rcases hstaffed.served job htaken with hended | ⟨worker, hheld⟩
    · exact Or.inl hended
    · have hworker := (hstaffed.held_lt worker job hheld).1
      exact Or.inr (Or.inl ⟨worker, hworker, h.running_of_held hworker hheld⟩)
  · have hqueued := queued_of_length_taken_le
      (partition_of_reachable (Service.pool_reachable hreach)) (Nat.not_lt.mp htaken) hpushed
    refine Or.inr (Or.inr ⟨hqueued, fun worker hworker => ?_⟩)
    obtain ⟨held, hheld⟩ := Option.ne_none_iff_exists'.mp
      (h.busy hreach (List.ne_nil_of_mem hqueued) hworker)
    exact ⟨held, h.running_of_held hworker hheld⟩

/-- **A settled pool is a settled crew.** -/
theorem settled_of_service (hgood : EndedForGood sys ended)
    (hreach : (service sys act ended count size).Reachable s)
    (hsettled : (service sys act ended count size).Settled (serviceProductive productive) s) :
    (sys.crew act ended count size).Settled (crewProductive productive) s.crew := by
  have hpool := Service.pool_reachable hreach
  have hstaffed := (crew_of_service hreach).staffed hgood
  have hpartition := partition_of_reachable hpool
  intro b hb
  show crewStep sys act ended count size s.crew b = none
  cases b with
  | accept =>
      refine if_neg fun hmore => ?_
      exact push_ne_none hreach (atRest_of_settled hsettled).notifying
        (poolStep_of_settled hsettled rfl hmore)
  | take worker =>
      refine if_neg fun htake => ?_
      obtain ⟨hworker, hidle, hqueue⟩ := htake
      have hsome : s.pool.tasks ≠ [] := by
        intro hnil
        have hlength := congrArg List.length hpartition.order
        rw [hnil, List.append_nil, List.length_range] at hlength
        exact hqueue.ne hlength
      exact (atRest_of_settled hsettled).busy hreach hsome hworker hidle
  | work worker b =>
      cases hheld : s.crew.held worker with
      | none => simp only [crewStep, hheld]
      | some job =>
          have hworker := (hstaffed.held_lt worker job hheld).1
          have hnone : serviceStep sys act ended count size s (.work worker b) = none :=
            hsettled (.work worker b) hb
          rw [serviceStep, (atRest_of_settled hsettled).running_of_held hworker hheld] at hnone
          simp only [if_pos hworker, Option.map_eq_none_iff] at hnone
          simp only [crewStep, hheld, Option.map_eq_none_iff]
          exact hnone
  | leave worker =>
      cases hheld : s.crew.held worker with
      | none => simp only [crewStep, hheld]
      | some job =>
          have hworker := (hstaffed.held_lt worker job hheld).1
          have hrest := atRest_of_settled hsettled
          have hopen := hrest.running worker hworker job (hrest.running_of_held hworker hheld)
          simp only [crewStep, hheld]
          exact if_neg fun hended => Bool.false_ne_true (hopen.symm.trans hended)

end Settled

/-- **A job with fewer stalling jobs before it than there are workers ends in every run.** -/
theorem service_endsIn {stalls : ℕ → Prop} [DecidablePred stalls] {productive : β → Bool}
    {μ : σ → ℕ} (hgood : EndedForGood sys ended)
    (hμ : ∀ s job b s', sys.Reachable s → sys.step s (act job b) = some s' →
      μ s' + (productive b).toNat ≤ μ s)
    (hgoes : ∀ s job, sys.Reachable s → job < count → ¬ stalls job →
      (∀ b, productive b = true → sys.step s (act job b) = none) → ended s job = true)
    {job : ℕ} (hjob : job < count) (hnot : ¬ stalls job)
    (hfew : ((Finset.range job).filter stalls).card < size) :
    (service sys act ended count size).EndsIn (serviceProductive productive)
      (fun s => ended s.inner job = true) :=
  (measured_service hgood hμ).endsIn fun _ hreach hsettled =>
    ended_of_settled hgood hgoes hjob hnot hfew (crew_of_service hreach)
      (settled_of_service hgood hreach hsettled)

/-! ## The pool works while it can -/

section Busy

variable {productive : β → Bool}

/-- The job has not ended, and no productive step of it is possible. -/
def Stuck (sys : TransitionSystem σ α) (act : ℕ → β → α) (ended : σ → ℕ → Bool)
    (productive : β → Bool) (inner : σ) (job : ℕ) : Prop :=
  ended inner job = false ∧ ∀ b, productive b = true → sys.step inner (act job b) = none

/-- All jobs were enqueued.  One that has not ended is stuck in the hands of a worker, or it
is queued while all workers are inside jobs that are stuck. -/
def Exhausted (sys : TransitionSystem σ α) (act : ℕ → β → α) (ended : σ → ℕ → Bool)
    (productive : β → Bool) (count size : ℕ) (s : Service σ) : Prop :=
  s.pool.pushed.length = count ∧ ∀ job < count, ended s.inner job = true ∨
    (Stuck sys act ended productive s.inner job ∧
      ∃ worker < size, s.pool.workers worker = .running job) ∨
    job ∈ s.pool.tasks ∧ ∀ worker < size, ∃ held, s.pool.workers worker = .running held ∧
      Stuck sys act ended productive s.inner held

/-- A job that a worker of a settled pool has is stuck. -/
theorem stuck_of_settled {worker job : ℕ}
    (hsettled : (service sys act ended count size).Settled (serviceProductive productive) s)
    (hworker : worker < size) (hrunning : s.pool.workers worker = .running job) :
    Stuck sys act ended productive s.inner job := by
  constructor
  · exact (atRest_of_settled hsettled).running worker hworker job hrunning
  · intro b hb
    have hnone : serviceStep sys act ended count size s (.work worker b) = none :=
      hsettled (.work worker b) hb
    rw [serviceStep, hrunning] at hnone
    simp only [if_pos hworker, Option.map_eq_none_iff] at hnone
    exact hnone

/-- **A settled pool is exhausted.** -/
theorem exhausted_of_settled (hgood : EndedForGood sys ended)
    (hreach : (service sys act ended count size).Reachable s)
    (hsettled : (service sys act ended count size).Settled (serviceProductive productive) s) :
    Exhausted sys act ended productive count size s := by
  have hstaffed := (crew_of_service hreach).staffed hgood
  have hpushed : s.pool.pushed.length = count := by
    by_contra hless
    have hmore : s.crew.accepted < count := lt_of_le_of_ne hstaffed.accepted_le hless
    have hnone : crewStep sys act ended count size s.crew .accept = none :=
      settled_of_service hgood hreach hsettled .accept rfl
    rw [crewStep, if_pos hmore] at hnone
    cases hnone
  refine ⟨hpushed, fun job hjob => ?_⟩
  rcases (atRest_of_settled hsettled).job_cases hgood hreach (hpushed ▸ hjob) with
    hended | ⟨worker, hworker, hrunning⟩ | ⟨hqueued, hbusy⟩
  · exact Or.inl hended
  · exact Or.inr (Or.inl ⟨stuck_of_settled hsettled hworker hrunning, worker, hworker, hrunning⟩)
  · refine Or.inr (Or.inr ⟨hqueued, fun worker hworker => ?_⟩)
    obtain ⟨held, hrunning⟩ := hbusy worker hworker
    exact ⟨held, hrunning, stuck_of_settled hsettled hworker hrunning⟩

/-- **Every run exhausts the pool: a job is never kept waiting by anything but jobs that
cannot go on.** -/
theorem service_endsIn_exhausted {σ α β : Type} (sys : TransitionSystem σ α) (act : ℕ → β → α)
    (ended : σ → ℕ → Bool) (count size : ℕ) (productive : β → Bool) (μ : σ → ℕ)
    (hgood : EndedForGood sys ended)
    (hμ : ∀ s job b s', sys.Reachable s → sys.step s (act job b) = some s' →
      μ s' + (productive b).toNat ≤ μ s) :
    (service sys act ended count size).EndsIn (serviceProductive productive)
      (Exhausted sys act ended productive count size) := by
  apply (measured_service hgood hμ).endsIn
  intro s hreach hsettled
  exact exhausted_of_settled hgood hreach hsettled

end Busy

end Service

/-! ### Jobs that count down -/

/-- Two jobs that have steps left to make, of which the first is stuck at one. -/
def countdown : TransitionSystem (ℕ → ℕ) ℕ where
  init := fun _ => 2
  step s job :=
    if job < 2 ∧ 1 - job < s job then some (Function.update s job (s job - 1)) else none

/-- One worker, which the first job keeps. -/
theorem service_endsIn_exhausted_one :
    (service countdown (fun job (_ : Unit) => job) (fun s job => s job == 0) 2 1).EndsIn
      (serviceProductive fun _ => true)
      (Exhausted countdown (fun job (_ : Unit) => job) (fun s job => s job == 0)
        (fun _ => true) 2 1) := by
  refine service_endsIn_exhausted countdown _ _ 2 1 _ (fun s => s 0 + s 1) ?_ ?_
  · intro s job s' other hstep hended
    obtain ⟨⟨-, hleft⟩, heq⟩ := Option.ite_none_right_eq_some.mp hstep
    cases heq
    have hzero : s other = 0 := eq_of_beq hended
    by_cases hsame : other = job
    · rw [hsame] at hzero
      omega
    · rw [beq_iff_eq, Function.update_of_ne hsame]
      exact hzero
  · intro s job _ s' _ hstep
    obtain ⟨⟨hjob, hleft⟩, heq⟩ := Option.ite_none_right_eq_some.mp hstep
    cases heq
    obtain rfl | rfl : job = 0 ∨ job = 1 := by omega
    · rw [Function.update_self, Function.update_of_ne Nat.one_ne_zero, Bool.toNat_true]
      omega
    · rw [Function.update_self, Function.update_of_ne Nat.zero_ne_one, Bool.toNat_true]
      omega

end SliceTransfer.ThreadPool
