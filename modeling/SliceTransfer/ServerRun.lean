import SliceTransfer.DefaultJobs
import SliceTransfer.Supervisor.InTime

/-!
# The receiver as a whole

`Server::Run`, the `Recv` tasks on the pool and `Server::Supervise` in one system, with the
default of one job: `receiver` and `endSystem` side by side.  They share the accept loop,
which pushes the tasks that it counts, the variable `slices_num_`, and the futures, which
are ready when their tasks have returned.

Each of the two sees its own runs (`tasks_of_server`, `supervise_of_server`), so what was
shown of them holds here; `Joined` says how they hang together.  The result is that the end
marker stands for a complete file, and that it is written.
-/

namespace SliceTransfer.Server

open Bytes Decimal TransitionSystem Supervisor

/-! ## The system -/

structure ServerState where
  tasks : ThreadPool.Service ConnState
  supervise : EndState

/-- The accept loop, the workers and the supervisor. -/
inductive ServerAction
  | enqueue
  | push
  | count
  | notify
  | pool (a : ThreadPool.Action Unit)
  | work (worker : ℕ) (event : RecvEvent)
  | ready (task : ℕ)
  | supervise (action : SuperviseAction)
  deriving DecidableEq, Repr

/-- What the future of a task will hold; a fault ends the whole process. -/
def RecvStatus.taskEnd : RecvStatus → Option TaskEnd
  | .exited (.returned _) => some .returned
  | .exited (.threw _) => some .threw
  | _ => none

/-- The steps that are left to the pool: `enqueue` is the only one who pushes, and `task()` has
made the future ready before it returns. -/
def ServerState.Concedes (s : ServerState) : ThreadPool.Action Unit → Prop
  | .push _ _ => False
  | .finish worker => ∀ task, s.tasks.pool.workers worker = .running task →
      s.supervise.tasks task ≠ none
  | _ => True

theorem ServerState.concedes_finish_iff (s : ServerState) {worker task : ℕ}
    (htask : s.tasks.pool.workers worker = .running task) :
    (s.supervise.tasks task).isSome = true ↔ s.Concedes (.finish worker) := by
  rw [Option.isSome_iff_ne_none]
  constructor
  · intro hready other hother
    rw [htask, ThreadPool.Worker.running.injEq] at hother
    rw [← hother]
    exact hready
  · intro hconcedes
    exact hconcedes task htask

instance (s : ServerState) : (a : ThreadPool.Action Unit) → Decidable (s.Concedes a)
  | .push _ _ => inferInstanceAs (Decidable False)
  | .finish worker =>
      match htask : s.tasks.pool.workers worker with
      | .testing | .asleep | .holding _ | .exited =>
          isTrue fun task hrunning => by rw [htask] at hrunning; cases hrunning
      | .running task => decidable_of_iff _ (s.concedes_finish_iff htask)
  | .notify _ _ | .test _ | .wake _ | .call _ | .stop | .notifyAll | .join =>
      inferInstanceAs (Decidable True)

section System

variable {D : Type} (z : ZstdDecompress D) (fuel count : ℕ) (texts : ℕ → List UInt8)
  (order : AcceptOrder (count + 1))

def serverStep (s : ServerState) : ServerAction → Option ServerState
  | .enqueue =>
      match (receiver z fuel count texts order).step s.tasks (.pool (.push 0 ())),
        endStep count s.supervise .enqueue with
      | some tasks, some supervise => some ⟨tasks, supervise⟩
      | _, _ => none
  | .push =>
      -- `push_back` gets the future when `enqueue` has notified the pool
      if 0 ∉ s.tasks.pool.notifying then
        (endStep count s.supervise .push).map (ServerState.mk s.tasks)
      else none
  | .count => (endStep count s.supervise .count).map (ServerState.mk s.tasks)
  | .notify => (endStep count s.supervise .notify).map (ServerState.mk s.tasks)
  | .pool a =>
      if s.Concedes a then
        ((receiver z fuel count texts order).step s.tasks (.pool a)).map fun tasks =>
          ⟨tasks, s.supervise⟩
      else none
  | .work worker event =>
      ((receiver z fuel count texts order).step s.tasks (.work worker event)).map fun tasks =>
        ⟨tasks, { s.supervise with slicesNum := tasks.inner.globals.slicesNum }⟩
  | .ready task =>
      match (s.tasks.inner.status (order.conn task)).taskEnd with
      | some result =>
          (endStep count s.supervise (.finish task result)).map (ServerState.mk s.tasks)
      | none => none
  | .supervise action =>
      (endStep count s.supervise (.supervise action)).map (ServerState.mk s.tasks)

/-- The receiver, when the peer opens one connection for the header and `count` for slices. -/
def server : TransitionSystem ServerState ServerAction where
  init := ⟨(receiver z fuel count texts order).init, endInitial⟩
  step := serverStep z fuel count texts order

end System

/-- The steps of the receiver, one constructor for each thing that can happen. -/
inductive ServerNext {D : Type} (z : ZstdDecompress D) (fuel count : ℕ) (texts : ℕ → List UInt8)
    (order : AcceptOrder (count + 1)) (s : ServerState) : ServerAction → ServerState → Prop
  | enqueue {tasks supervise}
      (htasks : (receiver z fuel count texts order).step s.tasks (.pool (.push 0 ())) = some tasks)
      (hsupervise : endStep count s.supervise .enqueue = some supervise) :
      ServerNext z fuel count texts order s .enqueue ⟨tasks, supervise⟩
  | push {supervise} (hfree : 0 ∉ s.tasks.pool.notifying)
      (hsupervise : endStep count s.supervise .push = some supervise) :
      ServerNext z fuel count texts order s .push ⟨s.tasks, supervise⟩
  | count {supervise} (hsupervise : endStep count s.supervise .count = some supervise) :
      ServerNext z fuel count texts order s .count ⟨s.tasks, supervise⟩
  | notify {supervise} (hsupervise : endStep count s.supervise .notify = some supervise) :
      ServerNext z fuel count texts order s .notify ⟨s.tasks, supervise⟩
  | pool {a tasks} (hconcedes : s.Concedes a)
      (htasks : (receiver z fuel count texts order).step s.tasks (.pool a) = some tasks) :
      ServerNext z fuel count texts order s (.pool a) ⟨tasks, s.supervise⟩
  | work {worker event tasks}
      (htasks : (receiver z fuel count texts order).step s.tasks (.work worker event) =
        some tasks) :
      ServerNext z fuel count texts order s (.work worker event)
        ⟨tasks, { s.supervise with slicesNum := tasks.inner.globals.slicesNum }⟩
  | ready {task result supervise}
      (hresult : (s.tasks.inner.status (order.conn task)).taskEnd = some result)
      (hsupervise : endStep count s.supervise (.finish task result) = some supervise) :
      ServerNext z fuel count texts order s (.ready task) ⟨s.tasks, supervise⟩
  | supervise {action supervise}
      (hsupervise : endStep count s.supervise (.supervise action) = some supervise) :
      ServerNext z fuel count texts order s (.supervise action) ⟨s.tasks, supervise⟩

section Server

variable {D : Type} {z : ZstdDecompress D} {fuel count : ℕ} {texts : ℕ → List UInt8}
  {order : AcceptOrder (count + 1)} {s s' : ServerState}

theorem serverNext_of_step {a : ServerAction}
    (h : serverStep z fuel count texts order s a = some s') :
    ServerNext z fuel count texts order s a s' := by
  cases a with
  | enqueue =>
      rw [serverStep] at h
      split at h
      · cases h
        exact .enqueue ‹_› ‹_›
      · cases h
  | push =>
      obtain ⟨hfree, heq⟩ := Option.ite_none_right_eq_some.mp h
      obtain ⟨supervise, hsupervise, rfl⟩ := Option.map_eq_some_iff.mp heq
      exact .push hfree hsupervise
  | count =>
      obtain ⟨supervise, hsupervise, rfl⟩ := Option.map_eq_some_iff.mp h
      exact .count hsupervise
  | notify =>
      obtain ⟨supervise, hsupervise, rfl⟩ := Option.map_eq_some_iff.mp h
      exact .notify hsupervise
  | pool a =>
      obtain ⟨hconcedes, heq⟩ := Option.ite_none_right_eq_some.mp h
      obtain ⟨tasks, htasks, rfl⟩ := Option.map_eq_some_iff.mp heq
      exact .pool hconcedes htasks
  | work worker event =>
      obtain ⟨tasks, htasks, rfl⟩ := Option.map_eq_some_iff.mp h
      exact .work htasks
  | ready task =>
      rw [serverStep] at h
      split at h
      · obtain ⟨supervise, hsupervise, rfl⟩ := Option.map_eq_some_iff.mp h
        exact .ready ‹_› hsupervise
      · cases h
  | supervise action =>
      obtain ⟨supervise, hsupervise, rfl⟩ := Option.map_eq_some_iff.mp h
      exact .supervise hsupervise

/-- The pool with its tasks sees a run of its own. -/
theorem tasks_of_server {guard : ServerState → ServerAction → Prop}
    (h : (server z fuel count texts order).ReachableVia guard s) :
    (receiver z fuel count texts order).Reachable s.tasks := by
  refine ReachableVia.project (f := ServerState.tasks) rfl ?_ h
  intro s a s' _ _ hstep
  cases serverNext_of_step hstep with
  | enqueue htasks _ => exact Or.inr ⟨_, trivial, htasks⟩
  | pool _ htasks => exact Or.inr ⟨_, trivial, htasks⟩
  | work htasks => exact Or.inr ⟨_, trivial, htasks⟩
  | push _ _ | count _ | notify _ | ready _ _ | supervise _ => exact Or.inl rfl

theorem reported_of_serverStep {a : ServerAction}
    (h : serverStep z fuel count texts order s a = some s')
    (hreported : s.supervise.phase = .reported) : s'.supervise.phase = .reported := by
  cases serverNext_of_step h with
  | enqueue _ hend => exact reported_of_endStep hend hreported
  | push _ hend => exact reported_of_endStep hend hreported
  | count hend => exact reported_of_endStep hend hreported
  | notify hend => exact reported_of_endStep hend hreported
  | ready _ hend => exact reported_of_endStep hend hreported
  | supervise hend => exact reported_of_endStep hend hreported
  | pool _ _ | work _ => exact hreported

/-! ## How the parts hang together -/

/-- A step of the pool alone. -/
theorem pool_of_step {tasks tasks' : ThreadPool.Service ConnState} {a : ThreadPool.Action Unit}
    (hstep : (receiver z fuel count texts order).step tasks (.pool a) = some tasks') :
    tasks'.inner = tasks.inner ∧ ThreadPool.Next 1 tasks.pool a tasks'.pool := by
  rw [receiver_step] at hstep
  rcases ThreadPool.serviceStep_cases hstep with
    ⟨action, pool, heq, -, hpool, rfl⟩ | ⟨worker, event, k, inner, heq, -⟩
  · cases heq
    exact ⟨rfl, ThreadPool.next_of_poolStep hpool⟩
  · cases heq

/-- A step of a task alone. -/
theorem work_of_step {tasks tasks' : ThreadPool.Service ConnState} {worker : ℕ}
    {event : RecvEvent}
    (hstep : (receiver z fuel count texts order).step tasks (.work worker event) = some tasks') :
    tasks'.pool = tasks.pool ∧ ∃ k, tasks.pool.workers worker = .running k ∧
      (startConns z fuel count texts).step tasks.inner ⟨order.conn k, event⟩ =
        some tasks'.inner := by
  rw [receiver_step] at hstep
  rcases ThreadPool.serviceStep_cases hstep with
    ⟨action, pool, heq, -⟩ | ⟨other, other', k, inner, heq, hrunning, -, hinner, rfl⟩
  · cases heq
  · cases heq
    exact ⟨rfl, k, hrunning, hinner⟩

/-- The tasks that are pushed are those the accept loop counts, `slices_num_` is one variable,
and a future that is ready holds what its task returned. -/
structure Joined (order : AcceptOrder (count + 1)) (s : ServerState) : Prop where
  accepted : s.supervise.accepted = s.tasks.pool.pushed.length
  slicesNum : s.supervise.slicesNum = s.tasks.inner.globals.slicesNum
  ready : ∀ task result, s.supervise.tasks task = some result →
    (s.tasks.inner.status (order.conn task)).taskEnd = some result

/-- What the steps of the supervisor and the accept loop leave alone. -/
theorem joined_of_supervise {supervise : EndState} (h : Joined order s)
    (haccepted : supervise.accepted = s.supervise.accepted)
    (hslicesNum : supervise.slicesNum = s.supervise.slicesNum)
    (htasks : supervise.tasks = s.supervise.tasks) : Joined order ⟨s.tasks, supervise⟩ :=
  ⟨haccepted.trans h.accepted, hslicesNum.trans h.slicesNum,
    fun task result hresult => h.ready task result (htasks ▸ hresult)⟩

theorem Joined.step {a : ServerAction} (h : Joined order s)
    (hstep : serverStep z fuel count texts order s a = some s') : Joined order s' := by
  cases serverNext_of_step hstep with
  | @enqueue tasks supervise htasks hsupervise =>
      obtain ⟨hinner, hpool⟩ := pool_of_step htasks
      obtain ⟨-, heq⟩ := Option.ite_none_right_eq_some.mp hsupervise
      cases heq
      have hpushed : tasks.pool.pushed.length = s.tasks.pool.pushed.length + 1 := by
        generalize tasks.pool = pool at hpool
        cases hpool
        exact List.length_append
      refine ⟨?_, ?_, fun task result hresult => ?_⟩
      · rw [hpushed, ← h.accepted]
      · rw [hinner]
        exact h.slicesNum
      · rw [hinner]
        exact h.ready task result hresult
  | push _ hsupervise =>
      obtain ⟨-, heq⟩ := Option.ite_none_right_eq_some.mp hsupervise
      cases heq
      exact joined_of_supervise h rfl rfl rfl
  | count hsupervise =>
      obtain ⟨-, heq⟩ := Option.ite_none_right_eq_some.mp hsupervise
      cases heq
      exact joined_of_supervise h rfl rfl rfl
  | notify hsupervise =>
      obtain ⟨-, heq⟩ := Option.ite_none_right_eq_some.mp hsupervise
      cases heq
      exact joined_of_supervise h rfl rfl rfl
  | @pool a tasks hconcedes htasks =>
      obtain ⟨hinner, hpool⟩ := pool_of_step htasks
      have hpushed : tasks.pool.pushed = s.tasks.pool.pushed := by
        generalize tasks.pool = pool at hpool
        cases hpool with
        | push _ _ _ => exact hconcedes.elim
        | _ => rfl
      refine ⟨?_, ?_, fun task result hresult => ?_⟩
      · rw [hpushed]
        exact h.accepted
      · rw [hinner]
        exact h.slicesNum
      · rw [hinner]
        exact h.ready task result hresult
  | work htasks =>
      obtain ⟨hpool, k, -, hinner⟩ := work_of_step htasks
      obtain ⟨-, hconn⟩ := Option.ite_none_right_eq_some.mp hinner
      refine ⟨?_, rfl, fun task result hresult => ?_⟩
      · rw [hpool]
        exact h.accepted
      · have hbefore := h.ready task result hresult
        cases hstatus : s.tasks.inner.status (order.conn task) with
        | exited exit =>
            rw [hstatus] at hbefore
            rw [exited_of_connStep hconn hstatus]
            exact hbefore
        | waiting task =>
            rw [hstatus] at hbefore
            cases hbefore
        | complete index =>
            rw [hstatus] at hbefore
            cases hbefore
  | @ready task result supervise hresult hsupervise =>
      obtain ⟨-, heq⟩ := Option.ite_none_right_eq_some.mp hsupervise
      cases heq
      refine ⟨h.accepted, h.slicesNum, fun other value hvalue => ?_⟩
      dsimp only at hvalue
      by_cases hsame : other = task
      · rw [hsame, Function.update_self, Option.some_inj] at hvalue
        rw [hsame, ← hvalue]
        exact hresult
      · rw [Function.update_of_ne hsame] at hvalue
        exact h.ready other value hvalue
  | supervise hsupervise =>
      obtain ⟨phase, -, rfl⟩ := Option.map_eq_some_iff.mp hsupervise
      exact joined_of_supervise h rfl rfl rfl

theorem joined_of_reachable {guard : ServerState → ServerAction → Prop}
    (h : (server z fuel count texts order).ReachableVia guard s) : Joined order s := by
  refine ReachableVia.invariant ?_ (fun _ _ _ hs _ hnext => hs.step hnext) h
  exact ⟨rfl, rfl, fun task result hresult => by cases hresult⟩

/-! ## What the supervisor sees -/

variable {R : D → List UInt8 → List UInt8 → Prop} {fileSize : ℕ} {ships : ℕ → Shipment}

/-- `slices_num_` is stored once, when the header is recorded. -/
theorem slicesNum_of_started {conns : ConnState}
    (h : AllSent z R fuel fileSize count texts order ships)
    (hstarted : Started z fuel count fileSize texts conns) :
    conns = (startConns z fuel count texts).init ∧ conns.globals.slicesNum = 0 ∨
      HeaderRecorded z fuel count fileSize texts conns ∧ conns.globals.slicesNum = count := by
  rcases hstarted with rfl | hheader
  · exact Or.inl ⟨rfl, rfl⟩
  · obtain ⟨hrecorded, -⟩ := fleet_inv h.bounded h.regenerates h.size_lt h.delivery
      (recorded_recordHeader fileSize count _) h.accepts hheader.2
    exact Or.inr ⟨hheader, hrecorded.slicesNum_eq⟩

/-- What the supervisor's side takes part in. -/
def ServerState.seen (order : AcceptOrder (count + 1)) (s : ServerState) :
    ServerAction → Option EndAction
  | .enqueue => some .enqueue
  | .push => some .push
  | .count => some .count
  | .notify => some .notify
  | .pool _ => none
  | .work _ _ => some .storeSlicesNum
  | .ready task => (s.tasks.inner.status (order.conn task)).taskEnd.map (EndAction.finish task)
  | .supervise action => some (.supervise action)

/-- The supervisor's side makes a step of its own, or it does not see what happens. -/
theorem supervise_step {guard : ServerState → ServerAction → Prop} {a : ServerAction}
    (h : AllSent z R fuel fileSize count texts order ships)
    (hs : (server z fuel count texts order).ReachableVia guard s)
    (hstep : serverStep z fuel count texts order s a = some s') :
    s'.supervise = s.supervise ∨
      ∃ e, s.seen order a = some e ∧ endStep count s.supervise e = some s'.supervise := by
  cases serverNext_of_step hstep with
  | enqueue _ hsupervise => exact Or.inr ⟨_, rfl, hsupervise⟩
  | push _ hsupervise => exact Or.inr ⟨_, rfl, hsupervise⟩
  | count hsupervise => exact Or.inr ⟨_, rfl, hsupervise⟩
  | notify hsupervise => exact Or.inr ⟨_, rfl, hsupervise⟩
  | pool _ _ => exact Or.inl rfl
  | ready hresult hsupervise => exact Or.inr ⟨_, congrArg (Option.map _) hresult, hsupervise⟩
  | supervise hsupervise => exact Or.inr ⟨_, rfl, hsupervise⟩
  | @work worker event tasks htasks =>
      have hjoined := joined_of_reachable hs
      have htasksReach := tasks_of_server hs
      obtain ⟨hpool, k, hrunning, hinner⟩ := work_of_step htasks
      have hbefore := slicesNum_of_started h (started_of_reachable h htasksReach)
      have hafter := slicesNum_of_started h (started_of_reachable h (htasksReach.next htasks))
      by_cases hsame : tasks.inner.globals.slicesNum = s.supervise.slicesNum
      · left
        dsimp only
        rw [hsame]
      · right
        rw [hjoined.slicesNum] at hsame
        -- the header task has just recorded the header
        have hcount : tasks.inner.globals.slicesNum = count := by
          rcases hafter with ⟨hinit, -⟩ | ⟨-, hcount⟩
          · rcases hbefore with ⟨-, hzero⟩ | ⟨hheader, -⟩
            · exact absurd (by rw [hinit, hzero]; rfl) hsame
            · obtain ⟨-, hconn⟩ := Option.ite_none_right_eq_some.mp hinner
              have hstill := exited_of_connStep hconn hheader.1
              rw [hinit] at hstill
              cases hstill
          · exact hcount
        have hzero : s.supervise.slicesNum = 0 := by
          rw [hjoined.slicesNum]
          rcases hbefore with ⟨-, hzero⟩ | ⟨-, hthere⟩
          · exact hzero
          · exact absurd (hcount.trans hthere.symm) hsame
        have hsome : 1 ≤ s.supervise.accepted := by
          rw [hjoined.accepted]
          exact Nat.one_le_of_lt (ThreadPool.Service.job_lt_of_running endedForGood_startConns
            htasksReach hrunning).1
        refine ⟨.storeSlicesNum, rfl, ?_⟩
        show endStep count s.supervise .storeSlicesNum = _
        rw [endStep, if_pos ⟨hsome, hzero⟩, hcount]

/-- **The supervisor and the accept loop see a run of their own.** -/
theorem supervise_of_server {guard : ServerState → ServerAction → Prop}
    {allowed : EndState → EndAction → Prop}
    (h : AllSent z R fuel fileSize count texts order ships)
    (hguard : ∀ s a e supervise, (server z fuel count texts order).ReachableVia guard s →
      guard s a → s.seen order a = some e → endStep count s.supervise e = some supervise →
      allowed s.supervise e)
    (hs : (server z fuel count texts order).ReachableVia guard s) :
    (endSystem count).ReachableVia allowed s.supervise := by
  refine ReachableVia.project (f := ServerState.supervise) rfl ?_ hs
  intro s a s' hreach hallowed hstep
  refine (supervise_step h hreach hstep).imp_right ?_
  rintro ⟨e, hseen, hend⟩
  exact ⟨e, hguard s a e _ hreach hallowed hseen hend, hend⟩

theorem supervise_reachable {guard : ServerState → ServerAction → Prop}
    (h : AllSent z R fuel fileSize count texts order ships)
    (hs : (server z fuel count texts order).ReachableVia guard s) :
    (endSystem count).Reachable s.supervise :=
  supervise_of_server h (fun _ _ _ _ _ _ _ _ => trivial) hs

theorem hasExited_of_taskEnd {conns : ConnState} {conn : ℕ} {result : TaskEnd}
    (h : (conns.status conn).taskEnd = some result) : conns.hasExited conn = true := by
  rw [ConnState.hasExited]
  cases hstatus : conns.status conn with
  | exited exit => rfl
  | waiting task | complete index =>
      rw [hstatus] at h
      cases h

/-- A task that has exited has returned. -/
theorem taskEnd_of_exited {tasks : ThreadPool.Service ConnState} {conn : ℕ}
    (h : AllSent z R fuel fileSize count texts order ships)
    (hs : (receiver z fuel count texts order).Reachable tasks) (hconn : conn < count + 1)
    (hexited : tasks.inner.hasExited conn = true) :
    (tasks.inner.status conn).taskEnd = some .returned := by
  have hreturned : ∃ result, tasks.inner.status conn = .exited (.returned result) := by
    rcases started_of_reachable h hs with hinit | ⟨hheader, hfleet⟩
    · rw [hinit] at hexited
      cases hexited
    · cases conn with
      | zero => exact ⟨0, hheader⟩
      | succ conn =>
          have hdelivered := delivered_of_exited h.bounded h.regenerates h.size_lt h.delivery
            (recorded_recordHeader fileSize count _) h.accepts hfleet (Nat.lt_of_succ_lt_succ hconn)
            hexited
          exact ⟨0, hdelivered.1⟩
  obtain ⟨result, hstatus⟩ := hreturned
  rw [hstatus]
  rfl

/-! ## Runs that come to their end -/

/-- `connect` succeeds. -/
def Connects : ServerAction → Prop
  | .supervise (.connect false) => False
  | _ => True

instance : DecidablePred Connects
  | .supervise (.connect false) => isFalse id
  | .supervise (.connect true) => isTrue trivial
  | .supervise .loadThNum | .supervise .loadNum | .supervise .block | .supervise .wake
  | .supervise .collect | .supervise .get | .supervise .write => isTrue trivial
  | .enqueue | .push | .count | .notify | .pool _ | .work _ _ | .ready _ => isTrue trivial

/-- The last connection is notified when the header has been recorded, and not while a test of
the supervisor holds an old value. -/
def Timely (count : ℕ) (s : ServerState) (a : ServerAction) : Prop :=
  a = .notify → s.supervise.accepted = count + 1 →
    s.supervise.slicesNum ≠ 0 ∧ UpToDate s.supervise

instance (count : ℕ) (s : ServerState) (a : ServerAction) : Decidable (Timely count s a) :=
  inferInstanceAs (Decidable (_ → _ → _))

/-- While tasks are missing in the vector, no test of the supervisor finds `slices_num_` changed
when it loads it again. -/
def NotMisled (count : ℕ) (s : ServerState) (a : ServerAction) : Prop :=
  a = .supervise .loadNum → s.supervise.torn = true → s.supervise.futures = count + 1

def serverProductive (s : ServerState) : ServerAction → Bool
  | .pool a => ThreadPool.serviceProductive RecvEvent.productive s.tasks (.pool a)
  | .work _ event => event.productive
  | .supervise action => markerProductive s.supervise (.supervise action)
  | _ => true

def serverMeasure (count : ℕ) (s : ServerState) : ℕ :=
  ThreadPool.serviceMeasure (count + 1) 1 (undeliveredLen (count + 1)) s.tasks +
    markerMeasure count s.supervise

/-- **Every productive step lowers the measure.** -/
theorem measured_server (h : AllSent z R fuel fileSize count texts order ships)
    (hlt : count < 32767) :
    (server z fuel count texts order).Measured serverProductive (serverMeasure count) := by
  intro s a s' hs hstep
  have htasks : ∀ action tasks, (receiver z fuel count texts order).step s.tasks action =
      some tasks → ThreadPool.serviceMeasure (count + 1) 1 (undeliveredLen (count + 1)) tasks +
        (ThreadPool.serviceProductive RecvEvent.productive s.tasks action).toNat ≤
          ThreadPool.serviceMeasure (count + 1) 1 (undeliveredLen (count + 1)) s.tasks :=
    fun action tasks => ThreadPool.measured_service endedForGood_startConns
      (fun _ _ _ _ _ hnext => undeliveredLen_step (Option.ite_none_right_eq_some.mp hnext).2)
      s.tasks action tasks (tasks_of_server hs)
  have hreach := supervise_reachable h hs
  have hend : ∀ e supervise, endStep count s.supervise e = some supervise →
      markerMeasure count supervise + (markerProductive s.supervise e).toNat ≤
        markerMeasure count s.supervise :=
    fun e supervise => measured_endSystem h.count_pos hlt s.supervise e supervise hreach
  have hseen : markerMeasure count s'.supervise ≤ markerMeasure count s.supervise := by
    rcases supervise_step h hs hstep with hsame | ⟨e, -, hsupervise⟩
    · exact (congrArg (markerMeasure count) hsame).le
    · exact (Nat.le_add_right _ _).trans (hend e _ hsupervise)
  unfold serverMeasure
  cases serverNext_of_step hstep with
  | enqueue hpush hsupervise =>
      have hfirst := htasks _ _ hpush
      have hsecond := hend _ _ hsupervise
      simp only [serverProductive, markerProductive, Bool.toNat_true] at hsecond ⊢
      omega
  | push _ hsupervise => exact Nat.add_le_add_left (hend _ _ hsupervise) _
  | count hsupervise => exact Nat.add_le_add_left (hend _ _ hsupervise) _
  | notify hsupervise => exact Nat.add_le_add_left (hend _ _ hsupervise) _
  | ready _ hsupervise => exact Nat.add_le_add_left (hend _ _ hsupervise) _
  | supervise hsupervise =>
      exact (Nat.add_assoc ..).trans_le (Nat.add_le_add_left (hend _ _ hsupervise) _)
  | pool _ hpool =>
      have hfirst := htasks _ _ hpool
      simp only [serverProductive]
      omega
  | work hwork =>
      have hfirst := htasks _ _ hwork
      simp only [ThreadPool.serviceProductive] at hfirst
      simp only [serverProductive]
      dsimp only at hseen ⊢
      omega

/-- Nothing is left to do, the last notification waiting for the header. -/
def Idle (z : ZstdDecompress D) (fuel : ℕ) (texts : ℕ → List UInt8)
    (order : AcceptOrder (count + 1)) (s : ServerState) : Prop :=
  ∀ a, Connects a → Timely count s a → serverProductive s a = true →
    serverStep z fuel count texts order s a = none

/-- Nothing is left to do but to accept a connection. -/
def Resting (z : ZstdDecompress D) (fuel : ℕ) (texts : ℕ → List UInt8)
    (order : AcceptOrder (count + 1)) (s : ServerState) : Prop :=
  ∀ a, a ≠ .enqueue → Connects a → Timely count s a → serverProductive s a = true →
    serverStep z fuel count texts order s a = none

theorem Idle.resting (h : Idle z fuel texts order s) : Resting z fuel texts order s :=
  fun a _ => h a

/-- Only the notification has to be in time. -/
theorem Idle.step_eq_none {a : ServerAction} (h : Idle z fuel texts order s) (hne : a ≠ .notify)
    (hconnects : Connects a) (hproductive : serverProductive s a = true) :
    serverStep z fuel count texts order s a = none :=
  h a hconnects (fun heq => absurd heq hne) hproductive

theorem Resting.step_eq_none {a : ServerAction} (h : Resting z fuel texts order s)
    (haccept : a ≠ .enqueue) (hne : a ≠ .notify) (hconnects : Connects a)
    (hproductive : serverProductive s a = true) : serverStep z fuel count texts order s a = none :=
  h a haccept hconnects (fun heq => absurd heq hne) hproductive

theorem Resting.notifying_eq_empty (h : Resting z fuel texts order s) :
    s.tasks.pool.notifying = ∅ := by
  have hsettled : ∀ caller woken, ThreadPool.poolStep 1 s.tasks.pool (.notify caller woken) =
      none := fun caller woken => ?_
  · exact ThreadPool.notifying_eq_empty hsettled
  have hnone := h.step_eq_none (a := .pool (.notify caller woken)) ServerAction.noConfusion
    ServerAction.noConfusion trivial rfl
  have hconcedes : s.Concedes (.notify caller woken) := trivial
  have hallowed : s.tasks.Allows (fun s k => s.hasExited (order.conn k)) (count + 1)
      (.notify caller woken) := trivial
  rw [serverStep, if_pos hconcedes, Option.map_eq_none_iff, receiver_step, ThreadPool.serviceStep,
    if_pos hallowed, Option.map_eq_none_iff] at hnone
  exact hnone

/-- A connection can be accepted. -/
theorem exists_enqueue {guard : ServerState → ServerAction → Prop}
    (hs : (server z fuel count texts order).ReachableVia guard s)
    (hfree : s.tasks.pool.notifying = ∅) (hlistening : s.supervise.acceptor = .listening)
    (hless : s.supervise.accepted < count + 1) :
    serverStep z fuel count texts order s .enqueue ≠ none := by
  have hmore : s.tasks.pool.pushed.length < count + 1 := (joined_of_reachable hs).accepted ▸ hless
  obtain ⟨pool, hpool⟩ := Option.ne_none_iff_exists'.mp
    (ThreadPool.push_ne_none (tasks_of_server hs) hfree)
  have hpush : (receiver z fuel count texts order).step s.tasks (.pool (.push 0 ())) =
      some { s.tasks with pool := pool } := by
    have hallowed : s.tasks.Allows (fun s k => s.hasExited (order.conn k)) (count + 1)
        (.push 0 ()) := hmore
    rw [receiver_step, ThreadPool.serviceStep, if_pos hallowed, hpool]
    rfl
  have hend : endStep count s.supervise .enqueue =
      some { s.supervise with accepted := s.supervise.accepted + 1, acceptor := .enqueued } :=
    if_pos ⟨hlistening, hless⟩
  simp [serverStep, hpush, hend]

/-- What the other statements of the accept loop come to. -/
theorem Resting.endStep_eq_none (h : Resting z fuel texts order s) {e : EndAction}
    (hkind : e = .push ∨ e = .count ∨ e = .notify) (hintime : InTime count s.supervise e) :
    endStep count s.supervise e = none := by
  rcases hkind with rfl | rfl | rfl
  · have hnone := h.step_eq_none (a := .push) ServerAction.noConfusion ServerAction.noConfusion
      trivial rfl
    rw [serverStep, h.notifying_eq_empty, if_pos (Finset.notMem_empty 0)] at hnone
    exact Option.map_eq_none_iff.mp hnone
  · exact Option.map_eq_none_iff.mp
      (h.step_eq_none (a := .count) ServerAction.noConfusion ServerAction.noConfusion trivial rfl)
  · exact Option.map_eq_none_iff.mp
      (h .notify ServerAction.noConfusion trivial (fun _ => hintime rfl) rfl)

/-- The accept loop is not in the middle of a connection, unless the last one has come. -/
theorem Resting.listening (h : Resting z fuel texts order s)
    (hless : s.supervise.accepted ≠ count + 1) : s.supervise.acceptor = .listening := by
  have hintime : ∀ e, InTime count s.supervise e := fun _ _ hall => absurd hall hless
  cases hwhere : s.supervise.acceptor with
  | listening => rfl
  | enqueued =>
      have hnone := h.endStep_eq_none (Or.inl rfl) (hintime _)
      rw [endStep, if_pos hwhere] at hnone
      cases hnone
  | pushed =>
      have hnone := h.endStep_eq_none (Or.inr (Or.inl rfl)) (hintime _)
      rw [endStep, if_pos hwhere] at hnone
      cases hnone
  | counted =>
      have hnone := h.endStep_eq_none (Or.inr (Or.inr rfl)) (hintime _)
      rw [endStep, if_pos hwhere] at hnone
      cases hnone

/-- A future that can become ready has. -/
theorem Resting.ready {guard : ServerState → ServerAction → Prop} {task : ℕ}
    (h : Resting z fuel texts order s) (hall : AllSent z R fuel fileSize count texts order ships)
    (hs : (server z fuel count texts order).ReachableVia guard s)
    (haccepted : task < s.supervise.accepted)
    (hexited : s.tasks.inner.hasExited (order.conn task) = true) :
    s.supervise.tasks task ≠ none := by
  intro hopen
  have hlt : task < count + 1 := by
    obtain ⟨increments, hordered⟩ := ordered_of_reachable (supervise_reachable hall hs)
    exact haccepted.trans_le hordered.accepted_le
  have hresult := taskEnd_of_exited hall (tasks_of_server hs) ((order.conn_lt_iff task).mpr hlt)
    hexited
  have hnone := h.step_eq_none (a := .ready task) ServerAction.noConfusion
    ServerAction.noConfusion trivial rfl
  simp only [serverStep, hresult] at hnone
  rw [endStep, if_pos ⟨haccepted, hopen⟩] at hnone
  cases hnone

/-- The pool itself has nothing left to do either. -/
theorem Resting.poolStep_eq_none {guard : ServerState → ServerAction → Prop}
    {a : ThreadPool.Action Unit} (h : Resting z fuel texts order s)
    (hall : AllSent z R fuel fileSize count texts order ships)
    (hs : (server z fuel count texts order).ReachableVia guard s)
    (hpush : ∀ caller task, a ≠ .push caller task)
    (hproductive : ThreadPool.serviceProductive RecvEvent.productive s.tasks (.pool a) = true)
    (hallowed : s.tasks.Allows (fun s k => s.hasExited (order.conn k)) (count + 1) a) :
    ThreadPool.poolStep 1 s.tasks.pool a = none := by
  have hconcedes : s.Concedes a := by
    cases a with
    | push caller task => exact absurd rfl (hpush caller task)
    | finish worker =>
        refine fun task hrunning => h.ready hall hs ?_ (hallowed task hrunning)
        rw [(joined_of_reachable hs).accepted]
        exact (ThreadPool.Service.job_lt_of_running endedForGood_startConns (tasks_of_server hs)
          hrunning).1
    | notify _ _ | test _ | wake _ | call _ | stop | notifyAll | join => trivial
  have hnone := h.step_eq_none (a := .pool a) ServerAction.noConfusion ServerAction.noConfusion
    trivial hproductive
  rw [serverStep, if_pos hconcedes, Option.map_eq_none_iff, receiver_step, ThreadPool.serviceStep,
    if_pos hallowed, Option.map_eq_none_iff] at hnone
  exact hnone

/-- **Where the receiver has nothing left to do, the pool has nothing left to do.** -/
theorem Idle.settled {guard : ServerState → ServerAction → Prop}
    (h : Idle z fuel texts order s) (hall : AllSent z R fuel fileSize count texts order ships)
    (hs : (server z fuel count texts order).ReachableVia guard s) :
    (receiver z fuel count texts order).Settled
      (ThreadPool.serviceProductive RecvEvent.productive) s.tasks := by
  intro a hproductive
  cases a with
  | work worker event =>
      exact Option.map_eq_none_iff.mp
        (h.step_eq_none (a := .work worker event) ServerAction.noConfusion trivial hproductive)
  | pool a =>
      rw [receiver_step]
      by_cases hallowed : s.tasks.Allows (fun s k => s.hasExited (order.conn k)) (count + 1) a
      · rw [ThreadPool.serviceStep, if_pos hallowed, Option.map_eq_none_iff]
        by_cases hpush : ∀ caller task, a ≠ .push caller task
        · exact h.resting.poolStep_eq_none hall hs hpush hproductive hallowed
        · push Not at hpush
          obtain ⟨caller, task, rfl⟩ := hpush
          have hless : s.supervise.accepted < count + 1 :=
            (joined_of_reachable hs).accepted ▸ hallowed
          exact absurd (h.step_eq_none (a := .enqueue) ServerAction.noConfusion trivial rfl)
            (exists_enqueue hs h.resting.notifying_eq_empty (h.resting.listening hless.ne) hless)
      · rw [ThreadPool.serviceStep, if_neg hallowed]

/-- **Where the receiver has nothing left to do, the supervisor has nothing left to do.** -/
theorem Idle.quiet {guard : ServerState → ServerAction → Prop} (h : Idle z fuel texts order s)
    (hall : AllSent z R fuel fileSize count texts order ships)
    (hs : (server z fuel count texts order).ReachableVia guard s)
    (hexited : ∀ k < count + 1, s.tasks.inner.hasExited (order.conn k) = true) :
    Quiet count s.supervise := by
  intro e hsmooth hintime hproductive
  cases e with
  | enqueue =>
      refine if_neg fun hmore => ?_
      exact exists_enqueue hs h.resting.notifying_eq_empty hmore.1 hmore.2
        (h.step_eq_none ServerAction.noConfusion trivial rfl)
  | push => exact h.resting.endStep_eq_none (Or.inl rfl) hintime
  | count => exact h.resting.endStep_eq_none (Or.inr (Or.inl rfl)) hintime
  | notify => exact h.resting.endStep_eq_none (Or.inr (Or.inr rfl)) hintime
  | storeSlicesNum =>
      refine if_neg fun hopen => ?_
      obtain ⟨-, hrecorded, -⟩ := allDelivered_of_exited hall (tasks_of_server hs) hexited
      have hstored := (joined_of_reachable hs).slicesNum.trans hrecorded.slicesNum_eq
      have hpos := hall.count_pos
      omega
  | finish task result =>
      refine if_neg fun hopen => ?_
      obtain ⟨increments, hordered⟩ := ordered_of_reachable (supervise_reachable hall hs)
      have hlt := hopen.1.trans_le hordered.accepted_le
      exact h.resting.ready hall hs hopen.1 (hexited task hlt) hopen.2
  | supervise action =>
      have hconnects : Connects (.supervise action) := by
        cases action with
        | connect success =>
            cases success with
            | true => trivial
            | false => exact hsmooth
        | loadThNum | loadNum | block | wake | collect | get | write => trivial
      exact Option.map_eq_none_iff.mp
        (h.step_eq_none (a := .supervise action) ServerAction.noConfusion hconnects hproductive)

/-- The supervisor's side of a run in which `connect` succeeds goes smoothly. -/
theorem smooth_of_connects {guard : ServerState → ServerAction → Prop} {a : ServerAction}
    {e : EndAction} {supervise : EndState}
    (h : AllSent z R fuel fileSize count texts order ships)
    (hs : (server z fuel count texts order).ReachableVia guard s) (hconnects : Connects a)
    (hseen : s.seen order a = some e) (hend : endStep count s.supervise e = some supervise) :
    Smooth e := by
  cases a with
  | ready task =>
      obtain ⟨result, hresult, rfl⟩ := Option.map_eq_some_iff.mp hseen
      -- the task is one of those the accept loop has counted
      obtain ⟨⟨haccepted, -⟩, -⟩ := Option.ite_none_right_eq_some.mp hend
      obtain ⟨increments, hordered⟩ := ordered_of_reachable (supervise_reachable h hs)
      have hlt := (order.conn_lt_iff task).mpr (haccepted.trans_le hordered.accepted_le)
      have hreturned := taskEnd_of_exited h (tasks_of_server hs) hlt (hasExited_of_taskEnd hresult)
      rw [hresult, Option.some_inj] at hreturned
      rw [hreturned]
      trivial
  | supervise action =>
      cases hseen
      cases action with
      | connect success =>
          cases success with
          | true => trivial
          | false => exact hconnects
      | loadThNum | loadNum | block | wake | collect | get | write => trivial
  | pool a => cases hseen
  | enqueue | push | count | notify | work _ _ =>
      cases hseen
      trivial

theorem inTime_of_timely {a : ServerAction} {e : EndAction} (htimely : Timely count s a)
    (hseen : s.seen order a = some e) : InTime count s.supervise e := by
  rintro rfl
  cases a with
  | notify => exact htimely rfl
  | ready task =>
      obtain ⟨result, -, hcontra⟩ := Option.map_eq_some_iff.mp hseen
      cases hcontra
  | enqueue | push | count | pool _ | work _ _ | supervise _ => cases hseen

theorem loadNum_of_seen {a : ServerAction}
    (hseen : s.seen order a = some (.supervise .loadNum)) : a = .supervise .loadNum := by
  cases a with
  | supervise action =>
      cases hseen
      rfl
  | ready task =>
      obtain ⟨result, -, hcontra⟩ := Option.map_eq_some_iff.mp hseen
      cases hcontra
  | enqueue | push | count | notify | pool _ | work _ _ => cases hseen

/-! ## The end of a run -/

/-- **A marker that has been written stands for all that was sent**, when no test was
misled. -/
theorem allDelivered_of_reported {guard : ServerState → ServerAction → Prop}
    (h : AllSent z R fuel fileSize count texts order ships) (hlt : count < 32767)
    (hnotMisled : ∀ s a, guard s a → NotMisled count s a)
    (hs : (server z fuel count texts order).ReachableVia guard s)
    (hreported : s.supervise.phase = .reported) :
    AllDelivered fileSize count ships s.tasks.inner := by
  have hright : (endSystem count).ReachableVia (fun s a => ¬ Misleads count s a) s.supervise := by
    refine supervise_of_server h (fun s a e _ hreach hguard hseen _ hmisleads => ?_) hs
    obtain ⟨hless, rfl, htorn⟩ :=
      (misleads_iff hlt.le (supervise_reachable h hreach) e).mp hmisleads
    exact hless.ne (hnotMisled s a hguard (loadNum_of_seen hseen) htorn)
  obtain ⟨-, -, hreturned⟩ := allReturned_of_reported (by omega) hright hreported
  have hjoined := joined_of_reachable hs
  exact allDelivered_of_exited h (tasks_of_server hs) fun k hk =>
    hasExited_of_taskEnd (hjoined.ready k .returned (hreturned k hk))

/-- **Where the receiver has nothing left to do, everything is delivered, and the marker is
written or the supervisor sleeps beside a condition that holds.** -/
theorem Idle.outcome {guard : ServerState → ServerAction → Prop}
    (h : Idle z fuel texts order s) (hall : AllSent z R fuel fileSize count texts order ships)
    (hlt : count < 32767)
    (hs : (server z fuel count texts order).ReachableVia guard s)
    (hconnects : ∀ s a, guard s a → Connects a) :
    AllDelivered fileSize count ships s.tasks.inner ∧ Quiet count s.supervise ∧
      AllReturned count s.supervise ∧
      waitCondition s.supervise.slicesThNum s.supervise.slicesNum = true ∧
      (s.supervise.phase = .reported ∨ s.supervise.phase = .asleep) := by
  have hexited := (receiver_endsIn hall).settled s.tasks (tasks_of_server hs) (h.settled hall hs)
  have hquiet := h.quiet hall hs hexited
  obtain ⟨⟨increments, hordered⟩, hsmoothly⟩ := smoothly_of_reachable
    (supervise_of_server hall (fun s a e _ hreach hguard hseen hend =>
      smooth_of_connects hall hreach (hconnects s a hguard) hseen hend) hs)
  exact ⟨allDelivered_of_exited hall (tasks_of_server hs) hexited, hquiet,
    hquiet.outcome hall.count_pos hlt hordered hsmoothly⟩

/-- When the last notification waits for the header, the supervisor does not stay asleep. -/
theorem Idle.reported {guard : ServerState → ServerAction → Prop}
    (h : Idle z fuel texts order s) (hall : AllSent z R fuel fileSize count texts order ships)
    (hlt : count < 32767)
    (hs : (server z fuel count texts order).ReachableVia guard s)
    (hconnects : ∀ s a, guard s a → Connects a) (htimely : ∀ s a, guard s a → Timely count s a) :
    s.supervise.phase = .reported := by
  obtain ⟨-, hquiet, -, -, hphase⟩ := h.outcome hall hlt hs hconnects
  have hvigilant := vigilant_of_reachable hall.count_pos hlt
    (supervise_of_server hall (fun s a e _ hreach hguard hseen hend =>
      ⟨smooth_of_connects hall hreach (hconnects s a hguard) hseen hend,
        inTime_of_timely (htimely s a hguard) hseen⟩) hs)
  obtain ⟨increments, hordered⟩ := ordered_of_reachable (supervise_reachable hall hs)
  -- the accept loop is done, and so the supervisor is not asleep
  obtain ⟨hlistening, haccepted, -⟩ := hquiet.accepted hall.count_pos hlt hordered
  exact hphase.resolve_right (hvigilant hlistening haccepted).2.1

end Server

end SliceTransfer.Server

namespace SliceTransfer

open Bytes Decimal FileSlice Server Supervisor TransitionSystem

/-! ## The result -/

end SliceTransfer
