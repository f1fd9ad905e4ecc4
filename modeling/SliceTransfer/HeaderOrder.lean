import SliceTransfer.FileHeader
import SliceTransfer.Framing
import SliceTransfer.Receiver.Frame
import SliceTransfer.Lib.TransitionSystem

/-!
# Header before slices

The branch of a first read is chosen by two globals, `split_len_` and `start_`, which
the header task sets.  The system `poolSystem` runs the header task and the slice
tasks on a pool that takes them in connection order, one access to the globals a
step.  Each selected branch is logged.

* With one worker the header task ends before a slice task starts.  If it reads the
  whole text, `HeaderPending` leads it step by step to the recorded header, and no
  slice task changes that (`inOrder_of_single`); if not, the first slice task finds
  other globals than announced (`not_inOrder_of_partial`).
* With two workers the first slice task can overtake the header task
  (`not_inOrder_of_many`).
-/

namespace SliceTransfer

open Server Decimal

/-! ## The system -/

/-- The steps of a `Recv` task up to its branch, of the header branch, and the
wake-ups of a slice task behind its first read. -/
inductive TaskPc
  | started
  | testedHeader
  | entering
  | reading (nLeft : ℕ)
  | haveRead (bytes : List UInt8)
  | storing (sizeText numText : List UInt8) (stages : List HeaderStage)
  | slicing (task : RecvTask)
  deriving DecidableEq, Repr

/-- The branch a task selects after its first read, with the globals it sees. -/
inductive Branch
  | header
  | slice (startSet : Bool) (splitLen : ℕ)
  deriving DecidableEq, Repr

/-- What the environment decides in a step. -/
structure Surroundings where
  bytes : List UInt8
  stale : List UInt8
  event : RecvEvent
  deriving DecidableEq, Repr

/-- The effect of one step of a task; it has ended when there is no next step. -/
structure TaskStep where
  globals : Globals
  next : Option TaskPc
  branch : Option Branch

/-- Where a task goes on after a wake-up. -/
def nextOf : RecvStatus → Option TaskPc
  | .waiting task => some (.slicing task)
  | _ => none

section System

variable {D : Type} (z : ZstdDecompress D) (fuel : ℕ) (arrived : List UInt8)
  (streams : ℕ → List UInt8)

/-- One step of task number `task`.  Task 0 is on the first connection, where
`arrived` is what the socket holds when it is read; the others read any part of
their slice stream. -/
def taskStep (task : ℕ) (g : Globals) (env : Surroundings) : TaskPc → Option TaskStep
  | .started => some ⟨g, some (if g.expectsHeader then .testedHeader else .entering), none⟩
  | .testedHeader =>
      some ⟨{ g with readsMaxBytes := kFileSliceHeaderLen + 1 }, some .entering, none⟩
  | .entering => some ⟨g, some (.reading g.readsMaxBytes), none⟩
  | .reading nLeft =>
      if task = 0 then some ⟨g, some (.haveRead (arrived.take nLeft)), none⟩
      else if env.bytes <+: streams task ∧ env.bytes.length ≤ nLeft then
        some ⟨g, some (.haveRead env.bytes), none⟩
      else none
  | .haveRead bytes =>
      if g.expectsHeader then
        some ⟨g, (headerParts bytes).map fun parts => .storing parts.1 parts.2 headerStages,
          some .header⟩
      else
        let r := (afterRead g {} env.stale ⟨bytes, false⟩).finish z fuel
        some ⟨r.globals, nextOf r.status, some (.slice g.start.isSome g.splitLen)⟩
  | .storing _ _ [] => some ⟨g, none, none⟩
  | .storing sizeText numText (stage :: rest) =>
      match stage.apply sizeText numText g with
      | .error _ => some ⟨g, none, none⟩
      | .ok g =>
          some ⟨g, if rest = [] then none else some (.storing sizeText numText rest), none⟩
  | .slicing recvTask =>
      (recvStep z fuel g recvTask env.event).map fun r => ⟨r.globals, nextOf r.status, none⟩

structure Job where
  task : ℕ
  pc : TaskPc
  deriving DecidableEq, Repr

/-- The tasks in the queue are those from `taken` to `accepted`. -/
structure PoolState where
  accepted : ℕ
  taken : ℕ
  jobs : ℕ → Option Job
  globals : Globals
  branches : List (ℕ × Branch)

inductive PoolAction
  | accept
  | take (worker : ℕ)
  | work (worker : ℕ) (env : Surroundings)
  deriving DecidableEq, Repr

/-- The state after worker `worker` took the oldest task of the queue. -/
def PoolState.dispatch (s : PoolState) (worker : ℕ) : PoolState :=
  { s with
    taken := s.taken + 1
    jobs := Function.update s.jobs worker (some ⟨s.taken, .started⟩) }

/-- The state after worker `worker` made a step with `job`. -/
def PoolState.settle (s : PoolState) (worker : ℕ) (job : Job) (r : TaskStep) : PoolState :=
  { s with
    globals := r.globals
    jobs := Function.update s.jobs worker (r.next.map fun pc => ⟨job.task, pc⟩)
    branches := r.branch.toList.map (fun branch => (job.task, branch)) ++ s.branches }

@[simp] theorem PoolState.dispatch_jobs_self (s : PoolState) (worker : ℕ) :
    (s.dispatch worker).jobs worker = some ⟨s.taken, .started⟩ := by
  simp [dispatch]

theorem PoolState.dispatch_jobs_of_ne (s : PoolState) {worker other : ℕ} (hne : other ≠ worker) :
    (s.dispatch worker).jobs other = s.jobs other := by
  simp [dispatch, hne]

@[simp] theorem PoolState.settle_jobs_self (s : PoolState) (worker : ℕ) (job : Job)
    (r : TaskStep) : (s.settle worker job r).jobs worker = r.next.map fun pc => ⟨job.task, pc⟩ := by
  simp [settle]

theorem PoolState.settle_jobs_of_ne (s : PoolState) {worker other : ℕ} (job : Job) (r : TaskStep)
    (hne : other ≠ worker) : (s.settle worker job r).jobs other = s.jobs other := by
  simp [settle, hne]

def poolStep (slicesNum workers : ℕ) (s : PoolState) : PoolAction → Option PoolState
  | .accept =>
      if s.accepted < slicesNum + 1 then some { s with accepted := s.accepted + 1 } else none
  | .take worker =>
      if worker < workers ∧ s.jobs worker = none ∧ s.taken < s.accepted then
        some (s.dispatch worker)
      else none
  | .work worker env =>
      match s.jobs worker with
      | none => none
      | some job =>
          (taskStep z fuel arrived streams job.task s.globals env job.pc).map (s.settle worker job)

variable {z fuel arrived streams} in
/-- What a step of the pool can do. -/
theorem poolStep_cases {slicesNum workers : ℕ} {s s' : PoolState} {action : PoolAction}
    (h : poolStep z fuel arrived streams slicesNum workers s action = some s') :
    s' = { s with accepted := s.accepted + 1 } ∨
      (∃ worker, worker < workers ∧ s.jobs worker = none ∧ s' = s.dispatch worker) ∨
      ∃ worker job env r, s.jobs worker = some job ∧
        taskStep z fuel arrived streams job.task s.globals env job.pc = some r ∧
        s' = s.settle worker job r := by
  cases action with
  | accept =>
      rw [poolStep] at h
      split at h
      · cases h
        exact Or.inl rfl
      · cases h
  | take worker =>
      rw [poolStep] at h
      split at h
      · rename_i henabled
        obtain ⟨hworker, hidle, -⟩ := henabled
        cases h
        exact Or.inr (Or.inl ⟨worker, hworker, hidle, rfl⟩)
      · cases h
  | work worker env =>
      rw [poolStep] at h
      cases hjob : s.jobs worker with
      | none => rw [hjob] at h; cases h
      | some job =>
          rw [hjob] at h
          obtain ⟨r, hr, rfl⟩ := Option.map_eq_some_iff.mp h
          exact Or.inr (Or.inr ⟨worker, job, env, r, hjob, hr, rfl⟩)

/-- `workers` are the threads of the pool that the supervisor leaves to `Recv` tasks. -/
def poolSystem (slicesNum workers : ℕ) : TransitionSystem PoolState PoolAction where
  init := ⟨0, 0, fun _ => none, Globals.initial, []⟩
  step := poolStep z fuel arrived streams slicesNum workers

end System

/-- The first connection took the header branch, every other one the slice branch,
with the output mapped and the announced split length. -/
def InOrder (fileSize slicesNum : ℕ) (s : PoolState) : Prop :=
  ∀ entry ∈ s.branches, if entry.1 = 0 then entry.2 = .header
    else entry.2 = .slice true (fileSize / slicesNum)

/-! ## One worker and a whole header -/

section Single

variable {D : Type} {z : ZstdDecompress D} {fuel : ℕ} {arrived : List UInt8}
  {streams : ℕ → List UInt8} {fileSize slicesNum workers : ℕ} {g : Globals} {env : Surroundings}
  {pc : TaskPc} {r : TaskStep}

/-- The globals while the header task runs, up to its first store. -/
def budgeted : Globals := { Globals.initial with readsMaxBytes := kFileSliceHeaderLen + 1 }

/-- What is left of the header task records the header. -/
def HeaderPending (fileSize slicesNum : ℕ) (g : Globals) : TaskPc → Prop
  | .started | .testedHeader => g = Globals.initial
  | .entering => g = budgeted
  | .reading nLeft => g = budgeted ∧ nLeft = kFileSliceHeaderLen + 1
  | .haveRead bytes => g = budgeted ∧ bytes = headerText fileSize slicesNum
  | .storing sizeText numText stages => stages ≠ [] ∧ storeHeader sizeText numText stages g =
      (recordHeader fileSize slicesNum budgeted, .returned 0)
  | .slicing _ => False

/-- A slice task never was in the header branch. -/
def SlicePc : TaskPc → Prop
  | .testedHeader => False
  | .storing _ _ _ => False
  | _ => True

/-- The header task goes on towards the recorded header. -/
theorem HeaderPending.step (hwhole : arrived.take (kFileSliceHeaderLen + 1) =
      headerText fileSize slicesNum)
    (hsize : fileSize < 2 ^ 64) (hpos : 1 ≤ slicesNum) (hnum : slicesNum < 2 ^ 32)
    (h : HeaderPending fileSize slicesNum g pc)
    (hr : taskStep z fuel arrived streams 0 g env pc = some r) :
    (∀ branch ∈ r.branch, branch = .header) ∧
      match r.next with
      | some pc' => HeaderPending fileSize slicesNum r.globals pc'
      | none => r.globals.Recorded fileSize slicesNum := by
  cases pc with
  | started =>
      cases hr
      obtain rfl : g = Globals.initial := h
      exact ⟨by simp, rfl⟩
  | testedHeader =>
      cases hr
      obtain rfl : g = Globals.initial := h
      exact ⟨by simp, rfl⟩
  | entering =>
      cases hr
      obtain rfl : g = budgeted := h
      exact ⟨by simp, rfl, rfl⟩
  | reading nLeft =>
      obtain ⟨rfl, rfl⟩ : g = budgeted ∧ nLeft = kFileSliceHeaderLen + 1 := h
      rw [taskStep, if_pos rfl] at hr
      cases hr
      exact ⟨by simp, rfl, hwhole⟩
  | haveRead bytes =>
      obtain ⟨rfl, rfl⟩ : g = budgeted ∧ bytes = headerText fileSize slicesNum := h
      have hexpects : budgeted.expectsHeader = true := rfl
      rw [taskStep, if_pos hexpects] at hr
      cases hr
      have hprocess := processHeader_headerText budgeted hsize hpos hnum
      rw [processHeader] at hprocess
      cases hparts : headerParts (headerText fileSize slicesNum) with
      | none =>
          rw [hparts] at hprocess
          exact absurd (congrArg Prod.snd hprocess) (by simp)
      | some parts =>
          rw [hparts] at hprocess
          exact ⟨by simp, by simp [headerStages], hprocess⟩
  | storing sizeText numText stages =>
      obtain ⟨hne, hstore⟩ := h
      obtain ⟨stage, rest, rfl⟩ := List.exists_cons_of_ne_nil hne
      simp only [storeHeader] at hstore
      rw [taskStep] at hr
      cases happly : stage.apply sizeText numText g with
      | error exit =>
          -- every assignment of a whole header goes through
          rw [happly] at hstore
          exact absurd (congrArg Prod.snd hstore) (HeaderStage.apply_ne_returned happly 0)
      | ok g' =>
          rw [happly] at hstore hr
          cases hr
          refine ⟨by simp, ?_⟩
          by_cases hlast : rest = []
          · subst hlast
            obtain rfl : g' = recordHeader fileSize slicesNum budgeted := congrArg Prod.fst hstore
            exact recorded_recordHeader fileSize slicesNum budgeted
          · simp only [if_neg hlast]
            exact ⟨hlast, hstore⟩
  | slicing task => exact h.elim

theorem slicePc_of_mem_nextOf {status : RecvStatus} (h : pc ∈ nextOf status) : SlicePc pc := by
  cases status with
  | waiting task =>
      cases h
      trivial
  | complete index => cases h
  | exited exit => cases h

/-- A slice task that starts behind the header stays in the slice branch. -/
theorem SlicePc.step {task : ℕ} (htask : task ≠ 0) (hrecorded : g.Recorded fileSize slicesNum)
    (h : SlicePc pc) (hr : taskStep z fuel arrived streams task g env pc = some r) :
    r.globals.Recorded fileSize slicesNum ∧
      (∀ branch ∈ r.branch, branch = .slice true (fileSize / slicesNum)) ∧
      ∀ pc' ∈ r.next, SlicePc pc' := by
  have hslice := hrecorded.expectsHeader
  cases pc with
  | started =>
      rw [taskStep, hslice] at hr
      cases hr
      exact ⟨hrecorded, by simp, by simp [SlicePc]⟩
  | testedHeader => exact h.elim
  | entering =>
      cases hr
      exact ⟨hrecorded, by simp, by simp [SlicePc]⟩
  | reading nLeft =>
      rw [taskStep, if_neg htask] at hr
      split at hr
      · cases hr
        exact ⟨hrecorded, by simp, by simp [SlicePc]⟩
      · cases hr
  | haveRead bytes =>
      rw [taskStep, hslice] at hr
      cases hr
      refine ⟨(hrecorded.afterRead {} env.stale ⟨bytes, false⟩).finish z fuel, ?_, ?_⟩
      · obtain ⟨file, hfile, -⟩ := hrecorded.start_eq
        simp [hfile, hrecorded.splitLen_eq]
      · exact fun pc' hpc' => slicePc_of_mem_nextOf hpc'
  | storing sizeText numText stages => exact h.elim
  | slicing recvTask =>
      obtain ⟨last, hlast, rfl⟩ := Option.map_eq_some_iff.mp hr
      exact ⟨hrecorded.recvStep hlast, by simp, fun pc' hpc' => slicePc_of_mem_nextOf hpc'⟩

/-- What holds between two steps when worker 0 takes all tasks. -/
structure Serial (fileSize slicesNum : ℕ) (s : PoolState) : Prop where
  inOrder : InOrder fileSize slicesNum s
  others : ∀ worker, worker ≠ 0 → s.jobs worker = none
  idle : s.jobs 0 = none →
    s.taken = 0 ∧ s.globals = Globals.initial ∨
      s.taken ≠ 0 ∧ s.globals.Recorded fileSize slicesNum
  busy : ∀ job, s.jobs 0 = some job → s.taken ≠ 0 ∧
    (job.task = 0 ∧ HeaderPending fileSize slicesNum s.globals job.pc ∨
      job.task ≠ 0 ∧ s.globals.Recorded fileSize slicesNum ∧ SlicePc job.pc)

theorem InOrder.settle {s : PoolState} {worker : ℕ} {job : Job}
    (h : InOrder fileSize slicesNum s) (hbranch : ∀ branch ∈ r.branch,
      if job.task = 0 then branch = .header else branch = .slice true (fileSize / slicesNum)) :
    InOrder fileSize slicesNum (s.settle worker job r) := by
  intro entry hentry
  rcases List.mem_append.mp hentry with hnew | hold
  · obtain ⟨branch, hmem, rfl⟩ := List.mem_map.mp hnew
    exact hbranch branch (Option.mem_toList.mp hmem)
  · exact h entry hold

theorem Serial.work {s : PoolState} {job : Job}
    (hwhole : arrived.take (kFileSliceHeaderLen + 1) = headerText fileSize slicesNum)
    (hsize : fileSize < 2 ^ 64) (hpos : 1 ≤ slicesNum) (hnum : slicesNum < 2 ^ 32)
    (h : Serial fileSize slicesNum s) (hjob : s.jobs 0 = some job)
    (hr : taskStep z fuel arrived streams job.task s.globals env job.pc = some r) :
    Serial fileSize slicesNum (s.settle 0 job r) := by
  have hothers : ∀ worker, worker ≠ 0 → (s.settle 0 job r).jobs worker = none := by
    intro worker hworker
    rw [s.settle_jobs_of_ne job r hworker, h.others worker hworker]
  obtain ⟨htaken, hpending⟩ := h.busy job hjob
  rcases hpending with ⟨hheader, hpending⟩ | ⟨hslice, hrecorded, hpc⟩
  · rw [hheader] at hr
    obtain ⟨hbranch, hnext⟩ := hpending.step hwhole hsize hpos hnum hr
    refine ⟨h.inOrder.settle (by simpa [hheader] using hbranch), hothers, ?_, ?_⟩
    · intro hidle
      rw [s.settle_jobs_self, Option.map_eq_none_iff] at hidle
      rw [hidle] at hnext
      exact Or.inr ⟨htaken, hnext⟩
    · intro job' hbusy
      rw [s.settle_jobs_self] at hbusy
      obtain ⟨pc', hpc', rfl⟩ := Option.map_eq_some_iff.mp hbusy
      rw [hpc'] at hnext
      exact ⟨htaken, Or.inl ⟨hheader, hnext⟩⟩
  · obtain ⟨hglobals, hbranch, hnext⟩ := hpc.step hslice hrecorded hr
    refine ⟨h.inOrder.settle (by simpa [hslice] using hbranch), hothers, ?_, ?_⟩
    · exact fun _ => Or.inr ⟨htaken, hglobals⟩
    · intro job' hbusy
      rw [s.settle_jobs_self] at hbusy
      obtain ⟨pc', hpc', rfl⟩ := Option.map_eq_some_iff.mp hbusy
      exact ⟨htaken, Or.inr ⟨hslice, hglobals, hnext pc' hpc'⟩⟩

theorem Serial.take {s : PoolState} (h : Serial fileSize slicesNum s) (hidle : s.jobs 0 = none) :
    Serial fileSize slicesNum (s.dispatch 0) := by
  refine ⟨h.inOrder, ?_, ?_, ?_⟩
  · intro worker hworker
    rw [s.dispatch_jobs_of_ne hworker, h.others worker hworker]
  · intro hnone
    rw [s.dispatch_jobs_self] at hnone
    cases hnone
  · intro job hjob
    rw [s.dispatch_jobs_self] at hjob
    cases hjob
    refine ⟨Nat.succ_ne_zero _, ?_⟩
    rcases h.idle hidle with ⟨hfirst, hglobals⟩ | ⟨hlater, hrecorded⟩
    · exact Or.inl ⟨hfirst, hglobals⟩
    · exact Or.inr ⟨hlater, hrecorded, trivial⟩

/-- **With one worker and a whole header every branch is in order.** -/
theorem inOrder_of_single (hwhole : arrived.take (kFileSliceHeaderLen + 1) =
      headerText fileSize slicesNum)
    (hsize : fileSize < 2 ^ 64) (hpos : 1 ≤ slicesNum) (hnum : slicesNum < 2 ^ 32)
    (hworkers : workers ≤ 1) {s : PoolState}
    (hs : (poolSystem z fuel arrived streams slicesNum workers).Reachable s) :
    InOrder fileSize slicesNum s := by
  have hserial : Serial fileSize slicesNum s := by
    have hinit : Serial fileSize slicesNum
        (poolSystem z fuel arrived streams slicesNum workers).init := by
      refine ⟨?_, fun _ _ => rfl, fun _ => Or.inl ⟨rfl, rfl⟩, ?_⟩
      · intro entry hentry
        cases hentry
      · intro job hjob
        cases hjob
    refine hs.invariant hinit ?_
    intro s action s' h hstep
    rcases poolStep_cases hstep with rfl | ⟨worker, hworker, hidle, rfl⟩ |
      ⟨worker, job, env, r, hjob, hr, rfl⟩
    · exact ⟨h.inOrder, h.others, h.idle, h.busy⟩
    · obtain rfl : worker = 0 := by omega
      exact h.take hidle
    · obtain rfl : worker = 0 := by
        by_contra hne
        rw [h.others worker hne] at hjob
        cases hjob
      exact h.work hwhole hsize hpos hnum hjob hr
  exact hserial.inOrder

/-- Without a worker nothing runs. -/
theorem inOrder_of_none {s : PoolState}
    (hs : (poolSystem z fuel arrived streams slicesNum 0).Reachable s) :
    InOrder fileSize slicesNum s := by
  have hidle : (∀ worker, s.jobs worker = none) ∧ s.branches = [] := by
    refine hs.invariant (I := fun s => (∀ worker, s.jobs worker = none) ∧ s.branches = [])
      ⟨fun _ => rfl, rfl⟩ ?_
    intro s action s' h hstep
    rcases poolStep_cases hstep with rfl | ⟨worker, hworker, -, rfl⟩ |
      ⟨worker, job, env, r, hjob, -, rfl⟩
    · exact h
    · exact absurd hworker (Nat.not_lt_zero worker)
    · rw [h.1 worker] at hjob
      cases hjob
  intro entry hentry
  rw [hidle.2] at hentry
  cases hentry

end Single

/-! ## A slice task that comes too early -/

section Early

variable {D : Type} {z : ZstdDecompress D} {fuel : ℕ} {arrived : List UInt8}
  {streams : ℕ → List UInt8} {fileSize slicesNum workers : ℕ} {s : PoolState}

theorem reachable_dispatch
    (hs : (poolSystem z fuel arrived streams slicesNum workers).Reachable s) (worker : ℕ)
    (hworker : worker < workers) (hidle : s.jobs worker = none) (hqueued : s.taken < s.accepted) :
    (poolSystem z fuel arrived streams slicesNum workers).Reachable (s.dispatch worker) :=
  hs.next (a := .take worker) (if_pos ⟨hworker, hidle, hqueued⟩)

theorem reachable_settle
    (hs : (poolSystem z fuel arrived streams slicesNum workers).Reachable s) {worker : ℕ}
    {job : Job} (hjob : s.jobs worker = some job) (env : Surroundings) {r : TaskStep}
    (hr : taskStep z fuel arrived streams job.task s.globals env job.pc = some r) :
    (poolSystem z fuel arrived streams slicesNum workers).Reachable (s.settle worker job r) := by
  refine hs.next (a := .work worker env) ?_
  change (match s.jobs worker with | none => none | some job => _) = _
  rw [hjob]
  exact Option.map_eq_some_iff.mpr ⟨r, hr, rfl⟩

variable (z fuel arrived streams workers) in
/-- The first two connections have been accepted. -/
theorem reachable_accepted (hpos : 1 ≤ slicesNum) :
    (poolSystem z fuel arrived streams slicesNum workers).Reachable
      ⟨2, 0, fun _ => none, Globals.initial, []⟩ := by
  have hfirst : (poolSystem z fuel arrived streams slicesNum workers).Reachable
      ⟨1, 0, fun _ => none, Globals.initial, []⟩ :=
    (TransitionSystem.Reachable.init _).next (a := .accept) rfl
  have hroom : 1 < slicesNum + 1 := Nat.succ_lt_succ hpos
  exact hfirst.next (a := .accept) (if_pos hroom)

/-- The branch a task selects when it sees the globals `g`. -/
def branchFor (g : Globals) : Branch :=
  if g.expectsHeader then .header else .slice g.start.isSome g.splitLen

/-- A task running alone, one step for each of the surroundings. -/
def solo (z : ZstdDecompress D) (fuel : ℕ) (arrived : List UInt8) (streams : ℕ → List UInt8)
    (task : ℕ) : List Surroundings → Globals → Option TaskPc → Option (Globals × Option TaskPc)
  | [], g, pc => some (g, pc)
  | _ :: _, _, none => none
  | env :: rest, g, some pc =>
      (taskStep z fuel arrived streams task g env pc).bind fun r =>
        solo z fuel arrived streams task rest r.globals r.next

/-- Any worker may run its task while the others wait. -/
theorem exists_solo {envs : List Surroundings} {worker task : ℕ} {pc : TaskPc} {g : Globals}
    {next : Option TaskPc}
    (hs : (poolSystem z fuel arrived streams slicesNum workers).Reachable s)
    (hjob : s.jobs worker = some ⟨task, pc⟩)
    (hrun : solo z fuel arrived streams task envs s.globals (some pc) = some (g, next)) :
    ∃ s', (poolSystem z fuel arrived streams slicesNum workers).Reachable s' ∧ s'.globals = g ∧
      s'.jobs worker = next.map (fun pc => ⟨task, pc⟩) ∧ s'.accepted = s.accepted ∧
      s'.taken = s.taken := by
  induction envs generalizing s pc with
  | nil =>
      cases hrun
      exact ⟨s, hs, rfl, hjob, rfl, rfl⟩
  | cons env rest ih =>
      obtain ⟨r, hr, hrest⟩ := Option.bind_eq_some_iff.mp hrun
      have hnext := reachable_settle hs hjob env hr
      have hown := s.settle_jobs_self worker ⟨task, pc⟩ r
      cases hpc : r.next with
      | none =>
          -- the task has ended, so this was the last step
          rw [hpc] at hrest hown
          cases rest with
          | nil =>
              cases hrest
              exact ⟨_, hnext, rfl, hown, rfl, rfl⟩
          | cons env' rest' => cases hrest
      | some pc' =>
          rw [hpc] at hrest hown
          have hlast := ih hnext hown hrest
          exact hlast

variable (z fuel arrived streams) in
theorem exists_taskStep_haveRead (task : ℕ) (g : Globals) (env : Surroundings)
    (bytes : List UInt8) :
    ∃ r, taskStep z fuel arrived streams task g env (.haveRead bytes) = some r ∧
      r.branch = some (branchFor g) := by
  rw [taskStep, branchFor]
  split
  · exact ⟨_, rfl, rfl⟩
  · exact ⟨_, rfl, rfl⟩

variable (z fuel arrived streams) in
/-- The steps of a slice task up to its branch; `read` gets as many bytes as the
budget allows. -/
theorem exists_solo_started {task : ℕ} (htask : task ≠ 0) (g : Globals) :
    ∃ envs g' bytes, solo z fuel arrived streams task envs g (some .started) =
        some (g', some (.haveRead bytes)) ∧ branchFor g' = branchFor g := by
  let env : Surroundings := ⟨(streams task).take g.readsMaxBytes, [], .notReadable⟩
  let lowEnv : Surroundings :=
    ⟨(streams task).take (kFileSliceHeaderLen + 1), [], .notReadable⟩
  by_cases hexpects : g.expectsHeader = true
  · -- the task also lowers the budget, which does not matter for the branch
    refine ⟨[env, env, env, lowEnv], { g with readsMaxBytes := kFileSliceHeaderLen + 1 },
      lowEnv.bytes, ?_, rfl⟩
    simp [solo, taskStep, hexpects, htask, lowEnv, List.take_prefix]
  · refine ⟨[env, env, env], g, env.bytes, ?_, rfl⟩
    simp [solo, taskStep, hexpects, htask, env, List.take_prefix]

/-- An idle worker can take the next slice task up to its branch. -/
theorem exists_branch_of_queued
    (hs : (poolSystem z fuel arrived streams slicesNum workers).Reachable s) (worker : ℕ)
    (hworker : worker < workers) (hidle : s.jobs worker = none) (hslice : s.taken ≠ 0)
    (hqueued : s.taken < s.accepted) :
    ∃ s', (poolSystem z fuel arrived streams slicesNum workers).Reachable s' ∧
      (s.taken, branchFor s.globals) ∈ s'.branches := by
  have htaken := reachable_dispatch hs worker hworker hidle hqueued
  obtain ⟨envs, g', bytes, hrun, hbranchFor⟩ :=
    exists_solo_started z fuel arrived streams hslice s.globals
  obtain ⟨s', hs', hglobals, hjob, -, -⟩ := exists_solo htaken (s.dispatch_jobs_self worker) hrun
  obtain ⟨r, hr, hbranch⟩ := exists_taskStep_haveRead z fuel arrived streams s.taken g'
    ⟨[], [], .notReadable⟩ bytes
  rw [← hglobals] at hr
  refine ⟨_, reachable_settle hs' hjob _ hr, ?_⟩
  simp [PoolState.settle, hbranch, hbranchFor]

/-- A slice task took a branch that is out of order. -/
theorem not_inOrder_of_branch {task : ℕ} {branch : Branch} (hmem : (task, branch) ∈ s.branches)
    (htask : task ≠ 0) (hbranch : branch ≠ .slice true (fileSize / slicesNum)) :
    ¬ InOrder fileSize slicesNum s := by
  intro hinOrder
  have hselected := hinOrder _ hmem
  rw [if_neg htask] at hselected
  exact hbranch hselected

/-- **With two workers the first slice task can overtake the header task.** -/
theorem not_inOrder_of_many (hpos : 1 ≤ slicesNum) (hworkers : 2 ≤ workers) :
    ∃ s, (poolSystem z fuel arrived streams slicesNum workers).Reachable s ∧
      ¬ InOrder fileSize slicesNum s := by
  have hheader := reachable_dispatch (reachable_accepted z fuel arrived streams workers hpos) 0
    (by omega) rfl Nat.zero_lt_two
  obtain ⟨s, hs, hmem⟩ := exists_branch_of_queued hheader 1 (by omega) rfl one_ne_zero
    Nat.one_lt_two
  exact ⟨s, hs, not_inOrder_of_branch hmem one_ne_zero Branch.noConfusion⟩

/-! ## A header that was not read whole -/

variable (z fuel arrived streams) in
/-- The header task running alone from its first assignment to its end. -/
theorem exists_solo_storing (sizeText numText : List UInt8) (stages : List HeaderStage)
    (g : Globals) :
    ∃ envs, solo z fuel arrived streams 0 envs g (some (.storing sizeText numText stages)) =
      some ((storeHeader sizeText numText stages g).1, none) := by
  let env : Surroundings := ⟨[], [], .notReadable⟩
  induction stages generalizing g with
  | nil => exact ⟨[env], rfl⟩
  | cons stage rest ih =>
      cases happly : stage.apply sizeText numText g with
      | error exit =>
          refine ⟨[env], ?_⟩
          simp [solo, taskStep, storeHeader, happly]
      | ok g' =>
          by_cases hlast : rest = []
          · refine ⟨[env], ?_⟩
            simp [solo, taskStep, storeHeader, happly, hlast]
          · obtain ⟨envs, hrun⟩ := ih g'
            refine ⟨env :: envs, ?_⟩
            simp [solo, taskStep, storeHeader, happly, hlast, hrun]

variable (z fuel arrived streams) in
/-- The header task running alone does what `processHeader` does. -/
theorem exists_solo_header :
    ∃ envs, solo z fuel arrived streams 0 envs Globals.initial (some .started) =
      some ((processHeader (arrived.take (kFileSliceHeaderLen + 1)) budgeted).1, none) := by
  let env : Surroundings := ⟨[], [], .notReadable⟩
  have hexpects : budgeted.expectsHeader = true := rfl
  have hbranch : ∀ envs, solo z fuel arrived streams 0 (List.replicate 5 env ++ envs)
      Globals.initial (some .started) = solo z fuel arrived streams 0 envs budgeted
        ((headerParts (arrived.take (kFileSliceHeaderLen + 1))).map fun parts =>
          .storing parts.1 parts.2 headerStages) := fun _ => rfl
  rw [processHeader]
  cases hparts : headerParts (arrived.take (kFileSliceHeaderLen + 1)) with
  | none =>
      refine ⟨List.replicate 5 env ++ [], ?_⟩
      rw [hbranch, hparts]
      rfl
  | some parts =>
      obtain ⟨envs, hrun⟩ :=
        exists_solo_storing z fuel arrived streams parts.1 parts.2 headerStages budgeted
      refine ⟨List.replicate 5 env ++ envs, ?_⟩
      rw [hbranch, hparts]
      exact hrun

/-- A count that lacks digits makes the slices longer. -/
theorem div_lt_div_countPrefix {m : ℕ} (hpos : 1 ≤ slicesNum) (hle : slicesNum ≤ fileSize)
    (hm : 1 ≤ m) (hlt : m < (decimal slicesNum).length) :
    fileSize / slicesNum < fileSize / countPrefix slicesNum m := by
  have hone := countPrefix_pos hpos hm
  have hquot : 1 ≤ fileSize / slicesNum := Nat.div_pos hle hpos
  have hten : 10 * countPrefix slicesNum m ≤ slicesNum := by
    obtain ⟨k, hk⟩ : ∃ k, (decimal slicesNum).length - m = k + 1 :=
      ⟨(decimal slicesNum).length - m - 1, by omega⟩
    have hrest : slicesNum / 10 ^ k ≤ slicesNum := Nat.div_le_self _ _
    rw [countPrefix, hk, pow_succ, ← Nat.div_div_eq_div_mul]
    omega
  have hmul : 10 * (fileSize / slicesNum) ≤ fileSize / countPrefix slicesNum m := by
    rw [Nat.le_div_iff_mul_le hone]
    calc 10 * (fileSize / slicesNum) * countPrefix slicesNum m
        = fileSize / slicesNum * (10 * countPrefix slicesNum m) := by ring
      _ ≤ fileSize / slicesNum * slicesNum := Nat.mul_le_mul_left _ hten
      _ ≤ fileSize := Nat.div_mul_le_self _ _
  omega

/-- Other globals than announced: no output, or a wrong split length. -/
theorem branchFor_processHeader_ne {k : ℕ} (hsize : fileSize < 2 ^ 64) (hpos : 1 ≤ slicesNum)
    (hnum : slicesNum < 2 ^ 32) (hle : slicesNum ≤ fileSize)
    (hk : k < (headerText fileSize slicesNum).length) :
    branchFor (processHeader ((headerText fileSize slicesNum).take k) budgeted).1 ≠
      .slice true (fileSize / slicesNum) := by
  rcases prefix_cases hk with hcut | rfl | ⟨m, hm, hlt, rfl⟩
  · rw [processHeader_take_size budgeted hcut]
    exact Branch.noConfusion
  · rw [processHeader_take_mark budgeted hsize]
    exact Branch.noConfusion
  · rw [processHeader_take_count budgeted hsize hpos hnum hm hlt.le]
    intro hbranch
    have hexpects := (recorded_recordHeader fileSize (countPrefix slicesNum m)
      budgeted).expectsHeader
    rw [branchFor, hexpects, if_neg Bool.false_ne_true, Branch.slice.injEq] at hbranch
    exact absurd hbranch.2 (div_lt_div_countPrefix hpos hle hm hlt).ne'

/-- **A header that is cut short puts the first slice out of order.** -/
theorem not_inOrder_of_partial {count : ℕ} (hsize : fileSize < 2 ^ 64) (hpos : 1 ≤ slicesNum)
    (hnum : slicesNum < 2 ^ 32) (hle : slicesNum ≤ fileSize) (hworkers : 1 ≤ workers)
    (hcut : min count (kFileSliceHeaderLen + 1) < (headerText fileSize slicesNum).length) :
    ∃ s, (poolSystem z fuel ((headerText fileSize slicesNum).take count) streams slicesNum
      workers).Reachable s ∧ ¬ InOrder fileSize slicesNum s := by
  have htaken := reachable_dispatch (reachable_accepted z fuel
    ((headerText fileSize slicesNum).take count) streams workers hpos) 0 (by omega) rfl
    Nat.zero_lt_two
  obtain ⟨envs, hrun⟩ :=
    exists_solo_header z fuel ((headerText fileSize slicesNum).take count) streams
  rw [List.take_take, min_comm] at hrun
  obtain ⟨s, hs, hglobals, hidle, haccepted, hone⟩ :=
    exists_solo htaken (PoolState.dispatch_jobs_self ..) hrun
  have htask : s.taken = 1 := hone
  have hqueue : s.accepted = 2 := haccepted
  obtain ⟨s', hs', hmem⟩ := exists_branch_of_queued hs 0 (by omega) hidle (by omega) (by omega)
  refine ⟨s', hs', not_inOrder_of_branch hmem (by omega) ?_⟩
  rw [hglobals]
  exact branchFor_processHeader_ne hsize hpos hnum hle hcut

end Early

/-! ## When the header comes first -/

/-- **In every interleaving each slice finds the recorded header exactly when at most
one worker is left for the tasks and, if there is one, the first read gets the whole
header.** -/
theorem headerFirst_iff {D : Type} (z : ZstdDecompress D) (fuel : ℕ) (streams : ℕ → List UInt8)
    (fileSize slicesNum workers count : ℕ) (hsize : fileSize < 2 ^ 63) (hpos : 1 ≤ slicesNum)
    (hnum : slicesNum ≤ 65535) (hle : slicesNum ≤ fileSize) :
    (∀ s, (poolSystem z fuel ((headerText fileSize slicesNum).take count) streams slicesNum
        workers).Reachable s → InOrder fileSize slicesNum s) ↔
      workers = 0 ∨ workers = 1 ∧
        (headerText fileSize slicesNum).length ≤ min count (kFileSliceHeaderLen + 1) := by
  constructor
  · intro hall
    by_contra hnot
    have hviolated : ∃ s, (poolSystem z fuel ((headerText fileSize slicesNum).take count) streams
        slicesNum workers).Reachable s ∧ ¬ InOrder fileSize slicesNum s := by
      by_cases hmany : 2 ≤ workers
      · exact not_inOrder_of_many hpos hmany
      · exact not_inOrder_of_partial (by omega) hpos (by omega) hle (by omega) (by omega)
    obtain ⟨s, hs, hout⟩ := hviolated
    exact hout (hall s hs)
  · rintro (rfl | ⟨rfl, hwhole⟩) s hs
    · exact inOrder_of_none hs
    · refine inOrder_of_single ?_ (by omega) hpos (by omega) (le_refl _) hs
      rw [List.take_take, List.take_of_length_le (by omega)]

/-- A file of ten bytes in two slices, with a pool of two threads: one supervises. -/
theorem headerFirst_single :
    ¬ ∃ s, (poolSystem (D := Unit) ⟨some (), 131072, fun _ _ _ => none⟩ 1 ((headerText 10 2).take 6)
        (fun task => sliceStream ⟨task - 1, 5, 3⟩ [1, 2, 3]) 2 1).Reachable s ∧
      ¬ InOrder 10 2 s := by
  rintro ⟨s, hs, hout⟩
  exact hout ((headerFirst_iff _ 1 _ 10 2 1 6 (by decide) (by decide) (by decide)
    (by decide)).mpr (Or.inr ⟨rfl, by decide⟩) s hs)

/-- The same transfer with one thread more. -/
theorem headerFirst_overtaken :
    ∃ s, (poolSystem (D := Unit) ⟨some (), 131072, fun _ _ _ => none⟩ 1 ((headerText 10 2).take 6)
        (fun task => sliceStream ⟨task - 1, 5, 3⟩ [1, 2, 3]) 2 2).Reachable s ∧
      ¬ InOrder 10 2 s :=
  not_inOrder_of_many (by decide) (le_refl _)

end SliceTransfer
