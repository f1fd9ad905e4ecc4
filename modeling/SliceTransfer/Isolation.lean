import SliceTransfer.Transfer
import SliceTransfer.Containment

/-!
# What one connection sees of the others

`processSystem` runs the `Recv` tasks of several slice connections like `connSystem`, and
keeps for each of them the sequence of `offset_`, `c_buf_` and return value it goes
through.  A step that faults, stores outside of its buffers or hands `free` a pointer into
`c_buf_` has no defined effect, so a run ends before it, and before a step that frees a
`c_buf_` which another task goes on to use.

The tasks share `mmap_`, keyed by the index the peer chooses, and every step looks its
entry up again.  `Mirror` relates a run to the run of one connection alone: they agree on
that connection's task and on the entry it looks up.  Its own steps keep this, since a
step depends on the globals only through the entry (`receive_same`), and the steps of the
others do as well, since they set the entry of another index only (`receive_mmap`).  With
equal indices the second connection takes the entry of the first over
(`traces_entangled`).
-/

namespace SliceTransfer.Server

open Bytes

/-! ## The system -/

/-- What a step shows of its task: the entry it leaves, up to the completion test, and the
return value. -/
structure Seen where
  received : Option (ℕ × List UInt8)
  exit : Option Exit
  deriving DecidableEq, Repr

/-- The entry a task looks up. -/
def taskEntry (g : Globals) (task : RecvTask) : Option FileSliceInfo :=
  if task.isFirstRecv then none else g.mmap task.index

/-- The entry a wake-up of `task` leaves. -/
def StepResult.entry (r : StepResult) (task : RecvTask) : Option FileSliceInfo :=
  match r.status with
  | .waiting next => taskEntry r.globals next
  | .complete index => r.globals.mmap index
  | .exited _ => taskEntry r.globals task

/-- The effect is one the language defines. -/
def Effect.Defined (cLen fileSize : ℕ) : Effect → Prop
  -- a failed read frees `c_buf_ + offset_`, which `malloc` has returned at `offset_` zero only
  | .freeCBufAt offset => offset = 0
  | e => e.Inside cLen fileSize

instance (cLen fileSize : ℕ) : (e : Effect) → Decidable (e.Defined cLen fileSize)
  | .storeCBuf _ stop => inferInstanceAs (Decidable (stop ≤ cLen))
  | .offerOut start size => inferInstanceAs (Decidable (start + size ≤ fileSize))
  | .freeCBufAt offset => inferInstanceAs (Decidable (offset = 0))
  | .allocReadBuf _ | .freeReadBuf | .allocCBuf _ | .closeConn | .closeEpoll =>
      inferInstanceAs (Decidable True)

/-- The effects are defined for the buffers of the entry.  This is here to end the runs where
those of the program end; isolation rests on the entries alone, and no proof uses it. -/
def definedOn (entry : Option FileSliceInfo) (fileSize : ℕ) (effects : List Effect) : Bool :=
  match entry with
  | none => true
  | some info => effects.all fun e => decide (e.Defined info.cLen fileSize)

def notFaulted : RecvStatus → Bool
  | .exited (.faulted _) => false
  | _ => true

structure ProcessState where
  conns : ConnState
  traces : ℕ → List Seen

section System

variable {D : Type} (z : ZstdDecompress D) (fuel count : ℕ)

/-- A wake-up of `task` whose effect is defined; `before` is its state up to the
completion test. -/
def intact (task : RecvTask) (before : StepResult) : Bool :=
  let r := before.finish z fuel
  notFaulted r.status && definedOn (before.entry task) r.globals.fileSize r.effects

def seen (task : RecvTask) (before : StepResult) : Seen where
  received := (before.entry task).map fun info => (info.offset, info.cBuf)
  exit :=
    match (before.finish z fuel).status with
    | .exited exit => some exit
    | _ => none

/-- No other task goes on with the entry that `task` looks up. -/
def Unshared (s : ConnState) (conn : ℕ) (task : RecvTask) : Prop :=
  ∀ other < count, other ≠ conn → s.status other ≠ .waiting ⟨false, task.index⟩

instance (s : ConnState) (conn : ℕ) (task : RecvTask) : Decidable (Unshared count s conn task) :=
  inferInstanceAs (Decidable (∀ other < count, _))

def processStep (s : ProcessState) (a : WakeUp) : Option ProcessState :=
  if a.conn < count ∧ a.event.bytes <+: s.conns.undelivered a.conn then
    match s.conns.status a.conn with
    | .waiting task =>
        (receive s.conns.globals task a.event).bind fun before =>
          if intact z fuel task before ∧
              (.freeCBufAt 0 ∈ before.effects → Unshared count s.conns a.conn task) then
            some {
              conns := s.conns.settle a.conn a.event.bytes (before.finish z fuel)
              traces := Function.update s.traces a.conn
                (s.traces a.conn ++ [seen z fuel task before]) }
          else none
    | _ => none
  else none

def processSystem (g : Globals) (streams : ℕ → List UInt8) :
    TransitionSystem ProcessState WakeUp where
  init := ⟨(connSystem z fuel count g streams).init, fun _ => []⟩
  step := processStep z fuel count

end System

/-! ## A step depends on its entry alone -/

section Wake

variable {D : Type} {z : ZstdDecompress D} {fuel fileSize slicesNum : ℕ} {g g' : Globals}
  {task : RecvTask}

theorem processStep_cases {count : ℕ} {s s' : ProcessState} {a : WakeUp}
    (h : processStep z fuel count s a = some s') :
    a.conn < count ∧ a.event.bytes <+: s.conns.undelivered a.conn ∧
      ∃ task before, s.conns.status a.conn = .waiting task ∧
        receive s.conns.globals task a.event = some before ∧
        intact z fuel task before = true ∧
        (.freeCBufAt 0 ∈ before.effects → Unshared count s.conns a.conn task) ∧ s' = {
          conns := s.conns.settle a.conn a.event.bytes (before.finish z fuel)
          traces := Function.update s.traces a.conn
            (s.traces a.conn ++ [seen z fuel task before]) } := by
  obtain ⟨⟨hconn, hbytes⟩, hstep⟩ := Option.ite_none_right_eq_some.mp h
  refine ⟨hconn, hbytes, ?_⟩
  cases hstatus : s.conns.status a.conn with
  | waiting task =>
      rw [hstatus] at hstep
      obtain ⟨before, hbefore, hintact⟩ := Option.bind_eq_some_iff.mp hstep
      obtain ⟨⟨hintact, hunshared⟩, heq⟩ := Option.ite_none_right_eq_some.mp hintact
      exact ⟨task, before, rfl, hbefore, hintact, hunshared, (Option.some_inj.mp heq).symm⟩
  | complete index => rw [hstatus] at hstep; cases hstep
  | exited exit => rw [hstatus] at hstep; cases hstep

theorem Globals.Recorded.newInfo_eq (h : g.Recorded fileSize slicesNum)
    (h' : g'.Recorded fileSize slicesNum) (header : SliceHeader) :
    newInfo g header = newInfo g' header := by
  obtain ⟨file, hfile, -⟩ := h.start_eq
  obtain ⟨file', hfile', -⟩ := h'.start_eq
  simp [newInfo, hfile, hfile', bufOffset, h.splitLen_eq, h'.splitLen_eq]

/-- Two wake-ups of the same task show the same. -/
structure Same (task : RecvTask) (r r' : StepResult) : Prop where
  status : r'.status = r.status
  effects : r'.effects = r.effects
  entry : r'.entry task = r.entry task

theorem entry_of_status {r : StepResult} {index : ℕ}
    (hstatus : r.status = .complete index ∨ r.status = .waiting ⟨false, index⟩) :
    r.entry task = r.globals.mmap index := by
  unfold StepResult.entry
  rcases hstatus with heq | heq
  · rw [heq]
  · rw [heq]
    rfl

theorem entry_of_exited {r : StepResult} {exit : Exit} (hstatus : r.status = .exited exit) :
    r.entry task = taskEntry r.globals task := by
  unfold StepResult.entry
  rw [hstatus]

/-- Where `advance` leads. -/
theorem advance_status (g : Globals) (index : ℕ) (info : FileSliceInfo) (numRead : ℕ) :
    (advance g index info numRead).2 = .complete index ∨
      (advance g index info numRead).2 = .waiting ⟨false, index⟩ := by
  unfold advance
  by_cases hdone : info.cLen = (info.offset + numRead) % 2 ^ 64
  · exact Or.inl (if_pos hdone)
  · exact Or.inr (if_neg hdone)

theorem same_exited (hentry : taskEntry g' task = taskEntry g task) (exit : Exit)
    (effects : List Effect) : Same task ⟨g, .exited exit, effects⟩ ⟨g', .exited exit, effects⟩ := by
  refine ⟨rfl, rfl, ?_⟩
  rw [entry_of_exited rfl, entry_of_exited rfl]
  exact hentry

/-- The entry that was set is the same. -/
theorem same_setInfo {index : ℕ} {status : RecvStatus}
    (hstatus : status = .complete index ∨ status = .waiting ⟨false, index⟩) (info : FileSliceInfo)
    (effects : List Effect) : Same task ⟨g.setInfo index info, status, effects⟩
      ⟨g'.setInfo index info, status, effects⟩ := by
  refine ⟨rfl, rfl, ?_⟩
  rw [entry_of_status hstatus, entry_of_status hstatus]
  exact (setInfo_mmap_self g' index info).trans (setInfo_mmap_self g index info).symm

theorem advance_same (index : ℕ) (info : FileSliceInfo) (numRead : ℕ) (effects : List Effect) :
    Same task ⟨(advance g index info numRead).1, (advance g index info numRead).2, effects⟩
      ⟨(advance g' index info numRead).1, (advance g' index info numRead).2, effects⟩ :=
  same_setInfo (advance_status g index info numRead) _ effects

theorem firstSliceRead_same (h : g.Recorded fileSize slicesNum)
    (h' : g'.Recorded fileSize slicesNum) (hfirst : task.isFirstRecv = true)
    (bytes stale : List UInt8) :
    Same task (firstSliceRead g bytes stale) (firstSliceRead g' bytes stale) := by
  simp only [firstSliceRead]
  rw [h'.newInfo_eq h]
  by_cases hshort : bytes.length < kEachSliceHeaderLen
  · rw [if_pos hshort, if_pos hshort]
    refine same_exited ?_ _ _
    rw [taskEntry, taskEntry, if_pos hfirst, if_pos hfirst]
  · rw [if_neg hshort, if_neg hshort]
    by_cases hheader : bytes.length = kEachSliceHeaderLen
    · rw [if_pos hheader, if_pos hheader]
      exact same_setInfo (Or.inr rfl) _ _
    · rw [if_neg hheader, if_neg hheader]
      exact advance_same _ _ _ _

/-- What is done with the bytes depends on the entry alone. -/
theorem afterRead_same (h : g.Recorded fileSize slicesNum) (h' : g'.Recorded fileSize slicesNum)
    (hentry : taskEntry g' task = taskEntry g task) (stale : List UInt8) (outcome : ReadEnd) :
    Same task (afterRead g task stale outcome) (afterRead g' task stale outcome) := by
  have hnull := same_exited hentry (.faulted .nullPointer) []
  unfold afterRead
  by_cases hfirst : task.isFirstRecv = true
  · by_cases hfailed : outcome.failed = true
    · rw [if_pos hfailed, if_pos hfailed, readFailed, readFailed, if_pos hfirst, if_pos hfirst]
      exact same_exited hentry _ _
    · rw [if_neg hfailed, if_neg hfailed, if_pos hfirst, if_pos hfirst, h.expectsHeader,
        h'.expectsHeader]
      exact firstSliceRead_same h h' hfirst _ _
  · rw [taskEntry, taskEntry, if_neg hfirst, if_neg hfirst] at hentry
    by_cases hfailed : outcome.failed = true
    · rw [if_pos hfailed, if_pos hfailed, readFailed, readFailed, if_neg hfirst, if_neg hfirst,
        hentry]
      cases g.mmap task.index with
      | none => exact hnull
      | some info =>
          refine same_exited ?_ _ _
          rw [taskEntry, taskEntry, if_neg hfirst, if_neg hfirst]
          exact (setInfo_mmap_self g' _ _).trans (setInfo_mmap_self g _ _).symm
    · rw [if_neg hfailed, if_neg hfailed, if_neg hfirst, if_neg hfirst, hentry]
      cases g.mmap task.index with
      | none => exact hnull
      | some info => exact advance_same _ _ _ _

/-- The read loop is entered alike. -/
theorem beginRead_same (h : g.Recorded fileSize slicesNum) (h' : g'.Recorded fileSize slicesNum)
    (hentry : taskEntry g' task = taskEntry g task) :
    (∃ fault, beginRead g task = .error fault ∧ beginRead g' task = .error fault) ∨
      ∃ nLeft, beginRead g task = .ok (g, nLeft) ∧ beginRead g' task = .ok (g', nLeft) := by
  have hreads : g'.readsMaxBytes = g.readsMaxBytes := by
    rw [h.readsMaxBytes_eq, h'.readsMaxBytes_eq]
  unfold beginRead
  rw [h.expectsHeader, h'.expectsHeader]
  by_cases hfirst : task.isFirstRecv = true
  · rw [if_pos hfirst, if_pos hfirst]
    exact Or.inr ⟨g.readsMaxBytes, rfl, by rw [← hreads]; rfl⟩
  · rw [taskEntry, taskEntry, if_neg hfirst, if_neg hfirst] at hentry
    rw [if_neg hfirst, if_neg hfirst, hentry, hreads]
    cases g.mmap task.index with
    | none => exact Or.inl ⟨.nullPointer, rfl, rfl⟩
    | some info => exact Or.inr ⟨laterBudget g.readsMaxBytes info, rfl, rfl⟩

/-- **A wake-up depends on the globals through the entry alone.** -/
theorem receive_same (h : g.Recorded fileSize slicesNum) (h' : g'.Recorded fileSize slicesNum)
    (hentry : taskEntry g' task = taskEntry g task) {event : RecvEvent} {before : StepResult}
    (hbefore : receive g task event = some before) :
    ∃ before', receive g' task event = some before' ∧ Same task before before' := by
  cases event with
  | epollFailed =>
      cases hbefore
      exact ⟨_, rfl, same_exited hentry _ _⟩
  | notReadable =>
      cases hbefore
      exact ⟨_, rfl, rfl, rfl, hentry⟩
  | readable stale reads =>
      rw [receive] at hbefore ⊢
      rcases beginRead_same h h' hentry with ⟨fault, heq, heq'⟩ | ⟨nLeft, heq, heq'⟩
      · rw [heq] at hbefore
        rw [heq']
        cases hbefore
        exact ⟨_, rfl, same_exited hentry _ _⟩
      · rw [heq] at hbefore
        rw [heq']
        obtain ⟨outcome, hloop, rfl⟩ := Option.map_eq_some_iff.mp hbefore
        obtain ⟨hstatus, heffects, hafter⟩ := afterRead_same h h' hentry stale outcome
        refine ⟨_, Option.map_eq_some_iff.mpr ⟨outcome, hloop, rfl⟩, hstatus, ?_, hafter⟩
        show _ ++ _ = _ ++ _
        rw [heffects]

/-- And so does what follows the completion test. -/
theorem finishSlice_same (h : g.Recorded fileSize slicesNum) (h' : g'.Recorded fileSize slicesNum)
    {index : ℕ} (hentry : g'.mmap index = g.mmap index) (fuel : ℕ) :
    (finishSlice z fuel g' index).status = (finishSlice z fuel g index).status ∧
      (finishSlice z fuel g' index).effects = (finishSlice z fuel g index).effects := by
  obtain ⟨file, hfile, -⟩ := h.start_eq
  obtain ⟨file', hfile', -⟩ := h'.start_eq
  unfold finishSlice
  rw [hentry]
  cases g.mmap index with
  | none => exact ⟨rfl, rfl⟩
  | some info =>
      simp only [storeOutput, hfile, hfile']
      cases info.buf with
      | some buf => exact ⟨rfl, rfl⟩
      | none =>
          by_cases hnone : outputs (decompress z fuel (info.cBuf.take info.cLen) info.len).1 = []
          · simp [hnone]
          · simp [hnone]

variable (z fuel) in
theorem finish_same {before before' : StepResult} (h : before.globals.Recorded fileSize slicesNum)
    (h' : before'.globals.Recorded fileSize slicesNum) (hsame : Same task before before') :
    (before'.finish z fuel).status = (before.finish z fuel).status ∧
      (before'.finish z fuel).effects = (before.finish z fuel).effects := by
  unfold StepResult.finish
  rw [hsame.status]
  cases hstatus : before.status with
  | waiting next => exact ⟨hsame.status, hsame.effects⟩
  | exited exit => exact ⟨hsame.status, hsame.effects⟩
  | complete index =>
      have hentry : before'.globals.mmap index = before.globals.mmap index := by
        have hown : before.entry task = before.globals.mmap index :=
          entry_of_status (Or.inl hstatus)
        have hown' : before'.entry task = before'.globals.mmap index :=
          entry_of_status (Or.inl (hsame.status.trans hstatus))
        rw [← hown, ← hown']
        exact hsame.entry
      have hfinish := finishSlice_same h h' hentry (z := z)
      refine ⟨(hfinish fuel).1, ?_⟩
      show _ ++ _ = _ ++ _
      rw [hsame.effects, (hfinish fuel).2]

/-! ## What a step changes -/

/-- Where the bytes of a wake-up lead: the entry at `index` is set. -/
structure Sets (index : ℕ) (g g' : Globals) (status : RecvStatus) : Prop where
  globals : ∃ info, g' = g.setInfo index info
  status : status = .complete index ∨ status = .waiting ⟨false, index⟩ ∨
    ∃ exit, status = .exited exit

theorem advance_sets (g : Globals) (index : ℕ) (info : FileSliceInfo) (numRead : ℕ) :
    Sets index g (advance g index info numRead).1 (advance g index info numRead).2 :=
  ⟨⟨_, rfl⟩, (advance_status g index info numRead).imp_right Or.inl⟩

theorem firstSliceRead_sets (g : Globals) {bytes : List UInt8} (stale : List UInt8)
    (hheader : kEachSliceHeaderLen ≤ bytes.length) :
    Sets (unmarshal bytes).index g (firstSliceRead g bytes stale).globals
      (firstSliceRead g bytes stale).status := by
  simp only [firstSliceRead]
  rw [if_neg (Nat.not_lt.mpr hheader), unmarshal_append stale hheader]
  by_cases hexact : bytes.length = kEachSliceHeaderLen
  · rw [if_pos hexact]
    exact ⟨⟨_, rfl⟩, Or.inr (Or.inl rfl)⟩
  · rw [if_neg hexact]
    exact advance_sets _ _ _ _

/-- What a wake-up may do, up to the completion test: nothing, or set the entry of its
slice, which the first read of the header names. -/
def Keeps (g : Globals) (task : RecvTask) (bytes : List UInt8) (g' : Globals)
    (status : RecvStatus) : Prop :=
  g' = g ∧ (∃ exit, status = .exited exit) ∨
    (task.isFirstRecv = true ∧ kEachSliceHeaderLen ≤ bytes.length ∧
      Sets (unmarshal bytes).index g g' status) ∨
    (task.isFirstRecv = false ∧ Sets task.index g g' status)

theorem afterRead_keeps (h : g.Recorded fileSize slicesNum) (stale : List UInt8)
    (outcome : ReadEnd) (hfault : notFaulted (afterRead g task stale outcome).status = true) :
    Keeps g task outcome.bytes (afterRead g task stale outcome).globals
      (afterRead g task stale outcome).status := by
  unfold afterRead at hfault ⊢
  by_cases hfirst : task.isFirstRecv = true
  · by_cases hfailed : outcome.failed = true
    · rw [if_pos hfailed, readFailed, if_pos hfirst]
      exact Or.inl ⟨rfl, _, rfl⟩
    · rw [if_neg hfailed, if_pos hfirst, h.expectsHeader] at hfault ⊢
      by_cases hshort : outcome.bytes.length < kEachSliceHeaderLen
      · simp [firstSliceRead, hshort, notFaulted] at hfault
      · have hheader := Nat.not_lt.mp hshort
        exact Or.inr (Or.inl ⟨hfirst, hheader, firstSliceRead_sets g stale hheader⟩)
  · have hlater : task.isFirstRecv = false := by rwa [Bool.not_eq_true] at hfirst
    cases hinfo : g.mmap task.index with
    | none => simp [hlater, hinfo, readFailed, notFaulted] at hfault
    | some info =>
        refine Or.inr (Or.inr ⟨hlater, ?_⟩)
        by_cases hfailed : outcome.failed = true
        · rw [if_pos hfailed, readFailed, if_neg hfirst, hinfo]
          exact ⟨⟨_, rfl⟩, Or.inr (Or.inr ⟨_, rfl⟩)⟩
        · rw [if_neg hfailed, if_neg hfirst]
          exact advance_sets _ _ _ _

/-- **Up to the completion test a wake-up sets no entry but that of its slice.** -/
theorem receive_keeps (h : g.Recorded fileSize slicesNum) {event : RecvEvent}
    {before : StepResult} (hbefore : receive g task event = some before)
    (hfault : notFaulted before.status = true) :
    before.globals = g ∧ before.status = .waiting task ∧ event.bytes = [] ∨
      Keeps g task event.bytes before.globals before.status := by
  cases event with
  | epollFailed =>
      cases hbefore
      exact Or.inr (Or.inl ⟨rfl, _, rfl⟩)
  | notReadable =>
      cases hbefore
      exact Or.inl ⟨rfl, rfl, rfl⟩
  | readable stale reads =>
      rw [receive] at hbefore
      have hself : taskEntry g task = taskEntry g task := rfl
      rcases beginRead_same h h hself with ⟨fault, heq, -⟩ | ⟨nLeft, heq, -⟩
      · rw [heq] at hbefore
        cases hbefore
        cases hfault
      · rw [heq] at hbefore
        obtain ⟨outcome, hloop, rfl⟩ := Option.map_eq_some_iff.mp hbefore
        have hbytes : outcome.bytes = (RecvEvent.readable stale reads).bytes :=
          readLoop_bytes hloop
        have hkeeps := afterRead_keeps h stale outcome hfault
        rw [hbytes] at hkeeps
        exact Or.inr hkeeps

theorem finish_mmap (r : StepResult) : (r.finish z fuel).globals.mmap = r.globals.mmap := by
  unfold StepResult.finish
  cases r.status with
  | waiting next => rfl
  | exited exit => rfl
  | complete index => exact (finishSlice_leaves z fuel r.globals index).1

end Wake

/-! ## The steps of the connections -/

section Step

variable {D : Type} {z : ZstdDecompress D} {fuel fileSize slicesNum : ℕ}

/-- Where a task on a connection with the bytes `stream` stands, `undelivered` of them
being still to come: it is behind its first read, and knows the index of the stream, or
nothing has been read yet. -/
def Registered (stream undelivered : List UInt8) : RecvStatus → Prop
  | .waiting task => task.isFirstRecv = true ∧ undelivered = stream ∨
      task.isFirstRecv = false ∧ kEachSliceHeaderLen ≤ stream.length ∧
        task.index = (unmarshal stream).index
  | _ => True

theorem unmarshal_of_isPrefix {bytes stream : List UInt8} (hpart : bytes <+: stream)
    (hheader : kEachSliceHeaderLen ≤ bytes.length) : unmarshal stream = unmarshal bytes := by
  obtain ⟨more, rfl⟩ := hpart
  exact unmarshal_append more hheader

theorem notFaulted_of_intact {task : RecvTask} {before : StepResult}
    (hintact : intact z fuel task before = true) : notFaulted before.status = true := by
  cases hstatus : before.status with
  | waiting next => rfl
  | complete index => rfl
  | exited exit =>
      obtain ⟨hfault, -⟩ := Bool.and_eq_true_iff.mp hintact
      rw [finish_of_not_complete fuel (by rw [hstatus]; exact fun _ => RecvStatus.noConfusion),
        hstatus] at hfault
      exact hfault

section Receive

variable {g : Globals} {task : RecvTask} {event : RecvEvent} {before : StepResult}
  {stream undelivered : List UInt8}

/-- A wake-up sets no entry but that of the stream's index. -/
theorem receive_mmap (h : g.Recorded fileSize slicesNum)
    (hregistered : Registered stream undelivered (.waiting task))
    (hbytes : event.bytes <+: undelivered) (hbefore : receive g task event = some before)
    (hfault : notFaulted before.status = true) {index : ℕ}
    (hforeign : kEachSliceHeaderLen ≤ stream.length → index ≠ (unmarshal stream).index) :
    before.globals.mmap index = g.mmap index := by
  rcases receive_keeps h hbefore hfault with ⟨hsame, -, -⟩ | hkeeps
  · rw [hsame]
  · rcases hkeeps with ⟨hsame, -⟩ | ⟨hfirst, hheader, hsets⟩ | ⟨hlater, hsets⟩
    · rw [hsame]
    · rcases hregistered with ⟨-, rfl⟩ | ⟨hlater, -, -⟩
      · obtain ⟨info, heq⟩ := hsets.globals
        have hne := hforeign (hheader.trans hbytes.length_le)
        rw [unmarshal_of_isPrefix hbytes hheader] at hne
        rw [heq]
        exact Function.update_of_ne hne _ _
      · rw [hfirst] at hlater
        cases hlater
    · rcases hregistered with ⟨hfirst, -⟩ | ⟨-, hlength, hindex⟩
      · rw [hlater] at hfirst
        cases hfirst
      · obtain ⟨info, heq⟩ := hsets.globals
        rw [heq, hindex]
        exact Function.update_of_ne (hforeign hlength) _ _

/-- Where the task stands after the wake-up. -/
theorem registered_receive (h : g.Recorded fileSize slicesNum)
    (hregistered : Registered stream undelivered (.waiting task))
    (hbytes : event.bytes <+: undelivered) (hbefore : receive g task event = some before)
    (hfault : notFaulted before.status = true) :
    Registered stream (undelivered.drop event.bytes.length) (before.finish z fuel).status := by
  cases hstatus : (before.finish z fuel).status with
  | complete index => trivial
  | exited exit => trivial
  | waiting next =>
      have hnext := finish_of_waiting hstatus
      rcases receive_keeps h hbefore hfault with ⟨-, hsame, hnone⟩ | hkeeps
      · obtain rfl : next = task := RecvStatus.waiting.inj (hnext.symm.trans hsame)
        rw [hnone]
        exact hregistered
      · -- the entry was set, and its index is what the task goes on with
        have hleads : ∀ {index : ℕ}, Sets index g before.globals before.status →
            next = ⟨false, index⟩ := by
          intro index hsets
          rcases hsets.status with hcomplete | hwaiting | ⟨exit, hexit⟩
          · exact absurd (hcomplete.symm.trans hnext) RecvStatus.noConfusion
          · exact RecvStatus.waiting.inj (hnext.symm.trans hwaiting)
          · exact absurd (hexit.symm.trans hnext) RecvStatus.noConfusion
        rcases hkeeps with ⟨-, exit, hexit⟩ | ⟨hfirst, hheader, hsets⟩ | ⟨hlater, hsets⟩
        · exact absurd (hexit.symm.trans hnext) RecvStatus.noConfusion
        · rcases hregistered with ⟨-, rfl⟩ | ⟨hlater, -, -⟩
          · rw [hleads hsets]
            refine Or.inr ⟨rfl, hheader.trans hbytes.length_le, ?_⟩
            rw [unmarshal_of_isPrefix hbytes hheader]
          · rw [hfirst] at hlater
            cases hlater
        · rcases hregistered with ⟨hfirst, -⟩ | ⟨-, hlength, hindex⟩
          · rw [hlater] at hfirst
            cases hfirst
          · rw [hleads hsets]
            exact Or.inr ⟨rfl, hlength, hindex⟩

end Receive

/-- The header is recorded, and every task stands where its stream says. -/
structure Standing (fileSize slicesNum : ℕ) (streams : ℕ → List UInt8) (s : ConnState) :
    Prop where
  recorded : s.globals.Recorded fileSize slicesNum
  registered : ∀ conn, Registered (streams conn) (s.undelivered conn) (s.status conn)

variable {count : ℕ} {streams : ℕ → List UInt8} {s s' t : ProcessState} {a : WakeUp}

theorem standing_init {g : Globals} (h : g.Recorded fileSize slicesNum) :
    Standing fileSize slicesNum streams (processSystem z fuel count g streams).init.conns :=
  ⟨h, fun _ => Or.inl ⟨rfl, rfl⟩⟩

theorem Standing.step (h : Standing fileSize slicesNum streams s.conns)
    (hstep : processStep z fuel count s a = some s') :
    Standing fileSize slicesNum streams s'.conns := by
  obtain ⟨-, hbytes, task, before, hstatus, hbefore, hintact, -, rfl⟩ := processStep_cases hstep
  refine ⟨(h.recorded.receive hbefore).finish z fuel, fun conn => ?_⟩
  by_cases hconn : conn = a.conn
  · subst hconn
    have hregistered := h.registered a.conn
    rw [hstatus] at hregistered
    simp only [ConnState.settle, Function.update_self]
    exact registered_receive h.recorded hregistered hbytes hbefore (notFaulted_of_intact hintact)
  · simp only [ConnState.settle, Function.update_of_ne hconn]
    exact h.registered conn

/-! ## The simulation -/

/-- Two streams that hold a header each name different slices. -/
def DistinctIndices (stream stream' : List UInt8) : Prop :=
  kEachSliceHeaderLen ≤ stream.length → kEachSliceHeaderLen ≤ stream'.length →
    (unmarshal stream).index ≠ (unmarshal stream').index

/-- Two states that agree on everything connection `conn` depends on; in the second one the
others have not begun. -/
structure Mirror (conn : ℕ) (s t : ProcessState) : Prop where
  undelivered_eq : t.conns.undelivered conn = s.conns.undelivered conn
  status_eq : t.conns.status conn = s.conns.status conn
  traces_eq : t.traces conn = s.traces conn
  entry_eq : ∀ task, s.conns.status conn = .waiting task →
    taskEntry t.conns.globals task = taskEntry s.conns.globals task
  others_fresh : ∀ other ≠ conn, t.conns.status other = .waiting {}

variable (z fuel) in
/-- What is tested and shown is the same. -/
theorem Same.shown {task : RecvTask} {before before' : StepResult}
    (h : before.globals.Recorded fileSize slicesNum)
    (h' : before'.globals.Recorded fileSize slicesNum) (hsame : Same task before before') :
    intact z fuel task before' = intact z fuel task before ∧
      seen z fuel task before' = seen z fuel task before := by
  obtain ⟨hstatus, heffects⟩ := finish_same z fuel h h' hsame
  have hsize : (before'.finish z fuel).globals.fileSize =
      (before.finish z fuel).globals.fileSize := by
    rw [(h'.finish z fuel).fileSize_eq, (h.finish z fuel).fileSize_eq]
  constructor
  · simp only [intact, hstatus, heffects, hsize, hsame.entry]
  · simp only [seen, hstatus, hsame.entry]

/-- Its own step, taken in both runs. -/
theorem Mirror.own {streams' : ℕ → List UInt8} {count' conn : ℕ} (mirror : Mirror conn s t)
    (h : Standing fileSize slicesNum streams s.conns)
    (h' : Standing fileSize slicesNum streams' t.conns) (hcount : conn < count')
    (hconn : a.conn = conn) (hstep : processStep z fuel count s a = some s') :
    ∃ t', processStep z fuel count' t a = some t' ∧ Mirror conn s' t' := by
  subst hconn
  obtain ⟨-, hbytes, task, before, hstatus, hbefore, hintact, -, rfl⟩ := processStep_cases hstep
  obtain ⟨before', hbefore', hsame⟩ :=
    receive_same h.recorded h'.recorded (mirror.entry_eq task hstatus) hbefore
  have hrecorded := h.recorded.receive hbefore
  have hrecorded' := h'.recorded.receive hbefore'
  obtain ⟨hintact', hseen⟩ := hsame.shown z fuel hrecorded hrecorded'
  refine ⟨{ conns := t.conns.settle a.conn a.event.bytes (before'.finish z fuel)
            traces := Function.update t.traces a.conn
              (t.traces a.conn ++ [seen z fuel task before']) }, ?_, ?_, ?_, ?_, ?_, ?_⟩
  · -- by itself the connection shares its entry with no one
    have hunshared : Unshared count' t.conns a.conn task := by
      intro other _ hother
      rw [mirror.others_fresh other hother]
      simp
    unfold processStep
    rw [mirror.undelivered_eq, mirror.status_eq, hstatus, if_pos ⟨hcount, hbytes⟩]
    simp only [hbefore', Option.bind_some, hintact', hintact]
    exact if_pos ⟨trivial, fun _ => hunshared⟩
  · simp only [ConnState.settle, Function.update_self, mirror.undelivered_eq]
  · simp only [ConnState.settle, Function.update_self]
    exact (finish_same z fuel hrecorded hrecorded' hsame).1
  · simp only [Function.update_self, mirror.traces_eq, hseen]
  · intro next hnext
    simp only [ConnState.settle, Function.update_self] at hnext ⊢
    have hwaiting := finish_of_waiting hnext
    have hentry := hsame.entry
    unfold StepResult.entry at hentry
    rw [hsame.status, hwaiting] at hentry
    unfold taskEntry at hentry ⊢
    rw [finish_mmap, finish_mmap]
    exact hentry
  · intro other hother
    simp only [ConnState.settle, Function.update_of_ne hother]
    exact mirror.others_fresh other hother

/-- A step of another connection, taken in the first run alone. -/
theorem Mirror.other {conn : ℕ} (mirror : Mirror conn s t)
    (h : Standing fileSize slicesNum streams s.conns) (hconn : a.conn ≠ conn)
    (hdistinct : DistinctIndices (streams conn) (streams a.conn))
    (hstep : processStep z fuel count s a = some s') : Mirror conn s' t := by
  obtain ⟨-, hbytes, task, before, hstatus, hbefore, hintact, -, rfl⟩ := processStep_cases hstep
  have hother := hconn.symm
  refine ⟨?_, ?_, ?_, ?_, mirror.others_fresh⟩
  · simp only [ConnState.settle, Function.update_of_ne hother, mirror.undelivered_eq]
  · simp only [ConnState.settle, Function.update_of_ne hother, mirror.status_eq]
  · simp only [Function.update_of_ne hother, mirror.traces_eq]
  · intro own hown
    simp only [ConnState.settle, Function.update_of_ne hother] at hown ⊢
    rw [mirror.entry_eq own hown]
    unfold taskEntry
    split
    · rfl
    · rename_i hlater
      have hregistered := h.registered conn
      rw [hown] at hregistered
      rcases hregistered with ⟨hfirst, -⟩ | ⟨-, hlength, hindex⟩
      · exact absurd hfirst hlater
      · have hforeign := h.registered a.conn
        rw [hstatus] at hforeign
        rw [finish_mmap, hindex]
        exact (receive_mmap h.recorded hforeign hbytes hbefore (notFaulted_of_intact hintact)
          (hdistinct hlength)).symm

/-- **The simulation along a whole schedule.** -/
theorem Mirror.run {g g' : Globals} {streams' : ℕ → List UInt8} {count' : ℕ} {conn : ℕ}
    (hcount : conn < count')
    (hdistinct : ∀ other < count, other ≠ conn →
      DistinctIndices (streams conn) (streams other))
    {actions : List WakeUp} (mirror : Mirror conn s t)
    (h : Standing fileSize slicesNum streams s.conns)
    (h' : Standing fileSize slicesNum streams' t.conns)
    (hrun : (processSystem z fuel count g streams).run actions s = some s') :
    ∃ t', (processSystem z fuel count' g' streams').run
        (actions.filter fun a => a.conn = conn) t = some t' ∧ Mirror conn s' t' := by
  induction actions generalizing s t with
  | nil =>
      cases hrun
      exact ⟨t, rfl, mirror⟩
  | cons a rest ih =>
      obtain ⟨mid, hstep, hrest⟩ := Option.bind_eq_some_iff.mp hrun
      have hmid := h.step hstep
      by_cases hconn : a.conn = conn
      · obtain ⟨mid', hstep', hmirror⟩ := mirror.own h h' hcount hconn hstep
        obtain ⟨last, hlast, hmirror'⟩ := ih hmirror hmid (h'.step hstep') hrest
        refine ⟨last, ?_, hmirror'⟩
        rw [List.filter_cons_of_pos (by simpa using hconn)]
        rw [TransitionSystem.run_cons_of_step hstep']
        exact hlast
      · have hrunning : a.conn < count := (processStep_cases hstep).1
        have hmirror := mirror.other h hconn (hdistinct a.conn hrunning hconn) hstep
        obtain ⟨last, hlast, hmirror'⟩ := ih hmirror hmid h' hrest
        refine ⟨last, ?_, hmirror'⟩
        rw [List.filter_cons_of_neg (by simpa using hconn)]
        exact hlast

end Step

/-! ## The result -/

/-- **What a slice connection goes through does not depend on the connections whose
streams name other slices**: without them, the same wake-ups of its own can be taken and
show the same. -/
theorem traces_isolated {D : Type} (z : ZstdDecompress D)
    (fuel fileSize slicesNum count count' conn : ℕ) (g g' : Globals)
    (streams streams' : ℕ → List UInt8) (actions : List WakeUp) (s : ProcessState)
    (hrecorded : g.Recorded fileSize slicesNum) (hrecorded' : g'.Recorded fileSize slicesNum)
    (hconn : conn < count') (hown : streams' conn = streams conn)
    (hdistinct : ∀ other < count, other ≠ conn →
      DistinctIndices (streams conn) (streams other))
    (hrun : (processSystem z fuel count g streams).run actions
      (processSystem z fuel count g streams).init = some s) :
    ∃ t, (processSystem z fuel count' g' streams').run (actions.filter fun a => a.conn = conn)
        (processSystem z fuel count' g' streams').init = some t ∧
      t.traces conn = s.traces conn := by
  have mirror : Mirror conn (processSystem z fuel count g streams).init
      (processSystem z fuel count' g' streams').init := by
    refine ⟨hown, rfl, rfl, ?_, fun _ _ => rfl⟩
    intro task hwaiting
    cases hwaiting
    rfl
  obtain ⟨t, hrun', hmirror⟩ := mirror.run hconn hdistinct (standing_init hrecorded)
    (standing_init hrecorded') hrun
  exact ⟨t, hrun', hmirror.traces_eq⟩

/-- Two connections with a slice of one byte each, the second one for slice `index`. -/
def twoSlices (count index : ℕ) : TransitionSystem ProcessState WakeUp :=
  processSystem rawDecompress 2 count (recordHeader 2 2 Globals.initial) fun conn =>
    if conn = 0 then headerBytes 0 1 10 ++ rawFrame [97]
    else headerBytes index 1 10 ++ rawFrame [98]

/-- The header of connection 1 arrives behind the first two bytes of the other slice. -/
def interleaved (index : ℕ) : List WakeUp :=
  [⟨0, .readable [] [.data (headerBytes 0 1 10 ++ [40, 181]), .eagain]⟩,
    ⟨1, .readable [] [.data (headerBytes index 1 10), .eagain]⟩,
    ⟨0, .readable [] [.data [47], .eagain]⟩]

/-- The rest of the first slice. -/
def remaining : WakeUp := ⟨0, .readable [] [.data ((rawFrame [97]).drop 3)]⟩

/-- The slices 0 and 1, and connection 0 by itself. -/
theorem traces_isolated_two :
    ∃ t, (twoSlices 1 1).run ((interleaved 1 ++ [remaining]).filter fun a => a.conn = 0)
        (twoSlices 1 1).init = some t ∧
      t.traces 0 = [⟨some (2, [40, 181]), none⟩, ⟨some (3, [40, 181, 47]), none⟩,
        ⟨some (10, rawFrame [97]), some (.returned 0)⟩] := by
  have hjoint : ((twoSlices 2 1).run (interleaved 1 ++ [remaining]) (twoSlices 2 1).init).map
      (fun s => s.traces 0) = some [⟨some (2, [40, 181]), none⟩,
        ⟨some (3, [40, 181, 47]), none⟩, ⟨some (10, rawFrame [97]), some (.returned 0)⟩] := by
    decide +kernel
  have hdistinct : ∀ other < 2, other ≠ 0 →
      DistinctIndices (headerBytes 0 1 10 ++ rawFrame [97])
        (if other = 0 then headerBytes 0 1 10 ++ rawFrame [97]
          else headerBytes 1 1 10 ++ rawFrame [98]) := by
    intro other hother hne
    rw [if_neg hne]
    intro _ _
    decide
  obtain ⟨s, hs, htraces⟩ := Option.map_eq_some_iff.mp hjoint
  obtain ⟨t, ht, hsame⟩ := traces_isolated rawDecompress 2 2 2 2 1 0
    (recordHeader 2 2 Globals.initial) (recordHeader 2 2 Globals.initial) _ _ _ s
    (recorded_recordHeader 2 2 _) (recorded_recordHeader 2 2 _) (by decide) rfl hdistinct hs
  exact ⟨t, ht, hsame.trans htraces⟩

/-- Two streams for slice 0: connection 0 goes on with the entry that connection 1 has put
in the place of its own. -/
theorem traces_entangled :
    ∃ s t, (twoSlices 2 0).run (interleaved 0) (twoSlices 2 0).init = some s ∧
      (twoSlices 2 0).run ((interleaved 0).filter fun a => a.conn = 0) (twoSlices 2 0).init =
        some t ∧
      s.traces 0 = [⟨some (2, [40, 181]), none⟩, ⟨some (1, [47]), none⟩] ∧
      t.traces 0 = [⟨some (2, [40, 181]), none⟩, ⟨some (3, [40, 181, 47]), none⟩] :=
  ⟨_, _, rfl, rfl, by decide, by decide⟩

end SliceTransfer.Server
