import SliceTransfer.Report
import SliceTransfer.Supervisor.EarlyMarker
import Mathlib.Data.List.Nodup
import Mathlib.Data.List.Perm.Subperm

/-!
# Failed slices

Sender and receiver together, one step of a slice at a time: the sender compresses a
slice and writes its stream, a `Recv` task receives it and decompresses it, the receiver's
supervisor collects the results and reports, and the sender's supervisor returns zero when
it has the report.  Which of `Compress`, `SendFileSlice`, `Recv` and `Decompress` fail for
which slice is an input of the system (`SliceInput`).

A slice whose stream is cut short keeps the receiver's supervisor waiting, so no report is
made.  But a `Recv` task that fails ends like any other: its result is logged and the end
marker is written.  And `SendFileSlice` can fail behind its last byte, when the last chunk
is empty, which the receiver does not see.  `Tracked` follows both along the runs in which
the header is there before a slice is read and no test of the wait is misled (`Orderly`);
with it a written marker says how every slice has fared (`Tracked.received_of_reported`).
-/

namespace SliceTransfer.EndToEnd

open Server (kEachSliceHeaderLen)
open SendingFlow Supervisor

/-! ## The sender -/

/-- What becomes of `SendFileSlice` behind `connect`: `write` fails or takes nothing before
the last byte, or it fails on an empty last chunk, behind the last byte. -/
inductive SendFate
  | succeeds
  | failsEarly
  | failsLate
  deriving DecidableEq, Repr

/-- A slice, and which of its steps succeed. -/
structure SliceInput where
  cLen : ℕ
  /-- The last chunk of `compress_buf_` is empty. -/
  emptyEnd : Bool
  compress : Bool
  connect : Bool
  send : SendFate
  /-- `Recv` gets as far as `Decompress`. -/
  recv : Bool
  decompress : Bool
  late_emptyEnd : send = .failsLate → emptyEnd = true

/-- The length of the stream. -/
def SliceInput.total (input : SliceInput) : ℕ := kEachSliceHeaderLen + input.cLen

/-- How far a slice has come; `some true` is a step that has succeeded. -/
structure SliceProgress where
  compress : Option Bool := none
  sumSent : Option ℕ := none
  send : Option Bool := none
  recv : Option Bool := none
  decompress : Option Bool := none
  deriving DecidableEq, Repr

/-- All steps of the slice have succeeded. -/
structure SliceProgress.Succeeded (p : SliceProgress) : Prop where
  compress : p.compress = some true
  send : p.send = some true
  recv : p.recv = some true
  decompress : p.decompress = some true

/-- `SendingFlow::Run` has returned. -/
def SliceProgress.Ended (p : SliceProgress) : Prop := p.compress = some false ∨ p.send ≠ none

inductive RunAction
  | compress
  | connect
  | write (count : ℕ)
  | writeFails
  | returns
  deriving DecidableEq, Repr

/-- `SendingFlow::Run` on a slice. -/
def runStep (input : SliceInput) (p : SliceProgress) : RunAction → Option SliceProgress
  | .compress =>
      if p.compress = none then some { p with compress := some input.compress } else none
  | .connect =>
      if p.compress = some true ∧ p.sumSent = none ∧ p.send = none then
        some (if input.connect then { p with sumSent := some 0 } else { p with send := some false })
      else none
  | .write count =>
      match p.sumSent with
      | some sumSent =>
          if p.send = none ∧ 0 < count ∧ sumSent + count ≤ input.total ∧
              (input.send = .failsEarly → sumSent + count < input.total) then
            some { p with sumSent := some (sumSent + count) }
          else none
      | none => none
  | .writeFails =>
      match p.sumSent with
      | some sumSent =>
          -- the do-while calls `write` for an empty last chunk too
          if p.send = none ∧ (input.send = .failsEarly ∧ sumSent < input.total ∨
              input.send = .failsLate ∧ sumSent = input.total) then
            some { p with send := some false }
          else none
      | none => none
  | .returns =>
      match p.sumSent with
      | some sumSent =>
          if p.send = none ∧ input.send = .succeeds ∧ sumSent = input.total then
            some { p with send := some (sumSent - kEachSliceHeaderLen = input.cLen) }
          else none
      | none => none

/-! ## The whole transfer -/

/-- Who made a connection. -/
inductive Peer
  | header
  | slice (index : ℕ)
  deriving DecidableEq, Repr

/-- Where the first read of a `Recv` task has led it. -/
inductive Branch
  | header
  | stored
  | slice
  deriving DecidableEq, Repr

structure TransferState where
  /-- The connections in the order they were made. -/
  connected : List Peer := []
  slices : ℕ → SliceProgress := fun _ => {}
  receiver : EndState := endInitial
  branch : ℕ → Option Branch := fun _ => none
  /-- `split_len_` and `start_` are set. -/
  recorded : Bool := false
  /-- What the receiver has written and the sender has not read yet. -/
  report : List UInt8 := []
  validated : Bool := false
  supervisor : SuperviseState := {}

/-- The statements of the accept loop. -/
inductive AcceptAction
  | enqueue
  | push
  | count
  | notify
  deriving DecidableEq, Repr

def AcceptAction.endAction : AcceptAction → EndAction
  | .enqueue => .enqueue
  | .push => .push
  | .count => .count
  | .notify => .notify

/-- What `Recv` leaves behind on a slice, which it has read or not. -/
def SliceInput.record (input : SliceInput) (p : SliceProgress) : SliceProgress :=
  if input.recv then
    { p with recv := some input.decompress, decompress := some input.decompress }
  else { p with recv := some false }

inductive TransferAction
  | sendFileSize
  | run (index : ℕ) (action : RunAction)
  | accept (action : AcceptAction)
  | firstRead (task : ℕ)
  | storeHeader (task slicesNum : ℕ)
  | leaveHeader (task : ℕ) (result : TaskEnd)
  | recv (task : ℕ)
  | supervise (action : SuperviseAction)
  | writeResult (text : List UInt8)
  | collect (wait : EpollWait)
  deriving DecidableEq, Repr

/-- The progress of the slices when the task of one of them ends. -/
def TransferState.recordTask (s : TransferState) (task : ℕ)
    (record : ℕ → SliceProgress → SliceProgress) : ℕ → SliceProgress :=
  match s.connected[task]? with
  | some (.slice index) => Function.update s.slices index (record index (s.slices index))
  | _ => s.slices

def TransferState.endTask (n : ℕ) (s : TransferState) (task : ℕ) (result : TaskEnd)
    (record : ℕ → SliceProgress → SliceProgress) : Option TransferState :=
  (endStep n s.receiver (.finish task result)).map fun receiver =>
    { s with receiver := receiver, slices := s.recordTask task record }

/-- The bytes that `Recv` waits for on a connection have been sent; it may fail before. -/
def TransferState.Readable (inputs : ℕ → SliceInput) (s : TransferState) (task : ℕ) : Prop :=
  ∀ index, s.connected[task]? = some (.slice index) → (inputs index).recv = true →
    (s.slices index).sumSent = some (inputs index).total

instance (inputs : ℕ → SliceInput) (s : TransferState) (task : ℕ) :
    Decidable (s.Readable inputs task) :=
  match hpeer : s.connected[task]? with
  | some (.slice index) => decidable_of_iff
      ((inputs index).recv = true → (s.slices index).sumSent = some (inputs index).total) <| by
        constructor
        · intro h other hother
          cases hpeer.symm.trans hother
          exact h
        · exact fun h => h index hpeer
  | some .header | none => isTrue fun index hslice => by cases hpeer.symm.trans hslice

/-- `n` slices. -/
def transferStep (n : ℕ) (inputs : ℕ → SliceInput) (s : TransferState) :
    TransferAction → Option TransferState
  | .sendFileSize => if s.connected = [] then some { s with connected := [.header] } else none
  | .run index action =>
      -- the slices are enqueued once the header was sent
      if s.connected ≠ [] ∧ index < n then
        (runStep (inputs index) (s.slices index) action).map fun p =>
          { s with
            slices := Function.update s.slices index p
            connected :=
              if action = .connect ∧ (inputs index).connect = true then
                s.connected ++ [.slice index]
              else s.connected }
      else none
  | .accept action =>
      if action = .enqueue → s.receiver.accepted < s.connected.length then
        (endStep n s.receiver action.endAction).map fun receiver => { s with receiver := receiver }
      else none
  | .firstRead task =>
      if task < s.receiver.accepted ∧ s.receiver.tasks task = none ∧ s.branch task = none then
        some { s with
          branch := Function.update s.branch task
            (some (if s.recorded then .slice else .header)) }
      else none
  | .storeHeader task slicesNum =>
      if s.branch task = some .header ∧ s.receiver.tasks task = none then
        some { s with
          branch := Function.update s.branch task (some .stored)
          recorded := true
          receiver := { s.receiver with slicesNum := slicesNum } }
      else none
  | .leaveHeader task result =>
      -- a header that is refused gives -1 or an exception, one that is stored gives zero
      if s.branch task = some .header ∨ s.branch task = some .stored ∧ result = .returned then
        s.endTask n task result fun _ p => { p with recv := some (s.branch task = some .stored) }
      else none
  | .recv task =>
      -- `offset_` reaches `c_len_` with the last byte of the stream
      if s.branch task = some .slice ∧ s.Readable inputs task then
        s.endTask n task .returned fun index => (inputs index).record
      else none
  | .supervise action =>
      (endStep n s.receiver (.supervise action)).map fun receiver =>
        { s with
          receiver := receiver
          report := if action = .write then s.report ++ [markerByte, 0] else s.report }
  | .writeResult text =>
      if s.receiver.phase = .reported ∧ s.validated = false then
        some { s with report := s.report ++ text, validated := true }
      else none
  | .collect wait =>
      if wait.bytes <+: s.report then
        (superviseStep s.supervisor wait).map fun supervisor =>
          { s with supervisor := supervisor, report := s.report.drop wait.bytes.length }
      else none

def transferSystem (n : ℕ) (inputs : ℕ → SliceInput) :
    TransitionSystem TransferState TransferAction where
  init := {}
  step := transferStep n inputs

/-- The header is recorded by its own task and as it was sent, before any slice is read. -/
def HeaderInOrder (n : ℕ) (s : TransferState) : TransferAction → Prop
  | .firstRead task => s.recorded = false → s.connected[task]? = some .header
  | .storeHeader _ slicesNum => slicesNum = n
  | _ => True

/-- No test of the wait is misled. -/
def TestInOrder (n : ℕ) (s : TransferState) : TransferAction → Prop
  | .supervise action => ¬ Misleads n s.receiver (.supervise action)
  | _ => True

def Orderly (n : ℕ) (s : TransferState) (a : TransferAction) : Prop :=
  HeaderInOrder n s a ∧ TestInOrder n s a

instance (n : ℕ) (s : TransferState) : (a : TransferAction) → Decidable (HeaderInOrder n s a)
  | .firstRead task =>
      inferInstanceAs (Decidable (s.recorded = false → s.connected[task]? = some .header))
  | .storeHeader _ slicesNum => inferInstanceAs (Decidable (slicesNum = n))
  | .sendFileSize | .run _ _ | .accept _ | .leaveHeader _ _ | .recv _ | .supervise _
  | .writeResult _ | .collect _ => inferInstanceAs (Decidable True)

instance (n : ℕ) (s : TransferState) : (a : TransferAction) → Decidable (TestInOrder n s a)
  | .supervise action => inferInstanceAs (Decidable (¬ Misleads n s.receiver (.supervise action)))
  | .sendFileSize | .run _ _ | .accept _ | .firstRead _ | .storeHeader _ _ | .leaveHeader _ _
  | .recv _ | .writeResult _ | .collect _ => inferInstanceAs (Decidable True)

instance (n : ℕ) (s : TransferState) (a : TransferAction) : Decidable (Orderly n s a) :=
  inferInstanceAs (Decidable (_ ∧ _))

/-- `main` has the results of all `Run` tasks, and that of `SendingFlow::Supervise` is zero. -/
def ReportsSuccess (n : ℕ) (s : TransferState) : Prop :=
  s.supervisor.exit = some (.returned 0) ∧ ∀ index < n, (s.slices index).Ended

/-! ## The failures that matter -/

/-- No step of the slice fails. -/
structure SliceInput.Succeeds (input : SliceInput) : Prop where
  compress : input.compress = true
  connect : input.connect = true
  send : input.send = .succeeds
  recv : input.recv = true
  decompress : input.decompress = true

/-- The slice never comes to the end of its `Recv` task: there is no connection, or the stream
is cut short on a connection that does not fail otherwise. -/
def SliceInput.Blocks (input : SliceInput) : Prop :=
  input.compress = false ∨ input.connect = false ∨
    input.send = .failsEarly ∧ input.recv = true

/-- No step of any slice fails, or one of the failures keeps the receiver waiting. -/
def Harmless (n : ℕ) (inputs : ℕ → SliceInput) : Prop :=
  (∀ index < n, (inputs index).Succeeds) ∨ ∃ index < n, (inputs index).Blocks

/-! ## One slice -/

/-- What the sender has done with a slice agrees with what becomes of it. -/
structure Consistent (input : SliceInput) (p : SliceProgress) : Prop where
  compress : ∀ success, p.compress = some success → success = input.compress
  opened : p.sumSent ≠ none → p.compress = some true ∧ input.connect = true
  complete : p.sumSent = some input.total → input.send ≠ .failsEarly
  failed : p.send = some false → input.connect = false ∨ input.send ≠ .succeeds

/-- `Recv` is done with the slice. -/
structure Received (input : SliceInput) (p : SliceProgress) : Prop where
  complete : input.recv = true → p.sumSent = some input.total
  recv : p.recv = some (input.recv && input.decompress)
  decompress : input.recv = true → p.decompress = some input.decompress

/-- The steps of `Run`, one constructor for each thing that can happen. -/
inductive RunNext (input : SliceInput) (p : SliceProgress) : RunAction → SliceProgress → Prop
  | compress (hfresh : p.compress = none) :
      RunNext input p .compress { p with compress := some input.compress }
  | connect (hcompressed : p.compress = some true) (hnone : p.sumSent = none)
      (hconnect : input.connect = true) : RunNext input p .connect { p with sumSent := some 0 }
  | refused (hcompressed : p.compress = some true) (hnone : p.sumSent = none)
      (hconnect : input.connect = false) : RunNext input p .connect { p with send := some false }
  | write {sumSent count : ℕ} (hopen : p.sumSent = some sumSent) (hpos : 0 < count)
      (hle : sumSent + count ≤ input.total)
      (hearly : input.send = .failsEarly → sumSent + count < input.total) :
      RunNext input p (.write count) { p with sumSent := some (sumSent + count) }
  | writeFails {sumSent : ℕ} (hopen : p.sumSent = some sumSent) (hfails : input.send ≠ .succeeds) :
      RunNext input p .writeFails { p with send := some false }
  | returns (hall : p.sumSent = some input.total) :
      RunNext input p .returns { p with send := some true }

theorem runNext_of_step {input : SliceInput} {p p' : SliceProgress} {a : RunAction}
    (h : runStep input p a = some p') : RunNext input p a p' := by
  cases a with
  | compress =>
      obtain ⟨hfresh, heq⟩ := Option.ite_none_right_eq_some.mp h
      cases heq
      exact .compress hfresh
  | connect =>
      obtain ⟨⟨hcompressed, hnone, -⟩, heq⟩ := Option.ite_none_right_eq_some.mp h
      cases heq
      cases hconnect : input.connect with
      | true => exact .connect hcompressed hnone hconnect
      | false => exact .refused hcompressed hnone hconnect
  | write count =>
      rw [runStep] at h
      split at h
      · obtain ⟨⟨-, hpos, hle, hearly⟩, heq⟩ := Option.ite_none_right_eq_some.mp h
        cases heq
        exact .write ‹_› hpos hle hearly
      · cases h
  | writeFails =>
      rw [runStep] at h
      split at h
      · obtain ⟨⟨-, hwhen⟩, heq⟩ := Option.ite_none_right_eq_some.mp h
        cases heq
        refine .writeFails ‹_› fun hsucceeds => ?_
        rcases hwhen with ⟨hearly, -⟩ | ⟨hlate, -⟩
        · cases hsucceeds.symm.trans hearly
        · cases hsucceeds.symm.trans hlate
      · cases h
  | returns =>
      rw [runStep] at h
      split at h
      · rename_i sumSent hopen
        obtain ⟨⟨-, -, rfl⟩, heq⟩ := Option.ite_none_right_eq_some.mp h
        have htest : input.total - kEachSliceHeaderLen = input.cLen := Nat.add_sub_cancel_left ..
        rw [htest, decide_eq_true rfl] at heq
        cases heq
        exact .returns hopen
      · cases h

theorem Consistent.next {input : SliceInput} {p p' : SliceProgress} {a : RunAction}
    (hp : Consistent input p) (h : RunNext input p a p') : Consistent input p' := by
  have hpos : 0 ≠ input.total := by
    rw [SliceInput.total, kEachSliceHeaderLen]
    omega
  cases h with
  | compress hfresh =>
      refine ⟨fun success heq => (Option.some_inj.mp heq).symm, fun hopen => ?_, hp.complete,
        hp.failed⟩
      cases hfresh.symm.trans (hp.opened hopen).1
  | connect hcompressed _ hconnect =>
      exact ⟨hp.compress, fun _ => ⟨hcompressed, hconnect⟩,
        fun hall => absurd (Option.some_inj.mp hall) hpos, hp.failed⟩
  | refused _ _ hconnect =>
      exact ⟨hp.compress, hp.opened, hp.complete, fun _ => Or.inl hconnect⟩
  | write hopen _ _ hearly =>
      refine ⟨hp.compress, fun _ => hp.opened ?_, fun hall hfails => ?_, hp.failed⟩
      · rw [hopen]
        exact Option.some_ne_none _
      · exact (hearly hfails).ne (Option.some_inj.mp hall)
  | writeFails _ hfails => exact ⟨hp.compress, hp.opened, hp.complete, fun _ => Or.inr hfails⟩
  | returns _ => exact ⟨hp.compress, hp.opened, hp.complete, fun hfalse => by cases hfalse⟩

/-- The sender is done with a slice that was received, or it was not received whole. -/
theorem Received.next {input : SliceInput} {p p' : SliceProgress} {a : RunAction}
    (hp : Received input p) (h : RunNext input p a p') : Received input p' := by
  cases h with
  | connect _ hnone _ =>
      refine ⟨fun hrecv => ?_, hp.recv, hp.decompress⟩
      cases hnone.symm.trans (hp.complete hrecv)
  | write hopen hcount hle _ =>
      refine ⟨fun hrecv => ?_, hp.recv, hp.decompress⟩
      cases hopen.symm.trans (hp.complete hrecv)
      omega
  | compress _ | refused _ _ _ | writeFails _ _ | returns _ =>
      exact ⟨hp.complete, hp.recv, hp.decompress⟩

/-- A connection is opened once. -/
theorem RunNext.opened {input : SliceInput} {p p' : SliceProgress} {a : RunAction}
    (h : RunNext input p a p') :
    (p.sumSent ≠ none → p'.sumSent ≠ none ∧ ¬ (a = .connect ∧ input.connect = true)) ∧
      (a = .connect ∧ input.connect = true → p'.sumSent ≠ none) := by
  cases h with
  | connect _ hnone _ => exact ⟨fun hopen => absurd hnone hopen, fun _ => Option.some_ne_none _⟩
  | refused _ _ hconnect => simp [hconnect]
  | compress _ | write _ _ _ _ | writeFails _ _ | returns _ => simp

/-! ## Steps of the receiver -/

theorem endStep_accept {n : ℕ} {s s' : EndState} {action : AcceptAction}
    (h : endStep n s action.endAction = some s') :
    s'.tasks = s.tasks ∧ s'.accepted = s.accepted + (if action = .enqueue then 1 else 0) ∧
      (s'.phase = .reported ↔ s.phase = .reported) := by
  cases action with
  | enqueue =>
      obtain ⟨-, heq⟩ := Option.ite_none_right_eq_some.mp h
      cases heq
      exact ⟨rfl, rfl, Iff.rfl⟩
  | push =>
      obtain ⟨-, heq⟩ := Option.ite_none_right_eq_some.mp h
      cases heq
      exact ⟨rfl, rfl, Iff.rfl⟩
  | count =>
      obtain ⟨-, heq⟩ := Option.ite_none_right_eq_some.mp h
      cases heq
      exact ⟨rfl, rfl, Iff.rfl⟩
  | notify =>
      obtain ⟨-, heq⟩ := Option.ite_none_right_eq_some.mp h
      cases heq
      refine ⟨rfl, rfl, ?_⟩
      by_cases hasleep : s.phase = .asleep
      · simp [hasleep]
      · simp [hasleep]

theorem not_misleads_accept {n : ℕ} {s : EndState} (action : AcceptAction) :
    ¬ Misleads n s action.endAction := by
  rintro ⟨-, ⟨heq, -⟩ | ⟨heq, -⟩⟩
  · cases action <;> cases heq
  · cases action <;> cases heq

/-- The marker is written by the supervisor's last step, and only by that one. -/
theorem superviseStep_reported {s : EndState} {action : SuperviseAction} {phase : Phase}
    (h : Supervisor.superviseStep s action = some phase) :
    s.phase ≠ .reported ∧ (phase = .reported ↔ action = .write) := by
  cases superviseNext_of_step h with
  | @compareThNum slicesNum hphase =>
      rcases Phase.compare_cases s.slicesThNum slicesNum with ⟨heq, -⟩ | ⟨heq, -⟩
      · simp [hphase, heq]
      · simp [hphase, heq]
  | @compareNum slicesThNum hphase =>
      rcases Phase.compare_cases slicesThNum s.slicesNum with ⟨heq, -⟩ | ⟨heq, -⟩
      · simp [hphase, heq]
      · simp [hphase, heq]
  | loadThNum hphase | loadNum hphase | pass hphase _ | fail hphase _ | block hphase | wake hphase
  | connect hphase | refused hphase | collect hphase | get hphase _ _ | rethrow hphase _ _
  | write hphase => simp [hphase]

/-! ## The invariant -/

/-- What holds along the orderly runs. -/
structure Tracked (n : ℕ) (inputs : ℕ → SliceInput) (s : TransferState) : Prop where
  receiver : (endSystem n).ReachableVia (fun s a => ¬ Misleads n s a) s.receiver
  accepted_le : s.receiver.accepted ≤ s.connected.length
  ended_lt : ∀ task, s.receiver.tasks task ≠ none → task < s.receiver.accepted
  nodup : s.connected.Nodup
  peers : ∀ peer ∈ s.connected, peer = .header ∨ ∃ index < n, peer = .slice index
  opened : ∀ index, .slice index ∈ s.connected → (s.slices index).sumSent ≠ none
  consistent : ∀ index, Consistent (inputs index) (s.slices index)
  /-- Only the header's task goes through the header branch. -/
  header_branch : ∀ task, s.branch task = some .header ∨ s.branch task = some .stored →
    task < s.receiver.accepted ∧ s.connected[task]? = some .header
  received : ∀ task index, s.receiver.tasks task ≠ none →
    s.connected[task]? = some (.slice index) → Received (inputs index) (s.slices index)
  /-- Before the marker is written the sender has nothing to read. -/
  unreported : s.receiver.phase ≠ .reported →
    s.report = [] ∧ s.supervisor.exit ≠ some (.returned 0)

section Steps

variable {n : ℕ} {inputs : ℕ → SliceInput} {s s' : TransferState}

theorem tracked_init : Tracked n inputs {} where
  receiver := .init
  accepted_le := Nat.zero_le _
  ended_lt := fun _ hended => absurd rfl hended
  nodup := List.nodup_nil
  peers := fun _ hpeer => absurd hpeer List.not_mem_nil
  opened := fun _ hslice => absurd hslice List.not_mem_nil
  consistent := fun _ => by
    refine ⟨fun success heq => ?_, fun hopen => absurd rfl hopen, fun hall => ?_, fun hfalse => ?_⟩
    · cases heq
    · cases hall
    · cases hfalse
  header_branch := fun _ hbranch => by simp at hbranch
  received := fun _ _ hended => absurd rfl hended
  unreported := fun _ => ⟨rfl, (Option.some_ne_none _).symm⟩

theorem Tracked.ordered (hs : Tracked n inputs s) : ∃ increments, Ordered n s.receiver increments :=
  ordered_of_reachable (hs.receiver.imp fun _ _ _ => trivial)

theorem Tracked.sendFileSize (hs : Tracked n inputs s) (hnone : s.connected = []) :
    Tracked n inputs { s with connected := [.header] } := by
  have hzero : s.receiver.accepted = 0 := by
    have hle := hs.accepted_le
    rw [hnone] at hle
    exact Nat.le_zero.mp hle
  have hnotEnded : ∀ task, ¬ task < s.receiver.accepted := fun task hlt => by omega
  refine ⟨hs.receiver, by rw [hzero]; exact Nat.zero_le _, hs.ended_lt, List.nodup_singleton _,
    ?_, ?_, hs.consistent, ?_, ?_, hs.unreported⟩
  · exact fun peer hpeer => Or.inl (List.mem_singleton.mp hpeer)
  · intro index hslice
    cases List.mem_singleton.mp hslice
  · exact fun task hbranch => absurd (hs.header_branch task hbranch).1 (hnotEnded task)
  · exact fun task index hended => absurd (hs.ended_lt task hended) (hnotEnded task)

/-- A slice gets further. -/
theorem Tracked.setProgress (hs : Tracked n inputs s) {index : ℕ} {a : RunAction}
    {p : SliceProgress} (hnext : RunNext (inputs index) (s.slices index) a p) :
    Tracked n inputs { s with slices := Function.update s.slices index p } := by
  -- what holds of all slices is to be shown for this one
  have hset : ∀ P : ℕ → SliceProgress → Prop, (∀ other, P other (s.slices other)) →
      (P index (s.slices index) → P index p) →
        ∀ other, P other (Function.update s.slices index p other) :=
    fun P hall hkeeps => (Function.forall_update_iff s.slices P).mpr
      ⟨hkeeps (hall index), fun other _ => hall other⟩
  refine ⟨hs.receiver, hs.accepted_le, hs.ended_lt, hs.nodup, hs.peers, ?_, ?_, hs.header_branch,
    ?_, hs.unreported⟩
  · apply hset (fun other p => .slice other ∈ s.connected → p.sumSent ≠ none) hs.opened
    exact fun hopen hslice => (hnext.opened.1 (hopen hslice)).1
  · apply hset (fun other p => Consistent (inputs other) p) hs.consistent
    exact fun hconsistent => hconsistent.next hnext
  · intro task
    apply hset (fun other p => s.receiver.tasks task ≠ none →
      s.connected[task]? = some (.slice other) → Received (inputs other) p) (hs.received task)
    exact fun hdone hended hslice => (hdone hended hslice).next hnext

/-- A slice opens its connection. -/
theorem Tracked.connect (hs : Tracked n inputs s) {index : ℕ} (hindex : index < n)
    (hnew : Peer.slice index ∉ s.connected) (hopened : (s.slices index).sumSent ≠ none) :
    Tracked n inputs { s with connected := s.connected ++ [.slice index] } := by
  -- the connections there keep their places
  have hold : ∀ task < s.receiver.accepted,
      (s.connected ++ [Peer.slice index])[task]? = s.connected[task]? :=
    fun task htask => List.getElem?_append_left (htask.trans_le hs.accepted_le)
  refine ⟨hs.receiver, ?_, hs.ended_lt, ?_, ?_, ?_, hs.consistent, ?_, ?_, hs.unreported⟩
  · show s.receiver.accepted ≤ (s.connected ++ [Peer.slice index]).length
    rw [List.length_append]
    exact hs.accepted_le.trans (Nat.le_add_right _ _)
  · refine List.nodup_append.mpr ⟨hs.nodup, List.nodup_singleton _, ?_⟩
    rintro peer hpeer other hother rfl
    rw [List.mem_singleton.mp hother] at hpeer
    exact hnew hpeer
  · intro peer hpeer
    rcases List.mem_append.mp hpeer with hbefore | hlast
    · exact hs.peers peer hbefore
    · exact Or.inr ⟨index, hindex, List.mem_singleton.mp hlast⟩
  · intro other hslice
    rcases List.mem_append.mp hslice with hbefore | hlast
    · exact hs.opened other hbefore
    · cases List.mem_singleton.mp hlast
      exact hopened
  · intro task hbranch
    obtain ⟨hlt, hheader⟩ := hs.header_branch task hbranch
    exact ⟨hlt, (hold task hlt).trans hheader⟩
  · intro task other hended hslice
    rw [hold task (hs.ended_lt task hended)] at hslice
    exact hs.received task other hended hslice

theorem Tracked.run (hs : Tracked n inputs s) {index : ℕ} {action : RunAction}
    {p : SliceProgress} (hindex : index < n)
    (hnext : RunNext (inputs index) (s.slices index) action p) :
    Tracked n inputs { s with
      slices := Function.update s.slices index p
      connected :=
        if action = .connect ∧ (inputs index).connect = true then s.connected ++ [.slice index]
        else s.connected } := by
  obtain ⟨hkeeps, hopens⟩ := hnext.opened
  have hprogress := hs.setProgress hnext
  by_cases hconnect : action = .connect ∧ (inputs index).connect = true
  · simp only [if_pos hconnect]
    refine hprogress.connect hindex ?_ ?_
    · exact fun hslice => (hkeeps (hs.opened index hslice)).2 hconnect
    · show (Function.update s.slices index p index).sumSent ≠ none
      rw [Function.update_self]
      exact hopens hconnect
  · simp only [if_neg hconnect]
    exact hprogress

theorem Tracked.accept (hs : Tracked n inputs s) {action : AcceptAction} {receiver : EndState}
    (hroom : action = .enqueue → s.receiver.accepted < s.connected.length)
    (hreceiver : endStep n s.receiver action.endAction = some receiver) :
    Tracked n inputs { s with receiver := receiver } := by
  obtain ⟨htasks, haccepted, hphase⟩ := endStep_accept hreceiver
  have hmono : s.receiver.accepted ≤ receiver.accepted := by
    rw [haccepted]
    exact Nat.le_add_right _ _
  refine ⟨.step hs.receiver (not_misleads_accept action) hreceiver, ?_, ?_, hs.nodup, hs.peers,
    hs.opened, hs.consistent, ?_, ?_, ?_⟩
  · show receiver.accepted ≤ s.connected.length
    have hle := hs.accepted_le
    rw [haccepted]
    split
    · exact hroom ‹_›
    · exact hle
  · intro task hended
    rw [show (receiver.tasks task ≠ none) = (s.receiver.tasks task ≠ none) by rw [htasks]] at hended
    exact (hs.ended_lt task hended).trans_le hmono
  · intro task hbranch
    obtain ⟨hlt, hheader⟩ := hs.header_branch task hbranch
    exact ⟨hlt.trans_le hmono, hheader⟩
  · intro task index hended
    rw [show (receiver.tasks task ≠ none) = (s.receiver.tasks task ≠ none) by rw [htasks]] at hended
    exact hs.received task index hended
  · exact fun hunreported => hs.unreported fun hreported => hunreported (hphase.mpr hreported)

theorem Tracked.firstRead (hs : Tracked n inputs s) {task : ℕ}
    (htask : task < s.receiver.accepted)
    (horderly : s.recorded = false → s.connected[task]? = some .header) :
    Tracked n inputs { s with
      branch := Function.update s.branch task
        (some (if s.recorded then .slice else .header)) } := by
  refine ⟨hs.receiver, hs.accepted_le, hs.ended_lt, hs.nodup, hs.peers, hs.opened, hs.consistent,
    ?_, hs.received, hs.unreported⟩
  intro other hbranch
  by_cases hsame : other = task
  · subst hsame
    refine ⟨htask, horderly ?_⟩
    by_contra hrecorded
    rw [Bool.not_eq_false] at hrecorded
    simp [hrecorded] at hbranch
  · refine hs.header_branch other ?_
    simpa [hsame] using hbranch

theorem Tracked.storeHeader (hs : Tracked n inputs s) {task : ℕ}
    (hbranch : s.branch task = some .header) :
    Tracked n inputs { s with
      branch := Function.update s.branch task (some .stored)
      recorded := true
      receiver := { s.receiver with slicesNum := n } } := by
  obtain ⟨htask, hheader⟩ := hs.header_branch task (Or.inl hbranch)
  refine ⟨?_, hs.accepted_le, hs.ended_lt, hs.nodup, hs.peers, hs.opened, hs.consistent, ?_,
    hs.received, hs.unreported⟩
  · -- either this is the receiver's own step, or the number was stored before
    obtain ⟨increments, hordered⟩ := hs.ordered
    rcases hordered.slicesNum_eq with hfresh | hstored
    · have hstep : (endSystem n).step s.receiver .storeSlicesNum =
          some { s.receiver with slicesNum := n } := if_pos ⟨by omega, hfresh⟩
      exact .step hs.receiver (fun hmisleads => by simp [Misleads] at hmisleads) hstep
    · have hsame : ({ s.receiver with slicesNum := n } : EndState) = s.receiver := by
        rw [← hstored]
      rw [hsame]
      exact hs.receiver
  · intro other hother
    by_cases hsame : other = task
    · subst hsame
      exact ⟨htask, hheader⟩
    · refine hs.header_branch other ?_
      simpa [hsame] using hother

theorem recordTask_self {task index : ℕ} {record : ℕ → SliceProgress → SliceProgress}
    (hpeer : s.connected[task]? = some (.slice index)) :
    s.recordTask task record index = record index (s.slices index) := by
  rw [TransferState.recordTask, hpeer]
  exact Function.update_self _ _ _

theorem recordTask_of_ne {task index : ℕ} {record : ℕ → SliceProgress → SliceProgress}
    (hpeer : s.connected[task]? ≠ some (.slice index)) :
    s.recordTask task record index = s.slices index := by
  rw [TransferState.recordTask]
  cases hother : s.connected[task]? with
  | none => rfl
  | some peer =>
      cases peer with
      | header => rfl
      | slice other =>
          refine Function.update_of_ne ?_ _ _
          rintro rfl
          exact hpeer hother

/-- A task ends, and its slice is done. -/
theorem Tracked.endTask (hs : Tracked n inputs s) {task : ℕ} {result : TaskEnd}
    {record : ℕ → SliceProgress → SliceProgress}
    (h : s.endTask n task result record = some s')
    (hrecord : ∀ index, s.connected[task]? = some (.slice index) →
      Consistent (inputs index) (record index (s.slices index)) ∧
        Received (inputs index) (record index (s.slices index)) ∧
          (record index (s.slices index)).sumSent = (s.slices index).sumSent) :
    Tracked n inputs s' := by
  obtain ⟨receiver, hreceiver, rfl⟩ := Option.map_eq_some_iff.mp h
  have hreach : (endSystem n).ReachableVia (fun s a => ¬ Misleads n s a) receiver :=
    .step (a := .finish task result) hs.receiver (fun hmisleads => by simp [Misleads] at hmisleads)
      hreceiver
  obtain ⟨⟨htask, hrunning⟩, heq⟩ := Option.ite_none_right_eq_some.mp hreceiver
  cases heq
  refine ⟨hreach, hs.accepted_le, ?_, hs.nodup, hs.peers, ?_, ?_, hs.header_branch, ?_,
    hs.unreported⟩
  · intro other hended
    by_cases hsame : other = task
    · rwa [hsame]
    · refine hs.ended_lt other ?_
      rwa [← Function.update_of_ne hsame (some result) s.receiver.tasks]
  · intro index hslice
    show (s.recordTask task record index).sumSent ≠ none
    by_cases hpeer : s.connected[task]? = some (.slice index)
    · rw [recordTask_self hpeer, (hrecord index hpeer).2.2]
      exact hs.opened index hslice
    · rw [recordTask_of_ne hpeer]
      exact hs.opened index hslice
  · intro index
    show Consistent (inputs index) (s.recordTask task record index)
    by_cases hpeer : s.connected[task]? = some (.slice index)
    · rw [recordTask_self hpeer]
      exact (hrecord index hpeer).1
    · rw [recordTask_of_ne hpeer]
      exact hs.consistent index
  · intro other index hended (hpeer : s.connected[other]? = some (.slice index))
    show Received (inputs index) (s.recordTask task record index)
    by_cases hsame : other = task
    · rw [hsame] at hpeer
      rw [recordTask_self hpeer]
      exact (hrecord index hpeer).2.1
    · -- the connections are distinct, so this slice is another one
      have hended' : s.receiver.tasks other ≠ none := by
        rwa [← Function.update_of_ne hsame (some result) s.receiver.tasks]
      have hlt := (hs.ended_lt other hended').trans_le hs.accepted_le
      have hne : s.connected[task]? ≠ some (.slice index) := fun htwice =>
        hsame ((List.getElem?_inj hlt hs.nodup).mp (hpeer.trans htwice.symm))
      rw [recordTask_of_ne hne]
      exact hs.received other index hended' hpeer

theorem Tracked.leaveHeader (hs : Tracked n inputs s) {task : ℕ} {result : TaskEnd}
    {record : ℕ → SliceProgress → SliceProgress}
    (hbranch : s.branch task = some .header ∨ s.branch task = some .stored)
    (h : s.endTask n task result record = some s') : Tracked n inputs s' := by
  refine hs.endTask h ?_
  intro index hslice
  rw [(hs.header_branch task hbranch).2] at hslice
  cases hslice

theorem Tracked.recv (hs : Tracked n inputs s) {task : ℕ} (hreadable : s.Readable inputs task)
    (h : s.endTask n task .returned (fun index => (inputs index).record) = some s') :
    Tracked n inputs s' := by
  refine hs.endTask h ?_
  intro index hslice
  have hbefore := hs.consistent index
  rw [SliceInput.record]
  cases hrecv : (inputs index).recv with
  | true =>
      refine ⟨⟨hbefore.compress, hbefore.opened, hbefore.complete, hbefore.failed⟩, ⟨?_, ?_, ?_⟩,
        rfl⟩
      · exact fun _ => hreadable index hslice hrecv
      · rw [hrecv]
        rfl
      · exact fun _ => rfl
  | false =>
      refine ⟨⟨hbefore.compress, hbefore.opened, hbefore.complete, hbefore.failed⟩, ⟨?_, ?_, ?_⟩,
        rfl⟩
      · exact fun htrue => absurd (hrecv.symm.trans htrue) Bool.false_ne_true
      · rw [hrecv]
        rfl
      · exact fun htrue => absurd (hrecv.symm.trans htrue) Bool.false_ne_true

theorem Tracked.supervise (hs : Tracked n inputs s) {action : SuperviseAction} {receiver : EndState}
    (hright : ¬ Misleads n s.receiver (.supervise action))
    (h : endStep n s.receiver (.supervise action) = some receiver) :
    Tracked n inputs { s with
      receiver := receiver
      report := if action = .write then s.report ++ [markerByte, 0] else s.report } := by
  have hreach : (endSystem n).ReachableVia (fun s a => ¬ Misleads n s a) receiver :=
    .step (a := .supervise action) hs.receiver hright h
  obtain ⟨phase, hphase, rfl⟩ := Option.map_eq_some_iff.mp h
  obtain ⟨hbefore, hafter⟩ := superviseStep_reported hphase
  refine ⟨hreach, hs.accepted_le, hs.ended_lt, hs.nodup, hs.peers, hs.opened, hs.consistent,
    hs.header_branch, hs.received, fun hunreported => ?_⟩
  obtain ⟨hnone, hexit⟩ := hs.unreported hbefore
  have hwrite : action ≠ .write := fun heq => hunreported (hafter.mpr heq)
  exact ⟨(if_neg hwrite).trans hnone, hexit⟩

theorem Tracked.collect (hs : Tracked n inputs s) {wait : EpollWait} {supervisor : SuperviseState}
    (hbytes : wait.bytes <+: s.report)
    (h : SendingFlow.superviseStep s.supervisor wait = some supervisor) :
    Tracked n inputs { s with
      supervisor := supervisor, report := s.report.drop wait.bytes.length } := by
  refine ⟨hs.receiver, hs.accepted_le, hs.ended_lt, hs.nodup, hs.peers, hs.opened, hs.consistent,
    hs.header_branch, hs.received, fun hunreported => ?_⟩
  obtain ⟨hnone, -⟩ := hs.unreported hunreported
  rw [hnone, List.prefix_nil] at hbytes
  refine ⟨?_, superviseStep_ne_returned h hbytes⟩
  show s.report.drop wait.bytes.length = []
  rw [hnone, List.drop_nil]

/-- **An orderly step keeps track.** -/
theorem Tracked.step (hs : Tracked n inputs s) {a : TransferAction} (horderly : Orderly n s a)
    (h : transferStep n inputs s a = some s') : Tracked n inputs s' := by
  cases a with
  | sendFileSize =>
      obtain ⟨hnone, heq⟩ := Option.ite_none_right_eq_some.mp h
      cases heq
      exact hs.sendFileSize hnone
  | run index action =>
      obtain ⟨⟨-, hindex⟩, hrun⟩ := Option.ite_none_right_eq_some.mp h
      obtain ⟨p, hp, rfl⟩ := Option.map_eq_some_iff.mp hrun
      exact hs.run hindex (runNext_of_step hp)
  | accept action =>
      obtain ⟨hroom, haccept⟩ := Option.ite_none_right_eq_some.mp h
      obtain ⟨receiver, hreceiver, rfl⟩ := Option.map_eq_some_iff.mp haccept
      exact hs.accept hroom hreceiver
  | firstRead task =>
      obtain ⟨⟨htask, -⟩, heq⟩ := Option.ite_none_right_eq_some.mp h
      cases heq
      exact hs.firstRead htask horderly.1
  | storeHeader task slicesNum =>
      obtain ⟨⟨hbranch, -⟩, heq⟩ := Option.ite_none_right_eq_some.mp h
      cases heq
      obtain rfl : slicesNum = n := horderly.1
      exact hs.storeHeader hbranch
  | leaveHeader task result =>
      obtain ⟨hbranch, hend⟩ := Option.ite_none_right_eq_some.mp h
      exact hs.leaveHeader (hbranch.imp_right And.left) hend
  | recv task =>
      obtain ⟨⟨-, hreadable⟩, hend⟩ := Option.ite_none_right_eq_some.mp h
      exact hs.recv hreadable hend
  | supervise action =>
      obtain ⟨receiver, hreceiver, rfl⟩ := Option.map_eq_some_iff.mp h
      exact hs.supervise horderly.2 hreceiver
  | writeResult text =>
      obtain ⟨⟨hreported, -⟩, heq⟩ := Option.ite_none_right_eq_some.mp h
      cases heq
      exact ⟨hs.receiver, hs.accepted_le, hs.ended_lt, hs.nodup, hs.peers, hs.opened,
        hs.consistent, hs.header_branch, hs.received,
        fun hunreported => absurd hreported hunreported⟩
  | collect wait =>
      obtain ⟨hbytes, hcollect⟩ := Option.ite_none_right_eq_some.mp h
      obtain ⟨supervisor, hsupervisor, rfl⟩ := Option.map_eq_some_iff.mp hcollect
      exact hs.collect hbytes hsupervisor

/-! ## A written marker -/

theorem tracked_of_reachable (hreach : (transferSystem n inputs).ReachableVia (Orderly n) s) :
    Tracked n inputs s :=
  hreach.invariant tracked_init fun _ _ _ hs horderly hstep => hs.step horderly hstep

/-- The connections there can be. -/
def allPeers (n : ℕ) : List Peer := .header :: (List.range n).map .slice

theorem length_allPeers (n : ℕ) : (allPeers n).length = n + 1 := by
  rw [allPeers, List.length_cons, List.length_map, List.length_range]

theorem slice_mem_allPeers {index : ℕ} (hindex : index < n) : .slice index ∈ allPeers n :=
  List.mem_cons_of_mem _ (List.mem_map_of_mem (List.mem_range.mpr hindex))

theorem Tracked.subperm (hs : Tracked n inputs s) : s.connected.Subperm (allPeers n) := by
  refine List.subperm_of_subset hs.nodup ?_
  intro peer hpeer
  rcases hs.peers peer hpeer with rfl | ⟨index, hindex, rfl⟩
  · exact List.mem_cons_self
  · exact slice_mem_allPeers hindex

/-- A written end marker means that `Recv` is done with every slice, which had its connection. -/
theorem Tracked.received_of_reported (hs : Tracked n inputs s) (hn : n ≤ 65535)
    (hreported : s.receiver.phase = .reported) {index : ℕ} (hindex : index < n) :
    Received (inputs index) (s.slices index) ∧ (s.slices index).sumSent ≠ none := by
  obtain ⟨haccepted, -, hreturned⟩ := allReturned_of_reported hn hs.receiver hreported
  have hall : (allPeers n).length ≤ s.connected.length := by
    rw [length_allPeers, ← haccepted]
    exact hs.accepted_le
  -- all connections have been made, one of them by this slice
  have hmem : .slice index ∈ s.connected :=
    (hs.subperm.perm_of_length_le hall).mem_iff.mpr (slice_mem_allPeers hindex)
  obtain ⟨task, htask, hpeer⟩ := List.mem_iff_getElem.mp hmem
  have hlt : task < n + 1 := by
    have hle := hs.subperm.length_le
    rw [length_allPeers] at hle
    exact htask.trans_le hle
  refine ⟨hs.received task index ?_ ?_, hs.opened index hmem⟩
  · rw [hreturned task hlt]
    exact Option.some_ne_none _
  · rw [List.getElem?_eq_getElem htask, hpeer]

/-- When the sender's supervisor returns zero, the marker was written. -/
theorem Tracked.reported_of_returned_zero (hs : Tracked n inputs s)
    (hzero : s.supervisor.exit = some (.returned 0)) : s.receiver.phase = .reported := by
  by_contra hunreported
  exact (hs.unreported hunreported).2 hzero

end Steps

end SliceTransfer.EndToEnd
