import SliceTransfer.Arrival

/-!
# `SendingFlow::Run`, one call at a time

`sendFileSlice` is given the results of all its calls of `write`.  When the buffer of the
socket is bounded, what a call of `write` takes depends on what the peer has read by then.  So
here the loops make one call after the other: `writeInChunk` is an iteration of the loop over a
chunk, and a `SendTask` is where the loops stand.  They are the same loops (`writeAll_eq`).

`sendTasks` are the jobs of the sender's pool.  Job 0 is `SendingFlow::Supervise` as far as the
end marker; when it has read that it waits for the rest of the report, which is not part of the
model, and keeps its worker.  Job `conn + 1` is the `Run` of slice `conn`.  A run without failures
takes every slice from `Compress` to the end of its frame (`OnWire`).
-/

namespace SliceTransfer.SendingFlow

open Bytes FileSlice TransitionSystem

/-! ## The loops -/

/-- How the loop over a chunk goes on. -/
inductive WriteProgress
  | again (wIndex : ℤ) (s : SendState)
  | next (s : SendState)
  | failed (s : SendState)
  deriving DecidableEq, Repr

/-- One iteration of the loop over a chunk of `size` bytes at `c`. -/
def writeInChunk (c : ℤ → UInt8) (size : ℕ) (wIndex : ℤ) (s : SendState) :
    WriteResult → Option WriteProgress
  | .error => some (.failed s)
  | .eagain | .eintr => some (if 0 < sizeT (size - wIndex) then .again wIndex s else .next s)
  | .accepted count =>
      if sizeT (size - wIndex) < count then none
      else if count = 0 then some (.next s)
      else if 0 < sizeT (size - int32 (wIndex + count)) then
        some (.again (int32 (wIndex + count)) (s.add (load c wIndex count)))
      else some (.next (s.add (load c wIndex count)))

/-- The chunk that is written, from `wIndex` on, and the chunks behind it. -/
structure SendTask where
  chunk : List UInt8
  wIndex : ℤ
  chunks : List (List UInt8)
  state : SendState
  deriving DecidableEq, Repr

/-- Where a `Run` stands; it ends without an outcome when `Compress` returns a null pointer. -/
inductive SendStatus
  | start (slice : FileSlice)
  | linked (slice : FileSlice)
  | sending (slice : FileSlice) (task : SendTask)
  | ended (outcome : Option SendOutcome)
  deriving DecidableEq, Repr

/-- The loop over the chunks, at its head: the totals are compared behind the last chunk. -/
def enterChunk (f : FileSlice) (s : SendState) : List (List UInt8) → SendStatus
  | [] => .ended (some ⟨if subSizeT s.sumSent kEachSliceHeaderLen ≠ f.cLen then -1 else 0,
      s.accepted⟩)
  | chunk :: chunks => .sending f ⟨chunk, 0, chunks, s⟩

/-- Where the loops go from an iteration. -/
def WriteProgress.status (f : FileSlice) (task : SendTask) : WriteProgress → SendStatus
  | .again wIndex s => .sending f { task with wIndex := wIndex, state := s }
  | .next s => enterChunk f s task.chunks
  | .failed s => .ended (some ⟨-1, s.accepted⟩)

/-- One call of `write`. -/
def writeStep (stray : ℤ → UInt8) (f : FileSlice) (task : SendTask) (result : WriteResult) :
    Option SendStatus :=
  (writeInChunk (placed task.chunk stray) task.chunk.length task.wIndex task.state result).map
    (WriteProgress.status f task)

/-- The calls of `write` one after the other. -/
def writeAll (stray : ℤ → UInt8) : SendStatus → List WriteResult → Option SendStatus
  | status, [] => some status
  | .sending f task, result :: rest =>
      (writeStep stray f task result).bind fun status => writeAll stray status rest
  | _, _ :: _ => none

section Loops

variable {stray : ℤ → UInt8} {f : FileSlice}

theorem sendChunk_cons (c : ℤ → UInt8) (size : ℕ) (wIndex : ℤ) (s : SendState)
    (result : WriteResult) (rest : List WriteResult) :
    sendChunk c size wIndex s (result :: rest) =
      match writeInChunk c size wIndex s result with
      | none => none
      | some (.again wIndex s) => sendChunk c size wIndex s rest
      | some (.next s) => some ⟨s, false, rest⟩
      | some (.failed s) => some ⟨s, true, rest⟩ := by
  cases result with
  | error => rfl
  | eagain | eintr =>
      rw [sendChunk, writeInChunk]
      split
      · rfl
      · rfl
  | accepted count =>
      rw [sendChunk, writeInChunk]
      split
      · rfl
      split
      · rfl
      split
      · rfl
      · rfl

/-- What `sendFileSlice` makes of the end of its loops. -/
def SendEnd.outcome (f : FileSlice) (e : SendEnd) : Option SendOutcome :=
  if e.rest ≠ [] then none
  else if e.failed then some ⟨-1, e.state.accepted⟩
  else if subSizeT e.state.sumSent kEachSliceHeaderLen ≠ f.cLen then some ⟨-1, e.state.accepted⟩
  else some ⟨0, e.state.accepted⟩

/-- The rest of the loops behind the loop over a chunk. -/
def SendEnd.continue (stray : ℤ → UInt8) (f : FileSlice) (chunks : List (List UInt8))
    (e : SendEnd) : Option SendOutcome :=
  if e.failed then e.outcome f
  else (sendChunks stray chunks e.state e.rest).bind (SendEnd.outcome f)

theorem writeAll_ended (outcome : Option SendOutcome) (results : List WriteResult)
    (status : SendStatus) :
    writeAll stray (.ended outcome) results = some status ↔
      results = [] ∧ status = .ended outcome := by
  cases results with
  | nil => simp [writeAll, eq_comm]
  | cons result rest => simp [writeAll]

/-- Behind the last chunk both compare the totals. -/
theorem writeAll_enterChunk_nil (s : SendState) (results : List WriteResult)
    (outcome : SendOutcome) :
    writeAll stray (enterChunk f s []) results = some (.ended (some outcome)) ↔
      SendEnd.outcome f ⟨s, false, results⟩ = some outcome := by
  rw [enterChunk, writeAll_ended, SendEnd.outcome]
  by_cases hrest : results = []
  · by_cases hdiffer : subSizeT s.sumSent kEachSliceHeaderLen ≠ f.cLen
    · simp [hrest, hdiffer, eq_comm]
    · simp [hrest, hdiffer, eq_comm]
  · simp [hrest]

theorem sendChunks_cons_bind (chunk : List UInt8) (chunks : List (List UInt8)) (s : SendState)
    (results : List WriteResult) :
    (sendChunks stray (chunk :: chunks) s results).bind (SendEnd.outcome f) =
      (sendChunk (placed chunk stray) chunk.length 0 s results).bind
        (SendEnd.continue stray f chunks) := by
  rw [sendChunks]
  cases sendChunk (placed chunk stray) chunk.length 0 s results with
  | none => rfl
  | some e =>
      dsimp only [Option.bind_some]
      rw [SendEnd.continue]
      split
      · rfl
      · rfl

/-- From inside a chunk, by induction on the calls. -/
theorem writeAll_sending (task : SendTask) (results : List WriteResult) (outcome : SendOutcome) :
    writeAll stray (.sending f task) results = some (.ended (some outcome)) ↔
      (sendChunk (placed task.chunk stray) task.chunk.length task.wIndex task.state results).bind
        (SendEnd.continue stray f task.chunks) = some outcome := by
  induction results generalizing task with
  | nil => simp [writeAll, sendChunk]
  | cons result rest ih =>
      rw [writeAll, writeStep, sendChunk_cons]
      cases writeInChunk (placed task.chunk stray) task.chunk.length task.wIndex task.state
        result with
      | none => simp
      | some progress =>
          cases progress with
          | again wIndex s => exact ih { task with wIndex := wIndex, state := s }
          | failed s =>
              simp only [Option.map_some, Option.bind_some, WriteProgress.status, SendEnd.continue,
                if_true]
              rw [writeAll_ended, SendEnd.outcome]
              by_cases hrest : rest = []
              · simp [hrest, eq_comm]
              · simp [hrest]
          | next s =>
              simp only [Option.map_some, Option.bind_some, WriteProgress.status, SendEnd.continue,
                Bool.false_eq_true, if_false]
              cases task.chunks with
              | nil => exact writeAll_enterChunk_nil s rest outcome
              | cons chunk chunks =>
                  rw [sendChunks_cons_bind]
                  exact ih ⟨chunk, 0, chunks, s⟩

/-- **The calls of `write`, made one after the other, come to what `sendFileSlice` makes of
all of them.** -/
theorem writeAll_eq (f : FileSlice) (results : List WriteResult) (outcome : SendOutcome) :
    writeAll stray (enterChunk f ⟨[], 0⟩ f.compressBuf) results = some (.ended (some outcome)) ↔
      sendFileSlice stray true f results = some outcome := by
  have hsend : sendFileSlice stray true f results =
      (sendChunks stray f.compressBuf ⟨[], 0⟩ results).bind (SendEnd.outcome f) := by
    rw [sendFileSlice, if_pos rfl]
    cases sendChunks stray f.compressBuf ⟨[], 0⟩ results with
    | none => rfl
    | some e => rfl
  rw [hsend]
  cases f.compressBuf with
  | nil => exact writeAll_enterChunk_nil ⟨[], 0⟩ results outcome
  | cons chunk chunks =>
      rw [sendChunks_cons_bind]
      exact writeAll_sending ⟨chunk, 0, chunks, ⟨[], 0⟩⟩ results outcome

end Loops

/-! ## The jobs -/

/-- What a job of the sender's pool does next; `report` is the read of `Supervise` that finds
the end marker. -/
inductive SendEvent
  | compress
  | connect (success : Bool)
  | write (result : WriteResult)
  | report
  deriving DecidableEq, Repr

/-- Where the `Run`s stand, and whether `Supervise` has read the end marker. -/
structure SenderJobs where
  status : ℕ → SendStatus
  told : Bool

structure SendCall where
  job : ℕ
  event : SendEvent
  deriving DecidableEq, Repr

/-- What is left of the chunk. -/
def SendTask.left (task : SendTask) : ℕ := task.chunk.length - task.wIndex.toNat

def SendStatus.left : SendStatus → ℕ
  | .sending _ task => task.left
  | _ => 0

/-- `connect` succeeds, no `write` fails, and one that takes nothing was offered nothing. -/
def SendStatus.Clean (status : SendStatus) : SendEvent → Prop
  | .connect success => success = true
  | .write .error => False
  | .write (.accepted count) => count = 0 → status.left = 0
  | _ => True

instance (status : SendStatus) : (event : SendEvent) → Decidable (status.Clean event)
  | .connect _ => inferInstanceAs (Decidable (_ = _))
  | .write .error => inferInstanceAs (Decidable False)
  | .write (.accepted _) => inferInstanceAs (Decidable (_ → _))
  | .write .eagain | .write .eintr | .compress | .report => inferInstanceAs (Decidable True)

def SenderJobs.Clean (s : SenderJobs) (a : SendCall) : Prop :=
  (s.status (a.job - 1)).Clean a.event

instance (s : SenderJobs) (a : SendCall) : Decidable (s.Clean a) :=
  inferInstanceAs (Decidable ((s.status (a.job - 1)).Clean a.event))

section System

variable {C : Type} (z : ZstdCompress C) (fuel : ℕ) (stray : ℤ → UInt8)

/-- The next call of a `Run`. -/
def runStep : SendStatus → SendEvent → Option SendStatus
  | .start slice, .compress =>
      match compress z fuel slice with
      | .ok f => some (.linked f)
      | .error .nullReturned => some (.ended none)
      | .error .unfinished => none
  | .linked f, .connect success =>
      some (if success then enterChunk f ⟨[], 0⟩ f.compressBuf else .ended (some ⟨-1, []⟩))
  | .sending f task, .write result => writeStep stray f task result
  | _, _ => none

/-- There is a job for every slice. -/
def initialStatus : Option FileSlice → SendStatus
  | some slice => .start slice
  | none => .ended none

def sendStep (s : SenderJobs) (a : SendCall) : Option SenderJobs :=
  match a.job with
  | 0 =>
      if a.event = .report ∧ s.told = false then some { s with told := true } else none
  | conn + 1 =>
      (runStep z fuel stray (s.status conn) a.event).map fun status =>
        { s with status := Function.update s.status conn status }

/-- The jobs of the sender's pool, when nothing fails. -/
def sendTasks (slices : List FileSlice) : TransitionSystem SenderJobs SendCall :=
  TransitionSystem.restrict
    { init := ⟨fun conn => initialStatus slices[conn]?, false⟩
      step := sendStep z fuel stray } SenderJobs.Clean

end System

def SendStatus.hasEnded : SendStatus → Bool
  | .ended _ => true
  | _ => false

/-- Job `job` has ended. -/
def SenderJobs.hasEnded (s : SenderJobs) : ℕ → Bool
  | 0 => false
  | conn + 1 => (s.status conn).hasEnded

/-- What the connection has taken. -/
def SendStatus.accepted : SendStatus → List UInt8
  | .sending _ task => task.state.accepted
  | .ended (some outcome) => outcome.accepted
  | _ => []

/-! ## A run without failures -/

/-- A slice behind `Compress`, as `SendFileSlice` can send it. -/
structure Sendable (f : FileSlice) : Prop where
  wire_length : f.wire.length = kEachSliceHeaderLen + f.cLen
  wire_lt : f.wire.length < 2 ^ 64
  small : ∀ chunk ∈ f.compressBuf, chunk.length < 2 ^ 31

/-- The loops are in the middle of the frame: what was accepted, and what is left of it. -/
structure InFrame (f : FileSlice) (task : SendTask) (wIndex : ℕ) : Prop where
  wIndex_eq : task.wIndex = wIndex
  wIndex_le : wIndex ≤ task.chunk.length
  sumSent_eq : task.state.sumSent = task.state.accepted.length
  accepted_append : task.state.accepted ++ (task.chunk.drop wIndex ++ task.chunks.flatten) = f.wire
  suffix : (task.chunk :: task.chunks) <:+ f.compressBuf

section Run

variable {C : Type} {z : ZstdCompress C} {fuel : ℕ} {stray : ℤ → UInt8} {f : FileSlice}

/-- Where the `Run` of a slice stands whose frame is `f`. -/
def OnWire (z : ZstdCompress C) (fuel : ℕ) (f : FileSlice) : SendStatus → Prop
  | .start slice => compress z fuel slice = .ok f
  | .linked slice => slice = f
  | .sending slice task => slice = f ∧ ∃ wIndex, InFrame f task wIndex
  | .ended outcome => outcome = some ⟨0, f.wire⟩

theorem onWire_enterChunk (hf : Sendable f) {s : SendState} {chunks : List (List UInt8)}
    (hsum : s.sumSent = s.accepted.length) (hwire : s.accepted ++ chunks.flatten = f.wire)
    (hsuffix : chunks <:+ f.compressBuf) : OnWire z fuel f (enterChunk f s chunks) := by
  cases chunks with
  | nil =>
      have hall : s.accepted = f.wire := by
        rw [← hwire, List.flatten_nil, List.append_nil]
      have hequal : subSizeT s.sumSent kEachSliceHeaderLen = f.cLen := by
        rw [hsum, hall, hf.wire_length, subSizeT_of_le (Nat.le_add_right _ _)
          (hf.wire_length ▸ hf.wire_lt)]
        exact Nat.add_sub_cancel_left ..
      show some _ = some _
      rw [if_neg (not_not.mpr hequal), hall]
  | cons chunk chunks =>
      exact ⟨rfl, 0, rfl, Nat.zero_le _, hsum, hwire, hsuffix⟩

/-- What a `write` that is no failure does, one constructor for each thing that can happen. -/
inductive Writes (task : SendTask) (wIndex : ℕ) : WriteResult → WriteProgress → Prop
  | part {count : ℕ} (hpos : 0 < count) (hlt : wIndex + count < task.chunk.length) :
      Writes task wIndex (.accepted count)
        (.again ↑(wIndex + count) (task.state.add (window task.chunk wIndex count)))
  | rest {count : ℕ} (hpos : 0 < count) (hall : wIndex + count = task.chunk.length) :
      Writes task wIndex (.accepted count)
        (.next (task.state.add (window task.chunk wIndex count)))
  | nothing : Writes task wIndex (.accepted 0) (.next task.state)
  | again {result : WriteResult} (hresult : result = .eagain ∨ result = .eintr) :
      Writes task wIndex result (.again wIndex task.state)
  | leave {result : WriteResult} (hresult : result = .eagain ∨ result = .eintr)
      (hall : wIndex = task.chunk.length) : Writes task wIndex result (.next task.state)

theorem writes_of_writeInChunk {task : SendTask} {wIndex : ℕ} {result : WriteResult}
    {progress : WriteProgress} (hf : Sendable f) (h : InFrame f task wIndex)
    (herror : result ≠ .error)
    (hprogress : writeInChunk (placed task.chunk stray) task.chunk.length task.wIndex task.state
      result = some progress) : Writes task wIndex result progress := by
  have hsmall : task.chunk.length < 2 ^ 31 :=
    hf.small _ (h.suffix.subset List.mem_cons_self)
  have hle := h.wIndex_le
  have hagain : result = .eagain ∨ result = .eintr →
      (if 0 < sizeT (task.chunk.length - task.wIndex) then .again task.wIndex task.state
        else .next task.state) = progress → Writes task wIndex result progress := by
    intro hresult hwhich
    rw [h.wIndex_eq, sizeT_left hsmall hle] at hwhich
    rw [← hwhich]
    split
    · exact .again hresult
    · exact .leave hresult (by omega)
  cases result with
  | error => exact absurd rfl herror
  | eagain => exact hagain (Or.inl rfl) (Option.some_inj.mp hprogress)
  | eintr => exact hagain (Or.inr rfl) (Option.some_inj.mp hprogress)
  | accepted count =>
      rw [writeInChunk, h.wIndex_eq, sizeT_left hsmall hle] at hprogress
      split at hprogress
      · cases hprogress
      have hin : wIndex + count ≤ task.chunk.length := by omega
      have hindex : int32 (wIndex + count) = ↑(wIndex + count) := by
        unfold int32
        omega
      rw [hindex, sizeT_left hsmall hin, load_placed task.chunk stray hin] at hprogress
      split at hprogress
      · rename_i hzero
        subst hzero
        cases hprogress
        exact .nothing
      split at hprogress
      · cases hprogress
        exact .part (by omega) (by omega)
      · cases hprogress
        exact .rest (by omega) (by omega)

/-- The accepted bytes of a `write` go behind those that were accepted before. -/
theorem InFrame.add {task : SendTask} {wIndex : ℕ} (hf : Sendable f)
    (h : InFrame f task wIndex) (count : ℕ) :
    (task.state.add (window task.chunk wIndex count)).sumSent =
        (task.state.add (window task.chunk wIndex count)).accepted.length ∧
      (task.state.add (window task.chunk wIndex count)).accepted ++
        (task.chunk.drop (wIndex + count) ++ task.chunks.flatten) = f.wire := by
  have hrest : window task.chunk wIndex count ++ task.chunk.drop (wIndex + count) =
      task.chunk.drop wIndex := by
    rw [window, ← List.drop_drop, List.take_append_drop]
  have hwire : task.state.accepted ++ window task.chunk wIndex count ++
      (task.chunk.drop (wIndex + count) ++ task.chunks.flatten) = f.wire := by
    rw [← h.accepted_append, ← hrest]
    simp only [List.append_assoc]
  refine ⟨?_, hwire⟩
  have hlt := hf.wire_lt
  have hlength := congrArg List.length hwire
  rw [List.length_append, List.length_append] at hlength
  simp only [SendState.add, h.sumSent_eq, List.length_append]
  exact Nat.mod_eq_of_lt (by omega)

theorem OnWire.write {task : SendTask} {wIndex : ℕ} {result : WriteResult}
    {status : SendStatus} (hf : Sendable f) (h : InFrame f task wIndex)
    (hclean : (SendStatus.sending f task).Clean (.write result))
    (hstep : writeStep stray f task result = some status) : OnWire z fuel f status := by
  have hdone : wIndex = task.chunk.length →
      OnWire z fuel f (enterChunk f task.state task.chunks) := by
    intro hall
    have hwire := h.accepted_append
    rw [hall, List.drop_length, List.nil_append] at hwire
    exact onWire_enterChunk hf h.sumSent_eq hwire ((List.suffix_cons _ _).trans h.suffix)
  have herror : result ≠ .error := by
    rintro rfl
    exact hclean
  obtain ⟨progress, hprogress, rfl⟩ := Option.map_eq_some_iff.mp hstep
  cases writes_of_writeInChunk hf h herror hprogress with
  | @part count _ hlt =>
      obtain ⟨hsum, hwire⟩ := h.add hf count
      exact ⟨rfl, wIndex + count, rfl, hlt.le, hsum, hwire, h.suffix⟩
  | @rest count _ hall =>
      obtain ⟨hsum, hwire⟩ := h.add hf count
      rw [hall, List.drop_length, List.nil_append] at hwire
      exact onWire_enterChunk hf hsum hwire ((List.suffix_cons _ _).trans h.suffix)
  | nothing =>
      -- it was offered nothing
      have hleft : task.chunk.length - task.wIndex.toNat = 0 := hclean rfl
      rw [h.wIndex_eq, Int.toNat_natCast] at hleft
      have hle := h.wIndex_le
      exact hdone (by omega)
  | again _ => exact ⟨rfl, wIndex, rfl, h.wIndex_le, h.sumSent_eq, h.accepted_append, h.suffix⟩
  | leave _ hall => exact hdone hall

/-- **A step without failure keeps the slice on its way.** -/
theorem OnWire.step {status status' : SendStatus} {event : SendEvent} (hf : Sendable f)
    (h : OnWire z fuel f status) (hclean : status.Clean event)
    (hstep : runStep z fuel stray status event = some status') : OnWire z fuel f status' := by
  cases status with
  | start slice =>
      cases event with
      | compress =>
          have hcompress : compress z fuel slice = .ok f := h
          rw [runStep, hcompress] at hstep
          cases hstep
          rfl
      | connect _ | write _ | report => cases hstep
  | linked slice =>
      obtain rfl : slice = f := h
      cases event with
      | connect success =>
          cases success with
          | true =>
              cases hstep
              exact onWire_enterChunk hf rfl rfl List.suffix_rfl
          | false => cases hclean
      | compress | write _ | report => cases hstep
  | sending slice task =>
      obtain ⟨rfl, wIndex, hframe⟩ := h
      cases event with
      | write result => exact OnWire.write hf hframe hclean hstep
      | compress | connect _ | report => cases hstep
  | ended outcome => cases event <;> cases hstep

/-! ## What is left to do -/

def SendEvent.productive : SendEvent → Bool
  | .write (.accepted _) => true
  | .write _ => false
  | _ => true

/-- The bytes of the chunks, and the chunks. -/
def chunkCost (chunks : List (List UInt8)) : ℕ := chunks.flatten.length + chunks.length

/-- The bytes to be written and the calls to be made, at most. -/
def SendStatus.cost (z : ZstdCompress C) (fuel : ℕ) : SendStatus → ℕ
  | .start slice =>
      match compress z fuel slice with
      | .ok f => chunkCost f.compressBuf + 2
      | .error _ => 1
  | .linked f => chunkCost f.compressBuf + 1
  | .sending _ task => task.left + 1 + chunkCost task.chunks
  | .ended _ => 0

theorem cost_enterChunk_le (z : ZstdCompress C) (fuel : ℕ) (f : FileSlice) (s : SendState)
    (chunks : List (List UInt8)) : (enterChunk f s chunks).cost z fuel ≤ chunkCost chunks := by
  cases chunks with
  | nil => exact Nat.zero_le _
  | cons chunk chunks =>
      simp only [enterChunk, SendStatus.cost, SendTask.left, chunkCost, List.flatten_cons,
        List.length_append, List.length_cons, Int.toNat_zero]
      omega

/-- **A productive step leaves less to do.** -/
theorem cost_step {status status' : SendStatus} {event : SendEvent} (hf : Sendable f)
    (h : OnWire z fuel f status) (hclean : status.Clean event)
    (hstep : runStep z fuel stray status event = some status') :
    status'.cost z fuel + event.productive.toNat ≤ status.cost z fuel := by
  cases status with
  | start slice =>
      cases event with
      | compress =>
          have hcompress : compress z fuel slice = .ok f := h
          rw [runStep, hcompress] at hstep
          cases hstep
          rw [SendStatus.cost, SendStatus.cost, hcompress]
          exact le_refl _
      | connect _ | write _ | report => cases hstep
  | linked slice =>
      cases event with
      | connect success =>
          cases success with
          | true =>
              cases hstep
              exact Nat.add_le_add_right (cost_enterChunk_le _ _ _ _ _) 1
          | false => cases hclean
      | compress | write _ | report => cases hstep
  | sending slice task =>
      obtain ⟨rfl, wIndex, hframe⟩ := h
      cases event with
      | write result =>
          have herror : result ≠ .error := by
            rintro rfl
            exact hclean
          have hnext : ∀ s : SendState, (enterChunk slice s task.chunks).cost z fuel +
              (SendEvent.productive (.write result)).toNat ≤
                task.left + 1 + chunkCost task.chunks := by
            intro s
            have hless := cost_enterChunk_le z fuel slice s task.chunks
            have hflag := (SendEvent.productive (.write result)).toNat_le
            omega
          have hleft : task.left = task.chunk.length - wIndex := by
            rw [SendTask.left, hframe.wIndex_eq, Int.toNat_natCast]
          obtain ⟨progress, hprogress, rfl⟩ := Option.map_eq_some_iff.mp hstep
          cases writes_of_writeInChunk hf hframe herror hprogress with
          | @part count hpos hlt =>
              simp only [WriteProgress.status, SendStatus.cost, hleft]
              simp only [SendTask.left, Int.toNat_natCast, SendEvent.productive, Bool.toNat_true]
              omega
          | rest _ _ => exact hnext _
          | nothing => exact hnext _
          | again hresult =>
              have hidle : (SendEvent.productive (.write result)).toNat = 0 := by
                rcases hresult with rfl | rfl
                · rfl
                · rfl
              rw [hidle, ← hframe.wIndex_eq]
              exact le_refl _
          | leave _ _ => exact hnext _
      | compress | connect _ | report => cases hstep
  | ended outcome => cases event <;> cases hstep

/-- What a `Run` that has not ended can do next. -/
theorem exists_next (stray : ℤ → UInt8) {status : SendStatus} (hf : Sendable f)
    (h : OnWire z fuel f status) (hopen : status.hasEnded = false) :
    (∃ event, event.productive = true ∧ (∀ result, event ≠ .write result) ∧ event ≠ .report ∧
        status.Clean event ∧ runStep z fuel stray status event ≠ none) ∨
      ∃ slice task, status = .sending slice task ∧ ∀ count ≤ task.left,
        (count = 0 → task.left = 0) →
          runStep z fuel stray status (.write (.accepted count)) ≠ none := by
  cases status with
  | start slice =>
      have hcompress : compress z fuel slice = .ok f := h
      refine Or.inl ⟨.compress, rfl, fun _ => SendEvent.noConfusion, SendEvent.noConfusion,
        trivial, ?_⟩
      rw [runStep, hcompress]
      exact Option.some_ne_none _
  | linked slice =>
      exact Or.inl ⟨.connect true, rfl, fun _ => SendEvent.noConfusion, SendEvent.noConfusion,
        rfl, Option.some_ne_none _⟩
  | sending slice task =>
      obtain ⟨rfl, wIndex, hframe⟩ := h
      refine Or.inr ⟨slice, task, rfl, fun count hcount hzero hnone => ?_⟩
      have hsmall : task.chunk.length < 2 ^ 31 :=
        hf.small _ (hframe.suffix.subset List.mem_cons_self)
      rw [SendTask.left, hframe.wIndex_eq, Int.toNat_natCast] at hcount
      rw [runStep, writeStep, writeInChunk, hframe.wIndex_eq, sizeT_left hsmall hframe.wIndex_le,
        if_neg (Nat.not_lt.mpr hcount), Option.map_eq_none_iff] at hnone
      split at hnone
      · cases hnone
      split at hnone
      · cases hnone
      · cases hnone
  | ended outcome => cases hopen

/-- `connect` was called. -/
def SendStatus.hasConnected : SendStatus → Bool
  | .sending _ _ => true
  | .ended outcome => outcome.isSome
  | _ => false

theorem hasConnected_enterChunk (f : FileSlice) (s : SendState) (chunks : List (List UInt8)) :
    (enterChunk f s chunks).hasConnected = true := by
  cases chunks with
  | nil => rfl
  | cons chunk chunks => rfl

theorem hasConnected_of_writeStep {slice : FileSlice} {task : SendTask} {result : WriteResult}
    {status : SendStatus} (h : writeStep stray slice task result = some status) :
    status.hasConnected = true := by
  obtain ⟨progress, -, rfl⟩ := Option.map_eq_some_iff.mp h
  cases progress with
  | again wIndex s => rfl
  | next s => exact hasConnected_enterChunk slice s task.chunks
  | failed s => rfl

/-- Only `connect` connects. -/
theorem hasConnected_of_runStep {status status' : SendStatus} {event : SendEvent}
    (hevent : ∀ success, event ≠ .connect success)
    (hstep : runStep z fuel stray status event = some status') :
    status'.hasConnected = status.hasConnected := by
  cases status with
  | start slice =>
      cases event with
      | compress =>
          rw [runStep] at hstep
          split at hstep
          · cases hstep
            rfl
          · cases hstep
            rfl
          · cases hstep
      | connect _ | write _ | report => cases hstep
  | linked slice =>
      cases event with
      | connect success => exact absurd rfl (hevent success)
      | compress | write _ | report => cases hstep
  | sending slice task =>
      cases event with
      | write result => exact hasConnected_of_writeStep hstep
      | compress | connect _ | report => cases hstep
  | ended outcome => cases event <;> cases hstep

/-- Only a `Run` behind `Compress` connects. -/
theorem linked_of_connect {status status' : SendStatus} {success : Bool}
    (hstep : runStep z fuel stray status (.connect success) = some status') :
    status.hasConnected = false ∧ status'.hasConnected = true := by
  cases status with
  | linked slice =>
      cases hstep
      cases success with
      | true => exact ⟨rfl, hasConnected_enterChunk ..⟩
      | false => exact ⟨rfl, rfl⟩
  | start _ | sending _ _ | ended _ => cases hstep

/-- What was accepted is the beginning of the frame, and at the end all of it. -/
theorem OnWire.accepted_begins {status : SendStatus} (h : OnWire z fuel f status) :
    status.accepted <+: f.wire := by
  cases status with
  | start slice => exact List.nil_prefix
  | linked slice => exact List.nil_prefix
  | sending slice task =>
      obtain ⟨-, wIndex, hframe⟩ := h
      rw [← hframe.accepted_append]
      exact List.prefix_append _ _
  | ended outcome =>
      obtain rfl : outcome = some ⟨0, f.wire⟩ := h
      exact List.prefix_rfl

theorem accepted_enterChunk (f : FileSlice) (s : SendState) (chunks : List (List UInt8)) :
    (enterChunk f s chunks).accepted = s.accepted := by
  cases chunks with
  | nil => rfl
  | cons chunk chunks => rfl

theorem accepted_progress_le {c : ℤ → UInt8} {size : ℕ} {task : SendTask} {result : WriteResult}
    {progress : WriteProgress}
    (h : writeInChunk c size task.wIndex task.state result = some progress) (f : FileSlice) :
    task.state.accepted.length ≤ (progress.status f task).accepted.length := by
  have hadd : ∀ bytes, task.state.accepted.length ≤ (task.state.add bytes).accepted.length := by
    intro bytes
    rw [SendState.add, List.length_append]
    exact Nat.le_add_right _ _
  have hnext : ∀ s : SendState, task.state.accepted.length ≤ s.accepted.length →
      task.state.accepted.length ≤ ((WriteProgress.next s).status f task).accepted.length := by
    intro s hle
    rw [WriteProgress.status, accepted_enterChunk]
    exact hle
  cases result with
  | error =>
      cases h
      exact le_refl _
  | eagain | eintr =>
      rw [writeInChunk] at h
      split at h
      · cases h
        exact le_refl _
      · cases h
        exact hnext _ (le_refl _)
  | accepted count =>
      rw [writeInChunk] at h
      split at h
      · cases h
      split at h
      · cases h
        exact hnext _ (le_refl _)
      split at h
      · cases h
        exact hadd _
      · cases h
        exact hnext _ (hadd _)

/-- Nothing that was accepted is taken back. -/
theorem accepted_le_of_runStep {status status' : SendStatus} {event : SendEvent}
    (hstep : runStep z fuel stray status event = some status') :
    status.accepted.length ≤ status'.accepted.length := by
  cases status with
  | start slice => exact Nat.zero_le _
  | linked slice => exact Nat.zero_le _
  | sending slice task =>
      cases event with
      | write result =>
          obtain ⟨progress, hprogress, rfl⟩ := Option.map_eq_some_iff.mp hstep
          exact accepted_progress_le hprogress slice
      | compress | connect _ | report => cases hstep
  | ended outcome => cases event <;> cases hstep

/-- Calls of `write` that take all they are offered send the frame, by induction on what is
left to do. -/
theorem exists_writeAll {status : SendStatus} (hf : Sendable f) (h : OnWire z fuel f status)
    (hconnected : status.hasConnected = true) :
    ∃ results, writeAll stray status results = some (.ended (some ⟨0, f.wire⟩)) := by
  obtain ⟨cost, hcost⟩ : ∃ cost, cost = status.cost z fuel := ⟨_, rfl⟩
  induction cost using Nat.strongRecOn generalizing status with
  | ind cost ih =>
      cases status with
      | start slice => cases hconnected
      | linked slice => cases hconnected
      | ended outcome =>
          obtain rfl : outcome = some ⟨0, f.wire⟩ := h
          exact ⟨[], rfl⟩
      | sending slice task =>
          rcases exists_next stray hf h rfl with
            ⟨event, -, hwrite, -, -, hsome⟩ | ⟨_, _, heq, hsome⟩
          · cases event with
            | write result => exact absurd rfl (hwrite result)
            | compress | connect _ | report => exact absurd rfl hsome
          · cases heq
            obtain ⟨next, hnext⟩ := Option.ne_none_iff_exists'.mp (hsome task.left (le_refl _) id)
            have hclean : (SendStatus.sending slice task).Clean (.write (.accepted task.left)) := id
            have hless := cost_step hf h hclean hnext
            rw [SendEvent.productive, Bool.toNat_true] at hless
            obtain ⟨results, hresults⟩ := ih (next.cost z fuel) (by omega) (h.step hf hclean hnext)
              (hasConnected_of_writeStep hnext) rfl
            refine ⟨.accepted task.left :: results, ?_⟩
            have hwrite : writeStep stray slice task (.accepted task.left) = some next := hnext
            rw [writeAll, hwrite]
            exact hresults

end Run

/-! ## All slices -/

/-- The frames that `Compress` makes of the slices can be sent. -/
structure Framed {C : Type} (z : ZstdCompress C) (fuel : ℕ) (slices framed : List FileSlice) :
    Prop where
  compressed : List.Forall₂ (fun f f' => compress z fuel f = .ok f') slices framed
  sendable : ∀ f ∈ framed, Sendable f

/-- They are sent by some calls of `write`. -/
theorem Framed.sent {C : Type} {z : ZstdCompress C} {fuel : ℕ} {slices framed : List FileSlice}
    (stray : ℤ → UInt8) (h : Framed z fuel slices framed) :
    List.Forall₂ (Sent stray) framed (framed.map wire) := by
  rw [List.forall₂_map_right_iff, List.forall₂_same]
  intro f hmem
  have hf := h.sendable f hmem
  have honWire : OnWire z fuel f (enterChunk f ⟨[], 0⟩ f.compressBuf) :=
    onWire_enterChunk hf rfl rfl List.suffix_rfl
  obtain ⟨results, hresults⟩ := exists_writeAll hf honWire (hasConnected_enterChunk ..)
  exact ⟨results, (writeAll_eq f results _).mp hresults⟩

section Tasks

variable {C : Type} {z : ZstdCompress C} {fuel : ℕ} {stray : ℤ → UInt8}
  {slices framed : List FileSlice} {s s' : SenderJobs}

theorem sendTasks_step_of_clean {a : SendCall} (hclean : s.Clean a) :
    (sendTasks z fuel stray slices).step s a = sendStep z fuel stray s a := if_pos hclean

/-- A step of the sender is the report, or a step of one `Run`. -/
theorem sendStep_cases {a : SendCall}
    (h : (sendTasks z fuel stray slices).step s a = some s') :
    a = ⟨0, .report⟩ ∧ s.told = false ∧ s' = { s with told := true } ∨
      ∃ conn status, a.job = conn + 1 ∧ (s.status conn).Clean a.event ∧
        runStep z fuel stray (s.status conn) a.event = some status ∧
        s' = { s with status := Function.update s.status conn status } := by
  obtain ⟨hclean, hstep⟩ := Option.ite_none_right_eq_some.mp h
  obtain ⟨job, event⟩ := a
  cases job with
  | zero =>
      left
      obtain ⟨⟨hevent, hopen⟩, heq⟩ := Option.ite_none_right_eq_some.mp hstep
      cases heq
      dsimp only at hevent
      exact ⟨by rw [hevent], hopen, rfl⟩
  | succ conn =>
      right
      obtain ⟨status, hrun, rfl⟩ := Option.map_eq_some_iff.mp hstep
      exact ⟨conn, status, rfl, hclean, hrun, rfl⟩

/-- The `Run`s of the slices are on their way, and there are no others. -/
structure AllOnWire (z : ZstdCompress C) (fuel : ℕ) (framed : List FileSlice) (s : SenderJobs) :
    Prop where
  onWire : ∀ conn f, framed[conn]? = some f → OnWire z fuel f (s.status conn)
  ended : ∀ conn, framed.length ≤ conn → s.status conn = .ended none

/-- Only the `Run` of a slice makes a step. -/
theorem lt_of_runStep (h : AllOnWire z fuel framed s) {conn : ℕ} {event : SendEvent}
    {status : SendStatus} (hrun : runStep z fuel stray (s.status conn) event = some status) :
    conn < framed.length := by
  by_contra hconn
  rw [h.ended conn (Nat.not_lt.mp hconn)] at hrun
  cases event <;> cases hrun

theorem allOnWire_of_reachable (h : Framed z fuel slices framed)
    (hs : (sendTasks z fuel stray slices).Reachable s) : AllOnWire z fuel framed s := by
  refine hs.invariant (I := AllOnWire z fuel framed) ⟨?_, ?_⟩ ?_
  · intro conn f hframe
    obtain ⟨hconn, rfl⟩ := List.getElem?_eq_some_iff.mp hframe
    have hslice : conn < slices.length := h.compressed.length_eq ▸ hconn
    show OnWire z fuel _ (initialStatus slices[conn]?)
    rw [List.getElem?_eq_getElem hslice]
    exact h.compressed.get hslice hconn
  · intro conn hconn
    show initialStatus slices[conn]? = .ended none
    rw [List.getElem?_eq_none (h.compressed.length_eq ▸ hconn)]
    rfl
  · intro s a s' hwires hstep
    rcases sendStep_cases hstep with ⟨-, -, rfl⟩ | ⟨conn, status, -, hclean, hrun, rfl⟩
    · exact ⟨hwires.onWire, hwires.ended⟩
    · have hlt := lt_of_runStep hwires hrun
      refine ⟨fun other f hframe => ?_, fun other hother => ?_⟩
      · have hother := hwires.onWire other f hframe
        by_cases hsame : other = conn
        · subst hsame
          simp only [Function.update_self]
          exact hother.step (h.sendable f (List.mem_of_getElem? hframe)) hclean hrun
        · simpa only [Function.update_of_ne hsame] using hother
      · have hne : other ≠ conn := by omega
        simpa only [Function.update_of_ne hne] using hwires.ended other hother

/-! ### As jobs -/

theorem hasEnded_of_step {a : SendCall} (hstep : (sendTasks z fuel stray slices).step s a = some s')
    {job : ℕ} (hended : s.hasEnded job = true) : s'.hasEnded job = true := by
  rcases sendStep_cases hstep with ⟨-, -, rfl⟩ | ⟨conn, status, -, -, hrun, rfl⟩
  · cases job with
    | zero => cases hended
    | succ other => exact hended
  · cases job with
    | zero => cases hended
    | succ other =>
        by_cases hsame : other = conn
        · subst hsame
          have hthis : (s.status other).hasEnded = true := hended
          cases hstatus : s.status other with
          | ended outcome =>
              rw [hstatus] at hrun
              cases hevent : a.event <;> rw [hevent] at hrun <;> cases hrun
          | start _ | linked _ | sending _ _ =>
              rw [hstatus] at hthis
              cases hthis
        · simpa only [SenderJobs.hasEnded, Function.update_of_ne hsame] using hended

theorem endedForGood_sendTasks :
    EndedForGood (sendTasks z fuel stray slices) SenderJobs.hasEnded :=
  fun _ _ _ _ hstep hended => hasEnded_of_step hstep hended

/-- What all jobs together have still to do. -/
def sendMeasure (z : ZstdCompress C) (fuel count : ℕ) (s : SenderJobs) : ℕ :=
  ∑ conn ∈ Finset.range count, (s.status conn).cost z fuel + (!s.told).toNat

theorem sendMeasure_step (h : Framed z fuel slices framed)
    (hs : (sendTasks z fuel stray slices).Reachable s) {a : SendCall}
    (hstep : (sendTasks z fuel stray slices).step s a = some s') :
    sendMeasure z fuel framed.length s' + a.event.productive.toNat ≤
      sendMeasure z fuel framed.length s := by
  have hwires := allOnWire_of_reachable h hs
  unfold sendMeasure
  rcases sendStep_cases hstep with ⟨rfl, hopen, rfl⟩ | ⟨conn, status, -, hclean, hrun, rfl⟩
  · rw [hopen]
    exact le_refl _
  · have hlt := lt_of_runStep hwires hrun
    have hframe := List.getElem?_eq_getElem hlt
    have hless := cost_step (h.sendable _ (List.getElem_mem hlt)) (hwires.onWire conn _ hframe)
      hclean hrun
    have hsum : ∑ other ∈ Finset.range framed.length,
        SendStatus.cost z fuel (Function.update s.status conn status other) +
          a.event.productive.toNat ≤
        ∑ other ∈ Finset.range framed.length, (s.status other).cost z fuel := by
      refine sum_add_le (Finset.mem_range.mpr hlt) ?_ fun other _ hne => ?_
      · rw [Function.update_self]
        exact hless
      · rw [Function.update_of_ne hne]
    dsimp only
    omega

end Tasks

end SliceTransfer.SendingFlow
