import SliceTransfer.Transfer
import SliceTransfer.Receiver.Frame

/-!
# What `Recv` owns, and what it releases

A `Ledger` holds what a `Recv` task has to release: its two descriptors and the buffers
of first reads.  It also counts the `c_buf_` that were handed to `mmap_`; those belong to
`Server::Supervise`, and the task may not release them.  Posting an effect fails when the
task releases what it does not own.

Between two wake-ups the task owns exactly its descriptors (`recvStep_ledger`).  Two exits
break the rule: after a failing `epoll_wait` the descriptors are not closed, and after an
error in a later read `read_buf`, which then points into `c_buf_`, is freed.  In all other
runs everything is released exactly once (`recv_released_iff`).
-/

namespace SliceTransfer.Server

open Bytes

/-! ## The ledger -/

/-- What a task owns, and how many `c_buf_` it has handed over. -/
structure Ledger where
  conn : Bool
  epoll : Bool
  readBufs : ℕ
  cBufs : ℕ
  deriving DecidableEq, Repr

/-- Between two wake-ups. -/
def Ledger.holding (cBufs : ℕ) : Ledger := ⟨true, true, 0, cBufs⟩

/-- Everything has been released. -/
def Ledger.settled (cBufs : ℕ) : Ledger := ⟨false, false, 0, cBufs⟩

/-- Enter an effect; `none` when something is released that the task does not own. -/
def Ledger.post (l : Ledger) : Effect → Option Ledger
  | .allocReadBuf _ => some { l with readBufs := l.readBufs + 1 }
  | .freeReadBuf => if l.readBufs = 0 then none else some { l with readBufs := l.readBufs - 1 }
  | .freeCBufAt _ => none
  | .allocCBuf _ => some { l with cBufs := l.cBufs + 1 }
  | .storeCBuf _ _ => some l
  | .offerOut _ _ => some l
  | .closeConn => if l.conn then some { l with conn := false } else none
  | .closeEpoll => if l.epoll then some { l with epoll := false } else none

/-- Enter the effects in order. -/
def Ledger.postAll (l : Ledger) : List Effect → Option Ledger
  | [] => some l
  | effect :: rest => (l.post effect).bind fun next => next.postAll rest

/-- Everything is released exactly once: no release of what is not owned, and nothing is
left in the end. -/
def Released (effects : List Effect) : Prop :=
  ∃ cBufs, (Ledger.holding 0).postAll effects = some (.settled cBufs)

theorem Ledger.postAll_append (l : Ledger) (effects more : List Effect) :
    l.postAll (effects ++ more) = (l.postAll effects).bind fun next => next.postAll more := by
  induction effects generalizing l with
  | nil => rfl
  | cons effect rest ih =>
      rw [List.cons_append, postAll, postAll, Option.bind_assoc]
      exact congrArg _ (funext ih)

theorem Ledger.postAll_append_of_eq {l l' : Ledger} {effects : List Effect}
    (h : l.postAll effects = some l') (more : List Effect) :
    l.postAll (effects ++ more) = l'.postAll more := by
  rw [postAll_append, h]
  rfl

/-! ## A run of `Recv` -/

section Run

variable {D : Type} (z : ZstdDecompress D) (fuel : ℕ)

/-- The loop of `Recv`, one wake-up after the other; the wake-ups have to be exactly
those it waits for.  The globals are shared with the other tasks, so each wake-up comes
with those it finds.  The result is how the task ends, and its effects. -/
def recvLoop : RecvTask → List (Globals × RecvEvent) → Option (Exit × List Effect)
  | _, [] => none
  | task, (g, event) :: rest =>
      match recvStep z fuel g task event with
      | none => none
      | some r =>
          match r.status with
          | .waiting task =>
              (recvLoop task rest).map fun (exit, effects) => (exit, r.effects ++ effects)
          | .exited exit => if rest = [] then some (exit, r.effects) else none
          | .complete _ => none

/-- `Recv`, from the outcome of `epoll_ctl` on. -/
def recv (added : Bool) (wakeUps : List (Globals × RecvEvent)) : Option (Exit × List Effect) :=
  if added then recvLoop z fuel {} wakeUps
  else if wakeUps = [] then some (.returned (-1), [.closeConn, .closeEpoll]) else none

end Run

/-- The results of the read loops, wake-up by wake-up. -/
def readsOf (events : List RecvEvent) : List (List ReadResult) :=
  events.filterMap fun
    | .readable _ reads => some reads
    | _ => none

/-- No `epoll_wait` fails, and no `read` behind the first wake-up that reads. -/
def Undisturbed (isFirstRecv : Bool) (events : List RecvEvent) : Prop :=
  .epollFailed ∉ events ∧
    ∀ reads ∈ (readsOf events).drop (if isFirstRecv then 1 else 0), .error ∉ reads

/-! ## One wake-up -/

/-- A single wake-up is undisturbed. -/
def CleanWakeUp (task : RecvTask) : RecvEvent → Prop
  | .epollFailed => False
  | .notReadable => True
  | .readable _ reads => task.isFirstRecv = false → .error ∉ reads

/-- What a step leaves a task with that owned `l` before: the descriptors while it goes
on, and when it returns nothing, exactly if the step was clean. -/
def Leaves (l : Ledger) (clean : Prop) (r : StepResult) : Prop :=
  match r.status with
  | .exited (.returned _) => (∃ m, l.postAll r.effects = some (.settled m)) ↔ clean
  | .exited _ => True
  | _ => clean ∧ ∃ m, l.postAll r.effects = some (.holding m)

/-- In the middle of a first read a task owns its buffer as well. -/
def Ledger.reading (isFirstRecv : Bool) (cBufs : ℕ) : Ledger :=
  ⟨true, true, if isFirstRecv then 1 else 0, cBufs⟩

section Branches

variable {g : Globals} {task : RecvTask} {clean : Prop} (n : ℕ)

/-- A task that goes on, up to the completion test. -/
theorem leaves_advance {l : Ledger} (hclean : clean) (index : ℕ) (info : FileSliceInfo)
    (numRead : ℕ) {effects : List Effect} {m : ℕ} (h : l.postAll effects = some (.holding m)) :
    Leaves l clean
      ⟨(advance g index info numRead).1, (advance g index info numRead).2, effects⟩ := by
  unfold advance
  dsimp only
  split
  · exact ⟨hclean, m, h⟩
  · exact ⟨hclean, m, h⟩

/-- The `return`s of the header branch, and its exception and trap. -/
theorem leaves_headerBranch (hclean : clean) (bytes : List UInt8) :
    Leaves (.reading true n) clean (headerBranch g bytes) := by
  unfold headerBranch
  generalize processHeader bytes g = processed
  obtain ⟨g', exit⟩ := processed
  cases exit with
  | returned value => exact iff_of_true ⟨n, rfl⟩ hclean
  | threw exception => trivial
  | faulted fault => trivial

theorem leaves_firstSliceRead (hclean : clean) (bytes stale : List UInt8) :
    Leaves (.reading true n) clean (firstSliceRead g bytes stale) := by
  unfold firstSliceRead
  dsimp only
  split
  · trivial
  · split
    · exact ⟨hclean, n + 1, rfl⟩
    · exact leaves_advance hclean _ _ _ (m := n + 1) rfl

theorem leaves_laterSliceRead (hclean : clean) (info : FileSliceInfo) (bytes : List UInt8) :
    Leaves (.reading false n) clean (laterSliceRead g task info bytes) :=
  leaves_advance hclean _ _ _ (m := n) rfl

/-- A failing `read`: the buffer of a first read is freed, and so is `c_buf_` in a later one. -/
theorem leaves_readFailed (bytes : List UInt8) :
    Leaves (.reading task.isFirstRecv n) (task.isFirstRecv = true) (readFailed g task bytes) := by
  unfold readFailed
  cases hfirst : task.isFirstRecv with
  | true => exact iff_of_true ⟨n, rfl⟩ rfl
  | false =>
      cases hinfo : g.mmap task.index with
      | none => trivial
      | some info =>
          refine iff_of_false ?_ (by decide)
          rintro ⟨m, hpost⟩
          cases hpost

/-- Everything behind the read loop. -/
theorem leaves_afterRead (stale : List UInt8) (outcome : ReadEnd) :
    Leaves (.reading task.isFirstRecv n) (task.isFirstRecv = false → outcome.failed = false)
      (afterRead g task stale outcome) := by
  unfold afterRead
  cases hfailed : outcome.failed with
  | true =>
      have hiff : (task.isFirstRecv = false → true = false) ↔ task.isFirstRecv = true := by
        cases task.isFirstRecv <;> decide
      rw [propext hiff]
      exact leaves_readFailed n outcome.bytes
  | false =>
      cases task.isFirstRecv with
      | true =>
          simp only [Bool.false_eq_true, if_false, if_true]
          split
          · exact leaves_headerBranch n (fun _ => trivial) outcome.bytes
          · exact leaves_firstSliceRead n (fun _ => trivial) outcome.bytes stale
      | false =>
          simp only [Bool.false_eq_true, if_false]
          split
          · trivial
          · exact leaves_laterSliceRead n (fun _ => trivial) _ outcome.bytes

end Branches

/-- What comes before does not matter once it is posted. -/
theorem Leaves.prepend {l l' : Ledger} {clean : Prop} {r : StepResult} {effects : List Effect}
    (h : Leaves l' clean r) (heffects : l.postAll effects = some l') :
    Leaves l clean { r with effects := effects ++ r.effects } := by
  have hpost := Ledger.postAll_append_of_eq heffects r.effects
  unfold Leaves at h ⊢
  rw [hpost]
  exact h

/-- **A wake-up up to the completion test.** -/
theorem leaves_receive {g : Globals} {task : RecvTask} {event : RecvEvent} {r : StepResult}
    (n : ℕ) (hr : receive g task event = some r) :
    Leaves (.holding n) (CleanWakeUp task event) r := by
  cases event with
  | epollFailed =>
      cases hr
      refine iff_of_false ?_ id
      rintro ⟨m, hpost⟩
      cases hpost
  | notReadable =>
      cases hr
      exact ⟨trivial, n, rfl⟩
  | readable stale reads =>
      rw [receive] at hr
      cases hbegin : beginRead g task with
      | error fault =>
          rw [hbegin] at hr
          cases hr
          trivial
      | ok entered =>
          rw [hbegin] at hr
          obtain ⟨outcome, hloop, rfl⟩ := Option.map_eq_some_iff.mp hr
          have hiff : (task.isFirstRecv = false → outcome.failed = false) ↔
              CleanWakeUp task (.readable stale reads) := by
            rw [← Bool.not_eq_true outcome.failed, readLoop_failed hloop]
            exact Iff.rfl
          have hafter : Leaves (.reading task.isFirstRecv n)
              (task.isFirstRecv = false → outcome.failed = false)
              (afterRead entered.1 task stale outcome) := leaves_afterRead n stale outcome
          rw [propext hiff] at hafter
          apply hafter.prepend
          cases task.isFirstRecv with
          | true => rfl
          | false => rfl

/-! ## Decompression -/

/-- Offering room to zstd releases nothing. -/
theorem Ledger.postAll_offers (l : Ledger) (windows : List OutWindow) (buf : ℕ) :
    l.postAll (windows.map fun w => Effect.offerOut (buf + w.start) w.size) = some l := by
  induction windows with
  | nil => rfl
  | cons w windows ih => exact ih

section Finish

variable {D : Type} {z : ZstdDecompress D} {fuel : ℕ}

theorem leaves_finishSlice {clean : Prop} (hclean : clean) (g : Globals) (index n : ℕ) :
    Leaves (.holding n) clean (finishSlice z fuel g index) := by
  unfold finishSlice
  cases hinfo : g.mmap index with
  | none => trivial
  | some info =>
      dsimp only
      generalize decompress z fuel (info.cBuf.take info.cLen) info.len = result
      obtain ⟨windows, actWrSize⟩ := result
      cases storeOutput g info windows with
      | error fault => trivial
      | ok g' =>
          cases actWrSize with
          | none => trivial
          | some actWrSize =>
              have hoffers := Ledger.postAll_append_of_eq
                ((Ledger.holding n).postAll_offers windows (info.buf.getD 0))
                [.closeConn, .closeEpoll]
              obtain ⟨value, hexit⟩ : ∃ value, exitFor info (some actWrSize) = .returned value := by
                unfold exitFor
                dsimp only
                split
                · exact ⟨_, rfl⟩
                · split
                  · exact ⟨_, rfl⟩
                  · exact ⟨_, rfl⟩
              dsimp only
              rw [hexit]
              exact iff_of_true ⟨n, hoffers⟩ hclean

/-- **A wake-up.** -/
theorem recvStep_ledger {g : Globals} {task : RecvTask} {event : RecvEvent} {r : StepResult}
    (n : ℕ) (hr : recvStep z fuel g task event = some r) :
    Leaves (.holding n) (CleanWakeUp task event) r := by
  obtain ⟨before, hbefore, rfl⟩ := Option.map_eq_some_iff.mp hr
  have hleaves := leaves_receive n hbefore
  rw [StepResult.finish]
  cases hstatus : before.status with
  | complete index =>
      unfold Leaves at hleaves
      rw [hstatus] at hleaves
      obtain ⟨hclean, m, hpost⟩ := hleaves
      exact (leaves_finishSlice hclean before.globals index m).prepend hpost
  | waiting task' => exact hleaves
  | exited exit => exact hleaves

end Finish

/-! ## Which task goes on -/

theorem not_first_of_advance {g : Globals} {index numRead : ℕ} {info : FileSliceInfo}
    {task : RecvTask} (h : (advance g index info numRead).2 = .waiting task) :
    task.isFirstRecv = false := by
  unfold advance at h
  dsimp only at h
  split at h
  · cases h
  · cases h
    rfl

theorem not_first_of_afterRead {g : Globals} {task task' : RecvTask} {stale : List UInt8}
    {outcome : ReadEnd} (h : (afterRead g task stale outcome).status = .waiting task') :
    task'.isFirstRecv = false := by
  unfold afterRead at h
  split at h
  · unfold readFailed at h
    split at h
    · cases h
    · split at h
      · cases h
      · cases h
  · split at h
    · split at h
      · cases h
      · unfold firstSliceRead at h
        dsimp only at h
        split at h
        · cases h
        · split at h
          · cases h
            rfl
          · exact not_first_of_advance (g := g) h
    · split at h
      · cases h
      · exact not_first_of_advance (g := g) h

/-- A task that goes on has not read, or it is not a first read any more. -/
theorem waiting_of_recvStep {D : Type} {z : ZstdDecompress D} {fuel : ℕ} {g : Globals}
    {task task' : RecvTask} {event : RecvEvent} {r : StepResult}
    (hr : recvStep z fuel g task event = some r) (hstatus : r.status = .waiting task') :
    event = .notReadable ∧ task' = task ∨
      (∃ stale reads, event = .readable stale reads) ∧ task'.isFirstRecv = false := by
  obtain ⟨before, hbefore, rfl⟩ := Option.map_eq_some_iff.mp hr
  have hwaiting := finish_of_waiting hstatus
  cases event with
  | epollFailed =>
      cases hbefore
      cases hwaiting
  | notReadable =>
      cases hbefore
      cases hwaiting
      exact Or.inl ⟨rfl, rfl⟩
  | readable stale reads =>
      refine Or.inr ⟨⟨stale, reads, rfl⟩, ?_⟩
      rw [receive] at hbefore
      cases hbegin : beginRead g task with
      | error fault =>
          rw [hbegin] at hbefore
          cases hbefore
          cases hwaiting
      | ok entered =>
          rw [hbegin] at hbefore
          obtain ⟨outcome, -, rfl⟩ := Option.map_eq_some_iff.mp hbefore
          exact not_first_of_afterRead hwaiting

/-! ## A run -/

/-- What a wake-up adds to the condition. -/
theorem undisturbed_cons (task : RecvTask) (event : RecvEvent) (rest : List RecvEvent)
    (isFirstRecv : Bool) (hnext : event = .notReadable ∧ isFirstRecv = task.isFirstRecv ∨
      (∃ stale reads, event = .readable stale reads) ∧ isFirstRecv = false) :
    Undisturbed task.isFirstRecv (event :: rest) ↔
      CleanWakeUp task event ∧ Undisturbed isFirstRecv rest := by
  rcases hnext with ⟨rfl, rfl⟩ | ⟨⟨stale, reads, rfl⟩, rfl⟩
  · simp [Undisturbed, CleanWakeUp, readsOf]
  · cases hfirst : task.isFirstRecv with
    | true => simp [Undisturbed, CleanWakeUp, readsOf, hfirst]
    | false => simp [Undisturbed, CleanWakeUp, readsOf, hfirst, and_left_comm]

/-- A single wake-up. -/
theorem undisturbed_singleton (task : RecvTask) (event : RecvEvent) :
    Undisturbed task.isFirstRecv [event] ↔ CleanWakeUp task event := by
  cases event with
  | epollFailed => simp [Undisturbed, CleanWakeUp]
  | notReadable => simp [Undisturbed, CleanWakeUp, readsOf]
  | readable stale reads =>
      cases hfirst : task.isFirstRecv with
      | true => simp [Undisturbed, CleanWakeUp, readsOf, hfirst]
      | false => simp [Undisturbed, CleanWakeUp, readsOf, hfirst]

section Released

variable {D : Type} {z : ZstdDecompress D} {fuel : ℕ}

/-- What the first wake-up of a run does: it ends the run, or the task waits for the rest. -/
theorem recvLoop_cases {task : RecvTask} {g : Globals} {event : RecvEvent}
    {rest : List (Globals × RecvEvent)} {exit : Exit} {effects : List Effect}
    (h : recvLoop z fuel task ((g, event) :: rest) = some (exit, effects)) :
    ∃ r, recvStep z fuel g task event = some r ∧
      (r.status = .exited exit ∧ rest = [] ∧ effects = r.effects ∨
        ∃ task' later, r.status = .waiting task' ∧
          recvLoop z fuel task' rest = some (exit, later) ∧ effects = r.effects ++ later) := by
  rw [recvLoop] at h
  cases hr : recvStep z fuel g task event with
  | none =>
      rw [hr] at h
      cases h
  | some r =>
      rw [hr] at h
      refine ⟨r, rfl, ?_⟩
      dsimp only at h
      cases hstatus : r.status with
      | complete index =>
          rw [hstatus] at h
          cases h
      | exited ended =>
          rw [hstatus] at h
          dsimp only at h
          split at h
          · rename_i hrest
            cases h
            exact Or.inl ⟨rfl, hrest, rfl⟩
          · cases h
      | waiting task' =>
          rw [hstatus] at h
          obtain ⟨⟨ended, later⟩, hlater, heq⟩ := Option.map_eq_some_iff.mp h
          cases heq
          exact Or.inr ⟨task', later, rfl, hlater, rfl⟩

/-- From a task that goes on, by induction on the wake-ups. -/
theorem recvLoop_released_iff {task : RecvTask} {wakeUps : List (Globals × RecvEvent)} {v : ℤ}
    {effects : List Effect} (n : ℕ)
    (h : recvLoop z fuel task wakeUps = some (.returned v, effects)) :
    (∃ m, (Ledger.holding n).postAll effects = some (.settled m)) ↔
      Undisturbed task.isFirstRecv (wakeUps.map Prod.snd) := by
  induction wakeUps generalizing task effects n with
  | nil => cases h
  | cons wakeUp rest ih =>
      obtain ⟨g, event⟩ := wakeUp
      obtain ⟨r, hr, ⟨hstatus, rfl, rfl⟩ | ⟨task', later, hstatus, hlater, rfl⟩⟩ :=
        recvLoop_cases h
      · have hleaves := recvStep_ledger n hr
        rw [Leaves, hstatus] at hleaves
        rw [List.map_singleton, undisturbed_singleton]
        exact hleaves
      · have hleaves := recvStep_ledger n hr
        rw [Leaves, hstatus] at hleaves
        obtain ⟨hclean, m, hpost⟩ := hleaves
        have hnext : event = .notReadable ∧ task'.isFirstRecv = task.isFirstRecv ∨
            (∃ stale reads, event = .readable stale reads) ∧ task'.isFirstRecv = false := by
          rcases waiting_of_recvStep hr hstatus with ⟨hevent, rfl⟩ | hread
          · exact Or.inl ⟨hevent, rfl⟩
          · exact Or.inr hread
        rw [Ledger.postAll_append_of_eq hpost, ih m hlater, List.map_cons,
          undisturbed_cons task event _ task'.isFirstRecv hnext]
        exact (and_iff_right hclean).symm

/-- **A returning `Recv` has released everything exactly once, and no `c_buf_`, exactly
when no `epoll_wait` failed and no `read` behind the first wake-up that reads.** -/
theorem recv_released_iff (z : ZstdDecompress D) (fuel : ℕ) (added : Bool)
    (wakeUps : List (Globals × RecvEvent)) (v : ℤ) (effects : List Effect)
    (h : recv z fuel added wakeUps = some (.returned v, effects)) :
    Released effects ↔ Undisturbed true (wakeUps.map Prod.snd) := by
  unfold recv at h
  split at h
  · exact recvLoop_released_iff 0 h
  · split at h
    · rename_i hnone
      subst hnone
      cases h
      exact iff_of_true ⟨0, rfl⟩ (by simp [Undisturbed, readsOf])
    · cases h

end Released

/-! ### The slice `[97]` -/

/-- A receiver that waits for a file of one byte. -/
def oneByteGlobals : Globals := recordHeader 1 1 Globals.initial

/-- The header and two bytes of the frame. -/
def firstPiece : RecvEvent := .readable [] [.data (headerBytes 0 1 10 ++ [40, 181]), .eagain]

/-- What the next wake-up finds. -/
def laterGlobals : Globals :=
  ((recvStep rawDecompress 2 oneByteGlobals {} firstPiece).map StepResult.globals).getD
    oneByteGlobals

/-- The rest of the frame arrives with the second wake-up. -/
theorem recv_released_one :
    ∃ effects, recv rawDecompress 2 true [(oneByteGlobals, firstPiece),
        (laterGlobals, .readable [] [.data ((rawFrame [97]).drop 2)])] =
          some (.returned 0, effects) ∧ Released effects := by
  have hreturns : recv rawDecompress 2 true [(oneByteGlobals, firstPiece),
      (laterGlobals, .readable [] [.data ((rawFrame [97]).drop 2)])] =
        some (.returned 0, [.allocReadBuf 131072, .allocCBuf 10, .storeCBuf 0 2, .freeReadBuf,
          .storeCBuf 2 10, .offerOut 0 1, .closeConn, .closeEpoll]) := by
    decide
  exact ⟨_, hreturns, (recv_released_iff rawDecompress 2 true _ 0 _ hreturns).mpr
    ⟨by decide, by decide⟩⟩

/-- When the first `epoll_wait` fails nothing is closed; when the read of the second wake-up
fails an inner position of `c_buf_` is freed. -/
theorem recv_not_released :
    recv rawDecompress 2 true [(oneByteGlobals, .epollFailed)] = some (.returned (-1), []) ∧
      ¬ Released [] ∧
      ∃ effects, recv rawDecompress 2 true [(oneByteGlobals, firstPiece),
          (laterGlobals, .readable [] [.error])] = some (.returned (-1), effects) ∧
        .freeCBufAt 2 ∈ effects ∧ ¬ Released effects := by
  refine ⟨by decide, ?_, [.allocReadBuf 131072, .allocCBuf 10, .storeCBuf 0 2, .freeReadBuf,
    .storeCBuf 2 2, .freeCBufAt 2, .closeConn, .closeEpoll], by decide, by decide, ?_⟩
  · rintro ⟨m, hpost⟩
    cases hpost
  · rintro ⟨m, hpost⟩
    cases hpost

end SliceTransfer.Server
