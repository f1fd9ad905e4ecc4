import SliceTransfer.Receiver.Recv

/-!
# What a slice connection leaves alone

Once the header has been recorded, no step of a `Recv` task touches it again: a
wake-up changes at most one entry of `mmap_`, and the end of a slice the content of
the output file.
-/

namespace SliceTransfer.Server

open Bytes

theorem length_storeWindows (file : List UInt8) (buf : ℕ) (windows : List OutWindow) :
    (storeWindows file buf windows).length = file.length := by
  induction windows generalizing file with
  | nil => rfl
  | cons w rest ih =>
      show (storeWindows (overwrite file (buf + w.start) w.bytes) buf rest).length = _
      rw [ih, length_overwrite]

variable {fileSize slicesNum : ℕ} {g : Globals}

theorem Globals.Recorded.setInfo (h : g.Recorded fileSize slicesNum) (index : ℕ)
    (info : FileSliceInfo) : (g.setInfo index info).Recorded fileSize slicesNum :=
  ⟨h.fileSize_eq, h.slicesNum_eq, h.splitLen_eq, h.readsMaxBytes_eq, h.start_eq⟩

theorem Globals.Recorded.store (h : g.Recorded fileSize slicesNum) {file file' : List UInt8}
    (hfile : g.start = some file) (hlen : file'.length = file.length) :
    ({ g with start := some file' } : Globals).Recorded fileSize slicesNum := by
  obtain ⟨mapped, hmapped, hsize⟩ := h.start_eq
  obtain rfl : file = mapped := Option.some_inj.mp (hfile.symm.trans hmapped)
  exact ⟨h.fileSize_eq, h.slicesNum_eq, h.splitLen_eq, h.readsMaxBytes_eq, file', rfl,
    hlen.trans hsize⟩

/-- A wake-up of a slice task changes at most one entry. -/
theorem afterRead_globals (hslice : g.expectsHeader = false) (task : RecvTask)
    (stale : List UInt8) (outcome : ReadEnd) :
    (afterRead g task stale outcome).globals = g ∨
      ∃ index info, (afterRead g task stale outcome).globals = g.setInfo index info := by
  rw [afterRead]
  split
  · rw [readFailed]
    split
    · exact Or.inl rfl
    · cases g.mmap task.index with
      | none => exact Or.inl rfl
      | some info => exact Or.inr ⟨_, _, rfl⟩
  · split
    · rw [hslice, if_neg (by decide), firstSliceRead]
      split
      · exact Or.inr ⟨_, _, rfl⟩
      · split
        · exact Or.inr ⟨_, _, rfl⟩
        · exact Or.inr ⟨_, _, rfl⟩
    · cases g.mmap task.index with
      | none => exact Or.inl rfl
      | some info => exact Or.inr ⟨_, _, rfl⟩

theorem Globals.Recorded.afterRead (h : g.Recorded fileSize slicesNum) (task : RecvTask)
    (stale : List UInt8) (outcome : ReadEnd) :
    (afterRead g task stale outcome).globals.Recorded fileSize slicesNum := by
  rcases afterRead_globals h.expectsHeader task stale outcome with heq | ⟨index, info, heq⟩
  · rwa [heq]
  · rw [heq]
    exact h.setInfo index info

theorem Globals.Recorded.receive (h : g.Recorded fileSize slicesNum) {task : RecvTask}
    {event : RecvEvent} {r : StepResult} (hr : receive g task event = some r) :
    r.globals.Recorded fileSize slicesNum := by
  cases event with
  | epollFailed =>
      cases hr
      exact h
  | notReadable =>
      cases hr
      exact h
  | readable stale reads =>
      have hbegin : ∀ g' nLeft, beginRead g task = .ok (g', nLeft) → g' = g := by
        intro g' nLeft hok
        rw [beginRead, h.expectsHeader] at hok
        split at hok
        · cases hok
          rfl
        · cases hinfo : g.mmap task.index with
          | none => rw [hinfo] at hok; cases hok
          | some info => rw [hinfo] at hok; cases hok; rfl
      rw [Server.receive] at hr
      cases hok : beginRead g task with
      | error fault =>
          rw [hok] at hr
          cases hr
          exact h
      | ok entered =>
          obtain ⟨g', nLeft⟩ := entered
          rw [hok] at hr
          obtain ⟨outcome, -, rfl⟩ := Option.map_eq_some_iff.mp hr
          rw [hbegin g' nLeft hok]
          exact h.afterRead task stale outcome

theorem Globals.Recorded.finishSlice {D : Type} (z : ZstdDecompress D) (fuel : ℕ)
    (h : g.Recorded fileSize slicesNum) (index : ℕ) :
    (finishSlice z fuel g index).globals.Recorded fileSize slicesNum := by
  rw [Server.finishSlice]
  cases g.mmap index with
  | none => exact h
  | some info =>
      cases hstore : storeOutput g info
          (decompress z fuel (info.cBuf.take info.cLen) info.len).1 with
      | error fault =>
          simp only [hstore]
          exact h
      | ok g' =>
          simp only [hstore]
          rw [storeOutput] at hstore
          split at hstore
          · rename_i buf file _ hfile
            cases hstore
            exact h.store hfile (length_storeWindows _ _ _)
          · split at hstore
            · cases hstore
              exact h
            · cases hstore

theorem storeOutput_mmap {g' : Globals} {info : FileSliceInfo} {windows : List OutWindow}
    (h : storeOutput g info windows = .ok g') : g'.mmap = g.mmap := by
  rw [storeOutput] at h
  split at h
  · cases h
    rfl
  · split at h
    · cases h
      rfl
    · cases h

/-- The end of a slice ends its task, and touches no entry. -/
theorem finishSlice_leaves {D : Type} (z : ZstdDecompress D) (fuel : ℕ) (g : Globals)
    (index : ℕ) : (finishSlice z fuel g index).globals.mmap = g.mmap ∧
      ∃ exit, (finishSlice z fuel g index).status = .exited exit := by
  unfold Server.finishSlice
  cases g.mmap index with
  | none => exact ⟨rfl, _, rfl⟩
  | some info =>
      cases hstore : storeOutput g info
          (decompress z fuel (info.cBuf.take info.cLen) info.len).1 with
      | error fault =>
          simp only [hstore]
          exact ⟨trivial, _, rfl⟩
      | ok g' =>
          simp only [hstore]
          exact ⟨storeOutput_mmap hstore, _, rfl⟩

/-- A task that goes on had not completed its slice. -/
theorem finish_of_waiting {D : Type} {z : ZstdDecompress D} {fuel : ℕ} {r : StepResult}
    {next : RecvTask} (hstatus : (r.finish z fuel).status = .waiting next) :
    r.status = .waiting next := by
  by_cases hcomplete : ∃ index, r.status = .complete index
  · obtain ⟨index, hcase⟩ := hcomplete
    obtain ⟨-, exit, hexit⟩ := finishSlice_leaves z fuel r.globals index
    rw [StepResult.finish, hcase] at hstatus
    exact absurd (hexit.symm.trans hstatus) RecvStatus.noConfusion
  · rwa [finish_of_not_complete fuel fun index hcase => hcomplete ⟨index, hcase⟩] at hstatus

theorem Globals.Recorded.finish {D : Type} (z : ZstdDecompress D) (fuel : ℕ) {r : StepResult}
    (h : r.globals.Recorded fileSize slicesNum) :
    (r.finish z fuel).globals.Recorded fileSize slicesNum := by
  rw [StepResult.finish]
  split
  · exact h.finishSlice z fuel _
  · exact h

/-- **No wake-up of a slice task touches the recorded header.** -/
theorem Globals.Recorded.recvStep {D : Type} {z : ZstdDecompress D} {fuel : ℕ}
    (h : g.Recorded fileSize slicesNum) {task : RecvTask} {event : RecvEvent} {r : StepResult}
    (hr : recvStep z fuel g task event = some r) : r.globals.Recorded fileSize slicesNum := by
  obtain ⟨before, hbefore, rfl⟩ := Option.map_eq_some_iff.mp hr
  exact (h.receive hbefore).finish z fuel

end SliceTransfer.Server
