import SliceTransfer.Receiver.Recv
import Mathlib.Data.List.Forall2

/-!
# Reassembling a slice stream

A run of `Recv` on one connection is the sequence of its wake-ups, `receiveRun`.
What a slice connection has made of the bytes it has read so far does not depend on
how they were cut into reads: it is `entryAfter`, computed from the bytes alone.

* `receive_first`, `receive_later`: a first read of at least ten bytes, and every
  later read, take the entry to the entry of the bytes read until then;
* `receiveRun_later`: hence a stream that stays within its announced length is
  reassembled by any sequence of wake-ups, each of which stores inside `c_buf_`.
-/

namespace SliceTransfer.Server

open Bytes

/-! ## What the read loop delivers -/

def ReadResult.bytes : ReadResult → List UInt8
  | .data more => more
  | _ => []

/-- The wake-up finds the connection readable and gets `piece` from it. -/
inductive Delivers (piece : List UInt8) : RecvEvent → Prop
  | intro (stale : List UInt8) (reads : List ReadResult) (hclean : ReadResult.error ∉ reads)
      (hpiece : reads.flatMap ReadResult.bytes = piece) : Delivers piece (.readable stale reads)

/-- What has been read, whether the loop goes on or not. -/
def progressBytes : ReadProgress → List UInt8
  | .again bytes => bytes
  | .stop outcome => outcome.bytes

theorem readOnce_bytes {nLeft : ℕ} {bytes : List UInt8} {result : ReadResult}
    {progress : ReadProgress} (h : readOnce nLeft bytes result = some progress) :
    progressBytes progress = bytes ++ result.bytes := by
  cases result with
  | data more =>
      rw [readOnce] at h
      split at h
      · cases h
      · split at h
        · cases h
          rfl
        · cases h
          rfl
  | eintr =>
      rw [readOnce, Option.some_inj] at h
      split at h
      · rw [← h]
        exact (List.append_nil bytes).symm
      · rw [← h]
        exact (List.append_nil bytes).symm
  | eagain =>
      cases h
      exact (List.append_nil bytes).symm
  | error =>
      cases h
      exact (List.append_nil bytes).symm

/-- A call of `read` is followed by the remaining ones, or it was the last. -/
theorem readLoop_cons {nLeft : ℕ} {bytes : List UInt8} {result : ReadResult}
    {rest : List ReadResult} {outcome : ReadEnd}
    (h : readLoop nLeft bytes (result :: rest) = some outcome) :
    (∃ more, readOnce nLeft bytes result = some (.again more) ∧
        readLoop nLeft more rest = some outcome) ∨
      readOnce nLeft bytes result = some (.stop outcome) ∧ rest = [] := by
  rw [readLoop] at h
  cases hfirst : readOnce nLeft bytes result with
  | none =>
      rw [hfirst] at h
      cases h
  | some progress =>
      rw [hfirst] at h
      cases progress with
      | again more => exact Or.inl ⟨more, rfl, h⟩
      | stop last =>
          obtain ⟨hrest, heq⟩ := Option.ite_none_right_eq_some.mp h
          exact Or.inr ⟨congrArg _ (congrArg _ (Option.some_inj.mp heq)), hrest⟩

/-- The read loop collects what its reads get. -/
theorem readLoop_bytes {nLeft : ℕ} {bytes : List UInt8} {results : List ReadResult}
    {outcome : ReadEnd} (h : readLoop nLeft bytes results = some outcome) :
    outcome.bytes = bytes ++ results.flatMap ReadResult.bytes := by
  induction results generalizing bytes with
  | nil => cases h
  | cons result rest ih =>
      rw [List.flatMap_cons, ← List.append_assoc]
      rcases readLoop_cons h with ⟨more, hfirst, hlater⟩ | ⟨hfirst, rfl⟩
      · rw [← readOnce_bytes hfirst]
        exact ih hlater
      · rw [← readOnce_bytes hfirst, List.flatMap_nil, List.append_nil]
        rfl

/-- A call of `read` without an error stays in the budget. -/
theorem readOnce_le {nLeft : ℕ} {bytes : List UInt8} {result : ReadResult}
    {progress : ReadProgress} (h : readOnce nLeft bytes result = some progress)
    (hle : bytes.length ≤ nLeft) : (progressBytes progress).length ≤ nLeft := by
  rw [readOnce_bytes h, List.length_append]
  cases result with
  | data more =>
      by_contra hover
      have hover : nLeft < bytes.length + more.length := Nat.not_le.mp hover
      rw [readOnce, if_pos hover] at h
      cases h
  | eagain => exact hle
  | eintr => exact hle
  | error => exact hle

theorem readOnce_failed {nLeft : ℕ} {bytes : List UInt8} {result : ReadResult}
    {outcome : ReadEnd} (h : readOnce nLeft bytes result = some (.stop outcome)) :
    outcome.failed = true ↔ result = .error := by
  cases result with
  | error =>
      cases h
      exact iff_of_true rfl rfl
  | eagain =>
      cases h
      exact iff_of_false Bool.false_ne_true ReadResult.noConfusion
  | eintr =>
      rw [readOnce] at h
      split at h
      · cases h
        exact iff_of_false Bool.false_ne_true ReadResult.noConfusion
      · cases h
  | data more =>
      rw [readOnce] at h
      split at h
      · cases h
      · split at h
        · cases h
          exact iff_of_false Bool.false_ne_true ReadResult.noConfusion
        · cases h

/-- The read loop fails when one of its reads does, which is then the last one. -/
theorem readLoop_failed {nLeft : ℕ} {bytes : List UInt8} {reads : List ReadResult}
    {outcome : ReadEnd} (h : readLoop nLeft bytes reads = some outcome) :
    outcome.failed = true ↔ ReadResult.error ∈ reads := by
  induction reads generalizing bytes with
  | nil => cases h
  | cons result rest ih =>
      rcases readLoop_cons h with ⟨more, hfirst, hlater⟩ | ⟨hfirst, rfl⟩
      · rw [ih hlater, List.mem_cons]
        refine ⟨Or.inr, fun hmem => hmem.resolve_left ?_⟩
        rintro rfl
        cases hfirst
      · rw [readOnce_failed hfirst, List.mem_singleton]
        exact eq_comm

theorem readLoop_le {nLeft : ℕ} {bytes : List UInt8} {reads : List ReadResult}
    {outcome : ReadEnd} (h : readLoop nLeft bytes reads = some outcome)
    (hle : bytes.length ≤ nLeft) : outcome.bytes.length ≤ nLeft := by
  induction reads generalizing bytes with
  | nil => cases h
  | cons result rest ih =>
      rcases readLoop_cons h with ⟨more, hfirst, hlater⟩ | ⟨hfirst, -⟩
      · exact ih hlater (readOnce_le hfirst hle)
      · exact readOnce_le hfirst hle

theorem readLoop_eq_some {nLeft : ℕ} {bytes : List UInt8} {reads : List ReadResult}
    {outcome : ReadEnd} (h : readLoop nLeft bytes reads = some outcome)
    (hclean : ReadResult.error ∉ reads) (hle : bytes.length ≤ nLeft) :
    outcome = ⟨bytes ++ reads.flatMap ReadResult.bytes, false⟩ ∧
      (bytes ++ reads.flatMap ReadResult.bytes).length ≤ nLeft := by
  have hbytes := readLoop_bytes h
  have hlen := readLoop_le h hle
  have hfailed : outcome.failed = false :=
    Bool.eq_false_iff.mpr fun hyes => hclean ((readLoop_failed h).mp hyes)
  rw [hbytes] at hlen
  rw [← hbytes, ← hfailed]
  exact ⟨rfl, hbytes ▸ hlen⟩

/-- A wake-up that delivers `piece` processes exactly `piece`, which fits the budget. -/
theorem receive_delivers {g : Globals} {task : RecvTask} {event : RecvEvent} {r : StepResult}
    {piece : List UInt8} {g' : Globals} {nLeft : ℕ} (hdelivers : Delivers piece event)
    (hr : receive g task event = some r) (hbegin : beginRead g task = .ok (g', nLeft)) :
    piece.length ≤ nLeft ∧ ∃ stale, r.globals = (afterRead g' task stale ⟨piece, false⟩).globals ∧
      r.status = (afterRead g' task stale ⟨piece, false⟩).status ∧
      r.effects = (if task.isFirstRecv then [.allocReadBuf nLeft] else []) ++
        (afterRead g' task stale ⟨piece, false⟩).effects := by
  obtain ⟨stale, reads, hclean, rfl⟩ := hdelivers
  simp only [receive, hbegin, Option.map_eq_some_iff] at hr
  obtain ⟨outcome, hloop, rfl⟩ := hr
  obtain ⟨rfl, hlen⟩ := readLoop_eq_some hloop hclean (Nat.zero_le _)
  exact ⟨hlen, stale, rfl, rfl, rfl⟩

/-- A wake-up that delivers `piece` to a task that asks for `nLeft` bytes. -/
def arrival (nLeft : ℕ) (piece : List UInt8) : RecvEvent :=
  .readable [] (if piece.length = nLeft ∨ piece = [] then [.data piece] else [.data piece, .eagain])

theorem delivers_arrival (nLeft : ℕ) (piece : List UInt8) :
    Delivers piece (arrival nLeft piece) := by
  by_cases hstop : piece.length = nLeft ∨ piece = []
  · rw [arrival, if_pos hstop]
    exact ⟨[], [.data piece], by simp, by simp [ReadResult.bytes]⟩
  · rw [arrival, if_neg hstop]
    exact ⟨[], [.data piece, .eagain], by simp, by simp [ReadResult.bytes]⟩

/-- Any piece that fits the budget can arrive. -/
theorem receive_arrival {g g' : Globals} {task : RecvTask} {nLeft : ℕ} {piece : List UInt8}
    (hbegin : beginRead g task = .ok (g', nLeft)) (hfits : piece.length ≤ nLeft) :
    ∃ r, receive g task (arrival nLeft piece) = some r := by
  by_cases hstop : piece.length = nLeft ∨ piece = []
  · simp [receive, arrival, hbegin, readLoop, readOnce, hstop, Nat.not_lt.mpr hfits]
  · simp [receive, arrival, hbegin, readLoop, readOnce, hstop, Nat.not_lt.mpr hfits]

/-! ## Runs on one connection -/

/-- The wake-ups of one task, up to the completion of its slice or its exit; what
would come after that is not observed. -/
def receiveRun : Globals → RecvStatus → List RecvEvent → Option StepResult
  | g, status, [] => some ⟨g, status, []⟩
  | g, .waiting task, event :: rest => do
      let r ← receive g task event
      let later ← receiveRun r.globals r.status rest
      some { later with effects := r.effects ++ later.effects }
  | g, status, _ :: _ => some ⟨g, status, []⟩

theorem receiveRun_cons {g : Globals} {task : RecvTask} {event : RecvEvent}
    {rest : List RecvEvent} {last : StepResult}
    (h : receiveRun g (.waiting task) (event :: rest) = some last) :
    ∃ r later, receive g task event = some r ∧
      receiveRun r.globals r.status rest = some later ∧
      last = { later with effects := r.effects ++ later.effects } := by
  simp only [receiveRun, Option.bind_eq_bind, Option.bind_eq_some_iff, Option.some_inj] at h
  obtain ⟨r, hr, later, hlater, rfl⟩ := h
  exact ⟨r, later, hr, hlater, rfl⟩

theorem receiveRun_stopped {g : Globals} {status : RecvStatus} (events : List RecvEvent)
    (hstop : ∀ task, status ≠ .waiting task) :
    receiveRun g status events = some ⟨g, status, []⟩ := by
  cases events with
  | nil => cases status <;> rfl
  | cons event rest =>
      cases status with
      | waiting task => exact absurd rfl (hstop task)
      | complete index => rfl
      | exited exit => rfl

/-- Every initial part of a run is a run. -/
theorem receiveRun_take {g : Globals} {status : RecvStatus} {events : List RecvEvent}
    {last : StepResult} (h : receiveRun g status events = some last) (k : ℕ) :
    ∃ r, receiveRun g status (events.take k) = some r := by
  induction events generalizing g status last k with
  | nil => exact ⟨last, by rwa [List.take_nil]⟩
  | cons event rest ih =>
      cases k with
      | zero =>
          rw [List.take_zero]
          cases status <;> exact ⟨_, rfl⟩
      | succ k =>
          cases status with
          | waiting task =>
              obtain ⟨r, later, hr, hlater, -⟩ := receiveRun_cons h
              obtain ⟨early, hearly⟩ := ih hlater k
              refine ⟨{ early with effects := r.effects ++ early.effects }, ?_⟩
              rw [List.take_succ_cons, receiveRun, hr]
              simp [hearly]
          | complete index => exact ⟨_, rfl⟩
          | exited exit => exact ⟨_, rfl⟩

/-! ## The entry of a slice -/

theorem unmarshal_append {buf : List UInt8} (more : List UInt8)
    (h : kEachSliceHeaderLen ≤ buf.length) : unmarshal (buf ++ more) = unmarshal buf := by
  rw [kEachSliceHeaderLen] at h
  simp only [unmarshal, window_append_left more (show 0 + 2 ≤ buf.length by omega),
    window_append_left more (show 2 + 4 ≤ buf.length by omega),
    window_append_left more (show 6 + 4 ≤ buf.length by omega)]

/-- Later pieces do not change the header. -/
theorem unmarshal_flatten_take {first : List UInt8} (rest : List (List UInt8)) {k : ℕ}
    (hheader : kEachSliceHeaderLen ≤ first.length) (hk : 1 ≤ k) :
    unmarshal ((first :: rest).take k).flatten = unmarshal first := by
  obtain ⟨i, rfl⟩ := Nat.exists_eq_add_of_le' hk
  rw [List.take_succ_cons, List.flatten_cons, unmarshal_append _ hheader]

theorem unmarshal_len_lt (buf : List UInt8) : (unmarshal buf).len < 2 ^ 32 :=
  ofBigEndian_window_lt buf 2 4

theorem unmarshal_cLen_lt (buf : List UInt8) : (unmarshal buf).cLen < 2 ^ 32 :=
  ofBigEndian_window_lt buf 6 4

/-- The number of payload bytes among `bytes`. -/
def payloadLen (bytes : List UInt8) : ℕ := bytes.length - kEachSliceHeaderLen

/-- The entry of a slice once `bytes` have been read, header included. -/
def entryAfter (g : Globals) (bytes : List UInt8) : FileSliceInfo :=
  { newInfo g (unmarshal bytes) with
    offset := payloadLen bytes
    cBuf := bytes.drop kEachSliceHeaderLen }

theorem entryAfter_buf {fileSize slicesNum : ℕ} {g : Globals}
    (h : g.Recorded fileSize slicesNum) (bytes : List UInt8) :
    (entryAfter g bytes).buf = some (bufOffset g (unmarshal bytes).index) := by
  obtain ⟨file, hfile, -⟩ := h.start_eq
  change g.start.map (fun _ => bufOffset g (unmarshal bytes).index) = _
  rw [hfile]
  rfl

/-- The globals once `bytes` have been read on a slice connection. -/
def globalsAfter (g : Globals) (bytes : List UInt8) : Globals :=
  g.setInfo (unmarshal bytes).index (entryAfter g bytes)

/-- The status of a slice task after the completion test. -/
def statusAfter (bytes : List UInt8) : RecvStatus :=
  if (unmarshal bytes).cLen = payloadLen bytes then .complete (unmarshal bytes).index
  else .waiting ⟨false, (unmarshal bytes).index⟩

@[simp] theorem setInfo_setInfo (g : Globals) (index : ℕ) (info info' : FileSliceInfo) :
    (g.setInfo index info).setInfo index info' = g.setInfo index info' := by
  simp [Globals.setInfo]

@[simp] theorem setInfo_mmap_self (g : Globals) (index : ℕ) (info : FileSliceInfo) :
    (g.setInfo index info).mmap index = some info := by
  simp [Globals.setInfo]

theorem globalsAfter_mmap (g : Globals) (bytes : List UInt8) :
    (globalsAfter g bytes).mmap (unmarshal bytes).index = some (entryAfter g bytes) :=
  setInfo_mmap_self ..

/-- The status after a first read: exactly ten bytes are not tested for completion. -/
def firstStatus (bytes : List UInt8) : RecvStatus :=
  if payloadLen bytes = 0 then .waiting ⟨false, (unmarshal bytes).index⟩ else statusAfter bytes

/-- The first read of a slice stream, at least ten bytes long. -/
theorem afterRead_first {g : Globals} {piece : List UInt8} (stale : List UInt8)
    (hslice : g.expectsHeader = false) (hlt : piece.length < 2 ^ 64)
    (hheader : kEachSliceHeaderLen ≤ piece.length) :
    afterRead g {} stale ⟨piece, false⟩ = ⟨globalsAfter g piece, firstStatus piece,
      .allocCBuf (unmarshal piece).cLen ::
        (if payloadLen piece = 0 then [] else [.storeCBuf 0 (payloadLen piece)]) ++
          [.freeReadBuf]⟩ := by
  have hafter : afterRead g {} stale ⟨piece, false⟩ = firstSliceRead g piece stale := by
    simp [afterRead, hslice]
  have hshort : ¬ piece.length < kEachSliceHeaderLen := Nat.not_lt.mpr hheader
  rw [hafter]
  by_cases hexact : piece.length = kEachSliceHeaderLen
  · have hnone : payloadLen piece = 0 := by rw [payloadLen, hexact, Nat.sub_self]
    have hdrop : piece.drop kEachSliceHeaderLen = [] := List.drop_of_length_le hexact.le
    have hnew : newInfo g (unmarshal piece) = entryAfter g piece := by
      rw [entryAfter, hnone, hdrop]
      rfl
    simp [firstSliceRead, firstStatus, hexact, hnone, globalsAfter, unmarshal_append stale hheader,
      hnew]
  · have hsome : payloadLen piece ≠ 0 := by
      rw [payloadLen]
      omega
    have hpayload : (piece.drop kEachSliceHeaderLen).length = payloadLen piece :=
      List.length_drop ..
    have hmod : payloadLen piece % 2 ^ 64 = payloadLen piece := by
      apply Nat.mod_eq_of_lt
      rw [payloadLen]
      omega
    have hentry : { (newInfo g (unmarshal piece)).store 0 (piece.drop kEachSliceHeaderLen) with
        offset := payloadLen piece } = entryAfter g piece := by
      simp [FileSliceInfo.store, entryAfter, newInfo]
    simp only [firstSliceRead, firstStatus, if_neg hshort, if_neg hexact,
      unmarshal_append stale hheader, advance, hpayload, if_neg hsome]
    have hzero : ((newInfo g (unmarshal piece)).store 0
        (piece.drop kEachSliceHeaderLen)).offset = 0 := rfl
    rw [hzero, Nat.zero_add, hmod, hentry]
    rfl

theorem afterRead_first_short {g : Globals} {piece : List UInt8} (stale : List UInt8)
    (hslice : g.expectsHeader = false) (hshort : piece.length < kEachSliceHeaderLen) :
    (afterRead g {} stale ⟨piece, false⟩).status = .exited (.faulted .negativeCopy) := by
  simp [afterRead, hslice, firstSliceRead, hshort]

theorem beginRead_first {g : Globals} (hslice : g.expectsHeader = false) :
    beginRead g {} = .ok (g, g.readsMaxBytes) := by
  simp [beginRead, hslice]

theorem receive_first {g : Globals} {event : RecvEvent} {r : StepResult} {piece : List UInt8}
    (hslice : g.expectsHeader = false) (hreads : g.readsMaxBytes < 2 ^ 64)
    (hdelivers : Delivers piece event) (hr : receive g {} event = some r)
    (hheader : kEachSliceHeaderLen ≤ piece.length) :
    r.globals = globalsAfter g piece ∧ r.status = firstStatus piece ∧
      r.effects = .allocReadBuf g.readsMaxBytes :: .allocCBuf (unmarshal piece).cLen ::
        (if payloadLen piece = 0 then [] else [.storeCBuf 0 (payloadLen piece)]) ++
          [.freeReadBuf] := by
  obtain ⟨hlen, stale, hglobals, hstatus, heffects⟩ :=
    receive_delivers hdelivers hr (beginRead_first hslice)
  rw [hglobals, hstatus, heffects, afterRead_first stale hslice (hlen.trans_lt hreads) hheader]
  exact ⟨rfl, rfl, rfl⟩

/-- A first read of less than ten bytes ends in the copy of negative length. -/
theorem receive_first_short {g : Globals} {event : RecvEvent} {r : StepResult}
    {piece : List UInt8} (hslice : g.expectsHeader = false) (hdelivers : Delivers piece event)
    (hr : receive g {} event = some r) (hshort : piece.length < kEachSliceHeaderLen) :
    r.status = .exited (.faulted .negativeCopy) := by
  obtain ⟨-, stale, -, hstatus, -⟩ := receive_delivers hdelivers hr (beginRead_first hslice)
  rw [hstatus, afterRead_first_short stale hslice hshort]

/-- The budget of a later read, as long as bytes are missing. -/
theorem laterBudget_le {readsMaxBytes : ℕ} {info : FileSliceInfo} (hopen : info.offset < info.cLen)
    (hlt : info.cLen < 2 ^ 64) :
    laterBudget readsMaxBytes info ≤ info.cLen - info.offset := by
  have hsub : subSizeT info.cLen info.offset = info.cLen - info.offset :=
    subSizeT_of_le hopen.le hlt
  rw [laterBudget, hsub]
  by_cases hless : info.cLen - info.offset < readsMaxBytes
  · simp only [if_pos hless]
    rw [if_pos (by omega)]
  · simp only [if_neg hless]
    rw [if_neg (by omega)]
    exact Nat.not_lt.mp hless

theorem beginRead_later (g : Globals) (bytes : List UInt8) :
    beginRead (globalsAfter g bytes) ⟨false, (unmarshal bytes).index⟩ =
      .ok (globalsAfter g bytes, laterBudget g.readsMaxBytes (entryAfter g bytes)) := by
  simp only [beginRead, Bool.false_eq_true, if_false, globalsAfter_mmap]
  rfl

/-- A later read never exceeds the bytes that are missing, as long as some are. -/
theorem length_le_missing {g : Globals} {event : RecvEvent} {r : StepResult}
    {bytes piece : List UInt8} (hopen : payloadLen bytes < (unmarshal bytes).cLen)
    (hdelivers : Delivers piece event)
    (hr : receive (globalsAfter g bytes) ⟨false, (unmarshal bytes).index⟩ event = some r) :
    payloadLen bytes + piece.length ≤ (unmarshal bytes).cLen := by
  obtain ⟨hlen, -⟩ := receive_delivers hdelivers hr (beginRead_later g bytes)
  have hlt : (unmarshal bytes).cLen < 2 ^ 64 := by
    have := unmarshal_cLen_lt bytes
    omega
  have hbudget : laterBudget g.readsMaxBytes (entryAfter g bytes) ≤
      (unmarshal bytes).cLen - payloadLen bytes := laterBudget_le hopen hlt
  omega

theorem payloadLen_append {bytes : List UInt8} (piece : List UInt8)
    (hheader : kEachSliceHeaderLen ≤ bytes.length) :
    payloadLen (bytes ++ piece) = payloadLen bytes + piece.length := by
  rw [payloadLen, payloadLen, List.length_append]
  omega

/-- A later read, `bytes` having been read before. -/
theorem afterRead_later {g : Globals} {bytes piece : List UInt8} (stale : List UInt8)
    (hheader : kEachSliceHeaderLen ≤ bytes.length) (hlt : payloadLen (bytes ++ piece) < 2 ^ 64) :
    afterRead (globalsAfter g bytes) ⟨false, (unmarshal bytes).index⟩ stale ⟨piece, false⟩ =
      ⟨globalsAfter g (bytes ++ piece), statusAfter (bytes ++ piece),
        [.storeCBuf (payloadLen bytes) (payloadLen (bytes ++ piece))]⟩ := by
  have hafter : afterRead (globalsAfter g bytes) ⟨false, (unmarshal bytes).index⟩ stale
      ⟨piece, false⟩ = laterSliceRead (globalsAfter g bytes) ⟨false, (unmarshal bytes).index⟩
        (entryAfter g bytes) piece := by
    simp only [afterRead, Bool.false_eq_true, if_false, globalsAfter_mmap]
  have hpayload := (payloadLen_append piece hheader).symm
  have hmod : (payloadLen bytes + piece.length) % 2 ^ 64 = payloadLen (bytes ++ piece) := by
    rw [hpayload]
    exact Nat.mod_eq_of_lt hlt
  have hsame : unmarshal (bytes ++ piece) = unmarshal bytes := unmarshal_append piece hheader
  have hdropped : (bytes.drop kEachSliceHeaderLen).length = payloadLen bytes := List.length_drop ..
  have hcBuf : ((entryAfter g bytes).store (payloadLen bytes) piece).cBuf =
      (bytes ++ piece).drop kEachSliceHeaderLen := by
    change (bytes.drop kEachSliceHeaderLen).take (payloadLen bytes) ++ piece ++
      (bytes.drop kEachSliceHeaderLen).drop (payloadLen bytes + piece.length) = _
    have hbehind : (bytes.drop kEachSliceHeaderLen).drop (payloadLen bytes + piece.length) = [] :=
      List.drop_of_length_le (by omega)
    rw [List.take_of_length_le hdropped.le, hbehind, List.append_nil,
      List.drop_append_of_le_length hheader]
  have hentry : { (entryAfter g bytes).store (payloadLen bytes) piece with
      offset := payloadLen (bytes ++ piece) } = entryAfter g (bytes ++ piece) := by
    have hnext : entryAfter g (bytes ++ piece) =
        { newInfo g (unmarshal bytes) with
          offset := payloadLen (bytes ++ piece)
          cBuf := (bytes ++ piece).drop kEachSliceHeaderLen } := by
      rw [entryAfter, hsame]
    rw [hnext, ← hcBuf]
    rfl
  have hoffset : ((entryAfter g bytes).store (payloadLen bytes) piece).offset =
      payloadLen bytes := rfl
  have hadvance : advance (globalsAfter g bytes) (unmarshal bytes).index
      ((entryAfter g bytes).store (payloadLen bytes) piece) piece.length =
        (globalsAfter g (bytes ++ piece), statusAfter (bytes ++ piece)) := by
    rw [advance, hoffset, hmod, hentry, globalsAfter, globalsAfter, setInfo_setInfo, statusAfter,
      hsame]
    have hcLen : (entryAfter g (bytes ++ piece)).cLen = (unmarshal (bytes ++ piece)).cLen := rfl
    have hoff : (entryAfter g (bytes ++ piece)).offset = payloadLen (bytes ++ piece) := rfl
    simp only [hcLen, hoff, hsame]
  have hstart : (entryAfter g bytes).offset = payloadLen bytes := rfl
  rw [hafter]
  simp only [laterSliceRead, hstart, hadvance, hpayload]

theorem receive_later {g : Globals} {event : RecvEvent} {r : StepResult}
    {bytes piece : List UInt8} (hheader : kEachSliceHeaderLen ≤ bytes.length)
    (hlt : payloadLen (bytes ++ piece) < 2 ^ 64) (hdelivers : Delivers piece event)
    (hr : receive (globalsAfter g bytes) ⟨false, (unmarshal bytes).index⟩ event = some r) :
    r.globals = globalsAfter g (bytes ++ piece) ∧ r.status = statusAfter (bytes ++ piece) ∧
      r.effects = [.storeCBuf (payloadLen bytes) (payloadLen (bytes ++ piece))] := by
  obtain ⟨-, stale, hglobals, hstatus, heffects⟩ :=
    receive_delivers hdelivers hr (beginRead_later g bytes)
  rw [hglobals, hstatus, heffects, afterRead_later stale hheader hlt]
  exact ⟨rfl, rfl, rfl⟩

/-! ## Whole runs -/

/-- What a reception within bounds does: copies and reads into `c_buf_` end at or
before `cLen`, and zstd has not been called yet. -/
def Effect.Receives (cLen : ℕ) : Effect → Prop
  | .storeCBuf _ stop => stop ≤ cLen
  | .offerOut _ _ => False
  | _ => True

/-- The later wake-ups of a slice task that still misses bytes.  They consume the
pieces in order, as many as the slice needs. -/
theorem receiveRun_later {g : Globals} {bytes : List UInt8} {pieces : List (List UInt8)}
    {events : List RecvEvent} {r : StepResult} (hdelivers : List.Forall₂ Delivers pieces events)
    (hheader : kEachSliceHeaderLen ≤ bytes.length)
    (hopen : payloadLen bytes < (unmarshal bytes).cLen)
    (hr : receiveRun (globalsAfter g bytes) (.waiting ⟨false, (unmarshal bytes).index⟩) events =
      some r) :
    ∃ k ≤ pieces.length, r.globals = globalsAfter g (bytes ++ (pieces.take k).flatten) ∧
      r.status = statusAfter (bytes ++ (pieces.take k).flatten) ∧
      payloadLen (bytes ++ (pieces.take k).flatten) ≤ (unmarshal bytes).cLen ∧
      (payloadLen (bytes ++ (pieces.take k).flatten) < (unmarshal bytes).cLen →
        k = pieces.length) ∧
      ∀ e ∈ r.effects, e.Receives (unmarshal bytes).cLen := by
  induction hdelivers generalizing bytes r with
  | nil =>
      rw [receiveRun, Option.some_inj] at hr
      subst hr
      refine ⟨0, le_refl _, ?_, ?_, ?_, fun _ => rfl, by simp⟩
      · simp
      · simp [statusAfter, hopen.ne']
      · simpa using hopen.le
  | @cons piece event pieces events hfirst _ ih =>
      obtain ⟨next, later, hnext, hlater, rfl⟩ := receiveRun_cons hr
      have hlt := unmarshal_cLen_lt bytes
      have hsame : unmarshal (bytes ++ piece) = unmarshal bytes := unmarshal_append piece hheader
      have hfits := length_le_missing hopen hfirst hnext
      rw [← payloadLen_append piece hheader] at hfits
      obtain ⟨hglobals, hstatus, heffects⟩ :=
        receive_later hheader (by omega) hfirst hnext
      have hstore : ∀ e ∈ next.effects, e.Receives (unmarshal bytes).cLen := by
        rw [heffects]
        simpa [Effect.Receives] using hfits
      rw [hglobals, hstatus, statusAfter] at hlater
      rcases hfits.lt_or_eq with hmore | hdone
      · -- bytes are still missing: go on with the rest
        rw [hsame, if_neg hmore.ne', ← hsame] at hlater
        obtain ⟨k, hk, hglobals', hstatus', hle, hall, heffects'⟩ :=
          ih (by rw [List.length_append]; omega) (by rwa [hsame]) hlater
        rw [hsame] at hle hall heffects'
        refine ⟨k + 1, Nat.succ_le_succ hk, ?_⟩
        simp only [List.take_succ_cons, List.flatten_cons, ← List.append_assoc,
          List.length_cons, Nat.add_right_cancel_iff]
        refine ⟨hglobals', hstatus', hle, hall, ?_⟩
        intro e he
        exact (List.mem_append.mp he).elim (hstore e) (heffects' e)
      · -- the slice is complete, and the remaining events are not observed
        rw [hsame, if_pos hdone.symm, receiveRun_stopped _ (by simp), Option.some_inj] at hlater
        subst hlater
        have hone : ((piece :: pieces).take 1).flatten = piece := by simp
        refine ⟨1, by simp, ?_⟩
        rw [hone]
        refine ⟨rfl, ?_, hdone.le, fun hless => absurd hdone hless.ne,
          by simpa using hstore⟩
        rw [statusAfter, hsame, if_pos hdone.symm]

/-- **The run of a slice task.**  Whatever the cut, the state after each wake-up is
a function of the bytes consumed so far, and these never exceed the slice. -/
theorem receiveRun_slice {g : Globals} {first : List UInt8} {rest : List (List UInt8)}
    {events : List RecvEvent} {r : StepResult} (hslice : g.expectsHeader = false)
    (hreads : g.readsMaxBytes < 2 ^ 64)
    (hdelivers : List.Forall₂ Delivers (first :: rest) events)
    (hheader : kEachSliceHeaderLen ≤ first.length) (hpos : 1 ≤ (unmarshal first).cLen)
    (hfits : payloadLen first ≤ (unmarshal first).cLen)
    (hr : receiveRun g (.waiting {}) events = some r) :
    ∃ k, 1 ≤ k ∧ k ≤ (first :: rest).length ∧
      r.globals = globalsAfter g ((first :: rest).take k).flatten ∧
      r.status = statusAfter ((first :: rest).take k).flatten ∧
      payloadLen ((first :: rest).take k).flatten ≤ (unmarshal first).cLen ∧
      (payloadLen ((first :: rest).take k).flatten < (unmarshal first).cLen →
        k = (first :: rest).length) ∧
      ∀ e ∈ r.effects, e.Receives (unmarshal first).cLen := by
  obtain ⟨event, events, hfirst, hrest, rfl⟩ := List.forall₂_cons_left_iff.mp hdelivers
  obtain ⟨next, later, hnext, hlater, rfl⟩ := receiveRun_cons hr
  obtain ⟨hglobals, hstatus, heffects⟩ := receive_first hslice hreads hfirst hnext hheader
  have hstore : ∀ e ∈ next.effects, e.Receives (unmarshal first).cLen := by
    rw [heffects]
    by_cases hnone : payloadLen first = 0
    · simp [hnone, Effect.Receives]
    · simpa [hnone, Effect.Receives] using hfits
  have hstatus' : next.status = statusAfter first := by
    rw [hstatus, firstStatus]
    by_cases hnone : payloadLen first = 0
    · rw [if_pos hnone, statusAfter, if_neg (by omega)]
    · rw [if_neg hnone]
  rw [hglobals, hstatus', statusAfter] at hlater
  rcases hfits.lt_or_eq with hmore | hdone
  · rw [if_neg hmore.ne'] at hlater
    obtain ⟨k, hk, hglobals', hstatus', hle, hall, heffects'⟩ :=
      receiveRun_later hrest hheader hmore hlater
    refine ⟨k + 1, by omega, Nat.succ_le_succ hk, ?_⟩
    rw [List.take_succ_cons, List.flatten_cons, List.length_cons, Nat.add_right_cancel_iff]
    refine ⟨hglobals', hstatus', hle, hall, ?_⟩
    intro e he
    exact (List.mem_append.mp he).elim (hstore e) (heffects' e)
  · rw [if_pos hdone.symm, receiveRun_stopped _ (by simp), Option.some_inj] at hlater
    subst hlater
    have hone : ((first :: rest).take 1).flatten = first := by simp
    refine ⟨1, le_refl _, by simp, ?_⟩
    rw [hone]
    refine ⟨rfl, ?_, hdone.le, fun hless => absurd hdone hless.ne, by simpa using hstore⟩
    rw [statusAfter, if_pos hdone.symm]

end SliceTransfer.Server
