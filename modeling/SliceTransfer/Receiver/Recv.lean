import SliceTransfer.Receiver.Header
import SliceTransfer.Receiver.Decompress

/-!
# One wake-up of `Recv`

`Server::Recv` waits in `epoll_wait`, reads what the connection has to offer, up
to a budget, and processes it.  The definitions follow the loop body from top to
bottom:

* `beginRead`: the choice of the read buffer and of the budget `n_left`;
* `readOnce`, `readLoop`: the bounded read loop;
* `headerBranch`, `firstSliceRead`, `laterSliceRead`: the three things that can
  happen to the bytes, put together in `afterRead`;
* `finishSlice`: the decompression of a complete slice.

`receive` is a wake-up up to the completion test, which does not depend on zstd;
`recvStep` adds `finishSlice`.  A step also records its `Effect`s, what it does to
memory and to the descriptors.
-/

namespace SliceTransfer.Server

open Bytes

/-! ## The read loop -/

/-- What one `read` reports.  Empty data is the end of the stream. -/
inductive ReadResult
  | data (bytes : List UInt8)
  | eagain
  | eintr
  | error
  deriving DecidableEq, Repr

/-- The read buffer when the loop is left, and whether `IsSocketError` was the reason. -/
structure ReadEnd where
  bytes : List UInt8
  failed : Bool
  deriving DecidableEq, Repr

inductive ReadProgress
  | again (bytes : List UInt8)
  | stop (outcome : ReadEnd)
  deriving DecidableEq, Repr

/-- One iteration of the read loop, `bytes` having been read before.  A `read` never
returns more than it was asked for, so other results are impossible. -/
def readOnce (nLeft : ℕ) (bytes : List UInt8) : ReadResult → Option ReadProgress
  | .error => some (.stop ⟨bytes, true⟩)
  | .eagain => some (.stop ⟨bytes, false⟩)
  | .eintr =>
      -- `continue` goes on with the loop condition, and `num_read` is -1
      some (if bytes.length = nLeft then .stop ⟨bytes, false⟩ else .again bytes)
  | .data more =>
      if nLeft < bytes.length + more.length then none
      else if bytes.length + more.length = nLeft ∨ more = [] then
        some (.stop ⟨bytes ++ more, false⟩)
      else some (.again (bytes ++ more))

/-- The read loop on the results of its calls of `read`; they have to be exactly
those the loop asks for. -/
def readLoop (nLeft : ℕ) : List UInt8 → List ReadResult → Option ReadEnd
  | _, [] => none
  | bytes, result :: rest =>
      match readOnce nLeft bytes result with
      | none => none
      | some (.again bytes) => readLoop nLeft bytes rest
      | some (.stop outcome) => if rest = [] then some outcome else none

/-! ## The state of a task -/

/-- The local variables of `Recv` that survive a wake-up. -/
structure RecvTask where
  isFirstRecv : Bool := true
  index : ℕ := 0
  deriving DecidableEq, Repr

/-- Where a task is between two wake-ups.  `complete` is the state in which the
slice has arrived and `Decompress` is about to be called. -/
inductive RecvStatus
  | waiting (task : RecvTask)
  | complete (index : ℕ)
  | exited (exit : Exit)
  deriving DecidableEq, Repr

/-- What a step does to memory and to the descriptors.  Ranges in `c_buf_` are
relative to its start, ranges offered to zstd relative to `start_`. -/
inductive Effect
  | allocReadBuf (size : ℕ)
  | freeReadBuf
  | freeCBufAt (offset : ℕ)
  | allocCBuf (size : ℕ)
  | storeCBuf (start stop : ℕ)
  | offerOut (start size : ℕ)
  | closeConn
  | closeEpoll
  deriving DecidableEq, Repr

structure StepResult where
  globals : Globals
  status : RecvStatus
  effects : List Effect

/-- The test, made twice, that sends a first read to the header branch. -/
def Globals.expectsHeader (g : Globals) : Bool := g.splitLen == 0 && g.start.isNone

theorem Globals.Recorded.expectsHeader {fileSize slicesNum : ℕ} {g : Globals}
    (h : g.Recorded fileSize slicesNum) : g.expectsHeader = false := by
  obtain ⟨file, hfile, -⟩ := h.start_eq
  simp [Globals.expectsHeader, hfile]

/-! ## Before the read loop -/

/-- The budget of a later read: zero stands for "no limit but `reads_max_bytes_`". -/
def laterBudget (readsMaxBytes : ℕ) (info : FileSliceInfo) : ℕ :=
  let curReadRest :=
    if subSizeT info.cLen info.offset < readsMaxBytes then subSizeT info.cLen info.offset else 0
  if curReadRest ≠ 0 then curReadRest else readsMaxBytes

/-- The globals and the budget with which the read loop is entered. -/
def beginRead (g : Globals) (task : RecvTask) : Except Fault (Globals × ℕ) :=
  if task.isFirstRecv then
    if g.expectsHeader then
      .ok ({ g with readsMaxBytes := kFileSliceHeaderLen + 1 }, kFileSliceHeaderLen + 1)
    else .ok (g, g.readsMaxBytes)
  else
    match g.mmap task.index with
    | none => .error .nullPointer
    | some info => .ok (g, laterBudget g.readsMaxBytes info)

/-! ## After the read loop -/

/-- The ten header bytes of a slice stream. -/
structure SliceHeader where
  index : ℕ
  len : ℕ
  cLen : ℕ
  deriving DecidableEq, Repr

/-- The three `memcpy` and `ntoh` pairs. -/
def unmarshal (buf : List UInt8) : SliceHeader where
  index := ofBigEndian (window buf 0 2)
  len := ofBigEndian (window buf 2 4)
  cLen := ofBigEndian (window buf 6 4)

/-- `mmap_[index] = info`. -/
def Globals.setInfo (g : Globals) (index : ℕ) (info : FileSliceInfo) : Globals :=
  { g with mmap := Function.update g.mmap index (some info) }

/-- `bytes` stored at `c_buf_ + offset`. -/
def FileSliceInfo.store (info : FileSliceInfo) (offset : ℕ) (bytes : List UInt8) : FileSliceInfo :=
  { info with
    cBuf := info.cBuf.take offset ++ bytes ++ info.cBuf.drop (offset + bytes.length) }

/-- The entry the first read of a slice registers. -/
def newInfo (g : Globals) (header : SliceHeader) : FileSliceInfo where
  index := header.index
  cLen := header.cLen
  recvLen := 0
  len := header.len
  offset := 0
  buf := g.start.map fun _ => bufOffset g header.index
  cBuf := []

/-- `offset_ += num_read`, then the completion test. -/
def advance (g : Globals) (index : ℕ) (info : FileSliceInfo) (numRead : ℕ) :
    Globals × RecvStatus :=
  let info := { info with offset := (info.offset + numRead) % 2 ^ 64 }
  (g.setInfo index info,
    if info.cLen = info.offset then .complete index else .waiting ⟨false, index⟩)

/-- The header branch: the buffer and the descriptors are released on every
`return`, but not when `stoul` throws or the division traps. -/
def headerBranch (g : Globals) (bytes : List UInt8) : StepResult :=
  let (g, exit) := processHeader bytes g
  ⟨g, .exited exit,
    match exit with
    | .returned _ => [.freeReadBuf, .closeConn, .closeEpoll]
    | _ => []⟩

/-- The first read of a slice; `stale` is what `malloc` left behind the bytes read. -/
def firstSliceRead (g : Globals) (bytes stale : List UInt8) : StepResult :=
  let header := unmarshal (bytes ++ stale)
  let info := newInfo g header
  if bytes.length < kEachSliceHeaderLen then
    -- the length of the copy is negative
    ⟨g.setInfo header.index info, .exited (.faulted .negativeCopy), [.allocCBuf header.cLen]⟩
  else if bytes.length = kEachSliceHeaderLen then
    ⟨g.setInfo header.index info, .waiting ⟨false, header.index⟩,
      [.allocCBuf header.cLen, .freeReadBuf]⟩
  else
    let payload := bytes.drop kEachSliceHeaderLen
    let (g, status) := advance g header.index (info.store 0 payload) payload.length
    ⟨g, status, [.allocCBuf header.cLen, .storeCBuf 0 payload.length, .freeReadBuf]⟩

/-- A later read of a slice: the bytes are in `c_buf_` already. -/
def laterSliceRead (g : Globals) (task : RecvTask) (info : FileSliceInfo) (bytes : List UInt8) :
    StepResult :=
  let (g, status) := advance g task.index (info.store info.offset bytes) bytes.length
  ⟨g, status, [.storeCBuf info.offset (info.offset + bytes.length)]⟩

/-- `read` failed: `read_buf` is freed, wherever it points. -/
def readFailed (g : Globals) (task : RecvTask) (bytes : List UInt8) : StepResult :=
  let exit : RecvStatus := .exited (.returned (-1))
  if task.isFirstRecv then ⟨g, exit, [.freeReadBuf, .closeConn, .closeEpoll]⟩
  else
    match g.mmap task.index with
    | none => ⟨g, .exited (.faulted .nullPointer), []⟩
    | some info =>
        ⟨g.setInfo task.index (info.store info.offset bytes), exit,
          [.storeCBuf info.offset (info.offset + bytes.length), .freeCBufAt info.offset,
            .closeConn, .closeEpoll]⟩

/-- Everything between the read loop and the decompression. -/
def afterRead (g : Globals) (task : RecvTask) (stale : List UInt8) (outcome : ReadEnd) :
    StepResult :=
  if outcome.failed then readFailed g task outcome.bytes
  else if task.isFirstRecv then
    if g.expectsHeader then headerBranch g outcome.bytes
    else firstSliceRead g outcome.bytes stale
  else
    match g.mmap task.index with
    | none => ⟨g, .exited (.faulted .nullPointer), []⟩
    | some info => laterSliceRead g task info outcome.bytes

/-! ## A wake-up -/

/-- How `epoll_wait` returns, with what the connection then has to offer. -/
inductive RecvEvent
  | epollFailed
  | notReadable
  | readable (stale : List UInt8) (reads : List ReadResult)
  deriving DecidableEq, Repr

/-- A wake-up up to the completion test; `none` when the reads are not those the
task asks for. -/
def receive (g : Globals) (task : RecvTask) : RecvEvent → Option StepResult
  | .epollFailed => some ⟨g, .exited (.returned (-1)), []⟩
  | .notReadable => some ⟨g, .waiting task, []⟩
  | .readable stale reads =>
      match beginRead g task with
      | .error fault => some ⟨g, .exited (.faulted fault), []⟩
      | .ok (g, nLeft) =>
          (readLoop nLeft [] reads).map fun outcome =>
            let after := afterRead g task stale outcome
            { after with
              effects := (if task.isFirstRecv then [.allocReadBuf nLeft] else []) ++ after.effects }

/-! ## Decompression -/

section Zstd

variable {D : Type} (z : ZstdDecompress D) (fuel : ℕ)

/-- The output file after the calls; storing through a null `buf_` traps. -/
def storeOutput (g : Globals) (info : FileSliceInfo) (windows : List OutWindow) :
    Except Fault Globals :=
  match info.buf, g.start with
  | some buf, some file => .ok { g with start := some (storeWindows file buf windows) }
  | _, _ => if outputs windows = [] then .ok g else .error .nullPointer

/-- The value `Recv` returns for the value of `Decompress`, which is an `int` and
is compared with a `size_t`. -/
def exitFor (info : FileSliceInfo) : Option ℤ → Exit
  | none => .faulted .unfinished
  | some actWrSize =>
      if actWrSize = -1 then .returned (-1)
      else if sizeT actWrSize = info.len then .returned 0 else .returned (-1)

/-- What follows a successful completion test. -/
def finishSlice (g : Globals) (index : ℕ) : StepResult :=
  match g.mmap index with
  | none => ⟨g, .exited (.faulted .nullPointer), []⟩
  | some info =>
      let (windows, actWrSize) := decompress z fuel (info.cBuf.take info.cLen) info.len
      let offers := windows.map fun w => Effect.offerOut (info.buf.getD 0 + w.start) w.size
      match storeOutput g info windows with
      | .error fault => ⟨g, .exited (.faulted fault), offers⟩
      | .ok g =>
          ⟨g, .exited (exitFor info actWrSize),
            offers ++ (if actWrSize.isSome then [.closeConn, .closeEpoll] else [])⟩

/-- Decompress when the slice is complete. -/
def StepResult.finish (r : StepResult) : StepResult :=
  match r.status with
  | .complete index =>
      let last := finishSlice z fuel r.globals index
      { last with effects := r.effects ++ last.effects }
  | _ => r

variable {z} in
theorem finish_of_not_complete {r : StepResult} (hstatus : ∀ index, r.status ≠ .complete index) :
    r.finish z fuel = r := by
  rw [StepResult.finish]
  split
  · exact absurd ‹_› (hstatus _)
  · rfl

/-- One wake-up of `Recv`. -/
def recvStep (g : Globals) (task : RecvTask) (event : RecvEvent) : Option StepResult :=
  (receive g task event).map (StepResult.finish z fuel)

end Zstd

end SliceTransfer.Server
