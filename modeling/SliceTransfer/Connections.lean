import SliceTransfer.Framing
import SliceTransfer.Receiver.Frame
import SliceTransfer.Lib.TransitionSystem

/-!
# The slice connections together

`connSystem` runs one `Recv` task for each slice connection against the shared
globals; a step is one wake-up of one task, which gets any part of what its stream
still has to offer.

The invariant is local: `Served` says where one connection stands, by the bytes it
has consumed.  Its own wake-ups keep it (`served_of_recvStep`), and so do the others,
since a wake-up changes only the entry of its slice and its range of the output
(`Changes`).  So once every task has returned zero, every slice is in its place
(`returned_inv`).
-/

namespace SliceTransfer.Server

open Bytes

/-! ## The system -/

/-- The bytes the reads of a wake-up get. -/
def RecvEvent.bytes : RecvEvent → List UInt8
  | .readable _ reads => reads.flatMap ReadResult.bytes
  | _ => []

structure ConnState where
  undelivered : ℕ → List UInt8
  globals : Globals
  status : ℕ → RecvStatus

/-- Connection `conn` wakes up. -/
structure WakeUp where
  conn : ℕ
  event : RecvEvent
  deriving DecidableEq, Repr

section System

variable {D : Type} (z : ZstdDecompress D) (fuel count : ℕ)

/-- The state after a wake-up of connection `conn` that got `bytes`. -/
def ConnState.settle (s : ConnState) (conn : ℕ) (bytes : List UInt8) (r : StepResult) :
    ConnState where
  undelivered := Function.update s.undelivered conn ((s.undelivered conn).drop bytes.length)
  globals := r.globals
  status := Function.update s.status conn r.status

def connStep (s : ConnState) (a : WakeUp) : Option ConnState :=
  if a.conn < count ∧ a.event.bytes <+: s.undelivered a.conn then
    match s.status a.conn with
    | .waiting task =>
        (recvStep z fuel s.globals task a.event).map (s.settle a.conn a.event.bytes)
    | _ => none
  else none

/-- The connections `0, …, count - 1`, with one stream each. -/
def connSystem (g : Globals) (streams : ℕ → List UInt8) : TransitionSystem ConnState WakeUp where
  init := ⟨streams, g, fun _ => .waiting {}⟩
  step := connStep z fuel count

end System

/-! ## One connection -/

/-- What the sender put on connection `conn`. -/
structure Shipment where
  content : List UInt8
  payload : List UInt8

def Shipment.header (ship : Shipment) (conn : ℕ) : SliceHeader :=
  ⟨conn, ship.content.length, ship.payload.length⟩

def Shipment.stream (ship : Shipment) (conn : ℕ) : List UInt8 :=
  sliceStream (ship.header conn) ship.payload

/-- The task of connection `conn` has processed `consumed` so far. -/
def Reading (g : Globals) (conn : ℕ) (consumed : List UInt8) (task : RecvTask) : Prop :=
  (task = {} ∧ consumed = []) ∨
    (task = ⟨false, conn⟩ ∧ kEachSliceHeaderLen ≤ consumed.length ∧
      g.mmap conn = some (entryAfter g consumed))

/-- Where connection `conn` stands, its slice going to `pos`. -/
def Served (ship : Shipment) (conn pos : ℕ) (g : Globals) (undelivered : List UInt8) :
    RecvStatus → Prop
  | .waiting task => ∃ consumed, consumed ++ undelivered = ship.stream conn ∧
      Reading g conn consumed task
  | .complete _ => False
  | .exited exit => exit = .returned 0 →
      ∃ file, g.start = some file ∧ window file pos ship.content.length = ship.content

/-- What a wake-up of connection `conn` may change: its entry, and a range of the
output from `pos` on. -/
def Changes (conn pos len : ℕ) (g g' : Globals) : Prop :=
  (∀ other, other ≠ conn → g'.mmap other = g.mmap other) ∧
    ∃ file bytes, g.start = some file ∧ g'.start = some (overwrite file pos bytes) ∧
      bytes.length ≤ len

/-- What a conforming sender puts on connection `conn`: a slice that lies in the file
from `pos` on, and a frame of it that zstd can decode. -/
structure Conforms {D : Type} (z : ZstdDecompress D) (fileSize pos conn : ℕ) (ship : Shipment) :
    Prop where
  announces : Announces (ship.header conn) ship.payload
  nonempty : ship.content ≠ []
  inside : pos + ship.content.length ≤ fileSize
  decodes : Decodes z ship.payload ship.content

/-- The task has ended without success. -/
def Failed : RecvStatus → Prop
  | .exited exit => exit ≠ .returned 0
  | _ => False

section Wake

variable {D : Type} {z : ZstdDecompress D} {fuel fileSize slicesNum : ℕ} {g : Globals}

theorem globalsAfter_eq_self {bytes : List UInt8}
    (h : g.mmap (unmarshal bytes).index = some (entryAfter g bytes)) :
    globalsAfter g bytes = g := by
  rw [globalsAfter, Globals.setInfo, ← h, Function.update_eq_self]

theorem not_complete_of_failed {status : RecvStatus} (h : Failed status) (index : ℕ) :
    status ≠ .complete index := by
  rintro rfl
  exact h

/-- A wake-up with a failing `read` ends the task. -/
theorem receive_failed {task : RecvTask} {stale : List UInt8} {reads : List ReadResult}
    {r : StepResult} (hr : receive g task (.readable stale reads) = some r)
    (herror : ReadResult.error ∈ reads) : Failed r.status := by
  rw [receive] at hr
  cases hbegin : beginRead g task with
  | error fault =>
      rw [hbegin] at hr
      cases hr
      exact Exit.noConfusion
  | ok entered =>
      rw [hbegin] at hr
      obtain ⟨outcome, hloop, rfl⟩ := Option.map_eq_some_iff.mp hr
      change Failed (afterRead entered.1 task stale outcome).status
      rw [afterRead, if_pos ((readLoop_failed hloop).mpr herror), readFailed]
      split
      · simp [Failed]
      · cases entered.1.mmap task.index with
        | none => exact Exit.noConfusion
        | some info => simp [Failed]

/-- The end of a slice whose frame has arrived. -/
theorem finishSlice_arrived {conn pos : ℕ} {info : FileSliceInfo} {file content frame : List UInt8}
    (fuel : ℕ) (hz : z.Bounded) (hinfo : g.mmap conn = some info) (hfile : g.start = some file)
    (hbuf : info.buf = some pos) (hframe : info.cBuf.take info.cLen = frame)
    (hlen : info.len = content.length) (hne : content ≠ []) (hlt : content.length < 2 ^ 64)
    (hdecodes : Decodes z frame content) :
    ∃ bytes exit, (finishSlice z fuel g conn).globals =
        { g with start := some (overwrite file pos bytes) } ∧
      (finishSlice z fuel g conn).status = .exited exit ∧ bytes.length ≤ content.length ∧
      (exit = .returned 0 → bytes = content) := by
  have hpos : info.len ≠ 0 := by
    rw [hlen]
    exact (List.length_pos_of_ne_nil hne).ne'
  have hlong : info.len < 2 ^ 64 := hlen ▸ hlt
  obtain ⟨bytes, hbytes⟩ : ∃ bytes, bytes = outputs (decompress z fuel frame info.len).1 :=
    ⟨_, rfl⟩
  have hstore : storeOutput g info (decompress z fuel frame info.len).1 =
      .ok { g with start := some (overwrite file pos bytes) } := by
    rw [storeOutput, hbuf, hfile, hbytes]
    simp only [storeWindows_decompress]
  refine ⟨bytes, exitFor info (decompress z fuel frame info.len).2, ?_, ?_, ?_, ?_⟩
  · simp only [finishSlice, hinfo, hframe, hstore]
  · simp only [finishSlice, hinfo, hframe, hstore]
  · rw [hbytes, ← hlen]
    exact length_outputs_decompress_le hpos hlong fuel frame hz
  · intro hexit
    cases hresult : (decompress z fuel frame info.len).2 with
    | none =>
        rw [hresult] at hexit
        cases hexit
    | some actWrSize =>
        rw [hresult, exitFor] at hexit
        have hok : actWrSize ≠ -1 := by
          rintro rfl
          cases hexit
        rw [hbytes]
        exact outputs_decompress hpos hlong fuel frame hz hlen hdecodes hok hresult

/-! ## Its own wake-ups -/

/-- A wake-up without a failing `read`, up to the completion test. -/
theorem reading_step {ship : Shipment} {conn : ℕ} {consumed piece more : List UInt8}
    {task : RecvTask} {event : RecvEvent} {r : StepResult}
    (hrecorded : g.Recorded fileSize slicesNum) (hann : Announces (ship.header conn) ship.payload)
    (hreading : Reading g conn consumed task)
    (hstream : consumed ++ piece ++ more = ship.stream conn) (hdelivers : Delivers piece event)
    (hr : receive g task event = some r) :
    Failed r.status ∨ kEachSliceHeaderLen ≤ (consumed ++ piece).length ∧
      r.globals = globalsAfter g (consumed ++ piece) ∧
      (r.status = .waiting ⟨false, conn⟩ ∨
        r.status = .complete conn ∧ consumed ++ piece = ship.stream conn) := by
  have hread : ∀ {bytes : List UInt8}, bytes ++ more = ship.stream conn →
      kEachSliceHeaderLen ≤ bytes.length → unmarshal bytes = ship.header conn :=
    fun heq hheader => unmarshal_of_append_eq hann heq hheader
  have hstatus : ∀ {bytes : List UInt8}, bytes ++ more = ship.stream conn →
      kEachSliceHeaderLen ≤ bytes.length → statusAfter bytes = .waiting ⟨false, conn⟩ ∨
        statusAfter bytes = .complete conn ∧ bytes = ship.stream conn := by
    intro bytes heq hheader
    rw [statusAfter, hread heq hheader]
    by_cases hall : ship.payload.length = payloadLen bytes
    · refine Or.inr ⟨if_pos hall, ?_⟩
      have hlen := congrArg List.length heq
      rw [List.length_append, Shipment.stream, length_sliceStream hann] at hlen
      have hcLen : (ship.header conn).cLen = ship.payload.length := rfl
      have hnone : more = [] := by
        rw [payloadLen] at hall
        exact List.length_eq_zero_iff.mp (by omega)
      rwa [hnone, List.append_nil] at heq
    · exact Or.inl (if_neg hall)
  rcases hreading with ⟨rfl, rfl⟩ | ⟨rfl, hheader, hinfo⟩
  · rw [List.nil_append] at hstream ⊢
    have hslice := hrecorded.expectsHeader
    by_cases hshort : piece.length < kEachSliceHeaderLen
    · rw [receive_first_short hslice hdelivers hr hshort]
      exact Or.inl Exit.noConfusion
    · have hheader := Nat.not_lt.mp hshort
      obtain ⟨hglobals, hfirst, -⟩ :=
        receive_first hslice hrecorded.readsMaxBytes_lt hdelivers hr hheader
      refine Or.inr ⟨hheader, hglobals, ?_⟩
      rw [hfirst, firstStatus]
      by_cases hnone : payloadLen piece = 0
      · rw [if_pos hnone, hread hstream hheader]
        exact Or.inl rfl
      · rw [if_neg hnone]
        exact hstatus hstream hheader
  · have hsame : unmarshal consumed = ship.header conn :=
      unmarshal_of_append_eq hann ((List.append_assoc ..).symm.trans hstream) hheader
    have hindex : (unmarshal consumed).index = conn := congrArg SliceHeader.index hsame
    have hself : globalsAfter g consumed = g := globalsAfter_eq_self (by rw [hindex, hinfo])
    have hlong : kEachSliceHeaderLen ≤ (consumed ++ piece).length :=
      hheader.trans (by rw [List.length_append]; exact Nat.le_add_right _ _)
    have hlt : payloadLen (consumed ++ piece) < 2 ^ 64 := by
      have hlen := congrArg List.length hstream
      have hcLen := hann.cLen_lt
      rw [List.length_append, Shipment.stream, length_sliceStream hann] at hlen
      rw [payloadLen]
      omega
    rw [← hself, ← hindex] at hr
    obtain ⟨hglobals, hlater, -⟩ := receive_later hheader hlt hdelivers hr
    refine Or.inr ⟨hlong, hglobals, ?_⟩
    rw [hlater]
    exact hstatus hstream hlong

/-- The fields of an entry do not depend on when it was made. -/
theorem Globals.Recorded.entryAfter_eq {g' : Globals} (h : g.Recorded fileSize slicesNum)
    (h' : g'.Recorded fileSize slicesNum) (bytes : List UInt8) :
    entryAfter g bytes = entryAfter g' bytes := by
  obtain ⟨file, hfile, -⟩ := h.start_eq
  obtain ⟨file', hfile', -⟩ := h'.start_eq
  simp [entryAfter, newInfo, hfile, hfile', bufOffset, h.splitLen_eq, h'.splitLen_eq]

theorem changes_refl (conn pos len : ℕ) (hrecorded : g.Recorded fileSize slicesNum) :
    Changes conn pos len g g := by
  obtain ⟨file, hfile, -⟩ := hrecorded.start_eq
  exact ⟨fun _ _ => rfl, file, [], hfile, by rwa [overwrite_nil], Nat.zero_le _⟩

theorem changes_setInfo {conn : ℕ} (pos len : ℕ) (hrecorded : g.Recorded fileSize slicesNum)
    (info : FileSliceInfo) : Changes conn pos len g (g.setInfo conn info) := by
  obtain ⟨file, hfile, -⟩ := hrecorded.start_eq
  refine ⟨fun other hother => Function.update_of_ne hother _ _, file, [], hfile, ?_,
    Nat.zero_le _⟩
  rw [overwrite_nil]
  exact hfile

section Own

variable {ship : Shipment} {conn pos : ℕ}

theorem globalsAfter_eq_setInfo {bytes more : List UInt8}
    (hann : Announces (ship.header conn) ship.payload) (hstream : bytes ++ more = ship.stream conn)
    (hheader : kEachSliceHeaderLen ≤ bytes.length) :
    globalsAfter g bytes = g.setInfo conn (entryAfter g bytes) := by
  rw [globalsAfter, unmarshal_of_append_eq hann hstream hheader]
  rfl

/-- The end of a slice, its whole stream having been consumed. -/
theorem served_of_arrived (fuel : ℕ) (hz : z.Bounded) (hrecorded : g.Recorded fileSize slicesNum)
    (hpos : bufOffset g conn = pos) (h : Conforms z fileSize pos conn ship) :
    ∃ exit, (finishSlice z fuel (globalsAfter g (ship.stream conn)) conn).status = .exited exit ∧
      Changes conn pos ship.content.length g
        (finishSlice z fuel (globalsAfter g (ship.stream conn)) conn).globals ∧
      ∀ undelivered, Served ship conn pos
        (finishSlice z fuel (globalsAfter g (ship.stream conn)) conn).globals undelivered
        (.exited exit) := by
  have hwhole : ship.stream conn ++ [] = ship.stream conn := List.append_nil _
  have hheader : kEachSliceHeaderLen ≤ (ship.stream conn).length := by
    rw [Shipment.stream, length_sliceStream h.announces]
    exact Nat.le_add_right _ _
  have hread : unmarshal (ship.stream conn) = ship.header conn :=
    unmarshal_of_append_eq h.announces hwhole hheader
  obtain ⟨file, hfile, hsize⟩ := hrecorded.start_eq
  have hbuf : (entryAfter g (ship.stream conn)).buf = some pos := by
    rw [entryAfter_buf hrecorded, hread, ← hpos]
    rfl
  have hframe : (entryAfter g (ship.stream conn)).cBuf.take
      (entryAfter g (ship.stream conn)).cLen = ship.payload := by
    change ((ship.stream conn).drop kEachSliceHeaderLen).take
      (unmarshal (ship.stream conn)).cLen = ship.payload
    have hdrop : (ship.stream conn).drop kEachSliceHeaderLen = ship.payload := by
      rw [Shipment.stream, sliceStream, List.drop_left' (length_headerBytes ..)]
    rw [hdrop, hread]
    exact List.take_length
  have hlen : (entryAfter g (ship.stream conn)).len = ship.content.length :=
    congrArg SliceHeader.len hread
  have hlt : ship.content.length < 2 ^ 64 := h.announces.len_lt.trans (by decide)
  obtain ⟨bytes, exit, hglobals, hstatus, hle, hsuccess⟩ := finishSlice_arrived fuel hz
    (setInfo_mmap_self g conn (entryAfter g (ship.stream conn))) hfile hbuf hframe hlen h.nonempty
    hlt h.decodes
  rw [globalsAfter_eq_setInfo h.announces hwhole hheader, hglobals]
  refine ⟨exit, hstatus, ⟨?_, file, bytes, hfile, rfl, hle⟩, ?_⟩
  · exact fun other hother => Function.update_of_ne hother _ _
  · intro undelivered hexit
    obtain rfl := hsuccess hexit
    exact ⟨_, rfl, window_overwrite_self (hsize ▸ h.inside)⟩

/-- **A wake-up keeps the connection served, unless the task fails.** -/
theorem served_of_recvStep {undelivered : List UInt8} {task : RecvTask} {event : RecvEvent}
    {r : StepResult} (hz : z.Bounded) (hrecorded : g.Recorded fileSize slicesNum)
    (hpos : bufOffset g conn = pos) (h : Conforms z fileSize pos conn ship)
    (hserved : Served ship conn pos g undelivered (.waiting task))
    (hbytes : event.bytes <+: undelivered) (hr : recvStep z fuel g task event = some r) :
    Failed r.status ∨ Changes conn pos ship.content.length g r.globals ∧
      Served ship conn pos r.globals (undelivered.drop event.bytes.length) r.status := by
  obtain ⟨before, hbefore, rfl⟩ := Option.map_eq_some_iff.mp hr
  by_cases hfailed : Failed before.status
  · rw [finish_of_not_complete fuel (not_complete_of_failed hfailed)]
    exact Or.inl hfailed
  right
  cases event with
  | epollFailed =>
      cases hbefore
      exact absurd (by simp [Failed]) hfailed
  | notReadable =>
      cases hbefore
      rw [finish_of_not_complete fuel fun _ => RecvStatus.noConfusion]
      exact ⟨changes_refl conn pos _ hrecorded, hserved⟩
  | readable stale reads =>
      have hclean : ReadResult.error ∉ reads := fun herror =>
        hfailed (receive_failed hbefore herror)
      obtain ⟨consumed, hstream, hreading⟩ := hserved
      obtain ⟨more, hmore⟩ := hbytes
      rw [← hmore, List.drop_left]
      rw [← hmore, ← List.append_assoc] at hstream
      obtain hnow | ⟨hheader, hglobals, hstatus⟩ := reading_step hrecorded h.announces hreading
        hstream ⟨stale, reads, hclean, rfl⟩ hbefore
      · exact absurd hnow hfailed
      rcases hstatus with hwaiting | ⟨hcomplete, hall⟩
      · rw [finish_of_not_complete fuel fun _ => hwaiting ▸ RecvStatus.noConfusion, hwaiting,
          hglobals, globalsAfter_eq_setInfo h.announces hstream hheader]
        refine ⟨changes_setInfo pos _ hrecorded _, _, hstream, Or.inr ⟨rfl, hheader, ?_⟩⟩
        rw [setInfo_mmap_self, (hrecorded.setInfo conn _).entryAfter_eq hrecorded]
      · obtain ⟨exit, hexit, hchanges, hdone⟩ := served_of_arrived fuel hz hrecorded hpos h
        rw [StepResult.finish, hcomplete]
        simp only [hglobals, RecvEvent.bytes] at hall ⊢
        rw [hall, hexit]
        exact ⟨hchanges, hdone more⟩

end Own

/-! ## The wake-ups of the others -/

theorem served_of_changes {ship : Shipment} {conn other pos otherPos len : ℕ} {g' : Globals}
    {undelivered : List UInt8} {status : RecvStatus} (hrecorded : g.Recorded fileSize slicesNum)
    (hrecorded' : g'.Recorded fileSize slicesNum) (hchanges : Changes conn pos len g g')
    (hother : other ≠ conn)
    (hapart : otherPos + ship.content.length ≤ pos ∨ pos + len ≤ otherPos)
    (h : Served ship other otherPos g undelivered status) :
    Served ship other otherPos g' undelivered status := by
  obtain ⟨hentries, file, bytes, hfile, hfile', hlen⟩ := hchanges
  cases status with
  | waiting task =>
      obtain ⟨consumed, hstream, hreading⟩ := h
      refine ⟨consumed, hstream, ?_⟩
      rcases hreading with hfresh | ⟨htask, hheader, hinfo⟩
      · exact Or.inl hfresh
      · refine Or.inr ⟨htask, hheader, ?_⟩
        rw [hentries other hother, hinfo, hrecorded.entryAfter_eq hrecorded']
  | complete index => exact h
  | exited exit =>
      intro hexit
      obtain ⟨written, hwritten, hwindow⟩ := h hexit
      obtain rfl : file = written := Option.some_inj.mp (hfile.symm.trans hwritten)
      refine ⟨_, hfile', ?_⟩
      rw [window_overwrite_of_disjoint (by omega), hwindow]

end Wake

/-! ## Whole runs -/

/-- The streams of all connections carry slices, each with a range of its own. -/
structure Shipments {D : Type} (z : ZstdDecompress D) (fileSize slicesNum count : ℕ)
    (streams : ℕ → List UInt8) (ships : ℕ → Shipment) : Prop where
  stream_eq : ∀ conn < count, streams conn = (ships conn).stream conn
  conforms : ∀ conn < count,
    Conforms z fileSize (conn * (fileSize / slicesNum)) conn (ships conn)
  apart : ∀ conn other, conn < other → other < count →
    conn * (fileSize / slicesNum) + (ships conn).content.length ≤ other * (fileSize / slicesNum)

section Runs

variable {D : Type} {z : ZstdDecompress D} {fuel fileSize slicesNum count : ℕ}
  {streams : ℕ → List UInt8} {ships : ℕ → Shipment} {s : ConnState}

theorem Globals.Recorded.bufOffset_eq {g : Globals} (h : g.Recorded fileSize slicesNum) {conn : ℕ}
    (hlt : conn * (fileSize / slicesNum) < 2 ^ 64) :
    bufOffset g conn = conn * (fileSize / slicesNum) := by
  rw [bufOffset, h.splitLen_eq, Nat.mod_eq_of_lt hlt]

/-- What holds between two wake-ups, as long as no task has failed. -/
def AllServed (fileSize slicesNum count : ℕ) (ships : ℕ → Shipment) (s : ConnState) : Prop :=
  ∀ conn < count, Served (ships conn) conn (conn * (fileSize / slicesNum)) s.globals
    (s.undelivered conn) (s.status conn)

theorem connStep_cases {s' : ConnState} {a : WakeUp} (h : connStep z fuel count s a = some s') :
    a.conn < count ∧ a.event.bytes <+: s.undelivered a.conn ∧
      ∃ task r, s.status a.conn = .waiting task ∧
        recvStep z fuel s.globals task a.event = some r ∧
        s' = s.settle a.conn a.event.bytes r := by
  rw [connStep] at h
  split at h
  · rename_i henabled
    obtain ⟨hconn, hbytes⟩ := henabled
    refine ⟨hconn, hbytes, ?_⟩
    cases hstatus : s.status a.conn with
    | waiting task =>
        rw [hstatus] at h
        obtain ⟨r, hr, rfl⟩ := Option.map_eq_some_iff.mp h
        exact ⟨task, r, rfl, hr, rfl⟩
    | complete index => rw [hstatus] at h; cases h
    | exited exit => rw [hstatus] at h; cases h
  · cases h

theorem allServed_settle {conn : ℕ} {task : RecvTask} {event : RecvEvent} {r : StepResult}
    (hz : z.Bounded) (hsize : fileSize < 2 ^ 64)
    (hships : Shipments z fileSize slicesNum count streams ships)
    (hrecorded : s.globals.Recorded fileSize slicesNum)
    (h : AllServed fileSize slicesNum count ships s) (hconn : conn < count)
    (hbytes : event.bytes <+: s.undelivered conn) (hstatus : s.status conn = .waiting task)
    (hr : recvStep z fuel s.globals task event = some r) :
    Failed r.status ∨ AllServed fileSize slicesNum count ships (s.settle conn event.bytes r) := by
  have hconforms := hships.conforms conn hconn
  have hpos : bufOffset s.globals conn = conn * (fileSize / slicesNum) :=
    hrecorded.bufOffset_eq (by have := hconforms.inside; omega)
  have hown := h conn hconn
  rw [hstatus] at hown
  obtain hfailed | ⟨hchanges, hserved⟩ :=
    served_of_recvStep hz hrecorded hpos hconforms hown hbytes hr
  · exact Or.inl hfailed
  refine Or.inr ?_
  intro other hother
  by_cases hsame : other = conn
  · subst hsame
    simpa [ConnState.settle] using hserved
  · have hapart : other * (fileSize / slicesNum) + (ships other).content.length ≤
          conn * (fileSize / slicesNum) ∨
        conn * (fileSize / slicesNum) + (ships conn).content.length ≤
          other * (fileSize / slicesNum) := by
      rcases Nat.lt_or_gt_of_ne hsame with hlow | hhigh
      · exact Or.inl (hships.apart other conn hlow hconn)
      · exact Or.inr (hships.apart conn other hhigh hother)
    have hkept := served_of_changes hrecorded (hrecorded.recvStep hr) hchanges hsame hapart
      (h other hother)
    simpa [ConnState.settle, hsame] using hkept

theorem recorded_or_allServed {g : Globals} (hz : z.Bounded) (hsize : fileSize < 2 ^ 64)
    (hships : Shipments z fileSize slicesNum count streams ships)
    (hrecorded : g.Recorded fileSize slicesNum)
    (hs : (connSystem z fuel count g streams).Reachable s) :
    s.globals.Recorded fileSize slicesNum ∧
      ((∃ conn < count, Failed (s.status conn)) ∨
        AllServed fileSize slicesNum count ships s) := by
  refine hs.invariant (I := fun s => s.globals.Recorded fileSize slicesNum ∧
      ((∃ conn < count, Failed (s.status conn)) ∨
        AllServed fileSize slicesNum count ships s)) ⟨hrecorded, Or.inr ?_⟩ ?_
  · exact fun conn hconn => ⟨[], hships.stream_eq conn hconn, Or.inl ⟨rfl, rfl⟩⟩
  · intro s a s' hinv hstep
    obtain ⟨hrecorded, hinv⟩ := hinv
    obtain ⟨hconn, hbytes, task, r, hstatus, hr, rfl⟩ := connStep_cases hstep
    refine ⟨hrecorded.recvStep hr, ?_⟩
    rcases hinv with ⟨other, hother, hfailed⟩ | hserved
    · -- a task that has failed stays so, and it is not the one that woke up
      have hne : other ≠ a.conn := by
        rintro rfl
        rw [hstatus] at hfailed
        exact hfailed
      refine Or.inl ⟨other, hother, ?_⟩
      simpa [ConnState.settle, hne] using hfailed
    · rcases allServed_settle hz hsize hships hrecorded hserved hconn hbytes hstatus hr with
        hfailed | hserved'
      · exact Or.inl ⟨a.conn, hconn, by simpa [ConnState.settle] using hfailed⟩
      · exact Or.inr hserved'

/-- **When all tasks have returned zero, every slice is in its place.** -/
theorem window_of_returned {g : Globals} (hz : z.Bounded) (hsize : fileSize < 2 ^ 64)
    (hships : Shipments z fileSize slicesNum count streams ships)
    (hrecorded : g.Recorded fileSize slicesNum)
    (hs : (connSystem z fuel count g streams).Reachable s)
    (hall : ∀ conn < count, s.status conn = .exited (.returned 0)) :
    ∃ file, s.globals.start = some file ∧ file.length = fileSize ∧ ∀ conn < count,
      window file (conn * (fileSize / slicesNum)) (ships conn).content.length =
        (ships conn).content := by
  obtain ⟨hstill, hinv⟩ := recorded_or_allServed hz hsize hships hrecorded hs
  obtain ⟨file, hfile, hlen⟩ := hstill.start_eq
  refine ⟨file, hfile, hlen, fun conn hconn => ?_⟩
  rcases hinv with ⟨other, hother, hfailed⟩ | hserved
  · rw [hall other hother] at hfailed
    exact absurd rfl hfailed
  · have hdone := hserved conn hconn
    rw [hall conn hconn] at hdone
    obtain ⟨written, hwritten, hwindow⟩ := hdone rfl
    obtain rfl : file = written := Option.some_inj.mp (hfile.symm.trans hwritten)
    exact hwindow

end Runs

end SliceTransfer.Server
