import SliceTransfer.Framing
import SliceTransfer.Lib.TransitionSystem

/-!
# The edge-triggered wait

`Recv` registers its connection with `EPOLLET`: `epoll_wait` returns once for each
edge, that is when bytes or the FIN have arrived since it returned last.  The system
`linkSystem g stream` delivers a slice stream byte by byte, in any order relative to
the single calls of `Recv`: `epoll_ctl`, `epoll_wait`, each `read`.

The read loop may stop for three reasons.  After `EAGAIN` nothing is left in the
socket, and after the end of the stream nothing is left at all; but when the budget
is used up, bytes may stay behind for which no edge will ever come.  `Drained` is the
invariant; it holds in all runs exactly when the budget covers the whole stream
(`stuck_iff`).
-/

namespace SliceTransfer

open Server

/-! ## The system -/

/-- Where the task is. -/
inductive LinkPhase
  | adding
  | waiting (task : RecvTask)
  | reading (task : RecvTask) (nLeft : ℕ) (bytes : List UInt8)
  | left (status : RecvStatus)
  deriving DecidableEq, Repr

/-- `edge` is the pending flag of epoll, `fin` says that the FIN has arrived. -/
structure LinkState where
  undelivered : List UInt8
  fin : Bool
  socket : List UInt8
  edge : Bool
  globals : Globals
  phase : LinkPhase

inductive LinkAction
  | arrive (count : ℕ)
  | arriveFin
  | add
  | wait
  | interrupt (stale : List UInt8)
  | read (stale : List UInt8)
  deriving DecidableEq, Repr

/-- What `read` reports when `asked` bytes are asked for. -/
def LinkState.readResult (s : LinkState) (asked : ℕ) : ReadResult :=
  if s.socket ≠ [] then .data (s.socket.take asked)
  else if s.fin then .data [] else .eagain

/-- The state after the read loop was left. -/
def LinkState.leaveLoop (s : LinkState) (task : RecvTask) (stale : List UInt8)
    (outcome : ReadEnd) : LinkState :=
  let after := afterRead s.globals task stale outcome
  { s with
    globals := after.globals
    phase := match after.status with
      | .waiting task => .waiting task
      | status => .left status }

/-- One iteration of the read loop, which gets `result`. -/
def LinkState.iterate (s : LinkState) (stale : List UInt8) (result : ReadResult) :
    Option LinkState :=
  match s.phase with
  | .reading task nLeft bytes =>
      (readOnce nLeft bytes result).map fun progress =>
        let s := { s with socket := s.socket.drop result.bytes.length }
        match progress with
        | .again bytes => { s with phase := .reading task nLeft bytes }
        | .stop outcome => s.leaveLoop task stale outcome
  | _ => none

def linkStep (s : LinkState) : LinkAction → Option LinkState
  | .arrive count =>
      if 0 < count ∧ count ≤ s.undelivered.length then
        some { s with
          undelivered := s.undelivered.drop count
          socket := s.socket ++ s.undelivered.take count
          edge := true }
      else none
  | .arriveFin =>
      if s.undelivered = [] ∧ s.fin = false then some { s with fin := true, edge := true } else none
  | .add =>
      -- a descriptor that is readable when it is added is pending at once
      if s.phase = .adding then
        some { s with edge := decide (s.socket ≠ []) || s.fin, phase := .waiting {} }
      else none
  | .wait =>
      match s.phase with
      | .waiting task =>
          if s.edge then
            match beginRead s.globals task with
            | .ok (g, nLeft) =>
                some { s with edge := false, globals := g, phase := .reading task nLeft [] }
            | .error fault =>
                some { s with edge := false, phase := .left (.exited (.faulted fault)) }
          else none
      | _ => none
  | .interrupt stale => s.iterate stale .eintr
  | .read stale =>
      match s.phase with
      | .reading _ nLeft bytes => s.iterate stale (s.readResult (nLeft - bytes.length))
      | _ => none

/-- A connection on which `stream` is sent, accepted by a receiver with globals `g`. -/
def linkSystem (g : Globals) (stream : List UInt8) : TransitionSystem LinkState LinkAction where
  init := ⟨stream, false, [], false, g, .adding⟩
  step := linkStep

/-- Everything has been delivered, `Recv` waits for an edge that will not come, and
the slice is not complete. -/
def Stuck (s : LinkState) : Prop :=
  ∃ task, s.phase = .waiting task ∧ s.edge = false ∧ s.undelivered = [] ∧ s.fin = true ∧
    (task.isFirstRecv = true ∨
      ∃ info, s.globals.mmap task.index = some info ∧ info.offset < info.cLen)

/-! ## What a step does -/

/-- A call of `read` that asks for `asked` bytes, and what it gets. -/
inductive Calls (s : LinkState) (asked : ℕ) (stale : List UInt8) :
    LinkAction → ReadResult → Prop
  | interrupt : Calls s asked stale (.interrupt stale) .eintr
  | read : Calls s asked stale (.read stale) (s.readResult asked)

/-- The steps of the link, one constructor for each thing that can happen. -/
inductive LinkNext (s : LinkState) : LinkAction → LinkState → Prop
  | arrive {count : ℕ} (hpos : 0 < count) (hle : count ≤ s.undelivered.length) :
      LinkNext s (.arrive count) { s with
        undelivered := s.undelivered.drop count
        socket := s.socket ++ s.undelivered.take count
        edge := true }
  | arriveFin (hall : s.undelivered = []) :
      LinkNext s .arriveFin { s with fin := true, edge := true }
  | add (hadding : s.phase = .adding) :
      LinkNext s .add { s with edge := decide (s.socket ≠ []) || s.fin, phase := .waiting {} }
  | wait {task : RecvTask} {g : Globals} {nLeft : ℕ} (hwaiting : s.phase = .waiting task)
      (hbegin : beginRead s.globals task = .ok (g, nLeft)) :
      LinkNext s .wait { s with edge := false, globals := g, phase := .reading task nLeft [] }
  | fault {task : RecvTask} {fault : Fault} (hwaiting : s.phase = .waiting task)
      (hbegin : beginRead s.globals task = .error fault) :
      LinkNext s .wait { s with edge := false, phase := .left (.exited (.faulted fault)) }
  | again {a : LinkAction} {task : RecvTask} {nLeft : ℕ} {bytes stale : List UInt8}
      {result : ReadResult} (hreading : s.phase = .reading task nLeft bytes)
      (hcall : Calls s (nLeft - bytes.length) stale a result)
      (honce : readOnce nLeft bytes result = some (.again (bytes ++ result.bytes)))
      (hsocket : result.bytes ++ s.socket.drop result.bytes.length = s.socket) :
      LinkNext s a { s with
        socket := s.socket.drop result.bytes.length
        phase := .reading task nLeft (bytes ++ result.bytes) }
  | leave {a : LinkAction} {task : RecvTask} {nLeft : ℕ} {bytes stale : List UInt8}
      {result : ReadResult} (hreading : s.phase = .reading task nLeft bytes)
      (hcall : Calls s (nLeft - bytes.length) stale a result)
      (hsocket : result.bytes ++ s.socket.drop result.bytes.length = s.socket)
      (hwhy : (bytes ++ result.bytes).length = nLeft ∨ s.socket = []) :
      LinkNext s a ({ s with socket := s.socket.drop result.bytes.length }.leaveLoop task stale
        ⟨bytes ++ result.bytes, false⟩)

section Next

variable {s s' : LinkState}

theorem readResult_cases (s : LinkState) (asked : ℕ) :
    (s.socket = [] ∧ s.fin = true ∧ s.readResult asked = .data []) ∨
      (s.socket = [] ∧ s.fin = false ∧ s.readResult asked = .eagain) ∨
      (s.socket ≠ [] ∧ s.readResult asked = .data (s.socket.take asked)) := by
  unfold LinkState.readResult
  by_cases hempty : s.socket = []
  · rw [if_neg (not_not.mpr hempty)]
    cases hfin : s.fin with
    | true => exact Or.inl ⟨hempty, rfl, rfl⟩
    | false => exact Or.inr (Or.inl ⟨hempty, rfl, rfl⟩)
  · rw [if_pos hempty]
    exact Or.inr (Or.inr ⟨hempty, rfl⟩)

/-- An iteration appends what it takes from the socket; it ends the loop only when the
budget is used up or the socket is empty. -/
theorem readOnce_cases {nLeft : ℕ} {bytes stale : List UInt8} {a : LinkAction}
    {result : ReadResult} {progress : ReadProgress}
    (hcall : Calls s (nLeft - bytes.length) stale a result)
    (h : readOnce nLeft bytes result = some progress) :
    result.bytes ++ s.socket.drop result.bytes.length = s.socket ∧
      (progress = .again (bytes ++ result.bytes) ∨
        progress = .stop ⟨bytes ++ result.bytes, false⟩ ∧
          ((bytes ++ result.bytes).length = nLeft ∨ s.socket = [])) := by
  cases hcall with
  | interrupt =>
      rw [readOnce, Option.some_inj] at h
      subst h
      refine ⟨rfl, ?_⟩
      by_cases hfull : bytes.length = nLeft
      · simp [ReadResult.bytes, hfull]
      · simp [ReadResult.bytes, hfull]
  | read =>
      rcases readResult_cases s (nLeft - bytes.length) with
        ⟨hempty, -, heq⟩ | ⟨hempty, -, heq⟩ | ⟨hsome, heq⟩
      · rw [heq, readOnce] at h
        rw [heq]
        split at h
        · cases h
        · rw [if_pos (Or.inr rfl), Option.some_inj] at h
          exact ⟨rfl, Or.inr ⟨h.symm, Or.inr hempty⟩⟩
      · rw [heq] at h ⊢
        cases h
        refine ⟨rfl, Or.inr ⟨?_, Or.inr hempty⟩⟩
        simp [ReadResult.bytes]
      · rw [heq, readOnce] at h
        rw [heq]
        have htake : s.socket.take (nLeft - bytes.length) ++
            s.socket.drop (s.socket.take (nLeft - bytes.length)).length = s.socket :=
          List.prefix_iff_eq_append.mp (List.take_prefix _ _)
        refine ⟨htake, ?_⟩
        split at h
        · cases h
        · split at h
          · -- the budget is used up: nothing asked for means nothing left to ask for
            rename_i hroom hstop
            cases h
            refine Or.inr ⟨rfl, Or.inl ?_⟩
            rw [List.length_append]
            show bytes.length + (s.socket.take (nLeft - bytes.length)).length = nLeft
            rcases hstop with hfull | hnone
            · exact hfull
            · rcases List.take_eq_nil_iff.mp hnone with hzero | hnil
              · rw [hnone] at hroom ⊢
                rw [List.length_nil] at hroom ⊢
                omega
              · exact absurd hnil hsome
          · cases h
            exact Or.inl rfl

theorem linkNext_of_iterate {a : LinkAction} {task : RecvTask} {nLeft : ℕ}
    {bytes stale : List UInt8} {result : ReadResult}
    (hreading : s.phase = .reading task nLeft bytes)
    (hcall : Calls s (nLeft - bytes.length) stale a result)
    (h : s.iterate stale result = some s') : LinkNext s a s' := by
  simp only [LinkState.iterate, hreading] at h
  obtain ⟨progress, honce, rfl⟩ := Option.map_eq_some_iff.mp h
  obtain ⟨hsocket, rfl | ⟨rfl, hwhy⟩⟩ := readOnce_cases hcall honce
  · exact .again hreading hcall honce hsocket
  · exact .leave hreading hcall hsocket hwhy

theorem linkNext_of_step {a : LinkAction} (h : linkStep s a = some s') : LinkNext s a s' := by
  cases a with
  | arrive count =>
      obtain ⟨⟨hpos, hle⟩, heq⟩ := Option.ite_none_right_eq_some.mp h
      cases heq
      exact .arrive hpos hle
  | arriveFin =>
      obtain ⟨⟨hall, -⟩, heq⟩ := Option.ite_none_right_eq_some.mp h
      cases heq
      exact .arriveFin hall
  | add =>
      obtain ⟨hadding, heq⟩ := Option.ite_none_right_eq_some.mp h
      cases heq
      exact .add hadding
  | wait =>
      rw [linkStep] at h
      cases hphase : s.phase with
      | waiting task =>
          simp only [hphase] at h
          obtain ⟨-, heq⟩ := Option.ite_none_right_eq_some.mp h
          cases hbegin : beginRead s.globals task with
          | error fault =>
              rw [hbegin] at heq
              cases heq
              exact .fault hphase hbegin
          | ok entered =>
              rw [hbegin] at heq
              cases heq
              exact .wait hphase hbegin
      | _ => simp [hphase] at h
  | interrupt stale =>
      rw [linkStep] at h
      cases hphase : s.phase with
      | reading task nLeft bytes => exact linkNext_of_iterate hphase .interrupt h
      | _ => simp [LinkState.iterate, hphase] at h
  | read stale =>
      rw [linkStep] at h
      cases hphase : s.phase with
      | reading task nLeft bytes =>
          simp only [hphase] at h
          exact linkNext_of_iterate hphase .read h
      | _ => simp [hphase] at h

/-- What a call takes from the socket goes to the read buffer. -/
theorem stream_of_call {before bytes stream : List UInt8} {result : ReadResult}
    (hstream : before ++ bytes ++ s.socket ++ s.undelivered = stream)
    (hsocket : result.bytes ++ s.socket.drop result.bytes.length = s.socket) :
    before ++ (bytes ++ result.bytes) ++ s.socket.drop result.bytes.length ++ s.undelivered =
      stream := by
  rw [← hstream, ← hsocket]
  simp

end Next

/-! ## The invariant -/

section Invariant

variable {g : Globals}

/-- The task has processed `consumed` so far: nothing, or at least the header. -/
def Position (g : Globals) (consumed : List UInt8) (task : RecvTask) (globals : Globals) : Prop :=
  (task = {} ∧ consumed = [] ∧ globals = g) ∨
    (task = ⟨false, (unmarshal consumed).index⟩ ∧ kEachSliceHeaderLen ≤ consumed.length ∧
      globals = globalsAfter g consumed)

/-- Nothing is left behind: the socket was found empty before the FIN, or everything
has been read. -/
def Drained (stream consumed : List UInt8) (s : LinkState) : Prop :=
  (s.socket = [] ∧ s.fin = false) ∨ consumed = stream

/-- Where the task is, `consumed` having been taken from the socket. -/
def Phased (g : Globals) (stream consumed : List UInt8) (s : LinkState) : Prop :=
  match s.phase with
  | .adding => consumed = [] ∧ s.globals = g
  | .waiting task => Position g consumed task s.globals ∧
      (s.edge = false → Drained stream consumed s)
  | .reading task nLeft bytes => ∃ before, consumed = before ++ bytes ∧
      Position g before task s.globals ∧ stream.length ≤ before.length + nLeft
  | .left _ => True

structure LinkInv (g : Globals) (stream consumed : List UInt8) (s : LinkState) : Prop where
  stream_eq : consumed ++ s.socket ++ s.undelivered = stream
  fin_last : s.fin = true → s.undelivered = []
  phased : Phased g stream consumed s

/-- The budget covers what is missing, if it covers the whole slice. -/
theorem missing_le_laterBudget (readsMaxBytes : ℕ) {info : FileSliceInfo}
    (hle : info.offset ≤ info.cLen) (hlt : info.cLen < 2 ^ 64)
    (hcover : info.cLen ≤ readsMaxBytes) :
    info.cLen - info.offset ≤ laterBudget readsMaxBytes info := by
  have hsub : subSizeT info.cLen info.offset = info.cLen - info.offset := subSizeT_of_le hle hlt
  rw [laterBudget, hsub]
  by_cases hless : info.cLen - info.offset < readsMaxBytes
  · simp only [if_pos hless]
    split
    · exact le_refl _
    · omega
  · simp only [if_neg hless]
    rw [if_neg (by omega)]
    omega

/-- What follows the read loop: a first read of less than ten bytes ends the task, every
other read takes the task to the next position, or to its complete slice. -/
theorem leaveLoop_cases {before bytes : List UInt8} {task : RecvTask} {s : LinkState}
    (stale : List UInt8) (hslice : g.expectsHeader = false)
    (hlong : (before ++ bytes).length < 2 ^ 64) (hposition : Position g before task s.globals) :
    (before = [] ∧ bytes.length < kEachSliceHeaderLen ∧
        (s.leaveLoop task stale ⟨bytes, false⟩).phase =
          .left (.exited (.faulted .negativeCopy))) ∨
      (kEachSliceHeaderLen ≤ (before ++ bytes).length ∧
        s.leaveLoop task stale ⟨bytes, false⟩ = { s with
          globals := globalsAfter g (before ++ bytes)
          phase := .waiting ⟨false, (unmarshal (before ++ bytes)).index⟩ }) ∨
      (kEachSliceHeaderLen ≤ (before ++ bytes).length ∧
        (unmarshal (before ++ bytes)).cLen = payloadLen (before ++ bytes) ∧
        (s.leaveLoop task stale ⟨bytes, false⟩).phase =
          .left (.complete (unmarshal (before ++ bytes)).index)) := by
  rcases hposition with ⟨rfl, rfl, hglobals⟩ | ⟨rfl, hheader, hglobals⟩
  · rw [List.nil_append] at hlong ⊢
    by_cases hshort : bytes.length < kEachSliceHeaderLen
    · -- the copy of negative length ends the task
      have hstatus := afterRead_first_short stale hslice hshort
      refine Or.inl ⟨rfl, hshort, ?_⟩
      simp only [LinkState.leaveLoop, hglobals, hstatus]
    · have hheader : kEachSliceHeaderLen ≤ bytes.length := Nat.not_lt.mp hshort
      have hafter := afterRead_first stale hslice hlong hheader
      refine Or.inr ?_
      by_cases hnone : payloadLen bytes = 0
      · have hstatus : firstStatus bytes = .waiting ⟨false, (unmarshal bytes).index⟩ :=
          if_pos hnone
        exact Or.inl ⟨hheader, by simp only [LinkState.leaveLoop, hglobals, hafter, hstatus]⟩
      · have hfirst : firstStatus bytes = statusAfter bytes := if_neg hnone
        by_cases hdone : (unmarshal bytes).cLen = payloadLen bytes
        · have hstatus : statusAfter bytes = .complete (unmarshal bytes).index := if_pos hdone
          refine Or.inr ⟨hheader, hdone, ?_⟩
          simp only [LinkState.leaveLoop, hglobals, hafter, hfirst, hstatus]
        · have hstatus : statusAfter bytes = .waiting ⟨false, (unmarshal bytes).index⟩ :=
            if_neg hdone
          refine Or.inl ⟨hheader, ?_⟩
          simp only [LinkState.leaveLoop, hglobals, hafter, hfirst, hstatus]
  · have hheader' : kEachSliceHeaderLen ≤ (before ++ bytes).length := by
      rw [List.length_append]
      omega
    have hafter := afterRead_later (g := g) stale hheader
      (show payloadLen (before ++ bytes) < 2 ^ 64 by rw [payloadLen]; omega)
    refine Or.inr ?_
    by_cases hdone : (unmarshal (before ++ bytes)).cLen = payloadLen (before ++ bytes)
    · have hstatus : statusAfter (before ++ bytes) =
          .complete (unmarshal (before ++ bytes)).index := if_pos hdone
      refine Or.inr ⟨hheader', hdone, ?_⟩
      simp only [LinkState.leaveLoop, hglobals, hafter, hstatus]
    · have hstatus : statusAfter (before ++ bytes) =
          .waiting ⟨false, (unmarshal (before ++ bytes)).index⟩ := if_neg hdone
      exact Or.inl ⟨hheader', by simp only [LinkState.leaveLoop, hglobals, hafter, hstatus]⟩

/-- What the read loop leaves behind it. -/
theorem LinkInv.leaveLoop {stream before bytes : List UInt8} {task : RecvTask} {s : LinkState}
    (stale : List UInt8) (hslice : g.expectsHeader = false)
    (hstream : before ++ bytes ++ s.socket ++ s.undelivered = stream)
    (hlong : stream.length < 2 ^ 64) (hfin : s.fin = true → s.undelivered = [])
    (hposition : Position g before task s.globals)
    (hdrained : Drained stream (before ++ bytes) s) :
    LinkInv g stream (before ++ bytes) (s.leaveLoop task stale ⟨bytes, false⟩) := by
  have hlength := congrArg List.length hstream
  rw [List.length_append, List.length_append] at hlength
  refine ⟨hstream, hfin, ?_⟩
  rcases leaveLoop_cases stale hslice (show (before ++ bytes).length < 2 ^ 64 by omega)
    hposition with ⟨-, -, hphase⟩ | ⟨hheader, heq⟩ | ⟨-, -, hphase⟩
  · rw [Phased, hphase]
    trivial
  · rw [heq]
    exact ⟨Or.inr ⟨rfl, hheader, rfl⟩, fun _ => hdrained⟩
  · rw [Phased, hphase]
    trivial

variable {header : SliceHeader} {payload : List UInt8}

/-- The wake-up enters the read loop with a budget that covers what is missing. -/
theorem beginRead_of_position {consumed : List UInt8} {task : RecvTask} {globals : Globals}
    (h : Announces header payload) (hslice : g.expectsHeader = false)
    (hcover : kEachSliceHeaderLen + header.cLen ≤ g.readsMaxBytes)
    (hpart : ∃ more, consumed ++ more = sliceStream header payload)
    (hposition : Position g consumed task globals) :
    ∃ nLeft, beginRead globals task = .ok (globals, nLeft) ∧
      (sliceStream header payload).length ≤ consumed.length + nLeft := by
  obtain ⟨more, hmore⟩ := hpart
  have hlength := congrArg List.length hmore
  rw [List.length_append, length_sliceStream h] at hlength
  rw [length_sliceStream h]
  rcases hposition with ⟨rfl, rfl, rfl⟩ | ⟨rfl, hheader, rfl⟩
  · exact ⟨globals.readsMaxBytes, beginRead_first hslice, by rwa [List.length_nil, Nat.zero_add]⟩
  · refine ⟨_, beginRead_later g consumed, ?_⟩
    have hcLen : (entryAfter g consumed).cLen = header.cLen :=
      congrArg SliceHeader.cLen (unmarshal_of_append_eq h hmore hheader)
    have hoffset : (entryAfter g consumed).offset = consumed.length - kEachSliceHeaderLen := rfl
    have hcLen_lt := h.cLen_lt
    have hbudget := missing_le_laterBudget g.readsMaxBytes
      (show (entryAfter g consumed).offset ≤ (entryAfter g consumed).cLen by omega) (by omega)
      (by omega)
    omega

/-- The read loop is left with the socket empty, or with everything read. -/
theorem drained_of_leave {stream before bytes : List UInt8} {nLeft : ℕ} {s : LinkState}
    {result : ReadResult} (hfin : s.fin = true → s.undelivered = [])
    (hstream : before ++ (bytes ++ result.bytes) ++ s.socket.drop result.bytes.length ++
      s.undelivered = stream)
    (hcover : stream.length ≤ before.length + nLeft)
    (hwhy : (bytes ++ result.bytes).length = nLeft ∨ s.socket = []) :
    Drained stream (before ++ (bytes ++ result.bytes))
      { s with socket := s.socket.drop result.bytes.length } := by
  rcases hwhy with hfull | hempty
  · have hlength := congrArg List.length hstream
    rw [← hfull] at hcover
    simp only [List.length_append] at hcover hlength
    have hsocket : s.socket.drop result.bytes.length = [] :=
      List.length_eq_zero_iff.mp (by omega)
    have hundelivered : s.undelivered = [] := List.length_eq_zero_iff.mp (by omega)
    rw [hsocket, hundelivered, List.append_nil, List.append_nil] at hstream
    exact Or.inr hstream
  · have hnothing : s.socket.drop result.bytes.length = [] := by rw [hempty, List.drop_nil]
    cases hclosed : s.fin with
    | false => exact Or.inl ⟨hnothing, rfl⟩
    | true =>
        rw [hnothing, hfin hclosed, List.append_nil, List.append_nil] at hstream
        exact Or.inr hstream

theorem LinkInv.step {consumed : List UInt8} {s s' : LinkState} {a : LinkAction}
    (h : Announces header payload) (hslice : g.expectsHeader = false)
    (hcover : kEachSliceHeaderLen + header.cLen ≤ g.readsMaxBytes)
    (hs : LinkInv g (sliceStream header payload) consumed s) (hstep : linkStep s a = some s') :
    ∃ consumed', LinkInv g (sliceStream header payload) consumed' s' := by
  have hlong : (sliceStream header payload).length < 2 ^ 64 := by
    have := h.cLen_lt
    rw [length_sliceStream h, kEachSliceHeaderLen]
    omega
  obtain ⟨hstream, hfin, hphased⟩ := hs
  cases linkNext_of_step hstep with
  | arrive hpos hle =>
      refine ⟨consumed, ?_, fun hclosed => ?_, ?_⟩
      · rw [← hstream]
        simp
      · rw [hfin hclosed, List.length_nil] at hle
        omega
      · unfold Phased at hphased ⊢
        cases hphase : s.phase with
        | waiting task =>
            rw [hphase] at hphased
            exact ⟨hphased.1, fun hedge => by cases hedge⟩
        | _ => rwa [hphase] at hphased
  | arriveFin hall =>
      refine ⟨consumed, hstream, fun _ => hall, ?_⟩
      unfold Phased at hphased ⊢
      cases hphase : s.phase with
      | waiting task =>
          rw [hphase] at hphased
          exact ⟨hphased.1, fun hedge => by cases hedge⟩
      | _ => rwa [hphase] at hphased
  | add hadding =>
      rw [Phased, hadding] at hphased
      obtain ⟨rfl, hglobals⟩ := hphased
      refine ⟨[], hstream, hfin, Or.inl ⟨rfl, rfl, hglobals⟩, fun hedge => Or.inl ?_⟩
      simpa using hedge
  | wait hwaiting hbegin =>
      rw [Phased, hwaiting] at hphased
      obtain ⟨hposition, -⟩ := hphased
      obtain ⟨nLeft, hentered, hbudget⟩ := beginRead_of_position h hslice hcover
        ⟨_, (List.append_assoc ..).symm.trans hstream⟩ hposition
      rw [hentered] at hbegin
      cases hbegin
      exact ⟨consumed, hstream, hfin, consumed, (List.append_nil _).symm, hposition, hbudget⟩
  | fault hwaiting hbegin => exact ⟨consumed, hstream, hfin, trivial⟩
  | again hreading hcall honce hsocket =>
      rw [Phased, hreading] at hphased
      obtain ⟨before, rfl, hposition, hbudget⟩ := hphased
      exact ⟨_, stream_of_call hstream hsocket, hfin, before, rfl, hposition, hbudget⟩
  | leave hreading hcall hsocket hwhy =>
      rw [Phased, hreading] at hphased
      obtain ⟨before, rfl, hposition, hbudget⟩ := hphased
      have hstream' := stream_of_call hstream hsocket
      exact ⟨_, LinkInv.leaveLoop _ hslice hstream' hlong hfin hposition
        (drained_of_leave hfin hstream' hbudget hwhy)⟩

/-- A budget that covers the stream excludes a stuck task. -/
theorem not_stuck_of_covered (h : Announces header payload)
    (hslice : g.expectsHeader = false)
    (hcover : kEachSliceHeaderLen + header.cLen ≤ g.readsMaxBytes) {s : LinkState}
    (hreach : (linkSystem g (sliceStream header payload)).Reachable s) : ¬ Stuck s := by
  obtain ⟨consumed, hinv⟩ : ∃ consumed, LinkInv g (sliceStream header payload) consumed s := by
    refine hreach.invariant
      (I := fun s => ∃ consumed, LinkInv g (sliceStream header payload) consumed s) ?_ ?_
    · exact ⟨[], rfl, (fun hclosed => by cases hclosed), rfl, rfl⟩
    · rintro s a s' ⟨consumed, hs⟩ hstep
      exact hs.step h hslice hcover hstep
  rintro ⟨task, hwaiting, hedge, -, hclosed, hincomplete⟩
  have hphased := hinv.phased
  rw [Phased, hwaiting] at hphased
  obtain ⟨hposition, hdrained⟩ := hphased
  have hall : consumed = sliceStream header payload := by
    rcases hdrained hedge with ⟨-, hopen⟩ | hall
    · rw [hclosed] at hopen
      cases hopen
    · exact hall
  have hlength := length_sliceStream h
  rw [← hall] at hlength
  rcases hposition with ⟨-, rfl, -⟩ | ⟨rfl, hheader, hglobals⟩
  · rw [List.length_nil, kEachSliceHeaderLen] at hlength
    omega
  · rcases hincomplete with hfirst | ⟨info, hinfo, hmissing⟩
    · cases hfirst
    · rw [hglobals, globalsAfter_mmap, Option.some_inj] at hinfo
      subst hinfo
      have hcLen : (entryAfter g consumed).cLen = header.cLen :=
        congrArg SliceHeader.cLen
          (unmarshal_of_append_eq h ((List.append_nil _).trans hall) hheader)
      have hoffset : (entryAfter g consumed).offset = consumed.length - kEachSliceHeaderLen := rfl
      omega

end Invariant

/-! ## A stream beyond the budget -/

/-- When everything has arrived before the first wake-up, that wake-up reads as much
as its budget allows, and there is no other. -/
theorem stuck_of_uncovered {g : Globals} {header : SliceHeader} {payload : List UInt8}
    (h : Announces header payload) (hslice : g.expectsHeader = false)
    (hbudget : kEachSliceHeaderLen < g.readsMaxBytes) (hreads : g.readsMaxBytes < 2 ^ 64)
    (hlarge : g.readsMaxBytes < kEachSliceHeaderLen + header.cLen) :
    ∃ s, (linkSystem g (sliceStream header payload)).Reachable s ∧ Stuck s := by
  set stream := sliceStream header payload with hstream
  have hlength : stream.length = kEachSliceHeaderLen + header.cLen := length_sliceStream h
  have hne : stream ≠ [] := List.ne_nil_of_length_pos (by omega)
  have htaken : (stream.take g.readsMaxBytes).length = g.readsMaxBytes :=
    List.length_take_of_le (by omega)
  have hfields : unmarshal (stream.take g.readsMaxBytes) = header :=
    unmarshal_of_append_eq h (List.take_append_drop g.readsMaxBytes stream) (by omega)
  have harrive : (linkSystem g stream).step ⟨stream, false, [], false, g, .adding⟩
      (.arrive stream.length) = some ⟨[], false, stream, true, g, .adding⟩ := by
    have hpos : 0 < stream.length ∧ stream.length ≤ stream.length := ⟨by omega, le_refl _⟩
    simp [linkSystem, linkStep, hpos]
  have hfin : (linkSystem g stream).step ⟨[], false, stream, true, g, .adding⟩ .arriveFin =
      some ⟨[], true, stream, true, g, .adding⟩ := rfl
  have hadd : (linkSystem g stream).step ⟨[], true, stream, true, g, .adding⟩ .add =
      some ⟨[], true, stream, true, g, .waiting {}⟩ := by
    simp [linkSystem, linkStep]
  have hwait : (linkSystem g stream).step ⟨[], true, stream, true, g, .waiting {}⟩ .wait =
      some ⟨[], true, stream, false, g, .reading {} g.readsMaxBytes []⟩ := by
    simp [linkSystem, linkStep, beginRead_first hslice]
  have hstatus : firstStatus (stream.take g.readsMaxBytes) = .waiting ⟨false, header.index⟩ := by
    rw [firstStatus, statusAfter, hfields, payloadLen, htaken, if_neg (by omega),
      if_neg (by omega)]
  have hread : (linkSystem g stream).step
      ⟨[], true, stream, false, g, .reading {} g.readsMaxBytes []⟩ (.read []) =
      some ⟨[], true, stream.drop g.readsMaxBytes, false,
        globalsAfter g (stream.take g.readsMaxBytes), .waiting ⟨false, header.index⟩⟩ := by
    have honce : readOnce g.readsMaxBytes [] (.data (stream.take g.readsMaxBytes)) =
        some (.stop ⟨stream.take g.readsMaxBytes, false⟩) := by
      rw [readOnce, List.length_nil, Nat.zero_add, htaken, if_neg (lt_irrefl _),
        if_pos (Or.inl rfl), List.nil_append]
    have hafter := afterRead_first [] hslice
      (show (stream.take g.readsMaxBytes).length < 2 ^ 64 by omega) (by omega)
    simp only [linkSystem, linkStep, LinkState.iterate, LinkState.readResult, if_pos hne,
      List.length_nil, Nat.sub_zero, honce, Option.map_some, LinkState.leaveLoop, hafter,
      hstatus, ReadResult.bytes, htaken]
  have hreach : (linkSystem g stream).Reachable ⟨[], true, stream.drop g.readsMaxBytes, false,
      globalsAfter g (stream.take g.readsMaxBytes), .waiting ⟨false, header.index⟩⟩ := by
    have hinit := TransitionSystem.Reachable.init (linkSystem g stream)
    exact ((((hinit.next harrive).next hfin).next hadd).next hwait).next hread
  refine ⟨_, hreach, _, rfl, rfl, rfl, rfl,
    Or.inr ⟨entryAfter g (stream.take g.readsMaxBytes), ?_, ?_⟩⟩
  · rw [← hfields]
    exact globalsAfter_mmap ..
  · show payloadLen (stream.take g.readsMaxBytes) < (unmarshal (stream.take g.readsMaxBytes)).cLen
    rw [hfields, payloadLen, htaken]
    omega

/-! ## The result -/

/-- **No edge is lost exactly when the read budget covers the whole stream.** -/
theorem stuck_iff (fileSize slicesNum : ℕ) (g : Globals) (header : SliceHeader)
    (payload : List UInt8) (hrecorded : g.Recorded fileSize slicesNum)
    (h : Announces header payload) :
    (∀ s, (linkSystem g (sliceStream header payload)).Reachable s → ¬ Stuck s) ↔
      kEachSliceHeaderLen + header.cLen ≤ g.readsMaxBytes := by
  constructor
  · intro hsafe
    by_contra hlarge
    have hbudget : kEachSliceHeaderLen < g.readsMaxBytes :=
      hrecorded.readsMaxBytes_eq ▸ kEachSliceHeaderLen_lt_readsMaxBytesFor _
    obtain ⟨s, hreach, hstuck⟩ := stuck_of_uncovered h hrecorded.expectsHeader hbudget
      hrecorded.readsMaxBytes_lt (Nat.lt_of_not_le hlarge)
    exact hsafe s hreach hstuck
  · intro hcover s hreach
    exact not_stuck_of_covered h hrecorded.expectsHeader hcover hreach

/-- A stream of 13 bytes. -/
theorem stuck_iff_short :
    ¬ ∃ s, (linkSystem (recordHeader 4 1 Globals.initial)
      (sliceStream ⟨0, 4, 3⟩ [7, 8, 9])).Reachable s ∧ Stuck s := by
  rintro ⟨s, hreach, hstuck⟩
  exact (stuck_iff 4 1 (recordHeader 4 1 Globals.initial) ⟨0, 4, 3⟩ [7, 8, 9]
    (recorded_recordHeader 4 1 _) ⟨by decide, by decide, by decide, rfl⟩).mpr (by decide)
    s hreach hstuck

/-- A slice of 200000 bytes whose compressed form has 131063: together with the header
that is one byte more than the budget of 128 KiB. -/
theorem stuck_reachable :
    ∃ s, (linkSystem (recordHeader 200000 1 Globals.initial)
      (sliceStream ⟨0, 200000, 131063⟩ (List.replicate 131063 0))).Reachable s ∧ Stuck s :=
  stuck_of_uncovered ⟨by decide, by decide, by decide, List.length_replicate⟩
    (recorded_recordHeader 200000 1 _).expectsHeader (by decide) (by decide) (by decide)

end SliceTransfer
