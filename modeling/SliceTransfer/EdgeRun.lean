import SliceTransfer.ServerRun

/-!
# The receiver under `EPOLLET`

In `server` a connection may wake up whenever it likes.  Here the kernel is a party of its
own: bytes arrive, an arrival sets the flag of the connection, and `epoll_wait` returns once
for a flag that is set.  So a wake-up that leaves bytes in the socket may be the last one
(`stuck_iff` shows this for one connection).

`edgeServer` is `server` with such sockets, every connection with its own.

* The receiver sees a run of its own (`server_of_edge`), so nothing that was shown of
  `server` is lost;
* `Fed` is the invariant: what is left in a socket behind a wake-up has its flag set, as long
  as the streams fit `reads_max_bytes_`;
* so a run that has come to its end has left nothing unread (`idle_of_settled`);
* and a stream that does not fit can be left behind (`Overlong`).
-/

namespace SliceTransfer.Server

open Bytes Decimal TransitionSystem Supervisor

/-! ## The system -/

/-- What the kernel knows of a connection: the bytes that have arrived and were not read, the
FIN, and the flag that an arrival sets and `epoll_wait` clears. -/
structure Socket where
  unread : ℕ := 0
  fin : Bool := false
  pending : Bool := false
  deriving DecidableEq, Repr

def Socket.arrive (socket : Socket) (bytes : ℕ) : Socket :=
  { socket with unread := socket.unread + bytes, pending := true }

def Socket.arriveFin (socket : Socket) : Socket := { socket with fin := true, pending := true }

/-- Behind a wake-up that has read `bytes`, with `late` that arrived in it. -/
def Socket.wake (socket : Socket) (late bytes : ℕ) : Socket :=
  { socket with unread := socket.unread + late - bytes, pending := decide (0 < late) }

structure EdgeState where
  server : ServerState
  sockets : ℕ → Socket

/-- `late` bytes arrive while the read loop of the wake-up is still reading. -/
inductive EdgeAction
  | arrive (conn bytes : ℕ)
  | arriveFin (conn : ℕ)
  | wake (worker : ℕ) (event : RecvEvent) (late : ℕ)
  | other (a : ServerAction)
  deriving DecidableEq, Repr

/-- What the read loop asks for. -/
def ConnState.readBudget (s : ConnState) (conn : ℕ) : ℕ :=
  match s.status conn with
  | .waiting task =>
      match beginRead s.globals task with
      | .ok (_, nLeft) => nLeft
      | .error _ => 0
  | _ => 0

/-- The loop is left when the socket is empty, or when it has read what it asked for; a
descriptor that is not readable has nothing to read. -/
def ConnState.Wakes (s : ConnState) (socket : Socket) (conn late : ℕ) (event : RecvEvent) : Prop :=
  socket.pending = true ∧ socket.unread + late ≤ (s.undelivered conn).length ∧
    event.bytes.length ≤ socket.unread + late ∧
    match event with
    | .readable _ _ =>
        event.bytes.length = socket.unread + late ∨ s.readBudget conn ≤ event.bytes.length
    | .notReadable => socket.unread + late = 0
    | .epollFailed => True

instance (s : ConnState) (socket : Socket) (conn late : ℕ) :
    (event : RecvEvent) → Decidable (s.Wakes socket conn late event)
  | .readable _ _ => inferInstanceAs (Decidable (_ ∧ _ ∧ _ ∧ (_ ∨ _)))
  | .notReadable => inferInstanceAs (Decidable (_ ∧ _ ∧ _ ∧ _ = _))
  | .epollFailed => inferInstanceAs (Decidable (_ ∧ _ ∧ _ ∧ True))

section System

variable {D : Type} (z : ZstdDecompress D) (fuel count : ℕ) (texts : ℕ → List UInt8)
  (order : AcceptOrder (count + 1))

def edgeStep (s : EdgeState) : EdgeAction → Option EdgeState
  | .arrive conn bytes =>
      let socket := s.sockets conn
      if conn < count + 1 ∧ 0 < bytes ∧
          socket.unread + bytes ≤ (s.server.tasks.inner.undelivered conn).length then
        some { s with sockets := Function.update s.sockets conn (socket.arrive bytes) }
      else none
  | .arriveFin conn =>
      let socket := s.sockets conn
      if conn < count + 1 ∧ socket.fin = false ∧
          socket.unread = (s.server.tasks.inner.undelivered conn).length then
        some { s with sockets := Function.update s.sockets conn socket.arriveFin }
      else none
  | .wake worker event late =>
      match s.server.tasks.pool.workers worker with
      | .running task =>
          let conn := order.conn task
          let socket := s.sockets conn
          if s.server.tasks.inner.Wakes socket conn late event then
            (serverStep z fuel count texts order s.server (.work worker event)).map fun server =>
              ⟨server, Function.update s.sockets conn (socket.wake late event.bytes.length)⟩
          else none
      | _ => none
  | .other (.work _ _) => none
  | .other a =>
      (serverStep z fuel count texts order s.server a).map fun server =>
        { s with server := server }

/-- The receiver, with sockets that nothing has arrived on. -/
def edgeServer : TransitionSystem EdgeState EdgeAction where
  init := ⟨(server z fuel count texts order).init, fun _ => {}⟩
  step := edgeStep z fuel count texts order

end System

/-- What the receiver sees. -/
def EdgeAction.seen : EdgeAction → Option ServerAction
  | .arrive _ _ | .arriveFin _ => none
  | .wake worker event _ => some (.work worker event)
  | .other a => some a

/-- The guard of a run, as the receiver sees it. -/
def Allowed (guard : ServerState → ServerAction → Prop) (s : EdgeState) (a : EdgeAction) : Prop :=
  ∀ b ∈ a.seen, guard s.server b

instance (guard : ServerState → ServerAction → Prop) [∀ s a, Decidable (guard s a)]
    (s : EdgeState) : (a : EdgeAction) → Decidable (Allowed guard s a)
  | .arrive _ _ => isTrue fun _ hseen => by cases hseen
  | .arriveFin _ => isTrue fun _ hseen => by cases hseen
  | .wake worker event _ =>
      decidable_of_iff (guard s.server (.work worker event))
        ⟨fun hguard b hseen => by cases hseen; exact hguard, fun hall => hall _ rfl⟩
  | .other a =>
      decidable_of_iff (guard s.server a)
        ⟨fun hguard b hseen => by cases hseen; exact hguard, fun hall => hall _ rfl⟩

/-- The steps of the receiver and its sockets, one constructor for each thing that can
happen. -/
inductive EdgeNext {D : Type} (z : ZstdDecompress D) (fuel count : ℕ) (texts : ℕ → List UInt8)
    (order : AcceptOrder (count + 1)) (s : EdgeState) : EdgeAction → EdgeState → Prop
  | arrive {conn bytes : ℕ} (hconn : conn < count + 1) (hpos : 0 < bytes)
      (hle : (s.sockets conn).unread + bytes ≤ (s.server.tasks.inner.undelivered conn).length) :
      EdgeNext z fuel count texts order s (.arrive conn bytes)
        { s with sockets := Function.update s.sockets conn ((s.sockets conn).arrive bytes) }
  | arriveFin {conn : ℕ} (hconn : conn < count + 1) (hopen : (s.sockets conn).fin = false)
      (hall : (s.sockets conn).unread = (s.server.tasks.inner.undelivered conn).length) :
      EdgeNext z fuel count texts order s (.arriveFin conn)
        { s with sockets := Function.update s.sockets conn (s.sockets conn).arriveFin }
  | wake {worker task late : ℕ} {event : RecvEvent} {server : ServerState}
      (hrunning : s.server.tasks.pool.workers worker = .running task)
      (hwakes : s.server.tasks.inner.Wakes (s.sockets (order.conn task)) (order.conn task) late
        event)
      (hserver : serverStep z fuel count texts order s.server (.work worker event) = some server) :
      EdgeNext z fuel count texts order s (.wake worker event late)
        ⟨server, Function.update s.sockets (order.conn task)
          ((s.sockets (order.conn task)).wake late event.bytes.length)⟩
  | other {a : ServerAction} {server : ServerState} (hwork : ∀ worker event, a ≠ .work worker event)
      (hserver : serverStep z fuel count texts order s.server a = some server) :
      EdgeNext z fuel count texts order s (.other a) { s with server := server }

section Edge

variable {D : Type} {z : ZstdDecompress D} {fuel count : ℕ} {texts : ℕ → List UInt8}
  {order : AcceptOrder (count + 1)} {s s' : EdgeState}

theorem edgeStep_other {a : ServerAction} (hwork : ∀ worker event, a ≠ .work worker event) :
    edgeStep z fuel count texts order s (.other a) =
      (serverStep z fuel count texts order s.server a).map fun server =>
        { s with server := server } := by
  cases a with
  | work worker event => exact absurd rfl (hwork worker event)
  | _ => rfl

theorem edgeNext_of_step {a : EdgeAction} (h : edgeStep z fuel count texts order s a = some s') :
    EdgeNext z fuel count texts order s a s' := by
  cases a with
  | arrive conn bytes =>
      obtain ⟨⟨hconn, hpos, hle⟩, heq⟩ := Option.ite_none_right_eq_some.mp h
      cases heq
      exact .arrive hconn hpos hle
  | arriveFin conn =>
      obtain ⟨⟨hconn, hopen, hall⟩, heq⟩ := Option.ite_none_right_eq_some.mp h
      cases heq
      exact .arriveFin hconn hopen hall
  | wake worker event late =>
      rw [edgeStep] at h
      split at h
      · obtain ⟨hwakes, heq⟩ := Option.ite_none_right_eq_some.mp h
        obtain ⟨server, hserver, rfl⟩ := Option.map_eq_some_iff.mp heq
        exact .wake ‹_› hwakes hserver
      · cases h
  | other a =>
      by_cases hwork : ∀ worker event, a ≠ .work worker event
      · rw [edgeStep_other hwork] at h
        obtain ⟨server, hserver, rfl⟩ := Option.map_eq_some_iff.mp h
        exact .other hwork hserver
      · push Not at hwork
        obtain ⟨worker, event, rfl⟩ := hwork
        cases h

/-- The receiver makes a step of its own, or it does not see what happens. -/
theorem server_of_edgeStep {a : EdgeAction} (h : edgeStep z fuel count texts order s a = some s') :
    s'.server = s.server ∨
      ∃ b ∈ a.seen, serverStep z fuel count texts order s.server b = some s'.server := by
  cases edgeNext_of_step h with
  | arrive _ _ _ => exact Or.inl rfl
  | arriveFin _ _ _ => exact Or.inl rfl
  | wake _ _ hserver => exact Or.inr ⟨_, rfl, hserver⟩
  | other _ hserver => exact Or.inr ⟨_, rfl, hserver⟩

/-- **The receiver sees a run of its own.** -/
theorem server_of_edge {guard : ServerState → ServerAction → Prop}
    (h : (edgeServer z fuel count texts order).ReachableVia (Allowed guard) s) :
    (server z fuel count texts order).ReachableVia guard s.server := by
  refine ReachableVia.project (f := EdgeState.server) rfl ?_ h
  intro s a s' _ hallowed hstep
  refine (server_of_edgeStep hstep).imp_right ?_
  rintro ⟨b, hseen, hserver⟩
  exact ⟨b, hallowed b hseen, hserver⟩

theorem server_reachable {guard : EdgeState → EdgeAction → Prop}
    (h : (edgeServer z fuel count texts order).ReachableVia guard s) :
    (server z fuel count texts order).Reachable s.server :=
  server_of_edge (h.imp fun _ _ _ _ _ => trivial)

/-! ## What a step does to the connections -/

/-- A wake-up, as a step of the connections. -/
theorem work_of_serverStep {server server' : ServerState} {worker task : ℕ} {event : RecvEvent}
    (hrunning : server.tasks.pool.workers worker = .running task)
    (h : serverStep z fuel count texts order server (.work worker event) = some server') :
    server'.tasks.pool = server.tasks.pool ∧
      (startConns z fuel count texts).step server.tasks.inner ⟨order.conn task, event⟩ =
        some server'.tasks.inner := by
  cases serverNext_of_step h with
  | work htasks =>
      obtain ⟨hpool, other, hother, hinner⟩ := work_of_step htasks
      rw [hrunning, ThreadPool.Worker.running.injEq] at hother
      rw [hother]
      exact ⟨hpool, hinner⟩

theorem serverStep_work {server : ServerState} {worker task : ℕ} {event : RecvEvent}
    (hworker : worker < 1) (hrunning : server.tasks.pool.workers worker = .running task) :
    serverStep z fuel count texts order server (.work worker event) =
      ((startConns z fuel count texts).step server.tasks.inner ⟨order.conn task, event⟩).map
        fun inner => ⟨{ server.tasks with inner := inner },
          { server.supervise with slicesNum := inner.globals.slicesNum }⟩ := by
  rw [serverStep, receiver_step, ThreadPool.serviceStep, hrunning]
  simp only [if_pos hworker, Option.map_map]
  rfl

/-- Everything else leaves the connections as they are. -/
theorem inner_of_serverStep {server server' : ServerState} {a : ServerAction}
    (hwork : ∀ worker event, a ≠ .work worker event)
    (h : serverStep z fuel count texts order server a = some server') :
    server'.tasks.inner = server.tasks.inner := by
  cases serverNext_of_step h with
  | enqueue htasks _ => exact (pool_of_step htasks).1
  | pool _ htasks => exact (pool_of_step htasks).1
  | work _ => exact absurd rfl (hwork _ _)
  | push _ _ | count _ | notify _ | ready _ _ | supervise _ => rfl

/-! ## The measure -/

def edgeProductive (s : EdgeState) : EdgeAction → Bool
  | .arrive _ _ | .arriveFin _ => true
  | .wake _ event late => event.productive || decide (0 < late)
  | .other a => serverProductive s.server a

/-- What has still to arrive on a connection. -/
def EdgeState.outstanding (s : EdgeState) (conn : ℕ) : ℕ :=
  (s.server.tasks.inner.undelivered conn).length - (s.sockets conn).unread +
    (!(s.sockets conn).fin).toNat

def edgeMeasure (count : ℕ) (s : EdgeState) : ℕ :=
  serverMeasure count s.server + ∑ conn ∈ Finset.range (count + 1), s.outstanding conn

variable {R : D → List UInt8 → List UInt8 → Prop} {fileSize : ℕ} {ships : ℕ → Shipment}

/-- **Every productive step lowers the measure.** -/
theorem measured_edge (h : AllSent z R fuel fileSize count texts order ships)
    (hlt : count < 32767) :
    (edgeServer z fuel count texts order).Measured edgeProductive (edgeMeasure count) := by
  intro s a s' hs hstep
  have hserver := server_reachable hs
  unfold edgeMeasure
  cases edgeNext_of_step hstep with
  | @arrive conn bytes hconn hpos hle =>
      refine (Nat.add_assoc ..).trans_le (Nat.add_le_add_left ?_ _)
      refine sum_add_le (Finset.mem_range.mpr hconn) ?_ fun other _ hne => ?_
      · simp only [EdgeState.outstanding, Function.update_self, Socket.arrive, edgeProductive,
          Bool.toNat_true]
        omega
      · simp only [EdgeState.outstanding, Function.update_of_ne hne, le_refl]
  | @arriveFin conn hconn hopen hall =>
      refine (Nat.add_assoc ..).trans_le (Nat.add_le_add_left ?_ _)
      refine sum_add_le (Finset.mem_range.mpr hconn) ?_ fun other _ hne => ?_
      · simp only [EdgeState.outstanding, Function.update_self, Socket.arriveFin, edgeProductive,
          hopen, Bool.not_true, Bool.not_false, Bool.toNat_true, Bool.toNat_false]
        omega
      · simp only [EdgeState.outstanding, Function.update_of_ne hne, le_refl]
  | @wake worker task late event server hrunning hwakes hwork =>
      obtain ⟨-, hle, htaken, -⟩ := hwakes
      obtain ⟨-, hinner⟩ := work_of_serverStep hrunning hwork
      obtain ⟨-, hconn⟩ := Option.ite_none_right_eq_some.mp hinner
      obtain ⟨hconnLt, -, recvTask, r, -, -, hsettle⟩ := connStep_cases hconn
      have hless : serverMeasure count server + event.productive.toNat ≤
          serverMeasure count s.server :=
        measured_server h hlt s.server (.work worker event) server hserver hwork
      have hsum : ∑ conn ∈ Finset.range (count + 1), EdgeState.outstanding
          ⟨server, Function.update s.sockets (order.conn task)
            ((s.sockets (order.conn task)).wake late event.bytes.length)⟩ conn + late ≤
          ∑ conn ∈ Finset.range (count + 1), s.outstanding conn := by
        refine sum_add_le (Finset.mem_range.mpr hconnLt) ?_ fun other _ hne => ?_
        · simp only [EdgeState.outstanding, hsettle, ConnState.settle, Function.update_self,
            Socket.wake, List.length_drop]
          omega
        · simp only [EdgeState.outstanding, hsettle, ConnState.settle, Function.update_of_ne hne,
            le_refl]
      have hflags : (event.productive || decide (0 < late)).toNat ≤
          event.productive.toNat + late := by
        by_cases hlate : 0 < late
        · have hflag := (event.productive || decide (0 < late)).toNat_le
          omega
        · rw [decide_eq_false hlate, Bool.or_false]
          exact Nat.le_add_right _ _
      simp only [edgeProductive]
      omega
  | @other a server hwork hother =>
      have hless := measured_server h hlt s.server _ server hserver hother
      have hsame : ∀ conn, EdgeState.outstanding { s with server := server } conn =
          s.outstanding conn := by
        intro conn
        simp only [EdgeState.outstanding, inner_of_serverStep hwork hother]
      simp only [hsame, edgeProductive]
      omega

/-! ## Streams that fit the budget -/

/-- No stream is longer than what one wake-up reads. -/
def Fits (fileSize count : ℕ) (texts : ℕ → List UInt8) : Prop :=
  ∀ conn < count, (texts (conn + 1)).length ≤ readsMaxBytesFor (fileSize / count)

theorem readBudget_of_beginRead {conns : ConnState} {conn nLeft : ℕ} {task : RecvTask}
    {g : Globals} (hwaiting : conns.status conn = .waiting task)
    (hbegin : beginRead conns.globals task = .ok (g, nLeft)) : conns.readBudget conn = nLeft := by
  rw [ConnState.readBudget, hwaiting]
  simp only [hbegin]

/-- What is left of a stream is its end. -/
theorem undelivered_suffix {conns : ConnState}
    (hs : (startConns z fuel count texts).Reachable conns) (conn : ℕ) :
    conns.undelivered conn <:+ texts conn := by
  refine hs.invariant (I := fun conns => conns.undelivered conn <:+ texts conn) List.suffix_rfl ?_
  intro conns a conns' hsuffix hstep
  obtain ⟨-, -, task, r, -, -, rfl⟩ := connStep_cases (Option.ite_none_right_eq_some.mp hstep).2
  by_cases hsame : conn = a.conn
  · subst hsame
    simp only [ConnState.settle, Function.update_self]
    exact (List.drop_suffix _ _).trans hsuffix
  · simpa only [ConnState.settle, Function.update_of_ne hsame] using hsuffix

/-- The bytes that a first read has to get: the file header, or the header of a slice. -/
def firstRead (texts : ℕ → List UInt8) (conn : ℕ) : ℕ :=
  if conn = 0 then (texts 0).length else kEachSliceHeaderLen

theorem firstRead_le (h : AllSent z R fuel fileSize count texts order ships) (conn : ℕ) :
    firstRead texts conn ≤ kFileSliceHeaderLen + 1 := by
  rw [firstRead]
  split
  · exact h.header_le
  · decide

/-- A task that waits is missing something, it asks for all of it or for `reads_max_bytes_`, and
it can read any part of it that it asks for. -/
theorem exists_wake {tasks : ThreadPool.Service ConnState}
    (h : AllSent z R fuel fileSize count texts order ships)
    (hs : (receiver z fuel count texts order).Reachable tasks) {worker k : ℕ} {task : RecvTask}
    (hrunning : tasks.pool.workers worker = .running k)
    (hwaiting : tasks.inner.status (order.conn k) = .waiting task) :
    tasks.inner.undelivered (order.conn k) ≠ [] ∧
      (task = {} → firstRead texts (order.conn k) ≤
        (tasks.inner.undelivered (order.conn k)).length) ∧
      ((tasks.inner.undelivered (order.conn k)).length ≤
          tasks.inner.readBudget (order.conn k) ∨
        readsMaxBytesFor (fileSize / count) ≤ tasks.inner.readBudget (order.conn k)) ∧
      ∀ piece, piece <+: tasks.inner.undelivered (order.conn k) →
        piece.length ≤ tasks.inner.readBudget (order.conn k) →
        (task = {} → firstRead texts (order.conn k) ≤ piece.length) →
        (startConns z fuel count texts).step tasks.inner ⟨order.conn k,
          arrival (tasks.inner.readBudget (order.conn k)) piece⟩ ≠ none := by
  have hstarted := started_of_reachable h hs
  rcases header_of_running h.first hs hrunning with hzero | ⟨hexited, conn, hconn⟩
  · -- the header, of which nothing has been read
    rw [hzero] at hwaiting ⊢
    rcases hstarted with hinit | ⟨hreturned, -⟩
    · rw [hinit] at hwaiting ⊢
      cases hwaiting
      have hsome : texts 0 ≠ [] := by
        rw [h.header]
        exact List.cons_ne_nil _ _
      refine ⟨hsome, fun _ => le_refl _, Or.inl h.header_le, fun piece hpiece _ hlong => ?_⟩
      obtain rfl : piece = texts 0 := hpiece.eq_of_length (le_antisymm hpiece.length_le (hlong rfl))
      exact header_arrival h.header_le
    · rw [hreturned] at hwaiting
      cases hwaiting
  · obtain ⟨-, hfleet⟩ := hstarted.of_hasExited hexited
    obtain ⟨hpushed, hle⟩ :=
      ThreadPool.Service.job_lt_of_running endedForGood_startConns hs hrunning
    have hlt : conn < count := by
      have hbelow := (order.conn_lt_iff k).mpr (hpushed.trans_le hle)
      rw [hconn] at hbelow
      exact Nat.lt_of_succ_lt_succ hbelow
    rw [hconn] at hwaiting ⊢
    obtain ⟨hleft, nLeft, hbegin, -, hcovers, hheader, hsome⟩ := exists_arrival h.bounded
      h.regenerates h.size_lt h.delivery (recorded_recordHeader fileSize count _) h.accepts hfleet
      hlt (h.whole conn hlt) hwaiting
    have hbudget : tasks.inner.readBudget (conn + 1) = nLeft :=
      readBudget_of_beginRead hwaiting hbegin
    rw [hbudget]
    refine ⟨hleft, fun hfirst => (hheader hfirst).2, min_le_iff.mp hcovers,
      fun piece hpiece hle hlong hnone => hsome piece hpiece hle hlong ?_⟩
    rw [← startConns_step_slices]
    exact Option.map_eq_none_iff.mpr hnone

theorem fileHeader_le_readsMaxBytesFor (splitLen : ℕ) :
    kFileSliceHeaderLen + 1 ≤ readsMaxBytesFor splitLen := by
  rcases readsMaxBytesFor_cases splitLen with h | h
  · rw [h]
    decide
  · rw [h]
    decide

/-- When the streams fit, a task that waits asks for all that it is missing. -/
theorem le_readBudget {tasks : ThreadPool.Service ConnState}
    (h : AllSent z R fuel fileSize count texts order ships) (hfits : Fits fileSize count texts)
    (hs : (receiver z fuel count texts order).Reachable tasks) {worker k : ℕ} {task : RecvTask}
    (hrunning : tasks.pool.workers worker = .running k)
    (hwaiting : tasks.inner.status (order.conn k) = .waiting task) :
    (tasks.inner.undelivered (order.conn k)).length ≤ tasks.inner.readBudget (order.conn k) := by
  obtain ⟨-, -, hall | hmost, -⟩ := exists_wake h hs hrunning hwaiting
  · exact hall
  refine le_trans ?_ hmost
  have hsuffix := undelivered_suffix (ThreadPool.crew_of_service hs).crew_inner (order.conn k)
  refine hsuffix.length_le.trans ?_
  rcases header_of_running h.first hs hrunning with hzero | ⟨-, conn, hconn⟩
  · rw [hzero]
    exact h.header_le.trans (fileHeader_le_readsMaxBytesFor _)
  · obtain ⟨hpushed, hle⟩ :=
      ThreadPool.Service.job_lt_of_running endedForGood_startConns hs hrunning
    have hlt := (order.conn_lt_iff k).mpr (hpushed.trans_le hle)
    rw [hconn] at hlt ⊢
    exact hfits conn (Nat.lt_of_succ_lt_succ hlt)

/-! ## What is left in the sockets -/

/-- A socket holds no more than was sent, and behind the FIN all of it. -/
structure EdgeState.Within (s : EdgeState) : Prop where
  unread_le : ∀ conn,
    (s.sockets conn).unread ≤ (s.server.tasks.inner.undelivered conn).length
  unread_eq : ∀ conn, (s.sockets conn).fin = true →
    (s.sockets conn).unread = (s.server.tasks.inner.undelivered conn).length

/-- A connection other than the one of a step keeps its socket. -/
theorem within_update {server : ServerState} {conn : ℕ} {socket : Socket} (h : s.Within)
    (hle : socket.unread ≤ (server.tasks.inner.undelivered conn).length)
    (heq : socket.fin = true → socket.unread = (server.tasks.inner.undelivered conn).length)
    (hothers : ∀ other ≠ conn, server.tasks.inner.undelivered other =
      s.server.tasks.inner.undelivered other) :
    EdgeState.Within ⟨server, Function.update s.sockets conn socket⟩ := by
  constructor
  · intro other
    by_cases hsame : other = conn
    · subst hsame
      simp only [Function.update_self]
      exact hle
    · simp only [Function.update_of_ne hsame, hothers other hsame]
      exact h.unread_le other
  · intro other hfin
    by_cases hsame : other = conn
    · subst hsame
      simp only [Function.update_self] at hfin ⊢
      exact heq hfin
    · simp only [Function.update_of_ne hsame, hothers other hsame] at hfin ⊢
      exact h.unread_eq other hfin

theorem EdgeState.Within.step {a : EdgeAction} (h : s.Within)
    (hstep : edgeStep z fuel count texts order s a = some s') : s'.Within := by
  cases edgeNext_of_step hstep with
  | @arrive conn bytes _ hpos hle =>
      refine within_update h hle (fun hfin => ?_) fun _ _ => rfl
      -- behind the FIN nothing arrives
      have hall := h.unread_eq conn hfin
      omega
  | arriveFin _ _ hall => exact within_update h hall.le (fun _ => hall) fun _ _ => rfl
  | @wake worker task late event server hrunning hwakes hwork =>
      obtain ⟨-, hle, -, -⟩ := hwakes
      obtain ⟨-, hinner⟩ := work_of_serverStep hrunning hwork
      obtain ⟨-, hconn⟩ := Option.ite_none_right_eq_some.mp hinner
      obtain ⟨-, -, recvTask, r, -, -, hsettle⟩ := connStep_cases hconn
      have hleft : (server.tasks.inner.undelivered (order.conn task)).length =
          (s.server.tasks.inner.undelivered (order.conn task)).length - event.bytes.length := by
        rw [hsettle]
        simp [ConnState.settle]
      refine within_update h ?_ (fun hfin => ?_) fun other hne => ?_
      · rw [hleft]
        exact Nat.sub_le_sub_right hle _
      · have hall := h.unread_eq (order.conn task) hfin
        rw [hleft]
        show (s.sockets (order.conn task)).unread + late - event.bytes.length = _
        omega
      · rw [hsettle]
        exact Function.update_of_ne hne ..
  | other hwork hother =>
      have hsame := inner_of_serverStep hwork hother
      refine ⟨fun conn => ?_, fun conn hfin => ?_⟩
      · simp only [hsame]
        exact h.unread_le conn
      · simp only [hsame]
        exact h.unread_eq conn hfin

theorem within_of_reachable {guard : EdgeState → EdgeAction → Prop}
    (h : (edgeServer z fuel count texts order).ReachableVia guard s) : s.Within := by
  refine ReachableVia.invariant ?_ (fun _ _ _ hs _ hnext => hs.step hnext) h
  exact ⟨fun _ => Nat.zero_le _, fun _ hfin => by cases hfin⟩

/-- A task that waits beside a flag that is not set has an empty socket. -/
def EdgeState.Drained (s : EdgeState) : Prop :=
  ∀ conn task, s.server.tasks.inner.status conn = .waiting task →
    (s.sockets conn).pending = false → (s.sockets conn).unread = 0

/-- **A wake-up that clears the flag has read everything, if the task asks for all that is in
the socket.** -/
theorem EdgeState.Drained.step {a : EdgeAction} (hdrained : s.Drained)
    (hcovers : ∀ worker k task, s.server.tasks.pool.workers worker = .running k →
      s.server.tasks.inner.status (order.conn k) = .waiting task →
      (s.sockets (order.conn k)).unread ≤ s.server.tasks.inner.readBudget (order.conn k))
    (hstep : edgeStep z fuel count texts order s a = some s') : s'.Drained := by
  have hset : ∀ {conn : ℕ} {socket : Socket}, socket.pending = true →
      EdgeState.Drained { s with sockets := Function.update s.sockets conn socket } := by
    intro conn socket hpending other task hwaiting hclear
    by_cases hsame : other = conn
    · rw [hsame] at hclear
      simp only [Function.update_self] at hclear
      exact absurd (hpending.symm.trans hclear) (by decide)
    · simp only [Function.update_of_ne hsame] at hclear ⊢
      exact hdrained other task hwaiting hclear
  cases edgeNext_of_step hstep with
  | arrive _ _ _ => exact hset rfl
  | arriveFin _ _ _ => exact hset rfl
  | @wake worker k late event server hrunning hwakes hwork =>
      obtain ⟨-, hle, htaken, hloop⟩ := hwakes
      obtain ⟨-, hinner⟩ := work_of_serverStep hrunning hwork
      obtain ⟨hclean, hconn⟩ := Option.ite_none_right_eq_some.mp hinner
      obtain ⟨-, -, recvTask, r, hstatus, -, hsettle⟩ := connStep_cases hconn
      intro other task hwaiting hclear
      by_cases hsame : other = order.conn k
      · subst hsame
        simp only [Function.update_self, Socket.wake, decide_eq_false_iff_not] at hclear ⊢
        cases event with
        | epollFailed => exact hclean.elim
        | notReadable =>
            have hnone : (s.sockets (order.conn k)).unread + late = 0 := hloop
            omega
        | readable stale reads =>
            rcases hloop with hall | hasked
            · omega
            · have hall := hcovers worker k recvTask hrunning hstatus
              omega
      · simp only [Function.update_of_ne hsame] at hclear ⊢
        refine hdrained other task ?_ hclear
        rw [hsettle] at hwaiting
        exact (Function.update_of_ne hsame ..).symm.trans hwaiting
  | other hwork hother =>
      intro conn task hwaiting hclear
      rw [inner_of_serverStep hwork hother] at hwaiting
      exact hdrained conn task hwaiting hclear

theorem drained_of_reachable (h : AllSent z R fuel fileSize count texts order ships)
    (hfits : Fits fileSize count texts)
    (hs : (edgeServer z fuel count texts order).Reachable s) : s.Drained := by
  induction hs with
  | init => exact fun _ _ _ _ => rfl
  | step hreach _ hnext ih =>
      refine ih.step (fun worker k task hrunning hwaiting => ?_) hnext
      have hle := (within_of_reachable hreach).unread_le (order.conn k)
      exact hle.trans (le_readBudget h hfits (tasks_of_server (server_reachable hreach)) hrunning
        hwaiting)

/-- **What is in the socket of a task that waits can be read**, when the task asks for all of it
and a first read gets its header. -/
theorem exists_wakeStep (h : AllSent z R fuel fileSize count texts order ships)
    (hs : (receiver z fuel count texts order).Reachable s.server.tasks) (hdrained : s.Drained)
    {worker k : ℕ} {task : RecvTask}
    (hrunning : s.server.tasks.pool.workers worker = .running k)
    (hwaiting : s.server.tasks.inner.status (order.conn k) = .waiting task)
    (hwithin : (s.sockets (order.conn k)).unread ≤
      (s.server.tasks.inner.undelivered (order.conn k)).length)
    (hread : (s.sockets (order.conn k)).unread ≤ s.server.tasks.inner.readBudget (order.conn k))
    (hsome : 0 < (s.sockets (order.conn k)).unread)
    (hlong : task = {} → firstRead texts (order.conn k) ≤ (s.sockets (order.conn k)).unread) :
    ∃ event, edgeProductive s (.wake worker event 0) = true ∧
      edgeStep z fuel count texts order s (.wake worker event 0) ≠ none := by
  obtain ⟨-, -, -, hpieces⟩ := exists_wake h hs hrunning hwaiting
  have hworker := ThreadPool.Service.worker_lt_of_running endedForGood_startConns hs hrunning
  have hpending : (s.sockets (order.conn k)).pending = true := by
    by_contra hclear
    exact hsome.ne' (hdrained _ task hwaiting (Bool.eq_false_iff.mpr hclear))
  obtain ⟨piece, hpiece, hlength⟩ : ∃ piece,
      piece <+: s.server.tasks.inner.undelivered (order.conn k) ∧
        piece.length = (s.sockets (order.conn k)).unread :=
    ⟨_, List.take_prefix _ _, List.length_take_of_le hwithin⟩
  rw [← hlength] at hread hlong
  have hbytes := bytes_arrival (s.server.tasks.inner.readBudget (order.conn k)) piece
  have hwakes : s.server.tasks.inner.Wakes (s.sockets (order.conn k)) (order.conn k) 0
      (arrival (s.server.tasks.inner.readBudget (order.conn k)) piece) := by
    refine ⟨hpending, hwithin, ?_, Or.inl ?_⟩
    · rw [hbytes]
      exact hlength.le
    · exact (congrArg List.length hbytes).trans hlength
  refine ⟨arrival (s.server.tasks.inner.readBudget (order.conn k)) piece, ?_, fun hnone => ?_⟩
  · have hne : piece ≠ [] := List.ne_nil_of_length_pos (hlength ▸ hsome)
    rw [edgeProductive, RecvEvent.productive, hbytes, decide_eq_true hne]
    rfl
  · rw [edgeStep, hrunning] at hnone
    simp only [if_pos hwakes, Option.map_eq_none_iff] at hnone
    rw [serverStep_work hworker hrunning, Option.map_eq_none_iff] at hnone
    exact hpieces piece hpiece hread hlong hnone

/-! ## Where a run comes to its end -/

section Settled

variable {guard : ServerState → ServerAction → Prop} [∀ s a, Decidable (guard s a)]

theorem edgeStep_of_settled
    (hsettled : ((edgeServer z fuel count texts order).restrict (Allowed guard)).Settled
      edgeProductive s) {a : EdgeAction} (hproductive : edgeProductive s a = true)
    (hallowed : Allowed guard s a) : edgeStep z fuel count texts order s a = none :=
  hsettled.step_eq_none hproductive hallowed

/-- Everything has arrived. -/
theorem unread_of_settled
    (hs : (edgeServer z fuel count texts order).ReachableVia (Allowed guard) s)
    (hsettled : ((edgeServer z fuel count texts order).restrict (Allowed guard)).Settled
      edgeProductive s) {conn : ℕ} (hconn : conn < count + 1) :
    (s.sockets conn).unread = (s.server.tasks.inner.undelivered conn).length := by
  have hle := (within_of_reachable hs).unread_le conn
  by_contra hne
  have hnone : edgeStep z fuel count texts order s (.arrive conn
      ((s.server.tasks.inner.undelivered conn).length - (s.sockets conn).unread)) = none :=
    edgeStep_of_settled hsettled rfl fun _ hseen => by cases hseen
  rw [edgeStep, if_pos ⟨hconn, by omega, by omega⟩] at hnone
  cases hnone

/-- **When the streams fit, the receiver has nothing left to do either.** -/
theorem idle_of_settled (h : AllSent z R fuel fileSize count texts order ships)
    (hfits : Fits fileSize count texts)
    (himp : ∀ s a, Connects a → Timely count s a → guard s a)
    (hs : (edgeServer z fuel count texts order).ReachableVia (Allowed guard) s)
    (hsettled : ((edgeServer z fuel count texts order).restrict (Allowed guard)).Settled
      edgeProductive s) : Idle z fuel texts order s.server := by
  intro a hconnects htimely hproductive
  by_cases hwork : ∀ worker event, a ≠ .work worker event
  · have hnone : edgeStep z fuel count texts order s (.other a) = none := by
      refine edgeStep_of_settled hsettled hproductive ?_
      rintro b ⟨⟩
      exact himp s.server a hconnects htimely
    rw [edgeStep_other hwork, Option.map_eq_none_iff] at hnone
    exact hnone
  · push Not at hwork
    obtain ⟨worker, event, rfl⟩ := hwork
    by_contra hsome
    obtain ⟨server, hserver⟩ := Option.ne_none_iff_exists'.mp hsome
    have hreach := tasks_of_server (server_reachable hs)
    cases serverNext_of_step hserver with
    | @work _ _ tasks htasks =>
        obtain ⟨-, k, hrunning, hinner⟩ := work_of_step htasks
        obtain ⟨-, hconn⟩ := Option.ite_none_right_eq_some.mp hinner
        obtain ⟨hlt, -, task, r, hwaiting, -, -⟩ := connStep_cases hconn
        obtain ⟨hleft, hfirst, -, -⟩ := exists_wake h hreach hrunning hwaiting
        -- all that is left of the stream has arrived, and the task asks for all of it
        have hall := unread_of_settled hs hsettled hlt
        have hread := le_readBudget h hfits hreach hrunning hwaiting
        have hpos := List.length_pos_iff.mpr hleft
        rw [← hall] at hread hfirst hpos
        obtain ⟨event, hwake, hstep⟩ := exists_wakeStep h hreach
          (drained_of_reachable h hfits (hs.imp fun _ _ _ => trivial)) hrunning hwaiting hall.le
          hread hpos hfirst
        refine hstep (edgeStep_of_settled hsettled hwake ?_)
        rintro b ⟨⟩
        exact himp s.server _ trivial fun heq => by cases heq

end Settled

/-! ## A stream that does not fit -/

/-- All that was sent arrives, each stream at once, before anything is read. -/
def ArriveFirst (count : ℕ) (s : EdgeState) : EdgeAction → Prop
  | .arrive conn bytes => bytes = (s.server.tasks.inner.undelivered conn).length
  | .wake _ _ _ => ∀ conn < count + 1, (s.sockets conn).fin = true
  | _ => True

instance (count : ℕ) (s : EdgeState) : (a : EdgeAction) → Decidable (ArriveFirst count s a)
  | .arrive _ _ => inferInstanceAs (Decidable (_ = _))
  | .wake _ _ _ => inferInstanceAs (Decidable (∀ conn < count + 1, _ = _))
  | .arriveFin _ | .other _ => isTrue trivial

/-- The socket is empty, or it holds all that is left of the stream. -/
theorem arriveFirst_unread
    (hs : (edgeServer z fuel count texts order).ReachableVia (ArriveFirst count) s) (conn : ℕ) :
    (s.sockets conn).unread = 0 ∨
      (s.sockets conn).unread = (s.server.tasks.inner.undelivered conn).length := by
  induction hs with
  | init => exact Or.inl rfl
  | @step s s' a hreach hfirst hnext ih =>
      cases edgeNext_of_step hnext with
      | @arrive other bytes _ _ hle =>
          by_cases hsame : conn = other
          · subst hsame
            have hall : bytes = (s.server.tasks.inner.undelivered conn).length := hfirst
            right
            simp only [Function.update_self, Socket.arrive]
            omega
          · simpa only [Function.update_of_ne hsame] using ih
      | @arriveFin other _ _ _ =>
          by_cases hsame : conn = other
          · subst hsame
            simpa only [Function.update_self, Socket.arriveFin] using ih
          · simpa only [Function.update_of_ne hsame] using ih
      | @wake worker task late event server hrunning hwakes hwork =>
          obtain ⟨-, hle, -, -⟩ := hwakes
          obtain ⟨-, hinner⟩ := work_of_serverStep hrunning hwork
          obtain ⟨-, hconn⟩ := Option.ite_none_right_eq_some.mp hinner
          obtain ⟨hlt, -, recvTask, r, -, -, hsettle⟩ := connStep_cases hconn
          by_cases hsame : conn = order.conn task
          · subst hsame
            have hall := (within_of_reachable hreach).unread_eq (order.conn task) (hfirst _ hlt)
            right
            simp only [Function.update_self, Socket.wake, hsettle, ConnState.settle,
              List.length_drop]
            omega
          · simpa only [Function.update_of_ne hsame, hsettle, ConnState.settle] using ih
      | other hwork hother =>
          simpa only [inner_of_serverStep hwork hother] using ih

/-- Nothing has been read from the connection, or its task waits for bytes that are in the
socket, beside a flag that nothing will set again. -/
def LeftBehind (texts : ℕ → List UInt8) (conn : ℕ) (s : EdgeState) : Prop :=
  ∃ task, s.server.tasks.inner.status conn = .waiting task ∧
    (task = {} ∧ s.server.tasks.inner.undelivered conn = texts conn ∨
      s.server.tasks.inner.undelivered conn ≠ [] ∧ (s.sockets conn).pending = false ∧
        (s.sockets conn).fin = true)

/-- A first wake-up leaves something of a stream that does not fit. -/
theorem waiting_of_overlong {tasks tasks' : ThreadPool.Service ConnState} {worker k conn : ℕ}
    {event : RecvEvent} (h : AllSent z R fuel fileSize count texts order ships)
    (hconn : conn < count)
    (hlong : readsMaxBytesFor (fileSize / count) < (texts (conn + 1)).length)
    (hs : (receiver z fuel count texts order).Reachable tasks)
    (hs' : (receiver z fuel count texts order).Reachable tasks')
    (hrunning : tasks.pool.workers worker = .running k) (hthis : order.conn k = conn + 1)
    (hwaiting : tasks.inner.status (conn + 1) = .waiting {})
    (hwhole : tasks.inner.undelivered (conn + 1) = texts (conn + 1))
    (hstep : (startConns z fuel count texts).step tasks.inner ⟨conn + 1, event⟩ =
      some tasks'.inner) :
    (∃ task, tasks'.inner.status (conn + 1) = .waiting task) ∧
      tasks'.inner.undelivered (conn + 1) ≠ [] := by
  have hheader : tasks.inner.hasExited 0 = true := by
    rcases header_of_running h.first hs hrunning with hzero | ⟨hexited, -⟩
    · rw [hzero] at hthis
      cases hthis
    · exact hexited
  obtain ⟨hclean, hnext⟩ := Option.ite_none_right_eq_some.mp hstep
  obtain ⟨-, hfleet⟩ := (started_of_reachable h hs).of_hasExited hheader
  obtain ⟨-, hfleet'⟩ := (started_of_reachable h hs').of_hasExited
    (hasExited_of_connStep hnext hheader)
  obtain ⟨hrecorded, -, -⟩ := fleet_inv h.bounded h.regenerates h.size_lt h.delivery
    (recorded_recordHeader fileSize count _) h.accepts hfleet
  obtain ⟨-, -, hcourse⟩ := fleet_inv h.bounded h.regenerates h.size_lt h.delivery
    (recorded_recordHeader fileSize count _) h.accepts hfleet'
  obtain ⟨-, hbytes, task, r, hstatus, hr, hsettle⟩ := connStep_cases hnext
  rw [hwaiting, RecvStatus.waiting.injEq] at hstatus
  subst hstatus
  obtain ⟨before, hbefore, rfl⟩ := Option.map_eq_some_iff.mp hr
  -- a first read asks for `reads_max_bytes_`
  have hless : event.bytes.length < (texts (conn + 1)).length := by
    cases event with
    | epollFailed => exact hclean.elim
    | notReadable => exact Nat.zero_lt_of_lt hlong
    | readable stale reads =>
        have hslice : tasks.inner.globals.expectsHeader = false := hrecorded.expectsHeader
        obtain ⟨hasked, -⟩ := receive_delivers ⟨stale, reads, hclean.1, rfl⟩ hbefore
          (beginRead_first hslice)
        have hbudget : tasks.inner.globals.readsMaxBytes = readsMaxBytesFor (fileSize / count) :=
          hrecorded.readsMaxBytes_eq
        exact hasked.trans_lt (hbudget ▸ hlong)
  have hleft : tasks'.inner.undelivered (conn + 1) =
      (texts (conn + 1)).drop event.bytes.length := by
    rw [hsettle, ← hwhole]
    exact Function.update_self ..
  have hmore : tasks'.inner.undelivered (conn + 1) ≠ [] := by
    rw [hleft]
    exact List.ne_nil_of_length_pos (by rw [List.length_drop]; omega)
  refine ⟨?_, hmore⟩
  have hthere := hcourse conn hconn
  change OnCourse (tasks'.inner.undelivered (conn + 1) ++ _) (tasks'.inner.status (conn + 1))
    at hthere
  cases hwhere : tasks'.inner.status (conn + 1) with
  | waiting task => exact ⟨task, rfl⟩
  | complete index =>
      rw [hwhere] at hthere
      exact hthere.elim
  | exited exit =>
      rw [hwhere] at hthere
      exact absurd (List.append_eq_nil_iff.mp hthere.2).1 hmore

theorem LeftBehind.step {a : EdgeAction} {conn : ℕ}
    (h : AllSent z R fuel fileSize count texts order ships) (hconn : conn < count)
    (hlong : readsMaxBytesFor (fileSize / count) < (texts (conn + 1)).length)
    (hs : (edgeServer z fuel count texts order).ReachableVia (ArriveFirst count) s)
    (hleft : LeftBehind texts (conn + 1) s) (hfirst : ArriveFirst count s a)
    (hstep : edgeStep z fuel count texts order s a = some s') :
    LeftBehind texts (conn + 1) s' := by
  have hwithin := within_of_reachable hs
  obtain ⟨task, hwaiting, hwhere⟩ := hleft
  cases edgeNext_of_step hstep with
  | @arrive other bytes _ hpos hle =>
      refine ⟨task, hwaiting, hwhere.imp_right ?_⟩
      rintro ⟨hmore, hclear, hfin⟩
      by_cases hsame : conn + 1 = other
      · -- behind the FIN nothing arrives
        subst hsame
        have hall := hwithin.unread_eq _ hfin
        omega
      · simp only [Function.update_of_ne hsame]
        exact ⟨hmore, hclear, hfin⟩
  | @arriveFin other _ hopen _ =>
      refine ⟨task, hwaiting, hwhere.imp_right ?_⟩
      rintro ⟨hmore, hclear, hfin⟩
      by_cases hsame : conn + 1 = other
      · subst hsame
        exact absurd (hfin.symm.trans hopen) (by decide)
      · simp only [Function.update_of_ne hsame]
        exact ⟨hmore, hclear, hfin⟩
  | @wake worker k late event server hrunning hwakes hwork =>
      obtain ⟨hpending, hle, -, -⟩ := hwakes
      obtain ⟨-, hinner⟩ := work_of_serverStep hrunning hwork
      by_cases hsame : conn + 1 = order.conn k
      · rw [← hsame] at hpending hle hinner
        rcases hwhere with ⟨rfl, hwhole⟩ | ⟨-, hclear, -⟩
        · have hfin := hfirst (conn + 1) (Nat.succ_lt_succ hconn)
          have hall := hwithin.unread_eq _ hfin
          have htasks := tasks_of_server (server_reachable hs)
          have htasks' := tasks_of_server (server_reachable (hs.step hfirst hstep))
          obtain ⟨⟨later, hlater⟩, hmore⟩ := waiting_of_overlong h hconn hlong htasks htasks'
            hrunning hsame.symm hwaiting hwhole hinner
          refine ⟨later, hlater, Or.inr ⟨hmore, ?_, ?_⟩⟩
          · rw [← hsame]
            simp only [Function.update_self, Socket.wake, decide_eq_false_iff_not]
            omega
          · rw [← hsame]
            simp only [Function.update_self, Socket.wake]
            exact hfin
        · exact absurd (hpending.symm.trans hclear) (by decide)
      · obtain ⟨-, hnext⟩ := Option.ite_none_right_eq_some.mp hinner
        obtain ⟨-, -, recvTask, r, -, -, hsettle⟩ := connStep_cases hnext
        refine ⟨task, ?_, ?_⟩
        · rw [hsettle]
          exact (Function.update_of_ne hsame ..).trans hwaiting
        · simp only [hsettle, ConnState.settle, Function.update_of_ne hsame]
          exact hwhere
  | other hwork hother =>
      have hsame := inner_of_serverStep hwork hother
      exact ⟨task, by rw [hsame]; exact hwaiting, by rw [hsame]; exact hwhere⟩

section ArriveFirst

variable {guard : ServerState → ServerAction → Prop} [∀ s a, Decidable (guard s a)]

/-- Where a run in which everything arrives first has come to its end, no run goes on. -/
theorem settled_of_arriveFirst
    (hs : (edgeServer z fuel count texts order).ReachableVia (ArriveFirst count) s)
    (hsettled : ((edgeServer z fuel count texts order).restrict
      fun s a => Allowed guard s a ∧ ArriveFirst count s a).Settled edgeProductive s) :
    ((edgeServer z fuel count texts order).restrict (Allowed guard)).Settled edgeProductive s := by
  have hnone : ∀ a, edgeProductive s a = true → Allowed guard s a → ArriveFirst count s a →
      edgeStep z fuel count texts order s a = none := fun a hproductive hallowed hfirst =>
    Settled.step_eq_none hsettled hproductive ⟨hallowed, hfirst⟩
  have hall : ∀ conn < count + 1,
      (s.sockets conn).unread = (s.server.tasks.inner.undelivered conn).length := by
    intro conn hconn
    rcases arriveFirst_unread hs conn with hzero | hall
    · by_contra hne
      have harrive := hnone (.arrive conn (s.server.tasks.inner.undelivered conn).length) rfl
        (fun _ hseen => by cases hseen) rfl
      rw [edgeStep, if_pos ⟨hconn, by omega, by omega⟩] at harrive
      cases harrive
    · exact hall
  have hfin : ∀ conn < count + 1, (s.sockets conn).fin = true := by
    intro conn hconn
    by_contra hopen
    have harrive := hnone (.arriveFin conn) rfl (fun _ hseen => by cases hseen) trivial
    rw [edgeStep, if_pos ⟨hconn, Bool.eq_false_iff.mpr hopen, hall conn hconn⟩] at harrive
    cases harrive
  intro a hproductive
  show (if Allowed guard s a then edgeStep z fuel count texts order s a else none) = none
  by_cases hallowed : Allowed guard s a
  · rw [if_pos hallowed]
    cases a with
    | arrive conn bytes =>
        refine if_neg ?_
        rintro ⟨hconn, hpos, hle⟩
        have hthis := hall conn hconn
        omega
    | wake worker event late => exact hnone _ hproductive hallowed hfin
    | arriveFin conn => exact hnone _ hproductive hallowed trivial
    | other a => exact hnone _ hproductive hallowed trivial
  · exact if_neg hallowed

/-- **A stream that does not fit is left behind in some run.** -/
theorem fits_of_endsIn {P : EdgeState → Prop}
    (h : AllSent z R fuel fileSize count texts order ships) (hlt : count < 32767)
    (hP : ∀ s, P s → ∀ conn < count, s.server.tasks.inner.hasExited (conn + 1) = true)
    (hends : ((edgeServer z fuel count texts order).restrict (Allowed guard)).EndsIn
      edgeProductive P) : Fits fileSize count texts := by
  intro conn hconn
  by_contra hover
  have hlong := Nat.not_le.mp hover
  have hmeasured : ((edgeServer z fuel count texts order).restrict
      fun s a => Allowed guard s a ∧ ArriveFirst count s a).Measured edgeProductive
        (edgeMeasure count) := (measured_edge h hlt).restrict
  obtain ⟨actions, s, hrun, hsettled⟩ := hmeasured.exists_run_settled (Reachable.init _)
  have hvia := ReachableVia.of_restrict (reachable_of_run hrun)
  have hfirst : (edgeServer z fuel count texts order).ReachableVia (ArriveFirst count) s :=
    hvia.imp fun _ _ hguard => hguard.2
  have hs : ((edgeServer z fuel count texts order).restrict (Allowed guard)).Reachable s :=
    (hvia.imp fun _ _ hguard => hguard.1).restrict
  have hleft : LeftBehind texts (conn + 1) s := by
    clear hrun hsettled hvia hs
    induction hfirst with
    | init => exact ⟨{}, rfl, Or.inl ⟨rfl, rfl⟩⟩
    | step hreach hguard hnext ih => exact ih.step h hconn hlong hreach hguard hnext
  have hdone := hP s (hends.settled s hs (settled_of_arriveFirst hfirst hsettled)) conn hconn
  obtain ⟨task, hwaiting, -⟩ := hleft
  rw [ConnState.hasExited, hwaiting] at hdone
  cases hdone

end ArriveFirst

end Edge

end SliceTransfer.Server

namespace SliceTransfer

open Bytes Decimal FileSlice Server Supervisor TransitionSystem

/-! ## The result -/

/-- Whether the streams of the slices fit. -/
theorem fits_iff {C : Type} {zc : ZstdCompress C} {stray : ℤ → UInt8} {content : List UInt8}
    {jobs fileSize : ℕ} {slices framed : List FileSlice} {text : List UInt8}
    {streams : List (List UInt8)}
    (hsent : SentByDefault zc stray content jobs slices framed streams) :
    Fits fileSize slices.length (textsOf text streams) ↔
      ∀ stream ∈ streams, stream.length ≤ readsMaxBytesFor (fileSize / slices.length) := by
  obtain ⟨fuel, hcompress⟩ := hsent.compressed
  have hlength : streams.length = slices.length :=
    hsent.sent.length_eq.symm.trans hcompress.length_eq.symm
  have hget : ∀ conn, (hconn : conn < streams.length) →
      textsOf text streams (conn + 1) = streams.get ⟨conn, hconn⟩ := by
    intro conn hconn
    simp [textsOf, List.getD_eq_getElem?_getD, hconn]
  constructor
  · intro hfits stream hstream
    obtain ⟨i, rfl⟩ := List.mem_iff_get.mp hstream
    have hthis := hfits i (hlength ▸ i.isLt)
    rwa [hget i i.isLt] at hthis
  · intro hall conn hconn
    rw [hget conn (hlength ▸ hconn)]
    exact hall _ (List.get_mem _ _)

end SliceTransfer
