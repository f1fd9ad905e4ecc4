import SliceTransfer.Transmission

/-!
# Where a transmission comes to its end

Nobody waits for ever.  In a settled state a `Run` that a worker of the sender is in waits for
room in the send buffer (`room_of_settled`), so there is a byte that has not arrived, so the
receive buffer of its connection is full.  All connections that were made have been accepted, and
the worker of the receiver serves them one after the other; the one that it is in has bytes in
its socket that it can read, or else the `Run` on the other side is not blocked
(`not_waiting_of_settled`).  So the receiver has read everything, and there is room again
(`not_running_of_settled`).

The slices may be more than the workers of the sender.  One of these is in `Supervise`, so a
second one has to be there (`ended_of_settled`).
-/

namespace SliceTransfer.Transmission

open Bytes FileSlice Server SendingFlow Supervisor TransitionSystem

section Transmission

variable {C D : Type} {zc : ZstdCompress C} {zd : ZstdDecompress D} {sendFuel fuel workers : ℕ}
  {stray : ℤ → UInt8} {slices framed : List FileSlice} {buffers : Buffers}
  {texts : ℕ → List UInt8} {s : State slices.length} {guard : ServerState → ServerAction → Prop}
  {R : D → List UInt8 → List UInt8 → Prop} {fileSize : ℕ} {ships : ℕ → Shipment}

/-- There is room for a byte in the send buffer; the receive buffer has room for what a first
read has to get, and for no more than `reads_max_bytes_`. -/
structure Buffers.Moderate (buffers : Buffers) (splitLen : ℕ) : Prop where
  sndbuf_pos : 1 ≤ buffers.sndbuf
  header_le : kFileSliceHeaderLen + 1 ≤ buffers.rcvbuf
  rcvbuf_le : buffers.rcvbuf ≤ readsMaxBytesFor splitLen

/-! ### The sender -/

section Sender

variable {sender : ThreadPool.Service SenderJobs}

theorem not_connected_initial (slice : Option FileSlice) :
    (initialStatus slice).hasConnected = false := by
  cases slice with
  | none => rfl
  | some slice => rfl

/-- A `Run` that is still in the queue is not connected. -/
theorem not_connected_of_queued
    (hs : (senderPool zc sendFuel workers stray slices).Reachable sender) {conn : ℕ}
    (hqueued : sender.pool.taken.length ≤ conn + 1) :
    (sender.inner.status conn).hasConnected = false := by
  refine (ThreadPool.crew_of_service hs).fresh_of_queued
    (fun inner job => ∀ conn, job = conn + 1 → (inner.status conn).hasConnected = false)
    endedForGood_sendTasks (fun _ _ _ => not_connected_initial _) ?_ (conn + 1) hqueued conn rfl
  intro inner job event inner' other hstep hne hbefore conn hconn
  rcases sendStep_cases hstep with ⟨-, -, rfl⟩ | ⟨here, status, hjob, -, -, rfl⟩
  · exact hbefore conn hconn
  · dsimp only at hjob ⊢
    have hother : conn ≠ here := by
      rintro rfl
      exact hne (hconn.trans hjob.symm)
    rw [Function.update_of_ne hother]
    exact hbefore conn hconn

/-- A connected `Run` is in the hands of a worker until it ends. -/
theorem running_of_connected (hs : (senderPool zc sendFuel workers stray slices).Reachable sender)
    (hrest : sender.AtRest SenderJobs.hasEnded workers) {conn : ℕ}
    (hconnected : (sender.inner.status conn).hasConnected = true)
    (hopen : (sender.inner.status conn).hasEnded = false) :
    ∃ worker < workers, sender.pool.workers worker = .running (conn + 1) := by
  have hstaffed := (ThreadPool.crew_of_service hs).staffed endedForGood_sendTasks
  by_cases htaken : conn + 1 < sender.pool.taken.length
  · rcases hstaffed.served _ htaken with hended | ⟨worker, hheld⟩
    · exact absurd (hopen.symm.trans hended) Bool.false_ne_true
    · have hworker := (hstaffed.held_lt worker _ hheld).1
      exact ⟨worker, hworker, hrest.running_of_held hworker hheld⟩
  · have hcontra := not_connected_of_queued hs (Nat.not_lt.mp htaken)
    exact absurd (hcontra.symm.trans hconnected) Bool.false_ne_true

end Sender

theorem Underway.written_le
    (h : Carries zc zd R sendFuel fuel fileSize slices framed texts ships)
    (hu : Underway zc zd R sendFuel fuel fileSize workers stray slices framed buffers texts ships
      guard s) (conn : ℕ) : s.written texts conn ≤ (texts conn).length := by
  cases conn with
  | zero => exact le_refl _
  | succ conn =>
      show (s.sender.inner.status conn).accepted.length ≤ _
      by_cases hlt : conn < framed.length
      · have hframe := List.getElem?_eq_getElem hlt
        rw [h.texts_eq conn _ hframe]
        exact (hu.onWire.onWire conn _ hframe).accepted_begins.length_le
      · rw [hu.onWire.ended conn (Nat.not_lt.mp hlt)]
        exact Nat.zero_le _

/-- A connected `Run` that has ended has written its frame. -/
theorem Underway.written_of_ended
    (h : Carries zc zd R sendFuel fuel fileSize slices framed texts ships)
    (hu : Underway zc zd R sendFuel fuel fileSize workers stray slices framed buffers texts ships
      guard s) {conn : ℕ}
    (hconnected : (s.sender.inner.status conn).hasConnected = true)
    (hended : (s.sender.inner.status conn).hasEnded = true) :
    s.written texts (conn + 1) = (texts (conn + 1)).length := by
  show (s.sender.inner.status conn).accepted.length = _
  have hlt : conn < framed.length := by
    by_contra hnot
    rw [hu.onWire.ended conn (Nat.not_lt.mp hnot)] at hconnected
    cases hconnected
  have hframe := List.getElem?_eq_getElem hlt
  have honWire := hu.onWire.onWire conn _ hframe
  rw [h.texts_eq conn _ hframe]
  cases hstatus : s.sender.inner.status conn with
  | ended outcome =>
      rw [hstatus] at honWire
      obtain rfl : outcome = some ⟨0, _⟩ := honWire
      rfl
  | start _ | linked _ | sending _ _ =>
      rw [hstatus] at hended
      cases hended

/-- There are no more connections than slices, and the one of the file header. -/
theorem Underway.connected_le (h : Carries zc zd R sendFuel fuel fileSize slices framed texts ships)
    (hu : Underway zc zd R sendFuel fuel fileSize workers stray slices framed buffers texts ships
      guard s) : s.connected ≤ slices.length + 1 := by
  by_contra hmore
  have hlarge : slices.length + 1 ≤ s.order.conn (slices.length + 1) :=
    Nat.not_lt.mp fun hlt => Nat.lt_irrefl _ ((s.order.conn_lt_iff _).mp hlt)
  obtain ⟨conn, hconn⟩ :=
    Nat.exists_eq_succ_of_ne_zero (Nat.ne_of_gt ((Nat.succ_pos _).trans_le hlarge))
  have hconnected := (hu.wired.connected_iff conn).mp ⟨_, Nat.not_le.mp hmore, hconn⟩
  have hbeyond : framed.length ≤ conn := by
    rw [← h.frames.compressed.length_eq]
    omega
  rw [hu.onWire.ended conn hbeyond] at hconnected
  cases hconnected

section Settled

variable [∀ s a, Decidable (guard s a)]

theorem send_of_settled
    (hsettled : ((transmission zc zd sendFuel fuel workers stray slices buffers texts).restrict
      (Permits guard)).Settled productive s) {a : ThreadPool.ServiceAction SendEvent}
    (hproductive : ThreadPool.serviceProductive SendEvent.productive s.sender a = true)
    (hcan : s.CanSend buffers texts a) :
    ThreadPool.serviceStep (sendTasks zc sendFuel stray slices) SendCall.mk SenderJobs.hasEnded
      (slices.length + 1) workers s.sender a = none := by
  have hnone : step zc zd sendFuel fuel workers stray slices buffers texts s (.send a) = none :=
    hsettled.step_eq_none (a := Action.send a) hproductive trivial
  rw [step, if_pos hcan, Option.map_eq_none_iff] at hnone
  exact hnone

theorem receive_of_settled
    (hsettled : ((transmission zc zd sendFuel fuel workers stray slices buffers texts).restrict
      (Permits guard)).Settled productive s) {a : EdgeAction}
    (hproductive : edgeProductive s.receiver a = true) (hallowed : Allowed guard s.receiver a)
    (hcan : s.CanReceive buffers texts a) :
    edgeStep zd fuel slices.length texts s.order s.receiver a = none := by
  have hnone : step zc zd sendFuel fuel workers stray slices buffers texts s (.receive a) = none :=
    hsettled.step_eq_none (a := Action.receive a) hproductive hallowed
  rw [step, if_pos hcan, Option.map_eq_none_iff] at hnone
  exact hnone

variable (h : Carries zc zd R sendFuel fuel fileSize slices framed texts ships)
  (hu : Underway zc zd R sendFuel fuel fileSize workers stray slices framed buffers texts ships
    guard s)
  (hsettled : ((transmission zc zd sendFuel fuel workers stray slices buffers texts).restrict
    (Permits guard)).Settled productive s)

include hsettled in
theorem senderAtRest_of_settled : s.sender.AtRest SenderJobs.hasEnded workers :=
  ThreadPool.atRest_of_none fun a _ hproductive hallowed => by
    have hnone := send_of_settled (a := .pool a) hsettled hproductive trivial
    rw [ThreadPool.serviceStep, if_pos hallowed, Option.map_eq_none_iff] at hnone
    exact hnone

include hu hsettled in
/-- All jobs of the sender have been enqueued. -/
theorem pushed_of_settled : s.sender.pool.pushed.length = slices.length + 1 := by
  have hstaffed := (ThreadPool.crew_of_service hu.sender).staffed endedForGood_sendTasks
  by_contra hless
  have hallowed : s.sender.Allows SenderJobs.hasEnded (slices.length + 1) (.push 0 ()) :=
    lt_of_le_of_ne hstaffed.accepted_le hless
  have hnone := send_of_settled (a := .pool (.push 0 ())) hsettled rfl trivial
  rw [ThreadPool.serviceStep, if_pos hallowed, Option.map_eq_none_iff] at hnone
  exact ThreadPool.push_ne_none hu.sender (senderAtRest_of_settled hsettled).notifying hnone

include hsettled in
theorem runStep_of_settled {worker conn : ℕ} {event : SendEvent} (hworker : worker < workers)
    (hrunning : s.sender.pool.workers worker = .running (conn + 1))
    (hproductive : event.productive = true) (hclean : (s.sender.inner.status conn).Clean event)
    (hcan : s.CanSend buffers texts (.work worker event)) :
    runStep zc sendFuel stray (s.sender.inner.status conn) event = none := by
  have hnone := send_of_settled (a := .work worker event) hsettled hproductive hcan
  rw [ThreadPool.serviceStep, hrunning] at hnone
  simp only [if_pos hworker, Option.map_eq_none_iff] at hnone
  have hcall : s.sender.inner.Clean ⟨conn + 1, event⟩ := hclean
  rw [sendTasks_step_of_clean hcall, sendStep] at hnone
  exact Option.map_eq_none_iff.mp hnone

include h hu hsettled in
/-- A `Run` that a worker is in waits for room in the send buffer. -/
theorem room_of_settled {worker conn : ℕ}
    (hrunning : s.sender.pool.workers worker = .running (conn + 1)) :
    (s.sender.inner.status conn).hasConnected = true ∧ s.room buffers texts (conn + 1) = 0 := by
  have hworker := ThreadPool.Service.worker_lt_of_running endedForGood_sendTasks hu.sender hrunning
  have hopen : (s.sender.inner.status conn).hasEnded = false :=
    (senderAtRest_of_settled hsettled).running worker hworker _ hrunning
  have hlt : conn < framed.length := by
    by_contra hnot
    rw [hu.onWire.ended conn (Nat.not_lt.mp hnot)] at hopen
    cases hopen
  have hframe := List.getElem?_eq_getElem hlt
  rcases exists_next stray (h.frames.sendable _ (List.getElem_mem hlt))
    (hu.onWire.onWire conn _ hframe) hopen with
    ⟨event, hproductive, hwrite, hreport, hclean, hsome⟩ | ⟨slice, task, hstatus, hsome⟩
  · -- only a `write` depends on anybody else
    refine absurd (runStep_of_settled hsettled hworker hrunning hproductive hclean ?_) hsome
    cases event with
    | compress | connect _ => trivial
    | write result => exact absurd rfl (hwrite result)
    | report => exact absurd rfl hreport
  · refine ⟨by rw [hstatus]; rfl, ?_⟩
    by_contra hroom
    -- as much as there is room for would be taken, and something if something is left
    have hzero : min task.left (s.room buffers texts (conn + 1)) = 0 → task.left = 0 := by
      omega
    refine hsome _ (min_le_left ..) hzero (runStep_of_settled hsettled hworker hrunning rfl ?_ ?_)
    · rw [hstatus]
      exact hzero
    · intro job hjob
      rw [hrunning] at hjob
      cases hjob
      exact min_le_right ..

/-! ### What is on the way -/

include h hu hsettled in
/-- What was written has arrived, unless the receive buffer is full. -/
theorem arrived_of_settled {conn : ℕ} (hconn : conn < slices.length + 1) :
    s.written texts conn ≤ s.arrived texts conn ∨
      buffers.rcvbuf ≤ (s.receiver.sockets conn).unread := by
  by_contra hnot
  push Not at hnot
  have hnone := receive_of_settled (a := .arrive conn 1) hsettled rfl
    (fun _ hseen => by cases hseen) hnot
  have hwritten := hu.written_le h conn
  have hsuffix := (undelivered_suffix (startConns_of_edge hu.receiver) conn).length_le
  have hmore : (s.receiver.sockets conn).unread + 1 ≤
      (s.receiver.server.tasks.inner.undelivered conn).length := by
    have hless := hnot.1
    rw [State.arrived] at hless
    omega
  rw [edgeStep, if_pos ⟨hconn, Nat.one_pos, hmore⟩] at hnone
  cases hnone

variable (hbuffers : buffers.Moderate (fileSize / slices.length))

include h hu hsettled hbuffers in
/-- All that is left of a stream has arrived, or the receive buffer is full: a `Run` that is
not at the end of its frame waits behind a full buffer. -/
theorem unread_of_settled {k : ℕ} (hk : k < s.connected) (hlt : k < slices.length + 1) :
    (s.receiver.server.tasks.inner.undelivered (s.order.conn k)).length ≤
        (s.receiver.sockets (s.order.conn k)).unread ∨
      buffers.rcvbuf ≤ (s.receiver.sockets (s.order.conn k)).unread := by
  have hconn := (s.order.conn_lt_iff k).mpr hlt
  refine (arrived_of_settled h hu hsettled hconn).imp_left fun harrived => ?_
  have hsuffix := undelivered_suffix (startConns_of_edge hu.receiver) (s.order.conn k)
  have hall : (texts (s.order.conn k)).length ≤ s.written texts (s.order.conn k) →
      (s.receiver.server.tasks.inner.undelivered (s.order.conn k)).length ≤
        (s.receiver.sockets (s.order.conn k)).unread := by
    intro hwritten
    have hle := hsuffix.length_le
    rw [State.arrived] at harrived
    omega
  cases hthere : s.order.conn k with
  | zero =>
      rw [hthere] at hall
      exact hall (le_refl _)
  | succ conn =>
      have hconnected := (hu.wired.connected_iff conn).mp ⟨k, hk, hthere⟩
      rw [hthere] at hall harrived
      -- a `Run` that has not ended has no room, so what it has written cannot have arrived
      by_cases hended : (s.sender.inner.status conn).hasEnded = true
      · exact hall (hu.written_of_ended h hconnected hended).ge
      · obtain ⟨worker, -, hrunning⟩ := running_of_connected hu.sender
          (senderAtRest_of_settled hsettled) hconnected (Bool.eq_false_iff.mpr hended)
        have hroom := (room_of_settled h hu hsettled hrunning).2
        have hpos := hbuffers.sndbuf_pos
        rw [State.room] at hroom
        omega

/-! ### The receiver -/

variable (hdrained : s.receiver.Drained)
  (himp : ∀ s a, Connects a → Timely slices.length s a → guard s a)

include hu hsettled hbuffers hdrained himp in
/-- What is in the socket of a task that waits would be read. -/
theorem unread_lt_of_waiting {worker k : ℕ} {task : RecvTask}
    (hrunning : s.receiver.server.tasks.pool.workers worker = .running k)
    (hwaiting : s.receiver.server.tasks.inner.status (s.order.conn k) = .waiting task)
    (hsome : 0 < (s.receiver.sockets (s.order.conn k)).unread) :
    ¬ (task = {} → firstRead texts (s.order.conn k) ≤
      (s.receiver.sockets (s.order.conn k)).unread) := by
  intro hlong
  obtain ⟨event, hproductive, hstep⟩ := exists_wakeStep hu.allSent
    (tasks_of_server (server_of_edge hu.receiver)) hdrained hrunning hwaiting
    ((within_of_reachable hu.receiver).unread_le _)
    (hu.unread_le_readBudget hbuffers.rcvbuf_le hrunning hwaiting) hsome hlong
  refine hstep (receive_of_settled hsettled hproductive ?_ ?_)
  · rintro b ⟨⟩
    exact himp _ _ trivial fun heq => by cases heq
  · intro job hjob
    rw [hrunning] at hjob
    cases hjob
    exact ⟨hu.flows.arrived_le _, Nat.le_add_right_of_le (hu.flows.unread_le _)⟩

include h hu hsettled hbuffers hdrained himp in
/-- **No task waits that a worker is in.** -/
theorem not_waiting_of_settled {worker k : ℕ} {task : RecvTask}
    (hrunning : s.receiver.server.tasks.pool.workers worker = .running k) :
    s.receiver.server.tasks.inner.status (s.order.conn k) ≠ .waiting task := by
  intro hwaiting
  have hserver := server_of_edge hu.receiver
  have htasks := tasks_of_server hserver
  obtain ⟨hleft, hfirst, -, -⟩ := exists_wake hu.allSent htasks hrunning hwaiting
  obtain ⟨hpushed, hle⟩ :=
    ThreadPool.Service.job_lt_of_running endedForGood_startConns htasks hrunning
  have haccepted : k < s.receiver.server.supervise.accepted :=
    (joined_of_reachable hserver).accepted ▸ hpushed
  have hcannot := unread_lt_of_waiting hu hsettled hbuffers hdrained himp hrunning hwaiting
  rcases unread_of_settled h hu hsettled hbuffers (haccepted.trans_le hu.wired.accepted_le)
    (hpushed.trans_le hle) with hall | hfull
  · exact hcannot ((List.length_pos_iff.mpr hleft).trans_le hall) fun heq => (hfirst heq).trans hall
  · -- a full buffer is enough for a first read
    have hlarge := hbuffers.header_le.trans hfull
    exact hcannot ((Nat.succ_pos _).trans_le hlarge) fun _ =>
      (firstRead_le hu.allSent _).trans hlarge

include h hu hsettled hbuffers hdrained himp in
/-- The receiver has nothing left to do but to accept a connection. -/
theorem resting_of_settled : Resting zd fuel texts s.order s.receiver.server := by
  intro a haccept hconnects htimely hproductive
  by_cases hwork : ∀ worker event, a ≠ .work worker event
  · have hnone := receive_of_settled (a := .other a) hsettled hproductive
      (by
        rintro b ⟨⟩
        exact himp _ a hconnects htimely)
      (by
        cases a with
        | enqueue => exact absurd rfl haccept
        | push | count | notify | pool _ | work _ _ | ready _ | supervise _ => trivial)
    rwa [edgeStep_other hwork, Option.map_eq_none_iff] at hnone
  · push Not at hwork
    obtain ⟨worker, event, rfl⟩ := hwork
    by_contra hsome
    obtain ⟨server, hserver⟩ := Option.ne_none_iff_exists'.mp hsome
    cases serverNext_of_step hserver with
    | work htasks =>
        obtain ⟨-, k, hrunning, hinner⟩ := work_of_step htasks
        obtain ⟨-, hconn⟩ := Option.ite_none_right_eq_some.mp hinner
        obtain ⟨-, -, task, r, hwaiting, -, -⟩ := connStep_cases hconn
        exact not_waiting_of_settled h hu hsettled hbuffers hdrained himp hrunning hwaiting

include h hu hsettled hbuffers hdrained himp in
/-- All connections have been accepted. -/
theorem accepted_of_settled : s.receiver.server.supervise.accepted = s.connected := by
  refine le_antisymm hu.wired.accepted_le (Nat.not_lt.mp fun hless => ?_)
  have hresting := resting_of_settled h hu hsettled hbuffers hdrained himp
  have hmore := hless.trans_le (hu.connected_le h)
  refine exists_enqueue (server_of_edge hu.receiver) hresting.notifying_eq_empty
    (hresting.listening hmore.ne) hmore ?_
  have hnone := receive_of_settled (a := .other .enqueue) hsettled rfl
    (by
      rintro b ⟨⟩
      exact himp _ _ trivial fun heq => by cases heq) hless
  rwa [edgeStep_other fun _ _ => ServerAction.noConfusion, Option.map_eq_none_iff] at hnone

include h hu hsettled hbuffers hdrained himp in
/-- The tasks of all connections have ended: a task that is queued would wait for one that a
worker is in. -/
theorem exited_of_settled {k : ℕ} (hk : k < s.connected) :
    s.receiver.server.tasks.inner.hasExited (s.order.conn k) = true := by
  have hserver := server_of_edge hu.receiver
  have htasks := tasks_of_server hserver
  have hresting := resting_of_settled h hu hsettled hbuffers hdrained himp
  have hrest : s.receiver.server.tasks.AtRest (fun s' k => s'.hasExited (s.order.conn k)) 1 :=
    ThreadPool.atRest_of_none fun _ hpush hproductive hallowed =>
      hresting.poolStep_eq_none hu.allSent hserver hpush hproductive hallowed
  -- a task that a worker is in could go on, so it would be waiting
  have hnone : ∀ {worker held}, worker < 1 →
      s.receiver.server.tasks.pool.workers worker ≠ .running held := by
    intro worker held hworker hrunning
    have hheld := ThreadPool.Service.job_lt_of_running endedForGood_startConns htasks hrunning
    refine not_stuck hu.allSent htasks (hheld.1.trans_le hheld.2) hrunning
      ⟨hrest.running worker hworker held hrunning, fun event _ => ?_⟩
    by_contra hsome
    obtain ⟨inner, hinner⟩ := Option.ne_none_iff_exists'.mp hsome
    obtain ⟨-, hconn⟩ := Option.ite_none_right_eq_some.mp hinner
    obtain ⟨-, -, task, r, hwaiting, -, -⟩ := connStep_cases hconn
    exact not_waiting_of_settled h hu hsettled hbuffers hdrained himp hrunning hwaiting
  have hpushed : k < s.receiver.server.tasks.pool.pushed.length := by
    rw [← (joined_of_reachable hserver).accepted,
      accepted_of_settled h hu hsettled hbuffers hdrained himp]
    exact hk
  rcases hrest.job_cases endedForGood_startConns htasks hpushed with
    hended | ⟨worker, hworker, hrunning⟩ | ⟨-, hbusy⟩
  · exact hended
  · exact absurd hrunning (hnone hworker)
  · obtain ⟨held, hrunning⟩ := hbusy 0 Nat.one_pos
    exact absurd hrunning (hnone Nat.one_pos)

/-! ### Everything is sent -/

include h hu hsettled hbuffers hdrained himp in
/-- **No worker of the sender is in a `Run`.** -/
theorem not_running_of_settled (worker conn : ℕ) :
    s.sender.pool.workers worker ≠ .running (conn + 1) := by
  intro hrunning
  obtain ⟨hconnected, hroom⟩ := room_of_settled h hu hsettled hrunning
  obtain ⟨k, hk, hthere⟩ := (hu.wired.connected_iff conn).mpr hconnected
  have hexited : ∀ j < s.connected,
      s.receiver.server.tasks.inner.hasExited (s.order.conn j) = true :=
    fun j hj => exited_of_settled h hu hsettled hbuffers hdrained himp hj
  have hheader := hexited 0 hu.wired.pos
  have hdone := hexited k hk
  rw [hu.wired.first] at hheader
  rw [hthere] at hdone
  have hlt : conn + 1 < slices.length + 1 := by
    rw [← hthere]
    exact (s.order.conn_lt_iff k).mpr (hk.trans_le (hu.connected_le h))
  -- its connection has been read to the end, so all that was written has arrived
  have hempty := undelivered_of_exited hu.allSent (tasks_of_server (server_of_edge hu.receiver))
    hheader (Nat.lt_of_succ_lt_succ hlt) hdone
  have hwritten := hu.written_le h (conn + 1)
  have hpos := hbuffers.sndbuf_pos
  rw [State.room, State.arrived, hempty, List.length_nil] at hroom
  omega

include h hu hsettled hbuffers hdrained himp in
/-- **Every `Run` has ended, when `Supervise` is not the only worker of the pool.** -/
theorem ended_of_settled (hworkers : 2 ≤ workers) {conn : ℕ} (hconn : conn < slices.length) :
    (s.sender.inner.status conn).hasEnded = true := by
  have hnot := not_running_of_settled h hu hsettled hbuffers hdrained himp
  have hpushed : conn + 1 < s.sender.pool.pushed.length := by
    rw [pushed_of_settled hu hsettled]
    exact Nat.succ_lt_succ hconn
  rcases (senderAtRest_of_settled hsettled).job_cases endedForGood_sendTasks hu.sender hpushed with
    hended | ⟨worker, -, hrunning⟩ | ⟨-, hbusy⟩
  · exact hended
  · exact absurd hrunning (hnot worker conn)
  · -- two workers are not both in `Supervise`
    have hzero : ∀ worker < workers, s.sender.pool.workers worker = .running 0 := by
      intro worker hworker
      obtain ⟨held, hrunning⟩ := hbusy worker hworker
      cases held with
      | zero => exact hrunning
      | succ held => exact absurd hrunning (hnot worker held)
    have hstaffed := (ThreadPool.crew_of_service hu.sender).staffed endedForGood_sendTasks
    have hsame := hstaffed.held_once 0 1 0
      (ThreadPool.Service.held_of_running (hzero 0 (by omega)))
      (ThreadPool.Service.held_of_running (hzero 1 (by omega)))
    cases hsame

include h hu hsettled hbuffers hdrained himp in
/-- Every slice was sent. -/
theorem sent_of_settled (hworkers : 2 ≤ workers) {conn : ℕ} {f : FileSlice}
    (hframe : framed[conn]? = some f) :
    s.sender.inner.status conn = .ended (some ⟨0, f.wire⟩) := by
  have hconn : conn < slices.length := by
    rw [h.frames.compressed.length_eq]
    exact (List.getElem?_eq_some_iff.mp hframe).1
  have honWire := hu.onWire.onWire conn f hframe
  have hended := ended_of_settled h hu hsettled hbuffers hdrained himp hworkers hconn
  cases hstatus : s.sender.inner.status conn with
  | ended outcome =>
      rw [hstatus] at honWire
      exact congrArg SendStatus.ended honWire
  | start _ | linked _ | sending _ _ =>
      rw [hstatus] at hended
      cases hended

include h hu hsettled hbuffers hdrained himp in
theorem idle_of_settled (hworkers : 2 ≤ workers) :
    Idle zd fuel texts s.order s.receiver.server := by
  intro a hconnects htimely hproductive
  by_cases haccept : a = .enqueue
  · subst haccept
    -- every slice was sent, so every connection has been accepted
    have hall : s.receiver.server.supervise.accepted = slices.length + 1 := by
      rw [accepted_of_settled h hu hsettled hbuffers hdrained himp]
      refine le_antisymm (hu.connected_le h) (Nat.not_lt.mp fun hless => ?_)
      obtain ⟨conn, hconn⟩ : ∃ conn, s.order.conn s.connected = conn + 1 := by
        refine Nat.exists_eq_succ_of_ne_zero fun hzero => ?_
        rw [← hu.wired.first] at hzero
        exact hu.wired.pos.ne' (s.order.conn.injective hzero)
      have hlt := (s.order.conn_lt_iff s.connected).mpr hless
      rw [hconn, Nat.succ_lt_succ_iff, h.frames.compressed.length_eq] at hlt
      have hsent := sent_of_settled h hu hsettled hbuffers hdrained himp hworkers
        (List.getElem?_eq_getElem hlt)
      obtain ⟨k, hk, hthere⟩ := (hu.wired.connected_iff conn).mpr (by rw [hsent]; rfl)
      exact hk.ne (s.order.conn.injective (hthere.trans hconn.symm))
    by_contra hsome
    obtain ⟨server, hserver⟩ := Option.ne_none_iff_exists'.mp hsome
    cases serverNext_of_step hserver with
    | enqueue _ hend =>
        obtain ⟨⟨-, hmore⟩, -⟩ := Option.ite_none_right_eq_some.mp hend
        exact hmore.ne hall
  · exact resting_of_settled h hu hsettled hbuffers hdrained himp a haccept hconnects htimely
      hproductive

include h hu hsettled hbuffers hdrained himp in
/-- `Supervise` has read the end marker, when the receiver has written it. -/
theorem told_of_reported (hworkers : 1 ≤ workers)
    (hphase : s.receiver.server.supervise.phase = .reported) :
    s.sender.inner.told = true := by
  have hpushed : 0 < s.sender.pool.pushed.length := by
    rw [pushed_of_settled hu hsettled]
    exact Nat.succ_pos _
  -- a worker that is not in a `Run` is in `Supervise`
  have hjob : ∃ worker < workers, s.sender.pool.workers worker = .running 0 := by
    have hrest := senderAtRest_of_settled hsettled
    rcases hrest.job_cases endedForGood_sendTasks hu.sender hpushed with
      hended | hrunning | ⟨-, hbusy⟩
    · cases hended
    · exact hrunning
    · obtain ⟨held, hrunning⟩ := hbusy 0 hworkers
      cases held with
      | zero => exact ⟨0, hworkers, hrunning⟩
      | succ conn =>
          exact absurd hrunning
            (not_running_of_settled h hu hsettled hbuffers hdrained himp 0 conn)
  obtain ⟨worker, hworker, hrunning⟩ := hjob
  have hnone := send_of_settled (a := .work worker .report) hsettled rfl hphase
  rw [ThreadPool.serviceStep, hrunning] at hnone
  simp only [if_pos hworker, Option.map_eq_none_iff] at hnone
  have hclean : s.sender.inner.Clean ⟨0, .report⟩ := trivial
  rw [sendTasks_step_of_clean hclean, sendStep] at hnone
  by_contra hopen
  rw [if_pos ⟨rfl, Bool.eq_false_iff.mpr hopen⟩] at hnone
  cases hnone

end Settled

/-- Every `Run` has sent its frame and has returned. -/
def AllRun (framed : List FileSlice) (s : SenderJobs) : Prop :=
  ∀ conn f, framed[conn]? = some f → s.status conn = .ended (some ⟨0, f.wire⟩)

/-- **Where nothing can happen any more, everything has been sent and read.** -/
theorem outcome_of_settled [∀ s a, Decidable (guard s a)]
    (h : Carries zc zd R sendFuel fuel fileSize slices framed texts ships)
    (hbuffers : buffers.Moderate (fileSize / slices.length)) (hworkers : 2 ≤ workers)
    (hlt : slices.length < 32767)
    (himp : ∀ s a, Connects a → Timely slices.length s a → guard s a)
    (hconnects : ∀ s a, guard s a → Connects a)
    (hs : (transmission zc zd sendFuel fuel workers stray slices buffers texts).ReachableVia
      (Permits guard) s)
    (hsettled : ((transmission zc zd sendFuel fuel workers stray slices buffers texts).restrict
      (Permits guard)).Settled productive s) :
    AllRun framed s.sender.inner ∧
      AllDelivered fileSize slices.length ships s.receiver.server.tasks.inner ∧
      AllReturned slices.length s.receiver.server.supervise ∧
      (s.receiver.server.supervise.phase = .reported ∨
        s.receiver.server.supervise.phase = .asleep ∧
          waitCondition s.receiver.server.supervise.slicesThNum
            s.receiver.server.supervise.slicesNum = true) := by
  have hu := underway h hs
  have hdrained := drained h hbuffers.rcvbuf_le hs
  have hidle := idle_of_settled h hu hsettled hbuffers hdrained himp hworkers
  obtain ⟨hdelivered, -, hreturned, hcondition, hphase⟩ :=
    hidle.outcome hu.allSent hlt (server_of_edge hu.receiver) hconnects
  refine ⟨fun conn f hframe => ?_, hdelivered, hreturned, ?_⟩
  · exact sent_of_settled h hu hsettled hbuffers hdrained himp hworkers hframe
  · exact hphase.imp_right fun hasleep => ⟨hasleep, hcondition⟩

/-- When the last connection is notified behind the header, the sender is told. -/
theorem told_of_settled [∀ s a, Decidable (guard s a)]
    (h : Carries zc zd R sendFuel fuel fileSize slices framed texts ships)
    (hbuffers : buffers.Moderate (fileSize / slices.length)) (hworkers : 2 ≤ workers)
    (hlt : slices.length < 32767)
    (himp : ∀ s a, Connects a → Timely slices.length s a → guard s a)
    (hguard : ∀ s a, guard s a → Connects a ∧ Timely slices.length s a)
    (hs : (transmission zc zd sendFuel fuel workers stray slices buffers texts).ReachableVia
      (Permits guard) s)
    (hsettled : ((transmission zc zd sendFuel fuel workers stray slices buffers texts).restrict
      (Permits guard)).Settled productive s) : s.sender.inner.told = true := by
  have hu := underway h hs
  have hdrained := drained h hbuffers.rcvbuf_le hs
  have hidle := idle_of_settled h hu hsettled hbuffers hdrained himp hworkers
  refine told_of_reported h hu hsettled hbuffers hdrained himp (by omega) ?_
  exact hidle.reported hu.allSent hlt (server_of_edge hu.receiver) (fun s a hg => (hguard s a hg).1)
    fun s a hg => (hguard s a hg).2

end Transmission

end SliceTransfer.Transmission

namespace SliceTransfer

open Bytes Decimal FileSlice Server SendingFlow Supervisor Transmission TransitionSystem

/-! ## The result -/

/-- The file was cut with the default segmentation for `jobs` jobs, and `Compress` goes well on
every slice. -/
structure FramedByDefault {C : Type} (zc : ZstdCompress C) (sendFuel : ℕ) (content : List UInt8)
    (jobs : ℕ) (slices framed : List FileSlice) : Prop where
  size_lt : content.length < 2 ^ 64
  jobs_pos : 1 ≤ jobs
  jobs_le : jobs ≤ content.length
  segment_le : content.length / jobs ≤ intMax
  split : ∃ fuel flags flags', Flags.segmentSize flags = 0 ∧ flags.jobs = jobs ∧
    splitFile fuel flags content content.length = .ok (flags', slices)
  slices_le : slices.length ≤ 65535
  len_le : ∀ f ∈ slices, f.len ≤ intMax
  compressed : List.Forall₂ (fun f f' => compress zc sendFuel f = .ok f') slices framed
  cLen_lt : ∀ f ∈ framed, f.cLen < 2 ^ 32

section Result

variable {C D : Type} {zc : ZstdCompress C} {zd : ZstdDecompress D}
  {R : D → List UInt8 → List UInt8 → Prop} {stray h : ℤ → UInt8} {content : List UInt8}
  {sendFuel jobs : ℕ} {slices framed : List FileSlice} {text : List UInt8}

/-- Such frames can be sent. -/
theorem FramedByDefault.sendable (hzstd : ZstdPair zc zd R)
    (hcut : FramedByDefault zc sendFuel content jobs slices framed) :
    Framed zc sendFuel slices framed := by
  obtain ⟨splitFuel, flags, flags', hsegment, hjobs, hsplit⟩ := hcut.split
  obtain ⟨S, htotal, hslices, -, -⟩ := segmentation_of_default hcut.size_lt hcut.jobs_pos
    hcut.jobs_le hsegment hjobs hcut.segment_le hsplit
  have hcount : S.count ≤ 65535 := by
    have hle := hcut.slices_le
    rwa [hslices, length_pieces] at hle
  have hlengths := content_length_piece (htotal.trans_lt hcut.size_lt) hcount htotal.symm
  refine ⟨hcut.compressed, fun f' hmem => ?_⟩
  obtain ⟨i, rfl⟩ := List.mem_iff_get.mp hmem
  have hi : i.val < slices.length := by
    rw [hcut.compressed.length_eq]
    exact i.isLt
  have hone := hcut.compressed.get hi i.isLt
  have hpiece : slices.get ⟨i.val, hi⟩ ∈ pieces S content := by
    rw [← hslices]
    exact List.get_mem _ _
  have hfresh : (slices.get ⟨i.val, hi⟩).compressBuf = [] := by
    obtain ⟨j, -, hj⟩ := (mem_pieces content).mp hpiece
    rw [← hj]
    rfl
  obtain ⟨-, -, -, hwire⟩ := session_of_compress hfresh (hlengths _ hpiece) hone
  refine ⟨hwire, ?_, fun chunk hchunk => ?_⟩
  · have hsmall : (framed.get ⟨i.val, i.isLt⟩).cLen < 2 ^ 32 := hcut.cLen_lt _ hmem
    rw [hwire, Server.kEachSliceHeaderLen]
    omega
  · exact Nat.lt_of_le_pred (by decide)
      (chunksAtMost_compress hzstd.output_le hzstd.cStreamOutSize_lt hfresh hone chunk hchunk)

/-- They are sent by some calls of `write`. -/
theorem FramedByDefault.sent (hzstd : ZstdPair zc zd R) (stray : ℤ → UInt8)
    (hcut : FramedByDefault zc sendFuel content jobs slices framed) :
    SentByDefault zc stray content jobs slices framed (framed.map wire) :=
  ⟨hcut.size_lt, hcut.jobs_pos, hcut.jobs_le, hcut.segment_le, hcut.split, hcut.slices_le,
    hcut.len_le, ⟨sendFuel, hcut.compressed⟩, hcut.cLen_lt, (hcut.sendable hzstd).sent stray⟩

/-- The connections carry the announced transfer. -/
theorem FramedByDefault.carries (hzstd : ZstdPair zc zd R)
    (hannounced : Announced h content.length slices.length text)
    (hcut : FramedByDefault zc sendFuel content jobs slices framed)
    (hdigits : (decimal content.length).length + (decimal slices.length).length ≤ 15) :
    ∃ ships n, (∀ fuel ≥ n, Carries zc zd R sendFuel fuel content.length slices framed
        (textsOf text (framed.map wire)) ships) ∧
      ∀ s, AllDelivered content.length slices.length ships s →
        Complete content slices.length s.slices := by
  have hsent := hcut.sent hzstd fun _ => 0
  have hfirst : (AcceptOrder.refl (slices.length + 1)).conn 0 = 0 := rfl
  obtain ⟨ships, n, hall, hcomplete⟩ := hsent.allSent hzstd hannounced hdigits hfirst
  refine ⟨ships, n, fun fuel hfuel => ⟨hcut.sendable hzstd, fun conn f hframe => ?_, ?_⟩, hcomplete⟩
  · simp [textsOf, List.getD_eq_getElem?_getD, hframe]
  · intro order hfirst
    exact { hall fuel hfuel with first := hfirst }

end Result

theorem pair_cut : FramedByDefault rawCompress 1 [97, 98] 2 pairSlices pairFramed := by
  refine ⟨by decide, by decide, by decide, by decide, ⟨2, ⟨0, 2⟩, ⟨1, 2⟩, rfl, rfl, rfl⟩, by decide,
    by decide, .cons rfl (.cons rfl .nil), by decide⟩

end SliceTransfer
