import SliceTransfer.EdgeRun
import SliceTransfer.Sender.SendTasks

/-!
# Sender and receiver together

The two programs in one system, from the moment the sender has sent the file header: the jobs
of the sender's pool (`sendTasks`), the receiver under `EPOLLET` (`edgeServer`), and between
them sockets whose buffers are bounded.  A `write` takes no more than the send buffer has room
for, a byte arrives when it was written and the receive buffer has room for it, a connection can
be accepted when `connect` was called, and the FIN is behind the end of a `Run`.

The order in which the connections are accepted is that of the calls of `connect`; it is not
known before.  The state has an order that begins with the connections so far (`place`), and
every other order that begins in the same way would do as well (`receiver_reachable`).

With a receive buffer of at most `reads_max_bytes_` no edge is lost, whatever the length of the
streams: a wake-up behind which nothing has arrived has emptied the buffer (`drained`).
-/

namespace SliceTransfer.Transmission

open Bytes FileSlice Server SendingFlow Supervisor TransitionSystem

/-! ## The order of the connections -/

/-- The order with connection `conn` at position `p`. -/
def place {count : ℕ} (order : AcceptOrder count) (p conn : ℕ) : AcceptOrder count :=
  if h : p < count ∧ conn < count then
    { conn := (Equiv.swap p (order.conn.symm conn)).trans order.conn
      conn_lt_iff := by
        intro k
        have hthere : order.conn.symm conn < count := by
          rw [← order.conn_lt_iff, Equiv.apply_symm_apply]
          exact h.2
        rw [Equiv.trans_apply, order.conn_lt_iff]
        by_cases hp : k = p
        · rw [hp, Equiv.swap_apply_left]
          exact iff_of_true hthere h.1
        by_cases hq : k = order.conn.symm conn
        · rw [hq, Equiv.swap_apply_right]
          exact iff_of_true h.1 hthere
        · rw [Equiv.swap_apply_of_ne_of_ne hp hq] }
  else order

theorem place_self {count : ℕ} (order : AcceptOrder count) {p conn : ℕ} (hp : p < count)
    (hconn : conn < count) : (place order p conn).conn p = conn := by
  rw [place, dif_pos ⟨hp, hconn⟩]
  show order.conn (Equiv.swap p (order.conn.symm conn) p) = conn
  rw [Equiv.swap_apply_left, Equiv.apply_symm_apply]

/-- The connections before it stay where they are, if it is not one of them. -/
theorem place_of_lt {count : ℕ} (order : AcceptOrder count) {p conn k : ℕ} (hk : k < p)
    (hne : order.conn k ≠ conn) : (place order p conn).conn k = order.conn k := by
  rw [place]
  split
  · show order.conn (Equiv.swap p (order.conn.symm conn) k) = order.conn k
    rw [Equiv.swap_apply_of_ne_of_ne hk.ne]
    rintro rfl
    exact hne (Equiv.apply_symm_apply _ _)
  · rfl

/-! ## The system -/

/-- The bytes that the two ends of a connection can hold. -/
structure Buffers where
  sndbuf : ℕ
  rcvbuf : ℕ

/-- `connected` counts the calls of `connect`, that of the file header included. -/
structure State (count : ℕ) where
  sender : ThreadPool.Service SenderJobs
  receiver : EdgeState
  order : AcceptOrder (count + 1)
  connected : ℕ

inductive Action
  | send (a : ThreadPool.ServiceAction SendEvent)
  | receive (a : EdgeAction)
  deriving DecidableEq, Repr

section System

variable {count : ℕ} (buffers : Buffers) (texts : ℕ → List UInt8) (s : State count)

/-- What was written to a connection; that of the file header was sent before. -/
def State.written : ℕ → ℕ
  | 0 => (texts 0).length
  | conn + 1 => (s.sender.inner.status conn).accepted.length

/-- The sender has closed the connection. -/
def State.closed : ℕ → Bool
  | 0 => true
  | conn + 1 => (s.sender.inner.status conn).hasEnded

/-- What has arrived of it, read or not. -/
def State.arrived (conn : ℕ) : ℕ :=
  (texts conn).length - (s.receiver.server.tasks.inner.undelivered conn).length +
    (s.receiver.sockets conn).unread

/-- The room in the send buffer. -/
def State.room (conn : ℕ) : ℕ := buffers.sndbuf - (s.written texts conn - s.arrived texts conn)

/-- Job `conn` of the sender writes to connection `conn`, and `Supervise` reads the end marker
when the receiver has written it. -/
def State.CanSend : ThreadPool.ServiceAction SendEvent → Prop
  | .work worker (.write (.accepted taken)) =>
      ∀ conn ∈ (s.sender.pool.workers worker).job, taken ≤ s.room buffers texts conn
  | .work _ .report => s.receiver.server.supervise.phase = .reported
  | _ => True

instance : (a : ThreadPool.ServiceAction SendEvent) → Decidable (s.CanSend buffers texts a)
  | .work _ (.write (.accepted _)) => inferInstanceAs (Decidable (∀ conn ∈ _, _))
  | .work _ .report => inferInstanceAs (Decidable (_ = _))
  | .work _ (.write .eagain) | .work _ (.write .eintr) | .work _ (.write .error)
  | .work _ .compress | .work _ (.connect _) | .pool _ => inferInstanceAs (Decidable True)

/-- A byte arrives when it was written and there is room for it. -/
def State.CanReceive : EdgeAction → Prop
  | .arrive conn bytes => s.arrived texts conn + bytes ≤ s.written texts conn ∧
      (s.receiver.sockets conn).unread + bytes ≤ buffers.rcvbuf
  | .arriveFin conn => s.closed conn = true
  | .wake worker event late => ∀ task ∈ (s.receiver.server.tasks.pool.workers worker).job,
      s.arrived texts (s.order.conn task) + late ≤ s.written texts (s.order.conn task) ∧
        (s.receiver.sockets (s.order.conn task)).unread + late ≤
          buffers.rcvbuf + event.bytes.length
  | .other .enqueue => s.receiver.server.supervise.accepted < s.connected
  | .other _ => True

instance : (a : EdgeAction) → Decidable (s.CanReceive buffers texts a)
  | .arrive _ _ => inferInstanceAs (Decidable (_ ∧ _))
  | .arriveFin _ => inferInstanceAs (Decidable (_ = _))
  | .wake _ _ _ => inferInstanceAs (Decidable (∀ task ∈ _, _))
  | .other .enqueue => inferInstanceAs (Decidable (_ < _))
  | .other .push | .other .count | .other .notify | .other (.pool _) | .other (.work _ _)
  | .other (.ready _) | .other (.supervise _) => inferInstanceAs (Decidable True)

/-- The sender's side of a step; a `connect` is the next one that is accepted. -/
def State.sent (a : ThreadPool.ServiceAction SendEvent)
    (sender : ThreadPool.Service SenderJobs) : State count :=
  match a with
  | .work worker (.connect _) =>
      match (s.sender.pool.workers worker).job with
      | some conn =>
          { s with
            sender := sender
            order := place s.order s.connected conn
            connected := s.connected + 1 }
      | none => { s with sender := sender }
  | _ => { s with sender := sender }

end System

section System

variable {C D : Type} (zc : ZstdCompress C) (zd : ZstdDecompress D) (sendFuel fuel workers : ℕ)
  (stray : ℤ → UInt8) (slices : List FileSlice) (buffers : Buffers) (texts : ℕ → List UInt8)

/-- The sender's pool: `Supervise`, and a `Run` for every slice. -/
def senderPool : TransitionSystem (ThreadPool.Service SenderJobs)
    (ThreadPool.ServiceAction SendEvent) :=
  ThreadPool.service (sendTasks zc sendFuel stray slices) SendCall.mk SenderJobs.hasEnded
    (slices.length + 1) workers

def step (s : State slices.length) : Action → Option (State slices.length)
  | .send a =>
      if s.CanSend buffers texts a then
        ((senderPool zc sendFuel workers stray slices).step s.sender a).map (s.sent a)
      else none
  | .receive a =>
      if s.CanReceive buffers texts a then
        (edgeStep zd fuel slices.length texts s.order s.receiver a).map fun receiver =>
          { s with receiver := receiver }
      else none

/-- Both sides, behind `SendFileSizeOnly`. -/
def transmission : TransitionSystem (State slices.length) Action where
  init :=
    { sender := (senderPool zc sendFuel workers stray slices).init
      receiver := (edgeServer zd fuel slices.length texts (AcceptOrder.refl _)).init
      order := AcceptOrder.refl _
      connected := 1 }
  step := step zc zd sendFuel fuel workers stray slices buffers texts

end System

/-- The guard of a run, which is about the receiver. -/
def Permits {count : ℕ} (guard : ServerState → ServerAction → Prop) (s : State count) :
    Action → Prop
  | .send _ => True
  | .receive a => Allowed guard s.receiver a

instance {count : ℕ} (guard : ServerState → ServerAction → Prop) [∀ s a, Decidable (guard s a)]
    (s : State count) : (a : Action) → Decidable (Permits guard s a)
  | .send _ => inferInstanceAs (Decidable True)
  | .receive a => inferInstanceAs (Decidable (Allowed guard s.receiver a))

def productive {count : ℕ} (s : State count) : Action → Bool
  | .send a => ThreadPool.serviceProductive SendEvent.productive s.sender a
  | .receive a => edgeProductive s.receiver a

/-! ## Orders that begin in the same way -/

section Agree

variable {D : Type} {z : ZstdDecompress D} {fuel count : ℕ} {texts : ℕ → List UInt8}
  {order order' : AcceptOrder (count + 1)}

theorem serverStep_congr {guard : ServerState → ServerAction → Prop} {s : ServerState}
    (hs : (server z fuel count texts order).ReachableVia guard s)
    (hagree : ∀ k < s.supervise.accepted, order'.conn k = order.conn k) (a : ServerAction) :
    serverStep z fuel count texts order' s a = serverStep z fuel count texts order s a := by
  have haccepted := (joined_of_reachable hs).accepted
  have htasks : ∀ b, (receiver z fuel count texts order').step s.tasks b =
      (receiver z fuel count texts order).step s.tasks b := by
    intro b
    rw [receiver_step, receiver_step]
    refine ThreadPool.serviceStep_congr (fun worker job hrunning => ?_) b
    have hpushed := (ThreadPool.Service.job_lt_of_running endedForGood_startConns
      (tasks_of_server hs) hrunning).1
    rw [hagree job (haccepted ▸ hpushed)]
    exact ⟨rfl, rfl⟩
  cases a with
  | enqueue => simp only [serverStep, htasks]
  | pool a => simp only [serverStep, htasks]
  | work worker event => simp only [serverStep, htasks]
  | push | count | notify | supervise _ => rfl
  | ready task =>
      by_cases hlt : task < s.supervise.accepted
      · simp only [serverStep, hagree task hlt]
      · have hnone : ∀ result, endStep count s.supervise (.finish task result) = none :=
          fun result => if_neg fun hopen => hlt hopen.1
        simp only [serverStep, hnone, Option.map_none]
        split
        · split
          · rfl
          · rfl
        · split
          · rfl
          · rfl

/-- **Only the connections that were accepted matter.** -/
theorem edgeStep_congr {guard : ServerState → ServerAction → Prop} {s : EdgeState}
    (hs : (edgeServer z fuel count texts order).ReachableVia (Allowed guard) s)
    (hagree : ∀ k < s.server.supervise.accepted, order'.conn k = order.conn k) (a : EdgeAction) :
    edgeStep z fuel count texts order' s a = edgeStep z fuel count texts order s a := by
  have hserver := server_of_edge hs
  have hsame := serverStep_congr hserver hagree
  cases a with
  | arrive conn bytes => rfl
  | arriveFin conn => rfl
  | wake worker event late =>
      rw [edgeStep, edgeStep]
      cases hworker : s.server.tasks.pool.workers worker with
      | running task =>
          have hpushed := (ThreadPool.Service.job_lt_of_running endedForGood_startConns
            (tasks_of_server hserver) hworker).1
          simp only [hsame, hagree task ((joined_of_reachable hserver).accepted ▸ hpushed)]
      | testing | asleep | holding _ | exited => rfl
  | other a =>
      cases a with
      | work worker event => rfl
      | enqueue | push | count | notify | pool _ | ready _ | supervise _ =>
          simp only [edgeStep, hsame]

/-- Only `enqueue` accepts a connection. -/
theorem accepted_of_edgeStep {s s' : EdgeState} {a : EdgeAction}
    (h : edgeStep z fuel count texts order s a = some s') :
    s'.server.supervise.accepted = s.server.supervise.accepted ∨ a = .other .enqueue ∧
      s'.server.supervise.accepted = s.server.supervise.accepted + 1 := by
  have hsupervise : ∀ {e : EndAction} {supervise : EndState}, e ≠ .enqueue →
      endStep count s.server.supervise e = some supervise →
      supervise.accepted = s.server.supervise.accepted := by
    intro e supervise hne hend
    cases e with
    | enqueue => exact absurd rfl hne
    | supervise action =>
        obtain ⟨phase, -, rfl⟩ := Option.map_eq_some_iff.mp hend
        rfl
    | push | count | notify | storeSlicesNum | finish _ _ =>
        obtain ⟨-, heq⟩ := Option.ite_none_right_eq_some.mp hend
        cases heq
        rfl
  cases edgeNext_of_step h with
  | arrive _ _ _ => exact Or.inl rfl
  | arriveFin _ _ _ => exact Or.inl rfl
  | wake _ _ hserver =>
      cases serverNext_of_step hserver with
      | work _ => exact Or.inl rfl
  | other _ hserver =>
      cases serverNext_of_step hserver with
      | enqueue _ hend =>
          obtain ⟨-, heq⟩ := Option.ite_none_right_eq_some.mp hend
          cases heq
          exact Or.inr ⟨rfl, rfl⟩
      | pool _ _ => exact Or.inl rfl
      | work _ => exact Or.inl rfl
      | push _ hend => exact Or.inl (hsupervise EndAction.noConfusion hend)
      | count hend => exact Or.inl (hsupervise EndAction.noConfusion hend)
      | notify hend => exact Or.inl (hsupervise EndAction.noConfusion hend)
      | ready _ hend => exact Or.inl (hsupervise EndAction.noConfusion hend)
      | supervise hend => exact Or.inl (hsupervise EndAction.noConfusion hend)

end Agree

/-! ## The steps -/

/-- The steps of both sides, one constructor for each thing that can happen. -/
inductive Next {C D : Type} (zc : ZstdCompress C) (zd : ZstdDecompress D)
    (sendFuel fuel workers : ℕ) (stray : ℤ → UInt8) (slices : List FileSlice) (buffers : Buffers)
    (texts : ℕ → List UInt8) (s : State slices.length) : Action → State slices.length → Prop
  | pool {a : ThreadPool.Action Unit} {sender : ThreadPool.Service SenderJobs}
      (hinner : sender.inner = s.sender.inner)
      (hsender : (senderPool zc sendFuel workers stray slices).step s.sender (.pool a) =
        some sender) :
      Next zc zd sendFuel fuel workers stray slices buffers texts s (.send (.pool a))
        { s with sender := sender }
  | run {worker conn : ℕ} {event : SendEvent} {sender : ThreadPool.Service SenderJobs}
      {status : SendStatus} (hcan : s.CanSend buffers texts (.work worker event))
      (hevent : ∀ success, event ≠ .connect success)
      (hrunning : s.sender.pool.workers worker = .running (conn + 1))
      (hsender : (senderPool zc sendFuel workers stray slices).step s.sender
        (.work worker event) = some sender)
      (hrun : runStep zc sendFuel stray (s.sender.inner.status conn) event = some status)
      (hinner : sender.inner = { s.sender.inner with
        status := Function.update s.sender.inner.status conn status }) :
      Next zc zd sendFuel fuel workers stray slices buffers texts s (.send (.work worker event))
        { s with sender := sender }
  | connect {worker conn : ℕ} {success : Bool} {sender : ThreadPool.Service SenderJobs}
      {status : SendStatus}
      (hsender : (senderPool zc sendFuel workers stray slices).step s.sender
        (.work worker (.connect success)) = some sender)
      (hrun : runStep zc sendFuel stray (s.sender.inner.status conn) (.connect success) =
        some status)
      (hinner : sender.inner = { s.sender.inner with
        status := Function.update s.sender.inner.status conn status }) :
      Next zc zd sendFuel fuel workers stray slices buffers texts s
        (.send (.work worker (.connect success)))
        { s with
          sender := sender
          order := place s.order s.connected (conn + 1)
          connected := s.connected + 1 }
  | report {worker : ℕ} {sender : ThreadPool.Service SenderJobs}
      (hphase : s.receiver.server.supervise.phase = .reported)
      (hsender : (senderPool zc sendFuel workers stray slices).step s.sender
        (.work worker .report) = some sender)
      (hinner : sender.inner = { s.sender.inner with told := true }) :
      Next zc zd sendFuel fuel workers stray slices buffers texts s
        (.send (.work worker .report)) { s with sender := sender }
  | receive {a : EdgeAction} {receiver : EdgeState} (hcan : s.CanReceive buffers texts a)
      (hreceiver : edgeStep zd fuel slices.length texts s.order s.receiver a = some receiver) :
      Next zc zd sendFuel fuel workers stray slices buffers texts s (.receive a)
        { s with receiver := receiver }

section Transmission

variable {C D : Type} {zc : ZstdCompress C} {zd : ZstdDecompress D} {sendFuel fuel workers : ℕ}
  {stray : ℤ → UInt8} {slices framed : List FileSlice} {buffers : Buffers}
  {texts : ℕ → List UInt8} {s s' : State slices.length}

theorem next_of_step {a : Action}
    (h : step zc zd sendFuel fuel workers stray slices buffers texts s a = some s') :
    Next zc zd sendFuel fuel workers stray slices buffers texts s a s' := by
  cases a with
  | receive a =>
      obtain ⟨hcan, heq⟩ := Option.ite_none_right_eq_some.mp h
      obtain ⟨receiver, hreceiver, rfl⟩ := Option.map_eq_some_iff.mp heq
      exact .receive hcan hreceiver
  | send a =>
      obtain ⟨hcan, heq⟩ := Option.ite_none_right_eq_some.mp h
      obtain ⟨sender, hsender, rfl⟩ := Option.map_eq_some_iff.mp heq
      rcases ThreadPool.serviceStep_cases hsender with
        ⟨action, pool, rfl, -, -, rfl⟩ | ⟨worker, event, job, inner, rfl, hrunning, -, hstep, rfl⟩
      · exact .pool rfl hsender
      rcases sendStep_cases hstep with ⟨hcall, -, rfl⟩ | ⟨conn, status, hjob, -, hrun, rfl⟩
      · cases hcall
        exact .report hcan hsender rfl
      · dsimp only at hjob hrun
        subst hjob
        by_cases hevent : ∀ success, event ≠ .connect success
        · have hsent : s.sent (.work worker event) { s.sender with
              inner := { s.sender.inner with
                status := Function.update s.sender.inner.status conn status } } =
              { s with sender := { s.sender with
                inner := { s.sender.inner with
                  status := Function.update s.sender.inner.status conn status } } } := by
            cases event with
            | connect success => exact absurd rfl (hevent success)
            | compress | write _ | report => rfl
          rw [hsent]
          exact .run hcan hevent hrunning hsender hrun rfl
        · push Not at hevent
          obtain ⟨success, rfl⟩ := hevent
          rw [State.sent]
          simp only [hrunning, ThreadPool.Worker.job]
          exact .connect hsender hrun rfl

variable {guard : ServerState → ServerAction → Prop}

/-- The sender sees a run of its own. -/
theorem sender_reachable {guard : State slices.length → Action → Prop}
    (h : (transmission zc zd sendFuel fuel workers stray slices buffers texts).ReachableVia
      guard s) : (senderPool zc sendFuel workers stray slices).Reachable s.sender := by
  refine ReachableVia.project (f := State.sender) rfl ?_ h
  intro s a s' _ _ hstep
  cases next_of_step hstep with
  | pool _ hsender => exact Or.inr ⟨_, trivial, hsender⟩
  | run _ _ _ hsender _ _ => exact Or.inr ⟨_, trivial, hsender⟩
  | connect hsender _ _ => exact Or.inr ⟨_, trivial, hsender⟩
  | report _ hsender _ => exact Or.inr ⟨_, trivial, hsender⟩
  | receive _ _ => exact Or.inl rfl

theorem onWire_of_sender (h : Framed zc sendFuel slices framed)
    (hs : (senderPool zc sendFuel workers stray slices).Reachable s.sender) :
    AllOnWire zc sendFuel framed s.sender.inner :=
  allOnWire_of_reachable h (ThreadPool.crew_of_service hs).crew_inner

/-! ## Who is connected -/

/-- The order begins with the connections so far, the file header first, and only they are
accepted. -/
structure Wired {count : ℕ} (s : State count) : Prop where
  pos : 0 < s.connected
  first : s.order.conn 0 = 0
  connected_iff : ∀ conn, (∃ k < s.connected, s.order.conn k = conn + 1) ↔
    (s.sender.inner.status conn).hasConnected = true
  accepted_le : s.receiver.server.supervise.accepted ≤ s.connected

theorem Wired.step {a : Action} (hframed : Framed zc sendFuel slices framed)
    (hwires : AllOnWire zc sendFuel framed s.sender.inner) (h : Wired s)
    (hstep : step zc zd sendFuel fuel workers stray slices buffers texts s a = some s') :
    Wired s' := by
  cases next_of_step hstep with
  | pool hinner _ => exact ⟨h.pos, h.first, by rw [hinner]; exact h.connected_iff, h.accepted_le⟩
  | report _ _ hinner =>
      exact ⟨h.pos, h.first, by rw [hinner]; exact h.connected_iff, h.accepted_le⟩
  | @run worker conn event sender status _ hevent _ _ hrun hinner =>
      refine ⟨h.pos, h.first, fun other => ?_, h.accepted_le⟩
      rw [hinner]
      dsimp only
      by_cases hsame : other = conn
      · rw [hsame, Function.update_self, hasConnected_of_runStep hevent hrun]
        exact h.connected_iff conn
      · rw [Function.update_of_ne hsame]
        exact h.connected_iff other
  | @connect worker conn success sender status _ hrun hinner =>
      obtain ⟨hbefore, hafter⟩ := linked_of_connect hrun
      have hlt : conn < slices.length := hframed.compressed.length_eq ▸ lt_of_runStep hwires hrun
      have hne : ∀ k < s.connected, s.order.conn k ≠ conn + 1 := by
        intro k hk hthere
        have hcontra := (h.connected_iff conn).mp ⟨k, hk, hthere⟩
        exact Bool.false_ne_true (hbefore.symm.trans hcontra)
      -- a connection that is still to come has a position behind those so far
      have hroom : s.connected < slices.length + 1 := by
        obtain ⟨k, hk, hthere⟩ := s.order.exists_task (Nat.succ_lt_succ hlt)
        refine lt_of_le_of_lt (Nat.not_lt.mp fun hcontra => hne k hcontra hthere) hk
      have hplaced : (place s.order s.connected (conn + 1)).conn s.connected = conn + 1 :=
        place_self _ hroom (Nat.succ_lt_succ hlt)
      refine ⟨Nat.succ_pos _, ?_, fun other => ?_, h.accepted_le.trans (Nat.le_succ _)⟩
      · exact (place_of_lt _ h.pos (hne 0 h.pos)).trans h.first
      · rw [hinner]
        dsimp only
        by_cases hsame : other = conn
        · rw [hsame, Function.update_self]
          exact iff_of_true ⟨s.connected, Nat.lt_succ_self _, hplaced⟩ hafter
        · rw [Function.update_of_ne hsame, ← h.connected_iff other]
          constructor
          · rintro ⟨k, hk, hthere⟩
            rcases Nat.lt_succ_iff_lt_or_eq.mp hk with hlt | rfl
            · exact ⟨k, hlt, (place_of_lt _ hlt (hne k hlt)).symm.trans hthere⟩
            · rw [hplaced] at hthere
              exact absurd (Nat.succ.inj hthere).symm hsame
          · rintro ⟨k, hk, hthere⟩
            exact ⟨k, Nat.lt_succ_of_lt hk, (place_of_lt _ hk (hne k hk)).trans hthere⟩
  | @receive a receiver hcan hreceiver =>
      refine ⟨h.pos, h.first, h.connected_iff, ?_⟩
      rcases accepted_of_edgeStep hreceiver with hsame | ⟨rfl, hmore⟩
      · exact hsame.trans_le h.accepted_le
      · have hless : s.receiver.server.supervise.accepted < s.connected := hcan
        exact hmore.trans_le hless

theorem wired_of_reachable {guard : State slices.length → Action → Prop}
    (hframed : Framed zc sendFuel slices framed)
    (hs : (transmission zc zd sendFuel fuel workers stray slices buffers texts).ReachableVia
      guard s) : Wired s := by
  induction hs with
  | init =>
      refine ⟨Nat.one_pos, rfl, fun conn => iff_of_false ?_ ?_, Nat.zero_le _⟩
      · rintro ⟨k, hk, hthere⟩
        obtain rfl : k = 0 := Nat.lt_one_iff.mp hk
        cases hthere
      · show ¬ (initialStatus slices[conn]?).hasConnected = true
        cases slices[conn]? with
        | none => exact Bool.false_ne_true
        | some slice => exact Bool.false_ne_true
  | step hreach _ hnext ih =>
      exact ih.step hframed (onWire_of_sender hframed (sender_reachable hreach)) hnext

/-- **The receiver sees a run of its own, with every order that begins with the connections so
far.** -/
theorem receiver_reachable (hframed : Framed zc sendFuel slices framed)
    (hs : (transmission zc zd sendFuel fuel workers stray slices buffers texts).ReachableVia
      (Permits guard) s) (order : AcceptOrder (slices.length + 1))
    (hagree : ∀ k < s.connected, order.conn k = s.order.conn k) :
    (edgeServer zd fuel slices.length texts order).ReachableVia (Allowed guard) s.receiver := by
  induction hs generalizing order with
  | init => exact .init
  | @step s s' a hreach hpermits hnext ih =>
      have hwired := wired_of_reachable hframed hreach
      cases next_of_step hnext with
      | pool _ _ => exact ih order hagree
      | run _ _ _ _ _ _ => exact ih order hagree
      | report _ _ _ => exact ih order hagree
      | @connect worker conn success sender status _ hrun _ =>
          -- `place` leaves the connections so far where they are
          refine ih order fun k hk => ?_
          refine (hagree k (Nat.lt_succ_of_lt hk)).trans (place_of_lt _ hk fun hthere => ?_)
          have hcontra := (hwired.connected_iff conn).mp ⟨k, hk, hthere⟩
          exact Bool.false_ne_true ((linked_of_connect hrun).1.symm.trans hcontra)
      | @receive a receiver _ hreceiver =>
          refine (ih order hagree).step hpermits ?_
          show edgeStep zd fuel slices.length texts order s.receiver a = some receiver
          rw [edgeStep_congr (ih s.order fun _ _ => rfl) (fun k hk =>
            hagree k (hk.trans_le hwired.accepted_le)) a]
          exact hreceiver

/-! ## What is on the way -/

/-- Nothing arrives that was not written, and the receive buffer holds what has arrived. -/
structure Flows {count : ℕ} (buffers : Buffers) (texts : ℕ → List UInt8) (s : State count) :
    Prop where
  arrived_le : ∀ conn, s.arrived texts conn ≤ s.written texts conn
  unread_le : ∀ conn, (s.receiver.sockets conn).unread ≤ buffers.rcvbuf

/-- A step of the sender only writes more. -/
theorem Flows.send (h : Flows buffers texts s) (hreceiver : s'.receiver = s.receiver)
    (hle : ∀ conn, (s.sender.inner.status conn).accepted.length ≤
      (s'.sender.inner.status conn).accepted.length) : Flows buffers texts s' := by
  constructor
  · intro conn
    have hwritten : s.written texts conn ≤ s'.written texts conn := by
      cases conn with
      | zero => exact le_refl _
      | succ conn => exact hle conn
    simp only [State.arrived, hreceiver]
    exact (h.arrived_le conn).trans hwritten
  · rw [hreceiver]
    exact h.unread_le

theorem accepted_update_le {inner : SenderJobs} {conn : ℕ} {event : SendEvent}
    {status : SendStatus} (hrun : runStep zc sendFuel stray (inner.status conn) event = some status)
    (other : ℕ) : (inner.status other).accepted.length ≤
      (Function.update inner.status conn status other).accepted.length := by
  by_cases hsame : other = conn
  · rw [hsame, Function.update_self]
    exact accepted_le_of_runStep hrun
  · rw [Function.update_of_ne hsame]

/-- What has arrived behind a wake-up. -/
theorem arrived_wake {texts undelivered unread late bytes : ℕ} (hle : undelivered ≤ texts)
    (htaken : bytes ≤ undelivered) (hread : bytes ≤ unread + late) :
    texts - (undelivered - bytes) + (unread + late - bytes) =
      texts - undelivered + unread + late := by
  omega

theorem Flows.step {a : Action} (h : Flows buffers texts s)
    (hs : (startConns zd fuel slices.length texts).Reachable s.receiver.server.tasks.inner)
    (hstep : step zc zd sendFuel fuel workers stray slices buffers texts s a = some s') :
    Flows buffers texts s' := by
  cases next_of_step hstep with
  | pool hinner _ => exact h.send rfl fun conn => by rw [hinner]
  | report _ _ hinner => exact h.send rfl fun conn => by rw [hinner]
  | run _ _ _ _ hrun hinner =>
      refine h.send rfl fun conn => ?_
      rw [hinner]
      exact accepted_update_le hrun conn
  | connect _ hrun hinner =>
      refine h.send rfl fun conn => ?_
      rw [hinner]
      exact accepted_update_le hrun conn
  | @receive a receiver hcan hreceiver =>
      cases edgeNext_of_step hreceiver with
      | @arrive conn bytes _ _ hle =>
          obtain ⟨hwritten, hroom⟩ := hcan
          constructor
          · intro other
            by_cases hsame : other = conn
            · subst hsame
              simp only [State.arrived, Function.update_self, Socket.arrive] at hwritten ⊢
              rw [← Nat.add_assoc]
              exact hwritten
            · simp only [State.arrived, Function.update_of_ne hsame]
              exact h.arrived_le other
          · intro other
            by_cases hsame : other = conn
            · subst hsame
              simp only [Function.update_self, Socket.arrive]
              exact hroom
            · simp only [Function.update_of_ne hsame]
              exact h.unread_le other
      | @arriveFin conn _ _ _ =>
          constructor
          · intro other
            by_cases hsame : other = conn
            · subst hsame
              simp only [State.arrived, Function.update_self, Socket.arriveFin]
              exact h.arrived_le other
            · simp only [State.arrived, Function.update_of_ne hsame]
              exact h.arrived_le other
          · intro other
            by_cases hsame : other = conn
            · subst hsame
              simp only [Function.update_self, Socket.arriveFin]
              exact h.unread_le other
            · simp only [Function.update_of_ne hsame]
              exact h.unread_le other
      | @wake worker task late event server hrunning hwakes hwork =>
          obtain ⟨hwritten, hroom⟩ := hcan task (by rw [hrunning]; rfl)
          obtain ⟨-, -, hread, -⟩ := hwakes
          obtain ⟨-, hinner⟩ := work_of_serverStep hrunning hwork
          obtain ⟨-, hconn⟩ := Option.ite_none_right_eq_some.mp hinner
          obtain ⟨-, htaken, recvTask, r, -, -, hsettle⟩ := connStep_cases hconn
          have hsuffix := undelivered_suffix hs (s.order.conn task)
          constructor
          · intro other
            by_cases hsame : other = s.order.conn task
            · subst hsame
              simp only [State.arrived, hsettle, ConnState.settle, Function.update_self,
                Socket.wake, List.length_drop]
              rw [arrived_wake hsuffix.length_le htaken.length_le hread]
              exact hwritten
            · simp only [State.arrived, hsettle, ConnState.settle, Function.update_of_ne hsame]
              exact h.arrived_le other
          · intro other
            by_cases hsame : other = s.order.conn task
            · subst hsame
              simp only [Function.update_self, Socket.wake]
              omega
            · simp only [Function.update_of_ne hsame]
              exact h.unread_le other
      | @other a server hwork hother =>
          refine ⟨fun conn => ?_, h.unread_le⟩
          simp only [State.arrived, inner_of_serverStep hwork hother]
          exact h.arrived_le conn

/-! ## What the sender is told -/

/-- `Supervise` reads the end marker only when the receiver has written it. -/
theorem told_of_reachable {guard : State slices.length → Action → Prop}
    (hs : (transmission zc zd sendFuel fuel workers stray slices buffers texts).ReachableVia
      guard s) (htold : s.sender.inner.told = true) :
    s.receiver.server.supervise.phase = .reported := by
  induction hs with
  | init => cases htold
  | step _ _ hnext ih =>
      cases next_of_step hnext with
      | pool hinner _ =>
          rw [hinner] at htold
          exact ih htold
      | run _ _ _ _ _ hinner =>
          rw [hinner] at htold
          exact ih htold
      | connect _ _ hinner =>
          rw [hinner] at htold
          exact ih htold
      | report hphase _ _ => exact hphase
      | receive _ hreceiver =>
          rcases server_of_edgeStep hreceiver with hsame | ⟨b, -, hserver⟩
          · rw [hsame]
            exact ih htold
          · exact reported_of_serverStep hserver (ih htold)

/-! ## Reachable states -/

variable {R : D → List UInt8 → List UInt8 → Prop} {fileSize : ℕ} {ships : ℕ → Shipment}

/-- The connections carry the file header and the frames of the slices, and that is all that
the receiver asks for. -/
structure Carries (zc : ZstdCompress C) (zd : ZstdDecompress D)
    (R : D → List UInt8 → List UInt8 → Prop) (sendFuel fuel fileSize : ℕ)
    (slices framed : List FileSlice) (texts : ℕ → List UInt8) (ships : ℕ → Shipment) : Prop where
  frames : Framed zc sendFuel slices framed
  texts_eq : ∀ conn (f : FileSlice), framed[conn]? = some f → texts (conn + 1) = f.wire
  allSent : ∀ order : AcceptOrder (slices.length + 1), order.conn 0 = 0 →
    AllSent zd R fuel fileSize slices.length texts order ships

/-- What is known of a state that a run has reached. -/
structure Underway (zc : ZstdCompress C) (zd : ZstdDecompress D)
    (R : D → List UInt8 → List UInt8 → Prop) (sendFuel fuel fileSize workers : ℕ)
    (stray : ℤ → UInt8) (slices framed : List FileSlice) (buffers : Buffers)
    (texts : ℕ → List UInt8) (ships : ℕ → Shipment) (guard : ServerState → ServerAction → Prop)
    (s : State slices.length) : Prop where
  sender : (senderPool zc sendFuel workers stray slices).Reachable s.sender
  receiver : (edgeServer zd fuel slices.length texts s.order).ReachableVia (Allowed guard)
    s.receiver
  allSent : AllSent zd R fuel fileSize slices.length texts s.order ships
  onWire : AllOnWire zc sendFuel framed s.sender.inner
  wired : Wired s
  flows : Flows buffers texts s

theorem startConns_of_edge {order : AcceptOrder (slices.length + 1)} {edge : EdgeState}
    (hs : (edgeServer zd fuel slices.length texts order).ReachableVia (Allowed guard) edge) :
    (startConns zd fuel slices.length texts).Reachable edge.server.tasks.inner :=
  (ThreadPool.crew_of_service (tasks_of_server (server_of_edge hs))).crew_inner

theorem underway (h : Carries zc zd R sendFuel fuel fileSize slices framed texts ships)
    (hs : (transmission zc zd sendFuel fuel workers stray slices buffers texts).ReachableVia
      (Permits guard) s) :
    Underway zc zd R sendFuel fuel fileSize workers stray slices framed buffers texts ships guard
      s := by
  have hwired := wired_of_reachable h.frames hs
  refine ⟨sender_reachable hs, receiver_reachable h.frames hs s.order fun _ _ => rfl,
    h.allSent s.order hwired.first, onWire_of_sender h.frames (sender_reachable hs), hwired, ?_⟩
  induction hs with
  | init =>
      refine ⟨fun conn => ?_, fun _ => Nat.zero_le _⟩
      have hnone : State.arrived texts
          (transmission zc zd sendFuel fuel workers stray slices buffers texts).init conn = 0 :=
        (Nat.add_zero _).trans (Nat.sub_self _)
      rw [hnone]
      exact Nat.zero_le _
  | step hreach _ hnext ih =>
      refine (ih (wired_of_reachable h.frames hreach)).step ?_ hnext
      exact startConns_of_edge (receiver_reachable h.frames hreach _ fun _ _ => rfl)

/-- With a receive buffer of at most `reads_max_bytes_`, a task that waits asks for all that is
in it. -/
theorem Underway.unread_le_readBudget
    (hu : Underway zc zd R sendFuel fuel fileSize workers stray slices framed buffers texts ships
      guard s) (hmost : buffers.rcvbuf ≤ readsMaxBytesFor (fileSize / slices.length))
    {worker k : ℕ} {task : RecvTask}
    (hrunning : s.receiver.server.tasks.pool.workers worker = .running k)
    (hwaiting : s.receiver.server.tasks.inner.status (s.order.conn k) = .waiting task) :
    (s.receiver.sockets (s.order.conn k)).unread ≤
      s.receiver.server.tasks.inner.readBudget (s.order.conn k) := by
  obtain ⟨-, -, hcovers, -⟩ :=
    exists_wake hu.allSent (tasks_of_server (server_of_edge hu.receiver)) hrunning hwaiting
  rcases hcovers with hall | hlarge
  · exact ((within_of_reachable hu.receiver).unread_le _).trans hall
  · exact (hu.flows.unread_le _).trans (hmost.trans hlarge)

/-- **No edge is lost when the receive buffer holds at most `reads_max_bytes_`.** -/
theorem drained (h : Carries zc zd R sendFuel fuel fileSize slices framed texts ships)
    (hmost : buffers.rcvbuf ≤ readsMaxBytesFor (fileSize / slices.length))
    (hs : (transmission zc zd sendFuel fuel workers stray slices buffers texts).ReachableVia
      (Permits guard) s) : s.receiver.Drained := by
  induction hs with
  | init => exact fun _ _ _ _ => rfl
  | @step s s' a hreach _ hnext ih =>
      cases next_of_step hnext with
      | pool _ _ | run _ _ _ _ _ _ | connect _ _ _ | report _ _ _ => exact ih
      | receive _ hreceiver =>
          exact ih.step (fun worker k task hrunning hwaiting =>
            (underway h hreach).unread_le_readBudget hmost hrunning hwaiting) hreceiver

/-! ## The measure -/

def measure (zc : ZstdCompress C) (sendFuel workers count : ℕ) (s : State count) : ℕ :=
  ThreadPool.serviceMeasure (count + 1) workers (sendMeasure zc sendFuel count) s.sender +
    edgeMeasure count s.receiver

theorem permits_of_true (hs : (transmission zc zd sendFuel fuel workers stray slices buffers
    texts).Reachable s) : (transmission zc zd sendFuel fuel workers stray slices buffers
      texts).ReachableVia (Permits fun _ _ => True) s := by
  refine hs.imp fun s a _ => ?_
  cases a with
  | send a => trivial
  | receive a => exact fun _ _ => trivial

/-- **Every productive step lowers the measure.** -/
theorem measured_transmission
    (h : Carries zc zd R sendFuel fuel fileSize slices framed texts ships)
    (hlt : slices.length < 32767) :
    (transmission zc zd sendFuel fuel workers stray slices buffers texts).Measured productive
      (measure zc sendFuel workers slices.length) := by
  intro s a s' hs hstep
  have hu := underway h (permits_of_true hs)
  have hsender : ∀ action sender,
      (senderPool zc sendFuel workers stray slices).step s.sender action = some sender →
        ThreadPool.serviceMeasure (slices.length + 1) workers
          (sendMeasure zc sendFuel slices.length) sender +
          (ThreadPool.serviceProductive SendEvent.productive s.sender action).toNat ≤
            ThreadPool.serviceMeasure (slices.length + 1) workers
              (sendMeasure zc sendFuel slices.length) s.sender := by
    intro action sender hnext
    refine ThreadPool.measured_service endedForGood_sendTasks ?_ s.sender action sender hu.sender
      hnext
    intro inner job event inner' hreach hinner
    have hless := sendMeasure_step h.frames hreach hinner
    rwa [← h.frames.compressed.length_eq] at hless
  unfold measure
  cases next_of_step hstep with
  | pool _ hnext =>
      have hless := hsender _ _ hnext
      simp only [productive]
      omega
  | run _ _ _ hnext _ _ =>
      have hless := hsender _ _ hnext
      simp only [productive]
      omega
  | connect hnext _ _ =>
      have hless := hsender _ _ hnext
      simp only [productive]
      omega
  | report _ hnext _ =>
      have hless := hsender _ _ hnext
      simp only [productive]
      omega
  | @receive a receiver _ hreceiver =>
      have hless := measured_edge hu.allSent hlt s.receiver a receiver
        (hu.receiver.imp fun _ _ _ => trivial) hreceiver
      simp only [productive]
      omega

end Transmission

end SliceTransfer.Transmission
