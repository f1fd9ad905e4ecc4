import SliceTransfer.Connections
import SliceTransfer.Acceptance
import SliceTransfer.Transfer
import SliceTransfer.Pool.Service
import Mathlib.Data.Finset.Lattice.Fold

/-!
# Slices on the receiver's pool

The accept loop enqueues one `Recv` task for each connection, and a worker of the pool runs
the task until it returns.  A task whose connection was closed in the middle of its slice
never returns, so it keeps its worker.

`fleet` is `connSystem` on the thread pool, with wake-ups that do not fail and first reads
that get the header (`CleanWake`).  The slice connections are accepted in any order
(`AcceptOrder`).  Connection `conn` carries an initial part `parts conn` of its slice
stream, perhaps all of it.

* A run on parts is a run on the whole streams that has not come to their ends
  (`reachable_pad`), so that `AllServed` holds here too;
* `OnCourse` adds that a task that waits is missing something, and that a task that has
  returned has returned zero with nothing missing;
* `fleet_served` puts the two results about jobs on a pool to this use.
-/

namespace SliceTransfer.Server

open Bytes TransitionSystem

/-! ## The system -/

/-- Nothing fails, and a first read gets the whole header. -/
def CleanWake (s : ConnState) (a : WakeUp) : Prop :=
  match a.event with
  | .epollFailed => False
  | .notReadable => True
  | .readable _ reads => ReadResult.error ∉ reads ∧
      (s.status a.conn = .waiting {} → kEachSliceHeaderLen ≤ a.event.bytes.length)

instance (s : ConnState) : (a : WakeUp) → Decidable (CleanWake s a)
  | ⟨_, .epollFailed⟩ => inferInstanceAs (Decidable False)
  | ⟨_, .notReadable⟩ => inferInstanceAs (Decidable True)
  | ⟨_, .readable _ _⟩ => inferInstanceAs (Decidable (_ ∧ _))

/-- The task of connection `conn` has returned, or was ended by a fault. -/
def ConnState.hasExited (s : ConnState) (conn : ℕ) : Bool :=
  match s.status conn with
  | .exited _ => true
  | _ => false

/-- The order in which `count` connections are accepted; task `k` of the pool serves
connection `conn k`. -/
structure AcceptOrder (count : ℕ) where
  conn : Equiv.Perm ℕ
  conn_lt_iff : ∀ k, conn k < count ↔ k < count

/-- The connections are accepted in the order of the slices. -/
def AcceptOrder.refl (count : ℕ) : AcceptOrder count := ⟨Equiv.refl ℕ, fun _ => Iff.rfl⟩

theorem AcceptOrder.exists_task {count : ℕ} (order : AcceptOrder count) {conn : ℕ}
    (hconn : conn < count) : ∃ k < count, order.conn k = conn := by
  refine ⟨order.conn.symm conn, ?_, order.conn.apply_symm_apply conn⟩
  rw [← order.conn_lt_iff, order.conn.apply_symm_apply]
  exact hconn

/-- A wake-up that reads something. -/
def RecvEvent.productive (event : RecvEvent) : Bool := decide (event.bytes ≠ [])

section System

variable {D : Type} (z : ZstdDecompress D) (fuel count workers : ℕ) (g : Globals)
  (parts : ℕ → List UInt8) (order : AcceptOrder count)

/-- The wake-ups of the `Recv` tasks. -/
def fleetConns : TransitionSystem ConnState WakeUp :=
  (connSystem z fuel count g parts).restrict CleanWake

/-- The `Recv` tasks on a pool with `workers` workers. -/
def fleet : TransitionSystem (ThreadPool.Service ConnState) (ThreadPool.ServiceAction RecvEvent) :=
  ThreadPool.service (fleetConns z fuel count g parts) (fun k => WakeUp.mk (order.conn k))
    (fun s k => s.hasExited (order.conn k)) count workers

end System

/-- What the sender puts on the connections: initial parts of the streams of slices that
zstd can regenerate and whose lengths fit an `int`. -/
structure Delivery {D : Type} (z : ZstdDecompress D) (R : D → List UInt8 → List UInt8 → Prop)
    (fileSize slicesNum count : ℕ) (parts : ℕ → List UInt8) (ships : ℕ → Shipment) : Prop where
  shipments : Shipments z fileSize slicesNum count (fun conn => (ships conn).stream conn) ships
  initial : ∀ conn < count, parts conn <+: (ships conn).stream conn
  header : ∀ conn < count, parts conn = [] ∨ kEachSliceHeaderLen ≤ (parts conn).length
  fits : ∀ conn < count, (ships conn).content.length ≤ intMax
  regenerated : ∃ dctx, z.createDCtx = some dctx ∧
    ∀ conn < count, R dctx (ships conn).payload (ships conn).content

/-- The connection was closed before the end of its slice. -/
def CutShort (parts : ℕ → List UInt8) (ships : ℕ → Shipment) (conn : ℕ) : Prop :=
  parts conn ≠ (ships conn).stream conn

instance (parts : ℕ → List UInt8) (ships : ℕ → Shipment) : DecidablePred (CutShort parts ships) :=
  fun conn => inferInstanceAs (Decidable (parts conn ≠ (ships conn).stream conn))

/-! ## Parts of streams -/

/-- What connection `conn` never gets. -/
def missing (parts : ℕ → List UInt8) (ships : ℕ → Shipment) (conn : ℕ) : List UInt8 :=
  ((ships conn).stream conn).drop (parts conn).length

/-- The state in which the missing bytes are still to come. -/
def ConnState.pad (s : ConnState) (more : ℕ → List UInt8) : ConnState :=
  { s with undelivered := fun conn => s.undelivered conn ++ more conn }

section Pad

variable {D : Type} {z : ZstdDecompress D} {fuel count : ℕ} {g : Globals}
  {parts more : ℕ → List UInt8} {s s' : ConnState}

/-- A step on parts of the streams is a step on longer ones. -/
theorem connStep_pad {a : WakeUp} (h : connStep z fuel count s a = some s') :
    connStep z fuel count (s.pad more) a = some (s'.pad more) := by
  obtain ⟨hconn, hbytes, task, r, hstatus, hr, rfl⟩ := connStep_cases h
  have hpadded : a.event.bytes <+: (s.pad more).undelivered a.conn :=
    hbytes.trans (List.prefix_append _ _)
  have hwaiting : (s.pad more).status a.conn = .waiting task := hstatus
  have hsame : recvStep z fuel (s.pad more).globals task a.event = some r := hr
  rw [connStep, if_pos ⟨hconn, hpadded⟩, hwaiting]
  simp only [hsame, Option.map_some, Option.some_inj]
  refine congrArg (fun undelivered => ConnState.mk undelivered _ _) ?_
  funext conn
  by_cases hconn : conn = a.conn
  · subst hconn
    simp only [ConnState.pad, ConnState.settle, Function.update_self]
    exact List.drop_append_of_le_length hbytes.length_le
  · simp only [ConnState.pad, ConnState.settle, Function.update_of_ne hconn]

theorem reachable_pad (h : (connSystem z fuel count g parts).Reachable s) :
    (connSystem z fuel count g fun conn => parts conn ++ more conn).Reachable (s.pad more) := by
  induction h with
  | init => exact Reachable.init _
  | step _ _ hnext ih => exact ih.next (connStep_pad hnext)

end Pad

/-! ## One wake-up -/

/-- A task that waits is missing something, and one that has returned has returned zero and
is missing nothing; `left` is what it has not read yet. -/
def OnCourse (left : List UInt8) : RecvStatus → Prop
  | .waiting _ => left ≠ []
  | .complete _ => False
  | .exited exit => exit = .returned 0 ∧ left = []

section Wake

variable {D : Type} {z : ZstdDecompress D} {R : D → List UInt8 → List UInt8 → Prop}
  {fuel fileSize slicesNum conn pos : ℕ} {g : Globals} {ship : Shipment}

/-- The end of a slice whose frame has arrived and can be regenerated. -/
theorem returned_of_regenerates (contract : Regenerates z R) {dctx : D}
    (hdctx : z.createDCtx = some dctx) (hR : R dctx ship.payload ship.content)
    (hfits : ship.content.length ≤ intMax) (h : Conforms z fileSize pos conn ship) :
    ∃ n, ∀ fuel ≥ n, ∀ g : Globals, g.Recorded fileSize slicesNum →
      (finishSlice z fuel (globalsAfter g (ship.stream conn)) conn).status =
        .exited (.returned 0) := by
  have hwhole : ship.stream conn ++ [] = ship.stream conn := List.append_nil _
  have hheader : kEachSliceHeaderLen ≤ (ship.stream conn).length := by
    rw [Shipment.stream, length_sliceStream h.announces]
    exact Nat.le_add_right _ _
  have hread : unmarshal (ship.stream conn) = ship.header conn :=
    unmarshal_of_append_eq h.announces hwhole hheader
  have hlt : ship.content.length < 2 ^ 32 := h.announces.len_lt
  obtain ⟨windows, n, -, hreturns⟩ :=
    decompress_regenerates contract hdctx hR h.nonempty (by omega)
  refine ⟨n, fun fuel hfuel g hrecorded => ?_⟩
  obtain ⟨file, hfile, -⟩ := hrecorded.start_eq
  have hlen : (entryAfter g (ship.stream conn)).len = ship.content.length :=
    congrArg SliceHeader.len hread
  have hdrop : (ship.stream conn).drop kEachSliceHeaderLen = ship.payload := by
    rw [Shipment.stream, sliceStream, List.drop_left' (length_headerBytes ..)]
  have harrived : ArrivedEntry (globalsAfter g (ship.stream conn)) conn
      (entryAfter g (ship.stream conn)) ship.payload ship.content.length := by
    rw [globalsAfter_eq_setInfo h.announces hwhole hheader]
    refine ⟨setInfo_mmap_self .., ?_, hlen, ⟨_, entryAfter_buf hrecorded _⟩, file, hfile⟩
    change ((ship.stream conn).drop kEachSliceHeaderLen).take
      (unmarshal (ship.stream conn)).cLen = ship.payload
    rw [hdrop, hread]
    exact List.take_length
  rw [status_finishSlice harrived, hreturns fuel hfuel, exitFor,
    if_neg (int32_eq_neg_one hlt hfits), hlen, if_pos ((sizeT_int32_eq_iff hlt).mpr hfits)]

/-- The completion test behind `bytes`, `more` being what is missing. -/
theorem status_of_stream {bytes more : List UInt8}
    (hann : Announces (ship.header conn) ship.payload) (hpayload : ship.payload ≠ [])
    (hstream : bytes ++ more = ship.stream conn) (hheader : kEachSliceHeaderLen ≤ bytes.length) :
    (more ≠ [] ∧ statusAfter bytes = .waiting ⟨false, conn⟩ ∧
        firstStatus bytes = .waiting ⟨false, conn⟩) ∨
      more = [] ∧ statusAfter bytes = .complete conn ∧ firstStatus bytes = .complete conn := by
  have hread : unmarshal bytes = ship.header conn := unmarshal_of_append_eq hann hstream hheader
  have hlength := congrArg List.length hstream
  rw [List.length_append, Shipment.stream, length_sliceStream hann] at hlength
  have hcLen : (ship.header conn).cLen = ship.payload.length := rfl
  have hsome : 0 < ship.payload.length := List.length_pos_of_ne_nil hpayload
  have hpart : payloadLen bytes = bytes.length - kEachSliceHeaderLen := rfl
  rw [firstStatus, statusAfter, hread]
  by_cases hnone : more = []
  · right
    rw [hnone, List.length_nil] at hlength
    have hdone : (ship.header conn).cLen = payloadLen bytes := by omega
    rw [if_pos hdone, if_neg (by omega)]
    exact ⟨hnone, rfl, rfl⟩
  · left
    have hmore := List.length_pos_of_ne_nil hnone
    have hopen : (ship.header conn).cLen ≠ payloadLen bytes := by omega
    rw [if_neg hopen, ite_self]
    exact ⟨hnone, rfl, rfl⟩

/-- What a wake-up reads takes the task to the completion test, which succeeds exactly when
the stream has come to its end. -/
theorem receive_onCourse {consumed piece more : List UInt8} {task : RecvTask} {event : RecvEvent}
    {r : StepResult} (hrecorded : g.Recorded fileSize slicesNum)
    (hann : Announces (ship.header conn) ship.payload) (hpayload : ship.payload ≠ [])
    (hreading : Reading g conn consumed task)
    (hstream : consumed ++ piece ++ more = ship.stream conn) (hdelivers : Delivers piece event)
    (hfirst : task = {} → kEachSliceHeaderLen ≤ piece.length)
    (hr : receive g task event = some r) :
    (more ≠ [] ∧ r.status = .waiting ⟨false, conn⟩) ∨
      more = [] ∧ r.status = .complete conn ∧ r.globals = globalsAfter g (ship.stream conn) := by
  rcases hreading with ⟨rfl, rfl⟩ | ⟨rfl, hheader, hinfo⟩
  · rw [List.nil_append] at hstream
    have hheader := hfirst rfl
    obtain ⟨hglobals, hstatus, -⟩ := receive_first hrecorded.expectsHeader
      hrecorded.readsMaxBytes_lt hdelivers hr hheader
    rw [hstatus]
    rcases status_of_stream hann hpayload hstream hheader with
      ⟨hsome, -, hwaiting⟩ | ⟨rfl, -, hcomplete⟩
    · exact Or.inl ⟨hsome, hwaiting⟩
    · rw [List.append_nil] at hstream
      exact Or.inr ⟨rfl, hcomplete, hstream ▸ hglobals⟩
  · have hindex : (unmarshal consumed).index = conn := congrArg SliceHeader.index
      (unmarshal_of_append_eq hann ((List.append_assoc ..).symm.trans hstream) hheader)
    have hself : globalsAfter g consumed = g := globalsAfter_eq_self (by rw [hindex, hinfo])
    have hlong : kEachSliceHeaderLen ≤ (consumed ++ piece).length :=
      hheader.trans (by rw [List.length_append]; exact Nat.le_add_right _ _)
    have hlt : payloadLen (consumed ++ piece) < 2 ^ 64 := by
      have hlen := congrArg List.length hstream
      have hcLen := hann.cLen_lt
      rw [List.length_append, Shipment.stream, length_sliceStream hann] at hlen
      rw [payloadLen]
      omega
    rw [← hself, ← hindex] at hr
    obtain ⟨hglobals, hstatus, -⟩ := receive_later hheader hlt hdelivers hr
    rw [hstatus]
    rcases status_of_stream hann hpayload hstream hlong with
      ⟨hsome, hwaiting, -⟩ | ⟨rfl, hcomplete, -⟩
    · exact Or.inl ⟨hsome, hwaiting⟩
    · rw [List.append_nil] at hstream
      exact Or.inr ⟨rfl, hcomplete, hstream ▸ hglobals⟩

/-- **A clean wake-up keeps the task on its course.** -/
theorem onCourse_of_recvStep {undelivered more : List UInt8} {task : RecvTask} {event : RecvEvent}
    {r : StepResult} (hrecorded : g.Recorded fileSize slicesNum)
    (hann : Announces (ship.header conn) ship.payload) (hpayload : ship.payload ≠ [])
    (hreturns : ∀ g : Globals, g.Recorded fileSize slicesNum →
      (finishSlice z fuel (globalsAfter g (ship.stream conn)) conn).status =
        .exited (.returned 0))
    (hserved : Served ship conn pos g (undelivered ++ more) (.waiting task))
    (hleft : undelivered ++ more ≠ []) (hbytes : event.bytes <+: undelivered)
    (hopen : event ≠ .epollFailed)
    (hclean : ∀ stale reads, event = .readable stale reads → ReadResult.error ∉ reads ∧
      (task = {} → kEachSliceHeaderLen ≤ event.bytes.length))
    (hr : recvStep z fuel g task event = some r) :
    OnCourse (undelivered.drop event.bytes.length ++ more) r.status := by
  obtain ⟨before, hbefore, rfl⟩ := Option.map_eq_some_iff.mp hr
  cases event with
  | epollFailed => exact absurd rfl hopen
  | notReadable =>
      cases hbefore
      rw [finish_of_not_complete fuel fun _ => RecvStatus.noConfusion]
      exact hleft
  | readable stale reads =>
      obtain ⟨herror, hfirst⟩ := hclean stale reads rfl
      obtain ⟨consumed, hstream, hreading⟩ := hserved
      obtain ⟨rest, hrest⟩ := hbytes
      rw [← hrest, List.drop_left]
      rw [← hrest, List.append_assoc, ← List.append_assoc] at hstream
      rcases receive_onCourse hrecorded hann hpayload hreading hstream
        ⟨stale, reads, herror, rfl⟩ hfirst hbefore with
        ⟨hsome, hwaiting⟩ | ⟨hnone, hcomplete, hglobals⟩
      · rw [finish_of_not_complete fuel fun _ => hwaiting ▸ RecvStatus.noConfusion, hwaiting]
        exact hsome
      · rw [StepResult.finish, hcomplete]
        simp only [hglobals, hreturns g hrecorded]
        exact ⟨rfl, hnone⟩

end Wake

/-! ## All connections -/

section Conns

variable {D : Type} {z : ZstdDecompress D} {R : D → List UInt8 → List UInt8 → Prop}
  {fuel fileSize slicesNum count : ℕ} {g : Globals} {parts : ℕ → List UInt8}
  {ships : ℕ → Shipment} {order : AcceptOrder count} {s s' : ConnState}

theorem Delivery.parts_append (h : Delivery z R fileSize slicesNum count parts ships) {conn : ℕ}
    (hconn : conn < count) : parts conn ++ missing parts ships conn = (ships conn).stream conn :=
  (List.prefix_iff_eq_append.mp (h.initial conn hconn))

theorem Delivery.padded (h : Delivery z R fileSize slicesNum count parts ships) :
    Shipments z fileSize slicesNum count (fun conn => parts conn ++ missing parts ships conn)
      ships :=
  ⟨fun _ hconn => h.parts_append hconn, h.shipments.conforms, h.shipments.apart⟩

/-- A frame that is empty regenerates nothing. -/
theorem Delivery.payload_ne_nil (h : Delivery z R fileSize slicesNum count parts ships)
    (contract : Regenerates z R) {conn : ℕ} (hconn : conn < count) :
    (ships conn).payload ≠ [] := by
  intro hnil
  obtain ⟨dctx, -, hR⟩ := h.regenerated
  have hconn' := hR conn hconn
  rw [hnil] at hconn'
  exact (h.shipments.conforms conn hconn).nonempty (contract.finished dctx _ hconn')

/-- With enough fuel every complete slice is accepted. -/
def Accepts (z : ZstdDecompress D) (fuel fileSize slicesNum count : ℕ) (ships : ℕ → Shipment) :
    Prop :=
  ∀ conn < count, ∀ g : Globals, g.Recorded fileSize slicesNum →
    (finishSlice z fuel (globalsAfter g ((ships conn).stream conn)) conn).status =
      .exited (.returned 0)

theorem Delivery.exists_accepts (h : Delivery z R fileSize slicesNum count parts ships)
    (contract : Regenerates z R) :
    ∃ n, ∀ fuel ≥ n, Accepts z fuel fileSize slicesNum count ships := by
  obtain ⟨dctx, hdctx, hR⟩ := h.regenerated
  have hone : ∀ conn < count, ∃ n, ∀ fuel ≥ n, ∀ g : Globals, g.Recorded fileSize slicesNum →
      (finishSlice z fuel (globalsAfter g ((ships conn).stream conn)) conn).status =
        .exited (.returned 0) :=
    fun conn hconn => returned_of_regenerates contract hdctx (hR conn hconn) (h.fits conn hconn)
      (h.shipments.conforms conn hconn)
  choose! n hn using hone
  refine ⟨(Finset.range count).sup n, fun fuel hfuel conn hconn => hn conn hconn fuel ?_⟩
  exact (Finset.le_sup (Finset.mem_range.mpr hconn)).trans hfuel

/-- Where all tasks are. -/
def AllOnCourse (count : ℕ) (parts : ℕ → List UInt8) (ships : ℕ → Shipment) (s : ConnState) :
    Prop :=
  ∀ conn < count, OnCourse (s.undelivered conn ++ missing parts ships conn) (s.status conn)

theorem clean_readable {a : WakeUp} {task : RecvTask} (hclean : CleanWake s a)
    (hstatus : s.status a.conn = .waiting task) : a.event ≠ .epollFailed ∧
      ∀ stale reads, a.event = .readable stale reads → ReadResult.error ∉ reads ∧
        (task = {} → kEachSliceHeaderLen ≤ a.event.bytes.length) := by
  obtain ⟨conn, event⟩ := a
  cases event with
  | epollFailed => exact hclean.elim
  | notReadable => exact ⟨RecvEvent.noConfusion, fun _ _ heq => by cases heq⟩
  | readable stale reads =>
      refine ⟨RecvEvent.noConfusion, ?_⟩
      intro stale' reads' heq
      cases heq
      refine ⟨hclean.1, ?_⟩
      rintro rfl
      exact hclean.2 hstatus

/-- **In every run of the fleet the header stays recorded, every task is served, and every
task is on its course.** -/
theorem fleet_inv (hz : z.Bounded) (contract : Regenerates z R) (hsize : fileSize < 2 ^ 64)
    (h : Delivery z R fileSize slicesNum count parts ships)
    (hrecorded : g.Recorded fileSize slicesNum)
    (haccepts : Accepts z fuel fileSize slicesNum count ships)
    (hs : (fleetConns z fuel count g parts).Reachable s) :
    s.globals.Recorded fileSize slicesNum ∧
      AllServed fileSize slicesNum count ships (s.pad (missing parts ships)) ∧
      AllOnCourse count parts ships s := by
  -- a task that is on its course has not failed
  have hboth : ∀ {s : ConnState}, (fleetConns z fuel count g parts).Reachable s →
      AllOnCourse count parts ships s → s.globals.Recorded fileSize slicesNum ∧
        AllServed fileSize slicesNum count ships (s.pad (missing parts ships)) := by
    intro s hs hcourse
    obtain ⟨hrecorded', ⟨conn, hconn, hfailed⟩ | hserved⟩ := recorded_or_allServed hz hsize h.padded
      hrecorded (reachable_pad (Reachable.of_restrict hs))
    · have hconn' := hcourse conn hconn
      have hstatus : (s.pad (missing parts ships)).status conn = s.status conn := rfl
      rw [hstatus] at hfailed
      cases hwhere : s.status conn with
      | waiting task =>
          rw [hwhere] at hfailed
          exact hfailed.elim
      | complete index =>
          rw [hwhere] at hfailed
          exact hfailed.elim
      | exited exit =>
          rw [hwhere] at hfailed hconn'
          exact absurd hconn'.1 hfailed
    · exact ⟨hrecorded', hserved⟩
  have hcourse : AllOnCourse count parts ships s := by
    induction hs with
    | init =>
        intro conn hconn
        show parts conn ++ missing parts ships conn ≠ []
        rw [h.parts_append hconn]
        intro hnil
        have hlength := length_sliceStream (h.shipments.conforms conn hconn).announces
        rw [← Shipment.stream, hnil, List.length_nil, kEachSliceHeaderLen] at hlength
        omega
    | @step s s' a hreach _ hnext ih =>
        obtain ⟨hclean, hstep⟩ := Option.ite_none_right_eq_some.mp hnext
        obtain ⟨hconn, hbytes, task, r, hstatus, hr, rfl⟩ := connStep_cases hstep
        obtain ⟨hrecorded', hserved⟩ := hboth hreach ih
        obtain ⟨hopen, hreads⟩ := clean_readable hclean hstatus
        intro conn hlt
        by_cases hsame : conn = a.conn
        · subst hsame
          have hthis := hserved _ hconn
          have hwaiting := ih _ hconn
          rw [hstatus] at hwaiting
          change Served _ _ _ s.globals (s.undelivered a.conn ++ missing parts ships a.conn)
            (s.status a.conn) at hthis
          rw [hstatus] at hthis
          simp only [ConnState.settle, Function.update_self]
          exact onCourse_of_recvStep hrecorded' (h.shipments.conforms _ hconn).announces
            (h.payload_ne_nil contract hconn) (haccepts _ hconn) hthis hwaiting hbytes hopen hreads
            hr
        · have hother := ih conn hlt
          simp only [ConnState.settle, Function.update_of_ne hsame]
          exact hother
  obtain ⟨hrecorded', hserved⟩ := hboth hs hcourse
  exact ⟨hrecorded', hserved, hcourse⟩

/-! ## As jobs -/

/-- A task that has exited stays so. -/
theorem exited_of_connStep {a : WakeUp} (hstep : connStep z fuel count s a = some s') {conn : ℕ}
    {exit : Exit} (hexited : s.status conn = .exited exit) : s'.status conn = .exited exit := by
  obtain ⟨-, -, task, r, hstatus, -, rfl⟩ := connStep_cases hstep
  have hne : conn ≠ a.conn := by
    rintro rfl
    rw [hstatus] at hexited
    cases hexited
  simpa [ConnState.settle, hne] using hexited

theorem hasExited_iff (s : ConnState) (conn : ℕ) :
    s.hasExited conn = true ↔ ∃ exit, s.status conn = .exited exit := by
  unfold ConnState.hasExited
  cases s.status conn <;> simp

theorem hasExited_of_connStep {a : WakeUp} (hstep : connStep z fuel count s a = some s') {conn : ℕ}
    (hended : s.hasExited conn = true) : s'.hasExited conn = true := by
  rw [hasExited_iff] at hended ⊢
  obtain ⟨exit, hexited⟩ := hended
  exact ⟨exit, exited_of_connStep hstep hexited⟩

theorem endedForGood_fleetConns : EndedForGood (fleetConns z fuel count g parts)
    (fun s k => s.hasExited (order.conn k)) :=
  fun _ _ _ _ hnext hended =>
    hasExited_of_connStep (Option.ite_none_right_eq_some.mp hnext).2 hended

/-- The bytes that are still to be read. -/
def undeliveredLen (count : ℕ) (s : ConnState) : ℕ :=
  ∑ conn ∈ Finset.range count, (s.undelivered conn).length

/-- A wake-up that reads something leaves less to be read. -/
theorem undeliveredLen_step {conn : ℕ} {event : RecvEvent}
    (hstep : connStep z fuel count s ⟨conn, event⟩ = some s') :
    undeliveredLen count s' + event.productive.toNat ≤ undeliveredLen count s := by
  obtain ⟨hconn, hbytes, task, r, -, -, rfl⟩ := connStep_cases hstep
  have hothers : ∀ other ∈ Finset.range count, other ≠ conn →
      ((s.settle conn event.bytes r).undelivered other).length ≤ (s.undelivered other).length := by
    intro other _ hne
    simp [ConnState.settle, hne]
  have hown : ((s.settle conn event.bytes r).undelivered conn).length =
      (s.undelivered conn).length - event.bytes.length := by
    simp [ConnState.settle]
  have hle := hbytes.length_le
  have hpaid : event.productive.toNat ≤ event.bytes.length := by
    by_cases hnone : event.bytes = []
    · simp [RecvEvent.productive, hnone]
    · have hpos := List.length_pos_of_ne_nil hnone
      have hflag := event.productive.toNat_le
      omega
  dsimp only at hle hown
  refine sum_add_le (Finset.mem_range.mpr hconn) ?_ hothers
  dsimp only
  omega

/-- A connection that was closed early keeps its task for ever. -/
theorem stalls_of_cutShort (hz : z.Bounded) (contract : Regenerates z R)
    (hsize : fileSize < 2 ^ 64) (h : Delivery z R fileSize slicesNum count parts ships)
    (hrecorded : g.Recorded fileSize slicesNum)
    (haccepts : Accepts z fuel fileSize slicesNum count ships)
    (hs : (fleetConns z fuel count g parts).Reachable s) {conn : ℕ} (hconn : conn < count)
    (hcut : CutShort parts ships conn) : s.hasExited conn = false := by
  obtain ⟨-, -, hcourse⟩ := fleet_inv hz contract hsize h hrecorded haccepts hs
  have hthis := hcourse conn hconn
  unfold ConnState.hasExited
  cases hwhere : s.status conn with
  | waiting task => rfl
  | complete index => rfl
  | exited exit =>
      rw [hwhere] at hthis
      have hnone := (List.append_eq_nil_iff.mp hthis.2).2
      have happend := h.parts_append hconn
      rw [hnone, List.append_nil] at happend
      exact absurd happend hcut

theorem laterBudget_pos {readsMaxBytes : ℕ} (hpos : 0 < readsMaxBytes) (info : FileSliceInfo) :
    0 < laterBudget readsMaxBytes info := by
  have hchosen : ∀ curReadRest : ℕ,
      0 < if curReadRest ≠ 0 then curReadRest else readsMaxBytes := by
    intro curReadRest
    split
    · rename_i hsome
      exact Nat.pos_of_ne_zero hsome
    · exact hpos
  exact hchosen _

theorem bytes_arrival (nLeft : ℕ) (piece : List UInt8) : (arrival nLeft piece).bytes = piece := by
  unfold arrival
  split <;> simp [RecvEvent.bytes, ReadResult.bytes]

/-- A later read asks for all that is missing, or for `reads_max_bytes_`. -/
theorem le_laterBudget {readsMaxBytes : ℕ} {info : FileSliceInfo}
    (hopen : info.offset < info.cLen) (hlt : info.cLen < 2 ^ 64) :
    min (info.cLen - info.offset) readsMaxBytes ≤ laterBudget readsMaxBytes info := by
  rw [laterBudget, subSizeT_of_le hopen.le hlt]
  by_cases hless : info.cLen - info.offset < readsMaxBytes
  · simp only [if_pos hless]
    rw [if_pos (by omega)]
    exact min_le_left _ _
  · simp only [if_neg hless]
    exact min_le_right _ _

/-- The task asks for something, for the header when it is its first read, and for all that
is missing or for `reads_max_bytes_`. -/
theorem beginRead_of_reading {ship : Shipment} {conn : ℕ} {consumed left : List UInt8}
    {task : RecvTask} (hrecorded : g.Recorded fileSize slicesNum)
    (hann : Announces (ship.header conn) ship.payload) (hreading : Reading g conn consumed task)
    (hstream : consumed ++ left = ship.stream conn) :
    ∃ nLeft, beginRead g task = .ok (g, nLeft) ∧ 0 < nLeft ∧
      (task = {} → kEachSliceHeaderLen ≤ nLeft ∧ kEachSliceHeaderLen ≤ left.length) ∧
      (left ≠ [] → min left.length g.readsMaxBytes ≤ nLeft) := by
  have hbudget : kEachSliceHeaderLen < g.readsMaxBytes :=
    hrecorded.readsMaxBytes_eq ▸ kEachSliceHeaderLen_lt_readsMaxBytesFor _
  rcases hreading with ⟨rfl, rfl⟩ | ⟨rfl, hheader, hinfo⟩
  · rw [List.nil_append] at hstream
    refine ⟨_, beginRead_first hrecorded.expectsHeader, by omega, fun _ => ⟨hbudget.le, ?_⟩, ?_⟩
    · have hlength := congrArg List.length hstream
      rw [Shipment.stream, length_sliceStream hann] at hlength
      omega
    · exact fun _ => min_le_right _ _
  · have hindex : (unmarshal consumed).index = conn :=
      congrArg SliceHeader.index (unmarshal_of_append_eq hann hstream hheader)
    have hself : globalsAfter g consumed = g := globalsAfter_eq_self (by rw [hindex, hinfo])
    have hbegin := beginRead_later g consumed
    rw [hself, hindex] at hbegin
    refine ⟨_, hbegin, laterBudget_pos (by omega) _, fun hfresh => (by cases hfresh), ?_⟩
    intro hleft
    have hlength := congrArg List.length hstream
    rw [List.length_append] at hlength
    have hlong : (ship.stream conn).length = kEachSliceHeaderLen + (ship.header conn).cLen :=
      length_sliceStream hann
    have hcLen : (entryAfter g consumed).cLen = (ship.header conn).cLen :=
      congrArg SliceHeader.cLen (unmarshal_of_append_eq hann hstream hheader)
    have hoffset : (entryAfter g consumed).offset = consumed.length - kEachSliceHeaderLen := rfl
    have hsome := List.length_pos_of_ne_nil hleft
    have hlt := hann.cLen_lt
    have hmissing : (entryAfter g consumed).cLen - (entryAfter g consumed).offset =
        left.length := by omega
    have hcovers : min _ g.readsMaxBytes ≤ _ := le_laterBudget
      (by omega : (entryAfter g consumed).offset < (entryAfter g consumed).cLen) (by omega)
    rwa [hmissing] at hcovers

/-- A task that waits for a stream that is sent whole can read as much as it asks for. -/
theorem exists_arrival (hz : z.Bounded) (contract : Regenerates z R)
    (hsize : fileSize < 2 ^ 64) (h : Delivery z R fileSize slicesNum count parts ships)
    (hrecorded : g.Recorded fileSize slicesNum)
    (haccepts : Accepts z fuel fileSize slicesNum count ships)
    (hs : (fleetConns z fuel count g parts).Reachable s) {conn : ℕ} (hconn : conn < count)
    (hwhole : ¬ CutShort parts ships conn) {task : RecvTask}
    (hwaiting : s.status conn = .waiting task) :
    s.undelivered conn ≠ [] ∧ ∃ nLeft, beginRead s.globals task = .ok (s.globals, nLeft) ∧
      0 < nLeft ∧
      min (s.undelivered conn).length (readsMaxBytesFor (fileSize / slicesNum)) ≤ nLeft ∧
      (task = {} → kEachSliceHeaderLen ≤ nLeft ∧
        kEachSliceHeaderLen ≤ (s.undelivered conn).length) ∧
      ∀ piece, piece <+: s.undelivered conn → piece.length ≤ nLeft →
        (task = {} → kEachSliceHeaderLen ≤ piece.length) →
        (fleetConns z fuel count g parts).step s ⟨conn, arrival nLeft piece⟩ ≠ none := by
  obtain ⟨hrecorded', hserved, hcourse⟩ := fleet_inv hz contract hsize h hrecorded haccepts hs
  have hthis := hserved conn hconn
  have hleft := hcourse conn hconn
  have hnone : missing parts ships conn = [] := by
    rw [missing, not_not.mp hwhole]
    exact List.drop_length
  change Served _ _ _ s.globals (s.undelivered conn ++ missing parts ships conn)
    (s.status conn) at hthis
  rw [hwaiting, hnone, List.append_nil] at hthis hleft
  obtain ⟨consumed, hstream, hreading⟩ := hthis
  obtain ⟨nLeft, hbegin, hroom, hheader, hcovers⟩ := beginRead_of_reading hrecorded'
    (h.shipments.conforms conn hconn).announces hreading hstream
  refine ⟨hleft, nLeft, hbegin, hroom, ?_, hheader, fun piece hpiece hfits hlong => ?_⟩
  · exact hrecorded'.readsMaxBytes_eq ▸ hcovers hleft
  · obtain ⟨r, hr⟩ := receive_arrival hbegin hfits
    have hbytes := bytes_arrival nLeft piece
    have hclean : CleanWake s ⟨conn, arrival nLeft piece⟩ := by
      refine ⟨by split <;> simp, fun hfirst => ?_⟩
      rw [hwaiting, RecvStatus.waiting.injEq] at hfirst
      show kEachSliceHeaderLen ≤ (arrival nLeft piece).bytes.length
      rw [hbytes]
      exact hlong hfirst
    have hprefix : (arrival nLeft piece).bytes <+: s.undelivered conn := by
      rw [hbytes]
      exact hpiece
    show (if CleanWake s ⟨conn, arrival nLeft piece⟩ then
      connStep z fuel count s ⟨conn, arrival nLeft piece⟩ else none) ≠ none
    rw [if_pos hclean, connStep, if_pos ⟨hconn, hprefix⟩, hwaiting]
    simp only [recvStep, hr, Option.map_some]
    exact Option.some_ne_none _

/-- A task whose connection carries the whole stream can go on until it has returned. -/
theorem exited_of_settled (hz : z.Bounded) (contract : Regenerates z R)
    (hsize : fileSize < 2 ^ 64) (h : Delivery z R fileSize slicesNum count parts ships)
    (hrecorded : g.Recorded fileSize slicesNum)
    (haccepts : Accepts z fuel fileSize slicesNum count ships)
    (hs : (fleetConns z fuel count g parts).Reachable s) {conn : ℕ} (hconn : conn < count)
    (hwhole : ¬ CutShort parts ships conn)
    (hsettled : ∀ event : RecvEvent, event.productive = true →
      (fleetConns z fuel count g parts).step s ⟨conn, event⟩ = none) :
    s.hasExited conn = true := by
  obtain ⟨-, -, hcourse⟩ := fleet_inv hz contract hsize h hrecorded haccepts hs
  have hthis := hcourse conn hconn
  unfold ConnState.hasExited
  cases hwhere : s.status conn with
  | exited exit => rfl
  | complete index =>
      rw [hwhere] at hthis
      exact hthis.elim
  | waiting task =>
      exfalso
      obtain ⟨hleft, nLeft, -, hroom, -, hheader, hsome⟩ :=
        exists_arrival hz contract hsize h hrecorded haccepts hs hconn hwhole hwhere
      refine hsome _ (List.take_prefix nLeft _) (List.length_take_le _ _) (fun hfirst => ?_)
        (hsettled _ ?_)
      · obtain ⟨hask, hlong⟩ := hheader hfirst
        rw [List.length_take]
        exact le_min hask hlong
      rw [RecvEvent.productive, bytes_arrival]
      refine decide_eq_true fun hnil => ?_
      rcases List.take_eq_nil_iff.mp hnil with hzero | hempty
      · exact hroom.ne' hzero
      · exact hleft hempty

/-! ## The result -/

/-- The task has returned zero, and its slice is in its place. -/
def Delivered (fileSize slicesNum : ℕ) (ships : ℕ → Shipment) (conn : ℕ)
    (s : ConnState) : Prop :=
  s.status conn = .exited (.returned 0) ∧ ∃ file, s.globals.start = some file ∧
    window file (conn * (fileSize / slicesNum)) (ships conn).content.length = (ships conn).content

/-- Task `k` is in the queue of the pool, and nothing has been read from its connection. -/
def Unserved (parts : ℕ → List UInt8) (order : AcceptOrder count) (k : ℕ)
    (s : ThreadPool.Service ConnState) : Prop :=
  k ∉ s.pool.taken ∧ s.inner.status (order.conn k) = .waiting {} ∧
    s.inner.undelivered (order.conn k) = parts (order.conn k)

theorem inner_reachable {workers : ℕ} {s : ThreadPool.Service ConnState}
    (hs : (fleet z fuel count workers g parts order).Reachable s) :
    (fleetConns z fuel count g parts).Reachable s.inner :=
  (ThreadPool.crew_of_service hs).crew_inner

theorem delivered_of_exited (hz : z.Bounded) (contract : Regenerates z R)
    (hsize : fileSize < 2 ^ 64) (h : Delivery z R fileSize slicesNum count parts ships)
    (hrecorded : g.Recorded fileSize slicesNum)
    (haccepts : Accepts z fuel fileSize slicesNum count ships)
    (hs : (fleetConns z fuel count g parts).Reachable s) {conn : ℕ} (hconn : conn < count)
    (hexited : s.hasExited conn = true) : Delivered fileSize slicesNum ships conn s := by
  obtain ⟨-, hserved, hcourse⟩ := fleet_inv hz contract hsize h hrecorded haccepts hs
  have hthis := hserved conn hconn
  have hleft := hcourse conn hconn
  change Served _ _ _ s.globals (s.undelivered conn ++ missing parts ships conn)
    (s.status conn) at hthis
  unfold ConnState.hasExited at hexited
  unfold Delivered
  cases hwhere : s.status conn with
  | waiting task =>
      rw [hwhere] at hexited
      cases hexited
  | complete index =>
      rw [hwhere] at hexited
      cases hexited
  | exited exit =>
      rw [hwhere] at hleft hthis
      obtain ⟨rfl, -⟩ := hleft
      exact ⟨rfl, hthis rfl⟩

theorem unserved_of_not_taken {workers : ℕ} {s : ThreadPool.Service ConnState}
    (hs : (fleet z fuel count workers g parts order).Reachable s) {k : ℕ}
    (hk : k ∉ s.pool.taken) : Unserved parts order k s := by
  refine ⟨hk, ?_⟩
  refine Reachable.fresh_of_queued
    (fun s k => s.status (order.conn k) = .waiting {} ∧
      s.undelivered (order.conn k) = parts (order.conn k))
    endedForGood_fleetConns (fun _ => ⟨rfl, rfl⟩) ?_ (ThreadPool.crew_of_service hs) k
    (ThreadPool.length_taken_le hs hk)
  intro s job event s' other hnext hne hfresh
  obtain ⟨-, hstep⟩ := Option.ite_none_right_eq_some.mp hnext
  obtain ⟨-, -, task, r, -, -, rfl⟩ := connStep_cases hstep
  have hother : order.conn other ≠ order.conn job := order.conn.injective.ne hne
  simpa [ConnState.settle, hother] using hfresh

/-- With fewer connections cut short before it than there are workers, a slice is put in its
place. -/
theorem fleet_endsIn {workers k : ℕ} (hz : z.Bounded) (contract : Regenerates z R)
    (hsize : fileSize < 2 ^ 64) (h : Delivery z R fileSize slicesNum count parts ships)
    (hrecorded : g.Recorded fileSize slicesNum)
    (haccepts : Accepts z fuel fileSize slicesNum count ships) (hk : k < count)
    (hwhole : ¬ CutShort parts ships (order.conn k))
    (hfew : ((Finset.range k).filter fun j => CutShort parts ships (order.conn j)).card < workers) :
    (fleet z fuel count workers g parts order).EndsIn
      (ThreadPool.serviceProductive RecvEvent.productive)
      (fun s => Delivered fileSize slicesNum ships (order.conn k) s.inner) := by
  have hends : (fleet z fuel count workers g parts order).EndsIn
      (ThreadPool.serviceProductive RecvEvent.productive)
      (fun s => s.inner.hasExited (order.conn k) = true) := by
    refine ThreadPool.service_endsIn endedForGood_fleetConns
      (fun _ _ _ _ _ hnext => undeliveredLen_step (Option.ite_none_right_eq_some.mp hnext).2)
      ?_ hk hwhole hfew
    intro s other hs hother hcut hsettled
    exact exited_of_settled hz contract hsize h hrecorded haccepts hs
      ((order.conn_lt_iff other).mpr hother) hcut hsettled
  exact hends.imp fun s hs _ hexited =>
    delivered_of_exited hz contract hsize h hrecorded haccepts (inner_reachable hs)
      ((order.conn_lt_iff k).mpr hk) hexited

end Conns

/-! ### Two slices, the first one cut short -/

/-- What is left of a raw frame: all of it, or nothing. -/
def RawLeft (_ : Unit) (input left : List UInt8) : Prop :=
  input = rawFrame left ∨ input = [] ∧ left = []

theorem rawDecompress_regenerates : Regenerates rawDecompress RawLeft := by
  constructor
  · intro dctx input left hleft hne
    obtain rfl : input = rawFrame left := hleft.resolve_right fun hnil => hne hnil.1
    refine ⟨⟨(), (rawFrame left).length, left⟩, [], ?_, le_refl _, (List.append_nil _).symm,
      Or.inl (List.length_pos_of_ne_nil hne), Or.inr ⟨List.drop_length, rfl⟩⟩
    simp only [rawDecompress, drop_rawFrame, le_refl, and_self, if_true]
  · rintro dctx left (hcontra | ⟨-, hnil⟩)
    · cases hcontra
    · exact hnil

/-- The bytes 97 and 98, one in each slice. -/
def pairShips (conn : ℕ) : Shipment :=
  ⟨[UInt8.ofNat (97 + conn)], rawFrame [UInt8.ofNat (97 + conn)]⟩

/-- The first connection is closed behind twelve bytes. -/
def pairParts (conn : ℕ) : List UInt8 :=
  if conn = 0 then ((pairShips 0).stream 0).take 12 else (pairShips conn).stream conn

theorem pair_delivery : Delivery rawDecompress RawLeft 2 2 2 pairParts pairShips := by
  have hconn : ∀ {conn}, conn < 2 → conn = 0 ∨ conn = 1 := by
    intro conn hlt
    omega
  refine ⟨⟨fun _ _ => rfl, ?_, ?_⟩, ?_, ?_, ?_, (), rfl, fun _ _ => Or.inl rfl⟩
  · intro conn hlt
    refine ⟨?_, List.cons_ne_nil _ _, ?_, rawDecompress_decodes _⟩
    · obtain rfl | rfl := hconn hlt
      · exact ⟨by decide, by decide, by decide, rfl⟩
      · exact ⟨by decide, by decide, by decide, rfl⟩
    · obtain rfl | rfl := hconn hlt
      · decide
      · decide
  · intro conn other hless hlt
    show conn * 1 + 1 ≤ other * 1
    omega
  · intro conn hlt
    obtain rfl | rfl := hconn hlt
    · exact List.take_prefix _ _
    · exact List.prefix_rfl
  · intro conn hlt
    obtain rfl | rfl := hconn hlt
    · exact Or.inr (by decide)
    · exact Or.inr (by decide)
  · intro conn hlt
    show 1 ≤ intMax
    decide

/-- The second slice is accepted behind the first one. -/
def pairOrder : AcceptOrder 2 := AcceptOrder.refl 2

end SliceTransfer.Server
