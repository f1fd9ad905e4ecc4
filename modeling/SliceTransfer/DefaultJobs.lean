import SliceTransfer.Arrival
import SliceTransfer.Sender.SendFileSize

/-!
# The receiver from its start, with one job

`transfer_arrives` begins when the header has been recorded.  Here the receiver begins with
nothing: the file header comes on the connection that is accepted first, the slices on the
others.  With the default of one job, one worker of the pool runs `Supervise` and the other
one runs the `Recv` tasks.

A single worker serves its tasks one after the other, so that the header is recorded before
anything is read from a slice connection (`Started`).  From then on the slice connections
are a `fleet`, by `startConns_step_slices`, and no task can get stuck (`not_stuck`).
-/

namespace SliceTransfer.Server

open Bytes Decimal TransitionSystem

/-! ## The system -/

/-- Nothing fails, the first read of the file header gets it whole, and the first read of a
slice gets the slice header. -/
def CleanStart (s : ConnState) (a : WakeUp) : Prop :=
  match a.event with
  | .epollFailed => False
  | .notReadable => True
  | .readable _ reads => ReadResult.error ∉ reads ∧ (s.status a.conn = .waiting {} →
      if a.conn = 0 then a.event.bytes = s.undelivered 0
      else kEachSliceHeaderLen ≤ a.event.bytes.length)

instance (s : ConnState) : (a : WakeUp) → Decidable (CleanStart s a)
  | ⟨_, .epollFailed⟩ => inferInstanceAs (Decidable False)
  | ⟨_, .notReadable⟩ => inferInstanceAs (Decidable True)
  | ⟨_, .readable _ _⟩ => inferInstanceAs (Decidable (_ ∧ _))

section System

variable {D : Type} (z : ZstdDecompress D) (fuel count : ℕ) (texts : ℕ → List UInt8)
  (order : AcceptOrder (count + 1))

/-- Connection 0 carries the file header, connection `conn + 1` slice `conn`. -/
def startConns : TransitionSystem ConnState WakeUp :=
  (connSystem z fuel (count + 1) Globals.initial texts).restrict CleanStart

/-- The `Recv` tasks, from the start of the receiver on, with one worker for them. -/
def receiver : TransitionSystem (ThreadPool.Service ConnState)
    (ThreadPool.ServiceAction RecvEvent) :=
  ThreadPool.service (startConns z fuel count texts) (fun k => WakeUp.mk (order.conn k))
    (fun s k => s.hasExited (order.conn k)) (count + 1) 1

theorem receiver_step : (receiver z fuel count texts order).step =
    ThreadPool.serviceStep (startConns z fuel count texts) (fun k => WakeUp.mk (order.conn k))
      (fun s k => s.hasExited (order.conn k)) (count + 1) 1 := rfl

end System

/-- The file header and all slices are sent whole, in a way that the receiver can handle; the
connection of the header is accepted first. -/
structure AllSent {D : Type} (z : ZstdDecompress D) (R : D → List UInt8 → List UInt8 → Prop)
    (fuel fileSize count : ℕ) (texts : ℕ → List UInt8) (order : AcceptOrder (count + 1))
    (ships : ℕ → Shipment) : Prop where
  bounded : z.Bounded
  regenerates : Regenerates z R
  size_lt : fileSize < 2 ^ 64
  count_pos : 1 ≤ count
  count_lt : count < 2 ^ 32
  header : texts 0 = headerText fileSize count
  header_le : (texts 0).length ≤ kFileSliceHeaderLen + 1
  delivery : Delivery z R fileSize count count (fun conn => texts (conn + 1)) ships
  whole : ∀ conn < count, ¬ CutShort (fun conn => texts (conn + 1)) ships conn
  accepts : Accepts z fuel fileSize count count ships
  first : order.conn 0 = 0

/-- The slice connections. -/
def ConnState.slices (s : ConnState) : ConnState where
  undelivered := fun conn => s.undelivered (conn + 1)
  globals := s.globals
  status := fun conn => s.status (conn + 1)

section Start

variable {D : Type} {z : ZstdDecompress D} {fuel count : ℕ} {texts : ℕ → List UInt8}
  {order : AcceptOrder (count + 1)} {s s' : ConnState}

/-! ## The slice connections are a fleet -/

theorem slices_settle (s : ConnState) (conn : ℕ) (bytes : List UInt8) (r : StepResult) :
    (s.settle (conn + 1) bytes r).slices = s.slices.settle conn bytes r := by
  have hupdate : ∀ {τ : Type} (f : ℕ → τ) (value : τ),
      (fun other => Function.update f (conn + 1) value (other + 1)) =
        Function.update (fun other => f (other + 1)) conn value := by
    intro τ f value
    funext other
    by_cases hsame : other = conn
    · rw [hsame, Function.update_self, Function.update_self]
    · rw [Function.update_of_ne hsame, Function.update_of_ne (fun h => hsame (Nat.succ.inj h))]
  simp only [ConnState.slices, ConnState.settle, hupdate]

theorem connStep_slices (s : ConnState) (conn : ℕ) (event : RecvEvent) :
    (connStep z fuel (count + 1) s ⟨conn + 1, event⟩).map ConnState.slices =
      connStep z fuel count s.slices ⟨conn, event⟩ := by
  have hguard : (conn + 1 < count + 1 ∧ event.bytes <+: s.undelivered (conn + 1)) =
      (conn < count ∧ event.bytes <+: s.slices.undelivered conn) :=
    propext (and_congr_left' Nat.succ_lt_succ_iff)
  have hstatus : s.slices.status conn = s.status (conn + 1) := rfl
  simp only [connStep, hguard, hstatus]
  split
  · split
    · rw [Option.map_map]
      exact congrArg (fun f => Option.map f _) (funext fun r => slices_settle s conn _ r)
    · rfl
  · rfl

theorem cleanStart_iff (s : ConnState) (conn : ℕ) (event : RecvEvent) :
    CleanStart s ⟨conn + 1, event⟩ ↔ CleanWake s.slices ⟨conn, event⟩ := by
  cases event with
  | epollFailed => exact Iff.rfl
  | notReadable => exact Iff.rfl
  | readable stale reads =>
      simp only [CleanStart, CleanWake, Nat.succ_ne_zero, if_false]
      exact Iff.rfl

/-- **A wake-up of a slice connection is one of the fleet.** -/
theorem startConns_step_slices (g : Globals) (s : ConnState) (conn : ℕ) (event : RecvEvent) :
    ((startConns z fuel count texts).step s ⟨conn + 1, event⟩).map ConnState.slices =
      (fleetConns z fuel count g fun conn => texts (conn + 1)).step s.slices ⟨conn, event⟩ := by
  show (if CleanStart s ⟨conn + 1, event⟩ then connStep z fuel (count + 1) s ⟨conn + 1, event⟩
    else none).map ConnState.slices =
      if CleanWake s.slices ⟨conn, event⟩ then connStep z fuel count s.slices ⟨conn, event⟩
      else none
  rw [← connStep_slices]
  by_cases hclean : CleanStart s ⟨conn + 1, event⟩
  · rw [if_pos hclean, if_pos ((cleanStart_iff s conn event).mp hclean)]
  · rw [if_neg hclean, if_neg (hclean ∘ (cleanStart_iff s conn event).mpr), Option.map_none]

/-! ## The header first -/

/-- The header task has returned, and the slice connections are a fleet with its header. -/
def HeaderRecorded (z : ZstdDecompress D) (fuel count fileSize : ℕ) (texts : ℕ → List UInt8)
    (s : ConnState) : Prop :=
  s.status 0 = .exited (.returned 0) ∧
    (fleetConns z fuel count (recordHeader fileSize count Globals.initial)
      fun conn => texts (conn + 1)).Reachable s.slices

variable {R : D → List UInt8 → List UInt8 → Prop} {fileSize : ℕ} {ships : ℕ → Shipment}

/-- What a wake-up of the header connection does. -/
theorem headerRecorded_of_step {event : RecvEvent}
    (h : AllSent z R fuel fileSize count texts order ships)
    (hstep : (startConns z fuel count texts).step (startConns z fuel count texts).init ⟨0, event⟩ =
      some s') :
    s' = (startConns z fuel count texts).init ∨ HeaderRecorded z fuel count fileSize texts s' := by
  obtain ⟨hclean, hconnStep⟩ := Option.ite_none_right_eq_some.mp hstep
  obtain ⟨-, hbytes, task, r, hstatus, hr, rfl⟩ := connStep_cases hconnStep
  cases hstatus
  obtain ⟨before, hbefore, rfl⟩ := Option.map_eq_some_iff.mp hr
  cases event with
  | epollFailed => exact hclean.elim
  | notReadable =>
      left
      cases hbefore
      rw [finish_of_not_complete fuel fun _ => RecvStatus.noConfusion]
      refine congrArg₂ (fun undelivered status => ConnState.mk undelivered _ status) ?_ ?_
      · exact Function.update_eq_self 0 texts
      · exact Function.update_eq_self 0 _
  | readable stale reads =>
      right
      obtain ⟨herror, hfirst⟩ := hclean
      have hwhole : RecvEvent.bytes (.readable stale reads) = texts 0 := hfirst rfl
      obtain ⟨-, hglobals, hexit⟩ := receive_header expectsHeader_initial
        ⟨stale, reads, herror, rfl⟩ hbefore
      have hread : reads.flatMap ReadResult.bytes = headerText fileSize count :=
        hwhole.trans h.header
      rw [hread, processHeader_headerText _ h.size_lt h.count_pos h.count_lt] at hglobals hexit
      rw [finish_of_not_complete fuel fun _ => by rw [hexit]; exact RecvStatus.noConfusion]
      have hhere : Function.update (startConns z fuel count texts).init.status 0 before.status 0 =
          before.status := Function.update_self ..
      refine ⟨hhere.trans hexit, ?_⟩
      have hslices : ((startConns z fuel count texts).init.settle 0
          (RecvEvent.bytes (.readable stale reads)) before).slices =
            (fleetConns z fuel count (recordHeader fileSize count Globals.initial)
              fun conn => texts (conn + 1)).init := by
        simp only [ConnState.slices, ConnState.settle, hglobals]
        refine congrArg₂ (fun undelivered status => ConnState.mk undelivered
          (recordHeader fileSize count Globals.initial) status) ?_ ?_
        · exact funext fun conn => Function.update_of_ne (Nat.succ_ne_zero conn) _ _
        · exact funext fun conn => Function.update_of_ne (Nat.succ_ne_zero conn) _ _
      rw [hslices]
      exact Reachable.init _

/-- The receiver has not read anything, or the header is recorded. -/
def Started (z : ZstdDecompress D) (fuel count fileSize : ℕ) (texts : ℕ → List UInt8)
    (s : ConnState) : Prop :=
  s = (startConns z fuel count texts).init ∨ HeaderRecorded z fuel count fileSize texts s

theorem Started.of_hasExited (h : Started z fuel count fileSize texts s)
    (hexited : s.hasExited 0 = true) : HeaderRecorded z fuel count fileSize texts s := by
  rcases h with rfl | hrecorded
  · cases hexited
  · exact hrecorded

theorem endedForGood_startConns : EndedForGood (startConns z fuel count texts)
    (fun s k => s.hasExited (order.conn k)) :=
  fun _ _ _ _ hnext hended =>
    hasExited_of_connStep (Option.ite_none_right_eq_some.mp hnext).2 hended

/-- A task that runs is the header's, or it runs behind the header's. -/
theorem header_of_running {s : ThreadPool.Service ConnState} (hfirst : order.conn 0 = 0)
    (hs : (receiver z fuel count texts order).Reachable s) {worker k : ℕ}
    (hrunning : s.pool.workers worker = .running k) :
    order.conn k = 0 ∨ s.inner.hasExited 0 = true ∧ ∃ conn, order.conn k = conn + 1 := by
  rcases Nat.eq_zero_or_pos k with rfl | hpos
  · exact Or.inl hfirst
  · right
    have hended := (ThreadPool.crew_of_service hs).ended_before endedForGood_startConns
      (ThreadPool.Service.held_of_running hrunning) 0 hpos
    have hne : order.conn k ≠ 0 := by
      intro hzero
      rw [← hfirst] at hzero
      exact hpos.ne' (order.conn.injective hzero)
    rw [hfirst] at hended
    exact ⟨hended, Nat.exists_eq_succ_of_ne_zero hne⟩

/-- **Nothing is read from a slice connection before the header is recorded.** -/
theorem started_of_reachable {s : ThreadPool.Service ConnState}
    (h : AllSent z R fuel fileSize count texts order ships)
    (hs : (receiver z fuel count texts order).Reachable s) :
    Started z fuel count fileSize texts s.inner := by
  induction hs with
  | init => exact Or.inl rfl
  | @step s s' a hreach _ hnext ih =>
      rcases ThreadPool.serviceStep_cases hnext with
        ⟨action, pool, -, -, -, rfl⟩ | ⟨worker, event, k, inner, -, hrunning, -, hinner, rfl⟩
      · exact ih
      rcases header_of_running h.first hreach hrunning with hzero | ⟨hexited, conn, hconn⟩
      · rw [hzero] at hinner
        rcases ih with hinit | ⟨hreturned, -⟩
        · rw [hinit] at hinner
          exact headerRecorded_of_step h hinner
        · -- the header task has nothing left to do
          obtain ⟨-, hstep⟩ := Option.ite_none_right_eq_some.mp hinner
          obtain ⟨-, -, task, r, hwaiting, -, -⟩ := connStep_cases hstep
          rw [hreturned] at hwaiting
          cases hwaiting
      · obtain ⟨hreturned, hfleet⟩ := ih.of_hasExited hexited
        rw [hconn] at hinner
        have hslices : ((startConns z fuel count texts).step s.inner ⟨conn + 1, event⟩).map
            ConnState.slices = _ :=
          startConns_step_slices (recordHeader fileSize count Globals.initial) s.inner conn event
        rw [hinner, Option.map_some] at hslices
        obtain ⟨-, hstep⟩ := Option.ite_none_right_eq_some.mp hinner
        obtain ⟨-, -, task, r, -, -, rfl⟩ := connStep_cases hstep
        refine Or.inr ⟨?_, hfleet.next hslices.symm⟩
        have hother : Function.update s.inner.status (conn + 1) r.status 0 = s.inner.status 0 :=
          Function.update_of_ne (Nat.succ_ne_zero conn).symm ..
        exact hother.trans hreturned

/-- Nothing has happened on the slice connections. -/
def Untouched (texts : ℕ → List UInt8) (s : ConnState) : Prop :=
  ∀ conn, s.status (conn + 1) = .waiting {} ∧ s.undelivered (conn + 1) = texts (conn + 1)

theorem untouched_or_recorded {s : ThreadPool.Service ConnState}
    (h : AllSent z R fuel fileSize count texts order ships)
    (hs : (receiver z fuel count texts order).Reachable s) :
    Untouched texts s.inner ∨
      s.inner.status 0 = .exited (.returned 0) ∧ s.inner.globals.Recorded fileSize count := by
  refine (started_of_reachable h hs).imp (fun hinit => ?_) (fun hrecorded => ?_)
  · rw [hinit]
    exact fun _ => ⟨rfl, rfl⟩
  · obtain ⟨hreturned, hfleet⟩ := hrecorded
    exact ⟨hreturned, (fleet_inv h.bounded h.regenerates h.size_lt h.delivery
      (recorded_recordHeader fileSize count Globals.initial) h.accepts hfleet).1⟩

/-! ## No task gets stuck -/

/-- The whole header can arrive. -/
theorem header_arrival (hfits : (texts 0).length ≤ kFileSliceHeaderLen + 1) :
    (startConns z fuel count texts).step (startConns z fuel count texts).init
      ⟨0, arrival (kFileSliceHeaderLen + 1) (texts 0)⟩ ≠ none := by
  have hbegin : beginRead Globals.initial {} =
      .ok ({ Globals.initial with readsMaxBytes := kFileSliceHeaderLen + 1 },
        kFileSliceHeaderLen + 1) := rfl
  obtain ⟨r, hr⟩ := receive_arrival hbegin hfits
  have hbytes := bytes_arrival (kFileSliceHeaderLen + 1) (texts 0)
  have hclean : CleanStart (startConns z fuel count texts).init
      ⟨0, arrival (kFileSliceHeaderLen + 1) (texts 0)⟩ :=
    ⟨by split <;> simp, fun _ => (if_pos rfl).mpr hbytes⟩
  have hprefix : (arrival (kFileSliceHeaderLen + 1) (texts 0)).bytes <+: texts 0 := by
    rw [hbytes]
  have hstep : (startConns z fuel count texts).step (startConns z fuel count texts).init
      ⟨0, arrival (kFileSliceHeaderLen + 1) (texts 0)⟩ =
        (recvStep z fuel Globals.initial {} (arrival (kFileSliceHeaderLen + 1) (texts 0))).map
          ((startConns z fuel count texts).init.settle 0
            (arrival (kFileSliceHeaderLen + 1) (texts 0)).bytes) :=
    (if_pos hclean).trans (if_pos ⟨Nat.succ_pos count, hprefix⟩)
  rw [hstep, recvStep, hr]
  exact Option.some_ne_none _

/-- **A task that runs can go on, or it has returned.** -/
theorem not_stuck {s : ThreadPool.Service ConnState}
    (h : AllSent z R fuel fileSize count texts order ships)
    (hs : (receiver z fuel count texts order).Reachable s) {worker k : ℕ} (hk : k < count + 1)
    (hrunning : s.pool.workers worker = .running k) :
    ¬ ThreadPool.Stuck (startConns z fuel count texts) (fun k => WakeUp.mk (order.conn k))
      (fun s k => s.hasExited (order.conn k)) RecvEvent.productive s.inner k := by
  rintro ⟨hopen, hnone⟩
  dsimp only at hopen hnone
  have hstarted := started_of_reachable h hs
  rcases header_of_running h.first hs hrunning with hzero | ⟨hexited, conn, hconn⟩
  · rw [hzero] at hopen hnone
    rcases hstarted with hinit | ⟨hreturned, -⟩
    · rw [hinit] at hnone
      refine header_arrival h.header_le (hnone _ ?_)
      rw [RecvEvent.productive, bytes_arrival, h.header]
      exact decide_eq_true (List.cons_ne_nil _ _)
    · rw [ConnState.hasExited, hreturned] at hopen
      cases hopen
  · obtain ⟨-, hfleet⟩ := hstarted.of_hasExited hexited
    rw [hconn] at hopen hnone
    have hlt : conn + 1 < count + 1 := by
      rw [← hconn]
      exact (order.conn_lt_iff k).mpr hk
    have hdone := exited_of_settled h.bounded h.regenerates h.size_lt h.delivery
      (recorded_recordHeader fileSize count _) h.accepts hfleet (Nat.lt_of_succ_lt_succ hlt)
      (h.whole conn (Nat.lt_of_succ_lt_succ hlt)) fun event hproductive => by
        rw [← startConns_step_slices, hnone event hproductive, Option.map_none]
    exact Bool.false_ne_true (hopen.symm.trans hdone)

/-- The file header has been read, and the slices are in place. -/
def AllDelivered (fileSize count : ℕ) (ships : ℕ → Shipment) (s : ConnState) : Prop :=
  s.status 0 = .exited (.returned 0) ∧ s.slices.globals.Recorded fileSize count ∧
    ∀ conn < count, Delivered fileSize count ships conn s.slices

/-- When all tasks have exited, everything is delivered. -/
theorem allDelivered_of_exited {s : ThreadPool.Service ConnState}
    (h : AllSent z R fuel fileSize count texts order ships)
    (hs : (receiver z fuel count texts order).Reachable s)
    (hexited : ∀ k < count + 1, s.inner.hasExited (order.conn k) = true) :
    AllDelivered fileSize count ships s.inner := by
  have hheader := hexited 0 (Nat.succ_pos count)
  rw [h.first] at hheader
  obtain ⟨hreturned, hfleet⟩ := (started_of_reachable h hs).of_hasExited hheader
  have hrecorded := recorded_recordHeader fileSize count Globals.initial
  refine ⟨hreturned, (fleet_inv h.bounded h.regenerates h.size_lt h.delivery hrecorded h.accepts
    hfleet).1, ?_⟩
  intro conn hconn
  obtain ⟨k, hk, hthis⟩ := order.exists_task (Nat.succ_lt_succ hconn)
  have hdone := hexited k hk
  rw [hthis] at hdone
  exact delivered_of_exited h.bounded h.regenerates h.size_lt h.delivery hrecorded h.accepts hfleet
    hconn hdone

/-- Behind the header, a task that has exited has read its stream. -/
theorem undelivered_of_exited {s : ThreadPool.Service ConnState}
    (h : AllSent z R fuel fileSize count texts order ships)
    (hs : (receiver z fuel count texts order).Reachable s) (hheader : s.inner.hasExited 0 = true)
    {conn : ℕ} (hconn : conn < count) (hexited : s.inner.hasExited (conn + 1) = true) :
    s.inner.undelivered (conn + 1) = [] := by
  obtain ⟨-, hfleet⟩ := (started_of_reachable h hs).of_hasExited hheader
  obtain ⟨-, -, hcourse⟩ := fleet_inv h.bounded h.regenerates h.size_lt h.delivery
    (recorded_recordHeader fileSize count Globals.initial) h.accepts hfleet
  obtain ⟨exit, hstatus⟩ := (hasExited_iff _ _).mp hexited
  have hthis := hcourse conn hconn
  have hslice : s.inner.slices.status conn = .exited exit := hstatus
  rw [hslice] at hthis
  exact (List.append_eq_nil_iff.mp hthis.2).1

/-- Every run ends with all tasks exited. -/
theorem receiver_endsIn (h : AllSent z R fuel fileSize count texts order ships) :
    (receiver z fuel count texts order).EndsIn (ThreadPool.serviceProductive RecvEvent.productive)
      (fun s => ∀ k < count + 1, s.inner.hasExited (order.conn k) = true) := by
  apply (ThreadPool.measured_service endedForGood_startConns fun _ _ _ _ _ hnext =>
    undeliveredLen_step (Option.ite_none_right_eq_some.mp hnext).2).endsIn
  intro s hs hsettled
  obtain ⟨-, hjobs⟩ := ThreadPool.exhausted_of_settled endedForGood_startConns hs hsettled
  intro k hk
  rcases hjobs k hk with hended | ⟨hthis, worker, -, hrunning⟩ | ⟨-, hbusy⟩
  · exact hended
  · exact absurd hthis (not_stuck h hs hk hrunning)
  · obtain ⟨held, hrunning, hthis⟩ := hbusy 0 Nat.one_pos
    obtain ⟨hpushed, hall⟩ :=
      ThreadPool.Service.job_lt_of_running endedForGood_startConns hs hrunning
    have hlt := hpushed.trans_le hall
    exact absurd hthis (not_stuck h hs hlt hrunning)

end Start

end SliceTransfer.Server

namespace SliceTransfer

open Bytes Decimal FileSlice Server SendingFlow

/-! ## The result -/

/-- `SendFileSizeOnly` has returned zero, no `write` gave up, and the memory it wrote from
held the text; `text` is what the connection has taken. -/
def Announced (h : ℤ → UInt8) (fileSize slicesNum : ℕ) (text : List UInt8) : Prop :=
  load h 0 (headerText fileSize slicesNum).length = headerText fileSize slicesNum ∧
    ∃ results, ¬ GivesUp results ∧
      sendFileSizeOnly h true fileSize slicesNum results = some ⟨0, text⟩

theorem text_of_announced {h : ℤ → UInt8} {fileSize slicesNum : ℕ} {text : List UInt8}
    (hsize : fileSize < 2 ^ 64) (hnum : slicesNum < 2 ^ 16)
    (hannounced : Announced h fileSize slicesNum text) : text = headerText fileSize slicesNum := by
  obtain ⟨hmemory, results, hgives, hsend⟩ := hannounced
  obtain ⟨hpos, hlength⟩ := length_headerText_lt hsize hnum
  obtain ⟨e, hloop, hend⟩ := Option.map_eq_some_iff.mp hsend
  obtain ⟨-, count, hin, haccepted, hless⟩ := writeHeader_spec hlength hpos hloop
  obtain ⟨hreturned, rfl⟩ := SendOutcome.mk.inj hend
  have hok : ¬ e.failed = true := by
    intro hfailed
    rw [if_pos hfailed] at hreturned
    cases hreturned
  have hall : count = (headerText fileSize slicesNum).length := by
    have hnot := mt (hless hok).mp hgives
    omega
  rw [haccepted, hall, List.nil_append]
  exact hmemory

/-- The connections of the receiver: the file header, then the slices. -/
def textsOf (text : List UInt8) (streams : List (List UInt8)) (conn : ℕ) : List UInt8 :=
  (text :: streams).getD conn []

/-- An announced transfer by default is one in which all is sent. -/
theorem SentByDefault.allSent {C D : Type} {zc : ZstdCompress C} {zd : ZstdDecompress D}
    {R : D → List UInt8 → List UInt8 → Prop} {stray h : ℤ → UInt8} {content : List UInt8}
    {jobs : ℕ} {slices framed : List FileSlice} {text : List UInt8} {streams : List (List UInt8)}
    {order : AcceptOrder (slices.length + 1)} (hzstd : ZstdPair zc zd R)
    (hannounced : Announced h content.length slices.length text)
    (hsent : SentByDefault zc stray content jobs slices framed streams)
    (hdigits : (decimal content.length).length + (decimal slices.length).length ≤ 15)
    (hfirst : order.conn 0 = 0) :
    ∃ ships n, (∀ fuel ≥ n, AllSent zd R fuel content.length slices.length (textsOf text streams)
        order ships) ∧
      ∀ s, AllDelivered content.length slices.length ships s →
        Complete content slices.length s.slices := by
  have hnum := hsent.slices_le
  have htext := text_of_announced hsent.size_lt (by omega) hannounced
  obtain ⟨hsome, ships, hdelivery, hwhole, hcomplete⟩ := hsent.delivery hzstd
  obtain ⟨n, haccepts⟩ := hdelivery.exists_accepts hzstd.regenerates
  have hfits : text.length ≤ kFileSliceHeaderLen + 1 := by
    rw [htext, length_headerText, kFileSliceHeaderLen]
    omega
  refine ⟨ships, n, fun fuel hfuel => ?_, fun s hdelivered => ?_⟩
  · exact ⟨hzstd.bounded, hzstd.regenerates, hsent.size_lt, hsome, by omega, htext, hfits,
      hdelivery, hwhole, haccepts fuel hfuel, hfirst⟩
  · exact hcomplete s.slices hdelivered.2.1 hdelivered.2.2

/-- Two slices, accepted behind the header in the opposite order. -/
def pairBehind : AcceptOrder 3 where
  conn := Equiv.swap 1 2
  conn_lt_iff := by
    intro k
    by_cases hone : k = 1
    · rw [hone]
      decide
    by_cases htwo : k = 2
    · rw [htwo]
      decide
    · rw [Equiv.swap_apply_of_ne_of_ne hone htwo]

theorem pair_announced : Announced (placed (headerText 2 2) fun _ => 0) 2 2 (headerText 2 2) :=
  ⟨by decide, [.accepted 1, .eintr, .accepted 3], by unfold GivesUp; decide, by decide⟩

end SliceTransfer
