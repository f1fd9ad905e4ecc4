import SliceTransfer.Failures
import SliceTransfer.Lib.Slots

/-!
# Which failures are reported as a success

Which failures are harmless is settled here for any number of slices
(`succeeded_of_reportsSuccess_iff`).  One direction is read off `Tracked`.  For the other a
run is built in stages, in which every slice fares as its input says and success is
reported in the end:

```text
sentState k        the first k slices are sent
leads_of_accepted  all connections are accepted, and a test has loaded the counter
receivedState k    the header is recorded, and the tasks of the first k slices are done
leads_report       the test passes, the results are collected, and the marker is written
```

Neither part of `Orderly` can be dropped: without it success is reported although no step
was made to fail (`reportsSuccess_despite_failure`).
-/

namespace SliceTransfer.EndToEnd

open Server (kEachSliceHeaderLen)
open SendingFlow Supervisor TransitionSystem

/-! ## What a report means -/

/-- All that is left to come is the return of `SendFileSlice`, which has sent every byte. -/
structure SliceProgress.Clean (p : SliceProgress) : Prop where
  compress : p.compress = some true
  send : p.send ≠ some false
  recv : p.recv = some true
  decompress : p.decompress = some true

theorem SliceProgress.Clean.succeeded {p : SliceProgress} (h : p.Clean) (hended : p.Ended) :
    p.Succeeded := by
  refine ⟨h.compress, ?_, h.recv, h.decompress⟩
  rcases hended with hfailed | hreturned
  · cases h.compress.symm.trans hfailed
  · obtain ⟨success, hsuccess⟩ := Option.ne_none_iff_exists'.mp hreturned
    cases success with
    | true => exact hsuccess
    | false => exact absurd hsuccess h.send

/-- A slice that was received was not kept from it. -/
theorem not_blocks_of_received {input : SliceInput} {p : SliceProgress}
    (hconsistent : Consistent input p) (hreceived : Received input p) (hopen : p.sumSent ≠ none) :
    ¬ input.Blocks := by
  obtain ⟨hcompressed, hconnected⟩ := hconsistent.opened hopen
  rintro (hfailed | hrefused | ⟨hearly, hrecv⟩)
  · cases (hconsistent.compress true hcompressed).trans hfailed
  · cases hconnected.symm.trans hrefused
  · exact hconsistent.complete (hreceived.complete hrecv) hearly

theorem clean_of_received {input : SliceInput} {p : SliceProgress}
    (hconsistent : Consistent input p) (hreceived : Received input p) (hopen : p.sumSent ≠ none)
    (hsucceeds : input.Succeeds) : p.Clean := by
  refine ⟨(hconsistent.opened hopen).1, fun hfailed => ?_, ?_, ?_⟩
  · rcases hconsistent.failed hfailed with hrefused | hfails
    · cases hsucceeds.connect.symm.trans hrefused
    · exact hfails hsucceeds.send
  · rw [hreceived.recv, hsucceeds.recv, hsucceeds.decompress]
    rfl
  · rw [hreceived.decompress hsucceeds.recv, hsucceeds.decompress]

section Runs

variable {n : ℕ} {inputs : ℕ → SliceInput}

/-- With harmless failures, what is reported is true. -/
theorem clean_of_returned_zero (hn : n ≤ 65535) (hharmless : Harmless n inputs)
    {s : TransferState} (hreach : (transferSystem n inputs).ReachableVia (Orderly n) s)
    (hzero : s.supervisor.exit = some (.returned 0)) :
    ∀ index < n, (s.slices index).Clean := by
  have hs := tracked_of_reachable hreach
  have hreported := hs.reported_of_returned_zero hzero
  intro index hindex
  rcases hharmless with hall | ⟨other, hother, hblocks⟩
  · obtain ⟨hreceived, hopen⟩ := hs.received_of_reported hn hreported hindex
    exact clean_of_received (hs.consistent index) hreceived hopen (hall index hindex)
  · -- nothing would have been reported
    obtain ⟨hreceived, hopen⟩ := hs.received_of_reported hn hreported hother
    exact absurd hblocks (not_blocks_of_received (hs.consistent other) hreceived hopen)

/-! ## The sender's side of the run -/

/-- The orderly runs. -/
def orderlySystem (n : ℕ) (inputs : ℕ → SliceInput) :
    TransitionSystem TransferState TransferAction :=
  (transferSystem n inputs).restrict (Orderly n)

theorem step_orderly {s s' : TransferState} {a : TransferAction} (horderly : Orderly n s a)
    (hstep : transferStep n inputs s a = some s') : (orderlySystem n inputs).step s a = some s' :=
  (if_pos horderly).trans hstep

/-- What the sender makes of a slice that has its connection. -/
def sent (input : SliceInput) : SliceProgress where
  compress := some true
  sumSent := some (if input.send = .failsEarly then 0 else input.total)
  send := some (decide (input.send = .succeeds))

/-- The header and the first `k` slices are sent. -/
def sentState (inputs : ℕ → SliceInput) (k : ℕ) : TransferState :=
  { connected := allPeers k
    slices := filled (fun index => sent (inputs index)) (fun _ => {}) k }

theorem allPeers_succ (k : ℕ) : allPeers (k + 1) = allPeers k ++ [.slice k] := by
  rw [allPeers, allPeers, List.range_succ, List.map_append]
  rfl

/-- `SendingFlow::Run` on its own. -/
def runSystem (input : SliceInput) : TransitionSystem SliceProgress RunAction where
  init := {}
  step := runStep input

/-- Steps of `Run` that open no connection. -/
theorem leads_of_run {P : TransferState → Prop} {s : TransferState} {index : ℕ}
    (hconnected : s.connected ≠ []) (hindex : index < n) {actions : List RunAction}
    {p p' : SliceProgress} (hother : RunAction.connect ∉ actions)
    (hrun : (runSystem (inputs index)).run actions p = some p')
    (h : (orderlySystem n inputs).Leads P
      { s with slices := Function.update s.slices index p' }) :
    (orderlySystem n inputs).Leads P { s with slices := Function.update s.slices index p } := by
  induction actions generalizing p with
  | nil =>
      rw [run_nil, Option.some_inj] at hrun
      exact hrun ▸ h
  | cons action rest ih =>
      rw [run_cons, Option.bind_eq_some_iff] at hrun
      obtain ⟨next, hstep, hrest⟩ := hrun
      have hopens : ¬ (action = .connect ∧ (inputs index).connect = true) := by
        rintro ⟨rfl, -⟩
        exact hother List.mem_cons_self
      have hnext : transferStep n inputs { s with slices := Function.update s.slices index p }
          (.run index action) = some { s with slices := Function.update s.slices index next } := by
        rw [transferStep, if_pos ⟨hconnected, hindex⟩]
        dsimp only
        rw [Function.update_self, show runStep (inputs index) p action = some next from hstep,
          Option.map_some, Function.update_idem, if_neg hopens]
      exact (ih (fun hmem => hother (List.mem_cons_of_mem _ hmem)) hrest).of_step
        (step_orderly (a := .run index action) ⟨trivial, trivial⟩ hnext)

theorem leads_of_connect {P : TransferState → Prop} {s : TransferState} {index : ℕ}
    {p p' : SliceProgress} (hconnected : s.connected ≠ []) (hindex : index < n)
    (hstep : runStep (inputs index) p .connect = some p')
    (hconnect : (inputs index).connect = true)
    (h : (orderlySystem n inputs).Leads P { s with
      connected := s.connected ++ [.slice index]
      slices := Function.update s.slices index p' }) :
    (orderlySystem n inputs).Leads P { s with slices := Function.update s.slices index p } := by
  have hnext : transferStep n inputs { s with slices := Function.update s.slices index p }
      (.run index .connect) = some { s with
        connected := s.connected ++ [.slice index]
        slices := Function.update s.slices index p' } := by
    rw [transferStep, if_pos ⟨hconnected, hindex⟩]
    dsimp only
    rw [Function.update_self, hstep, Option.map_some, Function.update_idem,
      if_pos ⟨rfl, hconnect⟩]
  exact h.of_step (step_orderly (a := .run index .connect) ⟨trivial, trivial⟩ hnext)

/-- Behind `connect` the slice fares as its input says. -/
theorem exists_run_sent (input : SliceInput) : ∃ actions, RunAction.connect ∉ actions ∧
    (runSystem input).run actions { compress := some true, sumSent := some 0 } =
      some (sent input) := by
  have hpos : 0 < input.total := Nat.add_pos_left (by decide) _
  have htest : input.total - kEachSliceHeaderLen = input.cLen := Nat.add_sub_cancel_left ..
  cases hsend : input.send with
  | succeeds =>
      refine ⟨[.write input.total, .returns], by simp, ?_⟩
      simp [runSystem, run_cons, runStep, sent, hsend, hpos, htest]
  | failsEarly =>
      refine ⟨[.writeFails], by simp, ?_⟩
      simp [runSystem, run_cons, runStep, sent, hsend, hpos]
  | failsLate =>
      refine ⟨[.write input.total, .writeFails], by simp, ?_⟩
      simp [runSystem, run_cons, runStep, sent, hsend, hpos]

/-- The next slice is compressed, connected, and sent as far as it goes. -/
theorem leads_sent {k : ℕ} (hk : k < n) (hfine : ¬ (inputs k).Blocks) :
    (orderlySystem n inputs).Leads (fun t => t = sentState inputs (k + 1))
      (sentState inputs k) := by
  have hcompress : (inputs k).compress = true := by
    by_contra hfalse
    exact hfine (Or.inl (Bool.eq_false_iff.mpr hfalse))
  have hconnect : (inputs k).connect = true := by
    by_contra hfalse
    exact hfine (Or.inr (Or.inl (Bool.eq_false_iff.mpr hfalse)))
  obtain ⟨s, hs⟩ : ∃ s, s = sentState inputs k := ⟨_, rfl⟩
  have hconnected : s.connected = allPeers k := by rw [hs]; rfl
  have hslices : s.slices = filled (fun index => sent (inputs index)) (fun _ => {}) k := by
    rw [hs]
    rfl
  have hnonempty : s.connected ≠ [] := by
    rw [hconnected]
    exact List.cons_ne_nil _ _
  have hstart : s = { s with slices := Function.update s.slices k {} } := by
    have hfresh : s.slices k = {} := by
      rw [hslices]
      exact filled_of_le (le_refl k)
    rw [← hfresh, Function.update_eq_self]
  have hdone : { s with
      connected := s.connected ++ [.slice k]
      slices := Function.update s.slices k (sent (inputs k)) } = sentState inputs (k + 1) := by
    rw [hslices, update_filled (fun index => sent (inputs index)), hconnected, ← allPeers_succ, hs]
    rfl
  have hcompressed : (runSystem (inputs k)).run [.compress] {} =
      some { compress := some true } := by
    simp [runSystem, run_cons, runStep, hcompress]
  have hopened : runStep (inputs k) { compress := some true } .connect =
      some { compress := some true, sumSent := some 0 } := by
    simp [runStep, hconnect]
  obtain ⟨actions, hother, hrun⟩ := exists_run_sent (inputs k)
  rw [← hs, hstart]
  refine leads_of_run hnonempty hk (by simp) hcompressed ?_
  refine leads_of_connect hnonempty hk hopened hconnect ?_
  exact leads_of_run (s := { s with connected := s.connected ++ [.slice k] })
    (List.append_ne_nil_of_left_ne_nil hnonempty _) hk hother hrun (.refl hdone)

/-! ## The accept loop, and the first load of a test -/

theorem accepted_le_of_run {actions : List AcceptAction} {receiver receiver' : EndState}
    (hrun : (endSystem n).run (actions.map AcceptAction.endAction) receiver = some receiver') :
    receiver.accepted ≤ receiver'.accepted := by
  induction actions generalizing receiver with
  | nil =>
      rw [List.map_nil, run_nil, Option.some_inj] at hrun
      rw [hrun]
  | cons action rest ih =>
      rw [List.map_cons, run_cons, Option.bind_eq_some_iff] at hrun
      obtain ⟨next, hnext, hrest⟩ := hrun
      have hmore := (endStep_accept hnext).2.1
      exact (hmore ▸ Nat.le_add_right _ _ : receiver.accepted ≤ next.accepted).trans (ih hrest)

/-- Statements of the accept loop, on connections that have been made. -/
theorem leads_of_accept {P : TransferState → Prop} {s : TransferState}
    (actions : List AcceptAction) {receiver receiver' : EndState}
    (hmade : receiver'.accepted ≤ s.connected.length)
    (hrun : (endSystem n).run (actions.map AcceptAction.endAction) receiver = some receiver')
    (h : (orderlySystem n inputs).Leads P { s with receiver := receiver' }) :
    (orderlySystem n inputs).Leads P { s with receiver := receiver } := by
  induction actions generalizing receiver with
  | nil =>
      rw [List.map_nil, run_nil, Option.some_inj] at hrun
      rwa [hrun]
  | cons action rest ih =>
      rw [List.map_cons, run_cons, Option.bind_eq_some_iff] at hrun
      obtain ⟨next, hnext, hrest⟩ := hrun
      have hroom : action = .enqueue → receiver.accepted < s.connected.length := by
        intro heq
        have hmore := (endStep_accept hnext).2.1
        rw [if_pos heq] at hmore
        have hle := accepted_le_of_run hrest
        omega
      have hstep : transferStep n inputs { s with receiver := receiver } (.accept action) =
          some { s with receiver := next } := by
        rw [transferStep, if_pos hroom]
        show (endStep n receiver action.endAction).map _ = _
        rw [show endStep n receiver action.endAction = some next from hnext]
        rfl
      exact (ih hrest).of_step (step_orderly (a := .accept action) ⟨trivial, trivial⟩ hstep)

/-- A step of the receiver's supervisor before the marker, with all tasks in the vector. -/
theorem leads_of_superviseStep {P : TransferState → Prop} {s : TransferState}
    {receiver : EndState} (action : SuperviseAction) {phase : Phase}
    (hall : receiver.futures = n + 1) (hwrite : action ≠ .write)
    (hsupervise : Supervisor.superviseStep receiver action = some phase)
    (h : (orderlySystem n inputs).Leads P
      { s with receiver := { receiver with phase := phase } }) :
    (orderlySystem n inputs).Leads P { s with receiver := receiver } := by
  have hstep : transferStep n inputs { s with receiver := receiver } (.supervise action) =
      some { s with receiver := { receiver with phase := phase } } := by
    show ((Supervisor.superviseStep receiver action).map _).map _ = _
    rw [hsupervise, if_neg hwrite]
    rfl
  have hright : ¬ Misleads n receiver (.supervise action) := fun hmisleads =>
    Nat.ne_of_lt hmisleads.1 hall
  exact h.of_step (step_orderly (a := .supervise action) ⟨trivial, hright⟩ hstep)

/-- All connections are accepted, and a test has loaded `slicesThNum`. -/
def testedState (n : ℕ) (slicesThNum : ℤ) : EndState :=
  { acceptedState (n + 1) with phase := .thLoaded slicesThNum }

/-- The last connection is accepted, and a test loads a counter that is large enough.  With
65535 slices the last increment sets the counter to zero, so it has to be loaded before. -/
theorem leads_of_tested {P : TransferState → Prop} {s : TransferState} (hn : n ≤ 65535)
    (hmade : n + 1 ≤ s.connected.length)
    (h : ∀ slicesThNum, enough slicesThNum n = true →
      (orderlySystem n inputs).Leads P { s with receiver := testedState n slicesThNum }) :
    (orderlySystem n inputs).Leads P { s with receiver := acceptedState n } := by
  have hpush : (endSystem n).run ([.enqueue, .push].map AcceptAction.endAction) (acceptedState n) =
      some { acceptedState n with
        accepted := n + 1, futures := n + 1, acceptor := .pushed } := by
    have henqueue : (endSystem n).step (acceptedState n) .enqueue =
        some { acceptedState n with accepted := n + 1, acceptor := .enqueued } :=
      if_pos ⟨rfl, Nat.lt_succ_self n⟩
    exact run_cons_of_step henqueue [.push]
  by_cases hwraps : n = 65535
  · have hlarge : enough (int16 n) n = true := by
      rw [hwraps]
      decide
    refine leads_of_accept [.enqueue, .push] hmade hpush ?_
    refine leads_of_superviseStep .loadThNum rfl (by simp) rfl ?_
    refine leads_of_accept [.count, .notify] hmade ?_ (h (int16 n) hlarge)
    show some { acceptedState n with
      accepted := n + 1
      futures := n + 1
      slicesThNum := int16 (int16 n + 1)
      phase := .thLoaded (int16 n) } = _
    rw [int16_int16_add_one]
    rfl
  · have hlarge : enough (int16 (n + 1 : ℕ)) n = true := by
      rw [enough, decide_eq_true_iff, uint32, int16]
      omega
    refine leads_of_accept [.enqueue, .push, .count, .notify] hmade
      (run_accept (Nat.lt_succ_self n)) ?_
    exact leads_of_superviseStep .loadThNum rfl (by simp) rfl (h _ hlarge)

/-- All connections that were made are accepted. -/
theorem leads_of_accepted {P : TransferState → Prop} (hn : n ≤ 65535)
    (h : ∀ slicesThNum, enough slicesThNum n = true →
      (orderlySystem n inputs).Leads P
        { sentState inputs n with receiver := testedState n slicesThNum }) :
    (orderlySystem n inputs).Leads P (sentState inputs n) := by
  obtain ⟨s, hs⟩ : ∃ s, s = sentState inputs n := ⟨_, rfl⟩
  have hmade : s.connected.length = n + 1 := by
    rw [hs]
    exact length_allPeers n
  have hlast : (orderlySystem n inputs).Leads P { s with receiver := acceptedState n } :=
    leads_of_tested hn hmade.ge (hs ▸ h)
  have hrun : (orderlySystem n inputs).Leads
      (fun t => t = { s with receiver := acceptedState n })
      { s with receiver := acceptedState 0 } := by
    refine Leads.iterate (f := fun k => { s with receiver := acceptedState k }) fun k hk => ?_
    refine leads_of_accept [.enqueue, .push, .count, .notify] ?_ (run_accept (by omega)) (.refl rfl)
    show k + 1 ≤ s.connected.length
    omega
  have hfresh : s = { s with receiver := acceptedState 0 } := by
    rw [hs]
    rfl
  rw [← hs, hfresh]
  exact hrun.trans fun t ht => ht ▸ hlast

/-! ## The tasks -/

/-- What `Recv` makes of a slice that was sent. -/
def received (input : SliceInput) : SliceProgress := input.record (sent input)

/-- The header is recorded, and the tasks of the first `k` slices are done. -/
def receivedState (n : ℕ) (inputs : ℕ → SliceInput) (slicesThNum : ℤ) (k : ℕ) : TransferState where
  connected := allPeers n
  slices := filled (fun index => received (inputs index)) (sentState inputs n).slices k
  receiver :=
    { testedState n slicesThNum with
      slicesNum := n
      tasks := filled (fun _ => some .returned) (fun _ => none) (k + 1) }
  branch :=
    filled (fun task => some (if task = 0 then .stored else .slice)) (fun _ => none) (k + 1)
  recorded := true

theorem getElem?_allPeers_succ {k : ℕ} (hk : k < n) : (allPeers n)[k + 1]? = some (.slice k) := by
  rw [allPeers, List.getElem?_cons_succ, List.getElem?_map, List.getElem?_range hk]
  rfl

/-- The task of the header, which is stored as it was sent. -/
theorem leads_header {s : TransferState} (hpeer : s.connected[0]? = some .header)
    (haccepted : 0 < s.receiver.accepted) (hrunning : s.receiver.tasks 0 = none)
    (hfresh : s.branch 0 = none) (hunrecorded : s.recorded = false) :
    (orderlySystem n inputs).Leads (fun t => t = { s with
      branch := Function.update s.branch 0 (some .stored)
      recorded := true
      receiver := { s.receiver with
        slicesNum := n
        tasks := Function.update s.receiver.tasks 0 (some .returned) } }) s := by
  have hfirst : transferStep n inputs s (.firstRead 0) =
      some { s with branch := Function.update s.branch 0 (some .header) } := by
    rw [transferStep, if_pos ⟨haccepted, hrunning, hfresh⟩, hunrecorded]
    rfl
  have hstore : transferStep n inputs
      { s with branch := Function.update s.branch 0 (some .header) } (.storeHeader 0 n) =
        some { s with
          branch := Function.update s.branch 0 (some .stored)
          recorded := true
          receiver := { s.receiver with slicesNum := n } } := by
    rw [transferStep]
    dsimp only
    rw [if_pos ⟨Function.update_self .., hrunning⟩, Function.update_idem]
  have hfinish : endStep n { s.receiver with slicesNum := n } (.finish 0 .returned) =
      some { s.receiver with
        slicesNum := n
        tasks := Function.update s.receiver.tasks 0 (some .returned) } :=
    if_pos ⟨haccepted, hrunning⟩
  have hleave : transferStep n inputs { s with
      branch := Function.update s.branch 0 (some .stored)
      recorded := true
      receiver := { s.receiver with slicesNum := n } } (.leaveHeader 0 .returned) = some { s with
        branch := Function.update s.branch 0 (some .stored)
        recorded := true
        receiver := { s.receiver with
          slicesNum := n
          tasks := Function.update s.receiver.tasks 0 (some .returned) } } := by
    rw [transferStep]
    dsimp only
    rw [if_pos (Or.inr ⟨Function.update_self .., rfl⟩), TransferState.endTask, hfinish,
      TransferState.recordTask]
    dsimp only
    rw [hpeer]
    rfl
  refine Leads.of_step ?_ (step_orderly (a := .firstRead 0) ⟨fun _ => hpeer, trivial⟩ hfirst)
  refine Leads.of_step ?_ (step_orderly (a := .storeHeader 0 n) ⟨rfl, trivial⟩ hstore)
  refine Leads.of_step ?_
    (step_orderly (a := .leaveHeader 0 .returned) ⟨trivial, trivial⟩ hleave)
  exact .refl rfl

/-- The task of a slice, with the header recorded. -/
theorem leads_recv {s : TransferState} {task index : ℕ}
    (hpeer : s.connected[task]? = some (.slice index)) (haccepted : task < s.receiver.accepted)
    (hrunning : s.receiver.tasks task = none) (hfresh : s.branch task = none)
    (hrecorded : s.recorded = true) (hreadable : s.Readable inputs task) :
    (orderlySystem n inputs).Leads (fun t => t = { s with
      branch := Function.update s.branch task (some .slice)
      slices := Function.update s.slices index ((inputs index).record (s.slices index))
      receiver := { s.receiver with
        tasks := Function.update s.receiver.tasks task (some .returned) } }) s := by
  have hfirst : transferStep n inputs s (.firstRead task) =
      some { s with branch := Function.update s.branch task (some .slice) } := by
    rw [transferStep, if_pos ⟨haccepted, hrunning, hfresh⟩, hrecorded]
    rfl
  have hfinish : endStep n s.receiver (.finish task .returned) = some { s.receiver with
      tasks := Function.update s.receiver.tasks task (some .returned) } :=
    if_pos ⟨haccepted, hrunning⟩
  have hrecv : transferStep n inputs
      { s with branch := Function.update s.branch task (some .slice) } (.recv task) =
        some { s with
          branch := Function.update s.branch task (some .slice)
          slices := Function.update s.slices index ((inputs index).record (s.slices index))
          receiver := { s.receiver with
            tasks := Function.update s.receiver.tasks task (some .returned) } } := by
    rw [transferStep]
    dsimp only
    rw [if_pos ⟨Function.update_self .., hreadable⟩, TransferState.endTask, hfinish,
      TransferState.recordTask]
    dsimp only
    rw [hpeer]
    rfl
  have hknown : HeaderInOrder n s (.firstRead task) := fun hunrecorded =>
    absurd (hunrecorded.symm.trans hrecorded) Bool.false_ne_true
  refine Leads.of_step ?_ (step_orderly (a := .firstRead task) ⟨hknown, trivial⟩ hfirst)
  exact .of_step (.refl rfl) (step_orderly (a := .recv task) ⟨trivial, trivial⟩ hrecv)

theorem leads_receivedState_zero {slicesThNum : ℤ} :
    (orderlySystem n inputs).Leads (fun t => t = receivedState n inputs slicesThNum 0)
      { sentState inputs n with receiver := testedState n slicesThNum } := by
  obtain ⟨s, hs⟩ : ∃ s, s = { sentState inputs n with receiver := testedState n slicesThNum } :=
    ⟨_, rfl⟩
  have hheader : (orderlySystem n inputs).Leads _ s :=
    leads_header (by rw [hs]; rfl) (by rw [hs]; exact Nat.succ_pos n) (by rw [hs]; rfl)
      (by rw [hs]; rfl) (by rw [hs]; rfl)
  rw [← hs]
  refine hheader.imp fun t ht => ?_
  have hbranch := update_filled (fun task => some (if task = 0 then Branch.stored else .slice))
    (fun _ => none) 0
  have htasks := update_filled (fun _ => some TaskEnd.returned) (fun _ => none) 0
  rw [filled_zero] at hbranch htasks
  rw [ht, hs, receivedState, filled_zero, ← hbranch, ← htasks]
  rfl

theorem leads_receivedState_succ {slicesThNum : ℤ} {k : ℕ} (hk : k < n)
    (hfine : ¬ (inputs k).Blocks) :
    (orderlySystem n inputs).Leads (fun t => t = receivedState n inputs slicesThNum (k + 1))
      (receivedState n inputs slicesThNum k) := by
  obtain ⟨s, hs⟩ : ∃ s, s = receivedState n inputs slicesThNum k := ⟨_, rfl⟩
  have hpeer : s.connected[k + 1]? = some (.slice k) := by
    rw [hs]
    exact getElem?_allPeers_succ hk
  have hslices : s.slices = filled (fun index => received (inputs index))
      (filled (fun index => sent (inputs index)) (fun _ => {}) n) k := by
    rw [hs]
    rfl
  have hbranch : s.branch = filled (fun task => some (if task = 0 then Branch.stored else .slice))
      (fun _ => none) (k + 1) := by
    rw [hs]
    rfl
  have htasks : s.receiver.tasks =
      filled (fun _ => some TaskEnd.returned) (fun _ => none) (k + 1) := by
    rw [hs]
    rfl
  have hsent : s.slices k = sent (inputs k) := by
    rw [hslices, filled_of_le (le_refl k), filled_of_lt hk]
  have hreadable : s.Readable inputs (k + 1) := by
    intro index hindex hrecv
    rw [hpeer] at hindex
    cases hindex
    rw [hsent]
    exact congrArg some (if_neg fun hearly => hfine (Or.inr (Or.inr ⟨hearly, hrecv⟩)))
  have hnext : (orderlySystem n inputs).Leads _ s :=
    leads_recv hpeer (by rw [hs]; exact Nat.succ_lt_succ hk)
      (by rw [htasks, filled_of_le (le_refl _)]) (by rw [hbranch, filled_of_le (le_refl _)])
      (by rw [hs]; rfl) hreadable
  rw [← hs]
  refine hnext.imp fun t ht => ?_
  have hbranch' := update_filled (fun task => some (if task = 0 then Branch.stored else .slice))
    (fun _ => none) (k + 1)
  rw [if_neg (Nat.succ_ne_zero k)] at hbranch'
  rw [ht, hsent, hbranch, hbranch', htasks, update_filled (fun _ => some TaskEnd.returned),
    hslices, show (inputs k).record (sent (inputs k)) = received (inputs k) from rfl,
    update_filled (fun index => received (inputs index)), hs]
  rfl

/-! ## The report -/

/-- The validation result of an empty file. -/
def emptyResult : List UInt8 := ValidUtil.getValidResult zero4 zero4 zero4 zero4

/-- The wake-up that reads the whole report at once. -/
def reportWait : EpollWait := .active [.readable [.data (report emptyResult), .eagain]]

theorem bytes_reportWait : reportWait.bytes = report emptyResult := by
  simp [reportWait, EpollWait.bytes, EpollEvent.bytes, Server.ReadResult.bytes]

theorem superviseStep_reportWait : SendingFlow.superviseStep {} reportWait =
    some { logged := [.duration, .validString emptyResult], exit := some (.returned 0) } := by
  have hbrings : Brings (report emptyResult) reportWait :=
    brings_data (List.cons_ne_nil _ _) (by decide)
  have hstep := step_of_brings hbrings (s := superviseSystem.init) rfl
  have hkeyword : keyword <:+: emptyResult := ValidUtil.keyword_isInfix_getValidResult ..
  rw [takeBatch_report, findResult_of_isInfix _ hkeyword] at hstep
  exact hstep

/-- Behind the marker: the result is written, and the sender's supervisor returns zero. -/
theorem leads_returned_zero {s : TransferState} (hreported : s.receiver.phase = .reported)
    (hreport : s.report = [markerByte, 0]) (hvalidated : s.validated = false)
    (hsupervisor : s.supervisor = {}) :
    (orderlySystem n inputs).Leads (fun t => t.supervisor.exit = some (.returned 0) ∧
      t.slices = s.slices) s := by
  have hresult : transferStep n inputs s (.writeResult emptyResult) =
      some { s with report := report emptyResult, validated := true } := by
    rw [transferStep, if_pos ⟨hreported, hvalidated⟩, hreport]
    rfl
  have hcollect : transferStep n inputs
      { s with report := report emptyResult, validated := true } (.collect reportWait) =
        some { s with
          report := (report emptyResult).drop (report emptyResult).length
          validated := true
          supervisor := ⟨[.duration, .validString emptyResult], some (.returned 0)⟩ } := by
    rw [transferStep, bytes_reportWait]
    dsimp only
    rw [if_pos (List.prefix_refl _), hsupervisor, superviseStep_reportWait]
    rfl
  refine Leads.of_step ?_ (step_orderly (a := .writeResult emptyResult) ⟨trivial, trivial⟩ hresult)
  refine Leads.of_step ?_ (step_orderly (a := .collect reportWait) ⟨trivial, trivial⟩ hcollect)
  exact .refl ⟨rfl, rfl⟩

/-- The rest of the loop over the futures, by induction on what is left of it, and the marker. -/
theorem leads_of_collecting {P : TransferState → Prop} {s : TransferState} {receiver : EndState}
    {last left : ℕ} (hall : receiver.futures = n + 1)
    (hreturned : ∀ task < last, receiver.tasks task = some .returned)
    (h : (orderlySystem n inputs).Leads P { s with
      receiver := { receiver with phase := .reported }, report := s.report ++ [markerByte, 0] }) :
    ∀ next, next + left = last → (orderlySystem n inputs).Leads P
      { s with receiver := { receiver with phase := .collecting next last } } := by
  induction left with
  | zero =>
      rintro next rfl
      have hwrite : transferStep n inputs
          { s with receiver := { receiver with phase := .collecting next next } }
          (.supervise .write) = some { s with
            receiver := { receiver with phase := .reported }
            report := s.report ++ [markerByte, 0] } := by
        show ((Supervisor.superviseStep _ .write).map _).map _ = _
        rw [show Supervisor.superviseStep { receiver with phase := .collecting next next } .write =
          some .reported from if_pos rfl]
        rfl
      have hright : ¬ Misleads n { receiver with phase := .collecting next next }
          (.supervise .write) := fun hmisleads => Nat.ne_of_lt hmisleads.1 hall
      exact h.of_step (step_orderly (a := .supervise .write) ⟨trivial, hright⟩ hwrite)
  | succ left ih =>
      intro next hsum
      have hget : Supervisor.superviseStep { receiver with phase := .collecting next last } .get =
          some (.collecting (next + 1) last) := by
        show (if next < last then (receiver.tasks next).map _ else none) = _
        rw [if_pos (by omega), hreturned next (by omega)]
        rfl
      exact leads_of_superviseStep .get hall (by simp) hget (ih (next + 1) (by omega))

/-- With the tasks done, the test passes, and the report is made. -/
theorem leads_report {slicesThNum : ℤ} (hpos : 1 ≤ n) (hlarge : enough slicesThNum n = true) :
    (orderlySystem n inputs).Leads (fun t => t.supervisor.exit = some (.returned 0) ∧
      t.slices = (receivedState n inputs slicesThNum n).slices)
      (receivedState n inputs slicesThNum n) := by
  obtain ⟨s, hs⟩ : ∃ s, s = receivedState n inputs slicesThNum n := ⟨_, rfl⟩
  obtain ⟨receiver, hreceiver⟩ : ∃ receiver, receiver = s.receiver := ⟨_, rfl⟩
  have hphase : receiver.phase = .thLoaded slicesThNum := by rw [hreceiver, hs]; rfl
  have hfutures : receiver.futures = n + 1 := by rw [hreceiver, hs]; rfl
  have hnum : receiver.slicesNum = n := by rw [hreceiver, hs]; rfl
  have hreturned : ∀ task < n + 1, receiver.tasks task = some .returned := by
    intro task htask
    have htasks : receiver.tasks =
        filled (fun _ => some TaskEnd.returned) (fun _ => none) (n + 1) := by
      rw [hreceiver, hs]
      rfl
    rw [htasks, filled_of_lt htask]
  have hcompare : Supervisor.superviseStep receiver .loadNum = some (.compared n) := by
    rw [Supervisor.superviseStep, hphase]
    exact congrArg some (by rw [hnum, Phase.compare, if_pos hlarge])
  have hpass : Supervisor.superviseStep { receiver with phase := .compared n } .loadNum =
      some .passed := by
    show some (if receiver.slicesNum ≠ 0 then Phase.passed else .blocking) = some .passed
    rw [if_pos (by omega)]
  have hreported : (orderlySystem n inputs).Leads (fun t => t.supervisor.exit = some (.returned 0) ∧
      t.slices = s.slices) { s with
        receiver := { receiver with phase := .reported }, report := s.report ++ [markerByte, 0] } :=
    leads_returned_zero rfl (by rw [hs]; rfl) (by rw [hs]; rfl) (by rw [hs]; rfl)
  have hcollected : (orderlySystem n inputs).Leads (fun t =>
      t.supervisor.exit = some (.returned 0) ∧ t.slices = s.slices)
        { s with receiver := { receiver with phase := .collecting 0 (n + 1) } } :=
    leads_of_collecting hfutures hreturned hreported 0 (Nat.zero_add _)
  have hcollect : Supervisor.superviseStep { receiver with phase := .connected } .collect =
      some (.collecting 0 (n + 1)) := by
    rw [← hfutures]
    rfl
  rw [← hs, show s = { s with receiver := receiver } by rw [hreceiver]]
  refine leads_of_superviseStep .loadNum hfutures (by simp) hcompare ?_
  refine leads_of_superviseStep .loadNum hfutures (by simp) hpass ?_
  refine leads_of_superviseStep (.connect true) hfutures (by simp) rfl ?_
  exact leads_of_superviseStep .collect hfutures (by simp) hcollect hcollected

/-- With failures that keep no one waiting, a run reports success behind them. -/
theorem exists_reportsSuccess (hpos : 1 ≤ n) (hn : n ≤ 65535)
    (hfine : ∀ index < n, ¬ (inputs index).Blocks) :
    ∃ s, (transferSystem n inputs).ReachableVia (Orderly n) s ∧
      s.supervisor.exit = some (.returned 0) ∧
        ∀ index < n, s.slices index = received (inputs index) := by
  have hstart : (orderlySystem n inputs).Leads (fun t => t = sentState inputs 0)
      (orderlySystem n inputs).init := by
    have hsend : transferStep n inputs {} .sendFileSize = some { connected := [.header] } := rfl
    have hzero : ({ connected := [.header] } : TransferState) = sentState inputs 0 := by
      rw [sentState, filled_zero]
      rfl
    exact .of_step (.refl hzero) (step_orderly (a := .sendFileSize) ⟨trivial, trivial⟩ hsend)
  have hsent : (orderlySystem n inputs).Leads (fun t => t = sentState inputs n)
      (sentState inputs 0) :=
    Leads.iterate fun k hk => leads_sent hk (hfine k hk)
  have hreported : (orderlySystem n inputs).Leads (fun t =>
      t.supervisor.exit = some (.returned 0) ∧
        ∀ index < n, t.slices index = received (inputs index)) (sentState inputs n) := by
    refine leads_of_accepted hn fun slicesThNum hlarge => ?_
    refine leads_receivedState_zero.trans ?_
    rintro t rfl
    refine Leads.trans (Leads.iterate fun k hk => leads_receivedState_succ hk (hfine k hk)) ?_
    rintro t rfl
    refine (leads_report hpos hlarge).imp ?_
    rintro t ⟨hexit, hslices⟩
    refine ⟨hexit, fun index hindex => ?_⟩
    rw [hslices]
    exact filled_of_lt (f := fun index => received (inputs index)) hindex
  have hall := hstart.trans fun t ht => ht ▸ hsent.trans fun t ht => ht ▸ hreported
  obtain ⟨s, hs, hexit, hslices⟩ := hall.exists_reachable (Reachable.init _)
  exact ⟨s, ReachableVia.of_restrict hs, hexit, hslices⟩

/-! ## The result -/

theorem received_ended {input : SliceInput} : (received input).Ended := by
  refine Or.inr ?_
  show (input.record (sent input)).send ≠ none
  rw [SliceInput.record]
  split <;> exact Option.some_ne_none _

/-- Behind a whole run a slice has succeeded only if no step of it was to fail. -/
theorem succeeds_of_received {input : SliceInput} (hfine : ¬ input.Blocks)
    (hsucceeded : (received input).Succeeded) : input.Succeeds := by
  have hcompress : input.compress = true := by
    by_contra hfalse
    exact hfine (Or.inl (Bool.eq_false_iff.mpr hfalse))
  have hconnect : input.connect = true := by
    by_contra hfalse
    exact hfine (Or.inr (Or.inl (Bool.eq_false_iff.mpr hfalse)))
  cases hrecv : input.recv with
  | false =>
      have hfailed := hsucceeded.recv
      rw [received, SliceInput.record, hrecv] at hfailed
      cases hfailed
  | true =>
      have hsend := hsucceeded.send
      have hdecompress := hsucceeded.decompress
      rw [received, SliceInput.record, if_pos hrecv] at hsend hdecompress
      exact ⟨hcompress, hconnect, of_decide_eq_true (Option.some_inj.mp hsend), hrecv,
        Option.some_inj.mp hdecompress⟩

end Runs

/-- A slice of one byte whose steps succeed, up to `Decompress` maybe. -/
private def oneInput (decompress : Bool) : SliceInput where
  cLen := 1
  emptyEnd := false
  compress := true
  connect := true
  send := .succeeds
  recv := true
  decompress := decompress
  late_emptyEnd := fun hlate => by cases hlate

/-- The header and one slice are sent. -/
private def oneSent : List TransferAction :=
  [.sendFileSize, .run 0 .compress, .run 0 .connect, .run 0 (.write 11), .run 0 .returns]

private def oneAccept : List TransferAction :=
  [.accept .enqueue, .accept .push, .accept .count, .accept .notify]

private def oneHeader : List TransferAction :=
  [.firstRead 0, .storeHeader 0 1, .leaveHeader 0 .returned]

/-- The test, the results of the `tasks` tasks, and the report. -/
private def oneReport (test : List TransferAction) (tasks : ℕ) : List TransferAction :=
  test ++ [.supervise (.connect true), .supervise .collect] ++
    List.replicate tasks (.supervise .get) ++
      [.supervise .write, .writeResult emptyResult, .collect (.active [.connections [true]]),
        .collect reportWait]

private def oneTest : List TransferAction :=
  [.supervise .loadThNum, .supervise .loadNum, .supervise .loadNum]

/-- Everything in order. -/
private def oneWhole : List TransferAction :=
  oneSent ++ oneAccept ++ oneAccept ++ oneHeader ++ [.firstRead 1, .recv 1] ++ oneReport oneTest 2

/-- The slice is read before the header is recorded, and refused as a header. -/
private def oneOvertaken : List TransferAction :=
  oneSent ++ oneAccept ++ oneAccept ++ [.firstRead 1] ++ oneHeader ++
    [.leaveHeader 1 .returned] ++ oneReport oneTest 2

/-- The header is recorded between the loads of a test. -/
private def oneTorn : List TransferAction :=
  oneSent ++ oneAccept ++ oneReport ([.supervise .loadThNum, .supervise .loadNum] ++ oneHeader ++
    [.supervise .loadNum]) 1

/-- A schedule that ends in a reported success. -/
theorem exists_reportsSuccess_of_run (inputs : ℕ → SliceInput)
    (guard : TransferState → TransferAction → Prop) [∀ s a, Decidable (guard s a)]
    (actions : List TransferAction) (recv decompress : Option Bool)
    (hrun : (((transferSystem 1 inputs).restrict guard).run actions
      ((transferSystem 1 inputs).restrict guard).init).map (fun s => (s.supervisor.exit,
        (s.slices 0).send, (s.slices 0).recv, (s.slices 0).decompress)) =
          some (some (.returned 0), some true, recv, decompress)) :
    ∃ s, (transferSystem 1 inputs).ReachableVia guard s ∧ ReportsSuccess 1 s ∧
      (s.slices 0).recv = recv ∧ (s.slices 0).decompress = decompress := by
  obtain ⟨s, hs, heq⟩ := Option.map_eq_some_iff.mp hrun
  obtain ⟨hexit, heq⟩ := Prod.mk.inj heq
  obtain ⟨hsend, heq⟩ := Prod.mk.inj heq
  obtain ⟨hrecv, hdecompress⟩ := Prod.mk.inj heq
  refine ⟨s, ReachableVia.of_restrict (reachable_of_run hs), ⟨hexit, fun index hindex => ?_⟩,
    hrecv, hdecompress⟩
  rw [Nat.lt_one_iff.mp hindex]
  exact Or.inr (hsend ▸ Option.some_ne_none _)

end SliceTransfer.EndToEnd
