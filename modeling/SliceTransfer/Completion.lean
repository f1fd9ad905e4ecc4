import SliceTransfer.EdgeTriggered
import SliceTransfer.Lib.Progress

/-!
# A slice comes to its end

`EdgeTriggered.lean` shows that a budget that covers the whole stream never leaves a task
behind with bytes it was not woken up for.  Here is the other half: on every schedule of
deliveries and calls the task of a slice comes to its end, with the whole slice in
`c_buf_`, or with the copy of negative length when its first read was too short.

* `linkMeasure` is paid for by the bytes still to be delivered; a `read` that `EINTR`
  interrupts pays nothing, and may be repeated for ever;
* `Progressing` is what a step keeps: a task that waits is still missing something, and a
  task that has left has the whole slice.

Both conditions are needed (`link_endsIn_iff`): a stream beyond the budget is left in the
socket, and after a header that announces no payload the completion test is never made.
-/

namespace SliceTransfer

open Server

/-! ## The measure -/

/-- Everything but a `read` that is interrupted. -/
def linkProductive (_ : LinkState) : LinkAction → Bool
  | .interrupt _ => false
  | _ => true

/-- What the phases are worth: a wake-up leads through `reading` back to `waiting`. -/
def LinkPhase.weight : LinkPhase → ℕ
  | .adding => 4
  | .waiting _ => 1
  | .reading _ _ _ => 2
  | .left _ => 0

/-- Each byte that arrives may set the edge again, and so may the FIN. -/
def linkMeasure (s : LinkState) : ℕ :=
  4 * s.undelivered.length + 3 * (!s.fin).toNat + s.socket.length + 2 * s.edge.toNat +
    s.phase.weight

theorem weight_leaveLoop_le (s : LinkState) (task : RecvTask) (stale : List UInt8)
    (outcome : ReadEnd) : (s.leaveLoop task stale outcome).phase.weight ≤ 1 := by
  cases hstatus : (afterRead s.globals task stale outcome).status with
  | waiting task => simp [LinkState.leaveLoop, hstatus, LinkPhase.weight]
  | complete index => simp [LinkState.leaveLoop, hstatus, LinkPhase.weight]
  | exited exit => simp [LinkState.leaveLoop, hstatus, LinkPhase.weight]

theorem linkMeasure_leaveLoop_le (s : LinkState) (task : RecvTask) (stale : List UInt8)
    (outcome : ReadEnd) : linkMeasure (s.leaveLoop task stale outcome) ≤
      4 * s.undelivered.length + 3 * (!s.fin).toNat + s.socket.length + 2 * s.edge.toNat + 1 :=
  Nat.add_le_add_left (weight_leaveLoop_le s task stale outcome) _

/-- An iteration that goes on has taken something from the socket, unless it was
interrupted. -/
theorem linkMeasure_iterate {s s' : LinkState} {stale : List UInt8} {result : ReadResult}
    (h : s.iterate stale result = some s') :
    linkMeasure s' ≤ linkMeasure s ∧ (result ≠ .eintr → result.bytes.length ≤ s.socket.length →
      linkMeasure s' + 1 ≤ linkMeasure s) := by
  cases hphase : s.phase with
  | reading task nLeft bytes =>
      simp only [LinkState.iterate, hphase] at h
      obtain ⟨progress, honce, rfl⟩ := Option.map_eq_some_iff.mp h
      have hsocket : (s.socket.drop result.bytes.length).length =
          s.socket.length - result.bytes.length := List.length_drop
      cases progress with
      | again more =>
          simp only [linkMeasure, hphase, hsocket, LinkPhase.weight]
          refine ⟨by omega, fun hread hle => ?_⟩
          have hsome : 0 < result.bytes.length := by
            cases result with
            | data more =>
                rw [readOnce] at honce
                split at honce
                · cases honce
                · split at honce
                  · cases honce
                  · rename_i hgoes
                    exact List.length_pos_of_ne_nil fun hnil => hgoes (Or.inr hnil)
            | eagain => cases honce
            | eintr => exact absurd rfl hread
            | error => cases honce
          omega
      | stop outcome =>
          have hleft := linkMeasure_leaveLoop_le
            { s with socket := s.socket.drop result.bytes.length } task stale outcome
          dsimp only at hleft
          rw [hsocket] at hleft
          have hbefore : linkMeasure s = 4 * s.undelivered.length + 3 * (!s.fin).toNat +
              s.socket.length + 2 * s.edge.toNat + 2 := by
            rw [linkMeasure, hphase, LinkPhase.weight]
          refine ⟨hleft.trans ?_, fun _ _ => (Nat.succ_le_succ hleft).trans ?_⟩
          · omega
          · omega
  | _ => simp [LinkState.iterate, hphase] at h

theorem length_readResult_le (s : LinkState) (asked : ℕ) :
    (s.readResult asked).bytes.length ≤ s.socket.length := by
  rcases readResult_cases s asked with ⟨-, -, heq⟩ | ⟨-, -, heq⟩ | ⟨-, heq⟩
  · rw [heq]
    exact Nat.zero_le _
  · rw [heq]
    exact Nat.zero_le _
  · rw [heq]
    exact List.length_take_le' _ _

theorem readResult_ne_eintr (s : LinkState) (asked : ℕ) : s.readResult asked ≠ .eintr := by
  rcases readResult_cases s asked with ⟨-, -, heq⟩ | ⟨-, -, heq⟩ | ⟨-, heq⟩
  · rw [heq]
    exact ReadResult.noConfusion
  · rw [heq]
    exact ReadResult.noConfusion
  · rw [heq]
    exact ReadResult.noConfusion

/-- **Every productive step lowers the measure, whatever the stream.** -/
theorem linkMeasure_step {s s' : LinkState} {a : LinkAction} (h : linkStep s a = some s') :
    linkMeasure s' + (linkProductive s a).toNat ≤ linkMeasure s := by
  cases a with
  | arrive count =>
      obtain ⟨⟨hpos, hle⟩, heq⟩ := Option.ite_none_right_eq_some.mp h
      cases heq
      have hflag := s.edge.toNat_le
      simp only [linkMeasure, linkProductive, List.length_drop, List.length_append,
        List.length_take_of_le hle, Bool.toNat_true]
      omega
  | arriveFin =>
      obtain ⟨⟨-, hopen⟩, heq⟩ := Option.ite_none_right_eq_some.mp h
      cases heq
      simp only [linkMeasure, linkProductive, hopen, Bool.not_true, Bool.not_false,
        Bool.toNat_true, Bool.toNat_false]
      omega
  | add =>
      obtain ⟨hadding, heq⟩ := Option.ite_none_right_eq_some.mp h
      cases heq
      have hflag := (decide (s.socket ≠ []) || s.fin).toNat_le
      simp only [linkMeasure, linkProductive, hadding, LinkPhase.weight, Bool.toNat_true]
      omega
  | wait =>
      rw [linkStep] at h
      cases hphase : s.phase with
      | waiting task =>
          simp only [hphase] at h
          obtain ⟨hedge, heq⟩ := Option.ite_none_right_eq_some.mp h
          cases hbegin : beginRead s.globals task with
          | error fault =>
              rw [hbegin] at heq
              cases heq
              simp only [linkMeasure, linkProductive, hphase, hedge, LinkPhase.weight,
                Bool.toNat_true, Bool.toNat_false]
              omega
          | ok entered =>
              rw [hbegin] at heq
              cases heq
              simp only [linkMeasure, linkProductive, hphase, hedge, LinkPhase.weight,
                Bool.toNat_true, Bool.toNat_false]
              omega
      | _ => simp [hphase] at h
  | interrupt stale => exact (linkMeasure_iterate h).1
  | read stale =>
      rw [linkStep] at h
      cases hphase : s.phase with
      | reading task nLeft bytes =>
          simp only [hphase] at h
          exact (linkMeasure_iterate h).2 (readResult_ne_eintr _ _) (length_readResult_le _ _)
      | _ => simp [hphase] at h

/-! ## What a step keeps -/

/-- The whole slice is in `c_buf_`, and `Decompress` comes next. -/
def Arrived (g : Globals) (header : SliceHeader) (payload : List UInt8) (s : LinkState) : Prop :=
  s.phase = .left (.complete header.index) ∧
    s.globals = globalsAfter g (sliceStream header payload)

/-- The first read got less than a header. -/
def ShortRead (s : LinkState) : Prop :=
  s.phase = .left (.exited (.faulted .negativeCopy))

def Progressing (g : Globals) (header : SliceHeader) (payload : List UInt8) (s : LinkState) :
    Prop :=
  match s.phase with
  | .adding => True
  | .waiting _ => s.socket ++ s.undelivered ≠ []
  | .reading _ nLeft bytes => bytes.length ≤ nLeft
  | .left _ => Arrived g header payload s ∨ ShortRead s

section Invariant

variable {g : Globals} {header : SliceHeader} {payload : List UInt8}

/-- When everything that was announced has been read, the completion test succeeds. -/
theorem leaveLoop_whole {before bytes : List UInt8} {task : RecvTask} {s : LinkState}
    (stale : List UInt8) (hslice : g.expectsHeader = false) (h : Announces header payload)
    (hpayload : 1 ≤ header.cLen) (hposition : Position g before task s.globals)
    (hall : before ++ bytes = sliceStream header payload) :
    Arrived g header payload (s.leaveLoop task stale ⟨bytes, false⟩) := by
  have hlength := length_sliceStream h
  have hheader : kEachSliceHeaderLen ≤ (before ++ bytes).length := by
    rw [hall, hlength]
    exact Nat.le_add_right _ _
  have hread : unmarshal (before ++ bytes) = header :=
    unmarshal_of_append_eq h ((List.append_nil _).trans hall) hheader
  have hpart : payloadLen (before ++ bytes) = header.cLen := by
    rw [payloadLen, hall, hlength, Nat.add_sub_cancel_left]
  have hcLen := h.cLen_lt
  have hdone : statusAfter (before ++ bytes) = .complete header.index := by
    rw [statusAfter, hread, if_pos hpart.symm]
  rcases hposition with ⟨rfl, rfl, hglobals⟩ | ⟨rfl, hsome, hglobals⟩
  · rw [List.nil_append] at hall hheader hpart hdone
    have hlong : bytes.length < 2 ^ 64 := by
      rw [hall, hlength, kEachSliceHeaderLen]
      omega
    have hfirst : firstStatus bytes = .complete header.index := by
      rw [firstStatus, if_neg (by omega), hdone]
    have hafter := afterRead_first stale hslice hlong hheader
    constructor
    · simp only [LinkState.leaveLoop, hglobals, hafter, hfirst]
    · simp only [LinkState.leaveLoop, hglobals, hafter, ← hall]
  · have hafter := afterRead_later (g := g) stale hsome
      (show payloadLen (before ++ bytes) < 2 ^ 64 by omega)
    constructor
    · simp only [LinkState.leaveLoop, hglobals, hafter, hdone]
    · simp only [LinkState.leaveLoop, hglobals, hafter, hall]

/-- What is behind the read loop: the slice, a first read that was too short, or a wait for
what is still missing. -/
theorem progressing_leaveLoop {before bytes : List UInt8} {task : RecvTask} {s : LinkState}
    (stale : List UInt8) (hslice : g.expectsHeader = false) (h : Announces header payload)
    (hpayload : 1 ≤ header.cLen) (hposition : Position g before task s.globals)
    (hstream : before ++ bytes ++ s.socket ++ s.undelivered = sliceStream header payload) :
    Progressing g header payload (s.leaveLoop task stale ⟨bytes, false⟩) := by
  have hlength := congrArg List.length hstream
  rw [length_sliceStream h, List.append_assoc, List.length_append] at hlength
  have hcLen := h.cLen_lt
  by_cases hnone : s.socket ++ s.undelivered = []
  · have hall : before ++ bytes = sliceStream header payload := by
      rw [← hstream, List.append_assoc (before ++ bytes), hnone, List.append_nil]
    have harrived := leaveLoop_whole stale hslice h hpayload hposition hall
    rw [Progressing, harrived.1]
    exact Or.inl harrived
  · have hmissing : 0 < (s.socket ++ s.undelivered).length := List.length_pos_of_ne_nil hnone
    rcases leaveLoop_cases stale hslice
      (show (before ++ bytes).length < 2 ^ 64 by rw [kEachSliceHeaderLen] at hlength; omega)
      hposition with ⟨-, -, hphase⟩ | ⟨-, heq⟩ | ⟨hheader, hdone, -⟩
    · rw [Progressing, hphase]
      exact Or.inr hphase
    · rw [heq]
      exact hnone
    · -- the announced length has not been reached yet
      rw [unmarshal_of_append_eq h ((List.append_assoc ..).symm.trans hstream) hheader,
        payloadLen] at hdone
      omega

theorem progressing_step {consumed : List UInt8} {s s' : LinkState} {a : LinkAction}
    (h : Announces header payload) (hslice : g.expectsHeader = false)
    (hpayload : 1 ≤ header.cLen) (hcover : kEachSliceHeaderLen + header.cLen ≤ g.readsMaxBytes)
    (hinv : LinkInv g (sliceStream header payload) consumed s)
    (hs : Progressing g header payload s) (hstep : linkStep s a = some s') :
    Progressing g header payload s' := by
  obtain ⟨hstream, hfin, hphased⟩ := hinv
  cases linkNext_of_step hstep with
  | arrive hpos hle =>
      unfold Progressing Arrived ShortRead at hs ⊢
      cases hphase : s.phase with
      | waiting task =>
          simp only [hphase, List.append_assoc, List.take_append_drop] at hs ⊢
          exact hs
      | adding => trivial
      | reading task nLeft bytes =>
          simp only [hphase] at hs ⊢
          exact hs
      | left status =>
          simp only [hphase] at hs ⊢
          exact hs
  | arriveFin hall => exact hs
  | add hadding =>
      rw [Phased, hadding] at hphased
      obtain ⟨rfl, -⟩ := hphased
      show s.socket ++ s.undelivered ≠ []
      intro hnone
      have hlength := length_sliceStream h
      rw [← hstream, List.nil_append, hnone, List.length_nil, kEachSliceHeaderLen] at hlength
      omega
  | wait hwaiting hbegin => exact Nat.zero_le _
  | fault hwaiting hbegin =>
      rw [Phased, hwaiting] at hphased
      obtain ⟨nLeft, hentered, -⟩ := beginRead_of_position h hslice hcover
        ⟨_, (List.append_assoc ..).symm.trans hstream⟩ hphased.1
      rw [hentered] at hbegin
      cases hbegin
  | again hreading hcall honce hsocket =>
      rw [Progressing, hreading] at hs
      exact readOnce_le honce hs
  | leave hreading hcall hsocket hwhy =>
      rw [Phased, hreading] at hphased
      obtain ⟨before, rfl, hposition, -⟩ := hphased
      exact progressing_leaveLoop _ hslice h hpayload hposition (stream_of_call hstream hsocket)

/-- **In every run a task that waits is missing something, and one that has left has the
whole slice or has made the copy of negative length.** -/
theorem progressing_of_reachable {s : LinkState} (h : Announces header payload)
    (hslice : g.expectsHeader = false) (hpayload : 1 ≤ header.cLen)
    (hcover : kEachSliceHeaderLen + header.cLen ≤ g.readsMaxBytes)
    (hs : (linkSystem g (sliceStream header payload)).Reachable s) :
    (∃ consumed, LinkInv g (sliceStream header payload) consumed s) ∧
      Progressing g header payload s := by
  refine hs.invariant (I := fun s => (∃ consumed,
    LinkInv g (sliceStream header payload) consumed s) ∧ Progressing g header payload s) ?_ ?_
  · exact ⟨⟨[], rfl, (fun hclosed => by cases hclosed), rfl, rfl⟩, trivial⟩
  · rintro s a s' ⟨⟨consumed, hinv⟩, hs⟩ hstep
    exact ⟨hinv.step h hslice hcover hstep, progressing_step h hslice hpayload hcover hinv hs hstep⟩

/-! ## Where no step is left -/

/-- A step that is possible as long as the task has not left. -/
def LinkState.next (s : LinkState) : LinkAction :=
  if s.undelivered ≠ [] then .arrive s.undelivered.length
  else if s.fin = false then .arriveFin
  else
    match s.phase with
    | .adding => .add
    | .waiting _ => .wait
    | _ => .read []

theorem productive_next (s : LinkState) : linkProductive s s.next = true := by
  rw [LinkState.next]
  split
  · rfl
  · split
    · rfl
    · split
      · rfl
      · rfl
      · rfl

/-- A call of `read` succeeds as long as the loop has stayed in its budget. -/
theorem exists_readOnce {nLeft : ℕ} {bytes : List UInt8} (s : LinkState)
    (hle : bytes.length ≤ nLeft) :
    ∃ progress, readOnce nLeft bytes (s.readResult (nLeft - bytes.length)) = some progress := by
  have hdata : ∀ more : List UInt8, more.length ≤ nLeft - bytes.length →
      ∃ progress, readOnce nLeft bytes (.data more) = some progress := by
    intro more hmore
    rw [readOnce, if_neg (by omega)]
    split
    · exact ⟨_, rfl⟩
    · exact ⟨_, rfl⟩
  rcases readResult_cases s (nLeft - bytes.length) with ⟨-, -, heq⟩ | ⟨-, -, heq⟩ | ⟨-, heq⟩
  · rw [heq]
    exact hdata [] (Nat.zero_le _)
  · rw [heq]
    exact ⟨_, rfl⟩
  · rw [heq]
    exact hdata _ (List.length_take_le _ _)

theorem exists_step_next {consumed : List UInt8} {s : LinkState}
    (hinv : LinkInv g (sliceStream header payload) consumed s)
    (hs : Progressing g header payload s) (hopen : ∀ status, s.phase ≠ .left status) :
    ∃ s', linkStep s s.next = some s' := by
  obtain ⟨hstream, -, hphased⟩ := hinv
  unfold LinkState.next
  by_cases hundelivered : s.undelivered = []
  · rw [if_neg (not_not.mpr hundelivered)]
    cases hfin : s.fin with
    | false => exact ⟨_, if_pos ⟨hundelivered, hfin⟩⟩
    | true =>
        rw [if_neg Bool.true_eq_false_eq_False]
        cases hphase : s.phase with
        | adding => exact ⟨_, if_pos hphase⟩
        | waiting task =>
            -- an edge is pending, since something is missing and the FIN has arrived
            have hedge : s.edge = true := by
              rw [Phased, hphase] at hphased
              rw [Progressing, hphase] at hs
              by_contra hnone
              rcases hphased.2 (Bool.eq_false_iff.mpr hnone) with ⟨-, hclosed⟩ | hall
              · rw [hfin] at hclosed
                cases hclosed
              · rw [hall, List.append_assoc, List.append_right_eq_self] at hstream
                exact hs hstream
            rw [linkStep]
            simp only [hphase, hedge, if_true]
            cases beginRead s.globals task with
            | ok entered => exact ⟨_, rfl⟩
            | error fault => exact ⟨_, rfl⟩
        | reading task nLeft bytes =>
            rw [Progressing, hphase] at hs
            obtain ⟨progress, honce⟩ := exists_readOnce s hs
            rw [linkStep]
            simp only [hphase, LinkState.iterate, honce]
            exact ⟨_, rfl⟩
        | left status => exact absurd hphase (hopen status)
  · rw [if_pos hundelivered]
    exact ⟨_, if_pos ⟨List.length_pos_of_ne_nil hundelivered, le_refl _⟩⟩

/-! ## A header in one piece -/

/-- The first delivery holds the ten bytes of the header. -/
def HeaderWhole (stream : List UInt8) (s : LinkState) : LinkAction → Prop
  | .arrive count => s.undelivered = stream → kEachSliceHeaderLen ≤ count
  | _ => True

instance (stream : List UInt8) (s : LinkState) : (a : LinkAction) →
    Decidable (HeaderWhole stream s a)
  | .arrive count => inferInstanceAs (Decidable (s.undelivered = stream → _ ≤ count))
  | .arriveFin | .add | .wait | .interrupt _ | .read _ => inferInstanceAs (Decidable True)

/-- A first read will find the header, or has found it. -/
def HeaderThere (stream : List UInt8) (s : LinkState) : Prop :=
  match s.phase with
  | .adding => s.undelivered = stream ∨ kEachSliceHeaderLen ≤ s.socket.length
  | .waiting task => task.isFirstRecv = true →
      s.undelivered = stream ∧ s.edge = false ∨ kEachSliceHeaderLen ≤ s.socket.length
  | .reading task nLeft bytes => task.isFirstRecv = true → kEachSliceHeaderLen ≤ nLeft ∧
      (kEachSliceHeaderLen ≤ bytes.length ∨ bytes = [] ∧ kEachSliceHeaderLen ≤ s.socket.length)
  | .left _ => ¬ ShortRead s

theorem edge_of_wait {s s' : LinkState} (hstep : linkStep s .wait = some s') : s.edge = true := by
  rw [linkStep] at hstep
  cases hphase : s.phase with
  | waiting task =>
      simp only [hphase] at hstep
      exact (Option.ite_none_right_eq_some.mp hstep).1
  | _ => simp [hphase] at hstep

/-- The bytes of an iteration that goes on, when the header is there. -/
theorem header_of_again {s : LinkState} {a : LinkAction} {nLeft : ℕ} {bytes stale : List UInt8}
    {result : ReadResult} (hcall : Calls s (nLeft - bytes.length) stale a result)
    (hbudget : kEachSliceHeaderLen ≤ nLeft)
    (h : kEachSliceHeaderLen ≤ bytes.length ∨
      bytes = [] ∧ kEachSliceHeaderLen ≤ s.socket.length) :
    kEachSliceHeaderLen ≤ (bytes ++ result.bytes).length ∨
      bytes ++ result.bytes = [] ∧
        kEachSliceHeaderLen ≤ (s.socket.drop result.bytes.length).length := by
  rcases h with hheader | ⟨rfl, hsocket⟩
  · refine Or.inl (hheader.trans ?_)
    rw [List.length_append]
    exact Nat.le_add_right _ _
  · cases hcall with
    | interrupt => exact Or.inr ⟨rfl, hsocket⟩
    | read =>
        left
        rcases readResult_cases s (nLeft - ([] : List UInt8).length) with
          ⟨hempty, -⟩ | ⟨hempty, -⟩ | ⟨-, heq⟩
        · rw [hempty, List.length_nil, kEachSliceHeaderLen] at hsocket
          omega
        · rw [hempty, List.length_nil, kEachSliceHeaderLen] at hsocket
          omega
        · rw [heq, List.nil_append]
          show kEachSliceHeaderLen ≤ (s.socket.take (nLeft - ([] : List UInt8).length)).length
          rw [List.length_take, List.length_nil]
          omega

/-- Bytes that arrive, the ten bytes of the header first. -/
theorem HeaderThere.arrive {stream : List UInt8} {s : LinkState} {count : ℕ}
    (hs : HeaderThere stream s) (hle : count ≤ s.undelivered.length)
    (hwhole : s.undelivered = stream → kEachSliceHeaderLen ≤ count) :
    HeaderThere stream { s with
      undelivered := s.undelivered.drop count
      socket := s.socket ++ s.undelivered.take count
      edge := true } := by
  have harrived : s.undelivered = stream ∨ kEachSliceHeaderLen ≤ s.socket.length →
      kEachSliceHeaderLen ≤ (s.socket ++ s.undelivered.take count).length := by
    rw [List.length_append, List.length_take_of_le hle]
    rintro (hnone | hsome)
    · have := hwhole hnone
      omega
    · omega
  unfold HeaderThere ShortRead at hs ⊢
  cases hphase : s.phase with
  | adding =>
      simp only [hphase] at hs ⊢
      exact Or.inr (harrived hs)
  | waiting task =>
      simp only [hphase] at hs ⊢
      exact fun hfirst => Or.inr (harrived ((hs hfirst).imp_left And.left))
  | reading task nLeft bytes =>
      simp only [hphase] at hs ⊢
      refine fun hfirst => ⟨(hs hfirst).1, (hs hfirst).2.imp_right fun hempty => ⟨hempty.1, ?_⟩⟩
      exact harrived (Or.inr hempty.2)
  | left status =>
      simp only [hphase] at hs ⊢
      exact hs

/-- The FIN, behind the whole stream. -/
theorem HeaderThere.arriveFin {stream : List UInt8} {s : LinkState} (hs : HeaderThere stream s)
    (hall : s.undelivered = []) (hstream : stream ≠ []) :
    HeaderThere stream { s with fin := true, edge := true } := by
  have hsome : s.undelivered ≠ stream := by
    rw [hall]
    exact hstream.symm
  unfold HeaderThere ShortRead at hs ⊢
  cases hphase : s.phase with
  | waiting task =>
      simp only [hphase] at hs ⊢
      exact fun hfirst => Or.inr ((hs hfirst).resolve_left fun hnone => hsome hnone.1)
  | adding =>
      simp only [hphase] at hs ⊢
      exact hs
  | reading task nLeft bytes =>
      simp only [hphase] at hs ⊢
      exact hs
  | left status =>
      simp only [hphase] at hs ⊢
      exact hs

/-- A read loop that is left has got the header, so the copy behind it is not a negative one. -/
theorem HeaderThere.leave {before bytes stale : List UInt8} {s : LinkState} {task : RecvTask}
    {nLeft : ℕ} {result : ReadResult} (hslice : g.expectsHeader = false)
    (hthere : task.isFirstRecv = true → kEachSliceHeaderLen ≤ nLeft ∧
      (kEachSliceHeaderLen ≤ bytes.length ∨ bytes = [] ∧ kEachSliceHeaderLen ≤ s.socket.length))
    (hposition : Position g before task s.globals)
    (hlong : (before ++ (bytes ++ result.bytes)).length < 2 ^ 64)
    (hwhy : (bytes ++ result.bytes).length = nLeft ∨ s.socket = []) :
    HeaderThere (sliceStream header payload)
      ({ s with socket := s.socket.drop result.bytes.length }.leaveLoop task stale
        ⟨bytes ++ result.bytes, false⟩) := by
  rcases leaveLoop_cases (s := { s with socket := s.socket.drop result.bytes.length }) stale
    hslice hlong hposition with ⟨hnone, hshort, -⟩ | ⟨-, heq⟩ | ⟨-, -, hphase⟩
  · exfalso
    rcases hposition with ⟨rfl, -, -⟩ | ⟨-, hheader, -⟩
    · obtain ⟨hbudget, hheader⟩ := hthere rfl
      rw [List.length_append] at hshort hwhy
      rcases hwhy with hfull | hempty
      · omega
      · rw [hempty, List.length_nil] at hheader
        rcases hheader with hsome | ⟨-, hnever⟩
        · omega
        · rw [kEachSliceHeaderLen] at hnever
          omega
    · rw [hnone, List.length_nil, kEachSliceHeaderLen] at hheader
      omega
  · rw [heq]
    exact fun hfirst => by cases hfirst
  · rw [HeaderThere, hphase, ShortRead, hphase]
    exact fun hshort => by cases hshort

/-- **Every step keeps the header where the first read finds it**, when the ten bytes arrive
together. -/
theorem headerThere_step {consumed : List UInt8} {s s' : LinkState} {a : LinkAction}
    (h : Announces header payload) (hslice : g.expectsHeader = false)
    (hcover : kEachSliceHeaderLen + header.cLen ≤ g.readsMaxBytes)
    (hinv : LinkInv g (sliceStream header payload) consumed s)
    (hs : HeaderThere (sliceStream header payload) s)
    (hguard : HeaderWhole (sliceStream header payload) s a) (hstep : linkStep s a = some s') :
    HeaderThere (sliceStream header payload) s' := by
  have hlength := length_sliceStream h
  have hne : sliceStream header payload ≠ [] := by
    intro hnil
    rw [hnil, List.length_nil, kEachSliceHeaderLen] at hlength
    omega
  obtain ⟨hstream, hfin, hphased⟩ := hinv
  cases linkNext_of_step hstep with
  | arrive _ hle => exact hs.arrive hle hguard
  | arriveFin hall => exact hs.arriveFin hall hne
  | add hadding =>
      rw [Phased, hadding] at hphased
      rw [HeaderThere, hadding] at hs
      obtain ⟨rfl, -⟩ := hphased
      refine fun _ => hs.imp_left fun hnone => ⟨hnone, ?_⟩
      rw [hnone, List.nil_append, List.append_left_eq_self] at hstream
      have hopen : s.fin = false := by
        by_contra hclosed
        exact hne (hnone.symm.trans (hfin (Bool.eq_true_of_not_eq_false hclosed)))
      simp [hstream, hopen]
  | wait hwaiting hbegin =>
      rw [Phased, hwaiting] at hphased
      rw [HeaderThere, hwaiting] at hs
      intro hfirst
      obtain ⟨nLeft, hentered, hroom⟩ := beginRead_of_position h hslice hcover
        ⟨_, (List.append_assoc ..).symm.trans hstream⟩ hphased.1
      rw [hentered] at hbegin
      cases hbegin
      rcases hphased.1 with ⟨-, rfl, -⟩ | ⟨rfl, -, -⟩
      · rw [hlength, List.length_nil, Nat.zero_add] at hroom
        refine ⟨(Nat.le_add_right _ _).trans hroom, Or.inr ⟨rfl, ?_⟩⟩
        refine (hs hfirst).resolve_left fun hnone => ?_
        rw [edge_of_wait hstep] at hnone
        cases hnone.2
      · cases hfirst
  | fault hwaiting hbegin =>
      rw [Phased, hwaiting] at hphased
      obtain ⟨nLeft, hentered, -⟩ := beginRead_of_position h hslice hcover
        ⟨_, (List.append_assoc ..).symm.trans hstream⟩ hphased.1
      rw [hentered] at hbegin
      cases hbegin
  | again hreading hcall honce hsocket =>
      rw [HeaderThere, hreading] at hs
      exact fun hfirst => ⟨(hs hfirst).1, header_of_again hcall (hs hfirst).1 (hs hfirst).2⟩
  | leave hreading hcall hsocket hwhy =>
      rw [Phased, hreading] at hphased
      rw [HeaderThere, hreading] at hs
      obtain ⟨before, rfl, hposition, -⟩ := hphased
      have hpart := congrArg List.length (stream_of_call hstream hsocket)
      have hcLen := h.cLen_lt
      rw [List.length_append, List.length_append, hlength, kEachSliceHeaderLen] at hpart
      exact HeaderThere.leave hslice hs hposition (by omega) hwhy

theorem headerThere_of_reachable {s : LinkState} (h : Announces header payload)
    (hslice : g.expectsHeader = false)
    (hcover : kEachSliceHeaderLen + header.cLen ≤ g.readsMaxBytes)
    (hs : ((linkSystem g (sliceStream header payload)).restrict
      (HeaderWhole (sliceStream header payload))).Reachable s) :
    HeaderThere (sliceStream header payload) s := by
  have hboth : (∃ consumed, LinkInv g (sliceStream header payload) consumed s) ∧
      HeaderThere (sliceStream header payload) s := by
    refine (TransitionSystem.ReachableVia.of_restrict hs).invariant
      (I := fun s => (∃ consumed, LinkInv g (sliceStream header payload) consumed s) ∧
        HeaderThere (sliceStream header payload) s) ?_ ?_
    · exact ⟨⟨[], rfl, (fun hclosed => by cases hclosed), rfl, rfl⟩, Or.inl rfl⟩
    · rintro s a s' ⟨⟨consumed, hinv⟩, hthere⟩ hguard hstep
      exact ⟨hinv.step h hslice hcover hstep,
        headerThere_step h hslice hcover hinv hthere hguard hstep⟩
  exact hboth.2

/-! ## The result -/

theorem measured_linkSystem (g : Globals) (stream : List UInt8) :
    (linkSystem g stream).Measured linkProductive linkMeasure :=
  fun _ _ _ _ hstep => linkMeasure_step hstep

/-- Where no step is left, the task has left. -/
theorem arrived_of_settled {s : LinkState} (h : Announces header payload)
    (hslice : g.expectsHeader = false) (hpayload : 1 ≤ header.cLen)
    (hcover : kEachSliceHeaderLen + header.cLen ≤ g.readsMaxBytes)
    (hs : (linkSystem g (sliceStream header payload)).Reachable s)
    (hsettled : linkStep s s.next = none) : Arrived g header payload s ∨ ShortRead s := by
  obtain ⟨⟨consumed, hinv⟩, hprogress⟩ := progressing_of_reachable h hslice hpayload hcover hs
  by_cases hleft : ∃ status, s.phase = .left status
  · obtain ⟨status, hphase⟩ := hleft
    rwa [Progressing, hphase] at hprogress
  · obtain ⟨s', hnext⟩ := exists_step_next hinv hprogress fun status hphase =>
      hleft ⟨status, hphase⟩
    rw [hsettled] at hnext
    cases hnext

/-- A task that waits when everything has arrived, and no edge is pending, is settled. -/
theorem settled_of_waiting {stream : List UInt8} {s : LinkState} {task : RecvTask}
    (hphase : s.phase = .waiting task) (hedge : s.edge = false) (hall : s.undelivered = [])
    (hfin : s.fin = true) : (linkSystem g stream).Settled linkProductive s := by
  intro a hproductive
  cases a with
  | arrive count =>
      refine if_neg fun hcount => ?_
      rw [hall, List.length_nil] at hcount
      omega
  | arriveFin =>
      refine if_neg fun hopen => ?_
      rw [hfin] at hopen
      cases hopen.2
  | add =>
      refine if_neg fun hadding => ?_
      rw [hphase] at hadding
      cases hadding
  | wait => simp [linkSystem, linkStep, hphase, hedge]
  | interrupt stale => cases hproductive
  | read stale => simp [linkSystem, linkStep, hphase]

/-- A header that announces no payload leaves the task waiting when its stream has ended. -/
theorem waiting_of_empty (h : Announces header payload) (hslice : g.expectsHeader = false)
    (hbudget : kEachSliceHeaderLen < g.readsMaxBytes) (hempty : header.cLen = 0) :
    ∃ s, (linkSystem g (sliceStream header payload)).Reachable s ∧
      s.phase = .waiting ⟨false, header.index⟩ ∧ s.edge = false ∧ s.undelivered = [] ∧
        s.fin = true := by
  set stream := sliceStream header payload with hstream
  have hlength : stream.length = kEachSliceHeaderLen := by
    rw [hstream, length_sliceStream h, hempty, Nat.add_zero]
  have hne : stream ≠ [] := List.ne_nil_of_length_pos (by rw [hlength]; decide)
  have hread : unmarshal stream = header :=
    unmarshal_of_append_eq h (List.append_nil _) hlength.ge
  have harrive : (linkSystem g stream).step ⟨stream, false, [], false, g, .adding⟩
      (.arrive stream.length) = some ⟨[], false, stream, true, g, .adding⟩ := by
    have hpos : 0 < stream.length ∧ stream.length ≤ stream.length := by
      rw [hlength]
      decide
    simp [linkSystem, linkStep, hpos]
  have hfin : (linkSystem g stream).step ⟨[], false, stream, true, g, .adding⟩ .arriveFin =
      some ⟨[], true, stream, true, g, .adding⟩ := rfl
  have hadd : (linkSystem g stream).step ⟨[], true, stream, true, g, .adding⟩ .add =
      some ⟨[], true, stream, true, g, .waiting {}⟩ := by
    simp [linkSystem, linkStep]
  have hwait : (linkSystem g stream).step ⟨[], true, stream, true, g, .waiting {}⟩ .wait =
      some ⟨[], true, stream, false, g, .reading {} g.readsMaxBytes []⟩ := by
    simp [linkSystem, linkStep, beginRead_first hslice]
  have htaken : stream.take g.readsMaxBytes = stream := List.take_of_length_le (by omega)
  have hmore : (linkSystem g stream).step
      ⟨[], true, stream, false, g, .reading {} g.readsMaxBytes []⟩ (.read []) =
      some ⟨[], true, [], false, g, .reading {} g.readsMaxBytes stream⟩ := by
    have honce : readOnce g.readsMaxBytes [] (.data stream) = some (.again stream) := by
      rw [readOnce, List.length_nil, Nat.zero_add, if_neg (by omega), if_neg (by simp [hne]; omega),
        List.nil_append]
    simp [linkSystem, linkStep, LinkState.iterate, LinkState.readResult, hne, htaken, honce,
      ReadResult.bytes]
  have hlast : (linkSystem g stream).step
      ⟨[], true, [], false, g, .reading {} g.readsMaxBytes stream⟩ (.read []) =
      some ⟨[], true, [], false, globalsAfter g stream, .waiting ⟨false, header.index⟩⟩ := by
    have honce : readOnce g.readsMaxBytes stream (.data []) = some (.stop ⟨stream, false⟩) := by
      rw [readOnce, List.length_nil, Nat.add_zero, if_neg (by omega), if_pos (Or.inr rfl),
        List.append_nil]
    have hstatus : firstStatus stream = .waiting ⟨false, header.index⟩ := by
      rw [firstStatus, hread, payloadLen, hlength, if_pos (Nat.sub_self _)]
    have hafter := afterRead_first [] hslice
      (show stream.length < 2 ^ 64 by rw [hlength]; decide) hlength.ge
    simp [linkSystem, linkStep, LinkState.iterate, LinkState.readResult, honce,
      LinkState.leaveLoop, hafter, hstatus, ReadResult.bytes]
  have hinit := TransitionSystem.Reachable.init (linkSystem g stream)
  exact ⟨_, (((((hinit.next harrive).next hfin).next hadd).next hwait).next hmore).next hlast,
    rfl, rfl, rfl, rfl⟩

/-- **Whatever the schedule, a slice comes to its end exactly when it has a payload and the
budget covers its stream.** -/
theorem link_endsIn_iff (fileSize slicesNum : ℕ) (g : Globals) (header : SliceHeader)
    (payload : List UInt8) (hrecorded : g.Recorded fileSize slicesNum)
    (h : Announces header payload) :
    (linkSystem g (sliceStream header payload)).EndsIn linkProductive
        (fun s => Arrived g header payload s ∨ ShortRead s) ↔
      1 ≤ header.cLen ∧ kEachSliceHeaderLen + header.cLen ≤ g.readsMaxBytes := by
  have hslice := hrecorded.expectsHeader
  constructor
  · intro hends
    have hleft : ∀ {s task}, (linkSystem g (sliceStream header payload)).Reachable s →
        s.phase = .waiting task → s.edge = false → s.undelivered = [] → s.fin = true → False := by
      intro s task hs hphase hedge hall hfin
      rcases hends.settled s hs (settled_of_waiting hphase hedge hall hfin) with ⟨hdone, -⟩ | hshort
      · rw [hphase] at hdone
        cases hdone
      · rw [ShortRead, hphase] at hshort
        cases hshort
    constructor
    · by_contra hnone
      have hbudget : kEachSliceHeaderLen < g.readsMaxBytes :=
        hrecorded.readsMaxBytes_eq ▸ kEachSliceHeaderLen_lt_readsMaxBytesFor _
      obtain ⟨s, hs, hphase, hedge, hall, hfin⟩ :=
        waiting_of_empty h hslice hbudget (Nat.lt_one_iff.mp (Nat.not_le.mp hnone))
      exact hleft hs hphase hedge hall hfin
    · refine (stuck_iff fileSize slicesNum g header payload hrecorded h).mp fun s hs hstuck => ?_
      obtain ⟨task, hphase, hedge, hall, hfin, -⟩ := hstuck
      exact hleft hs hphase hedge hall hfin
  · rintro ⟨hpayload, hcover⟩
    exact (measured_linkSystem g _).endsIn fun s hs hsettled =>
      arrived_of_settled h hslice hpayload hcover hs (hsettled _ (productive_next s))

/-- **When the header comes in one piece, it is the whole slice that a slice ends with.** -/
theorem link_endsIn_arrived (fileSize slicesNum : ℕ) (g : Globals) (header : SliceHeader)
    (payload : List UInt8) (hrecorded : g.Recorded fileSize slicesNum)
    (h : Announces header payload) (hpayload : 1 ≤ header.cLen)
    (hcover : kEachSliceHeaderLen + header.cLen ≤ g.readsMaxBytes) :
    ((linkSystem g (sliceStream header payload)).restrict
        (HeaderWhole (sliceStream header payload))).EndsIn linkProductive
      (Arrived g header payload) := by
  have hslice := hrecorded.expectsHeader
  refine (measured_linkSystem g _).restrict.endsIn fun s hs hsettled => ?_
  have hthere := headerThere_of_reachable h hslice hcover hs
  have hnext : linkStep s s.next = none := by
    refine hsettled.step_eq_none (productive_next s) ?_
    rw [LinkState.next]
    split
    · intro hall
      rw [hall, length_sliceStream h]
      exact Nat.le_add_right _ _
    · split
      · trivial
      · split
        · trivial
        · trivial
        · trivial
  rcases arrived_of_settled h hslice hpayload hcover hs.of_restrict hnext with harrived | hshort
  · exact harrived
  · rw [HeaderThere, hshort] at hthere
    exact absurd hshort hthere

end Invariant

/-- A slice of three compressed bytes. -/
theorem link_endsIn_short :
    (linkSystem (recordHeader 4 1 Globals.initial)
      (sliceStream ⟨0, 4, 3⟩ [7, 8, 9])).EndsIn linkProductive
        (fun s => Arrived (recordHeader 4 1 Globals.initial) ⟨0, 4, 3⟩ [7, 8, 9] s ∨
          ShortRead s) :=
  (link_endsIn_iff 4 1 (recordHeader 4 1 Globals.initial) ⟨0, 4, 3⟩ [7, 8, 9]
    (recorded_recordHeader 4 1 _) ⟨by decide, by decide, by decide, rfl⟩).mpr (by decide)

theorem link_endsIn_arrived_short :
    ((linkSystem (recordHeader 4 1 Globals.initial)
        (sliceStream ⟨0, 4, 3⟩ [7, 8, 9])).restrict
          (HeaderWhole (sliceStream ⟨0, 4, 3⟩ [7, 8, 9]))).EndsIn linkProductive
      (Arrived (recordHeader 4 1 Globals.initial) ⟨0, 4, 3⟩ [7, 8, 9]) :=
  link_endsIn_arrived 4 1 (recordHeader 4 1 Globals.initial) ⟨0, 4, 3⟩ [7, 8, 9]
    (recorded_recordHeader 4 1 _) ⟨by decide, by decide, by decide, rfl⟩ (by decide) (by decide)

end SliceTransfer
