import SliceTransfer.Receiver.Reassembly
import SliceTransfer.Lib.TransitionSystem
import Mathlib.Data.List.Infix

/-!
# The sender's supervisor

`SendingFlow::Supervise` waits for the receiver's report: the end marker and behind it
the result of the validation.  `superviseSystem` performs one `epoll_wait` a step, with
the events it returned.  What a `read` loop got is searched for the marker and for the
keyword, and then forgotten; the next wake-up starts at the front of the buffer again.
-/

namespace SliceTransfer.SendingFlow

open Server (ReadResult readOnce readLoop readLoop_bytes Exit)

/-- The size of the buffer in `Supervise`. -/
def kSupvervisorInfoBuffSize : ℕ := 512

/-- The bytes of an ASCII text. -/
def ascii (text : List Char) : List UInt8 := text.map fun c => UInt8.ofNat c.toNat

/-- The text that shows the validation result. -/
def keyword : List UInt8 := ascii ['s', 't', 'r', 'i', 'n', 'g', 's', '2', ':']

/-- The first byte of the end marker, `'E'`. -/
def markerByte : UInt8 := 69

/-- What `Supervise` reports. -/
inductive SuperviseLog
  | duration
  | validString (res : List UInt8)
  deriving DecidableEq, Repr

structure SuperviseState where
  logged : List SuperviseLog := []
  exit : Option Exit := none
  deriving DecidableEq, Repr

/-- An event `epoll_wait` returned, with what the calls made for it did. -/
inductive EpollEvent
  /-- The listener is readable; whether `epoll_ctl` took each accepted connection. -/
  | connections (added : List Bool)
  | readable (results : List ReadResult)
  | other
  deriving DecidableEq, Repr

inductive EpollWait
  | failed
  | active (events : List EpollEvent)
  deriving DecidableEq, Repr

def SuperviseState.leave (s : SuperviseState) (exit : Exit) : SuperviseState :=
  { s with exit := some exit }

def SuperviseState.log (s : SuperviseState) (entry : SuperviseLog) : SuperviseState :=
  { s with logged := s.logged ++ [entry] }

/-- The search for the keyword. -/
def SuperviseState.findResult (s : SuperviseState) (res : List UInt8) : SuperviseState :=
  if keyword <:+: res then (s.log (.validString res)).leave (.returned 0) else s

/-- What is done with the bytes of a wake-up. -/
def SuperviseState.takeBatch (s : SuperviseState) (res : List UInt8) : SuperviseState :=
  if res = [] then s.leave (.returned (-1))
  -- the text "E\0" is a C string here, so the search is for `E` alone
  else if markerByte ∈ res then
    if res.length < 2 then (s.log .duration).leave (.threw .outOfRange)
    else (s.log .duration).findResult (res.drop 2)
  else s.findResult res

/-- One event; `none` when the results are not those the read loop asks for. -/
def SuperviseState.handle (s : SuperviseState) : EpollEvent → Option SuperviseState
  | .connections added => some (if false ∈ added then s.leave (.returned (-1)) else s)
  | .readable results =>
      (readLoop kSupvervisorInfoBuffSize [] results).map fun outcome =>
        if outcome.failed then s.leave (.returned (-1)) else s.takeBatch outcome.bytes
  | .other => some s

/-- The events of a wake-up in order, up to the one that ends the function. -/
def SuperviseState.handleAll (s : SuperviseState) : List EpollEvent → Option SuperviseState
  | [] => some s
  | event :: rest =>
      (s.handle event).bind fun next =>
        if next.exit = none then next.handleAll rest else some next

def superviseStep (s : SuperviseState) (wait : EpollWait) : Option SuperviseState :=
  if s.exit = none then
    match wait with
    | .failed => some (s.leave (.returned (-1)))
    | .active events => s.handleAll events
  else none

/-- The loop of `SendingFlow::Supervise`. -/
def superviseSystem : TransitionSystem SuperviseState EpollWait where
  init := {}
  step := superviseStep

/-! ## What is read -/

/-- The bytes the reads of a wake-up get. -/
def EpollEvent.bytes : EpollEvent → List UInt8
  | .readable results => results.flatMap ReadResult.bytes
  | _ => []

def EpollWait.bytes : EpollWait → List UInt8
  | .failed => []
  | .active events => events.flatMap EpollEvent.bytes

/-- A wake-up without bytes is no reason to return zero. -/
theorem handle_ne_returned {s s' : SuperviseState} {event : EpollEvent}
    (h : s.handle event = some s') (hbytes : event.bytes = [])
    (hexit : s.exit ≠ some (.returned 0)) : s'.exit ≠ some (.returned 0) := by
  have hleave : (s.leave (.returned (-1))).exit ≠ some (.returned 0) := by
    show some (Exit.returned (-1)) ≠ some (.returned 0)
    decide
  cases event with
  | connections added =>
      cases h
      split
      · exact hleave
      · exact hexit
  | readable results =>
      obtain ⟨outcome, hloop, rfl⟩ := Option.map_eq_some_iff.mp h
      have hnone : outcome.bytes = [] := (readLoop_bytes hloop).trans hbytes
      split
      · exact hleave
      · rw [hnone]
        exact hleave
  | other =>
      cases h
      exact hexit

theorem handleAll_ne_returned {events : List EpollEvent} {s s' : SuperviseState}
    (h : s.handleAll events = some s') (hbytes : events.flatMap EpollEvent.bytes = [])
    (hexit : s.exit ≠ some (.returned 0)) : s'.exit ≠ some (.returned 0) := by
  induction events generalizing s with
  | nil =>
      cases h
      exact hexit
  | cons event rest ih =>
      rw [List.flatMap_cons, List.append_eq_nil_iff] at hbytes
      obtain ⟨next, hnext, hrest⟩ := Option.bind_eq_some_iff.mp h
      have hstill := handle_ne_returned hnext hbytes.1 hexit
      split at hrest
      · exact ih hrest hbytes.2 hstill
      · cases hrest
        exact hstill

theorem superviseStep_ne_returned {s s' : SuperviseState} {wait : EpollWait}
    (h : superviseStep s wait = some s') (hbytes : wait.bytes = []) :
    s'.exit ≠ some (.returned 0) := by
  unfold superviseStep at h
  obtain ⟨hexit, hwait⟩ := Option.ite_none_right_eq_some.mp h
  cases wait with
  | failed =>
      cases hwait
      exact fun heq => by cases heq
  | active events =>
      refine handleAll_ne_returned hwait hbytes ?_
      rw [hexit]
      exact fun heq => by cases heq

/-! ## What a batch does -/

/-- The wake-up reads `batch` and finds nothing more. -/
def Brings (batch : List UInt8) (wait : EpollWait) : Prop :=
  ∃ results, wait = .active [.readable results] ∧
    readLoop kSupvervisorInfoBuffSize [] results = some ⟨batch, false⟩

/-- A batch that comes at once and leaves room in the buffer. -/
theorem brings_data {batch : List UInt8} (hne : batch ≠ [])
    (hfits : batch.length < kSupvervisorInfoBuffSize) :
    Brings batch (.active [.readable [.data batch, .eagain]]) := by
  refine ⟨_, rfl, ?_⟩
  have hdata : readOnce kSupvervisorInfoBuffSize [] (.data batch) =
      some (.again batch) := by
    simp [readOnce, hne, hfits.ne, Nat.not_lt.mpr hfits.le]
  rw [readLoop, hdata]
  rfl

theorem step_of_brings {s : SuperviseState} {batch : List UInt8} {wait : EpollWait}
    (hbrings : Brings batch wait) (hexit : s.exit = none) :
    superviseSystem.step s wait = some (s.takeBatch batch) := by
  obtain ⟨results, rfl, hresults⟩ := hbrings
  have hhandle : s.handle (.readable results) = some (s.takeBatch batch) := by
    rw [SuperviseState.handle, hresults]
    rfl
  have hall : s.handleAll [.readable results] = some (s.takeBatch batch) := by
    rw [SuperviseState.handleAll, hhandle]
    simp [SuperviseState.handleAll]
  show superviseStep s (.active [.readable results]) = _
  unfold superviseStep
  rw [if_pos hexit]
  exact hall

/-- Nothing happens once the function was left. -/
theorem step_of_exit {s : SuperviseState} {exit : Exit} (hexit : s.exit = some exit)
    (wait : EpollWait) : superviseSystem.step s wait = none := by
  show superviseStep s wait = none
  unfold superviseStep
  rw [hexit]
  rfl

/-- The text a batch is searched for the keyword. -/
def textOf (batch : List UInt8) : List UInt8 :=
  if markerByte ∈ batch then batch.drop 2 else batch

/-- A batch reports nothing but its own text. -/
theorem validString_mem_takeBatch {s : SuperviseState} {batch res : List UInt8}
    (hmem : .validString res ∈ (s.takeBatch batch).logged) :
    .validString res ∈ s.logged ∨ res = textOf batch := by
  have hfind : ∀ {t : SuperviseState} {text : List UInt8},
      .validString res ∈ (t.findResult text).logged → .validString res ∈ t.logged ∨ res = text := by
    intro t text ht
    unfold SuperviseState.findResult at ht
    split at ht
    · simpa [SuperviseState.leave, SuperviseState.log] using ht
    · exact Or.inl ht
  unfold SuperviseState.takeBatch at hmem
  unfold textOf
  split at hmem
  · exact Or.inl hmem
  · split at hmem
    · rename_i hmarker
      rw [if_pos hmarker]
      split at hmem
      · exact Or.inl (by simpa [SuperviseState.leave, SuperviseState.log] using hmem)
      · simpa [SuperviseState.log] using hfind hmem
    · rename_i hmarker
      rw [if_neg hmarker]
      exact hfind hmem

/-- In a whole run every result reported is the text of one batch. -/
theorem validString_mem_run {batches : List (List UInt8)} {waits : List EpollWait}
    (hbrings : List.Forall₂ Brings batches waits) {s s' : SuperviseState}
    (hrun : superviseSystem.run waits s = some s') {res : List UInt8}
    (hmem : .validString res ∈ s'.logged) :
    .validString res ∈ s.logged ∨ ∃ batch ∈ batches, res = textOf batch := by
  induction hbrings generalizing s with
  | nil =>
      rw [TransitionSystem.run_nil, Option.some_inj] at hrun
      exact Or.inl (hrun ▸ hmem)
  | @cons batch wait batches waits hfirst hrest ih =>
      rw [TransitionSystem.run_cons, Option.bind_eq_some_iff] at hrun
      obtain ⟨next, hnext, hrun⟩ := hrun
      have hexit : s.exit = none := by
        cases hcase : s.exit with
        | none => rfl
        | some exit =>
            rw [step_of_exit hcase] at hnext
            cases hnext
      rw [step_of_brings hfirst hexit, Option.some_inj] at hnext
      subst hnext
      rcases ih hrun with hbefore | ⟨later, hlater, heq⟩
      · rcases validString_mem_takeBatch hbefore with hold | heq
        · exact Or.inl hold
        · exact Or.inr ⟨batch, List.mem_cons_self, heq⟩
      · exact Or.inr ⟨later, List.mem_cons_of_mem _ hlater, heq⟩

end SliceTransfer.SendingFlow
