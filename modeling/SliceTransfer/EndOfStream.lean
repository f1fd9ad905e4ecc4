import SliceTransfer.EdgeTriggered

/-!
# A truncated slice connection

The sender closes the connection when a write fails, so the receiver may find the end
of the stream in the middle of a slice.  In `Recv` a `read` that returns zero leaves
the read loop exactly like one that has to wait, and nothing asks which of the two it
was.  So the end of the stream is never reported: in every run on a strict part of a
slice stream, once `read` has returned zero the task is waiting or reading for ever
(`EndInv`), and there is a run that ends in a wait no event will end
(`endOfStream_ignored`).
-/

namespace SliceTransfer

open Server

/-- The `read` that is about to be made returns zero: the socket is empty and closed. -/
def sawEnd (s : LinkState) : LinkAction → Bool
  | .read _ =>
      match s.phase with
      | .reading _ _ _ => decide (s.socket = []) && s.fin
      | _ => false
  | _ => false

/-- The runs on a connection that carries `stream`, with the memory of a `read` that
returned zero. -/
def watchedLink (g : Globals) (stream : List UInt8) :
    TransitionSystem (LinkState × Bool) LinkAction :=
  (linkSystem g stream).watching sawEnd

/-- A strict initial part of a slice stream, with the whole header. -/
structure Truncated (header : SliceHeader) (payload part : List UInt8) : Prop where
  initial : part <+: sliceStream header payload
  header_le : kEachSliceHeaderLen ≤ part.length
  length_lt : part.length < (sliceStream header payload).length

/-- The task has not returned, and its slice is not complete. -/
def StillReceiving (s : LinkState) : Prop :=
  ∃ task info, (s.phase = .waiting task ∨ ∃ nLeft bytes, s.phase = .reading task nLeft bytes) ∧
    s.globals.mmap task.index = some info ∧ info.offset < info.cLen

section Truncated

variable {g : Globals} {header : SliceHeader} {payload part : List UInt8}

/-- What has been consumed of a truncated stream is a slice with bytes missing. -/
theorem Truncated.missing (ht : Truncated header payload part) (h : Announces header payload)
    {consumed more : List UInt8} (hpart : consumed ++ more = part)
    (hheader : kEachSliceHeaderLen ≤ consumed.length) :
    unmarshal consumed = header ∧ payloadLen consumed < header.cLen := by
  obtain ⟨rest, hrest⟩ := ht.initial
  have hlength := congrArg List.length hpart
  have hshort := ht.length_lt
  rw [List.length_append] at hlength
  rw [length_sliceStream h] at hshort
  have hstream : consumed ++ (more ++ rest) = sliceStream header payload := by
    rw [← hrest, ← hpart, List.append_assoc]
  refine ⟨unmarshal_of_append_eq h hstream hheader, ?_⟩
  rw [payloadLen]
  omega

/-! ## The invariant -/

/-- Where the task is; `seen` says whether a `read` has returned zero. -/
def Placed (g : Globals) (part consumed : List UInt8) (s : LinkState) (seen : Bool) : Prop :=
  match s.phase with
  | .adding => consumed = [] ∧ s.globals = g ∧ seen = false
  | .waiting task => Position g consumed task s.globals ∧ (seen = true → consumed = part)
  | .reading task _ bytes => ∃ before, consumed = before ++ bytes ∧
      Position g before task s.globals ∧ (seen = true → before = part)
  | .left _ => seen = false

structure EndInv (g : Globals) (part consumed : List UInt8) (s : LinkState) (seen : Bool) :
    Prop where
  stream_eq : consumed ++ s.socket ++ s.undelivered = part
  fin_last : s.fin = true → s.undelivered = []
  placed : Placed g part consumed s seen

/-- What the read loop leaves behind it. -/
theorem EndInv.leaveLoop {before bytes : List UInt8} {task : RecvTask} {s : LinkState}
    {seen : Bool} (stale : List UInt8) (hslice : g.expectsHeader = false)
    (ht : Truncated header payload part) (h : Announces header payload)
    (hstream : before ++ bytes ++ s.socket ++ s.undelivered = part)
    (hfin : s.fin = true → s.undelivered = []) (hposition : Position g before task s.globals)
    (hseen : seen = true → before ++ bytes = part) :
    EndInv g part (before ++ bytes) (s.leaveLoop task stale ⟨bytes, false⟩) seen := by
  have hmissing := ht.missing h ((List.append_assoc _ _ _).symm.trans hstream)
  have hlong : (before ++ bytes).length < 2 ^ 64 := by
    have hlength := congrArg List.length hstream
    have hshort := ht.length_lt
    have hcLen := h.cLen_lt
    rw [List.length_append, List.length_append] at hlength
    rw [length_sliceStream h, kEachSliceHeaderLen] at hshort
    omega
  refine ⟨hstream, hfin, ?_⟩
  rcases leaveLoop_cases stale hslice hlong hposition with
    ⟨rfl, hshort, hleft⟩ | ⟨hheader, heq⟩ | ⟨hheader, hdone, -⟩
  · -- the whole part has a header, so the stream has not ended yet
    rw [Placed, hleft]
    refine Bool.eq_false_iff.mpr ?_
    intro hyes
    have hwhole := hseen hyes
    rw [List.nil_append] at hwhole
    have hpart := ht.header_le
    rw [← hwhole] at hpart
    omega
  · rw [heq]
    exact ⟨Or.inr ⟨rfl, hheader, rfl⟩, hseen⟩
  · obtain ⟨hfields, hless⟩ := hmissing hheader
    rw [hfields] at hdone
    omega

/-- The read loop is entered without a fault. -/
theorem beginRead_of_placed {consumed : List UInt8} {task : RecvTask} {globals : Globals}
    (hslice : g.expectsHeader = false) (hposition : Position g consumed task globals) :
    ∃ nLeft, beginRead globals task = .ok (globals, nLeft) := by
  rcases hposition with ⟨rfl, -, rfl⟩ | ⟨rfl, -, rfl⟩
  · exact ⟨_, beginRead_first hslice⟩
  · exact ⟨_, beginRead_later g consumed⟩

/-- A call that gets zero bytes, on a connection that was closed. -/
theorem data_nil_of_sawEnd {s : LinkState} {a : LinkAction} {task : RecvTask} {nLeft asked : ℕ}
    {bytes stale : List UInt8} {result : ReadResult}
    (hreading : s.phase = .reading task nLeft bytes) (hcall : Calls s asked stale a result)
    (hsaw : sawEnd s a = true) : result = .data [] ∧ s.socket = [] ∧ s.fin = true := by
  cases hcall with
  | interrupt => cases hsaw
  | read =>
      rw [sawEnd, hreading] at hsaw
      obtain ⟨hempty, hclosed⟩ := Bool.and_eq_true_iff.mp hsaw
      have hsocket : s.socket = [] := of_decide_eq_true hempty
      refine ⟨?_, hsocket, hclosed⟩
      rw [LinkState.readResult, if_neg (not_not.mpr hsocket), if_pos hclosed]

/-- Behind the call everything has been consumed, if it or an earlier one has seen the end. -/
theorem consumed_of_sawEnd {s : LinkState} {before bytes : List UInt8} {seen sees : Bool}
    {result : ReadResult} (hfin : s.fin = true → s.undelivered = [])
    (hstream : before ++ (bytes ++ result.bytes) ++ s.socket.drop result.bytes.length ++
      s.undelivered = part)
    (hseen : seen = true → before = part) (hsees : sees = true → s.socket = [] ∧ s.fin = true)
    (hboth : (seen || sees) = true) : before ++ (bytes ++ result.bytes) = part := by
  rcases Bool.or_eq_true_iff.mp hboth with hbefore | hnow
  · -- nothing follows a `read` that has returned zero
    have hlength := congrArg List.length hstream
    have hwhole := hseen hbefore
    rw [hwhole] at hlength
    simp only [List.length_append] at hlength
    have hnone : bytes ++ result.bytes = [] :=
      List.length_eq_zero_iff.mp (by rw [List.length_append]; omega)
    rw [hnone, List.append_nil]
    exact hwhole
  · obtain ⟨hempty, hclosed⟩ := hsees hnow
    rwa [hempty, List.drop_nil, hfin hclosed, List.append_nil, List.append_nil] at hstream

theorem EndInv.step {consumed : List UInt8} {s s' : LinkState} {seen : Bool} {a : LinkAction}
    (hslice : g.expectsHeader = false) (ht : Truncated header payload part)
    (h : Announces header payload) (hs : EndInv g part consumed s seen)
    (hstep : linkStep s a = some s') :
    ∃ consumed', EndInv g part consumed' s' (seen || sawEnd s a) := by
  obtain ⟨hstream, hfin, hplaced⟩ := hs
  cases linkNext_of_step hstep with
  | arrive hpos hle =>
      refine ⟨consumed, ?_, fun hclosed => ?_, ?_⟩
      · rw [← hstream]
        simp
      · rw [hfin hclosed, List.length_nil] at hle
        omega
      · show Placed g part consumed s (seen || false)
        rwa [Bool.or_false]
  | arriveFin hall =>
      refine ⟨consumed, hstream, fun _ => hall, ?_⟩
      show Placed g part consumed s (seen || false)
      rwa [Bool.or_false]
  | add hadding =>
      rw [Placed, hadding] at hplaced
      obtain ⟨rfl, hglobals, rfl⟩ := hplaced
      exact ⟨[], hstream, hfin, Or.inl ⟨rfl, rfl, hglobals⟩, fun hyes => by cases hyes⟩
  | wait hwaiting hbegin =>
      rw [Placed, hwaiting] at hplaced
      obtain ⟨hposition, hseen⟩ := hplaced
      obtain ⟨nLeft, hentered⟩ := beginRead_of_placed hslice hposition
      rw [hentered] at hbegin
      cases hbegin
      refine ⟨consumed, hstream, hfin, consumed, (List.append_nil _).symm, hposition, ?_⟩
      show (seen || false) = true → consumed = part
      rwa [Bool.or_false]
  | fault hwaiting hbegin =>
      rw [Placed, hwaiting] at hplaced
      obtain ⟨nLeft, hentered⟩ := beginRead_of_placed hslice hplaced.1
      rw [hentered] at hbegin
      cases hbegin
  | again hreading hcall honce hsocket =>
      rw [Placed, hreading] at hplaced
      obtain ⟨before, rfl, hposition, hseen⟩ := hplaced
      refine ⟨_, stream_of_call hstream hsocket, hfin, before, rfl, hposition, fun hboth => ?_⟩
      rcases Bool.or_eq_true_iff.mp hboth with hbefore | hnow
      · exact hseen hbefore
      · -- a `read` that returns zero leaves the loop
        rw [(data_nil_of_sawEnd hreading hcall hnow).1, readOnce] at honce
        split at honce
        · cases honce
        · rw [if_pos (Or.inr rfl)] at honce
          cases honce
  | leave hreading hcall hsocket hwhy =>
      rw [Placed, hreading] at hplaced
      obtain ⟨before, rfl, hposition, hseen⟩ := hplaced
      have hstream' := stream_of_call hstream hsocket
      have hends := fun hnow => (data_nil_of_sawEnd hreading hcall hnow).2
      exact ⟨_, EndInv.leaveLoop _ hslice ht h hstream' hfin hposition
        (consumed_of_sawEnd hfin hstream' hseen hends)⟩

theorem endInv_of_reachable (hslice : g.expectsHeader = false)
    (ht : Truncated header payload part) (h : Announces header payload)
    {s : LinkState × Bool} (hreach : (watchedLink g part).Reachable s) :
    ∃ consumed, EndInv g part consumed s.1 s.2 := by
  refine hreach.invariant (I := fun s => ∃ consumed, EndInv g part consumed s.1 s.2) ?_ ?_
  · exact ⟨[], rfl, (fun hclosed => by cases hclosed), rfl, rfl, rfl⟩
  · rintro s a s' ⟨consumed, hs⟩ hstep
    obtain ⟨hlink, hseen⟩ := TransitionSystem.watching_step_eq_some.mp hstep
    rw [hseen]
    exact hs.step hslice ht h hlink

/-- **Once `read` has returned zero the task goes on waiting for the rest.** -/
theorem stillReceiving_of_sawEnd (hslice : g.expectsHeader = false)
    (ht : Truncated header payload part) (h : Announces header payload) {s : LinkState}
    (hreach : (watchedLink g part).Reachable (s, true)) : StillReceiving s := by
  obtain ⟨consumed, hinv⟩ := endInv_of_reachable hslice ht h hreach
  have hplaced := hinv.placed
  have hnotFirst : ∀ {task}, Position g part task s.globals →
      ∃ info, s.globals.mmap task.index = some info ∧ info.offset < info.cLen := by
    rintro task (⟨-, hnil, -⟩ | ⟨rfl, hheader, hglobals⟩)
    · have hpart := ht.header_le
      rw [hnil, kEachSliceHeaderLen, List.length_nil] at hpart
      omega
    · obtain ⟨hfields, hless⟩ := ht.missing h (List.append_nil part) hheader
      refine ⟨entryAfter g part, ?_, ?_⟩
      · rw [hglobals]
        exact globalsAfter_mmap g part
      · show payloadLen part < (unmarshal part).cLen
        rwa [hfields]
  unfold Placed at hplaced
  cases hphase : s.phase with
  | adding =>
      rw [hphase] at hplaced
      cases hplaced.2.2
  | waiting task =>
      rw [hphase] at hplaced
      obtain ⟨hposition, hseen⟩ := hplaced
      rw [hseen rfl] at hposition
      obtain ⟨info, hinfo, hless⟩ := hnotFirst hposition
      exact ⟨task, info, Or.inl hphase, hinfo, hless⟩
  | reading task nLeft bytes =>
      rw [hphase] at hplaced
      obtain ⟨before, -, hposition, hseen⟩ := hplaced
      rw [hseen rfl] at hposition
      obtain ⟨info, hinfo, hless⟩ := hnotFirst hposition
      exact ⟨task, info, Or.inr ⟨nLeft, bytes, hphase⟩, hinfo, hless⟩
  | left status =>
      rw [hphase] at hplaced
      cases hplaced

/-! ## A run that sees the end -/

/-- A piece below the budget arrives, is read, and the next `read` has to wait. -/
theorem run_piece (g : Globals) (stream : List UInt8) (s : LinkState) {task : RecvTask} {nLeft : ℕ}
    {piece more : List UInt8}
    (hphase : s.phase = .waiting task) (hopen : s.fin = false) (hsocket : s.socket = [])
    (hundelivered : s.undelivered = piece ++ more)
    (hbegin : beginRead s.globals task = .ok (s.globals, nLeft)) (hne : piece ≠ [])
    (hfits : piece.length < nLeft) :
    (linkSystem g stream).run [.arrive piece.length, .wait, .read [], .read []] s =
      some ({ s with undelivered := more, edge := false }.leaveLoop task [] ⟨piece, false⟩) := by
  have hpos : 0 < piece.length := List.length_pos_of_ne_nil hne
  have harrive : linkStep s (.arrive piece.length) =
      some { s with undelivered := more, socket := piece, edge := true } := by
    have hlength : piece.length ≤ (piece ++ more).length := by
      rw [List.length_append]
      exact Nat.le_add_right _ _
    simp [linkStep, hundelivered, hpos, hsocket]
  have hwait : linkStep { s with undelivered := more, socket := piece, edge := true } .wait =
      some { s with
        undelivered := more
        socket := piece
        edge := false
        phase := .reading task nLeft [] } := by
    simp [linkStep, hphase, hbegin]
  have hdata : linkStep { s with
        undelivered := more
        socket := piece
        edge := false
        phase := .reading task nLeft [] } (.read []) = some { s with
          undelivered := more
          edge := false
          phase := .reading task nLeft piece } := by
    have htake : piece.take nLeft = piece := List.take_of_length_le hfits.le
    simp [linkStep, LinkState.iterate, LinkState.readResult, hne, htake, readOnce, hfits.ne,
      Nat.not_lt.mpr hfits.le, ReadResult.bytes, hsocket]
  have heagain : linkStep { s with
        undelivered := more
        edge := false
        phase := .reading task nLeft piece } (.read []) =
      some ({ s with undelivered := more, edge := false }.leaveLoop task [] ⟨piece, false⟩) := by
    simp [linkStep, LinkState.iterate, LinkState.readResult, hsocket, hopen, readOnce,
      ReadResult.bytes, LinkState.leaveLoop]
  rw [TransitionSystem.run_cons_of_step harrive, TransitionSystem.run_cons_of_step hwait,
    TransitionSystem.run_cons_of_step hdata, TransitionSystem.run_cons_of_step heagain,
    TransitionSystem.run_nil]

/-- The task waits, having read `consumed`, and everything delivered has been read. -/
def idle (g : Globals) (consumed undelivered : List UInt8) (fin : Bool) : LinkState :=
  ⟨undelivered, fin, [], false, globalsAfter g consumed,
    .waiting ⟨false, (unmarshal consumed).index⟩⟩

/-- The task reads once more, with nothing left but the end of the stream. -/
def reading (g : Globals) (consumed : List UInt8) : LinkState :=
  { idle g consumed [] true with
    phase := .reading ⟨false, (unmarshal consumed).index⟩
      (laterBudget g.readsMaxBytes (entryAfter g consumed)) [] }

/-- A later read of a truncated stream leads back to the wait. -/
theorem leaveLoop_idle (hslice : g.expectsHeader = false) (ht : Truncated header payload part)
    (h : Announces header payload) (consumed piece : List UInt8) {more : List UInt8}
    (s : LinkState) {task : RecvTask} (hpart : consumed ++ piece ++ more = part)
    (hheader : kEachSliceHeaderLen ≤ (consumed ++ piece).length)
    (hposition : Position g consumed task s.globals) :
    s.leaveLoop task [] ⟨piece, false⟩ = { s with
      globals := globalsAfter g (consumed ++ piece)
      phase := .waiting ⟨false, (unmarshal (consumed ++ piece)).index⟩ } := by
  obtain ⟨hfields, hless⟩ := ht.missing h hpart hheader
  have hcLen := h.cLen_lt
  have hlong : (consumed ++ piece).length < 2 ^ 64 := by
    rw [payloadLen, kEachSliceHeaderLen] at hless
    omega
  rcases leaveLoop_cases [] hslice hlong hposition with ⟨rfl, hshort, -⟩ | ⟨-, heq⟩ | ⟨-, hdone, -⟩
  · rw [List.nil_append] at hheader
    omega
  · exact heq
  · rw [hfields] at hdone
    omega

/-- The first ten bytes arrive alone. -/
theorem reachable_idle_header (hslice : g.expectsHeader = false)
    (hbudget : kEachSliceHeaderLen < g.readsMaxBytes) (ht : Truncated header payload part)
    (h : Announces header payload) :
    (linkSystem g part).Reachable
      (idle g (part.take kEachSliceHeaderLen) (part.drop kEachSliceHeaderLen) false) := by
  have hlength : (part.take kEachSliceHeaderLen).length = kEachSliceHeaderLen :=
    List.length_take_of_le ht.header_le
  have hsplit := List.take_append_drop kEachSliceHeaderLen part
  have hadd : (linkSystem g part).step (linkSystem g part).init .add =
      some ⟨part, false, [], false, g, .waiting {}⟩ := rfl
  have hrun := run_piece g part ⟨part, false, [], false, g, .waiting {}⟩ rfl rfl rfl hsplit.symm
    (beginRead_first hslice) (List.ne_nil_of_length_pos (by rw [hlength]; decide))
    (by rw [hlength]; exact hbudget)
  have hidle := leaveLoop_idle hslice ht h [] (part.take kEachSliceHeaderLen)
    ⟨part.drop kEachSliceHeaderLen, false, [], false, g, .waiting {}⟩
    (by rw [List.nil_append, hsplit]) (by rw [List.nil_append, hlength]) (Or.inl ⟨rfl, rfl, rfl⟩)
  rw [List.nil_append] at hidle
  rw [hidle] at hrun
  exact ((TransitionSystem.Reachable.init _).next hadd).run hrun

/-- A later read may get one byte, as long as two are missing. -/
theorem one_lt_laterBudget {readsMaxBytes : ℕ} {info : FileSliceInfo} (hreads : 1 < readsMaxBytes)
    (hmissing : info.offset + 1 < info.cLen) (hlt : info.cLen < 2 ^ 64) :
    1 < laterBudget readsMaxBytes info := by
  have hsub : subSizeT info.cLen info.offset = info.cLen - info.offset :=
    subSizeT_of_le (by omega) hlt
  rw [laterBudget, hsub]
  by_cases hless : info.cLen - info.offset < readsMaxBytes
  · simp only [if_pos hless]
    rw [if_pos (by omega)]
    omega
  · simp only [if_neg hless]
    rw [if_neg (by omega)]
    exact hreads

/-- One byte arrives, is read, and the task waits again. -/
theorem run_byte (hslice : g.expectsHeader = false)
    (hbudget : kEachSliceHeaderLen < g.readsMaxBytes) (ht : Truncated header payload part)
    (h : Announces header payload) {consumed more : List UInt8} {byte : UInt8}
    (hpart : consumed ++ byte :: more = part) (hheader : kEachSliceHeaderLen ≤ consumed.length) :
    (linkSystem g part).run [.arrive 1, .wait, .read [], .read []]
        (idle g consumed (byte :: more) false) =
      some (idle g (consumed ++ [byte]) more false) := by
  have hpart' : consumed ++ [byte] ++ more = part := by
    rw [List.append_assoc]
    exact hpart
  have hheader' : kEachSliceHeaderLen ≤ (consumed ++ [byte]).length := by
    rw [List.length_append]
    omega
  have hfields := (ht.missing h hpart hheader).1
  have hless := (ht.missing h hpart' hheader').2
  have hcLen := unmarshal_cLen_lt consumed
  rw [payloadLen_append _ hheader, List.length_singleton, ← hfields] at hless
  have hroom : 1 < laterBudget g.readsMaxBytes (entryAfter g consumed) := by
    rw [kEachSliceHeaderLen] at hbudget
    exact one_lt_laterBudget (by omega) hless
      (show (unmarshal consumed).cLen < 2 ^ 64 by omega)
  have hrun := run_piece g part (idle g consumed (byte :: more) false) rfl rfl rfl
    (show byte :: more = [byte] ++ more from rfl) (beginRead_later g consumed)
    (List.cons_ne_nil _ _) hroom
  rw [leaveLoop_idle hslice ht h consumed [byte] _ hpart' hheader'
    (Or.inr ⟨rfl, hheader, rfl⟩)] at hrun
  exact hrun

/-- Each further byte arrives alone. -/
theorem reachable_idle (hslice : g.expectsHeader = false)
    (hbudget : kEachSliceHeaderLen < g.readsMaxBytes) (ht : Truncated header payload part)
    (h : Announces header payload) :
    (linkSystem g part).Reachable (idle g part [] false) := by
  obtain ⟨count, hcount⟩ : ∃ count, part.length = kEachSliceHeaderLen + count :=
    Nat.exists_eq_add_of_le ht.header_le
  have hlast : (linkSystem g part).Reachable (idle g (part.take (kEachSliceHeaderLen + count))
      (part.drop (kEachSliceHeaderLen + count)) false) := by
    refine TransitionSystem.Reachable.iterate (n := count)
      (f := fun k => idle g (part.take (kEachSliceHeaderLen + k))
        (part.drop (kEachSliceHeaderLen + k)) false)
      (reachable_idle_header hslice hbudget ht h) fun k hk => ?_
    have hlt : kEachSliceHeaderLen + k < part.length := by omega
    have hpart : part.take (kEachSliceHeaderLen + k) ++
        part[kEachSliceHeaderLen + k] :: part.drop (kEachSliceHeaderLen + k + 1) = part := by
      rw [← List.drop_eq_getElem_cons hlt, List.take_append_drop]
    have hrun := run_byte hslice hbudget ht h hpart (by rw [List.length_take]; omega)
    rw [← List.drop_eq_getElem_cons hlt, List.take_append_getElem hlt] at hrun
    exact ⟨_, hrun⟩
  rwa [← hcount, List.take_length, List.drop_length] at hlast

/-- The end of the stream arrives behind the last byte, and the `read` that gets it leads
back to the wait. -/
theorem reachable_stuck (hslice : g.expectsHeader = false)
    (hbudget : kEachSliceHeaderLen < g.readsMaxBytes) (ht : Truncated header payload part)
    (h : Announces header payload) :
    ∃ s, (watchedLink g part).Reachable (s, true) ∧ Stuck s := by
  obtain ⟨hfields, hless⟩ := ht.missing h (List.append_nil part) ht.header_le
  have hfin : (linkSystem g part).step (idle g part [] false) .arriveFin =
      some { idle g part [] true with edge := true } := rfl
  have hwait : (linkSystem g part).step { idle g part [] true with edge := true } .wait =
      some (reading g part) := by
    have hbegin : beginRead (idle g part [] true).globals ⟨false, (unmarshal part).index⟩ =
        .ok (globalsAfter g part, laterBudget g.readsMaxBytes (entryAfter g part)) :=
      beginRead_later g part
    simp only [linkSystem, linkStep, idle, reading] at hbegin ⊢
    simp [hbegin]
  have hread : (linkSystem g part).step (reading g part) (.read []) =
      some (idle g part [] true) := by
    have hleave := leaveLoop_idle hslice ht h part [] (reading g part)
      (show part ++ [] ++ [] = part by rw [List.append_nil, List.append_nil])
      (by rw [List.append_nil]; exact ht.header_le) (Or.inr ⟨rfl, ht.header_le, rfl⟩)
    rw [List.append_nil] at hleave
    have hend : (linkSystem g part).step (reading g part) (.read []) =
        some ((reading g part).leaveLoop ⟨false, (unmarshal part).index⟩ [] ⟨[], false⟩) := by
      simp [linkSystem, linkStep, reading, idle, LinkState.iterate, LinkState.readResult,
        readOnce, ReadResult.bytes, LinkState.leaveLoop]
    rw [hend, hleave]
    rfl
  have hreach := ((reachable_idle hslice hbudget ht h).next hfin).next hwait
  refine ⟨idle g part [] true, hreach.watching_of_event hread rfl,
    ⟨false, (unmarshal part).index⟩, rfl, rfl, rfl, rfl, Or.inr ⟨entryAfter g part, ?_, ?_⟩⟩
  · exact globalsAfter_mmap g part
  · show payloadLen part < (unmarshal part).cLen
    rwa [hfields]

end Truncated

/-! ## The result -/

/-- **The end of a truncated stream is never reported**: some run waits for ever behind
it, and in no run does the task return once `read` has returned zero. -/
theorem endOfStream_ignored (fileSize slicesNum : ℕ) (g : Globals) (header : SliceHeader)
    (payload part : List UInt8) (hrecorded : g.Recorded fileSize slicesNum)
    (h : Announces header payload) (ht : Truncated header payload part) :
    (∃ s, (watchedLink g part).Reachable (s, true) ∧ Stuck s) ∧
      ∀ s, (watchedLink g part).Reachable (s, true) → StillReceiving s := by
  have hbudget : kEachSliceHeaderLen < g.readsMaxBytes :=
    hrecorded.readsMaxBytes_eq ▸ kEachSliceHeaderLen_lt_readsMaxBytesFor _
  exact ⟨reachable_stuck hrecorded.expectsHeader hbudget ht h,
    fun s hreach => stillReceiving_of_sawEnd hrecorded.expectsHeader ht h hreach⟩

/-- A slice of three bytes of which one arrives. -/
theorem endOfStream_ignored_short :
    (∃ s, (watchedLink (recordHeader 4 1 Globals.initial)
        (headerBytes 0 4 3 ++ [7])).Reachable (s, true) ∧ Stuck s) ∧
      ¬ ∃ s, (watchedLink (recordHeader 4 1 Globals.initial)
        (headerBytes 0 4 3 ++ [7])).Reachable (s, true) ∧
          s.phase = .left (.exited (.returned (-1))) := by
  obtain ⟨hstuck, hgoes⟩ := endOfStream_ignored 4 1 (recordHeader 4 1 Globals.initial) ⟨0, 4, 3⟩
    [7, 8, 9] (headerBytes 0 4 3 ++ [7]) (recorded_recordHeader 4 1 _)
    ⟨by decide, by decide, by decide, rfl⟩ ⟨by decide, by decide, by decide⟩
  refine ⟨hstuck, ?_⟩
  rintro ⟨s, hreach, hreturned⟩
  obtain ⟨task, info, hphase, -⟩ := hgoes s hreach
  rw [hreturned] at hphase
  rcases hphase with hwaiting | ⟨nLeft, bytes, hreading⟩
  · cases hwaiting
  · cases hreading

/-- Only the header of a slice arrives, and the connection is closed. -/
theorem endOfStream_ignored_header :
    ¬ ∀ s, (watchedLink (recordHeader 4 1 Globals.initial) (headerBytes 0 4 3)).Reachable
      (s, true) → s.phase = .left (.exited (.returned (-1))) := by
  intro hreports
  have htruncated : Truncated ⟨0, 4, 3⟩ [7, 8, 9] (headerBytes 0 4 3) :=
    ⟨by decide, by decide, by decide⟩
  obtain ⟨s, hreach, task, hwaiting, -⟩ := reachable_stuck
    (recorded_recordHeader 4 1 Globals.initial).expectsHeader (by decide) htruncated
    ⟨by decide, by decide, by decide, rfl⟩
  rw [hreports s hreach] at hwaiting
  cases hwaiting

end SliceTransfer
