import SliceTransfer.FileHeader
import SliceTransfer.Framing

/-!
# How the stream is cut

A conforming sender writes the text header on its first connection and a slice
stream on each later one.  TCP may cut each message into pieces at will; the
receiver treats one piece per wake-up.  It makes of the pieces what the whole
message says in exactly two situations (`fragmentation_iff`):

* the text header arrives in one piece, because the header branch returns after the
  first read;
* the first piece of a slice stream contains the ten header bytes, because the first
  read is unmarshalled whatever its length.
-/

namespace SliceTransfer

open Server Decimal

/-- A message, with the globals of the receiver when the connection is served. -/
inductive Message
  | fileHeader (fileSize slicesNum : ℕ)
  | slice (g : Globals) (header : SliceHeader) (payload : List UInt8)

namespace Message

/-- What a conforming sender may write. -/
def WellFormed : Message → Prop
  | .fileHeader fileSize slicesNum => 1 ≤ fileSize ∧ fileSize < 2 ^ 64 ∧ 1 ≤ slicesNum ∧
      slicesNum ≤ 65535 ∧ (headerText fileSize slicesNum).length ≤ kFileSliceHeaderLen + 1
  | .slice g header payload => (∃ fileSize slicesNum, 1 ≤ fileSize ∧ 1 ≤ slicesNum ∧
      g.Recorded fileSize slicesNum) ∧ 1 ≤ header.cLen ∧ Announces header payload

def bytes : Message → List UInt8
  | .fileHeader fileSize slicesNum => headerText fileSize slicesNum
  | .slice _ header payload => sliceStream header payload

def globals : Message → Globals
  | .fileHeader _ _ => Globals.initial
  | .slice g _ _ => g

/-- The entry of a slice after `k` of `count` pieces: the fields are those of the
header, and the payload is complete exactly when the last piece has been read. -/
def EntryAsSent (header : SliceHeader) (payload : List UInt8) (k count : ℕ) (r : StepResult) :
    Prop :=
  ∃ info, r.globals.mmap header.index = some info ∧ info.index = header.index ∧
    info.len = header.len ∧ info.cLen = header.cLen ∧ (info.offset = info.cLen ↔ k = count) ∧
    (k = count → info.cBuf = payload ∧ r.status = .complete header.index)

/-- The receiver makes of the wake-ups what the whole message says.  For a slice this
is said of every initial part of the run, which then makes no negative copy. -/
def Handled (m : Message) (events : List RecvEvent) : Prop :=
  match m with
  | .fileHeader fileSize slicesNum =>
      ∀ r, receiveRun m.globals (.waiting {}) events = some r → r.globals.fileSize = fileSize ∧
        r.globals.slicesNum = slicesNum ∧ r.globals.splitLen = fileSize / slicesNum
  | .slice _ header payload =>
      ∀ k ≤ events.length, ∀ r, receiveRun m.globals (.waiting {}) (events.take k) = some r →
        (∀ exit, r.status ≠ .exited exit) ∧
          (1 ≤ k → EntryAsSent header payload k events.length r)

/-- The cuts that the receiver copes with. -/
def CutBehindHeader (m : Message) (pieces : List (List UInt8)) : Prop :=
  match m with
  | .fileHeader _ _ => pieces.length = 1
  | .slice _ _ _ => ∃ first ∈ pieces.head?, kEachSliceHeaderLen ≤ first.length

end Message

/-! ## Pieces of a message -/

/-- A proper initial part of the pieces does not make up the message. -/
theorem length_le_of_flatten_take {pieces : List (List UInt8)} {k : ℕ}
    (hne : ∀ piece ∈ pieces, piece ≠ [])
    (h : pieces.flatten.length ≤ (pieces.take k).flatten.length) : pieces.length ≤ k := by
  by_contra hlt
  have hdrop : pieces.drop k ≠ [] := by
    intro hnil
    exact hlt (List.drop_eq_nil_iff.mp hnil)
  obtain ⟨piece, rest, hcons⟩ := List.exists_cons_of_ne_nil hdrop
  have hpiece : piece ≠ [] := hne piece (List.mem_of_mem_drop (hcons ▸ List.mem_cons_self ..))
  have hsplit : (pieces.take k).flatten ++ (pieces.drop k).flatten = pieces.flatten := by
    rw [← List.flatten_append, List.take_append_drop]
  have hlen := congrArg List.length hsplit
  have hpos := List.length_pos_of_ne_nil hpiece
  rw [hcons, List.flatten_cons, List.length_append, List.length_append] at hlen
  omega

/-- The payload is complete exactly when no piece is left. -/
theorem payloadLen_take_eq_iff {pieces : List (List UInt8)} {cLen k : ℕ}
    (hne : ∀ piece ∈ pieces, piece ≠ [])
    (htotal : pieces.flatten.length = kEachSliceHeaderLen + cLen) (hk : k ≤ pieces.length)
    (hlong : kEachSliceHeaderLen ≤ (pieces.take k).flatten.length) :
    payloadLen (pieces.take k).flatten = cLen ↔ k = pieces.length := by
  constructor
  · intro heq
    have hge : pieces.length ≤ k := by
      apply length_le_of_flatten_take hne
      rw [htotal, ← heq, payloadLen]
      omega
    omega
  · rintro rfl
    rw [List.take_length, payloadLen, htotal]
    omega

/-- After `k` pieces of a slice stream whose first piece holds the header, exactly
these pieces have been consumed. -/
theorem receiveRun_pieces {g : Globals} {first : List UInt8} {rest : List (List UInt8)}
    {events : List RecvEvent} {k : ℕ} {r : StepResult} (hslice : g.expectsHeader = false)
    (hreads : g.readsMaxBytes < 2 ^ 64) (hdelivers : List.Forall₂ Delivers (first :: rest) events)
    (hne : ∀ piece ∈ first :: rest, piece ≠ []) (hheader : kEachSliceHeaderLen ≤ first.length)
    (hpos : 1 ≤ (unmarshal first).cLen)
    (htotal : (first :: rest).flatten.length = kEachSliceHeaderLen + (unmarshal first).cLen)
    (hk : k + 1 ≤ (first :: rest).length)
    (hr : receiveRun g (.waiting {}) (events.take (k + 1)) = some r) :
    r.globals = globalsAfter g ((first :: rest).take (k + 1)).flatten ∧
      r.status = statusAfter ((first :: rest).take (k + 1)).flatten := by
  have htaken : List.Forall₂ Delivers ((first :: rest).take (k + 1)) (events.take (k + 1)) :=
    List.forall₂_take (k + 1) hdelivers
  rw [List.take_succ_cons] at htaken
  have hpart : payloadLen first ≤ (unmarshal first).cLen := by
    rw [List.flatten_cons, List.length_append] at htotal
    rw [payloadLen]
    omega
  obtain ⟨j, hj, hjk, hglobals, hstatus, hle, hall, -⟩ :=
    receiveRun_slice hslice hreads htaken hheader hpos hpart hr
  have hlength : ((first :: rest).take (k + 1)).length = k + 1 := List.length_take_of_le hk
  rw [← List.take_succ_cons] at hjk hglobals hstatus hle hall
  rw [hlength] at hjk hall
  rw [List.take_take, Nat.min_eq_left hjk] at hglobals hstatus hle hall
  -- no piece is left over, since a missing one would hold missing bytes
  have hconsumed : j = k + 1 := by
    rcases hle.lt_or_eq with hless | heq
    · exact hall hless
    · have hlong : kEachSliceHeaderLen ≤ ((first :: rest).take j).flatten.length := by
        rw [payloadLen] at heq
        omega
      have := (payloadLen_take_eq_iff hne htotal (by omega) hlong).mp heq
      omega
  subst hconsumed
  exact ⟨hglobals, hstatus⟩

/-! ## The two kinds of messages -/

theorem fileHeader_handled_iff {fileSize slicesNum : ℕ} {pieces : List (List UInt8)}
    {events : List RecvEvent} {last : StepResult}
    (hwf : (Message.fileHeader fileSize slicesNum).WellFormed)
    (hcut : pieces.flatten = headerText fileSize slicesNum)
    (hne : ∀ piece ∈ pieces, piece ≠ []) (hdelivers : List.Forall₂ Delivers pieces events)
    (hrun : receiveRun Globals.initial (.waiting {}) events = some last) :
    (Message.fileHeader fileSize slicesNum).Handled events ↔ pieces.length = 1 := by
  obtain ⟨-, hsize, hpos, hnum, -⟩ := hwf
  obtain ⟨first, rest, rfl⟩ : ∃ first rest, pieces = first :: rest := by
    apply List.exists_cons_of_ne_nil
    rintro rfl
    have hlen := length_headerText fileSize slicesNum
    rw [← hcut] at hlen
    simp at hlen
  obtain ⟨event, events, hfirst, -, rfl⟩ := List.forall₂_cons_left_iff.mp hdelivers
  obtain ⟨next, later, hnext, hlater, rfl⟩ := receiveRun_cons hrun
  obtain ⟨-, hglobals, hstatus⟩ := receive_header expectsHeader_initial hfirst hnext
  -- the task exits after the first piece, whatever it was
  rw [hstatus, receiveRun_stopped _ (by simp), Option.some_inj] at hlater
  subst hlater
  have hpart : first = (headerText fileSize slicesNum).take first.length := by
    rw [← hcut, List.flatten_cons, List.take_left]
  constructor
  · intro handled
    obtain ⟨-, hcount, -⟩ := handled _ hrun
    change next.globals.slicesNum = slicesNum at hcount
    by_contra hmore
    have hlonger : first.length < (headerText fileSize slicesNum).length := by
      have hone := length_le_of_flatten_take (k := 1) hne
      rw [hcut, List.length_cons, List.take_succ_cons, List.take_zero, List.flatten_cons,
        List.flatten_nil, List.append_nil] at hone
      by_contra hge
      exact hmore (le_antisymm (hone (Nat.not_lt.mp hge)) (by simp))
    rw [hglobals, hpart] at hcount
    exact slicesNum_processHeader_take_ne _ hsize hpos (by omega) rfl hlonger hcount
  · intro hone r hr
    have hrest : rest = [] := List.length_eq_zero_iff.mp (by simpa using hone)
    have hwhole : first = headerText fileSize slicesNum := by
      rw [← hcut, hrest, List.flatten_cons, List.flatten_nil, List.append_nil]
    obtain rfl := Option.some_inj.mp (hr.symm.trans hrun)
    change next.globals.fileSize = _ ∧ next.globals.slicesNum = _ ∧ next.globals.splitLen = _
    rw [hglobals, hwhole, processHeader_headerText _ hsize hpos (by omega)]
    exact ⟨rfl, rfl, rfl⟩

/-- The entry behind the bytes `consumed`, which start with the header. -/
theorem entryAsSent_of_consumed {g : Globals} {header : SliceHeader}
    {payload consumed : List UInt8} {k count : ℕ} {r : StepResult}
    (hglobals : r.globals = globalsAfter g consumed) (hstatus : r.status = statusAfter consumed)
    (hfields : unmarshal consumed = header)
    (hfull : payloadLen consumed = header.cLen ↔ k = count)
    (hall : k = count → consumed = sliceStream header payload) :
    Message.EntryAsSent header payload k count r := by
  refine ⟨entryAfter g consumed, ?_, congrArg SliceHeader.index hfields,
    congrArg SliceHeader.len hfields, congrArg SliceHeader.cLen hfields, ?_, fun hlast => ?_⟩
  · rw [hglobals, ← hfields]
    exact globalsAfter_mmap ..
  · change payloadLen consumed = (unmarshal consumed).cLen ↔ _
    rw [hfields]
    exact hfull
  · constructor
    · change consumed.drop kEachSliceHeaderLen = payload
      rw [hall hlast, sliceStream, ← length_headerBytes header.index header.len header.cLen,
        List.drop_left]
    · rw [hstatus, statusAfter, hfields, if_pos (hfull.mpr hlast).symm]

/-- A first piece without the whole header: the first wake-up alone goes wrong. -/
theorem not_handled_of_short {g : Globals} {header : SliceHeader} {payload first : List UInt8}
    {rest : List (List UInt8)} {events : List RecvEvent} {last : StepResult}
    (hexpects : g.expectsHeader = false)
    (hdelivers : List.Forall₂ Delivers (first :: rest) events)
    (hrun : receiveRun g (.waiting {}) events = some last)
    (hshort : first.length < kEachSliceHeaderLen) :
    ¬ (Message.slice g header payload).Handled events := by
  intro handled
  obtain ⟨r, hr⟩ := receiveRun_take hrun 1
  obtain ⟨event, events, hfirst, -, rfl⟩ := List.forall₂_cons_left_iff.mp hdelivers
  obtain ⟨hrunning, -⟩ := handled 1 (by simp) r hr
  obtain ⟨next, later, hnext, hlater, rfl⟩ := receiveRun_cons hr
  have hstatus := receive_first_short hexpects hfirst hnext hshort
  rw [hstatus, List.take_zero, receiveRun, Option.some_inj] at hlater
  subst hlater
  exact hrunning _ rfl

theorem slice_handled_iff {g : Globals} {header : SliceHeader} {payload : List UInt8}
    {pieces : List (List UInt8)} {events : List RecvEvent} {last : StepResult}
    (hwf : (Message.slice g header payload).WellFormed)
    (hcut : pieces.flatten = sliceStream header payload)
    (hne : ∀ piece ∈ pieces, piece ≠ []) (hdelivers : List.Forall₂ Delivers pieces events)
    (hrun : receiveRun g (.waiting {}) events = some last) :
    (Message.slice g header payload).Handled events ↔
      ∃ first ∈ pieces.head?, kEachSliceHeaderLen ≤ first.length := by
  obtain ⟨⟨fileSize, slicesNum, -, -, hrecorded⟩, hpos, hannounces⟩ := hwf
  have htotal : pieces.flatten.length = kEachSliceHeaderLen + header.cLen := by
    rw [hcut, length_sliceStream hannounces]
  obtain ⟨first, rest, rfl⟩ : ∃ first rest, pieces = first :: rest := by
    apply List.exists_cons_of_ne_nil
    rintro rfl
    rw [List.flatten_nil, List.length_nil] at htotal
    omega
  have hevents := hdelivers.length_eq
  constructor
  · intro handled
    refine ⟨first, rfl, ?_⟩
    by_contra hshort
    exact not_handled_of_short hrecorded.expectsHeader hdelivers hrun (Nat.not_le.mp hshort)
      handled
  · rintro ⟨first', hfirst', hheader⟩ k hk r hr
    obtain rfl : first = first' := Option.some_inj.mp hfirst'
    rw [← hevents] at hk ⊢
    cases k with
    | zero =>
        rw [List.take_zero, receiveRun, Option.some_inj] at hr
        subst hr
        exact ⟨by simp, by omega⟩
    | succ k =>
        have hfields : unmarshal first = header :=
          unmarshal_of_append_eq hannounces (List.flatten_cons.symm.trans hcut) hheader
        obtain ⟨hglobals, hstatus⟩ := receiveRun_pieces hrecorded.expectsHeader
          hrecorded.readsMaxBytes_lt hdelivers hne hheader (hfields ▸ hpos) (hfields ▸ htotal) hk hr
        have hfields' : unmarshal ((first :: rest).take (k + 1)).flatten = header := by
          rw [unmarshal_flatten_take rest hheader (by omega), hfields]
        have hlong : kEachSliceHeaderLen ≤ ((first :: rest).take (k + 1)).flatten.length := by
          rw [List.take_succ_cons, List.flatten_cons, List.length_append]
          omega
        have hfull := payloadLen_take_eq_iff hne htotal hk hlong
        refine ⟨?_, fun _ => ?_⟩
        · intro exit
          rw [hstatus, statusAfter]
          split <;> simp
        · refine entryAsSent_of_consumed hglobals hstatus hfields' hfull fun hlast => ?_
          rw [hlast, List.take_length, hcut]

/-! ## The result -/

/-- **The receiver makes of the pieces what the whole message says exactly when a
text header comes in one piece, and the first piece of a slice stream holds its ten
header bytes.** -/
theorem fragmentation_iff (m : Message) (pieces : List (List UInt8)) (events : List RecvEvent)
    (last : StepResult) (hwf : m.WellFormed) (hcut : pieces.flatten = m.bytes)
    (hne : ∀ piece ∈ pieces, piece ≠ []) (hdelivers : List.Forall₂ Delivers pieces events)
    (hrun : receiveRun m.globals (.waiting {}) events = some last) :
    m.Handled events ↔ m.CutBehindHeader pieces := by
  cases m with
  | fileHeader fileSize slicesNum =>
      exact fileHeader_handled_iff hwf hcut hne hdelivers hrun
  | slice g header payload => exact slice_handled_iff hwf hcut hne hdelivers hrun

/-- A slice stream of 13 bytes, cut behind its twelfth byte. -/
theorem fragmentation_behind_header :
    (Message.slice (recordHeader 4 1 Globals.initial) ⟨0, 4, 3⟩ [7, 8, 9]).Handled
      [.readable [] [.data [0, 0, 0, 0, 0, 4, 0, 0, 0, 3, 7, 8], .eagain],
        .readable [] [.data [9]]] := by
  refine (fragmentation_iff (.slice (recordHeader 4 1 Globals.initial) ⟨0, 4, 3⟩ [7, 8, 9])
    [[0, 0, 0, 0, 0, 4, 0, 0, 0, 3, 7, 8], [9]] _ _
    ⟨⟨4, 1, by decide, by decide, recorded_recordHeader 4 1 _⟩, by decide,
      ⟨by decide, by decide, by decide, by decide⟩⟩ (by decide) (by decide)
    ?_ rfl).mpr ⟨_, rfl, by decide⟩
  exact .cons ⟨_, _, by decide, rfl⟩ (.cons ⟨_, _, by decide, rfl⟩ .nil)

/-- The same stream, cut behind its fourth byte. -/
theorem fragmentation_within_header :
    ∃ events last, List.Forall₂ Delivers [[0, 0, 0, 0], [0, 4, 0, 0, 0, 3, 7, 8, 9]] events ∧
      (Message.slice (recordHeader 4 1 Globals.initial) ⟨0, 4, 3⟩ [7, 8, 9]).WellFormed ∧
      [[0, 0, 0, 0], [0, 4, 0, 0, 0, 3, 7, 8, 9]].flatten =
        (Message.slice (recordHeader 4 1 Globals.initial) ⟨0, 4, 3⟩ [7, 8, 9]).bytes ∧
      receiveRun (recordHeader 4 1 Globals.initial) (.waiting {}) events = some last ∧
      ¬ (Message.slice (recordHeader 4 1 Globals.initial) ⟨0, 4, 3⟩ [7, 8, 9]).Handled events := by
  have hwf : (Message.slice (recordHeader 4 1 Globals.initial) ⟨0, 4, 3⟩ [7, 8, 9]).WellFormed :=
    ⟨⟨4, 1, by decide, by decide, recorded_recordHeader 4 1 _⟩, by decide,
      ⟨by decide, by decide, by decide, by decide⟩⟩
  have hdelivers : List.Forall₂ Delivers [[0, 0, 0, 0], [0, 4, 0, 0, 0, 3, 7, 8, 9]]
      [.readable [] [.data [0, 0, 0, 0], .eagain],
        .readable [] [.data [0, 4, 0, 0, 0, 3, 7, 8, 9], .eagain]] :=
    .cons ⟨_, _, by decide, rfl⟩ (.cons ⟨_, _, by decide, rfl⟩ .nil)
  refine ⟨_, _, hdelivers, hwf, by decide, rfl, ?_⟩
  rw [slice_handled_iff hwf (by decide) (by decide) hdelivers rfl]
  rintro ⟨first, hfirst, hheader⟩
  obtain rfl := Option.some_inj.mp hfirst
  exact absurd hheader (by decide)

end SliceTransfer
