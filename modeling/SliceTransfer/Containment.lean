import SliceTransfer.Receiver.Reassembly

/-!
# What a peer can make the receiver touch

After a file header has been recorded, a peer chooses the ten header bytes of a
slice stream, its payload and the pieces it arrives in.  `Contained` says that the
receiver stays inside `c_buf_` and inside the output file whatever zstd then does
within its contract.  Three things have to come together (`StaysInside`,
`contained_iff`):

* the first piece is no longer than the slice, since its payload is copied whole;
* after an announced compressed size of zero nothing more arrives, since a budget of
  zero stands for no limit;
* a slice that completes has a length, since zero stands for "not a whole slice" and
  lifts the limit of the output, and the range it names lies in the file.
-/

namespace SliceTransfer.Server

open Bytes

/-- Stores into `c_buf_` end at or before `cLen`, what zstd is offered ends at or
before `fileSize`. -/
def Effect.Inside (cLen fileSize : ℕ) : Effect → Prop
  | .storeCBuf _ stop => stop ≤ cLen
  | .offerOut start size => start + size ≤ fileSize
  | _ => True

theorem Effect.Receives.inside {cLen : ℕ} {e : Effect} (h : e.Receives cLen) (fileSize : ℕ) :
    e.Inside cLen fileSize := by
  cases e with
  | storeCBuf start stop => exact h
  | offerOut start size => exact False.elim h
  | _ => trivial

/-- At every wake-up the entry and the stores stay inside `c_buf_`, and so does, for
every zstd that keeps its contract, the output of a slice that completes. -/
structure Contained (g : Globals) (outSize : ℕ) (header : SliceHeader) (events : List RecvEvent) :
    Prop where
  received : ∀ k, 1 ≤ k → ∀ r, receiveRun g (.waiting {}) (events.take k) = some r →
    (∀ info, r.globals.mmap header.index = some info → info.offset ≤ info.cLen) ∧
      ∀ e ∈ r.effects, e.Inside header.cLen g.fileSize
  finished : ∀ r, receiveRun g (.waiting {}) events = some r →
    ∀ (D : Type) (z : ZstdDecompress D), z.Bounded → z.dStreamOutSize = outSize →
      ∀ fuel, ∀ e ∈ (r.finish z fuel).effects, e.Inside header.cLen g.fileSize

/-- The streams, as cut, that the receiver copes with. -/
structure StaysInside (g : Globals) (first : List UInt8) (rest : List (List UInt8)) : Prop where
  payload_le : payloadLen first ≤ (unmarshal first).cLen
  nothing_more : (unmarshal first).cLen = 0 → ∀ second ∈ rest.head?, second = []
  placed : 1 ≤ (unmarshal first).cLen →
    kEachSliceHeaderLen + (unmarshal first).cLen ≤ (first :: rest).flatten.length →
    1 ≤ (unmarshal first).len ∧
      bufOffset g (unmarshal first).index + (unmarshal first).len ≤ g.fileSize

/-! ## What zstd is offered -/

section Zstd

variable {D : Type} {z : ZstdDecompress D}

/-- A zstd that fills what it is offered and consumes nothing, as one may that has
been given a frame of enormous regenerated size. -/
def flooding (outSize : ℕ) : ZstdDecompress Unit where
  createDCtx := some ()
  dStreamOutSize := outSize
  decompressStream _ size _ := some ⟨(), 0, List.replicate size 0⟩

theorem flooding_bounded (outSize : ℕ) : (flooding outSize).Bounded := by
  constructor
  · rintro - size input call ⟨⟩
    exact Nat.zero_le _
  · rintro - size input call ⟨⟩
    exact List.length_replicate.le

/-- Not in whole-slice mode, each call is offered the same room, further on. -/
theorem mem_flooding (outSize outIndex : ℕ) {fuel k : ℕ} {input : List UInt8} (hne : input ≠ [])
    (hk : k < fuel) :
    ∃ w ∈ (decompressLoop (flooding outSize) false outSize fuel () input outIndex).1,
      w.start = outIndex + k * outSize ∧ w.size = outSize := by
  induction fuel generalizing k outIndex with
  | zero => omega
  | succ fuel ih =>
      have hcall : (flooding outSize).decompressStream () (offered false outSize outIndex) input =
          some ⟨(), 0, List.replicate outSize 0⟩ := rfl
      rw [decompressLoop_call fuel hne hcall]
      cases k with
      | zero => exact ⟨_, List.mem_cons_self .., by simp, rfl⟩
      | succ k =>
          obtain ⟨w, hw, hstart, hsize⟩ := ih
            (outIndex + (List.replicate outSize (0 : UInt8)).length) (k := k) (by omega)
          refine ⟨w, List.mem_cons_of_mem _ hw, ?_, hsize⟩
          rw [hstart, List.length_replicate, Nat.add_one_mul]
          omega

/-- The completion of a slice offers zstd its windows, and then only closes. -/
theorem finish_effects {r : StepResult} {index : ℕ} {info : FileSliceInfo} (fuel : ℕ)
    (hstatus : r.status = .complete index) (hinfo : r.globals.mmap index = some info) :
    ∃ tail, (∀ e ∈ tail, e = .closeConn ∨ e = .closeEpoll) ∧
      (r.finish z fuel).effects = r.effects ++
        ((decompress z fuel (info.cBuf.take info.cLen) info.len).1.map fun w =>
          Effect.offerOut (info.buf.getD 0 + w.start) w.size) ++ tail := by
  rw [StepResult.finish, hstatus]
  simp only [finishSlice, hinfo]
  cases storeOutput r.globals info
      (decompress z fuel (info.cBuf.take info.cLen) info.len).1 with
  | error fault => exact ⟨[], by simp, by simp⟩
  | ok g =>
      refine ⟨if (decompress z fuel (info.cBuf.take info.cLen) info.len).2.isSome then
        [.closeConn, .closeEpoll] else [], ?_, by simp⟩
      intro e he
      split at he
      · simpa using he
      · simp at he

/-- In whole-slice mode the windows end where the slice ends. -/
theorem decompress_window_le (hz : z.Bounded) {outBufSize : ℕ} (hpos : 1 ≤ outBufSize)
    (hlt : outBufSize < 2 ^ 64) (fuel : ℕ) (input : List UInt8) {w : OutWindow}
    (hw : w ∈ (decompress z fuel input outBufSize).1) : w.start + w.size = outBufSize := by
  have hne : outBufSize ≠ 0 := by omega
  cases hctx : z.createDCtx with
  | none => simp [decompress, hctx] at hw
  | some dctx =>
      rw [decompress_of_createDCtx hctx, decide_eq_true hne, if_neg hne] at hw
      exact window_eq_of_mem_decompressLoop hz hlt fuel dctx input (Nat.zero_le _) hw

/-- Nothing to decompress, nothing offered. -/
theorem decompress_nil (fuel outBufSize : ℕ) : (decompress z fuel [] outBufSize).1 = [] := by
  cases hctx : z.createDCtx with
  | none => simp [decompress, hctx]
  | some dctx =>
      rw [decompress_of_createDCtx hctx]
      cases fuel with
      | zero => rfl
      | succ fuel => rw [decompressLoop_nil]

/-- The flooding zstd is offered more than any given range, unless it is in
whole-slice mode, where it is offered the slice. -/
theorem decompress_flooding {outSize : ℕ} (hpos : 1 ≤ outSize) {input : List UInt8}
    (hne : input ≠ []) (limit : ℕ) {outBufSize : ℕ} (hlt : outBufSize < 2 ^ 64) :
    ∃ fuel, ∃ w ∈ (decompress (flooding outSize) fuel input outBufSize).1,
      if outBufSize = 0 then limit < w.start + w.size else w.start + w.size = outBufSize := by
  have hctx : (flooding outSize).createDCtx = some () := rfl
  by_cases hzero : outBufSize = 0
  · refine ⟨limit + 1, ?_⟩
    rw [decompress_of_createDCtx hctx, hzero, if_pos rfl]
    obtain ⟨w, hw, hstart, hsize⟩ := mem_flooding outSize 0 hne
      (Nat.lt_succ_self limit)
    refine ⟨w, hw, ?_⟩
    rw [if_pos rfl, hstart, hsize]
    calc limit ≤ limit * outSize := Nat.le_mul_of_pos_right limit hpos
      _ < 0 + limit * outSize + outSize := by omega
  · refine ⟨1, ?_⟩
    have hcall : (flooding outSize).decompressStream () (offered true outBufSize 0) input =
        some ⟨(), 0, List.replicate (offered true outBufSize 0) 0⟩ := rfl
    have hmem : ⟨0, offered true outBufSize 0, List.replicate (offered true outBufSize 0) 0⟩ ∈
        (decompress (flooding outSize) 1 input outBufSize).1 := by
      rw [decompress_of_createDCtx hctx, decide_eq_true hzero, if_neg hzero,
        decompressLoop_call 0 hne hcall]
      exact List.mem_cons_self ..
    refine ⟨_, hmem, ?_⟩
    rw [if_neg hzero]
    exact decompress_window_le (flooding_bounded outSize) (by omega) hlt 1 input hmem

end Zstd

/-! ## The first wake-ups -/

section Run

variable {fileSize slicesNum outSize : ℕ} {g : Globals} {first : List UInt8}
  {rest : List (List UInt8)} {events : List RecvEvent} {last : StepResult}

/-- The copy of a first piece that is too long is the first effect that leaves `c_buf_`. -/
theorem payload_le_of_contained (hrecorded : g.Recorded fileSize slicesNum)
    (hdelivers : List.Forall₂ Delivers (first :: rest) events)
    (hheader : kEachSliceHeaderLen ≤ first.length)
    (hrun : receiveRun g (.waiting {}) events = some last)
    (h : Contained g outSize (unmarshal first) events) :
    payloadLen first ≤ (unmarshal first).cLen := by
  obtain ⟨r, hr⟩ := receiveRun_take hrun 1
  obtain ⟨-, hinside⟩ := h.received 1 (le_refl _) r hr
  obtain ⟨event, events, hfirst, -, rfl⟩ := List.forall₂_cons_left_iff.mp hdelivers
  obtain ⟨next, later, hnext, -, rfl⟩ := receiveRun_cons hr
  obtain ⟨-, -, heffects⟩ := receive_first hrecorded.expectsHeader hrecorded.readsMaxBytes_lt
    hfirst hnext hheader
  by_cases hnone : payloadLen first = 0
  · rw [hnone]
    exact Nat.zero_le _
  · refine hinside (.storeCBuf 0 (payloadLen first)) (List.mem_append_left _ ?_)
    simp [heffects, hnone]

theorem length_le_readsMaxBytes {event : RecvEvent} {r : StepResult} {bytes piece : List UInt8}
    (hdelivers : Delivers piece event)
    (hr : receive (globalsAfter g bytes) ⟨false, (unmarshal bytes).index⟩ event = some r) :
    piece.length ≤ g.readsMaxBytes := by
  obtain ⟨hlen, -⟩ := receive_delivers hdelivers hr (beginRead_later g bytes)
  refine hlen.trans ?_
  simp only [laterBudget]
  split
  · split
    · omega
    · exact le_refl _
  · simp

/-- The first two wake-ups of a stream that announces no payload and has ten bytes so far. -/
theorem receiveRun_two {second : List UInt8} {event event' : RecvEvent} {events : List RecvEvent}
    {r : StepResult} (hrecorded : g.Recorded fileSize slicesNum)
    (hfirst : Delivers first event) (hsecond : Delivers second event')
    (hheader : kEachSliceHeaderLen ≤ first.length) (hnone : payloadLen first = 0)
    (hr : receiveRun g (.waiting {}) (event :: event' :: events) = some r) :
    ∃ later, receiveRun (globalsAfter g (first ++ second)) (statusAfter (first ++ second)) events =
        some later ∧ r.globals = later.globals ∧ r.status = later.status ∧
      r.effects = [.allocReadBuf g.readsMaxBytes, .allocCBuf (unmarshal first).cLen, .freeReadBuf,
        .storeCBuf 0 second.length] ++ later.effects := by
  obtain ⟨next, later, hnext, hlater, rfl⟩ := receiveRun_cons hr
  obtain ⟨hglobals, hstatus, heffects⟩ := receive_first hrecorded.expectsHeader
    hrecorded.readsMaxBytes_lt hfirst hnext hheader
  rw [hglobals, hstatus, firstStatus, if_pos hnone] at hlater
  obtain ⟨next', later', hnext', hlater', rfl⟩ := receiveRun_cons hlater
  have hlen := length_le_readsMaxBytes hsecond hnext'
  have hpayload : payloadLen (first ++ second) = second.length := by
    rw [payloadLen_append second hheader, hnone, Nat.zero_add]
  obtain ⟨hglobals', hstatus', heffects'⟩ := receive_later hheader
    (by rw [hpayload]; exact hlen.trans_lt hrecorded.readsMaxBytes_lt) hsecond hnext'
  refine ⟨later', ?_, rfl, rfl, ?_⟩
  · rw [← hglobals', ← hstatus']
    exact hlater'
  · simp [heffects, heffects', hnone, hpayload]

theorem nothing_more_of_contained (hrecorded : g.Recorded fileSize slicesNum)
    (hdelivers : List.Forall₂ Delivers (first :: rest) events)
    (hheader : kEachSliceHeaderLen ≤ first.length)
    (hrun : receiveRun g (.waiting {}) events = some last)
    (h : Contained g outSize (unmarshal first) events) (hzero : (unmarshal first).cLen = 0) :
    ∀ second ∈ rest.head?, second = [] := by
  intro second hhead
  obtain ⟨others, rfl⟩ : ∃ others, rest = second :: others := by
    cases rest with
    | nil => cases hhead
    | cons piece others => exact ⟨others, by rw [Option.some_inj.mp hhead]⟩
  have hnone : payloadLen first = 0 := by
    have := payload_le_of_contained hrecorded hdelivers hheader hrun h
    omega
  obtain ⟨r, hr⟩ := receiveRun_take hrun 2
  obtain ⟨-, hinside⟩ := h.received 2 (by omega) r hr
  obtain ⟨event, events, hfirst, hrest, rfl⟩ := List.forall₂_cons_left_iff.mp hdelivers
  obtain ⟨event', events, hsecond, -, rfl⟩ := List.forall₂_cons_left_iff.mp hrest
  obtain ⟨later, -, -, -, heffects⟩ := receiveRun_two hrecorded hfirst hsecond hheader hnone hr
  have hstore : second.length ≤ (unmarshal first).cLen :=
    hinside (.storeCBuf 0 second.length) (by simp [heffects])
  exact List.length_eq_zero_iff.mp (by omega)

theorem placed_of_contained (hrecorded : g.Recorded fileSize slicesNum) (hsize : 1 ≤ outSize)
    (hdelivers : List.Forall₂ Delivers (first :: rest) events)
    (hheader : kEachSliceHeaderLen ≤ first.length)
    (hrun : receiveRun g (.waiting {}) events = some last)
    (h : Contained g outSize (unmarshal first) events) (hpos : 1 ≤ (unmarshal first).cLen)
    (htotal : kEachSliceHeaderLen + (unmarshal first).cLen ≤ (first :: rest).flatten.length) :
    1 ≤ (unmarshal first).len ∧
      bufOffset g (unmarshal first).index + (unmarshal first).len ≤ g.fileSize := by
  have hfits := payload_le_of_contained hrecorded hdelivers hheader hrun h
  obtain ⟨k, hk, -, hglobals, hstatus, hle, hall, -⟩ := receiveRun_slice hrecorded.expectsHeader
    hrecorded.readsMaxBytes_lt hdelivers hheader hpos hfits hrun
  have hsame := unmarshal_flatten_take rest hheader hk
  set bytes := ((first :: rest).take k).flatten with hbytes
  -- the slice is complete: otherwise everything was consumed, and that is enough
  have hdone : payloadLen bytes = (unmarshal first).cLen := by
    by_contra hmissing
    have hless := lt_of_le_of_ne hle hmissing
    rw [hbytes, hall hless, List.take_length, payloadLen] at hless
    omega
  have hcomplete : last.status = .complete (unmarshal bytes).index := by
    rw [hstatus, statusAfter, hsame, if_pos hdone.symm]
  have hinfo : last.globals.mmap (unmarshal bytes).index = some (entryAfter g bytes) := by
    rw [hglobals]
    exact globalsAfter_mmap ..
  have hlength : (bytes.drop kEachSliceHeaderLen).length = (unmarshal first).cLen :=
    (List.length_drop ..).trans hdone
  have hinput : (entryAfter g bytes).cBuf.take (entryAfter g bytes).cLen ≠ [] := by
    change (bytes.drop kEachSliceHeaderLen).take (unmarshal bytes).cLen ≠ []
    rw [hsame, List.take_of_length_le hlength.le]
    exact List.ne_nil_of_length_pos (by omega)
  have hbuf : (entryAfter g bytes).buf.getD 0 = bufOffset g (unmarshal first).index := by
    rw [entryAfter_buf hrecorded, hsame, Option.getD_some]
  have hlt : (entryAfter g bytes).len < 2 ^ 64 := by
    have := unmarshal_len_lt bytes
    change (unmarshal bytes).len < 2 ^ 64
    omega
  obtain ⟨fuel, w, hw, hwindow⟩ := decompress_flooding hsize hinput g.fileSize hlt
  obtain ⟨tail, -, heffects⟩ := finish_effects (z := flooding outSize) fuel hcomplete hinfo
  have hoffer := h.finished last hrun Unit (flooding outSize) (flooding_bounded outSize) rfl fuel
    (.offerOut ((entryAfter g bytes).buf.getD 0 + w.start) w.size) (by
      rw [heffects, List.mem_append, List.mem_append]
      exact Or.inl (Or.inr (List.mem_map.mpr ⟨w, hw, rfl⟩)))
  rw [hbuf] at hoffer
  change bufOffset g (unmarshal first).index + w.start + w.size ≤ g.fileSize at hoffer
  have hlen : (entryAfter g bytes).len = (unmarshal first).len := congrArg SliceHeader.len hsame
  rw [hlen] at hwindow
  by_cases hzero : (unmarshal first).len = 0
  · rw [if_pos hzero] at hwindow
    omega
  · rw [if_neg hzero] at hwindow
    omega

/-! ## Streams that stay inside -/

theorem contained_of_positive (hrecorded : g.Recorded fileSize slicesNum)
    (hdelivers : List.Forall₂ Delivers (first :: rest) events)
    (hheader : kEachSliceHeaderLen ≤ first.length) (hpos : 1 ≤ (unmarshal first).cLen)
    (h : StaysInside g first rest) : Contained g outSize (unmarshal first) events := by
  constructor
  · intro k hk r hr
    obtain ⟨i, rfl⟩ := Nat.exists_eq_add_of_le' hk
    have htaken : List.Forall₂ Delivers (first :: rest.take i) (events.take (i + 1)) :=
      List.forall₂_take (i + 1) hdelivers
    obtain ⟨j, hj, -, hglobals, -, hle, -, heffects⟩ := receiveRun_slice hrecorded.expectsHeader
      hrecorded.readsMaxBytes_lt htaken hheader hpos h.payload_le hr
    have hsame := unmarshal_flatten_take (rest.take i) hheader hj
    refine ⟨?_, fun e he => (heffects e he).inside g.fileSize⟩
    intro info hinfo
    rw [hglobals, ← hsame, globalsAfter_mmap, Option.some_inj] at hinfo
    subst hinfo
    change payloadLen _ ≤ (unmarshal _).cLen
    rw [hsame]
    exact hle
  · intro r hr D z hz hsize fuel e he
    obtain ⟨k, hk, -, hglobals, hstatus, hle, -, heffects⟩ := receiveRun_slice
      hrecorded.expectsHeader hrecorded.readsMaxBytes_lt hdelivers hheader hpos h.payload_le hr
    have hsame := unmarshal_flatten_take rest hheader hk
    set bytes := ((first :: rest).take k).flatten with hbytes
    by_cases hdone : (unmarshal first).cLen = payloadLen bytes
    · have hcomplete : r.status = .complete (unmarshal bytes).index := by
        rw [hstatus, statusAfter, hsame, if_pos hdone]
      have hinfo : r.globals.mmap (unmarshal bytes).index = some (entryAfter g bytes) := by
        rw [hglobals]
        exact globalsAfter_mmap ..
      have hconsumed : bytes.length ≤ (first :: rest).flatten.length := by
        have hsplit : bytes ++ ((first :: rest).drop k).flatten = (first :: rest).flatten := by
          rw [hbytes, ← List.flatten_append, List.take_append_drop]
        rw [← hsplit, List.length_append]
        exact Nat.le_add_right _ _
      have htotal : kEachSliceHeaderLen + (unmarshal first).cLen ≤
          (first :: rest).flatten.length := by
        rw [payloadLen] at hdone
        omega
      obtain ⟨hlenPos, hplaced⟩ := h.placed hpos htotal
      have hlen : (entryAfter g bytes).len = (unmarshal first).len := congrArg SliceHeader.len hsame
      have hbuf : (entryAfter g bytes).buf.getD 0 = bufOffset g (unmarshal first).index := by
        rw [entryAfter_buf hrecorded, hsame, Option.getD_some]
      obtain ⟨tail, htail, hall⟩ := finish_effects (z := z) fuel hcomplete hinfo
      rw [hall, List.mem_append, List.mem_append, List.mem_map] at he
      rcases he with (hreceived | ⟨w, hw, rfl⟩) | hclose
      · exact (heffects e hreceived).inside g.fileSize
      · rw [hlen] at hw
        have hwindow := decompress_window_le hz hlenPos
          (by have := unmarshal_len_lt first; omega) fuel _ hw
        change (entryAfter g bytes).buf.getD 0 + w.start + w.size ≤ g.fileSize
        rw [hbuf]
        omega
      · rcases htail e hclose with rfl | rfl <;> trivial
    · rw [finish_of_not_complete] at he
      · exact (heffects e he).inside g.fileSize
      · intro index
        rw [hstatus, statusAfter, hsame, if_neg hdone]
        simp

/-- The run of a stream that announces no payload and keeps to it. -/
theorem receiveRun_empty {k : ℕ} {r : StepResult} (hrecorded : g.Recorded fileSize slicesNum)
    (hdelivers : List.Forall₂ Delivers (first :: rest) events)
    (hheader : kEachSliceHeaderLen ≤ first.length) (hzero : (unmarshal first).cLen = 0)
    (h : StaysInside g first rest) (hk : 1 ≤ k)
    (hr : receiveRun g (.waiting {}) (events.take k) = some r) :
    r.globals = globalsAfter g first ∧
      (∀ index, r.status = .complete index → index = (unmarshal first).index) ∧
      ∀ e ∈ r.effects, e.Receives 0 := by
  have hnone : payloadLen first = 0 := by
    have := h.payload_le
    omega
  obtain ⟨event, events, hfirst, hrest, rfl⟩ := List.forall₂_cons_left_iff.mp hdelivers
  obtain ⟨i, rfl⟩ := Nat.exists_eq_add_of_le' hk
  rw [List.take_succ_cons] at hr
  have hrest' := List.forall₂_take i hrest
  cases hevents : events.take i with
  | nil =>
      rw [hevents] at hr
      obtain ⟨next, later, hnext, hlater, rfl⟩ := receiveRun_cons hr
      obtain ⟨hglobals, hstatus, heffects⟩ := receive_first hrecorded.expectsHeader
        hrecorded.readsMaxBytes_lt hfirst hnext hheader
      rw [hstatus, firstStatus, if_pos hnone, receiveRun, Option.some_inj] at hlater
      subst hlater
      refine ⟨hglobals, by simp, ?_⟩
      simp [heffects, hnone, Effect.Receives]
  | cons event' others =>
      rw [hevents] at hr hrest'
      obtain ⟨second, pieces, hsecond, -, hpieces⟩ := List.forall₂_cons_right_iff.mp hrest'
      have hhead : second ∈ rest.head? := by
        cases rest with
        | nil => simp at hpieces
        | cons piece rest =>
            cases i with
            | zero => simp at hpieces
            | succ i =>
                rw [List.take_succ_cons, List.cons.injEq] at hpieces
                rw [hpieces.1]
                rfl
      obtain rfl := h.nothing_more hzero second hhead
      obtain ⟨later, hlater, hglobals, hstatus, heffects⟩ :=
        receiveRun_two hrecorded hfirst hsecond hheader hnone hr
      -- the second wake-up completes the slice
      have hcomplete : statusAfter first = .complete (unmarshal first).index := by
        rw [statusAfter, hzero, hnone, if_pos rfl]
      rw [List.append_nil, hcomplete, receiveRun_stopped _ (by simp), Option.some_inj] at hlater
      subst hlater
      refine ⟨hglobals, ?_, by simp [heffects, Effect.Receives]⟩
      intro index hindex
      rw [hstatus] at hindex
      exact (RecvStatus.complete.inj hindex).symm

theorem contained_of_empty (hrecorded : g.Recorded fileSize slicesNum)
    (hdelivers : List.Forall₂ Delivers (first :: rest) events)
    (hheader : kEachSliceHeaderLen ≤ first.length) (hzero : (unmarshal first).cLen = 0)
    (h : StaysInside g first rest) : Contained g outSize (unmarshal first) events := by
  constructor
  · intro k hk r hr
    obtain ⟨hglobals, -, heffects⟩ := receiveRun_empty hrecorded hdelivers hheader hzero h hk hr
    refine ⟨?_, fun e he => hzero ▸ (heffects e he).inside g.fileSize⟩
    intro info hinfo
    rw [hglobals, globalsAfter_mmap, Option.some_inj] at hinfo
    subst hinfo
    change payloadLen first ≤ (unmarshal first).cLen
    exact h.payload_le
  · intro r hr D z hz hsize fuel e he
    have hlength : 1 ≤ events.length := by
      rw [← hdelivers.length_eq, List.length_cons]
      omega
    obtain ⟨hglobals, hindex, heffects⟩ := receiveRun_empty hrecorded hdelivers hheader hzero h
      hlength (by rwa [List.take_length])
    by_cases hcomplete : ∃ index, r.status = .complete index
    · obtain ⟨index, hcomplete⟩ := hcomplete
      obtain rfl := hindex index hcomplete
      have hinfo : r.globals.mmap (unmarshal first).index = some (entryAfter g first) := by
        rw [hglobals]
        exact globalsAfter_mmap ..
      -- nothing is left to decompress
      have hinput : (entryAfter g first).cBuf.take (entryAfter g first).cLen = [] := by
        change (first.drop kEachSliceHeaderLen).take (unmarshal first).cLen = []
        rw [hzero, List.take_zero]
      obtain ⟨tail, htail, hall⟩ := finish_effects (z := z) fuel hcomplete hinfo
      rw [hall, hinput, decompress_nil, List.map_nil, List.append_nil, List.mem_append] at he
      rcases he with hreceived | hclose
      · exact hzero ▸ (heffects e hreceived).inside g.fileSize
      · rcases htail e hclose with rfl | rfl <;> trivial
    · rw [finish_of_not_complete fuel fun index hstatus => hcomplete ⟨index, hstatus⟩] at he
      exact hzero ▸ (heffects e he).inside g.fileSize

end Run

/-! ## The result -/

/-- **A peer's stream stays inside the receiver's buffers exactly when its first
piece fits the slice, nothing follows an empty slice, and a slice that completes has
a length and lies in the file.** -/
theorem contained_iff (fileSize slicesNum outSize : ℕ) (g : Globals) (first : List UInt8)
    (rest : List (List UInt8)) (events : List RecvEvent) (last : StepResult)
    (hrecorded : g.Recorded fileSize slicesNum) (hsize : 1 ≤ outSize)
    (hdelivers : List.Forall₂ Delivers (first :: rest) events)
    (hheader : kEachSliceHeaderLen ≤ first.length)
    (hrun : receiveRun g (.waiting {}) events = some last) :
    Contained g outSize (unmarshal first) events ↔ StaysInside g first rest := by
  constructor
  · intro h
    exact ⟨payload_le_of_contained hrecorded hdelivers hheader hrun h,
      nothing_more_of_contained hrecorded hdelivers hheader hrun h,
      placed_of_contained hrecorded hsize hdelivers hheader hrun h⟩
  · intro h
    by_cases hzero : (unmarshal first).cLen = 0
    · exact contained_of_empty hrecorded hdelivers hheader hzero h
    · exact contained_of_positive hrecorded hdelivers hheader (by omega) h

/-- A conforming stream for a file of four bytes in one slice. -/
theorem contained_conforming :
    Contained (recordHeader 4 1 Globals.initial) 131072 ⟨0, 4, 3⟩
      [.readable [] [.data [0, 0, 0, 0, 0, 4, 0, 0, 0, 3, 7, 8], .eagain],
        .readable [] [.data [9]]] := by
  refine (contained_iff 4 1 131072 _ [0, 0, 0, 0, 0, 4, 0, 0, 0, 3, 7, 8] [[9]] _ _
    (recorded_recordHeader 4 1 _) (by decide) ?_ (by decide) rfl).mpr
    ⟨by decide, by decide, by decide⟩
  exact .cons ⟨_, _, by decide, rfl⟩ (.cons ⟨_, _, by decide, rfl⟩ .nil)

/-- The same file, and a stream for the slice with index 65535. -/
theorem contained_foreign_index :
    ∃ events last, (recordHeader 4 1 Globals.initial).Recorded 4 1 ∧
      List.Forall₂ Delivers [[255, 255, 0, 0, 0, 4, 0, 0, 0, 1, 7]] events ∧
      receiveRun (recordHeader 4 1 Globals.initial) (.waiting {}) events = some last ∧
      ¬ Contained (recordHeader 4 1 Globals.initial) 131072 ⟨65535, 4, 1⟩ events := by
  have hdelivers : List.Forall₂ Delivers [[255, 255, 0, 0, 0, 4, 0, 0, 0, 1, 7]]
      [.readable [] [.data [255, 255, 0, 0, 0, 4, 0, 0, 0, 1, 7], .eagain]] :=
    .cons ⟨_, _, by decide, rfl⟩ .nil
  refine ⟨_, _, recorded_recordHeader 4 1 _, hdelivers, rfl, fun h => ?_⟩
  have hplaced := placed_of_contained (recorded_recordHeader 4 1 _) (by decide) hdelivers
    (by decide) rfl h (by decide) (by decide)
  exact absurd hplaced.2 (by decide)

end SliceTransfer.Server
