import SliceTransfer.Feeding
import SliceTransfer.Lib.Memory

/-!
# Sending the frame of a slice

`SendFileSlice` writes the chunks of a slice one by one to a non-blocking socket.  A
`write` that returns zero leaves the chunk, `EAGAIN` and `EINTR` are tried again, any
other error ends the function.  Whether the frame went out is decided at the end, by
one comparison of totals.

What was accepted are prefixes of the chunks (`sendChunks_spec`).  Their total is that
of the frame only if no prefix is shorter than its chunk, which is why the comparison
is enough (`sendFileSlice_returns_zero_iff`).
-/

namespace SliceTransfer.SendingFlow

open Bytes FileSlice

def kEachSliceHeaderLen : ℕ := 10

/-! ## The loops -/

/-- What the loops have sent, and `sum_sent`. -/
structure SendState where
  accepted : List UInt8
  sumSent : ℕ
  deriving DecidableEq, Repr

/-- How a loop is left: whether by `IsSocketError`, and the results that are left for
the next chunks. -/
structure SendEnd where
  state : SendState
  failed : Bool
  rest : List WriteResult
  deriving DecidableEq, Repr

/-- The bytes of one `write`. -/
def SendState.add (s : SendState) (bytes : List UInt8) : SendState :=
  ⟨s.accepted ++ bytes, (s.sumSent + bytes.length) % 2 ^ 64⟩

/-- The loop over a chunk of `size` bytes at `c`, on the results of its calls of
`write`.  No `write` takes more than it was given, so other results are impossible. -/
def sendChunk (c : ℤ → UInt8) (size : ℕ) : ℤ → SendState → List WriteResult → Option SendEnd
  | _, _, [] => none
  | wIndex, s, result :: rest =>
      match result with
      | .error => some ⟨s, true, rest⟩
      | .eagain | .eintr =>
          -- `continue` goes on with the loop condition
          if 0 < sizeT (size - wIndex) then sendChunk c size wIndex s rest
          else some ⟨s, false, rest⟩
      | .accepted count =>
          if sizeT (size - wIndex) < count then none
          else if count = 0 then some ⟨s, false, rest⟩
          else if 0 < sizeT (size - int32 (wIndex + count)) then
            sendChunk c size (int32 (wIndex + count)) (s.add (load c wIndex count)) rest
          else some ⟨s.add (load c wIndex count), false, rest⟩

/-- The loop over the chunks; `stray` is what lies around them. -/
def sendChunks (stray : ℤ → UInt8) :
    List (List UInt8) → SendState → List WriteResult → Option SendEnd
  | [], s, results => some ⟨s, false, results⟩
  | chunk :: chunks, s, results =>
      match sendChunk (placed chunk stray) chunk.length 0 s results with
      | none => none
      | some chunkEnd =>
          if chunkEnd.failed then some chunkEnd
          else sendChunks stray chunks chunkEnd.state chunkEnd.rest

/-- `SendFileSlice`, on the outcome of `connect` and the results of its calls of
`write`, which have to be exactly those it makes. -/
def sendFileSlice (stray : ℤ → UInt8) (connected : Bool) (f : FileSlice)
    (results : List WriteResult) : Option SendOutcome :=
  if connected then
    match sendChunks stray f.compressBuf ⟨[], 0⟩ results with
    | none => none
    | some sendEnd =>
        if sendEnd.rest ≠ [] then none
        else if sendEnd.failed then some ⟨-1, sendEnd.state.accepted⟩
        else if subSizeT sendEnd.state.sumSent kEachSliceHeaderLen ≠ f.cLen then
          some ⟨-1, sendEnd.state.accepted⟩
        else some ⟨0, sendEnd.state.accepted⟩
  else if results = [] then some ⟨-1, []⟩ else none

/-! ## One chunk -/

theorem SendState.add_nil {s : SendState} (hlt : s.sumSent < 2 ^ 64) : s.add [] = s := by
  rw [SendState.add, List.append_nil, List.length_nil, Nat.add_zero, Nat.mod_eq_of_lt hlt]

theorem SendState.add_add (s : SendState) (first second : List UInt8) :
    (s.add first).add second = s.add (first ++ second) := by
  simp only [SendState.add, List.append_assoc, List.length_append]
  congr 1
  omega

theorem SendState.sumSent_add_lt (s : SendState) (bytes : List UInt8) :
    (s.add bytes).sumSent < 2 ^ 64 := Nat.mod_lt _ (by decide)

section Chunk

variable {chunk : List UInt8} {stray : ℤ → UInt8} (hsmall : chunk.length < 2 ^ 31)

include hsmall in
/-- What is left of the chunk. -/
theorem sizeT_left {wIndex : ℕ} (hle : wIndex ≤ chunk.length) :
    sizeT (chunk.length - (wIndex : ℤ)) = chunk.length - wIndex := by
  rw [sizeT_of_nonneg (by omega) (by omega)]
  omega

include hsmall in
/-- A `write` of a chunk, from a position inside it. -/
theorem sendChunk_accepted {s : SendState} {wIndex count : ℕ} {rest : List WriteResult}
    {e : SendEnd} (hle : wIndex ≤ chunk.length)
    (h : sendChunk (placed chunk stray) chunk.length wIndex s (.accepted count :: rest) = some e) :
    wIndex + count ≤ chunk.length ∧ (count = 0 ∧ e = ⟨s, false, rest⟩ ∨
      0 < count ∧ wIndex + count < chunk.length ∧
        sendChunk (placed chunk stray) chunk.length ↑(wIndex + count)
          (s.add (window chunk wIndex count)) rest = some e ∨
      0 < count ∧ e = ⟨s.add (window chunk wIndex count), false, rest⟩) := by
  rw [sendChunk, sizeT_left hsmall hle] at h
  split at h
  · cases h
  · have hin : wIndex + count ≤ chunk.length := by omega
    have hindex : int32 (wIndex + count) = ↑(wIndex + count) := by
      unfold int32
      omega
    refine ⟨hin, ?_⟩
    rw [load_placed chunk stray hin, hindex, sizeT_left hsmall hin] at h
    split at h
    · cases h
      exact Or.inl ⟨‹count = 0›, rfl⟩
    · split at h
      · exact Or.inr (Or.inl ⟨by omega, by omega, h⟩)
      · cases h
        exact Or.inr (Or.inr ⟨by omega, rfl⟩)

include hsmall in
/-- `EAGAIN` and `EINTR` change nothing. -/
theorem sendChunk_again {s : SendState} {wIndex : ℕ} {result : WriteResult}
    {rest : List WriteResult} {e : SendEnd} (hle : wIndex ≤ chunk.length)
    (hagain : result = .eagain ∨ result = .eintr)
    (h : sendChunk (placed chunk stray) chunk.length wIndex s (result :: rest) = some e) :
    wIndex < chunk.length ∧
        sendChunk (placed chunk stray) chunk.length wIndex s rest = some e ∨
      e = ⟨s, false, rest⟩ := by
  have htry : (if 0 < sizeT (chunk.length - (wIndex : ℤ)) then
      sendChunk (placed chunk stray) chunk.length wIndex s rest
      else some ⟨s, false, rest⟩) = some e := by
    rcases hagain with rfl | rfl
    · exact h
    · exact h
  rw [sizeT_left hsmall hle] at htry
  split at htry
  · exact Or.inl ⟨by omega, htry⟩
  · cases htry
    exact Or.inr rfl

include hsmall in
/-- **What the loop over a chunk sends**: the bytes from `wIndex` on, as far as it gets.
It fails before the end of the chunk, or on an empty one. -/
theorem sendChunk_spec {s : SendState} {wIndex : ℕ} {results : List WriteResult} {e : SendEnd}
    (hsum : s.sumSent < 2 ^ 64) (hindex : wIndex < chunk.length ∨ wIndex = 0)
    (h : sendChunk (placed chunk stray) chunk.length wIndex s results = some e) :
    ∃ count used, wIndex + count ≤ chunk.length ∧ e.state = s.add (window chunk wIndex count) ∧
      results = used ++ e.rest ∧ (e.failed ↔ .error ∈ used) ∧
      (e.failed → wIndex + count < chunk.length ∨ chunk = []) := by
  induction results generalizing wIndex s with
  | nil => cases h
  | cons result rest ih =>
      have hle : wIndex ≤ chunk.length := by omega
      have hnone : s = s.add (window chunk wIndex 0) := (SendState.add_nil hsum).symm
      have hagain : result = .eagain ∨ result = .eintr → ∃ count used,
          wIndex + count ≤ chunk.length ∧ e.state = s.add (window chunk wIndex count) ∧
            result :: rest = used ++ e.rest ∧ (e.failed ↔ .error ∈ used) ∧
            (e.failed → wIndex + count < chunk.length ∨ chunk = []) := by
        intro hresult
        have hne : .error ≠ result := by
          rcases hresult with rfl | rfl
          · decide
          · decide
        rcases sendChunk_again hsmall hle hresult h with ⟨hlt, hrest⟩ | rfl
        · obtain ⟨count, used, hin, hstate, hused, hfailed, hshort⟩ :=
            ih hsum (Or.inl hlt) hrest
          exact ⟨count, result :: used, hin, hstate, by rw [hused, List.cons_append],
            by simpa [hne] using hfailed, hshort⟩
        · exact ⟨0, [result], hle, hnone, rfl, by simp [hne], fun hcontra => by cases hcontra⟩
      cases result with
      | error =>
          cases h
          refine ⟨0, [.error], hle, hnone, rfl, by simp, fun _ => ?_⟩
          rcases hindex with hlt | rfl
          · exact Or.inl hlt
          · rcases Nat.eq_zero_or_pos chunk.length with hempty | hpos
            · exact Or.inr (List.eq_nil_of_length_eq_zero hempty)
            · exact Or.inl hpos
      | eagain => exact hagain (Or.inl rfl)
      | eintr => exact hagain (Or.inr rfl)
      | accepted sent =>
          obtain ⟨hin, ⟨-, rfl⟩ | ⟨hpos, hlt, hrest⟩ | ⟨hpos, rfl⟩⟩ :=
            sendChunk_accepted hsmall hle h
          · exact ⟨0, [.accepted sent], hle, hnone, rfl, by simp, fun hcontra => by cases hcontra⟩
          · obtain ⟨count, used, hend, hstate, hused, hfailed, hshort⟩ :=
              ih (SendState.sumSent_add_lt _ _) (Or.inl hlt) hrest
            refine ⟨sent + count, .accepted sent :: used, by omega, ?_,
              by rw [hused, List.cons_append], by simpa using hfailed, fun hcontra => ?_⟩
            · rw [hstate, SendState.add_add, window_append_window]
            · rw [← Nat.add_assoc]
              exact hshort hcontra
          · exact ⟨sent, [.accepted sent], hin, rfl, rfl, by simp, fun hcontra => by cases hcontra⟩

end Chunk

/-! ## All chunks -/

/-- Prefixes of the chunks are together at most as long as the chunks. -/
theorem length_flatten_le {pieces chunks : List (List UInt8)}
    (h : List.Forall₂ (fun piece chunk => piece <+: chunk) pieces chunks) :
    pieces.flatten.length ≤ chunks.flatten.length := by
  induction h with
  | nil => exact le_refl _
  | cons hhead _ ih =>
      rw [List.flatten_cons, List.flatten_cons, List.length_append, List.length_append]
      exact Nat.add_le_add hhead.length_le ih

/-- Equally long only if nothing was cut short. -/
theorem flatten_eq_of_length_eq {pieces chunks : List (List UInt8)}
    (h : List.Forall₂ (fun piece chunk => piece <+: chunk) pieces chunks)
    (hlength : pieces.flatten.length = chunks.flatten.length) :
    pieces.flatten = chunks.flatten := by
  induction h with
  | nil => rfl
  | cons hhead hrest ih =>
      rw [List.flatten_cons, List.flatten_cons, List.length_append, List.length_append] at hlength
      have hle := hhead.length_le
      have hrestLe := length_flatten_le hrest
      rw [List.flatten_cons, List.flatten_cons, hhead.eq_of_length (by omega), ih (by omega)]

/-- Nothing of any chunk. -/
theorem forall₂_replicate_nil (chunks : List (List UInt8)) :
    List.Forall₂ (fun piece chunk => piece <+: chunk)
      (List.replicate chunks.length []) chunks := by
  induction chunks with
  | nil => exact .nil
  | cons chunk chunks ih => exact .cons List.nil_prefix ih

/-- Chunks that are all empty end in an empty one. -/
theorem getLast?_of_flatten_eq_nil {chunks : List (List UInt8)} (hne : chunks ≠ [])
    (hempty : chunks.flatten = []) : chunks.getLast? = some [] := by
  rw [List.getLast?_eq_some_getLast hne]
  exact congrArg some (List.flatten_eq_nil_iff.mp hempty _ (List.getLast_mem hne))

/-- Where the loops fail, the rest of the chunk is missing, or the chunk is empty and
those behind it are. -/
theorem missing_of_failed {chunk : List UInt8} {chunks : List (List UInt8)} {count : ℕ}
    (hshort : count < chunk.length ∨ chunk = []) (hlast : (chunk :: chunks).getLast? ≠ some []) :
    chunk.take count ≠ (chunk :: chunks).flatten := by
  intro heq
  rcases hshort with hlt | rfl
  · have hlength := congrArg List.length heq
    rw [List.flatten_cons, List.length_append, List.length_take] at hlength
    omega
  · rw [List.take_nil] at heq
    exact hlast (getLast?_of_flatten_eq_nil (List.cons_ne_nil _ _) heq.symm)

/-- What is missing of the later chunks is missing of all. -/
theorem missing_cons {piece chunk : List UInt8} {pieces chunks : List (List UInt8)}
    (hpiece : piece <+: chunk)
    (hpieces : List.Forall₂ (fun piece chunk => piece <+: chunk) pieces chunks)
    (hmissing : pieces.flatten ≠ chunks.flatten) :
    (piece :: pieces).flatten ≠ (chunk :: chunks).flatten := by
  intro heq
  have hlength := congrArg List.length heq
  rw [List.flatten_cons, List.flatten_cons, List.length_append, List.length_append] at hlength
  have hhead := hpiece.length_le
  have hrest := length_flatten_le hpieces
  exact hmissing (flatten_eq_of_length_eq hpieces (by omega))

/-- **What the loops send**: of every chunk a prefix.  When they fail something is
missing, unless the last chunk is empty. -/
theorem sendChunks_spec {stray : ℤ → UInt8} {chunks : List (List UInt8)} {s : SendState}
    {results : List WriteResult} {e : SendEnd} (hsmall : ∀ chunk ∈ chunks, chunk.length < 2 ^ 31)
    (hsum : s.sumSent < 2 ^ 64) (h : sendChunks stray chunks s results = some e) :
    ∃ pieces used, List.Forall₂ (fun piece chunk => piece <+: chunk) pieces chunks ∧
      e.state = s.add pieces.flatten ∧ results = used ++ e.rest ∧ (e.failed ↔ .error ∈ used) ∧
      (e.failed → chunks.getLast? ≠ some [] → pieces.flatten ≠ chunks.flatten) := by
  induction chunks generalizing s results with
  | nil =>
      cases h
      exact ⟨[], [], .nil, (SendState.add_nil hsum).symm, rfl, by simp,
        fun hcontra => by cases hcontra⟩
  | cons chunk chunks ih =>
      rw [sendChunks] at h
      cases hchunk : sendChunk (placed chunk stray) chunk.length 0 s results with
      | none => rw [hchunk] at h; cases h
      | some chunkEnd =>
          rw [hchunk] at h
          obtain ⟨count, used, hin, hstate, hused, hfailed, hshort⟩ :=
            sendChunk_spec (hsmall chunk List.mem_cons_self) hsum (Or.inr rfl) hchunk
          have hpiece : window chunk 0 count = chunk.take count := rfl
          rw [Nat.zero_add] at hin hshort
          by_cases hstop : chunkEnd.failed
          · simp only [hstop, if_true, Option.some.injEq] at h
            subst h
            have hflatten : (chunk.take count :: List.replicate chunks.length []).flatten =
                chunk.take count := by
              rw [List.flatten_cons, List.flatten_replicate_nil, List.append_nil]
            refine ⟨chunk.take count :: List.replicate chunks.length [], used,
              .cons (List.take_prefix _ _) (forall₂_replicate_nil chunks), ?_, hused, hfailed,
              fun _ hlast => ?_⟩
            · rw [hflatten, hstate, hpiece]
            · rw [hflatten]
              exact missing_of_failed (hshort hstop) hlast
          · simp only [hstop, Bool.false_eq_true, if_false] at h
            obtain ⟨pieces, more, hpieces, hend, hmore, hfailed', hmissing⟩ :=
              ih (fun chunk' hmem => hsmall chunk' (List.mem_cons_of_mem _ hmem))
                (by rw [hstate]; exact SendState.sumSent_add_lt _ _) h
            refine ⟨chunk.take count :: pieces, used ++ more,
              .cons (List.take_prefix _ _) hpieces, ?_, ?_, ?_, fun hfail hlast => ?_⟩
            · rw [hend, hstate, SendState.add_add, hpiece, List.flatten_cons]
            · rw [hused, hmore, List.append_assoc]
            · have hnone : .error ∉ used := mt hfailed.mpr hstop
              rw [hfailed', List.mem_append]
              exact (or_iff_right hnone).symm
            · have hchunks : chunks ≠ [] := by
                rintro rfl
                cases h
                cases hfail
              apply missing_cons (List.take_prefix _ _) hpieces
              apply hmissing hfail
              rwa [List.getLast?_cons_of_ne_nil hchunks] at hlast

/-! ## The chunks that `Compress` leaves -/

/-- No chunk of the slice is longer than `n` bytes. -/
def ChunksAtMost (n : ℕ) (f : FileSlice) : Prop := ∀ chunk ∈ f.compressBuf, chunk.length ≤ n

theorem ChunksAtMost.link {n : ℕ} {f : FileSlice} (h : ChunksAtMost n f)
    (hheader : kEachSliceHeaderLen ≤ n) {chunk : List UInt8} (hchunk : chunk.length ≤ n) :
    ChunksAtMost n (f.linkCompressChunk chunk) := by
  intro other hmem
  rw [linkCompressChunk] at hmem
  rcases List.mem_append.mp hmem with hbefore | hlinked
  · split at hbefore
    · rw [List.mem_singleton] at hbefore
      rw [hbefore]
      exact (by simp : (_ : ℕ) = 10).trans_le hheader
    · exact h other hbefore
  · rw [List.mem_singleton] at hlinked
    rwa [hlinked]

theorem ChunksAtMost.setHeader {n : ℕ} {f : FileSlice} (h : ChunksAtMost n f) (size : ℕ) :
    ChunksAtMost n (f.setChunkLinksHeader size) := by
  intro chunk hmem
  rw [setChunkLinksHeader] at hmem
  cases hbuf : f.compressBuf with
  | nil =>
      rw [hbuf] at hmem
      cases hmem
  | cons header chunks =>
      rw [hbuf] at hmem
      rcases List.mem_cons.mp hmem with rfl | htail
      · rw [length_overwrite]
        exact h header (hbuf ▸ List.mem_cons_self)
      · exact h chunk (hbuf ▸ List.mem_cons_of_mem _ htail)

section Chunks

variable {C : Type} {z : ZstdCompress C} {n : ℕ} (hheader : kEachSliceHeaderLen ≤ n)
  (houtput : ∀ cctx size input mode call,
    z.compressStream2 cctx size input mode = some call → call.output.length ≤ size)

include hheader houtput in
theorem chunksAtMost_compressChunk {buffOutSize fuel : ℕ} {lastChunk : Bool}
    {input : List UInt8} {s s' : CompressState C} (hsize : buffOutSize ≤ n)
    (hs : ChunksAtMost n s.slice)
    (h : compressChunk z buffOutSize lastChunk fuel input s = .ok s') :
    ChunksAtMost n s'.slice := by
  induction fuel generalizing input s with
  | zero => cases h
  | succ fuel ih =>
      obtain ⟨call, hcall, ⟨-, rfl⟩ | ⟨-, hrest⟩⟩ := compressChunk_cases h
      · exact hs.link hheader ((houtput _ _ _ _ _ hcall).trans hsize)
      · exact ih (hs.link hheader ((houtput _ _ _ _ _ hcall).trans hsize)) hrest

include hheader houtput in
theorem chunksAtMost_compressLoop {buffInSize buffOutSize sliceLen chunkFuel fuel index : ℕ}
    {buffIn : List UInt8} {s : CompressState C} {f : FileSlice} (hsize : buffOutSize ≤ n)
    (hs : ChunksAtMost n s.slice)
    (h : compressLoop z buffInSize buffOutSize buffIn sliceLen chunkFuel fuel index s = .ok f) :
    ChunksAtMost n f := by
  induction fuel generalizing index s with
  | zero => cases h
  | succ fuel ih =>
      rw [compressLoop] at h
      split at h
      · cases h
      · rename_i s' hchunk
        have hs' := chunksAtMost_compressChunk hheader houtput hsize hs hchunk
        split at h
        · cases h
          exact hs'.setHeader _
        · exact ih hs' h

include houtput in
/-- No chunk is longer than the output buffer. -/
theorem chunksAtMost_compress {fuel : ℕ} {f f' : FileSlice} (hsmall : z.cStreamOutSize < 2 ^ 31)
    (hfresh : f.compressBuf = []) (h : compress z fuel f = .ok f') :
    ChunksAtMost (2 ^ 31 - 1) f' := by
  rw [compress] at h
  cases hcctx : newCCtx z 1 with
  | none => rw [hcctx] at h; cases h
  | some cctx =>
      rw [hcctx] at h
      refine chunksAtMost_compressLoop (by decide) houtput ?_ (fun chunk hmem => ?_) h
      · unfold bufferSizes
        split
        · exact Nat.le_sub_one_of_lt hsmall
        · decide
      · rw [hfresh] at hmem
        cases hmem

end Chunks

/-! ## The result -/

/-- A returning `SendFileSlice`: zero when the loops did not fail and the totals agree. -/
theorem sendFileSlice_cases {stray : ℤ → UInt8} {f : FileSlice} {results : List WriteResult}
    {outcome : SendOutcome} (h : sendFileSlice stray true f results = some outcome) :
    ∃ e, sendChunks stray f.compressBuf ⟨[], 0⟩ results = some e ∧ e.rest = [] ∧
      outcome.accepted = e.state.accepted ∧
      (outcome.returned = 0 ↔
        ¬ e.failed ∧ subSizeT e.state.sumSent kEachSliceHeaderLen = f.cLen) := by
  have hminus : ¬ ((-1 : ℤ) = 0) := by decide
  rw [sendFileSlice, if_pos rfl] at h
  cases hsent : sendChunks stray f.compressBuf ⟨[], 0⟩ results with
  | none => rw [hsent] at h; cases h
  | some e =>
      rw [hsent] at h
      dsimp only at h
      split at h
      · cases h
      · rename_i hrest
        refine ⟨e, rfl, not_not.mp hrest, ?_⟩
        split at h
        · rename_i hfail
          cases h
          exact ⟨rfl, iff_of_false hminus fun hcontra => hcontra.1 hfail⟩
        · rename_i hok
          split at h
          · rename_i hdiffer
            cases h
            exact ⟨rfl, iff_of_false hminus fun hcontra => hdiffer hcontra.2⟩
          · rename_i hequal
            cases h
            exact ⟨rfl, iff_of_true rfl ⟨hok, not_not.mp hequal⟩⟩

/-- The comparison of totals decides whether the pieces are the chunks. -/
theorem total_eq_iff {f : FileSlice} {pieces : List (List UInt8)}
    (hwire : f.wire.length = kEachSliceHeaderLen + f.cLen) (hmemory : f.wire.length < 2 ^ 64)
    (hpieces : List.Forall₂ (fun piece chunk => piece <+: chunk) pieces f.compressBuf) :
    subSizeT pieces.flatten.length kEachSliceHeaderLen = f.cLen ↔ pieces.flatten = f.wire := by
  have hle : pieces.flatten.length ≤ f.wire.length := length_flatten_le hpieces
  constructor
  · intro heq
    apply flatten_eq_of_length_eq hpieces
    change pieces.flatten.length = f.wire.length
    unfold subSizeT sizeT kEachSliceHeaderLen at heq
    unfold kEachSliceHeaderLen at hwire
    omega
  · intro heq
    rw [heq, hwire, subSizeT_of_le (Nat.le_add_right _ _) (by omega)]
    omega

/-- **`SendFileSlice` returns zero exactly when the whole frame was accepted and no
`write` failed.**  A failure of the last `write` of a complete frame needs an empty last
chunk; without one the frame alone decides. -/
theorem sendFileSlice_returns_zero_iff {C : Type} (z : ZstdCompress C) (stray : ℤ → UInt8)
    (f f' : FileSlice) (fuel : ℕ) (results : List WriteResult) (outcome : SendOutcome)
    (houtput : ∀ cctx size input mode call,
      z.compressStream2 cctx size input mode = some call → call.output.length ≤ size)
    (hsmall : z.cStreamOutSize < 2 ^ 31) (hlen : f.content.length = f.len)
    (hfresh : f.compressBuf = []) (hcompress : compress z fuel f = .ok f')
    (hmemory : f'.wire.length < 2 ^ 64)
    (hsend : sendFileSlice stray true f' results = some outcome) :
    (outcome.returned = 0 ↔ outcome.accepted = f'.wire ∧ .error ∉ results) ∧
      (f'.compressBuf.getLast? ≠ some [] →
        (outcome.returned = 0 ↔ outcome.accepted = f'.wire)) := by
  have hchunks := chunksAtMost_compress houtput hsmall hfresh hcompress
  obtain ⟨cctx, chunks, -, hne, -, hf⟩ := compress_ok hlen hcompress
  have hframe : f' = frame f chunks := hf
  have hwire : f'.wire.length = kEachSliceHeaderLen + f'.cLen := by
    rw [hframe, frame_wire hfresh hne, frame_eq hfresh hne, List.length_append,
      length_headerBytes, List.length_flatten]
    rfl
  obtain ⟨e, hsent, hrest, haccepted, hreturned⟩ := sendFileSlice_cases hsend
  obtain ⟨pieces, used, hpieces, hstate, hused, hfailed, hmissing⟩ :=
    sendChunks_spec (fun chunk hmem => Nat.lt_of_le_pred (by decide) (hchunks chunk hmem))
      (by decide) hsent
  have hle : pieces.flatten.length ≤ f'.wire.length := length_flatten_le hpieces
  have hsum : e.state.sumSent = pieces.flatten.length := by
    rw [hstate, SendState.add, Nat.zero_add, Nat.mod_eq_of_lt (by omega)]
  have hwritten : outcome.accepted = pieces.flatten := by
    rw [haccepted, hstate]
    rfl
  rw [hrest, List.append_nil] at hused
  subst hused
  rw [hsum, total_eq_iff hwire hmemory hpieces] at hreturned
  rw [hreturned, hwritten]
  constructor
  · rw [hfailed]
    exact and_comm
  · intro hlast
    refine and_iff_right_of_imp fun hall hfail => ?_
    exact hmissing hfail hlast hall

/-- The slice `[97, 98]` behind `rawCompress`. -/
def rawSlice : FileSlice := frame ⟨[97, 98], 0, 2, 2, 0, []⟩ [rawFrame [97, 98]]

/-- Its frame, accepted in three pieces with an `EAGAIN` in between. -/
theorem sendFileSlice_returns_zero_pair :
    ∃ outcome, sendFileSlice (fun _ => 0) true rawSlice
        [.accepted 10, .accepted 4, .eagain, .accepted 7] = some outcome ∧
      outcome.returned = 0 :=
  ⟨⟨0, rawSlice.wire⟩, by decide,
    ((sendFileSlice_returns_zero_iff rawCompress (fun _ => 0) ⟨[97, 98], 0, 2, 2, 0, []⟩ rawSlice 1
      [.accepted 10, .accepted 4, .eagain, .accepted 7] ⟨0, rawSlice.wire⟩
      rawCompress_contract.output_le (by decide) (by decide) rfl (by decide) (by decide)
      (by decide)).2 (by decide)).mpr rfl⟩

/-! ### An empty last chunk -/

/-- The slice `[97]` behind `lateCompress`: a header, a frame and an empty chunk. -/
def lateSlice : FileSlice := frame ⟨[97], 0, 1, 1, 0, []⟩ [rawFrame [97], []]

/-- All bytes of the frame are accepted, the `write` of the empty chunk fails. -/
theorem sendFileSlice_failed_late :
    CompressContract lateCompress latePending ∧
      compress lateCompress 2 ⟨[97], 0, 1, 1, 0, []⟩ = .ok lateSlice ∧
      sendFileSlice (fun _ => 0) true lateSlice [.accepted 10, .accepted 10, .error] =
        some ⟨-1, lateSlice.wire⟩ :=
  ⟨lateCompress_contract, by decide, by decide⟩

end SliceTransfer.SendingFlow
