import SliceTransfer.Framing
import SliceTransfer.Transfer

/-!
# What `Compress` feeds to zstd, and what it links

zstd chooses how much of its input a call takes and how much output it hands out;
`CompressContract` is all that is promised about it.  The potential `pending` counts
the output that a context still holds back.

Two things have to be shown.  **The loops end.**  Within a segment the pair of the
input left and the output pending decreases lexicographically, and between segments
`index` grows (`compressLoop_returns`).  **The books are kept.**  The segments are
consecutive windows of the slice, and every output is linked once and counted once
(`compress_accounts`).
-/

namespace SliceTransfer

open Bytes FileSlice

variable {C : Type}

/-! ## The contract of `ZSTD_compressStream2` -/

/-- A call takes a part of its input and puts out at most `size` bytes.  While there is
input, or output that `pending` counts, it takes or puts out something, and what it puts
out without taking anything was pending.  With `ZSTD_e_end` it returns zero when, and
only when, everything is taken and put out. -/
structure CompressContract (z : ZstdCompress C) (pending : C → EndDirective → ℕ) : Prop where
  inSize_pos : 0 < z.cStreamInSize
  outSize_pos : 0 < z.cStreamOutSize
  consumed_le : ∀ cctx size input mode call,
    z.compressStream2 cctx size input mode = some call → call.consumed ≤ input.length
  output_le : ∀ cctx size input mode call,
    z.compressStream2 cctx size input mode = some call → call.output.length ≤ size
  progress : ∀ cctx size input mode call,
    z.compressStream2 cctx size input mode = some call → 0 < size →
      input ≠ [] ∨ pending cctx mode ≠ 0 → 0 < call.consumed ∨ call.output ≠ []
  flushes : ∀ cctx size input mode call,
    z.compressStream2 cctx size input mode = some call →
      input ≠ [] ∨ pending cctx mode ≠ 0 → call.consumed = 0 →
        pending call.cctx mode + call.output.length ≤ pending cctx mode
  remaining_eq_zero : ∀ cctx size input call,
    z.compressStream2 cctx size input .end = some call →
      (call.remaining = 0 ↔ input.drop call.consumed = [] ∧ pending call.cctx .end = 0)

/-! ## The calls of a run -/

/-- The directive of a segment. -/
def directive (lastChunk : Bool) : EndDirective := if lastChunk then .end else .continue

/-- The segment at `index` is the last one. -/
def lastChunkAt (z : ZstdCompress C) (f : FileSlice) (index : ℕ) : Bool :=
  decide (f.len ≤ index + (bufferSizes z f.len).1)

/-- The input buffer that is set up at `index`. -/
def segmentAt (z : ZstdCompress C) (f : FileSlice) (index : ℕ) : List UInt8 :=
  window f.content index
    (if lastChunkAt z f index then f.len - index else (bufferSizes z f.len).1)

/-- The call ends the inner loop. -/
def Finishes (lastChunk : Bool) (input : List UInt8) (call : CompressCall C) : Prop :=
  if lastChunk then call.remaining = 0 else input.drop call.consumed = []

instance (lastChunk : Bool) (input : List UInt8) (call : CompressCall C) :
    Decidable (Finishes lastChunk input call) :=
  inferInstanceAs (Decidable (if lastChunk then call.remaining = 0
    else input.drop call.consumed = []))

/-- `Compress` comes to a call of `ZSTD_compressStream2` with the context `cctx`, in the
segment at `index`, of which `input` is left. -/
inductive Issued (z : ZstdCompress C) (f : FileSlice) : C → ℕ → List UInt8 → Prop
  | first {cctx : C} (h : newCCtx z 1 = some cctx) : Issued z f cctx 0 (segmentAt z f 0)
  | again {cctx : C} {index : ℕ} {input : List UInt8} {call : CompressCall C}
      (h : Issued z f cctx index input)
      (hcall : z.compressStream2 cctx (bufferSizes z f.len).2 input
        (directive (lastChunkAt z f index)) = some call)
      (hmore : ¬ Finishes (lastChunkAt z f index) input call) :
      Issued z f call.cctx index (input.drop call.consumed)
  | next {cctx : C} {index : ℕ} {input : List UInt8} {call : CompressCall C}
      (h : Issued z f cctx index input)
      (hcall : z.compressStream2 cctx (bufferSizes z f.len).2 input
        (directive (lastChunkAt z f index)) = some call)
      (hdone : Finishes (lastChunkAt z f index) input call)
      (hlast : lastChunkAt z f index = false) :
      Issued z f call.cctx (index + (bufferSizes z f.len).1)
        (segmentAt z f (index + (bufferSizes z f.len).1))

/-- No call of the run reports an error. -/
structure ErrorFree (z : ZstdCompress C) (f : FileSlice) : Prop where
  created : ∃ cctx, newCCtx z 1 = some cctx
  calls : ∀ cctx index input, Issued z f cctx index input →
    ∃ call, z.compressStream2 cctx (bufferSizes z f.len).2 input
      (directive (lastChunkAt z f index)) = some call

/-! ## Segments -/

/-- A segment of the input with the calls that were made for it. -/
structure Segment (C : Type) where
  mode : EndDirective
  bytes : List UInt8
  calls : List (CompressCall C)
  final : CompressCall C

/-- The outputs of a segment, in call order. -/
def Segment.outputs (segment : Segment C) : List (List UInt8) :=
  (segment.calls ++ [segment.final]).map CompressCall.output

/-- The calls take `input` from its first byte to its last. -/
inductive Fed (z : ZstdCompress C) (size : ℕ) (mode : EndDirective) :
    C → List UInt8 → List (CompressCall C) → CompressCall C → Prop
  | final {cctx : C} {input : List UInt8} {call : CompressCall C}
      (hcall : z.compressStream2 cctx size input mode = some call)
      (hall : call.consumed = input.length) : Fed z size mode cctx input [] call
  | more {cctx : C} {input : List UInt8} {call final : CompressCall C}
      {calls : List (CompressCall C)}
      (hcall : z.compressStream2 cctx size input mode = some call)
      (hle : call.consumed ≤ input.length)
      (hrest : Fed z size mode call.cctx (input.drop call.consumed) calls final) :
      Fed z size mode cctx input (call :: calls) final

/-- The segments are fed one behind the other: with `ZSTD_e_end` the last one, which is
completed, and with `ZSTD_e_continue` those before it. -/
inductive Feeding (z : ZstdCompress C) (size : ℕ) : C → List (Segment C) → Prop
  | last {cctx : C} {segment : Segment C}
      (h : Fed z size segment.mode cctx segment.bytes segment.calls segment.final)
      (hmode : segment.mode = .end) (hzero : segment.final.remaining = 0) :
      Feeding z size cctx [segment]
  | cons {cctx : C} {segment : Segment C} {segments : List (Segment C)}
      (h : Fed z size segment.mode cctx segment.bytes segment.calls segment.final)
      (hmode : segment.mode = .continue)
      (hrest : Feeding z size segment.final.cctx segments) :
      Feeding z size cctx (segment :: segments)

/-- What `Compress` made of the slice `f`. -/
structure Accounted (z : ZstdCompress C) (f f' : FileSlice) (segments : List (Segment C)) :
    Prop where
  feeds : ∃ cctx, newCCtx z 1 = some cctx ∧ Feeding z (bufferSizes z f.len).2 cctx segments
  bytes : (segments.map Segment.bytes).flatten = f.content
  compressBuf : f'.compressBuf =
    headerBytes f.index f.len f'.cLen :: (segments.map Segment.outputs).flatten
  cLen : f'.cLen = ((segments.map Segment.outputs).flatten.map List.length).sum

/-! ## The inner loop -/

section Loops

variable {z : ZstdCompress C} {pending : C → EndDirective → ℕ} {f : FileSlice}
  (contract : CompressContract z pending) (errorFree : ErrorFree z f)

/-- The size of an output buffer is positive. -/
theorem CompressContract.bufferSizes_pos (contract : CompressContract z pending) (len : ℕ) :
    0 < (bufferSizes z len).1 ∧ 0 < (bufferSizes z len).2 := by
  unfold bufferSizes
  split
  · exact ⟨contract.inSize_pos, contract.outSize_pos⟩
  · exact ⟨by decide, by decide⟩

/-- One iteration of the inner loop. -/
theorem compressChunk_succ {buffOutSize fuel : ℕ} {lastChunk : Bool} {input : List UInt8}
    {s : CompressState C} {call : CompressCall C}
    (hcall : z.compressStream2 s.cctx buffOutSize input (directive lastChunk) = some call) :
    compressChunk z buffOutSize lastChunk (fuel + 1) input s =
      if Finishes lastChunk input call then .ok (s.link call.cctx [call.output])
      else compressChunk z buffOutSize lastChunk fuel (input.drop call.consumed)
        (s.link call.cctx [call.output]) := by
  have hlink : s.link call.cctx [call.output] = ⟨call.cctx,
      s.slice.linkCompressChunk call.output, s.compressedSize + call.output.length⟩ := by
    simp [CompressState.link]
  rw [directive] at hcall
  rw [compressChunk, hcall, hlink]
  rfl

include contract in
/-- A call that ends the inner loop has taken everything. -/
theorem consumed_of_finishes {size : ℕ} {lastChunk : Bool} {cctx : C} {input : List UInt8}
    {call : CompressCall C}
    (hcall : z.compressStream2 cctx size input (directive lastChunk) = some call)
    (hdone : Finishes lastChunk input call) : call.consumed = input.length := by
  have hle := contract.consumed_le _ _ _ _ _ hcall
  have hall : input.drop call.consumed = [] := by
    cases lastChunk with
    | false => exact hdone
    | true => exact ((contract.remaining_eq_zero _ _ _ _ hcall).mp hdone).1
  have hlength := congrArg List.length hall
  rw [List.length_drop, List.length_nil] at hlength
  omega

include contract in
/-- A call that does not end the inner loop leaves input or pending output behind. -/
theorem left_of_not_finishes {size : ℕ} {lastChunk : Bool} {cctx : C} {input : List UInt8}
    {call : CompressCall C}
    (hcall : z.compressStream2 cctx size input (directive lastChunk) = some call)
    (hmore : ¬ Finishes lastChunk input call) :
    input.drop call.consumed ≠ [] ∨ pending call.cctx (directive lastChunk) ≠ 0 := by
  cases lastChunk with
  | false => exact Or.inl hmore
  | true =>
      by_contra hnone
      rw [not_or, not_not, not_not] at hnone
      exact hmore ((contract.remaining_eq_zero _ _ _ _ hcall).mpr hnone)

include contract errorFree in
/-- **The inner loop ends**, by induction on the input left and the output pending. -/
theorem compressChunk_returns {index : ℕ} (input : List UInt8) (s : CompressState C)
    (hissued : Issued z f s.cctx index input)
    (hleft : input ≠ [] ∨ pending s.cctx (directive (lastChunkAt z f index)) ≠ 0) :
    ∃ calls final n,
      Fed z (bufferSizes z f.len).2 (directive (lastChunkAt z f index)) s.cctx input calls final ∧
      (lastChunkAt z f index → final.remaining = 0) ∧
      (lastChunkAt z f index = false → Issued z f final.cctx (index + (bufferSizes z f.len).1)
        (segmentAt z f (index + (bufferSizes z f.len).1))) ∧
      ∀ fuel ≥ n, compressChunk z (bufferSizes z f.len).2 (lastChunkAt z f index) fuel input s =
        .ok (s.link final.cctx ((calls ++ [final]).map CompressCall.output)) := by
  obtain ⟨call, hcall⟩ := errorFree.calls _ _ _ hissued
  by_cases hdone : Finishes (lastChunkAt z f index) input call
  · refine ⟨[], call, 1, .final hcall (consumed_of_finishes contract hcall hdone), ?_,
      fun hlast => .next hissued hcall hdone hlast, fun fuel hfuel => ?_⟩
    · intro hlast
      rw [hlast] at hdone
      exact hdone
    · obtain ⟨fuel, rfl⟩ : ∃ k, fuel = k + 1 := ⟨fuel - 1, by omega⟩
      rw [compressChunk_succ hcall, if_pos hdone]
      rfl
  · have hle := contract.consumed_le _ _ _ _ _ hcall
    have hprogress := contract.progress _ _ _ _ _ hcall (contract.bufferSizes_pos f.len).2 hleft
    have hflushes := contract.flushes _ _ _ _ _ hcall hleft
    have hlength : (input.drop call.consumed).length = input.length - call.consumed :=
      List.length_drop
    have houtput : call.output ≠ [] → 0 < call.output.length := List.length_pos_of_ne_nil
    have hagain := Issued.again hissued hcall hdone
    obtain ⟨calls, final, n, hfed, hzero, hnext, hreturns⟩ :=
      compressChunk_returns (input.drop call.consumed) (s.link call.cctx [call.output]) hagain
        (left_of_not_finishes contract hcall hdone)
    refine ⟨call :: calls, final, n + 1, .more hcall hle hfed, hzero, hnext, fun fuel hfuel => ?_⟩
    obtain ⟨fuel, rfl⟩ : ∃ k, fuel = k + 1 := ⟨fuel - 1, by omega⟩
    rw [compressChunk_succ hcall, if_neg hdone, hreturns fuel (by omega), s.link_cons]
    rfl
termination_by (input.length, pending s.cctx (directive (lastChunkAt z f index)))
decreasing_by
  rcases Nat.eq_zero_or_pos call.consumed with hnone | hsome
  · -- nothing was taken, so output was put out
    have hput := houtput (hprogress.resolve_left hnone.not_gt)
    have hless := hflushes hnone
    rw [hnone, List.drop_zero]
    exact Prod.Lex.right _ (show pending call.cctx _ < _ by omega)
  · have hbound := Nat.sub_lt_self hsome hle
    exact Prod.Lex.left _ _ (by omega)

/-! ## The outer loop -/

/-- The segment at an index inside the slice is not empty. -/
theorem segmentAt_ne_nil (contract : CompressContract z pending) (hlen : f.content.length = f.len)
    {index : ℕ} (hindex : index < f.len) : segmentAt z f index ≠ [] := by
  have hpos := (contract.bufferSizes_pos f.len).1
  apply List.ne_nil_of_length_pos
  rw [segmentAt, window, List.length_take, List.length_drop, hlen]
  split <;> omega

/-- The segments up to the last one take what is left of the slice. -/
theorem segmentAt_append (hlen : f.content.length = f.len) (index : ℕ) :
    segmentAt z f index ++ (if lastChunkAt z f index then []
      else f.content.drop (index + (bufferSizes z f.len).1)) = f.content.drop index := by
  rw [segmentAt]
  split
  · rw [window, ← hlen, ← List.length_drop, List.take_length, List.append_nil]
  · rw [window, ← List.drop_drop, List.take_append_drop]

/-- The iteration for the last segment. -/
theorem compressLoop_last {chunkFuel fuel index : ℕ} {s s' : CompressState C}
    (hlast : lastChunkAt z f index = true)
    (hchunk : compressChunk z (bufferSizes z f.len).2 (lastChunkAt z f index) chunkFuel
      (segmentAt z f index) s = .ok s') :
    compressLoop z (bufferSizes z f.len).1 (bufferSizes z f.len).2 f.content f.len chunkFuel
        (fuel + 1) index s =
      .ok (s'.slice.setChunkLinksHeader s'.compressedSize) := by
  have htest : decide (f.len ≤ index + (bufferSizes z f.len).1) = true := hlast
  rw [hlast, segmentAt, if_pos hlast] at hchunk
  rw [compressLoop]
  simp only [htest, if_true, hchunk]

/-- The iteration for any other segment. -/
theorem compressLoop_next {chunkFuel fuel index : ℕ} {s s' : CompressState C}
    (hlast : lastChunkAt z f index = false)
    (hchunk : compressChunk z (bufferSizes z f.len).2 (lastChunkAt z f index) chunkFuel
      (segmentAt z f index) s = .ok s') :
    compressLoop z (bufferSizes z f.len).1 (bufferSizes z f.len).2 f.content f.len chunkFuel
        (fuel + 1) index s =
      compressLoop z (bufferSizes z f.len).1 (bufferSizes z f.len).2 f.content f.len chunkFuel
        fuel (index + (bufferSizes z f.len).1) s' := by
  have htest : decide (f.len ≤ index + (bufferSizes z f.len).1) = false := hlast
  have hmore : ¬ lastChunkAt z f index = true := by
    rw [hlast]
    decide
  rw [hlast, segmentAt, if_neg hmore] at hchunk
  rw [compressLoop]
  simp only [htest, Bool.false_eq_true, if_false, hchunk]

include contract errorFree in
/-- **The outer loop ends**, and what it links are the outputs of the segments. -/
theorem compressLoop_returns (hlen : f.content.length = f.len) (index : ℕ) (s : CompressState C)
    (hindex : index < f.len) (hissued : Issued z f s.cctx index (segmentAt z f index)) :
    ∃ segments cctx n, Feeding z (bufferSizes z f.len).2 s.cctx segments ∧
      (segments.map Segment.bytes).flatten = f.content.drop index ∧
      ∀ chunkFuel ≥ n, ∀ fuel ≥ n,
        compressLoop z (bufferSizes z f.len).1 (bufferSizes z f.len).2 f.content f.len chunkFuel
            fuel index s =
          .ok ((s.link cctx (segments.map Segment.outputs).flatten).slice.setChunkLinksHeader
            (s.link cctx (segments.map Segment.outputs).flatten).compressedSize) := by
  obtain ⟨calls, final, n, hfed, hzero, hnext, hreturns⟩ :=
    compressChunk_returns contract errorFree (segmentAt z f index) s hissued
      (Or.inl (segmentAt_ne_nil contract hlen hindex))
  have happend := segmentAt_append (z := z) hlen index
  set segment : Segment C :=
    ⟨directive (lastChunkAt z f index), segmentAt z f index, calls, final⟩ with hsegment
  cases hlast : lastChunkAt z f index with
  | true =>
      refine ⟨[segment], final.cctx, n + 1, ?_, ?_, fun chunkFuel hchunk fuel hfuel => ?_⟩
      · refine .last hfed ?_ (hzero hlast)
        rw [hsegment, hlast]
        rfl
      · rw [hlast] at happend
        simpa [hsegment] using happend
      · obtain ⟨fuel, rfl⟩ : ∃ k, fuel = k + 1 := ⟨fuel - 1, by omega⟩
        rw [compressLoop_last hlast (hreturns chunkFuel (by omega)), List.map_singleton,
          List.flatten_singleton]
        rfl
  | false =>
      have hpos := (contract.bufferSizes_pos f.len).1
      have htest : decide (f.len ≤ index + (bufferSizes z f.len).1) = false := hlast
      have hbelow : index + (bufferSizes z f.len).1 < f.len := by
        simpa using htest
      obtain ⟨segments, cctx, m, hfeeding, hbytes, hrest⟩ :=
        compressLoop_returns hlen (index + (bufferSizes z f.len).1)
          (s.link final.cctx segment.outputs) hbelow (hnext hlast)
      refine ⟨segment :: segments, cctx, n + m + 1, ?_, ?_,
        fun chunkFuel hchunk fuel hfuel => ?_⟩
      · refine .cons hfed ?_ hfeeding
        rw [hsegment, hlast]
        rfl
      · rw [hlast] at happend
        rw [List.map_cons, List.flatten_cons, hbytes]
        exact happend
      · obtain ⟨fuel, rfl⟩ : ∃ k, fuel = k + 1 := ⟨fuel - 1, by omega⟩
        have hlater := hrest chunkFuel (by omega) fuel (by omega)
        rw [CompressState.link_append] at hlater
        rw [compressLoop_next hlast (hreturns chunkFuel (by omega)), List.map_cons,
          List.flatten_cons]
        exact hlater
termination_by f.len - index

end Loops

/-! ## `Compress` -/

/-- Something is linked. -/
theorem Feeding.outputs_ne_nil {z : ZstdCompress C} {size : ℕ} {cctx : C}
    {segments : List (Segment C)} (h : Feeding z size cctx segments) :
    (segments.map Segment.outputs).flatten ≠ [] := by
  have hne : ∀ segment : Segment C, segment.outputs ≠ [] := by
    intro segment
    simp [Segment.outputs]
  cases h with
  | last => simp [hne]
  | cons => simp [hne]

/-- **`Compress` feeds zstd exactly the slice and accounts for every output byte.** -/
theorem compress_accounts (z : ZstdCompress C) (pending : C → EndDirective → ℕ) (f : FileSlice)
    (contract : CompressContract z pending) (hlen : f.content.length = f.len) (hpos : 1 ≤ f.len)
    (hfresh : f.compressBuf = []) (errorFree : ErrorFree z f) :
    ∃ f' n, (∀ fuel ≥ n, compress z fuel f = .ok f') ∧
      ∃ segments, Accounted z f f' segments := by
  obtain ⟨cctx, hcctx⟩ := errorFree.created
  obtain ⟨segments, cctx', n, hfeeding, hbytes, hreturns⟩ :=
    compressLoop_returns contract errorFree hlen 0 ⟨cctx, f, 0⟩ hpos (.first hcctx)
  have hframe := frame_eq hfresh hfeeding.outputs_ne_nil
  refine ⟨frame f (segments.map Segment.outputs).flatten, n, fun fuel hfuel => ?_, segments, ?_⟩
  · rw [compress, hcctx]
    have hloop := hreturns fuel hfuel fuel hfuel
    rw [frame]
    simpa [CompressState.link] using hloop
  · refine ⟨⟨cctx, hcctx, hfeeding⟩, ?_, ?_, ?_⟩
    · rwa [List.drop_zero] at hbytes
    · rw [hframe]
    · rw [hframe]

/-! ### A zstd that keeps the contract -/

/-- The output that `rawCompress` holds back: the frame of what it has taken so far. -/
def rawPending (cctx : List UInt8) : EndDirective → ℕ
  | .continue => 0
  | .end => if cctx = [] then 0 else (rawFrame cctx).length

/-- What a successful call of `rawCompress` with `ZSTD_e_end` does. -/
theorem rawCompress_end {cctx input : List UInt8} {size : ℕ} {call : CompressCall (List UInt8)}
    (h : rawCompress.compressStream2 cctx size input .end = some call) :
    (rawFrame (cctx ++ input)).length ≤ size ∧
      call = ⟨[], input.length, rawFrame (cctx ++ input), 0⟩ := by
  simp only [rawCompress] at h
  split at h
  · rename_i hroom
    cases h
    exact ⟨hroom.2, rfl⟩
  · cases h

theorem rawCompress_contract : CompressContract rawCompress rawPending where
  inSize_pos := by decide
  outSize_pos := by decide
  consumed_le cctx size input mode call h := by
    cases mode with
    | «continue» =>
        cases h
        exact le_refl _
    | «end» =>
        obtain ⟨-, rfl⟩ := rawCompress_end h
        exact le_refl _
  output_le cctx size input mode call h := by
    cases mode with
    | «continue» =>
        cases h
        exact Nat.zero_le _
    | «end» =>
        obtain ⟨hle, rfl⟩ := rawCompress_end h
        exact hle
  progress cctx size input mode call h _ hleft := by
    cases mode with
    | «continue» =>
        cases h
        exact Or.inl (List.length_pos_of_ne_nil (hleft.resolve_right (fun hne => hne rfl)))
    | «end» =>
        obtain ⟨-, rfl⟩ := rawCompress_end h
        exact Or.inr (List.cons_ne_nil _ _)
  flushes cctx size input mode call h hleft hnone := by
    cases mode with
    | «continue» =>
        cases h
        exact le_refl _
    | «end» =>
        obtain ⟨-, rfl⟩ := rawCompress_end h
        obtain rfl : input = [] := List.eq_nil_of_length_eq_zero hnone
        have hheld : cctx ≠ [] := by
          rintro rfl
          simp [rawPending] at hleft
        simp [rawPending, hheld]
  remaining_eq_zero cctx size input call h := by
    obtain ⟨-, rfl⟩ := rawCompress_end h
    simp [rawPending]

/-- A zstd that puts the frame out first and takes the input afterwards; the context
tells whether the frame is out. -/
def lateCompress : ZstdCompress Bool where
  createCCtx := some false
  setParameter cctx _ _ := some cctx
  cStreamInSize := 131072
  cStreamOutSize := 131591
  compressStream2 cctx size input
    | .continue => some ⟨cctx, input.length, [], 0⟩
    | .end =>
        if cctx then some ⟨cctx, input.length, [], 0⟩
        else if input.length < 256 ∧ (rawFrame input).length ≤ size then
          some ⟨true, 0, rawFrame input, input.length⟩
        else none

/-- The output that `lateCompress` holds back. -/
def latePending (cctx : Bool) : EndDirective → ℕ
  | .continue => 0
  | .end => if cctx then 0 else 264

/-- What a successful call of `lateCompress` with `ZSTD_e_end` does. -/
theorem lateCompress_end {cctx : Bool} {input : List UInt8} {size : ℕ} {call : CompressCall Bool}
    (h : lateCompress.compressStream2 cctx size input .end = some call) :
    cctx = true ∧ call = ⟨true, input.length, [], 0⟩ ∨
      cctx = false ∧ input.length < 256 ∧ (rawFrame input).length ≤ size ∧
        call = ⟨true, 0, rawFrame input, input.length⟩ := by
  cases cctx with
  | true =>
      cases h
      exact Or.inl ⟨rfl, rfl⟩
  | false =>
      simp only [lateCompress, Bool.false_eq_true, if_false] at h
      split at h
      · rename_i hroom
        cases h
        exact Or.inr ⟨rfl, hroom.1, hroom.2, rfl⟩
      · cases h

theorem lateCompress_contract : CompressContract lateCompress latePending where
  inSize_pos := by decide
  outSize_pos := by decide
  consumed_le cctx size input mode call h := by
    cases mode with
    | «continue» =>
        cases h
        exact le_refl _
    | «end» =>
        rcases lateCompress_end h with ⟨-, rfl⟩ | ⟨-, -, -, rfl⟩
        · exact le_refl _
        · exact Nat.zero_le _
  output_le cctx size input mode call h := by
    cases mode with
    | «continue» =>
        cases h
        exact Nat.zero_le _
    | «end» =>
        rcases lateCompress_end h with ⟨-, rfl⟩ | ⟨-, -, hroom, rfl⟩
        · exact Nat.zero_le _
        · exact hroom
  progress cctx size input mode call h _ hleft := by
    cases mode with
    | «continue» =>
        cases h
        exact Or.inl (List.length_pos_of_ne_nil (hleft.resolve_right (fun hne => hne rfl)))
    | «end» =>
        rcases lateCompress_end h with ⟨rfl, rfl⟩ | ⟨-, -, -, rfl⟩
        · exact Or.inl (List.length_pos_of_ne_nil (hleft.resolve_right (fun hne => hne rfl)))
        · exact Or.inr (List.cons_ne_nil _ _)
  flushes cctx size input mode call h hleft hnone := by
    cases mode with
    | «continue» =>
        cases h
        exact le_refl _
    | «end» =>
        rcases lateCompress_end h with ⟨rfl, rfl⟩ | ⟨rfl, hshort, -, rfl⟩
        · exact le_refl _
        · have hlength : (rawFrame input).length = input.length + 9 := rfl
          show 0 + (rawFrame input).length ≤ 264
          omega
  remaining_eq_zero cctx size input call h := by
    rcases lateCompress_end h with ⟨-, rfl⟩ | ⟨-, -, -, rfl⟩
    · simp [latePending]
    · simp [latePending]

/-- The slice `[97]` takes two calls: the first puts the frame out and leaves the input, the
second takes the input.  None reports an error. -/
theorem errorFree_late : ErrorFree lateCompress ⟨[97], 0, 1, 1, 0, []⟩ := by
  have hone : ∀ cctx index input, Issued lateCompress ⟨[97], 0, 1, 1, 0, []⟩ cctx index input →
      index = 0 ∧ input = [97] := by
    intro cctx index input hissued
    induction hissued with
    | first h => exact ⟨rfl, by decide⟩
    | again _ hcall hmore ih =>
        obtain ⟨rfl, rfl⟩ := ih
        rcases lateCompress_end hcall with ⟨-, rfl⟩ | ⟨-, -, -, rfl⟩
        · exact absurd rfl hmore
        · exact ⟨rfl, rfl⟩
    | next _ _ _ hlast ih =>
        obtain ⟨rfl, -⟩ := ih
        exact absurd hlast (by decide)
  refine ⟨⟨false, rfl⟩, fun cctx index input hissued => ?_⟩
  obtain ⟨rfl, rfl⟩ := hone cctx index input hissued
  cases cctx with
  | true => exact ⟨_, rfl⟩
  | false => exact ⟨_, rfl⟩

/-- The slice `[97]`, compressed in two calls. -/
theorem compress_accounts_late :
    ∃ f' n, (∀ fuel ≥ n, compress lateCompress fuel ⟨[97], 0, 1, 1, 0, []⟩ = .ok f') ∧
      ∃ segments, Accounted lateCompress ⟨[97], 0, 1, 1, 0, []⟩ f' segments :=
  compress_accounts lateCompress latePending ⟨[97], 0, 1, 1, 0, []⟩ lateCompress_contract
    (by decide) (by decide) rfl errorFree_late

end SliceTransfer
