import SliceTransfer.Sender.FileSlice

/-!
# The compression loop

`ZstdCompress` is the part of zstd that the sender calls; it is a parameter of the
model.  `compress` is `ZSTDCompressUtil::Compress`: an outer loop over input buffers
and an inner loop that calls `ZSTD_compressStream2` until the buffer has been taken,
each time with a fresh output buffer, which is linked to the slice.

A `Session` is what zstd sees of it: calls that feed bytes with `ZSTD_e_continue`,
then calls with `ZSTD_e_end` until one returns zero.  `compress_ok` says that a
returning `Compress` has fed exactly the bytes of its slice to one session, and has
linked exactly the outputs of the session.
-/

namespace SliceTransfer

open Bytes FileSlice

/-! ## zstd -/

inductive EndDirective
  | continue
  | end
  deriving DecidableEq, Repr

/-- The parameters that `Compress` sets. -/
inductive CParameter
  | compressionLevel
  | checksumFlag
  deriving DecidableEq, Repr

/-- What a successful call of `ZSTD_compressStream2` does. -/
structure CompressCall (C : Type) where
  cctx : C
  consumed : ℕ
  output : List UInt8
  remaining : ℕ

/-- The compression side of zstd; `none` stands for a null context and for a return
value that `ZSTD_isError` accepts. -/
structure ZstdCompress (C : Type) where
  createCCtx : Option C
  setParameter : C → CParameter → ℤ → Option C
  cStreamInSize : ℕ
  cStreamOutSize : ℕ
  compressStream2 : C → ℕ → List UInt8 → EndDirective → Option (CompressCall C)

/-! ## `Compress` -/

/-- How a `Compress` ends that does not return a buffer: it returns a null pointer,
or it is still running. -/
inductive CompressStop
  | nullReturned
  | unfinished
  deriving DecidableEq, Repr

section Compress

variable {C : Type} (z : ZstdCompress C)

/-- The context with its two parameters set. -/
def newCCtx (cLevel : ℤ) : Option C := do
  let cctx ← z.createCCtx
  let cctx ← z.setParameter cctx .compressionLevel cLevel
  z.setParameter cctx .checksumFlag 0

/-- The local state of `Compress` that its loops change. -/
structure CompressState (C : Type) where
  cctx : C
  slice : FileSlice
  compressedSize : ℕ

/-- The inner loop on what is left of the input buffer. -/
def compressChunk (buffOutSize : ℕ) (lastChunk : Bool) :
    ℕ → List UInt8 → CompressState C → Except CompressStop (CompressState C)
  | 0, _, _ => .error .unfinished
  | fuel + 1, input, s =>
      match z.compressStream2 s.cctx buffOutSize input (if lastChunk then .end else .continue) with
      | none => .error .nullReturned
      | some call =>
          let input := input.drop call.consumed
          let s : CompressState C := ⟨call.cctx, s.slice.linkCompressChunk call.output,
            s.compressedSize + call.output.length⟩
          let finished := if lastChunk then call.remaining = 0 else input = []
          if finished then .ok s else compressChunk buffOutSize lastChunk fuel input s

/-- The outer loop from `index` on; `buffIn` are the bytes of the slice. -/
def compressLoop (buffInSize buffOutSize : ℕ) (buffIn : List UInt8) (sliceLen chunkFuel : ℕ) :
    ℕ → ℕ → CompressState C → Except CompressStop FileSlice
  | 0, _, _ => .error .unfinished
  | fuel + 1, index, s =>
      let lastChunk := decide (sliceLen ≤ index + buffInSize)
      let actBuffInSize := if lastChunk then sliceLen - index else buffInSize
      let input := window buffIn index actBuffInSize
      match compressChunk z buffOutSize lastChunk chunkFuel input s with
      | .error stop => .error stop
      | .ok s =>
          if lastChunk then .ok (s.slice.setChunkLinksHeader s.compressedSize)
          else compressLoop buffInSize buffOutSize buffIn sliceLen chunkFuel fuel
            (index + actBuffInSize) s

/-- `buff_in_size` and `buff_out_size`. -/
def bufferSizes (len : ℕ) : ℕ × ℕ :=
  if len < 1024 * 1024 then (z.cStreamInSize, z.cStreamOutSize)
  else (13 * 1024 * 1024 / 2, 4 * 1024 * 1024)

/-- `Compress(slice)`, with the level that `Init` chose; the loops are observed for
`fuel` iterations each.  It returns the slice with its chunks linked. -/
def compress (fuel : ℕ) (slice : FileSlice) : Except CompressStop FileSlice :=
  match newCCtx z 1 with
  | none => .error .nullReturned
  | some cctx =>
      compressLoop z (bufferSizes z slice.len).1 (bufferSizes z slice.len).2 slice.content
        slice.len fuel fuel 0 ⟨cctx, slice, 0⟩

end Compress

/-! ## Sessions -/

section Sessions

variable {C : Type}

/-- The calls that close a session: the input is offered with `ZSTD_e_end` until zero
is returned. -/
inductive Closes (z : ZstdCompress C) : C → List UInt8 → List UInt8 → Prop
  | closed {cctx : C} {size : ℕ} {input : List UInt8} {call : CompressCall C}
      (hcall : z.compressStream2 cctx size input .end = some call) (hzero : call.remaining = 0) :
      Closes z cctx input call.output
  | more {cctx : C} {size : ℕ} {input frame : List UInt8} {call : CompressCall C}
      (hcall : z.compressStream2 cctx size input .end = some call) (hmore : call.remaining ≠ 0)
      (hrest : Closes z call.cctx (input.drop call.consumed) frame) :
      Closes z cctx input (call.output ++ frame)

/-- A session that is fed `fed` and puts out `frame`. -/
inductive Session (z : ZstdCompress C) : C → List UInt8 → List UInt8 → Prop
  | close {cctx : C} {fed frame : List UInt8} (h : Closes z cctx fed frame) :
      Session z cctx fed frame
  | feed {cctx : C} {size : ℕ} {input fed frame : List UInt8} {call : CompressCall C}
      (hcall : z.compressStream2 cctx size input .continue = some call)
      (hrest : Session z call.cctx fed frame) :
      Session z cctx (input.take call.consumed ++ fed) (call.output ++ frame)

variable {z : ZstdCompress C} {buffInSize buffOutSize : ℕ}

/-- The state behind calls with the outputs `chunks`. -/
def CompressState.link (s : CompressState C) (cctx : C) (chunks : List (List UInt8)) :
    CompressState C :=
  ⟨cctx, chunks.foldl linkCompressChunk s.slice,
    s.compressedSize + (chunks.map List.length).sum⟩

theorem CompressState.link_cons (s : CompressState C) (cctx cctx' : C) (chunk : List UInt8)
    (chunks : List (List UInt8)) :
    (s.link cctx' [chunk]).link cctx chunks = s.link cctx (chunk :: chunks) := by
  simp [link, Nat.add_assoc]

theorem CompressState.link_append (s : CompressState C) (cctx cctx' : C)
    (chunks more : List (List UInt8)) :
    (s.link cctx' chunks).link cctx more = s.link cctx (chunks ++ more) := by
  simp [link, Nat.add_assoc]

/-- What one call does to the state. -/
theorem compressChunk_cases {lastChunk : Bool} {fuel : ℕ} {input : List UInt8}
    {s s' : CompressState C}
    (h : compressChunk z buffOutSize lastChunk (fuel + 1) input s = .ok s') :
    ∃ call, z.compressStream2 s.cctx buffOutSize input
        (if lastChunk then .end else .continue) = some call ∧
      ((if lastChunk then call.remaining = 0 else input.drop call.consumed = []) ∧
          s' = s.link call.cctx [call.output] ∨
        ¬ (if lastChunk then call.remaining = 0 else input.drop call.consumed = []) ∧
          compressChunk z buffOutSize lastChunk fuel (input.drop call.consumed)
            (s.link call.cctx [call.output]) = .ok s') := by
  rw [compressChunk] at h
  cases hcall : z.compressStream2 s.cctx buffOutSize input
      (if lastChunk then .end else .continue) with
  | none => rw [hcall] at h; cases h
  | some call =>
      rw [hcall] at h
      refine ⟨call, rfl, ?_⟩
      have hlink : s.link call.cctx [call.output] = ⟨call.cctx,
          s.slice.linkCompressChunk call.output, s.compressedSize + call.output.length⟩ := by
        simp [CompressState.link]
      rw [hlink]
      by_cases hdone : if lastChunk then call.remaining = 0 else input.drop call.consumed = []
      · simp only [hdone, if_true, Except.ok.injEq] at h
        exact Or.inl ⟨hdone, h.symm⟩
      · simp only [hdone, if_false] at h
        exact Or.inr ⟨hdone, h⟩

/-- An inner loop that is not the last one feeds its input. -/
theorem compressChunk_continue {fuel : ℕ} {input : List UInt8} {s s' : CompressState C}
    (h : compressChunk z buffOutSize false fuel input s = .ok s') :
    ∃ chunks, s' = s.link s'.cctx chunks ∧ ∀ fed frame, Session z s'.cctx fed frame →
      Session z s.cctx (input ++ fed) (chunks.flatten ++ frame) := by
  induction fuel generalizing input s with
  | zero => cases h
  | succ fuel ih =>
      obtain ⟨call, hcall, ⟨hdone, rfl⟩ | ⟨-, hrest⟩⟩ := compressChunk_cases h
      · refine ⟨[call.output], rfl, fun fed frame hsession => ?_⟩
        have hall : input.take call.consumed = input := by
          have := List.take_append_drop call.consumed input
          rwa [show input.drop call.consumed = [] from hdone, List.append_nil] at this
        have hfeed := Session.feed hcall hsession
        rw [hall] at hfeed
        simpa using hfeed
      · obtain ⟨chunks, hlink, hsession⟩ := ih hrest
        refine ⟨call.output :: chunks, ?_, fun fed frame hlater => ?_⟩
        · rw [← s.link_cons s'.cctx call.cctx]
          exact hlink
        · have hfeed := Session.feed hcall (hsession fed frame hlater)
          rwa [← List.append_assoc, List.take_append_drop, ← List.append_assoc] at hfeed

/-- The last inner loop closes the session. -/
theorem compressChunk_end {fuel : ℕ} {input : List UInt8} {s s' : CompressState C}
    (h : compressChunk z buffOutSize true fuel input s = .ok s') :
    ∃ chunks, chunks ≠ [] ∧ s' = s.link s'.cctx chunks ∧
      Closes z s.cctx input chunks.flatten := by
  induction fuel generalizing input s with
  | zero => cases h
  | succ fuel ih =>
      obtain ⟨call, hcall, ⟨hdone, rfl⟩ | ⟨hmore, hrest⟩⟩ := compressChunk_cases h
      · refine ⟨[call.output], List.cons_ne_nil _ _, rfl, ?_⟩
        have hclosed := Closes.closed hcall hdone
        simpa using hclosed
      · obtain ⟨chunks, -, hlink, hcloses⟩ := ih hrest
        refine ⟨call.output :: chunks, List.cons_ne_nil _ _, ?_, ?_⟩
        · rw [← s.link_cons s'.cctx call.cctx]
          exact hlink
        · exact Closes.more hcall hmore hcloses

theorem compressLoop_ok {buffIn : List UInt8} {chunkFuel fuel index : ℕ} {s : CompressState C}
    {f : FileSlice}
    (h : compressLoop z buffInSize buffOutSize buffIn buffIn.length chunkFuel fuel index s =
      .ok f) :
    ∃ cctx chunks, chunks ≠ [] ∧ Session z s.cctx (buffIn.drop index) chunks.flatten ∧
      f = (s.link cctx chunks).slice.setChunkLinksHeader (s.link cctx chunks).compressedSize := by
  induction fuel generalizing index s with
  | zero => cases h
  | succ fuel ih =>
      rw [compressLoop] at h
      by_cases hlast : buffIn.length ≤ index + buffInSize
      · have hrest : window buffIn index (buffIn.length - index) = buffIn.drop index := by
          rw [window, ← List.length_drop, List.take_length]
        simp only [hlast, decide_true, if_true, hrest] at h
        cases hchunk : compressChunk z buffOutSize true chunkFuel (buffIn.drop index) s with
        | error stop => rw [hchunk] at h; cases h
        | ok s' =>
            rw [hchunk] at h
            cases h
            obtain ⟨chunks, hne, hlink, hcloses⟩ := compressChunk_end hchunk
            exact ⟨s'.cctx, chunks, hne, .close hcloses, by rw [← hlink]⟩
      · simp only [hlast, decide_false, Bool.false_eq_true, if_false] at h
        cases hchunk : compressChunk z buffOutSize false chunkFuel
            (window buffIn index buffInSize) s with
        | error stop => rw [hchunk] at h; cases h
        | ok s' =>
            rw [hchunk] at h
            obtain ⟨chunks, hlink, hfeeds⟩ := compressChunk_continue hchunk
            obtain ⟨cctx, more, hne, hsession, hf⟩ := ih h
            have hfed : window buffIn index buffInSize ++ buffIn.drop (index + buffInSize) =
                buffIn.drop index := by
              rw [window, ← List.drop_drop, List.take_append_drop]
            refine ⟨cctx, chunks ++ more, List.append_ne_nil_of_right_ne_nil _ hne, ?_, ?_⟩
            · rw [← hfed, List.flatten_append]
              exact hfeeds _ _ hsession
            · rw [hf, hlink, CompressState.link_append]

/-- **A `Compress` that returns a buffer has fed the slice to one session and linked
the outputs of the session.** -/
theorem compress_ok {fuel : ℕ} {f f' : FileSlice} (hlen : f.content.length = f.len)
    (h : compress z fuel f = .ok f') :
    ∃ cctx chunks, newCCtx z 1 = some cctx ∧ chunks ≠ [] ∧
      Session z cctx f.content chunks.flatten ∧
      f' = (chunks.foldl linkCompressChunk f).setChunkLinksHeader
        (chunks.map List.length).sum := by
  rw [compress] at h
  cases hcctx : newCCtx z 1 with
  | none => rw [hcctx] at h; cases h
  | some cctx =>
      rw [hcctx] at h
      simp only [← hlen] at h
      obtain ⟨cctx', chunks, hne, hsession, hf⟩ := compressLoop_ok h
      refine ⟨cctx, chunks, rfl, hne, hsession, ?_⟩
      rw [hf]
      simp [CompressState.link]

end Sessions

end SliceTransfer
