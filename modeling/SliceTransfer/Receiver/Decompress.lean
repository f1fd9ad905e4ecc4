import SliceTransfer.Machine
import SliceTransfer.Lib.Bytes

/-!
# The decompression loop

`ZstdDecompress` is the part of zstd that the receiver calls; it is a parameter of
the model, and `Bounded` is the one documented property of it that memory safety
rests on: `pos` never passes `size`, neither in the input nor in the output.

`decompress` is `ZSTDDecompressUtil::Decompress`.  Besides the value it returns,
it records the window of the output buffer that each call of
`ZSTD_decompressStream` was given, and the bytes the call left there.
-/

namespace SliceTransfer

open Bytes

/-- What a successful call of `ZSTD_decompressStream` does. -/
structure DecompressCall (D : Type) where
  dctx : D
  consumed : ℕ
  output : List UInt8

/-- The decompression side of zstd; `none` stands for a null context and for a
return value that `ZSTD_isError` accepts. -/
structure ZstdDecompress (D : Type) where
  createDCtx : Option D
  dStreamOutSize : ℕ
  decompressStream : D → ℕ → List UInt8 → Option (DecompressCall D)

/-- `ZSTD_decompressStream` stays inside its two buffers. -/
structure ZstdDecompress.Bounded {D : Type} (z : ZstdDecompress D) : Prop where
  consumed_le : ∀ {dctx size input call}, z.decompressStream dctx size input = some call →
    call.consumed ≤ input.length
  output_le : ∀ {dctx size input call}, z.decompressStream dctx size input = some call →
    call.output.length ≤ size

/-- The room a call was offered, relative to `out_buf`, and what it stored there. -/
structure OutWindow where
  start : ℕ
  size : ℕ
  bytes : List UInt8
  deriving DecidableEq, Repr

variable {D : Type} (z : ZstdDecompress D)

/-- `output.size` for the next call. -/
def offered (isWholeSlice : Bool) (outBufSize outIndex : ℕ) : ℕ :=
  if isWholeSlice then subSizeT outBufSize outIndex else outBufSize

/-- The loop of `Decompress`.  The first argument counts the evaluations of the
loop condition that are observed; `none` means that the loop is still running. -/
def decompressLoop (isWholeSlice : Bool) (outBufSize : ℕ) :
    ℕ → D → List UInt8 → ℕ → List OutWindow × Option ℤ
  | 0, _, _, _ => ([], none)
  | fuel + 1, dctx, input, outIndex =>
      if input = [] then ([], some (int32 outIndex))
      else
        match z.decompressStream dctx (offered isWholeSlice outBufSize outIndex) input with
        | none => ([⟨outIndex, offered isWholeSlice outBufSize outIndex, []⟩], some (-1))
        | some call =>
            let later := decompressLoop isWholeSlice outBufSize fuel call.dctx
              (input.drop call.consumed) (outIndex + call.output.length)
            (⟨outIndex, offered isWholeSlice outBufSize outIndex, call.output⟩ :: later.1, later.2)

/-- `Decompress(in_buf, in_buf_size, out_buf, out_buf_size)`. -/
def decompress (fuel : ℕ) (input : List UInt8) (outBufSize : ℕ) : List OutWindow × Option ℤ :=
  match z.createDCtx with
  | none => ([], some (-1))
  | some dctx =>
      let isWholeSlice := decide (outBufSize ≠ 0)
      let outBufSize := if outBufSize = 0 then z.dStreamOutSize else outBufSize
      decompressLoop z isWholeSlice outBufSize fuel dctx input 0

/-- The bytes the calls stored, in order. -/
def outputs (windows : List OutWindow) : List UInt8 := windows.flatMap OutWindow.bytes

/-- The output file after the calls, `out_buf` being at offset `buf` in it. -/
def storeWindows (file : List UInt8) (buf : ℕ) (windows : List OutWindow) : List UInt8 :=
  windows.foldl (fun file w => overwrite file (buf + w.start) w.bytes) file

@[simp] theorem outputs_nil : outputs [] = [] := rfl

@[simp] theorem outputs_cons (w : OutWindow) (windows : List OutWindow) :
    outputs (w :: windows) = w.bytes ++ outputs windows := rfl

variable {z}

theorem offered_whole {outBufSize outIndex : ℕ} (hle : outIndex ≤ outBufSize)
    (hlt : outBufSize < 2 ^ 64) : offered true outBufSize outIndex = outBufSize - outIndex :=
  subSizeT_of_le hle hlt

/-! ## Unfolding one iteration -/

theorem decompressLoop_nil (isWholeSlice : Bool) (outBufSize fuel : ℕ) (dctx : D) (outIndex : ℕ) :
    decompressLoop z isWholeSlice outBufSize (fuel + 1) dctx [] outIndex =
      ([], some (int32 outIndex)) := by
  rw [decompressLoop, if_pos rfl]

theorem decompressLoop_error {isWholeSlice : Bool} {outBufSize outIndex : ℕ} {dctx : D}
    {input : List UInt8} (fuel : ℕ) (hne : input ≠ [])
    (hcall : z.decompressStream dctx (offered isWholeSlice outBufSize outIndex) input = none) :
    decompressLoop z isWholeSlice outBufSize (fuel + 1) dctx input outIndex =
      ([⟨outIndex, offered isWholeSlice outBufSize outIndex, []⟩], some (-1)) := by
  rw [decompressLoop, if_neg hne, hcall]

theorem decompressLoop_call {isWholeSlice : Bool} {outBufSize outIndex : ℕ} {dctx : D}
    {input : List UInt8} {call : DecompressCall D} (fuel : ℕ) (hne : input ≠ [])
    (hcall : z.decompressStream dctx (offered isWholeSlice outBufSize outIndex) input = some call) :
    decompressLoop z isWholeSlice outBufSize (fuel + 1) dctx input outIndex =
      (⟨outIndex, offered isWholeSlice outBufSize outIndex, call.output⟩ ::
          (decompressLoop z isWholeSlice outBufSize fuel call.dctx (input.drop call.consumed)
            (outIndex + call.output.length)).1,
        (decompressLoop z isWholeSlice outBufSize fuel call.dctx (input.drop call.consumed)
          (outIndex + call.output.length)).2) := by
  rw [decompressLoop, if_neg hne, hcall]

theorem decompress_of_createDCtx {dctx : D} (hctx : z.createDCtx = some dctx) (fuel : ℕ)
    (input : List UInt8) (outBufSize : ℕ) :
    decompress z fuel input outBufSize = decompressLoop z (decide (outBufSize ≠ 0))
      (if outBufSize = 0 then z.dStreamOutSize else outBufSize) fuel dctx input 0 := by
  rw [decompress, hctx]

/-! ## Where the loop writes -/

/-- The calls store consecutively from `outIndex` on. -/
theorem storeWindows_decompressLoop (file : List UInt8) (buf : ℕ) (isWholeSlice : Bool)
    (outBufSize fuel : ℕ) (dctx : D) (input : List UInt8) (outIndex : ℕ) :
    storeWindows file buf (decompressLoop z isWholeSlice outBufSize fuel dctx input outIndex).1 =
      overwrite file (buf + outIndex)
        (outputs (decompressLoop z isWholeSlice outBufSize fuel dctx input outIndex).1) := by
  induction fuel generalizing file dctx input outIndex with
  | zero => simp [decompressLoop, storeWindows]
  | succ fuel ih =>
      by_cases hnil : input = []
      · subst hnil
        simp [decompressLoop_nil, storeWindows]
      · cases hcall : z.decompressStream dctx (offered isWholeSlice outBufSize outIndex) input with
        | none => simp [decompressLoop_error fuel hnil hcall, storeWindows]
        | some call =>
            have hrest := ih (overwrite file (buf + outIndex) call.output) call.dctx
              (input.drop call.consumed) (outIndex + call.output.length)
            rw [decompressLoop_call fuel hnil hcall, outputs_cons, ← overwrite_overwrite_append,
              Nat.add_assoc, ← hrest]
            rfl

/-- In whole-slice mode every call is offered exactly the room that is left. -/
theorem window_eq_of_mem_decompressLoop (hz : z.Bounded) {outBufSize : ℕ}
    (hlt : outBufSize < 2 ^ 64) (fuel : ℕ) (dctx : D) (input : List UInt8) {outIndex : ℕ}
    (hle : outIndex ≤ outBufSize) {w : OutWindow}
    (hw : w ∈ (decompressLoop z true outBufSize fuel dctx input outIndex).1) :
    w.start + w.size = outBufSize := by
  induction fuel generalizing dctx input outIndex with
  | zero => simp [decompressLoop] at hw
  | succ fuel ih =>
      have hroom : outIndex + offered true outBufSize outIndex = outBufSize := by
        rw [offered_whole hle hlt]
        omega
      by_cases hnil : input = []
      · subst hnil
        simp [decompressLoop_nil] at hw
      · cases hcall : z.decompressStream dctx (offered true outBufSize outIndex) input with
        | none =>
            rw [decompressLoop_error fuel hnil hcall, List.mem_singleton] at hw
            rw [hw]
            exact hroom
        | some call =>
            have hout := hz.output_le hcall
            rw [decompressLoop_call fuel hnil hcall, List.mem_cons] at hw
            rcases hw with rfl | hlater
            · exact hroom
            · exact ih call.dctx (input.drop call.consumed) (by omega) hlater

theorem length_outputs_decompressLoop_le (hz : z.Bounded) {outBufSize : ℕ}
    (hlt : outBufSize < 2 ^ 64) (fuel : ℕ) (dctx : D) (input : List UInt8) {outIndex : ℕ}
    (hle : outIndex ≤ outBufSize) :
    outIndex + (outputs (decompressLoop z true outBufSize fuel dctx input outIndex).1).length ≤
      outBufSize := by
  induction fuel generalizing dctx input outIndex with
  | zero => simpa [decompressLoop] using hle
  | succ fuel ih =>
      by_cases hnil : input = []
      · subst hnil
        simpa [decompressLoop_nil] using hle
      · cases hcall : z.decompressStream dctx (offered true outBufSize outIndex) input with
        | none => simpa [decompressLoop_error fuel hnil hcall] using hle
        | some call =>
            have hout := hz.output_le hcall
            rw [offered_whole hle hlt] at hout
            have hrest := ih call.dctx (input.drop call.consumed)
              (show outIndex + call.output.length ≤ outBufSize by omega)
            rw [decompressLoop_call fuel hnil hcall, outputs_cons, List.length_append,
              ← Nat.add_assoc]
            exact hrest

/-! ## What the loop regenerates -/

/-- Successful calls that take the whole input, each offered the room that is left. -/
inductive Decompresses (z : ZstdDecompress D) : D → List UInt8 → ℕ → List UInt8 → Prop
  | done {dctx : D} {room : ℕ} : Decompresses z dctx [] room []
  | call {dctx : D} {input out : List UInt8} {room : ℕ} {call : DecompressCall D}
      (hne : input ≠ []) (hcall : z.decompressStream dctx room input = some call)
      (hrest : Decompresses z call.dctx (input.drop call.consumed) (room - call.output.length)
        out) :
      Decompresses z dctx input room (call.output ++ out)

/-- With room for `content`, the calls that take all of `frame` regenerate `content`. -/
def Decodes (z : ZstdDecompress D) (frame content : List UInt8) : Prop :=
  ∀ dctx out, z.createDCtx = some dctx → Decompresses z dctx frame content.length out →
    out = content

theorem decompresses_of_decompressLoop (hz : z.Bounded) {outBufSize fuel : ℕ}
    (hlt : outBufSize < 2 ^ 64) {dctx : D} {input : List UInt8} {outIndex : ℕ}
    (hle : outIndex ≤ outBufSize) {r : ℤ} (hr : r ≠ -1)
    (h : (decompressLoop z true outBufSize fuel dctx input outIndex).2 = some r) :
    Decompresses z dctx input (outBufSize - outIndex)
      (outputs (decompressLoop z true outBufSize fuel dctx input outIndex).1) := by
  induction fuel generalizing dctx input outIndex with
  | zero => cases h
  | succ fuel ih =>
      have hroom := offered_whole hle hlt
      by_cases hnil : input = []
      · subst hnil
        rw [decompressLoop_nil]
        exact .done
      · cases hcall : z.decompressStream dctx (offered true outBufSize outIndex) input with
        | none =>
            rw [decompressLoop_error fuel hnil hcall, Option.some_inj] at h
            exact absurd h.symm hr
        | some call =>
            have hout := hz.output_le hcall
            rw [hroom] at hout
            rw [decompressLoop_call fuel hnil hcall] at h ⊢
            have hrest := ih (show outIndex + call.output.length ≤ outBufSize by omega) h
            rw [← Nat.sub_sub] at hrest
            rw [hroom] at hcall
            exact .call hnil hcall hrest

section WholeSlice

variable {outBufSize : ℕ} (hne : outBufSize ≠ 0) (hlt : outBufSize < 2 ^ 64) (fuel : ℕ)
  (input : List UInt8)

include hne hlt in
theorem length_outputs_decompress_le (hz : z.Bounded) :
    (outputs (decompress z fuel input outBufSize).1).length ≤ outBufSize := by
  cases hctx : z.createDCtx with
  | none => simp [decompress, hctx]
  | some dctx =>
      rw [decompress_of_createDCtx hctx, decide_eq_true hne, if_neg hne]
      have hle := length_outputs_decompressLoop_le hz hlt fuel dctx input (Nat.zero_le outBufSize)
      rwa [Nat.zero_add] at hle

theorem storeWindows_decompress (file : List UInt8) (buf outBufSize : ℕ) :
    storeWindows file buf (decompress z fuel input outBufSize).1 =
      overwrite file buf (outputs (decompress z fuel input outBufSize).1) := by
  cases hctx : z.createDCtx with
  | none => simp [decompress, hctx, storeWindows]
  | some dctx =>
      rw [decompress_of_createDCtx hctx, storeWindows_decompressLoop, Nat.add_zero]

include hne hlt in
/-- A `Decompress` that does not fail regenerates the slice. -/
theorem outputs_decompress (hz : z.Bounded) {content : List UInt8}
    (hlen : outBufSize = content.length) (hdecodes : Decodes z input content) {r : ℤ}
    (hr : r ≠ -1) (h : (decompress z fuel input outBufSize).2 = some r) :
    outputs (decompress z fuel input outBufSize).1 = content := by
  cases hctx : z.createDCtx with
  | none =>
      rw [decompress, hctx, Option.some_inj] at h
      exact absurd h.symm hr
  | some dctx =>
      rw [decompress_of_createDCtx hctx, decide_eq_true hne, if_neg hne] at h ⊢
      have hcalls := decompresses_of_decompressLoop hz hlt (Nat.zero_le outBufSize) hr h
      rw [Nat.sub_zero, hlen] at hcalls
      rw [hlen]
      exact hdecodes dctx _ hctx hcalls

end WholeSlice

end SliceTransfer
