import SliceTransfer.Machine
import SliceTransfer.Lib.Bytes
import SliceTransfer.Lib.Segmentation

/-!
# The sender's slices

`splitFile` is `FileSlice::SplitFile`: two adjustments of the flags, then a
do-while loop that recognises the last slice by an equality on a running sum.
`splitLoop_eq` is its specification: for an effective segment size between one
and the buffer size the loop produces the pieces of a `Segmentation`, one per
iteration, and needs exactly `count` iterations.

`linkCompressChunk` and `setChunkLinksHeader` build the frame of one slice: a
ten-byte header, written in two steps, followed by the compressed chunks.
-/

namespace SliceTransfer

open Bytes

/-- The two flags that `SplitFile` reads and rewrites: `FLAGS_segment_size` and
`FLAGS_jobs`. -/
structure Flags where
  segmentSize : ℤ
  jobs : ℤ
  deriving DecidableEq, Repr

/-- `FileSlice`.  The field `slice` is the memory `slice_` points to, the mapped
file; a chunk is the bytes it holds. -/
structure FileSlice where
  slice : List UInt8
  index : ℕ
  len : ℕ
  splitLen : ℕ
  cLen : ℕ
  compressBuf : List (List UInt8)
  deriving DecidableEq, Repr

namespace FileSlice

/-- `GetBuf`, as an offset from `slice_`. -/
def getBuf (f : FileSlice) : ℕ := f.index * f.splitLen % 2 ^ 64

/-- The bytes of the file that the slice stands for. -/
def content (f : FileSlice) : List UInt8 := window f.slice f.getBuf f.len

/-! ## Splitting the file -/

/-- The first adjustment of `SplitFile`: a segment size of zero asks for the default. -/
def defaultSegmentSize (flags : Flags) (bufSize : ℕ) : Except Fault Flags :=
  if flags.segmentSize = 0 then
    if sizeT flags.jobs = 0 then .error .divideByZero
    else .ok { flags with segmentSize := int64 ↑(bufSize / sizeT flags.jobs) }
  else .ok flags

/-- The second adjustment: the segment size is clamped to the range of `int`. -/
def clampSegmentSize (bufSize : ℕ) (flags : Flags) : Flags :=
  if (intMax : ℤ) < flags.segmentSize then
    { segmentSize := intMax, jobs := int32 ↑(bufSize / intMax) }
  else flags

/-- Both adjustments at the head of `SplitFile`. -/
def adjustFlags (flags : Flags) (bufSize : ℕ) : Except Fault Flags :=
  (defaultSegmentSize flags bufSize).map (clampSegmentSize bufSize)

/-- The do-while loop of `SplitFile`: the slices it pushes from the state
`(index, fIndex)` on. -/
def splitLoop (buf : List UInt8) (bufSize segmentSize rest : ℕ) :
    ℕ → ℕ → ℕ → Except Fault (List FileSlice)
  | 0, _, _ => throw Fault.unfinished
  | fuel + 1, index, fIndex => do
      let sliceSize :=
        if (fIndex + segmentSize + rest) % 2 ^ 64 = bufSize then (segmentSize + rest) % 2 ^ 64
        else segmentSize
      let pushed : FileSlice := ⟨buf, index, sliceSize, segmentSize, 0, []⟩
      let fIndex := (fIndex + sliceSize) % 2 ^ 64
      if fIndex < bufSize then
        let others ← splitLoop buf bufSize segmentSize rest fuel ((index + 1) % 2 ^ 16) fIndex
        pure (pushed :: others)
      else pure [pushed]

/-- `SplitFile`, observed for `fuel` iterations of its loop.  It returns the
rewritten flags along with the slices. -/
def splitFile (fuel : ℕ) (flags : Flags) (buf : List UInt8) (bufSize : ℕ) :
    Except Fault (Flags × List FileSlice) := do
  let flags ← adjustFlags flags bufSize
  if sizeT flags.segmentSize = 0 then throw Fault.divideByZero
  let rest := bufSize % sizeT flags.segmentSize
  let slices ← splitLoop buf bufSize (sizeT flags.segmentSize) rest fuel 0 0
  pure (flags, slices)

/-! ## Framing the compressed chunks -/

/-- `LinkCompressChunk`: the first chunk is preceded by a header that holds the
index and the length, its last four bytes still zero. -/
def linkCompressChunk (f : FileSlice) (chunk : List UInt8) : FileSlice :=
  let compressBuf :=
    if f.compressBuf = [] then [bigEndian 2 f.index ++ bigEndian 4 f.len ++ bigEndian 4 0]
    else f.compressBuf
  { f with compressBuf := compressBuf ++ [chunk] }

/-- `SetChunkLinksHeader`: record the compressed size and store it in the last
four bytes of the header. -/
def setChunkLinksHeader (f : FileSlice) (compressedSize : ℕ) : FileSlice :=
  { f with
    cLen := compressedSize
    compressBuf := match f.compressBuf with
      | [] => []
      | header :: chunks => overwrite header 6 (bigEndian 4 compressedSize) :: chunks }

/-- What `SendFileSlice` has to put on the wire for the slice. -/
def wire (f : FileSlice) : List UInt8 := f.compressBuf.flatten

/-! ## The flags after the adjustments -/

/-- With the computed default the effective segment size is `bufSize / jobs`. -/
theorem adjustFlags_default {flags : Flags} {bufSize j : ℕ} (hseg : flags.segmentSize = 0)
    (hjobs : flags.jobs = j) (hj : 0 < j) (hlt : j < 2 ^ 64) (hmax : bufSize / j ≤ intMax) :
    adjustFlags flags bufSize = .ok { flags with segmentSize := ↑(bufSize / j) } := by
  have hint : int64 ↑(bufSize / j) = ↑(bufSize / j) := int64_of_lt (by unfold intMax at hmax; omega)
  have hclamp : ¬ (intMax : ℤ) < ↑(bufSize / j) := by omega
  rw [adjustFlags, defaultSegmentSize, if_pos hseg, hjobs, sizeT_natCast hlt, if_neg hj.ne', hint,
    Except.map, clampSegmentSize, if_neg hclamp]

/-! ## What the loop produces -/

/-- The `i`-th slice of a segmented file. -/
def piece (S : Segmentation) (buf : List UInt8) (i : ℕ) : FileSlice :=
  ⟨buf, i % 2 ^ 16, S.length i, S.size, 0, []⟩

/-- The loop, started at piece `i`: one slice per piece, as many iterations as
there are pieces left. -/
theorem splitLoop_eq {S : Segmentation} (htotal : S.total < 2 ^ 64) (buf : List UInt8) (fuel : ℕ) :
    ∀ i < S.count, splitLoop buf S.total S.size (S.total % S.size) fuel (i % 2 ^ 16) (S.offset i) =
      if S.count - i ≤ fuel then .ok ((List.range' i (S.count - i)).map (piece S buf))
      else .error .unfinished := by
  induction fuel with
  | zero =>
      intro i hi
      rw [if_neg (by omega)]
      rfl
  | succ fuel ih =>
      intro i hi
      have hend := S.offset_add_length_le hi
      have hsize := S.size_le_length i
      -- the equality test recognises exactly the last piece
      have hlast : (S.offset i + S.size + S.total % S.size) % 2 ^ 64 = S.total ↔
          i + 1 = S.count := by
        have hstep : S.offset (i + 1) = S.offset i + S.size := Nat.add_one_mul i S.size
        have hcount : S.offset S.count + S.total % S.size = S.total := S.count_mul_add_mod
        have hbound : S.offset (i + 1) ≤ S.offset S.count := S.offset_mono (Nat.succ_le_of_lt hi)
        rw [Nat.mod_eq_of_lt (by omega)]
        constructor
        · intro heq
          have : (i + 1) * S.size = S.count * S.size := by
            change S.offset (i + 1) = S.offset S.count
            omega
          exact Nat.eq_of_mul_eq_mul_right S.size_pos this
        · intro heq
          rw [heq] at hstep
          omega
      have hlength : (if (S.offset i + S.size + S.total % S.size) % 2 ^ 64 = S.total then
          (S.size + S.total % S.size) % 2 ^ 64 else S.size) = S.length i := by
        unfold Segmentation.length
        by_cases hcase : i + 1 = S.count
        · have : S.length i = S.size + S.total % S.size := if_pos hcase
          rw [if_pos (hlast.mpr hcase), if_pos hcase, Nat.mod_eq_of_lt (by omega)]
        · rw [if_neg (mt hlast.mp hcase), if_neg hcase]
      rw [splitLoop]
      simp only [hlength, Nat.mod_eq_of_lt (show S.offset i + S.length i < 2 ^ 64 by omega)]
      by_cases hcase : i + 1 = S.count
      · have hone : S.count - i = 1 := by omega
        rw [S.offset_add_length_last hcase, if_neg (lt_irrefl _), if_pos (by omega), hone]
        rfl
      · have hlt : i + 1 < S.count := by omega
        have hoffset := S.offset_add_length hlt
        have hbelow : S.offset (i + 1) < S.total :=
          (Nat.lt_add_of_pos_right (S.length_pos (i + 1))).trans_le (S.offset_add_length_le hlt)
        have hcons : S.count - i = S.count - (i + 1) + 1 := by omega
        rw [hoffset, if_pos hbelow, Nat.mod_add_mod, ih (i + 1) hlt, hcons, List.range'_succ]
        by_cases hfuel : S.count - (i + 1) ≤ fuel
        · rw [if_pos hfuel, if_pos (by omega)]
          rfl
        · rw [if_neg hfuel, if_neg (by omega)]
          rfl

/-- The segmentation that an effective segment size stands for. -/
def segmentation (bufSize : ℕ) (segmentSize : ℤ) (hpos : 1 ≤ segmentSize)
    (hle : segmentSize ≤ bufSize) : Segmentation where
  total := bufSize
  size := segmentSize.toNat
  size_pos := by omega
  size_le := by omega

/-- **`SplitFile` cuts the file into the pieces of a segmentation.** -/
theorem splitFile_eq {flags flags' : Flags} {bufSize : ℕ} (fuel : ℕ) (buf : List UInt8)
    (hflags : adjustFlags flags bufSize = .ok flags') (hsize : bufSize < 2 ^ 64)
    (hpos : 1 ≤ flags'.segmentSize) (hle : flags'.segmentSize ≤ bufSize) :
    splitFile fuel flags buf bufSize =
      if (segmentation bufSize flags'.segmentSize hpos hle).count ≤ fuel then
        .ok (flags', (List.range (segmentation bufSize flags'.segmentSize hpos hle).count).map
          (piece (segmentation bufSize flags'.segmentSize hpos hle) buf))
      else .error .unfinished := by
  set S := segmentation bufSize flags'.segmentSize hpos hle with hS
  have hseg : sizeT flags'.segmentSize = S.size := sizeT_of_nonneg (by omega) (by omega)
  have hloop := splitLoop_eq (S := S) hsize buf fuel 0 S.count_pos
  have hzero : S.offset 0 = 0 := Nat.zero_mul _
  have htotal : S.total = bufSize := rfl
  rw [Nat.zero_mod, hzero, Nat.sub_zero, ← List.range_eq_range', htotal] at hloop
  have hne : ¬ S.size = 0 := S.size_pos.ne'
  unfold splitFile
  rw [hflags]
  simp only [hseg, hne, if_false, bind, Except.bind, pure, Except.pure]
  rw [hloop]
  by_cases hfuel : S.count ≤ fuel
  · rw [if_pos hfuel, if_pos hfuel]
  · rw [if_neg hfuel, if_neg hfuel]

/-- What a returning `SplitFile` returned. -/
theorem splitFile_ok {flags flags' : Flags} {bufSize fuel : ℕ} {buf : List UInt8}
    {slices : List FileSlice} (h : splitFile fuel flags buf bufSize = .ok (flags', slices)) :
    adjustFlags flags bufSize = .ok flags' ∧
      splitLoop buf bufSize (sizeT flags'.segmentSize) (bufSize % sizeT flags'.segmentSize)
        fuel 0 0 = .ok slices := by
  unfold splitFile at h
  cases hflags : adjustFlags flags bufSize with
  | error e => rw [hflags] at h; cases h
  | ok adjusted =>
      rw [hflags] at h
      simp only [bind, Except.bind] at h
      split at h
      · cases h
      · cases hloop : splitLoop buf bufSize (sizeT adjusted.segmentSize)
            (bufSize % sizeT adjusted.segmentSize) fuel 0 0 with
        | error e => simp [hloop] at h
        | ok pushed =>
            simp only [hloop, pure, Except.pure, Except.ok.injEq, Prod.mk.injEq] at h
            obtain ⟨rfl, rfl⟩ := h
            exact ⟨rfl, hloop⟩

/-- What the loop pushes: a fresh slice with a 16-bit index and one of two lengths. -/
theorem pushed_of_mem_splitLoop {buf : List UInt8} {bufSize segmentSize rest fuel : ℕ}
    {index fIndex : ℕ} {slices : List FileSlice} (hindex : index < 2 ^ 16)
    (h : splitLoop buf bufSize segmentSize rest fuel index fIndex = .ok slices) :
    ∀ f ∈ slices, f.index < 2 ^ 16 ∧ f.compressBuf = [] ∧
      (f.len = segmentSize ∨ f.len = (segmentSize + rest) % 2 ^ 64) := by
  induction fuel generalizing index fIndex slices with
  | zero => cases h
  | succ fuel ih =>
      rw [splitLoop] at h
      set sliceSize := if (fIndex + segmentSize + rest) % 2 ^ 64 = bufSize then
        (segmentSize + rest) % 2 ^ 64 else segmentSize with hsize
      have hfirst : sliceSize = segmentSize ∨ sliceSize = (segmentSize + rest) % 2 ^ 64 := by
        rw [hsize]
        split
        · exact Or.inr rfl
        · exact Or.inl rfl
      by_cases hmore : (fIndex + sliceSize) % 2 ^ 64 < bufSize
      · simp only [if_pos hmore] at h
        cases hothers : splitLoop buf bufSize segmentSize rest fuel ((index + 1) % 2 ^ 16)
            ((fIndex + sliceSize) % 2 ^ 64) with
        | error fault => rw [hothers] at h; cases h
        | ok others =>
            rw [hothers] at h
            cases h
            have hrest := ih (Nat.mod_lt _ (by decide)) hothers
            intro f hf
            rcases List.mem_cons.mp hf with rfl | hlater
            · exact ⟨hindex, rfl, hfirst⟩
            · exact hrest f hlater
      · simp only [if_neg hmore] at h
        cases h
        intro f hf
        rw [List.mem_singleton.mp hf]
        exact ⟨hindex, rfl, hfirst⟩

end FileSlice

end SliceTransfer
