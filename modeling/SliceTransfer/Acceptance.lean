import SliceTransfer.Tiling
import SliceTransfer.Framing

/-!
# Is a regenerated slice accepted?

`Regenerates` is the contract of `ZSTD_decompressStream` for a complete frame: a
relation between a context, what is left of the frame and what is left of the content,
which every call keeps, however much it does.

Under it `Decompress` always stores the slice where it belongs
(`decompressLoop_regenerates`).  But it returns the length as an `int`, which `Recv`
compares with a `size_t`: a slice is accepted up to 2147483647 bytes, and the splitter
makes longer ones (`slice_accepted_iff`).
-/

namespace SliceTransfer

open Bytes FileSlice Server

/-! ## The lengths of the slices -/

/-- The effective segment size is not negative if the flag is not. -/
theorem segmentSize_nonneg {flags flags' : Flags} {bufSize : ℕ} (hseg : 0 ≤ flags.segmentSize)
    (hsize : bufSize < 2 ^ 63) (h : adjustFlags flags bufSize = .ok flags') :
    0 ≤ flags'.segmentSize := by
  have hdefault : ∀ chosen, defaultSegmentSize flags bufSize = .ok chosen →
      0 ≤ chosen.segmentSize := by
    intro chosen hchosen
    unfold defaultSegmentSize at hchosen
    split at hchosen
    · split at hchosen
      · cases hchosen
      · have hle : bufSize / sizeT flags.jobs ≤ bufSize := Nat.div_le_self _ _
        have hint : int64 ↑(bufSize / sizeT flags.jobs) = ↑(bufSize / sizeT flags.jobs) :=
          int64_of_lt (by omega)
        rw [hint, Except.ok.injEq] at hchosen
        rw [← hchosen]
        exact Int.natCast_nonneg _
    · cases hchosen
      exact hseg
  unfold adjustFlags at h
  cases hchosen : defaultSegmentSize flags bufSize with
  | error fault =>
      rw [hchosen] at h
      cases h
  | ok chosen =>
      rw [hchosen] at h
      cases h
      unfold clampSegmentSize
      split
      · exact Int.natCast_nonneg _
      · exact hdefault chosen hchosen

/-- A clamped segment and a remainder: no slice is empty, none needs more than 32 bits. -/
theorem len_of_mem_splitFile {fuel bufSize : ℕ} {flags flags' : Flags} {buf : List UInt8}
    {slices : List FileSlice} (hseg : 0 ≤ flags.segmentSize) (hsize : bufSize < 2 ^ 63)
    (h : splitFile fuel flags buf bufSize = .ok (flags', slices)) :
    ∀ f ∈ slices, 1 ≤ f.len ∧ f.len < 2 ^ 32 := by
  obtain ⟨hflags, hloop⟩ := splitFile_ok h
  have hclamped := segmentSize_le_intMax hflags
  have hnonneg := segmentSize_nonneg hseg hsize hflags
  have hsizeT : sizeT flags'.segmentSize = flags'.segmentSize.toNat :=
    sizeT_of_nonneg hnonneg (by unfold intMax at hclamped; omega)
  have hne : sizeT flags'.segmentSize ≠ 0 := by
    intro hzero
    rw [splitFile_eq_loop fuel buf hflags, if_pos hzero] at h
    cases h
  have hrest := Nat.mod_lt bufSize (Nat.pos_of_ne_zero hne)
  unfold intMax at hclamped
  intro f hf
  rcases (pushed_of_mem_splitLoop (by decide) hloop f hf).2.2 with hlen | hlen
  · omega
  · rw [Nat.mod_eq_of_lt (by omega)] at hlen
    omega

/-! ## The contract of `ZSTD_decompressStream` -/

variable {D : Type}

/-- In a state that `R` relates to what is left of a frame and of its content, a call
with room for the content succeeds, makes progress and keeps the relation; at the end of
the frame nothing of the content is left. -/
structure Regenerates (z : ZstdDecompress D) (R : D → List UInt8 → List UInt8 → Prop) : Prop where
  call : ∀ dctx input left, R dctx input left → input ≠ [] →
    ∃ call rest, z.decompressStream dctx left.length input = some call ∧
      call.consumed ≤ input.length ∧ left = call.output ++ rest ∧
      (0 < call.consumed ∨ call.output ≠ []) ∧ R call.dctx (input.drop call.consumed) rest
  finished : ∀ dctx left, R dctx [] left → left = []

/-- The windows lie one behind the other from `start` on, inside the first `total` bytes
of `out_buf`, and hold `content`. -/
inductive Stores (total : ℕ) : ℕ → List OutWindow → List UInt8 → Prop
  | nil {start : ℕ} : Stores total start [] []
  | cons {w : OutWindow} {windows : List OutWindow} {content : List UInt8}
      (hroom : w.start + w.size ≤ total) (hbytes : w.bytes.length ≤ w.size)
      (hrest : Stores total (w.start + w.bytes.length) windows content) :
      Stores total w.start (w :: windows) (w.bytes ++ content)

variable {z : ZstdDecompress D} {R : D → List UInt8 → List UInt8 → Prop}

/-- **`Decompress` regenerates the content**, by induction on what is left of the frame and
of the content. -/
theorem decompressLoop_regenerates (contract : Regenerates z R) {total : ℕ}
    (htotal : total < 2 ^ 64) (dctx : D) (input left : List UInt8) (outIndex : ℕ)
    (hR : R dctx input left) (hroom : outIndex + left.length = total) :
    ∃ windows n, Stores total outIndex windows left ∧
      ∀ fuel ≥ n, decompressLoop z true total fuel dctx input outIndex =
        (windows, some (int32 total)) := by
  by_cases hnil : input = []
  · subst hnil
    obtain rfl := contract.finished dctx left hR
    rw [List.length_nil, Nat.add_zero] at hroom
    refine ⟨[], 1, .nil, fun fuel hfuel => ?_⟩
    obtain ⟨fuel, rfl⟩ : ∃ k, fuel = k + 1 := ⟨fuel - 1, by omega⟩
    rw [decompressLoop_nil, hroom]
  · obtain ⟨call, rest, hcall, hconsumed, hleft, hprogress, hlater⟩ :=
      contract.call dctx input left hR hnil
    have hlength : left.length = call.output.length + rest.length := by
      rw [hleft, List.length_append]
    have hoffered : offered true total outIndex = left.length := by
      rw [offered_whole (by omega) htotal]
      omega
    have hless : (input.drop call.consumed).length + rest.length <
        input.length + left.length := by
      have houtput : call.output ≠ [] → 0 < call.output.length := List.length_pos_of_ne_nil
      rw [List.length_drop]
      rcases hprogress with htaken | hput
      · omega
      · have := houtput hput
        omega
    obtain ⟨windows, n, hstores, hreturns⟩ := decompressLoop_regenerates contract htotal call.dctx
      (input.drop call.consumed) rest (outIndex + call.output.length) hlater (by omega)
    rw [← hoffered] at hcall
    refine ⟨⟨outIndex, offered true total outIndex, call.output⟩ :: windows, n + 1, ?_,
      fun fuel hfuel => ?_⟩
    · rw [hleft]
      apply Stores.cons (w := ⟨outIndex, offered true total outIndex, call.output⟩) _ _ hstores
      · show outIndex + offered true total outIndex ≤ total
        omega
      · show call.output.length ≤ offered true total outIndex
        omega
    · obtain ⟨fuel, rfl⟩ : ∃ k, fuel = k + 1 := ⟨fuel - 1, by omega⟩
      rw [decompressLoop_call fuel hnil hcall, hreturns fuel (by omega)]
termination_by input.length + left.length
decreasing_by
  exact hless

/-- What is stored is the content. -/
theorem Stores.outputs_eq {total start : ℕ} {windows : List OutWindow} {content : List UInt8}
    (h : Stores total start windows content) : outputs windows = content := by
  induction h with
  | nil => rfl
  | cons _ _ _ ih => rw [outputs_cons, ih]

/-! ## The result check -/

/-- The length as an `int`, converted to `size_t` and compared with itself. -/
theorem sizeT_int32_eq_iff {n : ℕ} (hn : n < 2 ^ 32) : sizeT (int32 n) = n ↔ n ≤ intMax := by
  unfold sizeT int32 intMax
  omega

theorem int32_eq_neg_one {n : ℕ} (hn : n < 2 ^ 32) (h : n ≤ intMax) : int32 n ≠ -1 := by
  unfold int32
  unfold intMax at h
  omega

/-- The entry of a slice whose frame has arrived: the frame is in `c_buf_`, and `buf_` is
at `pos` in the file. -/
structure ArrivedEntry (g : Globals) (index : ℕ) (info : FileSliceInfo) (frame : List UInt8)
    (len : ℕ) : Prop where
  registered : g.mmap index = some info
  frame_eq : info.cBuf.take info.cLen = frame
  len_eq : info.len = len
  mapped : (∃ pos, info.buf = some pos) ∧ ∃ file, g.start = some file

/-- The slice is regenerated where it belongs and accepted: the value of `Decompress` is
not an error, it compares equal to `len_`, and `Recv` returns zero. -/
structure AcceptedSlice (z : ZstdDecompress D) (fuel : ℕ) (g : Globals) (index : ℕ)
    (info : FileSliceInfo) (content : List UInt8) : Prop where
  stores : Stores content.length 0 (decompress z fuel (info.cBuf.take info.cLen) info.len).1 content
  compares : ∃ actWrSize,
    (decompress z fuel (info.cBuf.take info.cLen) info.len).2 = some actWrSize ∧
      actWrSize ≠ -1 ∧ sizeT actWrSize = info.len
  returns : (finishSlice z fuel g index).status = .exited (.returned 0)

/-- What `Decompress` and `Recv` make of a slice that has arrived. -/
theorem decompress_regenerates (contract : Regenerates z R) {dctx : D}
    {frame content : List UInt8} (hdctx : z.createDCtx = some dctx) (hR : R dctx frame content)
    (hne : content ≠ []) (hlt : content.length < 2 ^ 64) :
    ∃ windows n, Stores content.length 0 windows content ∧ ∀ fuel ≥ n,
      decompress z fuel frame content.length = (windows, some (int32 content.length)) := by
  have hpos : content.length ≠ 0 := (List.length_pos_of_ne_nil hne).ne'
  obtain ⟨windows, n, hstores, hreturns⟩ :=
    decompressLoop_regenerates contract hlt dctx frame content 0 hR (Nat.zero_add _)
  refine ⟨windows, n, hstores, fun fuel hfuel => ?_⟩
  rw [decompress_of_createDCtx hdctx, decide_eq_true hpos, if_neg hpos]
  exact hreturns fuel hfuel

theorem status_finishSlice {g : Globals} {index fuel : ℕ} {info : FileSliceInfo}
    {frame : List UInt8} {len : ℕ} (harrived : ArrivedEntry g index info frame len) :
    (finishSlice z fuel g index).status =
      .exited (exitFor info (decompress z fuel frame len).2) := by
  obtain ⟨hinfo, hframe, hlen, ⟨pos, hbuf⟩, file, hfile⟩ := harrived
  simp only [finishSlice, hinfo, hframe, hlen, storeOutput, hbuf, hfile]

/-- **A regenerated slice of `SplitFile` is accepted exactly when its length fits an `int`.** -/
theorem slice_accepted_iff (z : ZstdDecompress D) (R : D → List UInt8 → List UInt8 → Prop)
    (flags flags' : Flags) (buf : List UInt8) (bufSize splitFuel : ℕ) (slices : List FileSlice)
    (f : FileSlice) (content frame : List UInt8) (dctx : D) (g : Globals) (index : ℕ)
    (info : FileSliceInfo) (hseg : 0 ≤ flags.segmentSize) (hsize : bufSize < 2 ^ 63)
    (hsplit : splitFile splitFuel flags buf bufSize = .ok (flags', slices)) (hf : f ∈ slices)
    (hcontent : content.length = f.len) (contract : Regenerates z R)
    (hdctx : z.createDCtx = some dctx) (hR : R dctx frame content)
    (harrived : ArrivedEntry g index info frame f.len) :
    ∃ n, ∀ fuel ≥ n,
      Stores content.length 0 (decompress z fuel frame f.len).1 content ∧
        (AcceptedSlice z fuel g index info content ↔ f.len ≤ intMax) := by
  obtain ⟨hpos, hlt⟩ := len_of_mem_splitFile hseg hsize hsplit f hf
  have hne : content ≠ [] := List.ne_nil_of_length_pos (by omega)
  obtain ⟨windows, n, hstores, hreturns⟩ :=
    decompress_regenerates contract hdctx hR hne (by omega)
  rw [hcontent] at hreturns
  refine ⟨n, fun fuel hfuel => ?_⟩
  have hdecompress := hreturns fuel hfuel
  rw [hdecompress]
  refine ⟨hstores, fun accepted => ?_, fun hfits => ?_⟩
  · obtain ⟨actWrSize, hact, -, hequal⟩ := accepted.compares
    rw [harrived.frame_eq, harrived.len_eq, hdecompress] at hact
    obtain rfl := Option.some_inj.mp hact
    rw [harrived.len_eq] at hequal
    exact (sizeT_int32_eq_iff hlt).mp hequal
  · have hnot := int32_eq_neg_one hlt hfits
    have hequal := (sizeT_int32_eq_iff hlt).mpr hfits
    refine ⟨?_, ⟨int32 f.len, ?_, hnot, ?_⟩, ?_⟩
    · rw [harrived.frame_eq, harrived.len_eq, hdecompress]
      exact hstores
    · rw [harrived.frame_eq, harrived.len_eq, hdecompress]
    · rw [harrived.len_eq]
      exact hequal
    · rw [status_finishSlice harrived, hdecompress, exitFor, if_neg hnot, harrived.len_eq,
        if_pos hequal]

/-! ### A slice that takes two calls -/

/-- A zstd that takes the nine bytes before the content in a call of their own; the context
tells whether they were taken. -/
def lateDecompress : ZstdDecompress Bool where
  createDCtx := some false
  dStreamOutSize := 131072
  decompressStream taken size input :=
    if taken then some ⟨true, input.length, input.take size⟩
    else some ⟨true, min 9 input.length, []⟩

/-- The content follows the nine bytes, or is what is left. -/
def LateLeft (taken : Bool) (input left : List UInt8) : Prop :=
  if taken then input = left else 9 ≤ input.length ∧ input.drop 9 = left

theorem lateDecompress_regenerates : Regenerates lateDecompress LateLeft := by
  constructor
  · intro taken input left hleft hne
    cases taken with
    | true =>
        obtain rfl : input = left := hleft
        refine ⟨⟨true, input.length, input⟩, [], ?_, le_refl _, (List.append_nil _).symm,
          Or.inl (List.length_pos_of_ne_nil hne), List.drop_length⟩
        simp [lateDecompress]
    | false =>
        obtain ⟨hlong, hdrop⟩ : 9 ≤ input.length ∧ input.drop 9 = left := hleft
        refine ⟨⟨true, min 9 input.length, []⟩, left, rfl, min_le_right _ _, rfl, Or.inl ?_, ?_⟩
        · exact lt_min (by decide) (List.length_pos_of_ne_nil hne)
        · show input.drop (min 9 input.length) = left
          rwa [min_eq_left hlong]
  · intro taken left hleft
    cases taken with
    | true => exact hleft.symm
    | false => exact absurd hleft.1 (by decide)

/-- The frame of `[99, 100]`. -/
private def twoFrame : List UInt8 := [40, 181, 47, 253, 32, 2, 17, 0, 0, 99, 100]

/-- The entry of the second slice, when its frame has arrived. -/
private def twoInfo : FileSliceInfo := ⟨1, 11, 11, 2, 11, some 2, twoFrame⟩

/-- The second slice of two bytes, decompressed in two calls. -/
theorem slice_accepted_two :
    ∃ n, ∀ fuel ≥ n, AcceptedSlice lateDecompress fuel
      ((recordHeader 4 2 Globals.initial).setInfo 1 twoInfo) 1 twoInfo [99, 100] := by
  have harrived : ArrivedEntry ((recordHeader 4 2 Globals.initial).setInfo 1 twoInfo) 1 twoInfo
      twoFrame 2 :=
    ⟨setInfo_mmap_self _ _ _, rfl, rfl, ⟨2, rfl⟩, _, rfl⟩
  obtain ⟨n, haccepted⟩ := slice_accepted_iff lateDecompress LateLeft ⟨2, 1⟩ ⟨2, 1⟩
    [97, 98, 99, 100] 4 2 [⟨[97, 98, 99, 100], 0, 2, 2, 0, []⟩, ⟨[97, 98, 99, 100], 1, 2, 2, 0, []⟩]
    ⟨[97, 98, 99, 100], 1, 2, 2, 0, []⟩ [99, 100] twoFrame false _ 1 twoInfo
    (by decide) (by decide) rfl (by simp) rfl lateDecompress_regenerates rfl
    ⟨by decide, rfl⟩ harrived
  exact ⟨n, fun fuel hfuel => (haccepted fuel hfuel).2.mpr (by decide)⟩

/-! ### The longest slices -/

/-- A zstd that fills the room it is given with zero bytes. -/
def zeroDecompress : ZstdDecompress Unit where
  createDCtx := some ()
  dStreamOutSize := 131072
  decompressStream _ size input := some ⟨(), input.length, List.replicate size 0⟩

/-- It regenerates any number of zero bytes. -/
def ZeroesLeft (_ : Unit) (input left : List UInt8) : Prop :=
  left = List.replicate left.length 0 ∧ (input = [] → left = [])

theorem zeroDecompress_regenerates : Regenerates zeroDecompress ZeroesLeft := by
  constructor
  · intro dctx input left hleft hne
    refine ⟨⟨(), input.length, List.replicate left.length 0⟩, [], rfl, le_refl _, ?_,
      Or.inl (List.length_pos_of_ne_nil hne), rfl, fun _ => rfl⟩
    rw [List.append_nil]
    exact hleft.1
  · intro dctx left hleft
    exact hleft.2 rfl

/-- The entry of a slice of `len` zero bytes, with `[0]` for a frame. -/
def zeroInfo (len : ℕ) : FileSliceInfo := ⟨0, 1, 0, len, 1, some 0, [0]⟩

/-- The receiver of a file that is one such slice. -/
def zeroGlobals (len : ℕ) : Globals :=
  (recordHeader len 1 Globals.initial).setInfo 0 (zeroInfo len)

theorem arrivedEntry_zero (len : ℕ) :
    ArrivedEntry (zeroGlobals len) 0 (zeroInfo len) [0] len :=
  ⟨setInfo_mmap_self _ _ _, rfl, rfl, ⟨0, rfl⟩, _, rfl⟩

private theorem splitFile_halfway (buf : List UInt8) :
    splitFile 1 ⟨2147483647, 1⟩ buf 2147483648 =
      .ok (⟨2147483647, 1⟩, [⟨buf, 0, 2147483648, 2147483647, 0, []⟩]) := rfl

/-- A file of `2 ^ 31` bytes with the largest segment size is one slice.  It is regenerated
in full, and refused. -/
theorem slice_refused :
    ∃ f, splitFile 1 ⟨2147483647, 1⟩ (List.replicate 2147483648 0) 2147483648 =
        .ok (⟨2147483647, 1⟩, [f]) ∧
      ArrivedEntry (zeroGlobals f.len) 0 (zeroInfo f.len) [0] f.len ∧
      Regenerates zeroDecompress ZeroesLeft ∧ ∃ n, ∀ fuel ≥ n,
        outputs (decompress zeroDecompress fuel [0] f.len).1 = List.replicate f.len 0 ∧
        (finishSlice zeroDecompress fuel (zeroGlobals f.len) 0).status =
          .exited (.returned (-1)) := by
  refine ⟨_, splitFile_halfway _, arrivedEntry_zero _, zeroDecompress_regenerates, ?_⟩
  have hlength : (List.replicate 2147483648 (0 : UInt8)).length = 2147483648 :=
    List.length_replicate
  have hne : List.replicate 2147483648 (0 : UInt8) ≠ [] := by
    apply List.ne_nil_of_length_pos
    omega
  have hleft : ZeroesLeft () [0] (List.replicate 2147483648 0) := by
    refine ⟨?_, fun hcontra => by cases hcontra⟩
    rw [hlength]
  obtain ⟨windows, n, hstores, hreturns⟩ := decompress_regenerates zeroDecompress_regenerates rfl
    hleft hne (by omega)
  rw [hlength] at hreturns
  refine ⟨n, fun fuel hfuel => ⟨?_, ?_⟩⟩
  · rw [hreturns fuel hfuel]
    exact hstores.outputs_eq
  · rw [status_finishSlice (arrivedEntry_zero 2147483648), hreturns fuel hfuel]
    rfl

end SliceTransfer
