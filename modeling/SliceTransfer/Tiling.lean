import SliceTransfer.Placement
import SliceTransfer.FileHeader

/-!
# What `SplitFile` returns

For an effective segment size `s` between one and the buffer size `B` the loop of
`SplitFile` ends after exactly `B / s` iterations.  As long as the 16-bit index does
not wrap, the slices are an exact tiling of the file (`splitFile_tiling`).

The numbering is right exactly as long as it does not wrap either: the slices are
numbered `0, 1, …` and announced in full up to 65535 of them, and from 65536 on the
`unsigned short` that `SendingFlow::Init` receives is wrong (`splitFile_numbered_iff`).

Nothing relates the flags to the size of the file, though.  With more jobs than
bytes the default segment size is zero, and a segment larger than the file is one
slice past its end; apart from these two `SplitFile` is safe (`splitFile_safe_iff`).
-/

namespace SliceTransfer

open FileSlice

/-! ## The effective segment size -/

/-- The clamp bounds the effective segment size. -/
theorem segmentSize_le_intMax {flags flags' : Flags} {bufSize : ℕ}
    (h : adjustFlags flags bufSize = .ok flags') : flags'.segmentSize ≤ intMax := by
  unfold adjustFlags at h
  cases hdefault : defaultSegmentSize flags bufSize with
  | error fault =>
      rw [hdefault] at h
      cases h
  | ok chosen =>
      rw [hdefault] at h
      cases h
      unfold clampSegmentSize
      split
      · exact le_refl _
      · exact Int.not_lt.mp ‹_›

/-- With a positive number of jobs both adjustments go through. -/
theorem exists_adjustFlags {flags : Flags} (bufSize : ℕ) (hjobs : 1 ≤ flags.jobs)
    (hint : flags.jobs < 2 ^ 31) : ∃ flags', adjustFlags flags bufSize = .ok flags' := by
  have hne : sizeT flags.jobs ≠ 0 := by
    rw [sizeT_of_nonneg (by omega) (by omega)]
    omega
  unfold adjustFlags defaultSegmentSize
  rw [if_neg hne]
  split
  · exact ⟨_, rfl⟩
  · exact ⟨_, rfl⟩

/-! ## The tiling -/

/-- The slices are read one behind the other, from `start` to `stop`. -/
inductive Tiles : ℕ → List FileSlice → ℕ → Prop
  | nil (start : ℕ) : Tiles start [] start
  | cons {f : FileSlice} {rest : List FileSlice} {stop : ℕ}
      (h : Tiles (f.getBuf + f.len) rest stop) : Tiles f.getBuf (f :: rest) stop

theorem Tiles.start_le {start stop : ℕ} {slices : List FileSlice} (h : Tiles start slices stop) :
    ∀ f ∈ slices, start ≤ f.getBuf := by
  induction h with
  | nil => simp
  | cons _ ih =>
      intro f hf
      rcases List.mem_cons.mp hf with rfl | hlater
      · exact le_refl _
      · have := ih f hlater
        omega

/-- A tiling has no overlaps. -/
theorem Tiles.pairwise {start stop : ℕ} {slices : List FileSlice} (h : Tiles start slices stop) :
    slices.Pairwise fun f f' => f.getBuf + f.len ≤ f'.getBuf := by
  induction h with
  | nil => exact List.Pairwise.nil
  | cons hrest ih => exact List.pairwise_cons.mpr ⟨hrest.start_le, ih⟩

section Pieces

variable {S : Segmentation} (htotal : S.total < 2 ^ 64) (hcount : S.count ≤ 65535)
  (buf : List UInt8)

include htotal hcount in
/-- The pieces from piece `i` on, by induction on how many there are behind it. -/
theorem tiles_pieces_from (k : ℕ) : ∀ i, i + k + 1 = S.count →
    Tiles (S.offset i) ((List.range' i (k + 1)).map (piece S buf)) S.total := by
  induction k with
  | zero =>
      intro i hi
      have hgetBuf := piece_getBuf htotal hcount buf (show i < S.count by omega)
      have hend : (piece S buf i).getBuf + (piece S buf i).len = S.total := by
        rw [hgetBuf]
        exact S.offset_add_length_last hi
      have hnil : Tiles ((piece S buf i).getBuf + (piece S buf i).len) [] S.total := by
        rw [hend]
        exact .nil _
      rw [← hgetBuf]
      exact .cons hnil
  | succ k ih =>
      intro i hi
      have hgetBuf := piece_getBuf htotal hcount buf (show i < S.count by omega)
      have hnext : (piece S buf i).getBuf + (piece S buf i).len = S.offset (i + 1) := by
        rw [hgetBuf]
        exact S.offset_add_length (by omega)
      have hrest := ih (i + 1) (by omega)
      rw [← hnext] at hrest
      rw [List.range'_succ, List.map_cons, ← hgetBuf]
      exact .cons hrest

include htotal hcount in
theorem tiles_pieces : Tiles 0 (pieces S buf) S.total := by
  have hpos := S.count_pos
  obtain ⟨k, hk⟩ : ∃ k, S.count = k + 1 := ⟨S.count - 1, by omega⟩
  have h := tiles_pieces_from htotal hcount buf k 0 (by omega)
  have hzero : S.offset 0 = 0 := Nat.zero_mul _
  rwa [hzero, ← hk, ← List.range_eq_range'] at h

/-- All pieces but the last have the segment size. -/
theorem len_of_mem_dropLast {f : FileSlice} (hf : f ∈ (pieces S buf).dropLast) :
    f.len = S.size := by
  obtain ⟨i, hi, rfl⟩ := List.mem_iff_getElem.mp hf
  rw [List.length_dropLast, length_pieces] at hi
  simp only [List.getElem_dropLast, pieces, List.getElem_map, List.getElem_range]
  exact if_neg (by omega)

/-- The last piece takes the remainder. -/
theorem len_of_getLast? {f : FileSlice} (hf : f ∈ (pieces S buf).getLast?) :
    f.len = S.size + S.total % S.size := by
  have hpos := S.count_pos
  obtain ⟨k, hk⟩ : ∃ k, S.count = k + 1 := ⟨S.count - 1, by omega⟩
  rw [pieces, hk, List.range_succ, List.map_append, List.map_singleton,
    List.getLast?_concat, Option.mem_some_iff] at hf
  subst hf
  exact if_pos hk.symm

end Pieces

/-- The slices cut a buffer of `bufSize` bytes exactly, into segments of size `s`. -/
structure CutExactly (bufSize s : ℕ) (slices : List FileSlice) : Prop where
  tiles : Tiles 0 slices bufSize
  disjoint : slices.Pairwise fun f f' => f.getBuf + f.len ≤ f'.getBuf
  len_init : ∀ f ∈ slices.dropLast, f.len = s
  len_last : ∀ f ∈ slices.getLast?, f.len = s + bufSize % s
  len_lt : ∀ f ∈ slices, f.len < 2 ^ 32

theorem cutExactly_pieces {S : Segmentation} (htotal : S.total < 2 ^ 64) (hcount : S.count ≤ 65535)
    (hsize : S.size ≤ intMax) (buf : List UInt8) :
    CutExactly S.total S.size (pieces S buf) := by
  have htiles := tiles_pieces htotal hcount buf
  refine ⟨htiles, htiles.pairwise, fun f => len_of_mem_dropLast buf,
    fun f => len_of_getLast? buf, ?_⟩
  intro f hf
  obtain ⟨i, hi, rfl⟩ := (mem_pieces buf).mp hf
  -- the last slice has less than two segments, and the clamp bounds these
  have hlen : S.length i < 2 * S.size := S.length_lt_two_mul i
  unfold intMax at hsize
  show S.length i < 2 ^ 32
  omega

/-- **`SplitFile` cuts the file into an exact tiling, in exactly `B / s` iterations.** -/
theorem splitFile_tiling (flags : Flags) (buf : List UInt8) (bufSize : ℕ)
    (hsize : bufSize < 2 ^ 64) (hjobs : 1 ≤ flags.jobs) (hint : flags.jobs < 2 ^ 31) :
    ∃ flags', adjustFlags flags bufSize = .ok flags' ∧
      (1 ≤ flags'.segmentSize → flags'.segmentSize ≤ bufSize →
        bufSize / flags'.segmentSize.toNat ≤ 65535 →
        (∀ fuel < bufSize / flags'.segmentSize.toNat,
          splitFile fuel flags buf bufSize = .error .unfinished) ∧
        ∃ slices, (∀ fuel, bufSize / flags'.segmentSize.toNat ≤ fuel →
            splitFile fuel flags buf bufSize = .ok (flags', slices)) ∧
          slices.length = bufSize / flags'.segmentSize.toNat ∧
          CutExactly bufSize flags'.segmentSize.toNat slices) := by
  obtain ⟨flags', hflags⟩ := exists_adjustFlags bufSize hjobs hint
  refine ⟨flags', hflags, fun hpos hle hcount => ?_⟩
  have hclamped := segmentSize_le_intMax hflags
  refine ⟨fun fuel hfuel => ?_, pieces (segmentation bufSize flags'.segmentSize hpos hle) buf,
    fun fuel hfuel => ?_, length_pieces buf, ?_⟩
  · rw [splitFile_eq fuel buf hflags hsize hpos hle]
    exact if_neg (Nat.not_le.mpr hfuel)
  · rw [splitFile_eq fuel buf hflags hsize hpos hle]
    exact if_pos hfuel
  · exact cutExactly_pieces (S := segmentation bufSize flags'.segmentSize hpos hle) hsize hcount
      (show flags'.segmentSize.toNat ≤ intMax by omega) buf

/-- Ten bytes in pieces of four: two iterations, and the second slice has six bytes. -/
theorem splitFile_tiling_ten :
    ∃ slices, splitFile 2 ⟨4, 1⟩ (List.replicate 10 0) 10 = .ok (⟨4, 1⟩, slices) ∧
      slices.length = 2 ∧ CutExactly 10 4 slices := by
  obtain ⟨flags', hflags, hcut⟩ := splitFile_tiling ⟨4, 1⟩ (List.replicate 10 0) 10 (by decide)
    (by decide) (by decide)
  obtain rfl : (⟨4, 1⟩ : Flags) = flags' := Except.ok.inj hflags
  obtain ⟨-, slices, hreturns, hlength, hcuts⟩ := hcut (by decide) (by decide) (by decide)
  exact ⟨slices, hreturns 2 (by decide), hlength, hcuts⟩

/-! ## The numbering -/

/-- The text `SendFileSizeOnly` writes for the slices that `SplitFile` returned. -/
def announcedText (bufSize : ℕ) (slices : List FileSlice) : List UInt8 :=
  headerText bufSize (announcedSlicesNum slices)

/-- The slices are numbered in order from zero, and their number is announced. -/
structure Numbered (bufSize : ℕ) (slices : List FileSlice) : Prop where
  indices : slices.map FileSlice.index = List.range slices.length
  slicesNum : announcedSlicesNum slices = slices.length
  text : announcedText bufSize slices = headerText bufSize slices.length

theorem numbered_pieces_iff (S : Segmentation) (buf : List UInt8) :
    Numbered S.total (pieces S buf) ↔ S.count ≤ 65535 := by
  constructor
  · intro numbered
    have hnum := numbered.slicesNum
    rw [announcedSlicesNum, length_pieces] at hnum
    have := Nat.mod_lt S.count (show 0 < 2 ^ 16 by decide)
    omega
  · intro hcount
    have hnum : announcedSlicesNum (pieces S buf) = (pieces S buf).length := by
      rw [announcedSlicesNum, length_pieces]
      exact Nat.mod_eq_of_lt (by omega)
    refine ⟨?_, hnum, by rw [announcedText, hnum]⟩
    rw [length_pieces, pieces, List.map_map]
    refine (List.map_congr_left fun i hi => ?_).trans (List.map_id _)
    exact piece_index hcount buf (List.mem_range.mp hi)

/-- **`SplitFile` returns, and its slices are numbered and announced faithfully exactly
when there are at most 65535 of them.** -/
theorem splitFile_numbered_iff (flags flags' : Flags) (buf : List UInt8) (bufSize : ℕ)
    (hsize : bufSize < 2 ^ 64) (hflags : adjustFlags flags bufSize = .ok flags')
    (hpos : 1 ≤ flags'.segmentSize) (hle : flags'.segmentSize ≤ bufSize) :
    ∃ slices, (∀ fuel, bufSize / flags'.segmentSize.toNat ≤ fuel →
        splitFile fuel flags buf bufSize = .ok (flags', slices)) ∧
      (Numbered bufSize slices ↔ bufSize / flags'.segmentSize.toNat ≤ 65535) := by
  refine ⟨pieces (segmentation bufSize flags'.segmentSize hpos hle) buf, fun fuel hfuel => ?_, ?_⟩
  · rw [splitFile_eq fuel buf hflags hsize hpos hle]
    exact if_pos hfuel
  · exact numbered_pieces_iff (segmentation bufSize flags'.segmentSize hpos hle) buf

/-- Ten bytes in pieces of five. -/
theorem splitFile_numbered_two :
    ∃ slices, splitFile 2 ⟨5, 1⟩ (List.replicate 10 0) 10 = .ok (⟨5, 1⟩, slices) ∧
      Numbered 10 slices := by
  obtain ⟨slices, hreturns, hiff⟩ := splitFile_numbered_iff ⟨5, 1⟩ ⟨5, 1⟩ (List.replicate 10 0) 10
    (by decide) rfl (by decide) (by decide)
  exact ⟨slices, hreturns 2 (by decide), hiff.mpr (by decide)⟩

/-- A file in pieces of one byte. -/
theorem splitFile_bytes {bufSize : ℕ} (hpos : 1 ≤ bufSize) (hsize : bufSize < 2 ^ 64)
    (buf : List UInt8) : ∃ slices,
      splitFile bufSize ⟨1, 1⟩ buf bufSize = .ok (⟨1, 1⟩, slices) ∧
        (Numbered bufSize slices ↔ bufSize ≤ 65535) := by
  have hle : (1 : ℤ) ≤ bufSize := by omega
  have hflags : adjustFlags ⟨1, 1⟩ bufSize = .ok ⟨1, 1⟩ := rfl
  have hcount : (segmentation bufSize 1 (le_refl _) hle).count = bufSize := Nat.div_one _
  have hsplit := splitFile_eq bufSize buf hflags hsize (le_refl _) hle
  rw [if_pos hcount.le] at hsplit
  refine ⟨_, hsplit, ?_⟩
  have hiff := numbered_pieces_iff (segmentation bufSize 1 (le_refl _) hle) buf
  rwa [hcount] at hiff

/-- 65536 bytes in pieces of one: the sender announces zero slices. -/
theorem splitFile_numbered_wrapped :
    ∃ slices, splitFile 65536 ⟨1, 1⟩ (List.replicate 65536 0) 65536 = .ok (⟨1, 1⟩, slices) ∧
      ¬ Numbered 65536 slices := by
  obtain ⟨slices, hsplit, hiff⟩ := splitFile_bytes (show 1 ≤ 65536 by decide) (by decide)
    (List.replicate 65536 0)
  exact ⟨slices, hsplit, fun numbered => absurd (hiff.mp numbered) (by decide)⟩

/-! ## Safety for every flag setting -/

/-- `SplitFile` never divides by zero, it returns, and the slices end inside the buffer.  That
it returns is more than safety asks for; without it `inside` would hold of a loop that runs
for ever. -/
structure SplitSafe (flags : Flags) (buf : List UInt8) (bufSize : ℕ) : Prop where
  divides : ∀ fuel, splitFile fuel flags buf bufSize ≠ .error .divideByZero
  returns : ∃ fuel flags' slices, splitFile fuel flags buf bufSize = .ok (flags', slices)
  inside : ∀ fuel flags' slices, splitFile fuel flags buf bufSize = .ok (flags', slices) →
    ∀ f ∈ slices, f.index * f.splitLen + f.len ≤ bufSize

/-- `SplitFile` in terms of the segment size `s` that the modulo and the loop see. -/
theorem splitFile_eq_loop {flags flags' : Flags} {bufSize : ℕ} (fuel : ℕ) (buf : List UInt8)
    (hflags : adjustFlags flags bufSize = .ok flags') :
    splitFile fuel flags buf bufSize =
      if sizeT flags'.segmentSize = 0 then .error .divideByZero
      else (splitLoop buf bufSize (sizeT flags'.segmentSize)
        (bufSize % sizeT flags'.segmentSize) fuel 0 0).map (Prod.mk flags') := by
  unfold splitFile
  rw [hflags]
  simp only [bind, Except.bind]
  by_cases hzero : sizeT flags'.segmentSize = 0
  · rw [if_pos hzero, if_pos hzero]
    rfl
  · rw [if_neg hzero, if_neg hzero]
    cases splitLoop buf bufSize (sizeT flags'.segmentSize)
        (bufSize % sizeT flags'.segmentSize) fuel 0 0 with
    | error fault => rfl
    | ok slices => rfl

/-- A segment larger than the buffer is one slice, longer than the buffer. -/
theorem splitLoop_oversized (buf : List UInt8) {bufSize s : ℕ} (hpos : 1 ≤ bufSize)
    (hlt : bufSize < s) (hwide : s + bufSize < 2 ^ 64) (fuel : ℕ) :
    splitLoop buf bufSize s (bufSize % s) (fuel + 1) 0 0 = .ok [⟨buf, 0, s, s, 0, []⟩] := by
  have hrest : bufSize % s = bufSize := Nat.mod_eq_of_lt hlt
  have hlast : ¬ (0 + s + bufSize) % 2 ^ 64 = bufSize := by
    rw [Nat.mod_eq_of_lt (by omega)]
    omega
  have hdone : ¬ (0 + s) % 2 ^ 64 < bufSize := by
    rw [Nat.mod_eq_of_lt (by omega)]
    omega
  rw [splitLoop]
  simp only [hrest, if_neg hlast, if_neg hdone]
  rfl

/-- A piece ends inside the file, even where its 16-bit index has wrapped. -/
theorem piece_inside {S : Segmentation} (buf : List UInt8) {i : ℕ} (hi : i < S.count) :
    (piece S buf i).index * (piece S buf i).splitLen + (piece S buf i).len ≤ S.total := by
  have hindex : i % 2 ^ 16 * S.size ≤ S.offset i := Nat.mul_le_mul_right S.size (Nat.mod_le i _)
  calc i % 2 ^ 16 * S.size + S.length i ≤ S.offset i + S.length i := Nat.add_le_add_right hindex _
    _ ≤ S.total := S.offset_add_length_le hi

/-- With an effective segment size between one and the buffer size `SplitFile` is safe. -/
theorem splitSafe_of_le {flags flags' : Flags} (buf : List UInt8) {bufSize : ℕ}
    (hflags : adjustFlags flags bufSize = .ok flags') (hsize : bufSize < 2 ^ 64)
    (hpos : 1 ≤ sizeT flags'.segmentSize) (hle : sizeT flags'.segmentSize ≤ bufSize) :
    SplitSafe flags buf bufSize := by
  set S : Segmentation := ⟨bufSize, sizeT flags'.segmentSize, hpos, hle⟩ with hS
  have hsplit : ∀ fuel, splitFile fuel flags buf bufSize =
      if S.count ≤ fuel then .ok (flags', pieces S buf) else .error .unfinished := by
    intro fuel
    have hloop := splitLoop_eq (S := S) hsize buf fuel 0 S.count_pos
    have hzero : S.offset 0 = 0 := Nat.zero_mul _
    rw [Nat.zero_mod, hzero, Nat.sub_zero, ← List.range_eq_range'] at hloop
    rw [splitFile_eq_loop fuel buf hflags, if_neg (by omega)]
    change Except.map _ (splitLoop buf S.total S.size (S.total % S.size) fuel 0 0) = _
    rw [hloop]
    by_cases hfuel : S.count ≤ fuel
    · rw [if_pos hfuel, if_pos hfuel]
      rfl
    · rw [if_neg hfuel, if_neg hfuel]
      rfl
  refine ⟨fun fuel => ?_, ⟨S.count, flags', pieces S buf, ?_⟩, fun fuel adjusted slices h => ?_⟩
  · rw [hsplit]
    split
    · exact fun h => by cases h
    · exact fun h => by cases h
  · rw [hsplit, if_pos (le_refl _)]
  · intro f hf
    rw [hsplit] at h
    split at h
    · cases h
      obtain ⟨i, hi, rfl⟩ := (mem_pieces buf).mp hf
      exact piece_inside buf hi
    · cases h

/-- An effective segment size of zero is the modulo by zero. -/
theorem not_splitSafe_of_zero {flags flags' : Flags} (buf : List UInt8) {bufSize : ℕ}
    (hflags : adjustFlags flags bufSize = .ok flags') (hzero : sizeT flags'.segmentSize = 0) :
    ¬ SplitSafe flags buf bufSize := by
  intro safe
  apply safe.divides 0
  rw [splitFile_eq_loop 0 buf hflags, if_pos hzero]

/-- An effective segment size beyond the buffer size is a slice past the end. -/
theorem not_splitSafe_of_lt {flags flags' : Flags} (buf : List UInt8) {bufSize : ℕ}
    (hpos : 1 ≤ bufSize) (hflags : adjustFlags flags bufSize = .ok flags')
    (hlt : bufSize < sizeT flags'.segmentSize)
    (hwide : sizeT flags'.segmentSize + bufSize < 2 ^ 64) : ¬ SplitSafe flags buf bufSize := by
  intro safe
  have hsplit : splitFile 1 flags buf bufSize = .ok (flags',
      [⟨buf, 0, sizeT flags'.segmentSize, sizeT flags'.segmentSize, 0, []⟩]) := by
    rw [splitFile_eq_loop 1 buf hflags, if_neg (by omega),
      splitLoop_oversized buf hpos hlt hwide 0]
    rfl
  have hinside := safe.inside 1 flags' _ hsplit _ (List.mem_singleton_self _)
  rw [Nat.zero_mul, Nat.zero_add] at hinside
  exact absurd hinside (Nat.not_le.mpr hlt)

/-- The effective segment size of a positive `segment_size`: the clamp and nothing else. -/
theorem adjustFlags_positive {flags : Flags} (bufSize : ℕ) (hseg : 1 ≤ flags.segmentSize) :
    ∃ flags', adjustFlags flags bufSize = .ok flags' ∧
      flags'.segmentSize = min flags.segmentSize intMax := by
  have hdefault : defaultSegmentSize flags bufSize = .ok flags := by
    rw [defaultSegmentSize, if_neg (by omega)]
  refine ⟨clampSegmentSize bufSize flags, by rw [adjustFlags, hdefault]; rfl, ?_⟩
  unfold clampSegmentSize
  split
  · exact (min_eq_right (le_of_lt ‹_›)).symm
  · exact (min_eq_left (Int.not_lt.mp ‹_›)).symm

/-- The effective segment size of a zero `segment_size`: at most the default, and zero
only if the default is. -/
theorem adjustFlags_zero {flags : Flags} {bufSize : ℕ} (hseg : flags.segmentSize = 0)
    (hsize : bufSize < 2 ^ 64) (hjobs : 1 ≤ flags.jobs) (hint : flags.jobs < 2 ^ 31) :
    ∃ flags', adjustFlags flags bufSize = .ok flags' ∧
      sizeT flags'.segmentSize ≤ bufSize ∧
      (sizeT flags'.segmentSize = 0 ↔ bufSize < flags.jobs.toNat) := by
  have hsizeT : sizeT flags.jobs = flags.jobs.toNat := sizeT_of_nonneg (by omega) (by omega)
  have hdefault : defaultSegmentSize flags bufSize =
      .ok { flags with segmentSize := int64 ↑(bufSize / flags.jobs.toNat) } := by
    rw [defaultSegmentSize, if_pos hseg, hsizeT, if_neg (by omega)]
  refine ⟨_, by rw [adjustFlags, hdefault]; rfl, ?_⟩
  have hle : bufSize / flags.jobs.toNat ≤ bufSize := Nat.div_le_self _ _
  have hzero : bufSize / flags.jobs.toNat = 0 ↔ bufSize < flags.jobs.toNat := by
    rw [Nat.div_eq_zero_iff]
    omega
  generalize bufSize / flags.jobs.toNat = quotient at hle hzero ⊢
  -- a quotient from 2^63 on is negative as an `int64`, and itself again as a `size_t`
  have hback : sizeT (int64 quotient) = quotient := by
    unfold sizeT int64
    omega
  unfold clampSegmentSize
  split
  · rename_i hclamp
    have hlarge : intMax < quotient := by
      unfold int64 at hclamp
      unfold intMax at hclamp ⊢
      simp only at hclamp
      omega
    rw [sizeT_natCast (by decide), ← hzero]
    unfold intMax at hlarge ⊢
    omega
  · rw [hback, ← hzero]
    exact ⟨hle, Iff.rfl⟩

/-- **`SplitFile` is safe exactly when the default segment size is not zero and the
clamped segment size is not larger than the file.** -/
theorem splitFile_safe_iff (flags : Flags) (buf : List UInt8) (bufSize : ℕ)
    (hpos : 1 ≤ bufSize) (hsize : bufSize < 2 ^ 64) (hjobs : 1 ≤ flags.jobs)
    (hint : flags.jobs < 2 ^ 31) (hseg : 0 ≤ flags.segmentSize) :
    SplitSafe flags buf bufSize ↔
      (flags.segmentSize = 0 → flags.jobs ≤ bufSize) ∧
        min flags.segmentSize intMax ≤ bufSize := by
  rcases hseg.lt_or_eq with hpositive | hzero
  · obtain ⟨flags', hflags, heffective⟩ := adjustFlags_positive bufSize
      (show 1 ≤ flags.segmentSize from hpositive)
    have hclamped : flags'.segmentSize ≤ intMax := heffective.le.trans (min_le_right _ _)
    have hge : 1 ≤ flags'.segmentSize := by
      rw [heffective]
      exact le_min (by omega) (by decide)
    have hsizeT : sizeT flags'.segmentSize = flags'.segmentSize.toNat :=
      sizeT_of_nonneg (by omega) (by unfold intMax at hclamped; omega)
    rw [← heffective]
    constructor
    · intro safe
      refine ⟨fun hcontra => absurd hcontra hpositive.ne', ?_⟩
      by_contra hcontra
      refine not_splitSafe_of_lt buf hpos hflags (by omega) ?_ safe
      unfold intMax at hclamped
      omega
    · rintro ⟨-, hle⟩
      exact splitSafe_of_le buf hflags hsize (by omega) (by omega)
  · obtain ⟨flags', hflags, hle, hdivides⟩ := adjustFlags_zero hzero.symm hsize hjobs hint
    have hmin : min flags.segmentSize intMax ≤ bufSize :=
      (min_le_left _ _).trans (by omega)
    constructor
    · intro safe
      refine ⟨fun _ => ?_, hmin⟩
      by_contra hcontra
      exact not_splitSafe_of_zero buf hflags (hdivides.mpr (by omega)) safe
    · rintro ⟨henough, -⟩
      have hbytes := henough hzero.symm
      have hne : ¬ sizeT flags'.segmentSize = 0 := mt hdivides.mp (by omega)
      exact splitSafe_of_le buf hflags hsize (by omega) hle

/-- Ten bytes for two jobs. -/
theorem splitFile_safe_two : SplitSafe ⟨0, 2⟩ (List.replicate 10 0) 10 :=
  (splitFile_safe_iff ⟨0, 2⟩ (List.replicate 10 0) 10 (by decide) (by decide) (by decide)
    (by decide) (by decide)).mpr ⟨fun _ => by decide, by decide⟩

/-- One byte for two jobs: the modulo is by zero. -/
theorem splitFile_divides_by_zero : ¬ SplitSafe ⟨0, 2⟩ [0] 1 := fun safe => safe.divides 0 rfl

end SliceTransfer
