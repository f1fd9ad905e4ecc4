import SliceTransfer.Sender.FileSlice
import SliceTransfer.Receiver.Header

/-!
# Where a slice lives: sender against receiver

The sender reads slice `i` at `i * s`, `s` being the effective segment size.  The
receiver is told the file size `B` and the number of slices `n` only, and writes
slice `i` at `i * (B / n)`.  The two agree on every slice exactly when there is a
single slice or the remainder `B % s` is smaller than `n`
(`splitFile_placement_iff`); then the destinations tile `[0, B)`.
-/

namespace SliceTransfer

open Server FileSlice

/-- The number of slices `main` hands to `SendingFlow::Init`, an `unsigned short`. -/
def announcedSlicesNum (slices : List FileSlice) : ℕ := slices.length % 2 ^ 16

/-- The receiver's globals once the sender's header has been recorded. -/
def announced (bufSize : ℕ) (slices : List FileSlice) : Globals :=
  recordHeader bufSize (announcedSlicesNum slices) Globals.initial

/-- The receiver writes every slice where the sender read it, and the
destination ranges are disjoint and cover the file. -/
structure PlacedFaithfully (bufSize : ℕ) (slices : List FileSlice) : Prop where
  agree : ∀ f ∈ slices, bufOffset (announced bufSize slices) f.index = f.getBuf
  disjoint : slices.Pairwise fun f f' =>
    bufOffset (announced bufSize slices) f.index + f.len ≤
        bufOffset (announced bufSize slices) f'.index ∨
      bufOffset (announced bufSize slices) f'.index + f'.len ≤
        bufOffset (announced bufSize slices) f.index
  cover : ∀ x, x < bufSize ↔ ∃ f ∈ slices,
    bufOffset (announced bufSize slices) f.index ≤ x ∧
      x < bufOffset (announced bufSize slices) f.index + f.len

/-! ## The slices of a segmentation -/

section Pieces

variable {S : Segmentation} (htotal : S.total < 2 ^ 64) (hcount : S.count ≤ 65535)
  (buf : List UInt8)

/-- All slices of the segmented file, in the order they are pushed. -/
def pieces (S : Segmentation) (buf : List UInt8) : List FileSlice :=
  (List.range S.count).map (piece S buf)

omit htotal in
theorem length_pieces : (pieces S buf).length = S.count := by
  simp [pieces]

theorem mem_pieces {f : FileSlice} : f ∈ pieces S buf ↔ ∃ i < S.count, piece S buf i = f := by
  simp [pieces]

include hcount in
theorem piece_index {i : ℕ} (hi : i < S.count) : (piece S buf i).index = i :=
  Nat.mod_eq_of_lt (by omega)

include htotal hcount in
theorem piece_getBuf {i : ℕ} (hi : i < S.count) : (piece S buf i).getBuf = S.offset i := by
  have hle := (S.offset_mono (Nat.le_succ i)).trans (S.offset_succ_le_total hi)
  rw [getBuf, piece_index hcount buf hi]
  exact Nat.mod_eq_of_lt (hle.trans_lt htotal)

include htotal hcount in
/-- The receiver's idea of where piece `i` goes. -/
theorem bufOffset_piece {i : ℕ} (hi : i < S.count) :
    bufOffset (announced S.total (pieces S buf)) (piece S buf i).index =
      i * (S.total / S.count) := by
  have hnum : announcedSlicesNum (pieces S buf) = S.count := by
    rw [announcedSlicesNum, length_pieces]
    exact Nat.mod_eq_of_lt (by omega)
  have hle : i * (S.total / S.count) ≤ S.total :=
    (Nat.mul_le_mul_right _ hi.le).trans (Nat.mul_div_le _ _)
  rw [bufOffset, piece_index hcount buf hi, announced, hnum]
  exact Nat.mod_eq_of_lt (hle.trans_lt htotal)

include htotal hcount in
/-- Once sender and receiver agree, tiling is a property of the segmentation. -/
theorem placedFaithfully_of_agree
    (hagree : ∀ i < S.count, i * (S.total / S.count) = S.offset i) :
    PlacedFaithfully S.total (pieces S buf) := by
  have hdest : ∀ i < S.count,
      bufOffset (announced S.total (pieces S buf)) (piece S buf i).index = S.offset i :=
    fun i hi => (bufOffset_piece htotal hcount buf hi).trans (hagree i hi)
  refine ⟨?_, ?_, ?_⟩
  · intro f hf
    obtain ⟨i, hi, rfl⟩ := (mem_pieces buf).mp hf
    rw [hdest i hi, piece_getBuf htotal hcount buf hi]
  · rw [pieces, List.pairwise_map]
    refine List.pairwise_lt_range.imp_of_mem ?_
    intro i j hi hj hij
    rw [List.mem_range] at hi hj
    rw [← pieces, hdest i hi, hdest j hj]
    exact Or.inl (S.offset_add_length_le_offset hij hj)
  · intro x
    constructor
    · intro hx
      obtain ⟨i, hi, hlow, hhigh⟩ := S.exists_mem_piece hx
      refine ⟨piece S buf i, (mem_pieces buf).mpr ⟨i, hi, rfl⟩, ?_⟩
      rw [hdest i hi]
      exact ⟨hlow, hhigh⟩
    · rintro ⟨f, hf, -, hhigh⟩
      obtain ⟨i, hi, rfl⟩ := (mem_pieces buf).mp hf
      rw [hdest i hi] at hhigh
      exact hhigh.trans_le (S.offset_add_length_le hi)

include htotal hcount in
theorem placedFaithfully_pieces_iff :
    PlacedFaithfully S.total (pieces S buf) ↔
      S.count = 1 ∨ S.total % S.size < S.count := by
  constructor
  · intro placed
    by_cases hone : S.count = 1
    · exact Or.inl hone
    · -- the second slice already decides
      have hpos := S.count_pos
      have hsecond : 1 < S.count := by omega
      have hagree := placed.agree _ ((mem_pieces buf).mpr ⟨1, hsecond, rfl⟩)
      rw [bufOffset_piece htotal hcount buf hsecond, piece_getBuf htotal hcount buf hsecond,
        Nat.one_mul] at hagree
      exact Or.inr (S.div_count_eq_size_iff.mp (hagree.trans (Nat.one_mul _)))
  · intro hcond
    refine placedFaithfully_of_agree htotal hcount buf ?_
    intro i hi
    rcases hcond with hone | hlt
    · have hzero : i = 0 := by omega
      rw [hzero, Nat.zero_mul]
      exact (Nat.zero_mul _).symm
    · rw [S.div_count_eq_size_iff.mpr hlt]
      rfl

end Pieces

/-! ## The statement about `SplitFile` -/

/-- **Sender and receiver agree on where every slice lives exactly when there is
one slice or the remainder is smaller than the number of slices.** -/
theorem splitFile_placement_iff (fuel : ℕ) (flags flags' : Flags) (buf : List UInt8)
    (bufSize : ℕ) (slices : List FileSlice) (hsize : bufSize < 2 ^ 64)
    (hsplit : splitFile fuel flags buf bufSize = .ok (flags', slices))
    (hpos : 1 ≤ flags'.segmentSize) (hle : flags'.segmentSize ≤ bufSize)
    (hnum : slices.length ≤ 65535) :
    PlacedFaithfully bufSize slices ↔
      bufSize / flags'.segmentSize.toNat = 1 ∨
        bufSize % flags'.segmentSize.toNat < bufSize / flags'.segmentSize.toNat := by
  have hflags := (splitFile_ok hsplit).1
  have hslices : slices = pieces (segmentation bufSize flags'.segmentSize hpos hle) buf := by
    rw [splitFile_eq fuel buf hflags hsize hpos hle] at hsplit
    split at hsplit
    · cases hsplit
      rfl
    · cases hsplit
  subst hslices
  rw [length_pieces] at hnum
  exact placedFaithfully_pieces_iff hsize hnum buf

/-- Ten bytes in pieces of five. -/
theorem splitFile_placement_even :
    PlacedFaithfully 10 [⟨List.replicate 10 0, 0, 5, 5, 0, []⟩,
      ⟨List.replicate 10 0, 1, 5, 5, 0, []⟩] :=
  (splitFile_placement_iff 2 ⟨5, 1⟩ ⟨5, 1⟩ (List.replicate 10 0) 10 _ (by decide) (by decide)
    (by decide) (by decide) (by decide)).mpr (by decide)

/-- Ten bytes in pieces of four: two slices, the second read at 4 and written at 5. -/
theorem splitFile_placement_uneven :
    ∃ slices, splitFile 2 ⟨4, 1⟩ (List.replicate 10 0) 10 = .ok (⟨4, 1⟩, slices) ∧
      slices.length ≤ 65535 ∧ ¬ PlacedFaithfully 10 slices := by
  refine ⟨[⟨List.replicate 10 0, 0, 4, 4, 0, []⟩, ⟨List.replicate 10 0, 1, 6, 4, 0, []⟩],
    by decide, by decide, fun placed => ?_⟩
  exact absurd (placed.agree ⟨List.replicate 10 0, 1, 6, 4, 0, []⟩ (by decide)) (by decide)

end SliceTransfer
