import SliceTransfer.Lib.Bytes
import Mathlib.Algebra.Order.Group.Nat
import Mathlib.Tactic.Common
import Mathlib.Tactic.Ring

/-!
# Cutting an interval into equal pieces

A `Segmentation` cuts `[0, total)` into `total / size` pieces of length `size`,
the remainder going to the last piece.  The pieces are consecutive
(`offset_add_length_le_offset`), and every position lies in one of them
(`exists_mem_piece`).

The second half asks when the piece size can be recovered from the total and the
number of pieces alone.  `div_count_eq_size_iff` gives the exact answer: when the
remainder is smaller than the number of pieces.  `div_div_div_eq` says that a
size of the form `total / jobs` can always be recovered.
-/

/-- A cut of `[0, total)` into pieces of length `size`. -/
structure Segmentation where
  total : ℕ
  size : ℕ
  size_pos : 0 < size
  size_le : size ≤ total

namespace Segmentation

variable (S : Segmentation)

/-- The number of pieces. -/
def count : ℕ := S.total / S.size

/-- Where piece `i` starts. -/
def offset (i : ℕ) : ℕ := i * S.size

/-- The length of piece `i`; the last one takes the remainder. -/
def length (i : ℕ) : ℕ :=
  if i + 1 = S.count then S.size + S.total % S.size else S.size

/-- The position `x` belongs to piece `i`. -/
def Mem (x i : ℕ) : Prop := S.offset i ≤ x ∧ x < S.offset i + S.length i

variable {S}

theorem count_pos : 0 < S.count := Nat.div_pos S.size_le S.size_pos

theorem count_mul_add_mod : S.count * S.size + S.total % S.size = S.total :=
  Nat.div_add_mod' S.total S.size

theorem size_le_length (i : ℕ) : S.size ≤ S.length i := by
  unfold length
  split <;> omega

theorem length_pos (i : ℕ) : 0 < S.length i := S.size_pos.trans_le (size_le_length i)

theorem length_lt_two_mul (i : ℕ) : S.length i < 2 * S.size := by
  have := Nat.mod_lt S.total S.size_pos
  have := S.size_pos
  unfold length
  split <;> omega

/-- Every piece but the last ends where the next one starts. -/
theorem offset_add_length {i : ℕ} (hi : i + 1 < S.count) :
    S.offset i + S.length i = S.offset (i + 1) := by
  unfold offset length
  rw [if_neg hi.ne, Nat.add_one_mul]

/-- The last piece ends at the total. -/
theorem offset_add_length_last {i : ℕ} (hi : i + 1 = S.count) :
    S.offset i + S.length i = S.total := by
  unfold offset length
  rw [if_pos hi, ← Nat.add_assoc, ← Nat.add_one_mul, hi, count_mul_add_mod]

theorem offset_succ_le_total {i : ℕ} (hi : i < S.count) : S.offset (i + 1) ≤ S.total := by
  unfold offset
  exact (Nat.mul_le_mul_right S.size hi).trans
    (le_of_le_of_eq (Nat.le_add_right _ _) count_mul_add_mod)

theorem offset_add_length_le {i : ℕ} (hi : i < S.count) :
    S.offset i + S.length i ≤ S.total := by
  rcases (Nat.succ_le_of_lt hi).lt_or_eq with hlt | heq
  · rw [offset_add_length hlt]
    exact offset_succ_le_total hi
  · exact (offset_add_length_last heq).le

theorem offset_mono {i j : ℕ} (hij : i ≤ j) : S.offset i ≤ S.offset j :=
  Nat.mul_le_mul_right S.size hij

/-- Pieces do not overlap. -/
theorem offset_add_length_le_offset {i j : ℕ} (hij : i < j) (hj : j < S.count) :
    S.offset i + S.length i ≤ S.offset j := by
  rw [offset_add_length (by omega)]
  exact offset_mono hij

/-- Pieces cover the interval. -/
theorem exists_mem_piece {x : ℕ} (hx : x < S.total) : ∃ i < S.count, S.Mem x i := by
  have hpos := S.size_pos
  by_cases hin : x / S.size < S.count
  · have hlow : S.offset (x / S.size) ≤ x := Nat.div_mul_le_self x S.size
    have hhigh : x < S.offset (x / S.size) + S.size := Nat.lt_div_mul_add hpos
    have := size_le_length (S := S) (x / S.size)
    exact ⟨x / S.size, hin, hlow, by omega⟩
  · -- past the last full piece: the remainder, which the last piece takes
    have hcount := count_pos (S := S)
    have hlast : S.count - 1 + 1 = S.count := by omega
    refine ⟨S.count - 1, by omega, ?_, ?_⟩
    · calc S.offset (S.count - 1) ≤ S.offset S.count := offset_mono (Nat.sub_le _ _)
        _ ≤ (x / S.size) * S.size := Nat.mul_le_mul_right S.size (Nat.le_of_not_lt hin)
        _ ≤ x := Nat.div_mul_le_self x S.size
    · rw [offset_add_length_last hlast]
      exact hx

/-- Two contents of the interval that agree on every piece are equal. -/
theorem eq_of_windows {α : Type*} {content content' : List α} (hlen : content.length = S.total)
    (hlen' : content'.length = S.total)
    (h : ∀ i < S.count, Bytes.window content (S.offset i) (S.length i) =
      Bytes.window content' (S.offset i) (S.length i)) : content = content' := by
  apply List.ext_getElem?
  intro x
  by_cases hx : x < S.total
  · obtain ⟨i, hi, hlow, hhigh⟩ := exists_mem_piece hx
    have hentry := congrArg (fun range => range[x - S.offset i]?) (h i hi)
    simp only [Bytes.getElem?_window] at hentry
    rwa [if_pos (by omega), if_pos (by omega), Nat.add_sub_cancel' hlow] at hentry
  · rw [List.getElem?_eq_none (by omega), List.getElem?_eq_none (by omega)]

/-! ## Recovering the size from the count -/

/-- The size is recovered from the total and the count exactly when the
remainder is smaller than the count. -/
theorem div_count_eq_size_iff : S.total / S.count = S.size ↔ S.total % S.size < S.count := by
  have hsplit := count_mul_add_mod (S := S)
  rw [Nat.div_eq_iff count_pos]
  constructor
  · rintro ⟨-, hupper⟩
    have := count_pos (S := S)
    rw [Nat.mul_comm] at hsplit
    omega
  · intro hlt
    rw [Nat.mul_comm] at hsplit
    omega

/-- Dividing by a quotient twice changes nothing: `⌊n / ⌊n / ⌊n / j⌋⌋⌋ = ⌊n / j⌋`. -/
theorem div_div_div_eq (n j : ℕ) : n / (n / (n / j)) = n / j := by
  rcases Nat.eq_zero_or_pos (n / j) with hzero | hpos
  · simp [hzero]
  have hj : 0 < j := by
    by_contra hcontra
    rw [Nat.eq_zero_of_not_pos hcontra, Nat.div_zero] at hpos
    exact absurd hpos (lt_irrefl 0)
  set q := n / j with hq
  have hjq : j * q ≤ n := Nat.mul_div_le n j
  have hle : j ≤ n / q := (Nat.le_div_iff_mul_le hpos).mpr hjq
  apply le_antisymm
  · exact Nat.div_le_div_left hle hj
  · exact (Nat.le_div_iff_mul_le (hj.trans_le hle)).mpr (Nat.mul_div_le n q)

end Segmentation
