import Mathlib.Algebra.BigOperators.Group.Finset.Piecewise
import Mathlib.Algebra.Order.BigOperators.Group.Finset
import Mathlib.Logic.Function.Basic

/-!
# Counting slots

A row of `n` slots is a function on the naturals, looked at below `n` only.
`slotCount p slots n` is the number of slots whose value satisfies `p`; a store into
one slot changes it by what that slot counts for (`slotCount_update`).  `sum_add_le` is the
same for a sum over the slots.  A row that is filled from the left is `filled`.
-/

/-- A sum gets smaller by what one of its terms has lost, if no other term grows. -/
theorem sum_add_le {ι : Type*} [DecidableEq ι] {indices : Finset ι} {f f' : ι → ℕ} {i : ι}
    {d : ℕ} (hi : i ∈ indices) (hown : f' i + d ≤ f i)
    (hothers : ∀ j ∈ indices, j ≠ i → f' j ≤ f j) :
    ∑ j ∈ indices, f' j + d ≤ ∑ j ∈ indices, f j := by
  have hrest : ∑ j ∈ indices.erase i, f' j ≤ ∑ j ∈ indices.erase i, f j :=
    Finset.sum_le_sum fun j hj =>
      hothers j (Finset.mem_of_mem_erase hj) (Finset.ne_of_mem_erase hj)
  rw [← Finset.add_sum_erase _ _ hi, ← Finset.add_sum_erase _ _ hi]
  omega

variable {α : Type*}

/-- The slots below `k` hold what `f` gives them, the others what `g` gives them. -/
def filled (f g : ℕ → α) (k : ℕ) : ℕ → α := fun i => if i < k then f i else g i

theorem filled_of_lt {f g : ℕ → α} {i k : ℕ} (hi : i < k) : filled f g k i = f i := if_pos hi

theorem filled_of_le {f g : ℕ → α} {i k : ℕ} (hi : k ≤ i) : filled f g k i = g i :=
  if_neg (Nat.not_lt.mpr hi)

theorem filled_zero (f g : ℕ → α) : filled f g 0 = g :=
  funext fun i => filled_of_le (Nat.zero_le i)

/-- The next slot is filled. -/
theorem update_filled (f g : ℕ → α) (k : ℕ) :
    Function.update (filled f g k) k (f k) = filled f g (k + 1) := by
  funext i
  by_cases hsame : i = k
  · rw [hsame, Function.update_self, filled_of_lt (Nat.lt_succ_self k)]
  · rw [Function.update_of_ne hsame, filled, filled]
    by_cases hlt : i < k
    · rw [if_pos hlt, if_pos (by omega)]
    · rw [if_neg hlt, if_neg (by omega)]

variable (p : α → Prop) [DecidablePred p]

/-- The number of slots below `n` that satisfy `p`. -/
def slotCount (slots : ℕ → α) (n : ℕ) : ℕ := ((Finset.range n).filter fun i => p (slots i)).card

theorem slotCount_update (slots : ℕ → α) {n i : ℕ} (hi : i < n) (value : α) :
    slotCount p (Function.update slots i value) n + (if p (slots i) then 1 else 0) =
      slotCount p slots n + (if p value then 1 else 0) := by
  have hmem : i ∈ Finset.range n := Finset.mem_range.mpr hi
  have hothers : ∑ j ∈ (Finset.range n).erase i,
      (if p (Function.update slots i value j) then 1 else 0) =
        ∑ j ∈ (Finset.range n).erase i, if p (slots j) then 1 else 0 := by
    refine Finset.sum_congr rfl ?_
    intro j hj
    rw [Function.update_of_ne (Finset.ne_of_mem_erase hj)]
  unfold slotCount
  rw [Finset.card_filter, Finset.card_filter, ← Finset.add_sum_erase _ _ hmem,
    ← Finset.add_sum_erase _ _ hmem, hothers, Function.update_self]
  omega

variable {p}

/-- A slot that starts to satisfy `p`. -/
theorem slotCount_update_add {slots : ℕ → α} {n i : ℕ} (hi : i < n) {value : α}
    (hold : ¬ p (slots i)) (hnew : p value) :
    slotCount p (Function.update slots i value) n = slotCount p slots n + 1 := by
  have h := slotCount_update p slots hi value
  rwa [if_neg hold, if_pos hnew, Nat.add_zero] at h

/-- A slot that ceases to satisfy `p`. -/
theorem slotCount_update_sub {slots : ℕ → α} {n i : ℕ} (hi : i < n) {value : α}
    (hold : p (slots i)) (hnew : ¬ p value) :
    slotCount p (Function.update slots i value) n + 1 = slotCount p slots n := by
  have h := slotCount_update p slots hi value
  rwa [if_pos hold, if_neg hnew, Nat.add_zero] at h

/-- A store that `p` does not see. -/
theorem slotCount_update_same {slots : ℕ → α} {n i : ℕ} (hi : i < n) {value : α}
    (hold : ¬ p (slots i)) (hnew : ¬ p value) :
    slotCount p (Function.update slots i value) n = slotCount p slots n := by
  have h := slotCount_update p slots hi value
  rwa [if_neg hold, if_neg hnew, Nat.add_zero, Nat.add_zero] at h
