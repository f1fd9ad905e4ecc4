import SliceTransfer.Lib.Bytes

/-!
# Reading around a buffer

A buffer is placed at address zero; what lies around it is not known.  `load` reads
a range of addresses.  Inside the buffer it is the `window` of the buffer
(`load_placed`), elsewhere it depends on the surroundings.
-/

namespace Bytes

variable {α : Type*}

/-- The cells of `memory` from address `pos` on. -/
def load (memory : ℤ → α) (pos : ℤ) (count : ℕ) : List α :=
  (List.range count).map fun (i : ℕ) => memory (pos + i)

/-- A buffer at address zero, surrounded by `stray`. -/
def placed (buffer : List α) (stray : ℤ → α) (pos : ℤ) : α :=
  if 0 ≤ pos then buffer.getD pos.toNat (stray pos) else stray pos

@[simp] theorem length_load (memory : ℤ → α) (pos : ℤ) (count : ℕ) :
    (load memory pos count).length = count := by
  simp [load]

/-- Consecutive reads are one read. -/
theorem load_append (memory : ℤ → α) (pos : ℤ) (count more : ℕ) :
    load memory pos count ++ load memory (pos + count) more = load memory pos (count + more) := by
  unfold load
  rw [List.range_add, List.map_append, List.map_map]
  congr 1
  apply List.map_congr_left
  intro i _
  simp only [Function.comp_apply, Nat.cast_add, add_assoc]

/-- Inside the buffer memory holds the buffer. -/
theorem load_placed (buffer : List α) (stray : ℤ → α) {pos count : ℕ}
    (h : pos + count ≤ buffer.length) :
    load (placed buffer stray) pos count = window buffer pos count := by
  apply List.ext_getElem?
  intro i
  rw [getElem?_window]
  by_cases hi : i < count
  · have hin : pos + i < buffer.length := by omega
    have haddress : ((pos : ℤ) + (i : ℤ)).toNat = pos + i := by omega
    have hpos : (0 : ℤ) ≤ (pos : ℤ) + (i : ℤ) := by omega
    simp [load, placed, hi, haddress, hpos, List.getElem?_eq_getElem hin]
  · simp [load, hi]

/-- Consecutive windows are one window. -/
theorem window_append_window (buffer : List α) (pos count more : ℕ) :
    window buffer pos count ++ window buffer (pos + count) more =
      window buffer pos (count + more) := by
  rw [window, window, window, ← List.drop_drop, List.take_add]

end Bytes
