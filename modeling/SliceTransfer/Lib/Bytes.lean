import Mathlib.Data.List.Basic
import Mathlib.Data.List.Induction
import Mathlib.Data.Nat.Basic
import Mathlib.Tactic.Common
import Mathlib.Tactic.Ring

/-!
# Byte strings: network-order words and stores into fixed memory

`bigEndian k n` is the `k`-byte network representation of `n`, `ofBigEndian` its
inverse up to `n % 256 ^ k`.

`overwrite content pos bytes` is a store into a block of fixed size: bytes that
would fall outside the block are lost.  `window content pos len` reads a range.
The two lemmas `window_overwrite_self` and `window_overwrite_of_disjoint` are the
usual read-over-write rules for ranges.
-/

namespace Bytes

variable {α : Type*}

/-! ## Network byte order -/

/-- The `k` low-order bytes of `n`, most significant first. -/
def bigEndian : ℕ → ℕ → List UInt8
  | 0, _ => []
  | k + 1, n => bigEndian k (n / 256) ++ [UInt8.ofNat n]

/-- The number a byte string denotes in network order. -/
def ofBigEndian (bytes : List UInt8) : ℕ :=
  bytes.foldl (fun value byte => value * 256 + byte.toNat) 0

@[simp] theorem length_bigEndian (k n : ℕ) : (bigEndian k n).length = k := by
  induction k generalizing n with
  | zero => rfl
  | succ k ih => simp [bigEndian, ih]

theorem ofBigEndian_append_singleton (bytes : List UInt8) (byte : UInt8) :
    ofBigEndian (bytes ++ [byte]) = ofBigEndian bytes * 256 + byte.toNat := by
  simp [ofBigEndian, List.foldl_append]

theorem ofBigEndian_bigEndian (k n : ℕ) : ofBigEndian (bigEndian k n) = n % 256 ^ k := by
  induction k generalizing n with
  | zero => simp [bigEndian, ofBigEndian, Nat.mod_one]
  | succ k ih =>
      rw [bigEndian, ofBigEndian_append_singleton, ih, UInt8.toNat_ofNat']
      have hpow : 256 ^ (k + 1) = 256 * 256 ^ k := by ring
      rw [hpow, Nat.mod_mul]
      omega

theorem ofBigEndian_lt (bytes : List UInt8) : ofBigEndian bytes < 256 ^ bytes.length := by
  induction bytes using List.reverseRecOn with
  | nil => simp [ofBigEndian]
  | append_singleton bytes byte ih =>
      have hbyte : byte.toNat < 256 := byte.toNat_lt
      rw [ofBigEndian_append_singleton, List.length_append, List.length_singleton, pow_succ]
      omega

/-! ## Reading and storing ranges -/

/-- The `len` entries of `content` from `pos` on. -/
def window (content : List α) (pos len : ℕ) : List α := (content.drop pos).take len

/-- `content` after `bytes` have been stored from position `pos` on. -/
def overwrite (content : List α) (pos : ℕ) (bytes : List α) : List α :=
  content.mapIdx fun i old => if pos ≤ i then bytes[i - pos]?.getD old else old

@[simp] theorem length_overwrite (content : List α) (pos : ℕ) (bytes : List α) :
    (overwrite content pos bytes).length = content.length := by
  simp [overwrite]

@[simp] theorem overwrite_nil (content : List α) (pos : ℕ) :
    overwrite content pos [] = content := by
  apply List.ext_getElem (by simp)
  intro i _ _
  simp [overwrite]

theorem getElem?_overwrite (content : List α) (pos : ℕ) (bytes : List α) (i : ℕ) :
    (overwrite content pos bytes)[i]? =
      content[i]?.map fun old => if pos ≤ i then bytes[i - pos]?.getD old else old := by
  simp [overwrite, List.getElem?_mapIdx]

theorem getElem?_window (content : List α) (pos len i : ℕ) :
    (window content pos len)[i]? = if i < len then content[pos + i]? else none := by
  simp only [window, List.getElem?_take, List.getElem?_drop]

/-- A field of `k` bytes holds a number of `k` bytes. -/
theorem ofBigEndian_window_lt (bytes : List UInt8) (pos k : ℕ) :
    ofBigEndian (window bytes pos k) < 256 ^ k :=
  calc ofBigEndian (window bytes pos k) < 256 ^ (window bytes pos k).length := ofBigEndian_lt _
    _ ≤ 256 ^ k := Nat.pow_le_pow_right (by omega) (List.length_take_le _ _)

theorem length_window (content : List α) {pos len : ℕ} (h : pos + len ≤ content.length) :
    (window content pos len).length = len := by
  simp only [window, List.length_take, List.length_drop]
  omega

theorem window_append_left {content : List α} (more : List α) {pos len : ℕ}
    (h : pos + len ≤ content.length) :
    window (content ++ more) pos len = window content pos len := by
  rw [window, window, List.drop_append_of_le_length (by omega),
    List.take_append_of_le_length (by rw [List.length_drop]; omega)]

/-- The middle of three parts. -/
theorem window_append_middle (before middle after : List α) :
    window (before ++ middle ++ after) before.length middle.length = middle := by
  rw [window, List.append_assoc, List.drop_left, List.take_left]

/-- A store over the rest of the block. -/
theorem overwrite_append_right (before : List α) {after bytes : List α}
    (hlen : bytes.length = after.length) :
    overwrite (before ++ after) before.length bytes = before ++ bytes := by
  apply List.ext_getElem?
  intro i
  rw [getElem?_overwrite]
  by_cases hlow : before.length ≤ i
  · rw [List.getElem?_append_right hlow, List.getElem?_append_right hlow]
    by_cases hin : i - before.length < after.length
    · simp [List.getElem?_eq_getElem hin, hlow, List.getElem?_eq_getElem (hlen.symm ▸ hin)]
    · rw [List.getElem?_eq_none (by omega), List.getElem?_eq_none (by omega)]
      rfl
  · have hlt : i < before.length := by omega
    simp [List.getElem?_append_left hlt, hlow]

/-- A store of one entry. -/
theorem set_eq_overwrite (content : List α) (pos : ℕ) (byte : α) :
    content.set pos byte = overwrite content pos [byte] := by
  apply List.ext_getElem?
  intro i
  rw [getElem?_overwrite]
  rcases Nat.lt_trichotomy i pos with hlt | rfl | hgt
  · have hne : pos ≠ i := hlt.ne'
    simp [hne, Nat.not_le.mpr hlt]
  · by_cases hin : i < content.length
    · simp [hin]
    · simp [Nat.le_of_not_lt hin]
  · have hne : pos ≠ i := hgt.ne
    have hpast : ¬ i - pos = 0 := by omega
    simp [hne, hgt.le, hpast]

/-- Two consecutive stores are one store. -/
theorem overwrite_overwrite_append (content : List α) (pos : ℕ) (first second : List α) :
    overwrite (overwrite content pos first) (pos + first.length) second =
      overwrite content pos (first ++ second) := by
  apply List.ext_getElem?
  intro i
  simp only [getElem?_overwrite, Option.map_map]
  congr 1
  funext old
  simp only [Function.comp_apply]
  by_cases hlow : pos ≤ i
  · by_cases hmid : pos + first.length ≤ i
    · have hle : first.length ≤ i - pos := by omega
      have hnone : first[i - pos]? = none := List.getElem?_eq_none hle
      have hidx : i - (pos + first.length) = i - pos - first.length := by omega
      simp [hlow, hmid, hnone, hidx, List.getElem?_append_right hle]
    · have hlt : i - pos < first.length := by omega
      simp [hlow, hmid, List.getElem?_append_left hlt, List.getElem?_eq_getElem hlt]
  · have hmid : ¬ pos + first.length ≤ i := by omega
    simp [hlow, hmid]

/-- Reading back what was stored. -/
theorem window_overwrite_self {content : List α} {pos : ℕ} {bytes : List α}
    (h : pos + bytes.length ≤ content.length) :
    window (overwrite content pos bytes) pos bytes.length = bytes := by
  apply List.ext_getElem?
  intro i
  rw [getElem?_window, getElem?_overwrite]
  by_cases hi : i < bytes.length
  · have hin : pos + i < content.length := by omega
    simp [hi, List.getElem?_eq_getElem hin]
  · simp [hi]

/-- A store leaves disjoint ranges alone. -/
theorem window_overwrite_of_disjoint {content : List α} {pos len start : ℕ} {bytes : List α}
    (h : start + len ≤ pos ∨ pos + bytes.length ≤ start) :
    window (overwrite content pos bytes) start len = window content start len := by
  apply List.ext_getElem?
  intro i
  simp only [getElem?_window, getElem?_overwrite]
  by_cases hi : i < len
  · have hsame : ∀ old : α,
        (if pos ≤ start + i then bytes[start + i - pos]?.getD old else old) = old := by
      intro old
      split
      · have hout : bytes.length ≤ start + i - pos := by omega
        simp [List.getElem?_eq_none hout]
      · rfl
    simp [hi, hsame]
  · simp [hi]

end Bytes
