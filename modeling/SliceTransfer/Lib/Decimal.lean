import Mathlib.Data.List.Basic
import Mathlib.Data.List.Induction
import Mathlib.Data.Nat.Basic
import Mathlib.Tactic.Common
import Mathlib.Tactic.Ring

/-!
# Decimal texts as byte strings

`decimal n` is the ASCII text a stream prints for `n`, `decimalValue` the number
a digit string denotes.  Besides the round trip, the lemmas say what a *prefix*
of a decimal text denotes: cutting off the last `k` digits divides by `10 ^ k`.
-/

namespace Decimal

/-- An ASCII digit. -/
def IsDigit (byte : UInt8) : Prop := 48 ≤ byte.toNat ∧ byte.toNat ≤ 57

instance : DecidablePred IsDigit := fun byte =>
  inferInstanceAs (Decidable (48 ≤ byte.toNat ∧ byte.toNat ≤ 57))

/-- The ASCII code of a decimal digit. -/
def digitByte (d : ℕ) : UInt8 := UInt8.ofNat (48 + d)

/-- The decimal text of `n`. -/
def decimal (n : ℕ) : List UInt8 :=
  (Nat.toDigits 10 n).map fun c => UInt8.ofNat c.toNat

/-- The number a digit string denotes. -/
def decimalValue (text : List UInt8) : ℕ :=
  text.foldl (fun value byte => value * 10 + (byte.toNat - 48)) 0

theorem toNat_digitByte {d : ℕ} (hd : d < 10) : (digitByte d).toNat = 48 + d := by
  rw [digitByte, UInt8.toNat_ofNat']
  omega

theorem isDigit_digitByte {d : ℕ} (hd : d < 10) : IsDigit (digitByte d) := by
  rw [IsDigit, toNat_digitByte hd]
  omega

@[simp] theorem decimalValue_nil : decimalValue [] = 0 := rfl

theorem decimalValue_append_singleton (text : List UInt8) (byte : UInt8) :
    decimalValue (text ++ [byte]) = decimalValue text * 10 + (byte.toNat - 48) := by
  simp [decimalValue, List.foldl_append]

/-- A digit string denotes a number with at most as many digits. -/
theorem decimalValue_lt {text : List UInt8} (hdigits : ∀ byte ∈ text, IsDigit byte) :
    decimalValue text < 10 ^ text.length := by
  induction text using List.reverseRecOn with
  | nil => decide
  | append_singleton text byte ih =>
      have hinit := ih fun other hmem => hdigits other (List.mem_append_left _ hmem)
      have hlast : IsDigit byte :=
        hdigits byte (List.mem_append_right _ (List.mem_singleton_self _))
      have hdigit : byte.toNat - 48 < 10 := by
        have := hlast.2
        omega
      rw [decimalValue_append_singleton, List.length_append, List.length_singleton, pow_succ]
      omega

private theorem ofNat_toNat_digitChar {d : ℕ} (hd : d < 10) :
    UInt8.ofNat (Nat.digitChar d).toNat = digitByte d := by
  have hall : ∀ d < 10, UInt8.ofNat (Nat.digitChar d).toNat = digitByte d := by decide
  exact hall d hd

theorem decimal_of_lt {n : ℕ} (hn : n < 10) : decimal n = [digitByte n] := by
  rw [decimal, Nat.toDigits_of_lt_base hn, List.map_singleton, ofNat_toNat_digitChar hn]

theorem decimal_of_le {n : ℕ} (hn : 10 ≤ n) :
    decimal n = decimal (n / 10) ++ [digitByte (n % 10)] := by
  rw [decimal, Nat.toDigits_of_base_le (by omega) hn, List.map_append, List.map_singleton,
    ofNat_toNat_digitChar (Nat.mod_lt n (by omega)), decimal]

theorem decimal_ne_nil (n : ℕ) : decimal n ≠ [] := by
  simp [decimal]

/-- `decimal n` has at most `k` digits exactly when `n < 10 ^ k`. -/
theorem length_decimal_le_iff {n k : ℕ} (hk : 0 < k) : (decimal n).length ≤ k ↔ n < 10 ^ k := by
  rw [decimal, List.length_map]
  exact Nat.length_toDigits_le_iff (by omega) hk

theorem pow_length_decimal_le {n : ℕ} (hlong : 1 < (decimal n).length) :
    10 ^ ((decimal n).length - 1) ≤ n := by
  by_contra hcontra
  have hle := (length_decimal_le_iff (n := n) (k := (decimal n).length - 1) (by omega)).mpr
    (Nat.lt_of_not_le hcontra)
  omega

theorem isDigit_of_mem_decimal {n : ℕ} {byte : UInt8} (hmem : byte ∈ decimal n) :
    IsDigit byte := by
  induction n using Nat.strongRecOn with
  | ind n ih =>
      rcases Nat.lt_or_ge n 10 with hlt | hge
      · rw [decimal_of_lt hlt, List.mem_singleton] at hmem
        exact hmem ▸ isDigit_digitByte hlt
      · rw [decimal_of_le hge, List.mem_append, List.mem_singleton] at hmem
        rcases hmem with hinit | hlast
        · exact ih (n / 10) (by omega) hinit
        · exact hlast ▸ isDigit_digitByte (Nat.mod_lt n (by omega))

/-- Cutting the last `k` digits off divides by `10 ^ k`. -/
theorem decimalValue_take_decimal {n k : ℕ} (hk : k ≤ (decimal n).length) :
    decimalValue ((decimal n).take ((decimal n).length - k)) = n / 10 ^ k := by
  induction n using Nat.strongRecOn generalizing k with
  | ind n ih =>
      rcases Nat.lt_or_ge n 10 with hlt | hge
      · rw [decimal_of_lt hlt] at hk ⊢
        simp only [List.length_singleton] at hk ⊢
        rcases Nat.le_one_iff_eq_zero_or_eq_one.mp hk with rfl | rfl
        · simp [decimalValue, toNat_digitByte hlt]
        · simpa using (Nat.div_eq_of_lt hlt).symm
      · rw [decimal_of_le hge] at hk ⊢
        simp only [List.length_append, List.length_singleton] at hk ⊢
        cases k with
        | zero =>
            have hinit := ih (n / 10) (by omega) (k := 0) (Nat.zero_le _)
            simp only [Nat.sub_zero, List.take_length, pow_zero, Nat.div_one] at hinit
            rw [List.take_of_length_le (by simp), decimalValue_append_singleton, hinit,
              toNat_digitByte (Nat.mod_lt n (by omega))]
            omega
        | succ k =>
            have hle : (decimal (n / 10)).length + 1 - (k + 1) ≤ (decimal (n / 10)).length := by
              omega
            rw [List.take_append_of_le_length hle, Nat.add_sub_add_right,
              ih (n / 10) (by omega) (by omega), Nat.div_div_eq_div_mul, pow_succ,
              Nat.mul_comm]

/-- The round trip. -/
theorem decimalValue_decimal (n : ℕ) : decimalValue (decimal n) = n := by
  simpa using decimalValue_take_decimal (n := n) (k := 0) (Nat.zero_le _)

end Decimal
