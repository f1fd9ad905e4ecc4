import Mathlib.Algebra.Ring.Int.Defs
import Mathlib.Algebra.Ring.Nat
import Mathlib.Tactic.Common

/-!
# The machine of the program

The program runs on a 64-bit Linux: `size_t` and `unsigned long` have 64 bits,
`int` and `unsigned int` 32, `short` and `unsigned short` 16.  An unsigned value
is a natural number, a signed one an integer; each conversion the source makes
is one of the functions below.

`WriteResult` is what one call of `write` on a non-blocking socket comes to.  What a loop
makes of it is in the module of that loop.
-/

namespace SliceTransfer

/-- How a computation ends when it does not return: it traps, or the number of
loop iterations it was observed for is used up. -/
inductive Fault
  | divideByZero
  | negativeCopy
  | nullPointer
  | unfinished
  deriving DecidableEq, Repr

/-! ## Integers -/

/-- `std::numeric_limits<int>::max()`. -/
def intMax : ℕ := 2147483647

/-- Conversion of a signed value to `size_t`. -/
def sizeT (x : ℤ) : ℕ := (x % 2 ^ 64).toNat

/-- Conversion of a signed value to `unsigned int`. -/
def uint32 (x : ℤ) : ℕ := (x % 2 ^ 32).toNat

/-- Subtraction in `size_t`. -/
def subSizeT (a b : ℕ) : ℕ := sizeT ((a : ℤ) - b)

/-- Conversion to `int64`. -/
def int64 (x : ℤ) : ℤ := (x + 2 ^ 63) % 2 ^ 64 - 2 ^ 63

/-- Conversion to `int`. -/
def int32 (x : ℤ) : ℤ := (x + 2 ^ 31) % 2 ^ 32 - 2 ^ 31

/-- Conversion to `short`. -/
def int16 (x : ℤ) : ℤ := (x + 2 ^ 15) % 2 ^ 16 - 2 ^ 15

theorem sizeT_of_nonneg {x : ℤ} (hx : 0 ≤ x) (hlt : x < 2 ^ 64) : sizeT x = x.toNat := by
  unfold sizeT
  omega

@[simp] theorem sizeT_natCast {n : ℕ} (hn : n < 2 ^ 64) : sizeT n = n := by
  unfold sizeT
  omega

theorem subSizeT_of_le {a b : ℕ} (hle : b ≤ a) (hlt : a < 2 ^ 64) : subSizeT a b = a - b := by
  unfold subSizeT
  rw [sizeT_of_nonneg (by omega) (by omega)]
  omega

@[simp] theorem uint32_natCast {n : ℕ} (hn : n < 2 ^ 32) : uint32 n = n := by
  unfold uint32
  omega

theorem int64_of_lt {n : ℕ} (hn : n < 2 ^ 63) : int64 n = n := by
  unfold int64
  omega

theorem int16_of_lt {n : ℕ} (hn : n < 2 ^ 15) : int16 n = n := by
  unfold int16
  omega

/-! ## `write` -/

/-- What one call of `write` comes to. -/
inductive WriteResult
  /-- The number of bytes taken, which may be zero. -/
  | accepted (count : ℕ)
  /-- `EAGAIN` or `EWOULDBLOCK`. -/
  | eagain
  | eintr
  /-- Any other error, for which `IsSocketError` holds. -/
  | error
  deriving DecidableEq, Repr

namespace WriteResult

/-- The value `write` returns. -/
def value : WriteResult → ℤ
  | accepted count => count
  | _ => -1

end WriteResult

/-- What a sending function returns, and what `write` has accepted by then. -/
structure SendOutcome where
  returned : ℤ
  accepted : List UInt8
  deriving DecidableEq, Repr

end SliceTransfer
