import SliceTransfer.Machine
import SliceTransfer.Lib.Bytes
import SliceTransfer.Lib.Decimal
import Mathlib.Data.List.TakeWhile

/-!
# The receiver's globals and the file header

`Globals` holds the static members of `Server` that `Recv` reads and writes.
The file header branch of `Recv` fills them one assignment after the other:
`HeaderStage` names these assignments, `HeaderStage.apply` performs one of them,
`storeHeader` all of them in order.  An exception or a trap in the middle leaves
the globals as the assignments before it made them.
-/

namespace SliceTransfer.Server

open Decimal

/-! ## Constants -/

/-- `kFileSliceHeaderLen`. -/
def kFileSliceHeaderLen : ℕ := 16

/-- `kEachSliceHeaderLen`. -/
def kEachSliceHeaderLen : ℕ := 10

/-- The two values the header branch gives `reads_max_bytes_`. -/
def smallReads : ℕ := 128 * 1024

def largeReads : ℕ := 6 * 1024 * 1024

/-! ## The globals -/

/-- `FileSliceInfo`.  The field `buf` is the offset of `buf_` from `start_`, `none`
when `start_` was still null, and `cBuf` the bytes stored at `c_buf_` so far. -/
structure FileSliceInfo where
  index : ℕ
  cLen : ℕ
  recvLen : ℕ
  len : ℕ
  offset : ℕ
  buf : Option ℕ
  cBuf : List UInt8
  deriving DecidableEq, Repr

/-- The static members of `Server`.  `start` is the mapped output file, `none`
while `start_` is the null pointer. -/
structure Globals where
  splitLen : ℕ := 0
  fileSize : ℕ := 0
  slicesNum : ℕ := 0
  readsMaxBytes : ℕ := 0
  start : Option (List UInt8) := none
  mmap : ℕ → Option FileSliceInfo := fun _ => none

/-- The globals before anything has been received. -/
def Globals.initial : Globals := {}

/-- `MMapWriter::MMapOutputArrowFile`: a fresh file of the given size. -/
def mmapOutputArrowFile (fileSize : ℕ) : List UInt8 := List.replicate fileSize 0

/-! ## Parsing numbers -/

inductive StdException
  | invalidArgument
  | outOfRange
  deriving DecidableEq, Repr

/-- How a `Recv` task ends. -/
inductive Exit
  | returned (result : ℤ)
  | threw (exception : StdException)
  | faulted (fault : Fault)
  deriving DecidableEq, Repr

/-- `isspace` in the classic locale. -/
def isSpace (byte : UInt8) : Bool := byte = 32 || (9 ≤ byte.toNat && byte.toNat ≤ 13)

/-- `std::stoul`: blanks, an optional sign, then as many digits as there are. -/
def stoul (text : List UInt8) : Except StdException ℕ :=
  let text := text.dropWhile isSpace
  let negative := text.head? = some 45
  let text := if negative ∨ text.head? = some 43 then text.tail else text
  let digits := text.takeWhile fun byte => decide (IsDigit byte)
  if digits = [] then .error .invalidArgument
  else if 2 ^ 64 ≤ decimalValue digits then .error .outOfRange
  else .ok (if negative then sizeT (-(decimalValue digits : ℤ)) else decimalValue digits)

/-! ## The header branch -/

/-- The test for `'S'`, the search for `'#'` and the two `substr` calls; `none`
when the text is refused. -/
def headerParts (text : List UInt8) : Option (List UInt8 × List UInt8) :=
  if text.head? = some 83 then
    let pos := text.findIdx fun byte => byte = 35
    if pos = text.length then none else some ((text.drop 1).take (pos - 1), text.drop (pos + 1))
  else none

/-- The assignments of the header branch, in the order of the source. -/
inductive HeaderStage
  | fileSize
  | slicesNum
  | splitLen
  | readsMaxBytes
  | start
  deriving DecidableEq, Repr

def headerStages : List HeaderStage := [.fileSize, .slicesNum, .splitLen, .readsMaxBytes, .start]

/-- The value `reads_max_bytes_` is given once the split length is known. -/
def readsMaxBytesFor (splitLen : ℕ) : ℕ := if largeReads ≤ splitLen then largeReads else smallReads

/-- One assignment of the header branch. -/
def HeaderStage.apply (sizeText numText : List UInt8) (g : Globals) :
    HeaderStage → Except Exit Globals
  | .fileSize =>
      match stoul sizeText with
      | .error e => .error (.threw e)
      | .ok value => .ok { g with fileSize := value }
  | .slicesNum =>
      match stoul numText with
      | .error e => .error (.threw e)
      | .ok value => .ok { g with slicesNum := uint32 value }
  | .splitLen =>
      if g.slicesNum = 0 then .error (.faulted .divideByZero)
      else .ok { g with splitLen := g.fileSize / g.slicesNum }
  | .readsMaxBytes => .ok { g with readsMaxBytes := readsMaxBytesFor g.splitLen }
  | .start => .ok { g with start := some (mmapOutputArrowFile g.fileSize) }

/-- The assignments in order, up to the first one that does not go through. -/
def storeHeader (sizeText numText : List UInt8) : List HeaderStage → Globals → Globals × Exit
  | [], g => (g, .returned 0)
  | stage :: rest, g =>
      match stage.apply sizeText numText g with
      | .error e => (g, e)
      | .ok g' => storeHeader sizeText numText rest g'

/-- The whole header branch on the text that was read. -/
def processHeader (text : List UInt8) (g : Globals) : Globals × Exit :=
  match headerParts text with
  | none => (g, .returned (-1))
  | some (sizeText, numText) => storeHeader sizeText numText headerStages g

/-- The globals once the header `(fileSize, slicesNum)` has been recorded. -/
def recordHeader (fileSize slicesNum : ℕ) (g : Globals) : Globals :=
  { g with
    fileSize := fileSize
    slicesNum := slicesNum
    splitLen := fileSize / slicesNum
    readsMaxBytes := readsMaxBytesFor (fileSize / slicesNum)
    start := some (mmapOutputArrowFile fileSize) }

/-- Where a slice goes in the output file: `index * split_len_`, as an offset
from `start_`. -/
def bufOffset (g : Globals) (index : ℕ) : ℕ := index * g.splitLen % 2 ^ 64

theorem storeHeader_of_stoul {sizeText numText : List UInt8} {fileSize value : ℕ} (g : Globals)
    (hsize : stoul sizeText = .ok fileSize) (hnum : stoul numText = .ok value)
    (hpos : uint32 value ≠ 0) :
    storeHeader sizeText numText headerStages g =
      (recordHeader fileSize (uint32 value) g, .returned 0) := by
  simp [storeHeader, headerStages, HeaderStage.apply, hsize, hnum, hpos, recordHeader]

/-- No assignment of the header branch makes `Recv` return. -/
theorem HeaderStage.apply_ne_returned {stage : HeaderStage} {sizeText numText : List UInt8}
    {g : Globals} {exit : Exit} (h : stage.apply sizeText numText g = .error exit) (result : ℤ) :
    exit ≠ .returned result := by
  rintro rfl
  cases stage with
  | fileSize =>
      rw [HeaderStage.apply] at h
      cases hsize : stoul sizeText <;> rw [hsize] at h <;> cases h
  | slicesNum =>
      rw [HeaderStage.apply] at h
      cases hnum : stoul numText <;> rw [hnum] at h <;> cases h
  | splitLen =>
      rw [HeaderStage.apply] at h
      split at h <;> cases h
  | readsMaxBytes => cases h
  | start => cases h

theorem readsMaxBytesFor_cases (splitLen : ℕ) :
    readsMaxBytesFor splitLen = smallReads ∨ readsMaxBytesFor splitLen = largeReads := by
  unfold readsMaxBytesFor
  split
  · exact Or.inr rfl
  · exact Or.inl rfl

theorem kEachSliceHeaderLen_lt_readsMaxBytesFor (splitLen : ℕ) :
    kEachSliceHeaderLen < readsMaxBytesFor splitLen := by
  rcases readsMaxBytesFor_cases splitLen with h | h <;> rw [h] <;> decide

theorem readsMaxBytesFor_lt (splitLen : ℕ) : readsMaxBytesFor splitLen < 2 ^ 64 := by
  rcases readsMaxBytesFor_cases splitLen with h | h <;> rw [h] <;> decide

/-- The header `(fileSize, slicesNum)` has been recorded, possibly a while ago. -/
structure Globals.Recorded (fileSize slicesNum : ℕ) (g : Globals) : Prop where
  fileSize_eq : g.fileSize = fileSize
  slicesNum_eq : g.slicesNum = slicesNum
  splitLen_eq : g.splitLen = fileSize / slicesNum
  readsMaxBytes_eq : g.readsMaxBytes = readsMaxBytesFor (fileSize / slicesNum)
  start_eq : ∃ file, g.start = some file ∧ file.length = fileSize

theorem recorded_recordHeader (fileSize slicesNum : ℕ) (g : Globals) :
    (recordHeader fileSize slicesNum g).Recorded fileSize slicesNum :=
  ⟨rfl, rfl, rfl, rfl, _, rfl, List.length_replicate⟩

theorem Globals.Recorded.readsMaxBytes_lt {fileSize slicesNum : ℕ} {g : Globals}
    (h : g.Recorded fileSize slicesNum) : g.readsMaxBytes < 2 ^ 64 :=
  h.readsMaxBytes_eq ▸ readsMaxBytesFor_lt _

/-! ## Texts of decimal numbers -/

theorem stoul_of_digits {text : List UInt8} (hne : text ≠ [])
    (hdigits : ∀ byte ∈ text, IsDigit byte) (hlt : decimalValue text < 2 ^ 64) :
    stoul text = .ok (decimalValue text) := by
  obtain ⟨byte, rest, rfl⟩ := List.exists_cons_of_ne_nil hne
  have hbyte : IsDigit byte := hdigits byte (List.mem_cons_self ..)
  have hspace : isSpace byte = false := by
    rw [isSpace, Bool.or_eq_false_iff, Bool.and_eq_false_iff]
    refine ⟨decide_eq_false ?_, Or.inr (decide_eq_false ?_)⟩
    · rintro rfl
      exact absurd hbyte (by decide)
    · have := hbyte.1
      omega
  have hdrop : (byte :: rest).dropWhile isSpace = byte :: rest := by
    rw [List.dropWhile_cons_of_neg (by simp [hspace])]
  have hminus : byte ≠ 45 := by
    rintro rfl
    exact absurd hbyte (by decide)
  have hplus : byte ≠ 43 := by
    rintro rfl
    exact absurd hbyte (by decide)
  have htake : (byte :: rest).takeWhile (fun b => decide (IsDigit b)) = byte :: rest :=
    List.takeWhile_eq_self_iff.mpr fun b hb => decide_eq_true (hdigits b hb)
  unfold stoul
  simp only [hdrop, List.head?_cons, Option.some.injEq, hminus, hplus, or_self, if_false, htake]
  rw [if_neg (by simp), if_neg (by omega)]

theorem stoul_nil : stoul [] = .error .invalidArgument := rfl

theorem stoul_decimal {n : ℕ} (hn : n < 2 ^ 64) : stoul (decimal n) = .ok n := by
  have h := stoul_of_digits (decimal_ne_nil n) (fun _ hmem => isDigit_of_mem_decimal hmem)
    (by rwa [decimalValue_decimal])
  rwa [decimalValue_decimal] at h

end SliceTransfer.Server
