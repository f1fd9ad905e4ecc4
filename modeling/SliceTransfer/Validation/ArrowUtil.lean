import SliceTransfer.Machine
import SliceTransfer.Lib.Bytes

/-!
# Reading the Arrow file

`ArrowUtil::readDataFromFile` allocates four columns of `total` entries and fills them
with the rows of the record batches in the file, one column after the other for each
batch, from a running offset on.  Arrow is not modelled: a batch is the list of its rows,
and a column of it lists the values in row order.

Nothing compares the offset with `total`.  The rows end up where they belong as long as
the file has no more rows than that (`readDataFromFile_reads_iff`).
-/

namespace SliceTransfer.ArrowUtil

open Bytes

/-! ## Rows and columns -/

/-- A row of the file; the `double` is given by its bits. -/
structure Row where
  s1 : List UInt8
  i1 : Int32
  d1 : UInt64
  s2 : List UInt8
  deriving DecidableEq, Repr

/-- A record batch, as the list of its rows. -/
structure RecordBatch where
  rows : List Row
  deriving DecidableEq, Repr

def RecordBatch.numRows (batch : RecordBatch) : ℕ := batch.rows.length

/-- `GetColumnByName`, as the list of its values. -/
def RecordBatch.column {α : Type} (batch : RecordBatch) (field : Row → α) : List α :=
  batch.rows.map field

/-- `ColValue`. -/
structure ColValue where
  total : ℤ
  stringVal1 : List (List UInt8)
  intVal : List Int32
  doubles : List UInt64
  stringVal2 : List (List UInt8)
  deriving DecidableEq, Repr

/-- How the function ends when it does not return. -/
inductive ReadFault
  /-- `make_unique` throws. -/
  | badArrayNewLength
  /-- A store to an index that is not below `total`. -/
  | outOfBounds (index : ℕ)
  /-- `++j` leaves the range of `int`. -/
  | overflow
  deriving DecidableEq, Repr

/-! ## The loops -/

/-- The loop over one column of a batch, from `j` on: `values` are those not copied yet. -/
def copyLoop {α : Type} (dataOffset : ℕ) : List α → ℕ → List α → Except ReadFault (List α)
  | [], _, column => .ok column
  | value :: values, j, column =>
      if column.length ≤ dataOffset + j then .error (.outOfBounds (dataOffset + j))
      else if intMax ≤ j then .error .overflow
      else copyLoop dataOffset values (j + 1) (column.set (dataOffset + j) value)

/-- The four loops over a batch. -/
def readBatch (batch : RecordBatch) (dataOffset : ℕ) (colValue : ColValue) :
    Except ReadFault ColValue := do
  let stringVal1 ← copyLoop dataOffset (batch.column Row.s1) 0 colValue.stringVal1
  let intVal ← copyLoop dataOffset (batch.column Row.i1) 0 colValue.intVal
  let doubles ← copyLoop dataOffset (batch.column Row.d1) 0 colValue.doubles
  let stringVal2 ← copyLoop dataOffset (batch.column Row.s2) 0 colValue.stringVal2
  pure { colValue with
    stringVal1 := stringVal1, intVal := intVal, doubles := doubles, stringVal2 := stringVal2 }

/-- The loop over the batches. -/
def readBatches : List RecordBatch → ℕ → ColValue → Except ReadFault ColValue
  | [], _, colValue => .ok colValue
  | batch :: batches, dataOffset, colValue => do
      let colValue ← readBatch batch dataOffset colValue
      readBatches batches (dataOffset + batch.numRows) colValue

/-- The columns as `make_unique` leaves them. -/
def emptyColValue (total : ℤ) : ColValue where
  total := total
  stringVal1 := List.replicate total.toNat []
  intVal := List.replicate total.toNat 0
  doubles := List.replicate total.toNat 0
  stringVal2 := List.replicate total.toNat []

/-- `readDataFromFile`, on a file with the given batches. -/
def readDataFromFile (batches : List RecordBatch) (total : ℤ) : Except ReadFault ColValue :=
  if total < 0 then .error .badArrayNewLength else readBatches batches 0 (emptyColValue total)

/-- All rows of the file. -/
def allRows (batches : List RecordBatch) : List Row := batches.flatMap RecordBatch.rows

/-! ## What the loops store -/

/-- The loop ends outside the column or outside the range of `int`. -/
inductive ReadFault.Undefined : ReadFault → Prop
  | outOfBounds (index : ℕ) : Undefined (.outOfBounds index)
  | overflow : Undefined .overflow

section CopyLoop

variable {α : Type} {dataOffset : ℕ}

/-- Values that fit are stored one behind the other. -/
theorem copyLoop_ok {values : List α} {j : ℕ} {column : List α}
    (hroom : dataOffset + j + values.length ≤ column.length) (hint : j + values.length ≤ intMax) :
    copyLoop dataOffset values j column = .ok (overwrite column (dataOffset + j) values) := by
  induction values generalizing j column with
  | nil => rw [copyLoop, overwrite_nil]
  | cons value values ih =>
      rw [List.length_cons] at hroom hint
      have hlength : (column.set (dataOffset + j) value).length = column.length :=
        List.length_set
      have hstore := overwrite_overwrite_append column (dataOffset + j) [value] values
      rw [copyLoop, if_neg (by omega), if_neg (by omega), ih (by omega) (by omega),
        set_eq_overwrite, ← Nat.add_assoc]
      exact congrArg Except.ok hstore

/-- Values that do not fit are undefined behaviour. -/
theorem copyLoop_error {values : List α} {j : ℕ} {column : List α} (hne : values ≠ [])
    (h : column.length < dataOffset + j + values.length ∨ intMax < j + values.length) :
    ∃ fault : ReadFault, fault.Undefined ∧ copyLoop dataOffset values j column = .error fault := by
  induction values generalizing j column with
  | nil => exact absurd rfl hne
  | cons value values ih =>
      rw [List.length_cons] at h
      rw [copyLoop]
      split
      · exact ⟨_, .outOfBounds _, rfl⟩
      · split
        · exact ⟨_, .overflow, rfl⟩
        · have hmore : values ≠ [] := by
            rintro rfl
            rw [List.length_nil] at h
            omega
          apply ih hmore
          rw [List.length_set]
          omega

end CopyLoop

/-- All four columns have `n` entries. -/
structure ColValue.Sized (n : ℕ) (colValue : ColValue) : Prop where
  stringVal1 : colValue.stringVal1.length = n
  intVal : colValue.intVal.length = n
  doubles : colValue.doubles.length = n
  stringVal2 : colValue.stringVal2.length = n

/-- The rows stored from position `pos` on. -/
def ColValue.store (colValue : ColValue) (pos : ℕ) (rows : List Row) : ColValue where
  total := colValue.total
  stringVal1 := overwrite colValue.stringVal1 pos (rows.map Row.s1)
  intVal := overwrite colValue.intVal pos (rows.map Row.i1)
  doubles := overwrite colValue.doubles pos (rows.map Row.d1)
  stringVal2 := overwrite colValue.stringVal2 pos (rows.map Row.s2)

theorem ColValue.Sized.store {n : ℕ} {colValue : ColValue} (h : colValue.Sized n) (pos : ℕ)
    (rows : List Row) : (colValue.store pos rows).Sized n :=
  ⟨(length_overwrite _ _ _).trans h.stringVal1, (length_overwrite _ _ _).trans h.intVal,
    (length_overwrite _ _ _).trans h.doubles, (length_overwrite _ _ _).trans h.stringVal2⟩

theorem ColValue.store_nil (colValue : ColValue) (pos : ℕ) : colValue.store pos [] = colValue := by
  simp only [store, List.map_nil, overwrite_nil]

/-- Two consecutive stores are one store. -/
theorem ColValue.store_store (colValue : ColValue) (pos : ℕ) (rows more : List Row) :
    (colValue.store pos rows).store (pos + rows.length) more =
      colValue.store pos (rows ++ more) := by
  have happend : ∀ {α : Type} (column : List α) (field : Row → α),
      overwrite (overwrite column pos (rows.map field)) (pos + rows.length) (more.map field) =
        overwrite column pos ((rows ++ more).map field) := by
    intro α column field
    have h := overwrite_overwrite_append column pos (rows.map field) (more.map field)
    rwa [List.length_map, ← List.map_append] at h
  simp only [store, happend]

section Batches

variable {n : ℕ}

theorem readBatch_ok {batch : RecordBatch} {dataOffset : ℕ} {colValue : ColValue}
    (hsized : colValue.Sized n) (hroom : dataOffset + batch.numRows ≤ n)
    (hint : batch.numRows ≤ intMax) :
    readBatch batch dataOffset colValue = .ok (colValue.store dataOffset batch.rows) := by
  have hcopy : ∀ {α : Type} (field : Row → α) (column : List α), column.length = n →
      copyLoop dataOffset (batch.column field) 0 column =
        .ok (overwrite column dataOffset (batch.rows.map field)) := by
    intro α field column hlength
    have hnum : (batch.column field).length = batch.numRows := List.length_map _
    exact copyLoop_ok (by omega) (by omega)
  unfold readBatch
  rw [hcopy Row.s1 _ hsized.stringVal1, hcopy Row.i1 _ hsized.intVal,
    hcopy Row.d1 _ hsized.doubles, hcopy Row.s2 _ hsized.stringVal2]
  rfl

theorem readBatch_error {batch : RecordBatch} {dataOffset : ℕ} {colValue : ColValue}
    (hsized : colValue.Sized n) (hle : dataOffset ≤ n)
    (h : n < dataOffset + batch.numRows ∨ intMax < batch.numRows) :
    ∃ fault : ReadFault, fault.Undefined ∧ readBatch batch dataOffset colValue = .error fault := by
  have hnum : (batch.column Row.s1).length = batch.numRows := List.length_map _
  have hlength := hsized.stringVal1
  have hne : batch.column Row.s1 ≠ [] := by
    apply List.ne_nil_of_length_pos
    omega
  have hfirst : ∃ fault : ReadFault, fault.Undefined ∧
      copyLoop dataOffset (batch.column Row.s1) 0 colValue.stringVal1 = .error fault :=
    copyLoop_error hne (by omega)
  obtain ⟨fault, hundefined, hfault⟩ := hfirst
  refine ⟨fault, hundefined, ?_⟩
  unfold readBatch
  rw [hfault]
  rfl

/-- The rows that are left fit into the columns, and `int` can count each batch. -/
structure Fits (n dataOffset : ℕ) (batches : List RecordBatch) : Prop where
  room : dataOffset + (allRows batches).length ≤ n
  counts : ∀ batch ∈ batches, batch.numRows ≤ intMax

theorem allRows_cons (batch : RecordBatch) (batches : List RecordBatch) :
    allRows (batch :: batches) = batch.rows ++ allRows batches := List.flatMap_cons

theorem fits_cons {dataOffset : ℕ} {batch : RecordBatch} {batches : List RecordBatch} :
    Fits n dataOffset (batch :: batches) ↔
      batch.numRows ≤ intMax ∧ Fits n (dataOffset + batch.numRows) batches := by
  have hlength : (allRows (batch :: batches)).length =
      batch.numRows + (allRows batches).length := by
    rw [allRows_cons, List.length_append]
    rfl
  constructor
  · rintro ⟨hroom, hcounts⟩
    exact ⟨hcounts batch List.mem_cons_self, by omega,
      fun other hmem => hcounts other (List.mem_cons_of_mem _ hmem)⟩
  · rintro ⟨hint, hroom, hcounts⟩
    exact ⟨by omega, List.forall_mem_cons.mpr ⟨hint, hcounts⟩⟩

/-- **Batches that fit are stored one behind the other**, by induction on the batches. -/
theorem readBatches_ok {batches : List RecordBatch} {dataOffset : ℕ} {colValue : ColValue}
    (hsized : colValue.Sized n) (hfits : Fits n dataOffset batches) :
    readBatches batches dataOffset colValue =
      .ok (colValue.store dataOffset (allRows batches)) := by
  induction batches generalizing dataOffset colValue with
  | nil =>
      rw [readBatches]
      exact congrArg Except.ok (colValue.store_nil dataOffset).symm
  | cons batch batches ih =>
      obtain ⟨hint, hrest⟩ := fits_cons.mp hfits
      have hroom := hrest.room
      have hbatch := readBatch_ok hsized (show dataOffset + batch.numRows ≤ n by omega) hint
      have hlater := ih (hsized.store dataOffset batch.rows) hrest
      rw [readBatches, hbatch, allRows_cons, ← ColValue.store_store]
      exact hlater

/-- Batches that do not fit are undefined behaviour. -/
theorem readBatches_error {batches : List RecordBatch} {dataOffset : ℕ} {colValue : ColValue}
    (hsized : colValue.Sized n) (hle : dataOffset ≤ n) (hfits : ¬ Fits n dataOffset batches) :
    ∃ fault : ReadFault, fault.Undefined ∧
      readBatches batches dataOffset colValue = .error fault := by
  induction batches generalizing dataOffset colValue with
  | nil => exact absurd ⟨hle, fun batch hmem => by cases hmem⟩ hfits
  | cons batch batches ih =>
      rw [readBatches]
      by_cases hin : dataOffset + batch.numRows ≤ n ∧ batch.numRows ≤ intMax
      · rw [readBatch_ok hsized hin.1 hin.2]
        exact ih (hsized.store dataOffset batch.rows) hin.1 fun hrest =>
          hfits (fits_cons.mpr ⟨hin.2, hrest⟩)
      · obtain ⟨fault, hundefined, hfault⟩ := readBatch_error hsized hle
          (show n < dataOffset + batch.numRows ∨ intMax < batch.numRows by omega)
        exact ⟨fault, hundefined, by rw [hfault]; rfl⟩

end Batches

/-! ## The result -/

/-- Entry `k` of each column is taken from `row`. -/
structure ColValue.Holds (colValue : ColValue) (k : ℕ) (row : Row) : Prop where
  stringVal1 : colValue.stringVal1[k]? = some row.s1
  intVal : colValue.intVal[k]? = some row.i1
  doubles : colValue.doubles[k]? = some row.d1
  stringVal2 : colValue.stringVal2[k]? = some row.s2

/-- The function stays inside its columns and the range of `int`, and the columns it
returns hold the rows of the file. -/
structure ReadsRows (batches : List RecordBatch) (total : ℤ) : Prop where
  inBounds : ∀ index, readDataFromFile batches total ≠ .error (.outOfBounds index)
  noOverflow : readDataFromFile batches total ≠ .error .overflow
  rows : ∀ colValue, readDataFromFile batches total = .ok colValue →
    ∀ (k : ℕ) (row : Row), (k : ℤ) < total → (allRows batches)[k]? = some row →
      colValue.Holds k row

theorem sized_emptyColValue (total : ℤ) : (emptyColValue total).Sized total.toNat :=
  ⟨List.length_replicate, List.length_replicate, List.length_replicate, List.length_replicate⟩

/-- What is stored at the front of the columns is there. -/
theorem holds_store {colValue : ColValue} {n : ℕ} (hsized : colValue.Sized n) {rows : List Row}
    {k : ℕ} {row : Row} (hk : k < n) (hrow : rows[k]? = some row) :
    (colValue.store 0 rows).Holds k row := by
  have hentry : ∀ {α : Type} (column : List α) (field : Row → α), column.length = n →
      (overwrite column 0 (rows.map field))[k]? = some (field row) := by
    intro α column field hlength
    have hin : k < column.length := hlength.symm ▸ hk
    rw [getElem?_overwrite, List.getElem?_eq_getElem hin]
    simp [hrow]
  exact ⟨hentry _ _ hsized.stringVal1, hentry _ _ hsized.intVal, hentry _ _ hsized.doubles,
    hentry _ _ hsized.stringVal2⟩

/-- **The rows of the file are read correctly exactly when the file has no more of them
than `total`, and no batch more than `int` can count.**  A negative `total` is refused. -/
theorem readDataFromFile_reads_iff (batches : List RecordBatch) (total : ℤ) :
    ReadsRows batches total ↔
      total < 0 ∨ ((allRows batches).length ≤ total ∧
        ∀ batch ∈ batches, batch.numRows ≤ intMax) := by
  by_cases hneg : total < 0
  · have hthrows : readDataFromFile batches total = .error .badArrayNewLength := if_pos hneg
    refine iff_of_true ⟨fun index => ?_, ?_, fun colValue hread => ?_⟩ (Or.inl hneg)
    · rw [hthrows]
      exact fun hcontra => by cases hcontra
    · rw [hthrows]
      exact fun hcontra => by cases hcontra
    · rw [hthrows] at hread
      cases hread
  · have hreads : readDataFromFile batches total =
        readBatches batches 0 (emptyColValue total) := if_neg hneg
    have hsized := sized_emptyColValue total
    rw [or_iff_right hneg]
    constructor
    · intro reads
      by_contra hnot
      have hfits : ¬ Fits total.toNat 0 batches := fun hfits =>
        hnot ⟨by have := hfits.room; omega, hfits.counts⟩
      obtain ⟨fault, hundefined, hfault⟩ := readBatches_error hsized (Nat.zero_le _) hfits
      rw [← hreads] at hfault
      cases hundefined with
      | outOfBounds index => exact reads.inBounds index hfault
      | overflow => exact reads.noOverflow hfault
    · rintro ⟨hroom, hcounts⟩
      have hfits : Fits total.toNat 0 batches := ⟨by omega, hcounts⟩
      have hok := readBatches_ok hsized hfits
      rw [← hreads] at hok
      refine ⟨fun index => ?_, ?_, fun colValue hread k row hk hrow => ?_⟩
      · rw [hok]
        exact fun hcontra => by cases hcontra
      · rw [hok]
        exact fun hcontra => by cases hcontra
      · rw [hok] at hread
        cases hread
        exact holds_store hsized (by omega) hrow

/-- A batch of two rows for a `total` of one: the second row is stored behind the column. -/
theorem readDataFromFile_outOfBounds :
    readDataFromFile [⟨[⟨[97], 1, 0, [98]⟩, ⟨[99], 2, 0, [100]⟩]⟩] 1 = .error (.outOfBounds 1) ∧
      ¬ ReadsRows [⟨[⟨[97], 1, 0, [98]⟩, ⟨[99], 2, 0, [100]⟩]⟩] 1 := by
  have hfault : readDataFromFile [⟨[⟨[97], 1, 0, [98]⟩, ⟨[99], 2, 0, [100]⟩]⟩] 1 =
      .error (.outOfBounds 1) := by
    decide
  exact ⟨hfault, fun reads => reads.inBounds 1 hfault⟩

end SliceTransfer.ArrowUtil
