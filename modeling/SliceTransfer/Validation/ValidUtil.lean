import SliceTransfer.Machine
import Mathlib.Algebra.BigOperators.Ring.Finset

/-!
# The sampled sums of the validation

`ValidUtil::ValidIntArray` and `ValidUtil::ValidStringArray` run the same loop, `sampleLoop`:
from index zero on in steps of 100000, with an `int` for the index and an `int` for the
sum.  They differ in what is added.  The sum of the ints is an `int` throughout, the
lengths of the strings are added in `size_t` and converted back.

The loop visits the multiples of the step in order (`sampleLoop_eq_ok_iff`).  Two things
can go wrong, and nothing else: behind the last sample the index may leave the range of
`int`, and the sum may (`samples_iff`).
-/

namespace SliceTransfer.ValidUtil

/-- `STEP`. -/
def step : ℕ := 100000

/-! ## The loops -/

/-- What the loop has come to: the indices it visited, `sum` and `count`. -/
structure Sampled where
  visited : List ℕ := []
  sum : ℤ := 0
  count : ℕ := 0
  deriving DecidableEq, Repr

/-- Why the loop does not end normally. -/
inductive SampleFault
  | indexOverflow
  | sumOverflow
  | outOfBounds
  | unfinished
  deriving DecidableEq, Repr

/-- A value in the range of `int`. -/
def FitsInt (x : ℤ) : Prop := -(intMax + 1) ≤ x ∧ x ≤ intMax

instance (x : ℤ) : Decidable (FitsInt x) :=
  inferInstanceAs (Decidable (-((intMax : ℤ) + 1) ≤ x ∧ x ≤ intMax))

/-- `sum += ints[i]`. -/
def addInt (sum : ℤ) (value : Int32) : Except SampleFault ℤ :=
  if FitsInt (sum + value.toInt) then .ok (sum + value.toInt) else .error .sumOverflow

/-- `sum += strings[i].length()`. -/
def addLength (sum : ℤ) (string : List UInt8) : Except SampleFault ℤ :=
  .ok (int32 ((sizeT sum + string.length) % 2 ^ 64 : ℕ))

section Loop

variable {α : Type} (add : ℤ → α → Except SampleFault ℤ)

/-- The loop from index `i` on, observed for `fuel` evaluations of its condition. -/
def sampleLoop (array : List α) (total : ℤ) : ℕ → ℕ → Sampled → Except SampleFault Sampled
  | 0, _, _ => .error .unfinished
  | fuel + 1, i, s =>
      if i < total then
        match array[i]? with
        | none => .error .outOfBounds
        | some value =>
            match add s.sum value with
            | .error fault => .error fault
            | .ok sum =>
                if intMax < i + step then .error .indexOverflow
                else sampleLoop array total fuel (i + step) ⟨s.visited ++ [i], sum, s.count + 1⟩
      else .ok s

end Loop

/-- The loop of `ValidIntArray`. -/
def validIntArray (fuel : ℕ) (ints : List Int32) (total : ℤ) : Except SampleFault Sampled :=
  sampleLoop addInt ints total fuel 0 {}

/-- The loop of `ValidStringArray`. -/
def validStringArray (fuel : ℕ) (strings : List (List UInt8)) (total : ℤ) :
    Except SampleFault Sampled :=
  sampleLoop addLength strings total fuel 0 {}

/-! ## Which entries are sampled -/

/-- `⌈total / STEP⌉`. -/
def sampleCount (total : ℕ) : ℕ := (total + (step - 1)) / step

/-- The multiples of `STEP` below `total`. -/
def sampleIndices (total : ℕ) : List ℕ := (List.range (sampleCount total)).map (· * step)

/-- The entries at these indices. -/
def samples {α : Type} (array : List α) : List α :=
  (sampleIndices array.length).filterMap fun i => array[i]?

theorem mul_step_lt_iff {k total : ℕ} : k * step < total ↔ k < sampleCount total := by
  unfold sampleCount step
  omega

/-- The indices are what they are called. -/
theorem mem_sampleIndices {i total : ℕ} : i ∈ sampleIndices total ↔ step ∣ i ∧ i < total := by
  rw [sampleIndices, List.mem_map]
  constructor
  · rintro ⟨k, hk, rfl⟩
    exact ⟨Nat.dvd_mul_left step k, mul_step_lt_iff.mpr (List.mem_range.mp hk)⟩
  · rintro ⟨⟨k, rfl⟩, hlt⟩
    rw [Nat.mul_comm] at hlt
    exact ⟨k, List.mem_range.mpr (mul_step_lt_iff.mp hlt), Nat.mul_comm k step⟩

/-- The samples from the `k`-th on. -/
def samplesFrom {α : Type} (array : List α) (k : ℕ) : List α :=
  (List.range' k (sampleCount array.length - k)).filterMap fun j => array[j * step]?

theorem samplesFrom_zero {α : Type} (array : List α) : samplesFrom array 0 = samples array := by
  rw [samplesFrom, samples, sampleIndices, List.filterMap_map, Nat.sub_zero, List.range_eq_range']
  rfl

theorem samplesFrom_of_lt {α : Type} {array : List α} {k : ℕ} (hk : k < sampleCount array.length) :
    ∃ value, array[k * step]? = some value ∧
      samplesFrom array k = value :: samplesFrom array (k + 1) := by
  have hin := mul_step_lt_iff.mpr hk
  have hcons : sampleCount array.length - k = sampleCount array.length - (k + 1) + 1 := by omega
  refine ⟨array[k * step], List.getElem?_eq_getElem hin, ?_⟩
  rw [samplesFrom, hcons, List.range'_succ, List.filterMap_cons, List.getElem?_eq_getElem hin]
  rfl

theorem samplesFrom_count {α : Type} (array : List α) :
    samplesFrom array (sampleCount array.length) = [] := by
  rw [samplesFrom, Nat.sub_self]
  rfl

/-! ## What the loop comes to -/

section Loop

variable {α : Type} {add : ℤ → α → Except SampleFault ℤ} {array : List α}

/-- One sample in front of the others. -/
theorem foldlM_cons_of_ok {values : List α} {value : α} {sum sum' : ℤ}
    (hadd : add sum value = .ok sum') :
    (value :: values).foldlM add sum = values.foldlM add sum' := by
  rw [List.foldlM_cons, hadd]
  rfl

/-- The loop in front of the `k`-th sample. -/
theorem sampleLoop_of_lt {fuel k : ℕ} {s : Sampled} {value : α}
    (hk : k < sampleCount array.length) (hvalue : array[k * step]? = some value) :
    sampleLoop add array array.length (fuel + 1) (k * step) s =
      match add s.sum value with
      | .error fault => .error fault
      | .ok sum =>
          if intMax < (k + 1) * step then .error .indexOverflow
          else sampleLoop add array array.length fuel ((k + 1) * step)
            ⟨s.visited ++ [k * step], sum, s.count + 1⟩ := by
  have hin : ((k * step : ℕ) : ℤ) < array.length := Int.ofNat_lt.mpr (mul_step_lt_iff.mpr hk)
  rw [sampleLoop, if_pos hin, hvalue, Nat.add_one_mul]

/-- The loop behind the last sample. -/
theorem sampleLoop_count {fuel : ℕ} {s : Sampled} :
    sampleLoop add array array.length (fuel + 1) (sampleCount array.length * step) s = .ok s := by
  have hout : ¬ ((sampleCount array.length * step : ℕ) : ℤ) < array.length := by
    intro hlt
    exact lt_irrefl _ (mul_step_lt_iff.mp (Int.ofNat_lt.mp hlt))
  rw [sampleLoop, if_neg hout]

/-- Behind a sample whose next index is in range, the last index decides as before. -/
theorem last_index_iff {k count : ℕ} (hlt : k < count) (hnext : (k + 1) * step ≤ intMax) :
    (k + 1 < count → count * step ≤ intMax) ↔ (k < count → count * step ≤ intMax) := by
  constructor
  · intro hlast _
    rcases (Nat.succ_le_of_lt hlt).lt_or_eq with hmore | rfl
    · exact hlast hmore
    · exact hnext
  · intro hlast _
    exact hlast hlt

/-- **The loop from the `k`-th sample on**: it ends normally exactly when the sum of the
samples does and the index behind the last one is in range, and it has then visited them
in order. -/
theorem sampleLoop_eq_ok_iff {fuel k : ℕ} {s s' : Sampled} (hk : k ≤ sampleCount array.length)
    (hfuel : sampleCount array.length - k < fuel) :
    sampleLoop add array array.length fuel (k * step) s = .ok s' ↔
      (samplesFrom array k).foldlM add s.sum = .ok s'.sum ∧
      (k < sampleCount array.length → sampleCount array.length * step ≤ intMax) ∧
      s'.visited = s.visited ++
        (List.range' k (sampleCount array.length - k)).map (· * step) ∧
      s'.count = s.count + (sampleCount array.length - k) := by
  induction fuel generalizing k s with
  | zero => omega
  | succ fuel ih =>
      rcases hk.lt_or_eq with hlt | rfl
      · obtain ⟨value, hvalue, hsamples⟩ := samplesFrom_of_lt hlt
        have hcons : sampleCount array.length - k = sampleCount array.length - (k + 1) + 1 := by
          omega
        rw [sampleLoop_of_lt hlt hvalue, hsamples]
        cases hadd : add s.sum value with
        | error fault =>
            rw [List.foldlM_cons, hadd]
            refine iff_of_false (fun hcontra => by cases hcontra) fun hcontra => ?_
            cases hcontra.1
        | ok sum =>
            rw [foldlM_cons_of_ok hadd]
            have hnext : (k + 1) * step ≤ sampleCount array.length * step :=
              Nat.mul_le_mul_right step hlt
            by_cases hover : intMax < (k + 1) * step
            · simp only [if_pos hover]
              refine iff_of_false (fun hcontra => by cases hcontra) fun hcontra => ?_
              have := hcontra.2.1 hlt
              omega
            · simp only [if_neg hover]
              rw [ih hlt (by omega), hcons, List.range'_succ, List.map_cons, List.append_assoc]
              refine and_congr Iff.rfl (and_congr (last_index_iff hlt (Nat.le_of_not_lt hover))
                (and_congr Iff.rfl ?_))
              rw [Nat.add_assoc, Nat.add_comm 1]
      · rw [samplesFrom_count, sampleLoop_count, Nat.sub_self, List.range'_zero, List.map_nil,
          List.append_nil, Nat.add_zero]
        constructor
        · intro hend
          cases hend
          exact ⟨rfl, fun hcontra => absurd hcontra (lt_irrefl _), rfl, rfl⟩
        · rintro ⟨hsum, -, hvisited, hcount⟩
          cases s
          cases s'
          cases hsum
          cases hvisited
          cases hcount
          rfl

end Loop

/-! ## The sums -/

/-- Every sum on the way is an `int`. -/
def PartialSumsFit (values : List Int32) : Prop :=
  ∀ k, FitsInt ((values.take k).map Int32.toInt).sum

/-- Adding ints ends normally exactly when every sum on the way is an `int`. -/
theorem foldlM_addInt_eq_ok_iff {values : List Int32} {sum sum' : ℤ} (hsum : FitsInt sum) :
    values.foldlM addInt sum = .ok sum' ↔
      sum' = sum + (values.map Int32.toInt).sum ∧
        ∀ k, FitsInt (sum + ((values.take k).map Int32.toInt).sum) := by
  induction values generalizing sum with
  | nil =>
      simp only [List.foldlM_nil, List.map_nil, List.take_nil, List.sum_nil, add_zero]
      constructor
      · intro heq
        cases heq
        exact ⟨rfl, fun _ => hsum⟩
      · rintro ⟨rfl, -⟩
        rfl
  | cons value values ih =>
      rw [List.foldlM_cons, addInt]
      by_cases hfits : FitsInt (sum + value.toInt)
      · rw [if_pos hfits, List.map_cons, List.sum_cons, ← add_assoc]
        refine (ih hfits).trans (and_congr Iff.rfl ⟨fun hlater k => ?_, fun hall k => ?_⟩)
        · cases k with
          | zero => simpa using hsum
          | succ k =>
              rw [List.take_succ_cons, List.map_cons, List.sum_cons, ← add_assoc]
              exact hlater k
        · have hk := hall (k + 1)
          rwa [List.take_succ_cons, List.map_cons, List.sum_cons, ← add_assoc] at hk
      · rw [if_neg hfits]
        refine iff_of_false (fun hcontra => by cases hcontra) fun hcontra => hfits ?_
        have hone := hcontra.2 1
        simpa using hone

/-- Adding lengths reduces the sum to the range of `int`. -/
theorem foldlM_addLength (strings : List (List UInt8)) (sum : ℤ) :
    strings.foldlM addLength (int32 sum) =
      .ok (int32 (sum + (strings.map List.length).sum)) := by
  induction strings generalizing sum with
  | nil =>
      rw [List.map_nil, List.sum_nil, Nat.cast_zero, add_zero]
      rfl
  | cons string strings ih =>
      have hadd : addLength (int32 sum) string = .ok (int32 (sum + string.length)) := by
        have hwrap : int32 ((sizeT (int32 sum) + string.length) % 2 ^ 64 : ℕ) =
            int32 (sum + string.length) := by
          unfold int32 sizeT
          omega
        rw [addLength, hwrap]
      rw [foldlM_cons_of_ok hadd, List.map_cons, List.sum_cons, Nat.cast_add, ← add_assoc]
      exact ih (sum + string.length)

/-- Sums that are not negative end in the range of `int` when they are in it. -/
theorem int32_natCast_eq_iff {n : ℕ} : int32 n = n ↔ n ≤ intMax := by
  unfold int32 intMax
  omega

/-! ## The result -/

/-- The largest total behind whose last sample the index is an `int`: 2147400000. -/
def maxTotal : ℕ := intMax / step * step

theorem sampleCount_mul_step_le_iff {total : ℕ} :
    (0 < sampleCount total → sampleCount total * step ≤ intMax) ↔ total ≤ maxTotal := by
  unfold sampleCount maxTotal step intMax
  omega

/-- The loop over `array` ends normally: it visited what it should, in order, counted it and
summed it up. -/
def SampledExactly {α : Type} (value : α → ℤ) (array : List α)
    (loop : ℕ → Except SampleFault Sampled) : Prop :=
  ∃ n, ∀ fuel, n ≤ fuel → loop fuel =
    .ok ⟨sampleIndices array.length, ((samples array).map value).sum, sampleCount array.length⟩

/-- **What the whole loop comes to**, for either way of adding. -/
theorem sampledExactly_iff {α : Type} {add : ℤ → α → Except SampleFault ℤ} {value : α → ℤ}
    {array : List α} :
    SampledExactly value array (fun fuel => sampleLoop add array array.length fuel 0 {}) ↔
      array.length ≤ maxTotal ∧
        (samples array).foldlM add 0 = .ok ((samples array).map value).sum := by
  have hends : ∀ fuel, sampleCount array.length < fuel →
      (sampleLoop add array array.length fuel 0 {} = .ok ⟨sampleIndices array.length,
          ((samples array).map value).sum, sampleCount array.length⟩ ↔
        array.length ≤ maxTotal ∧
          (samples array).foldlM add 0 = .ok ((samples array).map value).sum) := by
    intro fuel hfuel
    refine (sampleLoop_eq_ok_iff (Nat.zero_le (sampleCount array.length)) hfuel).trans ?_
    rw [samplesFrom_zero, sampleCount_mul_step_le_iff, and_left_comm]
    refine and_congr Iff.rfl (and_iff_left ⟨?_, ?_⟩)
    · rw [sampleIndices, List.range_eq_range', Nat.sub_zero, List.nil_append]
    · rw [Nat.sub_zero, Nat.zero_add]
  constructor
  · rintro ⟨n, hn⟩
    have hfuel : sampleCount array.length < n + (sampleCount array.length + 1) := by omega
    exact (hends _ hfuel).mp (hn _ (Nat.le_add_right _ _))
  · intro hcond
    exact ⟨sampleCount array.length + 1, fun fuel hfuel => (hends fuel hfuel).mpr hcond⟩

/-- `ValidIntArray`: every sum on the way is to be an `int`. -/
theorem validIntArray_exact_iff (ints : List Int32) :
    SampledExactly Int32.toInt ints (fun fuel => validIntArray fuel ints ints.length) ↔
      ints.length ≤ maxTotal ∧ PartialSumsFit (samples ints) := by
  have hzero : FitsInt 0 := by decide
  refine sampledExactly_iff.trans (and_congr Iff.rfl ?_)
  rw [foldlM_addInt_eq_ok_iff hzero, zero_add]
  refine (and_iff_right rfl).trans (forall_congr' fun k => ?_)
  rw [zero_add]

/-- `ValidStringArray`: the last sum is to be an `int`. -/
theorem validStringArray_exact_iff (strings : List (List UInt8)) :
    SampledExactly (fun string => string.length) strings
        (fun fuel => validStringArray fuel strings strings.length) ↔
      strings.length ≤ maxTotal ∧ ((samples strings).map List.length).sum ≤ intMax := by
  refine sampledExactly_iff.trans (and_congr Iff.rfl ?_)
  have hfold := foldlM_addLength (samples strings) 0
  have hsum : ((samples strings).map fun string => (string.length : ℤ)).sum =
      (((samples strings).map List.length).sum : ℕ) := by
    rw [Nat.cast_list_sum, List.map_map]
    rfl
  have hzero : int32 0 = 0 := rfl
  rw [hzero, zero_add] at hfold
  rw [hfold, hsum, ← int32_natCast_eq_iff]
  exact ⟨Except.ok.inj, congrArg Except.ok⟩

/-- **The sampled sums are exact exactly when the index and the sums stay in the range of
`int`**: for the index, when the total is at most `maxTotal`. -/
theorem samples_iff (ints : List Int32) (strings : List (List UInt8)) :
    (SampledExactly Int32.toInt ints (fun fuel => validIntArray fuel ints ints.length) ↔
      ints.length ≤ maxTotal ∧ PartialSumsFit (samples ints)) ∧
    (SampledExactly (fun string => string.length) strings
        (fun fuel => validStringArray fuel strings strings.length) ↔
      strings.length ≤ maxTotal ∧ ((samples strings).map List.length).sum ≤ intMax) :=
  ⟨validIntArray_exact_iff ints, validStringArray_exact_iff strings⟩

/-- The samples of an array that holds one value throughout. -/
theorem samples_replicate {α : Type} (n : ℕ) (value : α) :
    samples (List.replicate n value) = List.replicate (sampleCount n) value := by
  have hsome : ∀ i ∈ sampleIndices n, (List.replicate n value)[i]? = some value := by
    intro i hi
    exact List.getElem?_replicate_of_lt (mem_sampleIndices.mp hi).2
  rw [samples, List.length_replicate, List.filterMap_congr hsome, sampleIndices,
    List.filterMap_map]
  calc (List.range (sampleCount n)).filterMap (some ∘ fun _ => value)
      = (List.range (sampleCount n)).map fun _ => value := congrFun List.filterMap_eq_map _
    _ = List.replicate (sampleCount n) value := by rw [List.map_const', List.length_range]

/-- Two billion zeros and more: the index leaves the range of `int` behind the last sample.
Two of the largest ints, sampled one after the other, do not fit into the sum. -/
theorem samples_overflow :
    ¬ SampledExactly Int32.toInt (List.replicate 2147400001 0)
        (fun fuel => validIntArray fuel (List.replicate 2147400001 0) 2147400001) ∧
    ¬ SampledExactly Int32.toInt (List.replicate 100001 2147483647)
        (fun fuel => validIntArray fuel (List.replicate 100001 2147483647) 100001) := by
  have hzeros := validIntArray_exact_iff (List.replicate 2147400001 0)
  have hlarge := validIntArray_exact_iff (List.replicate 100001 2147483647)
  rw [List.length_replicate] at hzeros hlarge
  constructor
  · intro hexact
    have hle := (hzeros.mp hexact).1
    revert hle
    decide
  · intro hexact
    have hfits := (hlarge.mp hexact).2 2
    rw [samples_replicate] at hfits
    revert hfits
    decide

end SliceTransfer.ValidUtil
