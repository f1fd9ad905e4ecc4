import SliceTransfer.Report
import SliceTransfer.Lib.Memory

/-!
# The loops that write the report

`Server::Supervise` writes its report in two loops: the end marker, then the result of the
validation.  Both add what `write` returns to `wr_index`, the -1 of a failure included.
From then on the index no longer tells what was accepted.  The first loop compares it as
an `int` and goes on, from before the front of the message if need be; the second compares
it as a `size_t`, so that -1 ends the loop.

Without a failing `write` the loops keep their place, and the first failure loses it
(`report_kept_iff`).
-/

namespace SliceTransfer.Server

open Bytes SendingFlow

/-! ## The two loops -/

/-- `"E\0"s`, a string of two bytes. -/
def endStr : List UInt8 := [markerByte, 0]

inductive ReportPhase
  | endStr
  | validRes
  | done
  deriving DecidableEq, Repr

/-- The loop that is running, its index, and what `write` has accepted in each loop. -/
structure ReportState where
  phase : ReportPhase := .endStr
  wrIndex : ℤ := 0
  endAccepted : List UInt8 := []
  resAccepted : List UInt8 := []
  deriving DecidableEq, Repr

/-- The count that is passed to `write`. -/
def countPassed (message : List UInt8) (wrIndex : ℤ) : ℕ := sizeT (message.length - wrIndex)

/-- The body of either loop: the index and the accepted bytes after one `write`, which
takes no more than it was given. -/
def writeOnce (stray : ℤ → UInt8) (message : List UInt8) (wrIndex : ℤ) (accepted : List UInt8)
    (result : WriteResult) : Option (ℤ × List UInt8) :=
  if (countPassed message wrIndex : ℤ) < result.value then none
  else some (int32 (wrIndex + int32 result.value),
    accepted ++ load (placed message stray) wrIndex result.value.toNat)

/-- One iteration; `validRes` is the result of the validation. -/
def reportStep (stray : ℤ → UInt8) (validRes : List UInt8) (s : ReportState)
    (result : WriteResult) : Option ReportState :=
  match s.phase with
  | .endStr =>
      (writeOnce stray endStr s.wrIndex s.endAccepted result).map fun (wrIndex, accepted) =>
        if wrIndex < 2 then { s with wrIndex := wrIndex, endAccepted := accepted }
        else { s with phase := .validRes, wrIndex := 0, endAccepted := accepted }
  | .validRes =>
      (writeOnce stray validRes s.wrIndex s.resAccepted result).map fun (wrIndex, accepted) =>
        -- the `int` is converted to the type of `size()`
        if sizeT wrIndex < validRes.length then
          { s with wrIndex := wrIndex, resAccepted := accepted }
        else { s with phase := .done, wrIndex := wrIndex, resAccepted := accepted }
  | .done => none

/-- The write loops of `Server::Supervise`, one `write` a step. -/
def reportSystem (stray : ℤ → UInt8) (validRes : List UInt8) :
    TransitionSystem ReportState WriteResult where
  init := {}
  step := reportStep stray validRes

/-! ## Keeping the place -/

/-- A loop knows where it is in its message. -/
structure InPlace (message : List UInt8) (wrIndex : ℤ) (accepted : List UInt8) : Prop where
  nonneg : 0 ≤ wrIndex
  le : wrIndex ≤ message.length
  count_eq : countPassed message wrIndex = message.length - accepted.length
  accepted_eq : accepted = message.take wrIndex.toNat

/-- Each loop is in place, and has been left with the whole message accepted.  Behind the second
loop `wr_index` is still asked to be in place: for an empty validation string the one
`write` of that loop may fail with nothing lost, but it leaves `wr_index` at -1. -/
def Kept (validRes : List UInt8) (s : ReportState) : Prop :=
  match s.phase with
  | .endStr => s.resAccepted = [] ∧ InPlace endStr s.wrIndex s.endAccepted
  | .validRes => s.endAccepted = endStr ∧ InPlace validRes s.wrIndex s.resAccepted
  | .done => s.endAccepted = endStr ∧ s.resAccepted = validRes ∧
      InPlace validRes s.wrIndex s.resAccepted

section OneWrite

variable {stray : ℤ → UInt8} {message accepted accepted' : List UInt8} {wrIndex wrIndex' : ℤ}
  {result : WriteResult} (hsmall : message.length < 2 ^ 31)

include hsmall in
theorem inPlace_take {k : ℕ} (hk : k ≤ message.length) :
    InPlace message k (message.take k) := by
  refine ⟨by omega, by omega, ?_, by rw [Int.toNat_natCast]⟩
  rw [countPassed, sizeT_of_nonneg (by omega) (by omega), List.length_take]
  omega

/-- What a loop in place has accepted. -/
theorem InPlace.exists_eq (h : InPlace message wrIndex accepted) :
    ∃ k ≤ message.length, wrIndex = k ∧ accepted = message.take k := by
  have hnonneg := h.nonneg
  have hle := h.le
  exact ⟨wrIndex.toNat, by omega, by omega, h.accepted_eq⟩

theorem InPlace.length_accepted (h : InPlace message wrIndex accepted) :
    (accepted.length : ℤ) = wrIndex := by
  obtain ⟨k, hk, rfl, rfl⟩ := h.exists_eq
  rw [List.length_take]
  omega

include hsmall in
/-- A `write` that does not fail keeps the place. -/
theorem InPlace.writeOnce (h : InPlace message wrIndex accepted) (hok : result.value ≠ -1)
    (hwrite : writeOnce stray message wrIndex accepted result = some (wrIndex', accepted')) :
    InPlace message wrIndex' accepted' := by
  obtain ⟨k, hk, rfl, rfl⟩ := h.exists_eq
  cases result with
  | accepted count =>
      have hcount : countPassed message k = message.length - k := by
        rw [countPassed, sizeT_of_nonneg (by omega) (by omega)]
        omega
      rw [Server.writeOnce, hcount] at hwrite
      split at hwrite
      · cases hwrite
      · rename_i hroom
        have hin : k + count ≤ message.length := by
          change ¬ ((message.length - k : ℕ) : ℤ) < (count : ℤ) at hroom
          omega
        have hindex : int32 (k + int32 count) = ↑(k + count) := by
          unfold int32
          omega
        have hvalue : (WriteResult.accepted count).value = count := rfl
        rw [hvalue, hindex, Int.toNat_natCast, load_placed message stray hin, Option.some_inj,
          Prod.mk.injEq] at hwrite
        obtain ⟨rfl, rfl⟩ := hwrite
        have htake := window_append_window message 0 k count
        rw [Nat.zero_add] at htake
        change message.take k ++ window message k count = message.take (k + count) at htake
        rw [htake]
        exact inPlace_take hsmall hin
  | eagain => exact absurd rfl hok
  | eintr => exact absurd rfl hok
  | error => exact absurd rfl hok

include hsmall in
/-- A `write` that fails moves the index back by one. -/
theorem InPlace.writeOnce_failed (h : InPlace message wrIndex accepted)
    (hfailed : result.value = -1)
    (hwrite : Server.writeOnce stray message wrIndex accepted result =
      some (wrIndex', accepted')) : wrIndex' = wrIndex - 1 ∧ accepted' = accepted := by
  obtain ⟨k, hk, rfl, rfl⟩ := h.exists_eq
  have hroom : ¬ (countPassed message k : ℤ) < -1 := by omega
  have hindex : int32 (k + int32 (-1)) = k - 1 := by
    unfold int32
    omega
  rw [Server.writeOnce, hfailed, if_neg hroom, hindex, Option.some_inj, Prod.mk.injEq] at hwrite
  obtain ⟨rfl, rfl⟩ := hwrite
  exact ⟨rfl, List.append_nil _⟩

/-- Then the place is lost. -/
theorem InPlace.not_inPlace_sub_one (h : InPlace message wrIndex accepted) :
    ¬ InPlace message (wrIndex - 1) accepted := by
  intro hback
  have hlength := h.length_accepted
  have hlength' := hback.length_accepted
  omega

end OneWrite

/-! ## One iteration -/

section Step

variable {stray : ℤ → UInt8} {validRes : List UInt8} {s s' : ReportState} {result : WriteResult}

/-- What an iteration does, loop by loop. -/
theorem reportStep_cases (h : reportStep stray validRes s result = some s') :
    (∃ wrIndex accepted, s.phase = .endStr ∧
      writeOnce stray endStr s.wrIndex s.endAccepted result = some (wrIndex, accepted) ∧
      (wrIndex < 2 ∧ s' = { s with wrIndex := wrIndex, endAccepted := accepted } ∨
        2 ≤ wrIndex ∧
          s' = { s with phase := .validRes, wrIndex := 0, endAccepted := accepted })) ∨
    ∃ wrIndex accepted, s.phase = .validRes ∧
      writeOnce stray validRes s.wrIndex s.resAccepted result = some (wrIndex, accepted) ∧
      (sizeT wrIndex < validRes.length ∧
          s' = { s with wrIndex := wrIndex, resAccepted := accepted } ∨
        validRes.length ≤ sizeT wrIndex ∧
          s' = { s with phase := .done, wrIndex := wrIndex, resAccepted := accepted }) := by
  unfold reportStep at h
  cases hphase : s.phase with
  | endStr =>
      rw [hphase] at h
      obtain ⟨⟨wrIndex, accepted⟩, hwrite, rfl⟩ := Option.map_eq_some_iff.mp h
      refine Or.inl ⟨wrIndex, accepted, rfl, hwrite, ?_⟩
      by_cases hlt : wrIndex < 2
      · exact Or.inl ⟨hlt, if_pos hlt⟩
      · exact Or.inr ⟨Int.not_lt.mp hlt, if_neg hlt⟩
  | validRes =>
      rw [hphase] at h
      obtain ⟨⟨wrIndex, accepted⟩, hwrite, rfl⟩ := Option.map_eq_some_iff.mp h
      refine Or.inr ⟨wrIndex, accepted, rfl, hwrite, ?_⟩
      by_cases hlt : sizeT wrIndex < validRes.length
      · exact Or.inl ⟨hlt, if_pos hlt⟩
      · exact Or.inr ⟨Nat.not_lt.mp hlt, if_neg hlt⟩
  | done =>
      rw [hphase] at h
      cases h

variable (hsmall : validRes.length < 2 ^ 31)

include hsmall in
/-- An iteration whose `write` does not fail. -/
theorem Kept.step (h : Kept validRes s) (hok : result.value ≠ -1)
    (hstep : reportStep stray validRes s result = some s') : Kept validRes s' := by
  unfold Kept at h
  rcases reportStep_cases hstep with ⟨wrIndex, accepted, hphase, hwrite, hnext⟩ |
    ⟨wrIndex, accepted, hphase, hwrite, hnext⟩
  · rw [hphase] at h
    obtain ⟨hnone, hplace⟩ := h
    have hplace' := hplace.writeOnce (by decide) hok hwrite
    rcases hnext with ⟨-, rfl⟩ | ⟨hdone, rfl⟩
    · simpa [Kept, hphase] using ⟨hnone, hplace'⟩
    · obtain ⟨k, hk, rfl, rfl⟩ := hplace'.exists_eq
      have hlength : endStr.length = 2 := rfl
      have hall : endStr.take k = endStr := List.take_of_length_le (by omega)
      refine ⟨hall, ?_⟩
      show InPlace validRes 0 s.resAccepted
      rw [hnone]
      exact inPlace_take hsmall (Nat.zero_le _)
  · rw [hphase] at h
    obtain ⟨hend, hplace⟩ := h
    have hplace' := hplace.writeOnce hsmall hok hwrite
    obtain ⟨k, hk, rfl, rfl⟩ := hplace'.exists_eq
    rcases hnext with ⟨-, rfl⟩ | ⟨hdone, rfl⟩
    · simpa [Kept, hphase] using ⟨hend, hplace'⟩
    · rw [sizeT_natCast (by omega)] at hdone
      exact ⟨hend, List.take_of_length_le hdone, hplace'⟩

include hsmall in
/-- An iteration whose `write` fails. -/
theorem Kept.not_step (h : Kept validRes s) (hfailed : result.value = -1)
    (hstep : reportStep stray validRes s result = some s') : ¬ Kept validRes s' := by
  unfold Kept at h
  rcases reportStep_cases hstep with ⟨wrIndex, accepted, hphase, hwrite, hnext⟩ |
    ⟨wrIndex, accepted, hphase, hwrite, hnext⟩
  · rw [hphase] at h
    obtain ⟨hnone, hplace⟩ := h
    obtain ⟨rfl, rfl⟩ := hplace.writeOnce_failed (by decide) hfailed hwrite
    have hlost := hplace.not_inPlace_sub_one
    have hle : s.wrIndex ≤ 2 := hplace.le
    rcases hnext with ⟨-, rfl⟩ | ⟨hdone, rfl⟩
    · intro hkept
      simp only [Kept, hphase] at hkept
      exact hlost hkept.2
    · omega
  · rw [hphase] at h
    obtain ⟨hend, hplace⟩ := h
    obtain ⟨rfl, rfl⟩ := hplace.writeOnce_failed hsmall hfailed hwrite
    have hlost := hplace.not_inPlace_sub_one
    rcases hnext with ⟨-, rfl⟩ | ⟨-, rfl⟩
    · intro hkept
      simp only [Kept, hphase] at hkept
      exact hlost hkept.2
    · intro hkept
      exact hlost hkept.2.2

end Step

/-! ## A run -/

theorem kept_init (stray : ℤ → UInt8) (validRes : List UInt8) :
    Kept validRes (reportSystem stray validRes).init :=
  ⟨rfl, inPlace_take (by decide) (Nat.zero_le _)⟩

/-- Every state of the run keeps its place. -/
def KeptAlong (stray : ℤ → UInt8) (validRes : List UInt8) (results : List WriteResult)
    (s : ReportState) : Prop :=
  ∀ n s', (reportSystem stray validRes).run (results.take n) s = some s' → Kept validRes s'

/-- From a state that keeps its place on, by induction on the results. -/
theorem keptAlong_iff {stray : ℤ → UInt8} {validRes : List UInt8}
    (hsmall : validRes.length < 2 ^ 31)
    {results : List WriteResult} {s last : ReportState} (hs : Kept validRes s)
    (hrun : (reportSystem stray validRes).run results s = some last) :
    KeptAlong stray validRes results s ↔ ∀ result ∈ results, result.value ≠ -1 := by
  induction results generalizing s with
  | nil =>
      refine iff_of_true (fun n s' hpart => ?_) (fun result hmem => by cases hmem)
      rw [List.take_nil, TransitionSystem.run_nil, Option.some_inj] at hpart
      exact hpart ▸ hs
  | cons result rest ih =>
      rw [TransitionSystem.run_cons, Option.bind_eq_some_iff] at hrun
      obtain ⟨next, hnext, hlater⟩ := hrun
      rw [List.forall_mem_cons]
      constructor
      · intro hkept
        have hnextKept : Kept validRes next := hkept 1 next (by
          rw [List.take_succ_cons, List.take_zero, TransitionSystem.run_cons_of_step hnext,
            TransitionSystem.run_nil])
        refine ⟨fun hfailed => hs.not_step hsmall hfailed hnext hnextKept, ?_⟩
        refine (ih hnextKept hlater).mp fun n s' hpart => hkept (n + 1) s' ?_
        rw [List.take_succ_cons, TransitionSystem.run_cons_of_step hnext]
        exact hpart
      · rintro ⟨hok, hrest⟩ n s' hpart
        have hnextKept := hs.step hsmall hok hnext
        cases n with
        | zero =>
            rw [List.take_zero, TransitionSystem.run_nil, Option.some_inj] at hpart
            exact hpart ▸ hs
        | succ n =>
            rw [List.take_succ_cons, TransitionSystem.run_cons_of_step hnext] at hpart
            exact (ih hnextKept hlater).mpr hrest n s' hpart

/-- **The report loops keep their place exactly in the runs in which no `write` fails.** -/
theorem report_kept_iff (stray : ℤ → UInt8) (validRes : List UInt8) (results : List WriteResult)
    (last : ReportState) (hsmall : validRes.length < 2 ^ 31)
    (hrun : (reportSystem stray validRes).run results (reportSystem stray validRes).init =
      some last) :
    KeptAlong stray validRes results (reportSystem stray validRes).init ↔
      ∀ result ∈ results, result.value ≠ -1 :=
  keptAlong_iff hsmall (kept_init stray validRes) hrun

/-- A result of two bytes, written byte by byte. -/
theorem report_kept_two :
    KeptAlong (fun _ => 0) [49, 50] [.accepted 2, .accepted 1, .accepted 0, .accepted 1]
      (reportSystem (fun _ => 0) [49, 50]).init :=
  (report_kept_iff (fun _ => 0) [49, 50] [.accepted 2, .accepted 1, .accepted 0, .accepted 1]
    ⟨.done, 2, endStr, [49, 50]⟩ (by decide) (by decide)).mpr (by decide)

/-- The first `write` fails: `wr_index` is -1, and the next `write` is given three bytes. -/
theorem report_lost :
    (reportSystem (fun _ => 0) [49, 50]).run [.error] (reportSystem (fun _ => 0) [49, 50]).init =
        some ⟨.endStr, -1, [], []⟩ ∧
      countPassed endStr (-1) = 3 ∧
      ¬ KeptAlong (fun _ => 0) [49, 50] [.error] (reportSystem (fun _ => 0) [49, 50]).init := by
  refine ⟨by decide, by decide, fun hkept => ?_⟩
  have hlost : Kept [49, 50] ⟨.endStr, -1, [], []⟩ := hkept 1 ⟨.endStr, -1, [], []⟩ (by decide)
  exact absurd hlost.2.nonneg (by decide)

/-- Without a failure the loops end with the report written. -/
theorem report_written {stray : ℤ → UInt8} {validRes : List UInt8} {results : List WriteResult}
    {last : ReportState} (hsmall : validRes.length < 2 ^ 31)
    (hok : ∀ result ∈ results, result.value ≠ -1)
    (hrun : (reportSystem stray validRes).run results (reportSystem stray validRes).init =
      some last) (hdone : last.phase = .done) :
    last.endAccepted ++ last.resAccepted = report validRes := by
  have hkept : Kept validRes last :=
    (keptAlong_iff hsmall (kept_init stray validRes) hrun).mpr hok results.length last
      (by rwa [List.take_length])
  unfold Kept at hkept
  rw [hdone] at hkept
  rw [hkept.1, hkept.2.1]
  rfl

end SliceTransfer.Server
