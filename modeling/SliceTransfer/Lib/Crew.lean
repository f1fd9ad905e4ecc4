import SliceTransfer.Lib.Progress
import SliceTransfer.Lib.Slots
import Mathlib.Data.Finset.Card

/-!
# A crew that serves jobs in order

Jobs `0, 1, …, count - 1` are put in a queue in this order, and `workers` workers take them
from its front.  A worker keeps its job until the job has ended; a job that never ends
keeps its worker for ever.

So it is the jobs that *stall* before a job that decide what becomes of it.  If they are
fewer than the workers, the job has ended where nothing is left to do (`ended_of_settled`);
otherwise no run even takes it from the queue (`not_taken_of_many`).
-/

/-- The queue is the jobs from `taken` to `accepted`. -/
structure CrewState (σ : Type*) where
  accepted : ℕ
  taken : ℕ
  held : ℕ → Option ℕ
  inner : σ

inductive CrewAction (β : Type*)
  | accept
  | take (worker : ℕ)
  | work (worker : ℕ) (b : β)
  | leave (worker : ℕ)
  deriving DecidableEq, Repr

namespace TransitionSystem

variable {σ α β : Type*}

section System

variable (sys : TransitionSystem σ α) (act : ℕ → β → α) (ended : σ → ℕ → Bool)
  (count workers : ℕ)

/-- `act job b` is what the worker does that holds `job`. -/
def crewStep (s : CrewState σ) : CrewAction β → Option (CrewState σ)
  | .accept => if s.accepted < count then some { s with accepted := s.accepted + 1 } else none
  | .take worker =>
      if worker < workers ∧ s.held worker = none ∧ s.taken < s.accepted then
        some { s with
          taken := s.taken + 1
          held := Function.update s.held worker (some s.taken) }
      else none
  | .work worker b =>
      match s.held worker with
      | some job => (sys.step s.inner (act job b)).map fun inner => { s with inner := inner }
      | none => none
  | .leave worker =>
      match s.held worker with
      | some job =>
          if ended s.inner job then
            some { s with held := Function.update s.held worker none }
          else none
      | none => none

/-- The jobs of `sys` on a crew. -/
def crew : TransitionSystem (CrewState σ) (CrewAction β) where
  init := ⟨0, 0, fun _ => none, sys.init⟩
  step := crewStep sys act ended count workers

end System

/-- The steps of the crew, one constructor for each thing that can happen. -/
inductive CrewNext (sys : TransitionSystem σ α) (act : ℕ → β → α) (ended : σ → ℕ → Bool)
    (count workers : ℕ) (s : CrewState σ) : CrewAction β → CrewState σ → Prop
  | accept (hmore : s.accepted < count) :
      CrewNext sys act ended count workers s .accept { s with accepted := s.accepted + 1 }
  | take {worker : ℕ} (hworker : worker < workers) (hidle : s.held worker = none)
      (hqueue : s.taken < s.accepted) :
      CrewNext sys act ended count workers s (.take worker) { s with
        taken := s.taken + 1
        held := Function.update s.held worker (some s.taken) }
  | work {worker job : ℕ} {b : β} {inner : σ} (hjob : s.held worker = some job)
      (hstep : sys.step s.inner (act job b) = some inner) :
      CrewNext sys act ended count workers s (.work worker b) { s with inner := inner }
  | leave {worker job : ℕ} (hjob : s.held worker = some job)
      (hended : ended s.inner job = true) :
      CrewNext sys act ended count workers s (.leave worker)
        { s with held := Function.update s.held worker none }

section Crew

variable {sys : TransitionSystem σ α} {act : ℕ → β → α} {ended : σ → ℕ → Bool}
  {count workers : ℕ} {s s' : CrewState σ}

theorem crewNext_of_step {a : CrewAction β}
    (h : crewStep sys act ended count workers s a = some s') :
    CrewNext sys act ended count workers s a s' := by
  cases a with
  | accept =>
      obtain ⟨hmore, heq⟩ := Option.ite_none_right_eq_some.mp h
      cases heq
      exact .accept hmore
  | take worker =>
      obtain ⟨⟨hworker, hidle, hqueue⟩, heq⟩ := Option.ite_none_right_eq_some.mp h
      cases heq
      exact .take hworker hidle hqueue
  | work worker b =>
      rw [crewStep] at h
      cases hjob : s.held worker with
      | none =>
          rw [hjob] at h
          cases h
      | some job =>
          rw [hjob] at h
          obtain ⟨inner, hstep, rfl⟩ := Option.map_eq_some_iff.mp h
          exact .work hjob hstep
  | leave worker =>
      rw [crewStep] at h
      cases hjob : s.held worker with
      | none =>
          rw [hjob] at h
          cases h
      | some job =>
          rw [hjob] at h
          obtain ⟨hended, heq⟩ := Option.ite_none_right_eq_some.mp h
          cases heq
          exact .leave hjob hended

/-- The crew does what the jobs can do. -/
theorem Reachable.crew_inner (h : (sys.crew act ended count workers).Reachable s) :
    sys.Reachable s.inner := by
  induction h with
  | init => exact Reachable.init sys
  | step _ _ hnext ih =>
      cases crewNext_of_step hnext with
      | accept hmore => exact ih
      | take hworker hidle hqueue => exact ih
      | work hjob hstep => exact ih.next hstep
      | leave hjob hended => exact ih

/-! ## Who holds what -/

/-- A job that has ended stays so. -/
def EndedForGood (sys : TransitionSystem σ α) (ended : σ → ℕ → Bool) : Prop :=
  ∀ s a s' job, sys.step s a = some s' → ended s job = true → ended s' job = true

/-- A job that was taken has ended, or exactly one worker holds it. -/
structure Staffed (ended : σ → ℕ → Bool) (count workers : ℕ) (s : CrewState σ) : Prop where
  accepted_le : s.accepted ≤ count
  taken_le : s.taken ≤ s.accepted
  held_lt : ∀ worker job, s.held worker = some job → worker < workers ∧ job < s.taken
  held_once : ∀ worker other job, s.held worker = some job → s.held other = some job →
    worker = other
  served : ∀ job < s.taken, ended s.inner job = true ∨ ∃ worker, s.held worker = some job

theorem Staffed.take {worker : ℕ} (h : Staffed ended count workers s) (hworker : worker < workers)
    (hidle : s.held worker = none) (hqueue : s.taken < s.accepted) :
    Staffed ended count workers { s with
      taken := s.taken + 1
      held := Function.update s.held worker (some s.taken) } := by
  have hheld : ∀ {other job}, Function.update s.held worker (some s.taken) other = some job →
      other = worker ∧ job = s.taken ∨ other ≠ worker ∧ s.held other = some job := by
    intro other job hother
    by_cases hsame : other = worker
    · rw [hsame, Function.update_self, Option.some_inj] at hother
      exact Or.inl ⟨hsame, hother.symm⟩
    · rw [Function.update_of_ne hsame] at hother
      exact Or.inr ⟨hsame, hother⟩
  refine ⟨h.accepted_le, hqueue, ?_, ?_, ?_⟩
  · intro other job hother
    rcases hheld hother with ⟨rfl, rfl⟩ | ⟨-, hbefore⟩
    · exact ⟨hworker, Nat.lt_succ_self _⟩
    · exact (h.held_lt other job hbefore).imp_right Nat.lt_succ_of_lt
  · intro other another job hother hanother
    rcases hheld hother with ⟨rfl, rfl⟩ | ⟨-, hbefore⟩
    · rcases hheld hanother with ⟨rfl, -⟩ | ⟨-, hbefore⟩
      · rfl
      · exact absurd (h.held_lt _ _ hbefore).2 (Nat.lt_irrefl _)
    · rcases hheld hanother with ⟨-, rfl⟩ | ⟨-, hbefore'⟩
      · exact absurd (h.held_lt _ _ hbefore).2 (Nat.lt_irrefl _)
      · exact h.held_once other another job hbefore hbefore'
  · intro job hjob
    rcases (Nat.lt_succ_iff_lt_or_eq.mp hjob) with hbefore | rfl
    · refine (h.served job hbefore).imp_right ?_
      rintro ⟨other, hother⟩
      have hne : other ≠ worker := by
        rintro rfl
        rw [hidle] at hother
        cases hother
      exact ⟨other, by rw [← hother]; exact Function.update_of_ne hne _ _⟩
    · exact Or.inr ⟨worker, Function.update_self ..⟩

theorem Staffed.leave {worker job : ℕ} (h : Staffed ended count workers s)
    (hjob : s.held worker = some job) (hended : ended s.inner job = true) :
    Staffed ended count workers { s with held := Function.update s.held worker none } := by
  have hheld : ∀ {other kept}, Function.update s.held worker none other = some kept →
      s.held other = some kept := by
    intro other kept hother
    by_cases hsame : other = worker
    · rw [hsame, Function.update_self] at hother
      cases hother
    · rwa [Function.update_of_ne hsame] at hother
  refine ⟨h.accepted_le, h.taken_le, fun other kept hother => h.held_lt other kept (hheld hother),
    fun other another kept hother hanother =>
      h.held_once other another kept (hheld hother) (hheld hanother), ?_⟩
  intro other hother
  rcases h.served other hother with hdone | ⟨another, hanother⟩
  · exact Or.inl hdone
  · by_cases hsame : another = worker
    · rw [hsame, hjob, Option.some_inj] at hanother
      exact Or.inl (hanother ▸ hended)
    · exact Or.inr ⟨another, by rw [← hanother]; exact Function.update_of_ne hsame _ _⟩

theorem Reachable.staffed (hgood : EndedForGood sys ended)
    (h : (sys.crew act ended count workers).Reachable s) : Staffed ended count workers s := by
  refine h.invariant (I := Staffed ended count workers) ?_ ?_
  · refine ⟨Nat.zero_le _, le_refl _, ?_, ?_, ?_⟩
    · intro worker job hjob
      cases hjob
    · intro worker other job hjob
      cases hjob
    · intro job hjob
      exact absurd hjob (Nat.not_lt_zero _)
  · intro s a s' hs hstep
    cases crewNext_of_step hstep with
    | accept hmore =>
        exact ⟨hmore, hs.taken_le.trans (Nat.le_succ _), hs.held_lt, hs.held_once, hs.served⟩
    | take hworker hidle hqueue => exact hs.take hworker hidle hqueue
    | work hjob hnext =>
        exact ⟨hs.accepted_le, hs.taken_le, hs.held_lt, hs.held_once, fun job hjob =>
          (hs.served job hjob).imp_left fun hended => hgood _ _ _ job hnext hended⟩
    | leave hjob hended => exact hs.leave hjob hended

/-- **A single worker serves the jobs one after the other.** -/
theorem Reachable.ended_before (hgood : EndedForGood sys ended)
    (h : (sys.crew act ended count 1).Reachable s) {worker job : ℕ}
    (hheld : s.held worker = some job) : ∀ other < job, ended s.inner other = true := by
  intro other hother
  have hs := h.staffed hgood
  obtain ⟨hworker, htaken⟩ := hs.held_lt worker job hheld
  rcases hs.served other (hother.trans htaken) with hended | ⟨another, hanother⟩
  · exact hended
  · have hsame : another = worker := by
      have := (hs.held_lt another other hanother).1
      omega
    rw [hsame, hheld, Option.some_inj] at hanother
    exact absurd hanother hother.ne'

/-- Nothing has happened to a job that is still in the queue. -/
theorem Reachable.fresh_of_queued (Fresh : σ → ℕ → Prop) (hgood : EndedForGood sys ended)
    (hinit : ∀ job, Fresh sys.init job)
    (hothers : ∀ s job b s' other, sys.step s (act job b) = some s' → other ≠ job →
      Fresh s other → Fresh s' other)
    (h : (sys.crew act ended count workers).Reachable s) :
    ∀ job, s.taken ≤ job → Fresh s.inner job := by
  induction h with
  | init => exact fun job _ => hinit job
  | @step s s' a hreach _ hnext ih =>
      have hs := Reachable.staffed hgood hreach
      cases crewNext_of_step hnext with
      | accept hmore => exact ih
      | take hworker hidle hqueue => exact fun job hjob => ih job (Nat.le_of_succ_le hjob)
      | @work worker held b inner hjob hstep =>
          intro job hqueued
          have hne : job ≠ held := by
            rintro rfl
            exact absurd (hs.held_lt worker job hjob).2 (Nat.not_lt.mpr hqueued)
          exact hothers _ _ _ _ job hstep hne (ih job hqueued)
      | leave hjob hended => exact ih

/-- Jobs that are held by some workers are not more than these. -/
theorem card_le_of_held (held : ℕ → Option ℕ) {jobs crew : Finset ℕ}
    (hheld : ∀ job ∈ jobs, ∃ worker ∈ crew, held worker = some job) : jobs.card ≤ crew.card := by
  choose! holder hcrew hholder using hheld
  refine Finset.card_le_card_of_injOn holder hcrew ?_
  intro job hjob other hother hsame
  have hfirst := hholder job hjob
  rw [hsame, hholder other hother, Option.some_inj] at hfirst
  exact hfirst.symm

/-! ## Jobs that stall -/

section Stalls

variable {stalls : ℕ → Prop} [DecidablePred stalls]

/-- **A job that is taken has fewer stalling jobs before it than there are workers.** -/
theorem Reachable.few_of_taken (hgood : EndedForGood sys ended)
    (hstalls : ∀ s job, sys.Reachable s → job < count → stalls job → ended s job = false)
    (h : (sys.crew act ended count workers).Reachable s) :
    ∀ job < s.taken, ((Finset.range job).filter stalls).card < workers := by
  induction h with
  | init => exact fun job hjob => absurd hjob (Nat.not_lt_zero _)
  | @step s s' a hreach _ hnext ih =>
      have hs := Reachable.staffed hgood hreach
      cases crewNext_of_step hnext with
      | accept hmore => exact ih
      | @take worker hworker hidle hqueue =>
          intro job hjob
          rcases Nat.lt_succ_iff_lt_or_eq.mp hjob with hbefore | rfl
          · exact ih job hbefore
          · -- the stalling jobs are held by the other workers
            have hcard : ((Finset.range s.taken).filter stalls).card ≤
                ((Finset.range workers).erase worker).card := by
              refine card_le_of_held s.held fun job hjob => ?_
              obtain ⟨hlt, hstall⟩ := Finset.mem_filter.mp hjob
              have htaken := Finset.mem_range.mp hlt
              have hcount := htaken.trans_le (hs.taken_le.trans hs.accepted_le)
              rcases hs.served job htaken with hended | ⟨other, hother⟩
              · rw [hstalls s.inner job (Reachable.crew_inner hreach) hcount hstall] at hended
                cases hended
              · refine ⟨other, Finset.mem_erase.mpr ⟨?_, ?_⟩, hother⟩
                · rintro rfl
                  rw [hidle] at hother
                  cases hother
                · exact Finset.mem_range.mpr (hs.held_lt other job hother).1
            rw [Finset.card_erase_of_mem (Finset.mem_range.mpr hworker), Finset.card_range] at hcard
            omega
      | work hjob hstep => exact ih
      | leave hjob hended => exact ih

/-- **Behind as many stalling jobs as there are workers no job is ever taken.** -/
theorem not_taken_of_many (hgood : EndedForGood sys ended)
    (hstalls : ∀ s job, sys.Reachable s → job < count → stalls job → ended s job = false) {job : ℕ}
    (hmany : workers ≤ ((Finset.range job).filter stalls).card)
    (h : (sys.crew act ended count workers).Reachable s) : s.taken ≤ job := by
  by_contra htaken
  have hfew := h.few_of_taken hgood hstalls job (Nat.not_le.mp htaken)
  omega

/-! ## Jobs that end -/

/-- What the crew does by itself is productive. -/
def crewProductive (productive : β → Bool) (_ : CrewState σ) : CrewAction β → Bool
  | .work _ b => productive b
  | _ => true

/-- Each job passes through the queue and through the hands of a worker. -/
def crewMeasure (count workers : ℕ) (μ : σ → ℕ) (s : CrewState σ) : ℕ :=
  3 * (count - s.accepted) + 2 * (s.accepted - s.taken) +
    slotCount (fun job => job ≠ none) s.held workers + μ s.inner

theorem measured_crew {productive : β → Bool} {μ : σ → ℕ} (hgood : EndedForGood sys ended)
    (hμ : ∀ s job b s', sys.Reachable s → sys.step s (act job b) = some s' →
      μ s' + (productive b).toNat ≤ μ s) :
    (sys.crew act ended count workers).Measured (crewProductive productive)
      (crewMeasure count workers μ) := by
  intro s a s' hreach hstep
  have hs := hreach.staffed hgood
  have haccepted := hs.accepted_le
  have htaken := hs.taken_le
  unfold crewMeasure
  cases crewNext_of_step hstep with
  | accept hmore =>
      simp only [crewProductive, Bool.toNat_true]
      omega
  | take hworker hidle hqueue =>
      have hbusy : slotCount (fun job => job ≠ none)
          (Function.update s.held _ (some s.taken)) workers = _ :=
        slotCount_update_add hworker (not_not.mpr hidle) (Option.some_ne_none _)
      simp only [crewProductive, Bool.toNat_true, hbusy]
      omega
  | @work worker job b inner hjob hnext =>
      have hless := hμ s.inner job b inner (Reachable.crew_inner hreach) hnext
      simp only [crewProductive]
      omega
  | @leave worker job hjob hended =>
      have hsome : s.held worker ≠ none := by
        rw [hjob]
        exact Option.some_ne_none _
      have hbusy : slotCount (fun job => job ≠ none)
          (Function.update s.held worker none) workers + 1 = _ :=
        slotCount_update_sub (hs.held_lt worker job hjob).1 hsome (not_not.mpr rfl)
      simp only [crewProductive, Bool.toNat_true]
      omega

/-- **Where the crew has nothing left to do, a job with fewer stalling jobs before it than
there are workers has ended.** -/
theorem ended_of_settled {productive : β → Bool} (hgood : EndedForGood sys ended)
    (hgoes : ∀ s job, sys.Reachable s → job < count → ¬ stalls job →
      (∀ b, productive b = true → sys.step s (act job b) = none) → ended s job = true)
    {job : ℕ} (hjob : job < count) (hnot : ¬ stalls job)
    (hfew : ((Finset.range job).filter stalls).card < workers)
    (hreach : (sys.crew act ended count workers).Reachable s)
    (hsettled : (sys.crew act ended count workers).Settled (crewProductive productive) s) :
    ended s.inner job = true := by
  have hs := hreach.staffed hgood
  have hall : s.accepted = count := by
    have hle := hs.accepted_le
    have hnone : crewStep sys act ended count workers s .accept = none := hsettled .accept rfl
    by_contra hmore
    rw [crewStep, if_pos (by omega)] at hnone
    cases hnone
  -- a worker that holds a job cannot go on with it, and the job has not ended
  have hheld : ∀ worker kept, s.held worker = some kept → stalls kept ∧
      ended s.inner kept = false := by
    intro worker kept hkept
    have hopen : ended s.inner kept = false := by
      by_contra hended
      have hnone : crewStep sys act ended count workers s (.leave worker) = none :=
        hsettled (.leave worker) rfl
      simp [crewStep, hkept, hended] at hnone
    refine ⟨?_, hopen⟩
    by_contra hnever
    have hlt : kept < count := by
      have := (hs.held_lt worker kept hkept).2
      have := hs.taken_le
      omega
    have hended := hgoes s.inner kept (Reachable.crew_inner hreach) hlt hnever fun b hb => by
      have hnone : crewStep sys act ended count workers s (.work worker b) = none :=
        hsettled (.work worker b) hb
      simp only [crewStep, hkept] at hnone
      exact Option.map_eq_none_iff.mp hnone
    rw [hopen] at hended
    cases hended
  by_cases htaken : job < s.taken
  · rcases hs.served job htaken with hended | ⟨worker, hworker⟩
    · exact hended
    · exact absurd (hheld worker job hworker).1 hnot
  · -- the job is in the queue, so every worker is busy with a job that stalls
    exfalso
    have hbusy : ∀ worker ∈ Finset.range workers, ∃ kept,
        s.held worker = some kept ∧ kept ∈ (Finset.range job).filter stalls := by
      intro worker hworker
      cases hkept : s.held worker with
      | none =>
          have hnone : crewStep sys act ended count workers s (.take worker) = none :=
            hsettled (.take worker) rfl
          rw [crewStep, if_pos ⟨Finset.mem_range.mp hworker, hkept, by omega⟩] at hnone
          cases hnone
      | some kept =>
          refine ⟨kept, rfl, Finset.mem_filter.mpr ⟨Finset.mem_range.mpr ?_, ?_⟩⟩
          · have := (hs.held_lt worker kept hkept).2
            omega
          · exact (hheld worker kept hkept).1
    choose! kept hkept hmem using hbusy
    have hcard : (Finset.range workers).card ≤ ((Finset.range job).filter stalls).card := by
      refine Finset.card_le_card_of_injOn kept hmem ?_
      intro worker hworker other hother hsame
      have hfirst := hkept worker hworker
      rw [hsame] at hfirst
      exact hs.held_once worker other _ hfirst (hkept other hother)
    rw [Finset.card_range] at hcard
    omega

end Stalls

end Crew

end TransitionSystem
