import SliceTransfer.Sender.Supervise
import SliceTransfer.Lib.Decimal

/-!
# The receiver's report: receiver against sender

`Server::Supervise` writes `E`, a zero byte and the text `ValidUtil::getValidResult`
builds; the connection takes them apart as it likes.  The sender's supervisor keeps
nothing from one batch to the next, so

* a batch that is the single byte `E` makes `substr(2)` throw;
* a result that is reported is the text of one batch (`validString_mem_run`), so the
  whole result has to come in one batch.

What is left is the report in one piece, and the marker alone with the result behind it
(`report_understood_iff`).
-/

namespace SliceTransfer

open Decimal SendingFlow

/-! ## The text of the validation result -/

namespace ValidUtil

/-- What `%.4f` prints for a `double`. -/
inductive Fixed4
  | finite (negative : Bool) (whole : ℕ) (fraction : Fin 10000)
  | infinite (negative : Bool)
  | nan (negative : Bool)
  deriving DecidableEq, Repr

def signText (negative : Bool) : List UInt8 := if negative then ascii ['-'] else []

def Fixed4.text : Fixed4 → List UInt8
  | .finite negative whole fraction =>
      signText negative ++ decimal whole ++ ascii ['.'] ++
        [digitByte (fraction / 1000), digitByte (fraction / 100 % 10),
          digitByte (fraction / 10 % 10), digitByte (fraction % 10)]
  | .infinite negative => signText negative ++ ascii ['i', 'n', 'f']
  | .nan negative => signText negative ++ ascii ['n', 'a', 'n']

/-- The text made of the four averages. -/
def getValidResult (strings1 ints doubles strings2 : Fixed4) : List UInt8 :=
  ascii ['s', 't', 'r', 'i', 'n', 'g', 's', '1', ':', ' '] ++ strings1.text ++
    ascii [',', ' ', 'i', 'n', 't', 's', ':', ' '] ++ ints.text ++
    ascii [',', ' ', 'd', 'o', 'u', 'b', 'l', 'e', 's', ':', ' '] ++ doubles.text ++
    ascii [',', ' ', 's', 't', 'r', 'i', 'n', 'g', 's', '2', ':', ' '] ++ strings2.text

theorem marker_notMem_signText (negative : Bool) : markerByte ∉ signText negative := by
  cases negative <;> decide

theorem marker_ne_digitByte {d : ℕ} (hd : d < 10) : markerByte ≠ digitByte d := by
  intro heq
  have hdigit := isDigit_digitByte hd
  rw [← heq] at hdigit
  exact absurd hdigit (by decide)

theorem marker_notMem_text (value : Fixed4) : markerByte ∉ value.text := by
  cases value with
  | finite negative whole fraction =>
      have hdecimal : markerByte ∉ decimal whole := fun hmem =>
        absurd (isDigit_of_mem_decimal hmem) (by decide)
      have hdot : markerByte ∉ ascii ['.'] := by decide
      have hlt := fraction.isLt
      simp only [Fixed4.text, List.mem_append, List.mem_cons, List.not_mem_nil, or_false, not_or]
      exact ⟨⟨⟨marker_notMem_signText negative, hdecimal⟩, hdot⟩,
        marker_ne_digitByte (by omega), marker_ne_digitByte (by omega),
        marker_ne_digitByte (by omega), marker_ne_digitByte (by omega)⟩
  | infinite negative =>
      have hinf : markerByte ∉ ascii ['i', 'n', 'f'] := by decide
      simp only [Fixed4.text, List.mem_append, not_or]
      exact ⟨marker_notMem_signText negative, hinf⟩
  | nan negative =>
      have hnan : markerByte ∉ ascii ['n', 'a', 'n'] := by decide
      simp only [Fixed4.text, List.mem_append, not_or]
      exact ⟨marker_notMem_signText negative, hnan⟩

/-- The result has no byte that could be taken for the marker. -/
theorem marker_notMem_getValidResult (strings1 ints doubles strings2 : Fixed4) :
    markerByte ∉ getValidResult strings1 ints doubles strings2 := by
  simp only [getValidResult, List.mem_append, not_or]
  exact ⟨⟨⟨⟨⟨⟨⟨by decide, marker_notMem_text strings1⟩, by decide⟩, marker_notMem_text ints⟩,
    by decide⟩, marker_notMem_text doubles⟩, by decide⟩, marker_notMem_text strings2⟩

theorem keyword_isInfix_getValidResult (strings1 ints doubles strings2 : Fixed4) :
    keyword <:+: getValidResult strings1 ints doubles strings2 := by
  have hlabel : keyword <:+:
      ascii [',', ' ', 's', 't', 'r', 'i', 'n', 'g', 's', '2', ':', ' '] := by
    decide
  exact hlabel.trans (List.infix_append _ _ _)

end ValidUtil

/-! ## The batches that are understood -/

open ValidUtil

/-- The bytes the receiver's supervisor writes. -/
def report (result : List UInt8) : List UInt8 := markerByte :: 0 :: result

/-- The supervisor handles every wake-up, so it does not return before the last one, and
it has recorded the end time once and returned zero with the whole result. -/
def Understood (result : List UInt8) (waits : List EpollWait) : Prop :=
  ∃ s, superviseSystem.run waits superviseSystem.init = some s ∧ s.exit = some (.returned 0) ∧
    s.logged.count .duration = 1 ∧ .validString result ∈ s.logged

theorem takeBatch_report (s : SuperviseState) (text : List UInt8) :
    s.takeBatch (report text) = (s.log .duration).findResult text := by
  unfold SuperviseState.takeBatch report
  rw [if_neg (List.cons_ne_nil _ _), if_pos List.mem_cons_self, if_neg (by simp)]
  rfl

theorem takeBatch_of_notMem (s : SuperviseState) {text : List UInt8} (hmarker : markerByte ∉ text)
    (hne : text ≠ []) : s.takeBatch text = s.findResult text := by
  unfold SuperviseState.takeBatch
  rw [if_neg hne, if_neg hmarker]

theorem findResult_of_isInfix (s : SuperviseState) {text : List UInt8}
    (hfound : keyword <:+: text) :
    s.findResult text = (s.log (.validString text)).leave (.returned 0) :=
  if_pos hfound

theorem findResult_nil (s : SuperviseState) : s.findResult [] = s := rfl

/-- What the log has to say in the end. -/
theorem understood_of_run {result : List UInt8} {waits : List EpollWait} {s : SuperviseState}
    (hrun : superviseSystem.run waits superviseSystem.init =
      some ((s.log (.validString result)).leave (.returned 0)))
    (hlogged : s.logged = [.duration]) : Understood result waits := by
  refine ⟨_, hrun, rfl, ?_, ?_⟩
  · show (s.logged ++ [SuperviseLog.validString result]).count SuperviseLog.duration = 1
    rw [hlogged]
    rfl
  · show SuperviseLog.validString result ∈ s.logged ++ [SuperviseLog.validString result]
    exact List.mem_append_right _ (List.mem_singleton_self _)

/-- The report in one piece is understood. -/
theorem understood_whole {result : List UInt8} {wait : EpollWait} (hkeyword : keyword <:+: result)
    (hbrings : Brings (report result) wait) : Understood result [wait] := by
  have hstep := step_of_brings hbrings (s := superviseSystem.init) rfl
  rw [takeBatch_report, findResult_of_isInfix _ hkeyword] at hstep
  exact understood_of_run (TransitionSystem.run_cons_of_step hstep []) rfl

/-- The marker alone and the result behind it are understood. -/
theorem understood_split {result : List UInt8} {first second : EpollWait}
    (hmarker : markerByte ∉ result) (hne : result ≠ []) (hkeyword : keyword <:+: result)
    (hfirst : Brings (report []) first) (hsecond : Brings result second) :
    Understood result [first, second] := by
  have hstep := step_of_brings hfirst (s := superviseSystem.init) rfl
  rw [takeBatch_report, findResult_nil] at hstep
  have hnext := step_of_brings hsecond (s := superviseSystem.init.log .duration) rfl
  rw [takeBatch_of_notMem _ hmarker hne, findResult_of_isInfix _ hkeyword] at hnext
  refine understood_of_run (s := superviseSystem.init.log .duration) ?_ rfl
  rw [TransitionSystem.run_cons_of_step hstep, TransitionSystem.run_cons_of_step hnext]
  rfl

/-! ## No other batches -/

/-- Non-empty lists that have the length of one of them are no more than that one. -/
theorem eq_singleton_of_length_le {batches : List (List UInt8)} {batch : List UInt8}
    (hne : ∀ other ∈ batches, other ≠ []) (hmem : batch ∈ batches)
    (hle : batches.flatten.length ≤ batch.length) : batches = [batch] := by
  obtain ⟨before, after, rfl⟩ := List.append_of_mem hmem
  have hempty : ∀ part : List (List UInt8), part ⊆ before ++ batch :: after →
      part.flatten.length = 0 → part = [] := by
    intro part hsub hlength
    cases part with
    | nil => rfl
    | cons first rest =>
        have hfirst := List.length_pos_of_ne_nil (hne first (hsub List.mem_cons_self))
        rw [List.flatten_cons, List.length_append] at hlength
        omega
  rw [List.flatten_append, List.flatten_cons, List.length_append, List.length_append] at hle
  rw [hempty before (List.subset_append_left _ _) (by omega), hempty after
    (fun x hx => List.mem_append_right _ (List.mem_cons_of_mem _ hx)) (by omega)]
  rfl

/-- A run whose first batch is the marker's first byte alone goes no further. -/
theorem run_marker_eq_none {first second : EpollWait} {rest : List EpollWait}
    (hfirst : Brings [markerByte] first) :
    superviseSystem.run (first :: second :: rest) superviseSystem.init = none := by
  have hstep := step_of_brings hfirst (s := superviseSystem.init) rfl
  have hexit : (superviseSystem.init.takeBatch [markerByte]).exit =
      some (.threw .outOfRange) := rfl
  rw [TransitionSystem.run_cons_of_step hstep, TransitionSystem.run_cons,
    step_of_exit hexit]
  rfl

/-- A report of which a batch is the bare result. -/
theorem batches_of_mem_result {result : List UInt8} {batches : List (List UInt8)}
    {waits : List EpollWait} {s : SuperviseState} (hmarker : markerByte ∉ result)
    (hcut : batches.flatten = report result) (hne : ∀ batch ∈ batches, batch ≠ [])
    (hbrings : List.Forall₂ Brings batches waits)
    (hrun : superviseSystem.run waits superviseSystem.init = some s) (hmem : result ∈ batches) :
    batches = [[markerByte, 0], result] := by
  cases hbrings with
  | nil => cases hmem
  | @cons first wait rest waits hfirst hrest =>
      have hfirstNe := hne first List.mem_cons_self
      obtain ⟨byte, more, rfl⟩ := List.exists_cons_of_ne_nil hfirstNe
      rw [List.flatten_cons, report, List.cons_append, List.cons_eq_cons] at hcut
      obtain ⟨rfl, hcut⟩ := hcut
      -- the first batch has the marker, so the result is another one
      have hlater : result ∈ rest := by
        rcases List.mem_cons.mp hmem with rfl | hlater
        · exact absurd List.mem_cons_self hmarker
        · exact hlater
      have hlength := congrArg List.length hcut
      obtain ⟨before, after, hsplit⟩ := List.append_of_mem hlater
      rw [hsplit, List.flatten_append, List.flatten_cons] at hlength
      simp only [List.length_append, List.length_cons] at hlength
      cases more with
      | nil =>
          cases hrest with
          | nil => cases hlater
          | cons hsecond hrest =>
              rw [run_marker_eq_none hfirst] at hrun
              cases hrun
      | cons zero more =>
          rw [List.cons_append, List.cons_eq_cons] at hcut
          obtain ⟨rfl, hcut⟩ := hcut
          have hshort : rest.flatten.length ≤ result.length := by
            rw [← hcut, List.length_append]
            exact Nat.le_add_left _ _
          have hrest := fun other hother => hne other (List.mem_cons_of_mem _ hother)
          rw [eq_singleton_of_length_le hrest hlater hshort] at hcut ⊢
          have hmore : more = [] := by
            simpa using hcut
          rw [hmore]

/-! ## The result -/

/-- **The report is understood exactly when it comes in one batch, or the marker comes
alone and the result in one batch behind it.** -/
theorem report_understood_iff (strings1 ints doubles strings2 : Fixed4)
    (batches : List (List UInt8)) (waits : List EpollWait)
    (hcut : batches.flatten = report (getValidResult strings1 ints doubles strings2))
    (hne : ∀ batch ∈ batches, batch ≠ []) (hbrings : List.Forall₂ Brings batches waits) :
    Understood (getValidResult strings1 ints doubles strings2) waits ↔
      batches = [report (getValidResult strings1 ints doubles strings2)] ∨
        batches = [[markerByte, 0], getValidResult strings1 ints doubles strings2] := by
  have hmarker := marker_notMem_getValidResult strings1 ints doubles strings2
  have hkeyword := keyword_isInfix_getValidResult strings1 ints doubles strings2
  generalize getValidResult strings1 ints doubles strings2 = result at *
  have hresult : result ≠ [] := by
    rintro rfl
    exact absurd (List.infix_nil.mp hkeyword) (by decide)
  constructor
  · rintro ⟨s, hrun, -, -, hreported⟩
    rcases validString_mem_run hbrings hrun hreported with hold | ⟨batch, hbatch, htext⟩
    · cases hold
    · unfold textOf at htext
      split at htext
      · -- the result is what the marker's two bytes leave of the batch
        have hpos := List.length_pos_of_ne_nil hresult
        have hlength := congrArg List.length htext
        rw [List.length_drop] at hlength
        have hwhole : batches = [batch] := eq_singleton_of_length_le hne hbatch (by
          rw [hcut, report, List.length_cons, List.length_cons]
          omega)
        rw [hwhole, List.flatten_singleton] at hcut
        rw [hwhole, hcut]
        exact Or.inl rfl
      · exact Or.inr (batches_of_mem_result hmarker hcut hne hbrings hrun (htext ▸ hbatch))
  · rintro (rfl | rfl)
    · obtain ⟨wait, rfl, hwait⟩ : ∃ wait, waits = [wait] ∧ Brings (report result) wait := by
        cases hbrings with
        | cons hfirst hrest =>
            cases hrest
            exact ⟨_, rfl, hfirst⟩
      exact understood_whole hkeyword hwait
    · cases hbrings with
      | cons hfirst hrest =>
          cases hrest with
          | cons hsecond hrest =>
              cases hrest
              exact understood_split hmarker hresult hkeyword hfirst hsecond

/-- `0.0000`. -/
def zero4 : Fixed4 := .finite false 0 0

/-- The averages of an empty file, in one batch. -/
theorem report_understood_zero :
    Understood (getValidResult zero4 zero4 zero4 zero4)
      [.active [.readable [.data (report (getValidResult zero4 zero4 zero4 zero4)), .eagain]]] := by
  refine (report_understood_iff zero4 zero4 zero4 zero4
    [report (getValidResult zero4 zero4 zero4 zero4)] _ (List.flatten_singleton) ?_ ?_).mpr
      (Or.inl rfl)
  · rintro batch hbatch rfl
    cases hbatch with
    | tail _ hbatch => cases hbatch
  · exact List.Forall₂.cons (brings_data (List.cons_ne_nil _ _) (by decide)) List.Forall₂.nil

/-- The same report, cut behind the `E`. -/
theorem report_misunderstood :
    ¬ ∀ (batches : List (List UInt8)) (waits : List EpollWait),
      batches.flatten = report (getValidResult zero4 zero4 zero4 zero4) →
        (∀ batch ∈ batches, batch ≠ []) → List.Forall₂ Brings batches waits →
          Understood (getValidResult zero4 zero4 zero4 zero4) waits := by
  intro hall
  have hfirst := brings_data (show [markerByte] ≠ [] from List.cons_ne_nil _ _) (by decide)
  have hsecond := brings_data
    (show 0 :: getValidResult zero4 zero4 zero4 zero4 ≠ [] from List.cons_ne_nil _ _) (by decide)
  obtain ⟨s, hrun, -⟩ := hall [[markerByte], 0 :: getValidResult zero4 zero4 zero4 zero4] _ rfl
    (by simp) (List.Forall₂.cons hfirst (List.Forall₂.cons hsecond List.Forall₂.nil))
  rw [run_marker_eq_none hfirst] at hrun
  cases hrun

end SliceTransfer
