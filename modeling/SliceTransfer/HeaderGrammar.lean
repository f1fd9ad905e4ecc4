import SliceTransfer.FileHeader

/-!
# The grammar of the file header

The header branch is meant to accept an `S`, a number, a `#` and a number.  It refuses
a text without the `S` or the `#` and leaves the globals alone; everything else it hands
to two calls of `stoul` and a division, behind which there is no `return -1` any more
(`storeHeader_ne_returned`).  So the branch does what it should exactly on the texts of
the grammar and on those that lack the `S` or the `#` (`headerGrammar_iff`).
-/

namespace SliceTransfer

open Server Decimal

/-- A decimal number, at least one. -/
structure IsNumber (digits : List UInt8) (value : ℕ) : Prop where
  nonempty : digits ≠ []
  allDigits : ∀ byte ∈ digits, IsDigit byte
  value_eq : decimalValue digits = value
  value_pos : 1 ≤ value

/-- `text` announces `fileSize` bytes in `slicesNum` slices. -/
def IsHeader (text : List UInt8) (fileSize slicesNum : ℕ) : Prop :=
  ∃ sizeText numText, text = [83] ++ sizeText ++ [35] ++ numText ∧ IsNumber sizeText fileSize ∧
    IsNumber numText slicesNum ∧ slicesNum < 2 ^ 32

/-- The globals that the header is recorded in. -/
def SameHeader (g g' : Globals) : Prop :=
  g'.fileSize = g.fileSize ∧ g'.slicesNum = g.slicesNum ∧ g'.splitLen = g.splitLen ∧
    g'.start = g.start

/-- The header branch accepts the grammar and refuses the rest without a trace. -/
structure ParsedCleanly (g : Globals) (text : List UInt8) (r : StepResult) : Prop where
  accepts : ∀ fileSize slicesNum, IsHeader text fileSize slicesNum →
    r.status = .exited (.returned 0) ∧ r.globals.fileSize = fileSize ∧
      r.globals.slicesNum = slicesNum ∧ r.globals.splitLen = fileSize / slicesNum
  refuses : (¬ ∃ fileSize slicesNum, IsHeader text fileSize slicesNum) →
    r.status = .exited (.returned (-1)) ∧ SameHeader g r.globals

/-! ## The texts of the grammar -/

theorem IsNumber.stoul_eq {digits : List UInt8} {value : ℕ} (h : IsNumber digits value)
    (hshort : digits.length ≤ 17) : stoul digits = .ok value := by
  have hlt : decimalValue digits < 2 ^ 64 :=
    calc decimalValue digits < 10 ^ digits.length := decimalValue_lt h.allDigits
      _ ≤ 10 ^ 17 := Nat.pow_le_pow_right (by decide) hshort
      _ < 2 ^ 64 := by decide
  rw [← h.value_eq]
  exact stoul_of_digits h.nonempty h.allDigits hlt

theorem IsNumber.mark_notMem {digits : List UInt8} {value : ℕ} (h : IsNumber digits value) :
    (35 : UInt8) ∉ digits := by
  intro hmem
  exact absurd (h.allDigits 35 hmem) (by decide)

/-- A text of the grammar is recorded. -/
theorem processHeader_of_isHeader {text : List UInt8} {fileSize slicesNum : ℕ} (g : Globals)
    (h : IsHeader text fileSize slicesNum) (hshort : text.length ≤ 17) :
    processHeader text g = (recordHeader fileSize slicesNum g, .returned 0) := by
  obtain ⟨sizeText, numText, rfl, hsize, hnum, hlt⟩ := h
  simp only [List.length_append, List.length_singleton] at hshort
  have hcount : uint32 slicesNum = slicesNum := uint32_natCast hlt
  have hpos := hnum.value_pos
  have hstore := storeHeader_of_stoul g (hsize.stoul_eq (by omega)) (hnum.stoul_eq (by omega))
    (by omega)
  rw [processHeader, headerParts_marked numText hsize.mark_notMem]
  rw [hcount] at hstore
  exact hstore

/-! ## The other texts -/

/-- The search finds the `#` of a text that has one. -/
theorem headerParts_eq_none_iff (text : List UInt8) :
    headerParts text = none ↔ text.head? ≠ some 83 ∨ (35 : UInt8) ∉ text := by
  have hfind : text.findIdx (fun byte => byte = 35) = text.length ↔ (35 : UInt8) ∉ text := by
    rw [List.findIdx_eq_length]
    constructor
    · intro h hmem
      simpa using h 35 hmem
    · intro h byte hbyte
      exact decide_eq_false fun heq => h (heq ▸ hbyte)
  unfold headerParts
  by_cases hhead : text.head? = some 83
  · rw [if_pos hhead]
    by_cases hmark : text.findIdx (fun byte => byte = 35) = text.length
    · simp only [hmark, if_true, true_iff]
      exact Or.inr (hfind.mp hmark)
    · simp only [hmark, if_false, reduceCtorEq, false_iff, not_or, not_not]
      exact ⟨hhead, not_not.mp (mt hfind.mpr hmark)⟩
  · rw [if_neg hhead]
    exact ⟨fun _ => Or.inl hhead, fun _ => rfl⟩

/-- Behind the search for the `#` the header branch never returns `-1`. -/
theorem storeHeader_ne_returned (sizeText numText : List UInt8) (stages : List HeaderStage)
    (g : Globals) : (storeHeader sizeText numText stages g).2 ≠ .returned (-1) := by
  induction stages generalizing g with
  | nil =>
      rw [storeHeader]
      simp
  | cons stage rest ih =>
      rw [storeHeader]
      cases happly : stage.apply sizeText numText g with
      | error exit => exact HeaderStage.apply_ne_returned happly (-1)
      | ok g' => exact ih g'

theorem not_isHeader_of_headerParts {text : List UInt8} (h : headerParts text = none) :
    ¬ ∃ fileSize slicesNum, IsHeader text fileSize slicesNum := by
  rintro ⟨fileSize, slicesNum, sizeText, numText, rfl, hsize, -⟩
  rw [headerParts_marked numText hsize.mark_notMem] at h
  cases h

/-! ## The result -/

/-- **The header branch accepts its grammar and refuses the rest cleanly exactly on the
texts of the grammar and on those without the leading `S` or without a `#`.** -/
theorem headerGrammar_iff (g : Globals) (text : List UInt8) (event : RecvEvent) (r : StepResult)
    (hfirst : g.expectsHeader = true) (hdelivers : Delivers text event)
    (hr : receive g {} event = some r) :
    ParsedCleanly g text r ↔ (∃ fileSize slicesNum, IsHeader text fileSize slicesNum) ∨
      text.head? ≠ some 83 ∨ (35 : UInt8) ∉ text := by
  obtain ⟨hlen, hglobals, hstatus⟩ := receive_header hfirst hdelivers hr
  have hshort : text.length ≤ 17 := hlen
  rw [← headerParts_eq_none_iff]
  constructor
  · intro hclean
    by_contra hneither
    rw [not_or] at hneither
    obtain ⟨hforeign, hparts⟩ := hneither
    obtain ⟨parts, hsome⟩ := Option.ne_none_iff_exists'.mp hparts
    have hrefused := (hclean.refuses hforeign).1
    rw [hstatus, processHeader, hsome, RecvStatus.exited.injEq] at hrefused
    exact storeHeader_ne_returned _ _ _ _ hrefused
  · rintro (⟨fileSize, slicesNum, hheader⟩ | hparts)
    · have hprocess := processHeader_of_isHeader
        { g with readsMaxBytes := kFileSliceHeaderLen + 1 } hheader hshort
      rw [hprocess] at hglobals hstatus
      refine ⟨fun fileSize' slicesNum' hother => ?_, fun hforeign => ?_⟩
      · -- the text denotes one pair only: both are what the branch stores
        have hagain := processHeader_of_isHeader
          { g with readsMaxBytes := kFileSliceHeaderLen + 1 } hother hshort
        rw [hprocess] at hagain
        rw [hglobals, congrArg Prod.fst hagain]
        exact ⟨hstatus, rfl, rfl, rfl⟩
      · exact absurd ⟨fileSize, slicesNum, hheader⟩ hforeign
    · have hprocess : processHeader text { g with readsMaxBytes := kFileSliceHeaderLen + 1 } =
          ({ g with readsMaxBytes := kFileSliceHeaderLen + 1 }, .returned (-1)) := by
        rw [processHeader, hparts]
      rw [hprocess] at hglobals hstatus
      refine ⟨fun fileSize slicesNum hheader => ?_, fun _ => ⟨hstatus, ?_⟩⟩
      · exact absurd ⟨fileSize, slicesNum, hheader⟩ (not_isHeader_of_headerParts hparts)
      · rw [hglobals]
        exact ⟨rfl, rfl, rfl, rfl⟩

private theorem isNumber_of_decimal {n : ℕ} (hn : 1 ≤ n) : IsNumber (decimal n) n :=
  ⟨decimal_ne_nil n, fun _ hmem => isDigit_of_mem_decimal hmem, decimalValue_decimal n, hn⟩

/-- The text `S10#2`. -/
theorem headerGrammar_ten : ∃ event r, Delivers (headerText 10 2) event ∧
    receive Globals.initial {} event = some r ∧
      ParsedCleanly Globals.initial (headerText 10 2) r := by
  obtain ⟨event, r, hdelivers, hr⟩ := exists_header_read (headerText 10 2) (by decide)
  have hheader : IsHeader (headerText 10 2) 10 2 :=
    ⟨decimal 10, decimal 2, rfl, isNumber_of_decimal (by decide), isNumber_of_decimal (by decide),
      by decide⟩
  exact ⟨event, r, hdelivers, hr, (headerGrammar_iff Globals.initial (headerText 10 2) event r rfl
    hdelivers hr).mpr (Or.inl ⟨10, 2, hheader⟩)⟩

/-- The text `S5#`: `stoul` throws, and `file_size_` has been overwritten. -/
theorem headerGrammar_unnumbered : ∃ event r, Delivers [83, 53, 35] event ∧
    receive Globals.initial {} event = some r ∧
      r.status = .exited (.threw .invalidArgument) ∧ r.globals.fileSize = 5 ∧
        ¬ ParsedCleanly Globals.initial [83, 53, 35] r := by
  obtain ⟨event, r, hdelivers, hr⟩ := exists_header_read [83, 53, 35] (by decide)
  obtain ⟨-, hglobals, hstatus⟩ := receive_header expectsHeader_initial hdelivers hr
  refine ⟨event, r, hdelivers, hr, hstatus, by rw [hglobals]; rfl, fun hclean => ?_⟩
  have hforeign : ¬ ∃ fileSize slicesNum, IsHeader [83, 53, 35] fileSize slicesNum := by
    rintro ⟨fileSize, slicesNum, hheader⟩
    have hagain := (hclean.accepts fileSize slicesNum hheader).1
    rw [hstatus] at hagain
    cases hagain
  have hrefused := (hclean.refuses hforeign).1
  rw [hstatus] at hrefused
  cases hrefused

end SliceTransfer
