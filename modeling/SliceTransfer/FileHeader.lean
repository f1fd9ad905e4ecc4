import SliceTransfer.Receiver.Reassembly

/-!
# The file header: sender against receiver

`headerText` is the text `SendFileSizeOnly` builds; the receiver reads at most
`kFileSliceHeaderLen + 1` bytes of it and parses what it got.  A prefix of the text
has one of three effects, by where the cut falls:

* before or at the `#` (`processHeader_take_size`): the text is refused;
* right behind the `#` (`processHeader_take_mark`): `stoul` throws;
* among the digits of the count (`processHeader_take_count`): the header is accepted,
  with a count that lacks its last digits.

So the round trip succeeds exactly when the two numbers have at most 15 digits
together (`header_roundTrip_iff`).
-/

namespace SliceTransfer

open Server Decimal

/-- The text `SendFileSizeOnly` builds. -/
def headerText (fileSize slicesNum : ℕ) : List UInt8 :=
  [83] ++ decimal fileSize ++ [35] ++ decimal slicesNum

theorem length_headerText (fileSize slicesNum : ℕ) :
    (headerText fileSize slicesNum).length =
      (decimal fileSize).length + (decimal slicesNum).length + 2 := by
  simp only [headerText, List.length_append, List.length_singleton]
  omega

/-! ## Parsing a prefix of the text -/

private theorem mark_notMem_decimal (n : ℕ) : (35 : UInt8) ∉ decimal n := by
  intro hmem
  exact absurd (isDigit_of_mem_decimal hmem) (by decide)

theorem headerParts_of_notMem {text : List UInt8} (hmark : (35 : UInt8) ∉ text) :
    headerParts text = none := by
  have hfind : text.findIdx (fun byte => byte = 35) = text.length := by
    rw [List.findIdx_eq_length]
    intro byte hbyte
    exact decide_eq_false fun heq => hmark (heq ▸ hbyte)
  unfold headerParts
  simp [hfind]

theorem headerParts_marked {sizeText : List UInt8} (numText : List UInt8)
    (hmark : (35 : UInt8) ∉ sizeText) :
    headerParts ([83] ++ sizeText ++ [35] ++ numText) = some (sizeText, numText) := by
  have hfind : ([83] ++ sizeText ++ [35] ++ numText).findIdx (fun byte => byte = 35) =
      sizeText.length + 1 := by
    have hsize : sizeText.findIdx (fun byte => byte = 35) = sizeText.length := by
      rw [List.findIdx_eq_length]
      intro byte hbyte
      exact decide_eq_false fun heq => hmark (heq ▸ hbyte)
    simp [List.findIdx_cons, List.findIdx_append, hsize]
  unfold headerParts
  rw [hfind]
  simp

section Prefix

variable {fileSize slicesNum : ℕ} (g : Globals)

private theorem take_headerText_size {k : ℕ} (hk : k ≤ (decimal fileSize).length + 1) :
    (headerText fileSize slicesNum).take k = ([83] ++ decimal fileSize).take k := by
  have hlen : k ≤ ([83] ++ decimal fileSize).length := by
    rw [List.length_append, List.length_singleton]
    omega
  rw [headerText, List.append_assoc ([83] ++ decimal fileSize),
    List.take_append_of_le_length hlen]

private theorem take_headerText_count (fileSize slicesNum m : ℕ) :
    (headerText fileSize slicesNum).take ((decimal fileSize).length + 2 + m) =
      [83] ++ decimal fileSize ++ [35] ++ (decimal slicesNum).take m := by
  have hlen : ([83] ++ decimal fileSize ++ [35]).length = (decimal fileSize).length + 2 := by
    simp only [List.length_append, List.length_singleton]
    omega
  rw [headerText, ← hlen, List.take_length_add_append]

/-- The cut falls before or at the `#`. -/
theorem processHeader_take_size {k : ℕ} (hk : k ≤ (decimal fileSize).length + 1) :
    processHeader ((headerText fileSize slicesNum).take k) g = (g, .returned (-1)) := by
  have hmark : (35 : UInt8) ∉ (headerText fileSize slicesNum).take k := by
    rw [take_headerText_size hk]
    intro hmem
    rcases List.mem_append.mp (List.mem_of_mem_take hmem) with hhead | hdigit
    · exact absurd hhead (by decide)
    · exact mark_notMem_decimal fileSize hdigit
  rw [processHeader, headerParts_of_notMem hmark]

/-- The cut falls right behind the `#`: there is no number left to convert. -/
theorem processHeader_take_mark (hsize : fileSize < 2 ^ 64) :
    processHeader ((headerText fileSize slicesNum).take ((decimal fileSize).length + 2)) g =
      ({ g with fileSize := fileSize }, .threw .invalidArgument) := by
  have htake := take_headerText_count fileSize slicesNum 0
  rw [Nat.add_zero, List.take_zero] at htake
  rw [processHeader, htake, headerParts_marked [] (mark_notMem_decimal fileSize)]
  simp [storeHeader, headerStages, HeaderStage.apply, stoul_decimal hsize, stoul_nil]

/-- What is left of the count when only `m` of its digits are read. -/
def countPrefix (slicesNum m : ℕ) : ℕ := slicesNum / 10 ^ ((decimal slicesNum).length - m)

theorem countPrefix_pos {m : ℕ} (hpos : 1 ≤ slicesNum) (hm : 1 ≤ m) :
    1 ≤ countPrefix slicesNum m := by
  have hten : 0 < 10 ^ ((decimal slicesNum).length - m) := Nat.pow_pos (by omega)
  rw [countPrefix, Nat.le_div_iff_mul_le hten, Nat.one_mul]
  by_cases hlong : 1 < (decimal slicesNum).length
  · calc 10 ^ ((decimal slicesNum).length - m) ≤ 10 ^ ((decimal slicesNum).length - 1) :=
          Nat.pow_le_pow_right (by omega) (by omega)
      _ ≤ slicesNum := pow_length_decimal_le hlong
  · have hzero : (decimal slicesNum).length - m = 0 := by omega
    rw [hzero, Nat.pow_zero]
    exact hpos

theorem countPrefix_le (m : ℕ) : countPrefix slicesNum m ≤ slicesNum := Nat.div_le_self _ _

/-- Every missing digit shows. -/
theorem countPrefix_lt {m : ℕ} (hpos : 1 ≤ slicesNum) (hm : m < (decimal slicesNum).length) :
    countPrefix slicesNum m < slicesNum := by
  apply Nat.div_lt_self hpos
  exact Nat.one_lt_pow (by omega) (by omega)

@[simp] theorem countPrefix_length : countPrefix slicesNum (decimal slicesNum).length =
    slicesNum := by
  rw [countPrefix, Nat.sub_self, Nat.pow_zero, Nat.div_one]

theorem stoul_take_decimal {m : ℕ} (hlt : slicesNum < 2 ^ 64) (hm : 1 ≤ m)
    (hle : m ≤ (decimal slicesNum).length) :
    stoul ((decimal slicesNum).take m) = .ok (countPrefix slicesNum m) := by
  have hvalue : decimalValue ((decimal slicesNum).take m) = countPrefix slicesNum m := by
    have h := decimalValue_take_decimal (n := slicesNum)
      (Nat.sub_le (decimal slicesNum).length m)
    rwa [Nat.sub_sub_self hle] at h
  have hne : (decimal slicesNum).take m ≠ [] := by
    intro hnil
    have hlen := congrArg List.length hnil
    rw [List.length_take, List.length_nil] at hlen
    omega
  rw [← hvalue]
  refine stoul_of_digits hne (fun byte hbyte => ?_) ?_
  · exact isDigit_of_mem_decimal (List.mem_of_mem_take hbyte)
  · rw [hvalue]
    exact (countPrefix_le m).trans_lt hlt

/-- The cut falls among the digits of the count, or behind them. -/
theorem processHeader_take_count {m : ℕ} (hsize : fileSize < 2 ^ 64) (hpos : 1 ≤ slicesNum)
    (hnum : slicesNum < 2 ^ 32) (hm : 1 ≤ m) (hle : m ≤ (decimal slicesNum).length) :
    processHeader ((headerText fileSize slicesNum).take ((decimal fileSize).length + 2 + m)) g =
      (recordHeader fileSize (countPrefix slicesNum m) g, .returned 0) := by
  have hone := countPrefix_pos hpos hm
  have hcount : uint32 (countPrefix slicesNum m) = countPrefix slicesNum m :=
    uint32_natCast ((countPrefix_le m).trans_lt hnum)
  have hstore := storeHeader_of_stoul g (stoul_decimal hsize)
    (stoul_take_decimal (hnum.trans (by decide)) hm hle) (by omega)
  rw [processHeader, take_headerText_count, headerParts_marked _ (mark_notMem_decimal fileSize)]
  rw [hcount] at hstore
  exact hstore

/-- The whole text. -/
theorem processHeader_headerText (hsize : fileSize < 2 ^ 64) (hpos : 1 ≤ slicesNum)
    (hnum : slicesNum < 2 ^ 32) :
    processHeader (headerText fileSize slicesNum) g =
      (recordHeader fileSize slicesNum g, .returned 0) := by
  have hlen : 1 ≤ (decimal slicesNum).length :=
    List.length_pos_of_ne_nil (decimal_ne_nil slicesNum)
  have h := processHeader_take_count g hsize hpos hnum hlen (le_refl _)
  rwa [countPrefix_length, List.take_of_length_le (by rw [length_headerText]; omega)] at h

/-- Where the cut can fall in a strict prefix. -/
theorem prefix_cases {k : ℕ} (hk : k < (headerText fileSize slicesNum).length) :
    k ≤ (decimal fileSize).length + 1 ∨ k = (decimal fileSize).length + 2 ∨
      ∃ m, 1 ≤ m ∧ m < (decimal slicesNum).length ∧ k = (decimal fileSize).length + 2 + m := by
  rw [length_headerText] at hk
  by_cases hsize : k ≤ (decimal fileSize).length + 1
  · exact Or.inl hsize
  by_cases hmark : k = (decimal fileSize).length + 2
  · exact Or.inr (Or.inl hmark)
  · exact Or.inr (Or.inr ⟨k - ((decimal fileSize).length + 2), by omega, by omega, by omega⟩)

/-- A strict prefix never yields the announced count. -/
theorem slicesNum_processHeader_take_ne {k : ℕ} (hsize : fileSize < 2 ^ 64)
    (hpos : 1 ≤ slicesNum) (hnum : slicesNum < 2 ^ 32) (hfresh : g.slicesNum = 0)
    (hk : k < (headerText fileSize slicesNum).length) :
    (processHeader ((headerText fileSize slicesNum).take k) g).1.slicesNum ≠ slicesNum := by
  rcases prefix_cases hk with hcut | rfl | ⟨m, hm, hlt, rfl⟩
  · rw [processHeader_take_size g hcut, hfresh]
    omega
  · rw [processHeader_take_mark g hsize]
    change g.slicesNum ≠ slicesNum
    omega
  · rw [processHeader_take_count g hsize hpos hnum hm hlt.le]
    exact (countPrefix_lt hpos hlt).ne

end Prefix

/-! ## The header read -/

theorem expectsHeader_initial : Globals.initial.expectsHeader = true := rfl

/-- A first read on a fresh receiver hands what it got to the header branch. -/
theorem receive_header {g : Globals} {event : RecvEvent} {r : StepResult} {piece : List UInt8}
    (hfresh : g.expectsHeader = true) (hdelivers : Delivers piece event)
    (hr : receive g {} event = some r) :
    piece.length ≤ kFileSliceHeaderLen + 1 ∧
      r.globals = (processHeader piece { g with readsMaxBytes := kFileSliceHeaderLen + 1 }).1 ∧
      r.status =
        .exited (processHeader piece { g with readsMaxBytes := kFileSliceHeaderLen + 1 }).2 := by
  have hbegin : beginRead g {} =
      .ok ({ g with readsMaxBytes := kFileSliceHeaderLen + 1 }, kFileSliceHeaderLen + 1) := by
    simp [beginRead, hfresh]
  obtain ⟨hlen, stale, hglobals, hstatus, -⟩ := receive_delivers hdelivers hr hbegin
  have hstill : Globals.expectsHeader { g with readsMaxBytes := kFileSliceHeaderLen + 1 } = true :=
    hfresh
  have hafter : afterRead { g with readsMaxBytes := kFileSliceHeaderLen + 1 } {} stale
      ⟨piece, false⟩ = headerBranch { g with readsMaxBytes := kFileSliceHeaderLen + 1 } piece := by
    simp only [afterRead, hstill, Bool.false_eq_true, if_false, if_true]
  rw [hafter] at hglobals hstatus
  exact ⟨hlen, hglobals, hstatus⟩

/-! ## The round trip -/

/-- **What the receiver parses from its first read is what the sender announced
exactly when the two numbers have at most 15 digits together.** -/
theorem header_roundTrip_iff (fileSize slicesNum : ℕ) (event : RecvEvent) (r : StepResult)
    (_hsizePos : 1 ≤ fileSize) (hsize : fileSize < 2 ^ 63) (hpos : 1 ≤ slicesNum)
    (hnum : slicesNum ≤ 65535)
    (hdelivers : Delivers ((headerText fileSize slicesNum).take (kFileSliceHeaderLen + 1)) event)
    (hr : receive Globals.initial {} event = some r) :
    r.globals.fileSize = fileSize ∧ r.globals.slicesNum = slicesNum ↔
      (decimal fileSize).length + (decimal slicesNum).length ≤ 15 := by
  obtain ⟨-, hglobals, -⟩ := receive_header expectsHeader_initial hdelivers hr
  have hlen := length_headerText fileSize slicesNum
  have hbudget : kFileSliceHeaderLen = 16 := rfl
  rw [hglobals]
  constructor
  · rintro ⟨-, hcount⟩
    by_contra hlong
    exact slicesNum_processHeader_take_ne _ (by omega) hpos (by omega) rfl (by omega) hcount
  · intro hshort
    rw [List.take_of_length_le (by omega), processHeader_headerText _ (by omega) hpos (by omega)]
    exact ⟨rfl, rfl⟩

/-- Any text that fits the budget can be the first read of a fresh receiver. -/
theorem exists_header_read (text : List UInt8)
    (hfits : text.length ≤ kFileSliceHeaderLen + 1) :
    ∃ event r, Delivers text event ∧ receive Globals.initial {} event = some r := by
  have hbegin : beginRead Globals.initial {} =
      .ok ({ Globals.initial with readsMaxBytes := kFileSliceHeaderLen + 1 },
        kFileSliceHeaderLen + 1) := rfl
  obtain ⟨r, hr⟩ := receive_arrival hbegin hfits
  exact ⟨_, r, delivers_arrival _ text, hr⟩

/-- A file of ten bytes in two slices. -/
theorem header_roundTrip_short :
    ∃ event r, Delivers ((headerText 10 2).take (kFileSliceHeaderLen + 1)) event ∧
      receive Globals.initial {} event = some r ∧
      r.globals.fileSize = 10 ∧ r.globals.slicesNum = 2 := by
  obtain ⟨event, r, hdelivers, hr⟩ :=
    exists_header_read ((headerText 10 2).take (kFileSliceHeaderLen + 1)) (by decide)
  exact ⟨event, r, hdelivers, hr, (header_roundTrip_iff 10 2 event r (by decide) (by decide)
    (by decide) (by decide) hdelivers hr).mpr (by decide)⟩

/-- A file of 14 digits in ten slices: the text has 18 bytes and its last digit is lost. -/
theorem header_roundTrip_truncated :
    ∃ event r, Delivers ((headerText 99999999999999 10).take (kFileSliceHeaderLen + 1)) event ∧
      receive Globals.initial {} event = some r ∧
      ¬ (r.globals.fileSize = 99999999999999 ∧ r.globals.slicesNum = 10) := by
  obtain ⟨event, r, hdelivers, hr⟩ := exists_header_read
    ((headerText 99999999999999 10).take (kFileSliceHeaderLen + 1)) (List.length_take_le _ _)
  obtain ⟨-, hglobals, -⟩ := receive_header expectsHeader_initial hdelivers hr
  refine ⟨event, r, hdelivers, hr, ?_⟩
  rintro ⟨-, hcount⟩
  rw [hglobals] at hcount
  exact slicesNum_processHeader_take_ne _ (by decide) (by decide) (by decide) rfl (by decide) hcount

end SliceTransfer
