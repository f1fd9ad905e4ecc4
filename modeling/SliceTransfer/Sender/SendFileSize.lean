import SliceTransfer.FileHeader
import SliceTransfer.Lib.Memory

/-!
# Sending the file header

`SendFileSizeOnly` writes the text of the header in a loop.  The pointer `h` that it
writes from is taken from a temporary string, which is gone when the loop starts: what
`write` reads is whatever the memory at `h` holds by then, a parameter of the model.

A `write` that returns zero and one that fails with `EAGAIN` leave the loop, and the
function returns zero all the same.  So it announces a complete header exactly when
there is no such `write` and the memory at `h` is intact
(`sendFileSizeOnly_complete_iff`).
-/

namespace SliceTransfer.SendingFlow

open Bytes Decimal

/-! ## The loop -/

/-- How the loop is left. -/
structure HeaderEnd where
  accepted : List UInt8
  failed : Bool
  deriving DecidableEq, Repr

/-- The loop of `SendFileSizeOnly`, on the results of its calls of `write`; they have to
be exactly those it makes. -/
def writeHeader (h : ℤ → UInt8) (wSize : ℕ) :
    ℕ → List UInt8 → List WriteResult → Option HeaderEnd
  | _, _, [] => none
  | wIndex, accepted, result :: rest =>
      match result with
      | .error => if rest = [] then some ⟨accepted, true⟩ else none
      | .eintr =>
          -- `continue` goes on with the loop condition
          if 0 < subSizeT wSize wIndex then writeHeader h wSize wIndex accepted rest
          else if rest = [] then some ⟨accepted, false⟩ else none
      | .eagain => if rest = [] then some ⟨accepted, false⟩ else none
      | .accepted count =>
          if subSizeT wSize wIndex < count then none
          else if count = 0 then if rest = [] then some ⟨accepted, false⟩ else none
          else if 0 < subSizeT wSize ((wIndex + count) % 2 ^ 64) then
            writeHeader h wSize ((wIndex + count) % 2 ^ 64) (accepted ++ load h wIndex count) rest
          else if rest = [] then some ⟨accepted ++ load h wIndex count, false⟩ else none

/-- `SendFileSizeOnly`; `h` is the memory behind the pointer of that name. -/
def sendFileSizeOnly (h : ℤ → UInt8) (connected : Bool) (fileSize slicesNum : ℕ)
    (results : List WriteResult) : Option SendOutcome :=
  if connected then
    (writeHeader h (headerText fileSize slicesNum).length 0 [] results).map fun headerEnd =>
      ⟨if headerEnd.failed then -1 else 0, headerEnd.accepted⟩
  else if results = [] then some ⟨-1, []⟩ else none

/-- `SendingFlow::Init`; `zstdInit` is what `ZSTDCompressUtil::Init` returned. -/
def init (zstdInit : ℤ) (h : ℤ → UInt8) (connected : Bool) (fileSize slicesNum : ℕ)
    (results : List WriteResult) : Option SendOutcome :=
  if zstdInit ≠ 0 then
    if results = [] then some ⟨-1, []⟩ else none
  else
    (sendFileSizeOnly h connected fileSize slicesNum results).map fun outcome =>
      ⟨if outcome.returned ≠ 0 then -1 else 0, outcome.accepted⟩

/-! ## What the loop sends -/

/-- The loop gives up without an error. -/
def GivesUp (results : List WriteResult) : Prop :=
  .eagain ∈ results ∨ .accepted 0 ∈ results

theorem givesUp_cons_of_ne {result : WriteResult} {rest : List WriteResult}
    (hagain : result ≠ .eagain) (hzero : result ≠ .accepted 0) :
    GivesUp (result :: rest) ↔ GivesUp rest := by
  simp [GivesUp, hagain.symm, hzero.symm]

section Loop

variable {h : ℤ → UInt8} {wSize wIndex : ℕ} {accepted : List UInt8} {e : HeaderEnd}
  (hsize : wSize < 2 ^ 64)

include hsize in
/-- A `write` of the header, from a position inside it. -/
theorem writeHeader_accepted {count : ℕ} {rest : List WriteResult} (hle : wIndex ≤ wSize)
    (hend : writeHeader h wSize wIndex accepted (.accepted count :: rest) = some e) :
    wIndex + count ≤ wSize ∧ (count = 0 ∧ rest = [] ∧ e = ⟨accepted, false⟩ ∨
      0 < count ∧ wIndex + count < wSize ∧
        writeHeader h wSize (wIndex + count) (accepted ++ load h wIndex count) rest = some e ∨
      0 < count ∧ wIndex + count = wSize ∧ rest = [] ∧
        e = ⟨accepted ++ load h wIndex count, false⟩) := by
  rw [writeHeader, subSizeT_of_le hle hsize] at hend
  split at hend
  · cases hend
  · have hin : wIndex + count ≤ wSize := by omega
    rw [Nat.mod_eq_of_lt (show wIndex + count < 2 ^ 64 by omega), subSizeT_of_le hin hsize] at hend
    refine ⟨hin, ?_⟩
    by_cases hzero : count = 0
    · rw [if_pos hzero] at hend
      split at hend
      · cases hend
        exact Or.inl ⟨hzero, ‹rest = []›, rfl⟩
      · cases hend
    · rw [if_neg hzero] at hend
      split at hend
      · exact Or.inr (Or.inl ⟨by omega, by omega, hend⟩)
      · split at hend
        · cases hend
          exact Or.inr (Or.inr ⟨by omega, by omega, ‹rest = []›, rfl⟩)
        · cases hend

include hsize in
/-- **What the loop sends**: everything, unless it fails or gives up before the end. -/
theorem writeHeader_spec {results : List WriteResult} (hlt : wIndex < wSize)
    (hend : writeHeader h wSize wIndex accepted results = some e) :
    (e.failed ↔ .error ∈ results) ∧
      ∃ count, wIndex + count ≤ wSize ∧ e.accepted = accepted ++ load h wIndex count ∧
        (¬ e.failed → (wIndex + count < wSize ↔ GivesUp results)) := by
  induction results generalizing wIndex accepted with
  | nil => cases hend
  | cons result rest ih =>
      have hnil : accepted = accepted ++ load h wIndex 0 := (List.append_nil _).symm
      cases result with
      | error =>
          rw [writeHeader] at hend
          split at hend
          · cases hend
            exact ⟨by simp, 0, hlt.le, hnil, fun hcontra => absurd rfl hcontra⟩
          · cases hend
      | eintr =>
          rw [writeHeader, subSizeT_of_le hlt.le hsize, if_pos (by omega)] at hend
          obtain ⟨hfailed, count, hin, haccepted, hgives⟩ := ih hlt hend
          refine ⟨by simpa using hfailed, count, hin, haccepted, fun hok => ?_⟩
          rw [givesUp_cons_of_ne (by decide) (by decide)]
          exact hgives hok
      | eagain =>
          rw [writeHeader] at hend
          split at hend
          · cases hend
            have hrest : rest = [] := ‹_›
            exact ⟨by simp [hrest], 0, hlt.le, hnil, fun _ => iff_of_true hlt (Or.inl (by simp))⟩
          · cases hend
      | accepted count =>
          obtain ⟨hin, hcases⟩ := writeHeader_accepted hsize hlt.le hend
          have hcons : 0 < count → (GivesUp (.accepted count :: rest) ↔ GivesUp rest) := by
            intro hpos
            apply givesUp_cons_of_ne
            · exact fun hcontra => by cases hcontra
            · exact fun hcontra => hpos.ne' (by cases hcontra; rfl)
          rcases hcases with ⟨rfl, rfl, rfl⟩ | ⟨hpos, hbelow, hrest⟩ | ⟨hpos, hall, rfl, rfl⟩
          · exact ⟨by simp, 0, hlt.le, hnil, fun _ => iff_of_true hlt (Or.inr (by simp))⟩
          · obtain ⟨hfailed, more, hmore, haccepted, hgives⟩ := ih hbelow hrest
            refine ⟨by simpa using hfailed, count + more, by omega, ?_, fun hok => ?_⟩
            · rw [haccepted, Nat.cast_add, List.append_assoc, load_append]
            · rw [hcons hpos, ← hgives hok, Nat.add_assoc]
          · refine ⟨by simp, count, hin, rfl, fun _ => ?_⟩
            rw [hcons hpos]
            exact iff_of_false (by omega) (by simp [GivesUp])

end Loop

/-! ## The result -/

/-- Zero is returned only for the complete text, by `SendFileSizeOnly` and by the `Init`
that calls it. -/
structure Complete (h : ℤ → UInt8) (connected : Bool) (fileSize slicesNum : ℕ)
    (results : List WriteResult) : Prop where
  sendFileSizeOnly : ∀ outcome,
    sendFileSizeOnly h connected fileSize slicesNum results = some outcome →
      outcome.returned = 0 → outcome.accepted = headerText fileSize slicesNum
  init : ∀ zstdInit outcome,
    init zstdInit h connected fileSize slicesNum results = some outcome →
      outcome.returned = 0 → outcome.accepted = headerText fileSize slicesNum

/-- `Init` returns zero only if `SendFileSizeOnly` does, for the same bytes. -/
theorem sendFileSizeOnly_of_init {zstdInit : ℤ} {h : ℤ → UInt8} {connected : Bool}
    {fileSize slicesNum : ℕ} {results : List WriteResult} {outcome : SendOutcome}
    (hinit : init zstdInit h connected fileSize slicesNum results = some outcome)
    (hzero : outcome.returned = 0) :
    sendFileSizeOnly h connected fileSize slicesNum results = some outcome := by
  rw [SendingFlow.init] at hinit
  split at hinit
  · split at hinit
    · cases hinit
      cases hzero
    · cases hinit
  · obtain ⟨sent, hsent, rfl⟩ := Option.map_eq_some_iff.mp hinit
    dsimp only at hzero ⊢
    split at hzero
    · cases hzero
    · rename_i hreturned
      rw [not_not] at hreturned
      rw [hsent, if_neg (not_not.mpr hreturned), ← hreturned]

theorem length_headerText_lt {fileSize slicesNum : ℕ} (hfile : fileSize < 2 ^ 64)
    (hslices : slicesNum < 2 ^ 16) :
    0 < (headerText fileSize slicesNum).length ∧
      (headerText fileSize slicesNum).length < 2 ^ 64 := by
  have hsize : (decimal fileSize).length ≤ 20 :=
    (length_decimal_le_iff (by decide)).mpr (hfile.trans (by decide))
  have hnum : (decimal slicesNum).length ≤ 20 :=
    (length_decimal_le_iff (by decide)).mpr (hslices.trans (by decide))
  rw [length_headerText]
  omega

/-- Success means a complete header for `Init` if it does for `SendFileSizeOnly`. -/
theorem complete_iff {h : ℤ → UInt8} {connected : Bool} {fileSize slicesNum : ℕ}
    {results : List WriteResult} {outcome : SendOutcome}
    (hsend : sendFileSizeOnly h connected fileSize slicesNum results = some outcome) :
    Complete h connected fileSize slicesNum results ↔
      (outcome.returned = 0 → outcome.accepted = headerText fileSize slicesNum) := by
  constructor
  · intro complete
    exact complete.sendFileSizeOnly outcome hsend
  · intro hcomplete
    have hsame : ∀ other, sendFileSizeOnly h connected fileSize slicesNum results = some other →
        other.returned = 0 → other.accepted = headerText fileSize slicesNum := by
      intro other hother
      obtain rfl : outcome = other := Option.some_inj.mp (hsend.symm.trans hother)
      exact hcomplete
    exact ⟨hsame, fun zstdInit other hinit hzero =>
      hsame other (sendFileSizeOnly_of_init hinit hzero) hzero⟩

/-- **Success means a complete header exactly when a `write` fails, or none gives up and
the memory behind the pointer still holds the text.** -/
theorem sendFileSizeOnly_complete_iff (h : ℤ → UInt8) (connected : Bool) (fileSize slicesNum : ℕ)
    (results : List WriteResult) (outcome : SendOutcome) (hfile : fileSize < 2 ^ 64)
    (hslices : slicesNum < 2 ^ 16)
    (hsend : sendFileSizeOnly h connected fileSize slicesNum results = some outcome) :
    Complete h connected fileSize slicesNum results ↔
      (connected → .error ∈ results ∨ ¬ GivesUp results ∧
        load h 0 (headerText fileSize slicesNum).length = headerText fileSize slicesNum) := by
  have hminus : ¬ ((-1 : ℤ) = 0) := by decide
  rw [complete_iff hsend]
  cases connected with
  | false =>
      rw [sendFileSizeOnly] at hsend
      simp only [Bool.false_eq_true, if_false] at hsend
      split at hsend
      · cases hsend
        exact iff_of_true (fun hzero => absurd hzero hminus) (fun hcontra => by cases hcontra)
      · cases hsend
  | true =>
      obtain ⟨hpos, hsize⟩ := length_headerText_lt hfile hslices
      obtain ⟨e, hloop, rfl⟩ := Option.map_eq_some_iff.mp hsend
      obtain ⟨hfailed, count, hin, haccepted, hgives⟩ := writeHeader_spec hsize hpos hloop
      simp only [true_imp_iff]
      by_cases hfail : e.failed
      · rw [if_pos hfail]
        exact iff_of_true (fun hzero => absurd hzero hminus) (Or.inl (hfailed.mp hfail))
      · have hnone : .error ∉ results := mt hfailed.mpr hfail
        rw [if_neg hfail, or_iff_right hnone, ← hgives hfail]
        rw [List.nil_append, Nat.cast_zero] at haccepted
        rw [Nat.zero_add] at hin
        simp only [true_imp_iff, haccepted, Nat.zero_add]
        constructor
        · intro heq
          have hlength := congrArg List.length heq
          rw [length_load] at hlength
          rw [← hlength]
          exact ⟨lt_irrefl _, hlength ▸ heq⟩
        · rintro ⟨hall, hheld⟩
          obtain rfl : count = (headerText fileSize slicesNum).length := by omega
          exact hheld

/-- A header of four bytes, accepted in two pieces with an `EINTR` in between. -/
theorem sendFileSizeOnly_complete_small :
    Complete (placed (headerText 7 1) fun _ => 0) true 7 1 [.accepted 3, .eintr, .accepted 1] :=
  (sendFileSizeOnly_complete_iff (placed (headerText 7 1) fun _ => 0) true 7 1
    [.accepted 3, .eintr, .accepted 1] ⟨0, headerText 7 1⟩ (by decide) (by decide)
    (by decide)).mpr fun _ => Or.inr (by unfold GivesUp; decide)

/-- The first `write` fails with `EAGAIN`: zero is returned and nothing was accepted. -/
theorem sendFileSizeOnly_incomplete :
    ¬ Complete (placed (headerText 7 1) fun _ => 0) true 7 1 [.eagain] := by
  intro complete
  have hempty := complete.sendFileSizeOnly ⟨0, []⟩ (by decide) rfl
  exact absurd hempty (by decide)

end SliceTransfer.SendingFlow
