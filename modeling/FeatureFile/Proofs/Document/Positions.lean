import FeatureFile.Document.Reading
import FeatureFile.Text.Lines
import Mathlib.Data.List.Basic
/-!
The lines that faults are reported for. An assembly refuses an event for the line of the event, or for the
line on which the section was opened that it would leave incomplete; so no fault lies behind the last line
that was read.
-/

namespace FeatureFile

/-- A line that fits in 32 bits is shown as it is counted. -/
theorem LineCol.lineOneIndexed_ofNat {line : Nat} (fits : line < UInt32.size) (col : Nat) :
    (ofNat line col).lineOneIndexed = max 1 line := by
  have kept : (UInt32.ofNat line).toNat = line := UInt32.toNat_ofNat_of_lt fits
  unfold lineOneIndexed ofNat ofOneIndexed fromOne
  split
  next zero =>
    rw [zero] at kept
    simp [← kept]
  next some =>
    have positive : line ≠ 0 := by
      rintro rfl
      exact some rfl
    have one : (1 : UInt32) ≤ UInt32.ofNat line := by
      rw [UInt32.le_iff_toNat_le, kept]
      exact Nat.one_le_iff_ne_zero.mpr positive
    rw [UInt32.toNat_sub_of_le _ _ one, kept]
    change line - 1 + 1 = _
    omega

/-- The error names the document, and a line of it or the one behind the last. -/
structure DocumentError.Within (path : String) (source : Text) (error : DocumentError) : Prop where
  path : error.path = path
  position : ∃ position, error.position = some position ∧
    1 ≤ position.lineOneIndexed ∧ position.lineOneIndexed ≤ source.lines.length + 1

theorem Fault.within_toError {source : Text} (short : source.endLine < UInt32.size) {fault : Fault}
    (shown : fault.line ≤ source.endLine) {path : String} : (fault.toError path).Within path source := by
  refine ⟨rfl, _, rfl, Nat.succ_pos _, ?_⟩
  rw [Text.endLine] at shown short
  rw [LineCol.lineOneIndexed_ofNat (by omega)]
  omega

/-- What follows an outcome is bounded by the line. -/
def Outcome.Within (last : Nat) : Outcome → Prop
  | accepted after => after.opened ≤ last
  | refused fault _ => fault.line ≤ last

namespace Assembly

variable {a : Assembly} {last : Nat}

/-- What a section lacks is reported for the line that opened it. -/
theorem line_closing? {next : Section} {fault : Fault} (lacks : a.closing? next = some fault) :
    fault.line = a.opened := by
  unfold closing? at lacks
  split at lacks
  · split at lacks <;> cases lacks
    rfl
  · split at lacks <;> cases lacks
    rfl
  · cases lacks

section

variable (opened : a.opened ≤ last)
include opened

private theorem closing?_within {next : Section} {fault : Fault} (lacks : a.closing? next = some fault) :
    fault.line ≤ last := by
  rw [line_closing? lacks]
  exact opened

private theorem acceptElement_within (kind : SectionKind) (next : Section) {line : Nat}
    (shown : line ≤ last) (element : Element) : (a.acceptElement kind next line element).Within last := by
  unfold acceptElement
  split
  · exact shown
  · split
    next lacks => exact closing?_within opened lacks
    · exact shown

private theorem acceptHeader_within (kind : SectionKind) {h : Header} (shown : h.line ≤ last) :
    (a.acceptHeader kind h).Within last := by
  -- Where the header is taken, its own line is the one that the new section was opened on.
  cases kind with
  | feature =>
    simp only [acceptHeader, acceptFeature]
    split
    · exact shown
    · split
      next lacks => exact closing?_within opened lacks
      · exact shown
  | background =>
    simp only [acceptHeader, acceptBackground]
    split
    · exact shown
    · split
      · exact shown
      · split
        · exact shown
        · split
          next lacks => exact closing?_within opened lacks
          · exact shown
  | scenario => exact acceptElement_within opened _ _ shown _
  | outline => exact acceptElement_within opened _ _ shown _
  | examples =>
    simp only [acceptHeader, acceptExamples]
    split
    · exact shown
    · split
      next lacks => exact closing?_within opened lacks
      · split
        · exact shown
        · split <;> exact shown

/-- One event. -/
theorem accept_within {event : Event} (known : event.line ≤ last) : (a.accept event).Within last := by
  cases event with
  | comment | tag => exact opened
  | header kind h => exact acceptHeader_within opened kind known
  | step =>
    simp only [accept, acceptStep]
    split
    · exact known
    · split
      · exact known
      · exact opened
  | row =>
    simp only [accept, acceptRow]
    split
    · exact opened
    · split
      · exact known
      · split
        · exact opened
        · exact opened
        · exact known
  | docString =>
    simp only [accept, acceptDocString]
    split
    · exact opened
    · exact known
  | endOfInput =>
    simp only [accept, acceptEnd]
    split
    · exact known
    · split
      · exact opened
      · split
        next lacks => exact closing?_within opened lacks
        · exact opened

end

/-- A delivery fails within the lines of its events. -/
theorem deliver_within (opened : a.opened ≤ last) {events : List Event}
    (known : ∀ event ∈ events, event.line ≤ last) {b : Assembly} {fault : Fault}
    (failed : deliver listen a events = (b, some fault)) : fault.line ≤ last := by
  induction events generalizing a with
  | nil => cases failed
  | cons event events ih =>
    obtain ⟨first, others⟩ := List.forall_mem_cons.mp known
    have within := accept_within opened first
    rw [deliver, listen] at failed
    cases done : a.accept event with
    | accepted next =>
      rw [done] at failed within
      exact ih within others failed
    | refused refusal next =>
      rw [done] at failed within
      cases failed
      exact within

end Assembly

/-- Nothing in the reading lies behind the line. -/
structure Reading.Within (last : Nat) (reading : Reading) : Prop where
  events : ∀ event ∈ reading.events, event.line ≤ last
  fault : ∀ fault, reading.fault = some fault → fault.line ≤ last

theorem Reading.Within.line_le {last : Nat} {reading : Reading} (within : reading.Within last)
    {filter : Filter} {fault : Fault} (failed : reading.tree filter = .error fault) :
    fault.line ≤ last := by
  unfold tree deliver at failed
  cases delivered : FeatureFile.deliver Assembly.listen (.start filter) reading.events with
  | mk b refusal =>
    rw [delivered] at failed
    cases refusal with
    | some refusal =>
      cases failed
      exact Assembly.deliver_within (Nat.zero_le _) within.events delivered
    | none =>
      cases found : reading.fault with
      | none => simp [found] at failed
      | some own =>
        obtain rfl : own = fault := by simpa [found] using failed
        exact within.fault own found

end FeatureFile
