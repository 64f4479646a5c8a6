import FeatureFile.Document.Reading
/-!
Events as the tree holds them: names and comments trimmed, descriptions without their layout. An
assembly makes no difference between two events of the same normal form.
-/

namespace FeatureFile

/-- The header with its name trimmed and its description without layout. -/
def Header.normal (h : Header) : Header :=
  { h with name := h.name.trim, description := normalizeDescription h.description }

/-- The event as the tree holds it. -/
def Event.normal : Event → Event
  | comment text line => comment text.trim line
  | tag name line => tag name line
  | header kind h => header kind h.normal
  | step keyword name line => step keyword name.trim line
  | row cells line => row cells line
  | docString content line => docString content line
  | endOfInput line => endOfInput line

namespace Assembly

private theorem acceptHeader_congr (a : Assembly) (kind : SectionKind) {g h : Header}
    (same : g.normal = h.normal) : a.acceptHeader kind g = a.acceptHeader kind h := by
  obtain ⟨keyword, name, description, line⟩ := g
  obtain ⟨keyword', name', description', line'⟩ := h
  simp only [Header.normal, Header.mk.injEq] at same
  obtain ⟨rfl, sameName, sameDescription, rfl⟩ := same
  cases kind <;>
    simp only [acceptHeader, acceptFeature, acceptBackground, acceptScenario, acceptOutline,
      acceptExamples, sameName, sameDescription]

/-- Events of one normal form meet with the same. -/
theorem accept_congr (a : Assembly) {d e : Event} (same : d.normal = e.normal) :
    a.accept d = a.accept e := by
  cases d <;> cases e <;> simp only [Event.normal, reduceCtorEq] at same
  case comment.comment =>
    obtain ⟨sameText, rfl⟩ := Event.comment.inj same
    simp only [accept, sameText]
  case header.header =>
    obtain ⟨rfl, sameHeader⟩ := Event.header.inj same
    exact a.acceptHeader_congr _ sameHeader
  case step.step =>
    obtain ⟨rfl, sameName, rfl⟩ := Event.step.inj same
    simp only [accept, acceptStep, sameName]
  all_goals rw [same]

/-- Sequences of events with the same normal forms are delivered with the same result. -/
theorem deliver_congr (a : Assembly) {first second : List Event}
    (same : first.map Event.normal = second.map Event.normal) :
    deliver listen a first = deliver listen a second := by
  induction first generalizing a second with
  | nil =>
    obtain rfl : second = [] := by simpa using same.symm
    rfl
  | cons d first ih =>
    cases second with
    | nil => simp at same
    | cons e second =>
      obtain ⟨sameEvent, sameRest⟩ := List.cons.inj same
      have listens : a.listen d = a.listen e := by
        simp only [listen, a.accept_congr sameEvent]
      simp only [deliver, listens]
      cases a.listen e with
      | ok next => exact ih next sameRest
      | error fault => rfl

end Assembly

end FeatureFile
