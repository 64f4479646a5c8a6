import FeatureFile.Language.Parse
import FeatureFile.Proofs.Document.Noninterference
import Mathlib.Data.List.Basic
/-!
A filter says what is left of a tree, never whether there is one. It goes along in the assembly, which by
either way of parsing takes and refuses the same events behind every filter. So a fault is found as well in
an element that the filter drops, and parsing behind a filter is parsing with the empty one and then
filtering, whatever engine matches the document.
-/

namespace FeatureFile

variable {R : Type} [Engine R] (path : String) (filter : Filter)

/-- The mark of the language is none of what a filter looks at. -/
theorem Language.mark_map_apply (language : Language)
    (result : Except DocumentError (Option Feature)) :
    language.mark (result.map (·.map filter.apply)) =
      (language.mark result).map (·.map filter.apply) := by
  cases result with
  | error error => rfl
  | ok tree => cases tree <;> rfl

/-- The tree of a document that matches, as its events make it, and what the filter leaves of it. -/
theorem Parser.parse_eq (parser : Parser R) (source : Text) :
    parser.parse source path filter = (parser.nodes source path).bind fun nodes =>
      match (Node.reading nodes source).tree with
      | .ok tree => .ok (tree.map filter.apply)
      | .error fault => .error (fault.toError path) := by
  unfold Parser.parse
  cases parser.nodes source path with
  | error error => rfl
  | ok nodes =>
    simp only [bind, Except.bind, Reading.tree_eq_map _ filter]
    cases (Node.reading nodes source).tree <;> rfl

theorem Parser.parse_eq_map (parser : Parser R) (source : Text) :
    parser.parse source path filter =
      (parser.parse source path .empty).map (·.map filter.apply) := by
  rw [parser.parse_eq, parser.parse_eq]
  cases parser.nodes source path with
  | error error => rfl
  | ok nodes =>
    simp only [Except.bind]
    cases (Node.reading nodes source).tree with
    | error fault => rfl
    | ok tree => cases tree <;> simp [Except.map, Filter.apply_empty]

/-- The tree of a document as its lines make it, and what the filter leaves of it. -/
theorem Language.parseLines_eq (language : Language) (source : Text) :
    language.parseLines source path filter =
      match ((Vocabulary.ofLanguage language).read source).tree with
      | .ok tree => .ok (tree.map filter.apply)
      | .error fault => .error (fault.toError path) := by
  unfold Language.parseLines
  rw [Reading.tree_eq_map _ filter]
  cases ((Vocabulary.ofLanguage language).read source).tree <;> rfl

theorem Language.parseLines_eq_map (language : Language) (source : Text) :
    language.parseLines source path filter =
      (language.parseLines source path .empty).map (·.map filter.apply) := by
  rw [language.parseLines_eq, language.parseLines_eq]
  cases ((Vocabulary.ofLanguage language).read source).tree with
  | error fault => rfl
  | ok tree => cases tree <;> simp [Except.map, Filter.apply_empty]

namespace Language

/-- Parsing is parsing with the empty filter, its tree filtered. -/
theorem parseWith_eq_map (language : Language) (template : Text) (backend : Backend)
    (source : Text) :
    language.parseWith (R := R) template backend source path filter =
      (language.parseWith (R := R) template backend source path .empty).map (·.map filter.apply) := by
  cases backend with
  | lines => simp only [parseWith, parseLines_eq_map path filter, mark_map_apply]
  | grammar =>
    simp only [parseWith]
    cases Parser.compile (R := R) template language with
    | error error => rfl
    | ok parser =>
      simp only [bind, Except.bind]
      rw [parser.parse_eq_map path filter, mark_map_apply]

/-- With any engine a document has the same errors behind every filter. It has no feature behind one if it
has none without, and otherwise its feature is what the filter leaves of the whole one. -/
theorem parseWith_filter {R : Type} [Engine R] (language : Language) (template : Text) (backend : Backend)
    (source : Text) (path : String) (filter : Filter) :
    (∀ error, language.parseWith (R := R) template backend source path filter = .error error ↔
      language.parseWith (R := R) template backend source path .empty = .error error) ∧
    (language.parseWith (R := R) template backend source path filter = .ok none ↔
      language.parseWith (R := R) template backend source path .empty = .ok none) ∧
    ∀ feature, language.parseWith (R := R) template backend source path filter = .ok (some feature) ↔
      ∃ whole, language.parseWith (R := R) template backend source path .empty = .ok (some whole) ∧
        feature = filter.apply whole := by
  rw [parseWith_eq_map (R := R) path filter]
  cases language.parseWith (R := R) template backend source path .empty with
  | error error => simp [Except.map]
  | ok tree => cases tree <;> simp [Except.map, eq_comm]

/-- A scenario that the filter drops, with a fault in it and without. -/
theorem parseWith_filter_dropped :
    let language : Language :=
      ⟨"en", .ofList [(.name, "English".toList), (.feature, "Feature".toList),
        (.scenario, "Scenario".toList), (.given, "Given".toList)], by decide⟩
    let filter : Filter := ⟨[], ["other".toList], []⟩
    let faulty : Text := "Feature: f\n  Scenario: s\n    | a |\n".toList
    let source : Text := "Feature: f\n  Scenario: s\n    Given x\n".toList
    (∃ error, error.position = some (.ofNat 3 1) ∧
      language.parseWith Template.shipped .lines faulty "f" filter = .error (.document error)) ∧
    ∃ whole, whole.elements ≠ [] ∧ (filter.apply whole).elements = [] ∧
      language.parseWith Template.shipped .lines source "f" filter = .ok (some (filter.apply whole)) := by
  intro language filter faulty source
  let step : Step := ⟨"Given ".toList, ['x'], 3, none⟩
  let whole : Feature := ⟨some "en", [], [], "Feature".toList, ['f'], [], 1, none,
    [.scenario ⟨[], [], "Scenario".toList, ['s'], [], 2, [step]⟩]⟩
  obtain ⟨errors, -, -⟩ := language.parseWith_filter (R := Grammar) Template.shipped .lines faulty "f" filter
  obtain ⟨-, -, features⟩ := language.parseWith_filter (R := Grammar) Template.shipped .lines source "f" filter
  refine ⟨⟨.atLine "f" 3 Cause.strayRow.message, rfl, (errors _).mpr ?_⟩, whole, by simp [whole], by decide +kernel,
    (features _).mpr ⟨whole, ?_, rfl⟩⟩
  · decide +kernel
  · decide +kernel

end Language

end FeatureFile
