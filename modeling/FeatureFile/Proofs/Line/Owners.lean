import FeatureFile.Proofs.Document.Criteria
import FeatureFile.Proofs.Language.Filtering
import FeatureFile.Proofs.Line.Accounts
import FeatureFile.Proofs.Line.Order
/-!
Who owns a line. The events of a document come line by line, so no two elements of its tree own the same
line, and asking for a line selects the element that owns it.
-/

namespace FeatureFile

open Vocabulary (ofLanguage)

/-- No line of a document belongs to two elements of its tree. -/
theorem Vocabulary.pairwise_disjoint_lines {language : Language} {source : Text} {f : Feature}
    (made : ((ofLanguage language).read source).tree = .ok (some f)) :
    f.elements.Pairwise fun a b => a.lines.Disjoint b.lines := by
  obtain ⟨body, whole, -⟩ := Accounts.exists_of_tree made
  obtain ⟨inside, ordered⟩ := ordered_of_read whole
  obtain ⟨contents, tags⟩ := Reading.contents_of_tree (congrArg Reading.events whole) inside made
  exact Feature.pairwise_disjoint_lines ordered contents tags

/-- Asked for a line only, a filter leaves the elements that own it. -/
theorem Filter.apply_withLine (n : Nat) (f : Feature) :
    (empty.withLine n).apply f =
      { f with elements := f.elements.filter fun element => n ∈ element.lines } := by
  have keeps (element : Element) : (empty.withLine n).keep? f.tags element =
      Option.guard (fun element => decide (n ∈ element.lines)) element := by
    cases element <;>
      simp [keep?, withLine, empty, acceptsName, acceptsLines, keepTagged?, holdsFor, Option.guard]
  rw [apply, show (empty.withLine n).keep? f.tags = _ from funext keeps, List.filterMap_eq_filter]

/-- Of elements with lines of their own at most one owns a line. -/
theorem Element.exists_owner {elements : List Element}
    (disjoint : elements.Pairwise fun a b => a.lines.Disjoint b.lines) (n : Nat) :
    ∃ owner : Option Element,
      (∀ element, owner = some element ↔ element ∈ elements ∧ n ∈ element.lines) ∧
        (elements.filter fun element => n ∈ element.lines) = owner.toList := by
  have single : (elements.filter fun element => n ∈ element.lines).Pairwise fun _ _ => False := by
    rw [List.pairwise_filter]
    refine disjoint.imp fun apart first second => ?_
    exact apart (of_decide_eq_true first) (of_decide_eq_true second)
  have members (element : Element) : element ∈ elements ∧ n ∈ element.lines ↔
      element ∈ elements.filter fun element => n ∈ element.lines := by
    simp
  simp only [members]
  generalize elements.filter (fun element => decide (n ∈ element.lines)) = owners at single
  match owners, single with
  | [], _ => exact ⟨none, by simp, rfl⟩
  | [owner], _ => exact ⟨some owner, by simp [eq_comm], rfl⟩
  | a :: b :: _, single => exact ((List.pairwise_cons.mp single).1 b List.mem_cons_self).elim

namespace Language

variable {language : Language} {template source : Text} {path : String} {tree : Option Feature}

/-- Of a document that is accepted no two elements own a line, and a filter for a line selects the element
that owns it, or none if no element does. -/
theorem parseWith_withLine
    (accepted : language.parseWith template .lines source path .empty = .ok tree) :
    (∀ f ∈ tree, f.elements.Pairwise fun a b => ∀ n, a.Owns n → ¬ b.Owns n) ∧
      ∀ n, ∃ owner : Option Element,
        (∀ element, owner = some element ↔ ∃ f ∈ tree, element ∈ f.elements ∧ element.Owns n) ∧
          language.parseWith template .lines source path (Filter.empty.withLine n) =
            .ok (tree.map fun f => { f with elements := owner.toList }) := by
  simp only [Element.owns_iff]
  cases made : ((ofLanguage language).read source).tree with
  | error fault => simp [parseWith, parseLines_eq, made, mark] at accepted
  | ok read =>
    have parsed (filter : Filter) : language.parseWith template .lines source path filter =
        .ok (read.map fun f => { filter.apply f with language := some language.identifier }) := by
      simp [parseWith, parseLines_eq, made, mark, Function.comp_def]
    rw [parsed] at accepted
    cases accepted
    cases read with
    | none => exact ⟨by simp, fun n => ⟨none, by simp, parsed _⟩⟩
    | some f =>
      have disjoint := Vocabulary.pairwise_disjoint_lines made
      simp only [Option.map_some, Option.mem_some_iff, forall_eq', exists_eq_left', Filter.apply_empty]
      refine ⟨disjoint, fun n => ?_⟩
      obtain ⟨owner, owns, left⟩ := Element.exists_owner disjoint n
      refine ⟨owner, owns, ?_⟩
      rw [parsed, Option.map_some, Filter.apply_withLine, left]

/-- Of two elements, with tags in front of both, the line of the second one's tag selects the second, and so
does the line of a row of its examples; the blank line between them selects none. -/
theorem parseWith_withLine_tag :
    let language : Language := ⟨"en", .ofList [(.name, "English".toList),
      (.feature, "Feature".toList), (.scenario, "Scenario".toList), (.scenarioOutline, "Outline".toList),
      (.examples, "Examples".toList), (.given, "Given".toList)], by decide⟩
    let source :=
      "Feature: f\n@a\nScenario: s\nGiven x\n\n@b\n\nOutline: o\nGiven y\nExamples:\n|z|\n".toList
    let outline : Outline := ⟨[], [⟨['@', 'b'], 6⟩], "Outline".toList, ['o'], [], 8,
      [⟨"Given ".toList, ['y'], 9, none⟩], [⟨[], [], "Examples".toList, [], [], 10, [⟨[['z']], 11⟩]⟩]⟩
    let selected (f : Feature) (n : Nat) (elements : List Element) : Prop :=
      language.parseWith Template.shipped .lines source "f" (Filter.empty.withLine n) =
        .ok (some { f with elements := elements })
    ∃ f : Feature, language.parseWith Template.shipped .lines source "f" .empty = .ok (some f) ∧
      (f.elements.Pairwise fun a b => ∀ n, a.Owns n → ¬ b.Owns n) ∧
        selected f 6 [.outline outline] ∧ selected f 11 [.outline outline] ∧ selected f 5 [] := by
  intro language source outline selected
  let f : Feature := ⟨some "en", [], [], "Feature".toList, ['f'], [], 1, none,
    [.scenario ⟨[], [⟨['@', 'a'], 2⟩], "Scenario".toList, ['s'], [], 3,
      [⟨"Given ".toList, ['x'], 4, none⟩]⟩, .outline outline]⟩
  have accepted : language.parseWith Template.shipped .lines source "f" .empty = .ok (some f) := by
    decide +kernel
  obtain ⟨disjoint, select⟩ := parseWith_withLine accepted
  have second (n : Nat) (owns : (Element.outline outline).Owns n) :
      selected f n [.outline outline] := by
    obtain ⟨owner, owners, parsed⟩ := select n
    obtain rfl := (owners _).mpr ⟨f, rfl, by simp [f], owns⟩
    exact parsed
  have unowned : ∀ element ∈ f.elements, 5 ∉ element.lines := by decide
  have neither : selected f 5 [] := by
    obtain ⟨owner, owners, parsed⟩ := select 5
    obtain rfl : owner = none := by
      refine Option.eq_none_iff_forall_ne_some.mpr fun element owner => ?_
      obtain ⟨_, same, member, owns⟩ := (owners element).mp owner
      cases same
      exact unowned element member (Element.owns_iff.mp owns)
    exact parsed
  exact ⟨f, accepted, disjoint f rfl, second 6 (Element.owns_iff.mpr (by decide)),
    second 11 (Element.owns_iff.mpr (by decide)), neither⟩

end Language

end FeatureFile
