import FeatureFile.Proofs.Agreement.Completeness
import FeatureFile.Proofs.Agreement.Trees
import FeatureFile.Proofs.Document.Delivery
/-!
Which documents the two ways of reading accept. Whatever the grammar accepts the line reader accepts; the
line reader accepts more, as it lets rows and doc strings stand between a tag and the header that takes it.
-/

namespace FeatureFile

open Vocabulary (ofLanguage)

/-- The events of a delivery without refusal have a run. -/
theorem Assembly.Sound.run?_of_deliver {a last : Assembly} (sound : a.Sound) {events : List Event}
    (delivered : deliver Assembly.listen a events = (last, none)) :
    (a.control.run? events).isSome = true := by
  induction events generalizing a with
  | nil => rfl
  | cons event events ih =>
    rw [deliver, Assembly.listen] at delivered
    cases done : a.accept event with
    | refused fault b => simp [done] at delivered
    | accepted b =>
      obtain ⟨sound', -, reached⟩ := sound.accepted done
      have moves : a.control.next? event = some b.control := by
        simp only [Assembly.next?, Option.ite_none_left_eq_some] at reached
        exact reached.2
      rw [done] at delivered
      simpa [Control.run?, moves] using ih sound' delivered

namespace Language

variable {language : Language} {parser : Parser} {source : Text} {path : String} {filter : Filter}
  {result : Option Feature}

/-- Of the documents the line reader accepts, the grammar matches those whose tags lead to headers. -/
theorem matches_iff_tagsLead (compiled : Parser.compile Template.shipped language = .ok parser)
    (separated : language.WellSeparated) {tree : Option Feature}
    (made : ((ofLanguage language).read source).tree = .ok tree) :
    (∃ nodes, parser.nodes source path = .ok nodes) ↔
      TagsLead ((ofLanguage language).read source).events := by
  obtain ⟨bs, complete, blocks⟩ := exists_blocks (ofLanguage language) (.start source)
  obtain ⟨noFault, last, delivered, -⟩ := Reading.tree_eq_ok_iff.mp made
  have lines := read_blocks blocks
  cases complete with
  | false => exact absurd noFault (by simpa using lines)
  | true =>
    have same := congrArg Prod.fst (lines : _ = _)
    simp only [Reading.normal] at same
    rw [Parser.nodes_isOk_iff compiled separated blocks, tagsLead_congr same]
    simp only [true_and]
    constructor
    · intro read
      have settled := BlockReader.settles_document _ _ _ read
      exact settled _ (by simp [tagsLead_cons, tagsLead_nil])
    · intro leads
      rw [Assembly.deliver_congr _ same] at delivered
      have runs := (Assembly.sound_start _).run?_of_deliver delivered
      exact BlockReader.document_read (Control.admits_of_run? runs (by simp) leads)

/-- Where the tags of an accepted document lead to headers, the grammar makes the same tree of it. -/
theorem parse_grammar_of_tagsLead (compiled : Parser.compile Template.shipped language = .ok parser)
    (separated : language.WellSeparated)
    (leads : TagsLead ((ofLanguage language).read source).events)
    (accepted : language.parseWith Template.shipped .lines source path filter = .ok result) :
    language.parseWith Template.shipped .grammar source path filter = .ok result := by
  have lines : language.mark (language.parseLines source path filter) = .ok result := accepted
  rw [parseLines_eq] at lines
  cases made : ((ofLanguage language).read source).tree with
  | error fault => simp [made, mark] at lines
  | ok tree =>
    have matched : ∃ nodes, parser.nodes source path = .ok nodes :=
      (matches_iff_tagsLead compiled separated made).mpr leads
    exact (parse_grammar_iff compiled separated).mpr ⟨matched, accepted⟩

/-- A language with few keywords. -/
def brief : Language where
  identifier := "en"
  table := .ofList [(.name, "English".toList), (.feature, "Feature".toList),
    (.scenario, "Scenario".toList), (.given, "Given".toList)]
  named := by decide

theorem brief_wellSeparated : brief.WellSeparated := by
  decide +kernel

theorem exists_compile_brief : ∃ parser, Parser.compile Template.shipped brief = .ok parser := by
  have may : GrammarText.MayName brief.entryRule := by
    decide +kernel
  have sound : Rules.fault? (Template.shippedRules brief) = none := by
    decide +kernel
  exact ⟨_, Parser.compile_shipped_eq (by decide +kernel) may sound⟩

/-- What the grammar accepts, the line reader accepts with the same tree. -/
theorem parse_lines_of_grammar (separated : language.WellSeparated)
    (accepted : language.parseWith Template.shipped .grammar source path filter = .ok result) :
    language.parseWith Template.shipped .lines source path filter = .ok result := by
  obtain ⟨parser, compiled, _⟩ := parseWith_grammar_iff.mp accepted
  exact ((parse_grammar_iff compiled separated).mp accepted).2

/-- A tagged scenario with a table. -/
theorem parse_lines_of_grammar_table :
    let source := "Feature: f\n  @t\n  Scenario: s\n    Given x\n      | a |\n".toList
    brief.WellSeparated ∧ ∃ feature,
      brief.parseWith Template.shipped .grammar source "f" .empty = .ok (some feature) ∧
      brief.parseWith Template.shipped .lines source "f" .empty = .ok (some feature) := by
  intro source
  let feature : Feature := ⟨none, [], [], "Feature".toList, ['f'], [], 1, none,
    [.scenario ⟨[], [⟨['@', 't'], 2⟩], "Scenario".toList, ['s'], [], 3,
      [⟨"Given ".toList, ['x'], 4, some (.table [⟨[['a']], 5⟩])⟩]⟩]⟩
  obtain ⟨parser, compiled⟩ := exists_compile_brief
  have made : ((ofLanguage brief).read source).tree = .ok (some feature) := by
    decide +kernel
  have leads : TagsLead ((ofLanguage brief).read source).events := by
    decide +kernel
  have lines : brief.parseWith Template.shipped .lines source "f" .empty =
      .ok (some { feature with language := some "en" }) := by
    decide +kernel
  have nodes : ∃ nodes, parser.nodes source "f" = .ok nodes :=
    (matches_iff_tagsLead compiled brief_wellSeparated made).mpr leads
  have accepted := (parse_grammar_iff compiled brief_wellSeparated).mpr ⟨nodes, lines⟩
  exact ⟨brief_wellSeparated, _, accepted, parse_lines_of_grammar brief_wellSeparated accepted⟩

/-- The grammar accepts exactly those documents of the line reader in which no row and no doc string
stands between a tag and the header that takes it, and makes the same tree of them. -/
theorem parse_grammar_iff_tagsLead (compiled : Parser.compile Template.shipped language = .ok parser)
    (separated : language.WellSeparated) :
    language.parseWith Template.shipped .grammar source path filter = .ok result ↔
      language.parseWith Template.shipped .lines source path filter = .ok result ∧
        TagsLead ((ofLanguage language).read source).events := by
  rw [parse_grammar_iff compiled separated, and_comm]
  refine and_congr_right fun accepted => ?_
  have lines : language.mark (language.parseLines source path filter) = .ok result := accepted
  rw [parseLines_eq] at lines
  cases made : ((ofLanguage language).read source).tree with
  | error fault => simp [made, mark] at lines
  | ok tree => exact matches_iff_tagsLead compiled separated made

/-- A table that begins behind a tag: the line reader gives the tag to the next scenario, and the grammar
does not match. -/
theorem parse_grammar_iff_tagsLead_row :
    let source := "Feature: f\n  Scenario: s\n    Given x\n    @t\n    | a |\n  Scenario: u\n".toList
    (∃ parser, Parser.compile Template.shipped brief = .ok parser) ∧ brief.WellSeparated ∧
      (∃ feature, brief.parseWith Template.shipped .lines source "f" .empty = .ok (some feature)) ∧
      ∀ result, brief.parseWith Template.shipped .grammar source "f" .empty ≠ .ok result := by
  intro source
  let feature : Feature := ⟨some "en", [], [], "Feature".toList, ['f'], [], 1, none,
    [.scenario ⟨[], [], "Scenario".toList, ['s'], [], 2,
      [⟨"Given ".toList, ['x'], 3, some (.table [⟨[['a']], 5⟩])⟩]⟩,
    .scenario ⟨[], [⟨['@', 't'], 4⟩], "Scenario".toList, ['u'], [], 6, []⟩]⟩
  obtain ⟨parser, compiled⟩ := exists_compile_brief
  have lines : brief.parseWith Template.shipped .lines source "f" .empty = .ok (some feature) := by
    decide +kernel
  have behind : ¬ TagsLead ((ofLanguage brief).read source).events := by
    decide +kernel
  refine ⟨⟨parser, compiled⟩, brief_wellSeparated, ⟨feature, lines⟩, fun result accepted => ?_⟩
  exact behind ((parse_grammar_iff_tagsLead compiled brief_wellSeparated).mp accepted).2

end Language

end FeatureFile
