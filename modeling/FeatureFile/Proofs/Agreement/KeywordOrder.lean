import FeatureFile.Proofs.Agreement.Backends
import FeatureFile.Proofs.Agreement.Transfer
import FeatureFile.Proofs.Line.KeywordOrder
/-!
Documents read with the same keywords in another order. The line reader returns the same for all of
them; the grammars match alike, and so they make the same trees.
-/

namespace FeatureFile

open Vocabulary (ofLanguage)

namespace Language

section

variable {a b : Language} (same : a.Rearranged b) {p q : Parser}
include same

theorem Rearranged.entryRule : b.entryRule = a.entryRule :=
  entryRule_congr same.name

/-- The lists of keywords in the grammars have the same members. -/
theorem Rearranged.exists_keywordList {rule : String} {keywords : List Text}
    (listed : (rule, keywords) ∈ Template.keywordLists a) :
    ∃ others, (rule, others) ∈ Template.keywordLists b ∧ ∀ k, k ∈ others ↔ k ∈ keywords := by
  rcases Template.mem_keywordLists.mp listed with ⟨kind, rfl, rfl⟩ | ⟨rfl, rfl⟩
  · exact ⟨_, kind.mem_keywordLists b, same.sections kind⟩
  · exact ⟨_, Template.mem_keywordLists_step b, same.mem_presentStepKeywords⟩

/-- Everything matches alike, and leaves the same nodes. -/
theorem Rearranged.simulation (compiled : Parser.compile Template.shipped a = .ok p)
    (compiled' : Parser.compile Template.shipped b = .ok q) :
    Rules.Simulation p.grammar.arranged q.grammar.arranged Template.ownRules (fun _ => True) id id := by
  have shipped := Parser.shipped_rules compiled
  have shipped' := Parser.shipped_rules compiled'
  -- A rule that may differ finds the longest keyword, which is the same in both languages.
  have ruled {name : String} (own : name ∈ Template.ownRules) (c : Cursor) : ∃ result,
      Rules.Gives p.grammar.arranged (.call name) c result ∧
        Rules.Gives q.grammar.arranged (.call name) c result := by
    rcases List.mem_cons.mp own with rfl | keyword
    · obtain ⟨_, _, _, line⟩ := Text.exists_firstLine c.rest
      exact ⟨_, shipped.nl_gives line, shipped'.nl_gives line⟩
    · obtain ⟨⟨rule, keywords⟩, listed, rfl⟩ :
          ∃ list ∈ Template.keywordLists a, list.1 = name := List.mem_map.mp keyword
      obtain ⟨others, listed', members⟩ := same.exists_keywordList listed
      have given := shipped'.keyword_gives listed' c
      rw [Template.find?_alternatives_congr members] at given
      exact ⟨_, shipped.keyword_gives listed c, given⟩
  constructor
  case onward => exact fun _ _ _ _ => trivial
  case line => exact fun _ _ => rfl
  case upTo => exact fun _ _ _ _ => rfl
  case startOfInput => exact fun _ _ => Iff.rfl
  case endOfInput => exact fun _ _ => rfl
  case literal => exact fun _ _ _ _ => by simp
  case any => exact fun _ _ _ => by simp
  case feeds => exact fun _ _ => shipped.nl_of_feed
  case same => exact fun _ => Parser.find?_arranged_congr compiled compiled' same.entryRule
  case spares => exact fun _ _ => Parser.sparesFeeds_arranged compiled
  case called =>
    intro name own c result _ gives
    obtain ⟨given, first, second⟩ := ruled own c
    rw [Rules.moved_id, gives.unique first]
    exact second

theorem Rearranged.parse_iff (compiled : Parser.compile Template.shipped a = .ok p)
    (compiled' : Parser.compile Template.shipped b = .ok q) {source : Text} {path : String}
    {filter : Filter} {result : Option Feature} :
    q.parse source path filter = .ok result ↔ p.parse source path filter = .ok result := by
  refine Parser.parse_iff_of_gives compiled compiled' fun result gives => ?_
  rw [same.entryRule, ← Rules.moved_id result]
  exact (same.simulation compiled compiled').gives trivial gives

theorem Rearranged.exists_compile_iff :
    (∃ q, Parser.compile Template.shipped b = .ok q) ↔
      ∃ p, Parser.compile Template.shipped a = .ok p :=
  exists_compile_congr same.name

end

/-- The order of the keywords in a table, and a repetition among them, makes no difference. By the line
reader every document has the same result, and by the grammar the same documents have the same tree. -/
theorem parseWith_rearranged (a b : Language) (same : a.Rearranged b) (source : Text) (path : String)
    (filter : Filter) :
    b.parseWith Template.shipped .lines source path filter =
        a.parseWith Template.shipped .lines source path filter ∧
      ∀ result, b.parseWith Template.shipped .grammar source path filter = .ok result ↔
        a.parseWith Template.shipped .grammar source path filter = .ok result := by
  constructor
  · have read : (ofLanguage b).read source = (ofLanguage a).read source :=
      LineState.readFrom_congr (Vocabulary.kind_congr same) .idle 1 source.lines
    simp only [parseWith, parseLines, read, mark, same.identifier]
  · exact fun result => parseWith_grammar_congr same.identifier same.exists_compile_iff
      fun p q compiled compiled' tree => same.parse_iff compiled compiled'

/-- Keywords that begin each other, in two orders, one of them twice, and a step keyword moved to another
concept. -/
theorem parseWith_rearranged_prefixes :
    let a : Language := ⟨"en", .ofList [(.name, "English".toList), (.feature, "Feature".toList),
      (.scenario, "Example|Example Case".toList), (.given, "Given|Given that".toList)], by decide⟩
    let b : Language := ⟨"en", .ofList [(.name, "English".toList), (.feature, "Feature".toList),
      (.scenario, "Example Case|Example|Example Case".toList), (.given, "Given that".toList),
      (.but, "Given".toList)], by decide⟩
    let source := "Feature: f\n  @t\n  Example Case: s\n    Given that x\n".toList
    a.Rearranged b ∧ ∃ f, b.parseWith Template.shipped .lines source "f" .empty = .ok (some f) ∧
      b.parseWith Template.shipped .grammar source "f" .empty = .ok (some f) := by
  intro a b source
  let f : Feature := ⟨some "en", [], [], "Feature".toList, ['f'], [], 1, none,
    [.scenario ⟨[], [⟨['@', 't'], 2⟩], "Example Case".toList, ['s'], [], 3,
      [⟨"Given that ".toList, ['x'], 4, none⟩]⟩]⟩
  have same : a.Rearranged b := by
    decide +kernel
  have separated : a.WellSeparated := by
    decide +kernel
  have leads : TagsLead ((ofLanguage a).read source).events := by
    decide +kernel
  have accepted : a.parseWith Template.shipped .lines source "f" .empty = .ok (some f) := by
    decide +kernel
  have named : '\n' ∉ a.name ∧ GrammarText.MayName a.entryRule := by
    decide +kernel
  obtain ⟨parser, compiled⟩ := Parser.exists_compile_iff.mpr named
  obtain ⟨lines, grammar⟩ := parseWith_rearranged a b same source "f" .empty
  exact ⟨same, f, lines.trans accepted,
    (grammar _).mpr (parse_grammar_of_tagsLead compiled separated leads accepted)⟩

end Language

end FeatureFile
