import FeatureFile.Proofs.Agreement.KeywordRules
import FeatureFile.Proofs.Grammar.Faultless
import FeatureFile.Proofs.Line.Classes
/-!
The keyword at the beginning of a text. The line reader searches its lists of keywords, and the grammar
tries the alternatives of the rules for them; at every text both find the same one.
-/

namespace FeatureFile

open Vocabulary (ofLanguage Opens)

/-- The longest of the keywords that the text starts with. -/
structure IsLongest (keywords : List Text) (t k : Text) : Prop where
  keyword : k ∈ keywords
  present : k ≠ []
  leads : k <+: t
  longest : ∀ other ∈ keywords, other <+: t → other.length ≤ k.length

theorem Vocabulary.exists_step?_iff {language : Language} {t k : Text} :
    (∃ name, (ofLanguage language).step? t = some (k, name)) ↔
      IsLongest language.presentStepKeywords t k := by
  simp only [step?_iff]
  constructor
  · rintro ⟨name, split, keyword, present, longest⟩
    exact ⟨keyword, present, ⟨name, split.symm⟩, longest⟩
  · rintro ⟨keyword, present, ⟨name, split⟩, longest⟩
    exact ⟨name, split.symm, keyword, present, longest⟩

/-- What the grammar matches at the beginning of a text of the keywords of a kind with a colon behind. -/
def Parser.MatchesHeader (parser : Parser) (kind : SectionKind) (text : Text) (nodes : List Node)
    (last : Cursor) : Prop :=
  Rules.Gives parser.grammar.arranged (.seq (.call kind.keywordRule) (.literal [':'])) (.start text)
    (some (nodes, last))

namespace Rules.Shipped

variable {rules : List Rule} {language : Language} (shipped : Shipped rules language) {c : Cursor}
include shipped

theorem step_keyword_gives (c : Cursor) :
    Gives rules (.call "step_keyword") c
      (((ofLanguage language).step? c.rest).map fun (k, _) =>
        ([.mk "step_keyword" k c.line []], c.after k)) := by
  have gives := shipped.keyword_gives (Template.mem_keywordLists_step language) c
  rw [← Vocabulary.map_step?, Option.map_map] at gives
  exact gives

/-- A keyword and a colon are matched where a header of the kind begins. -/
theorem header_gives_iff (apart : language.SectionsApart) {kind : SectionKind} {nodes : List Node}
    {last : Cursor} :
    Gives rules (.seq (.call kind.keywordRule) (.literal [':'])) c (some (nodes, last)) ↔
      ∃ k name, Opens language kind c.rest k name ∧ nodes = [.mk kind.keywordRule k c.line []] ∧
        last = c.after (k ++ [':']) := by
  have keyword := shipped.keyword_gives (kind.mem_keywordLists language) c
  constructor
  · intro gives
    -- The rule for keywords gives the first alternative at hand, and the colon stands behind that one.
    obtain ⟨-, none⟩ | ⟨first, d, behind, called, colon, same⟩ := gives.seq_cases
    · cases none
    obtain ⟨k, found, ⟨⟩⟩ := Option.map_eq_some_iff.mp (keyword.unique called)
    obtain ⟨mem, present⟩ := Vocabulary.mem_alternatives.mp (List.mem_of_find?_eq_some found)
    obtain ⟨v, split⟩ : k <+: c.rest := by simpa using List.find?_some found
    rw [colon.unique (.literal [':'] _), Option.map_map] at same
    obtain ⟨d, skipped, ⟨⟩⟩ := Option.map_eq_some_iff.mp same.symm
    obtain ⟨facing, rfl⟩ := Cursor.skip?_eq_some_iff.mp skipped
    rw [Cursor.rest_after split.symm] at facing
    exact ⟨k, _, ⟨mem, present, by rw [← split, facing]; rfl⟩, rfl, Cursor.after_after ..⟩
  · rintro ⟨k, name, opens, rfl, rfl⟩
    -- No longer keyword leads the text, so this one is the first alternative at hand.
    rw [opens.find?_alternatives apart] at keyword
    have colon : (c.after k).rest = [':'] ++ name := Cursor.rest_after opens.2.2
    simpa using keyword.seq (.skips colon)

end Rules.Shipped

/-- At every text the rule for step keywords matches the keyword that the line reader finds, which is the
longest one that the text starts with. If the keywords of sections are told apart, then the line reader
finds a header where the grammar matches a keyword of its kind and a colon: the keyword is the same one, and
no other kind is matched. -/
theorem Parser.matches_keyword {language : Language} {parser : Parser}
    (compiled : Parser.compile Template.shipped language = .ok parser) (text : Text) :
    (∃ m, parser.grammar.match? "step_keyword" text = some m ∧
        m.result = ((ofLanguage language).step? text).map fun (k, _) =>
          ([.mk "step_keyword" k 1 []], (Cursor.start text).after k)) ∧
      (∀ k, (∃ name, (ofLanguage language).step? text = some (k, name)) ↔
        IsLongest language.presentStepKeywords text k) ∧
      (language.SectionsApart →
        (∀ kind nodes last, parser.MatchesHeader kind text nodes last ↔
          ∃ k name, (ofLanguage language).header? text = some (kind, k, name) ∧
            nodes = [.mk kind.keywordRule k 1 []] ∧ last = (Cursor.start text).after (k ++ [':'])) ∧
        ∀ kind nodes last kind' nodes' last', parser.MatchesHeader kind text nodes last →
          parser.MatchesHeader kind' text nodes' last' → kind = kind') := by
  have shipped := shipped_rules compiled
  refine ⟨(Grammar.match?_iff (thrifty_shipped compiled)).mpr (shipped.step_keyword_gives _),
    fun k => Vocabulary.exists_step?_iff, fun apart => ?_⟩
  have header kind nodes last : parser.MatchesHeader kind text nodes last ↔
      ∃ k name, (ofLanguage language).header? text = some (kind, k, name) ∧
        nodes = [.mk kind.keywordRule k 1 []] ∧ last = (Cursor.start text).after (k ++ [':']) := by
    simp only [Vocabulary.header?_eq_some_iff apart]
    exact shipped.header_gives_iff apart
  refine ⟨header, fun kind nodes last kind' nodes' last' first second => ?_⟩
  obtain ⟨_, _, found, _⟩ := (header ..).mp first
  obtain ⟨_, _, found', _⟩ := (header ..).mp second
  rw [found] at found'
  cases found'
  rfl

/-- A language in which keywords begin with one another. -/
def Language.nested : Language where
  identifier := "fr"
  table := .ofList [(.name, "French".toList), (.background, "Contexte".toList),
    (.scenario, "Scénario".toList), (.scenarioOutline, "Scénario général".toList),
    (.given, "É|Étant donné".toList)]
  named := by decide

theorem Parser.matches_keyword_nested :
    ∃ parser, Parser.compile Template.shipped Language.nested = .ok parser ∧
      (∃ m, parser.grammar.match? "step_keyword" "Étant donné x".toList = some m ∧
        m.result = some ([.mk "step_keyword" "Étant donné ".toList 1 []], ⟨['x'], 12, 1⟩)) ∧
      Language.nested.SectionsApart ∧
      parser.MatchesHeader .outline "Scénario général:".toList
        [.mk "scenario_outline_keyword" "Scénario général".toList 1 []] ⟨[], 17, 1⟩ := by
  have named : '\n' ∉ Language.nested.name ∧ GrammarText.MayName Language.nested.entryRule := by
    decide +kernel
  obtain ⟨parser, compiled⟩ := exists_compile_iff.mpr named
  have separated : Language.nested.WellSeparated := by
    decide +kernel
  have step : (ofLanguage Language.nested).step? "Étant donné x".toList =
      some ("Étant donné ".toList, ['x']) := by
    decide +kernel
  have header : (ofLanguage Language.nested).header? "Scénario général:".toList =
      some (.outline, "Scénario général".toList, []) := by
    decide +kernel
  obtain ⟨m, found, same⟩ := (matches_keyword compiled "Étant donné x".toList).1
  rw [step] at same
  obtain ⟨iff, -⟩ := (matches_keyword compiled "Scénario général:".toList).2.2 separated.sectionsApart
  exact ⟨parser, compiled, ⟨m, found, same⟩, separated.sectionsApart,
    (iff ..).mpr ⟨_, _, header, rfl, rfl⟩⟩

end FeatureFile
