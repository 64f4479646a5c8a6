import FeatureFile.Proofs.Grammar.Faultless
/-!
Matching a document ends. In a grammar of the shipped template no rule comes back to itself, whatever it
has taken in between, and every round of a repetition takes a character: what can match nothing is
never repeated, not even the end of a line, which is found at the end of the text without a character.
-/

namespace FeatureFile

/-- A repetition takes a part of the text in every round. -/
theorem Rules.Ranked.exists_taken {rules : List Rule} {rank : String → Nat} {empty : List String}
    (ranked : Ranked rules rank empty) {rule : Rule} (known : rule ∈ rules) {body : Expr}
    (repeated : body ∈ rule.body.repeated) {c d : Cursor} {nodes : List Node}
    (gives : Gives rules body c (some (nodes, d))) : ∃ w, w ≠ [] ∧ c.rest = w ++ d.rest := by
  have shorter := ranked.progresses ((ranked rule known).progress body repeated) gives
  obtain ⟨w, split, -⟩ := gives.matches.reaches
  refine ⟨w, ?_, split⟩
  rintro rfl
  rw [split, List.nil_append] at shorter
  exact Nat.lt_irrefl _ shorter

namespace Parser

/-- In a compiled grammar, as it is written and as it is matched, no rule comes back to itself and every
round of a repetition takes a character. So matching a document ends: with a match or without one. -/
theorem matching_ends {language : Language} {parser : Parser}
    (compiled : Parser.compile Template.shipped language = .ok parser) (source : Text) :
    (∀ rules ∈ [parser.grammar.rules, parser.grammar.arranged],
      (∀ name c d, ¬ Relation.TransGen (Rules.NeededBy rules) (.call name, d) (.call name, c)) ∧
      ∀ rule ∈ rules, ∀ body ∈ rule.body.repeated, ∀ c nodes d,
        Rules.Gives rules body c (some (nodes, d)) → ∃ w, w ≠ [] ∧ c.rest = w ++ d.rest) ∧
    ∃ m, parser.grammar.match? parser.entryRule source = some m := by
  refine ⟨fun rules member => ?_, exists_match? compiled parser.entryRule source⟩
  have ranked := ranked_of_compile compiled rules member
  exact ⟨ranked.not_needed_by_itself, fun rule known body repeated c nodes d gives =>
    ranked.exists_taken known repeated gives⟩

/-- A comment that the end of the text ends, read by the repetition in front of a feature. -/
theorem matching_ends_comment :
    ∃ parser nodes d, Parser.compile Template.shipped Language.marked = .ok parser ∧
      ¬ Relation.TransGen (Rules.NeededBy parser.grammar.arranged)
        (.call "sp", .start ['#']) (.call "sp", .start ['#']) ∧
      Rules.Gives parser.grammar.arranged (.call "ignorable") (.start ['#']) (some (nodes, d)) ∧
      d.rest = [] ∧ (∃ w, w ≠ [] ∧ ['#'] = w ++ d.rest) ∧
      ∃ m, parser.grammar.match? parser.entryRule ['#'] = some m := by
  have named : '\n' ∉ Language.marked.name ∧ GrammarText.MayName Language.marked.entryRule := by
    decide +kernel
  obtain ⟨parser, compiled⟩ := exists_compile_iff.mpr named
  have rules := arranged_shipped compiled
  have taken : ((Rules.run ((Template.shippedRules Language.marked).map Rule.arranged) 30
      (.call "ignorable") (.start ['#'])).bind Match.result).map (·.2.rest) = some [] := by
    decide +kernel
  obtain ⟨⟨nodes, d⟩, found, last⟩ := Option.map_eq_some_iff.mp taken
  obtain ⟨m, runs, result⟩ := Option.bind_eq_some_iff.mp found
  have gives : Rules.Gives parser.grammar.arranged (.call "ignorable") (.start ['#'])
      (some (nodes, d)) := rules ▸ ⟨30, m, runs, result⟩
  obtain ⟨progress, ends⟩ := matching_ends compiled ['#']
  obtain ⟨apart, takes⟩ := progress parser.grammar.arranged (by simp)
  have entry : Template.entryRule Language.marked.entryRule ∈ parser.grammar.arranged := by
    rw [rules, Template.map_arranged_shippedRules]
    exact List.mem_cons_self
  exact ⟨parser, nodes, d, compiled, apart _ _ _, gives, last,
    takes _ entry (.call "ignorable") (by decide) _ _ _ gives, ends⟩

end Parser

end FeatureFile
