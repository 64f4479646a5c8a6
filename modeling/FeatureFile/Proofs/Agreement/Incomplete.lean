import FeatureFile.Proofs.Agreement.Backends
import FeatureFile.Proofs.Agreement.Spots
import FeatureFile.Proofs.Agreement.Transfer
import FeatureFile.Proofs.Line.Incomplete
/-!
Documents read with a language that lacks a concept. Where no line starts with a keyword that is missing,
the line reader returns the same, and the grammar accepts the same with the same tree.
-/

namespace FeatureFile

open Text (FirstLine Unbroken isBlankChar)
open Vocabulary (ofLanguage)

section

variable {language : Language} {c : Concept} (other : c ≠ .name) {source : Text}

namespace Rules.Shipped

variable {rules rules' : List Rule} (shipped : Shipped rules language)
  (shipped' : Shipped rules' (language.without c other))
  (unbroken : ∀ k ∈ language.allKeywords, Unbroken k)
  (avoids : ∀ raw ∈ source.lines, language.Avoids c raw) {d : Cursor}
include shipped shipped' unbroken avoids

/-- Behind an indentation the same step keyword is found. -/
private theorem step_keyword_without (here : Spot.margin.At source d) :
    ∃ result, Gives rules (.call "step_keyword") d result ∧
      Gives rules' (.call "step_keyword") d result := by
  have same (s : Text) (some : s ≠ []) (leads : s <+: d.rest) :
      s ∈ (language.without c other).presentStepKeywords ↔ s ∈ language.presentStepKeywords := by
    refine ⟨language.mem_presentStepKeywords_without other, fun member => ?_⟩
    obtain ⟨raw, listed, leads⟩ := here.2 s (Language.unbroken_of_step unbroken member) some leads
    exact (avoids raw listed).mem_presentStepKeywords other member some leads
  have given := shipped'.keyword_gives (Template.mem_keywordLists_step _) d
  rw [Template.find?_alternatives_of_leading same] at given
  exact ⟨_, shipped.keyword_gives (Template.mem_keywordLists_step language) d, given⟩

/-- Behind an indentation the same keyword of a header is found, unless no colon follows. -/
private theorem header_keyword_without (here : Spot.margin.At source d) (kind : SectionKind) :
    ∃ result, Gives rules (.call kind.keywordRule) d result ∧
      (Gives rules' (.call kind.keywordRule) d result ∨
        Gives rules' (.call kind.keywordRule) d none ∧
          ∀ nodes last, result = some (nodes, last) → last.rest.head? ≠ some ':') := by
  have first := shipped.keyword_gives (kind.mem_keywordLists language) d
  have second := shipped'.keyword_gives (kind.mem_keywordLists _) d
  rw [Language.presentKeywords_without] at second
  refine ⟨_, first, ?_⟩
  split at second
  next same =>
    refine .inr ⟨second, fun nodes last found colon => ?_⟩
    obtain ⟨k, longest, ⟨⟩⟩ := Option.map_eq_some_iff.mp found
    obtain ⟨member, some⟩ := Vocabulary.mem_alternatives.mp (List.mem_of_find?_eq_some longest)
    obtain ⟨t, split⟩ : k <+: d.rest := by simpa using List.find?_some longest
    rw [Cursor.rest_after split.symm] at colon
    have plain : Unbroken (k ++ [':']) := by
      have keyword := unbroken k (Language.mem_allKeywords_of_section member)
      simpa [Unbroken, or_imp, forall_and] using keyword
    obtain ⟨name, rfl⟩ := List.head?_eq_some_iff.mp colon
    have header : k ++ [':'] <+: d.rest := ⟨name, by simp [← split]⟩
    obtain ⟨raw, listed, leads⟩ := here.2 (k ++ [':']) plain (by simp) header
    exact (avoids raw listed).concept_ne member some leads same
  next => exact .inl second

/-- Where keywords are looked for, they are found as before. -/
theorem alike_without :
    Rules.Alike (Template.fixedRules.map Rule.arranged) source rules rules' := by
  constructor
  case known =>
    intro name rule found
    obtain rfl := Rules.name_of_find? found
    have member := List.mem_of_find?_eq_some found
    exact ⟨shipped.fixed rule member, shipped'.fixed rule member⟩
  case own =>
    intro σ τ name d behind here
    obtain ⟨q, brk, rest, line⟩ := Text.exists_firstLine d.rest
    unfold Spot.behind? at behind
    split at behind <;> cases behind
    next =>
      refine ⟨_, shipped.sp line, shipped'.sp line, fun nodes last same => ?_⟩
      cases same
      exact here.behind_indentation line
    next =>
      refine ⟨_, shipped.nl_gives line, shipped'.nl_gives line, fun nodes last same => ?_⟩
      split at same <;> cases same
      next ends =>
        obtain ⟨rfl, feeds⟩ := ends
        exact here.behind_break line feeds
    next =>
      obtain ⟨result, first, second⟩ :=
        step_keyword_without other shipped shipped' unbroken avoids here
      refine ⟨result, first, second, fun nodes last same => ?_⟩
      exact here.anywhere (same ▸ first).matches.reaches
  case header => exact fun kind d => (header_keyword_without other shipped shipped' unbroken avoids · kind)

/-- A whole document gives the same. -/
theorem gives_without {result : Option (List Node × Cursor)}
    (gives : Gives rules (.call language.entryRule) (.start source) result) :
    Gives rules' (.call (language.without c other).entryRule) (.start source) result := by
  have alike := alike_without other shipped shipped' unbroken avoids
  have entry := shipped'.entry
  rw [Language.entryRule_congr (language.name_without other)] at entry ⊢
  cases yields_iff_gives.mpr gives with
  | undefined absent => simp [shipped.entry] at absent
  | call found body =>
    cases found.symm.trans shipped.entry
    have here : Spot.start.At source (.start source) := ⟨List.suffix_rfl, List.Subset.refl _⟩
    have whole := alike.yields body _ .start .start (Template.spot?_entryRule _) here
    exact (Yields.call entry whole.1).gives

end Rules.Shipped

end

namespace Language

/-- A language without a concept reads what does without the concept. If no line starts with a step keyword
of that concept alone, or with a header of it, then by the line reader the document has the same result,
be it a tree or an error, and by the grammar it is accepted as before and has the same tree. -/
theorem parseWith_without (language : Language) (c : Concept) (other : c ≠ .name)
    (unbroken : ∀ k ∈ language.allKeywords, Unbroken k) (source : Text)
    (avoids : ∀ raw ∈ source.lines, language.Avoids c raw) (path : String) (filter : Filter) :
    (language.without c other).parseWith Template.shipped .lines source path filter =
        language.parseWith Template.shipped .lines source path filter ∧
      ∀ result,
        (language.without c other).parseWith Template.shipped .grammar source path filter = .ok result ↔
          language.parseWith Template.shipped .grammar source path filter = .ok result := by
  constructor
  · have read : (ofLanguage (language.without c other)).read source = (ofLanguage language).read source :=
      LineState.readFrom_congr_of_mem (fun raw member => Vocabulary.kind_without other (avoids raw member))
        .idle 1
    simp only [parseWith, parseLines, read, mark]
    rfl
  · intro result
    refine parseWith_grammar_congr rfl (exists_compile_congr (language.name_without other))
      fun p q compiled compiled' tree => Parser.parse_iff_of_gives compiled compiled' fun given => ?_
    exact Rules.Shipped.gives_without other (Parser.shipped_rules compiled)
      (Parser.shipped_rules compiled') unbroken avoids

/-- Two concepts share a keyword. The steps of the one are found without the other. -/
theorem parseWith_without_shared :
    let a : Language := ⟨"en", .ofList [(.name, "English".toList), (.feature, "Feature".toList),
      (.scenario, "Scenario".toList), (.given, "*|Given".toList), (.but, "*|But".toList)], by decide⟩
    let source : Text := "Feature: f\n  Not a step, But text\n  Scenario: s\n    * x\n".toList
    (∀ k ∈ a.allKeywords, Unbroken k) ∧ (∀ raw ∈ source.lines, a.Avoids .but raw) ∧
    ∃ f, (a.without .but (by decide)).parseWith Template.shipped .lines source "f" .empty = .ok (some f) ∧
      (a.without .but (by decide)).parseWith Template.shipped .grammar source "f" .empty = .ok (some f) := by
  intro a source
  let f : Feature := ⟨some "en", [], [], "Feature".toList, ['f'], "Not a step, But text".toList, 1, none,
    [.scenario ⟨[], [], "Scenario".toList, ['s'], [], 3, [⟨"* ".toList, ['x'], 4, none⟩]⟩]⟩
  have separated : a.WellSeparated := by
    decide +kernel
  have avoids : ∀ raw ∈ source.lines, a.Avoids .but raw := by
    decide +kernel
  have leads : TagsLead ((ofLanguage a).read source).events := by
    decide +kernel
  have accepted : a.parseWith Template.shipped .lines source "f" .empty = .ok (some f) := by
    decide +kernel
  have named : '\n' ∉ a.name ∧ GrammarText.MayName a.entryRule := by
    decide +kernel
  obtain ⟨parser, compiled⟩ := Parser.exists_compile_iff.mpr named
  obtain ⟨lines, grammar⟩ :=
    parseWith_without a .but (by decide) separated.unbroken source avoids "f" .empty
  exact ⟨separated.unbroken, avoids, f, lines.trans accepted,
    (grammar _).mpr (parse_grammar_of_tagsLead compiled separated leads accepted)⟩

end Language

end FeatureFile
