import FeatureFile.Grammar.Shipped
import FeatureFile.Proofs.Grammar.Reading
/-!
The rules that the shipped template compiles to. A grammar text is read piece by piece, so the parts
of the template that never change are read once and for all, and what a language puts in between is
read as a comment, as the name of a rule or as alternatives, whatever characters it has.
-/

namespace FeatureFile

open GrammarText

theorem Language.toList_entryRule (language : Language) :
    language.entryRule.toList = language.grammarIdentifier ++ "Parser".toList :=
  String.toList_ofList

namespace Template

/-- The rules of the shipped template that have no keywords in them, apart from the first. -/
def fixedRules : List Rule := [
  ⟨"feature", .normal, .sequence (.call "tags") [.call "sp", .call "feature_keyword", .literal [':'],
    .call "sp", .call "text", .call "line_end", .call "description", .opt (.call "background"),
    .star (.choices (.call "scenario_outline") [.call "scenario"])]⟩,
  ⟨"background", .normal, .sequence (.star (.call "ignorable")) [.call "sp",
    .call "background_keyword", .literal [':'], .call "sp", .call "text", .call "line_end",
    .call "description", .call "steps"]⟩,
  ⟨"scenario", .normal, .sequence (.call "tags") [.call "sp", .call "scenario_keyword",
    .literal [':'], .call "sp", .call "text", .call "line_end", .call "description", .call "steps"]⟩,
  ⟨"scenario_outline", .normal, .sequence (.call "tags") [.call "sp",
    .call "scenario_outline_keyword", .literal [':'], .call "sp", .call "text", .call "line_end",
    .call "description", .call "steps", .plus (.call "examples")]⟩,
  ⟨"examples", .normal, .sequence (.call "tags") [.call "sp", .call "examples_keyword",
    .literal [':'], .call "sp", .call "text", .call "line_end", .call "description",
    .star (.call "ignorable"), .call "table"]⟩,
  ⟨"steps", .silent, .star (.sequence (.star (.call "ignorable")) [.call "step"])⟩,
  ⟨"step", .normal, .sequence (.call "sp") [.call "step_keyword", .call "text", .call "line_end",
    .opt (.sequence (.star (.call "ignorable")) [.choices (.call "table") [.call "doc_string"]])]⟩,
  ⟨"table", .normal, .sequence (.call "table_row")
    [.star (.sequence (.star (.call "ignorable")) [.call "table_row"])]⟩,
  ⟨"table_row", .normal, .sequence (.call "sp") [.literal ['|'],
    .plus (.sequence (.call "cell") [.literal ['|']]), .call "line_end"]⟩,
  ⟨"cell", .atomic, .star (.sequence (.not (.choices (.literal ['|']) [.call "nl"])) [.any])⟩,
  ⟨"doc_string", .normal, .sequence (.call "sp") [.call "doc_string_fence", .call "sp", .call "nl",
    .call "doc_string_body", .call "sp", .call "doc_string_fence", .call "line_end"]⟩,
  ⟨"doc_string_body", .atomic, .star (.call "doc_string_line")⟩,
  ⟨"doc_string_line", .silent, .sequence (.not (.sequence (.call "sp") [.call "doc_string_fence"]))
    [.star (.sequence (.not (.call "nl")) [.any]), .call "nl"]⟩,
  ⟨"doc_string_fence", .silent, .literal ['"', '"', '"']⟩,
  ⟨"tags", .silent, .star (.choices (.call "tag_line") [.call "ignorable"])⟩,
  ⟨"tag_line", .silent, .sequence (.call "sp") [.call "tag",
    .star (.sequence (.call "sp") [.call "tag"]), .call "line_end"]⟩,
  ⟨"tag", .atomic, .sequence (.literal ['@']) [.plus (.sequence
    (.not (.choices (.literal [' ']) [.literal ['\t'], .literal ['@'], .call "nl"])) [.any])]⟩,
  ⟨"description", .normal, .star (.sequence (.not (.call "structural_start"))
    [.choices (.call "blank_line") [.call "description_line"]])⟩,
  ⟨"description_line", .silent, .sequence (.call "sp") [.sequence (.not (.call "nl")) [.any],
    .star (.sequence (.not (.call "nl")) [.any]), .call "line_end"]⟩,
  ⟨"structural_start", .silent, .sequence (.call "sp") [.choices (.literal ['#']) [.literal ['@'],
    .literal ['|'], .call "doc_string_fence", .call "step_keyword", .call "section_header"]]⟩,
  ⟨"section_header", .silent, .choices
    (.sequence (.call "scenario_outline_keyword") [.literal [':']])
    [.sequence (.call "scenario_keyword") [.literal [':']],
    .sequence (.call "background_keyword") [.literal [':']],
    .sequence (.call "examples_keyword") [.literal [':']],
    .sequence (.call "feature_keyword") [.literal [':']]]⟩,
  ⟨"ignorable", .silent, .choices (.call "blank_line") [.call "comment_line"]⟩,
  ⟨"comment_line", .silent, .sequence (.call "sp") [.call "comment", .call "line_end"]⟩,
  ⟨"comment", .atomic, .sequence (.literal ['#']) [.star (.sequence (.not (.call "nl")) [.any])]⟩,
  ⟨"text", .atomic, .star (.sequence (.not (.call "nl")) [.any])⟩,
  ⟨"sp", .silent, .star (.choices (.literal [' ']) [.literal ['\t']])⟩,
  ⟨"line_end", .silent, .sequence (.call "sp") [.choices (.call "nl") [.endOfInput]]⟩,
  ⟨"blank_line", .silent, .sequence (.call "sp") [.call "nl"]⟩,
  ⟨"nl", .silent, .choices (.literal ['\r', '\n']) [.literal ['\n']]⟩]

/-- The first rule of the shipped template, under the name it gets from a language. -/
def entryRule (name : String) : Rule :=
  ⟨name, .normal, .sequence .startOfInput [.star (.call "ignorable"), .opt (.call "feature"),
    .star (.call "ignorable"), .call "sp", .endOfInput]⟩

/-- The keyword lists of the shipped template, under the names of their rules. -/
def keywordLists (language : Language) : List (String × List Text) := [
  ("feature_keyword", language.presentKeywords .feature),
  ("background_keyword", language.presentKeywords .background),
  ("scenario_keyword", language.presentKeywords .scenario),
  ("scenario_outline_keyword", language.presentKeywords .scenarioOutline),
  ("examples_keyword", language.presentKeywords .examples),
  ("step_keyword", language.presentStepKeywords)]

/-- The rules of the shipped template for a language. -/
def shippedRules (language : Language) : List Rule :=
  entryRule language.entryRule :: (fixedRules ++
    (keywordLists language).map fun (name, keywords) => ⟨name, .atomic, keywordChoice keywords⟩)

/-- What stands in the shipped template between the first rule and the keywords. -/
def fixedText (lines : List Text) : Text :=
  ((lines.drop 4).take 72).flatMap (· ++ ['\n'])

end Template

namespace Template

/-! ### The parts that never change -/

/-- What there is to know about the characters of the shipped template. -/
def Parts (lines : List Text) : Prop :=
  pieces? (lines.flatMap (· ++ ['\n'])) = some
      [.literal "// Feature-file grammar for ".toList, .value "name" [],
        .literal ".\n// Rendered once per language; keyword rules come from its keyword table.\n\n".toList,
        .value "grammar_identifier" [],
        .literal ("Parser".toList ++ (" = \x7b SOI ~ ignorable* ~ feature? ~ ignorable* ~ sp ~ EOI \x7d\n".toList ++
          (fixedText lines ++ "feature_keyword          = @\x7b ".toList))),
        .value "feature_keywords" ["alternation"],
        .literal (" \x7d".toList ++ "\nbackground_keyword       = @\x7b ".toList),
        .value "background_keywords" ["alternation"],
        .literal (" \x7d".toList ++ "\nscenario_keyword         = @\x7b ".toList),
        .value "scenario_keywords" ["alternation"],
        .literal (" \x7d".toList ++ "\nscenario_outline_keyword = @\x7b ".toList),
        .value "scenario_outline_keywords" ["alternation"],
        .literal (" \x7d".toList ++ "\nexamples_keyword         = @\x7b ".toList),
        .value "examples_keywords" ["alternation"],
        .literal (" \x7d".toList ++ "\nstep_keyword             = @\x7b ".toList),
        .value "step_keywords" ["alternation"],
        .literal " \x7d".toList] ∧
    readFrom .between .between (fixedText lines) = some (fixedRules, .between, .between)

instance (lines : List Text) : Decidable (Parts lines) :=
  inferInstanceAs (Decidable (_ ∧ _))

private theorem read_line {line : String} {lines : List String} {chars : Text} {rest : List Text}
    (first : line.toList = chars) (others : lines.map String.toList = rest) :
    (line :: lines).map String.toList = chars :: rest := by
  rw [List.map_cons, first, others]

theorem parts_shipped : Parts (shippedLines.map String.toList) := by
  -- The characters of a literal are found by unification; evaluating `toList` takes far longer.
  have spelled : ∀ lines, lines = shippedLines →
      ∃ chars, lines.map String.toList = chars ∧ Parts chars := by
    intro lines same
    dsimp only [shippedLines] at same
    subst same
    apply Exists.intro
    apply And.intro
    · repeat (apply read_line; exact String.toList_ofList)
      exact rfl
    · decide +kernel
  obtain ⟨chars, read, parts⟩ := spelled _ rfl
  rwa [read]

/-! ### A language in the template -/

/-- The shipped template with the values of a language. -/
def shippedText (language : Language) : Text :=
  "// Feature-file grammar for ".toList ++ (language.name ++
  (".\n// Rendered once per language; keyword rules come from its keyword table.\n\n".toList ++
  (language.entryRule.toList ++
  (" = \x7b SOI ~ ignorable* ~ feature? ~ ignorable* ~ sp ~ EOI \x7d\n".toList ++
  (fixedText (shippedLines.map String.toList) ++
  ("feature_keyword          = @\x7b ".toList ++
  ((alternation (language.presentKeywords .feature) ++ " \x7d".toList) ++
  ("\nbackground_keyword       = @\x7b ".toList ++
  ((alternation (language.presentKeywords .background) ++ " \x7d".toList) ++
  ("\nscenario_keyword         = @\x7b ".toList ++
  ((alternation (language.presentKeywords .scenario) ++ " \x7d".toList) ++
  ("\nscenario_outline_keyword = @\x7b ".toList ++
  ((alternation (language.presentKeywords .scenarioOutline) ++ " \x7d".toList) ++
  ("\nexamples_keyword         = @\x7b ".toList ++
  ((alternation (language.presentKeywords .examples) ++ " \x7d".toList) ++
  ("\nstep_keyword             = @\x7b ".toList ++
  (alternation language.presentStepKeywords ++ " \x7d".toList)))))))))))))))))

private theorem render_pieces (language : Language) (a b c d e f g h i : Text) :
    [Piece.literal a, .value "name" [], .literal b, .value "grammar_identifier" [], .literal c,
      .value "feature_keywords" ["alternation"], .literal d,
      .value "background_keywords" ["alternation"], .literal e,
      .value "scenario_keywords" ["alternation"], .literal f,
      .value "scenario_outline_keywords" ["alternation"], .literal g,
      .value "examples_keywords" ["alternation"], .literal h,
      .value "step_keywords" ["alternation"], .literal i].mapM (Piece.render? filters (values language)) =
    some [a, language.name, b, language.grammarIdentifier, c,
      alternation (language.presentKeywords .feature), d,
      alternation (language.presentKeywords .background), e,
      alternation (language.presentKeywords .scenario), f,
      alternation (language.presentKeywords .scenarioOutline), g,
      alternation (language.presentKeywords .examples), h,
      alternation language.presentStepKeywords, i] := by
  rfl

private theorem flatten_pieces (a b c d e f g h i close name word parser fixed feature : Text)
    (k l m n o p : Text) :
    [a, name, b, word, parser ++ (c ++ (fixed ++ feature)), k, close ++ d, l, close ++ e, m,
      close ++ f, n, close ++ g, o, close ++ h, p, i].flatten =
    a ++ (name ++ (b ++ ((word ++ parser) ++ (c ++ (fixed ++ (feature ++ ((k ++ close) ++ (d ++
      ((l ++ close) ++ (e ++ ((m ++ close) ++ (f ++ ((n ++ close) ++ (g ++ ((o ++ close) ++
        (h ++ (p ++ i))))))))))))))))) := by
  simp

theorem render?_shipped (language : Language) :
    render? filters (values language) shipped = some (shippedText language) := by
  have whole : shipped = (shippedLines.map String.toList).flatMap (· ++ ['\n']) := by
    unfold shipped
    rw [List.flatMap_map]
  have pieces := parts_shipped.1
  rw [← whole] at pieces
  unfold render? shippedText
  rw [pieces]
  simp only [Option.bind_eq_bind, Option.bind_some]
  rw [render_pieces, Option.bind_some, flatten_pieces, Language.toList_entryRule]
  rfl

private theorem readFrom_entry {name : String} (may : MayName name) :
    readFrom (.name name.toList.reverse) .opening
      " = \x7b SOI ~ ignorable* ~ feature? ~ ignorable* ~ sp ~ EOI \x7d\n".toList =
      some ([entryRule name], .between, .between) := by
  have body : transduce GrammarText.Mode.step? .between
      "= \x7b SOI ~ ignorable* ~ feature? ~ ignorable* ~ sp ~ EOI \x7d\n".toList =
      some ([.mark .equals, .mark .openBrace, .name "SOI", .mark .tilde, .name "ignorable",
        .mark .star, .mark .tilde, .name "feature", .mark .optional, .mark .tilde,
        .name "ignorable", .mark .star, .mark .tilde, .name "sp", .mark .tilde, .name "EOI",
        .mark .closeBrace], .between) := by
    decide +kernel
  have rest : readFrom .between (.named name)
      "= \x7b SOI ~ ignorable* ~ feature? ~ ignorable* ~ sp ~ EOI \x7d\n".toList =
      some ([entryRule name], .between, .between) := by
    rw [readFrom, body]
    rfl
  exact readFrom_append (readFrom_named may) rest

/-- The text of a language whose name stays in its comment is read as the rules of the template. -/
theorem rules?_shippedText {language : Language} (unbroken : '\n' ∉ language.name)
    (may : MayName language.entryRule) :
    rules? (shippedText language) = some (shippedRules language) := by
  have heading : readFrom .between .opening "// Feature-file grammar for ".toList =
      some ([], .comment, .opening) := by
    decide +kernel
  have note : readFrom .comment .opening
      ".\n// Rendered once per language; keyword rules come from its keyword table.\n\n".toList =
      some ([], .between, .opening) := by
    decide +kernel
  have feature : readFrom .between .between "feature_keyword          = @\x7b ".toList =
      some ([], .between, .body "feature_keyword" .atomic .start []) := by
    decide +kernel
  have background : readFrom .between .between "\nbackground_keyword       = @\x7b ".toList =
      some ([], .between, .body "background_keyword" .atomic .start []) := by
    decide +kernel
  have scenario : readFrom .between .between "\nscenario_keyword         = @\x7b ".toList =
      some ([], .between, .body "scenario_keyword" .atomic .start []) := by
    decide +kernel
  have outline : readFrom .between .between "\nscenario_outline_keyword = @\x7b ".toList =
      some ([], .between, .body "scenario_outline_keyword" .atomic .start []) := by
    decide +kernel
  have examples : readFrom .between .between "\nexamples_keyword         = @\x7b ".toList =
      some ([], .between, .body "examples_keyword" .atomic .start []) := by
    decide +kernel
  have step : readFrom .between .between "\nstep_keyword             = @\x7b ".toList =
      some ([], .between, .body "step_keyword" .atomic .start []) := by
    decide +kernel
  exact rules?_of_readFrom <|
    readFrom_append heading <| readFrom_append (readFrom_comment _ unbroken) <|
    readFrom_append note <| readFrom_append (readFrom_word _ may.1) <|
    readFrom_append (readFrom_entry may) <| readFrom_append parts_shipped.2 <|
    readFrom_append feature <| readFrom_append (readFrom_alternation _ _ _) <|
    readFrom_append background <| readFrom_append (readFrom_alternation _ _ _) <|
    readFrom_append scenario <| readFrom_append (readFrom_alternation _ _ _) <|
    readFrom_append outline <| readFrom_append (readFrom_alternation _ _ _) <|
    readFrom_append examples <| readFrom_append (readFrom_alternation _ _ _) <|
    readFrom_append step (readFrom_alternation _ _ _)

end Template

end FeatureFile
