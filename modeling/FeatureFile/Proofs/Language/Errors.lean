import FeatureFile.Language.Parse
import FeatureFile.Proofs.Grammar.Positions
import FeatureFile.Proofs.Line.Positions
/-!
What can go wrong in parsing, and where. A language, a template and a document are refused for the grammar,
or for the document at one of its lines.
-/

namespace FeatureFile

variable {R : Type} [Engine R]

/-- A template gives no grammar for the language, or one without the rule that documents have to match. -/
inductive Parser.Uncompiled (R : Type) [Engine R] (template : Text) (language : Language) : Error → Prop where
  | template {reason : String}
      (refused : Engine.render R Template.filters (Template.values language) template = .error reason) :
    Uncompiled R template language (.badGrammar language.identifier reason)
  | grammar {text : Text} {reasons : List String}
      (rendered : Engine.render R Template.filters (Template.values language) template = .ok text)
      (refused : Engine.compile (R := R) text = .error reasons) :
    Uncompiled R template language (.badGrammar language.identifier ("\n".intercalate reasons))
  | entryRule {text : Text} {rules : R}
      (rendered : Engine.render R Template.filters (Template.values language) template = .ok text)
      (compiled : Engine.compile text = .ok rules) (absent : language.entryRule ∉ Engine.ruleNames rules) :
    Uncompiled R template language (.missingEntryRule language.identifier language.entryRule)

theorem Parser.uncompiled_of_error {template : Text} {language : Language} {error : Error}
    (failed : compile (R := R) template language = .error error) : Uncompiled R template language error := by
  simp only [compile, Template.render, bind, Except.bind] at failed
  -- The template, its text, and the entry rule, in turn: the first of them that fails is the reason.
  cases rendered : Engine.render R Template.filters (Template.values language) template with
  | error reason =>
    rw [rendered] at failed
    cases failed
    exact .template rendered
  | ok text =>
    simp only [rendered, grammarOf] at failed
    cases compiled : Engine.compile (R := R) text with
    | error reasons =>
      rw [compiled] at failed
      cases failed
      exact .grammar rendered compiled
    | ok rules =>
      simp only [compiled] at failed
      split at failed <;> cases failed
      next absent => exact .entryRule rendered compiled (by simpa using absent)

namespace Language

variable {language : Language} {source : Text} {path : String} {filter : Filter}

theorem within_of_mark_error {parsed : Except DocumentError (Option Feature)} {error : Error}
    (located : ∀ found, parsed = .error found → found.Within path source)
    (failed : language.mark parsed = .error error) :
    ∃ found, error = .document found ∧ found.Within path source := by
  unfold mark at failed
  split at failed <;> cases failed
  exact ⟨_, rfl, located _ rfl⟩

theorem within_of_parseLines_error (short : source.endLine < UInt32.size) {error : DocumentError}
    (failed : language.parseLines source path filter = .error error) : error.Within path source := by
  unfold parseLines at failed
  split at failed <;> cases failed
  next fault refused =>
    exact Fault.within_toError short ((Vocabulary.within_read _ source).line_le refused)

/-- Every error of parsing names the document and a line of it, or the line behind the last. Only the
grammar can bring another one, if there is none or if it lacks its entry rule. -/
theorem within_of_parseWith_error {R : Type} [Engine R] (located : Engine.Located R) (language : Language)
    (template : Text) (backend : Backend) (source : Text) (path : String) (filter : Filter)
    (short : source.lines.length + 1 < UInt32.size) (error : Error)
    (failed : language.parseWith (R := R) template backend source path filter = .error error) :
    (∃ found, error = .document found ∧ found.Within path source) ∨
      backend = .grammar ∧ Parser.compile (R := R) template language = .error error ∧
        Parser.Uncompiled R template language error := by
  cases backend with
  | lines => exact .inl (within_of_mark_error (fun _ => within_of_parseLines_error short) failed)
  | grammar =>
    cases compiled : Parser.compile (R := R) template language with
    | error uncompiled =>
      simp only [parseWith, compiled, bind, Except.bind] at failed
      cases failed
      exact .inr ⟨rfl, rfl, Parser.uncompiled_of_error compiled⟩
    | ok parser =>
      simp only [parseWith, compiled, bind, Except.bind] at failed
      exact .inl (within_of_mark_error (fun _ => Parser.within_of_parse_error located short) failed)

/-- Tags at the end, which are reported behind the last line, a document that ends too early for a grammar,
and a template with another entry rule. -/
theorem within_of_parseWith_error_tags :
    let language : Language :=
      ⟨"en", .ofList [(.name, "English".toList), (.feature, "Feature".toList)], by decide⟩
    let source : Text := "Feature: f\n  @t\n".toList
    let template : Text := "EnglishParser = \x7b \"Feature: f\\n  \" ~ mark \x7d mark = \x7b \"*\" \x7d".toList
    let other : Text := "parser = \x7b \"a\" \x7d".toList
    source.lines.length + 1 < UInt32.size ∧ Engine.Located Grammar ∧
      (∃ found, language.parseWith template .lines source "f" .empty = .error (.document found) ∧
        found.position = some (.ofNat 3 1) ∧ found.Within "f" source) ∧
      (∃ found, language.parseWith template .grammar source "f" .empty = .error (.document found) ∧
        found.position = some (.ofNat 2 3) ∧ found.Within "f" source) ∧
      ∃ error, language.parseWith other .grammar source "f" .empty = .error error ∧
        Parser.Uncompiled Grammar other language error := by
  intro language source template other
  have short : source.lines.length + 1 < UInt32.size := by
    decide +kernel
  let behind : DocumentError := .atLine "f" 3 "tags at end of document"
  let early : DocumentError := ⟨"f", some (.ofNat 2 3), "expected mark"⟩
  have lines : language.parseWith template .lines source "f" .empty = .error (.document behind) := by
    decide +kernel
  have grammar : language.parseWith template .grammar source "f" .empty = .error (.document early) := by
    decide +kernel
  have absent : language.parseWith other .grammar source "f" .empty =
      .error (.missingEntryRule "en" "EnglishParser") := by
    decide +kernel
  refine ⟨short, Grammar.located, ⟨behind, lines, rfl, ?_⟩, ⟨early, grammar, rfl, ?_⟩, _, absent, ?_⟩
  · obtain ⟨_, same, within⟩ | ⟨wrong, _⟩ :=
      within_of_parseWith_error Grammar.located language template .lines source "f" .empty short _ lines
    · cases same
      exact within
    · cases wrong
  · obtain ⟨_, same, within⟩ | ⟨_, _, uncompiled⟩ :=
      within_of_parseWith_error Grammar.located language template .grammar source "f" .empty short _ grammar
    · cases same
      exact within
    · cases uncompiled
  · obtain ⟨_, same, _⟩ | ⟨_, _, uncompiled⟩ :=
      within_of_parseWith_error Grammar.located language other .grammar source "f" .empty short _ absent
    · cases same
    · exact uncompiled

end Language

end FeatureFile
