import FeatureFile.Grammar.Engine
import FeatureFile.Grammar.Events
/-!
Parsers: grammars made from a template for one language, whatever engine makes and matches them. A document
has to match the entry rule, which is named for the language; a mismatch is worded with the keywords of the
language.
-/

namespace FeatureFile

variable {R : Type}

/-- The rules for the documents of one language. -/
structure Parser (R : Type := Grammar) where
  language : Language
  entryRule : String
  grammar : R
  deriving DecidableEq, Repr

/-- The name of the rule a whole document has to match. -/
def Language.entryRule (language : Language) : String :=
  String.ofList (language.grammarIdentifier ++ "Parser".toList)

/-- The template with the values of a language. -/
def Template.render [Engine R] (template : Text) (language : Language) : Except Error Text :=
  match Engine.render R filters (values language) template with
  | .ok text => .ok text
  | .error reason => .error (.badGrammar language.identifier reason)

namespace Parser

/-- The rules of a grammar text. -/
def grammarOf [Engine R] (language : Language) (text : Text) : Except Error R :=
  match Engine.compile text with
  | .ok rules => .ok rules
  | .error reasons => .error (.badGrammar language.identifier ("\n".intercalate reasons))

/-- The parser of a language by a template. -/
def compile [Engine R] (template : Text) (language : Language) : Except Error (Parser R) := do
  let text ← Template.render (R := R) template language
  let grammar ← grammarOf language text
  if (Engine.ruleNames grammar).contains language.entryRule then
    return ⟨language, language.entryRule, grammar⟩
  else throw (.missingEntryRule language.identifier language.entryRule)

/-- Keywords in backticks, each with something behind it, separated by commas. -/
def listed (keywords : List Text) (suffix : String) : String :=
  ", ".intercalate (keywords.map fun keyword => "`" ++ String.ofList keyword ++ suffix ++ "`")

/-- What a header of a kind looks like. -/
def headerDescription (language : Language) (name : String) (kind : SectionKind) : String :=
  name ++ " header (" ++ listed (language.presentKeywords kind.concept) ":" ++ ")"

/-- How messages name what a rule matches. -/
def describe (parser : Parser R) (rule : String) : String :=
  let header := headerDescription parser.language
  match rule with
  | "feature" | "feature_keyword" => header "feature" .feature
  | "background" | "background_keyword" => header "background" .background
  | "scenario" | "scenario_keyword" => header "scenario" .scenario
  | "scenario_outline" | "scenario_outline_keyword" => header "scenario outline" .outline
  | "examples" | "examples_keyword" => header "examples" .examples
  | "step" | "step_keyword" => "step (" ++ listed parser.language.presentStepKeywords "" ++ ")"
  | "table" => "table"
  | "table_row" => "table row"
  | "cell" => "table cell"
  | "doc_string" => "doc string"
  | "doc_string_body" => "doc string content"
  | "tag" => "tag"
  | "comment" => "comment"
  | "EOI" => "end of input"
  | _ =>
    if rule = parser.entryRule then "a feature"
    else String.ofList (rule.toList.map fun c => if c = '_' then ' ' else c)

/-- Names the rules, each description once. -/
def describeAll (parser : Parser R) (rules : List String) : String :=
  " or ".intercalate (rules.map parser.describe).eraseDups

/-- The wording of a mismatch. -/
def wording (parser : Parser R) : Mismatch.Reason → String
  | .rules [] [] => "unexpected input"
  | .rules expected [] => "expected " ++ parser.describeAll expected
  | .rules [] unexpected => "unexpected " ++ parser.describeAll unexpected
  | .rules expected unexpected =>
    "unexpected " ++ parser.describeAll unexpected ++ "; expected " ++ parser.describeAll expected
  | .message text => text

/-- The nodes of a document, or the error where it does not match. -/
def nodes [Engine R] (parser : Parser R) (source : Text) (path : String) :
    Except DocumentError (List Node) :=
  match Engine.run parser.grammar parser.entryRule source with
  | .ok nodes => .ok nodes
  | .error mismatch =>
    .error ⟨path, some (.ofNat mismatch.line mismatch.col), parser.wording mismatch.reason⟩

/-- The tree of a document behind a filter, or nothing for a document without a feature. -/
def parse [Engine R] (parser : Parser R) (source : Text) (path : String) (filter : Filter) :
    Except DocumentError (Option Feature) := do
  let nodes ← parser.nodes source path
  match (Node.reading nodes source).tree filter with
  | .ok feature => return feature
  | .error fault => throw (fault.toError path)

end Parser

end FeatureFile
