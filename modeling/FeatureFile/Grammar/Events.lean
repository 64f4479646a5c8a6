import FeatureFile.Grammar.Match
import FeatureFile.Document.Reading
/-!
Events of a match. The nodes are visited in document order, and a header is reported when its
description comes, so that what follows a header is reported after it.
-/

namespace FeatureFile

/-- The kind of header a rule stands for. -/
def SectionKind.ofRule? (rule : String) : Option SectionKind :=
  match rule with
  | "feature" => some .feature
  | "background" => some .background
  | "scenario" => some .scenario
  | "scenario_outline" => some .outline
  | "examples" => some .examples
  | _ => none

namespace Node

def rule : Node → String
  | mk rule _ _ _ => rule

def text : Node → Text
  | mk _ text _ _ => text

def line : Node → Nat
  | mk _ _ line _ => line

def children : Node → List Node
  | mk _ _ _ children => children

/-- Whether the rule is named for keywords. -/
def isKeyword (node : Node) : Bool :=
  "_keyword".toList.isSuffixOf node.rule.toList

/-- The trimmed texts of the cells among some nodes. -/
def cells (nodes : List Node) : List Text :=
  (nodes.filter (·.rule = "cell")).map fun node => node.text.trim

/-- The doc string of a match: the lines of its body, less the indentation of the fence. -/
def docString (node : Node) : Event :=
  let body := ((node.children.find? (·.rule = "doc_string_body")).map Node.text).getD []
  .docString (dedent body.lines node.text.indentation) node.line

mutual

/-- The events of a node. -/
def events : Node → List Event
  | mk rule text line children =>
    match SectionKind.ofRule? rule with
    | some kind => sectionEvents kind ⟨[], [], [], 0⟩ children
    | none =>
      match rule with
      | "comment" => [.comment text line]
      | "tag" => [.tag text line]
      | "step" => stepEvents line [] children
      | "table_row" => [.row (cells children) line]
      | "doc_string" => [docString (mk rule text line children)]
      | "EOI" => []
      | _ => allEvents children

/-- The events of some nodes. -/
def allEvents : List Node → List Event
  | [] => []
  | node :: nodes => node.events ++ allEvents nodes

/-- The events below a section, whose header gathers its keyword and name on the way. -/
def sectionEvents (kind : SectionKind) (header : Header) : List Node → List Event
  | [] => []
  | node :: nodes =>
    if node.isKeyword then
      sectionEvents kind { header with keyword := node.text, line := node.line } nodes
    else if node.rule = "text" then sectionEvents kind { header with name := node.text } nodes
    else if node.rule = "description" then
      .header kind { header with description := node.text } :: sectionEvents kind header nodes
    else node.events ++ sectionEvents kind header nodes

/-- The events below a step, which is reported with its text. -/
def stepEvents (line : Nat) (keyword : Text) : List Node → List Event
  | [] => []
  | node :: nodes =>
    if node.rule = "step_keyword" then stepEvents line node.text nodes
    else if node.rule = "text" then .step keyword node.text line :: stepEvents line keyword nodes
    else node.events ++ stepEvents line keyword nodes

end

/-- The reading of a document that has these matches. -/
def reading (nodes : List Node) (source : Text) : Reading :=
  ⟨allEvents nodes ++ [.endOfInput source.endLine], none⟩

end Node

end FeatureFile
