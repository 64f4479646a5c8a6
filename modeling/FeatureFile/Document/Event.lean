import FeatureFile.Keyword.Concept
/-!
Events: what a reader of a document reports, in document order. Both ways of reading end in a list
of events, from which the tree is assembled.
-/

namespace FeatureFile

/-- The kinds of header a document can have. -/
inductive SectionKind where
  | feature | background | scenario | outline | examples
  deriving DecidableEq, Repr

namespace SectionKind

/-- Every kind, in the order in which headers of equally long keywords are tried. -/
def all : List SectionKind :=
  [feature, background, scenario, outline, examples]

/-- The concept whose keywords open a header of the kind. -/
def concept : SectionKind → Concept
  | feature => .feature
  | background => .background
  | scenario => .scenario
  | outline => .scenarioOutline
  | examples => .examples

theorem mem_all (kind : SectionKind) : kind ∈ all := by
  cases kind <;> decide

end SectionKind

/-- A header with the raw lines of its description, joined by line feeds. -/
structure Header where
  keyword : Text
  name : Text
  description : Text
  line : Nat
  deriving DecidableEq, Repr

/-- One thing found in a document. -/
inductive Event where
  | comment (text : Text) (line : Nat)
  | tag (name : Text) (line : Nat)
  | header (kind : SectionKind) (header : Header)
  | step (keyword name : Text) (line : Nat)
  | row (cells : List Text) (line : Nat)
  | docString (content : Text) (line : Nat)
  | endOfInput (line : Nat)
  deriving DecidableEq, Repr

/-- The line an event is reported for. -/
def Event.line : Event → Nat
  | comment _ line => line
  | tag _ line => line
  | header _ opened => opened.line
  | step _ _ line => line
  | row _ line => line
  | docString _ line => line
  | endOfInput line => line

end FeatureFile
