import FeatureFile.Text.Basic
/-!
The tree of a feature file. Lines are counted from one. Keywords stand as written, with the space of
a step keyword; tags keep their `@` and comments their `#`.
-/

namespace FeatureFile

/-- A tag of a feature, an element or an examples section. -/
structure Tag where
  name : Text
  line : Nat
  deriving DecidableEq, Repr

/-- A comment line. -/
structure Comment where
  text : Text
  line : Nat
  deriving DecidableEq, Repr

/-- A row of a table. -/
structure Row where
  cells : List Text
  line : Nat
  deriving DecidableEq, Repr

/-- A block of text between fences; the line is that of the opening fence. -/
structure DocString where
  content : Text
  line : Nat
  deriving DecidableEq, Repr

/-- What a step may carry on the lines below it. -/
inductive StepArgument where
  | table (rows : List Row)
  | docString (block : DocString)
  deriving DecidableEq, Repr

/-- A step of a background or an element. -/
structure Step where
  keyword : Text
  name : Text
  line : Nat
  argument : Option StepArgument
  deriving DecidableEq, Repr

/-- Steps that precede those of every element. -/
structure Background where
  comments : List Comment
  keyword : Text
  name : Text
  description : Text
  line : Nat
  steps : List Step
  deriving DecidableEq, Repr

/-- An example of what the feature does. -/
structure Scenario where
  comments : List Comment
  tags : List Tag
  keyword : Text
  name : Text
  description : Text
  line : Nat
  steps : List Step
  deriving DecidableEq, Repr

/-- A table of values for the placeholders of an outline. -/
structure Examples where
  comments : List Comment
  tags : List Tag
  keyword : Text
  name : Text
  description : Text
  line : Nat
  rows : List Row
  deriving DecidableEq, Repr

/-- A scenario with placeholders, and the values for them. -/
structure Outline where
  comments : List Comment
  tags : List Tag
  keyword : Text
  name : Text
  description : Text
  line : Nat
  steps : List Step
  examples : List Examples
  deriving DecidableEq, Repr

/-- A scenario or an outline. -/
inductive Element where
  | scenario (scenario : Scenario)
  | outline (outline : Outline)
  deriving DecidableEq, Repr

/-- The whole tree; `language` is the identifier of the language it was read in, once known. -/
structure Feature where
  language : Option String
  comments : List Comment
  tags : List Tag
  keyword : Text
  name : Text
  description : Text
  line : Nat
  background : Option Background
  elements : List Element
  deriving DecidableEq, Repr

namespace Examples

/-- The row that names the columns. -/
def header? (examples : Examples) : Option Row :=
  examples.rows.head?

/-- The lines of the header, the tags and the rows. -/
def lines (examples : Examples) : List Nat :=
  examples.line :: (examples.tags.map (·.line) ++ examples.rows.map (·.line))

end Examples

namespace Element

def name : Element → Text
  | scenario s => s.name
  | outline o => o.name

def line : Element → Nat
  | scenario s => s.line
  | outline o => o.line

def tags : Element → List Tag
  | scenario s => s.tags
  | outline o => o.tags

def steps : Element → List Step
  | scenario s => s.steps
  | outline o => o.steps

/-- The examples sections, of which a scenario has none. -/
def examples : Element → List Examples
  | scenario _ => []
  | outline o => o.examples

/-- The lines an element owns: its header, its tags, its steps, and those of its examples. -/
def lines (element : Element) : List Nat :=
  element.line :: (element.tags.map (·.line) ++ element.steps.map (·.line)
    ++ element.examples.flatMap Examples.lines)

end Element

namespace Feature

/-- The tree without the mark of its language. -/
def content (feature : Feature) : Feature :=
  { feature with language := none }

/-- Equality of everything but the language. -/
def sameContent (a b : Feature) : Bool :=
  a.content = b.content

end Feature

end FeatureFile
