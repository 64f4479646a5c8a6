import FeatureFile.Document.Tree
import FeatureFile.Text.Whitespace
/-!
Filters on the elements of a feature. A filter has three kinds of criteria, and an element stays
when it satisfies every kind that is set:

* tag expressions, of which each must hold; an expression holds when one of its comma-separated
  terms does, and a term when its tag is present, or absent behind `~`;
* names, of which one must occur in the element's name;
* lines, of which one must be a line the element owns.

The tags of the feature count for every element; those of an examples section for that section.
-/

namespace FeatureFile

/-- A tag that has to be present, or absent if `negated`. -/
structure TagTerm where
  name : Text
  negated : Bool
  deriving DecidableEq, Repr

namespace TagTerm

/-- The name of a tag with its `@`, supplied if it is missing. -/
def tagName (name : Text) : Text :=
  match name with
  | '@' :: _ => name
  | _ => '@' :: name

/-- Reads one term; blank terms and a lone `~` are none. -/
def parse? (term : Text) : Option TagTerm :=
  let (negated, name) :=
    match term.trim with
    | '~' :: rest => (true, Text.trim rest)
    | name => (false, name)
  if name.isEmpty then none else some ⟨tagName name, negated⟩

/-- Whether the term holds for the tag names. -/
def holds (term : TagTerm) (names : List Text) : Bool :=
  names.contains term.name != term.negated

end TagTerm

/-- Criteria for the elements of a feature. -/
structure Filter where
  expressions : List (List TagTerm)
  names : List Text
  lines : List Nat
  deriving DecidableEq, Repr

namespace Filter

/-- The filter that keeps everything. -/
def empty : Filter := ⟨[], [], []⟩

instance : Inhabited Filter := ⟨empty⟩

/-- Whether no criterion is set. -/
def isEmpty (filter : Filter) : Bool :=
  filter.expressions.isEmpty && filter.names.isEmpty && filter.lines.isEmpty

/-- The terms of a tag expression. -/
def readExpression (expression : Text) : List TagTerm :=
  (expression.splitOn ',').filterMap TagTerm.parse?

/-- Adds a tag expression; one without terms adds nothing. -/
def withTags (filter : Filter) (expression : Text) : Filter :=
  let terms := readExpression expression
  if terms.isEmpty then filter else { filter with expressions := filter.expressions ++ [terms] }

/-- Adds a text to look for in names. -/
def withName (filter : Filter) (part : Text) : Filter :=
  { filter with names := filter.names ++ [part] }

/-- Adds a line. -/
def withLine (filter : Filter) (line : Nat) : Filter :=
  { filter with lines := filter.lines ++ [line] }

/-- Whether every tag expression holds for the tags. -/
def holdsFor (filter : Filter) (tags : List Tag) : Bool :=
  filter.expressions.all fun terms => terms.any fun term => term.holds (tags.map (·.name))

/-- Whether the name satisfies the names asked for, if any. -/
def acceptsName (filter : Filter) (name : Text) : Bool :=
  filter.names.isEmpty || filter.names.any fun part => part.occursIn name

/-- Whether the element owns one of the lines asked for, if any. -/
def acceptsLines (filter : Filter) (lines : List Nat) : Bool :=
  filter.lines.isEmpty || lines.any filter.lines.contains

/-- What the tag expressions leave of an element in a feature with the given tags. An outline keeps
the examples sections they hold for and goes when none is left. -/
def keepTagged? (filter : Filter) (inherited : List Tag) : Element → Option Element
  | .scenario s => if filter.holdsFor (inherited ++ s.tags) then some (.scenario s) else none
  | .outline o =>
    if filter.expressions.isEmpty then some (.outline o)
    else
      let kept := o.examples.filter fun e => filter.holdsFor (inherited ++ o.tags ++ e.tags)
      if kept.isEmpty then none else some (.outline { o with examples := kept })

/-- What the filter leaves of an element in a feature with the given tags. -/
def keep? (filter : Filter) (inherited : List Tag) (element : Element) : Option Element :=
  if filter.acceptsName element.name && filter.acceptsLines element.lines then
    filter.keepTagged? inherited element
  else none

/-- The feature with what the filter leaves of its elements. -/
def apply (filter : Filter) (feature : Feature) : Feature :=
  { feature with elements := feature.elements.filterMap (filter.keep? feature.tags) }

end Filter

end FeatureFile
