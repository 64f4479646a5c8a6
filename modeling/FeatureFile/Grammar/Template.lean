import FeatureFile.Grammar.Transducer
import FeatureFile.Language.Keywords
/-!
Grammar templates: text with places for values of a language, written as a name in two braces, and
behind a bar the filter that turns a list of keywords into alternatives. Values are put in as they
are and never read as template text, and comments leave nothing.
-/

namespace FeatureFile.Template

/-- A part of a template: text, or a place for a value with the filters it goes through. -/
inductive Piece where
  | literal (text : Text)
  | value (name : String) (filters : List String)
  deriving DecidableEq, Repr

/-- What stands between braces: a place for a value in two braces, or a comment between `#` signs. -/
inductive Tag where
  | value | comment
  deriving DecidableEq, Repr

/-- The first of the two characters that close a tag; the second is a brace. -/
def Tag.closer : Tag → Char
  | value => '\x7d'
  | comment => '#'

/-- What is open between two characters; texts are kept last character first. -/
inductive Mode where
  | literal (read : Text)
  /-- White space behind a tag that drops it. -/
  | trimming
  /-- One brace behind literal text. -/
  | brace (read : Text)
  /-- The beginning of a tag behind literal text. -/
  | opened (tag : Tag) (read : Text)
  | inside (tag : Tag) (read : Text)
  /-- The first closing character of a tag. -/
  | closing (tag : Tag) (read : Text)
  deriving DecidableEq, Repr

/-- Whether a name may start with the character. -/
def isNameStart (c : Char) : Bool :=
  c.isAlpha || c = '_'

/-- Whether the text is a name; a negation is none. -/
def isName : Text → Bool
  | [] => false
  | c :: rest =>
    isNameStart c && rest.all (fun c => c.isAlphanum || c = '_') && c :: rest ≠ "not".toList

/-- Space, tab, form feed or line break: the white space inside a tag. -/
def isSpace (c : Char) : Bool :=
  c = ' ' || c = '\t' || c = '\n' || c = '\r' || c = '\x0c'

/-- The place between two pairs of braces: a name, and the names of filters behind bars. -/
def expression? (content : Text) : Option Piece :=
  let names := (content.splitOn '|').map (Text.trimBy isSpace)
  if names.all isName then
    match names.map String.ofList with
    | name :: filters => some (.value name filters)
    | [] => none
  else none

/-- Literal text as a piece. -/
def literalPiece (read : Text) : Piece := .literal read.reverse

namespace Mode

/-- The sign at the end of a tag: whether white space behind the tag is dropped, and the rest. -/
def sign : Text → Bool × Text
  | '-' :: read => (true, read)
  | '+' :: read => (false, read)
  | read => (false, read)

/-- A character of literal text. -/
def text (read : Text) (c : Char) : Mode :=
  if c = '\x7b' then brace read else literal (c :: read)

/-- A character inside a tag. -/
def content (tag : Tag) (read : Text) (c : Char) : Mode :=
  if c = tag.closer then closing tag read else inside tag (c :: read)

/-- The end of a tag. -/
def close? (tag : Tag) (read : Text) : Option (List Piece × Mode) :=
  let (trims, read) := sign read
  let next := if trims then trimming else literal []
  match tag with
  | .comment => some ([], next)
  | .value => (expression? read.reverse).map fun piece => ([piece], next)

/-- One more character. A hyphen at either end of a tag drops the white space on that side, and
tags for statements are refused. -/
def step? : Mode → Char → Option (List Piece × Mode)
  | literal read, c => some ([], text read c)
  | trimming, c => some ([], if Text.isWhitespace c then trimming else text [] c)
  | brace read, c =>
    if c = '\x7b' then some ([], opened .value read)
    else if c = '#' then some ([], opened .comment read)
    else if c = '%' then none
    else some ([], literal (c :: '\x7b' :: read))
  | opened tag read, c =>
    if c = '-' then some ([literalPiece (read.dropWhile Text.isWhitespace)], inside tag [])
    else if c = '+' then some ([literalPiece read], inside tag [])
    else some ([literalPiece read], content tag [] c)
  | inside tag read, c => some ([], content tag read c)
  | closing tag read, c =>
    if c = '\x7d' then close? tag read else some ([], content tag (tag.closer :: read) c)

/-- The pieces due at the end of the template. -/
def finish? : Mode → Option (List Piece)
  | literal read => some [literalPiece read]
  | trimming => some []
  | brace read => some [literalPiece ('\x7b' :: read)]
  | opened _ _ | inside _ _ | closing _ _ => none

end Mode

/-- The text without one such character at its end. -/
def dropFinal (c : Char) (text : Text) : Text :=
  if text.getLast? = some c then text.dropLast else text

/-- The text without the line break at its end: a CR LF, or either of the two. -/
def dropFinalBreak (text : Text) : Text :=
  dropFinal '\r' (dropFinal '\n' text)

/-- The pieces of a template, whose final line break is not part of it. -/
def pieces? (template : Text) : Option (List Piece) :=
  (transduce Mode.step? (.literal []) (dropFinalBreak template)).bind fun (pieces, last) =>
    last.finish?.map (pieces ++ ·)

/-- One character of a literal in grammar text. -/
def escape : Char → Text
  | '"' => ['\\', '"']
  | '\\' => ['\\', '\\']
  | '\t' => ['\\', 't']
  | c => [c]

/-- The text as a literal in grammar text. -/
def literal (text : Text) : Text :=
  '"' :: text.flatMap escape ++ ['"']

/-- The keywords of an alternation: each once, none empty, longest first. -/
def alternatives (keywords : List Text) : List Text :=
  longestFirst List.length (keywords.filter (!·.isEmpty)).eraseDups

/-- Keywords as an ordered choice in grammar text; of none, an expression that never matches. -/
def alternation (keywords : List Text) : Text :=
  match alternatives keywords with
  | [] => "!ANY ~ ANY".toList
  | first :: rest => " | ".toList.intercalate ((first :: rest).map literal)

/-- A value that a template is given. -/
inductive Value where
  | text (text : Text)
  | list (texts : List Text)
  deriving DecidableEq, Repr

/-- What the template of a language is given, by name. -/
def values (language : Language) : List (String × Value) :=
  [("grammar_identifier", .text language.grammarIdentifier), ("name", .text language.name),
    ("feature_keywords", .list (language.presentKeywords .feature)),
    ("background_keywords", .list (language.presentKeywords .background)),
    ("scenario_keywords", .list (language.presentKeywords .scenario)),
    ("scenario_outline_keywords", .list (language.presentKeywords .scenarioOutline)),
    ("examples_keywords", .list (language.presentKeywords .examples)),
    ("step_keywords", .list language.presentStepKeywords)]

/-- The filters that a template is given, by name: what each makes of the texts in a value. -/
def filters : List (String × (List Text → Text)) :=
  [("alternation", alternation)]

/-- What a name can stand for. -/
inductive Binding where
  /-- An unknown name. -/
  | missing
  /-- The name for no value. -/
  | nothing
  | truth (value : Bool)
  | text (text : Text)
  | list (texts : List Text)
  deriving DecidableEq, Repr

namespace Binding

/-- The value as text; a list in brackets, with quotes around its texts. -/
def shown : Binding → Text
  | missing => []
  | nothing => "None".toList
  | truth value => (if value then "True" else "False").toList
  | text t => t
  | list ts => '[' :: ", ".toList.intercalate (ts.map Text.quoted) ++ [']']

/-- The texts in the value, if it has any parts; those of a text are its characters. -/
def items? : Binding → Option (List Text)
  | missing | nothing => some []
  | truth _ => none
  | text t => some (t.map ([·]))
  | list ts => some ts

/-- What a filter makes of the value; only the given filters are known. -/
def filter? (filters : List (String × (List Text → Text))) (value : Binding) (name : String) :
    Option Binding :=
  (filters.lookup name).bind fun filter => value.items?.map fun items => text (filter items)

/-- What a name stands for: a constant or a given value. -/
def ofName (values : List (String × Value)) (name : String) : Binding :=
  match name with
  | "true" | "True" => truth true
  | "false" | "False" => truth false
  | "none" | "None" => nothing
  | _ =>
    match values.lookup name with
    | some (.text t) => text t
    | some (.list ts) => list ts
    | none => missing

end Binding

section

variable (filters : List (String × (List Text → Text))) (values : List (String × Value))

/-- What a piece becomes. -/
def Piece.render? : Piece → Option Text
  | .literal text => some text
  | .value name names =>
    (names.foldlM (Binding.filter? filters) (.ofName values name)).map Binding.shown

/-- The template with the values filled in, unless it is malformed. -/
def render? (template : Text) : Option Text := do
  let pieces ← pieces? template
  let texts ← pieces.mapM (Piece.render? filters values)
  return texts.flatten

end

end FeatureFile.Template
