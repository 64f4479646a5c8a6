import FeatureFile.Line.Vocabulary
/-!
What a single line is, outside of doc strings: decided by its first characters behind the
indentation, and where those say nothing, by the keywords of the language.
-/

namespace FeatureFile

/-- Three double quotes, which open and close a doc string. -/
def fence : Text := ['"', '"', '"']

/-- Whether a line is a fence; if so, whether only spaces and tabs follow it. -/
def fence? (raw : Text) : Option Bool :=
  (Text.after? fence raw.unindent).map (·.all Text.isBlankChar)

/-- The kinds of line. Texts come without the indentation of the line. -/
inductive LineKind where
  | blank
  | comment (text : Text)
  | tags (text : Text)
  | row (text : Text)
  | fence (bare : Bool)
  | step (keyword name : Text)
  | header (kind : SectionKind) (keyword name : Text)
  | other (text : Text)
  deriving DecidableEq, Repr

/-- The kind of a line outside of doc strings. -/
def Vocabulary.kind (vocabulary : Vocabulary) (raw : Text) : LineKind :=
  match raw.unindent with
  | [] => .blank
  | '#' :: rest => .comment ('#' :: rest)
  | '@' :: rest => .tags ('@' :: rest)
  | '|' :: rest => .row ('|' :: rest)
  | text =>
    match fence? raw with
    | some bare => .fence bare
    | none =>
      match vocabulary.step? text with
      | some (keyword, name) => .step keyword name
      | none =>
        match vocabulary.header? text with
        | some (kind, keyword, name) => .header kind keyword name
        | none => .other text

end FeatureFile
