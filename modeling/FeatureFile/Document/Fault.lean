import FeatureFile.Document.Event
import FeatureFile.Error
/-!
What can be wrong with the lines of a document, and how each fault is worded.
-/

namespace FeatureFile

/-- Why a line is refused. -/
inductive Cause where
  /-- A line belongs to nothing the format knows. -/
  | unexpectedText (text : Text)
  /-- A line starts with a fence and goes on. -/
  | textAfterFence
  /-- A doc string is never closed. -/
  | unterminatedDocString
  /-- A line starts with a tag and holds something else. -/
  | malformedTags
  /-- A table row is not closed. -/
  | openRow
  /-- There is a feature already. -/
  | secondFeature
  /-- A header other than the feature's comes first. -/
  | noFeature (before : SectionKind)
  /-- A background is tagged. -/
  | taggedBackground
  /-- A background follows another one, or an element. -/
  | misplacedBackground
  /-- An outline ends without examples. -/
  | outlineWithoutExamples
  /-- An examples section ends without a row. -/
  | examplesWithoutTable
  /-- Examples follow something other than an outline. -/
  | examplesWithoutOutline
  /-- A step is tagged. -/
  | taggedStep
  /-- A step stands where none may. -/
  | strayStep
  /-- A row has neither a step nor examples. -/
  | strayRow
  /-- A row follows the doc string of its step. -/
  | rowAfterDocString
  /-- A doc string has no step, or one with an argument. -/
  | strayDocString
  /-- Nothing follows the last tags. -/
  | tagsAtEnd
  deriving DecidableEq, Repr

/-- A header that cannot come first, as messages name it. -/
def SectionKind.described : SectionKind → String
  | feature => "a feature"
  | background => "a background"
  | scenario => "a scenario"
  | outline => "a scenario outline"
  | examples => "examples"

/-- The wording of a cause. -/
def Cause.message : Cause → String
  | unexpectedText text => "unexpected text " ++ String.ofList (Text.quoted text)
  | textAfterFence => "unexpected text after doc string fence"
  | unterminatedDocString => "unterminated doc string"
  | malformedTags => "malformed tag line"
  | openRow => "table row must start and end with `|`"
  | secondFeature => "a document holds a single feature"
  | noFeature before => "expected a feature header before " ++ before.described
  | taggedBackground => "tags are not allowed on a background"
  | misplacedBackground => "background must come once, before the first scenario"
  | outlineWithoutExamples => "scenario outline has no examples"
  | examplesWithoutTable => "examples section has no table"
  | examplesWithoutOutline => "examples must follow a scenario outline"
  | taggedStep => "tags must precede a scenario, outline or examples header"
  | strayStep => "step outside of a background, scenario or outline"
  | strayRow => "table row without a step or examples section"
  | rowAfterDocString => "step already has a doc string"
  | strayDocString => "doc string without a step"
  | tagsAtEnd => "tags at end of document"

/-- A cause and the line it is reported for. -/
structure Fault where
  cause : Cause
  line : Nat
  deriving DecidableEq, Repr

/-- The fault as an error of the document at `path`. -/
def Fault.toError (path : String) (fault : Fault) : DocumentError :=
  .atLine path fault.line fault.cause.message

end FeatureFile
