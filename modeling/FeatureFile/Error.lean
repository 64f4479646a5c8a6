import FeatureFile.Keyword.Concept
import FeatureFile.Position
/-!
Everything that can go wrong between a language identifier and a document's tree, with the wording
of each in one place.
-/

namespace FeatureFile

/-- What is wrong with a document, and where. -/
structure DocumentError where
  path : String
  position : Option LineCol
  message : String
  deriving DecidableEq, Repr

namespace DocumentError

/-- An error at the beginning of a line, counted from one. -/
def atLine (path : String) (line : Nat) (message : String) : DocumentError :=
  ⟨path, some (LineCol.ofNat line 1), message⟩

/-- Path, position if known, and message, separated by colons. -/
protected def toString (e : DocumentError) : String :=
  match e.position with
  | some position => e.path ++ ":" ++ toString position ++ ": " ++ e.message
  | none => e.path ++ ": " ++ e.message

instance : ToString DocumentError := ⟨DocumentError.toString⟩

end DocumentError

/-- Why a language, its grammar or a document is refused. -/
inductive Error where
  /-- The identifier is not registered. -/
  | unsupportedLanguage (language : String)
  /-- The keyword table, or the whole registry, cannot be used. -/
  | invalidDefinition (language reason : String)
  /-- Keywords were asked for that the table does not define. -/
  | missingConcept (language : String) (concept : Concept)
  /-- The grammar text could not be made or is no grammar. -/
  | badGrammar (language reason : String)
  /-- The grammar does not define the rule that a whole document has to match. -/
  | missingEntryRule (language expected : String)
  /-- The document does not follow the format. -/
  | document (error : DocumentError)
  deriving DecidableEq, Repr

namespace Error

/-- The wording of an error. -/
def message : Error → String
  | unsupportedLanguage language => "language not supported: " ++ quoted language
  | invalidDefinition language reason =>
    "invalid definition for language " ++ quoted language ++ ": " ++ reason
  | missingConcept language concept =>
    "no " ++ concept.key ++ " keywords defined for language " ++ quoted language
  | badGrammar language reason =>
    "grammar for language " ++ quoted language ++ " failed to compile: " ++ reason
  | missingEntryRule language expected =>
    "generated parser " ++ expected ++ " not found in grammar for language " ++ quoted language
  | document error => toString error

/-- The table of a language has no `name` entry. -/
def nameless (language : String) : Error :=
  invalidDefinition language "missing `name` entry"

end Error

end FeatureFile
