import FeatureFile.Keyword.Table
import FeatureFile.Text.Whitespace
import FeatureFile.Error
/-!
Languages and the keywords derived from their tables. A language is a registered keyword table that
has a name; everything else in the table may be missing, and then only the keyword lists that need
the missing entry fail.
-/

namespace FeatureFile

/-- A keyword as it stands in front of step text. Whitespace at its end is dropped; a keyword that
then ends in `<` is glued to the text, so the mark goes too; any other keyword gets one space. -/
def spaced (keyword : Text) : Text :=
  let kept := keyword.trimEnd
  if kept.getLast? = some '<' then kept.dropLast else kept ++ [' ']

/-- A keyword without whitespace, glue marks and apostrophes. -/
def bareWord (keyword : Text) : Text :=
  keyword.filter fun c => !(Text.isWhitespace c || c = '<' || c = '\'')

/-- A keyword table that has a name, under its identifier. -/
structure Language where
  identifier : String
  table : KeywordTable
  named : table.contains .name = true
  deriving DecidableEq, Repr

namespace Language

/-- The language of a table; a table without a name is none. -/
def ofTable (identifier : String) (table : KeywordTable) : Except Error Language :=
  if named : table.contains .name then .ok ⟨identifier, table, named⟩
  else .error (.nameless identifier)

/-- English name of the language. -/
def name (language : Language) : Text :=
  (language.table.get? .name).getD []

/-- Native name of the language, if the table has one. -/
def native? (language : Language) : Option Text :=
  language.table.get? .native

/-- The name without whitespace, from which the grammar's entry rule is named. -/
def grammarIdentifier (language : Language) : Text :=
  language.name.withoutWhitespace

/-- The first concept the table lacks, if any. -/
def missing? (language : Language) : Option Concept :=
  Concept.all.find? fun concept => !language.table.contains concept

/-- The keywords of a concept as the table lists them. -/
def keywords? (language : Language) (concept : Concept) : Option (List Text) :=
  (language.table.get? concept).map (·.splitOn '|')

/-- The keywords of a concept. -/
def keywordsFor (language : Language) (concept : Concept) : Except Error (List Text) :=
  match language.keywords? concept with
  | some keywords => .ok keywords
  | none => .error (.missingConcept language.identifier concept)

/-- The keywords of a concept as they stand in front of step text. -/
def spacedKeywordsFor (language : Language) (concept : Concept) : Except Error (List Text) :=
  (language.keywordsFor concept).map (·.map spaced)

/-- The keywords of all step concepts, in their order; fails for the first that is missing. -/
def allStepKeywords (language : Language) : Except Error (List Text) := do
  let lists ← Concept.steps.mapM language.keywordsFor
  return lists.flatten

/-- Every step keyword as it stands in front of step text, without repetition. -/
def stepKeywords (language : Language) : Except Error (List Text) :=
  language.allStepKeywords.map fun keywords => (keywords.map spaced).eraseDups

/-- Every step keyword as a bare word, without repetition. -/
def adverbs (language : Language) : Except Error (List Text) :=
  language.allStepKeywords.map fun keywords => (keywords.map bareWord).eraseDups

/-- The keywords of a concept, or none if it is missing. -/
def presentKeywords (language : Language) (concept : Concept) : List Text :=
  (language.keywords? concept).getD []

/-- The step keywords of every step concept the table has, as they stand in front of step text. -/
def presentStepKeywords (language : Language) : List Text :=
  ((Concept.steps.flatMap language.presentKeywords).map spaced).eraseDups

end Language

end FeatureFile
