import FeatureFile.Line.Reader
import FeatureFile.Grammar.Parser
import FeatureFile.Settings
/-!
Parsing a document in a language, either way. Both ways report events of the same form to the same
assembly, which has the filter; the tree it gives is then marked with the language.
-/

namespace FeatureFile.Language

/-- The tree of a document read line by line, behind the filter, unmarked. -/
def parseLines (language : Language) (source : Text) (path : String) (filter : Filter) :
    Except DocumentError (Option Feature) :=
  match ((Vocabulary.ofLanguage language).read source).tree filter with
  | .ok tree => .ok tree
  | .error fault => .error (fault.toError path)

/-- The result of parsing, with the tree marked by the language. -/
def mark (language : Language) (result : Except DocumentError (Option Feature)) :
    Except Error (Option Feature) :=
  match result with
  | .ok tree => .ok (tree.map fun feature => { feature with language := some language.identifier })
  | .error error => .error (.document error)

/-- Parses a document by a backend, with a grammar made from the template if there is need of one. -/
def parseWith {R : Type} [Engine R] (language : Language) (template : Text) (backend : Backend)
    (source : Text) (path : String) (filter : Filter) : Except Error (Option Feature) :=
  match backend with
  | .lines => language.mark (language.parseLines source path filter)
  | .grammar => do
    let parser ← Parser.compile (R := R) template language
    language.mark (parser.parse source path filter)

end FeatureFile.Language
