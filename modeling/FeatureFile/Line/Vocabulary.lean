import FeatureFile.Language.Keywords
import FeatureFile.Document.Event
/-!
The keywords a line is compared with. Longer keywords are tried first, so the longest one wins; of
equally long ones only one can match, except where two kinds of header share a keyword, and then
the kind listed first wins.
-/

namespace FeatureFile

/-- Step keywords and header keywords, longest first, none of them empty. -/
structure Vocabulary where
  steps : List Text
  headers : List (Text × SectionKind)
  deriving DecidableEq, Repr

namespace Vocabulary

/-- The header keywords of a kind. -/
def headersOf (language : Language) (kind : SectionKind) : List (Text × SectionKind) :=
  ((language.presentKeywords kind.concept).filter (!·.isEmpty)).map (·, kind)

/-- The vocabulary of a language. -/
def ofLanguage (language : Language) : Vocabulary where
  steps := longestFirst List.length (language.presentStepKeywords.filter (!·.isEmpty))
  headers :=
    longestFirst (fun header => header.1.length)
      (SectionKind.all.flatMap (headersOf language))

/-- The step keyword a text starts with, and the rest of the text. -/
def step? (vocabulary : Vocabulary) (text : Text) : Option (Text × Text) :=
  vocabulary.steps.findSome? fun keyword => (Text.after? keyword text).map (keyword, ·)

/-- The header a text starts with: its kind, its keyword and the rest behind the colon. -/
def header? (vocabulary : Vocabulary) (text : Text) : Option (SectionKind × Text × Text) :=
  vocabulary.headers.findSome? fun (keyword, kind) =>
    (Text.after? (keyword ++ [':']) text).map (kind, keyword, ·)

end Vocabulary

end FeatureFile
