import FeatureFile.Language.Cache
/-!
Sessions: what the user of a cache does with it, one operation after the other. An operation that
fails leaves the cache usable, so a session goes on behind it.
-/

namespace FeatureFile

/-- What a language can be asked for once it has been obtained. -/
inductive Query where
  | parse (source : Text) (path : String) (filter : Filter)
  | parseWith (backend : Backend) (source : Text) (path : String) (filter : Filter)
  | parser
  | keywords (concept : Concept)
  | spacedKeywords (concept : Concept)
  | stepKeywords
  | adverbs
  deriving DecidableEq, Repr

/-- What can be done with a cache. A language is asked by its identifier, which obtains it; one that
has been obtained before is the same again. -/
inductive Operation where
  | get (id : String)
  | all
  | precompileAll
  | setBackend (backend : Backend)
  | ask (id : String) (query : Query)
  deriving DecidableEq, Repr

/-- What an operation gives if it does not fail. -/
inductive Answer (R : Type := Grammar) where
  | done
  | language (language : Language)
  | languages (languages : List Language)
  | tree (tree : Option Feature)
  | parser (parser : Parser R)
  | keywords (keywords : List Text)
  deriving DecidableEq, Repr

namespace Operation

/-- The backend that an operation sets, if it sets one. -/
def backend? : Operation → Option Backend
  | setBackend backend => some backend
  | _ => none

/-- The identifiers that an operation looks up, in their order. -/
def lookups (registry : Registry) : Operation → List String
  | get id => [id]
  | all | precompileAll => registry.identifiers
  | setBackend _ => []
  | ask id _ => [id]

end Operation

namespace Cache

variable {R : Type}

/-- The identifiers whose look-up succeeds when one is looked up after the other, up to the first
that fails. -/
def obtained (cache : Cache R) : List String → List String
  | [] => []
  | id :: ids =>
    match cache.get id with
    | (.error _, _) => []
    | (.ok _, after) => id :: after.obtained ids

variable [Engine R]

/-- What a language of the cache answers. -/
def answer (cache : Cache R) (language : Language) : Query → Except Error (Answer R) × Cache R
  | .parse source path filter =>
    let (result, after) := cache.parse language source path filter
    (result.map .tree, after)
  | .parseWith backend source path filter =>
    let (result, after) := cache.parseWith backend language source path filter
    (result.map .tree, after)
  | .parser =>
    let (result, after) := cache.parser language
    (result.map .parser, after)
  | .keywords concept => ((language.keywordsFor concept).map .keywords, cache)
  | .spacedKeywords concept => ((language.spacedKeywordsFor concept).map .keywords, cache)
  | .stepKeywords =>
    let (result, after) := cache.stepKeywords language
    (result.map .keywords, after)
  | .adverbs => (language.adverbs.map .keywords, cache)

/-- A result that an operation can have, and the cache behind it. -/
inductive Performs (cache : Cache R) : Operation → Except Error (Answer R) → Cache R → Prop where
  | get (id : String) : Performs cache (.get id) ((cache.get id).1.map .language) (cache.get id).2
  | all : Performs cache .all (cache.all.1.map .languages) cache.all.2
  | precompileAll {result : Except Error Unit} {after : Cache R}
      (made : cache.PrecompilesAll result after) :
    Performs cache .precompileAll (result.map fun _ => .done) after
  | setBackend (backend : Backend) :
    Performs cache (.setBackend backend) (.ok .done) (cache.setBackend backend)
  | unobtained {id : String} {error : Error} {after : Cache R} (query : Query)
      (failed : cache.get id = (.error error, after)) : Performs cache (.ask id query) (.error error) after
  | ask {id : String} {language : Language} {next : Cache R} (query : Query)
      (obtained : cache.get id = (.ok language, next)) :
    Performs cache (.ask id query) (next.answer language query).1 (next.answer language query).2

/-- A session, whatever becomes of its operations: the identifiers whose look-up has succeeded in it, and
the cache behind it. -/
inductive Session : Cache R → List Operation → List String → Cache R → Prop where
  | nil (cache : Cache R) : Session cache [] [] cache
  | cons {cache next after : Cache R} {operation : Operation} {operations : List Operation}
      {result : Except Error (Answer R)} {ids : List String} (first : cache.Performs operation result next)
      (others : Session next operations ids after) :
    Session cache (operation :: operations)
      (cache.obtained (operation.lookups cache.registry) ++ ids) after

end Cache

end FeatureFile
