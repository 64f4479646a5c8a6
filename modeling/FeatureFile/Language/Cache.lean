import FeatureFile.Language.Parse
import FeatureFile.Keyword.Builtin
/-!
Caches: languages of a registry, each built when it is first asked for, and their step keywords and
parsers, each made when it is first needed. Nothing is ever dropped, and a failure leaves nothing
behind.
-/

namespace FeatureFile

/-- The language of an identifier, made from its table. -/
def Registry.languageOf (registry : Registry) (id : String) : Except Error Language :=
  match registry.get? id with
  | none => .error (.unsupportedLanguage id)
  | some table => Language.ofTable id table

/-- A language that has been asked for, and its step keywords and its parser once they have been
made. -/
structure CachedLanguage (R : Type := Grammar) where
  language : Language
  steps : Option (List Text)
  parser : Option (Parser R)
  deriving DecidableEq, Repr

/-- The languages of a registry that have been asked for, in the order of their first request. -/
structure Cache (R : Type := Grammar) where
  registry : Registry
  settings : Settings
  built : List (CachedLanguage R)

namespace Cache

variable {R : Type}

/-- A cache in which nothing has been asked for. -/
def ofRegistry (registry : Registry) (settings : Settings) : Cache R :=
  ⟨registry, settings, []⟩

/-- A cache of the languages that come with the library. -/
def builtin : Cache :=
  .ofRegistry .builtin .standard

/-- The entry of an identifier. -/
def find? (cache : Cache R) (id : String) : Option (CachedLanguage R) :=
  cache.built.find? fun entry => entry.language.identifier = id

/-- Whether the language has been built. -/
def isCached (cache : Cache R) (id : String) : Bool :=
  (cache.find? id).isSome

/-- Number of languages built so far. -/
def size (cache : Cache R) : Nat :=
  cache.built.length

/-- Whether no language has been built. -/
def isEmpty (cache : Cache R) : Bool :=
  cache.built.isEmpty

/-- The backend in use. -/
def backend (cache : Cache R) : Backend :=
  cache.settings.backend

/-- The cache with another backend; what has been built stays. -/
def setBackend (cache : Cache R) (backend : Backend) : Cache R :=
  { cache with settings := { cache.settings with backend := backend } }

/-- The language of an identifier; a language that has to be built is kept. -/
def get (cache : Cache R) (id : String) : Except Error Language × Cache R :=
  match cache.find? id with
  | some entry => (.ok entry.language, cache)
  | none =>
    match cache.registry.languageOf id with
    | .ok language =>
      (.ok language, { cache with built := cache.built ++ [⟨language, none, none⟩] })
    | .error error => (.error error, cache)

/-- The languages of the identifiers, up to the first that fails. -/
def getEach (cache : Cache R) : List String → Except Error (List Language) × Cache R
  | [] => (.ok [], cache)
  | id :: ids =>
    match cache.get id with
    | (.error error, cache) => (.error error, cache)
    | (.ok language, cache) =>
      match cache.getEach ids with
      | (.error error, cache) => (.error error, cache)
      | (.ok languages, cache) => (.ok (language :: languages), cache)

/-- Every registered language, in the order of the identifiers. -/
def all (cache : Cache R) : Except Error (List Language) × Cache R :=
  cache.getEach cache.registry.identifiers

/-- Whether the parser of a language has been made. -/
def isCompiled (cache : Cache R) (language : Language) : Bool :=
  (cache.find? language.identifier).any (·.parser.isSome)

/-- The cache with the entry of an identifier changed. -/
def update (cache : Cache R) (id : String) (change : CachedLanguage R → CachedLanguage R) :
    Cache R :=
  { cache with built := cache.built.map fun entry =>
      if entry.language.identifier = id then change entry else entry }

/-- The cache with a parser kept for its language. -/
def keepParser (cache : Cache R) (parser : Parser R) : Cache R :=
  cache.update parser.language.identifier fun entry => { entry with parser := some parser }

/-- The cache with step keywords kept for their language. -/
def keepSteps (cache : Cache R) (language : Language) (keywords : List Text) : Cache R :=
  cache.update language.identifier fun entry => { entry with steps := some keywords }

/-- The step keywords of a language, collected when they are first asked for; a language that lacks
some is asked again the next time. -/
def stepKeywords (cache : Cache R) (language : Language) : Except Error (List Text) × Cache R :=
  match (cache.find? language.identifier).bind (·.steps) with
  | some keywords => (.ok keywords, cache)
  | none =>
    match language.stepKeywords with
    | .ok keywords => (.ok keywords, cache.keepSteps language keywords)
    | .error error => (.error error, cache)

section

variable [Engine R]

/-- The parser of a language, made when it is first needed; one that cannot be made is tried again
the next time. -/
def parser (cache : Cache R) (language : Language) : Except Error (Parser R) × Cache R :=
  match (cache.find? language.identifier).bind (·.parser) with
  | some parser => (.ok parser, cache)
  | none =>
    match Parser.compile cache.settings.template language with
    | .ok parser => (.ok parser, cache.keepParser parser)
    | .error error => (.error error, cache)

/-- Makes the parsers of the languages, whatever becomes of each: the errors of those that fail. -/
def compileEach (cache : Cache R) : List Language → List Error × Cache R
  | [] => ([], cache)
  | language :: languages =>
    match cache.parser language with
    | (.error error, cache) =>
      let (errors, cache) := cache.compileEach languages
      (error :: errors, cache)
    | (.ok _, cache) => cache.compileEach languages

/-- What can come of making the parsers of the languages side by side. They are made in any order. If none
fails, all of them are made; once one has failed, others may be left out, and the error of any that
failed is reported. -/
inductive CompilesAll (cache : Cache R) (languages : List Language) :
    Except Error Unit → Cache R → Prop where
  | whole {order : List Language} {after : Cache R} (perm : order.Perm languages)
      (made : cache.compileEach order = ([], after)) : CompilesAll cache languages (.ok ()) after
  | stopped {tried left : List Language} {errors : List Error} {error : Error} {after : Cache R}
      (perm : (tried ++ left).Perm languages) (made : cache.compileEach tried = (errors, after))
      (failed : error ∈ errors) : CompilesAll cache languages (.error error) after

/-- What can come of making the parser of every registered language. -/
inductive PrecompilesAll (cache : Cache R) : Except Error Unit → Cache R → Prop where
  | unobtained {error : Error} {after : Cache R} (failed : cache.all = (.error error, after)) :
    PrecompilesAll cache (.error error) after
  | compiled {languages : List Language} {next after : Cache R} {result : Except Error Unit}
      (obtained : cache.all = (.ok languages, next)) (made : next.CompilesAll languages result after) :
    PrecompilesAll cache result after

/-- Makes the parsers one after the other, up to the first that fails. -/
def compileInTurn (cache : Cache R) : List Language → Except Error Unit × Cache R
  | [] => (.ok (), cache)
  | language :: languages =>
    match cache.parser language with
    | (.error error, cache) => (.error error, cache)
    | (.ok _, cache) => cache.compileInTurn languages

/-- Makes the parser of every registered language, in the order of the identifiers, which is one of the
orders they can be made in. -/
def precompileAll (cache : Cache R) : Except Error Unit × Cache R :=
  match cache.all with
  | (.error error, cache) => (.error error, cache)
  | (.ok languages, cache) => cache.compileInTurn languages

/-- Parses a document in a language by a backend. -/
def parseWith (cache : Cache R) (backend : Backend) (language : Language) (source : Text)
    (path : String) (filter : Filter) : Except Error (Option Feature) × Cache R :=
  match backend with
  | .lines => (language.mark (language.parseLines source path filter), cache)
  | .grammar =>
    match cache.parser language with
    | (.error error, cache) => (.error error, cache)
    | (.ok parser, cache) => (language.mark (parser.parse source path filter), cache)

/-- Parses a document in a language by the backend in use. -/
def parse (cache : Cache R) (language : Language) (source : Text) (path : String)
    (filter : Filter) : Except Error (Option Feature) × Cache R :=
  cache.parseWith cache.backend language source path filter

end

end Cache

end FeatureFile
