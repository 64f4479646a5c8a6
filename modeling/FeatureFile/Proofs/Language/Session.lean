import FeatureFile.Language.Session
import Mathlib.Data.List.Basic
/-!
What a cache keeps does not show in what it answers. It keeps only what the registry and the template
determine anyway, so an operation has the same results behind any session as in the beginning, but for
the backend, which is the last one that was set. There is one result, except where the parsers of all languages
are made: then it is the error of any language that has none. Every operation can be performed at any time.
-/

namespace FeatureFile

variable {R : Type} [Engine R]

/-! ### What registry and settings determine -/

/-- What a language answers. -/
def Query.result (settings : Settings) (language : Language) : Query → Except Error (Answer R)
  | parse source path filter =>
    (language.parseWith (R := R) settings.template settings.backend source path filter).map .tree
  | parseWith backend source path filter =>
    (language.parseWith (R := R) settings.template backend source path filter).map .tree
  | parser => (Parser.compile settings.template language).map .parser
  | keywords concept => (language.keywordsFor concept).map .keywords
  | spacedKeywords concept => (language.spacedKeywordsFor concept).map .keywords
  | stepKeywords => language.stepKeywords.map .keywords
  | adverbs => language.adverbs.map .keywords

/-- What can come of making the parsers of some languages: there is one for each, or one of them fails. -/
inductive Parser.MakesAll (R : Type) [Engine R] (template : Text) (languages : List Language) :
    Except Error Unit → Prop where
  | whole (made : ∀ language ∈ languages, ∃ parser : Parser R, compile template language = .ok parser) :
    MakesAll R template languages (.ok ())
  | failed {language : Language} {error : Error} (member : language ∈ languages)
      (failed : compile (R := R) template language = .error error) :
    MakesAll R template languages (.error error)

namespace Operation

/-- The results that an operation can have. Only where all parsers are made, there may be more than one. -/
inductive Results (R : Type) [Engine R] (registry : Registry) (settings : Settings) :
    Operation → Except Error (Answer R) → Prop where
  | get (id : String) : Results R registry settings (.get id) ((registry.languageOf id).map .language)
  | all : Results R registry settings .all ((registry.identifiers.mapM registry.languageOf).map .languages)
  | unlisted {error : Error} (failed : registry.identifiers.mapM registry.languageOf = .error error) :
    Results R registry settings .precompileAll (.error error)
  | precompileAll {languages : List Language} {made : Except Error Unit}
      (listed : registry.identifiers.mapM registry.languageOf = .ok languages)
      (makes : Parser.MakesAll R settings.template languages made) :
    Results R registry settings .precompileAll (made.map fun _ => .done)
  | setBackend (backend : Backend) : Results R registry settings (.setBackend backend) (.ok .done)
  | ask (id : String) (query : Query) :
    Results R registry settings (.ask id query) (registry.languageOf id >>= (query.result settings ·))

/-- The settings behind an operation. -/
def settingsBehind (operation : Operation) (settings : Settings) : Settings :=
  { settings with backend := operation.backend?.getD settings.backend }

end Operation

/-- A language made from a registry is the one its identifier stands for. -/
theorem Registry.identifier_languageOf {registry : Registry} {id : String} {language : Language}
    (made : registry.languageOf id = .ok language) : language.identifier = id := by
  unfold languageOf at made
  split at made
  · cases made
  next table _ =>
    unfold Language.ofTable at made
    split at made <;> cases made
    rfl

theorem Registry.languageOf_of_mapM {registry : Registry} {ids : List String}
    {languages : List Language} (made : ids.mapM registry.languageOf = .ok languages) :
    ∀ language ∈ languages, registry.languageOf language.identifier = .ok language := by
  induction ids generalizing languages with
  | nil =>
    cases made
    simp
  | cons id ids ih =>
    rw [List.mapM_cons] at made
    cases first : registry.languageOf id with
    | error error => simp [first, bind, Except.bind] at made
    | ok language =>
      cases others : ids.mapM registry.languageOf with
      | error error => simp [first, others, bind, Except.bind] at made
      | ok languages =>
        simp only [first, others, bind, Except.bind, pure, Except.pure] at made
        cases made
        exact List.forall_mem_cons.mpr ⟨identifier_languageOf first ▸ first, ih others⟩

theorem Parser.language_of_compile {template : Text} {language : Language} {parser : Parser R}
    (compiled : compile template language = .ok parser) : parser.language = language := by
  unfold compile at compiled
  cases rendered : Template.render (R := R) template language with
  | error error => simp [rendered, bind, Except.bind] at compiled
  | ok text =>
    cases read : grammarOf (R := R) language text with
    | error error => simp [rendered, read, bind, Except.bind] at compiled
    | ok grammar =>
      simp only [rendered, read, bind, Except.bind] at compiled
      split at compiled <;> cases compiled
      rfl

/-! ### What a cache keeps -/

/-- What is kept of a language is what registry and template make of it. -/
structure CachedLanguage.Faithful (registry : Registry) (template : Text) (entry : CachedLanguage R) :
    Prop where
  language : registry.languageOf entry.language.identifier = .ok entry.language
  steps : ∀ keywords, entry.steps = some keywords → entry.language.stepKeywords = .ok keywords
  parser : ∀ parser, entry.parser = some parser →
    Parser.compile template entry.language = .ok parser

/-- A cache over the registry, with the settings, that keeps nothing else. -/
structure Cache.Faithful (registry : Registry) (settings : Settings) (cache : Cache R) : Prop where
  sameRegistry : cache.registry = registry
  sameSettings : cache.settings = settings
  built : ∀ entry ∈ cache.built, entry.Faithful registry settings.template

namespace Cache

variable {registry : Registry} {settings : Settings} {cache : Cache R} {language : Language}

theorem faithful_ofRegistry (registry : Registry) (settings : Settings) :
    (ofRegistry (R := R) registry settings).Faithful registry settings :=
  ⟨rfl, rfl, by simp [ofRegistry]⟩

namespace Faithful

variable (faithful : cache.Faithful registry settings)
include faithful

theorem find? {id : String} {entry : CachedLanguage R} (found : cache.find? id = some entry) :
    entry.Faithful registry settings.template ∧ registry.languageOf id = .ok entry.language := by
  have kept := faithful.built entry (List.mem_of_find?_eq_some found)
  obtain rfl : entry.language.identifier = id := by simpa using List.find?_some found
  exact ⟨kept, kept.language⟩

/-- An entry may be completed with what is right for its language. -/
theorem update {change : CachedLanguage R → CachedLanguage R}
    (made : registry.languageOf language.identifier = .ok language)
    (right : ∀ entry : CachedLanguage R, entry.language = language →
      entry.Faithful registry settings.template → (change entry).Faithful registry settings.template) :
    (cache.update language.identifier change).Faithful registry settings := by
  refine ⟨faithful.sameRegistry, faithful.sameSettings, fun changed member => ?_⟩
  obtain ⟨entry, built, rfl⟩ := List.mem_map.mp member
  have kept := faithful.built entry built
  split
  next same =>
    have language : entry.language = language :=
      Except.ok.inj (kept.language.symm.trans (same ▸ made))
    exact right entry language kept
  · exact kept

/-! Every operation has the result that registry and settings determine, and the cache behind it
keeps to them again. -/

theorem get (id : String) :
    ∃ after, cache.get id = (registry.languageOf id, after) ∧ after.Faithful registry settings := by
  unfold Cache.get
  cases found : cache.find? id with
  | some entry => exact ⟨cache, by rw [(faithful.find? found).2], faithful⟩
  | none =>
    rw [faithful.sameRegistry]
    cases made : registry.languageOf id with
    | error error => exact ⟨cache, rfl, faithful⟩
    | ok language =>
      refine ⟨_, rfl, rfl, faithful.sameSettings, fun entry member => ?_⟩
      rcases List.mem_append.mp member with before | new
      · exact faithful.built entry before
      · obtain rfl := List.mem_singleton.mp new
        exact ⟨by rw [Registry.identifier_languageOf made, made], nofun, nofun⟩

theorem getEach (ids : List String) :
    ∃ after, cache.getEach ids = (ids.mapM registry.languageOf, after) ∧
      after.Faithful registry settings := by
  induction ids generalizing cache with
  | nil => exact ⟨cache, rfl, faithful⟩
  | cons id ids ih =>
    obtain ⟨next, first, kept⟩ := faithful.get id
    obtain ⟨after, others, kept'⟩ := ih kept
    rw [Cache.getEach, first, List.mapM_cons]
    cases registry.languageOf id with
    | error error => exact ⟨next, rfl, kept⟩
    | ok language =>
      refine ⟨after, ?_, kept'⟩
      simp only [others]
      cases ids.mapM registry.languageOf <;> rfl

theorem all :
    ∃ after, cache.all = (registry.identifiers.mapM registry.languageOf, after) ∧
      after.Faithful registry settings := by
  rw [Cache.all, faithful.sameRegistry]
  exact faithful.getEach registry.identifiers

section

variable (made : registry.languageOf language.identifier = .ok language)
include made

/-- What is found for a language is kept of that language. -/
private theorem language_of_find? {entry : CachedLanguage R}
    (found : cache.find? language.identifier = some entry) :
    entry.Faithful registry settings.template ∧ entry.language = language := by
  obtain ⟨kept, same⟩ := faithful.find? found
  exact ⟨kept, Except.ok.inj (same.symm.trans made)⟩

theorem parser :
    ∃ after, cache.parser language = (Parser.compile settings.template language, after) ∧
      after.Faithful registry settings := by
  unfold Cache.parser
  split
  next parser memo =>
    obtain ⟨entry, found, kept⟩ := Option.bind_eq_some_iff.mp memo
    obtain ⟨right, rfl⟩ := faithful.language_of_find? made found
    exact ⟨cache, by rw [right.parser parser kept], faithful⟩
  next =>
    rw [faithful.sameSettings]
    cases compiled : Parser.compile (R := R) settings.template language with
    | error error => exact ⟨cache, rfl, faithful⟩
    | ok parser =>
      refine ⟨_, rfl, ?_⟩
      rw [keepParser, Parser.language_of_compile compiled]
      refine faithful.update made ?_
      rintro entry rfl right
      exact ⟨right.language, right.steps, by rintro _ ⟨⟩; exact compiled⟩

theorem stepKeywords :
    ∃ after, cache.stepKeywords language = (language.stepKeywords, after) ∧
      after.Faithful registry settings := by
  unfold Cache.stepKeywords
  split
  next keywords memo =>
    obtain ⟨entry, found, kept⟩ := Option.bind_eq_some_iff.mp memo
    obtain ⟨right, rfl⟩ := faithful.language_of_find? made found
    exact ⟨cache, by rw [right.steps keywords kept], faithful⟩
  next =>
    cases collected : language.stepKeywords with
    | error error => exact ⟨cache, rfl, faithful⟩
    | ok keywords =>
      refine ⟨_, rfl, faithful.update made ?_⟩
      rintro entry rfl right
      exact ⟨right.language, by rintro _ ⟨⟩; exact collected, right.parser⟩

theorem parseWith (backend : Backend) (source : Text) (path : String) (filter : Filter) :
    ∃ after, cache.parseWith backend language source path filter =
        (language.parseWith (R := R) settings.template backend source path filter, after) ∧
      after.Faithful registry settings := by
  cases backend with
  | lines => exact ⟨cache, rfl, faithful⟩
  | grammar =>
    obtain ⟨after, parser, kept⟩ := faithful.parser made
    refine ⟨after, ?_, kept⟩
    rw [Cache.parseWith, parser, Language.parseWith]
    cases Parser.compile (R := R) settings.template language <;> rfl

theorem answer (query : Query) :
    ∃ after, cache.answer language query = (query.result settings language, after) ∧
      after.Faithful registry settings := by
  cases query with
  | parse source path filter =>
    obtain ⟨after, same, kept⟩ := faithful.parseWith made settings.backend source path filter
    refine ⟨after, ?_, kept⟩
    rw [Cache.answer, Cache.parse, Cache.backend, faithful.sameSettings, same]
    rfl
  | parseWith backend source path filter =>
    obtain ⟨after, same, kept⟩ := faithful.parseWith made backend source path filter
    exact ⟨after, by rw [Cache.answer, same]; rfl, kept⟩
  | parser =>
    obtain ⟨after, same, kept⟩ := faithful.parser made
    exact ⟨after, by rw [Cache.answer, same]; rfl, kept⟩
  | stepKeywords =>
    obtain ⟨after, same, kept⟩ := faithful.stepKeywords made
    exact ⟨after, by rw [Cache.answer, same]; rfl, kept⟩
  | keywords | spacedKeywords | adverbs => exact ⟨cache, rfl, faithful⟩

end

section

variable {languages : List Language}
  (made : ∀ language ∈ languages, registry.languageOf language.identifier = .ok language)
include made

/-- The errors are those of the languages for which there is no parser. -/
theorem compileEach :
    ∃ errors after, cache.compileEach languages = (errors, after) ∧
      (∀ error, error ∈ errors ↔
        ∃ language ∈ languages, Parser.compile (R := R) settings.template language = .error error) ∧
      after.Faithful registry settings := by
  induction languages generalizing cache with
  | nil => exact ⟨[], cache, rfl, by simp, faithful⟩
  | cons language languages ih =>
    obtain ⟨first, others⟩ := List.forall_mem_cons.mp made
    obtain ⟨next, parser, kept⟩ := faithful.parser first
    obtain ⟨errors, after, same, failing, kept'⟩ := ih kept others
    rw [Cache.compileEach, parser]
    cases compiled : Parser.compile (R := R) settings.template language with
    | error error =>
      exact ⟨error :: errors, after, by simp [same], by simp [failing, compiled, eq_comm], kept'⟩
    | ok parser => exact ⟨errors, after, same, by simp [failing, compiled], kept'⟩

theorem compilesAll {result : Except Error Unit} {after : Cache R}
    (compiles : cache.CompilesAll languages result after) :
    Parser.MakesAll R settings.template languages result ∧ after.Faithful registry settings := by
  cases compiles with
  | @whole order _ perm compiled =>
    obtain ⟨errors, _, same, failing, kept⟩ :=
      faithful.compileEach fun language member => made language (perm.mem_iff.mp member)
    cases compiled.symm.trans same
    refine ⟨.whole fun language member => ?_, kept⟩
    cases found : Parser.compile (R := R) settings.template language with
    | ok parser => exact ⟨parser, rfl⟩
    | error error => cases (failing error).mpr ⟨language, perm.mem_iff.mpr member, found⟩
  | @stopped tried left errors error _ perm compiled failed =>
    -- The languages left out show in the cache only, which keeps to registry and settings without them.
    have known (language : Language) (member : language ∈ tried) : language ∈ languages :=
      perm.mem_iff.mp (List.mem_append_left left member)
    obtain ⟨_, _, same, failing, kept⟩ :=
      faithful.compileEach fun language member => made language (known language member)
    cases compiled.symm.trans same
    obtain ⟨language, member, found⟩ := (failing error).mp failed
    exact ⟨.failed (known language member) found, kept⟩

/-- Each of the languages that fail can be the one whose error is reported: it may be tried first. -/
theorem exists_compilesAll {result : Except Error Unit}
    (makes : Parser.MakesAll R settings.template languages result) :
    ∃ after, cache.CompilesAll languages result after := by
  cases makes with
  | whole parsers =>
    obtain ⟨errors, after, same, failing, -⟩ := faithful.compileEach made
    obtain rfl : errors = [] := by
      refine List.eq_nil_iff_forall_not_mem.mpr fun error member => ?_
      obtain ⟨language, member, failed⟩ := (failing error).mp member
      obtain ⟨parser, compiled⟩ := parsers language member
      cases failed.symm.trans compiled
    exact ⟨after, .whole (.refl _) same⟩
  | @failed language error member failed =>
    obtain ⟨before, behind, rfl⟩ := List.append_of_mem member
    obtain ⟨errors, after, same, failing, -⟩ :=
      faithful.compileEach (List.forall_mem_singleton.mpr (made language member))
    have reported : error ∈ errors := (failing error).mpr ⟨language, List.mem_singleton_self _, failed⟩
    have perm : ([language] ++ (before ++ behind)).Perm (before ++ language :: behind) := by
      rw [List.singleton_append]
      exact List.perm_middle.symm
    exact ⟨after, .stopped perm same reported⟩

end

/-- A result that an operation has is one that registry and settings allow. -/
theorem performs {operation : Operation} {result : Except Error (Answer R)} {after : Cache R}
    (performed : cache.Performs operation result after) :
    operation.Results R registry settings result ∧
      after.Faithful registry (operation.settingsBehind settings) := by
  cases performed with
  | get id =>
    obtain ⟨after, same, kept⟩ := faithful.get id
    rw [same]
    exact ⟨.get id, kept⟩
  | all =>
    obtain ⟨after, same, kept⟩ := faithful.all
    rw [same]
    exact ⟨.all, kept⟩
  | precompileAll compiles =>
    -- All languages are looked up first, which registry and settings decide; the order comes in behind that.
    obtain ⟨next, listed, kept⟩ := faithful.all
    cases compiles with
    | unobtained failed =>
      obtain ⟨unlisted, rfl⟩ := Prod.mk.inj (listed.symm.trans failed)
      exact ⟨.unlisted unlisted, kept⟩
    | @compiled languages _ _ _ obtained compiles =>
      obtain ⟨listed, rfl⟩ := Prod.mk.inj (listed.symm.trans obtained)
      obtain ⟨makes, kept'⟩ := kept.compilesAll (Registry.languageOf_of_mapM listed) compiles
      exact ⟨.precompileAll listed makes, kept'⟩
  | setBackend backend =>
    refine ⟨.setBackend backend, faithful.sameRegistry, ?_, faithful.built⟩
    rw [setBackend, faithful.sameSettings]
    rfl
  | @unobtained id error after query failed =>
    obtain ⟨next, obtained, kept⟩ := faithful.get id
    obtain ⟨unmade, rfl⟩ := Prod.mk.inj (obtained.symm.trans failed)
    have result : (Operation.ask id query).Results R registry settings _ := .ask id query
    rw [unmade] at result
    exact ⟨result, kept⟩
  | @ask id language next query obtained =>
    obtain ⟨_, same, kept⟩ := faithful.get id
    obtain ⟨made, rfl⟩ := Prod.mk.inj (same.symm.trans obtained)
    obtain ⟨after, answered, kept'⟩ := kept.answer (Registry.identifier_languageOf made ▸ made) query
    have result : (Operation.ask id query).Results R registry settings _ := .ask id query
    rw [made] at result
    rw [answered]
    exact ⟨result, kept'⟩

/-- Every result that registry and settings allow is one that the operation can have. -/
theorem exists_performs {operation : Operation} {result : Except Error (Answer R)}
    (allowed : operation.Results R registry settings result) :
    ∃ after, cache.Performs operation result after := by
  cases allowed with
  | get id =>
    obtain ⟨after, same, -⟩ := faithful.get id
    have performed : cache.Performs (.get id) _ _ := .get id
    rw [same] at performed
    exact ⟨after, performed⟩
  | all =>
    obtain ⟨after, same, -⟩ := faithful.all
    have performed : cache.Performs .all _ _ := .all
    rw [same] at performed
    exact ⟨after, performed⟩
  | unlisted failed =>
    obtain ⟨after, listed, -⟩ := faithful.all
    exact ⟨after, .precompileAll (.unobtained (failed ▸ listed))⟩
  | @precompileAll languages made listed makes =>
    obtain ⟨next, obtained, kept⟩ := faithful.all
    obtain ⟨after, compiles⟩ := kept.exists_compilesAll (Registry.languageOf_of_mapM listed) makes
    exact ⟨after, .precompileAll (.compiled (listed ▸ obtained) compiles)⟩
  | setBackend backend => exact ⟨_, .setBackend backend⟩
  | ask id query =>
    obtain ⟨next, obtained, kept⟩ := faithful.get id
    cases made : registry.languageOf id with
    | error error => exact ⟨next, .unobtained query (made ▸ obtained)⟩
    | ok language =>
      obtain ⟨after, answered, -⟩ := kept.answer (Registry.identifier_languageOf made ▸ made) query
      have asked := Performs.ask query (made ▸ obtained)
      rw [answered] at asked
      exact ⟨after, asked⟩

/-- Behind a session the cache is as faithful, with the last backend that was set. -/
theorem session {operations : List Operation} {ids : List String} {after : Cache R}
    (session : cache.Session operations ids after) :
    after.Faithful registry { settings with
      backend := (operations.filterMap Operation.backend?).getLast?.getD settings.backend } := by
  induction session generalizing settings with
  | nil => exact faithful
  | @cons cache next after operation operations result ids first _ ih =>
    have others := ih (faithful.performs first).2
    -- A backend that the first operation sets counts unless a later one sets another.
    cases set : operation.backend? with
    | none => simpa [Operation.settingsBehind, set] using others
    | some backend =>
      rw [List.filterMap_cons_some set, List.getLast?_cons]
      simpa [Operation.settingsBehind, set] using others

end Faithful

/-- Whether an operation can have the result. -/
def Gives (cache : Cache R) (operation : Operation) (result : Except Error (Answer R)) : Prop :=
  ∃ after, cache.Performs operation result after

theorem Faithful.gives_iff (faithful : cache.Faithful registry settings) {operation : Operation}
    {result : Except Error (Answer R)} :
    cache.Gives operation result ↔ operation.Results R registry settings result :=
  ⟨fun ⟨_, performed⟩ => (faithful.performs performed).1, faithful.exists_performs⟩

/-! ### Operations can be performed -/

/-- The first parser may be made before all others. -/
private theorem CompilesAll.behind {cache next after : Cache R} {language : Language}
    {languages : List Language} {parser : Parser R} {result : Except Error Unit}
    (made : cache.parser language = (.ok parser, next)) (others : next.CompilesAll languages result after) :
    cache.CompilesAll (language :: languages) result after := by
  have first (others : List Language) :
      cache.compileEach (language :: others) = next.compileEach others := by
    rw [compileEach, made]
  cases others with
  | whole perm made => exact .whole (perm.cons language) ((first _).trans made)
  | stopped perm made failed => exact .stopped (perm.cons language) ((first _).trans made) failed

/-- One after the other is one of the ways in which parsers can be made. -/
theorem compilesAll_compileInTurn (cache : Cache R) (languages : List Language) :
    cache.CompilesAll languages (cache.compileInTurn languages).1 (cache.compileInTurn languages).2 := by
  induction languages generalizing cache with
  | nil => exact .whole (.refl []) rfl
  | cons language languages ih =>
    rw [compileInTurn]
    cases made : cache.parser language with
    | mk result next =>
      cases result with
      | error error =>
        have tried : cache.compileEach [language] = ([error], next) := by simp [compileEach, made]
        exact .stopped (.refl (language :: languages)) tried (List.mem_singleton_self error)
      | ok parser => exact (ih next).behind made

theorem precompilesAll_precompileAll (cache : Cache R) :
    cache.PrecompilesAll cache.precompileAll.1 cache.precompileAll.2 := by
  unfold precompileAll
  cases obtained : cache.all with
  | mk result next =>
    cases result with
    | error error => exact .unobtained obtained
    | ok languages => exact .compiled obtained (next.compilesAll_compileInTurn languages)

/-- Whatever is in a cache, every operation can be performed. -/
theorem exists_gives (cache : Cache R) (operation : Operation) :
    ∃ result, cache.Gives operation result := by
  cases operation with
  | get id => exact ⟨_, _, .get id⟩
  | all => exact ⟨_, _, .all⟩
  | precompileAll => exact ⟨_, _, .precompileAll cache.precompilesAll_precompileAll⟩
  | setBackend backend => exact ⟨_, _, .setBackend backend⟩
  | ask id query =>
    cases obtained : cache.get id with
    | mk result next =>
      cases result with
      | error error => exact ⟨_, _, .unobtained query obtained⟩
      | ok language => exact ⟨_, _, .ask query obtained⟩

theorem exists_session (cache : Cache R) (operations : List Operation) :
    ∃ ids after, cache.Session operations ids after := by
  induction operations generalizing cache with
  | nil => exact ⟨[], cache, .nil cache⟩
  | cons operation operations ih =>
    obtain ⟨result, next, first⟩ := cache.exists_gives operation
    obtain ⟨ids, after, others⟩ := ih next
    exact ⟨_, after, .cons first others⟩

end Cache

/-- An operation that does not make all parsers has exactly one result. -/
theorem Operation.existsUnique_results (registry : Registry) (settings : Settings) {operation : Operation}
    (other : operation ≠ .precompileAll) :
    ∃! result : Except Error (Answer R), operation.Results R registry settings result := by
  cases operation with
  | precompileAll => cases other rfl
  | get id => exact ⟨_, .get id, by rintro _ ⟨⟩; rfl⟩
  | all => exact ⟨_, .all, by rintro _ ⟨⟩; rfl⟩
  | setBackend backend => exact ⟨_, .setBackend backend, by rintro _ ⟨⟩; rfl⟩
  | ask id query => exact ⟨_, .ask id query, by rintro _ ⟨⟩; rfl⟩

/-- With any engine: whatever was done with a cache before, and whatever of it failed, an operation has the
result that it has first of all on a fresh cache of the same registry and template, with the backend that was
set last. -/
theorem Cache.gives_of_session {R : Type} [Engine R] {registry : Registry} {settings : Settings}
    {operations : List Operation} {ids : List String} {cache : Cache R}
    (session : (ofRegistry registry settings).Session operations ids cache) (next : Operation) :
    (∀ result, cache.Gives next result ↔ (ofRegistry (R := R) registry { settings with
      backend := (operations.filterMap Operation.backend?).getLast?.getD settings.backend }).Gives
        next result) ∧
    (next ≠ .precompileAll → ∃! result, cache.Gives next result) := by
  have kept := (faithful_ofRegistry registry settings).session session
  have fresh := faithful_ofRegistry (R := R) registry { settings with
    backend := (operations.filterMap Operation.backend?).getLast?.getD settings.backend }
  refine ⟨fun result => kept.gives_iff.trans fresh.gives_iff.symm, fun other => ?_⟩
  simp only [kept.gives_iff]
  exact next.existsUnique_results registry _ other

/-! ### A session -/

/-- Three languages by their names. -/
def Registry.brief : Registry :=
  let named (name : String) : KeywordTable := .ofList [(.name, name.toList)]
  .ofList [("a", named "Other"), ("b", named "English"), ("c", named "Third")]

/-- A template that has the entry rule of one of them only. -/
def Settings.brief : Settings :=
  ⟨.grammar, "EnglishParser = \x7b ANY* \x7d".toList⟩

/-- A look-up that fails, and parsers that are made from the last language on, not all of them: there is
none of the last language, and one of the language before it. -/
theorem Cache.session_brief : ∃ cache : Cache,
    (ofRegistry .brief .brief).Session [.ask "d" .adverbs, .precompileAll, .setBackend .lines]
      ["a", "b", "c"] cache ∧
    cache.built.map (fun entry => (entry.language.identifier, entry.parser.isSome)) =
      [("a", false), ("b", true), ("c", false)] := by
  let fresh : Cache := ofRegistry .brief .brief
  let a : Language := ⟨"a", .ofList [(.name, "Other".toList)], by decide⟩
  let b : Language := ⟨"b", .ofList [(.name, "English".toList)], by decide⟩
  let c : Language := ⟨"c", .ofList [(.name, "Third".toList)], by decide⟩
  have unknown : fresh.get "d" = (.error (.unsupportedLanguage "d"), (fresh.get "d").2) :=
    Prod.ext (by decide +kernel) rfl
  let first := (fresh.get "d").2
  have listed : first.all = (.ok [a, b, c], first.all.2) := Prod.ext (by decide +kernel) rfl
  let second := first.all.2
  let failure : Error := .missingEntryRule "c" "ThirdParser"
  have made : second.compileEach [c, b] = ([failure], (second.compileEach [c, b]).2) :=
    Prod.ext (by decide +kernel) rfl
  have perm : ([c, b] ++ [a]).Perm [a, b, c] := by decide +kernel
  have compiles : first.PrecompilesAll (.error failure) (second.compileEach [c, b]).2 :=
    .compiled listed (.stopped perm made (List.mem_singleton_self _))
  have session : fresh.Session [.ask "d" .adverbs, .precompileAll, .setBackend .lines] _ _ :=
    .cons (.unobtained .adverbs unknown) (.cons (.precompileAll compiles) (.cons (.setBackend .lines) (.nil _)))
  have ids : fresh.obtained ["d"] ++ (first.obtained first.registry.identifiers ++ ([] ++ [])) =
      ["a", "b", "c"] := by
    decide +kernel
  exact ⟨_, ids ▸ session, by decide +kernel⟩

/-- Behind it every operation has the results that it has on a fresh cache that reads line by line. -/
theorem Cache.gives_of_session_brief : ∃ cache : Cache,
    (ofRegistry .brief .brief).Session [.ask "d" .adverbs, .precompileAll, .setBackend .lines]
      ["a", "b", "c"] cache ∧
    cache.built.map (fun entry => (entry.language.identifier, entry.parser.isSome)) =
      [("a", false), ("b", true), ("c", false)] ∧
    ∀ next,
      (∀ result, cache.Gives next result ↔
        (ofRegistry (R := Grammar) .brief { Settings.brief with backend := .lines }).Gives next result) ∧
      (next ≠ .precompileAll → ∃! result, cache.Gives next result) := by
  obtain ⟨cache, session, built⟩ := session_brief
  exact ⟨cache, session, built, fun next => gives_of_session session next⟩

end FeatureFile
