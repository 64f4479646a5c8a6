import FeatureFile.Proofs.Language.Growth
import FeatureFile.Proofs.Language.Lookup
import Mathlib.Data.Finset.Card
import Mathlib.Data.List.TakeWhile
/-!
What holds of a cache at any time. Its look-ups are those of the registry, what they have found is
cached and stays so, and a language that has been compiled stays compiled.
-/

namespace FeatureFile

variable {R : Type}

namespace Cache

/-- What is cached, given the identifiers that have been looked up with success: these and no others,
each once, and therefore only what is registered with a name. -/
structure Accounted (registry : Registry) (obtained : List String) (cache : Cache R) : Prop where
  cached : ∀ id, cache.isCached id = true ↔ id ∈ obtained
  size : cache.size = obtained.toFinset.card
  distinct : cache.identifiers.Nodup
  registered : ∀ id, cache.isCached id = true →
    ∃ table, registry.get? id = some table ∧ table.contains .name = true

/-- What comes of a look-up: the language of the registered table, or the reason why there is none,
which leaves the cache as it is. -/
structure LooksUp [Engine R] (registry : Registry) (cache : Cache R) : Prop where
  found : ∀ id language, (cache.get id).1 = .ok language ↔
    language.identifier = id ∧ registry.get? id = some language.table
  unsupported : ∀ id, (cache.get id).1 = .error (.unsupportedLanguage id) ↔
    registry.contains id = false
  nameless : ∀ id, (cache.get id).1 = .error (.nameless id) ↔
    ∃ table, registry.get? id = some table ∧ table.contains .name = false
  failed : ∀ id error, (cache.get id).1 = .error error →
    (error = .unsupportedLanguage id ∨ error = .nameless id) ∧ (cache.get id).2 = cache
  /-- What has been found is found again after whatever else is done, and not built again. -/
  again : ∀ id language, (cache.get id).1 = .ok language → ∀ operations ids later,
    (cache.get id).2.Session operations ids later → later.get id = (.ok language, later)

/-- What comes of an enumeration: every language, in the order of the identifiers, or the error of the
first that is registered without a name. -/
structure Enumerates (registry : Registry) (cache : Cache R) : Prop where
  inOrder : registry.identifiers.Pairwise fun a b => bytes a < bytes b
  every : ∀ languages, cache.all.1 = .ok languages ↔ languages.map Language.entry = registry.entries
  everyCached : ∀ languages, cache.all.1 = .ok languages →
    ∀ id, cache.all.2.isCached id = registry.contains id
  failed : ∀ error, cache.all.1 = .error error ↔
    ∃ before id, registry.FirstNameless before id ∧ error = .nameless id
  cachedBefore : ∀ before id, registry.FirstNameless before id → ∀ other,
    cache.all.2.isCached other = true ↔ cache.isCached other = true ∨ other ∈ before

/-- What comes of compiling a language: a parser that is kept, or an error that leaves the cache as it
is. -/
structure Compiles [Engine R] (registry : Registry) (template : Text) (cache : Cache R) : Prop where
  compiled : ∀ language parser, cache.isCached language.identifier = true →
    (cache.parser language).1 = .ok parser → (cache.parser language).2.isCompiled language = true
  failed : ∀ language error, (cache.parser language).1 = .error error →
    (cache.parser language).2 = cache ∧ cache.isCompiled language = false
  /-- A language that the template has no grammar for is compiled by no operation. -/
  unfit : ∀ language error, registry.languageOf language.identifier = .ok language →
    Parser.compile (R := R) template language = .error error → cache.isCompiled language = false
  /-- Where all parsers have been made, in whatever order, every registered language is compiled. -/
  every : ∀ after, cache.PrecompilesAll (.ok ()) after → ∀ language,
    registry.languageOf language.identifier = .ok language → after.isCompiled language = true

/-- What is not changed. Nothing takes away what is cached or compiled; a look-up compiles nothing, and
neither setting the backend nor reading line by line changes what is kept. -/
structure Keeps [Engine R] (cache : Cache R) : Prop where
  cached : ∀ operations ids later, cache.Session operations ids later →
    ∀ id, cache.isCached id = true → later.isCached id = true
  compiled : ∀ operations ids later, cache.Session operations ids later →
    ∀ language, cache.isCompiled language = true → later.isCompiled language = true
  grown : ∀ operations ids later, cache.Session operations ids later → cache.Grows later
  known : ∀ id, cache.isCached id = true → (cache.get id).2 = cache
  lookUp : ∀ id language, (cache.get id).2.isCompiled language = cache.isCompiled language
  backend : ∀ backend, (cache.setBackend backend).built = cache.built
  lines : ∀ language source path filter,
    (cache.answer language (.parseWith .lines source path filter)).2 = cache
  linesInUse : cache.backend = .lines → ∀ language source path filter,
    (cache.answer language (.parse source path filter)).2 = cache

/-- What holds of a cache of a registry and a template at any time, given the identifiers that have
been looked up with success. -/
structure Invariant [Engine R] (registry : Registry) (template : Text) (obtained : List String)
    (cache : Cache R) : Prop where
  accounted : cache.Accounted registry obtained
  looksUp : cache.LooksUp registry
  enumerates : cache.Enumerates registry
  compiles : cache.Compiles registry template
  keeps : cache.Keeps

/-! ### Any cache -/

section

variable {cache : Cache R} {language : Language}

theorem get_of_find? {id : String} {entry : CachedLanguage R} (found : cache.find? id = some entry) :
    cache.get id = (.ok entry.language, cache) := by
  rw [get, found]

/-- A language that has been looked up is found. -/
theorem find?_get {id : String} (got : (cache.get id).1 = .ok language) :
    ∃ entry, (cache.get id).2.find? id = some entry ∧ entry.language = language := by
  cases found : cache.find? id with
  | some entry =>
    rw [get_of_find? found] at got ⊢
    cases got
    exact ⟨entry, found, rfl⟩
  | none =>
    rw [get, found] at got ⊢
    cases made : cache.registry.languageOf id with
    | error error =>
      rw [made] at got
      cases got
    | ok language =>
      rw [made] at got
      cases got
      refine ⟨⟨language, none, none⟩, ?_, rfl⟩
      simp [find?_build, found, Registry.identifier_languageOf made]

/-- Nothing is compiled by a look-up. -/
theorem isCompiled_get (id : String) : (cache.get id).2.isCompiled language = cache.isCompiled language := by
  unfold get
  split
  · rfl
  next new =>
    split
    next made =>
      rw [isCompiled, find?_build, isCompiled]
      cases cache.find? language.identifier with
      | some entry => rfl
      | none => split <;> rfl
    · rfl

theorem Becomes.isCached {after : Cache R} {ids : List String} (becomes : Becomes cache ids after) {id : String}
    (cached : cache.isCached id = true) : after.isCached id = true :=
  isCached_iff.mpr (becomes.mem_identifiers_iff.mpr (.inl (isCached_iff.mp cached)))

theorem isCompiled_eq_true_iff :
    cache.isCompiled language = true ↔
      ∃ entry parser, cache.find? language.identifier = some entry ∧ entry.parser = some parser := by
  simp [isCompiled, Option.any_eq_true, Option.isSome_iff_exists]

theorem Grows.isCompiled {after : Cache R} (grows : cache.Grows after)
    (compiled : cache.isCompiled language = true) : after.isCompiled language = true := by
  obtain ⟨entry, parser, found, kept⟩ := isCompiled_eq_true_iff.mp compiled
  obtain ⟨latest, found, grown⟩ := grows language.identifier entry found
  exact isCompiled_eq_true_iff.mpr ⟨latest, parser, found, grown.parser parser kept⟩

variable [Engine R]

theorem isCompiled_of_parser_ok {parser : Parser R} (cached : cache.isCached language.identifier = true)
    (made : (cache.parser language).1 = .ok parser) :
    (cache.parser language).2.isCompiled language = true := by
  obtain ⟨entry, found⟩ := Option.isSome_iff_exists.mp cached
  rw [isCompiled_eq_true_iff]
  cases memo : entry.parser with
  | some parser =>
    rw [Cache.parser, found, Option.bind_some, memo]
    exact ⟨entry, parser, found, memo⟩
  | none =>
    rw [Cache.parser, found, Option.bind_some, memo] at made ⊢
    dsimp only at made ⊢
    cases compiled : Parser.compile (R := R) cache.settings.template language with
    | error error =>
      rw [compiled] at made
      cases made
    | ok parser =>
      obtain rfl := Parser.language_of_compile compiled
      refine ⟨{ entry with parser := some parser }, parser, ?_, rfl⟩
      simp [keepParser, find?_update, found]

theorem parser_of_error {error : Error} (failed : (cache.parser language).1 = .error error) :
    (cache.parser language).2 = cache ∧ cache.isCompiled language = false := by
  unfold parser at failed ⊢
  cases memo : (cache.find? language.identifier).bind (·.parser) with
  | some parser =>
    rw [memo] at failed
    cases failed
  | none =>
    cases compiled : Parser.compile (R := R) cache.settings.template language with
    | ok parser =>
      rw [memo, compiled] at failed
      cases failed
    | error error =>
      -- A parser kept before would have been the result.
      refine ⟨rfl, Bool.eq_false_iff.mpr fun compiled => ?_⟩
      obtain ⟨entry, parser, found, kept⟩ := isCompiled_eq_true_iff.mp compiled
      rw [found, Option.bind_some, kept] at memo
      cases memo

/-- Parsers that are made without a failure are kept for languages that are cached. -/
theorem isCompiled_of_compileEach {languages : List Language} {after : Cache R}
    (cached : cache.isCached language.identifier = true) (member : language ∈ languages)
    (made : cache.compileEach languages = ([], after)) : after.isCompiled language = true := by
  induction languages generalizing cache with
  | nil => cases member
  | cons first others ih =>
    have becomes := cache.becomes_compile first
    rw [compileEach] at made
    cases compiled : cache.parser first with
    | mk result next =>
      rw [compiled] at made becomes
      cases result with
      | error error => cases congrArg Prod.fst made
      | ok parser =>
        -- A language stays compiled while the others are, and cached until its turn.
        have rest := next.becomes_compileEach others
        rw [show next.compileEach others = ([], after) from made] at rest
        rcases List.mem_cons.mp member with rfl | later
        · have kept := isCompiled_of_parser_ok cached (congrArg Prod.fst compiled)
          rw [compiled] at kept
          exact rest.grows.isCompiled kept
        · exact ih (becomes.isCached cached) later made

theorem keeps (cache : Cache R) : cache.Keeps where
  cached _ _ _ session _ cached := session.becomes.isCached cached
  compiled _ _ _ session _ compiled := session.becomes.grows.isCompiled compiled
  grown _ _ _ session := session.becomes.grows
  known id cached := by
    obtain ⟨entry, found⟩ := Option.isSome_iff_exists.mp cached
    rw [get_of_find? found]
  lookUp id language := isCompiled_get id
  backend _ := rfl
  lines _ _ _ _ := rfl
  linesInUse lines language source path filter := by
    rw [answer, parse, lines]
    rfl

end

/-! ### Caches that keep to a registry -/

namespace Faithful

variable [Engine R] {registry : Registry} {settings : Settings} {cache : Cache R}
  (faithful : cache.Faithful registry settings)
include faithful

theorem result_get (id : String) : (cache.get id).1 = registry.languageOf id := by
  obtain ⟨after, got, -⟩ := faithful.get id
  rw [got]

theorem result_all : cache.all.1 = registry.identifiers.mapM registry.languageOf := by
  obtain ⟨after, listed, -⟩ := faithful.all
  rw [listed]

/-- Looked up with success are the identifiers up to the first that the registry has no language
of. -/
theorem obtained_eq (ids : List String) :
    cache.obtained ids = ids.takeWhile fun id => (registry.languageOf id).isOk := by
  induction ids generalizing cache with
  | nil => rfl
  | cons id ids ih =>
    obtain ⟨after, got, kept⟩ := faithful.get id
    rw [obtained, got, List.takeWhile_cons]
    cases registry.languageOf id with
    | error error => rfl
    | ok language => exact congrArg (id :: ·) (ih kept)

theorem isOk_of_isCached {id : String} (cached : cache.isCached id = true) :
    (registry.languageOf id).isOk = true := by
  obtain ⟨entry, found⟩ := Option.isSome_iff_exists.mp cached
  rw [(faithful.find? found).2]
  rfl

theorem mem_identifiers_of_isCached {id : String} (cached : cache.isCached id = true) :
    id ∈ registry.identifiers := by
  obtain ⟨table, registered, -⟩ := Registry.isOk_languageOf_iff.mp (faithful.isOk_of_isCached cached)
  rw [← Registry.contains_eq_true_iff, Registry.contains, registered, Option.isSome_some]

/-- An enumeration caches what it comes to. -/
theorem isCached_all {id : String} :
    cache.all.2.isCached id = true ↔ cache.isCached id = true ∨
      id ∈ registry.identifiers.takeWhile fun id => (registry.languageOf id).isOk := by
  have becomes := cache.becomes_getEach registry.identifiers
  rw [faithful.obtained_eq] at becomes
  rw [Cache.all, faithful.sameRegistry, isCached_iff, isCached_iff, becomes.mem_identifiers_iff]

theorem accounted {obtained : List String} {initial : Settings}
    (becomes : Becomes (ofRegistry registry initial) obtained cache) :
    cache.Accounted registry obtained := by
  have members (id : String) : id ∈ cache.identifiers ↔ id ∈ obtained :=
    becomes.mem_identifiers_iff.trans (or_iff_right List.not_mem_nil)
  have distinct : cache.identifiers.Nodup := becomes.nodup_identifiers List.nodup_nil
  -- Two lists with the same members, and one without repetition, which is as long as there are members.
  refine ⟨fun id => isCached_iff.trans (members id), ?_, distinct, fun id cached =>
    Registry.isOk_languageOf_iff.mp (faithful.isOk_of_isCached cached)⟩
  have same : cache.identifiers.toFinset = obtained.toFinset := by
    ext id
    rw [List.mem_toFinset, List.mem_toFinset, members]
  rw [← same, List.toFinset_card_of_nodup distinct, identifiers, List.length_map, size]

theorem looksUp : cache.LooksUp registry where
  found id language := by rw [faithful.result_get, Registry.languageOf_eq_ok_iff]
  unsupported id := by
    rw [faithful.result_get, Registry.languageOf_eq_error_iff]
    simp [Error.nameless]
  nameless id := by
    rw [faithful.result_get, Registry.languageOf_eq_error_iff]
    simp [Error.nameless]
  failed id error failed := by
    rcases cache.get_cases id with ⟨language, after, got, -⟩ | ⟨reason, unmade, got⟩
    · rw [got] at failed
      cases failed
    · rw [got] at failed ⊢
      cases failed
      rw [faithful.sameRegistry, Registry.languageOf_eq_error_iff] at unmade
      exact ⟨unmade.imp And.right And.right, rfl⟩
  again id language got _ _ later session := by
    obtain ⟨entry, found, rfl⟩ := find?_get got
    obtain ⟨latest, found, grown⟩ := session.becomes.grows id entry found
    rw [get_of_find? found, grown.language]

theorem enumerates : cache.Enumerates registry where
  inOrder := List.pairwise_map.mpr registry.sorted_bytes
  every languages := by rw [faithful.result_all, Registry.mapM_identifiers_eq_ok_iff]
  everyCached languages listed id := by
    rw [faithful.result_all, Registry.mapM_identifiers_eq_ok_iff] at listed
    rw [Bool.eq_iff_iff, faithful.isCached_all, Registry.contains_eq_true_iff]
    have every : ∀ id ∈ registry.identifiers, (registry.languageOf id).isOk = true :=
      Registry.isOk_of_entries listed
    have looked : registry.identifiers.takeWhile (fun id => (registry.languageOf id).isOk) =
        registry.identifiers := List.takeWhile_eq_self_iff.mpr every
    rw [looked]
    exact or_iff_right_of_imp faithful.mem_identifiers_of_isCached
  failed error := by rw [faithful.result_all, Registry.mapM_identifiers_eq_error_iff]
  cachedBefore before id first other := by
    obtain ⟨behind, split⟩ := first.split
    have stops : ¬(registry.languageOf id).isOk = true := by
      rw [Registry.languageOf_eq_error_iff.mpr (.inr ⟨first.nameless, rfl⟩)]
      exact Bool.false_ne_true
    have passed : ∀ other ∈ before, (registry.languageOf other).isOk = true := fun other member =>
      Registry.isOk_languageOf_iff.mpr (first.named other member)
    have looked : (registry.identifiers.takeWhile fun id => (registry.languageOf id).isOk) = before := by
      rw [split, List.takeWhile_append_of_pos passed, List.takeWhile_cons_of_neg (by exact stops),
        List.append_nil]
    rw [faithful.isCached_all, looked]

theorem compiles : cache.Compiles registry settings.template where
  compiled _ _ cached made := isCompiled_of_parser_ok cached made
  failed _ _ failed := parser_of_error failed
  unfit language error made failed := by
    refine Bool.eq_false_iff.mpr fun compiled => ?_
    obtain ⟨entry, parser, found, kept⟩ := isCompiled_eq_true_iff.mp compiled
    -- A parser is kept only if the template yields it.
    obtain ⟨right, same⟩ := faithful.find? found
    obtain rfl : entry.language = language := Except.ok.inj (same.symm.trans made)
    rw [right.parser parser kept] at failed
    cases failed
  every after made language registered := by
    cases made with
    | @compiled languages next _ _ obtained compiles =>
      cases compiles with
      | @whole order _ perm made =>
        have listed : cache.all.1 = .ok languages := congrArg Prod.fst obtained
        have every := faithful.enumerates.everyCached languages listed language.identifier
        rw [obtained] at every
        have entry : language.entry ∈ registry.entries :=
          Registry.get?_eq_some_iff.mp (Registry.languageOf_eq_ok_iff.mp registered).2
        have cached : next.isCached language.identifier = true := by
          rw [every, Registry.contains_eq_true_iff]
          exact List.mem_map_of_mem entry
        -- What is listed under its identifier is this very language.
        rw [← (faithful.enumerates.every languages).mp listed, List.mem_map] at entry
        obtain ⟨other, member, same⟩ := entry
        obtain rfl := Language.entry_injective same
        exact isCompiled_of_compileEach cached (perm.mem_iff.mpr member) made

end Faithful

end Cache

/-- With any engine: whatever is done with a cache, and whatever of it fails, it keeps to its registry, and
what it has found or compiled stays. -/
theorem Cache.invariant_of_session {R : Type} [Engine R] {registry : Registry} {settings : Settings}
    {operations : List Operation} {ids : List String} {cache : Cache R}
    (session : (ofRegistry registry settings).Session operations ids cache) :
    cache.Invariant registry settings.template ids := by
  have kept := (faithful_ofRegistry registry settings).session session
  exact ⟨kept.accounted session.becomes, kept.looksUp, kept.enumerates, kept.compiles, keeps cache⟩

/-- It holds where parsers have been made out of order, and only some of them. -/
theorem Cache.invariant_of_session_brief : ∃ cache : Cache,
    (ofRegistry .brief .brief).Session [.ask "d" .adverbs, .precompileAll, .setBackend .lines]
      ["a", "b", "c"] cache ∧
    cache.built.map (fun entry => (entry.language.identifier, entry.parser.isSome)) =
      [("a", false), ("b", true), ("c", false)] ∧
    cache.Invariant .brief Settings.brief.template ["a", "b", "c"] := by
  obtain ⟨cache, session, built⟩ := session_brief
  exact ⟨cache, session, built, invariant_of_session session⟩

end FeatureFile
