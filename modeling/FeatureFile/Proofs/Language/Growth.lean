import FeatureFile.Proofs.Language.Session
/-!
What can become of a cache. Whatever is done with it comes down to a few steps: a language is found or
built, something is kept for a language that lacked it, the backend is set. None of them takes
anything away, so a cache only grows, in whatever order languages are looked up and compiled.
-/

namespace FeatureFile

variable {R : Type}

namespace Cache

/-! ### Steps -/

/-- One thing that can become of a cache, and the identifier that was looked up with success. -/
inductive Step : Cache R → List String → Cache R → Prop where
  | found {cache : Cache R} {id : String} {entry : CachedLanguage R}
      (found : cache.find? id = some entry) : Step cache [id] cache
  | built {cache : Cache R} {id : String} {language : Language} (new : cache.find? id = none)
      (made : cache.registry.languageOf id = .ok language) :
      Step cache [id] { cache with built := cache.built ++ [⟨language, none, none⟩] }
  | keptSteps {cache : Cache R} {language : Language} {keywords : List Text}
      (lacking : (cache.find? language.identifier).bind (·.steps) = none) :
      Step cache [] (cache.keepSteps language keywords)
  | keptParser {cache : Cache R} {parser : Parser R}
      (lacking : (cache.find? parser.language.identifier).bind (·.parser) = none) :
      Step cache [] (cache.keepParser parser)
  | backend (cache : Cache R) (backend : Backend) : Step cache [] (cache.setBackend backend)

/-- What can become of a cache in any number of steps, and the identifiers that were looked up with
success. -/
inductive Becomes : Cache R → List String → Cache R → Prop where
  | same (cache : Cache R) : Becomes cache [] cache
  | next {before middle after : Cache R} {ids others : List String} (step : Step before ids middle)
      (rest : Becomes middle others after) : Becomes before (ids ++ others) after

namespace Becomes

variable {before middle after : Cache R} {ids others : List String}

theorem single (step : Step before ids after) : Becomes before ids after :=
  List.append_nil ids ▸ .next step (.same after)

theorem trans (first : Becomes before ids middle) (second : Becomes middle others after) :
    Becomes before (ids ++ others) after := by
  induction first with
  | same => exact second
  | next step _ ih =>
    rw [List.append_assoc]
    exact .next step (ih second)

end Becomes

/-! ### Every operation is made of steps -/

section

variable (cache : Cache R) (language : Language)

theorem get_cases (id : String) :
    (∃ language after, cache.get id = (.ok language, after) ∧ Step cache [id] after) ∨
      ∃ error, cache.registry.languageOf id = .error error ∧ cache.get id = (.error error, cache) := by
  unfold get
  cases found : cache.find? id with
  | some entry => exact .inl ⟨_, _, rfl, .found found⟩
  | none =>
    cases made : cache.registry.languageOf id with
    | ok language => exact .inl ⟨_, _, rfl, .built found made⟩
    | error error => exact .inr ⟨error, rfl, rfl⟩

theorem becomes_get (id : String) : Becomes cache (cache.obtained [id]) (cache.get id).2 := by
  rcases cache.get_cases id with ⟨language, after, got, step⟩ | ⟨error, -, got⟩
  · simpa [obtained, got] using Becomes.single step
  · simpa [obtained, got] using Becomes.same cache

theorem becomes_getEach (ids : List String) :
    Becomes cache (cache.obtained ids) (cache.getEach ids).2 := by
  induction ids generalizing cache with
  | nil => exact .same cache
  | cons id ids ih =>
    rw [obtained, getEach]
    rcases cache.get_cases id with ⟨language, after, got, step⟩ | ⟨error, -, got⟩
    · rw [got]
      have rest := Becomes.next step (ih after)
      dsimp only
      -- A later look-up may fail; what the earlier ones have built is kept either way.
      split
      all_goals
        next result =>
          rw [result] at rest
          exact rest
    · rw [got]
      exact .same cache

theorem becomes_all : Becomes cache (cache.obtained cache.registry.identifiers) cache.all.2 :=
  cache.becomes_getEach cache.registry.identifiers

theorem becomes_stepKeywords : Becomes cache [] (cache.stepKeywords language).2 := by
  unfold stepKeywords
  split
  · exact .same cache
  next lacking =>
    cases language.stepKeywords with
    | ok keywords => exact .single (.keptSteps lacking)
    | error error => exact .same cache

variable [Engine R]

theorem becomes_compile : Becomes cache [] (cache.parser language).2 := by
  unfold parser
  split
  · exact .same cache
  next lacking =>
    cases compiled : Parser.compile (R := R) cache.settings.template language with
    | ok parser =>
      -- The parser is kept for the language that it names, which is this one.
      rw [← Parser.language_of_compile compiled] at lacking
      exact .single (.keptParser lacking)
    | error error => exact .same cache

theorem becomes_parseWith (backend : Backend) (source : Text) (path : String) (filter : Filter) :
    Becomes cache [] (cache.parseWith backend language source path filter).2 := by
  cases backend with
  | lines => exact .same cache
  | grammar =>
    have kept := cache.becomes_compile language
    unfold parseWith
    dsimp only
    split
    all_goals
      next result =>
        rw [result] at kept
        exact kept

theorem becomes_answer (query : Query) : Becomes cache [] (cache.answer language query).2 := by
  cases query with
  | parse source path filter => exact cache.becomes_parseWith language cache.backend source path filter
  | parseWith backend source path filter => exact cache.becomes_parseWith language backend source path filter
  | parser => exact cache.becomes_compile language
  | stepKeywords => exact cache.becomes_stepKeywords language
  | keywords | spacedKeywords | adverbs => exact .same cache

theorem becomes_compileEach (languages : List Language) :
    Becomes cache [] (cache.compileEach languages).2 := by
  induction languages generalizing cache with
  | nil => exact .same cache
  | cons language languages ih =>
    have first := cache.becomes_compile language
    unfold compileEach
    -- Whether or not there is a parser of this one, the others are made.
    split
    all_goals
      next after result =>
        rw [result] at first
        exact first.trans (ih after)

end

section

variable [Engine R] {cache : Cache R}

theorem CompilesAll.becomes {languages : List Language} {result : Except Error Unit} {after : Cache R}
    (compiles : cache.CompilesAll languages result after) : Becomes cache [] after := by
  cases compiles with
  | @whole order _ _ made => simpa [made] using cache.becomes_compileEach order
  | @stopped tried _ _ _ _ _ made => simpa [made] using cache.becomes_compileEach tried

theorem PrecompilesAll.becomes {result : Except Error Unit} {after : Cache R}
    (compiles : cache.PrecompilesAll result after) :
    Becomes cache (cache.obtained cache.registry.identifiers) after := by
  have listed := cache.becomes_all
  cases compiles with
  | unobtained failed => simpa [failed] using listed
  | compiled obtained compiles =>
    rw [obtained] at listed
    simpa using listed.trans compiles.becomes

theorem Performs.becomes {operation : Operation} {result : Except Error (Answer R)} {after : Cache R}
    (performed : cache.Performs operation result after) :
    Becomes cache (cache.obtained (operation.lookups cache.registry)) after := by
  cases performed with
  | get id => exact cache.becomes_get id
  | all => exact cache.becomes_all
  | precompileAll compiles => exact compiles.becomes
  | setBackend backend => exact .single (.backend cache backend)
  | @unobtained id _ _ _ failed => simpa [Operation.lookups, failed] using cache.becomes_get id
  | @ask id language next query obtained =>
    have looked := cache.becomes_get id
    rw [obtained] at looked
    simpa [Operation.lookups] using looked.trans (next.becomes_answer language query)

theorem Session.becomes {operations : List Operation} {ids : List String} {after : Cache R}
    (session : cache.Session operations ids after) : Becomes cache ids after := by
  induction session with
  | nil cache => exact .same cache
  | cons first _ ih => exact first.becomes.trans ih

end

/-! ### Which languages are cached -/

/-- The identifiers of the languages that have been built. -/
def identifiers (cache : Cache R) : List String :=
  cache.built.map (·.language.identifier)

theorem isCached_iff {cache : Cache R} {id : String} :
    cache.isCached id = true ↔ id ∈ cache.identifiers := by
  simp [isCached, find?, identifiers]

private theorem language_changed {change : CachedLanguage R → CachedLanguage R}
    (same : ∀ entry, (change entry).language = entry.language) (entry : CachedLanguage R) (id : String) :
    (if entry.language.identifier = id then change entry else entry).language = entry.language := by
  split
  · exact same entry
  · rfl

theorem identifiers_update {cache : Cache R} {id : String} {change : CachedLanguage R → CachedLanguage R}
    (same : ∀ entry, (change entry).language = entry.language) :
    (cache.update id change).identifiers = cache.identifiers := by
  rw [identifiers, identifiers, update, List.map_map]
  exact List.map_congr_left fun entry _ => congrArg Language.identifier (language_changed same entry id)

/-- A step adds the identifier that was looked up, unless it is there already, and no other. -/
theorem Step.identifiers {before after : Cache R} {ids : List String} (step : Step before ids after) :
    (after.identifiers = before.identifiers ∧ ids ⊆ before.identifiers) ∨
      ∃ id, ids = [id] ∧ id ∉ before.identifiers ∧
        after.identifiers = before.identifiers ++ [id] := by
  cases step with
  | @found id entry found =>
    have cached : id ∈ before.identifiers := isCached_iff.mp (by rw [isCached, found, Option.isSome_some])
    exact .inl ⟨rfl, by simpa using cached⟩
  | @built id language new made =>
    refine .inr ⟨id, rfl, fun cached => ?_, ?_⟩
    · rw [← isCached_iff, isCached, new] at cached
      cases cached
    · rw [Cache.identifiers, List.map_append, List.map_singleton, Registry.identifier_languageOf made]
      rfl
  | keptSteps => exact .inl ⟨identifiers_update fun _ => rfl, List.nil_subset _⟩
  | keptParser => exact .inl ⟨identifiers_update fun _ => rfl, List.nil_subset _⟩
  | backend => exact .inl ⟨rfl, List.nil_subset _⟩

namespace Becomes

variable {before after : Cache R} {ids : List String}

theorem mem_identifiers_iff (becomes : Becomes before ids after) {id : String} :
    id ∈ after.identifiers ↔ id ∈ before.identifiers ∨ id ∈ ids := by
  induction becomes with
  | same => simp
  | next step _ ih =>
    rw [ih, List.mem_append, ← or_assoc]
    -- What the rest looks up is on both sides; left is what the step does.
    refine or_congr_left ?_
    rcases step.identifiers with ⟨same, known⟩ | ⟨added, rfl, -, more⟩
    · rw [same]
      exact (or_iff_left_of_imp fun looked => known looked).symm
    · rw [more, List.mem_append]

/-- No identifier is cached twice. -/
theorem nodup_identifiers (becomes : Becomes before ids after) (distinct : before.identifiers.Nodup) :
    after.identifiers.Nodup := by
  induction becomes with
  | same => exact distinct
  | next step _ ih =>
    refine ih ?_
    rcases step.identifiers with ⟨same, -⟩ | ⟨added, -, new, more⟩
    · exact same ▸ distinct
    · rw [more]
      refine List.nodup_append.mpr ⟨distinct, by simp, fun id member other same => ?_⟩
      rintro rfl
      exact new (List.mem_singleton.mp same ▸ member)

end Becomes

/-! ### What is kept of a language -/

end Cache

/-- What is kept of a language later on: the language, and whatever had been made for it. -/
structure CachedLanguage.Grows (before after : CachedLanguage R) : Prop where
  language : after.language = before.language
  steps : ∀ keywords, before.steps = some keywords → after.steps = some keywords
  parser : ∀ parser, before.parser = some parser → after.parser = some parser

namespace CachedLanguage.Grows

theorem refl (entry : CachedLanguage R) : entry.Grows entry :=
  ⟨rfl, fun _ => id, fun _ => id⟩

theorem trans {first second third : CachedLanguage R} (one : first.Grows second)
    (other : second.Grows third) : first.Grows third :=
  ⟨other.language.trans one.language, fun keywords kept => other.steps keywords (one.steps keywords kept),
    fun parser kept => other.parser parser (one.parser parser kept)⟩

end CachedLanguage.Grows

namespace Cache

/-- Whatever is found before is found after, perhaps grown. -/
def Grows (before after : Cache R) : Prop :=
  ∀ id entry, before.find? id = some entry → ∃ later, after.find? id = some later ∧ entry.Grows later

theorem find?_build (cache : Cache R) (entry : CachedLanguage R) (id : String) :
    { cache with built := cache.built ++ [entry] }.find? id =
      (cache.find? id).or (if entry.language.identifier = id then some entry else none) := by
  simp [find?, List.find?_append, List.find?_singleton]

theorem find?_update {cache : Cache R} {id other : String} {change : CachedLanguage R → CachedLanguage R}
    (same : ∀ entry, (change entry).language = entry.language) :
    (cache.update id change).find? other = (cache.find? other).map fun entry =>
      if other = id then change entry else entry := by
  rw [find?, find?, update, List.find?_map]
  simp only [Function.comp_def, language_changed same]
  cases found : cache.built.find? fun entry => entry.language.identifier = other with
  | none => rfl
  | some entry =>
    obtain rfl : entry.language.identifier = other := by simpa using List.find?_some found
    rfl

namespace Grows

theorem refl (cache : Cache R) : cache.Grows cache :=
  fun _ entry found => ⟨entry, found, .refl entry⟩

theorem trans {first second third : Cache R} (one : first.Grows second) (other : second.Grows third) :
    first.Grows third := by
  intro id entry found
  obtain ⟨later, found, grown⟩ := one id entry found
  obtain ⟨latest, found, grown'⟩ := other id later found
  exact ⟨latest, found, grown.trans grown'⟩

/-- An entry may be changed where it grows. -/
theorem update {cache : Cache R} {id : String} {change : CachedLanguage R → CachedLanguage R}
    (same : ∀ entry, (change entry).language = entry.language)
    (grows : ∀ entry, cache.find? id = some entry → entry.Grows (change entry)) :
    cache.Grows (cache.update id change) := by
  intro other entry found
  refine ⟨_, by rw [find?_update same, found, Option.map_some], ?_⟩
  split
  next changed => exact grows entry (changed ▸ found)
  · exact .refl entry

end Grows

theorem Step.grows {before after : Cache R} {ids : List String} (step : Step before ids after) :
    before.Grows after := by
  -- Keywords and parsers are kept only where there were none, so none are replaced.
  cases step with
  | found => exact .refl _
  | built =>
    intro other entry found
    exact ⟨entry, by rw [find?_build, found, Option.some_or], .refl entry⟩
  | keptSteps lacking =>
    refine .update (fun _ => rfl) fun entry found => ⟨rfl, fun keywords kept => ?_, fun _ => id⟩
    rw [found, Option.bind_some, kept] at lacking
    cases lacking
  | keptParser lacking =>
    refine .update (fun _ => rfl) fun entry found => ⟨rfl, fun _ => id, fun parser kept => ?_⟩
    rw [found, Option.bind_some, kept] at lacking
    cases lacking
  | backend => exact .refl _

theorem Becomes.grows {before after : Cache R} {ids : List String} (becomes : Becomes before ids after) :
    before.Grows after := by
  induction becomes with
  | same => exact .refl _
  | next step _ ih => exact step.grows.trans ih

end Cache

end FeatureFile
