import FeatureFile.Proofs.Text.ByteOrder
import FeatureFile.Proofs.Language.Session
/-!
Look-ups in a registry: which identifiers have a language, and why another has none. Where every
registered identifier is looked up in turn, the first table without a name ends it.
-/

namespace FeatureFile

variable {registry : Registry} {id : String} {table : KeywordTable}

/-- The entry that a language is registered under. -/
def Language.entry (language : Language) : String × KeywordTable :=
  (language.identifier, language.table)

namespace Language

theorem entry_injective : Function.Injective entry := by
  rintro ⟨id, table, named⟩ ⟨other, kept, _⟩ same
  cases same
  rfl

theorem ofTable_eq_ok_iff {language : Language} :
    ofTable id table = .ok language ↔ language.entry = (id, table) := by
  obtain ⟨identifier, kept, named⟩ := language
  unfold ofTable
  split
  next => simp [entry, eq_comm]
  next nameless =>
    have differs : kept ≠ table := fun same => nameless (same ▸ named)
    simp [entry, differs]

theorem ofTable_eq_error_iff {error : Error} :
    ofTable id table = .error error ↔ table.contains .name = false ∧ error = .nameless id := by
  unfold ofTable
  split
  next named => simp [named]
  next nameless => simp [nameless, eq_comm]

end Language

/-! ### One after the other -/

section

variable {α β ε : Type} {f : α → Except ε β}

theorem mapM_cons_eq_ok_iff {x : α} {xs : List α} {ys : List β} :
    (x :: xs).mapM f = .ok ys ↔
      ∃ y others, ys = y :: others ∧ f x = .ok y ∧ xs.mapM f = .ok others := by
  rw [List.mapM_cons]
  cases first : f x with
  | error error => simp [bind, Except.bind]
  | ok y =>
    cases rest : xs.mapM f with
    | error error => simp [bind, Except.bind]
    | ok others => simp [bind, Except.bind, pure, Except.pure, eq_comm]

theorem mapM_cons_eq_error_iff {x : α} {xs : List α} {error : ε} :
    (x :: xs).mapM f = .error error ↔
      f x = .error error ∨ (f x).isOk = true ∧ xs.mapM f = .error error := by
  rw [List.mapM_cons]
  cases first : f x with
  | error error => simp [bind, Except.bind, Except.isOk, Except.toBool]
  | ok y =>
    cases rest : xs.mapM f with
    | error error => simp [bind, Except.bind, Except.isOk, Except.toBool]
    | ok others => simp [bind, Except.bind, pure, Except.pure]

/-- A list of attempts fails by the first that fails. -/
theorem mapM_eq_error_iff {xs : List α} {error : ε} :
    xs.mapM f = .error error ↔ ∃ before x behind, xs = before ++ x :: behind ∧
      (∀ y ∈ before, (f y).isOk = true) ∧ f x = .error error := by
  induction xs with
  | nil => simp [pure, Except.pure]
  | cons x xs ih =>
    rw [mapM_cons_eq_error_iff, ih]
    constructor
    · rintro (failed | ⟨passed, before, z, behind, rfl, others, failed⟩)
      · exact ⟨[], x, xs, rfl, nofun, failed⟩
      · exact ⟨x :: before, z, behind, rfl, List.forall_mem_cons.mpr ⟨passed, others⟩, failed⟩
    · rintro ⟨before, z, behind, split, passed, failed⟩
      cases before with
      | nil =>
        cases split
        exact .inl failed
      | cons y before =>
        cases split
        obtain ⟨first, others⟩ := List.forall_mem_cons.mp passed
        exact .inr ⟨first, before, z, behind, rfl, others, failed⟩

end

namespace Registry

/-! ### One identifier -/

theorem get?_eq_some_iff : registry.get? id = some table ↔ (id, table) ∈ registry.entries := by
  obtain ⟨entries, sorted⟩ := registry
  change entries.lookup id = some table ↔ (id, table) ∈ entries
  induction entries with
  | nil => simp
  | cons entry rest ih =>
    obtain ⟨first, others⟩ := List.pairwise_cons.mp sorted
    rw [lookup_cons_ite, List.mem_cons]
    split
    next same =>
      subst same
      -- No later entry has this identifier: they are all larger.
      have elsewhere : (entry.1, table) ∉ rest := fun member =>
        String.lt_irrefl _ (first (entry.1, table) member)
      simp [elsewhere, Prod.ext_iff, eq_comm]
    next differs =>
      have elsewhere : (id, table) ≠ entry := fun same => differs (congrArg Prod.fst same)
      simp [ih others, elsewhere]

theorem contains_eq_true_iff : registry.contains id = true ↔ id ∈ registry.identifiers := by
  simp [contains, identifiers, Option.isSome_iff_exists, get?_eq_some_iff]

theorem languageOf_of_mem (member : (id, table) ∈ registry.entries) :
    registry.languageOf id = Language.ofTable id table := by
  rw [languageOf, get?_eq_some_iff.mpr member]

/-- A language is the one of an identifier if it is registered under it. -/
theorem languageOf_eq_ok_iff {language : Language} :
    registry.languageOf id = .ok language ↔
      language.identifier = id ∧ registry.get? id = some language.table := by
  unfold languageOf
  cases registry.get? id with
  | none => simp
  | some table =>
    rw [Language.ofTable_eq_ok_iff, Language.entry, Prod.mk.injEq, Option.some_inj]
    exact and_congr_right fun _ => eq_comm

/-- There is no language of an identifier if it is not registered, or its table has no name. -/
theorem languageOf_eq_error_iff {error : Error} :
    registry.languageOf id = .error error ↔
      registry.contains id = false ∧ error = .unsupportedLanguage id ∨
      (∃ table, registry.get? id = some table ∧ table.contains .name = false) ∧
        error = .nameless id := by
  unfold languageOf contains
  cases registry.get? id with
  | none => simpa using eq_comm
  | some table => simp [Language.ofTable_eq_error_iff]

theorem isOk_languageOf_iff :
    (registry.languageOf id).isOk = true ↔
      ∃ table, registry.get? id = some table ∧ table.contains .name = true := by
  unfold languageOf Language.ofTable
  cases registry.get? id with
  | none => simp [Except.isOk, Except.toBool]
  | some table => cases named : table.contains .name <;> simp [named, Except.isOk, Except.toBool]

/-! ### Every identifier in turn -/

/-- The entries stand in the order of the bytes of their identifiers. -/
theorem sorted_bytes (registry : Registry) :
    registry.entries.Pairwise fun a b => bytes a.1 < bytes b.1 :=
  registry.sorted.imp lt_iff_bytes_lt.mp

/-- The first identifier, behind those before it, that is registered without a name. -/
structure FirstNameless (registry : Registry) (before : List String) (id : String) : Prop where
  split : ∃ behind, registry.identifiers = before ++ id :: behind
  named : ∀ other ∈ before, ∃ table, registry.get? other = some table ∧ table.contains .name = true
  nameless : ∃ table, registry.get? id = some table ∧ table.contains .name = false

theorem mapM_languageOf_eq_ok_iff {entries : List (String × KeywordTable)}
    {languages : List Language} (registered : entries ⊆ registry.entries) :
    (entries.map (·.1)).mapM registry.languageOf = .ok languages ↔
      languages.map Language.entry = entries := by
  induction entries generalizing languages with
  | nil => cases languages <;> simp [pure, Except.pure]
  | cons entry rest ih =>
    obtain ⟨first, others⟩ := List.cons_subset.mp registered
    rw [List.map_cons, mapM_cons_eq_ok_iff, List.map_eq_cons_iff, languageOf_of_mem first]
    simp only [Language.ofTable_eq_ok_iff, ih others]

/-- Every language can be had if every table has a name; the languages stand in the order of the
entries. -/
theorem mapM_identifiers_eq_ok_iff {languages : List Language} :
    registry.identifiers.mapM registry.languageOf = .ok languages ↔
      languages.map Language.entry = registry.entries :=
  mapM_languageOf_eq_ok_iff (List.Subset.refl _)

theorem isOk_of_entries {languages : List Language}
    (listed : languages.map Language.entry = registry.entries) :
    ∀ id ∈ registry.identifiers, (registry.languageOf id).isOk = true := by
  intro id member
  rw [identifiers, ← listed, List.map_map] at member
  obtain ⟨language, listing, rfl⟩ := List.mem_map.mp member
  have registered : language.entry ∈ registry.entries :=
    listed ▸ List.mem_map_of_mem listing
  exact isOk_languageOf_iff.mpr ⟨language.table, get?_eq_some_iff.mpr registered, language.named⟩

/-- One of the identifiers fails if some table has no name: the first of these. -/
theorem mapM_identifiers_eq_error_iff {error : Error} :
    registry.identifiers.mapM registry.languageOf = .error error ↔
      ∃ before id, registry.FirstNameless before id ∧ error = .nameless id := by
  rw [mapM_eq_error_iff]
  constructor
  · rintro ⟨before, id, behind, split, passed, failed⟩
    have registered : id ∈ registry.identifiers := by simp [split]
    -- An identifier of the registry can only lack a name.
    rcases languageOf_eq_error_iff.mp failed with ⟨unregistered, -⟩ | ⟨nameless, rfl⟩
    · rw [contains_eq_true_iff.mpr registered] at unregistered
      cases unregistered
    · exact ⟨before, id, ⟨⟨behind, split⟩, fun other member =>
        isOk_languageOf_iff.mp (passed other member), nameless⟩, rfl⟩
  · rintro ⟨before, id, ⟨⟨behind, split⟩, named, nameless⟩, rfl⟩
    exact ⟨before, id, behind, split, fun other member =>
      isOk_languageOf_iff.mpr (named other member), languageOf_eq_error_iff.mpr (.inr ⟨nameless, rfl⟩)⟩

end Registry

end FeatureFile
