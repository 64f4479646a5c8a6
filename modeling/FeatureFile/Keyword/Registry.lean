import FeatureFile.Keyword.Table
/-!
Registries: keyword tables by language identifier, in the order of the identifiers.
-/

namespace FeatureFile

/-- Keyword tables by identifier; the identifiers rise strictly. -/
structure Registry where
  entries : List (String × KeywordTable)
  sorted : entries.Pairwise fun a b => a.1 < b.1

namespace Registry

/-- The registry without languages. -/
def empty : Registry := ⟨[], .nil⟩

instance : Inhabited Registry := ⟨empty⟩

/-- Sets the table of an identifier, in its place by the order of identifiers. -/
def insertEntry (id : String) (table : KeywordTable) :
    List (String × KeywordTable) → List (String × KeywordTable)
  | [] => [(id, table)]
  | (k, t) :: rest =>
    if id < k then (id, table) :: (k, t) :: rest
    else if k = id then (id, table) :: rest
    else (k, t) :: insertEntry id table rest

theorem mem_insertEntry {id : String} {table : KeywordTable} {entry : String × KeywordTable}
    {entries : List (String × KeywordTable)} (h : entry ∈ insertEntry id table entries) :
    entry = (id, table) ∨ entry ∈ entries := by
  induction entries with
  | nil => simpa [insertEntry] using h
  | cons first rest ih =>
    simp only [insertEntry] at h
    split at h
    · simpa using h
    · split at h
      · rcases List.mem_cons.1 h with h | h
        · exact .inl h
        · exact .inr (List.mem_cons_of_mem _ h)
      · rcases List.mem_cons.1 h with h | h
        · exact .inr (h ▸ List.mem_cons_self)
        · exact (ih h).imp_right (List.mem_cons_of_mem _)

theorem sorted_insertEntry {id : String} {table : KeywordTable}
    {entries : List (String × KeywordTable)} (h : entries.Pairwise fun a b => a.1 < b.1) :
    (insertEntry id table entries).Pairwise fun a b => a.1 < b.1 := by
  induction entries with
  | nil => simp [insertEntry]
  | cons first rest ih =>
    obtain ⟨first_lt, rest_sorted⟩ := List.pairwise_cons.1 h
    simp only [insertEntry]
    split
    next lt =>
      refine List.pairwise_cons.2 ⟨fun entry member => ?_, h⟩
      rcases List.mem_cons.1 member with rfl | member
      · exact lt
      · exact String.lt_trans lt (first_lt entry member)
    next not_lt =>
      split
      next same =>
        refine List.pairwise_cons.2 ⟨fun entry member => ?_, rest_sorted⟩
        exact same ▸ first_lt entry member
      next differs =>
        have lt : first.1 < id :=
          String.not_le.1 fun le => differs (String.le_antisymm (String.not_lt.1 not_lt) le)
        refine List.pairwise_cons.2 ⟨fun entry member => ?_, ih rest_sorted⟩
        rcases mem_insertEntry member with rfl | member
        · exact lt
        · exact first_lt entry member

/-- Registers a table, replacing any other of the identifier. -/
def insert (registry : Registry) (id : String) (table : KeywordTable) : Registry :=
  ⟨insertEntry id table registry.entries, sorted_insertEntry registry.sorted⟩

/-- The registry of the pairs; a later pair overrides an earlier one of the same identifier. -/
def ofList (pairs : List (String × KeywordTable)) : Registry :=
  pairs.foldl (fun registry pair => registry.insert pair.1 pair.2) empty

/-- The table of a language. -/
def get? (registry : Registry) (id : String) : Option KeywordTable :=
  registry.entries.lookup id

private theorem lookup_insertEntry (id other : String) (table : KeywordTable)
    (entries : List (String × KeywordTable)) :
    (insertEntry id table entries).lookup other =
      if other = id then some table else entries.lookup other := by
  induction entries with
  | nil => simp [insertEntry, lookup_cons_ite]
  | cons entry rest ih => grind [insertEntry, lookup_cons_ite]

theorem get?_insert (registry : Registry) (id other : String) (table : KeywordTable) :
    (registry.insert id table).get? other =
      if other = id then some table else registry.get? other :=
  lookup_insertEntry id other table registry.entries

/-- Whether the language is registered. -/
def contains (registry : Registry) (id : String) : Bool :=
  (registry.get? id).isSome

/-- Every registered identifier, in rising order. -/
def identifiers (registry : Registry) : List String :=
  registry.entries.map (·.1)

/-- Number of languages. -/
def size (registry : Registry) : Nat :=
  registry.entries.length

/-- Whether there is no language. -/
def isEmpty (registry : Registry) : Bool :=
  registry.entries.isEmpty

end Registry

end FeatureFile
