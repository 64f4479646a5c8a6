import FeatureFile.Keyword.Concept
/-!
Keyword tables: for each concept one text that lists its keywords, separated by `|`. Entries keep
the order of their first insertion; keys that name no concept are kept and never consulted.
-/

namespace FeatureFile

/-- The value of `key` set to `value`: in place if the key is there, at the end otherwise. -/
def setEntry {α : Type} (key : String) (value : α) : List (String × α) → List (String × α)
  | [] => [(key, value)]
  | (k, v) :: rest => if k = key then (k, value) :: rest else (k, v) :: setEntry key value rest

theorem lookup_cons_ite {α : Type} (other key : String) (value : α) (rest : List (String × α)) :
    ((key, value) :: rest).lookup other = if other = key then some value else rest.lookup other := by
  by_cases h : other = key
  · simp [h]
  · simp [List.lookup_cons, beq_eq_false_iff_ne.2 h, h]

theorem lookup_setEntry {α : Type} (key other : String) (value : α)
    (entries : List (String × α)) :
    (setEntry key value entries).lookup other =
      if other = key then some value else entries.lookup other := by
  induction entries with
  | nil => simp [setEntry, lookup_cons_ite]
  | cons entry rest ih => grind [setEntry, lookup_cons_ite]

/-- One language's keywords, by key. -/
structure KeywordTable where
  entries : List (String × Text)
  deriving DecidableEq, Repr

namespace KeywordTable

/-- The table without entries. -/
def empty : KeywordTable := ⟨[]⟩

instance : Inhabited KeywordTable := ⟨empty⟩

/-- The text listing a concept's keywords. -/
def get? (table : KeywordTable) (concept : Concept) : Option Text :=
  table.entries.lookup concept.key

/-- Whether the table has an entry for the concept. -/
def contains (table : KeywordTable) (concept : Concept) : Bool :=
  (table.get? concept).isSome

/-- Sets the text of a concept. -/
def insert (table : KeywordTable) (concept : Concept) (keywords : Text) : KeywordTable :=
  ⟨setEntry concept.key keywords table.entries⟩

/-- The table without the concept's entry; the others keep their order. -/
def erase (table : KeywordTable) (concept : Concept) : KeywordTable :=
  ⟨table.entries.filter fun entry => entry.1 ≠ concept.key⟩

/-- Number of entries, unknown keys included. -/
def size (table : KeywordTable) : Nat :=
  table.entries.length

/-- Whether there is no entry at all. -/
def isEmpty (table : KeywordTable) : Bool :=
  table.entries.isEmpty

/-- The table of the pairs; a later pair overrides an earlier one of the same concept. -/
def ofList (pairs : List (Concept × Text)) : KeywordTable :=
  pairs.foldl (fun table pair => table.insert pair.1 pair.2) empty

/-- The table of a definition as written: a later value of a key overrides an earlier one, and keys
left without a value are dropped. -/
def ofEntries (written : List (String × Option Text)) : KeywordTable :=
  let values := written.foldl (fun known entry => setEntry entry.1 entry.2 known) []
  ⟨values.filterMap fun entry => entry.2.map (entry.1, ·)⟩

/-- Whether both tables hold the same entries, in whatever order. -/
def sameEntries (a b : KeywordTable) : Bool :=
  a.size = b.size && a.entries.all fun entry => b.entries.lookup entry.1 = some entry.2

theorem get?_insert (table : KeywordTable) (concept other : Concept) (keywords : Text) :
    (table.insert concept keywords).get? other =
      if other = concept then some keywords else table.get? other := by
  simp only [get?, insert, lookup_setEntry]
  by_cases h : other = concept
  · simp [h]
  · have : other.key ≠ concept.key := fun same => h (Concept.key_injective same)
    simp [h, this]

private theorem lookup_filter_ne (entries : List (String × Text)) (key other : String) :
    (entries.filter fun entry => entry.1 ≠ key).lookup other =
      if other = key then none else entries.lookup other := by
  induction entries with
  | nil => simp
  | cons entry rest ih => grind [lookup_cons_ite]

theorem get?_erase (table : KeywordTable) (concept other : Concept) :
    (table.erase concept).get? other = if other = concept then none else table.get? other := by
  simp only [get?, erase]
  rw [lookup_filter_ne]
  by_cases h : other = concept
  · simp [h]
  · have : other.key ≠ concept.key := fun same => h (Concept.key_injective same)
    simp [h, this]

end KeywordTable

end FeatureFile
