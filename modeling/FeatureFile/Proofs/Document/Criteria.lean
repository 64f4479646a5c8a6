import FeatureFile.Proofs.Document.Filtering
import Mathlib.Data.List.Basic
import Mathlib.Data.List.Induction
import Mathlib.Tactic.ByContra
/-!
What the criteria of a filter mean. An element stays by what they say of its name, of the lines it owns and
of its tags. Nothing else in the feature changes, but that outlines lose the examples sections whose tags
the expressions do not hold for.
-/

namespace FeatureFile

/-! ### Tag expressions -/

/-- The tag that a text names: the text itself, or if there is no `@` in front of it, the text behind one. -/
inductive TagTerm.Names : Text → Text → Prop where
  | whole {rest : Text} : Names ('@' :: rest) ('@' :: rest)
  | supplied {written : Text} (missing : written.head? ≠ some '@') : Names written ('@' :: written)

/-- What a term between two commas asks for. -/
inductive TagTerm.Asks : Text → TagTerm → Prop where
  | present {written tag : Text} (full : written.trim ≠ []) (plain : written.trim.head? ≠ some '~')
      (names : Names written.trim tag) : Asks written ⟨tag, false⟩
  | absent {written rest tag : Text} (marked : written.trim = '~' :: rest) (full : Text.trim rest ≠ [])
      (names : Names (Text.trim rest) tag) : Asks written ⟨tag, true⟩

/-- A term that asks for nothing: it is blank, or a lone `~`. -/
def TagTerm.IsBlank (written : Text) : Prop :=
  written.trim = [] ∨ ∃ rest, written.trim = '~' :: rest ∧ Text.trim rest = []

/-- Whether tags are as a term asks. -/
def TagTerm.IsMet (term : TagTerm) (tags : List Tag) : Prop :=
  if term.negated then ∀ tag ∈ tags, tag.name ≠ term.name else ∃ tag ∈ tags, tag.name = term.name

namespace TagExpression

/-- An expression in which no term asks for anything. -/
def IsBlank (expression : Text) : Prop :=
  ∀ written ∈ expression.splitOn ',', TagTerm.IsBlank written

/-- One of the terms is met. -/
def Holds (expression : Text) (tags : List Tag) : Prop :=
  ∃ written ∈ expression.splitOn ',', ∃ term, TagTerm.Asks written term ∧ term.IsMet tags

end TagExpression

namespace TagTerm

theorem tagName_eq_iff {written tag : Text} : tagName written = tag ↔ Names written tag := by
  unfold tagName
  constructor
  · rintro rfl
    split
    next => exact .whole
    next none =>
      refine .supplied fun first => ?_
      obtain ⟨rest, split⟩ := List.head?_eq_some_iff.mp first
      exact none rest split
  · intro names
    cases names with
    | whole => rfl
    | supplied missing =>
      split
      next rest => exact absurd rfl missing
      next => rfl

theorem parse?_eq_some_iff {written : Text} {term : TagTerm} :
    parse? written = some term ↔ Asks written term := by
  unfold parse?
  constructor
  · intro read
    split at read
    next negated name found =>
      obtain ⟨full, same⟩ := Option.ite_none_left_eq_some.mp read
      obtain rfl := Option.some.inj same
      split at found
      next rest marked =>
        cases found
        exact .absent marked (by simpa using full) (tagName_eq_iff.mp rfl)
      next plain =>
        cases found
        refine .present (by simpa using full) (fun first => ?_) (tagName_eq_iff.mp rfl)
        obtain ⟨rest, split⟩ := List.head?_eq_some_iff.mp first
        exact plain rest split
  · intro asks
    cases asks with
    | absent marked full names => simp [marked, full, tagName_eq_iff.mpr names]
    | present full plain names =>
      -- The reader looks at the first character, so the trimmed text has to show one.
      generalize written.trim = name at full plain names ⊢
      cases name with
      | nil => exact absurd rfl full
      | cons c rest =>
        have other : c ≠ '~' := by simpa using plain
        simp [other, tagName_eq_iff.mpr names]

theorem isBlank_iff {written : Text} : IsBlank written ↔ parse? written = none := by
  rw [Option.eq_none_iff_forall_ne_some]
  simp only [ne_eq, parse?_eq_some_iff]
  constructor
  · rintro (blank | ⟨rest, marked, blank⟩) term asks
    · cases asks <;> simp_all
    · cases asks <;> simp_all
  · intro nothing
    -- A term that is not blank asks for something, behind a mark or without one.
    by_contra full
    obtain ⟨visible, named⟩ : written.trim ≠ [] ∧
        ∀ rest, written.trim = '~' :: rest → Text.trim rest ≠ [] := by
      simpa [IsBlank] using full
    by_cases marked : written.trim.head? = some '~'
    · obtain ⟨rest, split⟩ := List.head?_eq_some_iff.mp marked
      exact nothing _ (.absent split (named rest split) (tagName_eq_iff.mp rfl))
    · exact nothing _ (.present visible marked (tagName_eq_iff.mp rfl))

theorem holds_iff {term : TagTerm} {tags : List Tag} :
    term.holds (tags.map (·.name)) = true ↔ term.IsMet tags := by
  cases negated : term.negated <;> simp [holds, IsMet, negated]

end TagTerm

namespace TagExpression

theorem isBlank_iff {expression : Text} :
    IsBlank expression ↔ Filter.readExpression expression = [] := by
  simp only [IsBlank, Filter.readExpression, List.filterMap_eq_nil_iff, TagTerm.isBlank_iff]

theorem holds_iff {expression : Text} {tags : List Tag} :
    ((Filter.readExpression expression).any fun term => term.holds (tags.map (·.name))) = true ↔
      Holds expression tags := by
  simp only [Filter.readExpression, List.any_eq_true, List.mem_filterMap, TagTerm.parse?_eq_some_iff,
    TagTerm.holds_iff, Holds]
  constructor
  · rintro ⟨term, ⟨written, member, asks⟩, met⟩
    exact ⟨written, member, term, asks, met⟩
  · rintro ⟨written, member, term, asks, met⟩
    exact ⟨term, ⟨written, member, asks⟩, met⟩

end TagExpression

/-! ### Criteria -/

/-- One criterion, as it is asked for. -/
inductive Criterion where
  | tags (expression : Text)
  | name (part : Text)
  | line (line : Nat)
  deriving DecidableEq, Repr

namespace Criterion

def expression? : Criterion → Option Text
  | tags expression => some expression
  | _ => none

def name? : Criterion → Option Text
  | name part => some part
  | _ => none

def line? : Criterion → Option Nat
  | line n => some n
  | _ => none

end Criterion

namespace Filter

/-- The filter with one more criterion. -/
def adding (filter : Filter) : Criterion → Filter
  | .tags expression => filter.withTags expression
  | .name part => filter.withName part
  | .line n => filter.withLine n

/-- The filter with some criteria, in the order in which they are asked for. -/
def ofCriteria (criteria : List Criterion) : Filter :=
  criteria.foldl adding empty

end Filter

/-- The header of an element, a tag or a step of its own, or the header, a tag or a row of its examples
stands on the line. -/
def Element.Owns (element : Element) (line : Nat) : Prop :=
  line = element.line ∨ (∃ tag ∈ element.tags, tag.line = line) ∨
    (∃ step ∈ element.steps, step.line = line) ∨
    ∃ e ∈ element.examples,
      line = e.line ∨ (∃ tag ∈ e.tags, tag.line = line) ∨ ∃ row ∈ e.rows, row.line = line

section

variable (criteria : List Criterion)

/-- Every expression that asks for something holds. -/
def Tagged (tags : List Tag) : Prop :=
  ∀ expression ∈ criteria.filterMap Criterion.expression?,
    ¬ TagExpression.IsBlank expression → TagExpression.Holds expression tags

/-- What the tag expressions ask of an element in a feature with the given tags: of an outline, that they
hold for one of its examples sections, if they ask for anything. -/
def TaggedElement (inherited : List Tag) : Element → Prop
  | .scenario s => Tagged criteria (inherited ++ s.tags)
  | .outline o =>
    (∀ expression ∈ criteria.filterMap Criterion.expression?, TagExpression.IsBlank expression) ∨
      ∃ e ∈ o.examples, Tagged criteria (inherited ++ o.tags ++ e.tags)

/-- An element that satisfies each kind of criterion there is. -/
structure Wanted (inherited : List Tag) (element : Element) : Prop where
  name : criteria.filterMap Criterion.name? = [] ∨
    ∃ part ∈ criteria.filterMap Criterion.name?, part <:+: element.name
  line : criteria.filterMap Criterion.line? = [] ∨
    ∃ line ∈ criteria.filterMap Criterion.line?, element.Owns line
  tags : TaggedElement criteria inherited element

end

theorem Element.owns_iff {element : Element} {line : Nat} :
    element.Owns line ↔ line ∈ element.lines := by
  simp only [Owns, lines, Examples.lines, List.mem_cons, List.mem_append, List.mem_map,
    List.mem_flatMap, or_assoc]

namespace Filter

variable (criteria : List Criterion)

/-- The parts of a filter are the criteria of each kind, without the expressions that ask for nothing. -/
theorem ofCriteria_eq :
    ofCriteria criteria =
      ⟨((criteria.filterMap Criterion.expression?).map readExpression).filter (!·.isEmpty),
        criteria.filterMap Criterion.name?, criteria.filterMap Criterion.line?⟩ := by
  -- Criteria are added at the end, each to the filter of those before it.
  induction criteria using List.reverseRecOn with
  | nil => rfl
  | append_singleton criteria criterion ih =>
    rw [ofCriteria, List.foldl_append, List.foldl_cons, List.foldl_nil, ← ofCriteria, ih]
    cases criterion with
    | tags expression =>
      cases blank : (readExpression expression).isEmpty <;>
        simp [adding, withTags, blank, Criterion.expression?, Criterion.name?, Criterion.line?]
    | name part => simp [adding, withName, Criterion.expression?, Criterion.name?, Criterion.line?]
    | line n => simp [adding, withLine, Criterion.expression?, Criterion.name?, Criterion.line?]

theorem acceptsName_iff {name : Text} :
    (ofCriteria criteria).acceptsName name = true ↔
      criteria.filterMap Criterion.name? = [] ∨
        ∃ part ∈ criteria.filterMap Criterion.name?, part <:+: name := by
  simp only [ofCriteria_eq, acceptsName, Bool.or_eq_true, List.isEmpty_iff, List.any_eq_true,
    Text.occursIn_iff]

theorem acceptsLines_iff {element : Element} :
    (ofCriteria criteria).acceptsLines element.lines = true ↔
      criteria.filterMap Criterion.line? = [] ∨
        ∃ line ∈ criteria.filterMap Criterion.line?, element.Owns line := by
  simp only [ofCriteria_eq, acceptsLines, Bool.or_eq_true, List.isEmpty_iff, List.any_eq_true,
    List.contains_iff_mem, Element.owns_iff]
  exact or_congr_right (exists_congr fun _ => and_comm)

theorem holdsFor_iff {tags : List Tag} :
    (ofCriteria criteria).holdsFor tags = true ↔ Tagged criteria tags := by
  simp only [ofCriteria_eq, holdsFor, List.all_eq_true, List.mem_filter, List.mem_map, and_imp,
    forall_exists_index, forall_apply_eq_imp_iff₂, TagExpression.holds_iff, Tagged,
    TagExpression.isBlank_iff, Bool.not_eq_true', List.isEmpty_eq_false_iff, ne_eq]

theorem expressions_isEmpty_iff :
    (ofCriteria criteria).expressions.isEmpty = true ↔
      ∀ expression ∈ criteria.filterMap Criterion.expression?, TagExpression.IsBlank expression := by
  simp only [ofCriteria_eq, List.isEmpty_iff, List.filter_eq_nil_iff, List.forall_mem_map,
    Bool.not_eq_true', Bool.not_eq_false, TagExpression.isBlank_iff]

/-- The tag expressions take the sections away that they do not hold for, and the element with the last. -/
theorem acceptsTags_prune_iff {inherited : List Tag} {element : Element} :
    (ofCriteria criteria).acceptsTags inherited
        (element.prune ((ofCriteria criteria).holdsForSection inherited element.tags)) = true ↔
      TaggedElement criteria inherited element := by
  cases element with
  | scenario s => exact holdsFor_iff criteria
  | outline o =>
    simp only [acceptsTags, Element.prune, Element.tags, TaggedElement, Bool.or_eq_true,
      Bool.and_eq_true, expressions_isEmpty_iff]
    refine or_congr_right ?_
    -- All the sections that are left pass, so it matters only that there is one.
    have left : (o.examples.filter ((ofCriteria criteria).holdsForSection inherited o.tags)).all
        ((ofCriteria criteria).holdsForSection inherited o.tags) = true := by
      simp
    rw [and_iff_left left]
    simp only [Bool.not_eq_true', List.isEmpty_eq_false_iff, ne_eq, List.filter_eq_nil_iff,
      not_forall, not_not, holdsForSection, holdsFor_iff, exists_prop]

theorem keep?_ofCriteria {inherited : List Tag} {element kept : Element} :
    (ofCriteria criteria).keep? inherited element = some kept ↔
      Wanted criteria inherited element ∧
        kept = element.prune ((ofCriteria criteria).holdsForSection inherited element.tags) := by
  rw [keep?_eq_some_iff, acceptsName_iff, acceptsLines_iff]
  constructor
  · rintro ⟨name, line, rfl, tags⟩
    exact ⟨⟨name, line, (acceptsTags_prune_iff criteria).mp tags⟩, rfl⟩
  · rintro ⟨⟨name, line, tags⟩, rfl⟩
    exact ⟨name, line, rfl, (acceptsTags_prune_iff criteria).mpr tags⟩

end Filter

instance (criteria : List Criterion) (tags : List Tag) : Decidable (Tagged criteria tags) :=
  decidable_of_iff ((Filter.ofCriteria criteria).holdsFor tags = true)
    (Filter.holdsFor_iff criteria)

instance (criteria : List Criterion) (inherited : List Tag) (element : Element) :
    Decidable (Wanted criteria inherited element) :=
  decidable_of_iff (((Filter.ofCriteria criteria).keep? inherited element).isSome = true) (by
    rw [Option.isSome_iff_exists]
    simp only [Filter.keep?_ofCriteria, exists_and_left, exists_eq, and_true])

/-- Filtering leaves of a feature, in their order, the elements that satisfy the criteria. A scenario stays
as it is, and an outline as it is but for the examples sections whose tags, with those of the feature and
its own, the expressions do not hold for. Nothing else changes. -/
theorem Filter.apply_ofCriteria (criteria : List Criterion) (f : Feature) :
    (Filter.ofCriteria criteria).apply f =
      { f with
        elements := (f.elements.filter (Wanted criteria f.tags ·)).map fun element =>
          element.prune (Tagged criteria <| f.tags ++ element.tags ++ ·.tags) } := by
  have sections (element : Element) :
      (ofCriteria criteria).holdsForSection f.tags element.tags =
        fun e => decide (Tagged criteria (f.tags ++ element.tags ++ e.tags)) := by
    funext e
    rw [Bool.eq_iff_iff, decide_eq_true_iff]
    exact holdsFor_iff criteria
  have elementwise (element : Element) : (ofCriteria criteria).keep? f.tags element =
      if Wanted criteria f.tags element then
        some (element.prune fun e => Tagged criteria (f.tags ++ element.tags ++ e.tags))
      else none := by
    refine Option.ext fun kept => ?_
    rw [keep?_ofCriteria, sections, Option.ite_none_right_eq_some, Option.some.injEq, eq_comm]
  simp only [apply, elementwise]
  -- Dropping and pruning one by one is dropping first, and pruning what is left.
  rw [← List.filterMap_eq_map, ← List.filterMap_eq_filter, List.filterMap_filterMap]
  congr 2
  funext element
  by_cases wanted : Wanted criteria f.tags element <;> simp [Option.guard, wanted]

/-- A tag without its `@`, a tag that must be absent, a blank term and a lone `~` in one expression: of a
scenario with both tags, one with the second only, and an outline, what has the first tag or lacks the second
stays. -/
theorem Filter.apply_ofCriteria_terms :
    let tag (name : String) : Tag := ⟨name.toList, 1⟩
    let scenario (name : Text) (tags : List Tag) : Element := .scenario ⟨[], tags, [], name, [], 2, []⟩
    let part (tags : List Tag) : Examples := ⟨[], tags, [], [], [], 3, []⟩
    let outline (sections : List Examples) : Element := .outline ⟨[], [], [], ['o'], [], 2, [], sections⟩
    let feature (elements : List Element) : Feature :=
      ⟨none, [], [tag "@slow"], [], ['f'], [], 1, none, elements⟩
    (ofCriteria [.tags " wip , ~@fast,, ~ ".toList]).apply
        (feature [scenario ['a'] [tag "@wip", tag "@fast"], scenario ['b'] [tag "@fast"],
          outline [part [tag "@fast"], part [], part [tag "@fast", tag "@wip"]]]) =
      feature [scenario ['a'] [tag "@wip", tag "@fast"],
        outline [part [], part [tag "@fast", tag "@wip"]]] := by
  intro tag scenario part outline feature
  rw [apply_ofCriteria]
  decide +kernel

end FeatureFile
