import FeatureFile.Document.Filter
/-!
What a filter leaves of a feature. Names and lines are judged on an element as it was read. The tag
expressions also take examples sections away, which may be those a listed line was in, so that an
outline that stays need not own a listed line any more.
-/

namespace FeatureFile

namespace Element

/-- The element with those of its examples sections that pass. -/
def prune (passes : Examples → Bool) : Element → Element
  | scenario s => scenario s
  | outline o => outline { o with examples := o.examples.filter passes }

variable (passes : Examples → Bool) (element : Element)

@[simp]
theorem name_prune : (element.prune passes).name = element.name := by
  cases element <;> rfl

@[simp]
theorem line_prune : (element.prune passes).line = element.line := by
  cases element <;> rfl

@[simp]
theorem tags_prune : (element.prune passes).tags = element.tags := by
  cases element <;> rfl

@[simp]
theorem steps_prune : (element.prune passes).steps = element.steps := by
  cases element <;> rfl

@[simp]
theorem examples_prune : (element.prune passes).examples = element.examples.filter passes := by
  cases element <;> rfl

@[simp]
theorem prune_prune : (element.prune passes).prune passes = element.prune passes := by
  cases element <;> simp [prune]

theorem prune_of_forall (all : ∀ e ∈ element.examples, passes e = true) :
    element.prune passes = element := by
  cases element with
  | scenario s => rfl
  | outline o =>
    have same : o.examples.filter passes = o.examples := List.filter_eq_self.mpr all
    simp [prune, same]

/-- A line that pruning takes from an element is one of a section that went. -/
theorem mem_lines_of_not_mem_prune {line : Nat} (owned : line ∈ element.lines)
    (lost : line ∉ (element.prune passes).lines) :
    ∃ e ∈ element.examples, passes e = false ∧ line ∈ e.lines := by
  simp only [lines, line_prune, tags_prune, steps_prune, examples_prune, List.mem_cons,
    List.mem_append, List.mem_flatMap, List.mem_filter, not_or] at owned lost
  obtain ⟨notHeader, ⟨notTag, notStep⟩, notLeft⟩ := lost
  obtain ⟨e, member, inside⟩ : ∃ e ∈ element.examples, line ∈ e.lines := by
    simpa [notHeader, notTag, notStep] using owned
  have fails : ¬passes e = true := by
    intro passing
    exact notLeft ⟨e, ⟨member, passing⟩, inside⟩
  exact ⟨e, member, Bool.eq_false_iff.mpr fails, inside⟩

end Element

namespace Filter

/-- Whether the tag expressions hold for an examples section, given the tags of the feature and of
the outline. -/
def holdsForSection (filter : Filter) (inherited own : List Tag) (e : Examples) : Bool :=
  filter.holdsFor (inherited ++ own ++ e.tags)

/-- Whether an element as it stands satisfies the tag expressions: a scenario with its tags, an
outline in each of its examples sections, of which it then needs one. -/
def acceptsTags (filter : Filter) (inherited : List Tag) : Element → Bool
  | .scenario s => filter.holdsFor (inherited ++ s.tags)
  | .outline o =>
    filter.expressions.isEmpty ||
      (!o.examples.isEmpty && o.examples.all (filter.holdsForSection inherited o.tags))

section

variable (filter : Filter) (inherited : List Tag) (element : Element)

theorem holdsFor_of_isEmpty (unset : filter.expressions.isEmpty = true) (tags : List Tag) :
    filter.holdsFor tags = true := by
  have none : filter.expressions = [] := List.isEmpty_iff.mp unset
  simp [holdsFor, none]

theorem prune_of_acceptsTags (accepted : filter.acceptsTags inherited element = true) :
    element.prune (filter.holdsForSection inherited element.tags) = element := by
  apply Element.prune_of_forall
  intro e member
  cases element with
  | scenario s => cases member
  | outline o =>
    cases unset : filter.expressions.isEmpty with
    | true => exact filter.holdsFor_of_isEmpty unset _
    | false =>
      simp only [acceptsTags, unset, Bool.false_or, Bool.and_eq_true, List.all_eq_true] at accepted
      exact accepted.2 e member

theorem keepTagged?_eq_some_iff {kept : Element} :
    filter.keepTagged? inherited element = some kept ↔
      kept = element.prune (filter.holdsForSection inherited element.tags) ∧
        filter.acceptsTags inherited kept = true := by
  cases element with
  | scenario s =>
    simp only [keepTagged?, Element.prune, Option.ite_none_right_eq_some, Option.some.injEq]
    constructor
    · rintro ⟨holds, rfl⟩
      exact ⟨rfl, holds⟩
    · rintro ⟨rfl, holds⟩
      exact ⟨holds, rfl⟩
  | outline o =>
    have sections : o.examples.filter (fun e => filter.holdsFor (inherited ++ o.tags ++ e.tags)) =
        o.examples.filter (filter.holdsForSection inherited o.tags) := rfl
    cases unset : filter.expressions.isEmpty with
    | true =>
      have whole : (Element.outline o).prune (filter.holdsForSection inherited o.tags) =
          .outline o :=
        Element.prune_of_forall _ _ fun e _ => filter.holdsFor_of_isEmpty unset _
      simp only [keepTagged?, unset, Element.tags, whole, if_true, Option.some.injEq]
      constructor
      · rintro rfl
        exact ⟨rfl, by simp [acceptsTags, unset]⟩
      · rintro ⟨rfl, _⟩
        rfl
    | false =>
      simp only [keepTagged?, unset, sections, Element.prune, Element.tags, Bool.false_eq_true,
        if_false, Option.ite_none_left_eq_some, Option.some.injEq, Bool.not_eq_true]
      constructor
      · rintro ⟨some, rfl⟩
        exact ⟨rfl, by simp [acceptsTags, unset, some]⟩
      · rintro ⟨rfl, accepted⟩
        simp only [acceptsTags, unset, Bool.false_or, Bool.and_eq_true, Bool.not_eq_true'] at accepted
        exact ⟨accepted.1, rfl⟩

/-- What a filter leaves of an element is the element without the sections the expressions do not
hold for, if it then satisfies them and the element as it came satisfies the names and lines. -/
theorem keep?_eq_some_iff {kept : Element} :
    filter.keep? inherited element = some kept ↔
      filter.acceptsName element.name = true ∧ filter.acceptsLines element.lines = true ∧
        kept = element.prune (filter.holdsForSection inherited element.tags) ∧
          filter.acceptsTags inherited kept = true := by
  simp only [keep?, Option.ite_none_right_eq_some, Bool.and_eq_true, keepTagged?_eq_some_iff,
    and_assoc]

/-- A second time only the lines are left to fail. -/
theorem keep?_of_keep?_eq_some {kept : Element} (left : filter.keep? inherited element = some kept) :
    filter.keep? inherited kept = if filter.acceptsLines kept.lines then some kept else none := by
  obtain ⟨named, _, rfl, tagged⟩ := (keep?_eq_some_iff ..).mp left
  -- It satisfies the expressions as it stands, so there is no section left for them to take.
  have again := filter.prune_of_acceptsTags inherited _ tagged
  split
  next listed =>
    rw [keep?_eq_some_iff]
    exact ⟨by simpa using named, listed, again.symm, tagged⟩
  next unlisted => simp [keep?, unlisted]

/-- Without tag expressions, or without lines, what is left still owns what it has to own. -/
theorem acceptsLines_of_keep? {kept : Element} (left : filter.keep? inherited element = some kept)
    (single : filter.lines = [] ∨ filter.expressions = []) :
    filter.acceptsLines kept.lines = true := by
  obtain ⟨_, listed, rfl, _⟩ := (keep?_eq_some_iff ..).mp left
  rcases single with unlisted | untagged
  · simp [acceptsLines, unlisted]
  · have whole : element.prune (filter.holdsForSection inherited element.tags) = element :=
      Element.prune_of_forall _ _ fun e _ => filter.holdsFor_of_isEmpty (by simp [untagged]) _
    rwa [whole]

/-- An element that owned a listed line and does not any more had it in a section that went. -/
theorem exists_section_of_keep? {kept : Element} (left : filter.keep? inherited element = some kept)
    (unlisted : filter.acceptsLines kept.lines = false) :
    ∃ e ∈ element.examples, filter.holdsForSection inherited element.tags e = false ∧
      ∃ line ∈ e.lines, line ∈ filter.lines := by
  obtain ⟨_, listed, rfl, _⟩ := (keep?_eq_some_iff ..).mp left
  simp only [acceptsLines, Bool.or_eq_false_iff] at unlisted
  obtain ⟨set, without⟩ := unlisted
  obtain ⟨line, owned, asked⟩ : ∃ line ∈ element.lines, line ∈ filter.lines := by
    simpa [acceptsLines, set] using listed
  -- The line was owned before pruning and is not any more.
  have lost : line ∉ (element.prune (filter.holdsForSection inherited element.tags)).lines := by
    intro member
    simp only [List.any_eq_false, List.contains_iff_mem] at without
    exact without line member asked
  obtain ⟨e, member, fails, inside⟩ := Element.mem_lines_of_not_mem_prune _ _ owned lost
  exact ⟨e, member, fails, line, inside, asked⟩

end

section

variable (filter : Filter) (f : Feature)

theorem mem_elements_apply {kept : Element} :
    kept ∈ (filter.apply f).elements ↔
      ∃ element ∈ f.elements, filter.keep? f.tags element = some kept := by
  simp [apply]

theorem apply_apply :
    filter.apply (filter.apply f) =
      { filter.apply f with
        elements := (filter.apply f).elements.filter fun kept => filter.acceptsLines kept.lines } := by
  have twice (element : Element) :
      (filter.keep? f.tags element).bind (filter.keep? f.tags) =
        (filter.keep? f.tags element).filter fun kept => filter.acceptsLines kept.lines := by
    cases left : filter.keep? f.tags element with
    | none => rfl
    | some kept => simp [filter.keep?_of_keep?_eq_some _ _ left, Option.filter]
  simp [apply, List.filterMap_filterMap, List.filter_filterMap, twice]

/-- What a filter leaves satisfies the names and the tag expressions as it stands, and the lines as
it was read; as it stands it may own no listed line, but only as an outline with such a line in a
section the expressions took. A second application takes these outlines and nothing else, a third
nothing, and already the second takes nothing where lines or tag expressions are not set. -/
theorem elements_apply_satisfy :
    (∀ kept ∈ (filter.apply f).elements,
      filter.acceptsName kept.name = true ∧ filter.acceptsTags f.tags kept = true ∧
      ∃ element ∈ f.elements, filter.acceptsLines element.lines = true ∧
        kept = element.prune (filter.holdsForSection f.tags element.tags) ∧
        (filter.acceptsLines kept.lines = false →
          ∃ e ∈ element.examples, filter.holdsForSection f.tags element.tags e = false ∧
            ∃ line ∈ e.lines, line ∈ filter.lines)) ∧
    filter.apply (filter.apply f) =
      { filter.apply f with
        elements := (filter.apply f).elements.filter fun kept => filter.acceptsLines kept.lines } ∧
    filter.apply (filter.apply (filter.apply f)) = filter.apply (filter.apply f) ∧
    (filter.lines = [] ∨ filter.expressions = [] →
      filter.apply (filter.apply f) = filter.apply f) := by
  refine ⟨?_, filter.apply_apply f, ?_, ?_⟩
  · intro kept member
    obtain ⟨element, origin, left⟩ := (filter.mem_elements_apply f).mp member
    obtain ⟨named, listed, pruned, tagged⟩ := (keep?_eq_some_iff ..).mp left
    have name : kept.name = element.name := by simp [pruned]
    exact ⟨name ▸ named, tagged, element, origin, listed, pruned,
      filter.exists_section_of_keep? f.tags element left⟩
  · rw [filter.apply_apply (filter.apply f), filter.apply_apply f]
    simp
  · intro single
    have all : ∀ kept ∈ (filter.apply f).elements, filter.acceptsLines kept.lines = true := by
      intro kept member
      obtain ⟨element, _, left⟩ := (filter.mem_elements_apply f).mp member
      exact filter.acceptsLines_of_keep? f.tags element left single
    rw [filter.apply_apply f, List.filter_eq_self.mpr all]

end

/-- An outline with a section for each of two tags. -/
def twoSections : Feature :=
  let examples (tag : Char) (line : Nat) : Examples :=
    ⟨[], [⟨['@', tag], line⟩], ['E'], [], [], line + 1, [⟨[['x']], line + 2⟩]⟩
  let outline : Outline := ⟨[], [], ['O'], ['o'], [], 2, [], [examples 'a' 3, examples 'b' 6]⟩
  ⟨none, [], [], ['F'], ['f'], [], 1, none, [.outline outline]⟩

/-- The listed line is in the first section; the expression keeps the second. What is left owns no
listed line, and a second application takes it away. -/
theorem elements_apply_not_satisfy :
    let filter := (Filter.empty.withTags ['@', 'b']).withLine 5
    (∃ kept ∈ (filter.apply twoSections).elements, filter.acceptsLines kept.lines = false) ∧
      filter.apply (filter.apply twoSections) ≠ filter.apply twoSections := by
  decide

/-- The outline that stays for the line in the section that goes; by the line alone it stays whole. -/
theorem elements_apply_satisfy_twoSections :
    let filter := (Filter.empty.withTags ['@', 'b']).withLine 5
    let byLine := Filter.empty.withLine 5
    (∃ kept ∈ (filter.apply twoSections).elements,
      filter.acceptsTags twoSections.tags kept = true ∧ ∃ element ∈ twoSections.elements,
        ∃ e ∈ element.examples, ∃ line ∈ e.lines, line ∈ filter.lines) ∧
      byLine.apply (byLine.apply twoSections) = byLine.apply twoSections := by
  intro filter byLine
  obtain ⟨each, _⟩ := elements_apply_satisfy filter twoSections
  obtain ⟨_, _, _, single⟩ := elements_apply_satisfy byLine twoSections
  obtain ⟨kept, member, unlisted⟩ :
      ∃ kept ∈ (filter.apply twoSections).elements, filter.acceptsLines kept.lines = false := by
    decide
  obtain ⟨_, tagged, element, origin, _, _, lost⟩ := each kept member
  obtain ⟨e, inside, _, line, owned, asked⟩ := lost unlisted
  exact ⟨⟨kept, member, tagged, element, origin, e, inside, line, owned, asked⟩,
    single (.inr rfl)⟩

end Filter

end FeatureFile
