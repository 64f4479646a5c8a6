import FeatureFile.Proofs.Document.Criteria
/-!
Filters one after the other. An element has to pass both, and loses the examples sections that either of
them takes; so they do what one filter with the criteria of both does. Two things can keep them from it:
names, or lines, of which one filter asks for any of its own and two for one of each; and lines that are
asked for when the tag expressions have taken the section they are in.
-/

namespace FeatureFile

namespace Filter

/-- The criteria of one filter and those of another. -/
def append (first second : Filter) : Filter :=
  ⟨first.expressions ++ second.expressions, first.names ++ second.names, first.lines ++ second.lines⟩

instance : Append Filter := ⟨append⟩

theorem ofCriteria_append (a b : List Criterion) :
    ofCriteria (a ++ b) = ofCriteria a ++ ofCriteria b := by
  simp only [ofCriteria_eq, List.filterMap_append, List.map_append, List.filter_append]
  rfl

section

variable (filter first second : Filter)

@[simp]
theorem expressions_append : (first ++ second).expressions = first.expressions ++ second.expressions :=
  rfl

@[simp]
theorem names_append : (first ++ second).names = first.names ++ second.names :=
  rfl

@[simp]
theorem lines_append : (first ++ second).lines = first.lines ++ second.lines :=
  rfl

/-! ### Each kind of criterion -/

theorem holdsFor_append (tags : List Tag) :
    (first ++ second).holdsFor tags = (first.holdsFor tags && second.holdsFor tags) := by
  simp [holdsFor]

theorem acceptsName_append (apart : first.names = [] ∨ second.names = []) (name : Text) :
    (first ++ second).acceptsName name = (first.acceptsName name && second.acceptsName name) := by
  rcases apart with none | none <;> simp [acceptsName, none]

theorem acceptsLines_append (apart : first.lines = [] ∨ second.lines = []) (lines : List Nat) :
    (first ++ second).acceptsLines lines = (first.acceptsLines lines && second.acceptsLines lines) := by
  rcases apart with none | none <;> simp [acceptsLines, none]

/-- Only for which tags the expressions hold matters, and whether there are any. -/
theorem keepTagged?_congr (unset : first.expressions = [] ↔ second.expressions = [])
    (holds : ∀ tags, first.holdsFor tags = second.holdsFor tags) :
    first.keepTagged? = second.keepTagged? := by
  funext inherited element
  cases element <;> simp only [keepTagged?, holds, List.isEmpty_iff, unset]

theorem keepTagged?_of_unset (unset : filter.expressions = []) (inherited : List Tag)
    (element : Element) : filter.keepTagged? inherited element = some element := by
  cases element <;> simp [keepTagged?, holdsFor, unset]

/-- The expressions of two filters leave of an element what those of the second leave of what those of
the first leave. -/
theorem keepTagged?_append (inherited : List Tag) (element : Element) :
    (first ++ second).keepTagged? inherited element =
      (first.keepTagged? inherited element).bind (second.keepTagged? inherited) := by
  -- Where one of them sets no expression, the other decides alone.
  by_cases none : first.expressions = []
  · rw [first.keepTagged?_of_unset none, Option.bind_some, keepTagged?_congr (first ++ second) second]
    · simp [none]
    · simp [holdsFor, none]
  by_cases none' : second.expressions = []
  · have stays : second.keepTagged? inherited = some :=
      funext (second.keepTagged?_of_unset none' inherited)
    rw [stays, Option.bind_fun_some, keepTagged?_congr (first ++ second) first]
    · simp [none']
    · simp [holdsFor, none']
  cases element with
  | scenario s =>
    simp only [keepTagged?, holdsFor_append]
    cases first.holdsFor (inherited ++ s.tags) <;> simp [keepTagged?]
  | outline o =>
    have set : (first ++ second).expressions ≠ [] := by simp [none]
    have both : (o.examples.filter fun e => (first ++ second).holdsFor (inherited ++ o.tags ++ e.tags)) =
        (o.examples.filter fun e => first.holdsFor (inherited ++ o.tags ++ e.tags)).filter
          fun e => second.holdsFor (inherited ++ o.tags ++ e.tags) := by
      simp only [List.filter_filter, holdsFor_append, Bool.and_comm]
    simp only [keepTagged?, both, List.isEmpty_iff, set, none, if_false]
    -- An outline that the first leaves no section goes; it does not come to the second as one without any.
    cases left : (o.examples.filter fun e => first.holdsFor (inherited ++ o.tags ++ e.tags)) with
    | nil => rfl
    | cons e es => simp [keepTagged?, none']

/-- What the expressions leave of an element has its name; it has its lines, too, where no expression is
set. -/
theorem judged_of_keepTagged? {inherited : List Tag} {element kept : Element}
    (left : first.keepTagged? inherited element = some kept)
    (whole : first.expressions = [] ∨ second.lines = []) :
    second.acceptsName kept.name = second.acceptsName element.name ∧
      second.acceptsLines kept.lines = second.acceptsLines element.lines := by
  rcases whole with unset | unset
  · rw [first.keepTagged?_of_unset unset, Option.some.injEq] at left
    rw [left]
    exact ⟨rfl, rfl⟩
  · obtain ⟨rfl, -⟩ := (first.keepTagged?_eq_some_iff ..).mp left
    simp [acceptsLines, unset]

/-- Two filters one after the other leave of an element what both together leave, if the names are asked
for by one of them, the lines by one, and the lines not behind an expression that may prune the element. -/
theorem keep?_append (names : first.names = [] ∨ second.names = [])
    (lines : first.lines = [] ∨ second.lines = [])
    (whole : first.expressions = [] ∨ second.lines = []) (inherited : List Tag) (element : Element) :
    (first ++ second).keep? inherited element =
      (first.keep? inherited element).bind (second.keep? inherited) := by
  simp only [keep?, acceptsName_append _ _ names, acceptsLines_append _ _ lines, keepTagged?_append]
  cases first.acceptsName element.name with
  | false => simp
  | true =>
    cases first.acceptsLines element.lines with
    | false => simp
    | true =>
      cases left : first.keepTagged? inherited element with
      | none => simp
      | some kept =>
        -- The second judges the name and the lines of what is left, not those of the element.
        obtain ⟨named, listed⟩ := first.judged_of_keepTagged? second left whole
        simp [keep?, named, listed]

/-- The same for the elements of a feature. -/
theorem apply_append (names : first.names = [] ∨ second.names = [])
    (lines : first.lines = [] ∨ second.lines = [])
    (whole : first.expressions = [] ∨ second.lines = []) (f : Feature) :
    (first ++ second).apply f = second.apply (first.apply f) := by
  have each (element : Element) : (first ++ second).keep? f.tags element =
      (first.keep? f.tags element).bind (second.keep? f.tags) :=
    first.keep?_append second names lines whole f.tags element
  simp only [apply, List.filterMap_filterMap, each]

/-- Filters that set tag expressions only may change places. -/
theorem apply_comm (unnamed : first.names = [] ∧ second.names = [])
    (unlisted : first.lines = [] ∧ second.lines = []) (f : Feature) :
    first.apply (second.apply f) = second.apply (first.apply f) := by
  have swapped : (second ++ first).keepTagged? = (first ++ second).keepTagged? := by
    refine keepTagged?_congr _ _ ?_ fun tags => ?_
    · simp [and_comm]
    · rw [holdsFor_append, holdsFor_append, Bool.and_comm]
  have each : (second ++ first).keep? f.tags = (first ++ second).keep? f.tags := by
    funext element
    simp [keep?, acceptsName, acceptsLines, unnamed, unlisted, swapped]
  rw [← second.apply_append first (.inl unnamed.2) (.inl unlisted.2) (.inr unlisted.1),
    ← first.apply_append second (.inl unnamed.1) (.inl unlisted.1) (.inr unlisted.2), apply, each, apply]

end

/-- A filter for names, lines and tags leaves of a feature what the filter for the names, the one for the
lines and those for the tags leave one after the other, into however many the tag expressions are divided;
and filters for tags may change places. -/
theorem apply_inTurn (names : List Text) (lines : List Nat) (first second : List Text) (f : Feature) :
    let named := ofCriteria (names.map .name)
    let listed := ofCriteria (lines.map .line)
    let tagged (expressions : List Text) := ofCriteria (expressions.map .tags)
    (ofCriteria (names.map .name ++ lines.map .line ++ (first ++ second).map .tags)).apply f =
        (tagged second).apply ((tagged first).apply (listed.apply (named.apply f))) ∧
      (tagged first).apply ((tagged second).apply f) = (tagged second).apply ((tagged first).apply f) := by
  intro named listed tagged
  have unnamed (expressions : List Text) : (tagged expressions).names = [] := by
    simp [tagged, ofCriteria_eq, Criterion.name?]
  have unlisted (expressions : List Text) : (tagged expressions).lines = [] := by
    simp [tagged, ofCriteria_eq, Criterion.line?]
  have listedOnly : listed.names = [] := by
    simp [listed, ofCriteria_eq, Criterion.name?]
  have namedOnly : named.lines = [] ∧ named.expressions = [] := by
    simp [named, ofCriteria_eq, Criterion.line?, Criterion.expression?]
  constructor
  · -- Taken off from the back: behind a filter for tags there is never one that asks for lines.
    rw [List.map_append, ← List.append_assoc, ofCriteria_append, ofCriteria_append, ofCriteria_append]
    rw [apply_append _ _ (.inr (unnamed _)) (.inr (unlisted _)) (.inr (unlisted _)),
      apply_append _ _ (.inr (unnamed _)) (.inr (unlisted _)) (.inr (unlisted _)),
      apply_append _ _ (.inr listedOnly) (.inl namedOnly.1) (.inl namedOnly.2)]
  · exact apply_comm _ _ ⟨unnamed _, unnamed _⟩ ⟨unlisted _, unlisted _⟩ f

end Filter
end FeatureFile
