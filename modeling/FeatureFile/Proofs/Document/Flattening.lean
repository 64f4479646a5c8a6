import FeatureFile.Proofs.Document.Contents
import FeatureFile.Proofs.Document.Delivery
import FeatureFile.Proofs.Document.Reachable
/-!
Trees told as events. An assembly that is told a tree node by node, in document order, builds the tree
again, provided that the tree stands as an assembly leaves one: trimmed, and without empty tables and
outlines.
-/

namespace FeatureFile

/-! ### The events of a tree -/

def Comment.event (comment : Comment) : Event :=
  .comment comment.text comment.line

def Tag.event (tag : Tag) : Event :=
  .tag tag.name tag.line

/-- A header behind its comments and its tags. -/
def Heading.events (heading : Heading) : List Event :=
  heading.comments.map Comment.event ++ (heading.tags.map Tag.event ++ [heading.event])

def Background.events (b : Background) : List Event :=
  b.heading.events ++ b.steps.flatMap Step.contents

def Examples.events (e : Examples) : List Event :=
  e.heading.events ++ e.rows.map Row.event

def Element.events (element : Element) : List Event :=
  element.heading.events ++
    (element.steps.flatMap Step.contents ++ element.examples.flatMap Examples.events)

/-- Everything that stands in the tree, in document order. -/
def Feature.events (f : Feature) : List Event :=
  f.heading.events ++
    (f.background.toList.flatMap Background.events ++ f.elements.flatMap Element.events)

/-- The name and the comments are trimmed, and the description is without layout. -/
structure Heading.IsCanonical (heading : Heading) : Prop where
  header : heading.header.normal = heading.header
  comments : ∀ comment ∈ heading.comments, comment.text.trim = comment.text

theorem Heading.IsCanonical.normal {heading : Heading} (canonical : heading.IsCanonical) :
    heading.header.name.trim = heading.header.name ∧
      normalizeDescription heading.header.description = heading.header.description :=
  ⟨congrArg Header.name canonical.header, congrArg Header.description canonical.header⟩

/-- The name is trimmed, and a table has a row. -/
structure Step.IsCanonical (step : Step) : Prop where
  name : step.name.trim = step.name
  filled : step.IsFilled

/-- A tree without the mark of its language, trimmed and filled throughout. -/
structure Feature.IsCanonical (f : Feature) : Prop where
  unmarked : f.language = none
  headings : ∀ heading ∈ f.headings, heading.IsCanonical
  steps : ∀ step ∈ f.steps, step.IsCanonical
  elements : ∀ element ∈ f.elements, element.IsFilled

instance (heading : Heading) : Decidable heading.IsCanonical :=
  decidable_of_iff
    (heading.header.normal = heading.header ∧
      ∀ comment ∈ heading.comments, comment.text.trim = comment.text)
    ⟨fun ⟨header, comments⟩ => ⟨header, comments⟩, fun ⟨header, comments⟩ => ⟨header, comments⟩⟩

instance (step : Step) : Decidable step.IsCanonical :=
  decidable_of_iff (step.name.trim = step.name ∧ step.argument ≠ some (.table []))
    ⟨fun ⟨name, filled⟩ => ⟨name, fun _ table none => filled (none ▸ table)⟩,
      fun ⟨name, filled⟩ => ⟨name, fun table => filled [] table rfl⟩⟩

instance : (element : Element) → Decidable element.IsFilled
  | .scenario _ => .isTrue trivial
  | .outline o => inferInstanceAs (Decidable (o.examples ≠ [] ∧ ∀ e ∈ o.examples, e.rows ≠ []))

instance (f : Feature) : Decidable f.IsCanonical :=
  decidable_of_iff
    (f.language = none ∧ (∀ heading ∈ f.headings, heading.IsCanonical) ∧
      (∀ step ∈ f.steps, step.IsCanonical) ∧ ∀ element ∈ f.elements, element.IsFilled)
    ⟨fun ⟨unmarked, headings, steps, elements⟩ => ⟨unmarked, headings, steps, elements⟩,
      fun ⟨unmarked, headings, steps, elements⟩ => ⟨unmarked, headings, steps, elements⟩⟩

/-- The section that a header opens in front of the element. -/
def Element.section : Element → Section
  | .scenario _ => .scenario
  | .outline _ => .outline

/-- The element with the given steps, where its examples are still to come. -/
def Element.beforeExamples (steps : List Step) : Element → Element
  | .scenario s => .scenario { s with steps := steps }
  | .outline o => .outline { o with steps := steps, examples := [] }

namespace Assembly

variable {a b : Assembly}

/-! ### Lists of nodes -/

section

variable {α : Type} {told : List α → Assembly} {xs : List α}

/-- Nodes are told one after another, where each of them lands behind those `before` it. -/
private theorem deliver_each {contents : α → List Event}
    (next : ∀ before, ∀ x ∈ xs, deliver listen (told before) (contents x) = (told (before ++ [x]), none))
    (before : List α) :
    deliver listen (told before) (xs.flatMap contents) = (told (before ++ xs), none) := by
  induction xs generalizing before with
  | nil => rw [List.flatMap_nil, List.append_nil, deliver]
  | cons x xs ih =>
    -- The others are told behind one more node, so the induction is for every `before`.
    have first := next before x List.mem_cons_self
    have others := ih (fun before y member => next before y (List.mem_cons_of_mem x member))
      (before ++ [x])
    rw [List.flatMap_cons, deliver_append _ first, others, List.append_assoc, List.singleton_append]

private theorem deliver_map {event : α → Event}
    (next : ∀ before, ∀ x ∈ xs, (told before).listen (event x) = .ok (told (before ++ [x])))
    (before : List α) :
    deliver listen (told before) (xs.map event) = (told (before ++ xs), none) := by
  rw [List.map_eq_flatMap]
  apply deliver_each
  intro before x member
  simp only [deliver, next before x member]

end

/-! ### Headers -/

private theorem deliver_comments {comments : List Comment}
    (trimmed : ∀ comment ∈ comments, comment.text.trim = comment.text) :
    deliver listen a (comments.map Comment.event) =
      ({ a with comments := a.comments ++ comments }, none) := by
  let told (before : List Comment) : Assembly := { a with comments := before }
  have next before comment (member : comment ∈ comments) :
      (told before).listen comment.event = .ok (told (before ++ [comment])) := by
    simp [told, listen, accept, Comment.event, trimmed comment member]
  exact deliver_map next a.comments

private theorem deliver_tags (tags : List Tag) :
    deliver listen a (tags.map Tag.event) = ({ a with tags := a.tags ++ tags }, none) := by
  let told (before : List Tag) : Assembly := { a with tags := before }
  have next before tag (_ : tag ∈ tags) :
      (told before).listen tag.event = .ok (told (before ++ [tag])) := by
    simp [told, listen, accept, Tag.event]
  exact deliver_map next a.tags

/-- A header takes the comments and the tags in front of it. -/
private theorem deliver_heading {heading : Heading} (canonical : heading.IsCanonical)
    (tags : a.tags = []) (comments : a.comments = [])
    (opened : accept { a with tags := heading.tags, comments := heading.comments } heading.event =
      .accepted b) :
    deliver listen a heading.events = (b, none) := by
  have before := deliver_comments (a := a) canonical.comments
  rw [comments, List.nil_append] at before
  have tagged := deliver_tags (a := { a with comments := heading.comments }) heading.tags
  rw [Heading.events, deliver_append _ before, deliver_append _ tagged]
  simp [deliver, listen, opened, tags]

/-! ### Steps -/

private theorem updateLast_updateLast {α : Type} (f g : α → α) (xs : List α) :
    updateLast g (updateLast f xs) = updateLast (fun x => g (f x)) xs := by
  rcases List.eq_nil_or_concat' xs with rfl | ⟨front, last, rfl⟩
  · rfl
  · rw [updateLast_concat, updateLast_concat, updateLast_concat]

private theorem mapSteps_mapSteps (f g : List Step → List Step) (a : Assembly) :
    (a.mapSteps f).mapSteps g = a.mapSteps fun steps => g (f steps) := by
  have elements : ∀ element,
      mapElementSteps g (mapElementSteps f element) =
        mapElementSteps (fun steps => g (f steps)) element := by
    rintro (s | o) <;> rfl
  obtain ⟨feature, current, opened, tags, comments, filter⟩ := a
  cases feature with
  | none => rfl
  | some feature =>
    cases current <;>
      simp [mapSteps, updateLast_updateLast, elements, Option.map_map, Function.comp_def]

private theorem mapSteps_id (a : Assembly) : a.mapSteps id = a := by
  have elements (xs : List Element) : updateLast (mapElementSteps id) xs = xs := by
    rcases List.eq_nil_or_concat' xs with rfl | ⟨front, element, rfl⟩
    · rfl
    · rw [updateLast_concat]
      cases element <;> rfl
  obtain ⟨feature, current, opened, tags, comments, filter⟩ := a
  cases feature with
  | none => rfl
  | some feature => cases current <;> simp [mapSteps, elements]

private theorem currentSteps?_mapSteps (f : List Step → List Step) (a : Assembly) :
    (a.mapSteps f).currentSteps? = a.currentSteps?.map f := by
  obtain ⟨feature, current, opened, tags, comments, filter⟩ := a
  cases feature with
  | none => rfl
  | some feature =>
    cases current with
    | background => cases present : feature.background <;> simp [currentSteps?, mapSteps, present]
    | _ =>
      rcases List.eq_nil_or_concat' feature.elements with empty | ⟨front, element, last⟩
      · simp [currentSteps?, mapSteps, empty, updateLast]
      · cases element <;> simp [currentSteps?, mapSteps, last, updateLast_concat, mapElementSteps]

private theorem currentExamples?_of_currentSteps? {steps : List Step}
    (present : a.currentSteps? = some steps) : a.currentExamples? = none := by
  obtain ⟨feature, current, opened, tags, comments, filter⟩ := a
  cases feature with
  | none => rfl
  | some feature =>
    cases current with
    | examples => simp [currentSteps?] at present
    | _ => rfl

section

variable {known : List Step} (present : a.currentSteps? = some known)
include present

private theorem currentSteps?_of_mapSteps (f : List Step → List Step) :
    (a.mapSteps f).currentSteps? = some (f known) := by
  rw [currentSteps?_mapSteps, present, Option.map_some]

private theorem currentStep?_concat (step : Step) :
    (a.mapSteps (· ++ [step])).currentStep? = some step := by
  simp [currentStep?, currentSteps?_of_mapSteps present]

private theorem currentExamples?_mapSteps (f : List Step → List Step) :
    (a.mapSteps f).currentExamples? = none := by
  apply currentExamples?_of_currentSteps?
  exact currentSteps?_of_mapSteps present f

omit present in
private theorem setArgument_concat (step : Step) (argument : StepArgument) :
    (a.mapSteps (· ++ [step])).setArgument argument =
      a.mapSteps (· ++ [{ step with argument := some argument }]) := by
  simp only [setArgument, mapSteps_mapSteps, updateLast_concat]

private theorem deliver_rows (step : Step) (before rows : List Row) :
    deliver listen (a.mapSteps (· ++ [{ step with argument := some (.table before) }]))
        (rows.map Row.event) =
      (a.mapSteps (· ++ [{ step with argument := some (.table (before ++ rows)) }]), none) := by
  let told (before : List Row) : Assembly :=
    a.mapSteps (· ++ [{ step with argument := some (.table before) }])
  have next before row (_ : row ∈ rows) :
      (told before).listen row.event = .ok (told (before ++ [row])) := by
    simp only [told, listen, accept, acceptRow, Row.event, currentExamples?_mapSteps present,
      currentStep?_concat present, setArgument_concat, Option.isSome_none, Bool.false_eq_true,
      if_false]
  exact deliver_map next before

private theorem deliver_argument (step : Step) {argument : StepArgument}
    (bare : step.argument = none) (filled : ∀ rows, argument = .table rows → rows ≠ []) :
    deliver listen (a.mapSteps (· ++ [step])) argument.contents =
      (a.mapSteps (· ++ [{ step with argument := some argument }]), none) := by
  cases argument with
  | docString block =>
    -- The step has no argument yet; otherwise the doc string would be refused.
    have next : listen (a.mapSteps (· ++ [step])) (.docString block.content block.line) =
        .ok (a.mapSteps (· ++ [{ step with argument := some (.docString block) }])) := by
      obtain ⟨keyword, name, line, argument⟩ := step
      obtain rfl : argument = none := bare
      simp only [listen, accept, acceptDocString, currentStep?_concat present, setArgument_concat]
    simp only [StepArgument.contents, deliver, next]
  | table rows =>
    cases rows with
    | nil => exact absurd rfl (filled [] rfl)
    | cons row rows =>
      -- The first row opens the table, and the others go into it.
      have next : listen (a.mapSteps (· ++ [step])) row.event =
          .ok (a.mapSteps (· ++ [{ step with argument := some (.table [row]) }])) := by
        simp only [listen, accept, acceptRow, Row.event, currentExamples?_mapSteps present,
          currentStep?_concat present, bare, setArgument_concat, Option.isSome_none,
          Bool.false_eq_true, if_false]
      rw [StepArgument.contents, List.map_cons, deliver, next]
      exact deliver_rows present step [row] rows

private theorem deliver_step (untagged : a.tags = []) {step : Step} (canonical : step.IsCanonical) :
    deliver listen a step.contents = (a.mapSteps (· ++ [step]), none) := by
  have next : a.listen (.step step.keyword step.name step.line) =
      .ok (a.mapSteps (· ++ [{ step with argument := none }])) := by
    simp [listen, accept, acceptStep, untagged, present, canonical.name]
  rw [Step.contents, deliver, next]
  obtain ⟨keyword, name, line, argument⟩ := step
  cases argument with
  | none => rfl
  | some argument =>
    apply deliver_argument present _ rfl
    intro rows same
    exact canonical.filled rows (by rw [same])

/-- Steps go behind those at hand, each with its argument. -/
private theorem deliver_steps (untagged : a.tags = []) {steps : List Step}
    (canonical : ∀ step ∈ steps, step.IsCanonical) :
    deliver listen a (steps.flatMap Step.contents) = (a.mapSteps (· ++ steps), none) := by
  let told (before : List Step) : Assembly := a.mapSteps (· ++ before)
  have next before step (member : step ∈ steps) :
      deliver listen (told before) step.contents = (told (before ++ [step]), none) := by
    have behind := currentSteps?_of_mapSteps present (· ++ before)
    rw [deliver_step behind untagged (canonical step member), mapSteps_mapSteps]
    simp only [told, List.append_assoc]
  -- Nothing is told yet: the assembly stands as it was.
  have start : told [] = a := by
    have same : (· ++ []) = (id : List Step → List Step) := funext List.append_nil
    simp only [told, same, mapSteps_id]
  simpa only [start, List.nil_append] using deliver_each next []

end

/-- A header with steps behind it, in an assembly in which the header leaves none. -/
private theorem deliver_section {heading : Heading} (canonical : heading.IsCanonical)
    (tags : a.tags = []) (comments : a.comments = [])
    (opened : accept { a with tags := heading.tags, comments := heading.comments } heading.event =
      .accepted b)
    (present : b.currentSteps? = some []) (untagged : b.tags = []) {steps : List Step}
    (each : ∀ step ∈ steps, step.IsCanonical) :
    deliver listen a (heading.events ++ steps.flatMap Step.contents) =
      (b.mapSteps (· ++ steps), none) := by
  rw [deliver_append _ (deliver_heading canonical tags comments opened)]
  exact deliver_steps present untagged each

/-! ### Examples -/

/-- An outline is the last element, nothing waits, and examples may follow. -/
structure AtOutline (a : Assembly) (f : Feature) (front : List Element) (o : Outline) : Prop where
  feature : a.feature = some { f with elements := front ++ [.outline o] }
  tags : a.tags = []
  comments : a.comments = []
  unfiltered : a.filter = .empty
  current : a.current = .outline ∨ a.current = .examples
  closes : a.closing? .examples = none

/-- An assembly in the last examples section of an outline. -/
private def inExamples (f : Feature) (front : List Element) (o : Outline) (e : Examples) : Assembly where
  feature := some { f with elements := front ++ [.outline { o with examples := o.examples ++ [e] }] }
  current := .examples
  opened := e.line
  tags := []
  comments := []
  filter := .empty

variable {f : Feature} {front : List Element} {o : Outline}

private theorem deliver_examplesRows (e : Examples) (rows : List Row) :
    deliver listen (inExamples f front o e) (rows.map Row.event) =
      (inExamples f front o { e with rows := e.rows ++ rows }, none) := by
  let told (before : List Row) : Assembly := inExamples f front o { e with rows := before }
  have next before row (_ : row ∈ rows) :
      (told before).listen row.event = .ok (told (before ++ [row])) := by
    simp [told, listen, accept, acceptRow, Row.event, inExamples, currentExamples?, addExamplesRow,
      updateLast_concat]
  exact deliver_map next e.rows

private theorem AtOutline.deliver_examples (stands : a.AtOutline f front o) {e : Examples}
    (canonical : e.heading.IsCanonical) (filled : e.rows ≠ []) :
    deliver listen a e.events = (inExamples f front o e, none) ∧
      (inExamples f front o e).AtOutline f front { o with examples := o.examples ++ [e] } := by
  have opened : accept { a with tags := e.tags, comments := e.comments } e.heading.event =
      .accepted (inExamples f front o { e with rows := [] }) := by
    have closes : closing? { a with tags := e.tags, comments := e.comments } .examples = none :=
      stands.closes
    obtain ⟨name, description⟩ : e.name.trim = e.name ∧
        normalizeDescription e.description = e.description := canonical.normal
    rw [stands.feature, stands.unfiltered] at closes
    rcases stands.current with current | current <;> rw [current] at closes <;>
      simp [accept, acceptHeader, acceptExamples, Heading.event, Examples.heading, closes, current,
        stands.feature, stands.unfiltered, addExamples?, enter, inExamples, updateLast_concat, name, description]
  constructor
  · rw [Examples.events, deliver_append _ (deliver_heading canonical stands.tags stands.comments opened),
      deliver_examplesRows]
    rfl
  · refine ⟨rfl, rfl, rfl, rfl, .inr rfl, ?_⟩
    simp [closing?, inExamples, currentExamples?, filled]

private theorem AtOutline.deliver_sections (stands : a.AtOutline f front o) {sections : List Examples}
    (canonical : ∀ e ∈ sections, e.heading.IsCanonical) (filled : ∀ e ∈ sections, e.rows ≠ []) :
    ∃ b, deliver listen a (sections.flatMap Examples.events) = (b, none) ∧
      b.AtOutline f front { o with examples := o.examples ++ sections } ∧
      (a.current = .examples ∨ sections ≠ [] → b.current = .examples) := by
  induction sections generalizing a o with
  | nil => exact ⟨a, rfl, by simpa using stands, by simp⟩
  | cons e sections ih =>
    simp only [List.forall_mem_cons] at canonical filled
    obtain ⟨taken, stands'⟩ := stands.deliver_examples canonical.1 filled.1
    obtain ⟨b, others, reached, current⟩ := ih stands' canonical.2 filled.2
    refine ⟨b, ?_, by simpa using reached, fun _ => current (.inl rfl)⟩
    rw [List.flatMap_cons, deliver_append _ taken, others]

/-! ### Elements -/

/-- The tree so far, where nothing waits and the current section lacks nothing. -/
structure Ready (a : Assembly) (f : Feature) : Prop where
  feature : a.feature = some f
  tags : a.tags = []
  comments : a.comments = []
  unfiltered : a.filter = .empty
  closes : ∀ next ≠ .examples, a.closing? next = none

/-- An assembly in the last element, which has the given steps. -/
private def inElement (f : Feature) (element : Element) (steps : List Step) : Assembly where
  feature := some { f with elements := f.elements ++ [element.beforeExamples steps] }
  current := element.section
  opened := element.line
  tags := []
  comments := []
  filter := .empty

private theorem currentSteps?_inElement {element : Element} {steps : List Step} :
    (inElement f element steps).currentSteps? = some steps := by
  cases element <;> simp [currentSteps?, inElement, Element.section, Element.beforeExamples]

private theorem mapSteps_inElement {element : Element} {known steps : List Step} :
    (inElement f element known).mapSteps (· ++ steps) = inElement f element (known ++ steps) := by
  cases element <;>
    simp [mapSteps, inElement, updateLast_concat, mapElementSteps, Element.section, Element.beforeExamples]

private theorem Ready.accept_header (ready : a.Ready f) {element : Element}
    (canonical : element.heading.IsCanonical) :
    accept { a with tags := element.heading.tags, comments := element.heading.comments }
        element.heading.event = .accepted (inElement f element []) := by
  have closes : closing? { a with tags := element.heading.tags, comments := element.heading.comments }
      element.section = none := by
    apply ready.closes
    cases element <;> simp [Element.section]
  rw [ready.feature, ready.unfiltered] at closes
  obtain ⟨name, description⟩ := canonical.normal
  cases element with
  | scenario s =>
    simp_all [accept, acceptHeader, acceptScenario, acceptElement, Heading.event, Element.heading,
      ready.feature, ready.unfiltered, enter, inElement, Element.line, Element.section, Element.beforeExamples]
  | outline o =>
    simp_all [accept, acceptHeader, acceptOutline, acceptElement, Heading.event, Element.heading,
      ready.feature, ready.unfiltered, enter, inElement, Element.line, Element.section, Element.beforeExamples]

/-- An element is told as far as its last step. -/
private theorem Ready.deliver_steps (ready : a.Ready f) {element : Element}
    (canonical : element.heading.IsCanonical) (steps : ∀ step ∈ element.steps, step.IsCanonical) :
    deliver listen a (element.heading.events ++ element.steps.flatMap Step.contents) =
      (inElement f element element.steps, none) := by
  rw [deliver_section canonical ready.tags ready.comments (ready.accept_header canonical)
    currentSteps?_inElement rfl steps, mapSteps_inElement, List.nil_append]

private theorem Ready.deliver_outline (ready : a.Ready f) {o : Outline}
    (canonical : ∀ heading ∈ (Element.outline o).headings, heading.IsCanonical)
    (steps : ∀ step ∈ o.steps, step.IsCanonical) (filled : (Element.outline o).IsFilled) :
    ∃ b, deliver listen a (Element.outline o).events = (b, none) ∧
      b.Ready { f with elements := f.elements ++ [.outline o] } := by
  obtain ⟨own, sections⟩ := List.forall_mem_cons.mp canonical
  obtain ⟨sectioned, rows⟩ := filled
  have stands : AtOutline (inElement f (.outline o) o.steps) f f.elements { o with examples := [] } :=
    ⟨rfl, rfl, rfl, rfl, .inl rfl, rfl⟩
  have laidOut : ∀ e ∈ o.examples, e.heading.IsCanonical := by
    simpa [Element.examples] using sections
  obtain ⟨b, taken, reached, current⟩ := stands.deliver_sections laidOut rows
  refine ⟨b, ?_, reached.feature, reached.tags, reached.comments, reached.unfiltered, fun next _ => ?_⟩
  · rw [Element.events, ← List.append_assoc, deliver_append _ (ready.deliver_steps own steps)]
    exact taken
  · -- The check of the last section does not depend on what comes next.
    simpa [closing?, current (.inr sectioned)] using reached.closes

private theorem Ready.deliver_element (ready : a.Ready f) {element : Element}
    (canonical : ∀ heading ∈ element.headings, heading.IsCanonical)
    (steps : ∀ step ∈ element.steps, step.IsCanonical) (filled : element.IsFilled) :
    ∃ b, deliver listen a element.events = (b, none) ∧
      b.Ready { f with elements := f.elements ++ [element] } := by
  cases element with
  | scenario s =>
    have taken := ready.deliver_steps (canonical _ List.mem_cons_self) steps
    refine ⟨inElement f (.scenario s) s.steps, ?_, rfl, rfl, rfl, rfl, fun _ _ => rfl⟩
    rw [Element.events, Element.examples, List.flatMap_nil, List.append_nil]
    exact taken
  | outline o => exact ready.deliver_outline canonical steps filled

private theorem Ready.deliver_elements (ready : a.Ready f) {elements : List Element}
    (canonical : ∀ heading ∈ elements.flatMap Element.headings, heading.IsCanonical)
    (steps : ∀ step ∈ elements.flatMap Element.steps, step.IsCanonical)
    (filled : ∀ element ∈ elements, element.IsFilled) :
    ∃ b, deliver listen a (elements.flatMap Element.events) = (b, none) ∧
      b.Ready { f with elements := f.elements ++ elements } := by
  induction elements generalizing a f with
  | nil => exact ⟨a, rfl, by simpa using ready⟩
  | cons element elements ih =>
    simp only [List.flatMap_cons, List.forall_mem_append, List.forall_mem_cons]
      at canonical steps filled
    obtain ⟨b, taken, between⟩ := ready.deliver_element canonical.1 steps.1 filled.1
    obtain ⟨c, others, behind⟩ := ih between canonical.2 steps.2 filled.2
    refine ⟨c, ?_, by simpa using behind⟩
    rw [List.flatMap_cons, deliver_append _ taken, others]

private theorem Ready.accept_endOfInput (ready : a.Ready f) (line : Nat) :
    a.accept (.endOfInput line) = .accepted a := by
  obtain ⟨present, untagged, uncommented, -, closes⟩ := ready
  obtain ⟨_, _, _, _, _, _⟩ := a
  cases present
  cases untagged
  cases uncommented
  simp [accept, acceptEnd, closes .start (by decide)]

/-! ### Features -/

/-- An assembly behind the header of a feature. -/
private def inFeature (f : Feature) : Assembly where
  feature := some { f with background := none, elements := [] }
  current := .feature
  opened := f.line
  tags := []
  comments := []
  filter := .empty

/-- An assembly in the background of a feature. -/
private def inBackground (f : Feature) (b : Background) : Assembly where
  feature := some { f with background := some b, elements := [] }
  current := .background
  opened := b.line
  tags := []
  comments := []
  filter := .empty

private theorem deliver_feature (unmarked : f.language = none) (canonical : f.heading.IsCanonical) :
    deliver listen start f.heading.events = (inFeature f, none) := by
  obtain ⟨name, description⟩ : f.name.trim = f.name ∧
      normalizeDescription f.description = f.description := canonical.normal
  refine deliver_heading canonical rfl rfl ?_
  simp [accept, acceptHeader, acceptFeature, Heading.event, Feature.heading, closing?, enter, start,
    inFeature, unmarked, name, description]

private theorem deliver_background {b : Background} (canonical : b.heading.IsCanonical)
    (steps : ∀ step ∈ b.steps, step.IsCanonical) :
    deliver listen (inFeature f) b.events = (inBackground f b, none) := by
  have opened : accept { inFeature f with tags := [], comments := b.comments } b.heading.event =
      .accepted (inBackground f { b with steps := [] }) := by
    obtain ⟨name, description⟩ : b.name.trim = b.name ∧
        normalizeDescription b.description = b.description := canonical.normal
    simp [accept, acceptHeader, acceptBackground, Heading.event, Background.heading, closing?, enter,
      inFeature, inBackground, name, description]
  have present : (inBackground f { b with steps := [] }).currentSteps? = some [] := by
    simp [currentSteps?, inBackground]
  rw [Background.events, deliver_section canonical rfl rfl opened present rfl steps]
  simp [inBackground, mapSteps]

/-- In front of the elements a feature is ready for them. -/
private theorem deliver_front (canonical : f.IsCanonical) :
    ∃ b, deliver listen start (f.heading.events ++ f.background.toList.flatMap Background.events) =
        (b, none) ∧ b.Ready { f with elements := [] } := by
  have headings := canonical.headings
  have steps := canonical.steps
  simp only [Feature.headings, Feature.steps, List.forall_mem_cons, List.forall_mem_append]
    at headings steps
  rw [deliver_append _ (deliver_feature canonical.unmarked headings.1)]
  cases present : f.background with
  | none =>
    refine ⟨_, rfl, ?_, rfl, rfl, rfl, fun _ _ => rfl⟩
    simp [inFeature]
  | some b =>
    simp only [present, Option.toList_some, List.map_cons, List.map_nil, List.flatMap_cons,
      List.flatMap_nil, List.append_nil, List.forall_mem_singleton] at headings steps ⊢
    refine ⟨_, deliver_background headings.2.1 steps.1, ?_, rfl, rfl, rfl, fun _ _ => rfl⟩
    simp [inBackground]

end Assembly

/-- A canonical tree that is told event by event is built again: everything is accepted, and what comes
out is the tree. -/
theorem Feature.build_events {f : Feature} (canonical : f.IsCanonical) (line : Nat) :
    (∀ outcome ∈ Assembly.start.acceptEach (f.events ++ [.endOfInput line]), outcome.fault? = none) ∧
      (Assembly.start.afterEach (f.events ++ [.endOfInput line])).tree = some f := by
  obtain ⟨a, front, between⟩ := Assembly.deliver_front canonical
  have headings := canonical.headings
  have steps := canonical.steps
  simp only [Feature.headings, Feature.steps, List.forall_mem_cons, List.forall_mem_append]
    at headings steps
  obtain ⟨b, elements, behind⟩ := between.deliver_elements headings.2.2 steps.2 canonical.elements
  replace behind : b.Ready f := by simpa using behind
  have delivered : deliver Assembly.listen .start (f.events ++ [.endOfInput line]) = (b, none) := by
    rw [Feature.events, ← List.append_assoc, List.append_assoc, deliver_append _ front,
      deliver_append _ elements]
    simp [deliver, Assembly.listen, behind.accept_endOfInput]
  -- Nothing stopped the delivery, so every event was accepted.
  obtain ⟨accepted, reached⟩ := Assembly.accepted_each_of_deliver delivered
  refine ⟨accepted, ?_⟩
  rw [reached, Assembly.tree_eq_feature behind.unfiltered, behind.feature]

/-- A background with a table, a scenario with a doc string, and a tagged outline with two examples
sections. -/
theorem Feature.build_events_outline :
    let f : Feature := ⟨none, [⟨['#'], 1⟩], [⟨['@', 'f'], 2⟩], [], ['f'], ['d', '\n', 'd'], 3,
      some ⟨[], [], ['b'], [], 6, [⟨[], ['x'], 7, some (.table [⟨[['a']], 8⟩, ⟨[['b']], 9⟩])⟩]⟩,
      [.scenario ⟨[⟨['#', 's'], 10⟩], [], [], ['s'], [], 11,
          [⟨[], ['y'], 12, some (.docString ⟨[' ', 't', ' '], 13⟩)⟩, ⟨[], [], 16, none⟩]⟩,
        .outline ⟨[], [⟨['@', 'o'], 17⟩], [], [], [], 18, [],
          [⟨[], [⟨['@', 'e'], 19⟩], [], [], [], 20, [⟨[['a']], 21⟩]⟩,
            ⟨[⟨['#', 'e'], 22⟩], [], [], [], [], 23, [⟨[], 24⟩, ⟨[], 25⟩]⟩]⟩]⟩
    f.IsCanonical ∧
      (∀ outcome ∈ Assembly.start.acceptEach (f.events ++ [.endOfInput 26]), outcome.fault? = none) ∧
      (Assembly.start.afterEach (f.events ++ [.endOfInput 26])).tree = some f := by
  intro f
  have canonical : f.IsCanonical := by
    decide +kernel
  exact ⟨canonical, build_events canonical 26⟩

end FeatureFile
