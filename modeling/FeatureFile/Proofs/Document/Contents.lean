import FeatureFile.Proofs.Document.Acceptance
import FeatureFile.Proofs.Document.Noninterference
import FeatureFile.Proofs.Document.Normal
import Mathlib.Data.List.DropRight
/-!
What a tree holds of the events it was assembled from. Its headers, steps, rows and doc strings are
the events of these kinds in their order; each header holds the tags and comments that waited for it.
-/

namespace FeatureFile

/-! ### What stands in a tree, in document order -/

/-- A header of a tree with what it took. -/
structure Heading where
  kind : SectionKind
  header : Header
  tags : List Tag
  comments : List Comment
  deriving DecidableEq, Repr

def Heading.event (heading : Heading) : Event :=
  .header heading.kind heading.header

def Row.event (row : Row) : Event :=
  .row row.cells row.line

def StepArgument.contents : StepArgument → List Event
  | table rows => rows.map Row.event
  | docString block => [.docString block.content block.line]

def Step.contents (step : Step) : List Event :=
  .step step.keyword step.name step.line :: (step.argument.map StepArgument.contents).getD []

namespace Background

def heading (b : Background) : Heading :=
  ⟨.background, ⟨b.keyword, b.name, b.description, b.line⟩, [], b.comments⟩

def contents (b : Background) : List Event :=
  b.heading.event :: b.steps.flatMap Step.contents

end Background

namespace Examples

def heading (e : Examples) : Heading :=
  ⟨.examples, ⟨e.keyword, e.name, e.description, e.line⟩, e.tags, e.comments⟩

def contents (e : Examples) : List Event :=
  e.heading.event :: e.rows.map Row.event

end Examples

namespace Element

/-- The header of an element. -/
def heading : Element → Heading
  | scenario s => ⟨.scenario, ⟨s.keyword, s.name, s.description, s.line⟩, s.tags, s.comments⟩
  | outline o => ⟨.outline, ⟨o.keyword, o.name, o.description, o.line⟩, o.tags, o.comments⟩

/-- The headers of an element and of its examples. -/
def headings (element : Element) : List Heading :=
  element.heading :: element.examples.map Examples.heading

def contents (element : Element) : List Event :=
  element.heading.event ::
    (element.steps.flatMap Step.contents ++ element.examples.flatMap Examples.contents)

end Element

namespace Feature

/-- The header of the feature itself. -/
def heading (f : Feature) : Heading :=
  ⟨.feature, ⟨f.keyword, f.name, f.description, f.line⟩, f.tags, f.comments⟩

/-- Every header of the tree. -/
def headings (f : Feature) : List Heading :=
  f.heading :: (f.background.toList.map Background.heading ++ f.elements.flatMap Element.headings)

/-- Every header, step, row and doc string of the tree. -/
def contents (f : Feature) : List Event :=
  f.heading.event ::
    (f.background.toList.flatMap Background.contents ++ f.elements.flatMap Element.contents)

end Feature

/-! A heading does not change with what stands below it. -/

@[simp]
theorem Background.heading_steps (b : Background) (steps : List Step) :
    heading { b with steps := steps } = b.heading := rfl

@[simp]
theorem Examples.heading_rows (e : Examples) (rows : List Row) :
    heading { e with rows := rows } = e.heading := rfl

@[simp]
theorem Element.heading_scenario (s : Scenario) (steps : List Step) :
    (scenario { s with steps := steps }).heading = (scenario s).heading := rfl

@[simp]
theorem Element.heading_outline (o : Outline) (steps : List Step) (examples : List Examples) :
    (outline { o with steps := steps, examples := examples }).heading = (outline o).heading := rfl

@[simp]
theorem Feature.heading_elements (f : Feature) (background : Option Background)
    (elements : List Element) :
    heading { f with background := background, elements := elements } = f.heading := rfl

/-! ### What stands in a sequence of events -/

namespace Event

/-- Whether the event is a header. -/
def isHeader : Event → Bool
  | header _ _ => true
  | _ => false

/-- Whether the tree holds the event as a node of its own. -/
def isListed : Event → Bool
  | header _ _ | step _ _ _ | row _ _ | docString _ _ => true
  | comment _ _ | tag _ _ | endOfInput _ => false

/-- The tag of a tag event. -/
def tag? : Event → Option Tag
  | tag name line => some ⟨name, line⟩
  | _ => none

/-- The comment of a comment event, trimmed. -/
def comment? : Event → Option Comment
  | comment text line => some ⟨text.trim, line⟩
  | _ => none

/-- The tags behind the last header that takes tags. -/
def waitingTags (before : List Event) : List Tag :=
  (before.rtakeWhile fun event => !event.takesTags).filterMap tag?

/-- The comments behind the last header. -/
def waitingComments (before : List Event) : List Comment :=
  (before.rtakeWhile fun event => !event.isHeader).filterMap comment?

/-- The headers of a sequence, given the events before it, each with the tags and comments that wait
there; a background leaves the tags alone. -/
def headingsFrom (before : List Event) : List Event → List Heading
  | [] => []
  | header kind h :: events =>
    ⟨kind, h.normal, if kind = .background then [] else waitingTags before, waitingComments before⟩
      :: headingsFrom (before ++ [header kind h]) events
  | event :: events => headingsFrom (before ++ [event]) events

end Event

namespace Event

theorem headingsFrom_append (before first second : List Event) :
    headingsFrom before (first ++ second) =
      headingsFrom before first ++ headingsFrom (before ++ first) second := by
  induction first generalizing before with
  | nil => simp [headingsFrom]
  | cons event first ih =>
    cases event <;> simp [headingsFrom, ih]

/-- The tags that wait behind one more event. -/
theorem waitingTags_concat (before : List Event) (event : Event) :
    waitingTags (before ++ [event]) =
      if event.takesTags then [] else waitingTags before ++ event.tag?.toList := by
  cases takes : event.takesTags <;>
    simp [waitingTags, takes, List.filterMap_append]
  cases event <;> rfl

/-- The comments that wait behind one more event. -/
theorem waitingComments_concat (before : List Event) (event : Event) :
    waitingComments (before ++ [event]) =
      if event.isHeader then [] else waitingComments before ++ event.comment?.toList := by
  cases header : event.isHeader <;>
    simp [waitingComments, header, List.filterMap_append]
  cases event <;> rfl

/-- Every tag is on a header or waits. -/
theorem headingsFrom_tags (events : List Event) :
    (headingsFrom [] events).flatMap Heading.tags ++ waitingTags events = events.filterMap tag? := by
  induction events using List.reverseRecOn with
  | nil => rfl
  | append_singleton events event ih =>
    rw [headingsFrom_append, List.flatMap_append, List.filterMap_append, ← ih, waitingTags_concat]
    cases event with
    | header kind h => cases kind <;> simp [headingsFrom, takesTags, tag?]
    | _ => simp [headingsFrom, takesTags, tag?]

/-- Every comment is on a header or waits. -/
theorem headingsFrom_comments (events : List Event) :
    (headingsFrom [] events).flatMap Heading.comments ++ waitingComments events =
      events.filterMap comment? := by
  induction events using List.reverseRecOn with
  | nil => rfl
  | append_singleton events event ih =>
    rw [headingsFrom_append, List.flatMap_append, List.filterMap_append, ← ih,
      waitingComments_concat]
    cases event <;> simp [headingsFrom, isHeader, comment?]

theorem headingsFrom_ne_nil {before events : List Event} {kind : SectionKind} {h : Header}
    (member : header kind h ∈ events) : headingsFrom before events ≠ [] := by
  obtain ⟨first, second, rfl⟩ := List.append_of_mem member
  simp [headingsFrom_append, headingsFrom]

end Event

namespace Assembly

/-- Every header, step, row and doc string of the tree so far. -/
def contents (a : Assembly) : List Event :=
  (a.feature.map Feature.contents).getD []

/-- Every header of the tree so far. -/
def headings (a : Assembly) : List Heading :=
  (a.feature.map Feature.headings).getD []

section

variable {a : Assembly}

/-- The steps at hand are the last thing in the tree. -/
private theorem Sound.contents_mapSteps (sound : a.Sound) {steps : List Step}
    (current : a.currentSteps? = some steps) :
    ∃ front, a.contents = front ++ steps.flatMap Step.contents ∧
      ∀ f, (a.mapSteps f).contents = front ++ (f steps).flatMap Step.contents ∧
        (a.mapSteps f).headings = a.headings := by
  cases sound with
  | start => simp [currentSteps?] at current
  | feature => simp [currentSteps?] at current
  | background f b opened tags comments present empty =>
    obtain rfl : b.steps = steps := by simpa [currentSteps?, present] using current
    refine ⟨[f.heading.event, b.heading.event], ?_, fun g => ⟨?_, ?_⟩⟩
    · simp [contents, Feature.contents, Background.contents, present, empty]
    · simp [contents, Feature.contents, Background.contents, mapSteps, present, empty]
    · simp [headings, Feature.headings, mapSteps, present, empty]
  | scenario f front s opened tags comments last =>
    obtain rfl : s.steps = steps := by simpa [currentSteps?, last] using current
    refine ⟨f.heading.event :: (f.background.toList.flatMap Background.contents ++
      front.flatMap Element.contents ++ [(Element.scenario s).heading.event]), ?_, fun g => ⟨?_, ?_⟩⟩
    · simp [contents, Feature.contents, Element.contents, Element.steps, Element.examples, last]
    · simp [contents, Feature.contents, Element.contents, Element.steps, Element.examples, mapSteps,
        mapElementSteps, last, updateLast_concat]
    · simp [headings, Feature.headings, Element.headings, Element.examples, mapSteps,
        mapElementSteps, last, updateLast_concat]
  | outline f front o opened tags comments last unfilled =>
    obtain rfl : o.steps = steps := by simpa [currentSteps?, last] using current
    refine ⟨f.heading.event :: (f.background.toList.flatMap Background.contents ++
      front.flatMap Element.contents ++ [(Element.outline o).heading.event]), ?_, fun g => ⟨?_, ?_⟩⟩
    · simp [contents, Feature.contents, Element.contents, Element.steps, Element.examples, last,
        unfilled]
    · simp [contents, Feature.contents, Element.contents, Element.steps, Element.examples, mapSteps,
        mapElementSteps, last, unfilled, updateLast_concat]
    · simp [headings, Feature.headings, Element.headings, Element.examples, mapSteps,
        mapElementSteps, last, unfilled, updateLast_concat]
  | examples => simp [currentSteps?] at current

/-- What an accepted event adds to the tree: itself, if the tree holds such events, at the end. -/
structure Adds (a : Assembly) (event : Event) (b : Assembly) : Prop where
  contents : b.contents = a.contents ++ if event.isListed then [event.normal] else []
  headings : b.headings = a.headings ++
    match event with
    | .header kind h =>
      [⟨kind, h.normal, if kind = .background then [] else a.tags, a.comments⟩]
    | _ => []

private theorem Sound.adds_step (sound : a.Sound) {keyword name : Text} {line : Nat} {b : Assembly}
    (done : a.accept (.step keyword name line) = .accepted b) :
    a.Adds (.step keyword name line) b := by
  simp only [accept, acceptStep] at done
  split at done
  · cases done
  · split at done
    · cases done
    next present =>
      obtain ⟨steps, current⟩ := Option.ne_none_iff_exists'.mp (by simpa using present)
      obtain ⟨front, before, behind⟩ := sound.contents_mapSteps current
      obtain ⟨contents, headings⟩ := behind (· ++ [⟨keyword, name.trim, line, none⟩])
      cases done
      refine ⟨?_, by simpa using headings⟩
      rw [contents, before]
      simp [Step.contents, Event.isListed, Event.normal]

private theorem Sound.adds_argument (sound : a.Sound) {front : List Step} {step : Step}
    (current : a.currentSteps? = some (front ++ [step])) (argument : StepArgument) (event : Event)
    (extends_ : Step.contents { step with argument := some argument } =
      step.contents ++ [event]) :
    (a.setArgument argument).contents = a.contents ++ [event] ∧
      (a.setArgument argument).headings = a.headings := by
  obtain ⟨lead, before, behind⟩ := sound.contents_mapSteps current
  obtain ⟨contents, headings⟩ := behind (updateLast fun step => { step with argument := some argument })
  refine ⟨?_, headings⟩
  rw [setArgument, contents, before, updateLast_concat]
  simp [extends_]

/-- The last of the steps at hand is the last of some. -/
private theorem exists_currentSteps? {step : Step} (current : a.currentStep? = some step) :
    ∃ front, a.currentSteps? = some (front ++ [step]) := by
  obtain ⟨steps, present, last⟩ := Option.bind_eq_some_iff.mp current
  obtain ⟨front, rfl⟩ := List.getLast?_eq_some_iff.mp last
  exact ⟨front, present⟩

private theorem Sound.adds_row (sound : a.Sound) {cells : List Text} {line : Nat} {b : Assembly}
    (done : a.accept (.row cells line) = .accepted b) : a.Adds (.row cells line) b := by
  simp only [accept, acceptRow] at done
  split at done
  next present =>
    cases done
    cases sound with
    | examples f front o sections e opened tags comments last sectioned =>
      refine ⟨?_, ?_⟩
      · simp [contents, addExamplesRow, Feature.contents, Element.contents, Element.steps,
          Element.examples, Examples.contents, last, sectioned, updateLast_concat,
          Event.isListed, Event.normal, Row.event]
      · simp [headings, addExamplesRow, Feature.headings, Element.headings, Element.examples,
          last, sectioned, updateLast_concat]
    | _ => simp [currentExamples?] at present
  · split at done
    · cases done
    next step current =>
      obtain ⟨front, steps⟩ := exists_currentSteps? current
      split at done
      next carries =>
        cases done
        obtain ⟨contents, headings⟩ := sound.adds_argument steps (.table [⟨cells, line⟩])
          (.row cells line) (by simp [Step.contents, carries, StepArgument.contents, Row.event])
        exact ⟨contents, by simpa using headings⟩
      next rows carries =>
        cases done
        obtain ⟨contents, headings⟩ := sound.adds_argument steps
          (.table (rows ++ [⟨cells, line⟩])) (.row cells line)
          (by simp [Step.contents, carries, StepArgument.contents, Row.event])
        exact ⟨contents, by simpa using headings⟩
      · cases done

private theorem Sound.adds_docString (sound : a.Sound) {content : Text} {line : Nat} {b : Assembly}
    (done : a.accept (.docString content line) = .accepted b) :
    a.Adds (.docString content line) b := by
  simp only [accept, acceptDocString] at done
  split at done
  next keyword name at_ current =>
    cases done
    obtain ⟨front, steps⟩ := exists_currentSteps? current
    obtain ⟨contents, headings⟩ := sound.adds_argument steps (.docString ⟨content, line⟩)
      (.docString content line) (by simp [Step.contents, StepArgument.contents])
    exact ⟨contents, by simpa using headings⟩
  · cases done

private theorem Sound.adds_element (sound : a.Sound) {kind : SectionKind} {next : Section}
    {h : Header} {element : Element} (notExamples : next ≠ .examples)
    (notBackground : kind ≠ .background)
    (heading : element.heading = ⟨kind, h.normal, a.tags, a.comments⟩)
    (bare : element.steps = [] ∧ element.examples = []) {b : Assembly}
    (done : a.acceptElement kind next h.line element = .accepted b) :
    a.Adds (.header kind h) b := by
  rcases sound.acceptElement_cases kind next h.line element notExamples with
    ⟨_, f, present, done'⟩ | ⟨_, fault, refused⟩
  · rw [done] at done'
    cases done'
    refine ⟨?_, ?_⟩
    · simp [contents, present, Feature.contents, Element.contents, bare, heading, Heading.event,
        Event.isListed, Event.normal]
    · simp [headings, present, Feature.headings, Element.headings, bare, heading, notBackground]
  · rw [done] at refused
    cases refused

private theorem Sound.adds_feature (sound : a.Sound) {h : Header} {b : Assembly}
    (done : a.accept (.header .feature h) = .accepted b) : a.Adds (.header .feature h) b := by
  cases sound with
  | start opened tags comments =>
    cases done
    exact ⟨rfl, rfl⟩
  | _ => cases done

private theorem adds_background {h : Header} {b : Assembly}
    (done : a.accept (.header .background h) = .accepted b) : a.Adds (.header .background h) b := by
  simp only [accept, acceptHeader, acceptBackground] at done
  split at done
  · cases done
  · split at done
    · cases done
    next f present =>
      split at done
      · cases done
      next first =>
        obtain ⟨bare, empty⟩ : f.background = none ∧ f.elements = [] := by simpa using first
        split at done
        · cases done
        · cases done
          refine ⟨?_, ?_⟩
          · simp [contents, present, Feature.contents, Background.contents, bare, empty,
              Event.isListed, Event.normal]
            rfl
          · simp [headings, present, Feature.headings, bare, empty]
            rfl

private theorem Sound.adds_examples (sound : a.Sound) {h : Header} {b : Assembly}
    (done : a.accept (.header .examples h) = .accepted b) : a.Adds (.header .examples h) b := by
  simp only [accept, acceptHeader, acceptExamples] at done
  split at done
  · cases done
  next late =>
    split at done
    · cases done
    · cases sound with
      | outline f front o opened tags comments last unfilled =>
        simp only [addExamples?, last, List.getLast?_append, List.getLast?_singleton] at done
        cases done
        refine ⟨?_, ?_⟩
        · simp [contents, Feature.contents, Element.contents, Element.steps, Element.examples,
            Examples.contents, last, unfilled, updateLast_concat, Event.isListed, Event.normal]
          rfl
        · simp [headings, Feature.headings, Element.headings, Element.examples, last, unfilled,
            updateLast_concat]
          rfl
      | examples f front o sections e opened tags comments last sectioned =>
        simp only [addExamples?, last, List.getLast?_append, List.getLast?_singleton] at done
        cases done
        refine ⟨?_, ?_⟩
        · simp [contents, Feature.contents, Element.contents, Element.steps, Element.examples,
            Examples.contents, last, sectioned, updateLast_concat, Event.isListed, Event.normal]
          rfl
        · simp [headings, Feature.headings, Element.headings, Element.examples, last, sectioned,
            updateLast_concat]
          rfl
      | start | feature | background | scenario => simp at late

private theorem Sound.adds_header (sound : a.Sound) {kind : SectionKind} {h : Header} {b : Assembly}
    (done : a.accept (.header kind h) = .accepted b) : a.Adds (.header kind h) b := by
  cases kind with
  | feature => exact sound.adds_feature done
  | background => exact adds_background done
  | scenario => exact sound.adds_element (by decide) (by decide) rfl ⟨rfl, rfl⟩ done
  | outline => exact sound.adds_element (by decide) (by decide) rfl ⟨rfl, rfl⟩ done
  | examples => exact sound.adds_examples done

/-- What an accepted event does to the tree. -/
theorem Sound.adds (sound : a.Sound) {event : Event} {b : Assembly}
    (inside : event.isEnd = false) (done : a.accept event = .accepted b) : a.Adds event b := by
  cases event with
  | comment text line => cases done; exact ⟨by simp [contents, Event.isListed], by simp [headings]⟩
  | tag name line => cases done; exact ⟨by simp [contents, Event.isListed], by simp [headings]⟩
  | header kind h => exact sound.adds_header done
  | step keyword name line => exact sound.adds_step done
  | row cells line => exact sound.adds_row done
  | docString content line => exact sound.adds_docString done
  | endOfInput line => cases inside

/-- A header takes every comment. -/
private theorem comments_header {kind : SectionKind} {h : Header} {b : Assembly}
    (done : a.accept (.header kind h) = .accepted b) : b.comments = [] := by
  cases kind with
  | feature =>
    simp only [accept, acceptHeader, acceptFeature] at done
    split at done <;> [cases done; split at done] <;> cases done
    rfl
  | background =>
    simp only [accept, acceptHeader, acceptBackground] at done
    split at done <;> [cases done; split at done] <;> [cases done; split at done] <;>
      [cases done; split at done] <;> cases done
    rfl
  | scenario =>
    simp only [accept, acceptHeader, acceptScenario, acceptElement] at done
    split at done <;> [cases done; split at done] <;> cases done
    rfl
  | outline =>
    simp only [accept, acceptHeader, acceptOutline, acceptElement] at done
    split at done <;> [cases done; split at done] <;> cases done
    rfl
  | examples =>
    simp only [accept, acceptHeader, acceptExamples] at done
    split at done <;> [cases done; split at done] <;> [cases done; split at done] <;>
      [cases done; split at done] <;> cases done
    rfl

/-- What stands below a header leaves the comments alone. -/
private theorem comments_below {event : Event} {b : Assembly} (header : event.isHeader = false)
    (listed : event.isListed = true) (done : a.accept event = .accepted b) :
    b.comments = a.comments := by
  cases event with
  | step keyword name line =>
    simp only [accept, acceptStep] at done
    split at done <;> [cases done; split at done] <;> cases done
    rfl
  | row cells line =>
    simp only [accept, acceptRow] at done
    split at done <;> [skip; split at done] <;> [skip; skip; split at done] <;> cases done <;> rfl
  | docString content line =>
    simp only [accept, acceptDocString] at done
    split at done <;> cases done
    rfl
  | header kind h => cases header
  | comment | tag | endOfInput => cases listed

/-- What waits behind an accepted event. -/
theorem Sound.waiting_behind (sound : a.Sound) {event : Event} {b : Assembly}
    (inside : event.isEnd = false) (done : a.accept event = .accepted b) :
    b.tags = (if event.takesTags then [] else a.tags ++ event.tag?.toList) ∧
      b.comments = if event.isHeader then [] else a.comments ++ event.comment?.toList := by
  obtain ⟨_, tags, allowed⟩ := sound.accepted done
  constructor
  · rw [tags]
    by_cases blocked : event.meetsTags ∧ !event.takesTags ∧ a.tags ≠ []
    · simp [next?, blocked] at allowed
    · cases event with
      | header kind h =>
        cases kind <;>
          simp_all [Event.meetsTags, Event.takesTags, Event.tagsBehind, Event.tag?]
      | _ => simp_all [Event.meetsTags, Event.takesTags, Event.tagsBehind, Event.tag?]
  · cases event with
    | comment text line => cases done; rfl
    | tag name line => cases done; simp [Event.isHeader, Event.comment?]
    | header kind h => exact comments_header done
    | endOfInput line => cases inside
    | _ => simpa [Event.isHeader, Event.comment?] using comments_below rfl rfl done

/-- What an assembly holds of the events it has accepted. -/
structure Holds (a : Assembly) (past : List Event) : Prop where
  contents : a.contents = (past.filter Event.isListed).map Event.normal
  headings : a.headings = Event.headingsFrom [] past
  tags : a.tags = Event.waitingTags past
  comments : a.comments = Event.waitingComments past

theorem holds_start : start.Holds [] :=
  ⟨rfl, rfl, rfl, rfl⟩

/-- Every event accepted inside a document keeps the account. -/
private theorem Holds.next {past : List Event} (holds : a.Holds past) (sound : a.Sound)
    {event : Event} {b : Assembly} (inside : event.isEnd = false)
    (done : a.accept event = .accepted b) : b.Holds (past ++ [event]) := by
  obtain ⟨contents, headings⟩ := sound.adds inside done
  obtain ⟨tags, comments⟩ := sound.waiting_behind inside done
  refine ⟨?_, ?_, ?_, ?_⟩
  · rw [contents, holds.contents]
    cases listed : event.isListed <;> simp [listed]
  · rw [headings, holds.headings, Event.headingsFrom_append, List.nil_append, holds.tags,
      holds.comments]
    cases event <;> rfl
  · rw [tags, holds.tags, Event.waitingTags_concat]
  · rw [comments, holds.comments, Event.waitingComments_concat]

/-- So does a whole run. -/
theorem Holds.run {past : List Event} (holds : a.Holds past) (sound : a.Sound)
    {events : List Event} (inside : ∀ event ∈ events, event.isEnd = false)
    (accepted : ∀ outcome ∈ a.acceptEach events, outcome.fault? = none) :
    (a.afterEach events).Holds (past ++ events) := by
  induction events generalizing a past with
  | nil => simpa [afterEach] using holds
  | cons event events ih =>
    simp only [acceptEach, List.mem_cons, forall_eq_or_imp] at accepted inside
    cases done : a.accept event with
    | refused fault after => simp [done, Outcome.fault?] at accepted
    | accepted b =>
      have run := ih (holds.next sound inside.1 done) (sound.accepted done).1 inside.2
        (by simpa [done, Outcome.after] using accepted.2)
      simpa [afterEach, done, Outcome.after] using run

/-- The end of a document with a feature: what comments still wait go to the feature, no tag does. -/
theorem accept_end {f : Feature} {line : Nat} (present : a.feature = some f)
    (done : (a.accept (.endOfInput line)).fault? = none) :
    a.tags = [] ∧ (a.accept (.endOfInput line)).after.feature =
      some { f with comments := f.comments ++ a.comments } := by
  simp only [accept, acceptEnd, present] at done ⊢
  by_cases waiting : a.tags = []
  · cases closes : a.closing? .start with
    | none => simp [waiting, Outcome.after]
    | some fault => simp [waiting, closes, Outcome.fault?] at done
  · simp [waiting, Outcome.fault?] at done

theorem acceptEach_append (first second : List Event) :
    a.acceptEach (first ++ second) = a.acceptEach first ++ (a.afterEach first).acceptEach second := by
  induction first generalizing a with
  | nil => rfl
  | cons event first ih => simp [acceptEach, afterEach, ih]

end

end Assembly

/-- The tree of a document whose every event was accepted. Its headers, steps, rows and doc strings
are those events in their order. Each header has the tags and the comments that waited for it, and
the feature also the comments behind the last header, so that every tag and comment of the document
is in the tree once. -/
theorem tree_of_accepted (body : List Event) (line : Nat)
    (inside : ∀ event ∈ body, event.isEnd = false)
    (opened : ∃ h, Event.header .feature h ∈ body)
    (accepted : ∀ outcome ∈ Assembly.start.acceptEach (body ++ [Event.endOfInput line]),
      outcome.fault? = none) :
    ∃ f, (Assembly.start.afterEach (body ++ [Event.endOfInput line])).tree = some f ∧
      f.contents = (body.filter Event.isListed).map Event.normal ∧
      f.headings = (Event.headingsFrom [] body).modifyHead (fun heading =>
        { heading with comments := heading.comments ++ Event.waitingComments body }) ∧
      f.headings.flatMap Heading.tags = body.filterMap Event.tag? ∧
      (f.headings.flatMap Heading.comments).Perm (body.filterMap Event.comment?) := by
  rw [Assembly.acceptEach_append] at accepted
  simp only [List.mem_append, Assembly.acceptEach, List.mem_singleton] at accepted
  have run := Assembly.holds_start.run (Assembly.sound_start _) inside fun outcome member =>
    accepted outcome (.inl member)
  have ends : (Assembly.start.afterEach (body ++ [Event.endOfInput line])) =
      ((Assembly.start.afterEach body).accept (.endOfInput line)).after := by
    simp [Assembly.afterEach]
  rw [Assembly.tree_eq_feature (Assembly.filter_afterEach .start _), ends]
  rw [List.nil_append] at run
  generalize Assembly.start.afterEach body = a at run accepted
  obtain ⟨h, member⟩ := opened
  have headed := run.headings ▸ Event.headingsFrom_ne_nil member
  obtain ⟨f, present⟩ : ∃ f, a.feature = some f :=
    Option.ne_none_iff_exists'.mp fun absent => headed (by simp [Assembly.headings, absent])
  obtain ⟨untagged, final⟩ := Assembly.accept_end present (accepted _ (.inr rfl))
  have headings : f.headings = Event.headingsFrom [] body := by
    simpa [Assembly.headings, present] using run.headings
  have contents : f.contents = (body.filter Event.isListed).map Event.normal := by
    simpa [Assembly.contents, present] using run.contents
  rw [final]
  refine ⟨{ f with comments := f.comments ++ a.comments }, ?_, ?_, ?_, ?_, ?_⟩
  · rfl
  · rw [← contents]
    rfl
  · rw [← headings, ← run.comments]
    rfl
  · have tags := Event.headingsFrom_tags body
    rw [← run.tags, untagged, List.append_nil, ← headings] at tags
    rw [← tags]
    rfl
  · have comments := Event.headingsFrom_comments body
    rw [← run.comments, ← headings] at comments
    rw [← comments]
    simp only [Feature.headings, List.flatMap_cons, Feature.heading, List.append_assoc]
    exact (List.perm_append_comm).append_left _

/-- A comment in front of a tagged scenario goes to it, the comment at the end to the feature. -/
theorem tree_of_accepted_comments :
    let body : List Event := [.header .feature ⟨[], ['f', ' '], [], 1⟩, .tag ['@', 'a'] 2,
      .comment ['#', ' '] 3, .header .scenario ⟨[], [], [], 4⟩, .step [] [] 5, .row [['x']] 6,
      .comment ['#', 'e'] 7]
    (∀ event ∈ body, event.isEnd = false) ∧ (∃ h, Event.header .feature h ∈ body) ∧
      (∀ outcome ∈ Assembly.start.acceptEach (body ++ [Event.endOfInput 8]),
        outcome.fault? = none) ∧
      ∃ f, (Assembly.start.afterEach (body ++ [Event.endOfInput 8])).tree = some f ∧
        f.comments = [⟨['#', 'e'], 7⟩] ∧ f.headings.flatMap Heading.tags = [⟨['@', 'a'], 2⟩] := by
  intro body
  have inside : ∀ event ∈ body, event.isEnd = false := by decide
  have opened : ∃ h, Event.header .feature h ∈ body := ⟨_, List.mem_cons_self⟩
  have accepted : ∀ outcome ∈ Assembly.start.acceptEach (body ++ [Event.endOfInput 8]),
      outcome.fault? = none := by decide
  refine ⟨inside, opened, accepted, ?_⟩
  obtain ⟨f, tree, _, headings, tags, _⟩ := tree_of_accepted body 8 inside opened accepted
  refine ⟨f, tree, ?_, tags.trans (by decide)⟩
  have first : f.comments = (f.headings.head?.map Heading.comments).getD [] := rfl
  rw [first, headings]
  decide

end FeatureFile
