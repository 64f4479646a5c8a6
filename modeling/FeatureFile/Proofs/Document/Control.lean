import FeatureFile.Document.Assembly
import Mathlib.Data.List.Basic
/-!
The control state of an assembly: what the next event may be depends on it alone, apart from the
tags that wait. It is read off the tree, so an assembly and its control state cannot disagree; that
each section stands on the part of the tree it is named for is the invariant `Assembly.Sound`.
-/

namespace FeatureFile

/-- What has steps. -/
inductive Host where
  | background | scenario | outline
  deriving DecidableEq, Repr

/-- What the last step of a host carries. -/
inductive Carried where
  | noStep
  | nothing
  | table
  | docString
  deriving DecidableEq, Repr

/-- Where a document stands between two events. -/
inductive Control where
  | start
  | feature
  | steps (host : Host) (carried : Carried)
  /-- An examples section; whether it has a row. -/
  | examples (filled : Bool)
  deriving DecidableEq, Repr

namespace Control

/-- Whether the current section lacks nothing when an element or the end follows. -/
def isComplete : Control → Bool
  | start => false
  | feature => true
  | steps host _ => host ≠ .outline
  | examples filled => filled

/-- Whether examples may follow the current section. -/
def takesExamples : Control → Bool
  | steps .outline _ => true
  | examples filled => filled
  | _ => false

/-- The state behind a header. -/
def open? (control : Control) : SectionKind → Option Control
  | .feature => if control = start then some feature else none
  | .background => if control = feature then some (steps .background .noStep) else none
  | .scenario => if control.isComplete then some (steps .scenario .noStep) else none
  | .outline => if control.isComplete then some (steps .outline .noStep) else none
  | .examples => if control.takesExamples then some (examples false) else none

/-- The state behind a row. -/
def row? : Control → Option Control
  | steps host .nothing | steps host .table => some (steps host .table)
  | examples _ => some (examples true)
  | _ => none

/-- The state behind an event. Comments and tags do not matter, and the end changes nothing. -/
def next? (control : Control) : Event → Option Control
  | .comment _ _ | .tag _ _ => some control
  | .header kind _ => control.open? kind
  | .step _ _ _ =>
    match control with
    | steps host _ => some (steps host .nothing)
    | _ => none
  | .row _ _ => control.row?
  | .docString _ _ =>
    match control with
    | steps host .nothing => some (steps host .docString)
    | _ => none
  | .endOfInput _ => if control = start ∨ control.isComplete then some control else none

/-- The state behind some events. -/
def run? (control : Control) : List Event → Option Control
  | [] => some control
  | event :: events => (control.next? event).bind (·.run? events)

end Control

namespace Event

/-- Whether waiting tags matter to the event: it takes them, or is refused because of them. -/
def meetsTags : Event → Bool
  | header _ _ | step _ _ _ | endOfInput _ => true
  | comment _ _ | tag _ _ | row _ _ | docString _ _ => false

/-- Whether the event is a header that takes the waiting tags. -/
def takesTags : Event → Bool
  | header kind _ => kind ≠ .background
  | _ => false

/-- The tags that wait behind an event which has been accepted. -/
def tagsBehind (tags : List Tag) : Event → List Tag
  | tag name line => tags ++ [⟨name, line⟩]
  | comment _ _ | row _ _ | docString _ _ => tags
  | header _ _ | step _ _ _ | endOfInput _ => []

end Event

namespace Header

/-- The feature a header opens, with the comments and tags it takes. -/
def toFeature (h : Header) (comments : List Comment) (tags : List Tag) : Feature :=
  ⟨none, comments, tags, h.keyword, h.name.trim, normalizeDescription h.description, h.line, none, []⟩

def toBackground (h : Header) (comments : List Comment) : Background :=
  ⟨comments, h.keyword, h.name.trim, normalizeDescription h.description, h.line, []⟩

def toScenario (h : Header) (comments : List Comment) (tags : List Tag) : Scenario :=
  ⟨comments, tags, h.keyword, h.name.trim, normalizeDescription h.description, h.line, []⟩

def toOutline (h : Header) (comments : List Comment) (tags : List Tag) : Outline :=
  ⟨comments, tags, h.keyword, h.name.trim, normalizeDescription h.description, h.line, [], []⟩

def toExamples (h : Header) (comments : List Comment) (tags : List Tag) : Examples :=
  ⟨comments, tags, h.keyword, h.name.trim, normalizeDescription h.description, h.line, []⟩

end Header

/-- What a step carries. -/
def Step.carried (step : Step) : Carried :=
  match step.argument with
  | none => .nothing
  | some (.table _) => .table
  | some (.docString _) => .docString

/-- What the last of some steps carries. -/
def Step.lastCarried (steps : List Step) : Carried :=
  match steps.getLast? with
  | none => .noStep
  | some step => step.carried

theorem Step.lastCarried_concat (steps : List Step) (step : Step) :
    lastCarried (steps ++ [step]) = step.carried := by
  simp [lastCarried]

/-- Replacing the last element changes nothing in front of it. -/
theorem updateLast_concat {α : Type} (f : α → α) (front : List α) (last : α) :
    updateLast f (front ++ [last]) = front ++ [f last] := by
  induction front with
  | nil => rfl
  | cons x rest ih =>
    cases rest with
    | nil => rfl
    | cons y more => simpa [updateLast] using ih

namespace Assembly

/-- The control state of an assembly. -/
def control (a : Assembly) : Control :=
  match a.current with
  | .start => .start
  | .feature => .feature
  | .background => .steps .background (Step.lastCarried (a.currentSteps?.getD []))
  | .scenario => .steps .scenario (Step.lastCarried (a.currentSteps?.getD []))
  | .outline => .steps .outline (Step.lastCarried (a.currentSteps?.getD []))
  | .examples => .examples (a.currentExamples?.any fun examples => !examples.rows.isEmpty)

/-- Each section stands on its part of the tree: steps and rows are added at the very end. -/
inductive Sound : Assembly → Prop where
  | start {filter : Filter} (opened : Nat) (tags : List Tag) (comments : List Comment) :
    Sound ⟨none, .start, opened, tags, comments, filter⟩
  | feature {filter : Filter} (f : Feature) (opened : Nat) (tags : List Tag)
      (comments : List Comment) (bare : f.background = none) (empty : f.elements = []) :
    Sound ⟨some f, .feature, opened, tags, comments, filter⟩
  | background {filter : Filter} (f : Feature) (b : Background) (opened : Nat) (tags : List Tag)
      (comments : List Comment) (present : f.background = some b) (empty : f.elements = []) :
    Sound ⟨some f, .background, opened, tags, comments, filter⟩
  | scenario {filter : Filter} (f : Feature) (front : List Element) (s : Scenario) (opened : Nat)
      (tags : List Tag) (comments : List Comment) (last : f.elements = front ++ [.scenario s]) :
    Sound ⟨some f, .scenario, opened, tags, comments, filter⟩
  | outline {filter : Filter} (f : Feature) (front : List Element) (o : Outline) (opened : Nat)
      (tags : List Tag) (comments : List Comment) (last : f.elements = front ++ [.outline o])
      (unfilled : o.examples = []) :
    Sound ⟨some f, .outline, opened, tags, comments, filter⟩
  | examples {filter : Filter} (f : Feature) (front : List Element) (o : Outline)
      (sections : List Examples) (e : Examples) (opened : Nat) (tags : List Tag) (comments : List Comment)
      (last : f.elements = front ++ [.outline o]) (sectioned : o.examples = sections ++ [e]) :
    Sound ⟨some f, .examples, opened, tags, comments, filter⟩

theorem sound_start (filter : Filter) : Sound (start filter) :=
  .start 0 [] []

section

variable {a : Assembly}

/-- What an assembly whose control state names a host knows about the steps of the host. -/
structure HasSteps (a : Assembly) (host : Host) (steps : List Step) : Prop where
  current : a.currentSteps? = some steps
  control : a.control = .steps host (Step.lastCarried steps)
  noExamples : a.currentExamples? = none
  /-- Changing the steps changes nothing else. -/
  mapped : ∀ f, (a.mapSteps f).Sound ∧ (a.mapSteps f).tags = a.tags ∧
    (a.mapSteps f).control = .steps host (Step.lastCarried (f steps))

private theorem hasSteps_background {filter : Filter} {f : Feature} {b : Background} (opened : Nat)
    (tags : List Tag) (comments : List Comment) (present : f.background = some b)
    (empty : f.elements = []) :
    HasSteps ⟨some f, .background, opened, tags, comments, filter⟩ .background b.steps where
  current := by simp [currentSteps?, present]
  control := by simp [Assembly.control, currentSteps?, present]
  noExamples := by simp [currentExamples?]
  mapped g := by
    refine ⟨?_, rfl, by simp [Assembly.control, currentSteps?, mapSteps, present]⟩
    exact .background _ { b with steps := g b.steps } _ _ _ (by simp [present]) empty

private theorem hasSteps_scenario {filter : Filter} {f : Feature} {front : List Element} {s : Scenario}
    (opened : Nat) (tags : List Tag) (comments : List Comment)
    (last : f.elements = front ++ [.scenario s]) :
    HasSteps ⟨some f, .scenario, opened, tags, comments, filter⟩ .scenario s.steps where
  current := by simp [currentSteps?, last]
  control := by simp [Assembly.control, currentSteps?, last]
  noExamples := by simp [currentExamples?]
  mapped g := by
    have moved : updateLast (mapElementSteps g) f.elements =
        front ++ [.scenario { s with steps := g s.steps }] := by
      rw [last, updateLast_concat]; rfl
    refine ⟨?_, rfl, by simp [Assembly.control, currentSteps?, mapSteps, moved]⟩
    exact .scenario _ front { s with steps := g s.steps } _ _ _ moved

private theorem hasSteps_outline {filter : Filter} {f : Feature} {front : List Element} {o : Outline}
    (opened : Nat) (tags : List Tag) (comments : List Comment)
    (last : f.elements = front ++ [.outline o]) (unfilled : o.examples = []) :
    HasSteps ⟨some f, .outline, opened, tags, comments, filter⟩ .outline o.steps where
  current := by simp [currentSteps?, last]
  control := by simp [Assembly.control, currentSteps?, last]
  noExamples := by simp [currentExamples?]
  mapped g := by
    have moved : updateLast (mapElementSteps g) f.elements =
        front ++ [.outline { o with steps := g o.steps }] := by
      rw [last, updateLast_concat]; rfl
    refine ⟨?_, rfl, by simp [Assembly.control, currentSteps?, mapSteps, moved]⟩
    exact .outline _ front { o with steps := g o.steps } _ _ _ moved unfilled

/-- Steps are at hand exactly where the control state names a host. -/
theorem Sound.steps_cases (sound : a.Sound) :
    (∃ host steps, a.HasSteps host steps) ∨
      (a.currentSteps? = none ∧ ∀ host carried, a.control ≠ .steps host carried) := by
  cases sound with
  | start => exact .inr ⟨rfl, by simp [Assembly.control]⟩
  | feature => exact .inr ⟨by simp [currentSteps?], by simp [Assembly.control]⟩
  | background f b opened tags comments present empty =>
    exact .inl ⟨_, _, hasSteps_background opened tags comments present empty⟩
  | scenario f front s opened tags comments last =>
    exact .inl ⟨_, _, hasSteps_scenario opened tags comments last⟩
  | outline f front o opened tags comments last unfilled =>
    exact .inl ⟨_, _, hasSteps_outline opened tags comments last unfilled⟩
  | examples => exact .inr ⟨by simp [currentSteps?], by simp [Assembly.control]⟩

/-- A section can be left exactly when its control state says so; an outline also for its
examples. -/
theorem Sound.closing?_eq_none_iff (sound : a.Sound) (next : Section) :
    a.closing? next = none ↔
      a.control = .start ∨ a.control.isComplete ∨
        (next = .examples ∧ ∃ carried, a.control = .steps .outline carried) := by
  cases sound with
  | start => simp [closing?, Assembly.control]
  | feature => simp [closing?, Assembly.control, Control.isComplete]
  | background => simp [closing?, Assembly.control, Control.isComplete]
  | scenario => simp [closing?, Assembly.control, Control.isComplete]
  | outline => simp [closing?, Assembly.control, Control.isComplete]
  | examples f front o sections e opened tags comments last sectioned =>
    simp [closing?, Assembly.control, Control.isComplete, currentExamples?, last, sectioned]

/-- What becomes of an event: it is accepted into a control state, or refused, and then nothing
has changed. -/
inductive Obeys (a : Assembly) (event : Event) : Option Control → Prop where
  | accepted (b : Assembly) (done : a.accept event = .accepted b) (sound : b.Sound)
      (tags : b.tags = event.tagsBehind a.tags) : Obeys a event (some b.control)
  | refused (fault : Fault) (done : a.accept event = .refused fault a) : Obeys a event none

private theorem Obeys.intro {a b : Assembly} {event : Event} {next : Option Control}
    (done : a.accept event = .accepted b) (sound : b.Sound)
    (tags : b.tags = event.tagsBehind a.tags) (control : next = some b.control) :
    a.Obeys event next :=
  control ▸ .accepted b done sound tags

private theorem Obeys.refuse {a : Assembly} {event : Event} {next : Option Control} (fault : Fault)
    (done : a.accept event = .refused fault a) (none : next = none) : a.Obeys event next :=
  none ▸ .refused fault done

private theorem obeys_setArgument {event : Event} {host : Host} {front : List Step} {step : Step}
    (argument : StepArgument) (has : a.HasSteps host (front ++ [step]))
    (done : a.accept event = .accepted (a.setArgument argument))
    (keeps : event.tagsBehind a.tags = a.tags)
    (next : a.control.next? event =
      some (.steps host (Step.carried { step with argument := some argument }))) :
    a.Obeys event (a.control.next? event) := by
  obtain ⟨sound, tags, control⟩ :=
    has.mapped (updateLast fun step => { step with argument := some argument })
  refine .intro done sound (tags.trans keeps.symm) ?_
  rw [next, setArgument, control, updateLast_concat, Step.lastCarried_concat]

private theorem Sound.obeys_row (sound : a.Sound) (cells : List Text) (line : Nat) :
    a.Obeys (.row cells line) (a.control.next? (.row cells line)) := by
  rcases sound.steps_cases with ⟨host, steps, has⟩ | ⟨without, _⟩
  · rcases List.eq_nil_or_concat' steps with rfl | ⟨front, step, rfl⟩
    · refine .refuse ⟨.strayRow, line⟩ ?_ ?_
      · simp [accept, acceptRow, has.noExamples, currentStep?, has.current]
      · simp [has.control, Control.next?, Control.row?, Step.lastCarried]
    · have current : a.currentStep? = some step := by simp [currentStep?, has.current]
      have control := has.control
      rw [Step.lastCarried_concat] at control
      cases carries : step.argument with
      | none =>
        refine obeys_setArgument (.table [⟨cells, line⟩]) has ?_ rfl ?_
        · simp [accept, acceptRow, has.noExamples, current, carries]
        · simp [control, Step.carried, carries, Control.next?, Control.row?]
      | some argument =>
        cases argument with
        | table rows =>
          refine obeys_setArgument (.table (rows ++ [⟨cells, line⟩])) has ?_ rfl ?_
          · simp [accept, acceptRow, has.noExamples, current, carries]
          · simp [control, Step.carried, carries, Control.next?, Control.row?]
        | docString block =>
          refine .refuse ⟨.rowAfterDocString, line⟩ ?_ ?_
          · simp [accept, acceptRow, has.noExamples, current, carries]
          · simp [control, Step.carried, carries, Control.next?, Control.row?]
  · cases sound with
    | start => exact .refuse ⟨.strayRow, line⟩ rfl rfl
    | feature => exact .refuse ⟨.strayRow, line⟩ rfl rfl
    | background f b _ _ _ present => simp [currentSteps?, present] at without
    | scenario f front s _ _ _ last => simp [currentSteps?, last] at without
    | outline f front o _ _ _ last => simp [currentSteps?, last] at without
    | @examples filter f front o sections e opened tags comments last sectioned =>
      have done : accept ⟨some f, .examples, opened, tags, comments, filter⟩ (.row cells line) =
          .accepted (addExamplesRow ⟨cells, line⟩
            ⟨some f, .examples, opened, tags, comments, filter⟩) := by
        simp [accept, acceptRow, currentExamples?, last, sectioned]
      refine .intro done ?_ rfl ?_
      · refine .examples _ front
          { o with examples := sections ++ [{ e with rows := e.rows ++ [⟨cells, line⟩] }] }
          sections _ opened tags comments ?_ rfl
        simp [last, sectioned, updateLast_concat]
      · simp [Control.next?, Control.row?, control, addExamplesRow, currentExamples?, last,
          sectioned, updateLast_concat]

private theorem Sound.obeys_docString (sound : a.Sound) (content : Text) (line : Nat) :
    a.Obeys (.docString content line) (a.control.next? (.docString content line)) := by
  rcases sound.steps_cases with ⟨host, steps, has⟩ | ⟨without, noHost⟩
  · rcases List.eq_nil_or_concat' steps with rfl | ⟨front, step, rfl⟩
    · refine .refuse ⟨.strayDocString, line⟩ ?_ ?_
      · simp [accept, acceptDocString, currentStep?, has.current]
      · simp [has.control, Control.next?, Step.lastCarried]
    · have current : a.currentStep? = some step := by simp [currentStep?, has.current]
      have control := has.control
      rw [Step.lastCarried_concat] at control
      obtain ⟨keyword, name, at_, argument⟩ := step
      cases argument with
      | none =>
        refine obeys_setArgument (.docString ⟨content, line⟩) has ?_ rfl ?_
        · simp [accept, acceptDocString, current]
        · simp [control, Step.carried, Control.next?]
      | some argument =>
        refine .refuse ⟨.strayDocString, line⟩ ?_ ?_
        · simp [accept, acceptDocString, current]
        · cases argument <;> simp [control, Step.carried, Control.next?]
  · refine .refuse ⟨.strayDocString, line⟩ ?_ ?_
    · simp [accept, acceptDocString, currentStep?, without]
    · cases reached : a.control with
      | steps host carried => exact absurd reached (noHost host carried)
      | _ => rfl

/-- The control state behind an event, given the tags that wait. -/
def next? (a : Assembly) (event : Event) : Option Control :=
  if event.meetsTags ∧ !event.takesTags ∧ a.tags ≠ [] then none else a.control.next? event

private theorem Sound.obeys_step (sound : a.Sound) (keyword name : Text) (line : Nat) :
    a.Obeys (.step keyword name line) (a.next? (.step keyword name line)) := by
  by_cases waiting : a.tags = []
  · rcases sound.steps_cases with ⟨host, steps, has⟩ | ⟨without, noHost⟩
    · obtain ⟨sound, tags, control⟩ := has.mapped (· ++ [⟨keyword, name.trim, line, none⟩])
      refine .intro ?_ sound (tags.trans waiting) ?_
      · simp [accept, acceptStep, waiting, has.current]
      · rw [control, Step.lastCarried_concat]
        simp [next?, waiting, has.control, Control.next?, Step.carried]
    · refine .refuse ⟨.strayStep, line⟩ ?_ ?_
      · simp [accept, acceptStep, waiting, without]
      · simp only [next?, waiting, ne_eq, not_true_eq_false, and_false, if_false]
        cases reached : a.control with
        | steps host carried => exact absurd reached (noHost host carried)
        | _ => rfl
  · refine .refuse ⟨.taggedStep, line⟩ ?_ ?_
    · simp [accept, acceptStep, waiting]
    · simp [next?, Event.meetsTags, Event.takesTags, waiting]

private theorem Sound.obeys_feature (sound : a.Sound) (h : Header) :
    a.Obeys (.header .feature h) (a.next? (.header .feature h)) := by
  cases sound with
  | start opened tags comments =>
    exact .accepted _ rfl (.feature (h.toFeature comments tags) h.line [] [] rfl rfl) rfl
  | examples f front o sections e =>
    refine .refuse ⟨.secondFeature, h.line⟩ rfl ?_
    simp [next?, Event.takesTags, control, Control.next?, Control.open?]
  | _ => exact .refuse ⟨.secondFeature, h.line⟩ rfl rfl

private theorem Sound.obeys_background (sound : a.Sound) (h : Header) :
    a.Obeys (.header .background h) (a.next? (.header .background h)) := by
  by_cases waiting : a.tags = []
  · have next : a.next? (.header .background h) = a.control.open? .background := by
      simp [next?, waiting, Control.next?]
    rw [next]
    cases sound with
    | start opened tags comments =>
      refine .refuse ⟨.noFeature .background, h.line⟩ ?_ rfl
      simpa [accept, acceptHeader, acceptBackground] using waiting
    | @feature filter f opened tags comments bare empty =>
      have done : accept ⟨some f, .feature, opened, tags, comments, filter⟩ (.header .background h) =
          .accepted ⟨some { f with background := some (h.toBackground comments) },
            .background, h.line, tags, [], filter⟩ := by
        have none : tags = [] := waiting
        simp [accept, acceptHeader, acceptBackground, none, bare, empty, closing?, enter,
          Header.toBackground]
      refine .intro done (.background _ _ _ _ _ rfl empty) waiting ?_
      simp [control, Control.open?, currentSteps?, Step.lastCarried, Header.toBackground]
    | background f b opened tags comments present =>
      have none : tags = [] := waiting
      refine .refuse ⟨.misplacedBackground, h.line⟩ ?_ rfl
      simp [accept, acceptHeader, acceptBackground, none, present]
    | scenario f front s opened tags comments last =>
      have none : tags = [] := waiting
      refine .refuse ⟨.misplacedBackground, h.line⟩ ?_ rfl
      simp [accept, acceptHeader, acceptBackground, none, last]
    | outline f front o opened tags comments last =>
      have none : tags = [] := waiting
      refine .refuse ⟨.misplacedBackground, h.line⟩ ?_ rfl
      simp [accept, acceptHeader, acceptBackground, none, last]
    | examples f front o sections e opened tags comments last =>
      have none : tags = [] := waiting
      refine .refuse ⟨.misplacedBackground, h.line⟩ ?_ ?_
      · simp [accept, acceptHeader, acceptBackground, none, last]
      · simp [control, Control.open?]
  · refine .refuse ⟨.taggedBackground, h.line⟩ ?_ ?_
    · simp [accept, acceptHeader, acceptBackground, waiting]
    · simp [next?, Event.meetsTags, Event.takesTags, waiting]

/-- The header of an element is taken where the current section is complete. -/
theorem Sound.acceptElement_cases (sound : a.Sound) (kind : SectionKind) (next : Section)
    (line : Nat) (element : Element) (notExamples : next ≠ .examples) :
    (a.control.isComplete = true ∧ ∃ f, a.feature = some f ∧
      a.acceptElement kind next line element =
        .accepted ⟨some { f with elements := f.elements ++ [element] }, next, line, [], [], a.filter⟩) ∨
    (a.control.isComplete = false ∧
      ∃ fault, a.acceptElement kind next line element = .refused fault a) := by
  cases present : a.feature with
  | none =>
    right
    cases sound with
    | start => exact ⟨rfl, _, rfl⟩
    | _ => cases present
  | some f =>
    have started : a.control ≠ .start := by
      cases sound with
      | start => cases present
      | _ => simp [control]
    have leaves := sound.closing?_eq_none_iff next
    simp only [started, notExamples, false_and, or_false, false_or] at leaves
    cases closes : a.closing? next with
    | none =>
      left
      exact ⟨leaves.mp closes, f, rfl, by simp [acceptElement, present, closes, enter]⟩
    | some fault =>
      right
      refine ⟨?_, fault, by simp [acceptElement, present, closes]⟩
      rw [← Bool.not_eq_true, ← leaves, closes]
      simp

private theorem Sound.next?_header (kind : SectionKind) (h : Header) (taker : kind ≠ .background) :
    a.next? (.header kind h) = a.control.open? kind := by
  simp [next?, Event.takesTags, taker, Control.next?]

private theorem Sound.obeys_scenario (sound : a.Sound) (h : Header) :
    a.Obeys (.header .scenario h) (a.next? (.header .scenario h)) := by
  have opens : a.next? (.header .scenario h) =
      if a.control.isComplete then some (.steps .scenario .noStep) else none := by
    rw [Sound.next?_header _ _ (by decide), Control.open?]
  rw [opens]
  rcases sound.acceptElement_cases .scenario .scenario h.line
      (.scenario (h.toScenario a.comments a.tags)) (by decide) with
    ⟨complete, f, _, done⟩ | ⟨incomplete, fault, done⟩
  · refine .intro done (.scenario _ f.elements _ _ _ _ rfl) rfl ?_
    rw [if_pos complete]
    simp [control, currentSteps?, Step.lastCarried, Header.toScenario]
  · exact .refuse fault done (by simp [incomplete])

private theorem Sound.obeys_outline (sound : a.Sound) (h : Header) :
    a.Obeys (.header .outline h) (a.next? (.header .outline h)) := by
  have opens : a.next? (.header .outline h) =
      if a.control.isComplete then some (.steps .outline .noStep) else none := by
    rw [Sound.next?_header _ _ (by decide), Control.open?]
  rw [opens]
  rcases sound.acceptElement_cases .outline .outline h.line
      (.outline (h.toOutline a.comments a.tags)) (by decide) with
    ⟨complete, f, _, done⟩ | ⟨incomplete, fault, done⟩
  · refine .intro done (.outline _ f.elements _ _ _ _ rfl rfl) rfl ?_
    rw [if_pos complete]
    simp [control, currentSteps?, Step.lastCarried, Header.toOutline]
  · exact .refuse fault done (by simp [incomplete])

private theorem Sound.obeys_examples (sound : a.Sound) (h : Header) :
    a.Obeys (.header .examples h) (a.next? (.header .examples h)) := by
  rw [Sound.next?_header _ _ (by decide)]
  cases sound with
  | @outline filter f front o opened tags comments last unfilled =>
    have done : accept ⟨some f, .outline, opened, tags, comments, filter⟩ (.header .examples h) =
        .accepted ⟨some { f with elements :=
          front ++ [.outline { o with examples := [h.toExamples comments tags] }] },
          .examples, h.line, [], [], filter⟩ := by
      simp [accept, acceptHeader, acceptExamples, closing?, enter, addExamples?, last,
        updateLast_concat, unfilled, Header.toExamples]
    refine .intro done (.examples _ front _ [] _ _ _ _ rfl rfl) rfl ?_
    simp [control, Control.open?, Control.takesExamples, currentExamples?, Header.toExamples]
  | @examples filter f front o sections e opened tags comments last sectioned =>
    cases filled : e.rows.isEmpty with
    | true =>
      refine .refuse ⟨.examplesWithoutTable, opened⟩ ?_ ?_
      · simp [accept, acceptHeader, acceptExamples, closing?, currentExamples?, last, sectioned, filled]
      · simp [control, Control.open?, Control.takesExamples, currentExamples?, last, sectioned, filled]
    | false =>
      have done : accept ⟨some f, .examples, opened, tags, comments, filter⟩ (.header .examples h) =
          .accepted ⟨some { f with elements := front ++
            [.outline { o with examples := sections ++ [e] ++ [h.toExamples comments tags] }] },
            .examples, h.line, [], [], filter⟩ := by
        simp [accept, acceptHeader, acceptExamples, closing?, currentExamples?, enter, addExamples?,
          last, sectioned, filled, updateLast_concat, Header.toExamples]
      refine .intro done (.examples _ front _ (sections ++ [e]) _ _ _ _ rfl rfl) rfl ?_
      simp [control, Control.open?, Control.takesExamples, currentExamples?, last, sectioned, filled,
        Header.toExamples]
  | _ => exact .refuse ⟨.examplesWithoutOutline, h.line⟩ rfl rfl

/-- What waits matters to no control state. -/
private theorem Sound.waiting (sound : a.Sound) (tags : List Tag) (comments : List Comment) :
    Sound { a with tags := tags, comments := comments } ∧
      control { a with tags := tags, comments := comments } = a.control := by
  cases sound with
  | start => exact ⟨.start _ _ _, rfl⟩
  | feature f _ _ _ bare empty => exact ⟨.feature f _ _ _ bare empty, rfl⟩
  | background f b _ _ _ present empty => exact ⟨.background f b _ _ _ present empty, rfl⟩
  | scenario f front s _ _ _ last => exact ⟨.scenario f front s _ _ _ last, rfl⟩
  | outline f front o _ _ _ last unfilled => exact ⟨.outline f front o _ _ _ last unfilled, rfl⟩
  | examples f front o sections e _ _ _ last sectioned =>
    exact ⟨.examples f front o sections e _ _ _ last sectioned, rfl⟩

/-- Nor do the comments of the feature. -/
private theorem Sound.owning (sound : a.Sound) (own : List Comment) :
    Sound { a with feature := a.feature.map fun f => { f with comments := own } } ∧
      control { a with feature := a.feature.map fun f => { f with comments := own } } =
        a.control := by
  cases sound with
  | start => exact ⟨.start _ _ _, rfl⟩
  | feature f _ _ _ bare empty => exact ⟨.feature _ _ _ _ bare empty, rfl⟩
  | background f b _ _ _ present empty => exact ⟨.background _ b _ _ _ present empty, rfl⟩
  | scenario f front s _ _ _ last => exact ⟨.scenario _ front s _ _ _ last, rfl⟩
  | outline f front o _ _ _ last unfilled => exact ⟨.outline _ front o _ _ _ last unfilled, rfl⟩
  | examples f front o sections e _ _ _ last sectioned =>
    exact ⟨.examples _ front o sections e _ _ _ last sectioned, rfl⟩

private theorem Sound.obeys_end (sound : a.Sound) (line : Nat) :
    a.Obeys (.endOfInput line) (a.next? (.endOfInput line)) := by
  by_cases waiting : a.tags = []
  · have next : a.next? (.endOfInput line) =
        if a.control = .start ∨ a.control.isComplete then some a.control else none := by
      simp [next?, waiting, Control.next?]
    have leaves := sound.closing?_eq_none_iff .start
    simp only [reduceCtorEq, false_and, or_false] at leaves
    rw [next]
    cases present : a.feature with
    | none =>
      have started : a.control = .start := by
        cases sound with
        | start => rfl
        | _ => cases present
      have done : a.accept (.endOfInput line) = .accepted a := by
        simp [accept, acceptEnd, waiting, present]
      exact .intro done sound waiting (by simp [started])
    | some f =>
      cases closes : a.closing? .start with
      | none =>
        obtain ⟨owning, sameOwning⟩ := sound.owning (f.comments ++ a.comments)
        obtain ⟨sound', same⟩ := owning.waiting a.tags []
        refine .intro ?_ sound' waiting (by rw [same, sameOwning, if_pos (leaves.mp closes)])
        simp [accept, acceptEnd, waiting, present, closes]
      | some fault =>
        refine .refuse fault ?_ (if_neg fun h => ?_)
        · simp [accept, acceptEnd, waiting, present, closes]
        · rw [leaves.mpr h] at closes
          cases closes
  · refine .refuse ⟨.tagsAtEnd, line⟩ ?_ ?_
    · simp [accept, acceptEnd, waiting]
    · simp [next?, Event.meetsTags, Event.takesTags, waiting]

/-- What a step of the assembly can do: an event is accepted exactly when the control state and the
waiting tags allow it, the invariant is kept, and a refused event changes nothing. -/
theorem Sound.obeys (sound : a.Sound) (event : Event) : a.Obeys event (a.next? event) := by
  cases event with
  | comment text line =>
    obtain ⟨sound', same⟩ := sound.waiting a.tags (a.comments ++ [⟨text.trim, line⟩])
    exact .intro rfl sound' rfl (by rw [same]; rfl)
  | tag name line =>
    obtain ⟨sound', same⟩ := sound.waiting (a.tags ++ [⟨name, line⟩]) a.comments
    exact .intro rfl sound' rfl (by rw [same]; rfl)
  | header kind h =>
    cases kind with
    | feature => exact sound.obeys_feature h
    | background => exact sound.obeys_background h
    | scenario => exact sound.obeys_scenario h
    | outline => exact sound.obeys_outline h
    | examples => exact sound.obeys_examples h
  | step keyword name line => exact sound.obeys_step keyword name line
  | row cells line => exact sound.obeys_row cells line
  | docString content line => exact sound.obeys_docString content line
  | endOfInput line => exact sound.obeys_end line

/-- What is known behind an accepted event. -/
theorem Sound.accepted (sound : a.Sound) {event : Event} {b : Assembly}
    (done : a.accept event = .accepted b) :
    b.Sound ∧ b.tags = event.tagsBehind a.tags ∧ a.next? event = some b.control := by
  have obeys := sound.obeys event
  generalize a.next? event = next at obeys
  cases obeys with
  | accepted c done' sound' tags =>
    rw [done] at done'
    cases done'
    exact ⟨sound', tags, rfl⟩
  | refused fault done' =>
    rw [done] at done'
    cases done'

/-- An event is accepted where the control state and the waiting tags allow it. -/
theorem Sound.exists_accepted (sound : a.Sound) {event : Event} {next : Control}
    (moves : a.next? event = some next) :
    ∃ b, a.accept event = .accepted b ∧ b.Sound ∧ b.tags = event.tagsBehind a.tags ∧
      b.control = next := by
  have obeys := sound.obeys event
  generalize a.next? event = reached at obeys moves
  cases obeys with
  | accepted b done sound' tags => exact ⟨b, done, sound', tags, Option.some.inj moves⟩
  | refused => cases moves

/-- A refused event changes nothing. -/
theorem Sound.refused (sound : a.Sound) {event : Event} {fault : Fault} {after : Assembly}
    (done : a.accept event = .refused fault after) : after = a := by
  have obeys := sound.obeys event
  generalize a.next? event = next at obeys
  cases obeys with
  | accepted c done' =>
    rw [done] at done'
    cases done'
  | refused fault' done' =>
    rw [done] at done'
    cases done'
    rfl

end

end Assembly

end FeatureFile
