import FeatureFile.Document.Fault
import FeatureFile.Document.Description
import FeatureFile.Document.Filter
/-!
Assembly of the tree from events. An assembly is the tree so far, the section it stands in, and the
tags and comments that no header has taken yet. Each event is accepted or refused; comments wait for
the next header of any kind, tags for the next one that may be tagged, and what comments are left
at the end go to the feature. A filter goes along from the beginning, for the tree at the end.
-/

namespace FeatureFile

/-- The part of a document an assembly stands in. -/
inductive Section where
  | start | feature | background | scenario | outline | examples
  deriving DecidableEq, Repr

/-- The state of tree building. -/
structure Assembly where
  feature : Option Feature
  current : Section
  /-- The line on which the current section was opened. -/
  opened : Nat
  tags : List Tag
  comments : List Comment
  filter : Filter
  deriving DecidableEq, Repr

/-- What becomes of an assembly when an event arrives. -/
inductive Outcome where
  | accepted (after : Assembly)
  | refused (fault : Fault) (after : Assembly)
  deriving DecidableEq, Repr

namespace Outcome

/-- The assembly from which building goes on. -/
def after : Outcome → Assembly
  | accepted after => after
  | refused _ after => after

/-- The fault of a refused event. -/
def fault? : Outcome → Option Fault
  | accepted _ => none
  | refused fault _ => some fault

end Outcome

/-- The list with its last element replaced by its image. -/
def updateLast {α : Type} (f : α → α) : List α → List α
  | [] => []
  | [x] => [f x]
  | x :: y :: rest => x :: updateLast f (y :: rest)

namespace Assembly

/-- Nothing read yet. -/
def start (filter : Filter := .empty) : Assembly := ⟨none, .start, 0, [], [], filter⟩

instance : Inhabited Assembly := ⟨start⟩

/-- What the filter leaves of the tree, or nothing for a document without a feature. -/
def tree (a : Assembly) : Option Feature :=
  a.feature.map a.filter.apply

/-- The steps to which the current section adds. -/
def currentSteps? (a : Assembly) : Option (List Step) :=
  a.feature.bind fun feature =>
    match a.current, feature.elements.getLast? with
    | .background, _ => feature.background.map (·.steps)
    | .scenario, some (.scenario s) => some s.steps
    | .outline, some (.outline o) => some o.steps
    | _, _ => none

/-- The examples section to which rows are added. -/
def currentExamples? (a : Assembly) : Option Examples :=
  a.feature.bind fun feature =>
    match a.current, feature.elements.getLast? with
    | .examples, some (.outline o) => o.examples.getLast?
    | _, _ => none

/-- The last step of the current section. -/
def currentStep? (a : Assembly) : Option Step :=
  a.currentSteps?.bind (·.getLast?)

/-- The steps of an element replaced by their image. -/
def mapElementSteps (f : List Step → List Step) : Element → Element
  | .scenario s => .scenario { s with steps := f s.steps }
  | .outline o => .outline { o with steps := f o.steps }

/-- The steps of the current section replaced by their image. -/
def mapSteps (f : List Step → List Step) (a : Assembly) : Assembly :=
  { a with feature := a.feature.map fun feature =>
      match a.current with
      | .background =>
        { feature with background := feature.background.map fun b => { b with steps := f b.steps } }
      | _ => { feature with elements := updateLast (mapElementSteps f) feature.elements } }

/-- The current section with one more row of examples. -/
def addExamplesRow (row : Row) (a : Assembly) : Assembly :=
  let extend (e : Examples) : Examples := { e with rows := e.rows ++ [row] }
  let extendElement : Element → Element
    | .outline o => .outline { o with examples := updateLast extend o.examples }
    | element => element
  { a with feature := a.feature.map fun feature =>
      { feature with elements := updateLast extendElement feature.elements } }

/-- The current section with the argument of its last step set. -/
def setArgument (argument : StepArgument) (a : Assembly) : Assembly :=
  a.mapSteps (updateLast fun step => { step with argument := some argument })

/-- What the current section still lacks when `next` is opened behind it. -/
def closing? (a : Assembly) (next : Section) : Option Fault :=
  match a.current with
  | .examples =>
    if a.currentExamples?.any (·.rows.isEmpty) then some ⟨.examplesWithoutTable, a.opened⟩ else none
  | .outline => if next = .examples then none else some ⟨.outlineWithoutExamples, a.opened⟩
  | _ => none

/-- The assembly in a new section, without waiting comments. -/
def enter (a : Assembly) (next : Section) (line : Nat) : Assembly :=
  { a with current := next, opened := line, comments := [] }

/-- The feature with one more examples section on its last element, if that is an outline. -/
def addExamples? (examples : Examples) (feature : Feature) : Option Feature :=
  match feature.elements.getLast? with
  | some (.outline _) =>
    let extend : Element → Element
      | .outline o => .outline { o with examples := o.examples ++ [examples] }
      | element => element
    some { feature with elements := updateLast extend feature.elements }
  | _ => none

/-- A feature header: the first and only one. -/
def acceptFeature (a : Assembly) (h : Header) : Outcome :=
  if a.feature.isSome then .refused ⟨.secondFeature, h.line⟩ a
  else match a.closing? .feature with
    | some fault => .refused fault a
    | none =>
      .accepted { a.enter .feature h.line with
        tags := []
        feature := some
          { language := none, comments := a.comments, tags := a.tags, keyword := h.keyword
            name := h.name.trim, description := normalizeDescription h.description
            line := h.line, background := none, elements := [] } }

/-- A background header: untagged, once, before every element. -/
def acceptBackground (a : Assembly) (h : Header) : Outcome :=
  if !a.tags.isEmpty then .refused ⟨.taggedBackground, h.line⟩ a
  else match a.feature with
    | none => .refused ⟨.noFeature .background, h.line⟩ a
    | some feature =>
      if feature.background.isSome || !feature.elements.isEmpty then
        .refused ⟨.misplacedBackground, h.line⟩ a
      else match a.closing? .background with
        | some fault => .refused fault a
        | none =>
          .accepted { a.enter .background h.line with
            feature := some { feature with
              background := some
                { comments := a.comments, keyword := h.keyword, name := h.name.trim
                  description := normalizeDescription h.description, line := h.line
                  steps := [] } } }

/-- The header of an element, which goes to the end of the feature. -/
def acceptElement (a : Assembly) (kind : SectionKind) (next : Section) (line : Nat)
    (element : Element) : Outcome :=
  match a.feature with
  | none => .refused ⟨.noFeature kind, line⟩ a
  | some feature =>
    match a.closing? next with
    | some fault => .refused fault a
    | none =>
      .accepted { a.enter next line with
        tags := []
        feature := some { feature with elements := feature.elements ++ [element] } }

/-- A scenario header. -/
def acceptScenario (a : Assembly) (h : Header) : Outcome :=
  a.acceptElement .scenario .scenario h.line <| .scenario
    { comments := a.comments, tags := a.tags, keyword := h.keyword, name := h.name.trim
      description := normalizeDescription h.description, line := h.line, steps := [] }

/-- An outline header. -/
def acceptOutline (a : Assembly) (h : Header) : Outcome :=
  a.acceptElement .outline .outline h.line <| .outline
    { comments := a.comments, tags := a.tags, keyword := h.keyword, name := h.name.trim
      description := normalizeDescription h.description, line := h.line, steps := []
      examples := [] }

/-- An examples header, behind an outline or other examples. The section is opened before the
outline is looked up, so a failing look-up would leave the assembly changed. -/
def acceptExamples (a : Assembly) (h : Header) : Outcome :=
  if a.current ≠ .outline ∧ a.current ≠ .examples then
    .refused ⟨.examplesWithoutOutline, h.line⟩ a
  else match a.closing? .examples with
    | some fault => .refused fault a
    | none =>
      let entered := { a.enter .examples h.line with tags := [] }
      match a.feature with
      | none => .refused ⟨.noFeature .examples, h.line⟩ entered
      | some feature =>
        let examples : Examples :=
          { comments := a.comments, tags := a.tags, keyword := h.keyword, name := h.name.trim
            description := normalizeDescription h.description, line := h.line, rows := [] }
        match addExamples? examples feature with
        | some extended => .accepted { entered with feature := some extended }
        | none => .refused ⟨.examplesWithoutOutline, h.line⟩ entered

/-- A header of any kind. -/
def acceptHeader (a : Assembly) (kind : SectionKind) (h : Header) : Outcome :=
  match kind with
  | .feature => a.acceptFeature h
  | .background => a.acceptBackground h
  | .scenario => a.acceptScenario h
  | .outline => a.acceptOutline h
  | .examples => a.acceptExamples h

/-- A step, where steps may stand and no tag waits. -/
def acceptStep (a : Assembly) (keyword name : Text) (line : Nat) : Outcome :=
  if !a.tags.isEmpty then .refused ⟨.taggedStep, line⟩ a
  else if a.currentSteps?.isNone then .refused ⟨.strayStep, line⟩ a
  else .accepted (a.mapSteps (· ++ [⟨keyword, name.trim, line, none⟩]))

/-- A row, of the current examples or else of the last step. -/
def acceptRow (a : Assembly) (row : Row) : Outcome :=
  if a.currentExamples?.isSome then .accepted (a.addExamplesRow row)
  else match a.currentStep? with
    | none => .refused ⟨.strayRow, row.line⟩ a
    | some step =>
      match step.argument with
      | none => .accepted (a.setArgument (.table [row]))
      | some (.table rows) => .accepted (a.setArgument (.table (rows ++ [row])))
      | some (.docString _) => .refused ⟨.rowAfterDocString, row.line⟩ a

/-- A doc string, for a last step without an argument. -/
def acceptDocString (a : Assembly) (block : DocString) : Outcome :=
  match a.currentStep? with
  | some ⟨_, _, _, none⟩ => .accepted (a.setArgument (.docString block))
  | _ => .refused ⟨.strayDocString, block.line⟩ a

/-- The end of the document, where no tag waits and the last section is complete. -/
def acceptEnd (a : Assembly) (line : Nat) : Outcome :=
  if !a.tags.isEmpty then .refused ⟨.tagsAtEnd, line⟩ a
  else match a.feature with
    | none => .accepted a
    | some feature =>
      match a.closing? .start with
      | some fault => .refused fault a
      | none =>
        .accepted { a with
          comments := []
          feature := some { feature with comments := feature.comments ++ a.comments } }

/-- The next event. -/
def accept (a : Assembly) : Event → Outcome
  | .comment text line => .accepted { a with comments := a.comments ++ [⟨text.trim, line⟩] }
  | .tag name line => .accepted { a with tags := a.tags ++ [⟨name, line⟩] }
  | .header kind h => a.acceptHeader kind h
  | .step keyword name line => a.acceptStep keyword name line
  | .row cells line => a.acceptRow ⟨cells, line⟩
  | .docString content line => a.acceptDocString ⟨content, line⟩
  | .endOfInput line => a.acceptEnd line

/-- The assembly as a listener: the next event, or the fault it is refused for. -/
def listen (a : Assembly) (event : Event) : Except Fault Assembly :=
  match a.accept event with
  | .accepted after => .ok after
  | .refused fault _ => .error fault

/-- The events in order, whatever becomes of each. -/
def acceptEach (a : Assembly) : List Event → List Outcome
  | [] => []
  | event :: events => a.accept event :: (a.accept event).after.acceptEach events

/-- The assembly after all events, whatever became of each. -/
def afterEach (a : Assembly) (events : List Event) : Assembly :=
  events.foldl (fun a event => (a.accept event).after) a

end Assembly

end FeatureFile
