import FeatureFile.Document.Reading
/-!
The filter of an assembly. It goes along from the beginning, and no event reads it: what is taken, what is
refused and what is built are the same behind every filter, and only the tree at the end shows it.
-/

namespace FeatureFile

namespace Assembly

/-- The assembly with another filter. -/
def withFilter (filter : Filter) (a : Assembly) : Assembly :=
  { a with filter := filter }

end Assembly

/-- The outcome with another filter. -/
def Outcome.withFilter (filter : Filter) : Outcome → Outcome
  | accepted after => accepted (after.withFilter filter)
  | refused fault after => refused fault (after.withFilter filter)

namespace Outcome

variable (filter : Filter) (outcome : Outcome)

@[simp]
theorem after_withFilter : (outcome.withFilter filter).after = outcome.after.withFilter filter := by
  cases outcome <;> rfl

end Outcome

namespace Assembly

section

variable (filter : Filter) (a : Assembly)

/-! ### One event -/

@[simp]
theorem closing?_withFilter (next : Section) : (a.withFilter filter).closing? next = a.closing? next :=
  rfl

@[simp]
theorem feature_withFilter : (a.withFilter filter).feature = a.feature :=
  rfl

@[simp]
theorem tags_withFilter : (a.withFilter filter).tags = a.tags :=
  rfl

@[simp]
theorem current_withFilter : (a.withFilter filter).current = a.current :=
  rfl

@[simp]
theorem currentSteps?_withFilter : (a.withFilter filter).currentSteps? = a.currentSteps? :=
  rfl

@[simp]
theorem currentStep?_withFilter : (a.withFilter filter).currentStep? = a.currentStep? :=
  rfl

@[simp]
theorem currentExamples?_withFilter : (a.withFilter filter).currentExamples? = a.currentExamples? :=
  rfl

private theorem acceptFeature_withFilter (h : Header) :
    (a.withFilter filter).acceptFeature h = (a.acceptFeature h).withFilter filter := by
  unfold acceptFeature
  rw [feature_withFilter, closing?_withFilter]
  cases a.feature.isSome <;> cases a.closing? .feature <;> rfl

private theorem acceptBackground_withFilter (h : Header) :
    (a.withFilter filter).acceptBackground h = (a.acceptBackground h).withFilter filter := by
  unfold acceptBackground
  rw [feature_withFilter, closing?_withFilter, tags_withFilter]
  cases a.tags.isEmpty with
  | false => rfl
  | true =>
    cases a.feature with
    | none => rfl
    | some feature =>
      dsimp only
      cases (feature.background.isSome || !feature.elements.isEmpty) <;>
        cases a.closing? .background <;> rfl

private theorem acceptElement_withFilter (kind : SectionKind) (next : Section) (line : Nat)
    (element : Element) :
    (a.withFilter filter).acceptElement kind next line element =
      (a.acceptElement kind next line element).withFilter filter := by
  unfold acceptElement
  rw [feature_withFilter, closing?_withFilter]
  cases a.feature with
  | none => rfl
  | some feature => cases a.closing? next <;> rfl

private theorem acceptExamples_withFilter (h : Header) :
    (a.withFilter filter).acceptExamples h = (a.acceptExamples h).withFilter filter := by
  unfold acceptExamples
  rw [feature_withFilter, closing?_withFilter, current_withFilter]
  split
  · rfl
  · cases a.closing? .examples with
    | some fault => rfl
    | none =>
      cases a.feature with
      | none => rfl
      | some feature =>
        dsimp only [withFilter]
        generalize addExamples? _ feature = extended
        cases extended <;> rfl

private theorem acceptStep_withFilter (keyword name : Text) (line : Nat) :
    (a.withFilter filter).acceptStep keyword name line =
      (a.acceptStep keyword name line).withFilter filter := by
  unfold acceptStep
  rw [tags_withFilter, currentSteps?_withFilter]
  cases a.tags.isEmpty <;> cases a.currentSteps?.isNone <;> rfl

private theorem acceptRow_withFilter (row : Row) :
    (a.withFilter filter).acceptRow row = (a.acceptRow row).withFilter filter := by
  unfold acceptRow
  rw [currentExamples?_withFilter, currentStep?_withFilter]
  cases a.currentExamples?.isSome with
  | true => rfl
  | false =>
    cases a.currentStep? with
    | none => rfl
    | some step => rcases step with ⟨_, _, _, _ | _ | _⟩ <;> rfl

private theorem acceptDocString_withFilter (block : DocString) :
    (a.withFilter filter).acceptDocString block = (a.acceptDocString block).withFilter filter := by
  unfold acceptDocString
  rw [currentStep?_withFilter]
  cases a.currentStep? with
  | none => rfl
  | some step => rcases step with ⟨_, _, _, _ | _⟩ <;> rfl

private theorem acceptEnd_withFilter (line : Nat) :
    (a.withFilter filter).acceptEnd line = (a.acceptEnd line).withFilter filter := by
  unfold acceptEnd
  rw [feature_withFilter, closing?_withFilter, tags_withFilter]
  cases a.tags.isEmpty with
  | false => rfl
  | true =>
    cases a.feature with
    | none => rfl
    | some feature => cases a.closing? .start <;> rfl

/-- No event reads the filter, and none changes it. -/
theorem accept_withFilter (event : Event) :
    (a.withFilter filter).accept event = (a.accept event).withFilter filter := by
  -- Each event tells states apart by the fields above only, and leaves the filter in the record alone.
  cases event with
  | comment | tag => rfl
  | header kind h =>
    cases kind with
    | feature => exact acceptFeature_withFilter filter a h
    | background => exact acceptBackground_withFilter filter a h
    | scenario => exact acceptElement_withFilter filter a _ _ _ _
    | outline => exact acceptElement_withFilter filter a _ _ _ _
    | examples => exact acceptExamples_withFilter filter a h
  | step keyword name line => exact acceptStep_withFilter filter a keyword name line
  | row cells line => exact acceptRow_withFilter filter a _
  | docString content line => exact acceptDocString_withFilter filter a _
  | endOfInput line => exact acceptEnd_withFilter filter a line

theorem listen_withFilter (event : Event) :
    (a.withFilter filter).listen event = (a.listen event).map (withFilter filter) := by
  rw [listen, accept_withFilter, listen]
  cases a.accept event <;> rfl

/-! ### Any number of events -/

theorem deliver_withFilter (events : List Event) :
    deliver listen (a.withFilter filter) events =
      ((deliver listen a events).1.withFilter filter, (deliver listen a events).2) := by
  induction events generalizing a with
  | nil => rfl
  | cons event events ih =>
    rw [deliver, deliver, listen_withFilter]
    cases a.listen event with
    | ok next => exact ih next
    | error fault => rfl

theorem acceptEach_withFilter (events : List Event) :
    (a.withFilter filter).acceptEach events = (a.acceptEach events).map (·.withFilter filter) := by
  induction events generalizing a with
  | nil => rfl
  | cons event events ih =>
    rw [acceptEach, accept_withFilter, Outcome.after_withFilter, ih, acceptEach, List.map_cons]

theorem afterEach_withFilter (events : List Event) :
    (a.withFilter filter).afterEach events = (a.afterEach events).withFilter filter := by
  induction events generalizing a with
  | nil => rfl
  | cons event events ih =>
    rw [afterEach, List.foldl_cons, accept_withFilter, Outcome.after_withFilter]
    exact ih (a.accept event).after

/-- The filter behind a delivery is the one in front of it. -/
theorem filter_deliver (events : List Event) : (deliver listen a events).1.filter = a.filter := by
  have same := deliver_withFilter a.filter a events
  exact congrArg (fun delivered => delivered.1.filter) same

theorem filter_afterEach (events : List Event) : (a.afterEach events).filter = a.filter := by
  have same := congrArg Assembly.filter (afterEach_withFilter a.filter a events)
  exact same

end

end Assembly

/-! ### Trees -/

theorem Filter.apply_empty (f : Feature) : Filter.empty.apply f = f := by
  have keeps (element : Element) : Filter.empty.keep? f.tags element = some element := by
    cases element <;>
      simp [keep?, empty, acceptsName, acceptsLines, keepTagged?, holdsFor]
  rw [apply, show empty.keep? f.tags = some from funext keeps, List.filterMap_some]

/-- Behind the empty filter the tree is whole. -/
theorem Assembly.tree_eq_feature {a : Assembly} (unfiltered : a.filter = .empty) : a.tree = a.feature := by
  rw [tree, unfiltered]
  cases a.feature with
  | none => rfl
  | some f => rw [Option.map_some, Filter.apply_empty]

namespace Reading

variable (reading : Reading) (filter : Filter)

/-- A reading behind a filter has the faults it has without one, and of its tree what the filter leaves. -/
theorem tree_eq_map : reading.tree filter = reading.tree.map (·.map filter.apply) := by
  -- Both deliveries end alike, and at the end of the first the empty filter is still the one it began with.
  have behind := Assembly.deliver_withFilter filter .start reading.events
  have kept := Assembly.filter_deliver .start reading.events
  have start : Assembly.start filter = Assembly.start.withFilter filter := rfl
  unfold tree deliver
  rw [start, behind]
  cases delivered : FeatureFile.deliver Assembly.listen .start reading.events with
  | mk last refusal =>
    rw [delivered] at kept
    cases refusal with
    | some refusal => rfl
    | none =>
      cases reading.fault with
      | some fault => rfl
      | none =>
        simp only [Option.map_none, Except.map, Assembly.tree_eq_feature kept]
        rfl

end Reading

end FeatureFile
