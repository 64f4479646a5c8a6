import FeatureFile.Proofs.Document.Control
/-!
What holds of an assembly after any events, those it refused included. Two invariants carry it: the
current section stands on the part of the tree it is named for (`Assembly.Sound`), and everything in
the tree but its very end is filled (`Feature.Tidy`).
-/

namespace FeatureFile

/-! ### Filled parts of a tree -/

/-- A table that a step carries has a row. -/
def Step.IsFilled (step : Step) : Prop :=
  ∀ rows, step.argument = some (.table rows) → rows ≠ []

/-- An outline has examples, and each of them a row. -/
def Element.IsFilled : Element → Prop
  | scenario _ => True
  | outline o => o.examples ≠ [] ∧ ∀ e ∈ o.examples, e.rows ≠ []

/-- The steps of the background and of all elements. -/
def Feature.steps (f : Feature) : List Step :=
  f.background.toList.flatMap Background.steps ++ f.elements.flatMap Element.steps

/-- Only the last examples section of the last element may still lack rows, and only the last
element may lack examples. -/
structure Feature.Tidy (f : Feature) : Prop where
  tables : ∀ step ∈ f.steps, step.IsFilled
  earlier : ∀ element ∈ f.elements.dropLast, element.IsFilled
  last : ∀ o, f.elements.getLast? = some (.outline o) → ∀ e ∈ o.examples.dropLast, e.rows ≠ []

/-- How a tree ends that is in a section. -/
def Section.Fits (f : Feature) : Section → Prop
  | start => False
  | feature => f.background = none ∧ f.elements = []
  | background => f.background.isSome ∧ f.elements = []
  | scenario => ∃ s, f.elements.getLast? = some (.scenario s)
  | outline => ∃ o, f.elements.getLast? = some (.outline o) ∧ o.examples = []
  | examples => ∃ o, f.elements.getLast? = some (.outline o) ∧ o.examples ≠ []

namespace Feature

variable {f : Feature}

theorem tidy_of_empty (empty : f.elements = []) (filled : ∀ step ∈ f.steps, step.IsFilled) :
    f.Tidy := by
  refine ⟨filled, ?_, ?_⟩
  · simp [empty]
  · simp [empty]

/-- A feature by its last element. -/
theorem tidy_concat_iff {front : List Element} {element : Element}
    (last : f.elements = front ++ [element]) :
    f.Tidy ↔
      (∀ step ∈ f.background.toList.flatMap Background.steps ++ front.flatMap Element.steps,
        step.IsFilled) ∧
      (∀ step ∈ element.steps, step.IsFilled) ∧ (∀ other ∈ front, other.IsFilled) ∧
      ∀ o, element = .outline o → ∀ e ∈ o.examples.dropLast, e.rows ≠ [] := by
  have all : f.steps =
      (f.background.toList.flatMap Background.steps ++ front.flatMap Element.steps) ++
        element.steps := by
    simp [steps, last]
  constructor
  · rintro ⟨tables, earlier, lastOpen⟩
    rw [all] at tables
    simp only [last, List.dropLast_concat, List.getLast?_concat, Option.some.injEq]
      at earlier lastOpen
    exact ⟨fun step member => tables step (List.mem_append_left _ member),
      fun step member => tables step (List.mem_append_right _ member), earlier, lastOpen⟩
  · rintro ⟨before, own, earlier, lastOpen⟩
    refine ⟨?_, ?_, ?_⟩
    · intro step member
      rw [all] at member
      exact (List.mem_append.mp member).elim (before step) (own step)
    · simpa [last] using earlier
    · simpa [last] using lastOpen

/-- An element without steps and examples goes behind elements that are filled. -/
theorem Tidy.push (tidy : f.Tidy) (filled : ∀ element ∈ f.elements, element.IsFilled)
    {element : Element} (bare : element.steps = [] ∧ element.examples = []) :
    Tidy { f with elements := f.elements ++ [element] } := by
  refine (tidy_concat_iff rfl).mpr ⟨tidy.tables, ?_, filled, ?_⟩
  · simp [bare.1]
  · rintro o rfl
    have none : o.examples = [] := bare.2
    simp [none]

/-- The steps of the last element may be replaced by filled ones. -/
theorem Tidy.mapSteps (tidy : f.Tidy) {front : List Element} {element : Element}
    (last : f.elements = front ++ [element]) {g : List Step → List Step}
    (filled : (∀ step ∈ element.steps, step.IsFilled) → ∀ step ∈ g element.steps, step.IsFilled) :
    Tidy { f with elements := updateLast (Assembly.mapElementSteps g) f.elements } := by
  obtain ⟨before, own, earlier, lastOpen⟩ := (tidy_concat_iff last).mp tidy
  have moved : updateLast (Assembly.mapElementSteps g) f.elements =
      front ++ [Assembly.mapElementSteps g element] := by
    rw [last, updateLast_concat]
  refine (tidy_concat_iff moved).mpr ⟨before, ?_, earlier, ?_⟩
  · have replaced := filled own
    cases element <;> exact replaced
  · intro o same
    cases element with
    | scenario => cases same
    | outline p =>
      cases same
      exact lastOpen p rfl

/-- The examples of the last element may be replaced by some that are filled up to the last. -/
theorem Tidy.setExamples (tidy : f.Tidy) {front : List Element} {o : Outline}
    (last : f.elements = front ++ [.outline o]) {examples : List Examples}
    (filled : ∀ e ∈ examples.dropLast, e.rows ≠ []) :
    Tidy { f with elements := front ++ [.outline { o with examples := examples }] } := by
  obtain ⟨before, own, earlier, _⟩ := (tidy_concat_iff last).mp tidy
  have replaced : ({ f with elements := front ++ [.outline { o with examples := examples }] } :
      Feature).elements = front ++ [.outline { o with examples := examples }] := rfl
  refine (tidy_concat_iff replaced).mpr ⟨before, own, earlier, ?_⟩
  rintro _ ⟨⟩
  exact filled

theorem Tidy.sections_filled (tidy : f.Tidy) {front : List Element} {o : Outline}
    (last : f.elements = front ++ [.outline o]) {sections : List Examples} {e : Examples}
    (sectioned : o.examples = sections ++ [e]) : ∀ other ∈ sections, other.rows ≠ [] := by
  obtain ⟨_, _, _, lastOpen⟩ := (tidy_concat_iff last).mp tidy
  have before := lastOpen o rfl
  rwa [sectioned, List.dropLast_concat] at before

end Feature

namespace Assembly

section

variable {a b : Assembly}

/-- The tree so far, if there is one, is tidy. -/
def Tidy (a : Assembly) : Prop :=
  ∀ f, a.feature = some f → f.Tidy

theorem tidy_start (filter : Filter) : (start filter).Tidy := nofun

/-- Where a section is left, all elements are filled, unless an outline is left for its examples. -/
theorem Sound.filled_of_closing? (sound : a.Sound) {f : Feature} (present : a.feature = some f)
    (tidy : f.Tidy) {next : Section} (notExamples : next ≠ .examples)
    (closes : a.closing? next = none) : ∀ element ∈ f.elements, element.IsFilled := by
  cases sound with
  | start => cases present
  | feature g _ _ _ _ empty | background g _ _ _ _ _ empty =>
    cases present
    simp [empty]
  | scenario g front s _ _ _ last =>
    cases present
    obtain ⟨_, _, earlier, _⟩ := (Feature.tidy_concat_iff last).mp tidy
    intro element member
    rw [last, List.mem_append, List.mem_singleton] at member
    rcases member with front | rfl
    · exact earlier element front
    · trivial
  | outline => simp [closing?, notExamples] at closes
  | examples g front o sections e _ _ _ last sectioned =>
    cases present
    obtain ⟨_, _, earlier, _⟩ := (Feature.tidy_concat_iff last).mp tidy
    have before := tidy.sections_filled last sectioned
    -- The check on the section that is left supplies the one table that tidiness leaves open.
    have filled : e.rows ≠ [] := by
      simpa [closing?, currentExamples?, last, sectioned] using closes
    intro element member
    rw [last, List.mem_append, List.mem_singleton] at member
    rcases member with front | rfl
    · exact earlier element front
    · refine ⟨by simp [sectioned], ?_⟩
      simpa [sectioned, or_imp, forall_and] using ⟨before, filled⟩

/-- Filled steps at hand keep the tree tidy. -/
private theorem Sound.tidy_mapSteps (sound : a.Sound) (tidy : a.Tidy) {steps : List Step}
    (current : a.currentSteps? = some steps) {g : List Step → List Step}
    (filled : (∀ step ∈ steps, step.IsFilled) → ∀ step ∈ g steps, step.IsFilled) :
    (a.mapSteps g).Tidy := by
  cases sound with
  | start => simp [currentSteps?] at current
  | feature => simp [currentSteps?] at current
  | examples => simp [currentSteps?] at current
  | background f b _ _ _ present empty =>
    obtain rfl : b.steps = steps := by simpa [currentSteps?, present] using current
    rintro _ ⟨⟩
    have tables : ∀ step ∈ b.steps, step.IsFilled := by
      simpa [Feature.steps, present, empty] using (tidy f rfl).tables
    refine Feature.tidy_of_empty empty ?_
    simpa [Feature.steps, present, empty] using filled tables
  | scenario f front s _ _ _ last =>
    obtain rfl : s.steps = steps := by simpa [currentSteps?, last] using current
    rintro _ ⟨⟩
    exact (tidy f rfl).mapSteps last filled
  | outline f front o _ _ _ last =>
    obtain rfl : o.steps = steps := by simpa [currentSteps?, last] using current
    rintro _ ⟨⟩
    exact (tidy f rfl).mapSteps last filled

/-- So does an argument that is filled, for the last of them. -/
private theorem Sound.tidy_setArgument (sound : a.Sound) (tidy : a.Tidy) {step : Step}
    (current : a.currentStep? = some step) {argument : StepArgument}
    (filled : ∀ rows, argument = .table rows → rows ≠ []) : (a.setArgument argument).Tidy := by
  obtain ⟨steps, present, last⟩ := Option.bind_eq_some_iff.mp current
  obtain ⟨front, rfl⟩ := List.getLast?_eq_some_iff.mp last
  refine sound.tidy_mapSteps tidy present fun all => ?_
  rw [updateLast_concat]
  intro other member
  rcases List.mem_append.mp member with earlier | own
  · exact all other (List.mem_append_left _ earlier)
  · obtain rfl := List.mem_singleton.mp own
    intro rows same
    exact filled rows (Option.some.inj same)

private theorem Sound.tidy_step (sound : a.Sound) (tidy : a.Tidy) {keyword name : Text} {line : Nat}
    (done : a.accept (.step keyword name line) = .accepted b) : b.Tidy := by
  simp only [accept, acceptStep] at done
  split at done
  · cases done
  · split at done
    · cases done
    next present =>
      obtain ⟨steps, current⟩ := Option.ne_none_iff_exists'.mp (by simpa using present)
      cases done
      refine sound.tidy_mapSteps tidy current fun all => ?_
      intro step member
      rcases List.mem_append.mp member with earlier | own
      · exact all step earlier
      · obtain rfl := List.mem_singleton.mp own
        intro rows same
        cases same

private theorem Sound.tidy_row (sound : a.Sound) (tidy : a.Tidy) {cells : List Text} {line : Nat}
    (done : a.accept (.row cells line) = .accepted b) : b.Tidy := by
  simp only [accept, acceptRow] at done
  split at done
  next present =>
    -- A row of examples goes to the section that may still lack rows.
    cases done
    cases sound with
    | examples f front o sections e opened tags comments last sectioned =>
      let extended : Examples := { e with rows := e.rows ++ [⟨cells, line⟩] }
      have before : ∀ other ∈ (sections ++ [extended]).dropLast, other.rows ≠ [] := by
        simpa using (tidy f rfl).sections_filled last sectioned
      rintro _ ⟨⟩
      simpa [last, sectioned, updateLast_concat] using (tidy f rfl).setExamples last before
    | _ => simp [currentExamples?] at present
  · split at done
    · cases done
    next step current =>
      split at done
      · cases done
        exact sound.tidy_setArgument tidy current fun rows same => by cases same; simp
      · cases done
        exact sound.tidy_setArgument tidy current fun rows same => by cases same; simp
      · cases done

private theorem Sound.tidy_docString (sound : a.Sound) (tidy : a.Tidy) {content : Text} {line : Nat}
    (done : a.accept (.docString content line) = .accepted b) : b.Tidy := by
  simp only [accept, acceptDocString] at done
  split at done
  next current =>
    cases done
    exact sound.tidy_setArgument tidy current fun rows same => by cases same
  · cases done

private theorem Sound.tidy_element (sound : a.Sound) (tidy : a.Tidy) {kind : SectionKind}
    {next : Section} {line : Nat} {element : Element} (notExamples : next ≠ .examples)
    (bare : element.steps = [] ∧ element.examples = [])
    (done : a.acceptElement kind next line element = .accepted b) : b.Tidy := by
  simp only [acceptElement] at done
  split at done
  · cases done
  next f present =>
    split at done
    · cases done
    next closes =>
      cases done
      rintro _ ⟨⟩
      have filled := sound.filled_of_closing? present (tidy f present) notExamples closes
      exact (tidy f present).push filled bare

private theorem Sound.tidy_feature (sound : a.Sound) {h : Header}
    (done : a.accept (.header .feature h) = .accepted b) : b.Tidy := by
  cases sound with
  | start =>
    cases done
    rintro _ ⟨⟩
    exact Feature.tidy_of_empty rfl (by simp [Feature.steps])
  | _ => cases done

private theorem tidy_background {h : Header}
    (done : a.accept (.header .background h) = .accepted b) : b.Tidy := by
  simp only [accept, acceptHeader, acceptBackground] at done
  split at done
  · cases done
  · split at done
    · cases done
    next f present =>
      split at done
      · cases done
      next first =>
        obtain ⟨bare, empty⟩ : f.background = none ∧ f.elements = [] := by simpa using first
        split at done
        · cases done
        · cases done
          rintro _ ⟨⟩
          exact Feature.tidy_of_empty empty (by simp [Feature.steps, empty])

private theorem Sound.tidy_examples (sound : a.Sound) (tidy : a.Tidy) {h : Header}
    (done : a.accept (.header .examples h) = .accepted b) : b.Tidy := by
  simp only [accept, acceptHeader, acceptExamples] at done
  split at done
  · cases done
  next late =>
    split at done
    · cases done
    next closes =>
      cases sound with
      | outline f front o opened tags comments last unfilled =>
        simp only [addExamples?, last, List.getLast?_append, List.getLast?_singleton] at done
        cases done
        rintro _ ⟨⟩
        have before : ∀ other ∈ [h.toExamples comments tags].dropLast, other.rows ≠ [] := by simp
        simpa [updateLast_concat, unfilled, Header.toExamples] using
          (tidy f rfl).setExamples last before
      | examples f front o sections e opened tags comments last sectioned =>
        -- The section in front of the new one has been checked for rows.
        have filled : e.rows ≠ [] := by
          simpa [closing?, currentExamples?, last, sectioned] using closes
        have before : ∀ other ∈ ((sections ++ [e]) ++ [h.toExamples comments tags]).dropLast,
            other.rows ≠ [] := by
          simpa [or_imp, forall_and] using ⟨(tidy f rfl).sections_filled last sectioned, filled⟩
        simp only [addExamples?, last, List.getLast?_append, List.getLast?_singleton] at done
        cases done
        rintro _ ⟨⟩
        simpa [updateLast_concat, sectioned, Header.toExamples] using
          (tidy f rfl).setExamples last before
      | start | feature | background | scenario => simp at late

private theorem tidy_end (tidy : a.Tidy) {line : Nat}
    (done : a.accept (.endOfInput line) = .accepted b) : b.Tidy := by
  simp only [accept, acceptEnd] at done
  split at done
  · cases done
  · split at done
    · cases done
      exact tidy
    next f present =>
      split at done
      · cases done
      · cases done
        obtain ⟨tables, earlier, last⟩ := tidy f present
        rintro _ ⟨⟩
        exact ⟨tables, earlier, last⟩

/-- Every accepted event keeps the tree tidy. -/
theorem Sound.tidy (sound : a.Sound) (tidy : a.Tidy) {event : Event}
    (done : a.accept event = .accepted b) : b.Tidy := by
  cases event with
  | comment => cases done; exact tidy
  | tag => cases done; exact tidy
  | header kind h =>
    cases kind with
    | feature => exact sound.tidy_feature done
    | background => exact tidy_background done
    | scenario => exact sound.tidy_element tidy (by decide) ⟨rfl, rfl⟩ done
    | outline => exact sound.tidy_element tidy (by decide) ⟨rfl, rfl⟩ done
    | examples => exact sound.tidy_examples tidy done
  | step => exact sound.tidy_step tidy done
  | row => exact sound.tidy_row tidy done
  | docString => exact sound.tidy_docString tidy done
  | endOfInput => exact tidy_end tidy done

/-- Both invariants hold behind any events, whatever became of each. -/
theorem Sound.afterEach (sound : a.Sound) (tidy : a.Tidy) (events : List Event) :
    (a.afterEach events).Sound ∧ (a.afterEach events).Tidy := by
  induction events generalizing a with
  | nil => exact ⟨sound, tidy⟩
  | cons event events ih =>
    -- The state to go on from is a new one, or the old one if the event was refused.
    have next : (a.accept event).after.Sound ∧ (a.accept event).after.Tidy := by
      cases done : a.accept event with
      | accepted b => exact ⟨(sound.accepted done).1, sound.tidy tidy done⟩
      | refused fault b =>
        obtain rfl := sound.refused done
        exact ⟨sound, tidy⟩
    exact ih next.1 next.2

/-- Behind the two checks that an examples header makes first, the outline it goes to is there. -/
theorem Sound.accepts_examples (sound : a.Sound) (h : Header)
    (behind : a.current = .outline ∨ a.current = .examples) (closes : a.closing? .examples = none) :
    ∃ b, a.accept (.header .examples h) = .accepted b := by
  cases sound with
  | outline f front o opened tags comments last =>
    simp [accept, acceptHeader, acceptExamples, closes, addExamples?, last]
  | examples f front o sections e opened tags comments last =>
    simp [accept, acceptHeader, acceptExamples, closes, addExamples?, last]
  | start | feature | background | scenario => simp at behind

/-- The section an assembly stands in tells how its tree ends. -/
theorem Sound.fits (sound : a.Sound) :
    (a.feature = none ↔ a.current = .start) ∧ ∀ f, a.feature = some f → a.current.Fits f := by
  cases sound with
  | start => exact ⟨by simp, nofun⟩
  | feature f _ _ _ bare empty =>
    refine ⟨by simp, ?_⟩
    rintro _ ⟨⟩
    exact ⟨bare, empty⟩
  | background f b _ _ _ present empty =>
    refine ⟨by simp, ?_⟩
    rintro _ ⟨⟩
    exact ⟨by simp [present], empty⟩
  | scenario f front s _ _ _ last =>
    refine ⟨by simp, ?_⟩
    rintro _ ⟨⟩
    exact ⟨s, by simp [last]⟩
  | outline f front o _ _ _ last unfilled =>
    refine ⟨by simp, ?_⟩
    rintro _ ⟨⟩
    exact ⟨o, by simp [last], unfilled⟩
  | examples f front o sections e _ _ _ last sectioned =>
    refine ⟨by simp, ?_⟩
    rintro _ ⟨⟩
    exact ⟨o, by simp [last], by simp [sectioned]⟩

/-- A document may only end where every outline is filled. -/
theorem Sound.filled_at_end (sound : a.Sound) (tidy : a.Tidy) {line : Nat}
    (done : a.accept (.endOfInput line) = .accepted b) {f : Feature}
    (present : b.feature = some f) : ∀ element ∈ f.elements, element.IsFilled := by
  simp only [accept, acceptEnd] at done
  split at done
  · cases done
  · split at done
    next absent =>
      cases done
      rw [absent] at present
      cases present
    next g before =>
      split at done
      · cases done
      next closes =>
        have filled := sound.filled_of_closing? before (tidy g before) (by decide) closes
        cases done
        cases present
        exact filled

end

/-- Any sequence of events leads to a state with both invariants. -/
theorem reachable (filter : Filter) (events : List Event) :
    ((start filter).afterEach events).Sound ∧ ((start filter).afterEach events).Tidy :=
  (sound_start filter).afterEach (tidy_start filter) events

/-- Whatever was read before, behind whatever filter, a refused event changes nothing. This holds of an examples header too,
which opens its section before it looks for the outline: the outline is always there. -/
theorem refused_unchanged (filter : Filter) (events : List Event) :
    (∀ event fault after, ((start filter).afterEach events).accept event = .refused fault after →
      after = (start filter).afterEach events) ∧
    ∀ h, (((start filter).afterEach events).current = .outline ∨
        ((start filter).afterEach events).current = .examples) →
      ((start filter).afterEach events).closing? .examples = none →
      ∃ after, ((start filter).afterEach events).accept (.header .examples h) = .accepted after := by
  obtain ⟨sound, _⟩ := reachable filter events
  exact ⟨fun event fault after => sound.refused, sound.accepts_examples⟩

/-- An outline without examples refuses a scenario, keeps the tag that waits, and takes examples. -/
theorem refused_unchanged_outline :
    let events : List Event := [.header .feature ⟨[], [], [], 1⟩, .header .outline ⟨[], [], [], 2⟩,
      .tag ['@', 'a'] 3]
    let late : Event := .header .scenario ⟨[], [], [], 4⟩
    (∃ after, (start.afterEach events).accept late = .refused ⟨.outlineWithoutExamples, 2⟩ after ∧
      after = start.afterEach events) ∧
    ∃ after,
      (start.afterEach events).accept (.header .examples ⟨[], [], [], 5⟩) = .accepted after := by
  intro events late
  obtain ⟨unchanged, taken⟩ := refused_unchanged .empty events
  have refused : (start.afterEach events).accept late =
      .refused ⟨.outlineWithoutExamples, 2⟩ (start.afterEach events) := by decide
  exact ⟨⟨_, refused, unchanged late _ _ refused⟩, taken _ (.inl (by decide)) (by decide)⟩

/-- After any events, behind any filter, the section and the tree agree and the tree is tidy; and where the
end of the document is accepted, all of it is filled. -/
theorem reachable_fits (filter : Filter) (events : List Event) :
    (((start filter).afterEach events).feature = none ↔
      ((start filter).afterEach events).current = .start) ∧
    (∀ f, ((start filter).afterEach events).feature = some f →
      ((start filter).afterEach events).current.Fits f ∧ f.Tidy) ∧
    ∀ line after, ((start filter).afterEach events).accept (.endOfInput line) = .accepted after →
      ∀ f, after.feature = some f → ∀ element ∈ f.elements, element.IsFilled := by
  obtain ⟨sound, tidy⟩ := reachable filter events
  obtain ⟨started, fits⟩ := sound.fits
  refine ⟨started, ?_, ?_⟩
  · intro f present
    exact ⟨fits f present, tidy f present⟩
  · intro line after done f present
    exact sound.filled_at_end tidy done present

/-- The second examples header comes before the first has a row; refused, it leaves no gap. -/
theorem reachable_fits_examples :
    let events : List Event := [.header .feature ⟨[], [], [], 1⟩, .header .outline ⟨[], [], [], 2⟩,
      .header .examples ⟨[], [], [], 3⟩, .header .examples ⟨[], [], [], 4⟩, .row [] 5]
    ∃ after f, (start.afterEach events).accept (.endOfInput 6) = .accepted after ∧
      after.feature = some f ∧ (∃ element ∈ f.elements, element.examples.length = 1) ∧
      ∀ element ∈ f.elements, element.IsFilled := by
  intro events
  have done : (start.afterEach events).accept (.endOfInput 6) =
      .accepted (start.afterEach events) := by decide
  obtain ⟨f, present⟩ : ∃ f, (start.afterEach events).feature = some f := ⟨_, rfl⟩
  obtain ⟨_, _, filled⟩ := reachable_fits .empty events
  refine ⟨_, f, done, present, ?_, filled 6 _ done f present⟩
  cases present
  exact ⟨_, List.mem_cons_self, rfl⟩

end Assembly

end FeatureFile
